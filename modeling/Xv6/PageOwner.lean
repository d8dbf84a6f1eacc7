import Mathlib.Tactic.Abel
import Xv6.ExecSpec
import Xv6.FileRef
import Xv6.UserSys

/-!
# Who owns a page

The invariant of the machine of `UserSys`: every page of physical memory is on
the free list or has one owner, and every open file is counted right.

`UInv b K R σ` holds between the functions of a system call as well: `K` are pages
and `R` references to files that the code at hand has in its variables. A
function that works on the memory of one process is specified locally, by what
it does to the free list and the pages of this process; the rule
`UInv.atSlot` opens the invariant for it, and closes it again.
-/

namespace Xv6.UserSys

open Function

open Prog Finset

/-! ## The owners -/

/-- The pages of a process: its trapframe and its address space. -/
def procPages (m : Bytes) (q : UProc) : Multiset ℕ :=
  (if q.trapframe = 0 then 0 else {q.trapframe}) +
    if q.pagetable = 0 then 0 else asPages m q.pagetable

/-- The end of a pipe that is open as `f`: its page, and whether it is the end to write to. -/
def pipeEnd (fs : Files) (f : ℕ) : Option (ℕ × Bool) :=
  if (fs.file f).type = .FD_PIPE then some ((fs.file f).pipe, (fs.file f).writable) else none

/-- The pages of pipes that are open. -/
def pipePages (fs : Files) : Finset ℕ :=
  (range NFILE).biUnion fun f => ((pipeEnd fs f).map Prod.fst).toFinset

/-- The pages that have an owner. -/
def owned (σ : UState) : Multiset ℕ :=
  (σ.kernel : Multiset ℕ) + (pipePages σ.files).val +
    ∑ p ∈ range NPROC, procPages σ.kmem.mem (σ.proc p)

/-- The pages in `[PGROUNDUP(end), PHYSTOP)`. -/
def allPages (kend : ℕ) : Multiset ℕ :=
  ((List.range ((PHYSTOP - PGROUNDUP kend) / PGSIZE)).map fun i => PGROUNDUP kend + PGSIZE * i :
    List ℕ)

/-- The kernel is loaded below `PHYSTOP`, and not at address 0. -/
structure Layout (kend trampoline : ℕ) : Prop where
  pos : 0 < kend
  le : kend ≤ PHYSTOP
  trampoline : trampoline < kend

/-! ## The invariant -/

/-- What the memory of a process looks like. -/
structure SlotOk (s : KMem) (q : UProc) : Prop where
  space : q.pagetable ≠ 0 → q.trapframe ≠ 0 ∧ AddrSpace s q.pagetable q.trapframe q.sz
  unused : q.state = .UNUSED → q.trapframe = 0 ∧ q.pagetable = 0 ∧ q.sz = 0
  live : q.state ≠ .UNUSED → q.state ≠ .USED → q.pagetable ≠ 0
  size : q.sz ≤ TRAPFRAME

theorem SlotOk.of_unused (s : KMem) : SlotOk s .unused :=
  ⟨fun hne => absurd rfl hne, fun _ => ⟨rfl, rfl, rfl⟩, fun hne => absurd rfl hne, Nat.zero_le _⟩

theorem procPages_unused (m : Bytes) : procPages m .unused = 0 := rfl

/-- A pipe has one file for each end, and its flags tell which ends are open. -/
structure PipeOk (m : Bytes) (fs : Files) : Prop where
  ends : ∀ f g x, pipeEnd fs f = some x → pipeEnd fs g = some x → f = g
  flag : ∀ f pi w, pipeEnd fs f = some (pi, w) → getLE 4 m (openFlag pi w) = 1
  other : ∀ f pi w, pipeEnd fs f = some (pi, w) → (∀ g, pipeEnd fs g ≠ some (pi, !w)) →
    getLE 4 m (openFlag pi (!w)) = 0

/-- **The invariant**, with pages `K` and file references `R` in hand; `b` tells whether the first
process has still to start, and where the kernel ends. -/
structure UInv (b : Bool × ℕ) (K R : Multiset ℕ) (σ : UState) : Prop where
  pages : ∃ F, Chain σ.kmem F ∧ F + K + owned σ = allPages σ.kmem.kend
  layout : Layout σ.kmem.kend σ.kmem.trampoline
  slots : ∀ p, SlotOk σ.kmem (σ.proc p)
  range : ∀ p, NPROC ≤ p → (σ.proc p).state = .UNUSED
  files : FilesOk R σ.files
  pipes : PipeOk σ.kmem.mem σ.files
  closed : ∀ p, (σ.proc p).state ≠ .RUNNABLE → ∀ fd, σ.files.ofile p fd = none
  boot : (σ.first, σ.kmem.kend) = b

variable {b : Bool × ℕ} {K K' R F F' W : Multiset ℕ} {σ σ' : UState} {k' : KMem} {p kend : ℕ}
  {q q' : UProc}

/-! ## Pages -/

theorem Layout.roundup {trampoline : ℕ} (h : Layout kend trampoline) :
    PGROUNDUP kend = (kend + 4095) / 4096 * 4096 := by
  refine PGROUNDUP_of_le (h.le.trans ?_)
  decide

theorem mem_allPages {x : ℕ} : x ∈ allPages kend ↔
    PGROUNDUP kend ≤ x ∧ x < PHYSTOP ∧ x % 4096 = 0 := by
  have hmod : PGROUNDUP kend % 4096 = 0 := PGROUNDUP_mod kend
  have hP : PHYSTOP = 557056 * 4096 := rfl
  rw [allPages, Multiset.mem_coe, List.mem_map]
  unfold PGSIZE
  constructor
  · rintro ⟨i, hi, rfl⟩
    rw [List.mem_range] at hi
    omega
  · rintro ⟨h1, h2, h3⟩
    refine ⟨(x - PGROUNDUP kend) / 4096, ?_, by omega⟩
    rw [List.mem_range]
    omega

/-- There is one of each. -/
theorem sep_allPages {trampoline : ℕ} (h : Layout kend trampoline) : Sep kend (allPages kend) := by
  have hpos := h.pos
  have hup := h.roundup
  refine ⟨?_, fun x hx => ?_⟩
  · rw [allPages, Multiset.coe_nodup]
    refine List.Nodup.map (fun i j hij => ?_) List.nodup_range
    unfold PGSIZE at hij
    omega
  · obtain ⟨h1, h2, h3⟩ := mem_allPages.mp hx
    exact ⟨h3, by omega, h2, by omega⟩

theorem UInv.sep (h : UInv b K R σ) (hF : F + K + owned σ = allPages σ.kmem.kend) :
    Sep σ.kmem.kend (F + K + owned σ) := by
  rw [hF]
  exact sep_allPages h.layout

/-- The pages other than those of process `p`. -/
def others (σ : UState) (p : ℕ) : Multiset ℕ :=
  (σ.kernel : Multiset ℕ) + (pipePages σ.files).val +
    ∑ i ∈ (range NPROC).erase p, procPages σ.kmem.mem (σ.proc i)

theorem owned_eq (σ : UState) (hp : p < NPROC) :
    owned σ = procPages σ.kmem.mem (σ.proc p) + others σ p := by
  rw [owned, others, ← add_sum_erase _ _ (mem_range.mpr hp)]
  abel

/-! ## Frames -/

theorem mem_pipePages {fs : Files} {x : ℕ} :
    x ∈ pipePages fs ↔ ∃ f < NFILE, ∃ w, pipeEnd fs f = some (x, w) := by
  simp [pipePages]

/-- A file that is an end of a pipe is in use. -/
theorem pipeEnd_lt {fs : Files} {f : ℕ} {x : ℕ × Bool} (h : FilesOk R fs)
    (hf : pipeEnd fs f = some x) : f < NFILE := by
  refine h.lt_of_ref fun h0 => ?_
  rw [pipeEnd, if_neg (by simp [h.free f h0])] at hf
  cases hf

theorem pipeEnd_page {fs : Files} {f pi : ℕ} {w : Bool} (h : FilesOk R fs)
    (hf : pipeEnd fs f = some (pi, w)) : pi ∈ pipePages fs :=
  mem_pipePages.mpr ⟨f, pipeEnd_lt h hf, w, hf⟩

/-- The memory of a process is not affected by what happens elsewhere. -/
theorem SlotOk.frame {s : KMem} (h : SlotOk s q) (ht : Touches W s k')
    (hW : ∀ x ∈ procPages s.mem q, x % 4096 = 0 ∧ x ∉ W) :
    SlotOk k' q ∧ procPages k'.mem q = procPages s.mem q := by
  by_cases hpt : q.pagetable = 0
  · exact ⟨⟨fun hne => absurd hpt hne, h.unused, h.live, h.size⟩, by simp [procPages, hpt]⟩
  · obtain ⟨htf, hspace⟩ := h.space hpt
    have hsub : ∀ x ∈ tables s.mem q.pagetable, x % 4096 = 0 ∧ x ∉ W := fun x hx => by
      refine hW x (Multiset.mem_add.mpr (.inr ?_))
      rw [if_neg hpt]
      exact Multiset.mem_add.mpr (.inl hx)
    obtain ⟨hspace', hpages⟩ := hspace.frame ht hsub
    exact ⟨⟨fun _ => ⟨htf, hspace'⟩, h.unused, h.live, h.size⟩, by simp only [procPages, hpages]⟩

theorem Touches.openFlag_eq {s : KMem} {pi : ℕ} (ht : Touches W s k') (hpi : pi % 4096 = 0)
    (hW : pi ∉ W) (w : Bool) : getLE 4 k'.mem (openFlag pi w) = getLE 4 s.mem (openFlag pi w) := by
  cases w <;> exact ht.getLE_eq hpi hW (by omega)

/-- Nor are the pipes. -/
theorem PipeOk.frame {s : KMem} {fs : Files} (h : PipeOk s.mem fs) (hfs : FilesOk R fs)
    (ht : Touches W s k') (hW : ∀ x ∈ pipePages fs, x % 4096 = 0 ∧ x ∉ W) :
    PipeOk k'.mem fs := by
  refine ⟨h.ends, fun f pi w hf => ?_, fun f pi w hf hno => ?_⟩
  · obtain ⟨h1, h2⟩ := hW pi (pipeEnd_page hfs hf)
    rw [Touches.openFlag_eq ht h1 h2]
    exact h.flag f pi w hf
  · obtain ⟨h1, h2⟩ := hW pi (pipeEnd_page hfs hf)
    rw [Touches.openFlag_eq ht h1 h2]
    exact h.other f pi w hf hno

theorem mem_others {i x : ℕ} (hi : i < NPROC) (hip : i ≠ p)
    (hx : x ∈ procPages σ.kmem.mem (σ.proc i)) : x ∈ others σ p := by
  rw [others, Multiset.mem_add]
  exact .inr (Multiset.mem_sum.mpr ⟨i, mem_erase.mpr ⟨hip, mem_range.mpr hi⟩, hx⟩)

/-- **Opening the invariant for one process.** The code works on free pages, on pages in hand and on
the pages of process `p`; what is left is as it was. -/
theorem UInv.atSlot (h : UInv b K R σ) (hp : p < NPROC) :
    ∃ F, Chain σ.kmem F ∧ Sep σ.kmem.kend (F + K + procPages σ.kmem.mem (σ.proc p)) ∧
      Sep σ.kmem.kend (F + K + procPages σ.kmem.mem (σ.proc p) + others σ p) ∧
      ∀ (k' : KMem) (F' K' : Multiset ℕ) (q' : UProc), Chain k' F' →
        Touches (F + K + procPages σ.kmem.mem (σ.proc p)) σ.kmem k' →
        F' + K' + procPages k'.mem q' = F + K + procPages σ.kmem.mem (σ.proc p) →
        SlotOk k' q' → (q'.state ≠ .RUNNABLE → ∀ fd, σ.files.ofile p fd = none) →
        UInv b K' R { σ with kmem := k', proc := update σ.proc p q' } := by
  obtain ⟨F, hc, hsum⟩ := h.pages
  have hsep := h.sep hsum
  rw [owned_eq σ hp, ← add_assoc] at hsep
  refine ⟨F, hc, hsep.left, hsep, fun k' F' K' q' hc' ht hsum' hslot hclosed => ?_⟩
  have hout : ∀ x ∈ others σ p,
      x % 4096 = 0 ∧ x ∉ F + K + procPages σ.kmem.mem (σ.proc p) := fun x hx =>
    ⟨(hsep.right.page x hx).1, fun hx' => hsep.not_mem hx' hx⟩
  -- the other processes
  have hother : ∀ i < NPROC, i ≠ p → SlotOk k' (σ.proc i) ∧
      procPages k'.mem (σ.proc i) = procPages σ.kmem.mem (σ.proc i) := by
    intro i hi hip
    exact (h.slots i).frame ht fun x hx => hout x (mem_others hi hip hx)
  have hpipes : PipeOk k'.mem σ.files := by
    refine h.pipes.frame h.files ht fun x hx => hout x ?_
    rw [others, Multiset.mem_add, Multiset.mem_add]
    exact .inl (.inr hx)
  have hrest : others { σ with kmem := k', proc := update σ.proc p q' } p = others σ p := by
    refine congrArg _ (sum_congr rfl fun i hi => ?_)
    obtain ⟨hip, hi⟩ := mem_erase.mp hi
    dsimp only
    rw [update_of_ne hip]
    exact (hother i (mem_range.mp hi) hip).2
  refine ⟨⟨F', hc', ?_⟩, ?_, fun i => ?_, fun i hi => ?_, h.files, hpipes, fun i hi => ?_, ?_⟩
  · rw [owned_eq _ hp, hrest, ← add_assoc]
    dsimp only
    rw [update_self, hsum', add_assoc, ← owned_eq σ hp, hsum, ht.kend]
  · dsimp only
    rw [ht.kend, ht.trampoline]
    exact h.layout
  · dsimp only
    by_cases hip : i = p
    · subst hip
      rw [update_self]
      exact hslot
    · rw [update_of_ne hip]
      by_cases hi : i < NPROC
      · exact (hother i hi hip).1
      · have hun := h.range i (by omega)
        have h0 := (h.slots i).unused hun
        exact ⟨fun hne => absurd h0.2.1 hne, fun _ => h0, fun hne => absurd hun hne,
          (h.slots i).size⟩
  · dsimp only
    rw [update_of_ne (by omega)]
    exact h.range i hi
  · dsimp only at hi ⊢
    by_cases hip : i = p
    · subst hip
      rw [update_self] at hi
      exact hclosed hi
    · rw [update_of_ne hip] at hi
      exact h.closed i hi
  · dsimp only
    rw [ht.kend]
    exact h.boot

/-- Opening the invariant for code that works on free pages and pages in hand only. -/
theorem UInv.atMem (h : UInv b K R σ) :
    ∃ F, Chain σ.kmem F ∧ Sep σ.kmem.kend (F + K) ∧
      ∀ (k' : KMem) (F' K' : Multiset ℕ), Chain k' F' → Touches (F + K) σ.kmem k' →
        F' + K' = F + K → UInv b K' R { σ with kmem := k' } := by
  have hp : 0 < NPROC := by decide
  obtain ⟨F, hc, hsep, -, hclose⟩ := h.atSlot hp
  refine ⟨F, hc, hsep.left, fun k' F' K' hc' ht hsum => ?_⟩
  obtain ⟨hslot, hpages⟩ := (h.slots 0).frame ht fun x hx =>
    ⟨(hsep.right.page x hx).1, fun hx' => hsep.not_mem hx' hx⟩
  have := hclose k' F' K' (σ.proc 0) hc' (ht.mono fun x hx => Multiset.mem_add.mpr (.inl hx))
    (by rw [hsum, hpages]) hslot (h.closed 0)
  rwa [update_eq_self] at this

end Xv6.UserSys
