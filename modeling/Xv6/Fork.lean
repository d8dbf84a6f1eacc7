import Xv6.ProcLife

/-!
# `fork` copies a process, or changes nothing

A process is built from free pages only (`Building`): its trapframe, its page table
and the copies of its parent's pages come from the free list that `allocproc` finds.
So all that happens to memory happens in these pages, and the invariant holds when
they are the pages of the process (`Building.keeps`); if the process has to be given
up, they are the free list again.
-/

namespace Xv6.UserSys

open Function Multiset

open Prog

variable {b : Bool × ℕ} {K R F : Multiset ℕ} {σ σ₁ σ' : UState} {p np : ℕ}

attribute [local irreducible] leaf

/-! ## Building a process from free pages -/

/-- Process `np` is being built from the free pages `F` of `σ`. -/
structure Building (np : ℕ) (F : Multiset ℕ) (σ σ' : UState) : Prop where
  pages : ∃ F', Chain σ'.kmem F' ∧ F' + procPages σ'.kmem.mem (σ'.proc np) = F
  touches : Touches F σ.kmem σ'.kmem
  slot : SlotOk σ'.kmem (σ'.proc np)
  same : ∀ i ≠ np, σ'.proc i = σ.proc i
  rest : (σ'.files, σ'.first, σ'.kernel) = (σ.files, σ.first, σ.kernel)

theorem Building.files (h : Building np F σ σ') : σ'.files = σ.files := (Prod.mk.inj h.rest).1

/-- The entry of a process that has no program yet. -/
theorem SlotOk.of_used {s : KMem} {q : UProc} (hstate : q.state = .USED) (hsz : q.sz ≤ TRAPFRAME)
    (hspace : q.pagetable ≠ 0 → q.trapframe ≠ 0 ∧ AddrSpace s q.pagetable q.trapframe q.sz) :
    SlotOk s q :=
  ⟨hspace, fun hun => absurd (hstate.symm.trans hun) (by decide), fun _ hne => absurd hstate hne,
    hsz⟩

/-- Giving up on the process. -/
theorem Building.undo (hsep : Sep σ.kmem.kend F) (h : Building np F σ σ₁) :
    Meets (freeproc np) σ₁ (fun _ σ' => Building np F σ σ' ∧ σ'.proc np = .unused) Never := by
  obtain ⟨F', hc, hF⟩ := h.pages
  have hsep₁ : Sep σ₁.kmem.kend (F' + procPages σ₁.kmem.mem (σ₁.proc np)) := by
    rw [hF, h.touches.kend]
    exact hsep
  refine (freeproc_frees hc hsep₁ fun hne => (h.slot.space hne).2).imp ?_
  rintro _ σ' ⟨k', rfl, hc', ht⟩
  rw [hF] at hc' ht
  refine ⟨⟨⟨F, hc', ?_⟩, h.touches.trans ht, ?_, fun i hi => ?_, h.rest⟩, update_self ..⟩
  · simp only [update_self, procPages_unused, add_zero]
  · simp only [update_self]
    exact .of_unused _
  · exact (update_of_ne hi _ _).trans (h.same i hi)

section

variable (h : UInv b K R σ) (hc : Chain σ.kmem F) (hsep : Sep σ.kmem.kend F)
include h hc hsep

/-- **A process built from free pages** keeps the invariant. -/
theorem Building.keeps (hlt : np < NPROC) (hun : (σ.proc np).state = .UNUSED)
    (hb : Building np F σ σ') : UInv b K R σ' := by
  obtain ⟨F₀, hc₀, hsep₀, -, hclose⟩ := h.atSlot hlt
  obtain rfl := hc.unique hc₀ hsep.zero_notMem hsep₀.left.left.zero_notMem
  obtain ⟨F', hc', hF⟩ := hb.pages
  obtain ⟨htf, hpt, -⟩ := (h.slots np).unused hun
  have h0 : procPages σ.kmem.mem (σ.proc np) = 0 := by simp [procPages, htf, hpt]
  rw [h0, add_zero] at hclose
  have h' := hclose σ'.kmem F' K (σ'.proc np) hc'
    (hb.touches.mono fun x hx => mem_add.mpr (.inl hx)) (by rw [add_right_comm, hF]) hb.slot
    fun _ => h.closed np (by simp [hun])
  have hproc : update σ.proc np (σ'.proc np) = σ'.proc := by
    refine funext fun i => ?_
    by_cases hi : i = np
    · rw [hi, update_self]
    · rw [update_of_ne hi]
      exact (hb.same i hi).symm
  rw [hproc] at h'
  obtain ⟨hfiles, hfirst, hkernel⟩ : σ'.files = σ.files ∧ σ'.first = σ.first ∧
      σ'.kernel = σ.kernel := by simpa only [Prod.mk.injEq] using hb.rest
  rw [← hfiles, ← hfirst, ← hkernel] at h'
  exact ⟨h'.pages, h'.layout, h'.slots, h'.range, h'.files, h'.pipes, h'.closed, h'.boot⟩

end

/-- What `allocproc` hands out: a process with an empty address space. -/
structure Embryo (pid : BitVec 32) (q : UProc) : Prop where
  state : q.state = .USED
  pagetable : q.pagetable ≠ 0
  size : q.sz = 0
  pid : q.pid = pid

/-- A trapframe, and a page table to go with it. -/
theorem allocprocFound_builds (hsep : Sep σ.kmem.kend F) (htr : σ.kmem.trampoline < WORD)
    (h : Building np F σ σ₁) (hstate : (σ₁.proc np).state = .USED)
    (h0 : (σ₁.proc np).trapframe = 0) (hpt : (σ₁.proc np).pagetable = 0)
    (hsz : (σ₁.proc np).sz = 0) :
    Meets (allocprocFound np) σ₁ (fun r σ' => Building np F σ σ' ∧
      (r = none ∧ σ'.proc np = .unused ∨ r = some np ∧ Embryo (σ₁.proc np).pid (σ'.proc np)))
      Never := by
  obtain ⟨F', hc, hF⟩ := h.pages
  obtain rfl : F' = F := by
    rw [← hF, procPages, if_pos h0, if_pos hpt]
    simp
  have hsep₁ : Sep σ₁.kmem.kend F' := h.touches.kend ▸ hsep
  have hothers : ∀ (q : UProc), ∀ i ≠ np, update σ₁.proc np q i = σ.proc i :=
    fun q i hi => (update_of_ne hi _ _).trans (h.same i hi)
  have hgive : ∀ σ₂, Building np F' σ σ₂ → Meets (do freeproc np; return none) σ₂ (fun r σ' =>
      Building np F' σ σ' ∧ (r = none ∧ σ'.proc np = .unused ∨
        r = some np ∧ Embryo (σ₁.proc np).pid (σ'.proc np))) Never := fun σ₂ h₂ => by
    rw [meets_bind]
    exact (h₂.undo hsep).imp fun _ σ' h' => ⟨h'.1, .inl ⟨rfl, h'.2⟩⟩
  rw [allocprocFound, meets_bind, US.vm, meets_zoom]
  refine (kalloc_spec hc hsep₁).imp ?_
  rintro tf k₁ (⟨rfl, hc₁, ht₁⟩ | ⟨htf, F₁, rfl, hc₁, ht₁⟩)
  · simp only [US.setProc, meets_bind, meets_modify]
    rw [if_pos trivial]
    refine hgive _ ⟨⟨F', hc₁, ?_⟩, h.touches.trans (ht₁.mono (by simp)), ?_, hothers _, h.rest⟩
    · simp [procPages, hpt]
    · simp only [update_self]
      exact .of_used hstate h.slot.size fun hne => absurd hpt hne
  · simp only [US.setProc, meets_bind, meets_modify]
    rw [if_neg htf, meets_bind, US.vm, meets_zoom]
    have htfW : tf < WORD := (hsep₁.page tf (by simp)).lt_word
    have hsep₂ : Sep k₁.kend F₁ := by
      rw [ht₁.kend]
      exact hsep₁.mono (le_cons_self _ _)
    have htr₁ : k₁.trampoline < WORD := by
      rw [ht₁.trampoline, h.touches.trampoline]
      exact htr
    refine (proc_pagetable_spec hc₁ hsep₂ htfW htr₁).imp ?_
    rintro pt k₂ ⟨F₂, hc₂, ht₂, hr⟩
    have ht : Touches (tf ::ₘ F₁) σ.kmem k₂ :=
      h.touches.trans ((ht₁.mono (by simp)).trans (ht₂.mono fun x hx => by simp [hx]))
    simp only [meets_bind, meets_modify, update_idem, update_self]
    rcases hr with ⟨rfl, rfl⟩ | ⟨hpt₂, hsum, hspace⟩
    · rw [if_pos rfl]
      refine hgive _ ⟨⟨F₂, hc₂, ?_⟩, ht, ?_, hothers _, h.rest⟩
      · simp [procPages, htf, add_comm F₂]
      · simp only [update_self]
        exact .of_used hstate h.slot.size fun hne => absurd rfl hne
    · rw [if_neg hpt₂, meets_pure]
      refine ⟨⟨⟨F₂, hc₂, ?_⟩, ht, ?_, hothers _, h.rest⟩, .inr ⟨rfl, ?_⟩⟩
      · simp only [update_self, procPages, if_neg htf, if_neg hpt₂]
        rw [← hsum, add_left_comm, singleton_add]
      · simp only [update_self]
        refine .of_used hstate h.slot.size fun _ => ⟨htf, ?_⟩
        dsimp only
        rw [hsz]
        exact hspace
      · simp only [update_self]
        exact ⟨hstate, hpt₂, hsz, rfl⟩

section

variable (h : UInv b K R σ) (hc : Chain σ.kmem F) (hsep : Sep σ.kmem.kend F)
include h hc hsep

/-- **`allocproc`** builds a process in the first entry that is free, or gives up. -/
theorem allocproc_builds : Meets allocproc σ (fun r σ' => r = none ∧ σ' = σ ∨
      ∃ np < NPROC, (σ.proc np).state = .UNUSED ∧ (∀ i < np, (σ.proc i).state ≠ .UNUSED) ∧
        Building np F σ σ' ∧
        (r = none ∧ σ'.proc np = .unused ∨ r = some np ∧ Embryo σ.nextpid (σ'.proc np))) Never := by
  have htr : σ.kmem.trampoline < WORD :=
    (h.layout.trampoline.trans_le h.layout.le).trans (by decide)
  rw [allocproc, meets_bind, meets_get]
  split
  · exact .inl ⟨rfl, rfl⟩
  · rename_i np hfind
    rw [List.find?_range_eq_some] at hfind
    obtain ⟨hun, hlt, hfirst⟩ := hfind
    rw [decide_eq_true_iff] at hun
    rw [List.mem_range] at hlt
    obtain ⟨htf, hpt, hsz⟩ := (h.slots np).unused hun
    set q' : UProc := { σ.proc np with pid := σ.nextpid, state := .USED } with hq'
    have hb : Building np F σ { σ with
        nextpid := σ.nextpid + 1, proc := update σ.proc np q' } := by
      refine ⟨⟨F, hc, ?_⟩, .refl _ _, ?_, fun i hi => update_of_ne hi _ _, rfl⟩
      · simp [procPages, hq', htf, hpt]
      · simp only [update_self]
        exact .of_used rfl (h.slots np).size fun hne => absurd hpt hne
    have hfound : Meets (allocprocFound np) { σ with
        nextpid := σ.nextpid + 1, proc := update σ.proc np q' } _ Never :=
      allocprocFound_builds hsep htr hb (by simp [hq']) (by simpa [hq'] using htf)
        (by simpa [hq'] using hpt) (by simpa [hq'] using hsz)
    refine hfound.imp fun r σ' h' => .inr ⟨np, hlt, hun, fun i hi => ?_, h'.1, ?_⟩
    · simpa using hfirst i hi
    · simpa [hq'] using h'.2

end

/-! ## The parent -/

/-- The memory of process `p` is beside the pages `F`. -/
structure ParentOk (p : ℕ) (F : Multiset ℕ) (σ : UState) : Prop where
  pagetable : (σ.proc p).pagetable ≠ 0
  space : AddrSpace σ.kmem (σ.proc p).pagetable (σ.proc p).trapframe (σ.proc p).sz
  page : ∀ x ∈ (σ.proc p).trapframe ::ₘ asPages σ.kmem.mem (σ.proc p).pagetable,
    IsPage σ.kmem.kend x ∧ x ∉ F

theorem UInv.parentOk (h : UInv b K R σ) (hrun : (σ.proc p).state = .RUNNABLE) :
    ∃ F, Chain σ.kmem F ∧ Sep σ.kmem.kend F ∧ ParentOk p F σ := by
  have hpt := h.runnable hrun
  obtain ⟨htf, hspace⟩ := (h.slots p).space hpt
  obtain ⟨F, hc, hsep, -, -⟩ := h.atSlot (h.lt_of_pagetable hpt)
  rw [procPages_eq htf hpt, singleton_add] at hsep
  exact ⟨F, hc, hsep.left.left, hpt, hspace, fun x hx => ⟨hsep.right.page x hx, fun hxF =>
    hsep.not_mem (mem_add.mpr (.inl hxF)) hx⟩⟩

section Parent

variable (hpar : ParentOk p F σ) {k' : KMem} (ht : Touches F σ.kmem k')
include hpar

theorem ParentOk.frame_notMem {v e : ℕ} (hv : v < UPAGES)
    (hl : leaf σ.kmem.mem (σ.proc p).pagetable v = some e) : PTE2PA e ∉ F :=
  (hpar.page _ (mem_cons_of_mem (mem_add.mpr (.inr (mem_frames hv hl))))).2

include ht

/-- What happens in the pages `F` does not change the memory of `p`. -/
theorem ParentOk.leaf_eq : ∀ v < 512 ^ 3,
    leaf k'.mem (σ.proc p).pagetable v = leaf σ.kmem.mem (σ.proc p).pagetable v :=
  (ht.tree _ fun x hx => by
    have hx := hpar.page x (mem_cons_of_mem (mem_add.mpr (.inl hx)))
    exact ⟨hx.1.1, hx.2⟩).2.2.1

theorem ParentOk.samePage {v e : ℕ} (hv : v < UPAGES)
    (hl : leaf σ.kmem.mem (σ.proc p).pagetable v = some e) :
    SamePage σ.kmem.mem k'.mem (PTE2PA e) (PTE2PA e) :=
  ht.samePage (PTE2PA_mod e) (hpar.frame_notMem hv hl)

theorem ParentOk.trapframe_eq : SamePage σ.kmem.mem k'.mem (σ.proc p).trapframe
    (σ.proc p).trapframe := by
  have := hpar.page _ (mem_cons_self _ _)
  exact ht.samePage this.1.1 this.2

end Parent

/-! ## The copy -/

/-- The first `n` pages of `new` are copies of those of `old`. -/
def CopyOf (m m' : Bytes) (old new n : ℕ) : Prop :=
  ∀ w < n, (leaf m' new w).map PTE_FLAGS = (leaf m old w).map PTE_FLAGS ∧
    ∀ e e', leaf m old w = some e → leaf m' new w = some e' →
      SamePage m m' (PTE2PA e) (PTE2PA e')

/-- The memory of the parent is copied to pages of the free list. -/
theorem uvmcopy_builds (hsep : Sep σ.kmem.kend F) (hpar : ParentOk p F σ)
    {pid : BitVec 32}
    (h : Building np F σ σ₁) (hnew : Embryo pid (σ₁.proc np)) :
    Meets (US.vm (uvmcopy (σ.proc p).pagetable (σ₁.proc np).pagetable (σ.proc p).sz)) σ₁
      (fun r σ' => ∃ k', σ' = { σ₁ with kmem := k' } ∧
        (r = -1 ∧ Building np F σ { σ₁ with kmem := k' } ∨
          r = 0 ∧ Building np F σ { σ₁ with
            kmem := k'
            proc := update σ₁.proc np { σ₁.proc np with sz := (σ.proc p).sz } } ∧
          CopyOf σ.kmem.mem k'.mem (σ.proc p).pagetable (σ₁.proc np).pagetable
            (npages (σ.proc p).sz))) Never := by
  obtain ⟨hstate, hpt, hsz, -⟩ := hnew
  have hU := UPAGES_eq
  have hle := npages_le.mpr hpar.space.size
  obtain ⟨htf, hspace⟩ := h.slot.space hpt
  obtain ⟨F₁, hc₁, hF⟩ := h.pages
  rw [procPages_eq htf hpt] at hF
  rw [hsz] at hspace
  set A := asPages σ₁.kmem.mem (σ₁.proc np).pagetable
  have hperm : F₁ + A + {(σ₁.proc np).trapframe} = F := by
    rw [← hF]
    abel
  have hW : ∀ x ∈ F₁ + A, x ∈ F := fun x hx => hperm ▸ mem_add.mpr (.inl hx)
  have hsepA : Sep σ₁.kmem.kend (F₁ + A) := by
    rw [h.touches.kend]
    exact (hperm ▸ hsep).left
  have hleaf := hpar.leaf_eq h.touches
  have htab : tables σ₁.kmem.mem (σ.proc p).pagetable = tables σ.kmem.mem (σ.proc p).pagetable :=
    (h.touches.tree _ fun x hx => by
      have hx := hpar.page x (mem_cons_of_mem (mem_add.mpr (.inl hx)))
      exact ⟨hx.1.1, hx.2⟩).2.1
  have hbeside : Beside σ₁.kmem (σ.proc p).pagetable (F₁ + A) := fun x hx => by
    have hx := hpar.page x (mem_cons_of_mem (mem_add.mpr (.inl (htab ▸ hx))))
    exact ⟨h.touches.kend ▸ hx.1, fun hmem => hx.2 (hW x hmem)⟩
  rw [US.vm, meets_zoom]
  refine (uvmcopy_range hc₁ hsepA hspace.ok hbeside hpar.space.size fun w hw => ?_).imp ?_
  · exact hspace.below w (by omega) (by simp [npages])
  rintro r k' ⟨F₂, hr⟩
  refine ⟨k', rfl, ?_⟩
  -- the pages of the child, with what has been copied
  have hpages : ∀ lo hi, RangeStep (σ₁.proc np).pagetable lo hi F₁ F₂ σ₁.kmem k' →
      F₂ + ({(σ₁.proc np).trapframe} + asPages k'.mem (σ₁.proc np).pagetable) = F := by
    intro lo hi hstep
    rw [← hperm, ← hstep.sum]
    abel
  rcases hr with ⟨rfl, hstep, hcopied⟩ | ⟨rfl, hstep⟩
  · have ht : Touches F σ.kmem k' := h.touches.trans (hstep.touches.mono hW)
    refine .inr ⟨rfl, ⟨⟨F₂, hstep.chain, ?_⟩, ht, ?_, fun i hi => ?_, h.rest⟩, ?_⟩
    · simp only [update_self, procPages, if_neg htf, if_neg hpt]
      exact hpages _ _ hstep
    · simp only [update_self]
      refine .of_used hstate hpar.space.size fun _ => ⟨htf, ?_⟩
      dsimp only
      refine hspace.step hstep.toAsStep hpar.space.size (fun v hv hlo => ?_)
        (fun v hv hlo => hstep.leaf_eq v hv (by omega)) ?_
      · rw [hstep.leaf_eq v (by omega) (by omega)]
        exact hspace.below v hv (by simp [npages])
      · refine hspace.readable.copied (fun v hv e he => ?_) (hcopied.copied hstep)
        rw [hleaf v (by omega)] at he
        exact hpar.space.readable v hv e he
    · exact (update_of_ne hi _ _).trans (h.same i hi)
    · intro w hw
      obtain ⟨hflags, hsame⟩ := hcopied w (by omega) hw
      rw [hleaf w (by omega)] at hflags hsame
      refine ⟨hflags, fun e e' hl hl' => ?_⟩
      have hout := hpar.frame_notMem (by omega) hl
      exact (hpar.samePage h.touches (by omega) hl).trans
        (hsame e e' hl hl' fun hmem => hout (hW _ hmem))
  · refine .inl ⟨rfl, ⟨F₂, hstep.chain, ?_⟩, h.touches.trans (hstep.touches.mono hW),
      .of_used hstate h.slot.size fun _ => ?_, h.same, h.rest⟩
    · dsimp only
      rw [procPages_eq htf hpt]
      exact hpages _ _ hstep
    · dsimp only
      rw [hsz]
      exact ⟨htf, hspace.same hstep.toAsStep hstep.leaf_all⟩

/-- Process `np` of `σ'` is a copy of process `p` of `σ`. -/
structure Forked (p np : ℕ) (σ σ' : UState) : Prop where
  unused : (σ.proc np).state = .UNUSED
  state : (σ'.proc np).state = .RUNNABLE
  parent : (σ'.proc np).parent = some p
  size : (σ'.proc np).sz = (σ.proc p).sz
  same : ∀ i ≠ np, σ'.proc i = σ.proc i
  /-- the same pages are mapped, with the same permissions and contents -/
  copy : CopyOf σ.kmem.mem σ'.kmem.mem (σ.proc p).pagetable (σ'.proc np).pagetable
    (npages (σ.proc p).sz)
  disjoint : ∀ v < UPAGES, ∀ w < UPAGES, ∀ e e',
    leaf σ.kmem.mem (σ.proc p).pagetable v = some e →
    leaf σ'.kmem.mem (σ'.proc np).pagetable w = some e' → PTE2PA e ≠ PTE2PA e'
  /-- the trapframe, except `a0` -/
  regs : ∀ k < 288, ¬(112 ≤ k ∧ k < 120) →
    σ'.kmem.mem ((σ'.proc np).trapframe + k) = σ.kmem.mem ((σ.proc p).trapframe + k)
  a0 : getLE 8 σ'.kmem.mem ((σ'.proc np).trapframe + 112) = 0

/-- `kfork`, from where the memory has been copied -/
theorem kforkRest_forks (h : UInv b K R σ) (hc : Chain σ.kmem F) (hsep : Sep σ.kmem.kend F)
    (hpar : ParentOk p F σ) (hnp : p ≠ np) (hun : (σ.proc np).state = .UNUSED) (hlt : np < NPROC)
    (hpt : (σ₁.proc np).pagetable ≠ 0)
    (hb : Building np F σ { σ₁ with
      proc := update σ₁.proc np { σ₁.proc np with sz := (σ.proc p).sz } })
    (hcopy : CopyOf σ.kmem.mem σ₁.kmem.mem (σ.proc p).pagetable (σ₁.proc np).pagetable
      (npages (σ.proc p).sz)) :
    Meets (kforkRest p np) σ₁ (fun r σ' => r = (σ₁.proc np).pid.toInt ∧ Forked p np σ σ' ∧
      UInv b K R σ' ∧ pipeEnd σ'.files = pipeEnd σ.files) Never := by
  have hU := UPAGES_eq
  have hothers : ∀ i ≠ np, σ₁.proc i = σ.proc i := fun i hi => by
    have hi' := hb.same i hi
    dsimp only at hi'
    rwa [update_of_ne hi] at hi'
  have hp := hothers p hnp
  have hslot := hb.slot
  obtain ⟨F₁, hc₁, hF⟩ := hb.pages
  simp only [update_self] at hslot hF
  obtain ⟨htf, hspace⟩ := hslot.space hpt
  rw [procPages_eq htf hpt] at hF
  have ht := hb.touches
  dsimp only at htf hspace hF ht hc₁
  set tf := (σ₁.proc np).trapframe with htfdef
  set npt := (σ₁.proc np).pagetable with hnpt
  have hsep₁ : Sep σ₁.kmem.kend (F₁ + ({tf} + asPages σ₁.kmem.mem npt)) := by
    rw [hF, ht.kend]
    exact hsep
  have hpage : tf % 4096 = 0 := (hsep₁.page tf (by simp)).1
  have htfout : tf ∉ asPages σ₁.kmem.mem npt := hsep₁.right.not_mem (mem_singleton_self _)
  -- the trapframe is copied, and the child returns 0 from `fork`
  set k₁ : KMem := { σ₁.kmem with
    mem := memmove σ₁.kmem.mem tf σ₁.kmem.mem (σ.proc p).trapframe 288 } with hk₁
  set k₂ : KMem := { k₁ with mem := putLE 8 k₁.mem (tf + 112) 0 } with hk₂
  have ht₂ : Touches {tf} σ₁.kmem k₂ :=
    (Touches.memmove hpage _ (by omega)).trans (.store hpage (by omega))
  have hout : ∀ x ∈ tables σ₁.kmem.mem npt, x % 4096 = 0 ∧ x ∉ ({tf} : Multiset ℕ) := fun x hx => by
    have hx' : x ∈ asPages σ₁.kmem.mem npt := mem_add.mpr (.inl hx)
    refine ⟨(hsep₁.right.right.page x hx').1, fun hmem => htfout ?_⟩
    rwa [← mem_singleton.mp hmem]
  have hleaf := (ht₂.tree npt hout).2.2.1
  obtain ⟨hspace₂, hpages₂⟩ := hspace.frame ht₂ hout
  have hframe : ∀ v < UPAGES, ∀ e, leaf σ₁.kmem.mem npt v = some e →
      PTE2PA e ∈ asPages σ₁.kmem.mem npt := fun v hv e hl =>
    mem_add.mpr (.inr (mem_frames hv hl))
  have hregs : ∀ k < 288, ¬(112 ≤ k ∧ k < 120) →
      k₂.mem (tf + k) = σ.kmem.mem ((σ.proc p).trapframe + k) := by
    intro k hk hne
    have hput : k₂.mem (tf + k) = k₁.mem (tf + k) := if_neg (by omega)
    have hmove : k₁.mem (tf + k) = σ₁.kmem.mem ((σ.proc p).trapframe + (tf + k - tf)) :=
      if_pos (by omega)
    rw [hput, hmove, Nat.add_sub_cancel_left]
    exact hpar.trapframe_eq ht k (by omega)
  set q' : UProc := { σ₁.proc np with
    sz := (σ.proc p).sz, parent := some p, state := .RUNNABLE } with hq'
  -- the pages of the child are those it was built from
  have hb₂ : Building np F σ { σ₁ with kmem := k₂, proc := update σ₁.proc np q' } := by
    refine ⟨⟨F₁, hc₁.frame ht₂ (fun x hx => ⟨(hsep₁.page x (by simp [hx])).1, ?_⟩) rfl, ?_⟩,
      ht.trans (ht₂.mono fun x hx => ?_), ?_, fun i hi => ?_, hb.rest⟩
    · rw [mem_singleton]
      rintro rfl
      exact hsep₁.not_mem hx (by simp)
    · simp only [update_self]
      rw [← hF, ← hpages₂]
      exact congrArg _ (procPages_eq htf hpt)
    · rw [← hF, mem_singleton.mp hx]
      simp
    · simp only [update_self]
      exact ⟨fun _ => ⟨htf, hspace₂⟩, fun hst => (by cases hst), fun _ _ => hpt, hpar.space.size⟩
    · exact (update_of_ne hi _ _).trans (hothers i hi)
  have h₂ := hb₂.keeps h hc hsep hlt hun
  have hforked : ∀ σ' : UState, σ'.kmem = k₂ → σ'.proc = update σ₁.proc np q' →
      Forked p np σ σ' := by
    intro σ' hk hproc
    have hnq : σ'.proc np = q' := by rw [hproc, update_self]
    refine ⟨hun, by rw [hnq], by rw [hnq], by rw [hnq], fun i hi => ?_, fun w hw => ?_,
      fun v hv w hw e e' hl hl' => ?_, ?_, ?_⟩
    · rw [hproc, update_of_ne hi]
      exact hothers i hi
    · have hle := npages_le.mpr hpar.space.size
      obtain ⟨hflags, hsame⟩ := hcopy w hw
      rw [hk, hnq, hleaf w (by omega)]
      refine ⟨hflags, fun e e' hl hl' => (hsame e e' hl hl').trans ?_⟩
      refine ht₂.samePage (PTE2PA_mod e') fun hmem => htfout ?_
      rw [← mem_singleton.mp hmem]
      exact hframe w (by omega) e' hl'
    · rw [hk, hnq, hleaf w (by omega)] at hl'
      refine fun heq => hpar.frame_notMem hv hl ?_
      rw [heq, ← hF]
      exact mem_add.mpr (.inr (mem_add.mpr (.inr (hframe w hw e' hl'))))
    · rw [hk, hnq]
      exact hregs
    · rw [hk, hnq]
      exact getLE_putLE _ _ (by norm_num)
  have hfd : ∀ fd, σ₁.files.ofile np fd = none := by
    rw [show σ₁.files = σ.files from hb.files]
    exact h.closed np (by simp [hun])
  simp only [kforkRest, US.proc, US.setProc, meets_bind, meets_get, meets_pure, meets_modify,
    US.vm, meets_zoom, VM.memmove, VM.store, US.files, update_self, update_idem]
  rw [hp]
  refine (dupLoop_spec h₂.files hlt le_rfl fun fd _ => hfd fd).imp ?_
  rintro _ fs' ⟨hfs, hkind, hother⟩
  have hend := pipeEnd_of_kind hkind
  refine ⟨trivial, hforked ⟨k₂, update σ₁.proc np q', fs', _, _, _⟩ rfl rfl,
    h₂.setFiles hfs hend fun i hi fd => ?_, ?_⟩
  · have hne : i ≠ np := by
      rintro rfl
      simp [hq'] at hi
    rw [hother i hne]
    exact h₂.closed i hi fd
  · rw [hend]
    exact congrArg pipeEnd hb.files

/-! ## `kfork` -/

/-- Nothing has changed for the processes there are, nor for the memory of `p`, and the same pages
are free. -/
structure NotForked (p : ℕ) (σ σ' : UState) : Prop where
  inUse : ∀ i, (σ.proc i).state ≠ .UNUSED → σ'.proc i = σ.proc i
  unused : ∀ i, (σ.proc i).state = .UNUSED → (σ'.proc i).state = .UNUSED
  /-- the entries that are not in use are cleared, if they were not -/
  table : (∀ i, (σ.proc i).state = .UNUSED → σ.proc i = .unused) → σ'.proc = σ.proc
  files : σ'.files = σ.files
  free : ∃ F, Chain σ.kmem F ∧ Sep σ.kmem.kend F ∧ Chain σ'.kmem F
  leaf_eq : ∀ v < 512 ^ 3,
    leaf σ'.kmem.mem (σ.proc p).pagetable v = leaf σ.kmem.mem (σ.proc p).pagetable v
  content : ∀ v < UPAGES, ∀ e, leaf σ.kmem.mem (σ.proc p).pagetable v = some e →
    SamePage σ.kmem.mem σ'.kmem.mem (PTE2PA e) (PTE2PA e)
  trapframe : SamePage σ.kmem.mem σ'.kmem.mem (σ.proc p).trapframe (σ.proc p).trapframe

theorem NotForked.refl (hc : Chain σ.kmem F) (hsep : Sep σ.kmem.kend F) : NotForked p σ σ :=
  ⟨fun _ _ => rfl, fun _ h => h, fun _ => rfl, rfl, ⟨F, hc, hsep, hc⟩, fun _ _ => rfl,
    fun _ _ _ _ => .refl _ _, .refl _ _⟩

theorem Building.notForked (hc : Chain σ.kmem F) (hsep : Sep σ.kmem.kend F)
    (hpar : ParentOk p F σ) (hun : (σ.proc np).state = .UNUSED) (h : Building np F σ σ')
    (h0 : σ'.proc np = .unused) : NotForked p σ σ' := by
  obtain ⟨F', hc', hF⟩ := h.pages
  obtain rfl : F' = F := by rwa [h0, procPages_unused, add_zero] at hF
  refine ⟨fun i hi => h.same i ?_, fun i hi => ?_, fun hclean => funext fun i => ?_, h.files,
    ⟨F', hc, hsep, hc'⟩, hpar.leaf_eq h.touches, fun v hv e hl => hpar.samePage h.touches hv hl,
    hpar.trapframe_eq h.touches⟩
  · rintro rfl
    exact hi hun
  · by_cases hnp : i = np
    · rw [hnp, h0]
      rfl
    · rw [h.same i hnp]
      exact hi
  · by_cases hnp : i = np
    · rw [hnp, h0, hclean np hun]
    · exact h.same i hnp

/-- Nothing has changed, or the memory has been copied and `kfork` goes on. -/
theorem kforkCopy_forks (h : UInv b K R σ) (hrun : (σ.proc p).state = .RUNNABLE) :
    Meets (kforkCopy p) σ (fun r σ₁ =>
      r = none ∧ NotForked p σ σ₁ ∧ UInv b K R σ₁ ∧ pipeEnd σ₁.files = pipeEnd σ.files ∨
      ∃ np, r = some np ∧ Meets (kforkRest p np) σ₁ (fun r σ' => r = σ.nextpid.toInt ∧
        Forked p np σ σ' ∧ UInv b K R σ' ∧ pipeEnd σ'.files = pipeEnd σ.files) Never) Never := by
  obtain ⟨F, hc, hsep, hpar⟩ := h.parentOk hrun
  have hgive : ∀ {np σ'}, np < NPROC → (σ.proc np).state = .UNUSED → Building np F σ σ' →
      σ'.proc np = .unused →
      NotForked p σ σ' ∧ UInv b K R σ' ∧ pipeEnd σ'.files = pipeEnd σ.files :=
    fun hlt hun hb h0 => ⟨hb.notForked hc hsep hpar hun h0, hb.keeps h hc hsep hlt hun,
      congrArg pipeEnd hb.files⟩
  rw [kforkCopy, meets_bind]
  refine (allocproc_builds h hc hsep).imp ?_
  rintro r σ₁ (⟨rfl, rfl⟩ | ⟨np, hlt, hun, -, hb, ⟨rfl, h0⟩ | ⟨rfl, hnew⟩⟩)
  · exact .inl ⟨rfl, .refl hc hsep, h, rfl⟩
  · exact .inl ⟨rfl, hgive hlt hun hb h0⟩
  have hnp : p ≠ np := by
    rintro rfl
    simp [hrun] at hun
  simp only [US.proc, meets_bind, meets_get, meets_pure]
  rw [hb.same p hnp]
  refine (uvmcopy_builds hsep hpar hb hnew).imp ?_
  rintro r σ₂ ⟨k', rfl, ⟨rfl, hb'⟩ | ⟨rfl, hb', hcopy⟩⟩
  · rw [if_pos (by decide), meets_bind]
    exact (hb'.undo hsep).imp fun _ σ' h' => .inl ⟨rfl, hgive hlt hun h'.1 h'.2⟩
  · rw [if_neg (by decide)]
    refine .inr ⟨np, rfl, ?_⟩
    rw [← hnew.pid]
    exact kforkRest_forks h hc hsep hpar hnp hun hlt hnew.pagetable hb' hcopy

/-- **`kfork`** keeps the invariant. -/
theorem kfork_spec (h : UInv b K R σ) (hrun : (σ.proc p).state = .RUNNABLE) :
    Meets (kfork p) σ (fun _ σ' => UInv b K R σ' ∧ pipeEnd σ'.files = pipeEnd σ.files) Never := by
  rw [kfork, meets_bind]
  refine (kforkCopy_forks h hrun).imp ?_
  rintro r σ₁ (⟨rfl, -, h'⟩ | ⟨np, rfl, hrest⟩)
  · exact h'
  · exact hrest.imp fun _ _ h' => h'.2.2

end Xv6.UserSys
