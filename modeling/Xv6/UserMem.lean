import Xv6.PageOwner

/-!
# System calls on the memory of one process

`sbrk`, page faults, stores, copies to and from user space and `exec` keep the
invariant. Each runs code of `vm.c` or `exec.c` on the address space of the
process, so the proofs open the invariant there (`UInv.atSpace`) and use the
specification of that code.
-/

namespace Xv6.UserSys

open Multiset

open Prog Finset

variable {b : Bool × ℕ} {K R F F' W : Multiset ℕ} {σ σ' : UState} {s s' : KMem} {p root tf sz va : ℕ}
  {E : String → Prop}

/-! ## Opening the invariant -/

theorem procPages_eq {m : Bytes} {q : UProc} (htf : q.trapframe ≠ 0) (hpt : q.pagetable ≠ 0) :
    procPages m q = {q.trapframe} + asPages m q.pagetable := by
  rw [procPages, if_neg htf, if_neg hpt]

/-- A `RUNNABLE` process has an address space. -/
theorem UInv.runnable (h : UInv b K R σ) (hrun : (σ.proc p).state = .RUNNABLE) :
    (σ.proc p).pagetable ≠ 0 :=
  (h.slots p).live (by simp [hrun]) (by simp [hrun])

theorem UInv.lt_of_pagetable (h : UInv b K R σ) (hpt : (σ.proc p).pagetable ≠ 0) : p < NPROC := by
  by_contra hge
  exact hpt ((h.slots p).unused (h.range p (by omega))).2.1

/-- **Opening the invariant for the address space of a process.** -/
theorem UInv.atSpace (h : UInv b K R σ) (hpt : (σ.proc p).pagetable ≠ 0) :
    ∃ F, Chain σ.kmem F ∧
      Sep σ.kmem.kend (F + asPages σ.kmem.mem (σ.proc p).pagetable) ∧
      AddrSpace σ.kmem (σ.proc p).pagetable (σ.proc p).trapframe (σ.proc p).sz ∧
      ∀ (k' : KMem) (F' : Multiset ℕ) (sz' : ℕ),
        AsStep (σ.proc p).pagetable F F' σ.kmem k' →
        AddrSpace k' (σ.proc p).pagetable (σ.proc p).trapframe sz' →
        UInv b K R { σ with
          kmem := k'
          proc := Function.update σ.proc p { σ.proc p with sz := sz' } } ∧
        ∀ i < NPROC, i ≠ p →
          procPages k'.mem (σ.proc i) = procPages σ.kmem.mem (σ.proc i) := by
  obtain ⟨htf, hspace⟩ := (h.slots p).space hpt
  obtain ⟨F, hc, -, hsep, hclose⟩ := h.atSlot (h.lt_of_pagetable hpt)
  rw [procPages_eq htf hpt] at hsep hclose
  set A := asPages σ.kmem.mem (σ.proc p).pagetable
  have hperm : F + K + ({(σ.proc p).trapframe} + A) = F + A + (K + {(σ.proc p).trapframe}) := by
    abel
  rw [hperm] at hsep
  refine ⟨F, hc, hsep.left.left, hspace, fun k' F' sz' hstep hspace' => ⟨?_, fun i hi hip => ?_⟩⟩
  swap
  · refine ((h.slots i).frame hstep.touches fun x hx => ?_).2
    have hx' := mem_others hi hip hx
    exact ⟨(hsep.right.page x hx').1, fun hxA => hsep.not_mem
      (mem_add.mpr (.inl hxA)) hx'⟩
  refine hclose k' F' K _ hstep.chain ?_ ?_ ⟨fun _ => ⟨htf, hspace'⟩,
    fun hun => absurd ((h.slots p).unused hun).1 htf, (h.slots p).live, hspace'.size⟩ (h.closed p)
  · refine hstep.touches.mono fun x hx => ?_
    rw [hperm]
    exact mem_add.mpr (.inl hx)
  · have hq : procPages k'.mem { σ.proc p with sz := sz' } =
        {(σ.proc p).trapframe} + asPages k'.mem (σ.proc p).pagetable := procPages_eq htf hpt
    rw [hq, hperm, ← hstep.sum]
    abel

/-- The same, for code that does not change the size of the process. -/
theorem UInv.vm_space {α : Type} {x : VM α} (h : UInv b K R σ) (hpt : (σ.proc p).pagetable ≠ 0)
    (hx : ∀ F, Chain σ.kmem F → Sep σ.kmem.kend (F + asPages σ.kmem.mem (σ.proc p).pagetable) →
      AddrSpace σ.kmem (σ.proc p).pagetable (σ.proc p).trapframe (σ.proc p).sz →
      Meets x σ.kmem (fun _ k' => ∃ F', AsStep (σ.proc p).pagetable F F' σ.kmem k' ∧
        AddrSpace k' (σ.proc p).pagetable (σ.proc p).trapframe (σ.proc p).sz) E) :
    Meets (US.vm x) σ (fun _ σ' => UInv b K R σ' ∧ ∃ k', σ' = { σ with kmem := k' } ∧
      ∀ i < NPROC, i ≠ p →
        procPages k'.mem (σ.proc i) = procPages σ.kmem.mem (σ.proc i)) E := by
  obtain ⟨F, hc, hsep, hspace, hclose⟩ := h.atSpace hpt
  rw [US.vm, meets_zoom]
  refine (hx F hc hsep hspace).imp ?_
  rintro a k' ⟨F', hstep, hspace'⟩
  obtain ⟨h', hframe⟩ := hclose k' F' _ hstep hspace'
  rw [Function.update_eq_self] at h'
  exact ⟨h', k', rfl, hframe⟩

/-! ## `sbrk` -/

theorem addInt_of_nonneg {n : ℤ} (hn : 0 ≤ n) (hlt : n < 2 ^ 31) (hsz : sz ≤ TRAPFRAME) :
    addInt sz n = sz + n.toNat := by
  have hT : TRAPFRAME = 2 ^ 38 - 8192 := rfl
  unfold addInt
  omega

/-- **`growproc`**; it panics when a process wants to grow into its trapframe. -/
theorem growproc_spec {n : ℤ} (h : UInv b K R σ) (hpt : (σ.proc p).pagetable ≠ 0)
    (hlt : n < 2 ^ 31) :
    Meets (growproc p n) σ (fun _ σ' => UInv b K R σ' ∧ σ'.files = σ.files)
      (fun msg => msg = "mappages: remap" ∧ 0 < n ∧ TRAPFRAME < (σ.proc p).sz + n.toNat) := by
  obtain ⟨F, hc, hsep, hspace, hclose⟩ := h.atSpace hpt
  simp only [growproc, US.proc, meets_bind, meets_get, meets_pure]
  split
  · rename_i hn
    rw [meets_bind, US.vm, meets_zoom, addInt_of_nonneg (le_of_lt hn) hlt hspace.size]
    refine (uvmalloc_spec hc hsep hspace.ok hspace.size (Nat.le_add_right _ _) (by decide)
      (fun w h1 h2 => hspace.below w h2 h1) (by rw [hspace.trapframe]; simp)).mono ?_ ?_
    · rintro r k' ⟨F', hstep, ⟨rfl, hle, hmap⟩ | ⟨rfl, hleaf⟩⟩
      · rw [if_neg (by omega), meets_bind, US.setProc, meets_modify, meets_pure]
        exact ⟨(hclose k' F' _ hstep
          (hspace.mapped hstep (Nat.le_add_right _ _) hle hmap)).1, rfl⟩
      · rw [if_pos rfl, meets_pure]
        have := (hclose k' F' _ hstep (hspace.same hstep hleaf)).1
        rw [Function.update_eq_self] at this
        exact ⟨this, rfl⟩
    · rintro msg ⟨rfl, hlt, -⟩
      exact ⟨rfl, hn, hlt⟩
  split
  · rw [meets_bind, US.vm, meets_zoom]
    refine Meets.never ((uvmdealloc_spec hc hsep hspace.ok hspace.size).imp ?_)
    rintro r k' ⟨rfl, F', hstep, hleaf⟩
    have hU := UPAGES_eq
    have hnp := npages_le.mpr hspace.size
    refine ⟨(hclose k' F' _ hstep (hspace.step hstep ((Nat.min_le_left _ _).trans hspace.size)
      (fun w hw hle => ?_) (fun w hw hup => ?_) fun w hw e he => ?_)).1, rfl⟩
    · rw [hleaf w (by omega)]
      split
      · rfl
      · rename_i hno
        refine hspace.below w hw ?_
        rcases Nat.le_total (σ.proc p).sz (addInt (σ.proc p).sz n) with hmin | hmin
        · rwa [Nat.min_eq_left hmin] at hle
        · rw [Nat.min_eq_right hmin] at hle
          omega
    · rw [hleaf w hw, if_neg (by omega)]
    · rw [hleaf w (by omega)] at he
      split at he
      · cases he
      · exact hspace.readable w hw e he
  · exact ⟨h, rfl⟩

/-- Does a lazy `sbrk` stay below the trapframe? -/
def LazyFits (σ : UState) (p : ℕ) (n t : BitVec 32) : Prop :=
  t.toInt ≠ SBRK_EAGER → 0 ≤ n.toInt → (σ.proc p).sz + n.toInt.toNat ≤ TRAPFRAME

/-- Does an eager `sbrk` ask for the trapframe? -/
def EagerTooLarge (σ : UState) (p : ℕ) (n t : BitVec 32) : Prop :=
  t.toInt = SBRK_EAGER ∧ 0 < n.toInt ∧ TRAPFRAME < (σ.proc p).sz + n.toInt.toNat

section

variable (h : UInv b K R σ) (hpt : (σ.proc p).pagetable ≠ 0)
include h hpt

/-- **`sys_sbrk`** -/
theorem sys_sbrk_spec {n t : BitVec 32} (hfits : LazyFits σ p n t) :
    Meets (sys_sbrk p n t) σ (fun _ σ' => UInv b K R σ' ∧ σ'.files = σ.files)
      (fun msg => msg = "mappages: remap" ∧ EagerTooLarge σ p n t) := by
  have hlt : n.toInt < 2 ^ 31 := by
    have := n.toInt_lt
    omega
  obtain ⟨F, hc, hsep, hspace, hclose⟩ := h.atSpace hpt
  simp only [sys_sbrk, US.proc, meets_bind, meets_get, meets_pure]
  split
  · rename_i hn
    rw [meets_bind]
    refine (growproc_spec h hpt hlt).mono ?_ ?_
    · intro r σ' h'
      split <;> exact h'
    · rintro msg ⟨rfl, hpos, hbig⟩
      exact ⟨rfl, hn.resolve_right (by omega), hpos, hbig⟩
  · rename_i hn
    push Not at hn
    have hle := hfits hn.1 hn.2
    rw [addInt_of_nonneg hn.2 hlt hspace.size, if_neg (by omega), meets_bind, US.setProc,
      meets_modify, meets_pure, addInt_of_nonneg hn.2 hlt hspace.size]
    exact ⟨(hclose σ.kmem F _ (.refl hc hspace.ok)
      (hspace.widen (Nat.le_add_right _ _) hle)).1, rfl⟩

/-! ## Faults and copies -/

/-- **`copyout`** to the memory of a process -/
theorem copyoutTo_spec {src : List UInt8} : Meets (copyoutTo p va src) σ
      (fun _ σ' => UInv b K R σ' ∧ ∃ k', σ' = { σ with kmem := k' } ∧
        ∀ i < NPROC, i ≠ p →
          procPages k'.mem (σ.proc i) = procPages σ.kmem.mem (σ.proc i)) Never := by
  simp only [copyoutTo, US.proc, meets_bind, meets_get, meets_pure]
  exact h.vm_space hpt fun F hc hsep hspace => copyout_spec hc hsep hspace

/-- **`copyin`** from the memory of a process -/
theorem copyin_keeps {len : ℕ} : Meets (US.vm (copyin (σ.proc p).me (σ.proc p).pagetable va len)) σ
      (fun _ σ' => UInv b K R σ' ∧ ∃ k', σ' = { σ with kmem := k' }) Never := by
  refine (h.vm_space hpt fun F hc hsep hspace => copyin_spec hc hsep hspace).imp ?_
  rintro r σ' ⟨h', k', hσ, -⟩
  exact ⟨h', k', hσ⟩

/-- **`vmfault`** in the memory of a process -/
theorem vmfault_keeps : Meets (US.vm (vmfault (σ.proc p).me (σ.proc p).pagetable va)) σ
      (fun _ σ' => UInv b K R σ' ∧ ∃ k', σ' = { σ with kmem := k' }) Never := by
  refine (h.vm_space hpt fun F hc hsep hspace => ?_).imp ?_
  · refine (vmfault_spec hc hsep hspace).imp ?_
    rintro r k' ⟨F', hstep, hspace', -⟩
    exact ⟨F', hstep, hspace'⟩
  · rintro r σ' ⟨h', k', hσ, -⟩
    exact ⟨h', k', hσ⟩

/-- A store by user code -/
theorem userStore_spec {bytes : List UInt8} : Meets (US.vm (userStore (σ.proc p) va bytes)) σ
      (fun _ σ' => UInv b K R σ' ∧ ∃ k', σ' = { σ with kmem := k' }) Never := by
  refine (h.vm_space hpt fun F hc hsep hspace => ?_).imp ?_
  swap
  · rintro r σ' ⟨h', k', hσ, -⟩
    exact ⟨h', k', hσ⟩
  have hsame : ∃ F', AsStep (σ.proc p).pagetable F F' σ.kmem σ.kmem ∧
      AddrSpace σ.kmem (σ.proc p).pagetable (σ.proc p).trapframe (σ.proc p).sz :=
    ⟨F, .refl hc hspace.ok, hspace⟩
  have hM : MAXVA = 2 ^ 38 := rfl
  unfold userStore
  split
  · exact hsame
  rw [meets_bind, meets_walk (by omega)]
  have hv : va / 4096 < 512 ^ 3 := by omega
  rcases slot_cases hsep.tables.right.page hv with
    ⟨h0, -⟩ | ⟨h0, x, hx, hslot, ⟨hval, hl⟩ | ⟨hval, hl⟩⟩
  · rw [if_pos h0, meets_pure]
    exact hsame
  · rw [if_neg h0]
    simp only [VM.load, meets_bind, meets_get, meets_pure]
    split
    · exact hsame
    rename_i hperm
    push Not at hperm
    -- a user page, so not a page of the page table
    obtain ⟨hup, hnp⟩ := hspace.user_lt hv hl hperm.2.1
    have hpage := PTE2PA_page hsep hup hl
    have hlen : va % PGSIZE + (bytes.take (PGSIZE - va % PGSIZE)).length ≤ 4096 := by
      rw [List.length_take]
      unfold PGSIZE
      omega
    obtain ⟨hstep, hleaf⟩ := AsStep.writeFrame hc hsep hspace.ok (mem_frames hup hl)
      (Touches.putBytes hpage.1 hlen) rfl
    exact ⟨F, hstep, hspace.same hstep hleaf⟩
  · rw [if_neg h0]
    simp only [VM.load, meets_bind, meets_get, meets_pure]
    rw [if_pos (.inl (not_not.mp (by rw [← ne_eq, valid_iff]; exact hval))), meets_pure]
    exact hsame

end

/-! ## The arguments of `exec` -/

theorem fetchaddr_spec {q : UProc} {addr : ℕ} (hc : Chain s F)
    (hsep : Sep s.kend (F + asPages s.mem q.pagetable))
    (h : AddrSpace s q.pagetable tf q.sz) :
    Meets (fetchaddr q addr) s (fun _ s' => ∃ F', AsStep q.pagetable F F' s s' ∧
      AddrSpace s' q.pagetable tf q.sz) Never := by
  unfold fetchaddr
  split
  · exact ⟨F, .refl hc h.ok, h⟩
  · rw [meets_bind]
    refine (copyin_spec hc hsep h).imp ?_
    rintro ⟨r, bytes⟩ s' h'
    dsimp only
    split <;> exact h'

/-- What the loop of `sys_exec` keeps: the pages it has taken are those it returns. -/
structure Fetched (root tf sz : ℕ) (L L' F F' : Multiset ℕ) (s s' : KMem) : Prop where
  chain : Chain s' F'
  sum : F' + L' + asPages s'.mem root = F + L + asPages s.mem root
  touches : Touches (F + L + asPages s.mem root) s s'
  space : AddrSpace s' root tf sz

theorem Fetched.of_step {L : Multiset ℕ} (h : AsStep root F F' s s')
    (hspace : AddrSpace s' root tf sz) : Fetched root tf sz L L F F' s s' := by
  refine ⟨h.chain, ?_, h.touches.mono fun x hx => ?_, hspace⟩
  · rw [add_right_comm, h.sum, add_right_comm]
  · rw [add_right_comm]
    exact mem_add.mpr (.inl hx)

theorem Fetched.trans {L L' L'' F'' : Multiset ℕ} {s'' : KMem}
    (h : Fetched root tf sz L L' F F' s s') (h' : Fetched root tf sz L' L'' F' F'' s' s'') :
    Fetched root tf sz L L'' F F'' s s'' :=
  ⟨h'.chain, h'.sum.trans h.sum, h.touches.trans (h.sum ▸ h'.touches), h'.space⟩

theorem Fetched.sep {L L' : Multiset ℕ} (h : Fetched root tf sz L L' F F' s s')
    (hsep : Sep s.kend (F + L + asPages s.mem root)) :
    Sep s'.kend (F' + L' + asPages s'.mem root) := by
  rw [h.sum, h.touches.kend]
  exact hsep

/-- A page is taken off the free list, and written to. -/
theorem Fetched.page {L F₁ : Multiset ℕ} {r : ℕ} {s₁ : KMem} (bytes : List UInt8)
    (hsep : Sep s.kend (r ::ₘ F₁ + L + asPages s.mem root)) (hspace : AddrSpace s root tf sz)
    (hc : Chain s₁ F₁) (ht : Touches {r} s s₁) (hlen : bytes.length ≤ 4096) :
    Fetched root tf sz L (L + {r}) (r ::ₘ F₁) F₁ s
      { s₁ with mem := putBytes s₁.mem r bytes } := by
  have hpage := hsep.page r (by simp)
  have ht' : Touches {r} s₁ { s₁ with mem := putBytes s₁.mem r bytes } :=
    Touches.putBytes (k := 0) hpage.1 (by omega)
  have htrans := ht.trans ht'
  have hr : r ∉ F₁ + L + asPages s.mem root := by
    have hnd := hsep.nodup
    rw [Multiset.cons_add, Multiset.cons_add] at hnd
    exact (Multiset.nodup_cons.mp hnd).1
  rw [Multiset.mem_add, Multiset.mem_add, not_or, not_or] at hr
  obtain ⟨hspace', hpages⟩ := hspace.frame htrans fun x hx => by
    have hx' : x ∈ asPages s.mem root := Multiset.mem_add.mpr (.inl hx)
    refine ⟨(hsep.right.page x hx').1, ?_⟩
    rw [Multiset.mem_singleton]
    rintro rfl
    exact hr.2 hx'
  refine ⟨hc.frame ht' (fun x hx => ⟨(hsep.page x (by simp [hx])).1, ?_⟩) rfl, ?_, ?_, hspace'⟩
  · rw [Multiset.mem_singleton]
    rintro rfl
    exact hr.1.1 hx
  · rw [hpages, ← Multiset.singleton_add]
    abel
  · exact htrans.mono fun x hx => by simp [Multiset.mem_singleton.mp hx]

/-- **The loop of `sys_exec`** copies the arguments into pages of the kernel. -/
theorem argvLoop_spec {q : UProc} {uargv n : ℕ} {pages : List ℕ} {argv : List (List UInt8)}
    (hc : Chain s F) (hsep : Sep s.kend (F + (pages : Multiset ℕ) + asPages s.mem q.pagetable))
    (h : AddrSpace s q.pagetable tf q.sz) (hargv : ∀ arg ∈ argv, arg.length < 4096) :
    Meets (argvLoop q uargv n pages argv) s (fun r s' => ∃ F',
      Fetched q.pagetable tf q.sz pages r.1 F F' s s' ∧
      ∀ l, r.2 = some l → ∀ arg ∈ l, arg.length < 4096) Never := by
  induction n generalizing s F pages argv with
  | zero => exact ⟨F, Fetched.of_step (.refl hc h.ok) h, fun l hl => by cases hl⟩
  | succ n ih =>
    have hsep₀ : Sep s.kend (F + asPages s.mem q.pagetable) := by
      rw [add_right_comm] at hsep
      exact hsep.left
    rw [argvLoop, meets_bind]
    refine (fetchaddr_spec hc hsep₀ h).imp ?_
    rintro r s₁ ⟨F₁, hstep, h₁⟩
    have hf₁ : Fetched q.pagetable tf q.sz pages pages F F₁ s s₁ := Fetched.of_step hstep h₁
    have hsep₁ := hf₁.sep hsep
    rcases r with _ | uarg
    · exact ⟨F₁, hf₁, fun l hl => by cases hl⟩
    dsimp only
    split
    · refine ⟨F₁, hf₁, fun l hl => ?_⟩
      cases hl
      exact hargv
    rw [meets_bind]
    refine (kalloc_spec hf₁.chain hsep₁.left.left).imp ?_
    rintro r s₂ (⟨rfl, hc₂, ht⟩ | ⟨hr, F₂, rfl, hc₂, ht⟩)
    · rw [if_pos rfl, meets_pure]
      have hstep₂ := RangeStep.of_touches_zero hc₂ ht h₁.ok
      exact ⟨F₁, hf₁.trans (.of_step hstep₂.toAsStep (h₁.same hstep₂.toAsStep hstep₂.leaf_all)),
        fun l hl => by cases hl⟩
    rw [if_neg hr, meets_bind]
    -- the page table is where it was
    have htables : ∀ x ∈ tables s₂.mem q.pagetable, IsPage s₂.kend x := by
      have hpage := Fetched.page [] hsep₁ h₁ hc₂ ht (by simp)
      have hsep₂ := hpage.sep hsep₁
      intro x hx
      refine hsep₂.right.page x (Multiset.mem_add.mpr (.inl ?_))
      have hnil : putBytes s₂.mem r [] = s₂.mem := funext fun a => if_neg (by simp)
      rwa [hnil]
    refine (copyinstr_spec htables).imp ?_
    rintro ⟨ret, bytes⟩ s₃ ⟨rfl, hlen⟩
    have hf₂ := Fetched.page bytes hsep₁ h₁ hc₂ ht hlen
    have hf := hf₁.trans hf₂
    dsimp only
    split
    · exact ⟨F₂, hf, fun l hl => by cases hl⟩
    · refine (ih hf₂.chain (hf₂.sep hsep₁) hf₂.space fun arg harg => ?_).imp ?_
      · rcases List.mem_append.mp harg with harg | harg
        · exact hargv arg harg
        · rw [List.mem_singleton.mp harg, List.length_dropLast]
          dsimp only at hlen
          unfold PGSIZE at hlen
          omega
      · rintro r s' ⟨F', hf', hl⟩
        exact ⟨F', hf.trans hf', hl⟩

/-- Freeing the arguments. -/
theorem kfreeAll_spec {pages : List ℕ} (hc : Chain s F)
    (hsep : Sep s.kend (F + (pages : Multiset ℕ))) :
    Meets (kfreeAll pages) s (fun _ s' => Chain s' (F + (pages : Multiset ℕ)) ∧
      Touches (F + (pages : Multiset ℕ)) s s') Never := by
  induction pages generalizing s F with
  | nil =>
    rw [kfreeAll, meets_pure, Multiset.coe_nil, add_zero]
    exact ⟨hc, .refl _ _⟩
  | cons x pages ih =>
    have hperm : F + ((x :: pages : List ℕ) : Multiset ℕ) = x ::ₘ F + (pages : Multiset ℕ) := by
      rw [← Multiset.cons_coe, Multiset.add_cons, Multiset.cons_add]
    rw [hperm] at hsep ⊢
    rw [kfreeAll, meets_bind]
    refine (kfree_spec hc hsep.left).imp ?_
    rintro _ s₁ ⟨hc₁, ht₁⟩
    refine (ih hc₁ (by rw [ht₁.kend]; exact hsep)).imp ?_
    rintro _ s₂ ⟨hc₂, ht₂⟩
    exact ⟨hc₂, (ht₁.mono fun y hy => by simp [Multiset.mem_singleton.mp hy]).trans ht₂⟩

/-! ## `exec` -/

/-- **Opening the invariant for `exec`**, which replaces the address space of a process. -/
theorem UInv.atExec (h : UInv b K R σ) (hpt : (σ.proc p).pagetable ≠ 0) :
    ∃ F, Chain σ.kmem F ∧ Sep σ.kmem.kend ((σ.proc p).trapframe ::ₘ
        (F + asPages σ.kmem.mem (σ.proc p).pagetable)) ∧
      AddrSpace σ.kmem (σ.proc p).pagetable (σ.proc p).trapframe (σ.proc p).sz ∧
      σ.kmem.trampoline < WORD ∧
      ∀ (k' : KMem) (F' : Multiset ℕ) (me : Me),
        Replaces (σ.proc p).trapframe (σ.proc p).me me F F' σ.kmem k' →
        me.pagetable ≠ 0 ∧ UInv b K R { σ with
          kmem := k'
          proc := Function.update σ.proc p
            { σ.proc p with sz := me.sz, pagetable := me.pagetable } } := by
  obtain ⟨htf, hspace⟩ := (h.slots p).space hpt
  obtain ⟨F, hc, hsep, -, hclose⟩ := h.atSlot (h.lt_of_pagetable hpt)
  rw [procPages_eq htf hpt] at hsep hclose
  set A := asPages σ.kmem.mem (σ.proc p).pagetable
  have hperm : F + K + ({(σ.proc p).trapframe} + A) = (σ.proc p).trapframe ::ₘ (F + A) + K := by
    rw [← singleton_add]
    abel
  rw [hperm] at hsep
  refine ⟨F, hc, hsep.left, hspace, (h.layout.trampoline.trans_le h.layout.le).trans (by decide),
    fun k' F' me hrep => ?_⟩
  -- the root of the new page table is a page, so not null
  have hroot : me.pagetable ≠ 0 := by
    have hmem : me.pagetable ∈ F' + asPages k'.mem me.pagetable :=
      mem_add.mpr (.inr (mem_add.mpr (.inl (mem_cons_self _ _))))
    rw [show F' + asPages k'.mem me.pagetable = F + A from hrep.sum] at hmem
    have := (hsep.left.page _ (mem_cons_of_mem hmem)).2.2.2
    omega
  refine ⟨hroot, hclose k' F' K _ hrep.chain ?_ ?_ ⟨fun _ => ⟨htf, hrep.space⟩, fun hun => ?_,
    fun _ _ => hroot, hrep.space.size⟩ (h.closed p)⟩
  · refine hrep.touches.mono fun x hx => ?_
    rw [hperm]
    exact mem_add.mpr (.inl hx)
  · have hq : procPages k'.mem { σ.proc p with sz := me.sz, pagetable := me.pagetable } =
        {(σ.proc p).trapframe} + asPages k'.mem me.pagetable := procPages_eq htf hroot
    have hsum : F' + asPages k'.mem me.pagetable = F + A := hrep.sum
    rw [hq, hperm, ← singleton_add, ← hsum]
    abel
  · exact absurd ((h.slots p).unused hun).1 htf

/-- **`kexec`** replaces the address space of a process, or leaves it. -/
theorem kexecBy_spec {ip : Option (List UInt8)} {argv : List (List UInt8)} (h : UInv b K R σ)
    (hpt : (σ.proc p).pagetable ≠ 0) (hargv : ∀ arg ∈ argv, arg.length < 4096) :
    Meets (kexecBy p ip argv) σ (fun _ σ' => UInv b K R σ' ∧ (σ'.proc p).pagetable ≠ 0 ∧
      ∃ k' q', σ' = { σ with kmem := k', proc := Function.update σ.proc p q' }) Never := by
  obtain ⟨F, hc, hsep, hspace, htr, hclose⟩ := h.atExec hpt
  simp only [kexecBy, US.proc, meets_bind, meets_get, meets_pure]
  rw [US.vm, meets_zoom]
  have hspec : Meets (kexec (σ.proc p).me (σ.proc p).trapframe ip argv) σ.kmem _ Never :=
    kexec_spec hc hsep hspace htr hargv
  refine hspec.imp ?_
  rintro ⟨r, me⟩ k' ⟨F', hrep⟩
  obtain ⟨hroot, h'⟩ := hclose k' F' me hrep
  rw [US.setProc, meets_modify]
  refine ⟨h', ?_, k', _, rfl⟩
  dsimp only
  rwa [Function.update_self]

/-- The arguments are fetched into pages in hand. -/
theorem argvLoop_keeps {uargv : ℕ} (h : UInv b K R σ) (hpt : (σ.proc p).pagetable ≠ 0) :
    Meets (US.vm (argvLoop (σ.proc p) uargv MAXARG [] [])) σ (fun r σ' =>
      UInv b (K + (r.1 : Multiset ℕ)) R σ' ∧ (∃ k', σ' = { σ with kmem := k' }) ∧
      ∀ l, r.2 = some l → ∀ arg ∈ l, arg.length < 4096) Never := by
  obtain ⟨htf, hspace⟩ := (h.slots p).space hpt
  obtain ⟨F, hc, hsep, -, hclose⟩ := h.atSlot (h.lt_of_pagetable hpt)
  rw [procPages_eq htf hpt] at hsep hclose
  set A := asPages σ.kmem.mem (σ.proc p).pagetable
  have hperm : F + K + ({(σ.proc p).trapframe} + A) =
      F + (([] : List ℕ) : Multiset ℕ) + A + (K + {(σ.proc p).trapframe}) := by
    abel
  rw [hperm] at hsep
  rw [US.vm, meets_zoom]
  refine (argvLoop_spec hc hsep.left hspace (by simp)).imp ?_
  rintro ⟨pages, argv⟩ k' ⟨F', hf, hl⟩
  refine ⟨?_, ⟨k', rfl⟩, hl⟩
  have := hclose k' F' (K + (pages : Multiset ℕ)) (σ.proc p) hf.chain ?_ ?_
    ⟨fun _ => ⟨htf, hf.space⟩, (h.slots p).unused, (h.slots p).live, (h.slots p).size⟩ (h.closed p)
  · rwa [Function.update_eq_self] at this
  · refine hf.touches.mono fun x hx => ?_
    rw [hperm]
    exact mem_add.mpr (.inl hx)
  · rw [procPages_eq htf hpt, hperm, ← hf.sum]
    abel

theorem kfreeAll_keeps {pages : List ℕ} (h : UInv b (K + (pages : Multiset ℕ)) R σ) :
    Meets (US.vm (kfreeAll pages)) σ
      (fun _ σ' => UInv b K R σ' ∧ ∃ k', σ' = { σ with kmem := k' }) Never := by
  obtain ⟨F, hc, hsep, hclose⟩ := h.atMem
  have hperm : F + (K + (pages : Multiset ℕ)) = F + (pages : Multiset ℕ) + K := by abel
  rw [US.vm, meets_zoom]
  rw [hperm] at hsep
  refine (kfreeAll_spec hc hsep.left).imp ?_
  rintro _ k' ⟨hc', ht⟩
  refine ⟨hclose k' _ K hc' (ht.mono fun x hx => ?_) hperm.symm, k', rfl⟩
  rw [hperm]
  exact mem_add.mpr (.inl hx)

/-- **`sys_exec`** -/
theorem sys_exec_spec {path uargv : ℕ} {fs : List UInt8 → Option (List UInt8)} (h : UInv b K R σ)
    (hpt : (σ.proc p).pagetable ≠ 0) :
    Meets (sys_exec p path uargv fs) σ (fun _ σ' => UInv b K R σ' ∧ σ'.files = σ.files) Never := by
  obtain ⟨F, hc, hsep, hspace, -⟩ := h.atSpace hpt
  simp only [sys_exec, US.proc, meets_bind, meets_get, meets_pure]
  rw [US.vm, meets_zoom]
  refine (copyinstr_spec hsep.tables.right.page).imp ?_
  rintro ⟨r, bytes⟩ k' ⟨rfl, -⟩
  split
  · exact ⟨h, rfl⟩
  rw [meets_bind]
  refine (argvLoop_keeps h hpt).imp ?_
  rintro ⟨pages, argv⟩ σ₁ ⟨h₁, ⟨k₁, rfl⟩, hargv⟩
  rcases argv with _ | argv
  · dsimp only
    rw [meets_bind]
    refine (kfreeAll_keeps h₁).imp ?_
    rintro _ σ₂ ⟨h₂, k₂, rfl⟩
    exact ⟨h₂, rfl⟩
  · dsimp only
    rw [meets_bind]
    refine (kexecBy_spec h₁ hpt (hargv argv rfl)).imp ?_
    rintro r σ₂ ⟨h₂, -, k₂, q₂, rfl⟩
    rw [meets_bind]
    refine (kfreeAll_keeps h₂).imp ?_
    rintro _ σ₃ ⟨h₃, k₃, rfl⟩
    exact ⟨h₃, rfl⟩

/-! ## The first process -/

/-- Writing to the trapframe of a process. -/
theorem UInv.writeTrapframe (h : UInv b K R σ) (hpt : (σ.proc p).pagetable ≠ 0) (k' : KMem)
    (ht : Touches {(σ.proc p).trapframe} σ.kmem k') (hfl : k'.freelist = σ.kmem.freelist) :
    UInv b K R { σ with kmem := k' } := by
  obtain ⟨htf, hspace⟩ := (h.slots p).space hpt
  obtain ⟨F, hc, hsep, -, hclose⟩ := h.atSlot (h.lt_of_pagetable hpt)
  rw [procPages_eq htf hpt] at hsep hclose
  set tf := (σ.proc p).trapframe
  set A := asPages σ.kmem.mem (σ.proc p).pagetable
  have hperm : F + K + ({tf} + A) = tf ::ₘ (F + A + K) := by
    rw [← Multiset.singleton_add]
    abel
  have hnot : tf ∉ F + A + K := by
    rw [hperm] at hsep
    exact (Multiset.nodup_cons.mp hsep.nodup).1
  rw [Multiset.mem_add, Multiset.mem_add, not_or, not_or] at hnot
  obtain ⟨hspace', hpages⟩ := hspace.frame ht fun x hx => by
    have hx' : x ∈ A := Multiset.mem_add.mpr (.inl hx)
    refine ⟨(hsep.page x (by simp [hx'])).1, ?_⟩
    rw [Multiset.mem_singleton]
    rintro rfl
    exact hnot.1.2 hx'
  have hc' : Chain k' F := hc.frame ht (fun x hx => ⟨(hsep.page x (by simp [hx])).1, by
    rw [Multiset.mem_singleton]
    rintro rfl
    exact hnot.1.1 hx⟩) hfl
  have := hclose k' F K (σ.proc p) hc' (ht.mono fun x hx => ?_) ?_
    ⟨fun _ => ⟨htf, hspace'⟩, (h.slots p).unused, (h.slots p).live, (h.slots p).size⟩ (h.closed p)
  · rwa [Function.update_eq_self] at this
  · rw [hperm, Multiset.mem_singleton.mp hx]
    exact Multiset.mem_cons_self _ _
  · rw [procPages_eq htf hpt, hpages]

theorem UInv.trapframe_page (h : UInv b K R σ) (hpt : (σ.proc p).pagetable ≠ 0) :
    (σ.proc p).trapframe % 4096 = 0 := by
  obtain ⟨htf, -⟩ := (h.slots p).space hpt
  obtain ⟨F, -, hsep, -, -⟩ := h.atSlot (h.lt_of_pagetable hpt)
  rw [procPages_eq htf hpt] at hsep
  exact (hsep.page _ (by simp)).1

/-- **`forkret`** of the first process; it panics if there is no `/init`. -/
theorem forkretFirst_spec {init : Option (List UInt8)} (h : UInv b K R σ)
    (hpt : (σ.proc initproc).pagetable ≠ 0) :
    Meets (forkretFirst init) σ (fun _ σ' => UInv (false, b.2) K R σ' ∧ σ'.files = σ.files)
      (fun msg => msg = "exec") := by
  have hfirst : UInv (false, b.2) K R { σ with first := false } :=
    ⟨h.pages, h.layout, h.slots, h.range, h.files, h.pipes, h.closed, by rw [← h.boot]⟩
  simp only [forkretFirst, meets_bind, meets_modify]
  refine Meets.never (kexecBy_spec hfirst hpt (by simp [initPath])) |>.imp ?_
  rintro r σ₁ ⟨h₁, hpt₁, k₁, q₁, rfl⟩
  have h₂ := h₁.writeTrapframe hpt₁ _ (.store (k := 112) (x := addInt 0 r)
    (h₁.trapframe_page hpt₁) (by omega)) rfl
  split
  · exact rfl
  · exact ⟨h₂, rfl⟩

end Xv6.UserSys
