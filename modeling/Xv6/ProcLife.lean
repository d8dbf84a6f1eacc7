import Xv6.PipeEnds

/-!
# The end of a process

`kexit`, `kwait` and `freeproc` keep the invariant. A process is taken apart with
all its pages (`freeproc_spec`), so a child that is waited for gives back every
page it has owned (`kwait_spec`).
-/

namespace Xv6.UserSys

open Function

open Prog Finset

variable {b : Bool × ℕ} {K R F F' W : Multiset ℕ} {σ σ' : UState} {k' : KMem} {p np fd f pp : ℕ}
  {E : String → Prop}

/-! ## `kexit` -/

/-- Closing a file does not look at descriptors. -/
theorem meets_closefile_setFd {v : Option ℕ} {Q : Unit → UState → Prop} :
    Meets (closefile f) σ (fun a σ₁ => Q a { σ₁ with files := σ₁.files.setFd p fd v }) E ↔
      Meets (closefile f) { σ with files := σ.files.setFd p fd v } Q E := by
  simp only [closefile, US.files, fileclose, meets_bind, meets_zoom, meets_get, Files.setFd_file]
  by_cases h1 : (σ.files.file f).ref < 1
  · simp [h1]
  · by_cases h2 : 1 < (σ.files.file f).ref
    · simp only [h1, h2, if_false, if_true, meets_bind, meets_set, meets_pure]
      rfl
    · simp only [h1, h2, if_false, meets_bind, meets_set, meets_pure]
      by_cases h3 : (σ.files.file f).type = .FD_PIPE
      · simp only [h3, if_true, US.vm, meets_zoom]
        rfl
      · simp only [h3, if_false, meets_pure]
        rfl

/-- **The loop of `kexit`** closes every descriptor of the process. -/
theorem closeLoop_spec {n : ℕ} (h : UInv b K R σ) (hrun : (σ.proc p).state = .RUNNABLE)
    (hn : n ≤ NOFILE) (hdone : ∀ fd < NOFILE - n, σ.files.ofile p fd = none) :
    Meets (closeLoop p n) σ (fun _ σ' => UInv b K R σ' ∧ σ'.proc = σ.proc ∧
      (∀ fd, σ'.files.ofile p fd = none) ∧ Closing σ σ') Never := by
  induction n generalizing σ with
  | zero =>
    refine ⟨h, rfl, fun fd => ?_, rfl, rfl, rfl, subset_rfl⟩
    rcases hfd : σ.files.ofile p fd with _ | f
    · rfl
    · have := (h.files.fds p fd f hfd).2
      rw [hdone fd (by omega)] at hfd
      cases hfd
  | succ n ih =>
    simp only [closeLoop, meets_bind, meets_get]
    split
    · rename_i hnone
      refine ih h hrun (by omega) fun fd hfd => ?_
      by_cases heq : fd = NOFILE - (n + 1)
      · rw [heq]
        exact hnone
      · exact hdone fd (by omega)
    · rename_i f hf
      simp only [meets_bind, US.files, meets_zoom, meets_modify]
      refine meets_closefile_setFd (Q := fun _ σ₁ => Meets (closeLoop p n) σ₁ _ Never) |>.mpr ?_
      refine (closefile_spec (clearFd_keeps h hrun hf)).imp ?_
      rintro _ σ₁ ⟨h₁, hproc, hof, hcl₁⟩
      have hdone₁ : ∀ fd < NOFILE - n, σ₁.files.ofile p fd = none := by
        intro fd hfd
        rw [hof]
        by_cases heq : fd = NOFILE - (n + 1)
        · rw [heq]
          exact Files.setFd_self ..
        · exact (Files.setFd_ne _ _ (.inr heq)).trans (hdone fd (by omega))
      refine (ih h₁ (by rw [hproc]; exact hrun) (by omega) hdone₁).imp ?_
      rintro _ σ₂ ⟨h₂, hproc₂, hof₂, hcl₂⟩
      have hcl : Closing σ σ₁ := ⟨hcl₁.kernel, hcl₁.kend, hcl₁.procs, hcl₁.pipes⟩
      exact ⟨h₂, hproc₂.trans hproc, hof₂, hcl.trans hcl₂⟩

/-- The fields of a process that the invariant speaks of. -/
def UProc.core (q : UProc) : ProcState × ℕ × ℕ × ℕ := (q.state, q.trapframe, q.pagetable, q.sz)

/-- A change to other fields. -/
theorem UInv.congr_core (h : UInv b K R σ) (proc' : ℕ → UProc)
    (hcore : ∀ i, (proc' i).core = (σ.proc i).core) : UInv b K R { σ with proc := proc' } := by
  have heq : ∀ i, (proc' i).state = (σ.proc i).state ∧ (proc' i).trapframe = (σ.proc i).trapframe ∧
      (proc' i).pagetable = (σ.proc i).pagetable ∧ (proc' i).sz = (σ.proc i).sz := by
    intro i
    have := hcore i
    simpa only [UProc.core, Prod.mk.injEq] using this
  refine ⟨?_, h.layout, fun i => ?_, fun i hi => ?_, h.files, h.pipes, fun i hi => ?_,
    h.boot⟩
  · obtain ⟨F, hc, hsum⟩ := h.pages
    refine ⟨F, hc, ?_⟩
    rw [← hsum, owned, owned]
    refine congrArg _ (congrArg _ (sum_congr rfl fun i _ => ?_))
    obtain ⟨-, h2, h3, -⟩ := heq i
    rw [procPages, procPages, h2, h3]
  · obtain ⟨h1, h2, h3, h4⟩ := heq i
    obtain ⟨hs, hu, hl, hsz⟩ := h.slots i
    refine ⟨?_, ?_, ?_, ?_⟩ <;> dsimp only
    · rw [h2, h3, h4]
      exact hs
    · rw [h1, h2, h3, h4]
      exact hu
    · rw [h1, h3]
      exact hl
    · rw [h4]
      exact hsz
  · dsimp only
    rw [(heq i).1]
    exact h.range i hi
  · dsimp only at hi
    rw [(heq i).1] at hi
    exact h.closed i hi

/-- A process that has closed its files becomes a zombie. -/
theorem UInv.setState (q' : UProc) (h : UInv b K R σ) (hpt : (σ.proc p).pagetable ≠ 0)
    (hcore : (q'.trapframe, q'.pagetable, q'.sz) =
      ((σ.proc p).trapframe, (σ.proc p).pagetable, (σ.proc p).sz))
    (hstate : q'.state ≠ .UNUSED)
    (hclosed : q'.state ≠ .RUNNABLE → ∀ fd, σ.files.ofile p fd = none) :
    UInv b K R { σ with proc := update σ.proc p q' } := by
  simp only [Prod.mk.injEq] at hcore
  obtain ⟨h2, h3, h4⟩ := hcore
  obtain ⟨htf, hspace⟩ := (h.slots p).space hpt
  obtain ⟨F, hc, -, -, hclose⟩ := h.atSlot (h.lt_of_pagetable hpt)
  refine hclose σ.kmem F K q' hc (.refl _ _) ?_ ⟨fun _ => ?_, fun hun => absurd hun hstate,
    fun _ _ => by rwa [h3], by rw [h4]; exact hspace.size⟩ hclosed
  · rw [procPages, procPages, h2, h3]
  · rw [h2, h3, h4]
    exact ⟨htf, hspace⟩

/-- **`kexit`** -/
theorem kexit_spec {status : ℕ} (h : UInv b K R σ) (hrun : (σ.proc p).state = .RUNNABLE) :
    Meets (kexit p status) σ (fun _ σ' => UInv b K R σ' ∧ Frees σ σ')
      (fun msg => msg = "init exiting") := by
  unfold kexit
  split
  · exact rfl
  · refine Meets.never ?_
    rw [meets_bind]
    refine (closeLoop_spec h hrun le_rfl fun fd hfd => by simp at hfd).imp ?_
    rintro _ σ₁ ⟨h₁, hproc, hof, hcl⟩
    have hpt := h₁.runnable (p := p) (by rw [hproc]; exact hrun)
    set proc' : ℕ → UProc := fun i =>
      if i < NPROC ∧ (σ₁.proc i).parent = some p then { σ₁.proc i with parent := some initproc }
      else σ₁.proc i with hproc'
    have hcore : ∀ i, (proc' i).core = (σ₁.proc i).core := fun i => by
      rw [hproc']
      dsimp only
      split <;> rfl
    refine ⟨(h₁.congr_core proc' hcore).setState _ ?_ rfl (by simp) fun _ => hof, hcl.frees h h₁⟩
    rwa [show (proc' p).pagetable = (σ₁.proc p).pagetable from
      congrArg (·.2.2.1) (hcore p)]

/-- **A page fault**, which may kill the process -/
theorem pagefault_spec {va : ℕ} (h : UInv b K R σ) (hrun : (σ.proc p).state = .RUNNABLE) :
    Meets (pagefault p va) σ (fun _ σ' => UInv b K R σ' ∧ Frees σ σ')
      (fun msg => msg = "init exiting") := by
  simp only [pagefault, US.proc, meets_bind, meets_get, meets_pure]
  refine Meets.never (vmfault_keeps h (h.runnable hrun)) |>.imp ?_
  rintro r σ₁ ⟨h₁, k', rfl⟩
  split
  · exact kexit_spec h₁ hrun
  · exact ⟨h₁, .of_eq rfl⟩

/-! ## `freeproc` -/

/-- **`freeproc`** returns the pages of a process to the free list. -/
theorem freeproc_frees (hc : Chain σ.kmem F)
    (hsep : Sep σ.kmem.kend (F + procPages σ.kmem.mem (σ.proc p)))
    (hspace : (σ.proc p).pagetable ≠ 0 →
      AddrSpace σ.kmem (σ.proc p).pagetable (σ.proc p).trapframe (σ.proc p).sz) :
    Meets (freeproc p) σ (fun _ σ' => ∃ k',
      σ' = { σ with kmem := k', proc := update σ.proc p .unused } ∧
      Chain k' (F + procPages σ.kmem.mem (σ.proc p)) ∧
      Touches (F + procPages σ.kmem.mem (σ.proc p)) σ.kmem k') Never := by
  set P := procPages σ.kmem.mem (σ.proc p) with hP
  -- the address space, after the trapframe
  have hrest : ∀ k₁ T, P = T + (if (σ.proc p).pagetable = 0 then 0
      else asPages σ.kmem.mem (σ.proc p).pagetable) → Chain k₁ (F + T) →
      Touches (F + T) σ.kmem k₁ → Meets
      (if (σ.proc p).pagetable ≠ 0 then do
        US.vm (proc_freepagetable (σ.proc p).pagetable (σ.proc p).sz)
        US.setProc p fun _ => .unused
      else US.setProc p fun _ => .unused) { σ with kmem := k₁ } (fun _ σ' => ∃ k',
        σ' = { σ with kmem := k', proc := update σ.proc p .unused } ∧
        Chain k' (F + P) ∧ Touches (F + P) σ.kmem k') Never := by
    intro k₁ T hPT hc₁ ht₁
    split
    · rename_i hne
      rw [if_neg hne] at hPT
      have hFP : F + P = F + T + asPages σ.kmem.mem (σ.proc p).pagetable := by
        rw [hPT, add_assoc]
      rw [hFP] at hsep
      obtain ⟨hspace₁, hpages⟩ := (hspace hne).frame ht₁ fun x hx => by
        have hx' : x ∈ asPages σ.kmem.mem (σ.proc p).pagetable := Multiset.mem_add.mpr (.inl hx)
        exact ⟨(hsep.right.page x hx').1, fun hx'' => hsep.not_mem hx'' hx'⟩
      rw [meets_bind, US.vm, meets_zoom]
      refine (proc_freepagetable_spec hc₁ ?_ hspace₁).imp ?_
      · rw [hpages, ht₁.kend]
        exact hsep
      · rintro _ k₂ ⟨hc₂, ht₂⟩
        rw [hpages, ← hFP] at hc₂ ht₂
        refine ⟨k₂, rfl, hc₂, (ht₁.mono fun x hx => ?_).trans ht₂⟩
        rw [hFP]
        exact Multiset.mem_add.mpr (.inl hx)
    · rename_i heq
      rw [if_pos (not_not.mp heq), add_zero] at hPT
      rw [← hPT] at hc₁ ht₁
      exact ⟨k₁, rfl, hc₁, ht₁⟩
  simp only [freeproc, US.proc, meets_bind, meets_get, meets_pure]
  split
  · rename_i hne
    have hcons : F + {(σ.proc p).trapframe} = (σ.proc p).trapframe ::ₘ F := by
      rw [add_comm, Multiset.singleton_add]
    have hPT : P = {(σ.proc p).trapframe} + (if (σ.proc p).pagetable = 0 then 0
        else asPages σ.kmem.mem (σ.proc p).pagetable) := by
      rw [hP, procPages, if_neg hne]
    have hsepT := hsep
    rw [hPT, ← add_assoc, hcons] at hsepT
    rw [meets_bind, US.vm, meets_zoom]
    refine (kfree_spec hc hsepT.left).imp ?_
    rintro _ k₁ ⟨hc₁, ht₁⟩
    refine hrest k₁ _ hPT ?_ ?_
    · rw [hcons]
      exact hc₁
    · rw [hcons]
      exact ht₁.mono fun x hx => by simp [Multiset.mem_singleton.mp hx]
  · rename_i heq
    refine hrest σ.kmem 0 ?_ ?_ (.refl _ _)
    · rw [hP, procPages, if_pos (not_not.mp heq)]
    · rw [add_zero]
      exact hc

theorem freeproc_spec (h : UInv b K R σ) (hp : p < NPROC)
    (hfd : ∀ fd, σ.files.ofile p fd = none) :
    Meets (freeproc p) σ (fun _ σ' => UInv b K R σ' ∧
      ∃ k' F, σ' = { σ with kmem := k', proc := update σ.proc p .unused } ∧
        Chain k' (F + procPages σ.kmem.mem (σ.proc p)) ∧
        0 ∉ F + procPages σ.kmem.mem (σ.proc p)) Never := by
  obtain ⟨F, hc, hsep, -, hclose⟩ := h.atSlot hp
  rw [add_right_comm] at hsep
  refine (freeproc_frees hc hsep.left fun hne => ((h.slots p).space hne).2).imp ?_
  rintro _ σ' ⟨k', rfl, hc', ht⟩
  refine ⟨hclose k' _ K .unused hc' (ht.mono fun x hx => ?_) ?_ (.of_unused _) fun _ => hfd, k', F, rfl,
    hc', hsep.left.zero_notMem⟩
  · rw [add_right_comm]
    exact Multiset.mem_add.mpr (.inl hx)
  · rw [procPages_unused, add_zero, add_right_comm]

/-! ## `kwait` -/

/-- What a wait that returns has done to the process table: nothing, or it has reaped a child, and
every page the child owned is on the free list. -/
def Reaped (p : ℕ) (σ σ' : UState) : Prop :=
  σ'.proc = σ.proc ∨ ∃ pp, (σ.proc pp).parent = some p ∧ (σ.proc pp).state = .ZOMBIE ∧
    σ'.proc = update σ.proc pp .unused ∧
    ∃ F, Chain σ'.kmem F ∧ 0 ∉ F ∧ procPages σ.kmem.mem (σ.proc pp) ≤ F

/-- Reaping the child `pp` -/
theorem reap_spec {addr : ℕ} (h : UInv b K R σ) (hrun : (σ.proc p).state = .RUNNABLE)
    (hpp : pp < NPROC) (hparent : (σ.proc pp).parent = some p)
    (hz : (σ.proc pp).state = .ZOMBIE) :
    Meets (reap p addr pp) σ (fun _ σ' => UInv b K R σ' ∧ σ'.files = σ.files ∧ Reaped p σ σ')
      Never := by
  have hne : pp ≠ p := by
    rintro rfl
    simp [hrun] at hz
  -- from where the status has been copied
  have hrest : ∀ (r : ℤ) k', UInv b K R { σ with kmem := k' } →
      procPages k'.mem (σ.proc pp) = procPages σ.kmem.mem (σ.proc pp) → Meets
      (if r < 0 then pure (-1) else do
        freeproc pp
        return (σ.proc pp).pid.toInt) { σ with kmem := k' }
      (fun _ σ' => UInv b K R σ' ∧ σ'.files = σ.files ∧ Reaped p σ σ') Never := by
    intro r k' h' hpages
    split
    · exact ⟨h', rfl, .inl rfl⟩
    · rw [meets_bind]
      refine (freeproc_spec h' hpp (h'.closed pp (by simp [hz]))).imp ?_
      rintro _ σ' ⟨h'', k'', F, rfl, hc, h0⟩
      rw [hpages] at hc h0
      exact ⟨h'', rfl, .inr ⟨pp, hparent, hz, rfl, _, hc, h0, Multiset.le_add_left _ _⟩⟩
  simp only [reap, US.proc, meets_bind, meets_get, meets_pure]
  split
  · rw [meets_bind]
    refine (copyoutTo_spec h (h.runnable hrun)).imp ?_
    rintro r σ₁ ⟨h₁, k₁, rfl, hframe⟩
    exact hrest r k₁ h₁ (hframe pp hpp hne)
  · exact hrest 0 σ.kmem h rfl

/-- **`kwait`** waits, or it returns and a child has been reaped. -/
theorem kwait_spec (addr : ℕ) (h : UInv b K R σ) (hrun : (σ.proc p).state = .RUNNABLE) :
    kwait p addr σ = .blocked ∨ Meets (kwait p addr) σ
      (fun _ σ' => UInv b K R σ' ∧ σ'.files = σ.files ∧ Reaped p σ σ') Never := by
  rcases hfind : (List.range NPROC).find? fun pp =>
      (σ.proc pp).parent = some p ∧ (σ.proc pp).state = .ZOMBIE with _ | pp
  · by_cases hany : (List.range NPROC).any fun pp => (σ.proc pp).parent = some p
    · left
      simp only [kwait, bind, StateT.bind, get, getThe, MonadStateOf.get, StateT.get, pure, hfind,
        hany, if_true]
      rfl
    · right
      rw [kwait, meets_bind, meets_get, hfind]
      rw [if_neg hany, meets_pure]
      exact ⟨h, rfl, .inl rfl⟩
  · right
    rw [kwait, meets_bind, meets_get, hfind]
    rw [List.find?_range_eq_some] at hfind
    obtain ⟨hchild, hlt, -⟩ := hfind
    rw [decide_eq_true_iff] at hchild
    exact reap_spec h hrun (List.mem_range.mp hlt) hchild.1 hchild.2

end Xv6.UserSys
