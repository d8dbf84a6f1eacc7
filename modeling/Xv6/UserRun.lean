import Xv6.Fork

/-!
# The invariant along runs

The kernel boots into a state where every page is free or has its owner, and
every event keeps it so. The one thing the kernel does not check is lazy growth:
the runs considered are those in which a lazy `sbrk` stays below the trapframe
(`Fits`). In such a run a panic has one of three causes: the first process
exits, it finds no program, or an eager `sbrk` asks for the page of the
trapframe.
-/

namespace Xv6.UserSys

open Prog Finset

variable {b : Bool × ℕ} {K R F W : Multiset ℕ} {σ σ' : UState} {s s' : KMem} {p kend trampoline : ℕ}

/-! ## Booting -/

/-- The pages that the loop of `freerange` frees. -/
def pagesFrom (n p : ℕ) : Multiset ℕ := ((List.range n).map fun i => p + PGSIZE * i : List ℕ)

theorem pagesFrom_succ (n p : ℕ) : pagesFrom (n + 1) p = p ::ₘ pagesFrom n (p + PGSIZE) := by
  rw [pagesFrom, pagesFrom, List.range_succ_eq_map, List.map_cons, List.map_map,
    ← Multiset.cons_coe, Nat.mul_zero, Nat.add_zero]
  refine congrArg _ (congrArg _ (List.map_congr_left fun i _ => ?_))
  simp only [Function.comp_apply, Nat.succ_eq_add_one, Nat.mul_add, Nat.mul_one]
  omega

theorem freerangeLoop_spec {n : ℕ} (hc : Chain s F) (hsep : Sep s.kend (pagesFrom n p + F)) :
    Meets (freerangeLoop n p) s (fun _ s' => Chain s' (pagesFrom n p + F) ∧
      s'.kend = s.kend ∧ s'.trampoline = s.trampoline) Never := by
  induction n generalizing p F s with
  | zero =>
    rw [show pagesFrom 0 p = 0 from rfl, zero_add]
    exact ⟨hc, rfl, rfl⟩
  | succ n ih =>
    have hperm : pagesFrom (n + 1) p + F = pagesFrom n (p + PGSIZE) + p ::ₘ F := by
      rw [pagesFrom_succ, Multiset.cons_add, Multiset.add_cons]
    rw [hperm] at hsep ⊢
    rw [freerangeLoop, meets_bind]
    refine (kfree_spec hc hsep.right).imp ?_
    rintro _ s₁ ⟨hc₁, ht⟩
    refine (ih hc₁ (by rw [ht.kend]; exact hsep)).imp ?_
    rintro _ s₂ ⟨hc₂, hk, htr⟩
    exact ⟨hc₂, hk.trans ht.kend, htr.trans ht.trampoline⟩

/-- **`kinit`** puts every page on the free list. -/
theorem kinit_spec (hl : Layout s.kend s.trampoline) (hfl : s.freelist = 0) :
    Meets kinit s (fun _ s' => Chain s' (allPages s.kend) ∧
      s'.kend = s.kend ∧ s'.trampoline = s.trampoline) Never := by
  have hc : Chain s 0 := ⟨[], rfl, hfl⟩
  have hsep := sep_allPages hl
  rw [kinit, meets_bind, meets_get, freerange]
  have hall : allPages s.kend =
      pagesFrom ((PHYSTOP - PGROUNDUP s.kend) / PGSIZE) (PGROUNDUP s.kend) + 0 := (add_zero _).symm
  rw [hall] at hsep ⊢
  exact freerangeLoop_spec hc hsep

theorem kernelPages_spec {n : ℕ} (hc : Chain s F) (hsep : Sep s.kend F) :
    Meets (kernelPages n) s (fun pages s' => ∃ F', Chain s' F' ∧ F = F' + (pages : Multiset ℕ) ∧
      s'.kend = s.kend ∧ s'.trampoline = s.trampoline) (fun msg => msg = "kalloc") := by
  induction n generalizing F s with
  | zero => exact ⟨F, hc, by simp, rfl, rfl⟩
  | succ n ih =>
    rw [kernelPages, meets_bind]
    refine Meets.never (kalloc_spec hc hsep) |>.imp ?_
    rintro r s₁ (⟨rfl, -⟩ | ⟨hr, F₁, rfl, hc₁, ht⟩)
    · rw [if_pos rfl, meets_panic]
    · rw [if_neg hr, meets_bind]
      rw [← Multiset.singleton_add] at hsep
      refine (ih hc₁ (by rw [ht.kend]; exact hsep.right)).imp ?_
      rintro pages s₂ ⟨F₂, hc₂, rfl, hk, htr⟩
      refine ⟨F₂, hc₂, ?_, hk.trans ht.kend, htr.trans ht.trampoline⟩
      rw [← Multiset.cons_coe, Multiset.add_cons]

/-- Before the first process, all pages are free but those the kernel has taken. -/
theorem UInv.kernel_only {k : KMem} {pages : List ℕ} (hl : Layout k.kend k.trampoline)
    (hc : Chain k F) (hsum : allPages k.kend = F + (pages : Multiset ℕ)) :
    UInv (true, k.kend) 0 0 { loaded kend trampoline with kmem := k, kernel := pages } := by
  have hnopipe : ∀ f, pipeEnd (loaded kend trampoline).files f = none := fun _ => rfl
  refine ⟨⟨F, hc, ?_⟩, hl, fun p => .of_unused _, fun _ _ => rfl,
    ⟨fun f => ?_, fun _ _ => rfl, fun _ _ => rfl, fun p fd f hf => by cases hf⟩, ⟨fun f g x hf => ?_, fun f pi w hf => ?_,
    fun f pi w hf => ?_⟩, fun _ _ _ => rfl, rfl⟩
  · have hpipes : pipePages (loaded kend trampoline).files = ∅ := by
      ext x
      simp [mem_pipePages, hnopipe]
    have hprocs : ∑ p ∈ Finset.range NPROC, procPages k.mem ((loaded kend trampoline).proc p) = 0 :=
      sum_eq_zero fun _ _ => rfl
    rw [owned]
    rw [hpipes, hprocs, hsum, empty_val]
    abel
  · simp [Files.slots, loaded, File.none]
  all_goals
    cases hf

/-- **`main`** brings the machine into a state where the first process may start. -/
theorem main_spec {n : ℕ} (hl : Layout kend trampoline) :
    Meets (main n) (loaded kend trampoline) (fun _ σ' => UInv (true, kend) 0 0 σ' ∧
      (σ'.proc initproc).state = .RUNNABLE ∧ σ'.files = (loaded kend trampoline).files)
      (fun msg => msg = "kalloc" ∨ msg = "kerneltrap") := by
  rw [main, meets_bind, US.vm, meets_zoom]
  refine Meets.never (kinit_spec (s := (loaded kend trampoline).kmem) hl rfl) |>.imp ?_
  rintro _ k₁ ⟨hc₁, hk₁, htr₁⟩
  simp only [meets_bind, US.vm, meets_zoom, meets_modify]
  refine (kernelPages_spec hc₁ (by rw [hk₁]; exact sep_allPages hl)).mono ?_ fun _ h => .inl h
  rintro pages k₂ ⟨F, hc₂, hsum, hk₂, htr₂⟩
  have hk : k₂.kend = kend := hk₂.trans hk₁
  have h : UInv (true, k₂.kend) 0 0 { loaded kend trampoline with kmem := k₂, kernel := pages } :=
    .kernel_only (by rw [hk, htr₂.trans htr₁]; exact hl) hc₂ (by rw [hk]; exact hsum)
  rw [hk] at h
  rw [userinit, meets_bind]
  obtain ⟨F, hc, hsep, -⟩ := h.atMem
  refine Meets.never (allocproc_builds h hc hsep.left) |>.imp ?_
  rintro r σ₁ (⟨rfl, -⟩ | ⟨p, hlt, hun, hmin, hb, ⟨rfl, -⟩ | ⟨rfl, hnew⟩⟩)
  · exact .inr rfl
  · exact .inr rfl
  · obtain rfl : p = initproc := by
      by_contra hne
      exact hmin initproc (Nat.pos_of_ne_zero hne) rfl
    exact ⟨(hb.keeps h hc hsep.left hlt hun).setState _ hnew.pagetable rfl (by simp)
      fun hne => absurd rfl hne, by simp, hb.files⟩

/-! ## Steps -/

/-- The state between two events. -/
def Good (kend : ℕ) (σ : UState) : Prop :=
  UInv (σ.first, kend) 0 0 σ ∧ (σ.first = true → (σ.proc initproc).state = .RUNNABLE)

theorem UInv.first {x : Bool} (h : UInv (x, kend) K R σ) : σ.first = x := (Prod.mk.inj h.boot).1

theorem UInv.kend_eq {x : Bool} (h : UInv (x, kend) K R σ) : σ.kmem.kend = kend :=
  (Prod.mk.inj h.boot).2

theorem UInv.good (h : UInv (false, kend) 0 0 σ) : Good kend σ := by
  refine ⟨?_, fun hf => ?_⟩
  · rw [h.first]
    exact h
  · rw [h.first] at hf
    cases hf

theorem Booted.good {n : ℕ} (hboot : Booted kend trampoline n σ) (hl : Layout kend trampoline) :
    Good kend σ := by
  obtain ⟨-, h, hrun, -⟩ := (main_spec hl).after_ok hboot
  refine ⟨?_, fun _ => hrun⟩
  rw [h.first]
  exact h

/-- Which allocations are to fail does not matter. -/
theorem UInv.setFails (h : UInv b K R σ) (l : List Bool) :
    UInv b K R { σ with kmem := { σ.kmem with fails := l } } := by
  obtain ⟨F, hc, -, hclose⟩ := h.atMem
  exact hclose { σ.kmem with fails := l } F K hc ⟨rfl, rfl, fun _ _ => rfl⟩ rfl

/-- The events the kernel is prepared for: a lazy `sbrk` stays below the trapframe. -/
def Fits (σ : UState) (e : Event) : Prop :=
  ∀ p n t, e.action = .call p (.sbrk n t) → LazyFits σ p n t

/-- The panics that are possible. -/
def Panics (σ : UState) (e : Event) (msg : String) : Prop :=
  msg = "init exiting" ∨ msg = "exec" ∨
    msg = "mappages: remap" ∧ ∃ p n t, e.action = .call p (.sbrk n t) ∧ EagerTooLarge σ p n t

/-- What an event leaves behind. -/
structure Stepped (kend : ℕ) (σ : UState) (e : Event) (σ' : UState) : Prop where
  inv : UInv (false, kend) 0 0 σ'
  frees : Frees σ σ'
  reaped : ∀ p addr, e.action = .call p (.wait addr) → Reaped p σ σ'

/-- **A system call or a trap** of a process -/
theorem call_spec {e : Event} {c : Call} (h : UInv (false, kend) 0 0 σ)
    (hrun : (σ.proc p).state = .RUNNABLE) (he : e.action = .call p c) (hfits : Fits σ e) :
    c.code p σ = .blocked ∨
      Meets (c.code p) σ (fun _ σ' => Stepped kend σ e σ') (Panics σ e) := by
  have hpt := h.runnable hrun
  -- calls other than `wait`
  have hstep : (∀ addr, c ≠ .wait addr) → ∀ {σ' : UState}, UInv (false, kend) 0 0 σ' → Frees σ σ' →
      Stepped kend σ e σ' := fun hne σ' h' hfr => ⟨h', hfr, fun p' addr he' => by
    rw [he] at he'
    exact absurd (Action.call.inj he').2 (hne addr)⟩
  cases c with
  | sbrk n t =>
    right
    rw [Call.code, meets_bind]
    refine (sys_sbrk_spec h hpt (hfits p n t he)).mono ?_ ?_
    · rintro _ σ' ⟨h', hf⟩
      exact hstep (by simp) h' (.of_eq (by rw [hf]))
    · rintro msg ⟨rfl, hbig⟩
      exact .inr (.inr ⟨rfl, p, n, t, he, hbig⟩)
  | fault va =>
    right
    refine (pagefault_spec h hrun).mono ?_ fun _ hmsg => .inl hmsg
    rintro _ σ' ⟨h', hfr⟩
    exact hstep (by simp) h' hfr
  | store va bytes =>
    right
    simp only [Call.code, US.proc, meets_bind, meets_get, meets_pure]
    refine Meets.never ((userStore_spec h hpt).imp ?_)
    rintro _ σ' ⟨h', k', rfl⟩
    exact hstep (by simp) h' (.of_eq rfl)
  | fork =>
    right
    rw [Call.code, meets_bind]
    refine Meets.never ((kfork_spec h hrun).imp ?_)
    rintro _ σ' ⟨h', hend⟩
    exact hstep (by simp) h' (.of_eq hend)
  | exec path uargv fs =>
    right
    rw [Call.code, meets_bind]
    refine Meets.never ((sys_exec_spec h hpt).imp ?_)
    rintro _ σ' ⟨h', hf⟩
    exact hstep (by simp) h' (.of_eq (by rw [hf]))
  | exit status =>
    right
    refine (kexit_spec h hrun).mono ?_ fun _ hmsg => .inl hmsg
    rintro _ σ' ⟨h', hfr⟩
    exact hstep (by simp) h' hfr
  | wait addr =>
    rcases kwait_spec addr h hrun with hb | hm
    · left
      rw [Call.code]
      simp only [bind, StateT.bind, hb]
    · right
      rw [Call.code, meets_bind]
      refine Meets.never (hm.imp ?_)
      rintro _ σ' ⟨h', hf, hreap⟩
      refine ⟨h', .of_eq (by rw [hf]), fun p' addr' he' => ?_⟩
      rw [he] at he'
      rw [← (Action.call.inj he').1]
      exact hreap
  | pipe fdarray =>
    right
    rw [Call.code, meets_bind]
    refine Meets.never ((sys_pipe_spec h hrun).imp ?_)
    rintro _ σ' ⟨h', hfr⟩
    exact hstep (by simp) h' hfr
  | «open» device =>
    right
    rw [Call.code, meets_bind]
    refine Meets.never ((openFile_spec h hrun).imp ?_)
    rintro _ σ' ⟨h', hfr⟩
    exact hstep (by simp) h' hfr
  | dup fd =>
    right
    rw [Call.code, meets_bind]
    refine Meets.never ((sys_dup_keeps h hrun).imp ?_)
    rintro _ σ' ⟨h', hfr⟩
    exact hstep (by simp) h' hfr
  | close fd =>
    right
    rw [Call.code, meets_bind]
    refine Meets.never ((sys_close_spec h hrun).imp ?_)
    rintro _ σ' ⟨h', hfr⟩
    exact hstep (by simp) h' hfr
  | copyout va src =>
    right
    rw [Call.code, meets_bind]
    refine Meets.never ((copyoutTo_spec h hpt).imp ?_)
    rintro _ σ' ⟨h', k', rfl, -⟩
    exact hstep (by simp) h' (.of_eq rfl)
  | copyin va len =>
    right
    simp only [Call.code, US.proc, meets_bind, meets_get, meets_pure]
    refine Meets.never ((copyin_keeps h hpt).imp ?_)
    rintro _ σ' ⟨h', k', rfl⟩
    exact hstep (by simp) h' (.of_eq rfl)

/-- **A step** of the machine -/
theorem step_spec {e : Event} (h : Good kend σ) (hfits : Fits σ e) :
    (∀ σ', step σ e = .ok σ' → Stepped kend σ e σ') ∧
      ∀ msg, step σ e = .panic msg → Panics σ e msg := by
  obtain ⟨h, hinit⟩ := h
  by_cases hen : e.action.Enabled σ
  swap
  · rw [step, if_neg hen]
    exact ⟨fun _ hs => (by cases hs), fun _ hs => by cases hs⟩
  rw [step, if_pos hen]
  obtain ⟨fails, a⟩ := e
  have h₁ := h.setFails fails
  cases a with
  | forkret init =>
    have hm : Meets (forkretFirst init) { σ with kmem := { σ.kmem with fails := fails } }
        (fun _ σ' => Stepped kend σ ⟨fails, .forkret init⟩ σ') (Panics σ ⟨fails, .forkret init⟩) := by
      refine (forkretFirst_spec h₁ (h.runnable (hinit hen))).mono ?_ fun _ hmsg => .inr (.inl hmsg)
      rintro _ σ' ⟨h', hf⟩
      exact ⟨h', .of_eq (by rw [hf]), fun p addr he => by cases he⟩
    exact ⟨fun σ' hs => (hm.after_ok hs).choose_spec, fun msg hs => hm.after_panic hs⟩
  | call p c =>
    obtain ⟨hfirst, -, hrun⟩ := hen
    have h₂ : UInv (false, kend) 0 0 { σ with kmem := { σ.kmem with fails := fails } } :=
      ⟨h₁.pages, h₁.layout, h₁.slots, h₁.range, h₁.files, h₁.pipes, h₁.closed, by
        rw [← hfirst]
        exact h₁.boot⟩
    rcases call_spec (e := ⟨fails, .call p c⟩) h₂ hrun rfl hfits with hb | hm
    · have hafter : (c.code p).after { σ with kmem := { σ.kmem with fails := fails } } = .blocked := by
        rw [Prog.after, hb]
      dsimp only [Action.code]
      rw [hafter]
      exact ⟨fun _ hs => (by cases hs), fun _ hs => by cases hs⟩
    · refine ⟨fun σ' hs => ?_, fun msg hs => hm.after_panic hs⟩
      obtain ⟨-, hst⟩ := hm.after_ok hs
      exact ⟨hst.inv, hst.frees, hst.reaped⟩

/-- **The invariant of runs** with small lazy growth -/
theorem good_of_run {n : ℕ} {s₀ s : UState} (hl : Layout kend trampoline)
    (hboot : Booted kend trampoline n s₀) (hrun : Run step Fits s₀ s) : Good kend s :=
  hrun.invariant (hboot.good hl) fun _ _ _ hg hf hs => ((step_spec hg hf).1 _ hs).inv.good

/-! ## Runs in which sizes stay bounded -/

/-- Every size stays at most `TRAPFRAME`. -/
def Bounded (s : UState) (e : Event) : Prop :=
  ∀ s', step s e = .ok s' → ∀ p, (s'.proc p).sz ≤ TRAPFRAME

/-- A lazy `sbrk` does not fail before sizes overflow. -/
theorem step_lazy {fails : List Bool} {n t : BitVec 32}
    (hen : (Action.call p (.sbrk n t)).Enabled σ) (hsz : (σ.proc p).sz ≤ 2 ^ 63)
    (ht : t.toInt ≠ SBRK_EAGER) (hn : 0 ≤ n.toInt) :
    step σ ⟨fails, .call p (.sbrk n t)⟩ = .ok { σ with
      kmem := { σ.kmem with fails := fails }
      proc := Function.update σ.proc p
        { σ.proc p with sz := (σ.proc p).sz + n.toInt.toNat } } := by
  have hadd : addInt (σ.proc p).sz n.toInt = (σ.proc p).sz + n.toInt.toNat := by
    have := n.toInt_lt
    unfold addInt
    omega
  rw [step, if_pos hen]
  refine Meets.after_eq ?_
  simp only [Action.code, Call.code, sys_sbrk, US.proc, meets_bind, meets_get, meets_pure]
  rw [if_neg (by omega), hadd, if_neg (by omega), meets_bind, US.setProc, meets_modify, meets_pure,
    hadd]

/-- A run with bounded sizes has small lazy growth only. -/
theorem fits_of_bounded {e : Event} (h : Good kend σ) (hok : step σ e = .ok σ') (hb : Bounded σ e) :
    Fits σ e := by
  obtain ⟨fails, a⟩ := e
  rintro p n t he ht hn
  cases he
  have hen : (Action.call p (.sbrk n t)).Enabled σ := by
    by_contra hno
    rw [step, if_neg hno] at hok
    cases hok
  have hle := ((h.1.slots p).space (h.1.runnable hen.2.2)).2.size
  have hT : TRAPFRAME = 2 ^ 38 - 8192 := rfl
  have hsz := hb _ (step_lazy hen (by omega) ht hn) p
  simpa using hsz

theorem good_of_bounded {n : ℕ} {s₀ s : UState} (hl : Layout kend trampoline)
    (hboot : Booted kend trampoline n s₀) (hrun : Run step Bounded s₀ s) : Good kend s :=
  hrun.invariant (hboot.good hl) fun _ _ _ hg hb hs =>
    ((step_spec hg (fits_of_bounded hg hs hb)).1 _ hs).inv.good

end Xv6.UserSys
