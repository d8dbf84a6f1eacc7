import Xv6.ProcStep

/-!
# The functions of `proc.c` keep the invariant

Every function of `proc.c` that a thread or an interrupt runs keeps the
invariant, control point by control point.
-/

namespace Xv6

variable {s s' : KState} {c p q : ℕ} {l : Lock} {mk : List Frame → Exec} {st st' : List Frame}
  {f g : Frame} {e : KEv}

/-- The locks, and the processes. -/
structure KInv (s : KState) : Prop where
  locks : LockInv s
  procs : ProcInv s

/-- CPU `c` runs the activations `st`, in a thread or in a handler of interrupts. -/
def Runs (s : KState) (c : ℕ) (mk : List Frame → Exec) (st : List Frame) : Prop :=
  (s.cpu c).exec = mk st ∧ (mk = .thread ∨ (∃ k, mk = .scheduler k) ∧ st ≠ [])

theorem Runs.held (h : Runs s c mk st) (st' : List Frame) :
    (mk st').held = (mk []).held ++ heldBy st' := by
  rcases h.2 with rfl | ⟨⟨k, rfl⟩, -⟩
  · rfl
  · simp [Exec.held, heldBy]

theorem Runs.mem_held (h : Runs s c mk (f :: st)) (hl : l ∈ f.held) :
    l ∈ (s.cpu c).exec.held := by
  rw [h.1, h.held]
  exact List.mem_append_right _ (held_subset_heldBy _ _ _ hl)

/-- What a step within the stack does to the CPUs. -/
theorem Runs.moves (h : Runs s c mk st) (hcpu : ∀ c' ≠ c, s'.cpu c' = s.cpu c')
    (hproc : (s'.cpu c).proc = (s.cpu c).proc) (hctx : (s'.cpu c).context = (s.cpu c).context)
    (hexec : (s'.cpu c).exec = mk st') : Moves s s' c st st' := by
  refine ⟨hcpu, hproc, hctx, ?_⟩
  rcases h with ⟨he, rfl | ⟨⟨k, rfl⟩, hne⟩⟩
  · exact .inl ⟨he, hexec⟩
  · exact .inr ⟨k, he, hexec, hne⟩

theorem goto_cpu_ne {e : Exec} {c' : ℕ} (h : c' ≠ c) : (s.goto c e).cpu c' = s.cpu c' :=
  Function.update_of_ne h ..

theorem goto_cpu_self (s : KState) (c : ℕ) (e : Exec) :
    (s.goto c e).cpu c = { s.cpu c with exec := e } :=
  Function.update_self ..

theorem Runs.goto (h : Runs s c mk st) (hc : s'.cpu = s.cpu) :
    Moves s (s'.goto c (mk st')) c st st' := by
  refine h.moves (fun c' hne => ?_) ?_ ?_ ?_
  · rw [goto_cpu_ne hne, hc]
  all_goals simp [goto_cpu_self, hc]

/-! ## Steps -/

/-- What a step is. -/
inductive Effect (s : KState) (e : KEv) (s' : KState) : Prop where
  /-- an instruction of the activation on top -/
  | instr {mk : List Frame → Exec} {f : Frame} {st : List Frame} {i : Instr} :
    Runs s e.cpu mk (f :: st) → instr s e.cpu f e.choice = some i →
      s.run e.cpu mk st i = .ok s' → Effect s e s'
  /-- the scheduler -/
  | scheduler {k : SchedulerPc} :
    (s.cpu e.cpu).exec = .scheduler k [] → s.schedulerStep e.cpu k = .ok s' → Effect s e s'
  /-- a device or the timer interrupts a thread -/
  | interrupt {st : List Frame} {d : Frame} :
    (s.cpu e.cpu).exec = .thread st → (s.cpu e.cpu).noff = 0 →
      (d = .code .intr [] 0 ∨ ∃ p, (s.cpu e.cpu).proc = some p ∧ d = .yield p .acquire) →
      s' = s.goto e.cpu (.thread (d :: st)) → Effect s e s'
  /-- a device interrupts the scheduler -/
  | idle {i : ℕ} :
    (s.cpu e.cpu).exec = .scheduler (.acquire i) [] →
      s' = s.goto e.cpu (.scheduler (.acquire i) [.code .intr [] 0]) → Effect s e s'

theorem kStep_effect (hs : kStep s e = .ok s') : Effect s e s' := by
  unfold kStep at hs
  split at hs
  · rename_i i hx _
    split_ifs at hs
    exact .idle hx (Outcome.ok.inj hs).symm
  · rename_i k hx _
    exact .scheduler hx hs
  · rename_i _ k f st hx
    split at hs
    · rename_i i hi
      exact .instr ⟨hx, .inr ⟨⟨k, rfl⟩, by simp⟩⟩ hi hs
    · cases hs
  · rename_i st hx _
    split_ifs at hs with hn
    exact .interrupt hx hn (.inl rfl) (Outcome.ok.inj hs).symm
  · rename_i st hx _
    split at hs
    · rename_i p hp
      split_ifs at hs with hn
      exact .interrupt hx hn (.inr ⟨p, hp, rfl⟩) (Outcome.ok.inj hs).symm
    · cases hs
  · rename_i _ f st hx _ _
    split at hs
    · rename_i i hi
      exact .instr ⟨hx, .inl rfl⟩ hi hs
    · cases hs
  · cases hs

/-! ## Instructions -/

namespace KInv

/-- A CPU that runs a thread runs that of its process. -/
theorem thread_executes (h : KInv s) (hx : (s.cpu c).exec = .thread st) :
    ∃ p, Executes s c p st ∧ StackOk p st := by
  have hcpu := h.procs.cpu c
  unfold CpuOk at hcpu
  rw [hx] at hcpu
  obtain ⟨p, hp, -, hok, -⟩ := hcpu
  exact ⟨p, ⟨hp, hx⟩, hok⟩

/-- Only handlers of interrupts run on top of the scheduler. -/
theorem executes (h : KInv s) (hr : Runs s c mk (f :: st)) (hf : f.isHandler = false) :
    mk = .thread ∧ ∃ p, Executes s c p (f :: st) ∧ StackOk p (f :: st) := by
  have hcpu := h.procs.cpu c
  unfold CpuOk at hcpu
  rcases hr with ⟨he, rfl | ⟨⟨k, rfl⟩, -⟩⟩ <;> rw [he] at hcpu
  · obtain ⟨p, hp, -, hok, -⟩ := hcpu
    exact ⟨rfl, p, ⟨hp, he⟩, hok⟩
  · rw [hcpu.2.1 f List.mem_cons_self] at hf
    cases hf

/-- Moving on without touching locks, states or contexts. -/
theorem write (h : KInv s) (hr : Runs s c mk st) (hview : ∀ n, SameView (s.proc n) (s'.proc n))
    (hcpu : s'.cpu = s.cpu) (hlk : s'.lock = s.lock) (hn : Next s c st st')
    (hheld : heldBy st' = heldBy st) : KInv (s'.goto c (mk st')) := by
  refine ⟨h.locks.keep (c := c) hlk (fun c' hc => ?_) ?_ ?_, h.procs.stay (hr.goto hcpu) hview hn⟩
  · rw [goto_cpu_ne hc, hcpu]
  · rw [goto_cpu_self, hcpu]
  · rw [goto_cpu_self, hr.1, hr.held st, hr.held st', hheld]

theorem goto (h : KInv s) (hr : Runs s c mk st) (hn : Next s c st st')
    (hheld : heldBy st' = heldBy st) : KInv (s.goto c (mk st')) :=
  h.write hr (fun _ => ⟨rfl, rfl, rfl⟩) rfl rfl hn hheld

theorem setProc (h : KInv s) (hr : Runs s c mk st) {u : Proc → Proc}
    (hu : SameView (s.proc q) (u (s.proc q))) (hn : Next s c st st')
    (hheld : heldBy st' = heldBy st) : KInv ((s.setProc q u).goto c (mk st')) := by
  refine h.write hr (fun n => ?_) rfl rfl hn hheld
  by_cases hnq : n = q
  · subst hnq
    simpa [KState.setProc] using hu
  · simp [KState.setProc, hnq, SameView]

theorem acquire (h : KInv s) (hr : Runs s c mk st) (hs : s.acquire c l (mk st') = .ok s')
    (hn : Next s c st st') (hheld : (heldBy st').Perm (l :: heldBy st)) : KInv s' := by
  refine ⟨h.locks.acquire hs ?_, ?_⟩
  · rw [hr.1, hr.held st, hr.held st']
    exact (hheld.append_left _).trans List.perm_middle
  · obtain ⟨-, rfl⟩ := acquire_eq hs
    refine h.procs.stay (hr.moves (fun c' hc => Function.update_of_ne hc ..) ?_ ?_ ?_)
      (fun _ => ⟨rfl, rfl, rfl⟩) hn
    all_goals simp [KState.setCpu]

theorem release (h : KInv s) (hr : Runs s c mk st) (hs : s.release c l (mk st') = .ok s')
    (hn : Next s c st st') (hheld : (heldBy st).Perm (l :: heldBy st')) : KInv s' := by
  refine ⟨h.locks.release hs ?_, ?_⟩
  · rw [hr.1, hr.held st, hr.held st']
    exact (hheld.append_left _).trans List.perm_middle
  · obtain ⟨-, rfl⟩ := release_eq hs
    refine h.procs.stay (hr.moves (fun c' hc => Function.update_of_ne hc ..) ?_ ?_ ?_)
      (fun _ => ⟨rfl, rfl, rfl⟩) hn
    all_goals simp [KState.setCpu]

theorem setProc_view {u : Proc → Proc} {e : Exec} :
    ∀ n ≠ q, SameView (s.proc n) (((s.setProc q u).goto c e).proc n) := by
  intro n hn
  simp [KState.goto, KState.setCpu, KState.setProc, hn, SameView]

theorem setProc_self {u : Proc → Proc} {e : Exec} :
    ((s.setProc q u).goto c e).proc q = u (s.proc q) := by
  simp [KState.goto, KState.setCpu, KState.setProc]

theorem setProc_locks (h : KInv s) (hr : Runs s c mk st) {u : Proc → Proc}
    (hheld : heldBy st' = heldBy st) : LockInv ((s.setProc q u).goto c (mk st')) := by
  refine h.locks.keep (c := c) rfl (fun c' hc => ?_) ?_ ?_
  · rw [goto_cpu_ne hc]
    rfl
  · rw [goto_cpu_self]
    rfl
  · rw [goto_cpu_self, hr.1, hr.held st, hr.held st', hheld]

/-- Changing the state of another process. -/
theorem change (h : KInv s) (hr : Runs s c mk (f :: st)) {u : Proc → Proc}
    (hlock : Lock.proc q ∈ f.held) (hheld : heldBy (g :: st) = heldBy (f :: st))
    (hσ : (s.proc q).state ≠ .RUNNING) (hσ' : (u (s.proc q)).state ≠ .RUNNING)
    (hown : ownState (f :: st) = .RUNNING) (hown' : ownState (g :: st) = .RUNNING)
    (hof : ∀ p, f.Of p → g.Of p) (hover : Over f st → Over g st)
    (hh : f.isHandler = true → g.isHandler = true)
    (hused : (s.proc q).state = .USED → q ∈ filling [f] ∧ f.isHandler = false)
    (hfill : (filling [g]).Sublist [q])
    (hclaim : ∀ n σ, g.claim = some (n, σ) → n = q ∧ (u (s.proc q)).state = σ ∧
      (g.contextSet = true → (u (s.proc q)).context = [.forkret q] ∧ (u (s.proc q)).saved = true))
    (hlive : (u (s.proc q)).state.live = true →
      ((s.proc q).state.live = true ∧ (u (s.proc q)).context = (s.proc q).context ∧
        (u (s.proc q)).saved = (s.proc q).saved) ∨
      ((u (s.proc q)).context = [.forkret q] ∧ (u (s.proc q)).saved = true)) :
    KInv ((s.setProc q u).goto c (mk (g :: st))) := by
  refine ⟨h.setProc_locks hr hheld, h.procs.change h.locks (hr.goto rfl) setProc_view hlock hσ
    ?_ hown hown' hof hover hh hused hfill ?_ ?_⟩
  · rw [setProc_self]
    exact hσ'
  · intro n σ hc
    obtain ⟨rfl, h2, h3⟩ := hclaim n σ hc
    rw [setProc_self]
    exact ⟨h2, h3⟩
  · rw [setProc_self]
    exact hlive

/-- Changing the state of the process that runs. -/
theorem changeOwn (h : KInv s) (hr : Runs s c mk (f :: st)) {u : Proc → Proc}
    (hf : f.isHandler = false) (hlock : Lock.proc p ∈ f.held) (hp : ∀ q, f.Of q → p = q)
    (hheld : heldBy (g :: st) = heldBy (f :: st))
    (hrun : ownState (f :: st) = .RUNNING)
    (hst : (u (s.proc p)).state = ownState (g :: st)) (hne : ownState (g :: st) ≠ .RUNNING)
    (hof : ∀ p, f.Of p → g.Of p) (hover : Over f st → Over g st) (hclaim : g.claim = none) :
    KInv ((s.setProc p u).goto c (mk (g :: st))) := by
  obtain ⟨rfl, p', hex, hok⟩ := h.executes hr hf
  obtain rfl := hp p' hok.1
  refine ⟨h.setProc_locks hr hheld, h.procs.changeOwn h.locks (hr.goto rfl) hex setProc_view hlock
    hrun ?_ hne hof hover hclaim⟩
  rw [setProc_self]
  exact hst

end KInv

/-- An activation without claims goes on to one without claims. -/
theorem Next.plain (hof : ∀ p, f.Of p → g.Of p) (hover : Over f st → Over g st)
    (hown : ownState (g :: st) = ownState (f :: st)) (hclaim : g.claim = none)
    (hh : f.isHandler = true → g.isHandler = true) : Next s c (f :: st) (g :: st) :=
  .top hof hover hown (fun _ _ _ hc => absurd hc (by simp [hclaim])) (by simp [filling, hclaim]) hh

/-! ## The functions -/

namespace KInv

/-- A call gives up its lock, and returns. -/
theorem leave (h : KInv s) (hr : Runs s c mk (f :: st)) {a0 : ℤ}
    (hs : s.release c l (mk (.ret a0 :: st)) = .ok s') (hf : f.isHandler = false)
    (hover : Over f st → Over (.ret a0) st) (hown : ownState (.ret a0 :: st) = ownState (f :: st))
    (hheld : heldBy (f :: st) = l :: heldBy st) : KInv s' :=
  h.release hr hs (.plain (fun _ _ => trivial) hover hown rfl (by simp [hf])) (.of_eq hheld)

theorem yieldStep {k : YieldPc} (h : KInv s) (hr : Runs s c mk (.yield p k :: st))
    (hs : s.run c mk st (yieldInstr p k) = .ok s') : KInv s' := by
  cases k with
  | acquire =>
    exact h.acquire hr hs (.plain (fun _ => id) id rfl rfl id) (List.Perm.refl _)
  | setState =>
    cases hs
    exact h.changeOwn hr rfl (by simp [Frame.held]) (fun _ => id) rfl rfl rfl (by simp [ownState])
      (fun _ => id) id rfl
  | sched =>
    cases hs
    exact h.goto hr (.call (fun _ => id) (fun _ _ => id) id (fun _ => trivial) rfl rfl rfl
      (by simp [Frame.isHandler])) rfl
  | release =>
    exact h.leave hr hs rfl id rfl rfl

theorem sleepStep {k : SleepPc} {chan : Chan} {lk : Lock} (h : KInv s)
    (hr : Runs s c mk (.sleep p chan lk k :: st))
    (hs : s.run c mk st (sleepInstr p chan lk k) = .ok s') : KInv s' := by
  obtain ⟨rfl, p', hex, -, ⟨⟨hlk, -⟩, -⟩, -⟩ := h.executes hr rfl
  have herase := List.perm_cons_erase hlk
  cases k with
  | acquire =>
    exact h.acquire hr hs (.plain (fun _ => id) id rfl rfl id) (List.Perm.refl _)
  | releaseLk =>
    refine h.release hr hs (.plain (fun _ => id) id rfl rfl id) ?_
    exact (herase.cons _).trans (List.Perm.swap ..)
  | setChan | clearChan =>
    cases hs
    exact h.setProc hr ⟨rfl, rfl, rfl⟩ (.plain (fun _ => id) id rfl rfl id) rfl
  | setState =>
    cases hs
    exact h.changeOwn hr rfl (by simp [Frame.held]) (fun _ => id) rfl rfl rfl (by simp [ownState])
      (fun _ => id) id rfl
  | sched =>
    cases hs
    exact h.goto hr (.call (fun _ => id) (fun _ _ => id) id (fun _ => trivial) rfl rfl rfl
      (by simp [Frame.isHandler])) rfl
  | release =>
    exact h.release hr hs (.plain (fun _ => id) id rfl rfl id) (List.Perm.refl _)
  | acquireLk =>
    exact h.acquire hr hs (.plain (fun _ _ => trivial) (fun ho => ho.2) rfl rfl
      (by simp [Frame.isHandler])) herase

theorem wakeupStep {k : WakeupPc} {chan : Option Chan} {i : ℕ} (h : KInv s)
    (hr : Runs s c mk (.wakeup chan i k :: st))
    (hs : s.run c mk st (wakeupInstr s c chan i k) = .ok s') : KInv s' := by
  cases k with
  | test =>
    rw [wakeupInstr] at hs
    split at hs
    · split at hs <;> cases hs <;>
      exact h.goto hr (.plain (fun _ => id) id rfl rfl id) rfl
    · cases hs
      exact h.goto hr (.ret 0 fun ho => ho.1) (by unfold KState.ret; split <;> rfl)
  | acquire =>
    exact h.acquire hr hs (.plain (fun _ => id) id rfl rfl id) (List.Perm.refl _)
  | check =>
    rw [wakeupInstr] at hs
    split at hs
    · rename_i hst
      cases hs
      exact h.change hr (by simp [Frame.held]) rfl (by simp [hst.1]) (by simp) rfl rfl
        (fun _ => id) id id (by simp [hst.1]) (by simp [filling, Frame.claim])
        (by simp [Frame.claim]) fun _ => .inl ⟨by rw [hst.1]; rfl, rfl, rfl⟩
    · cases hs
      exact h.goto hr (.plain (fun _ => id) id rfl rfl id) rfl
  | release =>
    exact h.release hr hs (.plain (fun _ => id) id rfl rfl id) (List.Perm.refl _)

theorem kkillStep {k : KillPc} {pid : ℤ} {i : ℕ} (h : KInv s)
    (hr : Runs s c mk (.kkill pid i k :: st))
    (hs : s.run c mk st (kkillInstr s pid i k) = .ok s') : KInv s' := by
  cases k with
  | acquire =>
    rw [kkillInstr] at hs
    split at hs
    · exact h.acquire hr hs (.plain (fun _ => id) id rfl rfl id) (List.Perm.refl _)
    · cases hs
      exact h.goto hr (.ret _ fun ho => ho.1) (by unfold KState.ret; split <;> rfl)
  | check =>
    rw [kkillInstr] at hs
    split at hs <;> cases hs <;>
    exact h.goto hr (.plain (fun _ => id) id rfl rfl id) rfl
  | setKilled =>
    cases hs
    exact h.setProc hr ⟨rfl, rfl, rfl⟩ (.plain (fun _ => id) id rfl rfl id) rfl
  | wake =>
    rw [kkillInstr] at hs
    split at hs
    · rename_i hst
      cases hs
      exact h.change hr (by simp [Frame.held]) rfl (by simp [hst]) (by simp) rfl rfl
        (fun _ => id) id id (by simp [hst]) (by simp [filling, Frame.claim])
        (by simp [Frame.claim]) fun _ => .inl ⟨by rw [hst]; rfl, rfl, rfl⟩
    · cases hs
      exact h.goto hr (.plain (fun _ => id) id rfl rfl id) rfl
  | releaseFound =>
    exact h.leave hr hs rfl id rfl rfl
  | release =>
    exact h.release hr hs (.plain (fun _ => id) id rfl rfl id) (List.Perm.refl _)

theorem setkilledStep {k : KilledPc} (h : KInv s) (hr : Runs s c mk (.setkilled p k :: st))
    (hs : s.run c mk st (setkilledInstr p k) = .ok s') : KInv s' := by
  cases k with
  | acquire => exact h.acquire hr hs (.plain (fun _ => id) id rfl rfl id) (List.Perm.refl _)
  | access =>
    cases hs
    exact h.setProc hr ⟨rfl, rfl, rfl⟩ (.plain (fun _ => id) id rfl rfl id) rfl
  | release =>
    exact h.leave hr hs rfl id rfl rfl

theorem killedStep {k : KilledPc} {a0 : ℤ} (h : KInv s) (hr : Runs s c mk (.killed p a0 k :: st))
    (hs : s.run c mk st (killedInstr s p a0 k) = .ok s') : KInv s' := by
  cases k with
  | acquire => exact h.acquire hr hs (.plain (fun _ => id) id rfl rfl id) (List.Perm.refl _)
  | access =>
    cases hs
    exact h.goto hr (.plain (fun _ => id) id rfl rfl id) rfl
  | release =>
    exact h.leave hr hs rfl id rfl rfl

theorem retStep (h : KInv s) (hr : Runs s c mk (f :: st)) {a0 : ℤ}
    (hq : Over f st → ownState st = ownState (f :: st)) (hheld : heldBy (f :: st) = heldBy st)
    (hs : s.run c mk st (.ret a0) = .ok s') : KInv s' := by
  cases hs
  refine h.goto hr (.ret a0 hq) ?_
  rw [hheld]
  unfold KState.ret
  split <;> rfl

/-- What an activation of a thread claims is true. -/
theorem claim (h : KInv s) (hr : Runs s c mk (f :: st)) (hf : f.isHandler = false) :
    ClaimOk s f := by
  obtain ⟨-, p, hex, -⟩ := h.executes hr hf
  exact h.procs.claims p _ (.inl ⟨c, hex⟩) f List.mem_cons_self

theorem kforkStep {k : ForkPc} {i : ℕ} {pid : ℤ} {fail : Bool} (h : KInv s)
    (hr : Runs s c mk (.kfork p i pid k :: st))
    (hs : s.run c mk st (kforkInstr s p i pid fail k) = .ok s') : KInv s' := by
  have hclaim := h.claim hr rfl
  have hnext : ∀ {pid pid' k k'}, (Frame.kfork p i pid' k').claim = (Frame.kfork p i pid k).claim →
      ((Frame.kfork p i pid' k').contextSet = true → (Frame.kfork p i pid k).contextSet = true) →
      Next s c (.kfork p i pid k :: st) (.kfork p i pid' k' :: st) := fun hc hcs =>
    .top (fun _ => id) id rfl (fun ho n σ hn => ⟨(ho n σ (hc ▸ hn)).1, fun hx =>
      (ho n σ (hc ▸ hn)).2 (hcs hx)⟩) (by rw [filling_congr hc]) id
  cases k with
  | acquire =>
    rw [kforkInstr] at hs
    split at hs
    · exact h.acquire hr hs (hnext rfl id) (List.Perm.refl _)
    · exact h.retStep hr (fun ho => ho.1) rfl hs
  | check =>
    rw [kforkInstr] at hs
    split at hs <;> cases hs
    · rename_i hst
      refine h.goto hr (.top (fun _ => id) id rfl (fun _ n σ hn => ?_) (List.Sublist.refl _) id) rfl
      obtain ⟨rfl, rfl⟩ := Prod.mk.inj (Option.some.inj hn)
      exact ⟨hst, fun hx => absurd hx (by simp [Frame.contextSet])⟩
    · exact h.goto hr (hnext rfl id) rfl
  | release =>
    exact h.release hr hs (.plain (fun _ => id) id rfl rfl id) (List.Perm.refl _)
  | pidAcquire | waitAcquire | acquireNp =>
    exact h.acquire hr hs (hnext rfl id) (List.Perm.refl _)
  | pidTake =>
    cases hs
    exact h.write hr (fun _ => ⟨rfl, rfl, rfl⟩) rfl rfl (hnext rfl id) rfl
  | pidRelease | releaseNp | waitRelease =>
    exact h.release hr hs (hnext rfl id) (List.Perm.refl _)
  | setPid | setParent =>
    cases hs
    exact h.setProc hr ⟨rfl, rfl, rfl⟩ (hnext rfl id) rfl
  | setUsed =>
    cases hs
    have hst := (hclaim i .UNUSED rfl).1
    refine h.change hr (by simp [Frame.held]) rfl (by simp [hst]) (by simp) rfl rfl (fun _ => id)
      id id (by simp [hst]) (List.Sublist.refl _) (fun n σ hn => ?_) (by simp [ProcState.live])
    obtain ⟨rfl, rfl⟩ := Prod.mk.inj (Option.some.inj hn)
    exact ⟨rfl, rfl, fun hx => absurd hx (by simp [Frame.contextSet])⟩
  | trapframe | pagetable | copy =>
    cases hs
    cases fail <;> exact h.goto hr (hnext rfl (by simp [Frame.contextSet])) rfl
  | setContext =>
    cases hs
    have hst := (hclaim i .USED rfl).1
    refine h.change hr (by simp [Frame.held]) rfl (by simp [hst]) (by simp [hst]) rfl rfl
      (fun _ => id) id id (fun _ => ⟨by simp [filling, Frame.claim], rfl⟩) (List.Sublist.refl _)
      (fun n σ hn => ?_) (by simp [hst, ProcState.live])
    obtain ⟨rfl, rfl⟩ := Prod.mk.inj (Option.some.inj hn)
    exact ⟨rfl, hst, fun _ => ⟨rfl, rfl⟩⟩
  | freeproc =>
    cases hs
    have hst := (hclaim i .USED rfl).1
    exact h.change hr (by simp [Frame.held]) rfl (by simp [hst]) (by simp [Xv6.freeproc]) rfl rfl
      (fun _ => id) id id (fun _ => ⟨by simp [filling, Frame.claim], rfl⟩)
      (by simp [filling, Frame.claim]) (by simp [Frame.claim])
      (by simp [Xv6.freeproc, ProcState.live])
  | setRunnable =>
    cases hs
    obtain ⟨hst, hctx⟩ := hclaim i .USED rfl
    exact h.change hr (by simp [Frame.held]) rfl (by simp [hst]) (by simp) rfl rfl
      (fun _ => id) id id (fun _ => ⟨by simp [filling, Frame.claim], rfl⟩)
      (by simp [filling, Frame.claim]) (by simp [Frame.claim]) (fun _ => .inr (hctx rfl))
  | releaseFail | releaseLast =>
    exact h.leave hr hs rfl id rfl rfl

theorem kexitStep {k : ExitPc} {status : ℤ} {i : ℕ} (h : KInv s)
    (hr : Runs s c mk (.kexit p status i k :: st))
    (hs : s.run c mk st (kexitInstr s p status i k) = .ok s') : KInv s' := by
  cases k with
  | start =>
    rw [kexitInstr] at hs
    split at hs
    · cases hs
    · cases hs
      exact h.goto hr (.plain (fun _ => id) id rfl rfl id) rfl
  | waitAcquire | acquire =>
    exact h.acquire hr hs (.plain (fun _ => id) id rfl rfl id) (List.Perm.refl _)
  | reparent =>
    rw [kexitInstr] at hs
    split at hs
    · split at hs <;> cases hs <;>
      exact h.goto hr (.plain (fun _ => id) id rfl rfl id) rfl
    · cases hs
      exact h.goto hr (.plain (fun _ => id) id rfl rfl id) rfl
  | setParent | setXstate =>
    cases hs
    exact h.setProc hr ⟨rfl, rfl, rfl⟩ (.plain (fun _ => id) id rfl rfl id) rfl
  | files | wakeInit | wakeParent =>
    cases hs
    exact h.goto hr (.call (fun _ => id) (fun _ _ _ => trivial) id
      (fun _ => ⟨rfl, by simp [Frame.isSched]⟩) rfl rfl rfl (by simp [Frame.isHandler])) rfl
  | setState =>
    cases hs
    exact h.changeOwn hr rfl (by simp [Frame.held]) (fun _ => id) rfl rfl rfl (by simp [ownState])
      (fun _ => id) id rfl
  | waitRelease =>
    exact h.release hr hs (.plain (fun _ => id) id rfl rfl id) (List.Perm.swap ..)
  | sched =>
    cases hs
    exact h.goto hr (.call (fun _ => id) (fun _ _ => id) id (fun _ => trivial) rfl rfl rfl
      (by simp [Frame.isHandler])) rfl
  | dead => cases hs

theorem kwaitStep {k : WaitPc} {addr : Bool} {i : ℕ} {hk : Bool} {a0 : ℤ} {fail : Bool}
    (h : KInv s) (hr : Runs s c mk (.kwait p addr i hk a0 k :: st))
    (hs : s.run c mk st (kwaitInstr s p addr i hk a0 fail k) = .ok s') : KInv s' := by
  cases k with
  | acquire | childAcquire | killedAcquire =>
    exact h.acquire hr hs (.plain (fun _ => id) id rfl rfl id) (List.Perm.refl _)
  | scan =>
    rw [kwaitInstr] at hs
    split at hs
    · split at hs <;> cases hs <;>
      exact h.goto hr (.plain (fun _ => id) id rfl rfl id) rfl
    · cases hs
      exact h.goto hr (.plain (fun _ => id) id rfl rfl id) rfl
  | childCheck =>
    rw [kwaitInstr] at hs
    split at hs <;> cases hs
    · rename_i hst
      refine h.goto hr (.top (fun _ => id) id rfl (fun _ n σ hn => ?_) (List.Sublist.refl _) id) rfl
      obtain ⟨rfl, rfl⟩ := Prod.mk.inj (Option.some.inj hn)
      exact ⟨hst, fun hx => absurd hx (by simp [Frame.contextSet])⟩
    · exact h.goto hr (.plain (fun _ => id) id rfl rfl id) rfl
  | copyout =>
    cases hs
    split
    · exact h.goto hr (.plain (fun _ => id) id rfl rfl id) rfl
    · exact h.goto hr (.top (fun _ => id) id rfl id (List.Sublist.refl _) id) rfl
  | freeproc =>
    cases hs
    have hst := (h.claim hr rfl i .ZOMBIE rfl).1
    exact h.change hr (by simp [Frame.held]) rfl (by simp [hst]) (by simp [Xv6.freeproc]) rfl rfl
      (fun _ => id) id id (by simp [hst]) (by simp [filling, Frame.claim]) (by simp [Frame.claim])
      (by simp [Xv6.freeproc, ProcState.live])
  | foundRelease | childRelease | failRelease =>
    exact h.release hr hs (.plain (fun _ => id) id rfl rfl id) (List.Perm.refl _)
  | done =>
    rw [kwaitInstr] at hs
    split at hs <;> cases hs <;>
    exact h.goto hr (.plain (fun _ => id) id rfl rfl id) rfl
  | killedRead =>
    cases hs
    exact h.goto hr (.plain (fun _ => id) id rfl rfl id) rfl
  | killedRelease killed =>
    cases killed <;>
    exact h.release hr hs (.plain (fun _ => id) id rfl rfl id) (List.Perm.refl _)
  | sleep =>
    cases hs
    exact h.goto hr (.call (fun _ => id) (fun _ _ => id) id
      (fun _ => ⟨⟨List.mem_cons_self, by simp⟩, rfl, by simp [Frame.isSched]⟩) rfl rfl rfl
      (by simp [Frame.isHandler])) rfl
  | waitRelease =>
    exact h.leave hr hs rfl id rfl rfl

/-- `sched` gives the CPU, and the lock of its process, to the scheduler. -/
theorem swtch (h : KInv s) (hr : Runs s c mk (.sched p .swtch :: st)) :
    KInv ((s.setProc p fun q => { q with context := .sched p .ret :: st, saved := true }).goto c
      (.scheduler (s.cpu c).context [])) := by
  obtain ⟨rfl, p', hex, hok⟩ := h.executes hr rfl
  obtain rfl : p = p' := hok.1
  obtain ⟨-, ⟨hcall, hheld⟩, hokst⟩ := hok
  obtain ⟨hctx, -, hown⟩ := h.procs.executing hex
  have hp := hex.1
  have hstate : (s.proc p).state ≠ .RUNNING ∧
      ((s.proc p).state.live = true ∨ (s.proc p).state = .ZOMBIE) := by
    rw [hown]
    unfold CallsSched at hcall
    split at hcall
    · exact ⟨by simp [ownState], .inl rfl⟩
    · exact ⟨by simp [ownState], .inl rfl⟩
    · exact ⟨by simp [ownState], .inr rfl⟩
    · exact hcall.elim
  rw [hctx]
  set s' := (s.setProc p fun q => { q with context := .sched p .ret :: st, saved := true }).goto c
    (.scheduler (.back p) []) with hs'
  have hne : ∀ c' ≠ c, s'.cpu c' = s.cpu c' := fun c' hc => by
    rw [hs', goto_cpu_ne hc]
    rfl
  have hself : s'.cpu c = { s.cpu c with exec := .scheduler (.back p) [] } := by
    rw [hs', goto_cpu_self]
    rfl
  have hproc := sameProc hne (by rw [hself])
  have hview : ∀ n ≠ p, SameView (s.proc n) (s'.proc n) := setProc_view
  have hpv : s'.proc p = { s.proc p with context := .sched p .ret :: st, saved := true } :=
    setProc_self
  have hst : ∀ n, (s'.proc n).state = (s.proc n).state := fun n => by
    by_cases hn : n = p
    · rw [hn, hpv]
    · exact (hview n hn).1
  have hexec : ∀ {c' n x}, Executes s' c' n x → n ≠ p ∧ Executes s c' n x := by
    rintro c' n x ⟨h1, h2⟩
    have hc : c' ≠ c := by
      rintro rfl
      rw [hself] at h2
      cases h2
    rw [hne c' hc] at h1 h2
    refine ⟨?_, h1, h2⟩
    rintro rfl
    exact hc (h.procs.uniq c' c n h1 hp)
  have hexec' : ∀ {c' n x}, Executes s c' n x → n ≠ p → Executes s' c' n x := by
    rintro c' n x ⟨h1, h2⟩ hn
    have hc : c' ≠ c := by
      rintro rfl
      exact hn (Option.some.inj (h1.symm.trans hp))
    rw [← hne c' hc] at h1 h2
    exact ⟨h1, h2⟩
  -- the threads are the same, the one of `p` now at its return from `swtch`
  have hthread : ∀ {n x}, Thread s' n x → (n = p ∧ x = .sched p .ret :: st) ∨ Thread s n x := by
    rintro n x (⟨c', hx⟩ | ⟨hno, hlive, hx⟩)
    · exact .inr (.inl ⟨c', (hexec hx).2⟩)
    · by_cases hn : n = p
      · subst hn
        rw [hpv] at hx
        exact .inl ⟨rfl, hx.symm⟩
      · exact .inr (.inr ⟨fun ⟨c', y, hy⟩ => hno ⟨c', y, hexec' hy hn⟩, hst n ▸ hlive,
          (hview n hn).2.1 ▸ hx⟩)
  have hclaims : ∀ {f}, ClaimOk s f → ClaimOk s' f := by
    intro f hf n σ hc
    obtain ⟨h1, h2⟩ := hf n σ hc
    refine ⟨(hst n).trans h1, fun hx => ?_⟩
    obtain rfl := Frame.contextSet_used hc hx
    have hn : n ≠ p := by
      rintro rfl
      rw [h1] at hstate
      simp [ProcState.live] at hstate
    rw [(hview n hn).2.1, (hview n hn).2.2]
    exact h2 hx
  obtain ⟨huniq, hnodup⟩ := h.procs.fills s' fun n x ht => by
    rcases hthread ht with ⟨rfl, rfl⟩ | ht
    · exact ⟨_, .inl ⟨c, hex⟩, List.Sublist.refl _⟩
    · exact ⟨x, ht, List.Sublist.refl _⟩
  refine ⟨h.locks.keep (c := c) rfl hne (by rw [hself]) ?_, fun c' => ?_, fun c₁ c₂ n h₁ h₂ => ?_,
    fun n hno hlive => ?_, fun n hr => ?_, fun n x ht f hf => ?_, huniq, hnodup⟩
  · rw [hself, hex.2]
    exact hheld.symm
  · by_cases hc : c' = c
    · subst hc
      refine .scheduler (k := .back p) (by rw [hself]) ⟨?_, ?_⟩
      · rw [hself]
        exact hp
      · rw [hst]
        exact hstate
    · exact (h.procs.cpu c').congr (hne c' hc) (fun n _ _ _ _ hi c'' => (hproc c'').symm ▸ hi c'')
        (fun n _ _ => hst n) fun i _ _ _ _ => hst i
  · rw [hproc] at h₁ h₂
    exact h.procs.uniq c₁ c₂ n h₁ h₂
  · by_cases hn : n = p
    · subst hn
      rw [hpv]
      exact ⟨rfl, ⟨rfl, ⟨hcall, hheld⟩, hokst⟩, hheld, rfl, .inr ⟨st, rfl⟩⟩
    · rw [(hview n hn).2.1, (hview n hn).2.2]
      exact h.procs.parked n (fun ⟨c', y, hy⟩ => hno ⟨c', y, hexec' hy hn⟩) (hst n ▸ hlive)
  · refine h.procs.keepsRunning hproc hne (fun x hx => ?_) (hst n ▸ hr)
    cases hex.2.symm.trans hx
  · rcases hthread ht with ⟨rfl, rfl⟩ | ht
    · rcases List.mem_cons.mp hf with rfl | hf
      · exact fun n σ hc => absurd hc (by simp [Frame.claim])
      · exact hclaims (h.procs.claims n _ (.inl ⟨c, hex⟩) f (List.mem_cons_of_mem _ hf))
    · exact hclaims (h.procs.claims n x ht f hf)

theorem schedStep {k : SchedPc} (h : KInv s) (hr : Runs s c mk (.sched p k :: st))
    (hs : s.run c mk st (schedInstr s c p k) = .ok s') : KInv s' := by
  cases k with
  | check =>
    rw [schedInstr] at hs
    split_ifs at hs with hlock hnoff
    all_goals cases hs
    obtain ⟨rfl, p', hex, -⟩ := h.executes hr rfl
    -- the lock of the process is the one lock held
    have hmem : Lock.proc p ∈ heldBy st := by
      have := (h.locks.lock _ c).mp (not_not.mp hlock)
      rw [hex.2] at this
      exact this
    have hone : (heldBy st).length = 1 := by
      have := h.locks.noff c
      rw [not_not.mp hnoff, hex.2] at this
      exact this.symm
    have hheld : heldBy st = [.proc p] := by
      obtain ⟨l, hl⟩ := List.length_eq_one_iff.mp hone
      rw [hl] at hmem
      rw [hl, List.mem_singleton.mp hmem]
    have hown : ownState (.sched p .swtch :: st) = ownState (.sched p .check :: st) := by
      rcases st with _ | ⟨g, st⟩
      · rfl
      · cases g <;> rfl
    exact h.goto hr (.plain (fun _ => id) (fun ho => ⟨ho, hheld⟩) hown rfl id) rfl
  | swtch =>
    cases hs
    exact h.swtch hr
  | ret => exact h.retStep hr (fun ho => CallsSched.ownState ho.1) rfl hs

theorem codeStep {m : Mode} {locks : List ℕ} {a0 : ℤ} {ch : Choice} {i : Instr} (h : KInv s)
    (hr : Runs s c mk (.code m locks a0 :: st))
    (hi : codeInstr (s.cpu c).proc m locks a0 ch = some i) (hs : s.run c mk st i = .ok s') :
    KInv s' := by
  -- a call of `d`, which is not `sched` and makes no claims
  have hcall : ∀ d : Frame, (∀ p, (s.cpu c).proc = some p → d.Of p) →
      Over d (.code m locks a0 :: st) → heldBy (d :: .code m locks a0 :: st) =
        heldBy (.code m locks a0 :: st) → ownState (d :: .code m locks a0 :: st) = .RUNNING →
      d.claim = none → (m = .intr → d.isHandler = true) →
      KInv (s.goto c (mk (d :: .code m locks a0 :: st))) := by
    intro d hof hover hheld hown hclaim hh
    refine h.goto hr (.call (fun _ => id) (fun p hp _ => hof p hp) id (fun _ => hover) hown rfl
      hclaim fun hf => ⟨hf, hh ?_⟩) hheld
    cases m <;> simp_all [Frame.isHandler]
  have hq : Quiet (.code m locks a0 :: st) := ⟨rfl, by simp [Frame.isSched]⟩
  have hnil : ∀ {P : Prop} [Decidable P] {x y : Instr}, (if P then some x else none) = some y →
      P ∧ x = y := by
    intro P _ x y hxy
    split at hxy
    · exact ⟨‹P›, Option.some.inj hxy⟩
    · cases hxy
  unfold codeInstr at hi
  split at hi
  case h_1 n =>
    cases hi
    exact h.acquire hr hs (.plain (fun _ => id) id rfl rfl (by cases m <;> exact id))
      (List.Perm.refl _)
  case h_2 n =>
    obtain ⟨hn, rfl⟩ := hnil hi
    refine h.release hr hs (.plain (fun _ => id) id rfl rfl (by cases m <;> exact id)) ?_
    have := (List.perm_cons_erase hn).map Lock.other
    exact this.append_right (heldBy st)
  case h_3 chan =>
    cases hi
    cases hs
    exact hcall _ (fun _ _ => trivial) hq rfl rfl rfl fun _ => rfl
  case h_4 =>
    obtain ⟨⟨-, rfl⟩, rfl⟩ := hnil hi
    exact h.retStep hr (fun ho => ho.1) rfl hs
  case h_5 chan n p hp =>
    obtain ⟨⟨hm, hn⟩, rfl⟩ := hnil hi
    cases hs
    refine hcall _ (fun q hq' => Option.some.inj (hp.symm.trans hq')) ⟨⟨?_, by simp⟩, hq⟩ rfl rfl
      rfl fun hm' => absurd hm' hm
    exact List.mem_append_left _ (List.mem_map_of_mem hn)
  case h_6 p hp | h_7 p hp =>
    obtain ⟨rfl, rfl⟩ := hnil hi
    cases hs
    exact hcall _ (fun q hq' => Option.some.inj (hp.symm.trans hq')) hq rfl rfl rfl (by simp)
  case h_8 p hp | h_9 status p hp | h_10 addr p hp =>
    obtain ⟨⟨rfl, rfl⟩, rfl⟩ := hnil hi
    cases hs
    exact hcall _ (fun q hq' => Option.some.inj (hp.symm.trans hq')) hq rfl rfl rfl (by simp)
  case h_11 pid p hp =>
    obtain ⟨⟨rfl, rfl⟩, rfl⟩ := hnil hi
    cases hs
    exact hcall _ (fun _ _ => trivial) hq rfl rfl rfl (by simp)
  case h_12 => cases hi

/-- Every instruction of an activation keeps the invariant. -/
theorem instrStep {ch : Choice} {i : Instr} (h : KInv s) (hr : Runs s c mk (f :: st))
    (hi : instr s c f ch = some i) (hs : s.run c mk st i = .ok s') : KInv s' := by
  cases f with
  | code m locks a0 => exact h.codeStep hr hi hs
  | kfork p i pid k =>
    simp only [instr] at hi
    split at hi
    · cases hi
      exact h.kforkStep hr hs
    · cases hi
  | kwait p addr i hk a0 k =>
    simp only [instr] at hi
    split at hi
    · cases hi
      exact h.kwaitStep hr hs
    · cases hi
  | _ =>
    simp only [instr] at hi
    split at hi
    · cases hi
      first
        | exact h.yieldStep hr hs
        | exact h.schedStep hr hs
        | exact h.sleepStep hr hs
        | exact h.wakeupStep hr hs
        | exact h.kkillStep hr hs
        | exact h.setkilledStep hr hs
        | exact h.killedStep hr hs
        | exact h.kexitStep hr hs
        | exact h.retStep hr (fun ho => ho.1) rfl hs
        | exact h.release hr hs (.plain (fun _ _ => trivial) id rfl rfl (by simp [Frame.isHandler]))
            (List.Perm.refl _)
    · cases hi

end KInv

end Xv6
