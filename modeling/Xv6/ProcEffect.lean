import Xv6.Scheduler

/-!
# What a step of the process machine does

Said once, for the invariants that follow: what the scheduler does (`SchedEffect`),
which activation may write which fields of `proc[n]` (`Writes`, `SlotStep`), and
what the thread of a process has become (`ThreadStep`).

* A field other than `parent` is written under the lock of the process;
  `parent` is written under `wait_lock`, or cleared by `freeproc`.
* A thread goes on by its own instruction, by an interrupt, or is a new one.
-/

namespace Xv6

open List

variable {s s' : KState} {e : KEv} {c p n : ℕ} {mk : List Frame → Exec} {st : List Frame}
  {f g : Frame} {u : Proc → Proc}

/-- The state of a process that executes. -/
theorem KInv.own_state (h : KInv s) (hex : Executes s c p st) :
    (s.proc p).state = ownState st :=
  (h.procs.executing hex).2.2

theorem KInv.executes_ne_unused (h : KInv s) (hex : Executes s c p st) :
    (s.proc p).state ≠ .UNUSED := by
  rw [h.own_state hex]
  unfold ownState
  split <;> simp

/-! ## Steps -/

/-- **What the scheduler does**, to its CPU and to the process it chooses. -/
inductive SchedEffect (s : KState) (c : ℕ) : SchedulerPc → KState → Prop where
  | stay {k k' : SchedulerPc} {locks : Lock → Option ℕ} {x : Cpu} (hx : x.exec = .scheduler k' []) :
    SchedEffect s c k ({ s with lock := locks }.setCpu c x)
  | setRunning (i : ℕ) : SchedEffect s c (.setRunning i)
      ((s.setProc i fun q => { q with state := .RUNNING }).goto c (.scheduler (.setProc i) []))
  | swtch (i : ℕ) : SchedEffect s c (.swtch i)
      ((s.setProc i fun q => { q with saved := false }).setCpu c
        { s.cpu c with context := .back i, exec := .thread (s.proc i).context })

theorem schedulerStep_effect {k : SchedulerPc} (hs : s.schedulerStep c k = .ok s') :
    SchedEffect s c k s' := by
  cases k <;> rw [KState.schedulerStep] at hs
  case acquire =>
    split at hs
    · obtain ⟨-, rfl⟩ := acquire_eq hs
      exact .stay rfl
    · cases hs
      exact .stay rfl
  case check => split at hs <;> cases hs <;> exact .stay rfl
  case release =>
    obtain ⟨-, rfl⟩ := release_eq hs
    exact .stay rfl
  all_goals cases hs
  case setRunning i => exact .setRunning i
  case swtch i => exact .swtch i
  all_goals exact .stay rfl

/-- A thread that holds a lock is not interrupted. -/
theorem KInv.instr_of_held (h : KInv s) (hs : kStep s e = .ok s')
    (hx : (s.cpu e.cpu).exec = .thread (f :: st)) (hf : heldBy (f :: st) ≠ []) :
    ∃ i, instr s e.cpu f e.choice = some i ∧ s.run e.cpu .thread st i = .ok s' := by
  rcases kStep_effect hs with ⟨⟨hx', hmk⟩, hi, hrun⟩ | ⟨hk, -⟩ | ⟨hth, hn, -⟩ | ⟨hk, -⟩
  · rcases hmk with rfl | ⟨⟨k, rfl⟩, -⟩
    · obtain ⟨rfl, rfl⟩ := List.cons.inj (Exec.thread.inj (hx.symm.trans hx'))
      exact ⟨_, hi, hrun⟩
    · cases hx.symm.trans hx'
  · cases hx.symm.trans hk
  · obtain rfl := Exec.thread.inj (hx.symm.trans hth)
    exact absurd (h.heldBy_nil hth hn) hf
  · cases hx.symm.trans hk

/-! ## The writes to the process table -/

/-- Activation `f` writes `proc[n]` with `u` and goes on as `g`. -/
inductive Writes (s : KState) : Frame → ℕ → (Proc → Proc) → Frame → Prop where
  | yieldState (p : ℕ) :
    Writes s (.yield p .setState) p (fun q => { q with state := .RUNNABLE }) (.yield p .sched)
  | sleepChan (p : ℕ) (chan : Chan) (lk : Lock) :
    Writes s (.sleep p chan lk .setChan) p (fun q => { q with chan := some chan })
      (.sleep p chan lk .setState)
  | sleepState (p : ℕ) (chan : Chan) (lk : Lock) :
    Writes s (.sleep p chan lk .setState) p (fun q => { q with state := .SLEEPING })
      (.sleep p chan lk .sched)
  | sleepClear (p : ℕ) (chan : Chan) (lk : Lock) :
    Writes s (.sleep p chan lk .clearChan) p (fun q => { q with chan := none })
      (.sleep p chan lk .release)
  | wakeup (chan : Option Chan) (i : ℕ) :
    (s.proc i).state = .SLEEPING → (s.proc i).chan = chan →
      Writes s (.wakeup chan i .check) i (fun q => { q with state := .RUNNABLE })
        (.wakeup chan i .release)
  | killFlag (pid : ℤ) (i : ℕ) :
    Writes s (.kkill pid i .setKilled) i (fun q => { q with killed := true }) (.kkill pid i .wake)
  | killWake (pid : ℤ) (i : ℕ) :
    (s.proc i).state = .SLEEPING →
      Writes s (.kkill pid i .wake) i (fun q => { q with state := .RUNNABLE })
        (.kkill pid i .releaseFound)
  | setkilled (p : ℕ) :
    Writes s (.setkilled p .access) p (fun q => { q with killed := true }) (.setkilled p .release)
  | forkPid (p i : ℕ) (pid : ℤ) :
    Writes s (.kfork p i pid .setPid) i (fun q => { q with pid := pid }) (.kfork p i pid .setUsed)
  | forkUsed (p i : ℕ) (pid : ℤ) :
    Writes s (.kfork p i pid .setUsed) i (fun q => { q with state := .USED })
      (.kfork p i pid .trapframe)
  | forkContext (p i : ℕ) (pid : ℤ) :
    Writes s (.kfork p i pid .setContext) i
      (fun q => { q with context := [.forkret i], saved := true }) (.kfork p i pid .copy)
  | forkFree (p i : ℕ) (pid : ℤ) :
    Writes s (.kfork p i pid .freeproc) i freeproc (.kfork p i pid .releaseFail)
  | forkParent (p i : ℕ) (pid : ℤ) :
    Writes s (.kfork p i pid .setParent) i (fun q => { q with parent := some p })
      (.kfork p i pid .waitRelease)
  | forkRunnable (p i : ℕ) (pid : ℤ) :
    Writes s (.kfork p i pid .setRunnable) i (fun q => { q with state := .RUNNABLE })
      (.kfork p i pid .releaseLast)
  | exitParent (p : ℕ) (status : ℤ) (i : ℕ) :
    Writes s (.kexit p status i .setParent) i (fun q => { q with parent := some initproc })
      (.kexit p status i .wakeInit)
  | exitStatus (p : ℕ) (status : ℤ) (i : ℕ) :
    Writes s (.kexit p status i .setXstate) p (fun q => { q with xstate := status })
      (.kexit p status i .setState)
  | exitState (p : ℕ) (status : ℤ) (i : ℕ) :
    Writes s (.kexit p status i .setState) p (fun q => { q with state := .ZOMBIE })
      (.kexit p status i .waitRelease)
  | waitFree (p : ℕ) (addr : Bool) (i : ℕ) (hk : Bool) (a0 : ℤ) :
    Writes s (.kwait p addr i hk a0 .freeproc) i freeproc (.kwait p addr i hk a0 .foundRelease)

theorem instr_write {ch : Choice} (h : instr s c f ch = some (.write n u g)) :
    Writes s f n u g := by
  cases f with
  | code m locks a0 =>
    simp only [instr, codeInstr] at h
    split at h <;> first | cases h | (split_ifs at h; cases h)
  | ret a0 =>
    simp only [instr] at h
    split_ifs at h
    cases h
  | yield p k =>
    simp only [instr] at h
    split_ifs at h
    cases k <;> cases h
    constructor
  | sched p k =>
    simp only [instr] at h
    cases k <;> simp only [schedInstr] at h <;> (try split_ifs at h) <;> cases h
  | sleep p chan lk k =>
    simp only [instr] at h
    split_ifs at h
    cases k <;> cases h <;> constructor
  | wakeup chan i k =>
    simp only [instr] at h
    cases k <;> simp only [wakeupInstr] at h <;> (try split_ifs at h) <;> cases h
    rename_i hc
    exact .wakeup _ _ hc.1 hc.2
  | kkill pid i k =>
    simp only [instr] at h
    cases k <;> simp only [kkillInstr] at h <;> (try split_ifs at h) <;> cases h
    · exact .killFlag _ _
    · exact .killWake _ _ ‹_›
  | setkilled p k =>
    simp only [instr] at h
    split_ifs at h
    cases k <;> cases h
    constructor
  | killed p a0 k =>
    simp only [instr] at h
    split_ifs at h
    cases k <;> cases h
  | kfork p i pid k =>
    simp only [instr] at h
    cases k <;> simp only [kforkInstr] at h <;> (try split_ifs at h) <;> cases h <;> constructor
  | kexit p status i k =>
    simp only [instr] at h
    cases k <;> simp only [kexitInstr] at h <;> (try split_ifs at h) <;> cases h <;> constructor
  | kwait p addr i hk a0 k =>
    simp only [instr] at h
    cases k <;> simp only [kwaitInstr] at h <;> (try split_ifs at h) <;> cases h
    constructor
  | forkret p =>
    simp only [instr] at h
    split_ifs at h
    cases h

/-- A write is made under the lock of the process; `parent` is set under `wait_lock`. -/
theorem Writes.held (h : Writes s f n u g) : Lock.proc n ∈ f.held ∨
    Lock.wait_lock ∈ f.held ∧ ∃ v, u = fun q => { q with parent := some v } := by
  cases h with
  | forkParent p i pid => exact .inr ⟨mem_singleton_self _, p, rfl⟩
  | exitParent p status i => exact .inr ⟨mem_singleton_self _, initproc, rfl⟩
  | _ => exact .inl (by simp [Frame.held])

/-! ## The slots -/

/-- What a step does to `proc[n]`. -/
inductive SlotStep (s : KState) (e : KEv) (s' : KState) (n : ℕ) : Prop where
  | same : s'.proc n = s.proc n → SlotStep s e s' n
  | write {mk : List Frame → Exec} {f : Frame} {st : List Frame} {u : Proc → Proc} {g : Frame} :
    Runs s e.cpu mk (f :: st) → Writes s f n u g → s' = (s.setProc n u).goto e.cpu (mk (g :: st)) →
      SlotStep s e s' n
  /-- `sched` saves the context -/
  | park {st : List Frame} :
    Executes s e.cpu n (.sched n .swtch :: st) →
      s'.proc n = { s.proc n with context := .sched n .ret :: st, saved := true } →
      SlotStep s e s' n
  /-- the scheduler is going to run the process -/
  | dispatch :
    (s.cpu e.cpu).exec = .scheduler (.setRunning n) [] →
      s'.proc n = { s.proc n with state := .RUNNING } → SlotStep s e s' n
  /-- the scheduler switches to the process -/
  | resume :
    (s.cpu e.cpu).exec = .scheduler (.swtch n) [] →
      s'.proc n = { s.proc n with saved := false } → SlotStep s e s' n

theorem acquire_proc {l : Lock} {x : Exec} (h : s.acquire c l x = .ok s') : s'.proc = s.proc := by
  obtain ⟨-, rfl⟩ := acquire_eq h
  rfl

theorem release_proc {l : Lock} {x : Exec} (h : s.release c l x = .ok s') : s'.proc = s.proc := by
  obtain ⟨-, rfl⟩ := release_eq h
  rfl

theorem setProc_ne {u : Proc → Proc} {q : ℕ} (h : n ≠ q) : (s.setProc q u).proc n = s.proc n :=
  Function.update_of_ne h ..

theorem setProc_eq (s : KState) (n : ℕ) (u : Proc → Proc) :
    (s.setProc n u).proc n = u (s.proc n) :=
  Function.update_self ..

@[simp] theorem goto_proc (s : KState) (c : ℕ) (x : Exec) : (s.goto c x).proc = s.proc := rfl

@[simp] theorem setCpu_proc (s : KState) (c : ℕ) (x : Cpu) : (s.setCpu c x).proc = s.proc := rfl

/-- `swtch` is an instruction of `sched`, and `nextpid` one of `allocpid`. -/
def Instr.From (f : Frame) : Instr → Prop
  | .swtch p g => f = .sched p .swtch ∧ g = .sched p .ret
  | .nextpid _ => .pid_lock ∈ f.held
  | _ => True

theorem instr_from {ch : Choice} {i : Instr} (h : instr s c f ch = some i) : i.From f := by
  cases f with
  | code m locks a0 =>
    simp only [instr, codeInstr] at h
    split at h <;> (try split_ifs at h) <;> cases h <;> exact trivial
  | ret a0 | forkret q =>
    simp only [instr] at h
    split_ifs at h
    cases h
    exact trivial
  | yield q k | sched q k | sleep q chan lk k | wakeup chan j k | kkill pid j k | setkilled q k
  | killed q a0 k | kfork q j pid k | kexit q status j k | kwait q addr j hk a0 k =>
    simp only [instr] at h
    split_ifs at h
    all_goals
      cases h
      cases k <;> simp only [yieldInstr, schedInstr, sleepInstr, wakeupInstr, kkillInstr,
        setkilledInstr, killedInstr, kforkInstr, kexitInstr, kwaitInstr] <;> (try split_ifs) <;>
      simp [Instr.From, Frame.held]

theorem slotStep (h : KInv s) (hs : kStep s e = .ok s') (n : ℕ) : SlotStep s e s' n := by
  rcases kStep_effect hs with ⟨hr, hi, hrun⟩ | ⟨hk, hsch⟩ | ⟨-, -, -, rfl⟩ | ⟨-, rfl⟩
  · rename_i mk f st i
    cases i with
    | write q u g =>
      cases hrun
      by_cases hn : n = q
      · subst hn
        exact .write hr (instr_write hi) rfl
      · exact .same (by rw [goto_proc, setProc_ne hn])
    | swtch q g =>
      cases hrun
      obtain ⟨rfl, rfl⟩ := instr_from hi
      by_cases hn : n = q
      · subst hn
        obtain ⟨rfl, p, hex, hok⟩ := h.executes hr rfl
        obtain rfl : n = p := hok.1
        exact .park hex (by rw [goto_proc, setProc_eq])
      · exact .same (by rw [goto_proc, setProc_ne hn])
    | acquire l g => exact .same (by rw [acquire_proc hrun])
    | release l g => exact .same (by rw [release_proc hrun])
    | panic msg => cases hrun
    | goto g | nextpid g | call d g | ret a0 =>
      cases hrun
      exact .same rfl
  · cases schedulerStep_effect hsch with
    | stay => exact .same rfl
    | setRunning i =>
      by_cases hn : n = i
      · subst hn
        exact .dispatch hk (by rw [goto_proc, setProc_eq])
      · exact .same (by rw [goto_proc, setProc_ne hn])
    | swtch i =>
      by_cases hn : n = i
      · subst hn
        exact .resume hk (by rw [setCpu_proc, setProc_eq])
      · exact .same (by rw [setCpu_proc, setProc_ne hn])
  · exact .same rfl
  · exact .same rfl

/-- A step leaves the other CPUs as they are. -/
theorem cpu_other (hs : kStep s e = .ok s') (hc : c ≠ e.cpu) : s'.cpu c = s.cpu c := by
  rcases kStep_effect hs with ⟨-, -, hrun⟩ | ⟨-, hsch⟩ | ⟨-, -, -, rfl⟩ | ⟨-, rfl⟩
  · rename_i mk f st i
    cases i with
    | acquire l g =>
      obtain ⟨-, rfl⟩ := acquire_eq hrun
      exact setCpu_ne hc
    | release l g =>
      obtain ⟨-, rfl⟩ := release_eq hrun
      exact setCpu_ne hc
    | panic msg => cases hrun
    | _ =>
      cases hrun
      exact goto_cpu_ne hc
  · cases schedulerStep_effect hsch <;> exact setCpu_ne hc
  · exact goto_cpu_ne hc
  · exact goto_cpu_ne hc

/-- What is written to a slot without its lock is `parent`. -/
theorem KInv.slot_unlocked (h : KInv s) (hs : kStep s e = .ok s')
    (hnot : Lock.proc n ∉ (s.cpu e.cpu).exec.held) :
    ∃ v, s'.proc n = { s.proc n with parent := v } := by
  rcases slotStep h hs n with hsame | ⟨hr, hw, rfl⟩ | ⟨hex, -⟩ | ⟨hk, -⟩ | ⟨hk, -⟩
  · exact ⟨_, hsame⟩
  · rcases hw.held with hm | ⟨-, v, rfl⟩
    · exact absurd (hr.mem_held hm) hnot
    · exact ⟨some v, by rw [goto_proc, setProc_eq]⟩
  · refine absurd ?_ hnot
    obtain ⟨-, hover, hok⟩ := h.procs.stackOk hex
    rw [hex.2]
    exact hok.calls_held hover.1
  all_goals
    refine absurd ?_ hnot
    rw [hk]
    simp [Exec.held, SchedulerPc.held]

/-! ## The threads -/

/-- The stack an instruction leaves, on top of `st`; `pid` is the next process ID. -/
def Instr.stack (pid : ℤ) (st : List Frame) : Instr → List Frame
  | .goto f | .acquire _ f | .release _ f | .write _ _ f | .swtch _ f => f :: st
  | .nextpid f => f pid :: st
  | .call g f => g :: f :: st
  | .ret a0 => KState.ret a0 st
  | .panic _ => st

/-- An instruction other than `swtch` moves the CPU on within its stack. -/
theorem Runs.run (h : Runs s c mk (f :: st)) {i : Instr} (hi : ∀ p g, i ≠ .swtch p g)
    (hs : s.run c mk st i = .ok s') : Moves s s' c (f :: st) (i.stack s.nextpid st) := by
  cases i with
  | acquire l g =>
    obtain ⟨-, rfl⟩ := acquire_eq hs
    refine h.moves (fun c' hc => setCpu_ne hc) ?_ ?_ ?_
    all_goals rw [setCpu_self]
    rfl
  | release l g =>
    obtain ⟨-, rfl⟩ := release_eq hs
    refine h.moves (fun c' hc => setCpu_ne hc) ?_ ?_ ?_
    all_goals rw [setCpu_self]
    rfl
  | swtch p g => exact absurd rfl (hi p g)
  | panic msg => cases hs
  | write q u g =>
    cases hs
    exact h.goto (show (s.setProc q u).cpu = s.cpu from rfl)
  | nextpid g =>
    cases hs
    exact h.goto
      (show ({ s with nextpid := (s.nextpid + 1).bmod (2 ^ 32) } : KState).cpu = s.cpu from rfl)
  | goto g | call d g | ret a0 =>
    cases hs
    exact h.goto rfl

/-- What a step does to the thread of process `n`, which now has stack `x`. -/
inductive ThreadStep (s : KState) (e : KEv) (s' : KState) (n : ℕ) (x : List Frame) : Prop where
  /-- another process moved -/
  | same : Thread s n x → (∀ st, ¬Executes s e.cpu n st) → ThreadStep s e s' n x
  /-- its own instruction -/
  | turn {f : Frame} {st : List Frame} {i : Instr} :
    Executes s e.cpu n (f :: st) → instr s e.cpu f e.choice = some i →
      s.run e.cpu .thread st i = .ok s' → x = i.stack s.nextpid st → ThreadStep s e s' n x
  /-- an interrupt -/
  | interrupt {st : List Frame} {d : Frame} :
    Executes s e.cpu n st → heldBy st = [] → d = .code .intr [] 0 ∨ d = .yield n .acquire →
      s'.proc = s.proc → x = d :: st → ThreadStep s e s' n x
  /-- `kfork` has made the process -/
  | fork {q : ℕ} {pid : ℤ} {st : List Frame} :
    Executes s e.cpu q (.kfork q n pid .setRunnable :: st) → (s.proc n).state = .USED →
      s' = (s.setProc n fun r => { r with state := .RUNNABLE }).goto e.cpu
        (.thread (.kfork q n pid .releaseLast :: st)) →
      x = [.forkret n] → ThreadStep s e s' n x

/-- What makes a process that no CPU executes live leaves its context alone, or is
the end of `kfork`. -/
theorem KInv.parked_step (h : KInv s) (hs : kStep s e = .ok s') (hno : ∀ c st, ¬Executes s c n st)
    (hlive : (s'.proc n).state.live = true) :
    ((s.proc n).state.live = true ∧ (s'.proc n).context = (s.proc n).context) ∨
      ThreadStep s e s' n (s'.proc n).context := by
  rcases slotStep h hs n with hsame | ⟨hr, hw, hs'⟩ | ⟨hex, -⟩ | ⟨hk, hp⟩ | ⟨hk, hp⟩
  · rw [hsame] at hlive ⊢
    exact .inl ⟨hlive, rfl⟩
  · rename_i mk f st u g
    have hp : s'.proc n = u (s.proc n) := by rw [hs', goto_proc, setProc_eq]
    rw [hp] at hlive ⊢
    cases hw with
    | yieldState | sleepChan | sleepState | sleepClear | setkilled | exitStatus | exitState =>
      -- a process writes these in its own slot, while it executes
      obtain ⟨-, q, hex, hok⟩ := h.executes hr rfl
      exact absurd hex (hok.1 ▸ hno _ _)
    | wakeup chan i hσ =>
      exact .inl ⟨by rw [hσ]; rfl, rfl⟩
    | killWake pid i hσ => exact .inl ⟨by rw [hσ]; rfl, rfl⟩
    | killFlag | forkPid | forkParent | exitParent => exact .inl ⟨hlive, rfl⟩
    | forkUsed | forkFree | waitFree => cases hlive
    | forkContext p i pid =>
      have hcl := (h.claim hr rfl n .USED rfl).1
      rw [hcl] at hlive
      cases hlive
    | forkRunnable p i pid =>
      obtain ⟨hcl, hctx⟩ := h.claim hr rfl n .USED rfl
      obtain ⟨rfl, q, hex, hok⟩ := h.executes hr rfl
      obtain rfl : p = q := hok.1
      exact .inr (.fork hex hcl hs' (hctx rfl).1)
  · exact absurd hex (hno _ _)
  · rw [hp]
    obtain ⟨-, hσ, -⟩ := h.schedulerOk hk
    exact .inl ⟨by rw [hσ]; rfl, rfl⟩
  · rw [hp]
    obtain ⟨-, hσ⟩ := h.schedulerOk hk
    exact .inl ⟨by rw [hσ]; rfl, rfl⟩

/-- The CPU that moves executes the process in `s'`. -/
theorem KInv.executes_step {x : List Frame} (h : KInv s) (hs : kStep s e = .ok s')
    (hx : Executes s' e.cpu n x) : ThreadStep s e s' n x := by
  rcases kStep_effect hs with ⟨hr, hi, hrun⟩ | ⟨hk, hsch⟩ | ⟨hth, hnoff, hd, rfl⟩ | ⟨-, rfl⟩
  · rename_i mk f st i
    by_cases hsw : ∃ p g, i = .swtch p g
    · obtain ⟨p, g, rfl⟩ := hsw
      cases hrun
      have := hx.2
      rw [goto_cpu_self] at this
      cases this
    · have hm := hr.run (fun p g hpg => hsw ⟨p, g, hpg⟩) hrun
      rcases hm.exec with ⟨h1, h2⟩ | ⟨k, -, h2, -⟩
      · rcases hr.2 with rfl | ⟨⟨k, rfl⟩, -⟩
        · exact .turn ⟨hm.proc ▸ hx.1, h1⟩ hi hrun (Exec.thread.inj (hx.2.symm.trans h2))
        · cases h1.symm.trans hr.1
      · cases hx.2.symm.trans h2
  · cases schedulerStep_effect hsch with
    | swtch i =>
      obtain ⟨hp, hσ⟩ := h.schedulerOk hk
      obtain ⟨h1, h2⟩ := hx
      rw [setCpu_self] at h1 h2
      obtain rfl := Option.some.inj (hp.symm.trans h1)
      refine .same (.inr ⟨?_, by rw [hσ]; rfl, Exec.thread.inj h2⟩) fun st hst => ?_
      · rintro ⟨c', y, h1', h2'⟩
        obtain rfl := h.procs.uniq c' _ _ h1' h1
        cases hk.symm.trans h2'
      · cases hk.symm.trans hst.2
    | stay hk' =>
      have := hx.2
      rw [setCpu_self, hk'] at this
      cases this
    | setRunning i =>
      have := hx.2
      rw [goto_cpu_self] at this
      cases this
  · rename_i st d
    obtain ⟨h1, h2⟩ := hx
    rw [goto_cpu_self] at h1 h2
    refine .interrupt ⟨h1, hth⟩ (h.heldBy_nil hth hnoff) ?_ rfl (Exec.thread.inj h2).symm
    rcases hd with hd | ⟨p, hp, hd⟩
    · exact .inl hd
    · obtain rfl := Option.some.inj (hp.symm.trans h1)
      exact .inr hd
  · have := hx.2
    rw [goto_cpu_self] at this
    cases this

/-- **What a step does to a thread.** -/
theorem KInv.threadStep {x : List Frame} (h : KInv s) (hs : kStep s e = .ok s')
    (ht : Thread s' n x) : ThreadStep s e s' n x := by
  rcases ht with ⟨c, hx⟩ | ⟨hno, hlive, rfl⟩
  · by_cases hc : c = e.cpu
    · exact h.executes_step hs (hc ▸ hx)
    · have hx' : Executes s c n x := by
        rw [Executes, ← cpu_other hs hc]
        exact hx
      exact .same (.inl ⟨c, hx'⟩) fun st hst => hc (h.procs.uniq _ _ _ hx'.1 hst.1)
  · by_cases hex : ∃ c y, Executes s c n y
    · -- it has been executing: it has called `swtch`
      obtain ⟨c, y, hy⟩ := hex
      obtain rfl : c = e.cpu := by
        by_contra hc
        exact hno ⟨c, y, by rw [Executes, cpu_other hs hc]; exact hy⟩
      rcases kStep_effect hs with ⟨hr, hi, hrun⟩ | ⟨hk, -⟩ | ⟨hth, -, -, rfl⟩ | ⟨hk, -⟩
      · rename_i mk f st i
        by_cases hsw : ∃ p g, i = .swtch p g
        · obtain ⟨p, g, rfl⟩ := hsw
          obtain ⟨rfl, rfl⟩ := instr_from hi
          obtain ⟨rfl, q, hex, hok⟩ := h.executes hr rfl
          obtain rfl : p = q := hok.1
          obtain rfl := Option.some.inj (hex.1.symm.trans hy.1)
          refine .turn hex hi hrun ?_
          cases hrun
          rw [goto_proc, setProc_eq]
          rfl
        · have hm := hr.run (fun p g hpg => hsw ⟨p, g, hpg⟩) hrun
          exact absurd ((hm.executing n).mpr ⟨_, y, hy⟩) hno
      · cases hk.symm.trans hy.2
      · exact absurd ⟨e.cpu, _, by rw [goto_cpu_self]; exact hy.1, by rw [goto_cpu_self]⟩ hno
      · cases hk.symm.trans hy.2
    · have hno' : ∀ c st, ¬Executes s c n st := fun c st hst => hex ⟨c, st, hst⟩
      rcases h.parked_step hs hno' hlive with ⟨hl, hctx⟩ | hstep
      · exact .same (.inr ⟨hex, hl, hctx.symm⟩) fun st => hno' _ st
      · exact hstep

/-! ## What activations know of the slots they have locked -/

/-- The activations an instruction puts in the place of the one that executes it. -/
def Instr.next (pid : ℤ) : Instr → List Frame
  | .goto f | .acquire _ f | .release _ f | .write _ _ f | .swtch _ f => [f]
  | .nextpid f => [f pid]
  | .call g f => [g, f]
  | .ret _ | .panic _ => []

/-- The function an activation is of. -/
inductive Fn : Type where
  | code | ret | yield | sched | sleep | wakeup | kkill | setkilled | killed | kfork | kexit | kwait
  | forkret
  deriving DecidableEq

/-- The function of an activation. -/
def Frame.fn : Frame → Fn
  | .code .. => .code
  | .ret .. => .ret
  | .yield .. => .yield
  | .sched .. => .sched
  | .sleep .. => .sleep
  | .wakeup .. => .wakeup
  | .kkill .. => .kkill
  | .setkilled .. => .setkilled
  | .killed .. => .killed
  | .kfork .. => .kfork
  | .kexit .. => .kexit
  | .kwait .. => .kwait
  | .forkret .. => .forkret

/-- The functions a function calls; `forkret` goes on as the user's code. -/
def Fn.callees : Fn → List Fn
  | .code => [.sleep, .wakeup, .kkill, .setkilled, .killed, .kfork, .kexit, .kwait]
  | .yield | .sleep => [.sched]
  | .kexit => [.code, .wakeup, .sched]
  | .kwait => [.sleep]
  | .forkret => [.code]
  | _ => []

/-- An activation goes on in its function, ends it, or calls another. -/
theorem instr_fn {ch : Choice} {i : Instr} {pid : ℤ} (h : instr s c f ch = some i)
    (hg : g ∈ i.next pid) : g.fn = f.fn ∨ g.fn = .ret ∨ g.fn ∈ f.fn.callees := by
  cases f with
  | code m locks a0 =>
    simp only [instr, codeInstr] at h
    split at h <;> (try split_ifs at h) <;> cases h <;>
      simp only [Instr.next, mem_cons, not_mem_nil, or_false] at hg <;>
      (try rcases hg with rfl | rfl) <;> simp_all [Frame.fn, Fn.callees]
  | kfork q j pid k =>
    simp only [instr] at h
    split_ifs at h
    cases h
    cases k <;> simp only [kforkInstr] at hg <;> (try split_ifs at hg) <;>
      simp_all [Frame.fn, Instr.next]
  | kwait q addr j hk a0 k =>
    simp only [instr] at h
    split_ifs at h
    cases h
    cases k <;> simp only [kwaitInstr] at hg <;> (try split_ifs at hg) <;>
      simp only [Instr.next, mem_cons, not_mem_nil, or_false] at hg <;>
      (try rcases hg with rfl | rfl) <;> simp_all [Frame.fn, Fn.callees]
  | ret a0 | forkret q =>
    simp only [instr] at h
    split_ifs at h
    cases h
    simp_all [Instr.next, Frame.fn, Fn.callees]
  | yield q k | sched q k | sleep q chan lk k | wakeup chan j k | kkill pid j k | setkilled q k
  | killed q a0 k | kexit q status j k =>
    simp only [instr] at h
    split_ifs at h
    cases h
    cases k <;> simp only [yieldInstr, schedInstr, sleepInstr, wakeupInstr, kkillInstr,
        setkilledInstr, killedInstr, kexitInstr] at hg <;> (try split_ifs at hg) <;>
      simp only [Instr.next, mem_cons, not_mem_nil, or_false] at hg <;>
      (try rcases hg with rfl | rfl) <;> simp_all [Frame.fn, Fn.callees]

/-- Knowledge an activation has of the slots it has locked, apart from `parent`.
What runs between the functions of `proc.c` knows nothing, nor does what holds a
lock across `swtch`. -/
structure Knowledge (K : KState → Frame → Prop) : Prop where
  stable : ∀ {s s' f}, K s f →
    (∀ n, Lock.proc n ∈ f.held → ∃ v, s'.proc n = { s.proc n with parent := v }) → K s' f
  parks : ∀ {s f}, f.parks = true → K s f
  code : ∀ {s m locks a0}, K s (.code m locks a0)
  yield : ∀ {s p}, K s (.yield p .acquire)

theorem mem_stack {i : Instr} {pid : ℤ} {x : Frame} (h : x ∈ i.stack pid st) :
    x ∈ i.next pid ∨ x ∈ st ∨ ∃ m locks a0, x = .code m locks a0 := by
  cases i with
  | ret a0 =>
    simp only [Instr.stack, KState.ret] at h
    split at h
    · rcases mem_cons.mp h with rfl | h
      · exact .inr (.inr ⟨_, _, _, rfl⟩)
      · exact .inr (.inl (mem_cons_of_mem _ h))
    · exact .inr (.inl h)
  | call d g =>
    simp only [Instr.stack, mem_cons] at h
    simp only [Instr.next, mem_cons, not_mem_nil, or_false]
    tauto
  | panic msg => exact .inr (.inl h)
  | goto g | acquire l g | release l g | write q u g | swtch q g | nextpid g =>
    rcases mem_cons.mp h with rfl | h
    · exact .inl (mem_singleton_self _)
    · exact .inr (.inl h)

/-- An activation below the one on top has none of its locks. -/
theorem KInv.below_held (h : KInv s) (hex : Executes s c p (f :: st)) (hg : g ∈ st)
    (hf : Lock.proc n ∈ f.held) : Lock.proc n ∉ g.held := by
  intro hn
  have hnd := h.locks.nodup c
  rw [hex.2, Exec.held, heldBy_cons] at hnd
  obtain ⟨-, hover, hok⟩ := h.procs.stackOk hex
  exact disjoint_of_nodup_append hnd hf (hover.mem_heldBelow (hok.mem_heldBy hg hn))

/-- **Knowledge is kept by the steps of others**: what matters is how an activation goes on. -/
theorem Knowledge.step {K : KState → Frame → Prop} (hK : Knowledge K) (h : KInv s)
    (hs : kStep s e = .ok s') (hk : ∀ p st, Thread s p st → ∀ f ∈ st, K s f)
    (hturn : ∀ p f st i, Executes s e.cpu p (f :: st) → instr s e.cpu f e.choice = some i →
      s.run e.cpu .thread st i = .ok s' → ∀ g ∈ i.next s.nextpid, K s' g)
    {x : List Frame} (ht : Thread s' p x) (hf : f ∈ x) : K s' f := by
  by_cases hpk : f.parks = true
  · exact hK.parks hpk
  rw [Bool.not_eq_true] at hpk
  rcases h.threadStep hs ht with ⟨ht', hnot⟩ | ⟨hex, hi, hrun, rfl⟩ | ⟨hex, -, hd, hp, rfl⟩ |
    ⟨-, -, -, rfl⟩
  · -- the locks of another thread are not those of the CPU that moves
    refine hK.stable (hk p x ht' f hf) fun n hn => ?_
    rcases ht' with ⟨c, hx⟩ | ⟨hno, hlive, rfl⟩
    · have hl : Lock.proc n ∈ (s.cpu c).exec.held := by
        rw [hx.2]
        exact (h.procs.stackOk hx).mem_heldBy hf hn
      refine h.slot_unlocked hs fun hm => ?_
      obtain rfl := h.locks.cpu_eq hl hm
      exact hnot _ hx
    · exact ((h.procs.parked p hno hlive).2.not_held hf hpk hn).elim
  · rename_i g st i
    rcases mem_stack hf with hf | hf | ⟨m, locks, a0, rfl⟩
    · exact hturn p g st i hex hi hrun f hf
    · refine hK.stable (hk p _ (.inl ⟨_, hex⟩) f (mem_cons_of_mem _ hf)) fun n hn => ?_
      rcases slotStep h hs n with hsame | ⟨hr, hw, rfl⟩ | ⟨hex', hp⟩ | ⟨hx, -⟩ | ⟨hx, -⟩
      · exact ⟨_, hsame⟩
      · obtain ⟨hx, rfl | ⟨⟨k, rfl⟩, -⟩⟩ := hr
        · obtain ⟨rfl, rfl⟩ := List.cons.inj (Exec.thread.inj (hex.2.symm.trans hx))
          rcases hw.held with hm | ⟨-, v, rfl⟩
          · exact absurd hn (h.below_held hex hf hm)
          · exact ⟨some v, by rw [goto_proc, setProc_eq]⟩
        · cases hex.2.symm.trans hx
      · obtain ⟨rfl, rfl⟩ := List.cons.inj (Exec.thread.inj (hex.2.symm.trans hex'.2))
        obtain ⟨hof, ⟨hcall, hheld⟩, hok⟩ := h.procs.stackOk hex'
        have hparked : Parked n (.sched n .ret :: st) :=
          ⟨⟨rfl, ⟨hcall, hheld⟩, hok⟩, hheld, rfl, .inr ⟨st, rfl⟩⟩
        exact (hparked.not_held (mem_cons_of_mem _ hf) hpk hn).elim
      · cases hex.2.symm.trans hx
      · cases hex.2.symm.trans hx
    · exact hK.code
  · rcases mem_cons.mp hf with rfl | hf
    · rcases hd with rfl | rfl
      · exact hK.code
      · exact hK.yield
    · exact hK.stable (hk p _ (.inl ⟨_, hex⟩) f hf) fun n _ => ⟨_, by rw [hp]⟩
  · rw [mem_singleton.mp hf]
    exact hK.parks rfl

end Xv6
