import Mathlib.Data.List.Nodup
import Xv6.Proc

/-!
# The invariant of the process machine

Each activation is annotated with what its control point says:

* which locks it holds (`Frame.held`; `sleep` holds its caller's lock no longer
  once it has released it, hence `heldBy` on stacks);
* in which state its own process is (`ownState`): `RUNNING`, unless it holds the lock
  of the process and has already changed the state on its way to `sched`;
* what it knows of the state of another process (`Frame.claim`): the slot
  `kfork` is filling, the zombie `kwait` is about to free.

`LockInv` says that the lock table agrees with the annotations, `ProcInv` that
the process table and the CPUs do.
-/

namespace Xv6

/-! ## Annotations -/

/-- The locks an activation holds; for `sleep`, besides its caller's. -/
def Frame.held : Frame → List Lock
  | .code _ locks _ => locks.map .other
  | .yield p k =>
    match k with
    | .acquire => []
    | .setState | .sched | .release => [.proc p]
  | .sleep p _ _ k =>
    match k with
    | .acquire | .acquireLk => []
    | .releaseLk | .setChan | .setState | .sched | .clearChan | .release => [.proc p]
  | .wakeup _ i k =>
    match k with
    | .test | .acquire => []
    | .check | .release => [.proc i]
  | .kkill _ i k =>
    match k with
    | .acquire => []
    | .check | .setKilled | .wake | .releaseFound | .release => [.proc i]
  | .setkilled p k | .killed p _ k =>
    match k with
    | .acquire => []
    | .access | .release => [.proc p]
  | .kfork _ i _ k =>
    match k with
    | .acquire | .waitAcquire | .acquireNp => []
    | .pidTake | .pidRelease => [.pid_lock, .proc i]
    | .setParent | .waitRelease => [.wait_lock]
    | _ => [.proc i]
  | .kexit p _ _ k =>
    match k with
    | .start | .files | .waitAcquire => []
    | .reparent | .setParent | .wakeInit | .wakeParent | .acquire => [.wait_lock]
    | .setXstate | .setState | .waitRelease => [.proc p, .wait_lock]
    | .sched | .dead => [.proc p]
  | .kwait p _ i _ _ k =>
    match k with
    | .acquire => []
    | .scan | .childAcquire | .done | .killedAcquire | .sleep | .waitRelease => [.wait_lock]
    | .childCheck | .copyout | .freeproc | .foundRelease | .childRelease | .failRelease =>
      [.proc i, .wait_lock]
    | .killedRead | .killedRelease _ => [.proc p, .wait_lock]
  | .forkret p => [.proc p]
  | .ret _ | .sched _ _ => []

/-- Has `sleep` released its caller's lock? -/
def SleepPc.released : SleepPc → Bool
  | .acquire | .releaseLk => false
  | _ => true

/-- The locks a stack of activations holds. -/
def heldBy : List Frame → List Lock
  | [] => []
  | .sleep p chan lk k :: st =>
    (Frame.sleep p chan lk k).held ++ if k.released then (heldBy st).erase lk else heldBy st
  | f :: st => f.held ++ heldBy st

/-- The locks the scheduler holds. -/
def SchedulerPc.held : SchedulerPc → List Lock
  | .start | .acquire _ => []
  | .check i | .setRunning i | .setProc i | .swtch i | .back i | .release i => [.proc i]

/-- The locks a CPU holds. -/
def Exec.held : Exec → List Lock
  | .scheduler k st => k.held ++ heldBy st
  | .thread st => heldBy st

/-- The state of the process whose thread has this stack, while it runs. -/
def ownState : List Frame → ProcState
  | .yield _ .sched :: _ => .RUNNABLE
  | .sleep _ _ _ .sched :: _ => .SLEEPING
  | .kexit _ _ _ .waitRelease :: _ => .ZOMBIE
  | .kexit _ _ _ .sched :: _ => .ZOMBIE
  | .sched _ .ret :: _ => .RUNNING
  | .sched _ _ :: .yield _ _ :: _ => .RUNNABLE
  | .sched _ _ :: .sleep _ _ _ _ :: _ => .SLEEPING
  | .sched _ _ :: .kexit _ _ _ _ :: _ => .ZOMBIE
  | _ => .RUNNING

/-- What an activation knows of the state of another process. -/
def Frame.claim : Frame → Option (ℕ × ProcState)
  | .kfork _ i _ k =>
    match k with
    | .acquire | .check | .release | .releaseFail | .releaseLast => none
    | .pidAcquire | .pidTake | .pidRelease | .setPid | .setUsed => some (i, .UNUSED)
    | .trapframe | .pagetable | .setContext | .copy | .freeproc | .releaseNp | .waitAcquire
    | .setParent | .waitRelease | .acquireNp | .setRunnable => some (i, .USED)
  | .kwait _ _ i _ _ k =>
    match k with
    | .copyout | .freeproc => some (i, .ZOMBIE)
    | _ => none
  | _ => none

/-- Has `kfork` set up the context of the slot it is filling? -/
def Frame.contextSet : Frame → Bool
  | .kfork _ _ _ k =>
    match k with
    | .copy | .releaseNp | .waitAcquire | .setParent | .waitRelease | .acquireNp
    | .setRunnable => true
    | _ => false
  | _ => false

/-- The slots a stack of activations is filling. -/
def filling (st : List Frame) : List ℕ :=
  st.filterMap fun f => f.claim.bind fun x => if x.2 = .USED then some x.1 else none

/-- Does an activation belong to process `p`, if to any? -/
def Frame.Of (p : ℕ) : Frame → Prop
  | .yield q _ | .sched q _ | .sleep q _ _ _ | .setkilled q _ | .killed q _ _ | .kfork q _ _ _
  | .kexit q _ _ _ | .kwait q _ _ _ _ _ | .forkret q => q = p
  | .code .. | .ret _ | .wakeup .. | .kkill .. => True

/-- Is this activation one of `sched`? -/
def Frame.isSched : Frame → Bool
  | .sched .. => true
  | _ => false

/-- A stack that another activation may be put on: its process is running. -/
def Quiet (st : List Frame) : Prop := ownState st = .RUNNING ∧ ∀ f ∈ st.head?, f.isSched = false

/-- Is the activation on top of `st` in a call of `sched`? -/
def CallsSched : List Frame → Prop
  | .yield _ .release :: _ => True
  | .sleep _ _ _ .clearChan :: _ => True
  | .kexit _ _ _ .dead :: _ => True
  | _ => False

/-- May activation `f` be on top of `st`? -/
def Over (f : Frame) (st : List Frame) : Prop :=
  match f with
  | .sched _ .check => CallsSched st
  | .sched p _ => CallsSched st ∧ heldBy st = [.proc p]
  | .sleep _ _ lk _ => (lk ∈ heldBy st ∧ ∀ i, lk ≠ .proc i) ∧ Quiet st
  | _ => Quiet st

/-- A well-formed stack of process `p`. -/
def StackOk (p : ℕ) : List Frame → Prop
  | [] => True
  | f :: st => f.Of p ∧ Over f st ∧ StackOk p st

/-- The stack of a process that can be resumed: it gets its lock from the scheduler. -/
structure Parked (p : ℕ) (st : List Frame) : Prop where
  ok : StackOk p st
  held : heldBy st = [.proc p]
  own : ownState st = .RUNNING
  top : st = [.forkret p] ∨ ∃ st', st = .sched p .ret :: st'

/-- May an interrupt handler have this activation? -/
def Frame.isHandler : Frame → Bool
  | .code .intr _ _ | .wakeup .. | .ret _ => true
  | _ => false

/-- The activations of interrupt handlers. -/
def Handler (st : List Frame) : Prop := ∀ f ∈ st, f.isHandler = true

/-! ## The invariant -/

/-- The states in which a process has a thread to be resumed. -/
def ProcState.live : ProcState → Bool
  | .SLEEPING | .RUNNABLE | .RUNNING => true
  | .UNUSED | .USED | .ZOMBIE => false

section

variable (s : KState)

/-- No CPU runs `p`. -/
def Idle (p : ℕ) : Prop := ∀ c, (s.cpu c).proc ≠ some p

/-- CPU `c` is executing the thread of `p`, with stack `st`. -/
def Executes (c p : ℕ) (st : List Frame) : Prop :=
  (s.cpu c).proc = some p ∧ (s.cpu c).exec = .thread st

/-- Process `p` has a thread, running or to be resumed, with stack `st`. -/
def Thread (p : ℕ) (st : List Frame) : Prop :=
  (∃ c, Executes s c p st) ∨
    (¬∃ c st, Executes s c p st) ∧ (s.proc p).state.live = true ∧ (s.proc p).context = st

/-- The lock table and the nesting of `push_off` agree with the control points. -/
structure LockInv : Prop where
  lock : ∀ l c, s.lock l = some c ↔ l ∈ (s.cpu c).exec.held
  nodup : ∀ c, (s.cpu c).exec.held.Nodup
  noff : ∀ c, (s.cpu c).noff = (s.cpu c).exec.held.length

/-- What a CPU in the scheduler knows. -/
def SchedulerOk (c : ℕ) : SchedulerPc → Prop
  | .start | .acquire _ | .check _ | .release _ => (s.cpu c).proc = none
  | .setRunning i => (s.cpu c).proc = none ∧ (s.proc i).state = .RUNNABLE ∧ Idle s i
  | .setProc i => (s.cpu c).proc = none ∧ (s.proc i).state = .RUNNING ∧ Idle s i
  | .swtch i => (s.cpu c).proc = some i ∧ (s.proc i).state = .RUNNING
  | .back i =>
    (s.cpu c).proc = some i ∧ (s.proc i).state ≠ .RUNNING ∧
      ((s.proc i).state.live = true ∨ (s.proc i).state = .ZOMBIE)

/-- What a CPU runs agrees with the process table. -/
def CpuOk (c : ℕ) : Prop :=
  match (s.cpu c).exec with
  | .thread st => ∃ p, (s.cpu c).proc = some p ∧ (s.cpu c).context = .back p ∧ StackOk p st ∧
      (s.proc p).state = ownState st
  | .scheduler k st => SchedulerOk s c k ∧ Handler st ∧ (st ≠ [] → ∃ i, k = .acquire i)

/-- What an activation claims of the process table is true. -/
def ClaimOk (f : Frame) : Prop :=
  ∀ n σ, f.claim = some (n, σ) → (s.proc n).state = σ ∧
    (f.contextSet = true → (s.proc n).context = [.forkret n] ∧ (s.proc n).saved = true)

/-- **The invariant of the process machine.** -/
structure ProcInv : Prop where
  cpu : ∀ c, CpuOk s c
  uniq : ∀ c c' p, (s.cpu c).proc = some p → (s.cpu c').proc = some p → c = c'
  parked : ∀ p, (¬∃ c st, Executes s c p st) → (s.proc p).state.live = true →
    (s.proc p).saved = true ∧ Parked p (s.proc p).context
  running : ∀ p, (s.proc p).state = .RUNNING →
    (∃ c, (s.cpu c).proc = some p) ∨ ∃ c st, (s.cpu c).exec = .scheduler (.setProc p) st
  claims : ∀ p st, Thread s p st → ∀ f ∈ st, ClaimOk s f
  fillUniq : ∀ p p' st st' n, Thread s p st → Thread s p' st' → n ∈ filling st → n ∈ filling st' →
    p = p'
  fillNodup : ∀ p st, Thread s p st → (filling st).Nodup

end

end Xv6
