import Mathlib.Algebra.Ring.Nat
import Mathlib.Data.Int.Notation
import Mathlib.Logic.Function.Basic
import Xv6.Machine
import Xv6.Param

/-!
# Processes and the scheduler (`kernel/proc.c`)

The process table, the locks and any number of CPUs as one step machine. A
kernel thread is a stack of activations (`Frame`), each at a control point of
its function; a CPU runs the scheduler or such a stack. A step is one
instruction (`Instr`) of the activation on top: acquiring or releasing a spin
lock, a read or write of the process table, a call or return, or `swtch`, which
hands the CPU, with the lock of the process, from a thread to the scheduler and
back.

* The functions of `proc.c` are tables from control points to instructions,
  `yieldInstr`, `sleepInstr`, and so on; what a step may do to the machine is
  said once, in `KState.run`.
* Code outside `proc.c`, in the kernel and in user space, is the activation
  `code`: it may take and release locks of its own, sleep and wake up other
  processes holding them, and make the system calls.
* An interrupt may come whenever the CPU holds no spin lock, on top of any
  activation and of an idle scheduler. A device's handler may wake up
  processes; the timer makes a process `yield`.
* `Proc.saved` is history: the context has been saved by `sched`, or set up by
  `allocproc`, and not been resumed since. No step looks at it.

What `fork`, `exit` and `wait` do to memory and files is left out here; each
allocation that may fail is a choice.
-/

namespace Xv6

/-! ## The state -/

/-- `enum procstate` -/
inductive ProcState : Type where
  | UNUSED
  | USED
  | SLEEPING
  | RUNNABLE
  | RUNNING
  | ZOMBIE
  deriving DecidableEq

/-- The spin locks. -/
inductive Lock : Type where
  /-- `proc[p].lock` -/
  | proc (p : ℕ)
  | wait_lock
  | pid_lock
  /-- a lock of another part of the kernel -/
  | other (n : ℕ)
  deriving DecidableEq

/-- The addresses processes sleep on. -/
inductive Chan : Type where
  /-- `&proc[p]` -/
  | proc (p : ℕ)
  /-- an address in another part of the kernel -/
  | other (n : ℕ)
  deriving DecidableEq

/-- Control points of `yield`. -/
inductive YieldPc : Type where
  | acquire | setState | sched | release

/-- Control points of `sched`. -/
inductive SchedPc : Type where
  | check | swtch | ret

/-- Control points of `sleep`. -/
inductive SleepPc : Type where
  | acquire | releaseLk | setChan | setState | sched | clearChan | release | acquireLk

/-- Control points of `wakeup`. -/
inductive WakeupPc : Type where
  | test | acquire | check | release
  deriving DecidableEq

/-- Control points of `kkill`. -/
inductive KillPc : Type where
  | acquire | check | setKilled | wake | releaseFound | release

/-- Control points of `setkilled` and `killed`. -/
inductive KilledPc : Type where
  | acquire | access | release

/-- Control points of `kfork` and, up to `setContext`, of `allocproc`. -/
inductive ForkPc : Type where
  | acquire | check | release | pidAcquire | pidTake | pidRelease | setPid | setUsed
  | trapframe | pagetable | setContext | copy | freeproc | releaseFail | releaseNp
  | waitAcquire | setParent | waitRelease | acquireNp | setRunnable | releaseLast

/-- Control points of `kexit` and `reparent`. -/
inductive ExitPc : Type where
  | start | files | waitAcquire | reparent | setParent | wakeInit | wakeParent | acquire
  | setXstate | setState | waitRelease | sched | dead

/-- Control points of `kwait`. -/
inductive WaitPc : Type where
  | acquire | scan | childAcquire | childCheck | copyout | freeproc | foundRelease | childRelease
  | failRelease | done | killedAcquire | killedRead | killedRelease (killed : Bool) | sleep
  | waitRelease

/-- Code outside `proc.c`. -/
inductive Mode : Type where
  /-- the process in user space and in its system calls -/
  | user
  /-- closing the files of a process in `kexit` -/
  | files
  /-- a device interrupt -/
  | intr
  deriving DecidableEq

/-- An activation of a kernel function, with its local variables. -/
inductive Frame : Type where
  /-- other code, holding locks of its own; `a0` is what the last call returned -/
  | code (m : Mode) (locks : List ℕ) (a0 : ℤ)
  /-- the end of a function that returns `a0` -/
  | ret (a0 : ℤ)
  | yield (p : ℕ) (k : YieldPc)
  | sched (p : ℕ) (k : SchedPc)
  | sleep (p : ℕ) (chan : Chan) (lk : Lock) (k : SleepPc)
  | wakeup (chan : Option Chan) (i : ℕ) (k : WakeupPc)
  | kkill (pid : ℤ) (i : ℕ) (k : KillPc)
  | setkilled (p : ℕ) (k : KilledPc)
  | killed (p : ℕ) (a0 : ℤ) (k : KilledPc)
  | kfork (p i : ℕ) (pid : ℤ) (k : ForkPc)
  | kexit (p : ℕ) (status : ℤ) (i : ℕ) (k : ExitPc)
  | kwait (p : ℕ) (addr : Bool) (i : ℕ) (havekids : Bool) (a0 : ℤ) (k : WaitPc)
  | forkret (p : ℕ)

/-- `struct proc` -/
structure Proc where
  /-- process state -/
  state : ProcState
  /-- if some, sleeping on this address -/
  chan : Option Chan
  /-- has it been killed? -/
  killed : Bool
  /-- exit status to be returned to the parent's wait -/
  xstate : ℤ
  /-- process ID -/
  pid : ℤ
  /-- parent process -/
  parent : Option ℕ
  /-- `swtch` here to run the process -/
  context : List Frame
  /-- history: the context has been saved and not resumed since -/
  saved : Bool

/-- Control points of `scheduler`, with its loop variable. -/
inductive SchedulerPc : Type where
  | start
  | acquire (i : ℕ)
  | check (i : ℕ)
  | setRunning (i : ℕ)
  | setProc (i : ℕ)
  | swtch (i : ℕ)
  /-- `swtch` has returned -/
  | back (i : ℕ)
  | release (i : ℕ)

/-- What a CPU runs: the scheduler, interrupted if `stack` is not empty, or the
thread of a process. -/
inductive Exec : Type where
  | scheduler (k : SchedulerPc) (stack : List Frame)
  | thread (stack : List Frame)

/-- `struct cpu`, with what the CPU is running. -/
structure Cpu where
  /-- the process running on this cpu, or none -/
  proc : Option ℕ
  /-- `swtch` here to enter `scheduler` -/
  context : SchedulerPc
  /-- depth of `push_off` nesting -/
  noff : ℕ
  /-- what is running -/
  exec : Exec

/-- The process table, the CPUs and the locks. -/
structure KState where
  /-- `proc` -/
  proc : ℕ → Proc
  /-- `cpus` -/
  cpu : ℕ → Cpu
  /-- which CPU holds a lock -/
  lock : Lock → Option ℕ
  /-- `nextpid` -/
  nextpid : ℤ

/-- `initproc`, the slot `userinit` gets. -/
def initproc : ℕ := 0

/-! ## Instructions -/

/-- What an activation does next, and how it goes on. -/
inductive Instr : Type where
  | goto (f : Frame)
  | acquire (l : Lock) (f : Frame)
  | release (l : Lock) (f : Frame)
  /-- write `proc[q]` -/
  | write (q : ℕ) (u : Proc → Proc) (f : Frame)
  /-- `pid = nextpid; nextpid = nextpid + 1`, of type `int` -/
  | nextpid (f : ℤ → Frame)
  | call (callee f : Frame)
  | ret (a0 : ℤ)
  /-- `swtch(&p->context, &mycpu()->context)` -/
  | swtch (p : ℕ) (f : Frame)
  | panic (msg : String)

/-- What is not determined by the code: failures, interrupts, and the choices of
code outside `proc.c`. -/
inductive Choice : Type where
  | step
  | fail
  | timer
  | intr
  | acquire (n : ℕ)
  | release (n : ℕ)
  | sleep (chan n : ℕ)
  | wakeup (chan : ℕ)
  | setkilled
  | killed
  | kfork
  | kexit (status : ℤ)
  | kwait (addr : Bool)
  | kkill (pid : ℤ)
  | ret
  deriving DecidableEq

section

variable (s : KState) (c : ℕ)

/-- `yield` -/
def yieldInstr (p : ℕ) : YieldPc → Instr
  | .acquire => .acquire (.proc p) (.yield p .setState)
  | .setState => .write p (fun q => { q with state := .RUNNABLE }) (.yield p .sched)
  | .sched => .call (.sched p .check) (.yield p .release)
  | .release => .release (.proc p) (.ret 0)

/-- `sched`; interrupts are on only when `noff` is 0, so they are off once `noff` is 1. -/
def schedInstr (p : ℕ) : SchedPc → Instr
  | .check =>
    if s.lock (.proc p) ≠ some c then .panic "sched p->lock"
    else if (s.cpu c).noff ≠ 1 then .panic "sched locks"
    else if (s.proc p).state = .RUNNING then .panic "sched RUNNING"
    else .goto (.sched p .swtch)
  | .swtch => .swtch p (.sched p .ret)
  | .ret => .ret 0

/-- `sleep` -/
def sleepInstr (p : ℕ) (chan : Chan) (lk : Lock) : SleepPc → Instr
  | .acquire => .acquire (.proc p) (.sleep p chan lk .releaseLk)
  | .releaseLk => .release lk (.sleep p chan lk .setChan)
  | .setChan => .write p (fun q => { q with chan := some chan }) (.sleep p chan lk .setState)
  | .setState => .write p (fun q => { q with state := .SLEEPING }) (.sleep p chan lk .sched)
  | .sched => .call (.sched p .check) (.sleep p chan lk .clearChan)
  | .clearChan => .write p (fun q => { q with chan := none }) (.sleep p chan lk .release)
  | .release => .release (.proc p) (.sleep p chan lk .acquireLk)
  | .acquireLk => .acquire lk (.ret 0)

/-- `wakeup` -/
def wakeupInstr (chan : Option Chan) (i : ℕ) : WakeupPc → Instr
  | .test =>
    if i < NPROC then
      if (s.cpu c).proc ≠ some i then .goto (.wakeup chan i .acquire)
      else .goto (.wakeup chan (i + 1) .test)
    else .ret 0
  | .acquire => .acquire (.proc i) (.wakeup chan i .check)
  | .check =>
    if (s.proc i).state = .SLEEPING ∧ (s.proc i).chan = chan then
      .write i (fun q => { q with state := .RUNNABLE }) (.wakeup chan i .release)
    else .goto (.wakeup chan i .release)
  | .release => .release (.proc i) (.wakeup chan (i + 1) .test)

/-- `kkill` -/
def kkillInstr (pid : ℤ) (i : ℕ) : KillPc → Instr
  | .acquire => if i < NPROC then .acquire (.proc i) (.kkill pid i .check) else .ret (-1)
  | .check =>
    if (s.proc i).pid = pid then .goto (.kkill pid i .setKilled) else .goto (.kkill pid i .release)
  | .setKilled => .write i (fun q => { q with killed := true }) (.kkill pid i .wake)
  | .wake =>
    if (s.proc i).state = .SLEEPING then
      .write i (fun q => { q with state := .RUNNABLE }) (.kkill pid i .releaseFound)
    else .goto (.kkill pid i .releaseFound)
  | .releaseFound => .release (.proc i) (.ret 0)
  | .release => .release (.proc i) (.kkill pid (i + 1) .acquire)

/-- `setkilled` -/
def setkilledInstr (p : ℕ) : KilledPc → Instr
  | .acquire => .acquire (.proc p) (.setkilled p .access)
  | .access => .write p (fun q => { q with killed := true }) (.setkilled p .release)
  | .release => .release (.proc p) (.ret 0)

/-- `killed` -/
def killedInstr (p : ℕ) (a0 : ℤ) : KilledPc → Instr
  | .acquire => .acquire (.proc p) (.killed p a0 .access)
  | .access => .goto (.killed p (if (s.proc p).killed then 1 else 0) .release)
  | .release => .release (.proc p) (.ret a0)

/-- The fields `freeproc` clears. -/
def freeproc (q : Proc) : Proc :=
  { q with
    pid := 0
    parent := none
    chan := none
    killed := false
    xstate := 0
    state := .UNUSED }

/-- `kfork`, with `allocproc` and `allocpid`; `i` is the loop variable and then
the slot found. Copying the files is one step: the locks `filedup` and `idup` take
for it are not modelled. -/
def kforkInstr (p i : ℕ) (pid : ℤ) (fail : Bool) : ForkPc → Instr
  | .acquire => if i < NPROC then .acquire (.proc i) (.kfork p i pid .check) else .ret (-1)
  | .check =>
    if (s.proc i).state = .UNUSED then .goto (.kfork p i pid .pidAcquire)
    else .goto (.kfork p i pid .release)
  | .release => .release (.proc i) (.kfork p (i + 1) pid .acquire)
  | .pidAcquire => .acquire .pid_lock (.kfork p i pid .pidTake)
  | .pidTake => .nextpid fun pid => .kfork p i pid .pidRelease
  | .pidRelease => .release .pid_lock (.kfork p i pid .setPid)
  | .setPid => .write i (fun q => { q with pid := pid }) (.kfork p i pid .setUsed)
  | .setUsed => .write i (fun q => { q with state := .USED }) (.kfork p i pid .trapframe)
  | .trapframe => .goto (.kfork p i pid (if fail then .freeproc else .pagetable))
  | .pagetable => .goto (.kfork p i pid (if fail then .freeproc else .setContext))
  | .setContext =>
    .write i (fun q => { q with context := [.forkret i], saved := true }) (.kfork p i pid .copy)
  | .copy => .goto (.kfork p i (s.proc i).pid (if fail then .freeproc else .releaseNp))
  | .freeproc => .write i freeproc (.kfork p i pid .releaseFail)
  | .releaseFail => .release (.proc i) (.ret (-1))
  | .releaseNp => .release (.proc i) (.kfork p i pid .waitAcquire)
  | .waitAcquire => .acquire .wait_lock (.kfork p i pid .setParent)
  | .setParent => .write i (fun q => { q with parent := some p }) (.kfork p i pid .waitRelease)
  | .waitRelease => .release .wait_lock (.kfork p i pid .acquireNp)
  | .acquireNp => .acquire (.proc i) (.kfork p i pid .setRunnable)
  | .setRunnable => .write i (fun q => { q with state := .RUNNABLE }) (.kfork p i pid .releaseLast)
  | .releaseLast => .release (.proc i) (.ret pid)

/-- `kexit`, with `reparent`; closing the files is other code. -/
def kexitInstr (p : ℕ) (status : ℤ) (i : ℕ) : ExitPc → Instr
  | .start => if p = initproc then .panic "init exiting" else .goto (.kexit p status i .files)
  | .files => .call (.code .files [] 0) (.kexit p status i .waitAcquire)
  | .waitAcquire => .acquire .wait_lock (.kexit p status 0 .reparent)
  | .reparent =>
    if i < NPROC then
      if (s.proc i).parent = some p then .goto (.kexit p status i .setParent)
      else .goto (.kexit p status (i + 1) .reparent)
    else .goto (.kexit p status i .wakeParent)
  | .setParent =>
    .write i (fun q => { q with parent := some initproc }) (.kexit p status i .wakeInit)
  | .wakeInit =>
    .call (.wakeup (some (.proc initproc)) 0 .test) (.kexit p status (i + 1) .reparent)
  | .wakeParent =>
    .call (.wakeup ((s.proc p).parent.map .proc) 0 .test) (.kexit p status i .acquire)
  | .acquire => .acquire (.proc p) (.kexit p status i .setXstate)
  | .setXstate => .write p (fun q => { q with xstate := status }) (.kexit p status i .setState)
  | .setState => .write p (fun q => { q with state := .ZOMBIE }) (.kexit p status i .waitRelease)
  | .waitRelease => .release .wait_lock (.kexit p status i .sched)
  | .sched => .call (.sched p .check) (.kexit p status i .dead)
  | .dead => .panic "zombie exit"

/-- `kwait`; `a0` is the value it will return. -/
def kwaitInstr (p : ℕ) (addr : Bool) (i : ℕ) (havekids : Bool) (a0 : ℤ) (fail : Bool) :
    WaitPc → Instr
  | .acquire => .acquire .wait_lock (.kwait p addr 0 false a0 .scan)
  | .scan =>
    if i < NPROC then
      if (s.proc i).parent = some p then .goto (.kwait p addr i havekids a0 .childAcquire)
      else .goto (.kwait p addr (i + 1) havekids a0 .scan)
    else .goto (.kwait p addr i havekids a0 .done)
  | .childAcquire => .acquire (.proc i) (.kwait p addr i havekids a0 .childCheck)
  | .childCheck =>
    if (s.proc i).state = .ZOMBIE then .goto (.kwait p addr i true (s.proc i).pid .copyout)
    else .goto (.kwait p addr i true a0 .childRelease)
  | .copyout =>
    .goto (.kwait p addr i havekids a0 (if addr && fail then .failRelease else .freeproc))
  | .freeproc => .write i freeproc (.kwait p addr i havekids a0 .foundRelease)
  | .foundRelease => .release (.proc i) (.kwait p addr i havekids a0 .waitRelease)
  | .childRelease => .release (.proc i) (.kwait p addr (i + 1) havekids a0 .scan)
  | .failRelease => .release (.proc i) (.kwait p addr i havekids (-1) .waitRelease)
  | .done =>
    if havekids then .goto (.kwait p addr i havekids a0 .killedAcquire)
    else .goto (.kwait p addr i havekids (-1) .waitRelease)
  | .killedAcquire => .acquire (.proc p) (.kwait p addr i havekids a0 .killedRead)
  | .killedRead => .goto (.kwait p addr i havekids a0 (.killedRelease (s.proc p).killed))
  | .killedRelease killed =>
    .release (.proc p)
      (if killed then .kwait p addr i havekids (-1) .waitRelease
      else .kwait p addr i havekids a0 .sleep)
  | .sleep =>
    .call (.sleep p (.proc p) .wait_lock .acquire) (.kwait p addr 0 false a0 .scan)
  | .waitRelease => .release .wait_lock (.ret a0)

/-- Code outside `proc.c`, run by process `p` if any. System calls are made
without holding locks; a handler of interrupts does not sleep. -/
def codeInstr (p : Option ℕ) (m : Mode) (locks : List ℕ) (a0 : ℤ) (ch : Choice) : Option Instr :=
  match ch, p with
  | .acquire n, _ => some (.acquire (.other n) (.code m (n :: locks) a0))
  | .release n, _ =>
    if n ∈ locks then some (.release (.other n) (.code m (locks.erase n) a0)) else none
  | .wakeup chan, _ => some (.call (.wakeup (some (.other chan)) 0 .test) (.code m locks a0))
  | .ret, _ => if m ≠ .user ∧ locks = [] then some (.ret a0) else none
  | .sleep chan n, some p =>
    if m ≠ .intr ∧ n ∈ locks then
      some (.call (.sleep p (.other chan) (.other n) .acquire) (.code m locks a0))
    else none
  | .setkilled, some p =>
    if m = .user then some (.call (.setkilled p .acquire) (.code m locks a0)) else none
  | .killed, some p =>
    if m = .user then some (.call (.killed p 0 .acquire) (.code m locks a0)) else none
  | .kfork, some p =>
    if m = .user ∧ locks = [] then some (.call (.kfork p 0 0 .acquire) (.code m [] a0)) else none
  | .kexit status, some p =>
    if m = .user ∧ locks = [] then some (.call (.kexit p status 0 .start) (.code m [] a0)) else none
  | .kwait addr, some p =>
    if m = .user ∧ locks = [] then some (.call (.kwait p addr 0 false 0 .acquire) (.code m [] a0))
    else none
  | .kkill pid, some _ =>
    if m = .user ∧ locks = [] then some (.call (.kkill pid 0 .acquire) (.code m [] a0)) else none
  | _, _ => none

/-- The instruction of the activation `f`. -/
def instr (f : Frame) (ch : Choice) : Option Instr :=
  match f with
  | .code m locks a0 => codeInstr (s.cpu c).proc m locks a0 ch
  | .kfork p i pid k =>
    if ch = .step ∨ ch = .fail then some (kforkInstr s p i pid (ch == .fail) k) else none
  | .kwait p addr i hk a0 k =>
    if ch = .step ∨ ch = .fail then some (kwaitInstr s p addr i hk a0 (ch == .fail) k) else none
  | f =>
    if ch = .step then
      match f with
      | .ret a0 => some (.ret a0)
      | .yield p k => some (yieldInstr p k)
      | .sched p k => some (schedInstr s c p k)
      | .sleep p chan lk k => some (sleepInstr p chan lk k)
      | .wakeup chan i k => some (wakeupInstr s c chan i k)
      | .kkill pid i k => some (kkillInstr s pid i k)
      | .setkilled p k => some (setkilledInstr p k)
      | .killed p a0 k => some (killedInstr s p a0 k)
      | .kexit p status i k => some (kexitInstr s p status i k)
      | .forkret p => some (.release (.proc p) (.code .user [] 0))
      | _ => none
    else none

end

/-! ## The machine -/

namespace KState

/-- Set the state of CPU `c`. -/
def setCpu (s : KState) (c : ℕ) (k : Cpu) : KState := { s with cpu := Function.update s.cpu c k }

/-- CPU `c` goes on with `e`. -/
def goto (s : KState) (c : ℕ) (e : Exec) : KState := s.setCpu c { s.cpu c with exec := e }

/-- Write `proc[q]`. -/
def setProc (s : KState) (q : ℕ) (u : Proc → Proc) : KState :=
  { s with proc := Function.update s.proc q (u (s.proc q)) }

/-- Set the holder of a lock. -/
def setLock (s : KState) (l : Lock) (h : Option ℕ) : KState :=
  { s with lock := Function.update s.lock l h }

/-- `acquire`: a lock held by another CPU is waited for. -/
def acquire (s : KState) (c : ℕ) (l : Lock) (e : Exec) : Outcome KState :=
  match s.lock l with
  | some c' => if c' = c then .panic "acquire" else .blocked
  | none =>
    .ok ((s.setLock l (some c)).setCpu c { s.cpu c with noff := (s.cpu c).noff + 1, exec := e })

/-- `release` -/
def release (s : KState) (c : ℕ) (l : Lock) (e : Exec) : Outcome KState :=
  if s.lock l ≠ some c then .panic "release"
  else if (s.cpu c).noff < 1 then .panic "pop_off"
  else .ok ((s.setLock l none).setCpu c { s.cpu c with noff := (s.cpu c).noff - 1, exec := e })

/-- The caller gets the value returned. -/
def ret (a0 : ℤ) : List Frame → List Frame
  | .code m locks _ :: st => .code m locks a0 :: st
  | st => st

/-- Run an instruction on CPU `c`. The activation that executes it has the
activations `st` below it, and `mk` makes what the CPU runs out of a stack. -/
def run (s : KState) (c : ℕ) (mk : List Frame → Exec) (st : List Frame) : Instr → Outcome KState
  | .goto f => .ok (s.goto c (mk (f :: st)))
  | .acquire l f => s.acquire c l (mk (f :: st))
  | .release l f => s.release c l (mk (f :: st))
  | .write q u f => .ok ((s.setProc q u).goto c (mk (f :: st)))
  | .nextpid f =>
    .ok ({ s with nextpid := (s.nextpid + 1).bmod (2 ^ 32) }.goto c (mk (f s.nextpid :: st)))
  | .call g f => .ok (s.goto c (mk (g :: f :: st)))
  | .ret a0 => .ok (s.goto c (mk (ret a0 st)))
  | .swtch p f =>
    .ok ((s.setProc p fun q => { q with context := f :: st, saved := true }).goto c
      (.scheduler (s.cpu c).context []))
  | .panic msg => .panic msg

/-- `scheduler` on CPU `c`. -/
def schedulerStep (s : KState) (c : ℕ) : SchedulerPc → Outcome KState
  | .start => .ok (s.setCpu c { s.cpu c with proc := none, exec := .scheduler (.acquire 0) [] })
  | .acquire i =>
    if i < NPROC then s.acquire c (.proc i) (.scheduler (.check i) [])
    else .ok (s.goto c (.scheduler (.acquire 0) []))
  | .check i =>
    if (s.proc i).state = .RUNNABLE then .ok (s.goto c (.scheduler (.setRunning i) []))
    else .ok (s.goto c (.scheduler (.release i) []))
  | .setRunning i =>
    .ok ((s.setProc i fun q => { q with state := .RUNNING }).goto c (.scheduler (.setProc i) []))
  | .setProc i =>
    .ok (s.setCpu c { s.cpu c with proc := some i, exec := .scheduler (.swtch i) [] })
  | .swtch i =>
    -- `swtch(&c->context, &p->context)`
    .ok ((s.setProc i fun q => { q with saved := false }).setCpu c
      { s.cpu c with context := .back i, exec := .thread (s.proc i).context })
  | .back i => .ok (s.setCpu c { s.cpu c with proc := none, exec := .scheduler (.release i) [] })
  | .release i => s.release c (.proc i) (.scheduler (.acquire (i + 1)) [])

end KState

/-- An event: a CPU moves, with the choices its code leaves open. -/
structure KEv where
  /-- the CPU -/
  cpu : ℕ
  /-- the choice -/
  choice : Choice

/-- One step of the machine. -/
def kStep (s : KState) (e : KEv) : Outcome KState :=
  match (s.cpu e.cpu).exec, e.choice with
  | .scheduler (.acquire i) [], .intr =>
    if (s.cpu e.cpu).noff = 0 then
      .ok (s.goto e.cpu (.scheduler (.acquire i) [.code .intr [] 0]))
    else .blocked
  | .scheduler k [], .step => s.schedulerStep e.cpu k
  | .scheduler k (f :: st), ch =>
    match instr s e.cpu f ch with
    | some i => s.run e.cpu (.scheduler k) st i
    | none => .blocked
  | .thread st, .intr =>
    if (s.cpu e.cpu).noff = 0 then .ok (s.goto e.cpu (.thread (.code .intr [] 0 :: st)))
    else .blocked
  | .thread st, .timer =>
    match (s.cpu e.cpu).proc with
    | some p =>
      if (s.cpu e.cpu).noff = 0 then .ok (s.goto e.cpu (.thread (.yield p .acquire :: st)))
      else .blocked
    | none => .blocked
  | .thread (f :: st), ch =>
    match instr s e.cpu f ch with
    | some i => s.run e.cpu .thread st i
    | none => .blocked
  | _, _ => .blocked

/-- An unused slot of the process table. -/
def unusedProc : Proc := ⟨.UNUSED, none, false, 0, 0, none, [], false⟩

/-- The machine when the CPUs enter `scheduler`: `userinit` has made the first process. -/
def kInit : KState where
  proc p :=
    if p = initproc then
      { unusedProc with state := .RUNNABLE, pid := 1, context := [.forkret p], saved := true }
    else unusedProc
  cpu _ := ⟨none, .start, 0, .scheduler .start []⟩
  lock _ := none
  nextpid := 2

end Xv6
