import Mathlib.Data.Int.Notation
import Mathlib.Data.List.Infix
import Xv6.Machine
import Xv6.Ring

/-!
# Pipes (`kernel/pipe.c`)

One pipe and any number of processes that read, write and close it, as a step
machine. A process in a call is at a control point of its function; a step is
one pass of a loop, or what comes before or after it, and needs `pi->lock` where
the code holds it. `sleep` gives up the lock and is left when some `wakeup`, or
`kkill`, has come and the lock is free again.

Whether the user address of a byte can be copied to or from is part of the event:
it may be invalid, or memory may run out. `written`, `removed`, `delivered` and
`reads` are history, which no step looks at.
-/

namespace Xv6.PipeSys

open Function

/-- `PIPESIZE` -/
def PIPESIZE : ℕ := 512

/-! ## The state -/

/-- `struct pipe`, without its lock -/
structure Pipe where
  data : ℕ → UInt8
  /-- number of bytes read -/
  nread : BitVec 32
  /-- number of bytes written -/
  nwrite : BitVec 32
  /-- read fd is still open -/
  readopen : Bool
  /-- write fd is still open -/
  writeopen : Bool

/-- The channels processes sleep on: `&pi->nread` and `&pi->nwrite`. -/
inductive Chan : Type where
  | nread
  | nwrite
  deriving DecidableEq

/-- Where a process is. -/
inductive Pc : Type where
  /-- in user space -/
  | user
  /-- `pipewrite(pi, addr, n)`, before it has the lock; `i` bytes are written -/
  | writeAcquire (addr : ℕ) (n : ℤ) (i : ℕ)
  /-- at the head of its loop -/
  | writeLoop (addr : ℕ) (n : ℤ) (i : ℕ)
  /-- the pipe is full, readers have been woken up -/
  | writeFull (addr : ℕ) (n : ℤ) (i : ℕ)
  /-- after the loop -/
  | writeDone (i : ℕ)
  /-- before `release`, with the value to return -/
  | writeRelease (r : ℤ)
  /-- `piperead(pi, addr, n)`, before it has the lock -/
  | readAcquire (addr : ℕ) (n : ℤ)
  /-- at the head of the loop that waits for bytes -/
  | readWait (addr : ℕ) (n : ℤ)
  /-- at the head of the loop that copies -/
  | readCopy (addr : ℕ) (n : ℤ) (i : ℕ)
  /-- after the loops -/
  | readDone (i : ℕ)
  /-- before `release`, with the value to return -/
  | readRelease (r : ℤ)
  /-- `pipeclose(pi, writable)`, before it has the lock -/
  | closeAcquire (writable : Bool)
  /-- with the lock -/
  | closeFlag (writable : Bool)
  /-- an end has been closed, and the other processes woken up -/
  | closeRelease

/-- A process. -/
structure Process where
  pc : Pc
  /-- what it sleeps on -/
  chan : Option Chan
  killed : Bool
  /-- history: bytes this call of `piperead` was asked for -/
  asked : ℤ
  /-- history: bytes this call of `piperead` has removed from the pipe -/
  taken : ℕ
  /-- history: has a `copyout` of this call failed? -/
  failed : Bool

/-- History: a call of `piperead` that has returned. -/
structure Read where
  /-- how many bytes it was asked for -/
  asked : ℤ
  /-- what it returned -/
  ret : ℤ
  /-- how many bytes it removed from the pipe -/
  taken : ℕ
  /-- whether one of its calls of `copyout` failed -/
  failed : Bool

structure State where
  pi : Pipe
  /-- who has `pi->lock` -/
  lock : Option ℕ
  process : ℕ → Process
  /-- the user memory of each process -/
  memory : ℕ → ℕ → UInt8
  /-- the page of the pipe has been freed -/
  freed : Bool
  /-- history: the bytes stored by writers -/
  written : List UInt8
  /-- history: the bytes removed by readers -/
  removed : List UInt8
  /-- history: the bytes copied to the memory of readers -/
  delivered : List UInt8
  reads : List Read

namespace State

/-- `p` goes on at `pc`. -/
def goto (s : State) (p : ℕ) (pc : Pc) : State :=
  { s with process := update s.process p { s.process p with pc := pc } }

/-- `wakeup(chan)` -/
def wakeup (s : State) (chan : Chan) : State :=
  { s with process := fun p =>
      if (s.process p).chan = some chan then { s.process p with chan := none } else s.process p }

/-- `sleep(chan, &pi->lock)` by `p`, which goes on at `pc` when it has the lock again -/
def sleep (s : State) (p : ℕ) (chan : Chan) (pc : Pc) : State :=
  { s with
    lock := none
    process := update s.process p { s.process p with pc := pc, chan := some chan } }

/-- `acquire(&pi->lock)`, which a process that is asleep does not reach -/
def acquire (s : State) (p : ℕ) (pc : Pc) : Outcome State :=
  if s.lock = none ∧ (s.process p).chan = none then
    .ok ({ s with lock := some p }.goto p pc)
  else .blocked

/-- `release(&pi->lock)`, and return to user space -/
def leave (s : State) (p : ℕ) : State := { s with lock := none }.goto p .user

end State

/-! ## The code -/

/-- One pass of the loop of `pipewrite`; `ok` tells whether `copyin` succeeds. -/
def writeLoop (s : State) (p addr : ℕ) (n : ℤ) (i : ℕ) (ok : Bool) : State :=
  if (i : ℤ) < n then
    if s.pi.readopen = false ∨ (s.process p).killed then
      s.goto p (.writeRelease (-1))
    else if s.pi.nwrite = s.pi.nread + BitVec.ofNat 32 PIPESIZE then
      (s.wakeup .nread).goto p (.writeFull addr n i)
    else if !ok then
      s.goto p (.writeDone i)
    else
      let ch := s.memory p ((addr + i) % 2 ^ 64)
      { s with
        pi := { s.pi with
          data := update s.pi.data (s.pi.nwrite.toNat % PIPESIZE) ch
          nwrite := s.pi.nwrite + 1#32 }
        written := s.written ++ [ch] }.goto p (.writeLoop addr n (i + 1))
  else s.goto p (.writeDone i)

/-- One pass of the loop of `piperead` that waits. -/
def readWait (s : State) (p addr : ℕ) (n : ℤ) : State :=
  if s.pi.nread = s.pi.nwrite ∧ s.pi.writeopen then
    if (s.process p).killed then
      s.goto p (.readRelease (-1))
    else
      s.sleep p .nread (.readAcquire addr n)
  else s.goto p (.readCopy addr n 0)

/-- One pass of the loop of `piperead` that copies; `ok` tells whether `copyout` succeeds. -/
def readCopy (s : State) (p addr : ℕ) (n : ℤ) (i : ℕ) (ok : Bool) : State :=
  if (i : ℤ) < n then
    if s.pi.nread = s.pi.nwrite then
      s.goto p (.readDone i)
    else
      let ch := s.pi.data (s.pi.nread.toNat % PIPESIZE)
      let q := s.process p
      let s := { s with pi := { s.pi with nread := s.pi.nread + 1#32 }, removed := s.removed ++ [ch] }
      if !ok then
        { s with
          process := update s.process p
            { q with taken := q.taken + 1, failed := true, pc := .readDone i } }
      else
        { s with
          process := update s.process p
            { q with taken := q.taken + 1, pc := .readCopy addr n (i + 1) }
          memory := update s.memory p
            (update (s.memory p) ((addr + i) % 2 ^ 64) ch)
          delivered := s.delivered ++ [ch] }
  else s.goto p (.readDone i)

/-- `pipeclose`, with the lock -/
def closeFlag (s : State) (p : ℕ) (writable : Bool) : State :=
  if writable then
    ({ s with pi := { s.pi with writeopen := false } }.wakeup .nread).goto p .closeRelease
  else
    ({ s with pi := { s.pi with readopen := false } }.wakeup .nwrite).goto p .closeRelease

/-- The end of `pipeclose`: the page of a pipe with both ends closed is freed. -/
def closeRelease (s : State) (p : ℕ) : State :=
  { s with freed := s.freed || (!s.pi.readopen && !s.pi.writeopen) }.leave p

/-- A step of a process in a call; `ok` tells whether the byte can be copied. -/
def advance (s : State) (p : ℕ) (ok : Bool) : Outcome State :=
  match (s.process p).pc with
  | .user => .blocked
  | .writeAcquire addr n i => s.acquire p (.writeLoop addr n i)
  | .writeLoop addr n i => .ok (writeLoop s p addr n i ok)
  | .writeFull addr n i => .ok (s.sleep p .nwrite (.writeAcquire addr n i))
  | .writeDone i => .ok ((s.wakeup .nread).goto p (.writeRelease i))
  | .writeRelease _ => .ok (s.leave p)
  | .readAcquire addr n => s.acquire p (.readWait addr n)
  | .readWait addr n => .ok (readWait s p addr n)
  | .readCopy addr n i => .ok (readCopy s p addr n i ok)
  | .readDone i => .ok ((s.wakeup .nwrite).goto p (.readRelease i))
  | .readRelease r =>
    let q := s.process p
    let done : Read := ⟨q.asked, r, q.taken, q.failed⟩
    .ok ({ s with reads := s.reads ++ [done] }.leave p)
  | .closeAcquire writable => s.acquire p (.closeFlag writable)
  | .closeFlag writable => .ok (closeFlag s p writable)
  | .closeRelease => .ok (closeRelease s p)

/-- The calls on a pipe. -/
inductive Call : Type where
  | write (addr : ℕ) (n : BitVec 32)
  | read (addr : ℕ) (n : BitVec 32)
  | close (writable : Bool)

/-- The process enters a call. -/
def enter (s : State) (p : ℕ) : Call → State
  | .write addr n => s.goto p (.writeAcquire addr n.toInt 0)
  | .read addr n =>
    { s with
      process := update s.process p
        { s.process p with
          pc := .readAcquire addr n.toInt, asked := n.toInt, taken := 0, failed := false } }
  | .close writable => s.goto p (.closeAcquire writable)

inductive Event : Type where
  /-- `p` makes a call -/
  | call (p : ℕ) (c : Call)
  /-- `p` goes on with its call -/
  | advance (p : ℕ) (ok : Bool)
  /-- user code of `p` writes to its memory -/
  | store (p a : ℕ) (b : UInt8)
  /-- `kkill` -/
  | kill (p : ℕ)

/-- A step of the machine. -/
def step (s : State) : Event → Outcome State
  | .call p c =>
    match (s.process p).pc with
    | .user => if s.freed then .blocked else .ok (enter s p c)
    | _ => .blocked
  | .advance p ok => advance s p ok
  | .store p a b =>
    match (s.process p).pc with
    | .user => .ok { s with
        memory := update s.memory p (update (s.memory p) a b) }
    | _ => .blocked
  | .kill p => .ok { s with
      process := update s.process p { s.process p with killed := true, chan := none } }

/-- A new pipe, as `pipealloc` makes it in a page with the bytes `junk`. -/
def init (junk : ℕ → UInt8) (memory : ℕ → ℕ → UInt8) : State where
  pi := {
    data := junk
    nread := 0
    nwrite := 0
    readopen := true
    writeopen := true }
  lock := none
  process := fun _ =>
    { pc := .user, chan := none, killed := false, asked := 0, taken := 0, failed := false }
  memory := memory
  freed := false
  written := []
  removed := []
  delivered := []
  reads := []

end Xv6.PipeSys
