import Xv6.Exec
import Xv6.File
import Xv6.Proc

/-!
# System calls on user memory (`kernel/proc.c`, `kernel/sysproc.c`, `kernel/pipe.c`)

The part of the kernel that takes and gives back pages: processes are created,
grow and shrink, fault in their pages, load programs, exit and are waited for,
and pipes are opened and closed. A system call runs to its end in one step, and
so does the handling of a page fault; what happens between such steps is the
business of the scheduler. A call that has to wait for another process is not
taken.

Which allocations fail is part of an event, and so are the arguments of a system
call, which user code leaves in its registers, and the files `exec` finds.
Locks, inodes and the names of processes are left out.
-/

namespace Xv6.UserSys

open Prog

/-! ## The state -/

/-- The fields of `struct proc` that are used here. -/
structure UProc where
  state : ProcState
  pid : BitVec 32
  parent : Option ℕ
  /-- exit status to be returned to parent's wait -/
  xstate : ℕ
  /-- page of the trapframe, or 0 -/
  trapframe : ℕ
  /-- user page table, or 0 -/
  pagetable : ℕ
  /-- size of process memory (bytes) -/
  sz : ℕ

/-- A free entry of the process table. -/
def UProc.unused : UProc where
  state := .UNUSED
  pid := 0
  parent := none
  xstate := 0
  trapframe := 0
  pagetable := 0
  sz := 0

/-- The parts of a process that `vmfault` uses. -/
def UProc.me (q : UProc) : Me := { sz := q.sz, pagetable := q.pagetable }

structure UState where
  kmem : KMem
  /-- `proc[]` -/
  proc : ℕ → UProc
  files : Files
  nextpid : BitVec 32
  /-- `first`, in `forkret` -/
  first : Bool
  /-- the pages the kernel has taken for itself at boot -/
  kernel : List ℕ

/-- Kernel code of the system calls. -/
abbrev US (α : Type) : Type := Prog UState α

namespace US

/-- Run code that works on memory. -/
def vm {α : Type} (x : VM α) : US α := zoom UState.kmem (fun m s => { s with kmem := m }) x

/-- Run code that works on open files. -/
def files {α : Type} (x : Prog Files α) : US α :=
  zoom UState.files (fun f s => { s with files := f }) x

/-- Assign to fields of `proc[p]`. -/
def setProc (p : ℕ) (f : UProc → UProc) : US Unit :=
  modify fun s => { s with proc := Function.update s.proc p (f (s.proc p)) }

/-- `proc[p]` -/
def proc (p : ℕ) : US UProc := do
  return (← get).proc p

end US

/-- `proc[0]` is the first process. -/
def initproc : ℕ := 0

/-! ## Processes -/

/-- `freeproc` -/
def freeproc (p : ℕ) : US Unit := do
  let q ← US.proc p
  if q.trapframe ≠ 0 then
    US.vm (kfree q.trapframe)
  if q.pagetable ≠ 0 then
    US.vm (proc_freepagetable q.pagetable q.sz)
  US.setProc p fun _ => .unused

/-- The part of `allocproc` after `found`. -/
def allocprocFound (p : ℕ) : US (Option ℕ) := do
  let tf ← US.vm kalloc
  US.setProc p fun q => { q with trapframe := tf }
  if tf = 0 then
    freeproc p
    return none
  else
    let pt ← US.vm (proc_pagetable tf)
    US.setProc p fun q => { q with pagetable := pt }
    if pt = 0 then
      freeproc p
      return none
    else
      return some p

/-- `allocproc` -/
def allocproc : US (Option ℕ) := do
  let s ← get
  match (List.range NPROC).find? fun p => (s.proc p).state = .UNUSED with
  | none => return none
  | some p =>
    set { s with nextpid := s.nextpid + 1 }
    US.setProc p fun q => { q with pid := s.nextpid, state := .USED }
    allocprocFound p

/-- `x + n`, for a `uint64` and an `int` -/
def addInt (x : ℕ) (n : ℤ) : ℕ := ((x + n) % (2 ^ 64 : ℤ)).toNat

/-- `growproc` -/
def growproc (p : ℕ) (n : ℤ) : US ℤ := do
  let q ← US.proc p
  if 0 < n then
    let sz ← US.vm (uvmalloc q.pagetable q.sz (addInt q.sz n) PTE_W)
    if sz = 0 then
      return -1
    else
      US.setProc p fun q => { q with sz := sz }
      return 0
  else if n < 0 then
    let sz ← US.vm (uvmdealloc q.pagetable q.sz (addInt q.sz n))
    US.setProc p fun q => { q with sz := sz }
    return 0
  else
    return 0

/-- `SBRK_EAGER` -/
def SBRK_EAGER : ℤ := 1

/-- `sys_sbrk` -/
def sys_sbrk (p : ℕ) (n t : BitVec 32) : US ℤ := do
  let addr := (← US.proc p).sz
  if t.toInt = SBRK_EAGER ∨ n.toInt < 0 then
    let r ← growproc p n.toInt
    if r < 0 then
      return -1
    else
      return addr
  else if addInt addr n.toInt < addr then
    return -1
  else
    US.setProc p fun q => { q with sz := addInt q.sz n.toInt }
    return addr

/-- The part of `kfork` after the memory has been copied. -/
def kforkRest (p np : ℕ) : US ℤ := do
  let q ← US.proc p
  let nq ← US.proc np
  US.setProc np fun nq => { nq with sz := q.sz }
  -- `*(np->trapframe) = *(p->trapframe)`; fork returns 0 in the child, in `a0`
  US.vm (VM.memmove nq.trapframe q.trapframe 288)
  US.vm (VM.store (nq.trapframe + 112) 0)
  US.files (dupLoop p np NOFILE)
  US.setProc np fun nq => { nq with parent := some p, state := .RUNNABLE }
  return nq.pid.toInt

/-- The part of `kfork` up to there: the child, unless there is no room for it. -/
def kforkCopy (p : ℕ) : US (Option ℕ) := do
  match ← allocproc with
  | none => return none
  | some np =>
    let q ← US.proc p
    let nq ← US.proc np
    let r ← US.vm (uvmcopy q.pagetable nq.pagetable q.sz)
    if r < 0 then
      freeproc np
      return none
    else
      return some np

/-- `kfork` -/
def kfork (p : ℕ) : US ℤ := do
  match ← kforkCopy p with
  | none => return -1
  | some np => kforkRest p np

/-! ## Pipes -/

/-- Write the `int` at `a`. -/
def store32 (a x : ℕ) : VM Unit :=
  modify fun s => { s with mem := putLE 4 s.mem a x }

/-- Read the `int` at `a`. -/
def load32 (a : ℕ) : VM ℕ := do
  return getLE 4 (← get).mem a

/-- `&pi->readopen` or `&pi->writeopen` -/
def openFlag (pi : ℕ) (writable : Bool) : ℕ := if writable then pi + 548 else pi + 544

/-- `pipeclose` -/
def pipeclose (pi : ℕ) (writable : Bool) : VM Unit := do
  store32 (openFlag pi writable) 0
  let readopen ← load32 (openFlag pi false)
  let writeopen ← load32 (openFlag pi true)
  if readopen = 0 ∧ writeopen = 0 then
    kfree pi

/-- `fileclose`, for files and pipes; what `iput` does is left out -/
def closefile (f : ℕ) : US Unit := do
  match ← US.files (fileclose f) with
  | none => return ()
  | some ff =>
    if ff.type = .FD_PIPE then
      US.vm (pipeclose ff.pipe ff.writable)

/-- The part of `pipealloc` with two files allocated. -/
def pipeallocRest (f0 f1 : ℕ) : US (Option (ℕ × ℕ)) := do
  let pi ← US.vm kalloc
  if pi = 0 then
    closefile f0
    closefile f1
    return none
  else
    US.vm (store32 (openFlag pi false) 1)
    US.vm (store32 (openFlag pi true) 1)
    -- `pi->nwrite = 0`, `pi->nread = 0`
    US.vm (store32 (pi + 540) 0)
    US.vm (store32 (pi + 536) 0)
    modify fun s => { s with files := (s.files.setFile f0 { s.files.file f0 with
      type := .FD_PIPE, readable := true, writable := false, pipe := pi }) }
    modify fun s => { s with files := (s.files.setFile f1 { s.files.file f1 with
      type := .FD_PIPE, readable := false, writable := true, pipe := pi }) }
    return some (f0, f1)

/-- `pipealloc` -/
def pipealloc : US (Option (ℕ × ℕ)) := do
  match ← US.files filealloc with
  | none => return none
  | some f0 =>
    match ← US.files filealloc with
    | none =>
      closefile f0
      return none
    | some f1 => pipeallocRest f0 f1

/-- `copyout` to the memory of the process `p` -/
def copyoutTo (p va : ℕ) (src : List UInt8) : US ℤ := do
  let q ← US.proc p
  US.vm (copyout q.me q.pagetable va src)

/-- The bytes of an `int`. -/
def int32 (x : ℕ) : List UInt8 := (List.range 4).map fun i => UInt8.ofNat (x / 256 ^ i)

/-- Closing both ends of a pipe again, in `sys_pipe`. -/
def closePipe (rf wf : ℕ) : US ℤ := do
  closefile rf
  closefile wf
  return -1

/-- The part of `sys_pipe` after the descriptors are allocated. -/
def sys_pipeRest (p fdarray rf wf fd0 fd1 : ℕ) : US ℤ := do
  let r ← copyoutTo p fdarray (int32 fd0)
  let r ← if r < 0 then pure r else copyoutTo p ((fdarray + 4) % WORD) (int32 fd1)
  if r < 0 then
    US.files (modify fun s => s.setFd p fd0 none)
    US.files (modify fun s => s.setFd p fd1 none)
    closePipe rf wf
  else
    return 0

/-- `sys_pipe` -/
def sys_pipe (p fdarray : ℕ) : US ℤ := do
  match ← pipealloc with
  | none => return -1
  | some (rf, wf) =>
    match ← US.files (fdalloc p rf) with
    | none => closePipe rf wf
    | some fd0 =>
      match ← US.files (fdalloc p wf) with
      | none =>
        US.files (modify fun s => s.setFd p fd0 none)
        closePipe rf wf
      | some fd1 => sys_pipeRest p fdarray rf wf fd0 fd1

/-- `sys_close` -/
def sys_close (p : ℕ) (fd : ℤ) : US ℤ := do
  match ← US.files (argfd p fd) with
  | none => return -1
  | some f =>
    US.files (modify fun s => s.setFd p fd.toNat none)
    closefile f
    return 0

/-- `sys_open`, for an inode or a device: a file is allocated and a descriptor for it -/
def openFile (p : ℕ) (device : Bool) : US ℤ := do
  match ← US.files filealloc with
  | none => return -1
  | some f =>
    match ← US.files (fdalloc p f) with
    | none =>
      closefile f
      return -1
    | some fd =>
      US.files (modify fun s => s.setFile f { s.file f with
        type := if device then .FD_DEVICE else .FD_INODE })
      return fd

/-! ## Exit and wait -/

/-- The loop of `kexit` over the descriptors, with `n` to go. -/
def closeLoop (p : ℕ) : ℕ → US Unit
  | 0 => return ()
  | n + 1 => do
    let fd := NOFILE - (n + 1)
    match (← get).files.ofile p fd with
    | none => closeLoop p n
    | some f =>
      closefile f
      US.files (modify fun s => s.setFd p fd none)
      closeLoop p n

/-- `reparent` -/
def reparent (p : ℕ) : US Unit :=
  modify fun s => { s with
    proc := fun pp =>
      if pp < NPROC ∧ (s.proc pp).parent = some p then { s.proc pp with parent := some initproc }
      else s.proc pp }

/-- `kexit` -/
def kexit (p status : ℕ) : US Unit :=
  if p = initproc then
    Prog.panic "init exiting"
  else do
    closeLoop p NOFILE
    reparent p
    US.setProc p fun q => { q with xstate := status, state := .ZOMBIE }

/-- Reaping the child `pp`, in `kwait`. -/
def reap (p addr pp : ℕ) : US ℤ := do
  let pq ← US.proc pp
  let r ← if addr ≠ 0 then copyoutTo p addr (int32 pq.xstate) else pure 0
  if r < 0 then
    return -1
  else
    freeproc pp
    return pq.pid.toInt

/-- `kwait` -/
def kwait (p addr : ℕ) : US ℤ := do
  let s ← get
  match (List.range NPROC).find? fun pp =>
      (s.proc pp).parent = some p ∧ (s.proc pp).state = .ZOMBIE with
  | some pp => reap p addr pp
  | none =>
    if (List.range NPROC).any fun pp => (s.proc pp).parent = some p then
      -- wait for a child to exit
      Prog.wait
    else
      return -1

/-! ## Loading programs -/

/-- `fetchaddr` -/
def fetchaddr (q : UProc) (addr : ℕ) : VM (Option ℕ) :=
  if q.sz ≤ addr ∨ q.sz < (addr + 8) % WORD then
    return none
  else do
    let (r, bytes) ← copyin q.me q.pagetable addr 8
    if r ≠ 0 then
      return none
    else
      return some (field bytes 8 0)

/-- The loop of `sys_exec` over the arguments, from number `MAXARG - n` on: the pages taken so far,
and the strings in them if all have been fetched. -/
def argvLoop (q : UProc) (uargv : ℕ) :
    ℕ → List ℕ → List (List UInt8) → VM (List ℕ × Option (List (List UInt8)))
  | 0, pages, _ => return (pages, none)
  | n + 1, pages, argv => do
    match ← fetchaddr q ((uargv + 8 * pages.length) % WORD) with
    | none => return (pages, none)
    | some uarg =>
      if uarg = 0 then
        return (pages, some argv)
      else
        let page ← kalloc
        if page = 0 then
          return (pages, none)
        else
          let (r, bytes) ← copyinstr q.pagetable uarg PGSIZE
          modify fun s => { s with mem := putBytes s.mem page bytes }
          if r < 0 then
            return (pages ++ [page], none)
          else
            argvLoop q uargv n (pages ++ [page]) (argv ++ [bytes.dropLast])

/-- The loops of `sys_exec` that free the arguments. -/
def kfreeAll : List ℕ → VM Unit
  | [] => return ()
  | page :: pages => do
    kfree page
    kfreeAll pages

/-- `kexec`, by the process `p` -/
def kexecBy (p : ℕ) (ip : Option (List UInt8)) (argv : List (List UInt8)) : US ℤ := do
  let q ← US.proc p
  let (r, me) ← US.vm (kexec q.me q.trapframe ip argv)
  US.setProc p fun q => { q with sz := me.sz, pagetable := me.pagetable }
  return r

/-- `sys_exec`; `fs` tells what file is found under a path -/
def sys_exec (p path uargv : ℕ) (fs : List UInt8 → Option (List UInt8)) : US ℤ := do
  let q ← US.proc p
  let (r, bytes) ← US.vm (copyinstr q.pagetable path MAXPATH)
  if r < 0 then
    return -1
  else
    match ← US.vm (argvLoop q uargv MAXARG [] []) with
    | (pages, none) =>
      US.vm (kfreeAll pages)
      return -1
    | (pages, some argv) =>
      let ret ← kexecBy p (fs bytes.dropLast) argv
      US.vm (kfreeAll pages)
      return ret

/-- The bytes of `"/init"`. -/
def initPath : List UInt8 := [47, 105, 110, 105, 116]

/-- `forkret` of the first process, which loads `/init` -/
def forkretFirst (init : Option (List UInt8)) : US Unit := do
  modify fun s => { s with first := false }
  let r ← kexecBy initproc init [initPath]
  let q ← US.proc initproc
  US.vm (VM.store (q.trapframe + 112) (addInt 0 r))
  if r = -1 then
    Prog.panic "exec"

/-! ## Traps -/

/-- A store by user code, of bytes that do not leave the page of `va`. -/
def userStore (q : UProc) (va : ℕ) (bytes : List UInt8) : VM Unit :=
  if MAXVA ≤ va then
    return ()
  else do
    let pte ← walk q.pagetable va false
    if pte = 0 then
      return ()
    else
      let e ← VM.load pte
      if e &&& PTE_V = 0 ∨ e &&& PTE_U = 0 ∨ e &&& PTE_W = 0 then
        return ()
      else
        modify fun s => { s with
          mem := putBytes s.mem (PTE2PA e + va % PGSIZE) (bytes.take (PGSIZE - va % PGSIZE)) }

/-- `usertrap`, for a page fault: a process that cannot be helped is killed -/
def pagefault (p va : ℕ) : US Unit := do
  let q ← US.proc p
  let r ← US.vm (vmfault q.me q.pagetable va)
  if r = 0 then
    -- status -1
    kexit p (2 ^ 32 - 1)

/-! ## Booting -/

/-- Allocate `n` pages for the kernel: its page table, the kernel stacks, the disk driver. -/
def kernelPages : ℕ → VM (List ℕ)
  | 0 => return []
  | n + 1 => do
    let pa ← kalloc
    if pa = 0 then
      Prog.panic "kalloc"
    else
      let pages ← kernelPages n
      return pa :: pages

/-- `userinit` -/
def userinit : US Unit := do
  match ← allocproc with
  | none =>
    -- `p` is a null pointer
    Prog.panic "kerneltrap"
  | some p => US.setProc p fun q => { q with state := .RUNNABLE }

/-- `main`, up to where the first process is ready to run -/
def main (n : ℕ) : US Unit := do
  US.vm kinit
  let pages ← US.vm (kernelPages n)
  modify fun s => { s with kernel := pages }
  userinit

/-- The kernel is loaded, up to `kend`. -/
def loaded (kend trampoline : ℕ) : UState where
  kmem := {
    mem := fun _ => 0
    freelist := 0
    fails := []
    kend := kend
    trampoline := trampoline }
  proc := fun _ => .unused
  files := { file := fun _ => .none, ofile := fun _ _ => none }
  nextpid := 1
  first := true
  kernel := []

/-- The kernel has booted. -/
def Booted (kend trampoline n : ℕ) (s : UState) : Prop :=
  (main n).after (loaded kend trampoline) = .ok s

/-! ## Steps -/

/-- What a process may do. -/
inductive Call : Type where
  | sbrk (n t : BitVec 32)
  /-- a page fault at `va` -/
  | fault (va : ℕ)
  /-- a store by user code -/
  | store (va : ℕ) (bytes : List UInt8)
  | fork
  /-- `exec`, with the files it may find -/
  | exec (path uargv : ℕ) (fs : List UInt8 → Option (List UInt8))
  | exit (status : ℕ)
  | wait (addr : ℕ)
  | pipe (fdarray : ℕ)
  | open (device : Bool)
  | dup (fd : BitVec 32)
  | close (fd : BitVec 32)
  /-- a system call that copies to user memory -/
  | copyout (va : ℕ) (src : List UInt8)
  /-- a system call that copies from user memory -/
  | copyin (va len : ℕ)

/-- The code a call runs. -/
def Call.code (p : ℕ) : Call → US Unit
  | .sbrk n t => do
    let _ ← sys_sbrk p n t
  | .fault va => pagefault p va
  | .store va bytes => do
    US.vm (userStore (← US.proc p) va bytes)
  | .fork => do
    let _ ← kfork p
  | .exec path uargv fs => do
    let _ ← sys_exec p path uargv fs
  | .exit status => kexit p status
  | .wait addr => do
    let _ ← kwait p addr
  | .pipe fdarray => do
    let _ ← sys_pipe p fdarray
  | .open device => do
    let _ ← openFile p device
  | .dup fd => do
    let _ ← US.files (sys_dup p fd.toInt)
  | .close fd => do
    let _ ← sys_close p fd.toInt
  | .copyout va src => do
    let _ ← copyoutTo p va src
  | .copyin va len => do
    let q ← US.proc p
    let _ ← US.vm (Xv6.copyin q.me q.pagetable va len)

inductive Action : Type where
  /-- the first process starts, and loads `/init` -/
  | forkret (init : Option (List UInt8))
  /-- the process `p` makes a system call, or traps -/
  | call (p : ℕ) (c : Call)

/-- An action, and which allocations fail during it. -/
structure Event where
  fails : List Bool
  action : Action

/-- May this happen now? A `RUNNABLE` process may be anywhere in user space. -/
def Action.Enabled (s : UState) : Action → Prop
  | .forkret _ => s.first = true
  | .call p _ => s.first = false ∧ p < NPROC ∧ (s.proc p).state = .RUNNABLE

instance (s : UState) (a : Action) : Decidable (a.Enabled s) := by
  cases a <;> unfold Action.Enabled <;> infer_instance

/-- The code an action runs. -/
def Action.code : Action → US Unit
  | .forkret init => forkretFirst init
  | .call p c => c.code p

/-- A step of the machine. -/
def step (s : UState) (e : Event) : Outcome UState :=
  if e.action.Enabled s then
    e.action.code.after { s with kmem := { s.kmem with fails := e.fails } }
  else .blocked

end Xv6.UserSys
