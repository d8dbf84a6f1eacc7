import Mathlib.Data.Int.Notation
import Mathlib.Logic.Function.Basic
import Xv6.Param
import Xv6.Prog

/-!
# Open files and file descriptors (`kernel/file.c`, `kernel/sysfile.c`)

The table of open files and the descriptors of each process. What is to be done
with a file that nobody has open any more, `pipeclose` or `iput`, is up to the
caller of `fileclose`, which gets the file.
-/

namespace Xv6

open Prog

/-- The types of open files. -/
inductive FileType : Type where
  | FD_NONE
  | FD_PIPE
  | FD_INODE
  | FD_DEVICE
  deriving DecidableEq

/-- `struct file` -/
structure File where
  type : FileType
  /-- reference count -/
  ref : ℕ
  readable : Bool
  writable : Bool
  /-- address of the pipe, of a `FD_PIPE` -/
  pipe : ℕ
  /-- entry of the inode table, of a `FD_INODE` or `FD_DEVICE` -/
  ip : ℕ
  /-- offset, of a `FD_INODE` -/
  off : ℕ

/-- An entry of the table that has never been used. -/
def File.none : File where
  type := .FD_NONE
  ref := 0
  readable := false
  writable := false
  pipe := 0
  ip := 0
  off := 0

/-- `ftable`, and the open files of each process. -/
structure Files where
  /-- `ftable.file` -/
  file : ℕ → File
  /-- `proc[p].ofile[fd]`, an index into the table -/
  ofile : ℕ → ℕ → Option ℕ

namespace Files

def setFile (s : Files) (f : ℕ) (x : File) : Files := { s with file := Function.update s.file f x }

def setFd (s : Files) (p fd : ℕ) (f : Option ℕ) : Files :=
  { s with ofile := Function.update s.ofile p (Function.update (s.ofile p) fd f) }

end Files

/-- `filealloc` -/
def filealloc : Prog Files (Option ℕ) := do
  let s ← get
  match (List.range NFILE).find? fun f => (s.file f).ref = 0 with
  | none => return none
  | some f =>
    set (s.setFile f { s.file f with ref := 1 })
    return some f

/-- `filedup` -/
def filedup (f : ℕ) : Prog Files Unit := do
  let s ← get
  if (s.file f).ref < 1 then
    Prog.panic "filedup"
  else
    set (s.setFile f { s.file f with ref := (s.file f).ref + 1 })

/-- `fileclose`, up to where it closes the pipe or puts the inode of the last reference -/
def fileclose (f : ℕ) : Prog Files (Option File) := do
  let s ← get
  if (s.file f).ref < 1 then
    Prog.panic "fileclose"
  else if 1 < (s.file f).ref then
    set (s.setFile f { s.file f with ref := (s.file f).ref - 1 })
    return none
  else
    set (s.setFile f { s.file f with ref := 0, type := .FD_NONE })
    return some (s.file f)

/-- `fdalloc`, for the process `p` -/
def fdalloc (p f : ℕ) : Prog Files (Option ℕ) := do
  let s ← get
  match (List.range NOFILE).find? fun fd => (s.ofile p fd).isNone with
  | none => return none
  | some fd =>
    set (s.setFd p fd (some f))
    return some fd

/-- `argfd`: the file open as `fd` -/
def argfd (p : ℕ) (fd : ℤ) : Prog Files (Option ℕ) := do
  let s ← get
  if fd < 0 ∨ (NOFILE : ℤ) ≤ fd then
    return none
  else
    return s.ofile p fd.toNat

/-- `sys_dup` -/
def sys_dup (p : ℕ) (fd : ℤ) : Prog Files ℤ := do
  match ← argfd p fd with
  | none => return -1
  | some f =>
    match ← fdalloc p f with
    | none => return -1
    | some fd =>
      filedup f
      return fd

/-- The loop of `kfork` over the descriptors of the parent, with `n` to go. -/
def dupLoop (p np : ℕ) : ℕ → Prog Files Unit
  | 0 => return ()
  | n + 1 => do
    let fd := NOFILE - (n + 1)
    match (← get).ofile p fd with
    | none => dupLoop p np n
    | some f =>
      filedup f
      modify fun s => s.setFd np fd (some f)
      dupLoop p np n

end Xv6
