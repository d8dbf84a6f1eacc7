import Xv6.Param
import Xv6.Vm

/-!
# Loading a program (`kernel/exec.c`)

`kexec` builds a new address space from an ELF file and, once nothing can fail
any more, puts it in the place of the old one. The file is given by its bytes,
which nothing changes while `kexec` holds the lock of its inode, and `argv` by
the strings it points to, which are in pages of the kernel.
-/

namespace Xv6

open Prog

/-- `readi`, for an inode that has the bytes `ip` -/
def readi (ip : List UInt8) (off n : ℕ) : List UInt8 :=
  if ip.length < off ∨ (off + n) % 2 ^ 32 < off then []
  else (ip.drop off).take n

/-- `ELF_MAGIC` -/
def ELF_MAGIC : ℕ := 0x464C457F

/-- `ELF_PROG_LOAD` -/
def ELF_PROG_LOAD : ℕ := 1

/-- `sizeof(struct elfhdr)` -/
def elfhdrSize : ℕ := 64

/-- `sizeof(struct proghdr)` -/
def proghdrSize : ℕ := 56

/-- The fields of `struct proghdr` that are used. -/
structure Proghdr where
  type : ℕ
  flags : ℕ
  off : ℕ
  vaddr : ℕ
  filesz : ℕ
  memsz : ℕ

/-- `struct proghdr`, as it is in the file -/
def proghdr (bytes : List UInt8) : Proghdr where
  type := field bytes 4 0
  flags := field bytes 4 4
  off := field bytes 8 8
  vaddr := field bytes 8 16
  filesz := field bytes 8 32
  memsz := field bytes 8 40

/-- `flags2perm` -/
def flags2perm (flags : ℕ) : ℕ :=
  (if flags &&& 1 ≠ 0 then PTE_X else 0) ||| (if flags &&& 2 ≠ 0 then PTE_W else 0)

/-- The loop of `loadseg`, over `k` pages. The pages of the segment are in memory, so `i` stays
far below 2^32. -/
def loadsegLoop (pagetable va : ℕ) (ip : List UInt8) (offset sz : ℕ) : ℕ → ℕ → VM ℤ
  | 0, _ => return 0
  | k + 1, i => do
    let pa ← walkaddr pagetable ((va + i) % WORD)
    if pa = 0 then
      Prog.panic "loadseg: address should exist"
    else
      let n := if sz - i < PGSIZE then sz - i else PGSIZE
      let bytes := readi ip ((offset + i) % 2 ^ 32) n
      modify fun s => { s with mem := putBytes s.mem pa bytes }
      if bytes.length ≠ n then
        return -1
      else
        loadsegLoop pagetable va ip offset sz k (i + PGSIZE)

/-- `loadseg` -/
def loadseg (pagetable va : ℕ) (ip : List UInt8) (offset sz : ℕ) : VM ℤ :=
  loadsegLoop pagetable va ip offset sz ((sz + (PGSIZE - 1)) / PGSIZE) 0

/-- The body of the loop of `kexec` over the program headers: the size of the address space after
it, and whether the loop goes on (`false`: `goto bad`). -/
def loadProg (pagetable : ℕ) (ip : List UInt8) (ph : Proghdr) (sz : ℕ) : VM (Bool × ℕ) :=
  if ph.type ≠ ELF_PROG_LOAD then
    return (true, sz)
  else if ph.memsz < ph.filesz then
    return (false, sz)
  else if (ph.vaddr + ph.memsz) % WORD < ph.vaddr then
    return (false, sz)
  else if ph.vaddr % PGSIZE ≠ 0 then
    return (false, sz)
  else do
    let sz1 ← uvmalloc pagetable sz ((ph.vaddr + ph.memsz) % WORD) (flags2perm ph.flags)
    if sz1 = 0 then
      return (false, sz)
    else
      let r ← loadseg pagetable ph.vaddr ip (ph.off % 2 ^ 32) (ph.filesz % 2 ^ 32)
      return (decide (0 ≤ r), sz1)

/-- The loop of `kexec` over the program headers, with `k` headers to go. -/
def loadLoop (pagetable : ℕ) (ip : List UInt8) : ℕ → ℕ → ℕ → VM (Bool × ℕ)
  | 0, _, sz => return (true, sz)
  | k + 1, off, sz =>
    let bytes := readi ip off proghdrSize
    if bytes.length ≠ proghdrSize then
      return (false, sz)
    else do
      let (ok, sz) ← loadProg pagetable ip (proghdr bytes) sz
      if !ok then
        return (false, sz)
      else
        -- `int off`
        loadLoop pagetable ip k ((off + proghdrSize) % 2 ^ 32) sz

/-- The loop of `kexec` over the argument strings: the stack pointer and `ustack`, or `none` for
`goto bad`. -/
def pushLoop (me : Me) (pagetable stackbase : ℕ) :
    List (List UInt8) → ℕ → List ℕ → VM (Option (ℕ × List ℕ))
  | [], sp, ustack => return some (sp, ustack)
  | arg :: argv, sp, ustack =>
    if MAXARG ≤ ustack.length then
      return none
    else do
      let sp := (sp + WORD - (arg.length + 1)) % WORD
      -- riscv sp must be 16-byte aligned
      let sp := sp - sp % 16
      if sp < stackbase then
        return none
      else
        let r ← copyout me pagetable sp (arg ++ [0])
        if r < 0 then
          return none
        else
          pushLoop me pagetable stackbase argv sp (ustack ++ [sp])

/-- The bytes of an array of `uint64`. -/
def words (l : List ℕ) : List UInt8 :=
  l.flatMap fun x => (List.range 8).map fun i => UInt8.ofNat (x / 256 ^ i)

/-- What `kexec` does with the user stack, in an address space of size `sz` that ends with it: the
stack pointer, and `argc`. -/
def pushArgs (me : Me) (pagetable sz : ℕ) (argv : List (List UInt8)) : VM (Option (ℕ × ℕ)) := do
  let stackbase := sz - USERSTACK * PGSIZE
  match ← pushLoop me pagetable stackbase argv sz [] with
  | none => return none
  | some (sp, ustack) =>
    let argc := ustack.length
    -- push a copy of ustack[], the array of argv[] pointers
    let sp := (sp + WORD - (argc + 1) * 8) % WORD
    let sp := sp - sp % 16
    if sp < stackbase then
      return none
    else
      let r ← copyout me pagetable sp (words (ustack ++ [0]))
      if r < 0 then
        return none
      else
        return some (sp, argc)

/-- The part of `kexec` that fills the new address space: its size, and where it succeeds the
stack pointer and `argc`. -/
def buildImage (me : Me) (pagetable : ℕ) (ip : List UInt8) (argv : List (List UInt8)) :
    VM (ℕ × Option (ℕ × ℕ)) := do
  let elf := readi ip 0 elfhdrSize
  -- `int off = elf.phoff`
  let (ok, sz) ← loadLoop pagetable ip (field elf 2 56) (field elf 8 32 % 2 ^ 32) 0
  if !ok then
    return (sz, none)
  else
    let sz := PGROUNDUP sz
    -- the first page is a stack guard, the rest is the user stack
    let sz1 ← uvmalloc pagetable sz (sz + (USERSTACK + 1) * PGSIZE) PTE_W
    if sz1 = 0 then
      return (sz, none)
    else
      uvmclear pagetable (sz1 - (USERSTACK + 1) * PGSIZE)
      return (sz1, ← pushArgs me pagetable sz1 argv)

/-- `kexec`, for a process with this trapframe: what it returns, and the address space after it.
`ip` is the file `namei` finds, if it finds one. -/
def kexec (me : Me) (trapframe : ℕ) (ip : Option (List UInt8)) (argv : List (List UInt8)) :
    VM (ℤ × Me) :=
  match ip with
  | none => return (-1, me)
  | some ip =>
    let elf := readi ip 0 elfhdrSize
    if elf.length ≠ elfhdrSize then
      return (-1, me)
    else if field elf 4 0 ≠ ELF_MAGIC then
      return (-1, me)
    else do
      let pagetable ← proc_pagetable trapframe
      if pagetable = 0 then
        return (-1, me)
      else
        match ← buildImage me pagetable ip argv with
        | (sz, none) =>
          proc_freepagetable pagetable sz
          return (-1, me)
        | (sz, some (sp, argc)) =>
          -- `p->trapframe->a1`, `p->trapframe->epc`, `p->trapframe->sp`
          VM.store (trapframe + 120) sp
          VM.store (trapframe + 24) (field elf 8 24)
          VM.store (trapframe + 48) sp
          proc_freepagetable me.pagetable me.sz
          return (argc, { sz := sz, pagetable := pagetable })

end Xv6
