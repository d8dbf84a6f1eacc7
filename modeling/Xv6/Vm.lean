import Mathlib.Data.Int.Notation
import Xv6.Kalloc

/-!
# Page tables and user memory (`kernel/vm.c`)

The functions of `vm.c` that user address spaces are made of, over physical
memory: page tables are the words of page-table pages, as the hardware reads
them. Pointers are addresses, 0 the null pointer.

A loop over the pages of a range is a recursion on the number of pages left,
which the header of the loop determines: no address of the ranges that `walk`
accepts comes near the end of the 64-bit space.
-/

namespace Xv6

open Prog

/-- The loop of `walk`, from `level` down to 0. -/
def walkLoop (va : ℕ) (alloc : Bool) : ℕ → ℕ → VM ℕ
  | 0, pagetable => return pagetable + 8 * PX 0 va
  | level + 1, pagetable => do
    let pte := pagetable + 8 * PX (level + 1) va
    let e ← VM.load pte
    if e &&& PTE_V ≠ 0 then
      walkLoop va alloc level (PTE2PA e)
    else if !alloc then
      return 0
    else
      let pagetable ← kalloc
      if pagetable = 0 then
        return 0
      else
        VM.memset pagetable 0 PGSIZE
        VM.store pte (PA2PTE pagetable ||| PTE_V)
        walkLoop va alloc level pagetable

/-- `walk`: the address of the PTE for `va`, or 0 -/
def walk (pagetable va : ℕ) (alloc : Bool) : VM ℕ :=
  if MAXVA ≤ va then Prog.panic "walk" else walkLoop va alloc 2 pagetable

/-- `walkaddr` -/
def walkaddr (pagetable va : ℕ) : VM ℕ :=
  if MAXVA ≤ va then
    return 0
  else do
    let pte ← walk pagetable va false
    if pte = 0 then
      return 0
    else
      let e ← VM.load pte
      if e &&& PTE_V = 0 then
        return 0
      else if e &&& PTE_U = 0 then
        return 0
      else
        return PTE2PA e

/-- The loop of `mappages`, with `n` pages to go after this one: `a == last` when `n` is 0. -/
def mappagesLoop (pagetable perm : ℕ) : ℕ → ℕ → ℕ → VM ℤ
  | n, a, pa => do
    let pte ← walk pagetable a true
    if pte = 0 then
      return -1
    else
      let e ← VM.load pte
      if e &&& PTE_V ≠ 0 then
        Prog.panic "mappages: remap"
      else
        VM.store pte (PA2PTE pa ||| perm ||| PTE_V)
        match n with
        | 0 => return 0
        | n + 1 => mappagesLoop pagetable perm n ((a + PGSIZE) % WORD) ((pa + PGSIZE) % WORD)

/-- `mappages` -/
def mappages (pagetable va size pa perm : ℕ) : VM ℤ :=
  if va % PGSIZE ≠ 0 then Prog.panic "mappages: va not aligned"
  else if size % PGSIZE ≠ 0 then Prog.panic "mappages: size not aligned"
  else if size = 0 then Prog.panic "mappages: size"
  else mappagesLoop pagetable perm (size / PGSIZE - 1) va pa

/-- `uvmcreate` -/
def uvmcreate : VM ℕ := do
  let pagetable ← kalloc
  if pagetable = 0 then
    return 0
  else
    VM.memset pagetable 0 PGSIZE
    return pagetable

/-- The loop of `uvmunmap`, over `n` pages. -/
def uvmunmapLoop (pagetable : ℕ) (do_free : Bool) : ℕ → ℕ → VM Unit
  | 0, _ => return ()
  | n + 1, a => do
    let pte ← walk pagetable a false
    if pte ≠ 0 then
      let e ← VM.load pte
      if e &&& PTE_V ≠ 0 then
        if do_free then
          kfree (PTE2PA e)
        VM.store pte 0
    uvmunmapLoop pagetable do_free n (a + PGSIZE)

/-- `uvmunmap` -/
def uvmunmap (pagetable va npages : ℕ) (do_free : Bool) : VM Unit :=
  if va % PGSIZE ≠ 0 then Prog.panic "uvmunmap: not aligned"
  else uvmunmapLoop pagetable do_free (((va + npages * PGSIZE) % WORD - va) / PGSIZE) va

/-- A `uint64` as an `int`, and back. -/
def truncInt (x : ℕ) : ℕ := (BitVec.signExtend 64 (BitVec.ofNat 32 x)).toNat

/-- `uvmdealloc` -/
def uvmdealloc (pagetable oldsz newsz : ℕ) : VM ℕ :=
  if oldsz ≤ newsz then
    return oldsz
  else do
    if PGROUNDUP newsz < PGROUNDUP oldsz then
      let npages := truncInt ((PGROUNDUP oldsz - PGROUNDUP newsz) / PGSIZE)
      uvmunmap pagetable (PGROUNDUP newsz) npages true
    return newsz

/-- The loop of `uvmalloc`, over `n` pages. -/
def uvmallocLoop (pagetable oldsz newsz xperm : ℕ) : ℕ → ℕ → VM ℕ
  | 0, _ => return newsz
  | n + 1, a => do
    let mem ← kalloc
    if mem = 0 then
      let _ ← uvmdealloc pagetable a oldsz
      return 0
    else
      VM.memset mem 0 PGSIZE
      let r ← mappages pagetable a PGSIZE mem (PTE_R ||| PTE_U ||| xperm)
      if r ≠ 0 then
        kfree mem
        let _ ← uvmdealloc pagetable a oldsz
        return 0
      else
        uvmallocLoop pagetable oldsz newsz xperm n (a + PGSIZE)

/-- `uvmalloc` -/
def uvmalloc (pagetable oldsz newsz xperm : ℕ) : VM ℕ :=
  if newsz < oldsz then
    return oldsz
  else
    uvmallocLoop pagetable (PGROUNDUP oldsz) newsz xperm
      ((newsz - PGROUNDUP oldsz + (PGSIZE - 1)) / PGSIZE) (PGROUNDUP oldsz)

/-- The loop of `freewalk`, with `n` entries of the page left. -/
def freewalkLoop (recurse : ℕ → VM Unit) : ℕ → ℕ → VM Unit
  | 0, pagetable => kfree pagetable
  | n + 1, pagetable => do
    let pte := pagetable + 8 * (512 - (n + 1))
    let e ← VM.load pte
    if e &&& PTE_V ≠ 0 ∧ e &&& (PTE_R ||| PTE_W ||| PTE_X) = 0 then
      recurse (PTE2PA e)
      VM.store pte 0
      freewalkLoop recurse n pagetable
    else if e &&& PTE_V ≠ 0 then
      Prog.panic "freewalk: leaf"
    else
      freewalkLoop recurse n pagetable

/-- `freewalk`, for a tree of at most so many levels -/
def freewalkLevels : ℕ → ℕ → VM Unit
  | 0, _ => Prog.wait
  | levels + 1, pagetable => freewalkLoop (freewalkLevels levels) 512 pagetable

/-- `freewalk` -/
def freewalk (pagetable : ℕ) : VM Unit := freewalkLevels 3 pagetable

/-- `uvmfree` -/
def uvmfree (pagetable sz : ℕ) : VM Unit := do
  if 0 < sz then
    uvmunmap pagetable 0 (PGROUNDUP sz / PGSIZE) true
  freewalk pagetable

/-- The loop of `uvmcopy`, over `n` pages. -/
def uvmcopyLoop (old new : ℕ) : ℕ → ℕ → VM ℤ
  | 0, _ => return 0
  | n + 1, i => do
    let pte ← walk old i false
    if pte = 0 then
      uvmcopyLoop old new n (i + PGSIZE)
    else
      let e ← VM.load pte
      if e &&& PTE_V = 0 then
        uvmcopyLoop old new n (i + PGSIZE)
      else
        let mem ← kalloc
        if mem = 0 then
          uvmunmap new 0 (i / PGSIZE) true
          return -1
        else
          VM.memmove mem (PTE2PA e) PGSIZE
          let r ← mappages new i PGSIZE mem (PTE_FLAGS e)
          if r ≠ 0 then
            kfree mem
            uvmunmap new 0 (i / PGSIZE) true
            return -1
          else
            uvmcopyLoop old new n (i + PGSIZE)

/-- `uvmcopy` -/
def uvmcopy (old new sz : ℕ) : VM ℤ :=
  uvmcopyLoop old new ((sz + (PGSIZE - 1)) / PGSIZE) 0

/-- `uvmclear` -/
def uvmclear (pagetable va : ℕ) : VM Unit := do
  let pte ← walk pagetable va false
  if pte = 0 then
    Prog.panic "uvmclear"
  else
    let e ← VM.load pte
    -- `*pte &= ~PTE_U`
    VM.store pte (e - (e &&& PTE_U))

/-- `ismapped` -/
def ismapped (pagetable va : ℕ) : VM Bool := do
  let pte ← walk pagetable va false
  if pte = 0 then
    return false
  else
    let e ← VM.load pte
    return decide (e &&& PTE_V ≠ 0)

/-- The fields of `myproc()` that `vmfault` uses. -/
structure Me where
  /-- size of process memory -/
  sz : ℕ
  /-- user page table -/
  pagetable : ℕ

/-- `vmfault`; the kernel does not use its argument `read` -/
def vmfault (me : Me) (pagetable va : ℕ) : VM ℕ :=
  if me.sz ≤ va then
    return 0
  else do
    let va := PGROUNDDOWN va
    if ← ismapped pagetable va then
      return 0
    else
      let mem ← kalloc
      if mem = 0 then
        return 0
      else
        VM.memset mem 0 PGSIZE
        let r ← mappages me.pagetable va PGSIZE mem (PTE_W ||| PTE_U ||| PTE_R)
        if r ≠ 0 then
          kfree mem
          return 0
        else
          return mem

/-- How `copyout` and `copyin` find the page of a user address. -/
def userPage (me : Me) (pagetable va0 : ℕ) : VM ℕ := do
  let pa0 ← walkaddr pagetable va0
  if pa0 = 0 then
    vmfault me pagetable va0
  else
    return pa0

/-- The loop of `copyout`; each pass copies a byte at least, so `fuel` is the number of bytes. -/
def copyoutLoop (me : Me) (pagetable : ℕ) : ℕ → ℕ → List UInt8 → VM ℤ
  | 0, _, _ => return 0
  | fuel + 1, dstva, src =>
    if src.length = 0 then
      return 0
    else do
      let va0 := PGROUNDDOWN dstva
      if MAXVA ≤ va0 then
        return -1
      else
        let pa0 ← userPage me pagetable va0
        if pa0 = 0 then
          return -1
        else
          let pte ← walk pagetable va0 false
          let e ← VM.load pte
          -- forbid copyout over read-only user text pages
          if e &&& PTE_W = 0 then
            return -1
          else
            let n := min (PGSIZE - (dstva - va0)) src.length
            modify fun s => { s with mem := putBytes s.mem (pa0 + (dstva - va0)) (src.take n) }
            copyoutLoop me pagetable fuel ((va0 + PGSIZE) % WORD) (src.drop n)

/-- `copyout` -/
def copyout (me : Me) (pagetable dstva : ℕ) (src : List UInt8) : VM ℤ :=
  copyoutLoop me pagetable src.length dstva src

/-- The loop of `copyin`, with the bytes copied so far. -/
def copyinLoop (me : Me) (pagetable : ℕ) : ℕ → ℕ → ℕ → List UInt8 → VM (ℤ × List UInt8)
  | 0, _, _, dst => return (0, dst)
  | fuel + 1, srcva, len, dst =>
    if len = 0 then
      return (0, dst)
    else do
      let va0 := PGROUNDDOWN srcva
      let pa0 ← userPage me pagetable va0
      if pa0 = 0 then
        return (-1, dst)
      else
        let n := min (PGSIZE - (srcva - va0)) len
        let bytes := getBytes (← get).mem (pa0 + (srcva - va0)) n
        copyinLoop me pagetable fuel ((va0 + PGSIZE) % WORD) (len - n) (dst ++ bytes)

/-- `copyin`: what it returns, and the bytes copied -/
def copyin (me : Me) (pagetable srcva len : ℕ) : VM (ℤ × List UInt8) :=
  copyinLoop me pagetable len srcva len []

/-- The inner loop of `copyinstr`, over `n` bytes at `p`: the bytes up to a null, or all `n`. -/
def copyinstrPage (m : Bytes) : ℕ → ℕ → List UInt8 × Bool
  | 0, _ => ([], false)
  | n + 1, p =>
    if m p = 0 then ([0], true)
    else ((m p :: (copyinstrPage m n (p + 1)).1), (copyinstrPage m n (p + 1)).2)

/-- The outer loop of `copyinstr`, with the bytes copied so far. -/
def copyinstrLoop (pagetable : ℕ) : ℕ → ℕ → ℕ → List UInt8 → VM (ℤ × List UInt8)
  | 0, _, _, dst => return (-1, dst)
  | fuel + 1, srcva, max, dst =>
    if max = 0 then
      return (-1, dst)
    else do
      let va0 := PGROUNDDOWN srcva
      let pa0 ← walkaddr pagetable va0
      if pa0 = 0 then
        return (-1, dst)
      else
        let n := min (PGSIZE - (srcva - va0)) max
        let (bytes, got_null) := copyinstrPage (← get).mem n (pa0 + (srcva - va0))
        if got_null then
          return (0, dst ++ bytes)
        else
          copyinstrLoop pagetable fuel ((va0 + PGSIZE) % WORD) (max - n) (dst ++ bytes)

/-- `copyinstr`: what it returns, and the bytes copied -/
def copyinstr (pagetable srcva max : ℕ) : VM (ℤ × List UInt8) :=
  copyinstrLoop pagetable max srcva max []

/-! ## Page tables of processes (`kernel/proc.c`) -/

/-- `proc_pagetable`, for a process with this trapframe -/
def proc_pagetable (trapframe : ℕ) : VM ℕ := do
  let pagetable ← uvmcreate
  if pagetable = 0 then
    return 0
  else
    let r ← mappages pagetable TRAMPOLINE PGSIZE (← get).trampoline (PTE_R ||| PTE_X)
    if r < 0 then
      uvmfree pagetable 0
      return 0
    else
      let r ← mappages pagetable TRAPFRAME PGSIZE trapframe (PTE_R ||| PTE_W)
      if r < 0 then
        uvmunmap pagetable TRAMPOLINE 1 false
        uvmfree pagetable 0
        return 0
      else
        return pagetable

/-- `proc_freepagetable` -/
def proc_freepagetable (pagetable sz : ℕ) : VM Unit := do
  uvmunmap pagetable TRAMPOLINE 1 false
  uvmunmap pagetable TRAPFRAME 1 false
  uvmfree pagetable sz

end Xv6
