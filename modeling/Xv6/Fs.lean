import Xv6.Bytes
import Xv6.Param
import Xv6.Prog

/-!
# The file system (`kernel/fs.c`)

Blocks, inodes, directories and path names. The state is what the code sees
through the block cache: the free bitmap, the inodes on disk, the blocks of
files, and the table of inodes in use. A bitmap or inode block is given by what
is in it, a data block by its bytes. There is one device, so `dev` is left out.

Code runs here by itself, one system call after the other. A sleep lock is then
free, or held by the call at hand, which waits for ever if it asks for it again.
`State.trace` keeps what happened to the log and to references, newest first; no
code looks at it. A data block that has been changed is written to disk only if
it has been logged; `State.home` has what it is otherwise read as once it has
left the cache.
-/

namespace Xv6.Fs

open Function

open Prog

/-! ## The state -/

/-- The type of an inode; 0 is the type of one that is not allocated. -/
inductive InodeType : Type where
  | free
  | T_DIR
  | T_FILE
  | T_DEVICE
  deriving DecidableEq

/-- `struct dinode` -/
structure Dinode where
  type : InodeType
  major : BitVec 16
  minor : BitVec 16
  /-- number of links to inode in file system -/
  nlink : BitVec 16
  /-- size of file (bytes) -/
  size : ℕ
  /-- data block addresses, the last of an indirect block -/
  addrs : ℕ → ℕ

/-- An inode of zeros. -/
def Dinode.zero : Dinode where
  type := .free
  major := 0
  minor := 0
  nlink := 0
  size := 0
  addrs := fun _ => 0

/-- `struct inode` -/
structure Inode where
  inum : ℕ
  /-- reference count -/
  ref : ℕ
  /-- `lock.locked` -/
  locked : Bool
  /-- inode has been read from disk? -/
  valid : Bool
  /-- copy of disk inode -/
  copy : Dinode

/-- The fields of `struct superblock` that are used here. -/
structure Superblock where
  /-- size of file system image (blocks) -/
  size : ℕ
  /-- number of data blocks, which are the last ones -/
  nblocks : ℕ
  /-- number of inodes -/
  ninodes : ℕ

/-- A block that `log_write` gets. -/
inductive LogBlock : Type where
  /-- block `k` of the free bitmap -/
  | bitmap (k : ℕ)
  /-- block `k` of the inodes -/
  | inodes (k : ℕ)
  /-- block `b`, of the data area -/
  | data (b : ℕ)
  deriving DecidableEq

/-- What code does to the log and to references. -/
inductive Act : Type where
  | begin_op
  | end_op
  | iput
  | log_write (b : LogBlock)
  deriving DecidableEq

/-- What is on disk. -/
structure Disk where
  /-- the bits of the free bitmap, set for blocks in use -/
  bitmap : ℕ → Bool
  /-- the inodes on disk -/
  dinode : ℕ → Dinode
  /-- the data blocks -/
  block : ℕ → Bytes

/-- The disk as the cache has it, and the inode table. -/
structure State extends Disk where
  /-- `itable.inode` -/
  inode : ℕ → Inode
  trace : List Act
  /-- what a data block is read as when it is not in the cache -/
  home : ℕ → Bytes
  /-- the data blocks that have been logged since the last commit, which stay in the cache -/
  pinned : ℕ → Bool

/-- Code of the file system. -/
abbrev FS (α : Type) : Type := Prog State α

namespace State

def setInode (s : State) (i : ℕ) (ip : Inode) : State :=
  { s with inode := update s.inode i ip }

def setDinode (s : State) (inum : ℕ) (d : Dinode) : State :=
  { s with dinode := update s.dinode inum d }

def setBlock (s : State) (b : ℕ) (data : Bytes) : State :=
  { s with block := update s.block b data }

def setBit (s : State) (b : ℕ) (used : Bool) : State :=
  { s with bitmap := update s.bitmap b used }

end State

/-- Assign to fields of an entry of the inode table. -/
def setIp (i : ℕ) (f : Inode → Inode) : FS Unit :=
  modify fun s => s.setInode i (f (s.inode i))

/-- Assign to the copy of the disk inode. -/
def setCopy (i : ℕ) (f : Dinode → Dinode) : FS Unit :=
  setIp i fun ip => { ip with copy := f ip.copy }

/-- The copy of the disk inode. -/
def copyOf (i : ℕ) : FS Dinode := do
  return ((← get).inode i).copy

/-- Note what happens. -/
def note (a : Act) : FS Unit := modify fun s => { s with trace := a :: s.trace }

/-- `begin_op` -/
def begin_op : FS Unit := note .begin_op

/-- `log_write`, of a block of the data area -/
def log_write (b : ℕ) : FS Unit := do
  note (.log_write (.data b))
  modify fun s => { s with pinned := update s.pinned b true }

section code

variable (sb : Superblock)

/-! ## Blocks -/

/-- `balloc`: a zeroed block, or 0 if out of disk space -/
def balloc : FS ℕ := do
  let s ← get
  match (List.range sb.size).find? fun b => !s.bitmap b with
  | none => return 0
  | some b =>
    set (s.setBit b true)
    note (.log_write (.bitmap (b / BPB)))
    -- `bzero`
    modify fun s => s.setBlock b fun _ => 0
    log_write b
    return b

/-- `bfree` -/
def bfree (b : ℕ) : FS Unit := do
  let s ← get
  if !s.bitmap b then
    Prog.panic "freeing free block"
  else
    set (s.setBit b false)
    note (.log_write (.bitmap (b / BPB)))

/-! ## Inodes -/

/-- `iget` -/
def iget (inum : ℕ) : FS ℕ := do
  let s ← get
  match (List.range NINODE).find? fun i => 0 < (s.inode i).ref ∧ (s.inode i).inum = inum with
  | some i =>
    setIp i fun ip => { ip with ref := ip.ref + 1 }
    return i
  | none =>
    match (List.range NINODE).find? fun i => (s.inode i).ref = 0 with
    | none => Prog.panic "iget: no inodes"
    | some i =>
      setIp i fun ip => { ip with inum := inum, ref := 1, valid := false }
      return i

/-- `iupdate` -/
def iupdate (i : ℕ) : FS Unit := do
  let ip := (← get).inode i
  modify fun s => s.setDinode ip.inum ip.copy
  note (.log_write (.inodes (ip.inum / IPB)))

/-- `idup` -/
def idup (i : ℕ) : FS Unit :=
  setIp i fun ip => { ip with ref := ip.ref + 1 }

/-- `acquiresleep`, of the lock of an inode -/
def acquiresleep (i : ℕ) : FS Unit := do
  if ((← get).inode i).locked then
    Prog.wait
  else
    setIp i fun ip => { ip with locked := true }

/-- `releasesleep`, of the lock of an inode -/
def releasesleep (i : ℕ) : FS Unit :=
  setIp i fun ip => { ip with locked := false }

/-- `ilock` -/
def ilock (i : ℕ) : FS Unit := do
  if ((← get).inode i).ref < 1 then
    Prog.panic "ilock"
  else
    acquiresleep i
    let s ← get
    if !(s.inode i).valid then
      let d := s.dinode (s.inode i).inum
      setIp i fun ip => { ip with copy := d, valid := true }
      if d.type = .free then
        Prog.panic "ilock: no type"

/-- `iunlock` -/
def iunlock (i : ℕ) : FS Unit := do
  let ip := (← get).inode i
  if !ip.locked ∨ ip.ref < 1 then
    Prog.panic "iunlock"
  else
    releasesleep i

/-! ## Inode content -/

/-- `a[j]`, of an indirect block `a` -/
def entry (a : Bytes) (j : ℕ) : ℕ := getLE 4 a (4 * j)

/-- The loop of `itrunc` over the direct blocks, with `k` to go. -/
def itruncDirect (i : ℕ) : ℕ → FS Unit
  | 0 => return ()
  | k + 1 => do
    let j := NDIRECT - (k + 1)
    let d ← copyOf i
    if d.addrs j ≠ 0 then
      bfree (d.addrs j)
      setCopy i fun d => { d with addrs := update d.addrs j 0 }
    itruncDirect i k

/-- The loop of `itrunc` over the entries of the indirect block `a`, with `k` to go. -/
def itruncIndirect (a : Bytes) : ℕ → FS Unit
  | 0 => return ()
  | k + 1 => do
    let j := NINDIRECT - (k + 1)
    if entry a j ≠ 0 then
      bfree (entry a j)
    itruncIndirect a k

/-- `itrunc` -/
def itrunc (i : ℕ) : FS Unit := do
  itruncDirect i NDIRECT
  let d ← copyOf i
  if d.addrs NDIRECT ≠ 0 then
    let a := (← get).block (d.addrs NDIRECT)
    itruncIndirect a NINDIRECT
    bfree (d.addrs NDIRECT)
    setCopy i fun d => { d with addrs := update d.addrs NDIRECT 0 }
  setCopy i fun d => { d with size := 0 }
  iupdate i

/-- `iput` -/
def iput (i : ℕ) : FS Unit := do
  note .iput
  let ip := (← get).inode i
  if ip.ref = 1 ∧ ip.valid ∧ ip.copy.nlink = 0 then
    -- no links and no other references: truncate and free
    acquiresleep i
    itrunc i
    setCopy i fun d => { d with type := .free }
    iupdate i
    setIp i fun ip => { ip with valid := false }
    releasesleep i
  setIp i fun ip => { ip with ref := ip.ref - 1 }

/-- `iunlockput` -/
def iunlockput (i : ℕ) : FS Unit := do
  iunlock i
  iput i

/-- `ip->addrs[j]`, with a block allocated for it if there is none; 0 if out of disk space -/
def loadAddr (i j : ℕ) : FS ℕ := do
  let d ← copyOf i
  if d.addrs j = 0 then
    let addr ← balloc sb
    if addr = 0 then
      return 0
    else
      setCopy i fun d => { d with addrs := update d.addrs j addr }
      return addr
  else
    return d.addrs j

/-- `bmap` -/
def bmap (i bn : ℕ) : FS ℕ :=
  if bn < NDIRECT then
    loadAddr sb i bn
  else if bn - NDIRECT < NINDIRECT then do
    -- load indirect block, allocating if necessary
    let bp ← loadAddr sb i NDIRECT
    if bp = 0 then
      return 0
    else
      let j := bn - NDIRECT
      let addr := entry ((← get).block bp) j
      if addr = 0 then
        let addr ← balloc sb
        if addr ≠ 0 then
          modify fun s => s.setBlock bp (putLE 4 (s.block bp) (4 * j) addr)
          log_write bp
        return addr
      else
        return addr
  else
    Prog.panic "bmap: out of range"

/-- How many of the `n` bytes at `tot` a buffer takes or gives of which `limit` bytes can be
accessed; a buffer of the kernel has no limit. -/
def accessible (limit : Option ℕ) (tot n : ℕ) : ℕ :=
  match limit with
  | none => n
  | some l => min n (l - tot)

/-- The loop of `readi`; every round but the last takes a byte or more, so `fuel` is enough if it
is at least `n - tot`. What has been read so far is `acc`, of `tot` bytes; `none` stands for -1. -/
def readiLoop (i : ℕ) (limit : Option ℕ) (n : ℕ) :
    ℕ → ℕ → List UInt8 → FS (Option (List UInt8))
  | 0, _, acc => return some acc
  | fuel + 1, off, acc => do
    if acc.length < n then
      let addr ← bmap sb i (off / BSIZE)
      if addr = 0 then
        return some acc
      else
        let m := min (n - acc.length) (BSIZE - off % BSIZE)
        if accessible limit acc.length m ≠ m then
          return none
        else
          let data := getBytes ((← get).block addr) (off % BSIZE) m
          readiLoop i limit n fuel (off + m) (acc ++ data)
    else
      return some acc

/-- `readi`: the bytes read, `none` for -1 -/
def readi (i : ℕ) (limit : Option ℕ) (off n : ℕ) : FS (Option (List UInt8)) := do
  let size := (← copyOf i).size
  if size < off ∨ (off + n) % 2 ^ 32 < off then
    return some []
  else
    let n := if size < off + n then size - off else n
    readiLoop sb i limit n n off []

/-- The loop of `writei`, with `fuel` as in `readiLoop`: the number of bytes written. -/
def writeiLoop (i : ℕ) (src : Bytes) (limit : Option ℕ) (n : ℕ) : ℕ → ℕ → ℕ → FS ℕ
  | 0, _, tot => return tot
  | fuel + 1, off, tot => do
    if tot < n then
      let addr ← bmap sb i (off / BSIZE)
      if addr = 0 then
        return tot
      else
        let m := min (n - tot) (BSIZE - off % BSIZE)
        let c := accessible limit tot m
        modify fun s => s.setBlock addr (memmove (s.block addr) (off % BSIZE) src tot c)
        if c ≠ m then
          return tot
        else
          log_write addr
          writeiLoop i src limit n fuel (off + m) (tot + m)
    else
      return tot

/-- `writei` -/
def writei (i : ℕ) (src : Bytes) (limit : Option ℕ) (off n : ℕ) : FS ℤ := do
  let size := (← copyOf i).size
  if size < off ∨ (off + n) % 2 ^ 32 < off then
    return -1
  else if MAXFILE * BSIZE < off + n then
    return -1
  else
    let tot ← writeiLoop sb i src limit n n off 0
    if size < off + tot then
      setCopy i fun d => { d with size := off + tot }
    -- the loop might have called `bmap` and added a new block to the inode
    iupdate i
    return tot

/-! ## Directories -/

/-- `struct dirent` -/
structure Dirent where
  inum : ℕ
  name : List UInt8

/-- `sizeof(struct dirent)` -/
def direntSize : ℕ := 16

/-- `struct dirent`, as it is in the directory -/
def dirent (bytes : List UInt8) : Dirent where
  inum := field bytes 2 0
  name := bytes.drop 2

/-- `strncmp`, of strings that end at the end of the list if not before -/
def strncmp : ℕ → List UInt8 → List UInt8 → ℤ
  | 0, _, _ => 0
  | n + 1, p, q =>
    if p.headD 0 ≠ 0 ∧ p.headD 0 = q.headD 0 then strncmp n p.tail q.tail
    else ((p.headD 0).toNat : ℤ) - (q.headD 0).toNat

/-- `namecmp` -/
def namecmp (s t : List UInt8) : ℤ := strncmp DIRSIZ s t

/-- `strncpy`: the `n` bytes it writes -/
def strncpy : ℕ → List UInt8 → List UInt8
  | 0, _ => []
  | n + 1, t =>
    if t.headD 0 ≠ 0 then t.headD 0 :: strncpy n t.tail
    else List.replicate (n + 1) 0

/-- The bytes of a directory entry; `inum` is a `ushort`. -/
def direntBytes (name : List UInt8) (inum : ℕ) : Bytes :=
  putLE 2 (putBytes (fun _ => 0) 2 (strncpy DIRSIZ name)) 0 inum

/-- Read the directory entry at `off`. -/
def readDirent (msg : String) (dp off : ℕ) : FS Dirent := do
  match ← readi sb dp none off direntSize with
  | none => Prog.panic msg
  | some bytes =>
    if bytes.length ≠ direntSize then
      Prog.panic msg
    else
      return dirent bytes

/-- The number of directory entries from `off` on, in a directory of `size` bytes. -/
def direntsFrom (off size : ℕ) : ℕ := (size - off + (direntSize - 1)) / direntSize

/-- The loop of `dirlookup`, over `k` entries. -/
def dirlookupLoop (dp : ℕ) (name : List UInt8) : ℕ → ℕ → FS (Option (ℕ × ℕ))
  | 0, _ => return none
  | k + 1, off => do
    let de ← readDirent sb "dirlookup read" dp off
    if de.inum = 0 then
      dirlookupLoop dp name k (off + direntSize)
    else if namecmp name de.name = 0 then
      return some (← iget de.inum, off)
    else
      dirlookupLoop dp name k (off + direntSize)

/-- `dirlookup`: the inode, and the offset of its entry -/
def dirlookup (dp : ℕ) (name : List UInt8) : FS (Option (ℕ × ℕ)) := do
  let d ← copyOf dp
  if d.type ≠ .T_DIR then
    Prog.panic "dirlookup not DIR"
  else
    dirlookupLoop sb dp name (direntsFrom 0 d.size) 0

/-- The loop of `dirlink`, over `k` entries: the offset of an empty one, or the end. -/
def dirlinkLoop (dp : ℕ) : ℕ → ℕ → FS ℕ
  | 0, off => return off
  | k + 1, off => do
    let de ← readDirent sb "dirlink read" dp off
    if de.inum = 0 then
      return off
    else
      dirlinkLoop dp k (off + direntSize)

/-- `dirlink` -/
def dirlink (dp : ℕ) (name : List UInt8) (inum : ℕ) : FS ℤ := do
  match ← dirlookup sb dp name with
  | some (ip, _) =>
    iput ip
    return -1
  | none =>
    let off ← dirlinkLoop sb dp (direntsFrom 0 (← copyOf dp).size) 0
    let r ← writei sb dp (direntBytes name inum) none off direntSize
    if r ≠ direntSize then
      return -1
    else
      return 0

/-! ## Paths -/

/-- A path name, without the 0 at its end. -/
abbrev Path : Type := List UInt8

/-- `'/'` -/
def slash : UInt8 := 47

/-- `skipelem`: the path after the first element, and that element -/
def skipelem (path : Path) : Option (Path × List UInt8) :=
  match path.dropWhile (· = slash) with
  | [] => none
  | s =>
    some ((s.dropWhile (· ≠ slash)).dropWhile (· = slash), (s.takeWhile (· ≠ slash)).take DIRSIZ)

/-- The end of `namex`. -/
def namexEnd (nameiparent : Bool) (ip : ℕ) : FS (Option (ℕ × List UInt8)) := do
  if nameiparent then
    iput ip
    return none
  else
    return some (ip, [])

/-- The loop of `namex`, for a path of at most `k` characters: each round takes one or more. -/
def namexLoop (nameiparent : Bool) : ℕ → Path → ℕ → FS (Option (ℕ × List UInt8))
  | 0, _, ip => namexEnd nameiparent ip
  | k + 1, path, ip => do
    match skipelem path with
    | none => namexEnd nameiparent ip
    | some (path, name) =>
      ilock ip
      if (← copyOf ip).type ≠ .T_DIR then
        iunlockput ip
        return none
      else if nameiparent ∧ path = [] then
        -- stop one level early
        iunlock ip
        return some (ip, name)
      else
        match ← dirlookup sb ip name with
        | none =>
          iunlockput ip
          return none
        | some (next, _) =>
          iunlockput ip
          namexLoop nameiparent k path next

/-- `namex`, for a process in the directory `cwd` -/
def namex (cwd : ℕ) (path : Path) (nameiparent : Bool) : FS (Option (ℕ × List UInt8)) := do
  if path.head? = some slash then
    let ip ← iget ROOTINO
    namexLoop sb nameiparent path.length path ip
  else
    idup cwd
    namexLoop sb nameiparent path.length path cwd

/-- `namei` -/
def namei (cwd : ℕ) (path : Path) : FS (Option ℕ) := do
  return (← namex sb cwd path false).map Prod.fst

/-- `nameiparent`: the directory, and the last element -/
def nameiparent (cwd : ℕ) (path : Path) : FS (Option (ℕ × List UInt8)) :=
  namex sb cwd path true

end code

end Xv6.Fs
