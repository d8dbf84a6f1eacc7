import Xv6.Fs

/-!
# Making a file system (`mkfs/mkfs.c`)

The image is a file of sectors, each given by its bytes. `wsect` makes the file
longer where it has to, `rsect` fails past its end. `xshort` and `xint` give a
number the byte order of the disk, which is what `getLE` and `putLE` read and
write. A failed assertion and `die` are a `panic`; the image opens.

`mount` is what the kernel sees of an image.
-/

namespace Xv6.Mkfs

open Prog Fs

/-- `NINODES` -/
def NINODES : ℕ := 200

/-- `nbitmap` -/
def nbitmap : ℕ := FSSIZE / BPB + 1

/-- `ninodeblocks` -/
def ninodeblocks : ℕ := NINODES / IPB + 1

/-- `nlog`: the header, followed by the blocks -/
def nlog : ℕ := LOGBLOCKS + 1

/-- `nmeta`: number of meta blocks -/
def nmeta : ℕ := 2 + nlog + ninodeblocks + nbitmap

/-- `sb.inodestart` -/
def inodestart : ℕ := 2 + nlog

/-- `sb.bmapstart` -/
def bmapstart : ℕ := 2 + nlog + ninodeblocks

/-- `sb`, as far as the kernel uses it in `fs.c` -/
def sb : Superblock where
  size := FSSIZE
  nblocks := FSSIZE - nmeta
  ninodes := NINODES

/-! ## The image -/

structure Image where
  /-- the sectors, of `BSIZE` bytes each -/
  sector : ℕ → Bytes
  /-- how many of them the file has -/
  len : ℕ
  freeinode : ℕ
  freeblock : ℕ

/-- The code of `mkfs`. -/
abbrev Mk (α : Type) : Type := Prog Image α

/-- `wsect` -/
def wsect (sec : ℕ) (buf : Bytes) : Mk Unit :=
  modify fun s => { s with
    sector := Function.update s.sector sec buf
    len := max s.len (sec + 1) }

/-- `rsect` -/
def rsect (sec : ℕ) : Mk Bytes := do
  let s ← get
  if sec < s.len then
    return s.sector sec
  else
    Prog.panic "read"

/-- `assert` -/
def assert (P : Prop) [Decidable P] (msg : String) : Mk Unit :=
  if P then return () else Prog.panic msg

/-! ## Inodes -/

/-- The number of a type. -/
def typeNum : InodeType → ℕ
  | .free => 0
  | .T_DIR => 1
  | .T_FILE => 2
  | .T_DEVICE => 3

/-- The type with a number. -/
def typeOf : ℕ → InodeType
  | 1 => .T_DIR
  | 2 => .T_FILE
  | 3 => .T_DEVICE
  | _ => .free

/-- `struct dinode` at `a` -/
def getDinode (m : Bytes) (a : ℕ) : Dinode :=
  let addrs := (List.range (NDIRECT + 1)).map fun j => getLE 4 m (a + 12 + 4 * j)
  { type := typeOf (getLE 2 m a)
    major := BitVec.ofNat 16 (getLE 2 m (a + 2))
    minor := BitVec.ofNat 16 (getLE 2 m (a + 4))
    nlink := BitVec.ofNat 16 (getLE 2 m (a + 6))
    size := getLE 4 m (a + 8)
    addrs := fun j => addrs.getD j 0 }

/-- Write the `addrs` at `a`: the byte `i` is one of entry `(i - a) / 4`. -/
def putAddrs (m : Bytes) (a : ℕ) (addrs : ℕ → ℕ) : Bytes := fun i =>
  if a ≤ i ∧ i < a + 4 * (NDIRECT + 1) then
    putLE 4 m (a + 4 * ((i - a) / 4)) (addrs ((i - a) / 4)) i
  else m i

/-- Write a `struct dinode` at `a`. -/
def putDinode (m : Bytes) (a : ℕ) (d : Dinode) : Bytes :=
  let m := putLE 2 m a (typeNum d.type)
  let m := putLE 2 m (a + 2) d.major.toNat
  let m := putLE 2 m (a + 4) d.minor.toNat
  let m := putLE 2 m (a + 6) d.nlink.toNat
  let m := putLE 4 m (a + 8) d.size
  putAddrs m (a + 12) d.addrs

/-- `IBLOCK(i, sb)` -/
def IBLOCK (i : ℕ) : ℕ := i / IPB + inodestart

/-- `winode` -/
def winode (inum : ℕ) (ip : Dinode) : Mk Unit := do
  let buf ← rsect (IBLOCK inum)
  wsect (IBLOCK inum) (putDinode buf (inum % IPB * 64) ip)

/-- `rinode` -/
def rinode (inum : ℕ) : Mk Dinode := do
  let buf ← rsect (IBLOCK inum)
  return getDinode buf (inum % IPB * 64)

/-- `ialloc` -/
def ialloc (type : InodeType) : Mk ℕ := do
  let inum := (← get).freeinode
  modify fun s => { s with freeinode := inum + 1 }
  winode inum { Dinode.zero with type := type, nlink := 1 }
  return inum

/-! ## Blocks -/

/-- `freeblock++` -/
def newblock : Mk ℕ := do
  let b := (← get).freeblock
  modify fun s => { s with freeblock := b + 1 }
  return b

/-- The loop of `balloc`: the bits of the first `used` blocks -/
def ballocLoop : ℕ → Bytes
  | 0 => fun _ => 0
  | i + 1 =>
    let buf := ballocLoop i
    Function.update buf (i / 8) (buf (i / 8) ||| UInt8.ofNat (2 ^ (i % 8)))

/-- `balloc` -/
def balloc (used : ℕ) : Mk Unit := do
  assert (used < BPB) "used < BPB"
  wsect bmapstart (ballocLoop used)

/-- `din.addrs[j]`, allocated if it is 0: the address, and `din` -/
def dinAddr (din : Dinode) (j : ℕ) : Mk (ℕ × Dinode) :=
  if din.addrs j = 0 then do
    let b ← newblock
    return (b, { din with addrs := Function.update din.addrs j b })
  else
    return (din.addrs j, din)

/-- `indirect[j]`, of the indirect block `ind`, allocated if it is 0 -/
def indirectBlock (ind j : ℕ) : Mk ℕ := do
  let indirect ← rsect ind
  if entry indirect j = 0 then
    let b ← newblock
    wsect ind (putLE 4 indirect (4 * j) b)
    return b
  else
    return entry indirect j

/-- The block `fbn` of the file, allocated if there is none: its number `x`, and `din` -/
def fileBlock (din : Dinode) (fbn : ℕ) : Mk (ℕ × Dinode) :=
  if fbn < NDIRECT then
    dinAddr din fbn
  else do
    let (ind, din) ← dinAddr din NDIRECT
    let x ← indirectBlock ind (fbn - NDIRECT)
    return (x, din)

/-- The loop of `iappend`; each round writes a byte or more, so that `n` rounds are enough for `n`
bytes. -/
def iappendLoop : ℕ → Dinode → ℕ → List UInt8 → Mk (Dinode × ℕ)
  | 0, din, off, _ => return (din, off)
  | fuel + 1, din, off, p =>
    if p = [] then
      return (din, off)
    else do
      let fbn := off / BSIZE
      assert (fbn < MAXFILE) "fbn < MAXFILE"
      let (x, din) ← fileBlock din fbn
      let n1 := min p.length ((fbn + 1) * BSIZE - off)
      let buf ← rsect x
      wsect x (putBytes buf (off - fbn * BSIZE) (p.take n1))
      iappendLoop fuel din (off + n1) (p.drop n1)

/-- `iappend` -/
def iappend (inum : ℕ) (p : List UInt8) : Mk Unit := do
  let din ← rinode inum
  let (din, off) ← iappendLoop p.length din din.size p
  winode inum { din with size := off }

/-! ## `main` -/

/-- A host file: its path name, and what each `read` of it gives; it may not open. -/
structure HostFile where
  path : List UInt8
  reads : Option (List (List UInt8))

/-- `"user/"` -/
def userDir : List UInt8 := [117, 115, 101, 114, 47]

/-- `'_'` -/
def underscore : UInt8 := 95

/-- The name without `"user/"`. -/
def shortname (path : List UInt8) : List UInt8 :=
  if path.take 5 = userDir then path.drop 5 else path

/-- The name without the leading `'_'`. -/
def stripped (path : List UInt8) : List UInt8 :=
  if (shortname path).head? = some underscore then (shortname path).tail else shortname path

/-- The bytes of a directory entry. -/
def de (inum : ℕ) (name : List UInt8) : List UInt8 := getBytes (direntBytes name inum) 0 direntSize

/-- Append what is read, until nothing is. -/
def appendReads (inum : ℕ) : List (List UInt8) → Mk Unit
  | [] => return ()
  | buf :: rest =>
    if buf = [] then
      return ()
    else do
      iappend inum buf
      appendReads inum rest

/-- One round of the loop of `main` over the files. -/
def addFile (rootino : ℕ) (f : HostFile) : Mk Unit := do
  assert (slash ∉ shortname f.path) "index(shortname, '/') == 0"
  match f.reads with
  | none => Prog.panic "open"
  | some reads =>
    assert ((stripped f.path).length ≤ DIRSIZ) "strlen(shortname) <= DIRSIZ"
    let inum ← ialloc .T_FILE
    iappend rootino (de inum (stripped f.path))
    appendReads inum reads

/-- The loop of `main` over the files. -/
def addFiles (rootino : ℕ) : List HostFile → Mk Unit
  | [] => return ()
  | f :: fs => do
    addFile rootino f
    addFiles rootino fs

/-- Write zeros to the first `n` sectors. -/
def zeroSectors : ℕ → Mk Unit
  | 0 => return ()
  | n + 1 => do
    zeroSectors n
    wsect n fun _ => 0

/-- `.` -/
def dot : List UInt8 := [46]

/-- `..` -/
def dotdot : List UInt8 := [46, 46]

/-- The superblock, as it is written to sector 1: the fields after `magic`. -/
def superblock : Bytes :=
  let m : Bytes := putLE 4 (fun _ => 0) 0 0x10203040
  let m := putLE 4 m 4 FSSIZE
  let m := putLE 4 m 8 (FSSIZE - nmeta)
  let m := putLE 4 m 12 NINODES
  let m := putLE 4 m 16 nlog
  let m := putLE 4 m 20 2
  let m := putLE 4 m 24 inodestart
  putLE 4 m 28 bmapstart

/-- `main`, for the files after the name of the image -/
def main (files : List HostFile) : Mk Unit := do
  modify fun s => { s with freeblock := nmeta }
  zeroSectors FSSIZE
  wsect 1 superblock
  let rootino ← ialloc .T_DIR
  assert (rootino = ROOTINO) "rootino == ROOTINO"
  iappend rootino (de rootino dot)
  iappend rootino (de rootino dotdot)
  addFiles rootino files
  -- fix size of root inode dir
  let din ← rinode rootino
  let off := (din.size / BSIZE + 1) * BSIZE
  winode rootino { din with size := off }
  balloc (← get).freeblock

/-- The image when it has just been opened. -/
def opened : Image where
  sector := fun _ _ => 0
  len := 0
  freeinode := 1
  freeblock := 0

/-! ## What the kernel sees -/

/-- The bit of the bitmap for block `b`. -/
def bit (sector : ℕ → Bytes) (b : ℕ) : Bool :=
  (sector (b / BPB + bmapstart) (b % BPB / 8)).toNat.testBit (b % 8)

/-- The file system in an image. -/
def disk (s : Image) : Disk where
  bitmap := bit s.sector
  dinode := fun i => getDinode (s.sector (IBLOCK i)) (i % IPB * 64)
  block := s.sector

/-- The file system in an image, with no inode in use. -/
def mount (s : Image) : State where
  toDisk := disk s
  inode := fun _ => ⟨0, 0, false, false, Dinode.zero⟩
  trace := []
  home := s.sector
  pinned := fun _ => false

end Xv6.Mkfs
