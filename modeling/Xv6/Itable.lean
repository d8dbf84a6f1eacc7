import Mathlib.Data.Finset.Erase
import Mathlib.Data.Finset.Insert
import Mathlib.Logic.Function.Basic
import Xv6.Fs
import Xv6.Machine

/-!
# The inode table (`kernel/fs.c`)

`iget`, `idup`, `ilock`, `iunlock`, `iput`, `ialloc` and `iupdate` as any number
of processes run them together. What is done under `itable.lock` is one step,
but for the part of `iput` up to its `acquiresleep`, which keeps the lock over
two. So is what is done between `bread` and `brelse`, since the buffer is locked
in between: the disk here is the inodes as the block cache has them.

A reference counted in `ip->ref` is a slot together with the processes that use
it. It has one user after `iget` and `idup`; the file that `fork` or `filedup`
shares has more, and it is the last one who calls `iput`. `Disciplined` is what
callers see to: they only lock and put inodes they have a reference to, keep one
for as long as they have the lock, and call `iupdate` after every change.
-/

namespace Xv6.Itable

open Fs

/-! ## The state -/

/-- An entry of `itable.inode`. -/
abbrev Slot : Type := Fin NINODE

/-- `struct inode` -/
structure Entry where
  dev : ℕ
  inum : ℕ
  /-- reference count -/
  ref : ℕ
  /-- the process that has the sleep lock -/
  lock : Option ℕ
  /-- inode has been read from disk? -/
  valid : Bool
  /-- copy of disk inode -/
  copy : Dinode
  /-- changed since `iupdate` has been called; no code looks at it -/
  changed : Bool

/-- Where the inode is on disk. -/
def Entry.home (e : Entry) : ℕ × ℕ := (e.dev, e.inum)

/-- A reference: an entry of the table, and who uses it. -/
abbrev Reference : Type := Slot × Finset ℕ

/-- Where a process is. -/
inductive Pc : Type where
  /-- in none of these functions -/
  | idle
  /-- `ialloc`, at inode `inum` of the loop -/
  | ialloc (dev : ℕ) (type : InodeType) (inum : ℕ)
  /-- `ialloc`, which has marked the inode as allocated and calls `iget` -/
  | iget (dev inum : ℕ)
  /-- `ilock`, at `acquiresleep` -/
  | ilock (i : Slot)
  /-- `ilock`, at the test of `ip->valid` -/
  | check (i : Slot)
  /-- `ilock`, at the `bread` -/
  | read (i : Slot)
  /-- `ilock`, at `ip->valid = 1` -/
  | fill (i : Slot)
  /-- `iput`, at `acquiresleep`, with `itable.lock` -/
  | iput (i : Slot)
  /-- `iput`, in `itrunc` -/
  | itrunc (i : Slot)
  /-- `iput`, at the `iupdate` of `itrunc` -/
  | itruncUpdate (i : Slot)
  /-- `iput`, at `ip->type = 0` -/
  | untype (i : Slot)
  /-- `iput`, at `iupdate` -/
  | update (i : Slot)
  /-- `iput`, at `ip->valid = 0` -/
  | invalidate (i : Slot)
  /-- `iput`, at `releasesleep` -/
  | release (i : Slot)
  /-- `iput`, at the second `acquire` -/
  | drop (i : Slot)

/-- The table, the inodes on disk, and the processes. -/
structure State where
  entry : Slot → Entry
  /-- the inodes of each device, in the block cache -/
  disk : ℕ × ℕ → Dinode
  /-- the process that has `itable.lock`, between two steps -/
  itable : Option ℕ
  pc : ℕ → Pc
  /-- the references there are; no code looks at them -/
  refs : List Reference

/-- What a process does: it calls a function, or goes on with the one it is in. -/
inductive Act : Type where
  | iget (dev inum : ℕ)
  | idup (i : Slot)
  | ilock (i : Slot)
  | iunlock (i : Slot)
  | iput (i : Slot)
  | ialloc (dev : ℕ) (type : InodeType)
  | iupdate (i : Slot)
  /-- assign to fields of the inode -/
  | change (i : Slot) (d : Dinode)
  /-- let another process use a reference as well -/
  | share (r : Reference) (q : ℕ)
  /-- no longer use a reference that others use -/
  | leave (r : Reference)
  | next

namespace State

def set (s : State) (i : Slot) (e : Entry) : State :=
  { s with entry := Function.update s.entry i e }

def goto (s : State) (p : ℕ) (c : Pc) : State :=
  { s with pc := Function.update s.pc p c }

def setDisk (s : State) (x : ℕ × ℕ) (d : Dinode) : State :=
  { s with disk := Function.update s.disk x d }

/-- Process `p` uses a reference to the inode. -/
def Holds (s : State) (p : ℕ) (i : Slot) : Prop := ∃ r ∈ s.refs, r.1 = i ∧ p ∈ r.2

instance (s : State) (p : ℕ) (i : Slot) : Decidable (s.Holds p i) :=
  inferInstanceAs (Decidable (∃ r ∈ s.refs, r.1 = i ∧ p ∈ r.2))

/-! ## The functions -/

/-- Done under `itable.lock`. -/
def acquire (s : State) (t : Outcome State) : Outcome State :=
  if s.itable = none then t else .blocked

/-- What the loop of `iget` comes to. -/
inductive Scan : Type where
  /-- the inode is in the table -/
  | found (i : Slot)
  /-- it is not, and there is an empty slot -/
  | recycle (i : Slot)
  | full

/-- The loop of `iget`, over the slots to go. -/
def igetLoop (s : State) (dev inum : ℕ) : Option Slot → List Slot → Scan
  | none, [] => .full
  | some i, [] => .recycle i
  | empty, i :: rest =>
    if 0 < (s.entry i).ref ∧ (s.entry i).dev = dev ∧ (s.entry i).inum = inum then
      .found i
    else
      igetLoop s dev inum (if empty = none ∧ (s.entry i).ref = 0 then some i else empty) rest

/-- `ip->ref++` -/
def addRef (s : State) (p : ℕ) (i : Slot) : State :=
  { s.set i { s.entry i with ref := (s.entry i).ref + 1 } with refs := (i, {p}) :: s.refs }

/-- `ip->ref--` -/
def dropRef (s : State) (p : ℕ) (i : Slot) : State :=
  { s.set i { s.entry i with ref := (s.entry i).ref - 1 } with refs := s.refs.erase (i, {p}) }

/-- `iget` -/
def iget (s : State) (p dev inum : ℕ) : Outcome State :=
  s.acquire <|
    match s.igetLoop dev inum none (List.finRange NINODE) with
    | .found i => .ok ((s.addRef p i).goto p .idle)
    | .full => .panic "iget: no inodes"
    | .recycle i =>
      .ok <| goto
        { s.set i { s.entry i with dev := dev, inum := inum, ref := 1, valid := false } with
          refs := (i, {p}) :: s.refs } p .idle

/-- `iupdate` -/
def iupdate (s : State) (i : Slot) : State :=
  (s.setDisk (s.entry i).home (s.entry i).copy).set i { s.entry i with changed := false }

/-- The call of a function. -/
def call (s : State) (p : ℕ) : Act → Outcome State
  | .iget dev inum => s.iget p dev inum
  | .idup i => s.acquire (.ok ((s.addRef p i).goto p .idle))
  | .ilock i =>
    if (s.entry i).ref < 1 then
      .panic "ilock"
    else
      .ok (s.goto p (.ilock i))
  | .iunlock i =>
    if (s.entry i).lock ≠ some p ∨ (s.entry i).ref < 1 then
      .panic "iunlock"
    else
      .ok ((s.set i { s.entry i with lock := none }).goto p .idle)
  | .iput i =>
    s.acquire <|
      if (s.entry i).ref = 1 ∧ (s.entry i).valid ∧ (s.entry i).copy.nlink = 0 then
        .ok ({ s with itable := some p }.goto p (.iput i))
      else
        .ok ((s.dropRef p i).goto p .idle)
  | .ialloc dev type => .ok (s.goto p (.ialloc dev type 1))
  | .iupdate i => .ok ((s.iupdate i).goto p .idle)
  | .change i d => .ok ((s.set i { s.entry i with copy := d, changed := true }).goto p .idle)
  | .share r q => .ok ({ s with refs := (r.1, insert q r.2) :: s.refs.erase r }.goto p .idle)
  | .leave r => .ok ({ s with refs := (r.1, r.2.erase p) :: s.refs.erase r }.goto p .idle)
  | .next => .blocked

/-- The next step of a function that has been called. -/
def next (ninodes : ℕ) (s : State) (p : ℕ) : Pc → Outcome State
  | .idle => .blocked
  | .ialloc dev type inum =>
    if inum < ninodes then
      if (s.disk (dev, inum)).type = .free then
        .ok ((s.setDisk (dev, inum) { Dinode.zero with type := type }).goto p (.iget dev inum))
      else
        .ok (s.goto p (.ialloc dev type (inum + 1)))
    else
      -- no inodes
      .ok (s.goto p .idle)
  | .iget dev inum => s.iget p dev inum
  | .ilock i =>
    if (s.entry i).lock = none then
      .ok ((s.set i { s.entry i with lock := some p }).goto p (.check i))
    else
      .blocked
  | .check i => .ok (s.goto p (if (s.entry i).valid then .idle else .read i))
  | .read i =>
    .ok ((s.set i { s.entry i with copy := s.disk (s.entry i).home }).goto p (.fill i))
  | .fill i =>
    if (s.entry i).copy.type = .free then
      .panic "ilock: no type"
    else
      .ok ((s.set i { s.entry i with valid := true }).goto p .idle)
  | .iput i =>
    if (s.entry i).lock = none then
      .ok ({ s.set i { s.entry i with lock := some p } with itable := none }.goto p (.itrunc i))
    else
      -- it would sleep with `itable.lock`
      .panic "sched locks"
  | .itrunc i =>
    let d := (s.entry i).copy
    let empty := { d with addrs := fun j => if j ≤ NDIRECT then 0 else d.addrs j, size := 0 }
    .ok ((s.set i { s.entry i with copy := empty, changed := true }).goto p (.itruncUpdate i))
  | .itruncUpdate i => .ok ((s.iupdate i).goto p (.untype i))
  | .untype i =>
    let d := { (s.entry i).copy with type := .free }
    .ok ((s.set i { s.entry i with copy := d, changed := true }).goto p (.update i))
  | .update i => .ok ((s.iupdate i).goto p (.invalidate i))
  | .invalidate i => .ok ((s.set i { s.entry i with valid := false }).goto p (.release i))
  | .release i => .ok ((s.set i { s.entry i with lock := none }).goto p (.drop i))
  | .drop i => s.acquire (.ok ((s.dropRef p i).goto p .idle))

end State

/-- One step of process `e.1`. -/
def step (ninodes : ℕ) (s : State) (e : ℕ × Act) : Outcome State :=
  match e.2 with
  | .next => s.next ninodes e.1 (s.pc e.1)
  | a =>
    match s.pc e.1 with
    | .idle => s.call e.1 a
    | _ => .blocked

/-- What callers see to. -/
def Disciplined (s : State) (e : ℕ × Act) : Prop :=
  match e.2 with
  | .idup i => s.Holds e.1 i
  | .ilock i => s.Holds e.1 i
  | .iunlock i => (s.entry i).changed = false
  | .iput i =>
    (i, {e.1}) ∈ s.refs ∧
      ((s.entry i).lock = some e.1 →
        ({ s with refs := s.refs.erase (i, {e.1}) } : State).Holds e.1 i)
  | .iupdate i => (s.entry i).lock = some e.1
  | .change i d => (s.entry i).lock = some e.1 ∧ d.type = (s.entry i).copy.type
  | .share r _ => r ∈ s.refs ∧ e.1 ∈ r.2
  | .leave r =>
    r ∈ s.refs ∧ e.1 ∈ r.2 ∧ r.2 ≠ {e.1} ∧
      ((s.entry r.1).lock = some e.1 → ({ s with refs := s.refs.erase r } : State).Holds e.1 r.1)
  | _ => True

instance : (s : State) → (e : ℕ × Act) → Decidable (Disciplined s e)
  | _, (_, .iget ..) => inferInstanceAs (Decidable True)
  | s, (p, .idup i) => inferInstanceAs (Decidable (s.Holds p i))
  | s, (p, .ilock i) => inferInstanceAs (Decidable (s.Holds p i))
  | s, (_, .iunlock i) => inferInstanceAs (Decidable ((s.entry i).changed = false))
  | s, (p, .iput i) =>
    inferInstanceAs (Decidable ((i, {p}) ∈ s.refs ∧
      ((s.entry i).lock = some p → ({ s with refs := s.refs.erase (i, {p}) } : State).Holds p i)))
  | _, (_, .ialloc ..) => inferInstanceAs (Decidable True)
  | s, (p, .iupdate i) => inferInstanceAs (Decidable ((s.entry i).lock = some p))
  | s, (p, .change i d) =>
    inferInstanceAs (Decidable ((s.entry i).lock = some p ∧ d.type = (s.entry i).copy.type))
  | s, (p, .share r _) => inferInstanceAs (Decidable (r ∈ s.refs ∧ p ∈ r.2))
  | s, (p, .leave r) =>
    inferInstanceAs (Decidable (r ∈ s.refs ∧ p ∈ r.2 ∧ r.2 ≠ {p} ∧
      ((s.entry r.1).lock = some p → ({ s with refs := s.refs.erase r } : State).Holds p r.1)))
  | _, (_, .next) => inferInstanceAs (Decidable True)

/-- After `iinit`, with any disk. -/
def State.init (disk : ℕ × ℕ → Dinode) : State where
  entry _ := ⟨0, 0, 0, none, false, Dinode.zero, false⟩
  disk := disk
  itable := none
  pc _ := .idle
  refs := []

end Xv6.Itable
