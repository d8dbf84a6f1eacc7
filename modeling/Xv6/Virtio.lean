import Xv6.Machine
import Xv6.Param
import Xv6.Ring

/-!
# The virtio disk driver (`kernel/virtio_disk.c`)

The driver and the device share the descriptor table, the available ring, the
used ring and a status byte for each request. Any number of processes call
`virtio_disk_rw`, interrupts arrive at any time on any CPU, and the device takes
requests from the available ring and completes them in any order. A step of a
process is what it does between two points where the device can see the
difference, or where it waits; `vdisk_lock` is held where the code holds it.

`virtio_disk_rw` is called by `bread` and `bwrite`, which have the buffer locked.
`sleep` gives up `vdisk_lock` and is left when some `wakeup`, or `kkill`, has come
and the lock is free again. The numbers of requests, and `given`, `completed`,
`taken` and `processed`, are history, which no step of the driver looks at.
-/

namespace Xv6.Virtio

open Function

/-- `NUM` -/
def NUM : ℕ := 8

/-- `VRING_DESC_F_NEXT` -/
def VRING_DESC_F_NEXT : ℕ := 1

/-- `VRING_DESC_F_WRITE` -/
def VRING_DESC_F_WRITE : ℕ := 2

/-- `VIRTIO_BLK_T_IN` -/
def VIRTIO_BLK_T_IN : ℕ := 0

/-- `VIRTIO_BLK_T_OUT` -/
def VIRTIO_BLK_T_OUT : ℕ := 1

/-! ## The state -/

/-- The addresses the driver gives to the device. -/
inductive Addr : Type where
  | null
  /-- `&disk.ops[i]` -/
  | ops (i : ℕ)
  /-- `b->data` -/
  | data (b : ℕ)
  /-- `&disk.info[i].status` -/
  | status (i : ℕ)
  deriving DecidableEq

/-- `struct virtq_desc` -/
structure Desc where
  addr : Addr
  len : ℕ
  flags : ℕ
  next : ℕ
  deriving DecidableEq

/-- `struct virtio_blk_req` -/
structure BlkReq where
  type : ℕ
  reserved : ℕ
  sector : ℕ
  deriving DecidableEq

/-- An entry of `disk.info` -/
structure Info where
  b : Option ℕ
  status : UInt8
  deriving DecidableEq

/-- `int idx[3]` -/
structure Chain where
  head : ℕ
  mid : ℕ
  last : ℕ
  deriving DecidableEq

/-- The descriptors of a chain. -/
def Chain.toList (c : Chain) : List ℕ := [c.head, c.mid, c.last]

/-- The channels processes sleep on: `&disk.free[0]` and a buffer. -/
inductive Chan : Type where
  | free
  | buf (b : ℕ)
  deriving DecidableEq

/-- What `virtio_disk_rw` was called for. -/
structure Call where
  b : ℕ
  sector : ℕ
  write : Bool
  deriving DecidableEq

/-- Where a process, or a CPU that takes an interrupt, is. -/
inductive Pc : Type where
  /-- elsewhere -/
  | user
  /-- `virtio_disk_rw`, before it has the lock; also after `sleep(&disk.free[0], ..)` -/
  | rwAcquire (a : Call)
  /-- at `alloc3_desc` -/
  | rwAlloc (a : Call)
  /-- the three descriptors are allocated -/
  | rwFormat (a : Call) (idx : Chain)
  /-- they are formatted -/
  | rwRing (a : Call) (idx : Chain)
  /-- the chain is in the available ring -/
  | rwIdx (a : Call) (idx : Chain)
  /-- at the head of the loop over `b->disk`; the request has the number `n` -/
  | rwWait (a : Call) (idx : Chain) (n : ℕ)
  /-- in `sleep(b, ..)` -/
  | rwSleep (a : Call) (idx : Chain) (n : ℕ)
  /-- after the loop -/
  | rwFree (a : Call) (idx : Chain) (n : ℕ)
  /-- `virtio_disk_intr`, before it has the lock -/
  | intrAcquire
  /-- at the head of its loop -/
  | intrLoop
  deriving DecidableEq

/-- A process. -/
structure Process where
  pc : Pc
  /-- what it sleeps on -/
  chan : Option Chan

/-- History: a request, as it was counted by `avail->idx`. -/
structure Request where
  /-- the process -/
  p : ℕ
  a : Call
  idx : Chain
  deriving DecidableEq

structure State where
  desc : ℕ → Desc
  ops : ℕ → BlkReq
  info : ℕ → Info
  free : ℕ → Bool
  /-- `avail->ring` -/
  ring : ℕ → ℕ
  /-- `avail->idx` -/
  idx : BitVec 16
  /-- the `id`s of `used->ring` -/
  usedRing : ℕ → ℕ
  /-- `used->idx` -/
  usedIdx : BitVec 16
  /-- `disk.used_idx` -/
  used_idx : BitVec 16
  /-- who has `vdisk_lock` -/
  lock : Option ℕ
  /-- who has the sleep-lock of a buffer -/
  owner : ℕ → Option ℕ
  /-- `b->disk` -/
  disk : ℕ → Bool
  process : ℕ → Process
  /-- the device: how many entries of the available ring it has taken -/
  lastAvail : BitVec 16
  /-- the device: the chains it is working on, with the numbers of the requests -/
  pending : List (ℕ × ℕ)
  /-- the device: how many entries of the used ring it has written -/
  usedEnd : BitVec 16
  /-- history: the requests, in the order of the available ring -/
  given : List Request
  /-- history: how many of them the device has taken -/
  taken : ℕ
  /-- history: the numbers of the requests the device has completed, in order -/
  completed : List ℕ
  /-- history: how many completions `virtio_disk_intr` has processed -/
  processed : ℕ

namespace State

/-- `p` goes on at `pc`. -/
def goto (s : State) (p : ℕ) (pc : Pc) : State :=
  { s with process := update s.process p { s.process p with pc := pc } }

/-- `wakeup(chan)` -/
def wakeup (s : State) (chan : Chan) : State :=
  { s with process := fun p =>
      if (s.process p).chan = some chan then { s.process p with chan := none } else s.process p }

/-- `sleep(chan, &disk.vdisk_lock)` by `p`, which goes on at `pc` to have the lock again -/
def sleep (s : State) (p : ℕ) (chan : Chan) (pc : Pc) : State :=
  { s with
    lock := none
    process := update s.process p ⟨pc, some chan⟩ }

/-- `acquire(&disk.vdisk_lock)`, which a process that is asleep does not reach -/
def acquire (s : State) (p : ℕ) (pc : Pc) : Outcome State :=
  if s.lock = none ∧ (s.process p).chan = none then
    .ok ({ s with lock := some p }.goto p pc)
  else .blocked

/-- `release(&disk.vdisk_lock)`, and return -/
def leave (s : State) (p : ℕ) : State := { s with lock := none }.goto p .user

end State

/-! ## Descriptors -/

/-- `alloc_desc` -/
def alloc_desc (s : State) : Option (ℕ × State) :=
  match (List.range NUM).find? s.free with
  | some i => some (i, { s with free := update s.free i false })
  | none => none

/-- `free_desc` -/
def free_desc (s : State) (i : ℕ) : Outcome State :=
  if NUM ≤ i then .panic "free_desc 1"
  else if s.free i then .panic "free_desc 2"
  else .ok ({ s with
    desc := update s.desc i ⟨.null, 0, 0, 0⟩
    free := update s.free i true }.wakeup .free)

/-- The loop of `free_chain`, for at most so many descriptors. -/
def freeLoop : ℕ → State → ℕ → Outcome State
  | 0, _, _ => .blocked
  | fuel + 1, s, i =>
    let flag := (s.desc i).flags
    let nxt := (s.desc i).next
    match free_desc s i with
    | .ok s => if flag &&& VRING_DESC_F_NEXT ≠ 0 then freeLoop fuel s nxt else .ok s
    | r => r

/-- `free_chain`: it cannot free more than `NUM` descriptors without coming to a free one -/
def free_chain (s : State) (i : ℕ) : Outcome State := freeLoop (NUM + 1) s i

/-- `alloc3_desc`: the descriptors it gets, or none -/
def alloc3_desc (s : State) : Outcome (Option Chain × State) :=
  match alloc_desc s with
  | none => .ok (none, s)
  | some (i, s) =>
    match alloc_desc s with
    | none =>
      match free_desc s i with
      | .ok s => .ok (none, s)
      | .blocked => .blocked
      | .panic msg => .panic msg
    | some (j, s) =>
      match alloc_desc s with
      | some (k, s) => .ok (some ⟨i, j, k⟩, s)
      | none =>
        match free_desc s i with
        | .ok s =>
          match free_desc s j with
          | .ok s => .ok (none, s)
          | .blocked => .blocked
          | .panic msg => .panic msg
        | .blocked => .blocked
        | .panic msg => .panic msg

/-! ## The driver -/

/-- `virtio_disk_rw`: format the three descriptors, and record the buffer -/
def format (s : State) (a : Call) (idx : Chain) : State :=
  let desc := update s.desc idx.head
    ⟨.ops idx.head, 16, VRING_DESC_F_NEXT, idx.mid⟩
  let desc := update desc idx.mid
    ⟨.data a.b, BSIZE, (if a.write then 0 else VRING_DESC_F_WRITE) ||| VRING_DESC_F_NEXT, idx.last⟩
  let desc := update desc idx.last
    ⟨.status idx.head, 1, VRING_DESC_F_WRITE, 0⟩
  { s with
    ops := update s.ops idx.head
      ⟨if a.write then VIRTIO_BLK_T_OUT else VIRTIO_BLK_T_IN, 0, a.sector⟩
    desc := desc
    info := update s.info idx.head ⟨some a.b, 0xff⟩
    disk := update s.disk a.b true }

/-- One pass of the loop of `virtio_disk_intr`, or its end. -/
def intrLoop (s : State) (p : ℕ) : Outcome State :=
  if s.used_idx = s.usedIdx then .ok (s.leave p)
  else
    let id := s.usedRing (s.used_idx.toNat % NUM)
    if (s.info id).status ≠ 0 then .panic "virtio_disk_intr status"
    else
      match (s.info id).b with
      | none => .panic "kerneltrap"
      | some b =>
        .ok ({ s with
          disk := update s.disk b false
          used_idx := s.used_idx + 1#16
          processed := s.processed + 1 }.wakeup (.buf b))

/-- A step of a process, or of a CPU in an interrupt. -/
def advance (s : State) (p : ℕ) : Outcome State :=
  match (s.process p).pc with
  | .user => .blocked
  | .rwAcquire a => s.acquire p (.rwAlloc a)
  | .rwAlloc a =>
    match alloc3_desc s with
    | .ok (some idx, s) => .ok (s.goto p (.rwFormat a idx))
    | .ok (none, s) => .ok (s.sleep p .free (.rwAcquire a))
    | .blocked => .blocked
    | .panic msg => .panic msg
  | .rwFormat a idx => .ok ((format s a idx).goto p (.rwRing a idx))
  | .rwRing a idx => .ok ({ s with
      ring := update s.ring (s.idx.toNat % NUM) idx.head }.goto p (.rwIdx a idx))
  | .rwIdx a idx => .ok ({ s with
      idx := s.idx + 1#16
      given := s.given ++ [(⟨p, a, idx⟩ : Request)] }.goto p (.rwWait a idx s.given.length))
  | .rwWait a idx n =>
    if s.disk a.b then .ok (s.sleep p (.buf a.b) (.rwSleep a idx n))
    else .ok (s.goto p (.rwFree a idx n))
  | .rwSleep a idx n => s.acquire p (.rwWait a idx n)
  | .rwFree _ idx _ =>
    let s := { s with info := update s.info idx.head { s.info idx.head with b := none } }
    match free_chain s idx.head with
    | .ok s => .ok (s.leave p)
    | r => r
  | .intrAcquire => s.acquire p .intrLoop
  | .intrLoop => intrLoop s p

/-! ## The device -/

/-- The device takes the next entry of the available ring, if there is one. -/
def take (s : State) : Outcome State :=
  if s.lastAvail = s.idx then .blocked
  else .ok { s with
    lastAvail := s.lastAvail + 1#16
    pending := s.pending ++ [(s.ring (s.lastAvail.toNat % NUM), s.taken)]
    taken := s.taken + 1 }

/-- The device completes a request: it follows the chain, writes the status 0 where the last
descriptor points to, and writes an entry of the used ring. -/
def complete (s : State) (k : ℕ) : Outcome State :=
  match s.pending[k]? with
  | none => .blocked
  | some (head, n) =>
    let first := s.desc head
    let second := s.desc first.next
    let third := s.desc second.next
    if first.flags &&& VRING_DESC_F_NEXT = 0 ∨ second.flags &&& VRING_DESC_F_NEXT = 0 ∨
        third.flags &&& VRING_DESC_F_NEXT ≠ 0 then
      .panic "device: bad chain"
    else
      match first.addr, second.addr, third.addr with
      | .ops _, .data _, .status i => .ok { s with
          info := update s.info i { s.info i with status := 0 }
          usedRing := update s.usedRing (s.usedEnd.toNat % NUM) head
          usedEnd := s.usedEnd + 1#16
          pending := s.pending.eraseIdx k
          completed := s.completed ++ [n] }
      | _, _, _ => .panic "device: bad chain"

/-- The device makes `used->idx` count `n` more of the entries it has written. -/
def publish (s : State) (n : ℕ) : Outcome State :=
  if n ≤ (s.usedEnd - s.usedIdx).toNat then .ok { s with usedIdx := s.usedIdx + BitVec.ofNat 16 n }
  else .blocked

/-! ## The machine -/

inductive Event : Type where
  /-- `p` locks a buffer -/
  | acquiresleep (p b : ℕ)
  /-- `p` unlocks a buffer -/
  | releasesleep (p b : ℕ)
  /-- `p` calls `virtio_disk_rw` for a buffer that has this block number -/
  | rw (p b : ℕ) (blockno : BitVec 32) (write : Bool)
  /-- a CPU takes an interrupt -/
  | intr (p : ℕ)
  /-- `p` goes on -/
  | advance (p : ℕ)
  /-- `kkill` -/
  | kill (p : ℕ)
  | take
  | complete (k : ℕ)
  | publish (n : ℕ)

/-- The sector of a block. -/
def sector (blockno : BitVec 32) : ℕ := (blockno * BitVec.ofNat 32 (BSIZE / 512)).toNat

def step (s : State) : Event → Outcome State
  | .acquiresleep p b =>
    if s.owner b = none ∧ (s.process p).pc = .user then
      .ok { s with owner := update s.owner b (some p) }
    else .blocked
  | .releasesleep p b =>
    if s.owner b = some p ∧ (s.process p).pc = .user then
      .ok { s with owner := update s.owner b none }
    else .blocked
  | .rw p b blockno write =>
    if s.owner b = some p ∧ (s.process p).pc = .user then
      .ok (s.goto p (.rwAcquire ⟨b, sector blockno, write⟩))
    else .blocked
  | .intr p => if (s.process p).pc = .user then .ok (s.goto p .intrAcquire) else .blocked
  | .advance p => advance s p
  | .kill p => .ok { s with
      process := update s.process p { s.process p with chan := none } }
  | .take => take s
  | .complete k => complete s k
  | .publish n => publish s n

/-- After `virtio_disk_init`; the buffers are not locked. -/
def init (disk : ℕ → Bool) : State where
  desc := fun _ => ⟨.null, 0, 0, 0⟩
  ops := fun _ => ⟨0, 0, 0⟩
  info := fun _ => ⟨none, 0⟩
  free := fun _ => true
  ring := fun _ => 0
  idx := 0
  usedRing := fun _ => 0
  usedIdx := 0
  used_idx := 0
  lock := none
  owner := fun _ => none
  disk := disk
  process := fun _ => ⟨.user, none⟩
  lastAvail := 0
  pending := []
  usedEnd := 0
  given := []
  taken := 0
  completed := []
  processed := 0

end Xv6.Virtio
