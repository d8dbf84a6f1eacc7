import Mathlib.Data.List.Basic
import Mathlib.Data.Fintype.Basic
import Xv6.Bytes
import Xv6.Param

/-!
# The buffer cache (`kernel/bio.c`)

`NBUF` buffers in a list ordered by how recently each was released. The list
is kept here as the order of buffer numbers from `head.next` (most recent) to
`head.prev` (least recent). Each function below is one section of `bio.c` that
runs under `bcache.lock`: waiting for a buffer's sleep lock and the disk
transfer of `bread` are separate steps of the processes that use the cache.
-/

namespace Xv6

/-- `struct buf`; `locked` is the `locked` field of its sleep lock. -/
structure Buf where
  /-- has data been read from disk? -/
  valid : Bool
  /-- the device -/
  dev : ℕ
  /-- the block of the device -/
  blockno : ℕ
  /-- references: `bget`s not yet released, and pins -/
  refcnt : ℕ
  /-- is the sleep lock held? -/
  locked : Bool
  /-- the contents -/
  data : Bytes

/-- A buffer number. -/
abbrev BufId : Type := Fin NBUF

/-- `bcache`: the buffers and the list through `prev`/`next`. -/
structure Bcache where
  /-- the buffers -/
  buf : BufId → Buf
  /-- buffer numbers from `head.next` to `head.prev` -/
  lru : List BufId

namespace Bcache

/-- Replace the buffer numbered `i`. -/
def set (c : Bcache) (i : BufId) (b : Buf) : Bcache :=
  { c with buf := Function.update c.buf i b }

@[simp] theorem set_buf_self (c : Bcache) (i : BufId) (b : Buf) : (c.set i b).buf i = b :=
  Function.update_self ..

@[simp] theorem set_buf_ne (c : Bcache) {i j : BufId} (b : Buf) (h : j ≠ i) :
    (c.set i b).buf j = c.buf j :=
  Function.update_of_ne h ..

/-- `binit`: every buffer is put in front of the ones before it. The buffers
are zero, so they belong to device 0 until first used. -/
def binit : Bcache where
  buf _ := ⟨false, 0, 0, 0, false, fun _ => 0⟩
  lru := (List.finRange NBUF).reverse

/-- Does buffer `i` cache block `blockno` of device `dev`? -/
def caches (c : Bcache) (dev blockno : ℕ) (i : BufId) : Bool :=
  (c.buf i).dev == dev && (c.buf i).blockno == blockno

/-- The section of `bget` under `bcache.lock`: the cached buffer, or else the
least recently used one without references, recycled. `none` is
`panic("bget: no buffers")`. -/
def bget (c : Bcache) (dev blockno : ℕ) : Option (BufId × Bcache) :=
  match c.lru.find? (c.caches dev blockno) with
  | some i => some (i, c.set i { c.buf i with refcnt := (c.buf i).refcnt + 1 })
  | none =>
    match c.lru.reverse.find? (fun i => (c.buf i).refcnt == 0) with
    | some i =>
      some (i, c.set i { c.buf i with dev := dev, blockno := blockno, valid := false, refcnt := 1 })
    | none => none

/-- `brelse`: unlock, drop the reference, and move a buffer nobody waits for
to the front of the list. -/
def brelse (c : Bcache) (i : BufId) : Bcache :=
  let b := { c.buf i with locked := false, refcnt := (c.buf i).refcnt - 1 }
  if b.refcnt = 0 then { c.set i b with lru := i :: c.lru.erase i } else c.set i b

/-- `bpin` -/
def bpin (c : Bcache) (i : BufId) : Bcache :=
  c.set i { c.buf i with refcnt := (c.buf i).refcnt + 1 }

/-- `bunpin` -/
def bunpin (c : Bcache) (i : BufId) : Bcache :=
  c.set i { c.buf i with refcnt := (c.buf i).refcnt - 1 }

theorem caches_iff {c : Bcache} {dev blockno : ℕ} {i : BufId} :
    c.caches dev blockno i = true ↔ (c.buf i).dev = dev ∧ (c.buf i).blockno = blockno := by
  simp [caches]

/-- What `bget` can do: find the block, or recycle an unreferenced buffer when
no buffer of the list caches the block. -/
theorem bget_cases {c c' : Bcache} {dev blockno : ℕ} {i : BufId}
    (h : c.bget dev blockno = some (i, c')) :
    (((c.buf i).dev = dev ∧ (c.buf i).blockno = blockno) ∧
      c' = c.set i { c.buf i with refcnt := (c.buf i).refcnt + 1 }) ∨
    ((∀ j ∈ c.lru, ¬((c.buf j).dev = dev ∧ (c.buf j).blockno = blockno)) ∧
      (c.buf i).refcnt = 0 ∧
      c' = c.set i
        { c.buf i with dev := dev, blockno := blockno, valid := false, refcnt := 1 }) := by
  unfold bget at h
  rcases hf : c.lru.find? (c.caches dev blockno) with _ | j
  · rw [hf] at h
    rcases hr : c.lru.reverse.find? (fun i => (c.buf i).refcnt == 0) with _ | k
    · simp [hr] at h
    · simp only [hr, Option.some.injEq, Prod.mk.injEq] at h
      obtain ⟨rfl, rfl⟩ := h
      refine .inr ⟨fun j hj hc => ?_, ?_, rfl⟩
      · exact List.find?_eq_none.mp hf j hj (caches_iff.mpr hc)
      · simpa using List.find?_some hr
  · simp only [hf, Option.some.injEq, Prod.mk.injEq] at h
    obtain ⟨rfl, rfl⟩ := h
    exact .inl ⟨caches_iff.mp (List.find?_some hf), rfl⟩

/-- `bget` panics exactly when the block is not cached and every buffer is
referenced. -/
theorem bget_eq_none {c : Bcache} {dev blockno : ℕ} :
    c.bget dev blockno = none ↔
      (∀ j ∈ c.lru, ¬((c.buf j).dev = dev ∧ (c.buf j).blockno = blockno)) ∧
      ∀ j ∈ c.lru, (c.buf j).refcnt ≠ 0 := by
  unfold bget
  rcases hf : c.lru.find? (c.caches dev blockno) with _ | j
  · have hno : ∀ j ∈ c.lru, ¬((c.buf j).dev = dev ∧ (c.buf j).blockno = blockno) :=
      fun j hj hc => List.find?_eq_none.mp hf j hj (caches_iff.mpr hc)
    rcases hr : c.lru.reverse.find? (fun i => (c.buf i).refcnt == 0) with _ | k
    · have hall : ∀ j ∈ c.lru, (c.buf j).refcnt ≠ 0 := fun j hj h0 =>
        List.find?_eq_none.mp hr j (List.mem_reverse.mpr hj) (by simpa using h0)
      simpa using ⟨fun j hj hd hb => hno j hj ⟨hd, hb⟩, hall⟩
    · have hk : k ∈ c.lru := List.mem_reverse.mp (List.mem_of_find?_eq_some hr)
      have h0 : (c.buf k).refcnt = 0 := by simpa using List.find?_some hr
      simp only [reduceCtorEq, false_iff]
      exact fun h => h.2 k hk h0
  · have hj : j ∈ c.lru := List.mem_of_find?_eq_some hf
    simp only [reduceCtorEq, false_iff]
    exact fun h => h.1 j hj (caches_iff.mp (List.find?_some hf))

@[simp] theorem brelse_buf_ne (c : Bcache) {i j : BufId} (h : j ≠ i) :
    (c.brelse i).buf j = c.buf j := by
  unfold brelse
  dsimp only
  split <;> exact set_buf_ne c _ h

@[simp] theorem brelse_buf_self (c : Bcache) (i : BufId) :
    (c.brelse i).buf i = { c.buf i with locked := false, refcnt := (c.buf i).refcnt - 1 } := by
  unfold brelse
  dsimp only
  split <;> exact set_buf_self c i _

end Bcache

end Xv6
