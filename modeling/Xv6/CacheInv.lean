import Mathlib.Data.List.Perm.Basic
import Xv6.Log

/-!
# What the buffer cache keeps true

`CacheInv c refs pins` relates the cache to the `bread`s in progress (`refs`,
with how far each has come) and to the blocks pinned by the log (`pins`):
reference counts are exact, a sleep lock is held by the one `bread` that got
it, at most one buffer caches a block, a pinned block stays cached. `DataInv`
says what a valid buffer nobody is modifying holds. There is one lemma for each
cache operation; both predicates only depend on `refs` up to order.
-/

namespace Xv6

open List

/-- A `bread` in progress: its buffer and how far it has come. -/
abbrev Ref : Type := BufId × Stage

/-- References to buffer `i`. -/
def nref (refs : List Ref) (i : BufId) : ℕ := refs.countP fun r => r.1 = i

/-- References that hold the sleep lock of buffer `i`. -/
def nlock (refs : List Ref) (i : BufId) : ℕ := refs.countP fun r => r.1 = i ∧ r.2 ≠ .waiting

/-- Does buffer `i` cache block `b` of the root device? -/
def Caches (c : Bcache) (i : BufId) (b : ℕ) : Prop :=
  (c.buf i).dev = ROOTDEV ∧ (c.buf i).blockno = b

/-- The reference a pin contributes. -/
def npin (c : Bcache) (pins : List ℕ) (i : BufId) : ℕ :=
  if (c.buf i).dev = ROOTDEV ∧ (c.buf i).blockno ∈ pins then 1 else 0

/-- The cache's bookkeeping is exact. -/
structure CacheInv (c : Bcache) (refs : List Ref) (pins : List ℕ) : Prop where
  nodup : c.lru.Nodup
  all : ∀ i, i ∈ c.lru
  refcnt : ∀ i, (c.buf i).refcnt = nref refs i + npin c pins i
  locked : ∀ i, nlock refs i = if (c.buf i).locked then 1 else 0
  uniq : ∀ i j b, Caches c i b → Caches c j b → i = j
  dev : ∀ r ∈ refs, (c.buf r.1).dev = ROOTDEV
  valid : ∀ r ∈ refs, r.2 = .ready ∨ r.2 = .dirty → (c.buf r.1).valid = true
  pinned : ∀ b ∈ pins, ∃ i, Caches c i b ∧ (c.buf i).valid = true

/-- A valid buffer that is not being modified holds what it should. -/
def DataInv (c : Bcache) (refs : List Ref) (content : ℕ → Bytes) : Prop :=
  ∀ i, (c.buf i).dev = ROOTDEV → (c.buf i).valid = true → (i, Stage.dirty) ∉ refs →
    (c.buf i).data = content (c.buf i).blockno

/-! ## Counting references -/

@[simp] theorem nref_cons (r : Ref) (refs : List Ref) (i : BufId) :
    nref (r :: refs) i = nref refs i + if r.1 = i then 1 else 0 := by
  simp [nref, countP_cons]

@[simp] theorem nlock_cons (r : Ref) (refs : List Ref) (i : BufId) :
    nlock (r :: refs) i = nlock refs i + if r.1 = i ∧ r.2 ≠ .waiting then 1 else 0 := by
  simp [nlock, countP_cons]

theorem nlock_le_nref (refs : List Ref) (i : BufId) : nlock refs i ≤ nref refs i :=
  countP_mono_left fun r _ h => by
    simp only [decide_eq_true_eq] at h ⊢
    exact h.1

theorem nref_pos {refs : List Ref} {i : BufId} {st : Stage} (h : (i, st) ∈ refs) :
    0 < nref refs i :=
  countP_pos_iff.mpr ⟨_, h, by simp⟩

theorem nlock_pos {refs : List Ref} {i : BufId} {st : Stage} (h : (i, st) ∈ refs)
    (hst : st ≠ .waiting) : 0 < nlock refs i :=
  countP_pos_iff.mpr ⟨_, h, by simp [hst]⟩

namespace CacheInv

variable {c c' : Bcache} {refs refs' : List Ref} {pins pins' : List ℕ} {i j : BufId} {b : ℕ}
  {st st' : Stage}

theorem perm (h : CacheInv c refs pins) (hp : refs.Perm refs') : CacheInv c refs' pins where
  nodup := h.nodup
  all := h.all
  refcnt i := by rw [h.refcnt, nref, nref, hp.countP_eq]
  locked i := by rw [← h.locked, nlock, nlock, hp.countP_eq]
  uniq := h.uniq
  dev r hr := h.dev r (hp.mem_iff.mpr hr)
  valid r hr := h.valid r (hp.mem_iff.mpr hr)
  pinned := h.pinned

/-- Only which blocks are pinned matters. -/
theorem pins_congr (h : CacheInv c refs pins) (hp : ∀ b, b ∈ pins ↔ b ∈ pins') :
    CacheInv c refs pins' where
  nodup := h.nodup
  all := h.all
  refcnt i := by rw [h.refcnt, npin, npin]; simp only [hp]
  locked := h.locked
  uniq := h.uniq
  dev := h.dev
  valid := h.valid
  pinned b hb := h.pinned b ((hp b).mpr hb)

/-- Nobody else holds the lock of a buffer that one `bread` holds. -/
theorem nlock_rest (h : CacheInv c ((i, st) :: refs) pins) (hst : st ≠ .waiting) :
    nlock refs i = 0 := by
  have := h.locked i
  simp only [nlock_cons, true_and, hst, ne_eq, not_false_eq_true, if_true] at this
  split at this <;> omega

/-- A buffer one `bread` holds is not being modified by another. -/
theorem not_dirty (h : CacheInv c ((i, st) :: refs) pins) (hst : st ≠ .waiting) :
    (i, Stage.dirty) ∉ refs := fun hm =>
  absurd (nlock_pos hm (by decide)) (by rw [h.nlock_rest hst]; decide)

/-- A buffer that is not locked is not being modified. -/
theorem not_dirty_of_unlocked (h : CacheInv c refs pins) (hl : (c.buf i).locked = false) :
    (i, Stage.dirty) ∉ refs := fun hm => by
  have := h.locked i
  rw [hl, if_neg (by decide)] at this
  have := nlock_pos hm (by decide)
  omega

/-- Changing a buffer's contents, lock and validity, but not its reference
count nor what it caches, keeps the rest. -/
theorem set_same {nb : Buf} (h : CacheInv c refs pins) (hd : nb.dev = (c.buf i).dev)
    (hb : nb.blockno = (c.buf i).blockno) (hr : nb.refcnt = nref refs' i + npin c pins i)
    (hrefs : ∀ j ≠ i, nref refs' j = nref refs j) (hlocks : ∀ j ≠ i, nlock refs' j = nlock refs j)
    (hl : nlock refs' i = if nb.locked then 1 else 0)
    (hdev : ∀ r ∈ refs', (c.buf r.1).dev = ROOTDEV)
    (hv : (c.buf i).valid = true → nb.valid = true)
    (hvalid : ∀ r ∈ refs', r.2 = .ready ∨ r.2 = .dirty →
      ((c.set i nb).buf r.1).valid = true) :
    CacheInv (c.set i nb) refs' pins := by
  have hcaches : ∀ j b, Caches (c.set i nb) j b ↔ Caches c j b := by
    intro j b
    by_cases hj : j = i
    · subst hj
      simp [Caches, hd, hb]
    · simp [Caches, hj]
  have hpin : ∀ j, npin (c.set i nb) pins j = npin c pins j := by
    intro j
    by_cases hj : j = i
    · subst hj
      simp [npin, hd, hb]
    · simp [npin, hj]
  refine ⟨h.nodup, h.all, fun j => ?_, fun j => ?_, fun j k b hj hk => ?_, fun r hr => ?_,
    hvalid, fun b hb' => ?_⟩
  · rw [hpin]
    by_cases hj : j = i
    · subst hj
      rw [Bcache.set_buf_self, hr]
    · rw [Bcache.set_buf_ne _ _ hj, h.refcnt, hrefs j hj]
  · by_cases hj : j = i
    · subst hj
      rw [Bcache.set_buf_self, hl]
    · rw [Bcache.set_buf_ne _ _ hj, hlocks j hj, h.locked]
  · exact h.uniq j k b ((hcaches j b).mp hj) ((hcaches k b).mp hk)
  · by_cases hj : r.1 = i
    · have := hdev r hr
      rw [hj] at this ⊢
      rw [Bcache.set_buf_self, hd, this]
    · rw [Bcache.set_buf_ne _ _ hj]
      exact hdev r hr
  · obtain ⟨k, hk, hkv⟩ := h.pinned b hb'
    refine ⟨k, (hcaches k b).mpr hk, ?_⟩
    by_cases hj : k = i
    · subst hj
      rw [Bcache.set_buf_self]
      exact hv hkv
    · rw [Bcache.set_buf_ne _ _ hj]
      exact hkv

/-! ## The cache operations -/

/-- `bget` counts one more reference, to a buffer that caches the block. -/
theorem bget (h : CacheInv c refs pins) (hb : c.bget ROOTDEV b = some (i, c')) :
    CacheInv c' ((i, .waiting) :: refs) pins ∧ Caches c' i b := by
  obtain ⟨hc, rfl⟩ | ⟨hno, h0, rfl⟩ := Bcache.bget_cases hb
  · refine ⟨h.set_same rfl rfl ?_ ?_ ?_ ?_ ?_ id ?_, ?_⟩
    · simp [h.refcnt]
      omega
    · intro j hj
      simp [Ne.symm hj]
    · simp
    · simp [h.locked]
    · simpa [hc.1] using h.dev
    · intro r hr hst
      rcases mem_cons.mp hr with rfl | hr
      · simp at hst
      · have := h.valid r hr hst
        by_cases hri : r.1 = i
        · simpa [hri] using hri ▸ this
        · simpa [hri] using this
    · simpa [Caches] using hc
  · -- a recycled buffer had no reference and no pin
    have hcnt := h.refcnt i
    have hnr : nref refs i = 0 := by omega
    have hnp : npin c pins i = 0 := by omega
    have hnl : nlock refs i = 0 := Nat.le_zero.mp (hnr ▸ nlock_le_nref refs i)
    have hni : ∀ r ∈ refs, r.1 ≠ i := by
      rintro ⟨k, st⟩ hr hk
      have hki : k = i := hk
      have := nref_pos (hki ▸ hr)
      omega
    have hpins : b ∉ pins := fun hbp => by
      obtain ⟨k, hk, -⟩ := h.pinned b hbp
      exact hno k (h.all k) hk
    have hci : ∀ k b', k ≠ i → (Caches (c.set i
        { c.buf i with dev := ROOTDEV, blockno := b, valid := false, refcnt := 1 }) k b' ↔
        Caches c k b') := by
      intro k b' hk
      simp [Caches, hk]
    refine ⟨⟨h.nodup, h.all, fun j => ?_, fun j => ?_, fun j k b' hj hk => ?_, fun r hr => ?_,
      fun r hr hst => ?_, fun b' hb' => ?_⟩, ?_⟩
    · by_cases hj : j = i
      · subst hj
        simp [hnr, npin, hpins]
      · simp [hj, Ne.symm hj, h.refcnt, npin]
    · by_cases hj : j = i
      · subst hj
        have := h.locked j
        simp [hnl, ← this]
      · simp [hj, h.locked]
    · by_cases hji : j = i <;> by_cases hki : k = i
      · rw [hji, hki]
      · subst hji
        have hb' : b = b' := by simpa [Caches] using hj
        rw [hci k b' hki, ← hb'] at hk
        exact absurd hk (hno k (h.all k))
      · subst hki
        have hb' : b = b' := by simpa [Caches] using hk
        rw [hci j b' hji, ← hb'] at hj
        exact absurd hj (hno j (h.all j))
      · exact h.uniq j k b' ((hci j b' hji).mp hj) ((hci k b' hki).mp hk)
    · rcases mem_cons.mp hr with rfl | hr
      · simp
      · rw [Bcache.set_buf_ne _ _ (hni r hr)]
        exact h.dev r hr
    · rcases mem_cons.mp hr with rfl | hr
      · simp at hst
      · rw [Bcache.set_buf_ne _ _ (hni r hr)]
        exact h.valid r hr hst
    · obtain ⟨k, hk, hkv⟩ := h.pinned b' hb'
      have hki : k ≠ i := by
        rintro rfl
        rw [npin, if_pos ⟨hk.1, hk.2 ▸ hb'⟩] at hnp
        omega
      exact ⟨k, (hci k b' hki).mpr hk, by simpa [hki] using hkv⟩
    · simp [Caches]

/-- One `bread` moves on, changing its buffer but neither what it caches nor
its reference count. -/
theorem restage {nb : Buf} (h : CacheInv c ((i, st) :: refs) pins) (hd : nb.dev = (c.buf i).dev)
    (hb : nb.blockno = (c.buf i).blockno) (hr : nb.refcnt = (c.buf i).refcnt)
    (hl : nlock ((i, st') :: refs) i = if nb.locked then 1 else 0)
    (hv : (c.buf i).valid = true → nb.valid = true)
    (hst : st' = .ready ∨ st' = .dirty → nb.valid = true) :
    CacheInv (c.set i nb) ((i, st') :: refs) pins := by
  refine h.set_same hd hb ?_ (fun j hj => by simp) (fun j hj => by simp [Ne.symm hj]) hl ?_ hv ?_
  · rw [hr, h.refcnt]
    simp
  · intro r hr
    rcases mem_cons.mp hr with rfl | hr
    · exact h.dev (i, st) mem_cons_self
    · exact h.dev r (mem_cons_of_mem _ hr)
  · intro r hr hrst
    by_cases hri : r.1 = i
    · rw [hri, Bcache.set_buf_self]
      rcases mem_cons.mp hr with rfl | hr
      · exact hst hrst
      · exact hv (hri ▸ h.valid r (mem_cons_of_mem _ hr) hrst)
    · rw [Bcache.set_buf_ne _ _ hri]
      rcases mem_cons.mp hr with rfl | hr
      · exact absurd rfl hri
      · exact h.valid r (mem_cons_of_mem _ hr) hrst

/-- `acquiresleep` on a free lock. -/
theorem lock (h : CacheInv c ((i, .waiting) :: refs) pins) (hl : (c.buf i).locked = false) :
    CacheInv (c.set i { c.buf i with locked := true }) ((i, .locked) :: refs) pins := by
  have hlk := h.locked i
  rw [hl] at hlk
  have h0 : nlock refs i = 0 := by simpa using hlk
  exact h.restage rfl rfl rfl (by simp [h0]) id (by simp)

/-- The transfer at the end of `bread`. -/
theorem fetch (disk : ℕ → Bytes) (h : CacheInv c ((i, .locked) :: refs) pins) :
    CacheInv (fetch disk c i) ((i, .ready) :: refs) pins := by
  have hlk : nlock ((i, .ready) :: refs) i = if (c.buf i).locked then 1 else 0 := by
    simpa using h.locked i
  unfold Xv6.fetch
  split
  · rename_i hv
    have hset : CacheInv (c.set i (c.buf i)) ((i, .ready) :: refs) pins :=
      h.restage rfl rfl rfl hlk id fun _ => hv
    rwa [Bcache.set, Function.update_eq_self] at hset
  · exact h.restage rfl rfl rfl hlk (fun _ => rfl) fun _ => rfl

/-- Modifying the contents of a buffer one holds. -/
theorem setData (h : CacheInv c ((i, st) :: refs) pins) (hst : st = .ready ∨ st = .dirty)
    (hst' : st' = .ready ∨ st' = .dirty) (d : Bytes) :
    CacheInv (setData c i d) ((i, st') :: refs) pins := by
  have hv := h.valid (i, st) mem_cons_self hst
  have hlk : nlock ((i, st') :: refs) i = if (c.buf i).locked then 1 else 0 := by
    rw [← h.locked]
    rcases hst with rfl | rfl <;> rcases hst' with rfl | rfl <;> simp
  exact h.restage rfl rfl rfl hlk id fun _ => hv

/-- `log_write` and `bwrite` leave the cache itself alone. -/
theorem undirty (h : CacheInv c ((i, st) :: refs) pins) (hst : st = .ready ∨ st = .dirty)
    (hst' : st' = .ready ∨ st' = .dirty) : CacheInv c ((i, st') :: refs) pins := by
  have := h.setData hst hst' (c.buf i).data
  rwa [Xv6.setData, Bcache.set, Function.update_eq_self] at this

/-- `brelse` -/
theorem brelse (h : CacheInv c ((i, st) :: refs) pins) (hst : st ≠ .waiting) :
    CacheInv (c.brelse i) refs pins := by
  have h0 := h.nlock_rest hst
  have hcnt := h.refcnt i
  rw [nref_cons, if_pos rfl] at hcnt
  have hset : CacheInv (c.set i { c.buf i with locked := false, refcnt := (c.buf i).refcnt - 1 })
      refs pins := by
    refine h.set_same rfl rfl ?_ (fun j hj => by simp [Ne.symm hj])
      (fun j hj => by simp [Ne.symm hj]) (by simp [h0])
      (fun r hr => h.dev r (mem_cons_of_mem _ hr)) id ?_
    · show (c.buf i).refcnt - 1 = _
      omega
    · intro r hr hrst
      have := h.valid r (mem_cons_of_mem _ hr) hrst
      by_cases hri : r.1 = i
      · simpa [hri] using hri ▸ this
      · simpa [hri] using this
  unfold Bcache.brelse
  dsimp only
  split
  · exact { hset with
      nodup := nodup_cons.mpr ⟨h.nodup.not_mem_erase, h.nodup.erase i⟩
      all := fun j => by
        by_cases hj : j = i
        · exact hj ▸ mem_cons_self
        · exact mem_cons_of_mem _ ((mem_erase_of_ne hj).mpr (h.all j)) }
  · exact hset

/-- Pinning or unpinning the one block a buffer caches. -/
theorem repin {n : ℕ} (h : CacheInv c refs pins) (hc : Caches c i b)
    (hn : n = nref refs i + if b ∈ pins' then 1 else 0) (hp : ∀ x ≠ b, x ∈ pins' ↔ x ∈ pins)
    (hv : b ∈ pins' → (c.buf i).valid = true) :
    CacheInv (c.set i { c.buf i with refcnt := n }) refs pins' := by
  obtain ⟨hdev, hbno⟩ := hc
  have hbuf : ∀ j, ((c.set i { c.buf i with refcnt := n }).buf j).dev = (c.buf j).dev ∧
      ((c.set i { c.buf i with refcnt := n }).buf j).blockno = (c.buf j).blockno ∧
      ((c.set i { c.buf i with refcnt := n }).buf j).valid = (c.buf j).valid ∧
      ((c.set i { c.buf i with refcnt := n }).buf j).locked = (c.buf j).locked := by
    intro j
    by_cases hj : j = i
    · subst hj
      simp
    · simp [hj]
  have hcaches : ∀ j x, Caches (c.set i { c.buf i with refcnt := n }) j x ↔ Caches c j x := by
    intro j x
    simp only [Caches, hbuf]
  refine ⟨h.nodup, h.all, fun j => ?_, fun j => ?_, fun j k x hj hk => ?_, fun r hr => ?_,
    fun r hr hst => ?_, fun x hx => ?_⟩
  · by_cases hj : j = i
    · subst hj
      simp [npin, hdev, hbno, hn]
    · have hne : (c.buf j).dev = ROOTDEV → (c.buf j).blockno ≠ b := fun hd hbj =>
        hj (h.uniq j i b ⟨hd, hbj⟩ ⟨hdev, hbno⟩)
      have hpin : npin (c.set i { c.buf i with refcnt := n }) pins' j = npin c pins j := by
        simp only [npin, hbuf]
        exact if_congr (and_congr_right fun hd => hp _ (hne hd)) rfl rfl
      rw [hpin, Bcache.set_buf_ne _ _ hj, h.refcnt]
  · rw [(hbuf j).2.2.2, h.locked]
  · exact h.uniq j k x ((hcaches j x).mp hj) ((hcaches k x).mp hk)
  · rw [(hbuf r.1).1]
    exact h.dev r hr
  · rw [(hbuf r.1).2.2.1]
    exact h.valid r hr hst
  · by_cases hxb : x = b
    · subst hxb
      exact ⟨i, (hcaches i x).mpr ⟨hdev, hbno⟩, by rw [(hbuf i).2.2.1, hv hx]⟩
    · obtain ⟨k, hk, hkv⟩ := h.pinned x ((hp x hxb).mp hx)
      exact ⟨k, (hcaches k x).mpr hk, by rw [(hbuf k).2.2.1, hkv]⟩

/-- `bpin` of a valid buffer whose block is not pinned yet. -/
theorem bpin (h : CacheInv c refs pins) (hc : Caches c i b) (hv : (c.buf i).valid = true)
    (hb : b ∉ pins) (hp : ∀ x, x ∈ pins' ↔ x ∈ pins ∨ x = b) :
    CacheInv (c.bpin i) refs pins' := by
  have hcnt := h.refcnt i
  have hout : npin c pins i = 0 := by simp [npin, hc.2, hb]
  refine h.repin hc ?_ (fun x hx => by simp [hp, hx]) fun _ => hv
  rw [if_pos ((hp b).mpr (.inr rfl))]
  omega

/-- `bunpin` of the buffer of a pinned block. -/
theorem bunpin (h : CacheInv c refs pins) (hc : Caches c i b) (hb : b ∉ pins')
    (hp : ∀ x, x ∈ pins ↔ x ∈ pins' ∨ x = b) : CacheInv (c.bunpin i) refs pins' := by
  have hcnt := h.refcnt i
  have hin : npin c pins i = 1 := by simp [npin, hc.1, hc.2, hp]
  refine h.repin hc ?_ (fun x hx => by simp [hp, hx]) fun hm => absurd hm hb
  rw [if_neg hb]
  omega

end CacheInv

namespace DataInv

variable {c c' : Bcache} {refs refs' : List Ref} {content content' : ℕ → Bytes} {i : BufId}
  {b : ℕ} {st : Stage}

theorem perm (h : DataInv c refs content) (hp : refs.Perm refs') : DataInv c refs' content :=
  fun i hd hv hn => h i hd hv fun hm => hn (hp.mem_iff.mp hm)

/-- Operations that touch neither contents nor what is cached. -/
theorem same (h : DataInv c refs content)
    (hbuf : ∀ j, (c'.buf j).dev = (c.buf j).dev ∧ (c'.buf j).blockno = (c.buf j).blockno ∧
      (c'.buf j).valid = (c.buf j).valid ∧ (c'.buf j).data = (c.buf j).data)
    (hrefs : ∀ j, (j, Stage.dirty) ∈ refs → (j, Stage.dirty) ∈ refs') :
    DataInv c' refs' content := by
  intro j hd hv hn
  obtain ⟨h1, h2, h3, h4⟩ := hbuf j
  rw [h4, h2]
  exact h j (h1 ▸ hd) (h3 ▸ hv) fun hm => hn (hrefs j hm)

/-- Setting reference count and lock of one buffer is such an operation. -/
theorem set_same {nb : Buf} (h : DataInv c refs content) (hd : nb.dev = (c.buf i).dev)
    (hb : nb.blockno = (c.buf i).blockno) (hv : nb.valid = (c.buf i).valid)
    (hda : nb.data = (c.buf i).data)
    (hrefs : ∀ j, (j, Stage.dirty) ∈ refs → (j, Stage.dirty) ∈ refs') :
    DataInv (c.set i nb) refs' content := by
  refine h.same (fun j => ?_) hrefs
  by_cases hj : j = i
  · subst hj
    simp [hd, hb, hv, hda]
  · simp [hj]

theorem bget (h : DataInv c refs content) (hb : c.bget ROOTDEV b = some (i, c')) :
    DataInv c' ((i, .waiting) :: refs) content := by
  obtain ⟨-, rfl⟩ | ⟨-, -, rfl⟩ := Bcache.bget_cases hb
  · exact h.set_same rfl rfl rfl rfl fun j hj => mem_cons_of_mem _ hj
  · intro j hd hv hn
    by_cases hj : j = i
    · subst hj
      simp at hv
    · rw [Bcache.set_buf_ne _ _ hj] at hd hv ⊢
      exact h j hd hv fun hm => hn (mem_cons_of_mem _ hm)

/-- A fetched buffer holds what its block should hold, if the disk does. -/
theorem fetch {disk : ℕ → Bytes} (h : DataInv c ((i, .locked) :: refs) content)
    (hdisk : (c.buf i).valid = false → disk (c.buf i).blockno = content (c.buf i).blockno) :
    DataInv (fetch disk c i) ((i, .ready) :: refs) content := by
  have h' : DataInv c ((i, .ready) :: refs) content := fun j hd hv hn =>
    h j hd hv fun hm => hn (by simpa using hm)
  unfold Xv6.fetch
  split
  · exact h'
  · rename_i hv
    intro j hd hjv hn
    by_cases hj : j = i
    · subst hj
      simp only [Bcache.set_buf_self]
      exact hdisk (by simpa using hv)
    · rw [Bcache.set_buf_ne _ _ hj] at hd hjv ⊢
      exact h' j hd hjv hn

/-- A buffer being modified is exempt. -/
theorem setData (h : DataInv c ((i, st) :: refs) content) (d : Bytes) :
    DataInv (setData c i d) ((i, .dirty) :: refs) content := by
  intro j hd hv hn
  have hj : j ≠ i := fun hj => hn (hj ▸ mem_cons_self)
  rw [Xv6.setData, Bcache.set_buf_ne _ _ hj] at hd hv ⊢
  refine h j hd hv fun hm => hn ?_
  rcases mem_cons.mp hm with hm | hm
  · exact absurd (congrArg Prod.fst hm) hj
  · exact mem_cons_of_mem _ hm

/-- `log_write` and `bwrite`: the block now stands for the buffer's contents. -/
theorem undirty (h : DataInv c ((i, st) :: refs) content)
    (huniq : ∀ j, Caches c j (c.buf i).blockno → j = i)
    (hnew : content' (c.buf i).blockno = (c.buf i).data)
    (hold : ∀ x ≠ (c.buf i).blockno, content' x = content x) :
    DataInv c ((i, .ready) :: refs) content' := by
  intro j hd hv hn
  by_cases hj : j = i
  · rw [hj, hnew]
  · have hne : (c.buf j).blockno ≠ (c.buf i).blockno := fun hb => hj (huniq j ⟨hd, hb⟩)
    rw [hold _ hne]
    refine h j hd hv fun hm => hn ?_
    rcases mem_cons.mp hm with hm | hm
    · exact absurd (congrArg Prod.fst hm) hj
    · exact mem_cons_of_mem _ hm

theorem brelse (h : DataInv c ((i, st) :: refs) content) (hst : st ≠ .dirty) :
    DataInv (c.brelse i) refs content := by
  refine h.same (fun j => ?_) fun j hj => ?_
  · by_cases hj : j = i
    · subst hj
      simp
    · simp [hj]
  · rcases mem_cons.mp hj with hj | hj
    · exact absurd (congrArg Prod.snd hj).symm hst
    · exact hj

/-- Only the contents of cached blocks matter. -/
theorem content_congr (h : DataInv c refs content)
    (hc : ∀ i, (c.buf i).dev = ROOTDEV → (c.buf i).valid = true →
      content' (c.buf i).blockno = content (c.buf i).blockno) : DataInv c refs content' :=
  fun i hd hv hn => (h i hd hv hn).trans (hc i hd hv).symm

end DataInv

end Xv6
