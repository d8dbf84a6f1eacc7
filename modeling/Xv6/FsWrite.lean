import Mathlib.Data.Finset.Union
import Mathlib.Order.Interval.Finset.Nat
import Xv6.FsAlloc

/-!
# Writing files

`writei` writes block by block. A block of data is no block of another file and
no indirect block, so that writing to it changes the bytes of one file
(`byteAt_write`). The loop is then described by how far it gets (`Wrote`) and why
it stops (`Stops`): everything is written, there is no free block, or the source
cannot be copied.
-/

namespace Xv6.Fs

open Function

open Prog

variable {sb : Superblock} {D : ℕ → Dinode} {i j k b m n off tot : ℕ} {K L : Finset ℕ}
  {s t u : State} {src : Bytes} {limit : Option ℕ}

/-! ## One block -/

/-- Two positions of one block. -/
theorem div_eq_iff {pos : ℕ} (hpos : pos / BSIZE = off / BSIZE) :
    (off ≤ pos ∧ pos < off + m) ↔
      (off % BSIZE ≤ pos % BSIZE ∧ pos % BSIZE < off % BSIZE + m) := by
  have h1 := Nat.div_add_mod pos BSIZE
  have h2 := Nat.div_add_mod off BSIZE
  rw [hpos] at h1
  omega

theorem div_eq_of_lt {pos : ℕ} (h : off % BSIZE + m ≤ BSIZE) (hle : off ≤ pos)
    (hlt : pos < off + m) : pos / BSIZE = off / BSIZE := by
  have h1 := Nat.div_add_mod pos BSIZE
  have h2 := Nat.div_add_mod off BSIZE
  have hle' : off / BSIZE ≤ pos / BSIZE := Nat.div_le_div_right hle
  rcases Nat.eq_or_lt_of_le hle' with heq | hlt'
  · exact heq.symm
  · have := Nat.mul_le_mul_left BSIZE (Nat.succ_le_of_lt hlt')
    rw [Nat.mul_succ] at this
    omega

/-- **A block of data is in the slots of no other inode,** and is no indirect block. -/
theorem Sound.slot_write (h : Sound sb D i s) {data : Bytes} (hk : k < NSLOT) (hkd : k ≠ NDIRECT)
    (h0 : slot s.block (s.inode i).copy k ≠ 0) (hj : j < sb.ninodes) (k' : ℕ) :
    slot (update s.block (slot s.block (s.inode i).copy k) data) (current D i s j) k' =
      slot s.block (current D i s j) k' := by
  obtain ⟨used, hrefs, -⟩ := h.refs
  refine Fs.slot_write (fun _ => ?_) k'
  have := hrefs.data_ne h.inum_lt hk hkd (by rwa [current_self]) hj
  rwa [current_self] at this

theorem Sound.slot_write_self (h : Sound sb D i s) {data : Bytes} (hk : k < NSLOT)
    (hkd : k ≠ NDIRECT) (h0 : slot s.block (s.inode i).copy k ≠ 0) (k' : ℕ) :
    slot (update s.block (slot s.block (s.inode i).copy k) data) (s.inode i).copy k' =
      slot s.block (s.inode i).copy k' := by
  have hslot : slot (update s.block (slot s.block (s.inode i).copy k) data)
      (current D i s (s.inode i).inum) k' = _ := h.slot_write hk hkd h0 h.inum_lt k'
  rwa [current_self] at hslot

/-- **Bytes are written to a block of a file:** the bytes of this file change, and no others. -/
theorem Sound.byteAt_write (h : Sound sb D i s) (hbn : off / BSIZE < MAXFILE)
    (h0 : addrOf s.block (s.inode i).copy (off / BSIZE) ≠ 0) (hm : off % BSIZE + m ≤ BSIZE)
    (hj : j < sb.ninodes) {pos : ℕ} (hpos : pos / BSIZE < MAXFILE) :
    byteAt (update s.block (addrOf s.block (s.inode i).copy (off / BSIZE))
        (memmove (s.block (addrOf s.block (s.inode i).copy (off / BSIZE))) (off % BSIZE) src tot m))
      (current D i s j) pos =
      if j = (s.inode i).inum ∧ off ≤ pos ∧ pos < off + m then src (tot + (pos - off))
      else byteAt s.block (current D i s j) pos := by
  obtain ⟨used, hrefs, -⟩ := h.refs
  set d := (s.inode i).copy
  set addr := addrOf s.block d (off / BSIZE)
  have hself : slot s.block (current D i s (s.inode i).inum) (dataSlot (off / BSIZE)) = addr := by
    rw [current_self]
    rfl
  have hslot : addrOf (update s.block addr
      (memmove (s.block addr) (off % BSIZE) src tot m)) (current D i s j) (pos / BSIZE) =
      addrOf s.block (current D i s j) (pos / BSIZE) :=
    h.slot_write (dataSlot_lt hbn) (dataSlot_ne _) h0 hj _
  unfold byteAt fileByte
  rw [hslot]
  by_cases hthis : addrOf s.block (current D i s j) (pos / BSIZE) = addr
  · obtain ⟨hinum, hsame⟩ := hrefs.once _ h.inum_lt _ (dataSlot_lt hbn) j hj _ (dataSlot_lt hpos)
      (by rw [hself]; exact h0) (by rw [hself]; exact hthis.symm)
    have hblock := dataSlot_inj hsame
    rw [hthis, if_neg h0, update_self, if_neg h0, memmove]
    have hiff := div_eq_iff (m := m) hblock.symm
    by_cases hin : off ≤ pos ∧ pos < off + m
    · have h1 := Nat.div_add_mod pos BSIZE
      have h2 := Nat.div_add_mod off BSIZE
      rw [← hblock] at h1
      rw [if_pos (hiff.mp hin), if_pos ⟨hinum.symm, hin⟩]
      congr 2
      omega
    · rw [if_neg (mt hiff.mpr hin), if_neg fun hc => hin hc.2]
  · have hout : ¬(j = (s.inode i).inum ∧ off ≤ pos ∧ pos < off + m) := by
      rintro ⟨rfl, hle, hlt⟩
      rw [div_eq_of_lt hm hle hlt] at hthis
      exact hthis hself
    rw [update_of_ne hthis, if_neg hout]

/-! ## The loop -/

/-- The slots that are needed to write `n` bytes at `off`. -/
def needed (off n : ℕ) : Finset ℕ :=
  (Finset.Ico off (off + n)).biUnion fun pos => slotsFor (pos / BSIZE)

/-- Those of them that have no block yet. -/
def missing (block : ℕ → Bytes) (d : Dinode) (off n : ℕ) : Finset ℕ :=
  (needed off n).filter fun k => slot block d k = 0

/-- **So much is written** of the source, at `off` of entry `i`. -/
structure Wrote (sb : Superblock) (D : ℕ → Dinode) (i : ℕ) (src : Bytes) (off : ℕ) (K : Finset ℕ)
    (tot : ℕ) (s t : State) : Prop extends Allocates sb D i K s t where
  bytes : ∀ j < sb.ninodes, ∀ pos, pos / BSIZE < MAXFILE →
    byteAt t.block (current D i t j) pos =
      if j = (s.inode i).inum ∧ off ≤ pos ∧ pos < off + tot then src (pos - off)
      else byteAt s.block (current D i s j) pos
  present : ∀ pos, off ≤ pos → pos < off + tot →
    addrOf t.block (t.inode i).copy (pos / BSIZE) ≠ 0
  coherent : Coherent s → Coherent t

namespace Wrote

theorem zero (h : Sound sb D i s) : Wrote sb D i src off ∅ 0 s s where
  toAllocates := Allocates.refl h
  bytes j hj pos hpos := by rw [if_neg (by omega)]
  present pos hle hlt := by omega
  coherent := id

/-- Blocks are allocated for what is written next. -/
theorem grow (h : Wrote sb D i src off K tot s t) (h' : Grown sb D i L t u)
    (hmax : off + tot ≤ MAXFILE * BSIZE) : Wrote sb D i src off (K ∪ L) tot s u where
  toAllocates := h.toAllocates.trans h'.toAllocates
  bytes j hj pos hpos := (h'.bytes j hj pos hpos).trans (h.bytes j hj pos hpos)
  present pos hle hlt := by
    have hne := h.present pos hle hlt
    have hbn : pos / BSIZE < MAXFILE := div_lt_MAXFILE (by omega)
    rwa [addrOf, h'.keeps (dataSlot_lt hbn) hne]
  coherent hs := h'.coherent (h.coherent hs)

end Wrote

/-- Entry `i` has a block for `pos`, and part of it is written. -/
theorem Sound.allocates_write (h : Sound sb D i s) {data : Bytes} (hbn : off / BSIZE < MAXFILE)
    (h0 : addrOf s.block (s.inode i).copy (off / BSIZE) ≠ 0)
    (hblock : t.block =
      update s.block (addrOf s.block (s.inode i).copy (off / BSIZE)) data)
    (hinode : t.inode = s.inode) (hdinode : t.dinode = s.dinode) (hhome : t.home = s.home)
    (hbitmap : t.bitmap = s.bitmap) : Allocates sb D i ∅ s t := by
  have hcurrent : current D i t = current D i s := by rw [current, current, hinode]
  have hslot : ∀ j < sb.ninodes, ∀ k', slot t.block (current D i s j) k' =
      slot s.block (current D i s j) k' := by
    intro j hj k'
    rw [hblock]
    exact h.slot_write (dataSlot_lt hbn) (dataSlot_ne _) h0 hj k'
  obtain ⟨used, hrefs, hused⟩ := h.refs
  refine ⟨⟨fun _ _ => by rw [hinode], ⟨_, by rw [hinode]⟩, hdinode, hhome⟩,
    ⟨by rw [hinode]; exact h.inum_lt, ⟨used, ?_, by rw [hbitmap]; exact hused⟩,
      by rw [hbitmap]; exact h.low, h.size_le⟩, fun k' _ _ => ?_,
    fun _ hk => absurd hk (Finset.notMem_empty _), fun j hj hne k' _ => ?_, by rw [hbitmap]; simp⟩
  · rw [hcurrent]
    exact hrefs.congr (fun j hj k' _ => hslot j hj k') fun _ _ => Iff.rfl
  · rw [hinode, hblock]
    exact h.slot_write_self (dataSlot_lt hbn) (dataSlot_ne _) h0 k'
  · have := hslot j hj k'
    rwa [current_of_ne hne] at this

/-- The state after a part of a block is written. -/
def copiedTo (s : State) (i off : ℕ) (src : Bytes) (tot m : ℕ) : State :=
  let addr := addrOf s.block (s.inode i).copy (off / BSIZE)
  s.setBlock addr (memmove (s.block addr) (off % BSIZE) src tot m)

/-- The bytes of one round are written, and logged. -/
theorem Wrote.write (h : Wrote sb D i src off K tot s u)
    (hmax : off + tot + m ≤ MAXFILE * BSIZE) (hpos : 0 < m)
    (h0 : addrOf u.block (u.inode i).copy ((off + tot) / BSIZE) ≠ 0)
    (hm : (off + tot) % BSIZE + m ≤ BSIZE)
    (ht : t = { copiedTo u i (off + tot) src tot m with
      trace := .log_write (.data (addrOf u.block (u.inode i).copy ((off + tot) / BSIZE))) :: u.trace
      pinned := update u.pinned
        (addrOf u.block (u.inode i).copy ((off + tot) / BSIZE)) true }) :
    Wrote sb D i src off K (tot + m) s t := by
  have hbn : (off + tot) / BSIZE < MAXFILE := div_lt_MAXFILE (by omega)
  have halloc : Allocates sb D i ∅ u t := by
    subst ht
    exact h.sound.allocates_write hbn h0 rfl rfl rfl rfl rfl
  have htrans := h.toAllocates.trans halloc
  rw [Finset.union_empty] at htrans
  refine ⟨htrans, fun j hj pos hposm => ?_, fun pos hle hlt => ?_, fun hs => ?_⟩
  · have hcurrent : current D i t j = current D i u j := by rw [ht]; rfl
    have hbytes := h.bytes j hj pos hposm
    rw [hcurrent, ht]
    refine (h.sound.byteAt_write hbn h0 hm hj hposm).trans ?_
    rw [h.inum]
    by_cases hnew : j = (s.inode i).inum ∧ off + tot ≤ pos ∧ pos < off + tot + m
    · rw [if_pos hnew, if_pos ⟨hnew.1, by omega, by omega⟩]
      congr 1
      omega
    · rw [if_neg hnew, hbytes]
      by_cases hold : j = (s.inode i).inum ∧ off ≤ pos ∧ pos < off + tot
      · rw [if_pos hold, if_pos ⟨hold.1, hold.2.1, by omega⟩]
      · rw [if_neg hold, if_neg fun hc => ?_]
        rcases Nat.lt_or_ge pos (off + tot) with hlt | hge
        · exact hold ⟨hc.1, hc.2.1, hlt⟩
        · exact hnew ⟨hc.1, hge, by omega⟩
  · have hposm : pos / BSIZE < MAXFILE := div_lt_MAXFILE (by omega)
    have hne : addrOf u.block (u.inode i).copy (pos / BSIZE) ≠ 0 := by
      rcases Nat.lt_or_ge pos (off + tot) with hlt' | hge
      · exact h.present pos hle hlt'
      · rwa [div_eq_of_lt hm hge (by omega)]
    rwa [addrOf, halloc.keeps (dataSlot_lt hposm) hne]
  · subst ht
    exact (h.coherent hs).write rfl rfl rfl

/-- **Why `writei` stops,** after so many bytes. -/
inductive Stops (sb : Superblock) (D : ℕ → Dinode) (i : ℕ) (src : Bytes) (limit : Option ℕ)
    (off n : ℕ) (s : State) : ℕ → State → Prop where
  /-- everything is written -/
  | all {K : Finset ℕ} {t : State} (h : Wrote sb D i src off K n s t) (hreach : reaches limit n) :
    Stops sb D i src limit off n s n t
  /-- there is no free block -/
  | full {K : Finset ℕ} {tot : ℕ} {t : State} (h : Wrote sb D i src off K tot s t) (hlt : tot < n)
      (hneeded : K ⊆ needed off n) (hnone : freeBlocks sb t.bitmap = ∅) (hreach : reaches limit tot)
      (h0 : addrOf t.block (t.inode i).copy ((off + tot) / BSIZE) = 0) :
    Stops sb D i src limit off n s tot t
  /-- the source cannot be copied: part of a block is written, but not logged -/
  | fault {K : Finset ℕ} {tot c : ℕ} {u : State} (h : Wrote sb D i src off K tot s u)
      (hlt : tot < n) (hstart : tot = 0 ∨ (off + tot) % BSIZE = 0)
      (h0 : addrOf u.block (u.inode i).copy ((off + tot) / BSIZE) ≠ 0)
      (hreach : reaches limit tot)
      (hc : c = accessible limit tot (min (n - tot) (BSIZE - (off + tot) % BSIZE)))
      (hne : c ≠ min (n - tot) (BSIZE - (off + tot) % BSIZE)) :
    Stops sb D i src limit off n s tot (copiedTo u i (off + tot) src tot c)

theorem dataSlot_mem (bn : ℕ) : dataSlot bn ∈ slotsFor bn := by
  rw [slotsFor]
  split_ifs with hdirect
  · rw [dataSlot, if_pos hdirect]
    exact Finset.mem_singleton_self _
  · exact Finset.mem_insert_of_mem (Finset.mem_singleton_self _)

/-- A block that is there has all its slots. -/
theorem slot_ne_zero_of_mem {block : ℕ → Bytes} {d : Dinode} {bn : ℕ} (hk : k ∈ slotsFor bn)
    (hbn : bn < MAXFILE) (h0 : addrOf block d bn ≠ 0) : k < NSLOT ∧ slot block d k ≠ 0 := by
  have hlt := dataSlot_lt hbn
  rw [slotsFor] at hk
  split_ifs at hk with hdirect
  · obtain rfl := Finset.mem_singleton.mp hk
    rw [addrOf, dataSlot, if_pos hdirect] at *
    exact ⟨hlt, h0⟩
  · rcases Finset.mem_insert.mp hk with rfl | hk
    · refine ⟨by decide, fun hind => h0 ?_⟩
      rw [slot_direct (le_refl _)] at hind
      rw [addrOf, dataSlot, if_neg hdirect, slot, if_neg (by omega), if_pos hind]
    · obtain rfl := Finset.mem_singleton.mp hk
      exact ⟨hlt, h0⟩

theorem slotsFor_subset {pos : ℕ} (hle : off ≤ pos) (hlt : pos < off + n) :
    slotsFor (pos / BSIZE) ⊆ needed off n := by
  intro k hk
  exact Finset.mem_biUnion.mpr ⟨pos, Finset.mem_Ico.mpr ⟨hle, hlt⟩, hk⟩

/-- The slots that got a block are not all that were missing, if one is still missing when there is
no free block. -/
theorem Allocates.exhausted (h : Allocates sb D i K s t) (hneeded : K ⊆ needed off n)
    (hnone : freeBlocks sb t.bitmap = ∅) {pos : ℕ} (hle : off ≤ pos) (hlt : pos < off + n)
    (hmax : off + n ≤ MAXFILE * BSIZE)
    (h0 : addrOf t.block (t.inode i).copy (pos / BSIZE) = 0) :
    (freeBlocks sb s.bitmap).card < (missing s.block (s.inode i).copy off n).card := by
  have hbn : pos / BSIZE < MAXFILE := div_lt_MAXFILE (by omega)
  have hcard := h.free
  rw [hnone, Finset.card_empty, Nat.zero_add] at hcard
  have hnot : dataSlot (pos / BSIZE) ∉ K := fun hk => (h.filled _ hk).2.2 h0
  rw [← hcard]
  refine Finset.card_lt_card ((Finset.ssubset_iff_of_subset fun k hk =>
    Finset.mem_filter.mpr ⟨hneeded hk, (h.filled k hk).2.1⟩).mpr
    ⟨_, Finset.mem_filter.mpr ⟨slotsFor_subset hle hlt (dataSlot_mem _), ?_⟩, hnot⟩)
  rw [← h.slots _ (dataSlot_lt hbn) hnot]
  exact h0

/-- **The loop of `writei`.** -/
theorem meets_writeiLoop {fuel : ℕ} {E : String → Prop} (hmax : off + n ≤ MAXFILE * BSIZE)
    (hfuel : n - tot ≤ fuel) (htot : tot ≤ n) (hreach : reaches limit tot) (hK : K ⊆ needed off n)
    (hstart : tot < n → tot = 0 ∨ (off + tot) % BSIZE = 0) (h : Wrote sb D i src off K tot s t) :
    Meets (writeiLoop sb i src limit n fuel (off + tot) tot) t
      (Stops sb D i src limit off n s) E := by
  induction fuel generalizing tot K t with
  | zero =>
    have heq : tot = n := by omega
    subst heq
    exact .all h hreach
  | succ fuel ih =>
    rw [writeiLoop]
    by_cases hlt : tot < n
    · have hmod : (off + tot) % BSIZE < BSIZE := Nat.mod_lt _ (by decide)
      have hbn : (off + tot) / BSIZE < MAXFILE := div_lt_MAXFILE (by omega)
      rw [if_pos hlt, meets_bind]
      refine (meets_bmap_grown h.sound hbn).imp fun addr u hu => ?_
      obtain ⟨L, hL, hgrown, haddr, hnone⟩ := hu
      have hwrote := h.grow hgrown (by omega)
      have hsub : K ∪ L ⊆ needed off n :=
        Finset.union_subset hK (hL.trans (slotsFor_subset (Nat.le_add_right _ _) (by omega)))
      by_cases hz : addr = 0
      · rw [if_pos hz, meets_pure]
        exact .full hwrote hlt hsub (hnone hz) hreach (haddr.trans hz)
      · rw [if_neg hz]
        have hne : addrOf u.block (u.inode i).copy ((off + tot) / BSIZE) ≠ 0 := by
          rw [addrOf, haddr]
          exact hz
        set m := min (n - tot) (BSIZE - (off + tot) % BSIZE)
        rw [meets_bind, meets_modify, ← haddr]
        by_cases hcopy : accessible limit tot m = m
        · rw [if_neg (not_not.mpr hcopy), hcopy, log_write, meets_bind, meets_bind, note,
            meets_modify, meets_modify, Nat.add_assoc]
          -- the next round starts with a block
          have hnext (hlt' : tot + m < n) : tot + m = 0 ∨ (off + (tot + m)) % BSIZE = 0 := by
            have heq : off + (tot + m) = BSIZE * ((off + tot) / BSIZE + 1) := by
              have := Nat.div_add_mod (off + tot) BSIZE
              rw [Nat.mul_add]
              omega
            exact .inr (by rw [heq, Nat.mul_mod_right])
          exact ih (by omega) (by omega) ((accessible_eq (by omega)).mp hcopy) hsub hnext
            (hwrote.write (m := m) (by omega) (by omega) hne (by omega) rfl)
        · rw [if_pos hcopy, meets_pure]
          exact .fault hwrote hlt (hstart hlt) hne hreach rfl hcopy
    · have heq : tot = n := by omega
      rw [if_neg hlt, meets_pure]
      subst heq
      exact .all h hreach

/-! ## `writei` -/

/-- The state after `writei` sets the size, and updates the inode on disk. -/
def resized (s : State) (i size : ℕ) : State :=
  let ip := { s.inode i with copy := { (s.inode i).copy with size := size } }
  { (s.setInode i ip).setDinode ip.inum ip.copy with
    trace := .log_write (.inodes (ip.inum / IPB)) :: s.trace }

theorem setInode_self (s : State) (i : ℕ) : s.setInode i (s.inode i) = s := by
  rw [State.setInode, update_eq_self]

/-- `writei` rejects the offset, or the number of bytes. -/
theorem meets_writei_fail {Q : ℤ → State → Prop} {E : String → Prop}
    (hbad : (s.inode i).copy.size < off ∨ (off + n) % 2 ^ 32 < off ∨ MAXFILE * BSIZE < off + n) :
    Meets (writei sb i src limit off n) s Q E ↔ Q (-1) s := by
  rw [writei, meets_bind, meets_copyOf]
  by_cases hoff : (s.inode i).copy.size < off ∨ (off + n) % 2 ^ 32 < off
  · rw [if_pos hoff, meets_pure]
  · rw [if_neg hoff, if_pos (by omega), meets_pure]

/-- **`writei` writes until it stops.** -/
theorem meets_writei {E : String → Prop} (h : Sound sb D i s) (hoff : off ≤ (s.inode i).copy.size)
    (hmax : off + n ≤ MAXFILE * BSIZE) :
    Meets (writei sb i src limit off n) s (fun r t => ∃ (tot : ℕ) (u : State), r = tot ∧
      Stops sb D i src limit off n s tot u ∧
      t = resized u i (max (s.inode i).copy.size (off + tot))) E := by
  have hbig : MAXFILE * BSIZE < 2 ^ 32 := by decide
  rw [writei, meets_bind, meets_copyOf, if_neg, if_neg (Nat.not_lt.mpr hmax), meets_bind]
  · have hloop : Meets (writeiLoop sb i src limit n n (off + 0) 0) s
        (Stops sb D i src limit off n s) E :=
      meets_writeiLoop hmax (Nat.sub_le _ _) (Nat.zero_le _) (fun _ _ => Nat.zero_le _)
        (Finset.empty_subset _) (fun _ => .inl rfl) (.zero h)
    refine hloop.imp fun tot u hu => ?_
    have hsize : (u.inode i).copy.size = (s.inode i).copy.size := by
      cases hu with
      | all h => exact h.size
      | full h => exact h.size
      | fault h => exact h.size
    split_ifs with hgrow
    · refine ⟨tot, u, rfl, hu, ?_⟩
      rw [Nat.max_eq_right hgrow.le, resized]
      rw [inode_setInode_self]
      rfl
    · refine ⟨tot, u, rfl, hu, ?_⟩
      rw [Nat.max_eq_left (Nat.le_of_not_lt hgrow), resized, ← hsize]
      rw [setInode_self]
      rfl
  · rw [Nat.mod_eq_of_lt (by omega)]
    omega

end Xv6.Fs
