import Mathlib.Data.Finset.Card
import Xv6.FsRead

/-!
# Blocks for files

`bmap` allocates what a file is missing: the block itself, and the indirect block
before it. What it does is said once, for any set of slots that get a block
(`Grown`): the blocks are zeros, so that no byte of any file changes if holes
are taken to be zeros (`byteAt`); the slots of all inodes still refer to
different blocks (`Sound`); and there are as many free blocks less. `bmap` fails
only if there is no free block (`meets_bmap_grown`).
-/

namespace Xv6.Fs

open Function

open Prog

/-! ## The state -/

/-- The byte at `pos` of a file; holes are zeros. -/
def byteAt (block : ℕ → Bytes) (d : Dinode) (pos : ℕ) : UInt8 :=
  if addrOf block d (pos / BSIZE) = 0 then 0 else fileByte block d pos

/-- The inodes `D`, but for the one that entry `i` of the table is a copy of. -/
def current (D : ℕ → Dinode) (i : ℕ) (s : State) : ℕ → Dinode :=
  update D (s.inode i).inum (s.inode i).copy

/-- The blocks that `balloc` can take. -/
def freeBlocks (sb : Superblock) (bitmap : ℕ → Bool) : Finset ℕ :=
  (Finset.range sb.size).filter fun b => bitmap b = false

/-- **The file system is in order:** the inodes, of which entry `i` has one and `D` the others,
refer to different blocks of the data area, and the bitmap has these and the blocks before the data
area. -/
structure Sound (sb : Superblock) (D : ℕ → Dinode) (i : ℕ) (s : State) : Prop where
  inum_lt : (s.inode i).inum < sb.ninodes
  refs : ∃ used : ℕ → Prop,
    Refs sb.ninodes (sb.size - sb.nblocks) sb.size used (current D i s) s.block ∧
      ∀ b, used b → s.bitmap b = true
  low : ∀ b < sb.size - sb.nblocks, s.bitmap b = true
  -- `balloc` counts in an `int`
  size_le : sb.size ≤ 2 ^ 31

/-- A block that can leave the cache is on disk as it is in the cache. -/
def Coherent (s : State) : Prop := ∀ b, s.pinned b = false → s.home b = s.block b

/-- What code leaves as it is that changes the blocks of entry `i` only. -/
structure Framed (i : ℕ) (s t : State) : Prop where
  inode_ne : ∀ j ≠ i, t.inode j = s.inode j
  inode : ∃ addrs, t.inode i = { s.inode i with copy := { (s.inode i).copy with addrs := addrs } }
  dinode : t.dinode = s.dinode
  home : t.home = s.home

/-- **Blocks are allocated** for the slots `K` of entry `i`. -/
structure Allocates (sb : Superblock) (D : ℕ → Dinode) (i : ℕ) (K : Finset ℕ) (s t : State) : Prop
    extends Framed i s t where
  sound : Sound sb D i t
  slots : ∀ k < NSLOT, k ∉ K →
    slot t.block (t.inode i).copy k = slot s.block (s.inode i).copy k
  filled : ∀ k ∈ K, k < NSLOT ∧ slot s.block (s.inode i).copy k = 0 ∧
    slot t.block (t.inode i).copy k ≠ 0
  others : ∀ j < sb.ninodes, j ≠ (s.inode i).inum → ∀ k < NSLOT,
    slot t.block (D j) k = slot s.block (D j) k
  free : (freeBlocks sb t.bitmap).card + K.card = (freeBlocks sb s.bitmap).card

/-- **Blocks of zeros are allocated.** -/
structure Grown (sb : Superblock) (D : ℕ → Dinode) (i : ℕ) (K : Finset ℕ) (s t : State) : Prop
    extends Allocates sb D i K s t where
  bytes : ∀ j < sb.ninodes, ∀ pos, pos / BSIZE < MAXFILE →
    byteAt t.block (current D i t j) pos = byteAt s.block (current D i s j) pos
  coherent : Coherent s → Coherent t

section

variable {sb : Superblock} {D : ℕ → Dinode} {i j k b : ℕ} {K L : Finset ℕ} {s t u : State}

theorem current_self : current D i s (s.inode i).inum = (s.inode i).copy := update_self ..

theorem current_of_ne (h : j ≠ (s.inode i).inum) : current D i s j = D j :=
  update_of_ne h ..

theorem Sound.fits (h : Sound sb D i s) (hb : b < sb.size) : b < 256 ^ 4 :=
  hb.trans_le (h.size_le.trans (by decide))

theorem mem_freeBlocks {bitmap : ℕ → Bool} :
    b ∈ freeBlocks sb bitmap ↔ b < sb.size ∧ bitmap b = false := by
  rw [freeBlocks, Finset.mem_filter, Finset.mem_range]

theorem freeBlocks_take {bitmap : ℕ → Bool} (hb : b < sb.size) (hfree : bitmap b = false) :
    (freeBlocks sb (update bitmap b true)).card + 1 = (freeBlocks sb bitmap).card := by
  have herase : freeBlocks sb (update bitmap b true) = (freeBlocks sb bitmap).erase b := by
    ext c
    rw [Finset.mem_erase, mem_freeBlocks, mem_freeBlocks]
    by_cases hc : c = b
    · subst hc
      simp
    · simp [hc]
  rw [herase]
  exact Finset.card_erase_add_one (mem_freeBlocks.mpr ⟨hb, hfree⟩)

namespace Framed

theorem inum (h : Framed i s t) : (t.inode i).inum = (s.inode i).inum := by
  obtain ⟨addrs, heq⟩ := h.inode
  rw [heq]

theorem size (h : Framed i s t) : (t.inode i).copy.size = (s.inode i).copy.size := by
  obtain ⟨addrs, heq⟩ := h.inode
  rw [heq]

theorem refl (i : ℕ) (s : State) : Framed i s s := ⟨fun _ _ => rfl, ⟨_, rfl⟩, rfl, rfl⟩

theorem trans (h : Framed i s t) (h' : Framed i t u) : Framed i s u where
  inode_ne j hj := (h'.inode_ne j hj).trans (h.inode_ne j hj)
  inode := by
    obtain ⟨addrs, heq⟩ := h.inode
    obtain ⟨addrs', heq'⟩ := h'.inode
    exact ⟨addrs', by rw [heq', heq]⟩
  dinode := h'.dinode.trans h.dinode
  home := h'.home.trans h.home

end Framed

namespace Allocates

theorem refl (h : Sound sb D i s) : Allocates sb D i ∅ s s where
  toFramed := Framed.refl i s
  sound := h
  slots _ _ _ := rfl
  filled _ hk := absurd hk (Finset.notMem_empty _)
  others _ _ _ _ _ := rfl
  free := by simp

theorem trans (h : Allocates sb D i K s t) (h' : Allocates sb D i L t u) :
    Allocates sb D i (K ∪ L) s u where
  toFramed := h.toFramed.trans h'.toFramed
  sound := h'.sound
  slots k hk hnot := by
    rw [Finset.mem_union, not_or] at hnot
    rw [h'.slots k hk hnot.2, h.slots k hk hnot.1]
  filled k hk := by
    rcases Finset.mem_union.mp hk with hK | hL
    · obtain ⟨hlt, h0, hne⟩ := h.filled k hK
      refine ⟨hlt, h0, ?_⟩
      rw [h'.slots k hlt fun hL => hne (h'.filled k hL).2.1]
      exact hne
    · obtain ⟨hlt, h0, hne⟩ := h'.filled k hL
      refine ⟨hlt, ?_, hne⟩
      rw [← h.slots k hlt fun hK => (h.filled k hK).2.2 h0]
      exact h0
  others j hj hne k hk := by
    rw [h'.others j hj (h.inum ▸ hne) k hk, h.others j hj hne k hk]
  free := by
    have hdisjoint : Disjoint K L :=
      Finset.disjoint_left.mpr fun k hK hL => (h.filled k hK).2.2 (h'.filled k hL).2.1
    have := h.free
    have := h'.free
    rw [Finset.card_union_of_disjoint hdisjoint]
    omega

/-- A slot that has a block keeps it. -/
theorem keeps (h : Allocates sb D i K s t) (hk : k < NSLOT)
    (hne : slot s.block (s.inode i).copy k ≠ 0) :
    slot t.block (t.inode i).copy k = slot s.block (s.inode i).copy k :=
  h.slots k hk fun hK => hne (h.filled k hK).2.1

end Allocates

namespace Grown

theorem refl (h : Sound sb D i s) : Grown sb D i ∅ s s where
  toAllocates := Allocates.refl h
  bytes _ _ _ _ := rfl
  coherent := id

theorem trans (h : Grown sb D i K s t) (h' : Grown sb D i L t u) : Grown sb D i (K ∪ L) s u where
  toAllocates := h.toAllocates.trans h'.toAllocates
  bytes j hj pos hpos := (h'.bytes j hj pos hpos).trans (h.bytes j hj pos hpos)
  coherent hs := h'.coherent (h.coherent hs)

end Grown

/-! ## One block -/

section

variable (h : Sound sb D i s) (hfree : s.bitmap b = false)
include h hfree

/-- A free block is in the data area. -/
theorem Sound.lo_le : sb.size - sb.nblocks ≤ b := by
  by_contra hlt
  rw [h.low b (by omega)] at hfree
  exact Bool.noConfusion hfree

theorem Sound.ne_zero : b ≠ 0 := by
  obtain ⟨used, hrefs, -⟩ := h.refs
  have := hrefs.pos
  have := h.lo_le hfree
  omega

/-- A block that is free is in no slot. -/
theorem Sound.slot_ne (hj : j < sb.ninodes) (hk : k < NSLOT)
    (h0 : slot s.block (current D i s j) k ≠ 0) : slot s.block (current D i s j) k ≠ b := by
  obtain ⟨used, hrefs, hused⟩ := h.refs
  refine hrefs.ne_of_unused (fun hu => ?_) hj hk h0
  rw [hused b hu] at hfree
  exact Bool.noConfusion hfree

theorem Sound.indirect_ne (hj : j < sb.ninodes) (h0 : (current D i s j).addrs NDIRECT ≠ 0) :
    (current D i s j).addrs NDIRECT ≠ b := by
  have hne := h.slot_ne hfree hj (by decide : NDIRECT < NSLOT) (by rwa [slot_direct (le_refl _)])
  rwa [slot_direct (le_refl _)] at hne

end

/-- **A free block is put into a slot** of entry `i` that had none. -/
theorem Sound.grown (h : Sound sb D i s) (hk : k < NSLOT)
    (h0 : slot s.block (s.inode i).copy k = 0) (hb : b < sb.size) (hfree : s.bitmap b = false)
    (hframe : Framed i s t) (hcoherent : Coherent s → Coherent t)
    (hbitmap : t.bitmap = update s.bitmap b true)
    (hslot : ∀ k' < NSLOT, slot t.block (t.inode i).copy k' =
      if k' = k then b else slot s.block (s.inode i).copy k')
    (hothers : ∀ j < sb.ninodes, j ≠ (s.inode i).inum → ∀ k' < NSLOT,
      slot t.block (D j) k' = slot s.block (D j) k')
    (hdata : ∀ j < sb.ninodes, ∀ k' < NSLOT, k' ≠ NDIRECT →
      slot s.block (current D i s j) k' ≠ 0 →
      t.block (slot s.block (current D i s j) k') = s.block (slot s.block (current D i s j) k'))
    (hzero : k ≠ NDIRECT → t.block b = fun _ => 0) : Grown sb D i {k} s t := by
  obtain ⟨used, hrefs, hused⟩ := h.refs
  have hlo := h.lo_le hfree
  have hb0 := h.ne_zero hfree
  have hall : ∀ j < sb.ninodes, ∀ k' < NSLOT, slot t.block (current D i t j) k' =
      if j = (s.inode i).inum ∧ k' = k then b else slot s.block (current D i s j) k' := by
    intro j hj k' hk'
    by_cases hj' : j = (s.inode i).inum
    · subst hj'
      rw [current_self]
      nth_rewrite 1 [← hframe.inum]
      rw [current_self, hslot k' hk']
      simp
    · rw [if_neg fun hc => hj' hc.1, current_of_ne hj', current_of_ne (hframe.inum ▸ hj')]
      exact hothers j hj hj' k' hk'
  refine ⟨⟨hframe, ⟨hframe.inum ▸ h.inum_lt, ⟨fun c => used c ∨ c = b, ?_, ?_⟩, ?_, h.size_le⟩,
    fun k' hk' hne => ?_, fun k' hk' => ?_, hothers, ?_⟩, fun j hj pos hpos => ?_, hcoherent⟩
  · refine hrefs.alloc h.inum_lt hk ?_ hlo hb ?_ hall fun c => Iff.rfl
    · rw [current_self]
      exact h0
    · intro hu
      rw [hused b hu] at hfree
      exact Bool.noConfusion hfree
  · rintro c (hc | rfl)
    · rw [hbitmap]
      by_cases hcb : c = b
      · rw [hcb, update_self]
      · rw [update_of_ne hcb, hused c hc]
    · rw [hbitmap, update_self]
  · intro c hc
    rw [hbitmap, update_of_ne (by omega), h.low c hc]
  · rw [hslot k' hk', if_neg (by simpa using hne)]
  · rw [Finset.mem_singleton] at hk'
    subst hk'
    exact ⟨hk, h0, by rw [hslot k' hk, if_pos rfl]; exact hb0⟩
  · rw [hbitmap, Finset.card_singleton]
    exact freeBlocks_take hb hfree
  · have hd := dataSlot_lt hpos
    have haddr := hall j hj _ hd
    unfold byteAt fileByte addrOf
    by_cases hnew : j = (s.inode i).inum ∧ dataSlot (pos / BSIZE) = k
    · rw [if_pos hnew] at haddr
      obtain ⟨rfl, hkeq⟩ := hnew
      rw [haddr, if_neg hb0, hzero (hkeq ▸ dataSlot_ne _), current_self, hkeq, h0, if_pos rfl]
    · rw [if_neg hnew] at haddr
      rw [haddr]
      split_ifs with hs0
      · rfl
      · rw [hdata j hj _ hd (dataSlot_ne _) hs0]

/-- The state after `balloc` has taken block `b`. -/
def allocated (s : State) (b : ℕ) : State :=
  { (s.setBit b true).setBlock b (fun _ => 0) with
    trace := .log_write (.data b) :: .log_write (.bitmap (b / BPB)) :: s.trace
    pinned := update s.pinned b true }

theorem meets_balloc {Q : ℕ → State → Prop} {E : String → Prop}
    (hnone : freeBlocks sb s.bitmap = ∅ → Q 0 s)
    (hsome : ∀ b, b < sb.size → s.bitmap b = false → Q b (allocated s b)) :
    Meets (balloc sb) s Q E := by
  rw [balloc, meets_bind, meets_get]
  split
  · rename_i hfind
    refine hnone (Finset.eq_empty_of_forall_notMem fun b hb => ?_)
    obtain ⟨hlt, hfree⟩ := mem_freeBlocks.mp hb
    have := List.find?_eq_none.mp hfind b (List.mem_range.mpr hlt)
    simp [hfree] at this
  · rename_i b hfind
    have hfree := List.find?_some hfind
    have hlt := List.mem_range.mp (List.mem_of_find?_eq_some hfind)
    exact hsome b hlt (by simpa using hfree)

/-- A block is written and logged. -/
theorem Coherent.write {data : Bytes} (h : Coherent s) (hhome : t.home = s.home)
    (hblock : t.block = update s.block b data)
    (hpinned : t.pinned = update s.pinned b true) : Coherent t := by
  intro c hc
  rw [hpinned] at hc
  rw [hhome, hblock]
  by_cases hcb : c = b
  · subst hcb
    simp at hc
  · rw [update_of_ne hcb] at hc ⊢
    exact h c hc

/-- The block is put into the inode. -/
theorem Sound.grown_addr (h : Sound sb D i s) (hj : j ≤ NDIRECT)
    (h0 : (s.inode i).copy.addrs j = 0) (hb : b < sb.size) (hfree : s.bitmap b = false) :
    Grown sb D i {j} s ((allocated s b).setInode i { s.inode i with
      copy := { (s.inode i).copy with addrs := update (s.inode i).copy.addrs j b } }) := by
  have hself := h.indirect_ne hfree h.inum_lt
  rw [current_self] at hself
  refine h.grown (hj.trans_lt (by decide)) (by rw [slot_direct hj]; exact h0) hb hfree
    ⟨fun j' hj' => inode_setInode_of_ne hj', ⟨_, inode_setInode_self⟩, rfl, rfl⟩
    (fun hs => ?_) rfl (fun k' _ => ?_) (fun j' hj' hne k' _ => ?_) (fun j' hj' k' hk' _ hne => ?_)
    fun _ => ?_
  · exact hs.write rfl rfl rfl
  · rw [inode_setInode_self]
    change slot (update s.block b _) _ k' = _
    rcases Nat.lt_or_eq_of_le hj with hdirect | rfl
    · rw [slot_setDirect hdirect, slot_write hself]
    · rw [slot_setIndirect h0 (update_self ..), slot_write hself]
  · have hind := h.indirect_ne hfree hj'
    rw [current_of_ne hne] at hind
    exact slot_write hind k'
  · exact update_of_ne (h.slot_ne hfree hj' hk' hne) ..
  · exact update_self ..

/-- The block is put into the indirect block. -/
theorem Sound.grown_entry (h : Sound sb D i s) (hj : j < NINDIRECT)
    (hind : (s.inode i).copy.addrs NDIRECT ≠ 0)
    (h0 : entry (s.block ((s.inode i).copy.addrs NDIRECT)) j = 0) (hb : b < sb.size)
    (hfree : s.bitmap b = false)
    (ht : t = { allocated s b with
      block := update (allocated s b).block ((s.inode i).copy.addrs NDIRECT)
        (putLE 4 ((allocated s b).block ((s.inode i).copy.addrs NDIRECT)) (4 * j) b)
      trace := .log_write (.data ((s.inode i).copy.addrs NDIRECT)) :: (allocated s b).trace
      pinned := update (allocated s b).pinned ((s.inode i).copy.addrs NDIRECT) true }) :
    Grown sb D i {NDIRECT + 1 + j} s t := by
  subst ht
  obtain ⟨used, hrefs, -⟩ := h.refs
  have hself := h.indirect_ne hfree h.inum_lt
  rw [current_self] at hself
  have hdata : ∀ j' < sb.ninodes, ∀ k' < NSLOT, k' ≠ NDIRECT →
      slot s.block (current D i s j') k' ≠ 0 →
      slot s.block (current D i s j') k' ≠ (s.inode i).copy.addrs NDIRECT := by
    intro j' hj' k' hk' hkd hne heq
    have := hrefs.data_ne hj' hk' hkd hne h.inum_lt
    rw [current_self] at this
    exact this heq.symm
  refine h.grown (by rw [NSLOT]; omega) (by rw [slot_entry hind]; exact h0) hb hfree
    ⟨fun _ _ => rfl, ⟨_, rfl⟩, rfl, rfl⟩ (fun hs => ?_) rfl (fun k' _ => ?_)
    (fun j' hj' hne k' _ => ?_) (fun j' hj' k' hk' hkd hne => ?_) fun _ => ?_
  · have hallocated : Coherent (allocated s b) := hs.write rfl rfl rfl
    exact hallocated.write rfl rfl rfl
  · change slot (update (update s.block b _) _ _) (s.inode i).copy k' = _
    have hwrite : slot (update s.block b fun _ => 0) (s.inode i).copy k' =
        slot s.block (s.inode i).copy k' := slot_write hself k'
    rw [← hwrite]
    exact slot_setEntry hind (h.fits hb) k'
  · have h1 := h.indirect_ne hfree hj'
    have h2 : (current D i s j').addrs NDIRECT ≠ 0 → _ := hrefs.indirect_ne h.inum_lt hj' hne
    rw [current_of_ne hne] at h1 h2
    rw [current_self] at h2
    exact (slot_write h2 k').trans (slot_write h1 k')
  · refine (update_of_ne (hdata j' hj' k' hk' hkd hne) ..).trans ?_
    exact update_of_ne (h.slot_ne hfree hj' hk' hne) ..
  · exact (update_of_ne (hself hind).symm ..).trans (update_self ..)

/-! ## `bmap` -/

/-- What is returned for slot `k`, of which the slots `needed` may get a block. -/
def Returns (sb : Superblock) (D : ℕ → Dinode) (i : ℕ) (needed : Finset ℕ) (k : ℕ) (s : State)
    (addr : ℕ) (t : State) : Prop :=
  ∃ K ⊆ needed, Grown sb D i K s t ∧ slot t.block (t.inode i).copy k = addr ∧
    (addr = 0 → freeBlocks sb t.bitmap = ∅)

theorem meets_loadAddr_grown {E : String → Prop} (h : Sound sb D i s) (hj : j ≤ NDIRECT) :
    Meets (loadAddr sb i j) s (Returns sb D i {j} j s) E := by
  by_cases h0 : (s.inode i).copy.addrs j = 0
  · rw [loadAddr, meets_bind, meets_copyOf, if_pos h0, meets_bind]
    refine meets_balloc (fun hnone => ?_) fun b hb hfree => ?_
    · rw [if_pos rfl]
      exact ⟨∅, Finset.empty_subset _, .refl h, by rw [slot_direct hj, h0], fun _ => hnone⟩
    · have hgrown := h.grown_addr hj h0 hb hfree
      have hb0 := h.ne_zero hfree
      rw [if_neg hb0, setCopy, setIp, meets_bind, meets_modify]
      refine ⟨{j}, Finset.Subset.refl _, hgrown, ?_, fun hz => absurd hz hb0⟩
      rw [slot_direct hj]
      simp
  · rw [meets_loadAddr h0]
    exact ⟨∅, Finset.empty_subset _, .refl h, slot_direct hj, fun hz => absurd hz h0⟩

/-- The slots that `bmap` may need a block for. -/
def slotsFor (bn : ℕ) : Finset ℕ := if bn < NDIRECT then {bn} else {NDIRECT, dataSlot bn}

/-- **`bmap` allocates the blocks that are missing,** and fails only if there is no free block. -/
theorem meets_bmap_grown {bn : ℕ} {E : String → Prop} (h : Sound sb D i s) (hbn : bn < MAXFILE) :
    Meets (bmap sb i bn) s (Returns sb D i (slotsFor bn) (dataSlot bn) s) E := by
  unfold bmap
  split_ifs with hdirect hindirect
  · rw [slotsFor, if_pos hdirect, dataSlot, if_pos hdirect]
    exact meets_loadAddr_grown h hdirect.le
  · obtain ⟨j, rfl⟩ : ∃ j, bn = NDIRECT + j := ⟨bn - NDIRECT, by omega⟩
    have hslot : dataSlot (NDIRECT + j) = NDIRECT + 1 + j := by
      rw [dataSlot, if_neg hdirect]
      omega
    rw [slotsFor, if_neg hdirect, hslot, Nat.add_sub_cancel_left, meets_bind]
    rw [Nat.add_sub_cancel_left] at hindirect
    refine (meets_loadAddr_grown h (le_refl _)).imp fun bp t ht => ?_
    obtain ⟨K, hK, hgrown, hbp, hnone⟩ := ht
    rw [slot_direct (le_refl _)] at hbp
    have hsub : K ⊆ {NDIRECT, NDIRECT + 1 + j} :=
      hK.trans (Finset.singleton_subset_iff.mpr (Finset.mem_insert_self _ _))
    by_cases hbp0 : bp = 0
    · rw [if_pos hbp0]
      refine ⟨K, hsub, hgrown, ?_, fun _ => hnone hbp0⟩
      rw [slot, if_neg (by omega), if_pos (hbp.trans hbp0)]
    · rw [if_neg hbp0, meets_bind, meets_get]
      subst hbp
      by_cases hentry : entry (t.block ((t.inode i).copy.addrs NDIRECT)) j = 0
      · rw [if_pos hentry, meets_bind]
        refine meets_balloc (fun hnone' => ?_) fun b hb hfree => ?_
        · refine ⟨K, hsub, hgrown, ?_, fun _ => hnone'⟩
          rw [slot_entry hbp0, hentry]
        · have hb0 := hgrown.sound.ne_zero hfree
          rw [if_pos hb0]
          have hgrown' := hgrown.sound.grown_entry hindirect hbp0 hentry hb hfree rfl
          refine ⟨K ∪ {NDIRECT + 1 + j}, Finset.union_subset hsub ?_, hgrown.trans hgrown', ?_,
            fun hz => absurd hz hb0⟩
          · exact Finset.singleton_subset_iff.mpr
              (Finset.mem_insert_of_mem (Finset.mem_singleton_self _))
          · refine (slot_entry hbp0).trans ?_
            refine (congrArg (entry · j) (update_self ..)).trans ?_
            exact getLE_putLE _ _ (hgrown.sound.fits hb)
      · rw [if_neg hentry]
        exact ⟨K, hsub, hgrown, slot_entry hbp0, fun hz => absurd hz hentry⟩
  · rw [MAXFILE] at hbn
    omega

end

end Xv6.Fs
