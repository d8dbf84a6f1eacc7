import Xv6.Fs

/-!
# The blocks of inodes

An inode has places for block numbers, its *slots*: the direct addresses, the
address of the indirect block, and the entries of that block. `Refs` says that
the slots of all inodes refer to different blocks of the data area, and to all
that are in use. It is stated for any notion of use, so that it serves `mkfs`,
which uses blocks one after the other, as well as the kernel with its bitmap.
-/

namespace Xv6.Fs

open Function

/-! ## Slots -/

/-- The number of slots of an inode. -/
def NSLOT : ℕ := NDIRECT + 1 + NINDIRECT

/-- The block number in slot `k`. -/
def slot (block : ℕ → Bytes) (d : Dinode) (k : ℕ) : ℕ :=
  if k ≤ NDIRECT then d.addrs k
  else if d.addrs NDIRECT = 0 then 0
  else entry (block (d.addrs NDIRECT)) (k - (NDIRECT + 1))

/-- The slot for block `bn` of a file. -/
def dataSlot (bn : ℕ) : ℕ := if bn < NDIRECT then bn else bn + 1

/-- The block number of block `bn` of a file. -/
def addrOf (block : ℕ → Bytes) (d : Dinode) (bn : ℕ) : ℕ := slot block d (dataSlot bn)

/-- The byte at `pos` of a file. -/
def fileByte (block : ℕ → Bytes) (d : Dinode) (pos : ℕ) : UInt8 :=
  block (addrOf block d (pos / BSIZE)) (pos % BSIZE)

/-- How many blocks so many bytes need. -/
def blocksOf (size : ℕ) : ℕ := (size + (BSIZE - 1)) / BSIZE

/-- A file has a block for every byte. -/
def NoHoles (block : ℕ → Bytes) (d : Dinode) : Prop :=
  ∀ bn < blocksOf d.size, addrOf block d bn ≠ 0

section

variable {block block' : ℕ → Bytes} {d d' : Dinode} {k j b : ℕ}

theorem slot_direct (hk : k ≤ NDIRECT) : slot block d k = d.addrs k := if_pos hk

theorem slot_entry (h : d.addrs NDIRECT ≠ 0) :
    slot block d (NDIRECT + 1 + j) = entry (block (d.addrs NDIRECT)) j := by
  rw [slot, if_neg (by omega), if_neg h, Nat.add_sub_cancel_left]

theorem dataSlot_ne (bn : ℕ) : dataSlot bn ≠ NDIRECT := by
  unfold dataSlot
  split_ifs <;> omega

theorem dataSlot_inj {bn bn' : ℕ} (h : dataSlot bn = dataSlot bn') : bn = bn' := by
  unfold dataSlot at h
  split_ifs at h <;> omega

theorem dataSlot_lt {bn : ℕ} (h : bn < MAXFILE) : dataSlot bn < NSLOT := by
  unfold dataSlot NSLOT
  rw [MAXFILE] at h
  split_ifs <;> omega

/-- The slots depend on the addresses and on the indirect block. -/
theorem slot_congr (haddrs : ∀ j ≤ NDIRECT, d'.addrs j = d.addrs j)
    (hblock : d.addrs NDIRECT ≠ 0 → block' (d.addrs NDIRECT) = block (d.addrs NDIRECT)) (k : ℕ) :
    slot block' d' k = slot block d k := by
  unfold slot
  rw [haddrs NDIRECT (le_refl _)]
  split_ifs with hk h0
  · exact haddrs k hk
  · rfl
  · rw [hblock h0]

/-- A block that is not the indirect block is written. -/
theorem slot_write {x : ℕ} {buf : Bytes} (hx : d.addrs NDIRECT ≠ 0 → d.addrs NDIRECT ≠ x) (k : ℕ) :
    slot (update block x buf) d k = slot block d k :=
  slot_congr (fun _ _ => rfl) (fun h0 => update_of_ne (hx h0) ..) k

/-- A direct address is set. -/
theorem slot_setDirect (hj : j < NDIRECT) (k : ℕ) :
    slot block { d with addrs := update d.addrs j b } k =
      if k = j then b else slot block d k := by
  have hne : NDIRECT ≠ j := by omega
  simp only [slot, update_of_ne hne]
  by_cases hk : k = j
  · subst hk
    rw [if_pos (by omega), if_pos rfl, update_self]
  · rw [update_of_ne hk, if_neg hk]

/-- A block of zeros becomes the indirect block. -/
theorem slot_setIndirect (h0 : d.addrs NDIRECT = 0) (hzero : block b = fun _ => 0) (k : ℕ) :
    slot block { d with addrs := update d.addrs NDIRECT b } k =
      if k = NDIRECT then b else slot block d k := by
  simp only [slot, update_self]
  by_cases hk : k = NDIRECT
  · subst hk
    rw [if_pos (le_refl _), if_pos rfl, update_self]
  · rw [update_of_ne hk, if_neg hk]
    split_ifs with hle hb
    · rfl
    · rfl
    · rw [hzero, entry, getLE_eq_zero fun _ _ _ => rfl]

/-- An entry of the indirect block is set. -/
theorem slot_setEntry (h0 : d.addrs NDIRECT ≠ 0) (hb : b < 2 ^ 32) (k : ℕ) :
    slot (update block (d.addrs NDIRECT)
      (putLE 4 (block (d.addrs NDIRECT)) (4 * j) b)) d k =
      if k = NDIRECT + 1 + j then b else slot block d k := by
  unfold slot
  rw [update_self, if_neg h0, if_neg h0]
  split_ifs with hle hk hk
  · omega
  · rfl
  · rw [hk, Nat.add_sub_cancel_left, entry, getLE_putLE _ _ (by simpa using hb)]
  · rw [entry, entry, getLE_putLE_of_disjoint _ _ (by omega)]

end

/-! ## References -/

/-- The slots of the inodes below `N` refer to different blocks in `[lo, top)`, and to all of these
that are used. -/
structure Refs (N lo top : ℕ) (used : ℕ → Prop) (D : ℕ → Dinode) (block : ℕ → Bytes) : Prop where
  pos : 0 < lo
  range : ∀ i < N, ∀ k < NSLOT, slot block (D i) k ≠ 0 →
    lo ≤ slot block (D i) k ∧ slot block (D i) k < top ∧ used (slot block (D i) k)
  once : ∀ i < N, ∀ k < NSLOT, ∀ i' < N, ∀ k' < NSLOT, slot block (D i) k ≠ 0 →
    slot block (D i) k = slot block (D i') k' → i = i' ∧ k = k'
  exact : ∀ b, lo ≤ b → b < top → used b → ∃ i < N, ∃ k < NSLOT, slot block (D i) k = b

namespace Refs

variable {N lo top : ℕ} {used used' : ℕ → Prop} {D D' : ℕ → Dinode} {block block' : ℕ → Bytes}
  {i k b : ℕ}

section

variable (h : Refs N lo top used D block)
include h

/-- The slots are the same. -/
theorem congr (hslot : ∀ i < N, ∀ k < NSLOT, slot block' (D' i) k = slot block (D i) k)
    (hused : ∀ b < top, used' b ↔ used b) : Refs N lo top used' D' block' where
  pos := h.pos
  range i hi k hk h0 := by
    rw [hslot i hi k hk] at h0 ⊢
    obtain ⟨h1, h2, h3⟩ := h.range i hi k hk h0
    exact ⟨h1, h2, (hused _ h2).mpr h3⟩
  once i hi k hk i' hi' k' hk' h0 heq := by
    rw [hslot i hi k hk] at h0 heq
    rw [hslot i' hi' k' hk'] at heq
    exact h.once i hi k hk i' hi' k' hk' h0 heq
  exact b hlo hhi hb := by
    obtain ⟨i, hi, k, hk, hik⟩ := h.exact b hlo hhi ((hused b hhi).mp hb)
    exact ⟨i, hi, k, hk, (hslot i hi k hk).trans hik⟩

/-- Inodes without blocks do not matter. -/
theorem mono {N' : ℕ} (hN : N' ≤ N) (hnone : ∀ i, N' ≤ i → i < N → ∀ k, slot block (D i) k = 0) :
    Refs N' lo top used D block where
  pos := h.pos
  range i hi := h.range i (hi.trans_le hN)
  once i hi k hk i' hi' := h.once i (hi.trans_le hN) k hk i' (hi'.trans_le hN)
  exact b hlo hhi hb := by
    obtain ⟨i, hi, k, hk, hik⟩ := h.exact b hlo hhi hb
    rcases Nat.lt_or_ge i N' with hlt | hge
    · exact ⟨i, hlt, k, hk, hik⟩
    · have := h.pos
      rw [hnone i hge hi k] at hik
      omega

/-- **A block is put into a slot** that had none. -/
theorem alloc (hi : i < N) (hk : k < NSLOT) (h0 : slot block (D i) k = 0) (hlo : lo ≤ b)
    (hhi : b < top) (hb : ¬used b)
    (hslot : ∀ i' < N, ∀ k' < NSLOT, slot block' (D' i') k' =
      if i' = i ∧ k' = k then b else slot block (D i') k') (hused : ∀ c, used' c ↔ used c ∨ c = b) :
    Refs N lo top used' D' block' := by
  have hold {i' k' : ℕ} (hi' : i' < N) (hk' : k' < NSLOT) (hne : slot block (D i') k' ≠ 0) :
      slot block (D i') k' ≠ b := fun heq => hb (heq ▸ (h.range i' hi' k' hk' hne).2.2)
  refine ⟨h.pos, fun i' hi' k' hk' hne => ?_, fun i' hi' k' hk' i'' hi'' k'' hk'' hne heq => ?_,
    fun c hclo hchi hc => ?_⟩
  · rw [hslot i' hi' k' hk'] at hne ⊢
    split_ifs at hne ⊢ with hik
    · exact ⟨hlo, hhi, (hused b).mpr (.inr rfl)⟩
    · obtain ⟨h1, h2, h3⟩ := h.range i' hi' k' hk' hne
      exact ⟨h1, h2, (hused _).mpr (.inl h3)⟩
  · rw [hslot i' hi' k' hk'] at hne heq
    rw [hslot i'' hi'' k'' hk''] at heq
    split_ifs at hne heq with hik hik' hik'
    · exact ⟨hik.1.trans hik'.1.symm, hik.2.trans hik'.2.symm⟩
    · exact absurd heq.symm (hold hi'' hk'' (heq ▸ hne))
    · exact absurd heq (hold hi' hk' hne)
    · exact h.once i' hi' k' hk' i'' hi'' k'' hk'' hne heq
  · rcases (hused c).mp hc with hc | rfl
    · obtain ⟨i', hi', k', hk', hslot'⟩ := h.exact c hclo hchi hc
      refine ⟨i', hi', k', hk', ?_⟩
      rw [hslot i' hi' k' hk', if_neg, hslot']
      rintro ⟨rfl, rfl⟩
      have := h.pos
      omega
    · exact ⟨i, hi, k, hk, by rw [hslot i hi k hk, if_pos ⟨rfl, rfl⟩]⟩

/-- The indirect block of an inode is that of no other. -/
theorem indirect_ne (hi : i < N) {i' : ℕ} (hi' : i' < N) (hne : i' ≠ i)
    (h0 : (D i').addrs NDIRECT ≠ 0) : (D i').addrs NDIRECT ≠ (D i).addrs NDIRECT := by
  intro heq
  have hlt : NDIRECT < NSLOT := by decide
  have := h.once i' hi' NDIRECT hlt i hi NDIRECT hlt
    (by rwa [slot_direct (le_refl _)])
    (by rw [slot_direct (le_refl _), slot_direct (le_refl _), heq])
  exact hne this.1

/-- A data block is no indirect block. -/
theorem data_ne (hi : i < N) (hk : k < NSLOT) (hkd : k ≠ NDIRECT) (h0 : slot block (D i) k ≠ 0)
    {i' : ℕ} (hi' : i' < N) : (D i').addrs NDIRECT ≠ slot block (D i) k := by
  intro heq
  have := h.once i hi k hk i' hi' NDIRECT (by decide) h0
    (by rw [slot_direct (le_refl _), heq])
  exact hkd this.2

/-- A block that is not used is in no slot. -/
theorem ne_of_unused (hb : ¬used b) (hi : i < N) (hk : k < NSLOT) (h0 : slot block (D i) k ≠ 0) :
    slot block (D i) k ≠ b :=
  fun heq => hb (heq ▸ (h.range i hi k hk h0).2.2)

end

end Refs

/-! ## The file system -/

/-- **The format.** The blocks of the inodes are different blocks of the data area, and those the
bitmap has; no file has a hole or is too large, and a directory has whole entries. -/
structure WellFormed (sb : Superblock) (s : State) : Prop where
  refs : Refs sb.ninodes (sb.size - sb.nblocks) sb.size (s.bitmap ·) s.dinode s.block
  noHoles : ∀ i < sb.ninodes, NoHoles s.block (s.dinode i)
  size_le : ∀ i < sb.ninodes, (s.dinode i).size ≤ MAXFILE * BSIZE
  dir : ∀ i < sb.ninodes, (s.dinode i).type = .T_DIR → direntSize ∣ (s.dinode i).size


end Xv6.Fs
