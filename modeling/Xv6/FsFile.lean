import Xv6.FsWrite

/-!
# Files are byte arrays

If `writei` writes everything, the file has the source where it was written, and
its old bytes elsewhere (`byte_array`). If it writes less, the file should have
the part of the source that is reported. If the copy fails within a block, then
part of it is changed in the cache and not logged: this is visible, until the
block is evicted, unless it is behind the file or changes nothing
(`short_write`, `partial_copy`).
-/

namespace Xv6.Fs

open Prog

variable {sb : Superblock} {D : ℕ → Dinode} {i j k b m n off tot : ℕ} {K L : Finset ℕ}
  {s t u : State} {src : Bytes} {limit : Option ℕ}

/-- The most `filewrite` writes in one transaction: an inode, an indirect block, allocation blocks
and two blocks of slop for non-aligned writes are to fit in as well. -/
def maxWrite : ℕ := (MAXOPBLOCKS - 1 - 1 - 2) / 2 * BSIZE

/-! ## What is read -/

/-- The source at `off`, and the old bytes elsewhere. -/
def overwritten (old : ℕ → UInt8) (off n : ℕ) (src : Bytes) : ℕ → UInt8 := fun pos =>
  if off ≤ pos ∧ pos < off + n then src (pos - off) else old pos

/-- What is read of an array of `size` bytes: `min n (size - off)` bytes, none if `off` is not in
the array or `off + n` wraps, -1 if these cannot be copied to the destination. -/
def readBytes (size : ℕ) (bytes : ℕ → UInt8) (limit : Option ℕ) (off n : ℕ) :
    Option (List UInt8) :=
  if off ≤ size ∧ off + n < 2 ^ 32 then
    if reaches limit (min n (size - off)) then
      some ((List.range (min n (size - off))).map fun k => bytes (off + k))
    else none
  else some []

theorem readBytes_one {size pos : ℕ} {bytes : ℕ → UInt8} (hpos : pos < size)
    (hlt : pos + 1 < 2 ^ 32) : readBytes size bytes none pos 1 = some [bytes pos] := by
  rw [readBytes, if_pos ⟨hpos.le, hlt⟩, if_pos (by rintro _ ⟨⟩), Nat.min_eq_left (by omega)]
  rfl

/-- **`readi` reads an array of bytes.** -/
theorem readi_eq {bytes : ℕ → UInt8} (hholes : NoHoles s.block (s.inode i).copy)
    (hsize : (s.inode i).copy.size ≤ MAXFILE * BSIZE)
    (hbytes : ∀ pos < (s.inode i).copy.size, byteAt s.block (s.inode i).copy pos = bytes pos)
    (hn : n < 2 ^ 32) :
    readi sb i limit off n s = .ok (readBytes (s.inode i).copy.size bytes limit off n, s) := by
  have hpresent : Present s.block (s.inode i).copy off n := hholes.present hsize
  have hmeets : Meets (readi sb i limit off n) s
      (fun r t => r = readiResult s.block (s.inode i).copy limit off n ∧ t = s) Never :=
    (meets_readi hpresent).mpr ⟨rfl, rfl⟩
  obtain ⟨r, t, heq, hr, ht⟩ := hmeets.exists_ok fun _ => id
  rw [heq, hr, ht]
  congr 2
  have hiff : ((s.inode i).copy.size < off ∨ (off + n) % 2 ^ 32 < off) ↔
      ¬(off ≤ (s.inode i).copy.size ∧ off + n < 2 ^ 32) := by omega
  unfold readiResult readBytes
  by_cases hgood : off ≤ (s.inode i).copy.size ∧ off + n < 2 ^ 32
  · rw [if_neg (mt hiff.mp (not_not.mpr hgood)), if_pos hgood]
    congr 2
    refine List.map_congr_left fun k hk => ?_
    have hpos : off + k < (s.inode i).copy.size := by
      have := List.mem_range.mp hk
      omega
    obtain ⟨-, haddr⟩ := hholes.present hsize (off + k) (le_refl _)
      (Nat.lt_add_of_pos_right Nat.one_pos) hpos
    rw [← hbytes _ hpos, byteAt, if_neg haddr]
  · rw [if_pos (hiff.mpr hgood), if_neg hgood]

/-- **The loop of `readi`, in a file that may have holes:** blocks are allocated for them, until there
is no free one. -/
theorem meets_readiLoop_grown {fuel : ℕ} {acc : List UInt8} {E : String → Prop}
    (hmax : n ≤ MAXFILE * BSIZE) (hfuel : n - acc.length ≤ fuel) (hle : acc.length ≤ n)
    (hacc : acc = (List.range acc.length).map (byteAt s.block (s.inode i).copy))
    (hK : K ⊆ needed 0 n) (h : Grown sb D i K s t)
    (hpresent : ∀ pos < acc.length, addrOf t.block (t.inode i).copy (pos / BSIZE) ≠ 0) :
    Meets (readiLoop sb i none n fuel acc.length acc) t (fun r u => ∃ m ≤ n, ∃ L ⊆ needed 0 n,
      r = some ((List.range m).map (byteAt s.block (s.inode i).copy)) ∧ Grown sb D i L s u ∧
      (∀ pos < m, addrOf u.block (u.inode i).copy (pos / BSIZE) ≠ 0) ∧
      (m < n → freeBlocks sb u.bitmap = ∅ ∧ addrOf u.block (u.inode i).copy (m / BSIZE) = 0)) E := by
  induction fuel generalizing acc K t with
  | zero =>
    exact ⟨_, hle, K, hK, congrArg some hacc, h, hpresent, by omega⟩
  | succ fuel ih =>
    rw [readiLoop]
    by_cases hlt : acc.length < n
    · set off := acc.length
      have hmod : off % BSIZE < BSIZE := Nat.mod_lt _ (by decide)
      rw [if_pos hlt, meets_bind]
      refine (meets_bmap_grown h.sound (div_lt_MAXFILE (by omega))).imp fun addr u hu => ?_
      obtain ⟨L, hL, hgrown, haddr, hnone⟩ := hu
      have hsub : K ∪ L ⊆ needed 0 n :=
        Finset.union_subset hK (hL.trans (slotsFor_subset (Nat.zero_le _) (by omega)))
      have hkeep (pos : ℕ) (hpos : pos < off) :
          addrOf u.block (u.inode i).copy (pos / BSIZE) ≠ 0 := by
        have hne := hpresent pos hpos
        rwa [addrOf, hgrown.keeps (dataSlot_lt (div_lt_MAXFILE (by omega))) hne]
      by_cases hz : addr = 0
      · rw [if_pos hz, meets_pure]
        exact ⟨_, hle, _, hsub, congrArg some hacc, h.trans hgrown, hkeep, fun _ =>
          ⟨hnone hz, haddr.trans hz⟩⟩
      · rw [if_neg hz]
        set m := min (n - off) (BSIZE - off % BSIZE)
        have haccessible : accessible none off m = m := rfl
        rw [if_neg (not_not.mpr haccessible), meets_bind, meets_get]
        have hne : addrOf u.block (u.inode i).copy (off / BSIZE) ≠ 0 := haddr.trans_ne hz
        have hdata : getBytes (u.block addr) (off % BSIZE) m =
            (List.range m).map fun k => byteAt s.block (s.inode i).copy (off + k) := by
          rw [← haddr, ← addrOf, getBytes_eq_fileBytes (by omega), fileBytes]
          refine List.map_congr_left fun k hk => ?_
          have hk' := List.mem_range.mp hk
          have hbytes := (h.trans hgrown).bytes _ h.sound.inum_lt (off + k)
            (div_lt_MAXFILE (by omega))
          rw [h.inum, current_self, ← h.inum, ← hgrown.inum, current_self] at hbytes
          have hblock : (off + k) / BSIZE = off / BSIZE :=
            div_eq_of_lt (m := m) (by omega) (by omega) (by omega)
          rw [← hbytes, byteAt, hblock, if_neg hne]
        have hlen : (acc ++ getBytes (u.block addr) (off % BSIZE) m).length = off + m := by
          rw [hdata, List.length_append, List.length_map, List.length_range]
        rw [← hlen]
        refine ih (by omega) (by omega) ?_ hsub (h.trans hgrown) fun pos hpos => ?_
        · rw [hlen, List.range_add, List.map_append, ← hacc, hdata, List.map_map]
          rfl
        · rcases Nat.lt_or_ge pos off with hlt' | hge
          · exact hkeep pos hlt'
          · rwa [div_eq_of_lt (m := m) (by omega) hge (by omega)]
    · rw [if_neg hlt, meets_pure]
      exact ⟨_, hle, K, hK, congrArg some hacc, h, hpresent, by omega⟩

/-- **A file is read to its end** exactly if there are blocks for its holes. -/
theorem meets_readi_grown {E : String → Prop} (h : Sound sb D i s)
    (hmax : (s.inode i).copy.size ≤ MAXFILE * BSIZE) :
    Meets (readi sb i none 0 (s.inode i).copy.size) s (fun r _ => ∃ m ≤ (s.inode i).copy.size,
      r = some ((List.range m).map (byteAt s.block (s.inode i).copy)) ∧
      (m = (s.inode i).copy.size ↔ (missing s.block (s.inode i).copy 0 (s.inode i).copy.size).card ≤
        (freeBlocks sb s.bitmap).card)) E := by
  rw [readi, meets_bind, meets_copyOf, if_neg (by omega), Nat.zero_add, if_neg (lt_irrefl _)]
  have hloop : Meets (readiLoop sb i none _ _ ([] : List UInt8).length []) s _ E :=
    meets_readiLoop_grown hmax (Nat.sub_le _ _) (Nat.zero_le _) rfl (Finset.empty_subset _)
      (.refl h) fun pos hpos => absurd hpos (Nat.not_lt_zero _)
  refine hloop.imp ?_
  rintro r u ⟨m, hm, L, hL, rfl, hgrown, hpresent, hstop⟩
  refine ⟨m, hm, rfl, fun heq => ?_, fun hfree => ?_⟩
  · -- each slot that was missing has a block now
    have hsub : missing s.block (s.inode i).copy 0 (s.inode i).copy.size ⊆ L := by
      intro k hk
      obtain ⟨hneeded, h0⟩ := Finset.mem_filter.mp hk
      obtain ⟨pos, hpos, hmem⟩ := Finset.mem_biUnion.mp hneeded
      have hlt : pos < m := by
        have := (Finset.mem_Ico.mp hpos).2
        omega
      obtain ⟨hk', hne⟩ := slot_ne_zero_of_mem hmem (div_lt_MAXFILE (by omega)) (hpresent pos hlt)
      by_contra hnot
      exact hne ((hgrown.slots k hk' hnot).trans h0)
    have := Finset.card_le_card hsub
    have := hgrown.free
    omega
  · by_contra hne
    obtain ⟨hnone, h0⟩ := hstop (by omega)
    exact absurd hfree (Nat.not_le.mpr (hgrown.exhausted hL hnone (Nat.zero_le m) (by omega)
      (by omega) h0))

/-! ## What is written -/

/-- **`n` bytes are written:** entry `i` has the source at `off`, and all else is as before. -/
structure Written (sb : Superblock) (D : ℕ → Dinode) (i : ℕ) (src : Bytes) (off n : ℕ)
    (s t : State) : Prop where
  off_le : off ≤ (s.inode i).copy.size
  sound : Sound sb D i t
  entry : ∃ d, t.inode i = { s.inode i with copy := d }
  size : (t.inode i).copy.size = max (s.inode i).copy.size (off + n)
  bytes : ∀ pos, pos / BSIZE < MAXFILE → byteAt t.block (t.inode i).copy pos =
    overwritten (byteAt s.block (s.inode i).copy) off n src pos
  noHoles : NoHoles t.block (t.inode i).copy
  others : ∀ j < sb.ninodes, j ≠ (s.inode i).inum → ∀ pos, pos / BSIZE < MAXFILE →
    addrOf t.block (D j) (pos / BSIZE) = addrOf s.block (D j) (pos / BSIZE) ∧
      byteAt t.block (D j) pos = byteAt s.block (D j) pos
  inode_ne : ∀ j ≠ i, t.inode j = s.inode j
  dinode_ne : ∀ j ≠ (s.inode i).inum, t.dinode j = s.dinode j

theorem inode_resized {size : ℕ} : (resized s i size).inode i =
    { s.inode i with copy := { (s.inode i).copy with size := size } } := inode_setInode_self

/-- The size does not matter for the blocks. -/
theorem Sound.resized (h : Sound sb D i s) (size : ℕ) : Sound sb D i (resized s i size) := by
  obtain ⟨used, hrefs, hused⟩ := h.refs
  refine ⟨by rw [inode_resized]; exact h.inum_lt, ⟨used, ?_, hused⟩, h.low, h.size_le⟩
  refine hrefs.congr (fun j _ k _ => ?_) fun _ _ => Iff.rfl
  rw [current, inode_resized]
  by_cases hj : j = (s.inode i).inum
  · rw [hj, Function.update_self, current_self]
    rfl
  · rw [Function.update_of_ne hj, current_of_ne hj]
    rfl

/-- The bytes of the file that is written. -/
theorem Wrote.bytes_self (h : Wrote sb D i src off K n s t) {pos : ℕ}
    (hpos : pos / BSIZE < MAXFILE) : byteAt t.block (t.inode i).copy pos =
    overwritten (byteAt s.block (s.inode i).copy) off n src pos := by
  have hbytes := h.bytes (t.inode i).inum h.sound.inum_lt pos hpos
  rw [current_self, h.inum, current_self] at hbytes
  rw [hbytes, overwritten]
  by_cases hin : off ≤ pos ∧ pos < off + n
  · rw [if_pos ⟨rfl, hin⟩, if_pos hin]
  · rw [if_neg fun hc => hin hc.2, if_neg hin]

/-- There are no holes up to where is written. -/
theorem Wrote.noHoles (h : Wrote sb D i src off K n s t) (hholes : NoHoles s.block (s.inode i).copy)
    (hsize : (s.inode i).copy.size ≤ MAXFILE * BSIZE) (hoff : off ≤ (s.inode i).copy.size) :
    ∀ bn < blocksOf (max (s.inode i).copy.size (off + n)),
      addrOf t.block (t.inode i).copy bn ≠ 0 := by
  intro bn hbn
  by_cases hold : bn < blocksOf (s.inode i).copy.size
  · have hne := hholes bn hold
    have hmax : bn < MAXFILE := by
      rw [blocksOf, Nat.lt_div_iff_mul_lt (by decide)] at hold
      have : bn * BSIZE < MAXFILE * BSIZE := by omega
      exact Nat.lt_of_mul_lt_mul_right this
    rw [addrOf, h.keeps (dataSlot_lt hmax) hne]
    exact hne
  · rw [blocksOf, Nat.lt_div_iff_mul_lt (by decide)] at hold hbn
    have hpos := h.present (bn * BSIZE) (by omega) (by omega)
    rwa [Nat.mul_div_cancel bn (by decide)] at hpos

/-- The size is set when everything is written. -/
theorem Wrote.written (h : Wrote sb D i src off K n s t)
    (hholes : NoHoles s.block (s.inode i).copy)
    (hsize : (s.inode i).copy.size ≤ MAXFILE * BSIZE) (hoff : off ≤ (s.inode i).copy.size) :
    Written sb D i src off n s (resized t i (max (s.inode i).copy.size (off + n))) where
  off_le := hoff
  sound := h.sound.resized _
  entry := by
    obtain ⟨addrs, heq⟩ := h.inode
    exact ⟨_, by rw [inode_resized, heq]⟩
  size := by rw [inode_resized]
  bytes pos hpos := by
    rw [inode_resized]
    exact h.bytes_self hpos
  noHoles bn hbn := by
    rw [inode_resized] at hbn ⊢
    exact h.noHoles hholes hsize hoff bn hbn
  others j hj hne pos hpos := by
    have hbytes := h.bytes j hj pos hpos
    rw [if_neg fun hc => hne hc.1, current_of_ne hne, current_of_ne (h.inum ▸ hne)] at hbytes
    exact ⟨h.others j hj hne _ (dataSlot_lt hpos), hbytes⟩
  inode_ne j hj := (inode_setInode_of_ne hj).trans (h.inode_ne j hj)
  dinode_ne j hj := by
    refine (Function.update_of_ne ?_ ..).trans (congrFun h.dinode j)
    exact h.inum ▸ hj

/-- **A write of which everything is reported.** -/
theorem Written.of_writei (h : Sound sb D i s) (hholes : NoHoles s.block (s.inode i).copy)
    (hsize : (s.inode i).copy.size ≤ MAXFILE * BSIZE)
    (hwrite : writei sb i src limit off n s = .ok ((n : ℤ), t)) :
    Written sb D i src off n s t ∧ (t.inode i).copy.size ≤ MAXFILE * BSIZE := by
  by_cases hbad : (s.inode i).copy.size < off ∨ (off + n) % 2 ^ 32 < off ∨
      MAXFILE * BSIZE < off + n
  · have hfail : (n : ℤ) = -1 :=
      ((meets_writei_fail (E := Never) (Q := fun r _ => r = -1) hbad).mpr rfl).of_ok hwrite
    omega
  have hoff : off ≤ (s.inode i).copy.size := by omega
  have hmax : off + n ≤ MAXFILE * BSIZE := by omega
  obtain ⟨tot, u, heq, hstops, rfl⟩ :=
    (meets_writei (E := Never) h hoff hmax).of_ok hwrite
  obtain rfl : n = tot := Int.ofNat.inj heq
  have hwrote : ∃ K, Wrote sb D i src off K n s u := by
    cases hstops with
    | all h _ => exact ⟨_, h⟩
    | full _ hlt => exact absurd hlt (lt_irrefl _)
    | fault _ hlt => exact absurd hlt (lt_irrefl _)
  obtain ⟨K, hwrote⟩ := hwrote
  refine ⟨hwrote.written hholes hsize hoff, ?_⟩
  rw [inode_resized]
  exact Nat.max_le.mpr ⟨hsize, hmax⟩

/-- **There are enough blocks:** everything is written. -/
theorem writei_all (h : Sound sb D i s) (hoff : off ≤ (s.inode i).copy.size)
    (hmax : off + n ≤ MAXFILE * BSIZE) (hreach : reaches limit n)
    (hfree : (missing s.block (s.inode i).copy off n).card ≤ (freeBlocks sb s.bitmap).card) :
    ∃ t, writei sb i src limit off n s = .ok ((n : ℤ), t) := by
  have hmeets : Meets (writei sb i src limit off n) s _ Never := meets_writei h hoff hmax
  obtain ⟨r, t, heq, tot, u, rfl, hstops, -⟩ := hmeets.exists_ok fun _ => id
  refine ⟨t, ?_⟩
  cases hstops with
  | all _ _ => exact heq
  | @full K tot u hwrote hlt hneeded hnone _ h0 =>
    exact absurd hfree (Nat.not_le.mpr (hwrote.exhausted hneeded hnone (Nat.le_add_right off tot)
      (by omega) hmax h0))
  | fault _ hlt _ _ _ hc hne =>
    have hmod : (off + tot) % BSIZE < BSIZE := Nat.mod_lt _ (by decide)
    refine absurd (hc.trans ((accessible_eq (by omega)).mpr ?_)) hne
    exact reaches_mono hreach (by omega)

/-- **`writei` and `readi` implement a byte array.** -/
theorem byte_array (h : Sound sb D i s) (hholes : NoHoles s.block (s.inode i).copy)
    (hsize : (s.inode i).copy.size ≤ MAXFILE * BSIZE) :
    (∀ (src : Bytes) (limit : Option ℕ) (off n : ℕ), off ≤ (s.inode i).copy.size →
      off + n ≤ MAXFILE * BSIZE → reaches limit n →
      (missing s.block (s.inode i).copy off n).card ≤ (freeBlocks sb s.bitmap).card →
      ∃ t, writei sb i src limit off n s = .ok ((n : ℤ), t) ∧
        (t.inode i).copy.size = max (s.inode i).copy.size (off + n) ∧
        (∀ (limit' : Option ℕ) (off' n' : ℕ), n' < 2 ^ 32 →
          readi sb i limit' off' n' t = .ok (readBytes (max (s.inode i).copy.size (off + n))
            (overwritten (byteAt s.block (s.inode i).copy) off n src) limit' off' n', t)) ∧
        (∀ j < sb.ninodes, j ≠ (s.inode i).inum → ∀ pos, pos / BSIZE < MAXFILE →
          addrOf t.block (D j) (pos / BSIZE) = addrOf s.block (D j) (pos / BSIZE) ∧
            byteAt t.block (D j) pos = byteAt s.block (D j) pos) ∧
        (∀ j ≠ i, t.inode j = s.inode j) ∧ ∀ j ≠ (s.inode i).inum, t.dinode j = s.dinode j) ∧
    ∀ (limit : Option ℕ) (off n : ℕ), n < 2 ^ 32 → readi sb i limit off n s =
      .ok (readBytes (s.inode i).copy.size (byteAt s.block (s.inode i).copy) limit off n, s) := by
  refine ⟨fun src limit off n hoff hmax hreach hfree => ?_, fun limit off n hn =>
    readi_eq hholes hsize (fun _ _ => rfl) hn⟩
  obtain ⟨t, hwrite⟩ : ∃ t, writei sb i src limit off n s = .ok ((n : ℤ), t) :=
    writei_all h hoff hmax hreach hfree
  obtain ⟨hwritten, hsize'⟩ := Written.of_writei h hholes hsize hwrite
  refine ⟨t, hwrite, hwritten.size, fun limit' off' n' hn' => ?_, hwritten.others,
    hwritten.inode_ne, hwritten.dinode_ne⟩
  rw [← hwritten.size]
  refine readi_eq hwritten.noHoles hsize' (fun pos hpos => hwritten.bytes pos ?_) hn'
  exact div_lt_MAXFILE (by omega)

/-- A file system of ten data blocks, in which inode 2 has five bytes in block 55. -/
def oneFile : State where
  bitmap := fun b => b < 50 || b == 55
  dinode := fun _ => .zero
  block := fun _ _ => 65
  inode := fun _ => {
    inum := 2
    ref := 1
    locked := false
    valid := true
    copy := { Dinode.zero with
      type := .T_FILE, size := 5, addrs := Function.update (fun _ => 0) 0 55 } }
  trace := []
  home := fun _ _ => 65
  pinned := fun _ => false

theorem slot_oneFile (j k : ℕ) :
    slot oneFile.block (current (fun _ => .zero) 0 oneFile j) k =
      if j = 2 ∧ k = 0 then 55 else 0 := by
  have hzero (k : ℕ) : slot oneFile.block Dinode.zero k = 0 := by
    unfold slot
    split_ifs with hk h0
    · rfl
    · rfl
    · exact absurd rfl h0
  by_cases hj : j = 2
  · subst hj
    refine (slot_setDirect (d := Dinode.zero) (j := 0) (by decide) k).trans ?_
    rw [hzero]
    simp
  · rw [current_of_ne hj, hzero, if_neg fun hc => hj hc.1]

theorem sound_oneFile : Sound ⟨60, 10, 3⟩ (fun _ => .zero) 0 oneFile := by
  refine ⟨by decide, ⟨(· = 55), ⟨by decide, fun j _ k _ h0 => ?_,
    fun j _ k _ j' _ k' _ h0 heq => ?_, fun b _ _ hb => ?_⟩, fun b hb => by subst hb; rfl⟩,
    fun b hb => ?_, by decide⟩
  · rw [slot_oneFile] at h0 ⊢
    split_ifs at h0 ⊢ with hjk
    · decide
    · exact absurd rfl h0
  · rw [slot_oneFile] at h0 heq
    rw [slot_oneFile] at heq
    split_ifs at h0 heq with hjk hjk'
    · exact ⟨hjk.1.trans hjk'.1.symm, hjk.2.trans hjk'.2.symm⟩
    · exact absurd rfl h0
  · exact ⟨2, by decide, 0, by decide, by rw [slot_oneFile, if_pos ⟨rfl, rfl⟩, hb]⟩
  · have hb' : b < 50 := hb
    simp [oneFile, hb']

theorem noHoles_oneFile : NoHoles oneFile.block (oneFile.inode 0).copy := by
  intro bn hbn
  obtain rfl : bn = 0 := Nat.lt_one_iff.mp hbn
  decide

/-- Two bytes are written over the file. -/
theorem byte_array_oneFile :
    ∃ t, writei ⟨60, 10, 3⟩ 0 (fun _ => 66) none 1 2 oneFile = .ok (2, t) ∧
      (t.inode 0).copy.size = 5 := by
  obtain ⟨t, hwrite, hsize, -⟩ :=
    (byte_array sound_oneFile noHoles_oneFile (by decide)).1 (fun _ => 66) none 1 2 (by decide)
      (by decide) (by rintro _ ⟨⟩) (by decide)
  exact ⟨t, hwrite, hsize⟩

/-! ## Short writes -/

/-- `t'` is read after `t`: blocks that can leave the cache may have been read again from disk. -/
def Rereads (t t' : State) : Prop :=
  t'.inode = t.inode ∧
    ∀ b, t'.block b = t.block b ∨ t.pinned b = false ∧ t'.block b = t.home b

/-- `writei` rejects the offset, or the number of bytes. -/
def Rejected (size off n : ℕ) : Prop :=
  size < off ∨ (off + n) % 2 ^ 32 < off ∨ MAXFILE * BSIZE < off + n

/-- If the copy fails, then the bytes that it has copied to the block in which it fails are those
that the file has there, or behind the file. -/
def Clean (limit : Option ℕ) (off n size : ℕ) (src : Bytes) (old : ℕ → UInt8) : Prop :=
  ∀ l, limit = some l → l < n → ∀ pos, max off ((off + l) / BSIZE * BSIZE) ≤ pos →
    pos < off + l → pos < size → src (pos - off) = old pos

/-- Blocks that are coherent are read again as they were. -/
theorem Coherent.reread {block : ℕ → Bytes} (h : Coherent s)
    (hblock : ∀ b, block b = s.block b ∨ s.pinned b = false ∧ block b = s.home b) :
    block = s.block := by
  funext b
  rcases hblock b with heq | ⟨hpin, heq⟩
  · exact heq
  · exact heq.trans (h b hpin)

/-- The partly written block may be read again. -/
theorem Coherent.reread_copiedTo {block : ℕ → Bytes} (h : Coherent s)
    (hblock : ∀ b, block b = (copiedTo s i off src tot m).block b ∨
      s.pinned b = false ∧ block b = s.home b) :
    block = s.block ∨ block = (copiedTo s i off src tot m).block := by
  set addr := addrOf s.block (s.inode i).copy (off / BSIZE)
  have hother : ∀ b ≠ addr, block b = s.block b := by
    intro b hb
    rcases hblock b with heq | ⟨hpin, heq⟩
    · exact heq.trans (Function.update_of_ne hb ..)
    · exact heq.trans (h b hpin)
  have hboth {block' : ℕ → Bytes} (hat : block addr = block' addr)
      (hne : ∀ b ≠ addr, block' b = s.block b) : block = block' := by
    funext b
    by_cases hb : b = addr
    · rw [hb, hat]
    · rw [hother b hb, hne b hb]
  rcases hblock addr with heq | ⟨hpin, heq⟩
  · exact .inr (hboth heq fun b hb => Function.update_of_ne hb ..)
  · exact .inl (hboth (heq.trans (h addr hpin)) fun _ _ => rfl)

/-- **Where the copy fails:** in the block in which the source ends, and from its start on. -/
theorem fault_limit (hlt : tot < n) (hstart : tot = 0 ∨ (off + tot) % BSIZE = 0)
    (hreach : reaches limit tot)
    (hc : m = accessible limit tot (min (n - tot) (BSIZE - (off + tot) % BSIZE)))
    (hne : m ≠ min (n - tot) (BSIZE - (off + tot) % BSIZE)) :
    limit = some (tot + m) ∧ tot + m < n ∧ (off + tot) % BSIZE + m ≤ BSIZE ∧
      max off ((off + (tot + m)) / BSIZE * BSIZE) = off + tot := by
  cases limit with
  | none => exact absurd hc hne
  | some l =>
    have hle : tot ≤ l := hreach l rfl
    rw [accessible] at hc
    obtain rfl : l = tot + m := by omega
    have hblock : (off + (tot + m)) / BSIZE = (off + tot) / BSIZE :=
      div_eq_of_lt (m := BSIZE - (off + tot) % BSIZE) (by omega) (by omega) (by omega)
    have hdiv := Nat.div_add_mod (off + tot) BSIZE
    refine ⟨rfl, by omega, by omega, ?_⟩
    rw [hblock, Nat.mul_comm]
    omega

/-- **What is there when `writei` stops:** what is reported to be written, and `c` more bytes that
are not logged. -/
theorem Stops.blocks (h : Stops sb D i src limit off n s tot t) (hcoherent : Coherent s)
    (hholes : NoHoles s.block (s.inode i).copy) (hmax : off + n ≤ MAXFILE * BSIZE) :
    ∃ K u c, Wrote sb D i src off K tot s u ∧ t.inode = u.inode ∧ tot ≤ n ∧
      (∀ block : ℕ → Bytes, (∀ b, block b = t.block b ∨ t.pinned b = false ∧ block b = t.home b) →
        block = u.block ∨ block = t.block) ∧
      (∀ k, slot t.block (u.inode i).copy k = slot u.block (u.inode i).copy k) ∧
      (∀ pos, pos / BSIZE < MAXFILE → byteAt t.block (u.inode i).copy pos =
        if off + tot ≤ pos ∧ pos < off + tot + c then src (pos - off)
        else byteAt u.block (u.inode i).copy pos) ∧
      ∀ old, Clean limit off n (s.inode i).copy.size src old ↔ ∀ pos, off + tot ≤ pos →
        pos < off + tot + c → pos < (s.inode i).copy.size → src (pos - off) = old pos := by
  cases h with
  | all h hreach =>
    refine ⟨_, _, 0, h, rfl, le_refl _, fun _ hb => .inl ((h.coherent hcoherent).reread hb),
      fun _ => rfl, fun pos _ => by rw [if_neg (by omega)], fun old => ⟨fun _ => by omega, ?_⟩⟩
    intro _ l hl hlt
    exact absurd (hreach l hl) (Nat.not_le.mpr hlt)
  | full h hlt _ _ hreach h0 =>
    refine ⟨_, _, 0, h, rfl, hlt.le, fun _ hb => .inl ((h.coherent hcoherent).reread hb),
      fun _ => rfl, fun pos _ => by rw [if_neg (by omega)], fun old => ⟨fun _ => by omega, ?_⟩⟩
    -- the block that is missing is behind the file, and so is the one in which the source ends
    intro _ l hl _ pos hle _ hpos
    have hbn : (off + tot) / BSIZE < MAXFILE := div_lt_MAXFILE (by omega)
    have hbehind : ¬(off + tot) / BSIZE < blocksOf (s.inode i).copy.size := by
      intro hin
      have hne := hholes _ hin
      rw [addrOf, h.keeps (dataSlot_lt hbn) hne] at h0
      exact hne h0
    have hdiv : (off + tot) / BSIZE ≤ (off + l) / BSIZE :=
      Nat.div_le_div_right (Nat.add_le_add_left (hreach l hl) _)
    rw [blocksOf, Nat.lt_div_iff_mul_lt (by decide)] at hbehind
    have := Nat.mul_le_mul_right BSIZE hdiv
    omega
  | @fault K tot c u h hlt hstart h0 hreach hc hne =>
    obtain ⟨hlimit, hlast, hfits, hblock⟩ := fault_limit hlt hstart hreach hc hne
    have hbn : (off + tot) / BSIZE < MAXFILE := div_lt_MAXFILE (by omega)
    refine ⟨K, u, c, h, rfl, hlt.le, fun _ hb => (h.coherent hcoherent).reread_copiedTo hb,
      h.sound.slot_write_self (dataSlot_lt hbn) (dataSlot_ne _) h0, fun pos hpos => ?_,
      fun old => ⟨fun hclean pos hle hlt => ?_, fun hsame l hl _ pos hle hlt => ?_⟩⟩
    · have hbyte : byteAt (copiedTo u i (off + tot) src tot c).block
          (current D i u (u.inode i).inum) pos = _ :=
        h.sound.byteAt_write hbn h0 hfits h.sound.inum_lt hpos
      rw [current_self] at hbyte
      rw [hbyte]
      by_cases hin : off + tot ≤ pos ∧ pos < off + tot + c
      · rw [if_pos ⟨rfl, hin⟩, if_pos hin]
        congr 1
        omega
      · rw [if_neg fun hc => hin hc.2, if_neg hin]
    · exact hclean _ hlimit hlast pos (by rwa [hblock]) (by omega)
    · obtain rfl := Option.some.inj (hlimit.symm.trans hl)
      rw [hblock] at hle
      exact hsame pos hle (by omega)

/-- **When a short or failed write changes nothing beyond what it reports:** exactly if it is
rejected, or the source is clean. -/
theorem short_write (h : Sound sb D i s) (hholes : NoHoles s.block (s.inode i).copy)
    (hsize : (s.inode i).copy.size ≤ MAXFILE * BSIZE) (hcoherent : Coherent s) :
    ∃ r t, writei sb i src limit off n s = .ok (r, t) ∧
      ((∀ t', Rereads t t' → ∀ (limit' : Option ℕ) (off' n' : ℕ), n' < 2 ^ 32 →
        readi sb i limit' off' n' t' = .ok (readBytes
          (if r ≤ 0 then (s.inode i).copy.size else max (s.inode i).copy.size (off + r.toNat))
          (overwritten (byteAt s.block (s.inode i).copy) off r.toNat src) limit' off' n', t')) ↔
      (Rejected (s.inode i).copy.size off n ∨
        Clean limit off n (s.inode i).copy.size src (byteAt s.block (s.inode i).copy))) := by
  by_cases hbad : Rejected (s.inode i).copy.size off n
  · have hmeets : Meets (writei sb i src limit off n) s (fun r t => r = -1 ∧ s = t) Never :=
      (meets_writei_fail hbad).mpr ⟨rfl, rfl⟩
    obtain ⟨_, _, hwrite, rfl, rfl⟩ := hmeets.exists_ok fun _ => id
    refine ⟨-1, s, hwrite, fun _ => .inl hbad, fun _ t' ⟨hinode, hblock⟩ limit' off' n' hn' => ?_⟩
    have hsame := hcoherent.reread hblock
    rw [if_pos (by decide), ← hinode]
    refine readi_eq (by rwa [hinode, hsame]) (by rwa [hinode]) (fun pos _ => ?_) hn'
    rw [hinode, hsame, overwritten, if_neg]
    simp
  have hgood := hbad
  rw [Rejected] at hgood
  have hmeets : Meets (writei sb i src limit off n) s _ Never :=
    meets_writei h (by omega) (by omega)
  obtain ⟨_, _, hwrite, tot, v, rfl, hstops, rfl⟩ := hmeets.exists_ok fun _ => id
  obtain ⟨K, u, c, hwrote, hv, htot, hblocks, hslot, hbytes, hclean⟩ :=
    hstops.blocks hcoherent hholes (by omega)
  refine ⟨_, _, hwrite, ?_⟩
  set size := max (s.inode i).copy.size (off + tot) with hmaxsize
  have hle : size ≤ MAXFILE * BSIZE := by omega
  have hreported : (if (tot : ℤ) ≤ 0 then (s.inode i).copy.size
      else max (s.inode i).copy.size (off + (tot : ℤ).toNat)) = size := by
    rw [Int.toNat_natCast]
    split_ifs <;> omega
  rw [hreported, Int.toNat_natCast, or_iff_right hbad, hclean]
  -- what is read of the blocks, whichever they are
  have hread {t' : State} {bytes : ℕ → UInt8} (hreread : Rereads (resized v i size) t')
      (hsame : ∀ pos < size, byteAt t'.block (u.inode i).copy pos = bytes pos) (limit' : Option ℕ)
      (off' n' : ℕ) (hn' : n' < 2 ^ 32) :
      readi sb i limit' off' n' t' = .ok (readBytes size bytes limit' off' n', t') := by
    have hentry : (t'.inode i).copy = { (u.inode i).copy with size := size } := by
      rw [hreread.1, inode_resized, hv]
    have hsize' : (t'.inode i).copy.size = size := by rw [hentry]
    rw [← hsize']
    refine readi_eq (fun bn hbn => ?_) (by omega) (fun pos hpos => ?_) hn'
    · rw [hentry] at hbn ⊢
      have hne := hwrote.noHoles hholes hsize (by omega) bn hbn
      rcases hblocks t'.block hreread.2 with heq | heq
      · rwa [heq]
      · rw [heq]
        exact (hslot _).trans_ne hne
    · rw [hentry] at hpos ⊢
      exact hsame pos hpos
  have hposm {pos : ℕ} (hpos : pos < size) : pos / BSIZE < MAXFILE :=
    div_lt_MAXFILE (hpos.trans_le hle)
  refine ⟨fun hall pos hle hlt hpos => ?_, fun hsame t' hreread => hread hreread fun pos hpos => ?_⟩
  · -- a byte that is copied but not reported is read from the cache
    have hsize' : pos < size := by omega
    have hself : Rereads (resized v i size) (resized v i size) := ⟨rfl, fun _ => .inl rfl⟩
    have hone := (hall _ hself none pos 1 (by decide)).symm.trans
      (hread hself (fun _ _ => rfl) none pos 1 (by decide))
    have hbig : MAXFILE * BSIZE + 1 < 2 ^ 32 := by decide
    rw [readBytes_one hsize' (by omega), readBytes_one hsize' (by omega)] at hone
    simp only [Outcome.ok.injEq, Prod.mk.injEq, Option.some.injEq, List.cons.injEq, and_true] at hone
    rw [overwritten, if_neg (by omega)] at hone
    rw [hone]
    refine ((hbytes pos (hposm hsize')).trans (if_pos ⟨hle, hlt⟩)).symm
  · rw [← hwrote.bytes_self (hposm hpos)]
    rcases hblocks t'.block hreread.2 with heq | heq
    · rw [heq]
    · rw [heq]
      refine (hbytes pos (hposm hpos)).trans ?_
      split_ifs with hin
      · rw [hsame pos hin.1 hin.2 (by omega), hwrote.bytes_self (hposm hpos), overwritten,
          if_neg (by omega)]
      · rfl

/-- Two bytes of four can be copied, behind the end of the file: the block changes, and the file is
read as before. -/
theorem short_write_oneFile :
    ∃ t, writei ⟨60, 10, 3⟩ 0 (fun _ => 66) (some 2) 5 4 oneFile = .ok (0, t) ∧
      t.block 55 5 = 66 ∧ ∀ t', Rereads t t' →
        readi ⟨60, 10, 3⟩ 0 none 0 9 t' = .ok (some [65, 65, 65, 65, 65], t') := by
  obtain ⟨r, t, hwrite, hiff⟩ : ∃ r t, writei ⟨60, 10, 3⟩ 0 (fun _ => 66) (some 2) 5 4 oneFile =
      .ok (r, t) ∧ (_ ↔ _) :=
    short_write sound_oneFile noHoles_oneFile (by decide) (fun _ _ => rfl)
  have hclean : Clean (some 2) 5 4 5 (fun _ => 66) (byteAt oneFile.block (oneFile.inode 0).copy) := by
    intro l _ _ pos hle _ hpos
    omega
  have hzero : writei ⟨60, 10, 3⟩ 0 (fun _ => 66) (some 2) 5 4 oneFile = .ok (0, _) := rfl
  obtain ⟨rfl, rfl⟩ := Prod.mk.inj (Outcome.ok.inj (hzero.symm.trans hwrite))
  exact ⟨_, hzero, rfl, fun t' hreread => hiff.mpr (.inr hclean) t' hreread none 0 9 (by decide)⟩

/-- **Two bytes of four can be copied.** 0 is returned, but they are in the file until the block is
read again from disk. -/
theorem partial_copy :
    ∃ t t', writei ⟨60, 10, 3⟩ 0 (fun _ => 66) (some 2) 1 4 oneFile = .ok (0, t) ∧ Rereads t t' ∧
      readi ⟨60, 10, 3⟩ 0 none 0 5 oneFile = .ok (some [65, 65, 65, 65, 65], oneFile) ∧
      readi ⟨60, 10, 3⟩ 0 none 0 5 t = .ok (some [65, 66, 66, 65, 65], t) ∧
      readi ⟨60, 10, 3⟩ 0 none 0 5 t' = .ok (some [65, 65, 65, 65, 65], t') := by
  let u := copiedTo oneFile 0 1 (fun _ => 66) 0 2
  let t : State := { u.setDinode 2 (u.inode 0).copy with trace := [.log_write (.inodes 0)] }
  exact ⟨t, { t with block := t.home }, rfl, ⟨rfl, fun _ => .inr ⟨rfl, rfl⟩⟩, rfl, rfl, rfl⟩

end Xv6.Fs
