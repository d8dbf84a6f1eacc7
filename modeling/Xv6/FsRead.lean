import Mathlib.Data.List.TakeWhile
import Xv6.FsFormat

/-!
# Reading files and directories

`readi` calls `bmap`, which allocates a block where there is none. Where there
is one, reading changes nothing: `bmap` returns the address that the format
gives (`meets_bmap`), `readi` returns the bytes of the file (`meets_readi`), and
`dirlookup` finds the first entry with the name (`meets_dirlookupLoop_some`).
The rules are equivalences, so that code that reads is executed by rewriting.
-/

namespace Xv6.Fs

open List

open Prog

/-! ## Bytes -/

/-- `n` bytes of a file, from `off` on. -/
def fileBytes (block : ℕ → Bytes) (d : Dinode) (off n : ℕ) : List UInt8 :=
  (List.range n).map fun k => fileByte block d (off + k)

/-- There is a block for each of the `n` bytes from `off` on that are in the file. -/
def Present (block : ℕ → Bytes) (d : Dinode) (off n : ℕ) : Prop :=
  ∀ pos, off ≤ pos → pos < off + n → pos < d.size →
    pos / BSIZE < MAXFILE ∧ addrOf block d (pos / BSIZE) ≠ 0

/-- `n` bytes of the buffer can be accessed. -/
def reaches (limit : Option ℕ) (n : ℕ) : Prop := ∀ l, limit = some l → n ≤ l

instance (limit : Option ℕ) (n : ℕ) : Decidable (reaches limit n) :=
  match limit with
  | none => .isTrue nofun
  | some l => decidable_of_iff (n ≤ l) ⟨fun h _ heq => Option.some.inj heq ▸ h, fun h => h l rfl⟩

section

variable {block : ℕ → Bytes} {d : Dinode} {off m n : ℕ} {limit : Option ℕ}

@[simp]
theorem length_fileBytes : (fileBytes block d off n).length = n := by simp [fileBytes]

theorem fileBytes_add :
    fileBytes block d off (m + n) = fileBytes block d off m ++ fileBytes block d (off + m) n := by
  rw [fileBytes, range_add, map_append, map_map, fileBytes, fileBytes]
  simp only [Function.comp_def, Nat.add_assoc]

/-- The bytes of one block. -/
theorem getBytes_eq_fileBytes (h : off % BSIZE + n ≤ BSIZE) :
    getBytes (block (addrOf block d (off / BSIZE))) (off % BSIZE) n = fileBytes block d off n := by
  refine map_congr_left fun k hk => ?_
  have hlt : off % BSIZE + k < BSIZE := by
    have := mem_range.mp hk
    omega
  have heq : off + k = BSIZE * (off / BSIZE) + (off % BSIZE + k) := by
    have := Nat.div_add_mod off BSIZE
    omega
  rw [fileByte, heq, Nat.mul_add_div (by decide), Nat.div_eq_of_lt hlt, Nat.add_zero,
    Nat.mul_add_mod, Nat.mod_eq_of_lt hlt]

/-- A position in a file that is not too large is in one of its blocks. -/
theorem div_lt_MAXFILE {pos : ℕ} (h : pos < MAXFILE * BSIZE) : pos / BSIZE < MAXFILE :=
  (Nat.div_lt_iff_lt_mul (by decide)).mpr h

theorem NoHoles.present (h : NoHoles block d) (hsize : d.size ≤ MAXFILE * BSIZE) :
    Present block d off n := by
  intro pos _ _ hpos
  refine ⟨div_lt_MAXFILE (by omega), h _ ?_⟩
  have := Nat.div_mul_le_self pos BSIZE
  rw [blocksOf, Nat.lt_div_iff_mul_lt (by decide)]
  omega

theorem Present.mono {off' n' : ℕ} (h : Present block d off n) (hle : off ≤ off')
    (hend : off' + n' ≤ off + n) : Present block d off' n' :=
  fun pos hpos hpos' => h pos (hle.trans hpos) (hpos'.trans_le hend)

theorem reaches_mono (h : reaches limit n) (hle : m ≤ n) : reaches limit m :=
  fun l hl => hle.trans (h l hl)

theorem accessible_eq (hn : 0 < n) : accessible limit m n = n ↔ reaches limit (m + n) := by
  cases limit with
  | none => simp [accessible, reaches]
  | some l =>
    simp only [accessible, reaches, Option.some.injEq, forall_eq']
    omega

end

/-! ## `readi` -/

section

variable {sb : Superblock} {s : State} {i bn off n : ℕ} {limit : Option ℕ} {E : String → Prop}

theorem meets_copyOf {Q : Dinode → State → Prop} :
    Meets (copyOf i) s Q E ↔ Q (s.inode i).copy s :=
  Iff.rfl

theorem meets_loadAddr {j : ℕ} {Q : ℕ → State → Prop} (h : (s.inode i).copy.addrs j ≠ 0) :
    Meets (loadAddr sb i j) s Q E ↔ Q ((s.inode i).copy.addrs j) s := by
  rw [loadAddr, meets_bind, meets_copyOf, if_neg h, meets_pure]

/-- **`bmap` allocates nothing** for a block that is there. -/
theorem meets_bmap {Q : ℕ → State → Prop} (hbn : bn < MAXFILE)
    (h : addrOf s.block (s.inode i).copy bn ≠ 0) :
    Meets (bmap sb i bn) s Q E ↔ Q (addrOf s.block (s.inode i).copy bn) s := by
  unfold bmap
  split_ifs with hdirect hindirect
  · have haddr : addrOf s.block (s.inode i).copy bn = (s.inode i).copy.addrs bn := by
      rw [addrOf, dataSlot, if_pos hdirect, slot_direct hdirect.le]
    rw [haddr] at h ⊢
    exact meets_loadAddr h
  · obtain ⟨j, rfl⟩ : ∃ j, bn = NDIRECT + j := ⟨bn - NDIRECT, by omega⟩
    have hslot : dataSlot (NDIRECT + j) = NDIRECT + 1 + j := by
      rw [dataSlot, if_neg hdirect]
      omega
    have hind : (s.inode i).copy.addrs NDIRECT ≠ 0 := by
      intro h0
      refine h ?_
      rw [addrOf, hslot, slot, if_neg (by omega), if_pos h0]
    have haddr : addrOf s.block (s.inode i).copy (NDIRECT + j) =
        entry (s.block ((s.inode i).copy.addrs NDIRECT)) j := by
      rw [addrOf, hslot, slot_entry hind]
    rw [haddr] at h ⊢
    rw [meets_bind, meets_loadAddr hind, if_neg hind, Nat.add_sub_cancel_left, meets_bind,
      meets_get, if_neg h, meets_pure]
  · rw [MAXFILE] at hbn
    omega

/-- **The loop of `readi`** adds the bytes of the file to what has been read. -/
theorem meets_readiLoop {Q : Option (List UInt8) → State → Prop} {fuel : ℕ} {acc : List UInt8}
    (hfuel : n - acc.length ≤ fuel) (hacc : acc.length ≤ n) (hreach : reaches limit acc.length)
    (hsize : off + (n - acc.length) ≤ (s.inode i).copy.size)
    (hpresent : Present s.block (s.inode i).copy off (n - acc.length)) :
    Meets (readiLoop sb i limit n fuel off acc) s Q E ↔
      Q (if reaches limit n then
        some (acc ++ fileBytes s.block (s.inode i).copy off (n - acc.length)) else none) s := by
  induction fuel generalizing off acc with
  | zero =>
    have heq : acc.length = n := by omega
    rw [readiLoop, if_pos (heq ▸ hreach), heq, Nat.sub_self, fileBytes, range_zero,
      map_nil, append_nil, meets_pure]
  | succ fuel ih =>
    rw [readiLoop]
    by_cases hlt : acc.length < n
    · rw [if_pos hlt]
      set m := min (n - acc.length) (BSIZE - off % BSIZE) with hm
      have hmod : off % BSIZE < BSIZE := Nat.mod_lt _ (by decide)
      have hle : acc.length + m ≤ n := by omega
      obtain ⟨hbn, haddr⟩ := hpresent off (le_refl _) (by omega) (by omega)
      rw [meets_bind, meets_bmap hbn haddr, if_neg haddr]
      by_cases hpart : reaches limit (acc.length + m)
      · rw [if_neg (not_not.mpr ((accessible_eq (by omega)).mpr hpart)), meets_bind, meets_get,
          getBytes_eq_fileBytes (by omega)]
        have hlen : (acc ++ fileBytes s.block (s.inode i).copy off m).length = acc.length + m := by
          rw [length_append, length_fileBytes]
        rw [ih (by omega) (by omega) (by rwa [hlen]) (by omega) (hpresent.mono (by omega) (by omega)),
          hlen, append_assoc, ← fileBytes_add, show m + (n - (acc.length + m)) = n - acc.length
          from by omega]
      · rw [if_pos (mt (accessible_eq (by omega)).mp hpart),
          if_neg (fun hall => hpart (reaches_mono hall hle)), meets_pure]
    · have heq : acc.length = n := by omega
      rw [if_neg hlt, if_pos (heq ▸ hreach), heq, Nat.sub_self, fileBytes, range_zero,
        map_nil, append_nil, meets_pure]

/-- What `readi` returns if the file has its blocks. -/
def readiResult (block : ℕ → Bytes) (d : Dinode) (limit : Option ℕ) (off n : ℕ) :
    Option (List UInt8) :=
  if d.size < off ∨ (off + n) % 2 ^ 32 < off then some []
  else if reaches limit (min n (d.size - off)) then
    some (fileBytes block d off (min n (d.size - off)))
  else none

/-- **`readi` changes nothing,** and returns the bytes of the file. -/
theorem meets_readi {Q : Option (List UInt8) → State → Prop}
    (hpresent : Present s.block (s.inode i).copy off n) :
    Meets (readi sb i limit off n) s Q E ↔
      Q (readiResult s.block (s.inode i).copy limit off n) s := by
  rw [readi, meets_bind, meets_copyOf, readiResult]
  by_cases hbad : (s.inode i).copy.size < off ∨ (off + n) % 2 ^ 32 < off
  · rw [if_pos hbad, if_pos hbad, meets_pure]
  · have hn : (if (s.inode i).copy.size < off + n then (s.inode i).copy.size - off else n) =
        min n ((s.inode i).copy.size - off) := by
      split_ifs <;> omega
    rw [if_neg hbad, if_neg hbad, hn]
    refine meets_readiLoop (le_refl _) (Nat.zero_le _) (fun _ _ => Nat.zero_le _) ?_
      (hpresent.mono (le_refl _) ?_)
    · rw [length_nil]
      omega
    · rw [length_nil]
      omega

/-! ## Directories -/

/-- The directory entry at `off`. -/
def direntAt (block : ℕ → Bytes) (d : Dinode) (off : ℕ) : Dirent :=
  dirent (fileBytes block d off direntSize)

/-- There is a whole entry at `off`, with its block. -/
def HasEntry (block : ℕ → Bytes) (d : Dinode) (off : ℕ) : Prop :=
  off + direntSize ≤ d.size ∧ Present block d off direntSize

/-- The entry is in use, with the name. -/
def Dirent.Is (e : Dirent) (name : List UInt8) : Prop := e.inum ≠ 0 ∧ namecmp name e.name = 0

theorem meets_readDirent {msg : String} {Q : Dirent → State → Prop}
    (h : HasEntry s.block (s.inode i).copy off) :
    Meets (readDirent sb msg i off) s Q E ↔ Q (direntAt s.block (s.inode i).copy off) s := by
  obtain ⟨hsize, hpresent⟩ := h
  -- a block number in the file has no more than 32 bits by far
  have hbig : off + direntSize < 2 ^ 32 := by
    obtain ⟨hbn, -⟩ := hpresent off (le_refl _) (Nat.lt_add_of_pos_right (by decide))
      (Nat.lt_of_lt_of_le (Nat.lt_add_of_pos_right (by decide)) hsize)
    have hlt : off < MAXFILE * BSIZE := (Nat.div_lt_iff_lt_mul (by decide)).mp hbn
    have hmax : MAXFILE * BSIZE + direntSize < 2 ^ 32 := by decide
    omega
  have hresult : readiResult s.block (s.inode i).copy none off direntSize =
      some (fileBytes s.block (s.inode i).copy off direntSize) := by
    rw [readiResult, if_neg, if_pos nofun, Nat.min_eq_left (by omega)]
    omega
  rw [readDirent, meets_bind, meets_readi hpresent, hresult]
  rfl

variable {name : List UInt8} {Q : Option (ℕ × ℕ) → State → Prop}

/-- An entry that is not the one looked for. -/
theorem meets_dirlookupLoop_next (h : HasEntry s.block (s.inode i).copy off)
    (hne : ¬(direntAt s.block (s.inode i).copy off).Is name) {k : ℕ} :
    Meets (dirlookupLoop sb i name (k + 1) off) s Q E ↔
      Meets (dirlookupLoop sb i name k (off + direntSize)) s Q E := by
  rw [dirlookupLoop, meets_bind, meets_readDirent h]
  split_ifs with hfree hname
  · exact Iff.rfl
  · exact absurd ⟨hfree, hname⟩ hne
  · exact Iff.rfl

/-- **The name is found** in the first entry that has it. -/
theorem meets_dirlookupLoop_some {k m : ℕ} (hm : m < k)
    (hentry : ∀ j ≤ m, HasEntry s.block (s.inode i).copy (off + j * direntSize))
    (hbefore : ∀ j < m, ¬(direntAt s.block (s.inode i).copy (off + j * direntSize)).Is name)
    (hfound : (direntAt s.block (s.inode i).copy (off + m * direntSize)).Is name) :
    Meets (dirlookupLoop sb i name k off) s Q E ↔
      Meets (iget (direntAt s.block (s.inode i).copy (off + m * direntSize)).inum) s
        (fun ip t => Q (some (ip, off + m * direntSize)) t) E := by
  induction m generalizing off k with
  | zero =>
    obtain ⟨k, rfl⟩ := Nat.exists_eq_succ_of_ne_zero (Nat.ne_of_gt hm)
    have hentry := hentry 0 (le_refl _)
    rw [Nat.zero_mul, Nat.add_zero] at *
    rw [dirlookupLoop, meets_bind, meets_readDirent hentry, if_neg hfound.1, if_pos hfound.2,
      meets_bind]
    exact Iff.rfl
  | succ m ih =>
    obtain ⟨k, rfl⟩ := Nat.exists_eq_succ_of_ne_zero (Nat.ne_of_gt (Nat.zero_lt_of_lt hm))
    have hoff (j : ℕ) : off + (j + 1) * direntSize = off + direntSize + j * direntSize := by
      rw [Nat.add_mul, Nat.one_mul]
      omega
    have hentry0 := hentry 0 (Nat.zero_le _)
    have hbefore0 := hbefore 0 (Nat.succ_pos _)
    rw [Nat.zero_mul, Nat.add_zero] at hentry0 hbefore0
    rw [meets_dirlookupLoop_next hentry0 hbefore0, hoff]
    rw [hoff] at hfound
    refine ih (Nat.lt_of_succ_lt_succ hm) (fun j hj => ?_) (fun j hj => ?_) hfound
    · rw [← hoff]
      exact hentry (j + 1) (Nat.succ_le_succ hj)
    · rw [← hoff]
      exact hbefore (j + 1) (Nat.succ_lt_succ hj)

/-- **The name is not found.** -/
theorem meets_dirlookupLoop_none {k : ℕ}
    (hentry : ∀ j < k, HasEntry s.block (s.inode i).copy (off + j * direntSize))
    (hnone : ∀ j < k, ¬(direntAt s.block (s.inode i).copy (off + j * direntSize)).Is name) :
    Meets (dirlookupLoop sb i name k off) s Q E ↔ Q none s := by
  induction k generalizing off with
  | zero => exact Iff.rfl
  | succ k ih =>
    have hoff (j : ℕ) : off + (j + 1) * direntSize = off + direntSize + j * direntSize := by
      rw [Nat.add_mul, Nat.one_mul]
      omega
    have hentry0 := hentry 0 (Nat.succ_pos _)
    have hnone0 := hnone 0 (Nat.succ_pos _)
    rw [Nat.zero_mul, Nat.add_zero] at hentry0 hnone0
    rw [meets_dirlookupLoop_next hentry0 hnone0]
    refine ih (fun j hj => ?_) fun j hj => ?_
    · rw [← hoff]
      exact hentry (j + 1) (Nat.succ_lt_succ hj)
    · rw [← hoff]
      exact hnone (j + 1) (Nat.succ_lt_succ hj)

end

/-! ## Names -/

/-- The string in `n` bytes: it ends at a 0, or with the bytes. -/
def stringIn (n : ℕ) (bytes : List UInt8) : List UInt8 := (bytes.take n).takeWhile (· ≠ 0)

/-- The name in a field. -/
def nameOf (bytes : List UInt8) : List UInt8 := stringIn DIRSIZ bytes

section

variable {p q name : List UInt8}

theorem stringIn_succ (n : ℕ) (p : List UInt8) :
    stringIn (n + 1) p = if p.headD 0 ≠ 0 then p.headD 0 :: stringIn n p.tail else [] := by
  cases p with
  | nil => rfl
  | cons a p =>
    rw [stringIn, take_succ_cons, takeWhile_cons]
    by_cases ha : a = 0
    · simp [ha]
    · simp [ha, stringIn]

/-- `strncmp` compares the strings in `n` bytes. -/
theorem strncmp_eq_zero (n : ℕ) (p q : List UInt8) :
    strncmp n p q = 0 ↔ stringIn n p = stringIn n q := by
  induction n generalizing p q with
  | zero => exact ⟨fun _ => rfl, fun _ => rfl⟩
  | succ n ih =>
    rw [strncmp, stringIn_succ, stringIn_succ]
    generalize p.headD 0 = a, q.headD 0 = b
    by_cases heq : a = b
    · subst heq
      by_cases h0 : a = 0
      · simp [h0]
      · simp [h0, ih]
    · -- the strings differ in their first character, or one of them is empty
      rw [if_neg (fun h => heq h.2), Int.sub_eq_zero, Int.ofNat_inj, UInt8.toNat_inj]
      refine iff_of_false heq ?_
      split_ifs with h1 h2 h2
      · exact fun h => heq (List.cons.inj h).1
      · exact id
      · exact id
      · exact absurd ((not_not.mp h1).trans (not_not.mp h2).symm) heq

theorem namecmp_eq_zero : namecmp p q = 0 ↔ nameOf p = nameOf q := strncmp_eq_zero DIRSIZ p q

/-- `strncpy` copies the string. -/
theorem stringIn_strncpy (n : ℕ) (p : List UInt8) : stringIn n (strncpy n p) = stringIn n p := by
  induction n generalizing p with
  | zero => rfl
  | succ n ih =>
    rw [stringIn_succ, stringIn_succ, strncpy]
    split_ifs with h0 h1 h1
    · rw [headD_cons, tail_cons, ih]
    · exact absurd h0 h1
    · exact absurd rfl h1
    · rfl

theorem nameOf_strncpy : nameOf (strncpy DIRSIZ p) = nameOf p := stringIn_strncpy DIRSIZ p

/-- A name that fits is its own. -/
theorem nameOf_eq (hlen : name.length ≤ DIRSIZ) (hnul : 0 ∉ name) : nameOf name = name := by
  rw [nameOf, stringIn, take_of_length_le hlen, takeWhile_eq_self_iff]
  intro c hc
  simpa using fun h0 : c = 0 => hnul (h0 ▸ hc)

theorem length_strncpy (n : ℕ) (p : List UInt8) : (strncpy n p).length = n := by
  induction n generalizing p with
  | zero => rfl
  | succ n ih =>
    rw [strncpy]
    split_ifs
    · rw [length_cons, ih]
    · exact length_replicate

/-- The entry in the bytes written for it. -/
theorem dirent_direntBytes {inum : ℕ} (hinum : inum < 2 ^ 16) :
    (dirent (getBytes (direntBytes name inum) 0 direntSize)).inum = inum ∧
      nameOf (dirent (getBytes (direntBytes name inum) 0 direntSize)).name = nameOf name := by
  constructor
  · rw [dirent, field]
    have hcongr : getLE 2 (fun i => (getBytes (direntBytes name inum) 0 direntSize).getD i 0) 0 =
        getLE 2 (direntBytes name inum) 0 := getLE_congr ?_
    · dsimp only
      rw [hcongr, direntBytes, getLE_putLE _ _ hinum]
    · intro k _ hk
      have hk' : k < direntSize := hk.trans (by decide)
      simp [getBytes, getD_eq_getElem?_getD, hk']
  · have hname : (getBytes (direntBytes name inum) 0 direntSize).drop 2 = strncpy DIRSIZ name := by
      have hlen := length_strncpy DIRSIZ name
      refine ext_getElem ?_ fun k hk hk' => ?_
      · rw [hlen]
        simp [getBytes, direntSize, DIRSIZ]
      · rw [hlen] at hk'
        have hput : direntBytes name inum (2 + k) =
            putBytes (fun _ => 0) 2 (strncpy DIRSIZ name) (2 + k) :=
          putLE_of_ge _ (by omega)
        simp [getBytes, hput, putBytes, hlen, hk', getD_eq_getElem?_getD]
    rw [dirent, hname, nameOf_strncpy]

end

/-! ## The inode table -/

section

variable {s : State} {i j inum : ℕ} {ip ip' : Inode} {E : String → Prop}

@[simp]
theorem inode_setInode_self : (s.setInode i ip).inode i = ip := Function.update_self ..

theorem inode_setInode_of_ne (h : j ≠ i) : (s.setInode i ip).inode j = s.inode j :=
  Function.update_of_ne h ..

@[simp]
theorem dinode_setInode : (s.setInode i ip).dinode = s.dinode := rfl

@[simp]
theorem setInode_setInode : (s.setInode i ip).setInode i ip' = s.setInode i ip' := by
  simp [State.setInode]

/-- The inode is not in the table: the first free entry is taken for it. -/
theorem meets_iget_new {Q : ℕ → State → Prop}
    (hnew : ∀ j < NINODE, 0 < (s.inode j).ref → (s.inode j).inum ≠ inum) (hj : j < NINODE)
    (hfree : (s.inode j).ref = 0) (hfirst : ∀ j' < j, (s.inode j').ref ≠ 0) :
    Meets (iget inum) s Q E ↔
      Q j (s.setInode j { s.inode j with inum := inum, ref := 1, valid := false }) := by
  have hnone : (List.range NINODE).find? (fun i => 0 < (s.inode i).ref ∧ (s.inode i).inum = inum) =
      none := by
    rw [find?_eq_none]
    intro j hj
    simpa using hnew j (mem_range.mp hj)
  have hsome : (List.range NINODE).find? (fun i => (s.inode i).ref = 0) = some j := by
    rw [find?_range_eq_some]
    exact ⟨by simpa using hfree, mem_range.mpr hj, fun j' hj' => by simpa using hfirst j' hj'⟩
  rw [iget, meets_bind, meets_get, hnone]
  rw [hsome]
  exact Iff.rfl

/-- The inode is in the table. -/
theorem meets_iget_old {Q : ℕ → State → Prop} (hj : j < NINODE) (href : 0 < (s.inode j).ref)
    (hinum : (s.inode j).inum = inum)
    (hfirst : ∀ j' < j, 0 < (s.inode j').ref → (s.inode j').inum ≠ inum) :
    Meets (iget inum) s Q E ↔
      Q j (s.setInode j { s.inode j with ref := (s.inode j).ref + 1 }) := by
  have hsome : (List.range NINODE).find? (fun i => 0 < (s.inode i).ref ∧ (s.inode i).inum = inum) =
      some j := by
    rw [find?_range_eq_some]
    refine ⟨by simp [href, hinum], mem_range.mpr hj, fun j' hj' => ?_⟩
    simpa only [Bool.not_eq_true', decide_eq_false_iff_not, not_and] using hfirst j' hj'
  rw [iget, meets_bind, meets_get, hsome]
  exact Iff.rfl

theorem meets_acquiresleep {Q : Unit → State → Prop} (hlocked : (s.inode i).locked = false) :
    Meets (acquiresleep i) s Q E ↔ Q () (s.setInode i { s.inode i with locked := true }) := by
  rw [acquiresleep, meets_bind, meets_get, hlocked, if_neg Bool.false_ne_true]
  exact Iff.rfl

/-- The inode is read from disk. -/
theorem meets_ilock_load {Q : Unit → State → Prop} (href : 0 < (s.inode i).ref)
    (hlocked : (s.inode i).locked = false) (hvalid : (s.inode i).valid = false)
    (htype : (s.dinode (s.inode i).inum).type ≠ .free) :
    Meets (ilock i) s Q E ↔ Q () (s.setInode i { s.inode i with
      locked := true, copy := s.dinode (s.inode i).inum, valid := true }) := by
  rw [ilock, meets_bind, meets_get, if_neg (Nat.not_lt.mpr href), meets_bind,
    meets_acquiresleep hlocked, meets_bind, meets_get, inode_setInode_self, hvalid]
  simp only [Bool.not_false, if_true, dinode_setInode, setIp, meets_bind, meets_modify,
    setInode_setInode, inode_setInode_self]
  change Meets (if (s.dinode (s.inode i).inum).type = .free then _ else _) _ Q E ↔ _
  rw [if_neg htype, meets_pure]

theorem meets_ilock_valid {Q : Unit → State → Prop} (href : 0 < (s.inode i).ref)
    (hlocked : (s.inode i).locked = false) (hvalid : (s.inode i).valid = true) :
    Meets (ilock i) s Q E ↔ Q () (s.setInode i { s.inode i with locked := true }) := by
  rw [ilock, meets_bind, meets_get, if_neg (Nat.not_lt.mpr href), meets_bind,
    meets_acquiresleep hlocked, meets_bind, meets_get, inode_setInode_self, hvalid]
  exact Iff.rfl

theorem meets_iunlock {Q : Unit → State → Prop} (href : 0 < (s.inode i).ref)
    (hlocked : (s.inode i).locked = true) :
    Meets (iunlock i) s Q E ↔ Q () (s.setInode i { s.inode i with locked := false }) := by
  rw [iunlock, meets_bind, meets_get, if_neg (by simp [hlocked, href.ne'])]
  exact Iff.rfl

end

end Xv6.Fs
