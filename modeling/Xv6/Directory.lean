import Xv6.FsFile

/-!
# Directories are finite maps

A directory is an array of entries, of which some are free. As long as no two
entries in use have the same name, the array represents a map from names to
inodes (`contents`); names are the same if `namecmp` says so. An entry is
written as a whole, since no entry extends over the end of a block: `writei`
either writes all of it or leaves the directory as it is (`writei_dirent`). So
`dirlink` adds a name to the map, or changes nothing, and what `sys_unlink`
writes removes one (`directory_map`).
-/

namespace Xv6.Fs

open List

open Prog

/-! ## Arrays of entries -/

section

instance (e : Dirent) (name : List UInt8) : Decidable (e.Is name) :=
  inferInstanceAs (Decidable (_ ∧ _))

/-- The number of the first entry with the name. -/
def slotOf (e : ℕ → Dirent) (n : ℕ) (name : List UInt8) : Option ℕ :=
  (List.range n).find? fun j => (e j).Is name

/-- The inode that the entries have for a name. -/
def contents (e : ℕ → Dirent) (n : ℕ) (name : List UInt8) : Option ℕ :=
  (slotOf e n name).map fun j => (e j).inum

/-- The names of the entries in use are different. -/
def Distinct (e : ℕ → Dirent) (n : ℕ) : Prop :=
  ∀ j < n, ∀ k < n, ∀ name, (e j).Is name → (e k).Is name → j = k

variable {e e' : ℕ → Dirent} {d : Dirent} {n n' j k v : ℕ} {name name' : List UInt8}

theorem slotOf_eq_none : slotOf e n name = none ↔ ∀ j < n, ¬(e j).Is name := by
  simp [slotOf]

theorem slotOf_eq_some :
    slotOf e n name = some j ↔ j < n ∧ (e j).Is name ∧ ∀ k < j, ¬(e k).Is name := by
  simp [slotOf, find?_range_eq_some, and_left_comm]

theorem contents_eq_none : contents e n name = none ↔ ∀ j < n, ¬(e j).Is name := by
  rw [contents, Option.map_eq_none_iff, slotOf_eq_none]

/-- **Any entry with the name counts,** if no two have it. -/
theorem Distinct.contents_eq_some (h : Distinct e n) :
    contents e n name = some v ↔ ∃ j < n, (e j).Is name ∧ (e j).inum = v := by
  rw [contents, Option.map_eq_some_iff]
  constructor
  · rintro ⟨j, hj, hv⟩
    rw [slotOf_eq_some] at hj
    exact ⟨j, hj.1, hj.2.1, hv⟩
  · rintro ⟨j, hj, his, hv⟩
    refine ⟨j, slotOf_eq_some.mpr ⟨hj, his, fun k hk hk' => ?_⟩, hv⟩
    exact absurd (h k (hk.trans hj) j hj name hk' his) (Nat.ne_of_lt hk)

/-- Names are compared with the same result, whichever name is written. -/
theorem Dirent.Is.iff (h : d.Is name) : d.Is name' ↔ namecmp name' name = 0 := by
  rw [Dirent.Is, namecmp_eq_zero, namecmp_eq_zero, ← namecmp_eq_zero.mp h.2]
  exact ⟨And.right, fun heq => ⟨h.1, heq⟩⟩

/-- **An entry is written** where none was in use: its name is added. -/
theorem Distinct.insert (h : Distinct e n) (hj : j ≤ n) (hfree : j < n → (e j).inum = 0)
    (hnone : contents e n name = none) (hd : (e' j).Is name)
    (heq : ∀ k < n, k ≠ j → e' k = e k) :
    Distinct e' (max n (j + 1)) ∧ ∀ name', contents e' (max n (j + 1)) name' =
      if namecmp name' name = 0 then some (e' j).inum else contents e n name' := by
  rw [contents_eq_none] at hnone
  -- an entry other than the one written is one of those from before, with another name
  have hold (k : ℕ) (hk : k < max n (j + 1)) (hne : k ≠ j) : k < n ∧ e' k = e k := by
    have : k < n := by omega
    exact ⟨this, heq k this hne⟩
  have hother (k : ℕ) (hk : k < max n (j + 1)) (hne : k ≠ j) {name' : List UInt8}
      (his : (e' k).Is name') : ¬(e' j).Is name' := by
    obtain ⟨hk, hek⟩ := hold k hk hne
    intro his'
    rw [hek] at his
    refine hnone k hk ⟨his.1, ?_⟩
    rw [namecmp_eq_zero, ← namecmp_eq_zero.mp his.2, namecmp_eq_zero.mp his'.2,
      namecmp_eq_zero.mp hd.2]
  have hdistinct : Distinct e' (max n (j + 1)) := by
    intro k hk l hl name' hk' hl'
    by_cases hkj : k = j
    · by_contra hne
      exact hother l hl (fun hlj => hne (hkj.trans hlj.symm)) hl' (hkj ▸ hk')
    · by_cases hlj : l = j
      · exact absurd (hlj ▸ hl') (hother k hk hkj hk')
      · obtain ⟨hk, hek⟩ := hold k hk hkj
        obtain ⟨hl, hel⟩ := hold l hl hlj
        exact h k hk l hl name' (hek ▸ hk') (hel ▸ hl')
  refine ⟨hdistinct, fun name' => Option.ext fun v => ?_⟩
  rw [hdistinct.contents_eq_some]
  split_ifs with hname
  · constructor
    · rintro ⟨k, hk, his, rfl⟩
      have hkj : k = j := by
        by_contra hkj
        exact hother k hk hkj his (hd.iff.mpr hname)
      rw [hkj]
    · rintro ⟨⟩
      exact ⟨j, by omega, hd.iff.mpr hname, rfl⟩
  · rw [h.contents_eq_some]
    constructor
    · rintro ⟨k, hk, his, hv⟩
      have hkj : k ≠ j := fun hkj => hname (hd.iff.mp (hkj ▸ his))
      obtain ⟨hk, hek⟩ := hold k hk hkj
      exact ⟨k, hk, hek ▸ his, hek ▸ hv⟩
    · rintro ⟨k, hk, his, hv⟩
      have hkj : k ≠ j := fun hkj => his.1 (hkj ▸ hfree (hkj ▸ hk))
      rw [← heq k hk hkj] at his hv
      exact ⟨k, by omega, his, hv⟩

/-- **An entry is cleared:** its name goes, and no other. -/
theorem Distinct.clear (h : Distinct e n) (hj : j < n) (his : (e j).Is name)
    (hzero : (e' j).inum = 0) (heq : ∀ k < n, k ≠ j → e' k = e k) :
    Distinct e' n ∧ ∀ name', contents e' n name' =
      if namecmp name' name = 0 then none else contents e n name' := by
  have hold (k : ℕ) (hk : k < n) {name' : List UInt8} (hk' : (e' k).Is name') :
      k ≠ j ∧ e' k = e k := by
    have hkj : k ≠ j := fun hkj => hk'.1 (hkj ▸ hzero)
    exact ⟨hkj, heq k hk hkj⟩
  have hdistinct : Distinct e' n := by
    intro k hk l hl name' hk' hl'
    rw [(hold k hk hk').2] at hk'
    rw [(hold l hl hl').2] at hl'
    exact h k hk l hl name' hk' hl'
  refine ⟨hdistinct, fun name' => ?_⟩
  split_ifs with hname
  · rw [contents_eq_none]
    intro k hk hk'
    obtain ⟨hkj, hek⟩ := hold k hk hk'
    rw [hek] at hk'
    exact hkj (h k hk j hj name' hk' (his.iff.mpr hname))
  · refine Option.ext fun v => ?_
    rw [hdistinct.contents_eq_some, h.contents_eq_some]
    constructor
    · rintro ⟨k, hk, hk', hv⟩
      have hek := (hold k hk hk').2
      rw [hek] at hk' hv
      exact ⟨k, hk, hk', hv⟩
    · rintro ⟨k, hk, hk', hv⟩
      have hkj : k ≠ j := fun hkj => hname (his.iff.mp (hkj ▸ hk'))
      rw [← heq k hk hkj] at hk' hv
      exact ⟨k, hk, hk', hv⟩

/-- Entries that are the same have the same contents. -/
theorem contents_congr (heq : ∀ k < n, e' k = e k) (name : List UInt8) :
    contents e' n name = contents e n name := by
  have hslot : slotOf e' n name = slotOf e n name := by
    refine Option.ext fun j => ?_
    rw [slotOf_eq_some, slotOf_eq_some]
    refine and_congr_right fun hj => ?_
    rw [heq j hj]
    refine and_congr_right' (forall₂_congr fun k hk => ?_)
    rw [heq k (hk.trans hj)]
  rw [contents, contents, hslot]
  refine Option.map_congr fun k hk => ?_
  rw [heq k (slotOf_eq_some.mp hk).1]

theorem Distinct.congr (h : Distinct e n) (heq : ∀ k < n, e' k = e k) : Distinct e' n := by
  intro j hj k hk name hj' hk'
  rw [heq j hj] at hj'
  rw [heq k hk] at hk'
  exact h j hj k hk name hj' hk'

end

/-! ## What a directory is -/

/-- Entry `j` of a directory. -/
def entryAt (block : ℕ → Bytes) (d : Dinode) (j : ℕ) : Dirent := direntAt block d (j * direntSize)

/-- How many entries a directory has. -/
def entries (d : Dinode) : ℕ := d.size / direntSize

/-- The inode has the blocks of a directory. -/
structure DirBlocks (block : ℕ → Bytes) (d : Dinode) : Prop where
  type_eq : d.type = .T_DIR
  whole : d.size % direntSize = 0
  size_le : d.size ≤ MAXFILE * BSIZE
  noHoles : NoHoles block d

/-- **A directory:** no two of its entries in use have the same name. -/
structure Directory (sb : Superblock) (D : ℕ → Dinode) (dp : ℕ) (s : State) : Prop
    extends DirBlocks s.block (s.inode dp).copy where
  sound : Sound sb D dp s
  lt : dp < NINODE
  ref_pos : 0 < (s.inode dp).ref
  distinct : Distinct (entryAt s.block (s.inode dp).copy) (entries (s.inode dp).copy)

/-- What the directory has for a name. -/
def dirContents (s : State) (dp : ℕ) : List UInt8 → Option ℕ :=
  contents (entryAt s.block (s.inode dp).copy) (entries (s.inode dp).copy)

section

variable {sb : Superblock} {D : ℕ → Dinode} {dp inum i j k off m : ℕ} {s t u : State} {d : Dinode}
  {block : ℕ → Bytes} {name : List UInt8} {src : Bytes} {E : String → Prop}

theorem DirBlocks.size_eq (h : DirBlocks block d) : d.size = entries d * direntSize :=
  (Nat.div_mul_cancel (Nat.dvd_of_mod_eq_zero h.whole)).symm

theorem DirBlocks.direntsFrom_eq (h : DirBlocks block d) : direntsFrom 0 d.size = entries d := by
  have := h.size_eq
  rw [direntsFrom, direntSize] at *
  omega

theorem DirBlocks.hasEntry (h : DirBlocks block d) (hj : j < entries d) :
    HasEntry block d (j * direntSize) := by
  refine ⟨?_, h.noHoles.present h.size_le⟩
  rw [h.size_eq, ← Nat.succ_mul]
  exact Nat.mul_le_mul_right _ hj

/-! ## `dirlookup` -/

/-- **`dirlookup` takes the first entry with the name.** -/
theorem DirBlocks.meets_dirlookup (h : DirBlocks s.block (s.inode dp).copy)
    {Q : Option (ℕ × ℕ) → State → Prop} :
    Meets (dirlookup sb dp name) s Q E ↔
      match slotOf (entryAt s.block (s.inode dp).copy) (entries (s.inode dp).copy) name with
      | none => Q none s
      | some j => Meets (iget (entryAt s.block (s.inode dp).copy j).inum) s
          (fun ip t => Q (some (ip, j * direntSize)) t) E := by
  rw [dirlookup, meets_bind, meets_copyOf, if_neg (not_not.mpr h.type_eq), h.direntsFrom_eq]
  split
  next hnone =>
    rw [slotOf_eq_none] at hnone
    refine meets_dirlookupLoop_none (fun j hj => ?_) fun j hj => ?_
    · rw [Nat.zero_add]
      exact h.hasEntry hj
    · rw [Nat.zero_add]
      exact hnone j hj
  next m hsome =>
    obtain ⟨hm, his, hbefore⟩ := slotOf_eq_some.mp hsome
    rw [meets_dirlookupLoop_some hm, Nat.zero_add]
    · rfl
    · intro j hj
      rw [Nat.zero_add]
      exact h.hasEntry (hj.trans_lt hm)
    · intro j hj
      rw [Nat.zero_add]
      exact hbefore j hj
    · rwa [Nat.zero_add]

/-- **`iget` counts a reference,** in the entry of the inode or in a free one. -/
structure Iget (inum ip : ℕ) (s t : State) : Prop where
  lt : ip < NINODE
  inum_eq : 0 < (s.inode ip).ref → (s.inode ip).inum = inum
  new : (s.inode ip).ref = 0 → ∀ j < NINODE, 0 < (s.inode j).ref → (s.inode j).inum ≠ inum
  state : ∃ v, ((s.inode ip).ref = 0 → v = false) ∧
    (0 < (s.inode ip).ref → v = (s.inode ip).valid) ∧
    t = s.setInode ip
      { s.inode ip with inum := inum, ref := (s.inode ip).ref + 1, valid := v }

/-- The inode is not in the table, and the table is full. -/
def TableFull (s : State) (inum : ℕ) : Prop :=
  ∀ j < NINODE, 0 < (s.inode j).ref ∧ (s.inode j).inum ≠ inum

theorem iget_spec :
    Meets (iget inum) s (fun ip t => Iget inum ip s t)
      fun msg => msg = "iget: no inodes" ∧ TableFull s inum := by
  rw [iget, meets_bind, meets_get]
  split
  next i hi =>
    rw [find?_range_eq_some] at hi
    obtain ⟨hi, hlt, -⟩ := hi
    rw [decide_eq_true_iff] at hi
    refine ⟨mem_range.mp hlt, fun _ => hi.2, fun h0 => ?_, (s.inode i).valid, fun h0 => ?_,
      fun _ => rfl, ?_⟩
    · exact absurd h0 (Nat.ne_of_gt hi.1)
    · exact absurd h0 (Nat.ne_of_gt hi.1)
    · rw [← hi.2]
  next hnone =>
    have hnew (j : ℕ) (hj : j < NINODE) (hpos : 0 < (s.inode j).ref) : (s.inode j).inum ≠ inum :=
      fun heq => find?_eq_none.mp hnone j (mem_range.mpr hj)
        (decide_eq_true_iff.mpr ⟨hpos, heq⟩)
    split
    next hfull =>
      rw [find?_eq_none] at hfull
      refine ⟨rfl, fun j hj => ?_⟩
      have hpos : 0 < (s.inode j).ref := by
        have := hfull j (mem_range.mpr hj)
        rw [decide_eq_true_iff] at this
        omega
      exact ⟨hpos, hnew j hj hpos⟩
    next i hi =>
      rw [find?_range_eq_some] at hi
      obtain ⟨hi, hlt, -⟩ := hi
      rw [decide_eq_true_iff] at hi
      refine ⟨mem_range.mp hlt, fun h0 => absurd hi (Nat.ne_of_gt h0), fun _ => hnew, false,
        fun _ => rfl, fun h0 => absurd hi (Nat.ne_of_gt h0), ?_⟩
      rw [hi]

/-- The blocks are as before, and so is the inode of `dp`. -/
structure SameDir (dp : ℕ) (s t : State) : Prop where
  block : t.block = s.block
  bitmap : t.bitmap = s.bitmap
  copy : (t.inode dp).copy = (s.inode dp).copy
  inum : (t.inode dp).inum = (s.inode dp).inum
  ref_le : (s.inode dp).ref ≤ (t.inode dp).ref

theorem Directory.same (h : Directory sb D dp s) (hsame : SameDir dp s t) :
    Directory sb D dp t where
  toDirBlocks := by
    rw [hsame.block, hsame.copy]
    exact h.toDirBlocks
  sound := by
    obtain ⟨hinum, hrefs, hlow, hsize⟩ := h.sound
    refine ⟨?_, ?_, ?_, hsize⟩
    · rwa [hsame.inum]
    · rwa [current, hsame.inum, hsame.copy, hsame.block, hsame.bitmap]
    · rwa [hsame.bitmap]
  lt := h.lt
  ref_pos := h.ref_pos.trans_le hsame.ref_le
  distinct := by
    rw [hsame.block, hsame.copy]
    exact h.distinct

theorem SameDir.trans (h : SameDir dp s t) (h' : SameDir dp t u) : SameDir dp s u where
  block := h'.block.trans h.block
  bitmap := h'.bitmap.trans h.bitmap
  copy := h'.copy.trans h.copy
  inum := h'.inum.trans h.inum
  ref_le := h.ref_le.trans h'.ref_le

theorem SameDir.contents (hsame : SameDir dp s t) : dirContents t dp = dirContents s dp := by
  rw [dirContents, hsame.block, hsame.copy, dirContents]

/-- The entry that `iget` takes is not the one of a directory, or it is for the same inode. -/
theorem Iget.sameDir (h : Iget inum i s t) (hdp : 0 < (s.inode dp).ref) : SameDir dp s t := by
  obtain ⟨v, -, -, rfl⟩ := h.state
  by_cases hi : dp = i
  · subst hi
    refine ⟨rfl, rfl, ?_, ?_, ?_⟩
    · rw [inode_setInode_self]
    · rw [inode_setInode_self, h.inum_eq hdp]
    · rw [inode_setInode_self]
      exact Nat.le_succ _
  · refine ⟨rfl, rfl, ?_, ?_, ?_⟩ <;> rw [inode_setInode_of_ne hi]

/-- `iput`, of an inode that stays. -/
theorem meets_iput_keep {Q : Unit → State → Prop}
    (hkeep : ¬((s.inode i).ref = 1 ∧ (s.inode i).valid ∧ (s.inode i).copy.nlink = 0)) :
    Meets (iput i) s Q E ↔ Q () ({ s with trace := .iput :: s.trace }.setInode i
      { s.inode i with ref := (s.inode i).ref - 1 }) := by
  rw [iput, meets_bind, note, meets_modify, meets_bind, meets_get]
  rw [if_neg hkeep]
  exact Iff.rfl

/-- **What `iget` has counted, `iput` takes back,** and it frees no inode. -/
theorem Iget.iput (h : Iget inum i s t) (hdp : 0 < (s.inode dp).ref) :
    Meets (iput i) t (fun _ u => SameDir dp s u) Never := by
  obtain ⟨v, hfree, -, rfl⟩ := h.state
  rw [meets_iput_keep]
  · simp only [inode_setInode_self]
    by_cases hi : dp = i
    · subst hi
      refine ⟨rfl, rfl, ?_, ?_, ?_⟩ <;> rw [inode_setInode_self]
      · exact (h.inum_eq hdp).symm
      · exact Nat.le_refl _
    · refine ⟨rfl, rfl, ?_, ?_, ?_⟩ <;>
        rw [inode_setInode_of_ne hi] <;> simp only [inode_setInode_of_ne hi, le_refl]
  · rw [inode_setInode_self]
    rintro ⟨href, hv, -⟩
    rw [hfree (Nat.succ.inj href)] at hv
    exact Bool.false_ne_true hv

/-- **`dirlookup` gives the inode,** with a reference to it; it panics only if the table is full. -/
def Gives (sb : Superblock) (dp : ℕ) (s : State) (name : List UInt8) (r : Option ℕ) : Prop :=
  Meets (dirlookup sb dp name) s
    (fun found t => found.map (fun p => (t.inode p.1).inum) = r ∧
      ∀ p ∈ found, 0 < (t.inode p.1).ref)
    fun msg => msg = "iget: no inodes" ∧ ∃ inum, r = some inum ∧ TableFull s inum

theorem Directory.gives (h : Directory sb D dp s) (name : List UInt8) :
    Gives sb dp s name (dirContents s dp name) := by
  rw [Gives, h.meets_dirlookup, dirContents, contents]
  split
  next hnone =>
    rw [hnone]
    exact ⟨rfl, nofun⟩
  next j hsome =>
    rw [hsome]
    refine iget_spec.mono (fun ip t hget => ?_) fun msg hfull => ⟨hfull.1, _, rfl, hfull.2⟩
    obtain ⟨v, -, -, rfl⟩ := hget.state
    constructor
    · rw [Option.map_some, Option.map_some, inode_setInode_self]
    · rintro _ ⟨⟩
      rw [inode_setInode_self]
      exact Nat.succ_pos _

/-! ## Writing an entry -/

theorem NoHoles.byteAt_eq (h : NoHoles block d) (hsize : d.size ≤ MAXFILE * BSIZE) {pos : ℕ}
    (hpos : pos < d.size) : byteAt block d pos = fileByte block d pos := by
  obtain ⟨-, haddr⟩ := h.present hsize pos (le_refl _) (Nat.lt_add_of_pos_right Nat.one_pos) hpos
  rw [byteAt, if_neg haddr]

/-- So much of an entry is written: the whole entry, or nothing. -/
structure Entered (sb : Superblock) (D : ℕ → Dinode) (dp : ℕ) (src : Bytes) (j m : ℕ)
    (s t : State) : Prop extends Written sb D dp src (j * direntSize) m s t where
  all_or_none : m = direntSize ∨ m = 0
  type_eq : (t.inode dp).copy.type = .T_DIR
  size_le : (t.inode dp).copy.size ≤ MAXFILE * BSIZE

/-- Nothing is written. -/
theorem Directory.entered_zero (h : Directory sb D dp s) (hj : j ≤ entries (s.inode dp).copy) :
    Entered sb D dp src j 0 s s where
  off_le := h.size_eq ▸ Nat.mul_le_mul_right _ hj
  sound := h.sound
  entry := ⟨_, rfl⟩
  size := by
    have := h.size_eq ▸ Nat.mul_le_mul_right direntSize hj
    exact (Nat.max_eq_left this).symm
  bytes pos _ := by rw [overwritten, if_neg (by omega)]
  noHoles := h.noHoles
  others _ _ _ _ _ := ⟨rfl, rfl⟩
  inode_ne _ _ := rfl
  dinode_ne _ _ := rfl
  all_or_none := Or.inr rfl
  type_eq := h.type_eq
  size_le := h.size_le

/-- **An entry is written as a whole, or not at all;** one that is there is written. -/
theorem Directory.writei_dirent (h : Directory sb D dp s) (hj : j ≤ entries (s.inode dp).copy) :
    Meets (writei sb dp src none (j * direntSize) direntSize) s (fun r t =>
      r = direntSize ∧ Entered sb D dp src j direntSize s t ∨
        r ≠ direntSize ∧ j = entries (s.inode dp).copy ∧ Entered sb D dp src j 0 s t) Never := by
  have hoff : j * direntSize ≤ (s.inode dp).copy.size := h.size_eq ▸ Nat.mul_le_mul_right _ hj
  by_cases hmax : j * direntSize + direntSize ≤ MAXFILE * BSIZE
  swap
  · rw [meets_writei_fail (Or.inr (Or.inr (Nat.lt_of_not_le hmax)))]
    refine Or.inr ⟨by decide, Nat.le_antisymm hj (Nat.le_of_not_lt fun hlt => hmax ?_),
      h.entered_zero hj⟩
    exact (h.hasEntry hlt).1.trans h.size_le
  refine (meets_writei h.sound hoff hmax).imp fun r t => ?_
  rintro ⟨tot, u, rfl, hstops, rfl⟩
  have hentered {K : Finset ℕ} {m : ℕ} (hm : m = direntSize ∨ m = 0)
      (hwrote : Wrote sb D dp src (j * direntSize) K m s u) :
      Entered sb D dp src j m s
        (resized u dp (max (s.inode dp).copy.size (j * direntSize + m))) := by
    refine ⟨hwrote.written h.noHoles h.size_le hoff, hm, ?_, ?_⟩
    · obtain ⟨addrs, heq⟩ := hwrote.inode
      rw [inode_resized, heq]
      exact h.type_eq
    · rw [inode_resized]
      refine Nat.max_le.mpr ⟨h.size_le, ?_⟩
      rcases hm with rfl | rfl
      · exact hmax
      · exact hoff.trans h.size_le
  cases hstops with
  | all hwrote => exact Or.inl ⟨rfl, hentered (Or.inl rfl) hwrote⟩
  | full hwrote hlt _ _ _ h0 =>
    -- the entry is in one block, which is missing, so that nothing of it is written
    have htot : tot = 0 := by
      by_contra hne
      refine hwrote.present (j * direntSize) (le_refl _) (by omega) ?_
      have hblock : (j * direntSize + tot) / BSIZE = j * direntSize / BSIZE := by
        rw [direntSize, BSIZE] at *
        omega
      rwa [← hblock]
    subst htot
    refine Or.inr ⟨by decide, Nat.le_antisymm hj (Nat.le_of_not_lt fun hlt => ?_),
      hentered (Or.inr rfl) hwrote⟩
    obtain ⟨hbn, haddr⟩ := (h.hasEntry hlt).2 _ (le_refl _) (Nat.lt_add_of_pos_right (by decide))
      ((Nat.lt_add_of_pos_right (by decide)).trans_le (h.hasEntry hlt).1)
    refine haddr ?_
    rw [addrOf, ← hwrote.keeps (dataSlot_lt hbn) haddr]
    exact h0
  | fault _ _ _ _ _ hc hne => exact absurd hc hne

namespace Entered

/-- The other entries stay, and this one too if nothing is written. -/
theorem entry_ne (h : Entered sb D dp src j m s t) (hs : Directory sb D dp s)
    (hk : k < entries (s.inode dp).copy) (hne : k ≠ j ∨ m = 0) :
    entryAt t.block (t.inode dp).copy k = entryAt s.block (s.inode dp).copy k := by
  refine congrArg dirent (map_congr_left fun i hi => ?_)
  have hi := mem_range.mp hi
  have hm := h.all_or_none
  have hsize := hs.size_eq
  have hpos : k * direntSize + i < (s.inode dp).copy.size := by
    rw [direntSize] at *
    omega
  have hpos' : k * direntSize + i < (t.inode dp).copy.size := by
    rw [h.size]
    exact hpos.trans_le (Nat.le_max_left _ _)
  rw [← h.noHoles.byteAt_eq h.size_le hpos', ← hs.noHoles.byteAt_eq hs.size_le hpos,
    h.bytes _ (div_lt_MAXFILE (hpos.trans_le hs.size_le)), overwritten, if_neg]
  rw [direntSize] at *
  omega

/-- The entry that is written. -/
theorem entry_self (h : Entered sb D dp src j direntSize s t) :
    entryAt t.block (t.inode dp).copy j = dirent (getBytes src 0 direntSize) := by
  refine congrArg dirent (map_congr_left fun i hi => ?_)
  have hi := mem_range.mp hi
  have hpos : j * direntSize + i < (t.inode dp).copy.size := by
    rw [h.size]
    exact (Nat.add_lt_add_left hi _).trans_le (Nat.le_max_right _ _)
  rw [← h.noHoles.byteAt_eq h.size_le hpos, h.bytes _ (div_lt_MAXFILE (hpos.trans_le h.size_le)),
    overwritten, if_pos ⟨Nat.le_add_right _ _, Nat.add_lt_add_left hi _⟩, Nat.zero_add,
    Nat.add_sub_cancel_left]

theorem entries_eq (h : Entered sb D dp src j direntSize s t) (hs : Directory sb D dp s) :
    entries (t.inode dp).copy = max (entries (s.inode dp).copy) (j + 1) := by
  have hsize := h.size
  rw [hs.size_eq] at hsize
  rw [entries, hsize, direntSize]
  omega

theorem entries_zero (h : Entered sb D dp src j 0 s t) :
    entries (t.inode dp).copy = entries (s.inode dp).copy := by
  rw [entries, h.size, Nat.add_zero, Nat.max_eq_left h.off_le, entries]

/-- It is a directory still, if its names are different. -/
theorem directory (h : Entered sb D dp src j m s t) (hs : Directory sb D dp s)
    (hdistinct : Distinct (entryAt t.block (t.inode dp).copy) (entries (t.inode dp).copy)) :
    Directory sb D dp t where
  type_eq := h.type_eq
  whole := by
    have hsize := h.size
    have hm := h.all_or_none
    rw [hs.size_eq] at hsize
    rw [direntSize] at *
    omega
  size_le := h.size_le
  noHoles := h.noHoles
  sound := h.sound
  lt := hs.lt
  ref_pos := by
    obtain ⟨d, heq⟩ := h.entry
    rw [heq]
    exact hs.ref_pos
  distinct := hdistinct

/-- **Nothing is written,** and the directory is as before. -/
theorem unchanged (h : Entered sb D dp src j 0 s t) (hs : Directory sb D dp s) :
    Directory sb D dp t ∧ dirContents t dp = dirContents s dp := by
  have heq (k : ℕ) (hk : k < entries (s.inode dp).copy) := h.entry_ne hs hk (Or.inr rfl)
  refine ⟨h.directory hs ?_, funext fun name => ?_⟩
  · rw [h.entries_zero]
    exact hs.distinct.congr heq
  · rw [dirContents, h.entries_zero]
    exact contents_congr heq name

/-- **A new name is written.** -/
theorem linked (h : Entered sb D dp (direntBytes name inum) j direntSize s t)
    (hs : Directory sb D dp s) (hj : j ≤ entries (s.inode dp).copy)
    (hfree : j < entries (s.inode dp).copy → (entryAt s.block (s.inode dp).copy j).inum = 0)
    (hnone : dirContents s dp name = none) (hpos : 0 < inum) (hlt : inum < 2 ^ 16) :
    Directory sb D dp t ∧ ∀ name', dirContents t dp name' =
      if namecmp name' name = 0 then some inum else dirContents s dp name' := by
  obtain ⟨hinum, hname⟩ := @dirent_direntBytes name _ hlt
  have his : (entryAt t.block (t.inode dp).copy j).Is name := by
    rw [h.entry_self, Dirent.Is, hinum, namecmp_eq_zero, hname]
    exact ⟨Nat.ne_of_gt hpos, rfl⟩
  obtain ⟨hdistinct, hcontents⟩ := hs.distinct.insert hj hfree hnone his
    fun k hk hne => h.entry_ne hs hk (Or.inl hne)
  rw [← h.entries_eq hs] at hdistinct hcontents
  refine ⟨h.directory hs hdistinct, fun name' => ?_⟩
  rw [dirContents, hcontents name', h.entry_self, hinum]
  rfl

/-- **A name is cleared.** -/
theorem unlinked (h : Entered sb D dp (fun _ => 0) j direntSize s t) (hs : Directory sb D dp s)
    (hj : j < entries (s.inode dp).copy)
    (his : (entryAt s.block (s.inode dp).copy j).Is name) :
    Directory sb D dp t ∧ ∀ name', dirContents t dp name' =
      if namecmp name' name = 0 then none else dirContents s dp name' := by
  have hzero : (entryAt t.block (t.inode dp).copy j).inum = 0 := by
    rw [h.entry_self]
    rfl
  obtain ⟨hdistinct, hcontents⟩ := hs.distinct.clear hj his hzero
    fun k hk hne => h.entry_ne hs hk (Or.inl hne)
  have hentries : entries (t.inode dp).copy = entries (s.inode dp).copy := by
    rw [h.entries_eq hs]
    omega
  refine ⟨h.directory hs ?_, fun name' => ?_⟩
  · rwa [hentries]
  · rw [dirContents, hentries, hcontents name']
    rfl

end Entered

/-! ## `dirlink` and `sys_unlink` -/

/-- **The loop of `dirlink`** finds a free entry, or the end. -/
theorem DirBlocks.dirlinkLoop_spec (h : DirBlocks s.block (s.inode dp).copy)
    (hk : j + k = entries (s.inode dp).copy) :
    Meets (dirlinkLoop sb dp k (j * direntSize)) s (fun off t => t = s ∧
      ∃ j ≤ entries (s.inode dp).copy, off = j * direntSize ∧
        (j < entries (s.inode dp).copy → (entryAt s.block (s.inode dp).copy j).inum = 0)) E := by
  induction k generalizing j with
  | zero => exact ⟨rfl, j, hk.le, rfl, fun hlt => absurd hk (Nat.ne_of_lt hlt)⟩
  | succ k ih =>
    have hj : j < entries (s.inode dp).copy := by omega
    rw [dirlinkLoop, meets_bind, meets_readDirent (h.hasEntry hj)]
    split_ifs with hfree
    · exact ⟨rfl, j, hj.le, rfl, fun _ => hfree⟩
    · rw [← Nat.succ_mul]
      exact ih (by omega)

/-- **What `dirlink` does to the directory.** -/
theorem Directory.dirlink_spec (h : Directory sb D dp s) (hpos : 0 < inum) (hlt : inum < 2 ^ 16) :
    Meets (dirlink sb dp name inum) s (fun r t => Directory sb D dp t ∧
      (r = 0 ∧ dirContents s dp name = none ∧ (∀ name', dirContents t dp name' =
          if namecmp name' name = 0 then some inum else dirContents s dp name') ∨
        r = -1 ∧ dirContents t dp = dirContents s dp))
      fun msg => msg = "iget: no inodes" ∧
        ∃ inum, dirContents s dp name = some inum ∧ TableFull s inum := by
  rw [dirlink, meets_bind, h.meets_dirlookup]
  split
  next hnone =>
    have hfresh : dirContents s dp name = none := by rw [dirContents, contents, hnone]; rfl
    simp only [meets_bind, meets_copyOf]
    rw [h.direntsFrom_eq]
    refine (Nat.zero_mul direntSize ▸ h.dirlinkLoop_spec (Nat.zero_add _)).imp ?_
    rintro off _ ⟨rfl, j, hj, rfl, hfree⟩
    refine (h.writei_dirent hj).never.imp ?_
    rintro r t (⟨rfl, hentered⟩ | ⟨hr, -, hentered⟩)
    · obtain ⟨hdir, hcontents⟩ := hentered.linked h hj hfree hfresh hpos hlt
      exact ⟨hdir, Or.inl ⟨rfl, hfresh, hcontents⟩⟩
    · obtain ⟨hdir, hcontents⟩ := hentered.unchanged h
      rw [if_pos hr]
      exact ⟨hdir, Or.inr ⟨rfl, hcontents⟩⟩
  next j hsome =>
    have hold : dirContents s dp name = some (entryAt s.block (s.inode dp).copy j).inum := by
      rw [dirContents, contents, hsome]
      rfl
    refine iget_spec.mono (fun ip t hget => ?_) fun msg hfull => ⟨hfull.1, _, hold, hfull.2⟩
    refine Meets.bind (hget.iput h.ref_pos) fun _ u hsame => ?_
    exact ⟨h.same hsame, Or.inr ⟨rfl, hsame.contents⟩⟩

/-- **What `dirlookup` finds can be cleared.** -/
theorem Directory.clear_spec (h : Directory sb D dp s) :
    Meets (dirlookup sb dp name) s (fun found t => ∀ ip off, found = some (ip, off) →
      ∀ u, SameDir dp t u → Meets (writei sb dp (fun _ => 0) none off direntSize) u (fun r v =>
        r = direntSize ∧ Directory sb D dp v ∧ ∀ name', dirContents v dp name' =
          if namecmp name' name = 0 then none else dirContents s dp name') Never)
      fun msg => msg = "iget: no inodes" ∧
        ∃ inum, dirContents s dp name = some inum ∧ TableFull s inum := by
  rw [h.meets_dirlookup]
  split
  next => exact nofun
  next j hsome =>
    have hold : dirContents s dp name = some (entryAt s.block (s.inode dp).copy j).inum := by
      rw [dirContents, contents, hsome]
      rfl
    obtain ⟨hj, his, -⟩ := slotOf_eq_some.mp hsome
    refine iget_spec.mono (fun i t hget => ?_) fun msg hfull => ⟨hfull.1, _, hold, hfull.2⟩
    rintro _ _ ⟨⟩ u hu
    have hsame := (hget.sameDir h.ref_pos).trans hu
    have hdir := h.same hsame
    rw [← hsame.block, ← hsame.copy] at his
    rw [← hsame.copy] at hj
    refine (hdir.writei_dirent hj.le).imp ?_
    rintro r v (⟨hr, hentered⟩ | ⟨-, hend, -⟩)
    · obtain ⟨hdir', hcontents⟩ := hentered.unlinked hdir hj his
      exact ⟨hr, hdir', hsame.contents ▸ hcontents⟩
    · exact absurd hend (Nat.ne_of_lt hj)

/-- **A directory is a finite map.** `dirlink` adds a name, or changes nothing, and nothing is what
it changes if the name is there; to clear the entry that `dirlookup` finds removes the name.
Between the two, other inodes may have been looked at. -/
theorem directory_map (h : Directory sb D dp s) :
    (∀ name, Gives sb dp s name (dirContents s dp name)) ∧
    (∀ name inum, 0 < inum → inum < 2 ^ 16 →
      Meets (dirlink sb dp name inum) s (fun r t => Directory sb D dp t ∧
        (r = 0 ∧ dirContents s dp name = none ∧ (∀ name', Gives sb dp t name'
            (if namecmp name' name = 0 then some inum else dirContents s dp name')) ∨
          r = -1 ∧ ∀ name', Gives sb dp t name' (dirContents s dp name')))
        fun msg => msg = "iget: no inodes" ∧
          ∃ inum, dirContents s dp name = some inum ∧ TableFull s inum) ∧
    ∀ name, Meets (dirlookup sb dp name) s (fun found t => ∀ ip off, found = some (ip, off) →
      ∀ u, SameDir dp t u → Meets (writei sb dp (fun _ => 0) none off direntSize) u (fun r v =>
        r = direntSize ∧ Directory sb D dp v ∧ ∀ name', Gives sb dp v name'
          (if namecmp name' name = 0 then none else dirContents s dp name')) Never)
      fun msg => msg = "iget: no inodes" ∧
        ∃ inum, dirContents s dp name = some inum ∧ TableFull s inum := by
  refine ⟨h.gives, fun name inum hpos hlt => ?_, fun name => ?_⟩
  · refine (h.dirlink_spec hpos hlt).imp ?_
    rintro r t ⟨hdir, ⟨hr, hnone, hcontents⟩ | ⟨hr, hcontents⟩⟩
    · exact ⟨hdir, Or.inl ⟨hr, hnone, fun name' => hcontents name' ▸ hdir.gives name'⟩⟩
    · exact ⟨hdir, Or.inr ⟨hr, fun name' => hcontents ▸ hdir.gives name'⟩⟩
  · refine h.clear_spec.imp fun found t hfound ip off heq u hu => ?_
    refine (hfound ip off heq u hu).imp ?_
    rintro r v ⟨hr, hdir, hcontents⟩
    exact ⟨hr, hdir, fun name' => hcontents name' ▸ hdir.gives name'⟩

end

/-- A file system in which inode 2 is a directory, with one entry of the name "AAAAAAAAAAAAAA". -/
def oneDir : State :=
  { oneFile with
    inode := fun i =>
      { oneFile.inode i with
        ref := if i = 0 then 1 else 0
        copy := { (oneFile.inode i).copy with type := .T_DIR, size := direntSize } } }

theorem sound_oneDir : Sound ⟨60, 10, 3⟩ (fun _ => .zero) 0 oneDir := by
  obtain ⟨used, hrefs, hused⟩ := sound_oneFile.refs
  refine ⟨by decide, ⟨used, ?_, hused⟩, sound_oneFile.low, by decide⟩
  refine hrefs.congr (fun j _ k _ => ?_) fun _ _ => Iff.rfl
  by_cases hj : j = 2
  · rw [hj]
    rfl
  · rw [current_of_ne hj, current_of_ne hj]
    rfl

theorem directory_oneDir : Directory ⟨60, 10, 3⟩ (fun _ => .zero) 0 oneDir where
  type_eq := rfl
  whole := rfl
  size_le := by decide
  noHoles bn hbn := by
    obtain rfl : bn = 0 := Nat.lt_one_iff.mp hbn
    decide
  sound := sound_oneDir
  lt := by decide
  ref_pos := by decide
  distinct j hj k hk _ _ _ := (Nat.lt_one_iff.mp hj).trans (Nat.lt_one_iff.mp hk).symm

/-- A second name is added, and the first one is kept. -/
theorem directory_map_oneDir :
    ∃ t, dirlink ⟨60, 10, 3⟩ 0 [66] 7 oneDir = .ok (0, t) ∧ Gives ⟨60, 10, 3⟩ 0 t [66] (some 7) ∧
      Gives ⟨60, 10, 3⟩ 0 t (List.replicate 14 65) (some 16705) := by
  have hok : Meets (dirlink ⟨60, 10, 3⟩ 0 [66] 7) oneDir (fun r _ => r = 0) Never := rfl
  have hlink := (directory_map directory_oneDir).2.1 [66] 7 (by decide) (by decide)
  obtain ⟨r, t, heq, rfl⟩ := hok.exists_ok fun _ => id
  obtain ⟨-, ⟨-, -, hgives⟩ | ⟨hr, -⟩⟩ := hlink.of_ok heq
  · have hold : dirContents oneDir 0 (List.replicate 14 65) = some 16705 := by decide
    have hother : namecmp (List.replicate 14 65) [66] ≠ 0 := by decide
    have h := hgives (List.replicate 14 65)
    rw [if_neg hother, hold] at h
    exact ⟨t, heq, hgives [66], h⟩
  · exact absurd hr (by decide)

end Xv6.Fs
