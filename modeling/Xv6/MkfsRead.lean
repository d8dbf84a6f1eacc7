import Xv6.FsFile
import Xv6.MkfsImage

/-!
# The kernel reads what `mkfs` wrote

The image of `mkfs` is mounted and a file is looked up in the root directory and
read. The entries of the root directory are the ones that were appended to it
(`direntAt_root`), and the bytes of a file are those that were read from the
host (`fileBytes_file`), so the kernel finds the file with the name and reads its
bytes. Under `.` and `..` it finds the root directory instead, so that a file with
such a name is read back only if it has the bytes of the root directory
(`main_readBack`).
-/

namespace Xv6.Mkfs

open List

open Fs Prog

/-- What the kernel reads, in a transaction, under a name in the root directory: the size and the
bytes. -/
def lookupRead (name : List UInt8) : FS (Option (ℕ × Option (List UInt8))) := do
  begin_op
  let dp ← iget ROOTINO
  ilock dp
  let found ← dirlookup sb dp name
  iunlock dp
  match found with
  | none => return none
  | some (ip, _) =>
    ilock ip
    let size := (← copyOf ip).size
    return some (size, ← readi sb ip none 0 size)

/-! ## The root directory -/

/-- The entries for files, the first of which has the number `n`. -/
def numbered : ℕ → List HostFile → List (ℕ × List UInt8)
  | _, [] => []
  | n, f :: fs => (n, stripped f.path) :: numbered (n + 1) fs

/-- The entries of the root directory. -/
def rootEntries (files : List HostFile) : List (ℕ × List UInt8) :=
  (ROOTINO, dot) :: (ROOTINO, dotdot) :: numbered 2 files

section

variable {files : List HostFile} {f : HostFile} {s img : Image} {j k m n : ℕ}

theorem entries_eq (files : List HostFile) (n : ℕ) :
    entries n files = ((numbered n files).map fun e => de e.1 e.2).flatten := by
  induction files generalizing n with
  | nil => rfl
  | cons f files ih => rw [entries, ih, numbered, map_cons, flatten_cons]

theorem root_eq (files : List HostFile) :
    de ROOTINO dot ++ de ROOTINO dotdot ++ entries 2 files =
      ((rootEntries files).map fun e => de e.1 e.2).flatten := by
  rw [entries_eq, rootEntries, map_cons, map_cons, flatten_cons, flatten_cons,
    append_assoc]

theorem getElem?_numbered (hj : files[j]? = some f) (n : ℕ) :
    (numbered n files)[j]? = some (n + j, stripped f.path) := by
  induction files generalizing n j with
  | nil => cases hj
  | cons f' files ih =>
    cases j with
    | zero =>
      obtain rfl : f' = f := Option.some.inj hj
      rfl
    | succ j =>
      have := ih hj (n + 1)
      rwa [Nat.add_assoc, Nat.add_comm 1 j] at this

theorem length_numbered (files : List HostFile) (n : ℕ) :
    (numbered n files).length = files.length := by
  induction files generalizing n with
  | nil => rfl
  | cons f files ih => rw [numbered, length_cons, ih, length_cons]

/-- A byte of an entry, in the bytes of all of them. -/
theorem getD_flatten (l : List (ℕ × List UInt8)) {e : ℕ × List UInt8} (he : l[m]? = some e)
    (hk : k < direntSize) :
    ((l.map fun e => de e.1 e.2).flatten).getD (m * direntSize + k) 0 = (de e.1 e.2).getD k 0 := by
  induction l generalizing m with
  | nil => cases he
  | cons e' l ih =>
    have hlen : (de e'.1 e'.2).length = direntSize := length_de _ _
    rw [map_cons, flatten_cons]
    cases m with
    | zero =>
      obtain rfl : e' = e := Option.some.inj he
      rw [Nat.zero_mul, Nat.zero_add, getD_append _ _ _ _ (by omega)]
    | succ m =>
      rw [getD_append_right _ _ _ _ (by rw [hlen, Nat.add_mul]; omega), hlen, ← ih he]
      congr 1
      rw [Nat.add_mul]
      omega

/-! ## Bytes in the image -/

/-- The bytes of the files are in the image. -/
theorem fileByte_image {t : InodeType} {c : List UInt8} {pos : ℕ} (h : Finished s img)
    (hs : Inv s (imageFiles files)) (hc : (imageFiles files)[j]? = some (t, c))
    (hpos : pos < c.length) : fileByte img.sector (dinodes img (j + 1)) pos = c.getD pos 0 := by
  have hc' := getElem?_contents hc
  have hj : j < ((imageFiles files).map Prod.snd).length := (List.getElem?_eq_some_iff.mp hc').1
  have hcov := hs.table.covered j c hc' pos hpos
  rw [← hs.table.bytes j c hc' pos hcov, fileByte, fileByte, addrOf, addrOf,
    h.slot_eq hs (hs.table.lt_NI hj), h.sector _ (hs.table.slot_range hj hcov).1]

theorem fileBytes_image {t : InodeType} {c : List UInt8} (h : Finished s img)
    (hs : Inv s (imageFiles files)) (hc : (imageFiles files)[j]? = some (t, c)) {off : ℕ}
    (hn : off + n ≤ c.length) : fileBytes img.sector (dinodes img (j + 1)) off n =
      (List.range n).map fun k => c.getD (off + k) 0 := by
  refine map_congr_left fun k hk => fileByte_image h hs hc ?_
  have := mem_range.mp hk
  omega

theorem present_image {t : InodeType} {c : List UInt8} (h : Finished s img)
    (hs : Inv s (imageFiles files)) (hc : (imageFiles files)[j]? = some (t, c)) {off : ℕ}
    (hn : off + n ≤ c.length) : Present img.sector (dinodes img (j + 1)) off n := by
  intro pos _ hpos _
  have hmax := hs.table.length_le (getElem?_contents hc)
  have hdiv := Nat.div_mul_le_self pos BSIZE
  refine ⟨(Nat.div_lt_iff_lt_mul (by decide)).mpr (by omega), h.addrOf_ne_zero hs hc ?_⟩
  exact lt_blocksOf.mpr (by omega)

/-- The number in an entry. -/
theorem inum_rootEntries {e : ℕ × List UInt8} (he : (rootEntries files)[m]? = some e) :
    0 < e.1 ∧ e.1 ≤ files.length + 1 ∧ m < files.length + 2 := by
  have hm := (List.getElem?_eq_some_iff.mp he).1
  rw [rootEntries, List.length_cons, List.length_cons, length_numbered] at hm
  match m, he with
  | 0, he =>
    cases he
    exact ⟨by decide, Nat.le_add_left .., hm⟩
  | 1, he =>
    cases he
    exact ⟨by decide, Nat.le_add_left .., hm⟩
  | j + 2, he =>
    have hj : j < files.length := by omega
    have hnum := getElem?_numbered (List.getElem?_eq_getElem hj) 2
    obtain rfl := Option.some.inj (he.symm.trans hnum)
    omega

/-- **The entries of the root directory.** -/
theorem direntAt_root (h : Finished s img) (hs : Inv s (imageFiles files)) {e : ℕ × List UInt8}
    (he : (rootEntries files)[m]? = some e) :
    direntAt img.sector (dinodes img ROOTINO) (m * direntSize) = dirent (de e.1 e.2) := by
  have hm := (inum_rootEntries he).2.2
  have hlen : m * direntSize + direntSize ≤ (files.length + 2) * direntSize := by
    rw [← Nat.succ_mul]
    exact Nat.mul_le_mul_right _ hm
  change dirent (fileBytes img.sector (dinodes img (0 + 1)) _ _) = _
  rw [fileBytes_image h hs (j := 0) rfl (by rwa [length_root]), root_eq]
  congr 1
  refine ext_getElem (by simp [length_de]) fun k hk hk' => ?_
  rw [getElem_map, getElem_range, getD_flatten _ he hk',
    getD_eq_getElem _ _ (by rwa [length_de])]

theorem hasEntry_root (h : Finished s img) (hs : Inv s (imageFiles files))
    (hm : m < files.length + 2) :
    HasEntry img.sector (dinodes img ROOTINO) (m * direntSize) := by
  have hlen : m * direntSize + direntSize ≤ (files.length + 2) * direntSize := by
    rw [← Nat.succ_mul]
    exact Nat.mul_le_mul_right _ hm
  refine ⟨?_, present_image h hs (j := 0) rfl (by rwa [length_root])⟩
  have hround := Nat.div_add_mod ((files.length + 2) * direntSize) BSIZE
  have hmod := Nat.mod_lt ((files.length + 2) * direntSize) (show 0 < BSIZE by decide)
  rw [(h.root hs).2, Nat.add_mul, Nat.mul_comm (_ / BSIZE), Nat.one_mul]
  omega

/-- **A name is looked up** in the root directory: the first entry with it is the one found. -/
theorem meets_dirlookup_root {st : State} {dp : ℕ} {name : List UInt8} {e : ℕ × List UInt8}
    {Q : Option (ℕ × ℕ) → State → Prop} {E : String → Prop} (h : Finished s img)
    (hs : Inv s (imageFiles files)) (hcount : files.length + 2 ≤ NINODES)
    (hblock : st.block = img.sector) (hcopy : (st.inode dp).copy = dinodes img ROOTINO)
    (he : (rootEntries files)[m]? = some e) (hname : nameOf name = nameOf e.2)
    (hbefore : ∀ m' < m, ∀ e', (rootEntries files)[m']? = some e' → nameOf name ≠ nameOf e'.2) :
    Meets (dirlookup sb dp name) st Q E ↔
      Meets (iget e.1) st (fun ip t => Q (some (ip, m * direntSize)) t) E := by
  obtain ⟨htype, hsize⟩ := h.root hs
  have hcount' : NINODES < 2 ^ 16 := by decide
  -- what an entry in use says
  have hentry {m' : ℕ} {e' : ℕ × List UInt8} (he' : (rootEntries files)[m']? = some e') :
      (direntAt img.sector (dinodes img ROOTINO) (m' * direntSize)).inum = e'.1 ∧
        nameOf (direntAt img.sector (dinodes img ROOTINO) (m' * direntSize)).name = nameOf e'.2 := by
    rw [direntAt_root h hs he']
    have := inum_rootEntries he'
    exact dirent_direntBytes (by omega)
  have hm := (inum_rootEntries he).2.2
  have hk : m < direntsFrom 0 (dinodes img ROOTINO).size := by
    have := (hasEntry_root h hs hm).1
    rw [direntsFrom, direntSize] at *
    omega
  rw [dirlookup, meets_bind, meets_copyOf, hcopy, if_neg (not_not.mpr htype),
    meets_dirlookupLoop_some hk]
  · rw [hblock, hcopy, Nat.zero_add, (hentry he).1]
  · intro j hj
    rw [hblock, hcopy, Nat.zero_add]
    exact hasEntry_root h hs (by omega)
  · rintro j hj ⟨-, heq⟩
    have hlt : j < (rootEntries files).length :=
      hj.trans (List.getElem?_eq_some_iff.mp he).1
    rw [hblock, hcopy, Nat.zero_add, namecmp_eq_zero,
      (hentry (List.getElem?_eq_getElem hlt)).2] at heq
    exact hbefore j hj _ (List.getElem?_eq_getElem hlt) heq
  · rw [hblock, hcopy, Nat.zero_add]
    refine ⟨?_, namecmp_eq_zero.mpr (hname.trans (hentry he).2.symm)⟩
    rw [(hentry he).1]
    exact (inum_rootEntries he).1.ne'

/-! ## Looking up and reading -/

/-- The mounted image, in a transaction and with the root directory locked. -/
def rootLocked (img : Image) : State :=
  { mount img with trace := [.begin_op] }.setInode 0 ⟨ROOTINO, 1, true, true, dinodes img ROOTINO⟩

/-- The root directory is the first inode in the table. -/
theorem meets_lockRoot {α : Type} {k : ℕ → FS α} {Q : α → State → Prop} {E : String → Prop}
    (htype : (dinodes img ROOTINO).type ≠ .free) :
    Meets (do
      begin_op
      let dp ← iget ROOTINO
      ilock dp
      k dp) (mount img) Q E ↔ Meets (k 0) (rootLocked img) Q E := by
  rw [meets_bind, begin_op, note, meets_modify, meets_bind, meets_iget_new (j := 0) (fun _ _ href => absurd href (lt_irrefl 0)) (by decide) rfl
    (fun _ hj => absurd hj (Nat.not_lt_zero _)), meets_bind, meets_ilock_load]
  · rw [setInode_setInode, inode_setInode_self]
    rfl
  · simp
  · simp [mount]
  · simp
  · rw [inode_setInode_self]
    exact htype

/-- A file is found in the root directory and read. -/
theorem lookupRead_file {name : List UInt8} {e : ℕ × List UInt8} (h : Finished s img)
    (hs : Inv s (imageFiles files)) (hcount : files.length + 2 ≤ NINODES)
    (he : (rootEntries files)[m]? = some e) (hname : nameOf name = nameOf e.2)
    (hbefore : ∀ m' < m, ∀ e', (rootEntries files)[m']? = some e' → nameOf name ≠ nameOf e'.2)
    (hne : e.1 ≠ ROOTINO) (htype : (dinodes img e.1).type ≠ .free)
    (hpresent : Present img.sector (dinodes img e.1) 0 (dinodes img e.1).size) :
    Meets (lookupRead name) (mount img) (fun r _ => r = some ((dinodes img e.1).size,
      readiResult img.sector (dinodes img e.1) none 0 (dinodes img e.1).size)) Never := by
  have hroot := (h.root hs).1
  rw [lookupRead, meets_lockRoot (by rw [hroot]; decide), meets_bind,
    meets_dirlookup_root h hs hcount rfl (by rw [rootLocked, inode_setInode_self]) he hname hbefore,
    meets_iget_new (j := 1) (fun j _ href hinum => ?_) (by decide) rfl (fun j hj => ?_)]
  · -- the root directory is unlocked, and the file is locked
    set st := (rootLocked img).setInode 1 _
    have h0 : st.inode 0 = ⟨ROOTINO, 1, true, true, dinodes img ROOTINO⟩ := rfl
    rw [meets_bind, meets_iunlock (by rw [h0]; exact Nat.one_pos) (by rw [h0])]
    dsimp only
    set st' := st.setInode 0 _
    have h1 : st'.inode 1 = ⟨e.1, 1, false, false, Dinode.zero⟩ := rfl
    rw [meets_bind, meets_ilock_load (by rw [h1]; exact Nat.one_pos) (by rw [h1]) (by rw [h1])
      (by rw [h1]; exact htype), meets_bind, meets_copyOf, inode_setInode_self, h1]
    dsimp only
    rw [meets_bind, meets_readi]
    · rfl
    · rw [inode_setInode_self]
      exact hpresent
  · by_cases hj : j = 0
    · subst hj
      exact hne hinum.symm
    · rw [rootLocked, inode_setInode_of_ne hj] at href
      exact absurd href (lt_irrefl 0)
  · obtain rfl : j = 0 := by omega
    exact Nat.one_ne_zero

/-- A byte of a file in the image: there are zeros behind it. -/
theorem byteAt_image {t : InodeType} {c : List UInt8} {pos : ℕ} (h : Finished s img)
    (hs : Inv s (imageFiles files)) (hc : (imageFiles files)[j]? = some (t, c))
    (hpos : pos / BSIZE < MAXFILE) : byteAt img.sector (dinodes img (j + 1)) pos = c.getD pos 0 := by
  have hc' := getElem?_contents hc
  have hj : j < ((imageFiles files).map Prod.snd).length := (List.getElem?_eq_some_iff.mp hc').1
  have haddr : addrOf img.sector (dinodes img (j + 1)) (pos / BSIZE) = _ :=
    h.slot_eq hs (hs.table.lt_NI hj) _
  unfold byteAt
  by_cases hcov : dataSlot (pos / BSIZE) < slotsIn (imageFiles files) j
  · rw [if_neg (haddr ▸ hs.table.slot_ne_zero hj hcov), ← hs.table.bytes j c hc' pos hcov, fileByte,
      fileByte, haddr, h.sector _ (hs.table.slot_range hj hcov).1]
    rfl
  · rw [if_pos (haddr.trans (hs.table.slot_eq_zero hj (Nat.le_of_not_lt hcov) (dataSlot_lt hpos))),
      getD_eq_default]
    exact Nat.le_of_not_lt fun hlt => hcov (hs.table.covered j c hc' pos hlt)

/-- The file system in the image is in order, wherever the root directory is locked. -/
theorem sound_root {st : State} (h : Finished s img) (hs : Inv s (imageFiles files))
    (hcount : files.length + 2 ≤ NINODES) (hblock : st.block = img.sector)
    (hbitmap : st.bitmap = bit img.sector) (hinum : (st.inode 0).inum = ROOTINO)
    (hcopy : (st.inode 0).copy = dinodes img ROOTINO) : Sound sb (dinodes img) 0 st := by
  have hcurrent : current (dinodes img) 0 st = dinodes img := by
    rw [current, hinum, hcopy, Function.update_eq_self]
  refine ⟨by rw [hinum]; decide, ⟨(bit img.sector ·), ?_, fun b hb => by rwa [hbitmap]⟩,
    fun b hb => ?_, by decide⟩
  · rw [hcurrent, hblock]
    exact h.refs hs hcount
  · have hb' : b < nmeta := hb
    have hle : nmeta ≤ s.freeblock := by
      rw [hs.freeblock]
      exact Nat.le_add_right _ _
    have hbpb : nmeta ≤ BPB := by decide
    rw [hbitmap, h.bitmap b (by omega)]
    exact decide_eq_true (by omega)

/-- **When there are blocks for the holes of the root directory:** it has one hole at most. -/
theorem missing_root (h : Finished s img) (hs : Inv s (imageFiles files))
    (hcount : files.length + 2 ≤ NINODES) :
    (missing img.sector (dinodes img ROOTINO) 0 (dinodes img ROOTINO).size).card ≤
      (freeBlocks sb (bit img.sector)).card ↔
    ((files.length + 2) % (BSIZE / direntSize) = 0 → blocksUsed (imageFiles files) < FSSIZE) := by
  have hni : NINODES ≤ 207 := by decide
  have hlt : files.length + 1 < NI := by
    have : NI = 208 := by decide
    omega
  set q := (files.length + 2) / (BSIZE / direntSize) with hq
  have hsize : (dinodes img ROOTINO).size = (q + 1) * BSIZE := by
    rw [(h.root hs).2, hq, BSIZE, direntSize]
    omega
  have hqlt : q < NDIRECT := by
    rw [hq, BSIZE, direntSize, NDIRECT]
    omega
  -- only the last block can be missing
  have hsub : missing img.sector (dinodes img ROOTINO) 0 (dinodes img ROOTINO).size ⊆ {q} := by
    intro k hk
    obtain ⟨hneeded, h0⟩ := Finset.mem_filter.mp hk
    obtain ⟨pos, hpos, hmem⟩ := Finset.mem_biUnion.mp hneeded
    have hpos' := (Finset.mem_Ico.mp hpos).2
    rw [Nat.zero_add, hsize, ← Nat.div_lt_iff_lt_mul (by decide)] at hpos'
    have hdirect : pos / BSIZE < NDIRECT := by omega
    by_cases hlast : pos / BSIZE = q
    · rwa [hlast, slotsFor, if_pos hqlt] at hmem
    · refine absurd h0 (slot_ne_zero_of_mem hmem (hdirect.trans (by decide)) ?_).2
      refine h.addrOf_ne_zero hs (j := 0) rfl (lt_blocksOf.mpr ?_)
      rw [length_root]
      rw [BSIZE, direntSize] at *
      omega
  have hslot : dataSlot q = q := if_pos hqlt
  by_cases hfull : (files.length + 2) % (BSIZE / direntSize) = 0
  · have h0 : addrOf img.sector (dinodes img ROOTINO) q = 0 := h.hole hs hlt hfull
    have hneeded : slotsFor (q * BSIZE / BSIZE) ⊆ needed 0 (dinodes img ROOTINO).size :=
      slotsFor_subset (Nat.zero_le _) (by rw [hsize, Nat.add_mul, BSIZE]; omega)
    rw [Nat.mul_div_cancel _ (by decide)] at hneeded
    have hmem : dataSlot q ∈ missing img.sector (dinodes img ROOTINO) 0 (dinodes img ROOTINO).size :=
      Finset.mem_filter.mpr ⟨hneeded (dataSlot_mem q), h0⟩
    rw [hslot] at hmem
    rw [hsub.antisymm (Finset.singleton_subset_iff.mpr hmem), Finset.card_singleton,
      Finset.one_le_card, ← hs.freeblock, forall_prop_of_true hfull]
    have hbpb : FSSIZE ≤ BPB := by decide
    refine ⟨?_, fun hfree => ⟨s.freeblock, mem_freeBlocks.mpr ⟨hfree, ?_⟩⟩⟩
    · rintro ⟨b, hb⟩
      obtain ⟨hb, hbit⟩ := mem_freeBlocks.mp hb
      have hb' : b < FSSIZE := hb
      rw [h.bitmap b (by omega), decide_eq_false_iff_not] at hbit
      omega
    · rw [h.bitmap _ (by omega)]
      exact decide_eq_false (lt_irrefl _)
  · have hnone : missing img.sector (dinodes img ROOTINO) 0 (dinodes img ROOTINO).size = ∅ := by
      refine Finset.eq_empty_of_forall_notMem fun k hk => ?_
      obtain rfl := Finset.mem_singleton.mp (hsub hk)
      refine h.noHoles hs (show ROOTINO < NI by decide) hfull q (lt_blocksOf.mpr ?_) ?_
      · rw [hsize, Nat.add_mul, BSIZE]
        omega
      · rw [addrOf, hslot]
        exact (Finset.mem_filter.mp hk).2
    rw [hnone, Finset.card_empty]
    exact iff_of_true (Nat.zero_le _) fun hfull' => absurd hfull' hfull

/-- The root directory itself is found, and read. -/
theorem lookupRead_root {name : List UInt8} {e : ℕ × List UInt8} (h : Finished s img)
    (hs : Inv s (imageFiles files)) (hcount : files.length + 2 ≤ NINODES)
    (hmax : (dinodes img ROOTINO).size ≤ MAXFILE * BSIZE)
    (he : (rootEntries files)[m]? = some e) (hname : nameOf name = nameOf e.2)
    (hbefore : ∀ m' < m, ∀ e', (rootEntries files)[m']? = some e' → nameOf name ≠ nameOf e'.2)
    (heq : e.1 = ROOTINO) :
    Meets (lookupRead name) (mount img) (fun r _ => ∃ k ≤ (dinodes img ROOTINO).size,
      r = some ((dinodes img ROOTINO).size,
        some ((List.range k).map (byteAt img.sector (dinodes img ROOTINO)))) ∧
      (k = (dinodes img ROOTINO).size ↔
        (missing img.sector (dinodes img ROOTINO) 0 (dinodes img ROOTINO).size).card ≤
          (freeBlocks sb (bit img.sector)).card)) Never := by
  have hroot := (h.root hs).1
  rw [lookupRead, meets_lockRoot (by rw [hroot]; decide), meets_bind,
    meets_dirlookup_root h hs hcount rfl (by rw [rootLocked, inode_setInode_self]) he hname hbefore,
    heq]
  refine (meets_iget_old (s := rootLocked img) (j := 0) (by decide) Nat.one_pos rfl
    fun _ hj => absurd hj (Nat.not_lt_zero _)).mpr ?_
  set st := (rootLocked img).setInode 0 _
  have h0 : st.inode 0 = ⟨ROOTINO, 2, true, true, dinodes img ROOTINO⟩ := rfl
  rw [meets_bind, meets_iunlock (by rw [h0]; exact Nat.two_pos) (by rw [h0]), h0]
  dsimp only
  rw [meets_bind, meets_ilock_valid, meets_bind, meets_copyOf]
  · rw [inode_setInode_self, inode_setInode_self]
    dsimp only
    rw [meets_bind]
    set st' := State.setInode _ 0 ⟨ROOTINO, 2, true, true, dinodes img ROOTINO⟩
    have h1 : st'.inode 0 = ⟨ROOTINO, 2, true, true, dinodes img ROOTINO⟩ := rfl
    have hsound : Sound sb (dinodes img) 0 st' :=
      sound_root h hs hcount rfl rfl (by rw [h1]) (by rw [h1])
    have hread := meets_readi_grown (E := Never) hsound (by rw [h1]; exact hmax)
    rw [h1] at hread
    refine hread.imp ?_
    rintro r t ⟨k, hk, rfl, hiff⟩
    exact ⟨k, hk, rfl, hiff⟩
  · rw [inode_setInode_self]
    exact Nat.two_pos
  · rw [inode_setInode_self]
  · rw [inode_setInode_self]

end

/-- The inode of a file. -/
theorem Finished.file {files : List HostFile} {s img : Image} {j : ℕ} {f : HostFile}
    (h : Finished s img) (hs : Inv s (imageFiles files)) (hcount : files.length + 2 ≤ NINODES)
    (hj : files[j]? = some f) : (dinodes img (j + 2)).type = .T_FILE ∧
      (dinodes img (j + 2)).size = f.content.length := by
  have hlt := (List.getElem?_eq_some_iff.mp hj).1
  have hni : NINODES ≤ NI := by decide
  cases h.isFile hs (i := j + 2) (by omega) with
  | none hi => omega
  | root hi =>
    rw [ROOTINO] at hi
    omega
  | file j' f' hi hj' htype hsize =>
    obtain rfl : j = j' := by omega
    obtain rfl := Option.some.inj (hj.symm.trans hj')
    exact ⟨htype, hsize⟩

/-- Reading the whole of a file. -/
theorem readiResult_file {files : List HostFile} {s img : Image} {j : ℕ} {f : HostFile}
    (h : Finished s img) (hs : Inv s (imageFiles files)) (hcount : files.length + 2 ≤ NINODES)
    (hj : files[j]? = some f) :
    readiResult img.sector (dinodes img (j + 2)) none 0 f.content.length = some f.content := by
  have hsize := (h.file hs hcount hj).2
  have hbytes : fileBytes img.sector (dinodes img (j + 2)) 0 f.content.length = _ :=
    fileBytes_image h hs (getElem?_file hj) (Nat.zero_add _).le
  have hreaches : reaches none f.content.length := by
    rintro _ ⟨⟩
  rw [readiResult, hsize, if_neg (by omega), Nat.sub_zero, Nat.min_self, if_pos hreaches, hbytes]
  congr 1
  refine ext_getElem (by simp) fun k hk hk' => ?_
  rw [getElem_map, getElem_range, Nat.zero_add, getD_eq_getElem _ _ hk']

/-- What `mkfs` is given: files that it accepts, with different names, and that fit. -/
structure Suitable (files : List HostFile) : Prop where
  ok : ∀ f ∈ files, f.Ok
  nul : ∀ f ∈ files, 0 ∉ stripped f.path
  distinct : (files.map fun f => stripped f.path).Nodup
  inodes : files.length + 2 ≤ NINODES
  blocks : nmeta + slotsOf ((files.length + 2) * direntSize) +
    (files.map fun f => slotsOf f.content.length).sum ≤ FSSIZE

/-- What the kernel reads of the root directory: its entries, and zeros up to its size. -/
def rootBytes (files : List HostFile) : List UInt8 :=
  (List.range (((files.length + 2) * direntSize / BSIZE + 1) * BSIZE)).map fun pos =>
    (de ROOTINO dot ++ de ROOTINO dotdot ++ entries 2 files).getD pos 0

section

variable {files : List HostFile} {f : HostFile} {s img : Image} (h : Suitable files)
  (hs : Inv s (imageFiles files)) (himg : Finished s img)
include h hs himg

/-- A file with a name of its own is found and read. -/
theorem lookupRead_content (hf : f ∈ files)
    (hdots : ¬(stripped f.path = dot ∨ stripped f.path = dotdot)) :
    Meets (lookupRead (stripped f.path)) (mount img)
      (fun r _ => r = some (f.content.length, some f.content)) Never := by
  rw [not_or] at hdots
  obtain ⟨j, hj⟩ := List.mem_iff_getElem?.mp hf
  have hname {g : HostFile} (hg : g ∈ files) : nameOf (stripped g.path) = stripped g.path :=
    nameOf_eq (h.ok g hg).name (h.nul g hg)
  have he : (rootEntries files)[j + 2]? = some (j + 2, stripped f.path) := by
    rw [rootEntries, List.getElem?_cons_succ, List.getElem?_cons_succ, getElem?_numbered hj,
      Nat.add_comm]
  -- an entry before it has another name
  have hbefore (m : ℕ) (hm : m < j + 2) (e : ℕ × List UInt8)
      (he : (rootEntries files)[m]? = some e) : nameOf (stripped f.path) ≠ nameOf e.2 := by
    rw [hname hf]
    match m, he with
    | 0, he =>
      cases he
      exact hdots.1
    | 1, he =>
      cases he
      exact hdots.2
    | m + 2, he =>
      have hlt := (List.getElem?_eq_some_iff.mp hj).1
      have hm' := List.getElem?_eq_getElem (show m < files.length by omega)
      obtain rfl := Option.some.inj (he.symm.trans (getElem?_numbered hm' 2))
      rw [hname (List.mem_of_getElem? hm')]
      intro heq
      refine List.nodup_iff_getElem?_ne_getElem?.mp h.distinct m j (by omega) (by simpa using hlt) ?_
      rw [List.getElem?_map, List.getElem?_map, hj, hm', Option.map_some, Option.map_some, heq]
  obtain ⟨htype, hsize⟩ := himg.file hs h.inodes hj
  have hread := lookupRead_file himg hs h.inodes he rfl hbefore (by rw [ROOTINO]; omega)
    (by rw [htype]; decide) (by
      rw [hsize]
      exact present_image himg hs (getElem?_file hj) (Nat.zero_add _).le)
  rwa [hsize, readiResult_file himg hs h.inodes hj] at hread

/-- Under the name of the root directory, or of its parent, the root directory is found and read. -/
theorem lookupRead_dots {name : List UInt8} (hdots : name = dot ∨ name = dotdot) :
    ∃ k t, lookupRead name (mount img) =
      .ok (some ((rootBytes files).length, some ((rootBytes files).take k)), t) ∧
      ((rootBytes files).length ≤ k ↔ ((files.length + 2) % (BSIZE / direntSize) = 0 →
        blocksUsed (imageFiles files) < FSSIZE)) := by
  obtain ⟨m, e, he, hname, hbefore, heq⟩ : ∃ (m : ℕ) (e : ℕ × List UInt8),
      (rootEntries files)[m]? = some e ∧ nameOf name = nameOf e.2 ∧ (∀ m' < m, ∀ e',
        (rootEntries files)[m']? = some e' → nameOf name ≠ nameOf e'.2) ∧ e.1 = ROOTINO := by
    rcases hdots with rfl | rfl
    · exact ⟨0, _, rfl, rfl, fun _ hm => absurd hm (Nat.not_lt_zero _), rfl⟩
    · refine ⟨1, _, rfl, rfl, fun m' hm' e' he' => ?_, rfl⟩
      obtain rfl : m' = 0 := by omega
      cases he'
      decide
  have hmax := himg.size_le hs (show ROOTINO < NI by decide) h.inodes h.ok
  obtain ⟨r, t, hok, k, hk, rfl, hall⟩ :=
    (lookupRead_root himg hs h.inodes hmax he hname hbefore heq).exists_ok fun _ => id
  have hbytes : (List.range (dinodes img ROOTINO).size).map
      (byteAt img.sector (dinodes img ROOTINO)) = rootBytes files := by
    rw [rootBytes, ← (himg.root hs).2]
    refine map_congr_left fun pos hpos => byteAt_image himg hs (j := 0) rfl (div_lt_MAXFILE ?_)
    exact (mem_range.mp hpos).trans_le hmax
  refine ⟨k, t, ?_, ?_⟩
  · rw [hok, ← hbytes, length_map, length_range, ← map_take, take_range, Nat.min_eq_left hk]
  · rw [← missing_root himg hs h.inodes, ← hall, ← hbytes, length_map, length_range]
    omega

end

/-- **When the kernel reads what `mkfs` wrote:** exactly if each file with the name of the root
directory, or of its parent, has the bytes of the root directory, and there is a block left if these
fill their last block. -/
theorem main_readBack (files : List HostFile) (h : Suitable files) :
    ∃ img, main files opened = .ok ((), img) ∧
      ((∀ f ∈ files, Meets (lookupRead (stripped f.path)) (mount img)
        (fun r _ => r = some (f.content.length, some f.content)) Never) ↔
      ∀ f ∈ files, stripped f.path = dot ∨ stripped f.path = dotdot → f.content = rootBytes files ∧
        ((files.length + 2) % (BSIZE / direntSize) = 0 → nmeta +
          slotsOf ((files.length + 2) * direntSize) +
          (files.map fun f => slotsOf f.content.length).sum < FSSIZE)) := by
  have hni : NINODES ≤ NI := by decide
  have hcount := h.inodes
  obtain ⟨img, s, hmain, hs, himg⟩ := main_ok files (by omega) h.ok
    ((blocksUsed_imageFiles files).trans_le h.blocks)
  refine ⟨img, hmain, forall₂_congr fun f hf => ?_⟩
  by_cases hdots : stripped f.path = dot ∨ stripped f.path = dotdot
  · obtain ⟨k, t, hok, hall⟩ := lookupRead_dots h hs himg hdots
    rw [forall_prop_of_true hdots, ← blocksUsed_imageFiles, ← hall, meets_of_ok hok,
      Option.some.injEq, Prod.mk.injEq, Option.some.injEq]
    constructor
    · rintro ⟨hlen, hcontent⟩
      have hk : (rootBytes files).length ≤ k := by
        rw [hlen, ← hcontent, length_take]
        exact Nat.min_le_left _ _
      exact ⟨by rw [← hcontent, take_of_length_le hk], hk⟩
    · rintro ⟨hcontent, hk⟩
      rw [hcontent, take_of_length_le hk]
      exact ⟨rfl, rfl⟩
  · exact iff_of_true (lookupRead_content h hs himg hf hdots) fun hdots' => absurd hdots' hdots

theorem main_readBack_two : ∃ img, main twoFiles opened = .ok ((), img) ∧ ∀ f ∈ twoFiles,
    Meets (lookupRead (stripped f.path)) (mount img)
      (fun r _ => r = some (f.content.length, some f.content)) Never := by
  obtain ⟨img, hmain, hiff⟩ :=
    main_readBack twoFiles ⟨by decide, by decide, by decide, by decide, by decide⟩
  have hdots : ∀ f ∈ twoFiles, ¬(stripped f.path = dot ∨ stripped f.path = dotdot) := by decide
  exact ⟨img, hmain, hiff.mpr fun f hf hname => absurd hname (hdots f hf)⟩

/-- An empty file with the path `_.`, from which `_` is stripped. -/
def dotFile : HostFile := ⟨[95, 46], some []⟩

/-- Under `.` the kernel finds the root directory, not the file. -/
theorem main_readBack_dot : Suitable [dotFile] ∧ stripped dotFile.path = dot ∧
    dotFile.content = [] ∧
    ∃ img, main [dotFile] opened = .ok ((), img) ∧
      Meets (lookupRead (stripped dotFile.path)) (mount img)
        (fun r _ => ∃ bytes, r = some (BSIZE, bytes)) Never := by
  have hsuit : Suitable [dotFile] := ⟨by decide, by decide, by decide, by decide, by decide⟩
  refine ⟨hsuit, by decide, by decide, ?_⟩
  obtain ⟨img, s, hmain, hs, himg⟩ := main_ok [dotFile] (by decide) hsuit.ok
    ((blocksUsed_imageFiles _).trans_le hsuit.blocks)
  obtain ⟨k, t, hok, -⟩ := lookupRead_dots hsuit hs himg (show stripped dotFile.path = dot ∨ _ from
    .inl (by decide))
  have hlen : (rootBytes [dotFile]).length = BSIZE := by
    rw [rootBytes, length_map, length_range]
    rfl
  exact ⟨img, hmain, (meets_of_ok hok).mpr ⟨_, by rw [hlen]⟩⟩

end Xv6.Mkfs
