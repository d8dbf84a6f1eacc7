import Xv6.MkfsSpec

/-!
# The image that `mkfs` writes

The specifications of the parts are put together for `main`. At its end the
image has the root directory and the files, one inode for each, with two
changes: the size of the root directory has been rounded up, and the bitmap
has been written (`main_spec`). The rounding is where the format can be lost,
since no block is allocated for it.
-/

namespace Xv6.Mkfs

open Function List

open Fs Prog

/-! ## The start -/

section

variable {s s' : Image} {n b : ℕ}

theorem zeroSectors_spec (hsector : ∀ b, s.sector b = fun _ => 0) (hlen : s.len = 0) (n : ℕ) :
    Meets (zeroSectors n) s (fun _ s' => (∀ b, s'.sector b = fun _ => 0) ∧ s'.len = n ∧
      s'.freeinode = s.freeinode ∧ s'.freeblock = s.freeblock) Never := by
  induction n with
  | zero =>
    exact ⟨hsector, hlen, rfl, rfl⟩
  | succ n ih =>
    refine ih.bind fun _ s' ⟨hs, hl, hi, hb⟩ => ?_
    refine ⟨fun b => ?_, ?_, hi, hb⟩
    · dsimp only
      rw [update_apply]
      split_ifs
      · rfl
      · exact hs b
    · dsimp only
      omega

theorem getDinode_zero (a : ℕ) : getDinode (fun _ => 0) a = Dinode.zero := by
  simp only [getDinode, getLE_eq_zero (m := fun _ => 0) fun _ _ _ => rfl]
  have haddrs (j : ℕ) : ((List.range (NDIRECT + 1)).map fun _ => 0).getD j 0 = 0 := by
    rw [getD_eq_getElem?_getD, getElem?_map]
    cases (List.range (NDIRECT + 1))[j]? <;> rfl
  simp only [haddrs]
  rfl

theorem slot_of_addrs {block : ℕ → Bytes} {d : Dinode} (h : ∀ j, d.addrs j = 0) (k : ℕ) :
    slot block d k = 0 := by
  rw [slot, h NDIRECT, if_pos rfl]
  split_ifs
  · exact h k
  · rfl

/-- An image without files. -/
theorem inv_nil (hsector : ∀ b ≠ 1, s.sector b = fun _ => 0) (hlen : s.len = FSSIZE)
    (hfreeinode : s.freeinode = 1) (hfreeblock : s.freeblock = nmeta) : Inv s [] := by
  have hdinodes (i : ℕ) : dinodes s i = Dinode.zero := by
    have hblock : inodestart ≤ IBLOCK i := Nat.le_add_left _ _
    have hstart : 1 < inodestart := by decide
    rw [dinodes, hsector _ (by omega), getDinode_zero]
  have hslot (i k : ℕ) : slot s.sector (dinodes s i) k = 0 :=
    slot_of_addrs (fun _ => by rw [hdinodes]; rfl) k
  have hle : nmeta ≤ FSSIZE := by decide
  refine ⟨hfreeinode, ⟨hlen, by decide, by simpa using hfreeblock, hfreeblock ▸ hle, fun i _ => ?_,
    ⟨by decide, fun i _ k _ h0 => absurd (hslot i k) h0, fun i _ k _ _ _ _ _ h0 =>
      absurd (hslot i k) h0, fun b hb _ hb' => ?_⟩, by simp, fun i _ _ j => ?_, by simp, by simp,
    by simp, fun b hb _ => hsector b ?_⟩, by simp, fun i _ _ => hdinodes i⟩
  · rw [hdinodes]
    exact ⟨Nat.two_pow_pos 32, fun _ => Nat.two_pow_pos 32, fun _ _ => rfl⟩
  · omega
  · rw [hdinodes]
    rfl
  · have hmeta : 1 < nmeta := by decide
    omega

/-! ## The bitmap -/

/-- The loop of `balloc` has set the bits before `n`. -/
theorem testBit_ballocLoop (n b : ℕ) :
    (ballocLoop n (b / 8)).toNat.testBit (b % 8) = decide (b < n) := by
  induction n with
  | zero => simp [ballocLoop]
  | succ n ih =>
    have hlt : 2 ^ (n % 8) < 2 ^ 8 := Nat.pow_lt_pow_right (by decide) (Nat.mod_lt _ (by decide))
    rw [ballocLoop, update_apply]
    split_ifs with hbyte
    · rw [UInt8.toNat_or, Nat.testBit_or, ← hbyte, ih, UInt8.toNat_ofNat', Nat.mod_eq_of_lt hlt,
        Nat.testBit_two_pow, ← Bool.decide_or]
      refine decide_eq_decide.mpr ?_
      omega
    · rw [ih]
      refine decide_eq_decide.mpr ?_
      omega

theorem bit_ballocLoop {sector : ℕ → Bytes} (hb : b < BPB) (n : ℕ) :
    bit (update sector bmapstart (ballocLoop n)) b = decide (b < n) := by
  rw [bit, Nat.div_eq_of_lt hb, Nat.zero_add, update_self, Nat.mod_eq_of_lt hb,
    testBit_ballocLoop]

end

/-! ## The end -/

/-- The files of the image: the root directory, and the others. -/
def imageFiles (files : List HostFile) : Files :=
  withRoot (de ROOTINO dot ++ de ROOTINO dotdot ++ entries 2 files) (files.map HostFile.file)

/-- What happens after the last file. -/
structure Finished (s img : Image) : Prop where
  inodes : ∀ i < NI, dinodes img i =
    if i = ROOTINO then
      { dinodes s ROOTINO with size := ((dinodes s ROOTINO).size / BSIZE + 1) * BSIZE }
    else dinodes s i
  sector : ∀ b, nmeta ≤ b → img.sector b = s.sector b
  bitmap : ∀ b < BPB, bit img.sector b = decide (b < s.freeblock)

theorem length_de (inum : ℕ) (name : List UInt8) : (de inum name).length = direntSize := by
  simp [de, getBytes]

theorem length_entries (files : List HostFile) (n : ℕ) :
    (entries n files).length = files.length * direntSize := by
  induction files generalizing n with
  | nil => simp [entries]
  | cons f files ih => rw [entries, length_append, length_de, ih, length_cons]; ring

/-- The size of the root directory, before it is rounded. -/
theorem length_root (files : List HostFile) :
    (de ROOTINO dot ++ de ROOTINO dotdot ++ entries 2 files).length =
      (files.length + 2) * direntSize := by
  rw [length_append, length_append, length_de, length_de, length_entries]
  ring

/-- The end of `main`. -/
theorem finish_spec {s : Image} {root : List UInt8} {rest : Files}
    (h : Inv s (withRoot root rest)) :
    Meets (do
      let din ← rinode ROOTINO
      let off := (din.size / BSIZE + 1) * BSIZE
      winode ROOTINO { din with size := off }
      balloc (← get).freeblock) s (fun _ img => Finished s img) Never := by
  have hroot : ROOTINO < NI := by decide
  have hblock := iblock_lt_len h.table.len hroot
  have hfree : s.freeblock < BPB := h.table.freeblock_le.trans_lt (by decide)
  rw [meets_bind, meets_rinode hblock]
  dsimp only
  set d : Dinode := { dinodes s ROOTINO with
    size := ((dinodes s ROOTINO).size / BSIZE + 1) * BSIZE } with hd
  have hfits : Fits d := by
    have hold := h.table.fits ROOTINO hroot
    refine ⟨?_, hold.addrs, hold.high⟩
    have hlen : root.length ≤ MAXFILE * BSIZE := h.table.length_le (i := 0) rfl
    have hsize : (dinodes s ROOTINO).size = root.length := (h.head 0 _ _ rfl).2.2
    have hmul := Nat.div_mul_le_self root.length BSIZE
    have hmax : MAXFILE * BSIZE + BSIZE < 2 ^ 32 := by decide
    rw [hd]
    dsimp only
    rw [hsize, Nat.add_mul, Nat.one_mul]
    omega
  rw [meets_bind, meets_winode hblock, meets_bind, meets_get, balloc, meets_bind, meets_assert]
  refine ⟨fun _ => ⟨fun i hi => ?_, fun b hb => ?_, fun b hb => bit_ballocLoop hb _⟩,
    fun hfull => absurd hfree hfull⟩
  · have hne : IBLOCK i ≠ bmapstart := (iblock_lt hi).ne
    rw [← dinodes_setDinode hfits]
    simp only [dinodes, update_of_ne hne]
  · have hmeta : bmapstart < nmeta := by decide
    dsimp only
    rw [update_of_ne (by omega), sector_setDinode hroot (by omega)]

-- the specification stands for it: nothing is to be gained from 2000 rounds
attribute [local irreducible] zeroSectors

/-- **What `main` writes.** It fails if a file is refused, or if the files do not fit. -/
theorem main_spec {s : Image} (files : List HostFile) (hsector : ∀ b, s.sector b = fun _ => 0)
    (hlen : s.len = 0) (hfreeinode : s.freeinode = 1) (hcount : files.length + 1 < NI) :
    Meets (main files) s
      (fun _ img => (∀ f ∈ files, f.Ok) ∧ ∃ s', Inv s' (imageFiles files) ∧ Finished s' img)
      fun _ => (∀ f ∈ files, f.Ok) → FSSIZE < blocksUsed (imageFiles files) := by
  have hgrow (c : List UInt8) (hc : c.length ≤ 2 * direntSize) :
      blocksUsed (withRoot c []) ≤ blocksUsed (imageFiles files) := by
    refine Grows.blocksUsed_le (Grows.withRoot ?_ (Grows.append [] _))
    rw [length_root]
    exact hc.trans (Nat.mul_le_mul_right _ (by omega))
  have hmax : (files.length + 2) * direntSize ≤ MAXFILE * BSIZE := by
    have hni : (NI + 1) * direntSize ≤ MAXFILE * BSIZE := by decide
    exact (Nat.mul_le_mul_right _ (by omega)).trans hni
  rw [main, meets_bind, meets_modify, meets_bind]
  refine (zeroSectors_spec (s := { s with freeblock := nmeta }) hsector hlen FSSIZE).never.imp ?_
  rintro _ s₁ ⟨hs₁, hl₁, hi₁, hb₁⟩
  rw [wsect, meets_bind, meets_modify]
  set s₂ : Image := { s₁ with
    sector := update s₁.sector 1 superblock, len := max s₁.len (1 + 1) }
  have h₂ : Inv s₂ [] := by
    refine inv_nil (fun b hb => ?_) ?_ (hi₁.trans hfreeinode) hb₁
    · exact (update_of_ne hb ..).trans (hs₁ b)
    · have hle : 2 ≤ FSSIZE := by decide
      show max s₁.len (1 + 1) = FSSIZE
      omega
  rw [meets_bind]
  refine (ialloc_spec h₂ (by decide) .T_DIR).never.imp ?_
  rintro rootino s₃ ⟨hrootino, h₃⟩
  obtain rfl : rootino = ROOTINO := hrootino
  rw [meets_bind, meets_assert]
  refine ⟨fun _ => ?_, fun hne => absurd rfl hne⟩
  rw [meets_bind]
  refine (iappend_spec h₃ (i := 0) rfl (de ROOTINO dot)).mono (fun _ s₄ h₄ => ?_) ?_
  · rw [meets_bind]
    refine (iappend_spec h₄ (i := 0) rfl (de ROOTINO dotdot)).mono (fun _ s₅ h₅ => ?_) ?_
    · rw [meets_bind]
      refine (addFiles_spec files (h₅ : Inv s₅ (withRoot _ [])) (by simpa using hcount)).mono ?_ ?_
      · rintro _ s₆ ⟨hok, h₆⟩
        refine (finish_spec h₆).never.imp fun _ img himg => ⟨hok, s₆, h₆, himg⟩
      · intro _ hfail hok
        refine (hfail hok).resolve_right fun hbig => absurd hmax (Nat.not_le.mpr ?_)
        rw [← length_root]
        exact hbig
    · rintro _ (hfull | hbig) -
      · exact hfull.trans_le (hgrow _ (by decide))
      · exact absurd hbig (by decide)
  · rintro _ (hfull | hbig) -
    · exact hfull.trans_le (hgrow _ (by decide))
    · exact absurd hbig (by decide)

/-! ## The format -/

section

variable {s img : Image} {files : List HostFile} {i : ℕ}

/-- The changes at the end are none of blocks. -/
theorem Finished.slot_eq {A : Files} (h : Finished s img) (hs : Inv s A) (hi : i < NI) (k : ℕ) :
    slot img.sector (dinodes img i) k = slot s.sector (dinodes s i) k := by
  refine slot_congr (fun j _ => ?_) (fun h0 => h.sector _ (hs.table.indirect_range hi h0).1) k
  rw [h.inodes i hi]
  split_ifs with hroot
  · rw [hroot]
  · rfl

theorem lt_blocksOf {bn n : ℕ} : bn < blocksOf n ↔ bn * BSIZE < n := by
  rw [blocksOf, BSIZE]
  omega

/-- Rounding up adds no block if the last block is in part used. -/
theorem blocksOf_round {n : ℕ} (h : n % BSIZE ≠ 0) :
    blocksOf ((n / BSIZE + 1) * BSIZE) = blocksOf n := by
  rw [blocksOf, blocksOf, BSIZE] at *
  omega

theorem length_imageFiles : (imageFiles files).length = files.length + 1 := by
  simp [imageFiles, withRoot]

/-- Which inode is which file. -/
inductive IsFile (img : Image) (files : List HostFile) (i : ℕ) : Prop
  | none (hi : i = 0 ∨ files.length + 1 < i) (hd : dinodes img i = Dinode.zero)
  | root (hi : i = ROOTINO) (htype : (dinodes img i).type = .T_DIR)
    (hsize : (dinodes img i).size =
      ((files.length + 2) * direntSize / BSIZE + 1) * BSIZE)
  | file (j : ℕ) (f : HostFile) (hi : i = j + 2) (hj : files[j]? = some f)
    (htype : (dinodes img i).type = .T_FILE) (hsize : (dinodes img i).size = f.content.length)

theorem Finished.isFile (h : Finished s img) (hs : Inv s (imageFiles files)) (hi : i < NI) :
    IsFile img files i := by
  have hinode := h.inodes i hi
  by_cases hnone : i = 0 ∨ files.length + 1 < i
  · refine .none hnone ?_
    rw [hinode, if_neg (by rw [ROOTINO]; omega)]
    exact hs.free i hi (by rwa [length_imageFiles])
  · by_cases hroot : i = ROOTINO
    · obtain ⟨htype, -, hsize⟩ := hs.head 0 _ _ rfl
      rw [length_root] at hsize
      rw [if_pos hroot] at hinode
      refine .root hroot ?_ ?_
      · rw [hinode]
        exact htype
      · rw [hinode, ← hsize]
        rfl
    · obtain ⟨j, rfl⟩ : ∃ j, i = j + 2 := ⟨i - 2, by rw [ROOTINO] at hroot; omega⟩
      have hj : j < files.length := by omega
      obtain ⟨htype, -, hsize⟩ := hs.head (j + 1) .T_FILE (files.get ⟨j, hj⟩).content
        (by simp [imageFiles, withRoot, HostFile.file, hj])
      exact .file j _ rfl (getElem?_eq_getElem hj) (hinode ▸ htype) (hinode ▸ hsize)

theorem Finished.root (h : Finished s img) (hs : Inv s (imageFiles files)) :
    (dinodes img ROOTINO).type = .T_DIR ∧ (dinodes img ROOTINO).size =
      ((files.length + 2) * direntSize / BSIZE + 1) * BSIZE := by
  cases h.isFile hs (show ROOTINO < NI by decide) with
  | none hi => exact absurd hi (by rw [ROOTINO]; omega)
  | root _ htype hsize => exact ⟨htype, hsize⟩
  | file _ _ hi => exact absurd hi (by rw [ROOTINO]; omega)

/-- A file has a block for each of its bytes. -/
theorem Finished.addrOf_ne_zero (h : Finished s img) (hs : Inv s (imageFiles files)) {j bn : ℕ}
    {t : InodeType} {c : List UInt8} (hc : (imageFiles files)[j]? = some (t, c))
    (hbn : bn < blocksOf c.length) : addrOf img.sector (dinodes img (j + 1)) bn ≠ 0 := by
  have hc' := getElem?_contents hc
  have hj : j < ((imageFiles files).map Prod.snd).length := (List.getElem?_eq_some_iff.mp hc').1
  have hcov := hs.table.covered j c hc' (bn * BSIZE) (lt_blocksOf.mp hbn)
  rw [Nat.mul_div_cancel _ (by decide)] at hcov
  rw [addrOf, h.slot_eq hs (hs.table.lt_NI hj)]
  exact hs.table.slot_ne_zero hj hcov

theorem getElem?_file {j : ℕ} {f : HostFile} (hj : files[j]? = some f) :
    (imageFiles files)[j + 1]? = some (.T_FILE, f.content) := by
  simp [imageFiles, withRoot, HostFile.file, hj]

section

variable (h : Finished s img) (hs : Inv s (imageFiles files))
include h hs

/-- The inodes in use. -/
theorem Finished.number (hi : i < NI) (hused : dinodes img i ≠ Dinode.zero) :
    0 < i ∧ i ≤ files.length + 1 := by
  cases h.isFile hs hi with
  | none _ hd => exact absurd hd hused
  | root heq =>
    rw [ROOTINO] at heq
    omega
  | file j _ heq hj =>
    have := (List.getElem?_eq_some_iff.mp hj).1
    omega

theorem Finished.refs (hcount : files.length + 2 ≤ NINODES) :
    Refs NINODES nmeta FSSIZE (bit img.sector ·) (dinodes img) img.sector := by
  refine (hs.table.refs.congr (fun i hi k _ => h.slot_eq hs hi k) fun b hb => ?_).mono
    (by decide) fun i hge hi k => ?_
  · rw [h.bitmap b (hb.trans (by decide)), decide_eq_true_iff]
  · have hd : dinodes img i = Dinode.zero := by
      by_contra hused
      have := (h.number hs hi hused).2
      omega
    exact slot_of_addrs (fun j => by rw [hd]; rfl) k

/-- The root directory has no hole, unless its entries fill their last block. -/
theorem Finished.noHoles (hi : i < NI) (hroot : (files.length + 2) % (BSIZE / direntSize) ≠ 0) :
    NoHoles img.sector (dinodes img i) := by
  intro bn hbn
  cases h.isFile hs hi with
  | none _ hd =>
    rw [hd] at hbn
    exact absurd hbn (Nat.not_lt_zero _)
  | root heq _ hsize =>
    have hmod : (files.length + 2) * direntSize % BSIZE ≠ 0 := by
      rw [direntSize, BSIZE] at *
      omega
    subst heq
    refine h.addrOf_ne_zero hs (j := 0) rfl ?_
    rwa [length_root, ← blocksOf_round hmod, ← hsize]
  | file j f heq hj _ hsize =>
    subst heq
    exact h.addrOf_ne_zero hs (getElem?_file hj) (hsize ▸ hbn)

theorem Finished.size_le (hi : i < NI) (hcount : files.length + 2 ≤ NINODES)
    (hok : ∀ f ∈ files, f.Ok) : (dinodes img i).size ≤ MAXFILE * BSIZE := by
  cases h.isFile hs hi with
  | none _ hd =>
    rw [hd]
    exact Nat.zero_le _
  | root _ _ hsize =>
    have hle : (files.length + 2) * direntSize ≤ NINODES * direntSize :=
      Nat.mul_le_mul_right _ hcount
    have hdiv := Nat.div_mul_le_self ((files.length + 2) * direntSize) BSIZE
    have hmax : NINODES * direntSize + BSIZE ≤ MAXFILE * BSIZE := by decide
    rw [hsize, Nat.add_mul, Nat.one_mul]
    omega
  | file _ f _ hj _ hsize =>
    rw [hsize]
    exact (hok f (mem_of_getElem? hj)).size

theorem Finished.dir (hi : i < NI) (hdir : (dinodes img i).type = .T_DIR) :
    direntSize ∣ (dinodes img i).size := by
  cases h.isFile hs hi with
  | none _ hd => exact absurd hdir (by rw [hd]; decide)
  | root _ _ hsize =>
    rw [hsize]
    exact Dvd.dvd.mul_left (by decide) _
  | file _ _ _ _ htype => exact absurd hdir (by rw [htype]; decide)

end

end

theorem sum_getD (l : List (List UInt8)) :
    ∑ i ∈ Finset.range l.length, slotsOf (l.getD i []).length =
      (l.map fun c => slotsOf c.length).sum := by
  induction l with
  | nil => rfl
  | cons c l ih =>
    rw [length_cons, Finset.sum_range_succ', map_cons, sum_cons, ← ih, Nat.add_comm]
    rfl

/-- The blocks used are those of the root directory and of the files. -/
theorem blocksUsed_imageFiles (files : List HostFile) :
    blocksUsed (imageFiles files) = nmeta + slotsOf ((files.length + 2) * direntSize) +
      (files.map fun f => slotsOf f.content.length).sum := by
  have hsum := sum_getD ((imageFiles files).map Prod.snd)
  rw [length_map] at hsum
  have hfiles : (imageFiles files).map Prod.snd =
      (de ROOTINO dot ++ de ROOTINO dotdot ++ entries 2 files) ::
        files.map HostFile.content := by
    rw [imageFiles, withRoot, map_cons, map_map]
    rfl
  unfold blocksUsed slotsIn
  rw [hsum, hfiles, map_cons, sum_cons, length_root, map_map, Nat.add_assoc]
  rfl

/-! ## The numbers of the inodes -/

section

variable {α β : Type} {x : Mk α} {f : α → Mk β} {k l : ℕ} {a : α} {sec inum j n off rootino : ℕ}
  {buf : Bytes} {din : Dinode} {p : List UInt8} {type : InodeType}

/-- The code hands out `k` numbers of inodes, wherever it is started and whatever it finds. -/
def Numbers (k : ℕ) (x : Mk α) : Prop :=
  ∀ s, Meets x s (fun _ t => t.freeinode = s.freeinode + k) fun _ => True

theorem Numbers.pure : Numbers 0 (Pure.pure a : Mk α) := fun _ => rfl

theorem Numbers.bind (hx : Numbers k x) (hf : ∀ a, Numbers l (f a)) :
    Numbers (k + l) (x >>= f) := by
  intro s
  refine meets_bind.mpr ((hx s).imp fun a t ht => (hf a t).imp fun _ u hu => ?_)
  rw [hu, ht, Nat.add_assoc]

/-- Most of the code hands out none. -/
theorem Numbers.after (hx : Numbers 0 x) (hf : ∀ a, Numbers l (f a)) : Numbers l (x >>= f) := by
  have h := hx.bind hf
  rwa [Nat.zero_add] at h

theorem numbers_assert {P : Prop} [Decidable P] {msg : String} : Numbers 0 (assert P msg) :=
  fun _ => meets_assert.mpr ⟨fun _ => rfl, fun _ => trivial⟩

theorem numbers_get : Numbers 0 (get : Mk Image) := fun _ => rfl

theorem numbers_wsect : Numbers 0 (wsect sec buf) := fun _ => rfl

theorem numbers_rsect : Numbers 0 (rsect sec) := by
  intro s
  rw [rsect, meets_bind, meets_get]
  split_ifs
  · rfl
  · trivial

theorem numbers_winode : Numbers 0 (winode inum din) :=
  numbers_rsect.after fun _ => numbers_wsect

theorem numbers_rinode : Numbers 0 (rinode inum) :=
  numbers_rsect.after fun _ => .pure

theorem numbers_ialloc : Numbers 1 (ialloc type) := fun s =>
  (numbers_winode.after fun _ => Numbers.pure) { s with freeinode := s.freeinode + 1 }

theorem numbers_newblock : Numbers 0 newblock := fun _ => rfl

theorem numbers_dinAddr : Numbers 0 (dinAddr din j) := by
  unfold dinAddr
  split_ifs
  · exact numbers_newblock.after fun _ => .pure
  · exact .pure

theorem numbers_indirectBlock : Numbers 0 (indirectBlock sec j) := by
  refine numbers_rsect.after fun indirect => ?_
  split_ifs
  · exact numbers_newblock.after fun _ => numbers_wsect.after fun _ => .pure
  · exact .pure

theorem numbers_fileBlock : Numbers 0 (fileBlock din n) := by
  unfold fileBlock
  split_ifs
  · exact numbers_dinAddr
  · exact numbers_dinAddr.after fun _ => numbers_indirectBlock.after fun _ => .pure

theorem numbers_iappendLoop : Numbers 0 (iappendLoop n din off p) := by
  induction n generalizing din off p with
  | zero => exact .pure
  | succ n ih =>
    unfold iappendLoop
    split_ifs
    · exact .pure
    · exact numbers_assert.after fun _ => numbers_fileBlock.after fun _ =>
        numbers_rsect.after fun _ => numbers_wsect.after fun _ => ih

theorem numbers_iappend : Numbers 0 (iappend inum p) :=
  numbers_rinode.after fun _ => numbers_iappendLoop.after fun _ => numbers_winode

theorem numbers_appendReads {reads : List (List UInt8)} : Numbers 0 (appendReads inum reads) := by
  induction reads with
  | nil => exact .pure
  | cons buf rest ih =>
    unfold appendReads
    split_ifs
    · exact .pure
    · exact numbers_iappend.after fun _ => ih

theorem numbers_addFile {f : HostFile} : Numbers 1 (addFile rootino f) := by
  refine numbers_assert.after fun _ => ?_
  cases f.reads with
  | none => exact fun _ => trivial
  | some reads =>
    exact numbers_assert.after fun _ => numbers_ialloc.bind fun _ =>
      numbers_iappend.after fun _ => numbers_appendReads

theorem numbers_addFiles {files : List HostFile} :
    Numbers files.length (addFiles rootino files) := by
  induction files with
  | nil => exact .pure
  | cons f files ih =>
    rw [length_cons, Nat.add_comm]
    exact numbers_addFile.bind fun _ => ih

theorem numbers_zeroSectors : Numbers 0 (zeroSectors n) := by
  induction n with
  | zero =>
    rw [zeroSectors]
    exact .pure
  | succ n ih =>
    rw [zeroSectors]
    exact ih.after fun _ => numbers_wsect

/-- One number for the root directory, and one for each file. -/
theorem numbers_main (files : List HostFile) : Numbers (files.length + 1) (main files) := by
  rw [Nat.add_comm]
  refine Numbers.after (fun _ => rfl) fun _ => numbers_zeroSectors.after fun _ =>
    numbers_wsect.after fun _ => numbers_ialloc.bind fun _ => numbers_assert.after
    fun _ => numbers_iappend.after fun _ => numbers_iappend.after fun _ =>
    numbers_addFiles.bind fun _ => numbers_rinode.after fun _ =>
    numbers_winode.after fun _ => numbers_get.after fun _ =>
    numbers_assert.after fun _ => numbers_wsect

end

/-! ## When the format is kept -/

/-- `main` succeeds if the files are accepted and fit. -/
theorem main_ok (files : List HostFile) (hcount : files.length + 1 < NI)
    (hok : ∀ f ∈ files, f.Ok) (hfit : blocksUsed (imageFiles files) ≤ FSSIZE) :
    ∃ img s, main files opened = .ok ((), img) ∧ Inv s (imageFiles files) ∧ Finished s img := by
  have hspec := main_spec files (s := opened) (fun _ => rfl) rfl rfl hcount
  obtain ⟨_, img, hmain, -, s, hs, himg⟩ :=
    hspec.exists_ok fun _ hfail => absurd (hfail hok) (Nat.not_lt.mpr hfit)
  exact ⟨img, s, hmain, hs, himg⟩

/-- If the entries of the root directory fill their last block, then its size is rounded up to one
block more, which it does not have. -/
theorem Finished.hole {files : List HostFile} {s img : Image} (h : Finished s img)
    (hs : Inv s (imageFiles files)) (hcount : files.length + 1 < NI)
    (hfull : (files.length + 2) % (BSIZE / direntSize) = 0) :
    addrOf img.sector (dinodes img ROOTINO) ((files.length + 2) / (BSIZE / direntSize)) = 0 := by
  have hroot : ROOTINO < NI := by decide
  rw [addrOf, h.slot_eq hs hroot]
  refine hs.table.slot_eq_zero (i := 0) (by rw [length_map, length_imageFiles]; omega) ?_ ?_
  · rw [slotsIn_eq rfl, length_root, slotsOf, dataSlot, blocksOf]
    rw [NDIRECT, BSIZE, direntSize] at *
    split_ifs <;> omega
  · have hni : NI ≤ 208 := by decide
    have hlt : (files.length + 2) / (BSIZE / direntSize) < NDIRECT := by
      rw [BSIZE, direntSize, NDIRECT]
      omega
    rw [dataSlot, if_pos hlt]
    exact hlt.trans (by decide)

/-- **When the image is well formed,** and the numbers of its inodes are below `sb.ninodes`: exactly
if it does not have too many files and the entries of the root directory do not fill their last
block. The root directory then has the block that its size is rounded up to. -/
theorem main_wellFormed (files : List HostFile) (img : Image)
    (hmain : main files opened = .ok ((), img)) :
    (WellFormed sb (mount img) ∧
      (∀ i < NI, ((mount img).dinode i).type ≠ .free → 0 < i ∧ i < sb.ninodes) ∧
      ∀ i, 0 < i → i < img.freeinode → i < sb.ninodes) ↔
    files.length + 2 ≤ NINODES ∧ (files.length + 2) % (BSIZE / direntSize) ≠ 0 := by
  have hni : NINODES ≤ NI := by decide
  have hfree : img.freeinode = 1 + (files.length + 1) := (numbers_main files opened).of_ok hmain
  have hspec (hcount : files.length + 2 ≤ NINODES) :=
    (main_spec files (s := opened) (fun _ => rfl) rfl rfl (by omega)).of_ok hmain
  refine ⟨fun ⟨hwf, _, hnum⟩ => ?_, fun ⟨hcount, hroot⟩ => ?_⟩
  · have hcount : files.length + 1 < NINODES := hnum (files.length + 1) (by omega) (by omega)
    refine ⟨hcount, fun hfull => ?_⟩
    obtain ⟨-, s, hs, himg⟩ := hspec hcount
    refine hwf.noHoles ROOTINO (by decide) _ ?_ (himg.hole hs (by omega) hfull)
    refine lt_blocksOf.mpr (lt_of_lt_of_eq ?_ (himg.root hs).2.symm)
    rw [BSIZE, direntSize] at *
    omega
  obtain ⟨hok, s, hs, himg⟩ := hspec hcount
  refine ⟨⟨himg.refs hs hcount, fun i hi => himg.noHoles hs (hi.trans_le hni) hroot,
    fun i hi => himg.size_le hs (hi.trans_le hni) hcount hok,
    fun i hi => himg.dir hs (hi.trans_le hni)⟩, fun i hi htype => ?_, fun i _ hi => ?_⟩
  · have hused : dinodes img i ≠ Dinode.zero := by
      intro hzero
      refine htype ?_
      show (dinodes img i).type = .free
      rw [hzero]
      rfl
    obtain ⟨hpos, hle⟩ := himg.number hs hi hused
    exact ⟨hpos, show i < NINODES by omega⟩
  · show i < NINODES
    omega

/-- `README` and `user/_cat`, read in two chunks. -/
def twoFiles : List HostFile :=
  [⟨[82, 69, 65, 68, 77, 69], some [[120, 118, 54]]⟩,
    ⟨[117, 115, 101, 114, 47, 95, 99, 97, 116], some [[127, 69], [76, 70]]⟩]

theorem main_wellFormed_two : ∃ img, main twoFiles opened = .ok ((), img) ∧
    WellFormed sb (mount img) ∧
    (∀ i < NI, ((mount img).dinode i).type ≠ .free → 0 < i ∧ i < sb.ninodes) ∧
    ∀ i, 0 < i → i < img.freeinode → i < sb.ninodes := by
  have hfit : blocksUsed (imageFiles twoFiles) ≤ FSSIZE := by
    rw [blocksUsed_imageFiles]
    decide
  obtain ⟨img, -, hmain, -⟩ := main_ok twoFiles (by decide) (by decide) hfit
  exact ⟨img, hmain, (main_wellFormed twoFiles img hmain).mpr ⟨by decide, by decide⟩⟩

/-- Empty files, with names `a0`, `a1`, … -/
def emptyFiles (n : ℕ) : List HostFile :=
  (List.range n).map fun k => ⟨[97, UInt8.ofNat (48 + k)], some []⟩

theorem length_emptyFiles (n : ℕ) : (emptyFiles n).length = n := by simp [emptyFiles]

theorem exists_emptyFiles {n : ℕ} (hn : n < 200) :
    ∃ img s, main (emptyFiles n) opened = .ok ((), img) ∧
      Inv s (imageFiles (emptyFiles n)) ∧ Finished s img := by
  have hni : 201 < NI := by decide
  refine main_ok _ (by rw [length_emptyFiles]; omega) (fun f hf => ?_) ?_
  · have hall : ∀ k < 200, (⟨[97, UInt8.ofNat (48 + k)], some []⟩ : HostFile).Ok := by
      decide +kernel
    obtain ⟨k, hk, rfl⟩ := mem_map.mp hf
    exact hall k ((mem_range.mp hk).trans hn)
  · have hsum : ((emptyFiles n).map fun f => slotsOf f.content.length).sum = 0 := by
      refine sum_eq_zero fun m hm => ?_
      obtain ⟨f, hf, rfl⟩ := mem_map.mp hm
      obtain ⟨k, -, rfl⟩ := mem_map.mp hf
      exact (by decide : slotsOf 0 = 0)
    have hle : nmeta + 4 ≤ FSSIZE := by decide
    have hslots : slotsOf ((n + 2) * direntSize) ≤ 4 := by
      rw [slotsOf, blocksOf, BSIZE, direntSize, NDIRECT]
      split_ifs <;> omega
    rw [blocksUsed_imageFiles, length_emptyFiles, hsum]
    omega

/-- Two ways to lose the format. 62 files and `.` and `..` are 64 entries in the root directory,
which fill a block: its size is rounded up to two blocks, and it has no second one. With 199 files
an inode is used whose number is `sb.ninodes`. -/
theorem main_malformed :
    (∃ img, main (emptyFiles 62) opened = .ok ((), img) ∧
      ((mount img).dinode ROOTINO).type = .T_DIR ∧
      ((mount img).dinode ROOTINO).size = 2 * BSIZE ∧
      addrOf (mount img).block ((mount img).dinode ROOTINO) 1 = 0) ∧
    ∃ img, main (emptyFiles 199) opened = .ok ((), img) ∧ sb.ninodes = 200 ∧
      ((mount img).dinode 200).type = .T_FILE := by
  refine ⟨?_, ?_⟩
  · obtain ⟨img, s, hmain, hs, himg⟩ := exists_emptyFiles (n := 62) (by decide)
    obtain ⟨htype, hsize⟩ := himg.root hs
    exact ⟨img, hmain, htype, hsize.trans (by rw [length_emptyFiles]; decide),
      himg.hole hs (by rw [length_emptyFiles]; decide) (by rw [length_emptyFiles]; decide)⟩
  · obtain ⟨img, s, hmain, hs, himg⟩ := exists_emptyFiles (n := 199) (by decide)
    refine ⟨img, hmain, rfl, ?_⟩
    cases himg.isFile hs (show 200 < NI by decide) with
    | none hi => exact absurd hi (by rw [length_emptyFiles]; decide)
    | root hi => exact absurd hi (by decide)
    | file _ _ _ _ htype => exact htype

end Xv6.Mkfs
