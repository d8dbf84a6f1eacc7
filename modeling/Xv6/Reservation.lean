import Mathlib.Data.Finset.Image
import Xv6.FsFile

/-!
# The log reservation of a write

`filewrite` writes so many bytes in one transaction that `writei` should log at
most `MAXOPBLOCKS` blocks. The count is made for any state of the disk: what the
rounds of the loop have logged are blocks they visited, blocks of the bitmap, and
the indirect block (`Logged`). A round visits one block and takes one block from
the bitmap for it; one more is taken, once, for the indirect block. If the offset
is not at the beginning of a block there is one more round, but it finds its
block and takes none.
-/

namespace Xv6.Fs

open Prog

variable {sb : Superblock} {i j n r a b off tot bn : ℕ} {V B : Finset ℕ} {s t u : State}
  {src : Bytes} {limit : Option ℕ}

/-- The blocks that were logged. -/
def loggedBlocks (acts : List Act) : Finset LogBlock :=
  (acts.filterMap fun
    | .log_write b => some b
    | _ => none).toFinset

theorem mem_loggedBlocks {acts : List Act} {b : LogBlock} :
    b ∈ loggedBlocks acts ↔ .log_write b ∈ acts := by
  rw [loggedBlocks, List.mem_toFinset, List.mem_filterMap]
  constructor
  · rintro ⟨act, hact, heq⟩
    cases act with
    | log_write b' => exact Option.some.inj heq ▸ hact
    | begin_op => cases heq
    | end_op => cases heq
    | iput => cases heq
  · exact fun h => ⟨_, h, rfl⟩

/-- The address of the indirect block of entry `i`. -/
def indirect (i : ℕ) (t : State) : ℕ := (t.inode i).copy.addrs NDIRECT

/-- A block that is visited, of the bitmap, or the indirect block. -/
inductive Touched (V B : Finset ℕ) (ind : ℕ) : LogBlock → Prop where
  | visited {b : ℕ} (h : b ∈ V) : Touched V B ind (.data b)
  | bitmap {k : ℕ} (h : k ∈ B) : Touched V B ind (.bitmap k)
  | indirect (h : ind ≠ 0) : Touched V B ind (.data ind)

/-- **What is logged since `s`,** with `r` rounds to go that may take a block from the bitmap. As
long as there is no indirect block, there is one less. -/
structure Logged (i : ℕ) (s : State) (r : ℕ) (V B : Finset ℕ) (t : State) : Prop where
  trace : ∃ acts, t.trace = acts ++ s.trace ∧
    ∀ b, .log_write b ∈ acts → Touched V B (indirect i t) b
  visited : V.card + r ≤ 4
  bitmaps : B.card + r ≤ if indirect i t = 0 then 3 else 4

theorem Touched.mono {V' B' : Finset ℕ} {ind ind' : ℕ} {b : LogBlock} (h : Touched V B ind b)
    (hV : V ⊆ V') (hB : B ⊆ B') (hind : ind ≠ 0 → ind' = ind) : Touched V' B' ind' b := by
  cases h with
  | visited h => exact .visited (hV h)
  | bitmap h => exact .bitmap (hB h)
  | indirect h => exact hind h ▸ .indirect (hind h ▸ h)

namespace Logged

theorem start (hr : r ≤ 3) : Logged i s r ∅ ∅ s := by
  refine ⟨⟨[], rfl, fun _ h => absurd h (List.not_mem_nil)⟩, ?_, ?_⟩
  · rw [Finset.card_empty]
    omega
  · rw [Finset.card_empty]
    split_ifs <;> omega

theorem mono (h : Logged i s r V B t) {r' : ℕ} (hr : r' ≤ r) : Logged i s r' V B t :=
  ⟨h.trace, by have := h.visited; omega, by have := h.bitmaps; omega⟩

/-- The log and the inode are as before. -/
theorem congr (h : Logged i s r V B t) (htrace : u.trace = t.trace)
    (hind : indirect i u = indirect i t) : Logged i s r V B u :=
  ⟨by rw [htrace, hind]; exact h.trace, h.visited, by rw [hind]; exact h.bitmaps⟩

/-- A round finds its block. -/
theorem visit (h : Logged i s (r + 1) V B t) (a : ℕ) : Logged i s r (insert a V) B t := by
  obtain ⟨acts, htrace, hacts⟩ := h.trace
  have hcard := Finset.card_insert_le a V
  have hvisited := h.visited
  have hbitmaps := h.bitmaps
  exact ⟨⟨acts, htrace, fun b hb => (hacts b hb).mono (Finset.subset_insert _ _) (le_refl _)
    fun _ => rfl⟩, by omega, by omega⟩

/-- The block of a round is logged. -/
theorem log (h : Logged i s r V B t) {l : LogBlock} (hl : Touched V B (indirect i t) l)
    (htrace : u.trace = .log_write l :: t.trace) (hind : indirect i u = indirect i t) :
    Logged i s r V B u := by
  obtain ⟨acts, htrace', hacts⟩ := h.trace
  refine ⟨⟨.log_write l :: acts, by rw [htrace, htrace', List.cons_append], fun b hb => ?_⟩,
    h.visited, by rw [hind]; exact h.bitmaps⟩
  rw [hind]
  rcases List.mem_cons.mp hb with heq | hmem
  · exact Act.log_write.inj heq ▸ hl
  · exact hacts b hmem

/-- A block is taken from the bitmap, for a round. -/
theorem alloc (h : Logged i s (r + 1) V B t) (b : ℕ) :
    Logged i s r (insert b V) (insert (b / BPB) B) (allocated t b) := by
  obtain ⟨acts, htrace, hacts⟩ := h.trace
  have hV := Finset.card_insert_le b V
  have hB := Finset.card_insert_le (b / BPB) B
  have hvisited := h.visited
  have hbitmaps := h.bitmaps
  refine ⟨⟨.log_write (.data b) :: .log_write (.bitmap (b / BPB)) :: acts, ?_, fun l hl => ?_⟩,
    by omega, ?_⟩
  · change _ :: _ :: t.trace = _
    rw [htrace]
    rfl
  · rcases List.mem_cons.mp hl with heq | hl
    · rw [Act.log_write.inj heq]
      exact .visited (Finset.mem_insert_self _ _)
    rcases List.mem_cons.mp hl with heq | hl
    · rw [Act.log_write.inj heq]
      exact .bitmap (Finset.mem_insert_self _ _)
    · exact (hacts l hl).mono (Finset.subset_insert _ _) (Finset.subset_insert _ _) fun _ => rfl
  · change _ ≤ if indirect i t = 0 then 3 else 4
    omega

/-- A block is taken from the bitmap, for the indirect block. -/
theorem alloc_indirect (h : Logged i s r V B t) (h0 : indirect i t = 0) (hb : b ≠ 0)
    (htrace : u.trace = (allocated t b).trace) (hind : indirect i u = b) :
    Logged i s r V (insert (b / BPB) B) u := by
  obtain ⟨acts, htrace', hacts⟩ := h.trace
  have hB := Finset.card_insert_le (b / BPB) B
  have hbitmaps := h.bitmaps
  rw [if_pos h0] at hbitmaps
  refine ⟨⟨.log_write (.data b) :: .log_write (.bitmap (b / BPB)) :: acts, ?_, fun l hl => ?_⟩,
    h.visited, ?_⟩
  · rw [htrace]
    change _ :: _ :: t.trace = _
    rw [htrace']
    rfl
  · rw [hind]
    rcases List.mem_cons.mp hl with heq | hl
    · rw [Act.log_write.inj heq]
      exact .indirect hb
    rcases List.mem_cons.mp hl with heq | hl
    · rw [Act.log_write.inj heq]
      exact .bitmap (Finset.mem_insert_self _ _)
    · exact (hacts l hl).mono (le_refl _) (Finset.subset_insert _ _) fun hne => absurd h0 hne
  · rw [hind, if_neg hb]
    omega

end Logged

/-- What `bmap` logs in a round: the address it returns is visited. -/
def Round (i : ℕ) (s : State) (r : ℕ) (addr : ℕ) (t : State) : Prop :=
  ∃ V B, Logged i s r V B t ∧ addr ∈ V

theorem Logged.round (h : Logged i s (r + 1) V B t) (a : ℕ) : Round i s r a t :=
  ⟨insert a V, B, h.visit a, Finset.mem_insert_self _ _⟩

theorem Logged.round_alloc (h : Logged i s (r + 1) V B t) (b : ℕ) :
    Round i s r b (allocated t b) :=
  ⟨insert b V, insert (b / BPB) B, h.alloc b, Finset.mem_insert_self _ _⟩

/-- A direct block. -/
theorem meets_loadAddr_logged (h : Logged i s (r + 1) V B t) (hj : j < NDIRECT) :
    Meets (loadAddr sb i j) t (Round i s r) Never := by
  rw [loadAddr, meets_bind, meets_copyOf]
  by_cases h0 : (t.inode i).copy.addrs j = 0
  · rw [if_pos h0, meets_bind]
    refine meets_balloc (fun _ => h.round 0) fun b _ _ => ?_
    by_cases hb : b = 0
    · rw [if_pos hb, meets_pure]
      exact hb ▸ h.round_alloc b
    · rw [if_neg hb, setCopy, setIp, meets_bind, meets_modify]
      obtain ⟨V', B', hlogged, hmem⟩ := h.round_alloc b
      refine ⟨V', B', hlogged.congr rfl ?_, hmem⟩
      rw [indirect, inode_setInode_self]
      exact Function.update_of_ne (Nat.ne_of_gt hj) ..
  · rw [if_neg h0, meets_pure]
    exact h.round _

/-- The indirect block. -/
theorem meets_loadAddr_indirect (h : Logged i s (r + 1) V B t) :
    Meets (loadAddr sb i NDIRECT) t (fun bp u =>
      bp = 0 ∧ Round i s r 0 u ∨ bp ≠ 0 ∧ bp = indirect i u ∧ ∃ V B, Logged i s (r + 1) V B u)
      Never := by
  rw [loadAddr, meets_bind, meets_copyOf]
  by_cases h0 : (t.inode i).copy.addrs NDIRECT = 0
  · rw [if_pos h0, meets_bind]
    refine meets_balloc (fun _ => .inl ⟨rfl, h.round 0⟩) fun b _ _ => ?_
    by_cases hb : b = 0
    · rw [if_pos hb, meets_pure]
      exact .inl ⟨rfl, hb ▸ h.round_alloc b⟩
    · rw [if_neg hb, setCopy, setIp, meets_bind, meets_modify]
      have hind : indirect i ((allocated t b).setInode i { (allocated t b).inode i with
          copy := { ((allocated t b).inode i).copy with
            addrs := Function.update ((allocated t b).inode i).copy.addrs NDIRECT b } }) = b := by
        rw [indirect, inode_setInode_self]
        dsimp only
        rw [Function.update_self]
      exact .inr ⟨hb, hind.symm, V, _, h.alloc_indirect h0 hb rfl hind⟩
  · rw [if_neg h0, meets_pure]
    exact .inr ⟨h0, rfl, V, B, h⟩

/-- **`bmap` takes at most one block for the round** from the bitmap, and one for the indirect block
if there was none. -/
theorem meets_bmap_logged (h : Logged i s (r + 1) V B t) (hbn : bn < MAXFILE) :
    Meets (bmap sb i bn) t (Round i s r) Never := by
  unfold bmap
  split_ifs with hdirect hindirect
  · exact meets_loadAddr_logged h hdirect
  · rw [meets_bind]
    refine (meets_loadAddr_indirect h).imp fun bp u hu => ?_
    rcases hu with ⟨hbp, hround⟩ | ⟨hbp, hind, V, B, hlogged⟩
    · rw [if_pos hbp, meets_pure]
      exact hround
    · rw [if_neg hbp, meets_bind, meets_get]
      by_cases h0 : entry (u.block bp) (bn - NDIRECT) = 0
      · rw [if_pos h0, meets_bind]
        refine meets_balloc (fun _ => hlogged.round 0) fun b _ _ => ?_
        obtain ⟨V', B', hlogged', hmem⟩ := hlogged.round_alloc b
        by_cases hb : b = 0
        · rw [if_neg (not_not.mpr hb)]
          exact ⟨V', B', hlogged', hmem⟩
        · rw [if_pos hb]
          refine ⟨V', B', hlogged'.log (l := .data bp) ?_ rfl rfl, hmem⟩
          rw [hind]
          exact .indirect (hind ▸ hbp)
      · rw [if_neg h0, meets_pure]
        exact hlogged.round _
  · rw [MAXFILE] at hbn
    omega

/-- One round, of which the block is known to be visited, and the rounds after it. -/
theorem meets_round {fuel : ℕ} {Q : ℕ → State → Prop} (hlt : tot < n)
    (hbmap : Meets (bmap sb i (off / BSIZE)) t (Round i s r) Never)
    (hstop : ∀ u V B, Logged i s r V B u → Q tot u)
    (hnext : ∀ u V B, Logged i s r V B u →
      Meets (writeiLoop sb i src limit n fuel (off + min (n - tot) (BSIZE - off % BSIZE))
        (tot + min (n - tot) (BSIZE - off % BSIZE))) u Q Never) :
    Meets (writeiLoop sb i src limit n (fuel + 1) off tot) t Q Never := by
  rw [writeiLoop, if_pos hlt, meets_bind]
  refine hbmap.imp fun addr u hu => ?_
  obtain ⟨V, B, hlogged, hmem⟩ := hu
  by_cases hz : addr = 0
  · rw [if_pos hz, meets_pure]
    exact hstop u V B hlogged
  · rw [if_neg hz]
    rw [meets_bind, meets_modify]
    split_ifs with hcopy
    · exact hstop _ V B (hlogged.congr rfl rfl)
    · rw [log_write, meets_bind, meets_bind, note, meets_modify, meets_modify]
      exact hnext _ V B (hlogged.log (l := .data addr) (.visited hmem) rfl rfl)

/-- **The rounds at the beginning of blocks.** -/
theorem meets_writeiLoop_logged {fuel : ℕ} (halign : n ≤ tot ∨ off % BSIZE = 0)
    (hrest : n - tot ≤ r * BSIZE) (hmax : off + (n - tot) ≤ MAXFILE * BSIZE)
    (h : Logged i s r V B t) :
    Meets (writeiLoop sb i src limit n fuel off tot) t (fun _ u => ∃ V B, Logged i s 0 V B u)
      Never := by
  induction fuel generalizing off tot r V B t with
  | zero =>
    exact ⟨V, B, h.mono (Nat.zero_le _)⟩
  | succ fuel ih =>
    by_cases hlt : tot < n
    · have h0 : off % BSIZE = 0 := by omega
      obtain ⟨r, rfl⟩ : ∃ r', r = r' + 1 := by
        refine Nat.exists_eq_succ_of_ne_zero ?_
        rintro rfl
        omega
      rw [Nat.succ_mul] at hrest
      refine meets_round hlt
        (meets_bmap_logged h (div_lt_MAXFILE (by omega)))
        (fun u V B hu => ⟨V, B, hu.mono (Nat.zero_le _)⟩) fun u V B hu => ?_
      rw [h0, Nat.sub_zero]
      refine ih ?_ (by omega) (by omega) hu
      rcases Nat.le_total (n - tot) BSIZE with hlast | hfull
      · exact .inl (by omega)
      · rw [Nat.min_eq_right hfull, Nat.add_mod_right]
        exact .inr h0
    · rw [writeiLoop, if_neg hlt, meets_pure]
      exact ⟨V, B, h.mono (Nat.zero_le _)⟩

/-- The inode and the blocks that are touched are ten at most. -/
theorem Logged.card_le (h : Logged i s 0 V B t) {k : ℕ} {acts : List Act}
    (hacts : ∀ b, .log_write b ∈ acts → b = .inodes k ∨ Touched V B (indirect i t) b) :
    (loggedBlocks acts).card ≤ MAXOPBLOCKS := by
  have hsub : loggedBlocks acts ⊆ {.inodes k, .data (indirect i t)} ∪
      (V.image LogBlock.data ∪ B.image LogBlock.bitmap) := by
    intro b hb
    simp only [Finset.mem_union, Finset.mem_insert, Finset.mem_singleton, Finset.mem_image]
    rcases hacts b (mem_loggedBlocks.mp hb) with rfl | htouched
    · exact .inl (.inl rfl)
    · cases htouched with
      | visited h => exact .inr (.inl ⟨_, h, rfl⟩)
      | bitmap h => exact .inr (.inr ⟨_, h, rfl⟩)
      | indirect h => exact .inl (.inr rfl)
  have hV : (V.image LogBlock.data).card ≤ 4 := Finset.card_image_le.trans h.visited
  have hB : (B.image LogBlock.bitmap).card ≤ 4 :=
    Finset.card_image_le.trans (h.bitmaps.trans (by split_ifs <;> omega))
  have hpair : ({.inodes k, .data (indirect i t)} : Finset LogBlock).card ≤ 2 :=
    Finset.card_le_two
  have h1 := Finset.card_le_card hsub
  have h2 := Finset.card_union_le ({.inodes k, .data (indirect i t)} : Finset LogBlock)
    (V.image LogBlock.data ∪ B.image LogBlock.bitmap)
  have h3 := Finset.card_union_le (V.image LogBlock.data) (B.image LogBlock.bitmap)
  rw [MAXOPBLOCKS]
  omega

/-- The rounds of a write that fits. -/
theorem meets_writeiLoop_reserved (hholes : NoHoles s.block (s.inode i).copy)
    (hoff : off ≤ (s.inode i).copy.size) (hn : n ≤ maxWrite) (hmax : off + n ≤ MAXFILE * BSIZE) :
    Meets (writeiLoop sb i src limit n n off 0) s (fun _ u => ∃ V B, Logged i s 0 V B u) Never := by
  have hwrite : maxWrite = 3 * BSIZE := by decide
  by_cases halign : off % BSIZE = 0
  · exact meets_writeiLoop_logged (.inr halign) (by omega) (by omega) (.start (le_refl 3))
  · -- the first block is not read from its beginning, so that there is one
    cases n with
    | zero =>
      exact ⟨∅, ∅, .start (Nat.zero_le _)⟩
    | succ n =>
      have hmod : off % BSIZE < BSIZE := Nat.mod_lt _ (by decide)
      have hdiv := Nat.div_add_mod off BSIZE
      have hbn : off / BSIZE < MAXFILE := div_lt_MAXFILE (by omega)
      have hpresent : addrOf s.block (s.inode i).copy (off / BSIZE) ≠ 0 := by
        refine hholes _ ?_
        rw [blocksOf, Nat.lt_div_iff_mul_lt (by decide), Nat.mul_comm]
        omega
      have hround : Round i s 3 (addrOf s.block (s.inode i).copy (off / BSIZE)) s := by
        refine ⟨{addrOf s.block (s.inode i).copy (off / BSIZE)}, ∅,
          ⟨⟨[], rfl, fun _ h => absurd h List.not_mem_nil⟩, by simp, ?_⟩,
          Finset.mem_singleton_self _⟩
        rw [Finset.card_empty]
        split_ifs <;> omega
      refine meets_round (Nat.succ_pos n) ((meets_bmap hbn hpresent).mpr hround)
        (fun u V B hu => ⟨V, B, hu.mono (Nat.zero_le _)⟩) fun u V B hu => ?_
      refine meets_writeiLoop_logged ?_ (by omega) (by omega) hu
      rcases Nat.le_total (n + 1) (BSIZE - off % BSIZE) with hlast | hfull
      · exact .inl (by omega)
      · have hend : off + (BSIZE - off % BSIZE) = BSIZE * (off / BSIZE + 1) := by
          rw [Nat.mul_succ]
          omega
        rw [Nat.sub_zero, Nat.min_eq_right hfull, hend, Nat.mul_mod_right]
        exact .inr rfl

/-- **A chunk of `filewrite` fits its log reservation,** whatever the numbers of the blocks are. -/
theorem write_reservation (hholes : NoHoles s.block (s.inode i).copy)
    (hoff : off ≤ (s.inode i).copy.size) (hn : n ≤ maxWrite) :
    Meets (writei sb i src limit off n) s (fun _ t => ∃ acts, t.trace = acts ++ s.trace ∧
      ∀ blockno : LogBlock → ℕ, ((loggedBlocks acts).image blockno).card ≤ MAXOPBLOCKS) Never := by
  rw [writei, meets_bind, meets_copyOf]
  dsimp only
  split_ifs with hbad hbig
  · exact ⟨[], rfl, fun _ => by simp [loggedBlocks]⟩
  · exact ⟨[], rfl, fun _ => by simp [loggedBlocks]⟩
  · rw [meets_bind]
    refine (meets_writeiLoop_reserved hholes hoff hn (Nat.le_of_not_lt hbig)).imp fun tot u hu => ?_
    obtain ⟨V, B, hlogged⟩ := hu
    obtain ⟨acts, htrace, hacts⟩ := hlogged.trace
    -- `iupdate` logs the block of the inode
    have hcount : ∀ (k : ℕ) (blockno : LogBlock → ℕ),
        ((loggedBlocks (.log_write (.inodes k) :: acts)).image blockno).card ≤ MAXOPBLOCKS := by
      intro k blockno
      refine Finset.card_image_le.trans (hlogged.card_le (k := k) fun b hb => ?_)
      rcases List.mem_cons.mp hb with heq | hmem
      · exact .inl (Act.log_write.inj heq)
      · exact .inr (hacts b hmem)
    split_ifs
    · exact ⟨_ :: acts, congrArg (List.cons _) htrace, hcount _⟩
    · exact ⟨_ :: acts, congrArg (List.cons _) htrace, hcount _⟩

/-- Bytes are added to a file that ends in a block. -/
theorem write_reservation_oneFile :
    Meets (writei ⟨60, 10, 3⟩ 0 (fun _ => 66) none 5 3000) oneFile (fun _ t =>
      ∃ acts, t.trace = acts ++ [] ∧
        ∀ blockno : LogBlock → ℕ, ((loggedBlocks acts).image blockno).card ≤ 10) Never :=
  write_reservation noHoles_oneFile (by decide) (by decide)

end Xv6.Fs
