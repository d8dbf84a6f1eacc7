import Mathlib.Algebra.BigOperators.Group.Finset.Basic
import Mathlib.Algebra.BigOperators.Group.Finset.Piecewise
import Mathlib.Algebra.Order.BigOperators.Group.Finset
import Mathlib.Data.List.GetD
import Xv6.FsFormat
import Xv6.Mkfs

/-!
# What `mkfs` writes

`Table` says how the sectors hold the content of files: slot after slot in the
order of allocation, each file in its own blocks, zeros after its end, and the
blocks from `freeblock` on still zero. It is stated for a table of inodes that
need not be the one on disk, since `iappend` works on its own copy. `Inv` is
`Table` for the inodes on disk, and what `mkfs` keeps from one call to the next.
-/

namespace Xv6.Mkfs

open Function List

open Prog Fs

/-! ## Inodes in sectors -/

/-- An inode that fits into a `struct dinode`. -/
structure Fits (d : Dinode) : Prop where
  size : d.size < 2 ^ 32
  addrs : ∀ j, d.addrs j < 2 ^ 32
  high : ∀ j, NDIRECT < j → d.addrs j = 0

theorem putAddrs_of_lt {m : Bytes} {a i : ℕ} {addrs : ℕ → ℕ} (h : i < a) :
    putAddrs m a addrs i = m i := if_neg (by omega)

theorem putAddrs_of_ge {m : Bytes} {a i : ℕ} {addrs : ℕ → ℕ} (h : a + 52 ≤ i) :
    putAddrs m a addrs i = m i := if_neg (by rw [NDIRECT]; omega)

theorem getLE_putAddrs {m : Bytes} {a j : ℕ} {addrs : ℕ → ℕ} (hj : j ≤ NDIRECT)
    (h : addrs j < 2 ^ 32) : getLE 4 (putAddrs m a addrs) (a + 4 * j) = addrs j := by
  rw [NDIRECT] at hj
  have hentry : getLE 4 (putAddrs m a addrs) (a + 4 * j) =
      getLE 4 (putLE 4 m (a + 4 * j) (addrs j)) (a + 4 * j) := by
    refine getLE_congr fun i hi hi' => ?_
    have hdiv : (i - a) / 4 = j := by omega
    rw [putAddrs, if_pos (by rw [NDIRECT]; omega), hdiv]
  rw [hentry, getLE_putLE _ _ (by simpa using h)]

/-- A write of an inode leaves the other bytes alone. -/
theorem putDinode_of_disjoint {m : Bytes} {a i : ℕ} {d : Dinode} (h : i < a ∨ a + 64 ≤ i) :
    putDinode m a d i = m i := by
  unfold putDinode
  rcases h with h | h
  · rw [putAddrs_of_lt (by omega), putLE_of_lt _ (by omega), putLE_of_lt _ (by omega),
      putLE_of_lt _ (by omega), putLE_of_lt _ (by omega), putLE_of_lt _ (by omega)]
  · rw [putAddrs_of_ge (by omega), putLE_of_ge _ (by omega), putLE_of_ge _ (by omega),
      putLE_of_ge _ (by omega), putLE_of_ge _ (by omega), putLE_of_ge _ (by omega)]

/-- An inode depends on its own bytes only. -/
theorem getDinode_congr {m m' : Bytes} {a : ℕ} (h : ∀ i, a ≤ i → i < a + 64 → m i = m' i) :
    getDinode m a = getDinode m' a := by
  have hle {w b : ℕ} (hb : a ≤ b) (hw : b + w ≤ a + 64) : getLE w m b = getLE w m' b :=
    getLE_congr fun i hi hi' => h i (by omega) (by omega)
  unfold getDinode
  dsimp only
  rw [hle (le_refl _) (by omega), hle (by omega) (by omega), hle (by omega) (by omega),
    hle (by omega) (by omega), hle (by omega) (by omega)]
  congr 1
  funext j
  congr 1
  refine map_congr_left fun j hj => hle (by omega) ?_
  rw [mem_range, NDIRECT] at hj
  omega

theorem typeOf_typeNum (t : InodeType) : typeOf (typeNum t) = t := by cases t <;> rfl

/-- The fields before the addresses, at `b`. -/
theorem getLE_putDinode {m : Bytes} {a w b : ℕ} {d : Dinode} (hw : b + w ≤ a + 12) :
    getLE w (putDinode m a d) b =
      getLE w (putLE 4 (putLE 2 (putLE 2 (putLE 2 (putLE 2 m a (typeNum d.type)) (a + 2)
        d.major.toNat) (a + 4) d.minor.toNat) (a + 6) d.nlink.toNat) (a + 8) d.size) b :=
  getLE_congr fun i hi hi' => putAddrs_of_lt (by omega)

/-- **An inode reads back.** -/
theorem getDinode_putDinode {m : Bytes} {a : ℕ} {d : Dinode} (h : Fits d) :
    getDinode (putDinode m a d) a = d := by
  have htype : typeNum d.type < 256 ^ 2 := by cases d.type <;> decide
  have h16 (x : BitVec 16) : x.toNat < 256 ^ 2 := x.isLt
  have haddrs (j : ℕ) : ((range (NDIRECT + 1)).map fun j =>
      getLE 4 (putDinode m a d) (a + 12 + 4 * j)).getD j 0 = d.addrs j := by
    rw [getD_eq_getElem?_getD, getElem?_map]
    rcases Nat.lt_or_ge NDIRECT j with hj | hj
    · rw [getElem?_eq_none (by rw [length_range]; omega), h.high j hj]
      rfl
    · rw [getElem?_range (by omega)]
      exact getLE_putAddrs hj (h.addrs j)
  have htype' : getLE 2 (putDinode m a d) a = typeNum d.type := by
    rw [getLE_putDinode (by omega)]
    iterate 4 rw [getLE_putLE_of_disjoint _ _ (by omega)]
    exact getLE_putLE _ _ htype
  have hmajor : getLE 2 (putDinode m a d) (a + 2) = d.major.toNat := by
    rw [getLE_putDinode (by omega)]
    iterate 3 rw [getLE_putLE_of_disjoint _ _ (by omega)]
    exact getLE_putLE _ _ (h16 _)
  have hminor : getLE 2 (putDinode m a d) (a + 4) = d.minor.toNat := by
    rw [getLE_putDinode (by omega)]
    iterate 2 rw [getLE_putLE_of_disjoint _ _ (by omega)]
    exact getLE_putLE _ _ (h16 _)
  have hnlink : getLE 2 (putDinode m a d) (a + 6) = d.nlink.toNat := by
    rw [getLE_putDinode (by omega), getLE_putLE_of_disjoint _ _ (by omega)]
    exact getLE_putLE _ _ (h16 _)
  have hsize : getLE 4 (putDinode m a d) (a + 8) = d.size := by
    rw [getLE_putDinode (by omega)]
    exact getLE_putLE _ _ (by simpa using h.size)
  unfold getDinode
  rw [htype', hmajor, hminor, hnlink, hsize, typeOf_typeNum]
  simp only [haddrs, BitVec.ofNat_toNat, BitVec.setWidth_eq]

/-- The number of inodes in the inode blocks. -/
def NI : ℕ := ninodeblocks * IPB

/-- The inodes on disk. -/
def dinodes (s : Image) (i : ℕ) : Dinode := getDinode (s.sector (IBLOCK i)) (i % IPB * 64)

/-- The image after `winode`. -/
def setDinode (s : Image) (inum : ℕ) (d : Dinode) : Image :=
  { s with
    sector := update s.sector (IBLOCK inum)
      (putDinode (s.sector (IBLOCK inum)) (inum % IPB * 64) d)
    len := max s.len (IBLOCK inum + 1) }

theorem iblock_lt {i : ℕ} (h : i < NI) : IBLOCK i < bmapstart := by
  simp only [NI, IBLOCK, bmapstart, inodestart, ninodeblocks, NINODES, IPB, BSIZE, nlog,
    LOGBLOCKS, MAXOPBLOCKS] at h ⊢
  omega

theorem dinodes_setDinode {s : Image} {inum i : ℕ} {d : Dinode} (hd : Fits d) :
    dinodes (setDinode s inum d) i = if i = inum then d else dinodes s i := by
  unfold dinodes setDinode
  dsimp only
  split_ifs with hi
  · subst hi
    rw [update_self, getDinode_putDinode hd]
  · by_cases hblock : IBLOCK i = IBLOCK inum
    · rw [hblock, update_self]
      refine getDinode_congr fun j hj hj' => putDinode_of_disjoint ?_
      have hmod : i % IPB ≠ inum % IPB := by
        intro hmod
        refine hi ?_
        rw [← Nat.div_add_mod i IPB, ← Nat.div_add_mod inum IPB, hmod,
          show i / IPB = inum / IPB from Nat.add_right_cancel hblock]
      omega
    · rw [update_of_ne hblock]

theorem sector_setDinode {s : Image} {inum b : ℕ} {d : Dinode} (hi : inum < NI)
    (hb : bmapstart ≤ b) : (setDinode s inum d).sector b = s.sector b :=
  update_of_ne (by have := iblock_lt hi; omega) ..

theorem meets_rsect {sec : ℕ} {s : Image} {Q : Bytes → Image → Prop} {E : String → Prop}
    (h : sec < s.len) : Meets (rsect sec) s Q E ↔ Q (s.sector sec) s := by
  simp only [rsect, meets_bind, meets_get, if_pos h, meets_pure]

theorem meets_rsect_of_le {sec : ℕ} {s : Image} {Q : Bytes → Image → Prop} {E : String → Prop}
    (h : s.len ≤ sec) : Meets (rsect sec) s Q E ↔ E "read" := by
  simp only [rsect, meets_bind, meets_get, if_neg (Nat.not_lt.mpr h), meets_panic]

theorem meets_winode {inum : ℕ} {d : Dinode} {s : Image} {Q : Unit → Image → Prop}
    {E : String → Prop} (h : IBLOCK inum < s.len) :
    Meets (winode inum d) s Q E ↔ Q () (setDinode s inum d) := by
  simp only [winode, meets_bind, meets_rsect h]
  rfl

theorem meets_rinode {inum : ℕ} {s : Image} {Q : Dinode → Image → Prop} {E : String → Prop}
    (h : IBLOCK inum < s.len) : Meets (rinode inum) s Q E ↔ Q (dinodes s inum) s := by
  simp only [rinode, meets_bind, meets_rsect h]
  rfl

theorem meets_assert {P : Prop} [Decidable P] {msg : String} {s : Image} {Q : Unit → Image → Prop}
    {E : String → Prop} :
    Meets (assert P msg) s Q E ↔ (P → Q () s) ∧ (¬P → E msg) := by
  by_cases hP : P <;> simp [assert, hP]

/-! ## Files in sectors -/

theorem getD_of_le {c : List UInt8} {pos : ℕ} (h : c.length ≤ pos) : c.getD pos 0 = 0 := by
  rw [getD_eq_getElem?_getD, getElem?_eq_none h]
  rfl

/-- How many slots a file of so many bytes has. -/
def slotsOf (size : ℕ) : ℕ := if blocksOf size ≤ NDIRECT then blocksOf size else blocksOf size + 1

/-- How the sectors hold the content of the files, with the inodes `D`: file `i` is inode `i + 1`
and has `K i` slots. -/
structure Table (s : Image) (D : ℕ → Dinode) (K : ℕ → ℕ) (A : List (List UInt8)) : Prop where
  len : s.len = FSSIZE
  inodes : A.length < NI
  freeblock : s.freeblock = nmeta + ∑ i ∈ Finset.range A.length, K i
  freeblock_le : s.freeblock ≤ FSSIZE
  fits : ∀ i < NI, Fits (D i)
  refs : Refs NI nmeta FSSIZE (· < s.freeblock) D s.sector
  slots : ∀ i < A.length, ∀ k < NSLOT, slot s.sector (D (i + 1)) k ≠ 0 ↔ k < K i
  none : ∀ i < NI, i = 0 ∨ A.length < i → ∀ j, (D i).addrs j = 0
  covered : ∀ i c, A[i]? = some c → ∀ pos < c.length, dataSlot (pos / BSIZE) < K i
  bytes : ∀ i c, A[i]? = some c → ∀ pos, dataSlot (pos / BSIZE) < K i →
    fileByte s.sector (D (i + 1)) pos = c.getD pos 0
  slots_le : ∀ i < A.length, K i ≤ NSLOT
  fresh : ∀ b, s.freeblock ≤ b → b < FSSIZE → s.sector b = fun _ => 0

namespace Table

variable {s s' : Image} {D D' : ℕ → Dinode} {K : ℕ → ℕ} {A : List (List UInt8)} {i k : ℕ}
  {c p : List UInt8}

theorem lt_NI (h : Table s D K A) (hi : i < A.length) : i + 1 < NI := by
  have := h.inodes
  omega

theorem slot_ne_zero (h : Table s D K A) (hi : i < A.length) (hk : k < K i) :
    slot s.sector (D (i + 1)) k ≠ 0 :=
  (h.slots i hi k (hk.trans_le (h.slots_le i hi))).mpr hk

theorem slot_eq_zero (h : Table s D K A) (hi : i < A.length) (hk : K i ≤ k) (hk' : k < NSLOT) :
    slot s.sector (D (i + 1)) k = 0 := by
  by_contra h0
  exact absurd ((h.slots i hi k hk').mp h0) (by omega)

/-- A block in a slot is one that has been allocated. -/
theorem slot_range (h : Table s D K A) (hi : i < A.length) (hk : k < K i) :
    nmeta ≤ slot s.sector (D (i + 1)) k ∧ slot s.sector (D (i + 1)) k < s.freeblock := by
  obtain ⟨hlo, -, hused⟩ := h.refs.range (i + 1) (h.lt_NI hi) k (hk.trans_le (h.slots_le i hi))
    (h.slot_ne_zero hi hk)
  exact ⟨hlo, hused⟩

theorem indirect_range (h : Table s D K A) {i : ℕ} (hi : i < NI)
    (h0 : (D i).addrs NDIRECT ≠ 0) :
    nmeta ≤ (D i).addrs NDIRECT ∧ (D i).addrs NDIRECT < s.freeblock := by
  have hslot : slot s.sector (D i) NDIRECT = (D i).addrs NDIRECT := slot_direct (le_refl _)
  obtain ⟨hlo, -, hused⟩ := h.refs.range i hi NDIRECT (by decide) (by rwa [hslot])
  exact ⟨hlo, hused⟩

/-- The sectors before the data area do not matter. -/
theorem congr (h : Table s D K A) (hsector : ∀ b, nmeta ≤ b → s'.sector b = s.sector b)
    (hlen : s'.len = s.len) (hfreeblock : s'.freeblock = s.freeblock) : Table s' D K A := by
  have hslot (i : ℕ) (hi : i < NI) (k : ℕ) : slot s'.sector (D i) k = slot s.sector (D i) k :=
    slot_congr (fun _ _ => rfl) (fun h0 => hsector _ (h.indirect_range hi h0).1) k
  refine ⟨hlen.trans h.len, h.inodes, hfreeblock.trans h.freeblock,
    by rw [hfreeblock]; exact h.freeblock_le, h.fits, ?_, fun i hi k hk => ?_, h.none, h.covered, fun i c hc pos hpos => ?_, h.slots_le,
    fun b hb hb' => ?_⟩
  · exact h.refs.congr (fun i hi k _ => hslot i hi k) fun b _ => by rw [hfreeblock]
  · rw [hslot _ (h.lt_NI hi)]
    exact h.slots i hi k hk
  · have hi : i < A.length := (List.getElem?_eq_some_iff.mp hc).1
    rw [← h.bytes i c hc pos hpos, fileByte, fileByte, addrOf, addrOf, hslot _ (h.lt_NI hi),
      hsector _ (h.slot_range hi hpos).1]
  · rw [hfreeblock] at hb
    have : nmeta ≤ s.freeblock := by rw [h.freeblock]; omega
    rw [hsector b (by omega), h.fresh b hb hb']

/-- **A new block** is put into the next slot of a file. -/
theorem alloc (h : Table s D K A) (hi : i < A.length) (hk : K i < NSLOT)
    (hfb : s.freeblock < FSSIZE) {sector : ℕ → Bytes}
    (hslot : ∀ i' < NI, ∀ k < NSLOT, slot sector (D' i') k =
      if i' = i + 1 ∧ k = K i then s.freeblock else slot s.sector (D i') k)
    (hfits : ∀ i < NI, Fits (D' i)) (hother : ∀ i' ≠ i + 1, D' i' = D i')
    (hsector : ∀ b, b ≠ 0 → b ≠ (D (i + 1)).addrs NDIRECT → sector b = s.sector b) :
    Table { s with sector := sector, freeblock := s.freeblock + 1 } D'
      (update K i (K i + 1)) A := by
  have hslot' {i' k : ℕ} (hi' : i' < A.length) (hk : k < K i') :
      slot sector (D' (i' + 1)) k = slot s.sector (D (i' + 1)) k := by
    rw [hslot _ (h.lt_NI hi') k (hk.trans_le (h.slots_le i' hi')), if_neg]
    rintro ⟨heq, rfl⟩
    obtain rfl : i' = i := by omega
    omega
  -- a data block has not been changed
  have hdata {i' k : ℕ} (hi' : i' < A.length) (hk : k < K i') (hne : k ≠ NDIRECT) :
      sector (slot s.sector (D (i' + 1)) k) = s.sector (slot s.sector (D (i' + 1)) k) :=
    hsector _ (h.slot_ne_zero hi' hk) (Ne.symm (h.refs.data_ne (h.lt_NI hi')
      (hk.trans_le (h.slots_le i' hi')) hne (h.slot_ne_zero hi' hk) (h.lt_NI hi)))
  have hfresh (b : ℕ) (hb : s.freeblock ≤ b) (hb' : b < FSSIZE) : sector b = fun _ => 0 := by
    have hpos : nmeta ≤ s.freeblock := by rw [h.freeblock]; omega
    have hmeta := h.refs.pos
    rw [hsector b (by omega), h.fresh b hb hb']
    intro heq
    have := (h.indirect_range (h.lt_NI hi) (by omega)).2
    omega
  refine ⟨h.len, h.inodes, ?_, hfb, hfits, ?_, fun i' hi' k hk' => ?_, fun i' hi' hi'' j => ?_,
    fun i' c hc pos hpos => ?_, fun i' c hc pos hpos => ?_, fun i' hi' => ?_, fun b hb hb' => ?_⟩
  · dsimp only
    rw [h.freeblock, Finset.sum_update_of_mem (Finset.mem_range.mpr hi),
      ← Finset.add_sum_erase _ _ (Finset.mem_range.mpr hi), Finset.sdiff_singleton_eq_erase]
    omega
  · refine h.refs.alloc (h.lt_NI hi) hk (h.slot_eq_zero hi (le_refl _) hk) ?_ hfb (lt_irrefl _) hslot
      fun b => ?_
    · rw [h.freeblock]
      omega
    · dsimp only
      omega
  · rw [hslot _ (h.lt_NI hi') k hk']
    by_cases hii : i' = i
    · subst hii
      rw [update_self]
      by_cases hkk : k = K i'
      · have hmeta := h.refs.pos
        have hpos : nmeta ≤ s.freeblock := by rw [h.freeblock]; omega
        rw [if_pos ⟨rfl, hkk⟩]
        omega
      · rw [if_neg (fun hboth => hkk hboth.2), h.slots i' hi' k hk']
        omega
    · rw [update_of_ne hii, if_neg (fun hboth => hii (by omega)), h.slots i' hi' k hk']
  · rw [hother i' (by omega)]
    exact h.none i' hi' hi'' j
  · have := h.covered i' c hc pos hpos
    by_cases hii : i' = i
    · subst hii
      rw [update_self]
      omega
    · rwa [update_of_ne hii]
  · have hi' : i' < A.length := (List.getElem?_eq_some_iff.mp hc).1
    have hold (hlt : dataSlot (pos / BSIZE) < K i') :
        fileByte sector (D' (i' + 1)) pos = c.getD pos 0 := by
      rw [← h.bytes i' c hc pos hlt, fileByte, fileByte, addrOf, addrOf, hslot' hi' hlt,
        hdata hi' hlt (dataSlot_ne _)]
    by_cases hii : i' = i
    · subst hii
      rw [update_self] at hpos
      by_cases heq : dataSlot (pos / BSIZE) = K i'
      · -- the new block is zero, and after the end of the file
        have hend : c.length ≤ pos := by
          by_contra! hlt
          have := h.covered i' c hc pos hlt
          omega
        rw [getD_of_le hend]
        dsimp only
        rw [fileByte, addrOf, hslot _ (h.lt_NI hi') _ (by omega), if_pos ⟨rfl, heq⟩,
          hfresh _ (le_refl _) hfb]
      · exact hold (by omega)
    · rw [update_of_ne hii] at hpos
      exact hold hpos
  · by_cases hii : i' = i
    · subst hii
      rw [update_self]
      omega
    · rw [update_of_ne hii]
      exact h.slots_le i' hi'
  · exact hfresh b (by dsimp only at hb; omega) hb'

theorem Fits.setAddr {d : Dinode} (h : Fits d) {j b : ℕ} (hj : j ≤ NDIRECT) (hb : b < 2 ^ 32) :
    Fits { d with addrs := update d.addrs j b } where
  size := h.size
  addrs j' := by
    dsimp only
    rw [update_apply]
    split_ifs
    · exact hb
    · exact h.addrs j'
  high j' hj' := by
    dsimp only
    rw [update_of_ne (by omega)]
    exact h.high j' hj'

/-- The next slot is an address of the inode. -/
theorem allocAddr (h : Table s D K A) (hi : i < A.length) (hk : K i ≤ NDIRECT)
    (hfb : s.freeblock < FSSIZE) :
    Table { s with freeblock := s.freeblock + 1 }
      (update D (i + 1)
        { D (i + 1) with addrs := update (D (i + 1)).addrs (K i) s.freeblock })
      (update K i (K i + 1)) A := by
  have hnslot : K i < NSLOT := hk.trans_lt (by decide)
  have hslot (k : ℕ) : slot s.sector
      { D (i + 1) with addrs := update (D (i + 1)).addrs (K i) s.freeblock } k =
      if k = K i then s.freeblock else slot s.sector (D (i + 1)) k := by
    rcases Nat.lt_or_ge (K i) NDIRECT with hlt | hge
    · exact slot_setDirect hlt k
    · have heq : K i = NDIRECT := le_antisymm hk hge
      have hzero := h.slot_eq_zero hi (le_refl _) hnslot
      rw [heq, slot_direct (le_refl _)] at hzero
      rw [heq]
      exact slot_setIndirect hzero (h.fresh _ (le_refl _) hfb) k
  refine h.alloc hi hnslot hfb (fun i' hi' k hk' => ?_) (fun i' hi' => ?_)
    (fun i' hne => update_of_ne hne ..) fun _ _ _ => rfl
  · by_cases hii : i' = i + 1
    · rw [hii, update_self, hslot]
      simp
    · rw [update_of_ne hii, if_neg (fun hboth => hii hboth.1)]
  · by_cases hii : i' = i + 1
    · rw [hii, update_self]
      refine Fits.setAddr (h.fits _ (h.lt_NI hi)) hk (hfb.trans ?_)
      decide
    · rw [update_of_ne hii]
      exact h.fits i' hi'

/-- The next slot is an entry of the indirect block. -/
theorem allocEntry (h : Table s D K A) (hi : i < A.length) {j : ℕ} (hk : K i = NDIRECT + 1 + j)
    (hj : j < NINDIRECT) (hfb : s.freeblock < FSSIZE) :
    Table { s with
        sector := update s.sector ((D (i + 1)).addrs NDIRECT)
          (putLE 4 (s.sector ((D (i + 1)).addrs NDIRECT)) (4 * j) s.freeblock)
        freeblock := s.freeblock + 1 }
      D (update K i (K i + 1)) A := by
  have hind : (D (i + 1)).addrs NDIRECT ≠ 0 := by
    have := h.slot_ne_zero hi (k := NDIRECT) (by omega)
    rwa [slot_direct (le_refl _)] at this
  refine h.alloc hi (by rw [hk, NSLOT]; omega) hfb (fun i' hi' k hk' => ?_) h.fits
    (fun _ _ => rfl) fun b _ hb => update_of_ne hb ..
  by_cases hii : i' = i + 1
  · rw [hii, slot_setEntry hind (hfb.trans (by decide)), hk]
    simp
  · rw [slot_write fun h0 => h.refs.indirect_ne (h.lt_NI hi) hi' hii h0,
      if_neg (fun hboth => hii hboth.1)]

/-- **Bytes are added** to the last block of a file. -/
theorem write (h : Table s D K A) (hc : A[i]? = some c)
    (hslot : dataSlot (c.length / BSIZE) < K i) (hp : c.length % BSIZE + p.length ≤ BSIZE) :
    Table { s with
        sector := update s.sector (addrOf s.sector (D (i + 1)) (c.length / BSIZE))
          (putBytes (s.sector (addrOf s.sector (D (i + 1)) (c.length / BSIZE)))
            (c.length % BSIZE) p) }
      D K (A.set i (c ++ p)) := by
  have hi : i < A.length := (List.getElem?_eq_some_iff.mp hc).1
  set x := addrOf s.sector (D (i + 1)) (c.length / BSIZE) with hx
  have hx0 : x ≠ 0 := h.slot_ne_zero hi hslot
  have hns : dataSlot (c.length / BSIZE) < NSLOT := hslot.trans_le (h.slots_le i hi)
  have hslots (i' : ℕ) (hi' : i' < NI) (k : ℕ) :
      slot (update s.sector x (putBytes (s.sector x) (c.length % BSIZE) p)) (D i') k =
        slot s.sector (D i') k :=
    slot_write (fun _ => h.refs.data_ne (h.lt_NI hi) hns (dataSlot_ne _) hx0 hi') k
  -- another block of a file is not this one
  have hother {i' bn : ℕ} (hi' : i' < A.length) (hbn : dataSlot bn < K i')
      (hne : i' ≠ i ∨ bn ≠ c.length / BSIZE) : addrOf s.sector (D (i' + 1)) bn ≠ x := by
    intro heq
    obtain ⟨h1, h2⟩ := h.refs.once (i' + 1) (h.lt_NI hi') (dataSlot bn)
      (hbn.trans_le (h.slots_le i' hi')) (i + 1) (h.lt_NI hi) _ hns (h.slot_ne_zero hi' hbn) heq
    rcases hne with hne | hne
    · omega
    · exact hne (dataSlot_inj h2)
  have hget {i' : ℕ} {c' : List UInt8} (hc' : (A.set i (c ++ p))[i']? = some c') :
      i' < A.length ∧ (i' = i ∧ c' = c ++ p ∨ i' ≠ i ∧ A[i']? = some c') := by
    rw [List.getElem?_set] at hc'
    split_ifs at hc' with hii
    · exact ⟨hii ▸ hi, .inl ⟨hii.symm, (Option.some.inj hc').symm⟩⟩
    · exact ⟨(List.getElem?_eq_some_iff.mp hc').1, .inr ⟨Ne.symm hii, hc'⟩⟩
  refine ⟨h.len, ?_, ?_, h.freeblock_le, h.fits, ?_, ?_, ?_, ?_, ?_, ?_, ?_⟩
  · rw [List.length_set]
    exact h.inodes
  · rw [List.length_set]
    exact h.freeblock
  · exact h.refs.congr (fun i' hi' k _ => hslots i' hi' k) fun _ _ => Iff.rfl
  · intro i' hi' k hk
    rw [List.length_set] at hi'
    rw [hslots _ (h.lt_NI hi')]
    exact h.slots i' hi' k hk
  · rw [List.length_set]
    exact h.none
  · intro i' c' hc' pos hpos
    rcases (hget hc').2 with ⟨rfl, rfl⟩ | ⟨-, hc''⟩
    · rcases Nat.lt_or_ge pos c.length with hlt | hge
      · exact h.covered i' c hc pos hlt
      · rw [length_append] at hpos
        have hdiv : pos / BSIZE = c.length / BSIZE := by
          have h1 := Nat.div_add_mod c.length BSIZE
          refine Nat.div_eq_of_lt_le ?_ ?_
          · rw [Nat.mul_comm]
            omega
          · rw [Nat.mul_comm, Nat.mul_add]
            omega
        rwa [hdiv]
    · exact h.covered i' c' hc'' pos hpos
  · intro i' c' hc' pos hpos
    obtain ⟨hi', hcases⟩ := hget hc'
    rw [fileByte, addrOf, hslots _ (h.lt_NI hi')]
    change update s.sector x _ (addrOf s.sector (D (i' + 1)) (pos / BSIZE)) _ = _
    rcases hcases with ⟨rfl, rfl⟩ | ⟨hne, hc''⟩
    · have hold := h.bytes i' c hc pos hpos
      by_cases hbn : pos / BSIZE = c.length / BSIZE
      · have h1 := Nat.div_add_mod c.length BSIZE
        have h2 := Nat.div_add_mod pos BSIZE
        rw [hbn] at h2
        rw [fileByte, hbn, ← hx] at hold
        rw [hbn, ← hx, update_self, putBytes]
        split_ifs with hin
        · rw [getD_append_right _ _ _ _ (by omega)]
          congr 1
          omega
        · rw [hold]
          rcases Nat.lt_or_ge pos c.length with hlt | hge
          · rw [getD_append _ _ _ _ hlt]
          · rw [getD_of_le hge, getD_of_le (by rw [length_append]; omega)]
      · rw [update_of_ne (hother hi' hpos (.inr hbn))]
        refine hold.trans ?_
        rcases Nat.lt_or_ge pos c.length with hlt | hge
        · rw [getD_append _ _ _ _ hlt]
        · have hlt : c.length / BSIZE < pos / BSIZE :=
            lt_of_le_of_ne (Nat.div_le_div_right hge) (Ne.symm hbn)
          have h1 := Nat.div_add_mod c.length BSIZE
          have h2 := Nat.div_add_mod pos BSIZE
          have h3 : BSIZE * (c.length / BSIZE + 1) ≤ BSIZE * (pos / BSIZE) :=
            Nat.mul_le_mul_left _ hlt
          rw [getD_of_le hge, getD_of_le]
          rw [length_append]
          rw [Nat.mul_add] at h3
          omega
    · rw [update_of_ne (hother hi' hpos (.inl hne))]
      exact h.bytes i' c' hc'' pos hpos
  · intro i' hi'
    rw [List.length_set] at hi'
    exact h.slots_le i' hi'
  · intro b hb hb'
    have hlt : x < b := (h.slot_range hi hslot).2.trans_le hb
    exact (update_of_ne hlt.ne' ..).trans (h.fresh b hb hb')

end Table

/-! ## Appending -/

/-- What appending leaves alone: the sectors before the data area, and the number of inodes. -/
structure Frame (s s' : Image) : Prop where
  freeinode : s'.freeinode = s.freeinode
  sector : ∀ b < nmeta, s'.sector b = s.sector b

theorem Frame.refl (s : Image) : Frame s s := ⟨rfl, fun _ _ => rfl⟩

theorem Frame.trans {s s' s'' : Image} (h : Frame s s') (h' : Frame s' s'') : Frame s s'' :=
  ⟨h'.freeinode.trans h.freeinode, fun b hb => (h'.sector b hb).trans (h.sector b hb)⟩

/-- The inode is the same but for its addresses. -/
def SameHead (d d' : Dinode) : Prop := ∃ addrs, d' = { d with addrs := addrs }

theorem blocksOf_succ (n : ℕ) : blocksOf (n + 1) = n / BSIZE + 1 := by
  rw [blocksOf, BSIZE]
  omega

theorem slotsOf_succ (n : ℕ) : slotsOf (n + 1) = dataSlot (n / BSIZE) + 1 := by
  rw [slotsOf, blocksOf_succ, dataSlot]
  split_ifs <;> omega

theorem slotsOf_mono {m n : ℕ} (h : m ≤ n) : slotsOf m ≤ slotsOf n := by
  have hb : blocksOf m ≤ blocksOf n := Nat.div_le_div_right (by omega)
  unfold slotsOf
  split_ifs <;> omega

/-- The last block of a file is full, or there. -/
theorem slotsOf_cases (n : ℕ) : slotsOf n = slotsOf (n + 1) ∨
    slotsOf n = (if n / BSIZE ≤ NDIRECT then n / BSIZE else n / BSIZE + 1) := by
  by_cases hn : n % BSIZE = 0
  · refine .inr ?_
    have : blocksOf n = n / BSIZE := by
      rw [blocksOf, BSIZE]
      rw [BSIZE] at hn
      omega
    rw [slotsOf, this]
  · refine .inl ?_
    have : blocksOf n = blocksOf (n + 1) := by
      rw [blocksOf, blocksOf, BSIZE]
      rw [BSIZE] at hn
      omega
    rw [slotsOf, slotsOf, this]

section

variable {s s' : Image} {D : ℕ → Dinode} {K : ℕ → ℕ} {A : List (List UInt8)} {i j : ℕ}
  {c : List UInt8}

theorem meets_newblock {Q : ℕ → Image → Prop} {E : String → Prop} :
    Meets newblock s Q E ↔ Q s.freeblock { s with freeblock := s.freeblock + 1 } := Iff.rfl

theorem meets_dinAddr_of_ne {din : Dinode} {Q : ℕ × Dinode → Image → Prop} {E : String → Prop}
    (h : din.addrs j ≠ 0) : Meets (dinAddr din j) s Q E ↔ Q (din.addrs j, din) s := by
  rw [dinAddr, if_neg h, meets_pure]

theorem meets_dinAddr_of_eq {din : Dinode} {Q : ℕ × Dinode → Image → Prop} {E : String → Prop}
    (h : din.addrs j = 0) : Meets (dinAddr din j) s Q E ↔
      Q (s.freeblock, { din with addrs := update din.addrs j s.freeblock })
        { s with freeblock := s.freeblock + 1 } := by
  rw [dinAddr, if_pos h]
  rfl

theorem meets_indirectBlock_of_ne {ind : ℕ} {Q : ℕ → Image → Prop} {E : String → Prop}
    (hind : ind < s.len) (h : entry (s.sector ind) j ≠ 0) :
    Meets (indirectBlock ind j) s Q E ↔ Q (entry (s.sector ind) j) s := by
  rw [indirectBlock, meets_bind, meets_rsect hind, if_neg h, meets_pure]

theorem meets_indirectBlock_of_eq {ind : ℕ} {Q : ℕ → Image → Prop} {E : String → Prop}
    (hind : ind < s.len) (h : entry (s.sector ind) j = 0) :
    Meets (indirectBlock ind j) s Q E ↔ Q s.freeblock { s with
      sector := update s.sector ind (putLE 4 (s.sector ind) (4 * j) s.freeblock)
      freeblock := s.freeblock + 1 } := by
  have hlen : max s.len (ind + 1) = s.len := by omega
  rw [indirectBlock, meets_bind, meets_rsect hind, if_pos h, meets_bind, meets_newblock,
    meets_bind, wsect, meets_modify]
  simp only [meets_pure, hlen]

/-- What `fileBlock` gives: a block of the file, or one that the image does not have. -/
def Block (s : Image) (D : ℕ → Dinode) (K : ℕ → ℕ) (A : List (List UInt8)) (i : ℕ)
    (c : List UInt8) (r : ℕ × Dinode) (s' : Image) : Prop :=
  (Table s' (update D (i + 1) r.2) (update K i (slotsOf (c.length + 1))) A ∧
    r.1 = addrOf s'.sector r.2 (c.length / BSIZE) ∧ SameHead (D (i + 1)) r.2 ∧ Frame s s') ∨
  (s'.len ≤ r.1 ∧ FSSIZE < s.freeblock + (slotsOf (c.length + 1) - K i))

/-- An entry of the indirect block: `K i` slots are there, the last of them the one before it or
itself. -/
theorem indirectBlock_spec (h : Table s D K A) (hi : i < A.length) (hj : j < NINDIRECT)
    (hK : K i = NDIRECT + 1 + j ∨ K i = NDIRECT + 1 + j + 1) :
    Meets (indirectBlock ((D (i + 1)).addrs NDIRECT) j) s (fun x s' =>
      (Table s' D (update K i (NDIRECT + 1 + j + 1)) A ∧
        x = slot s'.sector (D (i + 1)) (NDIRECT + 1 + j) ∧ Frame s s') ∨
      (s'.len ≤ x ∧ FSSIZE < s.freeblock + (NDIRECT + 1 + j + 1 - K i))) Never := by
  have hind : (D (i + 1)).addrs NDIRECT ≠ 0 := by
    have := h.slot_ne_zero hi (k := NDIRECT) (by omega)
    rwa [slot_direct (le_refl _)] at this
  obtain ⟨hlo, hlt⟩ := h.indirect_range (h.lt_NI hi) hind
  have hlen : (D (i + 1)).addrs NDIRECT < s.len := by
    rw [h.len]
    exact hlt.trans_le h.freeblock_le
  have hslot : slot s.sector (D (i + 1)) (NDIRECT + 1 + j) = _ := slot_entry hind
  rcases hK with hK | hK
  · have hzero := h.slot_eq_zero hi (k := NDIRECT + 1 + j) (by omega) (by rw [NSLOT]; omega)
    rw [meets_indirectBlock_of_eq hlen (hslot ▸ hzero)]
    rcases Nat.lt_or_ge s.freeblock FSSIZE with hfb | hfb
    · have htable := h.allocEntry hi hK hj hfb
      rw [hK] at htable
      refine .inl ⟨htable, ?_, rfl, fun b hb => update_of_ne (by omega) ..⟩
      rw [slot_setEntry hind (hfb.trans (by decide)), if_pos rfl]
    · refine .inr ⟨?_, by omega⟩
      rw [← h.len] at hfb
      exact hfb
  · rw [meets_indirectBlock_of_ne hlen (hslot ▸ h.slot_ne_zero hi (by omega))]
    refine .inl ⟨?_, hslot.symm, Frame.refl s⟩
    rwa [← hK, update_eq_self]

/-- **The block for the next byte** of a file. -/
theorem fileBlock_spec (h : Table s D K A) (hc : A[i]? = some c) (hK : K i = slotsOf c.length)
    (hfbn : c.length / BSIZE < MAXFILE) :
    Meets (fileBlock (D (i + 1)) (c.length / BSIZE)) s (Block s D K A i c)
      fun _ => FSSIZE < s.freeblock + (slotsOf (c.length + 1) - K i) := by
  have hi : i < A.length := (List.getElem?_eq_some_iff.mp hc).1
  have hsucc := slotsOf_succ c.length
  set fbn := c.length / BSIZE with hfbn'
  have hcases := slotsOf_cases c.length
  rw [← hK, hsucc, ← hfbn'] at hcases
  rw [fileBlock]
  split_ifs with hdir
  · -- an address of the inode
    have hds : dataSlot fbn = fbn := if_pos hdir
    rw [hds, if_pos (by omega)] at hcases
    rcases hcases with hcase | hcase
    · have hne : (D (i + 1)).addrs fbn ≠ 0 := by
        have := h.slot_ne_zero hi (k := fbn) (by omega)
        rwa [slot_direct (by omega)] at this
      rw [meets_dinAddr_of_ne hne]
      refine .inl ⟨?_, ?_, ⟨_, rfl⟩, Frame.refl s⟩
      · rwa [update_eq_self, hsucc, hds, ← hcase, update_eq_self]
      · rw [addrOf, hds, slot_direct (by omega)]
    · have hzero := h.slot_eq_zero hi (k := fbn) (by omega) (by rw [NSLOT]; omega)
      rw [slot_direct (by omega)] at hzero
      rw [meets_dinAddr_of_eq hzero]
      rcases Nat.lt_or_ge s.freeblock FSSIZE with hfb | hfb
      · have htable := h.allocAddr hi (by omega) hfb
        rw [hcase] at htable
        refine .inl ⟨?_, ?_, ⟨_, rfl⟩, rfl, fun _ _ => rfl⟩
        · rwa [hsucc, hds]
        · rw [addrOf, hds]
          dsimp only
          rw [slot_setDirect hdir, if_pos rfl]
      · refine .inr ⟨?_, by omega⟩
        rw [← h.len] at hfb
        exact hfb
  · -- an entry of the indirect block
    have hds : dataSlot fbn = NDIRECT + 1 + (fbn - NDIRECT) := by
      rw [dataSlot, if_neg hdir]
      omega
    have hj : fbn - NDIRECT < NINDIRECT := by
      rw [MAXFILE] at hfbn
      omega
    rw [meets_bind]
    by_cases hind : (D (i + 1)).addrs NDIRECT = 0
    · -- there is no indirect block
      have hKi : K i = NDIRECT ∧ fbn = NDIRECT := by
        have hle : K i ≤ NDIRECT := by
          by_contra! hlt
          have := h.slot_ne_zero hi hlt
          exact this hind
        split_ifs at hcases <;> omega
      rw [meets_dinAddr_of_eq hind]
      rw [meets_bind]
      rcases Nat.lt_or_ge s.freeblock FSSIZE with hfb | hfb
      · have htable := h.allocAddr hi (by omega) hfb
        rw [hKi.1] at htable
        have hspec := indirectBlock_spec htable hi hj (.inl (by rw [update_self]; omega))
        rw [update_self, update_self, update_idem] at hspec
        dsimp only at hspec
        refine (hspec.imp ?_).never
        rintro x s' (⟨htable', hx, hframe⟩ | ⟨hlen, hfull⟩)
        · refine .inl ⟨?_, ?_, ⟨_, rfl⟩, ?_⟩
          · rwa [hsucc, hds]
          · rw [addrOf, hds]
            exact hx
          · exact ⟨hframe.freeinode, hframe.sector⟩
        · refine .inr ⟨hlen, ?_⟩
          omega
      · refine (meets_bind.mpr ?_ : Meets (indirectBlock _ _) _ _ _)
        rw [meets_rsect_of_le (by rw [← h.len] at hfb; exact hfb)]
        omega
    · -- the indirect block is there
      have hlt : NDIRECT < K i := by
        by_contra! hle
        have := h.slot_eq_zero hi hle (by decide)
        exact hind this
      rw [meets_dinAddr_of_ne hind]
      rw [meets_bind]
      have hspec := indirectBlock_spec h hi hj (by split_ifs at hcases <;> omega)
      refine (hspec.imp ?_).never
      rintro x s' (⟨htable', hx, hframe⟩ | ⟨hlen, hfull⟩)
      · refine .inl ⟨?_, ?_, ⟨_, rfl⟩, hframe⟩
        · rwa [update_eq_self, hsucc, hds]
        · rw [addrOf, hds]
          exact hx
      · refine .inr ⟨hlen, ?_⟩
        omega

theorem sum_update (K : ℕ → ℕ) {n k : ℕ} (hi : i < n) :
    (∑ j ∈ Finset.range n, update K i k j) + K i = (∑ j ∈ Finset.range n, K j) + k := by
  rw [Finset.sum_update_of_mem (Finset.mem_range.mpr hi),
    ← Finset.add_sum_erase _ K (Finset.mem_range.mpr hi), Finset.sdiff_singleton_eq_erase]
  omega

/-- How many blocks have been allocated in between. -/
theorem Table.freeblock_eq (h : Table s D K A) {D' : ℕ → Dinode} {A' : List (List UInt8)} {k : ℕ}
    (h' : Table s' D' (update K i k) A') (hlen : A'.length = A.length)
    (hi : i < A.length) : s'.freeblock + K i = s.freeblock + k := by
  have hsum := sum_update K (k := k) hi
  rw [h.freeblock, h'.freeblock, hlen]
  omega

/-- A round does not leave the last block. -/
theorem slotsOf_round {n m : ℕ} (hm : 0 < m) (hle : n % BSIZE + m ≤ BSIZE) :
    slotsOf (n + m) = slotsOf (n + 1) := by
  have : blocksOf (n + m) = blocksOf (n + 1) := by
    rw [blocksOf, blocksOf]
    rw [BSIZE] at hle ⊢
    omega
  rw [slotsOf, slotsOf, this]

theorem set_of_getElem? {α : Type} {l : List α} {a : α} (ha : l[i]? = some a) : l.set i a = l := by
  obtain ⟨hi, rfl⟩ := List.getElem?_eq_some_iff.mp ha
  exact List.set_getElem_self hi

/-- **The loop of `iappend`.** -/
theorem iappendLoop_spec {fuel : ℕ} {p : List UInt8} (hfuel : p.length ≤ fuel) (h : Table s D K A)
    (hc : A[i]? = some c) (hK : K i = slotsOf c.length) :
    Meets (iappendLoop fuel (D (i + 1)) c.length p) s
      (fun r s' => r.2 = (c ++ p).length ∧ SameHead (D (i + 1)) r.1 ∧ Frame s s' ∧
        Table s' (update D (i + 1) r.1) (update K i (slotsOf (c ++ p).length))
          (A.set i (c ++ p)))
      fun _ => FSSIZE < s.freeblock + (slotsOf (c ++ p).length - slotsOf c.length) ∨
        MAXFILE * BSIZE < (c ++ p).length := by
  have hi : i < A.length := (List.getElem?_eq_some_iff.mp hc).1
  induction fuel generalizing s D K A c p with
  | zero =>
    obtain rfl : p = [] := length_eq_zero_iff.mp (by omega)
    rw [append_nil]
    refine ⟨rfl, ⟨_, rfl⟩, Frame.refl s, ?_⟩
    rwa [update_eq_self, ← hK, update_eq_self, set_of_getElem? hc]
  | succ fuel ih =>
    rw [iappendLoop]
    split_ifs with hp
    · subst hp
      rw [append_nil]
      refine ⟨rfl, ⟨_, rfl⟩, Frame.refl s, ?_⟩
      rwa [update_eq_self, ← hK, update_eq_self, set_of_getElem? hc]
    · have hpos : 0 < p.length := length_pos_of_ne_nil hp
      have happ : (c ++ p).length = c.length + p.length := length_append
      have hdiv := Nat.div_add_mod c.length BSIZE
      have hmod : c.length % BSIZE < BSIZE := Nat.mod_lt _ (by decide)
      have hmono : slotsOf (c.length + 1) ≤ slotsOf (c ++ p).length := slotsOf_mono (by omega)
      rw [meets_bind, meets_assert]
      refine ⟨fun hfbn => ?_, fun hfbn => .inr ?_⟩
      · rw [meets_bind]
        refine (fileBlock_spec h hc hK hfbn).mono ?_ fun _ hfull => .inl (by omega)
        rintro ⟨x, din⟩ s₁ (⟨ht, hx, ⟨addrs, hhead⟩, hframe⟩ | ⟨hlen, hfull⟩)
        · -- the block is there: write to it, and go on
          dsimp only at ht hx hhead
          set n1 := min p.length ((c.length / BSIZE + 1) * BSIZE - c.length)
          have hroom : (c.length / BSIZE + 1) * BSIZE - c.length = BSIZE - c.length % BSIZE := by
            rw [Nat.add_mul, Nat.mul_comm (c.length / BSIZE)]
            omega
          have hoff : c.length - c.length / BSIZE * BSIZE = c.length % BSIZE := by
            rw [Nat.mul_comm]
            omega
          have hn1pos : 0 < n1 := by omega
          have hn1le : c.length % BSIZE + n1 ≤ BSIZE := by omega
          have htake : (p.take n1).length = n1 := length_take_of_le (by omega)
          have hKi : dataSlot (c.length / BSIZE) <
              update K i (slotsOf (c.length + 1)) i := by
            rw [update_self, slotsOf_succ]
            omega
          have hxlt : x < s₁.len := by
            have := (ht.slot_range hi hKi).2.trans_le ht.freeblock_le
            rw [update_self] at this
            rw [ht.len, hx]
            exact this
          have hwrite := ht.write (p := p.take n1) hc hKi (by omega)
          rw [update_self, ← hx] at hwrite
          have hmax : max s₁.len (x + 1) = s₁.len := by omega
          have hround : slotsOf (c ++ p.take n1).length = slotsOf (c.length + 1) := by
            rw [length_append, htake]
            exact slotsOf_round hn1pos hn1le
          have hfree := h.freeblock_eq ht rfl hi
          have hnext := ih (p := p.drop n1) (c := c ++ p.take n1)
            (by rw [length_drop]; omega) hwrite
            (List.getElem?_set_self (by simpa using hi))
            (by rw [update_self, hround]) (by simpa using hi)
          rw [append_assoc, take_append_drop, hround, length_append, htake] at hnext
          simp only [update_self, update_idem, set_set] at hnext
          rw [meets_bind, meets_rsect hxlt, meets_bind, wsect, meets_modify, hmax, hoff]
          refine hnext.mono ?_ ?_
          · rintro ⟨din', off⟩ s₂ ⟨hsize, ⟨addrs', hhead'⟩, hframe', ht'⟩
            refine ⟨hsize, ⟨addrs', ?_⟩, hframe.trans ⟨hframe'.freeinode, fun b hb => ?_⟩, ht'⟩
            · rw [hhead', hhead]
            · rw [hframe'.sector b hb]
              refine update_of_ne ?_ ..
              have := (ht.slot_range hi hKi).1
              rw [update_self] at this
              rw [hx]
              exact (hb.trans_le this).ne
          · rintro _ (hfull | hbig)
            · rw [← hK]
              exact .inl (by omega)
            · exact .inr hbig
        · -- the block is past the end of the image
          rw [meets_bind, meets_rsect_of_le hlen]
          exact .inl (by omega)
      · rw [MAXFILE] at hfbn ⊢
        have := Nat.mul_le_mul_right BSIZE (Nat.le_of_not_lt hfbn)
        rw [Nat.mul_comm (c.length / BSIZE)] at this
        omega

/-- A file is not longer than its slots allow. -/
theorem Table.length_le (h : Table s D K A) (hc : A[i]? = some c) : c.length ≤ MAXFILE * BSIZE := by
  have hi : i < A.length := (List.getElem?_eq_some_iff.mp hc).1
  by_contra! hlt
  have hcov := (h.covered i c hc (MAXFILE * BSIZE) hlt).trans_le (h.slots_le i hi)
  exact absurd hcov (by decide)

/-- The table depends on the addresses of the inodes. -/
theorem Table.congrInodes (h : Table s D K A) {D' : ℕ → Dinode}
    (haddrs : ∀ i < NI, (D' i).addrs = (D i).addrs) (hfits : ∀ i < NI, Fits (D' i)) :
    Table s D' K A := by
  have hslot (i : ℕ) (hi : i < NI) (k : ℕ) : slot s.sector (D' i) k = slot s.sector (D i) k :=
    slot_congr (fun j _ => by rw [haddrs i hi]) (fun _ => rfl) k
  refine ⟨h.len, h.inodes, h.freeblock, h.freeblock_le, hfits, ?_, fun i hi k hk => ?_,
    fun i hi hn j => ?_, h.covered, fun i c hc pos hpos => ?_, h.slots_le, h.fresh⟩
  · exact h.refs.congr (fun i hi k _ => hslot i hi k) fun _ _ => Iff.rfl
  · rw [hslot _ (h.lt_NI hi)]
    exact h.slots i hi k hk
  · rw [haddrs i hi]
    exact h.none i hi hn j
  · have hi : i < A.length := (List.getElem?_eq_some_iff.mp hc).1
    rw [fileByte, addrOf, hslot _ (h.lt_NI hi)]
    exact h.bytes i c hc pos hpos

/-- A new file is empty. -/
theorem Table.grow (h : Table s D K A) (hlt : A.length + 1 < NI) (hK : K A.length = 0) :
    Table s D K (A ++ [[]]) := by
  have hget {i : ℕ} {c : List UInt8} (hc : (A ++ [[]])[i]? = some c) :
      A[i]? = some c ∨ i = A.length ∧ c = [] := by
    rcases Nat.lt_or_ge i A.length with hi | hi
    · rw [getElem?_append_left hi] at hc
      exact .inl hc
    · rw [getElem?_append_right hi, getElem?_singleton] at hc
      split_ifs at hc with h0
      exact .inr ⟨by omega, (Option.some.inj hc).symm⟩
  have hlen : (A ++ [[]]).length = A.length + 1 := by simp
  refine ⟨h.len, by omega, ?_, h.freeblock_le, h.fits, h.refs, fun i hi k hk => ?_,
    fun i hi hn => h.none i hi (by omega), fun i c hc pos hpos => ?_, fun i c hc pos hpos => ?_,
    fun i hi => ?_, h.fresh⟩
  · rw [hlen, Finset.sum_range_succ, hK, h.freeblock, Nat.add_zero]
  · rcases Nat.lt_or_ge i A.length with hi' | hi'
    · exact h.slots i hi' k hk
    · obtain rfl : i = A.length := by omega
      have hnone := h.none (A.length + 1) hlt (.inr (by omega))
      have hslot : slot s.sector (D (A.length + 1)) k = 0 := by
        rw [slot, hnone, hnone, if_pos rfl, ite_self]
      rw [hslot, hK]
      simp
  · rcases hget hc with hc | ⟨rfl, rfl⟩
    · exact h.covered i c hc pos hpos
    · simp at hpos
  · rcases hget hc with hc | ⟨rfl, rfl⟩
    · exact h.bytes i c hc pos hpos
    · omega
  · rcases Nat.lt_or_ge i A.length with hi' | hi'
    · exact h.slots_le i hi'
    · rw [show i = A.length by omega, hK]
      omega

end

/-! ## From one call to the next -/

/-- The files so far: the type of each, and its content. -/
abbrev Files : Type := List (InodeType × List UInt8)

/-- The slots of file `i`. -/
def slotsIn (A : Files) (i : ℕ) : ℕ := slotsOf ((A.map Prod.snd).getD i []).length

/-- What `mkfs` keeps: the files so far are on the disk. -/
structure Inv (s : Image) (A : Files) : Prop where
  freeinode : s.freeinode = A.length + 1
  table : Table s (dinodes s) (slotsIn A) (A.map Prod.snd)
  head : ∀ i t c, A[i]? = some (t, c) → (dinodes s (i + 1)).type = t ∧
    (dinodes s (i + 1)).nlink = 1 ∧ (dinodes s (i + 1)).size = c.length
  free : ∀ i < NI, i = 0 ∨ A.length < i → dinodes s i = Dinode.zero

section

variable {s s' : Image} {A : Files} {i : ℕ} {t : InodeType} {c p : List UInt8}

theorem iblock_lt_len (h : s.len = FSSIZE) (hi : i < NI) : IBLOCK i < s.len := by
  have := iblock_lt hi
  have : bmapstart < FSSIZE := by decide
  omega

theorem getElem?_contents (hc : A[i]? = some (t, c)) : (A.map Prod.snd)[i]? = some c := by
  rw [getElem?_map, hc]
  rfl

theorem slotsIn_eq (hc : A[i]? = some (t, c)) : slotsIn A i = slotsOf c.length := by
  rw [slotsIn, getD_eq_getElem?_getD, getElem?_contents hc]
  rfl

theorem slotsIn_set (hi : i < A.length) (t : InodeType) (c : List UInt8) :
    slotsIn (A.set i (t, c)) = update (slotsIn A) i (slotsOf c.length) := by
  funext j
  rw [update_apply]
  split_ifs with hj
  · subst hj
    exact slotsIn_eq (t := t) (getElem?_set_self hi)
  · rw [slotsIn, slotsIn, getD_eq_getElem?_getD, getD_eq_getElem?_getD,
      getElem?_map, getElem?_map, getElem?_set_ne (Ne.symm hj)]

/-- The inodes on disk depend on the sectors before the data area. -/
theorem dinodes_frame (h : Frame s s') (hi : i < NI) : dinodes s' i = dinodes s i := by
  have := iblock_lt hi
  rw [dinodes, dinodes, h.sector _ (this.trans (by decide))]

/-- The blocks of all the files, and the meta blocks. -/
def blocksUsed (A : Files) : ℕ := nmeta + ∑ i ∈ Finset.range A.length, slotsIn A i

theorem Inv.freeblock (h : Inv s A) : s.freeblock = blocksUsed A := by
  rw [h.table.freeblock, length_map, blocksUsed]

/-- **`iappend`** appends, if the image has the blocks and the file can be as long. -/
theorem iappend_spec (h : Inv s A) (hc : A[i]? = some (t, c)) (p : List UInt8) :
    Meets (iappend (i + 1) p) s (fun _ s' => Inv s' (A.set i (t, c ++ p)))
      fun _ => FSSIZE < blocksUsed (A.set i (t, c ++ p)) ∨ MAXFILE * BSIZE < (c ++ p).length := by
  have hi : i < A.length := (List.getElem?_eq_some_iff.mp hc).1
  have hNI : i + 1 < NI := h.table.lt_NI (by simpa using hi)
  obtain ⟨htype, hnlink, hsize⟩ := h.head i t c hc
  have hK := slotsIn_eq hc
  have hset := slotsIn_set hi t (c ++ p)
  rw [iappend, meets_bind, meets_rinode (iblock_lt_len h.table.len hNI), hsize, meets_bind]
  refine (iappendLoop_spec (le_refl _) h.table (getElem?_contents hc) hK).mono ?_ ?_
  · rintro ⟨din, off⟩ s₁ ⟨hoff, ⟨addrs, hhead⟩, hframe, ht⟩
    dsimp only at hoff hhead ht
    rw [← hset] at ht
    have hmap : (A.map Prod.snd).set i (c ++ p) = (A.set i (t, c ++ p)).map Prod.snd := by
      rw [map_set]
    rw [hmap] at ht
    rw [meets_winode (iblock_lt_len ht.len hNI)]
    have hlen := ht.length_le (getElem?_contents (t := t) (c := c ++ p) (List.getElem?_set_self hi))
    have hfits : Fits { din with size := off } := by
      have hdin := ht.fits (i + 1) hNI
      rw [update_self] at hdin
      refine ⟨?_, hdin.addrs, hdin.high⟩
      rw [hoff]
      exact hlen.trans_lt (by decide)
    have hdinodes (j : ℕ) (hj : j < NI) :
        dinodes (setDinode s₁ (i + 1) { din with size := off }) j =
          if j = i + 1 then { din with size := off } else dinodes s j := by
      rw [dinodes_setDinode hfits, dinodes_frame hframe hj]
    refine ⟨?_, ?_, ?_, ?_⟩
    · rw [List.length_set]
      exact hframe.freeinode.trans h.freeinode
    · have hcongr : Table (setDinode s₁ (i + 1) { din with size := off })
          (update (dinodes s) (i + 1) din) (slotsIn (A.set i (t, c ++ p)))
          ((A.set i (t, c ++ p)).map Prod.snd) := by
        refine ht.congr (fun b hb => sector_setDinode hNI (le_trans (by decide) hb)) ?_ rfl
        have := iblock_lt_len ht.len hNI
        show max s₁.len (IBLOCK (i + 1) + 1) = s₁.len
        omega
      refine hcongr.congrInodes (fun j hj => ?_) fun j hj => ?_
      · rw [hdinodes j hj, update_apply]
        split_ifs <;> rfl
      · rw [hdinodes j hj]
        split_ifs
        · exact hfits
        · exact h.table.fits j hj
    · intro j t' c' hj
      have hjlt : j < A.length := by
        have := (List.getElem?_eq_some_iff.mp hj).1
        rwa [List.length_set] at this
      rw [hdinodes _ (h.table.lt_NI (by simpa using hjlt))]
      rw [List.getElem?_set] at hj
      split_ifs at hj with hij
      · obtain ⟨rfl, rfl⟩ := Prod.mk.inj (Option.some.inj hj)
        rw [if_pos (by omega), hhead]
        exact ⟨htype, hnlink, hoff⟩
      · rw [if_neg (by omega)]
        exact h.head j t' c' hj
    · intro j hj hfree
      rw [List.length_set] at hfree
      rw [hdinodes j hj, if_neg (by omega)]
      exact h.free j hj hfree
  · rintro _ (hfull | hbig)
    · refine .inl ?_
      have hsum := sum_update (slotsIn A) (k := slotsOf (c ++ p).length) hi
      have hmono : slotsOf c.length ≤ slotsOf (c ++ p).length :=
        slotsOf_mono (by rw [length_append]; omega)
      rw [blocksUsed, List.length_set, hset]
      rw [h.freeblock, blocksUsed] at hfull
      omega
    · exact .inr hbig

/-- **`ialloc`** makes an empty file. -/
theorem ialloc_spec (h : Inv s A) (hlt : A.length + 1 < NI) (t : InodeType) :
    Meets (ialloc t) s (fun inum s' => inum = A.length + 1 ∧ Inv s' (A ++ [(t, [])])) Never := by
  set d : Dinode := { Dinode.zero with type := t, nlink := 1 }
  have hfits : Fits d := ⟨Nat.two_pow_pos 32, fun _ => Nat.two_pow_pos 32, fun _ _ => rfl⟩
  have hblock := iblock_lt_len h.table.len hlt
  simp only [ialloc, meets_bind, meets_get, meets_modify, meets_pure, h.freeinode]
  rw [meets_winode (by exact hblock)]
  refine ⟨trivial, ?_⟩
  set s' := setDinode { s with freeinode := A.length + 1 + 1 } (A.length + 1) d with hs'
  have hdinodes (j : ℕ) : dinodes s' j = if j = A.length + 1 then d else dinodes s j :=
    dinodes_setDinode hfits
  have hslots : slotsIn (A ++ [(t, [])]) = slotsIn A := by
    funext j
    rw [slotsIn, slotsIn, map_append]
    rcases Nat.lt_or_ge j A.length with hj | hj
    · rw [getD_append _ _ _ _ (by simpa using hj)]
    · rw [getD_append_right _ _ _ _ (by simpa using hj)]
      simp [getD_eq_getElem?_getD, getElem?_eq_none hj, getElem?_singleton]
      split_ifs <;> rfl
  have htable : Table s' (dinodes s) (slotsIn A) (A.map Prod.snd) := by
    refine h.table.congr (fun b hb => sector_setDinode hlt (le_trans (by decide) hb)) ?_ rfl
    show max s.len (IBLOCK (A.length + 1) + 1) = s.len
    omega
  have htable' : Table s' (dinodes s') (slotsIn A) (A.map Prod.snd) := by
    refine htable.congrInodes (fun j hj => ?_) fun j hj => ?_
    · rw [hdinodes j]
      split_ifs with hjA
      · rw [hjA, h.free (A.length + 1) hlt (.inr (by omega))]
      · rfl
    · rw [hdinodes j]
      split_ifs
      · exact hfits
      · exact h.table.fits j hj
  refine ⟨by simp [hs', setDinode], ?_, fun j t' c hj => ?_, fun j hj hfree => ?_⟩
  · rw [hslots, map_append]
    refine htable'.grow (by simpa using hlt) ?_
    rw [length_map, slotsIn, getD_eq_getElem?_getD, getElem?_eq_none (by simp)]
    rfl
  · rw [hdinodes]
    rcases Nat.lt_or_ge j A.length with hlt' | hge
    · rw [getElem?_append_left hlt'] at hj
      rw [if_neg (by omega)]
      exact h.head j t' c hj
    · rw [getElem?_append_right hge, getElem?_singleton] at hj
      split_ifs at hj with h0
      obtain ⟨rfl, rfl⟩ := Prod.mk.inj (Option.some.inj hj)
      rw [if_pos (by omega)]
      exact ⟨rfl, rfl, rfl⟩
  · rw [length_append, length_singleton] at hfree
    rw [hdinodes, if_neg (by omega)]
    exact h.free j hj (by omega)

end

/-! ## The files -/

/-- The files so far: the root directory, and the others. -/
def withRoot (root : List UInt8) (rest : Files) : Files := (.T_DIR, root) :: rest

/-- No file gets shorter. -/
structure Grows (A A' : Files) : Prop where
  length : A.length ≤ A'.length
  content : ∀ i, ((A.map Prod.snd).getD i []).length ≤ ((A'.map Prod.snd).getD i []).length

theorem Grows.blocksUsed_le {A A' : Files} (h : Grows A A') : blocksUsed A ≤ blocksUsed A' := by
  have hsum : ∑ i ∈ Finset.range A.length, slotsIn A i ≤
      ∑ i ∈ Finset.range A'.length, slotsIn A' i :=
    calc ∑ i ∈ Finset.range A.length, slotsIn A i
      _ ≤ ∑ i ∈ Finset.range A.length, slotsIn A' i :=
        Finset.sum_le_sum fun i _ => slotsOf_mono (h.content i)
      _ ≤ ∑ i ∈ Finset.range A'.length, slotsIn A' i :=
        Finset.sum_le_sum_of_subset (Finset.range_mono h.length)
  rw [blocksUsed, blocksUsed]
  omega

theorem Grows.withRoot {root root' : List UInt8} {rest rest' : Files}
    (hroot : root.length ≤ root'.length) (h : Grows rest rest') :
    Grows (withRoot root rest) (withRoot root' rest') := by
  refine ⟨Nat.succ_le_succ h.length, fun j => ?_⟩
  cases j with
  | zero => exact hroot
  | succ j => exact h.content j

theorem Grows.append (A A' : Files) : Grows A (A ++ A') := by
  refine ⟨by simp, fun j => ?_⟩
  rw [map_append]
  rcases Nat.lt_or_ge j (A.map Prod.snd).length with hj | hj
  · rw [getD_append _ _ _ _ hj]
  · rw [getD_eq_getElem?_getD, getElem?_eq_none hj]
    exact Nat.zero_le _

theorem Grows.last (A : Files) (t : InodeType) (c : List UInt8) :
    Grows (A ++ [(t, [])]) (A ++ [(t, c)]) := by
  refine ⟨by simp, fun j => ?_⟩
  rw [map_append, map_append]
  rcases Nat.lt_or_ge j (A.map Prod.snd).length with hj | hj
  · rw [getD_append _ _ _ _ hj, getD_append _ _ _ _ hj]
  · rw [getD_append_right _ _ _ _ hj, getD_append_right _ _ _ _ hj]
    cases j - (A.map Prod.snd).length <;> simp

/-- What is read of a file. -/
def readAll (reads : List (List UInt8)) : List UInt8 := (reads.takeWhile (· ≠ [])).flatten

/-- The content of a host file. -/
def HostFile.content (f : HostFile) : List UInt8 := readAll (f.reads.getD [])

/-- The file in the image. -/
def HostFile.file (f : HostFile) : InodeType × List UInt8 := (.T_FILE, f.content)

/-- `mkfs` accepts the file. -/
structure HostFile.Ok (f : HostFile) : Prop where
  slash : slash ∉ shortname f.path
  opens : f.reads ≠ none
  name : (stripped f.path).length ≤ DIRSIZ
  size : f.content.length ≤ MAXFILE * BSIZE

instance (f : HostFile) : Decidable f.Ok :=
  decidable_of_iff (slash ∉ shortname f.path ∧ f.reads ≠ none ∧
    (stripped f.path).length ≤ DIRSIZ ∧ f.content.length ≤ MAXFILE * BSIZE)
    ⟨fun ⟨h1, h2, h3, h4⟩ => ⟨h1, h2, h3, h4⟩, fun ⟨h1, h2, h3, h4⟩ => ⟨h1, h2, h3, h4⟩⟩

/-- The directory entries for files, the first of which has the number `n`. -/
def entries : ℕ → List HostFile → List UInt8
  | _, [] => []
  | n, f :: fs => de n (stripped f.path) ++ entries (n + 1) fs

section

variable {s s' : Image} {A : Files} {i : ℕ} {t : InodeType} {c p root : List UInt8} {rest : Files}

theorem appendReads_spec (reads : List (List UInt8)) (h : Inv s A) (hc : A[i]? = some (t, c)) :
    Meets (appendReads (i + 1) reads) s (fun _ s' => Inv s' (A.set i (t, c ++ readAll reads)))
      fun _ => FSSIZE < blocksUsed (A.set i (t, c ++ readAll reads)) ∨
        MAXFILE * BSIZE < (c ++ readAll reads).length := by
  induction reads generalizing s A c with
  | nil =>
    rw [readAll, takeWhile_nil, flatten_nil, append_nil, set_of_getElem? hc]
    exact h
  | cons buf reads ih =>
    rw [appendReads]
    split_ifs with hbuf
    · subst hbuf
      rw [readAll, takeWhile_cons_of_neg (by simp), flatten_nil, append_nil,
        set_of_getElem? hc]
      exact h
    · have hi : i < A.length := (List.getElem?_eq_some_iff.mp hc).1
      have hread : readAll (buf :: reads) = buf ++ readAll reads := by
        rw [readAll, List.takeWhile_cons_of_pos (by simpa using hbuf), List.flatten_cons]
        rfl
      have hassoc : c ++ readAll (buf :: reads) = (c ++ buf) ++ readAll reads := by
        rw [hread, append_assoc]
      rw [hassoc, meets_bind]
      refine (iappend_spec h hc buf).mono (fun _ s₁ h₁ => ?_) ?_
      · have := ih h₁ (List.getElem?_set_self hi)
        rwa [set_set] at this
      · have hle : (c ++ buf).length ≤ (c ++ buf ++ readAll reads).length :=
          (sublist_append_left ..).length_le
        rintro _ (hfull | hbig)
        · refine .inl (hfull.trans_le (Grows.blocksUsed_le ⟨by simp, fun j => ?_⟩))
          rw [map_set, map_set, getD_eq_getElem?_getD, getD_eq_getElem?_getD,
            List.getElem?_set, List.getElem?_set]
          split_ifs
          · exact hle
          · exact le_refl _
          · exact le_refl _
        · exact .inr (hbig.trans_le hle)

/-- **A round of the loop over the files.** -/
theorem addFile_spec (h : Inv s (withRoot root rest)) (hlt : rest.length + 2 < NI) (f : HostFile) :
    Meets (addFile ROOTINO f) s
      (fun _ s' => f.Ok ∧ Inv s' (withRoot (root ++ de (rest.length + 2) (stripped f.path))
        (rest ++ [f.file])))
      fun _ => f.Ok → FSSIZE < blocksUsed (withRoot
          (root ++ de (rest.length + 2) (stripped f.path)) (rest ++ [f.file])) ∨
        MAXFILE * BSIZE < (root ++ de (rest.length + 2) (stripped f.path)).length := by
  rw [addFile, meets_bind, meets_assert]
  refine ⟨fun hslash => ?_, fun hslash hok => absurd hok.slash hslash⟩
  split
  next hreads => exact fun hok => absurd hreads hok.opens
  next reads hreads =>
    have hcontent : f.content = readAll reads := by rw [HostFile.content, hreads]; rfl
    rw [meets_bind, meets_assert]
    refine ⟨fun hname => ?_, fun hname hok => absurd hok.name hname⟩
    rw [meets_bind]
    refine (ialloc_spec h hlt .T_FILE).mono ?_ fun _ hfail => hfail.elim
    rintro inum s₁ ⟨rfl, h₁⟩
    have hlen : (withRoot root rest).length + 1 = rest.length + 2 := rfl
    rw [hlen, meets_bind]
    set entry := de (rest.length + 2) (stripped f.path)
    refine (iappend_spec h₁ rfl entry).mono (fun _ s₂ h₂ => ?_) ?_
    · have hfile : (withRoot (root ++ entry) (rest ++ [(.T_FILE, [])]))[rest.length + 1]? =
          some (.T_FILE, []) := by
        simp [withRoot]
      have hset : (withRoot (root ++ entry) (rest ++ [(.T_FILE, [])])).set (rest.length + 1)
          (.T_FILE, [] ++ readAll reads) = withRoot (root ++ entry) (rest ++ [f.file]) := by
        simp [withRoot, HostFile.file, hcontent]
      change Inv s₂ (withRoot (root ++ entry) (rest ++ [(.T_FILE, [])])) at h₂
      have hreads := appendReads_spec reads h₂ hfile
      rw [hset] at hreads
      refine hreads.mono (fun _ s₃ h₃ => ⟨⟨hslash, ?_, hname, ?_⟩, h₃⟩) ?_
      · simp [*]
      · refine h₃.table.length_le (i := rest.length + 1) ?_
        simp [withRoot, HostFile.file]
      · rintro _ (hfull | hbig) hok
        · exact .inl hfull
        · exact absurd hok.size (by rw [hcontent]; exact Nat.not_le.mpr hbig)
    · rintro _ (hfull | hbig) -
      · refine .inl (hfull.trans_le (Grows.blocksUsed_le ?_))
        exact Grows.withRoot (le_refl _) (Grows.last rest .T_FILE f.content)
      · exact .inr hbig

/-- **The loop over the files.** -/
theorem addFiles_spec (files : List HostFile) (h : Inv s (withRoot root rest))
    (hlt : rest.length + files.length + 1 < NI) :
    Meets (addFiles ROOTINO files) s
      (fun _ s' => (∀ f ∈ files, f.Ok) ∧ Inv s' (withRoot (root ++ entries (rest.length + 2) files)
        (rest ++ files.map HostFile.file)))
      fun _ => (∀ f ∈ files, f.Ok) → FSSIZE < blocksUsed (withRoot
          (root ++ entries (rest.length + 2) files) (rest ++ files.map HostFile.file)) ∨
        MAXFILE * BSIZE < (root ++ entries (rest.length + 2) files).length := by
  induction files generalizing s root rest with
  | nil =>
    refine ⟨by simp, ?_⟩
    rwa [entries, map_nil, append_nil, append_nil]
  | cons f files ih =>
    rw [length_cons] at hlt
    have hroot : root ++ entries (rest.length + 2) (f :: files) =
        root ++ de (rest.length + 2) (stripped f.path) ++ entries (rest.length + 3) files := by
      rw [entries, append_assoc]
    have hrest : rest ++ (f :: files).map HostFile.file =
        rest ++ [f.file] ++ files.map HostFile.file := by
      rw [map_cons, append_assoc]
      rfl
    rw [hroot, hrest, addFiles, meets_bind]
    refine (addFile_spec h (by omega) f).mono (fun _ s₁ hs₁ => ?_) fun _ hfail hok => ?_
    · have hlen : (rest ++ [f.file]).length = rest.length + 1 := by simp
      have hfiles := ih hs₁.2 (by omega)
      rw [hlen] at hfiles
      refine hfiles.mono (fun _ s₂ hs₂ => ⟨?_, hs₂.2⟩) fun _ hfail hok => ?_
      · exact forall_mem_cons.mpr ⟨hs₁.1, hs₂.1⟩
      · exact hfail (forall_mem_cons.mp hok).2
    · refine (hfail (forall_mem_cons.mp hok).1).imp (fun hfull => ?_) fun hbig => ?_
      · refine hfull.trans_le (Grows.blocksUsed_le (Grows.withRoot ?_ (Grows.append _ _)))
        exact (sublist_append_left ..).length_le
      · refine hbig.trans_le ?_
        exact (sublist_append_left ..).length_le

end

end Xv6.Mkfs
