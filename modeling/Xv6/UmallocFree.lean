import Xv6.Blocks
import Xv6.Linked
import Xv6.Umalloc

/-!
# The free list, and what `free` does to it

`Holds h F L` says that the headers hold the free blocks `F`, in a ring that goes
up from `base` and comes back to it, and the blocks `L` that are in use. `free`
looks for the place of a block wherever the ring is entered (`freeLoop_eq`), and
joins it with its neighbours on both sides (`join_next`, `join_prev`): it leaves
the same units, in blocks that are apart (`Holds.free`).
-/

namespace Xv6.Umalloc

open Function List

open Blocks

/-- **The headers hold these blocks**, of which those of `F` are free and those of `L` are in use.
-/
structure Holds (h : Heap) (F L : List (ℕ × ℕ)) : Prop where
  ring : Chained h.ptr (base :: F.map Prod.fst ++ [base])
  apart : Separated F
  freep : h.freep ∈ base :: F.map Prod.fst
  base_size : h.size base = 0
  pos : ∀ b ∈ F ++ L, base < b.1 ∧ 0 < b.2
  header : ∀ b ∈ F ++ L, h.size b.1 = BitVec.ofNat 32 b.2
  once : ∀ u, covers u (F ++ L) ≤ 1
  total_lt : total (F ++ L) < 2 ^ 32

namespace Holds

variable {h : Heap} {F L L' : List (ℕ × ℕ)} {b : ℕ × ℕ}

theorem perm (hh : Holds h F L) (hperm : L.Perm L') : Holds h F L' := by
  have happend : (F ++ L).Perm (F ++ L') := hperm.append_left F
  exact { hh with
    pos := fun b hb => hh.pos b (happend.mem_iff.mpr hb)
    header := fun b hb => hh.header b (happend.mem_iff.mpr hb)
    once := fun u => by rw [← covers_perm happend]; exact hh.once u
    total_lt := by rw [← total_perm happend]; exact hh.total_lt }

theorem size_toNat (hh : Holds h F L) (hb : b ∈ F ++ L) : (h.size b.1).toNat = b.2 := by
  rw [hh.header b hb, BitVec.toNat_ofNat]
  exact Nat.mod_eq_of_lt (Nat.lt_of_le_of_lt (le_total hb) hh.total_lt)

theorem disjoint (hh : Holds h F L) :
    (F ++ L).Pairwise fun b c => b.1 + b.2 ≤ c.1 ∨ c.1 + c.2 ≤ b.1 :=
  disjoint_of_covers hh.once fun b hb => (hh.pos b hb).2

theorem nodup (hh : Holds h F L) : ((F ++ L).map Prod.fst).Nodup :=
  nodup_starts hh.once fun b hb => (hh.pos b hb).2

/-- The ring goes up from `base`. -/
theorem increasing (hh : Holds h F L) : (base :: F.map Prod.fst).Pairwise (· < ·) := by
  refine pairwise_cons.mpr ⟨?_, hh.apart.starts⟩
  intro p hp
  obtain ⟨b, hb, rfl⟩ := mem_map.mp hp
  exact (hh.pos b (mem_append_left _ hb)).1

/-- A block in use is between free ones. -/
theorem between (hh : Holds h F (b :: L)) {c : ℕ × ℕ} (hc : c ∈ F) :
    b.1 + b.2 ≤ c.1 ∨ c.1 + c.2 ≤ b.1 := by
  obtain h | h := (pairwise_append.mp hh.disjoint).2.2 c hc b mem_cons_self
  · exact .inr h
  · exact .inl h

end Holds

/-! ## The search -/

section Search

variable {h : Heap} {bp p q x : ℕ} {T : List ℕ} {fuel : ℕ}

theorem freeLoop_stop (hp : p < bp) (hq : bp < h.ptr p ∨ h.ptr p ≤ p) :
    freeLoop h bp (fuel + 1) p = some p := by
  rw [freeLoop]
  split_ifs with h₁ h₂
  · rfl
  · rfl
  · omega

/-- Below the block, the search goes up to the last place before it. -/
theorem freeLoop_below (hchain : Chained h.ptr (x :: T ++ [q])) (hsorted : (x :: T).Pairwise (· < ·))
    (hlt : ∀ y ∈ x :: T, y < bp) (hlast : (x :: T).getLast? = some p)
    (hq : bp < q ∨ q ≤ p) (hfuel : T.length < fuel) : freeLoop h bp fuel x = some p := by
  induction T generalizing x fuel with
  | nil =>
    obtain rfl : x = p := Option.some.inj hlast
    obtain ⟨hnext, -⟩ := Chained.cons_cons.mp hchain
    obtain ⟨fuel, rfl⟩ := Nat.exists_eq_succ_of_ne_zero (Nat.ne_zero_of_lt hfuel)
    exact freeLoop_stop (hlt x mem_cons_self) (by rwa [hnext])
  | cons y T ih =>
    obtain ⟨hnext, htail⟩ := Chained.cons_cons.mp hchain
    obtain ⟨hx, hsorted⟩ := pairwise_cons.mp hsorted
    have hxy := hx y mem_cons_self
    have hy := hlt y (mem_cons_of_mem _ mem_cons_self)
    obtain ⟨fuel, rfl⟩ := Nat.exists_eq_succ_of_ne_zero (Nat.ne_zero_of_lt hfuel)
    rw [freeLoop, hnext, if_neg (by omega), if_neg (by omega)]
    exact ih htail hsorted (fun z hz => hlt z (mem_cons_of_mem _ hz)) hlast
      (Nat.lt_of_succ_lt_succ hfuel)

/-- Above the block, the search goes on to `base`. -/
theorem freeLoop_above (hchain : Chained h.ptr (x :: T ++ [base]))
    (hsorted : (x :: T).Pairwise (· < ·)) (hlt : ∀ y ∈ x :: T, bp < y) (hbp : base < bp) :
    freeLoop h bp (fuel + (T.length + 1)) x = freeLoop h bp fuel base := by
  induction T generalizing x with
  | nil =>
    obtain ⟨hnext, -⟩ := Chained.cons_cons.mp hchain
    have hx := hlt x mem_cons_self
    rw [length_nil, freeLoop, hnext, if_neg (by omega), if_neg (by omega)]
  | cons y T ih =>
    obtain ⟨hnext, htail⟩ := Chained.cons_cons.mp hchain
    obtain ⟨hx, hsorted⟩ := pairwise_cons.mp hsorted
    have hxy := hx y mem_cons_self
    have hbx := hlt x mem_cons_self
    rw [length_cons, ← Nat.add_assoc, freeLoop, hnext, if_neg (by omega), if_neg (by omega)]
    exact ih htail hsorted fun z hz => hlt z (mem_cons_of_mem _ hz)

/-- **The search finds the place of the block**, wherever it starts. -/
theorem freeLoop_eq {A B : List ℕ} (hchain : Chained h.ptr (base :: A ++ (B ++ [base])))
    (hsorted : (base :: A ++ B).Pairwise (· < ·)) (hA : ∀ a ∈ base :: A, a < bp)
    (hB : ∀ c ∈ B, bp < c) (hlast : (base :: A).getLast? = some p) (hx : x ∈ base :: A ++ B)
    (hfuel : A.length + B.length < fuel) : freeLoop h bp fuel x = some p := by
  obtain ⟨hsortedA, hsortedB, -⟩ := pairwise_append.mp hsorted
  -- the place after `p`
  obtain ⟨q, T, hqT⟩ : ∃ q T, B ++ [base] = q :: T :=
    exists_cons_of_ne_nil (append_ne_nil_of_right_ne_nil _ (cons_ne_nil _ _))
  have hq : bp < q ∨ q ≤ p := by
    have hmem : q ∈ B ++ [base] := hqT ▸ mem_cons_self
    rcases mem_append.mp hmem with hmem | hmem
    · exact .inl (hB q hmem)
    · obtain rfl := mem_singleton.mp hmem
      rcases mem_cons.mp (mem_of_getLast? hlast) with hp | hp
      · exact .inr hp.ge
      · exact .inr ((pairwise_cons.mp hsortedA).1 p hp).le
  have hbelow (y : ℕ) (hy : y ∈ base :: A) (fuel : ℕ) (hfuel : A.length < fuel) :
      freeLoop h bp fuel y = some p := by
    obtain ⟨L₁, L₂, hL⟩ := append_of_mem hy
    have hlength := congrArg List.length hL
    rw [length_cons, length_append, length_cons] at hlength
    rw [hL] at hsortedA hA hlast
    rw [hL, hqT, append_assoc] at hchain
    refine freeLoop_below (Chained.split.mp (Chained.split.mp hchain).2).1
      (pairwise_append.mp hsortedA).2.1 (fun z hz => hA z (mem_append_right _ hz)) ?_ hq
      (by omega)
    rwa [getLast?_append_of_ne_nil _ (cons_ne_nil _ _)] at hlast
  rcases mem_append.mp hx with hx | hx
  · exact hbelow x hx fuel (by omega)
  · obtain ⟨L₁, L₂, rfl⟩ := append_of_mem hx
    rw [append_assoc, ← append_assoc] at hchain
    rw [length_append, length_cons] at hfuel
    obtain ⟨n, rfl⟩ : ∃ n, fuel = n + (L₂.length + 1) := ⟨fuel - (L₂.length + 1), by omega⟩
    rw [freeLoop_above (Chained.split.mp hchain).2 (pairwise_append.mp hsortedB).2.1
      (fun z hz => hB z (mem_append_right _ hz)) (hA base mem_cons_self)]
    exact hbelow base mem_cons_self n (by omega)

end Search

/-! ## Joining -/

/-- **The block after** is joined if it is adjacent. -/
theorem join_next {h : Heap} {b : ℕ × ℕ} {B : List (ℕ × ℕ)} {p : ℕ}
    (hchain : Chained h.ptr (p :: B.map Prod.fst ++ [base])) (hbase : base < b.1)
    (hsize : (h.size b.1).toNat = b.2) (hB : ∀ c ∈ B, h.size c.1 = BitVec.ofNat 32 c.2)
    (hle : ∀ c ∈ B, b.1 + b.2 ≤ c.1) (hpos : 0 < b.2) (hapart : Separated B) :
    ∃ n B', Chained (joinNext h b.1 p).ptr (b.1 :: B'.map Prod.fst ++ [base]) ∧
      (joinNext h b.1 p).size b.1 = BitVec.ofNat 32 n ∧
      (∀ x ≠ b.1, (joinNext h b.1 p).size x = h.size x ∧ (joinNext h b.1 p).ptr x = h.ptr x) ∧
      (∀ u, covers u ((b.1, n) :: B') = covers u (b :: B)) ∧
      total ((b.1, n) :: B') = total (b :: B) ∧ Separated ((b.1, n) :: B') ∧ b.2 ≤ n ∧ B' ⊆ B := by
  have hheader : h.size b.1 = BitVec.ofNat 32 b.2 := by
    rw [← hsize, BitVec.ofNat_toNat, BitVec.setWidth_eq]
  -- the links of the blocks after it stay
  have hne {B' : List (ℕ × ℕ)} (hB' : B' ⊆ B) (x : ℕ)
      (hx : x ∈ (B'.map Prod.fst ++ [base]).dropLast) : x ≠ b.1 := by
    rw [dropLast_concat] at hx
    obtain ⟨c, hc, rfl⟩ := mem_map.mp hx
    have := hle c (hB' hc)
    omega
  have hrest {B' : List (ℕ × ℕ)} {q : ℕ} {l : List ℕ} (hB' : B' ⊆ B)
      (hq : B'.map Prod.fst ++ [base] = q :: l) (hc : Chained h.ptr (q :: l)) :
      Chained (update h.ptr b.1 q) (b.1 :: B'.map Prod.fst ++ [base]) := by
    rw [cons_append, hq]
    refine Chained.cons_cons.mpr ⟨update_self .., hc.congr fun x hx => ?_⟩
    exact update_of_ne (hne hB' x (hq ▸ hx)) _ _
  obtain ⟨q, l, hq⟩ : ∃ q l, B.map Prod.fst ++ [base] = q :: l :=
    exists_cons_of_ne_nil (append_ne_nil_of_right_ne_nil _ (cons_ne_nil _ _))
  rw [cons_append, hq] at hchain
  obtain ⟨hnext, htail⟩ := Chained.cons_cons.mp hchain
  by_cases hjoin : b.1 + b.2 = q
  · cases B with
    | nil =>
      obtain rfl : base = q := (List.cons.inj hq).1
      omega
    | cons c B =>
      obtain rfl : c.1 = q := (List.cons.inj hq).1
      obtain ⟨q', l', hq'⟩ : ∃ q l, B.map Prod.fst ++ [base] = q :: l :=
        exists_cons_of_ne_nil (append_ne_nil_of_right_ne_nil _ (cons_ne_nil _ _))
      obtain rfl : l = q' :: l' := by
        rw [← hq']
        exact (List.cons.inj hq).2.symm
      obtain ⟨hnext', htail'⟩ := Chained.cons_cons.mp htail
      have heq : joinNext h b.1 p = { h with
          size := update h.size b.1 (BitVec.ofNat 32 (b.2 + c.2))
          ptr := update h.ptr b.1 q' } := by
        rw [joinNext, hsize, hnext, if_pos hjoin, hnext', hheader, hB c mem_cons_self,
          BitVec.ofNat_add]
      rw [heq]
      refine ⟨b.2 + c.2, B, hrest (subset_cons_self _ _) hq' htail', update_self ..,
        fun x hx => ⟨update_of_ne hx .., update_of_ne hx ..⟩, fun u => ?_, ?_, ?_,
        Nat.le_add_right _ _, subset_cons_self _ _⟩
      · rw [covers_cons, covers_cons, covers_cons, cover_add, hjoin, Nat.add_assoc]
      · rw [total_cons, total_cons, total_cons, Nat.add_assoc]
      · obtain ⟨hc, hapart⟩ := pairwise_cons.mp hapart
        refine pairwise_cons.mpr ⟨fun d hd => ?_, hapart⟩
        have := hc d hd
        omega
  · have heq : joinNext h b.1 p = { h with ptr := update h.ptr b.1 q } := by
      rw [joinNext, hsize, hnext, if_neg hjoin]
    rw [heq]
    refine ⟨b.2, B, hrest (List.Subset.refl _) hq htail, hheader,
      fun x hx => ⟨rfl, update_of_ne hx ..⟩, fun u => rfl, rfl, ?_, le_rfl,
      List.Subset.refl _⟩
    refine pairwise_cons.mpr ⟨fun c hc => ?_, hapart⟩
    -- only the first block after it could be adjacent
    cases B with
    | nil => cases hc
    | cons d B =>
      obtain rfl : d.1 = q := (List.cons.inj hq).1
      have hd := hle d mem_cons_self
      rcases mem_cons.mp hc with rfl | hc
      · dsimp only
        omega
      · have := (pairwise_cons.mp hapart).1 c hc
        omega

/-- The links where `p` leads to `q` now. -/
theorem chained_update {ptr : ℕ → ℕ} {L l : List ℕ} {p q : ℕ} (hL : Chained ptr (L ++ [p]))
    (hl : Chained ptr (q :: l)) (hpL : p ∉ L) (hpl : p ∉ (q :: l).dropLast) :
    Chained (update ptr p q) (L ++ p :: q :: l) := by
  refine Chained.split.mpr ⟨hL.congr fun x hx => ?_, Chained.cons_cons.mpr
    ⟨update_self .., hl.congr fun x hx => ?_⟩⟩
  · rw [dropLast_concat] at hx
    exact update_of_ne (ne_of_mem_of_not_mem hx hpL) _ _
  · exact update_of_ne (ne_of_mem_of_not_mem hx hpl) _ _

/-- **The block before** is joined if it is adjacent. -/
theorem join_prev {h : Heap} {b : ℕ × ℕ} {A B : List (ℕ × ℕ)} {p : ℕ}
    (hchainA : Chained h.ptr (base :: A.map Prod.fst))
    (hlast : (base :: A.map Prod.fst).getLast? = some p)
    (hchainB : Chained h.ptr (b.1 :: B.map Prod.fst ++ [base])) (hbase : base < b.1)
    (hpos : 0 < b.2) (hbase_size : h.size base = 0) (hb : h.size b.1 = BitVec.ofNat 32 b.2)
    (hA : ∀ a ∈ A, h.size a.1 = BitVec.ofNat 32 a.2 ∧ a.2 < 2 ^ 32 ∧ base < a.1 ∧ 0 < a.2)
    (hle : ∀ a ∈ A, a.1 + a.2 ≤ b.1) (hapartA : Separated A) (hapartB : Separated (b :: B)) :
    ∃ F, Chained (joinPrev h b.1 p).ptr (base :: F.map Prod.fst ++ [base]) ∧ Separated F ∧
      p ∈ base :: F.map Prod.fst ∧
      (∀ x, x ∉ A.map Prod.fst → (joinPrev h b.1 p).size x = h.size x) ∧
      (∀ c ∈ F, c ∈ B ∨ (joinPrev h b.1 p).size c.1 = BitVec.ofNat 32 c.2 ∧ base < c.1 ∧ 0 < c.2) ∧
      (∀ u, covers u F = covers u (A ++ b :: B)) ∧ total F = total (A ++ b :: B) ∧
      ∃ c ∈ F, b.2 ≤ c.2 := by
  obtain ⟨hbB, hapartB'⟩ := pairwise_cons.mp hapartB
  have hsorted : (base :: A.map Prod.fst).Pairwise (· < ·) := by
    refine pairwise_cons.mpr ⟨fun x hx => ?_, hapartA.starts⟩
    obtain ⟨a, ha, rfl⟩ := mem_map.mp hx
    exact (hA a ha).2.2.1
  obtain ⟨L, hL⟩ := getLast?_eq_some_iff.mp hlast
  have hpb : p < b.1 := by
    rcases mem_cons.mp (mem_of_getLast? hlast) with rfl | hp
    · exact hbase
    · obtain ⟨a, ha, rfl⟩ := mem_map.mp hp
      have := hle a ha
      have := (hA a ha).2.2.2
      omega
  have hpL : p ∉ L := by
    intro hp
    rw [hL] at hsorted
    exact Nat.lt_irrefl _ ((pairwise_append.mp hsorted).2.2 p hp p mem_cons_self)
  have hpB : p ∉ B.map Prod.fst := by
    intro hp
    obtain ⟨c, hc, rfl⟩ := mem_map.mp hp
    have := hbB c hc
    omega
  -- `p` is `base`, or the last block before
  have hp : A = [] ∧ p = base ∨ ∃ A' a, A = A' ++ [a] ∧ p = a.1 ∧ L = base :: A'.map Prod.fst := by
    rcases eq_nil_or_concat A with rfl | ⟨A', a, rfl⟩
    · exact .inl ⟨rfl, (Option.some.inj hlast).symm⟩
    · rw [concat_eq_append] at hL ⊢
      rw [map_append, ← cons_append] at hL
      obtain ⟨hL', hp⟩ := append_inj' hL rfl
      exact .inr ⟨A', a, rfl, ((List.cons.inj hp).1).symm, hL'.symm⟩
  rw [hL] at hchainA
  by_cases hjoin : p + (h.size p).toNat = b.1
  · rcases hp with ⟨-, rfl⟩ | ⟨A', a, rfl, rfl, rfl⟩
    · rw [hbase_size] at hjoin
      exact absurd hjoin (Nat.ne_of_lt hbase)
    · obtain ⟨hsize, hlt, hstart, hpos⟩ := hA a (mem_append_right _ mem_cons_self)
      obtain ⟨hapartA', -, hA'a⟩ := pairwise_append.mp hapartA
      rw [hsize, BitVec.toNat_ofNat, Nat.mod_eq_of_lt hlt] at hjoin
      obtain ⟨q, l, hq⟩ : ∃ q l, B.map Prod.fst ++ [base] = q :: l :=
        exists_cons_of_ne_nil (append_ne_nil_of_right_ne_nil _ (cons_ne_nil _ _))
      rw [cons_append, hq] at hchainB
      obtain ⟨hnext, htail⟩ := Chained.cons_cons.mp hchainB
      have heq : joinPrev h b.1 a.1 = { h with
          size := update h.size a.1 (BitVec.ofNat 32 (a.2 + b.2))
          ptr := update h.ptr a.1 q } := by
        rw [joinPrev, if_pos (by rwa [hsize, BitVec.toNat_ofNat, Nat.mod_eq_of_lt hlt]), hnext,
          hsize, hb, BitVec.ofNat_add]
      rw [heq]
      refine ⟨A' ++ (a.1, a.2 + b.2) :: B, ?_, ?_, ?_, ?_, ?_, ?_, ?_, ?_⟩
      · have hchain := chained_update hchainA htail hpL (by rwa [← hq, dropLast_concat])
        rw [← hq] at hchain
        simpa using hchain
      · refine pairwise_append.mpr ⟨hapartA', pairwise_cons.mpr ⟨?_, hapartB'⟩, ?_⟩
        · intro c hc
          have := hbB c hc
          omega
        · intro d hd c hc
          have hda := hA'a d hd a mem_cons_self
          rcases mem_cons.mp hc with rfl | hc
          · exact hda
          · have := hbB c hc
            omega
      · simp
      · intro x hx
        refine update_of_ne (fun heq => hx ?_) _ _
        rw [heq, map_append]
        exact mem_append_right _ mem_cons_self
      · intro c hc
        rcases mem_append.mp hc with hc | hc
        · have hne : c.1 ≠ a.1 := by
            have := hA'a c hc a mem_cons_self
            omega
          obtain ⟨hcsize, -, hcstart, hcpos⟩ := hA c (mem_append_left _ hc)
          exact .inr ⟨(update_of_ne hne ..).trans hcsize, hcstart, hcpos⟩
        · rcases mem_cons.mp hc with rfl | hc
          · exact .inr ⟨update_self .., hstart, by dsimp only; omega⟩
          · exact .inl hc
      · intro u
        simp only [covers_append, covers_cons, covers_nil, cover_add, hjoin, Prod.mk.eta]
        omega
      · simp only [total_append, total_cons, total_nil]
        omega
      · exact ⟨(a.1, a.2 + b.2), by simp, Nat.le_add_left _ _⟩
  · have heq : joinPrev h b.1 p = { h with ptr := update h.ptr p b.1 } := by
      rw [joinPrev, if_neg hjoin]
    -- no block before is adjacent
    have hlt (a : ℕ × ℕ) (ha : a ∈ A) : a.1 + a.2 < b.1 := by
      rcases hp with ⟨rfl, -⟩ | ⟨A', a', rfl, rfl, -⟩
      · cases ha
      · obtain ⟨hsize, hlt, -, hpos⟩ := hA a' (mem_append_right _ mem_cons_self)
        rw [hsize, BitVec.toNat_ofNat, Nat.mod_eq_of_lt hlt] at hjoin
        have hle' := hle a' (mem_append_right _ mem_cons_self)
        rcases mem_append.mp ha with ha | ha
        · have := (pairwise_append.mp hapartA).2.2 a ha a' mem_cons_self
          omega
        · obtain rfl := mem_singleton.mp ha
          omega
    rw [heq]
    refine ⟨A ++ b :: B, ?_, ?_, ?_, fun x _ => rfl, ?_, fun u => rfl, rfl,
      b, mem_append_right _ mem_cons_self, le_rfl⟩
    · have hchain := chained_update hchainA hchainB hpL (by
        change p ∉ (b.1 :: B.map Prod.fst ++ [base]).dropLast
        rw [dropLast_concat, mem_cons, not_or]
        exact ⟨Nat.ne_of_lt hpb, hpB⟩)
      rw [← singleton_append, ← append_assoc, ← hL] at hchain
      simpa using hchain
    · refine pairwise_append.mpr ⟨hapartA, hapartB, fun a ha c hc => ?_⟩
      have hab := hlt a ha
      rcases mem_cons.mp hc with rfl | hc
      · exact hab
      · have := hbB c hc
        omega
    · rw [map_append, ← cons_append]
      exact mem_append_left _ (mem_of_getLast? hlast)
    · intro c hc
      rcases mem_append.mp hc with hc | hc
      · obtain ⟨hsize, -, hstart, hpos⟩ := hA c hc
        exact .inr ⟨hsize, hstart, hpos⟩
      · rcases mem_cons.mp hc with rfl | hc
        · exact .inr ⟨hb, hbase, hpos⟩
        · exact .inl hc

/-! ## `free` -/

/-- **`free` keeps the free list**: the block and those that were free are free now, in blocks that
are apart. -/
theorem Holds.free {h : Heap} {F L : List (ℕ × ℕ)} {b : ℕ × ℕ} (hh : Holds h F (b :: L)) {fuel : ℕ}
    (hfuel : F.length < fuel) : ∃ h' F', free fuel h b.1 = some h' ∧ Holds h' F' L ∧
      (∀ u, covers u (F' ++ L) = covers u (F ++ b :: L)) ∧
      total (F' ++ L) = total (F ++ b :: L) ∧ ∃ c ∈ F', b.2 ≤ c.2 := by
  obtain ⟨A, B, rfl, hA, hB⟩ := hh.apart.split fun c hc => hh.between hc
  have hnodup := hh.nodup
  obtain ⟨hbase, hpos⟩ := hh.pos b (by simp)
  have hapart := hh.apart
  obtain ⟨hapartA, hapartB, -⟩ := pairwise_append.mp hapart
  have hmem_A (a : ℕ × ℕ) (ha : a ∈ A) : a ∈ A ++ B ++ b :: L := by simp [ha]
  have hmem_B (c : ℕ × ℕ) (hc : c ∈ B) : c ∈ A ++ B ++ b :: L := by simp [hc]
  obtain ⟨p, hlast⟩ : ∃ p, (base :: A.map Prod.fst).getLast? = some p :=
    ⟨_, getLast?_eq_some_getLast (cons_ne_nil _ _)⟩
  obtain ⟨l, hl⟩ := getLast?_eq_some_iff.mp hlast
  have hring := hh.ring
  rw [map_append, ← cons_append, append_assoc] at hring
  have hltA (x : ℕ) (hx : x ∈ base :: A.map Prod.fst) : x < b.1 := by
    rcases mem_cons.mp hx with rfl | hx
    · exact hbase
    · obtain ⟨a, ha, rfl⟩ := mem_map.mp hx
      have := hA a ha
      have := (hh.pos a (hmem_A a ha)).2
      omega
  -- the search, and the two joins
  have hloop : freeLoop h b.1 fuel h.freep = some p := by
    have hsorted := hh.increasing
    have hfreep := hh.freep
    rw [map_append, ← cons_append] at hsorted hfreep
    refine freeLoop_eq hring hsorted hltA (fun x hx => ?_) hlast hfreep (by simpa using hfuel)
    obtain ⟨c, hc, rfl⟩ := mem_map.mp hx
    have := hB c hc
    omega
  rw [hl, append_assoc, singleton_append] at hring
  obtain ⟨hchainA, hchainB⟩ := Chained.split.mp hring
  obtain ⟨n, B', hchain', hsize', hother, hcovers, htotal, hapart', hle, hsub⟩ :=
    join_next hchainB hbase (hh.size_toNat (by simp)) (fun c hc => hh.header c (hmem_B c hc)) hB
      hpos hapartB
  have hbase_size : (joinNext h b.1 p).size base = 0 := by
    rw [(hother base (Nat.ne_of_lt hbase)).1, hh.base_size]
  have hheaderA (a : ℕ × ℕ) (ha : a ∈ A) : (joinNext h b.1 p).size a.1 = BitVec.ofNat 32 a.2 ∧
      a.2 < 2 ^ 32 ∧ base < a.1 ∧ 0 < a.2 := by
    have hlt := hltA a.1 (mem_cons_of_mem _ (mem_map_of_mem ha))
    rw [(hother a.1 (Nat.ne_of_lt hlt)).1]
    exact ⟨hh.header a (hmem_A a ha), Nat.lt_of_le_of_lt (le_total (hmem_A a ha)) hh.total_lt,
      hh.pos a (hmem_A a ha)⟩
  have hchainA' : Chained (joinNext h b.1 p).ptr (base :: A.map Prod.fst) := by
    rw [← hl] at hchainA
    refine hchainA.congr fun x hx => ?_
    exact (hother x (Nat.ne_of_lt (hltA x (dropLast_subset _ hx)))).2
  obtain ⟨F', hring', hapartF, hp, hsame, hheaderF, hcoversF, htotalF, c, hc, hbc⟩ :=
    join_prev (b := (b.1, n)) hchainA' hlast hchain' hbase (Nat.lt_of_lt_of_le hpos hle) hbase_size
      hsize' hheaderA hA hapartA hapart'
  have hcovers' (u : ℕ) : covers u (F' ++ L) = covers u (A ++ B ++ b :: L) := by
    have hu := hcovers u
    simp only [covers_append, covers_cons] at hu ⊢
    rw [hcoversF u, covers_append, covers_cons]
    omega
  have htotal' : total (F' ++ L) = total (A ++ B ++ b :: L) := by
    simp only [total_append, total_cons] at htotal ⊢
    rw [htotalF, total_append, total_cons]
    omega
  -- what is neither the block nor one before it keeps its size
  have hkeep (d : ℕ × ℕ) (hd : d ∈ B ++ L) :
      (joinPrev (joinNext h b.1 p) b.1 p).size d.1 = BitVec.ofNat 32 d.2 := by
    have hd' : d.1 ∈ (B ++ L).map Prod.fst := mem_map_of_mem hd
    have hperm : (A ++ B ++ b :: L).Perm (b :: A ++ (B ++ L)) := by
      rw [append_assoc, cons_append]
      exact (List.Perm.append_left A perm_middle).trans perm_middle
    have hnodup' := (hperm.map Prod.fst).nodup_iff.mp hnodup
    rw [map_append, nodup_append] at hnodup'
    have hne (x : ℕ) (hx : x ∈ (b :: A).map Prod.fst) : d.1 ≠ x := (hnodup'.2.2 x hx _ hd').symm
    rw [hsame d.1 fun hdA => hne _ (mem_cons_of_mem _ hdA) rfl,
      (hother d.1 (hne b.1 mem_cons_self)).1]
    exact hh.header d (by rcases mem_append.mp hd with hd | hd <;> simp [hd])
  refine ⟨_, F', by rw [Umalloc.free, hloop]; rfl, ?_, hcovers', htotal', c, hc, hle.trans hbc⟩
  refine ⟨hring', hapartF, hp, ?_, ?_, ?_, fun u => ?_, ?_⟩
  · refine (hsame base fun hmem => ?_).trans hbase_size
    obtain ⟨a, ha, heq⟩ := mem_map.mp hmem
    exact Nat.ne_of_gt (hheaderA a ha).2.2.1 heq
  · intro d hd
    rcases mem_append.mp hd with hd | hd
    · rcases hheaderF d hd with hd | hd
      · exact hh.pos d (hmem_B d (hsub hd))
      · exact hd.2
    · exact hh.pos d (by simp [hd])
  · intro d hd
    rcases mem_append.mp hd with hd | hd
    · rcases hheaderF d hd with hd | hd
      · exact hkeep d (mem_append_left _ (hsub hd))
      · exact hd.1
    · exact hkeep d (mem_append_right _ hd)
  · rw [hcovers' u]
    exact hh.once u
  · rw [htotal']
    exact hh.total_lt

end Xv6.Umalloc
