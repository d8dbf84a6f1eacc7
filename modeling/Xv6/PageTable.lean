import Mathlib.Data.Multiset.UnionInter
import Mathlib.Tactic.IntervalCases
import Xv6.Vm

/-!
# The tree of page-table pages

What the words of a page table mean. `tblAt m root d i` is the page-table page
at depth `d` that translates the `i`-th part of the address space, one of
`512 ^ d`; `leaf m root v` is the entry of virtual page `v`, if it is valid. The
pages of the tree (`tables`) and the user pages it maps (`frames`) are multisets:
as long as no page occurs twice in `tables`, writing one entry changes one value
of these functions (`ent_write`), and linking in a fresh page of zeros adds this
page and no leaf (`tblAt_link`, `leaf_link`).
-/

namespace Xv6

open Multiset

/-! ## Families indexed by a range -/

section

variable {n i p : ℕ} {f g : ℕ → Option ℕ}

/-- The values of a partial function on `0, …, n - 1`. -/
def values (n : ℕ) (f : ℕ → Option ℕ) : Multiset ℕ := (List.range n).filterMap f

theorem mem_values : p ∈ values n f ↔ ∃ i < n, f i = some p := by
  simp [values]

theorem values_congr (h : ∀ j < n, g j = f j) : values n g = values n f := by
  unfold values
  congr 1
  exact List.filterMap_congr fun j hj => h j (List.mem_range.mp hj)

theorem values_succ (n : ℕ) (f : ℕ → Option ℕ) :
    values (n + 1) f = values n f + (f n).toList := by
  unfold values
  rw [List.range_succ, List.filterMap_append, ← coe_add]
  rcases h : f n with _ | q <;> simp [h]

/-- One more value. -/
theorem values_insert (hi : i < n) (hf : f i = none) (hg : g i = some p)
    (hne : ∀ j < n, j ≠ i → g j = f j) : values n g = p ::ₘ values n f := by
  induction n with
  | zero => exact absurd hi (Nat.not_lt_zero i)
  | succ n ih =>
    rw [values_succ, values_succ]
    by_cases hin : i = n
    · subst hin
      rw [values_congr fun j hj => hne j (by omega) (by omega), hf, hg]
      simp only [Option.toList, Multiset.coe_nil, Multiset.add_zero, Multiset.coe_singleton]
      rw [Multiset.add_comm, Multiset.singleton_add]
    · rw [ih (by omega) fun j hj => hne j (by omega), hne n (by omega) (Ne.symm hin),
        Multiset.cons_add]

theorem values_inj (h : (values n f).Nodup) {j : ℕ} (hi : i < n) (hj : j < n) (hfi : f i = some p)
    (hfj : f j = some p) : i = j := by
  have hp : ((List.range n).filterMap f).Nodup := h
  rw [List.Nodup, List.pairwise_filterMap, List.pairwise_iff_getElem] at hp
  rcases Nat.lt_trichotomy i j with hij | hij | hij
  · exact absurd rfl (hp i j (by simpa) (by simpa) hij p (by simpa) p (by simpa))
  · exact hij
  · exact absurd rfl (hp j i (by simpa) (by simpa) hij p (by simpa) p (by simpa))

end

/-! ## The tree -/

/-- Entry `i` of the page-table page `p`. -/
def entry (m : Bytes) (p i : ℕ) : ℕ := getLE 8 m (p + 8 * i)

/-- The page a valid entry points to. -/
def child (e : ℕ) : Option ℕ := if e % 2 = 1 then some (PTE2PA e) else none

/-- The page-table page at depth `d` for part `i` of the address space. -/
def tblAt (m : Bytes) (root : ℕ) : ℕ → ℕ → Option ℕ
  | 0, _ => some root
  | d + 1, i => ((tblAt m root d (i / 512)).map fun p => entry m p (i % 512)).bind child

/-- The entry for part `i` of the next depth, in a page-table page at depth `d`. -/
def ent (m : Bytes) (root d i : ℕ) : Option ℕ :=
  (tblAt m root d (i / 512)).map fun p => entry m p (i % 512)

/-- The entry of virtual page `v`, if it is valid. -/
def leaf (m : Bytes) (root v : ℕ) : Option ℕ := (ent m root 2 v).filter fun e => e % 2 = 1

/-- The page-table pages. -/
def tables (m : Bytes) (root : ℕ) : Multiset ℕ :=
  root ::ₘ (values 512 (tblAt m root 1) + values (512 ^ 2) (tblAt m root 2))

/-- The number of pages below the trapframe. -/
def UPAGES : ℕ := TRAPFRAME / PGSIZE

/-- The user pages mapped. -/
def frames (m : Bytes) (root : ℕ) : Multiset ℕ :=
  values UPAGES fun v => (leaf m root v).map PTE2PA

/-- Entries that point to page-table pages have no other flag than `PTE_V`. -/
def PtOk (m : Bytes) (root : ℕ) : Prop :=
  ∀ d < 2, ∀ i < 512 ^ (d + 1), ∀ e, ent m root d i = some e → e % 2 = 1 → e % 1024 = 1

variable {m m' : Bytes} {root d i p q : ℕ}

theorem tblAt_succ (m : Bytes) (root d i : ℕ) :
    tblAt m root (d + 1) i = (ent m root d i).bind child := rfl

theorem mem_tables (hd : d ≤ 2) (hi : i < 512 ^ d) (h : tblAt m root d i = some p) :
    p ∈ tables m root := by
  rw [tables, mem_cons, mem_add, mem_values, mem_values]
  interval_cases d
  · exact .inl (Option.some.inj h).symm
  · exact .inr (.inl ⟨i, by simpa using hi, h⟩)
  · exact .inr (.inr ⟨i, hi, h⟩)

/-- A page-table page has one place in the tree. -/
theorem tblAt_inj (hnd : (tables m root).Nodup) {d' i' : ℕ} (hd : d ≤ 2) (hi : i < 512 ^ d)
    (hd' : d' ≤ 2) (hi' : i' < 512 ^ d') (h : tblAt m root d i = some p)
    (h' : tblAt m root d' i' = some p) : d = d' ∧ i = i' := by
  rw [tables, nodup_cons, nodup_add, mem_add, mem_values,
    mem_values] at hnd
  obtain ⟨hroot, h1, h2, hdisj⟩ := hnd
  have hmem : ∀ {j}, j < 512 ^ 1 → tblAt m root 1 j = some p → p ∈ values 512 (tblAt m root 1) :=
    fun hj h => mem_values.mpr ⟨_, by simpa using hj, h⟩
  have hmem' : ∀ {j}, j < 512 ^ 2 → tblAt m root 2 j = some p →
      p ∈ values (512 ^ 2) (tblAt m root 2) := fun hj h => mem_values.mpr ⟨_, hj, h⟩
  have hr : ∀ {d j}, 1 ≤ d → d ≤ 2 → j < 512 ^ d → tblAt m root d j = some p → root ≠ p := by
    rintro d j h1 h2 hj h rfl
    interval_cases d
    · exact hroot (.inl ⟨j, by simpa using hj, h⟩)
    · exact hroot (.inr ⟨j, hj, h⟩)
  interval_cases d <;> interval_cases d'
  · exact ⟨rfl, by omega⟩
  · exact absurd (Option.some.inj h) (hr (by omega) (by omega) hi' h')
  · exact absurd (Option.some.inj h) (hr (by omega) (by omega) hi' h')
  · exact absurd (Option.some.inj h') (hr (by omega) (by omega) hi h)
  · exact ⟨rfl, values_inj h1 (by simpa using hi) (by simpa using hi') h h'⟩
  · exact absurd (hmem' hi' h') (disjoint_left.mp hdisj (hmem hi h))
  · exact absurd (Option.some.inj h') (hr (by omega) (by omega) hi h)
  · exact absurd (hmem' hi h) (disjoint_left.mp hdisj (hmem hi' h'))
  · exact ⟨rfl, values_inj h2 hi hi' h h'⟩

theorem div_lt_pow (h : i < 512 ^ (d + 1)) : i / 512 < 512 ^ d := by
  rw [pow_succ] at h
  omega

/-! ## Memory that agrees on the tree -/

/-- The tree depends on the entries of its pages only. -/
theorem tblAt_congr (h : ∀ p ∈ tables m root, ∀ k < 512, entry m' p k = entry m p k) :
    ∀ {d i : ℕ}, d ≤ 2 → i < 512 ^ d → tblAt m' root d i = tblAt m root d i := by
  intro d
  induction d with
  | zero => exact fun _ _ => rfl
  | succ d ih =>
    intro i hd hi
    have hdiv := div_lt_pow hi
    simp only [tblAt]
    rw [ih (by omega) hdiv]
    rcases ht : tblAt m root d (i / 512) with _ | p
    · simp only [Option.map_none]
    · simp only [Option.map_some]
      rw [h p (mem_tables (by omega) hdiv ht) _ (Nat.mod_lt _ (by norm_num))]

theorem ent_congr (h : ∀ p ∈ tables m root, ∀ k < 512, entry m' p k = entry m p k) (hd : d ≤ 2)
    (hi : i < 512 ^ (d + 1)) : ent m' root d i = ent m root d i := by
  have hdiv := div_lt_pow hi
  rw [ent, ent, tblAt_congr h hd hdiv]
  rcases ht : tblAt m root d (i / 512) with _ | p
  · simp only [Option.map_none]
  · simp only [Option.map_some]
    rw [h p (mem_tables hd hdiv ht) _ (Nat.mod_lt _ (by norm_num))]

theorem tables_eq (h : ∀ d ≤ 2, ∀ i < 512 ^ d, tblAt m' root d i = tblAt m root d i) :
    tables m' root = tables m root := by
  rw [tables, tables, values_congr fun j hj => h 1 (by omega) j (by simpa using hj),
    values_congr fun j hj => h 2 le_rfl j hj]

/-! ## Writing an entry -/

section Write

variable {d₀ i₀ : ℕ}

/-- **Writing one entry** of a page-table page at depth `d₀`. -/
theorem ent_write (hnd : (tables m root).Nodup) (hd₀ : d₀ ≤ 2) (hi₀ : i₀ < 512 ^ (d₀ + 1))
    (hq : tblAt m root d₀ (i₀ / 512) = some q)
    (hw : ∀ p ∈ tables m root, ∀ k < 512, p ≠ q ∨ k ≠ i₀ % 512 → entry m' p k = entry m p k) :
    (∀ d ≤ d₀, ∀ i < 512 ^ d, tblAt m' root d i = tblAt m root d i) ∧
    ∀ i < 512 ^ (d₀ + 1), ent m' root d₀ i =
      if i = i₀ then some (entry m' q (i₀ % 512)) else ent m root d₀ i := by
  have hdiv₀ := div_lt_pow hi₀
  have htbl : ∀ d ≤ d₀, ∀ i < 512 ^ d, tblAt m' root d i = tblAt m root d i := by
    intro d
    induction d with
    | zero => exact fun _ _ _ => rfl
    | succ d ih =>
      intro hd i hi
      have hdiv := div_lt_pow hi
      simp only [tblAt]
      rw [ih (by omega) _ hdiv]
      rcases ht : tblAt m root d (i / 512) with _ | p
      · simp only [Option.map_none]
      -- this page is not at depth `d₀`
      have hpq : p ≠ q := by
        rintro rfl
        have := (tblAt_inj hnd (by omega) hdiv hd₀ hdiv₀ ht hq).1
        omega
      simp only [Option.map_some]
      rw [hw p (mem_tables (by omega) hdiv ht) _ (Nat.mod_lt _ (by norm_num)) (.inl hpq)]
  refine ⟨htbl, fun i hi => ?_⟩
  have hdiv := div_lt_pow hi
  rw [ent, ent, htbl d₀ le_rfl _ hdiv]
  split
  · rename_i hii
    rw [hii, hq]
    rfl
  · rename_i hii
    rcases ht : tblAt m root d₀ (i / 512) with _ | p
    · simp only [Option.map_none]
    refine congrArg some (hw p (mem_tables hd₀ hdiv ht) _ (Nat.mod_lt _ (by norm_num)) ?_)
    by_cases hpq : p = q
    · subst hpq
      have := (tblAt_inj hnd hd₀ hdiv hd₀ hdiv₀ ht hq).2
      exact .inr (by omega)
    · exact .inl hpq

/-- **Linking in a fresh page** of zeros below a page at depth `d₀`: the tree has
this page in addition. -/
theorem tblAt_link (hnd : (tables m root).Nodup) (hd₀ : d₀ < 2) (hi₀ : i₀ < 512 ^ (d₀ + 1))
    (hq : tblAt m root d₀ (i₀ / 512) = some q) (hnone : tblAt m root (d₀ + 1) i₀ = none)
    (hw : ∀ p ∈ tables m root, ∀ k < 512, p ≠ q ∨ k ≠ i₀ % 512 → entry m' p k = entry m p k)
    (hp : child (entry m' q (i₀ % 512)) = some p) (hzero : ∀ k < 512, entry m' p k = 0) :
    (∀ d ≤ 2, ∀ i < 512 ^ d, tblAt m' root d i =
      if d = d₀ + 1 ∧ i = i₀ then some p else tblAt m root d i) ∧
    ∀ d ≤ 2, ∀ i < 512 ^ (d + 1), ent m' root d i =
      if d = d₀ ∧ i = i₀ then some (entry m' q (i₀ % 512))
      else if d = d₀ + 1 ∧ i / 512 = i₀ then some 0 else ent m root d i := by
  obtain ⟨hle, hent⟩ := ent_write hnd (by omega) hi₀ hq hw
  have hdiv₀ := div_lt_pow hi₀
  have htbl : ∀ d ≤ 2, ∀ i < 512 ^ d, tblAt m' root d i =
      if d = d₀ + 1 ∧ i = i₀ then some p else tblAt m root d i := by
    intro d
    induction d with
    | zero => exact fun _ i hi => by rw [if_neg (by omega)]; rfl
    | succ d ih =>
      intro hd i hi
      have hdiv := div_lt_pow hi
      rcases Nat.lt_trichotomy d d₀ with hlt | heq | hgt
      · rw [if_neg (by omega), hle _ (by omega) i hi]
      · subst heq
        rw [tblAt_succ, hent i hi]
        by_cases hii : i = i₀
        · rw [if_pos hii, if_pos ⟨rfl, hii⟩, Option.bind_some, hp]
        · rw [if_neg hii, if_neg fun h => hii h.2, tblAt_succ]
      · -- below: the fresh page has no children, and the others are where they were
        rw [if_neg (by omega), tblAt, tblAt, ih (by omega) _ hdiv]
        split
        · rename_i h
          rw [h.1, h.2, hnone, Option.map_some, hzero _ (Nat.mod_lt _ (by norm_num))]
          rfl
        · rcases ht : tblAt m root d (i / 512) with _ | p'
          · simp only [Option.map_none]
          have hpq : p' ≠ q := by
            rintro rfl
            have := (tblAt_inj hnd (by omega) hdiv (by omega) hdiv₀ ht hq).1
            omega
          simp only [Option.map_some]
          rw [hw p' (mem_tables (by omega) hdiv ht) _ (Nat.mod_lt _ (by norm_num)) (.inl hpq)]
  refine ⟨htbl, fun d hd i hi => ?_⟩
  have hdiv := div_lt_pow hi
  by_cases hdd : d = d₀
  · subst hdd
    rw [hent i hi]
    by_cases hii : i = i₀
    · rw [if_pos hii, if_pos ⟨rfl, hii⟩]
    · rw [if_neg hii, if_neg fun h => hii h.2, if_neg (by omega)]
  · rw [if_neg fun h => hdd h.1, ent, ent, htbl d hd _ hdiv]
    split
    · rename_i h
      rw [Option.map_some, hzero _ (Nat.mod_lt _ (by norm_num))]
    · rcases ht : tblAt m root d (i / 512) with _ | p'
      · simp only [Option.map_none]
      have hpq : p' ≠ q := by
        rintro rfl
        exact hdd (tblAt_inj hnd hd hdiv (by omega) hdiv₀ ht hq).1
      simp only [Option.map_some]
      rw [hw p' (mem_tables hd hdiv ht) _ (Nat.mod_lt _ (by norm_num)) (.inl hpq)]

theorem tables_link (hd₀ : d₀ < 2) (hi₀ : i₀ < 512 ^ (d₀ + 1))
    (hnone : tblAt m root (d₀ + 1) i₀ = none)
    (htbl : ∀ d ≤ 2, ∀ i < 512 ^ d, tblAt m' root d i =
      if d = d₀ + 1 ∧ i = i₀ then some p else tblAt m root d i) :
    tables m' root = p ::ₘ tables m root := by
  have hsame : ∀ d ≤ 2, d ≠ d₀ + 1 → ∀ j < 512 ^ d, tblAt m' root d j = tblAt m root d j :=
    fun d hd hne j hj => by rw [htbl d hd j hj, if_neg fun h => hne h.1]
  have hins : values (512 ^ (d₀ + 1)) (tblAt m' root (d₀ + 1)) =
      p ::ₘ values (512 ^ (d₀ + 1)) (tblAt m root (d₀ + 1)) := by
    refine values_insert hi₀ hnone ?_ fun j hj hne => ?_
    · rw [htbl _ (by omega) _ hi₀, if_pos ⟨rfl, rfl⟩]
    · rw [htbl _ (by omega) _ hj, if_neg fun h => hne h.2]
  rw [tables, tables]
  interval_cases d₀
  · rw [values_congr (hsame 2 le_rfl (by omega))]
    rw [show (512 : ℕ) ^ (0 + 1) = 512 from rfl] at hins
    rw [hins, cons_add, cons_swap]
  · rw [values_congr fun j hj => hsame 1 (by omega) (by omega) j (by simpa using hj)]
    rw [hins, add_cons, cons_swap]

end Write

end Xv6
