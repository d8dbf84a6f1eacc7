import Mathlib.Algebra.Order.BigOperators.Group.List
import Mathlib.Algebra.Order.Ring.Nat

/-!
# Blocks of memory

A block is given by its start and its length. `covers u L` counts the blocks of
`L` that a unit is in: lists of blocks that cover every unit equally often are
the same memory, cut in different ways, and a list that covers no unit twice has
disjoint blocks. Cutting a block and joining two that are adjacent is `cover_add`.
-/

namespace Xv6.Blocks

open List

/-- Is `u` in the block? -/
def cover (u : ℕ) (b : ℕ × ℕ) : ℕ := if b.1 ≤ u ∧ u < b.1 + b.2 then 1 else 0

/-- The number of blocks that `u` is in. -/
def covers (u : ℕ) (L : List (ℕ × ℕ)) : ℕ := (L.map (cover u)).sum

/-- The length of all blocks together. -/
def total (L : List (ℕ × ℕ)) : ℕ := (L.map Prod.snd).sum

/-- The blocks come in order, and there is room between them. -/
def Separated (L : List (ℕ × ℕ)) : Prop := L.Pairwise fun b c => b.1 + b.2 < c.1

variable {u : ℕ} {b c : ℕ × ℕ} {L L' : List (ℕ × ℕ)}

theorem cover_eq_one (h : b.1 ≤ u) (h' : u < b.1 + b.2) : cover u b = 1 := if_pos ⟨h, h'⟩

/-- **A block is cut.** -/
theorem cover_add (u a m n : ℕ) : cover u (a, m + n) = cover u (a, m) + cover u (a + m, n) := by
  unfold cover
  split_ifs <;> omega

@[simp]
theorem covers_nil : covers u [] = 0 := rfl

@[simp]
theorem covers_cons : covers u (b :: L) = cover u b + covers u L := sum_cons

@[simp]
theorem covers_append : covers u (L ++ L') = covers u L + covers u L' := by
  rw [covers, map_append, sum_append]
  rfl

theorem covers_perm (h : L.Perm L') : covers u L = covers u L' := (h.map _).sum_eq

@[simp]
theorem total_nil : total [] = 0 := rfl

@[simp]
theorem total_cons : total (b :: L) = b.2 + total L := sum_cons

@[simp]
theorem total_append : total (L ++ L') = total L + total L' := by
  rw [total, map_append, sum_append]
  rfl

theorem total_perm (h : L.Perm L') : total L = total L' := (h.map _).sum_eq

theorem cover_le_covers (h : b ∈ L) : cover u b ≤ covers u L :=
  le_sum_of_mem (mem_map_of_mem h)

theorem le_total (h : b ∈ L) : b.2 ≤ total L := le_sum_of_mem (mem_map_of_mem h)

theorem length_le_total (h : ∀ b ∈ L, 0 < b.2) : L.length ≤ total L := by
  induction L with
  | nil => exact le_rfl
  | cons b L ih =>
    have hb := h b mem_cons_self
    have hL := ih fun c hc => h c (mem_cons_of_mem _ hc)
    rw [length_cons, total_cons]
    omega

/-- A unit that is in no block. -/
theorem covers_eq_zero (h : ∀ b ∈ L, u < b.1 ∨ b.1 + b.2 ≤ u) : covers u L = 0 := by
  rw [covers, sum_eq_zero_iff]
  intro n hn
  obtain ⟨b, hb, rfl⟩ := mem_map.mp hn
  exact if_neg fun hu => by
    have := h b hb
    omega

/-- A unit that is covered is in a block. -/
theorem exists_of_covers (h : covers u L ≠ 0) : ∃ b ∈ L, b.1 ≤ u ∧ u < b.1 + b.2 := by
  by_contra hno
  refine h (covers_eq_zero fun b hb => ?_)
  by_contra hu
  exact hno ⟨b, hb, by omega, by omega⟩

/-- **Blocks that cover no unit twice are disjoint.** -/
theorem disjoint_of_covers (h : ∀ u, covers u L ≤ 1) (hpos : ∀ b ∈ L, 0 < b.2) :
    L.Pairwise fun b c => b.1 + b.2 ≤ c.1 ∨ c.1 + c.2 ≤ b.1 := by
  induction L with
  | nil => exact List.Pairwise.nil
  | cons b L ih =>
    have hb := hpos b mem_cons_self
    refine pairwise_cons.mpr ⟨fun c hc => ?_, ih (fun u => ?_) fun c hc => ?_⟩
    · -- otherwise the later one of the two starts would be in both
      by_contra hmeet
      have hcpos := hpos c (mem_cons_of_mem _ hc)
      have hu := h (max b.1 c.1)
      have hle := cover_le_covers (u := max b.1 c.1) hc
      rw [cover_eq_one (by omega) (by omega)] at hle
      rw [covers_cons, cover_eq_one (by omega) (by omega)] at hu
      omega
    · have hu := h u
      rw [covers_cons] at hu
      omega
    · exact hpos c (mem_cons_of_mem _ hc)

/-- No two blocks start at the same unit. -/
theorem nodup_starts (h : ∀ u, covers u L ≤ 1) (hpos : ∀ b ∈ L, 0 < b.2) :
    (L.map Prod.fst).Nodup := by
  refine pairwise_map.mpr ((disjoint_of_covers h hpos).imp_of_mem ?_)
  intro b c hb hc hbc
  have := hpos b hb
  have := hpos c hc
  omega

theorem Separated.starts (h : Separated L) : (L.map Prod.fst).Pairwise (· < ·) :=
  pairwise_map.mpr (h.imp fun hbc => by omega)

/-- **Where a block belongs**: those before it, and those after it. -/
theorem Separated.split (h : Separated L) (hb : ∀ c ∈ L, b.1 + b.2 ≤ c.1 ∨ c.1 + c.2 ≤ b.1) :
    ∃ A B, L = A ++ B ∧ (∀ a ∈ A, a.1 + a.2 ≤ b.1) ∧ ∀ c ∈ B, b.1 + b.2 ≤ c.1 := by
  induction L with
  | nil => exact ⟨[], [], rfl, by simp, by simp⟩
  | cons c L ih =>
    obtain ⟨hc, hL⟩ := pairwise_cons.mp h
    rcases hb c mem_cons_self with hlt | hge
    · refine ⟨[], c :: L, rfl, by simp, fun d hd => ?_⟩
      rcases mem_cons.mp hd with rfl | hd
      · exact hlt
      · have := hc d hd
        omega
    · obtain ⟨A, B, rfl, hA, hB⟩ := ih hL fun d hd => hb d (mem_cons_of_mem _ hd)
      refine ⟨c :: A, B, rfl, fun a ha => ?_, hB⟩
      rcases mem_cons.mp ha with rfl | ha
      · exact hge
      · exact hA a ha

end Xv6.Blocks
