import Mathlib.Data.Nat.ModEq
import Mathlib.Logic.Function.Basic
import Mathlib.Tactic.Common

/-!
# Ring buffers with wrapping counters

A ring buffer of `N` cells with a read and a write counter of `w` bits that are
never reduced but wrap around. If `N` divides `2 ^ w`, the cell of a counter is
its value modulo `N` across the wrap, and the difference of the counters,
modulo `2 ^ w`, is the number of elements: the buffer is a queue of at most `N`
elements (`contents_push`, `contents_pop`), empty when the counters are equal
(`count_eq_zero`) and full when they differ by `N` (`count_eq_size`).
-/

namespace Xv6

open List

universe u

/-- A ring buffer. -/
structure Ring (α : Type u) (w : ℕ) where
  /-- the cells -/
  data : ℕ → α
  /-- number of elements read, modulo `2 ^ w` -/
  rd : BitVec w
  /-- number of elements written, modulo `2 ^ w` -/
  wr : BitVec w

namespace Ring

variable {α : Type u} {w : ℕ} {N j : ℕ} {r : Ring α w} {a : α}

/-- The number of elements. -/
def count (r : Ring α w) : ℕ := (r.wr - r.rd).toNat

/-- The elements, the oldest first. -/
def contents (N : ℕ) (r : Ring α w) : List α :=
  (List.range r.count).map fun j => r.data ((r.rd.toNat + j) % N)

/-- Add an element. -/
def push (N : ℕ) (r : Ring α w) (a : α) : Ring α w :=
  { r with data := Function.update r.data (r.wr.toNat % N) a, wr := r.wr + 1#w }

/-- The oldest element. -/
def front (N : ℕ) (r : Ring α w) : α := r.data (r.rd.toNat % N)

/-- Remove the oldest element. -/
def pop (r : Ring α w) : Ring α w := { r with rd := r.rd + 1#w }

theorem length_contents (N : ℕ) (r : Ring α w) : (r.contents N).length = r.count := by
  rw [contents, length_map, length_range]

theorem count_lt (r : Ring α w) : r.count < 2 ^ w := (r.wr - r.rd).isLt

/-- The write counter is the read counter plus the number of elements. -/
theorem wr_eq (r : Ring α w) : r.wr.toNat = (r.rd.toNat + r.count) % 2 ^ w := by
  have h := BitVec.toNat_add r.rd (r.wr - r.rd)
  rwa [BitVec.add_comm, BitVec.sub_add_cancel] at h

theorem count_eq_zero : r.count = 0 ↔ r.rd = r.wr := by
  constructor
  · intro h
    rw [← BitVec.toNat_inj, wr_eq, h, Nat.add_zero, Nat.mod_eq_of_lt r.rd.isLt]
  · intro h
    rw [count, h, BitVec.sub_self, BitVec.toNat_zero]

theorem count_eq_size (hN : N < 2 ^ w) : r.count = N ↔ r.wr = r.rd + BitVec.ofNat w N := by
  constructor
  · intro h
    rw [← BitVec.toNat_inj, BitVec.toNat_add, BitVec.toNat_ofNat, wr_eq, h, Nat.mod_eq_of_lt hN]
  · intro h
    rw [count, h, BitVec.add_comm, BitVec.add_sub_cancel, BitVec.toNat_ofNat, Nat.mod_eq_of_lt hN]

/-- Elements at different places of the queue are in different cells. -/
theorem index_ne {b k : ℕ} (hjk : j < k) (hk : k < N) : (b + j) % N ≠ (b + k) % N := by
  intro h
  have hmod : b + j ≡ b + k [MOD N] := h
  have hdvd := (Nat.modEq_iff_dvd' (by omega)).mp hmod
  have hle := Nat.le_of_dvd (by omega) hdvd
  omega

/-- A counter that is one further. -/
theorem toNat_succ (hw : 1 < 2 ^ w) (x : BitVec w) : (x + 1#w).toNat = (x.toNat + 1) % 2 ^ w := by
  rw [BitVec.toNat_add, BitVec.toNat_ofNat, Nat.mod_eq_of_lt hw]

theorem count_push (h : r.count + 1 < 2 ^ w) : (r.push N a).count = r.count + 1 := by
  have hsub : r.wr + 1#w - r.rd = r.wr - r.rd + 1#w := by
    rw [BitVec.sub_eq_add_neg, BitVec.sub_eq_add_neg, BitVec.add_assoc, BitVec.add_assoc,
      BitVec.add_comm 1#w]
  rw [count, push, hsub, toNat_succ (by omega), ← count, Nat.mod_eq_of_lt h]

theorem wr_cell (hdvd : N ∣ 2 ^ w) : r.wr.toNat % N = (r.rd.toNat + r.count) % N := by
  rw [wr_eq, Nat.mod_mod_of_dvd _ hdvd]

/-- Writing the next cell changes no element: their cells are others. -/
theorem contents_write (hdvd : N ∣ 2 ^ w) (h : r.count < N) :
    ({ r with data := Function.update r.data (r.wr.toNat % N) a } : Ring α w).contents N =
      r.contents N := by
  refine map_congr_left fun j hj => Function.update_of_ne ?_ ..
  rw [wr_cell hdvd]
  exact index_ne (mem_range.mp hj) h

/-- Counting the next cell makes it the last element. -/
theorem contents_count (hdvd : N ∣ 2 ^ w) (h : r.count + 1 < 2 ^ w) :
    ({ r with wr := r.wr + 1#w } : Ring α w).contents N =
      r.contents N ++ [r.data (r.wr.toNat % N)] := by
  have hcount : ({ r with wr := r.wr + 1#w } : Ring α w).count = r.count + 1 :=
    count_push (N := N) (a := r.data 0) h
  rw [contents, hcount, range_succ, map_append, wr_cell hdvd]
  rfl

/-- **Adding an element** puts it at the end. -/
theorem contents_push (hdvd : N ∣ 2 ^ w) (hlt : N < 2 ^ w) (h : r.count < N) :
    (r.push N a).contents N = r.contents N ++ [a] := by
  have hwrite := contents_write (a := a) hdvd h
  have hcount := contents_count
    (r := { r with data := Function.update r.data (r.wr.toNat % N) a }) hdvd (by
      show r.count + 1 < _
      omega)
  rw [hwrite] at hcount
  dsimp only at hcount
  rwa [Function.update_self] at hcount

theorem count_pop (h : r.rd ≠ r.wr) : r.count = r.pop.count + 1 := by
  have hne : r.count ≠ 0 := fun h0 => h (count_eq_zero.mp h0)
  have hlt := r.count_lt
  have hadd : r.wr - r.rd = r.wr - (r.rd + 1#w) + 1#w := by
    rw [BitVec.sub_eq_add_neg, BitVec.sub_eq_add_neg, BitVec.neg_add, BitVec.add_assoc,
      BitVec.sub_add_cancel]
  have hcount : r.count = (r.pop.count + 1) % 2 ^ w := by
    rw [count, hadd, toNat_succ (by omega)]
    rfl
  -- the sum does not wrap around: it would be 0
  have hpop := r.pop.count_lt
  rcases Nat.lt_or_ge (r.pop.count + 1) (2 ^ w) with h1 | h1
  · rwa [Nat.mod_eq_of_lt h1] at hcount
  · rw [show r.pop.count + 1 = 2 ^ w by omega, Nat.mod_self] at hcount
    exact absurd hcount hne

/-- **Removing an element** takes it from the front. -/
theorem contents_pop (hdvd : N ∣ 2 ^ w) (h : r.rd ≠ r.wr) :
    r.contents N = r.front N :: r.pop.contents N := by
  have hw : 1 < 2 ^ w := by
    have := count_pop h
    have := r.count_lt
    omega
  rw [contents, count_pop h, range_succ_eq_map, map_cons, map_map, Nat.add_zero,
    contents, front]
  congr 1
  refine map_congr_left fun j _ => ?_
  show r.data ((r.rd.toNat + (j + 1)) % N) = r.data (((r.rd + 1#w).toNat + j) % N)
  rw [toNat_succ hw, Nat.add_mod (_ % _), Nat.mod_mod_of_dvd _ hdvd, ← Nat.add_mod, Nat.add_assoc,
    Nat.add_comm 1]

/-! ## Moving the counters -/

section

variable {d : ℕ → α} {a b c : BitVec w}

theorem count_append (h : (⟨d, a, b⟩ : Ring α w).count + (⟨d, b, c⟩ : Ring α w).count < 2 ^ w) :
    (⟨d, a, c⟩ : Ring α w).count =
      (⟨d, a, b⟩ : Ring α w).count + (⟨d, b, c⟩ : Ring α w).count := by
  have hsub : c - a = (b - a) + (c - b) := by
    rw [BitVec.sub_eq_add_neg, BitVec.sub_eq_add_neg, BitVec.sub_eq_add_neg, BitVec.add_comm b,
      BitVec.add_assoc, ← BitVec.add_assoc b, BitVec.add_comm b, BitVec.add_assoc c,
      ← BitVec.sub_eq_add_neg b, BitVec.sub_self, BitVec.add_zero, BitVec.add_comm]
  simp only [count] at h ⊢
  rw [hsub, BitVec.toNat_add, Nat.mod_eq_of_lt h]

/-- The elements up to a place between the counters, and those after it. -/
theorem contents_append (hdvd : N ∣ 2 ^ w)
    (h : (⟨d, a, b⟩ : Ring α w).count + (⟨d, b, c⟩ : Ring α w).count < 2 ^ w) :
    (⟨d, a, c⟩ : Ring α w).contents N =
      (⟨d, a, b⟩ : Ring α w).contents N ++ (⟨d, b, c⟩ : Ring α w).contents N := by
  rw [contents, count_append h, range_add, map_append, map_map]
  congr 1
  refine map_congr_left fun j _ => ?_
  have hcell : b.toNat % N = (a.toNat + (⟨d, a, b⟩ : Ring α w).count) % N :=
    wr_cell (r := ⟨d, a, b⟩) hdvd
  show d ((a.toNat + ((⟨d, a, b⟩ : Ring α w).count + j)) % N) = d ((b.toNat + j) % N)
  rw [← Nat.add_assoc, Nat.add_mod, ← hcell, ← Nat.add_mod]

theorem count_unpush (h : a ≠ b) :
    (⟨d, a, b⟩ : Ring α w).count = (⟨d, a, b - 1#w⟩ : Ring α w).count + 1 := by
  have hne : (⟨d, a, b⟩ : Ring α w).count ≠ 0 := fun h0 => h (count_eq_zero.mp h0)
  have hlt := (⟨d, a, b⟩ : Ring α w).count_lt
  have hlt' := (⟨d, a, b - 1#w⟩ : Ring α w).count_lt
  have hsub : b - a = (b - 1#w - a) + 1#w := by
    rw [BitVec.sub_eq_add_neg (b - 1#w), BitVec.add_assoc, BitVec.add_comm (-a),
      ← BitVec.add_assoc, BitVec.sub_add_cancel, ← BitVec.sub_eq_add_neg]
  have hcount : (⟨d, a, b⟩ : Ring α w).count =
      ((⟨d, a, b - 1#w⟩ : Ring α w).count + 1) % 2 ^ w := by
    simp only [count] at hne hlt ⊢
    rw [hsub, toNat_succ (by omega)]
  rcases Nat.lt_or_ge ((⟨d, a, b - 1#w⟩ : Ring α w).count + 1) (2 ^ w) with h1 | h1
  · rwa [Nat.mod_eq_of_lt h1] at hcount
  · rw [show (⟨d, a, b - 1#w⟩ : Ring α w).count + 1 = 2 ^ w by omega, Nat.mod_self] at hcount
    exact absurd hcount hne

/-- **Taking back the last element.** -/
theorem contents_unpush (h : a ≠ b) : (⟨d, a, b - 1#w⟩ : Ring α w).contents N =
    ((⟨d, a, b⟩ : Ring α w).contents N).dropLast := by
  rw [contents, contents, count_unpush h, range_succ, map_append, map_singleton,
    dropLast_concat]

end

end Ring

end Xv6
