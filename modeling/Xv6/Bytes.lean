import Mathlib.Logic.Function.Basic
import Mathlib.Tactic.Common
import Mathlib.Tactic.Ring

/-!
# Byte stores and little-endian fields

A byte store is a function from offsets to bytes: a disk block, a page, the
whole of physical memory. Fields of C structures live in such stores as
little-endian numbers; `getLE`/`putLE` read and write them at any width, and
the lemmas below are the only facts later proofs use about the encoding:

* a field reads back what was written to it, if the value fits (`getLE_putLE`);
* a write leaves every disjoint field alone (`getLE_putLE_of_disjoint`);
* a field depends on its own bytes only (`getLE_congr`).
-/

namespace Xv6

/-- A byte store: offset to byte. -/
abbrev Bytes : Type := ℕ → UInt8

/-- The little-endian number in the `w` bytes at offset `a`. -/
def getLE : (w : ℕ) → Bytes → ℕ → ℕ
  | 0, _, _ => 0
  | w + 1, m, a => (m a).toNat + 256 * getLE w m (a + 1)

/-- Store the low `w` bytes of `x`, little-endian, at offset `a`. -/
def putLE (w : ℕ) (m : Bytes) (a x : ℕ) : Bytes := fun i =>
  if a ≤ i ∧ i < a + w then UInt8.ofNat (x / 256 ^ (i - a)) else m i

/-- Fill the `n` bytes at offset `a` with the byte `c`. -/
def memset (m : Bytes) (a : ℕ) (c : UInt8) (n : ℕ) : Bytes := fun i =>
  if a ≤ i ∧ i < a + n then c else m i

/-- Copy `n` bytes from offset `src` of `from_` to offset `dst` of `m`. -/
def memmove (m : Bytes) (dst : ℕ) (from_ : Bytes) (src n : ℕ) : Bytes := fun i =>
  if dst ≤ i ∧ i < dst + n then from_ (src + (i - dst)) else m i

/-- Write bytes, from `a` on. -/
def putBytes (m : Bytes) (a : ℕ) (src : List UInt8) : Bytes := fun i =>
  if a ≤ i ∧ i < a + src.length then src.getD (i - a) 0 else m i

/-- Read `n` bytes, from `a` on. -/
def getBytes (m : Bytes) (a n : ℕ) : List UInt8 := (List.range n).map fun i => m (a + i)

/-- A number in the bytes read from a file. -/
def field (bytes : List UInt8) (w off : ℕ) : ℕ := getLE w (fun i => bytes.getD i 0) off

theorem putLE_of_lt {w a x i : ℕ} (m : Bytes) (h : i < a) : putLE w m a x i = m i :=
  if_neg (by omega)

theorem putLE_of_ge {w a x i : ℕ} (m : Bytes) (h : a + w ≤ i) : putLE w m a x i = m i :=
  if_neg (by omega)

/-- A field depends on its own bytes only. -/
theorem getLE_congr {m m' : Bytes} :
    ∀ {w a : ℕ}, (∀ i, a ≤ i → i < a + w → m i = m' i) → getLE w m a = getLE w m' a
  | 0, _, _ => rfl
  | w + 1, a, h => by
    have hrest : getLE w m (a + 1) = getLE w m' (a + 1) :=
      getLE_congr fun i hi hi' => h i (by omega) (by omega)
    rw [getLE, getLE, h a (le_refl a) (by omega), hrest]

theorem getLE_lt (m : Bytes) : ∀ (w a : ℕ), getLE w m a < 256 ^ w
  | 0, _ => by simp [getLE]
  | w + 1, a => by
    have hb : (m a).toNat < 256 := (m a).toNat_lt
    have hrest := getLE_lt m w (a + 1)
    rw [getLE, pow_succ]
    omega

/-- The tail of a store of `x` is a store of `x / 256` one byte further on. -/
theorem getLE_putLE_tail (w : ℕ) (m : Bytes) (a x : ℕ) :
    getLE w (putLE (w + 1) m a x) (a + 1) = getLE w (putLE w m (a + 1) (x / 256)) (a + 1) := by
  refine getLE_congr fun i hi hi' => ?_
  have hexp : i - a = (i - (a + 1)) + 1 := by omega
  rw [putLE, putLE, if_pos (by omega), if_pos (by omega), hexp, pow_succ, mul_comm,
    ← Nat.div_div_eq_div_mul]

/-- **Round trip**: a field reads back a value that fits in it. -/
theorem getLE_putLE (m : Bytes) :
    ∀ {w : ℕ} (a : ℕ) {x : ℕ}, x < 256 ^ w → getLE w (putLE w m a x) a = x
  | 0, a, x, h => by
    have : x = 0 := by simpa using h
    rw [getLE, this]
  | w + 1, a, x, h => by
    have hq : x / 256 < 256 ^ w := by
      exact Nat.div_lt_of_lt_mul (by omega)
    have hhead : (putLE (w + 1) m a x a).toNat = x % 256 := by
      simp [putLE]
    rw [getLE, hhead, getLE_putLE_tail, getLE_putLE m (a + 1) hq]
    omega

/-- A write leaves a disjoint field alone. -/
theorem getLE_putLE_of_disjoint {w v a b : ℕ} (m : Bytes) (x : ℕ)
    (h : b + w ≤ a ∨ a + v ≤ b) : getLE w (putLE v m a x) b = getLE w m b := by
  refine getLE_congr fun i hi hi' => ?_
  rcases h with h | h
  · exact putLE_of_lt m (by omega)
  · exact putLE_of_ge m (by omega)

/-- Zero bytes encode zero. -/
theorem getLE_eq_zero {m : Bytes} :
    ∀ {w a : ℕ}, (∀ i, a ≤ i → i < a + w → m i = 0) → getLE w m a = 0
  | 0, _, _ => rfl
  | w + 1, a, h => by
    have hrest : getLE w m (a + 1) = 0 := getLE_eq_zero fun i hi hi' => h i (by omega) (by omega)
    rw [getLE, h a (le_refl a) (by omega), hrest]
    rfl

end Xv6
