import Mathlib.Logic.Function.Basic
import Mathlib.Tactic.Common
import Xv6.Bytes

/-!
# The two `memmove`s (`kernel/string.c`, `user/ulib.c`)

The kernel's copy and the user library's decide differently whether to go up or
down: the kernel goes down only if the regions overlap with the source below the
destination, the library goes down whenever the source is not above the
destination. Pointers are 64 bits wide and arithmetic on them wraps around.

`copyUp_spec` and `copyDown_spec` are the invariants of the two loops: each says
from which overlaps it is safe to start. `memmove_overlap` puts them together.
-/

namespace Xv6

open Function

namespace Memmove

/-- An address. -/
abbrev Addr : Type := BitVec 64

/-- The memory: address to byte. -/
abbrev Memory : Type := Addr → UInt8

/-! ## The code -/

/-- `while(n-- > 0) *d++ = *s++;` -/
def copyUp (m : Memory) (d s : Addr) : ℕ → Memory
  | 0 => m
  | n + 1 => copyUp (update m d (m s)) (d + 1) (s + 1) n

/-- `while(n-- > 0) *--d = *--s;` -/
def copyDown (m : Memory) (d s : Addr) : ℕ → Memory
  | 0 => m
  | n + 1 => copyDown (update m (d - 1) (m (s - 1))) (d - 1) (s - 1) n

/-- `memmove` of the kernel, where `n` is an `uint`: the address returned and the memory -/
def kernelMemmove (m : Memory) (dst src : Addr) (n : BitVec 32) : Addr × Memory :=
  if n = 0 then (dst, m)
  else if src < dst ∧ src + n.setWidth 64 > dst then
    (dst, copyDown m (dst + n.setWidth 64) (src + n.setWidth 64) n.toNat)
  else (dst, copyUp m dst src n.toNat)

/-- `memmove` of the user library, where `n` is an `int`: the address returned and the memory -/
def userMemmove (m : Memory) (vdst vsrc : Addr) (n : BitVec 32) : Addr × Memory :=
  if vsrc > vdst then (vdst, copyUp m vdst vsrc n.toInt.toNat)
  else (vdst, copyDown m (vdst + n.signExtend 64) (vsrc + n.signExtend 64) n.toInt.toNat)

/-! ## The loops -/

/-- After a copy: the destination holds what the source held, and nothing else has changed. -/
structure Moved (m : Memory) (dst src : Addr) (n : ℕ) (m' : Memory) : Prop where
  copied : ∀ i < n, m' (dst + BitVec.ofNat 64 i) = m (src + BitVec.ofNat 64 i)
  frame : ∀ a, (∀ i < n, a ≠ dst + BitVec.ofNat 64 i) → m' a = m a

/-- There is one such memory. -/
theorem Moved.unique {m m₁ m₂ : Memory} {dst src : Addr} {n : ℕ} (h₁ : Moved m dst src n m₁)
    (h₂ : Moved m dst src n m₂) : m₁ = m₂ := by
  funext a
  by_cases ha : ∃ i < n, a = dst + BitVec.ofNat 64 i
  · obtain ⟨i, hi, rfl⟩ := ha
    rw [h₁.copied i hi, h₂.copied i hi]
  · have hout : ∀ i < n, a ≠ dst + BitVec.ofNat 64 i := fun i hi he => ha ⟨i, hi, he⟩
    rw [h₁.frame a hout, h₂.frame a hout]

/-- The number of a byte of a region. -/
theorem toNat_add {a : Addr} {i : ℕ} (h : a.toNat + i < 2 ^ 64) :
    (a + BitVec.ofNat 64 i).toNat = a.toNat + i := by
  rw [BitVec.toNat_add, BitVec.toNat_ofNat, Nat.mod_eq_of_lt (show i < 2 ^ 64 by omega),
    Nat.mod_eq_of_lt h]

/-- Two bytes at different places have different addresses. -/
theorem add_ne_add {a b : Addr} {i j : ℕ} (ha : a.toNat + i < 2 ^ 64) (hb : b.toNat + j < 2 ^ 64)
    (h : a.toNat + i ≠ b.toNat + j) : a + BitVec.ofNat 64 i ≠ b + BitVec.ofNat 64 j := by
  intro he
  have hn := congrArg BitVec.toNat he
  rw [toNat_add ha, toNat_add hb] at hn
  exact h hn

theorem add_succ (a : Addr) (i : ℕ) :
    a + 1 + BitVec.ofNat 64 i = a + BitVec.ofNat 64 (i + 1) := by
  rw [BitVec.ofNat_add, BitVec.add_assoc, BitVec.add_comm (BitVec.ofNat 64 i)]
  rfl

theorem add_succ_sub (a : Addr) (i : ℕ) :
    a + BitVec.ofNat 64 (i + 1) - 1 = a + BitVec.ofNat 64 i := by
  rw [← add_succ, BitVec.add_assoc, BitVec.add_comm 1, ← BitVec.add_assoc]
  exact BitVec.add_sub_cancel _ _

/-- **Going up** is safe if the destination does not start inside the source. -/
theorem copyUp_spec : ∀ (n : ℕ) (m : Memory) (dst src : Addr), src.toNat + n ≤ 2 ^ 64 →
    dst.toNat + n ≤ 2 ^ 64 → (dst.toNat ≤ src.toNat ∨ src.toNat + n ≤ dst.toNat) →
    Moved m dst src n (copyUp m dst src n)
  | 0, m, dst, src, _, _, _ => ⟨by rintro i ⟨⟩, fun _ _ => rfl⟩
  | n + 1, m, dst, src, hsrc, hdst, hsafe => by
    -- The loop goes on from the next byte, unless this was the last one before the top.
    rcases Nat.eq_zero_or_pos n with rfl | hn
    · refine ⟨fun i hi => ?_, fun a ha => ?_⟩
      · obtain rfl : i = 0 := by omega
        rw [copyUp, copyUp, BitVec.add_zero, BitVec.add_zero, update_self]
      · have hne := ha 0 (by omega)
        rw [BitVec.add_zero] at hne
        rw [copyUp, copyUp, update_of_ne hne]
    have hs1 : (src + 1).toNat = src.toNat + 1 := toNat_add (i := 1) (by omega)
    have hd1 : (dst + 1).toNat = dst.toNat + 1 := toNat_add (i := 1) (by omega)
    have ih := copyUp_spec n (update m dst (m src)) (dst + 1) (src + 1)
      (by omega) (by omega) (by omega)
    have hdst0 : dst = dst + BitVec.ofNat 64 0 := (BitVec.add_zero dst).symm
    refine ⟨fun i hi => ?_, fun a ha => ?_⟩
    · rw [copyUp]
      cases i with
      | zero =>
        rw [ih.frame, BitVec.add_zero, BitVec.add_zero, update_self]
        intro j hj
        rw [add_succ]
        exact add_ne_add (by omega) (by omega) (by omega)
      | succ i =>
        rw [← add_succ, ih.copied i (by omega), add_succ, update_of_ne]
        rw [hdst0]
        exact add_ne_add (by omega) (by omega) (by omega)
    · have hne := ha 0 (by omega)
      rw [BitVec.add_zero] at hne
      rw [copyUp, ih.frame a, update_of_ne hne]
      intro i hi
      rw [add_succ]
      exact ha (i + 1) (by omega)

/-- **Going down** is safe if the source does not start inside the destination. -/
theorem copyDown_spec : ∀ (n : ℕ) (m : Memory) (dst src : Addr), src.toNat + n ≤ 2 ^ 64 →
    dst.toNat + n ≤ 2 ^ 64 → (src.toNat ≤ dst.toNat ∨ dst.toNat + n ≤ src.toNat) →
    Moved m dst src n
      (copyDown m (dst + BitVec.ofNat 64 n) (src + BitVec.ofNat 64 n) n)
  | 0, m, dst, src, _, _, _ => ⟨by rintro i ⟨⟩, fun _ _ => rfl⟩
  | n + 1, m, dst, src, hsrc, hdst, hsafe => by
    rw [copyDown, add_succ_sub, add_succ_sub]
    have ih := copyDown_spec n (update m (dst + BitVec.ofNat 64 n)
      (m (src + BitVec.ofNat 64 n))) dst src (by omega) (by omega) (by omega)
    refine ⟨fun i hi => ?_, fun a ha => ?_⟩
    · by_cases hin : i = n
      · subst hin
        rw [ih.frame, update_self]
        exact fun j hj => add_ne_add (by omega) (by omega) (by omega)
      · rw [ih.copied i (by omega), update_of_ne]
        exact add_ne_add (by omega) (by omega) (by omega)
    · rw [ih.frame a fun i hi => ha i (by omega), update_of_ne (ha n (by omega))]

/-! ## The two functions -/

variable {m : Memory} {dst src : Addr} {n : BitVec 32}

theorem kernelMemmove_moved (hsrc : src.toNat + n.toNat ≤ 2 ^ 64)
    (hdst : dst.toNat + n.toNat ≤ 2 ^ 64) :
    Moved m dst src n.toNat (kernelMemmove m dst src n).2 := by
  have hwide : n.setWidth 64 = BitVec.ofNat 64 n.toNat := (BitVec.ofNat_toNat 64 n).symm
  unfold kernelMemmove
  split_ifs with hzero hover
  · subst hzero
    exact ⟨by rintro i ⟨⟩, fun _ _ => rfl⟩
  · rw [hwide]
    exact copyDown_spec n.toNat m dst src hsrc hdst (.inl (BitVec.le_of_lt hover.1))
  · refine copyUp_spec n.toNat m dst src hsrc hdst ?_
    -- If the source is below, its end does not wrap: the destination ends higher up.
    by_contra hsafe
    push Not at hsafe
    refine hover ⟨hsafe.1, ?_⟩
    rw [hwide, gt_iff_lt, BitVec.lt_def, toNat_add (by omega)]
    exact hsafe.2

theorem userMemmove_moved (hn : 0 ≤ n.toInt) (hsrc : src.toNat + n.toNat ≤ 2 ^ 64)
    (hdst : dst.toNat + n.toNat ≤ 2 ^ 64) :
    Moved m dst src n.toNat (userMemmove m dst src n).2 := by
  have hmsb : n.msb = false := by
    rw [BitVec.msb_eq_toInt]
    exact decide_eq_false (by omega)
  have hint : n.toInt.toNat = n.toNat := by
    rw [BitVec.toInt_eq_toNat_of_msb hmsb]
    rfl
  have hwide : n.signExtend 64 = BitVec.ofNat 64 n.toNat := by
    rw [BitVec.signExtend_eq_setWidth_of_msb_false hmsb, BitVec.ofNat_toNat]
  unfold userMemmove
  rw [hint, hwide]
  split_ifs with hup
  · exact copyUp_spec n.toNat m dst src hsrc hdst (.inl (BitVec.le_of_lt hup))
  · exact copyDown_spec n.toNat m dst src hsrc hdst (.inl (BitVec.not_lt.mp hup))

/-- **Both copies are right for every overlap**, and so leave the same memory. A length is an
`uint` in the kernel and an `int` in the library. -/
theorem memmove_overlap (m : Memory) (dst src : Addr) (n : BitVec 32)
    (hsrc : src.toNat + n.toNat ≤ 2 ^ 64) (hdst : dst.toNat + n.toNat ≤ 2 ^ 64) :
    Moved m dst src n.toNat (kernelMemmove m dst src n).2 ∧
      (0 ≤ n.toInt → Moved m dst src n.toNat (userMemmove m dst src n).2 ∧
        userMemmove m dst src n = kernelMemmove m dst src n) := by
  have hkernel := kernelMemmove_moved (m := m) hsrc hdst
  refine ⟨hkernel, fun hn => ?_⟩
  have huser := userMemmove_moved (m := m) hn hsrc hdst
  refine ⟨huser, Prod.ext ?_ (huser.unique hkernel)⟩
  unfold userMemmove kernelMemmove
  split_ifs <;> rfl

/-- A memory in which each byte is the number of its address. -/
def numbered : Memory := fun a => UInt8.ofNat a.toNat

/-- A copy one byte up, over itself. -/
theorem memmove_overlap_shift :
    Moved numbered 11 10 3 (kernelMemmove numbered 11 10 3).2 ∧
      userMemmove numbered 11 10 3 = kernelMemmove numbered 11 10 3 ∧
      (userMemmove numbered 11 10 3).2 13 = 12 := by
  have h := memmove_overlap numbered 11 10 3 (by decide) (by decide)
  exact ⟨h.1, (h.2 (by decide)).2, by decide⟩

end Memmove

end Xv6
