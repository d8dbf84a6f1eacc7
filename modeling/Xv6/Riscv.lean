import Mathlib.Data.Nat.Bitwise
import Mathlib.Data.Nat.Notation
import Mathlib.Tactic.Common

/-!
# Pages, page-table entries and the memory layout

`kernel/riscv.h` and `kernel/memlayout.h`. A machine word is a natural number
below `2 ^ 64`; where the C code may overflow, the reduction is written out.
-/

namespace Xv6

/-- `2 ^ 64`: arithmetic on `uint64` is modulo this. -/
def WORD : ℕ := 2 ^ 64

/-- bytes per page -/
def PGSIZE : ℕ := 4096

/-- `(((sz)+PGSIZE-1) & ~(PGSIZE-1))` -/
def PGROUNDUP (sz : ℕ) : ℕ := (sz + PGSIZE - 1) % WORD / PGSIZE * PGSIZE

/-- `(((a)) & ~(PGSIZE-1))` -/
def PGROUNDDOWN (a : ℕ) : ℕ := a / PGSIZE * PGSIZE

/-- valid -/
def PTE_V : ℕ := 2 ^ 0

def PTE_R : ℕ := 2 ^ 1

def PTE_W : ℕ := 2 ^ 2

def PTE_X : ℕ := 2 ^ 3

/-- user can access -/
def PTE_U : ℕ := 2 ^ 4

/-- `((((uint64)pa) >> 12) << 10)` -/
def PA2PTE (pa : ℕ) : ℕ := pa / 2 ^ 12 * 2 ^ 10

/-- `(((pte) >> 10) << 12)` -/
def PTE2PA (pte : ℕ) : ℕ := pte / 2 ^ 10 * 2 ^ 12 % WORD

/-- `((pte) & 0x3FF)` -/
def PTE_FLAGS (pte : ℕ) : ℕ := pte % 2 ^ 10

/-- `((((uint64) (va)) >> PXSHIFT(level)) & PXMASK)` -/
def PX (level va : ℕ) : ℕ := va / 2 ^ (12 + 9 * level) % 512

/-- one beyond the highest possible virtual address -/
def MAXVA : ℕ := 2 ^ (9 + 9 + 9 + 12 - 1)

def KERNBASE : ℕ := 0x80000000

def PHYSTOP : ℕ := KERNBASE + 128 * 1024 * 1024

/-- the trampoline page, at the highest address -/
def TRAMPOLINE : ℕ := MAXVA - PGSIZE

/-- the trapframe page, just below -/
def TRAPFRAME : ℕ := TRAMPOLINE - PGSIZE

/-! ## Rounding -/

theorem PGROUNDUP_mod (sz : ℕ) : PGROUNDUP sz % PGSIZE = 0 := Nat.mul_mod_left ..

theorem PGROUNDDOWN_mod (a : ℕ) : PGROUNDDOWN a % PGSIZE = 0 := Nat.mul_mod_left ..

theorem PGROUNDDOWN_le (a : ℕ) : PGROUNDDOWN a ≤ a := Nat.div_mul_le_self ..

theorem PGROUNDUP_of_le {sz : ℕ} (h : sz ≤ MAXVA) :
    PGROUNDUP sz = (sz + 4095) / 4096 * 4096 := by
  unfold MAXVA at h
  unfold PGROUNDUP PGSIZE WORD
  omega

/-- A size that fits below an aligned address still fits when rounded up. -/
theorem PGROUNDUP_le_TRAPFRAME {sz : ℕ} (h : sz ≤ TRAPFRAME) : PGROUNDUP sz ≤ TRAPFRAME := by
  unfold TRAPFRAME TRAMPOLINE MAXVA PGSIZE at h ⊢
  unfold PGROUNDUP PGSIZE WORD
  omega

/-! ## Page-table entries -/

theorem and_two_pow_ne_zero (e k : ℕ) : e &&& 2 ^ k ≠ 0 ↔ e / 2 ^ k % 2 = 1 := by
  rw [Nat.and_two_pow, ne_eq, mul_eq_zero, not_or, Nat.testBit_eq_decide_div_mod_eq]
  by_cases h : e / 2 ^ k % 2 = 1 <;> simp [h]

theorem valid_iff (e : ℕ) : e &&& PTE_V ≠ 0 ↔ e % 2 = 1 := by
  rw [PTE_V, and_two_pow_ne_zero, pow_zero, Nat.div_one]

/-- A flag of an entry. -/
theorem flag_ne_zero {x perm f : ℕ} (h : perm &&& f ≠ 0) : (x ||| perm) &&& f ≠ 0 := by
  intro h0
  rw [Nat.and_or_distrib_right] at h0
  exact h (Nat.or_eq_zero_iff.mp h0).2

theorem flag_of_mod {e perm f : ℕ} (he : e % 2 ^ 10 = perm) (h : perm &&& f ≠ 0) :
    e &&& f ≠ 0 := by
  rw [← Nat.div_add_mod e (2 ^ 10), Nat.two_pow_add_eq_or_of_lt (Nat.mod_lt _ (by decide)), he]
  exact flag_ne_zero h

/-- The pages of user code can be read, whatever else is permitted. -/
theorem user_perm_read (xperm : ℕ) : (PTE_R ||| PTE_U ||| xperm ||| PTE_V) &&& PTE_R ≠ 0 := by
  simp only [Nat.and_or_distrib_right, ne_eq, Nat.or_eq_zero_iff]
  exact fun h0 => absurd h0.1.1.1 (by decide)

theorem PTE_FLAGS_read {e e' : ℕ} (h : PTE_FLAGS e' = PTE_FLAGS e) (hr : e &&& PTE_R ≠ 0) :
    e' &&& PTE_R ≠ 0 := by
  rw [PTE_R, and_two_pow_ne_zero] at hr ⊢
  unfold PTE_FLAGS at h
  omega

/-- The address in an entry and its flags do not overlap. -/
theorem PA2PTE_or {pa f : ℕ} (hf : f < 2 ^ 10) : PA2PTE pa ||| f = PA2PTE pa + f := by
  rw [PA2PTE, mul_comm, Nat.two_pow_add_eq_or_of_lt hf]

theorem PTE2PA_PA2PTE {pa f : ℕ} (hpa : pa % 4096 = 0) (hlt : pa < WORD) (hf : f < 2 ^ 10) :
    PTE2PA (PA2PTE pa ||| f) = pa := by
  rw [PA2PTE_or hf]
  unfold PTE2PA PA2PTE
  unfold WORD at hlt ⊢
  omega

theorem PTE_FLAGS_PA2PTE {pa f : ℕ} (hf : f < 2 ^ 10) : PTE_FLAGS (PA2PTE pa ||| f) = f := by
  rw [PA2PTE_or hf]
  unfold PTE_FLAGS PA2PTE
  omega

theorem PA2PTE_or_lt {pa f : ℕ} (hlt : pa < WORD) (hf : f < 2 ^ 10) :
    PA2PTE pa ||| f < 256 ^ 8 := by
  rw [PA2PTE_or hf]
  unfold PA2PTE
  unfold WORD at hlt
  omega

end Xv6
