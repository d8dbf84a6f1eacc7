import Mathlib.Data.List.GetD
import Mathlib.Data.Nat.Digits.Lemmas
import Mathlib.Tactic.Common

/-!
# Printing integers (`kernel/printf.c`, `user/printf.c`)

`printint` of the kernel and of the user library: the digits go into an array of
20 characters, least significant first, and come out backwards. A store outside
of the array, or a digit outside of the table of digits, has no result.

`digitLoop_spec` says what the loop leaves in the array as long as there is room
for it; `printint_canonical` that there always is, and that what is printed is
the numeral of the value.
-/

namespace Xv6.Printf

open List

/-! ## The code -/

/-- `digits` of the kernel -/
def kernelDigits : List Char :=
  ['0', '1', '2', '3', '4', '5', '6', '7', '8', '9', 'a', 'b', 'c', 'd', 'e', 'f']

/-- `digits` of the user library -/
def userDigits : List Char :=
  ['0', '1', '2', '3', '4', '5', '6', '7', '8', '9', 'A', 'B', 'C', 'D', 'E', 'F']

/-- `sizeof(buf)` -/
def BUFSIZE : ℕ := 20

/-- `buf` up to `i`: the characters stored so far. -/
structure Buf where
  chars : List Char
  fits : chars.length ≤ BUFSIZE

/-- `buf` before the first store. -/
def Buf.empty : Buf := ⟨[], Nat.zero_le _⟩

/-- `buf[i++] = c`, within the array -/
def Buf.push (buf : Buf) (c : Char) (h : buf.chars.length < BUFSIZE) : Buf :=
  ⟨buf.chars ++ [c], by rw [length_append]; exact h⟩

theorem Buf.chars_push {buf : Buf} {c : Char} (h : buf.chars.length < BUFSIZE) :
    (buf.push c h).chars = buf.chars ++ [c] := rfl

/-- `do { buf[i++] = digits[x % base]; } while((x /= base) != 0);` -/
def digitLoop (digits : List Char) (base : BitVec 32) (x : BitVec 64) (buf : Buf) : Option Buf :=
  match digits[(x % base.signExtend 64).toNat]? with
  | none => none
  | some c =>
    if h : buf.chars.length < BUFSIZE then
      if x / base.signExtend 64 ≠ 0 then
        digitLoop digits base (x / base.signExtend 64) (buf.push c h)
      else some (buf.push c h)
    else none
termination_by BUFSIZE - buf.chars.length
decreasing_by
  rw [Buf.chars_push, length_append, length_singleton]
  omega

/-- `if(neg) buf[i++] = '-';` -/
def putSign (neg : Prop) [Decidable neg] (buf : Buf) : Option Buf :=
  if neg then if h : buf.chars.length < BUFSIZE then some (buf.push '-' h) else none
  else some buf

/-- `while(--i >= 0) consputc(buf[i]);`, with `putc` in the user library -/
def putLoop (buf : Buf) : ℕ → List Char
  | 0 => []
  | i + 1 => buf.chars.getD i '0' :: putLoop buf i

/-- `printint` of the kernel: what it prints -/
def kernelPrintint (xx : BitVec 64) (base sign : BitVec 32) : Option (List Char) := do
  let sign : BitVec 32 := if sign ≠ 0 then (if xx.slt 0 then 1 else 0) else sign
  let x := if sign ≠ 0 then -xx else xx
  let buf ← digitLoop kernelDigits base x .empty
  let buf ← putSign (sign ≠ 0) buf
  return putLoop buf buf.chars.length

/-- `printint` of the user library: what it prints -/
def userPrintint (xx : BitVec 64) (base sgn : BitVec 32) : Option (List Char) := do
  let neg : Bool := sgn ≠ 0 && xx.slt 0
  let x := if neg then -xx else xx
  let buf ← digitLoop userDigits base x .empty
  let buf ← putSign neg buf
  return putLoop buf buf.chars.length

/-! ## Numerals -/

/-- The digits of a numeral, most significant first: none too large, no leading zeros, and a
zero for zero. -/
structure Canonical (base n : ℕ) (ds : List ℕ) : Prop where
  lt : ∀ d ∈ ds, d < base
  ne_nil : ds ≠ []
  head : ds.head? = some 0 → ds = [0]
  value : Nat.ofDigits base ds.reverse = n

/-- The digits the loop stores, least significant first. -/
def stored (base n : ℕ) : List ℕ := if n = 0 then [0] else Nat.digits base n

theorem stored_eq {base n : ℕ} (hbase : 1 < base) :
    stored base n = n % base :: if n / base = 0 then [] else stored base (n / base) := by
  unfold stored
  split_ifs with hn hq hq
  · rw [hn, Nat.zero_mod]
  · rw [hn, Nat.zero_div] at hq
    exact absurd rfl hq
  · rw [Nat.digits_eq_cons_digits_div hbase hn, hq, Nat.digits_zero]
  · exact Nat.digits_eq_cons_digits_div hbase hn

theorem canonical_stored {base : ℕ} (hbase : 1 < base) (n : ℕ) :
    Canonical base n (stored base n).reverse := by
  unfold stored
  split_ifs with hn
  · subst hn
    exact ⟨by simp; omega, by simp, fun _ => rfl, by simp⟩
  · have hne : Nat.digits base n ≠ [] := Nat.digits_ne_nil_iff_ne_zero.mpr hn
    refine ⟨fun d hd => Nat.digits_lt_base hbase (mem_reverse.mp hd), by simpa using hne,
      fun h => ?_, by rw [reverse_reverse, Nat.ofDigits_digits]⟩
    rw [head?_reverse, getLast?_eq_some_getLast hne] at h
    exact absurd (Option.some.inj h) (Nat.getLast_digit_ne_zero base hn)

/-- A number with room for its digits. -/
theorem length_stored_le {base n k : ℕ} (hbase : 1 < base) (hk : 0 < k) (h : n < base ^ k) :
    (stored base n).length ≤ k := by
  unfold stored
  split_ifs
  · exact hk
  · exact (Nat.digits_length_le_iff hbase n).mpr h

/-! ## The loops -/

theorem putLoop_eq (buf : Buf) :
    ∀ i ≤ buf.chars.length, putLoop buf i = (buf.chars.take i).reverse
  | 0, _ => by rw [putLoop, take_zero, reverse_nil]
  | i + 1, h => by
    have hi : i < buf.chars.length := h
    rw [putLoop, putLoop_eq buf i (by omega), take_add_one, reverse_append,
      getElem?_eq_getElem hi, getD_eq_getElem _ _ hi]
    rfl

/-- **The digit loop** adds the digits of a number, if there is room for them. -/
theorem digitLoop_spec {digits : List Char} {base : BitVec 32} (hbase : 1 < base.toNat)
    (hpos : base.msb = false) (hdigits : base.toNat ≤ digits.length) :
    ∀ (k : ℕ) (x : BitVec 64) (buf : Buf), (stored base.toNat x.toNat).length = k →
      buf.chars.length + k ≤ BUFSIZE →
      ∃ buf', digitLoop digits base x buf = some buf' ∧
        buf'.chars = buf.chars ++ (stored base.toNat x.toNat).map (digits.getD · '0')
  | 0, x, buf, hk, _ => by
    rw [stored_eq hbase] at hk
    exact absurd hk (by simp)
  | k + 1, x, buf, hk, hroom => by
    have hwide : (base.signExtend 64).toNat = base.toNat := by
      rw [BitVec.signExtend_eq_setWidth_of_msb_false hpos, BitVec.toNat_setWidth]
      exact Nat.mod_eq_of_lt (by omega)
    have hdigit : x.toNat % base.toNat < digits.length :=
      lt_of_lt_of_le (Nat.mod_lt _ (by omega)) hdigits
    have hzero : x / base.signExtend 64 ≠ 0 ↔ ¬ x.toNat / base.toNat = 0 := by
      rw [Ne, ← BitVec.toNat_inj, BitVec.toNat_udiv, hwide]
      rfl
    have hdiv : (x / base.signExtend 64).toNat = x.toNat / base.toNat := by
      rw [BitVec.toNat_udiv, hwide]
    have hlt : buf.chars.length < BUFSIZE := by omega
    rw [stored_eq hbase] at hk ⊢
    rw [digitLoop, BitVec.toNat_umod, hwide, getElem?_eq_getElem hdigit,
      ← getD_eq_getElem _ '0' hdigit]
    simp only [dif_pos hlt, hzero]
    by_cases hq : x.toNat / base.toNat = 0
    · rw [if_neg (not_not.mpr hq), if_pos hq]
      exact ⟨_, rfl, rfl⟩
    · rw [if_pos hq, if_neg hq]
      rw [if_neg hq, length_cons] at hk
      obtain ⟨buf', hloop, hchars⟩ := digitLoop_spec hbase hpos hdigits k
        (x / base.signExtend 64) (buf.push (digits.getD (x.toNat % base.toNat) '0') hlt)
        (by rw [hdiv]; omega)
        (by rw [Buf.chars_push, length_append, length_singleton]; omega)
      refine ⟨buf', hloop, ?_⟩
      rw [hchars, Buf.chars_push, hdiv, append_assoc, map_cons]
      rfl

/-! ## The two functions -/

/-- The value printed: the argument is signed if `sign` is not 0. -/
def value (xx : BitVec 64) (sign : BitVec 32) : ℤ := if sign ≠ 0 then xx.toInt else xx.toNat

/-- What is printed for a value with these digits. -/
def text (digits : List Char) (v : ℤ) (ds : List ℕ) : List Char :=
  (if v < 0 then ['-'] else []) ++ ds.map (digits.getD · '0')

/-- The body the two functions share, for a number with its sign apart. -/
def printBody (digits : List Char) (x : BitVec 64) (base : BitVec 32) (neg : Prop)
    [Decidable neg] : Option (List Char) := do
  let buf ← digitLoop digits base x .empty
  let buf ← putSign neg buf
  return putLoop buf buf.chars.length

theorem printBody_spec {digits : List Char} {base : BitVec 32} {x : BitVec 64} {neg : Prop}
    [Decidable neg] (hbase : 1 < base.toNat) (hpos : base.msb = false)
    (hdigits : base.toNat ≤ digits.length)
    (hroom : (stored base.toNat x.toNat).length + (if neg then 1 else 0) ≤ BUFSIZE) :
    printBody digits x base neg = some ((if neg then ['-'] else []) ++
      (stored base.toNat x.toNat).reverse.map (digits.getD · '0')) := by
  obtain ⟨buf, hloop, hchars⟩ := digitLoop_spec hbase hpos hdigits _ x .empty rfl
    (by rw [Buf.empty, length_nil]; omega)
  have hlen : buf.chars.length = (stored base.toNat x.toNat).length := by
    rw [hchars, Buf.empty, nil_append, length_map]
  have hput : ∀ buf : Buf, putLoop buf buf.chars.length = buf.chars.reverse := fun buf => by
    rw [putLoop_eq buf _ le_rfl, take_length]
  unfold printBody
  rw [hloop, Option.bind_eq_bind, Option.bind_some]
  by_cases hneg : neg
  · rw [if_pos hneg] at hroom
    rw [putSign, if_pos hneg, if_pos hneg, dif_pos (by omega), Option.bind_some, hput,
      Buf.chars_push, hchars]
    simp [Buf.empty]
  · rw [putSign, if_neg hneg, if_neg hneg, Option.bind_some, hput, hchars]
    simp [Buf.empty]

theorem value_neg_iff (xx : BitVec 64) (sign : BitVec 32) :
    value xx sign < 0 ↔ sign ≠ 0 ∧ xx.slt 0 = true := by
  unfold value
  split_ifs with hsign
  · rw [BitVec.slt_iff_toInt_lt]
    exact ⟨fun h => ⟨hsign, h⟩, fun h => h.2⟩
  · exact ⟨fun h => absurd h (by omega), fun h => absurd h.1 hsign⟩

theorem kernelPrintint_eq (xx : BitVec 64) (base sign : BitVec 32) :
    kernelPrintint xx base sign = printBody kernelDigits
      (if value xx sign < 0 then -xx else xx) base (value xx sign < 0) := by
  unfold kernelPrintint
  have hsign : (if sign ≠ 0 then (if xx.slt 0 then 1 else 0) else sign : BitVec 32) ≠ 0 ↔
      value xx sign < 0 := by
    rw [value_neg_iff]
    split_ifs with h0 hlt
    · exact ⟨fun _ => ⟨h0, hlt⟩, fun _ => by decide⟩
    · exact ⟨fun h => absurd rfl h, fun h => absurd h.2 hlt⟩
    · exact ⟨fun h => absurd h h0, fun h => h.1⟩
  simp only [hsign]
  rfl

theorem userPrintint_eq (xx : BitVec 64) (base sgn : BitVec 32) :
    userPrintint xx base sgn = printBody userDigits
      (if value xx sgn < 0 then -xx else xx) base (value xx sgn < 0) := by
  unfold userPrintint
  have hneg : (sgn ≠ 0 && xx.slt 0) = true ↔ value xx sgn < 0 := by
    rw [value_neg_iff, Bool.and_eq_true, decide_eq_true_iff]
  simp only [hneg]
  rfl

/-- The absolute value of a negative number, also of the smallest one. -/
theorem toNat_magnitude (xx : BitVec 64) (sign : BitVec 32) :
    (if value xx sign < 0 then -xx else xx).toNat = (value xx sign).natAbs := by
  unfold value
  split_ifs with hsign hneg hneg
  · rw [BitVec.toInt_eq_toNat_cond] at hneg ⊢
    rw [BitVec.toNat_neg]
    split_ifs at hneg ⊢ <;> omega
  · rw [BitVec.toInt_eq_toNat_cond] at hneg ⊢
    split_ifs at hneg ⊢ <;> omega
  · omega
  · rfl

/-- The numeral and its sign fit into the array. -/
theorem length_stored_value_le (xx : BitVec 64) {base : ℕ} (sign : BitVec 32)
    (hbase : base = 10 ∨ base = 16) :
    (stored base (value xx sign).natAbs).length + (if value xx sign < 0 then 1 else 0) ≤
      BUFSIZE := by
  have hten : 1 < base ∧ 2 ^ 63 < base ^ 19 ∧ 2 ^ 64 < base ^ 20 := by
    rcases hbase with rfl | rfl <;> decide
  split_ifs with hneg
  · have hle : (value xx sign).natAbs ≤ 2 ^ 63 := by
      unfold value at hneg ⊢
      split_ifs at hneg ⊢
      · have := BitVec.le_toInt xx
        omega
      · omega
    have := length_stored_le (n := (value xx sign).natAbs) (k := 19) hten.1 (by omega) (by omega)
    unfold BUFSIZE
    omega
  · have hle : (value xx sign).natAbs < 2 ^ 64 := by
      rw [← toNat_magnitude]
      exact BitVec.isLt _
    exact length_stored_le hten.1 (by decide) (show _ < base ^ 20 by omega)

/-- A digit of the one table is the same digit of the other, up to the case of letters. -/
theorem toUpper_kernelDigits :
    ∀ d < 16, (kernelDigits.getD d '0').toUpper = userDigits.getD d '0' := by
  decide

/-- The value printed, modulo `2^64`, is the argument. -/
theorem ofInt_value (xx : BitVec 64) (sign : BitVec 32) :
    BitVec.ofInt 64 (value xx sign) = xx := by
  unfold value
  split_ifs
  · exact BitVec.ofInt_toInt
  · rw [BitVec.ofInt_natCast, BitVec.ofNat_toNat, BitVec.setWidth_eq]

/-- **`printint` is exact**: both versions print the sign and the canonical digits of the value
and stay in their buffer, and they differ only in the case of letters. -/
theorem printint_canonical (xx : BitVec 64) (base sign : BitVec 32)
    (hbase : base = 10 ∨ base = 16) :
    ∃ ds : List ℕ, Canonical base.toNat (value xx sign).natAbs ds ∧
      BitVec.ofInt 64 (value xx sign) = xx ∧
      kernelPrintint xx base sign = some (text kernelDigits (value xx sign) ds) ∧
      userPrintint xx base sign = some (text userDigits (value xx sign) ds) ∧
      text userDigits (value xx sign) ds =
        (text kernelDigits (value xx sign) ds).map Char.toUpper ∧
      (text kernelDigits (value xx sign) ds).length ≤ BUFSIZE := by
  have hb : 1 < base.toNat ∧ base.toNat ≤ 16 ∧ base.msb = false ∧
      (base.toNat = 10 ∨ base.toNat = 16) := by
    rcases hbase with rfl | rfl <;> decide
  have hroom := length_stored_value_le xx sign hb.2.2.2
  have hcanon := canonical_stored hb.1 (value xx sign).natAbs
  refine ⟨_, hcanon, ofInt_value xx sign, ?_, ?_, ?_, ?_⟩
  · have hlen : base.toNat ≤ kernelDigits.length := hb.2.1
    rw [kernelPrintint_eq, printBody_spec hb.1 hb.2.2.1 hlen
      (by rw [toNat_magnitude]; exact hroom), toNat_magnitude]
    rfl
  · have hlen : base.toNat ≤ userDigits.length := hb.2.1
    rw [userPrintint_eq, printBody_spec hb.1 hb.2.2.1 hlen
      (by rw [toNat_magnitude]; exact hroom), toNat_magnitude]
    rfl
  · have hsign : (if value xx sign < 0 then ['-'] else []) =
        (if value xx sign < 0 then ['-'] else []).map Char.toUpper := by
      split_ifs <;> rfl
    rw [text, text, map_append, ← hsign, map_map]
    refine congrArg _ (map_congr_left fun d hd => ?_)
    have hd16 : d < 16 := lt_of_lt_of_le (hcanon.lt d hd) hb.2.1
    exact (toUpper_kernelDigits d hd16).symm
  · rw [text, length_append, length_map, length_reverse]
    split_ifs at hroom ⊢ <;> simp <;> omega

/-- The smallest number, and the largest one without a sign. -/
theorem printint_canonical_extremes :
    (∃ ds, Canonical 10 (2 ^ 63) ds ∧
      kernelPrintint (BitVec.ofNat 64 (2 ^ 63)) 10 1 = some (text kernelDigits (-(2 ^ 63)) ds)) ∧
    (∃ ds, Canonical 10 (2 ^ 64 - 1) ds ∧
      userPrintint (BitVec.ofNat 64 (2 ^ 64 - 1)) 10 0 =
        some (text userDigits (2 ^ 64 - 1) ds)) := by
  obtain ⟨ds, hds, -, hk, -⟩ := printint_canonical (BitVec.ofNat 64 (2 ^ 63)) 10 1 (.inl rfl)
  obtain ⟨es, hes, -, -, hu, -⟩ :=
    printint_canonical (BitVec.ofNat 64 (2 ^ 64 - 1)) 10 0 (.inl rfl)
  exact ⟨⟨ds, hds, hk⟩, ⟨es, hes, hu⟩⟩

end Xv6.Printf
