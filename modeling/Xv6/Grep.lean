import Mathlib.Computability.Language
import Mathlib.Tactic.Common

/-!
# `grep` (`user/grep.c`)

The matcher. Strings are lists of bytes without the 0 at their end, so a test for 0
is a test for the empty list.

The matcher is compared with what a pattern says: read from left to right, it is
a list of items, each of which is a language (`Item.lang`), with an anchor at
either end. `matchstar_iff` and `matchhere_iff` are the steps to `match_iff`.
-/

namespace Xv6.Grep

open List

/-- A C string, without the 0. -/
abbrev Str : Type := List UInt8

/-- `'^'` -/
def caret : UInt8 := 94

/-- `'$'` -/
def dollar : UInt8 := 36

/-- `'.'` -/
def dot : UInt8 := 46

/-- `'*'` -/
def asterisk : UInt8 := 42

/-! ## The code of the matcher -/

mutual

/-- `matchhere` -/
def matchhere (re text : Str) : Bool :=
  match re with
  | [] => true
  | c :: re' =>
    if re'.head? = some asterisk then matchstar c re'.tail text
    else if c = dollar ∧ re' = [] then text.isEmpty
    else
      match text with
      | [] => false
      | t :: text' => if c = dot ∨ c = t then matchhere re' text' else false
termination_by (re.length, text.length, 0)
decreasing_by
  · refine Prod.Lex.left _ _ ?_
    rw [length_tail, length_cons]
    omega
  · exact Prod.Lex.left _ _ (Nat.lt_succ_self _)

/-- `matchstar` -/
def matchstar (c : UInt8) (re text : Str) : Bool :=
  if matchhere re text then true
  else
    match text with
    | [] => false
    | t :: text' => if t = c ∨ c = dot then matchstar c re text' else false
termination_by (re.length, text.length, 1)
decreasing_by
  · exact Prod.Lex.right _ (Prod.Lex.right _ Nat.zero_lt_one)
  · exact Prod.Lex.right _ (Prod.Lex.left _ _ (Nat.lt_succ_self _))

end

/-- The loop of `match` -/
def matchLoop (re : Str) : Str → Bool
  | [] => matchhere re []
  | t :: text => if matchhere re (t :: text) then true else matchLoop re text

/-- `match` -/
def matchRe (re text : Str) : Bool :=
  if re.head? = some caret then matchhere re.tail text else matchLoop re text

/-! ## What a pattern says -/

/-- What one place of the text is compared with. -/
inductive Sym : Type where
  /-- a character, which matches itself -/
  | char (c : UInt8)
  /-- `.`, which matches any character -/
  | any
  deriving DecidableEq

/-- An item of a pattern. -/
inductive Item : Type where
  /-- one character -/
  | one (s : Sym)
  /-- any number of characters -/
  | star (s : Sym)
  deriving DecidableEq

/-- A pattern: its items, and whether they have to start where the text does and to end where
it does. -/
structure Pattern where
  start : Bool
  items : List Item
  finish : Bool
  deriving DecidableEq

/-- What a character of a pattern stands for, alone or before a `*`. -/
def Sym.ofChar (c : UInt8) : Sym := if c = dot then .any else .char c

/-- A pattern without its `^`: a character before a `*` is starred, a `$` at the end is the
anchor, and every other character stands for itself or, if it is a `.`, for any. -/
def readItems (re : Str) : List Item × Bool :=
  match re with
  | [] => ([], false)
  | c :: re' =>
    if re'.head? = some asterisk then
      (.star (.ofChar c) :: (readItems re'.tail).1, (readItems re'.tail).2)
    else if c = dollar ∧ re' = [] then ([], true)
    else (.one (.ofChar c) :: (readItems re').1, (readItems re').2)
termination_by re.length
decreasing_by
  all_goals
    simp only [length_tail, length_cons]
    omega

/-- A pattern, read from left to right. -/
def readPattern (re : Str) : Pattern :=
  let anchored : Bool := re.head? = some caret
  let rest := readItems (if anchored then re.tail else re)
  { start := anchored, items := rest.1, finish := rest.2 }

/-- The texts of one character that a symbol matches. -/
def Sym.lang : Sym → Language UInt8
  | .char c => ({[c]} : Set Str)
  | .any => {w | ∃ c, w = [c]}

/-- The texts an item matches. -/
def Item.lang : Item → Language UInt8
  | .one s => s.lang
  | .star s => KStar.kstar s.lang

/-- The texts a list of items matches, one after the other. -/
def itemsLang (items : List Item) : Language UInt8 := (items.map Item.lang).prod

/-- Does a pattern match somewhere in a text? -/
def Pattern.Matches (p : Pattern) (text : Str) : Prop :=
  ∃ before found after, text = before ++ found ++ after ∧ found ∈ itemsLang p.items ∧
    (p.start = true → before = []) ∧ (p.finish = true → after = [])

/-! ## The matcher is right -/

theorem mem_lang_ofChar {c : UInt8} {w : Str} :
    w ∈ (Sym.ofChar c).lang ↔ ∃ t, w = [t] ∧ (c = dot ∨ c = t) := by
  unfold Sym.ofChar
  split_ifs with hc
  · exact ⟨by rintro ⟨t, rfl⟩; exact ⟨t, rfl, .inl hc⟩, by rintro ⟨t, rfl, -⟩; exact ⟨t, rfl⟩⟩
  · constructor
    · intro hw
      exact ⟨c, hw, .inr rfl⟩
    · rintro ⟨t, rfl, h⟩
      rw [h.resolve_left hc]
      exact rfl

/-- A starred character matches the texts in which every character is one of its own. -/
theorem mem_kstar_ofChar {c : UInt8} {w : Str} :
    w ∈ KStar.kstar (Sym.ofChar c).lang ↔ ∀ t ∈ w, c = dot ∨ c = t := by
  constructor
  · rintro ⟨L, rfl, hL⟩ t ht
    obtain ⟨y, hy, hty⟩ := mem_flatten.mp ht
    obtain ⟨t', rfl, h⟩ := mem_lang_ofChar.mp (hL y hy)
    rw [mem_singleton.mp hty]
    exact h
  · intro h
    refine ⟨w.map fun t => [t], by rw [← flatMap_def, flatMap_singleton'], ?_⟩
    intro y hy
    obtain ⟨t, ht, rfl⟩ := mem_map.mp hy
    exact mem_lang_ofChar.mpr ⟨t, rfl, h t ht⟩

/-- `matchstar` tries the rest of the pattern after each run of the starred character. -/
theorem matchstar_iff (c : UInt8) (re : Str) : ∀ text : Str, matchstar c re text = true ↔
    ∃ run rest, text = run ++ rest ∧ (∀ t ∈ run, c = dot ∨ c = t) ∧ matchhere re rest = true
  | [] => by
    rw [matchstar]
    constructor
    · intro h
      refine ⟨[], [], rfl, by simp, ?_⟩
      by_contra hno
      rw [if_neg hno] at h
      exact absurd h (by simp)
    · rintro ⟨run, rest, hnil, -, h⟩
      obtain ⟨rfl, rfl⟩ := append_eq_nil_iff.mp hnil.symm
      rw [if_pos h]
  | t :: text => by
    rw [matchstar]
    by_cases hnow : matchhere re (t :: text) = true
    · rw [if_pos hnow]
      exact ⟨fun _ => ⟨[], _, rfl, by simp, hnow⟩, fun _ => rfl⟩
    rw [if_neg hnow]
    have hsym : (t = c ∨ c = dot) ↔ (c = dot ∨ c = t) := by
      rw [or_comm, eq_comm (a := t)]
    simp only [hsym]
    -- The empty run is out, so a run takes the first character.
    constructor
    · intro h
      split_ifs at h with ht
      obtain ⟨run, rest, rfl, hrun, hrest⟩ := (matchstar_iff c re text).mp h
      refine ⟨t :: run, rest, rfl, fun u hu => ?_, hrest⟩
      rcases mem_cons.mp hu with rfl | hu
      · exact ht
      · exact hrun u hu
    · rintro ⟨run, rest, htext, hrun, hrest⟩
      cases run with
      | nil =>
        exact absurd (htext ▸ hrest) hnow
      | cons u run =>
        obtain ⟨rfl, rfl⟩ := List.cons.inj htext
        rw [if_pos (hrun t mem_cons_self)]
        exact (matchstar_iff c re _).mpr
          ⟨run, rest, rfl, fun u hu => hrun u (mem_cons_of_mem _ hu), hrest⟩

/-- What `matchhere` is for: the items match the text from its beginning on. -/
def Here (p : List Item × Bool) (text : Str) : Prop :=
  ∃ found after, text = found ++ after ∧ found ∈ itemsLang p.1 ∧ (p.2 = true → after = [])

theorem here_cons {i : Item} {items : List Item} {finish : Bool} {text : Str} :
    Here (i :: items, finish) text ↔
      ∃ run rest, text = run ++ rest ∧ run ∈ i.lang ∧ Here (items, finish) rest := by
  constructor
  · rintro ⟨found, after, rfl, hfound, hafter⟩
    obtain ⟨run, hrun, found', hfound', rfl⟩ := hfound
    exact ⟨run, found' ++ after, by rw [append_assoc], hrun, found', after, rfl, hfound',
      hafter⟩
  · rintro ⟨run, rest, rfl, hrun, found, after, rfl, hfound, hafter⟩
    refine ⟨run ++ found, after, by rw [append_assoc], ?_, hafter⟩
    exact Language.append_mem_mul hrun hfound

/-- **`matchhere`** matches the items of a pattern at the beginning of the text. -/
theorem matchhere_iff : ∀ (n : ℕ) (re : Str), re.length = n → ∀ text : Str,
    matchhere re text = true ↔ Here (readItems re) text := by
  intro n
  induction n using Nat.strong_induction_on with
  | _ n ih =>
    intro re hn text
    cases re with
    | nil =>
      rw [matchhere, readItems]
      exact ⟨fun _ => ⟨[], text, rfl, rfl, by simp⟩, fun _ => rfl⟩
    | cons c re =>
      rw [List.length_cons] at hn
      rw [matchhere.eq_def, readItems]
      simp only
      split_ifs with hstar hend
      · rw [matchstar_iff, here_cons]
        refine exists_congr fun run => exists_congr fun rest => and_congr_right fun _ => ?_
        refine and_congr mem_kstar_ofChar.symm ?_
        exact ih re.tail.length (by rw [List.length_tail]; omega) re.tail rfl rest
      · rw [List.isEmpty_iff]
        constructor
        · rintro rfl
          exact ⟨[], [], rfl, rfl, fun _ => rfl⟩
        · rintro ⟨found, after, rfl, hfound, hafter⟩
          rw [hafter rfl, List.append_nil]
          exact hfound
      · rw [here_cons]
        cases text with
        | nil =>
          refine ⟨fun h => absurd h (by simp), ?_⟩
          rintro ⟨run, rest, hnil, hrun, -⟩
          obtain ⟨t, rfl, -⟩ := mem_lang_ofChar.mp hrun
          exact absurd hnil (by simp)
        | cons t text =>
          have hrest := ih re.length (by omega) re rfl text
          constructor
          · intro h
            simp only at h
            split_ifs at h with ht
            exact ⟨[t], text, rfl, mem_lang_ofChar.mpr ⟨t, rfl, ht⟩, hrest.mp h⟩
          · rintro ⟨run, rest, htext, hrun, hhere⟩
            obtain ⟨u, rfl, hu⟩ := mem_lang_ofChar.mp hrun
            obtain ⟨rfl, rfl⟩ := List.cons.inj htext
            simp only
            rw [if_pos hu]
            exact hrest.mpr hhere

theorem matchLoop_iff (re : Str) : ∀ text : Str, matchLoop re text = true ↔
    ∃ before rest, text = before ++ rest ∧ matchhere re rest = true
  | [] => by
    rw [matchLoop]
    constructor
    · exact fun h => ⟨[], [], rfl, h⟩
    · rintro ⟨before, rest, hnil, h⟩
      obtain ⟨rfl, rfl⟩ := append_eq_nil_iff.mp hnil.symm
      exact h
  | t :: text => by
    rw [matchLoop]
    by_cases hnow : matchhere re (t :: text) = true
    · rw [if_pos hnow]
      exact ⟨fun _ => ⟨[], _, rfl, hnow⟩, fun _ => rfl⟩
    rw [if_neg hnow, matchLoop_iff re text]
    constructor
    · rintro ⟨before, rest, rfl, h⟩
      exact ⟨t :: before, rest, rfl, h⟩
    · rintro ⟨before, rest, htext, h⟩
      cases before with
      | nil =>
        rw [nil_append] at htext
        exact absurd (htext ▸ h) hnow
      | cons u before =>
        obtain ⟨rfl, rfl⟩ := List.cons.inj htext
        exact ⟨before, rest, rfl, h⟩

/-- **The matcher is correct**: `match` finds what the pattern says. -/
theorem match_iff (re text : Str) : matchRe re text = true ↔ (readPattern re).Matches text := by
  unfold matchRe Pattern.Matches readPattern
  by_cases hcaret : re.head? = some caret
  · simp only [hcaret, decide_true, if_true]
    rw [matchhere_iff _ re.tail rfl]
    constructor
    · rintro ⟨found, after, htext, hfound, hafter⟩
      exact ⟨[], found, after, htext, hfound, fun _ => rfl, hafter⟩
    · rintro ⟨before, found, after, htext, hfound, hbefore, hafter⟩
      rw [hbefore trivial, nil_append] at htext
      exact ⟨found, after, htext, hfound, hafter⟩
  · simp only [hcaret, decide_false, if_false, Bool.false_eq_true]
    rw [matchLoop_iff]
    constructor
    · rintro ⟨before, rest, rfl, h⟩
      obtain ⟨found, after, rfl, hfound, hafter⟩ := (matchhere_iff _ re rfl rest).mp h
      exact ⟨before, found, after, by rw [append_assoc], hfound, by simp, hafter⟩
    · rintro ⟨before, found, after, rfl, hfound, -, hafter⟩
      refine ⟨before, found ++ after, by rw [append_assoc], ?_⟩
      exact (matchhere_iff _ re rfl _).mpr ⟨found, after, rfl, hfound, hafter⟩

end Xv6.Grep
