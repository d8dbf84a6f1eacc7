import Mathlib.Data.Int.Notation
import Mathlib.Data.List.DropRight
import Mathlib.Tactic.Common
import Mathlib.Tactic.Ring

/-!
# Command history of the shell (`user/sh.c`)

The main loop of the shell up to the commands it runs: what is recorded, and
what a line that starts with `!` does. A line is given as `gets` delivers it, a
C string; strings are lists of bytes without the 0 at their end. An `int` is 32
bits wide.

`after_adds` says what the history is after any number of calls of `history_add`,
`history_replay` what `!` and a number do with it, and `bang_bang` what `!!` does.
-/

namespace Xv6.Sh

open List

/-- A C string, without the 0. -/
abbrev Str : Type := List UInt8

/-- `MAX_HISTORY_LEN` -/
def MAX_HISTORY_LEN : ℕ := 100

/-- `MAX_LINE_LEN` -/
def MAX_LINE_LEN : ℕ := 100

/-- `' '` -/
def space : UInt8 := 32

/-- `'\t'` -/
def tab : UInt8 := 9

/-- `'\n'` -/
def newline : UInt8 := 10

/-- `'!'` -/
def bang : UInt8 := 33

/-- Is this a character from `'0'` to `'9'`? -/
def isDigit (c : UInt8) : Bool := 48 ≤ c && c ≤ 57

/-- `struct history_line` -/
structure HistoryLine where
  line_num : BitVec 32
  line_str : Str
  deriving DecidableEq

/-- `history`, oldest line first, and `history_index` -/
structure Shell where
  history : List HistoryLine
  history_index : BitVec 32

/-- The shell when it starts. -/
def Shell.init : Shell := { history := [], history_index := 1 }

/-- What the shell does for a line. -/
inductive Action : Type where
  /-- `chdir(path)` -/
  | chdir (path : Str)
  /-- `runcmd(parsecmd(text))`, in a child -/
  | run (text : Str)
  /-- the line is printed before it is run again -/
  | echo (text : Str)
  /-- `history_show`: the lines printed -/
  | show (lines : List HistoryLine)
  /-- "-sh: no previous command" -/
  | noPrevious
  /-- "-sh: !%d: event not found" -/
  | notFound (index : BitVec 32)
  deriving DecidableEq

/-! ## The code -/

/-- `my_strncpy`: the string copied -/
def my_strncpy (src : Str) (n : ℤ) : Str := src.take n.toNat

/-- `history_add` -/
def history_add (sh : Shell) (buf : Str) : Shell :=
  let len : ℤ := buf.length
  let off : ℤ := if buf.getLast? = some newline then 2 else 1
  let hlp : HistoryLine :=
    { line_num := sh.history_index, line_str := my_strncpy buf (len - off) }
  let history := sh.history ++ [hlp]
  { history := if (MAX_HISTORY_LEN : ℤ) < sh.history_index.toInt then history.tail else history
    history_index := sh.history_index + 1 }

/-- `history_show`: the last ten lines -/
def history_show (sh : Shell) : List HistoryLine := sh.history.drop (sh.history.length - 10)

/-- `"cd "` -/
def cdSpace : Str := [99, 100, 32]

/-- What `main` and `runcmd_builtin` do with a command line, which ends in a newline. -/
def execute (cmd : Str) : Action :=
  if cdSpace <+: cmd then .chdir (cmd.dropLast.drop 3) else .run cmd

/-- `runcmd_builtin` -/
def runcmd_builtin (cmd_str : Str) : Action :=
  execute (cmd_str.take (MAX_LINE_LEN - 2) ++ [newline])

/-- The loop of `atoi`, from `n` on. -/
def atoiLoop (n : BitVec 32) : Str → BitVec 32
  | [] => n
  | c :: s => if isDigit c then atoiLoop (n * 10 + BitVec.ofNat 32 (c.toNat - 48)) s else n

/-- `atoi`; arithmetic on `int` wraps around -/
def atoi (s : Str) : BitVec 32 := atoiLoop 0 s

/-- `history_run`, for a line that starts with `!` -/
def history_run (sh : Shell) (buf : Str) : List Action :=
  if buf = [bang, bang] then
    match sh.history.getLast? with
    | none => [.noPrevious]
    | some hlp => [.echo hlp.line_str, runcmd_builtin hlp.line_str]
  else if (buf.tail.headD 0 |> isDigit) then
    let index := atoi buf.tail
    match sh.history.reverse.find? fun hlp => hlp.line_num = index with
    | none => [.notFound index]
    | some hlp => [.echo hlp.line_str, runcmd_builtin hlp.line_str]
  else
    []

/-- `"history\n"` -/
def historyCommand : Str := [104, 105, 115, 116, 111, 114, 121, 10]

/-- The blanks that `main` skips. -/
def isBlank (c : UInt8) : Bool := c == space || c == tab

/-- The body of the loop of `main`, for the line `buf`. -/
def mainLoop (sh : Shell) (buf : Str) : Shell × List Action :=
  let cmd := buf.dropWhile isBlank
  if cmd.head? = some newline then
    (sh, [])
  else if cmd = historyCommand then
    (sh, [.show (history_show sh)])
  else if cmd.head? = some bang then
    (sh, history_run sh cmd)
  else
    (history_add sh cmd, [execute cmd])

/-- The shell after a number of lines. -/
def runLines (lines : List Str) : Shell := lines.foldl (fun sh l => (mainLoop sh l).1) .init

/-! ## Recorded lines -/

/-- A line, as `gets` delivers it, that is a command to record: at most 98 characters and a newline,
the first character that is not a blank is `c`. -/
def Recorded (line : Str) : Prop :=
  ∃ blanks c t, line = blanks ++ (c :: t) ++ [newline] ∧ (blanks ++ c :: t).length ≤ 98 ∧
    (∀ b ∈ blanks, isBlank b) ∧ ¬isBlank c ∧ c ≠ newline ∧ c ≠ bang ∧ newline ∉ t ∧
    c :: t ++ [newline] ≠ historyCommand

/-- A line without the blanks it starts with and without its newline. -/
def text (line : Str) : Str := (line.dropWhile isBlank).dropLast

theorem dropWhile_blanks {blanks l : Str} {c : UInt8} (hb : ∀ b ∈ blanks, isBlank b)
    (hc : ¬isBlank c) : (blanks ++ c :: l).dropWhile isBlank = c :: l := by
  induction blanks with
  | nil => exact dropWhile_cons_of_neg hc
  | cons b blanks ih =>
    rw [cons_append, dropWhile_cons_of_pos (hb b mem_cons_self)]
    exact ih fun b hb' => hb b (mem_cons_of_mem _ hb')

namespace Recorded

variable {line : Str}

theorem trimmed (h : Recorded line) : line.dropWhile isBlank = text line ++ [newline] ∧
    text line ≠ [] ∧ (text line).length ≤ 98 := by
  obtain ⟨blanks, c, t, rfl, hlen, hb, hc, -⟩ := h
  have htrim : (blanks ++ c :: t ++ [newline]).dropWhile isBlank = c :: t ++ [newline] := by
    rw [append_assoc]
    exact dropWhile_blanks hb hc
  rw [length_append] at hlen
  rw [text, htrim, dropLast_concat]
  exact ⟨rfl, by simp, by omega⟩

/-- **A recorded line**: what `main` does with it. -/
theorem mainLoop_eq (h : Recorded line) (sh : Shell) : mainLoop sh line =
    (history_add sh (text line ++ [newline]), [execute (text line ++ [newline])]) := by
  have htrim := h.trimmed.1
  obtain ⟨blanks, c, t, rfl, -, hb, hc, hnl, hbang, -, hhist⟩ := h
  have hcmd : text (blanks ++ c :: t ++ [newline]) ++ [newline] = c :: t ++ [newline] := by
    rw [← htrim, append_assoc]
    exact dropWhile_blanks hb hc
  simp only [mainLoop, htrim, hcmd]
  rw [if_neg (by simpa using hnl), if_neg hhist, if_neg (by simpa using hbang)]

end Recorded

/-! ## The history -/

/-- `len - off`, in `history_add` -/
def lastIndex (buf : Str) : ℤ := buf.length - if buf.getLast? = some newline then 2 else 1

/-- The line that `history_add` makes of a command, with the number `k`. -/
def entryOf (k : ℕ) (buf : Str) : HistoryLine where
  line_num := BitVec.ofNat 32 k
  line_str := my_strncpy buf (lastIndex buf)

/-- This string is in memory, with the 0 that ends it. -/
def StrAt (m : ℕ → UInt8) (str : Str) : Prop :=
  (∀ j < str.length, m j = str.getD j 0) ∧ m str.length = 0

/-- Of the text of a command, the last character is missing. -/
theorem my_strncpy_text (t : Str) :
    my_strncpy (t ++ [newline]) (lastIndex (t ++ [newline])) = t.dropLast := by
  have hn : (lastIndex (t ++ [newline])).toNat = t.length - 1 := by
    rw [lastIndex, if_pos (by simp), length_append, length_singleton]
    omega
  rw [my_strncpy, hn, take_append_of_le_length (by omega), dropLast_eq_take]

/-- The lines for all commands. -/
def entries (bufs : List Str) : List HistoryLine := bufs.mapIdx fun i buf => entryOf (i + 1) buf

theorem entries_concat (bufs : List Str) (buf : Str) :
    entries (bufs ++ [buf]) = entries bufs ++ [entryOf (bufs.length + 1) buf] := mapIdx_concat

theorem length_entries (bufs : List Str) : (entries bufs).length = bufs.length := length_mapIdx

theorem tail_drop_concat {α : Type} {l : List α} {n : ℕ} (hn : n ≤ l.length) (x : α) :
    (l.drop n ++ [x]).tail = (l ++ [x]).drop (n + 1) := by
  rw [← drop_append_of_le_length hn, ← drop_one, drop_drop]

/-- **The history after any number of commands** has the last of them, up to `MAX_HISTORY_LEN`. -/
theorem after_adds {bufs : List Str} (hn : bufs.length < 2 ^ 31) :
    bufs.foldl history_add .init =
      { history := (entries bufs).drop (bufs.length - MAX_HISTORY_LEN)
        history_index := BitVec.ofNat 32 (bufs.length + 1) } := by
  induction bufs using reverseRecOn with
  | nil => rfl
  | append_singleton bufs buf ih =>
    rw [length_append, length_singleton] at hn ⊢
    have hint : (BitVec.ofNat 32 (bufs.length + 1)).toInt = ((bufs.length + 1 : ℕ) : ℤ) := by
      rw [BitVec.toInt_ofNat', Int.bmod_eq_of_le] <;> omega
    have hlen := length_entries bufs
    rw [foldl_append, foldl_cons, foldl_nil, ih (by omega), entries_concat]
    unfold history_add
    dsimp only
    rw [hint, ← lastIndex, ← entryOf]
    refine congrArg₂ Shell.mk ?_ (BitVec.ofNat_add ..).symm
    split
    · rename_i hfull
      rw [tail_drop_concat (by omega)]
      congr 1
      omega
    · rename_i hroom
      rw [drop_append_of_le_length (by omega)]
      congr 2
      omega

theorem runLines_eq {lines : List Str} (hl : ∀ l ∈ lines, Recorded l) :
    runLines lines = (lines.map fun l => text l ++ [newline]).foldl history_add .init := by
  rw [runLines, foldl_map]
  refine foldl_ext _ _ _ fun sh l h => ?_
  rw [(hl l h).mainLoop_eq]

/-- A line is in the history if it is one of the last. -/
theorem mem_history {lines : List Str} (hl : ∀ l ∈ lines, Recorded l) (hn : lines.length < 2 ^ 31)
    {e : HistoryLine} : e ∈ (runLines lines).history ↔ ∃ k, k < lines.length ∧
      lines.length ≤ k + MAX_HISTORY_LEN ∧
      ∃ l, lines[k]? = some l ∧ e = entryOf (k + 1) (text l ++ [newline]) := by
  rw [runLines_eq hl, after_adds (by rwa [length_map]), mem_iff_getElem?]
  simp only [entries, List.getElem?_drop, List.getElem?_mapIdx, List.getElem?_map, length_map,
    Option.map_map, Option.map_eq_some_iff, Function.comp_apply]
  constructor
  · rintro ⟨i, l, hi, rfl⟩
    have hlt := (List.getElem?_eq_some_iff.mp hi).1
    exact ⟨_, hlt, by omega, l, hi, rfl⟩
  · rintro ⟨k, hk, hrecent, l, hkl, rfl⟩
    have hsum : lines.length - MAX_HISTORY_LEN + (k - (lines.length - MAX_HISTORY_LEN)) = k := by
      omega
    refine ⟨k - (lines.length - MAX_HISTORY_LEN), l, ?_, ?_⟩
    · rwa [hsum]
    · rw [hsum]

/-! ## `!` and a number -/

/-- The number a string of digits denotes. -/
def value (d : Str) : ℕ := d.foldl (fun n c => n * 10 + (c.toNat - 48)) 0

theorem atoiLoop_digits {d : Str} (hd : ∀ c ∈ d, isDigit c) (n : ℕ) :
    atoiLoop (BitVec.ofNat 32 n) (d ++ [newline]) =
      BitVec.ofNat 32 (d.foldl (fun n c => n * 10 + (c.toNat - 48)) n) := by
  induction d generalizing n with
  | nil => rfl
  | cons c d ih =>
    rw [cons_append, atoiLoop, if_pos (hd c mem_cons_self), foldl_cons,
      ← ih fun c hc => hd c (mem_cons_of_mem _ hc)]
    rw [BitVec.ofNat_add, BitVec.ofNat_mul]
    rfl

theorem atoi_digits {d : Str} (hd : ∀ c ∈ d, isDigit c) :
    atoi (d ++ [newline]) = BitVec.ofNat 32 (value d) := atoiLoop_digits hd 0

/-- What `!` and a number do: the newest line with that number is run again. -/
theorem mainLoop_bang (sh : Shell) {d : Str} (hd : ∀ c ∈ d, isDigit c) (hne : d ≠ []) :
    (mainLoop sh (bang :: d ++ [newline])).2 =
      match sh.history.reverse.find? fun e => e.line_num = BitVec.ofNat 32 (value d) with
      | none => [.notFound (BitVec.ofNat 32 (value d))]
      | some e => [.echo e.line_str, runcmd_builtin e.line_str] := by
  obtain ⟨c, d', rfl⟩ := exists_cons_of_ne_nil hne
  have hc := hd c mem_cons_self
  have hcb : c ≠ bang := by
    rintro rfl
    cases hc
  have htrim : (bang :: (c :: d') ++ [newline]).dropWhile isBlank =
      bang :: (c :: d') ++ [newline] := dropWhile_cons_of_neg (by decide)
  rw [mainLoop]
  simp only [htrim]
  rw [if_neg (by simp [bang, newline]), if_neg (by simp [bang, historyCommand]), if_pos (by simp),
    history_run, if_neg (by simp [hcb]), if_pos (by simpa using hc)]
  have hindex : atoi (bang :: (c :: d') ++ [newline]).tail =
      BitVec.ofNat 32 (value (c :: d')) := atoi_digits hd
  simp only [hindex]

theorem ofNat_inj {i j : ℕ} (hi : i < 2 ^ 32) (hj : j < 2 ^ 32)
    (h : BitVec.ofNat 32 i = BitVec.ofNat 32 j) : i = j := by
  have := congrArg BitVec.toNat h
  rwa [BitVec.toNat_ofNat, BitVec.toNat_ofNat, Nat.mod_eq_of_lt hi, Nat.mod_eq_of_lt hj] at this

section

variable {lines : List Str} (hl : ∀ l ∈ lines, Recorded l) (hn : lines.length < 2 ^ 31)
include hl hn

/-- The newest line with a number of the history is the line with that number. -/
theorem find_history {k : ℕ} {l : Str} (hk : lines[k]? = some l)
    (hrecent : lines.length ≤ k + MAX_HISTORY_LEN) :
    (runLines lines).history.reverse.find? (fun e => e.line_num = BitVec.ofNat 32 (k + 1)) =
      some (entryOf (k + 1) (text l ++ [newline])) := by
  have hlt := (List.getElem?_eq_some_iff.mp hk).1
  rcases hfind : (runLines lines).history.reverse.find?
      (fun e => e.line_num = BitVec.ofNat 32 (k + 1)) with _ | e
  · have hmem : entryOf (k + 1) (text l ++ [newline]) ∈ (runLines lines).history.reverse :=
      mem_reverse.mpr ((mem_history hl hn).mpr ⟨k, hlt, hrecent, l, hk, rfl⟩)
    have := find?_eq_none.mp hfind _ hmem
    simp [entryOf] at this
  · have hnum : e.line_num = BitVec.ofNat 32 (k + 1) := by simpa using find?_some hfind
    obtain ⟨j, hj, -, l', hl', rfl⟩ :=
      (mem_history hl hn).mp (mem_reverse.mp (mem_of_find?_eq_some hfind))
    have hjk : j + 1 = k + 1 := ofNat_inj (by omega) (by omega) hnum
    obtain rfl : j = k := by omega
    rw [Option.some.inj (hk.symm.trans hl'), hfind]

/-- There is no line with a number that is not one of the last. -/
theorem find_history_none {v : ℕ} (hv : v < 2 ^ 32)
    (hno : ∀ k < lines.length, lines.length ≤ k + MAX_HISTORY_LEN → v ≠ k + 1) :
    (runLines lines).history.reverse.find? (fun e => e.line_num = BitVec.ofNat 32 v) = none := by
  rw [find?_eq_none]
  intro e he
  obtain ⟨j, hj, hrecent, l, -, rfl⟩ := (mem_history hl hn).mp (mem_reverse.mp he)
  rw [decide_eq_true_eq]
  intro heq
  exact hno j hj hrecent (ofNat_inj (by omega) hv heq).symm

end

/-- What the shell does for a command of which the text is `t`. -/
def perform (t : Str) : Action := execute (t ++ [newline])

theorem runcmd_builtin_eq {t : Str} (ht : t.length ≤ 98) : runcmd_builtin t = perform t := by
  rw [runcmd_builtin, perform, take_of_length_le (i := MAX_LINE_LEN - 2) ht]

theorem length_of_cd {t : Str} (h : cdSpace <+: t ++ [newline]) : 3 ≤ t.length := by
  have hlen := h.length_le
  rw [length_append, length_singleton, show cdSpace.length = 3 from rfl] at hlen
  by_contra hlt
  have heq : cdSpace = t ++ [newline] := h.eq_of_length (by
    rw [length_append, length_singleton, show cdSpace.length = 3 from rfl]
    omega)
  have := congrArg getLast? heq
  rw [getLast?_concat] at this
  exact absurd this (by decide)

/-- Running a command without its last character is not running the command. -/
theorem perform_dropLast_ne {t : Str} (ht : t ≠ []) : perform t.dropLast ≠ perform t := by
  have hlen : t.dropLast.length + 1 = t.length := by
    rw [length_dropLast]
    have := length_pos_iff.mpr ht
    omega
  unfold perform execute
  rw [dropLast_concat, dropLast_concat]
  intro heq
  split at heq
  · rename_i hcd
    have h3 := length_of_cd hcd
    split_ifs at heq
    have := congrArg length (Action.chdir.inj heq)
    rw [length_drop, length_drop] at this
    omega
  · split_ifs at heq
    have := congrArg length (Action.run.inj heq)
    rw [length_append, length_append] at this
    omega

theorem ofNat_mod (v : ℕ) : BitVec.ofNat 32 (v % 2 ^ 32) = BitVec.ofNat 32 v :=
  BitVec.eq_of_toNat_eq (by rw [BitVec.toNat_ofNat, BitVec.toNat_ofNat, Nat.mod_mod])

/-- After these lines, `!` and the digits `d` do what they should: for the number of one of the last
`MAX_HISTORY_LEN` lines what that line did, and for another number "event not found" is printed. -/
def Faithful (lines : List Str) (d : Str) : Prop :=
  (∀ k l, value d = k + 1 → lines[k]? = some l → lines.length ≤ k + MAX_HISTORY_LEN →
    ∃ t, (mainLoop (runLines lines) (bang :: d ++ [newline])).2 =
      .echo t :: (mainLoop (runLines (lines.take k)) l).2) ∧
  ((∀ k < lines.length, lines.length ≤ k + MAX_HISTORY_LEN → value d ≠ k + 1) →
    ∃ index, (mainLoop (runLines lines) (bang :: d ++ [newline])).2 = [.notFound index])

/-- **What `!` and a number do.** After any number of recorded lines, with the number as an `int`
has it:

* if it is that of one of the last `MAX_HISTORY_LEN` lines, then the text of that line without its
  last character is run, which is never what the line itself did;
* if it is not, then "event not found" is printed.

So the line does what it should in the second case, and only then. -/
theorem history_replay {lines : List Str} (hl : ∀ l ∈ lines, Recorded l)
    (hn : lines.length < 2 ^ 31) {d : Str} (hd : ∀ c ∈ d, isDigit c) (hne : d ≠ []) :
    (∀ k l, value d % 2 ^ 32 = k + 1 → lines[k]? = some l →
      lines.length ≤ k + MAX_HISTORY_LEN →
      (mainLoop (runLines (lines.take k)) l).2 = [perform (text l)] ∧
      (mainLoop (runLines lines) (bang :: d ++ [newline])).2 =
        [.echo (text l).dropLast, perform (text l).dropLast] ∧
      perform (text l).dropLast ≠ perform (text l)) ∧
    ((∀ k < lines.length, lines.length ≤ k + MAX_HISTORY_LEN → value d % 2 ^ 32 ≠ k + 1) →
      (mainLoop (runLines lines) (bang :: d ++ [newline])).2 =
        [.notFound (BitVec.ofNat 32 (value d))]) ∧
    (Faithful lines d ↔
      ∀ k < lines.length, lines.length ≤ k + MAX_HISTORY_LEN → value d % 2 ^ 32 ≠ k + 1) := by
  have hfound : ∀ k l, value d % 2 ^ 32 = k + 1 → lines[k]? = some l →
      lines.length ≤ k + MAX_HISTORY_LEN →
      (mainLoop (runLines (lines.take k)) l).2 = [perform (text l)] ∧
      (mainLoop (runLines lines) (bang :: d ++ [newline])).2 =
        [.echo (text l).dropLast, perform (text l).dropLast] ∧
      perform (text l).dropLast ≠ perform (text l) := by
    intro k l hval hk hrecent
    have hrec := hl l (mem_of_getElem? hk)
    obtain ⟨-, htext, hlen⟩ := hrec.trimmed
    rw [mainLoop_bang _ hd hne, ← ofNat_mod, hval, find_history hl hn hk hrecent]
    dsimp only [entryOf]
    rw [my_strncpy_text, runcmd_builtin_eq (by rw [length_dropLast]; omega), hrec.mainLoop_eq]
    exact ⟨rfl, rfl, perform_dropLast_ne htext⟩
  have hmissing : (∀ k < lines.length, lines.length ≤ k + MAX_HISTORY_LEN →
      value d % 2 ^ 32 ≠ k + 1) → (mainLoop (runLines lines) (bang :: d ++ [newline])).2 =
        [.notFound (BitVec.ofNat 32 (value d))] := by
    intro hno
    rw [mainLoop_bang _ hd hne, ← ofNat_mod,
      find_history_none hl hn (Nat.mod_lt _ (by decide)) hno]
  refine ⟨hfound, hmissing, fun hfaithful k hk hrecent hval => ?_, fun hno => ⟨?_, fun _ =>
    ⟨_, hmissing hno⟩⟩⟩
  · obtain ⟨horig, hbang, hdiffers⟩ := hfound k _ hval (getElem?_eq_getElem hk) hrecent
    by_cases heq : value d = k + 1
    · obtain ⟨t, ht⟩ := hfaithful.1 k _ heq (getElem?_eq_getElem hk) hrecent
      rw [hbang, horig, cons.injEq, cons.injEq] at ht
      exact hdiffers ht.2.1
    · -- the number is too large for an `int`, and is taken for that of a line
      obtain ⟨index, hindex⟩ := hfaithful.2 fun j hj _ => by omega
      rw [hbang] at hindex
      cases hindex
  · intro k l hval hk hrecent
    have hlt := (List.getElem?_eq_some_iff.mp hk).1
    exact absurd (by omega) (hno k hlt hrecent)

/-- "ls\n" -/
def lsLine : Str := [108, 115, 10]

theorem recorded_ls : Recorded lsLine :=
  ⟨[], 108, [115], rfl, by decide, by simp, by decide, by decide, by decide, by decide, by decide⟩

/-- After `ls`, `!1` runs `l`, and `!2` is not found. -/
theorem history_replay_ls :
    (mainLoop (runLines [lsLine]) [bang, 49, newline]).2 = [.echo [108], perform [108]] ∧
    (mainLoop (runLines [lsLine]) [bang, 50, newline]).2 = [.notFound 2] := by
  have hl : ∀ l ∈ [lsLine], Recorded l := fun l h => mem_singleton.mp h ▸ recorded_ls
  refine ⟨?_, ?_⟩
  · exact ((history_replay (d := [49]) hl (by decide) (by decide +kernel) (by decide)).1
      0 lsLine rfl rfl (by decide)).2.1
  · exact (history_replay (d := [50]) hl (by decide) (by decide +kernel) (by decide)).2.1
      (by decide)

/-- `ls` runs `ls`, and `!1` after it runs `l`. -/
theorem replay_differs :
    (mainLoop .init lsLine).2 = [.run [108, 115, 10]] ∧
    (mainLoop (mainLoop .init lsLine).1 [bang, 49, newline]).2 = [.echo [108], .run [108, 10]] ∧
    -- 4294967297 is not the number of a line, but is taken for 1
    (mainLoop (mainLoop .init lsLine).1
      [bang, 52, 50, 57, 52, 57, 54, 55, 50, 57, 55, newline]).2 = [.echo [108], .run [108, 10]] := by
  decide

/-! ## `!!` -/

/-- `'\r'` -/
def carriageReturn : UInt8 := 13

/-- The loop of `gets`, with room for `n` characters: the line, and what is left of the input. -/
def getsLoop : ℕ → Str → Str × Str
  | 0, input => ([], input)
  | _ + 1, [] => ([], [])
  | n + 1, c :: input =>
    if c = newline ∨ c = carriageReturn then ([c], input)
    else (c :: (getsLoop n input).1, (getsLoop n input).2)

/-- `gets(buf, sizeof(buf))`, in `getcmd` -/
def gets (input : Str) : Str × Str := getsLoop (100 - 1) input

/-- A line up to its terminator, if there is room for it. -/
theorem getsLoop_append {l input : Str} {n : ℕ} (hn : l.length ≤ n)
    (hl : ∀ c ∈ l, c ≠ newline ∧ c ≠ carriageReturn) :
    (getsLoop n (l ++ input)).1 = l ++ (getsLoop (n - l.length) input).1 := by
  induction l generalizing n with
  | nil => rfl
  | cons c l ih =>
    obtain ⟨n, rfl⟩ : ∃ m, n = m + 1 := ⟨n - 1, by rw [length_cons] at hn; omega⟩
    have hc := hl c mem_cons_self
    rw [cons_append, getsLoop, if_neg (not_or.mpr hc)]
    rw [ih (by simpa using hn) fun x hx => hl x (mem_cons_of_mem _ hx), length_cons,
      Nat.add_sub_add_right, cons_append]

/-- The terminator is delivered with the line, unless the input ends there or the buffer is full. -/
theorem gets_bang_bang {blanks input : Str} (hb : ∀ b ∈ blanks, isBlank b)
    (hlen : blanks.length ≤ 97)
    (hinput : ∀ t ∈ input.head?, t = newline ∨ t = carriageReturn) :
    (gets (blanks ++ [bang, bang] ++ input)).1 = blanks ++ [bang, bang] ∨
      ∃ t, (t = newline ∨ t = carriageReturn) ∧
        (gets (blanks ++ [bang, bang] ++ input)).1 = blanks ++ [bang, bang, t] := by
  have hblank : ∀ c, isBlank c → c ≠ newline ∧ c ≠ carriageReturn := by
    intro c hc
    rw [isBlank, Bool.or_eq_true, beq_iff_eq, beq_iff_eq] at hc
    rcases hc with rfl | rfl <;> decide
  have hl : ∀ c ∈ blanks ++ [bang, bang], c ≠ newline ∧ c ≠ carriageReturn := by
    intro c hc
    rcases mem_append.mp hc with hc | hc
    · exact hblank c (hb c hc)
    · have hbang : c = bang := by simpa using hc
      rw [hbang]
      decide
  rw [gets, getsLoop_append (by simpa using hlen) hl]
  generalize 100 - 1 - (blanks ++ [bang, bang]).length = room
  rcases room with _ | room
  · exact .inl (append_nil _)
  rcases input with _ | ⟨t, input⟩
  · exact .inl (append_nil _)
  have ht := hinput t rfl
  refine .inr ⟨t, ht, ?_⟩
  rw [getsLoop, if_pos ht, append_assoc]
  rfl

/-- A line that starts with `!` is given to `history_run`, without the blanks before it. -/
theorem mainLoop_blanks_bang (sh : Shell) {blanks l : Str} (hb : ∀ b ∈ blanks, isBlank b) :
    (mainLoop sh (blanks ++ bang :: l)).2 = history_run sh (bang :: l) := by
  have htrim : (blanks ++ bang :: l).dropWhile isBlank = bang :: l :=
    dropWhile_blanks hb (by decide)
  rw [mainLoop]
  simp only [htrim]
  rw [if_neg (by simp [bang, newline]), if_neg (by simp [bang, historyCommand]), if_pos (by simp)]

/-- The newest line is found by its number. -/
theorem find_last {h : List HistoryLine} {e : HistoryLine} (he : h.getLast? = some e) :
    h.reverse.find? (fun x => x.line_num = e.line_num) = some e := by
  obtain ⟨h', rfl⟩ := getLast?_eq_some_iff.mp he
  simp

/-- **What `!!` does.** Where `gets` delivers it without the terminator, which it does at the end
of the input and when the line fills the buffer, the newest line is run again, as with `!` and its
number, and without a line the shell says so. With the terminator nothing is done at all. -/
theorem bang_bang (lines : List Str) {blanks input : Str} (hb : ∀ b ∈ blanks, isBlank b)
    (hlen : blanks.length ≤ 97)
    (hinput : ∀ t ∈ input.head?, t = newline ∨ t = carriageReturn) :
    let line := (gets (blanks ++ [bang, bang] ++ input)).1
    let sh := runLines lines
    (line = blanks ++ [bang, bang] →
      (sh.history = [] → (mainLoop sh line).2 = [.noPrevious]) ∧
      ∀ e, sh.history.getLast? = some e → ∀ d, (∀ c ∈ d, isDigit c) → d ≠ [] →
        (value d : ℤ) = e.line_num.toInt →
        (mainLoop sh line).2 = (mainLoop sh (bang :: d ++ [newline])).2) ∧
    (line ≠ blanks ++ [bang, bang] → (mainLoop sh line).2 = []) := by
  intro line sh
  constructor
  · intro hline
    rw [hline, mainLoop_blanks_bang sh hb, history_run, if_pos rfl]
    constructor
    · intro hnil
      rw [hnil]
      rfl
    · intro e he d hd hne hval
      have hnum : BitVec.ofNat 32 (value d) = e.line_num := by
        rw [← BitVec.ofInt_natCast, hval, BitVec.ofInt_toInt]
      rw [mainLoop_bang sh hd hne, hnum, find_last he, he]
  · intro hline
    obtain ⟨t, ht, heq⟩ := (gets_bang_bang hb hlen hinput).resolve_left hline
    have hdigit : ¬isDigit bang = true := by decide
    rw [show line = _ from heq, mainLoop_blanks_bang sh hb, history_run, if_neg (by simp)]
    exact if_neg hdigit

/-- After `ls`, `!!` at the end of the input does what `!1` does. -/
theorem bang_bang_ls :
    (mainLoop (runLines [lsLine]) (gets [bang, bang]).1).2 =
      (mainLoop (runLines [lsLine]) [bang, 49, newline]).2 :=
  ((@bang_bang [lsLine] [] [] (by simp) (by simp) (by simp)).1 rfl).2
    ⟨1, [108]⟩ rfl [49] (forall_mem_singleton.mpr rfl) (by decide) (by decide)

/-- `!!` and a newline do nothing, where `!1` runs a line, and where there is none. -/
theorem bang_bang_ignored :
    (mainLoop (runLines [lsLine]) (gets [bang, bang, newline]).1).2 = [] ∧
    (mainLoop (runLines [lsLine]) (gets [bang, 49, newline]).1).2 =
      [.echo [108], .run [108, 10]] ∧
    (mainLoop .init (gets [bang, bang, newline]).1).2 = [] := by
  decide

end Xv6.Sh
