import Mathlib.Data.List.GetD
import Xv6.History

/-!
# The buffers of the history (`user/sh.c`, `gets` of `user/ulib.c`)

What `history_add` reads and writes, index by index, for everything that
standard input can deliver: `gets` takes at most 99 bytes and stops at a newline,
at a carriage return or at the end of the input; `main` skips blanks; what is
left is recorded from there on. An index is an `int` and may come out negative.

`copyLoop_spec` is the loop of `my_strncpy`; `safe_iff` says for which commands
all indices are in bounds: for all but the empty one. `history_add_bounds` is
what this means for the input.
-/

namespace Xv6.Sh.HistoryBounds

open List

/-! ## Reading lines -/

/-- `getcmd(buf, sizeof(buf))`: the string in `buf`, unless it is empty -/
def getcmd (input : Str) : Option (Str × Str) :=
  let got := gets input
  if got.1.headD 0 = 0 then none else some (got.1.takeWhile (· ≠ 0), got.2)

theorem length_getsLoop (n : ℕ) : ∀ input : Str,
    (getsLoop n input).1.length ≤ n ∧
      (getsLoop n input).1.length + (getsLoop n input).2.length = input.length := by
  induction n with
  | zero => exact fun input => ⟨le_rfl, Nat.zero_add _⟩
  | succ n ih =>
    intro input
    cases input with
    | nil => exact ⟨Nat.zero_le _, rfl⟩
    | cons c input =>
      rw [getsLoop]
      obtain ⟨hle, hsum⟩ := ih input
      split_ifs
      · exact ⟨Nat.succ_le_succ (Nat.zero_le n), by simp [Nat.add_comm]⟩
      · refine ⟨Nat.succ_le_succ hle, ?_⟩
        simp only [length_cons]
        omega

/-- A line is not empty, has no 0, and has at most 99 bytes. -/
theorem getcmd_spec {input line rest : Str} (h : getcmd input = some (line, rest)) :
    line ≠ [] ∧ 0 ∉ line ∧ line.length ≤ 99 ∧ rest.length < input.length := by
  unfold getcmd at h
  dsimp only at h
  split_ifs at h with hnone
  obtain ⟨rfl, rfl⟩ := Prod.mk.inj (Option.some.inj h)
  obtain ⟨hle, hsum⟩ := length_getsLoop 99 input
  unfold gets at hnone ⊢
  rw [show 100 - 1 = 99 from rfl] at hnone ⊢
  cases hgot : (getsLoop 99 input).1 with
  | nil =>
    rw [hgot] at hnone
    exact absurd rfl hnone
  | cons c got =>
    rw [hgot] at hnone hle hsum
    have hcons : (c :: got).takeWhile (fun x => decide (x ≠ 0)) =
        c :: got.takeWhile fun x => decide (x ≠ 0) :=
      takeWhile_cons_of_pos (decide_eq_true hnone)
    rw [hcons]
    refine ⟨cons_ne_nil _ _, fun hmem => ?_, ?_, ?_⟩
    · rcases mem_cons.mp hmem with h0 | hmem
      · exact hnone h0.symm
      · exact absurd (mem_takeWhile_imp hmem) (by simp)
    · have := IsPrefix.length_le ( takeWhile_prefix (l := got) fun x : UInt8 => decide (x ≠ 0))
      rw [length_cons] at hle ⊢
      omega
    · rw [length_cons] at hsum
      omega

/-- The lines that `main` reads. -/
def linesRead (input : Str) : List Str :=
  match _h : getcmd input with
  | none => []
  | some (line, rest) => line :: linesRead rest
termination_by input.length
decreasing_by exact (getcmd_spec _h).2.2.2

theorem linesRead_of_none {input : Str} (h : getcmd input = none) : linesRead input = [] := by
  rw [linesRead]
  split
  · rfl
  · rename_i hget
    rw [h] at hget
    cases hget

theorem linesRead_of_some {input line rest : Str} (h : getcmd input = some (line, rest)) :
    linesRead input = line :: linesRead rest := by
  rw [linesRead]
  split
  · rename_i hget
    rw [h] at hget
    cases hget
  · rename_i hget
    rw [h] at hget
    cases hget
    rfl

/-! ## Recording a line -/

/-- The command in a line: `line` is what is in `buf`, and `cmd` points to `line[start]`. -/
structure Command where
  line : Str
  start : ℕ

/-- The command as a string. -/
def Command.text (cmd : Command) : Str := cmd.line.drop cmd.start

/-- `cmd[i]` -/
def Command.char (cmd : Command) (i : ℤ) : UInt8 := cmd.line.getD (cmd.start + i).toNat 0

/-- The command `main` gives to `history_add` for a line, if it does. -/
def recorded (line : Str) : Option Command :=
  let cmd : Command := ⟨line, (line.takeWhile isBlank).length⟩
  if cmd.char 0 = newline then none
  else if cmd.text = historyCommand then none
  else if cmd.char 0 = bang then none
  else some cmd

/-- `line_str`, and the indices used so far. -/
structure Trace where
  /-- `line_str` -/
  line_str : ℤ → UInt8
  /-- the indices at which `line_str` was written -/
  writes : List ℤ
  /-- the indices at which the command was read -/
  reads : List ℤ

/-- `line_str[i] = c` -/
def Trace.put (t : Trace) (i : ℤ) (c : UInt8) : Trace :=
  { t with line_str := Function.update t.line_str i c, writes := t.writes ++ [i] }

/-- A use of `cmd[i]`. -/
def Trace.read (t : Trace) (i : ℤ) : Trace := { t with reads := t.reads ++ [i] }

/-- The loop of `my_strncpy` from `i` on, and the 0 after it. -/
def copyLoop (cmd : Command) (n : ℤ) (i : ℕ) (t : Trace) : Trace :=
  if i < n then
    if cmd.char i = 0 then (t.read i).put i 0
    else copyLoop cmd n (i + 1) (((t.read i).read i).put i (cmd.char i))
  else t.put i 0
termination_by (n - i).toNat

/-- `my_strncpy(line_str, cmd, n)` -/
def my_strncpy (cmd : Command) (n : ℤ) (t : Trace) : Trace := copyLoop cmd n 0 t

/-- `strlen(cmd)`, which reads up to the 0 -/
def strlen (cmd : Command) (t : Trace) : Trace × ℤ :=
  ({ t with reads := t.reads ++ (List.range (cmd.text.length + 1)).map (↑) }, cmd.text.length)

/-- `history_add(cmd)`, as far as it uses the line and `line_str`, which starts with whatever
`malloc` returned -/
def history_add (cmd : Command) (line_str : ℤ → UInt8) : Trace :=
  let t : Trace := { line_str := line_str, writes := [], reads := [] }
  let t := t.put 0 0
  let (t, len) := strlen cmd t
  let off : ℤ := if cmd.char (len - 1) = newline then 2 else 1
  let t := t.read (len - 1)
  let t := my_strncpy cmd (len - off) t
  t.put (len - off) 0

/-- All indices are in bounds, and the string stored ends. -/
structure Safe (cmd : Command) (t : Trace) : Prop where
  writes : ∀ i ∈ t.writes, 0 ≤ i ∧ i < MAX_LINE_LEN
  reads : ∀ i ∈ t.reads, 0 ≤ i ∧ i ≤ cmd.text.length
  ends : ∃ i, 0 ≤ i ∧ i < MAX_LINE_LEN ∧ t.line_str i = 0

/-- The calls of `history_add` for an input. -/
def calls (input : Str) : List Command := (linesRead input).filterMap recorded

/-! ## The indices -/

variable {cmd : Command} {line : Str}

/-- From its start on, the command is its text. -/
theorem Command.char_natCast (cmd : Command) (i : ℕ) : cmd.char i = cmd.text.getD i 0 := by
  unfold Command.char Command.text
  rw [getD_eq_getElem?_getD, getD_eq_getElem?_getD, getElem?_drop]
  rfl

/-- What the loop of `my_strncpy` does from `i` on, with no 0 before `n`. -/
structure Copied (cmd : Command) (i n : ℕ) (t t' : Trace) : Prop where
  writes : ∀ j ∈ t'.writes, j ∈ t.writes ∨ (i : ℤ) ≤ j ∧ j ≤ n
  reads : ∀ j ∈ t'.reads, j ∈ t.reads ∨ (i : ℤ) ≤ j ∧ j < n
  before : ∀ j < i, t'.line_str j = t.line_str j
  copied : ∀ j, i ≤ j → j < n → t'.line_str j = cmd.char j
  stop : t'.line_str n = 0

theorem Trace.put_self (t : Trace) (i : ℤ) (c : UInt8) : (t.put i c).line_str i = c :=
  Function.update_self ..

theorem Trace.put_of_ne (t : Trace) {i j : ℤ} (c : UInt8) (h : j ≠ i) :
    (t.put i c).line_str j = t.line_str j :=
  Function.update_of_ne h ..

/-- **The loop of `my_strncpy`** copies up to `n`. -/
theorem copyLoop_spec {n : ℕ} (hn : ∀ j < n, cmd.char j ≠ 0) : ∀ (m i : ℕ) (t : Trace),
    i + m = n → Copied cmd i n t (copyLoop cmd n i t)
  | 0, i, t, h => by
    obtain rfl : i = n := h
    rw [copyLoop, if_neg (lt_irrefl _)]
    refine ⟨fun j hj => ?_, fun j hj => .inl hj, fun j hj => t.put_of_ne 0 (by omega),
      fun j hj hj' => absurd hj (by omega), t.put_self _ 0⟩
    rcases mem_append.mp hj with hj | hj
    · exact .inl hj
    · have := mem_singleton.mp hj
      exact .inr (by omega)
  | m + 1, i, t, h => by
    rw [copyLoop, if_pos (by omega), if_neg (hn i (by omega))]
    have ih := copyLoop_spec hn m (i + 1) (((t.read i).read i).put i (cmd.char i)) (by omega)
    refine ⟨fun j hj => ?_, fun j hj => ?_, fun j hj => ?_, fun j hj hj' => ?_, ih.stop⟩
    · rcases ih.writes j hj with hj | hj
      · rcases mem_append.mp hj with hj | hj
        · exact .inl hj
        · have := mem_singleton.mp hj
          exact .inr (by omega)
      · exact .inr (by omega)
    · rcases ih.reads j hj with hj | hj
      · rcases mem_append.mp hj with hj | hj
        · rcases mem_append.mp hj with hj | hj
          · exact .inl hj
          · have := mem_singleton.mp hj
            exact .inr (by omega)
        · have := mem_singleton.mp hj
          exact .inr (by omega)
      · exact .inr (by omega)
    · rw [ih.before j (by omega), Trace.put_of_ne _ _ (by omega)]
      rfl
    · by_cases hji : j = i
      · subst hji
        rw [ih.before j (by omega), Trace.put_self]
      · exact ih.copied j (by omega) hj'

/-- `len - off` -/
def Command.last (cmd : Command) : ℤ :=
  cmd.text.length - if cmd.char (cmd.text.length - 1) = newline then 2 else 1

theorem last_of_empty (h : cmd.text = []) : cmd.last < 0 := by
  unfold Command.last
  rw [h]
  split_ifs <;> simp

/-- A command that is recorded does not start with a newline. -/
theorem last_of_nonempty (h : cmd.text ≠ []) (hhead : cmd.char 0 ≠ newline) :
    0 ≤ cmd.last ∧ cmd.last < cmd.text.length := by
  have hpos : 0 < cmd.text.length := length_pos_iff.mpr h
  unfold Command.last
  split_ifs with hnl
  · have hone : cmd.text.length ≠ 1 := by
      intro hone
      rw [hone] at hnl
      exact hhead hnl
    omega
  · omega

theorem history_add_eq (cmd : Command) (g : ℤ → UInt8) : history_add cmd g =
    (my_strncpy cmd cmd.last ((strlen cmd (Trace.put ⟨g, [], []⟩ 0 0)).1.read
      (cmd.text.length - 1))).put cmd.last 0 := rfl

/-- The string that is stored. -/
theorem history_add_stored (h0 : 0 ∉ cmd.text) (h : cmd.text ≠ []) (hhead : cmd.char 0 ≠ newline)
    (g : ℤ → UInt8) : ∃ n : ℕ, cmd.last = n ∧ Copied cmd 0 n
      ((strlen cmd (Trace.put ⟨g, [], []⟩ 0 0)).1.read (cmd.text.length - 1))
      (my_strncpy cmd cmd.last ((strlen cmd (Trace.put ⟨g, [], []⟩ 0 0)).1.read
        (cmd.text.length - 1))) := by
  obtain ⟨hlo, hhi⟩ := last_of_nonempty h hhead
  obtain ⟨n, hn⟩ := Int.eq_ofNat_of_zero_le hlo
  refine ⟨n, hn, ?_⟩
  rw [hn]
  refine copyLoop_spec (fun j hj => ?_) n 0 _ (Nat.zero_add n)
  have hlt : j < cmd.text.length := by omega
  rw [Command.char_natCast, getD_eq_getElem _ _ hlt]
  exact fun hz => h0 (hz ▸ getElem_mem hlt)

theorem last_eq (h : cmd.text ≠ []) : cmd.last = lastIndex cmd.text := by
  have hpos : 0 < cmd.text.length := length_pos_iff.mpr h
  have hchar : cmd.char (cmd.text.length - 1) = cmd.text.getLast h := by
    rw [show (cmd.text.length : ℤ) - 1 = (cmd.text.length - 1 : ℕ) by omega, Command.char_natCast,
      getD_eq_getElem _ _ (by omega), getLast_eq_getElem]
  rw [Command.last, lastIndex, hchar, getLast?_eq_some_getLast h]
  simp only [Option.some_inj]

/-- **The string stored** is that of the line in the history. -/
theorem strAt_history_add (h0 : 0 ∉ cmd.text) (h : cmd.text ≠ []) (hhead : cmd.char 0 ≠ newline)
    (g : ℤ → UInt8) (k : ℕ) :
    StrAt (fun j => (history_add cmd g).line_str j) (entryOf k cmd.text).line_str := by
  obtain ⟨n, hn, hcopied⟩ := history_add_stored h0 h hhead g
  have hle := (last_of_nonempty h hhead).2
  have hstr : (entryOf k cmd.text).line_str = cmd.text.take n := by
    rw [entryOf, ← last_eq h, hn]
    rfl
  have hlen : (cmd.text.take n).length = n := by
    rw [length_take]
    omega
  rw [hn] at hcopied
  rw [history_add_eq, hstr, hn]
  refine ⟨fun j hj => ?_, ?_⟩
  · rw [hlen] at hj
    dsimp only
    rw [Trace.put_of_ne _ _ (by omega), hcopied.copied j (Nat.zero_le j) hj,
      Command.char_natCast, getD_eq_getElem?_getD, getD_eq_getElem?_getD, getElem?_take_of_lt hj]
  · dsimp only
    rw [hlen, Trace.put_self]

/-- **Which commands are safe to record**: all but the empty one. -/
theorem safe_iff (h0 : 0 ∉ cmd.text) (hlen : cmd.text.length < MAX_LINE_LEN)
    (hhead : cmd.char 0 ≠ newline) :
    (∀ g, Safe cmd (history_add cmd g)) ↔ cmd.text ≠ [] := by
  constructor
  · intro hsafe hempty
    have hmem : cmd.last ∈ (history_add cmd fun _ => 0).writes := by
      exact mem_append_right _ (mem_singleton_self _)
    have := ((hsafe fun _ => 0).writes _ hmem).1
    have := last_of_empty hempty
    omega
  · intro hne g
    obtain ⟨n, hn, hcopied⟩ := history_add_stored h0 hne hhead g
    have hlast := last_of_nonempty hne hhead
    rw [history_add_eq]
    refine ⟨fun i hi => ?_, fun i hi => ?_, n, by omega, by omega, ?_⟩
    · rcases mem_append.mp hi with hi | hi
      · rcases hcopied.writes i hi with hi | hi
        · have : i = 0 := mem_singleton.mp hi
          omega
        · omega
      · have := mem_singleton.mp hi
        omega
    · rcases hcopied.reads i hi with hi | hi
      · rcases mem_append.mp hi with hi | hi
        · obtain ⟨k, hk, rfl⟩ := mem_map.mp hi
          have := mem_range.mp hk
          omega
        · have := mem_singleton.mp hi
          omega
      · omega
    · rw [hn, Trace.put_self]

/-! ## Inputs -/

/-- The text of a line's command is the line without the blanks it starts with. -/
theorem drop_takeWhile (line : Str) :
    line.drop (line.takeWhile isBlank).length = line.dropWhile isBlank := by
  have h : line.takeWhile isBlank ++ line.dropWhile isBlank = line :=
    takeWhile_append_dropWhile
  conv_lhs => rw [← h]
  exact drop_left' (by rw [h])

theorem recorded_eq_some (h : recorded line = some cmd) :
    cmd.text = line.dropWhile isBlank ∧ cmd.char 0 ≠ newline := by
  unfold recorded at h
  dsimp only at h
  split_ifs at h with hnl hhist hbang
  cases h
  exact ⟨drop_takeWhile line, hnl⟩

/-- A line of blanks is recorded. -/
theorem recorded_of_blank (h : ∀ c ∈ line, isBlank c = true) :
    recorded line = some ⟨line, line.length⟩ := by
  have hall : line.takeWhile isBlank = line := takeWhile_eq_self_iff.mpr h
  have hchar : Command.char ⟨line, line.length⟩ 0 = 0 :=
    getD_eq_default _ _ (by simp)
  have htext : Command.text ⟨line, line.length⟩ = [] := drop_length
  unfold recorded
  dsimp only
  rw [hall, hchar, htext, if_neg (by decide), if_neg (by decide), if_neg (by decide)]

/-- What `main` reads is a string that fits. -/
theorem mem_linesRead {input : Str} (h : line ∈ linesRead input) : 0 ∉ line ∧ line.length ≤ 99 := by
  induction hn : input.length using Nat.strong_induction_on generalizing input with
  | _ n ih =>
    cases hget : getcmd input with
    | none =>
      rw [linesRead_of_none hget] at h
      cases h
    | some got =>
      obtain ⟨-, h0, hlen, hrest⟩ := getcmd_spec hget
      rw [linesRead_of_some hget] at h
      rcases mem_cons.mp h with rfl | h
      · exact ⟨h0, hlen⟩
      · exact ih got.2.length (hn ▸ hrest) h rfl

theorem mem_calls {input : Str} : cmd ∈ calls input ↔
    ∃ line ∈ linesRead input, recorded line = some cmd := mem_filterMap

/-- `history_add` stays inside its buffers for an input if and only if no line that `main` reads
from it consists of blanks alone. -/
theorem history_add_bounds (input : Str) :
    (∀ cmd ∈ calls input, ∀ g, Safe cmd (history_add cmd g)) ↔
      ∀ line ∈ linesRead input, ∃ c ∈ line, isBlank c = false := by
  have hsafe : ∀ line ∈ linesRead input, ∀ cmd, recorded line = some cmd →
      ((∀ g, Safe cmd (history_add cmd g)) ↔ cmd.text ≠ []) := by
    intro line hline cmd hrec
    obtain ⟨htext, hnl⟩ := recorded_eq_some hrec
    obtain ⟨h0, hlen⟩ := mem_linesRead hline
    have hsuffix : line.dropWhile isBlank <:+ line := dropWhile_suffix _
    refine safe_iff (fun hmem => h0 (hsuffix.subset (htext ▸ hmem))) ?_ hnl
    have := hsuffix.length_le
    rw [htext, MAX_LINE_LEN]
    omega
  constructor
  · intro h line hline
    by_contra hblank
    push Not at hblank
    have hrec := recorded_of_blank fun c hc => Bool.eq_true_of_not_eq_false (hblank c hc)
    exact (hsafe line hline _ hrec).mp (h _ (mem_calls.mpr ⟨line, hline, hrec⟩)) drop_length
  · intro h cmd hcmd
    obtain ⟨line, hline, hrec⟩ := mem_calls.mp hcmd
    refine (hsafe line hline cmd hrec).mpr ?_
    rw [(recorded_eq_some hrec).1, Ne, dropWhile_eq_nil_iff]
    obtain ⟨c, hc, hfalse⟩ := h line hline
    exact fun hall => absurd (hall c hc) (by rw [hfalse]; decide)

/-- A blank and the end of the input: the last byte of `line_num` is overwritten. -/
theorem history_add_blank : ⟨[space], 1⟩ ∈ calls [space] ∧
    -1 ∈ (history_add ⟨[space], 1⟩ fun _ => 0).writes ∧
    -1 ∈ (history_add ⟨[space], 1⟩ fun _ => 0).reads := by
  have hlines : linesRead [space] = [[space]] := by
    rw [linesRead_of_some (show getcmd [space] = some ([space], []) by decide),
      linesRead_of_none (by decide)]
  have hlast : Command.last ⟨[space], 1⟩ = -1 := rfl
  refine ⟨mem_calls.mpr ⟨[space], by rw [hlines]; exact mem_singleton_self _, rfl⟩, ?_, ?_⟩
  · rw [history_add_eq]
    exact mem_append_right _ (mem_singleton_self _)
  · rw [history_add_eq, hlast, my_strncpy, copyLoop, if_neg (by decide)]
    exact mem_append_right _ (mem_singleton_self _)

end Xv6.Sh.HistoryBounds
