import Xv6.Console

/-!
# The console is a bounded line editor

The reference is a queue of committed bytes and a line that is being edited,
with together at most `INPUT_BUF_SIZE` bytes; it has no indices. `Represents`
says which editor a buffer with its three indices stands for. Every character
typed and every read keeps the buffer and the editor together
(`Represents.intr`, `readLoop_eq`), so in runs of any length calls return the
same from both (`line_editor`).
-/

namespace Xv6.Console

open Function List

/-! ## The reference -/

/-- What has been committed, and the line that is being edited. -/
structure Editor where
  committed : List UInt8
  line : List UInt8

namespace Editor

/-- No character fits any more. -/
def full (ed : Editor) : Bool := INPUT_BUF_SIZE ≤ ed.committed.length + ed.line.length

/-- The line can be read. -/
def commit (ed : Editor) : Editor := ⟨ed.committed ++ ed.line, []⟩

/-- The line with one more character. -/
def add (ed : Editor) (c : UInt8) : Editor := { ed with line := ed.line ++ [c] }

/-- A character is typed. -/
def type (ed : Editor) (c : UInt8) : Editor :=
  if c = ctrlU then { ed with line := [] }
  else if c = ctrlH ∨ c = delete then { ed with line := ed.line.dropLast }
  else if c = 0 ∨ c = ctrlP ∨ ed.full then ed
  else
    let c := if c = carriageReturn then newline else c
    if c = newline ∨ c = ctrlD ∨ (ed.add c).full then (ed.add c).commit else ed.add c

/-- Read at most `n` bytes, after those that have been delivered to the call: the bytes, what stays
committed, and how many bytes are still wanted if the call waits for more. A byte for which there is
no room at the destination is lost. -/
def take (limit : ℕ) (got : List UInt8) : ℕ → List UInt8 → List UInt8 × List UInt8 × Option ℕ
  | 0, q => (got, q, none)
  | n + 1, [] => (got, [], some (n + 1))
  | n + 1, c :: q =>
    if c = ctrlD then (got, if got = [] then q else c :: q, none)
    else if limit ≤ got.length then (got, q, none)
    else if c = newline then (got ++ [c], q, none)
    else take limit (got ++ [c]) n q

end Editor

/-- A call that waits. -/
structure Waiting where
  /-- the number of bytes that it still wants -/
  n : ℕ
  limit : ℕ
  got : List UInt8

/-- The editor, the calls that wait, and what calls have returned. -/
structure Reference where
  editor : Editor
  waiting : ℕ → Option Waiting
  returns : List Return

namespace Reference

def init : Reference where
  editor := ⟨[], []⟩
  waiting := fun _ => none
  returns := []

/-- A call gets what there is, and returns or waits. A call that has to wait for a process that has
been killed returns -1. -/
def read (s : Reference) (p : ℕ) (killed : Bool) (rd : Waiting) : Reference :=
  match Editor.take rd.limit rd.got rd.n s.editor.committed with
  | (got, q, none) =>
    { editor := { s.editor with committed := q }
      waiting := update s.waiting p none
      returns := s.returns ++ [⟨p, rd.got.length + rd.n, got.length, got⟩] }
  | (got, q, some n) =>
    if killed then
      { editor := { s.editor with committed := q }
        waiting := update s.waiting p none
        returns := s.returns ++ [⟨p, rd.got.length + rd.n, -1, got⟩] }
    else
      { s with
        editor := { s.editor with committed := q }
        waiting := update s.waiting p (some { rd with n := n, got := got }) }

def step (s : Reference) : Event → Outcome Reference
  | .intr c => .ok { s with editor := s.editor.type c }
  | .read p n limit killed =>
    match s.waiting p with
    | some _ => .blocked
    | none => .ok (s.read p killed ⟨n.toNat, limit, []⟩)
  | .wake p killed =>
    match s.waiting p with
    | none => .blocked
    | some rd => .ok (s.read p killed rd)

end Reference

/-! ## Representation -/

/-- The committed bytes. -/
def Cons.committed (s : Cons) : Ring UInt8 32 := ⟨s.buf, s.r, s.w⟩

/-- The line. -/
def Cons.line (s : Cons) : Ring UInt8 32 := ⟨s.buf, s.w, s.e⟩

/-- The bytes of the editor are in the buffer. -/
structure Holds (s : Cons) (ed : Editor) : Prop where
  committed : s.committed.contents INPUT_BUF_SIZE = ed.committed
  line : s.line.contents INPUT_BUF_SIZE = ed.line
  bound : ed.committed.length + ed.line.length ≤ INPUT_BUF_SIZE

/-- **The editor that the buffer stands for.** A newline would have been committed, so none is in
the line. -/
structure Represents (s : Cons) (ed : Editor) : Prop extends Holds s ed where
  newline : newline ∉ ed.line

theorem dvd_size : INPUT_BUF_SIZE ∣ 2 ^ 32 := by decide

namespace Holds

variable {s : Cons} {ed : Editor} {c : UInt8}

theorem count_committed (h : Holds s ed) : s.committed.count = ed.committed.length := by
  rw [← h.committed, Ring.length_contents]

theorem count_line (h : Holds s ed) : s.line.count = ed.line.length := by
  rw [← h.line, Ring.length_contents]

theorem count_add_lt (h : Holds s ed) : s.committed.count + s.line.count < 2 ^ 32 := by
  have hbound := h.bound
  have hsize : INPUT_BUF_SIZE < 2 ^ 32 := by decide
  rw [h.count_committed, h.count_line]
  omega

/-- The bytes in the buffer are the committed ones and those of the line. -/
theorem count (h : Holds s ed) : (s.e - s.r).toNat = ed.committed.length + ed.line.length := by
  rw [← h.count_committed, ← h.count_line]
  exact Ring.count_append (d := s.buf) h.count_add_lt

theorem full_iff (h : Holds s ed) : ed.full = true ↔ (s.e - s.r).toNat = INPUT_BUF_SIZE := by
  have hbound := h.bound
  rw [h.count, Editor.full, decide_eq_true_iff]
  omega

theorem line_eq_nil (h : Holds s ed) : ed.line = [] ↔ s.e = s.w := by
  rw [← length_eq_zero_iff, ← h.count_line, Ring.count_eq_zero]
  exact eq_comm

/-- A character is added to the line, in a cell that no byte is in. -/
theorem add (h : Holds s ed) (hfull : ed.full = false) :
    Holds { s with
      buf := update s.buf (s.e.toNat % INPUT_BUF_SIZE) c, e := s.e + 1#32 } (ed.add c) := by
  have hlt : ed.committed.length + ed.line.length < INPUT_BUF_SIZE := by
    simpa [Editor.full] using hfull
  have hcell : s.e.toNat % INPUT_BUF_SIZE =
      (s.r.toNat + (s.e - s.r).toNat) % INPUT_BUF_SIZE :=
    Ring.wr_cell (r := ⟨s.buf, s.r, s.e⟩) dvd_size
  have hline := h.count_line
  refine ⟨?_, ?_, ?_⟩
  · refine Eq.trans (map_congr_left fun j hj => update_of_ne ?_ ..) h.committed
    have hj : j < ed.committed.length := by
      rw [← h.count_committed]
      exact mem_range.mp hj
    rw [hcell, h.count]
    exact Ring.index_ne (by omega) hlt
  · refine (Ring.contents_push (r := s.line) dvd_size (by decide) (by omega)).trans ?_
    rw [h.line]
    rfl
  · rw [Editor.add, length_append, length_singleton]
    dsimp only
    omega

/-- The line is committed. -/
theorem commit (h : Holds s ed) : Represents { s with w := s.e } ed.commit := by
  refine ⟨⟨?_, ?_, ?_⟩, not_mem_nil⟩
  · refine (Ring.contents_append dvd_size h.count_add_lt).trans ?_
    show s.committed.contents INPUT_BUF_SIZE ++ s.line.contents INPUT_BUF_SIZE = _
    rw [h.committed, h.line]
    rfl
  · refine length_eq_zero_iff.mp ?_
    rw [Ring.length_contents, Ring.count_eq_zero]
    rfl
  · have hbound := h.bound
    simpa [Editor.commit] using hbound

end Holds

namespace Represents

variable {s : Cons} {ed : Editor} {c : UInt8}

/-- The last character of the line is erased. -/
theorem erase (h : Represents s ed) (hne : s.e ≠ s.w) :
    Represents { s with e := s.e - 1#32 } { ed with line := ed.line.dropLast } := by
  refine ⟨⟨h.committed, ?_, ?_⟩, fun hmem => h.newline (dropLast_subset _ hmem)⟩
  · rw [← h.line]
    exact Ring.contents_unpush hne.symm
  · have hbound := h.bound
    have hle : ed.line.dropLast.length = ed.line.length - 1 := length_dropLast
    dsimp only
    omega

/-- The last character of the line is not a newline. -/
theorem last_ne_newline (h : Represents s ed) (hne : s.e ≠ s.w) :
    s.buf ((s.e - 1#32).toNat % INPUT_BUF_SIZE) ≠ Console.newline := by
  intro heq
  refine h.newline ?_
  have hcount : s.line.count = ({ s with e := s.e - 1#32 } : Cons).line.count + 1 :=
    Ring.count_unpush hne.symm
  have hcell : (s.e - 1#32).toNat % INPUT_BUF_SIZE =
      (s.w.toNat + ({ s with e := s.e - 1#32 } : Cons).line.count) % INPUT_BUF_SIZE :=
    Ring.wr_cell (r := ({ s with e := s.e - 1#32 } : Cons).line) dvd_size
  rw [← h.line, ← heq, hcell]
  exact mem_map.mpr ⟨_, mem_range.mpr (by omega), rfl⟩

/-- **The line is killed.** -/
theorem kill (h : Represents s ed) {fuel : ℕ} (hfuel : ed.line.length ≤ fuel) :
    Represents (killLoop fuel s) { ed with line := [] } := by
  induction fuel generalizing s ed with
  | zero =>
    obtain ⟨committed, line⟩ := ed
    obtain rfl : line = [] := length_eq_zero_iff.mp (Nat.le_zero.mp hfuel)
    exact h
  | succ fuel ih =>
    rw [killLoop]
    by_cases hne : s.e = s.w
    · obtain ⟨committed, line⟩ := ed
      obtain rfl : line = [] := h.line_eq_nil.mpr hne
      rw [if_neg (fun hand => hand.1 hne)]
      exact h
    · rw [if_pos ⟨hne, h.last_ne_newline hne⟩]
      have hlength : ed.line.dropLast.length ≤ fuel := by
        rw [length_dropLast]
        omega
      have hkill := ih (h.erase hne) hlength
      exact hkill

/-- **A character is typed.** -/
theorem intr (h : Represents s ed) (c : UInt8) : Represents (consoleintr s c) (ed.type c) := by
  rw [consoleintr, Editor.type]
  by_cases hP : c = ctrlP
  · subst hP
    exact h
  rw [if_neg hP]
  by_cases hU : c = ctrlU
  · rw [if_pos hU, if_pos hU]
    exact h.kill h.count_line.ge
  rw [if_neg hU, if_neg hU]
  by_cases hH : c = ctrlH ∨ c = delete
  · rw [if_pos hH, if_pos hH]
    split_ifs with hne
    · exact h.erase hne
    · obtain ⟨committed, line⟩ := ed
      obtain rfl : line = [] := h.line_eq_nil.mpr (not_not.mp hne)
      exact h
  rw [if_neg hH, if_neg hH]
  by_cases hdrop : c = 0 ∨ ed.full = true
  · rw [if_neg, if_pos (hdrop.imp_right .inr)]
    · exact h
    · rintro ⟨hc, hlt⟩
      have := h.full_iff.mp (hdrop.resolve_left hc)
      omega
  obtain ⟨hc, hfull⟩ := not_or.mp hdrop
  have hlt : (s.e - s.r).toNat < INPUT_BUF_SIZE := by
    have hbound := h.bound
    have := mt h.full_iff.mpr hfull
    rw [h.count] at this ⊢
    omega
  have hkeep : ¬(c = 0 ∨ c = ctrlP ∨ ed.full = true) := by tauto
  rw [if_pos ⟨hc, hlt⟩, if_neg hkeep]
  set c' := if c = carriageReturn then Console.newline else c
  have hadd := h.add (c := c') (Bool.eq_false_iff.mpr hfull)
  have hiff : (c' = Console.newline ∨ c' = ctrlD ∨ (ed.add c').full = true) ↔
      (c' = Console.newline ∨ c' = ctrlD ∨ (s.e + 1#32 - s.r).toNat = INPUT_BUF_SIZE) :=
    or_congr_right (or_congr_right hadd.full_iff)
  by_cases hcommit : c' = Console.newline ∨ c' = ctrlD ∨ (ed.add c').full = true
  · rw [if_pos hcommit, if_pos (hiff.mp hcommit)]
    exact hadd.commit
  · rw [if_neg hcommit, if_neg (mt hiff.mpr hcommit)]
    refine ⟨hadd, ?_⟩
    rw [Editor.add, mem_append, mem_singleton, not_or]
    exact ⟨h.newline, fun heq => hcommit (.inl heq.symm)⟩

/-- The oldest byte is read. -/
theorem pop (h : Represents s ed) (hne : s.r ≠ s.w) : ∃ q,
    ed.committed = s.buf (s.r.toNat % INPUT_BUF_SIZE) :: q ∧
      Represents { s with r := s.r + 1#32 } { ed with committed := q } := by
  have hpop := Ring.contents_pop (r := s.committed) dvd_size hne
  rw [h.committed] at hpop
  refine ⟨_, hpop, ⟨rfl, h.line, ?_⟩, h.newline⟩
  have hbound := h.bound
  rw [hpop, length_cons] at hbound
  dsimp only
  omega

end Represents

/-! ## Reading -/

/-- What the reference makes of a call that gets so far. -/
def progress (killed : Bool) (target limit : ℕ) : List UInt8 × List UInt8 × Option ℕ → Progress
  | (got, _, none) => .ret got.length got
  | (got, _, some n) => if killed then .ret (-1) got else .sleep ⟨target, n, limit, got⟩

/-- **Reading takes from the front** of what has been committed. -/
theorem readLoop_eq (killed : Bool) (limit : ℕ) {s : Cons} {ed : Editor} {target n : ℕ}
    {got : List UInt8} (h : Represents s ed) (htarget : got.length + n = target) :
    (readLoop killed target limit n s got).1 =
        progress killed target limit (Editor.take limit got n ed.committed) ∧
      Represents (readLoop killed target limit n s got).2
        { ed with committed := (Editor.take limit got n ed.committed).2.1 } := by
  induction n generalizing s ed got with
  | zero =>
    rw [readLoop, Editor.take]
    refine ⟨?_, h⟩
    rw [progress, ← htarget, Nat.add_zero]
  | succ n ih =>
    -- what has been delivered so far
    have hvalue : (target : ℤ) - (n + 1) = got.length := by omega
    rw [readLoop]
    by_cases hempty : s.r = s.w
    · have hnil : ed.committed = [] := by
        rw [← length_eq_zero_iff, ← h.count_committed, Ring.count_eq_zero]
        exact hempty
      rw [if_pos hempty, hnil, Editor.take]
      obtain ⟨committed, line⟩ := ed
      obtain rfl : committed = [] := hnil
      split_ifs with hkilled
      · exact ⟨by rw [progress, if_pos hkilled], h⟩
      · exact ⟨by rw [progress, if_neg hkilled], h⟩
    · rw [if_neg hempty]
      obtain ⟨q, hq, hpop⟩ := h.pop hempty
      rw [hq, Editor.take, hvalue]
      set c := s.buf (s.r.toNat % INPUT_BUF_SIZE)
      by_cases hD : c = ctrlD
      · rw [if_pos hD, if_pos hD]
        by_cases hgot : got = []
        · rw [if_neg (by rw [hgot, length_nil] at htarget; omega), if_pos hgot]
          exact ⟨rfl, hpop⟩
        · -- the control-D stays where it was
          have hlength := length_pos_iff.mpr hgot
          rw [if_pos (by omega), if_neg hgot, BitVec.add_sub_cancel, ← hq]
          exact ⟨rfl, h⟩
      rw [if_neg hD, if_neg hD]
      by_cases hlimit : limit ≤ got.length
      · rw [if_pos hlimit, if_pos hlimit]
        exact ⟨rfl, hpop⟩
      rw [if_neg hlimit, if_neg hlimit]
      by_cases hnl : c = newline
      · rw [if_pos hnl, if_pos hnl]
        refine ⟨?_, hpop⟩
        rw [progress, length_append, length_singleton,
          show (target : ℤ) - n = ((got.length + 1 : ℕ) : ℤ) by omega]
      · rw [if_neg hnl, if_neg hnl]
        exact ih hpop (by rw [length_append, length_singleton]; omega)

/-- A call that waits has got the bytes that it does not want any more. -/
theorem length_take (limit : ℕ) (got : List UInt8) (n : ℕ) (q : List UInt8) (n' : ℕ)
    (h : (Editor.take limit got n q).2.2 = some n') :
    (Editor.take limit got n q).1.length + n' = got.length + n := by
  induction n generalizing got q with
  | zero =>
    rw [Editor.take] at h
    cases h
  | succ n ih =>
    cases q with
    | nil =>
      cases h
      rfl
    | cons c q =>
      rw [Editor.take] at h ⊢
      split_ifs at h ⊢
      have := ih _ _ h
      rw [length_append, length_singleton] at this
      omega

/-! ## Runs -/

/-- What the reference knows of a reader. -/
def Reader.waiting (rd : Reader) : Waiting := ⟨rd.n, rd.limit, rd.got⟩

/-- The machine and the reference are in the same place. -/
structure Matches (s : State) (t : Reference) : Prop where
  cons : Represents s.cons t.editor
  reader : ∀ p, (s.reader p).map Reader.waiting = t.waiting p
  target : ∀ p rd, s.reader p = some rd → rd.got.length + rd.n = rd.target
  returns : s.returns = t.returns

theorem matches_init : Matches init Reference.init where
  cons := ⟨⟨rfl, rfl, Nat.zero_le _⟩, not_mem_nil⟩
  reader _ := rfl
  target _ _ hrd := by cases hrd
  returns := rfl

/-- A reader comes or goes, in both. -/
theorem Matches.update {s : State} {t : Reference} (h : Matches s t) (p : ℕ) (rd : Option Reader)
    (hrd : ∀ r, rd = some r → r.got.length + r.n = r.target) :
    (∀ p', (update s.reader p rd p').map Reader.waiting =
        update t.waiting p (rd.map Reader.waiting) p') ∧
      ∀ p' r, update s.reader p rd p' = some r → r.got.length + r.n = r.target := by
  constructor
  · intro p'
    by_cases hp : p' = p
    · rw [hp, update_self, update_self]
    · rw [update_of_ne hp, update_of_ne hp]
      exact h.reader p'
  · intro p' r hr
    by_cases hp : p' = p
    · rw [hp, update_self] at hr
      exact hrd r hr
    · rw [update_of_ne hp] at hr
      exact h.target p' r hr

/-- A call goes on, in both. -/
theorem Matches.read {s : State} {t : Reference} (h : Matches s t) (p : ℕ) (killed : Bool)
    {target limit n : ℕ} {got : List UInt8} (htarget : got.length + n = target) :
    Matches (finish s p target (readLoop killed target limit n s.cons got))
      (t.read p killed ⟨n, limit, got⟩) := by
  obtain ⟨hprogress, hcons⟩ := readLoop_eq killed limit h.cons htarget
  have hlength := length_take limit got n t.editor.committed
  rcases hread : readLoop killed target limit n s.cons got with ⟨pr, cons⟩
  rcases htake : Editor.take limit got n t.editor.committed with ⟨got', q, n'⟩
  rw [hread, htake] at hprogress hcons
  rw [htake] at hlength
  subst hprogress
  rw [Reference.read]
  rw [htake, htarget]
  obtain ⟨hnone, hnone'⟩ := h.update p none nofun
  cases n' with
  | none => exact ⟨hcons, hnone, hnone', by rw [← h.returns]; rfl⟩
  | some n' =>
    cases killed with
    | true => exact ⟨hcons, hnone, hnone', by rw [← h.returns]; rfl⟩
    | false =>
      obtain ⟨hsome, hsome'⟩ := h.update p (some ⟨target, n', limit, got'⟩) (by
        intro r hr
        cases hr
        exact (hlength n' rfl).trans htarget)
      exact ⟨hcons, hsome, hsome', h.returns⟩

/-- **A step of the machine is one of the reference**, and one waits when the other does. -/
theorem Matches.step {s : State} {t : Reference} (h : Matches s t) (ev : Event) :
    (∃ s' t', Console.step s ev = .ok s' ∧ t.step ev = .ok t' ∧ Matches s' t') ∨
      (Console.step s ev = .blocked ∧ t.step ev = .blocked) := by
  cases ev with
  | intr c => exact .inl ⟨_, _, rfl, rfl, h.cons.intr c, h.reader, h.target, h.returns⟩
  | read p n limit killed =>
    have hreader := h.reader p
    rw [Console.step, Reference.step, ← hreader]
    cases s.reader p with
    | some rd => exact .inr ⟨rfl, rfl⟩
    | none => exact .inl ⟨_, _, rfl, rfl, h.read p killed (Nat.zero_add _)⟩
  | wake p killed =>
    have hreader := h.reader p
    rw [Console.step, Reference.step, ← hreader]
    cases hrd : s.reader p with
    | none => exact .inr ⟨rfl, rfl⟩
    | some rd => exact .inl ⟨_, _, rfl, rfl, h.read p killed (h.target p rd hrd)⟩

theorem Matches.runList {s : State} {t : Reference} (h : Matches s t) (es : List Event) :
    (∃ s' t', runList Console.step s es = .ok s' ∧ runList Reference.step t es = .ok t' ∧
        Matches s' t') ∨
      (runList Console.step s es = .blocked ∧ runList Reference.step t es = .blocked) := by
  induction es generalizing s t with
  | nil => exact .inl ⟨s, t, rfl, rfl, h⟩
  | cons ev es ih =>
    rw [Xv6.runList, Xv6.runList]
    obtain ⟨s', t', hs, ht, hmatches⟩ | ⟨hs, ht⟩ := h.step ev
    · rw [hs, ht]
      exact ih hmatches
    · rw [hs, ht]
      exact .inr ⟨rfl, rfl⟩

/-- **The console is a bounded line editor.** Whatever is typed, and whoever reads, the indices stay
in order with at most `INPUT_BUF_SIZE` bytes between them, modulo `2 ^ 32`; what the buffer holds is
the committed bytes and the line of the reference; and calls return the same as from the reference.
Neither does one go on where the other waits. -/
theorem line_editor (es : List Event) :
    (∃ s t, runList step init es = .ok s ∧ runList Reference.step Reference.init es = .ok t ∧
        (s.cons.w - s.cons.r).toNat ≤ (s.cons.e - s.cons.r).toNat ∧
        (s.cons.e - s.cons.r).toNat ≤ INPUT_BUF_SIZE ∧
        Represents s.cons t.editor ∧ s.returns = t.returns ∧
        ∀ p, (s.reader p).map Reader.waiting = t.waiting p) ∨
      (runList step init es = .blocked ∧
        runList Reference.step Reference.init es = .blocked) := by
  obtain ⟨s, t, hs, ht, hmatches⟩ | hblocked := matches_init.runList es
  · have hcount := hmatches.cons.count
    have hcommitted : (s.cons.w - s.cons.r).toNat = _ := hmatches.cons.count_committed
    refine .inl ⟨s, t, hs, ht, ?_, ?_, hmatches.cons, hmatches.returns, hmatches.reader⟩
    · rw [hcount, hcommitted]
      exact Nat.le_add_right _ _
    · rw [hcount]
      exact hmatches.cons.bound
  · exact .inr hblocked

/-- A line is typed with a mistake, which is erased; the rest of the next line is killed. -/
example : (match runList step init ([104, 105, 8, 97, 13, 120, 121, 21, 4].map Event.intr ++
      [.read 0 10 10 false, .read 1 10 10 false]) with
    | .ok s => s.returns.map fun ret => (ret.p, ret.value, ret.got)
    | _ => []) = [(0, 3, [104, 97, 10]), (1, 0, [])] := by
  decide +kernel

end Xv6.Console
