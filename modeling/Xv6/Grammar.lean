import Mathlib.Data.List.TakeWhile
import Xv6.Parse

/-!
# The grammar of the shell

`lex` is the token sequence of a string, and `Derives` the grammar

* line ::= pipe '&'* [';' line]
* pipe ::= exec ['|' pipe]
* exec ::= '(' line ')' redirs | redirs (word redirs)*
* redirs ::= (('<' | '>' | '>>') word)*

with the command that goes with each derivation. The parser is predictive: what
it reads is a derivation (`parse_spec`), and it finds every derivation that is
followed by something that cannot continue it (`parse_complete`).
-/

namespace Xv6.Sh

open List

/-! ## Tokens -/

/-- A token, with where it starts and ends. -/
structure Token where
  kind : Kind
  span : Span

/-- The kind of a symbol of one character. -/
def kindOf (c : UInt8) : Kind := if c = chGt then .gt else (symbolKind c).getD .word

/-- **The token sequence**: words are maximal runs of characters that are neither whitespace nor
symbols, `>>` is one token, and every other symbol is one. -/
def lex : Str → List Token
  | [] => []
  | c :: s =>
    if whitespace.contains c then lex s
    else if isWordChar c then
      ⟨.word, c :: s, s.dropWhile isWordChar⟩ :: lex (s.dropWhile isWordChar)
    else if c = chGt ∧ s.head? = some chGt then
      ⟨.gtgt, c :: s, s.tail⟩ :: lex s.tail
    else ⟨kindOf c, c :: s, s⟩ :: lex s
termination_by s => s.length
decreasing_by
  · simp
  · have := length_dropWhile_le isWordChar s
    simp only [length_cons]
    omega
  · simp only [length_cons, length_tail]
    omega
  · simp

theorem lex_nil : lex [] = [] := by rw [lex]

theorem lex_skip (s : Str) : lex (skip s) = lex s := by
  induction s with
  | nil => rfl
  | cons c s ih =>
    by_cases hc : whitespace.contains c = true
    · rw [skip, dropWhile_cons_of_pos hc, lex, if_pos hc]
      exact ih
    · rw [skip, dropWhile_cons_of_neg hc]

theorem skip_head {s : Str} {c : UInt8} {r : Str} (h : skip s = c :: r) :
    whitespace.contains c = false := by
  induction s with
  | nil => cases h
  | cons a s ih =>
    by_cases ha : whitespace.contains a = true
    · rw [skip, dropWhile_cons_of_pos ha] at h
      exact ih h
    · rw [skip, dropWhile_cons_of_neg ha] at h
      rw [← (List.cons.inj h).1]
      simpa using ha

/-- The character a symbol starts with. -/
def Kind.char : Kind → Option UInt8
  | .word => none
  | .lt => some chLt
  | .gt => some chGt
  | .gtgt => some chGt
  | .pipe => some chPipe
  | .amp => some chAmp
  | .semi => some chSemi
  | .lpar => some chLpar
  | .rpar => some chRpar

/-- What is neither whitespace nor a character of a word is a symbol. -/
theorem symbol_cases {c : UInt8} (hs : whitespace.contains c = false) (hw : isWordChar c = false) :
    c = chGt ∧ symbolKind c = none ∨
      c ≠ chGt ∧ ∃ k, symbolKind c = some k ∧ kindOf c = k ∧ k.char = some c := by
  have hs' : c ∉ whitespace := by simpa using hs
  have hmem : c ∈ symbols := by simpa [isWordChar, hs'] using hw
  simp only [symbols, mem_cons, not_mem_nil, or_false] at hmem
  rcases hmem with rfl | rfl | rfl | rfl | rfl | rfl | rfl
  all_goals first
    | exact .inl ⟨rfl, rfl⟩
    | exact .inr ⟨by decide, _, rfl, rfl, rfl⟩

theorem isWordChar_symbolKind {c : UInt8} (hw : isWordChar c = true) :
    symbolKind c = none ∧ c ≠ chGt := by
  have hnot : ∀ x ∈ symbols, c ≠ x := by
    rintro x hx rfl
    simp [isWordChar, hx] at hw
  refine ⟨?_, hnot _ (by decide)⟩
  simp [symbolKind, hnot chPipe (by decide), hnot chLpar (by decide), hnot chRpar (by decide),
    hnot chSemi (by decide), hnot chAmp (by decide), hnot chLt (by decide)]

/-- **`gettoken`** returns the first token, and goes on to the others. -/
theorem gettoken_lex (s : Str) :
    match lex s with
    | [] => (gettoken s).1 = none ∧ lex (gettoken s).2.2 = [] ∧ skip s = []
    | t :: ts => gettoken s = (some t.kind, t.span, (gettoken s).2.2) ∧
        lex (gettoken s).2.2 = ts ∧ t.span.q = skip s := by
  rw [← lex_skip s]
  unfold gettoken
  rcases hs : skip s with _ | ⟨c, r⟩
  · simp [lex_nil]
  · have hws := skip_head hs
    rw [lex, if_neg (by rw [hws]; simp)]
    dsimp only
    by_cases hw : isWordChar c = true
    · obtain ⟨hk, hgt⟩ := isWordChar_symbolKind hw
      rw [if_pos hw, hk]
      simp only [if_neg hgt, lex_skip, and_self]
    · rw [if_neg hw]
      rcases symbol_cases hws (by simpa using hw) with ⟨rfl, hk⟩ | ⟨hgt, k, hk, hkind, -⟩
      · rw [hk]
        by_cases hgg : r.head? = some chGt
        · simp only [hgg, and_self, if_true, lex_skip]
        · simp only [hgg, and_false, if_false, if_true, lex_skip, kindOf, and_self]
      · rw [hk]
        simp only [hgt, false_and, if_false, hkind, lex_skip, and_self]

theorem gettoken_nil {s : Str} (h : lex s = []) :
    (gettoken s).1 = none ∧ lex (gettoken s).2.2 = [] := by
  have := gettoken_lex s
  rw [h] at this
  exact ⟨this.1, this.2.1⟩

theorem gettoken_cons {s : Str} {t : Token} {ts : List Token} (h : lex s = t :: ts) :
    ∃ p, gettoken s = (some t.kind, t.span, p) ∧ lex p = ts := by
  have := gettoken_lex s
  rw [h] at this
  exact ⟨_, this.1, this.2.1⟩

/-- Does the first token start with one of these characters? -/
def starts (toks : Str) (ts : List Token) : Bool :=
  ts.head?.any fun t => t.kind.char.any (toks.contains ·)

/-- The first character of a token. -/
theorem head_char {s : Str} {t : Token} {ts : List Token} (h : lex s = t :: ts) :
    ∃ c r, skip s = c :: r ∧ (t.kind.char = some c ∨ t.kind.char = none ∧ c ∉ symbols) := by
  rw [← lex_skip] at h
  rcases hs : skip s with _ | ⟨c, r⟩
  · rw [hs, lex_nil] at h
    cases h
  · refine ⟨c, r, rfl, ?_⟩
    have hws := skip_head hs
    rw [hs, lex, if_neg (by rw [hws]; simp)] at h
    by_cases hw : isWordChar c = true
    · rw [if_pos hw] at h
      obtain ⟨rfl, -⟩ := List.cons.inj h
      refine .inr ⟨rfl, fun hmem => ?_⟩
      simp [isWordChar, hmem] at hw
    · rw [if_neg hw] at h
      rcases symbol_cases hws (by simpa using hw) with ⟨rfl, hk⟩ | ⟨hgt, k, hk, hkind, hchar⟩
      · split at h <;> obtain ⟨rfl, -⟩ := List.cons.inj h
        · exact .inl rfl
        · exact .inl rfl
      · rw [if_neg (by simp [hgt])] at h
        obtain ⟨rfl, -⟩ := List.cons.inj h
        exact .inl (hkind ▸ hchar)

/-- **`peek`** looks at the first token. -/
theorem peek_eq {toks : Str} (htoks : ∀ c ∈ toks, c ∈ symbols) (s : Str) :
    peek s toks = (starts toks (lex s), skip s) := by
  rw [peek, starts]
  congr 1
  rcases hl : lex s with _ | ⟨t, ts⟩
  · have := gettoken_lex s
    rw [hl] at this
    rw [this.2.2]
    rfl
  · obtain ⟨c, r, hs, hc | ⟨hnone, hc⟩⟩ := head_char hl
    · simp [hs, hc]
    · have hnot : c ∉ toks := fun hmem => hc (htoks c hmem)
      simp [hs, hnone, hnot]

/-! ## The grammar -/

/-- Is this the symbol of a redirection? -/
def Kind.isRedir : Kind → Bool
  | .lt | .gt | .gtgt => true
  | _ => false

/-- redirs ::= (('<' | '>' | '>>') word)* -/
inductive Redirs : List Token → List Redir → Prop where
  | nil : Redirs [] []
  | cons {op w : Token} {ts : List Token} {rs : List Redir} :
    op.kind.isRedir → w.kind = .word → Redirs ts rs →
    Redirs (op :: w :: ts) ((some op.kind, w.span) :: rs)

/-- (word redirs)*, with the words and the redirections -/
inductive Words : List Token → List Span → List Redir → Prop where
  | nil : Words [] [] []
  | cons {w : Token} {rt ts : List Token} {rs rs' : List Redir} {argv : List Span} :
    w.kind = .word → Redirs rt rs → Words ts argv rs' →
    Words (w :: (rt ++ ts)) (w.span :: argv) (rs ++ rs')

/-- The symbols of the grammar that have commands. -/
inductive NT : Type where
  | line
  | pipe
  | exec

/-- So many commands in the background, one inside the other. -/
def backs (n : ℕ) (cmd : Cmd) : Cmd := Cmd.back^[n] cmd

/-- **The grammar**: the tokens that a symbol derives, with the command. -/
inductive Derives : NT → List Token → Cmd → Prop where
  | line {ts amps : List Token} {c : Cmd} :
    Derives .pipe ts c → (∀ t ∈ amps, t.kind = .amp) →
    Derives .line (ts ++ amps) (backs amps.length c)
  | list {ts amps ts' : List Token} {semi : Token} {c c' : Cmd} :
    Derives .pipe ts c → (∀ t ∈ amps, t.kind = .amp) → semi.kind = .semi → Derives .line ts' c' →
    Derives .line (ts ++ (amps ++ semi :: ts')) (.list (backs amps.length c) c')
  | single {ts : List Token} {c : Cmd} : Derives .exec ts c → Derives .pipe ts c
  | pipe {ts ts' : List Token} {bar : Token} {c c' : Cmd} :
    Derives .exec ts c → bar.kind = .pipe → Derives .pipe ts' c' →
    Derives .pipe (ts ++ bar :: ts') (.pipe c c')
  | block {ts rt : List Token} {lpar rpar : Token} {c : Cmd} {rs : List Redir} :
    lpar.kind = .lpar → Derives .line ts c → rpar.kind = .rpar → Redirs rt rs →
    Derives .exec (lpar :: (ts ++ rpar :: rt)) (wrap c rs)
  | exec {rt ts : List Token} {rs rs' : List Redir} {argv : List Span} :
    Redirs rt rs → Words ts argv rs' → argv.length ≤ MAXARGS - 1 →
    Derives .exec (rt ++ ts) (wrap (.exec argv) (rs ++ rs'))

/-! ## What is read is a derivation -/

/-- The code returns something that satisfies `Q`, or panics. -/
def Returns {α : Type} (x : Outcome (α × Str)) (Q : α → Str → Prop) : Prop :=
  match x with
  | .ok (a, ps) => Q a ps
  | .blocked => False
  | .panic _ => True

theorem returns_panic {α : Type} {msg : String} {Q : α → Str → Prop} :
    Returns (.panic msg) Q := trivial

theorem Returns.imp {α : Type} {x : Outcome (α × Str)} {Q Q' : α → Str → Prop} (h : Returns x Q)
    (hQ : ∀ a ps, Q a ps → Q' a ps) : Returns x Q' := by
  rcases x with ⟨a, ps⟩ | _ | msg
  · exact hQ a ps h
  · exact h
  · exact h

theorem Returns.bind {α β : Type} {x : Outcome (α × Str)} {f : α × Str → Outcome (β × Str)}
    {Q : α → Str → Prop} {R : β → Str → Prop} (hx : Returns x Q)
    (hf : ∀ a ps, Q a ps → Returns (f (a, ps)) R) : Returns (x >>= f) R := by
  rcases x with ⟨a, ps⟩ | _ | msg
  · exact hf a ps hx
  · exact hx
  · exact hx

theorem ok_bind {α β : Type} (a : α) (f : α → Outcome β) : (Outcome.ok a >>= f) = f a := rfl

theorem redir_symbols : ∀ c ∈ [chLt, chGt], c ∈ symbols := by decide +kernel

/-- A redirection starts with `<` or `>`. -/
theorem starts_redir {ts : List Token} : starts [chLt, chGt] ts = true ↔
    ∃ t ts', ts = t :: ts' ∧ t.kind.isRedir = true := by
  rcases ts with _ | ⟨⟨k, sp⟩, ts⟩
  · simp [starts]
  · cases k <;> simp [starts, Kind.char, Kind.isRedir] <;> decide

/-- **`parseredirs`** reads redirections, as many as there are. -/
theorem parseredirs_spec {n : ℕ} {ps : Str} (hn : (lex ps).length < n) :
    Returns (parseredirs n ps) fun rs ps' => ∃ ts, lex ps = ts ++ lex ps' ∧ Redirs ts rs := by
  induction n generalizing ps with
  | zero => omega
  | succ n ih =>
    rw [parseredirs, peek_eq redir_symbols]
    rcases hb : starts [chLt, chGt] (lex ps) with _ | _
    · exact ⟨[], (lex_skip ps).symm, .nil⟩
    · obtain ⟨op, ts, hts, hop⟩ := starts_redir.mp hb
      obtain ⟨p₁, hp₁, hl₁⟩ := gettoken_cons ((lex_skip ps).trans hts)
      dsimp only
      rw [hp₁]
      rcases ts with _ | ⟨w, ts⟩
      · have hnone := (gettoken_nil hl₁).1
        rcases hg : gettoken p₁ with ⟨k, sp, p₂⟩
        rw [hg] at hnone
        obtain rfl : k = none := hnone
        exact returns_panic
      · obtain ⟨p₂, hp₂, hl₂⟩ := gettoken_cons hl₁
        rw [hp₂]
        by_cases hw : w.kind = .word
        · simp only [hw]
          rw [hts] at hn
          simp only [length_cons] at hn
          refine Returns.bind (ih (by rw [hl₂]; omega)) ?_
          rintro rs p₃ ⟨us, hus, hrs⟩
          refine ⟨op :: w :: us, ?_, .cons hop hw hrs⟩
          rw [hts, ← hl₂, hus]
          rfl
        · obtain ⟨k, sp⟩ := w
          cases k <;> first | exact absurd rfl hw | exact returns_panic

theorem stop_symbols : ∀ c ∈ [chPipe, chRpar, chAmp, chSemi], c ∈ symbols := by decide +kernel

theorem length_lex_le (s : Str) : (lex s).length ≤ s.length := by
  induction hn : s.length using Nat.strong_induction_on generalizing s with
  | _ n ih =>
    subst hn
    rcases s with _ | ⟨c, s⟩
    · simp [lex_nil]
    · rw [lex]
      have hdrop := length_dropWhile_le isWordChar s
      have hs := ih s.length (by simp) s rfl
      have htail := ih s.tail.length (by simp only [length_tail, length_cons]; omega) _ rfl
      have hword := ih _ (by simp only [length_cons]; omega) (s.dropWhile isWordChar) rfl
      simp only [length_tail] at htail
      split_ifs <;> simp only [length_cons] <;> omega

/-- **The loop of `parseexec`** reads words and redirections. -/
theorem parseargs_spec {n argc : ℕ} {ps : Str} (hn : (lex ps).length < n) (hargc : argc < MAXARGS) :
    Returns (parseargs n argc ps) fun a ps' => ∃ ts, lex ps = ts ++ lex ps' ∧
      Words ts a.1 a.2 ∧ argc + a.1.length < MAXARGS := by
  induction n generalizing ps argc with
  | zero => omega
  | succ n ih =>
    rw [parseargs, peek_eq stop_symbols]
    rcases starts [chPipe, chRpar, chAmp, chSemi] (lex ps) with _ | _
    · dsimp only
      rcases hl : lex ps with _ | ⟨w, ts⟩
      · obtain ⟨hk, hr⟩ := gettoken_nil ((lex_skip ps).trans hl)
        rcases hg : gettoken (skip ps) with ⟨k, sp, p⟩
        rw [hg] at hk hr
        obtain rfl : k = none := hk
        exact ⟨[], hr.symm, .nil, hargc⟩
      · obtain ⟨p, hp, hlp⟩ := gettoken_cons ((lex_skip ps).trans hl)
        rw [hp]
        by_cases hw : w.kind = .word
        · simp only [hw]
          split_ifs with hmax
          · exact returns_panic
          refine (parseredirs_spec (Nat.lt_succ_of_le (length_lex_le p))).bind ?_
          rintro rs p₁ ⟨rt, hrt, hrs⟩
          rw [hl, ← hlp, hrt] at hn
          simp only [length_cons, length_append] at hn
          refine Returns.bind (ih (show (lex p₁).length < n by omega)
            (show argc + 1 < MAXARGS by omega)) ?_
          rintro ⟨argv, rs'⟩ p₂ ⟨us, hus, hwords, hlen⟩
          refine ⟨w :: (rt ++ us), ?_, .cons hw hrs hwords, ?_⟩
          · rw [← hlp, hrt, hus, cons_append, append_assoc]
          · simp only [length_cons] at hlen ⊢
            omega
        · obtain ⟨k, sp⟩ := w
          cases k <;> first | exact absurd rfl hw | exact returns_panic
    · exact ⟨[], (lex_skip ps).symm, .nil, hargc⟩

/-- A token that starts with this character is the first one. -/
theorem starts_one {c : UInt8} {k : Kind} (hk : ∀ k', k'.char = some c ↔ k' = k) {ts : List Token} :
    starts [c] ts = true ↔ ∃ t ts', ts = t :: ts' ∧ t.kind = k := by
  rcases ts with _ | ⟨t, ts⟩
  · simp [starts]
  · rcases hchar : t.kind.char with _ | c'
    · have := (hk t.kind).not.mp (by simp [hchar])
      simp [starts, hchar, this]
    · have := hk t.kind
      simp only [hchar, Option.some.injEq] at this
      simp [starts, hchar, this]

theorem char_amp (k : Kind) : k.char = some chAmp ↔ k = .amp := by cases k <;> decide

theorem char_semi (k : Kind) : k.char = some chSemi ↔ k = .semi := by cases k <;> decide

theorem char_pipe (k : Kind) : k.char = some chPipe ↔ k = .pipe := by cases k <;> decide

theorem char_lpar (k : Kind) : k.char = some chLpar ↔ k = .lpar := by cases k <;> decide

theorem char_rpar (k : Kind) : k.char = some chRpar ↔ k = .rpar := by cases k <;> decide

/-- **`peek`** for one symbol: either the first token is that symbol, and `gettoken` reads it, or
it is something else. -/
theorem peek_one {c : UInt8} {k : Kind} (hk : ∀ k', k'.char = some c ↔ k' = k) (hc : c ∈ symbols)
    (ps : Str) :
    (peek ps [c] = (false, skip ps) ∧ ∀ t ∈ (lex ps).head?, t.kind ≠ k) ∨
    (peek ps [c] = (true, skip ps) ∧ ∃ t, t.kind = k ∧
      lex ps = t :: lex (gettoken (skip ps)).2.2) := by
  rw [peek_eq (by simpa using hc)]
  rcases hb : starts [c] (lex ps) with _ | _
  · refine .inl ⟨rfl, ?_⟩
    rintro t ht rfl
    obtain ⟨ts', hts⟩ := head?_eq_some_iff.mp ht
    rw [(starts_one hk).mpr ⟨t, ts', hts, rfl⟩] at hb
    cases hb
  · obtain ⟨t, ts, hts, ht⟩ := (starts_one hk).mp hb
    obtain ⟨p, hp, hlp⟩ := gettoken_cons ((lex_skip ps).trans hts)
    exact .inr ⟨rfl, t, ht, by rw [hts, hp, hlp]⟩

/-- **The loop of `parseline` over `&`.** -/
theorem parseback_spec {n : ℕ} {ps : Str} (cmd : Cmd) (hn : (lex ps).length < n) :
    ∃ amps ps', parseback n cmd ps = (backs amps.length cmd, ps') ∧ lex ps = amps ++ lex ps' ∧
      (∀ t ∈ amps, t.kind = .amp) ∧ ∀ t ∈ (lex ps').head?, t.kind ≠ .amp := by
  induction n generalizing ps cmd with
  | zero => omega
  | succ n ih =>
    rw [parseback]
    rcases peek_one char_amp (by decide) ps with ⟨hp, hne⟩ | ⟨hp, t, ht, hl⟩
    · rw [hp]
      exact ⟨[], skip ps, rfl, (lex_skip ps).symm, by simp, by rwa [lex_skip]⟩
    · rw [hp]
      rw [hl, length_cons] at hn
      obtain ⟨amps, ps', hback, happ, hamps, hne⟩ :=
        ih (.back cmd) (show (lex (gettoken (skip ps)).2.2).length < n by omega)
      refine ⟨t :: amps, ps', hback, ?_, ?_, hne⟩
      · rw [hl, happ]
        rfl
      · simpa using ⟨ht, hamps⟩

/-- What the symbol `nt` reads: tokens that it derives. -/
def Reads (nt : NT) (ps : Str) (cmd : Cmd) (ps' : Str) : Prop :=
  ∃ ts, lex ps = ts ++ lex ps' ∧ Derives nt ts cmd

theorem parseline_step {n : ℕ} {ps : Str} (hpipe : Returns (parsepipe n ps) (Reads .pipe ps))
    (hline : ∀ ps', (lex ps').length < (lex ps).length →
      Returns (parseline n ps') (Reads .line ps')) :
    Returns (parseline (n + 1) ps) (Reads .line ps) := by
  refine hpipe.bind ?_
  rintro cmd p₁ ⟨ts, hts, hcmd⟩
  obtain ⟨amps, p₂, hback, hl₁, hamps, -⟩ :=
    parseback_spec cmd (Nat.lt_succ_of_le (length_lex_le p₁))
  dsimp only
  rw [hback]
  rcases peek_one char_semi (by decide) p₂ with ⟨hp, -⟩ | ⟨hp, semi, hsemi, hl₂⟩
  · rw [hp]
    refine ⟨ts ++ amps, ?_, .line hcmd hamps⟩
    rw [hts, hl₁, lex_skip, append_assoc]
  · rw [hp]
    refine (hline (gettoken (skip p₂)).2.2 ?_).bind ?_
    · rw [hts, hl₁, hl₂]
      simp only [length_append, length_cons]
      omega
    · rintro right p₃ ⟨ts', hts', hright⟩
      refine ⟨ts ++ (amps ++ semi :: ts'), ?_, .list hcmd hamps hsemi hright⟩
      rw [hts, hl₁, hl₂, hts']
      simp

theorem parsepipe_step {n : ℕ} {ps : Str} (hexec : Returns (parseexec n ps) (Reads .exec ps))
    (hpipe : ∀ ps', (lex ps').length < (lex ps).length →
      Returns (parsepipe n ps') (Reads .pipe ps')) :
    Returns (parsepipe (n + 1) ps) (Reads .pipe ps) := by
  refine hexec.bind ?_
  rintro cmd p₁ ⟨ts, hts, hcmd⟩
  dsimp only
  rcases peek_one char_pipe (by decide) p₁ with ⟨hp, -⟩ | ⟨hp, bar, hbar, hl₁⟩
  · rw [hp]
    exact ⟨ts, by rw [hts, lex_skip], .single hcmd⟩
  · rw [hp]
    refine (hpipe (gettoken (skip p₁)).2.2 ?_).bind ?_
    · rw [hts, hl₁]
      simp only [length_append, length_cons]
      omega
    · rintro right p₂ ⟨ts', hts', hright⟩
      refine ⟨ts ++ bar :: ts', ?_, .pipe hcmd hbar hright⟩
      rw [hts, hl₁, hts']
      simp

theorem parseblock_step {n : ℕ} {ps : Str}
    (hline : ∀ ps', (lex ps').length < (lex ps).length →
      Returns (parseline n ps') (Reads .line ps')) :
    Returns (parseblock (n + 1) ps) (Reads .exec ps) := by
  rw [parseblock]
  rcases peek_one char_lpar (by decide) ps with ⟨hp, -⟩ | ⟨hp, lpar, hlpar, hl⟩
  · rw [hp]
    exact returns_panic
  · rw [hp]
    refine (hline (gettoken (skip ps)).2.2 ?_).bind ?_
    · rw [hl]
      simp
    rintro cmd p₁ ⟨ts, hts, hcmd⟩
    dsimp only
    rcases peek_one char_rpar (by decide) p₁ with ⟨hp₁, -⟩ | ⟨hp₁, rpar, hrpar, hl₁⟩
    · rw [hp₁]
      exact returns_panic
    · rw [hp₁]
      refine (parseredirs_spec (Nat.lt_succ_of_le (length_lex_le _))).bind ?_
      rintro rs p₂ ⟨rt, hrt, hrs⟩
      refine ⟨lpar :: (ts ++ rpar :: rt), ?_, .block hlpar hcmd hrpar hrs⟩
      rw [hl, hts, hl₁, hrt]
      simp

theorem parseexec_step {n : ℕ} {ps : Str}
    (hblock : ∀ t ∈ (lex ps).head?, t.kind = .lpar →
      Returns (parseblock n (skip ps)) (Reads .exec (skip ps))) :
    Returns (parseexec (n + 1) ps) (Reads .exec ps) := by
  rw [parseexec]
  rcases peek_one char_lpar (by decide) ps with ⟨hp, -⟩ | ⟨hp, lpar, hlpar, hl⟩
  · rw [hp]
    refine (parseredirs_spec (Nat.lt_succ_of_le (length_lex_le _))).bind ?_
    rintro rs p₁ ⟨rt, hrt, hrs⟩
    refine (parseargs_spec (Nat.lt_succ_of_le (length_lex_le _)) (by decide)).bind ?_
    rintro ⟨argv, rs'⟩ p₂ ⟨ts, hts, hwords, hlen⟩
    refine ⟨rt ++ ts, ?_, .exec hrs hwords (Nat.le_pred_of_lt (by simpa using hlen))⟩
    rw [← lex_skip, hrt, hts, append_assoc]
  · rw [hp]
    refine (hblock lpar (by rw [hl]; rfl) hlpar).imp ?_
    rintro cmd ps' ⟨ts, hts, hcmd⟩
    exact ⟨ts, by rw [← lex_skip, hts], hcmd⟩

/-- **What the parser reads is a derivation**, and it does not run out of fuel: each of the four
functions needs a little more than the one it calls on the same rest of the line, and each token
pays for one more round. -/
theorem parse_spec (n : ℕ) (ps : Str) :
    (4 * (lex ps).length + 3 ≤ n → Returns (parseline n ps) (Reads .line ps)) ∧
    (4 * (lex ps).length + 2 ≤ n → Returns (parsepipe n ps) (Reads .pipe ps)) ∧
    (4 * (lex ps).length + 1 ≤ n → Returns (parseexec n ps) (Reads .exec ps)) ∧
    (4 * (lex ps).length ≤ n → 0 < n → Returns (parseblock n ps) (Reads .exec ps)) := by
  induction n generalizing ps with
  | zero => refine ⟨?_, ?_, ?_, ?_⟩ <;> omega
  | succ n ih =>
    refine ⟨fun hn => ?_, fun hn => ?_, fun hn => ?_, fun hn _ => ?_⟩
    · exact parseline_step ((ih ps).2.1 (by omega)) fun ps' hlt => (ih ps').1 (by omega)
    · exact parsepipe_step ((ih ps).2.2.1 (by omega)) fun ps' hlt => (ih ps').2.1 (by omega)
    · refine parseexec_step fun t ht _ => (ih (skip ps)).2.2.2 (by rw [lex_skip]; omega) ?_
      obtain ⟨ts, hts⟩ := head?_eq_some_iff.mp ht
      rw [hts, length_cons] at hn
      omega
    · exact parseblock_step fun ps' hlt => (ih ps').1 (by omega)

/-! ## Every derivation is found -/

/-- The first token, if there is one, is of such a kind. -/
def Heads (P : Kind → Prop) (ts : List Token) : Prop := ∀ t ∈ ts.head?, P t.kind

theorem heads_nil (P : Kind → Prop) : Heads P [] := by simp [Heads]

theorem heads_cons {P : Kind → Prop} {t : Token} {ts : List Token} :
    Heads P (t :: ts) ↔ P t.kind := by simp [Heads]

theorem Heads.append {P : Kind → Prop} {ts ts' : List Token} (h : Heads P ts) (h' : Heads P ts') :
    Heads P (ts ++ ts') := by
  cases ts with
  | nil => exact h'
  | cons t ts => exact heads_cons.mpr (heads_cons.mp h)

theorem Heads.imp {P P' : Kind → Prop} {ts : List Token} (h : Heads P ts)
    (hP : ∀ k, P k → P' k) : Heads P' ts := fun t ht => hP _ (h t ht)

theorem Heads.of_eq {P : Kind → Prop} {k : Kind} {ts : List Token} (h : Heads (· = k) ts)
    (hk : P k) : Heads P ts := h.imp fun _ hk' => hk' ▸ hk

theorem Redirs.heads {ts : List Token} {rs : List Redir} (h : Redirs ts rs) :
    Heads (fun k => k.isRedir = true) ts := by
  cases h with
  | nil => exact heads_nil _
  | cons hop _ _ => exact heads_cons.mpr hop

theorem Words.heads {ts : List Token} {argv : List Span} {rs : List Redir} (h : Words ts argv rs) :
    Heads (· = .word) ts := by
  cases h with
  | nil => exact heads_nil _
  | cons hw _ _ => exact heads_cons.mpr hw

/-- What may come after a symbol. -/
def follow : NT → List Kind
  | .line => [.rpar]
  | .pipe => [.amp, .semi, .rpar]
  | .exec => [.pipe, .amp, .semi, .rpar]

/-- `peek` for a symbol that is not there. -/
theorem peek_not {c : UInt8} {k : Kind} (hk : ∀ k', k'.char = some c ↔ k' = k) (hc : c ∈ symbols)
    {ps : Str} (h : Heads (· ≠ k) (lex ps)) : peek ps [c] = (false, skip ps) := by
  rcases peek_one hk hc ps with ⟨hp, -⟩ | ⟨-, t, ht, hl⟩
  · exact hp
  · exact absurd ht (h t (by rw [hl]; rfl))

/-- `peek` for a symbol that is there. -/
theorem peek_is {c : UInt8} {k : Kind} (hk : ∀ k', k'.char = some c ↔ k' = k) (hc : c ∈ symbols)
    {ps : Str} {t : Token} {ts : List Token} (ht : t.kind = k) (hl : lex ps = t :: ts) :
    peek ps [c] = (true, skip ps) ∧ lex (gettoken (skip ps)).2.2 = ts := by
  rcases peek_one hk hc ps with ⟨-, hne⟩ | ⟨hp, t', -, hl'⟩
  · exact absurd ht (hne t (by rw [hl]; rfl))
  · rw [hl] at hl'
    exact ⟨hp, (List.cons.inj hl').2.symm⟩

theorem parseredirs_complete {ts : List Token} {rs : List Redir} (h : Redirs ts rs) {n : ℕ}
    {ps : Str} {R : List Token} (hl : lex ps = ts ++ R)
    (hR : Heads (fun k => k.isRedir = false) R) (hn : (lex ps).length < n) :
    ∃ ps', parseredirs n ps = .ok (rs, ps') ∧ lex ps' = R := by
  induction h generalizing n ps with
  | nil =>
    obtain _ | n := n
    · omega
    have hb : starts [chLt, chGt] (lex ps) = false := by
      rw [← Bool.not_eq_true, starts_redir]
      rintro ⟨t, ts', hts, ht⟩
      rw [hl] at hts
      simp [hR t (by rw [show R = _ from hts]; rfl)] at ht
    rw [parseredirs, peek_eq redir_symbols, hb]
    exact ⟨skip ps, rfl, (lex_skip ps).trans hl⟩
  | @cons op w ts rs hop hw _ ih =>
    obtain _ | n := n
    · omega
    rw [cons_append, cons_append] at hl
    have hb : starts [chLt, chGt] (lex ps) = true := starts_redir.mpr ⟨op, _, hl, hop⟩
    obtain ⟨p₁, hp₁, hl₁⟩ := gettoken_cons ((lex_skip ps).trans hl)
    obtain ⟨p₂, hp₂, hl₂⟩ := gettoken_cons hl₁
    obtain ⟨ps', hps', hl'⟩ := ih (n := n) hl₂ (by
      rw [hl] at hn
      rw [hl₂]
      simp only [length_cons] at hn
      omega)
    rw [parseredirs, peek_eq redir_symbols, hb]
    dsimp only
    rw [hp₁]
    rw [hp₂, hw]
    dsimp only
    rw [hps']
    exact ⟨ps', rfl, hl'⟩

/-- After the words of a command: the end, or a symbol that ends it. -/
theorem stops_follow {R : List Token} (hR : Heads (· ∈ follow .exec) R) :
    R = [] ∨ starts [chPipe, chRpar, chAmp, chSemi] R = true := by
  rcases R with _ | ⟨⟨k, sp⟩, R⟩
  · exact .inl rfl
  · have hk := heads_cons.mp hR
    refine .inr ?_
    dsimp only at hk
    cases k <;> first | rfl | exact absurd hk (by decide)

theorem parseargs_complete {ts : List Token} {argv : List Span} {rs : List Redir}
    (h : Words ts argv rs) {n argc : ℕ} {ps : Str} {R : List Token} (hl : lex ps = ts ++ R)
    (hR : Heads (· ∈ follow .exec) R) (hn : (lex ps).length < n)
    (hargc : argc + argv.length < MAXARGS) :
    ∃ ps', parseargs n argc ps = .ok ((argv, rs), ps') ∧ lex ps' = R := by
  induction h generalizing n ps argc with
  | nil =>
    obtain _ | n := n
    · omega
    rw [nil_append] at hl
    rw [parseargs, peek_eq stop_symbols, hl]
    rcases stops_follow hR with rfl | hstop
    · obtain ⟨hk, hr⟩ := gettoken_nil ((lex_skip ps).trans hl)
      rcases hg : gettoken (skip ps) with ⟨k, sp, p⟩
      rw [hg] at hk hr
      obtain rfl : k = none := hk
      exact ⟨p, by simp [starts, hg], hr⟩
    · rw [hstop]
      exact ⟨skip ps, rfl, (lex_skip ps).trans hl⟩
  | @cons w rt ts rs rs' argv hw hrs hwords ih =>
    obtain _ | n := n
    · omega
    rw [cons_append, append_assoc] at hl
    have hb : starts [chPipe, chRpar, chAmp, chSemi] (lex ps) = false := by
      rw [hl]
      simp [starts, hw, Kind.char]
    obtain ⟨p₁, hp₁, hl₁⟩ := gettoken_cons ((lex_skip ps).trans hl)
    have hstop : Heads (fun k => k.isRedir = false) (ts ++ R) :=
      (hwords.heads.of_eq (by decide)).append (hR.imp (by decide))
    obtain ⟨p₂, hp₂, hl₂⟩ :=
      parseredirs_complete hrs hl₁ hstop (Nat.lt_succ_of_le (length_lex_le _))
    rw [length_cons] at hargc
    obtain ⟨p₃, hp₃, hl₃⟩ := ih (n := n) hl₂ (by
      rw [hl] at hn
      rw [hl₂]
      simp only [length_cons, length_append] at hn ⊢
      omega) (show argc + 1 + argv.length < MAXARGS by omega)
    rw [parseargs, peek_eq stop_symbols, hb]
    dsimp only
    rw [hp₁, hw]
    dsimp only
    rw [if_neg (by omega), hp₂, ok_bind]
    rw [hp₃, ok_bind]
    exact ⟨p₃, rfl, hl₃⟩

theorem parseback_complete {amps : List Token} (hamps : ∀ t ∈ amps, t.kind = .amp) {n : ℕ}
    {ps : Str} {R : List Token} (cmd : Cmd) (hl : lex ps = amps ++ R) (hR : Heads (· ≠ .amp) R)
    (hn : (lex ps).length < n) :
    ∃ ps', parseback n cmd ps = (backs amps.length cmd, ps') ∧ lex ps' = R := by
  induction amps generalizing n ps cmd with
  | nil =>
    obtain _ | n := n
    · omega
    rw [parseback, peek_not char_amp (by decide) (hl ▸ hR)]
    exact ⟨skip ps, rfl, (lex_skip ps).trans hl⟩
  | cons t amps ih =>
    obtain _ | n := n
    · omega
    obtain ⟨ht, hamps⟩ := forall_mem_cons.mp hamps
    rw [cons_append] at hl
    obtain ⟨hp, hl'⟩ := peek_is char_amp (by decide) ht hl
    rw [parseback, hp]
    refine ih hamps (.back cmd) hl' ?_
    rw [hl] at hn
    rw [hl']
    simp only [length_cons] at hn
    omega

/-- The function for a symbol. -/
def parse : NT → ℕ → Str → Outcome (Cmd × Str)
  | .line => parseline
  | .pipe => parsepipe
  | .exec => parseexec

/-- What the function for a symbol needs besides the tokens. -/
def NT.rank : NT → ℕ
  | .line => 3
  | .pipe => 2
  | .exec => 1

/-- What the parser does with a derivation of some symbol, whatever comes after it that can come
after that symbol. -/
def Finds (nt : NT) (ts : List Token) (cmd : Cmd) : Prop :=
  ∀ n ps R, lex ps = ts ++ R → Heads (· ∈ follow nt) R → 4 * (lex ps).length + nt.rank ≤ n →
    ∃ ps', parse nt n ps = .ok (cmd, ps') ∧ lex ps' = R

theorem finds_line {ts amps : List Token} {c : Cmd} (hc : Finds .pipe ts c)
    (hamps : ∀ t ∈ amps, t.kind = .amp) : Finds .line (ts ++ amps) (backs amps.length c) := by
  intro n ps R hl hR hn
  obtain _ | n := n
  · simp [NT.rank] at hn
  have hamp : Heads (· = .amp) amps := fun t ht => hamps t (mem_of_mem_head? ht)
  rw [append_assoc] at hl
  obtain ⟨p₁, hp₁, hl₁⟩ := hc n ps (amps ++ R) hl
    ((hamp.of_eq (by decide)).append (hR.imp (by decide))) (by simp only [NT.rank] at hn ⊢; omega)
  obtain ⟨p₂, hp₂, hl₂⟩ := parseback_complete hamps c hl₁ (hR.imp (by decide))
    (Nat.lt_succ_of_le (length_lex_le p₁))
  refine ⟨skip p₂, ?_, (lex_skip p₂).trans hl₂⟩
  rw [parse, parseline, show parsepipe n ps = _ from hp₁, ok_bind]
  dsimp only
  rw [hp₂]
  rw [peek_not char_semi (by decide) (hl₂ ▸ hR.imp (by decide))]
  rfl

theorem finds_list {ts amps ts' : List Token} {semi : Token} {c c' : Cmd} (hc : Finds .pipe ts c)
    (hamps : ∀ t ∈ amps, t.kind = .amp) (hsemi : semi.kind = .semi) (hc' : Finds .line ts' c') :
    Finds .line (ts ++ (amps ++ semi :: ts')) (.list (backs amps.length c) c') := by
  intro n ps R hl hR hn
  obtain _ | n := n
  · simp [NT.rank] at hn
  have hamp : Heads (· = .amp) amps := fun t ht => hamps t (mem_of_mem_head? ht)
  have hs : Heads (· = .semi) (semi :: (ts' ++ R)) := heads_cons.mpr hsemi
  rw [append_assoc, append_assoc, cons_append] at hl
  obtain ⟨p₁, hp₁, hl₁⟩ := hc n ps (amps ++ (semi :: (ts' ++ R))) hl
    ((hamp.of_eq (by decide)).append (hs.of_eq (by decide))) (by simp only [NT.rank] at hn ⊢; omega)
  obtain ⟨p₂, hp₂, hl₂⟩ := parseback_complete hamps c hl₁ (hs.of_eq (by decide))
    (Nat.lt_succ_of_le (length_lex_le p₁))
  obtain ⟨hpeek, hl₃⟩ := peek_is char_semi (by decide) hsemi hl₂
  obtain ⟨p₄, hp₄, hl₄⟩ := hc' n _ R hl₃ hR (by
    rw [hl] at hn
    rw [hl₃]
    simp only [NT.rank, length_append, length_cons] at hn ⊢
    omega)
  refine ⟨p₄, ?_, hl₄⟩
  rw [parse, parseline, show parsepipe n ps = _ from hp₁, ok_bind]
  dsimp only
  rw [hp₂]
  rw [hpeek]
  dsimp only
  rw [show parseline n _ = _ from hp₄]
  rfl

theorem finds_single {ts : List Token} {c : Cmd} (hc : Finds .exec ts c) : Finds .pipe ts c := by
  intro n ps R hl hR hn
  obtain _ | n := n
  · simp [NT.rank] at hn
  obtain ⟨p₁, hp₁, hl₁⟩ := hc n ps R hl (hR.imp (by decide)) (by simp only [NT.rank] at hn ⊢; omega)
  refine ⟨skip p₁, ?_, (lex_skip p₁).trans hl₁⟩
  rw [parse, parsepipe, show parseexec n ps = _ from hp₁, ok_bind]
  dsimp only
  rw [peek_not char_pipe (by decide) (hl₁ ▸ hR.imp (by decide))]
  rfl

theorem finds_pipe {ts ts' : List Token} {bar : Token} {c c' : Cmd} (hc : Finds .exec ts c)
    (hbar : bar.kind = .pipe) (hc' : Finds .pipe ts' c') :
    Finds .pipe (ts ++ bar :: ts') (.pipe c c') := by
  intro n ps R hl hR hn
  obtain _ | n := n
  · simp [NT.rank] at hn
  have hb : Heads (· = .pipe) (bar :: (ts' ++ R)) := heads_cons.mpr hbar
  rw [append_assoc, cons_append] at hl
  obtain ⟨p₁, hp₁, hl₁⟩ := hc n ps _ hl (hb.of_eq (by decide)) (by simp only [NT.rank] at hn ⊢; omega)
  obtain ⟨hpeek, hl₂⟩ := peek_is char_pipe (by decide) hbar hl₁
  obtain ⟨p₃, hp₃, hl₃⟩ := hc' n _ R hl₂ hR (by
    rw [hl] at hn
    rw [hl₂]
    simp only [NT.rank, length_append, length_cons] at hn ⊢
    omega)
  refine ⟨p₃, ?_, hl₃⟩
  rw [parse, parsepipe, show parseexec n ps = _ from hp₁, ok_bind]
  dsimp only
  rw [hpeek]
  dsimp only
  rw [show parsepipe n _ = _ from hp₃]
  rfl

theorem finds_block {ts rt : List Token} {lpar rpar : Token} {c : Cmd} {rs : List Redir}
    (hlpar : lpar.kind = .lpar) (hc : Finds .line ts c) (hrpar : rpar.kind = .rpar)
    (hrs : Redirs rt rs) : Finds .exec (lpar :: (ts ++ rpar :: rt)) (wrap c rs) := by
  intro n ps R hl hR hn
  rw [cons_append, append_assoc, cons_append] at hl
  rw [hl] at hn
  simp only [NT.rank, length_append, length_cons] at hn
  -- one unit of fuel for `parseexec` and one for `parseblock`
  obtain ⟨n, rfl⟩ : ∃ m, n = m + 2 := ⟨n - 2, by omega⟩
  obtain ⟨hpeek, -⟩ := peek_is char_lpar (by decide) hlpar hl
  obtain ⟨hpeek₁, hl₁⟩ := peek_is char_lpar (by decide) hlpar ((lex_skip ps).trans hl)
  have hr : Heads (· = .rpar) (rpar :: (rt ++ R)) := heads_cons.mpr hrpar
  obtain ⟨p₂, hp₂, hl₂⟩ := hc n _ _ hl₁ (hr.of_eq (by decide)) (by
    rw [hl₁]
    simp only [NT.rank, length_append, length_cons]
    omega)
  obtain ⟨hpeek₃, hl₃⟩ := peek_is char_rpar (by decide) hrpar hl₂
  obtain ⟨p₄, hp₄, hl₄⟩ := parseredirs_complete hrs hl₃ (hR.imp (by decide))
    (Nat.lt_succ_of_le (length_lex_le _))
  refine ⟨p₄, ?_, hl₄⟩
  rw [parse, parseexec, hpeek]
  dsimp only
  rw [parseblock, hpeek₁]
  dsimp only
  rw [show parseline n _ = _ from hp₂, ok_bind]
  rw [hpeek₃]
  dsimp only
  rw [hp₄]
  rfl

theorem finds_exec {rt ts : List Token} {rs rs' : List Redir} {argv : List Span}
    (hrs : Redirs rt rs) (hwords : Words ts argv rs') (hlen : argv.length ≤ MAXARGS - 1) :
    Finds .exec (rt ++ ts) (wrap (.exec argv) (rs ++ rs')) := by
  intro n ps R hl hR hn
  obtain _ | n := n
  · simp [NT.rank] at hn
  rw [append_assoc] at hl
  have hpar : Heads (· ≠ .lpar) (rt ++ (ts ++ R)) :=
    (hrs.heads.imp (by rintro _ hk rfl; cases hk)).append
      ((hwords.heads.of_eq (by decide)).append (hR.imp (by decide)))
  have hstop : Heads (fun k => k.isRedir = false) (ts ++ R) :=
    (hwords.heads.of_eq (by decide)).append (hR.imp (by decide))
  obtain ⟨p₁, hp₁, hl₁⟩ := parseredirs_complete hrs ((lex_skip ps).trans hl) hstop
    (Nat.lt_succ_of_le (length_lex_le _))
  obtain ⟨p₂, hp₂, hl₂⟩ := parseargs_complete hwords hl₁ hR
    (Nat.lt_succ_of_le (length_lex_le _)) (show 0 + argv.length < MAXARGS by
      rw [MAXARGS] at hlen ⊢
      omega)
  refine ⟨p₂, ?_, hl₂⟩
  rw [parse, parseexec, peek_not char_lpar (by decide) (hl ▸ hpar)]
  dsimp only
  rw [hp₁, ok_bind]
  rw [hp₂]
  rfl

/-- **Every derivation is found.** -/
theorem parse_complete {nt : NT} {ts : List Token} {cmd : Cmd} (h : Derives nt ts cmd) :
    Finds nt ts cmd := by
  induction h with
  | line _ hamps ih => exact finds_line ih hamps
  | list _ hamps hsemi _ ih ih' => exact finds_list ih hamps hsemi ih'
  | single _ ih => exact finds_single ih
  | pipe _ hbar _ ih ih' => exact finds_pipe ih hbar ih'
  | block hlpar _ hrpar hrs ih => exact finds_block hlpar ih hrpar hrs
  | exec hrs hwords hlen => exact finds_exec hrs hwords hlen

/-! ## Terminators -/

/-- The text of a string. -/
def Span.text (sp : Span) : Str := sp.q.take (sp.q.length - sp.eq.length)

/-- The strings of a command, in the order in which `nulterminate` writes their terminators. -/
def Cmd.spans : Cmd → List Span
  | .exec argv => argv
  | .redir cmd file _ _ => cmd.spans ++ [file]
  | .pipe left right => left.spans ++ right.spans
  | .list left right => left.spans ++ right.spans
  | .back cmd => cmd.spans

theorem nulterminate_eq (n : ℕ) (cmd : Cmd) (buf : List UInt8) :
    nulterminate n cmd buf = cmd.spans.foldl (fun buf sp => terminate n buf sp.eq) buf := by
  induction cmd generalizing buf with
  | exec argv => rfl
  | redir cmd file mode fd ih => rw [nulterminate, ih, Cmd.spans, foldl_append]; rfl
  | pipe left right ihl ihr => rw [nulterminate, ihl, ihr, Cmd.spans, foldl_append]
  | list left right ihl ihr => rw [nulterminate, ihl, ihr, Cmd.spans, foldl_append]
  | back cmd ih => rw [nulterminate, ih, Cmd.spans]

/-- The terminators, and nothing else. -/
theorem foldl_terminate (n : ℕ) (sps : List Span) (buf : List UInt8) (i : ℕ) :
    (sps.foldl (fun buf sp => terminate n buf sp.eq) buf)[i]? =
      if ∃ sp ∈ sps, n - sp.eq.length = i then buf[i]?.map fun _ => 0 else buf[i]? := by
  induction sps generalizing buf with
  | nil => simp
  | cons sp sps ih =>
    rw [foldl_cons, ih, terminate, getElem?_set]
    simp only [exists_mem_cons_iff]
    by_cases hi : n - sp.eq.length = i
    · obtain rfl := hi
      by_cases hlt : n - sp.eq.length < buf.length
      · simp [hlt]
      · simp [hlt]
    · simp only [hi, if_false, false_or]

/-- A maximal run of characters of words, in `s`. -/
def Span.InLine (s : Str) (sp : Span) : Prop :=
  sp.q <:+ s ∧ sp.eq = sp.q.dropWhile isWordChar

theorem lex_word {s : Str} {t : Token} (ht : t ∈ lex s) (hw : t.kind = .word) :
    t.span.InLine s := by
  induction hn : s.length using Nat.strong_induction_on generalizing s with
  | _ n ih =>
    subst hn
    rcases s with _ | ⟨c, s⟩
    · simp [lex_nil] at ht
    have hrest (r : Str) (hr : r <:+ s) (hmem : t ∈ lex r) : t.span.InLine (c :: s) := by
      have hlen := hr.length_le
      obtain ⟨hq, heq⟩ := ih r.length (by simp only [length_cons]; omega) hmem rfl
      exact ⟨hq.trans (hr.trans (suffix_cons c s)), heq⟩
    rw [lex] at ht
    split_ifs at ht with hspace hword hgg
    · exact hrest s (suffix_refl s) ht
    · rcases mem_cons.mp ht with rfl | ht
      · exact ⟨suffix_refl _, (dropWhile_cons_of_pos hword).symm⟩
      · exact hrest _ (dropWhile_suffix _) ht
    · rcases mem_cons.mp ht with rfl | ht
      · cases hw
      · exact hrest _ (tail_suffix s) ht
    · rcases mem_cons.mp ht with rfl | ht
      · rcases symbol_cases (by simpa using hspace) (by simpa using hword) with
          ⟨rfl, -⟩ | ⟨-, k, -, hk, hchar⟩
        · cases hw
        · rw [show kindOf c = .word from hw] at hk
          rw [← hk] at hchar
          cases hchar
      · exact hrest s (suffix_refl s) ht

theorem redirect_spans (cmd : Cmd) {op : Kind} (hop : op.isRedir = true) (file : Span) :
    (redirect cmd (some op, file)).spans = cmd.spans ++ [file] := by
  cases op <;> first | rfl | cases hop

/-- The words among the tokens. -/
def wordSpans (ts : List Token) : List Span := (ts.filter (·.kind = .word)).map (·.span)

theorem wordSpans_append (ts ts' : List Token) :
    wordSpans (ts ++ ts') = wordSpans ts ++ wordSpans ts' := by
  simp [wordSpans]

theorem wordSpans_cons (t : Token) (ts : List Token) :
    wordSpans (t :: ts) = if t.kind = .word then t.span :: wordSpans ts else wordSpans ts := by
  by_cases ht : t.kind = .word <;> simp [wordSpans, ht]

theorem wordSpans_subset_cons (t : Token) (ts : List Token) :
    wordSpans ts ⊆ wordSpans (t :: ts) := by
  rw [wordSpans_cons]
  split_ifs
  · exact subset_cons_self _ _
  · exact List.Subset.refl _

theorem wrap_append (cmd : Cmd) (rs rs' : List Redir) :
    wrap cmd (rs ++ rs') = wrap (wrap cmd rs) rs' := foldl_append

/-- A redirection's file is a word. -/
theorem Redirs.spans_wrap {ts : List Token} {rs : List Redir} (h : Redirs ts rs) (cmd : Cmd) :
    (wrap cmd rs).spans ⊆ cmd.spans ++ wordSpans ts := by
  induction h generalizing cmd with
  | nil => simp [wrap]
  | @cons op w ts rs hop hw _ ih =>
    have hfile := ih (redirect cmd (some op.kind, w.span))
    rw [redirect_spans cmd hop] at hfile
    refine List.Subset.trans hfile ?_
    rw [append_assoc]
    refine append_subset.mpr ⟨subset_append_left _ _, ?_⟩
    refine subset_append_of_subset_right _ ?_
    refine List.Subset.trans ?_ (wordSpans_subset_cons op (w :: ts))
    rw [wordSpans_cons, if_pos hw]
    exact List.Subset.refl _

theorem Words.spans_wrap {ts : List Token} {argv : List Span} {rs : List Redir}
    (h : Words ts argv rs) (cmd : Cmd) :
    argv ⊆ wordSpans ts ∧ (wrap cmd rs).spans ⊆ cmd.spans ++ wordSpans ts := by
  induction h generalizing cmd with
  | nil => simp [wrap]
  | @cons w rt ts rs rs' argv hw hrs _ ih =>
    obtain ⟨hargv, hwrap⟩ := ih (wrap cmd rs)
    have hfiles := hrs.spans_wrap cmd
    rw [wordSpans_cons, if_pos hw, wordSpans_append, wrap_append]
    constructor
    · intro sp hsp
      grind
    · intro sp hsp
      grind

theorem backs_spans (n : ℕ) (cmd : Cmd) : (backs n cmd).spans = cmd.spans := by
  induction n generalizing cmd with
  | zero => rfl
  | succ n ih => exact ih (.back cmd)

/-- **The strings of a command are words of the line.** -/
theorem Derives.spans_subset {nt : NT} {ts : List Token} {cmd : Cmd} (h : Derives nt ts cmd) :
    cmd.spans ⊆ wordSpans ts := by
  induction h with
  | line _ _ ih =>
    rw [backs_spans, wordSpans_append]
    exact subset_append_of_subset_left _ ih
  | @list ts amps ts' semi c c' _ _ _ _ ih ih' =>
    rw [Cmd.spans, backs_spans, wordSpans_append, wordSpans_append]
    have hright := List.Subset.trans ih' (wordSpans_subset_cons semi ts')
    exact append_subset.mpr ⟨subset_append_of_subset_left _ ih,
      subset_append_of_subset_right _ (subset_append_of_subset_right _ hright)⟩
  | single _ ih => exact ih
  | @pipe ts ts' bar c c' _ _ _ ih ih' =>
    rw [Cmd.spans, wordSpans_append]
    have hright := List.Subset.trans ih' (wordSpans_subset_cons bar ts')
    exact append_subset.mpr ⟨subset_append_of_subset_left _ ih,
      subset_append_of_subset_right _ hright⟩
  | @block ts rt lpar rpar c rs _ _ _ hrs ih =>
    refine List.Subset.trans ?_ (wordSpans_subset_cons lpar _)
    refine List.Subset.trans (hrs.spans_wrap c) ?_
    rw [wordSpans_append]
    exact append_subset.mpr ⟨subset_append_of_subset_left _ ih,
      subset_append_of_subset_right _ (wordSpans_subset_cons rpar rt)⟩
  | @exec rt ts rs rs' argv hrs hwords _ =>
    obtain ⟨hargv, hwrap⟩ := hwords.spans_wrap (wrap (.exec argv) rs)
    have hfiles := hrs.spans_wrap (.exec argv)
    rw [wordSpans_append, wrap_append]
    intro sp hsp
    simp only [Cmd.spans] at hfiles
    grind

/-- The first `k` characters, up to the first 0. -/
theorem takeWhile_eq_take {l : List UInt8} {k : ℕ} (hne : 0 ∉ l.take k) (h0 : l[k]? = some 0) :
    l.takeWhile (· ≠ 0) = l.take k := by
  induction k generalizing l with
  | zero =>
    obtain ⟨r, rfl⟩ := head?_eq_some_iff.mp (head?_eq_getElem? ▸ h0)
    rfl
  | succ k ih =>
    rcases l with _ | ⟨a, l⟩
    · simp at h0
    · simp only [take_succ_cons, mem_cons, not_or] at hne
      rw [takeWhile_cons_of_pos (by simpa using Ne.symm hne.1), ih hne.2 (by simpa using h0)]
      rfl

theorem drop_suffix {α : Type} {l r : List α} (h : r <:+ l) : l.drop (l.length - r.length) = r :=
  (suffix_iff_eq_drop.mp h).symm

theorem dropWhile_head_false {α : Type} {p : α → Bool} {l r : List α} {a : α}
    (h : l.dropWhile p = a :: r) : p a = false := by
  have := head_dropWhile_not p (l := l) (by simp [h])
  simpa [h] using this

/-- No terminator of a word is inside another word: at the end of a word is no character of one. -/
theorem terminator_outside {s : Str} {sp sp' : Span} (h : sp.InLine s) (h' : sp'.InLine s)
    (hlt : sp.eq.length < sp'.eq.length) : sp.q.length < sp'.eq.length := by
  by_contra! hle
  obtain ⟨hq, heq⟩ := h
  obtain ⟨hq', heq'⟩ := h'
  have hsuf : sp'.eq <:+ sp.q := by
    refine suffix_of_suffix_length_le ?_ hq hle
    rw [heq']
    exact (dropWhile_suffix _).trans hq'
  obtain ⟨pre, hpre⟩ := hsuf
  rw [← takeWhile_append_dropWhile (p := isWordChar) (l := sp.q), ← heq] at hpre
  rcases append_eq_append_iff.mp hpre with ⟨w, hw, hsp'⟩ | ⟨w, -, hsp⟩
  · -- the character at the end of the other word would be in this one
    rcases w with _ | ⟨c, w⟩
    · rw [hsp', nil_append] at hlt
      exact lt_irrefl _ hlt
    · have hin : c ∈ sp.q.takeWhile isWordChar := by simp [hw]
      have hout := dropWhile_head_false (heq'.symm.trans hsp')
      rw [mem_takeWhile_imp hin] at hout
      cases hout
  · rw [hsp, length_append] at hlt
    omega

/-- **Each string is the text of its word**, in the line with the terminators of all of them. -/
theorem cstringAt_nulterminate {s : Str} (hs : 0 ∉ s) {cmd : Cmd}
    (hcmd : ∀ sp ∈ cmd.spans, sp.InLine s) {sp : Span} (hsp : sp ∈ cmd.spans) :
    cstringAt s.length (nulterminate s.length cmd (s ++ [0])) sp.q = sp.text := by
  obtain ⟨hq, heq⟩ := hcmd sp hsp
  have hlen := hq.length_le
  have hend : sp.eq.length ≤ sp.q.length := by
    rw [heq]
    exact length_dropWhile_le _ _
  rw [cstringAt, nulterminate_eq]
  set buf := cmd.spans.foldl (fun buf sp => terminate s.length buf sp.eq) (s ++ [0]) with hbuf
  have htake : (buf.drop (s.length - sp.q.length)).take (sp.q.length - sp.eq.length) = sp.text := by
    refine ext_getElem? fun i => ?_
    rw [Span.text, getElem?_take, getElem?_take]
    split_ifs with hi
    · rw [getElem?_drop, hbuf, foldl_terminate, if_neg, getElem?_append_left (by omega)]
      · rw [← getElem?_drop, drop_suffix hq]
      · rintro ⟨sp', hsp', hpos⟩
        have hlen' : sp'.eq.length ≤ s.length := by
          obtain ⟨hq', heq'⟩ := hcmd sp' hsp'
          rw [heq']
          exact (length_dropWhile_le _ _).trans hq'.length_le
        have := terminator_outside (hcmd sp hsp) (hcmd sp' hsp') (by omega)
        omega
    · rfl
  rw [takeWhile_eq_take (k := sp.q.length - sp.eq.length), htake]
  · rw [htake]
    exact fun h0 => hs (hq.subset (mem_of_mem_take h0))
  · rw [getElem?_drop, hbuf, foldl_terminate, if_pos ⟨sp, hsp, by omega⟩]
    rw [getElem?_eq_getElem (by simp only [length_append, length_singleton]; omega)]
    rfl

/-! ## The parser and the grammar -/

theorem lex_eq_nil_iff {s : Str} : lex s = [] ↔ skip s = [] := by
  refine ⟨fun h => ?_, fun h => by rw [← lex_skip, h, lex_nil]⟩
  have := gettoken_lex s
  rw [h] at this
  exact this.2.2

theorem parsecmd_eq {s : Str} {cmd : Cmd} {ps : Str}
    (h : parseline (4 * s.length + 3) s = .ok (cmd, ps)) :
    parsecmd s = if lex ps = [] then .ok (cmd, nulterminate s.length cmd (s ++ [0]))
      else .panic "syntax" := by
  rw [parsecmd, h, ok_bind]
  dsimp only [peek]
  by_cases hnil : skip ps = []
  · rw [if_neg (not_not.mpr hnil), if_pos (lex_eq_nil_iff.mpr hnil)]
    rfl
  · rw [if_pos hnil, if_neg (mt lex_eq_nil_iff.mp hnil)]

/-- `parsecmd` returns the command of the derivation of the line. -/
theorem parsecmd_ok_iff {s : Str} {cmd : Cmd} {buf : List UInt8} :
    parsecmd s = .ok (cmd, buf) ↔
      Derives .line (lex s) cmd ∧ buf = nulterminate s.length cmd (s ++ [0]) := by
  have hlen := length_lex_le s
  constructor
  · intro h
    have hspec := (parse_spec (4 * s.length + 3) s).1 (by omega)
    rcases hx : parseline (4 * s.length + 3) s with ⟨cmd', ps⟩ | _ | msg
    · rw [hx] at hspec
      obtain ⟨ts, hts, hcmd⟩ := hspec
      rw [parsecmd_eq hx] at h
      split_ifs at h with hnil
      obtain ⟨rfl, rfl⟩ := Prod.mk.inj (Outcome.ok.inj h)
      rw [hts, hnil, append_nil]
      exact ⟨hcmd, rfl⟩
    · rw [parsecmd, hx] at h
      cases h
    · rw [parsecmd, hx] at h
      cases h
  · rintro ⟨hcmd, rfl⟩
    obtain ⟨ps', hps', hnil⟩ := parse_complete hcmd (4 * s.length + 3) s []
      (append_nil _).symm (heads_nil _) (by rw [NT.rank]; omega)
    rw [parsecmd_eq hps', if_pos hnil]

/-- Where the line is not derivable, it panics. -/
theorem parsecmd_panics {s : Str} (h : ∀ cmd, ¬Derives .line (lex s) cmd) :
    ∃ msg, parsecmd s = .panic msg := by
  have hlen := length_lex_le s
  have hspec := (parse_spec (4 * s.length + 3) s).1 (by omega)
  rcases hx : parseline (4 * s.length + 3) s with ⟨cmd, ps⟩ | _ | msg
  · rw [hx] at hspec
    obtain ⟨ts, hts, hcmd⟩ := hspec
    refine ⟨"syntax", ?_⟩
    rw [parsecmd_eq hx, if_neg]
    intro hnil
    rw [hnil, append_nil] at hts
    exact h cmd (hts ▸ hcmd)
  · rw [hx] at hspec
    exact hspec.elim
  · exact ⟨msg, by rw [parsecmd, hx]; rfl⟩

theorem mem_wordSpans {ts : List Token} {sp : Span} :
    sp ∈ wordSpans ts ↔ ∃ t ∈ ts, t.kind = .word ∧ t.span = sp := by
  simp [wordSpans, and_assoc]

/-- **The parser accepts exactly its grammar**: `parsecmd` returns the command of a derivation of
the whole line when there is one, and panics otherwise; each string of the command is the text of a
word of the line. -/
theorem parsecmd_grammar (s : Str) (hs : 0 ∉ s) :
    (∀ cmd buf, parsecmd s = .ok (cmd, buf) ↔
      Derives .line (lex s) cmd ∧ buf = nulterminate s.length cmd (s ++ [0])) ∧
    ((∀ cmd, ¬Derives .line (lex s) cmd) → ∃ msg, parsecmd s = .panic msg) ∧
    ∀ cmd buf, parsecmd s = .ok (cmd, buf) → ∀ sp ∈ cmd.spans,
      (∃ t ∈ lex s, t.kind = .word ∧ t.span = sp) ∧ cstringAt s.length buf sp.q = sp.text := by
  refine ⟨fun _ _ => parsecmd_ok_iff, parsecmd_panics, fun cmd buf h sp hsp => ?_⟩
  obtain ⟨hcmd, rfl⟩ := parsecmd_ok_iff.mp h
  have hwords := fun sp (hsp : sp ∈ cmd.spans) => mem_wordSpans.mp (hcmd.spans_subset hsp)
  refine ⟨hwords sp hsp, cstringAt_nulterminate hs (fun sp' hsp' => ?_) hsp⟩
  obtain ⟨t, ht, hword, rfl⟩ := hwords sp' hsp'
  exact lex_word ht hword

/-- The line `(ls)>f&`, and what is made of it. -/
theorem parsecmd_block :
    let s : Str := [40, 108, 115, 41, 62, 102, 38]
    let ls : Span := ⟨[108, 115, 41, 62, 102, 38], [41, 62, 102, 38]⟩
    let f : Span := ⟨[102, 38], [38]⟩
    0 ∉ s ∧ Derives .line (lex s) (.back (.redir (.exec [ls]) f writeMode 1)) ∧
      cstringAt 7 [40, 108, 115, 0, 62, 102, 0, 0] ls.q = [108, 115] := by
  intro s ls f
  have hs : 0 ∉ s := by decide
  obtain ⟨hok, -, htext⟩ := parsecmd_grammar s hs
  have hparse : parsecmd s = .ok (.back (.redir (.exec [ls]) f writeMode 1),
      [40, 108, 115, 0, 62, 102, 0, 0]) := rfl
  exact ⟨hs, ((hok _ _).mp hparse).1, (htext _ _ hparse ls (by decide)).2⟩

end Xv6.Sh
