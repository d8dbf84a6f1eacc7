import Xv6.History
import Xv6.Prog

/-!
# The parser of the shell (`user/sh.c`)

A pointer into the command line is the rest of the string from there on: `*s` is
the first character, and `s == es` at the empty rest. The strings of a command
are given by where they start and end (`argv` and `eargv`, `file` and `efile`);
`nulterminate` writes the terminators into the line itself.

Recursion is bounded by `fuel`; running out of it is `Outcome.blocked`, and does
not happen with what `parsecmd` gives.
-/

namespace Xv6.Sh

/-- `whitespace` -/
def whitespace : Str := [32, 9, 13, 10, 11]

/-- `'<'` -/
def chLt : UInt8 := 60

/-- `'|'` -/
def chPipe : UInt8 := 124

/-- `'>'` -/
def chGt : UInt8 := 62

/-- `'&'` -/
def chAmp : UInt8 := 38

/-- `';'` -/
def chSemi : UInt8 := 59

/-- `'('` -/
def chLpar : UInt8 := 40

/-- `')'` -/
def chRpar : UInt8 := 41

/-- `symbols` -/
def symbols : Str := [chLt, chPipe, chGt, chAmp, chSemi, chLpar, chRpar]

/-- What `gettoken` returns for a token: its character, `'+'` for `>>` and `'a'` for a word. -/
inductive Kind : Type where
  | word
  | lt
  | gt
  | gtgt
  | pipe
  | amp
  | semi
  | lpar
  | rpar
  deriving DecidableEq

/-- Where a string starts and where it ends. -/
structure Span where
  q : Str
  eq : Str
  deriving DecidableEq

/-- Is this a character of a word? -/
def isWordChar (c : UInt8) : Bool := !whitespace.contains c && !symbols.contains c

/-- The symbols of one character. -/
def symbolKind (c : UInt8) : Option Kind :=
  if c = chPipe then some .pipe
  else if c = chLpar then some .lpar
  else if c = chRpar then some .rpar
  else if c = chSemi then some .semi
  else if c = chAmp then some .amp
  else if c = chLt then some .lt
  else none

/-- Skip whitespace. -/
def skip (s : Str) : Str := s.dropWhile (whitespace.contains ·)

/-- `gettoken`: the token, `none` for 0; where it starts and ends; and where the next one starts -/
def gettoken (ps : Str) : Option Kind × Span × Str :=
  let q := skip ps
  let token (ret : Kind) (eq : Str) : Option Kind × Span × Str := (some ret, ⟨q, eq⟩, skip eq)
  match q with
  | [] => (none, ⟨[], []⟩, [])
  | c :: s =>
    match symbolKind c with
    | some ret => token ret s
    | none =>
      if c = chGt then
        if s.head? = some chGt then token .gtgt s.tail else token .gt s
      else
        token .word (s.dropWhile isWordChar)

/-- `peek`: is the next character one of `toks`? -/
def peek (ps toks : Str) : Bool × Str := ((skip ps).head?.any (toks.contains ·), skip ps)

/-- `struct cmd` -/
inductive Cmd : Type where
  /-- `argv` with `eargv` -/
  | exec (argv : List Span)
  | redir (cmd : Cmd) (file : Span) (mode fd : ℕ)
  | pipe (left right : Cmd)
  | list (left right : Cmd)
  | back (cmd : Cmd)
  deriving DecidableEq

/-- `MAXARGS` -/
def MAXARGS : ℕ := 10

/-- A redirection: the token, and the file. -/
abbrev Redir : Type := Option Kind × Span

/-- `O_RDONLY` -/
def O_RDONLY : ℕ := 0x000

/-- `O_WRONLY|O_CREATE` -/
def appendMode : ℕ := 0x001 ||| 0x200

/-- `O_WRONLY|O_CREATE|O_TRUNC` -/
def writeMode : ℕ := 0x001 ||| 0x200 ||| 0x400

/-- `redircmd`, for a redirection of `cmd` -/
def redirect (cmd : Cmd) : Redir → Cmd
  | (some .lt, file) => .redir cmd file O_RDONLY 0
  | (some .gt, file) => .redir cmd file writeMode 1
  | (some .gtgt, file) => .redir cmd file appendMode 1
  | (_, _) => cmd

/-- The redirections of a command, in the order read. -/
def wrap (cmd : Cmd) (rs : List Redir) : Cmd := rs.foldl redirect cmd

/-- `parseredirs`: the redirections it puts around a command, in the order read. `parseexec` adds to
the command itself after that, so they are kept apart until it is done. -/
def parseredirs : ℕ → Str → Outcome (List Redir × Str)
  | 0, _ => .blocked
  | fuel + 1, ps =>
    match peek ps [chLt, chGt] with
    | (false, ps) => .ok ([], ps)
    | (true, ps) =>
      let (tok, _, ps) := gettoken ps
      match gettoken ps with
      | (some .word, file, ps) => do
        let (rs, ps) ← parseredirs fuel ps
        return ((tok, file) :: rs, ps)
      | _ => .panic "missing file for redirection"

/-- The loop of `parseexec`, with `argc` words so far: the words and redirections it reads. -/
def parseargs : ℕ → ℕ → Str → Outcome ((List Span × List Redir) × Str)
  | 0, _, _ => .blocked
  | fuel + 1, argc, ps =>
    match peek ps [chPipe, chRpar, chAmp, chSemi] with
    | (true, ps) => .ok (([], []), ps)
    | (false, ps) =>
      match gettoken ps with
      | (none, _, ps) => .ok (([], []), ps)
      | (some .word, arg, ps) =>
        if MAXARGS ≤ argc + 1 then
          .panic "too many args"
        else do
          let (rs, ps) ← parseredirs (ps.length + 1) ps
          let ((argv, rs'), ps) ← parseargs fuel (argc + 1) ps
          return ((arg :: argv, rs ++ rs'), ps)
      | _ => .panic "syntax"

/-- The loop of `parseline` over `&`. -/
def parseback : ℕ → Cmd → Str → Cmd × Str
  | 0, cmd, ps => (cmd, ps)
  | fuel + 1, cmd, ps =>
    match peek ps [chAmp] with
    | (false, ps) => (cmd, ps)
    | (true, ps) => parseback fuel (.back cmd) (gettoken ps).2.2

mutual

/-- `parseline` -/
def parseline : ℕ → Str → Outcome (Cmd × Str)
  | 0, _ => .blocked
  | fuel + 1, ps => do
    let (cmd, ps) ← parsepipe fuel ps
    let (cmd, ps) := parseback (ps.length + 1) cmd ps
    match peek ps [chSemi] with
    | (false, ps) => return (cmd, ps)
    | (true, ps) =>
      let (right, ps) ← parseline fuel (gettoken ps).2.2
      return (.list cmd right, ps)

/-- `parsepipe` -/
def parsepipe : ℕ → Str → Outcome (Cmd × Str)
  | 0, _ => .blocked
  | fuel + 1, ps => do
    let (cmd, ps) ← parseexec fuel ps
    match peek ps [chPipe] with
    | (false, ps) => return (cmd, ps)
    | (true, ps) =>
      let (right, ps) ← parsepipe fuel (gettoken ps).2.2
      return (.pipe cmd right, ps)

/-- `parseexec` -/
def parseexec : ℕ → Str → Outcome (Cmd × Str)
  | 0, _ => .blocked
  | fuel + 1, ps =>
    match peek ps [chLpar] with
    | (true, ps) => parseblock fuel ps
    | (false, ps) => do
      let (rs, ps) ← parseredirs (ps.length + 1) ps
      let ((argv, rs'), ps) ← parseargs (ps.length + 1) 0 ps
      return (wrap (.exec argv) (rs ++ rs'), ps)

/-- `parseblock` -/
def parseblock : ℕ → Str → Outcome (Cmd × Str)
  | 0, _ => .blocked
  | fuel + 1, ps =>
    match peek ps [chLpar] with
    | (false, _) => .panic "parseblock"
    | (true, ps) => do
      let (cmd, ps) ← parseline fuel (gettoken ps).2.2
      match peek ps [chRpar] with
      | (false, _) => .panic "syntax - missing )"
      | (true, ps) =>
        let ps := (gettoken ps).2.2
        let (rs, ps) ← parseredirs (ps.length + 1) ps
        return (wrap cmd rs, ps)

end

/-! ## Terminators -/

/-- Write a 0 where `p` points to, in the line `buf` that is `n` characters long. -/
def terminate (n : ℕ) (buf : List UInt8) (p : Str) : List UInt8 := buf.set (n - p.length) 0

/-- `nulterminate` -/
def nulterminate (n : ℕ) : Cmd → List UInt8 → List UInt8
  | .exec argv, buf => argv.foldl (fun buf arg => terminate n buf arg.eq) buf
  | .redir cmd file _ _, buf => terminate n (nulterminate n cmd buf) file.eq
  | .pipe left right, buf => nulterminate n right (nulterminate n left buf)
  | .list left right, buf => nulterminate n right (nulterminate n left buf)
  | .back cmd, buf => nulterminate n cmd buf

/-- The C string at `p`, in the line `buf` that was `n` characters long. -/
def cstringAt (n : ℕ) (buf : List UInt8) (p : Str) : Str :=
  (buf.drop (n - p.length)).takeWhile (· ≠ 0)

/-- `parsecmd`: the command, and the line with the terminators -/
def parsecmd (s : Str) : Outcome (Cmd × List UInt8) := do
  let (cmd, ps) ← parseline (4 * s.length + 3) s
  let (_, ps) := peek ps []
  if ps ≠ [] then
    .panic "syntax"
  else
    return (cmd, nulterminate s.length cmd (s ++ [0]))

end Xv6.Sh
