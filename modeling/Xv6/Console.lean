import Xv6.Machine
import Xv6.Ring

/-!
# Console input (`kernel/console.c`)

Characters that the UART delivers are put into a buffer, where the line that is
being typed can still be changed, and processes read what has been committed.
Both sides hold `cons.lock`, which a reader gives up only while it sleeps: an
interrupt, and what a reader does up to where it sleeps or returns, is one step.

What `consputc` echoes, and the list of processes that `procdump` prints, are
left out.
-/

namespace Xv6.Console

/-- `INPUT_BUF_SIZE` -/
def INPUT_BUF_SIZE : ℕ := 128

/-- `C(x)`, control-x -/
def C (x : UInt8) : UInt8 := x - 64

/-- `C('D')`, end of file -/
def ctrlD : UInt8 := C 68

/-- `C('H')`, backspace -/
def ctrlH : UInt8 := C 72

/-- `C('P')`, print process list -/
def ctrlP : UInt8 := C 80

/-- `C('U')`, kill line -/
def ctrlU : UInt8 := C 85

/-- `'\x7f'`, delete key -/
def delete : UInt8 := 127

/-- `'\n'` -/
def newline : UInt8 := 10

/-- `'\r'` -/
def carriageReturn : UInt8 := 13

/-- `cons` -/
structure Cons where
  buf : ℕ → UInt8
  /-- read index -/
  r : BitVec 32
  /-- write index -/
  w : BitVec 32
  /-- edit index -/
  e : BitVec 32

/-- `cons`, before anything has happened -/
def Cons.init : Cons where
  buf := fun _ => 0
  r := 0
  w := 0
  e := 0

/-! ## `consoleintr` -/

/-- The loop that kills a line; each round takes a character, so `fuel` is enough if it is at least
`cons.e - cons.w`. -/
def killLoop : ℕ → Cons → Cons
  | 0, s => s
  | fuel + 1, s =>
    if s.e ≠ s.w ∧ s.buf ((s.e - 1#32).toNat % INPUT_BUF_SIZE) ≠ newline then
      killLoop fuel { s with e := s.e - 1#32 }
    else s

/-- `consoleintr` -/
def consoleintr (s : Cons) (c : UInt8) : Cons :=
  if c = ctrlP then s
  else if c = ctrlU then killLoop (s.e - s.w).toNat s
  else if c = ctrlH ∨ c = delete then
    if s.e ≠ s.w then { s with e := s.e - 1#32 } else s
  else if c ≠ 0 ∧ (s.e - s.r).toNat < INPUT_BUF_SIZE then
    let c := if c = carriageReturn then newline else c
    let s := { s with
      buf := Function.update s.buf (s.e.toNat % INPUT_BUF_SIZE) c
      e := s.e + 1#32 }
    if c = newline ∨ c = ctrlD ∨ (s.e - s.r).toNat = INPUT_BUF_SIZE then { s with w := s.e } else s
  else s

/-! ## `consoleread` -/

/-- A process in `consoleread`. -/
structure Reader where
  /-- the number of bytes asked for -/
  target : ℕ
  /-- the number of bytes still wanted -/
  n : ℕ
  /-- how many bytes of the destination can be written -/
  limit : ℕ
  /-- what has been copied to the destination -/
  got : List UInt8

/-- How far a process gets in `consoleread`. -/
inductive Progress : Type where
  | sleep (rd : Reader)
  /-- `consoleread` returns, with the bytes it has copied -/
  | ret (value : ℤ) (got : List UInt8)

/-- The loop of `consoleread`, from where `n` bytes are wanted; the process has been killed or
not. -/
def readLoop (killed : Bool) (target limit : ℕ) : ℕ → Cons → List UInt8 → Progress × Cons
  | 0, s, got => (.ret target got, s)
  | n + 1, s, got =>
    if s.r = s.w then
      if killed then (.ret (-1) got, s) else (.sleep ⟨target, n + 1, limit, got⟩, s)
    else
      let c := s.buf (s.r.toNat % INPUT_BUF_SIZE)
      let s := { s with r := s.r + 1#32 }
      if c = ctrlD then
        -- a control-D is kept for the next call if this one has something to return
        (.ret (target - (n + 1)) got, if n + 1 < target then { s with r := s.r - 1#32 } else s)
      -- `either_copyout` fails, and the character is lost
      else if limit ≤ got.length then (.ret (target - (n + 1)) got, s)
      else if c = newline then (.ret (target - n) (got ++ [c]), s)
      else readLoop killed target limit n s (got ++ [c])

/-! ## The machine -/

/-- What a call of `consoleread` returned. -/
structure Return where
  p : ℕ
  /-- the number of bytes asked for, 0 if it was negative -/
  target : ℕ
  value : ℤ
  /-- the bytes at its destination -/
  got : List UInt8

/-- The console, the processes that sleep in `consoleread`, and what calls have returned. -/
structure State where
  cons : Cons
  reader : ℕ → Option Reader
  returns : List Return

inductive Event : Type where
  /-- a character has been typed -/
  | intr (c : UInt8)
  /-- `p` calls `consoleread` for `n` bytes, of which `limit` can be written -/
  | read (p : ℕ) (n : ℤ) (limit : ℕ) (killed : Bool)
  /-- `p` wakes up in `consoleread` -/
  | wake (p : ℕ) (killed : Bool)

def init : State where
  cons := .init
  reader := fun _ => none
  returns := []

/-- `p`, which has asked for `target` bytes, goes to sleep, or returns. -/
def finish (s : State) (p target : ℕ) (x : Progress × Cons) : State :=
  match x with
  | (.sleep rd, cons) => { s with cons := cons, reader := Function.update s.reader p (some rd) }
  | (.ret value got, cons) =>
    { cons := cons
      reader := Function.update s.reader p none
      returns := s.returns ++ [⟨p, target, value, got⟩] }

def step (s : State) : Event → Outcome State
  | .intr c => .ok { s with cons := consoleintr s.cons c }
  | .read p n limit killed =>
    match s.reader p with
    | some _ => .blocked
    | none => .ok (finish s p n.toNat (readLoop killed n.toNat limit n.toNat s.cons []))
  | .wake p killed =>
    match s.reader p with
    | none => .blocked
    | some rd =>
      .ok (finish s p rd.target (readLoop killed rd.target rd.limit rd.n s.cons rd.got))

end Xv6.Console
