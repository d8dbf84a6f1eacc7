import Mathlib.Tactic.Common

/-!
# Step machines and their runs

A step machine is a function `step : σ → ε → Outcome σ`: in a state, an event
(which process moves, and with which argument) either gives the next state,
cannot happen now, or stops the machine in a panic. `Run step C s t` says that
`t` is reached from `s` by events each of which satisfies the side condition
`C` in the state it is taken in; with `C` always true it is plain
reachability.

The rule everything else rests on is `Run.invariant`: what holds at the start
and is kept by one step is kept by every run.
-/

namespace Xv6

universe u v

/-- What an event does in a state. -/
inductive Outcome (σ : Type u) : Type u where
  /-- the next state -/
  | ok : σ → Outcome σ
  /-- the event is not possible now: the process waits, or this is not its turn -/
  | blocked : Outcome σ
  /-- the code calls `panic` with this message -/
  | panic : String → Outcome σ

namespace Outcome

variable {σ : Type u}

/-- The next state, or `s` if there is none. -/
def getD : Outcome σ → σ → σ
  | .ok t, _ => t
  | _, s => s

/-- The message of a panic. -/
def message : Outcome σ → Option String
  | .panic msg => some msg
  | _ => none

theorem eq_panic_of_message {o : Outcome σ} {msg : String} (h : o.message = some msg) :
    o = .panic msg := by
  cases o <;> cases h
  rfl

end Outcome

variable {σ : Type u} {ε : Type v} {step : σ → ε → Outcome σ} {C D : σ → ε → Prop}

/-- The states reached from `s` by events that satisfy `C` where they are taken. -/
inductive Run (step : σ → ε → Outcome σ) (C : σ → ε → Prop) (s : σ) : σ → Prop where
  /-- the empty run -/
  | refl : Run step C s s
  /-- one more event -/
  | tail {t u : σ} {e : ε} : Run step C s t → C t e → step t e = .ok u → Run step C s u

/-- **The invariant rule.** -/
theorem Run.invariant {I : σ → Prop} {s t : σ} (h : Run step C s t) (h₀ : I s)
    (hstep : ∀ s e s', I s → C s e → step s e = .ok s' → I s') : I t := by
  induction h with
  | refl => exact h₀
  | tail _ hc hs ih => exact hstep _ _ _ ih hc hs

/-- Runs compose. -/
theorem Run.trans {s t u : σ} (h₁ : Run step C s t) (h₂ : Run step C t u) :
    Run step C s u := by
  induction h₂ with
  | refl => exact h₁
  | tail _ hc hs ih => exact ih.tail hc hs

/-- A run under a stronger side condition is a run under a weaker one. -/
theorem Run.mono {s t : σ} (h : Run step C s t) (hCD : ∀ s e, C s e → D s e) :
    Run step D s t := by
  induction h with
  | refl => exact .refl
  | tail _ hc hs ih => exact ih.tail (hCD _ _ hc) hs

/-- Run a list of events, stopping at the first one that does not succeed. -/
def runList (step : σ → ε → Outcome σ) : σ → List ε → Outcome σ
  | s, [] => .ok s
  | s, e :: es =>
    match step s e with
    | .ok s' => runList step s' es
    | .blocked => .blocked
    | .panic msg => .panic msg

theorem runList_append {s t : σ} {es es' : List ε} (h : runList step s es = .ok t) :
    runList step s (es ++ es') = runList step t es' := by
  induction es generalizing s with
  | nil =>
    cases h
    rfl
  | cons e es ih =>
    rw [runList] at h
    rw [List.cons_append, runList]
    rcases hs : step s e with s' | _ | msg
    · rw [hs] at h
      exact ih h
    · rw [hs] at h
      cases h
    · rw [hs] at h
      cases h

/-- A list of events that runs through is a run. -/
theorem Run.of_runList {s t : σ} {es : List ε} (h : runList step s es = .ok t) :
    Run step (fun _ _ => True) s t := by
  induction es generalizing s with
  | nil =>
    cases h
    exact .refl
  | cons e es ih =>
    rw [runList] at h
    rcases hs : step s e with s' | _ | msg
    · rw [hs] at h
      exact (Run.refl.tail trivial hs).trans (ih h)
    · rw [hs] at h
      cases h
    · rw [hs] at h
      cases h

/-- Does a list of events run through, with the side condition `c` true at each? -/
def checkList (step : σ → ε → Outcome σ) (c : σ → ε → Bool) : σ → List ε → Bool
  | _, [] => true
  | s, e :: es =>
    match step s e with
    | .ok s' => c s e && checkList step c s' es
    | _ => false

/-- A list of events that has been checked is a run; what is checked may rest on an invariant. -/
theorem Run.of_checkList_inv {I : σ → Prop} {c : σ → ε → Bool}
    (hI : ∀ s e s', I s → step s e = .ok s' → I s') (hc : ∀ s e, I s → c s e = true → C s e)
    {es : List ε} {s : σ} (hs : I s) (h : checkList step c s es = true) (d : σ) :
    Run step C s ((runList step s es).getD d) := by
  induction es generalizing s with
  | nil => exact .refl
  | cons e es ih =>
    rw [checkList] at h
    rw [runList]
    rcases hstep : step s e with s' | _ | msg
    · rw [hstep] at h
      simp only [Bool.and_eq_true] at h
      exact (Run.refl.tail (hc _ _ hs h.1) hstep).trans (ih (hI _ _ _ hs hstep) h.2)
    · rw [hstep] at h
      cases h
    · rw [hstep] at h
      cases h

/-- A list of events that has been checked is a run. -/
theorem Run.of_checkList {c : σ → ε → Bool} (hc : ∀ s e, c s e = true → C s e) {es : List ε}
    {s : σ} (h : checkList step c s es = true) (d : σ) :
    Run step C s ((runList step s es).getD d) :=
  .of_checkList_inv (I := fun _ => True) (fun _ _ _ _ _ => trivial) (fun s e _ => hc s e) trivial h d

end Xv6
