import Xv6.Machine

/-!
# Sequential code and its specifications

`Prog σ α` is code that works on a state `σ`, returns an `α`, and may panic or
wait. `Meets x s Q E` is its specification at a state: `x`, started in `s`,
comes to an end, either with a result and a state that satisfy `Q`, or in a
panic with a message that satisfies `E`. The rules follow the code: one for
each way to build a program (`meets_bind`, `meets_get`, …), stated as
equivalences so that `simp` executes straight-line code, and the rule of
consequence `Meets.mono`, with which one specification of a function serves all
its callers. `Ends x s Q` is the same for code that need not come to an end: it
says what holds if it does.
-/

namespace Xv6

universe u

instance : Monad Outcome where
  pure := .ok
  bind x f :=
    match x with
    | .ok a => f a
    | .blocked => .blocked
    | .panic msg => .panic msg

/-- Code that works on a state. -/
abbrev Prog (σ α : Type u) : Type u := StateT σ Outcome α

namespace Prog

variable {σ τ α β : Type u}

/-- `panic(msg)` -/
def panic (msg : String) : Prog σ α := fun _ => .panic msg

/-- Wait: nothing happens until something else has changed the state. -/
def wait : Prog σ α := fun _ => .blocked

/-- Run `x` on a part of the state. -/
def zoom (get : τ → σ) (set : σ → τ → τ) (x : Prog σ α) : Prog τ α := fun t =>
  match x (get t) with
  | .ok (a, s) => .ok (a, set s t)
  | .blocked => .blocked
  | .panic msg => .panic msg

/-- The state after the code. -/
def after (x : Prog σ α) (s : σ) : Outcome σ :=
  match x s with
  | .ok (_, t) => .ok t
  | .blocked => .blocked
  | .panic msg => .panic msg

/-- Started in `s`, the code comes to an end, with a result as in `Q` or in a
panic as in `E`. -/
def Meets (x : Prog σ α) (s : σ) (Q : α → σ → Prop) (E : String → Prop) : Prop :=
  match x s with
  | .ok (a, t) => Q a t
  | .blocked => False
  | .panic msg => E msg

/-- No panic. -/
def Never : String → Prop := fun _ => False

variable {x : Prog σ α} {f : α → Prog σ β} {s : σ} {Q Q' : α → σ → Prop} {R : β → σ → Prop}
  {E E' : String → Prop}

/-! ## Rules -/

/-- **The rule of consequence.** -/
theorem Meets.mono (h : Meets x s Q E) (hQ : ∀ a t, Q a t → Q' a t) (hE : ∀ msg, E msg → E' msg) :
    Meets x s Q' E' := by
  unfold Meets at h ⊢
  split <;> rename_i hx <;> rw [hx] at h
  · exact hQ _ _ h
  · exact h
  · exact hE _ h

theorem Meets.imp (h : Meets x s Q E) (hQ : ∀ a t, Q a t → Q' a t) : Meets x s Q' E :=
  h.mono hQ fun _ => id

/-- Code that never panics meets its specification whatever panics are allowed. -/
theorem Meets.never (h : Meets x s Q Never) : Meets x s Q E :=
  h.mono (fun _ _ => id) fun _ => False.elim

@[simp]
theorem meets_pure (a : α) : Meets (pure a : Prog σ α) s Q E ↔ Q a s := Iff.rfl

@[simp]
theorem meets_panic (msg : String) : Meets (panic msg : Prog σ α) s Q E ↔ E msg := Iff.rfl

@[simp]
theorem meets_bind : Meets (x >>= f) s R E ↔ Meets x s (fun a t => Meets (f a) t R E) E := by
  simp only [Meets, bind, StateT.bind]
  rcases x s with ⟨a, t⟩ | _ | msg <;> rfl

@[simp]
theorem meets_get {Q : σ → σ → Prop} : Meets (get : Prog σ σ) s Q E ↔ Q s s := Iff.rfl

@[simp]
theorem meets_set {σ : Type} {s t : σ} {Q : PUnit → σ → Prop} {E : String → Prop} :
    Meets (set t : Prog σ PUnit) s Q E ↔ Q ⟨⟩ t :=
  Iff.rfl

@[simp]
theorem meets_modify {σ : Type} {s : σ} {Q : PUnit → σ → Prop} {E : String → Prop} (g : σ → σ) :
    Meets (modify g : Prog σ PUnit) s Q E ↔ Q ⟨⟩ (g s) :=
  Iff.rfl

/-- Calling a function that has a specification. -/
theorem Meets.bind (hx : Meets x s Q Never) (hf : ∀ a t, Q a t → Meets (f a) t R E) :
    Meets (x >>= f) s R E :=
  meets_bind.mpr (hx.never.imp hf)

theorem meets_zoom {get : τ → σ} {set : σ → τ → τ} {t : τ} {Q : α → τ → Prop} :
    Meets (zoom get set x) t Q E ↔ Meets x (get t) (fun a s => Q a (set s t)) E := by
  simp only [Meets, zoom]
  rcases x (get t) with ⟨a, s⟩ | _ | msg <;> rfl

/-- What the specification says of a run that ends well. -/
theorem Meets.of_ok {a : α} {t : σ} (h : Meets x s Q E) (hx : x s = .ok (a, t)) : Q a t := by
  unfold Meets at h
  rw [hx] at h
  exact h

theorem Meets.of_panic {msg : String} (h : Meets x s Q E) (hx : x s = .panic msg) : E msg := by
  unfold Meets at h
  rw [hx] at h
  exact h

theorem Meets.after_ok {t : σ} (h : Meets x s Q E) (hx : x.after s = .ok t) : ∃ a, Q a t := by
  unfold after at hx
  rcases hs : x s with ⟨a, u⟩ | _ | msg <;> rw [hs] at hx <;> cases hx
  exact ⟨a, h.of_ok hs⟩

/-- Two specifications hold together. -/
theorem Meets.and (h : Meets x s Q E) (h' : Meets x s Q' E') :
    Meets x s (fun a t => Q a t ∧ Q' a t) (fun msg => E msg ∧ E' msg) := by
  unfold Meets at h h' ⊢
  split <;> rename_i hx <;> rw [hx] at h h'
  · exact ⟨h, h'⟩
  · exact h
  · exact ⟨h, h'⟩

/-- Code whose result is known. -/
theorem meets_of_ok {a : α} {t : σ} (hx : x s = .ok (a, t)) : Meets x s Q E ↔ Q a t := by
  unfold Meets
  rw [hx]

theorem Meets.exists_after (h : Meets x s Q Never) : ∃ a t, x.after s = .ok t ∧ Q a t := by
  unfold Meets at h
  unfold after
  split at h
  · exact ⟨_, _, rfl, h⟩
  · exact h.elim
  · exact h.elim

theorem Meets.exists_ok (h : Meets x s Q E) (hE : ∀ msg, ¬E msg) :
    ∃ a t, x s = .ok (a, t) ∧ Q a t := by
  unfold Meets at h
  split at h
  next a t hx => exact ⟨a, t, hx, h⟩
  · exact h.elim
  · exact absurd h (hE _)

/-- Code that is bound to panic. -/
theorem Meets.after_eq_panic {msg : String}
    (h : Meets x s (fun _ _ => False) (fun m => m = msg)) : x.after s = .panic msg := by
  unfold Meets at h
  unfold after
  split at h
  · exact h.elim
  · exact h.elim
  · rw [h]

/-- Code whose final state is known. -/
theorem Meets.after_eq {t : σ} (h : Meets x s (fun _ u => u = t) Never) : x.after s = .ok t := by
  unfold Meets at h
  unfold after
  split at h
  · rw [h]
  · exact h.elim
  · exact h.elim

theorem Meets.after_panic {msg : String} (h : Meets x s Q E) (hx : x.after s = .panic msg) :
    E msg := by
  unfold after at hx
  rcases hs : x s with ⟨a, u⟩ | _ | msg <;> rw [hs] at hx <;> cases hx
  exact h.of_panic hs

/-! ## Partial correctness -/

/-- If the code, started in `s`, comes to an end without a panic, then with a result as in `Q`. -/
def Ends (x : Prog σ α) (s : σ) (Q : α → σ → Prop) : Prop := ∀ a t, x s = .ok (a, t) → Q a t

theorem Ends.mono (h : Ends x s Q) (hQ : ∀ a t, Q a t → Q' a t) : Ends x s Q' :=
  fun a t hx => hQ a t (h a t hx)

theorem Meets.ends (h : Meets x s Q E) : Ends x s Q := fun _ _ hx => h.of_ok hx

@[simp]
theorem ends_pure (a : α) : Ends (pure a : Prog σ α) s Q ↔ Q a s := by
  refine ⟨fun h => h a s rfl, fun h b t hx => ?_⟩
  cases hx
  exact h

@[simp]
theorem ends_panic (msg : String) : Ends (panic msg : Prog σ α) s Q := nofun

@[simp]
theorem ends_wait : Ends (wait : Prog σ α) s Q := nofun

@[simp]
theorem ends_bind : Ends (x >>= f) s R ↔ Ends x s fun a t => Ends (f a) t R := by
  constructor
  · intro h a t hx b u hf
    refine h b u ?_
    simp only [bind, StateT.bind, hx]
    exact hf
  · intro h b u hxf
    simp only [bind, StateT.bind] at hxf
    rcases hx : x s with ⟨a, t⟩ | _ | msg <;> rw [hx] at hxf
    · exact h a t hx b u hxf
    · cases hxf
    · cases hxf

@[simp]
theorem ends_get {Q : σ → σ → Prop} : Ends (get : Prog σ σ) s Q ↔ Q s s := by
  refine ⟨fun h => h s s rfl, fun h b t hx => ?_⟩
  cases hx
  exact h

@[simp]
theorem ends_modify {σ : Type} {s : σ} {Q : PUnit → σ → Prop} (g : σ → σ) :
    Ends (modify g : Prog σ PUnit) s Q ↔ Q ⟨⟩ (g s) := by
  refine ⟨fun h => h ⟨⟩ (g s) rfl, fun h b t hx => ?_⟩
  cases hx
  exact h

theorem ends_zoom {get : τ → σ} {set : σ → τ → τ} {t : τ} {Q : α → τ → Prop} :
    Ends (zoom get set x) t Q ↔ Ends x (get t) fun a s => Q a (set s t) := by
  constructor
  · intro h a s hx
    refine h a (set s t) ?_
    simp only [zoom, hx]
  · intro h a u hz
    simp only [zoom] at hz
    rcases hx : x (get t) with ⟨b, s⟩ | _ | msg <;> rw [hx] at hz <;> cases hz
    exact h a s hx

end Prog

end Xv6
