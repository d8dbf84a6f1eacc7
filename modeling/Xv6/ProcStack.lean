import Xv6.ProcEffect

/-!
# Who calls whom

`Placed f st` says what the activation `f` has been called by, given the
activations `st` below it. System calls are made by the user's code at the
bottom of the stack; `sleep` is called by `kwait` or by code outside `proc.c`,
with locks and channels of its own; interrupts come on top of anything.

The stacks of all threads are built this way (`KInv.shape_step`), so that an
activation that is waiting in `sleep` has only `sched` and interrupts above it
(`Shape.above_sleep`).
-/

namespace Xv6

open List

variable {s s' : KState} {e : KEv} {c p n : ℕ} {st fs : List Frame} {f g : Frame}

/-- What activation `f` has been called by: `st` is what is below it. -/
def Placed (f : Frame) (st : List Frame) : Prop :=
  match f with
  | .code .user _ _ | .forkret _ => st = []
  | .code .files _ _ => ∃ p status i st', st = .kexit p status i .waitAcquire :: st'
  | .kfork .. | .kexit .. | .kwait .. | .kkill .. | .setkilled .. | .killed .. =>
    ∃ locks a0, st = [.code .user locks a0]
  | .sleep p chan lk _ =>
    (∃ m locks a0 st', st = .code m locks a0 :: st' ∧ m ≠ .intr ∧
      ∃ i j, chan = .other i ∧ lk = .other j) ∨
    ∃ addr a0 st', st = .kwait p addr 0 false a0 .scan :: st' ∧ chan = .proc p ∧ lk = .wait_lock
  | .wakeup chan _ _ =>
    (∃ m locks a0 st', st = .code m locks a0 :: st' ∧ ∃ i, chan = some (.other i)) ∨
    (∃ p status i st', st = .kexit p status i .reparent :: st' ∧ chan = some (.proc initproc)) ∨
    ∃ p status i st', st = .kexit p status i .acquire :: st'
  -- interrupts come while no lock is held
  | .code .intr _ _ | .yield .. => heldBy st = []
  | .ret _ | .sched .. => True

/-- Every activation of a stack has been called as it can be. -/
def Shape : List Frame → Prop
  | [] => True
  | f :: st => Placed f st ∧ Shape st

/-- An activation that goes on in its function is where it was. -/
theorem Shape.goOn (h : Shape (f :: st)) (hp : Placed f st → Placed g st) : Shape (g :: st) :=
  ⟨hp h.1, h.2⟩

theorem Shape.ret (h : Shape st) (a0 : ℤ) : Shape (KState.ret a0 st) := by
  unfold KState.ret
  split
  · rename_i m locks _ _
    exact h.goOn (by cases m <;> exact id)
  · exact h

/-- An instruction keeps the shape of the stack. -/
theorem Shape.instr {ch : Choice} {i : Instr} {pid : ℤ} (h : Shape (f :: st))
    (hi : instr s c f ch = some i) : Shape (i.stack pid st) := by
  cases f with
  | code m locks a0 =>
    simp only [Xv6.instr, codeInstr] at hi
    split at hi <;> (try split_ifs at hi) <;> cases hi
    · exact h.goOn (by cases m <;> exact id)
    · exact h.goOn (by cases m <;> exact id)
    · exact ⟨.inl ⟨_, _, _, _, rfl, _, rfl⟩, h⟩
    · exact h.2.ret _
    · rename_i hm
      exact ⟨.inl ⟨_, _, _, _, rfl, hm.1, _, _, rfl, rfl⟩, h⟩
    -- the system calls are made by the user's code
    · rename_i hm
      obtain rfl := hm
      obtain rfl : st = [] := h.1
      exact ⟨⟨_, _, rfl⟩, h⟩
    · rename_i hm
      obtain rfl := hm
      obtain rfl : st = [] := h.1
      exact ⟨⟨_, _, rfl⟩, h⟩
    all_goals
      rename_i hm
      obtain ⟨rfl, rfl⟩ := hm
      obtain rfl : st = [] := h.1
      exact ⟨⟨_, _, rfl⟩, h⟩
  | ret a0 =>
    simp only [Xv6.instr] at hi
    split_ifs at hi
    cases hi
    exact h.2.ret _
  | forkret q =>
    simp only [Xv6.instr] at hi
    split_ifs at hi
    cases hi
    exact h.goOn id
  | kexit q status j k =>
    simp only [Xv6.instr] at hi
    split_ifs at hi
    cases hi
    cases k with
    | files => exact ⟨⟨_, _, _, _, rfl⟩, h.goOn id⟩
    | wakeInit => exact ⟨.inr (.inl ⟨_, _, _, _, rfl, rfl⟩), h.goOn id⟩
    | wakeParent => exact ⟨.inr (.inr ⟨_, _, _, _, rfl⟩), h.goOn id⟩
    | sched => exact ⟨trivial, h.goOn id⟩
    | start =>
      simp only [kexitInstr]
      split_ifs
      · exact h.2
      · exact h.goOn id
    | reparent =>
      simp only [kexitInstr]
      split_ifs <;> exact h.goOn id
    | dead => exact h.2
    | _ => exact h.goOn id
  | kwait q addr j hk a0 k =>
    simp only [Xv6.instr] at hi
    split_ifs at hi
    all_goals
      cases hi
      cases k with
      | sleep => exact ⟨.inr ⟨_, _, _, rfl, rfl, rfl⟩, h.goOn id⟩
      | waitRelease => exact ⟨trivial, h.2⟩
      | killedRelease b => cases b <;> exact h.goOn id
      | _ =>
        simp only [kwaitInstr]
        (try split_ifs) <;> exact h.goOn id
  | yield q k | sched q k | sleep q chan lk k | wakeup chan j k | kkill pid j k | setkilled q k
  | killed q a0 k | kfork q j pid k =>
    simp only [Xv6.instr] at hi
    split_ifs at hi
    all_goals
      cases hi
      cases k <;> simp only [yieldInstr, schedInstr, sleepInstr, wakeupInstr, kkillInstr,
        setkilledInstr, killedInstr, kforkInstr] <;> (try split_ifs) <;>
      first
        | exact h.goOn id
        | exact ⟨trivial, h.2⟩
        | exact ⟨trivial, h.goOn id⟩
        | exact h.2.ret _
        | exact h.2

/-- **The stacks of all threads keep their shape.** -/
theorem KInv.shape_step (h : KInv s) (hsh : ∀ p st, Thread s p st → Shape st)
    (hs : kStep s e = .ok s') : ∀ p st, Thread s' p st → Shape st := by
  intro p st ht
  rcases h.threadStep hs ht with ⟨ht', -⟩ | ⟨hex, hi, -, rfl⟩ | ⟨hex, hnil, hd, -, rfl⟩ |
    ⟨-, -, -, rfl⟩
  · exact hsh p st ht'
  · exact (hsh p _ (.inl ⟨_, hex⟩)).instr hi
  · rcases hd with rfl | rfl <;> exact ⟨hnil, hsh p _ (.inl ⟨_, hex⟩)⟩
  · exact ⟨rfl, trivial⟩

theorem shape_init : ∀ p st, Thread kInit p st → Shape st := by
  rintro p st (⟨c, -, hx⟩ | ⟨-, hl, rfl⟩)
  · cases hx
  · simp only [kInit] at hl ⊢
    split at hl
    · rename_i h0
      rw [if_pos h0]
      exact ⟨rfl, trivial⟩
    · cases hl

theorem Shape.suffix (fs : List Frame) (h : Shape (fs ++ st)) : Shape st := by
  induction fs with
  | nil => exact h
  | cons f fs ih => exact ih h.2

/-- The activations of interrupts and of `sched`. -/
def Frame.isLight : Frame → Bool
  | .code .intr _ _ | .ret _ | .yield .. | .sched .. | .wakeup .. => true
  | _ => false

/-- The others are called neither by those nor by `sleep`. -/
theorem Placed.caller (h : Placed g (f :: st)) (hg : g.isLight = false) :
    f.isLight = false ∧ f.fn ≠ .sleep := by
  cases g with
  | code m locks a0 =>
    cases m with
    | user => cases h
    | files =>
      obtain ⟨p, status, i, st', hst⟩ := h
      obtain ⟨rfl, -⟩ := cons.inj hst
      exact ⟨rfl, by simp [Frame.fn]⟩
    | intr => cases hg
  | sleep q chan lk k =>
    rcases h with ⟨m, locks, a0, st', hst, hm, -⟩ | ⟨addr, a0, st', hst, -⟩
    · obtain ⟨rfl, -⟩ := cons.inj hst
      cases m with
      | intr => exact absurd rfl hm
      | _ => exact ⟨rfl, by simp [Frame.fn]⟩
    · obtain ⟨rfl, -⟩ := cons.inj hst
      exact ⟨rfl, by simp [Frame.fn]⟩
  | forkret q => cases h
  | ret | yield | sched | wakeup => cases hg
  | _ =>
    obtain ⟨locks, a0, hst⟩ := h
    obtain ⟨rfl, -⟩ := cons.inj hst
    exact ⟨rfl, by simp [Frame.fn]⟩

/-- Above an activation of `sleep` there are only `sched` and interrupts. -/
theorem Shape.above_sleep (fs : List Frame) {q : ℕ} {chan : Chan} {lk : Lock} {k : SleepPc}
    (h : Shape (fs ++ .sleep q chan lk k :: st)) : ∀ g ∈ fs, g.isLight = true := by
  induction fs with
  | nil => exact fun g hg => absurd hg (by simp)
  | cons f fs ih =>
    have hlight := ih h.2
    intro g hg
    rcases mem_cons.mp hg with rfl | hg
    · by_contra hno
      rw [Bool.not_eq_true] at hno
      rcases fs with _ | ⟨f', fs⟩
      · exact (h.1.caller hno).2 rfl
      · have := (h.1.caller hno).1
        rw [hlight f' mem_cons_self] at this
        cases this
    · exact hlight g hg

/-! ## Who holds `wait_lock` -/

/-- The activations of `kexit` and `kwait` that hold `wait_lock` and do not wait in `sleep`. -/
def Frame.waits : Frame → Bool
  | .kexit _ _ _ k =>
    match k with
    | .reparent | .setParent | .wakeInit | .wakeParent | .acquire | .setXstate | .setState
    | .waitRelease => true
    | _ => false
  | .kwait _ _ i _ _ k =>
    match k with
    | .acquire => false
    | .scan => i != 0
    | _ => true
  | _ => false

theorem Frame.waits_held (h : f.waits = true) : Lock.wait_lock ∈ f.held := by
  cases f with
  | kexit p status i k => cases k <;> cases h <;> simp [Frame.held]
  | kwait p addr i hk a0 k =>
    cases k with
    | acquire => cases h
    | _ => simp [Frame.held]
  | _ => cases h

theorem Placed.caller_waits (h : Placed g (f :: st)) (hf : f.waits = true) : g.isLight = true := by
  by_contra hg
  rw [Bool.not_eq_true] at hg
  cases g with
  | code m locks a0 =>
    cases m with
    | user => cases h
    | files =>
      obtain ⟨p, status, i, st', hst⟩ := h
      obtain ⟨rfl, -⟩ := cons.inj hst
      cases hf
    | intr => cases hg
  | sleep q chan lk k =>
    rcases h with ⟨m, locks, a0, st', hst, hm, -⟩ | ⟨addr, a0, st', hst, -⟩ <;>
    · obtain ⟨rfl, -⟩ := cons.inj hst
      cases hf
  | forkret q => cases h
  | ret | yield | sched | wakeup => cases hg
  | _ =>
    obtain ⟨locks, a0, hst⟩ := h
    obtain ⟨rfl, -⟩ := cons.inj hst
    cases hf

theorem Shape.above_waits (h : Shape (fs ++ f :: st)) (hf : f.waits = true) :
    ∀ g ∈ fs, g.isLight = true := by
  induction fs with
  | nil => exact fun g hg => absurd hg (by simp)
  | cons f' fs ih =>
    have hlight := ih h.2
    intro g hg
    rcases mem_cons.mp hg with rfl | hg
    · rcases fs with _ | ⟨f'', fs⟩
      · exact h.1.caller_waits hf
      · by_contra hno
        rw [Bool.not_eq_true] at hno
        have := (h.1.caller hno).1
        rw [hlight f'' mem_cons_self] at this
        cases this
    · exact hlight g hg

/-- What is on top of a stack does not release its locks, if none of it is in `sleep`. -/
theorem heldBy_append {l : Lock} (hl : l ∈ heldBy st) (hfs : ∀ g ∈ fs, g.isLight = true) :
    l ∈ heldBy (fs ++ st) := by
  induction fs with
  | nil => exact hl
  | cons f fs ih =>
    have hf := hfs f mem_cons_self
    rw [cons_append, heldBy_cons]
    refine mem_append_right _ ?_
    have := ih fun g hg => hfs g (mem_cons_of_mem _ hg)
    cases f <;> first | exact this | cases hf

/-- Whoever waits with `wait_lock` is executing, and holds it. -/
theorem KInv.waits_holder (h : KInv s) (hsh : ∀ p st, Thread s p st → Shape st)
    (ht : Thread s p st) (hf : f ∈ st) (hw : f.waits = true) :
    ∃ c, Executes s c p st ∧ Lock.wait_lock ∈ (s.cpu c).exec.held := by
  obtain ⟨fs, st', rfl⟩ := append_of_mem hf
  have hheld : Lock.wait_lock ∈ heldBy (fs ++ f :: st') :=
    heldBy_append (held_subset_heldBy _ _ _ (Frame.waits_held hw)) ((hsh p _ ht).above_waits hw)
  rcases ht with ⟨c, hx⟩ | ⟨hno, hlive, hctx⟩
  · exact ⟨c, hx, by rw [hx.2]; exact hheld⟩
  · have := (h.procs.parked p hno hlive).2.held
    rw [hctx] at this
    rw [this] at hheld
    simp at hheld

end Xv6
