import Xv6.Family
import Xv6.Sleep

/-!
# No lost wakeup

An activation keeps its height in the stack of its thread from the call to the
return, so that one call is followed through a run as the activation at that
height (`Active`, `active_step`).

`sleep` holds the lock of its process from before it releases its caller's lock
until it has left its CPU. A `wakeup` that starts after the release, and looks at
the process, therefore finds it asleep, and wakes it (`wakeup_step`).
-/

namespace Xv6

open List

variable {s s' : KState} {e : KEv} {c p b n m : ℕ} {st x x' : List Frame} {f f' : Frame}
  {chan : Chan} {lk : Lock} {k k' : SleepPc} {i i' : ℕ} {w w' : WakeupPc}

/-! ## Calls -/

/-- The thread of process `p` has activation `f` at height `n`. -/
def Active (s : KState) (p n : ℕ) (f : Frame) : Prop := ∃ x, Thread s p x ∧ x.reverse[n]? = some f

theorem Active.mem (h : x.reverse[n]? = some f) : f ∈ x :=
  mem_reverse.mp (mem_of_getElem? h)

/-- A process has one thread. -/
theorem KInv.thread_unique (h : KInv s) (ht : Thread s p x) (ht' : Thread s p x') : x' = x := by
  rcases ht with ⟨c, hx⟩ | ⟨hno, -, rfl⟩
  · exact h.procs.thread_eq hx ht'
  · rcases ht' with ⟨c, hx⟩ | ⟨-, -, rfl⟩
    · exact absurd ⟨c, x', hx⟩ hno
    · rfl

/-- Below the activation that moves, a stack stays as it is. -/
theorem stack_below {j : Instr} {pid : ℤ} (hn : n < st.length)
    (h : (j.stack pid st).reverse[n]? = some f) (hf : f.fn ≠ .code) : st.reverse[n]? = some f := by
  have hn' : n < st.reverse.length := by simpa using hn
  cases j with
  | ret a0 =>
    simp only [Instr.stack, KState.ret] at h
    split at h
    · rename_i m locks a st
      rw [reverse_cons, getElem?_append] at h
      rw [reverse_cons, getElem?_append]
      split_ifs at h ⊢
      · exact h
      · obtain rfl := mem_singleton.mp (mem_of_getElem? h)
        exact absurd rfl hf
    · exact h
  | call d g =>
    rw [Instr.stack, reverse_cons, reverse_cons, append_assoc,
      getElem?_append_left hn'] at h
    exact h
  | panic msg => exact h
  | _ =>
    rw [Instr.stack, reverse_cons, getElem?_append_left hn'] at h
    exact h

/-- Where the activation that moves was, there is what it goes on as. -/
theorem stack_top {j : Instr} {pid : ℤ} (h : (j.stack pid st).reverse[st.length]? = some f) :
    (j.next pid).getLast? = some f := by
  have hlen : st.reverse.length ≤ st.length := by simp
  cases j with
  | ret a0 =>
    have := (List.getElem?_eq_some_iff.mp h).1
    simp only [Instr.stack, KState.ret] at this
    split at this <;> simp at this
  | panic msg =>
    have := (List.getElem?_eq_some_iff.mp h).1
    simp [Instr.stack] at this
  | call d g =>
    rw [Instr.stack, List.reverse_cons, List.reverse_cons, append_assoc,
      List.getElem?_append_right hlen] at h
    simpa [Instr.next] using h
  | _ =>
    rw [Instr.stack, List.reverse_cons, List.getElem?_append_right hlen] at h
    simpa [Instr.next] using h

/-- **What an activation becomes in a step**: it stays, or it is the one that moves. -/
theorem active_step (h : KInv s) (hs : kStep s e = .ok s') (ha : Active s p n f)
    (ha' : Active s' p n f') (hf' : f'.fn ≠ .code) :
    f' = f ∨ ∃ st j, Executes s e.cpu p (f :: st) ∧ instr s e.cpu f e.choice = some j ∧
      s.run e.cpu .thread st j = .ok s' ∧ (j.next s.nextpid).getLast? = some f' := by
  obtain ⟨x, ht, hx⟩ := ha
  obtain ⟨x', ht', hx'⟩ := ha'
  rcases h.threadStep hs ht' with ⟨ht₀, -⟩ | ⟨hex, hj, hrun, rfl⟩ | ⟨hex, -, -, -, rfl⟩ |
    ⟨-, hu, -, rfl⟩
  · obtain rfl := h.thread_unique ht ht₀
    exact .inl (Option.some.inj (hx'.symm.trans hx))
  · rename_i g st j
    obtain rfl := h.thread_unique ht (.inl ⟨_, hex⟩)
    rw [List.reverse_cons] at hx
    rcases Nat.lt_trichotomy n st.length with hn | rfl | hn
    · rw [List.getElem?_append_left (by simpa using hn)] at hx
      exact .inl (Option.some.inj ((stack_below hn hx' hf').symm.trans hx))
    · rw [List.getElem?_append_right (by simp)] at hx
      obtain rfl : g = f := by simpa using hx
      exact .inr ⟨st, j, hex, hj, hrun, stack_top hx'⟩
    · have := (List.getElem?_eq_some_iff.mp hx).1
      simp at this
      omega
  · obtain rfl := h.thread_unique ht (.inl ⟨_, hex⟩)
    rw [List.reverse_cons, List.getElem?_append_left (List.getElem?_eq_some_iff.mp hx).1] at hx'
    exact .inl (Option.some.inj (hx'.symm.trans hx))
  · -- a slot that is being filled has no thread
    rcases ht with ⟨c, hex⟩ | ⟨-, hl, -⟩
    · have hown := h.own_state hex
      rw [hu] at hown
      unfold ownState at hown
      split at hown <;> cases hown
    · rw [hu] at hl
      cases hl

/-! ## `sleep` and `wakeup` -/

/-- The process is not asleep, nor will it be in this call, which is at `k`. -/
def Woken (s : KState) (p : ℕ) (k : SleepPc) : Prop :=
  (s.proc p).state ≠ .SLEEPING ∧ k ≠ .setChan ∧ k ≠ .setState

/-- Has `wakeup` looked at process `p`? -/
def Passed (i : ℕ) (w : WakeupPc) (p : ℕ) : Prop := p < i ∨ p = i ∧ w = .release

/-- A call of `sleep` that has released its caller's lock goes on. -/
theorem sleep_step (h : KInv s) (hs : kStep s e = .ok s') (ha : Active s p n (.sleep p chan lk k))
    (ha' : Active s' p n (.sleep p chan lk k')) (hk : k.released = true) :
    k'.released = true ∧ (k ≠ .setChan → k ≠ .setState → k' ≠ .setChan ∧ k' ≠ .setState) := by
  rcases active_step h hs ha ha' (by simp [Frame.fn]) with heq | ⟨st, j, -, hj, -, hg⟩
  · cases heq
    exact ⟨hk, fun h1 h2 => ⟨h1, h2⟩⟩
  · simp only [instr] at hj
    split_ifs at hj
    cases hj
    cases k <;> simp [sleepInstr, Instr.next] at hg <;> cases hk
    all_goals
      subst hg
      simp [SleepPc.released]

theorem woken_step (h : KInv s) (hsh : ∀ p st, Thread s p st → Shape st)
    (hs : kStep s e = .ok s') (ha : Active s p n (.sleep p chan lk k))
    (ha' : Active s' p n (.sleep p chan lk k')) (hk : k.released = true) (hw : Woken s p k) :
    Woken s' p k' := by
  refine ⟨fun hσ => ?_, (sleep_step h hs ha ha' hk).2 hw.2.1 hw.2.2⟩
  rcases sleeping_step h hs hσ with hold | ⟨chan', lk', st, hex, -⟩
  · exact hw.1 hold
  · -- it would be this call that makes it sleep
    obtain ⟨x, ht, hx⟩ := ha
    obtain rfl := h.procs.thread_eq hex ht
    cases (hsh p _ ht).sleep_eq mem_cons_self (Active.mem hx)
    exact hw.2.2 rfl

/-- A process that is about to sleep has itself locked. -/
theorem sleep_locked (h : KInv s) (ha : Active s p n (.sleep p chan lk k))
    (hk : k = .setChan ∨ k = .setState) (hl : Lock.proc p ∈ (s.cpu c).exec.held) :
    (s.cpu c).proc = some p := by
  obtain ⟨x, ht, hx⟩ := ha
  have hmem := Active.mem hx
  have hheld : Lock.proc p ∈ (Frame.sleep p chan lk k).held := by
    rcases hk with rfl | rfl <;> simp [Frame.held]
  rcases ht with ⟨c', hex⟩ | ⟨hno, hlive, rfl⟩
  · obtain rfl : c' = c := h.locks.cpu_eq
      (by rw [hex.2]; exact (h.procs.stackOk hex).mem_heldBy hmem hheld) hl
    exact hex.1
  · refine ((h.procs.parked p hno hlive).2.not_held hmem ?_ hheld).elim
    rcases hk with rfl | rfl <;> rfl

/-- **`wakeup` wakes a call of `sleep`** that has released its caller's lock, when it looks at the
process. -/
theorem wakeup_step (h : KInv s) (hsh : ∀ p st, Thread s p st → Shape st) (hsl : SleepInv s)
    (hs : kStep s e = .ok s') (hpb : b ≠ p) (ha : Active s p n (.sleep p chan lk k))
    (ha' : Active s' p n (.sleep p chan lk k')) (hk : k.released = true)
    (hb : Active s b m (.wakeup (some chan) i w))
    (hb' : Active s' b m (.wakeup (some chan) i' w')) (hw : Passed i w p → Woken s p k)
    (hp : Passed i' w' p) : Woken s' p k' := by
  by_cases hold : Passed i w p
  · exact woken_step h hsh hs ha ha' hk (hw hold)
  rcases active_step h hs hb hb' (by simp [Frame.fn]) with heq | ⟨st, j, hex, hj, hrun, hg⟩
  · cases heq
    exact absurd hp hold
  simp only [instr] at hj
  split_ifs at hj
  cases hj
  cases w with
  | test =>
    simp only [wakeupInstr] at hg
    split_ifs at hg with hlt hproc
    · simp [Instr.next] at hg
      obtain ⟨rfl, rfl⟩ := hg
      simp [Passed] at hp hold
      omega
    · -- it skips its own process
      obtain ⟨rfl, rfl⟩ := hg
      simp [Passed] at hp hold
      obtain rfl : p = i := by omega
      rw [not_not, hex.1] at hproc
      exact absurd (Option.some.inj hproc) hpb
    · simp [Instr.next] at hg
  | acquire =>
    obtain ⟨rfl, rfl⟩ := hg
    simp [Passed] at hp hold
    omega
  | release =>
    obtain ⟨rfl, rfl⟩ := hg
    simp [Passed] at hp hold
    omega
  | check =>
    have hnext : i' = i ∧ w' = .release := by
      simp only [wakeupInstr] at hg
      split_ifs at hg <;> simp [Instr.next] at hg <;> exact ⟨hg.1.symm, hg.2.symm⟩
    obtain ⟨rfl, rfl⟩ := hnext
    obtain rfl : p = i' := by
      simp [Passed] at hp hold
      omega
    -- the process is not about to sleep: its lock is held here
    have hnot : ∀ k₁, k₁ = .setChan ∨ k₁ = .setState → k ≠ k₁ := by
      rintro k₁ hk₁ rfl
      have hloc := sleep_locked (c := e.cpu) h ha hk₁
        (mem_held (.inl hex.2) (by simp [Frame.held]))
      rw [hex.1] at hloc
      exact hpb (Option.some.inj hloc)
    refine ⟨?_, (sleep_step h hs ha ha' hk).2 (hnot _ (.inl rfl)) (hnot _ (.inr rfl))⟩
    simp only [wakeupInstr] at hrun
    split_ifs at hrun with hσ
    · cases hrun
      rw [goto_proc, setProc_eq]
      simp
    · cases hrun
      intro hsleep
      -- it sleeps in this call, on this channel
      obtain ⟨x, ht, hx⟩ := ha
      obtain ⟨chan', lk', k₁, hmem, hk₁⟩ := hsl.asleep p x ht hsleep
      cases (hsh p x ht).sleep_eq (Active.mem hx) hmem
      exact hσ ⟨hsleep, hsl.chan p x chan lk k ht hmem (.inr hk₁)⟩

/-! ## Whole runs -/

/-- The caller's lock is not free before `sleep` has released it. -/
theorem sleep_holds (h : KInv s) (hsh : ∀ p st, Thread s p st → Shape st)
    (ha : Active s p n (.sleep p chan lk k)) (hfree : s.lock lk = none) : k.released = true := by
  by_contra hk
  obtain ⟨x, ht, hx⟩ := ha
  obtain ⟨fs, st, rfl⟩ := append_of_mem (Active.mem hx)
  have hlight := (hsh p _ ht).above_sleep _
  -- the stack holds the lock
  have hheld : ∀ {q}, StackOk q (fs ++ .sleep p chan lk k :: st) →
      lk ∈ heldBy (fs ++ .sleep p chan lk k :: st) ∧ ∀ i, lk ≠ .proc i := by
    intro q hok
    have hok' : StackOk q (.sleep p chan lk k :: st) := by
      clear hx ht hlight
      induction fs with
      | nil => exact hok
      | cons f fs ih => exact ih hok.2.2
    refine ⟨heldBy_append ?_ hlight, hok'.2.1.1.2⟩
    refine mem_append_right _ ?_
    simp only [hk]
    exact hok'.2.1.1.1
  rcases ht with ⟨c, hex⟩ | ⟨hno, hlive, hctx⟩
  · have := (h.locks.lock lk c).mpr (by rw [hex.2]; exact (hheld (h.procs.stackOk hex)).1)
    rw [hfree] at this
    cases this
  · have hpk := (h.procs.parked p hno hlive).2
    rw [hctx] at hpk
    obtain ⟨hm, hne⟩ := hheld hpk.ok
    rw [hpk.held, mem_singleton] at hm
    exact hne p hm

/-- What is known of every state. -/
structure SleepersInv (s : KState) : Prop where
  machine : KInv s
  family : FamilyInv s
  sleeps : SleepInv s

theorem SleepersInv.step (h : SleepersInv s) (hs : kStep s e = .ok s') : SleepersInv s' :=
  ⟨h.machine.step hs, h.family.step h.machine hs, h.sleeps.step h.machine h.family.shape hs⟩

theorem SleepersInv.run {C : KState → KEv → Prop} (h : Run kStep C kInit s) : SleepersInv s :=
  h.invariant ⟨.init, .start, .start⟩ fun _ _ _ hi _ hs => hi.step hs

/-- Process `p` is in the call of `sleep(chan, lk)` at height `n`. -/
def InSleep (p n : ℕ) (chan : Chan) (lk : Lock) (s : KState) : Prop :=
  ∃ k, Active s p n (.sleep p chan lk k)

/-- Process `b` is in the call of `wakeup(chan)` at height `m`. -/
def InWakeup (b m : ℕ) (chan : Chan) (s : KState) : Prop :=
  ∃ i w, Active s b m (.wakeup (some chan) i w)

/-- A call of `sleep` that has released its caller's lock goes on. -/
theorem Run.released {t : KState} (hi : SleepersInv s)
    (hrel : ∀ k, Active s p n (.sleep p chan lk k) → k.released = true)
    (hr : Run kStep (fun s _ => InSleep p n chan lk s) s t) :
    SleepersInv t ∧ ∀ k, Active t p n (.sleep p chan lk k) → k.released = true := by
  refine hr.invariant (I := fun t => SleepersInv t ∧
    ∀ k, Active t p n (.sleep p chan lk k) → k.released = true) ⟨hi, hrel⟩ ?_
  rintro s e s' ⟨hi, hrel⟩ ⟨k₀, hk₀⟩ hs
  exact ⟨hi.step hs, fun k hk => (sleep_step hi.machine hs hk₀ hk (hrel k₀ hk₀)).1⟩

/-- **A call of `wakeup` that starts after a call of `sleep` has released its caller's lock wakes
it**: whom it has looked at is awake, as long as both calls go on. -/
theorem Run.woken {t : KState} (hi : SleepersInv s) (hpb : b ≠ p)
    (hrel : ∀ k, Active s p n (.sleep p chan lk k) → k.released = true)
    (hb : Active s b m (.wakeup (some chan) 0 .test))
    (hr : Run kStep (fun s _ => InSleep p n chan lk s ∧ InWakeup b m chan s) s t) :
    ∀ k i w, Active t p n (.sleep p chan lk k) → Active t b m (.wakeup (some chan) i w) →
      Passed i w p → Woken t p k := by
  refine (hr.invariant (I := fun t => SleepersInv t ∧
    (∀ k, Active t p n (.sleep p chan lk k) → k.released = true) ∧
    ∀ k i w, Active t p n (.sleep p chan lk k) → Active t b m (.wakeup (some chan) i w) →
      Passed i w p → Woken t p k) ⟨hi, hrel, fun k i w _ hw hp => ?_⟩ ?_).2.2
  · -- it has not looked at anybody yet
    obtain ⟨x, hx, hm⟩ := hb
    obtain ⟨x', hx', hm'⟩ := hw
    obtain rfl := hi.machine.thread_unique hx hx'
    cases hm.symm.trans hm'
    simp [Passed] at hp
  · rintro s e s' ⟨hi, hrel, hwok⟩ ⟨⟨k₀, hk₀⟩, i₀, w₀, hw₀⟩ hs
    refine ⟨hi.step hs, fun k hk => (sleep_step hi.machine hs hk₀ hk (hrel k₀ hk₀)).1,
      fun k i w hk hw hp => ?_⟩
    exact wakeup_step hi.machine hi.family.shape hi.sleeps hs hpb hk₀ hk (hrel k₀ hk₀) hw₀ hw
      (hwok k₀ i₀ w₀ hk₀ hw₀) hp

end Xv6
