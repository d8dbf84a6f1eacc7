import Xv6.ProcStack

/-!
# `sleep`

A process that is `SLEEPING` is in a call of `sleep`, past the point where it has
released its caller's lock, and `p->chan` is the channel of that call
(`SleepInv`). Nobody but the process itself makes it `SLEEPING`.
-/

namespace Xv6

open List

variable {s s' : KState} {e : KEv} {c p n : ℕ} {st x : List Frame} {f g : Frame} {chan chan' : Chan}
  {lk lk' : Lock} {k k' : SleepPc}

/-- A stack has one activation of `sleep` at most. -/
theorem Shape.sleep_eq (h : Shape x) (hf : .sleep p chan lk k ∈ x)
    (hg : .sleep n chan' lk' k' ∈ x) : Frame.sleep n chan' lk' k' = .sleep p chan lk k := by
  obtain ⟨fs, st, rfl⟩ := append_of_mem hf
  rcases mem_append.mp hg with hg | hg
  · exact absurd (h.above_sleep _ _ hg) (by simp [Frame.isLight])
  · rcases mem_cons.mp hg with hg | hg
    · exact hg
    · -- then the first one is above the second
      obtain ⟨fs', st', rfl⟩ := append_of_mem hg
      have h' : Shape ((fs ++ .sleep p chan lk k :: fs') ++ .sleep n chan' lk' k' :: st') := by
        simpa using h
      exact absurd (h'.above_sleep _ (.sleep p chan lk k) (by simp)) (by simp [Frame.isLight])

/-- What is above an activation of `sleep` is no other one. -/
theorem Shape.top_of_sleep (h : Shape (f :: st)) (hf : .sleep p chan lk k ∈ f :: st) :
    f = .sleep p chan lk k ∨ .sleep p chan lk k ∈ st ∧ f.isLight = true := by
  rcases mem_cons.mp hf with hf | hf
  · exact .inl hf.symm
  · obtain ⟨fs, st', rfl⟩ := append_of_mem hf
    exact .inr ⟨hf, h.above_sleep (f :: fs) f mem_cons_self⟩

/-- The invariant of `sleep`. -/
structure SleepInv (s : KState) : Prop where
  /-- `p->chan` is the channel of the call -/
  chan : ∀ p x chan lk k, Thread s p x → .sleep p chan lk k ∈ x →
    k = .setState ∨ k = .sched ∨ k = .clearChan → (s.proc p).chan = some chan
  /-- a process that sleeps has called `sched` from `sleep`, or is going to -/
  asleep : ∀ p x, Thread s p x → (s.proc p).state = .SLEEPING →
    ∃ chan lk k, .sleep p chan lk k ∈ x ∧ (k = .sched ∨ k = .clearChan)

/-- The channel of a process with a thread is changed by itself. -/
theorem KInv.chan_eq (h : KInv s) (hs : kStep s e = .ok s') (ht : Thread s p x)
    (hnot : ∀ y, ¬Executes s e.cpu p y) : (s'.proc p).chan = (s.proc p).chan := by
  rcases slotStep h hs p with heq | ⟨hr, hwr, rfl⟩ | ⟨-, hp⟩ | ⟨-, hp⟩ | ⟨-, hp⟩
  · rw [heq]
  · rw [goto_proc, setProc_eq]
    cases hwr with
    | sleepChan | sleepClear =>
      obtain ⟨-, q, hex, hok⟩ := h.executes hr rfl
      obtain rfl : p = q := hok.1
      exact absurd hex (hnot _)
    | forkFree =>
      have hσ := (h.claim hr rfl p .USED rfl).1
      rcases ht with ⟨c, hex⟩ | ⟨-, hl, -⟩
      · have hown := h.own_state hex
        rw [hσ] at hown
        unfold ownState at hown
        split at hown <;> cases hown
      · rw [hσ] at hl
        cases hl
    | waitFree =>
      obtain ⟨rfl, q, hex, -⟩ := h.executes hr rfl
      rcases ht with ⟨c, hex'⟩ | ⟨-, hl, -⟩
      · exact absurd hex'.1 (h.freeproc_idle hr.1 c)
      · rw [(h.claim hr rfl p .ZOMBIE rfl).1] at hl
        cases hl
    | _ => rfl
  all_goals rw [hp]

/-- A process is made `SLEEPING` by its own call of `sleep`. -/
theorem sleeping_step (h : KInv s) (hs : kStep s e = .ok s')
    (hσ : (s'.proc p).state = .SLEEPING) :
    (s.proc p).state = .SLEEPING ∨ ∃ chan lk st, Executes s e.cpu p (.sleep p chan lk .setState :: st) ∧
      s' = (s.setProc p fun q => { q with state := .SLEEPING }).goto e.cpu
        (.thread (.sleep p chan lk .sched :: st)) := by
  rcases slotStep h hs p with heq | ⟨hr, hwr, rfl⟩ | ⟨-, hp⟩ | ⟨-, hp⟩ | ⟨-, hp⟩
  · exact .inl (heq ▸ hσ)
  · rw [goto_proc, setProc_eq] at hσ
    cases hwr with
    | sleepState _ chan lk =>
      obtain ⟨rfl, q, hex, hok⟩ := h.executes hr rfl
      obtain rfl : p = q := hok.1
      exact .inr ⟨chan, lk, _, hex, rfl⟩
    | yieldState | wakeup | killWake | forkUsed | forkFree | forkRunnable | exitState | waitFree =>
      cases hσ
    | _ => exact .inl hσ
  all_goals
    rw [hp] at hσ
    first | cases hσ | exact .inl hσ

/-- An activation of `sleep` is a new one, or the next control point of an old one. -/
theorem instr_sleep {ch : Choice} {i : Instr} {pid : ℤ} (hi : instr s c f ch = some i)
    (hg : .sleep p chan lk k ∈ i.next pid) :
    k = .acquire ∨ ∃ k₀, f = .sleep p chan lk k₀ ∧ i = sleepInstr p chan lk k₀ := by
  cases f with
  | sleep q chan' lk' k₀ =>
    simp only [instr] at hi
    split_ifs at hi
    cases hi
    refine .inr ⟨k₀, ?_⟩
    cases k₀ <;> simp [sleepInstr, Instr.next] at hg
    all_goals
      obtain ⟨rfl, rfl, rfl, -⟩ := hg
      exact ⟨rfl, rfl⟩
  | code m locks a0 =>
    simp only [instr, codeInstr] at hi
    split at hi <;> (try split_ifs at hi) <;> cases hi <;> simp [Instr.next] at hg
    exact .inl hg.2.2.2
  | kwait q addr j hk a0 k₀ =>
    simp only [instr] at hi
    split_ifs at hi
    cases hi
    cases k₀ <;> simp only [kwaitInstr] at hg <;> (try split_ifs at hg) <;>
      simp [Instr.next] at hg
    exact .inl hg.2.2.2
  | _ =>
    have hfn := instr_fn hi hg
    simp [Frame.fn, Fn.callees] at hfn

/-- What is below the activation that executes stays there. -/
theorem mem_stack_of_mem {i : Instr} {pid : ℤ} (hg : g ∈ st) (hc : g.fn ≠ .code) :
    g ∈ i.stack pid st := by
  cases i with
  | ret a0 =>
    simp only [Instr.stack, KState.ret]
    split
    · rcases mem_cons.mp hg with rfl | hg
      · exact absurd rfl hc
      · exact mem_cons_of_mem _ hg
    · exact hg
  | call d f => exact mem_cons_of_mem _ (mem_cons_of_mem _ hg)
  | panic msg => exact hg
  | _ => exact mem_cons_of_mem _ hg

/-- What is above `sleep` does not write channels. -/
theorem chan_eq_of_light (h : KInv s) (hs : kStep s e = .ok s')
    (hex : Executes s e.cpu p (f :: st)) (hf : f.isLight = true) (n : ℕ) :
    (s'.proc n).chan = (s.proc n).chan := by
  rcases slotStep h hs n with heq | ⟨⟨hx, hmk⟩, hwr, rfl⟩ | ⟨-, hp⟩ | ⟨-, hp⟩ | ⟨-, hp⟩
  · rw [heq]
  · rcases hmk with rfl | ⟨⟨k, rfl⟩, -⟩
    · obtain ⟨rfl, rfl⟩ := List.cons.inj (Exec.thread.inj (hex.2.symm.trans hx))
      rw [goto_proc, setProc_eq]
      cases hwr with
      | yieldState | wakeup => rfl
      | _ => cases hf
    · cases hex.2.symm.trans hx
  all_goals rw [hp]

namespace SleepInv

section

variable (hi : SleepInv s) (h : KInv s) (hsh : ∀ p st, Thread s p st → Shape st)
  (hs : kStep s e = .ok s')
include hi h hsh hs

theorem chan_step (ht : Thread s' p x) (hf : .sleep p chan lk k ∈ x)
    (hk : k = .setState ∨ k = .sched ∨ k = .clearChan) : (s'.proc p).chan = some chan := by
  rcases h.threadStep hs ht with ⟨ht', hnot⟩ | ⟨hex, hj, hrun, rfl⟩ | ⟨hex, -, hd, hp, rfl⟩ |
    ⟨-, -, -, rfl⟩
  · rw [h.chan_eq hs ht' hnot]
    exact hi.chan p x chan lk k ht' hf hk
  · rename_i f st j
    rcases mem_stack hf with hf | hf | ⟨m, locks, a0, hc⟩
    · rcases instr_sleep hj hf with rfl | ⟨k₀, rfl, rfl⟩
      · simp at hk
      · have hold := hi.chan p _ chan lk k₀ (.inl ⟨_, hex⟩) mem_cons_self
        cases k₀ with
        | setChan =>
          cases hrun
          rw [goto_proc, setProc_eq]
        | setState =>
          cases hrun
          rw [goto_proc, setProc_eq]
          exact hold (.inl rfl)
        | sched =>
          cases hrun
          exact hold (.inr (.inl rfl))
        | acquireLk => simp [sleepInstr, Instr.next] at hf
        | _ =>
          simp [sleepInstr, Instr.next] at hf
          subst hf
          simp at hk
    · -- it is below the activation that moves
      have hmem : Frame.sleep p chan lk k ∈ f :: st := mem_cons_of_mem _ hf
      have hold := hi.chan p _ chan lk k (.inl ⟨_, hex⟩) hmem hk
      rcases (hsh p _ (.inl ⟨_, hex⟩)).top_of_sleep hmem with rfl | ⟨-, hl⟩
      · -- two activations of `sleep`
        obtain ⟨fs, st', rfl⟩ := append_of_mem hf
        exact absurd ((hsh p _ (.inl ⟨_, hex⟩)).above_sleep (.sleep p chan lk k :: fs)
          (.sleep p chan lk k) mem_cons_self) (by simp [Frame.isLight])
      · rw [chan_eq_of_light h hs hex hl]
        exact hold
    · cases hc
  · rw [hp]
    rcases mem_cons.mp hf with hf | hf
    · rcases hd with rfl | rfl <;> cases hf
    · exact hi.chan p _ chan lk k (.inl ⟨_, hex⟩) hf hk
  · simp at hf

theorem asleep_step (ht : Thread s' p x) (hσ : (s'.proc p).state = .SLEEPING) :
    ∃ chan lk k, .sleep p chan lk k ∈ x ∧ (k = .sched ∨ k = .clearChan) := by
  rcases sleeping_step h hs hσ with hold | ⟨chan, lk, st, hex, hs'⟩
  · rcases h.threadStep hs ht with ⟨ht', -⟩ | ⟨hex, hj, hrun, rfl⟩ | ⟨hex, -, hd, hp, rfl⟩ |
      ⟨-, hu, -, rfl⟩
    · exact hi.asleep p x ht' hold
    · rename_i f st j
      obtain ⟨chan, lk, k, hmem, hk⟩ := hi.asleep p _ (.inl ⟨_, hex⟩) hold
      rcases (hsh p _ (.inl ⟨_, hex⟩)).top_of_sleep hmem with rfl | ⟨hst, -⟩
      · -- it is about to call `sched`
        have hown := h.own_state hex
        rw [hold] at hown
        rcases hk with rfl | rfl
        · simp only [instr] at hj
          split_ifs at hj
          cases hj
          exact ⟨chan, lk, .clearChan, mem_cons_of_mem _ mem_cons_self, .inr rfl⟩
        · cases hown
      · exact ⟨chan, lk, k, mem_stack_of_mem hst (by simp [Frame.fn]), hk⟩
    · obtain ⟨chan, lk, k, hmem, hk⟩ := hi.asleep p _ (.inl ⟨_, hex⟩) hold
      exact ⟨chan, lk, k, mem_cons_of_mem _ hmem, hk⟩
    · rw [hold] at hu
      cases hu
  · have hex' : Executes s' e.cpu p (.sleep p chan lk .sched :: st) := by
      rw [hs']
      exact ⟨by rw [goto_cpu_self]; exact hex.1, by rw [goto_cpu_self]⟩
    rw [(h.step hs).procs.thread_eq hex' ht]
    exact ⟨chan, lk, .sched, mem_cons_self, .inl rfl⟩

theorem step : SleepInv s' :=
  ⟨fun _ _ _ _ _ ht hf hk => hi.chan_step h hsh hs ht hf hk,
    fun _ _ ht hσ => hi.asleep_step h hsh hs ht hσ⟩

end

theorem start : SleepInv kInit := by
  have hx : ∀ {p x}, Thread kInit p x → x = [.forkret p] ∧ (kInit.proc p).state = .RUNNABLE := by
    rintro p x (⟨c, -, hx⟩ | ⟨-, hl, rfl⟩)
    · cases hx
    · by_cases h0 : p = initproc
      · subst h0
        exact ⟨rfl, rfl⟩
      · rw [show kInit.proc p = unusedProc from if_neg h0] at hl
        cases hl
  refine ⟨fun p x chan lk k ht hf => ?_, fun p x ht hσ => ?_⟩
  · rw [(hx ht).1] at hf
    simp at hf
  · rw [(hx ht).2] at hσ
    cases hσ

end SleepInv

end Xv6
