import Xv6.ProcEffect

/-!
# `kkill` (`kernel/proc.c`)

`kkill` compares `p->pid` only, and the slots that are not in use have pid 0. As
long as nobody calls `kkill(0)`:

* a slot that is not in use has pid 0, but for the moment in which `allocproc` has
  set the pid and not yet the state, and is not marked killed (`KillInv`);
* so `kkill` finds and marks processes in use only, and `allocproc` returns slots
  that are not marked (`kkill_reaches_processes`).

`kkill(0)` marks a free slot, and the process that gets the slot next is killed
before it starts (`kkill_zero`).
-/

namespace Xv6

open List

variable {s s' : KState} {e : KEv} {c p i : ℕ} {st : List Frame} {f : Frame}

/-! ## What is known of a slot -/

/-- What `kkill` and `allocproc` know of the slot they have locked. -/
def KillKnows (s : KState) : Frame → Prop
  | .kkill pid i k => pid ≠ 0 ∧
    match k with
    | .setKilled | .wake | .releaseFound => (s.proc i).state ≠ .UNUSED ∧ (s.proc i).pid = pid
    | _ => True
  | .kfork _ i _ k =>
    match k with
    | .trapframe | .pagetable | .setContext | .copy => (s.proc i).killed = false
    | _ => True
  | _ => True

/-- `allocproc` is about to take slot `i`: it has set the pid already. -/
def TakesSlot (s : KState) (i : ℕ) : Prop :=
  ∃ c p pid st, (s.cpu c).exec = .thread (.kfork p i pid .setUsed :: st)

/-- The slots that are not in use have pid 0 and are not marked killed. -/
structure KillInv (s : KState) : Prop where
  unused : ∀ i, (s.proc i).state = .UNUSED →
    (s.proc i).killed = false ∧ ((s.proc i).pid = 0 ∨ TakesSlot s i)
  knows : ∀ p st, Thread s p st → ∀ f ∈ st, KillKnows s f

theorem killKnows_knowledge : Knowledge KillKnows where
  stable {s s' f} h hs := by
    cases f with
    | kkill pid i k =>
      refine ⟨h.1, ?_⟩
      have h2 := h.2
      cases k with
      | setKilled | wake | releaseFound =>
        obtain ⟨v, hv⟩ := hs i (by simp [Frame.held])
        simpa only [hv] using h2
      | _ => trivial
    | kfork p i pid k =>
      cases k with
      | trapframe | pagetable | setContext | copy =>
        obtain ⟨v, hv⟩ := hs i (by simp [Frame.held])
        simpa only [KillKnows, hv] using h
      | _ => trivial
    | _ => trivial
  parks {s f} h := by
    cases f <;> trivial
  code := trivial
  yield := trivial

/-- Who holds the lock of a slot, and is not `allocproc`, finds it taken or with pid 0. -/
theorem KInv.takesSlot_top (h : KInv s) (ht : TakesSlot s i)
    (hx : (s.cpu c).exec = .thread (f :: st)) (hl : Lock.proc i ∈ f.held) :
    ∃ p pid, f = .kfork p i pid .setUsed := by
  obtain ⟨c', p, pid, st', hx'⟩ := ht
  have hc : c' = c := by
    exact h.locks.cpu_eq (mem_held (.inl hx') (by simp [Frame.held])) (mem_held (.inl hx) hl)
  subst hc
  exact ⟨p, pid, (cons.inj (Exec.thread.inj (hx.symm.trans hx'))).1⟩

namespace KillInv

/-- How `kkill` and `allocproc` learn what they know. -/
theorem turn (hi : KillInv s) (h : KInv s) {ch : Choice} (hch : ch ≠ .kkill 0) {j : Instr}
    (hex : Executes s c p (f :: st)) (hj : instr s c f ch = some j)
    (hrun : s.run c .thread st j = .ok s') : ∀ g ∈ j.next s.nextpid, KillKnows s' g := by
  have hf := hi.knows p _ (.inl ⟨c, hex⟩) f mem_cons_self
  cases f with
  | kkill pid i k =>
    simp only [instr] at hj
    split_ifs at hj
    cases hj
    obtain ⟨h0, hk⟩ := hf
    cases k with
    | acquire =>
      simp only [kkillInstr] at hrun ⊢
      split_ifs <;> simp [Instr.next, KillKnows, h0]
    | check =>
      simp only [kkillInstr] at hrun ⊢
      split_ifs at hrun ⊢ with hpid
      · cases hrun
        intro g hg
        rw [mem_singleton.mp hg]
        refine ⟨h0, fun hun => ?_, hpid⟩
        -- a free slot has pid 0, unless `allocproc` has locked it
        rcases (hi.unused i hun).2 with hz | ht
        · exact h0 (hpid.symm.trans hz)
        · obtain ⟨q, pid', hne⟩ := h.takesSlot_top ht hex.2 (by simp [Frame.held])
          cases hne
      · simp [Instr.next, KillKnows, h0]
    | setKilled =>
      cases hrun
      intro g hg
      rw [mem_singleton.mp hg]
      refine ⟨h0, ?_⟩
      simpa only [goto_proc, setProc_eq] using hk
    | wake =>
      simp only [kkillInstr] at hrun ⊢
      split_ifs at hrun ⊢ with hσ
      · cases hrun
        intro g hg
        rw [mem_singleton.mp hg]
        refine ⟨h0, ?_⟩
        simp [goto_proc, setProc_eq, hk.2]
      · cases hrun
        intro g hg
        rw [mem_singleton.mp hg]
        exact ⟨h0, hk⟩
    | releaseFound | release => simp [kkillInstr, Instr.next, KillKnows, h0]
  | kfork q i pid k =>
    simp only [instr] at hj
    split_ifs at hj
    cases hj
    cases k with
    | setUsed =>
      cases hrun
      intro g hg
      rw [mem_singleton.mp hg]
      have hun := (h.claim ⟨hex.2, .inl rfl⟩ rfl i .UNUSED rfl).1
      simpa only [KillKnows, goto_proc, setProc_eq] using (hi.unused i hun).1
    | setContext =>
      cases hrun
      intro g hg
      rw [mem_singleton.mp hg]
      simpa only [KillKnows, goto_proc, setProc_eq] using hf
    | trapframe | pagetable | copy =>
      cases hrun
      intro g hg
      rw [mem_singleton.mp hg]
      split_ifs
      all_goals first | exact hf | trivial
    | _ =>
      simp only [kforkInstr]
      (try split_ifs) <;> simp [Instr.next, KillKnows]
  | code m locks a0 =>
    simp only [instr, codeInstr] at hj
    split at hj <;> (try split_ifs at hj) <;> cases hj <;> simp_all [Instr.next, KillKnows]
  | _ =>
    -- the others call neither function
    intro g hg
    have hfn := instr_fn hj hg
    cases g <;> simp_all [KillKnows, Frame.fn, Fn.callees]

/-- A CPU that is about to take a slot stays there while another one moves. -/
theorem takesSlot (h : KInv s) (hs : kStep s e = .ok s') (ht : TakesSlot s i)
    (hσ : (s'.proc i).state = .UNUSED) : TakesSlot s' i := by
  obtain ⟨c, p, pid, st, hx⟩ := ht
  by_cases hc : c = e.cpu
  · -- it would have set the state
    subst hc
    obtain ⟨j, hj, hrun⟩ := h.instr_of_held hs hx (by simp [heldBy, Frame.held])
    simp only [instr] at hj
    split_ifs at hj
    cases hj
    cases hrun
    rw [goto_proc, setProc_eq] at hσ
    cases hσ
  · exact ⟨c, p, pid, st, by rw [cpu_other hs hc, hx]⟩

/-- **Every step other than a call of `kkill(0)` keeps the invariant.** -/
theorem step (hi : KillInv s) (h : KInv s) (hch : e.choice ≠ .kkill 0)
    (hs : kStep s e = .ok s') : KillInv s' := by
  refine ⟨fun i hσ => ?_, fun p st ht f hf => killKnows_knowledge.step h hs hi.knows
    (fun p f st j hex hj hrun => hi.turn h hch hex hj hrun) ht hf⟩
  -- a step that leaves the state, the flag and the pid alone
  have hsame : (s.proc i).state = .UNUSED → (s'.proc i).killed = (s.proc i).killed →
      (s'.proc i).pid = (s.proc i).pid →
      (s'.proc i).killed = false ∧ ((s'.proc i).pid = 0 ∨ TakesSlot s' i) := by
    intro hun hk hp
    rw [hk, hp]
    exact (hi.unused i hun).imp_right (Or.imp_right fun ht => takesSlot h hs ht hσ)
  rcases slotStep h hs i with heq | ⟨hr, hw, hs'⟩ | ⟨-, hp⟩ | ⟨-, hp⟩ | ⟨-, hp⟩
  · rw [heq] at hσ
    exact hsame hσ (by rw [heq]) (by rw [heq])
  · rename_i mk f st u g
    have hp : s'.proc i = u (s.proc i) := by rw [hs', goto_proc, setProc_eq]
    rw [hp] at hσ
    cases hw with
    | yieldState | sleepState | wakeup | killWake | forkUsed | forkRunnable | exitState => cases hσ
    | sleepChan | sleepClear | exitStatus | exitParent | forkParent | forkContext =>
      exact hsame hσ (by rw [hp]) (by rw [hp])
    | setkilled =>
      obtain ⟨-, q, hex, hok⟩ := h.executes hr rfl
      obtain rfl : i = q := hok.1
      exact absurd hσ (h.executes_ne_unused hex)
    | killFlag pid =>
      obtain ⟨-, q, hex, -⟩ := h.executes hr rfl
      exact absurd hσ (hi.knows q _ (.inl ⟨_, hex⟩) _ mem_cons_self).2.1
    | forkPid p _ pid =>
      obtain ⟨rfl, -⟩ := h.executes hr rfl
      rw [hp]
      refine ⟨(hi.unused i hσ).1, .inr ⟨e.cpu, p, pid, st, ?_⟩⟩
      rw [hs', goto_cpu_self]
    | forkFree | waitFree =>
      rw [hp]
      exact ⟨rfl, .inl rfl⟩
  all_goals
    rw [hp] at hσ
    first | cases hσ | exact hsame hσ (by rw [hp]) (by rw [hp])

theorem init : KillInv kInit := by
  refine ⟨fun i hσ => ?_, fun p st ht f hf => ?_⟩
  · simp only [kInit] at hσ ⊢
    split at hσ
    · cases hσ
    · rename_i hne
      rw [if_neg hne]
      exact ⟨rfl, .inl rfl⟩
  · rcases ht with ⟨c, -, hx⟩ | ⟨-, hl, hx⟩
    · cases hx
    · simp only [kInit] at hl hx
      split at hl
      · rename_i h0
        rw [if_pos h0] at hx
        subst hx
        rw [mem_singleton.mp hf]
        trivial
      · cases hl

end KillInv

/-! ## `kkill` on a table that nobody else is using -/

/-- `kkill` passes over a slot with another pid. -/
theorem kkill_pass {pid : ℤ} (hx : (s.cpu c).exec = .thread (.kkill pid i .acquire :: st))
    (hi : i < NPROC) (hfree : s.lock (.proc i) = none) (hpid : (s.proc i).pid ≠ pid) :
    runList kStep s (replicate 3 ⟨c, .step⟩) =
      .ok (s.goto c (.thread (.kkill pid (i + 1) .acquire :: st))) := by
  have hlock : Function.update s.lock (.proc i) none = s.lock := by
    rw [← hfree]
    exact Function.update_eq_self ..
  simp [runList, kStep, hx, instr, kkillInstr, hi, KState.run, KState.acquire, hfree, hpid,
    KState.release, KState.setLock, KState.setCpu, KState.goto, hlock]

/-- What `kkill` does to the process it finds. -/
def kill (q : Proc) : Proc :=
  { q with killed := true, state := if q.state = .SLEEPING then .RUNNABLE else q.state }

/-- `kkill` finds a slot with its pid. -/
theorem kkill_found {pid : ℤ} (hx : (s.cpu c).exec = .thread (.kkill pid i .acquire :: st))
    (hi : i < NPROC) (hfree : s.lock (.proc i) = none) (hpid : (s.proc i).pid = pid) :
    runList kStep s (replicate 6 ⟨c, .step⟩) =
      .ok ((s.setProc i kill).goto c (.thread (KState.ret 0 st))) := by
  have hlock : Function.update s.lock (.proc i) none = s.lock := by
    rw [← hfree]
    exact Function.update_eq_self ..
  by_cases hσ : (s.proc i).state = .SLEEPING <;>
    simp [runList, kStep, hx, instr, kkillInstr, hi, KState.run, KState.acquire, hfree, hpid,
      KState.release, KState.setLock, KState.setCpu, KState.goto, hlock, KState.setProc, kill, hσ]

theorem goto_goto (s : KState) (c : ℕ) (x y : Exec) : (s.goto c x).goto c y = s.goto c y := by
  simp [KState.goto, KState.setCpu]

/-- **`kkill` from slot `i` on**: it marks the first slot with its pid, or there is none. -/
theorem kkill_solo (c : ℕ) (pid : ℤ) (st : List Frame) : ∀ (n i : ℕ) (s : KState), i + n = NPROC →
    (s.cpu c).exec = .thread (.kkill pid i .acquire :: st) →
    (∀ j < NPROC, s.lock (.proc j) = none) →
    ∃ m, (∃ j < NPROC, (s.proc j).pid = pid ∧ runList kStep s (replicate m ⟨c, .step⟩) =
        .ok ((s.setProc j kill).goto c (.thread (KState.ret 0 st)))) ∨
      (∀ j, i ≤ j → j < NPROC → (s.proc j).pid ≠ pid) ∧
        runList kStep s (replicate m ⟨c, .step⟩) =
          .ok (s.goto c (.thread (KState.ret (-1) st))) := by
  intro n
  induction n with
  | zero =>
    intro i s hi hx hfree
    have hn : ¬i < NPROC := by omega
    refine ⟨1, .inr ⟨fun j hj hj' => absurd hj' (by omega), ?_⟩⟩
    simp [runList, kStep, hx, instr, kkillInstr, hn, KState.run]
  | succ n ih =>
    intro i s hi hx hfree
    have hlt : i < NPROC := by omega
    by_cases hpid : (s.proc i).pid = pid
    · exact ⟨6, .inl ⟨i, hlt, hpid, kkill_found hx hlt (hfree i hlt) hpid⟩⟩
    · have hpass := kkill_pass hx hlt (hfree i hlt) hpid
      obtain ⟨m, hm⟩ := ih (i + 1) (s.goto c (.thread (.kkill pid (i + 1) .acquire :: st)))
        (by omega) (by rw [goto_cpu_self]) hfree
      refine ⟨3 + m, ?_⟩
      rw [replicate_add, runList_append hpass]
      rcases hm with ⟨j, hj, hjp, hrun⟩ | ⟨hno, hrun⟩
      · refine .inl ⟨j, hj, hjp, ?_⟩
        rw [hrun]
        exact congrArg _ (goto_goto (s.setProc j kill) ..)
      · refine .inr ⟨fun j hj hj' => ?_, by rw [hrun, goto_goto]⟩
        rcases Nat.eq_or_lt_of_le hj with rfl | hj
        · exact hpid
        · exact hno j hj hj'

/-- **`kkill` reaches processes in use only, if nobody calls `kkill(0)`.** In every
state reached without such a call: `kkill(pid)` of another pid, while nobody else
uses the table, returns 0 if a slot in use has that pid and -1 otherwise, and
leaves the slots that are not in use alone; at any time, no step of `kkill` writes
such a slot, and when it is going to return 0 it has a slot in use with its pid
locked; and `allocproc` returns slots that are not marked killed. -/
theorem kkill_reaches_processes (h : Run kStep (fun _ e => e.choice ≠ .kkill 0) kInit s) :
    (∀ c p pid a st, pid ≠ 0 → (s.cpu c).proc = some p →
      (s.cpu c).exec = .thread (.code .user [] a :: st) →
      (∀ i < NPROC, s.lock (.proc i) = none) →
      ∃ n t a0, runList kStep s (⟨c, .kkill pid⟩ :: replicate n ⟨c, .step⟩) = .ok t ∧
        (t.cpu c).exec = .thread (.code .user [] a0 :: st) ∧ (a0 = 0 ∨ a0 = -1) ∧
        (a0 = 0 ↔ ∃ i < NPROC, (s.proc i).state ≠ .UNUSED ∧ (s.proc i).pid = pid) ∧
        ∀ i, (s.proc i).state = .UNUSED → t.proc i = s.proc i) ∧
    (∀ c pid i k st ch s', (s.cpu c).exec = .thread (.kkill pid i k :: st) →
      kStep s ⟨c, ch⟩ = .ok s' → ∀ j, (s.proc j).state = .UNUSED → s'.proc j = s.proc j) ∧
    (∀ c pid i st, (s.cpu c).exec = .thread (.kkill pid i .releaseFound :: st) →
      (s.proc i).state ≠ .UNUSED ∧ (s.proc i).pid = pid) ∧
    ∀ c p i pid st, (s.cpu c).exec = .thread (.kfork p i pid .copy :: st) →
      (s.proc i).killed = false := by
  have hk := KInv.run h
  obtain ⟨-, hi⟩ := h.invariant (I := fun s => KInv s ∧ KillInv s) ⟨.init, .init⟩
    fun _ _ _ hi hc hs => ⟨hi.1.step hs, hi.2.step hi.1 hc hs⟩
  have hknows : ∀ {c f st}, (s.cpu c).exec = .thread (f :: st) → f.isHandler = false →
      KillKnows s f := by
    intro c f st hx hf
    obtain ⟨-, q, hex, -⟩ := hk.executes ⟨hx, .inl rfl⟩ hf
    exact hi.knows q _ (.inl ⟨c, hex⟩) f mem_cons_self
  refine ⟨fun c p pid a st hpid hp hx hfree => ?_, fun c pid i k st ch s' hx hs j hσ => ?_,
    fun c pid i st hx => (hknows hx rfl).2, fun c p i pid st hx => hknows hx rfl⟩
  · -- nobody is about to take a slot: its lock is free
    have hzero : ∀ i < NPROC, (s.proc i).state = .UNUSED → (s.proc i).pid ≠ pid := by
      intro i hlt hun
      rcases (hi.unused i hun).2 with hz | ⟨c', q, pid', st', hx'⟩
      · rw [hz]
        exact hpid.symm
      · have hl : s.lock (.proc i) = some c' :=
          (hk.locks.lock _ _).mpr (mem_held (.inl hx') (by simp [Frame.held]))
        rw [hfree i hlt] at hl
        cases hl
    have hcall : runList kStep s [⟨c, .kkill pid⟩] =
        .ok (s.goto c (.thread (.kkill pid 0 .acquire :: .code .user [] a :: st))) := by
      simp [runList, kStep, hx, instr, codeInstr, hp, KState.run]
    obtain ⟨m, hm⟩ := kkill_solo c pid (.code .user [] a :: st) NPROC 0
      (s.goto c (.thread (.kkill pid 0 .acquire :: .code .user [] a :: st)))
      (Nat.zero_add _) (by rw [goto_cpu_self]) hfree
    rcases hm with ⟨j, hj, hjp, hrun⟩ | ⟨hno, hrun⟩
    · refine ⟨m, _, 0, (runList_append hcall).trans hrun, by rw [goto_cpu_self]; rfl, .inl rfl,
        ⟨fun _ => ⟨j, hj, fun hun => hzero j hj hun hjp, hjp⟩, fun _ => rfl⟩, fun i hun => ?_⟩
      have hij : i ≠ j := by
        rintro rfl
        exact hzero i hj hun hjp
      rw [goto_proc, setProc_ne hij]
      rfl
    · refine ⟨m, _, -1, (runList_append hcall).trans hrun, by rw [goto_cpu_self]; rfl, .inr rfl,
        ⟨fun h0 => by simp at h0, ?_⟩, fun i _ => rfl⟩
      rintro ⟨i, hi, -, hip⟩
      exact absurd hip (hno i (Nat.zero_le i) hi)
  · rcases slotStep hk hs j with heq | ⟨⟨hx', hmk⟩, hw, -⟩ | ⟨hex, -⟩ | ⟨hk', -⟩ | ⟨hk', -⟩
    · exact heq
    · obtain rfl | ⟨⟨k', rfl⟩, -⟩ := hmk
      · obtain ⟨rfl, rfl⟩ := cons.inj (Exec.thread.inj (hx.symm.trans hx'))
        cases hw with
        | killFlag => exact absurd hσ (hknows hx rfl).2.1
        | killWake _ _ hsl =>
          rw [hsl] at hσ
          cases hσ
      · cases hx.symm.trans hx'
    · cases (cons.inj (Exec.thread.inj (hx.symm.trans hex.2))).1
    · cases hx.symm.trans hk'
    · cases hx.symm.trans hk'

/-- CPU 0 runs the first process, which has forked: the child is in slot 1 and has pid 2. -/
def childState : KState :=
  (runList kStep kInit
    (replicate 7 ⟨0, .step⟩ ++ [⟨0, .kfork⟩] ++ replicate 22 ⟨0, .step⟩)).getD kInit

theorem kkill_reaches_processes_childState :
    ((childState.proc 1).state, (childState.proc 1).pid) = (.RUNNABLE, 2) ∧
    ∃ n t a0, runList kStep childState (⟨0, .kkill 2⟩ :: replicate n ⟨0, .step⟩) = .ok t ∧
      (t.cpu 0).exec = .thread [.code .user [] a0] ∧ (a0 = 0 ∨ a0 = -1) ∧
      (a0 = 0 ↔ ∃ i < NPROC, (childState.proc i).state ≠ .UNUSED ∧ (childState.proc i).pid = 2) ∧
      ∀ i, (childState.proc i).state = .UNUSED → t.proc i = childState.proc i := by
  have hrun : Run kStep (fun _ e => e.choice ≠ .kkill 0) kInit childState :=
    .of_checkList (c := fun _ e => e.choice != .kkill 0) (fun _ e h => by simpa using h)
      (by decide +kernel) _
  exact ⟨by decide +kernel, (kkill_reaches_processes hrun).1 0 0 2 2 [] (by decide)
    (by decide +kernel) rfl (by decide +kernel)⟩

/-- CPU 0 runs the first process, which calls `kkill(0)`. -/
def killZeroEvs : List KEv := ⟨0, .kkill 0⟩ :: replicate 9 ⟨0, .step⟩

/-- CPU 0 runs the first process. -/
def firstState : KState := (runList kStep kInit (replicate 7 ⟨0, .step⟩)).getD kInit

/-- `kkill(0)` has returned. -/
def killedState : KState := (runList kStep firstState killZeroEvs).getD kInit

/-- The first process has called `kfork`, and `allocproc` has returned. -/
def bornKilledState : KState :=
  (runList kStep killedState (⟨0, .kfork⟩ :: replicate 13 ⟨0, .step⟩)).getD kInit

/-- No process has pid 0, but `kkill(0)` returns 0 and marks slot 1, which is not in use; the next
process gets that slot and is killed when `allocproc` returns it. -/
theorem kkill_zero :
    Run kStep (fun _ _ => True) kInit firstState ∧
    (∀ i < NPROC, (firstState.proc i).state ≠ .UNUSED → (firstState.proc i).pid ≠ 0) ∧
    (firstState.proc 1).state = .UNUSED ∧ (firstState.proc 1).killed = false ∧
    Run kStep (fun _ _ => True) firstState killedState ∧
    (killedState.cpu 0).exec = .thread [.code .user [] 0] ∧
    (killedState.proc 1).state = .UNUSED ∧ (killedState.proc 1).killed = true ∧
    Run kStep (fun _ _ => True) killedState bornKilledState ∧
    (bornKilledState.cpu 0).exec = .thread [.kfork 0 1 2 .copy, .code .user [] 0] ∧
    (bornKilledState.proc 1).killed = true := by
  refine ⟨.of_checkList (c := fun _ _ => true) (fun _ _ _ => trivial) (by decide +kernel) _,
    by decide +kernel, by decide +kernel, by decide +kernel,
    .of_checkList (c := fun _ _ => true) (fun _ _ _ => trivial) (by decide +kernel) _,
    rfl, by decide +kernel, by decide +kernel,
    .of_checkList (c := fun _ _ => true) (fun _ _ _ => trivial) (by decide +kernel) _,
    rfl, by decide +kernel⟩

end Xv6
