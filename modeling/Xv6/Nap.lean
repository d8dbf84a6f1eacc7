import Xv6.Wakeup

/-!
# `kexit` and `kwait` do not miss each other

A parent that finds no zombie in `kwait` keeps `wait_lock` until `sleep` has locked
the parent itself; a child that exits takes `wait_lock`, wakes its parent and
becomes a zombie before it releases it. So whoever naps in `kwait` has no zombie
child, but for the moment in which `reparent` has given `initproc` a zombie and is
about to wake it (`NapInv`).
-/

namespace Xv6

open List

variable {s s' : KState} {e : KEv} {c p q i n : ℕ} {st x : List Frame} {f : Frame}

/-- Process `p` has released `wait_lock` in `kwait` and is asleep, or going to be. -/
def Naps (s : KState) (p : ℕ) : Prop :=
  ∃ x k, Thread s p x ∧ .sleep p (.proc p) .wait_lock k ∈ x ∧
    (k = .setChan ∨ k = .setState ∨ (s.proc p).state = .SLEEPING)

/-- `j` is not a zombie child of `p`. -/
def Clean (s : KState) (p j : ℕ) : Prop :=
  (s.proc j).parent = some p → (s.proc j).state ≠ .ZOMBIE

/-- What is known by who holds `wait_lock`: `kexit` has woken the parent, `kwait` has found no
zombie so far. -/
def NapKnows (s : KState) : List Frame → Prop
  | .ret _ :: st => NapKnows s st
  | .kexit p _ _ k :: _ =>
    match k with
    | .acquire | .setXstate | .setState => ∀ q, (s.proc p).parent = some q → ¬Naps s q
    | _ => True
  | .wakeup chan j w :: .kexit p _ _ k :: _ =>
    match k with
    | .reparent => Passed j w initproc → ¬Naps s initproc
    | .acquire => chan = (s.proc p).parent.map .proc ∧
        ∀ q, (s.proc p).parent = some q → Passed j w q → ¬Naps s q
    | _ => True
  | .kwait p _ i _ _ k :: _ =>
    match k with
    | .scan | .childAcquire | .childCheck => ∀ j < i, Clean s p j
    | .childRelease => ∀ j < i + 1, Clean s p j
    | .done | .killedAcquire | .killedRead | .killedRelease _ | .sleep => ∀ j, Clean s p j
    | _ => True
  | .sleep p _ _ k :: .kwait .. :: _ =>
    match k with
    | .acquire | .releaseLk => ∀ j, Clean s p j
    | _ => True
  | _ => True

/-- CPU `c` is going to wake `initproc`, in `reparent`. -/
def WakesInit (s : KState) (c : ℕ) : Prop :=
  (∃ r status j st, (s.cpu c).exec = .thread (.kexit r status j .wakeInit :: st)) ∨
    ∃ chan j w r status j' st, (s.cpu c).exec =
      .thread (.wakeup chan j w :: .kexit r status j' .reparent :: st) ∧ ¬Passed j w initproc

/-- **The invariant of naps.** -/
structure NapInv (s : KState) : Prop where
  naps : ∀ p i, Naps s p → (s.proc i).parent = some p → (s.proc i).state = .ZOMBIE →
    p = initproc ∧ ∃ c, WakesInit s c
  knows : ∀ c p x, Executes s c p x → NapKnows s x

/-! ## What changes without `wait_lock` -/

/-- A process begins to nap when `sleep` releases `wait_lock`. -/
theorem naps_step (hi : SleepersInv s) (hs : kStep s e = .ok s') (hn : Naps s' p) :
    Naps s p ∨ ∃ st, Executes s e.cpu p (.sleep p (.proc p) .wait_lock .releaseLk :: st) := by
  obtain ⟨x', k, ht', hmem, hk⟩ := hn
  have hsh := hi.family.shape
  -- a process that sleeps has been asleep, or about to
  have hsl : (s'.proc p).state = .SLEEPING → ∀ {x k₀}, Thread s p x →
      .sleep p (.proc p) .wait_lock k₀ ∈ x → Naps s p := by
    intro hσ x k₀ ht hm
    rcases sleeping_step hi.machine hs hσ with hold | ⟨chan, lk, st, hex, -⟩
    · exact ⟨x, k₀, ht, hm, .inr (.inr hold)⟩
    · obtain rfl := hi.machine.procs.thread_eq hex ht
      cases (hsh p _ ht).sleep_eq mem_cons_self hm
      exact ⟨_, .setState, ht, hm, .inr (.inl rfl)⟩
  have hkeep : ∀ {x}, Thread s p x → .sleep p (.proc p) .wait_lock k ∈ x → Naps s p := by
    intro x ht hm
    rcases hk with hk | hk | hσ
    · exact ⟨x, k, ht, hm, .inl hk⟩
    · exact ⟨x, k, ht, hm, .inr (.inl hk)⟩
    · exact hsl hσ ht hm
  rcases hi.machine.threadStep hs ht' with ⟨ht, -⟩ | ⟨hex, hj, hrun, rfl⟩ | ⟨hex, -, hd, -, rfl⟩ |
    ⟨-, -, -, rfl⟩
  · exact .inl (hkeep ht hmem)
  · rename_i f st j
    rcases mem_stack hmem with hm | hm | ⟨m, locks, a0, hc⟩
    · rcases instr_sleep hj hm with rfl | ⟨k₀, rfl, rfl⟩
      · rcases hk with hk | hk | hσ
        · cases hk
        · cases hk
        · -- a process that sleeps is past that point
          obtain ⟨chan, lk, k₁, hm₁, hk₁⟩ := (hi.step hs).sleeps.asleep p _ ht' hσ
          cases ((hi.step hs).family.shape p _ ht').sleep_eq hmem hm₁
          simp at hk₁
      · have ht : Thread s p (.sleep p (.proc p) .wait_lock k₀ :: st) := .inl ⟨_, hex⟩
        rcases hk with rfl | rfl | hσ
        · cases k₀ <;> simp [sleepInstr, Instr.next] at hm
          exact .inr ⟨st, hex⟩
        · cases k₀ <;> simp [sleepInstr, Instr.next] at hm
          exact .inl ⟨_, .setChan, ht, mem_cons_self, .inl rfl⟩
        · exact .inl (hsl hσ ht mem_cons_self)
    · exact .inl (hkeep (.inl ⟨_, hex⟩) (mem_cons_of_mem _ hm))
    · cases hc
  · rcases mem_cons.mp hmem with hm | hm
    · rcases hd with rfl | rfl <;> cases hm
    · exact .inl (hkeep (.inl ⟨_, hex⟩) hm)
  · simp at hmem

/-- A process becomes a zombie in `kexit`. -/
theorem zombie_step (h : KInv s) (hs : kStep s e = .ok s') (hz : (s'.proc n).state = .ZOMBIE) :
    (s.proc n).state = .ZOMBIE ∨
      ∃ status j st, Executes s e.cpu n (.kexit n status j .setState :: st) := by
  rcases slotStep h hs n with heq | ⟨hr, hwr, rfl⟩ | ⟨-, hp⟩ | ⟨-, hp⟩ | ⟨-, hp⟩
  · exact .inl (heq ▸ hz)
  · rw [goto_proc, setProc_eq] at hz
    cases hwr with
    | exitState _ status j =>
      obtain ⟨rfl, r, hex, hok⟩ := h.executes hr rfl
      obtain rfl : n = r := hok.1
      exact .inr ⟨status, j, _, hex⟩
    | yieldState | sleepState | wakeup | killWake | forkUsed | forkFree | forkRunnable | waitFree =>
      cases hz
    | _ => exact .inl hz
  all_goals
    rw [hp] at hz
    first | cases hz | exact .inl hz

/-- The stack of a call of `sleep` from `kwait` holds `wait_lock` until it is released. -/
theorem sleep_kwait_held (hsh : Shape (.sleep p (.proc p) .wait_lock .releaseLk :: st)) :
    Lock.wait_lock ∈ heldBy (.sleep p (.proc p) .wait_lock .releaseLk :: st) := by
  rcases hsh.1 with ⟨m, locks, a0, st', -, -, j, j', hc, -⟩ | ⟨addr, a0, st', rfl, -⟩
  · cases hc
  · rw [heldBy_cons]
    refine mem_append_right _ ?_
    simp [heldBelow, SleepPc.released, heldBy, Frame.held]

/-- Knowledge survives whatever makes no parent, no zombie and no nap. -/
theorem NapKnows.mono (hpar : ∀ n, (s'.proc n).parent = (s.proc n).parent)
    (hz : ∀ n, (s'.proc n).state = .ZOMBIE → (s.proc n).state = .ZOMBIE)
    (hn : ∀ q, Naps s' q → Naps s q) : ∀ {x}, NapKnows s x → NapKnows s' x := by
  have hclean : ∀ {p j}, Clean s p j → Clean s' p j := fun hc hp hzz =>
    hc ((hpar _).symm.trans hp) (hz _ hzz)
  intro x
  induction x with
  | nil => exact id
  | cons f st ih =>
    intro h
    cases f with
    | ret a0 => exact ih h
    | kexit p status i k =>
      cases k with
      | acquire | setXstate | setState =>
        exact fun q hq hq' => h q ((hpar p).symm.trans hq) (hn q hq')
      | _ => trivial
    | wakeup chan j w =>
      rcases st with _ | ⟨g, st⟩
      · trivial
      · cases g with
        | kexit p status i k =>
          cases k with
          | reparent => exact fun hp hq' => h hp (hn _ hq')
          | acquire =>
            refine ⟨by rw [hpar]; exact h.1, fun q hq hp hq' => ?_⟩
            exact h.2 q ((hpar p).symm.trans hq) hp (hn q hq')
          | _ => trivial
        | _ => trivial
    | kwait p addr i hk a0 k =>
      cases k with
      | scan | childAcquire | childCheck | childRelease => exact fun j hj => hclean (h j hj)
      | done | killedAcquire | killedRead | killedRelease | sleep => exact fun j => hclean (h j)
      | _ => trivial
    | sleep p chan lk k =>
      rcases st with _ | ⟨g, st⟩
      · trivial
      · cases g with
        | kwait =>
          cases k with
          | acquire | releaseLk => exact fun j => hclean (h j)
          | _ => trivial
        | _ => trivial
    | _ => trivial

/-- Who does not hold `wait_lock` need not know anything. -/
theorem NapKnows.of_free (hsh : Shape x) (hfree : Lock.wait_lock ∉ heldBy x) : NapKnows s x := by
  induction x with
  | nil => trivial
  | cons f st ih =>
    cases f with
    | ret a0 => exact ih hsh.2 hfree
    | kexit p status i k =>
      cases k with
      | acquire | setXstate | setState => exact absurd (by simp [heldBy, Frame.held]) hfree
      | _ => trivial
    | wakeup chan j w =>
      rcases st with _ | ⟨g, st⟩
      · trivial
      · cases g with
        | kexit p status i k =>
          cases k with
          | reparent | acquire => exact absurd (by simp [heldBy, Frame.held]) hfree
          | _ => trivial
        | _ => trivial
    | kwait p addr i hk a0 k =>
      cases k with
      | scan | childAcquire | childCheck | childRelease | done | killedAcquire | killedRead
      | killedRelease | sleep => exact absurd (by simp [heldBy, Frame.held]) hfree
      | _ => trivial
    | sleep p chan lk k =>
      rcases st with _ | ⟨g, st⟩
      · trivial
      · cases g with
        | kwait =>
          rcases hsh.1 with ⟨m, locks, a0, st', hst, -⟩ | ⟨addr, a0, st', hst, -⟩
          · cases hst
          · cases hst
            cases k with
            | acquire | releaseLk =>
              exact absurd (by simp [heldBy, Frame.held, SleepPc.released]) hfree
            | _ => trivial
        | _ => trivial
    | _ => trivial

theorem NapKnows.ret (h : NapKnows s st) (a0 : ℤ) : NapKnows s (KState.ret a0 st) := by
  unfold KState.ret
  split
  · trivial
  · exact h

/-! ## The holder of `wait_lock` -/

/-- `wakeup` on the channel of a process that naps in `kwait` wakes it. -/
theorem nap_wakeup {j j' : ℕ} {w w' : WakeupPc} (h : SleepersInv s) (hs : kStep s e = .ok s')
    (hex : Executes s e.cpu p (.wakeup (some (.proc q)) j w :: st)) (hpq : p ≠ q)
    (hj : (wakeupInstr s e.cpu (some (.proc q)) j w).next s.nextpid =
      [.wakeup (some (.proc q)) j' w'])
    (hrun : s.run e.cpu .thread st (wakeupInstr s e.cpu (some (.proc q)) j w) = .ok s')
    (hold : Passed j w q → ¬Naps s q) (hp : Passed j' w' q) : ¬Naps s' q := by
  intro hn
  have hn₀ : Naps s q := by
    rcases naps_step h hs hn with hn₀ | ⟨st', hex'⟩
    · exact hn₀
    · cases (List.cons.inj (Exec.thread.inj (hex.2.symm.trans hex'.2))).1
  by_cases hpas : Passed j w q
  · exact hold hpas hn₀
  cases w with
  | test =>
    simp only [wakeupInstr] at hj
    split_ifs at hj with hlt hproc
    · simp [Instr.next] at hj
      obtain ⟨rfl, rfl⟩ := hj
      simp [Passed] at hp hpas
      omega
    · -- it skips its own process
      obtain ⟨rfl, rfl⟩ := hj
      simp [Passed] at hp hpas
      obtain rfl : q = j := by omega
      rw [not_not, hex.1] at hproc
      exact hpq (Option.some.inj hproc)
    · simp [Instr.next] at hj
  | acquire | release =>
    obtain ⟨rfl, rfl⟩ := hj
    simp [Passed] at hp hpas
    omega
  | check =>
    have hnext : j' = j ∧ w' = .release := by
      simp only [wakeupInstr] at hj
      split_ifs at hj <;> simp [Instr.next] at hj <;> exact ⟨hj.1.symm, hj.2.symm⟩
    obtain ⟨rfl, rfl⟩ := hnext
    obtain rfl : q = j' := by
      simp [Passed] at hp hpas
      omega
    have hlk : Lock.proc q ∈ (s.cpu e.cpu).exec.held :=
      mem_held (.inl hex.2) (by simp [Frame.held])
    -- it is not about to sleep: its lock is held here
    have hnot : ∀ {x k}, Thread s q x → .sleep q (.proc q) .wait_lock k ∈ x →
        k ≠ .setChan ∧ k ≠ .setState := by
      intro x k ht hm
      obtain ⟨m, hm'⟩ := mem_iff_getElem?.mp (mem_reverse.mpr hm)
      constructor <;>
      · rintro rfl
        have hloc := sleep_locked (c := e.cpu) h.machine ⟨x, ht, hm'⟩ (by simp) hlk
        exact hpq (Option.some.inj (hex.1.symm.trans hloc))
    obtain ⟨x, k, ht, hm, hk⟩ := hn₀
    obtain ⟨h1, h2⟩ := hnot ht hm
    have hσ : (s.proc q).state = .SLEEPING := by tauto
    have hchan : (s.proc q).chan = some (.proc q) := by
      obtain ⟨chan, lk, k₁, hm₁, hk₁⟩ := h.sleeps.asleep q x ht hσ
      cases (h.family.shape q x ht).sleep_eq hm hm₁
      exact h.sleeps.chan q x _ _ _ ht hm (.inr hk₁)
    -- so it has been woken
    simp only [wakeupInstr, hσ, hchan, and_self, if_true] at hrun
    cases hrun
    obtain ⟨x', k', ht', hm', hk'⟩ := hn
    have hσ' : ((((s.setProc q fun r => { r with state := .RUNNABLE }).goto e.cpu
        (.thread (.wakeup (some (.proc q)) q .release :: st))).proc q).state) = .RUNNABLE := by
      rw [goto_proc, setProc_eq]
    rw [hσ'] at hk'
    have hk'' : k' = .setChan ∨ k' = .setState := by
      rcases hk' with hk' | hk' | hk'
      · exact .inl hk'
      · exact .inr hk'
      · cases hk'
    obtain ⟨m', hm''⟩ := mem_iff_getElem?.mp (mem_reverse.mpr hm')
    have hloc := sleep_locked (c := e.cpu) (h.step hs).machine ⟨x', ht', hm''⟩ hk'' (by
      rw [goto_cpu_self]
      exact held_subset_heldBy _ _ _ (by simp [Frame.held]))
    rw [goto_cpu_self] at hloc
    exact hpq (Option.some.inj (hex.1.symm.trans hloc))

namespace NapInv

/-- A CPU that does not hold `wait_lock` does not disturb the one that does. -/
theorem mono_of_free (h : SleepersInv s) (hs : kStep s e = .ok s')
    (hfree : Lock.wait_lock ∉ (s.cpu e.cpu).exec.held) (hk : NapKnows s x) : NapKnows s' x := by
  refine hk.mono (h.family.parent_eq h.machine hs hfree) (fun n hz => ?_) fun q hq => ?_
  · rcases zombie_step h.machine hs hz with hold | ⟨status, j, st, hex⟩
    · exact hold
    · exact absurd (mem_held (.inl hex.2) (by simp [Frame.held])) hfree
  · rcases naps_step h hs hq with hold | ⟨st, hex⟩
    · exact hold
    · refine absurd ?_ hfree
      rw [hex.2]
      exact sleep_kwait_held (h.family.shape q _ (.inl ⟨_, hex⟩))

theorem knows_other (hi : NapInv s) (h : SleepersInv s) (hs : kStep s e = .ok s') (hc : c ≠ e.cpu)
    (hex' : Executes s' c p x) : NapKnows s' x := by
  have hex : Executes s c p x := by
    rw [Executes, ← cpu_other hs hc]
    exact hex'
  by_cases hw : Lock.wait_lock ∈ heldBy x
  · refine mono_of_free h hs (fun hm => hc ?_) (hi.knows c p x hex)
    exact h.machine.locks.cpu_eq (by rw [hex.2]; exact hw) hm
  · exact .of_free (h.family.shape p x (.inl ⟨c, hex⟩)) hw

/-- A step that leaves the table alone and does not begin a nap. -/
theorem mono_of_eq (h : SleepersInv s) (hs : kStep s e = .ok s') (hp : s'.proc = s.proc)
    (hex : Executes s e.cpu p (f :: st)) (hf : f.fn ≠ .sleep) (hk : NapKnows s x) :
    NapKnows s' x := by
  refine hk.mono (fun n => by rw [hp]) (fun n hz => by rw [← hp]; exact hz) fun q hq => ?_
  rcases naps_step h hs hq with hold | ⟨st', hex'⟩
  · exact hold
  · obtain ⟨rfl, -⟩ := List.cons.inj (Exec.thread.inj (hex.2.symm.trans hex'.2))
    exact absurd rfl hf

/-- `wakeup` goes on in its loop, or returns. -/
theorem wakeup_next (s : KState) (c : ℕ) (chan : Option Chan) (j : ℕ) (w : WakeupPc) :
    (∃ j' w', (wakeupInstr s c chan j w).next s.nextpid = [.wakeup chan j' w'] ∧
      ∀ st, (wakeupInstr s c chan j w).stack s.nextpid st = .wakeup chan j' w' :: st) ∨
    w = .test ∧ NPROC ≤ j ∧ wakeupInstr s c chan j w = .ret 0 := by
  cases w with
  | test =>
    simp only [wakeupInstr]
    split_ifs with hlt hp
    · exact .inl ⟨_, _, rfl, fun _ => rfl⟩
    · exact .inl ⟨_, _, rfl, fun _ => rfl⟩
    · exact .inr ⟨trivial, by omega, rfl⟩
  | check =>
    simp only [wakeupInstr]
    split_ifs <;> exact .inl ⟨_, _, rfl, fun _ => rfl⟩
  | _ => exact .inl ⟨_, _, rfl, fun _ => rfl⟩

section

variable (hi : NapInv s) (h : SleepersInv s) (hs : kStep s e = .ok s')
include hi h hs

theorem wakeupTurn {chan : Option Chan} {j : ℕ} {w : WakeupPc}
    (hex : Executes s e.cpu p (.wakeup chan j w :: st))
    (hrun : s.run e.cpu .thread st (wakeupInstr s e.cpu chan j w) = .ok s') :
    NapKnows s' ((wakeupInstr s e.cpu chan j w).stack s.nextpid st) := by
  have hold := hi.knows _ p _ hex
  have hsh := h.family.shape p _ (.inl ⟨_, hex⟩)
  have hok := h.machine.procs.stackOk hex
  have hcases := wakeup_next s e.cpu chan j w
  rcases hsh.1 with ⟨m, locks, a0, st', rfl, -⟩ | ⟨r, status, j₁, st', rfl, rfl⟩ |
    ⟨r, status, j₁, st', rfl⟩
  · rcases hcases with ⟨j', w', -, hst⟩ | ⟨-, -, hret⟩
    · rw [hst]
      trivial
    · rw [hret]
      trivial
  · -- called by `reparent`
    obtain rfl : r = p := hok.2.2.1
    have hne := (h.family.knows r _ (.inl ⟨_, hex⟩) _ (mem_cons_of_mem _ mem_cons_self)).1
    rcases hcases with ⟨j', w', hnext, hst⟩ | ⟨-, -, hret⟩
    · rw [hst]
      exact fun hp => nap_wakeup h hs hex hne hnext hrun hold hp
    · rw [hret]
      trivial
  · -- called by `kexit` for the parent
    obtain rfl : r = p := hok.2.2.1
    have hkids := (h.family.knows r _ (.inl ⟨_, hex⟩) _ (mem_cons_of_mem _ mem_cons_self)).2
    obtain ⟨hchan, hwok⟩ := hold
    have hfree : ∀ n, (s'.proc n).parent = (s.proc n).parent := fun n =>
      (h.family.below_eq h.machine hs hex mem_cons_self (.inr (.inl rfl)) n).1
    rcases hcases with ⟨j', w', hnext, hst⟩ | ⟨rfl, hj, hret⟩
    · rw [hst]
      refine ⟨by rw [hfree]; exact hchan, fun q hq hp => ?_⟩
      rw [hfree] at hq
      rw [hq] at hchan
      subst hchan
      refine nap_wakeup h hs hex (fun heq => ?_) hnext hrun (hwok q hq) hp
      exact hkids r (heq ▸ hq)
    · rw [hret] at hrun ⊢
      cases hrun
      refine mono_of_eq h hs rfl hex (by simp [Frame.fn]) (x := .kexit r status j₁ .acquire :: st')
        fun q hq => hwok q hq (.inl ?_)
      have hlt : q < NPROC := by
        by_contra hge
        have hl := h.family.parents r q hq
        rw [h.family.range q (by omega)] at hl
        cases hl
      omega

theorem exitTurn {status : ℤ} {j : ℕ} {k : ExitPc}
    (hex : Executes s e.cpu p (.kexit q status j k :: st))
    (hrun : s.run e.cpu .thread st (kexitInstr s q status j k) = .ok s') :
    NapKnows s' ((kexitInstr s q status j k).stack s.nextpid st) := by
  have hold := hi.knows _ p _ hex
  cases k with
  | acquire => exact mono_of_eq h hs (acquire_proc hrun) hex (by simp [Frame.fn]) hold
  | setXstate =>
    refine hold.mono (fun n => ?_) (fun n hz => ?_) fun r hr => ?_
    · cases hrun
      by_cases hn : n = q
      · subst hn
        rw [goto_proc, setProc_eq]
      · rw [goto_proc, setProc_ne hn]
    · rcases zombie_step h.machine hs hz with hz | ⟨status', j', st', hex'⟩
      · exact hz
      · cases (List.cons.inj (Exec.thread.inj (hex.2.symm.trans hex'.2))).1
    · rcases naps_step h hs hr with hr | ⟨st', hex'⟩
      · exact hr
      · cases (List.cons.inj (Exec.thread.inj (hex.2.symm.trans hex'.2))).1
  | wakeInit =>
    intro hp
    simp [Passed] at hp
  | wakeParent =>
    cases hrun
    refine ⟨rfl, fun r _ hp => ?_⟩
    simp [Passed] at hp
  | start | reparent =>
    simp only [kexitInstr] at hrun ⊢
    split_ifs at hrun ⊢ <;> trivial
  | dead => cases hrun
  | _ => trivial

theorem waitTurn {addr : Bool} {j : ℕ} {hk : Bool} {a0 : ℤ} {fail : Bool} {k : WaitPc}
    (hex : Executes s e.cpu p (.kwait q addr j hk a0 k :: st))
    (hrun : s.run e.cpu .thread st (kwaitInstr s q addr j hk a0 fail k) = .ok s') :
    NapKnows s' ((kwaitInstr s q addr j hk a0 fail k).stack s.nextpid st) := by
  have hold := hi.knows _ p _ hex
  -- steps that leave the table alone
  have hsame : s'.proc = s.proc → ∀ {x}, NapKnows s x → NapKnows s' x := fun hp _ hx =>
    mono_of_eq h hs hp hex (by simp [Frame.fn]) hx
  have hsucc : ∀ {i}, (∀ n < i, Clean s q n) → Clean s q i → ∀ n < i + 1, Clean s q n := by
    intro i hlt hi n hn
    rcases Nat.lt_succ_iff_lt_or_eq.mp hn with hn | rfl
    · exact hlt n hn
    · exact hi
  cases k with
  | acquire => exact fun n hn => absurd hn (Nat.not_lt_zero n)
  | scan =>
    simp only [kwaitInstr] at hrun ⊢
    split_ifs at hrun ⊢ with hlt hpar
    · exact hsame (by obtain rfl := Outcome.ok.inj hrun; rfl) hold
    · refine hsame (by obtain rfl := Outcome.ok.inj hrun; rfl)
        (x := .kwait q addr (j + 1) hk a0 .scan :: st) (hsucc hold fun hp => absurd hp hpar)
    · -- the loop has come to its end
      refine hsame (by obtain rfl := Outcome.ok.inj hrun; rfl)
        (x := .kwait q addr j hk a0 .done :: st) fun n => ?_
      by_cases hn : n < NPROC
      · exact hold n (by omega)
      · intro hp
        rw [h.family.unused n (h.family.range n (by omega))] at hp
        cases hp
  | childAcquire => exact hsame (acquire_proc hrun) hold
  | childCheck =>
    simp only [kwaitInstr] at hrun ⊢
    split_ifs at hrun ⊢ with hz
    · trivial
    · exact hsame (by obtain rfl := Outcome.ok.inj hrun; rfl)
        (x := .kwait q addr j true a0 .childRelease :: st) (hsucc hold fun _ => hz)
  | childRelease => exact hsame (release_proc hrun) (x := .kwait q addr (j + 1) hk a0 .scan :: st) hold
  | done =>
    simp only [kwaitInstr] at hrun ⊢
    split_ifs at hrun ⊢
    · exact hsame (by obtain rfl := Outcome.ok.inj hrun; rfl)
        (x := .kwait q addr j hk a0 .killedAcquire :: st) hold
    · trivial
  | killedAcquire => exact hsame (acquire_proc hrun) hold
  | killedRead => exact hsame (by obtain rfl := Outcome.ok.inj hrun; rfl) hold
  | killedRelease b =>
    cases b
    · exact hsame (release_proc hrun) (x := .kwait q addr j hk a0 .sleep :: st) hold
    · trivial
  | sleep =>
    exact hsame (by obtain rfl := Outcome.ok.inj hrun; rfl)
      (x := .sleep q (.proc q) .wait_lock .acquire :: .kwait q addr 0 false a0 .scan :: st) hold
  | waitRelease =>
    obtain ⟨locks, a, rfl⟩ := (h.family.shape p _ (.inl ⟨_, hex⟩)).1
    trivial
  | copyout =>
    simp only [kwaitInstr]
    split_ifs <;> trivial
  | _ => trivial

theorem sleepTurn {chan : Chan} {lk : Lock} {k : SleepPc}
    (hex : Executes s e.cpu p (.sleep q chan lk k :: st))
    (hrun : s.run e.cpu .thread st (sleepInstr q chan lk k) = .ok s') :
    NapKnows s' ((sleepInstr q chan lk k).stack s.nextpid st) := by
  have hold := hi.knows _ p _ hex
  rcases (h.family.shape p _ (.inl ⟨_, hex⟩)).1 with ⟨m, locks, a0, st', rfl, -⟩ |
    ⟨addr, a0, st', rfl, -⟩
  · cases k <;> trivial
  · cases k with
    | acquire =>
      refine hold.mono (fun n => by rw [acquire_proc hrun])
        (fun n hz => by rw [← acquire_proc hrun]; exact hz) fun r hr => ?_
      rcases naps_step h hs hr with hr | ⟨st', hex'⟩
      · exact hr
      · cases (List.cons.inj (Exec.thread.inj (hex.2.symm.trans hex'.2))).1
    | acquireLk => exact fun n hn => absurd hn (Nat.not_lt_zero n)
    | _ => trivial

/-- The thread that moves. -/
theorem turn {j : Instr} (hex : Executes s e.cpu p (f :: st))
    (hj : instr s e.cpu f e.choice = some j) (hrun : s.run e.cpu .thread st j = .ok s') :
    NapKnows s' (j.stack s.nextpid st) := by
  have hsh := h.family.shape p _ (.inl ⟨_, hex⟩)
  cases f with
  | code m locks a0 =>
    simp only [instr, codeInstr] at hj
    split at hj <;> (try split_ifs at hj) <;> cases hj <;> first | trivial | skip
    -- the end of a handler, or of closing the files
    rename_i hm
    cases m with
    | user => exact absurd rfl hm.1
    | files =>
      obtain ⟨r, status, i, st', rfl⟩ := hsh.1
      trivial
    | intr =>
      refine NapKnows.ret (.of_free hsh.2 ?_) a0
      rw [show heldBy st = [] from hsh.1]
      simp
  | ret a0 =>
    simp only [instr] at hj
    split_ifs at hj
    cases hj
    cases hrun
    have hold : NapKnows s st := hi.knows e.cpu p (.ret a0 :: st) hex
    exact (mono_of_eq h hs rfl hex (by simp [Frame.fn]) hold).ret a0
  | yield r k =>
    simp only [instr] at hj
    split_ifs at hj
    cases hj
    cases k with
    | release =>
      refine NapKnows.of_free (x := st) hsh.2 ?_
      rw [show heldBy st = [] from hsh.1]
      simp
    | _ => trivial
  | sched r k =>
    simp only [instr] at hj
    split_ifs at hj
    cases hj
    cases k with
    | check =>
      simp only [schedInstr] at hrun ⊢
      split_ifs at hrun ⊢ <;> trivial
    | swtch => trivial
    | ret =>
      have hcall := (h.machine.procs.stackOk hex).2.1.callsSched
      refine NapKnows.ret ?_ 0
      unfold CallsSched at hcall
      split at hcall
      · trivial
      · rename_i st'
        rcases st' with _ | ⟨g, st'⟩
        · trivial
        · cases g <;> trivial
      · trivial
      · exact hcall.elim
  | sleep r chan lk k =>
    simp only [instr] at hj
    split_ifs at hj
    cases hj
    exact hi.sleepTurn h hs hex hrun
  | wakeup chan i w =>
    simp only [instr] at hj
    split_ifs at hj
    cases hj
    exact hi.wakeupTurn h hs hex hrun
  | kexit r status i k =>
    simp only [instr] at hj
    split_ifs at hj
    cases hj
    exact hi.exitTurn h hs hex hrun
  | kwait r addr i hk a0 k =>
    simp only [instr] at hj
    split_ifs at hj
    cases hj
    exact hi.waitTurn h hs hex hrun
  | forkret r =>
    simp only [instr] at hj
    split_ifs at hj
    cases hj
    trivial
  | kkill pid i k | setkilled r k | killed r a0 k | kfork r i pid k =>
    obtain ⟨locks, a, rfl⟩ := hsh.1
    simp only [instr] at hj
    split_ifs at hj
    cases hj
    cases k <;> simp only [kkillInstr, setkilledInstr, killedInstr, kforkInstr] <;>
      (try split_ifs) <;> trivial

theorem knows_step (hex' : Executes s' c p x) : NapKnows s' x := by
  by_cases hc : c = e.cpu
  · subst hc
    have hsh' := (h.step hs).family.shape p x (.inl ⟨_, hex'⟩)
    rcases h.machine.threadStep hs (.inl ⟨_, hex'⟩) with ⟨ht, hnot⟩ | ⟨hex, hj, hrun, rfl⟩ |
      ⟨hex, hnil, hd, -, rfl⟩ | ⟨-, -, -, rfl⟩
    · -- it has just been resumed
      refine .of_free hsh' ?_
      rcases ht with ⟨c', hex⟩ | ⟨hno, hlive, rfl⟩
      · have hc : c' ≠ e.cpu := by
          rintro rfl
          exact hnot _ hex
        refine absurd ((h.step hs).machine.procs.uniq c' e.cpu p ?_ hex'.1) hc
        rw [cpu_other hs hc]
        exact hex.1
      · rw [(h.machine.procs.parked p hno hlive).2.held]
        simp
    · exact hi.turn h hs hex hj hrun
    · refine .of_free hsh' ?_
      rcases hd with rfl | rfl <;> simp [heldBy, Frame.held, hnil]
    · exact .of_free hsh' (by simp [heldBy, Frame.held])
  · exact hi.knows_other h hs hc hex'

end

/-- `reparent` stays about to wake `initproc`, or has woken it. -/
theorem wakes_step (h : SleepersInv s) (hs : kStep s e = .ok s')
    (hw : ∃ c, WakesInit s c) (hn : Naps s' initproc) : ∃ c, WakesInit s' c := by
  obtain ⟨c, hw⟩ := hw
  by_cases hc : c = e.cpu
  · subst hc
    refine ⟨e.cpu, .inr ?_⟩
    rcases hw with ⟨r, status, j, st, hx⟩ | ⟨chan, j, w, r, status, j', st, hx, hp⟩
    · obtain ⟨i, hin, hrun⟩ := h.machine.instr_of_held hs hx (by simp [heldBy, Frame.held])
      simp only [instr] at hin
      split_ifs at hin
      cases hin
      cases hrun
      exact ⟨_, _, _, _, _, _, _, by rw [goto_cpu_self], by simp [Passed]⟩
    · obtain ⟨p, hex, hok⟩ := h.machine.thread_executes hx
      obtain rfl : r = p := hok.2.2.1
      have hne := (h.family.knows r _ (.inl ⟨_, hex⟩) _
        (mem_cons_of_mem _ mem_cons_self)).1
      obtain ⟨i, hin, hrun⟩ := h.machine.instr_of_held hs hx (by simp [heldBy, Frame.held])
      obtain rfl : i = wakeupInstr s e.cpu chan j w := by
        simp only [instr] at hin
        split_ifs at hin
        exact (Option.some.inj hin).symm
      rcases wakeup_next s e.cpu chan j w with ⟨j₁, w₁, hnext, hst⟩ | ⟨rfl, hj, -⟩
      · have hr : Runs s e.cpu .thread (.wakeup chan j w :: .kexit r status j' .reparent :: st) :=
          ⟨hx, .inl rfl⟩
        have hm := hr.run (fun q g hsw => by cases (instr_from (i := .swtch q g) (hsw ▸ hin)).1) hrun
        rw [hst] at hm
        rcases hm.exec with ⟨-, hx'⟩ | ⟨k, hx', -⟩
        · refine ⟨chan, j₁, w₁, r, status, j', st, hx', fun hp' => ?_⟩
          -- it has been woken
          obtain rfl : chan = some (.proc initproc) := by
            rcases (h.family.shape r _ (.inl ⟨_, hex⟩)).1 with ⟨m, locks, a0, st', hst, -⟩ |
              ⟨_, _, _, _, -, hchan⟩ | ⟨_, _, _, _, hst⟩
            · cases hst
            · exact hchan
            · cases hst
          exact nap_wakeup h hs hex hne hnext hrun (fun hpas => absurd hpas hp) hp' hn
        · cases hx.symm.trans hx'
      · exact absurd (.inl (Nat.lt_of_lt_of_le (by decide) hj)) hp
  · refine ⟨c, ?_⟩
    rw [WakesInit, cpu_other hs hc]
    exact hw

/-- Nobody naps while a child is a zombie, unless `initproc` is about to be woken. -/
theorem naps_zombie (hi : NapInv s) (h : SleepersInv s) (hs : kStep s e = .ok s')
    (hn : Naps s' p) (hpar : (s'.proc i).parent = some p) (hz : (s'.proc i).state = .ZOMBIE) :
    p = initproc ∧ ∃ c, WakesInit s' c := by
  rcases naps_step h hs hn with hn₀ | ⟨st, hex⟩
  · rcases zombie_step h.machine hs hz with hz₀ | ⟨status, j, st, hex⟩
    · -- it has been a zombie: was it a child?
      by_cases hpar₀ : (s.proc i).parent = some p
      · obtain ⟨rfl, hw⟩ := hi.naps p i hn₀ hpar₀ hz₀
        exact ⟨rfl, wakes_step h hs hw hn⟩
      · rcases slotStep h.machine hs i with heq | ⟨hr, hwr, hs'⟩ | ⟨-, hp⟩ | ⟨-, hp⟩ | ⟨-, hp⟩
        · exact absurd (heq ▸ hpar) hpar₀
        · rename_i mk f st u g
          rw [hs', goto_proc, setProc_eq] at hpar
          cases hwr with
          | forkParent =>
            have hu := (h.machine.claim hr rfl i .USED rfl).1
            rw [hz₀] at hu
            cases hu
          | exitParent r status =>
            obtain ⟨rfl, -⟩ := h.machine.executes hr rfl
            refine ⟨(Option.some.inj hpar).symm, e.cpu, .inl ⟨r, status, i, st, ?_⟩⟩
            rw [hs', goto_cpu_self]
          | forkFree | waitFree => cases hpar
          | _ => exact absurd hpar hpar₀
        all_goals
          rw [hp] at hpar
          exact absurd hpar hpar₀
    · -- it has just become one, and had woken its parent
      have hk := hi.knows _ i _ hex p
      have hpar₀ : (s.proc i).parent = some p := by
        obtain ⟨j', hin, hrun⟩ := h.machine.instr_of_held hs hex.2 (by simp [heldBy, Frame.held])
        simp only [instr] at hin
        split_ifs at hin
        cases hin
        cases hrun
        rw [goto_proc, setProc_eq] at hpar
        exact hpar
      exact absurd hn₀ (hk hpar₀)
  · -- it has just found no zombie
    obtain ⟨addr, a0, st', rfl⟩ : ∃ addr a0 st', st = .kwait p addr 0 false a0 .scan :: st' := by
      rcases (h.family.shape p _ (.inl ⟨_, hex⟩)).1 with ⟨m, locks, a0, st', -, -, j, j', hc, -⟩ |
        ⟨addr, a0, st', hst, -⟩
      · cases hc
      · exact ⟨addr, a0, st', hst⟩
    obtain ⟨j', hin, hrun⟩ := h.machine.instr_of_held hs hex.2 (by simp [heldBy, Frame.held])
    simp only [instr] at hin
    split_ifs at hin
    cases hin
    rw [release_proc hrun] at hpar hz
    exact absurd hz (hi.knows _ p _ hex i hpar)

/-- **Every step keeps the invariant of naps.** -/
theorem step (hi : NapInv s) (h : SleepersInv s) (hs : kStep s e = .ok s') : NapInv s' :=
  ⟨fun _ _ hn hpar hz => hi.naps_zombie h hs hn hpar hz, fun _ _ _ hex => hi.knows_step h hs hex⟩

theorem start : NapInv kInit := by
  refine ⟨fun p i _ _ hz => ?_, fun c p x hex => ?_⟩
  · by_cases h0 : i = initproc
    · subst h0
      cases hz
    · rw [show kInit.proc i = unusedProc from if_neg h0] at hz
      cases hz
  · cases hex.2

theorem run {C : KState → KEv → Prop} (h : Run kStep C kInit s) : NapInv s :=
  (h.invariant (I := fun s => SleepersInv s ∧ NapInv s) ⟨⟨.init, .start, .start⟩, start⟩
    fun _ _ _ hi _ hs => ⟨hi.1.step hs, hi.2.step hi.1 hs⟩).2

end NapInv

/-! ## No lost wakeup -/

/-- A process that sleeps inside `kwait` sleeps in the call `kwait` makes. -/
theorem Shape.sleep_in_kwait {chan : Chan} {lk : Lock} {k : SleepPc} (h : Shape x)
    (hf : f ∈ x) (hfn : f.fn = .kwait) (hs : .sleep p chan lk k ∈ x) :
    chan = .proc p ∧ lk = .wait_lock := by
  obtain ⟨fs, st, rfl⟩ := append_of_mem hs
  have hplaced := (Shape.suffix fs h).1
  rcases hplaced with ⟨m, locks, a0, st', rfl, hm, -⟩ | ⟨addr, a0, st', rfl, hc, hl⟩
  · -- below is other code, and below that the user's code or `kexit`
    exfalso
    have hsuf := (Shape.suffix fs h).2
    rcases mem_append.mp hf with hf₁ | hf₁
    · have := h.above_sleep fs f hf₁
      cases f <;> cases hfn
      cases this
    · rcases mem_cons.mp hf₁ with rfl | hf₁
      · cases hfn
      · rcases mem_cons.mp hf₁ with rfl | hf₂
        · cases hfn
        · cases m with
          | user =>
            rw [show st' = [] from hsuf.1] at hf₂
            cases hf₂
          | files =>
            obtain ⟨r, status, j, st'', rfl⟩ := hsuf.1
            obtain ⟨locks', a, rfl⟩ := hsuf.2.1
            rcases mem_cons.mp hf₂ with rfl | hf₂
            · cases hfn
            · rw [mem_singleton.mp hf₂] at hfn
              cases hfn
          | intr => exact absurd rfl hm
  · exact ⟨hc, hl⟩

/-- **No wakeup is lost.** For any interleaving, on any number of CPUs: when a process is in a call
of `sleep(chan, lk)`, another process acquires `lk`, then calls `wakeup(chan)`, and that call is about
to return, then the process does not sleep in that call any more. And while `wait_lock` is free, no
process sleeps inside `kwait` while a child of it is a zombie. -/
theorem no_lost_wakeup :
    (∀ (s₁ s₂ s₃ s₄ : KState) (e : KEv) (p b n m : ℕ) (chan : Chan) (lk : Lock) (i : ℕ), b ≠ p →
      Run kStep (fun _ _ => True) kInit s₁ → InSleep p n chan lk s₁ →
      (s₁.cpu e.cpu).proc = some b → s₁.lock lk = none →
      kStep s₁ e = .ok s₂ → s₂.lock lk = some e.cpu →
      Run kStep (fun s _ => InSleep p n chan lk s) s₂ s₃ →
      Active s₃ b m (.wakeup (some chan) 0 .test) →
      Run kStep (fun s _ => InSleep p n chan lk s ∧ InWakeup b m chan s) s₃ s₄ →
      Active s₄ b m (.wakeup (some chan) i .test) → NPROC ≤ i →
      InSleep p n chan lk s₄ → (s₄.proc p).state ≠ .SLEEPING) ∧
    ∀ s, Run kStep (fun _ _ => True) kInit s → s.lock .wait_lock = none →
      ∀ p x i, Thread s p x → (∃ f ∈ x, f.fn = .kwait) → (s.proc p).state = .SLEEPING →
        (s.proc i).parent = some p → (s.proc i).state ≠ .ZOMBIE := by
  refine ⟨fun s₁ s₂ s₃ s₄ e p b n m chan lk i hbp h₁ hin _ hfree hacq _ h₃ hwake h₄ hend hi hin₄ => ?_,
    fun s h hfree p x i ht hkw hσ hpar hz => ?_⟩
  · have hinv := SleepersInv.run h₁
    obtain ⟨k₁, hk₁⟩ := hin
    have hrel₂ : ∀ k, Active s₂ p n (.sleep p chan lk k) → k.released = true := fun k hk =>
      (sleep_step hinv.machine hacq hk₁ hk
        (sleep_holds hinv.machine hinv.family.shape hk₁ hfree)).1
    obtain ⟨hinv₃, hrel₃⟩ := h₃.released (hinv.step hacq) hrel₂
    obtain ⟨k₄, hk₄⟩ := hin₄
    have hinv₄ := h₄.invariant (I := SleepersInv) hinv₃ fun _ _ _ hi _ hs => hi.step hs
    have hlt : p < NPROC := by
      by_contra hge
      obtain ⟨x, ht, -⟩ := hk₄
      have hun := hinv₄.family.range p (by omega)
      rcases ht with ⟨c, hex⟩ | ⟨-, hl, -⟩
      · exact hinv₄.machine.executes_ne_unused hex hun
      · rw [hun] at hl
        cases hl
    exact (h₄.woken hinv₃ hbp hrel₃ hwake k₄ i .test hk₄ hend (.inl (by omega))).1
  · have hinv := SleepersInv.run h
    obtain ⟨f, hf, hfn⟩ := hkw
    obtain ⟨chan, lk, k, hm, -⟩ := hinv.sleeps.asleep p x ht hσ
    obtain ⟨rfl, rfl⟩ := (hinv.family.shape p x ht).sleep_in_kwait hf hfn hm
    obtain ⟨-, c, hw⟩ := (NapInv.run h).naps p i ⟨x, k, ht, hm, .inr (.inr hσ)⟩ hpar hz
    -- whoever is about to wake `initproc` holds `wait_lock`
    have hheld : Lock.wait_lock ∈ (s.cpu c).exec.held := by
      rcases hw with ⟨r, status, j, st, hx⟩ | ⟨chan, j, w, r, status, j', st, hx, -⟩ <;> rw [hx] <;>
        simp [Exec.held, heldBy, Frame.held]
    rw [(hinv.machine.locks.lock _ c).mpr hheld] at hfree
    cases hfree

/-! ### A wakeup -/

/-- Is the activation at height 1 a call of `sleep(3, 7)` of the first process? -/
def isSleep (x : List Frame) : Bool :=
  match (x.reverse[1]? : Option Frame) with
  | some (.sleep p chan lk _) => decide (p = 0 ∧ chan = .other 3 ∧ lk = .other 7)
  | _ => false

/-- The slot and control point of the call of `wakeup(3)` at height 1. -/
def wakeupAt (x : List Frame) : Option (ℕ × WakeupPc) :=
  match (x.reverse[1]? : Option Frame) with
  | some (.wakeup chan i w) => if chan = some (.other 3) then some (i, w) else none
  | _ => none

/-- Is it a thread that the CPU executes? -/
def Exec.isThread : Exec → Bool
  | .thread _ => true
  | .scheduler _ _ => false

/-- Is the first process in that call of `sleep`, on CPU 0 or waiting to be resumed? -/
def firstSleeps (s : KState) : Bool :=
  match (s.cpu 0).exec, (s.cpu 0).proc with
  | .thread x, some 0 => isSleep x
  | _, _ =>
    decide ((s.proc 0).state ≠ .RUNNING ∧ (s.proc 0).state.live = true) &&
      (match s.lock (.proc 0) with
      | some c => !((s.cpu c).exec.isThread && decide ((s.cpu c).proc = some 0))
      | none => true) && isSleep (s.proc 0).context

/-- Where its child is in that call of `wakeup`, on CPU 1. -/
def childWakes (s : KState) : Option (ℕ × WakeupPc) :=
  match (s.cpu 1).exec, (s.cpu 1).proc with
  | .thread x, some 1 => wakeupAt x
  | _, _ => none

theorem isSleep_iff (h : isSleep x = true) :
    ∃ k, x.reverse[1]? = some (.sleep 0 (.other 3) (.other 7) k) := by
  unfold isSleep at h
  split at h
  · rename_i p chan lk k hx
    obtain ⟨rfl, rfl, rfl⟩ := of_decide_eq_true h
    exact ⟨k, hx⟩
  · cases h

theorem inSleep_of_firstSleeps (h : KInv s) (hc : firstSleeps s = true) :
    InSleep 0 1 (.other 3) (.other 7) s := by
  unfold firstSleeps at hc
  split at hc
  · rename_i x hx hp
    obtain ⟨k, hk⟩ := isSleep_iff hc
    exact ⟨k, x, .inl ⟨0, hp, hx⟩, hk⟩
  · simp only [Bool.and_eq_true, decide_eq_true_eq] at hc
    obtain ⟨⟨⟨hσ, hlive⟩, hlock⟩, hsl⟩ := hc
    obtain ⟨k, hk⟩ := isSleep_iff hsl
    refine ⟨k, _, .inr ⟨?_, hlive, rfl⟩, hk⟩
    -- if it executed, it would hold its lock
    rintro ⟨c, st, hex⟩
    have hheld := (h.procs.stackOk hex).own_held (h.own_state hex ▸ hσ)
    rw [(h.locks.lock (.proc 0) c).mpr (by rw [hex.2]; exact hheld)] at hlock
    simp [hex.1, hex.2, Exec.isThread] at hlock

theorem active_of_childWakes {i : ℕ} {w : WakeupPc} (hc : childWakes s = some (i, w)) :
    Active s 1 1 (.wakeup (some (.other 3)) i w) := by
  unfold childWakes at hc
  split at hc
  · rename_i x hx hp
    unfold wakeupAt at hc
    split at hc
    · rename_i chan j w' hw
      split at hc
      · rename_i hchan
        subst hchan
        cases hc
        exact ⟨x, .inl ⟨1, hp, hx⟩, hw⟩
      · cases hc
    · cases hc
  · cases hc

theorem inWakeup_of_childWakes (hc : (childWakes s).isSome = true) : InWakeup 1 1 (.other 3) s := by
  obtain ⟨⟨i, w⟩, hw⟩ := Option.isSome_iff_exists.mp hc
  exact ⟨i, w, active_of_childWakes hw⟩

/-- CPU 0 runs the first process, which has forked and calls `sleep(3, 7)`; it has released lock 7.
CPU 1 runs the child. -/
def sleeping₁ : KState :=
  (runList kStep kInit
    (List.replicate 7 ⟨0, .step⟩ ++ [⟨0, .kfork⟩] ++ List.replicate 22 ⟨0, .step⟩ ++
      List.replicate 10 ⟨1, .step⟩ ++
      [⟨0, .acquire 7⟩, ⟨0, .sleep 3 7⟩, ⟨0, .step⟩, ⟨0, .step⟩])).getD kInit

/-- The child has acquired lock 7. -/
def sleeping₂ : KState := (kStep sleeping₁ ⟨1, .acquire 7⟩).getD kInit

/-- The first process has left its CPU, and the child calls `wakeup(3)`. -/
def sleeping₃ : KState :=
  (runList kStep sleeping₂ (List.replicate 7 ⟨0, .step⟩ ++ [⟨1, .wakeup 3⟩])).getD kInit

/-- The call of `wakeup` is about to return. -/
def sleeping₄ : KState := (runList kStep sleeping₃ (List.replicate 253 ⟨1, .step⟩)).getD kInit

theorem no_lost_wakeup_sleeping :
    (sleeping₃.proc 0).state = .SLEEPING ∧ (sleeping₄.proc 0).state ≠ .SLEEPING := by
  have hstep : ∀ s e s', KInv s → kStep s e = .ok s' → KInv s' := fun _ _ _ hi hs => hi.step hs
  have h₁ : Run kStep (fun _ _ => True) kInit sleeping₁ :=
    .of_checkList (c := fun _ _ => true) (fun _ _ _ => trivial) (by decide +kernel) _
  have hi₁ : KInv sleeping₁ := KInv.run h₁
  have hs₁ : kStep sleeping₁ ⟨1, .acquire 7⟩ = .ok sleeping₂ := rfl
  have hi₂ := hi₁.step hs₁
  have h₃ : Run kStep (fun s _ => InSleep 0 1 (.other 3) (.other 7) s) sleeping₂ sleeping₃ :=
    .of_checkList_inv (c := fun s _ => firstSleeps s) hstep
      (fun _ _ hi hc => inSleep_of_firstSleeps hi hc) hi₂ (by decide +kernel) _
  have hi₃ : KInv sleeping₃ := h₃.invariant hi₂ fun _ _ _ hi _ hs => hi.step hs
  have h₄ : Run kStep (fun s _ => InSleep 0 1 (.other 3) (.other 7) s ∧ InWakeup 1 1 (.other 3) s)
      sleeping₃ sleeping₄ :=
    .of_checkList_inv (c := fun s _ => firstSleeps s && (childWakes s).isSome) hstep
      (fun _ _ hi hc => ⟨inSleep_of_firstSleeps hi (Bool.and_eq_true_iff.mp hc).1,
        inWakeup_of_childWakes (Bool.and_eq_true_iff.mp hc).2⟩) hi₃ (by decide +kernel) _
  have hi₄ : KInv sleeping₄ := h₄.invariant hi₃ fun _ _ _ hi _ hs => hi.step hs
  exact ⟨by decide +kernel, no_lost_wakeup.1 _ _ _ _ _ 0 1 1 1 (.other 3) (.other 7) 64
    (by decide) h₁ (inSleep_of_firstSleeps hi₁ (by decide +kernel)) rfl rfl hs₁ rfl h₃
    (active_of_childWakes (by decide +kernel)) h₄ (active_of_childWakes (by decide +kernel))
    (by decide)
    (inSleep_of_firstSleeps hi₄ (by decide +kernel))⟩

end Xv6
