import Xv6.Pid

/-!
# What the locks of `proc.c` guard

`proc.h` names a lock for each field of a process: `parent` must be used under
`wait_lock`, the others under `p->lock`; `nextpid` goes with `pid_lock`. A step
changes none of these without the lock (`Lock.Keeps.step`), so a CPU that holds
one finds what the lock guards as it has left it, whatever the other CPUs do
(`locks_guard`). The one field that is written without its lock is the parent of
a process that `kfork` gives up: `freeproc` clears it, but it has not been set.
-/

namespace Xv6

variable {s s' t : KState} {e : KEv} {c : ℕ} {l : Lock}

/-- What a lock guards has not changed. -/
def Lock.Keeps (s s' : KState) : Lock → Prop
  | .proc n => ∃ v, s'.proc n = { s.proc n with parent := v }
  | .wait_lock => ∀ n, (s'.proc n).parent = (s.proc n).parent
  | .pid_lock => s'.nextpid = s.nextpid
  | .other _ => True

namespace Lock.Keeps

theorem refl (s : KState) (l : Lock) : l.Keeps s s := by
  cases l with
  | proc n => exact ⟨_, rfl⟩
  | wait_lock => exact fun _ => rfl
  | pid_lock => rfl
  | other n => trivial

theorem trans (h : l.Keeps s s') (h' : l.Keeps s' t) : l.Keeps s t := by
  cases l with
  | proc n =>
    obtain ⟨v, hv⟩ := h
    obtain ⟨v', hv'⟩ := h'
    exact ⟨v', by rw [hv', hv]⟩
  | wait_lock => exact fun n => (h' n).trans (h n)
  | pid_lock => exact Eq.trans h' h
  | other n => trivial

/-- **What a lock guards is changed under this lock only.** -/
theorem step (hi : FamilyInv s) (h : KInv s) (hs : kStep s e = .ok s')
    (hl : s.lock l ≠ some e.cpu) : l.Keeps s s' := by
  have hnot : l ∉ (s.cpu e.cpu).exec.held := fun hm => hl ((h.locks.lock l _).mpr hm)
  cases l with
  | proc n => exact h.slot_unlocked hs hnot
  | wait_lock => exact hi.parent_eq h hs hnot
  | pid_lock => exact (nextpid_step hs).resolve_right fun hn => hnot hn.1
  | other n => trivial

end Lock.Keeps

/-- A lock is given back by the CPU that holds it. -/
theorem KInv.lock_other (h : KInv s) (hs : kStep s e = .ok s') (hl : s.lock l = some c)
    (hc : e.cpu ≠ c) : s'.lock l = some c := by
  rw [(h.step hs).locks.lock, cpu_other hs hc.symm]
  exact (h.locks.lock l c).mp hl

/-- **The locks of `proc.c` guard the process table.** A step changes what a lock guards
only on the CPU that holds it. And while a CPU holds a lock, the steps of the others, as
many as there are, leave it the lock and what it guards. -/
theorem locks_guard (h : Run kStep (fun _ _ => True) kInit s) (l : Lock) :
    (∀ e s', kStep s e = .ok s' → s.lock l ≠ some e.cpu → l.Keeps s s') ∧
    ∀ c t, s.lock l = some c → Run kStep (fun _ e => e.cpu ≠ c) s t →
      t.lock l = some c ∧ l.Keeps s t := by
  have hinv : KInv s ∧ FamilyInv s :=
    h.invariant (I := fun s => KInv s ∧ FamilyInv s) ⟨KInv.init, FamilyInv.start⟩
      fun s e s' hi _ hs => ⟨hi.1.step hs, hi.2.step hi.1 hs⟩
  refine ⟨fun e s' hs hl => .step hinv.2 hinv.1 hs hl, fun c t hl hrun => ?_⟩
  -- the invariant of the steps of the others
  have hkeep : (KInv t ∧ FamilyInv t) ∧ t.lock l = some c ∧ l.Keeps s t := by
    refine hrun.invariant (I := fun t => (KInv t ∧ FamilyInv t) ∧ t.lock l = some c ∧ l.Keeps s t)
      ⟨hinv, hl, .refl s l⟩ ?_
    rintro t e t' ⟨⟨hk, hf⟩, hl, hkeeps⟩ hc hs
    have hne : t.lock l ≠ some e.cpu := fun he => hc (Option.some.inj (he.symm.trans hl))
    exact ⟨⟨hk.step hs, hf.step hk hs⟩, hk.lock_other hs hl hc, hkeeps.trans (.step hf hk hs hne)⟩
  exact hkeep.2

/-- While CPU 1 is about to switch to the child, the parent calls `kkill` for it. -/
theorem locks_guard_forkedState : forkedState.lock (.proc 1) = some 1 ∧
    ∃ t, Run kStep (fun _ e => e.cpu ≠ 1) forkedState t ∧ t.lock (.proc 1) = some 1 ∧
      Lock.Keeps forkedState t (.proc 1) := by
  have hl : forkedState.lock (.proc 1) = some 1 := by decide +kernel
  have hrun : Run kStep (fun _ e => e.cpu ≠ 1) forkedState _ :=
    .of_checkList (c := fun _ e => decide (e.cpu ≠ 1)) (fun _ _ h => of_decide_eq_true h)
      (show checkList kStep _ forkedState (⟨0, .kkill 2⟩ :: List.replicate 3 ⟨0, .step⟩) = true by
        decide +kernel) forkedState
  exact ⟨hl, _, hrun, (locks_guard (.of_checkList (c := fun _ _ => true) (fun _ _ _ => trivial)
    (by decide +kernel) kInit) (.proc 1)).2 1 _ hl hrun⟩

end Xv6
