import Mathlib.Algebra.BigOperators.Group.Finset.Basic
import Xv6.ProcStack

/-!
# Parents and children (`kfork`, `kexit`, `kwait`)

`p->parent` is guarded by `wait_lock`. The invariant (`FamilyInv`) says that

* every process that has been forked has a parent, until it is freed;
* a parent is a process that has not exited: a process that becomes a zombie
  holds `wait_lock` and has given all its children to `initproc`.
-/

namespace Xv6

open List

variable {s s' : KState} {e : KEv} {c p q i n : ℕ} {st : List Frame} {f g : Frame}

/-- What the activations of `kfork`, `kexit` and `kwait` know of parents. -/
def FamilyKnows (s : KState) : Frame → Prop
  | .kfork _ i _ k =>
    match k with
    | .acquire | .releaseFail | .releaseLast => True
    | .check | .release | .pidAcquire | .pidTake | .pidRelease | .setPid | .setUsed => i < NPROC
    | .trapframe | .pagetable | .setContext | .copy | .freeproc | .releaseNp | .waitAcquire
    | .setParent => i < NPROC ∧ (s.proc i).parent = none
    | .waitRelease | .acquireNp | .setRunnable => i < NPROC ∧ (s.proc i).parent ≠ none
  | .kexit p _ i k =>
    match k with
    | .start => True
    | .files | .waitAcquire | .waitRelease | .sched | .dead => p ≠ initproc
    | .reparent => p ≠ initproc ∧ ∀ j < i, (s.proc j).parent ≠ some p
    | .setParent => p ≠ initproc ∧ i < NPROC ∧ (s.proc i).parent = some p ∧
        ∀ j < i, (s.proc j).parent ≠ some p
    | .wakeInit => p ≠ initproc ∧ ∀ j < i + 1, (s.proc j).parent ≠ some p
    | .wakeParent | .acquire | .setXstate | .setState =>
      p ≠ initproc ∧ ∀ j, (s.proc j).parent ≠ some p
  | .kwait p _ i _ a0 k =>
    match k with
    | .childAcquire | .childCheck | .failRelease => (s.proc i).parent = some p
    | .copyout | .freeproc => (s.proc i).parent = some p ∧ a0 = (s.proc i).pid
    | _ => True
  | _ => True

/-- **The invariant of parents and children.** -/
structure FamilyInv (s : KState) : Prop where
  /-- the stacks are built from calls -/
  shape : ∀ p st, Thread s p st → Shape st
  /-- there are no slots from `NPROC` on -/
  range : ∀ i, NPROC ≤ i → (s.proc i).state = .UNUSED
  /-- free slots have no parent -/
  unused : ∀ i, (s.proc i).state = .UNUSED → (s.proc i).parent = none
  /-- parents have not exited -/
  parents : ∀ i q, (s.proc i).parent = some q → (s.proc q).state.live = true
  /-- processes have parents -/
  orphans : ∀ i, i ≠ initproc → (s.proc i).state.live = true ∨ (s.proc i).state = .ZOMBIE →
    (s.proc i).parent ≠ none
  /-- the first process does not exit -/
  init : (s.proc initproc).state.live = true
  /-- what activations know -/
  knows : ∀ p st, Thread s p st → ∀ f ∈ st, FamilyKnows s f

/-- What is known depends on the parents, and on the pid of the child `kwait` has locked. -/
theorem FamilyKnows.congr (h : FamilyKnows s f)
    (hpar : ∀ n, (s'.proc n).parent = (s.proc n).parent)
    (hpid : ∀ n, Lock.proc n ∈ f.held → (s'.proc n).pid = (s.proc n).pid) : FamilyKnows s' f := by
  cases f with
  | kfork p i pid k => cases k <;> simp only [FamilyKnows, hpar] at h ⊢ <;> exact h
  | kexit p status i k => cases k <;> simp only [FamilyKnows, hpar] at h ⊢ <;> exact h
  | kwait p addr i hk a0 k =>
    cases k with
    | copyout | freeproc =>
      simp only [FamilyKnows, hpar] at h ⊢
      rw [hpid i (by simp [Frame.held])]
      exact h
    | childAcquire | childCheck | failRelease => exact (hpar i).trans h
    | _ => trivial
  | _ => trivial

namespace FamilyInv

section

variable (hi : FamilyInv s) (h : KInv s)
include hi h

/-- What the activation on top of a thread knows. -/
theorem top {mk : List Frame → Exec} (hr : Runs s c mk (f :: st)) (hf : f.isHandler = false) :
    FamilyKnows s f := by
  obtain ⟨-, p, hex, -⟩ := h.executes hr hf
  exact hi.knows p _ (.inl ⟨c, hex⟩) f mem_cons_self

/-- Parents change under `wait_lock` only. -/
theorem parent_eq (hs : kStep s e = .ok s') (hw : Lock.wait_lock ∉ (s.cpu e.cpu).exec.held) (n : ℕ) :
    (s'.proc n).parent = (s.proc n).parent := by
  rcases slotStep h hs n with heq | ⟨hr, hwr, rfl⟩ | ⟨-, hp⟩ | ⟨-, hp⟩ | ⟨-, hp⟩
  · rw [heq]
  · rename_i mk f st u g
    have hno : Lock.wait_lock ∉ f.held := fun hm => hw (hr.mem_held hm)
    rw [goto_proc, setProc_eq]
    cases hwr with
    | forkParent | exitParent | waitFree => exact absurd (by simp [Frame.held]) hno
    | forkFree => exact (hi.top h hr rfl).2.symm
    | _ => rfl
  all_goals rw [hp]

/-- What is above an activation of `kfork`, `kexit` or `kwait` writes neither parents nor pids. -/
theorem below_eq (hs : kStep s e = .ok s') (hex : Executes s e.cpu p (g :: st)) (hf : f ∈ st)
    (hfn : f.fn = .kfork ∨ f.fn = .kexit ∨ f.fn = .kwait) (n : ℕ) :
    (s'.proc n).parent = (s.proc n).parent ∧ (s'.proc n).pid = (s.proc n).pid := by
  -- those are called by the user's code, with nothing below it
  have hno : ¬∃ locks a0, st = [.code .user locks a0] := by
    rintro ⟨locks, a0, rfl⟩
    rw [mem_singleton.mp hf] at hfn
    simp [Frame.fn] at hfn
  have hpl := (hi.shape p _ (.inl ⟨_, hex⟩)).1
  rcases slotStep h hs n with heq | ⟨⟨hx, hmk⟩, hwr, rfl⟩ | ⟨-, hp⟩ | ⟨-, hp⟩ | ⟨-, hp⟩
  · rw [heq]
    exact ⟨rfl, rfl⟩
  · rcases hmk with rfl | ⟨⟨k, rfl⟩, -⟩
    · obtain ⟨rfl, rfl⟩ := List.cons.inj (Exec.thread.inj (hex.2.symm.trans hx))
      rw [goto_proc, setProc_eq]
      cases hwr with
      | yieldState | sleepChan | sleepState | sleepClear | wakeup => exact ⟨rfl, rfl⟩
      | _ => exact absurd hpl hno
    · cases hex.2.symm.trans hx
  all_goals
    rw [hp]
    exact ⟨rfl, rfl⟩

/-- The parent of a slot that `kfork` is filling is set by that `kfork`, and then changed to
another one at most. -/
theorem parent_filling (hs : kStep s e = .ok s') (ht : Thread s p st)
    (hnot : ∀ x, ¬Executes s e.cpu p x) (hf : f ∈ st) (hc : f.claim = some (i, .USED)) :
    (s'.proc i).parent = (s.proc i).parent ∨
      (s.proc i).parent ≠ none ∧ (s'.proc i).parent ≠ none := by
  rcases slotStep h hs i with heq | ⟨hr, hwr, rfl⟩ | ⟨-, hp⟩ | ⟨-, hp⟩ | ⟨-, hp⟩
  · exact .inl (by rw [heq])
  · rename_i mk g st' u g'
    -- another activation does not fill the same slot
    have hother : g.claim = some (i, .USED) → g.isHandler = false → False := by
      intro hg hh
      obtain ⟨rfl, r, hex, -⟩ := h.executes hr hh
      obtain rfl := h.procs.fillUniq p r _ _ i ht (.inl ⟨_, hex⟩) (mem_filling.mpr ⟨f, hf, hc⟩)
        (mem_filling.mpr ⟨g, mem_cons_self, hg⟩)
      exact hnot _ hex
    rw [goto_proc, setProc_eq]
    cases hwr with
    | forkParent | forkFree => exact (hother rfl rfl).elim
    | waitFree =>
      have hz := (h.claim hr rfl i .ZOMBIE rfl).1
      rw [(h.procs.claims p st ht f hf i .USED hc).1] at hz
      cases hz
    | exitParent =>
      have hk := (hi.top h hr rfl).2.2.1
      exact .inr ⟨by rw [hk]; simp, by simp⟩
    | _ => exact .inl rfl
  all_goals exact .inl (by rw [hp])

/-- What an activation of another thread knows stays true. -/
theorem knows_other (hs : kStep s e = .ok s') (ht : Thread s p st)
    (hnot : ∀ x, ¬Executes s e.cpu p x) (hf : f ∈ st) : FamilyKnows s' f := by
  have hk := hi.knows p st ht f hf
  by_cases hw : f.waits = true
  · -- it holds `wait_lock`, and the lock of the child it looks at
    obtain ⟨c, hex, hwl⟩ := h.waits_holder hi.shape ht hf hw
    have hc : c ≠ e.cpu := by
      rintro rfl
      exact hnot _ hex
    refine hk.congr (hi.parent_eq h hs fun hm => hc (h.locks.cpu_eq hwl hm)) fun n hn => ?_
    have hl : Lock.proc n ∈ (s.cpu c).exec.held := by
      rw [hex.2]
      exact (h.procs.stackOk hex).mem_heldBy hf hn
    obtain ⟨v, hv⟩ := h.slot_unlocked hs fun hm => hc (h.locks.cpu_eq hl hm)
    rw [hv]
  · cases f with
    | kfork q i pid k =>
      have hfill := hi.parent_filling h hs ht hnot hf (i := i)
      cases k with
      | trapframe | pagetable | setContext | copy | freeproc | releaseNp | waitAcquire
      | setParent =>
        refine ⟨hk.1, ?_⟩
        rcases hfill rfl with heq | ⟨hne, -⟩
        · rw [heq]
          exact hk.2
        · exact absurd hk.2 hne
      | waitRelease | acquireNp | setRunnable =>
        refine ⟨hk.1, ?_⟩
        rcases hfill rfl with heq | ⟨-, hne⟩
        · rw [heq]
          exact hk.2
        · exact hne
      | _ => exact hk
    | kexit q status i k => cases k <;> first | exact hk | exact absurd rfl hw
    | kwait q addr i hk' a0 k => cases k <;> trivial
    | _ => trivial

theorem forkTurn {i : ℕ} {pid : ℤ} {k : ForkPc} {fail : Bool}
    (hf : FamilyKnows s (.kfork q i pid k)) (hex : Executes s c p (.kfork q i pid k :: st))
    (hrun : s.run c .thread st (kforkInstr s q i pid fail k) = .ok s') :
    ∀ g ∈ (kforkInstr s q i pid fail k).next s.nextpid, FamilyKnows s' g := by
  cases k with
  | acquire =>
    simp only [kforkInstr]
    split_ifs with hlt
    · simpa [Instr.next, FamilyKnows] using hlt
    · simp [Instr.next]
  | check =>
    simp only [kforkInstr]
    split_ifs <;> simpa [Instr.next, FamilyKnows] using hf
  | pidAcquire | pidTake | pidRelease | setPid =>
    simpa [kforkInstr, Instr.next, FamilyKnows] using hf
  | setUsed =>
    cases hrun
    have hun := (h.claim ⟨hex.2, .inl rfl⟩ rfl i .UNUSED rfl).1
    simpa [kforkInstr, Instr.next, FamilyKnows, setProc_eq] using ⟨hf, hi.unused i hun⟩
  | trapframe | pagetable | copy =>
    cases hrun
    cases fail <;> simpa [kforkInstr, Instr.next, FamilyKnows] using hf
  | setContext =>
    cases hrun
    simpa [kforkInstr, Instr.next, FamilyKnows, setProc_eq] using hf
  | releaseNp | waitRelease =>
    have hp := release_proc hrun
    simpa [kforkInstr, Instr.next, FamilyKnows, hp] using hf
  | waitAcquire | acquireNp =>
    have hp := acquire_proc hrun
    simpa [kforkInstr, Instr.next, FamilyKnows, hp] using hf
  | setParent =>
    cases hrun
    simpa [kforkInstr, Instr.next, FamilyKnows, setProc_eq] using hf.1
  | _ => simp [kforkInstr, Instr.next, FamilyKnows]

end

theorem exitTurn {status : ℤ} {i : ℕ} {k : ExitPc} (hi : FamilyInv s)
    (hf : FamilyKnows s (.kexit q status i k))
    (hrun : s.run c .thread st (kexitInstr s q status i k) = .ok s') :
    ∀ g ∈ (kexitInstr s q status i k).next s.nextpid, FamilyKnows s' g := by
  cases k with
  | start =>
    simp only [kexitInstr]
    split_ifs with hq
    · simp [Instr.next]
    · simpa [Instr.next, FamilyKnows] using hq
  | waitAcquire | files | waitRelease | sched =>
    simpa [kexitInstr, Instr.next, FamilyKnows] using hf
  | reparent =>
    simp only [kexitInstr] at hrun ⊢
    split_ifs at hrun ⊢ with hlt hpar
    · cases hrun
      simpa [Instr.next, FamilyKnows] using ⟨hf.1, hlt, hpar, hf.2⟩
    · cases hrun
      refine forall_mem_singleton.mpr ⟨hf.1, fun j hj => ?_⟩
      rcases Nat.lt_succ_iff_lt_or_eq.mp hj with hj | rfl
      · exact hf.2 j hj
      · exact hpar
    · -- the loop has come to its end
      cases hrun
      refine forall_mem_singleton.mpr ⟨hf.1, fun j => ?_⟩
      by_cases hj : j < NPROC
      · exact hf.2 j (by omega)
      · rw [goto_proc, hi.unused j (hi.range j (by omega))]
        simp
  | setParent =>
    cases hrun
    obtain ⟨h0, -, -, hlt⟩ := hf
    refine forall_mem_singleton.mpr ⟨h0, fun j hj => ?_⟩
    rcases Nat.lt_succ_iff_lt_or_eq.mp hj with hj | rfl
    · rw [goto_proc, setProc_ne (by omega)]
      exact hlt j hj
    · rw [goto_proc, setProc_eq]
      simpa using h0.symm
  | wakeInit =>
    cases hrun
    simpa [kexitInstr, Instr.next, FamilyKnows] using hf
  | wakeParent =>
    cases hrun
    simpa [kexitInstr, Instr.next, FamilyKnows] using hf
  | acquire =>
    have hp := acquire_proc hrun
    simpa [kexitInstr, Instr.next, FamilyKnows, hp] using hf
  | setXstate =>
    cases hrun
    refine forall_mem_singleton.mpr ⟨hf.1, fun j => ?_⟩
    by_cases hj : j = q
    · subst hj
      rw [goto_proc, setProc_eq]
      exact hf.2 j
    · rw [goto_proc, setProc_ne hj]
      exact hf.2 j
  | setState => simpa [kexitInstr, Instr.next, FamilyKnows] using hf.1
  | dead => simp [kexitInstr, Instr.next]

theorem waitTurn {addr : Bool} {i : ℕ} {hk : Bool} {a0 : ℤ} {fail : Bool} {k : WaitPc}
    (hf : FamilyKnows s (.kwait q addr i hk a0 k))
    (hrun : s.run c .thread st (kwaitInstr s q addr i hk a0 fail k) = .ok s') :
    ∀ g ∈ (kwaitInstr s q addr i hk a0 fail k).next s.nextpid, FamilyKnows s' g := by
  cases k with
  | scan =>
    simp only [kwaitInstr] at hrun ⊢
    split_ifs at hrun ⊢ with hlt hpar
    · cases hrun
      simpa [Instr.next, FamilyKnows] using hpar
    · simp [Instr.next, FamilyKnows]
    · simp [Instr.next, FamilyKnows]
  | childAcquire =>
    have hp := acquire_proc hrun
    simpa [kwaitInstr, Instr.next, FamilyKnows, hp] using hf
  | childCheck =>
    simp only [kwaitInstr] at hrun ⊢
    split_ifs at hrun ⊢ with hz
    · cases hrun
      simpa [Instr.next, FamilyKnows] using hf
    · simp [Instr.next, FamilyKnows]
  | copyout =>
    cases hrun
    refine forall_mem_singleton.mpr ?_
    split_ifs
    · exact hf.1
    · exact hf
  | done =>
    simp only [kwaitInstr]
    split_ifs <;> simp [Instr.next, FamilyKnows]
  | killedRelease b => cases b <;> simp [kwaitInstr, Instr.next, FamilyKnows]
  | _ => simp [kwaitInstr, Instr.next, FamilyKnows]

/-- How `kfork`, `kexit` and `kwait` learn what they know. -/
theorem turn (hi : FamilyInv s) (h : KInv s) {ch : Choice} {j : Instr}
    (hex : Executes s c p (f :: st)) (hj : instr s c f ch = some j)
    (hrun : s.run c .thread st j = .ok s') : ∀ g ∈ j.next s.nextpid, FamilyKnows s' g := by
  have hf := hi.knows p _ (.inl ⟨c, hex⟩) f mem_cons_self
  cases f with
  | kfork q i pid k =>
    simp only [instr] at hj
    split_ifs at hj
    cases hj
    exact hi.forkTurn h hf hex hrun
  | kexit q status i k =>
    simp only [instr] at hj
    split_ifs at hj
    cases hj
    exact hi.exitTurn hf hrun
  | kwait q addr i hk a0 k =>
    simp only [instr] at hj
    split_ifs at hj
    cases hj
    exact waitTurn hf hrun
  | code m locks a0 =>
    simp only [instr, codeInstr] at hj
    split at hj <;> (try split_ifs at hj) <;> cases hj <;> simp [Instr.next, FamilyKnows]
  | _ =>
    intro g hg
    have hfn := instr_fn hj hg
    cases g <;> simp_all [FamilyKnows, Frame.fn, Fn.callees]

theorem knows_step (hi : FamilyInv s) (h : KInv s) (hs : kStep s e = .ok s')
    (ht : Thread s' p st) (hf : f ∈ st) : FamilyKnows s' f := by
  rcases h.threadStep hs ht with ⟨ht', hnot⟩ | ⟨hex, hj, hrun, rfl⟩ | ⟨hex, -, hd, hp, rfl⟩ |
    ⟨-, -, -, rfl⟩
  · exact hi.knows_other h hs ht' hnot hf
  · rename_i g st j
    rcases mem_stack hf with hf | hf | ⟨m, locks, a0, rfl⟩
    · exact hi.turn h hex hj hrun f hf
    · have hk := hi.knows p _ (.inl ⟨_, hex⟩) f (mem_cons_of_mem _ hf)
      have heq := hi.below_eq h hs hex hf
      cases f with
      | kfork => exact hk.congr (fun n => (heq (.inl rfl) n).1) fun n _ => (heq (.inl rfl) n).2
      | kexit =>
        exact hk.congr (fun n => (heq (.inr (.inl rfl)) n).1)
          fun n _ => (heq (.inr (.inl rfl)) n).2
      | kwait =>
        exact hk.congr (fun n => (heq (.inr (.inr rfl)) n).1)
          fun n _ => (heq (.inr (.inr rfl)) n).2
      | _ => trivial
    · trivial
  · rcases mem_cons.mp hf with rfl | hf
    · rcases hd with rfl | rfl <;> trivial
    · exact (hi.knows p _ (.inl ⟨_, hex⟩) f hf).congr (fun n => by rw [hp]) fun n _ => by rw [hp]
  · rw [mem_singleton.mp hf]
    trivial

/-! ### The slots -/

/-- A process whose thread can be resumed exits, or stays so. -/
theorem live_step (h : KInv s) (hs : kStep s e = .ok s') (hl : (s.proc n).state.live = true) :
    (s'.proc n).state.live = true ∨
      ∃ status i st, Executes s e.cpu n (.kexit n status i .setState :: st) := by
  rcases slotStep h hs n with heq | ⟨hr, hwr, rfl⟩ | ⟨-, hp⟩ | ⟨-, hp⟩ | ⟨-, hp⟩
  · exact .inl (heq ▸ hl)
  · rw [goto_proc, setProc_eq]
    -- a slot that is claimed has no thread
    have hclaim : ∀ {f : Frame} {st σ mk}, Runs s e.cpu mk (f :: st) → f.isHandler = false →
        f.claim = some (n, σ) → False := by
      intro f st σ mk hr hh hc
      have hσ := Frame.claim_not_live hc
      rw [← (h.claim hr hh n σ hc).1, hl] at hσ
      cases hσ
    cases hwr with
    | exitState p status i =>
      obtain ⟨rfl, q, hex, hok⟩ := h.executes hr rfl
      obtain rfl : n = q := hok.1
      exact .inr ⟨status, i, _, hex⟩
    | forkUsed | forkFree | waitFree => exact (hclaim hr rfl rfl).elim
    | yieldState | sleepState | wakeup | killWake | forkRunnable => exact .inl rfl
    | _ => exact .inl hl
  · exact .inl (by rw [hp]; exact hl)
  · exact .inl (by rw [hp]; rfl)
  · exact .inl (by rw [hp]; exact hl)

/-- A free slot is taken by `kfork` only. -/
theorem unused_step (h : KInv s) (hs : kStep s e = .ok s') (hun : (s.proc n).state = .UNUSED) :
    (s'.proc n).state = .UNUSED ∨
      ∃ mk p pid st, Runs s e.cpu mk (.kfork p n pid .setUsed :: st) := by
  rcases slotStep h hs n with heq | ⟨hr, hwr, rfl⟩ | ⟨-, hp⟩ | ⟨hk, -⟩ | ⟨-, hp⟩
  · exact .inl (by rw [heq]; exact hun)
  · rw [goto_proc, setProc_eq]
    cases hwr with
    | forkUsed p i pid => exact .inr ⟨_, p, pid, _, hr⟩
    | yieldState | sleepState | exitState =>
      obtain ⟨-, q, hex, hok⟩ := h.executes hr rfl
      obtain rfl : n = q := hok.1
      exact absurd hun (h.executes_ne_unused hex)
    | wakeup _ _ hσ =>
      rw [hun] at hσ
      cases hσ
    | killWake _ _ hσ =>
      rw [hun] at hσ
      cases hσ
    | forkRunnable =>
      have := (h.claim hr rfl n .USED rfl).1
      rw [hun] at this
      cases this
    | forkFree | waitFree => exact .inl rfl
    | _ => exact .inl hun
  · exact .inl (by rw [hp]; exact hun)
  · have := (h.schedulerOk hk).2.1
    rw [hun] at this
    cases this
  · exact .inl (by rw [hp]; exact hun)

section

variable (hi : FamilyInv s) (h : KInv s) (hs : kStep s e = .ok s')
include hi h hs

theorem unusedParent_step (hun : (s'.proc n).state = .UNUSED) : (s'.proc n).parent = none := by
  rcases slotStep h hs n with heq | ⟨hr, hwr, rfl⟩ | ⟨-, hp⟩ | ⟨-, hp⟩ | ⟨-, hp⟩
  · rw [heq] at hun ⊢
    exact hi.unused n hun
  · rw [goto_proc, setProc_eq] at hun ⊢
    cases hwr with
    | yieldState | sleepState | wakeup | killWake | forkUsed | forkRunnable | exitState => cases hun
    | forkFree | waitFree => rfl
    | forkParent =>
      have := (h.claim hr rfl n .USED rfl).1.symm.trans hun
      cases this
    | exitParent =>
      have := (hi.top h hr rfl).2.2.1
      rw [hi.unused n hun] at this
      cases this
    | _ => exact hi.unused n hun
  all_goals
    rw [hp] at hun ⊢
    first | cases hun | exact hi.unused n hun

theorem parents_step (hpar : (s'.proc i).parent = some q) : (s'.proc q).state.live = true := by
  -- a parent that stays one does not exit
  have hkeep : (s.proc i).parent = some q → (s'.proc q).state.live = true := by
    intro hq
    rcases live_step h hs (hi.parents i q hq) with hl | ⟨status, j, st, hex⟩
    · exact hl
    · exact absurd hq ((hi.knows q _ (.inl ⟨_, hex⟩) _ mem_cons_self).2 i)
  rcases slotStep h hs i with heq | ⟨hr, hwr, hs'⟩ | ⟨-, hp⟩ | ⟨-, hp⟩ | ⟨-, hp⟩
  · exact hkeep (heq ▸ hpar)
  · rw [hs', goto_proc, setProc_eq] at hpar
    cases hwr with
    | forkFree | waitFree => cases hpar
    | forkParent p i pid =>
      obtain rfl := Option.some.inj hpar
      obtain ⟨rfl, r, hex, hok⟩ := h.executes hr rfl
      obtain rfl : p = r := hok.1
      rcases live_step h hs (n := p) (by rw [h.own_state hex]; rfl) with hl | ⟨status, j, st, hex'⟩
      · exact hl
      · cases (List.cons.inj (Exec.thread.inj (hex.2.symm.trans hex'.2))).1
    | exitParent =>
      obtain rfl := Option.some.inj hpar
      rcases live_step h hs hi.init with hl | ⟨status, j, st, hex⟩
      · exact hl
      · exact absurd rfl (hi.knows _ _ (.inl ⟨_, hex⟩) _ mem_cons_self).1
    | _ => exact hkeep hpar
  all_goals exact hkeep (by rw [hp] at hpar; exact hpar)

theorem orphans_step (h0 : i ≠ initproc)
    (hσ : (s'.proc i).state.live = true ∨ (s'.proc i).state = .ZOMBIE) :
    (s'.proc i).parent ≠ none := by
  rcases slotStep h hs i with heq | ⟨hr, hwr, rfl⟩ | ⟨-, hp⟩ | ⟨hk, hp⟩ | ⟨-, hp⟩
  · rw [heq] at hσ ⊢
    exact hi.orphans i h0 hσ
  · rw [goto_proc, setProc_eq] at hσ ⊢
    -- the thread that executes has a parent
    have hown : ∀ {q : ℕ} {st : List Frame}, Executes s e.cpu q st → ownState st = .RUNNING →
        i = q → (s.proc i).parent ≠ none := by
      rintro q st hex hst rfl
      exact hi.orphans _ h0 (.inl (by rw [h.own_state hex, hst]; rfl))
    cases hwr with
    | forkUsed | forkFree | waitFree => simp [freeproc, ProcState.live] at hσ
    | forkParent | exitParent => simp
    | forkRunnable => exact (hi.top h hr rfl).2
    | yieldState | sleepState | exitState =>
      obtain ⟨-, q, hex, hok⟩ := h.executes hr rfl
      exact hown hex rfl hok.1
    | wakeup _ _ hsl | killWake _ _ hsl => exact hi.orphans i h0 (.inl (by rw [hsl]; rfl))
    | _ => exact hi.orphans i h0 hσ
  · rw [hp] at hσ ⊢
    exact hi.orphans i h0 hσ
  · rw [hp] at hσ ⊢
    exact hi.orphans i h0 (.inl (by rw [(h.schedulerOk hk).2.1]; rfl))
  · rw [hp] at hσ ⊢
    exact hi.orphans i h0 hσ

/-- **Every step keeps the invariant of parents and children.** -/
theorem step : FamilyInv s' where
  shape := h.shape_step hi.shape hs
  range i hn := by
    rcases unused_step h hs (hi.range i hn) with hun | ⟨mk, p, pid, st, hr⟩
    · exact hun
    · have hlt : i < NPROC := hi.top h hr rfl
      omega
  unused _ := hi.unusedParent_step h hs
  parents _ _ := hi.parents_step h hs
  orphans _ := hi.orphans_step h hs
  init := by
    rcases live_step h hs hi.init with hl | ⟨status, j, st, hex⟩
    · exact hl
    · exact absurd rfl (hi.knows _ _ (.inl ⟨_, hex⟩) _ mem_cons_self).1
  knows _ _ ht _ hf := hi.knows_step h hs ht hf

end

theorem start : FamilyInv kInit := by
  have hproc : ∀ i, i ≠ initproc → kInit.proc i = unusedProc := fun i h0 => if_neg h0
  refine ⟨shape_init, fun i hn => ?_, fun i _ => ?_, fun i q hq => ?_, fun i h0 hσ => ?_, rfl,
    fun p st ht f hf => ?_⟩
  · rw [hproc i]
    · rfl
    · rintro rfl
      exact absurd hn (by decide)
  · by_cases h0 : i = initproc
    · subst h0
      rfl
    · rw [hproc i h0]
      rfl
  · by_cases h0 : i = initproc
    · subst h0
      cases hq
    · rw [hproc i h0] at hq
      cases hq
  · rw [hproc i h0] at hσ
    simp [unusedProc, ProcState.live] at hσ
  · rcases ht with ⟨c, -, hx⟩ | ⟨-, hl, rfl⟩
    · cases hx
    · by_cases h0 : p = initproc
      · subst h0
        rw [mem_singleton.mp (show f ∈ [Frame.forkret initproc] from hf)]
        trivial
      · rw [hproc p h0] at hl
        cases hl

end FamilyInv

end Xv6
