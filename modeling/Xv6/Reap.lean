import Mathlib.Algebra.Order.Group.Multiset
import Mathlib.Algebra.BigOperators.Group.Finset.Basic
import Mathlib.Tactic.Abel
import Xv6.Family

/-!
# Exits and waits

The history of a run records the processes that have exited, with pid and status,
and what the successful calls of `kwait` have returned. The exits are the returned
ones and the zombies, each with multiplicity (`History.exits_eq`): no exit is
returned twice, and none is lost.
-/

namespace Xv6

variable {s s' : KState} {e : KEv} {c p i n : ℕ} {st : List Frame} {f : Frame}

/-- A process that has exited. -/
structure Exit where
  /-- its slot -/
  slot : ℕ
  /-- its pid -/
  pid : ℤ
  /-- the status it exited with -/
  status : ℤ
  deriving DecidableEq

/-- The exit a step makes: `kexit(status)` makes the process a zombie. -/
def exited (s : KState) (e : KEv) : List Exit :=
  match (s.cpu e.cpu).exec, e.choice with
  | .thread (.kexit p status _ .setState :: _), .step => [⟨p, (s.proc p).pid, status⟩]
  | _, _ => []

/-- What a step makes `kwait` return: it frees the zombie, has copied its `xstate` to the caller and
will return `a0`. -/
def reaped (s : KState) (e : KEv) : List Exit :=
  match (s.cpu e.cpu).exec, e.choice with
  | .thread (.kwait _ _ i _ a0 .freeproc :: _), .step
  | .thread (.kwait _ _ i _ a0 .freeproc :: _), .fail => [⟨i, a0, (s.proc i).xstate⟩]
  | _, _ => []

/-- The machine, with the exits so far and what `kwait` has returned. -/
structure History where
  /-- the machine -/
  machine : KState
  /-- the exits -/
  exits : List Exit
  /-- the exits `kwait` has returned -/
  reaps : List Exit

/-- One step of the machine, recorded. -/
def historyStep (h : History) (e : KEv) : Outcome History :=
  match kStep h.machine e with
  | .ok s => .ok ⟨s, h.exits ++ exited h.machine e, h.reaps ++ reaped h.machine e⟩
  | .blocked => .blocked
  | .panic msg => .panic msg

/-- Nothing has happened yet. -/
def historyInit : History := ⟨kInit, [], []⟩

/-- The exit a slot holds. -/
def zombie (i : ℕ) (q : Proc) : Multiset Exit :=
  if q.state = .ZOMBIE then {⟨i, q.pid, q.xstate⟩} else 0

/-- The zombies. -/
def zombies (s : KState) : Multiset Exit := ∑ i ∈ Finset.range NPROC, zombie i (s.proc i)

/-! ## What a step does to the zombies -/

/-- `kexit` has stored the status before it changes the state. -/
def StatusKnows (s : KState) : Frame → Prop
  | .kexit p status _ .setState => (s.proc p).xstate = status
  | _ => True

theorem statusKnows_knowledge : Knowledge StatusKnows where
  stable {s s' f} h hs := by
    unfold StatusKnows at h ⊢
    split
    · rename_i p status i
      obtain ⟨v, hv⟩ := hs p (by simp [Frame.held])
      rw [hv]
      exact h
    · trivial
  parks {s f} h := by
    unfold StatusKnows
    split
    · cases h
    · trivial
  code := trivial
  yield := trivial

theorem statusKnows_step (h : KInv s) (hs : kStep s e = .ok s')
    (hk : ∀ p st, Thread s p st → ∀ f ∈ st, StatusKnows s f) :
    ∀ p st, Thread s' p st → ∀ f ∈ st, StatusKnows s' f := by
  intro p st ht f hf
  refine statusKnows_knowledge.step h hs hk (fun p f st j hex hj hrun g hg => ?_) ht hf
  unfold StatusKnows
  split
  · rename_i q status i
    -- the status has just been stored
    cases f with
    | kexit q' status' i' k =>
      simp only [instr] at hj
      split_ifs at hj
      cases hj
      cases k <;> simp only [kexitInstr] at hg <;> (try split_ifs at hg) <;>
        simp [Instr.next] at hg
      obtain ⟨rfl, rfl, rfl⟩ := hg
      cases hrun
      rw [goto_proc, setProc_eq]
    | code m locks a0 =>
      simp only [instr, codeInstr] at hj
      split at hj <;> (try split_ifs at hj) <;> cases hj <;> simp [Instr.next] at hg
    | _ =>
      have hfn := instr_fn hj hg
      simp [Frame.fn, Fn.callees] at hfn
  · trivial

theorem exited_eq_nil (h : ∀ p status j st, (s.cpu e.cpu).exec ≠
    .thread (.kexit p status j .setState :: st)) : exited s e = [] := by
  unfold exited
  split
  · rename_i hx _
    exact absurd hx (h _ _ _ _)
  · rfl

/-- A zombie is made by `kexit` and freed by `kwait`. -/
theorem zombie_eq (h : KInv s) (hs : kStep s e = .ok s')
    (hx : ∀ status j st, (s.cpu e.cpu).exec ≠ .thread (.kexit n status j .setState :: st))
    (hw : ∀ p addr hk a0 st, (s.cpu e.cpu).exec ≠ .thread (.kwait p addr n hk a0 .freeproc :: st)) :
    zombie n (s'.proc n) = zombie n (s.proc n) := by
  have hne : ∀ {a b : Proc}, a.state ≠ .ZOMBIE → b.state ≠ .ZOMBIE → zombie n a = zombie n b := by
    intro a b ha hb
    rw [zombie, zombie, if_neg ha, if_neg hb]
  rcases slotStep h hs n with heq | ⟨hr, hwr, rfl⟩ | ⟨-, hp⟩ | ⟨hk, hp⟩ | ⟨-, hp⟩
  · rw [heq]
  · rw [goto_proc, setProc_eq]
    cases hwr with
    | yieldState | sleepState | exitStatus =>
      obtain ⟨-, q, hex, hok⟩ := h.executes hr rfl
      obtain rfl : n = q := hok.1
      have hσ := h.own_state hex
      refine hne ?_ (by rw [hσ]; simp [ownState])
      simp [hσ, ownState]
    | wakeup _ _ hσ | killWake _ _ hσ => exact hne (by simp) (by simp [hσ])
    | forkPid | forkUsed =>
      have hσ := (h.claim hr rfl n .UNUSED rfl).1
      exact hne (by simp [hσ]) (by simp [hσ])
    | forkFree | forkRunnable =>
      have hσ := (h.claim hr rfl n .USED rfl).1
      exact hne (by simp [freeproc]) (by simp [hσ])
    | exitState =>
      obtain ⟨rfl, -⟩ := h.executes hr rfl
      exact absurd hr.1 (hx _ _ _)
    | waitFree =>
      obtain ⟨rfl, -⟩ := h.executes hr rfl
      exact absurd hr.1 (hw _ _ _ _ _)
    | sleepChan | sleepClear | killFlag | setkilled | forkContext | forkParent | exitParent => rfl
  · rw [hp]
    rfl
  · rw [hp]
    exact hne (by simp) (by simp [(h.schedulerOk hk).2.1])
  · rw [hp]
    rfl

/-- The zombies when slot `n` is written. -/
theorem zombies_setProc (s : KState) (c : ℕ) (x : Exec) (u : Proc → Proc) (hn : n < NPROC) :
    zombies ((s.setProc n u).goto c x) + zombie n (s.proc n) =
      zombies s + zombie n (u (s.proc n)) := by
  have hmem := Finset.mem_range.mpr hn
  have hrest : ∀ j ∈ (Finset.range NPROC).erase n,
      zombie j ((s.setProc n u).proc j) = zombie j (s.proc j) := fun j hj => by
    rw [setProc_ne (Finset.ne_of_mem_erase hj)]
  unfold zombies
  rw [goto_proc, ← Finset.add_sum_erase _ (fun j => zombie j ((s.setProc n u).proc j)) hmem,
    ← Finset.add_sum_erase _ (fun j => zombie j (s.proc j)) hmem, Finset.sum_congr rfl hrest,
    setProc_eq]
  abel

/-- What a step adds to the exits and takes from the zombies. -/
theorem zombies_step (h : KInv s) (hi : FamilyInv s)
    (hk : ∀ p st, Thread s p st → ∀ f ∈ st, StatusKnows s f) (hs : kStep s e = .ok s') :
    zombies s' + (reaped s e : Multiset Exit) = zombies s + (exited s e : Multiset Exit) := by
  have hlt : ∀ {n}, (s.proc n).state ≠ .UNUSED → n < NPROC := by
    intro n hn
    by_contra hge
    exact hn (hi.range n (by omega))
  by_cases hx : ∃ p status j st, (s.cpu e.cpu).exec = .thread (.kexit p status j .setState :: st)
  · obtain ⟨p, status, j, st, hx⟩ := hx
    obtain ⟨-, q, hex, hok⟩ := h.executes (f := .kexit p status j .setState) ⟨hx, .inl rfl⟩ rfl
    obtain rfl : p = q := hok.1
    obtain ⟨i, hin, hrun⟩ := h.instr_of_held hs hx (by simp [heldBy, Frame.held])
    simp only [instr] at hin
    split_ifs at hin with hch
    cases hin
    cases hrun
    have hσ := h.own_state hex
    have hst : (s.proc p).xstate = status := hk p _ (.inl ⟨_, hex⟩) _ List.mem_cons_self
    have hz := zombies_setProc s e.cpu (.thread (.kexit p status j .waitRelease :: st))
      (fun q => { q with state := .ZOMBIE }) (hlt (h.executes_ne_unused hex))
    rw [show zombie p (s.proc p) = 0 from if_neg (by rw [hσ]; simp [ownState]), add_zero] at hz
    rw [show exited s e = [⟨p, (s.proc p).pid, status⟩] by simp [exited, hx, hch],
      show reaped s e = [] by simp [reaped, hx]]
    simpa [zombie, hst] using hz
  · by_cases hw : ∃ p addr n hk a0 st,
      (s.cpu e.cpu).exec = .thread (.kwait p addr n hk a0 .freeproc :: st)
    · obtain ⟨p, addr, n, hk', a0, st, hx'⟩ := hw
      obtain ⟨-, q, hex, -⟩ := h.executes (f := .kwait p addr n hk' a0 .freeproc) ⟨hx', .inl rfl⟩ rfl
      obtain ⟨hpar, hpid⟩ := hi.knows q _ (.inl ⟨_, hex⟩) _ List.mem_cons_self
      obtain ⟨hzom, -⟩ := h.claim (c := e.cpu) ⟨hx', .inl rfl⟩ rfl n .ZOMBIE rfl
      obtain ⟨i, hin, hrun⟩ := h.instr_of_held hs hx' (by simp [heldBy, Frame.held])
      simp only [instr] at hin
      split_ifs at hin with hch
      cases hin
      cases hrun
      have hz := zombies_setProc s e.cpu (.thread (.kwait p addr n hk' a0 .foundRelease :: st))
        freeproc (hlt (by rw [hzom]; simp))
      rw [show zombie n (s.proc n) = {⟨n, (s.proc n).pid, (s.proc n).xstate⟩} from if_pos hzom,
        show zombie n (freeproc (s.proc n)) = 0 from if_neg (by simp [freeproc])] at hz
      rw [exited_eq_nil fun p status j st hx'' => hx ⟨p, status, j, st, hx''⟩,
        show reaped s e = [⟨n, a0, (s.proc n).xstate⟩] by
          rcases hch with hch | hch <;> simp [reaped, hx', hch]]
      simpa [hpid] using hz
    · have h1 : exited s e = [] := exited_eq_nil fun p status j st hx' => hx ⟨p, status, j, st, hx'⟩
      have h2 : reaped s e = [] := by
        unfold reaped
        split
        · exact absurd ⟨_, _, _, _, _, _, ‹_›⟩ hw
        · exact absurd ⟨_, _, _, _, _, _, ‹_›⟩ hw
        · rfl
      rw [h1, h2]
      refine congrArg (· + _) (Finset.sum_congr rfl fun n _ => zombie_eq h hs
        (fun status j st hx' => hx ⟨n, status, j, st, hx'⟩)
        fun p addr hk a0 st hx' => hw ⟨p, addr, n, hk, a0, st, hx'⟩)

/-! ## Whole runs -/

/-- The invariant of a recorded run. -/
structure HistoryInv (h : History) : Prop where
  machine : KInv h.machine
  family : FamilyInv h.machine
  status : ∀ p st, Thread h.machine p st → ∀ f ∈ st, StatusKnows h.machine f
  exits : (h.exits : Multiset Exit) = h.reaps + zombies h.machine

namespace HistoryInv

theorem step {h h' : History} (hi : HistoryInv h) (hs : historyStep h e = .ok h') :
    HistoryInv h' := by
  unfold historyStep at hs
  split at hs
  · rename_i s hk
    cases hs
    refine ⟨hi.machine.step hk, hi.family.step hi.machine hk, statusKnows_step hi.machine hk hi.status,
      ?_⟩
    have hz := zombies_step hi.machine hi.family hi.status hk
    simp only [← Multiset.coe_add, hi.exits]
    rw [add_assoc, ← hz]
    abel
  · cases hs
  · cases hs

theorem start : HistoryInv historyInit := by
  refine ⟨.init, .start, fun p st ht f hf => ?_, ?_⟩
  · rcases ht with ⟨c, -, hx⟩ | ⟨-, hl, rfl⟩
    · cases hx
    · by_cases h0 : p = initproc
      · subst h0
        rw [List.mem_singleton.mp (show f ∈ [Frame.forkret initproc] from hf)]
        trivial
      · rw [show historyInit.machine.proc p = unusedProc from if_neg h0] at hl
        cases hl
  · have hz : zombies historyInit.machine = 0 := Finset.sum_eq_zero fun i _ => by
      by_cases h0 : i = initproc
      · subst h0
        rfl
      · rw [show historyInit.machine.proc i = unusedProc from if_neg h0]
        rfl
    rw [hz]
    rfl

theorem run {C : History → KEv → Prop} {h : History} (hr : Run historyStep C historyInit h) :
    HistoryInv h :=
  hr.invariant start fun _ _ _ hi _ hs => hi.step hs

end HistoryInv

/-- A zombie stays as it is, unless a step makes `kwait` return it. -/
theorem zombie_stays (h : KInv s) (hs : kStep s e = .ok s') (hz : (s.proc i).state = .ZOMBIE)
    (hr : ∀ r ∈ reaped s e, r.slot ≠ i) : zombie i (s'.proc i) = zombie i (s.proc i) := by
  refine zombie_eq h hs (fun status j st hx => ?_) fun p addr hk a0 st hx => ?_
  · obtain ⟨-, q, hex, hok⟩ := h.executes (f := .kexit i status j .setState) ⟨hx, .inl rfl⟩ rfl
    obtain rfl : i = q := hok.1
    have hσ := h.own_state hex
    rw [hz] at hσ
    cases hσ
  · obtain ⟨j, hj, -⟩ := h.instr_of_held hs hx (by simp [heldBy, Frame.held])
    simp only [instr] at hj
    split_ifs at hj with hch
    refine hr ⟨i, a0, (s.proc i).xstate⟩ ?_ rfl
    rcases hch with hch | hch <;> simp [reaped, hx, hch]

theorem zombie_eq_singleton {q : Proc} {x : Exit} (h : zombie i q = {x}) :
    q.state = .ZOMBIE ∧ q.pid = x.pid ∧ q.xstate = x.status := by
  unfold zombie at h
  split_ifs at h with hz
  · obtain rfl := Multiset.singleton_inj.mp h
    exact ⟨hz, rfl, rfl⟩
  · exact absurd h.symm (Multiset.singleton_ne_zero x)

theorem Run.zombie_stays {t : KState} (h : KInv s) (hz : (s.proc i).state = .ZOMBIE)
    (hr : Run kStep (fun s e => ∀ r ∈ reaped s e, r.slot ≠ i) s t) :
    (t.proc i).state = .ZOMBIE ∧ (t.proc i).pid = (s.proc i).pid ∧
      (t.proc i).xstate = (s.proc i).xstate := by
  have hsame : KInv t ∧ zombie i (t.proc i) = zombie i (s.proc i) := by
    refine hr.invariant (I := fun t => KInv t ∧ zombie i (t.proc i) = zombie i (s.proc i)) ⟨h, rfl⟩
      fun t e t' hi hc hs => ⟨hi.1.step hs, ?_⟩
    rw [Xv6.zombie_stays hi.1 hs ?_ hc, hi.2]
    exact (zombie_eq_singleton (hi.2.trans (if_pos hz))).1
  exact zombie_eq_singleton (hsame.2.trans (if_pos hz))

/-- **Fork, exit and wait keep the books.** In every run, with any number of CPUs: while
`wait_lock` is free, every process that has been forked and not freed has a parent that is neither
free nor a zombie; the processes that have exited are those `kwait` has returned, each once, and the
zombies; `kwait` returns the pid of a zombie whose parent is the caller; and when it fails to copy the
status out, the zombie stays as it is until another call returns it. -/
theorem fork_exit_wait {h : History} (hr : Run historyStep (fun _ _ => True) historyInit h) :
    (h.machine.lock .wait_lock = none → ∀ i, i ≠ initproc →
      (h.machine.proc i).state ∈ [.RUNNABLE, .RUNNING, .SLEEPING, .ZOMBIE] →
      ∃ q, (h.machine.proc i).parent = some q ∧ (h.machine.proc q).state ≠ .UNUSED ∧
        (h.machine.proc q).state ≠ .ZOMBIE) ∧
    (h.exits : Multiset Exit) = h.reaps + zombies h.machine ∧
    (∀ c p addr i hk a0 st,
      (h.machine.cpu c).exec = .thread (.kwait p addr i hk a0 .freeproc :: st) →
      (h.machine.proc i).state = .ZOMBIE ∧ (h.machine.proc i).parent = some p ∧
        a0 = (h.machine.proc i).pid) ∧
    ∀ c p i hk a0 st s',
      (h.machine.cpu c).exec = .thread (.kwait p true i hk a0 .copyout :: st) →
      kStep h.machine ⟨c, .fail⟩ = .ok s' →
      (s'.cpu c).exec = .thread (.kwait p true i hk a0 .failRelease :: st) ∧
      (s'.proc i).parent = some p ∧
      ∀ t, Run kStep (fun s e => ∀ r ∈ reaped s e, r.slot ≠ i) s' t →
        (t.proc i).state = .ZOMBIE ∧ (t.proc i).pid = (h.machine.proc i).pid ∧
          (t.proc i).xstate = (h.machine.proc i).xstate := by
  have hi := HistoryInv.run hr
  refine ⟨fun _ i h0 hσ => ?_, hi.exits, fun c p addr i hk a0 st hx => ?_,
    fun c p i hk a0 st s' hx hs => ?_⟩
  · have hpar := hi.family.orphans i h0 (by
      generalize (h.machine.proc i).state = σ at hσ
      cases σ <;> simp_all [ProcState.live])
    obtain ⟨q, hq⟩ := Option.ne_none_iff_exists'.mp hpar
    have hl := hi.family.parents i q hq
    refine ⟨q, hq, fun hun => ?_, fun hun => ?_⟩ <;>
    · rw [hun] at hl
      cases hl
  · have hr : Runs h.machine c .thread (.kwait p addr i hk a0 .freeproc :: st) := ⟨hx, .inl rfl⟩
    obtain ⟨hpar, hpid⟩ := hi.family.top hi.machine hr rfl
    exact ⟨(hi.machine.claim hr rfl i .ZOMBIE rfl).1, hpar, hpid⟩
  · have hr : Runs h.machine c .thread (.kwait p true i hk a0 .copyout :: st) := ⟨hx, .inl rfl⟩
    obtain ⟨hpar, -⟩ := hi.family.top hi.machine hr rfl
    have hz := (hi.machine.claim hr rfl i .ZOMBIE rfl).1
    obtain ⟨j, hj, hrun⟩ := hi.machine.instr_of_held hs hx (by simp [heldBy, Frame.held])
    cases hj
    have hi' := hi.machine.step hs
    cases hrun
    refine ⟨by rw [goto_cpu_self]; rfl, hpar, fun t ht => ?_⟩
    have hstay := ht.zombie_stays hi' hz
    exact hstay

/-- CPU 0 runs the first process, which forks; CPU 1 runs the child, which exits with status 5; the
first process waits for it. -/
def waitedHistory : History :=
  (runList historyStep historyInit
    (List.replicate 7 ⟨0, .step⟩ ++ [⟨0, .kfork⟩] ++ List.replicate 22 ⟨0, .step⟩ ++
      List.replicate 10 ⟨1, .step⟩ ++ [⟨1, .kexit 5⟩, ⟨1, .step⟩, ⟨1, .step⟩, ⟨1, .ret⟩] ++
      List.replicate 334 ⟨1, .step⟩ ++ [⟨0, .kwait false⟩] ++
      List.replicate 10 ⟨0, .step⟩)).getD historyInit

theorem fork_exit_wait_waitedHistory :
    waitedHistory.exits = [⟨1, 2, 5⟩] ∧ waitedHistory.reaps = [⟨1, 2, 5⟩] ∧
    (waitedHistory.exits : Multiset Exit) = waitedHistory.reaps + zombies waitedHistory.machine ∧
    ∀ i, i ≠ initproc →
      (waitedHistory.machine.proc i).state ∈ [.RUNNABLE, .RUNNING, .SLEEPING, .ZOMBIE] →
      ∃ q, (waitedHistory.machine.proc i).parent = some q ∧
        (waitedHistory.machine.proc q).state ≠ .UNUSED ∧
        (waitedHistory.machine.proc q).state ≠ .ZOMBIE := by
  have hrun : Run historyStep (fun _ _ => True) historyInit waitedHistory :=
    .of_checkList (c := fun _ _ => true) (fun _ _ _ => trivial) (by decide +kernel) _
  exact ⟨by decide +kernel, by decide +kernel, (fork_exit_wait hrun).2.1,
    (fork_exit_wait hrun).1 (by decide +kernel)⟩

end Xv6
