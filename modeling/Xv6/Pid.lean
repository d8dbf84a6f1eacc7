import Xv6.Family
import Xv6.Kill

/-!
# Process ids

`allocpid` hands out `nextpid` and adds 1. A pid belongs to a slot from then on,
first as a local variable of `allocproc` and then in the table (`Owns`), until
`freeproc` clears it. A step makes no slot own a pid that it did not own before,
other than `nextpid` (`owns_step`). So the pids of the processes are positive and
different as long as `nextpid` does not overflow (`pids_distinct`). It does after
2147483646 calls of `kfork`, which may all fail, and the next process has a
negative pid (`negative_pid`).
-/

namespace Xv6

open List

variable {s s' : KState} {e : KEv} {i j p : ℕ} {x : ℤ} {st : List Frame} {f : Frame}

/-! ## Who has a pid -/

/-- `allocproc` has a pid for slot `i`, and has not yet set the state. -/
def Frame.Takes (i : ℕ) (x : ℤ) : Frame → Prop
  | .kfork _ i' pid .pidRelease => i' = i ∧ pid = x
  | .kfork _ i' pid .setPid => i' = i ∧ pid = x
  | .kfork _ i' pid .setUsed => i' = i ∧ pid = x
  | _ => False

/-- The pid `x` belongs to slot `i`. -/
def Owns (s : KState) (i : ℕ) (x : ℤ) : Prop :=
  ((s.proc i).state ≠ .UNUSED ∧ (s.proc i).pid = x) ∨
    ∃ p st f, Thread s p st ∧ f ∈ st ∧ f.Takes i x

/-- `allocproc` has set the pid of the slot. -/
def PidKnows (s : KState) : Frame → Prop
  | .kfork _ i pid .setUsed => (s.proc i).pid = pid
  | _ => True

theorem pidKnows_knowledge : Knowledge PidKnows where
  stable {s s' f} h hs := by
    cases f with
    | kfork p i pid k =>
      cases k with
      | setUsed =>
        obtain ⟨v, hv⟩ := hs i (by simp [Frame.held])
        simpa only [PidKnows, hv] using h
      | _ => trivial
    | _ => trivial
  parks {s f} h := by
    cases f <;> trivial
  code := trivial
  yield := trivial

/-- **The pids are positive, below `nextpid`, and different.** -/
structure PidInv (s : KState) : Prop where
  knows : ∀ p st, Thread s p st → ∀ f ∈ st, PidKnows s f
  nextpid_pos : 0 < s.nextpid
  range : ∀ i x, Owns s i x → 0 < x ∧ x < s.nextpid
  distinct : ∀ i j x, Owns s i x → Owns s j x → i = j

/-! ## Steps -/

/-- How `allocproc` learns that it has set the pid. -/
theorem pidKnows_turn {c : ℕ} {ch : Choice} {y : Instr} (hy : instr s c f ch = some y)
    (hrun : s.run c .thread st y = .ok s') : ∀ g ∈ y.next s.nextpid, PidKnows s' g := by
  cases f with
  | kfork q i pid k =>
    simp only [instr] at hy
    split_ifs at hy
    cases hy
    cases k with
    | setPid =>
      cases hrun
      intro g hg
      rw [mem_singleton.mp hg, PidKnows, goto_proc, setProc_eq]
    | _ =>
      simp only [kforkInstr]
      (try split_ifs) <;> simp [Instr.next, PidKnows]
  | code m locks a0 =>
    simp only [instr, codeInstr] at hy
    split at hy <;> (try split_ifs at hy) <;> cases hy <;> simp [Instr.next, PidKnows]
  | _ =>
    intro g hg
    have hfn := instr_fn hy hg
    cases g <;> simp_all [PidKnows, Frame.fn, Fn.callees]

/-- An activation that has a pid had it before, or has just taken it. -/
theorem takes_turn {c : ℕ} {ch : Choice} {y : Instr} {g : Frame} (hy : instr s c f ch = some y)
    (hg : g ∈ y.next s.nextpid) (ht : g.Takes i x) :
    f.Takes i x ∨ x = s.nextpid ∧ ∃ q pid, f = .kfork q i pid .pidTake := by
  cases f with
  | kfork q i' pid k =>
    simp only [instr] at hy
    split_ifs at hy
    cases hy
    cases k with
    | pidTake =>
      rw [mem_singleton.mp hg] at ht
      obtain ⟨rfl, rfl⟩ := ht
      exact .inr ⟨rfl, q, pid, rfl⟩
    | pidRelease | setPid =>
      rw [mem_singleton.mp hg] at ht
      exact .inl ht
    | _ =>
      simp only [kforkInstr] at hg
      (try split_ifs at hg) <;>
        simp only [Instr.next, mem_singleton, not_mem_nil] at hg <;> subst hg <;> cases ht
  | code m locks a0 =>
    simp only [instr, codeInstr] at hy
    split at hy <;> (try split_ifs at hy) <;> cases hy <;>
      simp only [Instr.next, mem_cons, not_mem_nil, or_false] at hg <;>
      (try rcases hg with rfl | rfl) <;> cases ht
  | _ =>
    have hfn := instr_fn hy hg
    cases g <;> first | cases ht | simp_all [Frame.fn, Fn.callees]

/-- `nextpid` only counts, under `pid_lock`. -/
theorem nextpid_step (hs : kStep s e = .ok s') : s'.nextpid = s.nextpid ∨
    .pid_lock ∈ (s.cpu e.cpu).exec.held ∧ s'.nextpid = (s.nextpid + 1).bmod (2 ^ 32) := by
  rcases kStep_effect hs with ⟨hr, hy, hrun⟩ | ⟨hk, hsch⟩ | ⟨-, -, -, rfl⟩ | ⟨-, rfl⟩
  · rename_i mk f st y
    cases y with
    | acquire l g =>
      obtain ⟨-, rfl⟩ := acquire_eq hrun
      exact .inl rfl
    | release l g =>
      obtain ⟨-, rfl⟩ := release_eq hrun
      exact .inl rfl
    | panic msg => cases hrun
    | nextpid g =>
      cases hrun
      exact .inr ⟨hr.mem_held (instr_from hy), rfl⟩
    | goto g | write q u g | call d g | ret a0 | swtch q g =>
      cases hrun
      exact .inl rfl
  · cases schedulerStep_effect hsch <;> exact .inl rfl
  · exact .inl rfl
  · exact .inl rfl

/-- A slot in use keeps its pid. -/
theorem pid_step (h : KInv s) (hs : kStep s e = .ok s') (hused : (s'.proc i).state ≠ .UNUSED) :
    (s'.proc i).pid = (s.proc i).pid := by
  rcases slotStep h hs i with heq | ⟨hr, hw, rfl⟩ | ⟨-, hp⟩ | ⟨-, hp⟩ | ⟨-, hp⟩
  · rw [heq]
  · rw [goto_proc, setProc_eq] at hused ⊢
    cases hw with
    | forkPid => exact absurd (h.claim hr rfl i .UNUSED rfl).1 hused
    | forkFree | waitFree => exact absurd rfl hused
    | _ => rfl
  all_goals rw [hp]

/-- **A slot owns a pid as before,** or has just got `nextpid`. -/
theorem owns_step (hi : PidInv s) (h : KInv s) (hs : kStep s e = .ok s') (ho : Owns s' i x) :
    Owns s i x ∨ (x = s.nextpid ∧ s'.nextpid = (s.nextpid + 1).bmod (2 ^ 32) ∧
      ∃ q pid st, (s.cpu e.cpu).exec = .thread (.kfork q i pid .pidTake :: st)) := by
  rcases ho with ⟨hused, hpid⟩ | ⟨p, st, f, hthread, hf, htakes⟩
  · rw [pid_step h hs hused] at hpid
    by_cases hun : (s.proc i).state = .UNUSED
    · rcases FamilyInv.unused_step h hs hun with hun' | ⟨mk, q, pid, st, hr⟩
      · exact absurd hun' hused
      · -- `allocproc` sets the state, and has set the pid
        obtain ⟨rfl, q', hex, -⟩ := h.executes hr rfl
        have hknows : (s.proc i).pid = pid := hi.knows q' _ (.inl ⟨_, hex⟩) _ mem_cons_self
        exact .inl (.inr ⟨q', _, _, .inl ⟨_, hex⟩, mem_cons_self, rfl, hknows.symm.trans hpid⟩)
    · exact .inl (.inl ⟨hun, hpid⟩)
  · rcases h.threadStep hs hthread with ⟨hthread', -⟩ | ⟨hex, hy, hrun, rfl⟩ |
      ⟨hex, -, hd, -, rfl⟩ | ⟨-, -, -, rfl⟩
    · exact .inl (.inr ⟨p, st, f, hthread', hf, htakes⟩)
    · rename_i g st y
      rcases mem_stack hf with hf | hf | ⟨m, locks, a0, rfl⟩
      · rcases takes_turn hy hf htakes with hold | ⟨hx, q, pid, rfl⟩
        · exact .inl (.inr ⟨p, _, g, .inl ⟨_, hex⟩, mem_cons_self, hold⟩)
        · simp only [instr] at hy
          split_ifs at hy
          cases hy
          cases hrun
          exact .inr ⟨hx, rfl, q, pid, st, hex.2⟩
      · exact .inl (.inr ⟨p, _, f, .inl ⟨_, hex⟩, mem_cons_of_mem _ hf, htakes⟩)
      · cases htakes
    · rcases mem_cons.mp hf with rfl | hf
      · rcases hd with rfl | rfl
        · cases htakes
        · cases htakes
      · exact .inl (.inr ⟨p, _, f, .inl ⟨_, hex⟩, hf, htakes⟩)
    · rw [mem_singleton.mp hf] at htakes
      cases htakes

/-- **Every step that does not overflow `nextpid` keeps the invariant.** -/
theorem PidInv.step (hi : PidInv s) (h : KInv s) (hlt : s.nextpid < 2 ^ 31 - 1)
    (hs : kStep s e = .ok s') : PidInv s' := by
  have hpos := hi.nextpid_pos
  have hadd : (s.nextpid + 1).bmod (2 ^ 32) = s.nextpid + 1 :=
    Int.bmod_eq_of_le (by omega) (by omega)
  have hle : s.nextpid ≤ s'.nextpid := by
    rcases nextpid_step hs with heq | ⟨-, heq⟩
    · rw [heq]
    · rw [heq, hadd]
      omega
  refine ⟨fun p st ht f hf => pidKnows_knowledge.step h hs hi.knows
    (fun _ _ _ _ _ hy hrun => pidKnows_turn hy hrun) ht hf, hpos.trans_le hle,
    fun i x ho => ?_, fun i j x hoi hoj => ?_⟩
  · rcases owns_step hi h hs ho with hold | ⟨rfl, hnext, -⟩
    · exact ⟨(hi.range i x hold).1, (hi.range i x hold).2.trans_le hle⟩
    · rw [hnext, hadd]
      exact ⟨hpos, by omega⟩
  · rcases owns_step hi h hs hoi with holdi | ⟨hx, -, q, pid, st, hexi⟩
    · rcases owns_step hi h hs hoj with holdj | ⟨rfl, -⟩
      · exact hi.distinct i j x holdi holdj
      · exact absurd (hi.range i _ holdi).2 (Int.lt_irrefl _)
    · rcases owns_step hi h hs hoj with holdj | ⟨-, -, q', pid', st', hexj⟩
      · exact absurd (hi.range j x holdj).2 (hx ▸ Int.lt_irrefl _)
      · -- both are the slot for which the CPU takes a pid
        obtain ⟨heq, -⟩ := List.cons.inj (Exec.thread.inj (hexi.symm.trans hexj))
        exact (Frame.kfork.inj heq).2.1

theorem PidInv.init : PidInv kInit := by
  have hnone : ∀ p st, Thread kInit p st → ∀ f ∈ st, ∃ q, f = .forkret q := by
    intro p st ht f hf
    rcases ht with ⟨c, -, hx⟩ | ⟨-, hl, hx⟩
    · cases hx
    · simp only [kInit] at hl hx
      split at hl
      · rename_i h0
        rw [if_pos h0] at hx
        subst hx
        exact ⟨p, mem_singleton.mp hf⟩
      · cases hl
  have howns : ∀ i x, Owns kInit i x → i = 0 ∧ x = 1 := by
    rintro i x (⟨hused, hpid⟩ | ⟨p, st, f, ht, hf, htakes⟩)
    · simp only [kInit] at hused hpid
      split at hused
      · rename_i h0
        rw [if_pos h0] at hpid
        exact ⟨h0, hpid.symm⟩
      · exact absurd rfl hused
    · obtain ⟨q, rfl⟩ := hnone p st ht f hf
      cases htakes
  refine ⟨fun p st ht f hf => ?_, by decide, fun i x ho => ?_, fun i j x hi hj => ?_⟩
  · obtain ⟨q, rfl⟩ := hnone p st ht f hf
    trivial
  · obtain ⟨-, rfl⟩ := howns i x ho
    decide
  · rw [(howns i x hi).1, (howns j x hj).1]

/-- **Process ids identify processes,** as long as `nextpid` does not overflow. -/
theorem pids_distinct (hrun : Run kStep (fun s _ => s.nextpid < 2 ^ 31 - 1) kInit s) :
    (∀ i, (s.proc i).state ≠ .UNUSED → 0 < (s.proc i).pid) ∧
      ∀ i j, (s.proc i).state ≠ .UNUSED → (s.proc j).state ≠ .UNUSED →
        (s.proc i).pid = (s.proc j).pid → i = j := by
  obtain ⟨-, hinv⟩ : KInv s ∧ PidInv s :=
    hrun.invariant (I := fun s => KInv s ∧ PidInv s) ⟨KInv.init, PidInv.init⟩
      fun s e s' h hlt hs => ⟨h.1.step hs, h.2.step h.1 hlt hs⟩
  exact ⟨fun i hi => (hinv.range i _ (.inl ⟨hi, rfl⟩)).1,
    fun i j hi hj heq => hinv.distinct i j _ (.inl ⟨hi, rfl⟩) (.inl ⟨hj, heq.symm⟩)⟩

/-- The first process has a child. -/
theorem pids_distinct_childState :
    Run kStep (fun s _ => s.nextpid < 2 ^ 31 - 1) kInit childState ∧
      (childState.proc 1).state = .RUNNABLE ∧ 0 < (childState.proc 1).pid := by
  have hrun : Run kStep (fun s _ => s.nextpid < 2 ^ 31 - 1) kInit childState :=
    .of_checkList (c := fun s _ => decide (s.nextpid < 2 ^ 31 - 1))
      (fun _ _ h => of_decide_eq_true h) (by decide +kernel) _
  exact ⟨hrun, by decide +kernel, (pids_distinct hrun).1 1 (by decide +kernel)⟩

/-! ## Overflow -/

/-- The first process runs, alone; `a0` is what its last system call returned. -/
def alone (a0 n : ℤ) : KState where
  proc p :=
    if p = initproc then { unusedProc with state := .RUNNING, pid := 1, context := [.forkret 0] }
    else unusedProc
  cpu c :=
    if c = 0 then ⟨some initproc, .back 0, 0, .thread [.code .user [] a0]⟩
    else ⟨none, .start, 0, .scheduler .start []⟩
  lock _ := none
  nextpid := n

/-- `kfork` is called, and `allocproc` has set the state. -/
def forkTakes : List KEv := ⟨0, .kfork⟩ :: List.replicate 10 ⟨0, .step⟩

/-- There is no page for the trapframe. -/
def forkFails : List KEv := forkTakes ++ ⟨0, .fail⟩ :: List.replicate 3 ⟨0, .step⟩

theorem runList_boot : runList kStep kInit (List.replicate 7 ⟨0, .step⟩) = .ok (alone 0 2) := by
  simp [runList, kStep, alone, kInit, instr, KState.run, KState.goto, KState.setCpu,
    KState.acquire, KState.release, KState.setLock, KState.setProc, KState.schedulerStep, initproc,
    NPROC, unusedProc, List.replicate]
  constructor
  · funext p
    by_cases hp : p = 0 <;> simp [hp]
  · funext c
    by_cases hc : c = 0 <;> simp [hc]

/-- **A `kfork` that fails only uses up a pid.** -/
theorem runList_forkFails (a0 n : ℤ) :
    runList kStep (alone a0 n) forkFails = .ok (alone (-1) ((n + 1).bmod (2 ^ 32))) := by
  simp [runList, kStep, alone, forkFails, forkTakes, instr, codeInstr, kforkInstr, KState.run,
    KState.goto, KState.setCpu, KState.acquire, KState.release, KState.setLock, KState.setProc,
    initproc, NPROC, freeproc, unusedProc, KState.ret, List.replicate]
  constructor
  · funext c
    by_cases hc : c = 0 <;> simp [hc]
  · funext l
    by_cases h1 : l = .proc 1
    · simp [h1]
    · by_cases h2 : l = .pid_lock <;> simp [h1, h2]

/-- A `kfork` that goes on has a process with the pid. -/
theorem runList_forkTakes (a0 n : ℤ) : ∃ t, runList kStep (alone a0 n) forkTakes = .ok t ∧
    (t.proc 1).state = .USED ∧ (t.proc 1).pid = n := by
  simp [runList, kStep, alone, forkTakes, instr, codeInstr, kforkInstr, KState.run,
    KState.goto, KState.setCpu, KState.acquire, KState.release, KState.setLock, KState.setProc,
    initproc, NPROC, unusedProc, List.replicate]

/-- **As many calls of `kfork` as there are pids.** -/
theorem run_forkFails (m : ℕ) (hm : 2 + (m : ℤ) < 2 ^ 31) :
    ∃ a0, Run kStep (fun _ _ => True) kInit (alone a0 (2 + m)) := by
  induction m with
  | zero => exact ⟨0, .of_runList runList_boot⟩
  | succ m ih =>
    push_cast at hm
    obtain ⟨a0, hrun⟩ := ih (by omega)
    have hstep := runList_forkFails a0 (2 + m)
    rw [Int.bmod_eq_of_le (by omega) (by omega), Int.add_assoc] at hstep
    exact ⟨-1, hrun.trans (.of_runList hstep)⟩

/-- **`nextpid` overflows.** After 2147483646 calls of `kfork` that fail, a process has the pid
-2147483648. -/
theorem negative_pid :
    ∃ s, Run kStep (fun _ _ => True) kInit s ∧ (s.proc 1).state = .USED ∧
      (s.proc 1).pid = -2147483648 := by
  obtain ⟨a0, hrun⟩ := run_forkFails (2 ^ 31 - 3) (by decide)
  have hwrap := runList_forkFails a0 2147483647
  obtain ⟨t, ht, hstate, hpid⟩ := runList_forkTakes (-1) (-2147483648)
  have hlast : Run kStep (fun _ _ => True) kInit (alone (-1) (-2147483648)) :=
    hrun.trans (.of_runList hwrap)
  exact ⟨t, hlast.trans (.of_runList ht), hstate, hpid⟩

end Xv6
