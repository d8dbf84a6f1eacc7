import Mathlib.Data.List.Perm.Basic
import Xv6.ProcInv

/-!
# Steps of the process machine

What one step can do to the invariant, said once for each kind of step: moving
on within a stack of activations, taking and releasing locks, changing the
state of a process whose lock the CPU holds, and switching between a thread and
the scheduler.
-/

namespace Xv6

open Function List

variable {s s' : KState} {c p q : ℕ} {l : Lock} {e : Exec} {st st' : List Frame} {f g : Frame}

/-! ## Locks -/

theorem acquire_eq (hs : s.acquire c l e = .ok s') : s.lock l = none ∧ s' =
    (s.setLock l (some c)).setCpu c { s.cpu c with noff := (s.cpu c).noff + 1, exec := e } := by
  unfold KState.acquire at hs
  split at hs
  · split at hs <;> cases hs
  · exact ⟨‹_›, (Outcome.ok.inj hs).symm⟩

theorem release_eq (hs : s.release c l e = .ok s') : s.lock l = some c ∧ s' =
    (s.setLock l none).setCpu c { s.cpu c with noff := (s.cpu c).noff - 1, exec := e } := by
  unfold KState.release at hs
  split_ifs at hs with hmine
  exact ⟨not_not.mp hmine, (Outcome.ok.inj hs).symm⟩

namespace LockInv

/-- A CPU goes on with the same locks. -/
theorem keep (h : LockInv s) (hlock : s'.lock = s.lock) (hcpu : ∀ c' ≠ c, s'.cpu c' = s.cpu c')
    (hnoff : (s'.cpu c).noff = (s.cpu c).noff)
    (hheld : (s'.cpu c).exec.held = (s.cpu c).exec.held) : LockInv s' := by
  have hall : ∀ c', (s'.cpu c').noff = (s.cpu c').noff ∧
      (s'.cpu c').exec.held = (s.cpu c').exec.held := by
    intro c'
    by_cases hc : c' = c
    · exact hc ▸ ⟨hnoff, hheld⟩
    · rw [hcpu c' hc]
      exact ⟨rfl, rfl⟩
  refine ⟨fun l c' => ?_, fun c' => ?_, fun c' => ?_⟩
  · rw [hlock, (hall c').2]
    exact h.lock l c'
  · rw [(hall c').2]
    exact h.nodup c'
  · rw [(hall c').1, (hall c').2]
    exact h.noff c'

theorem acquire (h : LockInv s) (hs : s.acquire c l e = .ok s')
    (hheld : e.held.Perm (l :: (s.cpu c).exec.held)) : LockInv s' := by
  obtain ⟨hfree, rfl⟩ := acquire_eq hs
  have hnot : ∀ c', l ∉ (s.cpu c').exec.held := fun c' hm => by
    rw [(h.lock l c').mpr hm] at hfree
    cases hfree
  refine ⟨fun l' c' => ?_, fun c' => ?_, fun c' => ?_⟩
  · by_cases hc : c' = c
    · subst hc
      simp only [KState.setCpu, KState.setLock, update_self, hheld.mem_iff,
        mem_cons]
      by_cases hl : l' = l
      · simp [hl]
      · simp [hl, h.lock]
    · simp only [KState.setCpu, KState.setLock, update_of_ne hc]
      by_cases hl : l' = l
      · subst hl
        simp [hnot c', Ne.symm hc]
      · simp [hl, h.lock]
  · by_cases hc : c' = c
    · subst hc
      simp only [KState.setCpu, update_self]
      exact hheld.nodup_iff.mpr (nodup_cons.mpr ⟨hnot c', h.nodup c'⟩)
    · simp only [KState.setCpu, update_of_ne hc]
      exact h.nodup c'
  · by_cases hc : c' = c
    · subst hc
      simp only [KState.setCpu, update_self, hheld.length_eq, length_cons, h.noff]
    · simp only [KState.setCpu, update_of_ne hc]
      exact h.noff c'

theorem release (h : LockInv s) (hs : s.release c l e = .ok s')
    (hheld : (s.cpu c).exec.held.Perm (l :: e.held)) : LockInv s' := by
  obtain ⟨hmine, rfl⟩ := release_eq hs
  have hnd := hheld.nodup_iff.mp (h.nodup c)
  rw [nodup_cons] at hnd
  refine ⟨fun l' c' => ?_, fun c' => ?_, fun c' => ?_⟩
  · by_cases hc : c' = c
    · subst hc
      simp only [KState.setCpu, KState.setLock, update_self]
      by_cases hl : l' = l
      · subst hl
        simp [hnd.1]
      · simp [hl, h.lock, hheld.mem_iff]
    · simp only [KState.setCpu, KState.setLock, update_of_ne hc]
      by_cases hl : l' = l
      · subst hl
        have : l' ∉ (s.cpu c').exec.held := fun hm => by
          rw [(h.lock l' c').mpr hm] at hmine
          exact hc (Option.some.inj hmine)
        simp [this]
      · simp [hl, h.lock]
  · by_cases hc : c' = c
    · subst hc
      simp only [KState.setCpu, update_self]
      exact hnd.2
    · simp only [KState.setCpu, update_of_ne hc]
      exact h.nodup c'
  · by_cases hc : c' = c
    · subst hc
      have := h.noff c'
      rw [hheld.length_eq, length_cons] at this
      simp only [KState.setCpu, update_self]
      omega
    · simp only [KState.setCpu, update_of_ne hc]
      exact h.noff c'

/-- A lock is held by one CPU only. -/
theorem cpu_eq (h : LockInv s) {c c' : ℕ} (hc : l ∈ (s.cpu c).exec.held)
    (hc' : l ∈ (s.cpu c').exec.held) : c = c' := by
  have := (h.lock l c).mpr hc
  rw [(h.lock l c').mpr hc'] at this
  exact (Option.some.inj this).symm

end LockInv

/-! ## Stacks of activations -/

/-- The locks held by the activations below `f`: `sleep` may have released one. -/
def heldBelow (f : Frame) (st : List Frame) : List Lock :=
  match f with
  | .sleep _ _ lk k => if k.released then (heldBy st).erase lk else heldBy st
  | _ => heldBy st

theorem heldBy_cons (f : Frame) (st : List Frame) : heldBy (f :: st) = f.held ++ heldBelow f st := by
  cases f <;> rfl

/-- `sleep` does not release the lock of a process. -/
theorem Over.mem_heldBelow {n : ℕ} (h : Over f st) (hn : Lock.proc n ∈ heldBy st) :
    Lock.proc n ∈ heldBelow f st := by
  unfold heldBelow
  split
  · split
    · exact (mem_erase_of_ne fun he => h.1.2 n he.symm).mpr hn
    · exact hn
  · exact hn

theorem held_subset_heldBy (f : Frame) (st : List Frame) : ∀ l ∈ f.held, l ∈ heldBy (f :: st) := by
  intro l hl
  rw [heldBy_cons]
  exact mem_append_left _ hl

/-- A CPU holds the locks of the activation on top. -/
theorem mem_held {l : Lock} (hx : (s.cpu c).exec = .thread (f :: st) ∨
    ∃ k, (s.cpu c).exec = .scheduler k (f :: st)) (hl : l ∈ f.held) :
    l ∈ (s.cpu c).exec.held := by
  have := held_subset_heldBy f st l hl
  rcases hx with hx | ⟨k, hx⟩ <;> rw [hx]
  · exact this
  · exact mem_append_right _ this

theorem Over.callsSched {k : SchedPc} (h : Over (.sched q k) st) : CallsSched st := by
  cases k
  · exact h
  · exact h.1
  · exact h.1

/-- A caller of `sched` holds the lock of its process. -/
theorem StackOk.calls_held (h : StackOk p st) (hc : CallsSched st) : Lock.proc p ∈ heldBy st := by
  unfold CallsSched at hc
  split at hc
  case h_4 => exact hc.elim
  all_goals
    obtain ⟨hp, -⟩ := h
    subst hp
    exact held_subset_heldBy _ _ _ (by simp [Frame.held])

/-- A process whose state is not `RUNNING` while it runs holds its own lock. -/
theorem StackOk.own_held (h : StackOk p st) (hne : ownState st ≠ .RUNNING) :
    Lock.proc p ∈ heldBy st := by
  unfold ownState at hne
  split at hne
  case h_5 => exact absurd rfl hne
  case h_9 => exact absurd rfl hne
  case h_6 => exact h.2.2.calls_held (Over.callsSched h.2.1)
  case h_7 => exact h.2.2.calls_held (Over.callsSched h.2.1)
  case h_8 => exact h.2.2.calls_held (Over.callsSched h.2.1)
  all_goals
    obtain ⟨hp, -⟩ := h
    subst hp
    exact held_subset_heldBy _ _ _ (by simp [Frame.held])

/-- A caller of `sched` that is back on top is running. -/
theorem CallsSched.ownState (h : CallsSched st) : ownState st = .RUNNING := by
  unfold CallsSched at h
  split at h
  case h_4 => exact h.elim
  all_goals rfl

/-- A stack of activations goes on as another one: it stays well formed, its
process stays in the state it is in, and nothing new is claimed that is not true. -/
structure Next (s : KState) (c : ℕ) (st st' : List Frame) : Prop where
  stack : ∀ p, (s.cpu c).proc = some p → StackOk p st → StackOk p st'
  own : ∀ p, StackOk p st → ownState st' = ownState st
  claim : (∀ f ∈ st, ClaimOk s f) → ∀ f ∈ st', ClaimOk s f
  fill : (filling st').Sublist (filling st)
  handler : (s.cpu c).proc = none → Handler st → Handler st'

/-- The slots an activation is filling: one or none. -/
theorem filling_cons (f : Frame) (st : List Frame) :
    filling (f :: st) = filling [f] ++ filling st := by
  simp only [filling]
  rw [← filterMap_append]
  rfl

theorem filling_congr (h : g.claim = f.claim) : filling [g] = filling [f] := by
  simp only [filling, filterMap_cons, h]

/-- The activation on top goes on. -/
theorem Next.top (hof : ∀ p, f.Of p → g.Of p) (hover : Over f st → Over g st)
    (hown : ownState (g :: st) = ownState (f :: st)) (hclaim : ClaimOk s f → ClaimOk s g)
    (hfill : (filling [g]).Sublist (filling [f])) (hh : f.isHandler = true → g.isHandler = true) :
    Next s c (f :: st) (g :: st) where
  stack _ _ h := ⟨hof _ h.1, hover h.2.1, h.2.2⟩
  own _ _ := hown
  claim h x hx := by
    rcases mem_cons.mp hx with rfl | hx
    · exact hclaim (h f mem_cons_self)
    · exact h x (mem_cons_of_mem _ hx)
  fill := by
    rw [filling_cons, filling_cons f]
    exact hfill.append (List.Sublist.refl _)
  handler _ h x hx := by
    rcases mem_cons.mp hx with rfl | hx
    · exact hh (h f mem_cons_self)
    · exact h x (mem_cons_of_mem _ hx)

/-- The activation on top goes on to `g`, without claims, and calls `d`. -/
theorem Next.call {d : Frame} (hof : ∀ p, f.Of p → g.Of p)
    (hofd : ∀ p, (s.cpu c).proc = some p → f.Of p → d.Of p) (hover : Over f st → Over g st)
    (hoverd : Over f st → Over d (g :: st))
    (hown : ownState (d :: g :: st) = ownState (f :: st)) (hclaim : g.claim = none)
    (hclaimd : d.claim = none)
    (hh : f.isHandler = true → g.isHandler = true ∧ d.isHandler = true) :
    Next s c (f :: st) (d :: g :: st) where
  stack p hp h := ⟨hofd p hp h.1, hoverd h.2.1, hof p h.1, hover h.2.1, h.2.2⟩
  own _ _ := hown
  claim h x hx := by
    rcases mem_cons.mp hx with rfl | hx
    · exact fun n σ hc => absurd hc (by simp [hclaimd])
    rcases mem_cons.mp hx with rfl | hx
    · exact fun n σ hc => absurd hc (by simp [hclaim])
    · exact h x (mem_cons_of_mem _ hx)
  fill := by
    rw [filling_cons, filling_cons g, filling_cons f]
    simp [filling, hclaim, hclaimd]
  handler _ h x hx := by
    have hf := hh (h f mem_cons_self)
    rcases mem_cons.mp hx with rfl | hx
    · exact hf.2
    rcases mem_cons.mp hx with rfl | hx
    · exact hf.1
    · exact h x (mem_cons_of_mem _ hx)

/-- An interrupt puts `d` on top. -/
theorem Next.push {d : Frame} (hof : ∀ p, (s.cpu c).proc = some p → d.Of p)
    (hq : ∀ p, StackOk p st → Over d st ∧ Quiet st) (hown : ownState (d :: st) = .RUNNING)
    (hclaim : d.claim = none) (hh : (s.cpu c).proc = none → d.isHandler = true) :
    Next s c st (d :: st) where
  stack p hp h := ⟨hof p hp, (hq p h).1, h⟩
  own p h := hown.trans (hq p h).2.1.symm
  claim h x hx := by
    rcases mem_cons.mp hx with rfl | hx
    · exact fun n σ hc => absurd hc (by simp [hclaim])
    · exact h x hx
  fill := by
    simp [filling, hclaim]
  handler hp h x hx := by
    rcases mem_cons.mp hx with rfl | hx
    · exact hh hp
    · exact h x hx

/-- The activation on top returns. -/
theorem Next.ret (a0 : ℤ) (hq : Over f st → ownState st = ownState (f :: st)) :
    Next s c (f :: st) (KState.ret a0 st) where
  stack p _ h := by
    unfold KState.ret
    split
    · exact h.2.2
    · exact h.2.2
  own p h := by
    rw [← hq h.2.1]
    unfold KState.ret
    split <;> rfl
  claim h x hx := by
    unfold KState.ret at hx
    split at hx
    · rcases mem_cons.mp hx with rfl | hx
      · exact fun n σ hn => absurd hn (by simp [Frame.claim])
      · exact h x (mem_cons_of_mem _ (mem_cons_of_mem _ hx))
    · exact h x (mem_cons_of_mem _ hx)
  fill := by
    unfold KState.ret
    split
    · rw [filling_cons f]
      exact sublist_append_right _ _
    · rw [filling_cons f]
      exact sublist_append_right _ _
  handler _ h x hx := by
    unfold KState.ret at hx
    split at hx
    · rename_i m locks a st
      rcases mem_cons.mp hx with rfl | hx
      · have := h (.code m locks a) (by simp)
        cases m <;> simp_all [Frame.isHandler]
      · exact h x (mem_cons_of_mem _ (mem_cons_of_mem _ hx))
    · exact h x (mem_cons_of_mem _ hx)

/-! ## Moving on -/

/-- CPU `c` goes from stack `st` to stack `st'`, in a thread or in a handler of
interrupts; the other CPUs stay where they are. -/
structure Moves (s s' : KState) (c : ℕ) (st st' : List Frame) : Prop where
  cpu : ∀ c' ≠ c, s'.cpu c' = s.cpu c'
  proc : (s'.cpu c).proc = (s.cpu c).proc
  context : (s'.cpu c).context = (s.cpu c).context
  exec : (s.cpu c).exec = .thread st ∧ (s'.cpu c).exec = .thread st' ∨
    ∃ k, (s.cpu c).exec = .scheduler k st ∧ (s'.cpu c).exec = .scheduler k st' ∧ st ≠ []

/-- The part of a process that the invariant speaks of is the same. -/
def SameView (a b : Proc) : Prop := b.state = a.state ∧ b.context = a.context ∧ b.saved = a.saved

namespace Moves

theorem proc_eq (h : Moves s s' c st st') (c' : ℕ) : (s'.cpu c').proc = (s.cpu c').proc := by
  by_cases hc : c' = c
  · exact hc ▸ h.proc
  · rw [h.cpu c' hc]

theorem idle (h : Moves s s' c st st') (p : ℕ) : Idle s' p ↔ Idle s p := by
  simp only [Idle, h.proc_eq]

/-- The same processes are executing. -/
theorem executing (h : Moves s s' c st st') (p : ℕ) :
    (∃ c x, Executes s' c p x) ↔ ∃ c x, Executes s c p x := by
  constructor
  · rintro ⟨c', x, hp, hx⟩
    by_cases hc : c' = c
    · subst hc
      rw [h.proc] at hp
      rcases h.exec with ⟨h1, -⟩ | ⟨k, -, h2, -⟩
      · exact ⟨c', st, hp, h1⟩
      · rw [h2] at hx
        cases hx
    · rw [h.cpu c' hc] at hp hx
      exact ⟨c', x, hp, hx⟩
  · rintro ⟨c', x, hp, hx⟩
    by_cases hc : c' = c
    · subst hc
      rw [← h.proc] at hp
      rcases h.exec with ⟨-, h2⟩ | ⟨k, h1, -⟩
      · exact ⟨c', st', hp, h2⟩
      · rw [h1] at hx
        cases hx
    · rw [← h.cpu c' hc] at hp hx
      exact ⟨c', x, hp, hx⟩

/-- A thread is the one that moved, or an old one. -/
theorem thread (h : Moves s s' c st st') {x : List Frame} (ht : Thread s' p x)
    (hv : (s'.proc p).state.live = (s.proc p).state.live ∧
      (s'.proc p).context = (s.proc p).context ∨ ∃ c x, Executes s c p x) :
    (Executes s c p st ∧ x = st') ∨ Thread s p x := by
  rcases ht with ⟨c', hp, hx⟩ | ⟨hno, hlive, hctx⟩
  · by_cases hc : c' = c
    · subst hc
      rw [h.proc] at hp
      rcases h.exec with ⟨h1, h2⟩ | ⟨k, -, h2, -⟩
      · rw [h2] at hx
        exact .inl ⟨⟨hp, h1⟩, (Exec.thread.inj hx).symm⟩
      · rw [h2] at hx
        cases hx
    · rw [h.cpu c' hc] at hp hx
      exact .inr (.inl ⟨c', hp, hx⟩)
  · rw [h.executing] at hno
    rcases hv with ⟨h1, h2⟩ | hex
    · exact .inr (.inr ⟨hno, h1 ▸ hlive, h2 ▸ hctx⟩)
    · exact absurd hex hno

end Moves

theorem ClaimOk.congr (h : ClaimOk s f)
    (hv : ∀ n σ, f.claim = some (n, σ) → SameView (s.proc n) (s'.proc n)) : ClaimOk s' f := by
  intro n σ hc
  obtain ⟨h1, h2, h3⟩ := hv n σ hc
  rw [h1, h2, h3]
  exact h n σ hc

/-- What a CPU knows does not depend on the other CPUs. -/
theorem CpuOk.congr (h : CpuOk s c) (hcpu : s'.cpu c = s.cpu c)
    (hidle : ∀ i k st, (s.cpu c).exec = .scheduler k st → Lock.proc i ∈ k.held → Idle s i →
      Idle s' i)
    (hp : ∀ p st, Executes s c p st → (s'.proc p).state = (s.proc p).state)
    (hk : ∀ i k st, (s.cpu c).exec = .scheduler k st → Lock.proc i ∈ k.held →
      (s'.proc i).state = (s.proc i).state) : CpuOk s' c := by
  unfold CpuOk at h ⊢
  rw [hcpu]
  split
  · rename_i st hst
    rw [hst] at h
    obtain ⟨p, h1, h2, h3, h4⟩ := h
    exact ⟨p, h1, h2, h3, (hp p st ⟨h1, hst⟩).trans h4⟩
  · rename_i k st hst
    rw [hst] at h
    refine ⟨?_, h.2⟩
    have hk := fun i => hk i k st hst
    have h := h.1
    cases k with
    | start => simpa only [SchedulerOk, hcpu] using h
    | acquire i => simpa only [SchedulerOk, hcpu] using h
    | check i => simpa only [SchedulerOk, hcpu] using h
    | release i => simpa only [SchedulerOk, hcpu] using h
    | setRunning i =>
      simp only [SchedulerOk, hcpu, hk i mem_cons_self] at h ⊢
      exact ⟨h.1, h.2.1, hidle i _ st hst mem_cons_self h.2.2⟩
    | setProc i =>
      simp only [SchedulerOk, hcpu, hk i mem_cons_self] at h ⊢
      exact ⟨h.1, h.2.1, hidle i _ st hst mem_cons_self h.2.2⟩
    | swtch i => simpa only [SchedulerOk, hcpu, hk i mem_cons_self] using h
    | back i => simpa only [SchedulerOk, hcpu, hk i mem_cons_self] using h

/-- A process that runs stays on its CPU, or about to be on one. -/
theorem ProcInv.keepsRunning (h : ProcInv s) (hproc : ∀ c, (s'.cpu c).proc = (s.cpu c).proc)
    (hcpu : ∀ c' ≠ c, s'.cpu c' = s.cpu c')
    (hc : ∀ x, (s.cpu c).exec = .scheduler (.setProc p) x →
      ∃ y, (s'.cpu c).exec = .scheduler (.setProc p) y) (hr : (s.proc p).state = .RUNNING) :
    (∃ c, (s'.cpu c).proc = some p) ∨ ∃ c x, (s'.cpu c).exec = .scheduler (.setProc p) x := by
  rcases h.running p hr with ⟨c', hc'⟩ | ⟨c', x, hx⟩
  · exact .inl ⟨c', (hproc c').trans hc'⟩
  · by_cases hc' : c' = c
    · subst hc'
      exact .inr ⟨c', hc x hx⟩
    · exact .inr ⟨c', x, by rw [hcpu c' hc', hx]⟩

theorem Moves.keepsRunning (hm : Moves s s' c st st') (h : ProcInv s)
    (hr : (s.proc p).state = .RUNNING) :
    (∃ c, (s'.cpu c).proc = some p) ∨ ∃ c x, (s'.cpu c).exec = .scheduler (.setProc p) x := by
  refine h.keepsRunning hm.proc_eq hm.cpu (fun x hx => ?_) hr
  rcases hm.exec with ⟨h1, -⟩ | ⟨k, h1, h2, -⟩
  · cases h1.symm.trans hx
  · obtain ⟨rfl, -⟩ := Exec.scheduler.inj (h1.symm.trans hx)
    exact ⟨st', h2⟩

/-- Threads that fill no more slots than before fill no slot twice. -/
theorem ProcInv.fills (h : ProcInv s) (s' : KState)
    (hfill : ∀ p x, Thread s' p x → ∃ y, Thread s p y ∧ (filling x).Sublist (filling y)) :
    (∀ p p' x x' n, Thread s' p x → Thread s' p' x' → n ∈ filling x → n ∈ filling x' → p = p') ∧
      ∀ p x, Thread s' p x → (filling x).Nodup := by
  constructor
  · intro p p' x x' n ht ht' hx hx'
    obtain ⟨y, hy, hsub⟩ := hfill p x ht
    obtain ⟨y', hy', hsub'⟩ := hfill p' x' ht'
    exact h.fillUniq p p' y y' n hy hy' (hsub.subset hx) (hsub'.subset hx')
  · intro p x ht
    obtain ⟨y, hy, hsub⟩ := hfill p x ht
    exact (h.fillNodup p y hy).sublist hsub

/-- **A step within a stack of activations** that leaves states and contexts alone. -/
theorem ProcInv.stay (h : ProcInv s) (hm : Moves s s' c st st')
    (hview : ∀ n, SameView (s.proc n) (s'.proc n)) (hn : Next s c st st') : ProcInv s' := by
  have hstate : ∀ n, (s'.proc n).state = (s.proc n).state := fun n => (hview n).1
  have hthread : ∀ {p x}, Thread s' p x → (Executes s c p st ∧ x = st') ∨ Thread s p x :=
    fun ht => hm.thread ht (.inl ⟨by rw [hstate], (hview _).2.1⟩)
  have hclaim : ∀ {g}, ClaimOk s g → ClaimOk s' g := fun hg => hg.congr fun n _ _ => hview n
  obtain ⟨huniq, hnodup⟩ := h.fills s' fun p x ht => by
    rcases hthread ht with ⟨hex, rfl⟩ | ht
    · exact ⟨st, .inl ⟨c, hex⟩, hn.fill⟩
    · exact ⟨x, ht, List.Sublist.refl _⟩
  refine ⟨fun c' => ?_, fun c₁ c₂ p h₁ h₂ => ?_, fun p hno hlive => ?_, fun p hr => ?_,
    fun p x ht f hf => ?_, huniq, hnodup⟩
  · by_cases hc : c' = c
    · subst hc
      have hcpu := h.cpu c'
      unfold CpuOk at hcpu ⊢
      rcases hm.exec with ⟨h1, h2⟩ | ⟨k, h1, h2, hne⟩
      · rw [h1] at hcpu
        rw [h2]
        obtain ⟨p, hp, hctx, hok, hown⟩ := hcpu
        exact ⟨p, hm.proc.trans hp, hm.context.trans hctx, hn.stack p hp hok,
          by rw [hstate, hown, hn.own p hok]⟩
      · rw [h1] at hcpu
        rw [h2]
        obtain ⟨hsk, hhd, hk⟩ := hcpu
        obtain ⟨i, rfl⟩ := hk hne
        exact ⟨hm.proc.trans hsk, hn.handler hsk hhd, fun _ => ⟨i, rfl⟩⟩
    · exact (h.cpu c').congr (hm.cpu c' hc) (fun p _ _ _ _ => (hm.idle p).mpr) (fun p _ _ => hstate p)
        fun i _ _ _ _ => hstate i
  · rw [hm.proc_eq] at h₁ h₂
    exact h.uniq c₁ c₂ p h₁ h₂
  · rw [hm.executing] at hno
    rw [(hview p).2.2, (hview p).2.1]
    exact h.parked p hno (hstate p ▸ hlive)
  · exact hm.keepsRunning h (hstate p ▸ hr)
  · rcases hthread ht with ⟨hex, rfl⟩ | ht
    · exact hclaim (hn.claim (fun g hg => h.claims p st (.inl ⟨c, hex⟩) g hg) f hf)
    · exact hclaim (h.claims p x ht f hf)

/-! ## Changing the state of a process -/

theorem Frame.claim_held {n : ℕ} {σ : ProcState} (h : f.claim = some (n, σ)) (hσ : σ ≠ .USED) :
    Lock.proc n ∈ f.held := by
  unfold Frame.claim at h
  split at h
  · split at h <;> simp_all [Frame.held]
  · split at h <;> simp_all [Frame.held]
  · cases h

theorem Frame.claim_not_live {n : ℕ} {σ : ProcState} (h : f.claim = some (n, σ)) :
    σ.live = false := by
  unfold Frame.claim at h
  split at h
  · split at h <;> simp_all [ProcState.live]
    all_goals obtain ⟨-, rfl⟩ := h; rfl
  · split at h <;> simp_all [ProcState.live]
    all_goals obtain ⟨-, rfl⟩ := h; rfl
  · cases h

theorem Frame.contextSet_used {n : ℕ} {σ : ProcState} (h : f.claim = some (n, σ))
    (hf : f.contextSet = true) : σ = .USED := by
  unfold Frame.contextSet at hf
  split at hf
  · split at hf <;> simp_all [Frame.claim]
  · cases hf

theorem mem_filling {n : ℕ} : n ∈ filling st ↔ ∃ f ∈ st, f.claim = some (n, .USED) := by
  simp only [filling, mem_filterMap, Option.bind_eq_some_iff]
  constructor
  · rintro ⟨f, hf, ⟨m, σ⟩, hc, hx⟩
    split at hx
    · rename_i hσ
      cases hx
      exact ⟨f, hf, by rw [hc]; simp only at hσ; rw [hσ]⟩
    · cases hx
  · rintro ⟨f, hf, hc⟩
    exact ⟨f, hf, (n, .USED), hc, by simp⟩

/-- A process lock held by an activation is held by the stack below any others. -/
theorem StackOk.mem_heldBy {n : ℕ} (h : StackOk p st) (hf : f ∈ st) (hn : Lock.proc n ∈ f.held) :
    Lock.proc n ∈ heldBy st := by
  induction st with
  | nil => cases hf
  | cons g st ih =>
    rcases mem_cons.mp hf with rfl | hf
    · exact held_subset_heldBy _ _ _ hn
    · rw [heldBy_cons]
      exact mem_append_right _ (Over.mem_heldBelow h.2.1 (ih h.2.2 hf))

/-- The activations that hold the lock of their process across `swtch`. -/
def Frame.parks : Frame → Bool
  | .yield _ .release | .sleep _ _ _ .clearChan | .kexit _ _ _ .dead | .forkret _ => true
  | _ => false

theorem Frame.parks_of_claim (h : f.claim.isSome) : f.parks = false := by
  cases f <;> first | rfl | cases h

/-- In a stack that can be resumed no other activation has a process locked. -/
theorem Parked.not_held {n : ℕ} (h : Parked p st) (hf : f ∈ st) (hc : f.parks = false)
    (hn : Lock.proc n ∈ f.held) : False := by
  rcases h.top with rfl | ⟨st', rfl⟩
  · rw [mem_singleton.mp hf] at hc
    cases hc
  · obtain ⟨-, ⟨hcall, hheld⟩, hok⟩ := h.ok
    rcases mem_cons.mp hf with rfl | hf
    · cases hn
    · -- the caller of `sched` holds one lock already
      unfold CallsSched at hcall
      split at hcall
      case h_4 => exact hcall
      all_goals
        rcases mem_cons.mp hf with rfl | hf
        · cases hc
        · have hm := Over.mem_heldBelow hok.2.1 (hok.2.2.mem_heldBy hf hn)
          rw [heldBy_cons] at hheld
          simp only [Frame.held, cons_append, nil_append, List.cons.injEq] at hheld
          rw [hheld.2] at hm
          cases hm

/-- A CPU that holds the lock of a process which is not running, and is not that
process itself, finds it on no CPU. -/
theorem ProcInv.idle (h : ProcInv s) (hl : LockInv s) (hlock : Lock.proc q ∈ (s.cpu c).exec.held)
    (hσ : (s.proc q).state ≠ .RUNNING)
    (hc : (s.cpu c).proc ≠ some q) : Idle s q := by
  intro c' hc'
  have hne : c' ≠ c := by
    rintro rfl
    exact hc hc'
  have hcpu := h.cpu c'
  unfold CpuOk at hcpu
  split at hcpu
  · rename_i st hst
    obtain ⟨p, hp, -, hok, hown⟩ := hcpu
    obtain rfl := Option.some.inj (hp.symm.trans hc')
    have := hok.own_held (hown ▸ hσ)
    exact hne (hl.cpu_eq (by rw [hst]; exact this) hlock)
  · rename_i k st hst
    have hk := hcpu.1
    cases k with
    | swtch i =>
      obtain rfl := Option.some.inj (hk.1.symm.trans hc')
      exact hσ hk.2
    | back i =>
      obtain rfl := Option.some.inj (hk.1.symm.trans hc')
      exact hne (hl.cpu_eq (by rw [hst]; simp [Exec.held, SchedulerPc.held]) hlock)
    | setRunning i => simp [hk.1] at hc'
    | setProc i => simp [hk.1] at hc'
    | _ => simp [show (s.cpu c').proc = none from hk] at hc'

/-- A process has one thread. -/
theorem ProcInv.thread_eq (h : ProcInv s) (hex : Executes s c p st) (ht : Thread s p st') :
    st' = st := by
  rcases ht with ⟨c', hp, hx⟩ | ⟨hno, -⟩
  · obtain rfl := h.uniq c' c p hp hex.1
    rw [hex.2] at hx
    exact (Exec.thread.inj hx).symm
  · exact absurd ⟨c, st, hex⟩ hno

/-- What a CPU knows that executes a process. -/
theorem ProcInv.executing (h : ProcInv s) (hex : Executes s c p st) :
    (s.cpu c).context = .back p ∧ StackOk p st ∧ (s.proc p).state = ownState st := by
  have hcpu := h.cpu c
  unfold CpuOk at hcpu
  rw [hex.2] at hcpu
  obtain ⟨p', hp, hknows⟩ := hcpu
  obtain rfl := Option.some.inj (hp.symm.trans hex.1)
  exact hknows

theorem ProcInv.stackOk (h : ProcInv s) (hex : Executes s c p st) : StackOk p st :=
  (h.executing hex).2.1

/-- While an activation holds the lock of `q`, or `q` is the slot it is filling,
no other activation claims anything of `q`. -/
theorem ProcInv.claim_eq (h : ProcInv s) (hl : LockInv s) {σ : ProcState}
    (hexec : (s.cpu c).exec = .thread (f :: st) ∨ ∃ k, (s.cpu c).exec = .scheduler k (f :: st))
    (hlock : Lock.proc q ∈ f.held)
    (hused : (s.proc q).state = .USED → ∃ p, Executes s c p (f :: st) ∧ q ∈ filling [f])
    (ht : Thread s p st') (hg : g ∈ st') (hc : g.claim = some (q, σ)) :
    Executes s c p (f :: st) ∧ g ∉ st := by
  have hstate := (h.claims p st' ht g hg q σ hc).1
  have hheld := mem_held hexec hlock
  by_cases hσ : σ = .USED
  · subst hσ
    obtain ⟨p₀, hex, hq⟩ := hused hstate
    have hq' : q ∈ filling (f :: st) := by
      rw [filling_cons]
      exact mem_append_left _ hq
    obtain rfl := h.fillUniq p p₀ st' (f :: st) q ht (.inl ⟨c, hex⟩)
      (mem_filling.mpr ⟨g, hg, hc⟩) hq'
    refine ⟨hex, fun hgs => ?_⟩
    have hnd := h.fillNodup p _ (.inl ⟨c, hex⟩)
    rw [filling_cons] at hnd
    exact disjoint_of_nodup_append hnd hq (mem_filling.mpr ⟨g, hgs, hc⟩)
  · have hgh := Frame.claim_held hc hσ
    rcases ht with ⟨c', hex⟩ | ⟨hno, hlive, hctx⟩
    · have hmem := (h.stackOk hex).mem_heldBy hg hgh
      obtain rfl : c' = c := hl.cpu_eq (by rw [hex.2]; exact hmem) hheld
      rcases hexec with he | ⟨k, he⟩
      · obtain rfl := Exec.thread.inj (hex.2.symm.trans he)
        refine ⟨hex, fun hgs => ?_⟩
        have hnd := hl.nodup c'
        rw [he, Exec.held, heldBy_cons] at hnd
        obtain ⟨-, hover, hok⟩ := h.stackOk hex
        exact disjoint_of_nodup_append hnd hlock
          (hover.mem_heldBelow (hok.mem_heldBy hgs hgh))
      · have := hex.2.symm.trans he
        cases this
    · subst hctx
      exact ((h.parked p hno hlive).2.not_held hg (Frame.parks_of_claim (by rw [hc]; rfl)) hgh).elim

/-- A thread is the one that moved, or another one that did not. -/
theorem ProcInv.moved (h : ProcInv s) (hm : Moves s s' c st st') {x : List Frame}
    (ht : Thread s' p x) (hv : SameView (s.proc p) (s'.proc p)) :
    (Executes s c p st ∧ x = st') ∨ (Thread s p x ∧ ¬Executes s c p st) := by
  rcases hm.thread ht (.inl ⟨by rw [hv.1], hv.2.1⟩) with hx | hx
  · exact .inl hx
  · by_cases hex : Executes s c p st
    · rcases ht with ⟨c', hp, hx'⟩ | ⟨hno, -⟩
      · obtain rfl : c' = c := h.uniq c' c p (hm.proc_eq c' ▸ hp) hex.1
        rcases hm.exec with ⟨-, h2⟩ | ⟨k, h1, -⟩
        · exact .inl ⟨hex, Exec.thread.inj (hx'.symm.trans h2)⟩
        · have := hex.2.symm.trans h1
          cases this
      · exact absurd ⟨c, st, hex⟩ ((hm.executing p).not.mp hno)
    · exact .inr ⟨hx, hex⟩

theorem parked_forkret (q : ℕ) : Parked q [.forkret q] :=
  ⟨⟨rfl, ⟨rfl, by simp⟩, trivial⟩, rfl, rfl, .inl rfl⟩

/-- **A CPU changes a process whose lock it holds**, other than the one it runs
and not a running one. -/
theorem ProcInv.change (h : ProcInv s) (hl : LockInv s) (hm : Moves s s' c (f :: st) (g :: st))
    (hview : ∀ n ≠ q, SameView (s.proc n) (s'.proc n)) (hlock : Lock.proc q ∈ f.held)
    (hσ : (s.proc q).state ≠ .RUNNING) (hσ' : (s'.proc q).state ≠ .RUNNING)
    (hown : ownState (f :: st) = .RUNNING) (hown' : ownState (g :: st) = .RUNNING)
    (hof : ∀ p, f.Of p → g.Of p) (hover : Over f st → Over g st)
    (hh : f.isHandler = true → g.isHandler = true)
    (hused : (s.proc q).state = .USED → q ∈ filling [f] ∧ f.isHandler = false)
    (hfill : (filling [g]).Sublist [q]) (hclaim : ClaimOk s' g)
    (hlive : (s'.proc q).state.live = true →
      ((s.proc q).state.live = true ∧ (s'.proc q).context = (s.proc q).context ∧
        (s'.proc q).saved = (s.proc q).saved) ∨
      ((s'.proc q).context = [.forkret q] ∧ (s'.proc q).saved = true)) : ProcInv s' := by
  have hexec : (s.cpu c).exec = .thread (f :: st) ∨ ∃ k, (s.cpu c).exec = .scheduler k (f :: st) :=
    hm.exec.imp (·.1) fun ⟨k, hk, _⟩ => ⟨k, hk⟩
  have hheld := mem_held hexec hlock
  have hcpu := h.cpu c
  -- the CPU does not run `q` itself
  have hnq : (s.cpu c).proc ≠ some q := by
    unfold CpuOk at hcpu
    rcases hm.exec with ⟨h1, -⟩ | ⟨k, h1, -, hne⟩ <;> rw [h1] at hcpu
    · obtain ⟨p, hp, -, -, hst⟩ := hcpu
      rw [hp]
      rintro hpq
      cases hpq
      exact hσ (hst.trans hown)
    · obtain ⟨hk, -, hki⟩ := hcpu
      obtain ⟨i, rfl⟩ := hki hne
      rw [show (s.cpu c).proc = none from hk]
      simp
  have hidle := h.idle hl hheld hσ hnq
  have hnex : ¬∃ c x, Executes s c q x := fun ⟨c', _, hx, _⟩ => hidle c' hx
  have husedEx : (s.proc q).state = .USED → ∃ p, Executes s c p (f :: st) ∧ q ∈ filling [f] := by
    intro hu
    obtain ⟨hq, hnh⟩ := hused hu
    unfold CpuOk at hcpu
    rcases hm.exec with ⟨h1, -⟩ | ⟨k, h1, -, -⟩ <;> rw [h1] at hcpu
    · obtain ⟨p, hp, -⟩ := hcpu
      exact ⟨p, ⟨hp, h1⟩, hq⟩
    · rw [hcpu.2.1 f mem_cons_self] at hnh
      cases hnh
  -- nobody else claims anything of `q`
  have hclaims : ∀ {p x f' σ}, Thread s p x → f' ∈ x → f'.claim = some (q, σ) →
      Executes s c p (f :: st) ∧ f' ∉ st := fun ht hf' hc =>
    h.claim_eq hl hexec hlock husedEx ht hf' hc
  have hcases : ∀ {p x}, Thread s' p x →
      (Executes s c p (f :: st) ∧ x = g :: st) ∨ (Thread s p x ∧ ¬Executes s c p (f :: st)) ∨
      x = [.forkret q] := by
    intro p x ht
    by_cases hpq : p = q
    · subst hpq
      rcases ht with ⟨c', hx⟩ | ⟨-, hlv, hctx⟩
      · exact absurd ((hm.executing p).mp ⟨c', x, hx⟩) hnex
      · rcases hlive hlv with ⟨h1, h2, -⟩ | ⟨h1, -⟩
        · exact .inr (.inl ⟨.inr ⟨hnex, h1, h2 ▸ hctx⟩, fun hx => hnex ⟨c, _, hx⟩⟩)
        · exact .inr (.inr (hctx.symm.trans h1))
    · exact (h.moved hm ht (hview p hpq)).imp_right .inl
  have hclaim' : ∀ {p x}, Thread s p x → ¬Executes s c p (f :: st) → ∀ f' ∈ x, ClaimOk s' f' := by
    intro p x ht hnot f' hf'
    refine (h.claims p x ht f' hf').congr fun n σ hc => hview n ?_
    rintro rfl
    exact hnot (hclaims ht hf' hc).1
  have hrest : ∀ {p}, Executes s c p (f :: st) → ∀ f' ∈ st, ∀ σ, f'.claim ≠ some (q, σ) := by
    intro p hex f' hf' σ hc
    exact (hclaims (.inl ⟨c, hex⟩) (mem_cons_of_mem _ hf') hc).2 hf'
  have hqrest : ∀ {p}, Executes s c p (f :: st) → q ∉ filling st := by
    intro p hex hq
    obtain ⟨f', hf', hc⟩ := mem_filling.mp hq
    exact hrest hex f' hf' _ hc
  have hsub : (filling st).Sublist (filling (f :: st)) := by
    rw [filling_cons f]
    exact sublist_append_right _ _
  -- a slot some thread is filling: `q` by the one that moved, or one it was filling before
  have hfills : ∀ {p x n}, Thread s' p x → n ∈ filling x →
      (n = q ∧ Executes s c p (f :: st)) ∨ n ≠ q ∧ ∃ y, Thread s p y ∧ n ∈ filling y := by
    intro p x n ht hn
    rcases hcases ht with ⟨hex, rfl⟩ | ⟨ht, hnot⟩ | rfl
    · rw [filling_cons] at hn
      rcases mem_append.mp hn with hn | hn
      · exact .inl ⟨mem_singleton.mp (hfill.subset hn), hex⟩
      · refine .inr ⟨?_, f :: st, .inl ⟨c, hex⟩, hsub.subset hn⟩
        rintro rfl
        exact hqrest hex hn
    · refine .inr ⟨?_, x, ht, hn⟩
      rintro rfl
      obtain ⟨f', hf', hc⟩ := mem_filling.mp hn
      exact hnot (hclaims ht hf' hc).1
    · simp [filling, Frame.claim] at hn
  refine ⟨fun c' => ?_, fun c₁ c₂ p h₁ h₂ => ?_, fun p hno hlv => ?_, fun p hr => ?_,
    fun p x ht f' hf' => ?_, fun p p' x x' n ht ht' hx hx' => ?_, fun p x ht => ?_⟩
  · by_cases hc : c' = c
    · subst hc
      unfold CpuOk at hcpu ⊢
      rcases hm.exec with ⟨h1, h2⟩ | ⟨k, h1, h2, hne⟩
      · rw [h1] at hcpu
        rw [h2]
        obtain ⟨p, hp, hctx, ⟨hof', hover', hok⟩, hst⟩ := hcpu
        have hpq : p ≠ q := by
          rintro rfl
          exact hnq hp
        exact ⟨p, hm.proc.trans hp, hm.context.trans hctx, ⟨hof p hof', hover hover', hok⟩, by
          rw [(hview p hpq).1, hst, hown, hown']⟩
      · rw [h1] at hcpu
        rw [h2]
        obtain ⟨hsk, hhd, hk⟩ := hcpu
        obtain ⟨i, rfl⟩ := hk hne
        refine ⟨hm.proc.trans hsk, fun x hx => ?_, fun _ => ⟨i, rfl⟩⟩
        rcases mem_cons.mp hx with rfl | hx
        · exact hh (hhd f mem_cons_self)
        · exact hhd x (mem_cons_of_mem _ hx)
    · refine (h.cpu c').congr (hm.cpu c' hc) (fun p _ _ _ _ => (hm.idle p).mpr) (fun p x hex => ?_)
        fun i k x hx hi => ?_
      · refine (hview p ?_).1
        rintro rfl
        exact hidle c' hex.1
      · refine (hview i ?_).1
        rintro rfl
        exact hc (hl.cpu_eq (by rw [hx]; exact mem_append_left _ hi) hheld)
  · rw [hm.proc_eq] at h₁ h₂
    exact h.uniq c₁ c₂ p h₁ h₂
  · by_cases hpq : p = q
    · subst hpq
      rcases hlive hlv with ⟨h1, h2, h3⟩ | ⟨h1, h2⟩
      · rw [h2, h3]
        exact h.parked p hnex h1
      · rw [h1]
        exact ⟨h2, parked_forkret p⟩
    · rw [hm.executing] at hno
      rw [(hview p hpq).2.2, (hview p hpq).2.1]
      exact h.parked p hno ((hview p hpq).1 ▸ hlv)
  · have hpq : p ≠ q := by
      rintro rfl
      exact hσ' hr
    exact hm.keepsRunning h ((hview p hpq).1 ▸ hr)
  · rcases hcases ht with ⟨hex, rfl⟩ | ⟨ht, hnot⟩ | rfl
    · rcases mem_cons.mp hf' with rfl | hf'
      · exact hclaim
      · refine (h.claims p _ (.inl ⟨c, hex⟩) f' (mem_cons_of_mem _ hf')).congr
          fun n σ hc => hview n ?_
        rintro rfl
        exact hrest hex f' hf' σ hc
    · exact hclaim' ht hnot f' hf'
    · rw [mem_singleton.mp hf']
      exact fun n σ hc => absurd hc (by simp [Frame.claim])
  · rcases hfills ht hx with ⟨rfl, hex⟩ | ⟨hnq', y, hy, hny⟩
    · rcases hfills ht' hx' with ⟨-, hex'⟩ | ⟨hne, -⟩
      · exact Option.some.inj (hex.1.symm.trans hex'.1)
      · exact absurd rfl hne
    · rcases hfills ht' hx' with ⟨rfl, -⟩ | ⟨-, y', hy', hny'⟩
      · exact absurd rfl hnq'
      · exact h.fillUniq p p' y y' n hy hy' hny hny'
  · rcases hcases ht with ⟨hex, rfl⟩ | ⟨ht, -⟩ | rfl
    · rw [filling_cons]
      have hnd := (h.fillNodup p _ (.inl ⟨c, hex⟩)).sublist hsub
      refine List.Nodup.append ((nodup_singleton q).sublist hfill) hnd fun n hn hn' => ?_
      rw [mem_singleton.mp (hfill.subset hn)] at hn'
      exact hqrest hex hn'
    · exact h.fillNodup p x ht
    · simp [filling, Frame.claim]

/-- **A process changes its own state** on its way to `sched`, holding its lock. -/
theorem ProcInv.changeOwn (h : ProcInv s) (hl : LockInv s)
    (hm : Moves s s' c (f :: st) (g :: st)) (hex : Executes s c p (f :: st))
    (hview : ∀ n ≠ p, SameView (s.proc n) (s'.proc n)) (hlock : Lock.proc p ∈ f.held)
    (hrun : ownState (f :: st) = .RUNNING) (hst : (s'.proc p).state = ownState (g :: st))
    (hne : ownState (g :: st) ≠ .RUNNING) (hof : ∀ p, f.Of p → g.Of p)
    (hover : Over f st → Over g st) (hclaim : g.claim = none) : ProcInv s' := by
  obtain ⟨hctx, ⟨hof', hover', hok⟩, hstate⟩ := h.executing hex
  have hp := hex.1
  have hheld := mem_held (.inl hex.2) hlock
  have hexec' : (s'.cpu c).exec = .thread (g :: st) := by
    rcases hm.exec with ⟨-, h2⟩ | ⟨k, h1, -⟩
    · exact h2
    · have := hex.2.symm.trans h1
      cases this
  have hex' : Executes s' c p (g :: st) := ⟨hm.proc.trans hp, hexec'⟩
  have hthread : ∀ {n x}, Thread s' n x → (n = p ∧ x = g :: st) ∨ (n ≠ p ∧ Thread s n x) := by
    intro n x ht
    by_cases hn : n = p
    · subst hn
      rcases hm.thread ht (.inr ⟨c, _, hex⟩) with ⟨-, hx⟩ | hx
      · exact .inl ⟨rfl, hx⟩
      · rcases ht with ⟨c', hc', hx'⟩ | ⟨hno, -⟩
        · obtain rfl : c' = c := h.uniq c' c n (hm.proc_eq c' ▸ hc') hp
          exact .inl ⟨rfl, Exec.thread.inj (hx'.symm.trans hexec')⟩
        · exact absurd ⟨c, _, hex'⟩ hno
    · rcases h.moved hm ht (hview n hn) with ⟨hx, -⟩ | ⟨hx, -⟩
      · exact absurd (Option.some.inj (hx.1.symm.trans hp)) hn
      · exact .inr ⟨hn, hx⟩
  -- nobody claims anything of a running process
  have hclaims : ∀ {f'}, ClaimOk s f' → ClaimOk s' f' := by
    intro f' hf'
    refine hf'.congr fun n σ hc => hview n ?_
    rintro rfl
    have := Frame.claim_not_live hc
    rw [← (hf' n σ hc).1, hstate, hrun] at this
    cases this
  have hsub : (filling (g :: st)).Sublist (filling (f :: st)) := by
    rw [filling_cons, filling_cons f, show filling [g] = [] by simp [filling, hclaim]]
    exact sublist_append_right _ _
  obtain ⟨huniq, hnodup⟩ := h.fills s' fun n x ht => by
    rcases hthread ht with ⟨rfl, rfl⟩ | ⟨-, ht⟩
    · exact ⟨f :: st, .inl ⟨c, hex⟩, hsub⟩
    · exact ⟨x, ht, List.Sublist.refl _⟩
  refine ⟨fun c' => ?_, fun c₁ c₂ n h₁ h₂ => ?_, fun n hno hlive => ?_, fun n hr => ?_,
    fun n x ht f' hf' => ?_, huniq, hnodup⟩
  · by_cases hc : c' = c
    · subst hc
      unfold CpuOk
      rw [hexec']
      exact ⟨p, hm.proc.trans hp, hm.context.trans hctx, ⟨hof p hof', hover hover', hok⟩, hst⟩
    · refine (h.cpu c').congr (hm.cpu c' hc) (fun n _ _ _ _ => (hm.idle n).mpr) (fun n x hx => ?_)
        fun i k x hx hi => ?_
      · refine (hview n ?_).1
        rintro rfl
        exact hc (h.uniq c' c n hx.1 hp)
      · refine (hview i ?_).1
        rintro rfl
        exact hc (hl.cpu_eq (by rw [hx]; exact mem_append_left _ hi) hheld)
  · rw [hm.proc_eq] at h₁ h₂
    exact h.uniq c₁ c₂ n h₁ h₂
  · have hn : n ≠ p := by
      rintro rfl
      exact hno ⟨c, _, hex'⟩
    rw [hm.executing] at hno
    rw [(hview n hn).2.2, (hview n hn).2.1]
    exact h.parked n hno ((hview n hn).1 ▸ hlive)
  · have hn : n ≠ p := by
      rintro rfl
      exact hne (hst.symm.trans hr)
    exact hm.keepsRunning h ((hview n hn).1 ▸ hr)
  · rcases hthread ht with ⟨rfl, rfl⟩ | ⟨-, ht⟩
    · rcases mem_cons.mp hf' with rfl | hf'
      · exact fun m σ hc => absurd hc (by simp [hclaim])
      · exact hclaims (h.claims n _ (.inl ⟨c, hex⟩) f' (mem_cons_of_mem _ hf'))
    · exact hclaims (h.claims n x ht f' hf')

/-! ## The scheduler -/

/-- A step that changes neither the threads nor the state of any process
without one. -/
theorem ProcInv.sameThreads (h : ProcInv s)
    (hex : ∀ c p x, Executes s' c p x ↔ Executes s c p x)
    (hview : ∀ n, (s'.proc n).state.live = (s.proc n).state.live ∧
      (s'.proc n).context = (s.proc n).context ∧ (s'.proc n).saved = (s.proc n).saved)
    (hdead : ∀ n, (s.proc n).state.live = false → (s'.proc n).state = (s.proc n).state)
    (hcpu : ∀ c, CpuOk s' c)
    (huniq : ∀ c c' p, (s'.cpu c).proc = some p → (s'.cpu c').proc = some p → c = c')
    (hrun : ∀ p, (s'.proc p).state = .RUNNING → (∃ c, (s'.cpu c).proc = some p) ∨
      ∃ c st, (s'.cpu c).exec = .scheduler (.setProc p) st) : ProcInv s' := by
  have hthread : ∀ {p x}, Thread s' p x → Thread s p x := by
    intro p x ht
    simpa only [Thread, hex, (hview p).1, (hview p).2.1] using ht
  refine ⟨hcpu, huniq, fun p hno hlive => ?_, hrun, fun p x ht f hf => ?_,
    fun p p' x x' n ht ht' => h.fillUniq p p' x x' n (hthread ht) (hthread ht'),
    fun p x ht => h.fillNodup p x (hthread ht)⟩
  · simp only [hex] at hno
    rw [(hview p).2.1, (hview p).2.2]
    exact h.parked p hno ((hview p).1 ▸ hlive)
  · have hf := h.claims p x (hthread ht) f hf
    refine hf.congr fun n σ hc => ?_
    have hl := Frame.claim_not_live hc
    rw [← (hf n σ hc).1] at hl
    exact ⟨hdead n hl, (hview n).2.1, (hview n).2.2⟩

/-- `c->proc` is the same on every CPU, if it is on the one that moves. -/
theorem sameProc (hcpu : ∀ c' ≠ c, s'.cpu c' = s.cpu c')
    (hcp : (s'.cpu c).proc = (s.cpu c).proc) (c' : ℕ) : (s'.cpu c').proc = (s.cpu c').proc := by
  by_cases hc : c' = c
  · exact hc ▸ hcp
  · rw [hcpu c' hc]

/-- What a CPU knows that runs the scheduler, and no interrupt handler. -/
theorem CpuOk.scheduler {k : SchedulerPc} (hk : (s.cpu c).exec = .scheduler k [])
    (h : SchedulerOk s c k) : CpuOk s c := by
  unfold CpuOk
  rw [hk]
  exact ⟨h, fun f hf => absurd hf (by simp), fun hne => absurd rfl hne⟩

/-- The scheduler moves on, leaving the process table and `c->proc` alone. -/
theorem ProcInv.schedule (h : ProcInv s) {k k' : SchedulerPc}
    (hk : (s.cpu c).exec = .scheduler k []) (hk' : (s'.cpu c).exec = .scheduler k' st)
    (hcpu : ∀ c' ≠ c, s'.cpu c' = s.cpu c') (hproc : s'.proc = s.proc)
    (hcp : (s'.cpu c).proc = (s.cpu c).proc) (hnot : ∀ p, k ≠ .setProc p)
    (hok : CpuOk s' c) : ProcInv s' := by
  have hpe := sameProc hcpu hcp
  refine h.sameThreads (fun c' p x => ?_) (fun n => by simp [hproc]) (fun n _ => by rw [hproc])
    (fun c' => ?_) (fun c₁ c₂ p h₁ h₂ => ?_) fun p hr => ?_
  · by_cases hc : c' = c
    · subst hc
      simp [Executes, hk, hk']
    · simp [Executes, hcpu c' hc]
  · by_cases hc : c' = c
    · exact hc ▸ hok
    · exact (h.cpu c').congr (hcpu c' hc) (fun p _ _ _ _ hi c'' => (hpe c'') ▸ hi c'')
        (fun p _ _ => by rw [hproc]) fun i _ _ _ _ => by rw [hproc]
  · rw [hpe] at h₁ h₂
    exact h.uniq c₁ c₂ p h₁ h₂
  · refine h.keepsRunning hpe hcpu (fun x hx => ?_) (hproc ▸ hr)
    exact absurd (Exec.scheduler.inj (hk.symm.trans hx)).1 (hnot p)

end Xv6
