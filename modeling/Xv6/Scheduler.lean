import Xv6.ProcRun

/-!
# The scheduler, and runs of any number of CPUs

The scheduler and interrupts keep the invariant of the process machine, so
every step of every CPU does. From this, what holds in every reachable state:
no process is on two CPUs, and none is freed while it is on one
(`one_cpu_per_process`).
-/

namespace Xv6

open List

variable {s s' : KState} {c p : ℕ} {k k' : SchedulerPc} {st : List Frame}

/-! ## The scheduler -/

theorem setCpu_ne {x : Cpu} {c' : ℕ} (h : c' ≠ c) : (s.setCpu c x).cpu c' = s.cpu c' :=
  Function.update_of_ne h ..

theorem setCpu_self (s : KState) (c : ℕ) (x : Cpu) : (s.setCpu c x).cpu c = x :=
  Function.update_self ..

namespace KInv

/-- What a CPU that runs the scheduler knows. -/
theorem schedulerOk (h : KInv s) (hk : (s.cpu c).exec = .scheduler k st) : SchedulerOk s c k := by
  have hcpu := h.procs.cpu c
  unfold CpuOk at hcpu
  rw [hk] at hcpu
  exact hcpu.1

/-- The scheduler moves on, leaving locks, the process table and `c->proc` alone. -/
theorem schedule (h : KInv s) (hk : (s.cpu c).exec = .scheduler k []) (hnot : ∀ p, k ≠ .setProc p)
    (hheld : k'.held ++ heldBy st = k.held) (hok : SchedulerOk s c k')
    (hst : st = [] ∨ Handler st ∧ ∃ i, k' = .acquire i) :
    KInv (s.goto c (.scheduler k' st)) := by
  have hself := goto_cpu_self s c (.scheduler k' st)
  have hp := sameProc (s := s) (c := c) (fun c' => goto_cpu_ne) (by rw [hself])
  refine ⟨h.locks.keep (c := c) rfl (fun c' => goto_cpu_ne) (by rw [hself]) ?_,
    h.procs.schedule hk (by rw [hself]) (fun c' => goto_cpu_ne) rfl (hp c) hnot ?_⟩
  · rw [hself, hk]
    simpa [Exec.held, heldBy] using hheld
  · have hproc : (s.goto c (.scheduler k' st)).proc = s.proc := rfl
    have hok' : SchedulerOk (s.goto c (.scheduler k' st)) c k' := by
      cases k' <;> simpa only [SchedulerOk, Idle, hp, hproc] using hok
    rcases hst with rfl | ⟨hst, hacq⟩
    · exact .scheduler (by rw [hself]) hok'
    · unfold CpuOk
      rw [hself]
      exact ⟨hok', hst, fun _ => hacq⟩

theorem schedAcquire {i : ℕ} (h : KInv s) (hk : (s.cpu c).exec = .scheduler (.acquire i) [])
    (hs : s.acquire c (.proc i) (.scheduler (.check i) []) = .ok s') : KInv s' := by
  refine ⟨h.locks.acquire hs (by rw [hk]; exact List.Perm.refl _), ?_⟩
  have hnone : (s.cpu c).proc = none := h.schedulerOk hk
  obtain ⟨-, rfl⟩ := acquire_eq hs
  refine h.procs.schedule hk (show _ = Exec.scheduler (.check i) [] from
    congrArg Cpu.exec (setCpu_self ..)) (fun c' hc => setCpu_ne hc) rfl ?_ (by simp)
    (.scheduler (congrArg Cpu.exec (setCpu_self ..)) ?_)
  all_goals simp [setCpu_self, SchedulerOk, hnone]

theorem schedRelease {i : ℕ} (h : KInv s) (hk : (s.cpu c).exec = .scheduler (.release i) [])
    (hs : s.release c (.proc i) (.scheduler (.acquire (i + 1)) []) = .ok s') : KInv s' := by
  refine ⟨h.locks.release hs (by rw [hk]; exact List.Perm.refl _), ?_⟩
  have hnone : (s.cpu c).proc = none := h.schedulerOk hk
  obtain ⟨-, rfl⟩ := release_eq hs
  refine h.procs.schedule hk (show _ = Exec.scheduler (.acquire (i + 1)) [] from
    congrArg Cpu.exec (setCpu_self ..)) (fun c' hc => setCpu_ne hc) rfl ?_ (by simp)
    (.scheduler (congrArg Cpu.exec (setCpu_self ..)) ?_)
  all_goals simp [setCpu_self, SchedulerOk, hnone]

/-- `p->state = RUNNING` -/
theorem schedSetRunning {i : ℕ} (h : KInv s)
    (hk : (s.cpu c).exec = .scheduler (.setRunning i) []) :
    KInv ((s.setProc i fun q => { q with state := .RUNNING }).goto c
      (.scheduler (.setProc i) [])) := by
  obtain ⟨hnone, hrunnable, hidle⟩ := h.schedulerOk hk
  set s' := (s.setProc i fun q => { q with state := .RUNNING }).goto c (.scheduler (.setProc i) [])
    with hs'
  have hne : ∀ c' ≠ c, s'.cpu c' = s.cpu c' := fun c' hc => by
    rw [hs', goto_cpu_ne hc]
    rfl
  have hself : s'.cpu c = { s.cpu c with exec := .scheduler (.setProc i) [] } := by
    rw [hs', goto_cpu_self]
    rfl
  have hproc := sameProc hne (by rw [hself])
  have hi : s'.proc i = { s.proc i with state := .RUNNING } := setProc_self
  have hview : ∀ n ≠ i, SameView (s.proc n) (s'.proc n) := setProc_view
  have hheld : Lock.proc i ∈ (s.cpu c).exec.held := by
    rw [hk]
    simp [Exec.held, SchedulerPc.held]
  refine ⟨h.locks.keep (c := c) rfl hne (by rw [hself]) (by rw [hself, hk]; rfl),
    h.procs.sameThreads (fun c' p x => ?_) (fun n => ?_) (fun n hn => ?_) (fun c' => ?_)
      (fun c₁ c₂ p h₁ h₂ => ?_) fun p hr => ?_⟩
  · by_cases hc : c' = c
    · subst hc
      simp [Executes, hself, hk]
    · simp [Executes, hne c' hc]
  · by_cases hn : n = i
    · subst hn
      rw [hi, hrunnable]
      exact ⟨rfl, rfl, rfl⟩
    · rw [(hview n hn).1]
      exact ⟨rfl, (hview n hn).2⟩
  · refine (hview n ?_).1
    rintro rfl
    rw [hrunnable] at hn
    cases hn
  · by_cases hc : c' = c
    · subst hc
      refine .scheduler (k := .setProc i) (by rw [hself]) ⟨?_, ?_, fun c'' => ?_⟩
      · rw [hself]
        exact hnone
      · rw [hi]
      · rw [hproc]
        exact hidle c''
    · refine (h.procs.cpu c').congr (hne c' hc) (fun p _ _ _ _ hp c'' => (hproc c'').symm ▸ hp c'')
        (fun p x hex => (hview p ?_).1) fun j k x hx hj => (hview j ?_).1
      · rintro rfl
        exact hidle c' hex.1
      · rintro rfl
        exact hc (h.locks.cpu_eq (by rw [hx]; exact mem_append_left _ hj) hheld)
  · rw [hproc] at h₁ h₂
    exact h.procs.uniq c₁ c₂ p h₁ h₂
  · by_cases hpi : p = i
    · exact .inr ⟨c, [], by rw [hpi, hself]⟩
    · refine h.procs.keepsRunning hproc hne (fun x hx => ?_) ((hview p hpi).1 ▸ hr)
      cases hk.symm.trans hx

/-- `c->proc` is set to a process that is on no CPU, or cleared once its process no longer runs. -/
theorem schedSetCpuProc {v : Option ℕ} (h : KInv s)
    (hk : (s.cpu c).exec = .scheduler k []) (hheld : k'.held = k.held)
    (hki : ∀ n, k = .setProc n → v = some n)
    (hv : ∀ n, v = some n → Lock.proc n ∈ k.held ∧ Idle s n)
    (hold : ∀ n, (s.cpu c).proc = some n → (s.proc n).state ≠ .RUNNING)
    (hok : ∀ s' : KState, s'.proc = s.proc → (s'.cpu c).proc = v → SchedulerOk s' c k') :
    KInv (s.setCpu c { s.cpu c with proc := v, exec := .scheduler k' [] }) := by
  set s' := s.setCpu c { s.cpu c with proc := v, exec := .scheduler k' [] } with hs'
  have hne : ∀ c' ≠ c, s'.cpu c' = s.cpu c' := fun c' => setCpu_ne
  have hself : s'.cpu c = { s.cpu c with proc := v, exec := .scheduler k' [] } := setCpu_self ..
  have hlock : ∀ {n}, Lock.proc n ∈ k.held → Lock.proc n ∈ (s.cpu c).exec.held := fun hn => by
    rw [hk]
    exact mem_append_left _ hn
  have hidle : ∀ {n}, v ≠ some n → Idle s n → Idle s' n := fun hn hi c' => by
    by_cases hc : c' = c
    · rw [hc, hself]
      exact hn
    · rw [hne c' hc]
      exact hi c'
  refine ⟨h.locks.keep (c := c) rfl hne (by rw [hself]) ?_,
    h.procs.sameThreads (fun c' p x => ?_) (fun n => ⟨rfl, rfl, rfl⟩) (fun n _ => rfl)
      (fun c' => ?_) (fun c₁ c₂ p h₁ h₂ => ?_) fun p hr => ?_⟩
  · rw [hself, hk]
    simp [Exec.held, hheld]
  · by_cases hc : c' = c
    · subst hc
      simp [Executes, hself, hk]
    · simp [Executes, hne c' hc]
  · by_cases hc : c' = c
    · subst hc
      exact .scheduler (by rw [hself]) (hok s' rfl (by rw [hself]))
    · refine (h.procs.cpu c').congr (hne c' hc) (fun n k x hx hn => hidle fun hvn => ?_)
        (fun _ _ _ => rfl) fun _ _ _ _ _ => rfl
      exact hc (h.locks.cpu_eq (by rw [hx]; exact mem_append_left _ hn)
        (hlock (hv n hvn).1))
  · by_cases hc₁ : c₁ = c <;> by_cases hc₂ : c₂ = c
    · exact hc₁.trans hc₂.symm
    · rw [hc₁, hself] at h₁
      rw [hne c₂ hc₂] at h₂
      exact absurd h₂ ((hv p h₁).2 c₂)
    · rw [hc₂, hself] at h₂
      rw [hne c₁ hc₁] at h₁
      exact absurd h₁ ((hv p h₂).2 c₁)
    · rw [hne c₁ hc₁] at h₁
      rw [hne c₂ hc₂] at h₂
      exact h.procs.uniq c₁ c₂ p h₁ h₂
  · rcases h.procs.running p hr with ⟨c', hc'⟩ | ⟨c', x, hx⟩
    · refine .inl ⟨c', ?_⟩
      rw [hne c' ?_]
      · exact hc'
      · rintro rfl
        exact hold p hc' hr
    · by_cases hc : c' = c
      · subst hc
        refine .inl ⟨c', ?_⟩
        rw [hself]
        exact hki p (Exec.scheduler.inj (hk.symm.trans hx)).1
      · exact .inr ⟨c', x, by rw [hne c' hc, hx]⟩

/-- `swtch(&c->context, &p->context)` gives the lock of `p` to its thread. -/
theorem schedSwtch {i : ℕ} (h : KInv s) (hk : (s.cpu c).exec = .scheduler (.swtch i) []) :
    KInv ((s.setProc i fun q => { q with saved := false }).setCpu c
      { s.cpu c with context := .back i, exec := .thread (s.proc i).context }) := by
  obtain ⟨hp, hrunning⟩ := h.schedulerOk hk
  -- no CPU executes `p` yet: it is on this one
  have hno : ¬∃ c' x, Executes s c' i x := by
    rintro ⟨c', x, h1, h2⟩
    obtain rfl := h.procs.uniq c' c i h1 hp
    cases hk.symm.trans h2
  have hlive : (s.proc i).state.live = true := by rw [hrunning]; rfl
  obtain ⟨-, hparked⟩ := h.procs.parked i hno hlive
  set s' := (s.setProc i fun q => { q with saved := false }).setCpu c
    { s.cpu c with context := .back i, exec := .thread (s.proc i).context } with hs'
  have hne : ∀ c' ≠ c, s'.cpu c' = s.cpu c' := fun c' => setCpu_ne
  have hself : s'.cpu c =
      { s.cpu c with context := .back i, exec := .thread (s.proc i).context } := setCpu_self ..
  have hproc := sameProc hne (by rw [hself])
  have hview : ∀ n ≠ i, s'.proc n = s.proc n := fun n hn => Function.update_of_ne hn ..
  have hi : s'.proc i = { s.proc i with saved := false } := Function.update_self ..
  have hst : ∀ n, (s'.proc n).state = (s.proc n).state ∧ (s'.proc n).context = (s.proc n).context := by
    intro n
    by_cases hn : n = i
    · rw [hn, hi]
      exact ⟨rfl, rfl⟩
    · rw [hview n hn]
      exact ⟨rfl, rfl⟩
  have hex : Executes s' c i (s.proc i).context := by
    constructor
    · rw [hproc]
      exact hp
    · rw [hself]
  have hexec : ∀ {c' n x}, Executes s c' n x → Executes s' c' n x := by
    rintro c' n x ⟨h1, h2⟩
    have hc : c' ≠ c := by
      rintro rfl
      cases hk.symm.trans h2
    exact ⟨(hproc c').trans h1, by rw [hne c' hc, h2]⟩
  -- the threads are the same
  have hthread : ∀ {n x}, Thread s' n x → Thread s n x := by
    rintro n x (⟨c', h1, h2⟩ | ⟨hno', hlive', hctx⟩)
    · by_cases hc : c' = c
      · subst hc
        rw [hself] at h1 h2
        obtain rfl := Option.some.inj (hp.symm.trans h1)
        exact .inr ⟨hno, hlive, Exec.thread.inj h2⟩
      · rw [hne c' hc] at h1 h2
        exact .inl ⟨c', h1, h2⟩
    · exact .inr ⟨fun ⟨c', y, hy⟩ => hno' ⟨c', y, hexec hy⟩, (hst n).1 ▸ hlive', (hst n).2 ▸ hctx⟩
  refine ⟨h.locks.keep (c := c) rfl hne (by rw [hself]) ?_, fun c' => ?_, fun c₁ c₂ n h₁ h₂ => ?_,
    fun n hn hlv => ?_, fun n hr => ?_, fun n x ht f hf => ?_,
    fun n n' x x' m ht ht' => h.procs.fillUniq n n' x x' m (hthread ht) (hthread ht'),
    fun n x ht => h.procs.fillNodup n x (hthread ht)⟩
  · rw [hself, hk]
    exact hparked.held
  · by_cases hc : c' = c
    · subst hc
      unfold CpuOk
      rw [hself]
      refine ⟨i, hp, rfl, hparked.ok, ?_⟩
      rw [(hst i).1, hparked.own]
      exact hrunning
    · exact (h.procs.cpu c').congr (hne c' hc) (fun n _ _ _ _ hn c'' => (hproc c'').symm ▸ hn c'')
        (fun n _ _ => (hst n).1) fun n _ _ _ _ => (hst n).1
  · rw [hproc] at h₁ h₂
    exact h.procs.uniq c₁ c₂ n h₁ h₂
  · have hni : n ≠ i := by
      rintro rfl
      exact hn ⟨c, _, hex⟩
    rw [hview n hni] at hlv ⊢
    exact h.procs.parked n (fun ⟨c', y, hy⟩ => hn ⟨c', y, hexec hy⟩) hlv
  · refine h.procs.keepsRunning hproc hne (fun x hx => ?_) ((hst n).1 ▸ hr)
    cases hk.symm.trans hx
  · have hf := h.procs.claims n x (hthread ht) f hf
    refine hf.congr fun m σ hc => ?_
    have hm : m ≠ i := by
      rintro rfl
      have := Frame.claim_not_live hc
      rw [← (hf m σ hc).1, hlive] at this
      cases this
    rw [hview m hm]
    exact ⟨rfl, rfl, rfl⟩

theorem schedulerStep (h : KInv s) (hk : (s.cpu c).exec = .scheduler k [])
    (hs : s.schedulerStep c k = .ok s') : KInv s' := by
  have hok := h.schedulerOk hk
  cases k with
  | start =>
    cases hs
    have hnone : (s.cpu c).proc = none := hok
    exact h.schedSetCpuProc hk rfl (by simp) (by simp) (by simp [hnone]) fun _ _ hp => hp
  | acquire i =>
    rw [KState.schedulerStep] at hs
    split at hs
    · exact h.schedAcquire hk hs
    · cases hs
      exact h.schedule hk (by simp) rfl hok (.inl rfl)
  | check i =>
    have hnone : (s.cpu c).proc = none := hok
    rw [KState.schedulerStep] at hs
    split at hs
    · rename_i hr
      cases hs
      have hidle : Idle s i := h.procs.idle (c := c) h.locks
        (by rw [hk]; simp [Exec.held, SchedulerPc.held]) (by simp [hr]) (by simp [hnone])
      exact h.schedule hk (by simp) rfl ⟨hnone, hr, hidle⟩ (.inl rfl)
    · cases hs
      exact h.schedule hk (by simp) rfl hok (.inl rfl)
  | setRunning i =>
    cases hs
    exact h.schedSetRunning hk
  | setProc i =>
    cases hs
    obtain ⟨hnone, hr, hidle⟩ := hok
    refine h.schedSetCpuProc hk rfl (by simp) ?_ (by simp [hnone]) fun _ hp hc => ⟨hc, hp ▸ hr⟩
    rintro n hn
    cases hn
    exact ⟨mem_cons_self, hidle⟩
  | swtch i =>
    cases hs
    exact h.schedSwtch hk
  | back i =>
    cases hs
    obtain ⟨hp, hr, -⟩ := hok
    refine h.schedSetCpuProc hk rfl (by simp) (by simp) (fun n hn => ?_) fun _ _ hc => hc
    obtain rfl := Option.some.inj (hp.symm.trans hn)
    exact hr
  | release i => exact h.schedRelease hk hs

end KInv

/-! ## Interrupts -/

/-- A thread that holds no lock may be interrupted. -/
theorem StackOk.quiet (h : StackOk p st) (hnil : heldBy st = []) : Quiet st := by
  constructor
  · by_contra hne
    have := h.own_held hne
    rw [hnil] at this
    cases this
  · rintro f hf
    rcases st with _ | ⟨g, st⟩
    · cases hf
    obtain rfl := Option.some.inj hf
    cases g with
    | sched q k =>
      have := h.2.2.calls_held (Over.callsSched h.2.1)
      rw [show heldBy st = [] from hnil] at this
      cases this
    | _ => rfl

namespace KInv

theorem heldBy_nil (h : KInv s) (hx : (s.cpu c).exec = .thread st) (hn : (s.cpu c).noff = 0) :
    heldBy st = [] := by
  have hlen := h.locks.noff c
  rw [hx, hn] at hlen
  exact length_eq_zero_iff.mp hlen.symm

/-- An interrupt puts `d` on top of a thread that holds no lock. -/
theorem interrupt {d : Frame} (h : KInv s) (hx : (s.cpu c).exec = .thread st)
    (hn : (s.cpu c).noff = 0) (hof : ∀ p, (s.cpu c).proc = some p → d.Of p)
    (hover : Quiet st → Over d st) (hown : ownState (d :: st) = .RUNNING) (hclaim : d.claim = none)
    (hheld : heldBy (d :: st) = heldBy st) : KInv (s.goto c (.thread (d :: st))) := by
  have hnil := h.heldBy_nil hx hn
  obtain ⟨p, hex, -⟩ := h.thread_executes hx
  refine h.goto ⟨hx, .inl rfl⟩ (.push hof (fun q hq => ?_) hown hclaim fun hnone => ?_) hheld
  · exact ⟨hover (hq.quiet hnil), hq.quiet hnil⟩
  · rw [hex.1] at hnone
    cases hnone

/-- **Every step of every CPU keeps the invariant.** -/
theorem step {e : KEv} (h : KInv s) (hs : kStep s e = .ok s') : KInv s' := by
  rcases kStep_effect hs with ⟨hr, hi, hrun⟩ | ⟨hk, hsch⟩ | ⟨hx, hn, hd, rfl⟩ | ⟨hx, rfl⟩
  · exact h.instrStep hr hi hrun
  · exact h.schedulerStep hk hsch
  · rcases hd with rfl | ⟨p, hp, rfl⟩
    · exact h.interrupt hx hn (fun _ _ => trivial) id rfl rfl rfl
    · exact h.interrupt hx hn (fun q hq => Option.some.inj (hp.symm.trans hq)) id rfl rfl rfl
  · -- a device interrupts an idle scheduler
    refine h.schedule hx (by simp) rfl (h.schedulerOk hx) (.inr ⟨fun f hf => ?_, _, rfl⟩)
    rw [mem_singleton.mp hf]
    rfl

theorem init : KInv kInit := by
  have hno : ¬∃ c p x, Executes kInit c p x := by
    rintro ⟨c, p, x, -, hx⟩
    cases hx
  have hlive : ∀ p, (kInit.proc p).state.live = true →
      (kInit.proc p).saved = true ∧ (kInit.proc p).context = [.forkret p] := by
    intro p hp
    simp only [kInit] at hp ⊢
    split at hp
    · rename_i h0
      rw [if_pos h0]
      exact ⟨rfl, rfl⟩
    · cases hp
  -- the only threads are about to run `forkret`
  have hthread : ∀ {p x}, Thread kInit p x → x = [.forkret p] := by
    rintro p x (⟨c, hx⟩ | ⟨-, hp, hx⟩)
    · exact absurd ⟨c, p, x, hx⟩ hno
    · exact hx.symm.trans (hlive p hp).2
  refine ⟨⟨fun l c => ?_, fun c => ?_, fun c => rfl⟩, fun c => ?_, fun c c' p hp => ?_,
    fun p _ hp => ?_, fun p hp => ?_, fun p x ht f hf => ?_, fun p p' x x' n ht _ hx => ?_,
    fun p x ht => ?_⟩
  · simp [kInit, Exec.held, SchedulerPc.held, heldBy]
  · simp [kInit, Exec.held, SchedulerPc.held, heldBy]
  · exact .scheduler (k := .start) rfl rfl
  · cases hp
  · obtain ⟨h1, h2⟩ := hlive p hp
    rw [h2]
    exact ⟨h1, parked_forkret p⟩
  · simp only [kInit] at hp
    split at hp <;> cases hp
  · rw [hthread ht, mem_singleton] at hf
    rw [hf]
    exact fun n σ hc => absurd hc (by simp [Frame.claim])
  · rw [hthread ht] at hx
    simp [filling, Frame.claim] at hx
  · rw [hthread ht]
    simp [filling, Frame.claim]

/-- The invariant holds in every reachable state. -/
theorem run {C : KState → KEv → Prop} (h : Run kStep C kInit s) : KInv s :=
  h.invariant init fun _ _ _ hi _ hs => hi.step hs

end KInv

/-! ## No process is on two CPUs, or freed while it is on one -/

/-- While nobody holds the lock of a process, it is running exactly when it is on a CPU. -/
theorem KInv.running_iff (h : KInv s) (hfree : s.lock (.proc p) = none) :
    (s.proc p).state = .RUNNING ↔ ∃ c, (s.cpu c).proc = some p := by
  have hnot : ∀ c, Lock.proc p ∉ (s.cpu c).exec.held := fun c hm => by
    rw [(h.locks.lock _ c).mpr hm] at hfree
    cases hfree
  constructor
  · intro hr
    rcases h.procs.running p hr with hc | ⟨c, x, hx⟩
    · exact hc
    · refine absurd ?_ (hnot c)
      rw [hx]
      exact mem_append_left _ mem_cons_self
  · rintro ⟨c, hc⟩
    by_contra hr
    have hcpu := h.procs.cpu c
    unfold CpuOk at hcpu
    split at hcpu
    · rename_i st hx
      obtain ⟨q, hq, -, hok, hown⟩ := hcpu
      obtain rfl := Option.some.inj (hq.symm.trans hc)
      refine hnot c ?_
      rw [hx]
      exact hok.own_held (hown ▸ hr)
    · -- the scheduler has `c->proc` set only while it holds the lock
      rename_i k st hx
      refine hnot c ?_
      rw [hx]
      refine mem_append_left _ ?_
      have hk := hcpu.1
      cases k with
      | swtch i =>
        obtain rfl := Option.some.inj (hk.1.symm.trans hc)
        exact mem_cons_self
      | back i =>
        obtain rfl := Option.some.inj (hk.1.symm.trans hc)
        exact mem_cons_self
      | setRunning i => simp [hk.1] at hc
      | setProc i => simp [hk.1] at hc
      | _ => simp [show (s.cpu c).proc = none from hk] at hc

/-- The scheduler switches to a context that has been saved and not been resumed. -/
theorem KInv.swtch_saved (h : KInv s) (hx : (s.cpu c).exec = .scheduler (.swtch p) st) :
    (s.proc p).saved = true ∧ Parked p (s.proc p).context := by
  obtain ⟨hp, hr⟩ := h.schedulerOk hx
  refine h.procs.parked p ?_ (by rw [hr]; rfl)
  rintro ⟨c', x, hc', hx'⟩
  obtain rfl := h.procs.uniq c' c p hc' hp
  cases hx.symm.trans hx'

/-- What `kwait` frees is a zombie that has left its CPU. -/
theorem KInv.freeproc_idle {addr hk : Bool} {i : ℕ} {a0 : ℤ} (h : KInv s)
    (hx : (s.cpu c).exec = .thread (.kwait p addr i hk a0 .freeproc :: st)) : Idle s i := by
  obtain ⟨-, q, hex, -⟩ := h.executes (f := .kwait p addr i hk a0 .freeproc) ⟨hx, .inl rfl⟩ rfl
  have hz : (s.proc i).state = .ZOMBIE :=
    (h.procs.claims q _ (.inl ⟨c, hex⟩) _ mem_cons_self i .ZOMBIE rfl).1
  refine h.procs.idle (c := c) h.locks ?_ (by simp [hz]) ?_
  · exact mem_held (.inl hx) (by simp [Frame.held])
  · -- the process that waits is running, so it is not the zombie
    intro hi
    cases hz.symm.trans (h.procs.executing ⟨hi, hx⟩).2.2

/-- **No process runs on two CPUs, and none is freed while it is on one.** In
every state any number of CPUs reach: a process is `c->proc` of at most one CPU;
if its lock is free it is `RUNNING` exactly when it is `c->proc` of one; the
scheduler switches to contexts that `sched` has saved, or `allocproc` set up,
since they were last resumed; and what `kwait` frees is on no CPU. -/
theorem one_cpu_per_process (h : Run kStep (fun _ _ => True) kInit s) :
    (∀ c c' p, (s.cpu c).proc = some p → (s.cpu c').proc = some p → c = c') ∧
    (∀ p, s.lock (.proc p) = none →
      ((s.proc p).state = .RUNNING ↔ ∃! c, (s.cpu c).proc = some p)) ∧
    (∀ c p, (s.cpu c).exec = .scheduler (.swtch p) [] → (s.proc p).saved = true ∧
      ((s.proc p).context = [.forkret p] ∨ ∃ st, (s.proc p).context = .sched p .ret :: st)) ∧
    ∀ c p addr i havekids a0 st,
      (s.cpu c).exec = .thread (.kwait p addr i havekids a0 .freeproc :: st) →
      ∀ c', (s.cpu c').proc ≠ some i := by
  have hi := KInv.run h
  refine ⟨hi.procs.uniq, fun p hp => ?_, fun c p hx => ?_, fun c p addr i hk a0 st hx =>
    hi.freeproc_idle hx⟩
  · rw [hi.running_iff hp]
    exact ⟨fun ⟨c, hc⟩ => ⟨c, hc, fun c' hc' => hi.procs.uniq c' c p hc' hc⟩, fun hc => hc.exists⟩
  · exact (hi.swtch_saved hx).imp_right fun hpk => hpk.top

/-- CPU 0 runs the first process, which forks; CPU 1 finds the child. -/
def forkEvs : List KEv :=
  List.replicate 7 ⟨0, .step⟩ ++ [⟨0, .kfork⟩] ++ List.replicate 22 ⟨0, .step⟩ ++
    List.replicate 8 ⟨1, .step⟩

/-- CPU 1 is about to switch to the child. -/
def forkedState : KState := (runList kStep kInit forkEvs).getD kInit

theorem one_cpu_per_process_forkedState :
    ((forkedState.cpu 0).proc, (forkedState.cpu 1).proc) = (some 0, some 1) ∧
    (∀ c c' p, (forkedState.cpu c).proc = some p → (forkedState.cpu c').proc = some p → c = c') ∧
    (∀ p, forkedState.lock (.proc p) = none →
      ((forkedState.proc p).state = .RUNNING ↔ ∃! c, (forkedState.cpu c).proc = some p)) ∧
    (∀ c p, (forkedState.cpu c).exec = .scheduler (.swtch p) [] →
      (forkedState.proc p).saved = true ∧ ((forkedState.proc p).context = [.forkret p] ∨
        ∃ st, (forkedState.proc p).context = .sched p .ret :: st)) ∧
    ∀ c p addr i havekids a0 st,
      (forkedState.cpu c).exec = .thread (.kwait p addr i havekids a0 .freeproc :: st) →
      ∀ c', (forkedState.cpu c').proc ≠ some i :=
  ⟨by decide +kernel, one_cpu_per_process
    (.of_checkList (c := fun _ _ => true) (fun _ _ _ => trivial) (by decide +kernel) _)⟩

end Xv6
