import Xv6.LogHistory

/-!
# Coherence of the buffer cache

What a `bread` returns, under any interleaving of the processes with the log
thread. `Sys.updates` are the updates recorded by `log_write` that no crash has
lost, and `lastLogged` the contents the last of them left in a block. Two facts
are added to the log invariant (`TraceInv`): the log pins only blocks that were
logged, and every valid buffer belongs to the root device. They are read off
from what one step can do (`LogEffect`, `BufStep`).

The headline is `cache_coherence`.
-/

namespace Xv6

open List

variable {start : ℕ} {d₀ : ℕ → Bytes} {s s' : Sys}

/-! ## The last logged modification -/

/-- The recorded updates that no crash has lost. -/
def Sys.updates (s : Sys) : List Upd := s.sealed.flatten ++ s.cur

/-- The contents the last of the updates left in block `b`. -/
def lastLogged (us : List Upd) (b : ℕ) : Option Bytes :=
  ((us.filter (·.blockno == b)).getLast?).map Upd.data

theorem lastLogged_eq_none {us : List Upd} {b : ℕ} :
    lastLogged us b = none ↔ ∀ u ∈ us, u.blockno ≠ b := by
  simp [lastLogged]

/-- Applying updates leaves in a block what the last update of it put there. -/
theorem applyUpds_eq (d : ℕ → Bytes) (us : List Upd) (b : ℕ) :
    applyUpds d us b = (lastLogged us b).getD (d b) := by
  induction us using reverseRecOn with
  | nil => rfl
  | append_singleton us u ih =>
    rw [LogInv.now_append]
    by_cases hb : u.blockno = b
    · subst hb
      simp [lastLogged, filter_append]
    · rw [Function.update_of_ne (Ne.symm hb), ih]
      simp [lastLogged, filter_append, hb]

/-! ## What a step does to a buffer -/

namespace LogInv

/-- What a step other than a crash does to the buffers. -/
theorem cacheStep (h : LogInv start d₀ s) {e : LogEv} (he : e ≠ .crash)
    (hs : logSysStep start s e = .ok s') : CacheStep s.cache s'.cache := by
  cases e with
  | beginOp p =>
    simp only [logSysStep, Sys.beginOp] at hs
    split_ifs at hs
    cases hs
    exact .refl _
  | bget p b =>
    simp only [logSysStep, Sys.procBget] at hs
    split_ifs at hs
    split at hs
    · cases hs
    · rename_i i c hb
      cases hs
      exact .bget hb
  | acquire hd =>
    simp only [logSysStep, Sys.procAcquire] at hs
    split_ifs at hs
    cases hs
    exact .set rfl rfl .inl
  | read hd =>
    simp only [logSysStep, Sys.procRead] at hs
    split_ifs at hs with hm
    cases hs
    exact .fetch _ (h.cache.dev _ (handle_mem_refs hm.1))
  | modify hd d =>
    simp only [logSysStep, Sys.procModify] at hs
    split_ifs at hs
    cases hs
    exact .set rfl rfl .inl
  | logWrite hd =>
    simp only [logSysStep, Sys.logWrite] at hs
    repeat' split at hs
    all_goals first | cases hs; done | cases hs
    · exact .refl _
    · exact .set rfl rfl .inl
  | brelse hd =>
    simp only [logSysStep, Sys.procBrelse] at hs
    split_ifs at hs
    cases hs
    exact .brelse _ _
  | endOp p =>
    simp only [logSysStep, Sys.endOp] at hs
    repeat' split at hs
    all_goals cases hs <;> exact .refl _
  | log => exact (h.logEffect hs).cacheStep
  | crash => exact absurd rfl he

/-- The log thread pins nothing. -/
theorem logStep_pins (h : LogInv start d₀ s) (hs : s.logStep start = .ok s') :
    ∀ b ∈ s'.pins, b ∈ s.pins := by
  intro b hb
  unfold Sys.pins at hb ⊢
  cases h.logEffect hs with
  | work _ hpc | commit _ hpc | finish hpc =>
    dsimp only at hb
    split at hb
    · cases hb
    · rw [if_neg ‹_›]
      exact drop_subset_drop_left _ hpc hb
  | readHead hboot => simp [hboot] at hb
  | closeGroup hpc => simpa [hpc, Pc.unpinned] using hb
  | clear => simp at hb
  | up _ hlh => simp [hlh] at hb

end LogInv

/-! ## What the log remembers -/

/-- What the recorded updates say about the log and the buffers. -/
structure TraceInv (start : ℕ) (s : Sys) : Prop where
  home : ∀ u ∈ s.updates, Home start u.blockno
  pinned : ∀ b ∈ s.pins, ∃ u ∈ s.updates, u.blockno = b
  root : ∀ i, (s.cache.buf i).valid = true → (s.cache.buf i).dev = ROOTDEV

theorem Sys.updates_eq (s : Sys) : s.updates = s.groups.flatten := by
  simp [Sys.updates, Sys.groups]

/-- What a process does, `log_write` and crashes apart, changes neither the pins nor the updates. -/
theorem LogInv.client_frame (h : LogInv start d₀ s) {e : LogEv} (hs : logSysStep start s e = .ok s')
    (he : ∀ hd, e ≠ .logWrite hd) (hlog : e ≠ .log) (hcrash : e ≠ .crash) :
    s'.pins = s.pins ∧ s'.updates = s.updates ∧ s'.hist = s.hist := by
  cases e with
  | beginOp p =>
    simp only [logSysStep, Sys.beginOp] at hs
    split_ifs at hs
    cases hs
    exact ⟨rfl, rfl, rfl⟩
  | endOp p =>
    simp only [logSysStep, Sys.endOp] at hs
    split at hs
    · cases hs
    rename_i o ho
    have hoff := h.pc_off_of_op (p := p) (by simp [ho])
    repeat' split at hs
    all_goals cases hs
    · exact ⟨by simp [Sys.pins, hoff, Pc.unpinned], rfl, rfl⟩
    · exact ⟨rfl, rfl, rfl⟩
  | logWrite hd => exact absurd rfl (he hd)
  | log => exact absurd rfl hlog
  | crash => exact absurd rfl hcrash
  | _ =>
    obtain ⟨c, hs', rfl⟩ := onBuf_frame (by rfl) hs
    exact ⟨rfl, rfl, rfl⟩

/-- `log_write` records an update of the block it pins. -/
theorem LogInv.logWrite_frame (h : LogInv start d₀ s) {hd : Handle}
    (hs : s.logWrite hd = .ok s') :
    ∃ u : Upd, Home start u.blockno ∧ s'.updates = s.updates ++ [u] ∧ s'.hist = s.hist ++ [u] ∧
      ∀ b ∈ s'.pins, b ∈ s.pins ∨ b = u.blockno := by
  unfold Sys.logWrite at hs
  split_ifs at hs with hok
  split at hs
  · cases hs
  rename_i o ho
  cases hs
  have hoff := h.pc_off_of_op (p := hd.pid) (by simp [ho])
  have hbt := h.booting_of_handle hok.1
  refine ⟨_, h.hhome hd hok.1, by simp [Sys.updates], rfl, fun b hb => ?_⟩
  simp only [Sys.pins, hbt, hoff, Pc.unpinned, drop_zero, Bool.false_eq_true, if_false] at hb ⊢
  split at hb
  · exact .inl hb
  · simpa using hb

/-- The log thread records nothing. -/
theorem LogInv.logStep_updates (h : LogInv start d₀ s) (hs : s.logStep start = .ok s') :
    s'.updates = s.updates ∧ s'.hist = s.hist := by
  obtain ⟨⟨hledger, -⟩, hg⟩ := h.logStep_frame hs
  refine ⟨?_, congrArg (·.2.2.1) hledger⟩
  rcases hg with hg | ⟨-, hsealed, hcur⟩
  · rw [Sys.updates_eq, hg, Sys.updates_eq]
  · rw [Sys.updates, hsealed, hcur, append_nil, Sys.updates_eq]

namespace TraceInv

theorem step (h : TraceInv start s) (hl : LogInv start d₀ s) {e : LogEv}
    (hs : logSysStep start s e = .ok s') : TraceInv start s' := by
  by_cases hcrash : e = .crash
  · subst hcrash
    cases hs
    refine ⟨fun u hu => h.home u ?_, fun b hb => ?_, fun i hi => ?_⟩
    · rw [Sys.updates, show s.crash.cur = [] from rfl, append_nil] at hu
      obtain ⟨g, hg, hug⟩ := mem_flatten.mp hu
      exact mem_append_left _ (mem_flatten.mpr ⟨g, mem_of_mem_take hg, hug⟩)
    · cases hb
    · cases hi
  · have hroot : ∀ i, (s'.cache.buf i).valid = true → (s'.cache.buf i).dev = ROOTDEV := by
      intro i hi
      rcases hl.cacheStep hcrash hs i with ⟨hdev, -, hv⟩ | ⟨-, hv⟩
      · rw [hdev]
        exact (hv hi).elim (h.root i) id
      · rw [hv] at hi
        cases hi
    by_cases hlog : e = .log
    · subst hlog
      have hupd := (hl.logStep_updates hs).1
      refine ⟨hupd ▸ h.home, fun b hb => ?_, hroot⟩
      rw [hupd]
      exact h.pinned b (hl.logStep_pins hs b hb)
    by_cases hw : ∃ hd, e = .logWrite hd
    · obtain ⟨hd, rfl⟩ := hw
      obtain ⟨u, hu, hupd, -, hpins⟩ := hl.logWrite_frame hs
      refine ⟨fun v hv => ?_, fun b hb => ?_, hroot⟩
      · rw [hupd] at hv
        rcases mem_append.mp hv with hv | hv
        · exact h.home v hv
        · rwa [mem_singleton.mp hv]
      · rw [hupd]
        rcases hpins b hb with hb | rfl
        · obtain ⟨v, hv, rfl⟩ := h.pinned b hb
          exact ⟨v, mem_append_left _ hv, rfl⟩
        · exact ⟨u, by simp, rfl⟩
    · obtain ⟨hpins, hupd, -⟩ :=
        hl.client_frame hs (fun hd he => hw ⟨hd, he⟩) hlog hcrash
      exact ⟨hupd ▸ h.home, hpins ▸ hupd ▸ h.pinned, hroot⟩

theorem boot (d₀ : ℕ → Bytes) : TraceInv start (Xv6.boot d₀) where
  home u hu := absurd hu (by simp [Sys.updates, Xv6.boot])
  pinned b hb := absurd hb (by simp [Sys.pins, Xv6.boot])
  root i hi := by cases hi

/-- **Every run keeps the trace invariant.** -/
theorem run {C : Sys → LogEv → Prop} (hd₀ : header start d₀ = [])
    (hr : Run (logSysStep start) C (Xv6.boot d₀) s) : TraceInv start s := by
  suffices LogInv start d₀ s ∧ TraceInv start s from this.2
  refine hr.invariant (I := fun s => LogInv start d₀ s ∧ TraceInv start s)
    ⟨LogInv.run hd₀ (C := C) .refl, .boot d₀⟩ fun s e s' h _ hs => ?_
  exact ⟨h.1.step hs, h.2.step h.1 hs⟩

end TraceInv

/-- In a run without a crash no update is lost. -/
theorem updates_eq_hist (hd₀ : header start d₀ = [])
    (hr : Run (logSysStep start) (fun _ e => e ≠ .crash) (boot d₀) s) : s.updates = s.hist := by
  suffices LogInv start d₀ s ∧ s.updates = s.hist from this.2
  refine hr.invariant (I := fun s => LogInv start d₀ s ∧ s.updates = s.hist)
    ⟨LogInv.run hd₀ (C := fun _ e => e ≠ .crash) .refl, rfl⟩ fun s e s' h hcrash hs => ?_
  refine ⟨h.1.step hs, ?_⟩
  by_cases hlog : e = .log
  · subst hlog
    rw [(h.1.logStep_updates hs).1, (h.1.logStep_updates hs).2, h.2]
  by_cases hw : ∃ hd, e = .logWrite hd
  · obtain ⟨hd, rfl⟩ := hw
    obtain ⟨u, -, hupd, hhist, -⟩ := h.1.logWrite_frame hs
    rw [hupd, hhist, h.2]
  · obtain ⟨-, hupd, hhist⟩ := h.1.client_frame hs (fun hd he => hw ⟨hd, he⟩) hlog hcrash
    rw [hupd, hhist, h.2]

/-! ## Coherence -/

/-- What a valid buffer nobody is modifying holds, once the system is up. -/
theorem content_eq (h : LogInv start d₀ s) (ht : TraceInv start s) (hb : s.booting = false)
    (b : ℕ) : s.content start d₀ b = (lastLogged s.updates b).getD (s.disk b) := by
  unfold Sys.content
  by_cases hlast : lastLogged s.updates b = none
  · -- never logged, so not pinned, so as on disk
    rw [hlast, Option.getD_none]
    split
    · rename_i hh
      refine (h.clean hb b hh.2 fun hp => ?_).symm
      obtain ⟨u, hu, hub⟩ := ht.pinned b hp
      exact lastLogged_eq_none.mp hlast u hu hub
    · rfl
  · rw [lastLogged_eq_none] at hlast
    push Not at hlast
    obtain ⟨u, hu, rfl⟩ := hlast
    obtain ⟨v, hv⟩ := Option.ne_none_iff_exists'.mp
      (fun hn => lastLogged_eq_none.mp hn u hu rfl)
    rw [if_pos ⟨hb, ht.home u hu⟩, Sys.now, applyUpds_eq]
    change (lastLogged s.updates u.blockno).getD _ = _
    rw [hv, Option.getD_some, Option.getD_some]

/-- A buffer that a `bread` has returned and that is not being modified holds what it should. -/
theorem LogInv.ready_data (h : LogInv start d₀ s) {i : BufId} (hi : (i, Stage.ready) ∈ s.refs) :
    (s.cache.buf i).data = s.content start d₀ (s.cache.buf i).blockno := by
  refine h.data i (h.cache.dev _ hi) (h.cache.valid _ hi (.inl rfl)) fun hd => ?_
  have hp := h.cache.perm (perm_cons_erase hi)
  refine hp.not_dirty (by decide) ?_
  exact (mem_erase_of_ne (by simp)).mpr hd

/-- The buffer that a step of `bread` is about to return, and its block: for a
process the one its `bget` found, for the log thread the one it asked for. -/
def Sys.returns (start : ℕ) (s : Sys) : LogEv → Option (BufId × ℕ)
  | .read h => some (h.buf, (s.cache.buf h.buf).blockno)
  | .log =>
    match s.pc with
    | .readHead (.hb (.read b)) => some (b, start)
    | .writeLog t (.dst (.read b)) => some (b, start + t + 1)
    | .writeLog t (.src _ (.read b)) => some (b, s.lh.getD t 0)
    | .writeHead _ (.hb (.read b)) => some (b, start)
    | .install t (.lbuf (.read b)) => some (b, start + t + 1)
    | .install t (.dbuf _ (.read b)) => some (b, s.lh.getD t 0)
    | _ => none
  | _ => none

/-- A `bread` returns a buffer that caches its block, and holds its lock. -/
theorem LogInv.returns (h : LogInv start d₀ s) {e : LogEv} {i : BufId} {b : ℕ}
    (hret : s.returns start e = some (i, b)) (hs : logSysStep start s e = .ok s') :
    (s'.cache.buf i).blockno = b ∧ (i, Stage.ready) ∈ s'.refs ∧ s'.booting = s.booting := by
  unfold Sys.returns at hret
  split at hret
  · rename_i hd
    cases hret
    simp only [logSysStep, Sys.procRead] at hs
    split_ifs at hs
    cases hs
    exact ⟨fetch_blockno .., mem_append_right _ mem_cons_self, rfl⟩
  · have hreg := h.regs
    simp only [logSysStep, Sys.logStep] at hs
    split at hret
    case h_7 => cases hret
    all_goals
      rename_i hpc
      rw [hpc] at hs hreg
      cases hs
      have hmem := hreg (i, b) (by simp [← Option.some.inj hret, Pc.regs, BreadPc.regs])
      cases hret
      exact ⟨(fetch_blockno ..).trans hmem, by simp [Sys.refs, Pc.refs], rfl⟩
  · cases hret

/-- **Coherence of the buffer cache**, in every state reached from a boot with
an empty log, whatever the processes do and wherever the system crashes.

* A `bread` returns the contents left by the last logged modification of its
  block, or what is on disk if there was none. The buffer caches the block that
  was asked for, from `bget` until the `brelse` that matches it.
* Without a crash, the logged modifications are all those ever recorded.
* A buffer that is valid and unlocked equals its disk block, or else the block
  is in the log header and the buffer has a reference that no `bread` counts.
* At most one buffer caches a block of the root device.
* When no commit is in progress, a buffer's reference count is the number of
  `bread`s not yet released, and one if its block is in the header. -/
theorem cache_coherence (hd₀ : header start d₀ = [])
    (hr : Run (logSysStep start) (fun _ _ => True) (boot d₀) s) :
    (s.booting = false → ∀ e s' i b, s.returns start e = some (i, b) →
      logSysStep start s e = .ok s' → Caches s'.cache i b ∧
        (s'.cache.buf i).data = (lastLogged s'.updates b).getD (s'.disk b)) ∧
    (∀ p b s', logSysStep start s (.bget p b) = .ok s' →
      ∃ i, s'.handles = ⟨p, i, .waiting⟩ :: s.handles ∧ Caches s'.cache i b) ∧
    (∀ e s' i b, e ≠ .crash → logSysStep start s e = .ok s' → 0 < nref s.refs i →
      Caches s.cache i b → Caches s'.cache i b) ∧
    (Run (logSysStep start) (fun _ e => e ≠ .crash) (boot d₀) s → s.updates = s.hist) ∧
    (∀ i, (s.cache.buf i).valid = true → (s.cache.buf i).locked = false →
      (s.cache.buf i).data = s.disk (s.cache.buf i).blockno ∨
        (s.cache.buf i).blockno ∈ s.lh ∧ (s.cache.buf i).refcnt = nref s.refs i + 1) ∧
    (∀ i j b, Caches s.cache i b → Caches s.cache j b → i = j) ∧
    (s.booting = false → s.committing = false → ∀ i, (s.cache.buf i).refcnt =
      (s.handles.countP fun h => h.buf = i) +
        if (s.cache.buf i).dev = ROOTDEV ∧ (s.cache.buf i).blockno ∈ s.lh then 1 else 0) := by
  have h := LogInv.run hd₀ hr
  have ht := TraceInv.run hd₀ hr
  refine ⟨fun hb e s' i b hret hs => ?_, fun p b s' hs => ?_, fun e s' i b he hs hi hc => ?_,
    updates_eq_hist hd₀, fun i hv hl => ?_, h.cache.uniq, fun hb hcom i => ?_⟩
  · obtain ⟨hblk, hrefs, hb'⟩ := h.returns hret hs
    have h' := h.step hs
    refine ⟨⟨h'.cache.dev _ hrefs, hblk⟩, ?_⟩
    rw [h'.ready_data hrefs, content_eq h' (ht.step h hs) (hb'.trans hb), hblk]
  · simp only [logSysStep, Sys.procBget] at hs
    split_ifs at hs
    split at hs
    · cases hs
    · rename_i i c hb
      cases hs
      refine ⟨i, rfl, ?_⟩
      rcases Bcache.bget_cases hb with ⟨hc, rfl⟩ | ⟨-, -, rfl⟩
      · simpa [Caches] using hc
      · simp [Caches]
  · rcases h.cacheStep he hs i with ⟨hdev, hblk, -⟩ | ⟨hr0, -⟩
    · exact ⟨hdev.trans hc.1, hblk.trans hc.2⟩
    · have := h.cache.refcnt i
      omega
  · have hdata := h.data i (ht.root i hv) hv (h.cache.not_dirty_of_unlocked hl)
    rw [hdata, Sys.content]
    split
    · rename_i hh
      by_cases hp : (s.cache.buf i).blockno ∈ s.pins
      · refine .inr ⟨?_, ?_⟩
        · rw [Sys.pins, if_neg (by simp [hh.1])] at hp
          exact mem_of_mem_drop hp
        · rw [h.cache.refcnt, npin, if_pos ⟨ht.root i hv, hp⟩]
      · exact .inl (h.clean hh.1 _ hh.2 hp).symm
    · exact .inl rfl
  · have hoff : s.pc = .off := by
      by_contra hne
      rw [(h.committing hb).mpr hne] at hcom
      cases hcom
    rw [h.cache.refcnt, npin, LogInv.pins_off hoff hb]
    congr 1
    simp [nref, Sys.refs, hoff, Pc.refs, countP_map, Function.comp_def]

/-- Block 100 has been set to sevens and released, and another process has its lock. -/
def rereadState : Sys :=
  (runList (logSysStep 2) (boot fun _ _ => 0) (List.replicate 12 LogEv.log ++
    [LogEv.beginOp 0] ++ updateEvs 0 100 ⟨1, one_lt_NBUF⟩ (fun _ => 7) ++
    [LogEv.bget 1 100, .acquire ⟨1, ⟨1, one_lt_NBUF⟩, .waiting⟩])).getD (boot fun _ _ => 0)

theorem cache_coherence_rereadState :
    (lastLogged rereadState.updates 100).isSome = true ∧
    ∀ s', logSysStep 2 rereadState (.read ⟨1, ⟨1, by decide⟩, .locked⟩) = .ok s' →
      (s'.cache.buf ⟨1, by decide⟩).data = (lastLogged s'.updates 100).getD (s'.disk 100) := by
  have hr : Run (logSysStep 2) (fun _ _ => True) (boot fun _ _ => 0) rereadState :=
    .of_checkList (c := fun _ _ => true) (fun _ _ _ => trivial) (by decide +kernel) _
  refine ⟨by decide +kernel, fun s' hs => ?_⟩
  exact ((cache_coherence (by decide +kernel) hr).1 (by decide +kernel) _ s' _ 100
    (by decide +kernel) hs).2

end Xv6
