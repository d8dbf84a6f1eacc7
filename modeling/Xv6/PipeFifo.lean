import Xv6.Pipe

/-!
# A pipe is a bounded queue

Bytes go through a ring with counters that wrap around at `2 ^ 32`. Of all steps
of the machine one stores a byte and one removes a byte (`step_ring`), so in every
run what has been stored is what has been removed followed by what is in the ring
(`bounded_fifo`). A call of `piperead` removes a byte before it copies it: it
accounts for every byte it has removed exactly if no copy fails
(`reads_account_for_bytes`).
-/

namespace Xv6.PipeSys

open List

variable {s s' : State} {e : Event} {p : ℕ} {ok : Bool}

/-! ## The ring -/

/-- The ring buffer of a pipe. -/
def Pipe.ring (pi : Pipe) : Ring UInt8 32 where
  data := pi.data
  rd := pi.nread
  wr := pi.nwrite

/-- The ring, and the history of what went through it. -/
def State.flow (s : State) : Ring UInt8 32 × List UInt8 × List UInt8 :=
  (s.pi.ring, s.written, s.removed)

theorem acquire_flow {pc : Pc} (h : s.acquire p pc = .ok s') : s'.flow = s.flow := by
  unfold State.acquire at h
  split_ifs at h
  cases h
  rfl

/-- A byte is stored in a pipe that is not full. -/
def Stores (s s' : State) : Prop :=
  s.pi.ring.count ≠ PIPESIZE ∧ ∃ ch,
    s'.flow = (s.pi.ring.push PIPESIZE ch, s.written ++ [ch], s.removed)

/-- A byte is removed from a pipe that is not empty. -/
def Removes (s s' : State) : Prop :=
  s.pi.ring.rd ≠ s.pi.ring.wr ∧
    s'.flow = (s.pi.ring.pop, s.written, s.removed ++ [s.pi.ring.front PIPESIZE])

theorem writeLoop_flow (addr : ℕ) (n : ℤ) (i : ℕ) :
    (writeLoop s p addr n i ok).flow = s.flow ∨ Stores s (writeLoop s p addr n i ok) := by
  unfold writeLoop
  split
  · split
    · exact .inl rfl
    split
    · exact .inl rfl
    split
    · exact .inl rfl
    · rename_i hfull _
      refine .inr ⟨fun h => hfull ?_, _, rfl⟩
      exact (Ring.count_eq_size (by decide)).mp h
  · exact .inl rfl

theorem readWait_flow (addr : ℕ) (n : ℤ) : (readWait s p addr n).flow = s.flow := by
  unfold readWait
  split
  · split <;> rfl
  · rfl

theorem readCopy_flow (addr : ℕ) (n : ℤ) (i : ℕ) :
    (readCopy s p addr n i ok).flow = s.flow ∨ Removes s (readCopy s p addr n i ok) := by
  unfold readCopy
  split
  · split
    · exact .inl rfl
    · rename_i hne
      split <;> exact .inr ⟨hne, rfl⟩
  · exact .inl rfl

/-- **What a step does to the ring**: nothing, or one byte is stored, or one is removed. -/
theorem step_ring (h : step s e = .ok s') : s'.flow = s.flow ∨ Stores s s' ∨ Removes s s' := by
  cases e with
  | call p c =>
    simp only [step] at h
    split at h
    · split_ifs at h
      cases h
      cases c <;> exact .inl rfl
    · cases h
  | store p a b =>
    simp only [step] at h
    split at h
    · cases h
      exact .inl rfl
    · cases h
  | kill p =>
    cases h
    exact .inl rfl
  | advance p ok =>
    simp only [step, advance] at h
    split at h
    case h_1 => cases h
    case h_2 => exact .inl (acquire_flow h)
    case h_3 addr n i _ =>
      cases h
      exact (writeLoop_flow addr n i).imp_right .inl
    case h_7 => exact .inl (acquire_flow h)
    case h_8 addr n _ =>
      cases h
      exact .inl (readWait_flow addr n)
    case h_9 addr n i _ =>
      cases h
      exact (readCopy_flow addr n i).imp_right .inr
    case h_12 => exact .inl (acquire_flow h)
    case h_13 writable _ =>
      cases h
      cases writable <;> exact .inl rfl
    all_goals
      cases h
      exact .inl rfl

/-! ## The queue -/

/-- The ring holds what has been stored and not removed. -/
structure Fifo (s : State) : Prop where
  bound : s.pi.ring.count ≤ PIPESIZE
  stored : s.written = s.removed ++ s.pi.ring.contents PIPESIZE

theorem Fifo.of_flow (h : Fifo s) (hflow : s'.flow = s.flow) : Fifo s' := by
  obtain ⟨hr, hw, hm⟩ : s'.pi.ring = s.pi.ring ∧ s'.written = s.written ∧
      s'.removed = s.removed := by
    simpa [State.flow] using hflow
  exact ⟨hr ▸ h.bound, by rw [hr, hw, hm]; exact h.stored⟩

theorem Fifo.step (h : Fifo s) (hs : step s e = .ok s') : Fifo s' := by
  have hdvd : PIPESIZE ∣ 2 ^ 32 := by decide
  rcases step_ring hs with hflow | ⟨hfull, ch, hflow⟩ | ⟨hne, hflow⟩
  · exact h.of_flow hflow
  · obtain ⟨hr, hw, hm⟩ : s'.pi.ring = s.pi.ring.push PIPESIZE ch ∧
        s'.written = s.written ++ [ch] ∧ s'.removed = s.removed := by
      simpa [State.flow] using hflow
    have hlt : s.pi.ring.count < PIPESIZE := lt_of_le_of_ne h.bound hfull
    have hP : PIPESIZE < 2 ^ 32 := by decide
    refine ⟨?_, ?_⟩
    · rw [hr, Ring.count_push (by omega)]
      exact hlt
    · rw [hr, hw, hm, Ring.contents_push hdvd hP hlt, h.stored, append_assoc]
  · obtain ⟨hr, hw, hm⟩ : s'.pi.ring = s.pi.ring.pop ∧ s'.written = s.written ∧
        s'.removed = s.removed ++ [s.pi.ring.front PIPESIZE] := by
      simpa [State.flow] using hflow
    have hcount := Ring.count_pop hne
    refine ⟨?_, ?_⟩
    · rw [hr]
      have := h.bound
      omega
    · rw [hr, hw, hm, h.stored, Ring.contents_pop hdvd hne, append_assoc,
        singleton_append]

theorem Fifo.init (junk : ℕ → UInt8) (memory : ℕ → ℕ → UInt8) : Fifo (init junk memory) := by
  have hcount : (PipeSys.init junk memory).pi.ring.count = 0 := Ring.count_eq_zero.mpr rfl
  refine ⟨hcount ▸ Nat.zero_le _, ?_⟩
  rw [Ring.contents, hcount]
  rfl

/-- **A pipe is a bounded queue.** In every state that any number of readers and writers reach, for
runs of any length, the counters differ by at most `PIPESIZE`, modulo `2 ^ 32`; the bytes removed are
a prefix of the bytes stored, and the rest is what is in the ring, in ring order. -/
theorem bounded_fifo {junk : ℕ → UInt8} {memory : ℕ → ℕ → UInt8}
    (h : Run step (fun _ _ => True) (init junk memory) s) :
    (s.pi.nwrite - s.pi.nread).toNat ≤ PIPESIZE ∧ s.removed <+: s.written ∧
    s.written = s.removed ++ (range (s.pi.nwrite - s.pi.nread).toNat).map fun j =>
      s.pi.data ((s.pi.nread.toNat + j) % PIPESIZE) := by
  have hi : Fifo s := h.invariant (.init junk memory) fun _ _ _ hi _ hs => hi.step hs
  exact ⟨hi.bound, ⟨_, hi.stored.symm⟩, hi.stored⟩

/-- Process 0 writes three bytes, process 1 reads two. -/
def threeBytes : List Event :=
  [Event.store 0 0 1, .store 0 1 2, .store 0 2 3, .call 0 (.write 0 3)] ++
    replicate 7 (Event.advance 0 true) ++ [Event.call 1 (.read 100 2)] ++
    replicate 7 (Event.advance 1 true)

def threeBytesState : State :=
  (runList step (init (fun _ => 0) fun _ _ => 0) threeBytes).getD (init (fun _ => 0) fun _ _ => 0)

theorem bounded_fifo_threeBytesState :
    (threeBytesState.removed, threeBytesState.written) = ([1, 2], [1, 2, 3]) ∧
    (threeBytesState.pi.nwrite - threeBytesState.pi.nread).toNat ≤ PIPESIZE ∧
    threeBytesState.removed <+: threeBytesState.written ∧
    threeBytesState.written = threeBytesState.removed ++
      (range (threeBytesState.pi.nwrite - threeBytesState.pi.nread).toNat).map fun j =>
        threeBytesState.pi.data ((threeBytesState.pi.nread.toNat + j) % PIPESIZE) :=
  ⟨by decide +kernel, bounded_fifo
    (.of_checkList (c := fun _ _ => true) (fun _ _ _ => trivial) (by decide +kernel) _)⟩

/-! ## What a read returns -/

/-- A call of `piperead` that has returned, or is about to: it has removed the bytes it
returns, and one more if a copy failed, and returns no more than it was asked for. -/
def Accounts (asked ret : ℤ) (taken : ℕ) (failed : Bool) : Prop :=
  ((taken : ℤ) = max ret 0 + if failed then 1 else 0) ∧ ret ≤ max asked 0

/-- What holds of a process at each control point of `piperead`. -/
def ReadOk (q : Process) : Prop :=
  match q.pc with
  | .readAcquire _ n | .readWait _ n => n = q.asked ∧ q.taken = 0 ∧ q.failed = false
  | .readCopy _ n i => n = q.asked ∧ i ≤ max n 0 ∧ q.taken = i ∧ q.failed = false
  | .readDone i => Accounts q.asked i q.taken q.failed
  | .readRelease r => Accounts q.asked r q.taken q.failed
  | _ => True

/-- All reads account for the bytes they have removed; with `clean`, no copy has failed yet. -/
structure Reads (clean : Prop) (s : State) : Prop where
  process : ∀ p, ReadOk (s.process p)
  done : ∀ r ∈ s.reads, Accounts r.asked r.ret r.taken r.failed
  failed : clean → ∀ p, (s.process p).failed = false
  done_failed : clean → ∀ r ∈ s.reads, r.failed = false
  delivered : clean → s.delivered = s.removed

/-- A step that copies a byte to an address where this is not possible. -/
def CopyoutFails (s : State) : Event → Prop
  | .advance p ok => ok = false ∧ s.pi.nread ≠ s.pi.nwrite ∧
    ∃ addr n i, (s.process p).pc = .readCopy addr n i ∧ (i : ℤ) < n
  | _ => False

/-- What `ReadOk` depends on. -/
theorem ReadOk.congr {q q' : Process} (h : ReadOk q) (hpc : q'.pc = q.pc) (ha : q'.asked = q.asked)
    (ht : q'.taken = q.taken) (hf : q'.failed = q.failed) : ReadOk q' := by
  unfold ReadOk at h ⊢
  rw [hpc, ha, ht, hf]
  exact h

namespace Reads

variable {clean : Prop}

section

variable (h : Reads clean s)
include h

/-- One process changes. -/
theorem update {q : Process} (hp : s'.process = Function.update s.process p q)
    (hf : q.failed = (s.process p).failed) (hr : s'.reads = s.reads)
    (hd : (s'.delivered, s'.removed) = (s.delivered, s.removed)) (hq : ReadOk q) :
    Reads clean s' := by
  obtain ⟨hd, hm⟩ := Prod.mk.inj hd
  refine ⟨fun p' => ?_, hr ▸ h.done, fun hc p' => ?_, hr ▸ h.done_failed, by
    rw [hd, hm]; exact h.delivered⟩ <;> rw [hp] <;> by_cases hpp : p' = p
  · rw [hpp, Function.update_self]
    exact hq
  · rw [Function.update_of_ne hpp]
    exact h.process p'
  · rw [hpp, Function.update_self, hf]
    exact h.failed hc p
  · rw [Function.update_of_ne hpp]
    exact h.failed hc p'

theorem goto {pc : Pc} (hq : ReadOk { s.process p with pc := pc }) :
    Reads clean (s.goto p pc) := h.update rfl rfl rfl rfl hq

theorem wakeup (chan : Chan) : Reads clean (s.wakeup chan) := by
  refine ⟨fun p => ?_, h.done, fun hc p => ?_, h.done_failed, h.delivered⟩ <;>
    simp only [State.wakeup] <;> split
  · exact (h.process p).congr rfl rfl rfl rfl
  · exact h.process p
  · exact h.failed hc p
  · exact h.failed hc p

theorem leave (p : ℕ) : Reads clean (s.leave p) :=
  h.update rfl rfl rfl rfl trivial

theorem acquire {pc : Pc} (hs : s.acquire p pc = .ok s') (hq : ReadOk { s.process p with pc := pc }) :
    Reads clean s' := by
  unfold State.acquire at hs
  split_ifs at hs
  cases hs
  exact h.update rfl rfl rfl rfl hq

theorem writeLoop (addr : ℕ) (n : ℤ) (i : ℕ) : Reads clean (writeLoop s p addr n i ok) := by
  unfold PipeSys.writeLoop
  split
  · split
    · exact h.goto trivial
    split
    · exact (h.wakeup _).goto trivial
    split
    · exact h.goto trivial
    · exact h.update rfl rfl rfl rfl trivial
  · exact h.goto trivial

theorem readWait {addr : ℕ} {n : ℤ} (hpc : (s.process p).pc = .readWait addr n) :
    Reads clean (readWait s p addr n) := by
  have hp := h.process p
  simp only [ReadOk, hpc] at hp
  unfold PipeSys.readWait
  split
  · split
    · refine h.goto ?_
      simp [ReadOk, Accounts, hp]
    · exact h.update rfl rfl rfl rfl hp
  · exact h.goto ⟨hp.1, le_max_right _ _, hp.2⟩

/-- The byte is removed before it is copied. -/
theorem readCopy {addr : ℕ} {n : ℤ} {i : ℕ} (hpc : (s.process p).pc = .readCopy addr n i)
    (hok : clean → ¬CopyoutFails s (.advance p ok)) : Reads clean (readCopy s p addr n i ok) := by
  have hp := h.process p
  simp only [ReadOk, hpc] at hp
  obtain ⟨hasked, hle, htaken, hfailed⟩ := hp
  rw [hasked] at hle
  have hdone : ReadOk { s.process p with pc := .readDone i } :=
    ⟨by simp [htaken, hfailed], hle⟩
  unfold PipeSys.readCopy
  split
  · rename_i hlt
    split
    · exact h.goto hdone
    rename_i hne
    cases ok with
    | false =>
      have hno : ¬clean := fun hc => hok hc ⟨rfl, hne, addr, n, i, hpc, hlt⟩
      refine ⟨fun p' => ?_, h.done, fun hc => absurd hc hno, h.done_failed,
        fun hc => absurd hc hno⟩
      by_cases hpp : p' = p
      · simpa [hpp, ReadOk, Accounts, htaken] using hle
      · simpa [hpp] using h.process p'
    | true =>
      refine ⟨fun p' => ?_, h.done, fun hc p' => ?_, h.done_failed, fun hc => ?_⟩
      · by_cases hpp : p' = p
        · have hlt' : (i : ℤ) + 1 ≤ max n 0 := by omega
          simpa [hpp, ReadOk, htaken, hfailed, hasked.symm] using hlt'
        · simpa [hpp] using h.process p'
      · by_cases hpp : p' = p
        · simpa [hpp] using h.failed hc p
        · simpa [hpp] using h.failed hc p'
      · simpa using h.delivered hc
  · exact h.goto hdone

theorem advance (hs : advance s p ok = .ok s') (hok : clean → ¬CopyoutFails s (.advance p ok)) :
    Reads clean s' := by
  have hp := h.process p
  unfold PipeSys.advance at hs
  split at hs <;> rename_i hpc <;> simp only [ReadOk, hpc] at hp
  case h_1 => cases hs
  case h_2 => exact h.acquire hs trivial
  case h_3 =>
    cases hs
    exact h.writeLoop _ _ _
  case h_4 =>
    cases hs
    exact h.update rfl rfl rfl rfl trivial
  case h_5 =>
    cases hs
    exact (h.wakeup _).goto trivial
  case h_6 =>
    cases hs
    exact h.leave p
  case h_7 => exact h.acquire hs hp
  case h_8 =>
    cases hs
    exact h.readWait hpc
  case h_9 =>
    cases hs
    exact h.readCopy hpc hok
  case h_10 =>
    cases hs
    refine (h.wakeup _).goto ?_
    simp only [State.wakeup]
    split <;> exact hp
  case h_11 r =>
    -- the call returns
    cases hs
    have hr : Reads clean { s with
        reads := s.reads ++
          [⟨(s.process p).asked, r, (s.process p).taken, (s.process p).failed⟩] } := by
      refine ⟨h.process, fun x hx => ?_, h.failed, fun hc x hx => ?_, h.delivered⟩
      · rcases mem_append.mp hx with hx | hx
        · exact h.done x hx
        · rw [mem_singleton.mp hx]
          exact hp
      · rcases mem_append.mp hx with hx | hx
        · exact h.done_failed hc x hx
        · rw [mem_singleton.mp hx]
          exact h.failed hc p
    exact hr.leave p
  case h_12 => exact h.acquire hs trivial
  case h_13 writable =>
    cases hs
    have hpi : ∀ pi, Reads clean { s with pi := pi } := fun _ =>
      ⟨h.process, h.done, h.failed, h.done_failed, h.delivered⟩
    cases writable <;> refine ((hpi _).wakeup _).goto ?_ <;> trivial
  case h_14 =>
    cases hs
    exact h.update rfl rfl rfl rfl trivial

theorem step (hs : step s e = .ok s') (hok : clean → ¬CopyoutFails s e) : Reads clean s' := by
  cases e with
  | call p c =>
    simp only [PipeSys.step] at hs
    split at hs
    · split_ifs at hs
      cases hs
      cases c with
      | write addr n => exact h.goto trivial
      | read addr n =>
        refine ⟨fun p' => ?_, h.done, fun hc p' => ?_, h.done_failed, h.delivered⟩ <;>
          by_cases hpp : p' = p
        · simp [enter, hpp, ReadOk]
        · simpa [enter, hpp] using h.process p'
        · simp [enter, hpp]
        · simpa [enter, hpp] using h.failed hc p'
      | close writable => exact h.goto trivial
    · cases hs
  | advance p ok => exact h.advance hs hok
  | store p a b =>
    simp only [PipeSys.step] at hs
    split at hs
    · cases hs
      exact ⟨h.process, h.done, h.failed, h.done_failed, h.delivered⟩
    · cases hs
  | kill p =>
    cases hs
    exact h.update rfl rfl rfl rfl ((h.process p).congr rfl rfl rfl rfl)

end

theorem init (junk : ℕ → UInt8) (memory : ℕ → ℕ → UInt8) : Reads clean (init junk memory) :=
  ⟨fun _ => trivial, fun _ hr => absurd hr (by simp [PipeSys.init]), fun _ _ => rfl,
    fun _ _ hr => absurd hr (by simp [PipeSys.init]), fun _ => rfl⟩

end Reads

/-- **A read accounts for the bytes it removes exactly if no copy fails.** Whatever has happened, a
call of `piperead` that has returned has removed as many bytes as it returned if and only if none of
its calls of `copyout` failed. In runs without such a failure every read does, and what has been
copied to readers is a prefix of what has been written. -/
theorem reads_account_for_bytes (junk : ℕ → UInt8) (memory : ℕ → ℕ → UInt8) :
    (∀ s, Run step (fun _ _ => True) (init junk memory) s →
      ∀ r ∈ s.reads, (r.taken : ℤ) = max r.ret 0 ↔ r.failed = false) ∧
    ∀ s, Run step (fun s e => ¬CopyoutFails s e) (init junk memory) s →
      (∀ r ∈ s.reads, (r.taken : ℤ) = max r.ret 0) ∧ s.delivered <+: s.written := by
  refine ⟨fun s h r hr => ?_, fun s h => ?_⟩
  · have hi : Reads False s := h.invariant (.init junk memory) fun _ _ _ hi _ hs =>
      hi.step hs False.elim
    have hacc := (hi.done r hr).1
    rw [hacc]
    cases r.failed <;> simp
  · have hi : Reads True s := h.invariant (.init junk memory) fun _ _ _ hi hc hs =>
      hi.step hs fun _ => hc
    have hf : Fifo s := h.invariant (.init junk memory) fun _ _ _ hi _ hs => hi.step hs
    refine ⟨fun r hr => ?_, hi.delivered trivial ▸ ⟨_, hf.stored.symm⟩⟩
    have hacc := (hi.done r hr).1
    rw [hi.done_failed trivial r hr] at hacc
    simpa using hacc

theorem reads_account_for_bytes_threeBytesState :
    threeBytesState.reads.map (fun r => (r.ret, r.taken)) = [(2, 2)] ∧
    (∀ r ∈ threeBytesState.reads, (r.taken : ℤ) = max r.ret 0) ∧
    threeBytesState.delivered <+: threeBytesState.written :=
  ⟨by decide +kernel, (reads_account_for_bytes (fun _ => 0) fun _ _ => 0).2 _
    (.of_checkList (c := fun _ e => match e with | .advance _ ok => ok | _ => true)
      (fun s e h => by cases e <;> simp_all [CopyoutFails]) (by decide +kernel) _)⟩

/-- Process 0 writes two bytes; process 1 reads two bytes to an address where the first of them
cannot be copied, and then one byte to a good address. -/
def badAddress : List Event :=
  [Event.store 0 0 1, .store 0 1 2, .call 0 (.write 0 2)] ++
    replicate 6 (Event.advance 0 true) ++ [Event.call 1 (.read 100 2)] ++
    replicate 2 (Event.advance 1 true) ++ replicate 3 (Event.advance 1 false) ++
    [Event.call 1 (.read 0 1)] ++ replicate 6 (Event.advance 1 true)

/-- The first read returns 0, but has removed a byte, which no reader gets. -/
theorem read_loses_byte :
    ∃ s, Run step (fun _ _ => True) (init (fun _ => 0) fun _ _ => 0) s ∧
      s.reads.map (fun r => (r.ret, r.taken)) = [(0, 1), (1, 1)] ∧
      s.written = [1, 2] ∧ s.delivered = [2] ∧ ¬s.delivered <+: s.written :=
  ⟨_, .of_checkList (fun _ _ _ => trivial)
    (show checkList step (fun _ _ => true) (init (fun _ => 0) fun _ _ => 0) badAddress = true by
      decide +kernel) (init (fun _ => 0) fun _ _ => 0), by decide +kernel⟩

end Xv6.PipeSys
