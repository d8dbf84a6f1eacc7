import Xv6.Virtio

/-!
# What the virtio driver keeps by itself

`Owned` is the part of the invariant that is about the driver alone: each process
in `virtio_disk_rw` has its own buffer, the chains of processes are disjoint,
`free` marks the descriptors of no chain, and a chain stays as it was formatted.
-/

namespace Xv6.Virtio

open Function

/-! ## What a control point says -/

namespace Pc

/-- Is `vdisk_lock` held? -/
def holds : Pc → Bool
  | .rwAlloc _ | .rwFormat .. | .rwRing .. | .rwIdx .. | .rwWait .. | .rwFree .. | .intrLoop => true
  | _ => false

/-- The call of `virtio_disk_rw`. -/
def call : Pc → Option Call
  | .rwAcquire a | .rwAlloc a => some a
  | .rwFormat a _ | .rwRing a _ | .rwIdx a _ => some a
  | .rwWait a _ _ | .rwSleep a _ _ | .rwFree a _ _ => some a
  | _ => none

/-- The chain the process has. -/
def chain : Pc → Option Chain
  | .rwFormat _ c | .rwRing _ c | .rwIdx _ c => some c
  | .rwWait _ c _ | .rwSleep _ c _ | .rwFree _ c _ => some c
  | _ => none

/-- The chain, when it has been formatted. -/
def ready : Pc → Option (Call × Chain)
  | .rwRing a c | .rwIdx a c => some (a, c)
  | .rwWait a c _ | .rwSleep a c _ | .rwFree a c _ => some (a, c)
  | _ => none

/-- The chain, when the device has not been told of it. -/
def prepared : Pc → Option (Call × Chain)
  | .rwRing a c | .rwIdx a c => some (a, c)
  | _ => none

/-- The chain, when it is in the slot after the last one counted. -/
def inSlot : Pc → Option Chain
  | .rwIdx _ c => some c
  | _ => none

/-- The request the process waits for. -/
def waitsFor : Pc → Option (Call × Chain × ℕ)
  | .rwWait a c n | .rwSleep a c n => some (a, c, n)
  | _ => none

/-- The request that is done. -/
def finished : Pc → Option (Call × Chain × ℕ)
  | .rwFree a c n => some (a, c, n)
  | _ => none

theorem ready_chain {pc : Pc} {a : Call} {c : Chain} (h : pc.ready = some (a, c)) :
    pc.chain = some c := by
  cases pc <;> simp_all [ready, chain]

theorem ready_call {pc : Pc} {a : Call} {c : Chain} (h : pc.ready = some (a, c)) :
    pc.call = some a := by
  cases pc <;> simp_all [ready, call]

theorem waitsFor_ready {pc : Pc} {a : Call} {c : Chain} {n : ℕ} (h : pc.waitsFor = some (a, c, n)) :
    pc.ready = some (a, c) := by
  cases pc <;> simp_all [ready, waitsFor]

theorem prepared_ready {pc : Pc} {x : Call × Chain} (h : pc.prepared = some x) :
    pc.ready = some x ∧ pc.waitsFor = none := by
  cases pc <;> simp_all [ready, waitsFor, prepared]

end Pc

/-- Where `p` is. -/
def State.pc (s : State) (p : ℕ) : Pc := (s.process p).pc

@[simp]
theorem pc_goto (s : State) (p : ℕ) (pc : Pc) (q : ℕ) :
    (s.goto p pc).pc q = if q = p then pc else s.pc q := by
  by_cases hq : q = p
  · subst hq
    simp [State.pc, State.goto]
  · simp [State.pc, State.goto, hq]

@[simp]
theorem pc_wakeup (s : State) (chan : Chan) (q : ℕ) : (s.wakeup chan).pc q = s.pc q := by
  simp only [State.pc, State.wakeup]
  split_ifs <;> rfl

@[simp]
theorem pc_sleep (s : State) (p : ℕ) (chan : Chan) (pc : Pc) (q : ℕ) :
    (s.sleep p chan pc).pc q = if q = p then pc else s.pc q := by
  by_cases hq : q = p
  · subst hq
    simp [State.pc, State.sleep]
  · simp [State.pc, State.sleep, hq]

@[simp]
theorem pc_leave (s : State) (p q : ℕ) : (s.leave p).pc q = if q = p then .user else s.pc q :=
  pc_goto ..

/-! ## Who has what -/

/-- The three descriptors, as the device has to find them. -/
structure Formatted (s : State) (a : Call) (c : Chain) : Prop where
  head : s.desc c.head = ⟨.ops c.head, 16, VRING_DESC_F_NEXT, c.mid⟩
  mid : s.desc c.mid = ⟨.data a.b, BSIZE,
    (if a.write then 0 else VRING_DESC_F_WRITE) ||| VRING_DESC_F_NEXT, c.last⟩
  last : s.desc c.last = ⟨.status c.head, 1, VRING_DESC_F_WRITE, 0⟩
  ops : s.ops c.head = ⟨if a.write then VIRTIO_BLK_T_OUT else VIRTIO_BLK_T_IN, 0, a.sector⟩
  buf : (s.info c.head).b = some a.b

theorem next_head : VRING_DESC_F_NEXT &&& VRING_DESC_F_NEXT ≠ 0 := by decide

theorem next_mid (write : Bool) :
    ((if write then 0 else VRING_DESC_F_WRITE) ||| VRING_DESC_F_NEXT) &&& VRING_DESC_F_NEXT ≠ 0 := by
  cases write <;> decide

theorem next_last : VRING_DESC_F_WRITE &&& VRING_DESC_F_NEXT = 0 := by decide

/-- Three descriptors. -/
def Chain.Valid (c : Chain) : Prop := c.toList.Nodup ∧ ∀ i ∈ c.toList, i < NUM

/-- What the driver keeps by itself. -/
structure Owned (s : State) : Prop where
  lock : ∀ p, s.lock = some p ↔ (s.pc p).holds = true
  owner : ∀ p a, (s.pc p).call = some a → s.owner a.b = some p
  valid : ∀ p c, (s.pc p).chain = some c → c.Valid
  disjoint : ∀ p q c c', p ≠ q → (s.pc p).chain = some c → (s.pc q).chain = some c' →
    c.toList.Disjoint c'.toList
  free : ∀ i < NUM, s.free i = true ↔ ∀ p c, (s.pc p).chain = some c → i ∉ c.toList
  formatted : ∀ p a c, (s.pc p).ready = some (a, c) → Formatted s a c

variable {s s' : State} {p q : ℕ} {pc : Pc} {a : Call} {c : Chain} {n : ℕ}

/-- A chain that nobody else touches stays formatted. -/
theorem Formatted.congr (h : Formatted s a c)
    (hsame : ∀ i ∈ c.toList, s'.desc i = s.desc i ∧ s'.ops i = s.ops i ∧
      (s'.info i).b = (s.info i).b) : Formatted s' a c := by
  obtain ⟨hhead, hops, hbuf⟩ := hsame c.head (by simp [Chain.toList])
  have hmid := (hsame c.mid (by simp [Chain.toList])).1
  have hlast := (hsame c.last (by simp [Chain.toList])).1
  exact ⟨hhead.trans h.head, hmid.trans h.mid, hlast.trans h.last, hops.trans h.ops,
    hbuf.trans h.buf⟩

theorem owned_init (disk : ℕ → Bool) : Owned (init disk) where
  lock p := by simp [init, State.pc, Pc.holds]
  owner p a h := by simp [init, State.pc, Pc.call] at h
  valid p c h := by simp [init, State.pc, Pc.chain] at h
  disjoint p q c c' _ h := by simp [init, State.pc, Pc.chain] at h
  free i _ := by simp [init, State.pc, Pc.chain]
  formatted p a c h := by simp [init, State.pc, Pc.ready] at h

namespace Owned

/-- What the driver keeps depends on who has which buffer and chain, and on these chains. -/
theorem congr (h : Owned s) (hlock : ∀ p, s'.lock = some p ↔ (s'.pc p).holds = true)
    (hcall : ∀ p, (s'.pc p).call = (s.pc p).call)
    (hchain : ∀ p, (s'.pc p).chain = (s.pc p).chain)
    (hready : ∀ p, (s'.pc p).ready = (s.pc p).ready)
    (howner : s'.owner = s.owner) (hfree : s'.free = s.free)
    (hsame : ∀ p c, (s.pc p).chain = some c → ∀ i ∈ c.toList,
      s'.desc i = s.desc i ∧ s'.ops i = s.ops i ∧ (s'.info i).b = (s.info i).b) : Owned s' where
  lock := hlock
  owner p a := by rw [hcall, howner]; exact h.owner p a
  valid p c := by rw [hchain]; exact h.valid p c
  disjoint p q c c' := by rw [hchain, hchain]; exact h.disjoint p q c c'
  free i hi := by simp only [hchain, hfree]; exact h.free i hi
  formatted p a c hr := by
    rw [hready] at hr
    exact (h.formatted p a c hr).congr (hsame p c (Pc.ready_chain hr))

/-- A process moves, and keeps the lock or does without it. -/
theorem lock_keep (h : Owned s) (hpc : ∀ q, s'.pc q = if q = p then pc else s.pc q)
    (hlock : s'.lock = s.lock) (hp : pc.holds = (s.pc p).holds) (q : ℕ) :
    s'.lock = some q ↔ (s'.pc q).holds = true := by
  rw [hlock, h.lock, hpc]
  split_ifs with hq
  · rw [hp, hq]
  · rfl

/-- A process takes the lock. -/
theorem lock_take (h : Owned s) (hpc : ∀ q, s'.pc q = if q = p then pc else s.pc q)
    (hnone : s.lock = none) (hlock : s'.lock = some p) (hp : pc.holds = true) (q : ℕ) :
    s'.lock = some q ↔ (s'.pc q).holds = true := by
  have hq := h.lock q
  rw [hlock, hpc]
  split_ifs with hqp
  · simp [hqp, hp]
  · rw [hnone] at hq
    simp only [Option.some.injEq, Ne.symm hqp, false_iff]
    exact fun hh => by simpa using hq.mpr hh

/-- A process gives up the lock. -/
theorem lock_drop (h : Owned s) (hpc : ∀ q, s'.pc q = if q = p then pc else s.pc q)
    (hhas : (s.pc p).holds = true) (hlock : s'.lock = none) (hp : pc.holds = false) (q : ℕ) :
    s'.lock = some q ↔ (s'.pc q).holds = true := by
  have hsp := (h.lock p).mpr hhas
  have hq := h.lock q
  rw [hlock, hpc]
  split_ifs with hqp
  · simp [hp]
  · rw [hsp] at hq
    simp only [false_iff]
    exact fun hh => hqp (by simpa using (hq.mpr hh).symm)

theorem owner_unique (h : Owned s) {a' : Call} (hp : (s.pc p).call = some a)
    (hq : (s.pc q).call = some a') (hb : a.b = a'.b) : p = q := by
  have hpb := h.owner p a hp
  rw [hb, h.owner q a' hq] at hpb
  exact (Option.some.inj hpb).symm

/-- A descriptor of a chain is not free. -/
theorem not_free (h : Owned s) (hp : (s.pc p).chain = some c) {i : ℕ} (hi : i ∈ c.toList) :
    s.free i = false := by
  have hfree := h.free i ((h.valid p c hp).2 i hi)
  rw [← Bool.not_eq_true, hfree]
  exact fun hall => hall p c hp hi

end Owned

/-! ## Descriptors -/

/-- The state with other descriptors, and with processes woken up. -/
def State.tables (s : State) (desc : ℕ → Desc) (free : ℕ → Bool) (process : ℕ → Process) : State :=
  { s with desc := desc, free := free, process := process }

section

variable {desc : ℕ → Desc} {free : ℕ → Bool} {process : ℕ → Process} {i : ℕ}

theorem alloc_desc_spec (s : State) (h : alloc_desc (s.tables desc free process) = some (i, s')) :
    i < NUM ∧ free i = true ∧ ∃ free', s' = s.tables desc free' process ∧
      ∀ k, free' k = true ↔ free k = true ∧ k ≠ i := by
  unfold alloc_desc at h
  split at h
  · rename_i j hj
    obtain ⟨rfl, rfl⟩ := Prod.mk.inj (Option.some.inj h)
    refine ⟨List.mem_range.mp (List.mem_of_find?_eq_some hj), List.find?_some hj,
      update free j false, rfl, fun k => ?_⟩
    rw [update_apply]
    split_ifs with hk <;> simp [hk]
  · cases h

/-- **`free_desc`** frees a descriptor that is not free, and wakes up processes. -/
theorem free_desc_spec (s : State) (desc : ℕ → Desc) (process : ℕ → Process) (hi : i < NUM)
    (hfree : free i = false) :
    ∃ desc' free' process', free_desc (s.tables desc free process) i =
        .ok (s.tables desc' free' process') ∧
      (∀ k, free' k = true ↔ free k = true ∨ k = i) ∧ (∀ k ≠ i, desc' k = desc k) ∧
      ∀ q, (process' q).pc = (process q).pc := by
  refine ⟨update desc i ⟨.null, 0, 0, 0⟩, update free i true, _, ?_, fun k => ?_,
    fun k hk => update_of_ne hk .., pc_wakeup (s.tables desc free process) .free⟩
  · rw [free_desc, if_neg (by omega), if_neg (by simp [State.tables, hfree])]
    rfl
  · rw [update_apply]
    split_ifs with hk <;> simp [hk]

/-- **`alloc3_desc`** gets three free descriptors, or leaves everything as it was, but for
descriptors that are free and for waking up processes. -/
theorem alloc3_desc_spec (s : State) :
    (∃ c free, alloc3_desc s = .ok (some c, s.tables s.desc free s.process) ∧ c.Valid ∧
      (∀ i ∈ c.toList, s.free i = true) ∧
      ∀ i, free i = true ↔ s.free i = true ∧ i ∉ c.toList) ∨
    ∃ desc free process, alloc3_desc s = .ok (none, s.tables desc free process) ∧
      (∀ i, free i = true ↔ s.free i = true) ∧ (∀ i, s.free i = false → desc i = s.desc i) ∧
      ∀ q, (process q).pc = s.pc q := by
  unfold alloc3_desc
  rcases h₁ : alloc_desc s with _ | ⟨i, s₁⟩
  · exact .inr ⟨s.desc, s.free, s.process, rfl, fun _ => .rfl, fun _ _ => rfl, fun _ => rfl⟩
  obtain ⟨hi, hfi, free₁, rfl, hfree₁⟩ :=
    alloc_desc_spec s (show alloc_desc (s.tables s.desc s.free s.process) = _ from h₁)
  dsimp only
  rcases h₂ : alloc_desc (s.tables s.desc free₁ s.process) with _ | ⟨j, s₂⟩
  · -- only one was free, and is freed again
    obtain ⟨desc, free, process, hok, hfree, hdesc, hpc⟩ :=
      free_desc_spec s s.desc s.process hi
        (show free₁ i = false by simpa using (hfree₁ i).not.mpr (by simp))
    refine .inr ⟨desc, free, process, by simp only [hok], fun k => ?_, fun k hk => ?_, hpc⟩
    · rw [hfree, hfree₁]
      by_cases hk : k = i <;> simp [hk, hfi]
    · exact hdesc k (by rintro rfl; simp [hfi] at hk)
  obtain ⟨hj, hfj, free₂, rfl, hfree₂⟩ := alloc_desc_spec s h₂
  obtain ⟨hfj, hji⟩ := (hfree₁ j).mp hfj
  dsimp only
  rcases h₃ : alloc_desc (s.tables s.desc free₂ s.process) with _ | ⟨k, s₃⟩
  · -- two were free, and are freed again
    obtain ⟨desc, free, process, hok, hfree, hdesc, hpc⟩ :=
      free_desc_spec s s.desc s.process hi
        (show free₂ i = false by simpa using (hfree₂ i).not.mpr (by simp [hfree₁]))
    obtain ⟨desc', free', process', hok', hfree', hdesc', hpc'⟩ :=
      free_desc_spec s desc process hj
        (show free j = false by simpa using (hfree j).not.mpr (by simp [hfree₂, hji]))
    refine .inr ⟨desc', free', process', by simp only [hok, hok'], fun k => ?_, fun k hk => ?_,
      fun q => (hpc' q).trans (hpc q)⟩
    · rw [hfree', hfree, hfree₂, hfree₁]
      by_cases hki : k = i
      · simp [hki, hfi]
      · by_cases hkj : k = j <;> simp [hki, hkj, hfj]
    · rw [hdesc' k (by rintro rfl; simp [hfj] at hk)]
      exact hdesc k (by rintro rfl; simp [hfi] at hk)
  obtain ⟨hk, hfk, free₃, rfl, hfree₃⟩ := alloc_desc_spec s h₃
  obtain ⟨hfk, hkj⟩ := (hfree₂ k).mp hfk
  obtain ⟨hfk, hki⟩ := (hfree₁ k).mp hfk
  refine .inl ⟨⟨i, j, k⟩, free₃, rfl, ⟨?_, ?_⟩, ?_, fun m => ?_⟩
  · simp [Chain.toList, hji.symm, hki.symm, hkj.symm]
  · simp [Chain.toList, hi, hj, hk]
  · simp [Chain.toList, hfi, hfj, hfk]
  · simp [hfree₃, hfree₂, hfree₁, Chain.toList, and_assoc]

theorem freeLoop_next {fuel : ℕ} (hok : free_desc (s.tables desc free process) i = .ok s')
    (hnext : (desc i).flags &&& VRING_DESC_F_NEXT ≠ 0) :
    freeLoop (fuel + 1) (s.tables desc free process) i = freeLoop fuel s' (desc i).next := by
  rw [freeLoop, hok]
  exact if_pos hnext

theorem freeLoop_last {fuel : ℕ} (hok : free_desc (s.tables desc free process) i = .ok s')
    (hnext : (desc i).flags &&& VRING_DESC_F_NEXT = 0) :
    freeLoop (fuel + 1) (s.tables desc free process) i = .ok s' := by
  rw [freeLoop, hok]
  exact if_neg (not_not.mpr hnext)

/-- **`free_chain`** frees the descriptors of a formatted chain. -/
theorem free_chain_spec (s : State) (process : ℕ → Process)
    (hhead : desc c.head = ⟨.ops c.head, 16, VRING_DESC_F_NEXT, c.mid⟩)
    (hmid : desc c.mid = ⟨.data a.b, BSIZE,
      (if a.write then 0 else VRING_DESC_F_WRITE) ||| VRING_DESC_F_NEXT, c.last⟩)
    (hlast : desc c.last = ⟨.status c.head, 1, VRING_DESC_F_WRITE, 0⟩)
    (hvalid : c.Valid) (hfree : ∀ i ∈ c.toList, free i = false) :
    ∃ desc' free' process', free_chain (s.tables desc free process) c.head =
        .ok (s.tables desc' free' process') ∧
      (∀ i, free' i = true ↔ free i = true ∨ i ∈ c.toList) ∧
      (∀ i ∉ c.toList, desc' i = desc i) ∧ ∀ q, (process' q).pc = (process q).pc := by
  obtain ⟨hnodup, hlt⟩ := hvalid
  simp only [Chain.toList, List.nodup_cons, List.mem_cons, List.not_mem_nil, or_false, not_or,
    forall_eq_or_imp, forall_eq] at hnodup hlt hfree
  obtain ⟨⟨hhm, hhl⟩, hml, -⟩ := hnodup
  obtain ⟨hlt₁, hlt₂, hlt₃⟩ := hlt
  obtain ⟨hf₁, hf₂, hf₃⟩ := hfree
  obtain ⟨desc₁, free₁, process₁, hok₁, hfree₁, hdesc₁, hpc₁⟩ :=
    free_desc_spec s desc process hlt₁ hf₁
  obtain ⟨desc₂, free₂, process₂, hok₂, hfree₂, hdesc₂, hpc₂⟩ :=
    free_desc_spec s desc₁ process₁ hlt₂
      (show free₁ c.mid = false by simpa using (hfree₁ c.mid).not.mpr (by simp [hf₂, Ne.symm hhm]))
  obtain ⟨desc₃, free₃, process₃, hok₃, hfree₃, hdesc₃, hpc₃⟩ :=
    free_desc_spec s desc₂ process₂ hlt₃
      (show free₂ c.last = false by
        simpa using (hfree₂ c.last).not.mpr (by simp [hfree₁, hf₃, Ne.symm hhl, Ne.symm hml]))
  have hmid₁ : desc₁ c.mid = _ := (hdesc₁ c.mid (Ne.symm hhm)).trans hmid
  have hlast₂ : desc₂ c.last = _ :=
    (hdesc₂ c.last (Ne.symm hml)).trans ((hdesc₁ c.last (Ne.symm hhl)).trans hlast)
  refine ⟨desc₃, free₃, process₃, ?_, fun k => ?_, fun k hk => ?_, fun q => ?_⟩
  · rw [free_chain, NUM, freeLoop_next hok₁ (by rw [hhead]; exact next_head), hhead,
      freeLoop_next hok₂ (by rw [hmid₁]; exact next_mid a.write), hmid₁,
      freeLoop_last hok₃ (by rw [hlast₂]; exact next_last)]
  · simp [hfree₃, hfree₂, hfree₁, Chain.toList, or_assoc]
  · simp only [Chain.toList, List.mem_cons, List.not_mem_nil, or_false, not_or] at hk
    rw [hdesc₃ k hk.2.2, hdesc₂ k hk.2.1, hdesc₁ k hk.1]
  · rw [hpc₃, hpc₂, hpc₁]

end

theorem format_of_not_mem {i : ℕ} (hi : i ∉ c.toList) :
    (format s a c).desc i = s.desc i ∧ (format s a c).ops i = s.ops i ∧
      ((format s a c).info i).b = (s.info i).b := by
  simp only [Chain.toList, List.mem_cons, List.not_mem_nil, or_false, not_or] at hi
  obtain ⟨hhead, hmid, hlast⟩ := hi
  simp [format, hhead, hmid, hlast]

theorem format_formatted (hc : c.toList.Nodup) : Formatted (format s a c) a c := by
  simp only [Chain.toList, List.nodup_cons, List.mem_cons, List.not_mem_nil, or_false,
    not_or] at hc
  obtain ⟨⟨hhm, hhl⟩, hml, -⟩ := hc
  constructor <;> simp [format, hhm, hhl, hml]

/-! ## The driver keeps what it has -/

theorem same_of_move {α : Type} (f : Pc → α) (hpc : ∀ q, s'.pc q = if q = p then pc else s.pc q)
    (hp : f pc = f (s.pc p)) (q : ℕ) : f (s'.pc q) = f (s.pc q) := by
  rw [hpc]
  split_ifs with hq
  · rw [hp, hq]
  · rfl

/-- A process moves to where `f` says nothing, and `f` says of the others what it said. -/
theorem of_move {α : Type} (f : Pc → Option α) {x : α}
    (hpc : ∀ q, s'.pc q = if q = p then pc else s.pc q) (hf : f pc = none)
    (hq : f (s'.pc q) = some x) : f (s.pc q) = some x := by
  rw [hpc] at hq
  split_ifs at hq
  · rw [hf] at hq
    cases hq
  · exact hq

namespace Owned

/-- A process moves, and has what it had. -/
theorem move (h : Owned s) {pc₀ : Pc} (hpc : ∀ q, s'.pc q = if q = p then pc else s.pc q)
    (hp : s.pc p = pc₀) (hlock : ∀ p, s'.lock = some p ↔ (s'.pc p).holds = true)
    (hcall : pc.call = pc₀.call) (hchain : pc.chain = pc₀.chain)
    (hready : pc.ready = pc₀.ready) (howner : s'.owner = s.owner) (hfree : s'.free = s.free)
    (hsame : ∀ p c, (s.pc p).chain = some c → ∀ i ∈ c.toList,
      s'.desc i = s.desc i ∧ s'.ops i = s.ops i ∧ (s'.info i).b = (s.info i).b) : Owned s' := by
  subst hp
  exact h.congr hlock (same_of_move Pc.call hpc hcall) (same_of_move Pc.chain hpc hchain)
    (same_of_move Pc.ready hpc hready) howner hfree hsame

/-- Nothing of this has changed. -/
theorem same (h : Owned s) (hpc : s'.pc = s.pc) (hlock : s'.lock = s.lock)
    (howner : s'.owner = s.owner) (hfree : s'.free = s.free)
    (hsame : ∀ i, s'.desc i = s.desc i ∧ s'.ops i = s.ops i ∧ (s'.info i).b = (s.info i).b) :
    Owned s' :=
  h.congr (fun p => by rw [hlock, hpc]; exact h.lock p) (fun _ => by rw [hpc]) (fun _ => by rw [hpc])
    (fun _ => by rw [hpc]) howner hfree fun _ _ _ i _ => hsame i

/-- Buffers are locked and unlocked. -/
theorem setOwner (h : Owned s) {owner : ℕ → Option ℕ}
    (howner : ∀ q a, (s.pc q).call = some a → owner a.b = some q) :
    Owned { s with owner := owner } where
  lock := h.lock
  owner := howner
  valid := h.valid
  disjoint := h.disjoint
  free := h.free
  formatted q a c hq := (h.formatted q a c hq).congr fun _ _ => ⟨rfl, rfl, rfl⟩

theorem acquiresleep (h : Owned s) {b : ℕ} (hb : s.owner b = none) :
    Owned { s with owner := update s.owner b (some p) } := by
  refine h.setOwner fun q a hq => ?_
  have hown := h.owner q a hq
  rwa [update_of_ne]
  rintro rfl
  rw [hb] at hown
  cases hown

theorem releasesleep (h : Owned s) {b : ℕ} (hb : s.owner b = some p) (hp : s.pc p = .user) :
    Owned { s with owner := update s.owner b none } := by
  refine h.setOwner fun q a hq => ?_
  have hown := h.owner q a hq
  rwa [update_of_ne]
  rintro rfl
  rw [hb] at hown
  cases hown
  rw [hp] at hq
  cases hq

theorem rw (h : Owned s) (hb : s.owner a.b = some p) (hp : s.pc p = .user) :
    Owned (s.goto p (.rwAcquire a)) where
  lock := h.lock_keep (pc_goto s p _) rfl (by rw [hp]; rfl)
  owner q a' hq := by
    rw [pc_goto] at hq
    split_ifs at hq with hqp
    · cases hq
      rw [hqp]
      exact hb
    · exact h.owner q a' hq
  valid q c hq := by
    rw [same_of_move Pc.chain (pc_goto s p _) (by rw [hp]; rfl)] at hq
    exact h.valid q c hq
  disjoint q q' c c' hne hq hq' := by
    rw [same_of_move Pc.chain (pc_goto s p _) (by rw [hp]; rfl)] at hq hq'
    exact h.disjoint q q' c c' hne hq hq'
  free i hi := by
    simp only [same_of_move Pc.chain (pc_goto s p (.rwAcquire a)) (by rw [hp]; rfl)]
    exact h.free i hi
  formatted q a' c hq := by
    rw [same_of_move Pc.ready (pc_goto s p _) (by rw [hp]; rfl)] at hq
    exact (h.formatted q a' c hq).congr fun _ _ => ⟨rfl, rfl, rfl⟩

/-- A process gets a chain. -/
theorem alloc (h : Owned s) {free : ℕ → Bool} (hp : s.pc p = .rwAlloc a) (hvalid : c.Valid)
    (hfree : ∀ i ∈ c.toList, s.free i = true)
    (hfree' : ∀ i, free i = true ↔ s.free i = true ∧ i ∉ c.toList) :
    Owned ((s.tables s.desc free s.process).goto p (.rwFormat a c)) := by
  have hpc := pc_goto (s.tables s.desc free s.process) p (.rwFormat a c)
  have hnew (q : ℕ) (c' : Chain) (hq : (s.pc q).chain = some c') : c.toList.Disjoint c'.toList :=
    fun i hi hi' => absurd hi' ((h.free i (hvalid.2 i hi)).mp (hfree i hi) q c' hq)
  refine ⟨h.lock_keep hpc rfl (by rw [hp]; rfl), fun q a' hq => ?_, fun q c' hq => ?_,
    fun q q' c₁ c₂ hne hq hq' => ?_, fun i hi => ?_, fun q a' c' hq => ?_⟩
  · rw [same_of_move (s := s) Pc.call hpc (by rw [hp]; rfl)] at hq
    exact h.owner q a' hq
  · rw [hpc] at hq
    split_ifs at hq
    · cases hq
      exact hvalid
    · exact h.valid q c' hq
  · rw [hpc] at hq hq'
    split_ifs at hq hq' with hqp hqp' hqp'
    · exact absurd (hqp.trans hqp'.symm) hne
    · cases hq
      exact hnew q' c₂ hq'
    · cases hq'
      exact fun i hi hi' => hnew q c₁ hq hi' hi
    · exact h.disjoint q q' c₁ c₂ hne hq hq'
  · show free i = true ↔ _
    rw [hfree', h.free i hi]
    constructor
    · rintro ⟨hall, hi⟩ q c' hq
      rw [hpc] at hq
      split_ifs at hq
      · cases hq
        exact hi
      · exact hall q c' hq
    · intro hall
      refine ⟨fun q c' hq => hall q c' ?_, hall p c (by rw [hpc, if_pos rfl]; rfl)⟩
      rw [hpc, if_neg]
      · exact hq
      · rintro rfl
        rw [hp] at hq
        cases hq
  · rw [same_of_move (s := s) Pc.ready hpc (by rw [hp]; rfl)] at hq
    exact (h.formatted q a' c' hq).congr fun _ _ => ⟨rfl, rfl, rfl⟩

/-- A process formats its chain. -/
theorem format (h : Owned s) (hp : s.pc p = .rwFormat a c) :
    Owned ((format s a c).goto p (.rwRing a c)) := by
  have hpc := pc_goto (Virtio.format s a c) p (.rwRing a c)
  have hchain : (s.pc p).chain = some c := by rw [hp]; rfl
  have hsame := same_of_move (s := s) Pc.chain hpc hchain.symm
  refine ⟨h.lock_keep hpc rfl (by rw [hp]; rfl), fun q a' hq => ?_, fun q c' hq => ?_,
    fun q q' c₁ c₂ hne hq hq' => ?_, fun i hi => ?_, fun q a' c' hq => ?_⟩
  · rw [same_of_move (s := s) Pc.call hpc (by rw [hp]; rfl)] at hq
    exact h.owner q a' hq
  · rw [hsame] at hq
    exact h.valid q c' hq
  · rw [hsame] at hq hq'
    exact h.disjoint q q' c₁ c₂ hne hq hq'
  · simp only [hsame]
    exact h.free i hi
  · rw [hpc] at hq
    split_ifs at hq with hqp
    · obtain ⟨rfl, rfl⟩ := Prod.mk.inj (Option.some.inj hq)
      exact (format_formatted (h.valid p c hchain).1).congr fun _ _ => ⟨rfl, rfl, rfl⟩
    · refine (h.formatted q a' c' hq).congr fun i hi => format_of_not_mem fun hmem => ?_
      exact h.disjoint q p c' c hqp (Pc.ready_chain hq) hchain hi hmem

/-- A process frees its chain. -/
theorem finish (h : Owned s) {desc : ℕ → Desc} {free : ℕ → Bool} {process : ℕ → Process}
    {info : ℕ → Info} (hp : s.pc p = .rwFree a c n)
    (hfree : ∀ i, free i = true ↔ s.free i = true ∨ i ∈ c.toList)
    (hdesc : ∀ i ∉ c.toList, desc i = s.desc i) (hinfo : ∀ i ∉ c.toList, info i = s.info i)
    (hprocess : ∀ q, (process q).pc = s.pc q) :
    Owned ((State.tables { s with info := info } desc free process).leave p) := by
  have hpc (q : ℕ) : ((State.tables { s with info := info } desc free process).leave p).pc q =
      if q = p then .user else s.pc q := by
    rw [pc_leave, ← hprocess q]
    rfl
  have hchain : (s.pc p).chain = some c := by rw [hp]; rfl
  refine ⟨h.lock_drop hpc (by rw [hp]; rfl) rfl rfl, fun q a' hq => ?_, fun q c' hq => ?_,
    fun q q' c₁ c₂ hne hq hq' => ?_, fun i hi => ?_, fun q a' c' hq => ?_⟩
  · rw [hpc] at hq
    split_ifs at hq
    · cases hq
    · exact h.owner q a' hq
  · rw [hpc] at hq
    split_ifs at hq
    · cases hq
    · exact h.valid q c' hq
  · rw [hpc] at hq hq'
    split_ifs at hq hq'
    · cases hq
    · cases hq
    · cases hq'
    · exact h.disjoint q q' c₁ c₂ hne hq hq'
  · show free i = true ↔ _
    rw [hfree, h.free i hi]
    constructor
    · intro hi' q c' hq hmem
      rw [hpc] at hq
      split_ifs at hq with hqp
      · cases hq
      · rcases hi' with hall | hin
        · exact hall q c' hq hmem
        · exact h.disjoint q p c' c hqp hq hchain hmem hin
    · intro hall
      by_cases hin : i ∈ c.toList
      · exact .inr hin
      · refine .inl fun q c' hq hmem => ?_
        by_cases hqp : q = p
        · rw [hqp, hchain] at hq
          cases hq
          exact hin hmem
        · exact hall q c' (by rw [hpc, if_neg hqp]; exact hq) hmem
  · rw [hpc] at hq
    split_ifs at hq with hqp
    · cases hq
    · refine (h.formatted q a' c' hq).congr fun i hi => ?_
      have hnot : i ∉ c.toList := fun hmem =>
        h.disjoint q p c' c hqp (Pc.ready_chain hq) hchain hi hmem
      exact ⟨hdesc i hnot, rfl, congrArg Info.b (hinfo i hnot)⟩

end Owned

end Xv6.Virtio
