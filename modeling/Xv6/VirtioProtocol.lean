import Mathlib.Data.List.Nodup
import Mathlib.Data.List.Perm.Subperm
import Xv6.VirtioDriver

/-!
# The request protocol of the virtio disk

`Protocol` is the part of the invariant that is about the two rings: the available
ring is the queue of the requests the device has not taken, the used ring the
queue of the completions that have not been processed, and each request is in
one of these, or with the device, until its process sees `b->disk` cleared. The
counters wrap around; that the rings are queues is what `Ring` says of them, as
long as there are at most `NUM` requests, and there are as many chain heads.
-/

namespace Xv6.Virtio

open Function List

variable {s s' : State} {p q : ℕ} {pc : Pc} {a : Call} {c : Chain} {n m : ℕ} {r : Request}

/-! ## The invariant -/

namespace State

/-- The available ring, from where the device takes requests. -/
def avail (s : State) : Ring ℕ 16 := ⟨s.ring, s.lastAvail, s.idx⟩

/-- The used ring, as far as the device has written it. -/
def used (s : State) : Ring ℕ 16 := ⟨s.usedRing, s.used_idx, s.usedEnd⟩

/-- The used ring, as far as `used->idx` counts it. -/
def published (s : State) : Ring ℕ 16 := ⟨s.usedRing, s.used_idx, s.usedIdx⟩

/-- The completions that have been processed. -/
def seen (s : State) : List ℕ := s.completed.take s.processed

/-- The completions that have not been processed. -/
def unseen (s : State) : List ℕ := s.completed.drop s.processed

/-- The first descriptor of a request. -/
def headOf (s : State) (n : ℕ) : ℕ := (s.given[n]?.map (·.idx.head)).getD 0

end State

/-- Request `n` is one its process waits for. -/
def Waiting (s : State) (n : ℕ) (r : Request) : Prop :=
  s.given[n]? = some r ∧ (s.pc r.p).waitsFor = some (r.a, r.idx, n) ∧ s.disk r.a.b = true

structure Protocol (s : State) : Prop where
  avail : s.avail.contents NUM = (s.given.drop s.taken).map (·.idx.head)
  used : s.used.contents NUM = s.unseen.map s.headOf
  published : s.published.count ≤ s.used.count
  pending : ∀ x ∈ s.pending, x.1 = s.headOf x.2
  once : (s.pending.map (·.2) ++ s.completed).Perm (range s.taken)
  taken_le : s.taken ≤ s.given.length
  processed_le : s.processed ≤ s.completed.length
  status : ∀ n ∈ s.unseen, (s.info (s.headOf n)).status = 0
  active : ∀ n < s.given.length, n ∉ s.seen → ∃ r, Waiting s n r
  waiting : ∀ p a c n, (s.pc p).waitsFor = some (a, c, n) →
    s.given[n]? = some ⟨p, a, c⟩ ∧ (s.disk a.b = false → n ∈ s.seen)
  finished : ∀ p a c n, (s.pc p).finished = some (a, c, n) →
    s.given[n]? = some ⟨p, a, c⟩ ∧ n ∈ s.seen
  prepared : ∀ p a c, (s.pc p).prepared = some (a, c) → s.disk a.b = true
  slot : ∀ p c, (s.pc p).inSlot = some c → s.ring (s.idx.toNat % NUM) = c.head

theorem protocol_init (disk : ℕ → Bool) : Protocol (init disk) where
  avail := by simp [init, State.avail, Ring.contents, Ring.count]
  used := by simp [init, State.used, State.unseen, Ring.contents, Ring.count]
  published := le_refl _
  pending x hx := by cases hx
  once := List.Perm.refl _
  taken_le := le_refl _
  processed_le := le_refl _
  status n hn := by cases hn
  active n hn := by cases hn
  waiting p a c n h := by cases h
  finished p a c n h := by cases h
  prepared p a c h := by cases h
  slot p c h := by cases h

theorem headOf_eq (h : s.given[n]? = some r) : s.headOf n = r.idx.head := by
  simp [State.headOf, h]

namespace Protocol

theorem nodup (h : Protocol s) : (s.pending.map (·.2) ++ s.completed).Nodup :=
  h.once.nodup_iff.mpr nodup_range

theorem lt_of_mem (h : Protocol s) (hn : n ∈ s.pending.map (·.2) ∨ n ∈ s.completed) :
    n < s.given.length :=
  (mem_range.mp (h.once.mem_iff.mp (mem_append.mpr hn))).trans_le h.taken_le

theorem seen_subset (h : n ∈ s.seen) : n ∈ s.completed := mem_of_mem_take h

/-- A completion that has not been processed is of a request that is waited for. -/
theorem unseen_active (h : Protocol s) (hn : n ∈ s.unseen) : ∃ r, Waiting s n r := by
  have hmem : n ∈ s.completed := mem_of_mem_drop hn
  refine h.active n (h.lt_of_mem (.inr hmem)) fun hseen => ?_
  have hcompleted := (nodup_append.mp h.nodup).2.1
  rw [← take_append_drop s.processed s.completed] at hcompleted
  exact (nodup_append.mp hcompleted).2.2 n hseen n hn rfl

/-- So is a request that the device works on. -/
theorem pending_active (h : Protocol s) (hn : n ∈ s.pending.map (·.2)) : ∃ r, Waiting s n r :=
  h.active n (h.lt_of_mem (.inl hn)) fun hseen =>
    (nodup_append.mp h.nodup).2.2 n hn n (seen_subset hseen) rfl

/-- So is a request that the device has not taken. -/
theorem untaken_active (h : Protocol s) (hn : s.taken ≤ n) (hlt : n < s.given.length) :
    ∃ r, Waiting s n r := by
  refine h.active n hlt fun hseen => ?_
  have := h.once.mem_iff.mp (mem_append_right _ (seen_subset hseen))
  exact absurd (mem_range.mp this) (by omega)

end Protocol

namespace Waiting

theorem call (h : Waiting s n r) : (s.pc r.p).call = some r.a :=
  Pc.ready_call (Pc.waitsFor_ready h.2.1)

theorem chain (h : Waiting s n r) : (s.pc r.p).chain = some r.idx :=
  Pc.ready_chain (Pc.waitsFor_ready h.2.1)

theorem formatted (ho : Owned s) (h : Waiting s n r) : Formatted s r.a r.idx :=
  ho.formatted r.p r.a r.idx (Pc.waitsFor_ready h.2.1)

theorem headOf_eq (h : Waiting s n r) : s.headOf n = r.idx.head := Virtio.headOf_eq h.1

theorem headOf_mem (h : Waiting s n r) : s.headOf n ∈ r.idx.toList := by
  rw [h.headOf_eq]
  simp [Chain.toList]

/-- A process waits for one request. -/
theorem unique (h : Waiting s n r) {r' : Request} (h' : Waiting s m r') (hp : r.p = r'.p) :
    n = m := by
  have heq := h.2.1
  rw [hp, h'.2.1] at heq
  simp only [Option.some.injEq, Prod.mk.injEq] at heq
  exact heq.2.2.symm

/-- Requests that are waited for have different heads. -/
theorem head_inj (ho : Owned s) (h : Waiting s n r) {r' : Request} (h' : Waiting s m r')
    (heq : s.headOf n = s.headOf m) : n = m := by
  by_contra hne
  have hp : r.p ≠ r'.p := fun hp => hne (h.unique h' hp)
  exact ho.disjoint r.p r'.p _ _ hp h.chain h'.chain h.headOf_mem (heq ▸ h'.headOf_mem)

end Waiting

/-- The heads of requests that are waited for. -/
theorem heads_nodup (ho : Owned s) {L : List ℕ} (hL : L.Nodup) (hw : ∀ n ∈ L, ∃ r, Waiting s n r) :
    (L.map s.headOf).Nodup := by
  refine List.Nodup.map_on (fun n hn m hm heq => ?_) hL
  obtain ⟨r, hr⟩ := hw n hn
  obtain ⟨r', hr'⟩ := hw m hm
  exact hr.head_inj ho hr' heq

theorem heads_lt (ho : Owned s) {L : List ℕ} (hw : ∀ n ∈ L, ∃ r, Waiting s n r) :
    L.map s.headOf ⊆ range NUM := by
  intro i hi
  obtain ⟨n, hn, rfl⟩ := mem_map.mp hi
  obtain ⟨r, hr⟩ := hw n hn
  exact mem_range.mpr ((ho.valid r.p _ hr.chain).2 _ hr.headOf_mem)

/-- **At most `NUM` requests are waited for.** -/
theorem length_le_num (ho : Owned s) {L : List ℕ} (hL : L.Nodup)
    (hw : ∀ n ∈ L, ∃ r, Waiting s n r) : L.length ≤ NUM := by
  have := (subperm_of_subset (heads_nodup ho hL hw) (heads_lt ho hw)).length_le
  simpa using this

/-- Fewer, while a process has a chain that the device does not know of. -/
theorem length_lt_num (ho : Owned s) {L : List ℕ} (hL : L.Nodup)
    (hw : ∀ n ∈ L, ∃ r, Waiting s n r) (hchain : (s.pc p).chain = some c)
    (hnot : (s.pc p).waitsFor = none) : L.length < NUM := by
  have hmem : c.head ∈ c.toList := by simp [Chain.toList]
  have hnew : c.head ∉ L.map s.headOf := by
    intro hin
    obtain ⟨n, hn, heq⟩ := mem_map.mp hin
    obtain ⟨r, hr⟩ := hw n hn
    have hp : p ≠ r.p := by
      rintro rfl
      rw [hr.2.1] at hnot
      cases hnot
    exact ho.disjoint p r.p _ _ hp hchain hr.chain hmem (heq ▸ hr.headOf_mem)
  have hsub : c.head :: L.map s.headOf ⊆ range NUM :=
    cons_subset.mpr ⟨mem_range.mpr ((ho.valid p c hchain).2 _ hmem), heads_lt ho hw⟩
  have := (subperm_of_subset (nodup_cons.mpr ⟨hnew, heads_nodup ho hL hw⟩) hsub).length_le
  simp only [length_cons, length_map, length_range] at this
  omega

theorem count_avail (h : Protocol s) : s.avail.count = s.given.length - s.taken := by
  rw [← Ring.length_contents NUM, h.avail]
  simp

theorem count_used (h : Protocol s) : s.used.count = s.unseen.length := by
  rw [← Ring.length_contents NUM, h.used]
  simp

/-- **The slot after the last one counted** is not one the device has still to look at. -/
theorem avail_lt (ho : Owned s) (h : Protocol s) (hchain : (s.pc p).chain = some c)
    (hnot : (s.pc p).waitsFor = none) : s.avail.count < NUM := by
  have hlt := length_lt_num ho (L := range' s.taken (s.given.length - s.taken))
    nodup_range' (fun n hn => ?_) hchain hnot
  · rwa [length_range', ← count_avail h] at hlt
  · rw [mem_range'_1] at hn
    exact h.untaken_active hn.1 (by omega)

/-- **The entry after the last one written** of the used ring is not one the driver has still to
look at, while the device works on something. -/
theorem used_lt (ho : Owned s) (h : Protocol s) (hn : n ∈ s.pending.map (·.2)) :
    s.used.count < NUM := by
  have hnot : n ∉ s.unseen := fun hmem =>
    (nodup_append.mp h.nodup).2.2 n hn n (mem_of_mem_drop hmem) rfl
  have hnodup : (n :: s.unseen).Nodup :=
    nodup_cons.mpr ⟨hnot, (nodup_append.mp h.nodup).2.1.drop⟩
  have hle := length_le_num ho hnodup fun m hm => ?_
  · rw [count_used h]
    exact Nat.lt_of_succ_le (by simpa using hle)
  · rcases mem_cons.mp hm with rfl | hm
    · exact h.pending_active hn
    · exact h.unseen_active hm

/-! ## The steps of the driver -/

/-- What the rings and the history say. -/
def State.rings (s : State) :=
  (s.ring, s.idx, s.lastAvail, s.usedRing, s.usedIdx, s.used_idx, s.usedEnd, s.pending, s.given,
    s.taken, s.completed, s.processed)

/-- The protocol does not depend on the rest. -/
theorem Protocol.congr (h : Protocol s) (hrings : s'.rings = s.rings) (hdisk : s'.disk = s.disk)
    (hstatus : ∀ i, (s'.info i).status = (s.info i).status)
    (hwaits : ∀ p, (s'.pc p).waitsFor = (s.pc p).waitsFor)
    (hfinished : ∀ p x, (s'.pc p).finished = some x → (s.pc p).finished = some x)
    (hprepared : ∀ p x, (s'.pc p).prepared = some x → (s.pc p).prepared = some x)
    (hslot : ∀ p c, (s'.pc p).inSlot = some c → (s.pc p).inSlot = some c) : Protocol s' := by
  simp only [State.rings, Prod.mk.injEq] at hrings
  obtain ⟨hring, hidx, hlast, hused, husedIdx, hused_idx, hend, hpending, hgiven, htaken,
    hcompleted, hprocessed⟩ := hrings
  have hhead : s'.headOf = s.headOf := by
    funext n
    rw [State.headOf, State.headOf, hgiven]
  have hseen : s'.seen = s.seen := by rw [State.seen, State.seen, hcompleted, hprocessed]
  have hunseen : s'.unseen = s.unseen := by rw [State.unseen, State.unseen, hcompleted, hprocessed]
  refine ⟨?_, ?_, ?_, ?_, ?_, ?_, ?_, ?_, ?_, ?_, ?_, ?_, ?_⟩
  · rw [State.avail, hring, hlast, hidx, hgiven, htaken]
    exact h.avail
  · rw [State.used, hused, hused_idx, hend, hunseen, hhead]
    exact h.used
  · rw [State.published, State.used, hused, hused_idx, hend, husedIdx]
    exact h.published
  · rw [hpending, hhead]
    exact h.pending
  · rw [hpending, hcompleted, htaken]
    exact h.once
  · rw [htaken, hgiven]
    exact h.taken_le
  · rw [hprocessed, hcompleted]
    exact h.processed_le
  · simp only [hunseen, hhead, hstatus]
    exact h.status
  · simp only [hgiven, hseen, Waiting, hwaits, hdisk]
    exact h.active
  · simp only [hgiven, hseen, hwaits, hdisk]
    exact h.waiting
  · rw [hgiven, hseen]
    exact fun p a c n hp => h.finished p a c n (hfinished p _ hp)
  · rw [hdisk]
    exact fun p a c hp => h.prepared p a c (hprepared p _ hp)
  · rw [hring, hidx]
    exact fun p c hp => h.slot p c (hslot p c hp)

/-- Does a control point say nothing about requests? -/
def Pc.quiet (pc : Pc) : Prop :=
  pc.finished = none ∧ pc.prepared = none ∧ pc.inSlot = none

/-- A process moves, and waits for what it waited for. -/
theorem Protocol.move (h : Protocol s) {pc₀ : Pc}
    (hpc : ∀ q, s'.pc q = if q = p then pc else s.pc q) (hp : s.pc p = pc₀)
    (hwaits : pc.waitsFor = pc₀.waitsFor) (hquiet : pc.quiet) (hrings : s'.rings = s.rings)
    (hdisk : s'.disk = s.disk) (hstatus : ∀ i, (s'.info i).status = (s.info i).status) :
    Protocol s' := by
  subst hp
  obtain ⟨hfinished, hprepared, hslot⟩ := hquiet
  exact h.congr hrings hdisk hstatus (same_of_move Pc.waitsFor hpc hwaits)
    (fun _ _ => of_move Pc.finished hpc hfinished) (fun _ _ => of_move Pc.prepared hpc hprepared)
    fun _ _ => of_move Pc.inSlot hpc hslot

/-- A process formats its chain: its status byte is not one that is waited for. -/
theorem Protocol.format (ho : Owned s) (h : Protocol s) (hp : s.pc p = .rwFormat a c) :
    Protocol ((Virtio.format s a c).goto p (.rwRing a c)) := by
  have hpc := pc_goto (Virtio.format s a c) p (.rwRing a c)
  have hchain : (s.pc p).chain = some c := by rw [hp]; rfl
  have hwaits := same_of_move (s := s) Pc.waitsFor hpc (by rw [hp]; rfl)
  have hdisk (b : ℕ) : (Virtio.format s a c).disk b = if b = a.b then true else s.disk b :=
    update_apply ..
  have hmono {b : ℕ} (hb : s.disk b = true) : (Virtio.format s a c).disk b = true := by
    rw [hdisk, hb, ite_self]
  refine ⟨h.avail, h.used, h.published, h.pending, h.once, h.taken_le, h.processed_le, ?_, ?_, ?_,
    ?_, ?_, ?_⟩
  · intro n hn
    obtain ⟨r, hr⟩ := h.unseen_active hn
    have hne : s.headOf n ≠ c.head := by
      intro heq
      have hrp : r.p ≠ p := by
        rintro rfl
        have := hr.2.1
        rw [hp] at this
        cases this
      refine ho.disjoint r.p p _ _ hrp hr.chain hchain hr.headOf_mem ?_
      rw [heq]
      simp [Chain.toList]
    show (update s.info c.head _ (s.headOf n)).status = 0
    rw [update_of_ne hne]
    exact h.status n hn
  · intro n hn hseen
    obtain ⟨r, hgiven, hr, hb⟩ := h.active n hn hseen
    exact ⟨r, hgiven, (hwaits r.p).trans hr, hmono hb⟩
  · intro q a' c' n hq
    rw [hwaits] at hq
    obtain ⟨hgiven, hseen⟩ := h.waiting q a' c' n hq
    refine ⟨hgiven, fun hb => hseen ?_⟩
    by_contra hne
    have htrue := (hmono (by simpa using hne)).symm.trans hb
    cases htrue
  · exact fun q a' c' n hq => h.finished q a' c' n (of_move Pc.finished hpc rfl hq)
  · intro q a' c' hq
    rw [hpc] at hq
    split_ifs at hq
    · obtain ⟨rfl, rfl⟩ := Prod.mk.inj (Option.some.inj hq)
      exact (hdisk _).trans (if_pos rfl)
    · exact hmono (h.prepared q a' c' hq)
  · exact fun q c' hq => h.slot q c' (of_move Pc.inSlot hpc rfl hq)

theorem Pc.inSlot_holds {pc : Pc} {c : Chain} (h : pc.inSlot = some c) : pc.holds = true := by
  cases pc <;> first | rfl | cases h

/-- Only the process that has the lock can be between the two writes to the available ring. -/
theorem not_inSlot (ho : Owned s) (hp : (s.pc p).holds = true) (hq : q ≠ p) :
    (s.pc q).inSlot = none := by
  rcases hslot : (s.pc q).inSlot with _ | c
  · rfl
  · have hlock := (ho.lock q).mpr (Pc.inSlot_holds hslot)
    rw [(ho.lock p).mpr hp] at hlock
    exact absurd (Option.some.inj hlock).symm hq

/-- A process puts its chain into the next slot of the available ring. -/
theorem Protocol.ring (ho : Owned s) (h : Protocol s) (hp : s.pc p = .rwRing a c) :
    Protocol ({ s with
      ring := update s.ring (s.idx.toNat % NUM) c.head }.goto p (.rwIdx a c)) := by
  have hpc := pc_goto { s with ring := update s.ring (s.idx.toNat % NUM) c.head } p
    (.rwIdx a c)
  have hwaits := same_of_move (s := s) Pc.waitsFor hpc (by rw [hp]; rfl)
  refine ⟨?_, h.used, h.published, h.pending, h.once, h.taken_le, h.processed_le, h.status, ?_, ?_,
    ?_, ?_, ?_⟩
  · have hlt := avail_lt ho h (p := p) (c := c) (by rw [hp]; rfl) (by rw [hp]; rfl)
    exact (Ring.contents_write (by decide) hlt).trans h.avail
  · intro n hn hseen
    obtain ⟨r, hgiven, hr, hb⟩ := h.active n hn hseen
    exact ⟨r, hgiven, (hwaits r.p).trans hr, hb⟩
  · intro q a' c' n hq
    rw [hwaits] at hq
    exact h.waiting q a' c' n hq
  · exact fun q a' c' n hq => h.finished q a' c' n (of_move Pc.finished hpc rfl hq)
  · intro q a' c' hq
    rw [same_of_move (s := s) Pc.prepared hpc (by rw [hp]; rfl)] at hq
    exact h.prepared q a' c' hq
  · intro q c' hq
    rw [hpc] at hq
    split_ifs at hq with hqp
    · cases hq
      exact update_self ..
    · have hnone := (not_inSlot ho (by rw [hp]; rfl) hqp).symm.trans hq
      cases hnone

theorem headOf_append (hn : n < s.given.length) {r : Request} :
    (((s.given ++ [r])[n]?).map (·.idx.head)).getD 0 = s.headOf n := by
  rw [getElem?_append_left hn, State.headOf]

/-- A process counts its request. -/
theorem Protocol.idx (ho : Owned s) (h : Protocol s) (hp : s.pc p = .rwIdx a c) :
    Protocol ({ s with
      idx := s.idx + 1#16
      given := s.given ++ [(⟨p, a, c⟩ : Request)] }.goto p (.rwWait a c s.given.length)) := by
  have hpc := pc_goto { s with
    idx := s.idx + 1#16
    given := s.given ++ [(⟨p, a, c⟩ : Request)] } p (.rwWait a c s.given.length)
  have hdisk := h.prepared p a c (by rw [hp]; rfl)
  have hold {n : ℕ} {r : Request} (hr : s.given[n]? = some r) :
      (s.given ++ [(⟨p, a, c⟩ : Request)])[n]? = some r := by
    rw [List.getElem?_append_left (List.getElem?_eq_some_iff.mp hr).1, hr]
  have hmem {n : ℕ} (hn : n ∈ s.unseen) : n < s.given.length :=
    h.lt_of_mem (.inr (List.mem_of_mem_drop hn))
  refine ⟨?_, ?_, h.published, ?_, h.once, ?_, h.processed_le, ?_, ?_, ?_, ?_, ?_, ?_⟩
  · have hlt := avail_lt ho h (p := p) (c := c) (by rw [hp]; rfl) (by rw [hp]; rfl)
    have hcount := Ring.contents_count (r := s.avail) (N := NUM) (by decide)
      (by have : NUM < 2 ^ 16 := by decide
          omega)
    refine hcount.trans ?_
    rw [h.avail, show s.avail.data = s.ring from rfl, show s.avail.wr = s.idx from rfl,
      h.slot p c (by rw [hp]; rfl)]
    show _ = ((s.given ++ [(⟨p, a, c⟩ : Request)]).drop s.taken).map _
    rw [drop_append_of_le_length h.taken_le, map_append]
    rfl
  · refine h.used.trans (map_congr_left fun n hn => ?_)
    exact (headOf_append (hmem hn)).symm
  · intro x hx
    have hlt := h.lt_of_mem (.inl (mem_map_of_mem hx))
    exact (h.pending x hx).trans (headOf_append hlt).symm
  · show s.taken ≤ (s.given ++ [_]).length
    rw [length_append]
    exact h.taken_le.trans (Nat.le_add_right _ _)
  · intro n hn
    rw [State.headOf, show (State.goto _ _ _).given = s.given ++ [⟨p, a, c⟩] from rfl,
      headOf_append (hmem hn)]
    exact h.status n hn
  · intro n hn hseen
    by_cases hlt : n < s.given.length
    · obtain ⟨r, hgiven, hr, hb⟩ := h.active n hlt hseen
      refine ⟨r, hold hgiven, ?_, hb⟩
      rw [hpc, if_neg]
      · exact hr
      · intro hrp
        rw [hrp, hp] at hr
        cases hr
    · have hn' : n < (s.given ++ [(⟨p, a, c⟩ : Request)]).length := hn
      rw [length_append, length_singleton] at hn'
      obtain rfl : n = s.given.length := by omega
      refine ⟨⟨p, a, c⟩, List.getElem?_concat_length, ?_, hdisk⟩
      rw [hpc, if_pos rfl]
      rfl
  · intro q a' c' n hq
    rw [hpc] at hq
    split_ifs at hq with hqp
    · simp only [Pc.waitsFor, Option.some.injEq, Prod.mk.injEq] at hq
      obtain ⟨rfl, rfl, rfl⟩ := hq
      rw [hqp]
      refine ⟨List.getElem?_concat_length, fun hb => ?_⟩
      have htrue := hdisk.symm.trans hb
      cases htrue
    · obtain ⟨hgiven, hseen⟩ := h.waiting q a' c' n hq
      exact ⟨hold hgiven, hseen⟩
  · intro q a' c' n hq
    obtain ⟨hgiven, hseen⟩ := h.finished q a' c' n (of_move Pc.finished hpc rfl hq)
    exact ⟨hold hgiven, hseen⟩
  · exact fun q a' c' hq => h.prepared q a' c' (of_move Pc.prepared hpc rfl hq)
  · intro q c' hq
    rw [hpc] at hq
    split_ifs at hq with hqp
    · cases hq
    · have hnone := (not_inSlot ho (by rw [hp]; rfl) hqp).symm.trans hq
      cases hnone

/-- A process finds that its request is done. -/
theorem Protocol.done (h : Protocol s) (hp : s.pc p = .rwWait a c n) (hdisk : s.disk a.b = false) :
    Protocol (s.goto p (.rwFree a c n)) := by
  have hpc := pc_goto s p (.rwFree a c n)
  obtain ⟨hgiven, hseen⟩ := h.waiting p a c n (by rw [hp]; rfl)
  refine ⟨h.avail, h.used, h.published, h.pending, h.once, h.taken_le, h.processed_le, h.status,
    ?_, ?_, ?_, ?_, ?_⟩
  · intro m hm hnot
    obtain ⟨r, hr, hwaits, hb⟩ := h.active m hm hnot
    refine ⟨r, hr, ?_, hb⟩
    rw [hpc, if_neg]
    · exact hwaits
    · intro hrp
      rw [hrp, hp] at hwaits
      simp only [Pc.waitsFor, Option.some.injEq, Prod.mk.injEq] at hwaits
      rw [← hwaits.1, hdisk] at hb
      cases hb
  · exact fun q a' c' m hq => h.waiting q a' c' m (of_move Pc.waitsFor hpc rfl hq)
  · intro q a' c' m hq
    rw [hpc] at hq
    split_ifs at hq with hqp
    · simp only [Pc.finished, Option.some.injEq, Prod.mk.injEq] at hq
      obtain ⟨rfl, rfl, rfl⟩ := hq
      rw [hqp]
      exact ⟨hgiven, hseen hdisk⟩
    · exact h.finished q a' c' m hq
  · exact fun q a' c' hq => h.prepared q a' c' (of_move Pc.prepared hpc rfl hq)
  · exact fun q c' hq => h.slot q c' (of_move Pc.inSlot hpc rfl hq)

/-- **The next completion** is of a request that is waited for. -/
theorem next_completion (h : Protocol s) (hne : s.used_idx ≠ s.usedIdx) :
    ∃ n r rest, s.unseen = n :: rest ∧ Waiting s n r ∧
      s.usedRing (s.used_idx.toNat % NUM) = r.idx.head ∧
      s.used.pop.contents NUM = rest.map s.headOf ∧ s.used.rd ≠ s.used.wr := by
  have hpos : s.published.count ≠ 0 := fun h0 => hne (Ring.count_eq_zero.mp h0)
  have hused : s.used.rd ≠ s.used.wr := by
    intro heq
    have hle := h.published
    rw [Ring.count_eq_zero.mpr heq] at hle
    omega
  have hpop := Ring.contents_pop (N := NUM) (by decide) hused
  rw [h.used] at hpop
  rcases hun : s.unseen with _ | ⟨n, rest⟩
  · rw [hun] at hpop
    cases hpop
  · rw [hun, map_cons] at hpop
    obtain ⟨hfront, hrest⟩ := cons.inj hpop
    obtain ⟨r, hr⟩ := h.unseen_active (n := n) (by rw [hun]; exact mem_cons_self)
    exact ⟨n, r, rest, rfl, hr, hfront.symm.trans hr.headOf_eq, hrest.symm, hused⟩

theorem seen_succ {rest : List ℕ} (hun : s.unseen = n :: rest) :
    s.completed.take (s.processed + 1) = s.seen ++ [n] ∧
      s.completed.drop (s.processed + 1) = rest ∧ s.processed + 1 ≤ s.completed.length := by
  have hlt : s.processed < s.completed.length := by
    by_contra! hge
    rw [State.unseen, drop_eq_nil_of_le hge] at hun
    cases hun
  rw [State.unseen, drop_eq_getElem_cons hlt] at hun
  obtain ⟨hn, hrest⟩ := cons.inj hun
  refine ⟨?_, hrest, hlt⟩
  rw [take_succ_eq_append_getElem hlt, hn]
  rfl

/-- An interrupt processes the next completion. -/
theorem Protocol.process (ho : Owned s) (h : Protocol s) {rest : List ℕ}
    (hun : s.unseen = n :: rest) (hr : Waiting s n r)
    (hpop : s.used.pop.contents NUM = rest.map s.headOf) (hne : s.used_idx ≠ s.usedIdx)
    (hused : s.used.rd ≠ s.used.wr) :
    Protocol ({ s with
      disk := update s.disk r.a.b false
      used_idx := s.used_idx + 1#16
      processed := s.processed + 1 }.wakeup (.buf r.a.b)) := by
  have hpc := pc_wakeup { s with
    disk := update s.disk r.a.b false
    used_idx := s.used_idx + 1#16
    processed := s.processed + 1 } (.buf r.a.b)
  obtain ⟨hseen, hunseen, hle⟩ := seen_succ hun
  -- another request is for another buffer
  have hother {m : ℕ} {r' : Request} (hr' : Waiting s m r') (hm : m ≠ n) : r'.a.b ≠ r.a.b :=
    fun hb => hm (hr'.unique hr (ho.owner_unique hr'.call hr.call hb))
  refine ⟨h.avail, ?_, ?_, h.pending, h.once, h.taken_le, hle, ?_, ?_, ?_, ?_, ?_, ?_⟩
  · show s.used.pop.contents NUM = (s.completed.drop (s.processed + 1)).map s.headOf
    rw [hunseen, hpop]
  · have hcount₁ := Ring.count_pop (r := s.published) hne
    have hcount₂ := Ring.count_pop hused
    have hpub := h.published
    show s.published.pop.count ≤ s.used.pop.count
    omega
  · intro m hm
    refine h.status m ?_
    rw [hun]
    exact mem_cons_of_mem _ (hunseen ▸ hm)
  · intro m hm hnot
    have hnot' : m ∉ s.seen ++ [n] := hseen ▸ hnot
    rw [mem_append, mem_singleton, not_or] at hnot'
    obtain ⟨r', hr'⟩ := h.active m hm hnot'.1
    refine ⟨r', hr'.1, ?_, ?_⟩
    · rw [hpc]
      exact hr'.2.1
    · exact (update_of_ne (hother hr' hnot'.2) ..).trans hr'.2.2
  · intro q a' c' m hq
    rw [hpc] at hq
    obtain ⟨hgiven, hseen'⟩ := h.waiting q a' c' m hq
    refine ⟨hgiven, fun hb => ?_⟩
    show m ∈ s.completed.take (s.processed + 1)
    rw [hseen, mem_append, mem_singleton]
    by_cases hab : a'.b = r.a.b
    · have hqp : q = r.p := ho.owner_unique (Pc.ready_call (Pc.waitsFor_ready hq)) hr.call hab
      rw [hqp] at hq
      have heq := Option.some.inj (hq.symm.trans hr.2.1)
      exact .inr (Prod.mk.inj (Prod.mk.inj heq).2).2
    · exact .inl (hseen' ((update_of_ne hab ..).symm.trans hb))
  · intro q a' c' m hq
    rw [hpc] at hq
    obtain ⟨hgiven, hseen'⟩ := h.finished q a' c' m hq
    refine ⟨hgiven, ?_⟩
    show m ∈ s.completed.take (s.processed + 1)
    rw [hseen]
    exact mem_append_left _ hseen'
  · intro q a' c' hq
    rw [hpc] at hq
    have hdisk := h.prepared q a' c' hq
    obtain ⟨hready, hwaits⟩ := Pc.prepared_ready (show (s.pc q).prepared = _ from hq)
    refine (update_of_ne ?_ ..).trans hdisk
    intro hab
    have hqp : q = r.p := ho.owner_unique (Pc.ready_call hready) hr.call hab
    rw [hqp, hr.2.1] at hwaits
    cases hwaits
  · intro q c' hq
    rw [hpc] at hq
    exact h.slot q c' hq

/-! ## The steps of the device -/

/-- The device takes the next request. -/
theorem Protocol.take (h : Protocol s) (hne : s.lastAvail ≠ s.idx) :
    Protocol { s with
      lastAvail := s.lastAvail + 1#16
      pending := s.pending ++ [(s.ring (s.lastAvail.toNat % NUM), s.taken)]
      taken := s.taken + 1 } := by
  have hpop := Ring.contents_pop (r := s.avail) (N := NUM) (by decide) hne
  rw [h.avail] at hpop
  have hlt : s.taken < s.given.length := by
    by_contra! hge
    rw [drop_eq_nil_of_le hge] at hpop
    cases hpop
  rw [drop_eq_getElem_cons hlt, map_cons] at hpop
  obtain ⟨hfront, hrest⟩ := cons.inj hpop
  refine ⟨hrest.symm, h.used, h.published, ?_, ?_, hlt, h.processed_le, h.status, h.active,
    h.waiting, h.finished, h.prepared, h.slot⟩
  · intro x hx
    rcases mem_append.mp hx with hx | hx
    · exact h.pending x hx
    · rw [mem_singleton.mp hx]
      exact hfront.symm.trans (headOf_eq (getElem?_eq_getElem hlt)).symm
  · show ((s.pending ++ [(s.ring (s.lastAvail.toNat % NUM), s.taken)]).map (·.2) ++
      s.completed).Perm (range (s.taken + 1))
    rw [map_append, range_succ, append_assoc]
    refine List.Perm.trans (List.Perm.append_left _ perm_append_comm) ?_
    rw [← append_assoc]
    exact h.once.append_right _

/-- The device completes a request. -/
theorem Protocol.complete (ho : Owned s) (h : Protocol s) {k i : ℕ}
    (hk : s.pending[k]? = some (i, n)) :
    Protocol { s with
      info := Function.update s.info i { s.info i with status := 0 }
      usedRing := Function.update s.usedRing (s.usedEnd.toNat % NUM) i
      usedEnd := s.usedEnd + 1#16
      pending := s.pending.eraseIdx k
      completed := s.completed ++ [n] } := by
  have hmem : (i, n) ∈ s.pending := mem_of_getElem? hk
  have hn : n ∈ s.pending.map (·.2) := mem_map_of_mem hmem
  have hlt := used_lt ho h hn
  have hkeep {m : ℕ} (hm : m ∈ s.seen) : m ∈ (s.completed ++ [n]).take s.processed := by
    rwa [take_append_of_le_length h.processed_le]
  have hunseen : (s.completed ++ [n]).drop s.processed = s.unseen ++ [n] :=
    drop_append_of_le_length h.processed_le
  have hhead : i = s.headOf n := h.pending (i, n) hmem
  have hstatus (j : ℕ) : (s.info j).status = 0 →
      (Function.update s.info i { s.info i with status := 0 } j).status = 0 := by
    intro hj
    rw [Function.update_apply]
    split_ifs
    · rfl
    · exact hj
  refine ⟨h.avail, ?_, ?_, ?_, ?_, h.taken_le, ?_, ?_, ?_, ?_, ?_, h.prepared, h.slot⟩
  · show (s.used.push NUM i).contents NUM = ((s.completed ++ [n]).drop s.processed).map s.headOf
    rw [Ring.contents_push (by decide) (by decide) hlt, h.used, hunseen, map_append, hhead]
    rfl
  · have hcount : (s.used.push NUM i).count = s.used.count + 1 := Ring.count_push (by
      have : NUM < 2 ^ 16 := by decide
      omega)
    show s.published.count ≤ (s.used.push NUM i).count
    have := h.published
    omega
  · exact fun x hx => h.pending x (mem_of_mem_eraseIdx hx)
  · show ((s.pending.eraseIdx k).map (·.2) ++ (s.completed ++ [n])).Perm (range s.taken)
    obtain ⟨hlt', hget⟩ := List.getElem?_eq_some_iff.mp hk
    have hperm := (List.getElem_cons_eraseIdx_perm hlt').map (·.2)
    rw [hget, List.map_cons] at hperm
    refine List.Perm.trans ?_ ((hperm.append_right s.completed).trans h.once)
    rw [← append_assoc]
    exact perm_append_singleton n _
  · show s.processed ≤ (s.completed ++ [n]).length
    rw [length_append]
    exact h.processed_le.trans (Nat.le_add_right _ _)
  · intro m hm
    have hm' : m ∈ s.unseen ++ [n] := hunseen ▸ hm
    rcases mem_append.mp hm' with hm' | hm'
    · exact hstatus _ (h.status m hm')
    · rw [mem_singleton.mp hm']
      show (Function.update s.info i _ (s.headOf n)).status = 0
      rw [← hhead, Function.update_self]
  · exact fun m hm hnot => h.active m hm fun hin => hnot (hkeep hin)
  · intro q a' c' m hq
    obtain ⟨hgiven, hin⟩ := h.waiting q a' c' m hq
    exact ⟨hgiven, fun hb => hkeep (hin hb)⟩
  · intro q a' c' m hq
    obtain ⟨hgiven, hin⟩ := h.finished q a' c' m hq
    exact ⟨hgiven, hkeep hin⟩

/-- The device counts entries of the used ring. -/
theorem Protocol.publish (h : Protocol s) {k : ℕ} (hk : k ≤ (s.usedEnd - s.usedIdx).toNat) :
    Protocol { s with usedIdx := s.usedIdx + BitVec.ofNat 16 k } := by
  refine ⟨h.avail, h.used, ?_, h.pending, h.once, h.taken_le, h.processed_le, h.status, h.active,
    h.waiting, h.finished, h.prepared, h.slot⟩
  have hpub : (s.usedIdx - s.used_idx).toNat ≤ (s.usedEnd - s.used_idx).toNat := h.published
  show (s.usedIdx + BitVec.ofNat 16 k - s.used_idx).toNat ≤ (s.usedEnd - s.used_idx).toNat
  bv_omega

/-! ## Every step -/

/-- The step is possible without a panic, and keeps the invariants. -/
def Good : Outcome State → Prop
  | .ok s => Owned s ∧ Protocol s
  | .blocked => True
  | .panic _ => False

theorem good_ite {P : Prop} [Decidable P] {t e : Outcome State} (ht : P → Good t)
    (he : ¬P → Good e) : Good (if P then t else e) := by
  split_ifs with hP
  · exact ht hP
  · exact he hP

/-- The protocol does not look at who has a buffer locked. -/
theorem Protocol.setOwner (h : Protocol s) (owner : ℕ → Option ℕ) :
    Protocol { s with owner := owner } :=
  h.congr rfl rfl (fun _ => rfl) (fun _ => rfl) (fun _ _ => id) (fun _ _ => id) fun _ _ => id

section

variable (ho : Owned s) (h : Protocol s)
include ho h

theorem good_acquire {pc₀ : Pc} (hp : s.pc p = pc₀) (hholds : pc.holds = true)
    (hcall : pc.call = pc₀.call) (hchain : pc.chain = pc₀.chain)
    (hready : pc.ready = pc₀.ready) (hwaits : pc.waitsFor = pc₀.waitsFor)
    (hquiet : pc.quiet) : Good (s.acquire p pc) := by
  refine good_ite (fun hlock => ?_) fun _ => trivial
  have hpc := pc_goto { s with lock := some p } p pc
  exact ⟨ho.move hpc hp (ho.lock_take hpc hlock.1 rfl hholds) hcall hchain hready rfl rfl
    fun _ _ _ _ _ => ⟨rfl, rfl, rfl⟩, h.move hpc hp hwaits hquiet rfl rfl fun _ => rfl⟩

theorem good_sleep (chan : Chan) {pc₀ : Pc} (hp : s.pc p = pc₀)
    (hholds : pc₀.holds = true) (hholds' : pc.holds = false)
    (hcall : pc.call = pc₀.call) (hchain : pc.chain = pc₀.chain)
    (hready : pc.ready = pc₀.ready) (hwaits : pc.waitsFor = pc₀.waitsFor)
    (hquiet : pc.quiet) : Good (.ok (s.sleep p chan pc)) := by
  have hpc := pc_sleep s p chan pc
  exact ⟨ho.move hpc hp (ho.lock_drop hpc (hp ▸ hholds) rfl hholds') hcall hchain hready rfl rfl
    fun _ _ _ _ _ => ⟨rfl, rfl, rfl⟩, h.move hpc hp hwaits hquiet rfl rfl fun _ => rfl⟩

/-- Only free descriptors, and what processes sleep on, have changed. -/
theorem good_tables {desc : ℕ → Desc} {free : ℕ → Bool} {process : ℕ → Process}
    (hfree : ∀ i, free i = true ↔ s.free i = true)
    (hdesc : ∀ i, s.free i = false → desc i = s.desc i) (hprocess : ∀ q, (process q).pc = s.pc q) :
    Owned (s.tables desc free process) ∧ Protocol (s.tables desc free process) := by
  have hpc : (s.tables desc free process).pc = s.pc := funext hprocess
  constructor
  · refine ho.congr (fun p => ?_) (fun p => by rw [hpc]) (fun p => by rw [hpc])
      (fun p => by rw [hpc]) rfl (funext fun i => Bool.eq_iff_iff.mpr (hfree i)) fun p c hp i hi => ?_
    · rw [hpc]
      exact ho.lock p
    · exact ⟨hdesc i (ho.not_free hp hi), rfl, rfl⟩
  · exact h.congr rfl rfl (fun _ => rfl) (fun p => by rw [hpc]) (fun p _ => by rw [hpc]; exact id)
      (fun p _ => by rw [hpc]; exact id) fun p _ => by rw [hpc]; exact id

theorem good_alloc (hp : s.pc p = .rwAlloc a) : Good (advance s p) := by
  rw [advance, show (s.process p).pc = _ from hp]
  rcases alloc3_desc_spec s with ⟨c, free, hok, hvalid, hfree, hfree'⟩ |
    ⟨desc, free, process, hok, hfree, hdesc, hprocess⟩
  · rw [hok]
    refine ⟨ho.alloc hp hvalid hfree hfree', ?_⟩
    have hpc := pc_goto (s.tables s.desc free s.process) p (.rwFormat a c)
    exact h.move (s := s) hpc hp rfl ⟨rfl, rfl, rfl⟩ rfl rfl fun _ => rfl
  · rw [hok]
    obtain ⟨ho', h'⟩ := good_tables ho h hfree hdesc hprocess
    have hp' : (s.tables desc free process).pc p = .rwAlloc a := (hprocess p).trans hp
    exact good_sleep ho' h' .free hp' rfl rfl rfl rfl rfl rfl ⟨rfl, rfl, rfl⟩

theorem good_intrLoop (hp : s.pc p = .intrLoop) : Good (intrLoop s p) := by
  refine good_ite (fun _ => ?_) fun hne => ?_
  · have hpc := pc_leave s p
    exact ⟨ho.move hpc hp (ho.lock_drop hpc (by rw [hp]; rfl) rfl rfl) rfl rfl rfl rfl rfl
      fun _ _ _ _ _ => ⟨rfl, rfl, rfl⟩, h.move hpc hp rfl ⟨rfl, rfl, rfl⟩ rfl rfl fun _ => rfl⟩
  · obtain ⟨n, r, rest, hun, hr, hid, hpop, hused⟩ := next_completion h hne
    have hstatus := h.status n (by rw [hun]; exact mem_cons_self)
    rw [hr.headOf_eq] at hstatus
    dsimp only
    rw [hid, hstatus, (hr.formatted ho).buf]
    refine ⟨?_, h.process ho hun hr hpop hne hused⟩
    exact ho.same (funext fun q => pc_wakeup _ _ q) rfl rfl rfl fun _ => ⟨rfl, rfl, rfl⟩

/-- A process frees its chain, and returns. -/
theorem good_free (hp : s.pc p = .rwFree a c n) :
    ∃ s', advance s p = .ok s' ∧ Owned s' ∧ Protocol s' ∧ s'.pc p = .user ∧
      ∀ i ∈ c.toList, s'.free i = true := by
  have hchain : (s.pc p).chain = some c := by rw [hp]; rfl
  have hform := ho.formatted p a c (by rw [hp]; rfl)
  set info := update s.info c.head { s.info c.head with b := none } with hinfo
  obtain ⟨desc, free, process, hok, hfree, hdesc, hprocess⟩ :=
    free_chain_spec { s with info := info } s.process hform.head hform.mid hform.last
      (ho.valid p c hchain) fun i hi => ho.not_free hchain hi
  have hother (i : ℕ) (hi : i ∉ c.toList) : info i = s.info i :=
    update_of_ne (fun heq => hi (by rw [heq]; simp [Chain.toList])) ..
  refine ⟨(State.tables { s with info := info } desc free process).leave p, ?_,
    ho.finish hp hfree hdesc hother hprocess, ?_, ?_, fun i hi => (hfree i).mpr (.inr hi)⟩
  · rw [advance, show (s.process p).pc = _ from hp]
    dsimp only
    rw [show free_chain { s with info := info } c.head = _ from hok]
  · have hpc (q : ℕ) : ((State.tables { s with info := info } desc free process).leave p).pc q =
        if q = p then .user else s.pc q := by
      rw [pc_leave, show s.pc q = _ from (hprocess q).symm]
      rfl
    refine h.move hpc hp rfl ⟨rfl, rfl, rfl⟩ rfl rfl fun i => ?_
    show (info i).status = (s.info i).status
    rw [hinfo, update_apply]
    split_ifs with hi
    · rw [hi]
    · rfl
  · rw [pc_leave, if_pos rfl]

theorem good_advance (p : ℕ) : Good (advance s p) := by
  rcases hp : s.pc p with _ | a | a | ⟨a, c⟩ | ⟨a, c⟩ | ⟨a, c⟩ | ⟨a, c, n⟩ | ⟨a, c, n⟩ |
    ⟨a, c, n⟩ | _ | _
  case rwAlloc => exact good_alloc ho h hp
  case rwFree =>
    obtain ⟨s', hok, ho', h', -⟩ := good_free ho h hp
    rw [hok]
    exact ⟨ho', h'⟩
  all_goals
    rw [advance, show (s.process p).pc = _ from hp]
  case user => trivial
  case rwAcquire =>
    exact good_acquire ho h hp rfl rfl rfl rfl rfl ⟨rfl, rfl, rfl⟩
  case rwFormat => exact ⟨ho.format hp, h.format ho hp⟩
  case rwRing =>
    refine ⟨?_, h.ring ho hp⟩
    have hpc := pc_goto { s with ring := update s.ring (s.idx.toNat % NUM) c.head } p
      (.rwIdx a c)
    exact ho.move hpc hp (ho.lock_keep hpc rfl (by rw [hp]; rfl)) rfl rfl rfl rfl rfl
      fun _ _ _ _ _ => ⟨rfl, rfl, rfl⟩
  case rwIdx =>
    refine ⟨?_, h.idx ho hp⟩
    have hpc := pc_goto { s with
      idx := s.idx + 1#16
      given := s.given ++ [(⟨p, a, c⟩ : Request)] } p (.rwWait a c s.given.length)
    exact ho.move hpc hp (ho.lock_keep hpc rfl (by rw [hp]; rfl)) rfl rfl rfl rfl rfl
      fun _ _ _ _ _ => ⟨rfl, rfl, rfl⟩
  case rwWait =>
    refine good_ite (fun _ => ?_) fun hdisk => ?_
    · exact good_sleep ho h _ hp rfl rfl rfl rfl rfl rfl ⟨rfl, rfl, rfl⟩
    · have hpc := pc_goto s p (.rwFree a c n)
      exact ⟨ho.move hpc hp (ho.lock_keep hpc rfl (by rw [hp]; rfl)) rfl rfl rfl rfl rfl
        fun _ _ _ _ _ => ⟨rfl, rfl, rfl⟩,
        h.done hp (by simpa using hdisk)⟩
  case rwSleep =>
    exact good_acquire ho h hp rfl rfl rfl rfl rfl ⟨rfl, rfl, rfl⟩
  case intrAcquire =>
    exact good_acquire ho h hp rfl rfl rfl rfl rfl ⟨rfl, rfl, rfl⟩
  case intrLoop => exact good_intrLoop ho h hp

theorem good_complete (k : ℕ) : Good (complete s k) := by
  rw [complete]
  rcases hk : s.pending[k]? with _ | ⟨i, n⟩
  · trivial
  · have hmem : (i, n) ∈ s.pending := mem_of_getElem? hk
    obtain ⟨r, hr⟩ := h.pending_active (mem_map_of_mem hmem)
    have hi : i = r.idx.head := (h.pending (i, n) hmem).trans hr.headOf_eq
    have hform := hr.formatted ho
    have hkeep := h.complete ho hk
    subst hi
    dsimp only
    rw [hform.head, hform.mid, hform.last, if_neg]
    · refine ⟨ho.same rfl rfl rfl rfl fun j => ⟨rfl, rfl, ?_⟩, hkeep⟩
      dsimp only
      rw [update_apply]
      split_ifs with hj
      · rw [hj]
      · rfl
    · simp only [not_or]
      exact ⟨next_head, next_mid r.a.write, not_not.mpr next_last⟩

/-- **Every step** is without a panic, and keeps the invariants. -/
theorem good_step (e : Event) : Good (step s e) := by
  cases e with
  | acquiresleep p b =>
    exact good_ite (fun hb => ⟨ho.acquiresleep hb.1, h.setOwner _⟩) fun _ => trivial
  | releasesleep p b =>
    exact good_ite (fun hb => ⟨ho.releasesleep hb.1 hb.2, h.setOwner _⟩) fun _ => trivial
  | rw p b blockno write =>
    refine good_ite (fun hb => ⟨ho.rw hb.1 hb.2, ?_⟩) fun _ => trivial
    have hp : s.pc p = .user := hb.2
    exact h.move (pc_goto s p _) hp rfl ⟨rfl, rfl, rfl⟩ rfl rfl fun _ => rfl
  | intr p =>
    refine good_ite (fun hp => ?_) fun _ => trivial
    replace hp : s.pc p = .user := hp
    have hpc := pc_goto s p .intrAcquire
    exact ⟨ho.move hpc hp (ho.lock_keep hpc rfl (by rw [hp]; rfl)) rfl rfl rfl rfl rfl
      fun _ _ _ _ _ => ⟨rfl, rfl, rfl⟩, h.move hpc hp rfl ⟨rfl, rfl, rfl⟩ rfl rfl fun _ => rfl⟩
  | advance p => exact good_advance ho h p
  | kill p =>
    have hpc : State.pc { s with
        process := update s.process p { s.process p with chan := none } } = s.pc := by
      funext q
      by_cases hq : q = p
      · subst hq
        simp [State.pc]
      · simp [State.pc, hq]
    exact ⟨ho.same hpc rfl rfl rfl fun _ => ⟨rfl, rfl, rfl⟩,
      h.congr rfl rfl (fun _ => rfl) (fun q => by rw [hpc]) (fun q _ => by rw [hpc]; exact id)
        (fun q _ => by rw [hpc]; exact id) fun q _ => by rw [hpc]; exact id⟩
  | take =>
    exact good_ite (fun _ => trivial) fun hne =>
      ⟨ho.same rfl rfl rfl rfl fun _ => ⟨rfl, rfl, rfl⟩, h.take hne⟩
  | complete k => exact good_complete ho h k
  | publish n =>
    refine good_ite (fun hn => ?_) fun _ => trivial
    exact ⟨ho.same rfl rfl rfl rfl fun _ => ⟨rfl, rfl, rfl⟩, h.publish hn⟩

end

theorem inv_run {disk : ℕ → Bool} (h : Run step (fun _ _ => True) (init disk) s) :
    Owned s ∧ Protocol s := by
  refine h.invariant (I := fun s => Owned s ∧ Protocol s) ⟨owned_init disk, protocol_init disk⟩ ?_
  rintro s e s' ⟨ho, hp⟩ - hs
  have := good_step ho hp e
  rwa [hs] at this

/-! ## The protocol -/

/-- The number of the request that a process in `virtio_disk_rw` has made. -/
def Pc.request : Pc → Option ℕ
  | .rwWait _ _ n | .rwSleep _ _ n | .rwFree _ _ n => some n
  | _ => none

/-- Returning is the last step. -/
theorem returns_from (ho : Owned s) (h : Protocol s) (hn : (s.pc p).request = some n)
    (hs : advance s p = .ok s') (hp' : s'.pc p = .user) :
    ∃ a c, s.given[n]? = some ⟨p, a, c⟩ ∧ n ∈ s.seen ∧ ∀ i ∈ c.toList, s'.free i = true := by
  rcases hp : s.pc p with _ | a | a | ⟨a, c⟩ | ⟨a, c⟩ | ⟨a, c⟩ | ⟨a, c, m⟩ | ⟨a, c, m⟩ |
    ⟨a, c, m⟩ | _ | _
  case rwFree =>
    rw [hp] at hn
    obtain rfl := Option.some.inj hn
    obtain ⟨hgiven, hseen⟩ := h.finished p a c m (by rw [hp]; rfl)
    obtain ⟨s'', hok, -, -, -, hfree⟩ := good_free ho h hp
    rw [hs] at hok
    obtain rfl := Outcome.ok.inj hok
    exact ⟨a, c, hgiven, hseen, hfree⟩
  case rwWait =>
    rw [advance, show (s.process p).pc = _ from hp] at hs
    dsimp only at hs
    split_ifs at hs <;> obtain rfl := Outcome.ok.inj hs <;> simp at hp'
  case rwSleep =>
    rw [advance, show (s.process p).pc = _ from hp] at hs
    dsimp only [State.acquire] at hs
    split_ifs at hs
    obtain rfl := Outcome.ok.inj hs
    simp at hp'
  all_goals
    rw [hp] at hn
    cases hn

/-- **The request protocol.** In every state that any number of processes, interrupts and the
device can bring about:

* the chains of requests are disjoint, and `free` marks the descriptors of none;
* the slot of the available ring that is written next is not one the device has still to take;
* no step panics;
* when a completion is processed, it is of a request that is waited for, with its buffer in `info`;
* `virtio_disk_rw` returns when the completion of its own request has been processed, with the
  descriptors of its chain free. -/
theorem virtio_protocol {disk : ℕ → Bool} (h : Run step (fun _ _ => True) (init disk) s) :
    (∀ p q c c', p ≠ q → (s.pc p).chain = some c → (s.pc q).chain = some c' →
      c.toList.Disjoint c'.toList) ∧
    (∀ i < NUM, s.free i = true ↔ ∀ p c, (s.pc p).chain = some c → i ∉ c.toList) ∧
    (∀ p a c, s.pc p = .rwRing a c → ∀ j < (s.idx - s.lastAvail).toNat,
      (s.lastAvail.toNat + j) % NUM ≠ s.idx.toNat % NUM) ∧
    (∀ e msg, step s e ≠ .panic msg) ∧
    (∀ p, s.pc p = .intrLoop → s.used_idx ≠ s.usedIdx → ∃ n r, s.completed[s.processed]? = some n ∧
      s.given[n]? = some r ∧ (s.pc r.p).request = some n ∧
      s.usedRing (s.used_idx.toNat % NUM) = r.idx.head ∧ (s.info r.idx.head).b = some r.a.b) ∧
    ∀ p n s', (s.pc p).request = some n → step s (.advance p) = .ok s' → s'.pc p = .user →
      ∃ a c, s.given[n]? = some ⟨p, a, c⟩ ∧ n ∈ s.completed.take s.processed ∧
        ∀ i ∈ c.toList, s'.free i = true := by
  obtain ⟨ho, hp⟩ := inv_run h
  refine ⟨ho.disjoint, ho.free, fun p a c hpc j hj => ?_, fun e msg hs => ?_, fun p hpc hne => ?_,
    fun p n s' hn hs hp' => returns_from ho hp hn hs hp'⟩
  · have hlt := avail_lt ho hp (p := p) (c := c) (by rw [hpc]; rfl) (by rw [hpc]; rfl)
    have hcell := Ring.wr_cell (r := s.avail) (N := NUM) (by decide)
    rw [show s.idx = s.avail.wr from rfl, hcell]
    exact Ring.index_ne hj hlt
  · have := good_step ho hp e
    rw [hs] at this
    exact this
  · obtain ⟨n, r, rest, hun, hr, hid, -⟩ := next_completion hp hne
    refine ⟨n, r, ?_, hr.1, ?_, hid, (hr.formatted ho).buf⟩
    · have := congrArg head? hun
      rwa [State.unseen, head?_drop] at this
    · have hwaits := hr.2.1
      cases hpc' : s.pc r.p <;> rw [hpc'] at hwaits <;> simp_all [Pc.waitsFor, Pc.request]

/-- A process reads a block: up to where it has found that the request is done. -/
def readBlock : List Event :=
  [.acquiresleep 0 5, .rw 0 5 3#32 false, .advance 0, .advance 0, .advance 0, .advance 0, .advance 0,
    .advance 0, .take, .complete 0, .publish 1, .intr 1, .advance 1, .advance 1, .advance 1,
    .advance 0, .advance 0]

/-- The state after that. -/
def blockRead : State := (runList step (init fun _ => false) readBlock).getD (init fun _ => false)

/-- It returns then, and its completion has been processed. -/
theorem virtio_protocol_read :
    Run step (fun _ _ => True) (init fun _ => false) blockRead ∧
    (blockRead.pc 0).request = some 0 ∧ 0 ∈ blockRead.completed.take blockRead.processed ∧
    ∀ e msg, step blockRead e ≠ .panic msg := by
  have hrun : Run step (fun _ _ => True) (init fun _ => false) blockRead :=
    .of_checkList (c := fun _ _ => true) (fun _ _ _ => trivial) (by decide +kernel) _
  obtain ⟨-, -, -, hpanic, -, hreturn⟩ := virtio_protocol hrun
  have hreq : (blockRead.pc 0).request = some 0 := by decide +kernel
  have hret : ((step blockRead (.advance 0)).getD blockRead).pc 0 = .user := by decide +kernel
  refine ⟨hrun, hreq, ?_, hpanic⟩
  rcases hs : step blockRead (.advance 0) with s' | _ | msg
  · rw [hs] at hret
    obtain ⟨a, c, -, hseen, -⟩ := hreturn 0 0 s' hreq hs hret
    exact hseen
  · rw [hs] at hret
    exact absurd hret (by decide +kernel)
  · exact absurd hs (hpanic _ _)

end Xv6.Virtio
