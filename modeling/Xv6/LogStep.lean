import Xv6.LogInv

/-!
# Every step keeps the log invariant

First the processes, then the log thread, statement by statement. The three
steps of a `bread` of the log thread are treated once (`LogInv.bread`), with
the control points inside and after it as parameters.
-/

namespace Xv6

open List

variable {start : ℕ} {d₀ : ℕ → Bytes} {s s' : Sys}

/-! ## Small facts -/

theorem Settled.committed_eq (h : Settled s) : s.committed d₀ = s.now d₀ := by
  rw [Sys.committed, Sys.now, ← h.1, take_length, h.2, append_nil]

theorem Home.ne_start {b : ℕ} (h : Home start b) : b ≠ start := fun hb =>
  h.2 ⟨hb ▸ le_refl _, by omega⟩

theorem Home.ne_slot {b j : ℕ} (h : Home start b) (hj : j < LOGBLOCKS) : b ≠ start + j + 1 :=
  fun hb => h.2 ⟨by omega, by omega⟩

theorem HeaderOk.getD_mem {lh : List ℕ} {j : ℕ} (hj : j < lh.length) : lh.getD j 0 ∈ lh := by
  rw [getD_eq_getElem _ _ hj]
  exact getElem_mem hj

theorem recovered_of_nil {disk : ℕ → Bytes} (h : header start disk = []) (b : ℕ) :
    recovered start disk b = disk b := by
  rw [recovered, h, replay_nil]

namespace LogInv

/-- With an empty header on disk, the disk is the committed state. -/
theorem disk_committed (h : LogInv start d₀ s) (hh : header start s.disk = []) {b : ℕ}
    (hb : Home start b) : s.disk b = s.committed d₀ b := by
  rw [← h.replay b hb, recovered_of_nil hh]

/-- A block that has to be read from disk is there as it should be: were it
pinned, it would be cached and valid. -/
theorem disk_content (h : LogInv start d₀ s) {i : BufId} (hd : (s.cache.buf i).dev = ROOTDEV)
    (hv : (s.cache.buf i).valid = false) :
    s.disk (s.cache.buf i).blockno = s.content start d₀ (s.cache.buf i).blockno := by
  unfold Sys.content
  split
  · rename_i hc
    refine h.clean hc.1 _ hc.2 fun hp => ?_
    obtain ⟨j, hj, hjv⟩ := h.cache.pinned _ hp
    obtain rfl := h.cache.uniq j i _ hj ⟨hd, rfl⟩
    rw [hv] at hjv
    cases hjv
  · rfl

/-- A buffer somebody refers to is not recycled. -/
theorem bget_frame (h : LogInv start d₀ s) {b : ℕ} {i j : BufId} {c : Bcache} {st : Stage}
    (hb : s.cache.bget ROOTDEV b = some (i, c)) (hj : (j, st) ∈ s.refs) :
    (c.buf j).blockno = (s.cache.buf j).blockno := by
  obtain ⟨-, rfl⟩ | ⟨-, h0, rfl⟩ := Bcache.bget_cases hb
  · by_cases hji : j = i
    · subst hji
      simp
    · simp [hji]
  · have hji : j ≠ i := by
      rintro rfl
      have := h.cache.refcnt j
      have := nref_pos hj
      omega
    simp [hji]

theorem bget_data {c c' : Bcache} {b : ℕ} {i : BufId} (hb : c.bget ROOTDEV b = some (i, c'))
    (j : BufId) : (c'.buf j).data = (c.buf j).data := by
  obtain ⟨-, rfl⟩ | ⟨-, -, rfl⟩ := Bcache.bget_cases hb <;>
  · by_cases hji : j = i
    · subst hji
      simp
    · simp [hji]

theorem fetch_blockno (disk : ℕ → Bytes) (c : Bcache) (i j : BufId) :
    ((fetch disk c i).buf j).blockno = (c.buf j).blockno := by
  unfold fetch
  split
  · rfl
  · by_cases hji : j = i
    · subst hji
      simp
    · simp [hji]

theorem fetch_data (disk : ℕ → Bytes) {c : Bcache} (i : BufId) {j : BufId}
    (hv : (c.buf j).valid = true) : ((fetch disk c i).buf j).data = (c.buf j).data := by
  unfold fetch
  split
  · rfl
  · rename_i hi
    have hji : j ≠ i := by
      rintro rfl
      exact hi hv
    simp [hji]

theorem set_blockno (c : Bcache) (i : BufId) (nb : Buf) (hn : nb.blockno = (c.buf i).blockno)
    (j : BufId) : ((c.set i nb).buf j).blockno = (c.buf j).blockno := by
  by_cases hji : j = i
  · subst hji
    simp [hn]
  · simp [hji]

theorem brelse_blockno (c : Bcache) (i j : BufId) :
    ((c.brelse i).buf j).blockno = (c.buf j).blockno := by
  by_cases hji : j = i
  · subst hji
    simp
  · simp [hji]

theorem brelse_data (c : Bcache) (i j : BufId) :
    ((c.brelse i).buf j).data = (c.buf j).data := by
  by_cases hji : j = i
  · subst hji
    simp
  · simp [hji]

theorem breadPc_regs_refs {q : BreadPc} {b : ℕ} {r : BufId × ℕ} (hr : r ∈ q.regs b) :
    r.1 ∈ q.refs.map Prod.fst := by
  cases q <;> simp_all [BreadPc.regs, BreadPc.refs]

/-- The log thread's buffers are among the references. -/
theorem regs_refs {pc : Pc} {lh : List ℕ} {r : BufId × ℕ} (hr : r ∈ pc.regs start lh) :
    ∃ st, (r.1, st) ∈ pc.refs := by
  have hmem : r.1 ∈ pc.refs.map Prod.fst := by
    unfold Pc.regs at hr
    split at hr <;> simp only [Pc.refs, map_append, mem_append, map_cons,
      map_nil, mem_cons, not_mem_nil, or_false] at hr ⊢
    all_goals first
      | exact breadPc_regs_refs hr
      | rcases hr with rfl | hr
        · simp
        · first
          | exact .inl (breadPc_regs_refs hr)
          | (subst hr; simp)
      | (subst hr; simp)
  obtain ⟨⟨i, st⟩, hi, hir⟩ := mem_map.mp hmem
  exact ⟨st, hir ▸ hi⟩

/-- `PcData` speaks of a buffer the log thread holds dirty, hence valid. -/
theorem pcData_congr (h : LogInv start d₀ s) {c : Bcache} {hs : List Handle}
    (hdata : ∀ j, (s.cache.buf j).valid = true → (c.buf j).data = (s.cache.buf j).data) :
    PcData start d₀ { s with cache := c, handles := hs } := by
  have hv : ∀ j, (j, Stage.dirty) ∈ s.pc.refs → (c.buf j).data = (s.cache.buf j).data :=
    fun j hj => hdata j (h.cache.valid (j, .dirty) (mem_append_left _ hj) (.inr rfl))
  have hp := h.pcData
  unfold PcData at hp ⊢
  split <;> rename_i hpc
  · rw [hpc] at hp hv
    rw [hv _ (by simp [Pc.refs])]
    exact hp
  · rw [hpc] at hp hv
    rw [hv _ (by simp [Pc.refs])]
    exact hp
  · rw [hpc] at hp hv
    rw [hv _ (by simp [Pc.refs])]
    exact hp
  · trivial

/-! ## The processes -/

/-- A step of a process that only changes the cache and the processes' `bread`s. -/
theorem client (h : LogInv start d₀ s) {c : Bcache} {hs : List Handle} {refs' : List Ref}
    (hboot : s.booting = false) (hperm : refs'.Perm ({ s with cache := c, handles := hs }).refs)
    (hcache : CacheInv c refs' s.pins) (hdata : DataInv c refs' (s.content start d₀))
    (hblk : ∀ j st, (j, st) ∈ s.refs → (c.buf j).blockno = (s.cache.buf j).blockno)
    (hhome : ∀ h ∈ hs, Home start (c.buf h.buf).blockno)
    (hpd : PcData start d₀ { s with cache := c, handles := hs }) :
    LogInv start d₀ { s with cache := c, handles := hs } :=
  { h with
    cache := hcache.perm hperm
    data := hdata.perm hperm
    regs := fun r hr => by
      obtain ⟨st, hst⟩ := regs_refs hr
      exact (hblk r.1 st (mem_append_left _ hst)).trans (h.regs r hr)
    hhome := hhome
    pcData := hpd
    atBoot := fun hb => absurd hb (by simp [hboot]) }

theorem booting_of_handle (h : LogInv start d₀ s) {hd : Handle} (hm : hd ∈ s.handles) :
    s.booting = false := by
  rcases hb : s.booting with _ | _
  · rfl
  · rw [(h.atBoot hb).1] at hm
    cases hm

/-- Bring the reference of one handle to the front. -/
theorem refs_perm {hd : Handle} (hm : hd ∈ s.handles) :
    s.refs.Perm ((hd.buf, hd.stage) ::
      (s.pc.refs ++ (s.handles.erase hd).map fun h => (h.buf, h.stage))) := by
  have hp := (perm_cons_erase hm).map fun h : Handle => (h.buf, h.stage)
  exact (hp.append_left s.pc.refs).trans perm_middle

theorem handle_mem_refs {hd : Handle} (hm : hd ∈ s.handles) : (hd.buf, hd.stage) ∈ s.refs :=
  mem_append_right _ (mem_map_of_mem hm)

section

variable (h : LogInv start d₀ s)
include h

theorem hhome_erase {hd hd' : Handle} {c : Bcache} (hm : hd ∈ s.handles) (hbuf : hd'.buf = hd.buf)
    (hblk : ∀ j st, (j, st) ∈ s.refs → (c.buf j).blockno = (s.cache.buf j).blockno) :
    ∀ x ∈ hd' :: s.handles.erase hd, Home start (c.buf x.buf).blockno := by
  intro x hx
  rcases mem_cons.mp hx with rfl | hx
  · rw [hbuf, hblk _ _ (handle_mem_refs hm)]
    exact h.hhome hd hm
  · have hx' := mem_of_mem_erase hx
    rw [hblk _ _ (handle_mem_refs hx')]
    exact h.hhome x hx'

theorem procBget {p b : ℕ} (hs : s.procBget start p b = .ok s') : LogInv start d₀ s' := by
  unfold Sys.procBget at hs
  split_ifs at hs with hok
  simp only [not_or, not_not, Bool.not_eq_true] at hok
  split at hs
  · cases hs
  rename_i i c hb
  cases hs
  obtain ⟨hcache, hc⟩ := h.cache.bget hb
  refine h.client hok.1 perm_middle.symm hcache (h.data.bget hb)
    (fun j st hj => h.bget_frame hb hj) ?_ (h.pcData_congr fun j _ => bget_data hb j)
  intro x hx
  rcases mem_cons.mp hx with rfl | hx
  · rw [hc.2]
    exact hok.2
  · rw [h.bget_frame hb (handle_mem_refs hx)]
    exact h.hhome x hx

theorem procAcquire {hd : Handle} (hs : s.procAcquire hd = .ok s') : LogInv start d₀ s' := by
  unfold Sys.procAcquire at hs
  split_ifs at hs with hok
  obtain ⟨hm, hst, hl⟩ := hok
  cases hs
  have hp := refs_perm hm
  rw [hst] at hp
  have hblk := set_blockno s.cache hd.buf { s.cache.buf hd.buf with locked := true } rfl
  refine h.client (h.booting_of_handle hm) perm_middle.symm ((h.cache.perm hp).lock hl)
    ((h.data.perm hp).set_same rfl rfl rfl rfl ?_) (fun j _ _ => hblk j)
    (h.hhome_erase hm rfl fun j _ _ => hblk j) (h.pcData_congr fun j _ => ?_)
  · intro j hj
    simpa using hj
  · by_cases hj : j = hd.buf
    · subst hj
      simp
    · simp [hj]

theorem procRead {hd : Handle} (hs : s.procRead hd = .ok s') : LogInv start d₀ s' := by
  unfold Sys.procRead at hs
  split_ifs at hs with hok
  obtain ⟨hm, hst⟩ := hok
  cases hs
  have hp := refs_perm hm
  rw [hst] at hp
  have hd' := h.cache.dev _ (handle_mem_refs hm)
  exact h.client (h.booting_of_handle hm) perm_middle.symm
    ((h.cache.perm hp).fetch s.disk) ((h.data.perm hp).fetch fun hv => h.disk_content hd' hv)
    (fun j _ _ => fetch_blockno ..) (h.hhome_erase hm rfl fun j _ _ => fetch_blockno ..)
    (h.pcData_congr fun j hv => fetch_data _ _ hv)

theorem pc_off_of_op {p : ℕ} (ho : (s.opOf p).isSome) : s.pc = .off := by
  refine h.opsOff fun hnil => ?_
  simp [Sys.opOf, hnil] at ho

theorem procModify {hd : Handle} {d : Bytes} (hs : s.procModify hd d = .ok s') :
    LogInv start d₀ s' := by
  unfold Sys.procModify at hs
  split_ifs at hs with hok
  obtain ⟨hm, hst, ho⟩ := hok
  cases hs
  have hp := refs_perm hm
  have hoff := h.pc_off_of_op ho
  have hblk := set_blockno s.cache hd.buf { s.cache.buf hd.buf with data := d } rfl
  exact h.client (h.booting_of_handle hm) perm_middle.symm
    ((h.cache.perm hp).setData hst (.inr rfl) d) ((h.data.perm hp).setData d)
    (fun j _ _ => hblk j) (h.hhome_erase hm rfl fun j _ _ => hblk j) (by simp [PcData, hoff])

theorem procBrelse {hd : Handle} (hs : s.procBrelse hd = .ok s') : LogInv start d₀ s' := by
  unfold Sys.procBrelse at hs
  split_ifs at hs with hok
  obtain ⟨hm, hst⟩ := hok
  cases hs
  have hp := refs_perm hm
  rw [hst] at hp
  refine h.client (h.booting_of_handle hm) (.refl _) ((h.cache.perm hp).brelse (by decide))
    ((h.data.perm hp).brelse (by decide)) (fun j _ _ => brelse_blockno ..) ?_
    (h.pcData_congr fun j _ => brelse_data ..)
  intro x hx
  rw [brelse_blockno]
  exact h.hhome x (mem_of_mem_erase hx)

end

theorem opOf_mem {p : ℕ} {o : Op} (ho : s.opOf p = some o) : o ∈ s.ops :=
  mem_of_find?_eq_some ho

theorem pins_off (hoff : s.pc = .off) (hb : s.booting = false) : s.pins = s.lh := by
  simp [Sys.pins, hoff, hb, Pc.unpinned]

theorem beginOp {p : ℕ} (h : LogInv start d₀ s) (hs : s.beginOp p = .ok s') :
    LogInv start d₀ s' := by
  unfold Sys.beginOp at hs
  split_ifs at hs with hok hc
  simp only [not_or, Bool.not_eq_true] at hok
  cases hs
  have hoff : s.pc = .off := by
    by_contra hne
    exact hc ((h.committing hok.1).mpr hne)
  exact { h with
    out := by simp [h.out]
    opsOff := fun _ => hoff
    atBoot := fun hb => absurd hb (by simp [hok.1]) }

/-- Recording an update changes what the block stands for now. -/
theorem now_append (us : List Upd) (u : Upd) (d : ℕ → Bytes) :
    applyUpds d (us ++ [u]) = Function.update (applyUpds d us) u.blockno u.data := by
  simp [applyUpds]

theorem logWrite {hd : Handle} (h : LogInv start d₀ s) (hs : s.logWrite hd = .ok s') :
    LogInv start d₀ s' := by
  unfold Sys.logWrite at hs
  split_ifs at hs with hok
  obtain ⟨hm, hst⟩ := hok
  split at hs
  · cases hs
  rename_i o ho
  cases hs
  have hoff := h.pc_off_of_op (p := hd.pid) (by simp [ho])
  have hbt := h.booting_of_handle hm
  have hpins := pins_off hoff hbt
  have hhome := h.hhome hd hm
  have hdev := h.cache.dev _ (handle_mem_refs hm)
  have hval := h.cache.valid _ (handle_mem_refs hm) hst
  have hnow : ∀ u : Upd, applyUpds d₀ (s.sealed.flatten ++ (s.cur ++ [u])) =
      Function.update (s.now d₀) u.blockno u.data := fun u => by
    rw [← append_assoc, now_append, Sys.now]
  generalize hbno : (s.cache.buf hd.buf).blockno = b at *
  have hp := refs_perm hm
  have huniq : ∀ j, Caches s.cache j (s.cache.buf hd.buf).blockno → j = hd.buf := fun j hj =>
    h.cache.uniq j hd.buf _ hj ⟨hdev, rfl⟩
  -- the block stands for the buffer's contents from now on
  have hdata : DataInv s.cache ((hd.buf, .ready) :: _) (Sys.content start d₀
      { s with cur := s.cur ++ [⟨o.id, b, (s.cache.buf hd.buf).data⟩] }) :=
    (h.data.perm hp).undirty huniq (by simp [Sys.content, hbt, hbno, hhome, Sys.now, hnow])
    (fun x hx => by
      rw [hbno] at hx
      simp [Sys.content, Sys.now, hnow, hx])
  have hcache : CacheInv s.cache ((hd.buf, .ready) :: _) s.pins :=
    (h.cache.perm hp).undirty hst (.inl rfl)
  have hmem : ∀ x, x ∈ (if b ∈ s.lh then s.lh else s.lh ++ [b]) ↔ x ∈ s.lh ∨ x = b := by
    intro x
    split
    · rename_i hb
      exact ⟨.inl, fun hx => hx.elim id fun hx => hx ▸ hb⟩
    · simp
  have hblk : ∀ j, ((if b ∈ s.lh then s.cache else s.cache.bpin hd.buf).buf j).blockno =
      (s.cache.buf j).blockno := by
    intro j
    split
    · rfl
    · exact set_blockno s.cache hd.buf { s.cache.buf hd.buf with
        refcnt := (s.cache.buf hd.buf).refcnt + 1 } rfl j
  refine
    { h with
      cache := ?_
      data := ?_
      regs := fun r hr => absurd hr (by simp [hoff, Pc.regs])
      hhome := h.hhome_erase hm rfl fun j _ _ => hblk j
      lhOk := ⟨?_, ?_, ?_⟩
      curLh := ?_
      clean := ?_
      phase := by simpa only [Phase, hoff] using h.phase
      pcData := by simp [PcData, hoff]
      out := ?_
      opsOff := fun _ => hoff
      atBoot := fun hb => absurd hb (by simp [hbt]) }
  · refine (show CacheInv _ _ (if b ∈ s.lh then s.lh else s.lh ++ [b]) from ?_).perm
      perm_middle.symm |> fun hc => hc.pins_congr fun x => ?_
    · rw [hpins] at hcache
      split
      · exact hcache
      · rename_i hb
        exact hcache.bpin ⟨hdev, hbno⟩ hval hb fun x => by simp
    · simp [Sys.pins, hbt, hoff, Pc.unpinned]
  · refine DataInv.perm ?_ perm_middle.symm
    split
    · exact hdata
    · exact hdata.set_same rfl rfl rfl rfl fun j hj => hj
  · dsimp only
    split
    · exact h.lhOk.nodup
    · rename_i hb
      exact h.lhOk.nodup.append (nodup_singleton b) (by simpa using hb)
  · intro x hx
    rcases (hmem x).mp hx with hx | rfl
    · exact h.lhOk.home x hx
    · exact hhome
  · have := h.lhOk.len
    split
    · exact this
    · simp
      omega
  · intro u hu
    rcases mem_append.mp hu with hu | hu
    · exact (hmem _).mpr (.inl (h.curLh u hu))
    · rw [mem_singleton.mp hu]
      exact (hmem _).mpr (.inr rfl)
  · intro _ x hx hxp
    have hxp' : ¬(x ∈ s.lh ∨ x = b) := by
      rw [← hmem]
      simpa [Sys.pins, hbt, hoff, Pc.unpinned] using hxp
    rw [not_or] at hxp'
    simp only [Sys.now, hnow]
    rw [Function.update_of_ne hxp'.2]
    exact h.clean hbt x hx (hpins ▸ hxp'.1)
  · have := length_erase_of_mem (opOf_mem ho)
    have := length_pos_of_mem (opOf_mem ho)
    simp [h.out]
    omega

theorem endOp {p : ℕ} (h : LogInv start d₀ s) (hs : s.endOp p = .ok s') :
    LogInv start d₀ s' := by
  unfold Sys.endOp at hs
  split at hs
  · cases hs
  rename_i o ho
  have hoff := h.pc_off_of_op (p := p) (by simp [ho])
  have hlen := length_erase_of_mem (opOf_mem ho)
  have hout := h.out
  have hph := h.phase
  simp only [Phase, hoff] at hph
  split_ifs at hs with _ _ h1
  · cases hs
    have hnil : s.ops.erase o = [] := by
      apply eq_nil_of_length_eq_zero
      omega
    refine
      { h with
        cache := ?_
        data := ?_
        regs := fun r hr => absurd hr (by simp [Pc.regs])
        clean := ?_
        phase := hph
        pcData := trivial
        out := ?_
        opsOff := fun hne => absurd hnil hne
        committing := fun _ => by simp
        atBoot := fun hb => absurd hb (by simp [hph.1]) }
    · simpa [Sys.refs, Sys.pins, hoff, Pc.refs, Pc.unpinned] using h.cache
    · exact h.data.perm (by simp [Sys.refs, hoff, Pc.refs])
    · intro hb x hx hxp
      refine h.clean hb x hx fun hp => hxp ?_
      simpa [Sys.pins, hoff, Pc.unpinned] using hp
    · simp only
      omega
  · cases hs
    exact { h with
      out := by simp only; omega
      opsOff := fun _ => hoff
      atBoot := fun hb => absurd hb (by simp [hph.1]) }

end LogInv

end Xv6
