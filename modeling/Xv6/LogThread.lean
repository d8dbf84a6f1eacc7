import Xv6.LogStep

/-!
# The log thread keeps the log invariant

`commit()` and `recover_from_log()`, statement by statement. Most statements
touch the cache and the control point only (`LogInv.thread`); the three steps
of a `bread` are treated once, with the control points inside and after it as
parameters (`LogInv.bread`). What is left are the three disk writes, where the
lemmas about redo logs apply, and the statements that change `log.lh`.
-/

namespace Xv6

open Function List

variable {start : ℕ} {d₀ : ℕ → Bytes} {s s' : Sys}

namespace LogInv

/-! ## Steps that stay in memory -/

/-- A step of the log thread that changes the cache and the control point only. -/
theorem thread (h : LogInv start d₀ s) {c : Bcache} {pc : Pc} {refs' : List Ref}
    (hon : s.pc ≠ .off) (hon' : pc ≠ .off)
    (hperm : refs'.Perm ({ s with cache := c, pc := pc }).refs)
    (hcache : CacheInv c refs' s.pins) (hdata : DataInv c refs' (s.content start d₀))
    (hregs : ∀ r ∈ pc.regs start s.lh, (c.buf r.1).blockno = r.2)
    (hblk : ∀ j st, (j, st) ∈ s.refs → (c.buf j).blockno = (s.cache.buf j).blockno)
    (hpins : pc.unpinned = s.pc.unpinned)
    (hphase : Phase start d₀ { s with cache := c, pc := pc })
    (hpd : PcData start d₀ { s with cache := c, pc := pc }) :
    LogInv start d₀ { s with cache := c, pc := pc } := by
  have hpins' : ({ s with cache := c, pc := pc } : Sys).pins = s.pins := by
    simp only [Sys.pins, hpins]
  exact { h with
    cache := hpins' ▸ hcache.perm hperm
    data := hdata.perm hperm
    regs := hregs
    hhome := fun x hx => by
      rw [hblk _ _ (handle_mem_refs hx)]
      exact h.hhome x hx
    clean := hpins' ▸ h.clean
    phase := hphase
    pcData := hpd
    opsOff := fun hne => absurd (h.opsOff hne) hon
    committing := fun hb => (h.committing hb).trans (by simp [hon, hon']) }

/-- The log thread moves on without touching anything. -/
theorem goto (h : LogInv start d₀ s) {pc : Pc} (hon : s.pc ≠ .off) (hon' : pc ≠ .off)
    (hrefs : pc.refs = s.pc.refs) (hregs : pc.regs start s.lh = [])
    (hpins : pc.unpinned = s.pc.unpinned) (hphase : Phase start d₀ { s with pc := pc })
    (hpd : PcData start d₀ { s with pc := pc }) : LogInv start d₀ { s with pc := pc } :=
  h.thread hon hon' (by simp [Sys.refs, hrefs]) h.cache h.data
    (fun r hr => absurd hr (by simp [hregs])) (fun _ _ _ => rfl) hpins hphase hpd

/-- **A `bread` of the log thread**, at any of its three steps. -/
theorem bread (h : LogInv start d₀ s) {blockno : ℕ} {q : BreadPc} {k : BreadPc → Pc}
    {ret : BufId → Pc} (hs : s.breadStep blockno q k ret = .ok s') (rest : List Ref)
    (rr : List (BufId × ℕ)) (hpc : s.pc = k q)
    (hk : ∀ q, (k q).refs = q.refs ++ rest) (hret : ∀ b, (ret b).refs = (b, .ready) :: rest)
    (hkr : ∀ q, (k q).regs start s.lh = rr ++ q.regs blockno)
    (hretr : ∀ b, (ret b).regs start s.lh = rr ++ [(b, blockno)])
    (hon : ∀ q, k q ≠ .off) (hon' : ∀ b, ret b ≠ .off)
    (hpins : ∀ q', (k q').unpinned = s.pc.unpinned) (hpins' : ∀ b, (ret b).unpinned = s.pc.unpinned)
    (hph : ∀ c q', Phase start d₀ { s with cache := c, pc := k q' })
    (hph' : ∀ c b, Phase start d₀ { s with cache := c, pc := ret b })
    (hpd : ∀ c q', PcData start d₀ { s with cache := c, pc := k q' })
    (hpd' : ∀ c b, PcData start d₀ { s with cache := c, pc := ret b }) : LogInv start d₀ s' := by
  have hoff : s.pc ≠ .off := hpc ▸ hon q
  have hregs := h.regs
  rw [hpc, hkr] at hregs
  have hrr : ∀ r ∈ rr, ∃ st, (r.1, st) ∈ s.refs := fun r hr => by
    have hmem : r ∈ s.pc.regs start s.lh := by
      rw [hpc, hkr]
      exact mem_append_left _ hr
    obtain ⟨st, hst⟩ := regs_refs hmem
    exact ⟨st, mem_append_left _ hst⟩
  have hrefs : s.refs = q.refs ++ rest ++ s.handles.map fun h => (h.buf, h.stage) := by
    rw [Sys.refs, hpc, hk]
  cases q with
  | bget =>
    rw [Sys.breadStep] at hs
    split at hs
    · cases hs
    rename_i i c hb
    cases hs
    obtain ⟨hcache, hc⟩ := h.cache.bget hb
    refine h.thread hoff (hon _) ?_ hcache (h.data.bget hb) ?_
      (fun j st hj => h.bget_frame hb hj) (hpins _) (hph _ _) (hpd _ _)
    · simp [Sys.refs, hpc, hk, BreadPc.refs]
    · rw [hkr]
      intro r hr
      rcases mem_append.mp hr with hr | hr
      · obtain ⟨st, hst⟩ := hrr r hr
        rw [h.bget_frame hb hst]
        exact hregs r (mem_append_left _ hr)
      · obtain rfl := mem_singleton.mp hr
        exact hc.2
  | lock i =>
    rw [Sys.breadStep] at hs
    split at hs
    · cases hs
    rename_i hl
    cases hs
    have hblk := set_blockno s.cache i { s.cache.buf i with locked := true } rfl
    have hcache := h.cache
    have hdata := h.data
    rw [hrefs] at hcache hdata
    refine h.thread hoff (hon _) ?_ (hcache.lock (Bool.not_eq_true _ ▸ hl))
      (hdata.set_same rfl rfl rfl rfl fun j hj => ?_) ?_ (fun j _ _ => hblk j)
      (hpins _) (hph _ _) (hpd _ _)
    · simp [Sys.refs, hk, BreadPc.refs]
    · simpa [BreadPc.refs] using hj
    · rw [hkr]
      intro r hr
      rw [hblk]
      exact hregs r hr
  | read i =>
    cases hs
    have hdev := h.cache.dev (i, .locked) (by rw [hrefs]; simp [BreadPc.refs])
    have hcache := h.cache
    have hdata := h.data
    rw [hrefs] at hcache hdata
    refine h.thread hoff (hon' _) ?_ (hcache.fetch s.disk)
      (hdata.fetch fun hv => h.disk_content hdev hv) ?_ (fun j _ _ => fetch_blockno ..)
      (hpins' _) (hph' _ _) (hpd' _ _)
    · simp [Sys.refs, hret]
    · rw [hretr]
      intro r hr
      rw [fetch_blockno]
      exact hregs r hr

/-- A `brelse` of the log thread's newest reference. -/
theorem relse (h : LogInv start d₀ s) (pc : Pc) {b : BufId} {rest : List Ref}
    (hrefs : s.pc.refs = (b, .ready) :: rest) (hrefs' : pc.refs = rest)
    (hregs : ∀ r ∈ pc.regs start s.lh, r ∈ s.pc.regs start s.lh)
    (hon : s.pc ≠ .off) (hon' : pc ≠ .off) (hpins : pc.unpinned = s.pc.unpinned)
    (hphase : Phase start d₀ { s with cache := s.cache.brelse b, pc := pc })
    (hpd : PcData start d₀ { s with cache := s.cache.brelse b, pc := pc }) :
    LogInv start d₀ { s with cache := s.cache.brelse b, pc := pc } := by
  have hcache := h.cache
  have hdata := h.data
  rw [Sys.refs, hrefs, cons_append] at hcache hdata
  refine h.thread hon hon' (by rw [Sys.refs, hrefs']) (hcache.brelse (by decide))
    (hdata.brelse (by decide)) (fun r hr => ?_) (fun j _ _ => brelse_blockno ..) hpins hphase hpd
  rw [brelse_blockno]
  exact h.regs r (hregs r hr)

/-- What a buffer of the log thread holds. -/
theorem reg_data (h : LogInv start d₀ s) {b : BufId} {x : ℕ}
    (hb : (b, x) ∈ s.pc.regs start s.lh) (hr : (b, Stage.ready) ∈ s.pc.refs) :
    (s.cache.buf b).data = s.content start d₀ x := by
  have hm : (b, Stage.ready) ∈ s.refs := mem_append_left _ hr
  have hbno := h.regs _ hb
  have hnd : (b, Stage.dirty) ∉ s.refs := fun hd => by
    have hc := h.cache.perm (perm_cons_erase hm)
    exact hc.not_dirty (by decide) ((mem_erase_of_ne (by simp)).mpr hd)
  rw [h.data b (h.cache.dev _ hm) (h.cache.valid _ hm (.inl rfl)) hnd]
  exact congrArg _ hbno

/-- The log thread modifies one of its buffers. -/
theorem move (h : LogInv start d₀ s) (rest : List Ref) {pc : Pc} {b : BufId} {d : Bytes}
    (hrefs : s.pc.refs.Perm ((b, .ready) :: rest)) (hrefs' : pc.refs = (b, .dirty) :: rest)
    (hregs : pc.regs start s.lh = s.pc.regs start s.lh)
    (hon : s.pc ≠ .off) (hon' : pc ≠ .off) (hpins : pc.unpinned = s.pc.unpinned)
    (hphase : Phase start d₀ { s with cache := setData s.cache b d, pc := pc })
    (hpd : PcData start d₀ { s with cache := setData s.cache b d, pc := pc }) :
    LogInv start d₀ { s with cache := setData s.cache b d, pc := pc } := by
  have hp := hrefs.append_right (s.handles.map fun h => (h.buf, h.stage))
  rw [cons_append] at hp
  have hblk := set_blockno s.cache b { s.cache.buf b with data := d } rfl
  refine h.thread hon hon' (by rw [Sys.refs, hrefs', cons_append])
    ((h.cache.perm hp).setData (.inl rfl) (.inr rfl) d) ((h.data.perm hp).setData d)
    (fun r hr => ?_) (fun j _ _ => hblk j) hpins hphase hpd
  rw [setData, hblk]
  exact h.regs r (hregs ▸ hr)

/-! ## Disk writes -/

/-- **A disk write of the log thread**: what has to be known of the block
written, and of what the disk stands for afterwards. -/
theorem write (h : LogInv start d₀ s) (rest : List Ref) {pc : Pc} {b : BufId} {n : ℕ}
    (hrefs : s.pc.refs = (b, .dirty) :: rest) (hrefs' : ((b, .ready) :: rest).Perm pc.refs)
    (hregs : pc.regs start s.lh = s.pc.regs start s.lh)
    (hon : s.pc ≠ .off) (hon' : pc ≠ .off)
    (hpins : s.booting = false → pc.unpinned = s.pc.unpinned)
    (hnow : s.booting = false → Home start (s.cache.buf b).blockno →
      s.now d₀ (s.cache.buf b).blockno = (s.cache.buf b).data)
    (hn : n ≤ s.sealed.length) (hnb : s.booting = true → n = s.done)
    (hhdr : HeaderOk start (header start (bwrite s.disk s.cache b)))
    (hrec : ∀ x, Home start x → recovered start (bwrite s.disk s.cache b) x =
      applyUpds d₀ (s.sealed.take n).flatten x)
    (hphase : Phase start d₀ { s with disk := bwrite s.disk s.cache b, done := n, pc := pc })
    (hpd : PcData start d₀ { s with disk := bwrite s.disk s.cache b, done := n, pc := pc }) :
    LogInv start d₀ { s with disk := bwrite s.disk s.cache b, done := n, pc := pc } := by
  have hcache := h.cache
  have hdata := h.data
  rw [Sys.refs, hrefs, cons_append] at hcache hdata
  have hdev := hcache.dev _ mem_cons_self
  have hp := hrefs'.append_right (s.handles.map fun h => (h.buf, h.stage))
  have hpins' : ({ s with disk := bwrite s.disk s.cache b, done := n, pc := pc } : Sys).pins =
      s.pins := by
    rcases hb : s.booting with _ | _
    · simp [Sys.pins, hb, hpins hb]
    · simp [Sys.pins, hb]
  refine { h with
    cache := hpins' ▸ ((hcache.undirty (.inr rfl) (.inl rfl)).perm hp)
    data := (hdata.undirty (fun j hj => h.cache.uniq j b _ hj ⟨hdev, rfl⟩) ?_ ?_).perm hp
    regs := hregs ▸ h.regs
    clean := ?_
    hdrOk := hhdr
    replay := hrec
    phase := hphase
    pcData := hpd
    opsOff := fun hne => absurd (h.opsOff hne) hon
    committing := fun hb => (h.committing hb).trans (by simp [hon, hon'])
    atBoot := fun hb => ?_
    done := hn }
  · unfold Sys.content
    split
    · rename_i hc
      exact hnow hc.1 hc.2
    · exact update_self ..
  · intro x hx
    simp only [Sys.content, bwrite, update_of_ne hx]
    rfl
  · rw [hpins']
    intro hb x hx hxp
    by_cases hxb : x = (s.cache.buf b).blockno
    · subst hxb
      simp only [bwrite, update_self]
      exact (hnow hb hx).symm
    · simp only [bwrite, update_of_ne hxb]
      exact h.clean hb x hx hxp
  · obtain ⟨h1, h2, h3, h4⟩ := h.atBoot hb
    exact ⟨h1, h2, h3, by rw [hnb hb]; exact h4.1, h4.2⟩

/-- A write outside the header block leaves the header on disk. -/
theorem header_bwrite {disk : ℕ → Bytes} {c : Bcache} {b : BufId}
    (hb : (c.buf b).blockno ≠ start) : header start (bwrite disk c b) = header start disk := by
  rw [header, header, bwrite, update_of_ne (Ne.symm hb)]

/-- With an empty header on disk, writing a log block changes nothing the disk stands for. -/
theorem recovered_bwrite_slot {disk : ℕ → Bytes} {c : Bcache} {b : BufId} {t : ℕ}
    (hh : header start disk = []) (ht : t < LOGBLOCKS) (hb : (c.buf b).blockno = start + t + 1)
    {x : ℕ} (hx : Home start x) :
    recovered start (bwrite disk c b) x = recovered start disk x := by
  have hhdr : header start (bwrite disk c b) = [] := by
    rw [header_bwrite (by omega), hh]
  rw [recovered_of_nil hhdr, recovered_of_nil hh, bwrite, hb, update_of_ne (hx.ne_slot ht)]

theorem writeLogWrite {t : ℕ} {dst src : BufId} (h : LogInv start d₀ s)
    (hpc : s.pc = .writeLog t (.write dst src)) :
    LogInv start d₀ { s with
      disk := bwrite s.disk s.cache dst, pc := .writeLog t (.relseSrc dst src) } := by
  have hregs := h.regs
  have hph := h.phase
  have hpd := h.pcData
  simp only [Phase, PcData, hpc] at hph hpd
  rw [hpc] at hregs
  obtain ⟨hpre, ht, hlog⟩ := hph
  have hdst : (s.cache.buf dst).blockno = start + t + 1 := hregs (dst, _) (by simp [Pc.regs])
  have hlen := h.lhOk.len
  have hhdr : header start (bwrite s.disk s.cache dst) = header start s.disk :=
    header_bwrite (by omega)
  refine h.write [(src, .ready)] (n := s.done) (by rw [hpc]; rfl)
    (List.Perm.swap ..) (by rw [hpc]; rfl) (by simp [hpc]) (by simp) (fun _ => by rw [hpc]; rfl)
    (fun _ hx => absurd hdst (hx.ne_slot (by omega))) h.done (fun _ => rfl) (hhdr ▸ h.hdrOk)
    (fun x hx => ?_) ?_ trivial
  · rw [recovered_bwrite_slot hpre.2.1 (by omega) hdst hx]
    exact h.replay x hx
  · refine ⟨⟨hpre.1, hhdr.trans hpre.2.1, hpre.2.2⟩, ht, fun j hj => ?_⟩
    dsimp only [bwrite]
    rw [hdst]
    by_cases hjt : j = t
    · subst hjt
      rw [update_self]
      exact hpd
    · rw [update_of_ne (by omega)]
      exact hlog j (by omega)

/-- **The commit point.** Writing the header makes the disk stand for the
group just sealed. -/
theorem writeHeadCommit {b : BufId} (h : LogInv start d₀ s)
    (hpc : s.pc = .writeHead false (.write b)) :
    LogInv start d₀ { s with
      disk := bwrite s.disk s.cache b, done := s.done + 1, pc := .writeHead false (.relse b) } := by
  have hregs := h.regs
  have hph := h.phase
  have hpd := h.pcData
  simp only [Phase, PcData, hpc] at hph hpd
  rw [hpc] at hregs
  obtain ⟨⟨hbt, hnil, hlen, hcur⟩, hlog⟩ := hph
  have hb : (s.cache.buf b).blockno = start := hregs (b, _) (by simp [Pc.regs])
  have hhdr : header start (bwrite s.disk s.cache b) = s.lh := by
    rw [header, bwrite, hb, update_self, hpd]
  have hother : ∀ x, x ≠ start → bwrite s.disk s.cache b x = s.disk x := fun x hx => by
    rw [bwrite, hb, update_of_ne hx]
  refine h.write [] (by rw [hpc]; rfl) (List.Perm.refl _) (by rw [hpc]; rfl)
    (by simp [hpc]) (by simp) (fun _ => by rw [hpc]; rfl) (fun _ hx => absurd hb hx.ne_start)
    (by omega) (fun hb => absurd hb (by simp [hbt])) (hhdr ▸ h.lhOk) (fun x hx => ?_)
    ⟨hbt, hhdr, hlen, hcur⟩ trivial
  have hnow : s.now d₀ = applyUpds d₀ (s.sealed.take (s.done + 1)).flatten := by
    rw [Sys.now, hcur, append_nil, ← hlen, take_length]
  rw [← hnow, recovered, hhdr]
  refine replay_commit 0 (fun j hj => ?_) fun hxl => ?_
  · rw [hother _ (by omega)]
    exact hlog j hj
  · rw [hother x hx.ne_start]
    exact h.clean hbt x hx (by simpa [Sys.pins, hbt, hpc, Pc.unpinned] using hxl)

/-- Clearing the header: every block is installed, so the log can be dropped. -/
theorem writeHeadClear {b : BufId} (h : LogInv start d₀ s)
    (hpc : s.pc = .writeHead true (.write b)) :
    LogInv start d₀ { s with
      disk := bwrite s.disk s.cache b, pc := .writeHead true (.relse b) } := by
  have hregs := h.regs
  have hph := h.phase
  have hpd := h.pcData
  simp only [Phase, PcData, hpc] at hph hpd
  rw [hpc] at hregs
  obtain ⟨hset, hlh, hinst⟩ := hph
  have hb : (s.cache.buf b).blockno = start := hregs (b, _) (by simp [Pc.regs])
  have hhdr : header start (bwrite s.disk s.cache b) = [] := by
    rw [header, bwrite, hb, update_self, hpd, hlh]
  refine h.write [] (n := s.done) (by rw [hpc]; rfl) (List.Perm.refl _)
    (by rw [hpc]; rfl) (by simp [hpc]) (by simp) (fun _ => by rw [hpc]; rfl)
    (fun _ hx => absurd hb hx.ne_start) h.done (fun _ => rfl) (by rw [hhdr, ← hlh]; exact h.lhOk)
    (fun x hx => ?_) ⟨hhdr, hset, hlh⟩ trivial
  rw [recovered_of_nil hhdr, bwrite, hb, update_of_ne hx.ne_start]
  exact hinst x hx

/-- While blocks are installed, a listed block stands for its log block. -/
theorem slot_committed (h : LogInv start d₀ s) (hh : header start s.disk = s.lh) {j : ℕ}
    (hj : j < s.lh.length) : s.disk (start + j + 1) = s.committed d₀ (s.lh.getD j 0) := by
  rw [← h.replay _ (h.lhOk.home _ (HeaderOk.getD_mem hj)), recovered, hh,
    replay_getD h.lhOk.nodup hj]

theorem installWrite {t : ℕ} {l d : BufId} (h : LogInv start d₀ s)
    (hpc : s.pc = .install t (.write l d)) :
    LogInv start d₀ { s with
      disk := bwrite s.disk s.cache d
      pc := .install t (if s.booting then .relseL l d else .unpin l d) } := by
  have hregs := h.regs
  have hph := h.phase
  have hpd := h.pcData
  simp only [Phase, PcData, hpc] at hph hpd
  rw [hpc] at hregs
  obtain ⟨hh, hset, ht, hinst⟩ := hph
  have hd : (s.cache.buf d).blockno = s.lh.getD t 0 := hregs _ (.tail _ (.head _))
  have hmem := HeaderOk.getD_mem ht
  have hhome := h.lhOk.home _ hmem
  have hlen := h.lhOk.len
  rw [slot_committed h hh ht] at hpd
  have hhdr : header start (bwrite s.disk s.cache d) = s.lh :=
    (header_bwrite (hd ▸ hhome.ne_start)).trans hh
  have hinst' : ∀ j < t + 1, bwrite s.disk s.cache d (s.lh.getD j 0) =
      s.committed d₀ (s.lh.getD j 0) := by
    intro j hj
    by_cases hjt : s.lh.getD j 0 = s.lh.getD t 0
    · rw [hjt, bwrite, hd, update_self, hpd]
    · have hne : j ≠ t := fun hjt' => hjt (by rw [hjt'])
      rw [bwrite, hd, update_of_ne hjt]
      exact hinst j (by omega)
  refine h.write [(l, .ready)] (n := s.done) (by rw [hpc]; rfl) ?_ ?_ (by simp [hpc])
    (by simp) (fun hb => by rw [hpc, hb]; rfl) (fun _ _ => ?_) h.done (fun _ => rfl)
    (hhdr ▸ h.lhOk) (fun x hx => ?_) ?_ ?_
  · split
    · exact List.Perm.swap ..
    · exact List.Perm.swap ..
  · rw [hpc]
    split <;> rfl
  · rw [hd, hpd, hset.committed_eq]
  · rw [← Sys.committed, ← h.replay x hx, recovered, recovered, hhdr, hh]
    refine replay_congr (fun j hj => ?_) fun hxl => ?_
    · rw [bwrite, hd, update_of_ne (Ne.symm (hhome.ne_slot (by omega)))]
    · have hne : x ≠ s.lh.getD t 0 := fun he => hxl (he ▸ hmem)
      rw [bwrite, hd, update_of_ne hne]
  · rcases hb : s.booting with _ | _
    · exact ⟨hhdr, hset, ht, hinst', rfl⟩
    · exact ⟨hhdr, hset, ht, hinst'⟩
  · split <;> trivial

end LogInv

end Xv6
