import Xv6.LogThread

/-!
# The log invariant along runs

The functions of `log.c` that the log thread is in, one lemma each, then the
whole step function, boot and crash, and the invariant of every run.
-/

namespace Xv6

open List

variable {start : ℕ} {d₀ : ℕ → Bytes} {s s' : Sys}

namespace LogInv

/-! ## The functions of the log thread -/

theorem readHeadStep {k : ReadHeadPc} (h : LogInv start d₀ s) (hpc : s.pc = .readHead k)
    (hs : s.readHeadStep start k = .ok s') : LogInv start d₀ s' := by
  have hph := h.phase
  cases k with
  | hb q =>
    simp only [Phase, hpc] at hph
    rw [Sys.readHeadStep] at hs
    exact h.bread hs [] [] hpc (fun q => (append_nil _).symm) (fun _ => rfl) (fun _ => rfl)
      (fun _ => rfl) (by simp) (by simp) (fun _ => by rw [hpc]; rfl) (fun _ => by rw [hpc]; rfl)
      (fun _ _ => hph) (fun _ _ => hph) (fun _ _ => trivial) (fun _ _ => trivial)
  | copy b =>
    simp only [Phase, hpc] at hph
    cases hs
    have hdata := h.reg_data (b := b) (x := start) (by rw [hpc]; simp [Pc.regs])
      (by rw [hpc]; simp [Pc.refs])
    have hlh : readHeader (s.cache.buf b).data = header start s.disk := by
      rw [hdata, Sys.content, if_neg (by simp [hph]), header]
    obtain ⟨-, -, -, hset⟩ := h.atBoot hph
    have hpins : ({ s with
        lh := readHeader (s.cache.buf b).data, pc := .readHead (.relse b) } : Sys).pins =
        s.pins := by
      simp [Sys.pins, hph]
    refine { h with
      cache := ?_
      data := ?_
      regs := ?_
      lhOk := by rw [hlh]; exact h.hdrOk
      curLh := fun u hu => absurd hu (by simp [hset.2])
      clean := fun hb => absurd hb (by simp [hph])
      phase := ⟨hph, hlh⟩
      pcData := trivial
      opsOff := fun hne => absurd (h.atBoot hph).2.1 hne
      committing := fun hb => absurd hb (by simp [hph]) }
    · rw [hpins]
      exact h.cache.perm (by simp [Sys.refs, hpc, Pc.refs])
    · exact h.data.perm (by simp [Sys.refs, hpc, Pc.refs])
    · have hregs := h.regs
      rw [hpc] at hregs
      exact hregs
  | relse b =>
    simp only [Phase, hpc] at hph
    cases hs
    obtain ⟨-, -, -, hset⟩ := h.atBoot hph.1
    exact h.relse _ (by rw [hpc]; rfl) rfl (fun r hr => absurd hr (by simp [Pc.regs]))
      (by simp [hpc]) (by simp) (by rw [hpc]; rfl)
      ⟨hph.2.symm, hset, Nat.zero_le _, fun j hj => absurd hj (Nat.not_lt_zero j)⟩ trivial

theorem writeLogStep {t : ℕ} {k : WriteLogPc} (h : LogInv start d₀ s)
    (hpc : s.pc = .writeLog t k) (hs : s.writeLogStep start t k = .ok s') :
    LogInv start d₀ s' := by
  have hph := h.phase
  cases k with
  | test =>
    simp only [Phase, hpc] at hph
    obtain ⟨hpre, hle, hlog⟩ := hph
    rw [Sys.writeLogStep] at hs
    split at hs
    · rename_i hlt
      cases hs
      exact h.goto (by simp [hpc]) (by simp) (by rw [hpc]; rfl) rfl (by rw [hpc]; rfl)
        ⟨hpre, hlt, hlog⟩ trivial
    · rename_i hge
      cases hs
      obtain rfl : t = s.lh.length := by omega
      exact h.goto (by simp [hpc]) (by simp) (by rw [hpc]; rfl) rfl (by rw [hpc]; rfl)
        ⟨hpre, hlog⟩ trivial
  | dst q =>
    simp only [Phase, hpc] at hph
    rw [Sys.writeLogStep] at hs
    exact h.bread hs [] [] hpc (fun q => (append_nil _).symm) (fun _ => rfl) (fun _ => rfl)
      (fun _ => rfl) (by simp) (by simp) (fun _ => by rw [hpc]; rfl) (fun _ => by rw [hpc]; rfl)
      (fun _ _ => hph) (fun _ _ => hph) (fun _ _ => trivial) (fun _ _ => trivial)
  | src x q =>
    simp only [Phase, hpc] at hph
    rw [Sys.writeLogStep] at hs
    exact h.bread hs [(x, .ready)] [(x, start + t + 1)] hpc (fun _ => rfl) (fun _ => rfl)
      (fun _ => rfl) (fun _ => rfl) (by simp) (by simp) (fun _ => by rw [hpc]; rfl)
      (fun _ => by rw [hpc]; rfl) (fun _ _ => hph) (fun _ _ => hph) (fun _ _ => trivial)
      (fun _ _ => trivial)
  | move x y =>
    simp only [Phase, hpc] at hph
    cases hs
    refine h.move [(y, .ready)] (by rw [hpc]; exact List.Perm.swap ..) rfl
      (by rw [hpc]; rfl) (by simp [hpc]) (by simp) (by rw [hpc]; rfl) hph ?_
    have hhome := h.lhOk.home _ (HeaderOk.getD_mem hph.2.1)
    have hdata := h.reg_data (b := y) (x := s.lh.getD t 0)
      (by rw [hpc]; exact .tail _ (.head _)) (by rw [hpc]; simp [Pc.refs])
    rw [Sys.content, if_pos ⟨hph.1.1, hhome⟩] at hdata
    simp only [PcData, setData, Bcache.set_buf_self]
    exact hdata
  | write x y =>
    cases hs
    exact h.writeLogWrite hpc
  | relseSrc x y =>
    simp only [Phase, hpc] at hph
    cases hs
    refine h.relse _ (by rw [hpc]; rfl) rfl (fun r hr => ?_) (by simp [hpc]) (by simp)
      (by rw [hpc]; rfl) hph trivial
    rw [hpc]
    exact mem_cons.mpr (.inl (mem_singleton.mp hr))
  | relseDst x =>
    simp only [Phase, hpc] at hph
    cases hs
    exact h.relse _ (by rw [hpc]; rfl) rfl (fun r hr => absurd hr (by simp [Pc.regs]))
      (by simp [hpc]) (by simp) (by rw [hpc]; rfl) ⟨hph.1, hph.2.1, hph.2.2⟩ trivial

/-- The end of recovery: memory takes over from the disk. -/
theorem recoveryDone {b : BufId} (h : LogInv start d₀ s) (hpc : s.pc = .writeHead true (.relse b))
    (hb : s.booting = true) :
    LogInv start d₀ { s with cache := s.cache.brelse b, pc := .off, booting := false } := by
  have hph := h.phase
  simp only [Phase, hpc] at hph
  obtain ⟨hh, hset, hlh⟩ := hph
  obtain ⟨hhd, hops, hcom, -⟩ := h.atBoot hb
  have hdisk : ∀ x, Home start x → s.disk x = s.now d₀ x := fun x hx => by
    rw [h.disk_committed hh hx, hset.committed_eq]
  have hcache := h.cache
  have hdata := h.data
  rw [Sys.refs, hpc] at hcache hdata
  refine { h with
    cache := ?_
    data := ?_
    regs := fun r hr => absurd hr (by simp [Pc.regs])
    hhome := fun x hx => absurd hx (by simp [hhd])
    clean := fun _ x hx _ => hdisk x hx
    phase := ⟨rfl, hh, hset.1⟩
    pcData := trivial
    opsOff := fun hne => absurd hops hne
    committing := fun _ => by simp [hcom]
    atBoot := fun hb => absurd hb (by simp) }
  · have := hcache.brelse (by decide)
    simpa [Sys.pins, Sys.refs, Pc.refs, hlh, hb] using this
  · refine (hdata.brelse (by decide)).content_congr fun i _ _ => ?_
    unfold Sys.content
    split
    · rename_i hc
      rw [if_neg (by simp [hb])]
      exact (hdisk _ hc.2).symm
    · rw [if_neg (by simp [hb])]

theorem writeHeadStep {clear : Bool} {k : WriteHeadPc} (h : LogInv start d₀ s)
    (hpc : s.pc = .writeHead clear k) (hs : s.writeHeadStep start clear k = .ok s') :
    LogInv start d₀ s' := by
  have hph := h.phase
  cases k with
  | hb q =>
    rw [Sys.writeHeadStep] at hs
    refine h.bread hs [] [] hpc (fun q => (append_nil _).symm) (fun _ => rfl) (fun _ => rfl)
      (fun _ => rfl) (by simp) (by simp) (fun _ => by rw [hpc]; rfl) (fun _ => by rw [hpc]; rfl)
      (fun c q => ?_) (fun c b => ?_) (fun _ _ => trivial) (fun _ _ => trivial)
    all_goals cases clear <;> simp only [Phase, hpc] at hph ⊢ <;> exact hph
  | fill b =>
    cases hs
    refine h.move [] (by rw [hpc]; exact List.Perm.refl _) rfl (by rw [hpc]; rfl)
      (by simp [hpc]) (by simp) (by rw [hpc]; rfl) ?_ ?_
    · cases clear <;> simp only [Phase, hpc] at hph ⊢ <;> exact hph
    · have hlen := h.lhOk.len
      simp only [PcData, setData, Bcache.set_buf_self]
      exact readHeader_fillHeader (by simp [LOGBLOCKS, MAXOPBLOCKS] at hlen; omega)
        (fun x hx => (h.lhOk.home x hx).1) _
  | write b =>
    cases hs
    cases clear
    · exact h.writeHeadCommit hpc
    · exact h.writeHeadClear hpc
  | relse b =>
    cases hs
    cases clear
    · simp only [Phase, hpc] at hph
      have := h.relse (.install 0 .test) (by rw [hpc]; rfl) rfl
        (fun r hr => absurd hr (by simp [Pc.regs])) (by simp [hpc]) (by simp) (by rw [hpc]; rfl)
        ⟨hph.2.1, hph.2.2, Nat.zero_le _, fun j hj => absurd hj (Nat.not_lt_zero j)⟩ trivial
      simpa using this
    · rcases hb : s.booting with _ | _
      · simp only [Phase, hpc] at hph
        have := h.relse .finish (by rw [hpc]; rfl) rfl
          (fun r hr => absurd hr (by simp [Pc.regs])) (by simp [hpc]) (by simp) (by rw [hpc]; rfl)
          ⟨hb, hph.1, hph.2.1, hph.2.2⟩ trivial
        simpa [hb] using this
      · simpa using h.recoveryDone hpc hb

/-- Once every block is installed, `log.lh.n = 0` may be set. -/
theorem installDone {t : ℕ} (h : LogInv start d₀ s) (hpc : s.pc = .install t .test)
    (hge : s.lh.length ≤ t) :
    LogInv start d₀ { s with lh := [], pc := .writeHead true (.hb .bget) } := by
  have hph := h.phase
  simp only [Phase, hpc] at hph
  obtain ⟨hh, hset, hle, hinst⟩ := hph
  have hpins : s.pins = [] := by
    simp [Sys.pins, hpc, Pc.unpinned, hge]
  refine { h with
    cache := ?_
    data := h.data.perm (by simp [Sys.refs, hpc, Pc.refs, BreadPc.refs])
    regs := fun r hr => absurd hr (by simp [Pc.regs, BreadPc.regs])
    lhOk := ⟨nodup_nil, fun b hb => absurd hb (by simp), Nat.zero_le _⟩
    curLh := fun u hu => absurd hu (by simp [hset.2])
    clean := fun hb x hx _ => h.clean hb x hx (by simp [hpins])
    phase := ⟨hset, rfl, fun x hx => ?_⟩
    pcData := trivial
    opsOff := fun hne => absurd (h.opsOff hne) (by simp [hpc])
    committing := fun hb => (h.committing hb).trans (by simp [hpc]) }
  · have hc := h.cache
    rw [hpins] at hc
    simpa [Sys.pins, Sys.refs, hpc, Pc.refs, BreadPc.refs] using hc
  · have hrec := h.replay x hx
    rw [recovered, hh, replay_eq_home h.lhOk.nodup 0 fun j hj => ?_] at hrec
    · exact hrec
    · rw [h.slot_committed hh hj]
      exact hinst j (by omega)

theorem installUnpin {t : ℕ} {l d : BufId} (h : LogInv start d₀ s)
    (hpc : s.pc = .install t (.unpin l d)) :
    LogInv start d₀ { s with cache := s.cache.bunpin d, pc := .install t (.relseL l d) } := by
  have hregs := h.regs
  have hph := h.phase
  simp only [Phase, hpc] at hph
  rw [hpc] at hregs
  obtain ⟨hh, hset, ht, hinst, hb⟩ := hph
  have hd : (s.cache.buf d).blockno = s.lh.getD t 0 := hregs _ (.tail _ (.head _))
  have hdrop : s.lh.drop t = s.lh.getD t 0 :: s.lh.drop (t + 1) := by
    rw [drop_eq_getElem_cons ht, getD_eq_getElem _ _ ht]
  have hnd := h.lhOk.nodup.sublist (drop_sublist t s.lh)
  rw [hdrop, nodup_cons] at hnd
  have hpins : s.pins = s.lh.drop t := by simp [Sys.pins, hb, hpc, Pc.unpinned]
  have hpins' : ({ s with
      cache := s.cache.bunpin d, pc := .install t (.relseL l d) } : Sys).pins =
      s.lh.drop (t + 1) := by
    simp [Sys.pins, hb, Pc.unpinned]
  have hdev := h.cache.dev (d, .ready) (mem_append_left _ (by rw [hpc]; simp [Pc.refs]))
  have hblk := set_blockno s.cache d
    { s.cache.buf d with refcnt := (s.cache.buf d).refcnt - 1 } rfl
  refine { h with
    cache := ?_
    data := ?_
    regs := fun r hr => (hblk r.1).trans (hregs r hr)
    hhome := fun x hx => by
      exact (hblk x.buf).symm ▸ h.hhome x hx
    clean := ?_
    phase := ⟨hh, hset, ht, hinst⟩
    pcData := trivial
    opsOff := fun hne => absurd (h.opsOff hne) (by simp [hpc])
    committing := fun hb => (h.committing hb).trans (by simp [hpc]) }
  · rw [hpins']
    have hc : CacheInv (s.cache.bunpin d) s.refs (s.lh.drop (t + 1)) :=
      h.cache.bunpin ⟨hdev, hd⟩ hnd.1 fun x => by rw [hpins, hdrop, mem_cons, or_comm]
    exact hc.perm (by simp [Sys.refs, hpc, Pc.refs])
  · exact h.data.set_same rfl rfl rfl rfl fun j hj => by
      simpa [Sys.refs, hpc, Pc.refs] using hj
  · rw [hpins']
    intro _ x hx hxp
    by_cases hxt : x = s.lh.getD t 0
    · subst hxt
      have := hinst t (Nat.lt_succ_self t)
      rw [hset.committed_eq] at this
      exact this
    · refine h.clean hb x hx ?_
      rw [hpins, hdrop, mem_cons, not_or]
      exact ⟨hxt, hxp⟩

theorem installStep {t : ℕ} {k : InstallPc} (h : LogInv start d₀ s)
    (hpc : s.pc = .install t k) (hs : s.installStep start t k = .ok s') :
    LogInv start d₀ s' := by
  have hph := h.phase
  cases k with
  | test =>
    rw [Sys.installStep] at hs
    split at hs
    · rename_i hlt
      simp only [Phase, hpc] at hph
      cases hs
      exact h.goto (by simp [hpc]) (by simp) (by rw [hpc]; rfl) rfl (by rw [hpc]; rfl)
        ⟨hph.1, hph.2.1, hlt, hph.2.2.2⟩ trivial
    · cases hs
      exact h.installDone hpc (by omega)
  | lbuf q =>
    simp only [Phase, hpc] at hph
    rw [Sys.installStep] at hs
    exact h.bread hs [] [] hpc (fun q => (append_nil _).symm) (fun _ => rfl) (fun _ => rfl)
      (fun _ => rfl) (by simp) (by simp) (fun _ => by rw [hpc]; rfl) (fun _ => by rw [hpc]; rfl)
      (fun _ _ => hph) (fun _ _ => hph) (fun _ _ => trivial) (fun _ _ => trivial)
  | dbuf x q =>
    simp only [Phase, hpc] at hph
    rw [Sys.installStep] at hs
    exact h.bread hs [(x, .ready)] [(x, start + t + 1)] hpc (fun _ => rfl) (fun _ => rfl)
      (fun _ => rfl) (fun _ => rfl) (by simp) (by simp) (fun _ => by rw [hpc]; rfl)
      (fun _ => by rw [hpc]; rfl) (fun _ _ => hph) (fun _ _ => hph) (fun _ _ => trivial)
      (fun _ _ => trivial)
  | move l d =>
    simp only [Phase, hpc] at hph
    cases hs
    refine h.move [(l, .ready)] (by rw [hpc]; exact List.Perm.refl _) rfl
      (by rw [hpc]; rfl) (by simp [hpc]) (by simp) (by rw [hpc]; rfl) hph ?_
    have hlen := h.lhOk.len
    have hslot : ¬Home start (start + t + 1) := fun hx =>
      hx.ne_slot (j := t) (by omega) rfl
    have hdata := h.reg_data (b := l) (x := start + t + 1)
      (by rw [hpc]; exact .head _) (by rw [hpc]; simp [Pc.refs])
    rw [Sys.content, if_neg fun hc => hslot hc.2] at hdata
    simp only [PcData, setData, Bcache.set_buf_self]
    exact hdata
  | write l d =>
    cases hs
    exact h.installWrite hpc
  | unpin l d =>
    cases hs
    exact h.installUnpin hpc
  | relseL l d =>
    simp only [Phase, hpc] at hph
    cases hs
    refine h.relse _ (by rw [hpc]; rfl) rfl (fun r hr => ?_) (by simp [hpc]) (by simp)
      (by rw [hpc]; rfl) hph trivial
    rw [hpc]
    exact .tail _ hr
  | relseD d =>
    simp only [Phase, hpc] at hph
    cases hs
    exact h.relse _ (by rw [hpc]; rfl) rfl (fun r hr => absurd hr (by simp [Pc.regs]))
      (by simp [hpc]) (by simp) (by rw [hpc]; rfl) ⟨hph.1, hph.2.1, hph.2.2.1, hph.2.2.2⟩ trivial

/-- `commit()` seals the group if there is anything in the log. -/
theorem commit (h : LogInv start d₀ s) (hpc : s.pc = .commit) :
    LogInv start d₀ { s with
      sealed := s.sealed ++ [s.cur], cur := [], pc := .writeLog 0 .test } := by
  have hph := h.phase
  simp only [Phase, hpc] at hph
  obtain ⟨hb, hh, hlen⟩ := hph
  have hnow : ({ s with
      sealed := s.sealed ++ [s.cur], cur := [], pc := .writeLog 0 .test } : Sys).now d₀ =
      s.now d₀ := by
    simp [Sys.now]
  have hcom : ({ s with
      sealed := s.sealed ++ [s.cur], cur := [], pc := .writeLog 0 .test } : Sys).committed d₀ =
      s.committed d₀ := by
    simp [Sys.committed, ← hlen]
  exact { h with
    cache := by
      simpa [Sys.refs, Sys.pins, hpc, Pc.refs, Pc.unpinned] using h.cache
    data := (h.data.perm (by simp [Sys.refs, hpc, Pc.refs])).content_congr fun i _ _ => by
      simp only [Sys.content, hnow]
    regs := fun r hr => absurd hr (by simp [Pc.regs])
    curLh := fun u hu => absurd hu (by simp)
    clean := fun hb x hx hxp => by
      rw [hnow]
      exact h.clean hb x hx (by simpa [Sys.pins, hpc, Pc.unpinned] using hxp)
    replay := hcom ▸ h.replay
    phase := ⟨⟨hb, hh, by simp [hlen], rfl⟩, Nat.zero_le _,
      fun j hj => absurd hj (Nat.not_lt_zero j)⟩
    pcData := trivial
    opsOff := fun hne => absurd (h.opsOff hne) (by simp [hpc])
    committing := fun hb => (h.committing hb).trans (by simp [hpc])
    atBoot := fun hb' => absurd hb' (by simp [hb])
    done := by simp [hlen] }

theorem logStep (h : LogInv start d₀ s) (hs : s.logStep start = .ok s') :
    LogInv start d₀ s' := by
  unfold Sys.logStep at hs
  split at hs <;> rename_i hpc
  · cases hs
  · exact h.readHeadStep hpc hs
  · split at hs
    · cases hs
      exact h.commit hpc
    · rename_i hn
      cases hs
      have hph := h.phase
      simp only [Phase, hpc] at hph
      have hlh : s.lh = [] := eq_nil_of_length_eq_zero (by omega)
      have hcur : s.cur = [] := by
        refine eq_nil_iff_forall_not_mem.mpr fun u hu => ?_
        simpa [hlh] using h.curLh u hu
      exact h.goto (by simp [hpc]) (by simp) (by rw [hpc]; rfl) rfl (by rw [hpc]; rfl)
        ⟨hph.1, hph.2.1, ⟨hph.2.2, hcur⟩, hlh⟩ trivial
  · exact h.writeLogStep hpc hs
  · exact h.writeHeadStep hpc hs
  · exact h.installStep hpc hs
  · cases hs
    have hph := h.phase
    simp only [Phase, hpc] at hph
    exact { h with
      cache := by simpa [Sys.refs, Sys.pins, hpc, Pc.refs, Pc.unpinned] using h.cache
      data := h.data.perm (by simp [Sys.refs, hpc, Pc.refs])
      regs := fun r hr => absurd hr (by simp [Pc.regs])
      clean := fun hb x hx hxp => h.clean hb x hx (by
        simpa [Sys.pins, hpc, Pc.unpinned] using hxp)
      phase := ⟨hph.1, hph.2.1, hph.2.2.1.1⟩
      pcData := trivial
      opsOff := fun _ => rfl
      committing := fun _ => by simp
      atBoot := fun hb => absurd hb (by simp [hph.1]) }

end LogInv

/-! ## Boot, crash and the whole system -/

theorem cacheInv_binit : CacheInv .binit [] [] where
  nodup := nodup_reverse.mpr (nodup_finRange _)
  all i := mem_reverse.mpr (mem_finRange i)
  refcnt i := by simp [Bcache.binit, nref, npin]
  locked i := by simp [Bcache.binit, nlock]
  uniq i j b hi := absurd hi.1 (by simp [Bcache.binit, ROOTDEV])
  dev r hr := absurd hr (by simp)
  valid r hr := absurd hr (by simp)
  pinned b hb := absurd hb (by simp)

/-- A system rebooted from a disk that stands for the groups of its history is in order. -/
theorem LogInv.of_crash (hdone : s.done ≤ s.sealed.length)
    (hhdr : HeaderOk start (header start s.disk))
    (hrec : ∀ b, Home start b → recovered start s.disk b = s.committed d₀ b) :
    LogInv start d₀ s.crash where
  cache := cacheInv_binit
  data i hd := absurd hd (by simp [Sys.crash, boot, Bcache.binit, ROOTDEV])
  regs r hr := absurd hr (by simp [Sys.crash, boot, Pc.regs, BreadPc.regs])
  hhome x hx := absurd hx (by simp [Sys.crash, boot])
  lhOk := ⟨nodup_nil, fun b hb => absurd hb (by simp [Sys.crash, boot]), Nat.zero_le _⟩
  curLh u hu := absurd hu (by simp [Sys.crash, boot])
  clean hb := absurd hb (by simp [Sys.crash, boot])
  hdrOk := hhdr
  replay b hb := by
    rw [show s.crash.disk = s.disk from rfl, hrec b hb]
    simp [Sys.committed, Sys.crash, take_take]
  phase := rfl
  pcData := trivial
  out := rfl
  opsOff hne := absurd rfl hne
  committing hb := absurd hb (by simp [Sys.crash, boot])
  atBoot _ := ⟨rfl, rfl, rfl, length_take_of_le hdone, rfl⟩
  done := by simp [Sys.crash, hdone]

/-- **Every step keeps the log invariant.** -/
theorem LogInv.step {e : LogEv} (h : LogInv start d₀ s) (hs : logSysStep start s e = .ok s') :
    LogInv start d₀ s' := by
  cases e with
  | beginOp p => exact h.beginOp hs
  | bget p b => exact h.procBget hs
  | acquire hd => exact h.procAcquire hs
  | read hd => exact h.procRead hs
  | modify hd d => exact h.procModify hs
  | logWrite hd => exact h.logWrite hs
  | brelse hd => exact h.procBrelse hs
  | endOp p => exact h.endOp hs
  | log => exact h.logStep hs
  | crash =>
    cases hs
    exact .of_crash h.done h.hdrOk h.replay

/-- **Every run from a boot with an empty log keeps the log invariant.** -/
theorem LogInv.run {C : Sys → LogEv → Prop} (hd₀ : header start d₀ = [])
    (hr : Run (logSysStep start) C (boot d₀) s) : LogInv start d₀ s := by
  have h₀ : LogInv start d₀ (boot d₀) := by
    refine LogInv.of_crash (s := boot d₀) (le_refl _) ?_ fun b _ => recovered_of_nil hd₀ b
    rw [show (boot d₀).disk = d₀ from rfl, hd₀]
    exact ⟨nodup_nil, fun b hb => absurd hb (by simp), Nat.zero_le _⟩
  exact hr.invariant h₀ fun s e s' h _ hs => h.step hs

end Xv6
