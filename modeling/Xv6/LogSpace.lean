import Mathlib.Algebra.BigOperators.Group.List.Basic
import Mathlib.Data.Fintype.Card
import Xv6.LogHistory

/-!
# Space in the log and in the cache

`begin_op` admits an operation only if the log has room for `MAXOPBLOCKS`
blocks of every operation in progress, so the header never overflows
(`SpaceInv`). The panic of `log_write` is nevertheless reachable: it tests the
header before it looks for the block in it, and so also stops an operation that
logs a block again when the header is exactly full (`logWrite_panics_iff`).

A full header pins `LOGBLOCKS` buffers. There are `NBUF` of them, no more, so
the commit of a full header finds no buffer for the log block it wants to write
(`commit_finds_buffers_iff`).
-/

namespace Xv6

open List

variable {start : ℕ} {d₀ : ℕ → Bytes} {s s' : Sys}

/-! ## The header has room -/

/-- The process logs a block inside an operation, which thereby logs no more
than `MAXOPBLOCKS` distinct ones. -/
def Within (s : Sys) : LogEv → Prop
  | .logWrite h =>
    match s.opOf h.pid with
    | some o => (s.cache.buf h.buf).blockno ∈ o.used ∨ o.used.length < MAXOPBLOCKS
    | none => False
  | _ => True

instance (s : Sys) (e : LogEv) : Decidable (Within s e) := by
  unfold Within
  split
  · split <;> infer_instance
  · infer_instance

/-- How many more blocks an operation may log. -/
def Op.left (o : Op) : ℕ := MAXOPBLOCKS - o.used.length

/-- The header has room for what the operations in progress may still log. -/
structure SpaceInv (s : Sys) : Prop where
  nodup : ∀ o ∈ s.ops, o.used.Nodup
  used : ∀ o ∈ s.ops, ∀ b ∈ o.used, b ∈ s.lh
  room : s.ops ≠ [] → s.lh.length + (s.ops.map Op.left).sum ≤ LOGBLOCKS

namespace SpaceInv

theorem of_ops_nil (h : s.ops = []) : SpaceInv s :=
  ⟨by simp [h], by simp [h], by simp [h]⟩

theorem sum_left_le (ops : List Op) : (ops.map Op.left).sum ≤ ops.length * MAXOPBLOCKS := by
  induction ops with
  | nil => simp
  | cons o ops ih =>
    have : o.left ≤ MAXOPBLOCKS := Nat.sub_le ..
    simp only [map_cons, sum_cons, length_cons, Nat.succ_mul]
    omega

theorem beginOp {p : ℕ} (h : SpaceInv s) (hl : LogInv start d₀ s) (hs : s.beginOp p = .ok s') :
    SpaceInv s' := by
  unfold Sys.beginOp at hs
  split_ifs at hs
  cases hs
  refine ⟨?_, ?_, fun _ => ?_⟩
  · simpa using h.nodup
  · simpa using h.used
  · have hle := sum_left_le (⟨p, s.nextOp, []⟩ :: s.ops)
    rw [length_cons, ← hl.out] at hle
    dsimp only
    omega

theorem logWrite {hd : Handle} (h : SpaceInv s) (hw : Within s (.logWrite hd))
    (hs : s.logWrite hd = .ok s') : SpaceInv s' := by
  unfold Sys.logWrite at hs
  split_ifs at hs
  split at hs
  · cases hs
  rename_i o ho
  cases hs
  simp only [Within, ho] at hw
  generalize (s.cache.buf hd.buf).blockno = b at *
  have hmem := LogInv.opOf_mem ho
  have hlh : ∀ x, x ∈ s.lh ∨ x = b → x ∈ if b ∈ s.lh then s.lh else s.lh ++ [b] := by
    intro x hx
    split
    · rename_i hb
      exact hx.elim id fun hx => hx ▸ hb
    · simpa using hx
  have hsum := sum_map_erase Op.left hmem
  have hroom := h.room (ne_nil_of_mem hmem)
  have hused := h.used o hmem
  refine ⟨fun x hx => ?_, fun x hx y hy => ?_, fun _ => ?_⟩
  · rcases mem_cons.mp hx with rfl | hx
    · have := h.nodup o hmem
      simp only [Sys.Op.log]
      split
      · exact this
      · rename_i hb
        exact nodup_cons.mpr ⟨hb, this⟩
    · exact h.nodup x (mem_of_mem_erase hx)
  · rcases mem_cons.mp hx with rfl | hx
    · simp only [Sys.Op.log] at hy
      split at hy
      · exact hlh y (.inl (hused y hy))
      · rcases mem_cons.mp hy with rfl | hy
        · exact hlh y (.inr rfl)
        · exact hlh y (.inl (hused y hy))
    · exact hlh y (.inl (h.used x (mem_of_mem_erase hx) y hy))
  · -- a block new to the header is new to the operation, and takes one of its places
    simp only [map_cons, sum_cons, Op.left, Sys.Op.log] at hsum hroom ⊢
    by_cases hbu : b ∈ o.used
    · rw [if_pos hbu, if_pos (hused b hbu)]
      omega
    · rw [if_neg hbu, length_cons]
      have := hw.resolve_left hbu
      split
      · omega
      · simp only [length_append, length_singleton]
        omega

theorem endOp {p : ℕ} (h : SpaceInv s) (hs : s.endOp p = .ok s') : SpaceInv s' := by
  unfold Sys.endOp at hs
  split at hs
  · cases hs
  rename_i o ho
  have hmem := LogInv.opOf_mem ho
  have hsum := sum_map_erase Op.left hmem
  have hroom := h.room (ne_nil_of_mem hmem)
  split_ifs at hs <;> cases hs
  all_goals
    refine ⟨fun x hx => h.nodup x (mem_of_mem_erase hx),
      fun x hx => h.used x (mem_of_mem_erase hx), fun _ => ?_⟩
    dsimp only
    omega

theorem step {e : LogEv} (h : SpaceInv s) (hl : LogInv start d₀ s) (hw : Within s e)
    (hs : logSysStep start s e = .ok s') : SpaceInv s' := by
  cases e with
  | beginOp p => exact h.beginOp hl hs
  | logWrite hd => exact h.logWrite hw hs
  | endOp p => exact h.endOp hs
  | log =>
    -- the log thread only runs when there is no operation
    refine of_ops_nil ?_
    obtain ⟨⟨hledger, -⟩, -⟩ := hl.logStep_frame hs
    rw [show s'.ops = s.ops from congrArg Prod.fst hledger]
    by_contra hne
    simp [logSysStep, Sys.logStep, hl.opsOff hne] at hs
  | crash =>
    cases hs
    exact of_ops_nil rfl
  | _ =>
    obtain ⟨c, hs', rfl⟩ := onBuf_frame rfl hs
    exact ⟨h.nodup, h.used, h.room⟩

theorem run (hd₀ : header start d₀ = []) (hr : Run (logSysStep start) Within (boot d₀) s) :
    LogInv start d₀ s ∧ SpaceInv s := by
  refine hr.invariant (I := fun s => LogInv start d₀ s ∧ SpaceInv s)
    ⟨LogInv.run hd₀ (C := Within) .refl, of_ops_nil rfl⟩ fun s e s' h hw hs => ?_
  exact ⟨h.1.step hs, h.2.step h.1 hw hs⟩

end SpaceInv

/-- **When `log_write` panics.** In every run in which each operation logs at
most `MAXOPBLOCKS` distinct blocks the header never overflows, and `log_write`
panics with "too big a transaction" exactly when it is given a block that is in
the header already and the header is full. -/
theorem logWrite_panics_iff (hd₀ : header start d₀ = [])
    (hr : Run (logSysStep start) Within (boot d₀) s) :
    s.lh.length ≤ LOGBLOCKS ∧ ∀ h, Within s (.logWrite h) →
      (s.logWrite h = .panic "too big a transaction" ↔
        (h ∈ s.handles ∧ (h.stage = .ready ∨ h.stage = .dirty)) ∧ s.lh.length = LOGBLOCKS ∧
          (s.cache.buf h.buf).blockno ∈ s.lh) := by
  obtain ⟨hl, hsp⟩ := SpaceInv.run hd₀ hr
  refine ⟨hl.lhOk.len, fun h hw => ⟨fun hp => ?_, fun ⟨hok, hfull, _⟩ => ?_⟩⟩
  · unfold Sys.logWrite at hp
    split at hp
    case isFalse => cases hp
    rename_i hok
    refine ⟨hok, ?_⟩
    split at hp
    · rename_i hge
      have hle := hl.lhOk.len
      refine ⟨by omega, ?_⟩
      by_contra hb
      -- the block is new, so its operation has a place left, and so has the header
      simp only [Within] at hw
      split at hw
      · rename_i o ho
        have hmem := LogInv.opOf_mem ho
        have hnew := hw.resolve_left fun hu => hb (hsp.used o hmem _ hu)
        have hroom := hsp.room (ne_nil_of_mem hmem)
        rw [← sum_map_erase Op.left hmem, Op.left] at hroom
        omega
      · exact hw
    · split at hp
      · simp at hp
      · split at hp <;> cases hp
  · rw [Sys.logWrite, if_pos hok, if_pos (by omega)]

/-- Boot, and three operations that log ten blocks each, every block once. -/
def fullEvs : List LogEv :=
  List.replicate 12 LogEv.log ++ [LogEv.beginOp 0, .beginOp 1, .beginOp 2] ++
    (List.range 30).flatMap fun k =>
      updateEvs (k / 10) (100 + k) ⟨(k + 1) % NBUF, Nat.mod_lt _ (by decide)⟩ fun _ => 1

/-- After `fullEvs`, the first operation reads its first block again. -/
def relogState : Sys :=
  (runList (logSysStep 2) (boot fun _ _ => 0) (fullEvs ++
    [LogEv.bget 0 100, .acquire ⟨0, ⟨1, one_lt_NBUF⟩, .waiting⟩,
      .read ⟨0, ⟨1, one_lt_NBUF⟩, .locked⟩])).getD (boot fun _ _ => 0)

theorem relogState_run : Run (logSysStep 2) Within (boot fun _ _ => 0) relogState :=
  .of_checkList (c := fun s e => decide (Within s e)) (fun _ _ h => of_decide_eq_true h)
    (by decide +kernel) _

theorem logWrite_panics_iff_relogState :
    relogState.lh.length ≤ LOGBLOCKS ∧ ∀ h, Within relogState (.logWrite h) →
      (relogState.logWrite h = .panic "too big a transaction" ↔
        (h ∈ relogState.handles ∧ (h.stage = .ready ∨ h.stage = .dirty)) ∧
          relogState.lh.length = LOGBLOCKS ∧
          (relogState.cache.buf h.buf).blockno ∈ relogState.lh) :=
  logWrite_panics_iff (by decide +kernel) relogState_run

/-- Three operations of ten distinct blocks each fill the header; then the
first of them logs its first block once more, and the system panics. -/
theorem logWrite_panics_on_relog :
    ∃ s h, Run (logSysStep 2) Within (boot fun _ _ => 0) s ∧ Within s (.logWrite h) ∧
      s.logWrite h = .panic "too big a transaction" :=
  ⟨relogState, ⟨0, ⟨1, by decide⟩, .ready⟩, relogState_run, by decide +kernel,
    Outcome.eq_panic_of_message (by decide +kernel)⟩

/-! ## The cache has room -/

namespace CacheInv

variable {c : Bcache} {refs : List Ref} {pins : List ℕ}

/-- The buffers the log has pinned. -/
def pinnedBufs (c : Bcache) (pins : List ℕ) : Finset BufId :=
  Finset.univ.filter fun i => (c.buf i).dev = ROOTDEV ∧ (c.buf i).blockno ∈ pins

theorem mem_pinnedBufs {i : BufId} :
    i ∈ pinnedBufs c pins ↔ (c.buf i).dev = ROOTDEV ∧ (c.buf i).blockno ∈ pins := by
  simp [pinnedBufs]

/-- Different pinned buffers hold different blocks. -/
theorem card_pinnedBufs_le (h : CacheInv c refs pins) : (pinnedBufs c pins).card ≤ pins.length := by
  refine le_trans (Finset.card_le_card_of_injOn (t := pins.toFinset)
    (fun i => (c.buf i).blockno) (fun i hi => ?_) fun i hi j hj hij => ?_) pins.toFinset_card_le
  · simpa using (mem_pinnedBufs.mp hi).2
  · exact h.uniq i j _ ⟨(mem_pinnedBufs.mp hi).1, hij⟩ ⟨(mem_pinnedBufs.mp hj).1, rfl⟩

/-- Every pinned block has a buffer. -/
theorem length_le_card_pinnedBufs (h : CacheInv c refs pins) (hnd : pins.Nodup) :
    pins.length ≤ (pinnedBufs c pins).card := by
  rw [← toFinset_card_of_nodup hnd]
  refine Finset.card_le_card_of_surjOn (fun i => (c.buf i).blockno) fun b hb => ?_
  have hb : b ∈ pins := by simpa using hb
  obtain ⟨i, hi, -⟩ := h.pinned b hb
  exact ⟨i, mem_pinnedBufs.mpr ⟨hi.1, hi.2 ▸ hb⟩, hi.2⟩

/-- Fewer references and pins than buffers: `bget` finds one. -/
theorem bget_ne_none (h : CacheInv c refs pins) (hlt : refs.length + pins.length < NBUF) (b : ℕ) :
    c.bget ROOTDEV b ≠ none := by
  intro hnone
  have hcnt := (Bcache.bget_eq_none.mp hnone).2
  have hcover : (Finset.univ : Finset BufId) ⊆
      (refs.map Prod.fst).toFinset ∪ pinnedBufs c pins := by
    intro i _
    have h0 := hcnt i (h.all i)
    rw [h.refcnt i] at h0
    by_cases hp : i ∈ pinnedBufs c pins
    · exact Finset.mem_union_right _ hp
    · have hnp : npin c pins i = 0 := if_neg fun hc => hp (mem_pinnedBufs.mpr hc)
      obtain ⟨r, hr, hri⟩ := countP_pos_iff.mp (show 0 < nref refs i by omega)
      exact Finset.mem_union_left _ (mem_toFinset.mpr
        (mem_map.mpr ⟨r, hr, of_decide_eq_true hri⟩))
  have h1 := Finset.card_le_card hcover
  have h2 := Finset.card_union_le (refs.map Prod.fst).toFinset (pinnedBufs c pins)
  have h3 := (refs.map Prod.fst).toFinset_card_le
  have h4 := h.card_pinnedBufs_le
  rw [Finset.card_univ, Fintype.card_fin] at h1
  rw [length_map] at h3
  omega

/-- A pinned block is cached, so `bget` finds it. -/
theorem bget_pinned (h : CacheInv c refs pins) {b : ℕ} (hb : b ∈ pins) :
    c.bget ROOTDEV b ≠ none := by
  intro hnone
  obtain ⟨i, hi, -⟩ := h.pinned b hb
  exact (Bcache.bget_eq_none.mp hnone).1 i (h.all i) hi

/-- As many pins as buffers: `bget` of a block that is not pinned panics. -/
theorem bget_eq_none (h : CacheInv c refs pins) (hnd : pins.Nodup) (hge : NBUF ≤ pins.length)
    {b : ℕ} (hb : b ∉ pins) : c.bget ROOTDEV b = none := by
  have hall : pinnedBufs c pins = Finset.univ := by
    refine Finset.eq_univ_of_card _ (le_antisymm (Finset.card_le_univ _) ?_)
    exact hge.trans (h.length_le_card_pinnedBufs hnd)
  have hpin : ∀ i, (c.buf i).dev = ROOTDEV ∧ (c.buf i).blockno ∈ pins := fun i =>
    mem_pinnedBufs.mp (hall ▸ Finset.mem_univ i)
  refine Bcache.bget_eq_none.mpr ⟨fun i _ hi => hb (hi.2 ▸ (hpin i).2), fun i _ => ?_⟩
  have : npin c pins i = 1 := if_pos (hpin i)
  rw [h.refcnt i]
  omega

end CacheInv

/-- Only the log thread runs. -/
def LogOnly (_ : Sys) (e : LogEv) : Prop := e = .log

/-- A `bread` that does not panic in `bget` does not panic. -/
theorem breadStep_ne_panic {b : ℕ} {q : BreadPc} {k : BreadPc → Pc} {ret : BufId → Pc}
    {msg : String} (h : q = .bget → s.cache.bget ROOTDEV b ≠ none) :
    s.breadStep b q k ret ≠ .panic msg := by
  cases q <;> rw [Sys.breadStep]
  case bget =>
    split
    · rename_i hnone
      exact absurd hnone (h rfl)
    · simp
  case lock => split <;> simp
  case read => simp

/-- While a commit runs, the log thread finds the buffers it needs. -/
theorem logStep_ne_panic {msg : String} (h : LogInv start d₀ s) (hb : s.booting = false)
    (hh : s.handles = []) (hlen : s.lh.length < NBUF) : s.logStep start ≠ .panic msg := by
  have hph := h.phase
  have hpins : s.pins = s.lh.drop s.pc.unpinned := by simp [Sys.pins, hb]
  have hrefs : s.refs = s.pc.refs := by simp [Sys.refs, hh]
  -- as long as the thread has no other buffer, one is left over by the pins
  have hfree : s.pc.refs = [] → ∀ b, s.cache.bget ROOTDEV b ≠ none := fun h0 b =>
    h.cache.bget_ne_none (by rw [hrefs, h0, hpins, length_drop]; simp; omega) b
  -- with one buffer in use, the thread asks for a block the log has pinned
  have hpinned : ∀ t < s.lh.length, s.pc.unpinned ≤ t →
      s.cache.bget ROOTDEV (s.lh.getD t 0) ≠ none := fun t ht hle => by
    refine h.cache.bget_pinned ?_
    rw [hpins, mem_iff_getElem]
    refine ⟨t - s.pc.unpinned, by rw [length_drop]; omega, ?_⟩
    simp only [getElem_drop, getD_eq_getElem _ _ ht, Nat.add_sub_cancel' hle]
  unfold Sys.logStep
  split <;> rename_i hpc
  · simp
  · rename_i k
    cases k <;> simp [Phase, hpc, hb] at hph
  · split <;> simp
  · rename_i t k
    cases k <;> simp only [Phase, hpc] at hph <;> rw [Sys.writeLogStep]
    case test => split <;> simp
    case dst => exact breadStep_ne_panic fun hq => hfree (by rw [hpc, hq]; rfl) _
    case src => exact breadStep_ne_panic fun _ => hpinned t hph.2.1 (by simp [hpc, Pc.unpinned])
    all_goals simp
  · rename_i k
    cases k <;> rw [Sys.writeHeadStep]
    case hb => exact breadStep_ne_panic fun hq => hfree (by rw [hpc, hq]; rfl) _
    all_goals simp
  · rename_i t k
    cases k <;> simp only [Phase, hpc] at hph <;> rw [Sys.installStep]
    case test => split <;> simp
    case lbuf => exact breadStep_ne_panic fun hq => hfree (by rw [hpc, hq]; rfl) _
    case dbuf => exact breadStep_ne_panic fun _ => hpinned t hph.2.2.1 (by simp [hpc, Pc.unpinned])
    all_goals simp
  · simp

/-- A commit does not add to the header, and the system stays up. -/
theorem commit_step (h : LogInv start d₀ s) (hb : s.booting = false)
    (hs : s.logStep start = .ok s') :
    s'.booting = false ∧ (s'.lh = s.lh ∨ s'.lh = []) := by
  cases h.logEffect hs with
  | readHead hno => simp [hb] at hno
  | clear => exact ⟨hb, .inr rfl⟩
  | up => exact ⟨rfl, .inl rfl⟩
  | _ => exact ⟨hb, .inl rfl⟩

/-- **When a commit runs out of buffers.** In every run in which each operation
logs at most `MAXOPBLOCKS` distinct blocks, once the last `end_op` calls
`commit()` and no process holds a buffer, no `bread` of the commit panics if and
only if fewer than `NBUF` blocks are logged. -/
theorem commit_finds_buffers_iff (hd₀ : header start d₀ = [])
    (hr : Run (logSysStep start) Within (boot d₀) s) (hpc : s.pc = .commit)
    (hh : s.handles = []) :
    (∀ s', Run (logSysStep start) LogOnly s s' →
      logSysStep start s' .log ≠ .panic "bget: no buffers") ↔ s.lh.length < NBUF := by
  have hinv := LogInv.run hd₀ hr
  have hph := hinv.phase
  simp only [Phase, hpc] at hph
  constructor
  · intro hno
    by_contra hge
    -- `commit`, the test of the loop in `write_log`, and its first `bget`
    have hlt : 0 < s.lh.length := lt_of_lt_of_le (by decide) (not_lt.mp hge)
    have hrun : Run (logSysStep start) LogOnly s { s with
        sealed := s.sealed ++ [s.cur], cur := [], pc := .writeLog 0 .test } :=
      Run.refl.tail (e := .log) rfl (by simp [logSysStep, Sys.logStep, hpc, hlt])
    refine hno { s with
      sealed := s.sealed ++ [s.cur], cur := [], pc := .writeLog 0 (.dst .bget) }
      (hrun.tail (e := .log) rfl ?_) ?_
    · simp [logSysStep, Sys.logStep, Sys.writeLogStep, hlt]
    · have hpins : s.pins = s.lh := by simp [Sys.pins, hph.1, hpc, Pc.unpinned]
      have hnone : s.cache.bget ROOTDEV (start + 0 + 1) = none := by
        refine hinv.cache.bget_eq_none (hpins ▸ hinv.lhOk.nodup) (by rw [hpins]; omega) ?_
        rw [hpins]
        exact fun hm => (hinv.lhOk.home _ hm).ne_slot (j := 0) (by decide) rfl
      simp [logSysStep, Sys.logStep, Sys.writeLogStep, Sys.breadStep, hnone]
  · intro hlt s' hr'
    have hkeep : LogInv start d₀ s' ∧ s'.booting = false ∧ s'.handles = [] ∧
        s'.lh.length < NBUF := by
      refine hr'.invariant (I := fun t => LogInv start d₀ t ∧ t.booting = false ∧
        t.handles = [] ∧ t.lh.length < NBUF) ⟨hinv, hph.1, hh, hlt⟩ ?_
      rintro t e t' ⟨ht, hb, hhd, hlen⟩ rfl hs
      obtain ⟨hb', hlh⟩ := commit_step ht hb hs
      refine ⟨ht.step hs, hb', (ht.logStep_frame hs).1.2.trans hhd, ?_⟩
      rcases hlh with hlh | hlh <;> rw [hlh]
      · exact hlen
      · decide
    exact logStep_ne_panic hkeep.1 hkeep.2.1 hkeep.2.2.1 hkeep.2.2.2

/-- Three operations that log one block each, all ended. -/
def smallCommit : Sys :=
  (runList (logSysStep 2) (boot fun _ _ => 0) (List.replicate 12 LogEv.log ++
    [LogEv.beginOp 0, .beginOp 1, .beginOp 2] ++
    ((List.range 3).flatMap fun k =>
      updateEvs k (100 + k) ⟨(k + 1) % NBUF, Nat.mod_lt _ (by decide)⟩ fun _ => 1) ++
    [LogEv.endOp 0, .endOp 1, .endOp 2])).getD (boot fun _ _ => 0)

theorem commit_finds_buffers_iff_smallCommit :
    smallCommit.lh.length = 3 ∧
    ((∀ s', Run (logSysStep 2) LogOnly smallCommit s' →
      logSysStep 2 s' .log ≠ .panic "bget: no buffers") ↔ smallCommit.lh.length < NBUF) := by
  have hpc : smallCommit.pc = .commit := by
    have : (match smallCommit.pc with | .commit => true | _ => false) = true := by decide +kernel
    split at this
    · assumption
    · cases this
  have hrun : Run (logSysStep 2) Within (boot fun _ _ => 0) smallCommit :=
    .of_checkList (c := fun s e => decide (Within s e)) (fun _ _ h => of_decide_eq_true h)
      (by decide +kernel) _
  exact ⟨by decide +kernel, commit_finds_buffers_iff (by decide +kernel) hrun hpc
    (by decide +kernel)⟩

/-- Three operations of ten blocks each end, and `commit()` starts with every
buffer pinned. -/
def fullCommit : Sys :=
  (runList (logSysStep 2) (boot fun _ _ => 0) (fullEvs ++
    [LogEv.endOp 0, .endOp 1, .endOp 2])).getD (boot fun _ _ => 0)

/-- The commit of three operations of ten blocks each panics in its first `bget`. -/
theorem commit_panics_on_full_log :
    ∃ s, Run (logSysStep 2) Within (boot fun _ _ => 0) s ∧ s.handles = [] ∧ s.committing = true ∧
      ∃ s', Run (logSysStep 2) LogOnly s s' ∧
        logSysStep 2 s' .log = .panic "bget: no buffers" := by
  refine ⟨fullCommit, ?_, by decide +kernel, by decide +kernel,
    (runList (logSysStep 2) fullCommit [.log, .log]).getD fullCommit, ?_,
    Outcome.eq_panic_of_message (by decide +kernel)⟩
  · exact .of_checkList (c := fun s e => decide (Within s e)) (fun _ _ h => of_decide_eq_true h)
      (by decide +kernel) _
  · refine .of_checkList (c := fun _ e => match e with | .log => true | _ => false)
      (fun _ e he => ?_) (by decide +kernel) _
    cases e <;> first | exact rfl | cases he

end Xv6
