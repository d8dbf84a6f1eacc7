import Xv6.LogRun

/-!
# Operations and commit groups

The history of a run: every update belongs to an operation, and an operation's
updates all go into one commit group, because `commit()` starts only when no
operation is in progress. With the log invariant this gives **crash
atomicity** (`crash_atomicity`): whatever the processes did, and wherever the
system crashed, also inside recovery, a recovered disk holds the updates of the
committed groups and nothing else.
-/

namespace Xv6

open List

variable {start : ℕ} {d₀ : ℕ → Bytes} {s s' : Sys}

/-! ## What the steps leave alone -/

/-- The operations and their history. -/
def Sys.ledger (s : Sys) : List Op × ℕ × List Upd × List ℕ := (s.ops, s.nextOp, s.hist, s.ended)

/-- The split of the history into groups. -/
def Sys.groups (s : Sys) : List (List Upd) := s.sealed ++ [s.cur]

/-- Does a process only work on a buffer? -/
def LogEv.onBuf : LogEv → Bool
  | .bget .. | .acquire .. | .read .. | .modify .. | .brelse .. => true
  | _ => false

/-- Work on a buffer changes the cache and the `bread`s in progress only. -/
theorem onBuf_frame {e : LogEv} (he : e.onBuf = true) (hs : logSysStep start s e = .ok s') :
    ∃ c hs, s' = { s with cache := c, handles := hs } := by
  cases e <;> cases he
  case bget =>
    simp only [logSysStep, Sys.procBget] at hs
    split_ifs at hs
    split at hs
    · cases hs
    · exact ⟨_, _, (Outcome.ok.inj hs).symm⟩
  all_goals
    simp only [logSysStep, Sys.procAcquire, Sys.procRead, Sys.procModify, Sys.procBrelse] at hs
    split_ifs at hs
    exact ⟨_, _, (Outcome.ok.inj hs).symm⟩

/-! ## What a step does to a buffer -/

/-- A step leaves a buffer's block alone, or recycles a buffer without references. -/
inductive BufStep (b b' : Buf) : Prop
  | same (hdev : b'.dev = b.dev) (hblk : b'.blockno = b.blockno)
      (hv : b'.valid = true → b.valid = true ∨ b.dev = ROOTDEV)
  | recycle (hr : b.refcnt = 0) (hv : b'.valid = false)

/-- What a step does to every buffer. -/
def CacheStep (c c' : Bcache) : Prop := ∀ i, BufStep (c.buf i) (c'.buf i)

namespace CacheStep

variable {c c' : Bcache} {i : BufId} {b : ℕ}

theorem refl (c : Bcache) : CacheStep c c := fun _ => .same rfl rfl .inl

/-- Writing fields of one buffer other than its block. -/
theorem set {nb : Buf} (hdev : nb.dev = (c.buf i).dev) (hblk : nb.blockno = (c.buf i).blockno)
    (hv : nb.valid = true → (c.buf i).valid = true ∨ (c.buf i).dev = ROOTDEV) :
    CacheStep c (c.set i nb) := by
  intro j
  by_cases hj : j = i
  · subst hj
    rw [Bcache.set_buf_self]
    exact .same hdev hblk hv
  · rw [Bcache.set_buf_ne _ _ hj]
    exact .same rfl rfl .inl

theorem bget (h : c.bget ROOTDEV b = some (i, c')) : CacheStep c c' := by
  rcases Bcache.bget_cases h with ⟨-, rfl⟩ | ⟨-, hr, rfl⟩
  · exact set rfl rfl .inl
  · intro j
    by_cases hj : j = i
    · subst hj
      rw [Bcache.set_buf_self]
      exact .recycle hr rfl
    · rw [Bcache.set_buf_ne _ _ hj]
      exact .same rfl rfl .inl

theorem fetch (disk : ℕ → Bytes) (hdev : (c.buf i).dev = ROOTDEV) :
    CacheStep c (Xv6.fetch disk c i) := by
  unfold Xv6.fetch
  split
  · exact refl c
  · exact set rfl rfl fun _ => .inr hdev

theorem brelse (c : Bcache) (i : BufId) : CacheStep c (c.brelse i) := by
  intro j
  by_cases hj : j = i
  · subst hj
    rw [Bcache.brelse_buf_self]
    exact .same rfl rfl .inl
  · rw [Bcache.brelse_buf_ne _ hj]
    exact .same rfl rfl .inl

end CacheStep

/-- **What one step of the log thread does.** -/
inductive LogEffect (s : Sys) : Sys → Prop where
  | work {d : ℕ → Bytes} {c : Bcache} {pc : Pc} (hc : CacheStep s.cache c)
      (hpc : s.pc.unpinned ≤ pc.unpinned) : LogEffect s { s with disk := d, cache := c, pc := pc }
  | readHead {lh : List ℕ} {pc : Pc} (hboot : s.booting = true) :
    LogEffect s { s with lh := lh, pc := pc }
  | closeGroup (hpc : s.pc = .commit) (hboot : s.booting = false) :
    LogEffect s { s with sealed := s.sealed ++ [s.cur], cur := [], pc := .writeLog 0 .test }
  | commit {d : ℕ → Bytes} {pc : Pc} (hboot : s.booting = false)
      (hpc : s.pc.unpinned ≤ pc.unpinned) :
    LogEffect s { s with disk := d, done := s.done + 1, pc := pc }
  | clear {pc : Pc} : LogEffect s { s with lh := [], pc := pc }
  | up {c : Bcache} (hc : CacheStep s.cache c) (hlh : s.lh = []) :
    LogEffect s { s with
      cache := c
      pc := if s.booting then .off else .finish
      booting := false }
  | finish (hpc : s.pc.unpinned ≤ 0) : LogEffect s { s with committing := false, pc := .off }

theorem LogEffect.cacheStep (h : LogEffect s s') : CacheStep s.cache s'.cache := by
  cases h with
  | work hc | up hc => exact hc
  | _ => exact .refl _

namespace LogInv

/-- A `bread` of the log thread. -/
theorem breadStep_effect (h : LogInv start d₀ s) {b : ℕ} {q : BreadPc} {k : BreadPc → Pc}
    {ret : BufId → Pc} (hs : s.breadStep b q k ret = .ok s') (hq : ∀ r ∈ q.refs, r ∈ s.pc.refs)
    (hk : ∀ q, s.pc.unpinned ≤ (k q).unpinned) (hret : ∀ i, s.pc.unpinned ≤ (ret i).unpinned) :
    LogEffect s s' := by
  cases q <;> rw [Sys.breadStep] at hs
  case bget =>
    split at hs
    · cases hs
    · rename_i i c hb
      cases hs
      exact .work (.bget hb) (hk _)
  case lock i =>
    split at hs
    · cases hs
    · cases hs
      exact .work (.set rfl rfl .inl) (hk _)
  case read i =>
    cases hs
    exact .work (.fetch _ (h.cache.dev _ (mem_append_left _ (hq _ mem_cons_self)))) (hret i)

theorem logEffect (h : LogInv start d₀ s) (hs : s.logStep start = .ok s') : LogEffect s s' := by
  have hph := h.phase
  unfold Sys.logStep at hs
  split at hs <;> rename_i hpc
  case h_1 => cases hs
  case h_2 k =>
    cases k <;> simp only [Phase, hpc] at hph <;> rw [Sys.readHeadStep] at hs
    case hb => refine h.breadStep_effect hs ?_ ?_ ?_ <;> simp [hpc, Pc.unpinned, Pc.refs]
    all_goals cases hs
    case copy => exact .readHead hph
    case relse => exact .work (.brelse _ _) (by simp [hpc, Pc.unpinned])
  case h_3 =>
    simp only [Phase, hpc] at hph
    split at hs <;> cases hs
    · exact .closeGroup hpc hph.1
    · exact .work (.refl _) (by simp [hpc, Pc.unpinned])
  case h_4 t k =>
    cases k <;> rw [Sys.writeLogStep] at hs
    case dst | src =>
      refine h.breadStep_effect hs ?_ ?_ ?_ <;> simp +contextual [hpc, Pc.unpinned, Pc.refs]
    case test => split at hs <;> cases hs <;> exact .work (.refl _) (by simp [hpc, Pc.unpinned])
    all_goals
      cases hs
      refine .work ?_ (by simp [hpc, Pc.unpinned])
    case move => exact .set rfl rfl .inl
    case write => exact .refl _
    case relseSrc | relseDst => exact .brelse _ _
  case h_5 clear k =>
    cases k <;> rw [Sys.writeHeadStep] at hs
    case hb => refine h.breadStep_effect hs ?_ ?_ ?_ <;> simp [hpc, Pc.unpinned, Pc.refs]
    all_goals cases hs
    case fill => exact .work (.set rfl rfl .inl) (by simp [hpc, Pc.unpinned])
    all_goals cases clear <;> simp only [Phase, hpc] at hph
    case write.refl.false => exact .commit hph.1.1 (by simp [hpc, Pc.unpinned])
    case write.refl.true => exact .work (.refl _) (by simp [hpc, Pc.unpinned])
    case relse.refl.false =>
      rw [Bool.not_false, Bool.and_true]
      exact .work (.brelse _ _) (by simp [hpc, Pc.unpinned])
    case relse.refl.true =>
      rw [Bool.not_true, Bool.and_false]
      exact .up (.brelse _ _) hph.2.2
  case h_6 t k =>
    cases k <;> rw [Sys.installStep] at hs
    case lbuf | dbuf =>
      refine h.breadStep_effect hs ?_ ?_ ?_ <;> simp +contextual [hpc, Pc.unpinned, Pc.refs]
    case test =>
      split at hs <;> cases hs
      · exact .work (.refl _) (by simp [hpc, Pc.unpinned])
      · exact .clear
    all_goals cases hs
    case write =>
      refine .work (.refl _) ?_
      rw [hpc]
      split <;> simp [Pc.unpinned]
    all_goals refine .work ?_ (by simp [hpc, Pc.unpinned])
    case move | unpin => exact .set rfl rfl .inl
    case relseL | relseD => exact .brelse _ _
  case h_7 =>
    cases hs
    exact .finish (by simp [hpc, Pc.unpinned])

/-- The log thread leaves the processes alone, and the groups too unless it
seals the open one at the start of `commit()`. -/
theorem logStep_frame (h : LogInv start d₀ s) (hs : s.logStep start = .ok s') :
    (s'.ledger = s.ledger ∧ s'.handles = s.handles) ∧
      (s'.groups = s.groups ∨ s.pc = .commit ∧ s'.sealed = s.groups ∧ s'.cur = []) := by
  cases h.logEffect hs with
  | closeGroup hpc => exact ⟨⟨rfl, rfl⟩, .inr ⟨hpc, rfl, rfl⟩⟩
  | _ => exact ⟨⟨rfl, rfl⟩, .inl rfl⟩

end LogInv

/-! ## The history invariant -/

/-- The updates of operation `id`, in order. -/
def updsOf (id : ℕ) (us : List Upd) : List Upd := us.filter (·.op == id)

@[simp] theorem updsOf_append (id : ℕ) (us vs : List Upd) :
    updsOf id (us ++ vs) = updsOf id us ++ updsOf id vs :=
  filter_append ..

theorem updsOf_eq_nil {id : ℕ} {us : List Upd} : updsOf id us = [] ↔ ∀ u ∈ us, u.op ≠ id := by
  simp [updsOf]

theorem mem_updsOf {id : ℕ} {us : List Upd} {u : Upd} :
    u ∈ updsOf id us ↔ u ∈ us ∧ u.op = id := by
  simp [updsOf]

/-- Two groups without a common operation. -/
def Apart (g g' : List Upd) : Prop := ∀ u ∈ g, ∀ u' ∈ g', u.op ≠ u'.op

/-- When each group has all the updates of an operation or none, and no two
groups share one, the same is true of the groups together. -/
theorem updsOf_flatten {all : List Upd} {id : ℕ} {gs : List (List Upd)}
    (hw : ∀ g ∈ gs, updsOf id g = [] ∨ updsOf id g = all) (ha : gs.Pairwise Apart) :
    updsOf id gs.flatten = [] ∨ updsOf id gs.flatten = all := by
  induction gs with
  | nil => exact .inl rfl
  | cons g gs ih =>
    rw [pairwise_cons] at ha
    rw [flatten_cons, updsOf_append]
    by_cases hg : updsOf id g = []
    · rw [hg, nil_append]
      exact ih (fun g' hg' => hw g' (mem_cons_of_mem _ hg')) ha.2
    · -- the operation is in `g`, so it is in none of the others
      obtain ⟨u, hu⟩ := exists_mem_of_ne_nil _ hg
      obtain ⟨hug, rfl⟩ := mem_updsOf.mp hu
      have hnil : updsOf u.op gs.flatten = [] := updsOf_eq_nil.mpr fun v hv => by
        obtain ⟨g', hg', hv'⟩ := mem_flatten.mp hv
        exact (ha.1 g' hg' u hug v hv').symm
      rw [hnil, append_nil]
      exact hw g mem_cons_self

/-- The history of a run. -/
structure HistInv (s : Sys) : Prop where
  whole : ∀ g ∈ s.groups, ∀ id, updsOf id g = [] ∨ updsOf id g = updsOf id s.hist
  apart : s.groups.Pairwise Apart
  opSealed : ∀ o ∈ s.ops, ∀ g ∈ s.sealed, updsOf o.id g = []
  opCur : ∀ o ∈ s.ops, updsOf o.id s.cur = updsOf o.id s.hist
  fresh : ∀ u ∈ s.hist, u.op < s.nextOp
  freshOp : ∀ o ∈ s.ops, o.id < s.nextOp
  sealedEnded : ∀ g ∈ s.sealed, ∀ u ∈ g, u.op ∈ s.ended
  curEnded : ∀ u ∈ s.cur, u.op ∈ s.ended ∨ ∃ o ∈ s.ops, o.id = u.op

namespace HistInv

theorem mem_hist (h : HistInv s) {g : List Upd} {u : Upd} (hg : g ∈ s.groups) (hu : u ∈ g) :
    u ∈ s.hist := by
  have hmem : u ∈ updsOf u.op g := mem_updsOf.mpr ⟨hu, rfl⟩
  rcases h.whole g hg u.op with h0 | h1
  · rw [h0] at hmem
    cases hmem
  · rw [h1] at hmem
    exact (mem_updsOf.mp hmem).1

/-- The invariant only looks at the operations and the groups. -/
theorem congr (h : HistInv s) (hc : s'.ledger = s.ledger) (hg : s'.groups = s.groups) :
    HistInv s' := by
  simp only [Sys.ledger, Prod.mk.injEq] at hc
  obtain ⟨hops, hnext, hhist, hend⟩ := hc
  obtain ⟨hsealed, hcur⟩ := append_inj' hg rfl
  have hcur : s'.cur = s.cur := singleton_inj.mp hcur
  exact {
    whole := by rw [hg, hhist]; exact h.whole
    apart := by rw [hg]; exact h.apart
    opSealed := by rw [hops, hsealed]; exact h.opSealed
    opCur := by rw [hops, hcur, hhist]; exact h.opCur
    fresh := by rw [hhist, hnext]; exact h.fresh
    freshOp := by rw [hops, hnext]; exact h.freshOp
    sealedEnded := by rw [hsealed, hend]; exact h.sealedEnded
    curEnded := by rw [hcur, hend, hops]; exact h.curEnded }

theorem beginOp {p : ℕ} (h : HistInv s) (hs : s.beginOp p = .ok s') : HistInv s' := by
  unfold Sys.beginOp at hs
  split_ifs at hs
  cases hs
  -- the new operation has no updates yet
  have hnew : ∀ us : List Upd, (∀ u ∈ us, u ∈ s.hist) → updsOf s.nextOp us = [] := fun us hus =>
    updsOf_eq_nil.mpr fun u hu => (h.fresh u (hus u hu)).ne
  refine { h with
    opSealed := fun o ho g hg => ?_
    opCur := fun o ho => ?_
    fresh := fun u hu => (h.fresh u hu).trans (Nat.lt_succ_self _)
    freshOp := fun o ho => ?_
    curEnded := fun u hu => ?_ }
  · rcases mem_cons.mp ho with rfl | ho
    · exact hnew g fun u hu => h.mem_hist (mem_append_left _ hg) hu
    · exact h.opSealed o ho g hg
  · rcases mem_cons.mp ho with rfl | ho
    · exact (hnew s.cur fun u hu => h.mem_hist (mem_append_right _ (.head _)) hu).trans
        (hnew s.hist fun u hu => hu).symm
    · exact h.opCur o ho
  · rcases mem_cons.mp ho with rfl | ho
    · exact Nat.lt_succ_self _
    · exact (h.freshOp o ho).trans (Nat.lt_succ_self _)
  · exact (h.curEnded u hu).imp_right fun ⟨o, ho, hid⟩ => ⟨o, mem_cons_of_mem _ ho, hid⟩

/-- An update recorded by an operation in progress goes to the end of the
history and of the open group. -/
theorem record (h : HistInv s) {o : Op} (o' : Op) (u : Upd) (ho : o ∈ s.ops) (hid : o'.id = o.id)
    (hu : u.op = o.id) :
    HistInv { s with
      ops := o' :: s.ops.erase o, hist := s.hist ++ [u], cur := s.cur ++ [u] } := by
  have hold : ∀ x ∈ o' :: s.ops.erase o, ∃ y ∈ s.ops, y.id = x.id := by
    intro x hx
    rcases mem_cons.mp hx with rfl | hx
    · exact ⟨o, ho, hid.symm⟩
    · exact ⟨x, mem_of_mem_erase hx, rfl⟩
  have hnone : ∀ id, id ≠ o.id → updsOf id [u] = [] := fun id hne =>
    updsOf_eq_nil.mpr fun v hv => by
      rw [mem_singleton.mp hv, hu]
      exact hne.symm
  refine { h with
    whole := fun g hg id => ?_
    apart := ?_
    opSealed := fun x hx g hg => ?_
    opCur := fun x hx => ?_
    fresh := fun v hv => ?_
    freshOp := fun x hx => ?_
    curEnded := fun v hv => ?_ }
  · rcases mem_append.mp hg with hg | hg
    · by_cases hio : id = o.id
      · exact .inl (hio ▸ h.opSealed o ho g hg)
      · simpa [hnone id hio] using h.whole g (mem_append_left _ hg) id
    · rw [mem_singleton.mp hg]
      by_cases hio : id = o.id
      · subst hio
        right
        simp [h.opCur o ho]
      · simpa [hnone id hio] using h.whole s.cur (mem_append_right _ (.head _)) id
  · obtain ⟨h1, -, h3⟩ := pairwise_append.mp h.apart
    refine pairwise_append.mpr ⟨h1, pairwise_singleton .., fun g hg g' hg' => ?_⟩
    rw [mem_singleton.mp hg']
    intro v hv v' hv'
    rcases mem_append.mp hv' with hv' | hv'
    · exact h3 g hg s.cur (.head _) v hv v' hv'
    · rw [mem_singleton.mp hv', hu]
      exact updsOf_eq_nil.mp (h.opSealed o ho g hg) v hv
  · obtain ⟨y, hy, hyx⟩ := hold x hx
    exact hyx ▸ h.opSealed y hy g hg
  · obtain ⟨y, hy, hyx⟩ := hold x hx
    simp [← hyx, h.opCur y hy]
  · rcases mem_append.mp hv with hv | hv
    · exact h.fresh v hv
    · rw [mem_singleton.mp hv, hu]
      exact h.freshOp o ho
  · obtain ⟨y, hy, hyx⟩ := hold x hx
    exact hyx ▸ h.freshOp y hy
  · rcases mem_append.mp hv with hv | hv
    · refine (h.curEnded v hv).imp_right fun ⟨x, hx, hxv⟩ => ?_
      by_cases hxo : x = o
      · exact ⟨o', mem_cons_self, by rw [hid, ← hxo, hxv]⟩
      · exact ⟨x, mem_cons_of_mem _ ((mem_erase_of_ne hxo).mpr hx), hxv⟩
    · rw [mem_singleton.mp hv]
      exact .inr ⟨o', mem_cons_self, by rw [hid, hu]⟩

theorem logWrite {hd : Handle} (h : HistInv s) (hs : s.logWrite hd = .ok s') : HistInv s' := by
  unfold Sys.logWrite at hs
  split_ifs at hs
  split at hs
  · cases hs
  rename_i o ho
  cases hs
  exact (h.record (Sys.Op.log (s.cache.buf hd.buf).blockno o)
    ⟨o.id, (s.cache.buf hd.buf).blockno, (s.cache.buf hd.buf).data⟩
    (LogInv.opOf_mem ho) rfl rfl).congr rfl rfl

/-- `end_op` moves the operation to those that have ended. -/
theorem finish (h : HistInv s) {o : Op} :
    HistInv { s with ops := s.ops.erase o, ended := o.id :: s.ended } :=
  { h with
    opSealed := fun x hx => h.opSealed x (mem_of_mem_erase hx)
    opCur := fun x hx => h.opCur x (mem_of_mem_erase hx)
    freshOp := fun x hx => h.freshOp x (mem_of_mem_erase hx)
    sealedEnded := fun g hg u hu => mem_cons_of_mem _ (h.sealedEnded g hg u hu)
    curEnded := fun u hu => by
      rcases h.curEnded u hu with hu | ⟨x, hx, hxu⟩
      · exact .inl (mem_cons_of_mem _ hu)
      · by_cases hxo : x = o
        · exact .inl (by simp [← hxo, hxu])
        · exact .inr ⟨x, (mem_erase_of_ne hxo).mpr hx, hxu⟩ }

theorem endOp {p : ℕ} (h : HistInv s) (hs : s.endOp p = .ok s') : HistInv s' := by
  unfold Sys.endOp at hs
  split at hs
  · cases hs
  rename_i o ho
  split_ifs at hs <;> cases hs <;> exact (h.finish (o := o)).congr rfl rfl

/-- Sealing the open group; no operation is in progress. -/
theorem sealGroup (h : HistInv s) (hops : s.ops = []) (hc : s'.ledger = s.ledger)
    (hsealed : s'.sealed = s.groups) (hcur : s'.cur = []) : HistInv s' := by
  simp only [Sys.ledger, Prod.mk.injEq] at hc
  obtain ⟨hops', hnext, hhist, hend⟩ := hc
  rw [hops] at hops'
  have hg : s'.groups = s.groups ++ [[]] := by rw [Sys.groups, hsealed, hcur]
  refine ⟨fun g hgm id => ?_, ?_, by simp [hops'], by simp [hops'], hhist ▸ hnext ▸ h.fresh,
    by simp [hops'], fun g hgm u hu => ?_, by simp [hcur]⟩
  · rw [hg] at hgm
    rcases mem_append.mp hgm with hgm | hgm
    · exact hhist ▸ h.whole g hgm id
    · rw [mem_singleton.mp hgm]
      exact .inl rfl
  · rw [hg]
    exact pairwise_append.mpr ⟨h.apart, pairwise_singleton .., by simp [Apart]⟩
  · rw [hsealed] at hgm
    rw [hend]
    rcases mem_append.mp hgm with hgm | hgm
    · exact h.sealedEnded g hgm u hu
    · rw [mem_singleton.mp hgm] at hu
      simpa [hops] using h.curEnded u hu

theorem crash (h : HistInv s) : HistInv s.crash := by
  have hsub : s.crash.sealed.Sublist s.sealed := take_sublist ..
  refine ⟨fun g hg id => ?_, ?_, by simp [Sys.crash, boot], by simp [Sys.crash, boot], h.fresh,
    by simp [Sys.crash, boot], fun g hg => h.sealedEnded g (hsub.subset hg), by
      simp [Sys.crash, boot]⟩
  · rcases mem_append.mp hg with hg | hg
    · exact h.whole g (mem_append_left _ (hsub.subset hg)) id
    · rw [mem_singleton.mp hg]
      exact .inl rfl
  · refine pairwise_append.mpr ⟨?_, pairwise_singleton .., by simp [Apart, Sys.crash, boot]⟩
    exact (pairwise_append.mp h.apart).1.sublist hsub

theorem boot : HistInv (boot d₀) := by
  constructor <;> simp [Xv6.boot, Sys.groups, updsOf]

theorem step {e : LogEv} (h : HistInv s) (hl : LogInv start d₀ s)
    (hs : logSysStep start s e = .ok s') : HistInv s' := by
  cases e with
  | beginOp p => exact h.beginOp hs
  | logWrite hd => exact h.logWrite hs
  | endOp p => exact h.endOp hs
  | log =>
    obtain ⟨hc, hg | ⟨hpc, hsealed, hcur⟩⟩ := hl.logStep_frame hs
    · exact h.congr hc.1 hg
    · have hops : s.ops = [] := by
        by_contra hne
        have := hl.opsOff hne
        rw [hpc] at this
        cases this
      exact h.sealGroup hops hc.1 hsealed hcur
  | crash =>
    cases hs
    exact h.crash
  | _ =>
    obtain ⟨c, hs', rfl⟩ := onBuf_frame rfl hs
    exact h.congr rfl rfl

/-- **Every run keeps the history invariant.** -/
theorem run {C : Sys → LogEv → Prop} (hd₀ : header start d₀ = [])
    (hr : Run (logSysStep start) C (Xv6.boot d₀) s) : HistInv s := by
  suffices LogInv start d₀ s ∧ HistInv s from this.2
  refine hr.invariant (I := fun s => LogInv start d₀ s ∧ HistInv s)
    ⟨LogInv.run hd₀ (C := C) .refl, .boot⟩ fun s e s' h _ hs => ?_
  exact ⟨h.1.step hs, h.2.step h.1 hs⟩

end HistInv

/-! ## Crash atomicity -/

/-- Recovery neither adds to the history nor commits anything. -/
theorem recovery_step (h : LogInv start d₀ s) (hb : s.booting = true)
    (hs : s.logStep start = .ok s') :
    s'.sealed = s.sealed ∧ s'.done = s.done ∧ (s'.booting = true ∨ s'.pc = .off) := by
  cases h.logEffect hs with
  | closeGroup _ hno | commit hno => simp [hb] at hno
  | up => exact ⟨rfl, rfl, .inr (if_pos hb)⟩
  | _ => exact ⟨rfl, rfl, .inl hb⟩

/-- Only the log thread runs, and the system may crash: recovery, interrupted
and restarted any number of times. -/
def Recovering (_ : Sys) (e : LogEv) : Prop := e = .log ∨ e = .crash

/-- What recovery keeps, however often it is interrupted. -/
theorem recovery_run (h : LogInv start d₀ s) (hr : Run (logSysStep start) Recovering s.crash s') :
    LogInv start d₀ s' ∧ (s'.sealed = s.sealed.take s.done ∧ s'.done = s.done) ∧
      (s'.booting = true ∨ s'.pc = .off) := by
  refine hr.invariant (I := fun s' => LogInv start d₀ s' ∧
    (s'.sealed = s.sealed.take s.done ∧ s'.done = s.done) ∧ (s'.booting = true ∨ s'.pc = .off))
    ⟨.of_crash h.done h.hdrOk h.replay, ⟨rfl, rfl⟩, .inl rfl⟩ fun t e t' ht he hs => ?_
  obtain ⟨hinv, ⟨hsealed, hdone⟩, hb⟩ := ht
  refine ⟨hinv.step hs, ?_⟩
  rcases he with rfl | rfl
  · rcases hb with hb | hoff
    · obtain ⟨h1, h2, h3⟩ := recovery_step hinv hb hs
      exact ⟨⟨h1.trans hsealed, h2.trans hdone⟩, h3⟩
    · simp [logSysStep, Sys.logStep, hoff] at hs
  · cases hs
    refine ⟨⟨?_, hdone⟩, .inl rfl⟩
    rw [Sys.crash, hdone, hsealed, take_take, Nat.min_self]

/-- **Crash atomicity of the redo log.** Processes run operations in any
interleaving from a disk `d₀` with an empty log; the system crashes in state
`s` and recovers, possibly after crashing again during recovery any number of
times. Then the home blocks are `d₀` with the first `k` commit groups applied,
in order, for some `k`: every group whose `write_head` completed is among them,
each operation has all of its updates among them or none, and all updates
among them are of operations that had reached `end_op`. -/
theorem crash_atomicity (hd₀ : header start d₀ = [])
    (hr : Run (logSysStep start) (fun _ _ => True) (boot d₀) s)
    (hrec : Run (logSysStep start) Recovering s.crash s') (hdone : s'.booting = false) :
    ∃ k, s.done ≤ k ∧ k ≤ s.sealed.length ∧
      (∀ b, Home start b → s'.disk b = applyUpds d₀ (s.sealed.take k).flatten b) ∧
      (∀ id, updsOf id (s.sealed.take k).flatten = [] ∨
        updsOf id (s.sealed.take k).flatten = updsOf id s.hist) ∧
      ∀ u ∈ (s.sealed.take k).flatten, u.op ∈ s.ended := by
  have hinv := LogInv.run hd₀ hr
  have hhist := HistInv.run hd₀ hr
  obtain ⟨hinv', ⟨hsealed, hdone'⟩, hb⟩ := recovery_run hinv hrec
  have hoff : s'.pc = .off := hb.resolve_left (by simp [hdone])
  have hph := hinv'.phase
  simp only [Phase, hoff] at hph
  have hsub : (s.sealed.take s.done).Sublist s.groups :=
    (take_sublist ..).trans (sublist_append_left ..)
  refine ⟨s.done, le_refl _, hinv.done, fun b hb => ?_, fun id => ?_, fun u hu => ?_⟩
  · rw [hinv'.disk_committed hph.2.1 hb, Sys.committed, hsealed, hdone', take_take,
      Nat.min_self]
  · exact updsOf_flatten (fun g hg => hhist.whole g (hsub.subset hg) id) (hhist.apart.sublist hsub)
  · obtain ⟨g, hg, hug⟩ := mem_flatten.mp hu
    exact hhist.sealedEnded g (mem_of_mem_take hg) u hug

theorem one_lt_NBUF : 1 < NBUF := by decide

/-- The events of an update of `blockno`, cached in buffer `i`, by process `p`. -/
def updateEvs (p blockno : ℕ) (i : BufId) (d : Bytes) : List LogEv :=
  [.bget p blockno, .acquire ⟨p, i, .waiting⟩, .read ⟨p, i, .locked⟩, .modify ⟨p, i, .ready⟩ d,
    .logWrite ⟨p, i, .dirty⟩, .brelse ⟨p, i, .ready⟩]

/-- Boot from a zero disk with the log at block 2, one operation that sets
block 100 to sevens, and its commit up to the write of the header. -/
def committedState : Sys :=
  (runList (logSysStep 2) (boot fun _ _ => 0) (List.replicate 12 LogEv.log ++
    [LogEv.beginOp 0] ++ updateEvs 0 100 ⟨1, one_lt_NBUF⟩ (fun _ => 7) ++ [LogEv.endOp 0] ++
    List.replicate 18 LogEv.log)).getD (boot fun _ _ => 0)

/-- A recovery that crashes after eight steps, and the one after it. -/
def recoveredState : Sys :=
  (runList (logSysStep 2) committedState.crash
    (List.replicate 8 LogEv.log ++ [LogEv.crash] ++ List.replicate 23 LogEv.log)).getD
    committedState.crash

theorem crash_atomicity_committedState :
    committedState.done = 1 ∧ recoveredState.booting = false ∧
    ∃ k, committedState.done ≤ k ∧ k ≤ committedState.sealed.length ∧
      (∀ b, Home 2 b → recoveredState.disk b =
        applyUpds (fun _ _ => 0) (committedState.sealed.take k).flatten b) ∧
      (∀ id, updsOf id (committedState.sealed.take k).flatten = [] ∨
        updsOf id (committedState.sealed.take k).flatten = updsOf id committedState.hist) ∧
      ∀ u ∈ (committedState.sealed.take k).flatten, u.op ∈ committedState.ended := by
  refine ⟨by decide +kernel, by decide +kernel, ?_⟩
  refine crash_atomicity (by decide +kernel) ?_ ?_ (by decide +kernel)
  · exact .of_checkList (c := fun _ _ => true) (fun _ _ _ => trivial) (by decide +kernel) _
  · refine .of_checkList (c := fun _ e => match e with | .log | .crash => true | _ => false)
      (fun _ e he => ?_) (by decide +kernel) _
    cases e <;> first | exact .inl rfl | exact .inr rfl | cases he

end Xv6
