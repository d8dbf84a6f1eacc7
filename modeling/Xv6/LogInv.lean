import Mathlib.Data.List.GetD
import Xv6.CacheInv
import Xv6.Redo

/-!
# The invariant of the log

What holds in every reachable state of the log machine, whichever processes
run and wherever it crashes. The parts:

* `CacheInv`, `DataInv`: the buffer cache, with the log thread's own `bread`s
  counted from its control point;
* `clean`: a block the log does not pin is on disk as it should be;
* `replay`: what the *disk alone* stands for, after recovery, is the initial
  disk with the first `done` commit groups applied. This is the crash
  invariant: it speaks of nothing in memory;
* `Phase`: what is already on disk at each control point of `commit()` and
  `recover_from_log()`.
-/

namespace Xv6

/-! ## The header block -/

theorem foldl_putLE_of_notMem {l : List ℕ} {k a : ℕ} (h : a + 4 ≤ 4 + 4 * k) :
    ∀ b : Bytes, getLE 4 ((l.zipIdx k).foldl (fun b x => putLE 4 b (4 + 4 * x.2) x.1) b) a =
      getLE 4 b a := by
  induction l generalizing k with
  | nil => intro b; rfl
  | cons x l ih =>
    intro b
    rw [List.zipIdx_cons, List.foldl_cons, ih (by omega),
      getLE_putLE_of_disjoint _ _ (.inl (by omega))]

/-- After the loop of `write_head`, entry `j` of the header holds element `j`. -/
theorem foldl_putLE_getD {l : List ℕ} (hl : ∀ x ∈ l, x < 2 ^ 32) {k j : ℕ} (hj : j < l.length) :
    ∀ b : Bytes, getLE 4 ((l.zipIdx k).foldl (fun b x => putLE 4 b (4 + 4 * x.2) x.1) b)
      (4 + 4 * (k + j)) = l.getD j 0 := by
  induction l generalizing k j with
  | nil => simp at hj
  | cons x l ih =>
    intro b
    rw [List.zipIdx_cons, List.foldl_cons]
    cases j with
    | zero =>
      rw [foldl_putLE_of_notMem (by omega), List.getD_cons_zero, Nat.add_zero]
      exact getLE_putLE _ _ (by simpa using hl x List.mem_cons_self)
    | succ j =>
      have := ih (fun y hy => hl y (List.mem_cons_of_mem _ hy)) (k := k + 1) (j := j)
        (by simpa using hj) (putLE 4 b (4 + 4 * k) x)
      rw [List.getD_cons_succ, ← this]
      congr 2
      omega

/-- **The header block reads back what `write_head` put there.** -/
theorem readHeader_fillHeader {lh : List ℕ} (hlen : lh.length < 2 ^ 31)
    (hlh : ∀ x ∈ lh, x < 2 ^ 32) (b : Bytes) : readHeader (fillHeader lh b) = lh := by
  have hn : getLE 4 (fillHeader lh b) 0 = lh.length := by
    rw [fillHeader, foldl_putLE_of_notMem (by omega)]
    exact getLE_putLE _ _ (by omega)
  rw [readHeader, hn, if_pos hlen]
  refine List.ext_getElem (by simp) fun j hj hj' => ?_
  have := foldl_putLE_getD hlh (k := 0) hj' (putLE 4 b 0 lh.length)
  rw [Nat.zero_add, List.getD_eq_getElem _ _ hj'] at this
  simpa [fillHeader] using this

/-! ## What the log thread holds -/

/-- References of a `bread` in progress. -/
def BreadPc.refs : BreadPc → List Ref
  | .bget => []
  | .lock b => [(b, .waiting)]
  | .read b => [(b, .locked)]

/-- The buffer of a `bread` of `blockno` in progress. -/
def BreadPc.regs (blockno : ℕ) : BreadPc → List (BufId × ℕ)
  | .bget => []
  | .lock b => [(b, blockno)]
  | .read b => [(b, blockno)]

/-- The log thread's references, the newest first. -/
def Pc.refs : Pc → List Ref
  | .readHead (.hb q) => q.refs
  | .readHead (.copy b) => [(b, .ready)]
  | .readHead (.relse b) => [(b, .ready)]
  | .writeLog _ (.dst q) => q.refs
  | .writeLog _ (.src t q) => q.refs ++ [(t, .ready)]
  | .writeLog _ (.move t f) => [(f, .ready), (t, .ready)]
  | .writeLog _ (.write t f) => [(t, .dirty), (f, .ready)]
  | .writeLog _ (.relseSrc t f) => [(f, .ready), (t, .ready)]
  | .writeLog _ (.relseDst t) => [(t, .ready)]
  | .writeHead _ (.hb q) => q.refs
  | .writeHead _ (.fill b) => [(b, .ready)]
  | .writeHead _ (.write b) => [(b, .dirty)]
  | .writeHead _ (.relse b) => [(b, .ready)]
  | .install _ (.lbuf q) => q.refs
  | .install _ (.dbuf l q) => q.refs ++ [(l, .ready)]
  | .install _ (.move l d) => [(d, .ready), (l, .ready)]
  | .install _ (.write l d) => [(d, .dirty), (l, .ready)]
  | .install _ (.unpin l d) => [(l, .ready), (d, .ready)]
  | .install _ (.relseL l d) => [(l, .ready), (d, .ready)]
  | .install _ (.relseD d) => [(d, .ready)]
  | _ => []

/-- The log thread's buffers and the blocks they were obtained for. -/
def Pc.regs (start : ℕ) (lh : List ℕ) : Pc → List (BufId × ℕ)
  | .readHead (.hb q) => q.regs start
  | .readHead (.copy b) => [(b, start)]
  | .readHead (.relse b) => [(b, start)]
  | .writeLog t (.dst q) => q.regs (start + t + 1)
  | .writeLog t (.src x q) => (x, start + t + 1) :: q.regs (lh.getD t 0)
  | .writeLog t (.move x y) => [(x, start + t + 1), (y, lh.getD t 0)]
  | .writeLog t (.write x y) => [(x, start + t + 1), (y, lh.getD t 0)]
  | .writeLog t (.relseSrc x y) => [(x, start + t + 1), (y, lh.getD t 0)]
  | .writeLog t (.relseDst x) => [(x, start + t + 1)]
  | .writeHead _ (.hb q) => q.regs start
  | .writeHead _ (.fill b) => [(b, start)]
  | .writeHead _ (.write b) => [(b, start)]
  | .writeHead _ (.relse b) => [(b, start)]
  | .install t (.lbuf q) => q.regs (start + t + 1)
  | .install t (.dbuf x q) => (x, start + t + 1) :: q.regs (lh.getD t 0)
  | .install t (.move x y) => [(x, start + t + 1), (y, lh.getD t 0)]
  | .install t (.write x y) => [(x, start + t + 1), (y, lh.getD t 0)]
  | .install t (.unpin x y) => [(x, start + t + 1), (y, lh.getD t 0)]
  | .install t (.relseL x y) => [(x, start + t + 1), (y, lh.getD t 0)]
  | .install t (.relseD y) => [(y, lh.getD t 0)]
  | _ => []

/-- All references: the log thread's and the processes'. -/
def Sys.refs (s : Sys) : List Ref := s.pc.refs ++ s.handles.map fun h => (h.buf, h.stage)

/-- How many blocks of the header have been unpinned by `install_trans`. -/
def Pc.unpinned : Pc → ℕ
  | .install t (.relseL _ _) => t + 1
  | .install t (.relseD _) => t + 1
  | .install t _ => t
  | _ => 0

/-- The blocks pinned by the log. -/
def Sys.pins (s : Sys) : List ℕ := if s.booting then [] else s.lh.drop s.pc.unpinned

/-! ## What the disk stands for -/

/-- Apply updates in order. -/
def applyUpds (d : ℕ → Bytes) (us : List Upd) : ℕ → Bytes :=
  us.foldl (fun d u => Function.update d u.blockno u.data) d

/-- The current contents: every recorded update applied. -/
def Sys.now (d₀ : ℕ → Bytes) (s : Sys) : ℕ → Bytes := applyUpds d₀ (s.sealed.flatten ++ s.cur)

/-- The contents after the first `done` commit groups. -/
def Sys.committed (d₀ : ℕ → Bytes) (s : Sys) : ℕ → Bytes :=
  applyUpds d₀ (s.sealed.take s.done).flatten

/-- What a valid buffer should hold: during recovery, and for the log area, the disk block. -/
def Sys.content (start : ℕ) (d₀ : ℕ → Bytes) (s : Sys) (b : ℕ) : Bytes :=
  if s.booting = false ∧ Home start b then s.now d₀ b else s.disk b

/-- The header on disk. -/
def header (start : ℕ) (disk : ℕ → Bytes) : List ℕ := readHeader (disk start)

/-- What the disk stands for after recovery. -/
def recovered (start : ℕ) (disk : ℕ → Bytes) : ℕ → Bytes :=
  replay (header start disk) (fun j => disk (start + j + 1)) disk

/-- A header that can be replayed. -/
structure HeaderOk (start : ℕ) (lh : List ℕ) : Prop where
  nodup : lh.Nodup
  home : ∀ b ∈ lh, Home start b
  len : lh.length ≤ LOGBLOCKS

/-! ## The phases of `commit()` and `recover_from_log()` -/

section

variable (start : ℕ) (d₀ : ℕ → Bytes) (s : Sys)

/-- The first `m` log blocks hold the contents to be committed. -/
def Logged (m : ℕ) : Prop := ∀ j < m, s.disk (start + j + 1) = s.now d₀ (s.lh.getD j 0)

/-- The first `m` blocks of the header are installed. -/
def Installed (m : ℕ) : Prop := ∀ j < m, s.disk (s.lh.getD j 0) = s.committed d₀ (s.lh.getD j 0)

/-- A group is sealed and its commit record not yet written. -/
def PreCommit : Prop :=
  s.booting = false ∧ header start s.disk = [] ∧ s.sealed.length = s.done + 1 ∧ s.cur = []

/-- Every sealed group is committed, and no group is open. -/
def Settled : Prop := s.sealed.length = s.done ∧ s.cur = []

/-- What is on disk at each control point. -/
def Phase : Prop :=
  match s.pc with
  | .off => s.booting = false ∧ header start s.disk = [] ∧ s.sealed.length = s.done
  | .commit => s.booting = false ∧ header start s.disk = [] ∧ s.sealed.length = s.done
  | .finish => s.booting = false ∧ header start s.disk = [] ∧ Settled s ∧ s.lh = []
  | .readHead (.relse _) => s.booting = true ∧ s.lh = header start s.disk
  | .readHead _ => s.booting = true
  | .writeLog t .test => PreCommit start s ∧ t ≤ s.lh.length ∧ Logged start d₀ s t
  | .writeLog t (.relseSrc _ _) => PreCommit start s ∧ t < s.lh.length ∧ Logged start d₀ s (t + 1)
  | .writeLog t (.relseDst _) => PreCommit start s ∧ t < s.lh.length ∧ Logged start d₀ s (t + 1)
  | .writeLog t _ => PreCommit start s ∧ t < s.lh.length ∧ Logged start d₀ s t
  | .writeHead false (.relse _) => s.booting = false ∧ header start s.disk = s.lh ∧ Settled s
  | .writeHead false _ => PreCommit start s ∧ Logged start d₀ s s.lh.length
  | .writeHead true (.relse _) => header start s.disk = [] ∧ Settled s ∧ s.lh = []
  | .writeHead true _ =>
    Settled s ∧ s.lh = [] ∧ ∀ b, Home start b → s.disk b = s.committed d₀ b
  | .install t .test =>
    header start s.disk = s.lh ∧ Settled s ∧ t ≤ s.lh.length ∧ Installed d₀ s t
  | .install t (.unpin _ _) =>
    header start s.disk = s.lh ∧ Settled s ∧ t < s.lh.length ∧ Installed d₀ s (t + 1) ∧
      s.booting = false
  | .install t (.relseL _ _) =>
    header start s.disk = s.lh ∧ Settled s ∧ t < s.lh.length ∧ Installed d₀ s (t + 1)
  | .install t (.relseD _) =>
    header start s.disk = s.lh ∧ Settled s ∧ t < s.lh.length ∧ Installed d₀ s (t + 1)
  | .install t _ => header start s.disk = s.lh ∧ Settled s ∧ t < s.lh.length ∧ Installed d₀ s t

/-- What the buffer about to be written by the log thread holds. -/
def PcData : Prop :=
  match s.pc with
  | .writeLog t (.write x _) => (s.cache.buf x).data = s.now d₀ (s.lh.getD t 0)
  | .writeHead _ (.write b) => readHeader (s.cache.buf b).data = s.lh
  | .install t (.write _ d) => (s.cache.buf d).data = s.disk (start + t + 1)
  | _ => True

/-- **The invariant of the log machine.** -/
structure LogInv : Prop where
  cache : CacheInv s.cache s.refs s.pins
  data : DataInv s.cache s.refs (s.content start d₀)
  regs : ∀ r ∈ s.pc.regs start s.lh, (s.cache.buf r.1).blockno = r.2
  hhome : ∀ h ∈ s.handles, Home start (s.cache.buf h.buf).blockno
  lhOk : HeaderOk start s.lh
  curLh : ∀ u ∈ s.cur, u.blockno ∈ s.lh
  clean : s.booting = false → ∀ b, Home start b → b ∉ s.pins → s.disk b = s.now d₀ b
  hdrOk : HeaderOk start (header start s.disk)
  replay : ∀ b, Home start b → recovered start s.disk b = s.committed d₀ b
  phase : Phase start d₀ s
  pcData : PcData start d₀ s
  out : s.outstanding = s.ops.length
  opsOff : s.ops ≠ [] → s.pc = .off
  committing : s.booting = false → (s.committing = true ↔ s.pc ≠ .off)
  atBoot : s.booting = true → s.handles = [] ∧ s.ops = [] ∧ s.committing = false ∧ Settled s
  done : s.done ≤ s.sealed.length

end

end Xv6
