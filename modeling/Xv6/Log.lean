import Xv6.Bio
import Xv6.Machine

/-!
# The log (`kernel/log.c`) and the processes that use it

The whole system around the log as one step machine: the disk, the buffer
cache, the in-memory log, any number of processes, and the one thread that is
inside `commit()` or `recover_from_log()`. A step is one section of the source
that runs under a spin lock, one wait for a sleep lock, or one disk transfer.

* A process runs operations `begin_op; updates; end_op`. An update is `bread`
  (three steps: `bget`, `acquiresleep`, the transfer), a modification in place,
  `log_write` and `brelse`. Processes outside an operation may `bread` too.
* `Pc` is the control point of the thread inside `commit()` or
  `recover_from_log()`, one constructor for each statement of `write_log`,
  `write_head`, `install_trans` and `read_head`.
* `crash` may come between any two steps: the disk stays, everything in memory
  is as after a boot, and recovery starts.

The fields from `hist` on of `Sys` are history: the updates recorded by
`log_write`, their split into commit groups, which operations have reached
`end_op`, and how many groups have had their non-empty `write_head` reach the
disk. No step looks at them.
-/

namespace Xv6

/-! ## The log header -/

/-- `read_head`: the block numbers a header block lists; `n` is a signed int. -/
def readHeader (b : Bytes) : List ℕ :=
  if getLE 4 b 0 < 2 ^ 31 then
    (List.range (getLE 4 b 0)).map fun i => getLE 4 b (4 + 4 * i)
  else []

/-- `write_head` on the buffer's bytes: `n`, and the first `n` block numbers. -/
def fillHeader (lh : List ℕ) (b : Bytes) : Bytes :=
  lh.zipIdx.foldl (fun b x => putLE 4 b (4 + 4 * x.2) x.1) (putLE 4 b 0 lh.length)

/-- A block outside the log area, which file system operations may use. -/
def Home (start b : ℕ) : Prop := b < 2 ^ 32 ∧ ¬(start ≤ b ∧ b ≤ start + LOGBLOCKS)

instance (start b : ℕ) : Decidable (Home start b) := by unfold Home; infer_instance

/-! ## The state -/

/-- How far a `bread` whose buffer has not been released has come. -/
inductive Stage : Type where
  /-- `bget` has counted the reference, the sleep lock is not yet held -/
  | waiting
  /-- the sleep lock is held, the contents may still have to be read -/
  | locked
  /-- `bread` has returned -/
  | ready
  /-- modified in place, not yet passed to `log_write` or `bwrite` -/
  | dirty
  deriving DecidableEq

/-- A `bread` by process `pid` that is not yet matched by a `brelse`. -/
structure Handle where
  /-- the process -/
  pid : ℕ
  /-- the buffer -/
  buf : BufId
  /-- how far it has come -/
  stage : Stage
  deriving DecidableEq

/-- An operation between its `begin_op` and its `end_op`. -/
structure Op where
  /-- the process -/
  pid : ℕ
  /-- the number of the operation -/
  id : ℕ
  /-- the distinct blocks it has logged -/
  used : List ℕ
  deriving DecidableEq

/-- An update recorded by `log_write`: by which operation, of which block, to what. -/
structure Upd where
  /-- the number of the operation -/
  op : ℕ
  /-- the block -/
  blockno : ℕ
  /-- its contents after the update -/
  data : Bytes

/-- Control points of a `bread` of the log thread. -/
inductive BreadPc : Type where
  | bget
  | lock (b : BufId)
  | read (b : BufId)

/-- Control points of `write_log`, in one iteration of its loop. -/
inductive WriteLogPc : Type where
  | test
  | dst (q : BreadPc)
  | src (dst : BufId) (q : BreadPc)
  | move (dst src : BufId)
  | write (dst src : BufId)
  | relseSrc (dst src : BufId)
  | relseDst (dst : BufId)

/-- Control points of `write_head`. -/
inductive WriteHeadPc : Type where
  | hb (q : BreadPc)
  | fill (b : BufId)
  | write (b : BufId)
  | relse (b : BufId)

/-- Control points of `install_trans`, in one iteration of its loop. -/
inductive InstallPc : Type where
  | test
  | lbuf (q : BreadPc)
  | dbuf (l : BufId) (q : BreadPc)
  | move (l d : BufId)
  | write (l d : BufId)
  | unpin (l d : BufId)
  | relseL (l d : BufId)
  | relseD (d : BufId)

/-- Control points of `read_head`. -/
inductive ReadHeadPc : Type where
  | hb (q : BreadPc)
  | copy (b : BufId)
  | relse (b : BufId)

/-- Where the thread inside `commit()` or `recover_from_log()` is; `off` when
there is none. -/
inductive Pc : Type where
  | off
  | readHead (k : ReadHeadPc)
  | commit
  | writeLog (tail : ℕ) (k : WriteLogPc)
  /-- the commit record (`clear = false`), or erasing the log (`clear = true`) -/
  | writeHead (clear : Bool) (k : WriteHeadPc)
  | install (tail : ℕ) (k : InstallPc)
  | finish

/-- The system. -/
structure Sys where
  /-- the disk -/
  disk : ℕ → Bytes
  /-- the buffer cache -/
  cache : Bcache
  /-- `log.outstanding` -/
  outstanding : ℕ
  /-- `log.committing` -/
  committing : Bool
  /-- `log.lh`: the first `n` entries of `block` -/
  lh : List ℕ
  /-- the processes' `bread`s in progress -/
  handles : List Handle
  /-- the operations in progress -/
  ops : List Op
  /-- the number of the next operation -/
  nextOp : ℕ
  /-- the thread in `commit()` or `recover_from_log()` -/
  pc : Pc
  /-- is the system still in `recover_from_log()`? -/
  booting : Bool
  /-- history: every update ever recorded by `log_write`, also before crashes -/
  hist : List Upd
  /-- history: the operations that have reached `end_op` -/
  ended : List ℕ
  /-- history: commit groups, each closed by the `end_op` that started its commit -/
  sealed : List (List Upd)
  /-- history: updates of the group still open -/
  cur : List Upd
  /-- history: groups whose non-empty `write_head` is on disk -/
  done : ℕ

/-- The system after its first boot from `disk`, about to run `recover_from_log()`. -/
def boot (disk : ℕ → Bytes) : Sys where
  disk := disk
  cache := .binit
  outstanding := 0
  committing := false
  lh := []
  handles := []
  ops := []
  nextOp := 0
  pc := .readHead (.hb .bget)
  booting := true
  hist := []
  ended := []
  sealed := []
  cur := []
  done := 0

/-- A crash and the reboot: the disk stays, and of the history the groups that
were not committed are dropped. -/
def Sys.crash (s : Sys) : Sys :=
  { boot s.disk with
    nextOp := s.nextOp
    hist := s.hist
    ended := s.ended
    sealed := s.sealed.take s.done
    done := s.done }

/-! ## The log thread -/

/-- The transfer at the end of `bread`. -/
def fetch (disk : ℕ → Bytes) (c : Bcache) (i : BufId) : Bcache :=
  if (c.buf i).valid then c
  else c.set i { c.buf i with data := disk (c.buf i).blockno, valid := true }

/-- Set the contents of a buffer. -/
def setData (c : Bcache) (i : BufId) (d : Bytes) : Bcache := c.set i { c.buf i with data := d }

/-- Write a buffer to its block. -/
def bwrite (disk : ℕ → Bytes) (c : Bcache) (i : BufId) : ℕ → Bytes :=
  Function.update disk (c.buf i).blockno (c.buf i).data

namespace Sys

variable (start : ℕ)

/-- One step of a `bread(log.dev, blockno)` of the log thread: at `q` inside
it, with `k` the control points inside and `ret` the one after it. -/
def breadStep (s : Sys) (blockno : ℕ) (q : BreadPc) (k : BreadPc → Pc) (ret : BufId → Pc) :
    Outcome Sys :=
  match q with
  | .bget =>
    match s.cache.bget ROOTDEV blockno with
    | none => .panic "bget: no buffers"
    | some (b, c) => .ok { s with cache := c, pc := k (.lock b) }
  | .lock b =>
    if (s.cache.buf b).locked then .blocked
    else .ok { s with
      cache := s.cache.set b { s.cache.buf b with locked := true }
      pc := k (.read b) }
  | .read b => .ok { s with cache := fetch s.disk s.cache b, pc := ret b }

/-- `read_head` -/
def readHeadStep (s : Sys) : ReadHeadPc → Outcome Sys
  | .hb q => s.breadStep start q (fun q => .readHead (.hb q)) fun b => .readHead (.copy b)
  | .copy b =>
    .ok { s with lh := readHeader (s.cache.buf b).data, pc := .readHead (.relse b) }
  | .relse b => .ok { s with cache := s.cache.brelse b, pc := .install 0 .test }

/-- `write_log` -/
def writeLogStep (s : Sys) (tail : ℕ) : WriteLogPc → Outcome Sys
  | .test =>
    if tail < s.lh.length then .ok { s with pc := .writeLog tail (.dst .bget) }
    else .ok { s with pc := .writeHead false (.hb .bget) }
  | .dst q =>
    s.breadStep (start + tail + 1) q (fun q => .writeLog tail (.dst q)) fun b =>
      .writeLog tail (.src b .bget)
  | .src dst q =>
    s.breadStep (s.lh.getD tail 0) q (fun q => .writeLog tail (.src dst q)) fun b =>
      .writeLog tail (.move dst b)
  | .move dst src =>
    .ok { s with
      cache := setData s.cache dst (s.cache.buf src).data
      pc := .writeLog tail (.write dst src) }
  | .write dst src =>
    .ok { s with disk := bwrite s.disk s.cache dst, pc := .writeLog tail (.relseSrc dst src) }
  | .relseSrc dst src =>
    .ok { s with cache := s.cache.brelse src, pc := .writeLog tail (.relseDst dst) }
  | .relseDst dst => .ok { s with cache := s.cache.brelse dst, pc := .writeLog (tail + 1) .test }

/-- `write_head`; its first call in `commit()` is followed by `install_trans`,
the one that clears the log is the end of `commit()` or `recover_from_log()`. -/
def writeHeadStep (s : Sys) (clear : Bool) : WriteHeadPc → Outcome Sys
  | .hb q =>
    s.breadStep start q (fun q => .writeHead clear (.hb q)) fun b => .writeHead clear (.fill b)
  | .fill b =>
    .ok { s with
      cache := setData s.cache b (fillHeader s.lh (s.cache.buf b).data)
      pc := .writeHead clear (.write b) }
  | .write b =>
    .ok { s with
      disk := bwrite s.disk s.cache b
      done := if clear then s.done else s.done + 1
      pc := .writeHead clear (.relse b) }
  | .relse b =>
    .ok { s with
      cache := s.cache.brelse b
      pc := if clear then if s.booting then .off else .finish else .install 0 .test
      booting := s.booting && !clear }

/-- `install_trans(recovering)`, with `recovering` the same as `booting`; when
its loop ends the caller sets `log.lh.n = 0` and calls `write_head`. -/
def installStep (s : Sys) (tail : ℕ) : InstallPc → Outcome Sys
  | .test =>
    if tail < s.lh.length then .ok { s with pc := .install tail (.lbuf .bget) }
    else .ok { s with lh := [], pc := .writeHead true (.hb .bget) }
  | .lbuf q =>
    s.breadStep (start + tail + 1) q (fun q => .install tail (.lbuf q)) fun b =>
      .install tail (.dbuf b .bget)
  | .dbuf l q =>
    s.breadStep (s.lh.getD tail 0) q (fun q => .install tail (.dbuf l q)) fun b =>
      .install tail (.move l b)
  | .move l d =>
    .ok { s with
      cache := setData s.cache d (s.cache.buf l).data
      pc := .install tail (.write l d) }
  | .write l d =>
    .ok { s with
      disk := bwrite s.disk s.cache d
      pc := .install tail (if s.booting then .relseL l d else .unpin l d) }
  | .unpin l d =>
    .ok { s with cache := s.cache.bunpin d, pc := .install tail (.relseL l d) }
  | .relseL l d => .ok { s with cache := s.cache.brelse l, pc := .install tail (.relseD d) }
  | .relseD d => .ok { s with cache := s.cache.brelse d, pc := .install (tail + 1) .test }

/-- One step of the thread inside `commit()` or `recover_from_log()`. -/
def logStep (s : Sys) : Outcome Sys :=
  match s.pc with
  | .off => .blocked
  | .readHead k => s.readHeadStep start k
  | .commit =>
    if s.lh.length > 0 then
      .ok { s with sealed := s.sealed ++ [s.cur], cur := [], pc := .writeLog 0 .test }
    else .ok { s with pc := .finish }
  | .writeLog tail k => s.writeLogStep start tail k
  | .writeHead clear k => s.writeHeadStep start clear k
  | .install tail k => s.installStep start tail k
  | .finish => .ok { s with committing := false, pc := .off }

/-! ## The processes -/

/-- The operation process `p` is in. -/
def opOf (s : Sys) (p : ℕ) : Option Op := s.ops.find? (·.pid == p)

/-- `begin_op`: waits while the log is committing or might run out of space. -/
def beginOp (s : Sys) (p : ℕ) : Outcome Sys :=
  if s.booting ∨ (s.opOf p).isSome then .blocked
  else if s.committing then .blocked
  else if s.lh.length + (s.outstanding + 1) * MAXOPBLOCKS > LOGBLOCKS then .blocked
  else .ok { s with
    outstanding := s.outstanding + 1
    ops := ⟨p, s.nextOp, []⟩ :: s.ops
    nextOp := s.nextOp + 1 }

/-- `bget` by a process, under `bcache.lock`. -/
def procBget (s : Sys) (p blockno : ℕ) : Outcome Sys :=
  if s.booting ∨ ¬Home start blockno then .blocked
  else match s.cache.bget ROOTDEV blockno with
    | none => .panic "bget: no buffers"
    | some (b, c) => .ok { s with cache := c, handles := ⟨p, b, .waiting⟩ :: s.handles }

/-- `acquiresleep(&b->lock)` at the end of `bget`. -/
def procAcquire (s : Sys) (h : Handle) : Outcome Sys :=
  if h ∈ s.handles ∧ h.stage = .waiting ∧ (s.cache.buf h.buf).locked = false then
    .ok { s with
      cache := s.cache.set h.buf { s.cache.buf h.buf with locked := true }
      handles := { h with stage := .locked } :: s.handles.erase h }
  else .blocked

/-- The transfer at the end of `bread`. -/
def procRead (s : Sys) (h : Handle) : Outcome Sys :=
  if h ∈ s.handles ∧ h.stage = .locked then
    .ok { s with
      cache := fetch s.disk s.cache h.buf
      handles := { h with stage := .ready } :: s.handles.erase h }
  else .blocked

/-- A modification in place of the buffer's contents, inside an operation. -/
def procModify (s : Sys) (h : Handle) (d : Bytes) : Outcome Sys :=
  if h ∈ s.handles ∧ (h.stage = .ready ∨ h.stage = .dirty) ∧ (s.opOf h.pid).isSome then
    .ok { s with
      cache := setData s.cache h.buf d
      handles := { h with stage := .dirty } :: s.handles.erase h }
  else .blocked

/-- Record in an operation that it has logged block `b`. -/
def Op.log (b : ℕ) (o : Op) : Op := { o with used := if b ∈ o.used then o.used else b :: o.used }

/-- `log_write` -/
def logWrite (s : Sys) (h : Handle) : Outcome Sys :=
  if h ∈ s.handles ∧ (h.stage = .ready ∨ h.stage = .dirty) then
    if s.lh.length ≥ LOGBLOCKS then .panic "too big a transaction"
    else if s.outstanding < 1 then .panic "log_write outside of trans"
    else match s.opOf h.pid with
      | none => .blocked
      | some o =>
        let b := (s.cache.buf h.buf).blockno
        .ok { s with
          lh := if b ∈ s.lh then s.lh else s.lh ++ [b]
          cache := if b ∈ s.lh then s.cache else s.cache.bpin h.buf
          handles := { h with stage := .ready } :: s.handles.erase h
          ops := Op.log b o :: s.ops.erase o
          hist := s.hist ++ [⟨o.id, b, (s.cache.buf h.buf).data⟩]
          cur := s.cur ++ [⟨o.id, b, (s.cache.buf h.buf).data⟩] }
  else .blocked

/-- `brelse`, once every modification has been logged. -/
def procBrelse (s : Sys) (h : Handle) : Outcome Sys :=
  if h ∈ s.handles ∧ h.stage = .ready then
    .ok { s with cache := s.cache.brelse h.buf, handles := s.handles.erase h }
  else .blocked

/-- `end_op`, up to its call of `commit()`; the process has released its buffers. -/
def endOp (s : Sys) (p : ℕ) : Outcome Sys :=
  match s.opOf p with
  | none => .blocked
  | some o =>
    if s.handles.any (·.pid == p) then .blocked
    else if s.committing then .panic "log.committing"
    else if s.outstanding - 1 = 0 then
      .ok { s with
        outstanding := s.outstanding - 1
        ops := s.ops.erase o
        committing := true
        pc := .commit
        ended := o.id :: s.ended }
    else .ok { s with
      outstanding := s.outstanding - 1
      ops := s.ops.erase o
      ended := o.id :: s.ended }

end Sys

/-- The events of the machine. -/
inductive LogEv : Type where
  | beginOp (p : ℕ)
  | bget (p blockno : ℕ)
  | acquire (h : Handle)
  | read (h : Handle)
  | modify (h : Handle) (d : Bytes)
  | logWrite (h : Handle)
  | brelse (h : Handle)
  | endOp (p : ℕ)
  /-- the thread in `commit()` or `recover_from_log()` moves -/
  | log
  | crash

/-- One step of the system. -/
def logSysStep (start : ℕ) (s : Sys) : LogEv → Outcome Sys
  | .beginOp p => s.beginOp p
  | .bget p blockno => s.procBget start p blockno
  | .acquire h => s.procAcquire h
  | .read h => s.procRead h
  | .modify h d => s.procModify h d
  | .logWrite h => s.logWrite h
  | .brelse h => s.procBrelse h
  | .endOp p => s.endOp p
  | .log => s.logStep start
  | .crash => .ok s.crash

end Xv6
