import Mathlib.Algebra.BigOperators.Group.Finset.Piecewise
import Mathlib.Data.List.GetD
import Xv6.FsFile

/-!
# Writers that share a file

Processes that share a file structure call `filewrite` at the same time. A call
writes a chunk with the inode locked, and adds its length to the offset before it
unlocks the inode; between two chunks other calls may go on. The machine has the
calls, each at one of the steps of the loop of `filewrite`, and an event lets one
of them take its next step. The invariant (`Inv`) has the history of the chunks:
the file is the old one with the chunks of the history from the first offset on,
and the history has, for each call, the chunks it has written so far.
-/

namespace Xv6.Shared

open Function List

open Prog

/-! ## The machine -/

/-- Where a call is, in the loop of `filewrite`. -/
inductive Phase : Type where
  /-- at the condition of the loop -/
  | start
  /-- `ilock` has returned -/
  | locked
  /-- `writei` has returned `r` -/
  | wrote (r : ℤ)
  /-- the offset is advanced -/
  | moved (r : ℤ)
  /-- a chunk was not written, or not all of it -/
  | failed
  deriving DecidableEq

/-- A call of `filewrite`, by some process. -/
structure Call where
  /-- the bytes at `addr` -/
  src : Bytes
  /-- how many of them can be read -/
  limit : ℕ
  n : ℕ
  i : ℕ
  phase : Phase

structure State where
  fs : Fs.State
  /-- `f->off` -/
  off : ℕ
  /-- how many calls were made -/
  count : ℕ
  calls : ℕ → Call

inductive Event : Type where
  /-- a process calls `filewrite` -/
  | call (src : Bytes) (limit n : ℕ)
  /-- a call takes its next step -/
  | run (c : ℕ)

/-- Run code of the file system. -/
def onFs {α : Type} (x : Fs.FS α) : Prog State α :=
  zoom State.fs (fun fs s => { s with fs := fs }) x

def setCall (c : ℕ) (w : Call) : Prog State Unit :=
  modify fun s => { s with calls := update s.calls c w }

/-- The length of the next chunk. -/
def Call.n1 (w : Call) : ℕ := min (w.n - w.i) Fs.maxWrite

/-- The next step of call `c`, where the file has the inode of entry `ip`. A commit does not change
what the cache has, so `end_op` is only noted. -/
def turn (sb : Fs.Superblock) (ip c : ℕ) : Prog State Unit := do
  let s ← get
  let w := s.calls c
  match w.phase with
  | .start =>
    if w.i < w.n then
      onFs Fs.begin_op
      onFs (Fs.ilock ip)
      setCall c { w with phase := .locked }
    else
      wait
  | .locked =>
    let r ← onFs (Fs.writei sb ip (fun k => w.src (w.i + k)) (some (w.limit - w.i)) s.off w.n1)
    setCall c { w with phase := .wrote r }
  | .wrote r =>
    if 0 < r then
      modify fun s => { s with off := s.off + r.toNat }
    setCall c { w with phase := .moved r }
  | .moved r =>
    onFs (Fs.iunlock ip)
    onFs (Fs.note .end_op)
    if r ≠ w.n1 then
      setCall c { w with phase := .failed }
    else
      setCall c { w with i := w.i + r.toNat, phase := .start }
  | .failed => wait

def step (sb : Fs.Superblock) (ip : ℕ) (s : State) : Event → Outcome State
  | .call src limit n =>
    .ok { s with
      count := s.count + 1
      calls := update s.calls s.count ⟨src, limit, n, 0, .start⟩ }
  | .run c => if c < s.count then (turn sb ip c).after s else .blocked

/-- Before the first call. -/
def init (fs : Fs.State) (off : ℕ) : State := ⟨fs, off, 0, fun _ => ⟨fun _ => 0, 0, 0, 0, .start⟩⟩

/-- The call has written everything. -/
def Call.Complete (w : Call) : Prop := w.phase = .start ∧ w.i = w.n

instance (w : Call) : Decidable w.Complete := inferInstanceAs (Decidable (_ ∧ _))

/-! ## Chunks -/

/-- The chunks in which the first `n` bytes are written. -/
def pieces (src : Bytes) (n : ℕ) : List (List UInt8) :=
  (List.range ((n + (Fs.maxWrite - 1)) / Fs.maxWrite)).map fun k =>
    getBytes src (k * Fs.maxWrite) (min (n - k * Fs.maxWrite) Fs.maxWrite)

theorem maxWrite_pos : 0 < Fs.maxWrite := by decide

theorem pieces_zero (src : Bytes) : pieces src 0 = [] := rfl

/-- One more chunk. -/
theorem pieces_add {src : Bytes} {i m : ℕ} (hi : Fs.maxWrite ∣ i) (hpos : 0 < m)
    (hm : m ≤ Fs.maxWrite) : pieces src (i + m) = pieces src i ++ [getBytes src i m] := by
  obtain ⟨k, rfl⟩ := hi
  have hB := maxWrite_pos
  have h1 : (Fs.maxWrite * k + m + (Fs.maxWrite - 1)) / Fs.maxWrite = k + 1 := by
    have hsplit : Fs.maxWrite * k + m + (Fs.maxWrite - 1) = Fs.maxWrite * (k + 1) + (m - 1) := by
      rw [Nat.mul_succ]
      omega
    rw [hsplit, Nat.mul_add_div hB, Nat.div_eq_of_lt (by omega), Nat.add_zero]
  have h2 : (Fs.maxWrite * k + (Fs.maxWrite - 1)) / Fs.maxWrite = k := by
    rw [Nat.mul_add_div hB, Nat.div_eq_of_lt (by omega), Nat.add_zero]
  rw [pieces, pieces, h1, h2, range_succ, map_append]
  congr 1
  · refine map_congr_left fun j hj => ?_
    have hle : (j + 1) * Fs.maxWrite ≤ k * Fs.maxWrite :=
      Nat.mul_le_mul_right _ (mem_range.mp hj)
    rw [Nat.succ_mul, Nat.mul_comm k] at hle
    rw [Nat.min_eq_right (by omega), Nat.min_eq_right (by omega)]
  · rw [map_singleton, Nat.mul_comm k, Nat.add_sub_cancel_left, Nat.min_eq_left hm]

theorem getBytes_add (src : Bytes) (a m n : ℕ) :
    getBytes src a (m + n) = getBytes src a m ++ getBytes src (a + m) n := by
  rw [getBytes, range_add, map_append, map_map, getBytes, getBytes]
  simp only [comp_def, Nat.add_assoc]

/-- The chunks are the bytes. -/
theorem flatten_pieces (src : Bytes) (n : ℕ) : (pieces src n).flatten = getBytes src 0 n := by
  have hmul (k : ℕ) :
      (pieces src (Fs.maxWrite * k)).flatten = getBytes src 0 (Fs.maxWrite * k) := by
    induction k with
    | zero => rfl
    | succ k ih =>
      rw [Nat.mul_succ, pieces_add (Nat.dvd_mul_right _ _) maxWrite_pos (le_refl _),
        flatten_append, ih, flatten_singleton, getBytes_add, Nat.zero_add]
  rw [← Nat.div_add_mod n Fs.maxWrite]
  rcases Nat.eq_zero_or_pos (n % Fs.maxWrite) with h0 | hpos
  · rw [h0, Nat.add_zero, hmul]
  · rw [pieces_add (Nat.dvd_mul_right _ _) hpos (Nat.mod_lt _ maxWrite_pos).le,
      flatten_append, hmul, flatten_singleton, getBytes_add, Nat.zero_add]

/-! ## The file -/

variable {sb : Fs.Superblock} {D : ℕ → Fs.Dinode} {ip c : ℕ} {fs₀ fs fs' : Fs.State}
  {off₀ n : ℕ} {bytes : List UInt8} {src : Bytes} {limit : Option ℕ}

/-- **Bytes have been written** from `off₀` on. -/
structure Holds (sb : Fs.Superblock) (D : ℕ → Fs.Dinode) (ip : ℕ) (fs₀ : Fs.State) (off₀ : ℕ)
    (bytes : List UInt8) (fs : Fs.State) : Prop where
  sound : Fs.Sound sb D ip fs
  noHoles : Fs.NoHoles fs.block (fs.inode ip).copy
  size_le : (fs.inode ip).copy.size ≤ MAXFILE * BSIZE
  ref : 0 < (fs.inode ip).ref
  valid : (fs.inode ip).valid = true
  size : (fs.inode ip).copy.size =
    if bytes = [] then (fs₀.inode ip).copy.size
    else max (fs₀.inode ip).copy.size (off₀ + bytes.length)
  content : ∀ pos, pos / BSIZE < MAXFILE → Fs.byteAt fs.block (fs.inode ip).copy pos =
    Fs.overwritten (Fs.byteAt fs₀.block (fs₀.inode ip).copy) off₀ bytes.length
      (fun k => bytes.getD k 0) pos

namespace Holds

/-- The inode is locked, or unlocked. -/
theorem lock (h : Holds sb D ip fs₀ off₀ bytes fs) (hblock : fs'.block = fs.block)
    (hbitmap : fs'.bitmap = fs.bitmap) {l : Bool}
    (hentry : fs'.inode ip = { fs.inode ip with locked := l }) :
    Holds sb D ip fs₀ off₀ bytes fs' := by
  have hcopy : (fs'.inode ip).copy = (fs.inode ip).copy := by rw [hentry]
  have hcurrent : Fs.current D ip fs' = Fs.current D ip fs := by
    rw [Fs.current, Fs.current, hentry]
  refine ⟨⟨by rw [hentry]; exact h.sound.inum_lt, ?_, by rw [hbitmap]; exact h.sound.low,
    h.sound.size_le⟩, ?_, ?_, by rw [hentry]; exact h.ref, by rw [hentry]; exact h.valid, ?_, ?_⟩
  · rw [hcurrent, hblock, hbitmap]
    exact h.sound.refs
  · rw [hcopy, hblock]
    exact h.noHoles
  · rw [hcopy]
    exact h.size_le
  · rw [hcopy]
    exact h.size
  · rw [hcopy, hblock]
    exact h.content

/-- **A chunk is written** after the bytes. -/
theorem write (h : Holds sb D ip fs₀ off₀ bytes fs) (hpos : 0 < n)
    (hwrite : Fs.writei sb ip src limit (off₀ + bytes.length) n fs = .ok ((n : ℤ), fs')) :
    Holds sb D ip fs₀ off₀ (bytes ++ getBytes src 0 n) fs' ∧
      ∃ d, fs'.inode ip = { fs.inode ip with copy := d } := by
  obtain ⟨hwritten, hsize⟩ := Fs.Written.of_writei h.sound h.noHoles h.size_le hwrite
  obtain ⟨d, hentry⟩ := hwritten.entry
  have hlen : (getBytes src 0 n).length = n := by simp [getBytes]
  have hne : bytes ++ getBytes src 0 n ≠ [] := by
    intro hnil
    have := congrArg List.length hnil
    rw [length_append, hlen, length_nil] at this
    omega
  refine ⟨⟨hwritten.sound, hwritten.noHoles, hsize, by rw [hentry]; exact h.ref,
    by rw [hentry]; exact h.valid, ?_, fun pos hpos' => ?_⟩, d, hentry⟩
  · rw [hwritten.size, h.size, if_neg hne, length_append, hlen]
    split_ifs with hnil
    · rw [hnil, length_nil, Nat.add_zero, Nat.zero_add]
    · omega
  · rw [hwritten.bytes pos hpos', Fs.overwritten, Fs.overwritten, h.content pos hpos',
      Fs.overwritten, length_append, hlen]
    by_cases hnew : off₀ + bytes.length ≤ pos ∧ pos < off₀ + bytes.length + n
    · rw [if_pos hnew, if_pos ⟨by omega, by omega⟩, getD_append_right _ _ _ _ (by omega)]
      have hlt : pos - (off₀ + bytes.length) < n := by omega
      simp [getBytes, getD_eq_getElem?_getD, hlt, Nat.sub_sub]
    · rw [if_neg hnew]
      by_cases hold : off₀ ≤ pos ∧ pos < off₀ + bytes.length
      · rw [if_pos hold, if_pos ⟨by omega, by omega⟩, getD_append _ _ _ _ (by omega)]
      · rw [if_neg hold, if_neg (by omega)]

end Holds

/-! ## The invariant -/

/-- The bytes of the chunk that has been written, in this round of the loop. -/
def Phase.written : Phase → ℕ
  | .wrote r => r.toNat
  | .moved r => r.toNat
  | _ => 0

/-- Those of them that are not yet in the offset. -/
def Phase.unmoved : Phase → ℕ
  | .wrote r => r.toNat
  | _ => 0

/-- The call has the lock. -/
def Phase.has : Phase → Bool
  | .locked => true
  | .wrote _ => true
  | .moved _ => true
  | _ => false

/-- A chunk, and the call that wrote it. -/
abbrev History : Type := List (ℕ × List UInt8)

/-- The chunks of call `c`. -/
def History.of (hist : History) (c : ℕ) : List (List UInt8) :=
  (hist.filter fun x => x.1 = c).map Prod.snd

/-- All bytes. -/
def History.joined (hist : History) : List UInt8 := hist.flatMap Prod.snd

/-- A call, of which the chunks `l` are written. -/
structure Call.Inv (w : Call) (l : List (List UInt8)) : Prop where
  le : w.i ≤ w.n
  dvd : Fs.maxWrite ∣ w.i ∨ w.i = w.n
  lt : w.phase.has = true → w.i < w.n
  all : ∀ r, w.phase = .wrote r ∨ w.phase = .moved r → r = w.n1
  pieces : l = pieces w.src (w.i + w.phase.written)
  ne_failed : w.phase ≠ .failed

/-- A call that has no chunk of its own in the file yet. -/
theorem Call.inv_of_start {w : Call} {l : List (List UInt8)} (hle : w.i ≤ w.n)
    (hdvd : Fs.maxWrite ∣ w.i ∨ w.i = w.n) (hlt : w.phase.has = true → w.i < w.n)
    (hpieces : l = pieces w.src (w.i + w.phase.written))
    (hphase : w.phase = .start ∨ w.phase = .locked) : w.Inv l := by
  refine ⟨hle, hdvd, hlt, ?_, hpieces, ?_⟩
  · intro r hr
    rcases hphase with heq | heq <;> rcases hr with hr | hr <;> cases heq.symm.trans hr
  · intro hr
    rcases hphase with heq | heq <;> cases heq.symm.trans hr

/-- **The invariant,** where `holder` is the call that has the lock. -/
structure Inv (sb : Fs.Superblock) (D : ℕ → Fs.Dinode) (ip : ℕ) (fs₀ : Fs.State) (off₀ : ℕ)
    (hist : History) (holder : Option ℕ) (s : State) : Prop where
  holds : Holds sb D ip fs₀ off₀ hist.joined s.fs
  locked : (s.fs.inode ip).locked = holder.isSome
  has_iff : ∀ c < s.count, (s.calls c).phase.has = true ↔ holder = some c
  holder_lt : ∀ c, holder = some c → c < s.count
  off_eq : s.off + (holder.elim 0 fun c => (s.calls c).phase.unmoved) = off₀ + hist.joined.length
  call : ∀ c < s.count, (s.calls c).Inv (hist.of c)
  hist_lt : ∀ x ∈ hist, x.1 < s.count

/-- A chunk of the call was not written: it will not be complete. -/
def Call.Fails (w : Call) : Prop :=
  w.phase = .failed ∨ ∃ r, (w.phase = .wrote r ∨ w.phase = .moved r) ∧ r ≠ w.n1

section

variable {hist : History} {holder : Option ℕ} {s s' : State} {w : Call}

theorem History.of_append_self (hist : History) (c : ℕ) (l : List UInt8) :
    History.of (hist ++ [(c, l)]) c = hist.of c ++ [l] := by
  simp [History.of]

theorem History.of_append_ne (hist : History) {c c' : ℕ} (h : c' ≠ c) (l : List UInt8) :
    History.of (hist ++ [(c, l)]) c' = hist.of c' := by
  simp [History.of, h.symm]

theorem History.joined_append (hist : History) (c : ℕ) (l : List UInt8) :
    History.joined (hist ++ [(c, l)]) = hist.joined ++ l := by
  simp [History.joined]

theorem History.of_eq_nil {hist : History} (h : ∀ x ∈ hist, x.1 < c) : hist.of c = [] := by
  rw [History.of, map_eq_nil_iff, filter_eq_nil_iff]
  intro x hx
  have := h x hx
  simp only [decide_eq_true_eq]
  omega

/-- A new call. -/
theorem Inv.newCall (h : Inv sb D ip fs₀ off₀ hist holder s) (src : Bytes) (limit n : ℕ) :
    Inv sb D ip fs₀ off₀ hist holder { s with
      count := s.count + 1
      calls := update s.calls s.count ⟨src, limit, n, 0, .start⟩ } := by
  have hold {c : ℕ} (hc : c < s.count) :
      update s.calls s.count (⟨src, limit, n, 0, .start⟩ : Call) c = s.calls c :=
    update_of_ne (Nat.ne_of_lt hc) ..
  refine ⟨h.holds, h.locked, fun c hc => ?_, fun c hc => Nat.lt_succ_of_lt (h.holder_lt c hc), ?_,
    fun c hc => ?_, fun x hx => Nat.lt_succ_of_lt (h.hist_lt x hx)⟩
  · rcases Nat.lt_succ_iff_lt_or_eq.mp hc with hlt | rfl
    · dsimp only
      rw [hold hlt]
      exact h.has_iff c hlt
    · dsimp only
      rw [update_self]
      exact iff_of_false Bool.false_ne_true fun hc => Nat.lt_irrefl _ (h.holder_lt _ hc)
  · rw [← h.off_eq]
    cases holder with
    | none => rfl
    | some c =>
      dsimp only [Option.elim]
      rw [hold (h.holder_lt c rfl)]
  · rcases Nat.lt_succ_iff_lt_or_eq.mp hc with hlt | rfl
    · dsimp only
      rw [hold hlt]
      exact h.call c hlt
    · dsimp only
      rw [update_self, History.of_eq_nil h.hist_lt]
      exact Call.inv_of_start (Nat.zero_le _) (.inl (Nat.dvd_zero _)) (by rintro ⟨⟩)
        (pieces_zero src).symm (.inl rfl)

/-- **Call `c` takes a step,** alone or with the lock: what is to be shown of it. -/
theorem Inv.move (h : Inv sb D ip fs₀ off₀ hist holder s)
    (hholder : holder = none ∨ holder = some c) (hc : c < s.count) {hist' : History}
    (hfs : Holds sb D ip fs₀ off₀ hist'.joined s'.fs)
    (hlocked : (s'.fs.inode ip).locked = w.phase.has)
    (hcount : s'.count = s.count) (hcalls : s'.calls = update s.calls c w)
    (hoff : s'.off + w.phase.unmoved = off₀ + hist'.joined.length)
    (hcall : w.Inv (hist'.of c)) (hof : ∀ c' ≠ c, hist'.of c' = hist.of c')
    (hlt : ∀ x ∈ hist', x.1 < s.count) :
    Inv sb D ip fs₀ off₀ hist' (if w.phase.has then some c else none) s' := by
  have hself : s'.calls c = w := by rw [hcalls, update_self]
  have hne {c' : ℕ} (hc' : c' ≠ c) : s'.calls c' = s.calls c' := by
    rw [hcalls, update_of_ne hc']
  refine ⟨hfs, ?_, fun c' hc' => ?_, fun c' hc' => ?_, ?_, fun c' hc' => ?_, by rwa [hcount]⟩
  · rw [hlocked]
    cases w.phase.has <;> rfl
  · by_cases heq : c' = c
    · subst heq
      rw [hself]
      cases w.phase.has <;> simp
    · rw [hne heq, h.has_iff c' (hcount ▸ hc')]
      refine iff_of_false ?_ ?_
      · rcases hholder with rfl | rfl
        · rintro ⟨⟩
        · exact fun hc => heq (Option.some.inj hc).symm
      · split_ifs
        · exact fun hc => heq (Option.some.inj hc).symm
        · rintro ⟨⟩
  · split_ifs at hc'
    rw [hcount, ← Option.some.inj hc']
    exact hc
  · rw [← hoff]
    cases hphase : w.phase with
    | start => rfl
    | locked => simp [Phase.has, hself, hphase]
    | wrote r => simp [Phase.has, hself, hphase]
    | moved r => simp [Phase.has, hself, hphase]
    | failed => rfl
  · by_cases heq : c' = c
    · subst heq
      rw [hself]
      exact hcall
    · rw [hne heq, hof c' heq]
      exact h.call c' (hcount ▸ hc')

theorem ends_ilock_valid {i : ℕ} {Q : Unit → Fs.State → Prop} (href : 0 < (fs.inode i).ref)
    (hvalid : (fs.inode i).valid = true)
    (h : (fs.inode i).locked = false →
      Q () (fs.setInode i { fs.inode i with locked := true })) :
    Ends (Fs.ilock i) fs Q := by
  cases hlocked : (fs.inode i).locked with
  | false => exact ((Fs.meets_ilock_valid (E := Never) href hlocked hvalid).mpr (h hlocked)).ends
  | true =>
    rw [Fs.ilock, ends_bind, ends_get, if_neg (Nat.not_lt.mpr href), ends_bind, Fs.acquiresleep,
      ends_bind, ends_get, if_pos hlocked]
    exact ends_wait

section

variable (h : Inv sb D ip fs₀ off₀ hist holder s) (hc : c < s.count)
include h hc

/-- The call gets the lock. -/
theorem Inv.start (hphase : (s.calls c).phase = .start) (hlt : (s.calls c).i < (s.calls c).n) :
    Ends (do
      onFs Fs.begin_op
      onFs (Fs.ilock ip)
      setCall c { s.calls c with phase := .locked }) s fun _ s' =>
      ∃ hist holder, Inv sb D ip fs₀ off₀ hist holder s' := by
  rw [ends_bind, onFs, ends_zoom, Fs.begin_op, Fs.note, ends_modify, ends_bind, onFs, ends_zoom]
  refine ends_ilock_valid h.holds.ref h.holds.valid fun hlocked => ?_
  rw [setCall, ends_modify]
  have hnone : holder = none := by
    have hsome := h.locked
    cases holder with
    | none => rfl
    | some c => exact absurd (hlocked.symm.trans hsome) Bool.false_ne_true
  subst hnone
  have hcall := h.call c hc
  have hpieces := hcall.pieces
  rw [hphase] at hpieces
  have hoff := h.off_eq
  refine ⟨hist, _, h.move (w := { s.calls c with phase := .locked }) (.inl rfl) hc
    (h.holds.lock rfl rfl Fs.inode_setInode_self) ?_ rfl rfl hoff
    (Call.inv_of_start hcall.le hcall.dvd (fun _ => hlt) hpieces (.inr rfl))
    (fun _ _ => rfl) h.hist_lt⟩
  exact congrArg Fs.Inode.locked Fs.inode_setInode_self

/-- The call writes a chunk. -/
theorem Inv.write (hphase : (s.calls c).phase = .locked) : Ends (do
      let r ← onFs (Fs.writei sb ip (fun k => (s.calls c).src ((s.calls c).i + k))
        (some ((s.calls c).limit - (s.calls c).i)) s.off (s.calls c).n1)
      setCall c { s.calls c with phase := .wrote r }) s fun _ s' =>
      (∃ hist holder, Inv sb D ip fs₀ off₀ hist holder s') ∨
        ∃ c < s'.count, (s'.calls c).Fails := by
  rw [ends_bind, onFs, ends_zoom]
  intro r fs' hwrite
  rw [setCall, ends_modify]
  set w := s.calls c with hw
  by_cases hr : r = w.n1
  · refine .inl ?_
    have hhas : w.phase.has = true := by rw [hphase]; rfl
    obtain rfl : holder = some c := (h.has_iff c hc).mp hhas
    have hcall := h.call c hc
    rw [← hw] at hcall
    have hlt := hcall.lt hhas
    have hB := maxWrite_pos
    have hpos : 0 < w.n1 := by
      rw [Call.n1]
      omega
    have hoff := h.off_eq
    rw [Option.elim, ← hw, hphase] at hoff
    rw [hr, show s.off = off₀ + hist.joined.length from hoff] at hwrite
    obtain ⟨hholds, d, hentry⟩ := h.holds.write hpos hwrite
    have hbytes : getBytes (fun k => w.src (w.i + k)) 0 w.n1 = getBytes w.src w.i w.n1 := by
      simp [getBytes]
    rw [hbytes] at hholds
    have hlen : (getBytes w.src w.i w.n1).length = w.n1 := by simp [getBytes]
    have hpieces := hcall.pieces
    rw [hphase] at hpieces
    refine ⟨hist ++ [(c, getBytes w.src w.i w.n1)], _,
      h.move (w := { w with phase := .wrote r }) (.inr rfl) hc ?_ ?_ rfl rfl ?_
        ⟨hcall.le, hcall.dvd, fun _ => hlt, ?_, ?_, (by rintro ⟨⟩)⟩
        (fun c' hc' => hist.of_append_ne hc' _) ?_⟩
    · rw [History.joined_append]
      exact hholds
    · have hlocked := h.locked
      rw [hentry]
      exact hlocked
    · rw [History.joined_append, length_append, hlen, ← Nat.add_assoc, ← hoff, hr]
      rfl
    · rintro r' (heq | heq)
      · rw [← Phase.wrote.inj heq]
        exact hr
      · cases heq
    · rw [History.of_append_self, hpieces, hr]
      refine (pieces_add ?_ hpos (Nat.min_le_right _ _)).symm
      exact hcall.dvd.resolve_right (Nat.ne_of_lt hlt)
    · intro x hx
      rcases mem_append.mp hx with hx | hx
      · exact h.hist_lt x hx
      · rw [mem_singleton.mp hx]
        exact hc
  · refine .inr ⟨c, hc, .inr ⟨r, ?_⟩⟩
    dsimp only
    rw [update_self]
    exact ⟨.inl rfl, hr⟩

/-- The call advances the offset. -/
theorem Inv.advance {r : ℤ} (hphase : (s.calls c).phase = .wrote r) (off : ℕ)
    (hoff : off = s.off + r.toNat) : Inv sb D ip fs₀ off₀ hist (some c) { s with
      off := off, calls := update s.calls c { s.calls c with phase := .moved r } } := by
  have hhas : (s.calls c).phase.has = true := by rw [hphase]; rfl
  obtain rfl : holder = some c := (h.has_iff c hc).mp hhas
  have hcall := h.call c hc
  have hpieces := hcall.pieces
  have heq := h.off_eq
  have hlocked := h.locked
  rw [hphase] at hpieces
  rw [Option.elim, hphase] at heq
  refine h.move (w := { s.calls c with phase := .moved r }) (.inr rfl) hc h.holds hlocked rfl rfl
    (by rw [hoff]; exact heq)
    ⟨hcall.le, hcall.dvd, fun _ => hcall.lt hhas, ?_, hpieces, (by rintro ⟨⟩)⟩
    (fun _ _ => rfl) h.hist_lt
  rintro r' (hr | hr)
  · cases hr
  · rw [← Phase.moved.inj hr]
    exact hcall.all r (.inl hphase)

/-- The call unlocks the inode. -/
theorem Inv.unlock {r : ℤ} (hphase : (s.calls c).phase = .moved r) : Ends (do
      onFs (Fs.iunlock ip)
      onFs (Fs.note .end_op)
      setCall c { s.calls c with i := (s.calls c).i + r.toNat, phase := .start }) s fun _ s' =>
      ∃ hist holder, Inv sb D ip fs₀ off₀ hist holder s' := by
  have hhas : (s.calls c).phase.has = true := by rw [hphase]; rfl
  obtain rfl : holder = some c := (h.has_iff c hc).mp hhas
  have hcall := h.call c hc
  have hlt := hcall.lt hhas
  have hr := hcall.all r (.inr hphase)
  have hlocked : (s.fs.inode ip).locked = true := h.locked
  rw [ends_bind, onFs, ends_zoom]
  refine ((Fs.meets_iunlock (E := Never) h.holds.ref hlocked).mpr ?_).ends
  rw [ends_bind, onFs, ends_zoom, Fs.note, ends_modify, setCall, ends_modify]
  have hpieces := hcall.pieces
  have heq := h.off_eq
  rw [hphase] at hpieces
  rw [Option.elim, hphase] at heq
  refine ⟨hist, _, h.move (w := { s.calls c with i := (s.calls c).i + r.toNat, phase := .start })
    (.inr rfl) hc (h.holds.lock rfl rfl Fs.inode_setInode_self) ?_ rfl rfl heq
    (Call.inv_of_start ?_ ?_ (by rintro ⟨⟩) hpieces (.inl rfl)) (fun _ _ => rfl) h.hist_lt⟩
  · exact congrArg Fs.Inode.locked Fs.inode_setInode_self
  · rw [hr, Int.toNat_natCast, Call.n1]
    dsimp only
    omega
  · rw [hr, Int.toNat_natCast, Call.n1]
    dsimp only
    rcases Nat.le_total ((s.calls c).n - (s.calls c).i) Fs.maxWrite with hlast | hfull
    · exact .inr (by omega)
    · rw [Nat.min_eq_right hfull]
      exact .inl (Nat.dvd_add (hcall.dvd.resolve_right (Nat.ne_of_lt hlt)) (Nat.dvd_refl _))

/-- One step of a call. -/
theorem Inv.ends_turn : Ends (turn sb ip c) s fun _ s' =>
      (∃ hist holder, Inv sb D ip fs₀ off₀ hist holder s') ∨
        ∃ c < s'.count, (s'.calls c).Fails := by
  rw [turn, ends_bind, ends_get]
  dsimp only
  cases hphase : (s.calls c).phase with
  | start =>
    split_ifs with hlt
    · exact (h.start hc hphase hlt).mono fun _ _ hs => .inl hs
    · exact ends_wait
  | locked => exact h.write hc hphase
  | wrote r =>
    have hr : 0 < r := by
      have hlt := (h.call c hc).lt (by rw [hphase]; rfl)
      have hB := maxWrite_pos
      rw [(h.call c hc).all r (.inl hphase), Call.n1]
      omega
    dsimp only
    rw [if_pos hr, ends_bind, ends_modify, setCall, ends_modify]
    exact .inl ⟨hist, _, h.advance hc hphase _ rfl⟩
  | moved r =>
    have hr := (h.call c hc).all r (.inr hphase)
    simp only [if_neg (not_not.mpr hr)]
    exact (h.unlock hc hphase).mono fun _ _ hs => .inl hs
  | failed => exact ends_wait

end

theorem Call.not_fails (h : w.phase = .start ∨ w.phase = .locked) : ¬w.Fails := by
  rintro (hf | ⟨r, hf | hf, -⟩) <;> rcases h with h | h <;> cases hf.symm.trans h

/-- **A call that has failed is not complete** whatever it does. -/
theorem ends_turn_fails (c : ℕ) :
    Ends (turn sb ip c) s fun _ s' => s'.count = s.count ∧ ∃ w,
      s'.calls = update s.calls c w ∧ ((s.calls c).Fails → w.Fails) := by
  rw [turn, ends_bind, ends_get]
  dsimp only
  cases hphase : (s.calls c).phase with
  | start =>
    have hnot := Call.not_fails (.inl hphase)
    split_ifs with hlt
    · rw [ends_bind, onFs, ends_zoom]
      intro _ fs₁ _
      rw [ends_bind, onFs, ends_zoom]
      intro _ fs₂ _
      rw [setCall, ends_modify]
      exact ⟨rfl, _, rfl, fun h => absurd h hnot⟩
    · exact ends_wait
  | locked =>
    have hnot := Call.not_fails (.inr hphase)
    rw [ends_bind, onFs, ends_zoom]
    intro r fs₁ _
    rw [setCall, ends_modify]
    exact ⟨rfl, _, rfl, fun h => absurd h hnot⟩
  | wrote r =>
    have hmoved : (s.calls c).Fails → Call.Fails { s.calls c with phase := .moved r } := by
      rintro (h | ⟨r', h | h, hne⟩) <;> rw [hphase] at h <;> cases h
      exact .inr ⟨r, .inr rfl, hne⟩
    dsimp only
    split_ifs with hr
    · rw [ends_bind, ends_modify, setCall, ends_modify]
      exact ⟨rfl, _, rfl, hmoved⟩
    · rw [setCall, ends_modify]
      exact ⟨rfl, _, rfl, hmoved⟩
  | moved r =>
    rw [ends_bind, onFs, ends_zoom]
    intro _ fs₁ _
    rw [ends_bind, onFs, ends_zoom]
    intro _ fs₂ _
    split_ifs with hr
    · rw [setCall, ends_modify]
      exact ⟨rfl, _, rfl, fun _ => .inl rfl⟩
    · rw [setCall, ends_modify]
      refine ⟨rfl, _, rfl, ?_⟩
      rintro (h | ⟨r', h | h, hne⟩) <;> rw [hphase] at h <;> cases h
      exact absurd (not_not.mp hr) hne
  | failed => exact ends_wait

/-- The invariant holds, or a call has failed. -/
def Good (sb : Fs.Superblock) (D : ℕ → Fs.Dinode) (ip : ℕ) (fs₀ : Fs.State) (off₀ : ℕ)
    (s : State) : Prop :=
  (∃ hist holder, Inv sb D ip fs₀ off₀ hist holder s) ∨ ∃ c < s.count, (s.calls c).Fails

theorem Good.step {e : Event} (h : Good sb D ip fs₀ off₀ s) (hstep : step sb ip s e = .ok s') :
    Good sb D ip fs₀ off₀ s' := by
  cases e with
  | call src limit n =>
    cases hstep
    rcases h with ⟨hist, holder, hinv⟩ | ⟨c, hc, hfails⟩
    · exact .inl ⟨hist, holder, hinv.newCall src limit n⟩
    · refine .inr ⟨c, Nat.lt_succ_of_lt hc, ?_⟩
      dsimp only
      rw [update_of_ne (Nat.ne_of_lt hc)]
      exact hfails
  | run c =>
    rw [Shared.step] at hstep
    split_ifs at hstep with hc
    rw [Prog.after] at hstep
    split at hstep
    · rename_i s'' heq
      cases hstep
      rcases h with ⟨hist, holder, hinv⟩ | ⟨c', hc', hfails⟩
      · exact hinv.ends_turn hc _ _ heq
      · obtain ⟨hcount, w, hcalls, hw⟩ := ends_turn_fails c _ _ heq
        refine .inr ⟨c', hcount ▸ hc', ?_⟩
        rw [hcalls]
        by_cases hcc : c' = c
        · subst hcc
          rw [update_self]
          exact hw hfails
        · rw [update_of_ne hcc]
          exact hfails
    · cases hstep
    · cases hstep

/-! ## The result -/

/-- The bytes of a history are those of the calls. -/
theorem History.length_joined {hist : History} {m : ℕ} (h : ∀ x ∈ hist, x.1 < m) :
    hist.joined.length = ∑ c ∈ Finset.range m, (hist.of c).flatten.length := by
  induction hist with
  | nil => simp [History.joined, History.of]
  | cons x hist ih =>
    have hx : x.1 ∈ Finset.range m := Finset.mem_range.mpr (h x mem_cons_self)
    have hof (c : ℕ) : (History.of (x :: hist) c).flatten.length =
        (if x.1 = c then x.2.length else 0) + (History.of hist c).flatten.length := by
      by_cases hc : x.1 = c
      · simp [History.of, hc]
      · simp [History.of, hc]
    have hsum := ih fun y hy => h y (mem_cons_of_mem _ hy)
    rw [Finset.sum_congr rfl fun c _ => hof c, Finset.sum_add_distrib, Finset.sum_ite_eq,
      if_pos hx, ← hsum]
    simp [History.joined]

theorem good_init (hsound : Fs.Sound sb D ip fs₀)
    (hholes : Fs.NoHoles fs₀.block (fs₀.inode ip).copy)
    (hsize : (fs₀.inode ip).copy.size ≤ MAXFILE * BSIZE) (href : 0 < (fs₀.inode ip).ref)
    (hvalid : (fs₀.inode ip).valid = true) (hunlocked : (fs₀.inode ip).locked = false) :
    Good sb D ip fs₀ off₀ (init fs₀ off₀) := by
  refine .inl ⟨[], none, ⟨hsound, hholes, hsize, href, hvalid, rfl, fun pos _ => ?_⟩, hunlocked,
    (by rintro _ ⟨⟩), (by rintro _ ⟨⟩), rfl, (by rintro _ ⟨⟩), (by rintro _ ⟨⟩)⟩
  rw [Fs.overwritten, if_neg]
  · rfl
  · change ¬(off₀ ≤ pos ∧ pos < off₀ + 0)
    omega

/-- What holds when all calls are complete. -/
theorem Good.complete (h : Good sb D ip fs₀ off₀ s) (hdone : ∀ c < s.count, (s.calls c).Complete) :
    ∃ hist : History, Holds sb D ip fs₀ off₀ hist.joined s.fs ∧ (∀ x ∈ hist, x.1 < s.count) ∧
      (∀ c < s.count, hist.of c = pieces (s.calls c).src (s.calls c).n) ∧
      hist.joined.length = ∑ c ∈ Finset.range s.count, (s.calls c).n ∧
      s.off = off₀ + hist.joined.length := by
  rcases h with ⟨hist, holder, hinv⟩ | ⟨c, hc, hfails⟩
  · have hnone : holder = none := by
      cases holder with
      | none => rfl
      | some c =>
        have hc := hinv.holder_lt c rfl
        have hhas := (hinv.has_iff c hc).mpr rfl
        rw [(hdone c hc).1] at hhas
        cases hhas
    have hpieces : ∀ c < s.count, hist.of c = pieces (s.calls c).src (s.calls c).n := by
      intro c hc
      obtain ⟨hphase, hi⟩ := hdone c hc
      have hpieces := (hinv.call c hc).pieces
      rwa [hphase, hi] at hpieces
    refine ⟨hist, hinv.holds, hinv.hist_lt, hpieces, ?_, ?_⟩
    · rw [History.length_joined hinv.hist_lt]
      refine Finset.sum_congr rfl fun c hc => ?_
      rw [hpieces c (Finset.mem_range.mp hc), flatten_pieces]
      simp [getBytes]
    · have hoff := hinv.off_eq
      rwa [hnone] at hoff
  · exact absurd hfails (Call.not_fails (.inl (hdone c hc).1))

/-- What was written is read. -/
theorem Holds.readi (h : Holds sb D ip fs₀ off₀ bytes fs) (hreach : Fs.reaches limit bytes.length) :
    Fs.readi sb ip limit off₀ bytes.length fs = .ok (some bytes, fs) := by
  have hbig : MAXFILE * BSIZE < 2 ^ 32 := by decide
  have hsize := h.size
  have hle := h.size_le
  have hlen : bytes ≠ [] → off₀ + bytes.length ≤ (fs.inode ip).copy.size := by
    intro hne
    rw [hsize, if_neg hne]
    exact Nat.le_max_right _ _
  have hn : bytes.length < 2 ^ 32 := by
    rcases eq_or_ne bytes [] with rfl | hne
    · decide
    · have := hlen hne
      omega
  have hcontent : ∀ pos < (fs.inode ip).copy.size, _ := fun pos hpos =>
    h.content pos (Fs.div_lt_MAXFILE (by omega))
  rw [Fs.readi_eq h.noHoles hle hcontent hn, Fs.readBytes]
  congr 2
  rcases eq_or_ne bytes [] with rfl | hne
  · split_ifs with hgood hr
    · rfl
    · exact absurd (Fs.reaches_mono hreach (Nat.min_le_left _ _)) hr
    · rfl
  · have hend := hlen hne
    rw [if_pos ⟨by omega, by omega⟩, Nat.min_eq_left (by omega), if_pos hreach]
    congr 1
    refine ext_getElem (by simp) fun k hk hk' => ?_
    rw [getElem_map, getElem_range, Fs.overwritten, if_pos ⟨by omega, by omega⟩,
      Nat.add_sub_cancel_left]
    simp [getD_eq_getElem?_getD, hk']

/-- **Writers that share a file lose no update.** When all calls are complete, the file has their
chunks from the first offset on, in an order that is that of each call, and the offset is behind
them; for a single call the file is as after one `writei`. -/
theorem shared_writes (hsound : Fs.Sound sb D ip fs₀)
    (hholes : Fs.NoHoles fs₀.block (fs₀.inode ip).copy)
    (hsize : (fs₀.inode ip).copy.size ≤ MAXFILE * BSIZE) (href : 0 < (fs₀.inode ip).ref)
    (hvalid : (fs₀.inode ip).valid = true) (hunlocked : (fs₀.inode ip).locked = false)
    (hrun : Run (step sb ip) (fun _ _ => True) (init fs₀ off₀) s)
    (hdone : ∀ c < s.count, (s.calls c).Complete) :
    (∃ hist : History, (∀ x ∈ hist, x.1 < s.count) ∧
      (∀ c < s.count, hist.of c = pieces (s.calls c).src (s.calls c).n) ∧
      hist.joined.length = ∑ c ∈ Finset.range s.count, (s.calls c).n ∧
      s.off = off₀ + hist.joined.length ∧
      (∀ limit : Option ℕ, Fs.reaches limit hist.joined.length →
        Fs.readi sb ip limit off₀ hist.joined.length s.fs = .ok (some hist.joined, s.fs)) ∧
      ∀ pos, pos / BSIZE < MAXFILE → Fs.byteAt s.fs.block (s.fs.inode ip).copy pos =
        Fs.overwritten (Fs.byteAt fs₀.block (fs₀.inode ip).copy) off₀ hist.joined.length
          (fun k => hist.joined.getD k 0) pos) ∧
    (s.count = 1 → ∀ (limit : Option ℕ) (t : Fs.State),
      Fs.writei sb ip (s.calls 0).src limit off₀ (s.calls 0).n fs₀ = .ok ((s.calls 0).n, t) →
      (s.fs.inode ip).copy.size = (t.inode ip).copy.size ∧
      ∀ pos, pos / BSIZE < MAXFILE → Fs.byteAt s.fs.block (s.fs.inode ip).copy pos =
        Fs.byteAt t.block (t.inode ip).copy pos) := by
  have hgood : Good sb D ip fs₀ off₀ s :=
    hrun.invariant (good_init hsound hholes hsize href hvalid hunlocked)
      fun _ _ _ h _ hstep => h.step hstep
  obtain ⟨hist, hholds, hlt, hpieces, hlen, hoff⟩ := hgood.complete hdone
  refine ⟨⟨hist, hlt, hpieces, hlen, hoff, fun limit hreach => hholds.readi hreach,
    hholds.content⟩, fun hone limit t hwrite => ?_⟩
  obtain ⟨hwritten, -⟩ := Fs.Written.of_writei hsound hholes hsize hwrite
  have hjoined : hist.joined = getBytes (s.calls 0).src 0 (s.calls 0).n := by
    rw [← flatten_pieces, ← hpieces 0 (by omega), History.of, filter_eq_self.mpr,
      History.joined, flatMap_def]
    intro x hx
    have := hlt x hx
    simp only [decide_eq_true_eq]
    omega
  have hlen' : (getBytes (s.calls 0).src 0 (s.calls 0).n).length = (s.calls 0).n := by
    simp [getBytes]
  rw [hjoined] at hholds
  refine ⟨?_, fun pos hpos => ?_⟩
  · rw [hholds.size, hwritten.size, hlen']
    split_ifs with hnil
    · have hoff_le := hwritten.off_le
      rw [← length_eq_zero_iff, hlen'] at hnil
      omega
    · rfl
  · rw [hholds.content pos hpos, hwritten.bytes pos hpos, hlen', Fs.overwritten, Fs.overwritten]
    split_ifs with hin
    · have hk : pos - off₀ < (s.calls 0).n := by omega
      simp [getBytes, getD_eq_getElem?_getD, hk]
    · rfl

/-- Two calls, of three and two bytes, of which the second waits for the first. -/
def twoWriters : List Event :=
  [.call (fun _ => 66) 100 3, .run 0, .call (fun _ => 67) 100 2, .run 0, .run 0, .run 0,
    .run 1, .run 1, .run 1, .run 1]

/-- They add their bytes to a file of five bytes. -/
theorem shared_writes_two :
    ∃ (s : State) (hist : History), Run (step ⟨60, 10, 3⟩ 0) (fun _ _ => True)
      (init Fs.oneFile 5) s ∧ s.count = 2 ∧ s.off = 5 + hist.joined.length ∧
      hist.of 0 = pieces (s.calls 0).src (s.calls 0).n ∧
      hist.of 1 = pieces (s.calls 1).src (s.calls 1).n := by
  set s := (runList (step ⟨60, 10, 3⟩ 0) (init Fs.oneFile 5) twoWriters).getD (init Fs.oneFile 5)
  have hrun : Run (step ⟨60, 10, 3⟩ 0) (fun _ _ => True) (init Fs.oneFile 5) s :=
    .of_checkList (c := fun _ _ => true) (fun _ _ _ => trivial) (by decide +kernel) _
  have hcount : s.count = 2 := by
    decide +kernel
  have hdone : ∀ c < 2, (s.calls c).Complete := by
    decide +kernel
  obtain ⟨⟨hist, -, hpieces, -, hoff, -⟩, -⟩ := shared_writes Fs.sound_oneFile Fs.noHoles_oneFile
    (by decide) (by decide) rfl rfl hrun (by rwa [hcount])
  exact ⟨s, hist, hrun, hcount, hoff, hpieces 0 (by omega), hpieces 1 (by omega)⟩

end

end Xv6.Shared
