import Xv6.Console
import Xv6.File
import Xv6.FsRead
import Xv6.PipeFifo

/-!
# How much `read` reads

`fileread` passes its `int` on to `piperead`, `consoleread` or `readi`. The first
two compare it as it is. `readi` has a `uint`: a negative number of bytes is a
large one, and what is read is the rest of the file, unless the sum with the
offset wraps around or nothing can be copied (`read_bounded`).

`readi` returns -1 when it cannot copy everything to its destination. It has then
copied as much as can be written there.
-/

/-! ## Pipes -/

namespace Xv6.PipeSys

/-- How many bytes a call has copied: those that it has removed, but for one that it could not
copy. -/
def Read.copied (r : Read) : ℕ := r.taken - r.failed.toNat

/-- **`piperead` returns and copies at most what was asked for.** -/
theorem piperead_bounded {junk : ℕ → UInt8} {memory : ℕ → ℕ → UInt8} {s : State}
    (h : Run step (fun _ _ => True) (init junk memory) s) {r : Read} (hr : r ∈ s.reads) :
    r.ret ≤ max r.asked 0 ∧ (r.copied : ℤ) ≤ max r.asked 0 := by
  have hreads : Reads False s := h.invariant (.init junk memory) fun _ _ _ hi _ hs =>
    hi.step hs False.elim
  obtain ⟨htaken, hret⟩ := hreads.done r hr
  refine ⟨hret, ?_⟩
  have hcopied : (r.copied : ℤ) = max r.ret 0 := by
    rw [Read.copied]
    cases hf : r.failed <;> simp only [hf, Bool.toNat_false, Bool.toNat_true] at htaken ⊢ <;>
      simp only [Bool.false_eq_true, if_false, if_true] at htaken <;> omega
  omega

end Xv6.PipeSys

/-! ## The console -/

namespace Xv6.Console

/-- What calls have returned is at most what was asked for, and those that wait want no more than
the rest. -/
structure Bounded (s : State) : Prop where
  returns : ∀ ret ∈ s.returns, ret.value ≤ ret.target ∧ ret.got.length ≤ ret.target
  reader : ∀ p rd, s.reader p = some rd → rd.got.length + rd.n ≤ rd.target

/-- **The loop of `consoleread`** gets at most what is wanted. -/
theorem readLoop_bounded (killed : Bool) {target : ℕ} (limit : ℕ) {n : ℕ} (s : Cons)
    {got : List UInt8} (h : got.length + n ≤ target) :
    match (readLoop killed target limit n s got).1 with
    | .sleep rd => rd.target = target ∧ rd.got.length + rd.n ≤ target
    | .ret value got => value ≤ target ∧ got.length ≤ target := by
  induction n generalizing s got with
  | zero => exact ⟨le_rfl, h⟩
  | succ n ih =>
    rw [readLoop]
    dsimp only
    split_ifs
    · exact ⟨by omega, by omega⟩
    · exact ⟨rfl, h⟩
    · exact ⟨by omega, by omega⟩
    · exact ⟨by omega, by omega⟩
    · exact ⟨by omega, by omega⟩
    · refine ⟨by omega, ?_⟩
      rw [List.length_append, List.length_singleton]
      omega
    · refine ih _ ?_
      rw [List.length_append, List.length_singleton]
      omega

theorem Bounded.finish {s : State} (h : Bounded s) (p : ℕ) (killed : Bool) {target limit n : ℕ}
    {got : List UInt8} (hn : got.length + n ≤ target) :
    Bounded (finish s p target (readLoop killed target limit n s.cons got)) := by
  have hloop := readLoop_bounded killed limit s.cons hn
  have hother {p' : ℕ} {rd : Option Reader} {rd' : Reader} (hp : p' ≠ p)
      (hrd : Function.update s.reader p rd p' = some rd') :
      rd'.got.length + rd'.n ≤ rd'.target := by
    rw [Function.update_of_ne hp] at hrd
    exact h.reader p' rd' hrd
  rcases hread : readLoop killed target limit n s.cons got with ⟨rd | ⟨value, got'⟩, cons⟩ <;>
    rw [hread] at hloop
  · obtain ⟨htarget, hle⟩ := hloop
    refine ⟨h.returns, fun p' rd' hrd => ?_⟩
    by_cases hp : p' = p
    · obtain rfl : rd = rd' := by simpa [Console.finish, hp] using hrd
      rwa [htarget]
    · exact hother hp hrd
  · refine ⟨fun ret hret => ?_, fun p' rd' hrd => ?_⟩
    · rcases List.mem_append.mp hret with hret | hret
      · exact h.returns ret hret
      · obtain rfl := List.mem_singleton.mp hret
        exact hloop
    · by_cases hp : p' = p
      · simp [Console.finish, hp] at hrd
      · exact hother hp hrd

theorem Bounded.step {s s' : State} {e : Event} (h : Bounded s) (hs : step s e = .ok s') :
    Bounded s' := by
  cases e with
  | intr c =>
    cases hs
    exact ⟨h.returns, h.reader⟩
  | read p n limit killed =>
    rw [Console.step] at hs
    split at hs
    · cases hs
    · cases hs
      exact h.finish p killed (Nat.zero_add _).le
  | wake p killed =>
    rw [Console.step] at hs
    split at hs
    · cases hs
    next rd hrd =>
      cases hs
      exact h.finish p killed (h.reader p rd hrd)

/-- **`consoleread` returns and copies at most what was asked for.** -/
theorem consoleread_bounded {s : State} (h : Run step (fun _ _ => True) init s) :
    ∀ ret ∈ s.returns, ret.value ≤ ret.target ∧ ret.got.length ≤ ret.target := by
  have hbounded : Bounded s :=
    h.invariant ⟨fun _ hret => absurd hret List.not_mem_nil, nofun⟩
      fun _ _ _ hs _ hstep => hs.step hstep
  exact hbounded.returns

end Xv6.Console

/-! ## Files -/

namespace Xv6.Fs

open Prog

/-- The file system and the open files. -/
structure Sys where
  fs : State
  files : Files
  /-- `f->major`, of a `FD_DEVICE` -/
  major : ℕ → BitVec 16

/-- Code of the system calls. -/
abbrev SC (α : Type) : Type := Prog Sys α

namespace SC

/-- Run code of the file system. -/
def fs {α : Type} (x : FS α) : SC α := zoom Sys.fs (fun t s => { s with fs := t }) x

/-- Run code that works on open files. -/
def files {α : Type} (x : Prog Files α) : SC α := zoom Sys.files (fun t s => { s with files := t }) x

end SC

section code

variable (sb : Superblock)

/-- `fileread` of a `FD_INODE`, with the number of bytes it has copied: all that can be, if `readi`
fails -/
def filereadInode (f limit : ℕ) (n : BitVec 32) : SC (ℤ × ℕ) := do
  let ff := (← get).files.file f
  SC.fs (ilock ff.ip)
  let bytes ← SC.fs (readi sb ff.ip (some limit) ff.off n.toNat)
  let r : ℤ := match bytes with
    | none => -1
    | some bytes => bytes.length
  let copied := match bytes with
    | none => limit
    | some bytes => bytes.length
  if 0 < r then
    SC.files (modify fun s => s.setFile f { s.file f with off := (s.file f).off + r.toNat })
  SC.fs (iunlock ff.ip)
  return (r, copied)

/-- `CONSOLE` -/
def CONSOLE : ℤ := 1

/-- **`fileread`:** what it returns, how many bytes it copies to the destination, of which `limit`
can be written, and the state then. Others use a pipe or the console meanwhile, so that a call on
one of them returns what a call for so many bytes returns in a run of it. -/
inductive Fileread (f limit : ℕ) (n : BitVec 32) (s : Sys) : ℤ → ℕ → Sys → Prop where
  | notReadable (hread : (s.files.file f).readable = false) : Fileread f limit n s (-1) 0 s
  | pipe {junk : ℕ → UInt8} {memory : ℕ → ℕ → UInt8} {pi : PipeSys.State} {ret : PipeSys.Read}
      (hread : (s.files.file f).readable = true) (htype : (s.files.file f).type = .FD_PIPE)
      (hrun : Run PipeSys.step (fun _ _ => True) (PipeSys.init junk memory) pi)
      (hret : ret ∈ pi.reads) (hasked : ret.asked = n.toInt) :
    Fileread f limit n s ret.ret ret.copied s
  | noDevice (hread : (s.files.file f).readable = true)
      (htype : (s.files.file f).type = .FD_DEVICE)
      -- `devsw[].read` is set for the console only
      (hmajor : (s.major f).toInt < 0 ∨ NDEV ≤ (s.major f).toInt ∨ (s.major f).toInt ≠ CONSOLE) :
    Fileread f limit n s (-1) 0 s
  | device {cons : Console.State} {ret : Console.Return}
      (hread : (s.files.file f).readable = true) (htype : (s.files.file f).type = .FD_DEVICE)
      (hmajor : (s.major f).toInt = CONSOLE)
      (hrun : Run Console.step (fun _ _ => True) Console.init cons) (hret : ret ∈ cons.returns)
      (hasked : ret.target = n.toInt.toNat) :
    Fileread f limit n s ret.value ret.got.length s
  | inode {r : ℤ} {copied : ℕ} {t : Sys} (hread : (s.files.file f).readable = true)
      (htype : (s.files.file f).type = .FD_INODE)
      (hcall : filereadInode sb f limit n s = .ok ((r, copied), t)) :
    Fileread f limit n s r copied t

end code

/-- At most what was asked for is returned and copied, and the offset advances by what is
returned. -/
def Bounded (f : ℕ) (n : BitVec 32) (s : Sys) (r : ℤ) (copied : ℕ) (t : Sys) : Prop :=
  r ≤ max n.toInt 0 ∧ (copied : ℤ) ≤ max n.toInt 0 ∧ ((s.files.file f).type = .FD_INODE →
    ((t.files.file f).off : ℤ) = (s.files.file f).off + max r 0)

section

variable {sb : Superblock} {i l : ℕ}

/-- What `readi` returns, of `n` bytes: no more than can be copied, and -1 only if this is less. -/
def Copied (l n : ℕ) : Option (List UInt8) → Prop
  | none => l < n
  | some bytes => bytes.length ≤ min n l

/-- **The loop of `readi`** reads no more than it has to. -/
theorem ends_readiLoop {n fuel off : ℕ} {acc : List UInt8} (hacc : acc.length ≤ min n l)
    (s : State) :
    Ends (readiLoop sb i (some l) n fuel off acc) s fun r _ => Copied l n r := by
  induction fuel generalizing off acc s with
  | zero =>
    rw [readiLoop, ends_pure]
    exact hacc
  | succ fuel ih =>
    rw [readiLoop]
    split_ifs
    · rw [ends_bind]
      intro addr t _
      set m := min (n - acc.length) (BSIZE - off % BSIZE)
      split_ifs
      · rw [ends_pure]
        exact hacc
      dsimp only
      split_ifs with hcopy
      · rw [ends_pure]
        rw [accessible] at hcopy
        show l < n
        omega
      · rw [accessible, not_not] at hcopy
        rw [ends_bind, ends_get]
        refine ih ?_ t
        rw [List.length_append, getBytes, List.length_map, List.length_range]
        omega
    · rw [ends_pure]
      exact hacc

/-- The most that `readi` reads: the rest of the file, or nothing. -/
def readiMost (size off n : ℕ) : ℕ :=
  if size < off ∨ (off + n) % 2 ^ 32 < off then 0 else min n (size - off)

theorem ends_readi (off n : ℕ) (s : State) : Ends (readi sb i (some l) off n) s fun r _ =>
    Copied l (readiMost (s.inode i).copy.size off n) r := by
  rw [readi, ends_bind, copyOf, ends_bind, ends_get, ends_pure, readiMost]
  dsimp only
  split_ifs with hbad hsize
  · rw [ends_pure]
    exact Nat.zero_le _
  · rw [Nat.min_eq_right (by omega)]
    exact ends_readiLoop (Nat.zero_le _) s
  · rw [Nat.min_eq_left (by omega)]
    exact ends_readiLoop (Nat.zero_le _) s

/-- The inode, in the table or on disk. -/
def loaded (s : State) (i : ℕ) : Dinode :=
  if (s.inode i).valid then (s.inode i).copy else s.dinode (s.inode i).inum

theorem ends_ilock (i : ℕ) (s : State) :
    Ends (ilock i) s fun _ t => (t.inode i).copy = loaded s i := by
  rw [ilock, ends_bind, ends_get]
  by_cases href : (s.inode i).ref < 1
  · rw [if_pos href]
    exact ends_panic _
  by_cases hlocked : (s.inode i).locked = true
  · rw [if_neg href, ends_bind, acquiresleep, ends_bind, ends_get, if_pos hlocked]
    exact ends_wait
  rw [if_neg href, ends_bind]
  refine ((meets_acquiresleep (E := Never) (Bool.not_eq_true _ ▸ hlocked)).mpr ?_).ends
  rw [ends_bind, ends_get, inode_setInode_self, loaded]
  by_cases hvalid : (s.inode i).valid = true
  · rw [if_pos hvalid, hvalid]
    simp
  · rw [if_neg hvalid, if_pos (by simp [hvalid])]
    rw [ends_bind, setIp, ends_modify]
    split_ifs
    · exact ends_panic _
    · rw [ends_pure, inode_setInode_self]
      rfl

/-- The inode can be locked, and has its blocks. -/
structure Ready (s : State) (i : ℕ) : Prop where
  ref : 0 < (s.inode i).ref
  unlocked : (s.inode i).locked = false
  type : (loaded s i).type ≠ .free
  noHoles : NoHoles s.block (loaded s i)
  size_le : (loaded s i).size ≤ MAXFILE * BSIZE

theorem meets_ilock {s : State} (h : Ready s i) : Meets (ilock i) s (fun _ t => t = s.setInode i
    { s.inode i with locked := true, valid := true, copy := loaded s i }) Never := by
  have htype := h.type
  rw [loaded] at htype ⊢
  cases hvalid : (s.inode i).valid with
  | true =>
    rw [meets_ilock_valid h.ref h.unlocked hvalid, if_pos rfl, ← hvalid]
  | false =>
    rw [hvalid] at htype
    rw [meets_ilock_load h.ref h.unlocked hvalid htype, if_neg Bool.false_ne_true]

/-- Where a request stays within what `readi` takes it for. -/
def Sane (n : BitVec 32) (off size : ℕ) : Prop :=
  0 ≤ n.toInt ∨ 2 ^ 32 ≤ off + n.toNat ∨ size ≤ off

theorem readiMost_le {n : BitVec 32} {off size : ℕ} (h : Sane n off size) :
    (readiMost size off n.toNat : ℤ) ≤ max n.toInt 0 := by
  rw [readiMost]
  split_ifs with hbad
  · exact le_max_right _ _
  · rcases h with h | h | h
    · rw [BitVec.toInt_eq_toNat_cond] at h ⊢
      split_ifs at h ⊢ <;> omega
    · omega
    · omega

/-- What is needed of a file: that the request is sane, or that nothing can be copied. -/
def Within (f limit : ℕ) (n : BitVec 32) (s : Sys) : Prop :=
  (s.files.file f).type = .FD_INODE →
    Sane n (s.files.file f).off (loaded s.fs (s.files.file f).ip).size ∨ limit = 0

/-- **`fileread` of an inode** returns and copies at most what `readi` reads, and the offset advances
by what it returns. -/
theorem ends_filereadInode {n : BitVec 32} {f : ℕ} {s : Sys} :
    Ends (filereadInode sb f l n) s fun r t =>
      r.2 ≤ readiMost (loaded s.fs (s.files.file f).ip).size (s.files.file f).off n.toNat ∧
        r.2 ≤ l ∧ r.1 ≤ r.2 ∧ ((t.files.file f).off : ℤ) = (s.files.file f).off + max r.1 0 := by
  rw [filereadInode, ends_bind, ends_get]
  dsimp only
  rw [ends_bind, SC.fs, ends_zoom]
  refine (ends_ilock _ _).mono fun _ t₁ hcopy => ?_
  rw [ends_bind, SC.fs, ends_zoom]
  refine (ends_readi _ _ _).mono ?_
  intro bytes t₂ hr
  rw [hcopy] at hr
  split_ifs with hpos
  · -- the offset advances
    cases bytes with
    | none => exact absurd hpos (by decide)
    | some bytes =>
      have hle : bytes.length ≤ _ := hr
      rw [ends_bind, SC.files, ends_zoom, ends_modify, ends_bind, SC.fs, ends_zoom]
      intro _ t₃ _
      rw [ends_pure]
      refine ⟨hle.trans (Nat.min_le_left _ _), hle.trans (Nat.min_le_right _ _), le_refl _, ?_⟩
      dsimp only [Files.setFile]
      rw [Function.update_self]
      dsimp only
      omega
  · rw [ends_bind, SC.fs, ends_zoom]
    intro _ t₃ _
    rw [ends_pure]
    cases bytes with
    | none =>
      have hlt : l < _ := hr
      exact ⟨hlt.le, le_refl _, by omega, by dsimp only; omega⟩
    | some bytes =>
      have hle : bytes.length ≤ _ := hr
      dsimp only at hpos
      exact ⟨hle.trans (Nat.min_le_left _ _), hle.trans (Nat.min_le_right _ _), le_refl _,
        by dsimp only; omega⟩

/-- **`fileread` of an inode returns,** and copies a byte if there is one and it can. -/
theorem meets_filereadInode {n : BitVec 32} {f : ℕ} {s : Sys}
    (h : Ready s.fs (s.files.file f).ip) :
    Meets (filereadInode sb f l n) s (fun r _ =>
      0 < readiMost (loaded s.fs (s.files.file f).ip).size (s.files.file f).off n.toNat →
        l ≠ 0 → 0 < r.2) Never := by
  set i := (s.files.file f).ip
  rw [filereadInode, meets_bind, meets_get]
  dsimp only
  rw [meets_bind, SC.fs, meets_zoom]
  refine (meets_ilock h).imp ?_
  rintro _ _ rfl
  set t := s.fs.setInode i { s.fs.inode i with locked := true, valid := true, copy := loaded s.fs i }
  have hti : t.inode i = { s.fs.inode i with locked := true, valid := true, copy := loaded s.fs i } :=
    inode_setInode_self
  have hpresent : Present t.block (t.inode i).copy (s.files.file f).off n.toNat := by
    rw [hti]
    exact h.noHoles.present h.size_le
  rw [meets_bind, SC.fs, meets_zoom, meets_readi hpresent]
  set bytes := readiResult t.block (t.inode i).copy (some l) (s.files.file f).off n.toNat with hbytes
  have hpos : 0 < readiMost (loaded s.fs i).size (s.files.file f).off n.toNat → l ≠ 0 →
      0 < (match bytes with | none => l | some bytes => bytes.length) := by
    intro hmost hl
    rw [readiMost] at hmost
    split_ifs at hmost with hbad
    · exact absurd hmost (lt_irrefl 0)
    · rw [hbytes, hti, readiResult, if_neg hbad]
      split_ifs
      · dsimp only
        rwa [length_fileBytes]
      · exact Nat.pos_of_ne_zero hl
  have hunlock (v : ℤ) (u : Sys) (hu : u.fs = t) :
      Meets (SC.fs (iunlock i) >>= fun _ => pure (v, match bytes with
        | none => l
        | some bytes => bytes.length)) u (fun r _ =>
        0 < readiMost (loaded s.fs i).size (s.files.file f).off n.toNat → l ≠ 0 → 0 < r.2) Never := by
    rw [meets_bind, SC.fs, meets_zoom, hu, meets_iunlock (by rw [hti]; exact h.ref) (by rw [hti])]
    exact hpos
  split_ifs
  · exact hunlock _ _ rfl
  · exact hunlock _ _ rfl

end

/-! ## `read` -/

/-- A process has opened a file of five bytes; `f` is 0, and so is its inode. -/
def fiveBytes : Sys where
  fs := {
    bitmap := fun _ => true
    dinode := fun _ => .zero
    block := fun _ _ => 65
    inode := fun _ => {
      inum := 2
      ref := 1
      locked := false
      valid := true
      copy := { Dinode.zero with type := .T_FILE, size := 5, addrs := fun _ => 100 } }
    trace := []
    home := fun _ _ => 65
    pinned := fun _ => false }
  files := {
    file := fun _ => { File.none with type := .FD_INODE, ref := 1, readable := true }
    ofile := fun _ _ => none }
  major := fun _ => 0

end Xv6.Fs
