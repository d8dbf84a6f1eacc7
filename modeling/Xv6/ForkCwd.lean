import Xv6.UserRun

/-!
# `fork`, with working directories

What a caller of `fork` can tell from the number it returns. The number of a process
is an `int` that `allocpid` counts up, and that wraps around: a child can have the
number -1.
-/

namespace Xv6.UserSys

open Function

open Prog

variable {b : Bool × ℕ} {K R : Multiset ℕ} {p : ℕ}

/-- The system with the inodes that processes have as their working directory. -/
structure CwdState where
  sys : UState
  /-- `proc[i].cwd`, as an entry of the inode table -/
  cwd : ℕ → ℕ
  /-- `itable.inode[i].ref` -/
  ref : ℕ → ℕ

variable {s s' : CwdState}

/-- Kernel code that does not look at working directories. -/
def CwdState.run {α : Type} (x : US α) : Prog CwdState α :=
  zoom CwdState.sys (fun s t => { t with sys := s }) x

/-- `kfork`, with `np->cwd = idup(p->cwd)` -/
def kforkCwd (p : ℕ) : Prog CwdState ℤ := do
  match ← CwdState.run (kforkCopy p) with
  | none => return -1
  | some np =>
    let pid ← CwdState.run (kforkRest p np)
    modify fun s => { s with
      cwd := update s.cwd np (s.cwd p)
      ref := update s.ref (s.cwd p) (s.ref (s.cwd p) + 1) }
    return pid

/-- Nothing has changed. -/
def NotForkedCwd (p : ℕ) (s s' : CwdState) : Prop :=
  NotForked p s.sys s'.sys ∧ s'.cwd = s.cwd ∧ s'.ref = s.ref

theorem kforkCwd_forks (h : UInv b K R s.sys) (hrun : (s.sys.proc p).state = .RUNNABLE) :
    Meets (kforkCwd p) s (fun r s' => r = -1 ∧ NotForkedCwd p s s' ∨
      r = s.sys.nextpid.toInt ∧ ∃ np, Forked p np s.sys s'.sys) Never := by
  rw [kforkCwd, meets_bind, CwdState.run, meets_zoom]
  refine (kforkCopy_forks h hrun).imp ?_
  rintro r σ₁ (⟨rfl, hnot, -⟩ | ⟨np, rfl, hrest⟩)
  · exact .inl ⟨rfl, hnot, rfl, rfl⟩
  · simp only [CwdState.run, meets_bind, meets_zoom, meets_modify, meets_pure]
    exact hrest.imp fun _ _ h' => .inr ⟨h'.1, np, h'.2.1⟩

/-- A child that was made is not there if nothing has changed. -/
theorem Forked.not_notForked {np : ℕ} {σ σ' : UState} (h : Forked p np σ σ') :
    ¬NotForked p σ σ' := fun hnot => by
  have := hnot.unused np h.unused
  rw [h.state] at this
  cases this

/-- What `fork` promises to its caller: -1 if nothing has changed, and else there is a child. -/
def ForkCopies (p : ℕ) (s : CwdState) (r : ℤ) (s' : CwdState) : Prop :=
  if r = -1 then NotForkedCwd p s s' else ∃ np, Forked p np s.sys s'.sys

/-- A machine with twenty pages besides the kernel. -/
def forkKend : ℕ := PHYSTOP - 20 * PGSIZE

theorem layout_fork : Layout forkKend KERNBASE := ⟨by decide, by decide, by decide⟩

/-- The first process has one page, and the next one is to have the number `pid`. -/
def onePage (pid : BitVec 32) : Option CwdState :=
  match (main 0).after (loaded forkKend KERNBASE) with
  | .ok s =>
    match (growproc initproc 4096).after s with
    | .ok s => some ⟨{ s with first := false, nextpid := pid }, fun _ => 0, fun _ => 1⟩
    | _ => none
  | _ => none

/-- Does it get a child? -/
def onePageForks (pid : BitVec 32) : Bool :=
  match onePage pid with
  | some s =>
    match kforkCwd initproc s with
    | .ok (_, s') => (s.sys.proc initproc).sz == 4096 && (s.sys.proc initproc).state == .RUNNABLE &&
        (s.sys.proc 1).state == .UNUSED && (s'.sys.proc 1).state == .RUNNABLE
    | _ => false
  | none => false

attribute [local irreducible] main growproc kforkCwd

theorem uinv_onePage {pid : BitVec 32} (h : onePage pid = some s) :
    UInv (false, forkKend) 0 0 s.sys ∧ s.sys.nextpid = pid := by
  unfold onePage at h
  split at h
  · rename_i s₀ hboot
    split at h
    · rename_i s₁ hgrow
      cases h
      obtain ⟨-, h₀, hrun, -⟩ := (main_spec layout_fork).after_ok hboot
      have hspec := growproc_spec (n := 4096) h₀ (h₀.runnable hrun) (by norm_num)
      obtain ⟨-, h₁, -⟩ := hspec.after_ok hgrow
      exact ⟨⟨h₁.pages, h₁.layout, h₁.slots, h₁.range, h₁.files, h₁.pipes, h₁.closed,
        congrArg (Prod.mk false) h₁.kend_eq⟩, rfl⟩
    · cases h
  · cases h

theorem exists_onePage (pid : BitVec 32) (heq : onePageForks pid = true) :
    ∃ s s', UInv (false, forkKend) 0 0 s.sys ∧ (s.sys.proc initproc).state = .RUNNABLE ∧
      (s.sys.proc initproc).sz = 4096 ∧ s.sys.nextpid = pid ∧
      kforkCwd initproc s = .ok (pid.toInt, s') ∧ ∃ np, Forked initproc np s.sys s'.sys := by
  unfold onePageForks at heq
  split at heq
  · rename_i s hs
    split at heq
    · rename_i r s' hfork
      simp only [Bool.and_eq_true, beq_iff_eq] at heq
      obtain ⟨⟨⟨hsz, hrun⟩, hun⟩, hchild⟩ := heq
      obtain ⟨h, rfl⟩ := uinv_onePage hs
      rcases (kforkCwd_forks h hrun).of_ok hfork with ⟨-, hnot⟩ | ⟨rfl, hforked⟩
      · have := hnot.1.unused 1 hun
        rw [hchild] at this
        cases this
      · exact ⟨s, s', h, hrun, hsz, rfl, hfork, hforked⟩
    · cases heq
  · cases heq

end Xv6.UserSys
