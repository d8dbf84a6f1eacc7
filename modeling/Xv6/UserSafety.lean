import Xv6.UserRun

/-!
# What runs of the machine keep, and what they do not

The headlines over `UserSys`: every page has one owner (`page_ownership`), the
reference counts of open files and the flags of pipes tell which descriptors are
open (`file_references`), and address spaces stay below the trapframe
(`address_space_bound`, `mappings_below_break`). The last two need care: a lazy
`sbrk` does not check that the process stays below the trapframe, and an eager
one finds out too late. The runs that show it start at the end of this module's
first part, with a process that has loaded a program without segments.
-/

namespace Xv6.UserSys

open List Multiset

open Prog Finset

variable {kend trampoline n : ℕ} {s₀ s : UState}

/-! ## A first process that runs -/

/-- `kexec` succeeds if it can build the new image. -/
theorem kexec_success {k k₁ k₂ : KMem} {me : Me} {tf pt sz sp argc : ℕ} {ip : List UInt8}
    {argv : List (List UInt8)} {Q : ℤ × Me → KMem → Prop}
    (h : Meets (kexec me tf (some ip) argv) k Q Never)
    (hlen : (readi ip 0 elfhdrSize).length = elfhdrSize)
    (hmagic : field (readi ip 0 elfhdrSize) 4 0 = ELF_MAGIC)
    (hpt : proc_pagetable tf k = .ok (pt, k₁)) (h0 : pt ≠ 0)
    (hbuild : buildImage me pt ip argv k₁ = .ok ((sz, some (sp, argc)), k₂)) :
    Meets (kexec me tf (some ip) argv) k
      (fun r k' => Q r k' ∧ r = ((argc : ℤ), ⟨sz, pt⟩)) Never := by
  rw [kexec] at h ⊢
  rw [if_neg (not_not.mpr hlen), if_neg (not_not.mpr hmagic), meets_bind, meets_of_ok hpt,
    if_neg h0, meets_bind, meets_of_ok hbuild] at h ⊢
  simp only [VM.store, meets_bind, meets_modify, meets_pure] at h ⊢
  exact h.imp fun _ _ h' => ⟨h', trivial⟩

/-- An ELF file without program headers. -/
def emptyProgram : List UInt8 := [0x7f, 0x45, 0x4c, 0x46] ++ List.replicate 60 0

/-- A small machine: twelve pages besides the kernel. -/
def smallKend : ℕ := PHYSTOP - 12 * PGSIZE

/-- The small machine boots, and its first process finds room for a program: how much it takes. -/
def imageSize (ip : List UInt8) (argv : List (List UInt8)) : Option ℕ :=
  match (main 0).after (loaded smallKend KERNBASE) with
  | .ok s =>
    match proc_pagetable (s.proc 0).trapframe { s.kmem with fails := [] } with
    | .ok (pt, k) =>
      match buildImage (s.proc 0).me pt ip argv k with
      | .ok ((sz, some _), _) => if pt = 0 then none else some sz
      | _ => none
    | _ => none
  | _ => none

theorem layout_small : Layout smallKend KERNBASE := ⟨by decide, by decide, by decide⟩

section

attribute [local irreducible] main

/-- **`exec` succeeds** on the small machine. -/
theorem exists_booted {ip : List UInt8} {argv : List (List UInt8)} {sz : ℕ}
    (h : imageSize ip argv = some sz) (hlen : (readi ip 0 elfhdrSize).length = elfhdrSize)
    (hmagic : field (readi ip 0 elfhdrSize) 4 0 = ELF_MAGIC) :
    ∃ s, Booted smallKend KERNBASE 0 s ∧ UInv (true, smallKend) 0 0 s ∧
      (s.proc initproc).state = .RUNNABLE ∧ s.files = (loaded smallKend KERNBASE).files ∧
      ∀ Q, Meets (kexec (s.proc 0).me (s.proc 0).trapframe (some ip) argv)
          { s.kmem with fails := [] } Q Never →
        Meets (kexec (s.proc 0).me (s.proc 0).trapframe (some ip) argv)
          { s.kmem with fails := [] } (fun r k' => Q r k' ∧ r.1 ≠ -1 ∧ r.2.sz = sz) Never := by
  unfold imageSize at h
  split at h
  · rename_i s hboot
    split at h
    · rename_i pt k₁ hpt
      split at h
      · rename_i sz' spargc k₂ hbuild
        split_ifs at h with h0
        cases h
        obtain ⟨-, hinv, hrun, hfiles⟩ := (main_spec layout_small).after_ok hboot
        refine ⟨s, hboot, hinv, hrun, hfiles, fun Q hQ => ?_⟩
        refine (kexec_success hQ hlen hmagic hpt h0 hbuild).imp ?_
        rintro r k' ⟨hq, rfl⟩
        exact ⟨hq, by dsimp only; omega, rfl⟩
      · cases h
    · cases h
  · cases h

end

/-- The first process is in user space, with a stack that has its arguments and nothing else. -/
structure Started (s : UState) : Prop where
  inv : UInv (false, smallKend) 0 0 s
  running : (s.proc initproc).state = .RUNNABLE
  size : (s.proc initproc).sz = 8192
  freelist : s.kmem.freelist ≠ 0
  files : s.files = (loaded smallKend KERNBASE).files
  stack : ∃ e, leaf s.kmem.mem (s.proc initproc).pagetable 1 = some e ∧
    e % 2 ^ 10 = PTE_R ||| PTE_U ||| PTE_W ||| PTE_V
  args : ∃ sp, ArgStack s.kmem.mem (s.proc initproc).pagetable 1 [initPath] sp

theorem exists_started : ∃ s₀ s, Booted smallKend KERNBASE 0 s₀ ∧
    step s₀ ⟨[], .forkret (some emptyProgram)⟩ = .ok s ∧ Started s := by
  have hsize : imageSize emptyProgram [initPath] = some 8192 := by decide +kernel
  obtain ⟨s, hboot, h, hrun, hfiles, hexec⟩ :=
    exists_booted hsize (by decide) (by decide)
  set k : KMem := { s.kmem with fails := [] }
  have hpt₀ := h.runnable hrun
  obtain ⟨F, hc, hsep, hspace, htr, -⟩ := (h.setFails []).atExec hpt₀
  have hm : Meets (forkretFirst (some emptyProgram)) { s with kmem := k } (fun _ s' =>
      UInv (false, smallKend) 0 0 s' → Started s') Never := by
    simp only [forkretFirst, kexecBy, US.proc, US.setProc, US.vm, meets_bind, meets_modify,
      meets_get, meets_pure, meets_zoom, VM.store]
    refine (hexec _ (kexec_outcome hc hsep hspace htr (by simp [initPath]))).imp ?_
    rintro ⟨r, me⟩ k' ⟨hr, hne, hsz⟩
    obtain ⟨F', hrep, hold, sz₁, sp, argc, hstack⟩ := (hr.resolve_left fun h => hne h.1).2
    have hsep' : Sep k'.kend ((s.proc 0).trapframe ::ₘ (F' + asPages k'.mem me.pagetable)) := by
      rw [hrep.touches.kend, show F' + asPages k'.mem me.pagetable = _ from hrep.sum]
      exact hsep
    have hF' := hsep'.mono (le_cons_self _ _)
    -- the result of `exec` goes to the trapframe, which is not mapped for the user
    have hframe : UserFrame me.pagetable 0 0 k' { k' with
        mem := putLE 8 k'.mem ((s.proc 0).trapframe + 112) (addInt 0 r) } :=
      (Touches.store (hsep'.page _ (mem_cons_self _ _)).1 (by omega)).userFrame fun x hx =>
        ⟨(hF'.right.page x hx).1, fun hmem => (nodup_cons.mp hsep'.nodup).1
          (mem_add.mpr (.inr (Multiset.mem_singleton.mp hmem ▸ hx)))⟩
    have hpages : npages sz₁ = 0 := by
      have := hstack.size
      dsimp only at this hsz
      omega
    have hstack' := hstack.frame hframe (by rw [hpages]; decide)
    have huser := hstack'.user
    have hargs := hstack'.args
    rw [hpages] at huser hargs
    rw [if_neg hne, meets_pure]
    intro hinv
    refine ⟨hinv, ?_, ?_, hrep.chain.freelist_ne hold hF'.left.zero_notMem, hfiles, ?_, sp, ?_⟩ <;>
      simp only [Function.update_self]
    · exact hrun
    · exact hsz
    · exact huser
    · exact hargs
  have hgood : Good smallKend s := by
    refine ⟨?_, fun _ => hrun⟩
    rw [h.first]
    exact h
  have hstep : step s ⟨[], .forkret (some emptyProgram)⟩ =
      (forkretFirst (some emptyProgram)).after { s with kmem := k } := by
    rw [step, if_pos (show Action.Enabled s (.forkret _) from h.first)]
    rfl
  obtain ⟨-, s', hs, hst⟩ := hm.exists_after
  rw [← hstep] at hs
  exact ⟨s, s', hboot, hs, hst ((step_spec hgood fun p n t he => by cases he).1 s' hs).inv⟩

/-! ## Pages -/

theorem Good.free (h : Good kend s) :
    ∃ F, Chain s.kmem F ∧ 0 ∉ F ∧ F + owned s = allPages kend ∧ (F + owned s).Nodup := by
  obtain ⟨F, hc, hsum⟩ := h.1.pages
  have hsep := h.1.sep hsum
  rw [add_zero] at hsum hsep
  rw [h.1.kend_eq] at hsum
  exact ⟨F, hc, hsep.left.zero_notMem, hsum, hsep.nodup⟩

/-- No page belongs to two processes. -/
theorem Good.not_shared (h : Good kend s) {p q x : ℕ} (hp : x ∈ procPages s.kmem.mem (s.proc p))
    (hq : x ∈ procPages s.kmem.mem (s.proc q)) : p = q := by
  have hlt : ∀ {i}, x ∈ procPages s.kmem.mem (s.proc i) → i < NPROC := fun {i} hx => by
    by_contra hge
    obtain ⟨h1, h2, -⟩ := (h.1.slots i).unused (h.1.range i (by omega))
    simp [procPages, h1, h2] at hx
  by_contra hne
  obtain ⟨F, -, -, hsep, -⟩ := h.1.atSlot (hlt hp)
  exact hsep.not_mem (mem_add.mpr (.inr hp)) (mem_others (hlt hq) (Ne.symm hne) hq)

/-- **Every page has one owner.** In every state of a run in which the sizes of processes stay at
most `TRAPFRAME`, whichever allocations have failed:

* a page above the kernel occurs once among the free list, the pages of the kernel, of pipes, and
  the trapframes, page-table pages and user pages of processes (`owned`), and no other page does;
* no two processes share a page;
* a wait that reaps a child returns the child's pages to the free list. -/
theorem page_ownership (hl : Layout kend trampoline) (hboot : Booted kend trampoline n s₀)
    (hrun : Run step Bounded s₀ s) :
    (∃ F, Chain s.kmem F ∧ F + owned s = allPages kend ∧
      ∀ x, PGROUNDUP kend ≤ x → x < PHYSTOP → x % PGSIZE = 0 → (F + owned s).count x = 1) ∧
    (∀ p q x, x ∈ procPages s.kmem.mem (s.proc p) → x ∈ procPages s.kmem.mem (s.proc q) → p = q) ∧
    ∀ fails p addr s', step s ⟨fails, .call p (.wait addr)⟩ = .ok s' → Reaped p s s' := by
  have hgood := good_of_bounded hl hboot hrun
  refine ⟨?_, fun p q x => hgood.not_shared, fun fails p addr s' hs => ?_⟩
  · obtain ⟨F, hc, -, hsum, hnd⟩ := hgood.free
    refine ⟨F, hc, hsum, fun x h1 h2 h3 => count_eq_one_of_mem hnd ?_⟩
    rw [hsum]
    exact mem_allPages.mpr ⟨h1, h2, h3⟩
  · exact ((step_spec hgood fun p n t he => by cases he).1 s' hs).reaped p addr rfl

/-- The first step of the small machine keeps sizes small. -/
theorem bounded_start {s₁ : UState} (hboot : Booted smallKend KERNBASE 0 s₀)
    (hs : step s₀ ⟨[], .forkret (some emptyProgram)⟩ = .ok s₁) : Run step Bounded s₀ s₁ := by
  refine Run.refl.tail (fun s' hs' p => ?_) hs
  exact (((step_spec (hboot.good layout_small) fun p n t he => by cases he).1 s' hs').inv.slots p).size

theorem page_ownership_started : ∃ s₀ s F, Booted smallKend KERNBASE 0 s₀ ∧
    Run step Bounded s₀ s ∧ (s.proc 0).sz = 8192 ∧ Chain s.kmem F ∧
    F + owned s = allPages smallKend := by
  obtain ⟨s₀, s, hboot, hs, hst⟩ := exists_started
  have hrun := bounded_start hboot hs
  obtain ⟨F, hc, hsum, -⟩ := (page_ownership layout_small hboot hrun).1
  exact ⟨s₀, s, F, hboot, hrun, hst.size, hc, hsum⟩

/-! ## Files -/

/-- Some descriptor refers to this end of the pipe. -/
def EndOpen (fs : Files) (pi : ℕ) (w : Bool) : Prop :=
  ∃ p fd f, fs.ofile p fd = some f ∧ pipeEnd fs f = some (pi, w)

/-- One of the ends of the pipe is open. -/
def PipeOpen (fs : Files) (pi : ℕ) : Prop := ∃ w, EndOpen fs pi w

theorem FilesOk.endOpen {fs : Files} {f pi : ℕ} {w : Bool} (h : FilesOk 0 fs)
    (hf : pipeEnd fs f = some (pi, w)) : EndOpen fs pi w := by
  have href : (fs.file f).ref ≠ 0 := fun h0 => by
    rw [pipeEnd, if_neg (by simp [h.free f h0])] at hf
    cases hf
  rw [h.ref f, count_zero, add_zero] at href
  obtain ⟨p, fd, hfd⟩ := Files.exists_of_slots_pos (Nat.pos_of_ne_zero href)
  exact ⟨p, fd, f, hfd, hf⟩

/-- The pages of pipes are those with an open end. -/
theorem mem_pipePages_iff {fs : Files} {pi : ℕ} (h : FilesOk 0 fs) :
    pi ∈ pipePages fs ↔ PipeOpen fs pi := by
  constructor
  · intro hpi
    obtain ⟨f, -, w, hf⟩ := mem_pipePages.mp hpi
    exact ⟨w, FilesOk.endOpen h hf⟩
  · rintro ⟨w, p, fd, f, -, hf⟩
    exact pipeEnd_page h hf

/-- The flags of a pipe tell which of its ends are open. -/
theorem openFlag_iff {fs : Files} {m : Bytes} {pi : ℕ} (h : FilesOk 0 fs) (hpipes : PipeOk m fs)
    (hpi : PipeOpen fs pi) (w : Bool) :
    getLE 4 m (openFlag pi w) = 1 ↔ EndOpen fs pi w := by
  obtain ⟨w', p, fd, f, -, hf⟩ := hpi
  constructor
  · intro hflag
    by_cases hw : w = w'
    · subst hw
      exact FilesOk.endOpen h hf
    · obtain rfl : w = !w' := by cases w <;> cases w' <;> simp_all
      by_contra hno
      have h0 := hpipes.other f pi w' hf fun g hg => hno (FilesOk.endOpen h hg)
      rw [h0] at hflag
      cases hflag
  · rintro ⟨p, fd, g, -, hg⟩
    exact hpipes.flag g pi w hg

theorem Good.pipe_not_free (h : Good kend s) {F : Multiset ℕ} {pi : ℕ} (hnd : (F + owned s).Nodup)
    (hpi : PipeOpen s.files pi) : pi ∉ F := by
  rw [← mem_pipePages_iff h.1.files] at hpi
  refine fun hF => disjoint_left.mp (disjoint_of_nodup_add hnd) hF ?_
  exact mem_add.mpr (.inl (mem_add.mpr (.inr hpi)))

/-- **Open files are counted right.** In every state of a run:

* the reference count of a file is the number of descriptors that refer to it, and a file without
  descriptors is free;
* the flag of an end of an open pipe is 1 if some descriptor refers to this end, and only then;
* the page of an open pipe is not on the free list; once an event has closed both ends it is, and
  it is there once. -/
theorem file_references (hl : Layout kend trampoline) (hboot : Booted kend trampoline n s₀)
    (hrun : Run step Fits s₀ s) :
    (∀ f, (s.files.file f).ref = s.files.slots f ∧
      (s.files.slots f = 0 → (s.files.file f).type = .FD_NONE)) ∧
    (∀ pi, PipeOpen s.files pi → ∀ w,
      getLE 4 s.kmem.mem (openFlag pi w) = 1 ↔ EndOpen s.files pi w) ∧
    (∃ F, Chain s.kmem F ∧ F + owned s = allPages kend ∧ ∀ pi, PipeOpen s.files pi → pi ∉ F) ∧
    ∀ e s', Fits s e → step s e = .ok s' → ∃ F, Chain s'.kmem F ∧ F + owned s' = allPages kend ∧
      ∀ pi, PipeOpen s.files pi →
        PipeOpen s'.files pi ∧ pi ∉ F ∨ ¬PipeOpen s'.files pi ∧ F.count pi = 1 := by
  have hgood := good_of_run hl hboot hrun
  have hfiles := hgood.1.files
  refine ⟨fun f => ?_, fun pi hpi => openFlag_iff hfiles hgood.1.pipes hpi, ?_,
    fun e s' hfits hs => ?_⟩
  · have href := hfiles.ref f
    exact ⟨href, fun h0 => hfiles.free f (href.trans h0)⟩
  · obtain ⟨F, hc, -, hsum, hnd⟩ := hgood.free
    exact ⟨F, hc, hsum, fun pi => hgood.pipe_not_free hnd⟩
  · have hst := (step_spec hgood hfits).1 s' hs
    have hgood' := hst.inv.good
    obtain ⟨F, hc, h0, hsum, hnd⟩ := hgood'.free
    refine ⟨F, hc, hsum, fun pi hpi => ?_⟩
    rw [← mem_pipePages_iff hfiles] at hpi
    by_cases hopen : PipeOpen s'.files pi
    · exact .inl ⟨hopen, hgood'.pipe_not_free hnd hopen⟩
    · refine .inr ⟨hopen, ?_⟩
      rcases hst.frees pi hpi with hpi' | ⟨F', hc', h0', hF'⟩
      · exact absurd ((mem_pipePages_iff hgood'.1.files).mp hpi') hopen
      · rw [hc'.unique hc h0' h0] at hF'
        exact count_eq_one_of_mem (nodup_of_le (le_add_right _ _) hnd) hF'

theorem kalloc_freelist {k : KMem} (hfails : k.fails = []) :
    Meets kalloc k (fun r _ => r = k.freelist) Never := by
  simp only [kalloc, meets_bind, meets_get, meets_set, hfails]
  rw [if_neg (by simp)]
  split
  · simp only [VM.load, VM.memset, meets_bind, meets_get, meets_pure, meets_modify]
  · rfl

/-- A call of the first process, when no allocation fails. -/
theorem step_call {c : Call} {P : UState → Prop} (hfirst : s.first = false)
    (hrun : (s.proc 0).state = .RUNNABLE)
    (h : Meets (c.code 0) { s with kmem := { s.kmem with fails := [] } } (fun _ s' => P s') Never) :
    ∃ s', step s ⟨[], .call 0 c⟩ = .ok s' ∧ P s' := by
  obtain ⟨-, s', hs, hP⟩ := h.exists_after
  refine ⟨s', ?_, hP⟩
  rw [step, if_pos (show (Action.call 0 c).Enabled s from ⟨hfirst, by decide, hrun⟩)]
  exact hs

/-- A file is open as descriptor 0. -/
def openFiles : Files :=
  let f := (loaded smallKend KERNBASE).files
  let f := (f.setFile 0 { f.file 0 with ref := 1 }).setFd 0 0 (some 0)
  f.setFile 0 { f.file 0 with type := .FD_INODE }

/-- And as descriptor 1. -/
def dupFiles : Files :=
  let f := openFiles.setFd 0 1 (some 0)
  f.setFile 0 { f.file 0 with ref := 2 }

/-- And files 1 and 2 are the ends of a pipe. -/
def pipeFiles (pi : ℕ) : Files :=
  let f := dupFiles.setFile 1 { dupFiles.file 1 with ref := 1 }
  let f := f.setFile 2 { f.file 2 with ref := 1 }
  let f := f.setFile 1 { f.file 1 with
    type := .FD_PIPE, readable := true, writable := false, pipe := pi }
  f.setFile 2 { f.file 2 with
    type := .FD_PIPE, readable := false, writable := true, pipe := pi }

section Pipe

variable {b : Bool × ℕ} {F : Multiset ℕ} {e root : ℕ}

theorem pipealloc_opens (hc : Chain s.kmem F) (hsep : Sep s.kmem.kend (F + asPages s.kmem.mem root))
    (hok : PtOk s.kmem.mem root) (hfiles : s.files = dupFiles) (hfails : s.kmem.fails = [])
    (hfl : s.kmem.freelist ≠ 0) :
    Meets pipealloc s (fun r s' => r = some (1, 2) ∧ ∃ pi F' k',
      s' = { s with kmem := k', files := pipeFiles pi } ∧ Fresh root pi F' s.kmem k') Never := by
  simp only [pipealloc, US.files, meets_bind, meets_zoom, hfiles]
  rw [meets_of_ok (show filealloc dupFiles = .ok (some 1, _) from rfl)]
  simp only [meets_bind, meets_zoom]
  rw [meets_of_ok (show filealloc (dupFiles.setFile 1 _) = .ok (some 2, _) from rfl)]
  simp only [pipeallocRest, US.vm, meets_bind, meets_zoom]
  refine ((kalloc_spec hc hsep.left).and (kalloc_freelist hfails)).mono ?_ fun _ h => h.1
  rintro pi k₁ ⟨⟨rfl, -⟩ | ⟨hpi, F', rfl, hc₁, ht₁⟩, hfree⟩
  · exact absurd hfree.symm hfl
  rw [if_neg hpi]
  have hpage := (hsep.page pi (by simp)).1
  simp only [store32, meets_bind, meets_zoom, meets_modify, meets_pure]
  refine ⟨trivial, pi, F', _, rfl, .of_kalloc hsep hok hc₁ ht₁ ?_ rfl⟩
  exact (((Touches.setFlag hpage false 1).trans (Touches.setFlag hpage true 1)).trans
    (Touches.store32 hpage (by omega) 0)).trans (Touches.store32 hpage (by omega) 0)

/-- Two numbers are copied to the user stack. -/
theorem copyouts_succeed {me : Me} {k : KMem} {x y : ℕ} (hc : Chain k F)
    (hsep : Sep k.kend (F + asPages k.mem root)) (hok : PtOk k.mem root)
    (hl : leaf k.mem root 1 = some e) (he : e % 2 ^ 10 = PTE_R ||| PTE_U ||| PTE_W ||| PTE_V) :
    Meets (copyout me root 4096 (int32 x)) k (fun r k₁ => r = 0 ∧
      Meets (copyout me root 4100 (int32 y)) k₁ (fun r _ => r = 0) Never) Never := by
  have hu : Users k.mem root 1 2 := fun v h1 h2 => by
    obtain rfl : v = 1 := by omega
    exact ⟨by decide, e, hl, flag_of_mod he (by decide)⟩
  have hw : Writable k.mem root 1 2 := fun v h1 h2 => by
    obtain rfl : v = 1 := by omega
    refine ⟨by decide, fun e' hl' => ?_⟩
    obtain rfl := Option.some.inj (hl.symm.trans hl')
    exact flag_of_mod he (by decide)
  refine (copyout_users_spec hc hsep hok hu (by norm_num) (by simp [int32])).imp ?_
  rintro r k₁ ⟨hstep, hframe, -, hret⟩
  refine ⟨hret hw, ?_⟩
  exact (copyout_users_spec hstep.chain (hstep.sep hsep) hstep.ok (hu.congr hframe.leaf_eq)
    (by norm_num) (by simp [int32])).imp fun r k₂ h => h.2.2.2 (hw.congr hframe.leaf_eq)

/-- `pipe`, with an array on the user stack, succeeds. -/
theorem pipe_opens (h : UInv b 0 0 s) (hrun : (s.proc 0).state = .RUNNABLE)
    (hfiles : s.files = dupFiles) (hfails : s.kmem.fails = []) (hfl : s.kmem.freelist ≠ 0)
    (hl : leaf s.kmem.mem (s.proc 0).pagetable 1 = some e)
    (he : e % 2 ^ 10 = PTE_R ||| PTE_U ||| PTE_W ||| PTE_V) :
    Meets (sys_pipe 0 4096) s (fun _ s' =>
      ∃ pi, s'.files = ((pipeFiles pi).setFd 0 2 (some 1)).setFd 0 3 (some 2)) Never := by
  obtain ⟨F, hc, hsep, hspace, -⟩ := h.atSpace (h.runnable hrun)
  rw [sys_pipe, meets_bind]
  refine (pipealloc_opens hc hsep hspace.ok hfiles hfails hfl).imp ?_
  rintro r s₁ ⟨rfl, pi, F', k', rfl, hfresh⟩
  simp only [US.files, meets_bind, meets_zoom]
  rw [meets_of_ok (show fdalloc 0 1 (pipeFiles pi) = .ok (some 2, _) from rfl)]
  simp only [meets_bind, meets_zoom]
  rw [meets_of_ok (show fdalloc 0 2 ((pipeFiles pi).setFd 0 2 _) = .ok (some 3, _) from rfl)]
  simp only [sys_pipeRest, copyoutTo, US.proc, US.vm, meets_bind, meets_get, meets_pure, meets_zoom]
  have hsep' : Sep k'.kend (F' + asPages k'.mem (s.proc 0).pagetable) := by
    refine hfresh.sep.mono ?_
    rw [cons_add]
    exact le_cons_self _ _
  refine (copyouts_succeed (y := 3) hfresh.chain hsep' hfresh.ok
    ((hfresh.leaf_eq 1 (by norm_num)).trans hl) he).imp ?_
  rintro r k₂ ⟨rfl, hsnd⟩
  rw [if_neg (by decide)]
  simp only [meets_bind, meets_get, meets_zoom]
  refine hsnd.imp ?_
  rintro r k₃ rfl
  rw [if_neg (by decide)]
  exact ⟨pi, rfl⟩

end Pipe

/-- A process opens a file, duplicates its descriptor, and opens a pipe. -/
theorem file_references_pipe : ∃ s₀ s pi, Booted smallKend KERNBASE 0 s₀ ∧ Run step Fits s₀ s ∧
    (s.files.file 0).ref = 2 ∧ s.files.slots 0 = 2 ∧ PipeOpen s.files pi ∧
    ∀ w, getLE 4 s.kmem.mem (openFlag pi w) = 1 := by
  obtain ⟨s₀, s₁, hboot, hs₁, hst⟩ := exists_started
  obtain ⟨e, hl, he⟩ := hst.stack
  set after : Files → UState := fun f => { s₁ with kmem := { s₁.kmem with fails := [] }, files := f }
  have hopen : Meets (Call.code 0 (.open false)) { s₁ with kmem := { s₁.kmem with fails := [] } }
      (fun _ s' => s' = after openFiles) Never := by
    simp only [Call.code, openFile, US.files, meets_bind, meets_zoom, hst.files]
    rw [meets_of_ok (show filealloc _ = .ok (some 0, _) from rfl)]
    simp only [meets_bind, meets_zoom]
    rw [meets_of_ok (show fdalloc 0 0 (Files.setFile _ 0 _) = .ok (some 0, _) from rfl)]
    rfl
  have hdup : Meets (Call.code 0 (.dup 0)) (after openFiles) (fun _ s' => s' = after dupFiles)
    Never := rfl
  obtain ⟨s₂, hs₂, rfl⟩ := step_call hst.inv.first hst.running hopen
  obtain ⟨s₃, hs₃, rfl⟩ := step_call (s := after openFiles) hst.inv.first hst.running hdup
  have hrun₃ : Run step Fits s₀ (after dupFiles) :=
    ((Run.refl.tail (fun p n t he => by cases he) hs₁).tail (fun p n t he => by cases he)
      hs₂).tail (fun p n t he => by cases he) hs₃
  have hpipe : Meets (Call.code 0 (.pipe 4096)) (after dupFiles) (fun _ s' =>
      ∃ pi, s'.files = ((pipeFiles pi).setFd 0 2 (some 1)).setFd 0 3 (some 2)) Never :=
    meets_bind.mpr (pipe_opens (good_of_run layout_small hboot hrun₃).1 hst.running rfl rfl
      hst.freelist hl he)
  obtain ⟨s, hs, pi, hfiles⟩ := step_call (s := after dupFiles) hst.inv.first hst.running hpipe
  have hrun := hrun₃.tail (fun p n t he => by cases he) hs
  obtain ⟨href, hflags, -⟩ := file_references layout_small hboot hrun
  have hends : ∀ w, EndOpen s.files pi w := fun w => by
    rw [hfiles]
    cases w
    · exact ⟨0, 2, 1, rfl, rfl⟩
    · exact ⟨0, 3, 2, rfl, rfl⟩
  have h2 : (s.files.file 0).ref = 2 := by
    rw [hfiles]
    rfl
  exact ⟨s₀, s, pi, hboot, hrun, h2, (href 0).1.symm.trans h2, ⟨true, hends true⟩, fun w =>
    (hflags pi ⟨true, hends true⟩ w).mpr (hends w)⟩

/-! ## Sizes -/

/-- **Address spaces stay below the trapframe** as long as lazy growth does, whatever else
processes do; then the trapframe and the trampoline stay mapped, and no call gives `walk` an
address it cannot take. -/
theorem address_space_bound (hl : Layout kend trampoline) (hboot : Booted kend trampoline n s₀)
    (hrun : Run step Fits s₀ s) :
    (∀ p, (s.proc p).sz ≤ TRAPFRAME) ∧
    (∀ p, (s.proc p).pagetable ≠ 0 →
      leaf s.kmem.mem (s.proc p).pagetable (TRAPFRAME / PGSIZE) =
        some (PA2PTE (s.proc p).trapframe ||| (PTE_R ||| PTE_W ||| PTE_V)) ∧
      leaf s.kmem.mem (s.proc p).pagetable (TRAMPOLINE / PGSIZE) =
        some (PA2PTE s.kmem.trampoline ||| (PTE_R ||| PTE_X ||| PTE_V))) ∧
    ∀ e, Fits s e → step s e ≠ .panic "walk" := by
  have hgood := good_of_run hl hboot hrun
  refine ⟨fun p => (hgood.1.slots p).size, fun p hpt => ?_, fun e hfits hs => ?_⟩
  · have hspace := ((hgood.1.slots p).space hpt).2
    exact ⟨hspace.trapframe, hspace.trampoline⟩
  · rcases (step_spec hgood hfits).2 _ hs with hmsg | hmsg | ⟨hmsg, -⟩ <;> simp at hmsg

/-- The first process grows by a page, lazily. -/
theorem exists_grown : ∃ s₀ s, Booted smallKend KERNBASE 0 s₀ ∧ Run step Fits s₀ s ∧
    Run step Bounded s₀ s ∧ (s.proc 0).pagetable ≠ 0 ∧ (s.proc 0).sz = 12288 := by
  obtain ⟨s₀, s, hboot, hs, hst⟩ := exists_started
  have hsz : (s.proc 0).sz = 8192 := hst.size
  have hgrow : step s ⟨[], .call 0 (.sbrk 4096 2)⟩ = .ok _ :=
    step_lazy (show (Action.call 0 _).Enabled s from ⟨hst.inv.first, by decide, hst.running⟩)
      (by rw [hsz]; decide) (by decide) (by decide)
  have hfits : Fits s ⟨[], .call 0 (.sbrk 4096 2)⟩ := fun p n t he _ _ => by
    cases he
    rw [hsz]
    decide
  refine ⟨s₀, _, hboot, (Run.refl.tail (fun p n t he => by cases he) hs).tail hfits hgrow,
    (bounded_start hboot hs).tail (fun s' hs' p => ?_) hgrow, ?_, ?_⟩
  · exact (((step_spec hst.inv.good hfits).1 s' hs').inv.slots p).size
  · simpa using show (s.proc 0).pagetable ≠ 0 from hst.inv.runnable hst.running
  · simp [hsz]

theorem address_space_bound_grown : ∃ s₀ s, Booted smallKend KERNBASE 0 s₀ ∧
    Run step Fits s₀ s ∧ (s.proc 0).sz = 12288 ∧
    leaf s.kmem.mem (s.proc 0).pagetable (TRAPFRAME / PGSIZE) =
      some (PA2PTE (s.proc 0).trapframe ||| (PTE_R ||| PTE_W ||| PTE_V)) ∧
    step s ⟨[], .call 0 (.fault 8192)⟩ ≠ .panic "walk" := by
  obtain ⟨s₀, s, hboot, hrun, -, hpt, hsz⟩ := exists_grown
  obtain ⟨-, hmapped, hwalk⟩ := address_space_bound layout_small hboot hrun
  exact ⟨s₀, s, hboot, hrun, hsz, (hmapped 0 hpt).1, hwalk _ fun p n t he => by cases he⟩

/-- A run of lazy `sbrk` calls, which nothing stops. -/
theorem lazy_run {B : ℕ} (hB : B ≤ 2 ^ 62) (ns : List (BitVec 32)) (hns : ∀ n ∈ ns, 0 ≤ n.toInt)
    (hen : s.first = false ∧ (s.proc 0).state = .RUNNABLE) (hle : ∀ p, (s.proc p).sz ≤ B)
    (hsum : (s.proc 0).sz + (ns.map fun n => n.toInt.toNat).sum ≤ B) :
    ∃ s', Run step (fun t e => ∀ t', step t e = .ok t' → ∀ p, (t'.proc p).sz ≤ B) s s' ∧
      s'.first = false ∧ (s'.proc 0).state = .RUNNABLE ∧
      (s'.proc 0).sz = (s.proc 0).sz + (ns.map fun n => n.toInt.toNat).sum ∧
      s'.kmem.freelist = s.kmem.freelist := by
  induction ns generalizing s with
  | nil => exact ⟨s, .refl, hen.1, hen.2, rfl, rfl⟩
  | cons n ns ih =>
    rw [List.map_cons, List.sum_cons] at hsum ⊢
    have hn := hns n List.mem_cons_self
    set s₁ : UState := { s with
      kmem := { s.kmem with fails := [] }
      proc := Function.update s.proc 0 { s.proc 0 with sz := (s.proc 0).sz + n.toInt.toNat } }
      with hs₁
    have hstep : step s ⟨[], .call 0 (.sbrk n 2)⟩ = .ok s₁ :=
      step_lazy ⟨hen.1, by decide, hen.2⟩ ((hle 0).trans (by omega)) (by decide) hn
    have hsz₁ : (s₁.proc 0).sz = (s.proc 0).sz + n.toInt.toNat := by simp [hs₁]
    have hle₁ : ∀ p, (s₁.proc p).sz ≤ B := fun p => by
      by_cases hp : p = 0
      · rw [hp, hsz₁]
        omega
      · rw [show s₁.proc p = s.proc p from Function.update_of_ne hp _ _]
        exact hle p
    obtain ⟨s', hrun, h1, h2, h3, h4⟩ := ih (fun m hm => hns m (List.mem_cons_of_mem _ hm))
      (s := s₁) ⟨hen.1, by simpa [hs₁] using hen.2⟩ hle₁ (by omega)
    refine ⟨s', (Run.refl.tail (fun t' ht' => ?_) hstep).trans hrun, h1, h2, by omega, h4⟩
    obtain rfl := Outcome.ok.inj (hstep.symm.trans ht')
    exact hle₁

/-- 129 lazy `sbrk` calls take a process beyond `MAXVA`, and the next page fault there takes the
kernel down. -/
theorem lazy_sbrk_panics : ∃ s₀ s, Booted smallKend KERNBASE 0 s₀ ∧
    Run step (fun _ _ => True) s₀ s ∧ MAXVA < (s.proc 0).sz ∧
    step s ⟨[], .call 0 (.fault MAXVA)⟩ = .panic "walk" := by
  obtain ⟨s₀, s₁, hboot, hs, hst⟩ := exists_started
  have hsz := hst.size
  rw [initproc] at hsz
  obtain ⟨s, hrun, h1, h2, h3, -⟩ := lazy_run (B := 2 ^ 62) le_rfl
    (List.replicate 129 (BitVec.ofNat 32 (2 ^ 31 - 1))) (by
      intro n hn
      rw [List.eq_of_mem_replicate hn]
      decide) ⟨hst.inv.first, hst.running⟩ (fun p => (hst.inv.slots p).size.trans (by decide)) (by
      rw [hsz, List.map_replicate, List.sum_replicate]
      decide)
  have hbig : MAXVA < (s.proc 0).sz := by
    rw [h3, hsz, List.map_replicate, List.sum_replicate]
    decide
  refine ⟨s₀, s, hboot, (Run.refl.tail trivial hs).trans (hrun.mono fun _ _ _ => trivial), hbig, ?_⟩
  rw [step, if_pos ⟨h1, by decide, h2⟩]
  refine Meets.after_eq_panic ?_
  simp only [Action.code, Call.code, pagefault, US.proc, US.vm, meets_bind, meets_get, meets_pure,
    meets_zoom, vmfault, UProc.me]
  rw [if_neg (by omega), meets_bind, ismapped, meets_bind, walk, if_pos (by decide), meets_panic]

/-- A lazy `sbrk` does not panic. -/
theorem fits_of_panic {e : Event} {msg : String} (h : Good kend s)
    (hs : step s e = .panic msg) : Fits s e := by
  obtain ⟨fails, a⟩ := e
  rintro p n t he ht hn
  cases he
  have hen : (Action.call p (.sbrk n t)).Enabled s := by
    by_contra hno
    rw [step, if_neg hno] at hs
    cases hs
  have hT : TRAPFRAME = 2 ^ 38 - 8192 := rfl
  have hle := (h.1.slots p).size
  rw [step_lazy hen (by omega) ht hn] at hs
  cases hs

/-- **Mappings stay below the break.** In every state of a run in which the sizes of processes stay
at most `TRAPFRAME`, a page that is mapped is the trampoline, the trapframe, or below the size of
the process; and the panics of `mappages` and `freewalk` do not happen, unless an eager `sbrk` asks
for the page of the trapframe. -/
theorem mappings_below_break (hl : Layout kend trampoline) (hboot : Booted kend trampoline n s₀)
    (hrun : Run step Bounded s₀ s) :
    (∀ p v x, (s.proc p).pagetable ≠ 0 → v < 512 ^ 3 →
      leaf s.kmem.mem (s.proc p).pagetable v = some x →
      v = TRAMPOLINE / PGSIZE ∨ v = TRAPFRAME / PGSIZE ∨ v * PGSIZE < PGROUNDUP (s.proc p).sz) ∧
    ∀ e, (∀ p n t, e.action = .call p (.sbrk n t) → ¬EagerTooLarge s p n t) →
      step s e ≠ .panic "mappages: remap" ∧ step s e ≠ .panic "freewalk: leaf" := by
  have hgood := good_of_bounded hl hboot hrun
  refine ⟨fun p v x hpt hv hx => ?_, fun e heager => ?_⟩
  · have hspace := ((hgood.1.slots p).space hpt).2
    have hT : TRAPFRAME / PGSIZE = UPAGES := rfl
    have hT' : TRAMPOLINE / PGSIZE = UPAGES + 1 := rfl
    by_contra! hno
    obtain ⟨h1, h2, h3⟩ := hno
    have hup : PGROUNDUP (s.proc p).sz = npages (s.proc p).sz * 4096 :=
      PGROUNDUP_of_le (hspace.size.trans (by decide))
    unfold PGSIZE at h3
    have hnone : leaf s.kmem.mem (s.proc p).pagetable v = none := by
      by_cases hlt : v < UPAGES
      · exact hspace.below v hlt (by omega)
      · exact hspace.above v hv (by omega)
    rw [hnone] at hx
    cases hx
  · -- a call that panics is no lazy `sbrk`
    have hpanics : ∀ msg, step s e = .panic msg → Panics s e msg := fun msg hs =>
      (step_spec hgood (fits_of_panic hgood hs)).2 msg hs
    refine ⟨fun hs => ?_, fun hs => ?_⟩
    · rcases hpanics _ hs with hmsg | hmsg | ⟨-, p, n, t, he, hbig⟩
      · simp at hmsg
      · simp at hmsg
      · exact heager p n t he hbig
    · rcases hpanics _ hs with hmsg | hmsg | ⟨hmsg, -⟩ <;> simp at hmsg

theorem mappings_below_break_grown : ∃ s₀ s, Booted smallKend KERNBASE 0 s₀ ∧
    Run step Bounded s₀ s ∧ (s.proc 0).sz = 12288 ∧
    step s ⟨[], .call 0 (.sbrk 4096 1)⟩ ≠ .panic "mappages: remap" := by
  obtain ⟨s₀, s, hboot, -, hrun, -, hsz⟩ := exists_grown
  refine ⟨s₀, s, hboot, hrun, hsz, ((mappings_below_break layout_small hboot hrun).2 _ ?_).1⟩
  rintro p n t he ⟨-, -, hbig⟩
  cases he
  rw [hsz] at hbig
  revert hbig
  decide

/-- At the trapframe, `uvmalloc` finds the trapframe mapped. -/
theorem uvmalloc_trapframe {k : KMem} {F : Multiset ℕ} {root tf : ℕ} (hc : Chain k F)
    (hsep : Sep k.kend (F + asPages k.mem root)) (h : AddrSpace k root tf TRAPFRAME)
    (hfails : k.fails = []) (hfl : k.freelist ≠ 0) :
    Meets (uvmalloc root TRAPFRAME (TRAPFRAME + 4096) PTE_W) k (fun _ _ => False)
      (fun msg => msg = "mappages: remap") := by
  have hone : (TRAPFRAME + 4096 - PGROUNDUP TRAPFRAME + (PGSIZE - 1)) / PGSIZE = 1 := by decide
  have hup : PGROUNDUP TRAPFRAME = TRAPFRAME := by decide
  rw [uvmalloc, if_neg (by omega), hone, hup, uvmallocLoop, meets_bind]
  refine ((kalloc_spec hc hsep.left).and (kalloc_freelist hfails)).mono ?_ fun _ hmsg => hmsg.1.elim
  rintro r k₁ ⟨⟨rfl, -⟩ | ⟨hr, F', rfl, hc', ht⟩, hfree⟩
  · exact absurd hfree.symm hfl
  have hpage := hsep.page r (by simp)
  have hfresh : Fresh root r F' k { k₁ with mem := memset k₁.mem r 0 PGSIZE } :=
    .of_kalloc hsep h.ok hc' ht (.memset hpage.1 0) rfl
  rw [if_neg hr]
  simp only [VM.memset, meets_bind, meets_modify]
  refine (mappages_spec hfresh.chain hfresh.sep_tables hfresh.ok (by decide) (by decide)
    hpage.lt_word (by decide)).mono ?_ fun _ hmsg => hmsg.1
  rintro _ k₂ ⟨-, -, -, hnone, -⟩
  rw [hfresh.leaf_eq _ (by decide)] at hnone
  exact absurd (hnone.symm.trans h.trapframe) (by simp)

/-- 128 lazy `sbrk` calls take a process up to the trapframe; the next eager one, for one more page,
takes the kernel down. -/
theorem eager_sbrk_panics : ∃ s₀ s, Booted smallKend KERNBASE 0 s₀ ∧ Run step Bounded s₀ s ∧
    (s.proc 0).sz = TRAPFRAME ∧
    step s ⟨[], .call 0 (.sbrk 4096 1)⟩ = .panic "mappages: remap" := by
  obtain ⟨s₀, s₁, hboot, hs, hst⟩ := exists_started
  have hsz := hst.size
  rw [initproc] at hsz
  set ns : List (BitVec 32) := List.replicate 127 (BitVec.ofNat 32 (2 ^ 31 - 1)) ++
    [BitVec.ofNat 32 (2 ^ 31 - 16257)] with hns
  have hsum : 8192 + (ns.map fun n => n.toInt.toNat).sum = TRAPFRAME := by
    rw [hns, List.map_append, List.map_replicate, List.sum_append, List.sum_replicate]
    decide
  obtain ⟨s, hrun, h1, h2, h3, h4⟩ := lazy_run (B := TRAPFRAME) (by decide) ns (by
      intro n hn
      rw [hns, List.mem_append] at hn
      rcases hn with hn | hn
      · rw [List.eq_of_mem_replicate hn]
        decide
      · rw [List.mem_singleton.mp hn]
        decide) ⟨hst.inv.first, hst.running⟩ (fun p => (hst.inv.slots p).size) (by
      rw [hsz, hsum])
  rw [hsz, hsum] at h3
  have hrun' : Run step Bounded s₀ s := (bounded_start hboot hs).trans hrun
  refine ⟨s₀, s, hboot, hrun', h3, ?_⟩
  have hinv := (good_of_bounded layout_small hboot hrun').1
  obtain ⟨F, hc, hsep, hspace, -⟩ := (hinv.setFails []).atSpace (hinv.runnable h2)
  rw [h3] at hspace
  have hadd : addInt TRAPFRAME (4096 : BitVec 32).toInt = TRAPFRAME + 4096 := by decide
  rw [step, if_pos ⟨h1, by decide, h2⟩]
  refine Meets.after_eq_panic ?_
  simp only [Action.code, Call.code, sys_sbrk, US.proc, meets_bind, meets_get, meets_pure]
  rw [if_pos (by decide), meets_bind, growproc]
  simp only [US.proc, meets_bind, meets_get, meets_pure]
  rw [if_pos (by decide), meets_bind, US.vm, meets_zoom, h3, hadd]
  exact (uvmalloc_trapframe hc hsep hspace rfl (by rw [h4]; exact hst.freelist)).imp
    fun _ _ hf => hf.elim

end Xv6.UserSys
