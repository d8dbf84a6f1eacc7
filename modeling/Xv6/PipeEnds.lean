import Xv6.UserMem

/-!
# Opening and closing files and pipes

The system calls on descriptors keep the invariant: a file goes back to the
table when its last descriptor is closed, and the page of a pipe to the free list
when both of its files have gone (`closefile_spec`).
-/

namespace Xv6.UserSys

open Prog Finset

variable {b : Bool × ℕ} {K R R' F F' W : Multiset ℕ} {σ σ' : UState} {k' : KMem} {fs fs' : Files}
  {p fd f pi : ℕ} {w : Bool} {E : String → Prop}

/-! ## Files that are no pipes -/

theorem pipeEnd_of_kind (h : fs'.kind = fs.kind) : pipeEnd fs' = pipeEnd fs := by
  funext f
  have hf := congrFun h f
  simp only [Files.kind, Prod.mk.injEq] at hf
  rw [pipeEnd, pipeEnd, hf.1, hf.2.1, hf.2.2]

theorem pipePages_congr (h : pipeEnd fs' = pipeEnd fs) : pipePages fs' = pipePages fs := by
  rw [pipePages, pipePages, h]

/-- A change to files and descriptors that leaves the pipes alone. -/
theorem UInv.setFiles (h : UInv b K R σ) (hfs : FilesOk R' fs')
    (hend : pipeEnd fs' = pipeEnd σ.files)
    (hclosed : ∀ p, (σ.proc p).state ≠ .RUNNABLE → ∀ fd, fs'.ofile p fd = none) :
    UInv b K R' { σ with files := fs' } := by
  refine ⟨?_, h.layout, h.slots, h.range, hfs, ?_, hclosed, h.boot⟩
  · obtain ⟨F, hc, hsum⟩ := h.pages
    refine ⟨F, hc, ?_⟩
    rw [← hsum, owned, owned, pipePages_congr hend]
  · obtain ⟨h1, h2, h3⟩ := h.pipes
    refine ⟨?_, ?_, ?_⟩ <;> rw [hend] <;> assumption

/-- A change to a descriptor of a process that runs. -/
theorem UInv.setFd {v : Option ℕ} (h : UInv b K R σ) (hrun : (σ.proc p).state = .RUNNABLE)
    (hfs : FilesOk R' (σ.files.setFd p fd v)) :
    UInv b K R' { σ with files := σ.files.setFd p fd v } := by
  refine h.setFiles hfs rfl fun i hi fd' => ?_
  rw [Files.setFd_ne _ _ (.inl fun hip : i = p => hi (by rw [hip]; exact hrun))]
  exact h.closed i hi fd'

/-! ## Closing -/

/-- No pipe has been opened, and no process has gained or lost a page. -/
structure Closing (σ σ' : UState) : Prop where
  kernel : σ'.kernel = σ.kernel
  kend : σ'.kmem.kend = σ.kmem.kend
  procs : ∑ p ∈ range NPROC, procPages σ'.kmem.mem (σ'.proc p) =
    ∑ p ∈ range NPROC, procPages σ.kmem.mem (σ.proc p)
  pipes : pipePages σ'.files ⊆ pipePages σ.files

theorem Closing.trans {σ'' : UState} (h : Closing σ σ') (h' : Closing σ' σ'') : Closing σ σ'' :=
  ⟨h'.kernel.trans h.kernel, h'.kend.trans h.kend, h'.procs.trans h.procs, h'.pipes.trans h.pipes⟩

/-- Every page of an open pipe still is one, or it is on the free list. -/
def Frees (σ σ' : UState) : Prop :=
  ∀ x ∈ pipePages σ.files, x ∈ pipePages σ'.files ∨ ∃ F, Chain σ'.kmem F ∧ 0 ∉ F ∧ x ∈ F

theorem Frees.of_eq (h : pipeEnd σ'.files = pipeEnd σ.files) : Frees σ σ' := fun x hx => by
  rw [pipePages_congr h]
  exact .inl hx

theorem Frees.of_subset {σ₁ : UState} (hsub : pipePages σ.files ⊆ pipePages σ₁.files)
    (h : Frees σ₁ σ') : Frees σ σ' :=
  fun x hx => h x (hsub hx)

/-- Only the pages of open pipes have changed hands. -/
theorem Closing.frees (hcl : Closing σ σ') (h : UInv b K R σ) (h' : UInv b K R' σ') : Frees σ σ' := by
  intro x hx
  obtain ⟨F, -, hsum⟩ := h.pages
  obtain ⟨F', hc', hsum'⟩ := h'.pages
  have h0 : 0 ∉ F' := (h'.sep hsum').left.left.zero_notMem
  rw [hcl.kend, ← hsum, owned, owned, hcl.kernel, hcl.procs] at hsum'
  set S := ∑ p ∈ range NPROC, procPages σ.kmem.mem (σ.proc p)
  have hcancel : F' + (pipePages σ'.files).val + (K + (σ.kernel : Multiset ℕ) + S) =
      F + (pipePages σ.files).val + (K + (σ.kernel : Multiset ℕ) + S) := by
    calc _ = F' + K + ((σ.kernel : Multiset ℕ) + (pipePages σ'.files).val + S) := by abel
      _ = F + K + ((σ.kernel : Multiset ℕ) + (pipePages σ.files).val + S) := hsum'
      _ = _ := by abel
  have hmem : x ∈ F' + (pipePages σ'.files).val := by
    rw [add_right_cancel hcancel]
    exact Multiset.mem_add.mpr (.inr hx)
  rcases Multiset.mem_add.mp hmem with hxF | hxP
  · exact .inr ⟨F', hc', h0, hxF⟩
  · exact .inl hxP

/-- The memory of processes when something happens to the pages of pipes. -/
theorem UInv.slots_frame (h : UInv b K R σ) (ht : Touches W σ.kmem k')
    (hW : ∀ i < NPROC, ∀ x ∈ procPages σ.kmem.mem (σ.proc i), x % 4096 = 0 ∧ x ∉ W) :
    (∀ i, SlotOk k' (σ.proc i)) ∧
      ∑ i ∈ Finset.range NPROC, procPages k'.mem (σ.proc i) =
        ∑ i ∈ Finset.range NPROC, procPages σ.kmem.mem (σ.proc i) := by
  refine ⟨fun i => ?_, sum_congr rfl fun i hi => ?_⟩
  · by_cases hi : i < NPROC
    · exact ((h.slots i).frame ht (hW i hi)).1
    · have hun := h.range i (by omega)
      have h0 := (h.slots i).unused hun
      exact ⟨fun hne => absurd h0.2.1 hne, fun _ => h0, fun hne => absurd hun hne,
        (h.slots i).size⟩
  · exact ((h.slots i).frame ht (hW i (mem_range.mp hi))).2

/-- What the page of a pipe is separate from. -/
theorem UInv.pipe_page (h : UInv b K R σ) (hF : F + K + owned σ = allPages σ.kmem.kend)
    (hpi : pi ∈ pipePages σ.files) :
    IsPage σ.kmem.kend pi ∧ pi ∉ F ∧
      ∀ i < NPROC, ∀ x ∈ procPages σ.kmem.mem (σ.proc i), x % 4096 = 0 ∧ x ∉ ({pi} : Multiset ℕ) := by
  have hsep := h.sep hF
  have hpipes : pi ∈ (σ.kernel : Multiset ℕ) + (pipePages σ.files).val :=
    Multiset.mem_add.mpr (.inr hpi)
  rw [owned, ← add_assoc] at hsep
  refine ⟨hsep.page pi ?_, fun hx => ?_, fun i hi x hx => ?_⟩
  · exact Multiset.mem_add.mpr (.inl (Multiset.mem_add.mpr (.inr hpipes)))
  · exact hsep.left.not_mem (Multiset.mem_add.mpr (.inl hx)) hpipes
  · have hx' : x ∈ ∑ i ∈ Finset.range NPROC, procPages σ.kmem.mem (σ.proc i) :=
      Multiset.mem_sum.mpr ⟨i, mem_range.mpr hi, hx⟩
    refine ⟨(hsep.right.page x hx').1, ?_⟩
    rw [Multiset.mem_singleton]
    rintro rfl
    exact hsep.not_mem (Multiset.mem_add.mpr (.inr hpipes)) hx'

theorem Touches.store32 {s : KMem} (hpi : pi % 4096 = 0) {k : ℕ} (hk : k + 4 ≤ 4096) (x : ℕ) :
    Touches {pi} s { s with mem := putLE 4 s.mem (pi + k) x } :=
  .within hpi fun a ha => if_neg (by omega)

theorem Touches.setFlag {s : KMem} (hpi : pi % 4096 = 0) (w : Bool) (x : ℕ) :
    Touches {pi} s { s with mem := putLE 4 s.mem (openFlag pi w) x } := by
  cases w <;> exact Touches.store32 hpi (by omega) x

/-- Clearing one flag of a pipe. -/
theorem openFlag_clear (m : Bytes) (pi : ℕ) (w : Bool) :
    getLE 4 (putLE 4 m (openFlag pi w) 0) (openFlag pi w) = 0 ∧
      getLE 4 (putLE 4 m (openFlag pi w) 0) (openFlag pi (!w)) = getLE 4 m (openFlag pi (!w)) := by
  refine ⟨getLE_putLE _ _ (by norm_num), ?_⟩
  cases w
  · exact getLE_putLE_of_disjoint _ _ (.inr (by simp [openFlag]))
  · exact getLE_putLE_of_disjoint _ _ (.inl (by simp [openFlag]))

/-- The file `f` has been closed. -/
def afterClose (fs : Files) (f : ℕ) : Files :=
  fs.setFile f { fs.file f with ref := 0, type := .FD_NONE }

theorem pipeEnd_afterClose (fs : Files) (f g : ℕ) :
    pipeEnd (afterClose fs f) g = if g = f then none else pipeEnd fs g := by
  split
  · rename_i h
    subst h
    rw [pipeEnd, afterClose, Files.setFile_self, if_neg (by simp)]
  · rename_i h
    rw [pipeEnd, afterClose, Files.setFile_ne _ _ h, pipeEnd]

/-- The other end of the pipe stays open. -/
theorem UInv.closeEnd (h : UInv b K (f ::ₘ R) σ) (hf : pipeEnd σ.files f = some (pi, w)) {g : ℕ}
    (hg : pipeEnd σ.files g = some (pi, !w)) (hfs : FilesOk R (afterClose σ.files f)) :
    UInv b K R { σ with
      kmem := { σ.kmem with mem := putLE 4 σ.kmem.mem (openFlag pi w) 0 }
      files := afterClose σ.files f } ∧
    Closing σ { σ with
      kmem := { σ.kmem with mem := putLE 4 σ.kmem.mem (openFlag pi w) 0 }
      files := afterClose σ.files f } := by
  obtain ⟨F, hc, hsum⟩ := h.pages
  obtain ⟨hpage, hpiF, hslots⟩ := h.pipe_page hsum (pipeEnd_page h.files hf)
  have ht : Touches {pi} σ.kmem { σ.kmem with mem := putLE 4 σ.kmem.mem (openFlag pi w) 0 } :=
    Touches.setFlag hpage.1 w 0
  obtain ⟨hflag0, hflag1⟩ := openFlag_clear σ.kmem.mem pi w
  obtain ⟨hslots', hpages⟩ := h.slots_frame ht hslots
  have hgf : g ≠ f := by
    rintro rfl
    rw [hf] at hg
    simp at hg
  have hsame : pipePages (afterClose σ.files f) = pipePages σ.files := by
    ext x
    rw [mem_pipePages, mem_pipePages]
    constructor
    · rintro ⟨j, hj, v, hv⟩
      rw [pipeEnd_afterClose] at hv
      split_ifs at hv
      exact ⟨j, hj, v, hv⟩
    · rintro ⟨j, hj, v, hv⟩
      by_cases hjf : j = f
      · subst hjf
        rw [hf] at hv
        cases hv
        exact ⟨g, pipeEnd_lt h.files hg, !w, by rw [pipeEnd_afterClose, if_neg hgf, hg]⟩
      · exact ⟨j, hj, v, by rw [pipeEnd_afterClose, if_neg hjf, hv]⟩
  refine ⟨?_, rfl, rfl, hpages, subset_of_eq hsame⟩
  refine ⟨⟨F, hc.frame ht (fun x hx => ⟨((h.sep hsum).page x (by simp [hx])).1, ?_⟩) rfl, ?_⟩,
    h.layout, hslots', h.range, hfs, ⟨fun i j x hi hj => ?_, fun i pi' v hi => ?_,
      fun i pi' v hi hno => ?_⟩, h.closed, h.boot⟩
  · rw [Multiset.mem_singleton]
    rintro rfl
    exact hpiF hx
  · rw [owned, hsame, hpages, ← hsum, owned]
  · rw [pipeEnd_afterClose] at hi hj
    split_ifs at hi
    split_ifs at hj
    exact h.pipes.ends i j x hi hj
  · rw [pipeEnd_afterClose] at hi
    split_ifs at hi with hif
    by_cases hpi' : pi' = pi
    · subst hpi'
      -- this is the other end
      have hv : v = !w := by
        by_contra hne
        have : v = w := by cases v <;> cases w <;> simp_all
        subst this
        exact hif (h.pipes.ends i f _ hi hf)
      rw [hv]
      exact hflag1.trans (h.pipes.flag g _ _ hg)
    · obtain ⟨hp', -, -⟩ := h.pipe_page hsum (pipeEnd_page h.files hi)
      exact (Touches.openFlag_eq ht hp'.1 (by simpa using hpi') v).trans (h.pipes.flag i _ _ hi)
  · rw [pipeEnd_afterClose] at hi
    split_ifs at hi with hif
    by_cases hpi' : pi' = pi
    · subst hpi'
      have hv : v = !w := by
        by_contra hne
        have : v = w := by cases v <;> cases w <;> simp_all
        subst this
        exact hif (h.pipes.ends i f _ hi hf)
      rw [hv, Bool.not_not]
      exact hflag0
    · obtain ⟨hp', -, -⟩ := h.pipe_page hsum (pipeEnd_page h.files hi)
      refine (Touches.openFlag_eq ht hp'.1 (by simpa using hpi') _).trans
        (h.pipes.other i _ _ hi fun j hj => ?_)
      refine hno j ?_
      rw [pipeEnd_afterClose, if_neg, hj]
      rintro rfl
      rw [hf] at hj
      cases hj
      exact hpi' rfl

/-- The pages of open pipes without this one. -/
theorem pipePages_closeLast (hfs : FilesOk R fs)
    (hends : ∀ i j x, pipeEnd fs i = some x → pipeEnd fs j = some x → i = j)
    (hf : pipeEnd fs f = some (pi, w)) (hno : ∀ g, pipeEnd fs g ≠ some (pi, !w)) :
    (pipePages fs).val = pi ::ₘ (pipePages (afterClose fs f)).val := by
  have hnot : pi ∉ pipePages (afterClose fs f) := by
    intro hpi
    obtain ⟨j, -, v, hv⟩ := mem_pipePages.mp hpi
    rw [pipeEnd_afterClose] at hv
    split_ifs at hv with hjf
    by_cases hvw : v = w
    · subst hvw
      exact hjf (hends j f _ hv hf)
    · refine hno j ?_
      cases v <;> cases w <;> simp_all
  rw [← cons_val hnot, val_inj, cons_eq_insert]
  ext x
  rw [mem_insert, mem_pipePages, mem_pipePages]
  constructor
  · rintro ⟨j, hj, v, hv⟩
    by_cases hjf : j = f
    · subst hjf
      rw [hf] at hv
      cases hv
      exact .inl rfl
    · exact .inr ⟨j, hj, v, by rw [pipeEnd_afterClose, if_neg hjf, hv]⟩
  · rintro (rfl | ⟨j, hj, v, hv⟩)
    · exact ⟨f, pipeEnd_lt hfs hf, w, hf⟩
    · rw [pipeEnd_afterClose] at hv
      split_ifs at hv
      exact ⟨j, hj, v, hv⟩

/-- Both ends are closed, and the page is freed. -/
theorem UInv.closeLast (h : UInv b K (f ::ₘ R) σ) (hf : pipeEnd σ.files f = some (pi, w))
    (hno : ∀ g, pipeEnd σ.files g ≠ some (pi, !w)) (hfs : FilesOk R (afterClose σ.files f)) :
    Meets (kfree pi) { σ.kmem with mem := putLE 4 σ.kmem.mem (openFlag pi w) 0 } (fun _ k' =>
      UInv b K R { σ with kmem := k', files := afterClose σ.files f } ∧
      Closing σ { σ with kmem := k', files := afterClose σ.files f }) Never := by
  obtain ⟨F, hc, hsum⟩ := h.pages
  obtain ⟨hpage, hpiF, hslots⟩ := h.pipe_page hsum (pipeEnd_page h.files hf)
  have ht : Touches {pi} σ.kmem { σ.kmem with mem := putLE 4 σ.kmem.mem (openFlag pi w) 0 } :=
    Touches.setFlag hpage.1 w 0
  have hval := pipePages_closeLast h.files h.pipes.ends hf hno
  have hsep := h.sep hsum
  have hperm : F + K + owned σ = pi ::ₘ F + (K + ((σ.kernel : Multiset ℕ) +
      (pipePages (afterClose σ.files f)).val +
      ∑ i ∈ Finset.range NPROC, procPages σ.kmem.mem (σ.proc i))) := by
    rw [owned, hval, ← Multiset.singleton_add, ← Multiset.singleton_add]
    abel
  rw [hperm] at hsep
  have hc₁ := hc.frame ht (fun x hx => ⟨(hsep.page x (by simp [hx])).1, by
    rw [Multiset.mem_singleton]
    rintro rfl
    exact hpiF hx⟩) rfl
  refine (kfree_spec hc₁ hsep.left).imp ?_
  rintro _ k' ⟨hc', ht'⟩
  have ht'' := ht.trans ht'
  obtain ⟨hslots', hpages⟩ := h.slots_frame ht'' hslots
  refine ⟨⟨⟨_, hc', ?_⟩, ?_, hslots', h.range, hfs, ?_, h.closed, ?_⟩, rfl, ht''.kend, hpages,
    fun x hx => ?_⟩
  · rw [owned]
    rw [hpages, ht''.kend, ← hsum, hperm]
    abel
  · dsimp only
    rw [ht''.kend, ht''.trampoline]
    exact h.layout
  · -- the other pipes have other pages
    have hpipes : PipeOk σ.kmem.mem (afterClose σ.files f) := by
      have hold : ∀ {i x}, pipeEnd (afterClose σ.files f) i = some x → pipeEnd σ.files i = some x := by
        intro i x hi
        rw [pipeEnd_afterClose] at hi
        split_ifs at hi
        exact hi
      refine ⟨fun i j x hi hj => h.pipes.ends i j x (hold hi) (hold hj),
        fun i pi' v hi => h.pipes.flag i pi' v (hold hi),
        fun i pi' v hi hno' => h.pipes.other i pi' v (hold hi) fun j hj => ?_⟩
      refine hno' j ?_
      rw [pipeEnd_afterClose, if_neg, hj]
      rintro rfl
      rw [hf] at hj
      cases hj
      exact hno i (by rw [Bool.not_not]; exact hold hi)
    refine hpipes.frame hfs ht'' fun x hx => ?_
    refine ⟨(hsep.page x ?_).1, ?_⟩
    · simp [show x ∈ (pipePages (afterClose σ.files f)).val from hx]
    · rw [Multiset.mem_singleton]
      rintro rfl
      exact hsep.not_mem (Multiset.mem_cons_self _ _)
        (by simp [show x ∈ (pipePages (afterClose σ.files f)).val from hx])
  · dsimp only
    rw [ht''.kend]
    exact h.boot
  · rw [← mem_val, hval]
    exact Multiset.mem_cons_of_mem hx

/-- **Closing a file** drops a reference in hand. -/
theorem closefile_spec (h : UInv b K (f ::ₘ R) σ) :
    Meets (closefile f) σ (fun _ σ' => UInv b K R σ' ∧ σ'.proc = σ.proc ∧
      σ'.files.ofile = σ.files.ofile ∧ Closing σ σ') Never := by
  rw [closefile, meets_bind, US.files, meets_zoom]
  refine (fileclose_spec h.files).imp ?_
  rintro r fs' ⟨hfs, ⟨rfl, -, rfl⟩ | ⟨rfl, href, rfl⟩⟩
  · have hend := pipeEnd_of_kind (Files.kind_setRef σ.files f ((σ.files.file f).ref - 1))
    exact ⟨h.setFiles hfs hend h.closed, rfl, rfl, rfl, rfl, rfl,
      subset_of_eq (pipePages_congr hend)⟩
  dsimp only
  rw [show σ.files.setFile f { σ.files.file f with ref := 0, type := .FD_NONE } =
    afterClose σ.files f from rfl] at hfs ⊢
  split
  · rename_i htype
    have hf : pipeEnd σ.files f = some ((σ.files.file f).pipe, (σ.files.file f).writable) :=
      if_pos htype
    generalize (σ.files.file f).pipe = pi at hf ⊢
    generalize (σ.files.file f).writable = w at hf ⊢
    obtain ⟨hflag0, hflag1⟩ := openFlag_clear σ.kmem.mem pi w
    rw [US.vm, meets_zoom]
    simp only [pipeclose, store32, load32, meets_bind, meets_modify, meets_get, meets_pure]
    by_cases hother : ∃ g, pipeEnd σ.files g = some (pi, !w)
    · obtain ⟨g, hg⟩ := hother
      have hflag := hflag1.trans (h.pipes.flag g _ _ hg)
      rw [if_neg]
      · obtain ⟨h', hcl⟩ := h.closeEnd hf hg hfs
        exact ⟨h', trivial, rfl, hcl⟩
      · rintro ⟨h0, h1⟩
        cases w
        · rw [Bool.not_false, h1] at hflag
          cases hflag
        · rw [Bool.not_true, h0] at hflag
          cases hflag
    · push Not at hother
      have hflag := hflag1.trans (h.pipes.other f _ _ hf hother)
      rw [if_pos]
      · refine (h.closeLast hf hother hfs).imp ?_
        rintro _ k' ⟨h', hcl⟩
        exact ⟨h', trivial, rfl, hcl⟩
      · cases w
        · exact ⟨hflag0, hflag⟩
        · exact ⟨hflag, hflag0⟩
  · rename_i htype
    have hend : pipeEnd (afterClose σ.files f) = pipeEnd σ.files := funext fun g => by
      rw [pipeEnd_afterClose]
      split
      · rename_i hg
        rw [hg, pipeEnd, if_neg htype]
      · rfl
    exact ⟨h.setFiles hfs hend h.closed, rfl, rfl, rfl, rfl, rfl,
      subset_of_eq (pipePages_congr hend)⟩

/-! ## Opening -/

/-- **Allocating a file** takes a reference in hand; the file is no pipe. -/
theorem filealloc_keeps (h : UInv b K R σ) :
    Meets (US.files filealloc) σ (fun r σ' => σ'.proc = σ.proc ∧ σ'.files.ofile = σ.files.ofile ∧
      pipeEnd σ'.files = pipeEnd σ.files ∧
      (r = none ∧ UInv b K R σ' ∨ ∃ f, r = some f ∧ UInv b K (f ::ₘ R) σ' ∧
        pipeEnd σ'.files f = none ∧ f < NFILE ∧ (σ'.files.file f).ref = 1 ∧
        (∀ g, (σ.files.file g).ref ≠ 0 → g ≠ f ∧ σ'.files.file g = σ.files.file g))) Never := by
  rw [US.files, meets_zoom]
  refine (filealloc_spec h.files).imp ?_
  rintro r fs' (⟨rfl, rfl⟩ | ⟨f, rfl, hlt, h0, rfl, hfs⟩)
  · exact ⟨rfl, rfl, rfl, .inl ⟨rfl, h⟩⟩
  · have hend : pipeEnd (σ.files.setFile f { σ.files.file f with ref := 1 }) = pipeEnd σ.files :=
      pipeEnd_of_kind (Files.kind_setRef ..)
    refine ⟨rfl, rfl, hend, .inr ⟨f, rfl, h.setFiles hfs hend h.closed, ?_, hlt, ?_, fun g hg => ?_⟩⟩
    · dsimp only
      rw [hend, pipeEnd, if_neg]
      rw [h.files.free f h0]
      simp
    · simp
    · have hgf : g ≠ f := by
        rintro rfl
        exact hg h0
      exact ⟨hgf, Files.setFile_ne _ _ hgf⟩

/-- **Allocating a page** takes it in hand. -/
theorem kalloc_keeps (h : UInv b K R σ) :
    Meets (US.vm kalloc) σ (fun r σ' => (∃ k', σ' = { σ with kmem := k' }) ∧
      (r = 0 ∧ UInv b K R σ' ∨ r ≠ 0 ∧ UInv b (r ::ₘ K) R σ')) Never := by
  obtain ⟨F, hc, hsep, hclose⟩ := h.atMem
  rw [US.vm, meets_zoom]
  refine (kalloc_spec hc hsep.left).imp ?_
  rintro r k' (⟨rfl, hc', ht⟩ | ⟨hr, F', rfl, hc', ht⟩)
  · exact ⟨⟨k', rfl⟩, .inl ⟨rfl, hclose k' F K hc' (ht.mono (by simp)) rfl⟩⟩
  · refine ⟨⟨k', rfl⟩, .inr ⟨hr, hclose k' F' _ hc' (ht.mono fun x hx => ?_) ?_⟩⟩
    · simp [Multiset.mem_singleton.mp hx]
    · rw [Multiset.add_cons, Multiset.cons_add]

/-- Writing to a page in hand. -/
theorem UInv.writeHand (h : UInv b (pi ::ₘ K) R σ) (ht : Touches {pi} σ.kmem k')
    (hfl : k'.freelist = σ.kmem.freelist) : UInv b (pi ::ₘ K) R { σ with kmem := k' } := by
  obtain ⟨F, hc, hsep, hclose⟩ := h.atMem
  have hnot : pi ∉ F := fun hx => hsep.not_mem hx (Multiset.mem_cons_self _ _)
  refine hclose k' F _ (hc.frame ht (fun x hx => ⟨(hsep.page x (by simp [hx])).1, ?_⟩) hfl)
    (ht.mono fun x hx => by simp [Multiset.mem_singleton.mp hx]) rfl
  rw [Multiset.mem_singleton]
  rintro rfl
  exact hnot hx

theorem UInv.hand_page (h : UInv b (pi ::ₘ K) R σ) : IsPage σ.kmem.kend pi ∧
    pi ∉ pipePages σ.files := by
  obtain ⟨F, -, hsum⟩ := h.pages
  have hsep := h.sep hsum
  refine ⟨hsep.page pi (by simp), fun hpi => ?_⟩
  refine hsep.not_mem (p := pi) (by simp) ?_
  rw [owned, Multiset.mem_add, Multiset.mem_add]
  exact .inl (.inr hpi)

/-- The two files of a new pipe. -/
def newPipe (fs : Files) (f0 f1 pi : ℕ) : Files :=
  let fs := fs.setFile f0 { fs.file f0 with
    type := .FD_PIPE, readable := true, writable := false, pipe := pi }
  fs.setFile f1 { fs.file f1 with
    type := .FD_PIPE, readable := false, writable := true, pipe := pi }

theorem pipeEnd_newPipe {f0 f1 : ℕ} (fs : Files) (hne : f0 ≠ f1) (pi g : ℕ) :
    pipeEnd (newPipe fs f0 f1 pi) g =
      if g = f0 then some (pi, false) else if g = f1 then some (pi, true) else pipeEnd fs g := by
  by_cases h0 : g = f0
  · subst h0
    simp [pipeEnd, newPipe, hne]
  · by_cases h1 : g = f1
    · subst h1
      simp [pipeEnd, newPipe, h0]
    · simp [pipeEnd, newPipe, h0, h1]

/-- A page in hand becomes a pipe. -/
theorem UInv.newPipe {f0 f1 : ℕ} (h : UInv b (pi ::ₘ K) R σ) (hne : f0 ≠ f1)
    (h0 : pipeEnd σ.files f0 = none) (h1 : pipeEnd σ.files f1 = none) (hlt0 : f0 < NFILE)
    (hlt1 : f1 < NFILE) (href0 : (σ.files.file f0).ref ≠ 0) (href1 : (σ.files.file f1).ref ≠ 0)
    (hr : getLE 4 σ.kmem.mem (openFlag pi false) = 1)
    (hw : getLE 4 σ.kmem.mem (openFlag pi true) = 1) :
    UInv b K R { σ with files := newPipe σ.files f0 f1 pi } ∧
      pipePages σ.files ⊆ pipePages (newPipe σ.files f0 f1 pi) := by
  obtain ⟨hpage, hnot⟩ := h.hand_page
  have hend := pipeEnd_newPipe σ.files hne pi
  -- no other file has this page
  have hother : ∀ {g x}, pipeEnd (UserSys.newPipe σ.files f0 f1 pi) g = some x →
      (g = f0 ∧ x = (pi, false)) ∨ (g = f1 ∧ x = (pi, true)) ∨
        pipeEnd σ.files g = some x ∧ x.1 ≠ pi := by
    intro g x hg
    rw [hend] at hg
    split at hg
    · exact .inl ⟨‹_›, (Option.some.inj hg).symm⟩
    split at hg
    · exact .inr (.inl ⟨‹_›, (Option.some.inj hg).symm⟩)
    · refine .inr (.inr ⟨hg, ?_⟩)
      rintro rfl
      exact hnot (pipeEnd_page h.files hg)
  have hpipes : (pipePages (UserSys.newPipe σ.files f0 f1 pi)).val =
      pi ::ₘ (pipePages σ.files).val := by
    rw [← cons_val hnot, val_inj, cons_eq_insert]
    ext x
    rw [mem_insert, mem_pipePages, mem_pipePages]
    constructor
    · rintro ⟨g, hg, w, hw⟩
      rcases hother hw with ⟨-, hx⟩ | ⟨-, hx⟩ | ⟨hw', -⟩
      · exact .inl (Prod.mk.inj hx).1
      · exact .inl (Prod.mk.inj hx).1
      · exact .inr ⟨g, hg, w, hw'⟩
    · rintro (rfl | ⟨g, hg, w, hw⟩)
      · exact ⟨f0, hlt0, false, by rw [hend, if_pos rfl]⟩
      · refine ⟨g, hg, w, ?_⟩
        rw [hend, if_neg, if_neg, hw]
        · rintro rfl
          rw [h1] at hw
          cases hw
        · rintro rfl
          rw [h0] at hw
          cases hw
  have hfiles : FilesOk R (UserSys.newPipe σ.files f0 f1 pi) := by
    refine FilesOk.setFile (FilesOk.setFile h.files ?_ ?_) ?_ ?_
    · rfl
    · exact href0
    · rfl
    · dsimp only
      rw [Files.setFile_ne _ _ hne.symm]
      exact href1
  obtain ⟨F, hc, hsum⟩ := h.pages
  refine ⟨⟨⟨F, hc, ?_⟩, h.layout, h.slots, h.range, hfiles,
    ⟨fun i j x hi hj => ?_, fun i pi' w hi => ?_, fun i pi' w hi hno => ?_⟩, h.closed, h.boot⟩,
    fun x hx => ?_⟩
  · rw [← hsum, owned, owned, hpipes, ← Multiset.singleton_add, ← Multiset.singleton_add]
    abel
  · rcases hother hi with ⟨rfl, rfl⟩ | ⟨rfl, rfl⟩ | ⟨hi', hx⟩ <;>
      rcases hother hj with ⟨rfl, hxj⟩ | ⟨rfl, hxj⟩ | ⟨hj', hx'⟩
    · rfl
    · cases hxj
    · exact absurd rfl hx'
    · cases hxj
    · rfl
    · exact absurd rfl hx'
    · exact absurd (by rw [hxj]) hx
    · exact absurd (by rw [hxj]) hx
    · exact h.pipes.ends i j x hi' hj'
  · rcases hother hi with ⟨rfl, hx⟩ | ⟨rfl, hx⟩ | ⟨hi', -⟩
    · cases hx
      exact hr
    · cases hx
      exact hw
    · exact h.pipes.flag i pi' w hi'
  · rcases hother hi with ⟨rfl, hx⟩ | ⟨rfl, hx⟩ | ⟨hi', hx⟩
    · cases hx
      exact absurd (by rw [hend, if_neg hne.symm, if_pos rfl]; rfl) (hno f1)
    · cases hx
      exact absurd (by rw [hend, if_pos rfl]; rfl) (hno f0)
    · refine h.pipes.other i pi' w hi' fun g hg => hno g ?_
      rw [hend, if_neg, if_neg, hg]
      · rintro rfl
        rw [h1] at hg
        cases hg
      · rintro rfl
        rw [h0] at hg
        cases hg
  · rw [← mem_val, hpipes]
    exact Multiset.mem_cons_of_mem hx

/-- **`pipealloc`** opens both ends of a new pipe, or leaves everything as it was. -/
theorem pipealloc_spec (h : UInv b K R σ) :
    Meets pipealloc σ (fun r σ' => σ'.proc = σ.proc ∧ σ'.files.ofile = σ.files.ofile ∧
      (r = none ∧ UInv b K R σ' ∧ Frees σ σ' ∨
        ∃ rf wf, r = some (rf, wf) ∧ UInv b K (rf ::ₘ wf ::ₘ R) σ' ∧
          pipePages σ.files ⊆ pipePages σ'.files)) Never := by
  rw [pipealloc, meets_bind]
  refine (filealloc_keeps h).imp ?_
  rintro r σ₁ ⟨hproc₁, hof₁, hpe₁, ⟨rfl, h₁⟩ | ⟨f0, rfl, h₁, hend0, hlt0, href0, -⟩⟩
  · exact ⟨hproc₁, hof₁, .inl ⟨rfl, h₁, .of_eq hpe₁⟩⟩
  rw [meets_bind]
  refine (filealloc_keeps h₁).imp ?_
  rintro r σ₂ ⟨hproc₂, hof₂, hpe₂, ⟨rfl, h₂⟩ | ⟨f1, rfl, h₂, hend1, hlt1, href1, hkeep⟩⟩ <;>
    have hsub : pipePages σ.files ⊆ pipePages σ₂.files :=
      subset_of_eq (pipePages_congr (hpe₂.trans hpe₁)).symm
  · dsimp only
    rw [meets_bind]
    refine (closefile_spec h₂).imp ?_
    rintro _ σ₃ ⟨h₃, hproc₃, hof₃, hcl⟩
    exact ⟨by rw [hproc₃, hproc₂, hproc₁], by rw [hof₃, hof₂, hof₁],
      .inl ⟨rfl, h₃, (hcl.frees h₂ h₃).of_subset hsub⟩⟩
  obtain ⟨hne, hfile0⟩ := hkeep f0 (by rw [href0]; simp)
  dsimp only
  rw [pipeallocRest, meets_bind]
  refine (kalloc_keeps h₂).imp ?_
  rintro pi σ₃ ⟨⟨k₃, rfl⟩, ⟨rfl, h₃⟩ | ⟨hpi, h₃⟩⟩
  · -- no page: both files go back
    rw [if_pos rfl, meets_bind]
    rw [Multiset.cons_swap] at h₃
    refine (closefile_spec h₃).imp ?_
    rintro _ σ₄ ⟨h₄, hproc₄, hof₄, hcl₄⟩
    rw [meets_bind]
    refine (closefile_spec h₄).imp ?_
    rintro _ σ₅ ⟨h₅, hproc₅, hof₅, hcl₅⟩
    exact ⟨by rw [hproc₅, hproc₄, hproc₂, hproc₁], by rw [hof₅, hof₄, hof₂, hof₁],
      .inl ⟨rfl, h₅, ((hcl₄.trans hcl₅).frees h₃ h₅).of_subset hsub⟩⟩
  · rw [if_neg hpi]
    have hpage := h₃.hand_page.1
    set k₄ : KMem := { k₃ with mem := putLE 4 (putLE 4 (putLE 4 (putLE 4 k₃.mem
      (openFlag pi false) 1) (openFlag pi true) 1) (pi + 540) 0) (pi + 536) 0 } with hk₄
    have ht : Touches {pi} k₃ k₄ :=
      (((Touches.setFlag hpage.1 false 1).trans (Touches.setFlag hpage.1 true 1)).trans
        (Touches.store32 hpage.1 (by omega) 0)).trans (Touches.store32 hpage.1 (by omega) 0)
    have hr : getLE 4 k₄.mem (openFlag pi false) = 1 := by
      rw [hk₄]
      dsimp only [openFlag]
      rw [getLE_putLE_of_disjoint _ _ (.inr (by simp)),
        getLE_putLE_of_disjoint _ _ (.inr (by simp)),
        getLE_putLE_of_disjoint _ _ (.inl (by simp))]
      exact getLE_putLE _ _ (by norm_num)
    have hw : getLE 4 k₄.mem (openFlag pi true) = 1 := by
      dsimp only [openFlag]
      rw [getLE_putLE_of_disjoint _ _ (.inr (by simp)),
        getLE_putLE_of_disjoint _ _ (.inr (by simp))]
      exact getLE_putLE _ _ (by norm_num)
    have h₄ := h₃.writeHand ht rfl
    have hend0' : pipeEnd σ₂.files f0 = none := by
      rw [pipeEnd, hfile0]
      exact hend0
    obtain ⟨h₅, hsub₅⟩ := h₄.newPipe hne hend0' hend1 hlt0 hlt1 (by simp [hfile0, href0])
      (by simp [href1]) hr hw
    refine ⟨by rw [hproc₂, hproc₁], by rw [← hof₁, ← hof₂]; rfl,
      .inr ⟨f0, f1, rfl, ?_, hsub.trans hsub₅⟩⟩
    rw [Multiset.cons_swap]
    exact h₅

/-! ## The system calls -/

/-- **`fdalloc`** puts a reference in hand into a descriptor. -/
theorem fdalloc_keeps (h : UInv b K (f ::ₘ R) σ) (hrun : (σ.proc p).state = .RUNNABLE) :
    Meets (US.files (fdalloc p f)) σ (fun r σ' => r = none ∧ σ' = σ ∨
      ∃ fd, r = some fd ∧ σ.files.ofile p fd = none ∧
        σ' = { σ with files := σ.files.setFd p fd (some f) } ∧ UInv b K R σ') Never := by
  rw [US.files, meets_zoom]
  refine (fdalloc_spec h.files (h.lt_of_pagetable (h.runnable hrun))).imp ?_
  rintro r fs' (⟨rfl, rfl⟩ | ⟨fd, rfl, hnone, rfl, hfs⟩)
  · exact .inl ⟨rfl, rfl⟩
  · exact .inr ⟨fd, rfl, hnone, rfl, h.setFd hrun hfs⟩

section

variable (h : UInv b K R σ) (hrun : (σ.proc p).state = .RUNNABLE)
include h hrun

/-- A descriptor is cleared, and its reference is in hand. -/
theorem clearFd_keeps (hfd : σ.files.ofile p fd = some f) :
    UInv b K (f ::ₘ R) { σ with files := σ.files.setFd p fd none } :=
  h.setFd hrun (h.files.take hfd)

/-- **`sys_close`** -/
theorem sys_close_spec {n : ℤ} :
    Meets (sys_close p n) σ (fun _ σ' => UInv b K R σ' ∧ Frees σ σ') Never := by
  simp only [sys_close, argfd, US.files, meets_bind, meets_zoom, meets_get]
  split
  · exact ⟨h, .of_eq rfl⟩
  rw [meets_pure]
  split
  · exact ⟨h, .of_eq rfl⟩
  · rename_i f hf
    simp only [meets_bind, meets_zoom, meets_modify]
    have h₁ := clearFd_keeps h hrun hf
    refine (closefile_spec h₁).imp ?_
    rintro _ σ' ⟨h', -, -, hcl⟩
    exact ⟨h', hcl.frees h₁ h'⟩

/-- **`sys_open`**: the file and its descriptor, for an inode or a device -/
theorem openFile_spec {device : Bool} :
    Meets (openFile p device) σ (fun _ σ' => UInv b K R σ' ∧ Frees σ σ') Never := by
  rw [openFile, meets_bind]
  refine (filealloc_keeps h).imp ?_
  rintro r σ₁ ⟨hproc₁, -, hpe, ⟨rfl, h₁⟩ | ⟨f, rfl, h₁, hend, hlt, href, -⟩⟩
  · exact ⟨h₁, .of_eq hpe⟩
  rw [meets_bind]
  refine (fdalloc_keeps h₁ (by rw [hproc₁]; exact hrun)).imp ?_
  rintro r σ₂ (⟨rfl, rfl⟩ | ⟨fd, rfl, -, rfl, h₂⟩)
  · dsimp only
    rw [meets_bind]
    refine (closefile_spec h₁).imp ?_
    rintro _ σ' ⟨h', -, -, hcl⟩
    exact ⟨h', (hcl.frees h₁ h').of_subset (subset_of_eq (pipePages_congr hpe).symm)⟩
  · simp only [US.files, meets_bind, meets_zoom, meets_modify]
    set fs₂ := σ₁.files.setFd p fd (some f) with hfs₂
    have hend₂ : pipeEnd (fs₂.setFile f { fs₂.file f with
        type := if device then .FD_DEVICE else .FD_INODE }) = pipeEnd fs₂ := funext fun g => by
      by_cases hg : g = f
      · subst hg
        rw [pipeEnd, Files.setFile_self, if_neg (by cases device <;> simp)]
        exact hend.symm
      · rw [pipeEnd, Files.setFile_ne _ _ hg, pipeEnd]
    refine ⟨h₂.setFiles (h₂.files.setFile ?_ ?_) hend₂ h₂.closed, .of_eq (hend₂.trans hpe)⟩
    · rfl
    · dsimp only
      rw [Files.setFd_file, href]
      simp

/-- **`sys_dup`** -/
theorem sys_dup_keeps {n : ℤ} :
    Meets (US.files (sys_dup p n)) σ (fun _ σ' => UInv b K R σ' ∧ Frees σ σ') Never := by
  rw [US.files, meets_zoom]
  refine (sys_dup_spec h.files (h.lt_of_pagetable (h.runnable hrun))).imp ?_
  rintro r fs' ⟨hfs, hkind, hof⟩
  have hend := pipeEnd_of_kind hkind
  refine ⟨h.setFiles hfs hend fun i hi fd => ?_, .of_eq hend⟩
  rw [hof i fun hip => hi (hip ▸ hrun)]
  exact h.closed i hi fd

end

/-- Closing both ends again. -/
theorem closePipe_spec {rf wf : ℕ} (h : UInv b K (rf ::ₘ wf ::ₘ R) σ) :
    Meets (closePipe rf wf) σ (fun _ σ' => UInv b K R σ' ∧ Frees σ σ') Never := by
  rw [closePipe, meets_bind]
  refine (closefile_spec h).imp ?_
  rintro _ σ₁ ⟨h₁, -, -, hcl₁⟩
  rw [meets_bind]
  refine (closefile_spec h₁).imp ?_
  rintro _ σ₂ ⟨h₂, -, -, hcl₂⟩
  exact ⟨h₂, (hcl₁.trans hcl₂).frees h h₂⟩

/-- Two copies to user memory, the second if the first succeeds. -/
theorem copyoutTwice_spec {va va' : ℕ} {src src' : List UInt8} (h : UInv b K R σ)
    (hpt : (σ.proc p).pagetable ≠ 0) {f : ℤ → US ℤ} {Q : ℤ → UState → Prop}
    (hf : ∀ r k', UInv b K R { σ with kmem := k' } → Meets (f r) { σ with kmem := k' } Q Never) :
    Meets (do
      let r ← copyoutTo p va src
      let r ← if r < 0 then pure r else copyoutTo p va' src'
      f r) σ Q Never := by
  rw [meets_bind]
  refine (copyoutTo_spec h hpt).imp ?_
  rintro r σ₁ ⟨h₁, k₁, rfl, -⟩
  split
  · exact hf r k₁ h₁
  · rw [meets_bind]
    refine (copyoutTo_spec h₁ hpt).imp ?_
    rintro r' σ₂ ⟨h₂, k₂, rfl, -⟩
    exact hf r' k₂ h₂

theorem sys_pipeRest_spec {fdarray rf wf fd0 fd1 : ℕ} (h : UInv b K R σ)
    (hrun : (σ.proc p).state = .RUNNABLE) (h0 : σ.files.ofile p fd0 = some rf)
    (h1 : σ.files.ofile p fd1 = some wf) (hne : fd0 ≠ fd1) :
    Meets (sys_pipeRest p fdarray rf wf fd0 fd1) σ (fun _ σ' => UInv b K R σ' ∧ Frees σ σ') Never := by
  refine copyoutTwice_spec h (h.runnable hrun) fun r k' h' => ?_
  split
  · -- bad address: both descriptors are cleared again
    have hclear := clearFd_keeps (clearFd_keeps h' hrun h0) hrun
      (show (σ.files.setFd p fd0 none).ofile p fd1 = some wf by
        rw [Files.setFd_ne _ _ (.inr hne.symm), h1])
    rw [Multiset.cons_swap] at hclear
    exact closePipe_spec hclear
  · exact ⟨h', .of_eq rfl⟩

/-- **`sys_pipe`** -/
theorem sys_pipe_spec {fdarray : ℕ} (h : UInv b K R σ) (hrun : (σ.proc p).state = .RUNNABLE) :
    Meets (sys_pipe p fdarray) σ (fun _ σ' => UInv b K R σ' ∧ Frees σ σ') Never := by
  rw [sys_pipe, meets_bind]
  refine (pipealloc_spec h).imp ?_
  rintro r σ₁ ⟨hproc₁, -, ⟨rfl, h₁, hfrees⟩ | ⟨rf, wf, rfl, h₁, hsub⟩⟩
  · exact ⟨h₁, hfrees⟩
  have hrun₁ : (σ₁.proc p).state = .RUNNABLE := by rw [hproc₁]; exact hrun
  -- descriptors do not matter here
  have hthen : ∀ {σ₂ σ' : UState}, pipeEnd σ₂.files = pipeEnd σ₁.files → Frees σ₂ σ' → Frees σ σ' :=
    fun hpe hfr => hfr.of_subset (hsub.trans (subset_of_eq (pipePages_congr hpe).symm))
  rw [meets_bind]
  refine (fdalloc_keeps h₁ hrun₁).imp ?_
  rintro r σ₂ (⟨rfl, rfl⟩ | ⟨fd0, rfl, -, rfl, h₂⟩)
  · exact (closePipe_spec h₁).imp fun _ _ ⟨h', hfr⟩ => ⟨h', hthen rfl hfr⟩
  rw [meets_bind]
  refine (fdalloc_keeps h₂ hrun₁).imp ?_
  rintro r σ₃ (⟨rfl, rfl⟩ | ⟨fd1, rfl, hnone, rfl, h₃⟩)
  · -- no second descriptor
    refine (closePipe_spec (clearFd_keeps h₂ hrun₁ (Files.setFd_self ..))).imp ?_
    rintro _ σ' ⟨h', hfr⟩
    exact ⟨h', hthen rfl hfr⟩
  have hne : fd0 ≠ fd1 := by
    rintro rfl
    rw [Files.setFd_self] at hnone
    cases hnone
  refine (sys_pipeRest_spec h₃ hrun₁ ?_ (Files.setFd_self ..) hne).imp ?_
  · dsimp only
    rw [Files.setFd_ne _ _ (.inr hne), Files.setFd_self]
  · rintro _ σ' ⟨h', hfr⟩
    exact ⟨h', hthen rfl hfr⟩

end Xv6.UserSys
