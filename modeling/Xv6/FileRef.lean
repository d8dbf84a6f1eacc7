import Mathlib.Algebra.BigOperators.Group.Finset.Piecewise
import Mathlib.Data.Finset.Prod
import Mathlib.Data.Multiset.Count
import Xv6.File

/-!
# Reference counts of open files

`FilesOk R fs`: the reference count of every open file is the number of
descriptors that refer to it, plus the references `R` that the code at hand has
taken and not yet put into a descriptor or dropped. Each function of `file.c`
moves a reference into `R` or out of it.
-/

namespace Xv6

open Prog Finset

variable {fs fs' : Files} {R : Multiset ℕ} {p fd f g : ℕ} {v : Option ℕ}

/-- The descriptors of all processes. -/
def descriptors : Finset (ℕ × ℕ) := range NPROC ×ˢ range NOFILE

/-- The number of descriptors that refer to `f`. -/
def Files.slots (fs : Files) (f : ℕ) : ℕ := #{x ∈ descriptors | fs.ofile x.1 x.2 = some f}

theorem mem_descriptors : (p, fd) ∈ descriptors ↔ p < NPROC ∧ fd < NOFILE := by
  rw [descriptors, mem_product, mem_range, mem_range]

attribute [irreducible] descriptors

/-- The reference counts are right; `R` are references that no descriptor has. -/
structure FilesOk (R : Multiset ℕ) (fs : Files) : Prop where
  ref : ∀ f, (fs.file f).ref = fs.slots f + R.count f
  free : ∀ f, (fs.file f).ref = 0 → (fs.file f).type = .FD_NONE
  range : ∀ f, NFILE ≤ f → (fs.file f).ref = 0
  fds : ∀ p fd f, fs.ofile p fd = some f → p < NPROC ∧ fd < NOFILE

namespace Files

@[simp] theorem setFd_file (fs : Files) (p fd : ℕ) (v : Option ℕ) :
    (fs.setFd p fd v).file = fs.file := rfl

@[simp] theorem setFile_self (fs : Files) (f : ℕ) (x : File) : (fs.setFile f x).file f = x :=
  Function.update_self ..

@[simp] theorem setFile_ne (fs : Files) (x : File) (h : g ≠ f) :
    (fs.setFile f x).file g = fs.file g :=
  Function.update_of_ne h ..

@[simp] theorem slots_setFile (fs : Files) (f : ℕ) (x : File) (g : ℕ) :
    (fs.setFile f x).slots g = fs.slots g := rfl

theorem setFd_self (fs : Files) (p fd : ℕ) (v : Option ℕ) : (fs.setFd p fd v).ofile p fd = v := by
  simp [setFd]

theorem setFd_ne (fs : Files) (v : Option ℕ) {p' fd' : ℕ} (h : p' ≠ p ∨ fd' ≠ fd) :
    (fs.setFd p fd v).ofile p' fd' = fs.ofile p' fd' := by
  by_cases hp : p' = p
  · subst hp
    simp [setFd, h.resolve_left fun hn => hn rfl]
  · simp [setFd, hp]

/-- Changing one descriptor. -/
theorem slots_setFd (fs : Files) (hp : p < NPROC) (hfd : fd < NOFILE) (v : Option ℕ) (f : ℕ) :
    (fs.setFd p fd v).slots f + (if fs.ofile p fd = some f then 1 else 0) =
      fs.slots f + if v = some f then 1 else 0 := by
  have hmem : (p, fd) ∈ descriptors := mem_descriptors.mpr ⟨hp, hfd⟩
  rw [slots, slots, card_filter, card_filter, ← add_sum_erase _ _ hmem, ← add_sum_erase _ _ hmem]
  have hrest : ∀ x ∈ descriptors.erase (p, fd),
      (if (fs.setFd p fd v).ofile x.1 x.2 = some f then 1 else 0) =
        if fs.ofile x.1 x.2 = some f then 1 else 0 := by
    intro x hx
    rw [setFd_ne]
    by_contra hne
    push Not at hne
    exact (mem_erase.mp hx).1 (Prod.ext hne.1 hne.2)
  rw [sum_congr rfl hrest]
  dsimp only
  rw [setFd_self]
  omega

theorem slots_pos (hp : p < NPROC) (hfd : fd < NOFILE) (h : fs.ofile p fd = some f) :
    0 < fs.slots f :=
  card_pos.mpr ⟨(p, fd), mem_filter.mpr ⟨mem_descriptors.mpr ⟨hp, hfd⟩, h⟩⟩

theorem exists_of_slots_pos (h : 0 < fs.slots f) : ∃ p fd, fs.ofile p fd = some f := by
  obtain ⟨x, hx⟩ := card_pos.mp h
  exact ⟨x.1, x.2, (mem_filter.mp hx).2⟩

end Files

namespace FilesOk

/-- A file that is referred to is one of the table. -/
theorem lt_of_ref (h : FilesOk R fs) (hf : (fs.file f).ref ≠ 0) : f < NFILE := by
  by_contra hge
  exact hf (h.range f (by omega))

theorem ref_pos (h : FilesOk R fs) (hfd : fs.ofile p fd = some f) : 0 < (fs.file f).ref := by
  obtain ⟨hp, hlt⟩ := h.fds p fd f hfd
  have := Files.slots_pos hp hlt hfd
  rw [h.ref]
  omega

/-- Changing the contents of a file that is in use. -/
theorem setFile (h : FilesOk R fs) {x : File} (hx : x.ref = (fs.file f).ref) (hne : x.ref ≠ 0) :
    FilesOk R (fs.setFile f x) := by
  have href : ∀ g, ((fs.setFile f x).file g).ref = (fs.file g).ref := by
    intro g
    by_cases hg : g = f
    · subst hg
      rw [Files.setFile_self, hx]
    · rw [Files.setFile_ne _ _ hg]
  refine ⟨fun g => ?_, fun g h0 => ?_, fun g hg => ?_, h.fds⟩
  · rw [href, h.ref, Files.slots_setFile]
  · by_cases hg : g = f
    · subst hg
      rw [Files.setFile_self] at h0
      exact absurd h0 hne
    · rw [Files.setFile_ne _ _ hg] at h0 ⊢
      exact h.free g h0
  · rw [href]
    exact h.range g hg

/-- A reference more, or less: the count of one file and the references in hand change together. -/
theorem recount (h : FilesOk R fs) {R' : Multiset ℕ} {x : File} (hf : f < NFILE)
    (hx : x.ref = fs.slots f + R'.count f) (hfree : x.ref = 0 → x.type = .FD_NONE)
    (hR : ∀ g, g ≠ f → R'.count g = R.count g) : FilesOk R' (fs.setFile f x) := by
  refine ⟨fun g => ?_, fun g h0 => ?_, fun g hg => ?_, h.fds⟩
  · by_cases hg : g = f
    · subst hg
      rw [Files.setFile_self, Files.slots_setFile, hx]
    · rw [Files.setFile_ne _ _ hg, Files.slots_setFile, hR g hg]
      exact h.ref g
  · by_cases hg : g = f
    · subst hg
      rw [Files.setFile_self] at h0 ⊢
      exact hfree h0
    · rw [Files.setFile_ne _ _ hg] at h0 ⊢
      exact h.free g h0
  · rw [Files.setFile_ne _ _ (by omega)]
    exact h.range g hg

/-- One more reference to a file that has one. -/
theorem dup (h : FilesOk R fs) (hf : 0 < (fs.file f).ref) :
    FilesOk (f ::ₘ R) (fs.setFile f { fs.file f with ref := (fs.file f).ref + 1 }) := by
  refine h.recount (h.lt_of_ref (by omega)) ?_ (by simp) fun g hg => ?_
  · rw [Multiset.count_cons_self, h.ref]
    dsimp only
    omega
  · rw [Multiset.count_cons_of_ne hg]

/-- A descriptor is changed, and the references in hand make up for it. -/
theorem setFd {R' : Multiset ℕ} (h : FilesOk R fs) (hp : p < NPROC) (hfd : fd < NOFILE)
    (v : Option ℕ) (hR : ∀ g, R.count g + (if fs.ofile p fd = some g then 1 else 0) =
      R'.count g + if v = some g then 1 else 0) : FilesOk R' (fs.setFd p fd v) := by
  refine ⟨fun g => ?_, h.free, h.range, fun p' fd' g hg => ?_⟩
  · have hslots := fs.slots_setFd hp hfd v g
    have hcount := hR g
    rw [Files.setFd_file, h.ref]
    omega
  · by_cases hne : p' ≠ p ∨ fd' ≠ fd
    · rw [Files.setFd_ne _ _ hne] at hg
      exact h.fds p' fd' g hg
    · push Not at hne
      rw [hne.1, hne.2]
      exact ⟨hp, hfd⟩

/-- A reference is put into a free descriptor. -/
theorem put (h : FilesOk (f ::ₘ R) fs) (hp : p < NPROC) (hfd : fd < NOFILE)
    (hnone : fs.ofile p fd = none) : FilesOk R (fs.setFd p fd (some f)) :=
  h.setFd hp hfd _ fun g => by simp [hnone, Multiset.count_cons, eq_comm]

/-- A reference is taken out of a descriptor. -/
theorem take (h : FilesOk R fs) (hfd : fs.ofile p fd = some f) :
    FilesOk (f ::ₘ R) (fs.setFd p fd none) := by
  obtain ⟨hp, hlt⟩ := h.fds p fd f hfd
  exact h.setFd hp hlt _ fun g => by simp [hfd, Multiset.count_cons, eq_comm]

end FilesOk

/-! ## Specifications -/

/-- **`filealloc`** takes a file that nobody refers to. -/
theorem filealloc_spec (h : FilesOk R fs) :
    Meets filealloc fs (fun r fs' => r = none ∧ fs' = fs ∨
      ∃ f, r = some f ∧ f < NFILE ∧ (fs.file f).ref = 0 ∧
        fs' = fs.setFile f { fs.file f with ref := 1 } ∧ FilesOk (f ::ₘ R) fs') Never := by
  simp only [filealloc, meets_bind, meets_get]
  split
  · exact .inl ⟨rfl, rfl⟩
  · rename_i f hf
    have h0 : (fs.file f).ref = 0 := by simpa using List.find?_some hf
    have hlt : f < NFILE := List.mem_range.mp (List.mem_of_find?_eq_some hf)
    refine .inr ⟨f, rfl, hlt, h0, rfl, h.recount hlt ?_ (by simp) fun g hg => ?_⟩
    · have := h.ref f
      rw [Multiset.count_cons_self]
      dsimp only
      omega
    · rw [Multiset.count_cons_of_ne hg]

/-- **`filedup`** takes a reference to a file that has one. -/
theorem filedup_spec (h : FilesOk R fs) (hf : 0 < (fs.file f).ref) :
    Meets (filedup f) fs (fun _ fs' =>
      fs' = fs.setFile f { fs.file f with ref := (fs.file f).ref + 1 } ∧
        FilesOk (f ::ₘ R) fs') Never := by
  simp only [filedup, meets_bind, meets_get]
  rw [if_neg (by omega), meets_set]
  exact ⟨rfl, h.dup hf⟩

/-- **`fileclose`** drops a reference; of the last one it returns the file. -/
theorem fileclose_spec (h : FilesOk (f ::ₘ R) fs) :
    Meets (fileclose f) fs (fun r fs' => FilesOk R fs' ∧
      (r = none ∧ 1 < (fs.file f).ref ∧
          fs' = fs.setFile f { fs.file f with ref := (fs.file f).ref - 1 } ∨
        r = some (fs.file f) ∧ (fs.file f).ref = 1 ∧
          fs' = fs.setFile f { fs.file f with ref := 0, type := .FD_NONE })) Never := by
  have href := h.ref f
  rw [Multiset.count_cons_self] at href
  have hlt := h.lt_of_ref (f := f) (by omega)
  have hR : ∀ g, g ≠ f → R.count g = (f ::ₘ R).count g := fun g hg =>
    (Multiset.count_cons_of_ne hg _).symm
  simp only [fileclose, meets_bind, meets_get]
  rw [if_neg (by omega)]
  split
  · rw [meets_bind, meets_set, meets_pure]
    exact ⟨h.recount hlt (by dsimp only; omega) (by dsimp only; omega) hR,
      .inl ⟨rfl, ‹_›, rfl⟩⟩
  · rw [meets_bind, meets_set, meets_pure]
    exact ⟨h.recount hlt (by dsimp only; omega) (fun _ => rfl) hR, .inr ⟨rfl, by omega, rfl⟩⟩

/-- **`fdalloc`** puts a reference into a free descriptor, if there is one. -/
theorem fdalloc_spec (h : FilesOk (f ::ₘ R) fs) (hp : p < NPROC) :
    Meets (fdalloc p f) fs (fun r fs' => r = none ∧ fs' = fs ∨
      ∃ fd, r = some fd ∧ fs.ofile p fd = none ∧ fs' = fs.setFd p fd (some f) ∧
        FilesOk R fs') Never := by
  simp only [fdalloc, meets_bind, meets_get]
  split
  · exact .inl ⟨rfl, rfl⟩
  · rename_i fd hfd
    have hnone : fs.ofile p fd = none := by simpa using List.find?_some hfd
    have hlt : fd < NOFILE := List.mem_range.mp (List.mem_of_find?_eq_some hfd)
    exact .inr ⟨fd, rfl, hnone, rfl, h.put hp hlt hnone⟩

/-! ## `sys_dup` and `kfork` -/

/-- What a file is: its type, and its end of a pipe. -/
def Files.kind (fs : Files) (f : ℕ) : FileType × ℕ × Bool :=
  ((fs.file f).type, (fs.file f).pipe, (fs.file f).writable)

theorem Files.kind_setFile {x : File} (h : (x.type, x.pipe, x.writable) = fs.kind f) :
    (fs.setFile f x).kind = fs.kind := by
  funext g
  by_cases hg : g = f
  · subst hg
    rw [← h, kind, setFile_self]
  · rw [kind, setFile_ne _ _ hg, kind]

@[simp] theorem Files.kind_setRef (fs : Files) (f n : ℕ) :
    (fs.setFile f { fs.file f with ref := n }).kind = fs.kind :=
  kind_setFile rfl

@[simp] theorem Files.kind_setFd (fs : Files) (p fd : ℕ) (v : Option ℕ) :
    (fs.setFd p fd v).kind = fs.kind := rfl

/-- **`sys_dup`** makes one more descriptor refer to a file. -/
theorem sys_dup_spec {n : ℤ} (h : FilesOk R fs) (hp : p < NPROC) :
    Meets (sys_dup p n) fs (fun _ fs' => FilesOk R fs' ∧ fs'.kind = fs.kind ∧
      ∀ p', p' ≠ p → fs'.ofile p' = fs.ofile p') Never := by
  have hsame : FilesOk R fs ∧ fs.kind = fs.kind ∧ ∀ p', p' ≠ p → fs.ofile p' = fs.ofile p' :=
    ⟨h, rfl, fun _ _ => rfl⟩
  simp only [sys_dup, argfd, meets_bind, meets_get]
  split
  · exact hsame
  rw [meets_pure]
  split
  · exact hsame
  · rename_i f hf
    have hpos := h.ref_pos hf
    simp only [fdalloc, meets_bind, meets_get]
    split
    · exact hsame
    · rename_i fd hfd
      have hnone : fs.ofile p fd = none := by simpa using List.find?_some hfd
      have hlt : fd < NOFILE := List.mem_range.mp (List.mem_of_find?_eq_some hfd)
      simp only [meets_bind, meets_set, meets_pure, filedup, meets_get]
      rw [if_neg (by rw [Files.setFd_file]; omega), meets_set]
      -- the reference may as well be counted before the descriptor is set
      refine ⟨(h.dup hpos).put hp hlt hnone, ?_, fun p' hp' => ?_⟩
      · rw [Files.kind_setRef, Files.kind_setFd]
      · exact Function.update_of_ne hp' ..

/-- **The loop of `kfork`** makes the child's descriptors refer to the parent's files. -/
theorem dupLoop_spec {np n : ℕ} (h : FilesOk R fs) (hnp : np < NPROC)
    (hn : n ≤ NOFILE) (hnone : ∀ fd, NOFILE - n ≤ fd → fs.ofile np fd = none) :
    Meets (dupLoop p np n) fs (fun _ fs' => FilesOk R fs' ∧ fs'.kind = fs.kind ∧
      ∀ p', p' ≠ np → fs'.ofile p' = fs.ofile p') Never := by
  induction n generalizing fs with
  | zero => exact ⟨h, rfl, fun _ _ => rfl⟩
  | succ n ih =>
    simp only [dupLoop, meets_bind, meets_get]
    split
    · exact ih h (by omega) fun fd hfd => hnone fd (by omega)
    · rename_i f hf
      rw [meets_bind]
      refine (filedup_spec h (h.ref_pos hf)).imp ?_
      rintro _ fs₁ ⟨rfl, h₁⟩
      set fs₁ := fs.setFile f { fs.file f with ref := (fs.file f).ref + 1 } with hfs₁
      have h₂ : FilesOk R (fs₁.setFd np (NOFILE - (n + 1)) (some f)) :=
        h₁.put hnp (by omega) (hnone _ le_rfl)
      refine (ih h₂ (by omega) fun fd hfd => ?_).imp ?_
      · rw [Files.setFd_ne _ _ (.inr (by omega))]
        exact hnone fd (by omega)
      · rintro _ fs' ⟨h', hkind, hof⟩
        refine ⟨h', ?_, fun p' hp' => ?_⟩
        · rw [hkind, Files.kind_setFd, hfs₁, Files.kind_setRef]
        · rw [hof p' hp']
          exact Function.update_of_ne hp' ..

end Xv6
