import Mathlib.Data.Multiset.UnionInter
import Xv6.Bytes
import Xv6.Prog
import Xv6.Riscv

/-!
# Physical memory and its allocator (`kernel/kalloc.c`)

Memory is one byte store; the free list is threaded through the first word of
the free pages, as in the source. Which allocations fail is left open: besides
an empty free list, `KMem.fails` may make the next calls of `kalloc` return 0.

The specifications are local. `Chain s F` says that the free list of `s`
consists of the pages `F`; a function that works on pages `A` besides is
specified by what becomes of `F` and `A`, whose sum it keeps, and by
`Touches (F + A)`: nothing outside these pages changes.
-/

namespace Xv6

open Multiset

/-- Physical memory, the free list, and the symbols the linker provides. -/
structure KMem where
  /-- physical memory -/
  mem : Bytes
  /-- `kmem.freelist` -/
  freelist : ℕ
  /-- which of the next allocations are made to fail -/
  fails : List Bool
  /-- `end`, the first address after the kernel -/
  kend : ℕ
  /-- `trampoline` -/
  trampoline : ℕ

/-- Kernel code that works on memory. -/
abbrev VM (α : Type) : Type := Prog KMem α

namespace VM

/-- Read the `uint64` at `a`. -/
def load (a : ℕ) : VM ℕ := do
  return getLE 8 (← get).mem a

/-- Write the `uint64` at `a`. -/
def store (a x : ℕ) : VM Unit :=
  modify fun s => { s with mem := putLE 8 s.mem a x }

/-- `memset` -/
def memset (a : ℕ) (c : UInt8) (n : ℕ) : VM Unit :=
  modify fun s => { s with mem := Xv6.memset s.mem a c n }

/-- `memmove`, between pages -/
def memmove (dst src n : ℕ) : VM Unit :=
  modify fun s => { s with mem := Xv6.memmove s.mem dst s.mem src n }

end VM

open Prog

/-- `kfree` -/
def kfree (pa : ℕ) : VM Unit := do
  let s ← get
  if pa % PGSIZE ≠ 0 ∨ pa < s.kend ∨ PHYSTOP ≤ pa then
    Prog.panic "kfree"
  else
    -- fill with junk to catch dangling refs
    VM.memset pa 1 PGSIZE
    VM.store pa s.freelist
    modify fun s => { s with freelist := pa }

/-- `kalloc`; 0 if the memory cannot be allocated -/
def kalloc : VM ℕ := do
  let s ← get
  set { s with fails := s.fails.tail }
  if s.fails.head? = some true then
    return 0
  else
    let r := s.freelist
    if r ≠ 0 then
      let next ← VM.load r
      modify fun s => { s with freelist := next }
      -- fill with junk
      VM.memset r 5 PGSIZE
    return r

/-- The loop of `freerange`, over `n` pages. -/
def freerangeLoop : ℕ → ℕ → VM Unit
  | 0, _ => return ()
  | n + 1, p => do
    kfree p
    freerangeLoop n (p + PGSIZE)

/-- `freerange` -/
def freerange (pa_start pa_end : ℕ) : VM Unit :=
  freerangeLoop ((pa_end - PGROUNDUP pa_start) / PGSIZE) (PGROUNDUP pa_start)

/-- `kinit` -/
def kinit : VM Unit := do
  freerange (← get).kend PHYSTOP

/-! ## Pages -/

/-- A page the allocator may hand out. -/
def IsPage (kend p : ℕ) : Prop := p % 4096 = 0 ∧ kend ≤ p ∧ p < PHYSTOP ∧ 0 < p

/-- Distinct pages. -/
structure Sep (kend : ℕ) (M : Multiset ℕ) : Prop where
  nodup : M.Nodup
  page : ∀ p ∈ M, IsPage kend p

theorem Sep.mono {kend : ℕ} {M N : Multiset ℕ} (h : Sep kend M) (hle : N ≤ M) : Sep kend N :=
  ⟨nodup_of_le hle h.nodup, fun p hp => h.page p (mem_of_le hle hp)⟩

theorem Sep.left {kend : ℕ} {M N : Multiset ℕ} (h : Sep kend (M + N)) : Sep kend M :=
  h.mono (le_add_right M N)

theorem Sep.right {kend : ℕ} {M N : Multiset ℕ} (h : Sep kend (M + N)) : Sep kend N :=
  h.mono (le_add_left N M)

/-- Pages of separate parts are different. -/
theorem Sep.not_mem {kend p : ℕ} {M N : Multiset ℕ} (h : Sep kend (M + N)) (hp : p ∈ M) :
    p ∉ N := fun hn =>
  disjoint_left.mp (disjoint_of_nodup_add h.nodup) hp hn

theorem IsPage.lt_word {kend p : ℕ} (h : IsPage kend p) : p < WORD := by
  have := h.2.2.1
  unfold PHYSTOP KERNBASE at this
  unfold WORD
  omega

theorem PGROUNDDOWN_add {p k : ℕ} (hp : p % 4096 = 0) (hk : k < 4096) : PGROUNDDOWN (p + k) = p := by
  unfold PGROUNDDOWN PGSIZE
  omega

/-- Nothing changes but the contents of the pages `W`. -/
structure Touches (W : Multiset ℕ) (s s' : KMem) : Prop where
  kend : s'.kend = s.kend
  trampoline : s'.trampoline = s.trampoline
  mem : ∀ a, PGROUNDDOWN a ∉ W → s'.mem a = s.mem a

variable {s s' s'' : KMem} {W W' F A : Multiset ℕ} {p : ℕ}

namespace Touches

theorem refl (W : Multiset ℕ) (s : KMem) : Touches W s s := ⟨rfl, rfl, fun _ _ => rfl⟩

theorem mono (h : Touches W s s') (hW : ∀ p ∈ W, p ∈ W') : Touches W' s s' :=
  ⟨h.kend, h.trampoline, fun a ha => h.mem a fun hp => ha (hW _ hp)⟩

/-- Nothing changes at all. -/
theorem mem_eq (h : Touches 0 s s') : s'.mem = s.mem :=
  funext fun a => h.mem a (notMem_zero _)

theorem trans (h : Touches W s s') (h' : Touches W s' s'') : Touches W s s'' :=
  ⟨h'.kend.trans h.kend, h'.trampoline.trans h.trampoline,
    fun a ha => (h'.mem a ha).trans (h.mem a ha)⟩

/-- A word of another page. -/
theorem getLE_eq (h : Touches W s s') (hp : p % 4096 = 0) (hW : p ∉ W) {w k : ℕ}
    (hk : k + w ≤ 4096) : getLE w s'.mem (p + k) = getLE w s.mem (p + k) := by
  refine getLE_congr fun i hi hi' => h.mem i ?_
  obtain ⟨j, rfl⟩ := Nat.exists_eq_add_of_le hi
  rw [add_assoc, PGROUNDDOWN_add hp (by omega)]
  exact hW

/-- The first word of another page. -/
theorem getLE_zero (h : Touches W s s') (hp : p % 4096 = 0) (hW : p ∉ W) :
    getLE 8 s'.mem p = getLE 8 s.mem p :=
  h.getLE_eq hp hW (k := 0) (by omega)

/-- What is written between the bounds of a page touches this page. -/
theorem within (hp : p % 4096 = 0) {mem : Bytes}
    (hmem : ∀ a, ¬(p ≤ a ∧ a < p + 4096) → mem a = s.mem a) :
    Touches {p} s { s with mem := mem } := by
  refine ⟨rfl, rfl, fun a ha => hmem a ?_⟩
  rintro ⟨h1, h2⟩
  obtain ⟨j, rfl⟩ := Nat.exists_eq_add_of_le h1
  rw [PGROUNDDOWN_add hp (by omega)] at ha
  exact ha (mem_singleton_self p)

theorem store (hp : p % 4096 = 0) {k x : ℕ} (hk : k + 8 ≤ 4096) :
    Touches {p} s { s with mem := putLE 8 s.mem (p + k) x } :=
  within hp fun a ha => if_neg (by omega)

theorem memset (hp : p % 4096 = 0) (c : UInt8) :
    Touches {p} s { s with mem := Xv6.memset s.mem p c PGSIZE } :=
  within hp fun _ ha => if_neg ha

end Touches

/-! ## The free list -/

/-- The list of pages threaded through memory from `h`. -/
def FreeList (m : Bytes) : ℕ → List ℕ → Prop
  | h, [] => h = 0
  | h, p :: l => h = p ∧ FreeList m (getLE 8 m p) l

theorem FreeList.frame {l : List ℕ} (h : Touches W s s') (hp : ∀ p ∈ l, p % 4096 = 0 ∧ p ∉ W) :
    ∀ {r : ℕ}, FreeList s.mem r l → FreeList s'.mem r l := by
  induction l with
  | nil => exact id
  | cons p l ih =>
    rintro r ⟨rfl, hl⟩
    have h0 := hp r List.mem_cons_self
    refine ⟨rfl, ?_⟩
    rw [h.getLE_zero h0.1 h0.2]
    exact ih (fun q hq => hp q (List.mem_cons_of_mem _ hq)) hl

/-- The free list has exactly the pages `F`. -/
def Chain (s : KMem) (F : Multiset ℕ) : Prop := ∃ l : List ℕ, (l : Multiset ℕ) = F ∧
  FreeList s.mem s.freelist l

theorem Chain.frame (hc : Chain s F) (h : Touches W s s')
    (hW : ∀ p ∈ F, p % 4096 = 0 ∧ p ∉ W) (hfl : s'.freelist = s.freelist) : Chain s' F := by
  obtain ⟨l, rfl, hl⟩ := hc
  refine ⟨l, rfl, ?_⟩
  rw [hfl]
  exact hl.frame h hW

theorem FreeList.unique {m : Bytes} {l l' : List ℕ} (hl : 0 ∉ l) (hl' : 0 ∉ l') :
    ∀ {r : ℕ}, FreeList m r l → FreeList m r l' → l = l' := by
  induction l generalizing l' with
  | nil =>
    rintro r rfl h'
    cases l' with
    | nil => rfl
    | cons q l' =>
      obtain ⟨rfl, -⟩ := h'
      exact absurd List.mem_cons_self hl'
  | cons p l ih =>
    rintro r ⟨rfl, h⟩ h'
    cases l' with
    | nil => exact absurd (h' ▸ List.mem_cons_self) hl
    | cons q l' =>
      obtain ⟨rfl, h'⟩ := h'
      rw [List.mem_cons, not_or] at hl hl'
      rw [ih hl.2 hl'.2 h h']

/-- There is one free list. -/
theorem Chain.unique {F' : Multiset ℕ} (hc : Chain s F) (hc' : Chain s F') (h0 : 0 ∉ F)
    (h0' : 0 ∉ F') : F = F' := by
  obtain ⟨l, rfl, hl⟩ := hc
  obtain ⟨l', rfl, hl'⟩ := hc'
  rw [FreeList.unique h0 h0' hl hl']

theorem Chain.freelist_ne {x : ℕ} (hc : Chain s F) (hx : x ∈ F) (h0 : 0 ∉ F) : s.freelist ≠ 0 := by
  obtain ⟨l, rfl, hl⟩ := hc
  cases l with
  | nil => cases hx
  | cons p l =>
    rw [hl.1]
    rintro rfl
    exact h0 (Multiset.mem_coe.mpr List.mem_cons_self)

theorem Sep.zero_notMem {kend : ℕ} {M : Multiset ℕ} (h : Sep kend M) : 0 ∉ M := fun h0 =>
  absurd (h.page 0 h0).2.2.2 (Nat.lt_irrefl 0)

/-! ## Specifications -/

/-- **`kalloc`** returns 0, or takes a page off the free list. -/
theorem kalloc_spec (hc : Chain s F) (hF : Sep s.kend F) :
    Meets kalloc s (fun r s' => (r = 0 ∧ Chain s' F ∧ Touches 0 s s') ∨
      (r ≠ 0 ∧ ∃ F', F = r ::ₘ F' ∧ Chain s' F' ∧ Touches {r} s s')) Never := by
  obtain ⟨l, rfl, hl⟩ := hc
  simp only [kalloc, meets_bind, meets_get, meets_set]
  split
  · exact .inl ⟨rfl, ⟨l, rfl, hl⟩, rfl, rfl, fun _ _ => rfl⟩
  split
  · rename_i hr
    rcases l with _ | ⟨p, l⟩
    · exact absurd hl hr
    obtain ⟨hp, hl⟩ := hl
    have hpage := hF.page p (by simp)
    have hset : Touches {p} s { s with mem := Xv6.memset s.mem p 5 PGSIZE } := .memset hpage.1 5
    simp only [meets_bind, VM.load, VM.memset, meets_get, meets_pure, meets_modify, hp]
    refine .inr ⟨by rw [← hp]; exact hr, l, rfl, ⟨l, rfl, ?_⟩, rfl, rfl, hset.mem⟩
    refine FreeList.frame hset (fun q hq => ⟨(hF.page q (by simp [hq])).1, ?_⟩) hl
    rw [mem_singleton]
    rintro rfl
    exact (List.nodup_cons.mp hF.nodup).1 hq
  · rename_i hr
    exact .inl ⟨not_not.mp hr, ⟨l, rfl, hl⟩, rfl, rfl, fun _ _ => rfl⟩

/-- There are pages for the next `k` allocations, and none of them is made to fail. -/
def Room (fails : List Bool) (F : Multiset ℕ) (k : ℕ) : Prop :=
  k ≤ card F ∧ ∀ b ∈ fails.take k, b = false

theorem room_nil {k : ℕ} : Room [] F k ↔ k ≤ card F := by simp [Room]

theorem Room.mono {fails : List Bool} {k k' : ℕ} (h : Room fails F k) (hle : k' ≤ k) :
    Room fails F k' :=
  ⟨hle.trans h.1, fun b hb => h.2 b (List.take_subset_take_left _ hle hb)⟩

/-- What is left after one of them. -/
theorem Room.tail {fails : List Bool} {k : ℕ} (h : Room fails (p ::ₘ F) (k + 1)) :
    Room fails.tail F k := by
  refine ⟨?_, fun b hb => h.2 b ?_⟩
  · have hle := h.1
    rw [card_cons] at hle
    omega
  · cases fails with
    | nil => simp at hb
    | cons c fails => exact List.mem_cons_of_mem _ hb

/-- `kalloc` fails only if there is no page, or if it is made to. -/
theorem kalloc_success (hc : Chain s F) (hF : Sep s.kend F) :
    Meets kalloc s (fun r s' => s'.fails = s.fails.tail ∧ (r = 0 → ¬Room s.fails F 1)) Never := by
  obtain ⟨l, rfl, hl⟩ := hc
  simp only [kalloc, meets_bind, meets_get, meets_set]
  split
  · rename_i hfail
    refine ⟨rfl, fun _ hroom => ?_⟩
    cases hfails : s.fails with
    | nil => simp [hfails] at hfail
    | cons b fails =>
      have := hroom.2 b (by simp [hfails])
      simp_all
  split
  · rename_i hr
    simp only [meets_bind, VM.load, VM.memset, meets_get, meets_pure, meets_modify]
    exact ⟨trivial, fun h => absurd h hr⟩
  · rename_i hr
    refine ⟨rfl, fun _ hroom => ?_⟩
    rcases l with _ | ⟨p, l⟩
    · exact absurd hroom.1 (by simp)
    · have hpos := (hF.page p (by simp)).2.2.2
      have hp : s.freelist = p := hl.1
      omega

/-- **`kfree`** puts a page on the free list. -/
theorem kfree_spec (hc : Chain s F) (hF : Sep s.kend (p ::ₘ F)) :
    Meets (kfree p) s (fun _ s' => Chain s' (p ::ₘ F) ∧ Touches {p} s s') Never := by
  obtain ⟨l, rfl, hl⟩ := hc
  obtain ⟨h1, h2, h3, h4⟩ := hF.page p (mem_cons_self _ _)
  simp only [kfree, meets_bind, meets_get]
  rw [if_neg (by unfold PGSIZE; omega)]
  simp only [meets_bind, VM.store, VM.memset, meets_modify]
  set s' : KMem :=
    { s with mem := putLE 8 (Xv6.memset s.mem p 1 PGSIZE) p s.freelist, freelist := p } with hs'
  have hframe : Touches {p} s s' := by
    have hset : Touches {p} s { s with mem := Xv6.memset s.mem p 1 PGSIZE } := .memset h1 1
    have hst := (hset.trans (.store (k := 0) (x := s.freelist) h1 (by omega))).mem
    exact ⟨rfl, rfl, hst⟩
  have hlt : s.freelist < 256 ^ 8 := by
    rcases l with _ | ⟨q, l⟩
    · rw [show s.freelist = 0 from hl]
      omega
    · rw [hl.1]
      have := (hF.page q (by simp)).lt_word
      unfold WORD at this
      omega
  refine ⟨⟨p :: l, rfl, rfl, ?_⟩, hframe⟩
  rw [show getLE 8 s'.mem p = s.freelist from getLE_putLE _ _ hlt]
  refine FreeList.frame hframe (fun q hq => ⟨(hF.page q (by simp [hq])).1, ?_⟩) hl
  rw [mem_singleton]
  rintro rfl
  exact (List.nodup_cons.mp hF.nodup).1 hq

end Xv6
