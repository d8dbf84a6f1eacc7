import Xv6.UserRun

/-!
# The page allocator along runs (`kernel/kalloc.c`)

After `kinit`, clients call `kalloc`, call `kfree` on pages they own, and write
into pages they own whatever they like. The links of the free list stand in the
free pages, so the invariant keeps free and owned pages apart: together they are
all the pages there are, each once (`AllocInv`).
-/

namespace Xv6.KallocRun

open Multiset

open Prog UserSys

/-- Memory, with the pages the clients own. -/
structure State where
  kmem : KMem
  owned : Finset ℕ

/-- What a client does. -/
inductive Event : Type where
  /-- `kalloc()` -/
  | kalloc
  /-- `kfree(pa)` -/
  | kfree (pa : ℕ)
  /-- write the byte `c` at address `a` -/
  | write (a : ℕ) (c : UInt8)
  deriving DecidableEq

/-- One step; clients free and write only what they own. -/
def step (s : State) : Event → Outcome State
  | .kalloc =>
    match kalloc s.kmem with
    | .ok (r, k) => .ok { kmem := k, owned := if r = 0 then s.owned else insert r s.owned }
    | .blocked => .blocked
    | .panic msg => .panic msg
  | .kfree pa =>
    if pa ∈ s.owned then
      match kfree pa s.kmem with
      | .ok (_, k) => .ok { kmem := k, owned := s.owned.erase pa }
      | .blocked => .blocked
      | .panic msg => .panic msg
    else .blocked
  | .write a c =>
    if PGROUNDDOWN a ∈ s.owned then
      .ok { s with kmem := { s.kmem with mem := Function.update s.kmem.mem a c } }
    else .blocked

variable {k : KMem} {s s' : State} {e : Event} {kend trampoline : ℕ} {F : Multiset ℕ} {p : ℕ}

/-- **The invariant**: the free pages and the owned ones are all pages, each once. -/
structure AllocInv (kend trampoline : ℕ) (s : State) : Prop where
  pages : ∃ F, Chain s.kmem F ∧ F + s.owned.val = allPages kend
  kend_eq : s.kmem.kend = kend
  trampoline_eq : s.kmem.trampoline = trampoline
  fails : s.kmem.fails = []

/-! ## What the functions leave alone -/

theorem kfree_fails : Meets (kfree p) k (fun _ k' => k'.fails = k.fails) (fun _ => True) := by
  simp only [kfree, meets_bind, meets_get]
  split
  · trivial
  · simp only [meets_bind, VM.store, VM.memset, meets_modify]

theorem freerangeLoop_fails : ∀ (n p : ℕ) (k : KMem),
    Meets (freerangeLoop n p) k (fun _ k' => k'.fails = k.fails) (fun _ => True)
  | 0, _, _ => rfl
  | n + 1, p, k => by
    rw [freerangeLoop, meets_bind]
    refine kfree_fails.imp fun _ k₁ hk₁ => ?_
    exact (freerangeLoop_fails n _ k₁).imp fun _ k₂ hk₂ => hk₂.trans hk₁

/-! ## One step -/

section

variable (h : AllocInv kend trampoline s) (hl : Layout kend trampoline)
include h hl

theorem AllocInv.sep (hF : F + s.owned.val = allPages kend) :
    Sep s.kmem.kend (F + s.owned.val) := by
  rw [hF, h.kend_eq]
  exact sep_allPages hl

/-- **`kalloc`** fails only if every page is owned; otherwise it returns one that is not. -/
theorem AllocInv.kalloc : Meets kalloc s.kmem (fun r k' =>
      AllocInv kend trampoline ⟨k', if r = 0 then s.owned else insert r s.owned⟩ ∧
      (r = 0 → s.owned.val = allPages kend) ∧ (r ≠ 0 → r ∈ allPages kend ∧ r ∉ s.owned)) Never := by
  obtain ⟨F, hc, hF⟩ := h.pages
  have hsep := h.sep hl hF
  refine ((kalloc_spec hc hsep.left).and (kalloc_success hc hsep.left)).mono ?_ fun _ hm => hm.1
  rintro r k' ⟨hcase, hfails, hzero⟩
  rw [h.fails] at hfails
  rcases hcase with ⟨rfl, hc', ht⟩ | ⟨hr, F', rfl, hc', ht⟩
  · refine ⟨⟨⟨F, hc', hF⟩, ht.kend.trans h.kend_eq, ht.trampoline.trans h.trampoline_eq, hfails⟩,
      fun _ => ?_, fun hne => absurd rfl hne⟩
    have hcard := hzero rfl
    rw [h.fails, room_nil, Nat.not_le, Nat.lt_one_iff, card_eq_zero] at hcard
    rw [← hF, hcard, zero_add]
  · have hnot : r ∉ s.owned := hsep.not_mem (mem_cons_self r F')
    refine ⟨⟨⟨F', hc', ?_⟩, ht.kend.trans h.kend_eq, ht.trampoline.trans h.trampoline_eq, hfails⟩,
      fun h0 => absurd h0 hr, fun _ => ⟨?_, hnot⟩⟩
    · rw [if_neg hr, Finset.insert_val_of_notMem hnot, add_cons, ← hF, cons_add]
    · rw [← hF]
      exact mem_add.mpr (.inl (mem_cons_self r F'))

/-- **`kfree`** of an owned page does not panic. -/
theorem AllocInv.kfree (hp : p ∈ s.owned) :
    Meets (kfree p) s.kmem (fun _ k' => AllocInv kend trampoline ⟨k', s.owned.erase p⟩) Never := by
  obtain ⟨F, hc, hF⟩ := h.pages
  have hsplit : F + s.owned.val = p ::ₘ F + (s.owned.erase p).val := by
    rw [Finset.erase_val, cons_add, ← add_cons, cons_erase hp]
  have hsep := h.sep hl hF
  rw [hsplit] at hsep hF
  refine ((kfree_spec hc hsep.left).and kfree_fails).mono ?_ fun _ hm => hm.1
  rintro _ k' ⟨⟨hc', ht⟩, hfails⟩
  exact ⟨⟨_, hc', hF⟩, ht.kend.trans h.kend_eq, ht.trampoline.trans h.trampoline_eq,
    hfails.trans h.fails⟩

/-- A client's write does not reach the free list. -/
theorem AllocInv.write {a : ℕ} (ha : PGROUNDDOWN a ∈ s.owned) (c : UInt8) : AllocInv kend trampoline
      { s with kmem := { s.kmem with mem := Function.update s.kmem.mem a c } } := by
  obtain ⟨F, hc, hF⟩ := h.pages
  have hsep := h.sep hl hF
  have ht : Touches s.owned.val s.kmem
      { s.kmem with mem := Function.update s.kmem.mem a c } := by
    refine ⟨rfl, rfl, fun b hb => Function.update_of_ne ?_ _ _⟩
    rintro rfl
    exact hb ha
  refine ⟨⟨F, hc.frame ht (fun q hq => ⟨(hsep.left.page q hq).1, hsep.not_mem hq⟩) rfl, hF⟩,
    h.kend_eq, h.trampoline_eq, h.fails⟩

/-- **One step** keeps the invariant. -/
theorem AllocInv.step (hs : step s e = .ok s') : AllocInv kend trampoline s' := by
  cases e with
  | kalloc =>
    simp only [KallocRun.step] at hs
    split at hs
    · rename_i r k hk
      cases hs
      exact ((h.kalloc hl).of_ok hk).1
    · cases hs
    · cases hs
  | kfree pa =>
    simp only [KallocRun.step] at hs
    split_ifs at hs with hpa
    split at hs
    · rename_i k hk
      cases hs
      exact (h.kfree hl hpa).of_ok hk
    · cases hs
    · cases hs
  | write a c =>
    simp only [KallocRun.step] at hs
    split_ifs at hs with ha
    cases hs
    exact h.write hl ha c

end

/-! ## Runs -/

/-- The pages from the end of the kernel on. -/
def IsFrame (kend p : ℕ) : Prop := p % PGSIZE = 0 ∧ PGROUNDUP kend ≤ p ∧ p < PHYSTOP

theorem mem_allPages_iff : p ∈ allPages kend ↔ IsFrame kend p := by
  rw [mem_allPages, IsFrame, PGSIZE]
  tauto

/-- What the free list is to be: a list that ends, of exactly the pages that are not owned, each
once. -/
structure FreePages (kend : ℕ) (s : State) (l : List ℕ) : Prop where
  threaded : FreeList s.kmem.mem s.kmem.freelist l
  nodup : l.Nodup
  mem_iff : ∀ p, p ∈ l ↔ IsFrame kend p ∧ p ∉ s.owned

theorem AllocInv.freePages (h : AllocInv kend trampoline s) (hl : Layout kend trampoline) :
    ∃ l, FreePages kend s l := by
  obtain ⟨F, ⟨l, rfl, hthread⟩, hF⟩ := h.pages
  have hsep := h.sep hl hF
  refine ⟨l, hthread, coe_nodup.mp hsep.left.nodup, fun p => ?_⟩
  rw [← mem_allPages_iff, ← hF, mem_add, mem_coe]
  constructor
  · exact fun hp => ⟨.inl hp, hsep.not_mem hp⟩
  · exact fun hp => hp.1.resolve_right hp.2

/-- **Each page is handed out once.** After `kinit`, which does not panic, whatever clients do with
the pages they own: the free list has exactly the pages that are not owned, `kalloc` returns 0
only if there is none, and otherwise a page that is not owned, and `kfree` does not panic. -/
theorem kalloc_once (k : KMem) (hl : Layout k.kend k.trampoline) (hfree : k.freelist = 0)
    (hfails : k.fails = []) :
    Meets kinit k (fun _ k₁ => ∀ s, Run step (fun _ _ => True) ⟨k₁, ∅⟩ s →
      (∃ l, FreePages k.kend s l) ∧
      (∀ p ∈ s.owned, IsFrame k.kend p) ∧
      Meets kalloc s.kmem (fun r _ =>
        (r = 0 → ∀ p, IsFrame k.kend p → p ∈ s.owned) ∧
        (r ≠ 0 → IsFrame k.kend r ∧ r ∉ s.owned)) Never ∧
      ∀ p ∈ s.owned, Meets (kfree p) s.kmem (fun _ _ => True) Never) Never := by
  have hloop : Meets kinit k (fun _ k' => k'.fails = k.fails) (fun _ => True) := by
    rw [kinit, meets_bind, meets_get, freerange]
    exact freerangeLoop_fails _ _ _
  refine ((kinit_spec hl hfree).and hloop).mono ?_ fun _ hm => hm.1
  rintro _ k₁ ⟨⟨hc, hk, htr⟩, hf⟩ s hrun
  have hinit : AllocInv k.kend k.trampoline ⟨k₁, ∅⟩ :=
    ⟨⟨_, hc, by rw [Finset.empty_val, add_zero]⟩, hk, htr, hf.trans hfails⟩
  have h : AllocInv k.kend k.trampoline s :=
    hrun.invariant hinit fun _ _ _ h _ hs => h.step hl hs
  obtain ⟨F, -, hF⟩ := h.pages
  refine ⟨h.freePages hl, fun p hp => ?_, ?_, fun p hp => (h.kfree hl hp).imp fun _ _ _ => trivial⟩
  · rw [← mem_allPages_iff, ← hF]
    exact mem_add.mpr (.inr hp)
  · refine (h.kalloc hl).imp ?_
    rintro r k' ⟨-, hzero, hpos⟩
    refine ⟨fun h0 p hp => ?_, fun hr => ⟨mem_allPages_iff.mp (hpos hr).1, (hpos hr).2⟩⟩
    rw [← Finset.mem_val, hzero h0]
    exact mem_allPages_iff.mpr hp

/-- A machine with two pages, before `kinit`. -/
def twoPages : KMem :=
  { mem := fun _ => 7, freelist := 0, fails := [], kend := PHYSTOP - 2 * PGSIZE - 5,
    trampoline := KERNBASE }

/-- A client owns one of the pages; the next one that `kalloc` returns is another. -/
theorem kalloc_once_twoPages : ∃ k₁ s p, kinit twoPages = .ok ((), k₁) ∧
    step ⟨k₁, ∅⟩ .kalloc = .ok s ∧ s.owned = {p} ∧ IsFrame twoPages.kend p ∧
    (∃ l, FreePages twoPages.kend s l) ∧
    Meets kalloc s.kmem (fun r _ => r ≠ 0 → IsFrame twoPages.kend r ∧ r ≠ p) Never ∧
    Meets (kfree p) s.kmem (fun _ _ => True) Never := by
  obtain ⟨_, k₁, hinit, hruns⟩ :=
    (kalloc_once twoPages ⟨by decide, by decide, by decide⟩ rfl rfl).exists_ok fun _ => id
  obtain ⟨-, -, halloc, -⟩ := hruns _ .refl
  obtain ⟨p, k₂, hp, hzero, hframe⟩ := halloc.exists_ok fun _ => id
  have hne : p ≠ 0 := fun h0 =>
    absurd (hzero h0 (PHYSTOP - PGSIZE) ⟨by decide, by decide, by decide⟩) (Finset.notMem_empty _)
  have hstep : step ⟨k₁, ∅⟩ .kalloc = .ok ⟨k₂, {p}⟩ := by
    rw [step, hp]
    dsimp only
    rw [if_neg hne]
    rfl
  obtain ⟨hfree, -, hnext, hfrees⟩ := hruns _ (.tail .refl trivial hstep)
  exact ⟨k₁, _, p, hinit, hstep, rfl, (hframe hne).1, hfree, hnext.imp fun r _ h hr =>
    ⟨(h.2 hr).1, fun heq => (h.2 hr).2 (Finset.mem_singleton.mpr heq)⟩,
    hfrees p (Finset.mem_singleton_self p)⟩

end Xv6.KallocRun
