import Xv6.Walk

/-!
# Growing, shrinking and freeing user memory

`AsStep` is what the operations on an address space have in common: the pages of
the free list, of the page table and of the user mappings stay the same
altogether, and nothing else changes. Each function is specified by such a step
together with what becomes of the mappings (`leaf`). `RangeStep` says in addition
that the user pages outside a range are left alone, with what is in them.
-/

namespace Xv6

open List Multiset

open Prog

variable {s s' s'' : KMem} {F F' F'' W : Multiset ℕ} {m m' : Bytes} {root p va v e n : ℕ}
  {E : String → Prop}

attribute [local irreducible] leaf

theorem UPAGES_eq : UPAGES = 2 ^ 26 - 2 := rfl

/-! ## Steps of an address space -/

theorem frames_congr (h : ∀ v < 512 ^ 3, leaf m' root v = leaf m root v) :
    frames m' root = frames m root :=
  values_congr fun v hv => by
    rw [UPAGES_eq] at hv
    rw [h v (by omega)]

/-- A mapping more. -/
theorem frames_insert (hv : v < UPAGES) (hnone : leaf m root v = none)
    (h : ∀ w < 512 ^ 3, leaf m' root w = if w = v then some e else leaf m root w) :
    frames m' root = PTE2PA e ::ₘ frames m root := by
  have hlt : ∀ {w}, w < UPAGES → w < 512 ^ 3 := fun hw => by
    rw [UPAGES_eq] at hw
    omega
  refine values_insert hv ?_ ?_ fun w hw hne => ?_
  · rw [hnone]
    rfl
  · rw [h v (hlt hv), if_pos rfl]
    rfl
  · rw [h w (hlt hw), if_neg hne]

theorem mem_frames (hv : v < UPAGES) (h : leaf m root v = some e) : PTE2PA e ∈ frames m root :=
  mem_values.mpr ⟨v, hv, by rw [h]; rfl⟩

/-- No mappings, no user pages. -/
theorem frames_eq_zero (h : ∀ v < UPAGES, leaf m root v = none) : frames m root = 0 := by
  rw [eq_zero_iff_forall_notMem]
  intro q hq
  obtain ⟨v, hv, hv'⟩ := mem_values.mp hq
  rw [h v hv] at hv'
  cases hv'

/-- A tree whose pages are not touched. -/
theorem Touches.tree (root : ℕ) (h : Touches W s s')
    (hW : ∀ p ∈ tables s.mem root, p % 4096 = 0 ∧ p ∉ W) :
    (∀ d ≤ 2, ∀ i < 512 ^ d, tblAt s'.mem root d i = tblAt s.mem root d i) ∧
    tables s'.mem root = tables s.mem root ∧
    (∀ v < 512 ^ 3, leaf s'.mem root v = leaf s.mem root v) ∧
    (PtOk s.mem root → PtOk s'.mem root) := by
  have hentry : ∀ p ∈ tables s.mem root, ∀ k < 512, entry s'.mem p k = entry s.mem p k :=
    fun p hp k hk => h.entry_eq (hW p hp).1 (hW p hp).2 hk
  have htbl : ∀ d ≤ 2, ∀ i < 512 ^ d, tblAt s'.mem root d i = tblAt s.mem root d i :=
    fun d hd i hi => tblAt_congr hentry hd hi
  refine ⟨htbl, tables_eq htbl, fun v hv => ?_, fun hok d hd i hi e he => ?_⟩
  · rw [leaf, leaf, ent_congr hentry le_rfl hv]
  · rw [ent_congr hentry (by omega) hi] at he
    exact hok d hd i hi e he

/-- The pages of an address space: the page table and the user pages. -/
def asPages (m : Bytes) (root : ℕ) : Multiset ℕ := tables m root + frames m root

/-- A step of an address space: its pages come from the free list or go there, and
nothing else changes. -/
structure AsStep (root : ℕ) (F F' : Multiset ℕ) (s s' : KMem) : Prop where
  chain : Chain s' F'
  sum : F' + asPages s'.mem root = F + asPages s.mem root
  touches : Touches (F + asPages s.mem root) s s'
  ok : PtOk s'.mem root

namespace AsStep

theorem refl (hc : Chain s F) (hok : PtOk s.mem root) : AsStep root F F s s :=
  ⟨hc, rfl, .refl _ _, hok⟩

theorem trans (h : AsStep root F F' s s') (h' : AsStep root F' F'' s' s'') :
    AsStep root F F'' s s'' :=
  ⟨h'.chain, h'.sum.trans h.sum, h.touches.trans (h.sum ▸ h'.touches), h'.ok⟩

theorem sep (h : AsStep root F F' s s') (hsep : Sep s.kend (F + asPages s.mem root)) :
    Sep s'.kend (F' + asPages s'.mem root) := by
  rw [h.sum, h.touches.kend]
  exact hsep

end AsStep

theorem Sep.tables (h : Sep s.kend (F + asPages m root)) : Sep s.kend (F + tables m root) := by
  rw [asPages, ← Multiset.add_assoc] at h
  exact h.left

/-- A step of the page table that leaves the user pages alone. -/
theorem PtStep.asStep (h : PtStep root F F' s s') (hf : frames s'.mem root = frames s.mem root) :
    AsStep root F F' s s' := by
  refine ⟨h.chain, ?_, h.touches.mono fun p hp => ?_, h.ok⟩
  · rw [asPages, asPages, ← Multiset.add_assoc, ← Multiset.add_assoc, h.sum, hf]
  · rw [asPages, ← Multiset.add_assoc]
    exact Multiset.mem_add.mpr (.inl hp)

/-! ## The contents of pages -/

/-- A page has in `m'` what another one has in `m`. -/
def SamePage (m m' : Bytes) (p p' : ℕ) : Prop := ∀ k < 4096, m' (p' + k) = m (p + k)

theorem SamePage.refl (m : Bytes) (p : ℕ) : SamePage m m p p := fun _ _ => rfl

theorem SamePage.trans {m'' : Bytes} {p' p'' : ℕ} (h : SamePage m m' p p')
    (h' : SamePage m' m'' p' p'') : SamePage m m'' p p'' := fun k hk => (h' k hk).trans (h k hk)

theorem Touches.samePage (h : Touches W s s') (hp : p % 4096 = 0) (hW : p ∉ W) :
    SamePage s.mem s'.mem p p := fun k hk =>
  h.mem _ (by rwa [PGROUNDDOWN_add hp hk])

theorem PTE2PA_mod (e : ℕ) : PTE2PA e % 4096 = 0 := by
  unfold PTE2PA WORD
  omega

section Frame

variable (hsep : Sep s.kend (F + asPages s.mem root)) (hv : v < UPAGES)
  (hl : leaf s.mem root v = some e)
include hsep hv hl

theorem PTE2PA_page : IsPage s.kend (PTE2PA e) :=
  hsep.page _ (mem_add.mpr (.inr (mem_add.mpr (.inr (mem_frames hv hl)))))

/-- A user page is neither free nor in the page table. -/
theorem frame_notMem : PTE2PA e ∉ F + tables s.mem root := fun hmem => by
  rw [asPages, ← Multiset.add_assoc] at hsep
  exact hsep.not_mem hmem (mem_frames hv hl)

/-- Two pages of user memory are not the same page. -/
theorem frame_inj {w e' : ℕ} (hw : w < UPAGES) (hl' : leaf s.mem root w = some e')
    (heq : PTE2PA e' = PTE2PA e) : w = v := by
  rw [asPages, ← Multiset.add_assoc] at hsep
  refine values_inj hsep.right.nodup hw hv (p := PTE2PA e) ?_ ?_
  · rw [hl', ← heq]
    rfl
  · rw [hl]
    rfl

/-- User pages are not affected by what is done to free pages and to the page table. -/
theorem frame_samePage (h : Touches W s s') (hW : ∀ q ∈ W, q ∈ F + tables s.mem root) :
    SamePage s.mem s'.mem (PTE2PA e) (PTE2PA e) :=
  h.samePage (PTE2PA_page hsep hv hl).1 fun hmem => frame_notMem hsep hv hl (hW _ hmem)

end Frame

/-- A step of an address space that leaves the user pages outside a range alone. -/
structure RangeStep (root lo hi : ℕ) (F F' : Multiset ℕ) (s s' : KMem) : Prop
    extends AsStep root F F' s s' where
  leaf_eq : ∀ w < 512 ^ 3, ¬(lo ≤ w ∧ w < hi) → leaf s'.mem root w = leaf s.mem root w
  content : ∀ w < UPAGES, ¬(lo ≤ w ∧ w < hi) → ∀ e, leaf s.mem root w = some e →
    SamePage s.mem s'.mem (PTE2PA e) (PTE2PA e)

namespace RangeStep

variable {lo hi lo' hi' : ℕ}

theorem refl (hc : Chain s F) (hok : PtOk s.mem root) : RangeStep root lo hi F F s s :=
  ⟨.refl hc hok, fun _ _ _ => rfl, fun _ _ _ _ _ => .refl _ _⟩

theorem trans (h : RangeStep root lo hi F F' s s') (h' : RangeStep root lo hi F' F'' s' s'') :
    RangeStep root lo hi F F'' s s'' := by
  refine ⟨h.toAsStep.trans h'.toAsStep, fun w hw hout => ?_, fun w hw hout e hl => ?_⟩
  · rw [h'.leaf_eq w hw hout, h.leaf_eq w hw hout]
  · have hw3 : w < 512 ^ 3 := by
      rw [UPAGES_eq] at hw
      omega
    exact (h.content w hw hout e hl).trans
      (h'.content w hw hout e ((h.leaf_eq w hw3 hout).trans hl))

theorem mono (h : RangeStep root lo hi F F' s s')
    (hsub : ∀ w, lo ≤ w → w < hi → lo' ≤ w ∧ w < hi') :
    RangeStep root lo' hi' F F' s s' :=
  ⟨h.toAsStep, fun w hw hout => h.leaf_eq w hw fun hin => hout (hsub w hin.1 hin.2),
    fun w hw hout => h.content w hw fun hin => hout (hsub w hin.1 hin.2)⟩

/-- A range at whose ends nothing was mapped and nothing is. -/
theorem shrink (h : RangeStep root lo' hi' F F' s s')
    (hnone : ∀ w, lo' ≤ w → w < hi' → ¬(lo ≤ w ∧ w < hi) →
      leaf s.mem root w = none ∧ leaf s'.mem root w = none) :
    RangeStep root lo hi F F' s s' := by
  refine ⟨h.toAsStep, fun w hw hout => ?_, fun w hw hout e hl => ?_⟩
  · by_cases hin : lo' ≤ w ∧ w < hi'
    · rw [(hnone w hin.1 hin.2 hout).1, (hnone w hin.1 hin.2 hout).2]
    · exact h.leaf_eq w hw hin
  · by_cases hin : lo' ≤ w ∧ w < hi'
    · rw [(hnone w hin.1 hin.2 hout).1] at hl
      cases hl
    · exact h.content w hw hin e hl

end RangeStep

/-- The pages that `n` pages of user memory, from `v` on, are mapped to. -/
def framesFrom (m : Bytes) (root v n : ℕ) : Multiset ℕ :=
  (List.range' v n).filterMap fun w => (leaf m root w).map PTE2PA

theorem framesFrom_congr (h : ∀ w, v ≤ w → w < v + n → leaf m' root w = leaf m root w) :
    framesFrom m' root v n = framesFrom m root v n := by
  unfold framesFrom
  congr 1
  refine filterMap_congr fun w hw => ?_
  obtain ⟨i, hi, rfl⟩ := mem_range'.mp hw
  rw [h _ (by omega) (by omega)]

theorem framesFrom_none (h : leaf m root v = none) :
    framesFrom m root v (n + 1) = framesFrom m root (v + 1) n := by
  rw [framesFrom, List.range'_succ, List.filterMap_cons, h]
  rfl

theorem framesFrom_some (h : leaf m root v = some e) :
    framesFrom m root v (n + 1) = PTE2PA e ::ₘ framesFrom m root (v + 1) n := by
  rw [framesFrom, List.range'_succ, List.filterMap_cons, h]
  rfl

/-- The pages of user memory, and those of a range taken out of it. -/
theorem frames_clear (hn : v + n ≤ UPAGES)
    (h : ∀ w < 512 ^ 3, leaf m' root w = if v ≤ w ∧ w < v + n then none else leaf m root w) :
    frames m root = framesFrom m root v n + frames m' root := by
  have hU := UPAGES_eq
  have hsplit : ∀ m : Bytes, frames m root =
      framesFrom m root 0 v + framesFrom m root v n +
        framesFrom m root (v + n) (UPAGES - (v + n)) := by
    intro m
    rw [frames, values, List.range_eq_range',
      show UPAGES = v + n + (UPAGES - (v + n)) by omega, ← List.range'_append_1,
      ← List.range'_append_1, List.filterMap_append, List.filterMap_append, Nat.zero_add,
      Nat.zero_add, ← Multiset.coe_add, ← Multiset.coe_add]
    simp only [framesFrom, Nat.add_sub_cancel_left]
  have hgone : framesFrom m' root v n = 0 := by
    rw [framesFrom, List.filterMap_eq_nil_iff.mpr]
    · rfl
    · intro w hw
      obtain ⟨i, hi, rfl⟩ := List.mem_range'.mp hw
      rw [h _ (by omega), if_pos (by omega)]
      rfl
  rw [hsplit m, hsplit m', hgone, Multiset.add_zero,
    framesFrom_congr fun w _ _ => (h w (by omega)).trans (if_neg (by omega)),
    framesFrom_congr fun w _ _ => (h w (by omega)).trans (if_neg (by omega)),
    Multiset.add_comm (framesFrom m root 0 v), Multiset.add_assoc]

/-! ## `uvmunmap` -/

/-- The pages that `uvmunmap` frees. -/
def freed (do_free : Bool) (m : Bytes) (root v n : ℕ) : Multiset ℕ :=
  if do_free then framesFrom m root v n else 0

/-- The entries of `n` pages, from `v` on, have been cleared, and the pages freed if they are
to be. -/
structure Unmapped (do_free : Bool) (root v n : ℕ) (F : Multiset ℕ) (s s' : KMem) : Prop where
  chain : Chain s' (freed do_free s.mem root v n + F)
  tables_eq : tables s'.mem root = tables s.mem root
  ok : PtOk s'.mem root
  touches : Touches (freed do_free s.mem root v n + F + tables s.mem root) s s'
  leaf_eq : ∀ w < 512 ^ 3, leaf s'.mem root w =
    if v ≤ w ∧ w < v + n then none else leaf s.mem root w

section Unmap

variable {do_free : Bool}

theorem freed_succ (m : Bytes) (root v n : ℕ) : freed do_free m root v (n + 1) =
    freed do_free m root (v + 1) n + freed do_free m root v 1 := by
  cases do_free with
  | false => simp [freed]
  | true =>
    simp only [freed, if_true, framesFrom]
    rw [List.range'_succ, ← List.singleton_append, List.filterMap_append, ← Multiset.coe_add,
      Multiset.add_comm]
    rfl

theorem freed_congr (do_free : Bool) (h : ∀ w, v ≤ w → w < v + n → leaf m' root w = leaf m root w) :
    freed do_free m' root v n = freed do_free m root v n := by
  unfold freed
  rw [framesFrom_congr h]

/-- There is nothing to unmap. -/
theorem Unmapped.skip (hc : Chain s F) (hok : PtOk s.mem root) (hl : leaf s.mem root v = none) :
    Unmapped do_free root v 1 F s s := by
  have hnone : freed do_free s.mem root v 1 = 0 := by
    rw [freed, framesFrom_none hl]
    exact ite_self 0
  refine ⟨by rwa [hnone, Multiset.zero_add], rfl, hok, .refl _ _, fun w _ => ?_⟩
  split
  · rename_i hw
    rw [show w = v by omega, hl]
  · rfl

/-- Clearing an entry, and freeing the page. -/
theorem unmap_page (do_free : Bool) (hc : Chain s F)
    (hsep : Sep s.kend (freed do_free s.mem root v 1 + F + tables s.mem root))
    (hok : PtOk s.mem root) (hv : v < 512 ^ 3) (hl : leaf s.mem root v = some e)
    (hp : tblAt s.mem root 2 (v / 512) = some p) :
    Meets (if do_free then do kfree (PTE2PA e); VM.store (p + 8 * (v % 512)) 0
      else VM.store (p + 8 * (v % 512)) 0) s
      (fun _ s' => Unmapped do_free root v 1 F s s') Never := by
  have hiff : ∀ w, w = v ↔ v ≤ w ∧ w < v + 1 := fun w => by omega
  cases do_free with
  | false =>
    rw [freed, if_neg Bool.false_ne_true, Multiset.zero_add] at hsep
    obtain ⟨hstep, htab, hleaf⟩ := PtStep.setLeaf (x := 0) hc hsep hok hv hp (by norm_num)
    refine ⟨?_, htab, hstep.ok, ?_, fun w hw => ?_⟩
    · simpa [freed] using hstep.chain
    · simpa [freed] using hstep.touches
    · rw [hleaf w hw]
      simp only [hiff]
      rfl
  | true =>
    have hfreed : freed true s.mem root v 1 = {PTE2PA e} := by
      rw [freed, if_pos rfl, framesFrom_some hl]
      rfl
    rw [hfreed, Multiset.singleton_add] at hsep
    simp only [if_true, meets_bind]
    refine (kfree_spec hc hsep.left).imp ?_
    rintro _ s₁ ⟨hc₁, ht₁⟩
    -- the page is none of the page table
    obtain ⟨htbl, htab, hleaf, hok'⟩ := ht₁.tree root fun q hq =>
      ⟨(hsep.right.page q hq).1, by
        rw [Multiset.mem_singleton]
        rintro rfl
        exact hsep.not_mem (Multiset.mem_cons_self _ _) hq⟩
    have hsep₁ : Sep s₁.kend (PTE2PA e ::ₘ F + tables s₁.mem root) := by
      rw [htab, ht₁.kend]
      exact hsep
    have hdiv : v / 512 < 512 ^ 2 := by omega
    obtain ⟨hstep, htab', hleaf'⟩ := PtStep.setLeaf (x := 0) hc₁ hsep₁ (hok' hok) hv
      ((htbl 2 le_rfl _ hdiv).trans hp) (by norm_num)
    refine ⟨?_, htab'.trans htab, hstep.ok, ?_, fun w hw => ?_⟩
    · rw [hfreed, Multiset.singleton_add]
      exact hstep.chain
    · rw [hfreed, Multiset.singleton_add, ← htab]
      exact (ht₁.mono fun q hq => by simp [Multiset.mem_singleton.mp hq]).trans hstep.touches
    · rw [hleaf' w hw, hleaf w hw]
      simp only [hiff]
      rfl

/-- A page is unmapped, then the rest. -/
theorem Unmapped.cons (hn : v + (n + 1) ≤ 512 ^ 3) (h : Unmapped do_free root v 1 F s s')
    (h' : Unmapped do_free root (v + 1) n (freed do_free s.mem root v 1 + F) s' s'') :
    Unmapped do_free root v (n + 1) F s s'' := by
  have hfreed : freed do_free s'.mem root (v + 1) n + (freed do_free s.mem root v 1 + F) =
      freed do_free s.mem root v (n + 1) + F := by
    rw [freed_congr _ fun w _ _ => (h.leaf_eq w (by omega)).trans (if_neg (by omega)),
      ← Multiset.add_assoc, ← freed_succ]
  refine ⟨hfreed ▸ h'.chain, h'.tables_eq.trans h.tables_eq, h'.ok, ?_, fun w hw => ?_⟩
  · have ht := h'.touches
    rw [hfreed, h.tables_eq] at ht
    refine (h.touches.mono fun q hq => ?_).trans ht
    rw [← hfreed, Multiset.add_assoc]
    exact Multiset.mem_add.mpr (.inr hq)
  · rw [h'.leaf_eq w hw, h.leaf_eq w hw]
    by_cases hwv : w = v
    · rw [if_neg (by omega), if_pos (by omega), if_pos (by omega)]
    · rw [if_neg (by omega : ¬(v ≤ w ∧ w < v + 1))]
      congr 1
      simp only [eq_iff_iff]
      omega

theorem uvmunmapLoop_spec (hc : Chain s F)
    (hsep : Sep s.kend (freed do_free s.mem root (va / 4096) n + F + tables s.mem root))
    (hok : PtOk s.mem root) (hal : va % 4096 = 0) (hn : va / 4096 + n ≤ 2 ^ 26) :
    Meets (uvmunmapLoop root do_free n va) s
      (fun _ s' => Unmapped do_free root (va / 4096) n F s s') Never := by
  induction n generalizing va s F with
  | zero =>
    have hnone : freed do_free s.mem root (va / 4096) 0 = 0 := ite_self 0
    exact ⟨by rwa [hnone, Multiset.zero_add], rfl, hok, .refl _ _,
      fun w _ => by rw [if_neg (by omega)]⟩
  | succ n ih =>
    have hva : va < MAXVA := by
      unfold MAXVA
      omega
    have hdiv : (va + PGSIZE) / 4096 = va / 4096 + 1 := by
      unfold PGSIZE
      omega
    -- what is left to do once the first page has been dealt with
    have hrest : ∀ s₁, Unmapped do_free root (va / 4096) 1 F s s₁ →
        Meets (uvmunmapLoop root do_free n (va + PGSIZE)) s₁
          (fun _ s' => Unmapped do_free root (va / 4096) (n + 1) F s s') Never := by
      intro s₁ h
      have hsame := freed_congr do_free (n := n) fun w (_ : va / 4096 + 1 ≤ w) _ =>
        (h.leaf_eq w (by omega)).trans (if_neg (by omega))
      refine (ih h.chain ?_ h.ok (by unfold PGSIZE; omega) (by rw [hdiv]; omega)).imp ?_
      · rw [hdiv, hsame, h.tables_eq, h.touches.kend, ← Multiset.add_assoc, ← freed_succ]
        exact hsep
      · rintro _ s' h'
        rw [hdiv] at h'
        exact h.cons (by omega) h'
    rw [uvmunmapLoop, meets_bind, meets_walk hva]
    -- a page without a valid entry is skipped
    rcases slot_cases hsep.right.page (show va / 4096 < 512 ^ 3 by omega) with
      ⟨h0, hl⟩ | ⟨h0, p, hp, hslot, ⟨hval, hl⟩ | ⟨hval, hl⟩⟩
    · rw [if_neg (not_not.mpr h0)]
      exact hrest s (.skip hc hok hl)
    · rw [if_pos h0]
      simp only [VM.load, meets_bind, meets_get, meets_pure]
      rw [if_pos ((valid_iff _).mpr hval)]
      rw [hslot] at hl ⊢
      have hunmap := unmap_page do_free hc (hsep.mono ?_) hok (by omega) hl hp
      · cases do_free with
        | false =>
          exact hunmap.imp fun _ s₂ h => hrest s₂ h
        | true =>
          simp only [if_true, meets_bind] at hunmap ⊢
          exact hunmap.imp fun _ s₁ h => h.imp fun _ s₂ h => hrest s₂ h
      · rw [freed_succ _ _ _ n, Multiset.add_assoc, Multiset.add_assoc, Multiset.add_assoc]
        exact Multiset.le_add_left _ _
    · rw [if_pos h0]
      simp only [VM.load, meets_bind, meets_get, meets_pure]
      rw [if_neg (by rw [valid_iff]; exact hval)]
      exact hrest s (.skip hc hok hl)

/-- **`uvmunmap`** clears the entries of a range. -/
theorem uvmunmap_unmaps (hc : Chain s F)
    (hsep : Sep s.kend (freed do_free s.mem root (va / 4096) n + F + tables s.mem root))
    (hok : PtOk s.mem root) (hal : va % 4096 = 0) (hn : va / 4096 + n ≤ 2 ^ 26) :
    Meets (uvmunmap root va n do_free) s
      (fun _ s' => Unmapped do_free root (va / 4096) n F s s') Never := by
  have hcount : ((va + n * PGSIZE) % WORD - va) / PGSIZE = n := by
    unfold PGSIZE WORD
    omega
  rw [uvmunmap, if_neg (by unfold PGSIZE; omega), hcount]
  exact uvmunmapLoop_spec hc hsep hok hal hn

end Unmap

/-- Unmapping and freeing user pages is a step of the address space. -/
theorem Unmapped.rangeStep (hsep : Sep s.kend (F + asPages s.mem root)) (hn : v + n ≤ UPAGES)
    (h : Unmapped true root v n F s s') :
    RangeStep root v (v + n) F (framesFrom s.mem root v n + F) s s' := by
  have hfreed : freed true s.mem root v n = framesFrom s.mem root v n := if_pos rfl
  have hframes := frames_clear hn h.leaf_eq
  have ht := h.touches
  refine ⟨⟨hfreed ▸ h.chain, ?_, ht.mono fun q hq => ?_, h.ok⟩,
    fun w hw hout => (h.leaf_eq w hw).trans (if_neg hout), fun w hw hout e hl => ?_⟩
  · rw [asPages, asPages, h.tables_eq, hframes, ← Multiset.add_assoc (tables s.mem root),
      Multiset.add_comm (tables s.mem root) (framesFrom s.mem root v n),
      Multiset.add_assoc (framesFrom s.mem root v n) (tables s.mem root), ← Multiset.add_assoc F,
      Multiset.add_comm F (framesFrom s.mem root v n)]
  · rw [asPages, hframes]
    simp only [Multiset.mem_add] at hq ⊢
    rcases hq with (hq | hq) | hq
    · exact .inr (.inr (.inl hq))
    · exact .inl hq
    · exact .inr (.inl hq)
  · -- another user page is neither freed, nor free, nor in the page table
    refine ht.samePage (PTE2PA_mod e) fun hmem => ?_
    rw [Multiset.add_assoc, Multiset.mem_add] at hmem
    rcases hmem with hmem | hmem
    · obtain ⟨w', hw', hl'⟩ := List.mem_filterMap.mp hmem
      obtain ⟨i, hi, rfl⟩ := List.mem_range'.mp hw'
      obtain ⟨e', hl', heq⟩ := Option.map_eq_some_iff.mp hl'
      have := frame_inj hsep hw hl (by omega) hl' heq
      omega
    · exact frame_notMem hsep hw hl hmem

/-- **`uvmunmap`** of user pages, freeing them. -/
theorem uvmunmap_range (hc : Chain s F) (hsep : Sep s.kend (F + asPages s.mem root))
    (hok : PtOk s.mem root) (hal : va % 4096 = 0) (hn : va / 4096 + n ≤ UPAGES) :
    Meets (uvmunmap root va n true) s (fun _ s' =>
      RangeStep root (va / 4096) (va / 4096 + n) F (framesFrom s.mem root (va / 4096) n + F) s s' ∧
      ∀ w, va / 4096 ≤ w → w < va / 4096 + n → leaf s'.mem root w = none) Never := by
  have hU := UPAGES_eq
  have hsub : framesFrom s.mem root (va / 4096) n ≤ frames s.mem root := by
    rw [frames, values, List.range_eq_range']
    refine Multiset.coe_le.mpr (List.Sublist.subperm (List.Sublist.filterMap _ ?_))
    rw [show UPAGES = va / 4096 + (n + (UPAGES - (va / 4096 + n))) by omega,
      ← List.range'_append_1, ← List.range'_append_1, Nat.zero_add]
    exact (List.sublist_append_left _ _).trans (List.sublist_append_right _ _)
  refine (uvmunmap_unmaps hc (hsep.mono ?_) hok hal (by omega)).imp fun _ s' h =>
    ⟨h.rangeStep hsep hn, fun w hlo hhi => (h.leaf_eq w (by omega)).trans (if_pos ⟨hlo, hhi⟩)⟩
  rw [freed, if_pos rfl, asPages, Multiset.add_comm (tables _ _), ← Multiset.add_assoc,
    Multiset.add_comm (framesFrom _ _ _ _)]
  exact Multiset.add_le_add_right (Multiset.add_le_add_left hsub)

/-- The mappings after a range has been cleared. -/
theorem RangeStep.cleared {lo hi : ℕ} (h : RangeStep root lo hi F F' s s')
    (hnone : ∀ w, lo ≤ w → w < hi → leaf s'.mem root w = none) :
    ∀ w < 512 ^ 3, leaf s'.mem root w =
      if lo ≤ w ∧ w < hi then none else leaf s.mem root w := by
  intro w hw
  split
  · rename_i hin
    exact hnone w hin.1 hin.2
  · exact h.leaf_eq w hw ‹_›

theorem uvmunmap_spec (hc : Chain s F) (hsep : Sep s.kend (F + asPages s.mem root))
    (hok : PtOk s.mem root) (hal : va % 4096 = 0) (hn : va / 4096 + n ≤ UPAGES) :
    Meets (uvmunmap root va n true) s (fun _ s' => ∃ F', AsStep root F F' s s' ∧
      ∀ w < 512 ^ 3, leaf s'.mem root w =
        if va / 4096 ≤ w ∧ w < va / 4096 + n then none else leaf s.mem root w) Never :=
  (uvmunmap_range hc hsep hok hal hn).imp fun _ _ ⟨hstep, hnone⟩ =>
    ⟨_, hstep.toAsStep, hstep.cleared hnone⟩

/-- **`uvmunmap`** of one page, without freeing it. -/
theorem uvmunmap_keep_spec (hc : Chain s F) (hsep : Sep s.kend (F + tables s.mem root))
    (hok : PtOk s.mem root) (hal : va % 4096 = 0) (hva : va < MAXVA) :
    Meets (uvmunmap root va 1 false) s (fun _ s' => PtStep root F F s s' ∧
      tables s'.mem root = tables s.mem root ∧
      ∀ w < 512 ^ 3, leaf s'.mem root w = if w = va / 4096 then none else leaf s.mem root w)
      Never := by
  have hM : MAXVA = 2 ^ 38 := rfl
  refine (uvmunmap_unmaps hc (by rwa [freed, if_neg Bool.false_ne_true, Multiset.zero_add]) hok hal
    (by omega)).imp fun _ s' h => ?_
  have hfreed : freed false s.mem root (va / 4096) 1 = 0 := if_neg Bool.false_ne_true
  have hc' := h.chain
  have ht := h.touches
  rw [hfreed, Multiset.zero_add] at hc' ht
  refine ⟨⟨hc', by rw [h.tables_eq], ht, h.ok⟩, h.tables_eq, fun w hw => ?_⟩
  rw [h.leaf_eq w hw]
  congr 1
  simp only [eq_iff_iff]
  omega

/-! ## `uvmdealloc` and `uvmalloc` -/

/-- The number of pages of a size. -/
def npages (sz : ℕ) : ℕ := (sz + 4095) / 4096

theorem PGROUNDUP_eq {sz : ℕ} (h : sz ≤ TRAPFRAME) : PGROUNDUP sz = npages sz * 4096 := by
  refine PGROUNDUP_of_le (h.trans ?_)
  unfold TRAPFRAME TRAMPOLINE
  omega

theorem TRAPFRAME_eq : TRAPFRAME = UPAGES * 4096 := rfl

theorem npages_le {sz : ℕ} : npages sz ≤ UPAGES ↔ sz ≤ TRAPFRAME := by
  rw [TRAPFRAME_eq]
  unfold npages
  omega

theorem truncInt_of_lt {x : ℕ} (h : x < 2 ^ 31) : truncInt x = x := by
  have hmsb : (BitVec.ofNat 32 x).msb = false := by
    rw [BitVec.msb_eq_false_iff_two_mul_lt, BitVec.toNat_ofNat]
    omega
  rw [truncInt, BitVec.toNat_signExtend, hmsb]
  norm_num
  omega

/-- **`uvmdealloc`** frees the pages that are mapped between the new size and the old. -/
theorem uvmdealloc_range {oldsz newsz : ℕ} (hc : Chain s F)
    (hsep : Sep s.kend (F + asPages s.mem root)) (hok : PtOk s.mem root)
    (hold : oldsz ≤ TRAPFRAME) :
    Meets (uvmdealloc root oldsz newsz) s (fun r s' => r = min oldsz newsz ∧
      RangeStep root (npages newsz) (npages oldsz) F
        (framesFrom s.mem root (npages newsz) (npages oldsz - npages newsz) + F) s s' ∧
      ∀ w, npages newsz ≤ w → w < npages oldsz → leaf s'.mem root w = none) Never := by
  have hU := UPAGES_eq
  have hstay : npages oldsz ≤ npages newsz → RangeStep root (npages newsz) (npages oldsz) F
        (framesFrom s.mem root (npages newsz) (npages oldsz - npages newsz) + F) s s ∧
      ∀ w, npages newsz ≤ w → w < npages oldsz → leaf s.mem root w = none := fun hle =>
    ⟨by simpa [framesFrom, Nat.sub_eq_zero_of_le hle] using .refl hc hok,
      fun w _ _ => absurd (by omega : w < w) (Nat.lt_irrefl w)⟩
  unfold uvmdealloc
  split
  · rename_i h
    exact ⟨(min_eq_left h).symm, hstay (by unfold npages; omega)⟩
  · rename_i h
    have hnew : newsz ≤ TRAPFRAME := by omega
    have hmin : newsz = min oldsz newsz := (min_eq_right (by omega)).symm
    rw [PGROUNDUP_eq hold, PGROUNDUP_eq hnew]
    have hlt := npages_le.mpr hold
    split
    · rename_i hlt'
      have hn : truncInt ((npages oldsz * 4096 - npages newsz * 4096) / PGSIZE) =
          npages oldsz - npages newsz := by
        rw [show (npages oldsz * 4096 - npages newsz * 4096) / PGSIZE =
          npages oldsz - npages newsz by unfold PGSIZE; omega]
        exact truncInt_of_lt (by omega)
      have hfrom : npages newsz * 4096 / 4096 = npages newsz := by omega
      have hto : npages newsz + (npages oldsz - npages newsz) = npages oldsz := by omega
      have hunmap := uvmunmap_range hc hsep hok (Nat.mul_mod_left (npages newsz) 4096)
        (n := npages oldsz - npages newsz) (by omega)
      rw [hfrom, hto] at hunmap
      rw [hn, meets_bind]
      refine hunmap.imp ?_
      rintro _ s' h
      exact ⟨hmin, h⟩
    · rename_i hge
      exact ⟨hmin, hstay (by omega)⟩

theorem uvmdealloc_spec {oldsz newsz : ℕ} (hc : Chain s F)
    (hsep : Sep s.kend (F + asPages s.mem root)) (hok : PtOk s.mem root)
    (hold : oldsz ≤ TRAPFRAME) :
    Meets (uvmdealloc root oldsz newsz) s (fun r s' => r = min oldsz newsz ∧
      ∃ F', AsStep root F F' s s' ∧ ∀ w < 512 ^ 3, leaf s'.mem root w =
        if npages newsz ≤ w ∧ w < npages oldsz then none else leaf s.mem root w) Never :=
  (uvmdealloc_range hc hsep hok hold).imp fun _ _ ⟨hr, hstep, hnone⟩ =>
    ⟨hr, _, hstep.toAsStep, hstep.cleared hnone⟩

/-- The pages from `lo` to `hi` are mapped, with permissions `perm`, and the others as before. -/
def Mapped (m m' : Bytes) (root perm lo hi : ℕ) : Prop :=
  ∀ w < 512 ^ 3, if lo ≤ w ∧ w < hi then
    ∃ pg, pg % 4096 = 0 ∧ pg < WORD ∧ leaf m' root w = some (PA2PTE pg ||| (perm ||| PTE_V))
  else leaf m' root w = leaf m root w

/-- A page `r` has been taken off the free list and filled; the address space is as before. -/
structure Fresh (root r : ℕ) (F : Multiset ℕ) (s s' : KMem) : Prop where
  page : IsPage s.kend r
  chain : Chain s' F
  sep : Sep s'.kend (r ::ₘ F + asPages s'.mem root)
  touches : Touches {r} s s'
  tblAt_eq : ∀ d ≤ 2, ∀ i < 512 ^ d, tblAt s'.mem root d i = tblAt s.mem root d i
  tables_eq : tables s'.mem root = tables s.mem root
  leaf_eq : ∀ w < 512 ^ 3, leaf s'.mem root w = leaf s.mem root w
  ok : PtOk s'.mem root

section Fresh

variable {s₁ s₂ s₃ : KMem} {F₁ F₂ : Multiset ℕ} {r perm : ℕ}

theorem Fresh.of_kalloc (hsep : Sep s.kend (r ::ₘ F₁ + asPages s.mem root)) (hok : PtOk s.mem root)
    (hc : Chain s₁ F₁) (ht : Touches {r} s s₁) (ht' : Touches {r} s₁ s₂)
    (hfl : s₂.freelist = s₁.freelist) : Fresh root r F₁ s s₂ := by
  have hr : r ∉ asPages s.mem root := hsep.not_mem (Multiset.mem_cons_self _ _)
  have htrans := ht.trans ht'
  obtain ⟨htbl, htab, hleaf, hok'⟩ := htrans.tree root fun q hq =>
    ⟨(hsep.tables.right.page q hq).1, by
      rw [Multiset.mem_singleton]
      rintro rfl
      exact hr (Multiset.mem_add.mpr (.inl hq))⟩
  refine ⟨hsep.page r (by simp), hc.frame ht' (fun q hq => ⟨(hsep.page q (by simp [hq])).1, ?_⟩)
    hfl, ?_, htrans, htbl, htab, hleaf, hok' hok⟩
  · rw [Multiset.mem_singleton]
    rintro rfl
    exact (Multiset.nodup_cons.mp hsep.left.nodup).1 hq
  · rw [asPages, htab, frames_congr hleaf, htrans.kend]
    exact hsep

theorem Fresh.sep_tables (h : Fresh root r F₁ s s₂) : Sep s₂.kend (F₁ + tables s₂.mem root) := by
  refine h.sep.tables.mono ?_
  rw [cons_add]
  exact le_cons_self _ _

theorem Fresh.notMem (h : Fresh root r F₁ s s₂) : r ∉ F₁ + tables s₂.mem root := fun hmem => by
  have hsep := h.sep.tables
  rw [cons_add] at hsep
  exact (nodup_cons.mp hsep.nodup).1 hmem

/-- User pages keep what is in them while the page table grows. -/
theorem Fresh.samePage (h : Fresh root r F₁ s s₂) (hstep : PtStep root F₁ F₂ s₂ s₃)
    (hv : v < UPAGES) (hl : leaf s.mem root v = some e) :
    SamePage s.mem s₃.mem (PTE2PA e) (PTE2PA e) := by
  have hU := UPAGES_eq
  rw [← h.leaf_eq v (by omega)] at hl
  have hout := frame_notMem h.sep hv hl
  rw [Multiset.cons_add, Multiset.mem_cons, not_or] at hout
  have hpage := (PTE2PA_page h.sep hv hl).1
  exact (h.touches.samePage hpage (by simpa using hout.1)).trans
    (hstep.touches.samePage hpage hout.2)

/-- The page becomes a user page. -/
theorem Fresh.map (h : Fresh root r F₁ s s₂) (hperm : perm ||| PTE_V < 2 ^ 10) (hv : v < UPAGES)
    (hnone : leaf s.mem root v = none) (hstep : PtStep root F₁ F₂ s₂ s₃)
    (hleaf : ∀ w < 512 ^ 3, leaf s₃.mem root w = if w = v then
      some (PA2PTE r ||| (perm ||| PTE_V)) else leaf s₂.mem root w) :
    RangeStep root v (v + 1) (r ::ₘ F₁) F₂ s s₃ ∧ SamePage s₂.mem s₃.mem r r := by
  have hfr : frames s₃.mem root = r ::ₘ frames s.mem root := by
    rw [frames_insert (e := PA2PTE r ||| (perm ||| PTE_V)) hv hnone,
      PTE2PA_PA2PTE h.page.1 h.page.lt_word hperm]
    intro w hw
    rw [hleaf w hw]
    split
    · rfl
    · exact h.leaf_eq w hw
  have hleaf' : ∀ w < 512 ^ 3, w ≠ v → leaf s₃.mem root w = leaf s.mem root w := fun w hw hne => by
    rw [hleaf w hw, if_neg hne, h.leaf_eq w hw]
  refine ⟨⟨⟨hstep.chain, ?_, ?_, hstep.ok⟩, fun w hw hout => hleaf' w hw (by omega),
    fun w hw _ e hl => h.samePage hstep hw hl⟩, ?_⟩
  · rw [asPages, asPages, hfr, Multiset.add_cons, Multiset.add_cons, ← Multiset.add_assoc,
      hstep.sum, h.tables_eq, Multiset.cons_add, Multiset.add_assoc]
  · refine (h.touches.mono fun q hq => ?_).trans (hstep.touches.mono fun q hq => ?_)
    · simp [Multiset.mem_singleton.mp hq]
    · rw [h.tables_eq, Multiset.mem_add] at hq
      rw [asPages, Multiset.mem_add, Multiset.mem_add, Multiset.mem_cons]
      exact hq.elim (fun h => .inl (.inr h)) fun h => .inr (.inl h)
  · exact hstep.touches.samePage h.page.1 h.notMem

/-- The page goes back to the free list. -/
theorem Fresh.kfree_spec (h : Fresh root r F₁ s s₂) (hstep : PtStep root F₁ F₂ s₂ s₃)
    (hleaf : ∀ w < 512 ^ 3, leaf s₃.mem root w = leaf s₂.mem root w) :
    Meets (kfree r) s₃ (fun _ s' => RangeStep root 0 0 (r ::ₘ F₁) (r ::ₘ F₂) s s') Never := by
  have hsep : Sep s₃.kend (r ::ₘ F₂ + asPages s₃.mem root) := by
    have := h.sep
    rw [asPages, Multiset.cons_add, ← Multiset.add_assoc] at this ⊢
    rw [hstep.sum, hstep.touches.kend, frames_congr hleaf]
    exact this
  refine (Xv6.kfree_spec hstep.chain hsep.left).imp ?_
  rintro _ s' ⟨hc, ht⟩
  obtain ⟨-, htab, hleaf', hok⟩ := ht.tree root fun q hq =>
    ⟨(hsep.tables.right.page q hq).1, by
      rw [Multiset.mem_singleton]
      rintro rfl
      exact hsep.tables.not_mem (Multiset.mem_cons_self _ _) hq⟩
  have hleaf'' : ∀ w < 512 ^ 3, leaf s'.mem root w = leaf s.mem root w := fun w hw =>
    (hleaf' w hw).trans ((hleaf w hw).trans (h.leaf_eq w hw))
  refine ⟨⟨hc, ?_, ?_, hok hstep.ok⟩, fun w hw _ => hleaf'' w hw, fun w hw _ e hl => ?_⟩
  · have hsum := hstep.sum
    rw [h.tables_eq] at hsum
    rw [asPages, asPages, frames_congr hleaf'', htab, Multiset.cons_add, Multiset.cons_add,
      ← Multiset.add_assoc, hsum, Multiset.add_assoc]
  · have hr : ∀ q ∈ ({r} : Multiset ℕ), q ∈ r ::ₘ F₁ + asPages s.mem root := fun q hq => by
      simp [Multiset.mem_singleton.mp hq]
    refine ((h.touches.mono hr).trans (hstep.touches.mono fun q hq => ?_)).trans (ht.mono hr)
    rw [h.tables_eq, Multiset.mem_add] at hq
    rw [asPages, Multiset.mem_add, Multiset.mem_add, Multiset.mem_cons]
    exact hq.elim (fun h => .inl (.inr h)) fun h => .inr (.inl h)
  · have hU := UPAGES_eq
    have hl₃ := hl
    rw [← h.leaf_eq w (by omega), ← hleaf w (by omega)] at hl₃
    have hout := frame_notMem hsep hw hl₃
    rw [Multiset.cons_add, Multiset.mem_cons, not_or] at hout
    exact (h.samePage hstep hw hl).trans
      (ht.samePage (PTE2PA_page hsep hw hl₃).1 (by simpa using hout.1))

end Fresh

/-- When `kalloc` fails nothing changes. -/
theorem RangeStep.of_touches_zero (hc : Chain s' F) (ht : Touches 0 s s') (hok : PtOk s.mem root) :
    RangeStep root 0 0 F F s s' :=
  ⟨⟨hc, by rw [ht.mem_eq], ht.mono (by simp), by rw [ht.mem_eq]; exact hok⟩,
    fun _ _ _ => by rw [ht.mem_eq], fun _ _ _ _ _ => by rw [ht.mem_eq]; exact .refl _ _⟩

theorem RangeStep.leaf_all (h : RangeStep root 0 0 F F' s s') :
    ∀ w < 512 ^ 3, leaf s'.mem root w = leaf s.mem root w := fun w hw => h.leaf_eq w hw (by omega)

section Alloc

variable {oldsz newsz xperm a : ℕ}

/-- The pages from `lo` to `hi` are mapped, with permissions `perm`, to pages full of zeros. -/
def ZeroMapped (m : Bytes) (root perm lo hi : ℕ) : Prop :=
  ∀ w, lo ≤ w → w < hi → ∃ pg, pg % 4096 = 0 ∧ pg < WORD ∧
    leaf m root w = some (PA2PTE pg ||| (perm ||| PTE_V)) ∧ ∀ k < 4096, m (pg + k) = 0

/-- The ways `uvmallocLoop` ends. -/
def AllocLoopEnds (root oldsz newsz perm n a : ℕ) (F : Multiset ℕ) (s : KMem) (r : ℕ)
    (s' : KMem) : Prop :=
  ∃ F', (r = newsz ∧ a / 4096 + n ≤ UPAGES ∧
      RangeStep root (a / 4096) (a / 4096 + n) F F' s s' ∧
      ZeroMapped s'.mem root perm (a / 4096) (a / 4096 + n)) ∨
    (r = 0 ∧ 0 < n ∧ RangeStep root (oldsz / 4096) (a / 4096) F F' s s' ∧
      ∀ w, oldsz / 4096 ≤ w → w < a / 4096 → leaf s'.mem root w = none)

/-- A page is mapped, and the loop goes on. -/
theorem AllocLoopEnds.cons {perm r ret : ℕ} (ha : a % 4096 = 0) (hlt : a / 4096 < UPAGES)
    (hle : oldsz ≤ a) (hfree : leaf s.mem root (a / 4096) = none) (hr : IsPage s.kend r)
    (hperm : perm ||| PTE_V < 2 ^ 10)
    (hmap : RangeStep root (a / 4096) (a / 4096 + 1) F F' s s')
    (hl : leaf s'.mem root (a / 4096) = some (PA2PTE r ||| (perm ||| PTE_V)))
    (hzero : ∀ k < 4096, s'.mem (r + k) = 0)
    (h : AllocLoopEnds root oldsz newsz perm n (a + PGSIZE) F' s' ret s'') :
    AllocLoopEnds root oldsz newsz perm (n + 1) a F s ret s'' := by
  have hU := UPAGES_eq
  have hdiv : (a + PGSIZE) / 4096 = a / 4096 + 1 := by
    unfold PGSIZE
    omega
  rcases h with ⟨F'', ⟨rfl, hn, hstep, hz⟩ | ⟨rfl, -, hstep, hnone⟩⟩
  · rw [hdiv] at hn hstep hz
    refine ⟨F'', .inl ⟨rfl, by omega, (hmap.mono fun w _ _ => by omega).trans
      (hstep.mono fun w _ _ => by omega), fun w hlo hhi => ?_⟩⟩
    by_cases hwa : w = a / 4096
    · subst hwa
      refine ⟨r, hr.1, hr.lt_word, (hstep.leaf_eq _ (by omega) (by omega)).trans hl, fun k hk => ?_⟩
      have hsame := hstep.content _ hlt (by omega) _ hl
      rw [PTE2PA_PA2PTE hr.1 hr.lt_word hperm] at hsame
      rw [hsame k hk, hzero k hk]
    · exact hz w (by omega) (by omega)
  · rw [hdiv] at hstep hnone
    have hall : RangeStep root (oldsz / 4096) (a / 4096 + 1) F F'' s s'' :=
      (hmap.mono fun w _ _ => by omega).trans (hstep.mono fun w _ _ => by omega)
    refine ⟨F'', .inr ⟨rfl, by omega, hall.shrink fun w h1 h2 h3 => ?_, fun w h1 h2 =>
      hnone w h1 (by omega)⟩⟩
    obtain rfl : w = a / 4096 := by omega
    exact ⟨hfree, hnone _ h1 h2⟩

section

variable (hc : Chain s F) (hsep : Sep s.kend (F + asPages s.mem root)) (hok : PtOk s.mem root)
include hc hsep hok

theorem uvmallocLoop_spec (hold : oldsz % 4096 = 0) (hal : a % 4096 = 0) (hle : oldsz ≤ a)
    (ha : a / 4096 ≤ UPAGES) (hx : xperm < 2 ^ 10)
    (hfree : ∀ w, a / 4096 ≤ w → w < UPAGES → leaf s.mem root w = none)
    (htf : leaf s.mem root UPAGES ≠ none ∨ a / 4096 + n ≤ UPAGES) :
    Meets (uvmallocLoop root oldsz newsz xperm n a) s
      (AllocLoopEnds root oldsz newsz (PTE_R ||| PTE_U ||| xperm) n a F s)
      (fun msg => msg = "mappages: remap" ∧ UPAGES < a / 4096 + n ∧
        UPAGES - a / 4096 < Multiset.card F) := by
  have hU := UPAGES_eq
  induction n generalizing a s F with
  | zero =>
    rw [uvmallocLoop, meets_pure]
    exact ⟨F, .inl ⟨rfl, by omega, .refl hc hok,
      fun w _ _ => absurd (by omega : w < w) (Nat.lt_irrefl w)⟩⟩
  | succ n ih =>
    have hT := TRAPFRAME_eq
    have hM : MAXVA = 2 ^ 38 := rfl
    have hperm : PTE_R ||| PTE_U ||| xperm < 2 ^ 10 := Nat.or_lt_two_pow (by decide) hx
    have hperm' : PTE_R ||| PTE_U ||| xperm ||| PTE_V < 2 ^ 10 := Nat.or_lt_two_pow hperm (by decide)
    have hdiv : (a + PGSIZE) / 4096 = a / 4096 + 1 := by
      unfold PGSIZE
      omega
    -- the way out, once the address space is as before
    have hfail : ∀ s₁ F₁, RangeStep root 0 0 F F₁ s s₁ →
        Meets (do let _ ← uvmdealloc root a oldsz; return 0) s₁
          (AllocLoopEnds root oldsz newsz (PTE_R ||| PTE_U ||| xperm) (n + 1) a F s) Never := by
      intro s₁ F₁ hstep
      rw [meets_bind]
      refine (uvmdealloc_range hstep.chain (hstep.sep hsep) hstep.ok (by omega)).imp ?_
      rintro _ s' ⟨-, hstep', hnone⟩
      rw [show npages oldsz = oldsz / 4096 by unfold npages; omega,
        show npages a = a / 4096 by unfold npages; omega] at hstep' hnone
      exact ⟨_, .inr ⟨rfl, by omega, (hstep.mono fun w _ _ => by omega).trans hstep', hnone⟩⟩
    rw [uvmallocLoop, meets_bind]
    refine (kalloc_spec hc hsep.left).never.imp ?_
    rintro r s₁ (⟨rfl, hc₁, ht⟩ | ⟨hr, F₁, rfl, hc₁, ht⟩)
    · rw [if_pos rfl]
      exact (hfail s₁ F (.of_touches_zero hc₁ ht hok)).never
    rw [if_neg hr]
    have hpage := hsep.page r (by simp)
    simp only [VM.memset, meets_bind, meets_modify]
    have hfresh : Fresh root r F₁ s { s₁ with mem := memset s₁.mem r 0 PGSIZE } :=
      .of_kalloc hsep hok hc₁ ht (.memset hpage.1 0) rfl
    refine (mappages_spec hfresh.chain hfresh.sep_tables hfresh.ok (show a < MAXVA by omega) hal
      hpage.lt_word hperm).mono ?_ ?_
    · rintro ret s₃ ⟨F₂, hF₂, hstep, hnone, ⟨rfl, hleaf⟩ | ⟨rfl, hleaf, -⟩⟩
      · -- mapped: on to the next page
        rw [hfresh.leaf_eq _ (by omega)] at hnone
        have hlt : a / 4096 < UPAGES := by
          rcases htf with htf | hn
          · refine lt_of_le_of_ne ha ?_
            rintro heq
            rw [heq] at hnone
            exact htf hnone
          · omega
        obtain ⟨hmap, hsame⟩ := hfresh.map hperm' hlt hnone hstep hleaf
        have hl := hleaf (a / 4096) (by omega)
        rw [if_pos rfl] at hl
        have hzero : ∀ k < 4096, s₃.mem (r + k) = 0 := fun k hk => by
          rw [hsame k hk]
          exact if_pos ⟨by omega, by unfold PGSIZE; omega⟩
        have hcard : Multiset.card F₂ ≤ Multiset.card F₁ := card_le_card hF₂
        refine (ih hmap.chain (hmap.sep hsep) hmap.ok (by unfold PGSIZE; omega)
          (by unfold PGSIZE; omega) (by omega) ?_ ?_).mono ?_ ?_
        · intro w hw hw'
          rw [hmap.leaf_eq w (by omega) (by omega)]
          exact hfree w (by omega) hw'
        · rw [hmap.leaf_eq _ (by omega) (by omega), hdiv]
          exact htf.imp_right fun hn => by omega
        · intro ret s' h
          exact h.cons hal hlt hle hnone hpage hperm' hmap hl hzero
        · rintro msg ⟨rfl, h1, h2⟩
          rw [card_cons]
          exact ⟨rfl, by omega, by omega⟩
      · -- no page for the page table: give the page back
        rw [if_pos (by simp), meets_bind]
        refine (hfresh.kfree_spec hstep hleaf).never.imp ?_
        exact fun _ s₄ hstep' => (hfail s₄ _ hstep').never
    · -- only the trapframe can be in the way
      rintro msg ⟨rfl, hne⟩
      rw [hfresh.leaf_eq _ (by omega)] at hne
      have : ¬a / 4096 < UPAGES := fun hlt => hne (hfree _ le_rfl hlt)
      rw [card_cons]
      exact ⟨rfl, by omega, by omega⟩

/-- **`uvmalloc`**: the pages of the new size are mapped, or none is. It panics
only if it gets as far as the trapframe. -/
theorem uvmalloc_range (hold : oldsz ≤ TRAPFRAME) (hnew : oldsz ≤ newsz) (hx : xperm < 2 ^ 10)
    (hfree : ∀ w, npages oldsz ≤ w → w < UPAGES → leaf s.mem root w = none)
    (htf : leaf s.mem root UPAGES ≠ none ∨ newsz ≤ TRAPFRAME) :
    Meets (uvmalloc root oldsz newsz xperm) s (fun r s' => ∃ F',
      (r = newsz ∧ newsz ≤ TRAPFRAME ∧
          RangeStep root (npages oldsz) (npages newsz) F F' s s' ∧
          ZeroMapped s'.mem root (PTE_R ||| PTE_U ||| xperm) (npages oldsz) (npages newsz)) ∨
        (r = 0 ∧ 0 < newsz ∧ RangeStep root 0 0 F F' s s'))
      (fun msg => msg = "mappages: remap" ∧ TRAPFRAME < newsz ∧
        UPAGES - npages oldsz < Multiset.card F) := by
  have hdiv : PGROUNDUP oldsz / 4096 = npages oldsz := by
    rw [PGROUNDUP_eq hold]
    omega
  have hn : npages oldsz + (newsz - PGROUNDUP oldsz + (PGSIZE - 1)) / PGSIZE = npages newsz := by
    rw [PGROUNDUP_eq hold]
    unfold npages PGSIZE
    omega
  have hle := npages_le.mpr hold
  rw [uvmalloc, if_neg (by omega)]
  refine (uvmallocLoop_spec hc hsep hok (PGROUNDUP_mod _) (PGROUNDUP_mod _) le_rfl
    (by rw [hdiv]; exact hle) hx (by rw [hdiv]; exact hfree)
    (by rw [hdiv, hn]; exact htf.imp_right npages_le.mpr)).mono ?_ ?_
  · rintro r s' ⟨F', ⟨rfl, hlt, hstep, hz⟩ | ⟨rfl, hpos, hstep, -⟩⟩
    · rw [hdiv, hn] at hlt hstep hz
      exact ⟨F', .inl ⟨rfl, npages_le.mp hlt, hstep, hz⟩⟩
    · refine ⟨F', .inr ⟨rfl, ?_, hstep.mono fun w _ _ => by omega⟩⟩
      unfold PGSIZE at hpos
      omega
  · rintro msg ⟨rfl, h1, h2⟩
    rw [hdiv] at h1 h2
    refine ⟨rfl, ?_, h2⟩
    by_contra hle'
    exact absurd (npages_le.mpr (Nat.le_of_not_lt hle')) (by omega)

theorem uvmalloc_spec (hold : oldsz ≤ TRAPFRAME) (hnew : oldsz ≤ newsz) (hx : xperm < 2 ^ 10)
    (hfree : ∀ w, npages oldsz ≤ w → w < UPAGES → leaf s.mem root w = none)
    (htf : leaf s.mem root UPAGES ≠ none) :
    Meets (uvmalloc root oldsz newsz xperm) s (fun r s' => ∃ F', AsStep root F F' s s' ∧
      (r = newsz ∧ newsz ≤ TRAPFRAME ∧
          Mapped s.mem s'.mem root (PTE_R ||| PTE_U ||| xperm) (npages oldsz) (npages newsz) ∨
        r = 0 ∧ ∀ w < 512 ^ 3, leaf s'.mem root w = leaf s.mem root w))
      (fun msg => msg = "mappages: remap" ∧ TRAPFRAME < newsz ∧
        UPAGES - npages oldsz < Multiset.card F) := by
  refine (uvmalloc_range hc hsep hok hold hnew hx hfree (.inl htf)).imp ?_
  rintro r s' ⟨F', ⟨rfl, hlt, hstep, hz⟩ | ⟨rfl, -, hstep⟩⟩
  · refine ⟨F', hstep.toAsStep, .inl ⟨rfl, hlt, fun w hw => ?_⟩⟩
    split
    · rename_i hin
      obtain ⟨pg, hmod, hword, hl, -⟩ := hz w hin.1 hin.2
      exact ⟨pg, hmod, hword, hl⟩
    · exact hstep.leaf_eq w hw ‹_›
  · exact ⟨F', hstep.toAsStep, .inr ⟨rfl, hstep.leaf_all⟩⟩

end

end Alloc

end Xv6
