import Xv6.ExecSpec
import Xv6.UserAccess

/-!
# A page table is a finite map

The page tables that `uvmcreate`, `mappages`, `uvmunmap` and `uvmclear` build
(`Built`) map pages to page frames: an address has an entry of its own page only,
`mappages` adds the mappings it is asked for and no others, `uvmunmap` takes away
those of its range, and `freewalk` frees each page of an empty page table once.

What carries the argument is `PtMap`: the pages of the free list, the page-table
pages and the frames that are mapped are different pages. The user part of an
address space grows and shrinks as a whole, which is the second half.
-/

namespace Xv6

open Multiset

open Prog

variable {s s' : KMem} {F F' : Multiset ℕ} {root va v n pa perm : ℕ}

attribute [local irreducible] leaf

/-! ## The invariant -/

/-- The number of pages below `MAXVA`. -/
def VPAGES : ℕ := MAXVA / PGSIZE

theorem VPAGES_eq : VPAGES = 2 ^ 26 := rfl

/-- A page table whose pages are separate from the free list and from the frames mapped. -/
structure PtMap (root : ℕ) (F : Multiset ℕ) (s : KMem) : Prop where
  chain : Chain s F
  sep : Sep s.kend (F + tables s.mem root)
  ok : PtOk s.mem root
  above : ∀ v < 512 ^ 3, VPAGES ≤ v → leaf s.mem root v = none
  inj : ∀ v < VPAGES, ∀ w < VPAGES, ∀ e e', leaf s.mem root v = some e →
    leaf s.mem root w = some e' → PTE2PA e = PTE2PA e' → v = w
  out : ∀ v < VPAGES, ∀ e, leaf s.mem root v = some e → PTE2PA e ∉ F + tables s.mem root

/-- The frames from `pa` on are not in use. -/
def NewFrames (root pa n : ℕ) (F : Multiset ℕ) (s : KMem) : Prop :=
  ∀ i < n, pa + 4096 * i ∉ F + tables s.mem root ∧
    ∀ v < VPAGES, ∀ e, leaf s.mem root v = some e → PTE2PA e ≠ pa + 4096 * i

/-- The frames of a range are pages that `kfree` takes. -/
def FreeableFrames (root v n : ℕ) (s : KMem) : Prop :=
  ∀ w, v ≤ w → w < v + n → ∀ e, leaf s.mem root w = some e → IsPage s.kend (PTE2PA e)

/-- **The page tables that are built** by the functions of `vm.c`, while the rest of the kernel
uses other pages. -/
inductive Built (root : ℕ) : KMem → Prop
  | create {s s' : KMem} {F : Multiset ℕ} : Chain s F → Sep s.kend F →
      uvmcreate s = .ok (root, s') → root ≠ 0 → Built root s'
  | map {s s' : KMem} {F : Multiset ℕ} {va n pa perm : ℕ} {r : ℤ} : Built root s →
      va % PGSIZE = 0 → 0 < n → va / PGSIZE + n ≤ VPAGES →
      pa % PGSIZE = 0 → pa + 4096 * n ≤ WORD → perm < 2 ^ 10 →
      (∀ w, va / 4096 ≤ w → w < va / 4096 + n → leaf s.mem root w = none) →
      Chain s F → Sep s.kend F → NewFrames root pa n F s →
      mappages root va (n * PGSIZE) pa perm s = .ok (r, s') → Built root s'
  | unmap {s s' : KMem} {va n : ℕ} {do_free : Bool} : Built root s →
      va % PGSIZE = 0 → va / PGSIZE + n ≤ VPAGES →
      (do_free = true → FreeableFrames root (va / 4096) n s) →
      uvmunmap root va n do_free s = .ok ((), s') → Built root s'
  | clear {s s' : KMem} {va : ℕ} : Built root s → va < MAXVA →
      uvmclear root va s = .ok ((), s') → Built root s'
  | other {s s' : KMem} {F W : Multiset ℕ} : Built root s → Touches W s s' →
      (∀ p ∈ tables s.mem root, p ∉ W) →
      Chain s' F → Sep s'.kend (F + tables s.mem root) →
      (∀ v < VPAGES, ∀ e, leaf s.mem root v = some e → PTE2PA e ∉ F) → Built root s'

theorem PtMap.of_create (hc : Chain s F) (hsep : Sep s.kend F) (hroot : root ≠ 0)
    (hrun : uvmcreate s = .ok (root, s')) : ∃ F', PtMap root F' s' := by
  obtain ⟨h0, -⟩ | ⟨-, F', rfl, hc', ht, htab, hok, hnone⟩ :=
    (uvmcreate_spec hc hsep).of_ok hrun
  · exact absurd h0 hroot
  · refine ⟨F', hc', ?_, hok, fun v _ _ => hnone v, fun v _ w _ e e' hl => ?_, fun v _ e hl => ?_⟩
    · rw [htab, ht.kend, add_comm, singleton_add]
      exact hsep
    · rw [hnone v] at hl
      cases hl
    · rw [hnone v] at hl
      cases hl

namespace PtMap

theorem map (h : PtMap root F s) (hn : v + n ≤ VPAGES) (hpa : pa % 4096 = 0)
    (hw : pa + 4096 * n ≤ WORD) (hperm : perm < 2 ^ 10) (hnew : NewFrames root pa n F s) {r : ℤ}
    (hends : MapEnds root v n pa perm F s r s') : ∃ F', PtMap root F' s' := by
  obtain ⟨F', hle, k, hstep, hmapped, hk⟩ := hends
  have hV := VPAGES_eq
  have hperm' : perm ||| PTE_V < 2 ^ 10 := Nat.or_lt_two_pow hperm (by decide)
  -- what an entry is now: a new one, or one from before
  have hcases : ∀ w < VPAGES, ∀ e, leaf s'.mem root w = some e →
      (∃ i < k, w = v + i ∧ PTE2PA e = pa + 4096 * i) ∨
        ¬(v ≤ w ∧ w < v + k) ∧ leaf s.mem root w = some e := by
    intro w hw' e hl
    rw [hmapped w (by omega)] at hl
    by_cases hin : v ≤ w ∧ w < v + k
    · rw [if_pos hin] at hl
      refine .inl ⟨w - v, by omega, by omega, ?_⟩
      rw [← Option.some.inj hl]
      refine PTE2PA_PA2PTE (by omega) (lt_of_lt_of_le ?_ hw) hperm'
      omega
    · rw [if_neg hin] at hl
      exact .inr ⟨hin, hl⟩
  refine ⟨F', hstep.chain, hstep.sep h.sep, hstep.ok, fun w hw' hge => ?_,
    fun w hw' x hx e e' hl hl' heq => ?_, fun w hw' e hl => ?_⟩
  · rw [hmapped w hw', if_neg (by omega)]
    exact h.above w hw' hge
  · rcases hcases w hw' e hl with ⟨i, hi, rfl, he⟩ | ⟨-, hl⟩ <;>
      rcases hcases x hx e' hl' with ⟨j, hj, rfl, he'⟩ | ⟨-, hl'⟩
    · omega
    · exact absurd (heq.symm.trans he) ((hnew i (by omega)).2 x hx e' hl')
    · exact absurd (heq.trans he') ((hnew j (by omega)).2 w hw' e hl)
    · exact h.inj w hw' x hx e e' hl hl' heq
  · rw [hstep.sum]
    rcases hcases w hw' e hl with ⟨i, hi, -, he⟩ | ⟨-, hl⟩
    · rw [he]
      exact (hnew i (by omega)).1
    · exact h.out w hw' e hl

theorem mem_framesFrom {m : Bytes} {p : ℕ} (h : p ∈ framesFrom m root v n) :
    ∃ w, v ≤ w ∧ w < v + n ∧ ∃ e, leaf m root w = some e ∧ PTE2PA e = p := by
  obtain ⟨w, hw, hl⟩ := List.mem_filterMap.mp h
  obtain ⟨i, hi, rfl⟩ := List.mem_range'.mp hw
  obtain ⟨e, hl, he⟩ := Option.map_eq_some_iff.mp hl
  exact ⟨_, by omega, by omega, e, hl, he⟩

/-- What `uvmunmap` frees are pages of their own. -/
theorem sep_freed {do_free : Bool} (h : PtMap root F s) (hn : v + n ≤ VPAGES)
    (hfree : do_free = true → FreeableFrames root v n s) :
    Sep s.kend (freed do_free s.mem root v n + F + tables s.mem root) := by
  cases do_free with
  | false =>
    rw [freed, if_neg Bool.false_ne_true, zero_add]
    exact h.sep
  | true =>
    rw [freed, if_pos rfl, add_assoc]
    refine ⟨nodup_add.mpr ⟨?_, h.sep.nodup, ?_⟩, fun p hp => ?_⟩
    · refine List.pairwise_filterMap.mpr (List.Pairwise.imp_of_mem ?_ (List.nodup_range' (s := v)))
      rintro a b ha hb hne p hp p' hp' rfl
      obtain ⟨i, hi, rfl⟩ := List.mem_range'.mp ha
      obtain ⟨j, hj, rfl⟩ := List.mem_range'.mp hb
      obtain ⟨e, hl, rfl⟩ := Option.map_eq_some_iff.mp hp
      obtain ⟨e', hl', heq⟩ := Option.map_eq_some_iff.mp hp'
      exact hne (h.inj _ (by omega) _ (by omega) e e' hl hl' heq.symm)
    · refine disjoint_left.mpr fun hp hmem => ?_
      obtain ⟨w, -, hhi, e, hl, rfl⟩ := mem_framesFrom hp
      exact h.out w (by omega) e hl hmem
    · rcases mem_add.mp hp with hp | hp
      · obtain ⟨w, hlo, hhi, e, hl, rfl⟩ := mem_framesFrom hp
        exact hfree rfl w hlo hhi e hl
      · exact h.sep.page p hp

theorem unmap {do_free : Bool} (h : PtMap root F s) (hn : v + n ≤ VPAGES)
    (hfree : do_free = true → FreeableFrames root v n s)
    (hu : Unmapped do_free root v n F s s') :
    PtMap root (freed do_free s.mem root v n + F) s' := by
  have hV := VPAGES_eq
  have hsep := h.sep_freed hn hfree
  have hback : ∀ w < VPAGES, ∀ e, leaf s'.mem root w = some e →
      ¬(v ≤ w ∧ w < v + n) ∧ leaf s.mem root w = some e := by
    intro w hw e hl
    rw [hu.leaf_eq w (by omega)] at hl
    split at hl
    · cases hl
    · exact ⟨‹_›, hl⟩
  refine ⟨hu.chain, ?_, hu.ok, fun w hw hge => ?_, fun w hw x hx e e' hl hl' => ?_,
    fun w hw e hl => ?_⟩
  · rw [hu.tables_eq, hu.touches.kend]
    exact hsep
  · rw [hu.leaf_eq w hw, h.above w hw hge]
    exact ite_self none
  · exact h.inj w hw x hx e e' (hback w hw e hl).2 (hback x hx e' hl').2
  · obtain ⟨hout, hl⟩ := hback w hw e hl
    rw [hu.tables_eq, add_assoc, mem_add, not_or]
    refine ⟨fun hmem => ?_, h.out w hw e hl⟩
    cases do_free with
    | false => exact absurd hmem (by simp [freed])
    | true =>
      obtain ⟨x, hlo, hhi, e', hl', heq⟩ := mem_framesFrom hmem
      exact hout (h.inj x (by omega) w hw e' e hl' hl heq ▸ ⟨hlo, hhi⟩)

theorem clear (h : PtMap root F s) (hv : v < VPAGES) (hstep : PtStep root F F s s')
    (hleaf : ∀ w < 512 ^ 3, leaf s'.mem root w =
      if w = v then (leaf s.mem root w).map (fun e => e - (e &&& PTE_U)) else leaf s.mem root w) :
    PtMap root F s' := by
  have hV := VPAGES_eq
  -- entries keep their frames
  have hback : ∀ w < VPAGES, ∀ e, leaf s'.mem root w = some e →
      ∃ e', leaf s.mem root w = some e' ∧ PTE2PA e = PTE2PA e' := by
    intro w hw e hl
    rw [hleaf w (by omega)] at hl
    split at hl
    · obtain ⟨e', hl', rfl⟩ := Option.map_eq_some_iff.mp hl
      exact ⟨e', hl', (clear_PTE_U e').2.2⟩
    · exact ⟨e, hl, rfl⟩
  refine ⟨hstep.chain, hstep.sep h.sep, hstep.ok, fun w hw hge => ?_,
    fun w hw x hx e e' hl hl' heq => ?_, fun w hw e hl => ?_⟩
  · rw [hleaf w hw, if_neg (by omega)]
    exact h.above w hw hge
  · obtain ⟨e₁, hl₁, he₁⟩ := hback w hw e hl
    obtain ⟨e₂, hl₂, he₂⟩ := hback x hx e' hl'
    exact h.inj w hw x hx e₁ e₂ hl₁ hl₂ (he₁.symm.trans (heq.trans he₂))
  · obtain ⟨e₁, hl₁, he₁⟩ := hback w hw e hl
    rw [hstep.sum, he₁]
    exact h.out w hw e₁ hl₁

theorem other {W : Multiset ℕ} (h : PtMap root F s) (ht : Touches W s s')
    (hW : ∀ p ∈ tables s.mem root, p ∉ W) (hc : Chain s' F')
    (hsep : Sep s'.kend (F' + tables s.mem root))
    (hout : ∀ v < VPAGES, ∀ e, leaf s.mem root v = some e → PTE2PA e ∉ F') :
    PtMap root F' s' := by
  have hV := VPAGES_eq
  obtain ⟨-, htab, hleaf, hok⟩ := ht.tree root fun p hp => ⟨(h.sep.right.page p hp).1, hW p hp⟩
  refine ⟨hc, by rwa [htab], hok h.ok, fun w hw hge => ?_, fun w hw x hx e e' hl hl' => ?_,
    fun w hw e hl => ?_⟩
  · rw [hleaf w hw]
    exact h.above w hw hge
  · rw [hleaf w (by omega)] at hl
    rw [hleaf x (by omega)] at hl'
    exact h.inj w hw x hx e e' hl hl'
  · rw [hleaf w (by omega)] at hl
    rw [htab, mem_add, not_or]
    exact ⟨hout w hw e hl, fun hmem => h.out w hw e hl (mem_add.mpr (.inr hmem))⟩

end PtMap

/-- **Page tables that are built have the invariant.** -/
theorem Built.ptMap (h : Built root s) : ∃ F, PtMap root F s := by
  induction h with
  | create hc hsep hrun hroot => exact PtMap.of_create hc hsep hroot hrun
  | @map s s' F va n pa perm r _ hal hpos hn hpa hw hperm hfree hc hsep hnew hrun ih =>
    obtain ⟨F₀, h⟩ := ih
    obtain rfl := h.chain.unique hc h.sep.left.zero_notMem hsep.zero_notMem
    exact h.map hn hpa hw hperm hnew
      ((mappages_pages h.chain h.sep h.ok hal hpos hn hw hperm hfree).of_ok hrun)
  | @unmap s s' va n do_free _ hal hn hfree hrun ih =>
    obtain ⟨F, h⟩ := ih
    exact ⟨_, h.unmap hn hfree
      ((uvmunmap_unmaps h.chain (h.sep_freed hn hfree) h.ok hal hn).of_ok hrun)⟩
  | @clear s s' va _ hva hrun ih =>
    obtain ⟨F, h⟩ := ih
    obtain ⟨hstep, -, hleaf⟩ := (uvmclear_clears h.chain h.sep h.ok hva).of_ok hrun
    have hV := VPAGES_eq
    have hM : MAXVA = 2 ^ 38 := rfl
    exact ⟨F, h.clear (by omega) hstep hleaf⟩
  | other _ ht hW hc hsep hout ih =>
    obtain ⟨F, h⟩ := ih
    exact ⟨_, h.other ht hW hc hsep hout⟩

/-! ## Slots -/

/-- Two pages have different slots. -/
theorem slot_inj {m : Bytes} {w p q : ℕ} (hnd : (tables m root).Nodup)
    (hpage : ∀ p ∈ tables m root, p % 4096 = 0) (hv : v < 512 ^ 3) (hw : w < 512 ^ 3)
    (hp : tblAt m root 2 (v / 512) = some p) (hq : tblAt m root 2 (w / 512) = some q)
    (heq : p + 8 * (v % 512) = q + 8 * (w % 512)) : v = w := by
  have hp0 := hpage p (mem_tables le_rfl (div_lt_pow hv) hp)
  have hq0 := hpage q (mem_tables le_rfl (div_lt_pow hw) hq)
  obtain rfl : p = q := by omega
  have := (tblAt_inj hnd le_rfl (div_lt_pow hv) le_rfl (div_lt_pow hw) hp hq).2
  omega

/-- **`walk`**, with or without `alloc`. -/
theorem walk_slot {alloc : Bool} (hc : Chain s F) (hsep : Sep s.kend (F + tables s.mem root))
    (hok : PtOk s.mem root) (hva : va < MAXVA) :
    Meets (walk root va alloc) s (fun a s' => ∃ F', PtStep root F F' s s' ∧
      KeepsTables s.mem s'.mem root ∧ (a ≠ 0 → ∃ p, tblAt s'.mem root 2 (va / 4096 / 512) = some p ∧
        a = p + 8 * (va / 4096 % 512))) Never := by
  have hM : MAXVA = 2 ^ 38 := rfl
  cases alloc with
  | true =>
    refine (walk_spec hc hsep hok hva).imp ?_
    rintro a s' ⟨F', -, hstep, -, hkeep, ha⟩
    exact ⟨F', hstep, hkeep, fun hne => ha.elim (fun h => absurd h.1 hne) fun h => h.2⟩
  | false =>
    rw [meets_walk hva]
    refine ⟨F, .refl hc hok, fun _ _ _ _ _ h => h, fun hne => ?_⟩
    rcases slot_cases hsep.right.page (show va / 4096 < 512 ^ 3 by omega) with
      ⟨h0, -⟩ | ⟨-, p, hp, hslot, -⟩
    · exact absurd h0 hne
    · exact ⟨p, hp, hslot⟩

/-- Two walks, one after the other. -/
theorem walk_walk {va' : ℕ} {alloc alloc' : Bool} (h : PtMap root F s) (hva : va < MAXVA)
    (hva' : va' < MAXVA) :
    Meets (walk root va alloc) s (fun a s₁ => a ≠ 0 → Meets (walk root va' alloc') s₁
      (fun a' _ => a' ≠ 0 → (a = a' ↔ va / PGSIZE = va' / PGSIZE)) Never) Never := by
  have hM : MAXVA = 2 ^ 38 := rfl
  refine (walk_slot h.chain h.sep h.ok hva).imp ?_
  rintro a s₁ ⟨F₁, hstep, -, ha⟩ hne
  obtain ⟨p, hp, rfl⟩ := ha hne
  have hsep₁ := hstep.sep h.sep
  refine (walk_slot hstep.chain hsep₁ hstep.ok hva').imp ?_
  rintro a' s₂ ⟨F₂, hstep', hkeep, ha'⟩ hne'
  obtain ⟨p', hp', rfl⟩ := ha' hne'
  have hlt : va / 4096 < 512 ^ 3 := by omega
  have hlt' : va' / 4096 < 512 ^ 3 := by omega
  -- the page table still has the page that the first walk found
  have hp₂ := hkeep 2 le_rfl _ (div_lt_pow hlt) p hp
  have hsep₂ := (hstep'.sep hsep₁).right
  constructor
  · exact slot_inj hsep₂.nodup (fun q hq => (hsep₂.page q hq).1) hlt hlt' hp₂ hp'
  · intro heq
    change va / 4096 = va' / 4096 at heq
    rw [heq] at hp₂ ⊢
    rw [Option.some.inj (hp₂.symm.trans hp')]

/-! ## The finite map -/

/-- `walk` and `walkaddr` find the frame `pa` for `va`, with flags `flags`. -/
def Translates (s : KMem) (root va pa flags : ℕ) : Prop :=
  Meets (walk root va false) s (fun pte t => t = s ∧ pte ≠ 0 ∧
    PTE2PA (getLE 8 s.mem pte) = pa ∧ PTE_FLAGS (getLE 8 s.mem pte) = flags) Never ∧
  Meets (walkaddr root va) s (fun r t => t = s ∧ r = if flags &&& PTE_U = 0 then 0 else pa) Never

theorem translates_of_leaf {e : ℕ} (hpage : ∀ p ∈ tables s.mem root, IsPage s.kend p)
    (hva : va < MAXVA) (hl : leaf s.mem root (va / 4096) = some e) :
    Translates s root va (PTE2PA e) (PTE_FLAGS e) := by
  have hM : MAXVA = 2 ^ 38 := rfl
  constructor
  · rw [meets_walk hva]
    rcases slot_cases hpage (show va / 4096 < 512 ^ 3 by omega) with
      ⟨-, hl'⟩ | ⟨h0, p, -, -, ⟨-, hl'⟩ | ⟨-, hl'⟩⟩
    · exact nomatch hl'.symm.trans hl
    · obtain rfl := Option.some.inj (hl'.symm.trans hl)
      exact ⟨rfl, h0, rfl, rfl⟩
    · exact nomatch hl'.symm.trans hl
  · have hiff : PTE_FLAGS e &&& PTE_U = 0 ↔ e &&& PTE_U = 0 := by
      rw [← not_iff_not, ← ne_eq, ← ne_eq, PTE_U, and_two_pow_ne_zero, and_two_pow_ne_zero,
        PTE_FLAGS]
      omega
    rw [meets_walkaddr hpage, userAddr, if_neg (by omega), hl]
    exact ⟨rfl, by simp only [hiff]⟩

/-- **A page table is a finite map.** In every page table that has been built, two walks lead to
the same slot just for addresses of one page; `mappages` maps the pages it is given, all of them
or as many as there is memory for, and changes no other entry; `uvmunmap` clears the entries of
its range; and `freewalk` frees each page of a page table without mappings once. -/
theorem pagetable_map (h : Built root s) : ∃ F, Chain s F ∧ Sep s.kend (F + tables s.mem root) ∧
    (∀ va va' alloc alloc', va < MAXVA → va' < MAXVA →
      Meets (walk root va alloc) s (fun a s₁ => a ≠ 0 → Meets (walk root va' alloc') s₁
        (fun a' _ => a' ≠ 0 → (a = a' ↔ va / PGSIZE = va' / PGSIZE)) Never) Never) ∧
    (∀ va n pa perm, va % PGSIZE = 0 → 0 < n → va / PGSIZE + n ≤ VPAGES → pa % PGSIZE = 0 →
      pa + 4096 * n ≤ WORD → perm < 2 ^ 10 →
      (∀ w, va / PGSIZE ≤ w → w < va / PGSIZE + n → leaf s.mem root w = none) →
      Meets (mappages root va (n * PGSIZE) pa perm) s (fun r s' => ∃ k,
        (r = 0 ∧ k = n ∨ r = -1 ∧ k < n) ∧
        (∀ i < k, ∀ x, x / PGSIZE = va / PGSIZE + i →
          Translates s' root x (pa + i * PGSIZE) (perm ||| PTE_V)) ∧
        ∀ w < VPAGES, ¬(va / PGSIZE ≤ w ∧ w < va / PGSIZE + k) →
          leaf s'.mem root w = leaf s.mem root w) Never) ∧
    (∀ va n do_free, va % PGSIZE = 0 → va / PGSIZE + n ≤ VPAGES →
      (do_free = true → FreeableFrames root (va / PGSIZE) n s) →
      Meets (uvmunmap root va n do_free) s (fun _ s' => ∀ w < VPAGES, leaf s'.mem root w =
        if va / PGSIZE ≤ w ∧ w < va / PGSIZE + n then none else leaf s.mem root w) Never) ∧
    ((∀ w < VPAGES, leaf s.mem root w = none) →
      Meets (freewalk root) s (fun _ s' => Chain s' (F + tables s.mem root)) Never) := by
  obtain ⟨F, h⟩ := h.ptMap
  have hV := VPAGES_eq
  have hM : MAXVA = 2 ^ 38 := rfl
  refine ⟨F, h.chain, h.sep, fun _ _ _ _ => walk_walk h, ?_, ?_, ?_⟩
  · intro va n pa perm hal hpos hn hpa hw hperm hfree
    have hperm' : perm ||| PTE_V < 2 ^ 10 := Nat.or_lt_two_pow hperm (by decide)
    refine (mappages_pages h.chain h.sep h.ok hal hpos hn hw hperm hfree).imp ?_
    rintro r s' ⟨F', -, k, hstep, hmapped, hk⟩
    refine ⟨k, hk, fun i hi x hx => ?_, fun w hw' hout => ?_⟩
    · change x / 4096 = va / 4096 + i at hx
      change va / 4096 + n ≤ VPAGES at hn
      change pa % 4096 = 0 at hpa
      have hl := hmapped (x / 4096) (by omega)
      rw [if_pos (by omega), show x / 4096 - va / 4096 = i by omega] at hl
      have htr := translates_of_leaf (hstep.sep h.sep).right.page (by omega) hl
      rwa [PTE_FLAGS_PA2PTE hperm', PTE2PA_PA2PTE (by omega) (lt_of_lt_of_le (by omega) hw) hperm',
        Nat.mul_comm 4096 i] at htr
    · exact (hmapped w (by omega)).trans (if_neg hout)
  · intro va n do_free hal hn hfree
    exact (uvmunmap_unmaps h.chain (h.sep_freed hn hfree) h.ok hal hn).imp fun _ s' hu w hw =>
      hu.leaf_eq w (by omega)
  · intro hnone
    refine (freewalk_spec h.chain h.sep h.ok fun v hv => ?_).imp fun _ s' h => h.1
    rcases lt_or_ge v VPAGES with hlt | hge
    · exact hnone v hlt
    · exact h.above v hv hge

/-- On the small machine, two pages are mapped: the last states before, and what `mappages`
returns. -/
def smallTable : Option (ℕ × KMem × KMem × KMem) :=
  match kinit twelvePages with
  | .ok (_, s) =>
    match uvmcreate s with
    | .ok (root, s₁) =>
      match mappages root 0 (2 * PGSIZE) KERNBASE (PTE_R ||| PTE_X) s₁ with
      | .ok (r, s₂) => if root ≠ 0 ∧ r = 0 then some (root, s, s₁, s₂) else none
      | _ => none
    | _ => none
  | _ => none

theorem smallTable_isSome : smallTable.isSome = true := by decide +kernel

section

attribute [local irreducible] kinit uvmcreate mappages

theorem smallTable_eq {s₁ s₂ : KMem} (h : smallTable = some (root, s, s₁, s₂)) :
    kinit twelvePages = .ok ((), s) ∧ uvmcreate s = .ok (root, s₁) ∧ root ≠ 0 ∧
      mappages root 0 (2 * PGSIZE) KERNBASE (PTE_R ||| PTE_X) s₁ = .ok (0, s₂) := by
  unfold smallTable at h
  split at h
  · rename_i u s' hinit
    split at h
    · rename_i root' s₁' hcreate
      split at h
      · rename_i r s₂' hmap
        split_ifs at h with hok
        obtain ⟨rfl, rfl, rfl, rfl⟩ : root' = root ∧ s' = s ∧ s₁' = s₁ ∧ s₂' = s₂ := by
          simpa using h
        rw [hok.2] at hmap
        exact ⟨hinit, hcreate, hok.1, hmap⟩
      · cases h
    · cases h
  · cases h

end

/-- A page table with a page that is mapped, and one that has been. -/
theorem exists_built : ∃ s root, Built root s ∧ leaf s.mem root 0 = none ∧
    leaf s.mem root 1 = some (PA2PTE (KERNBASE + 4096) ||| (PTE_R ||| PTE_X ||| PTE_V)) := by
  obtain ⟨⟨root, s, s₁, s₂⟩, h⟩ := Option.isSome_iff_exists.mp smallTable_isSome
  obtain ⟨hinit, hcreate, hroot, hmap⟩ := smallTable_eq h
  have hlayout : UserSys.Layout twelvePages.kend twelvePages.trampoline :=
    ⟨by decide, by decide, by decide⟩
  obtain ⟨hc, hkend, -⟩ := (UserSys.kinit_spec hlayout rfl).of_ok hinit
  have hsep : Sep s.kend (UserSys.allPages twelvePages.kend) := by
    rw [hkend]
    exact UserSys.sep_allPages hlayout
  have hbuilt : Built root s₁ := .create hc hsep hcreate hroot
  obtain ⟨h0, -⟩ | ⟨-, F₁, hF₁, hc₁, ht₁, htab₁, hok₁, hnone₁⟩ :=
    (uvmcreate_spec hc hsep).of_ok hcreate
  · exact absurd h0 hroot
  have hsep₁ : Sep s₁.kend (F₁ + tables s₁.mem root) := by
    rw [htab₁, ht₁.kend, add_comm, singleton_add, ← hF₁]
    exact hsep
  -- the frames are in the kernel, below the pages that it allocates
  have hnew : NewFrames root KERNBASE 2 F₁ s₁ := by
    refine fun i hi => ⟨fun hmem => ?_, fun v _ e hl => ?_⟩
    · have hlt : KERNBASE + 4096 * 2 ≤ twelvePages.kend := by decide
      have hge := (hsep₁.page _ hmem).2.1
      rw [ht₁.kend, hkend] at hge
      omega
    · rw [hnone₁ v] at hl
      cases hl
  have hmaps : Meets (mappages root 0 (2 * PGSIZE) KERNBASE (PTE_R ||| PTE_X)) s₁ _ Never :=
    mappages_pages hc₁ hsep₁ hok₁ rfl (by decide) (by decide) (by decide) (by decide)
      fun w _ _ => hnone₁ w
  have hbuilt₂ : Built root s₂ := .map hbuilt rfl (by decide) (by decide) (by decide) (by decide)
    (by decide) (fun w _ _ => hnone₁ w) hc₁ hsep₁.left hnew hmap
  obtain ⟨F₂, -, k, -, hmapped, hk⟩ := hmaps.of_ok hmap
  obtain rfl : k = 2 := by omega
  obtain ⟨F₃, hmap₂⟩ := hbuilt₂.ptMap
  have hunmap : Meets (uvmunmap root 0 1 false) s₂ _ Never := uvmunmap_unmaps hmap₂.chain
    (hmap₂.sep_freed (v := 0) (by decide) (by simp)) hmap₂.ok rfl (by decide)
  obtain ⟨⟨⟩, s₃, hrun, hu⟩ := hunmap.exists_ok fun _ => id
  refine ⟨s₃, root, .unmap hbuilt₂ rfl (by decide) (by simp) hrun, ?_, ?_⟩
  · rw [hu.leaf_eq 0 (by decide)]
    rfl
  · rw [hu.leaf_eq 1 (by decide), if_neg (by decide), hmapped 1 (by decide), if_pos (by decide)]

/-- The pages of this page table: one is mapped again, the other is unmapped. -/
theorem pagetable_map_two : ∃ s root, Built root s ∧
    leaf s.mem root 1 = some (PA2PTE (KERNBASE + 4096) ||| (PTE_R ||| PTE_X ||| PTE_V)) ∧
    Meets (mappages root 0 (1 * PGSIZE) (KERNBASE + 8192) PTE_R) s (fun r s' => ∃ k,
      (r = 0 ∧ k = 1 ∨ r = -1 ∧ k < 1) ∧
      (∀ i < k, ∀ x, x / PGSIZE = 0 / PGSIZE + i →
        Translates s' root x (KERNBASE + 8192 + i * PGSIZE) (PTE_R ||| PTE_V)) ∧
      ∀ w < VPAGES, ¬(0 / PGSIZE ≤ w ∧ w < 0 / PGSIZE + k) →
        leaf s'.mem root w = leaf s.mem root w) Never ∧
    Meets (uvmunmap root 4096 1 false) s (fun _ s' => ∀ w < VPAGES, leaf s'.mem root w =
      if 4096 / PGSIZE ≤ w ∧ w < 4096 / PGSIZE + 1 then none else leaf s.mem root w) Never := by
  obtain ⟨s, root, hbuilt, h0, h1⟩ := exists_built
  obtain ⟨F, -, -, -, hmap, hunmap, -⟩ := pagetable_map hbuilt
  refine ⟨s, root, hbuilt, h1, hmap 0 1 _ _ rfl (by decide) (by decide) (by decide) (by decide)
    (by decide) fun w _ hw => ?_, hunmap 4096 1 false (by decide) (by decide) (by simp)⟩
  obtain rfl : w = 0 := Nat.lt_one_iff.mp hw
  exact h0

/-! ## Growing and shrinking user memory -/

section Grow

variable {oldsz newsz xperm : ℕ}

/-- `uvmalloc` has done nothing, except that page-table pages may have been added. -/
structure AsBefore (root : ℕ) (F : Multiset ℕ) (s s' : KMem) : Prop where
  leaf_eq : ∀ w < 512 ^ 3, leaf s'.mem root w = leaf s.mem root w
  content : ∀ w < UPAGES, ∀ e, leaf s.mem root w = some e →
    SamePage s.mem s'.mem (PTE2PA e) (PTE2PA e)
  pages : ∃ F', Chain s' F' ∧ F' + tables s'.mem root = F + tables s.mem root

/-- The pages from the old size to the new one have been mapped, to different pages full of
zeros, and nothing else has changed. -/
structure UserGrown (root perm lo hi : ℕ) (s s' : KMem) : Prop where
  zero : ZeroMapped s'.mem root perm lo hi
  distinct : ∀ v < UPAGES, ∀ w < UPAGES, ∀ e e', leaf s'.mem root v = some e →
    leaf s'.mem root w = some e' → PTE2PA e = PTE2PA e' → v = w
  leaf_eq : ∀ w < 512 ^ 3, ¬(lo ≤ w ∧ w < hi) → leaf s'.mem root w = leaf s.mem root w
  content : ∀ w < UPAGES, ¬(lo ≤ w ∧ w < hi) → ∀ e, leaf s.mem root w = some e →
    SamePage s.mem s'.mem (PTE2PA e) (PTE2PA e)
  pages : ∃ F', Chain s' F' ∧ Sep s'.kend (F' + asPages s'.mem root)

/-- The pages from the new size to the old one have been unmapped and freed, and nothing else
has changed. -/
structure UserShrunk (root lo hi : ℕ) (F : Multiset ℕ) (s s' : KMem) : Prop where
  chain : Chain s' (framesFrom s.mem root lo (hi - lo) + F)
  leaf_eq : ∀ w < 512 ^ 3, leaf s'.mem root w =
    if lo ≤ w ∧ w < hi then none else leaf s.mem root w
  content : ∀ w < UPAGES, ¬(lo ≤ w ∧ w < hi) → ∀ e, leaf s.mem root w = some e →
    SamePage s.mem s'.mem (PTE2PA e) (PTE2PA e)

theorem RangeStep.asBefore (h : RangeStep root 0 0 F F' s s') : AsBefore root F s s' := by
  refine ⟨h.leaf_all, fun w hw => h.content w hw (by omega), F', h.chain, ?_⟩
  have hsum := h.sum
  rw [asPages, asPages, frames_congr h.leaf_all, ← add_assoc, ← add_assoc] at hsum
  exact add_right_cancel hsum

theorem RangeStep.grown {lo hi : ℕ} (hsep : Sep s.kend (F + asPages s.mem root))
    (h : RangeStep root lo hi F F' s s') (hzero : ZeroMapped s'.mem root perm lo hi) :
    UserGrown root perm lo hi s s' :=
  ⟨hzero, fun _ hv _ hw _ _ hl hl' heq => frame_inj (h.sep hsep) hw hl' hv hl heq, h.leaf_eq,
    h.content, F', h.chain, h.sep hsep⟩

/-- **User memory grows as a whole or not at all.** -/
theorem uvmalloc_atomic (hc : Chain s F) (hsep : Sep s.kend (F + asPages s.mem root))
    (hok : PtOk s.mem root) (hx : xperm < 2 ^ 10) (hold : oldsz ≤ TRAPFRAME)
    (hnew : newsz ≤ TRAPFRAME) :
    (oldsz ≤ newsz → (∀ w, npages oldsz ≤ w → w < UPAGES → leaf s.mem root w = none) →
      Meets (uvmalloc root oldsz newsz xperm) s (fun r s' =>
        r = newsz ∧ UserGrown root (PTE_R ||| PTE_U ||| xperm) (npages oldsz) (npages newsz) s s' ∨
        r = 0 ∧ 0 < newsz ∧ AsBefore root F s s') Never) ∧
    Meets (uvmdealloc root oldsz newsz) s (fun r s' => r = min oldsz newsz ∧
      UserShrunk root (npages newsz) (npages oldsz) F s s') Never := by
  constructor
  · intro hle hfree
    refine (uvmalloc_range hc hsep hok hold hle hx hfree (.inr hnew)).mono ?_ ?_
    · rintro r s' ⟨F', ⟨rfl, -, hstep, hzero⟩ | ⟨rfl, hpos, hstep⟩⟩
      · exact .inl ⟨rfl, hstep.grown hsep hzero⟩
      · exact .inr ⟨rfl, hpos, hstep.asBefore⟩
    · rintro msg ⟨-, hlt, -⟩
      omega
  · refine (uvmdealloc_range hc hsep hok hold).imp ?_
    rintro r s' ⟨hr, hstep, hnone⟩
    exact ⟨hr, hstep.chain, hstep.cleared hnone, hstep.content⟩

/-- A process of one byte that has not touched it grows to two pages. -/
theorem uvmalloc_atomic_two : ∃ s F root tf, Ready s F root tf 1 ∧ Room s.fails F 3 ∧
    Meets (uvmalloc root 1 8192 PTE_W) s (fun r s' =>
      r = 8192 ∧ UserGrown root (PTE_R ||| PTE_U ||| PTE_W) (npages 1) (npages 8192) s s' ∨
      r = 0 ∧ 0 < 8192 ∧ AsBefore root F s s') Never ∧
    Meets (uvmdealloc root 1 8192) s (fun r s' => r = min 1 8192 ∧
      UserShrunk root (npages 8192) (npages 1) F s s') Never := by
  obtain ⟨⟨s, root, tf⟩, hs⟩ := Option.isSome_iff_exists.mp smallSpace_nil
  obtain ⟨F, hready, hroom, hnone⟩ := @ready_smallSpace _ _ _ 1 _ _ hs (by decide) (by decide)
  have hxperm : PTE_W < 2 ^ 10 := by decide
  have hold : 1 ≤ TRAPFRAME := by decide
  have hnew : 8192 ≤ TRAPFRAME := by decide
  obtain ⟨halloc, hdealloc⟩ :=
    uvmalloc_atomic hready.chain hready.sep hready.space.ok hxperm hold hnew
  exact ⟨s, F, root, tf, hready, hroom, halloc (by decide) fun w _ hw =>
    hnone w hw (Nat.zero_le w), hdealloc⟩

end Grow

end Xv6
