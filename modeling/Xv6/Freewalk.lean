import Mathlib.Algebra.BigOperators.Intervals
import Mathlib.Algebra.Order.Group.Multiset
import Xv6.Uvm

/-!
# Freeing a page table

`freewalk` frees a tree of page-table pages from the bottom up. `Frees m lv p C`
says that it does so for the subtree at `p`, which consists of the pages `C`:
the rule `Frees.node` puts subtrees together, and a page table without mappings
is three levels of it.
-/

namespace Xv6

open Prog Finset

variable {s s' : KMem} {F : Multiset ℕ} {m : Bytes} {root p n lv : ℕ} {C : ℕ → Multiset ℕ}

attribute [local irreducible] leaf

/-! ## Sums of pages -/

theorem values_eq_sum (n : ℕ) (f : ℕ → Option ℕ) :
    values n f = ∑ i ∈ range n, ((f i).toList : Multiset ℕ) := by
  induction n with
  | zero => rfl
  | succ n ih => rw [values_succ, ih, sum_range_succ]

/-- A range split into parts of equal length. -/
theorem sum_range_parts (k n : ℕ) (g : ℕ → Multiset ℕ) :
    ∑ i ∈ range (k * n), g i = ∑ i ∈ range n, ∑ j ∈ range k, g (k * i + j) := by
  induction n with
  | zero => rfl
  | succ n ih => rw [Nat.mul_succ, sum_range_add, ih, sum_range_succ]

/-! ## Subtrees -/

/-- `freewalk` frees the subtree at `p`, which has the pages `C` in memory `m`. -/
def Frees (m : Bytes) (lv p : ℕ) (C : Multiset ℕ) : Prop :=
  ∀ s F, (∀ q ∈ C, ∀ k < 512, entry s.mem q k = entry m q k) → Chain s F → Sep s.kend (F + C) →
    Meets (freewalkLevels lv p) s (fun _ s' => Chain s' (F + C) ∧ Touches (F + C) s s') Never

/-- What the loop of `freewalk` finds at entry `k`. -/
def NodeOk (m : Bytes) (lv p : ℕ) (C : ℕ → Multiset ℕ) (k : ℕ) : Prop :=
  (entry m p k % 2 ≠ 1 ∧ C k = 0) ∨
    (entry m p k % 1024 = 1 ∧ Frees m lv (PTE2PA (entry m p k)) (C k))

theorem no_perm_of_mod {e : ℕ} (h : e % 1024 = 1) :
    e &&& PTE_V ≠ 0 ∧ e &&& (PTE_R ||| PTE_W ||| PTE_X) = 0 := by
  refine ⟨(valid_iff e).mpr (by omega), ?_⟩
  have hlt : e &&& (PTE_R ||| PTE_W ||| PTE_X) < 2 ^ 10 :=
    lt_of_le_of_lt Nat.and_le_right (by decide)
  rw [← Nat.mod_eq_of_lt hlt, Nat.and_mod_two_pow, show (2 : ℕ) ^ 10 = 1024 from rfl, h]
  decide

theorem freewalkLoop_spec (hn : n ≤ 512) (hk : ∀ k, 512 - n ≤ k → k < 512 → NodeOk m lv p C k)
    (hp : ∀ k, 512 - n ≤ k → k < 512 → entry s.mem p k = entry m p k)
    (hC : ∀ q ∈ ∑ k ∈ Ico (512 - n) 512, C k, ∀ k < 512, entry s.mem q k = entry m q k)
    (hc : Chain s F) (hsep : Sep s.kend (F + p ::ₘ ∑ k ∈ Ico (512 - n) 512, C k)) :
    Meets (freewalkLoop (freewalkLevels lv) n p) s (fun _ s' =>
      Chain s' (F + p ::ₘ ∑ k ∈ Ico (512 - n) 512, C k) ∧
      Touches (F + p ::ₘ ∑ k ∈ Ico (512 - n) 512, C k) s s') Never := by
  induction n generalizing s F with
  | zero =>
    simp only [Nat.sub_zero, Ico_self, sum_empty, Multiset.cons_zero] at hsep ⊢
    rw [freewalkLoop, add_comm, Multiset.singleton_add]
    rw [add_comm, Multiset.singleton_add] at hsep
    refine (kfree_spec hc hsep).imp ?_
    rintro _ s' ⟨hc', ht⟩
    exact ⟨hc', ht.mono (by simp)⟩
  | succ n ih =>
    set k := 512 - (n + 1) with hk'
    have hk1 : k + 1 = 512 - n := by omega
    have hklt : k < 512 := by omega
    rw [sum_eq_sum_Ico_succ_bot hklt, hk1] at hC hsep ⊢
    set R := ∑ k ∈ Ico (512 - n) 512, C k
    have hload : getLE 8 s.mem (p + 8 * k) = entry m p k := hp k le_rfl hklt
    rw [freewalkLoop]
    simp only [VM.load, meets_bind, meets_get, meets_pure, ← hk', hload]
    rcases hk k le_rfl hklt with ⟨hinv, hCk⟩ | ⟨hval, hfree⟩
    · -- no child
      have hV : ¬entry m p k &&& PTE_V ≠ 0 := by rwa [valid_iff]
      rw [if_neg fun h => hV h.1, if_neg hV]
      rw [hCk, zero_add] at hsep ⊢
      rw [hCk, zero_add] at hC
      exact ih (by omega) (fun j hj => hk j (by omega)) (fun j hj => hp j (by omega)) hC hc hsep
    · rw [if_pos (no_perm_of_mod hval), meets_bind]
      -- the child's pages, and the rest
      have hperm : F + p ::ₘ (C k + R) = F + C k + p ::ₘ R := by
        rw [Multiset.add_cons, Multiset.add_cons, add_assoc]
      rw [hperm] at hsep ⊢
      have hpage := hsep.right.page p (Multiset.mem_cons_self _ _)
      have hpnot : p ∉ F + C k := fun h => hsep.not_mem h (Multiset.mem_cons_self _ _)
      have hpR : p ∉ R := (Multiset.nodup_cons.mp hsep.right.nodup).1
      refine (hfree s F (fun q hq => hC q (Multiset.mem_add.mpr (.inl hq))) hc hsep.left).imp ?_
      rintro _ s₁ ⟨hc₁, ht₁⟩
      set s₂ : KMem := { s₁ with mem := putLE 8 s₁.mem (p + 8 * k) 0 } with hs₂
      have ht₂ : Touches {p} s₁ s₂ := .store hpage.1 (by omega)
      have hc₂ : Chain s₂ (F + C k) := by
        refine hc₁.frame ht₂ (fun q hq => ⟨(hsep.left.page q hq).1, ?_⟩) rfl
        rw [Multiset.mem_singleton]
        rintro rfl
        exact hpnot hq
      have hsep₂ : Sep s₂.kend (F + C k + p ::ₘ R) := by
        rw [show s₂.kend = s.kend from ht₁.kend]
        exact hsep
      refine (ih (by omega) (fun j hj => hk j (by omega)) (fun j hj hj' => ?_)
        (fun q hq j hj => ?_) hc₂ hsep₂).imp ?_
      · rw [entry_store hpage.1 hpage.1 hklt hj' (by norm_num), if_neg (by omega),
          ht₁.entry_eq hpage.1 hpnot hj', hp j (by omega) hj']
      · have hq' := hsep.right.page q (Multiset.mem_cons_of_mem hq)
        rw [entry_store hpage.1 hq'.1 hklt hj (by norm_num), if_neg, ht₁.entry_eq hq'.1 ?_ hj,
          hC q (Multiset.mem_add.mpr (.inr hq)) j hj]
        · exact fun h => hsep.not_mem h (Multiset.mem_cons_of_mem hq)
        · rintro ⟨rfl, -⟩
          exact hpR hq
      · rintro _ s' ⟨hc', ht'⟩
        refine ⟨hc', (ht₁.mono ?_).trans ((ht₂.mono ?_).trans ht')⟩
        · exact fun q hq => Multiset.mem_add.mpr (.inl hq)
        · intro q hq
          rw [Multiset.mem_singleton.mp hq]
          exact Multiset.mem_add.mpr (.inr (Multiset.mem_cons_self _ _))

/-- **A page with subtrees below it.** -/
theorem Frees.node (hk : ∀ k < 512, NodeOk m lv p C k) :
    Frees m (lv + 1) p (p ::ₘ ∑ k ∈ range 512, C k) := by
  intro s F hC hc hsep
  rw [range_eq_Ico] at hC hsep ⊢
  exact freewalkLoop_spec le_rfl (fun k _ hk' => hk k hk')
    (fun k _ hk' => hC p (Multiset.mem_cons_self _ _) k hk')
    (fun q hq => hC q (Multiset.mem_cons_of_mem hq)) hc hsep

/-! ## The whole tree -/

section Tree

variable (hok : PtOk m root) (hnone : ∀ v < 512 ^ 3, leaf m root v = none)

include hnone in
/-- A page at the lowest level, without mappings. -/
theorem frees_bottom {i : ℕ} (hi : i < 512 ^ 2) (hp : tblAt m root 2 i = some p) :
    Frees m 1 p {p} := by
  have h : Frees m (0 + 1) p (p ::ₘ ∑ k ∈ range 512, 0) := by
    refine Frees.node fun k hk => .inl ⟨fun hval => ?_, rfl⟩
    have hv := hnone (512 * i + k) (by omega)
    rw [leaf, ent, show (512 * i + k) / 512 = i by omega, hp, Option.map_some, Option.filter_some,
      show (512 * i + k) % 512 = k by omega, if_pos (by simpa using hval)] at hv
    cases hv
  simpa using h

include hok hnone in
/-- A page at the level above. -/
theorem frees_middle {i : ℕ} (hi : i < 512) (hp : tblAt m root 1 i = some p) :
    Frees m 2 p (p ::ₘ ∑ k ∈ range 512, ((tblAt m root 2 (512 * i + k)).toList : Multiset ℕ)) := by
  refine Frees.node fun k hk => ?_
  have hent : ent m root 1 (512 * i + k) = some (entry m p k) := by
    rw [ent, show (512 * i + k) / 512 = i by omega, hp, show (512 * i + k) % 512 = k by omega,
      Option.map_some]
  have htbl : tblAt m root 2 (512 * i + k) = child (entry m p k) := by
    rw [tblAt_succ, hent, Option.bind_some]
  have hlt : 512 * i + k < 512 ^ 2 := by omega
  unfold NodeOk
  beta_reduce
  by_cases hval : entry m p k % 2 = 1
  · rw [child, if_pos hval] at htbl
    refine .inr ⟨hok 1 (by omega) _ hlt _ hent hval, ?_⟩
    rw [htbl]
    exact frees_bottom hnone hlt htbl
  · rw [child, if_neg hval] at htbl
    rw [htbl]
    exact .inl ⟨hval, rfl⟩

include hok hnone in
theorem frees_root : Frees m 3 root (tables m root) := by
  have hsum : tables m root = root ::ₘ ∑ i ∈ range 512, (((tblAt m root 1 i).toList : Multiset ℕ) +
      ∑ k ∈ range 512, ((tblAt m root 2 (512 * i + k)).toList : Multiset ℕ)) := by
    rw [tables, values_eq_sum, values_eq_sum, sum_add_distrib, pow_two, sum_range_parts]
  rw [hsum]
  refine Frees.node fun i hi => ?_
  have hent : ent m root 0 i = some (entry m root i) := by
    rw [ent, show i % 512 = i by omega]
    rfl
  have htbl : tblAt m root 1 i = child (entry m root i) := by
    rw [tblAt_succ, hent, Option.bind_some]
  unfold NodeOk
  beta_reduce
  by_cases hval : entry m root i % 2 = 1
  · rw [child, if_pos hval] at htbl
    refine .inr ⟨hok 0 (by omega) i (by simpa using hi) _ hent hval, ?_⟩
    rw [htbl, Option.toList_some, Multiset.coe_singleton, Multiset.singleton_add]
    exact frees_middle hok hnone hi htbl
  · rw [child, if_neg hval] at htbl
    refine .inl ⟨hval, ?_⟩
    rw [htbl, show ((none : Option ℕ).toList : Multiset ℕ) = 0 from rfl, zero_add]
    refine sum_eq_zero fun k hk => ?_
    rw [show tblAt m root 2 (512 * i + k) = none from tblAt_none (d := 1) (k := 1) (by
      rw [pow_one, show (512 * i + k) / 512 = i by have := mem_range.mp hk; omega, htbl])]
    rfl

end Tree

/-- **`freewalk`** frees the pages of a page table without mappings. -/
theorem freewalk_spec (hc : Chain s F) (hsep : Sep s.kend (F + tables s.mem root))
    (hok : PtOk s.mem root) (hnone : ∀ v < 512 ^ 3, leaf s.mem root v = none) :
    Meets (freewalk root) s (fun _ s' => Chain s' (F + tables s.mem root) ∧
      Touches (F + tables s.mem root) s s') Never :=
  frees_root hok hnone s F (fun _ _ _ _ => rfl) hc hsep

/-- **`uvmfree`** frees the user pages below `sz` and the page table. -/
theorem uvmfree_spec {sz : ℕ} (hc : Chain s F) (hsep : Sep s.kend (F + asPages s.mem root))
    (hok : PtOk s.mem root) (hsz : sz ≤ TRAPFRAME)
    (hnone : ∀ v < 512 ^ 3, npages sz ≤ v → leaf s.mem root v = none) :
    Meets (uvmfree root sz) s (fun _ s' => Chain s' (F + asPages s.mem root) ∧
      Touches (F + asPages s.mem root) s s') Never := by
  have hle := npages_le.mpr hsz
  have hU := UPAGES_eq
  -- once all mappings are gone, so are the user pages
  have hrest : ∀ s₁ F₁, AsStep root F F₁ s s₁ → (∀ v < 512 ^ 3, leaf s₁.mem root v = none) →
      Meets (freewalk root) s₁ (fun _ s' => Chain s' (F + asPages s.mem root) ∧
        Touches (F + asPages s.mem root) s s') Never := by
    intro s₁ F₁ hstep hleaf
    have hframes : frames s₁.mem root = 0 := frames_eq_zero fun v hv => hleaf v (by omega)
    have hsum : F₁ + tables s₁.mem root = F + asPages s.mem root := by
      rw [← hstep.sum, asPages, hframes, add_zero]
    refine (freewalk_spec hstep.chain (hstep.sep hsep).tables hstep.ok hleaf).imp ?_
    rintro _ s' ⟨hc', ht⟩
    rw [hsum] at hc' ht
    exact ⟨hc', hstep.touches.trans ht⟩
  unfold uvmfree
  split
  · rw [meets_bind, show PGROUNDUP sz / PGSIZE = npages sz by
      rw [PGROUNDUP_eq hsz]; unfold PGSIZE; omega]
    refine (uvmunmap_spec hc hsep hok (Nat.zero_mod _) (by omega)).imp ?_
    rintro _ s₁ ⟨F₁, hstep, hleaf⟩
    refine hrest s₁ F₁ hstep fun v hv => ?_
    rw [hleaf v hv]
    split
    · rfl
    · exact hnone v hv (by omega)
  · rename_i h0
    refine hrest s F (.refl hc hok) fun v hv => hnone v hv ?_
    unfold npages
    omega

end Xv6
