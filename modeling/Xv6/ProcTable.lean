import Xv6.UserCopy

/-!
# The page table of a process, from `proc_pagetable` to `proc_freepagetable`

`proc_pagetable` makes an address space of size 0, or gives back all it has
taken; `proc_freepagetable` returns every page of an address space to the free
list.
-/

namespace Xv6

open Multiset

open Prog

variable {s s' : KMem} {F F' : Multiset ℕ} {m : Bytes} {root r tf sz v : ℕ}
  {E : String → Prop}

/-! ## `proc_pagetable` -/

section Zero

variable (hz : ∀ k < 512, entry m root k = 0)

include hz

theorem tblAt_zero (d i : ℕ) : tblAt m root (d + 1) i = none := by
  induction d generalizing i with
  | zero =>
    rw [tblAt_succ, ent, tblAt, Option.map_some, hz _ (Nat.mod_lt _ (by norm_num))]
    rfl
  | succ d ih =>
    rw [tblAt_succ, ent, ih]
    rfl

theorem tables_zero : tables m root = {root} := by
  have hnone : ∀ n d, values n (tblAt m root (d + 1)) = 0 := fun n d => by
    rw [eq_zero_iff_forall_notMem]
    intro q hq
    obtain ⟨i, -, hi⟩ := mem_values.mp hq
    rw [tblAt_zero hz] at hi
    cases hi
  rw [tables, hnone 512 0, hnone _ 1]
  rfl

theorem leaf_zero (v : ℕ) : leaf m root v = none := by
  rw [leaf, ent, tblAt_zero hz]
  rfl

theorem PtOk.zero : PtOk m root := by
  rintro (_ | d) hd i hi e he hval
  · rw [ent, tblAt, Option.map_some, hz _ (Nat.mod_lt _ (by norm_num))] at he
    rw [← Option.some.inj he] at hval
    cases hval
  · rw [ent, tblAt_zero hz] at he
    cases he

end Zero

attribute [local irreducible] leaf

/-- **`uvmcreate`** makes an empty page table. -/
theorem uvmcreate_spec (hc : Chain s F) (hsep : Sep s.kend F) :
    Meets uvmcreate s (fun r s' => (r = 0 ∧ Chain s' F ∧ Touches 0 s s') ∨
      (r ≠ 0 ∧ ∃ F', F = r ::ₘ F' ∧ Chain s' F' ∧ Touches {r} s s' ∧ tables s'.mem r = {r} ∧
        PtOk s'.mem r ∧ ∀ v, leaf s'.mem r v = none)) Never := by
  rw [uvmcreate, meets_bind]
  refine (kalloc_spec hc hsep).imp ?_
  rintro r s₁ (⟨rfl, hc₁, ht⟩ | ⟨hr, F₁, rfl, hc₁, ht⟩)
  · rw [if_pos rfl, meets_pure]
    exact .inl ⟨rfl, hc₁, ht⟩
  · rw [if_neg hr]
    have hpage := fun q hq => (hsep.page q hq).1
    have hset : Touches {r} s₁ { s₁ with mem := memset s₁.mem r 0 PGSIZE } :=
      .memset (hpage r (by simp)) 0
    have hz : ∀ k < 512, entry (memset s₁.mem r 0 PGSIZE) r k = 0 := fun k => entry_memset_zero
    refine .inr ⟨hr, F₁, rfl, hc₁.frame hset (fun q hq => ⟨hpage q (by simp [hq]), ?_⟩) rfl,
      ht.trans hset, tables_zero hz, .zero hz, leaf_zero hz⟩
    rw [mem_singleton]
    rintro rfl
    exact (nodup_cons.mp hsep.nodup).1 hq

/-- **`proc_pagetable`** makes an address space of size 0, or gives back all it has taken. -/
theorem proc_pagetable_spec (hc : Chain s F) (hsep : Sep s.kend F) (htf : tf < WORD)
    (htr : s.trampoline < WORD) :
    Meets (proc_pagetable tf) s (fun r s' => ∃ F', Chain s' F' ∧ Touches F s s' ∧
      (r = 0 ∧ F' = F ∨ r ≠ 0 ∧ F' + asPages s'.mem r = F ∧ AddrSpace s' r tf 0)) Never := by
  have hU := UPAGES_eq
  rw [proc_pagetable, meets_bind]
  refine (uvmcreate_spec hc hsep).imp ?_
  rintro r s₁ (⟨rfl, hc₁, ht⟩ | ⟨hr, F₁, rfl, hc₁, ht, htab, hok, hleaf⟩)
  · rw [if_pos rfl, meets_pure]
    exact ⟨F, hc₁, ht.mono (by simp), .inl ⟨rfl, rfl⟩⟩
  rw [if_neg hr]
  have hkend := ht.kend
  have hsum : F₁ + tables s₁.mem r = r ::ₘ F₁ := by
    rw [htab, add_comm, singleton_add]
  have hsep₁ : Sep s₁.kend (F₁ + tables s₁.mem r) := by
    rw [hsum, hkend]
    exact hsep
  have ht₁ : Touches (F₁ + tables s₁.mem r) s s₁ := by
    rw [hsum]
    exact ht.mono fun q hq => by simp [mem_singleton.mp hq]
  -- without mappings everything goes back
  have hundo : ∀ s₂ F₂, PtStep r F₁ F₂ s₁ s₂ → (∀ v < 512 ^ 3, leaf s₂.mem r v = none) →
      Meets (do uvmfree r 0; return 0) s₂ (fun x s' => ∃ F', Chain s' F' ∧
        Touches (r ::ₘ F₁) s s' ∧ (x = 0 ∧ F' = r ::ₘ F₁ ∨
          x ≠ 0 ∧ F' + asPages s'.mem x = r ::ₘ F₁ ∧ AddrSpace s' x tf 0)) Never := by
    intro s₂ F₂ hstep hnone
    have hpages : asPages s₂.mem r = tables s₂.mem r := by
      rw [asPages, frames_eq_zero fun v hv => hnone v (by omega), add_zero]
    have hsep₂ : Sep s₂.kend (F₂ + asPages s₂.mem r) := by
      rw [hpages]
      exact hstep.sep hsep₁
    rw [meets_bind]
    refine (uvmfree_spec hstep.chain hsep₂ hstep.ok (Nat.zero_le _) fun v hv _ => hnone v hv).imp ?_
    rintro _ s' ⟨hc', ht'⟩
    rw [hpages, hstep.sum, hsum] at hc' ht'
    have ht₂ := hstep.touches
    rw [hsum] at ht₁ ht₂
    exact ⟨_, hc', ht₁.trans (ht₂.trans ht'), .inl ⟨rfl, rfl⟩⟩
  have hTr : TRAMPOLINE / 4096 = UPAGES + 1 := rfl
  have hTf : TRAPFRAME / 4096 = UPAGES := rfl
  simp only [meets_bind, meets_get]
  refine (mappages_spec hc₁ hsep₁ hok (show TRAMPOLINE < MAXVA by decide) (by decide)
    (ht.trampoline ▸ htr) (show PTE_R ||| PTE_X < 2 ^ 10 by decide)).mono ?_ ?_
  · rw [hTr]
    rintro ret s₂ ⟨F₂, -, hstep₂, -, ⟨rfl, hleaf₂⟩ | ⟨rfl, hleaf₂, -⟩⟩
    · rw [if_neg (by simp), meets_bind]
      refine (mappages_spec hstep₂.chain (hstep₂.sep hsep₁) hstep₂.ok
        (show TRAPFRAME < MAXVA by decide) (by decide) htf
        (show PTE_R ||| PTE_W < 2 ^ 10 by decide)).mono ?_ ?_
      · rw [hTf]
        rintro ret s₃ ⟨F₃, -, hstep₃, -, ⟨rfl, hleaf₃⟩ | ⟨rfl, hleaf₃, -⟩⟩
        · rw [if_neg (by simp), meets_pure]
          have hstep := hstep₂.trans hstep₃
          have hl : ∀ v < 512 ^ 3, v ≠ UPAGES → v ≠ UPAGES + 1 → leaf s₃.mem r v = none := by
            intro v hv h1 h2
            rw [hleaf₃ v hv, if_neg h1, hleaf₂ v hv, if_neg h2]
            exact hleaf v
          have hframes : frames s₃.mem r = 0 :=
            frames_eq_zero fun v hv => hl v (by omega) (by omega) (by omega)
          refine ⟨F₃, hstep.chain, ?_, .inr ⟨hr, ?_, hstep.ok, Nat.zero_le _, fun v hv _ => ?_,
            fun v hv hle => ?_, ?_, ?_, fun v hv e he => ?_⟩⟩
          · have := ht₁.trans hstep.touches
            rwa [hsum] at this
          · rw [asPages, hframes, add_zero, hstep.sum, hsum]
          · exact hl v (by omega) (by omega) (by omega)
          · exact hl v hv (by omega) (by omega)
          · rw [hleaf₃ _ (by omega), if_pos rfl]
          · rw [hleaf₃ _ (by omega), if_neg (by omega), hleaf₂ _ (by omega), if_pos rfl,
              hstep.touches.trampoline]
          · rw [hl v (by omega) (by omega) (by omega)] at he
            cases he
        · rw [if_pos (by simp), meets_bind]
          have hstep := hstep₂.trans hstep₃
          refine (uvmunmap_keep_spec hstep.chain (hstep.sep hsep₁) hstep.ok (by decide)
            (show TRAMPOLINE < MAXVA by decide)).imp ?_
          rw [hTr]
          rintro _ s₄ ⟨hstep₄, -, hleaf₄⟩
          refine hundo s₄ F₃ (hstep.trans hstep₄) fun v hv => ?_
          rw [hleaf₄ v hv]
          split
          · rfl
          · rename_i hne
            rw [hleaf₃ v hv, hleaf₂ v hv, if_neg hne]
            exact hleaf v
      · rintro msg ⟨-, hne⟩
        rw [hTf, hleaf₂ _ (by omega), if_neg (by omega), hleaf] at hne
        exact hne rfl
    · rw [if_pos (by simp)]
      refine hundo s₂ F₂ hstep₂ fun v hv => ?_
      rw [hleaf₂ v hv]
      exact hleaf v
  · rintro msg ⟨-, hne⟩
    exact hne (hleaf _)

/-! ## `proc_freepagetable` -/

/-- **`proc_freepagetable`** returns every page of an address space to the free list. -/
theorem proc_freepagetable_spec (hc : Chain s F) (hsep : Sep s.kend (F + asPages s.mem root))
    (h : AddrSpace s root tf sz) :
    Meets (proc_freepagetable root sz) s (fun _ s' => Chain s' (F + asPages s.mem root) ∧
      Touches (F + asPages s.mem root) s s') Never := by
  have hU := UPAGES_eq
  have hTr : TRAMPOLINE / 4096 = UPAGES + 1 := rfl
  have hTf : TRAPFRAME / 4096 = UPAGES := rfl
  rw [proc_freepagetable, meets_bind]
  refine (uvmunmap_keep_spec hc hsep.tables h.ok (by decide)
    (show TRAMPOLINE < MAXVA by decide)).imp ?_
  rintro _ s₁ ⟨hstep₁, -, hleaf₁⟩
  rw [meets_bind]
  refine (uvmunmap_keep_spec hstep₁.chain (hstep₁.sep hsep.tables) hstep₁.ok (by decide)
    (show TRAPFRAME < MAXVA by decide)).imp ?_
  rintro _ s₂ ⟨hstep₂, -, hleaf₂⟩
  have hstep := hstep₁.trans hstep₂
  -- the user pages are not concerned
  have hleaf : ∀ v < UPAGES, leaf s₂.mem root v = leaf s.mem root v := fun v hv => by
    rw [hleaf₂ v (by omega), if_neg (by omega), hleaf₁ v (by omega), if_neg (by omega)]
  have hframes : frames s₂.mem root = frames s.mem root :=
    values_congr fun v hv => by rw [hleaf v hv]
  have hpages : F + asPages s₂.mem root = F + asPages s.mem root := by
    rw [asPages, asPages, ← add_assoc, ← add_assoc, hstep.sum, hframes]
  have hsep₂ : Sep s₂.kend (F + asPages s₂.mem root) := by
    rw [hpages, hstep.touches.kend]
    exact hsep
  refine (uvmfree_spec hstep.chain hsep₂ hstep.ok h.size fun v hv hnp => ?_).imp ?_
  · rw [hleaf₂ v hv]
    split
    · rfl
    rw [hleaf₁ v hv]
    split
    · rfl
    rcases Nat.lt_or_ge v UPAGES with hlt | hge
    · exact h.below v hlt hnp
    · exact h.above v hv (by omega)
  · rintro _ s' ⟨hc', ht⟩
    rw [hpages] at hc' ht
    refine ⟨hc', (hstep.touches.mono fun q hq => ?_).trans ht⟩
    rw [asPages, ← add_assoc]
    exact mem_add.mpr (.inl hq)

end Xv6
