import Xv6.Freewalk

/-!
# The address space of a process

`AddrSpace s root tf sz` is the invariant of the page table of a process of size
`sz`: besides the trampoline and the trapframe only pages below `sz` are mapped,
and they are readable.
It is set up by `proc_pagetable`, kept by page faults and by copies to and from
user space, copied by `uvmcopy`, and what `proc_freepagetable` needs to free
everything.
-/

namespace Xv6

open Prog

variable {s s' s'' : KMem} {F F' F'' W : Multiset ℕ} {root tf sz sz' va v e : ℕ}
  {E : String → Prop}

attribute [local irreducible] leaf

/-- User pages are readable. -/
def Readable (m : Bytes) (root : ℕ) : Prop :=
  ∀ v < UPAGES, ∀ e, leaf m root v = some e → e &&& PTE_R ≠ 0

/-- The page table `root` maps user pages below `sz`, the trapframe `tf` and the trampoline. -/
structure AddrSpace (s : KMem) (root tf sz : ℕ) : Prop where
  ok : PtOk s.mem root
  size : sz ≤ TRAPFRAME
  below : ∀ v < UPAGES, npages sz ≤ v → leaf s.mem root v = none
  above : ∀ v < 512 ^ 3, UPAGES + 2 ≤ v → leaf s.mem root v = none
  trapframe : leaf s.mem root UPAGES = some (PA2PTE tf ||| (PTE_R ||| PTE_W ||| PTE_V))
  trampoline : leaf s.mem root (UPAGES + 1) =
    some (PA2PTE s.trampoline ||| (PTE_R ||| PTE_X ||| PTE_V))
  readable : Readable s.mem root

/-- After new pages have been mapped. -/
theorem Readable.mapped {m m' : Bytes} {xperm lo hi : ℕ} (h : Readable m root)
    (hmap : Mapped m m' root (PTE_R ||| PTE_U ||| xperm) lo hi) : Readable m' root := by
  have hU := UPAGES_eq
  intro v hv e he
  have hv' := hmap v (by omega)
  split at hv'
  · obtain ⟨pg, -, -, hl⟩ := hv'
    rw [he] at hl
    rw [Option.some.inj hl]
    exact flag_ne_zero (user_perm_read xperm)
  · exact h v hv e (hv' ▸ he)

namespace AddrSpace

/-- The address space after a step that changes mappings below the new size only. -/
theorem step (h : AddrSpace s root tf sz) (hstep : AsStep root F F' s s') (hsz : sz' ≤ TRAPFRAME)
    (hbelow : ∀ v < UPAGES, npages sz' ≤ v → leaf s'.mem root v = none)
    (habove : ∀ v < 512 ^ 3, UPAGES ≤ v → leaf s'.mem root v = leaf s.mem root v)
    (hread : Readable s'.mem root) :
    AddrSpace s' root tf sz' := by
  have hU := UPAGES_eq
  refine ⟨hstep.ok, hsz, hbelow, fun v hv hle => ?_, ?_, ?_, hread⟩
  · rw [habove v hv (by omega)]
    exact h.above v hv hle
  · rw [habove _ (by omega) le_rfl]
    exact h.trapframe
  · rw [habove _ (by omega) (by omega), hstep.touches.trampoline]
    exact h.trampoline

/-- The address space after it has grown, by pages that are not mapped. -/
theorem widen (h : AddrSpace s root tf sz) (hle : sz ≤ sz') (hsz : sz' ≤ TRAPFRAME) :
    AddrSpace s root tf sz' := by
  refine { h with size := hsz, below := fun v hv hge => h.below v hv (le_trans ?_ hge) }
  unfold npages
  omega

/-- The address space after it has grown, by pages that are mapped. -/
theorem mapped {xperm : ℕ} (h : AddrSpace s root tf sz) (hstep : AsStep root F F' s s')
    (hle : sz ≤ sz') (hsz : sz' ≤ TRAPFRAME)
    (hmap : Mapped s.mem s'.mem root (PTE_R ||| PTE_U ||| xperm) (npages sz) (npages sz')) :
    AddrSpace s' root tf sz' := by
  have hU := UPAGES_eq
  have hnp := npages_le.mpr hsz
  have hleaf : ∀ w < 512 ^ 3, npages sz' ≤ w → leaf s'.mem root w = leaf s.mem root w := by
    intro w hw hge
    have := hmap w hw
    rwa [if_neg (by omega)] at this
  refine h.step hstep hsz (fun w hw hge => ?_) (fun w hw hup => hleaf w hw (by omega))
    (h.readable.mapped hmap)
  rw [hleaf w (by omega) hge]
  refine h.below w hw (le_trans ?_ hge)
  unfold npages
  omega

/-- The address space after a step that leaves the mappings alone. -/
theorem same (h : AddrSpace s root tf sz) (hstep : AsStep root F F' s s')
    (hleaf : ∀ v < 512 ^ 3, leaf s'.mem root v = leaf s.mem root v) : AddrSpace s' root tf sz := by
  have hU := UPAGES_eq
  refine h.step hstep h.size (fun v hv hle => ?_) (fun v hv _ => hleaf v hv) fun v hv e hl => ?_
  · rw [hleaf v (by omega)]
    exact h.below v hv hle
  · rw [hleaf v (by omega)] at hl
    exact h.readable v hv e hl

/-- The address space of another process is not affected. -/
theorem frame (h : AddrSpace s root tf sz) (ht : Touches W s s')
    (hW : ∀ p ∈ tables s.mem root, p % 4096 = 0 ∧ p ∉ W) :
    AddrSpace s' root tf sz ∧ asPages s'.mem root = asPages s.mem root := by
  have hU := UPAGES_eq
  obtain ⟨-, htab, hleaf, hok⟩ := ht.tree root hW
  refine ⟨⟨hok h.ok, h.size, fun v hv hle => ?_, fun v hv hle => ?_, ?_, ?_, fun v hv e hl => ?_⟩,
    ?_⟩
  · rw [hleaf v (by omega)]
    exact h.below v hv hle
  · rw [hleaf v hv]
    exact h.above v hv hle
  · rw [hleaf _ (by omega)]
    exact h.trapframe
  · rw [hleaf _ (by omega), ht.trampoline]
    exact h.trampoline
  · rw [hleaf v (by omega)] at hl
    exact h.readable v hv e hl
  · rw [asPages, asPages, htab, frames_congr hleaf]

/-- A user mapping is one of a page below `sz`. -/
theorem user_lt (h : AddrSpace s root tf sz) (hv : v < 512 ^ 3) (hl : leaf s.mem root v = some e)
    (hu : e &&& PTE_U ≠ 0) : v < UPAGES ∧ v < npages sz := by
  have hflags : ∀ pa f, f < 2 ^ 10 → f &&& PTE_U = 0 → (PA2PTE pa ||| f) &&& PTE_U = 0 := by
    intro pa f hf h0
    rw [Nat.and_or_distrib_right, h0, Nat.or_zero]
    by_contra hne
    rw [← ne_eq, PTE_U, and_two_pow_ne_zero] at hne
    unfold PA2PTE at hne
    omega
  by_cases hlt : v < UPAGES
  · refine ⟨hlt, ?_⟩
    by_contra hle
    rw [h.below v hlt (by omega)] at hl
    cases hl
  · exfalso
    rcases Nat.lt_or_ge v (UPAGES + 2) with hv2 | hv2
    · rcases (by omega : v = UPAGES ∨ v = UPAGES + 1) with rfl | rfl
      · rw [h.trapframe] at hl
        rw [← Option.some.inj hl] at hu
        exact hu (hflags _ _ (by decide) (by decide))
      · rw [h.trampoline] at hl
        rw [← Option.some.inj hl] at hu
        exact hu (hflags _ _ (by decide) (by decide))
    · rw [h.above v hv hv2] at hl
      cases hl

end AddrSpace

/-! ## `walkaddr` and `vmfault` -/

/-- The physical address of the user page at `va`, or 0. -/
def userAddr (m : Bytes) (root va : ℕ) : ℕ :=
  if MAXVA ≤ va then 0
  else match leaf m root (va / 4096) with
    | some e => if e &&& PTE_U = 0 then 0 else PTE2PA e
    | none => 0

theorem meets_walkaddr {Q : ℕ → KMem → Prop} (hpage : ∀ p ∈ tables s.mem root, IsPage s.kend p) :
    Meets (walkaddr root va) s Q E ↔ Q (userAddr s.mem root va) s := by
  unfold walkaddr userAddr
  split
  · rw [meets_pure]
  · rename_i hva
    have hva' : va < MAXVA := by omega
    have hM : MAXVA = 2 ^ 38 := rfl
    rw [meets_bind, meets_walk hva']
    have hcases := slot_cases hpage (show va / 4096 < 512 ^ 3 by omega)
    rcases hcases with ⟨h0, hl⟩ | ⟨h0, p, hp, hslot, ⟨hval, hl⟩ | ⟨hval, hl⟩⟩
    · rw [if_pos h0, meets_pure, hl]
    · rw [if_neg h0, hl]
      simp only [VM.load, meets_bind, meets_get, meets_pure]
      rw [if_neg ((valid_iff _).mpr hval)]
      split <;> rw [meets_pure]
    · rw [if_neg h0, hl]
      simp only [VM.load, meets_bind, meets_get, meets_pure]
      rw [if_pos (not_not.mp (by rw [← ne_eq, valid_iff]; exact hval)), meets_pure]

theorem meets_ismapped {Q : Bool → KMem → Prop} (hva : va < MAXVA)
    (hpage : ∀ p ∈ tables s.mem root, IsPage s.kend p) :
    Meets (ismapped root va) s Q E ↔ Q (leaf s.mem root (va / 4096)).isSome s := by
  have hM : MAXVA = 2 ^ 38 := rfl
  rw [ismapped, meets_bind, meets_walk hva]
  have hcases := slot_cases hpage (show va / 4096 < 512 ^ 3 by omega)
  rcases hcases with ⟨h0, hl⟩ | ⟨h0, p, hp, hslot, ⟨hval, hl⟩ | ⟨hval, hl⟩⟩
  · rw [if_pos h0, meets_pure, hl, Option.isSome_none]
  · rw [if_neg h0, hl]
    simp only [VM.load, meets_bind, meets_get, meets_pure, Option.isSome_some]
    rw [decide_eq_true ((valid_iff _).mpr hval)]
  · rw [if_neg h0, hl]
    simp only [VM.load, meets_bind, meets_get, meets_pure, Option.isSome_none]
    rw [decide_eq_false (by rw [valid_iff]; exact hval)]

/-- **`vmfault`** maps a page below the size of the process, or does nothing. -/
theorem vmfault_spec (hc : Chain s F) (hsep : Sep s.kend (F + asPages s.mem root))
    (h : AddrSpace s root tf sz) :
    Meets (vmfault ⟨sz, root⟩ root va) s (fun r s' => ∃ F', AsStep root F F' s s' ∧
      AddrSpace s' root tf sz ∧
      (r = 0 ∧ (∀ v < 512 ^ 3, leaf s'.mem root v = leaf s.mem root v) ∧
          (Room s.fails F (1 + missing s.mem root (va / 4096) 2) → va < sz →
            leaf s.mem root (va / 4096) ≠ none) ∨
        r ≠ 0 ∧ va < sz ∧ leaf s.mem root (va / 4096) = none ∧ r % 4096 = 0 ∧ r < WORD ∧
          (∀ k < 4096, s'.mem (r + k) = 0) ∧ ∀ v < 512 ^ 3, leaf s'.mem root v = if v = va / 4096 then
            some (PA2PTE r ||| (PTE_W ||| PTE_U ||| PTE_R ||| PTE_V)) else leaf s.mem root v))
      Never := by
  have hU := UPAGES_eq
  have hM : MAXVA = 2 ^ 38 := rfl
  have hT := TRAPFRAME_eq
  unfold vmfault
  split
  · rename_i hva
    exact ⟨F, .refl hc h.ok, h, .inl ⟨rfl, fun _ _ => rfl,
      fun _ hlt => absurd hlt (Nat.not_lt.mpr hva)⟩⟩
  rename_i hva
  have hlt : va < sz := Nat.lt_of_not_le hva
  have hsz := h.size
  have hdown : PGROUNDDOWN va / 4096 = va / 4096 := by
    unfold PGROUNDDOWN PGSIZE
    omega
  have hdownlt : PGROUNDDOWN va < MAXVA := (PGROUNDDOWN_le va).trans_lt (by omega)
  have hv : va / 4096 < UPAGES := by omega
  have hnp : va / 4096 < npages sz := by
    unfold npages
    omega
  rw [meets_bind, meets_ismapped hdownlt hsep.tables.right.page, hdown]
  rcases Option.eq_none_or_eq_some (leaf s.mem root (va / 4096)) with hl | ⟨e, hl⟩
  · rw [if_neg (by rw [hl]; simp), meets_bind]
    refine ((kalloc_spec hc hsep.left).and (kalloc_success hc hsep.left)).mono ?_ fun _ h => h.1
    rintro r s₁ ⟨⟨rfl, hc₁, ht⟩ | ⟨hr, F₁, rfl, hc₁, ht⟩, hfails, hzero⟩
    · rw [if_pos rfl, meets_pure]
      have hstep := RangeStep.of_touches_zero hc₁ ht h.ok
      refine ⟨F, hstep.toAsStep, h.same hstep.toAsStep hstep.leaf_all,
        .inl ⟨rfl, hstep.leaf_all, fun hroom => ?_⟩⟩
      exact absurd (hroom.mono (Nat.le_add_right _ _)) (hzero rfl)
    rw [if_neg hr]
    have hpage := hsep.page r (by simp)
    have hperm : PTE_W ||| PTE_U ||| PTE_R < 2 ^ 10 := by decide
    have hfresh : Fresh root r F₁ s { s₁ with mem := memset s₁.mem r 0 PGSIZE } :=
      .of_kalloc hsep h.ok hc₁ ht (.memset hpage.1 0) rfl
    simp only [VM.memset, meets_bind, meets_modify]
    refine (mappages_spec hfresh.chain hfresh.sep_tables hfresh.ok hdownlt (PGROUNDDOWN_mod va)
      hpage.lt_word hperm).mono ?_ ?_
    · rw [hdown]
      rintro ret s₃ ⟨F₂, -, hstep, -, ⟨rfl, hleaf⟩ | ⟨rfl, hleaf, hfew⟩⟩
      · rw [if_neg (by simp), meets_pure]
        obtain ⟨hrange, hsame⟩ := hfresh.map (by decide) hv hl hstep hleaf
        have hmap := hrange.toAsStep
        have hleaf₃ : ∀ w < 512 ^ 3, leaf s₃.mem root w = if w = va / 4096 then
            some (PA2PTE r ||| (PTE_W ||| PTE_U ||| PTE_R ||| PTE_V)) else leaf s.mem root w := by
          intro w hw
          rw [hleaf w hw]
          split
          · rfl
          · exact hfresh.leaf_eq w hw
        refine ⟨F₂, hmap, h.step hmap h.size (fun w hw hle => ?_) (fun w hw hle => ?_)
          (fun w hw e he => ?_),
          .inr ⟨hr, hlt, hl, hpage.1, hpage.lt_word, fun k hk => ?_, hleaf₃⟩⟩
        · rw [hleaf₃ w (by omega), if_neg (by omega)]
          exact h.below w hw hle
        · rw [hleaf₃ w hw, if_neg (by omega)]
        · rw [hleaf₃ w (by omega)] at he
          split at he
          · rw [← Option.some.inj he]
            exact flag_ne_zero (by decide)
          · exact h.readable w hw e he
        · rw [hsame k hk]
          exact if_pos ⟨Nat.le_add_right r k, Nat.add_lt_add_left hk r⟩
      · rw [if_pos (by simp), meets_bind]
        refine (hfresh.kfree_spec hstep hleaf).imp ?_
        rintro _ s₄ hstep'
        refine ⟨_, hstep'.toAsStep, h.same hstep'.toAsStep hstep'.leaf_all,
          .inl ⟨rfl, hstep'.leaf_all, fun hroom => absurd ?_ hfew⟩⟩
        rw [Nat.add_comm] at hroom
        rw [show _ = s.fails.tail from hfails, missing_congr le_rfl (by omega) hfresh.tblAt_eq]
        exact hroom.tail
    · rintro msg ⟨-, hne⟩
      rw [hdown, hfresh.leaf_eq _ (by omega)] at hne
      exact hne hl
  · rw [if_pos (by rw [hl]; rfl), meets_pure]
    exact ⟨F, .refl hc h.ok, h, .inl ⟨rfl, fun _ _ => rfl, fun _ _ => by rw [hl]; simp⟩⟩

end Xv6
