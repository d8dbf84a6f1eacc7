import Xv6.AddrSpace

/-!
# Copying to, from and between user memories

`copyout` and `copyin` keep the address space of the process, `copyinstr` changes
nothing at all, and `uvmcopy` gives a fresh address space the mappings of another
one, or leaves it as it was.
-/

namespace Xv6

open Multiset

open Prog

variable {s s' : KMem} {F F' : Multiset ℕ} {root p tf sz va v e k : ℕ} {E : String → Prop}

attribute [local irreducible] leaf

/-! ## Writing to user pages -/

theorem Touches.putBytes {src : List UInt8} (hp : p % 4096 = 0) (hk : k + src.length ≤ 4096) :
    Touches {p} s { s with mem := Xv6.putBytes s.mem (p + k) src } :=
  .within hp fun a ha => if_neg (by omega)

section

variable (hc : Chain s F) (hsep : Sep s.kend (F + asPages s.mem root))
include hc hsep

/-- Writing to a user page changes no mapping. -/
theorem AsStep.writeFrame (hok : PtOk s.mem root) (hp : p ∈ frames s.mem root)
    (ht : Touches {p} s s') (hfl : s'.freelist = s.freelist) :
    AsStep root F F s s' ∧ ∀ v < 512 ^ 3, leaf s'.mem root v = leaf s.mem root v := by
  have hp' : p ∈ asPages s.mem root := mem_add.mpr (.inr hp)
  obtain ⟨-, htab, hleaf, hok'⟩ := ht.tree root fun q hq =>
    ⟨(hsep.tables.right.page q hq).1, by
      rw [mem_singleton]
      rintro rfl
      exact hsep.right.not_mem hq hp⟩
  refine ⟨⟨hc.frame ht (fun q hq => ⟨(hsep.left.page q hq).1, ?_⟩) hfl, ?_, ht.mono ?_, hok' hok⟩,
    hleaf⟩
  · rw [mem_singleton]
    rintro rfl
    exact hsep.not_mem hq hp'
  · rw [asPages, asPages, htab, frames_congr hleaf]
  · intro q hq
    rw [mem_singleton.mp hq]
    exact mem_add.mpr (.inr hp')

/-! ## `copyout` and `copyin` -/

/-- Finding the page of a user address, faulting it in if need be. -/
theorem userPage_spec (h : AddrSpace s root tf sz) :
    Meets (userPage ⟨sz, root⟩ root va) s (fun r s' => ∃ F', AsStep root F F' s s' ∧
      AddrSpace s' root tf sz ∧ (r = 0 ∨ r ≠ 0 ∧ va < MAXVA ∧ ∃ e, va / 4096 < UPAGES ∧
        leaf s'.mem root (va / 4096) = some e ∧ PTE2PA e = r)) Never := by
  have hU := UPAGES_eq
  have hM : MAXVA = 2 ^ 38 := rfl
  have hT := TRAPFRAME_eq
  have hsz := h.size
  rw [userPage, meets_bind, meets_walkaddr hsep.tables.right.page]
  split
  · refine (vmfault_spec hc hsep h).imp ?_
    rintro r s' ⟨F', hstep, h', ⟨rfl, -⟩ | ⟨hr, hva, -, hmod, hlt, -, hleaf⟩⟩
    · exact ⟨F', hstep, h', .inl rfl⟩
    · have hl := hleaf (va / 4096) (by omega)
      rw [if_pos rfl] at hl
      exact ⟨F', hstep, h', .inr ⟨hr, by omega, _, by omega, hl,
        PTE2PA_PA2PTE hmod hlt (by decide)⟩⟩
  · rename_i hne
    refine ⟨F, .refl hc h.ok, h, .inr ⟨hne, ?_⟩⟩
    unfold userAddr at hne ⊢
    split at hne
    · exact absurd rfl hne
    rename_i hva
    rw [if_neg hva]
    rcases hl : leaf s.mem root (va / 4096) with _ | e
    · rw [hl] at hne
      exact absurd rfl hne
    · rw [hl] at hne
      simp only [ite_eq_left_iff, Classical.not_imp] at hne ⊢
      rw [if_neg hne.1]
      exact ⟨by omega, e, (h.user_lt (by omega) hl hne.1).1, rfl, rfl⟩

/-- **`copyout`** keeps the address space. -/
theorem copyoutLoop_spec {fuel dstva : ℕ} {src : List UInt8} (h : AddrSpace s root tf sz) :
    Meets (copyoutLoop ⟨sz, root⟩ root fuel dstva src) s (fun _ s' => ∃ F',
      AsStep root F F' s s' ∧ AddrSpace s' root tf sz) Never := by
  induction fuel generalizing s F dstva src with
  | zero =>
    exact ⟨F, .refl hc h.ok, h⟩
  | succ fuel ih =>
    simp only [copyoutLoop]
    split
    · rw [meets_pure]
      exact ⟨F, .refl hc h.ok, h⟩
    split
    · rw [meets_pure]
      exact ⟨F, .refl hc h.ok, h⟩
    rw [meets_bind]
    refine (userPage_spec hc hsep h).imp ?_
    rintro pa0 s₁ ⟨F₁, hstep, h₁, rfl | ⟨hr, hva, e, hv, hl, rfl⟩⟩
    · rw [if_pos rfl, meets_pure]
      exact ⟨F₁, hstep, h₁⟩
    rw [if_neg hr, meets_bind, meets_walk hva, meets_bind]
    simp only [VM.load, meets_bind, meets_get, meets_pure]
    split
    · rw [meets_pure]
      exact ⟨F₁, hstep, h₁⟩
    have hsep₁ := hstep.sep hsep
    have hpage := PTE2PA_page hsep₁ hv hl
    -- the bytes copied are within the page
    have hk : dstva - PGROUNDDOWN dstva +
        (src.take (min (PGSIZE - (dstva - PGROUNDDOWN dstva)) src.length)).length ≤ 4096 := by
      rw [List.length_take]
      unfold PGROUNDDOWN PGSIZE
      omega
    obtain ⟨hstep', hleaf⟩ := AsStep.writeFrame hstep.chain hsep₁ h₁.ok (mem_frames hv hl)
      (.putBytes hpage.1 hk) rfl
    refine (ih hstep'.chain (hstep'.sep hsep₁) (h₁.same hstep' hleaf)).imp ?_
    rintro _ s' ⟨F', hstep'', h'⟩
    exact ⟨F', hstep.trans (hstep'.trans hstep''), h'⟩

theorem copyout_spec {dstva : ℕ} {src : List UInt8} (h : AddrSpace s root tf sz) :
    Meets (copyout ⟨sz, root⟩ root dstva src) s (fun _ s' => ∃ F',
      AsStep root F F' s s' ∧ AddrSpace s' root tf sz) Never :=
  copyoutLoop_spec hc hsep h

/-- **`copyin`** keeps the address space. -/
theorem copyinLoop_spec {fuel srcva len : ℕ} {dst : List UInt8} (h : AddrSpace s root tf sz) :
    Meets (copyinLoop ⟨sz, root⟩ root fuel srcva len dst) s (fun _ s' => ∃ F',
      AsStep root F F' s s' ∧ AddrSpace s' root tf sz) Never := by
  induction fuel generalizing s F srcva len dst with
  | zero =>
    exact ⟨F, .refl hc h.ok, h⟩
  | succ fuel ih =>
    simp only [copyinLoop]
    split
    · rw [meets_pure]
      exact ⟨F, .refl hc h.ok, h⟩
    rw [meets_bind]
    refine (userPage_spec hc hsep h).imp ?_
    rintro pa0 s₁ ⟨F₁, hstep, h₁, -⟩
    split
    · rw [meets_pure]
      exact ⟨F₁, hstep, h₁⟩
    refine (ih hstep.chain (hstep.sep hsep) h₁).imp ?_
    rintro _ s' ⟨F', hstep', h'⟩
    exact ⟨F', hstep.trans hstep', h'⟩

theorem copyin_spec {srcva len : ℕ} (h : AddrSpace s root tf sz) :
    Meets (copyin ⟨sz, root⟩ root srcva len) s (fun _ s' => ∃ F',
      AsStep root F F' s s' ∧ AddrSpace s' root tf sz) Never :=
  copyinLoop_spec hc hsep h

end

/-- **`copyinstr`** changes nothing. -/
theorem copyinstrLoop_spec {fuel srcva max : ℕ} {dst : List UInt8}
    (hpage : ∀ p ∈ tables s.mem root, IsPage s.kend p) (hdst : dst.length + max ≤ k) :
    Meets (copyinstrLoop root fuel srcva max dst) s
      (fun r s' => s' = s ∧ r.2.length ≤ k) Never := by
  induction fuel generalizing srcva max dst with
  | zero =>
    exact ⟨rfl, by simp only; omega⟩
  | succ fuel ih =>
    rw [copyinstrLoop]
    split
    · rw [meets_pure]
      exact ⟨rfl, by simp only; omega⟩
    rw [meets_bind, meets_walkaddr hpage]
    split
    · rw [meets_pure]
      exact ⟨rfl, by simp only; omega⟩
    simp only [meets_bind, meets_get]
    have hlen : ∀ n a, (copyinstrPage s.mem n a).1.length ≤ n := by
      intro n
      induction n with
      | zero => exact fun a => le_rfl
      | succ n ihn =>
        intro a
        rw [copyinstrPage]
        split
        · simp
        · simpa using ihn (a + 1)
    have := hlen (min (PGSIZE - (srcva - PGROUNDDOWN srcva)) max)
      (userAddr s.mem root (PGROUNDDOWN srcva) + (srcva - PGROUNDDOWN srcva))
    split
    · rw [meets_pure]
      refine ⟨rfl, ?_⟩
      rw [List.length_append]
      omega
    · refine ih ?_
      rw [List.length_append]
      omega

theorem copyinstr_spec {srcva max : ℕ} (hpage : ∀ p ∈ tables s.mem root, IsPage s.kend p) :
    Meets (copyinstr root srcva max) s (fun r s' => s' = s ∧ r.2.length ≤ max) Never :=
  copyinstrLoop_spec hpage (by simp)

/-! ## `uvmcopy` -/

theorem Touches.memmove (hp : p % 4096 = 0) (src : ℕ) (hn : n ≤ 4096) :
    Touches {p} s { s with mem := Xv6.memmove s.mem p s.mem src n } :=
  .within hp fun a ha => if_neg (by omega)

section Copy

variable {old new n i : ℕ}

/-- The pages from `lo` to `hi` of `new` are mapped as those of `old`, the others as before. -/
def Copied (m m' : Bytes) (old new lo hi : ℕ) : Prop :=
  ∀ w < 512 ^ 3, if lo ≤ w ∧ w < hi then
    (leaf m' new w).map PTE_FLAGS = (leaf m old w).map PTE_FLAGS
  else leaf m' new w = leaf m new w

/-- After pages have been copied. -/
theorem Readable.copied {m m' : Bytes} {old new lo hi : ℕ} (h : Readable m new)
    (hold : Readable m old) (hcopied : Copied m m' old new lo hi) : Readable m' new := by
  have hU := UPAGES_eq
  intro v hv e he
  have hv' := hcopied v (by omega)
  split at hv'
  · rw [he, Option.map_some] at hv'
    obtain ⟨e₀, he₀, hflags⟩ := Option.map_eq_some_iff.mp hv'.symm
    exact PTE_FLAGS_read hflags.symm (hold v hv e₀ he₀)
  · exact h v hv e (hv' ▸ he)

/-- `old` is a page table beside the pages `W`. -/
def Beside (s : KMem) (old : ℕ) (W : Multiset ℕ) : Prop :=
  ∀ p ∈ tables s.mem old, IsPage s.kend p ∧ p ∉ W

theorem Beside.step (h : Beside s old (F + asPages s.mem new)) (hstep : AsStep new F F' s s') :
    Beside s' old (F' + asPages s'.mem new) ∧
      ∀ v < 512 ^ 3, leaf s'.mem old v = leaf s.mem old v := by
  obtain ⟨-, htab, hleaf, -⟩ := hstep.touches.tree old fun p hp => ⟨(h p hp).1.1, (h p hp).2⟩
  refine ⟨fun p hp => ?_, hleaf⟩
  rw [hstep.sum, hstep.touches.kend]
  exact h p (htab ▸ hp)

theorem flags_copy (h : e % 2 = 1) :
    PTE_FLAGS (PA2PTE p ||| (PTE_FLAGS e ||| PTE_V)) = PTE_FLAGS e := by
  have hlt : PTE_FLAGS e < 2 ^ 10 := Nat.mod_lt _ (by decide)
  have hmod : PTE_FLAGS e % 2 = 1 := by
    unfold PTE_FLAGS
    omega
  rw [PTE_FLAGS_PA2PTE (Nat.or_lt_two_pow hlt (by decide))]
  have h2 : PTE_FLAGS e = 2 ^ 1 * (PTE_FLAGS e / 2) + 1 := by omega
  rw [h2, Nat.two_pow_add_eq_or_of_lt (by decide), Nat.or_assoc]
  rfl

/-- The pages from `lo` to `hi` of `new` are mapped as those of `old`, and have their contents;
that is, those of the pages of `old` that are beside `W`. -/
def CopiedPages (W : Multiset ℕ) (m m' : Bytes) (old new lo hi : ℕ) : Prop :=
  ∀ w, lo ≤ w → w < hi → (leaf m' new w).map PTE_FLAGS = (leaf m old w).map PTE_FLAGS ∧
    ∀ e e', leaf m old w = some e → leaf m' new w = some e' → PTE2PA e ∉ W →
      SamePage m m' (PTE2PA e) (PTE2PA e')

theorem CopiedPages.copied {s s' : KMem} {F F' W : Multiset ℕ} {old new lo hi : ℕ}
    (h : CopiedPages W s.mem s'.mem old new lo hi) (hstep : RangeStep new lo hi F F' s s') :
    Copied s.mem s'.mem old new lo hi := by
  intro w hw
  split
  · rename_i hin
    exact (h w hin.1 hin.2).1
  · exact hstep.leaf_eq w hw ‹_›

/-- The ways `uvmcopyLoop` ends. -/
def CopyLoopEnds (old new n i : ℕ) (F : Multiset ℕ) (s : KMem) (r : ℤ) (s' : KMem) : Prop :=
  ∃ F', (r = 0 ∧ RangeStep new (i / 4096) (i / 4096 + n) F F' s s' ∧
      CopiedPages (F + asPages s.mem new) s.mem s'.mem old new (i / 4096) (i / 4096 + n)) ∨
    (r = -1 ∧ RangeStep new 0 (i / 4096) F F' s s' ∧
      ∀ w < i / 4096, leaf s'.mem new w = none)

/-- One page is done, mapped as in `old`, and the loop goes on. -/
theorem CopyLoopEnds.cons {r : ℤ} (hn : i / 4096 + (n + 1) ≤ UPAGES)
    (hold : Beside s old (F + asPages s.mem new))
    (hfree : leaf s.mem new (i / 4096) = none)
    (hstep : RangeStep new (i / 4096) (i / 4096 + 1) F F' s s')
    (hcopied : CopiedPages (F + asPages s.mem new) s.mem s'.mem old new (i / 4096) (i / 4096 + 1))
    (h : CopyLoopEnds old new n (i + PGSIZE) F' s' r s'') :
    CopyLoopEnds old new (n + 1) i F s r s'' := by
  have hU := UPAGES_eq
  have hdiv : (i + PGSIZE) / 4096 = i / 4096 + 1 := by
    unfold PGSIZE
    omega
  have hleafold := (hold.step hstep.toAsStep).2
  rcases h with ⟨F'', ⟨rfl, hstep', hcopied'⟩ | ⟨rfl, hstep', hnone⟩⟩
  · rw [hdiv] at hstep' hcopied'
    refine ⟨F'', .inl ⟨rfl, (hstep.mono fun w _ _ => by omega).trans
      (hstep'.mono fun w _ _ => by omega), fun w hlo hhi => ?_⟩⟩
    by_cases hwi : w = i / 4096
    · -- the page copied first is left alone by the rest of the loop
      have hkeep := hstep'.leaf_eq w (by omega) (by omega)
      obtain ⟨hflags, hsame⟩ := hcopied w hlo (by omega)
      refine ⟨hkeep ▸ hflags, fun e e' hl hl' hW => ?_⟩
      rw [hkeep] at hl'
      exact (hsame e e' hl hl' hW).trans (hstep'.content w (by omega) (by omega) e' hl')
    · obtain ⟨hflags, hsame⟩ := hcopied' w (by omega) (by omega)
      rw [hleafold w (by omega)] at hflags hsame
      refine ⟨hflags, fun e e' hl hl' hW => ?_⟩
      exact (hstep.touches.samePage (PTE2PA_mod e) hW).trans
        (hsame e e' hl hl' (by rw [hstep.sum]; exact hW))
  · rw [hdiv] at hstep' hnone
    have hall : RangeStep new 0 (i / 4096 + 1) F F'' s s'' :=
      (hstep.mono fun w _ _ => by omega).trans hstep'
    refine ⟨F'', .inr ⟨rfl, hall.shrink fun w _ h2 h3 => ?_, fun w h1 => hnone w (by omega)⟩⟩
    obtain rfl : w = i / 4096 := by omega
    exact ⟨hfree, hnone _ h2⟩

section

variable (hc : Chain s F) (hsep : Sep s.kend (F + asPages s.mem new)) (hok : PtOk s.mem new)
  (hold : Beside s old (F + asPages s.mem new))
include hc hsep hok hold

/-- The loop copies `n` pages, or unmaps everything up to where it came. -/
theorem uvmcopyLoop_spec (hal : i % 4096 = 0) (hn : i / 4096 + n ≤ UPAGES)
    (hfree : ∀ w, i / 4096 ≤ w → w < i / 4096 + n → leaf s.mem new w = none) :
    Meets (uvmcopyLoop old new n i) s (CopyLoopEnds old new n i F s) Never := by
  have hU := UPAGES_eq
  have hM : MAXVA = 2 ^ 38 := rfl
  induction n generalizing i s F with
  | zero =>
    rw [uvmcopyLoop, meets_pure]
    exact ⟨F, .inl ⟨rfl, .refl hc hok, fun w _ _ => absurd (by omega : w < w) (Nat.lt_irrefl w)⟩⟩
  | succ n ih =>
    have hdiv : (i + PGSIZE) / 4096 = i / 4096 + 1 := by
      unfold PGSIZE
      omega
    have hnone := hfree _ le_rfl (by omega)
    have hnext : ∀ s₁ F₁, RangeStep new (i / 4096) (i / 4096 + 1) F F₁ s s₁ →
        CopiedPages (F + asPages s.mem new) s.mem s₁.mem old new (i / 4096) (i / 4096 + 1) →
        Meets (uvmcopyLoop old new n (i + PGSIZE)) s₁ (CopyLoopEnds old new (n + 1) i F s)
          Never := by
      intro s₁ F₁ hstep hcopied
      refine (ih hstep.chain (hstep.sep hsep) hstep.ok (hold.step hstep.toAsStep).1
        (by unfold PGSIZE; omega) (by omega) fun w hw hw' => ?_).imp fun r s' h =>
          h.cons hn hold hnone hstep hcopied
      rw [hstep.leaf_eq w (by omega) (by omega)]
      exact hfree w (by omega) (by omega)
    -- nothing to copy: the page stays unmapped
    have hskip : leaf s.mem old (i / 4096) = none → Meets (uvmcopyLoop old new n (i + PGSIZE)) s
        (CopyLoopEnds old new (n + 1) i F s) Never := fun hl =>
      hnext s F (.refl hc hok) fun w hlo hhi => by
        obtain rfl : w = i / 4096 := by omega
        exact ⟨by rw [hl, hnone], fun e _ h => by rw [hl] at h; cases h⟩
    -- out of memory: what has been copied is unmapped
    have hfail : ∀ s₁ F₁, RangeStep new 0 0 F F₁ s s₁ →
        Meets (do uvmunmap new 0 (i / PGSIZE) true; return -1) s₁
          (CopyLoopEnds old new (n + 1) i F s) Never := by
      intro s₁ F₁ hstep
      rw [meets_bind]
      refine (uvmunmap_range hstep.chain (hstep.sep hsep) hstep.ok (Nat.zero_mod _)
        (by unfold PGSIZE; omega)).imp ?_
      rintro _ s' ⟨hstep', hnone'⟩
      rw [show 0 / 4096 + i / PGSIZE = i / 4096 by unfold PGSIZE; omega] at hstep' hnone'
      rw [meets_pure]
      exact ⟨_, .inr ⟨rfl, (hstep.mono fun w _ _ => by omega).trans hstep',
        fun w hw => hnone' w (by omega) hw⟩⟩
    rw [uvmcopyLoop, meets_bind, meets_walk (by omega)]
    rcases slot_cases (fun p hp => (hold p hp).1) (show i / 4096 < 512 ^ 3 by omega) with
      ⟨h0, hl⟩ | ⟨h0, p, hp, hslot, ⟨hval, hl⟩ | ⟨hval, hl⟩⟩
    · rw [if_pos h0]
      exact hskip hl
    · rw [if_neg h0]
      simp only [VM.load, meets_bind, meets_get, meets_pure]
      rw [if_neg ((valid_iff _).mpr hval), meets_bind]
      set e := getLE 8 s.mem (slot s.mem old (i / 4096))
      refine (kalloc_spec hc hsep.left).imp ?_
      rintro r s₁ (⟨rfl, hc₁, ht⟩ | ⟨hr, F₁, rfl, hc₁, ht⟩)
      · rw [if_pos rfl]
        exact hfail s₁ F (.of_touches_zero hc₁ ht hok)
      rw [if_neg hr]
      have hpage := hsep.page r (by simp)
      have hlt : PTE_FLAGS e < 2 ^ 10 := Nat.mod_lt _ (by decide)
      have hlt' : PTE_FLAGS e ||| PTE_V < 2 ^ 10 := Nat.or_lt_two_pow hlt (by decide)
      have hfresh : Fresh new r F₁ s
          { s₁ with mem := memmove s₁.mem r s₁.mem (PTE2PA e) PGSIZE } :=
        .of_kalloc hsep hok hc₁ ht (.memmove hpage.1 _ le_rfl) rfl
      simp only [VM.memmove, meets_bind, meets_modify]
      refine (mappages_spec hfresh.chain hfresh.sep_tables hfresh.ok (show i < MAXVA by omega)
        hal hpage.lt_word hlt).mono ?_ ?_
      · rintro ret s₃ ⟨F₂, -, hstep, -, ⟨rfl, hleaf⟩ | ⟨rfl, hleaf, -⟩⟩
        · rw [if_neg (by simp)]
          obtain ⟨hmap, hsame⟩ := hfresh.map hlt' (by omega) hnone hstep hleaf
          have hl₃ := hleaf (i / 4096) (by omega)
          rw [if_pos rfl] at hl₃
          refine hnext s₃ F₂ hmap fun w hlo hhi => ?_
          obtain rfl : w = i / 4096 := by omega
          refine ⟨?_, fun e₁ e₂ h₁ h₂ hW => ?_⟩
          · rw [hl₃, hl]
            exact congrArg some (flags_copy hval)
          · obtain rfl := Option.some.inj (hl.symm.trans h₁)
            obtain rfl := Option.some.inj (hl₃.symm.trans h₂)
            rw [PTE2PA_PA2PTE hpage.1 hpage.lt_word hlt']
            have hbefore := ht.samePage (PTE2PA_mod e) fun hmem => hW (by
              rw [mem_singleton.mp hmem]
              simp)
            refine hbefore.trans (SamePage.trans (fun k hk => ?_) hsame)
            exact (if_pos ⟨by omega, by unfold PGSIZE; omega⟩).trans
              (by rw [Nat.add_sub_cancel_left])
        · rw [if_pos (by simp), meets_bind]
          exact (hfresh.kfree_spec hstep hleaf).imp fun _ s₄ hstep' => hfail s₄ _ hstep'
      · rintro msg ⟨-, hne⟩
        rw [hfresh.leaf_eq _ (by omega)] at hne
        exact hne hnone
    · rw [if_neg h0]
      simp only [VM.load, meets_bind, meets_get, meets_pure]
      rw [if_pos (not_not.mp (by rw [← ne_eq, valid_iff]; exact hval))]
      exact hskip hl

/-- **`uvmcopy`** gives a fresh address space copies of the pages of another one, or leaves it
as it was. -/
theorem uvmcopy_range (hsz : sz ≤ TRAPFRAME) (hfree : ∀ w < npages sz, leaf s.mem new w = none) :
    Meets (uvmcopy old new sz) s (fun r s' => ∃ F',
      (r = 0 ∧ RangeStep new 0 (npages sz) F F' s s' ∧
        CopiedPages (F + asPages s.mem new) s.mem s'.mem old new 0 (npages sz)) ∨
      (r = -1 ∧ RangeStep new 0 0 F F' s s')) Never := by
  have hle := npages_le.mpr hsz
  have h := uvmcopyLoop_spec (n := npages sz) hc hsep hok hold (Nat.zero_mod 4096) (by omega)
    fun w _ hw => hfree w (by omega)
  unfold CopyLoopEnds at h
  rw [Nat.zero_div, Nat.zero_add] at h
  exact h.imp fun r s' ⟨F', h⟩ => ⟨F', h.imp_right fun h => ⟨h.1, h.2.1⟩⟩

end

end Copy

end Xv6
