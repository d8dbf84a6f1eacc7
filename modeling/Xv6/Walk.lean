import Xv6.PageTable

/-!
# Looking up and creating page-table entries

`walk` without `alloc` only reads (`meets_walk`). With `alloc` it may add
page-table pages from the free list, but no mapping (`walk_spec`); `mappages`
then adds one (`mappages_spec`).

`PtStep` is what the operations on a page table have in common: page-table pages
come from the free list, and nothing outside of these pages changes.
-/

namespace Xv6

open Multiset

open Prog

variable {s s' s'' : KMem} {F F' F'' : Multiset ℕ} {m : Bytes} {root p va v d l : ℕ}
  {E : String → Prop}

/-! ## Reading the tree -/

theorem PX_eq (level va : ℕ) : PX level va = va / 4096 / 512 ^ level % 512 := by
  rw [PX, pow_add, pow_mul, Nat.div_div_eq_div_mul]
  norm_num

/-- The part of depth `d` that a part of the next depth belongs to. -/
theorem div_pow_succ (v l : ℕ) : v / 512 ^ l / 512 = v / 512 ^ (l + 1) := by
  rw [Nat.div_div_eq_div_mul, ← pow_succ]

/-- The address of the entry for virtual page `v`, or 0. -/
def slot (m : Bytes) (root v : ℕ) : ℕ :=
  ((tblAt m root 2 (v / 512)).map fun p => p + 8 * (v % 512)).getD 0

/-- Below a missing page there is none. -/
theorem tblAt_none {k i : ℕ} (h : tblAt m root d (i / 512 ^ k) = none) :
    tblAt m root (d + k) i = none := by
  induction k generalizing i with
  | zero => simpa using h
  | succ k ih =>
    rw [← Nat.add_assoc, tblAt, ih]
    · rfl
    · rwa [pow_succ', ← Nat.div_div_eq_div_mul] at h

theorem meets_walkLoop {Q : ℕ → KMem → Prop} (hd : d + l = 2)
    (hp : tblAt s.mem root d (va / 4096 / 512 ^ (l + 1)) = some p) :
    Meets (walkLoop va false l p) s Q E ↔ Q (slot s.mem root (va / 4096)) s := by
  induction l generalizing d p with
  | zero =>
    obtain rfl : d = 2 := by omega
    rw [pow_one] at hp
    have hs : slot s.mem root (va / 4096) = p + 8 * PX 0 va := by
      rw [slot, hp, PX_eq, pow_zero, Nat.div_one]
      rfl
    rw [hs, walkLoop, meets_pure]
  | succ l ih =>
    set e := getLE 8 s.mem (p + 8 * PX (l + 1) va) with he
    have hent : ent s.mem root d (va / 4096 / 512 ^ (l + 1)) = some e := by
      rw [ent, div_pow_succ, hp, he, PX_eq]
      rfl
    have hchild : tblAt s.mem root (d + 1) (va / 4096 / 512 ^ (l + 1)) = child e := by
      rw [tblAt_succ, hent, Option.bind_some]
    simp only [walkLoop, VM.load, meets_bind, meets_get, meets_pure, ← he]
    split
    · rename_i hv
      refine ih (d := d + 1) (by omega) ?_
      rw [hchild, child, if_pos ((valid_iff _).mp hv)]
    · rename_i hv
      rw [valid_iff] at hv
      rw [child, if_neg hv] at hchild
      have hnone : tblAt s.mem root (d + 1 + l) (va / 4096 / 512) = none := by
        refine tblAt_none ?_
        rwa [Nat.div_div_eq_div_mul, ← pow_succ']
      rw [show d + 1 + l = 2 by omega] at hnone
      rw [slot, hnone]
      rfl

/-- **`walk`** without `alloc` looks up an entry. -/
theorem meets_walk {Q : ℕ → KMem → Prop} (hva : va < MAXVA) :
    Meets (walk root va false) s Q E ↔ Q (slot s.mem root (va / 4096)) s := by
  rw [walk, if_neg (by omega)]
  exact meets_walkLoop (d := 0) rfl rfl

/-- An entry is looked up in a page-table page, or there is none. -/
theorem slot_cases (hpage : ∀ p ∈ tables m root, IsPage s.kend p) (hv : v < 512 ^ 3) :
    (slot m root v = 0 ∧ leaf m root v = none) ∨
    (slot m root v ≠ 0 ∧ ∃ p, tblAt m root 2 (v / 512) = some p ∧
      slot m root v = p + 8 * (v % 512) ∧
      ((getLE 8 m (slot m root v)) % 2 = 1 ∧ leaf m root v = some (getLE 8 m (slot m root v)) ∨
        (getLE 8 m (slot m root v)) % 2 ≠ 1 ∧ leaf m root v = none)) := by
  have hdiv : v / 512 < 512 ^ 2 := by omega
  rcases ht : tblAt m root 2 (v / 512) with _ | p
  · exact .inl ⟨by rw [slot, ht]; rfl, by rw [leaf, ent, ht]; rfl⟩
  · have hs : slot m root v = p + 8 * (v % 512) := by
      rw [slot, ht]
      rfl
    have hp := (hpage p (mem_tables le_rfl hdiv ht)).2.2.2
    refine .inr ⟨by omega, p, rfl, hs, ?_⟩
    rw [hs]
    rw [leaf, ent, ht, Option.map_some, entry, Option.filter_some]
    by_cases he : getLE 8 m (p + 8 * (v % 512)) % 2 = 1
    · exact .inl ⟨he, if_pos (by simpa using he)⟩
    · exact .inr ⟨he, if_neg (by simpa using he)⟩

/-- The entry of a page that is mapped. -/
theorem entry_of_leaf {e : ℕ} (hpage : ∀ p ∈ tables m root, IsPage s.kend p) (hv : v < 512 ^ 3)
    (hl : leaf m root v = some e) : getLE 8 m (slot m root v) = e := by
  rcases slot_cases hpage hv with ⟨-, hl'⟩ | ⟨-, p, -, -, ⟨-, hl'⟩ | ⟨-, hl'⟩⟩ <;>
    rw [hl'] at hl <;> cases hl
  rfl

-- Lookups are reasoned about with `slot_cases`, not by computing them.
attribute [irreducible] slot

/-! ## Page tables that grow -/

/-- A step of a page table: its pages come from the free list, and nothing else changes. -/
structure PtStep (root : ℕ) (F F' : Multiset ℕ) (s s' : KMem) : Prop where
  chain : Chain s' F'
  sum : F' + tables s'.mem root = F + tables s.mem root
  touches : Touches (F + tables s.mem root) s s'
  ok : PtOk s'.mem root

theorem PtStep.refl (hc : Chain s F) (hok : PtOk s.mem root) : PtStep root F F s s :=
  ⟨hc, rfl, .refl _ _, hok⟩

theorem PtStep.trans (h : PtStep root F F' s s') (h' : PtStep root F' F'' s' s'') :
    PtStep root F F'' s s'' :=
  ⟨h'.chain, h'.sum.trans h.sum, h.touches.trans (h.sum ▸ h'.touches), h'.ok⟩

/-- The pages stay separate. -/
theorem PtStep.sep (h : PtStep root F F' s s') (hsep : Sep s.kend (F + tables s.mem root)) :
    Sep s'.kend (F' + tables s'.mem root) := by
  rw [h.sum, h.touches.kend]
  exact hsep

/-- Entries are words of their own. -/
theorem entry_store {q k k' x : ℕ} (hq : q % 4096 = 0) (hp : p % 4096 = 0) (hk : k < 512)
    (hk' : k' < 512) (hx : x < 256 ^ 8) :
    entry (putLE 8 m (q + 8 * k) x) p k' = if p = q ∧ k' = k then x else entry m p k' := by
  split
  · rename_i h
    rw [h.1, h.2, entry, getLE_putLE _ _ hx]
  · rw [entry, getLE_putLE_of_disjoint _ _ (by omega), entry]

theorem Touches.entry_eq {W : Multiset ℕ} {k : ℕ} (h : Touches W s s') (hp : p % 4096 = 0)
    (hW : p ∉ W) (hk : k < 512) : entry s'.mem p k = entry s.mem p k :=
  h.getLE_eq hp hW (by omega)

theorem entry_memset_zero {k : ℕ} (hk : k < 512) : entry (memset m p 0 PGSIZE) p k = 0 := by
  refine getLE_eq_zero fun i hi hi' => if_pos ?_
  unfold PGSIZE
  omega

/-- The page-table pages of `m` have the same place in `m'`. -/
def KeepsTables (m m' : Bytes) (root : ℕ) : Prop :=
  ∀ d ≤ 2, ∀ i < 512 ^ d, ∀ q, tblAt m root d i = some q → tblAt m' root d i = some q

section Link

variable {s₁ : KMem} {F₁ : Multiset ℕ} {r q i₀ d₀ : ℕ}

/-- **A page from the free list**, filled with zeros, **is linked into the tree**. -/
theorem PtStep.link (hsep : Sep s.kend (r ::ₘ F₁ + tables s.mem root)) (hok : PtOk s.mem root)
    (hc : Chain s₁ F₁) (ht : Touches {r} s s₁) (hd₀ : d₀ < 2) (hi₀ : i₀ < 512 ^ (d₀ + 1))
    (hq : tblAt s.mem root d₀ (i₀ / 512) = some q)
    (hnone : tblAt s.mem root (d₀ + 1) i₀ = none) :
    let s₂ := { s₁ with
      mem := putLE 8 (memset s₁.mem r 0 PGSIZE) (q + 8 * (i₀ % 512)) (PA2PTE r ||| PTE_V) }
    PtStep root (r ::ₘ F₁) F₁ s s₂ ∧ tblAt s₂.mem root (d₀ + 1) i₀ = some r ∧
      KeepsTables s.mem s₂.mem root ∧
      ∀ v < 512 ^ 3, leaf s₂.mem root v = leaf s.mem root v := by
  intro s₂
  have hqt : q ∈ tables s.mem root := mem_tables (by omega) (div_lt_pow hi₀) hq
  have hmodlt : i₀ % 512 < 512 := Nat.mod_lt _ (by norm_num)
  have hpage : ∀ {p}, p ∈ tables s.mem root → p % 4096 = 0 := fun hp =>
    (hsep.right.page _ hp).1
  have hrpage : IsPage s.kend r := hsep.page r (by simp)
  have hrt : r ∉ tables s.mem root := hsep.not_mem (by simp)
  have hflags : PTE_V < 2 ^ 10 := by decide
  have hx : PA2PTE r ||| PTE_V < 256 ^ 8 := PA2PTE_or_lt hrpage.lt_word hflags
  -- the state before the entry is written
  set s₃ : KMem := { s₁ with mem := memset s₁.mem r 0 PGSIZE } with hs₃
  have ht₃ : Touches {r} s s₃ := ht.trans (.memset hrpage.1 0)
  have hstore : ∀ {p k}, p % 4096 = 0 → k < 512 → entry s₂.mem p k =
      if p = q ∧ k = i₀ % 512 then PA2PTE r ||| PTE_V else entry s₃.mem p k := fun hp hk =>
    entry_store (hpage hqt) hp hmodlt hk hx
  have hnew : entry s₂.mem q (i₀ % 512) = PA2PTE r ||| PTE_V := by
    rw [hstore (hpage hqt) hmodlt, if_pos ⟨rfl, rfl⟩]
  have hold : ∀ p ∈ tables s.mem root, ∀ k < 512, p ≠ q ∨ k ≠ i₀ % 512 →
      entry s₂.mem p k = entry s.mem p k := by
    intro p hp k hk hne
    rw [hstore (hpage hp) hk, if_neg (by rintro ⟨h1, h2⟩; exact hne.elim (· h1) (· h2))]
    refine ht₃.entry_eq (hpage hp) ?_ hk
    rw [mem_singleton]
    rintro rfl
    exact hrt hp
  have hrq : r ≠ q := by
    rintro rfl
    exact hrt hqt
  have hzero : ∀ k < 512, entry s₂.mem r k = 0 := by
    intro k hk
    rw [hstore hrpage.1 hk, if_neg fun h => hrq h.1]
    exact entry_memset_zero hk
  have hchild : child (entry s₂.mem q (i₀ % 512)) = some r := by
    rw [hnew, child, PTE2PA_PA2PTE hrpage.1 hrpage.lt_word hflags, PA2PTE_or hflags, if_pos]
    unfold PA2PTE PTE_V
    omega
  obtain ⟨htbl, hent⟩ := tblAt_link hsep.right.nodup hd₀ hi₀ hq hnone hold hchild hzero
  have htables := tables_link hd₀ hi₀ hnone htbl
  have hW : Touches (r ::ₘ {q}) s₁ s₂ := by
    have h1 : Touches {r} s₁ s₃ := .memset hrpage.1 0
    have h2 : Touches {q} s₃ s₂ := .store (hpage hqt) (by omega)
    exact (h1.mono (by simp)).trans (h2.mono (by simp))
  refine ⟨⟨hc.frame hW (fun p hp => ?_) rfl, ?_, ?_, ?_⟩, ?_, fun d hd i hi x hx => ?_,
    fun v hv => ?_⟩
  · refine ⟨(hsep.page p (by simp [hp])).1, ?_⟩
    rw [mem_cons, mem_singleton]
    rintro (rfl | rfl)
    · exact (nodup_cons.mp hsep.left.nodup).1 hp
    · exact hsep.not_mem (mem_cons_of_mem hp) hqt
  · rw [htables, cons_add, add_cons]
  · refine Touches.trans (ht.mono (by simp)) (hW.mono ?_)
    intro p hp
    rw [mem_cons, mem_singleton] at hp
    rcases hp with rfl | rfl
    · simp
    · exact mem_add.mpr (.inr hqt)
  · intro d hd i hi e he hval
    rw [hent d (by omega) i hi] at he
    split at he
    · rw [hnew] at he
      rw [← Option.some.inj he, PA2PTE_or hflags]
      unfold PA2PTE PTE_V
      omega
    split at he
    · rw [← Option.some.inj he] at hval
      cases hval
    · exact hok d hd i hi e he hval
  · rw [htbl _ (by omega) _ hi₀, if_pos ⟨rfl, rfl⟩]
  · rw [htbl d hd i hi, if_neg]
    · exact hx
    · rintro ⟨rfl, rfl⟩
      rw [hnone] at hx
      cases hx
  · rw [leaf, leaf, hent 2 le_rfl v hv, if_neg (by omega)]
    split
    · rename_i h
      have hd : d₀ + 1 = 2 := h.1.symm
      rw [ent, h.2, ← hd, hnone]
      rfl
    · rfl

end Link

/-! ## `walk` and `mappages` -/

/-- The page-table pages that are missing for virtual page `v` in the lowest `l` levels. -/
def missing (m : Bytes) (root v : ℕ) : ℕ → ℕ
  | 0 => 0
  | l + 1 =>
    missing m root v l + if tblAt m root (2 - l) (v / 512 ^ (l + 1)) = none then 1 else 0

theorem missing_le : missing m root v l ≤ l := by
  induction l with
  | zero => exact le_rfl
  | succ l ih =>
    rw [missing]
    split <;> omega

theorem missing_congr {m' : Bytes} (hl : l ≤ 2) (hv : v < 512 ^ 3)
    (h : ∀ d ≤ 2, ∀ i < 512 ^ d, tblAt m' root d i = tblAt m root d i) :
    missing m' root v l = missing m root v l := by
  induction l with
  | zero => rfl
  | succ l ih =>
    rw [missing, missing, ih (by omega), h _ (Nat.sub_le _ _)]
    rw [Nat.div_lt_iff_lt_mul (by positivity), ← pow_add]
    rwa [show 2 - l + (l + 1) = 3 by omega]

theorem missing_of_some (hd : d + l = 1) (hp : tblAt m root (d + 1) (v / 512 ^ (l + 1)) = some p) :
    missing m root v (l + 1) = missing m root v l := by
  rw [missing, show 2 - l = d + 1 by omega, hp]
  rfl

/-- Below a missing page all are missing. -/
theorem missing_of_none (hd : d + l = 1) (hp : tblAt m root (d + 1) (v / 512 ^ (l + 1)) = none) :
    missing m root v (l + 1) = l + 1 := by
  induction l generalizing d with
  | zero =>
    rw [missing, show 2 - 0 = d + 1 by omega, if_pos hp, missing]
  | succ l ih =>
    have hbelow : tblAt m root (d + 1 + 1) (v / 512 ^ (l + 1)) = none := by
      refine tblAt_none ?_
      rwa [pow_one, div_pow_succ]
    rw [missing, ih (by omega) hbelow, show 2 - (l + 1) = d + 1 by omega, if_pos hp]

attribute [irreducible] missing

section

variable (hc : Chain s F) (hsep : Sep s.kend (F + tables s.mem root)) (hok : PtOk s.mem root)
include hc hsep hok

theorem walkLoop_spec (hd : d + l = 2) (hv : va / 4096 < 512 ^ 3)
    (hp : tblAt s.mem root d (va / 4096 / 512 ^ (l + 1)) = some p) :
    Meets (walkLoop va true l p) s (fun a s' => ∃ F' ≤ F, PtStep root F F' s s' ∧
      (∀ v < 512 ^ 3, leaf s'.mem root v = leaf s.mem root v) ∧ KeepsTables s.mem s'.mem root ∧
      (a = 0 ∧ tblAt s.mem root 2 (va / 4096 / 512) = none ∧
          ¬Room s.fails F (missing s.mem root (va / 4096) l) ∨
        a ≠ 0 ∧ ∃ p, tblAt s'.mem root 2 (va / 4096 / 512) = some p ∧
          a = p + 8 * (va / 4096 % 512))) Never := by
  induction l generalizing d p s F with
  | zero =>
    obtain rfl : d = 2 := by omega
    rw [pow_one] at hp
    have hpos := (hsep.right.page p (mem_tables le_rfl (div_lt_pow hv) hp)).2.2.2
    exact ⟨F, le_rfl, .refl hc hok, fun _ _ => rfl, fun _ _ _ _ _ h => h,
      .inr ⟨by omega, p, hp, rfl⟩⟩
  | succ l ih =>
    -- the entry for this part of the address space
    set i := va / 4096 / 512 ^ (l + 1) with hi
    have hidiv : i / 512 = va / 4096 / 512 ^ (l + 1 + 1) := div_pow_succ _ _
    have hilt : i < 512 ^ (d + 1) := by
      rw [hi, Nat.div_lt_iff_lt_mul (by positivity), ← pow_add]
      rwa [show d + 1 + (l + 1) = 3 by omega]
    have hpx : PX (l + 1) va = i % 512 := PX_eq _ _
    set e := getLE 8 s.mem (p + 8 * PX (l + 1) va) with he
    have hent : ent s.mem root d i = some e := by
      rw [ent, hidiv, hp, he, hpx]
      rfl
    have hchild : tblAt s.mem root (d + 1) i = child e := by
      rw [tblAt_succ, hent, Option.bind_some]
    simp only [walkLoop, VM.load, meets_bind, meets_get, meets_pure, ← he]
    split
    · rename_i hval
      have hp' : tblAt s.mem root (d + 1) (va / 4096 / 512 ^ (l + 1)) = some (PTE2PA e) := by
        rw [hchild, child, if_pos ((valid_iff _).mp hval)]
      refine (ih hc hsep hok (by omega) hp').imp ?_
      rintro a s' ⟨F', hle, hstep, hleaf, hkeep, ha⟩
      rw [missing_of_some (by omega) hp']
      exact ⟨F', hle, hstep, hleaf, hkeep, ha⟩
    · rename_i hval
      rw [valid_iff] at hval
      rw [child, if_neg hval] at hchild
      have hnone : tblAt s.mem root 2 (va / 4096 / 512) = none := by
        have : tblAt s.mem root (d + 1 + l) (va / 4096 / 512) = none := by
          refine tblAt_none ?_
          rwa [Nat.div_div_eq_div_mul, ← pow_succ']
        rwa [show d + 1 + l = 2 by omega] at this
      simp only [Bool.not_true, Bool.false_eq_true, if_false, meets_bind]
      refine ((kalloc_spec hc hsep.left).and (kalloc_success hc hsep.left)).mono ?_ fun _ h => h.1
      rintro r s₁ ⟨⟨rfl, hc₁, ht⟩ | ⟨hr, F₁, rfl, hc₁, ht⟩, hfails, hzero⟩
      · rw [if_pos rfl, meets_pure, ht.mem_eq]
        refine ⟨F, le_rfl, ⟨hc₁, by rw [ht.mem_eq], ht.mono (by simp),
          by rw [ht.mem_eq]; exact hok⟩, fun _ _ => rfl, fun _ _ _ _ _ h => h,
          .inl ⟨rfl, hnone, fun hroom => hzero rfl (hroom.mono ?_)⟩⟩
        rw [missing_of_none (by omega) hchild]
        omega
      · rw [if_neg hr]
        rw [← hidiv] at hp
        rw [hpx]
        obtain ⟨hstep, htbl, hkeep, hleaf⟩ := PtStep.link hsep hok hc₁ ht (by omega) hilt hp hchild
        refine (ih hstep.chain (hstep.sep hsep) hstep.ok (by omega) htbl).imp ?_
        rintro a s' ⟨F', hle, hstep', hleaf', hkeep', ha⟩
        refine ⟨F', hle.trans (le_cons_self _ _), hstep.trans hstep',
          fun v hv => (hleaf' v hv).trans (hleaf v hv),
          fun d hd i hi q hq => hkeep' d hd i hi q (hkeep d hd i hi q hq), ?_⟩
        refine ha.imp_left fun h => ⟨h.1, hnone, fun hroom => h.2.2 ?_⟩
        rw [missing_of_none (by omega) hchild] at hroom
        rw [show _ = s.fails.tail from hfails]
        exact hroom.tail.mono missing_le

/-- **`walk`** with `alloc` adds page-table pages, but no mapping. -/
theorem walk_spec (hva : va < MAXVA) :
    Meets (walk root va true) s (fun a s' => ∃ F' ≤ F, PtStep root F F' s s' ∧
      (∀ v < 512 ^ 3, leaf s'.mem root v = leaf s.mem root v) ∧ KeepsTables s.mem s'.mem root ∧
      (a = 0 ∧ tblAt s.mem root 2 (va / 4096 / 512) = none ∧
          ¬Room s.fails F (missing s.mem root (va / 4096) 2) ∨
        a ≠ 0 ∧ ∃ p, tblAt s'.mem root 2 (va / 4096 / 512) = some p ∧
          a = p + 8 * (va / 4096 % 512))) Never := by
  rw [walk, if_neg (by omega)]
  unfold MAXVA at hva
  exact walkLoop_spec hc hsep hok rfl (by omega) rfl

/-- Writing the entry of a virtual page. -/
theorem PtStep.setLeaf {x : ℕ} (hv : v < 512 ^ 3) (hp : tblAt s.mem root 2 (v / 512) = some p)
    (hx : x < 256 ^ 8) : let s' := { s with mem := putLE 8 s.mem (p + 8 * (v % 512)) x }
    PtStep root F F s s' ∧ tables s'.mem root = tables s.mem root ∧
      ∀ w < 512 ^ 3, leaf s'.mem root w =
        if w = v then (some x).filter (fun e => e % 2 = 1) else leaf s.mem root w := by
  intro s'
  have hpt : p ∈ tables s.mem root := mem_tables le_rfl (div_lt_pow hv) hp
  have hmodlt : v % 512 < 512 := Nat.mod_lt _ (by norm_num)
  have hpage : ∀ {p}, p ∈ tables s.mem root → p % 4096 = 0 := fun hp =>
    (hsep.right.page _ hp).1
  have hstore : ∀ {q k}, q % 4096 = 0 → k < 512 → entry s'.mem q k =
      if q = p ∧ k = v % 512 then x else entry s.mem q k := fun hq hk =>
    entry_store (hpage hpt) hq hmodlt hk hx
  obtain ⟨htbl, hent⟩ := ent_write (m := s.mem) hsep.right.nodup le_rfl hv hp (by
    intro q hq k hk hne
    rw [hstore (hpage hq) hk, if_neg (by rintro ⟨h1, h2⟩; exact hne.elim (· h1) (· h2))])
  have htables : tables s'.mem root = tables s.mem root := tables_eq htbl
  have ht : Touches {p} s s' := .store (hpage hpt) (by omega)
  have hent' : ∀ d < 2, ∀ i < 512 ^ (d + 1), ent s'.mem root d i = ent s.mem root d i := by
    intro d hd i hi
    have hdiv := div_lt_pow hi
    rw [ent, ent, htbl d (by omega) _ hdiv]
    rcases htd : tblAt s.mem root d (i / 512) with _ | q
    · simp only [Option.map_none]
    have hqp : q ≠ p := by
      rintro rfl
      have := (tblAt_inj hsep.right.nodup (by omega) hdiv le_rfl (div_lt_pow hv) htd hp).1
      omega
    simp only [Option.map_some]
    rw [hstore (hpage (mem_tables (by omega) hdiv htd)) (Nat.mod_lt _ (by norm_num)),
      if_neg fun h => hqp h.1]
  refine ⟨⟨hc.frame ht (fun q hq => ⟨(hsep.page q (by simp [hq])).1, ?_⟩) rfl, by rw [htables],
    ht.mono ?_, fun d hd i hi e he => hok d hd i hi e (hent' d hd i hi ▸ he)⟩, htables,
    fun w hw => ?_⟩
  · rw [mem_singleton]
    rintro rfl
    exact hsep.not_mem hq hpt
  · intro q hq
    rw [mem_singleton.mp hq]
    exact mem_add.mpr (.inr hpt)
  · rw [leaf, hent w hw]
    by_cases hwv : w = v
    · rw [if_pos hwv, if_pos hwv, hstore (hpage hpt) hmodlt, if_pos ⟨rfl, rfl⟩]
    · rw [if_neg hwv, if_neg hwv, leaf]

end

section Map

variable {pa perm : ℕ}

/-- One round of the loop of `mappages`, with `k` the rest of it. -/
theorem mapPage_spec {k : VM ℤ} {Q : ℤ → KMem → Prop} (hc : Chain s F)
    (hsep : Sep s.kend (F + tables s.mem root)) (hok : PtOk s.mem root) (hva : va < MAXVA)
    (hpa : pa < WORD) (hperm : perm < 2 ^ 10)
    (hfail : ∀ s' F', F' ≤ F → PtStep root F F' s s' → leaf s.mem root (va / 4096) = none →
      (∀ v < 512 ^ 3, leaf s'.mem root v = leaf s.mem root v) →
      ¬Room s.fails F (missing s.mem root (va / 4096) 2) → Q (-1) s')
    (hremap : leaf s.mem root (va / 4096) ≠ none → E "mappages: remap")
    (hk : ∀ s' F', F' ≤ F → PtStep root F F' s s' → leaf s.mem root (va / 4096) = none →
      (∀ v < 512 ^ 3, leaf s'.mem root v = if v = va / 4096 then
        some (PA2PTE pa ||| (perm ||| PTE_V)) else leaf s.mem root v) → Meets k s' Q E) :
    Meets (do
      let pte ← walk root va true
      if pte = 0 then
        return -1
      else
        let e ← VM.load pte
        if e &&& PTE_V ≠ 0 then
          Prog.panic "mappages: remap"
        else
          VM.store pte (PA2PTE pa ||| perm ||| PTE_V)
          k) s Q E := by
  have hv : va / 4096 < 512 ^ 3 := by
    unfold MAXVA at hva
    omega
  have hperm' : perm ||| PTE_V < 2 ^ 10 := Nat.or_lt_two_pow hperm (by decide)
  have hx : PA2PTE pa ||| (perm ||| PTE_V) < 256 ^ 8 := PA2PTE_or_lt hpa hperm'
  have hxv : (PA2PTE pa ||| (perm ||| PTE_V)) % 2 = 1 := by
    rw [← Nat.or_assoc, ← valid_iff, Nat.and_or_distrib_right]
    exact fun h => absurd (Nat.or_eq_zero_iff.mp h).2 (by decide)
  rw [meets_bind]
  refine (walk_spec hc hsep hok hva).never.imp ?_
  rintro a s₁ ⟨F₁, hle, hstep, hleaf, -, ⟨rfl, hnone, hfew⟩ | ⟨ha, p, hp, rfl⟩⟩
  · rw [if_pos rfl, meets_pure]
    refine hfail s₁ F₁ hle hstep ?_ hleaf hfew
    rw [leaf, ent, hnone]
    rfl
  · rw [if_neg ha]
    have hlv : leaf s₁.mem root (va / 4096) = (some (entry s₁.mem p (va / 4096 % 512))).filter
        (fun e => e % 2 = 1) := by
      rw [leaf, ent, hp]
      rfl
    rw [hleaf _ hv, entry] at hlv
    simp only [VM.load, VM.store, meets_bind, meets_get, meets_pure]
    split
    · rename_i hval
      rw [valid_iff] at hval
      rw [meets_panic]
      refine hremap ?_
      rw [hlv, Option.filter_some, if_pos (by simpa using hval)]
      simp
    · rename_i hval
      rw [valid_iff] at hval
      rw [Option.filter_some, if_neg (by simpa using hval)] at hlv
      simp only [meets_bind, meets_modify, Nat.or_assoc]
      obtain ⟨hstep', -, hleaf'⟩ := PtStep.setLeaf hstep.chain (hstep.sep hsep) hstep.ok hv hp hx
      refine hk _ F₁ hle (hstep.trans hstep') hlv fun w hw => ?_
      rw [hleaf' w hw]
      split
      · rw [Option.filter_some, if_pos (by simpa using hxv)]
      · exact hleaf w hw

/-- **`mappages`** of one page adds a mapping, or fails and adds none; it panics
if the page is mapped already. -/
theorem mappages_spec (hc : Chain s F) (hsep : Sep s.kend (F + tables s.mem root))
    (hok : PtOk s.mem root) (hva : va < MAXVA) (hal : va % 4096 = 0) (hpa : pa < WORD)
    (hperm : perm < 2 ^ 10) :
    Meets (mappages root va PGSIZE pa perm) s (fun r s' => ∃ F' ≤ F, PtStep root F F' s s' ∧
      leaf s.mem root (va / 4096) = none ∧
      (r = 0 ∧ (∀ v < 512 ^ 3, leaf s'.mem root v = if v = va / 4096 then
          some (PA2PTE pa ||| (perm ||| PTE_V)) else leaf s.mem root v) ∨
        r = -1 ∧ (∀ v < 512 ^ 3, leaf s'.mem root v = leaf s.mem root v) ∧
          ¬Room s.fails F (missing s.mem root (va / 4096) 2)))
      (fun msg => msg = "mappages: remap" ∧ leaf s.mem root (va / 4096) ≠ none) := by
  rw [mappages, if_neg (by unfold PGSIZE; omega), if_neg (by decide), if_neg (by decide),
    show PGSIZE / PGSIZE - 1 = 0 from rfl, mappagesLoop]
  refine mapPage_spec hc hsep hok hva hpa hperm ?_ (fun h => ⟨rfl, h⟩) ?_
  · intro s' F' hle hstep hnone hleaf hfew
    exact ⟨F', hle, hstep, hnone, .inr ⟨rfl, hleaf, hfew⟩⟩
  · intro s' F' hle hstep hnone hleaf
    exact ⟨F', hle, hstep, hnone, .inl ⟨rfl, hleaf⟩⟩

/-- The pages from `v` on, `n` of them, are mapped to the pages from `pa` on. -/
def MappedTo (m m' : Bytes) (root v n pa perm : ℕ) : Prop :=
  ∀ w < 512 ^ 3, leaf m' root w = if v ≤ w ∧ w < v + n then
    some (PA2PTE (pa + 4096 * (w - v)) ||| (perm ||| PTE_V)) else leaf m root w

theorem MappedTo.cons {m' m'' : Bytes} {n : ℕ}
    (h : ∀ w < 512 ^ 3, leaf m' root w = if w = v then
      some (PA2PTE pa ||| (perm ||| PTE_V)) else leaf m root w)
    (h' : MappedTo m' m'' root (v + 1) n (pa + 4096) perm) :
    MappedTo m m'' root v (n + 1) pa perm := by
  intro w hw
  rw [h' w hw, h w hw]
  by_cases hwv : w = v
  · rw [if_neg (by omega), if_pos hwv, if_pos (by omega), hwv, Nat.sub_self]
    rfl
  · by_cases hin : v + 1 ≤ w ∧ w < v + 1 + n
    · rw [if_pos hin, if_pos (by omega),
        show pa + 4096 + 4096 * (w - (v + 1)) = pa + 4096 * (w - v) by omega]
    · rw [if_neg hin, if_neg hwv, if_neg (by omega)]

/-- The ways `mappages` of `n` pages ends: with all of them mapped, or fewer. -/
def MapEnds (root v n pa perm : ℕ) (F : Multiset ℕ) (s : KMem) (r : ℤ) (s' : KMem) : Prop :=
  ∃ F' ≤ F, ∃ k, PtStep root F F' s s' ∧ MappedTo s.mem s'.mem root v k pa perm ∧
    (r = 0 ∧ k = n ∨ r = -1 ∧ k < n)

theorem MapEnds.none {n : ℕ} (hle : F' ≤ F) (hstep : PtStep root F F' s s') (hn : 0 < n)
    (hleaf : ∀ w < 512 ^ 3, leaf s'.mem root w = leaf s.mem root w) :
    MapEnds root v n pa perm F s (-1) s' := by
  refine ⟨F', hle, 0, hstep, fun w hw => ?_, .inr ⟨rfl, hn⟩⟩
  rw [if_neg (by omega), hleaf w hw]

theorem mappagesLoop_spec {n : ℕ} (hc : Chain s F) (hsep : Sep s.kend (F + tables s.mem root))
    (hok : PtOk s.mem root) (hal : va % 4096 = 0) (hn : va / 4096 + (n + 1) ≤ 2 ^ 26)
    (hpa : pa + 4096 * (n + 1) ≤ WORD) (hperm : perm < 2 ^ 10)
    (hfree : ∀ w, va / 4096 ≤ w → w < va / 4096 + (n + 1) → leaf s.mem root w = none) :
    Meets (mappagesLoop root perm n va pa) s (MapEnds root (va / 4096) (n + 1) pa perm F s)
      Never := by
  induction n generalizing va pa s F with
  | zero =>
    rw [mappagesLoop]
    refine mapPage_spec hc hsep hok (by unfold MAXVA; omega) (by omega) hperm
      (fun s' F' hle hstep _ hleaf _ => .none hle hstep (by omega) hleaf)
      (fun h => h (hfree _ le_rfl (by omega))) fun s' F' hle hstep _ hleaf => ?_
    rw [meets_pure]
    refine ⟨F', hle, 1, hstep, MappedTo.cons (n := 0) hleaf fun w hw => ?_, .inl ⟨rfl, rfl⟩⟩
    rw [if_neg (by omega)]
  | succ n ih =>
    have hdiv : (va + PGSIZE) / 4096 = va / 4096 + 1 := by
      unfold PGSIZE
      omega
    refine mapPage_spec hc hsep hok (by unfold MAXVA; omega) (by omega) hperm
      (fun s' F' hle hstep _ hleaf _ => .none hle hstep (by omega) hleaf)
      (fun h => h (hfree _ le_rfl (by omega))) fun s₁ F₁ hle hstep _ hleaf => ?_
    have hn' : va / 4096 + 1 + (n + 1) ≤ 2 ^ 26 := by omega
    have hpa' : pa + 4096 + 4096 * (n + 1) ≤ WORD :=
      (show _ = pa + 4096 * (n + 1 + 1) by omega).trans_le hpa
    have hmod : (va + PGSIZE) % WORD = va + PGSIZE := Nat.mod_eq_of_lt (by
      unfold PGSIZE WORD
      omega)
    have hmod' : (pa + PGSIZE) % WORD = pa + 4096 := Nat.mod_eq_of_lt (by
      omega)
    have hfree₁ : ∀ w, va / 4096 + 1 ≤ w → w < va / 4096 + 1 + (n + 1) →
        leaf s₁.mem root w = none := by
      intro w hlo hhi
      rw [hleaf w (by omega), if_neg (by omega)]
      exact hfree w (by omega) (by omega)
    rw [hmod, hmod']
    refine (ih hstep.chain (hstep.sep hsep) hstep.ok (by unfold PGSIZE; omega)
      (hdiv ▸ hn') hpa' (by rwa [hdiv])).imp ?_
    rintro r s' ⟨F', hle', k, hstep', hmapped, hr⟩
    rw [hdiv] at hmapped
    exact ⟨F', hle'.trans hle, k + 1, hstep.trans hstep', MappedTo.cons hleaf hmapped, by omega⟩

/-- **`mappages`** of any number of pages. -/
theorem mappages_pages {n : ℕ} (hc : Chain s F) (hsep : Sep s.kend (F + tables s.mem root))
    (hok : PtOk s.mem root) (hal : va % 4096 = 0) (hpos : 0 < n) (hn : va / 4096 + n ≤ 2 ^ 26)
    (hpa : pa + 4096 * n ≤ WORD) (hperm : perm < 2 ^ 10)
    (hfree : ∀ w, va / 4096 ≤ w → w < va / 4096 + n → leaf s.mem root w = none) :
    Meets (mappages root va (n * PGSIZE) pa perm) s (MapEnds root (va / 4096) n pa perm F s)
      Never := by
  obtain ⟨n, rfl⟩ := Nat.exists_eq_add_one.mpr hpos
  rw [mappages, if_neg (by unfold PGSIZE; omega), if_neg (by unfold PGSIZE; omega),
    if_neg (by unfold PGSIZE; omega), show (n + 1) * PGSIZE / PGSIZE - 1 = n by unfold PGSIZE; omega]
  exact mappagesLoop_spec hc hsep hok hal hn hpa hperm hfree

end Map

end Xv6
