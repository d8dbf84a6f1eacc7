import Mathlib.Data.List.Chain
import Mathlib.Data.List.Nodup
import Mathlib.Logic.Function.Basic

/-!
# Linked lists

`Chained next l` says that the places of `l` are linked one after the other;
following the links visits them in order (`Chained.follow`). `Linked next prev l`
has the links back as well: what is put in or taken out only changes the links
where the list is cut (`Linked.insert`, `Linked.remove`), and the other direction
is the same list in reverse (`Linked.reverse`).
-/

namespace Xv6

open Function List

variable {P : Type} {next prev next' prev' : P → P} {l : List P} {p q x y : P}

/-! ## One direction -/

/-- Each place of the list leads to the one after it. -/
def Chained (next : P → P) (l : List P) : Prop := l.IsChain fun p q => next p = q

namespace Chained

theorem cons_cons : Chained next (p :: q :: l) ↔ next p = q ∧ Chained next (q :: l) :=
  isChain_cons_cons

theorem split {l₁ l₂ : List P} : Chained next (l₁ ++ p :: l₂) ↔
    Chained next (l₁ ++ [p]) ∧ Chained next (p :: l₂) :=
  isChain_split

/-- The last place is not followed. -/
theorem congr (h : Chained next l) (hnext : ∀ p ∈ l.dropLast, next' p = next p) :
    Chained next' l := by
  induction l with
  | nil => exact List.IsChain.nil
  | cons p l ih =>
    cases l with
    | nil => exact List.IsChain.singleton p
    | cons q l =>
      obtain ⟨hp, h⟩ := cons_cons.mp h
      refine cons_cons.mpr ⟨?_, ih h ?_⟩
      · rw [hnext p mem_cons_self, hp]
      · intro p' hp'
        exact hnext p' (mem_cons_of_mem _ hp')

/-- Where a place leads to is in the list. -/
theorem next_mem (h : Chained next l) (hp : p ∈ l.dropLast) : next p ∈ l.tail := by
  induction l with
  | nil => cases hp
  | cons p' l ih =>
    cases l with
    | nil => cases hp
    | cons q l =>
      obtain ⟨hnext, h⟩ := cons_cons.mp h
      rcases mem_cons.mp hp with rfl | hp
      · rw [hnext]
        exact mem_cons_self
      · exact mem_cons_of_mem _ (ih h hp)

/-- No two places lead to the same one, if no place comes twice. -/
theorem next_inj (h : Chained next l) (hnodup : l.tail.Nodup) (hx : x ∈ l.dropLast)
    (hy : y ∈ l.dropLast) (hxy : next x = next y) : x = y := by
  induction l with
  | nil => cases hx
  | cons p l ih =>
    cases l with
    | nil => cases hx
    | cons q l =>
      obtain ⟨hnext, htail⟩ := cons_cons.mp h
      obtain ⟨hq, hnodup'⟩ := nodup_cons.mp hnodup
      rcases mem_cons.mp hx with rfl | hx'
      · rcases mem_cons.mp hy with rfl | hy'
        · rfl
        · rw [← hnext, hxy] at hq
          exact absurd (htail.next_mem hy') hq
      · rcases mem_cons.mp hy with rfl | hy'
        · rw [← hnext, ← hxy] at hq
          exact absurd (htail.next_mem hx') hq
        · exact ih htail hnodup' hx' hy'

end Chained

/-- Follow the links up to `stop`; `none` if `fuel` does not get there. -/
def follow [DecidableEq P] (next : P → P) (stop : P) : ℕ → P → Option (List P)
  | 0, _ => none
  | fuel + 1, p => if p = stop then some [] else (follow next stop fuel (next p)).map (p :: ·)

/-- **The links visit the places in order.** -/
theorem Chained.follow [DecidableEq P] {stop : P} (h : Chained next (p :: l ++ [stop]))
    (hstop : stop ∉ l) {fuel : ℕ} (hfuel : l.length < fuel) :
    follow next stop fuel (next p) = some l := by
  induction l generalizing p fuel with
  | nil =>
    obtain ⟨hp, -⟩ := cons_cons.mp h
    obtain ⟨fuel, rfl⟩ := Nat.exists_eq_succ_of_ne_zero (Nat.pos_iff_ne_zero.mp hfuel)
    rw [hp, Xv6.follow, if_pos rfl]
  | cons q l ih =>
    obtain ⟨hp, h⟩ := cons_cons.mp h
    rw [mem_cons, not_or] at hstop
    obtain ⟨fuel, rfl⟩ := Nat.exists_eq_succ_of_ne_zero (Nat.ne_zero_of_lt hfuel)
    rw [hp, Xv6.follow, if_neg (Ne.symm hstop.1), ih h hstop.2 (Nat.lt_of_succ_lt_succ hfuel)]
    rfl

/-! ## Both directions -/

/-- Each place of the list is linked with the one after it. -/
def Linked (next prev : P → P) (l : List P) : Prop :=
  l.IsChain fun p q => next p = q ∧ prev q = p

namespace Linked

theorem cons_cons : Linked next prev (p :: q :: l) ↔
    (next p = q ∧ prev q = p) ∧ Linked next prev (q :: l) :=
  isChain_cons_cons

theorem split {l₁ l₂ : List P} : Linked next prev (l₁ ++ p :: l₂) ↔
    Linked next prev (l₁ ++ [p]) ∧ Linked next prev (p :: l₂) :=
  isChain_split

theorem chained (h : Linked next prev l) : Chained next l := h.imp fun _ _ hpq => hpq.1

theorem reverse (h : Linked next prev l) : Linked prev next l.reverse := by
  refine isChain_reverse.mpr (h.imp ?_)
  intro p q hpq
  exact hpq.symm

/-- The last place is not followed, and the first one does not lead back. -/
theorem congr (h : Linked next prev l) (hnext : ∀ p ∈ l.dropLast, next' p = next p)
    (hprev : ∀ p ∈ l.tail, prev' p = prev p) : Linked next' prev' l := by
  induction l with
  | nil => exact List.IsChain.nil
  | cons p l ih =>
    cases l with
    | nil => exact List.IsChain.singleton p
    | cons q l =>
      obtain ⟨⟨hp, hq⟩, h⟩ := cons_cons.mp h
      refine cons_cons.mpr ⟨⟨?_, ?_⟩, ih h ?_ ?_⟩
      · rw [hnext p mem_cons_self, hp]
      · rw [hprev q mem_cons_self, hq]
      · intro p' hp'
        exact hnext p' (mem_cons_of_mem _ hp')
      · intro p' hp'
        exact hprev p' (mem_cons_of_mem _ hp')

section Update

variable [DecidableEq P]

/-- **A place is put in** between two that are next to each other. -/
theorem insert {l₁ l₂ : List P} (h : Linked next prev (l₁ ++ p :: q :: l₂))
    (hnodup : (l₁ ++ p :: q :: l₂).Nodup) (hx : x ∉ l₁ ++ p :: q :: l₂) :
    Linked (update (update next x q) p x)
      (update (update prev x p) q x) (l₁ ++ p :: x :: q :: l₂) := by
  obtain ⟨h₁, h₂⟩ := split.mp h
  obtain ⟨hpq, h₂⟩ := cons_cons.mp h₂
  simp only [nodup_append, nodup_cons, mem_cons, mem_append, not_or] at hnodup hx
  obtain ⟨-, ⟨⟨hpq', hpl⟩, hql, -⟩, hdisj⟩ := hnodup
  obtain ⟨hx₁, hxp, hxq, hx₂⟩ := hx
  have hne (p' : P) (hp' : p' ∈ l₁) : p' ≠ p ∧ p' ≠ q ∧ p' ≠ x :=
    ⟨hdisj p' hp' p (.inl rfl), hdisj p' hp' q (.inr (.inl rfl)), fun h => hx₁ (h ▸ hp')⟩
  have hne' (p' : P) (hp' : p' ∈ l₂) : p' ≠ p ∧ p' ≠ q ∧ p' ≠ x :=
    ⟨fun h => hpl (h ▸ hp'), fun h => hql (h ▸ hp'), fun h => hx₂ (h ▸ hp')⟩
  refine split.mpr ⟨h₁.congr ?_ ?_, cons_cons.mpr ⟨⟨?_, ?_⟩, cons_cons.mpr ⟨⟨?_, ?_⟩, ?_⟩⟩⟩
  · intro p' hp'
    rw [dropLast_concat] at hp'
    obtain ⟨hp, -, hx⟩ := hne p' hp'
    rw [update_of_ne hp, update_of_ne hx]
  · intro p' hp'
    rcases mem_append.mp (mem_of_mem_tail hp') with hp' | hp'
    · obtain ⟨-, hq, hx⟩ := hne p' hp'
      rw [update_of_ne hq, update_of_ne hx]
    · obtain rfl := mem_singleton.mp hp'
      rw [update_of_ne hpq', update_of_ne (Ne.symm hxp)]
  · rw [update_self]
  · rw [update_of_ne hxq, update_self]
  · rw [update_of_ne hxp, update_self]
  · rw [update_self]
  · refine h₂.congr ?_ ?_
    · intro p' hp'
      rcases mem_cons.mp (dropLast_subset _ hp') with rfl | hp'
      · rw [update_of_ne (Ne.symm hpq'), update_of_ne (Ne.symm hxq)]
      · obtain ⟨hp, -, hx⟩ := hne' p' hp'
        rw [update_of_ne hp, update_of_ne hx]
    · intro p' hp'
      obtain ⟨-, hq, hx⟩ := hne' p' hp'
      rw [update_of_ne hq, update_of_ne hx]

/-- **The first place after `p` is taken out.** -/
theorem remove (h : Linked next prev (p :: x :: q :: l)) (hnodup : (p :: x :: q :: l).Nodup) :
    Linked (update next p q) (update prev q p) (p :: q :: l) := by
  obtain ⟨-, h⟩ := cons_cons.mp h
  obtain ⟨-, h⟩ := cons_cons.mp h
  simp only [nodup_cons, mem_cons, not_or] at hnodup
  obtain ⟨⟨-, hpq, hpl⟩, -, hql, -⟩ := hnodup
  refine cons_cons.mpr ⟨⟨update_self .., update_self ..⟩, h.congr ?_ ?_⟩
  · intro p' hp'
    refine update_of_ne ?_ _ _
    rintro rfl
    rcases mem_cons.mp (dropLast_subset _ hp') with hp' | hp'
    · exact hpq hp'
    · exact hpl hp'
  · intro p' hp'
    refine update_of_ne ?_ _ _
    rintro rfl
    exact hql hp'

end Update

end Linked

end Xv6
