import Xv6.Itable

/-!
# What the inode table keeps true

Reference counts are exact, so whoever has a sleep lock is counted, and with one
reference left nobody else can have it. Entries in use are of different inodes,
so an inode on disk is only written through its entry, by the process that has
the lock, or by `ialloc` when it is free. A valid entry is not free, but while
`iput` frees it, and until then it has the lock.
-/

namespace Xv6.Itable

open Function List

open Fs

variable {s t : State} {p q : ℕ} {i j : Slot} {e : Entry} {c : Pc}

/-! ## The invariant -/

/-- The entry whose copy says it is free, which `iput` is about to make invalid. -/
def Pc.freed : Pc → Option Slot
  | .update i => some i
  | .invalidate i => some i
  | _ => none

/-- `iput` of process `p` is freeing the inode. -/
def Frees (s : State) (p : ℕ) (i : Slot) : Prop :=
  (i, {p}) ∈ s.refs ∧ (s.entry i).lock = some p

/-- What holds where process `p` is. -/
def PcOk (s : State) (p : ℕ) : Pc → Prop
  | .idle => True
  | .ialloc .. => True
  | .iget .. => True
  | .ilock i => s.Holds p i
  | .check i => (s.entry i).lock = some p ∧ (s.entry i).changed = false
  | .read i =>
    (s.entry i).lock = some p ∧ (s.entry i).changed = false ∧ (s.entry i).valid = false
  | .fill i =>
    (s.entry i).lock = some p ∧ (s.entry i).changed = false ∧ (s.entry i).valid = false ∧
      ((s.entry i).copy.type ≠ .free → s.disk (s.entry i).home = (s.entry i).copy)
  | .iput i =>
    (i, {p}) ∈ s.refs ∧ (s.entry i).ref = 1 ∧ (s.entry i).lock = none ∧ s.itable = some p
  | .itrunc i => Frees s p i
  | .itruncUpdate i => Frees s p i
  | .untype i => Frees s p i
  | .update i => Frees s p i
  | .invalidate i => Frees s p i ∧ (s.entry i).changed = false
  | .release i => Frees s p i ∧ (s.entry i).changed = false ∧ (s.entry i).valid = false
  | .drop i => (i, {p}) ∈ s.refs ∧ (s.entry i).lock ≠ some p

/-- An entry and its inode: both are allocated, and the same but for what has been changed. -/
def Matches (e : Entry) (d : Dinode) : Prop :=
  e.copy.type ≠ .free ∧ d.type ≠ .free ∧ (e.changed = false → d = e.copy)

/-- A valid entry is the inode on disk, unless it is being freed. -/
def Agrees (s : State) (i : Slot) : Prop :=
  (s.entry i).valid = true → (∀ p, (s.entry i).lock = some p → (s.pc p).freed ≠ some i) →
    Matches (s.entry i) (s.disk (s.entry i).home)

structure Inv (s : State) : Prop where
  ref : ∀ i, (s.entry i).ref = s.refs.countP (·.1 = i)
  uniq : ∀ i j, 0 < (s.entry i).ref → 0 < (s.entry j).ref →
    (s.entry i).home = (s.entry j).home → i = j
  lock : ∀ i p, (s.entry i).lock = some p → s.Holds p i
  clean : ∀ i, (s.entry i).lock = none → (s.entry i).changed = false
  pc : ∀ p, PcOk s p (s.pc p)
  agrees : ∀ i, 0 < (s.entry i).ref → Agrees s i

/-! ## What others see of a step -/

/-- The entry is what it was, but for its reference count, and so is its inode if allocated. -/
structure Kept (s t : State) (i : Slot) : Prop where
  home : (t.entry i).home = (s.entry i).home
  lock : (t.entry i).lock = (s.entry i).lock
  valid : (t.entry i).valid = (s.entry i).valid
  copy : (t.entry i).copy = (s.entry i).copy
  changed : (t.entry i).changed = (s.entry i).changed
  disk : (s.disk (s.entry i).home).type ≠ .free → t.disk (s.entry i).home = s.disk (s.entry i).home

theorem Kept.of_entry {n : ℕ} (he : t.entry i = { s.entry i with ref := n })
    (hd : (s.disk (s.entry i).home).type ≠ .free →
      t.disk (s.entry i).home = s.disk (s.entry i).home) : Kept s t i :=
  ⟨by rw [he]; rfl, by rw [he], by rw [he], by rw [he], by rw [he], hd⟩

/-- Where process `q` is, nothing changes if its references and locked entries are kept. -/
theorem PcOk.kept (h : PcOk s q c) (hholds : ∀ j, s.Holds q j → t.Holds q j)
    (hmem : ∀ j, (j, {q}) ∈ s.refs → (j, {q}) ∈ t.refs)
    (hkept : ∀ j, (s.entry j).lock = some q → Kept s t j)
    (hdrop : ∀ j, (s.entry j).lock ≠ some q → (t.entry j).lock ≠ some q)
    (hiput : ∀ j, PcOk s q (.iput j) → PcOk t q (.iput j)) : PcOk t q c := by
  have hfrees : ∀ j, Frees s q j → Frees t q j := fun j hj =>
    ⟨hmem j hj.1, by rw [(hkept j hj.2).lock]; exact hj.2⟩
  cases c with
  | idle | ialloc | iget => trivial
  | ilock j => exact hholds j h
  | check j =>
    have hk := hkept j h.1
    exact ⟨hk.lock ▸ h.1, hk.changed ▸ h.2⟩
  | read j =>
    have hk := hkept j h.1
    exact ⟨hk.lock ▸ h.1, hk.changed ▸ h.2.1, hk.valid ▸ h.2.2⟩
  | fill j =>
    have hk := hkept j h.1
    refine ⟨hk.lock ▸ h.1, hk.changed ▸ h.2.1, hk.valid ▸ h.2.2.1, fun htype => ?_⟩
    rw [hk.copy] at htype ⊢
    have hcopy := h.2.2.2 htype
    rw [hk.home, hk.disk (hcopy ▸ htype), hcopy]
  | iput j => exact hiput j h
  | itrunc j | itruncUpdate j | untype j | update j => exact hfrees j h
  | invalidate j => exact ⟨hfrees j h.1, (hkept j h.1.2).changed ▸ h.2⟩
  | release j =>
    have hk := hkept j h.1.2
    exact ⟨hfrees j h.1, hk.changed ▸ h.2.1, hk.valid ▸ h.2.2⟩
  | drop j => exact ⟨hmem j h.1, hdrop j h.2⟩

theorem PcOk.lock_of_freed (h : PcOk s p c) (hc : c.freed = some i) :
    (s.entry i).lock = some p := by
  cases c with
  | update j =>
    cases hc
    exact h.2
  | invalidate j =>
    cases hc
    exact h.1.2
  | _ => cases hc

theorem Agrees.kept (h : Agrees s i) (hk : Kept s t i)
    (hfreed : ∀ p, (s.pc p).freed = some i → (t.pc p).freed = some i) : Agrees t i := by
  intro hvalid hnot
  rw [hk.valid] at hvalid
  rw [hk.lock] at hnot
  obtain ⟨htype, halloc, hcopy⟩ :=
    h hvalid fun p hp hf => hnot p hp (hfreed p hf)
  rw [Matches, hk.copy, hk.home, hk.changed, hk.disk halloc]
  exact ⟨htype, halloc, hcopy⟩

theorem freed_goto (hp : (s.pc p).freed ≠ some i) (hq : (s.pc q).freed = some i) :
    ((s.goto p c).pc q).freed = some i := by
  have hqp : q ≠ p := by
    rintro rfl
    exact hp hq
  show (update s.pc p c q).freed = some i
  rw [update_of_ne hqp]
  exact hq

namespace Inv

/-! ## References -/

theorem ref_pos (h : Inv s) (hp : s.Holds p i) : 0 < (s.entry i).ref := by
  obtain ⟨r, hr, rfl, -⟩ := hp
  rw [h.ref]
  exact countP_pos_iff.mpr ⟨r, hr, by simp⟩

theorem holds_of_mem (hp : (i, {p}) ∈ s.refs) : s.Holds p i :=
  ⟨_, hp, rfl, Finset.mem_singleton_self p⟩

theorem holds_erase (hqp : q ≠ p) (hq : s.Holds q j) :
    ({ s with refs := s.refs.erase (i, {p}) } : State).Holds q j := by
  obtain ⟨r, hr, hrj, hqr⟩ := hq
  refine ⟨r, (mem_erase_of_ne ?_).mpr hr, hrj, hqr⟩
  rintro rfl
  exact hqp (Finset.mem_singleton.mp hqr)

/-- If there is one reference, there is no other. -/
theorem not_holds_erase (h : Inv s) (h1 : (s.entry i).ref = 1) (hp : (i, {p}) ∈ s.refs) :
    ¬({ s with refs := s.refs.erase (i, {p}) } : State).Holds q i := by
  rintro ⟨r, hr, hri, -⟩
  have hcount := countP_erase (fun r : Reference => decide (r.1 = i)) s.refs (i, {p})
  rw [← h.ref, h1, if_pos ⟨hp, by simp⟩] at hcount
  have hpos : 0 < (s.refs.erase (i, {p})).countP (·.1 = i) :=
    countP_pos_iff.mpr ⟨r, hr, by simp [hri]⟩
  omega

theorem eq_of_ref_one (h : Inv s) (h1 : (s.entry i).ref = 1) (hp : (i, {p}) ∈ s.refs)
    (hq : s.Holds q i) : q = p := by
  by_contra hne
  exact h.not_holds_erase h1 hp (holds_erase hne hq)

/-- With one reference left, whose user keeps another while it has the lock, nobody has it. -/
theorem unlocked (h : Inv s) (h1 : (s.entry i).ref = 1) (hp : (i, {p}) ∈ s.refs)
    (hlock : (s.entry i).lock = some p →
      ({ s with refs := s.refs.erase (i, {p}) } : State).Holds p i) :
    (s.entry i).lock = none := by
  by_contra hne
  obtain ⟨q, hq⟩ := Option.ne_none_iff_exists'.mp hne
  obtain rfl := h.eq_of_ref_one h1 hp (h.lock i q hq)
  exact h.not_holds_erase h1 hp (hlock hq)

theorem agrees_of_unlocked (h : Inv s) (hp : s.Holds p i) (hlock : (s.entry i).lock = none)
    (hvalid : (s.entry i).valid = true) : Matches (s.entry i) (s.disk (s.entry i).home) :=
  h.agrees i (h.ref_pos hp) hvalid fun _ hq => by cases hlock.symm.trans hq

theorem agrees_of_locked (h : Inv s) (hlock : (s.entry i).lock = some p)
    (hfreed : (s.pc p).freed = none) (hvalid : (s.entry i).valid = true) :
    Matches (s.entry i) (s.disk (s.entry i).home) := by
  refine h.agrees i (h.ref_pos (h.lock i p hlock)) hvalid fun q hq => ?_
  obtain rfl := Option.some.inj (hlock.symm.trans hq)
  rw [hfreed]
  rintro ⟨⟩

/-! ## Steps of the process that has the lock -/

/-- **Process `p` works on its entry.** It has a reference to it, and the sleep lock is its own or
nobody's; on disk it writes nothing but that inode. -/
theorem own (h : Inv s) {D : ℕ × ℕ → Dinode} {T : Option ℕ} (hp : s.Holds p i)
    (hlock : (s.entry i).lock = none ∨ (s.entry i).lock = some p)
    (hfreed : ∀ j, (s.pc p).freed = some j → j = i)
    (hT : T = s.itable ∨ s.itable = some p)
    (hhome : e.home = (s.entry i).home) (href : e.ref = (s.entry i).ref)
    (helock : e.lock = none ∨ e.lock = some p) (hclean : e.lock = none → e.changed = false)
    (hD : ∀ x, x ≠ (s.entry i).home → D x = s.disk x)
    (hc : PcOk (({ s.set i e with disk := D, itable := T } : State).goto p c) p c)
    (hagrees : e.valid = true → c.freed ≠ some i → Matches e (D (s.entry i).home)) :
    Inv (({ s.set i e with disk := D, itable := T } : State).goto p c) := by
  have hi : ((s.set i e).entry i) = e := update_self ..
  have hj : ∀ j, j ≠ i → (s.set i e).entry j = s.entry j := fun j hj => update_of_ne hj ..
  have hrefs : ∀ j, ((s.set i e).entry j).ref = (s.entry j).ref := by
    intro j
    by_cases hji : j = i
    · rw [hji, hi, href]
    · rw [hj j hji]
  have hhomes : ∀ j, ((s.set i e).entry j).home = (s.entry j).home := by
    intro j
    by_cases hji : j = i
    · rw [hji, hi, hhome]
    · rw [hj j hji]
  -- the inode of another entry in use is not written
  have hdisk : ∀ j, j ≠ i → 0 < (s.entry j).ref → D (s.entry j).home = s.disk (s.entry j).home :=
    fun j hji hpos => hD _ fun heq => hji (h.uniq j i hpos (h.ref_pos hp) heq)
  have hother : ∀ {j q}, q ≠ p → (s.entry j).lock = some q → j ≠ i := by
    rintro j q hqp hq rfl
    rcases hlock with hl | hl <;> rw [hl] at hq <;> cases hq
    exact hqp rfl
  constructor
  · intro j
    exact (hrefs j).trans (h.ref j)
  · intro j k hjpos hkpos heq
    refine h.uniq j k (hrefs j ▸ hjpos) (hrefs k ▸ hkpos) ?_
    rw [← hhomes, ← hhomes]
    exact heq
  · intro j q hq
    by_cases hji : j = i
    · subst hji
      change ((s.set j e).entry j).lock = some q at hq
      rw [hi] at hq
      rcases helock with hl | hl <;> rw [hl] at hq <;> cases hq
      exact hp
    · change ((s.set i e).entry j).lock = some q at hq
      rw [hj j hji] at hq
      exact h.lock j q hq
  · intro j hnone
    change ((s.set i e).entry j).lock = none at hnone
    show ((s.set i e).entry j).changed = false
    by_cases hji : j = i
    · subst hji
      rw [hi] at hnone ⊢
      exact hclean hnone
    · rw [hj j hji] at hnone ⊢
      exact h.clean j hnone
  · intro q
    by_cases hqp : q = p
    · subst hqp
      show PcOk _ q (update s.pc q c q)
      rw [update_self]
      exact hc
    · show PcOk _ q (update s.pc p c q)
      rw [update_of_ne hqp]
      refine (h.pc q).kept (fun _ hq => hq) (fun _ hq => hq)
        (fun j hq => .of_entry (hj j (hother hqp hq)) fun _ =>
          hdisk j (hother hqp hq) (h.ref_pos (h.lock j q hq))) (fun j hq => ?_) fun j hq => ?_
      · show ((s.set i e).entry j).lock ≠ some q
        by_cases hji : j = i
        · rw [hji, hi]
          rcases helock with hl | hl <;> rw [hl] <;> simp [Ne.symm hqp]
        · rw [hj j hji]
          exact hq
      · have hji : j ≠ i := by
          rintro rfl
          exact hqp (h.eq_of_ref_one hq.2.1 hq.1 hp).symm
        have hTq : T = some q := by
          rcases hT with rfl | hT
          · exact hq.2.2.2
          · exact absurd (Option.some.inj (hT.symm.trans hq.2.2.2)) (Ne.symm hqp)
        exact ⟨hq.1, (hrefs j).trans hq.2.1, by rw [← hq.2.2.1]; exact congrArg _ (hj j hji), hTq⟩
  · intro j hpos
    by_cases hji : j = i
    · subst hji
      intro hvalid hnot
      change ((s.set j e).entry j).valid = true at hvalid
      show Matches ((s.set j e).entry j) (D ((s.set j e).entry j).home)
      rw [hhomes, hi]
      rw [hi] at hvalid
      refine hagrees hvalid fun hcf => hnot p (hc.lock_of_freed hcf) ?_
      show (update s.pc p c p).freed = some j
      rw [update_self]
      exact hcf
    · have hpos' : 0 < (s.entry j).ref := hrefs j ▸ hpos
      exact (h.agrees j hpos').kept (.of_entry (hj j hji) fun _ => hdisk j hji hpos')
        fun q hq => freed_goto (fun hf => hji (hfreed j hf)) hq

/-! ## Steps under the table lock -/

/-- **References come and go.** Entry `i` is counted anew, or filled if it was not in use. -/
theorem recount (h : Inv s) {R : List Reference} (hfreed : (s.pc p).freed = none)
    (hitable : s.itable = none ∨ e.ref = (s.entry i).ref)
    (hold : 0 < (s.entry i).ref → e = { s.entry i with ref := e.ref })
    (hnew : (s.entry i).ref = 0 → e.lock = none ∧ e.changed = false ∧ e.valid = false ∧
      ∀ j, 0 < (s.entry j).ref → (s.entry j).home ≠ e.home)
    (href : e.ref = R.countP (·.1 = i))
    (hrefs : ∀ j, j ≠ i → R.countP (·.1 = j) = s.refs.countP (·.1 = j))
    (hholds : ∀ q j, q ≠ p → s.Holds q j → ({ s with refs := R } : State).Holds q j)
    (hmem : ∀ q j, q ≠ p → (j, {q}) ∈ s.refs → (j, {q}) ∈ R)
    (hmine : ∀ j, (s.entry j).lock = some p → ({ s with refs := R } : State).Holds p j) :
    Inv (({ s.set i e with refs := R } : State).goto p .idle) := by
  have hne : ∀ j, (s.pc p).freed ≠ some j := by simp [hfreed]
  have hi : (s.set i e).entry i = e := update_self ..
  have hj : ∀ j, j ≠ i → (s.set i e).entry j = s.entry j := fun j hj => update_of_ne hj ..
  -- an entry that was in use is kept
  have hkept : ∀ j, 0 < (s.entry j).ref →
      Kept s (({ s.set i e with refs := R } : State).goto p .idle) j := by
    intro j hpos
    by_cases hji : j = i
    · subst hji
      exact .of_entry (hi.trans (hold hpos)) fun _ => rfl
    · exact .of_entry (hj j hji) fun _ => rfl
  have hrest : ∀ j, 0 < ((s.set i e).entry j).ref → (s.entry j).ref = 0 → j = i := by
    intro j hpos h0
    by_contra hji
    rw [hj j hji, h0] at hpos
    exact absurd hpos (Nat.lt_irrefl 0)
  -- and one that was not is not locked
  have hlock : ∀ j q, ((s.set i e).entry j).lock = some q → (s.entry j).lock = some q := by
    intro j q hq
    by_cases hji : j = i
    · subst hji
      rw [hi] at hq
      rcases Nat.eq_zero_or_pos (s.entry j).ref with h0 | hpos
      · rw [(hnew h0).1] at hq
        cases hq
      · rw [hold hpos] at hq
        exact hq
    · rwa [hj j hji] at hq
  constructor
  · intro j
    show ((s.set i e).entry j).ref = _
    by_cases hji : j = i
    · subst hji
      rw [hi]
      exact href
    · rw [hj j hji, h.ref]
      exact (hrefs j hji).symm
  · intro j k hjpos hkpos heq
    rcases Nat.eq_zero_or_pos (s.entry j).ref with hj0 | hj1
    · obtain rfl := hrest j hjpos hj0
      by_contra hkj
      have hk := hj k (Ne.symm hkj)
      refine (hnew hj0).2.2.2 k (hk ▸ hkpos) ?_
      calc (s.entry k).home = ((s.set j e).entry k).home := by rw [hk]
        _ = ((s.set j e).entry j).home := heq.symm
        _ = e.home := by rw [hi]
    · rcases Nat.eq_zero_or_pos (s.entry k).ref with hk0 | hk1
      · obtain rfl := hrest k hkpos hk0
        by_contra hjk
        refine (hnew hk0).2.2.2 j hj1 ?_
        calc (s.entry j).home = ((s.set k e).entry j).home := by rw [hj j hjk]
          _ = ((s.set k e).entry k).home := heq
          _ = e.home := by rw [hi]
      · rw [(hkept j hj1).home, (hkept k hk1).home] at heq
        exact h.uniq j k hj1 hk1 heq
  · intro j q hq
    have hold := hlock j q hq
    by_cases hqp : q = p
    · subst hqp
      exact hmine j hold
    · exact hholds q j hqp (h.lock j q hold)
  · intro j hnone
    change ((s.set i e).entry j).lock = none at hnone
    show ((s.set i e).entry j).changed = false
    by_cases hji : j = i
    · subst hji
      rw [hi] at hnone ⊢
      rcases Nat.eq_zero_or_pos (s.entry j).ref with h0 | hpos
      · exact (hnew h0).2.1
      · rw [hold hpos] at hnone ⊢
        exact h.clean j hnone
    · rw [hj j hji] at hnone ⊢
      exact h.clean j hnone
  · intro q
    show PcOk _ q (update s.pc p .idle q)
    by_cases hqp : q = p
    · subst hqp
      rw [update_self]
      trivial
    · rw [update_of_ne hqp]
      refine (h.pc q).kept (hholds q · hqp) (hmem q · hqp)
        (fun j hq => hkept j (h.ref_pos (h.lock j q hq))) (fun j hq hq' => hq (hlock j q hq'))
        fun j hq => ?_
      have hpos : 0 < (s.entry j).ref := by
        rw [hq.2.1]
        exact Nat.one_pos
      refine ⟨hmem q j hqp hq.1, ?_, (hkept j hpos).lock.trans hq.2.2.1, hq.2.2.2⟩
      show ((s.set i e).entry j).ref = 1
      rcases hitable with hnone | hsame
      · cases hnone.symm.trans hq.2.2.2
      · by_cases hji : j = i
        · subst hji
          rw [hi, hsame]
          exact hq.2.1
        · rw [hj j hji]
          exact hq.2.1
  · intro j hpos
    rcases Nat.eq_zero_or_pos (s.entry j).ref with h0 | hpos'
    · intro hvalid
      obtain rfl := hrest j hpos h0
      change ((s.set j e).entry j).valid = true at hvalid
      rw [hi, (hnew h0).2.2.1] at hvalid
      cases hvalid
    · exact (h.agrees j hpos').kept (hkept j hpos') fun q hq =>
        freed_goto (hne j) hq

/-! ## Steps that leave the table alone -/

/-- **Process `p` moves on**; on disk it only writes inodes that are free. -/
theorem move (h : Inv s) {D : ℕ × ℕ → Dinode} {T : Option ℕ} (hfreed : (s.pc p).freed = none)
    (hT : T = s.itable ∨ s.itable = none)
    (hD : ∀ x, (s.disk x).type ≠ .free → D x = s.disk x)
    (hc : PcOk (({ s with disk := D, itable := T } : State).goto p c) p c) :
    Inv (({ s with disk := D, itable := T } : State).goto p c) := by
  have hkept : ∀ j, Kept s (({ s with disk := D, itable := T } : State).goto p c) j := fun j =>
    .of_entry rfl (hD _)
  have hne : ∀ j, (s.pc p).freed ≠ some j := by simp [hfreed]
  refine ⟨h.ref, h.uniq, h.lock, h.clean, fun q => ?_, fun j hpos => ?_⟩
  · show PcOk _ q (update s.pc p c q)
    by_cases hqp : q = p
    · subst hqp
      rw [update_self]
      exact hc
    · rw [update_of_ne hqp]
      refine (h.pc q).kept (fun _ hq => hq) (fun _ hq => hq) (fun j _ => hkept j) (fun _ hq => hq)
        fun j hq => ⟨hq.1, hq.2.1, hq.2.2.1, ?_⟩
      rcases hT with rfl | hT
      · exact hq.2.2.2
      · cases hT.symm.trans hq.2.2.2
  · exact (h.agrees j hpos).kept (hkept j) fun q hq =>
      freed_goto (hne j) hq

/-! ## The functions -/

theorem holds_cons {r : Reference} (hq : s.Holds q j) :
    ({ s with refs := r :: s.refs } : State).Holds q j := by
  obtain ⟨r, hr, hrest⟩ := hq
  exact ⟨r, mem_cons_of_mem _ hr, hrest⟩

/-- What `iget` and `idup` do to an entry in use. -/
theorem addRef (h : Inv s) (hfreed : (s.pc p).freed = none) (hitable : s.itable = none)
    (hpos : 0 < (s.entry i).ref) : Inv ((s.addRef p i).goto p .idle) := by
  refine h.recount hfreed (.inl hitable) (fun _ => rfl) (fun h0 => absurd hpos (by omega)) ?_
    (fun j hj => ?_) (fun q j _ hq => holds_cons hq) (fun q j _ hq => mem_cons_of_mem _ hq)
    fun j hj => holds_cons (h.lock j p hj)
  · rw [countP_cons_of_pos (by simp), ← h.ref]
  · rw [countP_cons_of_neg (by simpa using Ne.symm hj)]

/-- What `iget` does to an empty slot. -/
theorem recycle (h : Inv s) {dev inum : ℕ} (hfreed : (s.pc p).freed = none)
    (hitable : s.itable = none) (h0 : (s.entry i).ref = 0)
    (hnone : ∀ j, 0 < (s.entry j).ref → (s.entry j).home ≠ (dev, inum)) :
    Inv (State.goto
      { s.set i { s.entry i with dev := dev, inum := inum, ref := 1, valid := false } with
        refs := (i, {p}) :: s.refs } p .idle) := by
  have hlock : (s.entry i).lock = none := by
    by_contra hne
    obtain ⟨q, hq⟩ := Option.ne_none_iff_exists'.mp hne
    exact absurd (h.ref_pos (h.lock i q hq)) (by omega)
  refine h.recount hfreed (.inl hitable) (fun hpos => absurd hpos (by omega))
    (fun _ => ⟨hlock, h.clean i hlock, rfl, hnone⟩) ?_ (fun j hj => ?_)
    (fun q j _ hq => holds_cons hq) (fun q j _ hq => mem_cons_of_mem _ hq)
    fun j hj => holds_cons (h.lock j p hj)
  · rw [countP_cons_of_pos (by simp), ← h.ref, h0]
  · rw [countP_cons_of_neg (by simpa using Ne.symm hj)]

/-- What `iput` does at its end. -/
theorem dropRef (h : Inv s) (hfreed : (s.pc p).freed = none) (hitable : s.itable = none)
    (hmem : (i, {p}) ∈ s.refs)
    (hlock : (s.entry i).lock = some p →
      ({ s with refs := s.refs.erase (i, {p}) } : State).Holds p i) :
    Inv ((s.dropRef p i).goto p .idle) := by
  have hpos := h.ref_pos (holds_of_mem hmem)
  refine h.recount hfreed (.inl hitable) (fun _ => rfl) (fun h0 => absurd hpos (by omega)) ?_
    (fun j hj => ?_) (fun q j hqp hq => holds_erase hqp hq)
    (fun q j hqp hq => (mem_erase_of_ne ?_).mpr hq) fun j hj => ?_
  · rw [countP_erase, if_pos ⟨hmem, by simp⟩, ← h.ref]
  · rw [countP_erase, if_neg (by simp [Ne.symm hj])]
    rfl
  · simp [hqp]
  · by_cases hji : j = i
    · subst hji
      exact hlock hj
    · obtain ⟨r, hr, rfl, hqr⟩ := h.lock j p hj
      refine ⟨r, (mem_erase_of_ne ?_).mpr hr, rfl, hqr⟩
      rintro rfl
      exact hji rfl

end Inv

theorem igetLoop_found {dev inum : ℕ} {empty : Option Slot} {l : List Slot}
    (h : s.igetLoop dev inum empty l = .found i) :
    0 < (s.entry i).ref ∧ (s.entry i).home = (dev, inum) := by
  induction l generalizing empty with
  | nil => cases empty <;> cases h
  | cons k l ih =>
    rw [State.igetLoop] at h
    split at h
    · rename_i hk
      cases h
      exact ⟨hk.1, Prod.ext hk.2.1 hk.2.2⟩
    · exact ih h

theorem igetLoop_recycle {dev inum : ℕ} {empty : Option Slot} {l : List Slot}
    (h : s.igetLoop dev inum empty l = .recycle i) :
    (empty = some i ∨ (s.entry i).ref = 0) ∧
      ∀ j ∈ l, 0 < (s.entry j).ref → (s.entry j).home ≠ (dev, inum) := by
  induction l generalizing empty with
  | nil =>
    cases empty <;> cases h
    exact ⟨.inl rfl, fun j hj => absurd hj not_mem_nil⟩
  | cons k l ih =>
    rw [State.igetLoop] at h
    split at h
    · cases h
    · rename_i hk
      obtain ⟨hempty, hrest⟩ := ih h
      refine ⟨?_, fun j hj hpos heq => ?_⟩
      · split at hempty
        · rename_i h0
          rcases hempty with hempty | hempty
          · cases hempty
            exact .inr h0.2
          · exact .inr hempty
        · exact hempty
      · rcases mem_cons.mp hj with rfl | hj
        · exact hk ⟨hpos, congrArg Prod.fst heq, congrArg Prod.snd heq⟩
        · exact hrest j hj hpos heq

namespace Inv

/-- **`iget`** -/
theorem iget (h : Inv s) {dev inum : ℕ} (hfreed : (s.pc p).freed = none)
    (hs : s.iget p dev inum = .ok t) : Inv t := by
  rw [State.iget, State.acquire] at hs
  split_ifs at hs with hitable
  split at hs
  · rename_i i hi
    cases hs
    exact h.addRef hfreed hitable (igetLoop_found hi).1
  · cases hs
  · rename_i i hi
    cases hs
    obtain ⟨hempty, hnone⟩ := igetLoop_recycle hi
    exact h.recycle hfreed hitable (hempty.resolve_left (by rintro ⟨⟩)) fun j =>
      hnone j (mem_finRange j)

/-- The users of a reference change. -/
theorem users (h : Inv s) {r r' : Reference} (hfreed : (s.pc p).freed = none) (hr : r ∈ s.refs)
    (hp : p ∈ r.2) (hslot : r'.1 = r.1) (husers : ∀ q, q ≠ p → q ∈ r.2 → q ∈ r'.2)
    (hmine : (s.entry r.1).lock = some p →
      ({ s with refs := r' :: s.refs.erase r } : State).Holds p r.1) :
    Inv (({ s with refs := r' :: s.refs.erase r } : State).goto p .idle) := by
  have hcount : ∀ j, (r' :: s.refs.erase r).countP (·.1 = j) = s.refs.countP (·.1 = j) := by
    intro j
    rw [(perm_cons_erase hr).countP_eq, countP_cons, countP_cons, hslot]
  have hself : s.set r.1 (s.entry r.1) = s := by
    rw [State.set, update_eq_self]
  rw [← hself] at hmine ⊢
  refine h.recount hfreed (.inr rfl) (fun _ => rfl)
    (fun h0 => absurd (h.ref_pos ⟨r, hr, rfl, hp⟩) (by omega)) ((h.ref _).trans (hcount _).symm)
    (fun j _ => hcount j) (fun q j hqp hq => ?_) (fun q j hqp hq => ?_) fun j hj => ?_
  · obtain ⟨r₁, hr₁, rfl, hq⟩ := hq
    by_cases heq : r₁ = r
    · subst heq
      exact ⟨r', mem_cons_self, hslot, husers q hqp hq⟩
    · exact ⟨r₁, mem_cons_of_mem _ ((mem_erase_of_ne heq).mpr hr₁), rfl, hq⟩
  · refine mem_cons_of_mem _ ((mem_erase_of_ne ?_).mpr hq)
    rintro rfl
    exact hqp (Finset.mem_singleton.mp hp).symm
  · by_cases hjr : j = r.1
    · subst hjr
      exact hmine (by rw [hself]; exact hj)
    · obtain ⟨r₁, hr₁, rfl, hq⟩ := h.lock j p hj
      refine ⟨r₁, mem_cons_of_mem _ ((mem_erase_of_ne ?_).mpr hr₁), rfl, hq⟩
      rintro rfl
      exact hjr rfl

/-- **`iupdate`** -/
theorem iupdate (h : Inv s) (hlock : (s.entry i).lock = some p)
    (hfreed : ∀ j, (s.pc p).freed = some j → j = i)
    (hc : PcOk ((s.iupdate i).goto p c) p c) (hkeep : (s.pc p).freed = none ∨ c.freed = some i) :
    Inv ((s.iupdate i).goto p c) := by
  refine h.own (h.lock i p hlock) (.inr hlock) hfreed (.inl rfl) rfl rfl (.inr hlock)
    (fun _ => rfl) (fun _ hx => update_of_ne hx ..) hc fun hvalid hnot => ?_
  have hnone := hkeep.resolve_right hnot
  obtain ⟨htype, -, -⟩ := h.agrees_of_locked hlock hnone hvalid
  have hdisk : (s.setDisk (s.entry i).home (s.entry i).copy).disk (s.entry i).home =
      (s.entry i).copy := update_self ..
  rw [hdisk]
  exact ⟨htype, htype, fun _ => rfl⟩

/-- **A call** -/
theorem call (h : Inv s) {a : Act} (hidle : s.pc p = .idle) (hd : Disciplined s (p, a))
    (hs : s.call p a = .ok t) : Inv t := by
  have hfreed : (s.pc p).freed = none := by
    rw [hidle]
    rfl
  have hnot : ∀ i j, (s.pc p).freed = some j → j = i := by simp [hfreed]
  cases a with
  | iget dev inum => exact h.iget hfreed hs
  | idup i =>
    rw [State.call, State.acquire] at hs
    split_ifs at hs with hitable
    cases hs
    exact h.addRef hfreed hitable (h.ref_pos hd)
  | ilock i =>
    rw [State.call] at hs
    split_ifs at hs
    cases hs
    exact h.move hfreed (.inl rfl) (fun _ _ => rfl) hd
  | iunlock i =>
    rw [State.call] at hs
    split_ifs at hs with hlock
    push Not at hlock
    cases hs
    exact h.own (D := s.disk) (h.lock i p hlock.1) (.inr hlock.1) (hnot i) (.inl rfl) rfl rfl
      (.inl rfl) (fun _ => hd) (fun _ _ => rfl) trivial fun hvalid _ =>
        h.agrees_of_locked hlock.1 hfreed hvalid
  | iput i =>
    rw [State.call, State.acquire] at hs
    split_ifs at hs with hitable hlast
    · cases hs
      exact h.move (D := s.disk) hfreed (.inr hitable) (fun _ _ => rfl)
        ⟨hd.1, hlast.1, h.unlocked hlast.1 hd.1 hd.2, rfl⟩
    · cases hs
      exact h.dropRef hfreed hitable hd.1 hd.2
  | ialloc dev type =>
    cases hs
    exact h.move hfreed (.inl rfl) (fun _ _ => rfl) trivial
  | iupdate i =>
    cases hs
    exact h.iupdate hd (hnot i) trivial (.inl hfreed)
  | change i d =>
    cases hs
    refine h.own (D := s.disk) (h.lock i p hd.1) (.inr hd.1) (hnot i) (.inl rfl) rfl rfl
      (.inr hd.1) (fun hnone => by cases hnone.symm.trans hd.1) (fun _ _ => rfl) trivial
      fun hvalid _ => ?_
    obtain ⟨htype, halloc, -⟩ := h.agrees_of_locked hd.1 hfreed hvalid
    exact ⟨hd.2 ▸ htype, halloc, (by rintro ⟨⟩)⟩
  | share r q =>
    cases hs
    exact h.users hfreed hd.1 hd.2 rfl (fun q' _ hq => Finset.mem_insert_of_mem hq) fun _ =>
      ⟨_, mem_cons_self, rfl, Finset.mem_insert_of_mem hd.2⟩
  | leave r =>
    cases hs
    exact h.users hfreed hd.1 hd.2.1 rfl (fun q' hne hq => Finset.mem_erase_of_ne_of_mem hne hq)
      fun hl => holds_cons (hd.2.2.2 hl)
  | next => cases hs

/-- **The next step of a function** -/
theorem next (h : Inv s) {ninodes : ℕ} (hs : s.next ninodes p (s.pc p) = .ok t) : Inv t := by
  have hok := h.pc p
  generalize hpc : s.pc p = pc at hs hok
  have hfreed : pc.freed = none → (s.pc p).freed = none := fun hf => by rw [hpc, hf]
  have hnot : ∀ i, pc.freed = none → ∀ j, (s.pc p).freed = some j → j = i := by
    intro i hf j hj
    rw [hfreed hf] at hj
    cases hj
  cases pc with
  | idle => cases hs
  | ialloc dev type inum =>
    rw [State.next] at hs
    split_ifs at hs with hlt hfree
    · cases hs
      refine h.move (hfreed rfl) (.inl rfl) (fun x hx => update_of_ne ?_ ..) trivial
      rintro rfl
      exact hx hfree
    all_goals
      cases hs
      exact h.move (hfreed rfl) (.inl rfl) (fun _ _ => rfl) trivial
  | iget dev inum => exact h.iget (hfreed rfl) hs
  | ilock i =>
    rw [State.next] at hs
    split_ifs at hs with hlock
    cases hs
    refine h.own (D := s.disk) hok (.inl hlock) (hnot i rfl) (.inl rfl) rfl rfl (.inr rfl)
      (by rintro ⟨⟩) (fun _ _ => rfl) ?_ fun hvalid _ => h.agrees_of_unlocked hok hlock hvalid
    simp [PcOk, State.goto, State.set, h.clean i hlock]
  | check i =>
    cases hs
    refine h.move (hfreed rfl) (.inl rfl) (fun _ _ => rfl) ?_
    split
    · trivial
    · rename_i hvalid
      exact ⟨hok.1, hok.2, Bool.eq_false_iff.mpr hvalid⟩
  | read i =>
    cases hs
    refine h.own (D := s.disk) (h.lock i p hok.1) (.inr hok.1) (hnot i rfl) (.inl rfl) rfl rfl
      (.inr hok.1) (fun _ => hok.2.1) (fun _ _ => rfl) ?_ fun hvalid _ =>
        by cases hvalid.symm.trans hok.2.2
    simpa [PcOk, State.goto, State.set, Entry.home] using hok
  | fill i =>
    rw [State.next] at hs
    split_ifs at hs with htype
    cases hs
    have hcopy := hok.2.2.2 htype
    exact h.own (D := s.disk) (h.lock i p hok.1) (.inr hok.1) (hnot i rfl) (.inl rfl) rfl rfl
      (.inr hok.1) (fun _ => hok.2.1) (fun _ _ => rfl) trivial fun _ _ =>
        ⟨htype, hcopy ▸ htype, fun _ => hcopy⟩
  | iput i =>
    rw [State.next] at hs
    split_ifs at hs with hlock
    cases hs
    refine h.own (D := s.disk) (holds_of_mem hok.1) (.inl hlock) (hnot i rfl)
      (.inr hok.2.2.2) rfl rfl (.inr rfl) (by rintro ⟨⟩) (fun _ _ => rfl) ?_ fun hvalid _ =>
        h.agrees_of_unlocked (holds_of_mem hok.1) hlock hvalid
    simp [PcOk, Frees, State.goto, State.set, hok.1]
  | itrunc i =>
    cases hs
    refine h.own (D := s.disk) (h.lock i p hok.2) (.inr hok.2) (hnot i rfl) (.inl rfl) rfl rfl
      (.inr hok.2) (fun hnone => by cases hnone.symm.trans hok.2) (fun _ _ => rfl) ?_
      fun hvalid _ => ?_
    · simpa [PcOk, Frees, State.goto, State.set] using hok
    · obtain ⟨htype, halloc, -⟩ := h.agrees_of_locked hok.2 (hfreed rfl) hvalid
      exact ⟨htype, halloc, (by rintro ⟨⟩)⟩
  | itruncUpdate i =>
    cases hs
    refine h.iupdate hok.2 (hnot i rfl) ?_ (.inl (hfreed rfl))
    simpa [PcOk, Frees, State.goto, State.iupdate, State.setDisk, State.set] using hok
  | untype i =>
    cases hs
    refine h.own (D := s.disk) (h.lock i p hok.2) (.inr hok.2) (hnot i rfl) (.inl rfl) rfl rfl
      (.inr hok.2) (fun hnone => by cases hnone.symm.trans hok.2) (fun _ _ => rfl) ?_
      fun _ hnot => absurd rfl hnot
    simpa [PcOk, Frees, State.goto, State.set] using hok
  | update i =>
    cases hs
    refine h.iupdate hok.2 ?_ ?_ (.inr rfl)
    · rw [hpc]
      rintro j ⟨⟩
      rfl
    · simpa [PcOk, Frees, State.goto, State.iupdate, State.setDisk, State.set] using hok
  | invalidate i =>
    cases hs
    refine h.own (D := s.disk) (h.lock i p hok.1.2) (.inr hok.1.2) ?_ (.inl rfl) rfl rfl
      (.inr hok.1.2) (fun _ => hok.2) (fun _ _ => rfl) ?_ (by rintro ⟨⟩)
    · rw [hpc]
      rintro j ⟨⟩
      rfl
    · simpa [PcOk, Frees, State.goto, State.set] using hok
  | release i =>
    cases hs
    refine h.own (D := s.disk) (h.lock i p hok.1.2) (.inr hok.1.2) (hnot i rfl) (.inl rfl) rfl rfl
      (.inl rfl) (fun _ => hok.2.1) (fun _ _ => rfl) ?_ fun hvalid _ =>
        by cases hvalid.symm.trans hok.2.2
    simpa [PcOk, Frees, State.goto, State.set] using hok.1.1
  | drop i =>
    rw [State.next, State.acquire] at hs
    split_ifs at hs with hitable
    cases hs
    exact h.dropRef (hfreed rfl) hitable hok.1 fun hlock => absurd hlock hok.2

end Inv

/-- **Every step keeps the invariant.** -/
theorem Inv.step {ninodes : ℕ} {x : ℕ × Act} (h : Inv s) (hd : Disciplined s x)
    (hs : step ninodes s x = .ok t) : Inv t := by
  obtain ⟨p, a⟩ := x
  rw [Itable.step.eq_def] at hs
  split at hs
  · exact h.next hs
  · split at hs
    · exact h.call ‹_› hd hs
    · cases hs

theorem inv_init (disk : ℕ × ℕ → Dinode) : Inv (State.init disk) where
  ref _ := rfl
  uniq _ _ hpos := absurd hpos (Nat.lt_irrefl 0)
  lock _ _ := (by rintro ⟨⟩)
  clean _ _ := rfl
  pc _ := trivial
  agrees _ hpos := absurd hpos (Nat.lt_irrefl 0)

/-- **The inode-table protocol.** Whatever processes do, no two entries in use are of the same
inode, `iput` finds the sleep lock free when it asks for it with `itable.lock`, and an entry that
is valid, in use and not locked is the inode on disk. -/
theorem inode_table {ninodes : ℕ} {disk : ℕ × ℕ → Dinode}
    (h : Run (step ninodes) Disciplined (State.init disk) s) :
    (∀ i j, 0 < (s.entry i).ref → 0 < (s.entry j).ref → (s.entry i).dev = (s.entry j).dev →
      (s.entry i).inum = (s.entry j).inum → i = j) ∧
    (∀ p i, s.pc p = .iput i → s.itable = some p ∧ (s.entry i).lock = none) ∧
    ∀ i, (s.entry i).valid = true → 0 < (s.entry i).ref → (s.entry i).lock = none →
      s.disk ((s.entry i).dev, (s.entry i).inum) = (s.entry i).copy := by
  have hinv : Inv s := h.invariant (inv_init disk) fun _ _ _ hs hd hstep => hs.step hd hstep
  refine ⟨fun i j hi hj hdev hinum => ?_, fun p i hpc => ?_, fun i hvalid hpos hlock => ?_⟩
  · exact hinv.uniq i j hi hj (Prod.ext hdev hinum)
  · have hok := hinv.pc p
    rw [hpc] at hok
    exact ⟨hok.2.2.2, hok.2.2.1⟩
  · refine (hinv.agrees i hpos hvalid fun p hp => ?_).2.2 (hinv.clean i hlock)
    cases hlock.symm.trans hp

/-- The first slot of the table. -/
def first : Slot := ⟨0, by decide⟩

/-- A disk with one inode, of a file without links. -/
def orphan : ℕ × ℕ → Dinode := fun x =>
  if x = (1, 1) then { Dinode.zero with type := .T_FILE } else Dinode.zero

/-- Process 0 frees inode 1. Before it has made its entry invalid, process 1 gets the inode from
`ialloc`, and then reads it. -/
def reallocation : List (ℕ × Act) :=
  [(0, .iget 1 1), (0, .ilock first), (0, .next), (0, .next), (0, .next), (0, .next),
    (0, .iunlock first), (0, .iput first), (0, .next), (0, .next), (0, .next), (0, .next),
    (0, .next),
    (1, .ialloc 1 .T_DIR), (1, .next), (1, .next), (1, .ilock first),
    (0, .next), (0, .next), (0, .next), (1, .next), (1, .next), (1, .next), (1, .next),
    (1, .iunlock first)]

/-- The state at the end. -/
def reallocated : State := (runList (step 200) (.init orphan) reallocation).getD (.init orphan)

theorem run_reallocation : Run (step 200) Disciplined (State.init orphan) reallocated :=
  .of_checkList (c := fun s x => decide (Disciplined s x)) (fun _ _ => of_decide_eq_true)
    (by decide +kernel) _

theorem inode_table_reallocated :
    Run (step 200) Disciplined (State.init orphan) reallocated ∧
      (reallocated.entry first).valid = true ∧ 0 < (reallocated.entry first).ref ∧
      (reallocated.entry first).lock = none ∧
      reallocated.disk ((reallocated.entry first).dev, (reallocated.entry first).inum) =
        (reallocated.entry first).copy := by
  have hvalid : (reallocated.entry first).valid = true := by decide +kernel
  have hpos : 0 < (reallocated.entry first).ref := by decide +kernel
  have hlock : (reallocated.entry first).lock = none := by decide +kernel
  exact ⟨run_reallocation, hvalid, hpos, hlock,
    (inode_table run_reallocation).2.2 first hvalid hpos hlock⟩

end Xv6.Itable
