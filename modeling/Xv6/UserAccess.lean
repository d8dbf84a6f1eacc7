import Xv6.ProcTable
import Xv6.UserCopy
import Xv6.UserRun

/-!
# Kernel copies and user accesses (`kernel/vm.c`, `kernel/trap.c`)

Whether a process may read or write an address is decided in two places: by
`copyin` and `copyout`, which look the address up with `walkaddr` and call
`vmfault` with the address of its page, and by the hardware with `usertrap`,
which calls `vmfault` with the address itself. `copyin_iff`, `copyout_iff` and
`userAccess_iff` say what each of them decides, in terms of the page table; they
agree but for the end of a size that is not a multiple of the page size
(`kernel_copies_agree`).
-/

namespace Xv6

open Prog

variable {s s' : KMem} {F : Multiset ℕ} {root tf sz va perm : ℕ}

attribute [local irreducible] leaf

/-! ## The hardware -/

/-- The entry the MMU finds for an address, which is a 39-bit number with its sign extended. -/
def translate (m : Bytes) (root va : ℕ) : Option ℕ :=
  if va < 2 ^ 38 ∨ WORD - 2 ^ 38 ≤ va then leaf m root (va / 4096 % 512 ^ 3) else none

/-- The MMU lets user code access an address, for reading (`PTE_R`) or writing (`PTE_W`). -/
def mmuAllows (m : Bytes) (root perm va : ℕ) : Bool :=
  (translate m root va).any fun e => e &&& PTE_U ≠ 0 ∧ e &&& perm ≠ 0

/-- A user-mode access: whether the instruction completes. Where the MMU does not allow it,
`usertrap` calls `vmfault`, and user code tries again or is killed. -/
def userAccess (me : Me) (perm va : ℕ) : VM Bool := do
  if mmuAllows (← get).mem me.pagetable perm va then
    return true
  else
    let r ← vmfault me me.pagetable va
    if r = 0 then
      return false
    else
      return mmuAllows (← get).mem me.pagetable perm va

/-! ## The state of a process -/

/-- A process of size `sz` with page table `root`; the pages `F` are free. -/
structure Ready (s : KMem) (F : Multiset ℕ) (root tf sz : ℕ) : Prop where
  chain : Chain s F
  sep : Sep s.kend (F + asPages s.mem root)
  space : AddrSpace s root tf sz

/-- The page of `va` is to be allocated when it is used. -/
def Lazy (m : Bytes) (root sz va : ℕ) : Prop :=
  PGROUNDDOWN va < sz ∧ leaf m root (va / 4096) = none

instance (m : Bytes) (root sz va : ℕ) : Decidable (Lazy m root sz va) :=
  inferInstanceAs (Decidable (_ ∧ _))

/-- The pages that an access to `va` may need: the page itself, and those that the page table does
not have yet. -/
def needed (m : Bytes) (root sz va : ℕ) : ℕ :=
  if Lazy m root sz va then 1 + missing m root (va / 4096) 2 else 0

theorem needed_eq {m : Bytes} (h : Lazy m root sz va) :
    needed m root sz va = 1 + missing m root (va / 4096) 2 :=
  if_pos h

theorem needed_le (m : Bytes) (root sz va : ℕ) : needed m root sz va ≤ 3 := by
  have hle : missing m root (va / 4096) 2 ≤ 2 := missing_le
  rw [needed]
  split <;> omega

/-- The page of `va` is mapped for user code, with `perm`. -/
def UserMapped (m : Bytes) (root perm va : ℕ) : Prop :=
  ∃ e, leaf m root (va / 4096) = some e ∧ e &&& PTE_U ≠ 0 ∧ e &&& perm ≠ 0

/-- A page that `vmfault` has mapped can be read and written. -/
theorem faulted_flags {r : ℕ} :
    let e := PA2PTE r ||| (PTE_W ||| PTE_U ||| PTE_R ||| PTE_V)
    e &&& PTE_U ≠ 0 ∧ e &&& PTE_R ≠ 0 ∧ e &&& PTE_W ≠ 0 :=
  ⟨flag_ne_zero (by decide), flag_ne_zero (by decide), flag_ne_zero (by decide)⟩

theorem lazy_of_lt {m : Bytes} (hlt : va < sz) (hnone : leaf m root (va / 4096) = none) :
    Lazy m root sz va :=
  ⟨(PGROUNDDOWN_le va).trans_lt hlt, hnone⟩

namespace Ready

/-- `vmfault` succeeds exactly where a page is to be allocated lazily, if there are pages for it. -/
theorem vmfault_iff (h : Ready s F root tf sz) (hroom : Room s.fails F (needed s.mem root sz va)) :
    Meets (vmfault ⟨sz, root⟩ root va) s (fun r s' =>
      r = 0 ∧ ¬(va < sz ∧ leaf s.mem root (va / 4096) = none) ∨
      r ≠ 0 ∧ va < sz ∧ leaf s.mem root (va / 4096) = none ∧
        (∀ p ∈ tables s'.mem root, IsPage s'.kend p) ∧ (∀ k < 4096, s'.mem (r + k) = 0) ∧
        leaf s'.mem root (va / 4096) =
          some (PA2PTE r ||| (PTE_W ||| PTE_U ||| PTE_R ||| PTE_V))) Never := by
  have hU := UPAGES_eq
  have hT := TRAPFRAME_eq
  have hsz := h.space.size
  refine (vmfault_spec h.chain h.sep h.space).imp ?_
  rintro r s' ⟨F', hstep, -, ⟨rfl, -, hmapped⟩ | ⟨hr, hlt, hnone, -, -, hzero, hleaf⟩⟩
  · refine .inl ⟨rfl, fun hva => hmapped ?_ hva.1 hva.2⟩
    rwa [needed_eq (lazy_of_lt hva.1 hva.2)] at hroom
  · refine .inr ⟨hr, hlt, hnone, (hstep.sep h.sep).tables.right.page, hzero, ?_⟩
    rw [hleaf _ (by omega), if_pos rfl]

/-- The address of a user page is not 0. -/
theorem userAddr_ne_zero (h : Ready s F root tf sz) {e : ℕ} (hva : va < MAXVA)
    (hl : leaf s.mem root (va / 4096) = some e) (hu : e &&& PTE_U ≠ 0) :
    userAddr s.mem root va ≠ 0 := by
  have hM : MAXVA = 2 ^ 38 := rfl
  have hlt := (h.space.user_lt (by omega) hl hu).1
  have hpos := (PTE2PA_page h.sep hlt hl).2.2.2
  rw [userAddr, if_neg (by omega), hl]
  dsimp only
  rw [if_neg hu]
  omega

theorem userAddr_eq_zero (hno : ∀ e, leaf s.mem root (va / 4096) = some e → e &&& PTE_U = 0) :
    userAddr s.mem root va = 0 := by
  unfold userAddr
  split
  · rfl
  · split
    · rename_i e he
      rw [if_pos (hno e he)]
    · rfl

/-- An address with a page below the size is one of user memory. -/
theorem lt_maxva (h : Ready s F root tf sz) (hva : va < sz) : va < MAXVA := by
  have hsz := h.space.size
  have hT : TRAPFRAME ≤ MAXVA := by decide
  omega

/-! ## What is decided -/

/-- **A user-mode access** completes if the page is mapped with the permission, or is below the size
of the process and not mapped at all. -/
theorem userAccess_iff (h : Ready s F root tf sz) (hva : va < WORD)
    (hroom : Room s.fails F (needed s.mem root sz va)) (hperm : perm = PTE_R ∨ perm = PTE_W) :
    Meets (userAccess ⟨sz, root⟩ perm va) s (fun r _ => r = true ↔
      va < MAXVA ∧ UserMapped s.mem root perm va ∨
        va < sz ∧ leaf s.mem root (va / 4096) = none) Never := by
  have hM : MAXVA = 2 ^ 38 := rfl
  have hU := UPAGES_eq
  have hW : WORD = 2 ^ 64 := rfl
  -- addresses at the other end are not mapped
  have hmmu : ∀ m, (∀ v < 512 ^ 3, UPAGES + 2 ≤ v → leaf m root v = none) →
      (mmuAllows m root perm va = true ↔ va < MAXVA ∧ UserMapped m root perm va) := by
    intro m habove
    rw [mmuAllows, translate]
    by_cases hlt : va < MAXVA
    · rw [if_pos (by omega), Nat.mod_eq_of_lt (by omega)]
      simp only [Option.any_eq_true, decide_eq_true_eq, hlt, true_and]
      rfl
    · simp only [hlt, false_and, iff_false, Bool.not_eq_true]
      split
      · rw [habove _ (Nat.mod_lt _ (by norm_num)) (by omega), Option.any_none]
      · rfl
  simp only [userAccess, meets_bind, meets_get]
  split
  · rename_i hallow
    rw [meets_pure, iff_true_left rfl]
    exact .inl ((hmmu _ h.space.above).mp hallow)
  · rename_i hallow
    rw [hmmu _ h.space.above] at hallow
    rw [meets_bind]
    refine (h.vmfault_iff hroom).imp ?_
    rintro r s' (⟨rfl, hno⟩ | ⟨hr, hlt, hnone, -, -, hleaf⟩)
    · rw [if_pos rfl, meets_pure]
      simp only [Bool.false_eq_true, false_iff, not_or]
      exact ⟨hallow, hno⟩
    · rw [if_neg hr]
      refine ⟨fun _ => .inr ⟨hlt, hnone⟩, fun _ => ?_⟩
      have hlt' := h.lt_maxva hlt
      rw [mmuAllows, translate, if_pos (by omega), Nat.mod_eq_of_lt (by omega), hleaf]
      simp only [Option.any_some, decide_eq_true_eq]
      obtain ⟨hu, hread, hwrite⟩ := faulted_flags (r := r)
      rcases hperm with rfl | rfl
      · exact ⟨hu, hread⟩
      · exact ⟨hu, hwrite⟩

/-- How `copyin` and `copyout` find the page of the address `va`. -/
theorem userPage_iff (h : Ready s F root tf sz)
    (hroom : Room s.fails F (needed s.mem root sz va)) :
    Meets (userPage ⟨sz, root⟩ root (PGROUNDDOWN va)) s (fun r s' =>
      r = 0 ∧ ¬Lazy s.mem root sz va ∧
        (∀ e, va < MAXVA → leaf s.mem root (va / 4096) = some e → e &&& PTE_U = 0) ∨
      r ≠ 0 ∧ PGROUNDDOWN va < MAXVA ∧ (∀ p ∈ tables s'.mem root, IsPage s'.kend p) ∧
        ∃ e, leaf s'.mem root (va / 4096) = some e ∧ e &&& PTE_U ≠ 0 ∧
          (leaf s.mem root (va / 4096) = some e ∨
            Lazy s.mem root sz va ∧ (∀ k < 4096, s'.mem (r + k) = 0) ∧ e &&& PTE_W ≠ 0)) Never := by
  have hM : MAXVA = 2 ^ 38 := rfl
  have hdown : PGROUNDDOWN va / 4096 = va / 4096 := by
    unfold PGROUNDDOWN PGSIZE
    omega
  have hiff : PGROUNDDOWN va < MAXVA ↔ va < MAXVA := by
    omega
  have hpages := h.sep.tables.right.page
  have hidem : PGROUNDDOWN (PGROUNDDOWN va) = PGROUNDDOWN va := by
    unfold PGROUNDDOWN PGSIZE
    omega
  have hlazy : Lazy s.mem root sz (PGROUNDDOWN va) ↔ Lazy s.mem root sz va := by
    rw [Lazy, hidem, hdown, Lazy]
  have hneeded : needed s.mem root sz (PGROUNDDOWN va) = needed s.mem root sz va := by
    rw [needed, needed, hdown]
    exact if_congr hlazy rfl rfl
  rw [userPage, meets_bind, meets_walkaddr hpages]
  split
  · rename_i hzero
    refine (h.vmfault_iff (by rwa [hneeded])).imp ?_
    rw [hdown]
    rintro r s' (⟨rfl, hno⟩ | ⟨hr, hlt, hnone, hpages', hzeros, hleaf⟩)
    · refine .inl ⟨rfl, hno, fun e hva hl => ?_⟩
      by_contra hu
      refine h.userAddr_ne_zero (hiff.mpr hva) ?_ hu hzero
      rw [hdown]
      exact hl
    · have hflags := faulted_flags (r := r)
      exact .inr ⟨hr, h.lt_maxva hlt, hpages', _, hleaf, hflags.1,
        .inr ⟨⟨hlt, hnone⟩, hzeros, hflags.2.2⟩⟩
  · rename_i hne
    refine .inr ⟨hne, ?_, hpages, ?_⟩
    · by_contra hge
      exact hne (by rw [userAddr, if_pos (by omega)])
    · by_contra hnone
      push Not at hnone
      refine hne (userAddr_eq_zero fun e he => ?_)
      rw [hdown] at he
      by_contra hu
      exact (hnone e he hu).1 he

/-- **A one-byte `copyin`** succeeds if the page is mapped for user code, or starts below the size of
the process and is not mapped at all. -/
theorem copyin_iff (h : Ready s F root tf sz) (hroom : Room s.fails F (needed s.mem root sz va)) :
    Meets (copyin ⟨sz, root⟩ root va 1) s (fun r _ => r.1 = 0 ↔
      va < MAXVA ∧ (∃ e, leaf s.mem root (va / 4096) = some e ∧ e &&& PTE_U ≠ 0) ∨
        Lazy s.mem root sz va) Never := by
  simp only [copyin, copyinLoop, one_ne_zero, if_false, meets_bind]
  refine (h.userPage_iff hroom).imp ?_
  rintro r s' (⟨rfl, hno, hu⟩ | ⟨hr, hlt, -, e, -, heu, hor⟩)
  · rw [if_pos rfl, meets_pure]
    simp only [Int.reduceNeg, neg_eq_zero, one_ne_zero, false_iff, not_or]
    refine ⟨?_, hno⟩
    rintro ⟨hva, e, he, hne⟩
    exact hne (hu e hva he)
  · rw [if_neg hr]
    simp only [meets_bind, meets_get, meets_pure, true_iff]
    rcases hor with hl | hl
    · refine .inl ⟨?_, e, hl, heu⟩
      unfold PGROUNDDOWN PGSIZE MAXVA at hlt
      unfold MAXVA
      omega
    · exact .inr hl.1

/-- **A one-byte `copyout`** succeeds if the page is mapped for user code and writable, or starts
below the size of the process and is not mapped at all. -/
theorem copyout_iff (h : Ready s F root tf sz) (hroom : Room s.fails F (needed s.mem root sz va))
    (b : UInt8) :
    Meets (copyout ⟨sz, root⟩ root va [b]) s (fun r _ => r = 0 ↔
      va < MAXVA ∧ UserMapped s.mem root PTE_W va ∨ Lazy s.mem root sz va) Never := by
  have hM : MAXVA = 2 ^ 38 := rfl
  have hdown : PGROUNDDOWN va / 4096 = va / 4096 := by
    unfold PGROUNDDOWN PGSIZE
    omega
  have hiff : PGROUNDDOWN va < MAXVA ↔ va < MAXVA := by
    unfold PGROUNDDOWN PGSIZE
    omega
  simp only [copyout, List.length_singleton, copyoutLoop, one_ne_zero, if_false]
  split
  · rename_i hge
    rw [meets_pure]
    simp only [Int.reduceNeg, neg_eq_zero, one_ne_zero, false_iff, not_or]
    exact ⟨fun hva => absurd hva.1 (by omega), fun hva => absurd (h.lt_maxva hva.1) (by omega)⟩
  rw [meets_bind]
  refine (h.userPage_iff hroom).imp ?_
  rintro r s' (⟨rfl, hno, hu⟩ | ⟨hr, hlt, hpages, e, hl, heu, hor⟩)
  · rw [if_pos rfl, meets_pure]
    simp only [Int.reduceNeg, neg_eq_zero, one_ne_zero, false_iff, not_or]
    refine ⟨?_, hno⟩
    rintro ⟨hva, e, he, hne, -⟩
    exact hne (hu e hva he)
  rw [if_neg hr, meets_bind, meets_walk hlt]
  -- the entry `walk` finds is the one of the page
  have hentry : getLE 8 s'.mem (slot s'.mem root (PGROUNDDOWN va / 4096)) = e := by
    rw [hdown]
    exact entry_of_leaf hpages (by omega) hl
  simp only [VM.load, meets_bind, meets_get, meets_pure, hentry]
  split
  · rename_i hw
    rw [meets_pure]
    simp only [Int.reduceNeg, neg_eq_zero, one_ne_zero, false_iff, not_or]
    rcases hor with hl₀ | ⟨-, -, hw'⟩
    · refine ⟨?_, fun hlazy => ?_⟩
      · rintro ⟨-, e', hl', -, hne⟩
        rw [hl₀] at hl'
        exact hne (Option.some.inj hl' ▸ hw)
      · exact absurd (hl₀.symm.trans hlazy.2) (by simp)
    · exact absurd hw hw'
  · rename_i hw
    simp only [meets_bind, meets_modify, meets_pure, true_iff]
    rcases hor with hl₀ | ⟨hlazy, -⟩
    · exact .inl ⟨hiff.mp hlt, e, hl₀, heu, hw⟩
    · exact .inr hlazy

end Ready

/-! ## The two rules -/

/-- The code comes to an end with a result that satisfies `ok`. -/
def Gives {α : Type} (x : VM α) (s : KMem) (ok : α → Prop) : Prop := ∃ a t, x s = .ok (a, t) ∧ ok a

theorem gives_iff_meets {α : Type} {x : VM α} {ok : α → Prop} :
    Gives x s ok ↔ Meets x s (fun a _ => ok a) Never := by
  constructor
  · rintro ⟨a, t, hx, hok⟩
    exact (meets_of_ok hx).mpr hok
  · intro h
    obtain ⟨a, t, hx, hok⟩ := h.exists_ok fun _ => id
    exact ⟨a, t, hx, hok⟩

theorem gives_iff {α : Type} {x : VM α} {ok : α → Prop} {P : Prop}
    (h : Meets x s (fun a _ => ok a ↔ P) Never) : Gives x s ok ↔ P := by
  rcases hx : x s with ⟨a, t⟩ | _ | msg
  · have hP := h.of_ok hx
    refine ⟨fun ⟨b, u, hb, hok⟩ => ?_, fun hp => ⟨a, t, hx, hP.mpr hp⟩⟩
    rw [hx] at hb
    cases hb
    exact hP.mp hok
  · unfold Meets at h
    rw [hx] at h
    exact h.elim
  · exact (h.of_panic hx).elim

/-- `va` is in the page in which the size of the process ends, but not below the size. -/
def PastEnd (sz va : ℕ) : Prop := PGROUNDDOWN va < sz ∧ sz ≤ va

/-- **The kernel's copies and user code obey the same rule**, with the pages for what may have to be
allocated: a one-byte `copyin` succeeds exactly if a user load completes, and a one-byte `copyout`
exactly if a user store does. This is so everywhere except past the end of a size that is not a
multiple of the page size, in a page that is not mapped yet, and there it is not. -/
theorem kernel_copies_agree (h : Ready s F root tf sz)
    (hroom : Room s.fails F (needed s.mem root sz va)) (hva : va < WORD) (b : UInt8) :
    ((Gives (copyin ⟨sz, root⟩ root va 1) s (fun r => r.1 = 0) ↔
        Gives (userAccess ⟨sz, root⟩ PTE_R va) s (fun r => r = true)) ∧
      (Gives (copyout ⟨sz, root⟩ root va [b]) s (fun r => r = 0) ↔
        Gives (userAccess ⟨sz, root⟩ PTE_W va) s (fun r => r = true))) ↔
    (PastEnd sz va → leaf s.mem root (va / 4096) ≠ none) := by
  have hM : MAXVA = 2 ^ 38 := rfl
  rw [gives_iff (h.copyin_iff hroom), gives_iff (h.copyout_iff hroom b),
    gives_iff (h.userAccess_iff hva hroom (.inl rfl)),
    gives_iff (h.userAccess_iff hva hroom (.inr rfl))]
  constructor
  · rintro ⟨hload, -⟩ hend hnone
    rcases hload.mp (.inr ⟨hend.1, hnone⟩) with ⟨-, e, he, -⟩ | ⟨hlt, -⟩
    · exact absurd (he.symm.trans hnone) (by simp)
    · exact absurd hlt (Nat.not_lt.mpr hend.2)
  · intro hend
    have hlazy : Lazy s.mem root sz va ↔ va < sz ∧ leaf s.mem root (va / 4096) = none := by
      refine ⟨fun hl => ⟨?_, hl.2⟩, fun hl => lazy_of_lt hl.1 hl.2⟩
      by_contra hge
      exact hend ⟨hl.1, Nat.le_of_not_lt hge⟩ hl.2
    rw [hlazy]
    refine ⟨or_congr_left (and_congr_right fun hlt => ?_), Iff.rfl⟩
    constructor
    · rintro ⟨e, hl, hu⟩
      exact ⟨e, hl, hu, h.space.readable _ (h.space.user_lt (by omega) hl hu).1 e hl⟩
    · rintro ⟨e, hl, hu, -⟩
      exact ⟨e, hl, hu⟩

/-! ## Past the end -/

open UserSys

/-- A machine with twelve pages besides the kernel. -/
def twelvePages : KMem where
  mem := fun _ => 0
  freelist := 0
  fails := []
  kend := PHYSTOP - 12 * PGSIZE
  trampoline := KERNBASE

/-- The memory of a process: its trapframe and its page table, with `n` bytes of which `text` are the
first. -/
def newSpace (n : ℕ) (text : List UInt8) : VM (ℕ × ℕ) := do
  kinit
  let tf ← kalloc
  let root ← proc_pagetable tf
  if root ≠ 0 then
    let _ ← uvmalloc root 0 n PTE_W
    let _ ← copyout ⟨n, root⟩ root 0 text
  return (tf, root)

/-- Are there three free pages? -/
def threePages : VM Bool := do
  let a ← kalloc
  let b ← kalloc
  let c ← kalloc
  return a != 0 && b != 0 && c != 0

theorem threePages_spec (hc : Chain s F) (hsep : Sep s.kend F) :
    Meets threePages s (fun r _ => r = true → 3 ≤ Multiset.card F) Never := by
  rw [threePages, meets_bind]
  refine (kalloc_spec hc hsep).imp ?_
  rintro a s₁ (⟨rfl, hc₁, ht₁⟩ | ⟨-, F₁, rfl, hc₁, ht₁⟩)
  · rw [meets_bind]
    refine (kalloc_spec hc₁ (ht₁.kend ▸ hsep)).imp ?_
    rintro b s₂ (⟨-, hc₂, ht₂⟩ | ⟨-, F₂, rfl, hc₂, ht₂⟩) <;> rw [meets_bind]
    · refine (kalloc_spec hc₂ (ht₂.kend ▸ ht₁.kend ▸ hsep)).imp ?_
      simp
    · rw [← Multiset.singleton_add] at hsep
      refine (kalloc_spec hc₂ (ht₂.kend ▸ ht₁.kend ▸ hsep.right)).imp ?_
      simp
  · rw [← Multiset.singleton_add] at hsep
    have hsep₁ : Sep s₁.kend F₁ := ht₁.kend ▸ hsep.right
    rw [meets_bind]
    refine (kalloc_spec hc₁ hsep₁).imp ?_
    rintro b s₂ (⟨rfl, hc₂, ht₂⟩ | ⟨-, F₂, rfl, hc₂, ht₂⟩) <;> rw [meets_bind]
    · refine (kalloc_spec hc₂ (ht₂.kend ▸ hsep₁)).imp ?_
      simp
    · rw [← Multiset.singleton_add] at hsep₁
      refine (kalloc_spec hc₂ (ht₂.kend ▸ hsep₁.right)).imp ?_
      rintro c s₃ (⟨rfl, -⟩ | ⟨-, F₃, rfl, -⟩)
      · simp
      · rw [meets_pure]
        intro _
        simp only [Multiset.card_cons]
        omega

theorem newSpace_spec {n : ℕ} {text : List UInt8} (hl : Layout s.kend s.trampoline)
    (hfl : s.freelist = 0) (htr : s.trampoline < WORD) (hn : n ≤ TRAPFRAME) :
    Meets (newSpace n text) s (fun r s => r.2 ≠ 0 → ∃ F, Ready s F r.2 r.1 n) Never := by
  rw [newSpace, meets_bind]
  refine (kinit_spec hl hfl).imp ?_
  rintro _ s₁ ⟨hc₁, hk₁, htr₁⟩
  have hsep₁ : Sep s₁.kend (allPages s.kend) := by
    rw [hk₁]
    exact sep_allPages hl
  rw [← htr₁] at htr
  rw [meets_bind]
  refine (kalloc_spec hc₁ hsep₁).imp ?_
  intro tf s₂ h₂
  -- whether or not there is a page for the trapframe
  obtain ⟨F₂, hc₂, hsep₂, htf, htr₂⟩ : ∃ F₂, Chain s₂ F₂ ∧ Sep s₂.kend F₂ ∧ tf < WORD ∧
      s₂.trampoline < WORD := by
    rcases h₂ with ⟨rfl, hc₂, ht⟩ | ⟨-, F₂, hF₂, hc₂, ht⟩
    · exact ⟨_, hc₂, ht.kend ▸ hsep₁, by decide, ht.trampoline ▸ htr⟩
    · have hpage := hsep₁.page tf (by rw [hF₂]; simp)
      rw [hF₂, ← Multiset.singleton_add] at hsep₁
      exact ⟨F₂, hc₂, ht.kend ▸ hsep₁.right, hpage.lt_word, ht.trampoline ▸ htr⟩
  rw [meets_bind]
  refine (proc_pagetable_spec hc₂ hsep₂ htf htr₂).imp ?_
  rintro root s₃ ⟨F₃, hc₃, ht₃, ⟨rfl, -⟩ | ⟨hroot, hsum, h₃⟩⟩
  · rw [if_neg (not_not.mpr rfl)]
    simp
  have hsep₃ : Sep s₃.kend (F₃ + asPages s₃.mem root) := by
    rw [hsum, ht₃.kend]
    exact hsep₂
  rw [if_pos hroot]
  simp only [meets_bind]
  refine (uvmalloc_spec hc₃ hsep₃ h₃.ok h₃.size (Nat.zero_le n) (by decide)
    (fun w h1 h2 => h₃.below w h2 h1) (by rw [h₃.trapframe]; simp)).mono ?_ ?_
  · rintro r s₄ ⟨F₄, hstep, hr⟩
    have h₄ : AddrSpace s₄ root tf n := by
      rcases hr with ⟨-, -, hmap⟩ | ⟨-, hleaf⟩
      · exact h₃.mapped hstep (Nat.zero_le n) hn hmap
      · exact (h₃.same hstep hleaf).widen (Nat.zero_le n) hn
    refine (copyout_spec hstep.chain (hstep.sep hsep₃) h₄).imp ?_
    rintro _ s₅ ⟨F₅, hstep', h₅⟩
    exact fun _ => ⟨F₅, hstep'.chain, hstep'.sep (hstep.sep hsep₃), h₅⟩
  · rintro msg ⟨-, hlt, -⟩
    omega

/-- The memory of a process on the small machine, if it could be allocated with pages to spare: the
machine, the page table and the trapframe. -/
def smallSpace (n : ℕ) (text : List UInt8) : Option (KMem × ℕ × ℕ) :=
  match newSpace n text twelvePages with
  | .ok ((tf, root), s) =>
    match threePages s with
    | .ok (three, _) => if three ∧ root ≠ 0 ∧ s.fails = [] then some (s, root, tf) else none
    | _ => none
  | _ => none

section

attribute [local irreducible] newSpace threePages

/-- The process may have grown lazily since, up to `sz`. -/
theorem ready_smallSpace {n : ℕ} {text : List UInt8} (hs : smallSpace n text = some (s, root, tf))
    (hn : n ≤ sz) (hsz : sz ≤ TRAPFRAME) : ∃ F, Ready s F root tf sz ∧ Room s.fails F 3 ∧
      ∀ v < UPAGES, npages n ≤ v → leaf s.mem root v = none := by
  unfold smallSpace at hs
  split at hs
  · rename_i tf' root' s' hnew
    split at hs
    · rename_i three t hthree
      split_ifs at hs with hok
      obtain ⟨rfl, rfl, rfl⟩ : s' = s ∧ root' = root ∧ tf' = tf := by simpa using hs
      have hlayout : Layout twelvePages.kend twelvePages.trampoline :=
        ⟨by decide, by decide, by decide⟩
      obtain ⟨F, h⟩ := (newSpace_spec hlayout rfl (by decide) (hn.trans hsz)).of_ok hnew hok.2.1
      refine ⟨F, ⟨h.chain, h.sep, h.space.widen hn hsz⟩, ?_, h.space.below⟩
      rw [hok.2.2, room_nil]
      exact (threePages_spec h.chain h.sep.left).of_ok hthree hok.1
    · cases hs
  · cases hs

end

theorem smallSpace_nil : (smallSpace 0 []).isSome = true := by decide +kernel

theorem smallSpace_page : (smallSpace 4096 [108, 115, 0]).isSome = true := by decide +kernel

/-- The rule at a byte of a page that is mapped, and at one that is not. -/
theorem kernel_copies_agree_two : ∃ s F root tf, Ready s F root tf 8192 ∧
    leaf s.mem root (5000 / 4096) = none ∧
    ∀ va ∈ [5, 5000], (Gives (copyin ⟨8192, root⟩ root va 1) s (fun r => r.1 = 0) ↔
        Gives (userAccess ⟨8192, root⟩ PTE_R va) s (fun r => r = true)) ∧
      (Gives (copyout ⟨8192, root⟩ root va [7]) s (fun r => r = 0) ↔
        Gives (userAccess ⟨8192, root⟩ PTE_W va) s (fun r => r = true)) := by
  obtain ⟨⟨s, root, tf⟩, hs⟩ := Option.isSome_iff_exists.mp smallSpace_page
  obtain ⟨F, h, hroom, hnone⟩ := @ready_smallSpace _ _ _ 8192 _ _ hs (by decide) (by decide)
  refine ⟨s, F, root, tf, h, hnone _ (by decide) (by decide), fun va hva => ?_⟩
  have hlt : va < 8192 := by
    rcases List.mem_pair.mp hva with rfl | rfl <;> decide
  have hW : 8192 < WORD := by decide
  exact (kernel_copies_agree h (hroom.mono (needed_le ..)) (hlt.trans hW) 7).mpr fun hend =>
    absurd hend.2 (Nat.not_le.mpr hlt)

/-- The byte after the one of a process: the kernel may read and write it, user code may not. -/
theorem copies_past_end : ∃ s F root tf, Ready s F root tf 1 ∧
    Room s.fails F (needed s.mem root 1 1) ∧
    Gives (copyin ⟨1, root⟩ root 1 1) s (fun r => r.1 = 0) ∧
    ¬Gives (userAccess ⟨1, root⟩ PTE_R 1) s (fun r => r = true) ∧
    Gives (copyout ⟨1, root⟩ root 1 [7]) s (fun r => r = 0) ∧
    ¬Gives (userAccess ⟨1, root⟩ PTE_W 1) s (fun r => r = true) := by
  obtain ⟨⟨s, root, tf⟩, hs⟩ := Option.isSome_iff_exists.mp smallSpace_nil
  obtain ⟨F, h, hroom, hnone⟩ := @ready_smallSpace _ _ _ 1 _ _ hs (by decide) (by decide)
  have hleaf : leaf s.mem root (1 / 4096) = none := hnone _ (by decide) (by decide)
  have hlazy : Lazy s.mem root 1 1 := ⟨by decide, hleaf⟩
  have hroom₁ : Room s.fails F (needed s.mem root 1 1) := hroom.mono (needed_le ..)
  have hno : ∀ perm, ¬(1 < MAXVA ∧ UserMapped s.mem root perm 1 ∨
      1 < 1 ∧ leaf s.mem root (1 / 4096) = none) := by
    rintro perm (⟨-, e, he, -⟩ | ⟨hlt, -⟩)
    · rw [hleaf] at he
      cases he
    · exact absurd hlt (Nat.lt_irrefl 1)
  refine ⟨s, F, root, tf, h, hroom₁, ?_, ?_, ?_, ?_⟩
  · exact (gives_iff (h.copyin_iff hroom₁)).mpr (.inr hlazy)
  · rw [gives_iff (h.userAccess_iff (by decide) hroom₁ (.inl rfl))]
    exact hno PTE_R
  · exact (gives_iff (h.copyout_iff hroom₁ 7)).mpr (.inr hlazy)
  · rw [gives_iff (h.userAccess_iff (by decide) hroom₁ (.inr rfl))]
    exact hno PTE_W

end Xv6
