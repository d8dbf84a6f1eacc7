import Xv6.UserAccess

/-!
# Strings from user memory (`kernel/vm.c`)

`copyinstr` reads a string page by page, `copyin` bytes wherever they are. Both
are brought down to reading single bytes: `stringFrom` is what `copyinstr` finds
(`meets_copyinstr`), `bytesFrom` what one-byte `copyin`s return up to a page that
is still to be allocated (`gives_copyinBytes`). `copyinstr` does not allocate a
page, as `copyin` does, and the two agree exactly if the string does not run into
such a page (`copyinstr_agrees`).
-/

namespace Xv6

open Prog

variable {s : KMem} {F : Multiset ℕ} {root tf sz va x : ℕ} {E : String → Prop}

attribute [local irreducible] leaf

/-! ## Bytes and strings -/

section

variable (g : ℕ → Option UInt8)

/-- The string at `x`, of `max` bytes at most: whether it ends there, and its bytes. -/
def stringFrom : ℕ → ℕ → ℤ × List UInt8
  | 0, _ => (-1, [])
  | max + 1, x =>
    match g x with
    | none => (-1, [])
    | some b =>
      if b = 0 then (0, [0])
      else ((stringFrom max (x + 1)).1, b :: (stringFrom max (x + 1)).2)

/-- The `n` bytes at `x`, if all of them can be read. -/
def bytesFrom : ℕ → ℕ → Option (List UInt8)
  | 0, _ => some []
  | n + 1, x => (g x).bind fun b => (bytesFrom n (x + 1)).map (b :: ·)

end

/-- The last byte is the first that is 0. -/
def EndsAtNul (l : List UInt8) : Prop := ∃ str, l = str ++ [0] ∧ 0 ∉ str

theorem endsAtNul_cons {b : UInt8} {l : List UInt8} :
    EndsAtNul (b :: l) ↔ b = 0 ∧ l = [] ∨ b ≠ 0 ∧ EndsAtNul l := by
  constructor
  · rintro ⟨_ | ⟨c, str⟩, heq, hnot⟩
    · cases heq
      exact .inl ⟨rfl, rfl⟩
    · cases heq
      rw [List.mem_cons, not_or] at hnot
      exact .inr ⟨Ne.symm hnot.1, str, rfl, hnot.2⟩
  · rintro (⟨rfl, rfl⟩ | ⟨hb, str, rfl, hnot⟩)
    · exact ⟨[], rfl, List.not_mem_nil⟩
    · exact ⟨b :: str, rfl, by simp [hnot, Ne.symm hb]⟩

/-- A string that is there is found. -/
theorem stringFrom_of_bytes {g : ℕ → Option UInt8} {k max : ℕ} {l : List UInt8} (hk : k < max)
    (hl : bytesFrom g (k + 1) x = some l) (hnul : EndsAtNul l) : stringFrom g max x = (0, l) := by
  induction max generalizing k x l with
  | zero => exact absurd hk (Nat.not_lt_zero k)
  | succ max ih =>
    rw [bytesFrom, Option.bind_eq_some_iff] at hl
    obtain ⟨b, hb, hl⟩ := hl
    rw [Option.map_eq_some_iff] at hl
    obtain ⟨l', hl', rfl⟩ := hl
    rw [stringFrom, hb]
    dsimp only
    rcases endsAtNul_cons.mp hnul with ⟨rfl, rfl⟩ | ⟨hb0, hnul'⟩
    · rw [if_pos rfl]
    · rw [if_neg hb0]
      -- the null is further on
      rcases k with _ | k
      · cases hl'
        obtain ⟨str, hstr, -⟩ := hnul'
        exact absurd hstr (by simp)
      · rw [ih (by omega) hl' hnul']

/-- A string that is found is there. -/
theorem bytes_of_stringFrom {g : ℕ → Option UInt8} {max : ℕ} (h : (stringFrom g max x).1 = 0) :
    ∃ k < max, bytesFrom g (k + 1) x = some (stringFrom g max x).2 ∧
      EndsAtNul (stringFrom g max x).2 := by
  induction max generalizing x with
  | zero => cases h
  | succ max ih =>
    rw [stringFrom] at h ⊢
    rcases hg : g x with _ | b
    · rw [hg] at h
      cases h
    · rw [hg] at h
      dsimp only at h ⊢
      by_cases hb : b = 0
      · subst hb
        refine ⟨0, Nat.succ_pos _, ?_, endsAtNul_cons.mpr (.inl ⟨rfl, rfl⟩)⟩
        rw [bytesFrom, hg]
        rfl
      · rw [if_neg hb] at h ⊢
        obtain ⟨k, hk, hbytes, hnul⟩ := ih h
        refine ⟨k + 1, by omega, ?_, endsAtNul_cons.mpr (.inr ⟨hb, hnul⟩)⟩
        rw [bytesFrom, hg, Option.bind_some, hbytes]
        rfl

theorem stringFrom_length (g : ℕ → Option UInt8) (max x : ℕ) :
    (stringFrom g max x).2.length ≤ max := by
  induction max generalizing x with
  | zero => exact le_rfl
  | succ max ih =>
    rw [stringFrom]
    split
    · exact Nat.zero_le _
    · split
      · exact Nat.succ_le_succ (Nat.zero_le _)
      · exact Nat.succ_le_succ (ih (x + 1))

/-! ## `copyinstr` -/

/-- The byte of user memory at `x`. -/
def userByte (m : Bytes) (root x : ℕ) : Option UInt8 :=
  let pa0 := userAddr m root (PGROUNDDOWN x)
  if pa0 = 0 then none else some (m (pa0 + (x - PGROUNDDOWN x)))

/-- The rest of a page: the string ends there, or goes on after it. -/
theorem stringFrom_page {g : ℕ → Option UInt8} {m : Bytes} {n max p : ℕ} (hn : n ≤ max)
    (hg : ∀ i < n, g (x + i) = some (m (p + i))) :
    stringFrom g max x = if (copyinstrPage m n p).2 then (0, (copyinstrPage m n p).1)
      else ((stringFrom g (max - n) (x + n)).1,
        (copyinstrPage m n p).1 ++ (stringFrom g (max - n) (x + n)).2) := by
  induction n generalizing max x p with
  | zero => rfl
  | succ n ih =>
    obtain ⟨max, rfl⟩ : ∃ k, max = k + 1 := ⟨max - 1, by omega⟩
    have h0 := hg 0 (Nat.succ_pos n)
    rw [Nat.add_zero, Nat.add_zero] at h0
    rw [stringFrom, h0, copyinstrPage]
    dsimp only
    by_cases hb : m p = 0
    · rw [if_pos hb, if_pos hb]
      rfl
    · have hrest := @ih (x + 1) max (p + 1) (by omega) fun i hi => by
        have := hg (i + 1) (by omega)
        rwa [Nat.add_comm i 1, ← Nat.add_assoc, ← Nat.add_assoc] at this
      rw [if_neg hb, if_neg hb, hrest, Nat.add_sub_add_right, Nat.add_right_comm x 1 n,
        Nat.add_assoc x n 1]
      split <;> rfl

theorem meets_copyinstrLoop {fuel max : ℕ} {dst : List UInt8} {Q : ℤ × List UInt8 → KMem → Prop}
    (hpage : ∀ p ∈ tables s.mem root, IsPage s.kend p) (hfuel : max ≤ fuel) :
    Meets (copyinstrLoop root fuel va max dst) s Q E ↔
      Q ((stringFrom (userByte s.mem root) max va).1,
        dst ++ (stringFrom (userByte s.mem root) max va).2) s := by
  induction fuel generalizing va max dst with
  | zero =>
    obtain rfl : max = 0 := by omega
    rw [copyinstrLoop, meets_pure, stringFrom, List.append_nil]
  | succ fuel ih =>
    rw [copyinstrLoop]
    split
    · rename_i h0
      rw [meets_pure, h0, stringFrom, List.append_nil]
    obtain ⟨max, rfl⟩ : ∃ k, max = k + 1 := ⟨max - 1, by omega⟩
    rw [meets_bind, meets_walkaddr hpage]
    by_cases hz : userAddr s.mem root (PGROUNDDOWN va) = 0
    · have hnone : userByte s.mem root va = none := by
        exact if_pos hz
      rw [if_pos hz, meets_pure, stringFrom, hnone, List.append_nil]
    have hM : MAXVA = 2 ^ 38 := rfl
    have hlt : PGROUNDDOWN va < MAXVA := by
      by_contra hge
      exact hz (by rw [userAddr, if_pos (by omega)])
    have hdown : ∀ i, va - PGROUNDDOWN va + i < PGSIZE → PGROUNDDOWN (va + i) = PGROUNDDOWN va := by
      intro i hi
      unfold PGROUNDDOWN PGSIZE at hi ⊢
      omega
    have hle := PGROUNDDOWN_le va
    have hoff : va - PGROUNDDOWN va < PGSIZE := by
      unfold PGROUNDDOWN PGSIZE
      omega
    rw [if_neg hz]
    simp only [meets_bind, meets_get]
    generalize hn : min (PGSIZE - (va - PGROUNDDOWN va)) (max + 1) = n
    -- the bytes of this page
    have hbyte : ∀ i < n, userByte s.mem root (va + i) =
        some (s.mem (userAddr s.mem root (PGROUNDDOWN va) + (va - PGROUNDDOWN va) + i)) := by
      intro i hi
      have hsub : va + i - PGROUNDDOWN va = va - PGROUNDDOWN va + i := by omega
      rw [userByte, hdown i (by omega), hsub, Nat.add_assoc]
      exact if_neg hz
    rw [stringFrom_page (by omega) hbyte]
    split
    · rw [meets_pure]
    · rw [ih (by unfold PGSIZE at hn hoff; omega), List.append_assoc]
      -- the next page, or there is no room left
      have hnext : stringFrom (userByte s.mem root) (max + 1 - n) ((PGROUNDDOWN va + PGSIZE) % WORD) =
          stringFrom (userByte s.mem root) (max + 1 - n) (va + n) := by
        rcases Nat.eq_zero_or_pos (max + 1 - n) with hzero | hpos
        · rw [hzero, stringFrom, stringFrom]
        · have hW : WORD = 2 ^ 64 := rfl
          have hP : PGSIZE = 4096 := rfl
          have haddr : (PGROUNDDOWN va + PGSIZE) % WORD = va + n := by
            rw [Nat.mod_eq_of_lt (by omega)]
            omega
          rw [haddr]
      rw [hnext]

theorem meets_copyinstr {max : ℕ} {Q : ℤ × List UInt8 → KMem → Prop}
    (hpage : ∀ p ∈ tables s.mem root, IsPage s.kend p) :
    Meets (copyinstr root va max) s Q E ↔ Q (stringFrom (userByte s.mem root) max va) s := by
  rw [copyinstr, meets_copyinstrLoop hpage le_rfl]
  rfl

/-! ## `copyin`, byte by byte -/

/-- Read `n` bytes with `copyin`, one at a time. -/
def copyinBytes (me : Me) (root : ℕ) : ℕ → ℕ → VM (Option (List UInt8))
  | 0, _ => return some []
  | n + 1, x => do
    let (r, bytes) ← copyin me root x 1
    if r ≠ 0 then
      return none
    else
      return (← copyinBytes me root n (x + 1)).map (bytes ++ ·)

/-- A one-byte `copyin`, where no page is to be allocated. -/
theorem meets_copyin_one {Q : ℤ × List UInt8 → KMem → Prop} (h : Ready s F root tf sz)
    (hlazy : ¬Lazy s.mem root sz x) :
    Meets (copyin ⟨sz, root⟩ root x 1) s Q E ↔
      Q (match userByte s.mem root x with | some b => (0, [b]) | none => (-1, [])) s := by
  have hdown : PGROUNDDOWN x / 4096 = x / 4096 := by
    unfold PGROUNDDOWN PGSIZE
    omega
  simp only [copyin, copyinLoop, one_ne_zero, if_false, meets_bind, userPage]
  rw [meets_walkaddr h.sep.tables.right.page]
  by_cases hz : userAddr s.mem root (PGROUNDDOWN x) = 0
  · have hnone : userByte s.mem root x = none := by
      exact if_pos hz
    -- there is nothing for `vmfault` to do
    have hfault : Meets (vmfault ⟨sz, root⟩ root (PGROUNDDOWN x)) s
        (fun r t => r = 0 ∧ t = s) Never := by
      rw [vmfault]
      split
      · rw [meets_pure]
        exact ⟨rfl, rfl⟩
      · rename_i hsz
        have hidem : PGROUNDDOWN (PGROUNDDOWN x) = PGROUNDDOWN x := by
          unfold PGROUNDDOWN PGSIZE
          omega
        have hmapped : leaf s.mem root (x / 4096) ≠ none := fun hnone =>
          hlazy ⟨Nat.lt_of_not_le hsz, hnone⟩
        rw [meets_bind, hidem, meets_ismapped (h.lt_maxva (Nat.lt_of_not_le hsz))
          h.sep.tables.right.page, hdown, if_pos (Option.isSome_iff_ne_none.mpr hmapped), meets_pure]
        exact ⟨rfl, rfl⟩
    obtain ⟨r, t, hr, rfl, rfl⟩ := hfault.exists_ok fun _ => id
    rw [if_pos hz, hnone, meets_of_ok hr, if_pos rfl, meets_pure]
  · have hsome : userByte s.mem root x =
        some (s.mem (userAddr s.mem root (PGROUNDDOWN x) + (x - PGROUNDDOWN x))) := by
      exact if_neg hz
    have hone : min (PGSIZE - (x - PGROUNDDOWN x)) 1 = 1 := by
      unfold PGROUNDDOWN PGSIZE
      omega
    rw [if_neg hz, meets_pure, if_neg hz, hsome]
    simp only [meets_bind, meets_get, meets_pure, hone, getBytes, List.range_one, List.map_cons,
      List.map_nil, Nat.add_zero, List.nil_append]

/-- A one-byte `copyin` from a page that it has to allocate. -/
theorem copyin_lazy (h : Ready s F root tf sz) (hroom : Room s.fails F (needed s.mem root sz x))
    (hlazy : Lazy s.mem root sz x) :
    Meets (copyin ⟨sz, root⟩ root x 1) s (fun r _ => r = (0, [0])) Never := by
  simp only [copyin, copyinLoop, one_ne_zero, if_false, meets_bind]
  refine (h.userPage_iff hroom).imp ?_
  rintro r s' (⟨-, hno, -⟩ | ⟨hr, -, -, e, -, -, hl | ⟨-, hzero, -⟩⟩)
  · exact absurd hlazy hno
  · exact absurd (hl.symm.trans hlazy.2) (by simp)
  · have hoff : x - PGROUNDDOWN x < 4096 := by
      unfold PGROUNDDOWN PGSIZE
      omega
    have hone : min (PGSIZE - (x - PGROUNDDOWN x)) 1 = 1 := by
      unfold PGSIZE
      omega
    rw [if_neg hr]
    simp only [meets_bind, meets_get, meets_pure, hone, getBytes, List.range_one, List.map_cons,
      List.map_nil, Nat.add_zero, List.nil_append, hzero _ hoff]

/-- What a one-byte `copyin` keeps. -/
theorem copyin_one_keeps (h : Ready s F root tf sz) :
    Meets (copyin ⟨sz, root⟩ root x 1) s (fun r s' => (r.1 = 0 → r.2.length = 1) ∧
      ∃ F', Ready s' F' root tf sz) Never := by
  simp only [copyin, copyinLoop, one_ne_zero, if_false, meets_bind]
  refine (userPage_spec h.chain h.sep h.space).imp ?_
  rintro pa s' ⟨F', hstep, h', -⟩
  have hready : Ready s' F' root tf sz := ⟨hstep.chain, hstep.sep h.sep, h'⟩
  have hone : min (PGSIZE - (x - PGROUNDDOWN x)) 1 = 1 := by
    unfold PGROUNDDOWN PGSIZE
    omega
  split
  · exact ⟨fun h0 => absurd h0 (by decide), F', hready⟩
  · simp only [meets_bind, meets_get, meets_pure, hone, getBytes, List.nil_append]
    exact ⟨fun _ => rfl, F', hready⟩

theorem copyinBytes_length (h : Ready s F root tf sz) {n : ℕ} :
    Meets (copyinBytes ⟨sz, root⟩ root n x) s (fun r _ => ∀ l, r = some l → l.length = n)
      Never := by
  induction n generalizing s F x with
  | zero =>
    rintro l ⟨⟩
    rfl
  | succ n ih =>
    rw [copyinBytes, meets_bind]
    refine (copyin_one_keeps h).imp ?_
    rintro ⟨r, bytes⟩ s' ⟨hlength, F', h'⟩
    dsimp only at hlength ⊢
    by_cases hr : r = 0
    swap
    · rw [if_pos hr, meets_pure]
      exact fun l hl => absurd hl (by simp)
    · rw [if_neg (not_not.mpr hr), meets_bind]
      refine (ih h').imp fun r' _ hr' l hl => ?_
      obtain ⟨l', rfl, rfl⟩ := Option.map_eq_some_iff.mp hl
      rw [List.length_append, hlength hr, hr' l' rfl, Nat.add_comm]

theorem bytesFrom_length {g : ℕ → Option UInt8} {n : ℕ} {l : List UInt8}
    (h : bytesFrom g n x = some l) : l.length = n := by
  induction n generalizing x l with
  | zero =>
    cases h
    rfl
  | succ n ih =>
    obtain ⟨b, -, hl⟩ := Option.bind_eq_some_iff.mp h
    obtain ⟨l', hl', rfl⟩ := Option.map_eq_some_iff.mp hl
    rw [List.length_cons, ih hl']

/-- The first byte, where no page is to be allocated for it. -/
theorem gives_copyinBytes_succ (h : Ready s F root tf sz) (hlazy : ¬Lazy s.mem root sz x) {n : ℕ}
    {l : List UInt8} : Gives (copyinBytes ⟨sz, root⟩ root (n + 1) x) s (· = some l) ↔
      ∃ b l', userByte s.mem root x = some b ∧ b :: l' = l ∧
        Gives (copyinBytes ⟨sz, root⟩ root n (x + 1)) s (· = some l') := by
  have hcons : ∀ b, Gives (copyinBytes ⟨sz, root⟩ root n (x + 1)) s (fun a =>
      a.map ([b] ++ ·) = some l) ↔ ∃ l', b :: l' = l ∧
        Gives (copyinBytes ⟨sz, root⟩ root n (x + 1)) s (· = some l') := by
    refine fun b => ⟨?_, ?_⟩
    · rintro ⟨a, t, hrun, ha⟩
      obtain ⟨l', rfl, hl⟩ := Option.map_eq_some_iff.mp ha
      exact ⟨l', hl, _, t, hrun, rfl⟩
    · rintro ⟨l', rfl, a, t, hrun, rfl⟩
      exact ⟨_, t, hrun, rfl⟩
  rw [gives_iff_meets, copyinBytes, meets_bind, meets_copyin_one h hlazy]
  rcases userByte s.mem root x with _ | b
  · simp
  · simp only [ne_eq, not_true_eq_false, if_false, meets_bind, meets_pure]
    rw [← gives_iff_meets, hcons]
    simp

/-! ## The two agree -/

/-- The string at `va`, of `max` bytes at most, runs into a page that is still to be allocated. -/
def RunsLazy (m : Bytes) (root sz va max : ℕ) : Prop :=
  ∃ j < max, (∀ i < j, ∃ b, userByte m root (va + i) = some b ∧ b ≠ 0) ∧ Lazy m root sz (va + j)

theorem runsLazy_succ {m : Bytes} {max : ℕ} : RunsLazy m root sz x (max + 1) ↔
    Lazy m root sz x ∨ (∃ b, userByte m root x = some b ∧ b ≠ 0) ∧ RunsLazy m root sz (x + 1) max := by
  constructor
  · rintro ⟨_ | j, hj, hbytes, hlazy⟩
    · exact .inl hlazy
    · refine .inr ⟨hbytes 0 (Nat.succ_pos j), j, by omega, fun i hi => ?_, ?_⟩
      · rw [Nat.add_assoc, Nat.add_comm 1 i]
        exact hbytes (i + 1) (by omega)
      · rwa [Nat.add_assoc, Nat.add_comm 1 j]
  · rintro (hlazy | ⟨hfirst, j, hj, hbytes, hlazy⟩)
    · exact ⟨0, Nat.succ_pos max, fun i hi => absurd hi (Nat.not_lt_zero i), hlazy⟩
    · refine ⟨j + 1, by omega, fun i hi => ?_, ?_⟩
      · rcases i with _ | i
        · exact hfirst
        · rw [Nat.add_comm i 1, ← Nat.add_assoc]
          exact hbytes i (by omega)
      · rwa [Nat.add_comm j 1, ← Nat.add_assoc]

/-- A page that is still to be allocated has no bytes yet. -/
theorem Lazy.userByte_eq {m : Bytes} (h : Lazy m root sz x) : userByte m root x = none := by
  have hdown : PGROUNDDOWN x / 4096 = x / 4096 := by
    unfold PGROUNDDOWN PGSIZE
    omega
  have hzero : userAddr m root (PGROUNDDOWN x) = 0 := by
    unfold userAddr
    rw [hdown, h.2]
    split <;> rfl
  exact if_pos hzero

/-- There `copyinstr` gives up. -/
theorem RunsLazy.stringFrom_eq {m : Bytes} {max : ℕ} (h : RunsLazy m root sz x max) :
    (stringFrom (userByte m root) max x).1 = -1 := by
  induction max generalizing x with
  | zero => rfl
  | succ max ih =>
    rw [stringFrom]
    rcases runsLazy_succ.mp h with hlazy | ⟨⟨b, hb, hb0⟩, hrest⟩
    · rw [hlazy.userByte_eq]
    · rw [hb]
      dsimp only
      rw [if_neg hb0]
      exact ih hrest

/-- There `copyin` finds a null. -/
theorem RunsLazy.gives (h : Ready s F root tf sz) {max : ℕ}
    (hroom : ∀ j < max, Room s.fails F (needed s.mem root sz (x + j)))
    (hruns : RunsLazy s.mem root sz x max) : ∃ k < max, ∃ l,
      Gives (copyinBytes ⟨sz, root⟩ root (k + 1) x) s (· = some l) ∧ EndsAtNul l := by
  induction max generalizing x with
  | zero =>
    obtain ⟨j, hj, -⟩ := hruns
    exact absurd hj (Nat.not_lt_zero j)
  | succ max ih =>
    rcases runsLazy_succ.mp hruns with hlazy | ⟨⟨b, hb, hb0⟩, hrest⟩
    · refine ⟨0, Nat.succ_pos max, [0], ?_, endsAtNul_cons.mpr (.inl ⟨rfl, rfl⟩)⟩
      rw [gives_iff_meets, copyinBytes, meets_bind]
      refine (copyin_lazy h (hroom 0 (Nat.succ_pos max)) hlazy).imp ?_
      rintro _ _ rfl
      simp [copyinBytes, meets_bind]
    · have hno : ¬Lazy s.mem root sz x := fun hlazy => by
        rw [hlazy.userByte_eq] at hb
        cases hb
      obtain ⟨k, hk, l, hl, hnul⟩ := ih (fun j hj => by
        rw [Nat.add_assoc, Nat.add_comm 1 j]
        exact hroom (j + 1) (by omega)) hrest
      exact ⟨k + 1, by omega, b :: l, (gives_copyinBytes_succ h hno).mpr ⟨b, l, hb, rfl, hl⟩,
        endsAtNul_cons.mpr (.inr ⟨hb0, hnul⟩)⟩

/-- One-byte `copyin`s find the strings that are there, if these do not run into such a page. -/
theorem gives_copyinBytes (h : Ready s F root tf sz) {n : ℕ} {l : List UInt8} (hnul : EndsAtNul l)
    (hno : ¬RunsLazy s.mem root sz x n) :
    Gives (copyinBytes ⟨sz, root⟩ root n x) s (· = some l) ↔
      bytesFrom (userByte s.mem root) n x = some l := by
  induction n generalizing x l with
  | zero =>
    rw [gives_iff_meets]
    exact Iff.rfl
  | succ n ih =>
    rw [runsLazy_succ, not_or] at hno
    rw [gives_copyinBytes_succ h hno.1, bytesFrom]
    simp only [Option.bind_eq_some_iff, Option.map_eq_some_iff]
    refine ⟨?_, ?_⟩
    · rintro ⟨b, l', hb, rfl, hl'⟩
      refine ⟨b, hb, l', ?_, rfl⟩
      rcases endsAtNul_cons.mp hnul with ⟨-, rfl⟩ | ⟨hb0, hnul'⟩
      · obtain ⟨a, t, hrun, rfl⟩ := hl'
        obtain rfl : 0 = n := (copyinBytes_length h).of_ok hrun _ rfl
        rfl
      · exact (ih hnul' fun hruns => hno.2 ⟨⟨b, hb, hb0⟩, hruns⟩).mp hl'
    · rintro ⟨b, hb, l', hl', rfl⟩
      refine ⟨b, l', hb, rfl, ?_⟩
      rcases endsAtNul_cons.mp hnul with ⟨-, rfl⟩ | ⟨hb0, hnul'⟩
      · obtain rfl : 0 = n := bytesFrom_length hl'
        exact ⟨_, s, rfl, rfl⟩
      · exact (ih hnul' fun hruns => hno.2 ⟨⟨b, hb, hb0⟩, hruns⟩).mpr hl'

/-- **`copyinstr` and `copyin`,** with the pages for what may have to be allocated. `copyinstr` never
writes more than `max` bytes. It returns 0 exactly if one-byte `copyin`s can read on to a null
within `max` bytes, and what it has stored are these bytes, exactly if the string does not run into
a page that is still to be allocated. -/
theorem copyinstr_agrees (h : Ready s F root tf sz) (va max : ℕ)
    (hroom : ∀ j < max, Room s.fails F (needed s.mem root sz (va + j))) :
    ∃ r, copyinstr root va max s = .ok (r, s) ∧ r.2.length ≤ max ∧
      (((r.1 = 0 ↔ ∃ k < max, ∃ l,
          Gives (copyinBytes ⟨sz, root⟩ root (k + 1) va) s (· = some l) ∧ EndsAtNul l) ∧
        ∀ k < max, ∀ l, Gives (copyinBytes ⟨sz, root⟩ root (k + 1) va) s (· = some l) →
          EndsAtNul l → r.2 = l) ↔ ¬RunsLazy s.mem root sz va max) := by
  have hcopy : Meets (copyinstr root va max) s
      (fun r t => r = stringFrom (userByte s.mem root) max va ∧ t = s) Never :=
    (meets_copyinstr h.sep.tables.right.page).mpr ⟨rfl, rfl⟩
  obtain ⟨r, t, heq, rfl, rfl⟩ := hcopy.exists_ok fun _ => id
  refine ⟨_, heq, stringFrom_length _ max va, ?_, fun hno => ?_⟩
  · rintro ⟨hiff, -⟩ hruns
    have h0 := hiff.mpr (hruns.gives h hroom)
    rw [hruns.stringFrom_eq] at h0
    cases h0
  have hgives : ∀ k < max, ∀ l, EndsAtNul l →
      (Gives (copyinBytes ⟨sz, root⟩ root (k + 1) va) t (· = some l) ↔
        bytesFrom (userByte t.mem root) (k + 1) va = some l) := fun k hk l hnul =>
    gives_copyinBytes h hnul fun ⟨j, hj, hruns⟩ => hno ⟨j, by omega, hruns⟩
  refine ⟨⟨fun h0 => ?_, ?_⟩, fun k hk l hl hnul => ?_⟩
  · obtain ⟨k, hk, hl, hnul⟩ := bytes_of_stringFrom h0
    exact ⟨k, hk, _, (hgives k hk _ hnul).mpr hl, hnul⟩
  · rintro ⟨k, hk, l, hl, hnul⟩
    rw [stringFrom_of_bytes hk ((hgives k hk l hnul).mp hl) hnul]
  · rw [stringFrom_of_bytes hk ((hgives k hk l hnul).mp hl) hnul]

/-- A string in the first page of a process of the small machine, which has grown by a page more
that it has not touched. -/
def smallString : Bool :=
  match smallSpace 4096 [108, 115, 0] with
  | some (s, root, _) =>
    match copyinstr root 0 5000 s with
    | .ok (r, _) => r == (0, [108, 115, 0])
    | _ => false
  | none => false

theorem smallString_eq : smallString = true := by decide +kernel

section

attribute [local irreducible] smallSpace

/-- `copyinstr` finds it, and so does `copyin`. -/
theorem copyinstr_agrees_small : ∃ s F root tf, Ready s F root tf 8192 ∧
    Lazy s.mem root 8192 4096 ∧ copyinstr root 0 5000 s = .ok ((0, [108, 115, 0]), s) ∧
    ∃ k < 5000, ∃ l, Gives (copyinBytes ⟨8192, root⟩ root (k + 1) 0) s (· = some l) ∧
      EndsAtNul l := by
  have heq := smallString_eq
  unfold smallString at heq
  split at heq
  · rename_i s root tf hs
    obtain ⟨F, h, hroom, hnone⟩ := @ready_smallSpace _ _ _ 8192 _ _ hs (by decide) (by decide)
    obtain ⟨r, hr, -, hagree⟩ := copyinstr_agrees h 0 5000 fun j _ => hroom.mono (needed_le ..)
    rw [hr, beq_iff_eq] at heq
    subst heq
    refine ⟨s, F, root, tf, h, ⟨by decide, hnone _ (by decide) (by decide)⟩, hr, ?_⟩
    refine (hagree.mpr fun hruns => ?_).1.mp rfl
    have hfound := (meets_copyinstr (E := Never) (Q := fun r _ =>
      r = stringFrom (userByte s.mem root) 5000 0) h.sep.tables.right.page).mpr rfl
    have hfails := hruns.stringFrom_eq
    rw [← hfound.of_ok hr] at hfails
    exact absurd hfails (by decide)
  · cases heq

/-- What happens to a byte that is still to be allocated, on the small machine. -/
def lazyByte : Bool :=
  match smallSpace 0 [] with
  | some (s, root, _) =>
    match copyinBytes ⟨1, root⟩ root 1 0 s, copyinstr root 0 1 s with
    | .ok (l, _), .ok (r, _) => l == some [0] && r.1 == -1
    | _, _ => false
  | none => false

theorem lazyByte_eq : lazyByte = true := by decide +kernel

/-- A byte that is still to be allocated is a string for `copyin`, and none for `copyinstr`. -/
theorem copyinstr_lazy : ∃ s F root tf, Ready s F root tf 1 ∧ Room s.fails F 3 ∧
    Gives (copyinBytes ⟨1, root⟩ root 1 0) s (· = some [0]) ∧ EndsAtNul [0] ∧
    Gives (copyinstr root 0 1) s (fun r => r.1 = -1) := by
  have heq := lazyByte_eq
  unfold lazyByte at heq
  split at heq
  · rename_i s root tf hs
    obtain ⟨F, h, hroom, -⟩ := @ready_smallSpace _ _ _ 1 _ _ hs (by decide) (by decide)
    split at heq
    · rename_i l t₁ r t₂ hl hr
      simp only [Bool.and_eq_true, beq_iff_eq] at heq
      obtain ⟨rfl, hr1⟩ := heq
      exact ⟨s, F, root, tf, h, hroom, ⟨_, t₁, hl, rfl⟩, ⟨[], rfl, List.not_mem_nil⟩, _, t₂, hr, hr1⟩
    · cases heq
  · cases heq

end

end Xv6
