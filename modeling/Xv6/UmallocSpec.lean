import Xv6.UmallocFree

/-!
# The allocator over whole runs

`malloc` goes once around the ring (`Holds.search`); if no free block is large
enough it gets more memory, which it adds to the free list as `free` does, and
goes around a second time (`Inv.malloc`). So calls of `malloc` and `free` keep
the invariant `Inv`: free blocks and blocks in use tile what `sbrk` has returned.

This holds as long as `sbrk` gets a number of bytes below `2 ^ 31` (`free_list`,
`malloc_safe`); `huge_request` is what happens otherwise. All that `morecore` gets
is memory of the machine, so that it has less than the `2 ^ 32` units which `size`
can count (`Inv.total_lt`).
-/

namespace Xv6.Umalloc

open Function List

open Blocks

/-! ## Taking a block -/

/-- **A block is taken** from the free list, or the end of it. -/
theorem Holds.take {h : Heap} {A B L : List (ℕ × ℕ)} {c : ℕ × ℕ} (hh : Holds h (A ++ c :: B) L)
    {nu : BitVec 32} (hpos : 0 < nu.toNat) (hle : nu.toNat ≤ c.2) {p : ℕ}
    (hlast : (base :: A.map Prod.fst).getLast? = some p) :
    ∃ F', Holds (take h nu p c.1).1 F' (((take h nu p c.1).2, nu.toNat) :: L) ∧
      (∀ u, covers u (F' ++ ((take h nu p c.1).2, nu.toNat) :: L) = covers u (A ++ c :: B ++ L)) ∧
      total (F' ++ ((take h nu p c.1).2, nu.toNat) :: L) = total (A ++ c :: B ++ L) := by
  have hc : c ∈ A ++ c :: B ++ L := by simp
  have hsize := hh.size_toNat hc
  obtain ⟨hbase, -⟩ := hh.pos c hc
  obtain ⟨l, hl⟩ := getLast?_eq_some_iff.mp hlast
  have hring := hh.ring
  obtain ⟨hapartA, hapartcB, hapartAB⟩ := pairwise_append.mp hh.apart
  obtain ⟨hapartc, hapartB⟩ := pairwise_cons.mp hapartcB
  have hmemp : p ∈ base :: A.map Prod.fst := mem_of_getLast? hlast
  by_cases hexact : h.size c.1 = nu
  · have hc2 : nu.toNat = c.2 := by rw [← hexact, hsize]
    rw [Umalloc.take, if_pos hexact, hc2]
    dsimp only
    have hperm : (A ++ B ++ c :: L).Perm (A ++ c :: B ++ L) := by
      rw [append_assoc, append_assoc, cons_append]
      exact List.Perm.append_left A perm_middle
    refine ⟨A ++ B, ?_, fun u => covers_perm hperm, total_perm hperm⟩
    refine ⟨?_, pairwise_append.mpr ⟨hapartA, hapartB, fun a ha d hd =>
      hapartAB a ha d (mem_cons_of_mem _ hd)⟩, ?_, hh.base_size,
      fun d hd => hh.pos d (hperm.mem_iff.mp hd), fun d hd => hh.header d (hperm.mem_iff.mp hd),
      fun u => by rw [covers_perm hperm]; exact hh.once u,
      by rw [total_perm hperm]; exact hh.total_lt⟩
    · -- the block before leads to the one after
      obtain ⟨q, T, hq⟩ : ∃ q T, B.map Prod.fst ++ [base] = q :: T :=
        exists_cons_of_ne_nil (append_ne_nil_of_right_ne_nil _ (cons_ne_nil _ _))
      have hnodup := hh.increasing.imp (fun hlt => Nat.ne_of_lt hlt)
      rw [map_append, ← cons_append, hl, map_cons] at hring hnodup
      rw [append_assoc, append_assoc, singleton_append, cons_append, hq]
        at hring
      obtain ⟨hchain, hrest⟩ := Chained.split.mp hring
      obtain ⟨-, hrest⟩ := Chained.cons_cons.mp hrest
      obtain ⟨hnext, hrest⟩ := Chained.cons_cons.mp hrest
      obtain ⟨hnodup₁, -, hnodup₂⟩ := pairwise_append.mp hnodup
      have hpl : p ∉ l := fun hp =>
        (pairwise_append.mp hnodup₁).2.2 p hp p mem_cons_self rfl
      have hpB : p ∉ B.map Prod.fst := fun hp =>
        hnodup₂ p (mem_append_right _ mem_cons_self) p (mem_cons_of_mem _ hp) rfl
      have hupdate := chained_update hchain hrest hpl (by rwa [← hq, dropLast_concat])
      rw [← hq, append_cons, ← hl] at hupdate
      rw [hnext]
      simpa using hupdate
    · rw [map_append, ← cons_append]
      exact mem_append_left _ hmemp
  · have hne : nu.toNat ≠ c.2 := fun heq =>
      hexact (BitVec.toNat_inj.mp (by rw [hsize, heq]))
    have hsub : (h.size c.1 - nu).toNat = c.2 - nu.toNat := by
      rw [BitVec.toNat_sub_of_le (by rw [BitVec.le_def, hsize]; exact hle), hsize]
    have heq : Umalloc.take h nu p c.1 = ({ h with
        size := update (update h.size c.1 (h.size c.1 - nu))
          (c.1 + (c.2 - nu.toNat)) nu
        freep := p }, c.1 + (c.2 - nu.toNat)) := by
      rw [Umalloc.take, if_neg hexact]
      dsimp only
      rw [update_self, hsub]
    rw [heq]
    dsimp only
    generalize hn : c.2 - nu.toNat = n
    have hcn : c.2 = n + nu.toNat := by omega
    have hcovers (u : ℕ) : covers u (A ++ (c.1, n) :: B ++ (c.1 + n, nu.toNat) :: L) =
        covers u (A ++ c :: B ++ L) := by
      have hcover := cover_add u c.1 n nu.toNat
      rw [← hcn, Prod.mk.eta] at hcover
      simp only [covers_append, covers_cons, hcover]
      omega
    have htotal : total (A ++ (c.1, n) :: B ++ (c.1 + n, nu.toNat) :: L) =
        total (A ++ c :: B ++ L) := by
      simp only [total_append, total_cons]
      omega
    have hposn (d : ℕ × ℕ) (hd : d ∈ A ++ (c.1, n) :: B ++ (c.1 + n, nu.toNat) :: L) :
        base < d.1 ∧ 0 < d.2 := by
      simp only [mem_append, mem_cons] at hd
      rcases hd with (hd | rfl | hd) | rfl | hd
      · exact hh.pos d (by simp [hd])
      · exact ⟨hbase, by dsimp only; omega⟩
      · exact hh.pos d (by simp [hd])
      · exact ⟨by dsimp only; omega, hpos⟩
      · exact hh.pos d (by simp [hd])
    have honce (u : ℕ) : covers u (A ++ (c.1, n) :: B ++ (c.1 + n, nu.toNat) :: L) ≤ 1 := by
      rw [hcovers u]
      exact hh.once u
    refine ⟨A ++ (c.1, n) :: B, ⟨by simpa using hring, ?_, ?_, ?_, hposn, ?_, honce, ?_⟩, hcovers,
      htotal⟩
    · refine pairwise_append.mpr ⟨hapartA, pairwise_cons.mpr ⟨fun d hd => ?_, hapartB⟩,
        fun a ha d hd => ?_⟩
      · have := hapartc d hd
        omega
      · rcases mem_cons.mp hd with rfl | hd
        · exact hapartAB a ha c mem_cons_self
        · exact hapartAB a ha d (mem_cons_of_mem _ hd)
    · rw [map_append, ← cons_append]
      exact mem_append_left _ hmemp
    · dsimp only
      rw [update_of_ne (by omega), update_of_ne (by omega), hh.base_size]
    · -- the blocks have different headers, so the two new sizes are those of the two new blocks
      have hnodup := nodup_starts honce fun d hd => (hposn d hd).2
      have hperm : (A ++ (c.1, n) :: B ++ (c.1 + n, nu.toNat) :: L).Perm
          ((c.1 + n, nu.toNat) :: (c.1, n) :: (A ++ B ++ L)) := by
        refine perm_middle.trans (.cons _ ?_)
        rw [append_assoc, append_assoc]
        exact perm_middle
      intro d hd
      rw [(hperm.map Prod.fst).nodup_iff, map_cons, nodup_cons, map_cons,
        nodup_cons, mem_cons, not_or] at hnodup
      rcases mem_cons.mp (hperm.mem_iff.mp hd) with rfl | hd
      · dsimp only
        rw [update_self, BitVec.ofNat_toNat, BitVec.setWidth_eq]
      rcases mem_cons.mp hd with rfl | hd
      · dsimp only
        rw [update_of_ne (Ne.symm hnodup.1.1), update_self,
          ← hsub.trans hn, BitVec.ofNat_toNat, BitVec.setWidth_eq]
      · have hmem : d.1 ∈ (A ++ B ++ L).map Prod.fst := mem_map_of_mem hd
        dsimp only
        rw [update_of_ne (ne_of_mem_of_not_mem hmem hnodup.1.2),
          update_of_ne (ne_of_mem_of_not_mem hmem hnodup.2.1)]
        refine hh.header d ?_
        simp only [mem_append, mem_cons] at hd ⊢
        tauto
    · rw [htotal]
      exact hh.total_lt

/-! ## The search -/

/-- `malloc` gets more memory, and searches again. -/
def grow (nu : BitVec 32) (ok : Bool) (freeFuel fuel : ℕ) (s : State) : Outcome (State × Option ℕ) :=
  match morecore freeFuel s nu ok with
  | .ok none => .ok (s, none)
  | .ok (some s) => mallocLoop nu ok freeFuel fuel s s.freep (s.ptr s.freep)
  | .blocked => .blocked
  | .panic msg => .panic msg

/-- **Once around**: the loop takes the first block that is large enough, or comes back to `freep`.
-/
theorem mallocLoop_eq (nu : BitVec 32) (ok : Bool) (freeFuel : ℕ) {fuel : ℕ} {s : State} {x : ℕ}
    {R : List ℕ} (hchain : Chained s.ptr (x :: R)) (hlast : R.getLast? = some s.freep)
    (hmem : s.freep ∉ R.dropLast) (hfuel : R.length ≤ fuel) :
    (∃ y p, y ∈ x :: R.dropLast ∧ p ∈ R ∧ s.ptr y = p ∧ nu.toNat ≤ (s.size p).toNat ∧
      mallocLoop nu ok freeFuel fuel s x (s.ptr x) =
        .ok ({ s with toHeap := (take s.toHeap nu y p).1 }, some (take s.toHeap nu y p).2)) ∨
    (∀ y ∈ R, (s.size y).toNat < nu.toNat) ∧ mallocLoop nu ok freeFuel fuel s x (s.ptr x) =
      grow nu ok freeFuel (fuel - R.length) s := by
  induction R generalizing x fuel with
  | nil => cases hlast
  | cons y R ih =>
    obtain ⟨hnext, htail⟩ := Chained.cons_cons.mp hchain
    obtain ⟨fuel, rfl⟩ := Nat.exists_eq_succ_of_ne_zero
      (Nat.ne_zero_of_lt (Nat.lt_of_lt_of_le (Nat.succ_pos _) hfuel))
    rw [hnext, mallocLoop]
    by_cases hfits : nu.toNat ≤ (s.size y).toNat
    · rw [if_pos hfits]
      exact .inl ⟨x, y, mem_cons_self, mem_cons_self, hnext, hfits, rfl⟩
    rw [if_neg hfits]
    cases R with
    | nil =>
      obtain rfl : y = s.freep := Option.some.inj hlast
      rw [if_pos rfl]
      refine .inr ⟨fun z hz => ?_, rfl⟩
      obtain rfl := mem_singleton.mp hz
      omega
    | cons z R =>
      rw [dropLast_cons_of_ne_nil (cons_ne_nil _ _), mem_cons, not_or] at hmem
      rw [if_neg (Ne.symm hmem.1)]
      rcases ih htail hlast hmem.2 (Nat.le_of_succ_le_succ hfuel) with
        ⟨y', p, hy', hp, hptr, hle, heq⟩ | ⟨hall, heq⟩
      · refine .inl ⟨y', p, ?_, mem_cons_of_mem _ hp, hptr, hle, heq⟩
        exact mem_cons_of_mem _ hy'
      · refine .inr ⟨fun w hw => ?_, ?_⟩
        · rcases mem_cons.mp hw with rfl | hw
          · omega
          · exact hall w hw
        · show _ = grow nu ok freeFuel (fuel + 1 - ((z :: R).length + 1)) s
          rw [heq, Nat.add_sub_add_right]

/-- **The ring, from `freep` on.** -/
theorem Holds.rotate {h : Heap} {F L : List (ℕ × ℕ)} (hh : Holds h F L) :
    ∃ R, Chained h.ptr (h.freep :: R) ∧ R.getLast? = some h.freep ∧ h.freep ∉ R.dropLast ∧
      (∀ y, y ∈ R ↔ y ∈ base :: F.map Prod.fst) ∧ R.length = F.length + 1 := by
  have hnodup := hh.increasing.imp (fun hlt => Nat.ne_of_lt hlt)
  have hring := hh.ring
  rcases mem_cons.mp hh.freep with hfreep | hfreep
  · rw [hfreep]
    refine ⟨F.map Prod.fst ++ [base], hring, getLast?_concat, ?_, fun y => ?_, by simp⟩
    · rw [dropLast_concat]
      exact (nodup_cons.mp hnodup).1
    · rw [mem_append, mem_singleton, mem_cons, or_comm]
  · generalize h.freep = f at hfreep ⊢
    obtain ⟨A, B, hAB⟩ := append_of_mem hfreep
    rw [hAB] at hring hnodup ⊢
    rw [← cons_append, append_assoc] at hring
    obtain ⟨hA, hB⟩ := Chained.split.mp hring
    have hlength := congrArg List.length hAB
    rw [length_map, length_append, length_cons] at hlength
    refine ⟨B ++ base :: (A ++ [f]), ?_, ?_, ?_, fun y => ?_, ?_⟩
    · rw [← cons_append]
      exact Chained.split.mpr ⟨hB, hA⟩
    · rw [← cons_append, ← append_assoc, getLast?_concat]
    · rw [← cons_append, ← append_assoc, dropLast_concat]
      intro hmem
      simp only [pairwise_cons, pairwise_append, mem_append, mem_cons] at hnodup
      simp only [mem_append, mem_cons] at hmem
      obtain ⟨hbase, -, ⟨hf, -⟩, hA⟩ := hnodup
      rcases hmem with hmem | hmem | hmem
      · exact hf f hmem rfl
      · exact hbase f (.inr (.inl rfl)) hmem.symm
      · exact hA f hmem f (.inl rfl) rfl
    · simp only [mem_append, mem_cons, not_mem_nil, or_false]
      tauto
    · simp only [length_append, length_cons, length_nil]
      omega

/-- What `malloc` leaves when it takes a block: the same units, and one more block in use. -/
def Took (F L : List (ℕ × ℕ)) (nu : BitVec 32) (h : Heap) (a : ℕ) : Prop :=
  ∃ F', Holds h F' ((a, nu.toNat) :: L) ∧
    (∀ u, covers u (F' ++ (a, nu.toNat) :: L) = covers u (F ++ L)) ∧
    total (F' ++ (a, nu.toNat) :: L) = total (F ++ L)

/-- **Once around**: a block is taken, or none is large enough. -/
theorem Holds.search {s : State} {F L : List (ℕ × ℕ)} (hh : Holds s.toHeap F L) {nu : BitVec 32}
    (hpos : 0 < nu.toNat) (ok : Bool) (freeFuel : ℕ) {fuel : ℕ} (hfuel : F.length + 1 ≤ fuel) :
    (∃ h' a, mallocLoop nu ok freeFuel fuel s s.freep (s.ptr s.freep) =
      .ok ({ s with toHeap := h' }, some a) ∧ Took F L nu h' a) ∨
    (∀ c ∈ F, c.2 < nu.toNat) ∧ mallocLoop nu ok freeFuel fuel s s.freep (s.ptr s.freep) =
      grow nu ok freeFuel (fuel - (F.length + 1)) s := by
  obtain ⟨R, hchain, hlast, hmem, hR, hlength⟩ := hh.rotate
  have hfuel' : R.length ≤ fuel := hlength ▸ hfuel
  rcases mallocLoop_eq nu ok freeFuel hchain hlast hmem hfuel' with
    ⟨y, p, hy, hp, hptr, hle, heq⟩ | ⟨hall, heq⟩
  · refine .inl ⟨_, _, heq, ?_⟩
    -- `p` is a block, as `base` has no units
    obtain ⟨c, hc, rfl⟩ : ∃ c ∈ F, c.1 = p := by
      rcases mem_cons.mp ((hR p).mp hp) with rfl | hp
      · rw [hh.base_size] at hle
        exact absurd hle (Nat.not_le_of_lt hpos)
      · exact mem_map.mp hp
    rw [hh.size_toNat (mem_append_left _ hc)] at hle
    obtain ⟨A, B, rfl⟩ := append_of_mem hc
    -- and `y` is the one before it
    obtain ⟨x, hx⟩ : ∃ x, (base :: A.map Prod.fst).getLast? = some x :=
      ⟨_, getLast?_eq_some_getLast (cons_ne_nil _ _)⟩
    obtain ⟨l, hl⟩ := getLast?_eq_some_iff.mp hx
    have hring := hh.ring
    have hxc : s.ptr x = c.1 := by
      rw [map_append, ← cons_append, hl, append_assoc, append_assoc] at hring
      exact (Chained.cons_cons.mp (Chained.split.mp hring).2).1
    have hxy : y = x := by
      refine hring.next_inj ?_ ?_ ?_ (hptr.trans hxc.symm)
      · have hnodup := hh.increasing.imp (fun hlt => Nat.ne_of_lt hlt)
        obtain ⟨hbase, hnodup⟩ := pairwise_cons.mp hnodup
        refine pairwise_append.mpr ⟨hnodup, pairwise_singleton .., ?_⟩
        intro z hz w hw
        obtain rfl := mem_singleton.mp hw
        exact (hbase z hz).symm
      · rw [dropLast_concat]
        rcases mem_cons.mp hy with rfl | hy
        · exact hh.freep
        · exact (hR y).mp (dropLast_subset _ hy)
      · rw [dropLast_concat, map_append, ← cons_append]
        exact mem_append_left _ (mem_of_getLast? hx)
    rw [hxy]
    exact hh.take hpos hle hx
  · refine .inr ⟨fun c hc => ?_, by rw [heq, hlength]⟩
    rw [← hh.size_toNat (mem_append_left _ hc)]
    exact hall c.1 ((hR c.1).mpr (mem_cons_of_mem _ (mem_map_of_mem hc)))

/-! ## More memory -/

/-- The number of units that `morecore` asks for. -/
def grain (nu : BitVec 32) : ℕ := max nu.toNat 4096

theorem grain_eq (nu : BitVec 32) :
    (if nu.toNat < 4096 then 4096 else nu : BitVec 32).toNat = grain nu := by
  rw [grain]
  split_ifs with h
  · rw [Nat.max_eq_right h.le]
    rfl
  · rw [Nat.max_eq_left (Nat.le_of_not_lt h)]

theorem grain_pos (nu : BitVec 32) : 0 < grain nu :=
  Nat.lt_of_lt_of_le (by decide) (Nat.le_max_right _ _)

/-- The number of bytes is an `int` as it is. -/
theorem bytes_toInt {n : ℕ} (h : n < 2 ^ 31) : (BitVec.ofNat 32 n).toInt = n := by
  rw [BitVec.toInt_ofNat', Int.bmod_eq_of_le] <;> omega

/-- There are pages for what `morecore` asks for. -/
def Enough (s : State) (nu : BitVec 32) (ok : Bool) : Prop :=
  ok = true ∧ held s.regions + pages (s.brk, grain nu) ≤ memory

instance (s : State) (nu : BitVec 32) (ok : Bool) : Decidable (Enough s nu ok) :=
  inferInstanceAs (Decidable (_ ∧ _))

theorem sbrk_grain (s : State) {nu : BitVec 32} (ok : Bool)
    (hbytes : grain nu * headerSize < 2 ^ 31) :
    sbrk s (BitVec.ofNat 32 (grain nu * headerSize)).toInt ok = if Enough s nu ok then
      some { s with
        brk := s.brk + grain nu
        regions := s.regions ++ [(s.brk, grain nu)] }
    else none := by
  have hpos : 0 < grain nu * headerSize := Nat.mul_pos (grain_pos nu) (by decide)
  have hunits : ((grain nu * headerSize : ℕ) : ℤ) / headerSize = (grain nu : ℤ) := by
    rw [Int.natCast_mul]
    exact Int.mul_ediv_cancel _ (by decide)
  rw [bytes_toInt hbytes, sbrk]
  rw [hunits, if_pos (Int.natCast_pos.mpr hpos), Int.toNat_natCast]
  rfl

theorem morecore_fails (fuel : ℕ) (s : State) {nu : BitVec 32} {ok : Bool}
    (hbytes : grain nu * headerSize < 2 ^ 31) (hno : ¬ Enough s nu ok) :
    morecore fuel s nu ok = .ok none := by
  rw [morecore]
  rw [grain_eq, sbrk_grain s ok hbytes, if_neg hno]

/-- **More memory** joins the free list. -/
theorem Holds.morecore {s : State} {F L : List (ℕ × ℕ)} (hh : Holds s.toHeap F L) {nu : BitVec 32}
    {ok : Bool} (hbytes : grain nu * headerSize < 2 ^ 31) (henough : Enough s nu ok)
    (htotal : total (F ++ L) + grain nu < 2 ^ 32) (hbrk : base < s.brk)
    (hbound : ∀ u, s.brk ≤ u → covers u (F ++ L) = 0) {fuel : ℕ}
    (hfuel : F.length < fuel) : ∃ h' F', morecore fuel s nu ok = .ok (some { s with
        toHeap := h'
        brk := s.brk + grain nu
        regions := s.regions ++ [(s.brk, grain nu)] }) ∧ Holds h' F' L ∧
      (∀ u, covers u (F' ++ L) = covers u (F ++ L) + cover u (s.brk, grain nu)) ∧
      total (F' ++ L) = total (F ++ L) + grain nu ∧ ∃ c ∈ F', grain nu ≤ c.2 := by
  obtain ⟨k, hk⟩ : ∃ k : BitVec 32, (if nu.toNat < 4096 then 4096 else nu) = k := ⟨_, rfl⟩
  have hgrain : k.toNat = grain nu := by rw [← hk, grain_eq]
  have hgpos := grain_pos nu
  have hsbrk := sbrk_grain s ok hbytes
  rw [if_pos henough] at hsbrk
  have hmapped : mapped { s with
      brk := s.brk + grain nu
      regions := s.regions ++ [(s.brk, grain nu)] } s.brk = true := by
    rw [mapped, decide_eq_true_eq]
    dsimp only
    omega
  -- the new block is in use until it is freed
  have hcover (u : ℕ) : covers u (F ++ (s.brk, grain nu) :: L) =
      covers u (F ++ L) + cover u (s.brk, grain nu) := by
    simp only [covers_append, covers_cons]
    omega
  have hnew : Holds { s.toHeap with size := update s.size s.brk k } F
      ((s.brk, grain nu) :: L) := by
    have hmem (d : ℕ × ℕ) (hd : d ∈ F ++ (s.brk, grain nu) :: L) :
        d = (s.brk, grain nu) ∨ d ∈ F ++ L := by
      simp only [mem_append, mem_cons] at hd ⊢
      tauto
    refine ⟨hh.ring, hh.apart, hh.freep, ?_, fun d hd => ?_, fun d hd => ?_, fun u => ?_, ?_⟩
    · exact (update_of_ne (Nat.ne_of_lt hbrk) ..).trans hh.base_size
    · rcases hmem d hd with rfl | hd
      · exact ⟨hbrk, hgpos⟩
      · exact hh.pos d hd
    · rcases hmem d hd with rfl | hd
      · dsimp only
        rw [update_self, ← hgrain, BitVec.ofNat_toNat, BitVec.setWidth_eq]
      · have hne : d.1 ≠ s.brk := by
          intro heq
          have hle := cover_le_covers (u := s.brk) hd
          rw [hbound s.brk le_rfl, cover_eq_one heq.le (by
            have := (hh.pos d hd).2
            omega)] at hle
          omega
        exact (update_of_ne hne ..).trans (hh.header d hd)
    · rw [hcover u]
      have hu := hh.once u
      by_cases hlt : s.brk ≤ u
      · rw [hbound u hlt, cover]
        split_ifs <;> omega
      · rw [cover, if_neg (by dsimp only; omega)]
        exact hu
    · simp only [total_append, total_cons] at htotal ⊢
      omega
  obtain ⟨h', F', hfree, hholds, hcovers, htotal', c, hc, hle⟩ := hnew.free hfuel
  refine ⟨h', F', ?_, hholds, fun u => by rw [hcovers u, hcover u], ?_, c, hc, hle⟩
  · rw [Umalloc.morecore]
    rw [hk, hgrain, hsbrk]
    dsimp only
    rw [if_pos hmapped, hfree]
  · rw [htotal']
    simp only [total_append, total_cons]
    omega

/-! ## The invariant -/

/-- The blocks in use. -/
def blocks (s : State) : List (ℕ × ℕ) := s.live.map fun e => (e.1, (nunits e.2).toNat)

/-- **The invariant**: the free blocks `F` and the blocks in use tile what `sbrk` has returned. -/
structure Inv (s : State) (F : List (ℕ × ℕ)) : Prop where
  holds : Holds s.toHeap F (blocks s)
  tile : ∀ u, covers u (F ++ blocks s) = covers u s.regions
  total_eq : total (F ++ blocks s) = total s.regions
  bound : ∀ r ∈ s.regions, r.1 + r.2 ≤ s.brk
  base_lt : base < s.brk
  /-- the regions are in memory, up to a part of a page each -/
  total_le : total s.regions ≤ 512 * held s.regions
  held_le : held s.regions ≤ memory

theorem nunits_toNat (nbytes : BitVec 32) :
    (nunits nbytes).toNat = (nbytes.toNat + headerSize - 1) / headerSize + 1 := by
  rw [nunits, BitVec.toNat_ofNat, Nat.mod_eq_of_lt]
  rw [headerSize]
  omega

theorem nunits_pos (nbytes : BitVec 32) : 0 < (nunits nbytes).toNat := by
  rw [nunits_toNat]
  exact Nat.succ_pos _

namespace Inv

variable {s : State} {F : List (ℕ × ℕ)}

theorem length_lt (hs : Inv s F) : F.length < 2 ^ 32 := by
  have hle := length_le_total fun b hb => (hs.holds.pos b (mem_append_left _ hb)).2
  have htotal := hs.holds.total_lt
  rw [total_append] at htotal
  omega

theorem unused (hs : Inv s F) (u : ℕ) (hu : s.brk ≤ u) : covers u (F ++ blocks s) = 0 := by
  rw [hs.tile u]
  refine covers_eq_zero fun r hr => ?_
  have := hs.bound r hr
  omega

theorem held_append (rs : List (ℕ × ℕ)) (r : ℕ × ℕ) : held (rs ++ [r]) = held rs + pages r := by
  simp [held]

/-- A region is many pages, so that the part of a page at its start does not count. -/
theorem grain_le (brk : ℕ) (nu : BitVec 32) : grain nu ≤ 512 * pages (brk, grain nu) := by
  have hge : 4096 ≤ grain nu := Nat.le_max_right _ _
  rw [pages]
  dsimp only
  omega

/-- **All units can be counted**, with the new ones. -/
theorem total_lt (hs : Inv s F) {nu : BitVec 32} {ok : Bool} (henough : Enough s nu ok) :
    total s.regions + grain nu < 2 ^ 32 := by
  have hle := grain_le s.brk nu
  have hheld := hs.total_le
  have hmem : held s.regions + pages (s.brk, grain nu) ≤ 2 ^ 15 := henough.2
  omega

/-- A block has been taken. -/
theorem took (hs : Inv s F) {nbytes : BitVec 32} {h : Heap} {a : ℕ}
    (ht : Took F (blocks s) (nunits nbytes) h a) :
    ∃ F', Inv { s with toHeap := h, live := s.live ++ [(a, nbytes)] } F' := by
  obtain ⟨F', hholds, hcovers, htotal⟩ := ht
  have hblocks : blocks { s with toHeap := h, live := s.live ++ [(a, nbytes)] } =
      blocks s ++ [(a, (nunits nbytes).toNat)] := map_append
  have hperm : ((a, (nunits nbytes).toNat) :: blocks s).Perm
      (blocks s ++ [(a, (nunits nbytes).toNat)]) := (perm_append_singleton _ _).symm
  refine ⟨F', ?_, fun u => ?_, ?_, hs.bound, hs.base_lt, hs.total_le, hs.held_le⟩
  · rw [hblocks]
    exact hholds.perm hperm
  · rw [hblocks, ← covers_perm (hperm.append_left F'), hcovers u, hs.tile u]
  · rw [hblocks, ← total_perm (hperm.append_left F'), htotal, hs.total_eq]

/-- **`malloc` keeps the invariant**, whether it returns a block or not. -/
theorem malloc (hs : Inv s F) {nbytes : BitVec 32} {ok : Bool}
    (hbytes : grain (nunits nbytes) * headerSize < 2 ^ 31) {fuel : ℕ} (hfuel : 2 ^ 34 ≤ fuel) :
    (mallocLoop (nunits nbytes) ok fuel fuel s s.freep (s.ptr s.freep) = .ok (s, none)) ∨
      ∃ s' a F', mallocLoop (nunits nbytes) ok fuel fuel s s.freep (s.ptr s.freep) =
        .ok (s', some a) ∧ Inv { s' with live := s'.live ++ [(a, nbytes)] } F' := by
  have hlength := hs.length_lt
  rcases hs.holds.search (nunits_pos nbytes) ok fuel (show F.length + 1 ≤ fuel by omega) with
    ⟨h', a, heq, htook⟩ | ⟨-, heq⟩
  · obtain ⟨F', hinv⟩ := hs.took htook
    exact .inr ⟨_, a, F', heq, hinv⟩
  rw [heq, grow]
  by_cases henough : Enough s (nunits nbytes) ok
  swap
  · exact .inl (by rw [morecore_fails fuel s hbytes henough])
  obtain ⟨h', F', hmore, hholds, hcovers, htotal', c, hc, hle⟩ :=
    hs.holds.morecore hbytes henough (by rw [hs.total_eq]; exact hs.total_lt henough) hs.base_lt
      hs.unused (show F.length < fuel by omega)
  rw [hmore]
  have hs' : Inv { s with
      toHeap := h'
      brk := s.brk + grain (nunits nbytes)
      regions := s.regions ++ [(s.brk, grain (nunits nbytes))] } F' := by
    refine ⟨hholds, fun u => ?_, ?_, fun r hr => ?_, ?_, ?_, ?_⟩
    · exact (hcovers u).trans (by simp [hs.tile u])
    · exact htotal'.trans (by simp [hs.total_eq])
    · rcases mem_append.mp hr with hr | hr
      · have := hs.bound r hr
        dsimp only
        omega
      · obtain rfl := mem_singleton.mp hr
        exact le_rfl
    · have := hs.base_lt
      dsimp only
      omega
    · have hle := grain_le s.brk (nunits nbytes)
      have hold := hs.total_le
      simp only [total_append, total_cons, total_nil, held_append]
      omega
    · rw [held_append]
      exact henough.2
  have hlength' := hs'.length_lt
  rcases hs'.holds.search (nunits_pos nbytes) ok fuel
    (show F'.length + 1 ≤ fuel - (F.length + 1) by omega) with ⟨h'', a, heq', htook⟩ | ⟨hnone, -⟩
  · obtain ⟨F'', hinv⟩ := hs'.took htook
    exact .inr ⟨_, a, F'', heq', hinv⟩
  · -- the new block is large enough
    have := hnone c hc
    have : (nunits nbytes).toNat ≤ grain (nunits nbytes) := Nat.le_max_left _ _
    omega

/-- **`free` keeps the invariant.** -/
theorem free (hs : Inv s F) {e : ℕ × BitVec 32} (he : e ∈ s.live) {fuel : ℕ}
    (hfuel : 2 ^ 34 ≤ fuel) : ∃ h' F', Umalloc.free fuel s.toHeap e.1 = some h' ∧
      Inv { s with toHeap := h', live := s.live.erase e } F' := by
  have hlength := hs.length_lt
  have hperm : (blocks s).Perm
      ((e.1, (nunits e.2).toNat) :: blocks { s with live := s.live.erase e }) :=
    (perm_cons_erase he).map _
  obtain ⟨h', F', hfree, hholds, hcovers, htotal, -⟩ :=
    (hs.holds.perm hperm).free (show F.length < fuel by omega)
  refine ⟨h', F', hfree, hholds, fun u => ?_, ?_, hs.bound, hs.base_lt, hs.total_le, hs.held_le⟩
  · exact (hcovers u).trans (by rw [← covers_perm (hperm.append_left F), hs.tile u])
  · exact htotal.trans (by rw [← total_perm (hperm.append_left F), hs.total_eq])

end Inv

/-! ## Runs -/

/-- No list has been made yet, or the invariant holds. -/
def Good (s : State) : Prop :=
  (s.freep = 0 ∧ s.live = [] ∧ s.regions = [] ∧ base < s.brk) ∨ ∃ F, Inv s F

/-- The number of bytes that `sbrk` gets is an `int`. -/
def Small (_ : State) : Event → Prop
  | .malloc nbytes _ => grain (nunits nbytes) * headerSize < 2 ^ 31
  | _ => True

instance (s : State) : (e : Event) → Decidable (Small s e)
  | .malloc .. => inferInstanceAs (Decidable (_ < _))
  | .free _ | .sbrk _ => inferInstanceAs (Decidable True)

theorem good_init {brk : ℕ} (hbrk : base < brk) : Good (init brk) := .inl ⟨rfl, rfl, rfl, hbrk⟩

/-- The list that the first call makes is empty. -/
theorem Good.start {s : State} (hs : Good s) :
    ∃ F, Inv { s with toHeap := start s.toHeap } F := by
  rcases hs with ⟨hfreep, hlive, hregions, hbrk⟩ | ⟨F, hs⟩
  · have hstart : Umalloc.start s.toHeap = { ptr := update s.ptr base base
                                             size := update s.size base 0
                                             freep := base } := if_pos hfreep
    have hblocks : blocks { s with toHeap := Umalloc.start s.toHeap } = [] := by
      rw [blocks, hlive]
      rfl
    refine ⟨[], ?_, fun u => ?_, ?_, ?_, hbrk, ?_, ?_⟩
    · rw [hblocks, hstart]
      have hself : update s.ptr base base base = base := update_self ..
      have hsize : update s.size base 0 base = 0 := update_self ..
      refine ⟨Chained.cons_cons.mpr ⟨hself, List.IsChain.singleton _⟩, List.Pairwise.nil,
        mem_cons_self, hsize, ?_, ?_, ?_, by decide⟩
      · exact fun b hb => absurd hb not_mem_nil
      · exact fun b hb => absurd hb not_mem_nil
      · exact fun u => Nat.zero_le _
    · rw [hblocks, hregions]
      rfl
    · rw [hblocks, hregions]
      rfl
    · rw [hregions]
      exact fun r hr => absurd hr not_mem_nil
    · rw [hregions]
      exact le_rfl
    · rw [hregions]
      exact Nat.zero_le _
  · refine ⟨F, ?_⟩
    have hne : s.freep ≠ 0 := by
      rcases mem_cons.mp hs.holds.freep with h | h
      · rw [h]
        decide
      · obtain ⟨b, hb, heq⟩ := mem_map.mp h
        have := (hs.holds.pos b (mem_append_left _ hb)).1
        omega
    rwa [Umalloc.start, if_neg hne]

/-- **One call** keeps the invariant, and its loops end. -/
theorem Good.step {s : State} (hs : Good s) {e : Event} (he : Small s e) {fuel : ℕ}
    (hfuel : 2 ^ 34 ≤ fuel) :
    step fuel s e = .blocked ∨ ∃ s', step fuel s e = .ok s' ∧ Good s' := by
  cases e with
  | malloc nbytes ok =>
    obtain ⟨F, hF⟩ := hs.start
    right
    rw [Umalloc.step, malloc]
    rcases hF.malloc he hfuel with heq | ⟨s', a, F', heq, hF'⟩
    · exact ⟨_, by rw [heq], .inr ⟨F, hF⟩⟩
    · exact ⟨_, by rw [heq], .inr ⟨F', hF'⟩⟩
  | free bp =>
    rw [Umalloc.step]
    cases hfind : s.live.find? fun e => e.1 = bp with
    | none => exact .inl rfl
    | some e =>
      right
      have hmem := mem_of_find?_eq_some hfind
      obtain rfl : e.1 = bp := by simpa using find?_some hfind
      rcases hs with ⟨-, hlive, -⟩ | ⟨F, hF⟩
      · rw [hlive] at hmem
        cases hmem
      · obtain ⟨h', F', hfree, hF'⟩ := hF.free hmem hfuel
        exact ⟨_, by rw [hfree], .inr ⟨F', hF'⟩⟩
  | sbrk units =>
    refine .inr ⟨_, rfl, ?_⟩
    rcases hs with ⟨hfreep, hlive, hregions, hbrk⟩ | ⟨F, hF⟩
    · exact .inl ⟨hfreep, hlive, hregions, Nat.lt_of_lt_of_le hbrk (Nat.le_add_right _ _)⟩
    · exact .inr ⟨F, hF.holds, hF.tile, hF.total_eq,
        fun r hr => (hF.bound r hr).trans (Nat.le_add_right _ _),
        Nat.lt_of_lt_of_le hF.base_lt (Nat.le_add_right _ _), hF.total_le, hF.held_le⟩

theorem good_run {brk fuel : ℕ} (hbrk : base < brk) (hfuel : 2 ^ 34 ≤ fuel) {s : State}
    (h : Run (step fuel) Small (init brk) s) : Good s := by
  refine h.invariant (good_init hbrk) fun s e s' hs he hstep => ?_
  rcases hs.step he hfuel with heq | ⟨t, heq, ht⟩
  · rw [heq] at hstep
    cases hstep
  · rw [heq] at hstep
    cases hstep
    exact ht

/-- **The free list of the allocator**, over runs of any length: once `malloc` has been called, it is
a ring that goes up from `base` and comes back, its blocks are apart, and together with the blocks
in use they tile what `sbrk` has returned. The loops of `malloc` and `free` end. -/
theorem free_list {brk fuel : ℕ} (hbrk : base < brk) (hfuel : 2 ^ 34 ≤ fuel) {s : State}
    (h : Run (step fuel) Small (init brk) s) :
    (s.freep = 0 ∧ s.live = [] ∧ s.regions = [] ∨ ∃ F : List (ℕ × ℕ),
      Chained s.ptr (base :: F.map Prod.fst ++ [base]) ∧ Separated F ∧
      s.freep ∈ base :: F.map Prod.fst ∧
      (∀ b ∈ F ++ blocks s, base < b.1 ∧ 0 < b.2 ∧ (s.size b.1).toNat = b.2) ∧
      (∀ u, covers u (F ++ blocks s) = covers u s.regions ∧ covers u s.regions ≤ 1)) ∧
    ∀ e, Small s e → ∀ msg, step fuel s e ≠ .panic msg := by
  have hs := good_run hbrk hfuel h
  constructor
  · rcases hs with ⟨hfreep, hlive, hregions, -⟩ | ⟨F, hF⟩
    · exact .inl ⟨hfreep, hlive, hregions⟩
    · refine .inr ⟨F, hF.holds.ring, hF.holds.apart, hF.holds.freep, fun b hb => ?_, fun u => ?_⟩
      · exact ⟨(hF.holds.pos b hb).1, (hF.holds.pos b hb).2, hF.holds.size_toNat hb⟩
      · exact ⟨hF.tile u, hF.tile u ▸ hF.holds.once u⟩
  · intro e he msg
    rcases hs.step he hfuel with heq | ⟨s', heq, -⟩ <;> rw [heq] <;> nofun

/-- A process that has called `malloc` twice, and `free` with what it got first. -/
theorem free_list_freed :
    ∃ s, Run (step (2 ^ 34)) Small (init 256) s ∧ s.live = [(4321, 350)] ∧ s.ptr base = 256 ∧
      s.ptr 256 = 4344 ∧ s.ptr 4344 = base ∧
      ∀ e, Small s e → ∀ msg, step (2 ^ 34) s e ≠ .panic msg := by
  have hfirst : Run (step (2 ^ 34)) Small (init 256) _ :=
    .tail .refl (show Small _ (.malloc 100 true) by decide) rfl
  have hsecond : Run (step (2 ^ 34)) Small (init 256) _ :=
    .tail hfirst (show Small _ (.malloc 350 true) by decide) rfl
  have hrun : Run (step (2 ^ 34)) Small (init 256) _ :=
    .tail hsecond (show Small _ (.free 4344) by decide) rfl
  exact ⟨_, hrun, rfl, rfl, rfl, rfl, (free_list (by decide) le_rfl hrun).2⟩

/-! ## What `malloc` returns -/

/-- The bytes of an allocation. -/
def Within (e : ℕ × BitVec 32) (x : ℕ) : Prop :=
  (e.1 + 1) * headerSize ≤ x ∧ x < (e.1 + 1) * headerSize + e.2.toNat

/-- **What is live is memory of its own**: it is from `sbrk`, no byte of it is in another allocation,
and none is in a header of the free list. -/
def Safe (s : State) : Prop :=
  (∀ e ∈ s.live, ∀ x, Within e x → ∃ r ∈ s.regions, r.1 ≤ x / headerSize ∧
      x / headerSize < r.1 + r.2) ∧
    s.live.Pairwise (fun e e' => ∀ x, Within e x → ¬ Within e' x) ∧
    (s.live ≠ [] → ∃ fuel l, follow s.ptr base fuel (s.ptr base) = some l ∧
      ∀ e ∈ s.live, ∀ x, Within e x → x / headerSize ∉ base :: l)

/-- The bytes are in the block, behind its header. -/
theorem Within.unit {e : ℕ × BitVec 32} {x : ℕ} (h : Within e x) :
    e.1 < x / headerSize ∧ x / headerSize < e.1 + (nunits e.2).toNat := by
  rw [nunits_toNat]
  obtain ⟨hle, hlt⟩ := h
  rw [headerSize] at *
  omega

theorem Inv.safe {s : State} {F : List (ℕ × ℕ)} (hs : Inv s F) : Safe s := by
  have hmem {e : ℕ × BitVec 32} (he : e ∈ s.live) :
      (e.1, (nunits e.2).toNat) ∈ blocks s := mem_map_of_mem he
  refine ⟨fun e he x hx => ?_, ?_, fun _ => ?_⟩
  · obtain ⟨hlt, hlt'⟩ := hx.unit
    refine exists_of_covers ?_
    have hle := cover_le_covers (u := x / headerSize) (mem_append_right F (hmem he))
    rw [← hs.tile]
    rw [cover_eq_one hlt.le hlt'] at hle
    omega
  · have hdisjoint := (pairwise_append.mp hs.holds.disjoint).2.1
    refine (pairwise_map.mp hdisjoint).imp fun hee' x hx hx' => ?_
    obtain ⟨hlt, hlt'⟩ := hx.unit
    obtain ⟨hgt, hgt'⟩ := hx'.unit
    omega
  · have hbase : base ∉ F.map Prod.fst := fun hmem => by
      obtain ⟨c, hc, heq⟩ := mem_map.mp hmem
      exact Nat.ne_of_gt (hs.holds.pos c (mem_append_left _ hc)).1 heq
    refine ⟨_, _, hs.holds.ring.follow hbase (Nat.lt_succ_self _), fun e he x hx hx' => ?_⟩
    obtain ⟨hlt, hlt'⟩ := hx.unit
    rcases mem_cons.mp hx' with hx' | hx'
    · have hpos := (hs.holds.pos _ (mem_append_right F (hmem he))).1
      omega
    · obtain ⟨c, hc, heq⟩ := mem_map.mp hx'
      have hdisjoint := (pairwise_append.mp hs.holds.disjoint).2.2 c hc _ (hmem he)
      omega

/-- **`malloc` hands out memory that it has**, as long as requests are small. -/
theorem malloc_safe {brk fuel : ℕ} (hbrk : base < brk) (hfuel : 2 ^ 34 ≤ fuel) {s : State}
    (h : Run (step fuel) Small (init brk) s) : Safe s := by
  rcases good_run hbrk hfuel h with ⟨-, hlive, -⟩ | ⟨F, hF⟩
  · rw [Safe, hlive]
    exact ⟨fun e he => absurd he not_mem_nil, List.Pairwise.nil,
      fun hne => absurd rfl hne⟩
  · exact hF.safe

/-- A process that has called `malloc` three times, and `free` with what it got second. -/
theorem malloc_safe_freed :
    ∃ s, Run (step (2 ^ 34)) Small (init 256) s ∧ s.live = [(4344, 100), (4337, 90)] ∧ Safe s := by
  have hfirst : Run (step (2 ^ 34)) Small (init 256) _ :=
    .tail .refl (show Small _ (.malloc 100 true) by decide) rfl
  have hsecond : Run (step (2 ^ 34)) Small (init 256) _ :=
    .tail hfirst (show Small _ (.malloc 350 true) by decide) rfl
  have hthird : Run (step (2 ^ 34)) Small (init 256) _ :=
    .tail hsecond (show Small _ (.free 4321) by decide) rfl
  have hrun : Run (step (2 ^ 34)) Small (init 256) _ :=
    .tail hthird (show Small _ (.malloc 90 true) by decide) rfl
  exact ⟨_, hrun, rfl, malloc_safe (by decide) le_rfl hrun⟩

/-- **A huge request succeeds.** The number of bytes that `malloc(2 ^ 32 - 1)` passes to `sbrk` is
16 as an `int`: the process grows by one unit, and `malloc` returns the byte after its end. -/
theorem huge_request :
    ∃ s, runList (step 100) (init 256) [.malloc (BitVec.ofNat 32 (2 ^ 32 - 1)) true] = .ok s ∧
      s.live = [(256, BitVec.ofNat 32 (2 ^ 32 - 1))] ∧ s.regions = [(256, 1)] ∧ ¬ Safe s := by
  refine ⟨_, rfl, rfl, rfl, fun hsafe => ?_⟩
  obtain ⟨r, hr, hle, hlt⟩ := hsafe.1 (256, BitVec.ofNat 32 (2 ^ 32 - 1)) mem_cons_self
    (257 * headerSize) ⟨le_rfl, by decide⟩
  obtain rfl : r = (256, 1) := mem_singleton.mp hr
  exact absurd hlt (by decide)

end Xv6.Umalloc
