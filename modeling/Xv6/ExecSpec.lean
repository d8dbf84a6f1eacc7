import Mathlib.Algebra.Order.Group.Multiset
import Xv6.Exec
import Xv6.ProcTable

/-!
# `kexec` replaces an address space, or leaves everything as it was

While `kexec` fills the new address space, every page below its size is mapped
(`Users`), which is why `loadseg` finds the pages it loads and the user stack is
there to be written to. As each of these pages is a page of physical memory, the
size cannot come near the trapframe (`Users.card_le`): memory runs out first.
-/

namespace Xv6

open List Multiset

open Prog

variable {s s' : KMem} {F F' : Multiset ℕ} {m : Bytes} {root p tf sz va v e k lo hi : ℕ}
  {E : String → Prop}

attribute [local irreducible] leaf

/-! ## Ranges of user pages -/

/-- The pages from `lo` to `hi` are mapped, for the user. -/
def Users (m : Bytes) (root lo hi : ℕ) : Prop :=
  ∀ v, lo ≤ v → v < hi → v < UPAGES ∧ ∃ e, leaf m root v = some e ∧ e &&& PTE_U ≠ 0

theorem Users.congr {m' : Bytes} (h : Users m root lo hi)
    (hleaf : ∀ v < 512 ^ 3, leaf m' root v = leaf m root v) : Users m' root lo hi := by
  intro v h1 h2
  obtain ⟨hv, he⟩ := h v h1 h2
  rw [UPAGES_eq] at hv ⊢
  rw [hleaf v (by omega)]
  exact ⟨hv, he⟩

/-- The user may write to these pages. -/
def Writable (m : Bytes) (root lo hi : ℕ) : Prop :=
  ∀ v, lo ≤ v → v < hi → v < UPAGES ∧ ∀ e, leaf m root v = some e → e &&& PTE_W ≠ 0

theorem Writable.congr {m' : Bytes} (h : Writable m root lo hi)
    (hleaf : ∀ v < 512 ^ 3, leaf m' root v = leaf m root v) : Writable m' root lo hi := by
  intro v h1 h2
  obtain ⟨hv, he⟩ := h v h1 h2
  rw [UPAGES_eq] at hv ⊢
  rw [hleaf v (by omega)]
  exact ⟨hv, he⟩

/-- There are only so many pages. -/
theorem Sep.card_le {kend : ℕ} {M : Multiset ℕ} (h : Sep kend M) :
    card M ≤ PHYSTOP / 4096 := by
  have hsub : M.map (· / 4096) ⊆ range (PHYSTOP / 4096) := by
    intro q hq
    obtain ⟨p, hp, rfl⟩ := mem_map.mp hq
    obtain ⟨h1, -, h3, -⟩ := h.page p hp
    have hP : PHYSTOP = 557056 * 4096 := rfl
    rw [Multiset.mem_range]
    omega
  have hnd : (M.map (· / 4096)).Nodup := by
    refine Multiset.Nodup.map_on (fun p hp q hq hpq => ?_) h.nodup
    have h1 := (h.page p hp).1
    have h2 := (h.page q hq).1
    omega
  have hle := card_le_card ((le_iff_subset hnd).mpr hsub)
  rwa [card_map, card_range] at hle

theorem le_card_values {n : ℕ} {f : ℕ → Option ℕ} (hkn : k ≤ n) (h : ∀ v < k, f v ≠ none) :
    k ≤ card (values n f) := by
  induction n generalizing k with
  | zero => omega
  | succ n ih =>
    rw [values_succ, card_add]
    rcases Nat.lt_or_ge n k with hlt | hge
    · obtain ⟨x, hx⟩ := Option.ne_none_iff_exists'.mp (h n hlt)
      have hn := ih le_rfl fun v hv => h v (by omega)
      rw [hx, Option.toList_some, coe_card, length_singleton]
      omega
    · exact (ih hge h).trans (Nat.le_add_right _ _)

/-- Mapped pages are in memory. -/
theorem Users.card_le (h : Users m root 0 hi) (hhi : hi ≤ UPAGES) :
    hi ≤ card (frames m root) := by
  refine le_card_values hhi fun v hv hnone => ?_
  obtain ⟨-, e, he, -⟩ := h v (Nat.zero_le v) hv
  rw [he] at hnone
  cases hnone

/-- So a range from 0 on ends far below the trapframe. -/
theorem Users.card_lt (h : Users s.mem root 0 hi) (hhi : hi ≤ UPAGES)
    (hsep : Sep s.kend (F + asPages s.mem root)) : card F + hi < UPAGES := by
  have hcard := hsep.card_le
  have hle := h.card_le hhi
  have hP : PHYSTOP / 4096 = 557056 := rfl
  rw [asPages, card_add, card_add] at hcard
  rw [UPAGES_eq]
  omega

theorem userAddr_of_user (hva : va < MAXVA) (hl : leaf m root (va / 4096) = some e)
    (hu : e &&& PTE_U ≠ 0) : userAddr m root va = PTE2PA e := by
  rw [userAddr, if_neg (by omega), hl]
  exact if_neg hu

/-! ## What the user finds -/

/-- The byte at a user address. -/
def ubyte (m : Bytes) (root x : ℕ) : Option UInt8 :=
  (leaf m root (x / 4096)).map fun e => m (PTE2PA e + x % 4096)

/-- These bytes are at `x` and after it. -/
def HasBytes (m : Bytes) (root x : ℕ) (bytes : List UInt8) : Prop :=
  ∀ i < bytes.length, ubyte m root (x + i) = bytes[i]?

/-- **No mapping changes,** and no byte of a user page outside `lo` to `hi`. -/
structure UserFrame (root lo hi : ℕ) (s s' : KMem) : Prop where
  leaf_eq : ∀ v < 512 ^ 3, leaf s'.mem root v = leaf s.mem root v
  byte_eq : ∀ x, x / 4096 < UPAGES → x < lo ∨ hi ≤ x → ubyte s'.mem root x = ubyte s.mem root x

namespace UserFrame

variable {s'' : KMem} {lo' hi' : ℕ}

theorem refl (root lo hi : ℕ) (s : KMem) : UserFrame root lo hi s s :=
  ⟨fun _ _ => rfl, fun _ _ _ => rfl⟩

theorem trans (h : UserFrame root lo hi s s') (h' : UserFrame root lo hi s' s'') :
    UserFrame root lo hi s s'' where
  leaf_eq v hv := (h'.leaf_eq v hv).trans (h.leaf_eq v hv)
  byte_eq x hx hout := (h'.byte_eq x hx hout).trans (h.byte_eq x hx hout)

theorem mono (h : UserFrame root lo hi s s') (hsub : lo < hi → lo' ≤ lo ∧ hi ≤ hi') :
    UserFrame root lo' hi' s s' :=
  ⟨h.leaf_eq, fun x hx hout => h.byte_eq x hx (by omega)⟩

/-- Bytes elsewhere stay. -/
theorem hasBytes {x : ℕ} {bytes : List UInt8} (h : UserFrame root lo hi s s')
    (hb : HasBytes s.mem root x bytes) (hx : ∀ y < x + bytes.length, y / 4096 < UPAGES)
    (hout : x + bytes.length ≤ lo ∨ hi ≤ x) : HasBytes s'.mem root x bytes := by
  intro i hi
  rw [h.byte_eq (x + i) (hx _ (by omega)) (by omega)]
  exact hb i hi

end UserFrame

theorem putBytes_add {a i : ℕ} {src : List UInt8} (hi : i < src.length) :
    some (putBytes m a src (a + i)) = src[i]? := by
  unfold putBytes
  rw [if_pos (by omega), Nat.add_sub_cancel_left, getD_eq_getElem?_getD,
    getElem?_eq_getElem hi, Option.getD_some]

/-- **Bytes are written to a user page.** -/
theorem AsStep.writeBytes {bytes : List UInt8} (hc : Chain s F)
    (hsep : Sep s.kend (F + asPages s.mem root)) (hok : PtOk s.mem root) (hv : v < UPAGES)
    (hl : leaf s.mem root v = some e) (hk : k + bytes.length ≤ 4096)
    (hs' : s' = { s with mem := putBytes s.mem (PTE2PA e + k) bytes }) :
    AsStep root F F s s' ∧ UserFrame root (v * 4096 + k) (v * 4096 + k + bytes.length) s s' ∧
      HasBytes s'.mem root (v * 4096 + k) bytes := by
  have hU := UPAGES_eq
  have hpage := PTE2PA_page hsep hv hl
  subst hs'
  obtain ⟨hstep, hleaf⟩ := AsStep.writeFrame hc hsep hok (mem_frames hv hl)
    (.putBytes hpage.1 hk) rfl
  refine ⟨hstep, ⟨hleaf, fun x hx hout => ?_⟩, fun i hi => ?_⟩
  · rw [ubyte, hleaf _ (by omega), ubyte]
    refine Option.map_congr fun e' he' => if_neg fun hin => ?_
    by_cases hxv : x / 4096 = v
    · rw [hxv, hl] at he'
      cases he'
      omega
    · -- another page is at another place
      have hne : PTE2PA e' ≠ PTE2PA e := fun heq => hxv (frame_inj hsep hv hl hx he' heq)
      have := PTE2PA_mod e'
      have := PTE2PA_mod e
      omega
  · have hdiv : (v * 4096 + k + i) / 4096 = v := by omega
    have hmod : (v * 4096 + k + i) % 4096 = k + i := by omega
    rw [ubyte, hdiv, hmod, hleaf v (by omega), hl, Option.map_some, ← Nat.add_assoc]
    exact putBytes_add hi

/-! ## Growing the image -/

/-- An address space all of which is mapped, as `kexec` builds it. -/
structure Image (s : KMem) (root tf sz : ℕ) : Prop where
  space : AddrSpace s root tf sz
  full : Users s.mem root 0 (npages sz)

theorem Image.same (h : Image s root tf sz) (hstep : AsStep root F F' s s')
    (hleaf : ∀ v < 512 ^ 3, leaf s'.mem root v = leaf s.mem root v) : Image s' root tf sz :=
  ⟨h.space.same hstep hleaf, h.full.congr hleaf⟩

/-- User pages outside the range have their bytes. -/
theorem RangeStep.ubyte_eq {x : ℕ} (h : RangeStep root lo hi F F' s s') (hx : x / 4096 < UPAGES)
    (hout : ¬(lo ≤ x / 4096 ∧ x / 4096 < hi)) : ubyte s'.mem root x = ubyte s.mem root x := by
  have hU := UPAGES_eq
  rw [ubyte, h.leaf_eq _ (by omega) hout, ubyte]
  refine Option.map_congr fun e he => ?_
  exact h.content _ hx hout e he _ (Nat.mod_lt x (by decide))

/-- New pages are zeros. -/
theorem ZeroMapped.ubyte_eq {perm x : ℕ} (h : ZeroMapped m root perm lo hi) (hperm : perm < 2 ^ 10)
    (hlo : lo ≤ x / 4096) (hhi : x / 4096 < hi) : ubyte m root x = some 0 := by
  obtain ⟨pg, hpg, hlt, hl, hzero⟩ := h _ hlo hhi
  rw [ubyte, hl, Option.map_some, PTE2PA_PA2PTE hpg hlt (Nat.or_lt_two_pow hperm (by decide)),
    hzero _ (Nat.mod_lt x (by decide))]

theorem perm_lt {xperm : ℕ} (hx : xperm < 2 ^ 10) : PTE_R ||| PTE_U ||| xperm < 2 ^ 10 :=
  Nat.or_lt_two_pow (by decide) hx

/-- The flags of an entry. -/
theorem flags_PA2PTE {pa f : ℕ} (hf : f < 2 ^ 10) : (PA2PTE pa ||| f) % 2 ^ 10 = f := by
  rw [PA2PTE_or hf, PA2PTE]
  omega

/-- **`uvmalloc`** extends an image, by pages of zeros. -/
theorem Image.uvmalloc_spec {newsz xperm : ℕ} (hc : Chain s F)
    (hsep : Sep s.kend (F + asPages s.mem root)) (h : Image s root tf sz) (hx : xperm < 2 ^ 10) :
    Meets (uvmalloc root sz newsz xperm) s (fun r s' => ∃ F', AsStep root F F' s s' ∧
      (r = max sz newsz ∧ Image s' root tf r ∧
          RangeStep root (npages sz) (npages r) F F' s s' ∧
          ZeroMapped s'.mem root (PTE_R ||| PTE_U ||| xperm) (npages sz) (npages r) ∨
        r = 0 ∧ Image s' root tf sz)) Never := by
  have hU := UPAGES_eq
  rcases Nat.lt_or_ge newsz sz with hlt | hge
  · rw [uvmalloc, if_pos hlt, meets_pure]
    exact ⟨F, .refl hc h.space.ok, .inl ⟨by omega, h, .refl hc h.space.ok,
      fun w h1 h2 => absurd h1 (by omega)⟩⟩
  have hle := npages_le.mpr h.space.size
  refine (uvmalloc_range hc hsep h.space.ok h.space.size hge hx
    (fun w h1 h2 => h.space.below w h2 h1) (.inl (by rw [h.space.trapframe]; simp))).mono ?_ ?_
  · rintro r s' ⟨F', ⟨rfl, hnew, hstep, hzero⟩ | ⟨rfl, -, hstep⟩⟩
    · have hnp := npages_le.mpr hnew
      refine ⟨F', hstep.toAsStep, .inl ⟨by omega, ⟨h.space.step hstep.toAsStep hnew ?_ ?_ ?_,
        fun v _ hv => ?_⟩, hstep, hzero⟩⟩
      · intro v hv hle'
        rw [hstep.leaf_eq v (by omega) (by omega)]
        refine h.space.below v hv (le_trans ?_ hle')
        unfold npages
        omega
      · exact fun v hv hv' => hstep.leaf_eq v hv (by omega)
      · intro v hv e he
        by_cases hin : npages sz ≤ v ∧ v < npages r
        · obtain ⟨pg, -, -, hpg, -⟩ := hzero v hin.1 hin.2
          rw [he] at hpg
          rw [Option.some.inj hpg]
          exact flag_ne_zero (user_perm_read xperm)
        · rw [hstep.leaf_eq v (by omega) hin] at he
          exact h.space.readable v hv e he
      · refine ⟨by omega, ?_⟩
        rcases Nat.lt_or_ge v (npages sz) with hlt | hge'
        · rw [hstep.leaf_eq v (by omega) (by omega)]
          exact (h.full v (Nat.zero_le v) hlt).2
        · obtain ⟨pg, -, -, hpg, -⟩ := hzero v hge' hv
          refine ⟨_, hpg, flag_ne_zero ?_⟩
          simp only [Nat.and_or_distrib_right, ne_eq, Nat.or_eq_zero_iff]
          exact fun h0 => absurd h0.1.1.2 (by decide)
    · exact ⟨F', hstep.toAsStep, .inr ⟨rfl, h.same hstep.toAsStep fun v hv =>
        hstep.leaf_eq v hv (by omega)⟩⟩
  · -- memory runs out before the trapframe is reached
    rintro msg ⟨-, -, hcard⟩
    have := h.full.card_lt hle hsep
    omega

/-! ## `loadseg` -/

theorem readi_length (ip : List UInt8) (off n : ℕ) : (readi ip off n).length ≤ n := by
  rw [readi]
  split
  · exact Nat.zero_le n
  · rw [length_take]
    exact Nat.min_le_left ..

/-- What is read of a file, if all of it is. -/
theorem getElem?_readi {ip : List UInt8} {off n i : ℕ} (h : (readi ip off n).length = n)
    (hi : i < n) : (readi ip off n)[i]? = ip[off + i]? := by
  unfold readi at h ⊢
  split at h
  · rw [length_nil] at h
    omega
  · rename_i hbad
    rw [if_neg hbad, getElem?_take_of_lt hi, getElem?_drop]

/-- **`loadseg`** writes to pages of the image; where it succeeds, these bytes are in the file. -/
theorem loadsegLoop_spec {ip : List UInt8} {offset size n i : ℕ} (hc : Chain s F)
    (hsep : Sep s.kend (F + asPages s.mem root)) (h : Image s root tf sz) (hva : va % 4096 = 0)
    (hi : i % 4096 = 0) (hn : va / 4096 + i / 4096 + n ≤ npages sz) :
    Meets (loadsegLoop root va ip offset size n i) s (fun r s' => AsStep root F F s s' ∧
      Image s' root tf sz ∧ UserFrame root (va + i) (va + size) s s' ∧
      (offset + size < 2 ^ 32 → size ≤ i + n * 4096 → 0 ≤ r → ∀ j, i ≤ j → j < size →
        ubyte s'.mem root (va + j) = ip[offset + j]?)) Never := by
  have hU := UPAGES_eq
  have hM : MAXVA = 2 ^ 38 := rfl
  have hW : WORD = 2 ^ 64 := rfl
  have hle := npages_le.mpr h.space.size
  induction n generalizing s i with
  | zero =>
    rw [loadsegLoop, meets_pure]
    exact ⟨.refl hc h.space.ok, h, .refl _ _ _ _, fun _ _ _ j _ _ => by omega⟩
  | succ n ih =>
    have hmod : (va + i) % WORD = va + i := Nat.mod_eq_of_lt (by omega)
    have hdiv : (va + i) / 4096 = va / 4096 + i / 4096 := by omega
    obtain ⟨hv, e, hl, hu⟩ := h.full (va / 4096 + i / 4096) (Nat.zero_le _) (by omega)
    have hpage := PTE2PA_page hsep hv hl
    simp only [loadsegLoop]
    rw [meets_bind, hmod, meets_walkaddr hsep.tables.right.page,
      userAddr_of_user (by omega) (hdiv ▸ hl) hu, if_neg (by have := hpage.2.2.2; omega)]
    set len := if size - i < PGSIZE then size - i else PGSIZE with hlen
    have hlen4 : len = min (size - i) 4096 := by
      rw [hlen, PGSIZE]
      split <;> omega
    clear_value len
    set bytes := readi ip ((offset + i) % 2 ^ 32) len with hbytes
    have hle' : bytes.length ≤ len := readi_length ..
    have hk : 0 + bytes.length ≤ 4096 := by omega
    obtain ⟨hstep, hframe, hhas⟩ := AsStep.writeBytes hc hsep h.space.ok hv hl hk rfl
    have hbase : (va / 4096 + i / 4096) * 4096 + 0 = va + i := by omega
    rw [hbase] at hframe hhas
    have h' := h.same hstep hframe.leaf_eq
    have hframe' : UserFrame root (va + i) (va + size) s _ := hframe.mono (by omega)
    simp only [meets_bind, meets_modify]
    split
    · rw [meets_pure]
      exact ⟨hstep, h', hframe', fun _ _ hr => absurd hr (by decide)⟩
    rename_i hall
    rw [not_not] at hall
    refine (ih hstep.chain (hstep.sep hsep) h' (by unfold PGSIZE; omega)
      (by unfold PGSIZE; omega)).imp ?_
    rintro r s' ⟨hstep', h'', hframe'', hloaded⟩
    rw [PGSIZE] at hframe'' hloaded
    refine ⟨hstep.trans hstep', h'', hframe'.trans (hframe''.mono (by omega)),
      fun hoff hsize hr j hij hj => ?_⟩
    rcases Nat.lt_or_ge j (i + 4096) with hlt | hge
    · rw [hframe''.byte_eq _ (by omega) (by omega), show va + j = va + i + (j - i) by omega,
        hhas _ (by omega), hbytes, getElem?_readi hall (by omega),
        Nat.mod_eq_of_lt (by omega), show offset + i + (j - i) = offset + j by omega]
    · exact hloaded hoff (by omega) hr j hge hj

theorem loadseg_spec {ip : List UInt8} {offset size : ℕ} (hc : Chain s F)
    (hsep : Sep s.kend (F + asPages s.mem root)) (h : Image s root tf sz) (hva : va % 4096 = 0)
    (hsz : va + size ≤ sz) :
    Meets (loadseg root va ip offset size) s (fun r s' => AsStep root F F s s' ∧
      Image s' root tf sz ∧ UserFrame root va (va + size) s s' ∧
      (offset + size < 2 ^ 32 → 0 ≤ r → ∀ j < size,
        ubyte s'.mem root (va + j) = ip[offset + j]?)) Never := by
  refine (loadsegLoop_spec hc hsep h hva (Nat.zero_mod _) ?_).imp ?_
  · unfold npages PGSIZE
    omega
  · rintro r s' ⟨hstep, h', hframe, hloaded⟩
    refine ⟨hstep, h', hframe, fun hoff hr j hj => hloaded hoff ?_ hr j (Nat.zero_le j) hj⟩
    unfold PGSIZE
    omega

theorem flags2perm_lt (flags : ℕ) : flags2perm flags < 2 ^ 10 := by
  unfold flags2perm
  refine Nat.or_lt_two_pow ?_ ?_ <;> split <;> decide

theorem proghdr_lt (bytes : List UInt8) :
    (proghdr bytes).vaddr < WORD ∧ (proghdr bytes).memsz < WORD := by
  have h := getLE_lt fun i => bytes.getD i 0
  have hW : 256 ^ 8 = WORD := by norm_num [WORD]
  exact ⟨hW ▸ h 8 16, hW ▸ h 8 40⟩

/-- **A segment of a program:** the bytes that are in the file, and zeros after them, in user
pages with its permissions. -/
structure Segment (m : Bytes) (root : ℕ) (ip : List UInt8) (ph : Proghdr) : Prop where
  bytes : ∀ j < ph.filesz, ubyte m root (ph.vaddr + j) = ip[ph.off + j]?
  zeros : ∀ j, ph.filesz ≤ j → j < ph.memsz → ubyte m root (ph.vaddr + j) = some 0
  perm : ∀ w, ph.vaddr / 4096 ≤ w → w < npages (ph.vaddr + ph.memsz) → ∃ e,
    leaf m root w = some e ∧ e % 2 ^ 10 = PTE_R ||| PTE_U ||| flags2perm ph.flags ||| PTE_V

/-- **The pages below `hi` stay,** with their bytes. -/
structure Kept (root hi : ℕ) (s s' : KMem) : Prop where
  leaf_eq : ∀ w < hi, leaf s'.mem root w = leaf s.mem root w
  byte_eq : ∀ x, x / 4096 < hi → ubyte s'.mem root x = ubyte s.mem root x

theorem Kept.refl (root hi : ℕ) (s : KMem) : Kept root hi s s := ⟨fun _ _ => rfl, fun _ _ => rfl⟩

theorem Kept.trans {s'' : KMem} {hi' : ℕ} (h : Kept root hi s s') (h' : Kept root hi' s' s'')
    (hle : hi ≤ hi') : Kept root hi s s'' where
  leaf_eq w hw := (h'.leaf_eq w (hw.trans_le hle)).trans (h.leaf_eq w hw)
  byte_eq x hx := (h'.byte_eq x (hx.trans_le hle)).trans (h.byte_eq x hx)

/-- Pages are added above. -/
theorem RangeStep.kept (h : RangeStep root lo hi F F' s s') (hlo : lo ≤ UPAGES) :
    Kept root lo s s' := by
  have hU := UPAGES_eq
  exact ⟨fun w hw => h.leaf_eq w (by omega) (by omega), fun x hx => h.ubyte_eq (by omega) (by omega)⟩

/-- Bytes are written above. -/
theorem UserFrame.kept {n : ℕ} (h : UserFrame root lo hi s s') (hn : n ≤ UPAGES)
    (hlo : n * 4096 ≤ lo) : Kept root n s s' := by
  have hU := UPAGES_eq
  exact ⟨fun w hw => h.leaf_eq w (by omega), fun x hx => h.byte_eq x (by omega) (by omega)⟩

/-- A segment below stays. -/
theorem Segment.kept {ip : List UInt8} {ph : Proghdr} (h : Segment s.mem root ip ph)
    (hk : Kept root (npages sz) s s') (hfile : ph.filesz ≤ ph.memsz)
    (hend : ph.vaddr + ph.memsz ≤ sz) : Segment s'.mem root ip ph where
  bytes j hj := by
    rw [hk.byte_eq _ (by unfold npages; omega)]
    exact h.bytes j hj
  zeros j hj hj' := by
    rw [hk.byte_eq _ (by unfold npages; omega)]
    exact h.zeros j hj hj'
  perm w hw hw' := by
    rw [hk.leaf_eq w (by unfold npages at *; omega)]
    exact h.perm w hw hw'

theorem loadProg_spec {ip : List UInt8} {ph : Proghdr} (hc : Chain s F)
    (hsep : Sep s.kend (F + asPages s.mem root)) (h : Image s root tf sz) (hv : ph.vaddr < WORD)
    (hm : ph.memsz < WORD) :
    Meets (loadProg root ip ph sz) s (fun r s' => ∃ F', AsStep root F F' s s' ∧
      Image s' root tf r.2 ∧ (r.1 = true → (ph.type = ELF_PROG_LOAD → sz ≤ ph.vaddr) →
        Kept root (npages sz) s s' ∧ (ph.type ≠ ELF_PROG_LOAD → r.2 = sz) ∧
        (ph.type = ELF_PROG_LOAD → ph.off + ph.filesz < 2 ^ 32 → r.2 = ph.vaddr + ph.memsz ∧
          ph.filesz ≤ ph.memsz ∧ Segment s'.mem root ip ph))) Never := by
  have hU := UPAGES_eq
  have hstay {Q : Prop} : ∃ F', AsStep root F F' s s ∧ Image s root tf sz ∧ (false = true → Q) :=
    ⟨F, .refl hc h.space.ok, h, nofun⟩
  rw [loadProg]
  split
  · rename_i htype
    exact ⟨F, .refl hc h.space.ok, h, fun _ _ => ⟨.refl _ _ _, fun _ => rfl,
      fun htype' => absurd htype' htype⟩⟩
  rename_i htype
  split
  · exact hstay
  split
  · exact hstay
  split
  · exact hstay
  rename_i hfilesz hover hal
  -- the end of the segment has not wrapped around
  have hend : (ph.vaddr + ph.memsz) % WORD = ph.vaddr + ph.memsz := by
    unfold WORD at *
    omega
  rw [meets_bind, hend]
  refine (h.uvmalloc_spec hc hsep (flags2perm_lt ph.flags)).imp ?_
  rintro r s₁ ⟨F₁, hstep, ⟨rfl, h₁, hrange, hzero⟩ | ⟨rfl, h₁⟩⟩
  · split
    · rename_i h0
      rw [meets_pure]
      exact ⟨F₁, hstep, by rwa [show sz = max sz (ph.vaddr + ph.memsz) by omega], nofun⟩
    rw [PGSIZE, not_not] at hal
    rw [meets_bind]
    refine (loadseg_spec hstep.chain (hstep.sep hsep) h₁ hal ?_).imp ?_
    · have := Nat.mod_le ph.filesz (2 ^ 32)
      omega
    rintro ret s₂ ⟨hstep₂, h₂, hframe, hloaded⟩
    refine ⟨F₁, hstep.trans hstep₂, h₂, fun hret hle => ?_⟩
    have hnp := npages_le.mpr h.space.size
    have hnp₁ := npages_le.mpr h₁.space.size
    have hbelow : npages sz * 4096 ≤ ph.vaddr := by
      unfold npages
      omega
    rw [show max sz (ph.vaddr + ph.memsz) = ph.vaddr + ph.memsz by omega] at hrange hzero hnp₁ ⊢
    refine ⟨(hrange.kept hnp).trans (hframe.kept hnp hbelow) le_rfl,
      fun htype' => absurd htype' htype, fun _ hoff => ⟨rfl, by omega, ?_⟩⟩
    rw [Nat.mod_eq_of_lt (show ph.off < 2 ^ 32 by omega),
      Nat.mod_eq_of_lt (show ph.filesz < 2 ^ 32 by omega)] at hloaded
    refine ⟨hloaded hoff (of_decide_eq_true hret), fun j hj hj' => ?_, fun w hw hw' => ?_⟩
    · have hlt : (ph.vaddr + j) / 4096 < npages (ph.vaddr + ph.memsz) := by
        unfold npages
        omega
      rw [hframe.byte_eq _ (by omega) (by omega)]
      exact hzero.ubyte_eq (perm_lt (flags2perm_lt _)) (by omega) hlt
    · obtain ⟨pg, -, -, hl, -⟩ := hzero w (by omega) hw'
      rw [hframe.leaf_eq w (by omega)]
      exact ⟨_, hl, flags_PA2PTE (Nat.or_lt_two_pow (perm_lt (flags2perm_lt _)) (by decide))⟩
  · rw [if_pos rfl, meets_pure]
    exact ⟨F₁, hstep, h₁, nofun⟩

/-- **Loading the program** keeps an image. -/
theorem loadLoop_spec {ip : List UInt8} {n off : ℕ} (hc : Chain s F)
    (hsep : Sep s.kend (F + asPages s.mem root)) (h : Image s root tf sz) :
    Meets (loadLoop root ip n off sz) s (fun r s' => ∃ F', AsStep root F F' s s' ∧
      Image s' root tf r.2) Never := by
  induction n generalizing s F off sz with
  | zero =>
    exact ⟨F, .refl hc h.space.ok, h⟩
  | succ n ih =>
    rw [loadLoop]
    split
    · rw [meets_pure]
      exact ⟨F, .refl hc h.space.ok, h⟩
    have hlt := proghdr_lt (readi ip off proghdrSize)
    rw [meets_bind]
    refine (loadProg_spec hc hsep h hlt.1 hlt.2).imp ?_
    rintro ⟨ok, sz₁⟩ s₁ ⟨F₁, hstep, h₁, -⟩
    cases ok
    · exact ⟨F₁, hstep, h₁⟩
    · refine (ih hstep.chain (hstep.sep hsep) h₁).imp ?_
      rintro _ s' ⟨F', hstep', h'⟩
      exact ⟨F', hstep.trans hstep', h'⟩

/-- The program headers from `off` on. -/
def headersFrom (ip : List UInt8) : ℕ → ℕ → List Proghdr
  | 0, _ => []
  | n + 1, off => proghdr (readi ip off proghdrSize) :: headersFrom ip n (off + proghdrSize)

/-- **The segments of a program:** their bytes are in the file, and each is above those before
it. -/
def Segments (ip : List UInt8) (phs : List Proghdr) : Prop :=
  (∀ ph ∈ phs, ph.type = ELF_PROG_LOAD → ph.off + ph.filesz ≤ ip.length) ∧
    phs.Pairwise fun ph ph' => ph.type = ELF_PROG_LOAD → ph'.type = ELF_PROG_LOAD →
      ph.vaddr + ph.memsz ≤ ph'.vaddr

/-- **All segments are loaded** if the program is in order. -/
theorem loadLoop_loads {ip : List UInt8} {n off : ℕ} (hc : Chain s F)
    (hsep : Sep s.kend (F + asPages s.mem root)) (h : Image s root tf sz)
    (hlen : ip.length < 2 ^ 32) (hoff : off + n * proghdrSize ≤ ip.length)
    (hsegs : Segments ip (headersFrom ip n off))
    (hsz : ∀ ph ∈ headersFrom ip n off, ph.type = ELF_PROG_LOAD → sz ≤ ph.vaddr) :
    Meets (loadLoop root ip n off sz) s (fun r s' => ∃ F', AsStep root F F' s s' ∧
      Image s' root tf r.2 ∧ (r.1 = true → sz ≤ r.2 ∧ Kept root (npages sz) s s' ∧
        (r.2 = sz ∨ ∃ ph ∈ headersFrom ip n off, ph.type = ELF_PROG_LOAD ∧
          r.2 = ph.vaddr + ph.memsz) ∧
        ∀ ph ∈ headersFrom ip n off, ph.type = ELF_PROG_LOAD → ph.filesz ≤ ph.memsz ∧
          ph.vaddr + ph.memsz ≤ r.2 ∧ Segment s'.mem root ip ph)) Never := by
  induction n generalizing s F off sz with
  | zero =>
    rw [loadLoop, meets_pure]
    exact ⟨F, .refl hc h.space.ok, h, fun _ => ⟨le_rfl, .refl _ _ _, .inl rfl, nofun⟩⟩
  | succ n ih =>
    rw [loadLoop]
    split
    · rw [meets_pure]
      exact ⟨F, .refl hc h.space.ok, h, nofun⟩
    have hlt := proghdr_lt (readi ip off proghdrSize)
    rw [headersFrom] at hsegs hsz ⊢
    obtain ⟨hin, hpair⟩ := hsegs
    obtain ⟨hfirst, htail⟩ := pairwise_cons.mp hpair
    generalize proghdr (readi ip off proghdrSize) = ph at *
    rw [meets_bind]
    refine (loadProg_spec hc hsep h hlt.1 hlt.2).imp ?_
    rintro ⟨ok, sz₁⟩ s₁ ⟨F₁, hstep, h₁, hload⟩
    cases ok
    · exact ⟨F₁, hstep, h₁, nofun⟩
    obtain ⟨hkept, hskip, hseg⟩ := hload rfl (hsz ph mem_cons_self)
    have hoff' : (off + proghdrSize) % 2 ^ 32 = off + proghdrSize :=
      Nat.mod_eq_of_lt (by unfold proghdrSize at *; omega)
    have hle : sz ≤ sz₁ := by
      by_cases htype : ph.type = ELF_PROG_LOAD
      · have := hsz ph mem_cons_self htype
        have := (hseg htype (by have := hin ph mem_cons_self htype; omega)).1
        omega
      · exact (hskip htype).ge
    simp only [Bool.not_true, Bool.false_eq_true, if_false, hoff']
    refine (ih hstep.chain (hstep.sep hsep) h₁ (by unfold proghdrSize at *; omega)
      ⟨fun ph' hph' => hin ph' (mem_cons_of_mem _ hph'), htail⟩ ?_).imp ?_
    · intro ph' hph' htype'
      by_cases htype : ph.type = ELF_PROG_LOAD
      · rw [(hseg htype (by have := hin ph mem_cons_self htype; omega)).1]
        exact hfirst ph' hph' htype htype'
      · rw [hskip htype]
        exact hsz ph' (mem_cons_of_mem _ hph') htype'
    · rintro ⟨ok, sz₂⟩ s' ⟨F', hstep', h', hrest⟩
      refine ⟨F', hstep.trans hstep', h', fun hok => ?_⟩
      obtain ⟨hle', hkept', hlast, hsegs⟩ := hrest hok
      refine ⟨hle.trans hle', hkept.trans hkept' (by unfold npages; omega), ?_,
        fun ph' hph' htype => ?_⟩
      · rcases hlast with hlast | ⟨ph', hph', hlast⟩
        · by_cases htype : ph.type = ELF_PROG_LOAD
          · refine .inr ⟨ph, mem_cons_self, htype, hlast.trans ?_⟩
            exact (hseg htype (by have := hin ph mem_cons_self htype; omega)).1
          · exact .inl (hlast.trans (hskip htype))
        · exact .inr ⟨ph', mem_cons_of_mem _ hph', hlast⟩
      rcases mem_cons.mp hph' with rfl | hph'
      · obtain ⟨hend, hfile, hseg⟩ :=
          hseg htype (by have := hin _ mem_cons_self htype; omega)
        exact ⟨hfile, hend ▸ hle', hseg.kept hkept' hfile hend.ge⟩
      · exact hsegs ph' hph' htype

/-! ## The user stack -/

theorem and_PTE_U_cases (e : ℕ) : e &&& PTE_U = 0 ∨ e &&& PTE_U = 16 ∧ e / 16 % 2 = 1 := by
  by_cases h0 : e &&& PTE_U = 0
  · exact .inl h0
  · refine .inr ⟨?_, (and_two_pow_ne_zero e 4).mp h0⟩
    rw [PTE_U, Nat.and_two_pow] at h0 ⊢
    cases ht : e.testBit 4 <;> simp_all

/-- Clearing `PTE_U` leaves the rest of an entry alone. -/
theorem clear_PTE_U (e : ℕ) :
    e - (e &&& PTE_U) ≤ e ∧ (e - (e &&& PTE_U)) % 2 = e % 2 ∧
      PTE2PA (e - (e &&& PTE_U)) = PTE2PA e := by
  have h := and_PTE_U_cases e
  have hdiv : (e - (e &&& PTE_U)) / 2 ^ 10 = e / 2 ^ 10 := by omega
  exact ⟨Nat.sub_le .., by omega, by rw [PTE2PA, hdiv, PTE2PA]⟩

theorem clear_PTE_U_read {e : ℕ} (h : e &&& PTE_R ≠ 0) : (e - (e &&& PTE_U)) &&& PTE_R ≠ 0 := by
  rw [PTE_R, and_two_pow_ne_zero] at h ⊢
  have := and_PTE_U_cases e
  omega

theorem clear_and_PTE_U (e : ℕ) : (e - (e &&& PTE_U)) &&& PTE_U = 0 := by
  by_contra hne
  have hbit := (and_two_pow_ne_zero _ 4).mp hne
  rcases and_PTE_U_cases e with h | ⟨h, h'⟩
  · rw [h, Nat.sub_zero] at hne
    exact hne h
  · omega

/-- **`uvmclear`** takes the permission `PTE_U` from an entry. -/
theorem uvmclear_clears (hc : Chain s F) (hsep : Sep s.kend (F + tables s.mem root))
    (hok : PtOk s.mem root) (hva : va < MAXVA) :
    Meets (uvmclear root va) s (fun _ s' => PtStep root F F s s' ∧
      tables s'.mem root = tables s.mem root ∧
      ∀ w < 512 ^ 3, leaf s'.mem root w = if w = va / 4096 then
        (leaf s.mem root w).map (fun e => e - (e &&& PTE_U)) else leaf s.mem root w)
      (fun msg => msg = "uvmclear" ∧ leaf s.mem root (va / 4096) = none) := by
  have hM : MAXVA = 2 ^ 38 := rfl
  have hcases := slot_cases hsep.right.page (show va / 4096 < 512 ^ 3 by omega)
  rw [uvmclear, meets_bind, meets_walk hva]
  set e := getLE 8 s.mem (slot s.mem root (va / 4096)) with he
  have hlt : e < 256 ^ 8 := getLE_lt s.mem 8 _
  obtain ⟨h1, h2, -⟩ := clear_PTE_U e
  rcases hcases with ⟨h0, hl⟩ | ⟨h0, p, hp, hslot, hentry⟩
  · rw [if_pos h0, meets_panic]
    exact ⟨rfl, hl⟩
  have hl : leaf s.mem root (va / 4096) = (some e).filter (fun e => e % 2 = 1) := by
    rcases hentry with ⟨hval, hl⟩ | ⟨hval, hl⟩
    · rw [hl, Option.filter_some, if_pos (by simpa using hval)]
    · rw [hl, Option.filter_some, if_neg (by simpa using hval)]
  rw [if_neg h0]
  simp only [VM.load, VM.store, meets_bind, meets_get, meets_pure, meets_modify, ← he]
  rw [hslot]
  obtain ⟨hstep, htab, hleaf⟩ := PtStep.setLeaf hc hsep hok (by omega) hp (h1.trans_lt hlt)
  refine ⟨hstep, htab, fun w hw => ?_⟩
  rw [hleaf w hw]
  split
  · rename_i hwv
    rw [hwv, hl, Option.filter_some, Option.filter_some, h2]
    split <;> rfl
  · rfl

/-- **`uvmclear`** takes a page from the user, which stays mapped. -/
theorem uvmclear_spec (hc : Chain s F) (hsep : Sep s.kend (F + asPages s.mem root))
    (h : AddrSpace s root tf sz) (hv : va / 4096 < npages sz)
    (hl : leaf s.mem root (va / 4096) = some e) :
    Meets (uvmclear root va) s (fun _ s' => AsStep root F F s s' ∧ AddrSpace s' root tf sz ∧
      leaf s'.mem root (va / 4096) = some (e - (e &&& PTE_U)) ∧
      (∀ w < 512 ^ 3, w ≠ va / 4096 → leaf s'.mem root w = leaf s.mem root w) ∧
      ∀ x, x / 4096 < UPAGES → x / 4096 ≠ va / 4096 →
        ubyte s'.mem root x = ubyte s.mem root x) Never := by
  have hU := UPAGES_eq
  have hM : MAXVA = 2 ^ 38 := rfl
  have hle := npages_le.mpr h.size
  refine (uvmclear_clears hc hsep.tables h.ok (by omega)).mono ?_ ?_
  · rintro _ s' ⟨hstep, -, hleaf⟩
    have hne : ∀ w < 512 ^ 3, w ≠ va / 4096 → leaf s'.mem root w = leaf s.mem root w :=
      fun w hw hne => (hleaf w hw).trans (if_neg hne)
    have hframes : frames s'.mem root = frames s.mem root := values_congr fun w hw => by
      rw [hleaf w (by omega)]
      split
      · rw [Option.map_map, show PTE2PA ∘ (fun e => e - (e &&& PTE_U)) = PTE2PA from
          funext fun e => (clear_PTE_U e).2.2]
      · rfl
    have hstep' := hstep.asStep hframes
    refine ⟨hstep', h.step hstep' h.size (fun w hw hnp => ?_) (fun w hw hge => ?_)
      (fun w hw e' he' => ?_), ?_, hne, fun x hx hxv => ?_⟩
    · rw [hne w (by omega) (by omega)]
      exact h.below w hw hnp
    · exact hne w hw (by omega)
    · rw [hleaf w (by omega)] at he'
      split at he'
      · obtain ⟨e₀, he₀, rfl⟩ := Option.map_eq_some_iff.mp he'
        exact clear_PTE_U_read (h.readable w hw e₀ he₀)
      · exact h.readable w hw e' he'
    · rw [hleaf _ (by omega), if_pos rfl, hl]
      rfl
    · rw [ubyte, hne _ (by omega) hxv, ubyte]
      refine Option.map_congr fun e' he' => ?_
      exact frame_samePage hsep hx he' hstep.touches (fun q => id) _ (Nat.mod_lt x (by decide))
  · rintro msg ⟨-, hnone⟩
    rw [hl] at hnone
    cases hnone

/-- What is left to copy begins with the next page. -/
theorem next_page {x n len : ℕ} (h : x + len ≤ hi * 4096) (hlen : len ≠ 0)
    (hn : n = min (4096 - x % 4096) len) : x / 4096 * 4096 + 4096 + (len - n) ≤ hi * 4096 := by
  omega

/-- **`copyout`** to pages that are mapped, whatever process is running. -/
theorem copyoutLoop_users_spec {me : Me} {fuel dstva : ℕ} {src : List UInt8} (hc : Chain s F)
    (hsep : Sep s.kend (F + asPages s.mem root)) (hok : PtOk s.mem root)
    (hu : Users s.mem root lo hi) (hlo : lo * 4096 ≤ dstva) (hhi : dstva + src.length ≤ hi * 4096) :
    Meets (copyoutLoop me root fuel dstva src) s (fun r s' => AsStep root F F s s' ∧
      UserFrame root dstva (dstva + src.length) s s' ∧
      (src.length ≤ fuel → 0 ≤ r → HasBytes s'.mem root dstva src) ∧
      (Writable s.mem root lo hi → r = 0)) Never := by
  have hU := UPAGES_eq
  have hM : MAXVA = 2 ^ 38 := rfl
  have hW : WORD = 2 ^ 64 := rfl
  induction fuel generalizing s dstva src with
  | zero =>
    rw [copyoutLoop, meets_pure]
    exact ⟨.refl hc hok, .refl _ _ _ _, fun hfuel _ i hi => by omega, fun _ => rfl⟩
  | succ fuel ih =>
    simp only [copyoutLoop]
    split
    · rename_i hnil
      exact ⟨.refl hc hok, .refl _ _ _ _, fun _ _ i hi => by omega, fun _ => rfl⟩
    rename_i hlen
    have hlo' : lo * 4096 ≤ dstva / 4096 * 4096 + 4096 := by omega
    have hdown : PGROUNDDOWN dstva / 4096 = dstva / 4096 := by
      unfold PGROUNDDOWN PGSIZE
      omega
    have hdown' : PGROUNDDOWN dstva = dstva / 4096 * 4096 := rfl
    obtain ⟨hv, e, hl, hue⟩ := hu (dstva / 4096) (by omega) (by omega)
    have hva : PGROUNDDOWN dstva < MAXVA := by omega
    have hpage := PTE2PA_page hsep hv hl
    rw [if_neg (by omega), meets_bind, userPage, meets_bind,
      meets_walkaddr hsep.tables.right.page, userAddr_of_user hva (hdown.symm ▸ hl) hue,
      if_neg (by have := hpage.2.2.2; omega), meets_pure,
      if_neg (by have := hpage.2.2.2; omega), meets_bind, meets_walk hva, meets_bind]
    simp only [VM.load, meets_bind, meets_get, meets_pure]
    split
    · rename_i hro
      rw [hdown, entry_of_leaf hsep.tables.right.page (by omega) hl] at hro
      exact ⟨.refl hc hok, .refl _ _ _ _, fun _ h => absurd h (by decide), fun hw =>
        absurd hro ((hw _ (by omega) (by omega)).2 e hl)⟩
    -- the bytes copied are within the page
    set n := min (PGSIZE - (dstva - PGROUNDDOWN dstva)) src.length with hn
    have hn' : n = min (4096 - dstva % 4096) src.length := by
      rw [hn, PGSIZE]
      omega
    clear_value n
    clear hn
    have hbase : dstva / 4096 * 4096 + (dstva - PGROUNDDOWN dstva) = dstva := by omega
    have hhi' := next_page hhi hlen hn'
    have hnext : PGROUNDDOWN dstva + PGSIZE < WORD := by
      unfold PGSIZE
      omega
    obtain ⟨hstep, hframe, hhas⟩ := AsStep.writeBytes hc hsep hok hv hl
      (show dstva - PGROUNDDOWN dstva + (src.take n).length ≤ 4096 by
        rw [length_take]
        omega) rfl
    rw [hbase, length_take] at hframe
    rw [hbase] at hhas
    rw [Nat.mod_eq_of_lt hnext, hdown', PGSIZE]
    refine (ih hstep.chain (hstep.sep hsep) hstep.ok (hu.congr hframe.leaf_eq) hlo'
      (by rwa [length_drop])).imp ?_
    rintro r s' ⟨hstep', hframe', hhas', hret⟩
    rw [length_drop] at hframe' hhas'
    refine ⟨hstep.trans hstep', (hframe.mono (by omega)).trans (hframe'.mono (by omega)),
      fun hfuel hr i hi => ?_, fun hw => hret (hw.congr hframe.leaf_eq)⟩
    rcases Nat.lt_or_ge i n with hlt | hge
    · rw [hframe'.byte_eq _ (by omega) (by omega), hhas i (by rw [length_take]; omega),
        getElem?_take_of_lt hlt]
    · have heq : dstva + i = dstva / 4096 * 4096 + 4096 + (i - n) := by omega
      have hlt : i - n < src.length - n := by omega
      rw [heq, hhas' (by omega) hr (i - n) (by rwa [length_drop]), getElem?_drop,
        show n + (i - n) = i by omega]

theorem copyout_users_spec {me : Me} {dstva : ℕ} {src : List UInt8} (hc : Chain s F)
    (hsep : Sep s.kend (F + asPages s.mem root)) (hok : PtOk s.mem root)
    (hu : Users s.mem root lo hi) (hlo : lo * 4096 ≤ dstva) (hhi : dstva + src.length ≤ hi * 4096) :
    Meets (copyout me root dstva src) s (fun r s' => AsStep root F F s s' ∧
      UserFrame root dstva (dstva + src.length) s s' ∧
      (0 ≤ r → HasBytes s'.mem root dstva src) ∧ (Writable s.mem root lo hi → r = 0)) Never :=
  (copyoutLoop_users_spec hc hsep hok hu hlo hhi).imp fun _ _ h =>
    ⟨h.1, h.2.1, h.2.2.1 le_rfl, h.2.2.2⟩

/-- Moving the stack pointer down by less than a page. -/
theorem push_sp {sp n : ℕ} (hn : n ≤ 4096) (hsp : 4096 ≤ sp) (hlt : sp < WORD) :
    (sp + WORD - n) % WORD - (sp + WORD - n) % WORD % 16 + n ≤ sp := by
  unfold WORD at *
  omega

/-- **Strings on the stack,** from `top` down to `bot`: each has its 0 and is below those before
it, at an address that is a multiple of 16. -/
inductive Stacked (m : Bytes) (root : ℕ) : ℕ → List (List UInt8) → List ℕ → ℕ → Prop
  | nil {top : ℕ} : Stacked m root top [] [] top
  | cons {top a bot : ℕ} {arg : List UInt8} {argv : List (List UInt8)} {addrs : List ℕ} :
    a % 16 = 0 → a + (arg.length + 1) ≤ top → HasBytes m root a (arg ++ [0]) →
    Stacked m root a argv addrs bot → Stacked m root top (arg :: argv) (a :: addrs) bot

/-- Strings stay where only lower bytes change. -/
theorem Stacked.frame {top bot : ℕ} {argv : List (List UInt8)} {addrs : List ℕ}
    (h : Stacked s.mem root top argv addrs bot) (hf : UserFrame root lo hi s s')
    (htop : ∀ x < top, x / 4096 < UPAGES) (hbot : hi ≤ bot) :
    Stacked s'.mem root top argv addrs bot ∧ bot ≤ top := by
  induction h with
  | nil => exact ⟨.nil, le_rfl⟩
  | cons halign hle hhas _ ih =>
    obtain ⟨hrest, hbot'⟩ := ih (fun x hx => htop x (by omega)) hbot
    refine ⟨.cons halign hle (hf.hasBytes hhas (fun x hx => htop x ?_) (.inr (hbot.trans hbot')))
      hrest, by omega⟩
    rw [length_append, length_singleton] at hx
    omega

theorem Stacked.length_eq {top bot : ℕ} {argv : List (List UInt8)} {addrs : List ℕ}
    (h : Stacked m root top argv addrs bot) : addrs.length = argv.length := by
  induction h with
  | nil => rfl
  | cons _ _ _ _ ih => rw [length_cons, length_cons, ih]

/-- Copying the arguments to the stack. -/
theorem pushLoop_spec {me : Me} {argv : List (List UInt8)} {sp : ℕ} {ustack : List ℕ}
    (hc : Chain s F) (hsep : Sep s.kend (F + asPages s.mem root)) (hok : PtOk s.mem root)
    (hu : Users s.mem root lo hi) (hargv : ∀ arg ∈ argv, arg.length < 4096) (hlo : 1 ≤ lo)
    (hsp : lo * 4096 ≤ sp) (hhi : sp ≤ hi * 4096) (hmax : hi ≤ UPAGES)
    (hustack : ustack.length ≤ MAXARG) :
    Meets (pushLoop me root (lo * 4096) argv sp ustack) s (fun r s' => AsStep root F F s s' ∧
      UserFrame root (lo * 4096) sp s s' ∧
      ∀ x ∈ r, lo * 4096 ≤ x.1 ∧ x.1 ≤ hi * 4096 ∧ x.2.length ≤ MAXARG ∧
        ∃ addrs, x.2 = ustack ++ addrs ∧ Stacked s'.mem root sp argv addrs x.1) Never := by
  have hU := UPAGES_eq
  have hlt : hi * 4096 < WORD := by
    unfold WORD
    omega
  induction argv generalizing s sp ustack with
  | nil =>
    rw [pushLoop, meets_pure]
    refine ⟨.refl hc hok, .refl _ _ _ _, ?_⟩
    rintro x hx
    cases hx
    exact ⟨hsp, hhi, hustack, [], (append_nil _).symm, .nil⟩
  | cons arg argv ih =>
    have hbad {P : ℕ × List ℕ → Prop} : AsStep root F F s s ∧ UserFrame root (lo * 4096) sp s s ∧
        ∀ x ∈ (none : Option (ℕ × List ℕ)), P x :=
      ⟨.refl hc hok, .refl _ _ _ _, nofun⟩
    have harg := hargv arg mem_cons_self
    have hpush := push_sp (n := arg.length + 1) harg (by omega) (hhi.trans_lt hlt)
    have hlen : (arg ++ [0]).length = arg.length + 1 := length_append
    simp only [pushLoop]
    split
    · exact hbad
    rename_i hargs
    split
    · exact hbad
    have halign : ((sp + WORD - (arg.length + 1)) % WORD -
        (sp + WORD - (arg.length + 1)) % WORD % 16) % 16 = 0 := by
      generalize (sp + WORD - (arg.length + 1)) % WORD = y
      omega
    generalize (sp + WORD - (arg.length + 1)) % WORD - (sp + WORD - (arg.length + 1)) % WORD % 16
      = sp' at *
    rw [meets_bind]
    refine (copyout_users_spec hc hsep hok hu (by omega) (by omega)).imp ?_
    rintro ret s₁ ⟨hstep, hframe, hhas, -⟩
    have hframe' : UserFrame root (lo * 4096) sp s s₁ := hframe.mono (by omega)
    split
    · exact ⟨hstep, hframe', nofun⟩
    refine (ih hstep.chain (hstep.sep hsep) hstep.ok (hu.congr hframe.leaf_eq)
      (fun a ha => hargv a (mem_cons_of_mem _ ha)) (by omega) (by omega) ?_).imp ?_
    · rw [length_append, length_singleton]
      omega
    · rintro r s' ⟨hstep', hframe'', hr⟩
      refine ⟨hstep.trans hstep', hframe'.trans (hframe''.mono (by omega)), fun x hx => ?_⟩
      obtain ⟨h1, h2, h3, addrs, heq, hstack⟩ := hr x hx
      refine ⟨h1, h2, h3, sp' :: addrs, ?_, .cons halign hpush ?_ hstack⟩
      · rw [heq, append_assoc, singleton_append]
      · exact hframe''.hasBytes (hhas (by omega)) (fun y hy => by omega) (.inr le_rfl)

theorem words_length (l : List ℕ) : (words l).length = 8 * l.length := by
  induction l with
  | nil => rfl
  | cons x l ih =>
    rw [words, flatMap_cons, length_append, length_cons, ← words, ih,
      length_map, length_range]
    omega

/-- **The user stack,** in page `v`: the strings, and below them, at a multiple of 16, their
addresses followed by a 0. -/
def ArgStack (m : Bytes) (root v : ℕ) (argv : List (List UInt8)) (sp : ℕ) : Prop :=
  ∃ addrs bot, Stacked m root ((v + 1) * 4096) argv addrs bot ∧ sp % 16 = 0 ∧ v * 4096 ≤ sp ∧
    sp + 8 * (argv.length + 1) ≤ bot ∧ HasBytes m root sp (words (addrs ++ [0]))

theorem pushArgs_spec {me : Me} {argv : List (List UInt8)} (hc : Chain s F)
    (hsep : Sep s.kend (F + asPages s.mem root)) (hok : PtOk s.mem root)
    (hu : Users s.mem root (k + 1) (k + 2)) (hargv : ∀ arg ∈ argv, arg.length < 4096) :
    Meets (pushArgs me root ((k + 2) * 4096) argv) s (fun r s' => AsStep root F F s s' ∧
      UserFrame root ((k + 1) * 4096) ((k + 2) * 4096) s s' ∧
      ∀ x ∈ r, ArgStack s'.mem root (k + 1) argv x.1 ∧ x.1 ≤ (k + 2) * 4096 ∧
        x.2 = argv.length) Never := by
  have hk := (hu (k + 1) le_rfl (by omega)).1
  have hU := UPAGES_eq
  have htop : ∀ x < (k + 2) * 4096, x / 4096 < UPAGES := fun x hx => by omega
  have hlt : (k + 2) * 4096 < WORD := by
    unfold WORD
    omega
  have hbase : (k + 2) * 4096 - USERSTACK * PGSIZE = (k + 1) * 4096 := by
    unfold USERSTACK PGSIZE
    omega
  rw [pushArgs, hbase, meets_bind]
  refine (pushLoop_spec hc hsep hok hu hargv (by omega) (by omega) le_rfl (by omega)
    (Nat.zero_le _)).imp ?_
  rintro (_ | ⟨sp, ustack⟩) s₁ ⟨hstep, hframe, hr⟩
  · exact ⟨hstep, hframe, nofun⟩
  obtain ⟨h1, h2, h3, addrs, heq, hstack⟩ := hr _ rfl
  simp only at h1 h2 h3 heq hstack ⊢
  unfold MAXARG at h3
  subst heq
  have hpush := push_sp (n := (ustack.length + 1) * 8) (by omega) (by omega) (h2.trans_lt hlt)
  have hlen : (words (ustack ++ [0])).length = (ustack.length + 1) * 8 := by
    rw [words_length, length_append, length_singleton, Nat.mul_comm]
  split
  · exact ⟨hstep, hframe, nofun⟩
  have halign : ((sp + WORD - (ustack.length + 1) * 8) % WORD -
      (sp + WORD - (ustack.length + 1) * 8) % WORD % 16) % 16 = 0 := by
    generalize (sp + WORD - (ustack.length + 1) * 8) % WORD = y
    omega
  generalize (sp + WORD - (ustack.length + 1) * 8) % WORD -
    (sp + WORD - (ustack.length + 1) * 8) % WORD % 16 = sp' at *
  rw [meets_bind]
  refine (copyout_users_spec hstep.chain (hstep.sep hsep) hstep.ok (hu.congr hframe.leaf_eq)
    (by omega) (by omega)).imp ?_
  rintro ret s' ⟨hstep', hframe', hhas, -⟩
  rw [hlen] at hframe'
  have hall := hframe.trans (hframe'.mono (by omega))
  split
  · exact ⟨hstep.trans hstep', hall, nofun⟩
  · rename_i hret
    refine ⟨hstep.trans hstep', hall, fun x hx => ?_⟩
    cases hx
    obtain ⟨hstack', -⟩ := hstack.frame hframe' htop hpush
    have hargc := hstack.length_eq
    exact ⟨⟨ustack, sp, hstack', halign, by omega, by omega, hhas (by omega)⟩, by omega, hargc⟩

/-! ## `kexec` -/

/-- **The image of a program:** a guard page that the user cannot access is above the pages of the
program, and above it is the user stack. -/
structure UserStack (m : Bytes) (root sz sz₁ : ℕ) (argv : List (List UInt8)) (sp argc : ℕ) :
    Prop where
  size : sz = (npages sz₁ + 2) * 4096
  guard : ∃ e, leaf m root (npages sz₁) = some e ∧ e &&& PTE_U = 0
  user : ∃ e, leaf m root (npages sz₁ + 1) = some e ∧
    e % 2 ^ 10 = PTE_R ||| PTE_U ||| PTE_W ||| PTE_V
  args : ArgStack m root (npages sz₁ + 1) argv sp
  argc_eq : argc = argv.length

/-- The stack stays where nothing changes for the user. -/
theorem UserStack.frame {sz₁ sp argc : ℕ} {argv : List (List UInt8)}
    (h : UserStack s.mem root sz sz₁ argv sp argc) (hf : UserFrame root 0 0 s s')
    (hsz : npages sz₁ + 2 ≤ UPAGES) : UserStack s'.mem root sz sz₁ argv sp argc where
  size := h.size
  guard := by
    rw [UPAGES_eq] at hsz
    rw [hf.leaf_eq _ (by omega)]
    exact h.guard
  user := by
    rw [UPAGES_eq] at hsz
    rw [hf.leaf_eq _ (by omega)]
    exact h.user
  args := by
    obtain ⟨addrs, bot, hstack, halign, hlo, hbot, hhas⟩ := h.args
    have htop : ∀ x < (npages sz₁ + 1 + 1) * 4096, x / 4096 < UPAGES := fun x hx => by omega
    obtain ⟨hstack', hle⟩ := hstack.frame hf htop (Nat.zero_le _)
    refine ⟨addrs, bot, hstack', halign, hlo, hbot, hf.hasBytes hhas (fun y hy => htop y ?_)
      (.inr (Nat.zero_le _))⟩
    rw [words_length, length_append, length_singleton, hstack.length_eq] at hy
    omega
  argc_eq := h.argc_eq

/-- **The new address space is built**; it is sound also where `kexec` gives it up. What is
known of the program when it is loaded is `P`. -/
theorem buildImage_spec {me : Me} {ip : List UInt8} {argv : List (List UInt8)}
    {P : ℕ → KMem → Prop} (hsep : Sep s.kend (F + asPages s.mem root))
    (hload : Meets (loadLoop root ip (field (readi ip 0 elfhdrSize) 2 56)
      (field (readi ip 0 elfhdrSize) 8 32 % 2 ^ 32) 0) s (fun r s' => ∃ F', AsStep root F F' s s' ∧
        Image s' root tf r.2 ∧ (r.1 = true → P r.2 s')) Never)
    (hargv : ∀ arg ∈ argv, arg.length < 4096) :
    Meets (buildImage me root ip argv) s (fun r s' => ∃ F', AsStep root F F' s s' ∧
      AddrSpace s' root tf r.1 ∧ ∀ x ∈ r.2, x.1 < WORD ∧ ∃ sz s₁, P sz s₁ ∧
        Kept root (npages sz) s₁ s' ∧ UserStack s'.mem root r.1 sz argv x.1 x.2) Never := by
  have hU := UPAGES_eq
  rw [buildImage, meets_bind]
  refine hload.imp ?_
  rintro ⟨ok, sz⟩ s₁ ⟨F₁, hstep, h₁, hP⟩
  cases ok
  · exact ⟨F₁, hstep, h₁.space, nofun⟩
  have hsep₁ := hstep.sep hsep
  simp only at h₁
  have hP := hP rfl
  have hup := PGROUNDUP_eq h₁.space.size
  have hnp : npages (PGROUNDUP sz) = npages sz := by
    rw [hup]
    unfold npages
    omega
  have h₁' : Image s₁ root tf (PGROUNDUP sz) :=
    ⟨⟨h₁.space.ok, PGROUNDUP_le_TRAPFRAME h₁.space.size, hnp.symm ▸ h₁.space.below,
      h₁.space.above, h₁.space.trapframe, h₁.space.trampoline, h₁.space.readable⟩,
      hnp.symm ▸ h₁.full⟩
  simp only [Bool.not_true, Bool.false_eq_true, if_false]
  rw [meets_bind]
  refine (h₁'.uvmalloc_spec hstep.chain hsep₁ (by decide)).imp ?_
  rintro r s₂ ⟨F₂, hstep₂, ⟨hr, h₂, hrange, hzero⟩ | ⟨rfl, h₂⟩⟩
  · have hr' : r = (npages sz + 2) * 4096 := by
      rw [hr, hup]
      unfold USERSTACK PGSIZE
      omega
    have hr2 : npages r = npages sz + 2 := by
      rw [hr']
      unfold npages
      omega
    have hclear : r - (USERSTACK + 1) * PGSIZE = npages sz * 4096 := by
      omega
    rw [if_neg (by omega), meets_bind, hclear]
    rw [hnp, hr2] at hrange hzero
    have hle := npages_le.mpr h₂.space.size
    have hfull := h₂.full
    rw [hr2] at hfull
    obtain ⟨-, e, hl, -⟩ := hfull (npages sz) (Nat.zero_le _) (by omega)
    have hdiv : npages sz * 4096 / 4096 = npages sz := by omega
    refine (uvmclear_spec hstep₂.chain (hstep₂.sep hsep₁) h₂.space (by omega)
      (hdiv.symm ▸ hl)).imp ?_
    rintro _ s₃ ⟨hstep₃, h₃, hguard, hleaf, hbyte⟩
    rw [hdiv] at hguard hleaf hbyte
    -- the page above the guard is the user stack
    have hstack : Users s₃.mem root (npages sz + 1) (npages sz + 2) := by
      intro v hv hv'
      obtain ⟨hlt, he⟩ := hfull v (Nat.zero_le v) hv'
      rw [hleaf v (by omega) (by omega)]
      exact ⟨hlt, he⟩
    rw [meets_bind, hr']
    refine (pushArgs_spec hstep₃.chain (hstep₃.sep (hstep₂.sep hsep₁)) hstep₃.ok hstack hargv).imp ?_
    rintro x s' ⟨hstep', hframe, hargs⟩
    rw [meets_pure, ← hr']
    refine ⟨F₂, ((hstep.trans hstep₂).trans hstep₃).trans hstep', h₃.same hstep' hframe.leaf_eq,
      fun x hx => ?_⟩
    obtain ⟨hargs, hsp, hargc⟩ := hargs x hx
    have hkept₃ : Kept root (npages sz) s₂ s₃ :=
      ⟨fun w hw => hleaf w (by omega) (by omega), fun x hx => hbyte x (by omega) (by omega)⟩
    refine ⟨?_, sz, s₁, hP, ((hrange.kept (by omega)).trans hkept₃ le_rfl).trans
      (hframe.kept (by omega) (by omega)) le_rfl, hr', ?_, ?_, hargs, hargc⟩
    · refine hsp.trans_lt ?_
      unfold WORD
      omega
    · rw [hframe.leaf_eq _ (by omega), hguard]
      exact ⟨_, rfl, clear_and_PTE_U e⟩
    · obtain ⟨pg, -, -, hpg, -⟩ := hzero (npages sz + 1) (by omega) (by omega)
      rw [hframe.leaf_eq _ (by omega), hleaf _ (by omega) (by omega)]
      exact ⟨_, hpg, flags_PA2PTE (by decide)⟩
  · rw [if_pos rfl, meets_pure]
    exact ⟨F₂, hstep.trans hstep₂, h₂.space, nofun⟩

/-- One address space takes the place of another, whose pages it has or which are free now. -/
structure Replaces (tf : ℕ) (me me' : Me) (F F' : Multiset ℕ) (s s' : KMem) : Prop where
  chain : Chain s' F'
  sum : F' + asPages s'.mem me'.pagetable = F + asPages s.mem me.pagetable
  touches : Touches (tf ::ₘ (F + asPages s.mem me.pagetable)) s s'
  space : AddrSpace s' me'.pagetable tf me'.sz

/-- Only free pages have been touched. -/
theorem Replaces.of_free {me : Me} (hsep : Sep s.kend (tf ::ₘ (F + asPages s.mem me.pagetable)))
    (h : AddrSpace s me.pagetable tf me.sz) (hc : Chain s' F) (ht : Touches F s s') :
    Replaces tf me me F F s s' := by
  rw [← cons_add] at hsep
  obtain ⟨h', hpages⟩ := h.frame ht fun p hp => by
    have hp' : p ∈ asPages s.mem me.pagetable := mem_add.mpr (.inl hp)
    refine ⟨(hsep.right.page p hp').1, fun hF => ?_⟩
    exact hsep.not_mem (mem_cons_of_mem hF) hp'
  exact ⟨hc, by rw [hpages], ht.mono fun p hp =>
    mem_cons_of_mem (mem_add.mpr (.inl hp)), h'⟩

theorem Touches.stores (htf : tf % 4096 = 0) {x y z : ℕ} :
    Touches {tf} s { s with
      mem := putLE 8 (putLE 8 (putLE 8 s.mem (tf + 120) x) (tf + 24) y) (tf + 48) z } :=
  ((Touches.store htf (by omega)).trans (.store htf (by omega))).trans (.store htf (by omega))

/-- Changes elsewhere are no changes for the user. -/
theorem Touches.userFrame {W : Multiset ℕ} (h : Touches W s s')
    (hW : ∀ p ∈ asPages s.mem root, p % 4096 = 0 ∧ p ∉ W) : UserFrame root 0 0 s s' := by
  have hU := UPAGES_eq
  obtain ⟨-, -, hleaf, -⟩ := h.tree root fun p hp => hW p (mem_add.mpr (.inl hp))
  refine ⟨hleaf, fun x hx _ => ?_⟩
  rw [ubyte, hleaf _ (by omega), ubyte]
  refine Option.map_congr fun e he => ?_
  have hp := hW _ (mem_add.mpr (.inr (mem_frames hx he)))
  exact h.samePage hp.1 hp.2 _ (Nat.mod_lt x (by decide))

/-- **The new address space is put in place**: the trapframe is set up for it, and the old one is
freed. -/
theorem commit_spec {old new sz' x y : ℕ} (hx : x < 256 ^ 8) (hc : Chain s F)
    (hsep : Sep s.kend (tf ::ₘ (F + asPages s.mem new + asPages s.mem old)))
    (hold : AddrSpace s old tf sz) (hnew : AddrSpace s new tf sz') :
    Meets (do
      VM.store (tf + 120) x
      VM.store (tf + 24) y
      VM.store (tf + 48) x
      proc_freepagetable old sz) s (fun _ s' => Chain s' (F + asPages s.mem old) ∧
        Touches (tf ::ₘ (F + asPages s.mem old)) s s' ∧ AddrSpace s' new tf sz' ∧
        asPages s'.mem new = asPages s.mem new ∧
        getLE 8 s'.mem (tf + 120) = x ∧ getLE 8 s'.mem (tf + 48) = x) Never := by
  have htf := hsep.page tf (Multiset.mem_cons_self _ _)
  have hsep' := hsep.mono (le_cons_self _ _)
  have hpg : ∀ p ∈ F + asPages s.mem new + asPages s.mem old, p % 4096 = 0 ∧
      p ∉ ({tf} : Multiset ℕ) := by
    refine fun p hp => ⟨(hsep'.page p hp).1, fun hp' => ?_⟩
    rw [Multiset.mem_singleton.mp hp'] at hp
    exact (Multiset.nodup_cons.mp hsep.nodup).1 hp
  simp only [VM.store, meets_bind, meets_modify]
  set s₁ : KMem := { s with
    mem := putLE 8 (putLE 8 (putLE 8 s.mem (tf + 120) x) (tf + 24) y) (tf + 48) x }
  have ht : Touches {tf} s s₁ := .stores htf.1
  have hc₁ : Chain s₁ F := hc.frame ht (fun p hp => hpg p (by simp [hp])) rfl
  obtain ⟨hold₁, hpold⟩ := hold.frame ht fun p hp => hpg p (by simp [asPages, hp])
  obtain ⟨hnew₁, hpnew⟩ := hnew.frame ht fun p hp => hpg p (by simp [asPages, hp])
  have hsep₁ : Sep s₁.kend (F + asPages s₁.mem old) := by
    rw [hpold, ht.kend]
    refine hsep'.mono ?_
    rw [add_assoc]
    exact add_le_add_right (le_add_left _ _) _
  refine (proc_freepagetable_spec hc₁ hsep₁ hold₁).imp ?_
  rintro _ s' ⟨hc', ht'⟩
  rw [hpold] at hc' ht'
  -- none of the pages freed is one of the new address space
  obtain ⟨hnew', hpnew'⟩ := hnew₁.frame ht' fun p hp => by
    have hp' : p ∈ asPages s.mem new := hpnew ▸ mem_add.mpr (.inl hp)
    refine ⟨(hpg p (by simp [hp'])).1, ?_⟩
    have hsep'' : Sep s.kend (asPages s.mem new + (F + asPages s.mem old)) := by
      rw [← add_assoc, add_comm (asPages s.mem new)]
      exact hsep'
    exact hsep''.not_mem hp'
  -- nor is the trapframe
  have hsame : SamePage s₁.mem s'.mem tf tf := ht'.samePage htf.1 fun hmem => by
    refine (Multiset.nodup_cons.mp hsep.nodup).1 ?_
    rw [add_assoc, Multiset.mem_add, Multiset.mem_add]
    exact (mem_add.mp hmem).imp_right .inr
  have hload (n : ℕ) (hn : n + 8 ≤ 4096) : getLE 8 s'.mem (tf + n) = getLE 8 s₁.mem (tf + n) := by
    refine getLE_congr fun i hi hi' => ?_
    obtain ⟨j, rfl⟩ := Nat.exists_eq_add_of_le ((Nat.le_add_right tf n).trans hi)
    exact hsame j (by omega)
  refine ⟨hc', ?_, hnew', hpnew'.trans hpnew, ?_, ?_⟩
  · refine (ht.mono fun p hp => ?_).trans (ht'.mono fun p hp => mem_cons_of_mem hp)
    rw [Multiset.mem_singleton.mp hp]
    exact Multiset.mem_cons_self _ _
  · rw [hload 120 (by decide), getLE_putLE_of_disjoint _ _ (by omega),
      getLE_putLE_of_disjoint _ _ (by omega), getLE_putLE _ _ hx]
  · rw [hload 48 (by decide), getLE_putLE _ _ hx]

/-- **`kexec`** fails, and has used free pages only, which are free again; or it replaces the
address space of the process by a new one, with the user stack in it. What is known of the program
when it is loaded is `P`. -/
theorem kexec_builds {me : Me} {ip : List UInt8} {argv : List (List UInt8)}
    {P : ℕ → ℕ → KMem → Prop}
    (hc : Chain s F) (hsep : Sep s.kend (tf ::ₘ (F + asPages s.mem me.pagetable)))
    (h : AddrSpace s me.pagetable tf me.sz) (htr : s.trampoline < WORD)
    (hload : ∀ root s₁ F₁, Chain s₁ F₁ → Sep s₁.kend (F₁ + asPages s₁.mem root) →
      Image s₁ root tf 0 → Meets (loadLoop root ip (field (readi ip 0 elfhdrSize) 2 56)
        (field (readi ip 0 elfhdrSize) 8 32 % 2 ^ 32) 0) s₁ (fun r s' => ∃ F',
          AsStep root F₁ F' s₁ s' ∧ Image s' root tf r.2 ∧ (r.1 = true → P root r.2 s')) Never)
    (hargv : ∀ arg ∈ argv, arg.length < 4096) :
    Meets (kexec me tf (some ip) argv) s (fun r s' =>
      r.1 = -1 ∧ r.2 = me ∧ Chain s' F ∧ Touches F s s' ∨
      0 ≤ r.1 ∧ ∃ F', Replaces tf me r.2 F F' s s' ∧ me.pagetable ∈ F' ∧
        ∃ sz₁ s₁ sp argc, r.1 = (argc : ℕ) ∧ P r.2.pagetable sz₁ s₁ ∧
        Kept r.2.pagetable (npages sz₁) s₁ s' ∧ UserStack s'.mem r.2.pagetable r.2.sz sz₁ argv sp argc ∧
        getLE 8 s'.mem (tf + 120) = sp ∧ getLE 8 s'.mem (tf + 48) = sp) Never := by
  have htf := hsep.page tf (Multiset.mem_cons_self _ _)
  have hsepF : Sep s.kend F :=
    hsep.mono ((le_add_right _ _).trans (le_cons_self _ _))
  rw [kexec]
  split
  · exact .inl ⟨rfl, rfl, hc, .refl _ _⟩
  split
  · exact .inl ⟨rfl, rfl, hc, .refl _ _⟩
  rw [meets_bind]
  refine (proc_pagetable_spec hc hsepF htf.lt_word htr).imp ?_
  rintro r s₁ ⟨F₁, hc₁, ht₁, ⟨rfl, rfl⟩ | ⟨hr, hsum, h₁⟩⟩
  · rw [if_pos rfl, meets_pure]
    exact .inl ⟨rfl, rfl, hc₁, ht₁⟩
  rw [if_neg hr, meets_bind]
  have hsep₁ : Sep s₁.kend (F₁ + asPages s₁.mem r) := by
    rw [hsum, ht₁.kend]
    exact hsepF
  have h₀ : Image s₁ r tf 0 := ⟨h₁, fun v _ hv => absurd hv (Nat.not_lt_zero v)⟩
  refine (buildImage_spec hsep₁ (hload r s₁ F₁ hc₁ hsep₁ h₀) hargv).imp ?_
  rintro ⟨sz, x⟩ s₂ ⟨F₂, hstep, h₂, hx⟩
  simp only at h₂
  have hsum₂ := hstep.sum.trans hsum
  have ht₂ : Touches F s s₂ := ht₁.trans (hsum ▸ hstep.touches)
  rcases x with _ | ⟨sp, argc⟩
  · -- `bad`: the new address space is freed
    rw [meets_bind]
    refine (proc_freepagetable_spec hstep.chain (hstep.sep hsep₁) h₂).imp ?_
    rintro _ s' ⟨hc', ht'⟩
    rw [hsum₂] at hc' ht'
    exact .inl ⟨rfl, rfl, hc', ht₂.trans ht'⟩
  · -- the old one is freed
    obtain ⟨hsp, sz₁, s₀, hP, hkept, hstack⟩ := hx _ rfl
    have hsep₂ : Sep s.kend (tf ::ₘ (F₂ + asPages s₂.mem r + asPages s.mem me.pagetable)) := by
      rw [hsum₂]
      exact hsep
    obtain ⟨hold, hpold⟩ := h.frame ht₂ fun p hp => by
      have hp' : p ∈ asPages s.mem me.pagetable := mem_add.mpr (.inl hp)
      have hsep' := hsep.mono (le_cons_self _ _)
      exact ⟨(hsep'.right.page p hp').1, fun hF => hsep'.not_mem hF hp'⟩
    have hcommit := commit_spec (x := sp) (y := field (readi ip 0 elfhdrSize) 8 24)
      (hsp.trans_eq (by norm_num [WORD])) hstep.chain
      (by rw [hpold, ht₂.kend]; exact hsep₂) hold h₂
    simp only [VM.store, meets_bind, meets_modify, meets_pure] at hcommit ⊢
    refine hcommit.imp ?_
    rintro _ s' ⟨hc', ht', h', hpages, ha1, hsp'⟩
    rw [hpold] at hc' ht'
    have hsep₃ : Sep s.kend (asPages s₂.mem r + tf ::ₘ (F₂ + asPages s.mem me.pagetable)) := by
      rwa [add_cons, ← add_assoc, add_comm (asPages s₂.mem r)]
    have hframe : UserFrame r 0 0 s₂ s' :=
      ht'.userFrame fun p hp => ⟨(hsep₃.left.page p hp).1, hsep₃.not_mem hp⟩
    have hpages₁ : npages sz₁ + 2 ≤ UPAGES := by
      have hle := npages_le.mpr h₂.size
      have hsz : sz = (npages sz₁ + 2) * 4096 := hstack.size
      have heq : npages sz = npages sz₁ + 2 := by
        rw [hsz]
        unfold npages
        omega
      rwa [heq] at hle
    refine .inr ⟨Int.natCast_nonneg _, _, ⟨hc', ?_, ?_, h'⟩,
      mem_add.mpr (.inr (mem_add.mpr (.inl (mem_cons_self _ _)))), sz₁, s₀, sp, argc, rfl, hP,
      ⟨fun w hw => ?_, fun y hy => ?_⟩, hstack.frame hframe hpages₁, ha1, hsp'⟩
    · rw [hpages, ← hsum₂]
      simp only [add_assoc, add_comm (asPages s₂.mem r)]
    · refine (ht₂.mono fun p hp => ?_).trans (ht'.mono fun p hp => ?_)
      · simp [hp]
      · rw [← hsum₂]
        rw [Multiset.mem_cons, Multiset.mem_add] at hp ⊢
        rw [Multiset.mem_add]
        exact hp.imp_right (Or.imp_left .inl)
    · have hU := UPAGES_eq
      rw [hframe.leaf_eq w (by omega), hkept.leaf_eq w hw]
    · rw [hframe.byte_eq y (by omega) (.inr (Nat.zero_le _)), hkept.byte_eq y hy]

theorem kexec_outcome {me : Me} {ip : Option (List UInt8)} {argv : List (List UInt8)}
    (hc : Chain s F) (hsep : Sep s.kend (tf ::ₘ (F + asPages s.mem me.pagetable)))
    (h : AddrSpace s me.pagetable tf me.sz) (htr : s.trampoline < WORD)
    (hargv : ∀ arg ∈ argv, arg.length < 4096) :
    Meets (kexec me tf ip argv) s (fun r s' => r.1 = -1 ∧ r.2 = me ∧ Chain s' F ∧ Touches F s s' ∨
      0 ≤ r.1 ∧ ∃ F', Replaces tf me r.2 F F' s s' ∧ me.pagetable ∈ F' ∧
        ∃ sz₁ sp argc, UserStack s'.mem r.2.pagetable r.2.sz sz₁ argv sp argc) Never := by
  rcases ip with _ | ip
  · exact .inl ⟨rfl, rfl, hc, .refl _ _⟩
  refine (kexec_builds (P := fun _ _ _ => True) hc hsep h htr (fun root s₁ F₁ hc₁ hsep₁ h₁ => ?_)
    hargv).imp fun r s' => ?_
  · refine (loadLoop_spec hc₁ hsep₁ h₁).imp fun r s' hr => ?_
    obtain ⟨F', hstep, h'⟩ := hr
    exact ⟨F', hstep, h', fun _ => trivial⟩
  · rintro (hbad | ⟨hr, F', h', hold, sz₁, s₁, sp, argc, -, -, -, hstack, -⟩)
    · exact .inl hbad
    · exact .inr ⟨hr, F', h', hold, sz₁, sp, argc, hstack⟩

/-- **`kexec`** replaces the address space of a process by a new one, or leaves it alone; no page
is lost on any of its error paths. -/
theorem kexec_spec {me : Me} {ip : Option (List UInt8)} {argv : List (List UInt8)}
    (hc : Chain s F) (hsep : Sep s.kend (tf ::ₘ (F + asPages s.mem me.pagetable)))
    (h : AddrSpace s me.pagetable tf me.sz) (htr : s.trampoline < WORD)
    (hargv : ∀ arg ∈ argv, arg.length < 4096) :
    Meets (kexec me tf ip argv) s (fun r s' => ∃ F', Replaces tf me r.2 F F' s s') Never := by
  refine (kexec_outcome hc hsep h htr hargv).imp ?_
  rintro ⟨r, me'⟩ s' (⟨-, rfl, hc', ht⟩ | ⟨-, F', h', -⟩)
  · exact ⟨F, .of_free hsep h hc' ht⟩
  · exact ⟨F', h'⟩

end Xv6
