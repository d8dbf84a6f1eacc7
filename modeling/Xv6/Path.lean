import Xv6.Directory

/-!
# Path names

`namex` goes down a tree of directories, element by element. What it computes is
a function of the elements of the path (`walkPath`): the elements are what is
between slashes, but for what is empty (`components`). The tree is what is on
disk, and stays as it is: `namex` only counts references to the inodes it comes
by, and takes back all of them but one (`Held`). An inode it lets go is not
freed, since it has a name or is used by somebody else.
-/

namespace Xv6.Fs

open Function List

open Prog

/-! ## Elements -/

/-- **The elements of a path:** what is between slashes and not empty, up to `DIRSIZ` bytes. -/
def components (path : Path) : List (List UInt8) :=
  ((path.splitOn slash).filter (· ≠ [])).map (·.take DIRSIZ)

section

variable {path rest name elem : List UInt8}

theorem components_nil : components [] = [] := rfl

/-- Slashes at the beginning do not matter. -/
theorem components_slash : components (slash :: path) = components path := by
  rfl

theorem components_dropWhile : components (path.dropWhile (· = slash)) = components path := by
  induction path with
  | nil => rfl
  | cons c path ih =>
    rw [dropWhile_cons]
    split_ifs with hc
    · rw [ih, of_decide_eq_true hc, components_slash]
    · rfl

/-- The first element. -/
theorem components_append (helem : elem ≠ []) (hslash : ∀ c ∈ elem, c ≠ slash)
    (hrest : rest = [] ∨ rest.head? = some slash) :
    components (elem ++ rest) = elem.take DIRSIZ :: components rest := by
  have hsep : ∀ c ∈ elem, (c == slash) = false := fun c hc => beq_eq_false_iff_ne.mpr (hslash c hc)
  cases rest with
  | nil =>
    rw [append_nil, components, splitOn, splitOnP_eq_singleton hsep,
      filter_cons, if_pos (decide_eq_true helem)]
    rfl
  | cons c rest =>
    obtain rfl : c = slash := by
      rcases hrest with h | h
      · cases h
      · exact Option.some.inj h
    rw [components_slash, components, splitOn,
      splitOnP_append_cons_of_forall_mem hsep _ (by decide),
      filter_cons, if_pos (decide_eq_true helem)]
    rfl

/-- A list without the elements at its beginning begins with another one. -/
theorem head_dropWhile {p : UInt8 → Bool} {l : List UInt8} {c : UInt8}
    (h : (l.dropWhile p).head? = some c) : p c = false := by
  have hne : l.dropWhile p ≠ [] := by
    intro hnil
    rw [hnil] at h
    cases h
  rw [head?_eq_some_head hne, Option.some_inj] at h
  exact h ▸ head_dropWhile_not p hne

/-- A path that does not begin with a slash has a first element. -/
theorem components_cons {c : UInt8} (hc : c ≠ slash) :
    components (c :: path) = ((c :: path).takeWhile (· ≠ slash)).take DIRSIZ ::
      components ((c :: path).dropWhile (· ≠ slash)) := by
  have helem : (c :: path).takeWhile (· ≠ slash) ≠ [] := by
    rw [takeWhile_cons, if_pos (decide_eq_true hc)]
    exact cons_ne_nil _ _
  conv_lhs => rw [← takeWhile_append_dropWhile (p := fun c => decide (c ≠ slash))
    (l := c :: path)]
  refine components_append helem (fun c' hc' => ?_) ?_
  · exact of_decide_eq_true (mem_takeWhile_imp (p := fun c => decide (c ≠ slash)) hc')
  rcases hhead : ((c :: path).dropWhile (· ≠ slash)).head? with _ | c'
  · exact Or.inl (head?_eq_none_iff.mp hhead)
  · right
    have := of_decide_eq_false (head_dropWhile hhead)
    rw [not_not] at this
    rw [this]

/-- There is no element. -/
theorem components_of_skipelem_none (h : skipelem path = none) : components path = [] := by
  rw [← components_dropWhile]
  unfold skipelem at h
  split at h
  next hnil => rw [hnil, components_nil]
  next => cases h

/-- **`skipelem` takes the first element.** -/
theorem components_of_skipelem (h : skipelem path = some (rest, name)) :
    components path = name :: components rest ∧ (rest = [] ↔ components rest = []) ∧
      rest.length < path.length := by
  rw [← components_dropWhile]
  unfold skipelem at h
  have hle : (path.dropWhile (· = slash)).length ≤ path.length := length_dropWhile_le _ _
  rcases hs : path.dropWhile (· = slash) with _ | ⟨c, s⟩
  · rw [hs] at h
    cases h
  rw [hs] at h hle
  obtain ⟨rfl, rfl⟩ := Prod.mk.inj (Option.some.inj h)
  have hc : c ≠ slash := of_decide_eq_false
    (head_dropWhile (p := fun c => decide (c = slash)) (l := path) (by rw [hs]; rfl))
  refine ⟨?_, ⟨fun hnil => hnil ▸ components_nil, fun hnil => ?_⟩, ?_⟩
  · rw [components_dropWhile, components_cons hc]
  · by_contra hne
    obtain ⟨c', r, hr⟩ := exists_cons_of_ne_nil hne
    have hc' : c' ≠ slash := of_decide_eq_false
      (head_dropWhile (p := fun c => decide (c = slash))
        (l := (c :: s).dropWhile (· ≠ slash)) (by rw [hr]; rfl))
    rw [hr, components_cons hc'] at hnil
    cases hnil
  · refine (length_dropWhile_le _ _).trans_lt (Nat.lt_of_lt_of_le ?_ hle)
    rw [dropWhile_cons, if_pos (decide_eq_true hc), length_cons]
    exact Nat.lt_succ_of_le (length_dropWhile_le _ _)

end

/-! ## Directory trees -/

/-- What the directory `n` on disk has for a name; nothing if it is no directory. -/
def lookup (s : State) (n : ℕ) (name : List UInt8) : Option ℕ :=
  if (s.dinode n).type = .T_DIR then
    contents (entryAt s.block (s.dinode n)) (entries (s.dinode n)) name
  else none

/-- **The inode that the names lead to,** one after the other. -/
def resolve (s : State) (n : ℕ) (names : List (List UInt8)) : Option ℕ :=
  names.foldl (fun at? name => at?.bind fun n => lookup s n name) (some n)

/-- The inode that a path starts from. -/
def start (s : State) (cwd : ℕ) (path : Path) : ℕ :=
  if path.head? = some slash then ROOTINO else (s.inode cwd).inum

/-- What `namex` computes: the inode that the names lead to, or the one before and the last name. -/
def walkPath (s : State) (nameiparent : Bool) : ℕ → List (List UInt8) → Option (ℕ × List UInt8)
  | n, [] => if nameiparent then none else some (n, [])
  | n, name :: names =>
    if (s.dinode n).type ≠ .T_DIR then none
    else if nameiparent ∧ names = [] then some (n, name)
    else (lookup s n name).bind fun m => walkPath s nameiparent m names

/-- **The inode table,** as far as it has inodes in `R`: nobody else has locked one of them, and
those that have been read are as on disk. -/
structure Table (R : ℕ → Prop) (lk : Option ℕ) (t : State) : Prop where
  locked : ∀ i < NINODE, (t.inode i).ref = 0 ∨ R (t.inode i).inum →
    (t.inode i).locked = decide (lk = some i)
  unique : ∀ i < NINODE, ∀ j < NINODE, 0 < (t.inode i).ref → 0 < (t.inode j).ref →
    (t.inode i).inum = (t.inode j).inum → i = j
  coherent : ∀ i < NINODE, 0 < (t.inode i).ref → R (t.inode i).inum → (t.inode i).valid →
    (t.inode i).copy = t.dinode (t.inode i).inum

/-- **A tree:** the inodes `R` can be reached from the root and the current directory. -/
structure Tree (R : ℕ → Prop) (cwd : ℕ) (s : State) : Prop extends Table R none s where
  root : R ROOTINO
  cwd_lt : cwd < NINODE
  cwd_ref : 0 < (s.inode cwd).ref
  cwd_mem : R (s.inode cwd).inum
  live : ∀ n, R n → (s.dinode n).type ≠ .free
  dir : ∀ n, R n → (s.dinode n).type = .T_DIR → DirBlocks s.block (s.dinode n)
  closed : ∀ n, R n → ∀ name m, lookup s n name = some m → R m
  links : ∀ n, R n → (s.dinode n).nlink ≠ 0 ∨
    ∃ i < NINODE, 0 < (s.inode i).ref ∧ (s.inode i).inum = n

/-- **There are references more than in `s`,** to the entries `L`; entry `lk` is locked. -/
structure Held (R : ℕ → Prop) (s : State) (L : List ℕ) (lk : Option ℕ) (t : State) : Prop
    extends Table R lk t where
  block : t.block = s.block
  dinode : t.dinode = s.dinode
  ref : ∀ i, (t.inode i).ref = (s.inode i).ref + L.count i
  inum : ∀ i, 0 < (s.inode i).ref → (t.inode i).inum = (s.inode i).inum

section

variable {sb : Superblock} {R : ℕ → Prop} {s t u : State} {L : List ℕ} {lk : Option ℕ}
  {cwd i n k : ℕ} {name : List UInt8} {names : List (List UInt8)} {path : Path} {b : Bool}

theorem Tree.held (h : Tree R cwd s) : Held R s [] none s :=
  ⟨h.toTable, rfl, rfl, fun _ => rfl, fun _ _ => rfl⟩

theorem Held.ref_pos (h : Held R s L lk t) (hi : i ∈ L) : 0 < (t.inode i).ref := by
  have hcount := count_pos_iff.mpr hi
  have href := h.ref i
  omega

/-- **One entry is changed.** -/
theorem Held.set (h : Held R s L lk t) {ip : Inode} {L' : List ℕ} {lk' : Option ℕ}
    (hu : u.inode = update t.inode i ip) (hblock : u.block = t.block)
    (hdinode : u.dinode = t.dinode)
    (hlocked : ip.ref = 0 ∨ R ip.inum → ip.locked = decide (lk' = some i))
    (hlk : ∀ j ≠ i, lk' = some j ↔ lk = some j)
    (hunique : 0 < ip.ref → ∀ j < NINODE, j ≠ i → 0 < (t.inode j).ref → (t.inode j).inum ≠ ip.inum)
    (hcoherent : 0 < ip.ref → R ip.inum → ip.valid → ip.copy = t.dinode ip.inum)
    (href : ip.ref = (s.inode i).ref + L'.count i) (hcount : ∀ j ≠ i, L'.count j = L.count j)
    (hinum : 0 < (s.inode i).ref → ip.inum = (t.inode i).inum) : Held R s L' lk' u where
  locked j hj hR := by
    rw [hu] at hR ⊢
    by_cases hji : j = i
    · subst hji
      rw [update_self] at hR ⊢
      exact hlocked hR
    · rw [update_of_ne hji] at hR ⊢
      rw [h.locked j hj hR]
      exact decide_eq_decide.mpr (hlk j hji).symm
  unique j hj k hk hj' hk' heq := by
    rw [hu] at hj' hk' heq
    by_cases hji : j = i
    · by_cases hki : k = i
      · exact hji.trans hki.symm
      · subst hji
        rw [update_self] at hj' heq
        rw [update_of_ne hki] at hk' heq
        exact absurd heq.symm (hunique hj' k hk hki hk')
    · rw [update_of_ne hji] at hj' heq
      by_cases hki : k = i
      · subst hki
        rw [update_self] at hk' heq
        exact absurd heq (hunique hk' j hj hji hj')
      · rw [update_of_ne hki] at hk' heq
        exact h.unique j hj k hk hj' hk' heq
  coherent j hj hj' hR hvalid := by
    rw [hdinode]
    rw [hu] at hj' hR hvalid ⊢
    by_cases hji : j = i
    · subst hji
      rw [update_self] at *
      exact hcoherent hj' hR hvalid
    · rw [update_of_ne hji] at *
      exact h.coherent j hj hj' hR hvalid
  block := hblock.trans h.block
  dinode := hdinode.trans h.dinode
  ref j := by
    rw [hu]
    by_cases hji : j = i
    · subst hji
      rw [update_self, href]
    · rw [update_of_ne hji, hcount j hji, h.ref j]
  inum j hj := by
    rw [hu]
    by_cases hji : j = i
    · subst hji
      rw [update_self, hinum hj, h.inum j hj]
    · rw [update_of_ne hji, h.inum j hj]

/-- **One entry is changed that is in use,** and it stays the entry of its inode. -/
theorem Held.set_same (h : Held R s L lk t) {ip : Inode} {L' : List ℕ} {lk' : Option ℕ}
    (hu : u.inode = update t.inode i ip) (hblock : u.block = t.block)
    (hdinode : u.dinode = t.dinode) (hlt : i < NINODE) (hi : i ∈ L)
    (hinum : ip.inum = (t.inode i).inum) (hlocked : ip.locked = decide (lk' = some i))
    (hlk : ∀ j ≠ i, lk' = some j ↔ lk = some j)
    (hcoherent : ip.valid → ip.copy = t.dinode ip.inum)
    (href : ip.ref = (s.inode i).ref + L'.count i) (hcount : ∀ j ≠ i, L'.count j = L.count j) :
    Held R s L' lk' u ∧ ∀ j, (u.inode j).inum = (t.inode j).inum := by
  refine ⟨h.set hu hblock hdinode (fun _ => hlocked) hlk (fun _ j hj hji hj' heq => ?_)
    (fun _ _ => hcoherent) href hcount fun _ => hinum, fun j => ?_⟩
  · exact hji (h.unique j hj i hlt hj' (h.ref_pos hi) (heq.trans hinum))
  · rw [hu]
    by_cases hji : j = i
    · subst hji
      rw [update_self, hinum]
    · rw [update_of_ne hji]

/-- A reference is counted. -/
theorem Held.iget (h : Held R s L lk t) (hn : R n) :
    Meets (iget n) t (fun i u => Held R s (i :: L) lk u ∧ i < NINODE ∧ (u.inode i).inum = n ∧
      ∀ j ∈ L, (u.inode j).inum = (t.inode j).inum ∧ (u.inode j).copy = (t.inode j).copy)
      fun msg => msg = "iget: no inodes" ∧ TableFull t n := by
  refine iget_spec.imp fun i u hget => ?_
  obtain ⟨v, hfree, hused, hu⟩ := hget.state
  have hinode : u.inode = update t.inode i
      { t.inode i with inum := n, ref := (t.inode i).ref + 1, valid := v } := by rw [hu]; rfl
  have hcount (j : ℕ) (hj : j ≠ i) : (i :: L).count j = L.count j :=
    count_cons_of_ne (Ne.symm hj)
  refine ⟨h.set hinode (by rw [hu]; rfl) (by rw [hu]; rfl) (fun _ => ?_) (fun _ _ => Iff.rfl)
    (fun _ j hj hji hj' heq => ?_) (fun _ _ hv => ?_) ?_ hcount fun hpos => ?_, hget.lt, ?_,
    fun j hj => ?_⟩
  · -- the entry was free, or it is the entry of `n`
    refine h.locked i hget.lt ?_
    rcases Nat.eq_zero_or_pos (t.inode i).ref with h0 | hpos
    · exact Or.inl h0
    · exact Or.inr (hget.inum_eq hpos ▸ hn)
  · rcases Nat.eq_zero_or_pos (t.inode i).ref with h0 | hpos
    · exact hget.new h0 j hj hj' heq
    · exact hji (h.unique j hj i hget.lt hj' hpos (heq.trans (hget.inum_eq hpos).symm))
  · rcases Nat.eq_zero_or_pos (t.inode i).ref with h0 | hpos
    · rw [hfree h0] at hv
      exact absurd hv Bool.false_ne_true
    · rw [hused hpos] at hv
      have := h.coherent i hget.lt hpos (hget.inum_eq hpos ▸ hn) hv
      rwa [hget.inum_eq hpos] at this
  · rw [count_cons_self, h.ref i]
    rfl
  · refine (hget.inum_eq ?_).symm
    rw [h.ref i]
    exact Nat.add_pos_left hpos _
  · rw [hu, inode_setInode_self]
  · rw [hu]
    by_cases hji : j = i
    · subst hji
      rw [inode_setInode_self, hget.inum_eq (h.ref_pos hj)]
      exact ⟨rfl, rfl⟩
    · rw [inode_setInode_of_ne hji]
      exact ⟨rfl, rfl⟩

/-- The current directory is where a path starts. -/
theorem Tree.idup (h : Tree R cwd s) :
    Meets (idup cwd) s (fun _ t => Held R s [cwd] none t ∧
      (t.inode cwd).inum = (s.inode cwd).inum) Never := by
  have hset : Held R s [cwd] none
      (s.setInode cwd { s.inode cwd with ref := (s.inode cwd).ref + 1 }) := by
    refine h.held.set rfl rfl rfl (fun _ => h.locked cwd h.cwd_lt (Or.inr h.cwd_mem))
      (fun _ _ => Iff.rfl) (fun _ j hj hne hj' heq => ?_)
      (fun _ hR => h.coherent cwd h.cwd_lt h.cwd_ref hR) ?_
      (fun j hj => count_cons_of_ne (Ne.symm hj)) fun _ => rfl
    · exact hne (h.unique j hj cwd h.cwd_lt hj' h.cwd_ref heq)
    · rw [count_cons_self]
      rfl
  exact ⟨hset, by rw [inode_setInode_self]⟩

/-- An inode is locked, and read. -/
theorem Held.ilock (h : Held R s L none t) (hlt : i < NINODE) (hi : i ∈ L)
    (hR : R (t.inode i).inum) (hlive : (s.dinode (t.inode i).inum).type ≠ .free) :
    Meets (ilock i) t (fun _ u => Held R s L (some i) u ∧
      (u.inode i).copy = s.dinode (t.inode i).inum ∧
      ∀ j, (u.inode j).inum = (t.inode j).inum) Never := by
  have hpos := h.ref_pos hi
  have hunlocked : (t.inode i).locked = false := h.locked i hlt (Or.inr hR)
  have hlk (j : ℕ) (hj : j ≠ i) : some i = some j ↔ none = some j :=
    ⟨fun heq => absurd (Option.some.inj heq).symm hj, nofun⟩
  rw [← h.dinode] at hlive ⊢
  cases hvalid : (t.inode i).valid with
  | false =>
    rw [meets_ilock_load hpos hunlocked hvalid hlive]
    have hset : Held R s L (some i) (t.setInode i { t.inode i with
        locked := true, copy := t.dinode (t.inode i).inum, valid := true }) ∧ _ :=
      h.set_same rfl rfl rfl hlt hi rfl (decide_eq_true rfl).symm hlk (fun _ => rfl) (h.ref i)
        fun _ _ => rfl
    exact ⟨hset.1, by rw [inode_setInode_self], hset.2⟩
  | true =>
    rw [meets_ilock_valid hpos hunlocked hvalid]
    have hcopy := h.coherent i hlt hpos hR hvalid
    have hset : Held R s L (some i) (t.setInode i { t.inode i with locked := true }) ∧ _ :=
      h.set_same rfl rfl rfl hlt hi rfl (decide_eq_true rfl).symm hlk (fun _ => hcopy) (h.ref i)
        fun _ _ => rfl
    exact ⟨hset.1, by rw [inode_setInode_self]; exact hcopy, hset.2⟩

/-- It is unlocked. -/
theorem Held.iunlock (h : Held R s L (some i) t) (hlt : i < NINODE) (hi : i ∈ L)
    (hR : R (t.inode i).inum) :
    Meets (iunlock i) t (fun _ u => Held R s L none u ∧
      ∀ j, (u.inode j).inum = (t.inode j).inum) Never := by
  have hpos := h.ref_pos hi
  have hlocked : (t.inode i).locked = true :=
    (h.locked i hlt (Or.inr hR)).trans (decide_eq_true rfl)
  rw [meets_iunlock hpos hlocked]
  exact h.set_same rfl rfl rfl hlt hi rfl rfl
    (fun j hj => ⟨nofun, fun heq => absurd (Option.some.inj heq).symm hj⟩)
    (h.coherent i hlt hpos hR) (h.ref i) fun _ _ => rfl

/-- **A reference is taken back,** and the inode is not freed. -/
theorem Held.iput (h : Held R s L lk t) (htree : Tree R cwd s) (hlt : i < NINODE) (hi : i ∈ L)
    (hR : R (t.inode i).inum) :
    Meets (iput i) t (fun _ u => Held R s (L.erase i) lk u ∧
      ∀ j, (u.inode j).inum = (t.inode j).inum) Never := by
  have hpos := h.ref_pos hi
  have hcount := count_pos_iff.mpr hi
  rw [meets_iput_keep]
  · refine h.set_same rfl rfl rfl hlt hi rfl (h.locked i hlt (Or.inr hR)) (fun _ _ => Iff.rfl)
      (h.coherent i hlt hpos hR) ?_
      fun j hj => ?_
    · rw [count_erase_self, h.ref i]
      exact Nat.add_sub_assoc hcount _
    · exact count_erase_of_ne hj
  · rintro ⟨hone, hvalid, hnlink⟩
    rw [h.coherent i hlt hpos hR hvalid, h.dinode] at hnlink
    rcases htree.links _ hR with hne | ⟨j, hj, hjpos, hjinum⟩
    · exact hne hnlink
    · -- the inode was in the table before, in the same entry
      have hji : j = i := by
        refine h.unique j hj i hlt ?_ hpos ((h.inum j hjpos).trans hjinum)
        rw [h.ref j]
        exact Nat.add_pos_left hjpos _
      subst hji
      rw [h.ref j] at hone
      omega

theorem Held.iunlockput (h : Held R s L (some i) t) (htree : Tree R cwd s) (hlt : i < NINODE)
    (hi : i ∈ L) (hR : R (t.inode i).inum) :
    Meets (iunlockput i) t (fun _ u => Held R s (L.erase i) none u ∧
      ∀ j, (u.inode j).inum = (t.inode j).inum) Never := by
  refine Meets.bind (h.iunlock hlt hi hR) fun _ u hu => ?_
  obtain ⟨hheld, hinum⟩ := hu
  refine (hheld.iput htree hlt hi (by rwa [hinum i])).imp fun _ v hv => ?_
  exact ⟨hv.1, fun j => (hv.2 j).trans (hinum j)⟩

/-! ## `namex` -/

/-- No more than one entry of the table is free. -/
def Crowded (s : State) : Prop :=
  ∀ i < NINODE, ∀ j < NINODE, (s.inode i).ref = 0 → (s.inode j).ref = 0 → i = j

/-- The only panic: there is no entry for an inode. -/
def NoInodes (s : State) (msg : String) : Prop := msg = "iget: no inodes" ∧ Crowded s

/-- With one reference more at most, a full table was crowded. -/
theorem Held.crowded (h : Held R s L lk t) (hL : L.length ≤ 1) (hfull : TableFull t n) :
    Crowded s := by
  have hmem (i : ℕ) (hi : i < NINODE) (h0 : (s.inode i).ref = 0) : i ∈ L := by
    have hpos := (hfull i hi).1
    rw [h.ref i, h0, Nat.zero_add] at hpos
    exact count_pos_iff.mp hpos
  intro i hi j hj hi0 hj0
  have hiL := hmem i hi hi0
  have hjL := hmem j hj hj0
  rcases L with _ | ⟨a, _ | ⟨_, _⟩⟩
  · cases hiL
  · exact (mem_singleton.mp hiL).trans (mem_singleton.mp hjL).symm
  · exact absurd hL (by simp)

/-- **`dirlookup`, in a directory of the tree:** it finds what is on disk. -/
theorem Held.dirlookup (h : Held R s [i] (some i) t) (htree : Tree R cwd s)
    (hR : R (t.inode i).inum) (hcopy : (t.inode i).copy = s.dinode (t.inode i).inum)
    (htype : (s.dinode (t.inode i).inum).type = .T_DIR) :
    Meets (dirlookup sb i name) t (fun found u =>
      lookup s (t.inode i).inum name = found.map (fun p => (u.inode p.1).inum) ∧
      Held R s (found.toList.map Prod.fst ++ [i]) (some i) u ∧
      (∀ p ∈ found, p.1 < NINODE ∧ R (u.inode p.1).inum) ∧
      (u.inode i).inum = (t.inode i).inum) (NoInodes s) := by
  have hdir : DirBlocks t.block (t.inode i).copy := by
    rw [h.block, hcopy]
    exact htree.dir _ hR htype
  have hlookup : lookup s (t.inode i).inum name =
      (slotOf (entryAt t.block (t.inode i).copy) (entries (t.inode i).copy) name).map
        fun j => (entryAt t.block (t.inode i).copy j).inum := by
    rw [lookup, if_pos htype, contents, h.block, hcopy]
  rw [hdir.meets_dirlookup]
  split
  next hslot =>
    rw [hslot] at hlookup
    exact ⟨hlookup, h, (by rintro _ ⟨⟩), rfl⟩
  next j hslot =>
    rw [hslot] at hlookup
    have hR' := htree.closed _ hR name _ hlookup
    refine (h.iget hR').mono (fun next u hu => ?_)
      fun msg hfull => ⟨hfull.1, h.crowded (Nat.le_refl 1) hfull.2⟩
    obtain ⟨hu, hlt, hnext, hsame⟩ := hu
    refine ⟨?_, hu, fun p hp => ?_, (hsame i (mem_singleton_self i)).1⟩
    · rw [hlookup, Option.map_some, Option.map_some, hnext]
    · cases hp
      exact ⟨hlt, by rwa [hnext]⟩

/-- **The inode is found,** with a reference to it, and there are no other references more. -/
structure Found (R : ℕ → Prop) (s : State) (w r : Option (ℕ × List UInt8)) (t : State) :
    Prop where
  result : r.map (fun p => ((t.inode p.1).inum, p.2)) = w
  held : Held R s (r.toList.map Prod.fst) none t
  entry : ∀ p ∈ r, p.1 < NINODE ∧ R (t.inode p.1).inum

theorem namexEnd_spec (htree : Tree R cwd s) (h : Held R s [i] none t) (hi : i < NINODE)
    (hR : R (t.inode i).inum) :
    Meets (namexEnd b i) t (Found R s (walkPath s b (t.inode i).inum [])) (NoInodes s) := by
  cases b with
  | true =>
    refine Meets.bind (h.iput htree hi (mem_singleton_self i) hR) fun _ u hu => ?_
    refine ⟨rfl, ?_, nofun⟩
    rw [erase_cons_head] at hu
    exact hu.1
  | false => exact ⟨rfl, h, fun p hp => by cases hp; exact ⟨hi, hR⟩⟩

/-- **The loop of `namex`** walks along the elements. -/
theorem namexLoop_spec (htree : Tree R cwd s) (hk : path.length ≤ k) (h : Held R s [i] none t)
    (hi : i < NINODE) (hR : R (t.inode i).inum) :
    Meets (namexLoop sb b k path i) t
      (Found R s (walkPath s b (t.inode i).inum (components path))) (NoInodes s) := by
  induction k generalizing path i t with
  | zero =>
    rw [length_eq_zero_iff.mp (Nat.le_zero.mp hk)]
    exact namexEnd_spec htree h hi hR
  | succ k ih =>
    have hmem : i ∈ [i] := mem_singleton_self i
    rw [namexLoop]
    split
    next hnone =>
      rw [components_of_skipelem_none hnone]
      exact namexEnd_spec htree h hi hR
    next rest name hsome =>
    obtain ⟨hcomponents, hnil, hlength⟩ := components_of_skipelem hsome
    rw [hcomponents, walkPath]
    refine Meets.bind (h.ilock hi hmem hR (htree.live _ hR)) ?_
    rintro _ u ⟨hu, hcopy, hinum⟩
    have hRu : R (u.inode i).inum := by rwa [hinum i]
    rw [meets_bind, meets_copyOf, hcopy]
    by_cases htype : (s.dinode (t.inode i).inum).type = .T_DIR
    swap
    · rw [if_pos htype, if_pos htype]
      refine Meets.bind (hu.iunlockput htree hi hmem hRu) fun _ v hv => ?_
      rw [erase_cons_head] at hv
      exact ⟨rfl, hv.1, nofun⟩
    rw [if_neg (not_not.mpr htype), if_neg (not_not.mpr htype)]
    by_cases hstop : b ∧ rest = []
    · rw [if_pos hstop, if_pos ⟨hstop.1, hnil.mp hstop.2⟩]
      refine Meets.bind (hu.iunlock hi hmem hRu) fun _ v hv => ?_
      refine ⟨?_, hv.1, fun p hp => ?_⟩
      · rw [Option.map_some, hv.2 i, hinum i]
      · cases hp
        exact ⟨hi, by rwa [hv.2 i]⟩
    rw [if_neg hstop, if_neg fun hc => hstop ⟨hc.1, hnil.mpr hc.2⟩]
    rw [← hinum i] at hcopy htype
    rw [meets_bind, ← hinum i]
    refine (hu.dirlookup htree hRu hcopy htype).imp fun found v hv => ?_
    obtain ⟨hlookup, hv, hentry, hinumv⟩ := hv
    have hRv : R (v.inode i).inum := by rwa [hinumv]
    rw [hlookup]
    rcases found with _ | ⟨next, off⟩
    · refine Meets.bind (hv.iunlockput htree hi hmem hRv) fun _ w hw => ?_
      rw [Option.toList_none, map_nil, nil_append, erase_cons_head] at hw
      exact ⟨rfl, hw.1, nofun⟩
    · obtain ⟨hlt, hR'⟩ := hentry _ rfl
      refine Meets.bind (hv.iunlockput htree hi (mem_cons_of_mem _ hmem) hRv) ?_
      rintro _ w ⟨hw, hinumw⟩
      have herase : [next, i].erase i = [next] := by
        by_cases hne : next = i
        · rw [hne, erase_cons_head]
        · rw [erase_cons_tail (by simpa using hne), erase_cons_head]
      have hgoal : Meets (namexLoop sb b k rest next) w _ _ :=
        ih (by omega) (herase ▸ hw) hlt (by rwa [hinumw next])
      rwa [hinumw next] at hgoal

/-- **`namex` walks along the elements of the path.** -/
theorem namex_spec (htree : Tree R cwd s) (path : Path) (b : Bool) :
    Meets (namex sb cwd path b) s
      (Found R s (walkPath s b (start s cwd path) (components path))) (NoInodes s) := by
  rw [namex, start]
  split_ifs with hslash
  · rw [meets_bind]
    refine (htree.held.iget htree.root).mono (fun i t ht => ?_)
      fun msg hfull => ⟨hfull.1, htree.held.crowded (Nat.zero_le _) hfull.2⟩
    obtain ⟨ht, hlt, hinum, -⟩ := ht
    have hgoal : Meets (namexLoop sb b path.length path i) t _ _ :=
      namexLoop_spec htree (Nat.le_refl _) ht hlt (by rw [hinum]; exact htree.root)
    rwa [hinum] at hgoal
  · refine Meets.bind htree.idup fun _ t ht => ?_
    obtain ⟨ht, hinum⟩ := ht
    have hgoal : Meets (namexLoop sb b path.length path cwd) t _ _ :=
      namexLoop_spec htree (Nat.le_refl _) ht htree.cwd_lt (by rw [hinum]; exact htree.cwd_mem)
    rwa [hinum] at hgoal

/-! ## Resolving paths -/

theorem resolve_cons :
    resolve s n (name :: names) = (lookup s n name).bind fun m => resolve s m names := by
  have hnone : names.foldl (fun at? name => at?.bind fun n => lookup s n name) none = none := by
    induction names with
    | nil => rfl
    | cons _ _ ih => exact ih
  rw [resolve, foldl_cons, Option.bind_some]
  cases lookup s n name with
  | none => exact hnone
  | some m => rfl

theorem resolve_append :
    resolve s n (names ++ [name]) = (resolve s n names).bind fun m => lookup s m name := by
  rw [resolve, foldl_append]
  rfl

/-- For `namei`, the walk goes to the end. -/
theorem walkPath_false :
    walkPath s false n names = (resolve s n names).map fun m => (m, []) := by
  induction names generalizing n with
  | nil => rfl
  | cons name names ih =>
    rw [walkPath, resolve_cons, if_neg (c := false = true ∧ _) (fun h => Bool.false_ne_true h.1)]
    split_ifs with htype
    · rw [lookup, if_neg htype]
      rfl
    · rw [Option.map_bind]
      exact congrArg _ (funext fun m => ih)

/-- For `nameiparent`, it stops at the last name, in a directory. -/
theorem walkPath_true : walkPath s true n (names ++ [name]) = (resolve s n names).bind fun m =>
    if (s.dinode m).type = .T_DIR then some (m, name) else none := by
  induction names generalizing n with
  | nil =>
    rw [nil_append, walkPath, ite_not, if_pos (c := true = true ∧ _) ⟨rfl, rfl⟩]
    rfl
  | cons first names ih =>
    rw [cons_append, walkPath, resolve_cons, if_neg (c := true = true ∧ _) (by simp)]
    split_ifs with htype
    · rw [lookup, if_neg htype]
      rfl
    · rw [Option.bind_assoc]
      exact congrArg _ (funext fun m => ih)

/-- A directory is locked, and searched. -/
theorem ilock_dirlookup (h : Held R s [i] none t) (htree : Tree R cwd s) (hi : i < NINODE)
    (hR : R (t.inode i).inum) (htype : (s.dinode (t.inode i).inum).type = .T_DIR) :
    Meets (do ilock i; dirlookup sb i name) t (fun found u =>
      found.map (fun p => (u.inode p.1).inum) = lookup s (t.inode i).inum name) (NoInodes s) := by
  refine Meets.bind (h.ilock hi (mem_singleton_self i) hR (htree.live _ hR)) fun _ u hu => ?_
  obtain ⟨hu, hcopy, hinum⟩ := hu
  rw [← hinum i] at hR htype hcopy ⊢
  exact (hu.dirlookup htree hR hcopy htype).imp fun found v hv => hv.1.symm

/-- **`dirlookup` finds what a directory has,** wherever its inode is. -/
theorem Tree.dirlookup (h : Tree R cwd s) (hR : R n) (htype : (s.dinode n).type = .T_DIR) :
    Meets (do let i ← iget n; ilock i; dirlookup sb i name) s (fun found t =>
      found.map (fun p => (t.inode p.1).inum) = lookup s n name) (NoInodes s) := by
  rw [meets_bind]
  refine (h.held.iget hR).mono (fun i t ht => ?_)
    fun msg hfull => ⟨hfull.1, h.held.crowded (Nat.zero_le _) hfull.2⟩
  obtain ⟨ht, hlt, hinum, -⟩ := ht
  rw [← hinum] at hR htype ⊢
  exact ilock_dirlookup ht h hlt hR htype

/-- **`namei` is the left fold of `dirlookup`** over the elements of the path, and `nameiparent`
finds the directory in which the last name is to be looked up. -/
theorem path_resolution (h : Tree R cwd s) (path : Path) :
    (∀ n, R n → (s.dinode n).type = .T_DIR → ∀ name,
      Meets (do let i ← iget n; ilock i; dirlookup sb i name) s (fun found t =>
        found.map (fun p => (t.inode p.1).inum) = lookup s n name) (NoInodes s)) ∧
    Meets (namei sb cwd path) s (fun r t =>
      r.map (fun i => (t.inode i).inum) = resolve s (start s cwd path) (components path) ∧
      Held R s r.toList none t) (NoInodes s) ∧
    (components path = [] →
      Meets (nameiparent sb cwd path) s (fun r t => r = none ∧ Held R s [] none t) (NoInodes s)) ∧
    ∀ names name, components path = names ++ [name] →
      Meets (nameiparent sb cwd path) s (fun r t =>
        (r = none ∧ Held R s [] none t ∧
          resolve s (start s cwd path) (components path) = none) ∨
        ∃ dp, r = some (dp, name) ∧ Held R s [dp] none t ∧
          resolve s (start s cwd path) names = some (t.inode dp).inum ∧
          (s.dinode (t.inode dp).inum).type = .T_DIR ∧
          Meets (do ilock dp; dirlookup sb dp name) t (fun found u =>
            found.map (fun p => (u.inode p.1).inum) =
              resolve s (start s cwd path) (components path)) (NoInodes s)) (NoInodes s) := by
  refine ⟨fun n hR htype name => h.dirlookup hR htype, ?_, fun hnil => ?_,
    fun names name hnames => ?_⟩
  · rw [namei, meets_bind]
    refine (namex_spec h path false).imp fun r t hr => ?_
    obtain ⟨hresult, hheld, -⟩ := hr
    rw [walkPath_false] at hresult
    rcases r with _ | ⟨i, last⟩
    · exact ⟨(Option.map_eq_none_iff.mp hresult.symm).symm, hheld⟩
    · obtain ⟨m, hm, heq⟩ := Option.map_eq_some_iff.mp hresult.symm
      refine ⟨?_, hheld⟩
      rw [hm, (Prod.mk.inj heq).1]
      rfl
  · refine (namex_spec h path true).imp fun r t hr => ?_
    obtain ⟨hresult, hheld, -⟩ := hr
    rw [hnil] at hresult
    obtain rfl := Option.map_eq_none_iff.mp hresult
    exact ⟨rfl, hheld⟩
  · refine (namex_spec h path true).imp fun r t hr => ?_
    obtain ⟨hresult, hheld, hentry⟩ := hr
    rw [hnames, walkPath_true] at hresult
    rw [hnames, resolve_append]
    rcases r with _ | ⟨dp, last⟩
    · refine Or.inl ⟨rfl, hheld, ?_⟩
      rw [Option.map_none, eq_comm, Option.bind_eq_none_iff] at hresult
      rw [Option.bind_eq_none_iff]
      intro m hm
      have hfile := hresult m hm
      split_ifs at hfile with htype
      rw [lookup, if_neg htype]
    · obtain ⟨m, hm, heq⟩ := Option.bind_eq_some_iff.mp hresult.symm
      obtain ⟨hlt, hR⟩ := hentry _ rfl
      split_ifs at heq with htype
      obtain ⟨rfl, rfl⟩ := Prod.mk.inj (Option.some.inj heq)
      refine Or.inr ⟨dp, rfl, hheld, hm, htype, ?_⟩
      rw [hm, Option.bind_some]
      exact ilock_dirlookup hheld h hlt hR htype

end

/-- A file system with a root directory, and in it a file with the name "a". -/
def smallTree : State :=
  { oneFile with
    block := fun _ => direntBytes [97] 2
    dinode := fun n =>
      if n = 1 then
        { Dinode.zero with
          type := .T_DIR, nlink := 1, size := direntSize
          addrs := update (fun _ => 0) 0 55 }
      else if n = 2 then { Dinode.zero with type := .T_FILE, nlink := 1 }
      else .zero
    inode := fun i =>
      { inum := 1, ref := if i = 0 then 1 else 0, locked := false, valid := false
        copy := .zero } }

theorem tree_smallTree : Tree (fun n => n = 1 ∨ n = 2) 0 smallTree where
  locked _ _ _ := rfl
  unique i _ j _ hi hj _ := by
    have hzero (i : ℕ) (hi : 0 < (smallTree.inode i).ref) : i = 0 := by
      by_contra hne
      exact absurd hi (by simp [smallTree, hne])
    rw [hzero i hi, hzero j hj]
  coherent _ _ _ _ hvalid := absurd hvalid Bool.false_ne_true
  root := Or.inl rfl
  cwd_lt := by decide
  cwd_ref := by decide
  cwd_mem := Or.inl rfl
  live n hn := by rcases hn with rfl | rfl <;> decide
  dir n hn htype := by
    rcases hn with rfl | rfl
    · refine ⟨rfl, rfl, by decide, fun bn hbn => ?_⟩
      obtain rfl : bn = 0 := Nat.lt_one_iff.mp hbn
      decide
    · exact absurd htype (by decide)
  closed n hn name m hm := by
    rcases hn with rfl | rfl
    · obtain ⟨j, hj, rfl⟩ := Option.map_eq_some_iff.mp hm
      obtain rfl : j = 0 := Nat.lt_one_iff.mp (slotOf_eq_some.mp hj).1
      exact Or.inr (by decide)
    · cases hm
  links n hn := by rcases hn with rfl | rfl <;> exact Or.inl (by decide)

/-- The path "//a/" leads to the file. -/
theorem path_resolution_file :
    ∃ i t, namei ⟨60, 10, 3⟩ 0 [47, 47, 97, 47] smallTree = .ok (some i, t) ∧
      (t.inode i).inum = 2 := by
  have hnamei : Meets (namei ⟨60, 10, 3⟩ 0 [47, 47, 97, 47]) smallTree _ _ :=
    (path_resolution tree_smallTree [47, 47, 97, 47]).2.1
  obtain ⟨r, t, heq, hr, -⟩ := hnamei.exists_ok fun msg hmsg =>
    absurd (hmsg.2 1 (by decide) 2 (by decide) rfl rfl) (by decide)
  obtain ⟨i, rfl, hi⟩ := Option.map_eq_some_iff.mp hr
  exact ⟨i, t, heq, hi⟩

end Xv6.Fs
