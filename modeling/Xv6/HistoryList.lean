import Mathlib.Data.List.Nodup
import Xv6.HistoryBounds
import Xv6.Linked
import Xv6.Machine

/-!
# The list of the history (`user/sh.c`)

`history` is a doubly linked list of nodes that `malloc` returned, between two
elements that are in `struct list` itself. `history_add` puts a node at the end
and frees the first one when `history_index` is greater than `MAX_HISTORY_LEN`;
it does not count the nodes.

A node is the block that `malloc` returned: `line_num` is right in front of
`line_str`, so that `line_str[-1]` is its last byte. No command that `main` takes
from its input is written there, or beyond the node (`index_of_main`). `After.run`
says what the list is after any number of calls, with the lines that `History` has
for them; `history_list` is what follows for the calls of `main`.
-/

namespace Xv6.Sh.HistoryList

open Function List

/-- A `struct list_elem *` -/
inductive Elem : Type where
  | null
  /-- `&history.head` -/
  | head
  /-- `&history.tail` -/
  | tail
  /-- the `elem` of the node at this address, which is at its beginning -/
  | node (a : ℕ)
  deriving DecidableEq

/-- The rest of a `struct history_line` -/
structure Line where
  line_num : BitVec 32
  line_str : ℕ → UInt8

/-- The memory of the shell. -/
structure State where
  prev : Elem → Elem
  next : Elem → Elem
  line : ℕ → Line
  /-- the blocks that `malloc` has returned and that have not been freed, oldest first -/
  live : List ℕ
  /-- the calls of `free`, oldest first -/
  freed : List ℕ
  history_index : BitVec 32

/-! ## The code -/

/-- `list_init` -/
def init : State where
  prev e := if e = .tail then .head else .null
  next e := if e = .head then .tail else .null
  line _ := ⟨0, fun _ => 0⟩
  live := []
  freed := []
  history_index := 1

/-- `line_str[i] = c`. What is in front of `line_str` is the last byte of `line_num`; other bytes
are outside of what this model has. -/
def Line.put (l : Line) (i : ℤ) (c : UInt8) : Option Line :=
  if i = -1 then some { l with line_num := c.toBitVec ++ l.line_num.setWidth 24 }
  else if 0 ≤ i ∧ i < MAX_LINE_LEN then
    some { l with line_str := update l.line_str i.toNat c }
  else none

/-- The loop of `my_strncpy`, from character `i` of the string on. -/
def strncpyLoop (n : ℤ) : ℕ → Str → Line → Option Line
  | i, [], l => l.put i 0
  | i, c :: src, l => if i < n then (l.put i c).bind (strncpyLoop n (i + 1) src) else l.put i 0

/-- `my_strncpy(line_str, src, n)` -/
def my_strncpy (l : Line) (src : Str) (n : ℤ) : Option Line := strncpyLoop n 0 src l

/-- What `history_add` writes into the node, apart from its links. -/
def fill (l : Line) (index : BitVec 32) (buf : Str) : Option Line := do
  let l ← l.put 0 0
  let l ← my_strncpy { l with line_num := index } buf (lastIndex buf)
  l.put (lastIndex buf) 0

/-- `list_push_back` -/
def list_push_back (s : State) (elem : Elem) : State :=
  let s := { s with prev := update s.prev elem (s.prev .tail) }
  let s := { s with next := update s.next elem .tail }
  let s := { s with next := update s.next (s.prev .tail) elem }
  { s with prev := update s.prev .tail elem }

/-- `list_pop_front` -/
def list_pop_front (s : State) : Elem × State :=
  let elem := s.next .head
  if elem = .tail then (.null, s)
  else
    let s := { s with next := update s.next .head (s.next elem) }
    (elem, { s with prev := update s.prev (s.next elem) .head })

/-- `free`; only the blocks of nodes are freed -/
def free (s : State) : Elem → State
  | .node a => { s with live := s.live.erase a, freed := s.freed ++ [a] }
  | _ => s

/-- `history_add`, with the block that `malloc` returns: one that is not in use. The machine stops
where a line is written outside of its node. -/
def history_add (s : State) : ℕ × Str → Outcome State
  | (a, buf) =>
    if a ∈ s.live then .blocked
    else
      match fill (s.line a) s.history_index buf with
      | none => .panic "outside of the node"
      | some l =>
        let s := { s with line := update s.line a l, live := s.live ++ [a] }
        let s := list_push_back s (.node a)
        let s :=
          if (MAX_HISTORY_LEN : ℤ) < s.history_index.toInt then
            let (e, s) := list_pop_front s
            free s e
          else s
        .ok { s with history_index := s.history_index + 1 }

/-- The elements that the loops of `history_show` visit -/
def forward (s : State) (fuel : ℕ) : Option (List Elem) := follow s.next .tail fuel (s.next .head)

/-- The elements that `history_run` visits, up to `history.head` -/
def backward (s : State) (fuel : ℕ) : Option (List Elem) := follow s.prev .head fuel (s.prev .tail)

/-! ## What is written into a node -/

/-- The node holds this line. -/
structure Line.Is (l : Line) (h : HistoryLine) : Prop where
  num : l.line_num = h.line_num
  str : StrAt l.line_str h.line_str

theorem put_of_lt (l : Line) {i : ℕ} (hi : i < MAX_LINE_LEN) (c : UInt8) :
    l.put i c = some { l with line_str := update l.line_str i c } := by
  rw [Line.put, if_neg (by omega), if_pos ⟨Int.natCast_nonneg i, Int.ofNat_lt.mpr hi⟩,
    Int.toNat_natCast]

/-- The 0 after a string, which is empty so far. -/
theorem put_zero (l : Line) {i : ℕ} (hi : i < MAX_LINE_LEN) : ∃ l', l.put i 0 = some l' ∧
    l'.line_num = l.line_num ∧ (∀ j < i, l'.line_str j = l.line_str j) ∧
      StrAt (fun j => l'.line_str (i + j)) [] :=
  ⟨_, put_of_lt l hi 0, rfl, fun _ hj => update_of_ne hj.ne .., fun _ hj => absurd hj (by simp),
    update_self ..⟩

/-- **The loop of `my_strncpy`** stores up to `n` characters, from `i` on, and does not touch what is
before. -/
theorem strncpyLoop_spec {n : ℤ} (hn : n < MAX_LINE_LEN) {i : ℕ} (hi : i < MAX_LINE_LEN)
    (src : Str) (l : Line) :
    ∃ l', strncpyLoop n i src l = some l' ∧ l'.line_num = l.line_num ∧
      (∀ j < i, l'.line_str j = l.line_str j) ∧
      StrAt (fun j => l'.line_str (i + j)) (src.take (n - i).toNat) := by
  induction src generalizing i l with
  | nil =>
    rw [take_nil]
    exact put_zero l hi
  | cons c src ih =>
    rw [strncpyLoop]
    split_ifs with h
    · obtain ⟨l', hl', hnum, hbefore, hstr, hnul⟩ :=
        ih (i := i + 1) (by omega) { l with line_str := update l.line_str i c }
      have hshift (j : ℕ) : i + 1 + j = i + (j + 1) := by omega
      simp only [hshift] at hstr hnul
      rw [put_of_lt l hi c, show (n - i).toNat = (n - (i + 1 : ℕ)).toNat + 1 by omega,
        take_succ_cons]
      refine ⟨l', hl', hnum, fun j hj => ?_, fun j hj => ?_, hnul⟩
      · exact (hbefore j (by omega)).trans (update_of_ne hj.ne ..)
      · cases j with
        | zero => exact (hbefore i (Nat.lt_succ_self i)).trans (update_self ..)
        | succ j => exact hstr j (by simpa using hj)
    · rw [show (n - i).toNat = 0 by omega, take_zero]
      exact put_zero l hi

/-- Where the 0 after a string is written: not before it, unless the line is a single newline. -/
theorem lastIndex_nonneg {buf : Str} (hne : buf ≠ []) (hnl : buf.head? ≠ some newline) :
    0 ≤ lastIndex buf := by
  rw [lastIndex]
  rcases buf with _ | ⟨c, _ | ⟨d, buf⟩⟩
  · exact absurd rfl hne
  · have hc : c ≠ newline := by simpa using hnl
    simp [hc]
  · simp only [length_cons]
    split_ifs <;> omega

/-- **The node gets its line**, if the 0 at the end of it is written inside `line_str`. -/
theorem fill_eq {buf : Str} (hlo : 0 ≤ lastIndex buf) (hhi : lastIndex buf < MAX_LINE_LEN)
    (l : Line) (k : ℕ) :
    ∃ l', fill l (BitVec.ofNat 32 k) buf = some l' ∧ l'.Is (entryOf k buf) := by
  have h0 : l.put 0 0 = some { l with line_str := update l.line_str 0 0 } :=
    put_of_lt l (by decide) 0
  obtain ⟨l₁, hl₁, hnum, -, hstr, -⟩ := strncpyLoop_spec hhi (i := 0) (by decide) buf
    { line_num := BitVec.ofNat 32 k, line_str := update l.line_str 0 0 }
  have hcopy : my_strncpy { line_num := BitVec.ofNat 32 k, line_str := update l.line_str 0 0 } buf
      (lastIndex buf) = some l₁ := hl₁
  obtain ⟨n, hn⟩ := Int.eq_ofNat_of_zero_le hlo
  have hlt : n < MAX_LINE_LEN := by omega
  have hline : (entryOf k buf).line_str = buf.take n := by
    rw [entryOf, hn]
    rfl
  have hlen : (buf.take n).length = n := by
    have hle : lastIndex buf ≤ buf.length := by
      rw [lastIndex]
      split_ifs <;> omega
    rw [length_take]
    omega
  refine ⟨{ l₁ with line_str := update l₁.line_str n 0 }, ?_, hnum, ?_⟩
  · rw [fill, h0, Option.bind_eq_bind, Option.bind_some, hcopy, hn]
    exact put_of_lt l₁ hlt 0
  · rw [hline]
    rw [hn, show ((n : ℤ) - (0 : ℕ)).toNat = n by omega] at hstr
    dsimp only at hstr
    refine ⟨fun j hj => ?_, ?_⟩
    · have hj' := hstr j hj
      rw [Nat.zero_add] at hj'
      exact (update_of_ne (by omega) ..).trans hj'
    · rw [hlen]
      exact update_self ..

/-! ## The list -/

/-- The elements of the nodes. -/
def nodes (A : List (ℕ × HistoryLine)) : List Elem := A.map fun e => .node e.1

/-- **The list holds these nodes**, given with their lines, and no other block is in use. -/
structure Holds (s : State) (A : List (ℕ × HistoryLine)) : Prop where
  linked : Linked s.next s.prev (.head :: nodes A ++ [.tail])
  nodup : (A.map Prod.fst).Nodup
  live : s.live = A.map Prod.fst
  is : ∀ e ∈ A, (s.line e.1).Is e.2

theorem mem_nodes {A : List (ℕ × HistoryLine)} {x : Elem} :
    x ∈ nodes A ↔ ∃ a ∈ A.map Prod.fst, x = .node a := by
  simp [nodes, eq_comm]

theorem nodup_elems {A : List (ℕ × HistoryLine)} (h : (A.map Prod.fst).Nodup) :
    (.head :: nodes A ++ [.tail] : List Elem).Nodup := by
  have hnodes : (nodes A).Nodup := by
    have hmap := List.Nodup.map (f := Elem.node) (fun a b => Elem.node.inj) h
    rwa [map_map] at hmap
  have hhead : Elem.head ∉ nodes A := by simp [mem_nodes]
  have htail : Elem.tail ∉ nodes A := by simp [mem_nodes]
  rw [cons_append, nodup_cons, nodup_append_comm, singleton_append,
    nodup_cons]
  exact ⟨by simp [hhead], htail, hnodes⟩

theorem holds_init : Holds init [] where
  linked := isChain_pair.mpr ⟨rfl, rfl⟩
  nodup := nodup_nil
  live := rfl
  is _ h := absurd h not_mem_nil

/-- A node is put at the end. -/
theorem Holds.push {s : State} {A : List (ℕ × HistoryLine)} (h : Holds s A) {a : ℕ}
    (ha : a ∉ s.live) {l : Line} {line : HistoryLine} (hl : l.Is line) :
    Holds (list_push_back
      { s with line := update s.line a l, live := s.live ++ [a] } (.node a))
      (A ++ [(a, line)]) := by
  rw [h.live] at ha
  have hmem : Elem.node a ∉ (.head :: nodes A ++ [.tail] : List Elem) := by
    simpa [mem_nodes] using ha
  refine ⟨?_, ?_, ?_, ?_⟩
  · -- the new node comes after the last place before the tail
    obtain ⟨l₁, p, hp⟩ : ∃ l₁ p, (.head :: nodes A : List Elem) = l₁ ++ [p] := by
      rcases eq_nil_or_concat (Elem.head :: nodes A) with hnil | ⟨l₁, p, hp⟩
      · cases hnil
      · exact ⟨l₁, p, by rw [hp, concat_eq_append]⟩
    have hlinked := h.linked
    have hnodup := nodup_elems h.nodup
    rw [hp, append_assoc, singleton_append] at hlinked hnodup hmem
    have hprev : s.prev .tail = p := (Linked.cons_cons.mp (Linked.split.mp hlinked).2).1.2
    have hinsert := hlinked.insert hnodup hmem
    have helems : (.head :: nodes (A ++ [(a, line)]) ++ [.tail] : List Elem) =
        l₁ ++ p :: .node a :: .tail :: [] := by
      rw [nodes, map_append, ← cons_append, append_assoc]
      change (.head :: nodes A : List Elem) ++ _ = _
      rw [hp, append_assoc]
      rfl
    rw [helems]
    simpa only [list_push_back, update_of_ne (show Elem.tail ≠ .node a by nofun), hprev]
      using hinsert
  · rw [map_append, nodup_append]
    refine ⟨h.nodup, pairwise_singleton _ a, ?_⟩
    rintro x hx y hy rfl
    obtain rfl := mem_singleton.mp hy
    exact ha hx
  · rw [map_append, ← h.live]
    rfl
  · intro e he
    rcases mem_append.mp he with he | he
    · have hne : e.1 ≠ a := fun heq => ha (heq ▸ mem_map_of_mem he)
      have hsame : update s.line a l e.1 = s.line e.1 := update_of_ne hne ..
      exact (hsame ▸ h.is e he :)
    · obtain rfl := mem_singleton.mp he
      have hself : update s.line a l a = l := update_self ..
      exact (hself ▸ hl :)

/-- The first node is taken out and freed. -/
theorem Holds.pop {s : State} {A : List (ℕ × HistoryLine)} {e : ℕ × HistoryLine}
    (h : Holds s (e :: A)) :
    ∃ s', list_pop_front s = (.node e.1, s') ∧ Holds (free s' (.node e.1)) A ∧
      (free s' (.node e.1)).freed = s.freed ++ [e.1] ∧ s'.history_index = s.history_index := by
  have hlinked := h.linked
  have hnodup := nodup_elems h.nodup
  have hhead : s.next .head = .node e.1 := (Linked.cons_cons.mp hlinked).1.1
  -- what comes after the first node is another one, or the tail
  obtain ⟨q, l, hq⟩ : ∃ q l, nodes A ++ [.tail] = q :: l :=
    exists_cons_of_ne_nil (append_ne_nil_of_right_ne_nil _ (cons_ne_nil _ _))
  have helems : (.head :: nodes (e :: A) ++ [.tail] : List Elem) = .head :: .node e.1 :: q :: l := by
    rw [← hq]
    rfl
  rw [helems] at hlinked hnodup
  have hnext : s.next (.node e.1) = q :=
    (Linked.cons_cons.mp (Linked.cons_cons.mp hlinked).2).1.1
  have hpop : list_pop_front s = (.node e.1, { s with
      next := update s.next .head q
      prev := update s.prev q .head }) := by
    rw [list_pop_front, if_neg (by rw [hhead]; nofun), hhead]
    simp only [update_of_ne (show Elem.node e.1 ≠ .head by nofun), hnext]
  refine ⟨_, hpop, ?_, rfl, rfl⟩
  have hnodes := nodup_cons.mp h.nodup
  refine ⟨?_, hnodes.2, ?_, fun e' he' => h.is e' (mem_cons_of_mem _ he')⟩
  · rw [cons_append, hq]
    exact hlinked.remove hnodup
  · change s.live.erase e.1 = _
    rw [h.live]
    exact erase_cons_head ..

/-- **Both directions visit the nodes**, the links back in reverse. -/
theorem Holds.traverse {s : State} {A : List (ℕ × HistoryLine)} (h : Holds s A) {fuel : ℕ}
    (hfuel : A.length < fuel) :
    forward s fuel = some (nodes A) ∧ backward s fuel = some (nodes A).reverse := by
  have hlength : (nodes A).length = A.length := length_map _
  constructor
  · exact h.linked.chained.follow (by simp [mem_nodes]) (by rwa [hlength])
  · have hreverse := h.linked.reverse
    rw [reverse_append, reverse_singleton, reverse_cons] at hreverse
    exact Chained.follow (p := Elem.tail) hreverse.chained (by simp [mem_nodes])
      (by rwa [length_reverse, hlength])

/-! ## Runs -/

/-- The nodes that calls made, with their lines. -/
def entries (calls : List (ℕ × Str)) : List (ℕ × HistoryLine) :=
  (calls.map Prod.fst).zip (Sh.entries (calls.map Prod.snd))

theorem length_entries (calls : List (ℕ × Str)) : (entries calls).length = calls.length := by
  rw [entries, length_zip, Sh.length_entries, length_map, length_map, Nat.min_self]

theorem entries_concat (calls : List (ℕ × Str)) (c : ℕ × Str) :
    entries (calls ++ [c]) = entries calls ++ [(c.1, entryOf (calls.length + 1) c.2)] := by
  have hlength : (calls.map Prod.fst).length = (Sh.entries (calls.map Prod.snd)).length := by
    rw [Sh.length_entries, length_map, length_map]
  rw [entries, map_append, map_append, map_singleton, map_singleton, Sh.entries_concat,
    zip_append hlength, length_map]
  rfl

theorem map_fst_entries (calls : List (ℕ × Str)) :
    (entries calls).map Prod.fst = calls.map Prod.fst :=
  map_fst_zip (by rw [Sh.length_entries, length_map, length_map])

theorem map_snd_entries (calls : List (ℕ × Str)) :
    (entries calls).map Prod.snd = Sh.entries (calls.map Prod.snd) :=
  map_snd_zip (by rw [Sh.length_entries, length_map, length_map])

/-- The nodes that calls have left are the last ones. -/
structure After (s : State) (calls : List (ℕ × Str)) : Prop where
  holds : Holds s ((entries calls).drop (calls.length - MAX_HISTORY_LEN))
  freed : s.freed = ((entries calls).take (calls.length - MAX_HISTORY_LEN)).map Prod.fst
  index : s.history_index = BitVec.ofNat 32 (calls.length + 1)

/-- The line is written into `line_str`, and not elsewhere. -/
def Fits (buf : Str) : Prop := 0 ≤ lastIndex buf ∧ lastIndex buf < MAX_LINE_LEN

/-- **One call.** -/
theorem After.add {s : State} {calls : List (ℕ × Str)} (h : After s calls) {a : ℕ} {buf : Str}
    (ha : a ∉ s.live) (hfits : Fits buf) (hk : calls.length + 1 < 2 ^ 31) :
    ∃ s', history_add s (a, buf) = .ok s' ∧ After s' (calls ++ [(a, buf)]) := by
  obtain ⟨l, hfill, hline⟩ := fill_eq hfits.1 hfits.2 (s.line a) (calls.length + 1)
  have hint : s.history_index.toInt = ((calls.length + 1 : ℕ) : ℤ) := by
    rw [h.index, BitVec.toInt_ofNat', Int.bmod_eq_of_le] <;> omega
  have hlen := length_entries calls
  rw [← h.index] at hfill
  obtain ⟨s₁, hs₁, hpush, hfreed, hindex⟩ : ∃ s₁, list_push_back
      { s with line := update s.line a l, live := s.live ++ [a] } (.node a) = s₁ ∧
      Holds s₁ _ ∧ s₁.freed = s.freed ∧ s₁.history_index = s.history_index :=
    ⟨_, rfl, h.holds.push ha hline, rfl, rfl⟩
  have hsucc : s.history_index + 1 = BitVec.ofNat 32 ((calls ++ [(a, buf)]).length + 1) := by
    rw [h.index, length_append, length_singleton, BitVec.ofNat_add (calls.length + 1) 1]
    rfl
  rw [history_add, if_neg ha, hfill]
  dsimp only
  rw [hs₁, hindex, hint]
  by_cases hfull : (MAX_HISTORY_LEN : ℤ) < (calls.length + 1 : ℕ)
  · -- the first node goes
    rw [if_pos hfull]
    have hlt : calls.length - MAX_HISTORY_LEN < (entries calls).length := by
      have : 0 < MAX_HISTORY_LEN := by decide
      omega
    rw [drop_eq_getElem_cons hlt, cons_append] at hpush
    obtain ⟨s₂, hpop, hholds, hfreed₂, hindex₂⟩ := hpush.pop
    have hlength : (calls ++ [(a, buf)]).length - MAX_HISTORY_LEN =
        calls.length - MAX_HISTORY_LEN + 1 := by
      rw [length_append, length_singleton]
      omega
    rw [hpop]
    refine ⟨_, rfl, ⟨?_, ?_, ?_⟩⟩
    · rw [hlength, entries_concat, drop_append_of_le_length hlt]
      exact ⟨hholds.linked, hholds.nodup, hholds.live, hholds.is⟩
    · rw [hlength, entries_concat, take_append_of_le_length hlt,
        take_succ_eq_append_getElem hlt, map_append, ← h.freed, ← hfreed]
      exact hfreed₂
    · change s₂.history_index + 1 = _
      rw [hindex₂, hindex, hsucc]
  · -- there is room for one more
    rw [if_neg hfull]
    have hlength : (calls ++ [(a, buf)]).length - MAX_HISTORY_LEN =
        calls.length - MAX_HISTORY_LEN := by
      rw [length_append, length_singleton]
      omega
    refine ⟨_, rfl, ⟨?_, ?_, ?_⟩⟩
    · rw [hlength, entries_concat, drop_append_of_le_length (by omega)]
      exact ⟨hpush.linked, hpush.nodup, hpush.live, hpush.is⟩
    · rw [hlength, entries_concat, take_append_of_le_length (by omega), ← h.freed]
      exact hfreed
    · change s₁.history_index + 1 = _
      rw [hindex, hsucc]

/-- **The list after any number of calls**, if `malloc` can return these blocks. -/
theorem After.run {s : State} {before calls : List (ℕ × Str)} (h : After s before)
    (hk : before.length + calls.length < 2 ^ 31) (hfits : ∀ c ∈ calls, Fits c.2) :
    runList history_add s calls = .blocked ∨
      ∃ s', runList history_add s calls = .ok s' ∧ After s' (before ++ calls) := by
  induction calls generalizing s before with
  | nil => exact .inr ⟨s, rfl, by rwa [append_nil]⟩
  | cons c calls ih =>
    rw [length_cons] at hk
    rw [runList]
    by_cases hc : c.1 ∈ s.live
    · exact .inl (by rw [history_add, if_pos hc])
    · obtain ⟨s', hstep, hafter⟩ := h.add hc (hfits c mem_cons_self) (by omega)
      rw [hstep, ← singleton_append, ← append_assoc]
      refine ih hafter ?_ (fun x hx => hfits x (mem_cons_of_mem _ hx))
      rw [length_append, length_singleton]
      omega

theorem after_init : After init [] := ⟨holds_init, rfl, rfl⟩

/-- The numbers of lines are consecutive. -/
theorem map_line_num_entries (bufs : List Str) :
    (Sh.entries bufs).map HistoryLine.line_num =
      (List.range' 1 bufs.length).map (BitVec.ofNat 32) := by
  refine ext_getElem (by simp [Sh.length_entries]) fun i hi hi' => ?_
  simp only [Sh.entries, getElem_map, getElem_mapIdx, getElem_range', Nat.one_mul,
    Nat.add_comm 1 i]
  rfl

/-! ## The calls of `main` -/

/-- **Commands are written inside their nodes**, if they are not empty. -/
theorem index_of_main {input : Str} {cmd : HistoryBounds.Command}
    (hcmd : cmd ∈ HistoryBounds.calls input) (hne : cmd.text ≠ []) : Fits cmd.text := by
  obtain ⟨line, hline, hrec⟩ := HistoryBounds.mem_calls.mp hcmd
  obtain ⟨htext, hnl⟩ := HistoryBounds.recorded_eq_some hrec
  have hlen : cmd.text.length ≤ 99 := by
    rw [htext]
    exact ( dropWhile_suffix _ : line.dropWhile isBlank <:+ line).length_le.trans
      (HistoryBounds.mem_linesRead hline).2
  refine ⟨lastIndex_nonneg hne fun hhead => hnl ?_, ?_⟩
  · obtain ⟨t, ht⟩ := head?_eq_some_iff.mp hhead
    have := cmd.char_natCast 0
    rwa [ht] at this
  · rw [lastIndex, MAX_LINE_LEN]
    split_ifs <;> omega

/-- **The history list.** For every input, after any of the calls of `history_add` that `main` makes
for it, fewer than `2 ^ 31` and with lines that are not empty: the list has the last nodes, up to
`MAX_HISTORY_LEN` of them, in both directions; their numbers are consecutive and end with the number
of calls; the other nodes have been freed, in order; and the nodes hold the lines that `History`
says. -/
theorem history_list (input : Str) (calls : List (ℕ × Str))
    (hmain : calls.map Prod.snd <+: (HistoryBounds.calls input).map HistoryBounds.Command.text)
    (hk : calls.length < 2 ^ 31) (hne : ∀ c ∈ calls, c.2 ≠ []) :
    runList history_add init calls = .blocked ∨
      ∃ s, runList history_add init calls = .ok s ∧ ∃ l : List ℕ,
        l.length = min calls.length MAX_HISTORY_LEN ∧
        (∀ fuel, MAX_HISTORY_LEN < fuel →
          forward s fuel = some (l.map .node) ∧ backward s fuel = some (l.map .node).reverse) ∧
        l.map (fun a => (s.line a).line_num.toInt) =
          (List.range' (calls.length + 1 - l.length) l.length).map Int.ofNat ∧
        s.freed ++ l = calls.map Prod.fst ∧ l.Nodup ∧
        List.Forall₂ (fun a line => (s.line a).Is line) l
          ((calls.map Prod.snd).foldl Sh.history_add .init).history := by
  have hfits : ∀ c ∈ calls, Fits c.2 := by
    intro c hc
    obtain ⟨cmd, hcmd, htext⟩ := mem_map.mp (hmain.subset (mem_map_of_mem hc))
    rw [← htext]
    exact index_of_main hcmd (htext ▸ hne c hc)
  rcases after_init.run (by rwa [length_nil, Nat.zero_add]) hfits with hrun | ⟨s, hrun, hafter⟩
  · exact .inl hrun
  rw [nil_append] at hafter
  have hholds := hafter.holds
  have hfst := map_fst_entries calls
  have hsnd := map_snd_entries calls
  have hlen := length_entries calls
  have hfreed := hafter.freed
  have hshell := @after_adds (calls.map Prod.snd) (by rwa [length_map])
  rw [length_map, ← hsnd, ← map_drop] at hshell
  generalize hA : (entries calls).drop (calls.length - MAX_HISTORY_LEN) = A at hholds hshell
  have hlength : A.length = min calls.length MAX_HISTORY_LEN := by
    rw [← hA, length_drop, hlen]
    omega
  have hnums : A.map (fun e => (s.line e.1).line_num) =
      (List.range' (calls.length + 1 - A.length) A.length).map (BitVec.ofNat 32) := by
    have hsnd' : (entries calls).map (fun e => e.2.line_num) = _ :=
      (map_map (f := Prod.snd) (g := HistoryLine.line_num)).symm
    rw [map_congr_left fun e he => (hholds.is e he).num, hlength, ← hA, map_drop, hsnd', hsnd,
      map_line_num_entries, ← map_drop, drop_range', length_map]
    congr 2 <;> omega
  refine .inr ⟨s, hrun, A.map Prod.fst, by rw [length_map, hlength], ?_, ?_, ?_, hholds.nodup, ?_⟩
  · intro fuel hfuel
    rw [map_map]
    exact hholds.traverse (by omega)
  · rw [map_map, length_map]
    have htoInt := congrArg (List.map BitVec.toInt) hnums
    rw [map_map, map_map] at htoInt
    refine htoInt.trans (map_congr_left fun n hn => ?_)
    have hmem := mem_range'_1.mp hn
    show (BitVec.ofNat 32 n).toInt = (n : ℤ)
    rw [BitVec.toInt_ofNat', Int.bmod_eq_of_le] <;> omega
  · rw [hfreed, ← map_append, ← hA, take_append_drop, hfst]
  · rw [hshell, forall₂_map_left_iff, forall₂_map_right_iff]
    exact forall₂_same.mpr hholds.is

/-- The lines `ls` and `ps`, and what the calls for them leave. -/
theorem history_list_two : ∃ s,
    runList history_add init [(7, lsLine), (3, [112, 115, 10])] = .ok s ∧ ∃ l : List ℕ,
      l.length = 2 ∧
      (∀ fuel, MAX_HISTORY_LEN < fuel →
        forward s fuel = some (l.map .node) ∧ backward s fuel = some (l.map .node).reverse) ∧
      l.map (fun a => (s.line a).line_num.toInt) =
        (List.range' (2 + 1 - l.length) l.length).map Int.ofNat ∧
      s.freed ++ l = [7, 3] ∧
      List.Forall₂ (fun a line => (s.line a).Is line) l [⟨1, [108]⟩, ⟨2, [112]⟩] := by
  have hls : HistoryBounds.getcmd (lsLine ++ [112, 115, 10]) = some (lsLine, [112, 115, 10]) := by
    decide
  have hps : HistoryBounds.getcmd [112, 115, 10] = some ([112, 115, 10], []) := by decide
  have hmain : [lsLine, [112, 115, 10]] <+:
      (HistoryBounds.calls (lsLine ++ [112, 115, 10])).map HistoryBounds.Command.text := by
    rw [HistoryBounds.calls, HistoryBounds.linesRead_of_some hls,
      HistoryBounds.linesRead_of_some hps, HistoryBounds.linesRead_of_none (by decide)]
    decide
  obtain ⟨s, hrun, l, hlen, hvisit, hnums, hfreed, -, hlines⟩ :=
    (history_list _ [(7, lsLine), (3, [112, 115, 10])] hmain (by decide)
      (by decide)).resolve_left nofun
  exact ⟨s, hrun, l, hlen, hvisit, hnums, hfreed, hlines⟩

end Xv6.Sh.HistoryList
