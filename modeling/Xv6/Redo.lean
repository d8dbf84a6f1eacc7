import Mathlib.Data.List.Nodup
import Mathlib.Data.List.GetD
import Mathlib.Logic.Function.Basic
import Mathlib.Tactic.Common

/-!
# Redo logs

A redo log is a header, listing addresses, and one slot of new contents for
each address listed. What the store *stands for* is `replay`: the slot of an
address that is listed, the store's own contents elsewhere. A commit protocol
is right when each of its writes either leaves `replay` alone or switches it
from the old state to the new one at once; the lemmas below are these cases.
-/

namespace Xv6

universe u v

variable {A : Type u} [DecidableEq A] {B : Type v}

/-- What the store stands for: the log listed by `hdr`, with contents `slot`,
replayed over `home`. -/
def replay (hdr : List A) (slot : ℕ → B) (home : A → B) (a : A) : B :=
  if a ∈ hdr then slot (hdr.idxOf a) else home a

@[simp] theorem replay_nil (slot : ℕ → B) (home : A → B) (a : A) :
    replay [] slot home a = home a := rfl

theorem replay_of_notMem {hdr : List A} {slot : ℕ → B} {home : A → B} {a : A} (h : a ∉ hdr) :
    replay hdr slot home a = home a :=
  if_neg h

/-- A listed address stands for its slot. -/
theorem replay_getD {hdr : List A} (hnd : hdr.Nodup) {slot : ℕ → B} {home : A → B} {j : ℕ}
    (hj : j < hdr.length) (x : A) : replay hdr slot home (hdr.getD j x) = slot j := by
  rw [List.getD_eq_getElem _ _ hj, replay, if_pos (List.getElem_mem hj), hnd.idxOf_getElem]

/-- Writes outside the slots and the unlisted addresses do not matter. -/
theorem replay_congr {hdr : List A} {slot slot' : ℕ → B} {home home' : A → B} {a : A}
    (hs : ∀ j < hdr.length, slot j = slot' j) (hh : a ∉ hdr → home a = home' a) :
    replay hdr slot home a = replay hdr slot' home' a := by
  unfold replay
  by_cases ha : a ∈ hdr
  · rw [if_pos ha, if_pos ha, hs _ (List.idxOf_lt_length_iff.mpr ha)]
  · rw [if_neg ha, if_neg ha, hh ha]

/-- Once every slot is installed the log can be dropped. -/
theorem replay_eq_home {hdr : List A} (hnd : hdr.Nodup) {slot : ℕ → B} {home : A → B} (x : A)
    (h : ∀ j < hdr.length, home (hdr.getD j x) = slot j) (a : A) :
    replay hdr slot home a = home a := by
  by_cases ha : a ∈ hdr
  · have hlt : hdr.idxOf a < hdr.length := List.idxOf_lt_length_iff.mpr ha
    have hget : hdr.getD (hdr.idxOf a) x = a := by
      rw [List.getD_eq_getElem _ _ hlt, List.getElem_idxOf]
    rw [← hget, replay_getD hnd hlt, h _ hlt]
  · exact replay_of_notMem ha

/-- **The commit point**: listing slots that hold the new contents of the
addresses they are listed for switches `replay` to the new contents at once. -/
theorem replay_commit {hdr : List A} {slot : ℕ → B} {home new : A → B} {a : A} (x : A)
    (hs : ∀ j < hdr.length, slot j = new (hdr.getD j x)) (hh : a ∉ hdr → home a = new a) :
    replay hdr slot home a = new a := by
  unfold replay
  by_cases ha : a ∈ hdr
  · have hlt : hdr.idxOf a < hdr.length := List.idxOf_lt_length_iff.mpr ha
    rw [if_pos ha, hs _ hlt, List.getD_eq_getElem _ _ hlt, List.getElem_idxOf]
  · rw [if_neg ha, hh ha]

end Xv6
