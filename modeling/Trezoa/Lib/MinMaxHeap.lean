import Mathlib.Data.List.Sort
import Mathlib.Order.Defs.LinearOrder

/-!
# Double-ended priority queues

A queue that gives out its least and its greatest element. What such a queue gives out depends only
on what it holds, so it is modelled by the sorted list of its elements. `push`, `popMin` and
`popMax` do what the crate `min-max-heap` 1.3 documents of `push`, `pop_min` and `pop_max`; elements
that compare equal are equal here.
-/

namespace Trezoa.Lib

/-- A double-ended priority queue. -/
structure MinMaxHeap (α : Type) [LinearOrder α] where
  elems : List α
  sorted : elems.Pairwise (· ≤ ·)

namespace MinMaxHeap

variable {α : Type} [LinearOrder α] {h h' : MinMaxHeap α} {a b : α}

/-- The queue without elements. -/
def empty : MinMaxHeap α := ⟨[], .nil⟩

/-- The queue with one more element. -/
def push (h : MinMaxHeap α) (a : α) : MinMaxHeap α :=
  ⟨h.elems.orderedInsert (· ≤ ·) a, h.sorted.orderedInsert a h.elems⟩

/-- The queue with more elements. -/
def pushAll (h : MinMaxHeap α) (as : List α) : MinMaxHeap α := as.foldl push h

/-- The least element and the queue without it. -/
def popMin (h : MinMaxHeap α) : Option (α × MinMaxHeap α) :=
  match h with
  | ⟨[], _⟩ => none
  | ⟨a :: rest, sorted⟩ => some (a, ⟨rest, sorted.of_cons⟩)

/-- The greatest element and the queue without it. -/
def popMax (h : MinMaxHeap α) : Option (α × MinMaxHeap α) :=
  h.elems.getLast?.map fun a => (a, ⟨h.elems.dropLast, h.sorted.sublist (List.dropLast_sublist _)⟩)

lemma push_perm : (h.push a).elems.Perm (a :: h.elems) := List.perm_orderedInsert _ _ _

/-- Pushing adds the elements. -/
theorem pushAll_perm (as : List α) : (h.pushAll as).elems.Perm (as ++ h.elems) := by
  induction as generalizing h with
  | nil => exact .refl _
  | cons a as ih =>
    exact (ih (h := h.push a)).trans ((push_perm.append_left as).trans List.perm_middle)

/-- The popped element is the first one. -/
lemma popMin_eq_some (hpop : h.popMin = some (a, h')) : h.elems = a :: h'.elems := by
  obtain ⟨elems, sorted⟩ := h
  cases elems with
  | nil => cases hpop
  | cons b rest =>
    cases hpop
    rfl

/-- There is an element to pop from a queue that is not empty. -/
lemma exists_popMin (hpos : 0 < h.elems.length) : ∃ a h', h.popMin = some (a, h') := by
  obtain ⟨elems, sorted⟩ := h
  cases elems with
  | nil => simp at hpos
  | cons b rest => exact ⟨b, _, rfl⟩

/-- The popped element is the last one. -/
lemma popMax_eq_some (hpop : h.popMax = some (a, h')) : h.elems = h'.elems ++ [a] := by
  unfold popMax at hpop
  obtain ⟨last, hlast, heq⟩ := Option.map_eq_some_iff.mp hpop
  cases heq
  exact (List.dropLast_append_getLast? _ hlast).symm

end MinMaxHeap
end Trezoa.Lib
