/-!
# A bounded queue

First in, first out, with room for a fixed number of items.
-/

namespace FirmwareUpdate

/-- A queue with room for `capacity` items. -/
structure BoundedQueue (α : Type) (capacity : Nat) where
  /-- The items, the oldest first. -/
  toList : List α
  length_le : toList.length ≤ capacity

namespace BoundedQueue

variable {α : Type} {capacity : Nat}

def empty : BoundedQueue α capacity := ⟨[], Nat.zero_le _⟩

/-- Adds an item at the end, if there is room. -/
def push? (q : BoundedQueue α capacity) (a : α) : Option (BoundedQueue α capacity) :=
  if h : q.toList.length < capacity then
    some ⟨q.toList ++ [a], by rw [List.length_append]; exact h⟩
  else
    none

/-- The oldest item and the queue without it, if there is one. -/
def pop? (q : BoundedQueue α capacity) : Option (α × BoundedQueue α capacity) :=
  match q with
  | ⟨[], _⟩ => none
  | ⟨a :: rest, h⟩ => some (a, ⟨rest, Nat.le_of_succ_le h⟩)

@[simp] theorem toList_empty : (empty : BoundedQueue α capacity).toList = [] := rfl

theorem push?_eq_some_iff {q r : BoundedQueue α capacity} {a : α} :
    q.push? a = some r ↔ q.toList.length < capacity ∧ r.toList = q.toList ++ [a] := by
  obtain ⟨items, h⟩ := r
  unfold push?
  split
  · next hroom => simp [hroom, eq_comm]
  · next hfull => simp [hfull]

theorem push?_eq_none_iff {q : BoundedQueue α capacity} {a : α} :
    q.push? a = none ↔ q.toList.length = capacity := by
  have h := q.length_le
  unfold push?
  split <;> simp only [reduceCtorEq, true_iff, false_iff] <;> omega

theorem pop?_eq_some_iff {q r : BoundedQueue α capacity} {a : α} :
    q.pop? = some (a, r) ↔ q.toList = a :: r.toList := by
  obtain ⟨items, h⟩ := q
  cases r
  cases items <;> simp [pop?]

theorem pop?_eq_none_iff {q : BoundedQueue α capacity} : q.pop? = none ↔ q.toList = [] := by
  obtain ⟨items, h⟩ := q
  cases items <;> simp [pop?]

end BoundedQueue

end FirmwareUpdate
