import Mathlib.Data.List.Sort
import Mathlib.Order.Basic

/-!
# Priority queues

A queue kept in the order of a key, smallest first, so the invariant is part of the type. Getting
an element and putting it straight back changes nothing (`put_of_get?`), which is how a queue
without a peek is looked at.
-/

namespace Lib

variable {α κ : Type*} [LinearOrder κ]

/-- A queue of elements in the order of `key`. -/
@[ext]
structure PriorityQueue (key : α → κ) where
  items : List α
  sorted : items.Pairwise (key · ≤ key ·)

namespace PriorityQueue

variable {key : α → κ}

instance [DecidableEq α] : DecidableEq (PriorityQueue key) := fun q q' =>
  decidable_of_iff (q.items = q'.items) PriorityQueue.ext_iff.symm

/-- The empty queue. -/
def empty : PriorityQueue key := ⟨[], .nil⟩

/-- The queue with `a` added in its place, before the elements whose key equals its own. -/
def put (q : PriorityQueue key) (a : α) : PriorityQueue key where
  items := q.items.orderedInsert (key · ≤ key ·) a
  sorted := by
    have : Std.Total (key · ≤ key · : α → α → Prop) := ⟨fun _ _ => le_total _ _⟩
    have : IsTrans α (key · ≤ key ·) := ⟨fun _ _ _ => le_trans⟩
    exact List.Pairwise.orderedInsert a _ q.sorted

/-- The first element and the queue without it. -/
def get? (q : PriorityQueue key) : Option (α × PriorityQueue key) :=
  match q with
  | ⟨[], _⟩ => none
  | ⟨a :: l, h⟩ => some (a, ⟨l, (List.pairwise_cons.1 h).2⟩)

@[simp] theorem empty_items : (empty : PriorityQueue key).items = [] := rfl

@[simp] theorem put_items (q : PriorityQueue key) (a : α) :
    (q.put a).items = q.items.orderedInsert (key · ≤ key ·) a := rfl

@[simp] theorem mem_put {q : PriorityQueue key} {a b : α} :
    b ∈ (q.put a).items ↔ b = a ∨ b ∈ q.items := List.mem_orderedInsert _

@[simp] theorem length_put (q : PriorityQueue key) (a : α) :
    (q.put a).items.length = q.items.length + 1 := List.orderedInsert_length _ _ _

theorem put_ne_nil (q : PriorityQueue key) (a : α) : (q.put a).items ≠ [] :=
  List.ne_nil_of_length_eq_add_one (q.length_put a)

@[simp] theorem get?_eq_none {q : PriorityQueue key} : q.get? = none ↔ q.items = [] := by
  rcases q with ⟨_ | ⟨a, l⟩, h⟩ <;> simp [get?]

theorem get?_eq_some {q q' : PriorityQueue key} {a : α} :
    q.get? = some (a, q') ↔ q.items = a :: q'.items := by
  rcases q with ⟨_ | ⟨b, l⟩, h⟩
  · simp [get?]
  · simp [get?, PriorityQueue.ext_iff]

/-- Putting back the element just taken restores the queue. -/
theorem put_of_get? {q q' : PriorityQueue key} {a : α} (h : q.get? = some (a, q')) :
    q'.put a = q := by
  rw [get?_eq_some] at h
  have hs := q.sorted
  rw [h] at hs
  ext1
  rw [put_items, h]
  rcases hq : q'.items with _ | ⟨b, l⟩
  · rfl
  · rw [hq] at hs
    exact List.orderedInsert_cons_of_le (key · ≤ key ·) l
      ((List.pairwise_cons.1 hs).1 b (List.mem_cons_self ..))

end PriorityQueue

end Lib
