import Mathlib.Algebra.BigOperators.Group.List.Basic
import Mathlib.Algebra.Order.Monoid.Canonical.Defs
import Mathlib.Data.List.AList

/-!
# Totals over dictionaries

Each entry of a dictionary contributes to a total, in any commutative monoid: numbers, or bags. The
total changes by the entry that is put in or taken out (`total_insert`, `total_erase`).
-/

namespace Lib

set_option linter.unusedSectionVars false

variable {α β M : Type*} [DecidableEq α] [AddCommMonoid M] {f : α → β → M}
  {s : AList fun _ : α => β} {a : α} {b : β}

/-- The sum of what the entries contribute. -/
def total (f : α → β → M) (s : AList fun _ : α => β) : M := (s.entries.map fun e => f e.1 e.2).sum

/-- What the entry of a key contributes. -/
def part (f : α → β → M) (s : AList fun _ : α => β) (a : α) : M := ((s.lookup a).map (f a)).getD 0

theorem part_of_lookup (h : s.lookup a = some b) : part f s a = f a b := by simp [part, h]

theorem part_of_notMem (h : a ∉ s) : part f s a = 0 := by simp [part, AList.lookup_eq_none.2 h]

@[simp] theorem total_empty : total f ∅ = 0 := rfl

theorem total_eq_of_erase : total f (s.erase a)
    = ((List.kerase a s.entries).map fun e => f e.1 e.2).sum := rfl

theorem total_erase : total f (s.erase a) + part f s a = total f s := by
  cases h : s.lookup a with
  | none =>
    have hmem : a ∉ s := AList.lookup_eq_none.1 h
    rw [part_of_notMem hmem, add_zero, total_eq_of_erase, List.kerase_of_notMem_keys hmem, total]
  | some b =>
    have hmem : a ∈ s.entries.keys := AList.lookup_isSome.1 (by rw [h]; rfl)
    obtain ⟨b', l₁, l₂, -, hl, hk⟩ := List.exists_of_kerase hmem
    have hb : b' ∈ s.lookup a := AList.mem_lookup_iff.2 (by rw [hl]; simp)
    rw [h, Option.mem_some_iff] at hb
    subst hb
    rw [part_of_lookup h, total_eq_of_erase, hk, total, hl]
    simp only [List.map_append, List.map_cons, List.sum_append, List.sum_cons]
    rw [add_assoc, add_comm _ (f a b)]

theorem total_insert : total f (s.insert a b) + part f s a = total f s + f a b := by
  have hins : total f (s.insert a b) = f a b + total f (s.erase a) := by
    rw [total, AList.entries_insert, List.map_cons, List.sum_cons]
    rfl
  rw [hins, add_assoc, total_erase, add_comm]

/-- Only what the entries contribute matters. -/
theorem total_congr {g : α → β → M} (h : ∀ a b, s.lookup a = some b → f a b = g a b) :
    total f s = total g s := by
  unfold total
  congr 1
  refine List.map_congr_left fun e he => h e.1 e.2 ?_
  exact AList.mem_lookup_iff.2 he

theorem part_le_total [PartialOrder M] [CanonicallyOrderedAdd M] : part f s a ≤ total f s := by
  rw [← total_erase (a := a)]
  exact le_add_self

end Lib
