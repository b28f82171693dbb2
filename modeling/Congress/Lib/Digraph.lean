import Mathlib.Data.Set.Card
import Mathlib.Logic.Relation
import Mathlib.Tactic.Common

/-!
# Directed cycles

A relation is `Cyclic` if some element is related to itself by its transitive closure. Leaving out
pairs that lie on no cycle does not change that (`cyclic_iff_of_off_cycle`). Where there is no cycle,
the elements of a finite relation can be ranked (`exists_rank`).
-/

namespace Lib

open Relation

variable {α : Type*} {r r' : α → α → Prop} {a b : α}

/-- There is a directed cycle. -/
def Cyclic (r : α → α → Prop) : Prop := ∃ a, TransGen r a a

theorem Cyclic.mono (h : ∀ a b, r a b → r' a b) : Cyclic r → Cyclic r' :=
  fun ⟨a, ha⟩ => ⟨a, TransGen.mono h a a ha⟩

/-- Along a relation that lowers a rank there is no cycle. -/
theorem not_cyclic_of_rank (rank : α → ℕ) (h : ∀ a b, r a b → rank b < rank a) : ¬ Cyclic r := by
  rintro ⟨a, ha⟩
  have hlt : ∀ {b}, TransGen r a b → rank b < rank a := by
    intro b hab
    induction hab with
    | single hab => exact h _ _ hab
    | tail _ hbc ih => exact (h _ _ hbc).trans ih
  exact (hlt ha).false

/-- A set that is closed under the relation contains what can be reached from its elements. -/
theorem mem_of_reflTransGen {p : α → Prop} (hp : ∀ x y, p x → r x y → p y) (ha : p a)
    (h : ReflTransGen r a b) : p b := by
  induction h with
  | refl => exact ha
  | tail _ hbc ih => exact hp _ _ ih hbc

/-- Pairs whose first element lies on no cycle can be left out. -/
theorem cyclic_iff_of_off_cycle (hle : ∀ a b, r' a b → r a b)
    (h : ∀ a b, r a b → r' a b ∨ ¬ TransGen r a a) : Cyclic r ↔ Cyclic r' := by
  refine ⟨fun ⟨a, ha⟩ => ⟨a, ?_⟩, Cyclic.mono hle⟩
  have hr : ∀ {b}, TransGen r a b → ReflTransGen r b a → TransGen r' a b := by
    intro b hab
    induction hab with
    | single hab => exact fun hba => .single ((h _ _ hab).resolve_right fun hn => hn ha)
    | @tail b c hab hbc ih =>
      intro hca
      have hb : TransGen r b b := .trans_left (.head' hbc hca) hab.to_reflTransGen
      exact (ih (.head hbc hca)).tail ((h _ _ hbc).resolve_right fun hn => hn hb)
  exact hr ha .refl

/-- Without cycles, the number of elements that can be reached gets less along the relation. -/
theorem exists_rank (hf : {b | ∃ a, r a b}.Finite) (hc : ¬ Cyclic r) :
    ∃ rank : α → ℕ, ∀ a b, r a b → rank b < rank a := by
  have hreach : ∀ a, {b | TransGen r a b}.Finite := fun a => hf.subset fun b hb => by
    cases hb with
    | single h => exact ⟨_, h⟩
    | tail _ h => exact ⟨_, h⟩
  refine ⟨fun a => {b | TransGen r a b}.ncard, fun a b hab => ?_⟩
  refine Set.ncard_lt_ncard ⟨fun c hbc => .head hab hbc, fun hsub => hc ⟨b, ?_⟩⟩ (hreach a)
  exact hsub (.single hab)

end Lib
