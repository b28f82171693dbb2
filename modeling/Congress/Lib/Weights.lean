import Mathlib.Algebra.Order.BigOperators.Group.List
import Mathlib.Algebra.Order.Ring.Nat
import Mathlib.Tactic.GCongr
import Mathlib.Tactic.Linarith
import Congress.Lib.Digraph

/-!
# Weights

Finitely many rules that are not recursive together can be paid for: there are weights such that the
head of a rule weighs more than all that is in its body (`exists_weight_of_not_cyclic`).
-/

namespace Lib

variable {α : Type*} {rules : List (α × List α)}

/-- What is in the body of a rule is used for the head. -/
def Uses (rules : List (α × List α)) (a b : α) : Prop := ∃ r ∈ rules, r.1 = a ∧ b ∈ r.2

theorem finite_uses (rules : List (α × List α)) : {b | ∃ a, Uses rules a b}.Finite := by
  refine Set.Finite.subset (List.finite_toSet (rules.flatMap Prod.snd)) ?_
  rintro b ⟨a, r, hr, -, hb⟩
  exact List.mem_flatMap.2 ⟨r, hr, hb⟩

/-- Powers, whose base is more than twice the number of all that is in the bodies. -/
theorem exists_weight_of_not_cyclic (h : ¬ Cyclic (Uses rules)) : ∃ weight : α → ℕ,
    (∀ a, 0 < weight a) ∧ ∀ r ∈ rules, (r.2.map fun b => weight b + 1).sum + 1 ≤ weight r.1 := by
  obtain ⟨rank, hrank⟩ := exists_rank (finite_uses rules) h
  let n := (rules.map (·.2.length)).sum
  refine ⟨fun a => (2 * n + 2) ^ (rank a + 1), fun a => Nat.pow_pos (by omega), fun r hr => ?_⟩
  have hn : r.2.length ≤ n :=
    List.single_le_sum (fun _ _ => Nat.zero_le _) _ (List.mem_map.2 ⟨r, hr, rfl⟩)
  set k := (2 * n + 2) ^ rank r.1 with hk
  have hk1 : 1 ≤ k := Nat.one_le_pow _ _ (by omega)
  have hle : ∀ m ∈ r.2.map fun b => (2 * n + 2) ^ (rank b + 1) + 1, m ≤ k + 1 := by
    intro m hm
    obtain ⟨b, hb, rfl⟩ := List.mem_map.1 hm
    exact Nat.succ_le_succ (Nat.pow_le_pow_right (by omega) (hrank _ _ ⟨r, hr, rfl, hb⟩))
  have hsum := List.sum_le_card_nsmul _ _ hle
  rw [List.length_map, Nat.nsmul_eq_mul] at hsum
  calc _ ≤ r.2.length * (k + 1) + 1 := Nat.succ_le_succ hsum
    _ ≤ n * (k + 1) + 1 := by gcongr
    _ ≤ k * (2 * n + 2) := by nlinarith
    _ = _ := (pow_succ _ _).symm

end Lib
