import Mathlib.Data.Finset.Card
import Mathlib.Logic.Relation
import Mathlib.Tactic.Common

/-!
# Strata

A relation, some pairs of which are strict. Strata do not rise along the relation and fall along its strict
pairs. There are some exactly if no cycle has a strict pair, and then not more are needed than there are
elements (`exists_strata`).
-/

namespace Lib

open Relation

variable {α : Type*} {r q : α → α → Prop} {s : α → ℕ} {a b : α}

/-- Strata for a relation and its strict pairs. -/
structure Strata (r q : α → α → Prop) (s : α → ℕ) : Prop where
  weak : ∀ a b, r a b → s b ≤ s a
  strict : ∀ a b, q a b → s b < s a

theorem Strata.le_of_reflTransGen (h : Strata r q s) (hab : ReflTransGen r a b) : s b ≤ s a := by
  induction hab with
  | refl => exact le_rfl
  | tail _ hbc ih => exact (h.weak _ _ hbc).trans ih

/-- There are no strata if a cycle has a strict pair. -/
theorem Strata.not_cycle (h : Strata r q s) (hq : q a b) : ¬ReflTransGen r b a := fun hba =>
  (h.strict a b hq).not_ge (h.le_of_reflTransGen hba)

open scoped Classical in
/-- Strata for elements of a finite set, if no cycle has a strict pair: count where strict pairs lead to. -/
theorem exists_strata (nodes : Finset α) (hqr : ∀ a b, q a b → r a b) (hnodes : ∀ a b, q a b → b ∈ nodes)
    (hcycle : ∀ a b, q a b → ¬ReflTransGen r b a) :
    ∃ s, Strata r q s ∧ (∀ a, 1 ≤ s a) ∧ ∀ a ∈ nodes, s a ≤ nodes.card := by
  have hsub : ∀ {a b}, ReflTransGen r a b → nodes.filter (fun c => ∃ x, ReflTransGen r b x ∧ q x c)
      ⊆ nodes.filter fun c => ∃ x, ReflTransGen r a x ∧ q x c := fun hab c hc => by
    obtain ⟨hn, x, hx, hq⟩ := Finset.mem_filter.1 hc
    exact Finset.mem_filter.2 ⟨hn, x, hab.trans hx, hq⟩
  have hself : ∀ a, a ∉ nodes.filter fun c => ∃ x, ReflTransGen r a x ∧ q x c := fun a ha => by
    obtain ⟨-, x, hx, hq⟩ := Finset.mem_filter.1 ha
    exact hcycle x a hq hx
  refine ⟨fun a => 1 + (nodes.filter fun c => ∃ x, ReflTransGen r a x ∧ q x c).card, ⟨fun a b hab => ?_,
    fun a b hab => ?_⟩, fun a => Nat.le_add_right _ _, fun a ha => ?_⟩
  · exact Nat.add_le_add_left (Finset.card_le_card (hsub (.single hab))) 1
  · have hb : b ∈ nodes.filter fun c => ∃ x, ReflTransGen r a x ∧ q x c :=
      Finset.mem_filter.2 ⟨hnodes a b hab, a, .refl, hab⟩
    refine Nat.add_lt_add_left (Finset.card_lt_card (Finset.ssubset_iff_subset_ne.2
      ⟨hsub (.single (hqr a b hab)), fun heq => hself b (heq.symm ▸ hb)⟩)) 1
  · have hlt := Finset.card_lt_card (Finset.ssubset_iff_subset_ne.2
      ⟨Finset.filter_subset _ _, fun heq => hself a (heq.symm ▸ ha)⟩)
    exact (Nat.add_comm 1 _).trans_le hlt

end Lib
