import Mathlib.Data.Multiset.DershowitzManna
import Mathlib.Logic.Relation
import Mathlib.Tactic.Common

/-!
# Worklists

A list of work from the front of which an item is taken, and at the end of which the items are put that it
brings about. If these are less than the item, the multiset of what is there goes down (`wellFounded_advances`),
so the work ends, however the items are ordered (`exists_done`).
-/

namespace Lib

open Relation

variable {σ E α : Type*} [Preorder α] {work : σ → List E} {size : E → α} {s s' : σ}

/-- The first item is taken, and smaller ones are put at the end. -/
def Advances (work : σ → List E) (size : E → α) (s s' : σ) : Prop :=
  ∃ e q new, work s = e :: q ∧ work s' = q ++ new ∧ ∀ n ∈ new, size n < size e

/-- How much work there is. -/
def amount (work : σ → List E) (size : E → α) (s : σ) : Multiset α := ((work s).map size : List α)

theorem Advances.amount_lt (h : Advances work size s s') :
    (amount work size s').IsDershowitzMannaLT (amount work size s) := by
  obtain ⟨e, q, new, hs, hs', hnew⟩ := h
  refine ⟨(q.map size : List α), (new.map size : List α), {size e}, by simp, ?_, ?_, ?_⟩
  · rw [amount, hs', List.map_append, Multiset.coe_add]
  · rw [amount, hs, List.map_cons, add_comm, Multiset.singleton_add, Multiset.cons_coe]
  · intro y hy
    obtain ⟨n, hn, rfl⟩ := List.mem_map.1 (Multiset.mem_coe.1 hy)
    exact ⟨_, Multiset.mem_singleton_self _, hnew n hn⟩

variable [WellFoundedLT α]

theorem wellFounded_advances (work : σ → List E) (size : E → α) :
    WellFounded fun s' s => Advances work size s s' :=
  Subrelation.wf (fun h => Advances.amount_lt h)
    (InvImage.wf (amount work size) Multiset.wellFounded_isDershowitzMannaLT)

/-- Work that advances while an invariant holds comes to an end, where it still does. -/
theorem exists_done {P : σ → Prop} {step : σ → σ → Prop}
    (hstep : ∀ s, P s → work s ≠ [] → ∃ s', step s s' ∧ P s' ∧ Advances work size s s') (h : P s) :
    ∃ s', ReflTransGen step s s' ∧ P s' ∧ work s' = [] := by
  induction s using (wellFounded_advances work size).induction with
  | _ s ih =>
    by_cases hnil : work s = []
    · exact ⟨s, .refl, h, hnil⟩
    · obtain ⟨s₁, hs₁, h₁, hadv⟩ := hstep s h hnil
      obtain ⟨s', hs', h', hdone⟩ := ih s₁ hadv h₁
      exact ⟨s', .head hs₁ hs', h', hdone⟩

end Lib
