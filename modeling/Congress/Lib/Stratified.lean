import Mathlib.Data.Set.Lattice

/-!
# Stratified models

Ground clauses with negation, over any type of atoms. A stratification puts every atom in a stratum,
the atoms that a clause negates below its head; the model is built stratum by stratum, a negated
atom being true if it was not derived in the strata below (`stratifiedModel`). In it an atom is true
exactly if a clause for it has a true body (`mem_stratifiedModel_iff`); where no atom depends on
itself, no other set of atoms has that property (`eq_of_supported`).
-/

namespace Lib

/-- A clause without variables. -/
structure GroundClause (A : Type*) where
  head : A
  pos : Set A
  neg : Set A

variable {A : Type*} {P : Set (GroundClause A)} {σ : A → ℕ} {a : A} {n m : ℕ}

/-- The body of a clause is true in a set of atoms. -/
structure GroundClause.Fires (c : GroundClause A) (M : Set A) : Prop where
  pos : ∀ b ∈ c.pos, b ∈ M
  neg : ∀ b ∈ c.neg, b ∉ M

structure Stratifies (σ : A → ℕ) (P : Set (GroundClause A)) : Prop where
  pos : ∀ c ∈ P, ∀ b ∈ c.pos, σ b ≤ σ c.head
  neg : ∀ c ∈ P, ∀ b ∈ c.neg, σ b < σ c.head

/-- What the clauses of stratum `n` derive, given the strata below. -/
inductive Derives (P : Set (GroundClause A)) (σ : A → ℕ) (n : ℕ) (below : Set A) : A → Prop
  | base {a : A} (ha : a ∈ below) : Derives P σ n below a
  | clause (c : GroundClause A) (hc : c ∈ P) (hn : σ c.head = n)
      (pos : ∀ b ∈ c.pos, Derives P σ n below b) (neg : ∀ b ∈ c.neg, b ∉ below) :
      Derives P σ n below c.head

/-- The true atoms of the strata below `n`. -/
def strataBelow (P : Set (GroundClause A)) (σ : A → ℕ) : ℕ → Set A
  | 0 => ∅
  | n + 1 => {a | Derives P σ n (strataBelow P σ n) a}

def stratifiedModel (P : Set (GroundClause A)) (σ : A → ℕ) : Set A := ⋃ n, strataBelow P σ n

theorem strataBelow_mono (h : n ≤ m) : strataBelow P σ n ⊆ strataBelow P σ m := by
  induction h with
  | refl => exact fun _ h => h
  | step _ ih => exact fun a ha => .base (ih ha)

theorem lt_of_mem_strataBelow : ∀ {n : ℕ} {a : A}, a ∈ strataBelow P σ n → σ a < n
  | _ + 1, _, .base ha => (lt_of_mem_strataBelow ha).trans (Nat.lt_succ_self _)
  | _ + 1, _, .clause _ _ hn _ _ => hn ▸ Nat.lt_succ_self _

/-- An atom is derived in its own stratum or not at all. -/
theorem mem_strataBelow_succ : ∀ {n : ℕ} {a : A}, a ∈ strataBelow P σ n →
    a ∈ strataBelow P σ (σ a + 1)
  | _ + 1, _, .base ha => mem_strataBelow_succ ha
  | n + 1, _, .clause c hc hn pos neg => by
    subst hn
    exact .clause c hc rfl pos neg

theorem mem_stratifiedModel : a ∈ stratifiedModel P σ ↔ a ∈ strataBelow P σ (σ a + 1) := by
  refine ⟨fun h => ?_, fun h => Set.mem_iUnion.2 ⟨_, h⟩⟩
  obtain ⟨n, h⟩ := Set.mem_iUnion.1 h
  exact mem_strataBelow_succ h

theorem mem_strataBelow_iff : a ∈ strataBelow P σ n ↔ a ∈ stratifiedModel P σ ∧ σ a < n :=
  ⟨fun h => ⟨Set.mem_iUnion.2 ⟨n, h⟩, lt_of_mem_strataBelow h⟩,
    fun h => strataBelow_mono h.2 (mem_stratifiedModel.1 h.1)⟩

/-- An atom is true exactly if some clause for it has a true body. -/
theorem mem_stratifiedModel_iff (hσ : Stratifies σ P) :
    a ∈ stratifiedModel P σ ↔ ∃ c ∈ P, c.head = a ∧ c.Fires (stratifiedModel P σ) := by
  constructor
  · intro h
    obtain ⟨n, h⟩ := Set.mem_iUnion.1 h
    induction n generalizing a with
    | zero => exact h.elim
    | succ n ih =>
      cases h with
      | base ha => exact ih (Set.mem_iUnion.2 ⟨n, ha⟩) ha
      | clause c hc hn pos neg =>
        refine ⟨c, hc, rfl, fun b hb => Set.mem_iUnion.2 ⟨n + 1, pos b hb⟩, fun b hb hm => ?_⟩
        exact neg b hb (mem_strataBelow_iff.2 ⟨hm, hn ▸ hσ.neg c hc b hb⟩)
  · rintro ⟨c, hc, rfl, hp, hn⟩
    refine mem_stratifiedModel.2 (.clause c hc rfl (fun b hb => ?_) fun b hb hm => ?_)
    · exact mem_strataBelow_iff.2 ⟨hp b hb, Nat.lt_succ_of_le (hσ.pos c hc b hb)⟩
    · exact hn b hb (mem_strataBelow_iff.1 hm).1

/-- Where bodies rank below their heads, only one set of atoms is supported by the clauses. -/
theorem eq_of_supported {rank : A → ℕ} {M M' : Set A}
    (hr : ∀ c ∈ P, ∀ b ∈ c.pos ∪ c.neg, rank b < rank c.head)
    (hM : ∀ a, a ∈ M ↔ ∃ c ∈ P, c.head = a ∧ c.Fires M)
    (hM' : ∀ a, a ∈ M' ↔ ∃ c ∈ P, c.head = a ∧ c.Fires M') : M = M' := by
  have key : ∀ n a, rank a < n → (a ∈ M ↔ a ∈ M') := by
    intro n
    induction n with
    | zero => exact fun a h => absurd h (Nat.not_lt_zero _)
    | succ n ih =>
      intro a ha
      rw [hM, hM']
      refine exists_congr fun c => and_congr_right fun hc => and_congr_right fun h => ?_
      have hb : ∀ b ∈ c.pos ∪ c.neg, (b ∈ M ↔ b ∈ M') := fun b hb =>
        ih b ((hr c hc b hb).trans_le (Nat.lt_succ_iff.1 (h ▸ ha)))
      exact ⟨fun ⟨hp, hn⟩ => ⟨fun b h => (hb b (.inl h)).1 (hp b h),
          fun b h h' => hn b h ((hb b (.inr h)).2 h')⟩,
        fun ⟨hp, hn⟩ => ⟨fun b h => (hb b (.inl h)).2 (hp b h),
          fun b h h' => hn b h ((hb b (.inr h)).1 h')⟩⟩
  exact Set.ext fun a => key _ a (Nat.lt_succ_self _)

/-- A ranking of the atoms is a stratification. -/
theorem Stratifies.of_rank {rank : A → ℕ}
    (hr : ∀ c ∈ P, ∀ b ∈ c.pos ∪ c.neg, rank b < rank c.head) : Stratifies rank P :=
  ⟨fun c hc b hb => (hr c hc b (.inl hb)).le, fun c hc b hb => hr c hc b (.inr hb)⟩

end Lib
