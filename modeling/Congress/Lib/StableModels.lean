import Congress.Lib.Stratified

/-!
# Stable models

A stable model of some clauses is the least set of atoms closed under those of them whose negated atoms are not
in it (`Stable`). Where a stratification exists the stratified model is one (`stable_stratifiedModel`), and there
is no other (`Stable.eq`); so it does not depend on the stratification.
-/

namespace Lib

variable {A : Type*} {P : Set (GroundClause A)} {M M' : Set A} {σ σ' : A → ℕ} {n : ℕ}

structure Stable (P : Set (GroundClause A)) (M : Set A) : Prop where
  closed : ∀ c ∈ P, c.Fires M → c.head ∈ M
  least : ∀ Q : A → Prop, (∀ c ∈ P, c.Fires M → (∀ b ∈ c.pos, Q b) → Q c.head) → ∀ a ∈ M, Q a

theorem stable_stratifiedModel (hσ : Stratifies σ P) : Stable P (stratifiedModel P σ) := by
  refine ⟨fun c hc h => (mem_stratifiedModel_iff hσ).2 ⟨c, hc, rfl, h⟩, fun Q hQ => ?_⟩
  have hstrata : ∀ n, ∀ a ∈ strataBelow P σ n, Q a := by
    intro n
    induction n with
    | zero => exact fun a ha => ha.elim
    | succ n ih =>
      intro a ha
      change Derives P σ n (strataBelow P σ n) a at ha
      induction ha with
      | base ha => exact ih _ ha
      | clause c hc hn pos neg hpos =>
        refine hQ c hc ⟨fun b hb => Set.mem_iUnion.2 ⟨n + 1, pos b hb⟩, fun b hb hm => ?_⟩ hpos
        exact neg b hb (mem_strataBelow_iff.2 ⟨hm, hn ▸ hσ.neg c hc b hb⟩)
  exact fun a ha => (Set.mem_iUnion.1 ha).elim fun n ha => hstrata n a ha

/-- Where models agree below a stratum, the least of them has no more in it than the others. -/
theorem Stable.subset_at (hM : Stable P M) (hM' : Stable P M') (hσ : Stratifies σ P)
    (hbelow : ∀ a, σ a < n → (a ∈ M ↔ a ∈ M')) : ∀ a ∈ M, σ a ≤ n → a ∈ M' := by
  refine hM.least _ fun c hc hfires hpos hn => hM'.closed c hc ⟨fun b hb => ?_, fun b hb hb' => ?_⟩
  · exact hpos b hb ((hσ.pos c hc b hb).trans hn)
  · exact hfires.neg b hb ((hbelow b ((hσ.neg c hc b hb).trans_le hn)).2 hb')

theorem Stable.eq (hM : Stable P M) (hM' : Stable P M') (hσ : Stratifies σ P) : M = M' := by
  have hstrata : ∀ n a, σ a = n → (a ∈ M ↔ a ∈ M') := by
    intro n
    induction n using Nat.strong_induction_on with
    | _ n ih =>
      have hbelow : ∀ a, σ a < n → (a ∈ M ↔ a ∈ M') := fun a ha => ih _ ha a rfl
      exact fun a ha => ⟨fun h => hM.subset_at hM' hσ hbelow a h ha.le,
        fun h => hM'.subset_at hM hσ (fun a ha => (hbelow a ha).symm) a h ha.le⟩
  exact Set.ext fun a => hstrata _ a rfl

end Lib
