import Mathlib.Logic.Function.Basic
import Mathlib.Order.Nat
import Mathlib.Tactic.Common

/-!
# Constraints on new variables

Variables are made one after the other, and constraints on assignments tell what values they have. An
`Extension` describes what constraints come to: which assignments can be changed, at new variables only,
to meet them, and what a value made from the new variables means in terms of the old ones. Extensions
follow one another (`Extension.pair`), and one new variable extends further (`Extension.define`).
-/

namespace Lib

variable {κ β γ δ ε : Type*} {fresh : ℕ → κ} {n n' n'' : ℕ} {τ τ' τ'' : κ → β}

/-- The assignments differ in variables from number `n` on only. -/
def AgreeBelow (fresh : ℕ → κ) (n : ℕ) (τ τ' : κ → β) : Prop :=
  ∀ k, (∀ i, n ≤ i → k ≠ fresh i) → τ k = τ' k

theorem AgreeBelow.refl (fresh : ℕ → κ) (n : ℕ) (τ : κ → β) : AgreeBelow fresh n τ τ := fun _ _ => rfl

theorem AgreeBelow.symm (h : AgreeBelow fresh n τ τ') : AgreeBelow fresh n τ' τ := fun k hk => (h k hk).symm

theorem AgreeBelow.trans (h : AgreeBelow fresh n τ τ') (h' : AgreeBelow fresh n τ' τ'') :
    AgreeBelow fresh n τ τ'' := fun k hk => (h k hk).trans (h' k hk)

theorem AgreeBelow.mono (h : AgreeBelow fresh n' τ τ') (hn : n ≤ n') : AgreeBelow fresh n τ τ' :=
  fun k hk => h k fun i hi => hk i (hn.trans hi)

theorem AgreeBelow.update [DecidableEq κ] (τ : κ → β) (b : β) :
    AgreeBelow fresh n τ (Function.update τ (fresh n) b) :=
  fun _ hk => (Function.update_of_ne (hk n le_rfl) ..).symm

/-- What does not depend on variables from number `n` on. -/
def StableBelow (fresh : ℕ → κ) (n : ℕ) (f : (κ → β) → γ) : Prop :=
  ∀ τ τ', AgreeBelow fresh n τ τ' → f τ = f τ'

theorem StableBelow.mono {f : (κ → β) → γ} (h : StableBelow fresh n f) (hn : n ≤ n') :
    StableBelow fresh n' f := fun _ _ hτ => h _ _ (hτ.mono hn)

theorem StableBelow.map {f : (κ → β) → γ} (h : StableBelow fresh n f) (g : γ → δ) :
    StableBelow fresh n fun τ => g (f τ) := fun _ _ hτ => congrArg g (h _ _ hτ)

theorem StableBelow.map₂ {f : (κ → β) → γ} {f' : (κ → β) → δ} (h : StableBelow fresh n f)
    (h' : StableBelow fresh n f') (g : γ → δ → ε) : StableBelow fresh n fun τ => g (f τ) (f' τ) :=
  fun _ _ hτ => congrArg₂ g (h _ _ hτ) (h' _ _ hτ)

/-- Constraints `C` on the variables from `n` to `n'`. Assignments of the others can be extended to meet
them exactly where `F` holds, and then what is made as `v` means `w`. -/
structure Extension (fresh : ℕ → κ) (n n' : ℕ) (C F : (κ → β) → Prop) (v w : (κ → β) → γ) : Prop where
  le : n ≤ n'
  constraints : StableBelow fresh n' C
  feasible : StableBelow fresh n F
  value : StableBelow fresh n' v
  meaning : StableBelow fresh n w
  sound : ∀ τ, C τ → F τ ∧ v τ = w τ
  complete : ∀ τ, F τ → ∃ τ', AgreeBelow fresh n τ τ' ∧ C τ'

namespace Extension

variable {C C' F F' D : (κ → β) → Prop} {v w : (κ → β) → γ} {v' w' : (κ → β) → δ}

/-- What there is needs no constraints. -/
theorem pure (h : StableBelow fresh n v) : Extension fresh n n (fun _ => True) (fun _ => True) v v where
  le := le_rfl
  constraints _ _ _ := rfl
  feasible _ _ _ := rfl
  value := h
  meaning := h
  sound _ _ := ⟨trivial, rfl⟩
  complete τ _ := ⟨τ, AgreeBelow.refl fresh n τ, trivial⟩

theorem congr {C' F' : (κ → β) → Prop} (h : Extension fresh n n' C F v w) (hC : ∀ τ, C' τ ↔ C τ)
    (hF : ∀ τ, F' τ ↔ F τ) : Extension fresh n n' C' F' v w := by
  obtain rfl : C' = C := funext fun τ => propext (hC τ)
  obtain rfl : F' = F := funext fun τ => propext (hF τ)
  exact h

theorem map (h : Extension fresh n n' C F v w) (g : γ → δ) :
    Extension fresh n n' C F (fun τ => g (v τ)) (fun τ => g (w τ)) where
  le := h.le
  constraints := h.constraints
  feasible := h.feasible
  value := h.value.map g
  meaning := h.meaning.map g
  sound τ hτ := ⟨(h.sound τ hτ).1, congrArg g (h.sound τ hτ).2⟩
  complete := h.complete

/-- An assignment that meets the constraints, where the old variables allow it. -/
theorem exists_of_feasible (h : Extension fresh n n' C F v w) (hF : F τ) :
    ∃ τ', AgreeBelow fresh n τ τ' ∧ C τ' ∧ v τ' = w τ := by
  obtain ⟨τ', hτ, hC⟩ := h.complete τ hF
  exact ⟨τ', hτ, hC, ((h.sound τ' hC).2).trans (h.meaning τ τ' hτ).symm⟩

/-- One extension after another, whose meaning does not depend on the first. -/
theorem pair (h : Extension fresh n n' C F v w) (h' : Extension fresh n' n'' C' F' v' w')
    (hF : StableBelow fresh n F') (hw : StableBelow fresh n w') :
    Extension fresh n n'' (fun τ => C τ ∧ C' τ) (fun τ => F τ ∧ F' τ) (fun τ => (v τ, v' τ))
      (fun τ => (w τ, w' τ)) where
  le := h.le.trans h'.le
  constraints := (h.constraints.mono h'.le).map₂ h'.constraints And
  feasible := h.feasible.map₂ hF And
  value := (h.value.mono h'.le).map₂ h'.value Prod.mk
  meaning := h.meaning.map₂ hw Prod.mk
  sound τ hτ := ⟨⟨(h.sound τ hτ.1).1, (h'.sound τ hτ.2).1⟩,
    congrArg₂ Prod.mk (h.sound τ hτ.1).2 (h'.sound τ hτ.2).2⟩
  complete τ hτ := by
    obtain ⟨τ₁, h₁, hC⟩ := h.complete τ hτ.1
    obtain ⟨τ₂, h₂, hC'⟩ := h'.complete τ₁ (hF τ τ₁ h₁ ▸ hτ.2)
    exact ⟨τ₂, h₁.trans (h₂.mono h.le), (h.constraints τ₁ τ₂ h₂) ▸ hC, hC'⟩

/-- One more variable, whose constraint says that it has a value made of the others, and that these
allow it. -/
theorem define (h : Extension fresh n n' C F v w) (hfresh : Function.Injective fresh) {G : γ → Prop}
    {f : γ → β} (hD : ∀ τ, D τ ↔ G (v τ) ∧ τ (fresh n') = f (v τ)) :
    Extension fresh n (n' + 1) (fun τ => D τ ∧ C τ) (fun τ => F τ ∧ G (w τ)) (fun τ => τ (fresh n'))
      (fun τ => f (w τ)) := by
  classical
  have hv := h.value.mono (Nat.le_succ n')
  have hvar : StableBelow fresh (n' + 1) fun τ : κ → β => τ (fresh n') := fun τ τ' hτ =>
    hτ (fresh n') fun i hi heq => absurd (hfresh heq) (by omega)
  refine ⟨h.le.trans (Nat.le_succ n'), ?_, h.feasible.map₂ (h.meaning.map G) And, hvar, h.meaning.map f,
    fun τ hτ => ?_, fun τ hτ => ?_⟩
  · intro τ τ' hτ
    dsimp only
    have hnew : τ (fresh n') = τ' (fresh n') := hvar τ τ' hτ
    rw [hD, hD, hv τ τ' hτ, hnew, h.constraints.mono (Nat.le_succ n') τ τ' hτ]
  · obtain ⟨hF, hvw⟩ := h.sound τ hτ.2
    obtain ⟨hG, hτ⟩ := (hD τ).1 hτ.1
    rw [hvw] at hG hτ
    exact ⟨⟨hF, hG⟩, hτ⟩
  · obtain ⟨τ₁, h₁, hC, hvw⟩ := h.exists_of_feasible hτ.1
    have h₂ : AgreeBelow fresh n' τ₁ (Function.update τ₁ (fresh n') (f (w τ))) := .update τ₁ _
    refine ⟨_, h₁.trans (h₂.mono h.le), (hD _).2 ?_, h.constraints _ _ h₂ ▸ hC⟩
    rw [← h.value _ _ h₂, hvw, Function.update_self]
    exact ⟨hτ.2, rfl⟩

end Extension

end Lib
