import Mathlib.Tactic.Common

/-!
# Computations that can fail, side by side

How a computation ends (`Ends`): with a value that has a property, or with an exception that is
allowed. Two computations are in lockstep if both return related values or both raise the same
exception; then what is known of the end of the one is known of the other's (`Lockstep.ends`).
-/

namespace Lib

universe u v

variable {ε : Type v} {α α' β β' : Type u} {allowed allowed' : ε → Prop} {Q Q' : α → Prop} {R : α → β → Prop}
  {R' : α' → β' → Prop} {x : Except ε α} {y : Except ε β}

/-- The computation returns a value with `Q`, or it raises an allowed exception. -/
def Ends (allowed : ε → Prop) (Q : α → Prop) : Except ε α → Prop
  | .ok a => Q a
  | .error e => allowed e

theorem Ends.mono (h : Ends allowed Q x) (he : ∀ e, allowed e → allowed' e) (hQ : ∀ a, Q a → Q' a) :
    Ends allowed' Q' x := by
  rcases x with e | a
  · exact he e h
  · exact hQ a h

theorem Ends.and (h : Ends allowed Q x) (h' : Ends allowed' Q' x) :
    Ends (fun e => allowed e ∧ allowed' e) (fun a => Q a ∧ Q' a) x := by
  rcases x with e | a
  · exact ⟨h, h'⟩
  · exact ⟨h, h'⟩

theorem Ends.bind {P : β → Prop} {k : α → Except ε β} (h : Ends allowed Q x)
    (hk : ∀ a, Q a → Ends allowed P (k a)) : Ends allowed P (x >>= k) := by
  rcases x with e | a
  · exact h
  · exact hk a h

theorem ok_bind (a : α) (k : α → Except ε β) : (Except.ok a >>= k) = k a := rfl

/-- Both return, related values, or both raise the same exception. -/
inductive Lockstep (R : α → β → Prop) : Except ε α → Except ε β → Prop
  | ok {a : α} {b : β} (h : R a b) : Lockstep R (.ok a) (.ok b)
  | error (e : ε) : Lockstep R (.error e) (.error e)

theorem Lockstep.eq {x y : Except ε α} (h : Lockstep (· = ·) x y) : x = y := by
  cases h with
  | ok h => rw [h]
  | error e => rfl

theorem Lockstep.mono {R₁ : α → β → Prop} (h : Lockstep R x y) (hR : ∀ a b, R a b → R₁ a b) :
    Lockstep R₁ x y := by
  cases h with
  | ok h => exact .ok (hR _ _ h)
  | error e => exact .error e

theorem Lockstep.bind {k : α → Except ε α'} {k' : β → Except ε β'} (h : Lockstep R x y)
    (hk : ∀ a b, R a b → Lockstep R' (k a) (k' b)) : Lockstep R' (x >>= k) (y >>= k') := by
  cases h with
  | ok h => exact hk _ _ h
  | error e => exact .error e

/-- A step more on one side. -/
theorem Lockstep.bind_left {R₁ : α' → β → Prop} {k : α → Except ε α'} (h : Lockstep R x y)
    (hk : ∀ a b, R a b → Lockstep R₁ (k a) (.ok b)) : Lockstep R₁ (x >>= k) y := by
  cases h with
  | ok h => exact hk _ _ h
  | error e => exact .error e

/-- The same computation first. -/
theorem Lockstep.bind_same {z : Except ε α} {k : α → Except ε α'} {k' : α → Except ε β'}
    (hk : ∀ a, z = .ok a → Lockstep R' (k a) (k' a)) : Lockstep R' (z >>= k) (z >>= k') := by
  rcases z with e | a
  · exact .error e
  · exact hk a rfl

theorem Lockstep.ends {P : β → Prop} (h : Lockstep R x y) (hy : Ends allowed P y) :
    Ends allowed (fun a => ∃ b, R a b ∧ P b) x := by
  cases h with
  | ok h => exact ⟨_, h, hy⟩
  | error e => exact hy

end Lib
