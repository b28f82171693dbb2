import Mathlib.Data.List.Basic
import Mathlib.Logic.Function.Defs

/-!
# Numbers as texts

The decimal texts of two numbers are the same only if the numbers are. They have digits only, so a number can
be read off the end of a text, up to the last mark that is no digit (`append_cons_inj`).
-/

namespace Lib

theorem natToString_injective : Function.Injective (toString : Nat → String) := by
  intro m n h
  have := congrArg (fun s : String => Nat.ofDigitChars 10 s.toList 0) (show m.repr = n.repr from h)
  simpa using this

theorem dash_notMem_repr (n : Nat) : '-' ∉ n.repr.toList := by
  rw [Nat.toList_repr]
  intro h
  have := Nat.isDigit_of_mem_toDigits (by decide) (by decide) h
  exact absurd this (by decide)

theorem intToString_injective : Function.Injective (toString : Int → String) := by
  intro a b h
  rcases a with m | m <;> rcases b with n | n
  · change m.repr = n.repr at h
    rw [natToString_injective h]
  · change m.repr = "-" ++ (n + 1).repr at h
    exact absurd (by rw [h]; simp) (dash_notMem_repr m)
  · change "-" ++ (m + 1).repr = n.repr at h
    exact absurd (by rw [← h]; simp) (dash_notMem_repr n)
  · change "-" ++ (m + 1).repr = "-" ++ (n + 1).repr at h
    have := natToString_injective ((String.append_right_inj _).1 h)
    rw [Nat.succ.inj this]

theorem notMem_toString {c : Char} (hc : c.isDigit = false) (n : Nat) : c ∉ (toString n).toList := by
  change c ∉ n.repr.toList
  rw [Nat.toList_repr]
  intro h
  have := Nat.isDigit_of_mem_toDigits (by decide) (by decide) h
  rw [hc] at this
  cases this

/-- What is behind the last of some marks is known from a list. -/
theorem append_cons_inj {α : Type*} {l l' d d' : List α} {c : α} (h : l ++ c :: d = l' ++ c :: d') (hd : c ∉ d)
    (hd' : c ∉ d') : l = l' ∧ d = d' := by
  rcases List.append_eq_append_iff.1 h with ⟨m, rfl, hm⟩ | ⟨m, rfl, hm⟩
  · cases m with
    | nil => exact ⟨(List.append_nil l).symm, List.cons_injective hm⟩
    | cons x m =>
      rw [List.cons_append, List.cons.injEq] at hm
      rw [hm.2] at hd
      simp at hd
  · cases m with
    | nil => exact ⟨List.append_nil l', (List.cons_injective hm).symm⟩
    | cons x m =>
      rw [List.cons_append, List.cons.injEq] at hm
      rw [hm.2] at hd'
      simp at hd'

end Lib
