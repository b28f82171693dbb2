import Mathlib.Algebra.Order.Group.Multiset
import Mathlib.Algebra.Order.Sub.Basic
import Mathlib.Data.List.Infix
import Mathlib.Data.Multiset.OrderedMonoid

/-!
# Ledgers

A ledger is a list of multisets that were put in or taken out, one after the other. Undoing it in the
order in which it was made, where taking out what is not there has no effect, gives back what there was at
first exactly if no end of the ledger takes out more than was there at first or is put in by it
(`undone_after_iff`).
-/

namespace Lib

set_option linter.unusedSectionVars false

variable {α : Type*} [DecidableEq α]

/-- What was put in, marked `true`, or taken out. -/
abbrev Ledger (α : Type*) := List (Bool × Multiset α)

namespace Ledger

/-- All that was put in. -/
def inserted : Ledger α → Multiset α
  | [] => 0
  | (true, c) :: l => c + inserted l
  | (false, _) :: l => inserted l

/-- All that was taken out. -/
def deleted : Ledger α → Multiset α
  | [] => 0
  | (true, _) :: l => deleted l
  | (false, c) :: l => c + deleted l

/-- What there is after the entries. -/
def after (t : Multiset α) : Ledger α → Multiset α
  | [] => t
  | (true, c) :: l => after (t + c) l
  | (false, c) :: l => after (t - c) l

/-- What is taken out is there. -/
def Legal (t : Multiset α) : Ledger α → Prop
  | [] => True
  | (true, c) :: l => Legal (t + c) l
  | (false, c) :: l => c ≤ t ∧ Legal (t - c) l

/-- What there is after the entries have been undone, the first one first. -/
def undone (t : Multiset α) : Ledger α → Multiset α
  | [] => t
  | (true, c) :: l => undone (t - c) l
  | (false, c) :: l => undone (t + c) l

attribute [simp] inserted deleted after Legal undone

/-- No end of the ledger takes out more than there was, or is put in by it. -/
def Undoable (t : Multiset α) (l : Ledger α) : Prop := ∀ s, s <:+ l → deleted s ≤ t + inserted s

variable {t t' : Multiset α} {e : Bool × Multiset α} {l s : Ledger α}

theorem Undoable.tail (h : Undoable t (e :: l)) : Undoable t l :=
  fun s hs => h s (hs.trans (List.suffix_cons e l))

theorem after_add_deleted : ∀ (l : Ledger α) {t : Multiset α}, Legal t l →
    after t l + deleted l = t + inserted l
  | [], _, _ => by simp
  | (true, c) :: l, t, h => by
    rw [after, deleted, inserted, after_add_deleted l h, add_assoc]
  | (false, c) :: l, t, ⟨hc, h⟩ => by
    rw [after, deleted, inserted, add_left_comm, after_add_deleted l h, ← add_assoc,
      add_tsub_cancel_of_le hc]

/-- What was put in can be taken back first. -/
theorem Undoable.take_back {c a : Multiset α} (hu : Undoable t ((true, c) :: l))
    (h : a + deleted ((true, c) :: l) = t + inserted ((true, c) :: l)) :
    c ≤ a ∧ a - c + deleted l = t + inserted l := by
  have hle := hu.tail l List.suffix_rfl
  have ha : a = c + (t + inserted l - deleted l) := by
    rw [deleted, inserted, add_left_comm, ← tsub_add_cancel_of_le hle, ← add_assoc] at h
    exact add_right_cancel h
  rw [ha, add_tsub_cancel_left, tsub_add_cancel_of_le hle]
  exact ⟨Multiset.le_add_right .., rfl⟩

/-- What was taken out can be put back first. -/
theorem put_back {c a : Multiset α} (h : a + deleted ((false, c) :: l) = t + inserted ((false, c) :: l)) :
    a + c + deleted l = t + inserted l := by
  rwa [deleted, inserted, ← add_assoc] at h

/-- Undoing from where the entries led. -/
theorem undone_eq : ∀ (l : Ledger α) {a : Multiset α}, Undoable t l →
    a + deleted l = t + inserted l → undone a l = t
  | [], a, _, h => by simpa using h
  | (true, _) :: l, _, hu, h => undone_eq l hu.tail (hu.take_back h).2
  | (false, _) :: l, _, hu, h => undone_eq l hu.tail (put_back h)

/-- Whatever there was, what was taken out is put back. -/
theorem deleted_le_undone : ∀ (l : Ledger α) (a : Multiset α), a + deleted l ≤ undone a l + inserted l
  | [], a => by simp
  | (true, c) :: l, a => by
    have h := deleted_le_undone l (a - c)
    rw [deleted, inserted, undone]
    calc a + deleted l ≤ a - c + c + deleted l := by gcongr; exact le_tsub_add
      _ = a - c + deleted l + c := by rw [add_right_comm]
      _ ≤ undone (a - c) l + inserted l + c := by gcongr
      _ = _ := by rw [add_assoc, add_comm (inserted l) c]
  | (false, c) :: l, a => by
    have h := deleted_le_undone l (a + c)
    rwa [add_assoc] at h

theorem undone_append (l l' : Ledger α) (a : Multiset α) :
    undone a (l ++ l') = undone (undone a l) l' := by
  induction l generalizing a with
  | nil => rfl
  | cons e l ih =>
    obtain ⟨b, c⟩ := e
    cases b <;> exact ih _

theorem undoable_undone (a : Multiset α) (l : Ledger α) : Undoable (undone a l) l := by
  rintro s ⟨before, rfl⟩
  rw [undone_append]
  exact (Multiset.le_add_left ..).trans (deleted_le_undone s _)

/-- Undoing in the wrong order is right exactly if it never takes out what is not there. -/
theorem undone_after_iff (h : Legal t l) : undone (after t l) l = t ↔ Undoable t l :=
  ⟨fun he => he ▸ undoable_undone _ _, fun hu => undone_eq l hu (after_add_deleted l h)⟩

theorem undone_mono : ∀ (l : Ledger α) {a b : Multiset α}, a ≤ b → undone a l ≤ undone b l
  | [], _, _, h => h
  | (true, _) :: l, _, _, h => undone_mono l (tsub_le_tsub_right h _)
  | (false, _) :: l, _, _, h => undone_mono l (Multiset.add_le_add_right h)

/-- What is there besides stays there. -/
theorem Legal.add : ∀ {l : Ledger α} {t : Multiset α} (u : Multiset α), Legal t l →
    Legal (t + u) l ∧ after (t + u) l = after t l + u
  | [], _, _, _ => ⟨trivial, rfl⟩
  | (true, c) :: l, t, u, h => by
    have ih := Legal.add u (show Legal (t + c) l from h)
    rwa [add_right_comm] at ih
  | (false, c) :: l, t, u, ⟨hc, h⟩ => by
    have ih := Legal.add u h
    rw [tsub_add_eq_add_tsub hc] at ih
    exact ⟨⟨hc.trans (Multiset.le_add_right ..), ih.1⟩, ih.2⟩

/-- The entries that take something out. -/
def deletions (l : Ledger α) : Ledger α := l.filter fun e => !e.1

theorem deletions_spec : ∀ l : Ledger α, deleted l.deletions = deleted l ∧ inserted l.deletions = 0
  | [] => ⟨rfl, rfl⟩
  | (true, _) :: l => deletions_spec l
  | (false, c) :: l => by
    obtain ⟨hd, hi⟩ := deletions_spec l
    exact ⟨congrArg (c + ·) hd, hi⟩

theorem deleted_le_of_suffix (h : s <:+ l) : deleted s ≤ deleted l := by
  obtain ⟨before, rfl⟩ := h
  induction before with
  | nil => exact le_rfl
  | cons e before ih =>
    obtain ⟨_ | _, c⟩ := e
    · exact ih.trans (Multiset.le_add_left ..)
    · exact ih

/-- A ledger can be undone if all that it takes out was there at first. -/
theorem undoable_of_deletions (h : Legal t l.deletions) : Undoable t l := by
  intro s hs
  have hle : deleted l ≤ t := by
    have hafter := after_add_deleted _ h
    rw [(deletions_spec l).1, (deletions_spec l).2, add_zero] at hafter
    exact (Multiset.le_add_left ..).trans_eq hafter
  exact (deleted_le_of_suffix hs).trans (hle.trans (Multiset.le_add_right ..))

/-- Where nothing is put in there is nothing new. -/
theorem after_le : ∀ {l : Ledger α} {t : Multiset α}, inserted l = 0 → after t l ≤ t
  | [], _, _ => le_rfl
  | (true, c) :: l, t, h => by
    obtain ⟨rfl, hl⟩ := add_eq_zero.1 (show c + inserted l = 0 from h)
    rw [after, add_zero]
    exact after_le hl
  | (false, c) :: l, t, h => (after_le (show inserted l = 0 from h)).trans (Multiset.sub_le_self ..)

/-- Entries of nothing. -/
theorem after_of_zero : ∀ {l : Ledger α}, (∀ e ∈ l, e.2 = 0) → Legal t l ∧ after t l = t
  | [], _ => ⟨trivial, rfl⟩
  | (true, _) :: l, h => by
    obtain ⟨rfl, hl⟩ := List.forall_mem_cons.1 h
    rw [Legal, after, add_zero]
    exact after_of_zero hl
  | (false, _) :: l, h => by
    obtain ⟨rfl, hl⟩ := List.forall_mem_cons.1 h
    rw [Legal, after, tsub_zero, and_iff_right (Multiset.zero_le _)]
    exact after_of_zero hl

end Ledger

end Lib
