import Mathlib.Data.List.Lex
import Mathlib.Data.List.Perm.Basic
import Mathlib.Data.List.Sort
import Mathlib.Data.Prod.Lex

/-!
# Comparisons that fail

A comparison of two values can fail. Where it does not, it is that of the values' keys, which are in a linear
order. So are then the comparison of lists by their first difference and sorting by insertion.
-/

namespace Lib

variable {ε α : Type} {κ : Type*} [LinearOrder κ]

/-- A comparison that does not fail compares keys. -/
def ByKey (lt : α → α → Except ε Bool) (key : α → κ) : Prop := ∀ a b x, lt a b = .ok x → (x = true ↔ key a < key b)

/-- The comparison does not fail. -/
def Compares (lt : α → α → Except ε Bool) (a b : α) : Prop := ∃ x, lt a b = .ok x

variable {lt : α → α → Except ε Bool} {key : α → κ} {a b : α} {as bs : List α}

theorem ByKey.eq_ok (h : ByKey lt key) (hab : Compares lt a b) : lt a b = .ok (decide (key a < key b)) := by
  obtain ⟨x, hx⟩ := hab
  rw [hx, Except.ok.injEq, Bool.eq_iff_iff, h a b x hx, decide_eq_true_eq]

theorem lex_lt_iff_fst {β : Type*} [LT β] {k k' : κ} {b b' : β} (h : k ≠ k') :
    toLex (k, b) < toLex (k', b') ↔ k < k' := by
  rw [Prod.Lex.toLex_lt_toLex]
  simp [h]

theorem lex_lt_iff_snd {β : Type*} [LT β] {k : κ} {b b' : β} : toLex (k, b) < toLex (k, b') ↔ b < b' := by
  rw [Prod.Lex.toLex_lt_toLex]
  simp

/-! ## Lists -/

section Lists

variable [DecidableEq α]

/-- Lists are compared by the first elements that differ. -/
def listLt (lt : α → α → Except ε Bool) : List α → List α → Except ε Bool
  | _, [] => .ok false
  | [], _ :: _ => .ok true
  | a :: as, b :: bs => if a = b then listLt lt as bs else lt a b

def firstDifference : List α → List α → Option (α × α)
  | a :: as, b :: bs => if a = b then firstDifference as bs else some (a, b)
  | _, _ => none

theorem firstDifference_swap : ∀ {as bs : List α} {p : α × α}, firstDifference as bs = some p →
    firstDifference bs as = some p.swap
  | [], _, _, h => by simp [firstDifference] at h
  | _ :: _, [], _, h => by simp [firstDifference] at h
  | a :: as, b :: bs, p, h => by
    rw [firstDifference] at h ⊢
    split_ifs at h with hab
    · rw [if_pos hab.symm]
      exact firstDifference_swap h
    · rw [if_neg (Ne.symm hab), ← Option.some.inj h]
      rfl

/-- Comparing lists fails only where comparing the elements that differ first does. -/
theorem compares_listLt_iff : ∀ {as bs : List α},
    Compares (listLt lt) as bs ↔ ∀ p, firstDifference as bs = some p → Compares lt p.1 p.2
  | [], [] => by simp [Compares, listLt, firstDifference]
  | [], _ :: _ => by simp [Compares, listLt, firstDifference]
  | _ :: _, [] => by simp [Compares, listLt, firstDifference]
  | a :: as, b :: bs => by
    rw [Compares, listLt, firstDifference]
    split_ifs with hab
    · exact compares_listLt_iff
    · simp [Compares]

theorem ByKey.list (h : ByKey lt key) (hkey : Function.Injective key) : ByKey (listLt lt) (List.map key)
  | as, [], x, hx => by
    rw [listLt, Except.ok.injEq] at hx
    simp [← hx]
  | [], b :: bs, x, hx => by
    rw [listLt, Except.ok.injEq] at hx
    simp [← hx]
  | a :: as, b :: bs, x, hx => by
    rw [listLt] at hx
    rw [List.map_cons, List.map_cons, List.cons_lt_cons_iff]
    split_ifs at hx with hab
    · subst hab
      rw [h.list hkey as bs x hx]
      simp
    · rw [h a b x hx, hkey.eq_iff]
      simp [hab]

end Lists

/-! ## Sorting -/

def insertInto (lt : α → α → Except ε Bool) (a : α) : List α → Except ε (List α)
  | [] => .ok [a]
  | b :: bs => do
    if ← lt b a then
      let bs ← insertInto lt a bs
      pure (b :: bs)
    else pure (a :: b :: bs)

def sorted (lt : α → α → Except ε Bool) : List α → Except ε (List α)
  | [] => .ok []
  | a :: as => do
    let as ← sorted lt as
    insertInto lt a as

/-- The values of a set are compared by their keys. -/
def KeyedOn (lt : α → α → Except ε Bool) (key : α → κ) (S : Set α) : Prop :=
  ∀ a ∈ S, ∀ b ∈ S, lt a b = .ok (decide (key a < key b))

variable {S S' : Set α} {cs ds : List α}

theorem KeyedOn.mono (h : KeyedOn lt key S) (hS : ∀ a ∈ S', a ∈ S) : KeyedOn lt key S' :=
  fun a ha b hb => h a (hS a ha) b (hS b hb)

theorem insertInto_ok (h : KeyedOn lt key S) (ha : a ∈ S) : ∀ {bs : List α}, (∀ b ∈ bs, b ∈ S) →
    bs.Pairwise (fun b c => key b ≤ key c) →
    ∃ cs, insertInto lt a bs = .ok cs ∧ cs.Perm (a :: bs) ∧ cs.Pairwise fun b c => key b ≤ key c
  | [], _, _ => ⟨[a], rfl, .refl _, List.pairwise_singleton ..⟩
  | b :: bs, hmem, hsorted => by
    obtain ⟨hb, hbs⟩ := List.forall_mem_cons.1 hmem
    obtain ⟨hle, hrest⟩ := List.pairwise_cons.1 hsorted
    rw [insertInto, h b hb a ha]
    by_cases hlt : key b < key a
    · obtain ⟨cs, hcs, hperm, hordered⟩ := insertInto_ok h ha hbs hrest
      refine ⟨b :: cs, ?_, (hperm.cons b).trans (.swap a b bs), List.pairwise_cons.2 ⟨fun c hc => ?_, hordered⟩⟩
      · simp [hlt, hcs, bind, Except.bind, pure, Except.pure]
      · rcases List.mem_cons.1 (hperm.mem_iff.1 hc) with rfl | hc
        · exact hlt.le
        · exact hle c hc
    · refine ⟨a :: b :: bs, by simp [hlt, bind, Except.bind, pure, Except.pure], .refl _,
        List.pairwise_cons.2 ⟨fun c hc => ?_, hsorted⟩⟩
      rcases List.mem_cons.1 hc with rfl | hc
      · exact not_lt.1 hlt
      · exact (not_lt.1 hlt).trans (hle c hc)

/-- Values that are compared by their keys are sorted by these. -/
theorem sorted_ok (h : KeyedOn lt key S) : ∀ {as : List α}, (∀ a ∈ as, a ∈ S) →
    ∃ bs, sorted lt as = .ok bs ∧ bs.Perm as ∧ bs.Pairwise fun a b => key a ≤ key b
  | [], _ => ⟨[], rfl, .refl _, .nil⟩
  | a :: as, hmem => by
    obtain ⟨ha, has⟩ := List.forall_mem_cons.1 hmem
    obtain ⟨bs, hbs, hperm, hsorted⟩ := sorted_ok h has
    obtain ⟨cs, hcs, hperm', hsorted'⟩ := insertInto_ok h ha (fun b hb => has b (hperm.mem_iff.1 hb)) hsorted
    refine ⟨cs, ?_, hperm'.trans (hperm.cons a), hsorted'⟩
    rw [sorted, hbs]
    exact hcs

/-- Sorting does not depend on the order. -/
theorem sorted_perm (h : KeyedOn lt key S) (hkey : Function.Injective key) (has : ∀ a ∈ as, a ∈ S)
    (hperm : as.Perm bs) : sorted lt as = sorted lt bs := by
  obtain ⟨cs, hcs, hpermc, hsorted⟩ := sorted_ok h has
  obtain ⟨ds, hds, hpermd, hsorted'⟩ := sorted_ok h fun b hb => has b (hperm.mem_iff.2 hb)
  have heq : cs = ds := List.Perm.eq_of_pairwise (fun a b _ _ hab hba => hkey (le_antisymm hab hba)) hsorted hsorted'
    (hpermc.trans (hperm.trans hpermd.symm))
  rw [hcs, hds, heq]

/-- Two lists have the same elements exactly if they are equal once sorted. -/
theorem sorted_eq_iff (h : KeyedOn lt key S) (h' : KeyedOn lt key S') (hkey : Function.Injective key)
    (has : ∀ a ∈ as, a ∈ S) (hbs : ∀ b ∈ bs, b ∈ S') (hcs : sorted lt as = .ok cs) (hds : sorted lt bs = .ok ds) :
    cs = ds ↔ as.Perm bs := by
  obtain ⟨cs', hcs', hperm, -⟩ := sorted_ok h has
  obtain ⟨ds', hds', hperm', -⟩ := sorted_ok h' hbs
  obtain rfl : cs' = cs := Except.ok.inj (hcs'.symm.trans hcs)
  obtain rfl : ds' = ds := Except.ok.inj (hds'.symm.trans hds)
  constructor
  · rintro rfl
    exact hperm.symm.trans hperm'
  · intro hall
    rw [sorted_perm h hkey has hall] at hcs
    exact Except.ok.inj (hcs.symm.trans hds)

end Lib
