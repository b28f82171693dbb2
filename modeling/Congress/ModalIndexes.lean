import Mathlib.Data.List.AList
import Mathlib.Data.Multiset.AddSub
import Congress.Lib.Run
import Congress.RuleGraph

/-!
# Modal indexes

A `ModalIndex` is a dictionary from modals to inner dictionaries, which count the tables. The inner
dictionaries are objects: `+=` puts the other index's own dictionary where the index has none. Here
they are kept by their number, with all the counts as they are written, so that two indexes can hold
the same one.

What an index is for is a multiset of tables for each modal (`Tally`), changed by nothing but the
operations on the index itself.
-/

namespace Congress

open Function Lib

/-- A dictionary from tables to counts. -/
abbrev Counter := AList fun _ : String => ℤ

variable {ι : Type*} [DecidableEq ι]

theorem of_lookup_insert {index : ι → AList fun _ : String => ℕ} {k k' : ι} {modal modal' : String}
    {n n' : ℕ} (h : (update index k ((index k).insert modal n) k').lookup modal' = some n') :
    n' = n ∨ (index k').lookup modal' = some n' := by
  by_cases hk : k' = k
  · subst hk
    rw [update_self] at h
    by_cases hm : modal' = modal
    · subst hm
      rw [AList.lookup_insert] at h
      exact .inl (Option.some.inj h).symm
    · rw [AList.lookup_insert_ne hm] at h
      exact .inr h
  · rw [update_of_ne hk] at h
    exact .inr h

theorem of_lookup_erase {index : ι → AList fun _ : String => ℕ} {k k' : ι} {modal modal' : String}
    {n : ℕ} (h : (update index k ((index k).erase modal) k').lookup modal' = some n) :
    (index k').lookup modal' = some n := by
  by_cases hk : k' = k
  · subst hk
    rw [update_self] at h
    by_cases hm : modal' = modal
    · subst hm
      rw [AList.lookup_erase] at h
      cases h
    · rwa [AList.lookup_erase_ne hm] at h
  · rwa [update_of_ne hk] at h

/-- Modal indexes by name: for each the number of its dictionary for each of its modals, and the
dictionaries of each modal. -/
structure ModalStore (ι : Type*) where
  dicts : String → ℕ → Counter
  fresh : ℕ
  index : ι → AList fun _ : String => ℕ
  allocated : ∀ k modal n, (index k).lookup modal = some n → n < fresh

namespace ModalStore

/-- Indexes that were just made. -/
def init : ModalStore ι := ⟨fun _ _ => ∅, 0, fun _ => ∅, fun _ _ _ h => by simp at h⟩

/-- `self.index[modal][table]`. -/
def item (s : ModalStore ι) (k : ι) (modal table : String) : Option ℤ :=
  ((s.index k).lookup modal).bind fun n => (s.dicts modal n).lookup table

/-- The tables that `self.index[modal]` runs through. -/
def keys (s : ModalStore ι) (k : ι) (modal : String) : List String :=
  match (s.index k).lookup modal with
  | none => []
  | some n => (s.dicts modal n).keys

/-- `self.index[modal] = {}`. -/
def newDict (s : ModalStore ι) (k : ι) (modal : String) : ModalStore ι where
  dicts := update s.dicts modal (update (s.dicts modal) s.fresh ∅)
  fresh := s.fresh + 1
  index := update s.index k ((s.index k).insert modal s.fresh)
  allocated k' modal' n h := by
    rcases of_lookup_insert h with rfl | h
    · exact Nat.lt_succ_self _
    · exact Nat.lt_succ_of_lt (s.allocated _ _ _ h)

/-- `self.index[modal] = other.index[modal]`. -/
def takeOver (s : ModalStore ι) (k other : ι) (modal : String) : ModalStore ι :=
  match h : (s.index other).lookup modal with
  | none => s
  | some n =>
    { s with
      index := update s.index k ((s.index k).insert modal n)
      allocated := fun k' modal' n' h' => by
        rcases of_lookup_insert h' with rfl | h'
        · exact s.allocated _ _ _ h
        · exact s.allocated _ _ _ h' }

/-- `self.index[modal][table] = count`. -/
def setItem (s : ModalStore ι) (k : ι) (modal table : String) (count : ℤ) : ModalStore ι :=
  match (s.index k).lookup modal with
  | none => s
  | some n =>
    { s with
      dicts := update s.dicts modal
        (update (s.dicts modal) n ((s.dicts modal n).insert table count)) }

/-- `del self.index[modal][table]`. -/
def delItem (s : ModalStore ι) (k : ι) (modal table : String) : ModalStore ι :=
  match (s.index k).lookup modal with
  | none => s
  | some n =>
    { s with
      dicts := update s.dicts modal (update (s.dicts modal) n ((s.dicts modal n).erase table)) }

/-- `del self.index[modal]`. -/
def delModal (s : ModalStore ι) (k : ι) (modal : String) : ModalStore ι :=
  { s with
    index := update s.index k ((s.index k).erase modal)
    allocated := fun _ _ _ h => s.allocated _ _ _ (of_lookup_erase h) }

/-- `_clean_up`; `none` is a `KeyError`. -/
def cleanUp (s : ModalStore ι) (k : ι) (modal table : String) : Option (ModalStore ι) :=
  match s.item k modal table with
  | none => none
  | some count =>
    let s := if count ≤ 0 then s.delItem k modal table else s
    some (if s.keys k modal = [] then s.delModal k modal else s)

/-- The end of `add`: `self.index[modal][tablename] += 1`, from zero if it is not there. -/
def increment (s : ModalStore ι) (k : ι) (modal table : String) : ModalStore ι :=
  let s := if (s.item k modal table).isSome then s else s.setItem k modal table 0
  s.setItem k modal table ((s.item k modal table).getD 0 + 1)

/-- `add`. -/
def add (s : ModalStore ι) (k : ι) (modal table : String) : ModalStore ι :=
  (if modal ∈ s.index k then s else s.newDict k modal).increment k modal table

/-- `remove`; `none` is the `KeyError` for a modal or a table that is not there. -/
def remove (s : ModalStore ι) (k : ι) (modal table : String) : Option (ModalStore ι) :=
  match s.item k modal table with
  | none => none
  | some count => (s.setItem k modal table (count - 1)).cleanUp k modal table

/-- The loop of `__iadd__` over the tables of a modal that both have. -/
def iaddTable (k other : ι) (modal : String) (s : ModalStore ι) (table : String) : ModalStore ι :=
  match s.item k modal table with
  | none => s.setItem k modal table ((s.item other modal table).getD 0)
  | some count => s.setItem k modal table (count + (s.item other modal table).getD 0)

/-- The loop of `__iadd__` over the modals of `other`. -/
def iaddModal (k other : ι) (s : ModalStore ι) (modal : String) : ModalStore ι :=
  if modal ∈ s.index k then (s.keys other modal).foldl (iaddTable k other modal) s
  else s.takeOver k other modal

/-- `__iadd__`. -/
def iadd (s : ModalStore ι) (k other : ι) : ModalStore ι :=
  (s.index other).keys.foldl (iaddModal k other) s

/-- The list `changes` of `__isub__`: the modals and tables that `other` has too. -/
def changes (s : ModalStore ι) (k other : ι) : List (String × String) :=
  (s.index k).keys.flatMap fun modal =>
    ((s.keys k modal).filter fun table => (s.item other modal table).isSome).map (modal, ·)

/-- The first loop of `__isub__`, at one of the `changes`. -/
def isubTable (k other : ι) (s : ModalStore ι) (entry : String × String) : ModalStore ι :=
  s.setItem k entry.1 entry.2
    ((s.item k entry.1 entry.2).getD 0 - (s.item other entry.1 entry.2).getD 0)

/-- `__isub__`; `none` is a `KeyError` of `_clean_up`. -/
def isub (s : ModalStore ι) (k other : ι) : Option (ModalStore ι) :=
  (s.changes k other).foldlM (fun s entry => s.cleanUp k entry.1 entry.2)
    ((s.changes k other).foldl (isubTable k other) s)

end ModalStore

/-- An operation on the index `k`. -/
inductive IndexOp (ι : Type*)
  | add (k : ι) (modal table : String)
  | remove (k : ι) (modal table : String)
  | iadd (k other : ι)
  | isub (k other : ι)

namespace IndexOp

/-- The index that is changed, the left-hand operand. -/
def self : IndexOp ι → ι
  | add k _ _ | remove k _ _ | iadd k _ | isub k _ => k

end IndexOp

/-- An operation; one that raises an error does so before it changes anything. -/
def ModalStore.step (s : ModalStore ι) : IndexOp ι → ModalStore ι
  | .add k modal table => s.add k modal table
  | .remove k modal table => (s.remove k modal table).getD s
  | .iadd k other => s.iadd k other
  | .isub k other => (s.isub k other).getD s

/-- For each index the multiset of tables under each modal. -/
abbrev Tally (ι : Type*) := ι → String → Multiset String

/-- What an operation should do: to its own index only, with differences truncated at zero. -/
def Tally.step (M : Tally ι) : IndexOp ι → Tally ι
  | .add k modal table => update M k (update (M k) modal (table ::ₘ M k modal))
  | .remove k modal table => update M k (update (M k) modal ((M k modal).erase table))
  | .iadd k other => update M k fun m => M k m + M other m
  | .isub k other => update M k fun m => M k m - M other m

namespace ModalStore

/-- Each index has exactly the tables with a count other than zero, with these counts. -/
def Represents (s : ModalStore ι) (M : Tally ι) : Prop :=
  ∀ k modal table, s.item k modal table
    = if (M k modal).count table = 0 then none else some ((M k modal).count table : ℤ)

/-- The operation changes what the dictionary of the modal holds. -/
def Changes (s : ModalStore ι) : IndexOp ι → String → Prop
  | .add _ modal _, m => m = modal
  | .remove k modal table, m => m = modal ∧ (s.item k modal table).isSome
  | .iadd _ other, m => ∃ table, (s.item other m table).isSome
  | .isub k other, m => ∃ table, (s.item k m table).isSome ∧ (s.item other m table).isSome

/-- No dictionary that the operation changes is held by another index too. -/
def Undivided (s : ModalStore ι) (op : IndexOp ι) : Prop :=
  ∀ modal, s.Changes op modal → ∀ n, (s.index op.self).lookup modal = some n →
    ∀ k, k ≠ op.self → (s.index k).lookup modal ≠ some n

end ModalStore

end Congress
