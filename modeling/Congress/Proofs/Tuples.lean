import Congress.Proofs.Databases
import Congress.Statements

/-!
# What events without proofs do to a database

Such an event puts in the tuple it is about, or takes it out, unless the tuple has proofs
(`modify_base`). Any other event leaves other tables alone (`modify_other`).
-/

namespace Congress

open Lib

set_option linter.unusedSectionVars false

variable {V : Type} [DecidableEq V] {db db' : Database V} {formula : Formula V} {insert : Bool}
  {changes : List (ProofEvent V)} {table : String} {values : List V} {ps : ProofCollection V}

namespace Database

theorem proofs_eq_some : db.proofs table values = some ps
    ↔ ∃ t ∈ db.tuples table, t.tuple = values ∧ t.proofs = ps := by
  unfold proofs
  rw [Option.map_eq_some_iff]
  constructor
  · rintro ⟨t, ht, hps⟩
    exact ⟨t, List.mem_of_find?_eq_some ht, find_tuple ht, hps⟩
  · rintro ⟨t, ht, hv, hps⟩
    refine ⟨t, ?_, hps⟩
    have hnodup := db.nodup_tuples table
    rw [List.find?_eq_some_iff_append]
    obtain ⟨l₁, l₂, hl⟩ := List.append_of_mem ht
    refine ⟨by simpa using hv, l₁, l₂, hl, fun t' ht' => ?_⟩
    rw [hl, List.map_append, List.map_cons, List.nodup_append] at hnodup
    simpa [hv] using hnodup.2.2 _ (List.mem_map_of_mem ht') _ (List.mem_cons_self ..)

theorem mem_statements : .fact table values ∈ db.statements ↔ ∃ ps, db.proofs table values = some ps := by
  show (∃ t ∈ db.tuples table, t.tuple = values) ↔ _
  simp only [proofs_eq_some]
  exact ⟨fun ⟨t, ht, hv⟩ => ⟨_, t, ht, hv, rfl⟩, fun ⟨_, t, ht, hv, _⟩ => ⟨t, ht, hv⟩⟩

theorem mem_proved :
    .fact table values ∈ db.proved ↔ ∃ ps, db.proofs table values = some ps ∧ ps ≠ [] := by
  show (∃ t ∈ db.tuples table, t.tuple = values ∧ t.proofs ≠ []) ↔ _
  simp only [proofs_eq_some]
  exact ⟨fun ⟨t, ht, hv, hp⟩ => ⟨_, ⟨t, ht, hv, rfl⟩, hp⟩,
    fun ⟨_, ⟨t, ht, hv, hps⟩, hp⟩ => ⟨t, ht, hv, hps ▸ hp⟩⟩

/-- An event is about an atom, and changes the proofs of its tuple only. -/
theorem modify_key {e : ProofEvent V} (h : db.modify e = .ok (db', changes)) :
    ∃ l, e.formula = .atom l
      ∧ (∀ table values, (table, values) ≠ l.key → db'.proofs table values = db.proofs table values)
      ∧ db'.proofs l.key.1 l.key.2
        = if db.isNoop l e.insert e.proofs then db.proofs l.key.1 l.key.2
          else if e.insert then some (match db.proofs l.key.1 l.key.2 with
            | none => e.proofs
            | some qs => qs.ior e.proofs)
          else (db.proofs l.key.1 l.key.2).bind fun qs =>
            if (qs.isub e.proofs).isEmpty then none else some (qs.isub e.proofs) := by
  unfold modify at h
  split at h
  · cases h
  · rename_i l hl
    refine ⟨l, hl, ?_⟩
    have hkey : ∀ table values, (table, values) ≠ l.key →
        ¬ (table = l.table.table ∧ values = l.argumentNames) :=
      fun table values hne h => hne (Prod.ext h.1 h.2)
    split_ifs at h ⊢ with hneg hnoop hins
    · cases h
      exact ⟨fun _ _ _ => rfl, rfl⟩
    · cases h
      refine ⟨fun table values hne => ?_, ?_⟩
      · rw [proofs_insertActual, if_neg (hkey table values hne)]
      · rw [proofs_insertActual, if_pos ⟨rfl, rfl⟩]
        cases db.proofs l.key.1 l.key.2 <;> rfl
    · cases h
      refine ⟨fun table values hne => ?_, ?_⟩
      · rw [proofs_deleteActual, if_neg (hkey table values hne)]
      · rw [proofs_deleteActual, if_pos ⟨rfl, rfl⟩]

/-- What an event without proofs makes of the proofs of a tuple, if it is there. -/
def baseEvent (insert : Bool) : Option (ProofCollection V) → Option (ProofCollection V)
  | some (p :: ps) => some (p :: ps)
  | _ => if insert then some [] else none

theorem baseEvent_isSome : ∀ o : Option (ProofCollection V), (∃ ps, baseEvent insert o = some ps)
    ↔ (¬ ∃ ps, o = some ps ∧ ps ≠ []) ∧ insert = true
      ∨ (∃ ps, o = some ps ∧ ps ≠ []) ∧ ∃ ps, o = some ps
  | none => by cases insert <;> simp [baseEvent]
  | some [] => by cases insert <;> simp [baseEvent]
  | some (_ :: _) => by simp [baseEvent]

theorem baseEvent_proved : ∀ o : Option (ProofCollection V),
    (∃ ps, baseEvent insert o = some ps ∧ ps ≠ []) ↔ ∃ ps, o = some ps ∧ ps ≠ []
  | none => by cases insert <;> simp [baseEvent]
  | some [] => by cases insert <;> simp [baseEvent]
  | some (_ :: _) => by simp [baseEvent]

theorem proofs_base {l : Literal V} (hself : db'.proofs l.key.1 l.key.2
      = if db.isNoop l insert [] then db.proofs l.key.1 l.key.2
        else if insert then some (match db.proofs l.key.1 l.key.2 with
          | none => []
          | some qs => qs.ior [])
        else (db.proofs l.key.1 l.key.2).bind fun qs =>
          if (qs.isub []).isEmpty then none else some (qs.isub [])) :
    db'.proofs l.key.1 l.key.2 = baseEvent insert (db.proofs l.key.1 l.key.2) := by
  have hnoop : db.isNoop l insert [] = true
      ↔ (insert = true ↔ ∃ qs, db.proofs l.key.1 l.key.2 = some qs) := by
    rw [isNoop_iff]
    simp [ProofCollection.le, Literal.key]
  rw [hself]
  cases hold : db.proofs l.key.1 l.key.2 with
  | none => cases insert <;> simp_all [baseEvent]
  | some qs => cases insert <;> cases qs <;> simp_all [baseEvent, ProofCollection.isub,
      ProofCollection.has]

/-- An event without proofs does what it says, except to tuples that have proofs. -/
theorem modify_base (h : db.modify ⟨formula, insert, []⟩ = .ok (db', changes)) :
    ∃ l, formula = .atom l
      ∧ db'.statements = ((l.statement.change insert).sparing db.proved).apply db.statements
      ∧ db'.proved = db.proved := by
  obtain ⟨l, hl, hother, hself⟩ := modify_key h
  have hself := proofs_base hself
  refine ⟨l, hl, ?_, ?_⟩
  · ext (⟨table, values⟩ | ⟨table, r⟩)
    · have hon : .fact table values ∈ (l.statement.change insert).on ↔ (table, values) = l.key :=
        ⟨fun h => Prod.ext h.1.symm h.2.symm,
          fun h => ⟨(congrArg Prod.fst h).symm, (congrArg Prod.snd h).symm⟩⟩
      rw [Change.mem_apply_sparing, mem_statements, mem_statements, mem_proved, hon]
      by_cases hk : (table, values) = l.key
      · obtain ⟨rfl, rfl⟩ := Prod.mk.inj hk
        rw [show db'.proofs l.table.table l.argumentNames = _ from hself, baseEvent_isSome]
        simp only [hk, true_and, not_not]
        rfl
      · simp [hk, hother table values hk]
    · exact ⟨False.elim, fun h => (Change.mem_apply_sparing.1 h).elim (·.1) (·.2)⟩
  · ext (⟨table, values⟩ | ⟨table, r⟩)
    · rw [mem_proved, mem_proved]
      by_cases hk : (table, values) = l.key
      · obtain ⟨rfl, rfl⟩ := Prod.mk.inj hk
        rw [show db'.proofs l.table.table l.argumentNames = _ from hself, baseEvent_proved]
        rfl
      · rw [hother table values hk]
    · rfl

/-- An event leaves other tables alone. -/
theorem modify_other {e : ProofEvent V} (h : db.modify e = .ok (db', changes)) :
    ∃ l, e.formula = .atom l ∧ ∀ table values, table ≠ l.table.table →
      (.fact table values ∈ db'.statements ↔ .fact table values ∈ db.statements)
        ∧ (.fact table values ∈ db'.proved ↔ .fact table values ∈ db.proved) := by
  obtain ⟨l, hl, hother, -⟩ := modify_key h
  refine ⟨l, hl, fun table values ht => ?_⟩
  have hne : (table, values) ≠ l.key := fun h => ht (congrArg Prod.fst h)
  rw [mem_statements, mem_statements, mem_proved, mem_proved, hother table values hne]
  exact ⟨.rfl, .rfl⟩

end Database

end Congress
