import Congress.Database
import Congress.Lib.Changes

/-!
# What events do to a database

With each tuple of a database goes a collection of proofs (`Database.proofs`). The proofs of all
tuples are one set (`Database.held`), and an event changes it as it says, if it deletes proofs that
are all there or none of which is (`modify_spec`).
-/

namespace Congress

open Lib

set_option linter.unusedSectionVars false

variable {V : Type*} [DecidableEq V] {db : Database V} {ps qs : ProofCollection V} {p q : Proof V}
  {r r' : Rule V} {table k : String} {values v : List V} {ts : List (DBTuple V)} {e : ProofEvent V}

theorem Proof.same_iff : p.same q = true ↔ p.binding = q.binding ∧ p.rule.same q.rule = true := by
  simp [Proof.same]

theorem Proof.same_refl (p : Proof V) : p.same p = true := same_iff.2 ⟨rfl, Rule.same_refl _⟩

theorem Proof.same_symm (h : p.same q = true) : q.same p = true :=
  same_iff.2 ⟨(same_iff.1 h).1.symm, Rule.same_symm (same_iff.1 h).2⟩

theorem Proof.same_trans {o : Proof V} (h : p.same q = true) (h' : q.same o = true) :
    p.same o = true :=
  same_iff.2 ⟨(same_iff.1 h).1.trans (same_iff.1 h').1,
    Rule.same_trans (same_iff.1 h).2 (same_iff.1 h').2⟩

namespace ProofCollection

theorem has_iff : ps.has p = true ↔ ∃ q ∈ ps, p.same q = true := List.any_eq_true

theorem has_of_mem (h : p ∈ ps) : ps.has p = true := has_iff.2 ⟨p, h, Proof.same_refl p⟩

theorem has_congr (h : p.same q = true) : ps.has p = ps.has q := by
  rw [Bool.eq_iff_iff, has_iff, has_iff]
  exact exists_congr fun o => and_congr_right fun _ =>
    ⟨Proof.same_trans (Proof.same_symm h), Proof.same_trans h⟩

theorem le_iff : ps.le qs = true ↔ ∀ p, ps.has p = true → qs.has p = true := by
  rw [le, List.all_eq_true]
  refine ⟨fun h p hp => ?_, fun h p hp => h p (has_of_mem hp)⟩
  obtain ⟨q, hq, hpq⟩ := has_iff.1 hp
  rw [has_congr hpq]
  exact h q hq

theorem has_isub : (ps.isub qs).has p = true ↔ ps.has p = true ∧ qs.has p = false := by
  simp only [has_iff, isub, List.mem_filter, Bool.not_eq_true']
  constructor
  · rintro ⟨q, ⟨hq, hn⟩, hpq⟩
    exact ⟨⟨q, hq, hpq⟩, by rw [has_congr hpq, hn]⟩
  · rintro ⟨⟨q, hq, hpq⟩, hn⟩
    exact ⟨q, ⟨hq, by rw [← has_congr hpq, hn]⟩, hpq⟩

theorem has_append_singleton : has (ps ++ [q]) p = true ↔ ps.has p = true ∨ p.same q = true := by
  simp [has]

theorem has_ior : ∀ {qs ps : ProofCollection V},
    (ps.ior qs).has p = true ↔ ps.has p = true ∨ qs.has p = true
  | [], ps => by simp [ior, has]
  | q :: qs, ps => by
    have hcons : has (q :: qs) p = true ↔ p.same q = true ∨ has qs p = true := by simp [has]
    rw [ior, List.foldl_cons, ← ior, has_ior, hcons, ← or_assoc]
    refine or_congr_left ?_
    split_ifs with hq
    · refine ⟨.inl, fun h => h.elim id fun h => ?_⟩
      rwa [has_congr h]
    · exact has_append_singleton

theorem ior_ne_nil : ∀ {qs ps : ProofCollection V}, ps ≠ [] → ps.ior qs ≠ []
  | [], ps, h => h
  | q :: qs, ps, h => by
    rw [ior, List.foldl_cons, ← ior]
    refine ior_ne_nil ?_
    split_ifs
    · exact h
    · simp

end ProofCollection

namespace Database

/-- The proofs of a tuple, if it is there. -/
def proofs (db : Database V) (table : String) (values : List V) : Option (ProofCollection V) :=
  ((db.tuples table).find? (·.tuple = values)).map (·.proofs)

theorem find_tuple {t : DBTuple V} (h : ts.find? (·.tuple = values) = some t) : t.tuple = values := by
  simpa using List.find?_some h

theorem find_insertTuple (ps : ProofCollection V) : ∀ ts : List (DBTuple V),
    ((insertTuple values ps ts).find? (·.tuple = v)).map (·.proofs)
      = if v = values then
          some (match (ts.find? (·.tuple = values)).map (·.proofs) with
            | none => ps
            | some qs => qs.ior ps)
        else (ts.find? (·.tuple = v)).map (·.proofs)
  | [] => by
    rw [insertTuple, List.find?_cons]
    by_cases hv : values = v
    · simp [hv]
    · simp [hv, Ne.symm hv]
  | t :: ts => by
    have ih := find_insertTuple ps ts
    rw [insertTuple]
    by_cases ht : t.tuple = values
    · by_cases hv : v = values
      · simp [ht, hv]
      · simp [ht, hv, Ne.symm hv]
    · by_cases hv : v = values
      · subst hv
        simpa [ht] using ih
      · by_cases htv : t.tuple = v
        · simp [hv, htv]
        · simpa [ht, hv, htv] using ih

theorem find_deleteTuple (ps : ProofCollection V) : ∀ {ts : List (DBTuple V)},
    (ts.map (·.tuple)).Nodup → ((deleteTuple values ps ts).find? (·.tuple = v)).map (·.proofs)
      = if v = values then
          ((ts.find? (·.tuple = values)).map (·.proofs)).bind fun qs =>
            if (qs.isub ps).isEmpty then none else some (qs.isub ps)
        else (ts.find? (·.tuple = v)).map (·.proofs)
  | [], _ => by simp [deleteTuple]
  | t :: ts, hnodup => by
    rw [List.map_cons, List.nodup_cons] at hnodup
    have ih := find_deleteTuple ps hnodup.2
    rw [deleteTuple]
    by_cases ht : t.tuple = values
    · have hnone : ts.find? (·.tuple = values) = none := by
        rw [List.find?_eq_none]
        intro t' ht' he
        exact hnodup.1 (List.mem_map.2 ⟨t', ht', by rw [ht]; simpa using he⟩)
      by_cases hr : t.proofs.isub ps = []
      · by_cases hv : v = values
        · subst hv
          simp [hnone, ht, hr]
        · simp [ht, hr, hv, Ne.symm hv]
      · by_cases hv : v = values
        · simp [ht, hr, hv]
        · simp [ht, hr, hv, Ne.symm hv]
    · by_cases hv : v = values
      · subst hv
        simpa [ht] using ih
      · by_cases htv : t.tuple = v
        · simp [hv, htv]
        · simpa [ht, hv, htv] using ih

theorem tuples_setTable (h) :
    (db.setTable table ts h).tuples k = if k = table then ts else db.tuples k := by
  rw [tuples, setTable]
  split_ifs with hk
  · subst hk
    simp
  · rw [AList.lookup_insert_ne hk]
    rfl

theorem tuples_insertActual (atom : Literal V) : (db.insertActual atom ps).tuples table
    = if table = atom.table.table then insertTuple atom.argumentNames ps (db.tuples table)
      else db.tuples table := by
  rw [insertActual, tuples_setTable]
  split_ifs with h
  · rw [h]
  · rfl

theorem tuples_deleteActual (atom : Literal V) : (db.deleteActual atom ps).tuples table
    = if table = atom.table.table then deleteTuple atom.argumentNames ps (db.tuples table)
      else db.tuples table := by
  rw [deleteActual]
  split_ifs with hmem h h
  · rw [tuples_setTable, if_pos h, h]
  · rw [tuples_setTable, if_neg h]
  · have hnil : db.tuples table = [] := by
      rw [h, tuples, AList.lookup_eq_none.2 hmem]
      rfl
    rw [hnil, deleteTuple]
  · rfl

theorem proofs_insertActual (atom : Literal V) : (db.insertActual atom ps).proofs table values
    = if table = atom.table.table ∧ values = atom.argumentNames then
        some (match db.proofs table values with
          | none => ps
          | some qs => qs.ior ps)
      else db.proofs table values := by
  rw [proofs, tuples_insertActual, proofs]
  by_cases h : table = atom.table.table
  · rw [if_pos h, find_insertTuple]
    by_cases hv : values = atom.argumentNames
    · simp [h, hv]
    · simp [hv]
  · simp [h]

theorem proofs_deleteActual (atom : Literal V) :
    (db.deleteActual atom ps).proofs table values
      = if table = atom.table.table ∧ values = atom.argumentNames then
          (db.proofs table values).bind fun qs =>
            if (qs.isub ps).isEmpty then none else some (qs.isub ps)
        else db.proofs table values := by
  rw [proofs, tuples_deleteActual, proofs]
  by_cases ht : table = atom.table.table
  · rw [if_pos ht, find_deleteTuple ps (db.nodup_tuples table)]
    by_cases hv : values = atom.argumentNames
    · simp [ht, hv]
    · simp [hv]
  · simp [ht]

/-- The event is a noop exactly if it is an insertion of proofs that are there, or else a deletion
of proofs some of which are not. -/
theorem isNoop_iff (atom : Literal V) (insert : Bool) :
    db.isNoop atom insert ps = true ↔ (insert = true
      ↔ ∃ qs, db.proofs atom.table.table atom.argumentNames = some qs ∧ ps.le qs = true) := by
  have hany : ((db.tuples atom.table.table).any fun t =>
      t.tuple = atom.argumentNames && ps.le t.proofs) = true
      ↔ ∃ qs, db.proofs atom.table.table atom.argumentNames = some qs ∧ ps.le qs = true := by
    simp only [List.any_eq_true, Bool.and_eq_true, decide_eq_true_eq, proofs, Option.map_eq_some_iff]
    constructor
    · rintro ⟨t, ht, he, hle⟩
      refine ⟨_, ⟨t, ?_, rfl⟩, hle⟩
      have hnodup := db.nodup_tuples atom.table.table
      rw [List.find?_eq_some_iff_append]
      obtain ⟨l₁, l₂, hl⟩ := List.append_of_mem ht
      refine ⟨by simpa using he, l₁, l₂, hl, fun t' ht' => ?_⟩
      rw [hl, List.map_append, List.map_cons, List.nodup_append] at hnodup
      simpa [he] using hnodup.2.2 _ (List.mem_map_of_mem ht') _ (List.mem_cons_self ..)
    · rintro ⟨qs, ⟨t, ht, rfl⟩, hle⟩
      exact ⟨t, List.mem_of_find?_eq_some ht, find_tuple ht, hle⟩
  rw [isNoop, ← hany]
  cases insert <;> simp

/-- The tuples of the database together with their proofs. -/
def held (db : Database V) : Set ((String × List V) × Proof V) :=
  {x | ∃ ps, db.proofs x.1.1 x.1.2 = some ps ∧ ps.has x.2 = true}

end Database

/-- What an atom says is in a database. -/
def Literal.key (l : Literal V) : String × List V := (l.table.table, l.argumentNames)

/-- An event as a change of what a database holds. -/
def ProofEvent.change (e : ProofEvent V) : Lib.Change ((String × List V) × Proof V) where
  insert := e.insert
  on := {x | ∃ l, e.formula = .atom l ∧ x.1 = l.key ∧ e.proofs.has x.2 = true}

namespace Database

def Present (db : Database V) (k : String × List V) : Prop := db.proofs k.1 k.2 ≠ none

/-- Just the tuples of derived tables have proofs. -/
def Sorted (db : Database V) (derived : String → Prop) : Prop :=
  ∀ table values ps, db.proofs table values = some ps → (ps = [] ↔ ¬ derived table)

/-- How a database changes by an event about the atom `l`. -/
structure Modified (db : Database V) (e : ProofEvent V) (l : Literal V) (db' : Database V) : Prop where
  held : db'.held = e.change.apply db.held
  other : ∀ k, k ≠ l.key → (db'.Present k ↔ db.Present k)
  inserted : e.insert = true → db'.Present l.key
  deleted : e.insert = false → db'.Present l.key → db.Present l.key
  sorted : ∀ derived, db.Sorted derived → (e.proofs = [] ↔ ¬ derived l.table.table) →
    db'.Sorted derived
  base : e.insert = false → db.proofs l.key.1 l.key.2 = some [] → e.proofs = [] → ¬ db'.Present l.key

theorem mem_held {k : String × List V} : (k, p) ∈ db.held
    ↔ ∃ ps, db.proofs k.1 k.2 = some ps ∧ ps.has p = true := .rfl

theorem mem_change_on {l : Literal V} (hl : e.formula = .atom l) {k : String × List V} :
    (k, p) ∈ e.change.on ↔ k = l.key ∧ e.proofs.has p = true := by
  simp [ProofEvent.change, hl]

theorem modified_insert {l : Literal V} (hl : e.formula = .atom l)
    (hins : e.insert = true) : db.Modified e l (db.insertActual l e.proofs) := by
  have hself : ∀ k, k ≠ l.key → (db.insertActual l e.proofs).proofs k.1 k.2 = db.proofs k.1 k.2 :=
    fun k hk => by rw [proofs_insertActual, if_neg fun h => hk (Prod.ext h.1 h.2)]
  have hkey : (db.insertActual l e.proofs).proofs l.key.1 l.key.2
      = some (match db.proofs l.key.1 l.key.2 with
        | none => e.proofs
        | some qs => qs.ior e.proofs) := by
    rw [proofs_insertActual, if_pos ⟨rfl, rfl⟩]
  refine ⟨?_, fun k hk => by rw [Present, Present, hself k hk],
    fun _ => by rw [Present, hkey]; simp, fun h => by simp [hins] at h, ?_,
    fun h => by simp [hins] at h⟩
  · ext ⟨k, p⟩
    rw [Change.mem_apply, mem_change_on hl, mem_held, mem_held]
    by_cases hk : k = l.key
    · subst hk
      have hch : e.change.insert = true := hins
      simp only [hkey, true_and, hch, and_true, Option.some.injEq, exists_eq_left']
      cases db.proofs l.key.1 l.key.2 with
      | none => simp
      | some qs =>
        simp only [ProofCollection.has_ior, Option.some.injEq, exists_eq_left', Bool.not_eq_true]
        cases e.proofs.has p <;> simp
    · simp [hself k hk, hk]
  · intro derived hs he table values ps hps
    by_cases hk : (table, values) = l.key
    · obtain ⟨rfl, rfl⟩ := Prod.mk.inj hk
      have hps : (db.insertActual l e.proofs).proofs l.key.1 l.key.2 = some ps := hps
      rw [hkey, Option.some.injEq] at hps
      subst hps
      cases hold : db.proofs l.key.1 l.key.2 with
      | none => exact he
      | some qs =>
        have hqs := hs _ _ qs hold
        by_cases hd : derived l.table.table
        · have hne : qs ≠ [] := fun h => (hqs.1 h) hd
          simp [ProofCollection.ior_ne_nil hne, hd]
        · rw [hqs.2 hd, he.2 hd]
          simp [ProofCollection.ior, hd]
    · rw [hself (table, values) hk] at hps
      exact hs _ _ ps hps

theorem modified_delete {l : Literal V} (hl : e.formula = .atom l)
    (hins : e.insert = false) {qs : ProofCollection V}
    (hqs : db.proofs l.key.1 l.key.2 = some qs) : db.Modified e l (db.deleteActual l e.proofs) := by
  have hself : ∀ k, k ≠ l.key → (db.deleteActual l e.proofs).proofs k.1 k.2 = db.proofs k.1 k.2 :=
    fun k hk => by rw [proofs_deleteActual, if_neg fun h => hk (Prod.ext h.1 h.2)]
  have hkey : (db.deleteActual l e.proofs).proofs l.key.1 l.key.2
      = if (qs.isub e.proofs).isEmpty then none else some (qs.isub e.proofs) := by
    rw [proofs_deleteActual, if_pos ⟨rfl, rfl⟩, hqs]
    rfl
  refine ⟨?_, fun k hk => by rw [Present, Present, hself k hk],
    fun h => by simp [hins] at h, fun _ _ => by simp [Present, hqs], ?_, fun _ hbase hps => ?_⟩
  · ext ⟨k, p⟩
    rw [Change.mem_apply, mem_change_on hl, mem_held, mem_held]
    by_cases hk : k = l.key
    · subst hk
      have hch : e.change.insert = false := hins
      simp only [hkey, hqs, true_and, hch, Bool.false_eq_true, and_false, false_or,
        Option.some.injEq, exists_eq_left', Bool.not_eq_true]
      rw [and_comm, ← ProofCollection.has_isub]
      cases hr : qs.isub e.proofs with
      | nil => simp [ProofCollection.has]
      | cons => simp
    · simp [hself k hk, hk]
  · intro derived hs he table values ps hps
    by_cases hk : (table, values) = l.key
    · obtain ⟨rfl, rfl⟩ := Prod.mk.inj hk
      have hps : (db.deleteActual l e.proofs).proofs l.key.1 l.key.2 = some ps := hps
      rw [hkey] at hps
      have hqs := hs _ _ qs hqs
      by_cases hd : derived l.table.table
      · split_ifs at hps with hr
        cases hps
        simpa [hd] using hr
      · rw [hqs.2 hd] at hps
        simp [ProofCollection.isub] at hps
    · rw [hself (table, values) hk] at hps
      exact hs _ _ ps hps
  · rw [hbase, Option.some.injEq] at hqs
    rw [Present, hkey, ← hqs]
    simp [ProofCollection.isub]

theorem modified_noop {l : Literal V} (hl : e.formula = .atom l)
    (hunif : e.change.Uniform db.held) (hnoop : db.isNoop l e.insert e.proofs = true) :
    db.Modified e l db := by
  rw [isNoop_iff] at hnoop
  refine ⟨?_, fun _ _ => .rfl, fun hins => ?_, fun _ h => h, fun _ h _ => h, fun hins hb hps => ?_⟩
  · ext ⟨k, p⟩
    rw [Change.mem_apply, mem_change_on hl]
    cases hins : e.insert with
    | true =>
      obtain ⟨qs, hqs, hle⟩ := hnoop.1 hins
      have hch : e.change.insert = true := hins
      rw [hch]
      refine ⟨fun h => (em _).imp (⟨·, rfl⟩) (⟨·, h⟩), ?_⟩
      rintro (⟨⟨rfl, hp⟩, -⟩ | ⟨-, h⟩)
      · exact ⟨qs, hqs, ProofCollection.le_iff.1 hle p hp⟩
      · exact h
    | false =>
      have hch : e.change.insert = false := hins
      have hdisj : Disjoint e.change.on db.held := by
        rcases hunif hins with hsub | hdisj
        · refine Set.disjoint_left.2 fun ⟨k, p⟩ hon _ => ?_
          obtain ⟨rfl, hp⟩ := (mem_change_on hl).1 hon
          obtain ⟨qs, hqs, -⟩ := hsub hon
          have hle : e.proofs.le qs = true := by
            refine ProofCollection.le_iff.2 fun o ho => ?_
            obtain ⟨qs', hqs', hq'⟩ := hsub ((mem_change_on hl).2 ⟨rfl, ho⟩)
            rw [hqs] at hqs'
            cases hqs'
            exact hq'
          have := hnoop.2 ⟨qs, hqs, hle⟩
          simp [hins] at this
        · exact hdisj
      rw [hch]
      simp only [Bool.false_eq_true, and_false, false_or]
      refine ⟨fun h => ⟨fun hon => ?_, h⟩, And.right⟩
      exact Set.disjoint_left.1 hdisj ((mem_change_on hl).2 hon) h
  · obtain ⟨qs, hqs, -⟩ := hnoop.1 hins
    simp [Present, Literal.key, hqs]
  · rw [hins] at hnoop
    have := hnoop.2 ⟨[], hb, by simp [hps, ProofCollection.le]⟩
    simp at this

/-- An event that deletes all or none of its proofs does what it says, and leaves other tuples
alone. -/
theorem modify_spec {l : Literal V} (hl : e.formula = .atom l)
    (hneg : l.negated = false) (hunif : e.change.Uniform db.held) :
    ∃ db' changes, db.modify e = .ok (db', changes) ∧ db.Modified e l db' := by
  rw [modify, hl]
  simp only [hneg, Bool.false_eq_true, if_false]
  split_ifs with hnoop hins
  · exact ⟨db, [], rfl, modified_noop hl hunif hnoop⟩
  · exact ⟨_, _, rfl, modified_insert hl hins⟩
  · rw [Bool.not_eq_true] at hins
    rw [isNoop_iff] at hnoop
    have hqs : ∃ qs, db.proofs l.table.table l.argumentNames = some qs ∧ e.proofs.le qs = true := by
      by_contra h
      exact hnoop (by simp [hins, h])
    obtain ⟨qs, hqs, -⟩ := hqs
    exact ⟨_, _, rfl, modified_delete hl hins hqs⟩

end Database

end Congress
