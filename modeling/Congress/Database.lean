import Congress.TopDown

/-!
# Databases

A `Database` keeps the tuples of each table, and with each tuple the proofs that it was derived by;
a tuple without proofs is a base fact. Insertions add proofs, and a deletion takes proofs away and
with the last one the tuple. The order of the tables is left out.
-/

namespace Congress

set_option linter.unusedSectionVars false

/-- `Database.Proof`: an instance of a rule. The binding is a dictionary, in the order of its keys. -/
structure Proof (V : Type*) where
  binding : List (String × Term V)
  rule : Rule V

variable {V : Type*} [DecidableEq V]

/-- `__eq__`. -/
def Proof.same (p p' : Proof V) : Bool := p.binding = p'.binding && p.rule.same p'.rule

/-- The contents of a `ProofCollection`. -/
abbrev ProofCollection (V : Type*) := List (Proof V)

namespace ProofCollection

def has (ps : ProofCollection V) (p : Proof V) : Bool := ps.any (p.same ·)

/-- `__le__`. -/
def le (ps other : ProofCollection V) : Bool := ps.all other.has

/-- `__isub__`. -/
def isub (ps other : ProofCollection V) : ProofCollection V := ps.filter (! other.has ·)

/-- `__ior__`. -/
def ior (ps other : ProofCollection V) : ProofCollection V :=
  other.foldl (fun ps p => if ps.has p then ps else ps ++ [p]) ps

end ProofCollection

structure DBTuple (V : Type*) where
  tuple : List V
  proofs : ProofCollection V

/-- An event together with the proofs of its formula. -/
structure ProofEvent (V : Type*) where
  formula : Formula V
  insert : Bool
  proofs : ProofCollection V

/-- The tuples of each table, none of them twice. -/
structure Database (V : Type*) where
  data : AList fun _ : String => List (DBTuple V)
  unique : ∀ table, (((data.lookup table).getD []).map (·.tuple)).Nodup

/-- `argument_names`; the atoms that come to a database are ground. -/
def Literal.argumentNames (l : Literal V) : List V :=
  l.arguments.filterMap fun
    | .object v => some v
    | .variable _ => none

namespace Database

def empty : Database V := ⟨∅, by simp⟩

def tuples (db : Database V) (table : String) : List (DBTuple V) := (db.data.lookup table).getD []

theorem nodup_tuples (db : Database V) (table : String) : ((db.tuples table).map (·.tuple)).Nodup :=
  db.unique table

def setTable (db : Database V) (table : String) (ts : List (DBTuple V))
    (h : (ts.map (·.tuple)).Nodup) : Database V where
  data := db.data.insert table ts
  unique k := by
    by_cases hk : k = table
    · subst hk
      simpa using h
    · simpa [AList.lookup_insert_ne hk] using db.unique k

/-- `__contains__` of an atom. -/
def contains (db : Database V) (atom : Literal V) : Bool :=
  (db.tuples atom.table.table).any (·.tuple = atom.argumentNames)

def isNoop (db : Database V) (atom : Literal V) (insert : Bool) (proofs : ProofCollection V) : Bool :=
  let found := (db.tuples atom.table.table).any fun t =>
    t.tuple = atom.argumentNames && proofs.le t.proofs
  if insert then found else !found

/-- The loop of `insert_actual`. -/
def insertTuple (values : List V) (proofs : ProofCollection V) : List (DBTuple V) → List (DBTuple V)
  | [] => [⟨values, proofs⟩]
  | t :: ts =>
    if t.tuple = values then { t with proofs := t.proofs.ior proofs } :: ts
    else t :: insertTuple values proofs ts

/-- The loop of `delete_actual`. -/
def deleteTuple (values : List V) (proofs : ProofCollection V) : List (DBTuple V) → List (DBTuple V)
  | [] => []
  | t :: ts =>
    if t.tuple = values then
      let remaining := t.proofs.isub proofs
      if remaining.isEmpty then ts else { t with proofs := remaining } :: ts
    else t :: deleteTuple values proofs ts

section

variable {values v : List V} {ps : ProofCollection V}

theorem mem_insertTuple : ∀ {ts : List (DBTuple V)},
    v ∈ (insertTuple values ps ts).map (·.tuple) ↔ v = values ∨ v ∈ ts.map (·.tuple)
  | [] => by simp [insertTuple]
  | t :: ts => by
    rw [insertTuple]
    split_ifs with ht
    · simp [ht]
    · rw [List.map_cons, List.mem_cons, mem_insertTuple, List.map_cons, List.mem_cons]
      tauto

theorem nodup_insertTuple : ∀ {ts : List (DBTuple V)}, (ts.map (·.tuple)).Nodup →
    ((insertTuple values ps ts).map (·.tuple)).Nodup
  | [], _ => by simp [insertTuple]
  | t :: ts, h => by
    rw [List.map_cons, List.nodup_cons] at h
    rw [insertTuple]
    split_ifs with ht
    · rw [List.map_cons, List.nodup_cons]
      exact h
    · rw [List.map_cons, List.nodup_cons, mem_insertTuple]
      exact ⟨not_or.2 ⟨ht, h.1⟩, nodup_insertTuple h.2⟩

theorem deleteTuple_sublist : ∀ {ts : List (DBTuple V)},
    ((deleteTuple values ps ts).map (·.tuple)).Sublist (ts.map (·.tuple))
  | [] => .refl _
  | t :: ts => by
    rw [deleteTuple]
    split_ifs with ht
    · dsimp only
      split
      · exact List.sublist_cons_self ..
      · exact .refl _
    · exact deleteTuple_sublist.cons_cons _

end

def insertActual (db : Database V) (atom : Literal V) (proofs : ProofCollection V) : Database V :=
  let table := atom.table.table
  db.setTable table (insertTuple atom.argumentNames proofs (db.tuples table))
    (nodup_insertTuple (db.nodup_tuples table))

def deleteActual (db : Database V) (atom : Literal V) (proofs : ProofCollection V) : Database V :=
  let table := atom.table.table
  if table ∈ db.data then
    db.setTable table (deleteTuple atom.argumentNames proofs (db.tuples table))
      (deleteTuple_sublist.nodup (db.nodup_tuples table))
  else db

/-- `modify`, with the events that were no noops. -/
def modify (db : Database V) (e : ProofEvent V) : Outcome (Database V × List (ProofEvent V)) :=
  match e.formula with
  | .rule _ => .error .assertionError
  | .atom atom =>
    if atom.negated then .error .assertionError
    else if db.isNoop atom e.insert e.proofs then pure (db, [])
    else if e.insert then pure (db.insertActual atom e.proofs, [e])
    else pure (db.deleteActual atom e.proofs, [e])

/-- A database as far as evaluation sees it. -/
def toTopDown (db : Database V) (name : String) : TopDownTheory V :=
  ⟨name, fun table _ => some ((db.tuples table).map fun t => .tuple t.tuple), []⟩

end Database

end Congress
