import Congress.Materialized

/-!
# Explanations of materialized views

`explain` builds a tree from the proofs that are stored with the tuples: the children of a tuple are the
literals of the rule instance that is its first proof. A negated literal has no children, nor has a base
fact, and an atom of a table that the database does not have is taken for one.
-/

namespace Congress

open Lib

set_option linter.unusedSectionVars false

/-- `base.Proof`. -/
inductive ProofTree (V : Type)
  | node (root : Literal V) (children : List (ProofTree V))

def ProofTree.root {V : Type} : ProofTree V → Literal V
  | .node root _ => root

variable {V : Type} [DecidableEq V]

/-- `Database.explain`: the proofs of an atom. -/
def Database.explain (db : Database V) (atom : Literal V) : Option (ProofCollection V) :=
  if atom.table.table ∉ db.data ∨ atom.isGround = false then some []
  else ((db.tuples atom.table.table).find? (·.tuple = atom.argumentNames)).map (·.proofs)

/-- The loop of `explain_aux` over the body of an instance. -/
def explainBody (explain : Literal V → Outcome (Option (ProofTree V))) :
    List (Literal V) → Outcome (Option (List (ProofTree V)))
  | [] => pure (some [])
  | l :: ls => do
    match ← explain l with
    | none => pure none
    | some tree =>
      match ← explainBody explain ls with
      | none => pure none
      | some trees => pure (some (tree :: trees))

namespace MaterializedViewTheory

/-- `explain_aux`. -/
def explainAux (th : MaterializedViewTheory V) : ℕ → Literal V → Outcome (Option (ProofTree V))
  | 0, _ => .error .outOfFuel
  | fuel + 1, query =>
    if query.negated then pure (some (.node query []))
    else
      match th.database.explain query with
      | none => pure none
      | some [] => pure (some (.node query []))
      | some (proof :: _) => do
        match ← explainBody (explainAux th fuel) (proof.rule.body.map (·.plugDict proof.binding)) with
        | none => pure none
        | some trees => pure (some (.node query trees))

/-- `explain`. -/
def explain (th : MaterializedViewTheory V) (fuel : ℕ) (query : Formula V) :
    Outcome (Option (List (ProofTree V))) :=
  match query with
  | .rule _ => .error .assertionError
  | .atom l =>
    if l.negated then .error .assertionError
    else do
      match ← th.explainAux fuel l with
      | none => pure none
      | some proof => pure (some [proof])

end MaterializedViewTheory

end Congress
