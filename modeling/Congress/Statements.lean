import Congress.Lib.Changes
import Congress.Runtime

/-!
# What policies state

What a policy holds, whatever its kind, is a set of statements: facts, and rules up to the order of
their literals. An event is a change of such a set. Tables that are defined by rules of materialized
views hold no facts of their own, so their tuples are no statements.
-/

namespace Congress

open Lib

set_option linter.unusedSectionVars false

/-- A fact of a table, or a rule for it. -/
inductive Statement (V : Type)
  | fact (table : String) (values : List V)
  | rule (table : String) (rule : Rule V)

variable {V A : Type} [DecidableEq V]

namespace Statement

/-- Rules are the same up to the order of their literals. -/
def Same : Statement V → Statement V → Prop
  | .fact table values, .fact table' values' => table = table' ∧ values = values'
  | .rule table r, .rule table' r' => table = table' ∧ r.same r' = true
  | _, _ => False

theorem Same.symm : ∀ {x y : Statement V}, x.Same y → y.Same x
  | .fact .., .fact .., h => ⟨h.1.symm, h.2.symm⟩
  | .rule .., .rule .., h => ⟨h.1.symm, Rule.same_symm h.2⟩

theorem Same.refl : ∀ x : Statement V, x.Same x
  | .fact .. => ⟨rfl, rfl⟩
  | .rule _ r => ⟨rfl, Rule.same_refl r⟩

theorem Same.trans : ∀ {x y z : Statement V}, x.Same y → y.Same z → x.Same z
  | .fact .., .fact .., .fact .., h, h' => ⟨h.1.trans h'.1, h.2.trans h'.2⟩
  | .rule .., .rule .., .rule .., h, h' => ⟨h.1.trans h'.1, Rule.same_trans h.2 h'.2⟩

/-- The insertion or the deletion of a statement. -/
def change (x : Statement V) (insert : Bool) : Lib.Change (Statement V) := ⟨insert, {y | x.Same y}⟩

theorem change_congr {x y : Statement V} (h : x.Same y) (insert : Bool) :
    x.change insert = y.change insert := by
  unfold change
  congr 1
  ext z
  exact ⟨h.symm.trans, h.trans⟩

end Statement

/-- What a rule states in a rule set: one without a body is a fact. -/
def Rule.statement (pf : Platform V) (r : Rule V) : Statement V :=
  if r.body.isEmpty then .fact r.head.table.table (pf.factValues r.head)
  else .rule r.head.table.table r

/-- The fact that is a tuple of a database. -/
def Literal.statement (l : Literal V) : Statement V := .fact l.table.table l.argumentNames

def RuleStore.statements (s : RuleStore V A) : Set (Statement V)
  | .fact table values => values ∈ s.factsOf table
  | .rule table r => ∃ r' ∈ s.rulesOf table, r'.1.same r = true

namespace Database

def statements (db : Database V) : Set (Statement V)
  | .fact table values => ∃ t ∈ db.tuples table, t.tuple = values
  | .rule _ _ => False

/-- The tuples that have proofs, which an event without proofs neither brings nor takes away. -/
def proved (db : Database V) : Set (Statement V)
  | .fact table values => ∃ t ∈ db.tuples table, t.tuple = values ∧ t.proofs ≠ []
  | .rule _ _ => False

end Database

/-- The facts of the tables in `defined`. -/
def factsIn (defined : Set String) : Set (Statement V)
  | .fact table _ => table ∈ defined
  | .rule _ _ => False

namespace MaterializedViewTheory

/-- The rules, which are not kept by tables, and the facts of tables that no rule defines. -/
def statements (defined : Set String) (th : MaterializedViewTheory V) : Set (Statement V)
  | .fact table values => table ∉ defined ∧ .fact table values ∈ th.database.statements
  | .rule _ r => ∃ r' ∈ th.deltaRules.originals, r'.same r = true

/-- What an event of the queue says. -/
def change (e : ProofEvent V) : Lib.Change (Statement V) :=
  match e.formula with
  | .atom l => l.statement.change e.insert
  | .rule r => ⟨e.insert, {x | ∃ table r', x = .rule table r' ∧ r.same r' = true}⟩

/-- The events that an event for the views puts in the queue, which have no self-joins. -/
def expand (formula : Formula V) (insert : Bool) : List (ProofEvent V) :=
  match formula with
  | .atom l => [⟨.atom l, insert, []⟩]
  | .rule r => (eliminateSelfJoins r).map fun r => ⟨.rule r, insert, []⟩

/-- The tables that rules of the views define, and those that they are going to. -/
def defined (th : MaterializedViewTheory V) : Set String :=
  {t | (∃ table, ∃ d ∈ th.deltaRules.rulesWithTrigger table, d.head.table.table = t)
    ∨ ∃ e ∈ th.queue, (∃ r, e.formula = .rule r ∧ r.head.table.table = t)
      ∨ e.proofs ≠ [] ∧ ∃ l, e.formula = .atom l ∧ l.table.table = t}

/-- The tables that the rules in a batch of events define. -/
def definedBy (events : List (AnnotatedEvent V A)) : Set String :=
  {t | ∃ e ∈ events, ∃ r, e.formula = .rule r ∧ ∃ r' ∈ eliminateSelfJoins r, r'.head.table.table = t}

/-- What no event can bring or take away, or what is no statement. -/
def fixed (defined : Set String) (th : MaterializedViewTheory V) : Set (Statement V) :=
  th.database.proved ∪ factsIn defined

end MaterializedViewTheory

namespace PolicyData

/-- The tables that rules define, among them those in a batch of events. -/
def defined (d : PolicyData V A) (events : List (AnnotatedEvent V A)) : Set String :=
  match d with
  | .materialized th => th.defined ∪ MaterializedViewTheory.definedBy events
  | _ => ∅

def statements (defined : Set String) : PolicyData V A → Set (Statement V)
  | .rules _ store => store.statements
  | .database db => db.statements
  | .materialized th => th.statements defined

/-- What an event says of a policy; what is not datalog says nothing. -/
def changes (pf : Platform V) (d : PolicyData V A) (e : AnnotatedEvent V A) :
    List (Lib.Change (Statement V)) :=
  if e.formula.isDatalog then
    match d with
    | .rules _ _ => [(e.formula.asRule.statement pf).change e.insert]
    | .database _ =>
      match e.formula with
      | .atom l => [l.statement.change e.insert]
      | .rule _ => []
    | .materialized _ =>
      (MaterializedViewTheory.expand e.formula e.insert).map MaterializedViewTheory.change
  else []

/-- What is left in the queue of materialized views by a call that failed. -/
def pending : PolicyData V A → List (Lib.Change (Statement V))
  | .materialized th => th.queue.map MaterializedViewTheory.change
  | _ => []

def fixed (defined : Set String) : PolicyData V A → Set (Statement V)
  | .rules _ _ => ∅
  | .database db => db.proved
  | .materialized th => th.fixed defined

end PolicyData

namespace PolicyMap

/-- What a policy holds. -/
def data (ps : PolicyMap V A) (name : String) : Option (PolicyData V A) :=
  (ps.lookup name).map (·.data)

/-- The events as they come to each target. -/
def received (ps : PolicyMap V A) : List String → List (AnnotatedEvent V A) →
    List (String × List (AnnotatedEvent V A))
  | [], _ => []
  | name :: names, events =>
    (name, events) :: received ps names (AnnotatedEvent.leftBy (ps.data name) events)

end PolicyMap

end Congress
