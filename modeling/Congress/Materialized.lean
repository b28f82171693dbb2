import Mathlib.Data.List.Sort
import Mathlib.Data.Prod.Lex
import Mathlib.Data.String.Basic
import Mathlib.Order.WithBot
import Congress.Database
import Congress.Lib.Stateful
import Congress.Proofs.Reordering

/-!
# Materialized views

A `MaterializedViewTheory` keeps the tables that its rules define in a database. An event is first
propagated, then applied: each delta rule that has the event's table as its trigger is evaluated,
and gives events for the table in its head, which go to the end of the queue. An event for a rule
changes the delta rules, and all instances of the rule go to the queue.
-/

namespace Congress

set_option linter.unusedSectionVars false

variable {V : Type*} [DecidableEq V]

/-- A rule that says how changes of the trigger's table change that of the head. -/
structure DeltaRule (V : Type*) where
  trigger : Literal V
  head : Literal V
  body : List (Literal V)
  original : Rule V

/-- What literals of a body are sorted by: they have no modals, and no two of them have the same
table and the same number of arguments, so that arguments are not compared. -/
def Literal.sortKey (l : Literal V) : WithBot String ×ₗ String ×ₗ Bool ×ₗ ℕ :=
  toLex (l.table.service, toLex (l.table.table, toLex (l.negated, l.arguments.length)))

def sortLiterals (ls : List (Literal V)) : List (Literal V) :=
  ls.insertionSort fun l l' => l.sortKey ≤ l'.sortKey

namespace DeltaRule

/-- `__eq__`. -/
def same (d d' : DeltaRule V) : Bool :=
  d.trigger = d'.trigger && d.head = d'.head && d.body = d'.body

/-- The constructor sorts the body, builtins last. -/
def create (reg : BuiltinRegistry V) (trigger head : Literal V) (body : List (Literal V))
    (original : Rule V) : DeltaRule V where
  trigger := trigger
  head := head
  body := sortLiterals (body.filter fun l => !l.isBuiltin reg true)
    ++ sortLiterals (body.filter fun l => l.isBuiltin reg true)
  original := original

end DeltaRule

/-- `variables`, as the keys of a dictionary. -/
def sortedNames (ls : List (Literal V)) : List String := (variableNames ls).insertionSort (· ≤ ·)

/-- `compute_delta_rules` of a rule that has been reordered. -/
def Rule.deltaRules (reg : BuiltinRegistry V) (rule : Rule V) : List (DeltaRule V) :=
  rule.body.zipIdx.filterMap fun (literal, i) =>
    if literal.isBuiltin reg true then none
    else some (.create reg literal rule.head (rule.body.eraseIdx i) rule)

/-- The delta rules by the tables of their triggers, and the rules that they come from. -/
structure DeltaRuleTheory (V : Type*) [DecidableEq V] where
  rules : AList fun _ : String => List (DeltaRule V)
  originals : List (Rule V)
  views : String → ℕ
  distinct : originals.Pairwise fun r r' => r.same r' = false

namespace DeltaRuleTheory

def empty : DeltaRuleTheory V := ⟨∅, [], fun _ => 0, .nil⟩

def insertDelta (th : DeltaRuleTheory V) (delta : DeltaRule V) : DeltaRuleTheory V :=
  let table := delta.trigger.table.table
  let rules := (th.rules.lookup table).getD []
  { th with
    views := Function.update th.views delta.head.table.table (th.views delta.head.table.table + 1)
    rules := th.rules.insert table (if rules.any (·.same delta) then rules else rules ++ [delta]) }

/-- The delta rules of a rule that is there are there. -/
def deleteDelta (th : DeltaRuleTheory V) (delta : DeltaRule V) : DeltaRuleTheory V :=
  let table := delta.trigger.table.table
  let rules := ((th.rules.lookup table).getD []).eraseP (·.same delta)
  { th with
    views := Function.update th.views delta.head.table.table (th.views delta.head.table.table - 1)
    rules := if rules.isEmpty then th.rules.erase table else th.rules.insert table rules }

/-- `__contains__`. -/
def contains (th : DeltaRuleTheory V) (rule : Rule V) : Bool := th.originals.any (·.same rule)

theorem same_of_not_contains {th : DeltaRuleTheory V} {reg : BuiltinRegistry V} {rule rule' : Rule V}
    (h : th.contains rule = false) (hr : reorderForSafety reg rule = some rule') :
    ∀ r ∈ th.originals, r.same rule' = false := by
  rw [contains, List.any_eq_false] at h
  intro r hmem
  refine Bool.eq_false_iff.2 fun hsame => h r hmem ?_
  exact Rule.same_trans hsame (Rule.same_symm (reorderForSafety_same hr))

/-- `modify`: what it changes the theory to, unless it changes nothing, and the rule, reordered. -/
def modify (reg : BuiltinRegistry V) (th : DeltaRuleTheory V) (rule : Rule V) (insert : Bool) :
    Outcome (Option (DeltaRuleTheory V × Rule V)) :=
  if hnoop : insert = th.contains rule then pure none
  else
    match hr : reorderForSafety reg rule with
    | none => .error .policyException
    | some rule' =>
      let deltas := rule'.deltaRules reg
      if hins : insert = true then
        pure (some ({ deltas.foldl insertDelta th with
          originals := th.originals ++ [rule']
          distinct := List.pairwise_append.2 ⟨th.distinct, List.pairwise_singleton .., by
            simpa using same_of_not_contains (by simpa [hins] using hnoop) hr⟩ }, rule'))
      else
        pure (some ({ deltas.foldl deleteDelta th with
          originals := th.originals.eraseP (·.same rule')
          distinct := th.distinct.sublist List.eraseP_sublist }, rule'))

def rulesWithTrigger (th : DeltaRuleTheory V) (table : String) : List (DeltaRule V) :=
  (th.rules.lookup table).getD []

def isView (th : DeltaRuleTheory V) (table : String) : Bool := th.views table ≠ 0

end DeltaRuleTheory

/-- `new_table_name`. -/
def newTableName (name : String) (arity index : ℕ) : String :=
  "___" ++ name ++ "_" ++ toString arity ++ "_" ++ toString index

/-- The rule for an auxiliary table. -/
def auxiliaryRule (table : String) (arity index : ℕ) : Rule V :=
  let args := (List.range arity).map fun i => .variable ("x" ++ toString i)
  ⟨⟨parseServiceTable (newTableName table arity index), args, false, []⟩, [],
    [⟨parseServiceTable table, args, false, []⟩]⟩

/-- The table and the number of arguments of a literal. -/
def Literal.tableArity (l : Literal V) : String × ℕ := (l.tablename none, l.arguments.length)

/-- The body with the further occurrences of a table renamed, after the occurrences in `seen`. -/
def renameSelfJoins : List (String × ℕ) → List (Literal V) → List (Literal V)
  | _, [] => []
  | seen, l :: ls =>
    let n := seen.count l.tableArity
    (if n = 0 then l
      else { l with table.table := newTableName (l.tablename none) l.arguments.length n })
      :: renameSelfJoins (seen ++ [l.tableArity]) ls

/-- `eliminate_self_joins` of a rule: the rule and the rules for the auxiliary tables. -/
def eliminateSelfJoins (rule : Rule V) : List (Rule V) :=
  let seen := rule.body.map Literal.tableArity
  { rule with body := renameSelfJoins [] rule.body }
    :: seen.dedup.flatMap fun (table, arity) =>
      (List.range (seen.count (table, arity) - 1)).map fun i => auxiliaryRule table arity (i + 1)

structure MaterializedViewTheory (V : Type) [DecidableEq V] where
  name : String
  queue : List (ProofEvent V)
  database : Database V
  deltaRules : DeltaRuleTheory V

namespace MaterializedViewTheory

open Lib Stateful

variable {V : Type} [DecidableEq V]

def empty (name : String) : MaterializedViewTheory V := ⟨name, [], .empty, .empty⟩

/-- The theory as far as evaluation sees it; `_top_down_th` is that of the database. -/
def toTopDown (th : MaterializedViewTheory V) : TopDownTheory V := th.database.toTopDown th.name

/-- Calls on a theory; how they fail, and what they have changed by then. -/
abbrev Run (V : Type) [DecidableEq V] := Stateful Fault (MaterializedViewTheory V)

def enqueue (events : List (ProofEvent V)) : Run V Unit :=
  modify fun th => { th with queue := th.queue ++ events }

def enqueueAny (formula : Formula V) (insert : Bool) : Run V Unit := do
  if !formula.isDatalog then fail .assertionError
  else
    match formula with
    | .atom l =>
      if (← get).deltaRules.isView l.table.table then fail .assertionError
      else enqueue [⟨formula, insert, []⟩]
    | .rule r => enqueue ((eliminateSelfJoins r).map fun r => ⟨.rule r, insert, []⟩)

/-- One more proof of an atom. -/
def addProof (atom : Literal V) (p : Proof V) :
    List (Literal V × ProofCollection V) → List (Literal V × ProofCollection V)
  | [] => [(atom, [p])]
  | (atom', ps) :: rest =>
    if atom' = atom then (atom', ps ++ [p]) :: rest else (atom', ps) :: addProof atom p rest

/-- `process_new_bindings`: one event for each distinct atom. -/
def processNewBindings (bindings : List (List (String × Term V))) (atom : Literal V) (insert : Bool)
    (original : Rule V) : List (ProofEvent V) :=
  (bindings.foldl (fun atoms b => addProof (atom.plugDict b) ⟨b, original⟩ atoms) []).map
    fun (atom, proofs) => ⟨.atom atom, insert, proofs⟩

section

variable (reg : BuiltinRegistry V) (theories : Theories V)
  (setOrder : List (TopDownResult V) → List (TopDownResult V))

/-- `top_down_evaluation` with a unifier that has some bindings; the results come in the order of a
set. -/
def evaluation (fuel : ℕ) (self : TopDownTheory V) (names : List String) (literals : List (Literal V))
    (bindings : Bindings V) (unifiers : ℕ) : Outcome (List (List (String × Term V))) := do
  let caller : Caller V := ⟨names, 0, true, none⟩
  let (_, s) ← TopDown.proveBody (TopDown.eval reg theories fuel caller) caller self literals 0 []
    ⟨bindings, unifiers, [], []⟩
  pure ((setOrder s.results).map (·.binding))

/-- `propagate_rule`: the events it enqueues. -/
def propagateRule (fuel : ℕ) (th : MaterializedViewTheory V) (atom : Literal V) (insert : Bool)
    (delta : DeltaRule V) : Outcome (List (ProofEvent V)) :=
  match Bindings.biUnifyAtoms [] delta.trigger 0 atom 1 (some th.name) with
  | (_, none) => pure []
  | (h, some _) => do
    let bindings ← evaluation reg theories setOrder fuel th.toTopDown
      (sortedNames (delta.trigger :: delta.head :: delta.body)) delta.body h 2
    pure (processNewBindings bindings delta.head (insert != delta.trigger.negated) delta.original)

/-- `propagate`, over the delta rules for the atom. -/
def propagate (fuel : ℕ) (atom : Literal V) (insert : Bool) : List (DeltaRule V) → Run V Unit
  | [] => pure ()
  | delta :: deltas => do
    let th ← get
    enqueue (← lift (propagateRule reg theories setOrder fuel th atom insert delta))
    propagate fuel atom insert deltas

/-- The body of the loop of `process_queue`, which returns what is added to the history. -/
def processEvent (fuel : ℕ) (e : ProofEvent V) : Run V (List (ProofEvent V)) := do
  let th ← get
  match e.formula with
  | .rule rule =>
    match ← lift (th.deltaRules.modify reg rule e.insert) with
    | none => pure []
    | some (deltaRules, rule) =>
      modify fun th => { th with deltaRules := deltaRules }
      let bindings ← lift (evaluation reg theories setOrder fuel th.toTopDown
        (sortedNames (rule.heads ++ rule.body)) rule.body [] 1)
      enqueue (processNewBindings bindings rule.head e.insert rule)
      pure [e]
  | .atom atom =>
    propagate reg theories setOrder fuel atom e.insert
      (th.deltaRules.rulesWithTrigger atom.table.table)
    let (database, changes) ← lift (th.database.modify e)
    modify fun th => { th with database := database }
    pure changes

/-- `process_queue`, for at most `n` events, with fuel for each evaluation. -/
def processQueue (fuel : ℕ) : ℕ → Run V (List (ProofEvent V))
  | 0 => fail .outOfFuel
  | n + 1 => do
    match (← get).queue with
    | [] => pure []
    | e :: queue =>
      modify fun th => { th with queue := queue }
      let changes ← processEvent reg theories setOrder fuel e
      let history ← processQueue fuel n
      pure (changes ++ history)

/-- The loop of `update`. -/
def enqueueAll : List (Formula V × Bool) → Run V Unit
  | [] => pure ()
  | (formula, insert) :: events => do
    enqueueAny formula insert
    enqueueAll events

/-- `update`, which returns the events that were no noops. -/
def update (fuel n : ℕ) (events : List (Formula V × Bool)) : Run V (List (ProofEvent V)) := do
  enqueueAll events
  processQueue reg theories setOrder fuel n

end

end MaterializedViewTheory

end Congress
