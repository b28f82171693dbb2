import Congress.Lib.Grouped
import Congress.LiteralOrder
import Congress.Materialized
import Congress.Proofs.RuleEquality

/-!
# Delta rules

A `DeltaRuleTheory` with all that it keeps along with its rules, and all the ways in which inserting or
deleting a rule can fail: the literals of a body are sorted by `__lt__`, a rule is sought in the set of
rules by its hash, and deleting a delta rule looks up the rules of its trigger.
-/

namespace Congress

open Lib Function

namespace DeltaRule

/-- `tablenames`. -/
def tablenames {V : Type*} (delta : DeltaRule V) : List String :=
  ((delta.head :: delta.trigger :: delta.body).map (·.tablename none)).dedup

/-- The constructor. -/
def make (reg : BuiltinRegistry ObjectConstant) (trigger head : Literal ObjectConstant)
    (body : List (Literal ObjectConstant)) (original : Rule ObjectConstant) :
    Outcome (DeltaRule ObjectConstant) := do
  let ordinary ← sorted Literal.lt (body.filter fun l => !l.isBuiltin reg true)
  let builtins ← sorted Literal.lt (body.filter fun l => l.isBuiltin reg true)
  pure ⟨trigger, head, ordinary ++ builtins, original⟩

end DeltaRule

/-- `is_regular_rule`. -/
def Rule.isRegular {V : Type*} (rule : Rule V) : Bool := rule.moreHeads.isEmpty && !rule.head.negated

namespace DeltaRules

variable (reg : BuiltinRegistry ObjectConstant)

/-- The loop of `compute_delta_rules` over the literals from the `i`th on of a rule that has been
reordered. -/
def computeFrom (rule : Rule ObjectConstant) :
    ℕ → List (Literal ObjectConstant) → Outcome (List (DeltaRule ObjectConstant))
  | _, [] => .ok []
  | i, literal :: literals =>
    if literal.isBuiltin reg true then computeFrom rule (i + 1) literals
    else do
      let delta ← DeltaRule.make reg literal rule.head (rule.body.eraseIdx i) rule
      let deltas ← computeFrom rule (i + 1) literals
      pure (delta :: deltas)

/-- `compute_delta_rules` of one rule, and the rule, which is reordered in place. -/
def compute (rule : Rule ObjectConstant) :
    Outcome (Rule ObjectConstant × List (DeltaRule ObjectConstant)) :=
  match reorderForSafety reg rule with
  | none => .error .policyException
  | some rule => do
    let deltas ← computeFrom reg rule 0 rule.body
    pure (rule, deltas)

/-- The attributes of a `DeltaRuleTheory`. -/
structure Theory where
  rules : String → Option (List (DeltaRule ObjectConstant))
  originals : List (Rule ObjectConstant)
  views : String → Option ℕ
  allTables : String → Option ℕ

namespace Theory

def empty : Theory := ⟨fun _ => none, [], fun _ => none, fun _ => none⟩

/-- `insert_delta`; a set of rules does not take in one that it has. -/
def insertDelta (th : Theory) (delta : DeltaRule ObjectConstant) : Theory :=
  let rules := (th.rules delta.trigger.table.table).getD []
  { th with
    views := increment th.views delta.head.table.table
    allTables := delta.tablenames.foldl increment th.allTables
    rules := update th.rules delta.trigger.table.table
      (some (if rules.any (·.same delta) then rules else rules ++ [delta])) }

/-- `delete_delta`. -/
def deleteDelta (th : Theory) (delta : DeltaRule ObjectConstant) : Outcome Theory :=
  match th.rules delta.trigger.table.table with
  | none => .error .keyError
  | some rules =>
    .ok { th with
      views := decrement th.views delta.head.table.table
      allTables := delta.tablenames.foldl decrement th.allTables
      rules := update th.rules delta.trigger.table.table
        (if rules.eraseP (·.same delta) = [] then none else some (rules.eraseP (·.same delta))) }

variable (H : Hashes)

/-- `insert`, which returns whether the theory has changed. -/
def insert (th : Theory) (rule : Rule ObjectConstant) : Outcome (Theory × Bool) :=
  if rule.isRegular then do
    match ← splitAtMember H rule (← rule.hash H) th.originals with
    | some _ => pure (th, false)
    | none =>
      let (rule, deltas) ← compute reg rule
      pure ({ deltas.foldl insertDelta th with originals := th.originals ++ [rule] }, true)
  else .error .assertionError

/-- `delete`. -/
def delete (th : Theory) (rule : Rule ObjectConstant) : Outcome (Theory × Bool) := do
  match ← splitAtMember H rule (← rule.hash H) th.originals with
  | none => pure (th, false)
  | some (before, after) =>
    let (_, deltas) ← compute reg rule
    let th ← deltas.foldlM deleteDelta th
    pure ({ th with originals := before ++ after }, true)

/-- Insertions, marked `true`, and deletions, one after the other. -/
def changeAll : Theory → List (Rule ObjectConstant × Bool) → Outcome Theory
  | th, [] => .ok th
  | th, (rule, insertion) :: changes => do
    let (th, _) ← if insertion then th.insert reg H rule else th.delete reg H rule
    changeAll th changes

/-- A theory that is freshly built from some rules. -/
def build (rules : List (Rule ObjectConstant)) : Outcome Theory :=
  changeAll reg H empty (rules.map (·, true))

/-- `is_view`. -/
def isView (th : Theory) (table : String) : Bool := (th.views table).isSome

end Theory

/-- Which rules remain of those that were there, in the order of their insertion. -/
def remaining : List (Rule ObjectConstant) → List (Rule ObjectConstant × Bool) → List (Rule ObjectConstant)
  | rules, [] => rules
  | rules, (rule, true) :: changes =>
    remaining (if rules.any (·.same rule) then rules
      else rules ++ [(reorderForSafety reg rule).getD rule]) changes
  | rules, (rule, false) :: changes => remaining (rules.eraseP (·.same rule)) changes

/-- A regular rule that can be reordered, any two literals of which can be compared, with no literal but
a builtin twice. -/
structure Plain (rule : Rule ObjectConstant) : Prop where
  regular : rule.isRegular = true
  safe : reorderForSafety reg rule ≠ none
  comparable : ∀ l ∈ rule.body, ∀ l' ∈ rule.body, l.Comparable l'
  distinct : (rule.body.filter fun l => !l.isBuiltin reg true).Nodup

end DeltaRules

end Congress
