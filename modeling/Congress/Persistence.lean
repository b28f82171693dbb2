import Congress.DseRuntime

/-!
# Persistent rules

Rules are put into the engine and then written to the database. If one of them cannot be written the
engine is to give up all of them.
-/

namespace Congress

open Lib Stateful

/-- What comes with a rule. -/
structure RuleInfo where
  id : String
  name : Option String
  comment : String
  originalStr : String
  deriving DecidableEq, Inhabited

/-- A rule as it is given to `persistent_insert_rules`. -/
structure RuleData where
  rule : String
  name : Option String
  comment : Option String

/-- What the call meets outside of the engine: the name that the database has for the policy, new ids,
the parser, whether a rule can be written and the transaction be committed, and what comes with
formulas of materialized views, which are kept without it. -/
structure Persistence (V : Type) where
  policyName : Outcome String
  uuid : ℕ → String
  parse : String → Outcome (List (Formula V))
  addPolicyRule : RuleInfo → Option Fault
  commit : Option Fault
  viewInfo : ProofEvent V → Option RuleInfo

/-! ## Printing rules -/

namespace Python

/-- `isspace`. -/
def isSpace (c : Char) : Bool :=
  let n := c.toNat
  (9 ≤ n && n ≤ 13) || (28 ≤ n && n ≤ 32) || n = 0x85 || n = 0xA0 || n = 0x1680
    || (0x2000 ≤ n && n ≤ 0x200A) || n = 0x2028 || n = 0x2029 || n = 0x202F || n = 0x205F
    || n = 0x3000

/-- The characters that lines end with. -/
def isLineBreak (c : Char) : Bool :=
  let n := c.toNat
  (10 ≤ n && n ≤ 13) || (28 ≤ n && n ≤ 30) || n = 0x85 || n = 0x2028 || n = 0x2029

def strip (cs : List Char) : List Char :=
  ((cs.dropWhile isSpace).reverse.dropWhile isSpace).reverse

/-- `splitlines`; between the two characters of a line break there is an empty line. -/
def splitLines : List Char → List (List Char)
  | [] => [[]]
  | c :: cs =>
    match splitLines cs with
    | [] => [[c]]
    | line :: lines => if isLineBreak c then [] :: line :: lines else (c :: line) :: lines

/-- `split`, where so many characters still belong to the last separator. -/
def splitFrom (sep : List Char) : ℕ → List Char → List (List Char)
  | _, [] => [[]]
  | n + 1, _ :: cs => splitFrom sep n cs
  | 0, c :: cs =>
    if sep.isPrefixOf (c :: cs) then [] :: splitFrom sep (sep.length - 1) cs
    else
      match splitFrom sep 0 cs with
      | [] => [[c]]
      | piece :: pieces => (c :: piece) :: pieces

def split (sep : String) (cs : List Char) : List (List Char) := splitFrom sep.toList 0 cs

end Python

open Python in
/-- A literal of a body without the comma before it and the parenthesis behind it. -/
def prettyLiteral : List Char → Outcome String
  | [] => .error .indexError
  | ',' :: cs => pure ("  " ++ String.ofList (strip cs) ++ ")")
  | cs => pure ("  " ++ String.ofList (strip cs) ++ ")")

def prettyLiterals : List (List Char) → Outcome (List String)
  | [] => pure []
  | literal :: literals => do
    let pretty ← prettyLiteral literal
    let rest ← prettyLiterals literals
    pure (pretty :: rest)

open Python in
/-- `pretty_rule`. -/
def prettyRule (rule : String) : Outcome String := do
  let text := ((splitLines (strip rule.toList)).map strip).flatten
  match ((split ":-" text).map strip).filter (!·.isEmpty) with
  | [] => .error .indexError
  | [head] => pure (String.ofList head)
  | head :: body :: _ =>
    let literals ← prettyLiterals (split ")" body).dropLast
    pure (String.ofList head ++ " :-\n" ++ ",\n".intercalate literals)

example : prettyRule "p(x) :- q(x),r(x)" = .ok "p(x) :-\n  q(x),\n  r(x)" := rfl

example : prettyRule "p(x) :- q(x, '))')" = .error .indexError := rfl

/-! ## Inserting rules -/

variable {V : Type} [DecidableEq V]

namespace Persistence

/-- The rules that strings are parsed to, the first one with that id. -/
def parseRules (db : Persistence V) : ℕ → List RuleData → Outcome (List (Formula V × RuleInfo))
  | _, [] => pure []
  | n, data :: rules => do
    match ← db.parse data.rule with
    | [] => .error .policyException
    | [rule] =>
      let rest ← parseRules db (n + 1) rules
      pure ((rule, ⟨db.uuid n, data.name, data.comment.getD "", data.rule⟩) :: rest)
    | _ => .error .congressException

def infoOf (db : Persistence V) : PolicyMap.Changed V RuleInfo → Option RuleInfo
  | .event e => some e.info
  | .view e => db.viewInfo e

/-- What is written to the database for each change, and what is returned. -/
def prepare (db : Persistence V) : List (PolicyMap.Changed V RuleInfo) →
    Outcome (List (RuleInfo × String))
  | [] => pure []
  | change :: changes => do
    match db.infoOf change with
    | none => .error .attributeError
    | some info =>
      let pretty ← prettyRule info.originalStr
      let rest ← prepare db changes
      pure ((info, pretty) :: rest)

/-- The loop over `add_policy_rule`. -/
def addPolicyRules (db : Persistence V) : List RuleInfo → Outcome Unit
  | [] => pure ()
  | info :: infos =>
    match db.addPolicyRule info with
    | some fault => .error fault
    | none => addPolicyRules db infos

end Persistence

namespace DseRuntime

/-- The events for rules of one policy. -/
def ruleEvents (rules : List (Formula V × RuleInfo)) (name : String) (insert : Bool) :
    List (AnnotatedEvent V RuleInfo) :=
  rules.map fun (formula, info) => ⟨⟨formula, insert, some name⟩, info⟩

/-- `_safe_process_policy_update`. -/
def safeProcessPolicyUpdate (host : Host V RuleInfo) (net : Network V)
    (rules : List (Formula V × RuleInfo)) (name : String) (insert persistent : Bool) :
    Run V RuleInfo (List (PolicyMap.Changed V RuleInfo)) := do
  if name ∉ (← get).theory then fail .congressException
  else
    match ← processPolicyUpdate host net (ruleEvents rules name insert) persistent with
    | .permitted changes => pure changes
    | .rejected _ => fail .policyException

/-- `uninsert_rules`, which looks for an item in the first rule; rules have none. -/
def uninsertRules : List (PolicyMap.Changed V RuleInfo) → Run V RuleInfo Unit
  | [] => pure ()
  | _ :: _ => fail .typeError

/-- What `persistent_insert_rules` does once the engine has changed. -/
def persistChanges (db : Persistence V) (rules : List RuleData)
    (changes : List (PolicyMap.Changed V RuleInfo)) : Run V RuleInfo (List (RuleInfo × String)) := do
  let prepared ← lift (db.prepare changes)
  if prepared.isEmpty && !rules.isEmpty then fail .congressException
  else
    catching (lift (db.addPolicyRules (prepared.map (·.1)))) fun _ => do
      catching (uninsertRules changes) fun _ => fail .congressException
      fail .congressException
    match db.commit with
    | some fault => fail fault
    | none => pure prepared

/-- `persistent_insert_rules`, into a policy that the engine and the database both have. -/
def persistentInsertRules (host : Host V RuleInfo) (net : Network V) (db : Persistence V)
    (rules : List RuleData) : Run V RuleInfo (List (RuleInfo × String)) := do
  let name ← lift db.policyName
  let parsed ← lift (db.parseRules 0 rules)
  let changes ← safeProcessPolicyUpdate host net parsed name true true
  persistChanges db rules changes

end DseRuntime

end Congress
