import Congress.Columns
import Congress.Materialized

/-!
# Policies

The policies of a runtime by their names: those that keep their rules in a rule set, databases and
materialized views, each maybe with a schema, and what applying events to one of them does. With each
rule come its id, its name, its comment and its original string, which are one value of a type `A`;
its default stands for none of them.
-/

namespace Congress

open Lib Stateful

/-- What the code rests on: the builtins, the name of a variable as a constant, the order of literals,
the order in which results come out of a set, and fuel for evaluations and for queues. -/
structure Platform (V : Type) where
  registry : BuiltinRegistry V
  variableName : String → V
  sorted : List (Literal V) → List (Literal V)
  setOrder : List (TopDownResult V) → List (TopDownResult V)
  evalFuel : ℕ
  queueFuel : ℕ

/-- An event whose formula comes with its id and so on. -/
structure AnnotatedEvent (V A : Type) extends Event V where
  info : A

/-- The rules of each table, with what comes with them, and its facts; both are ordered sets. -/
structure RuleStore (V A : Type) [DecidableEq V] where
  rules : AList fun _ : String => List (Rule V × A)
  facts : AList fun _ : String => List (List V)
  distinct : ∀ key, ((rules.lookup key).getD []).Pairwise fun r r' => r.1.same r'.1 = false
  nodup : ∀ key, ((facts.lookup key).getD []).Nodup

variable {V A : Type} [DecidableEq V]

/-- The names of the arguments, as `Fact` takes them. -/
def Platform.factValues (pf : Platform V) (l : Literal V) : List V :=
  l.arguments.map fun
    | .object v => v
    | .variable x => pf.variableName x

namespace RuleStore

def empty : RuleStore V A := ⟨∅, ∅, by simp, by simp⟩

def rulesOf (s : RuleStore V A) (key : String) : List (Rule V × A) := (s.rules.lookup key).getD []

def factsOf (s : RuleStore V A) (key : String) : List (List V) := (s.facts.lookup key).getD []

def setRules (s : RuleStore V A) (key : String) (rs : List (Rule V × A))
    (h : rs.Pairwise fun r r' => r.1.same r'.1 = false) : RuleStore V A where
  rules := s.rules.insert key rs
  facts := s.facts
  distinct k := by
    by_cases hk : k = key
    · subst hk
      simpa using h
    · simpa [AList.lookup_insert_ne hk] using s.distinct k
  nodup := s.nodup

def eraseRules (s : RuleStore V A) (key : String) : RuleStore V A where
  rules := s.rules.erase key
  facts := s.facts
  distinct k := by
    by_cases hk : k = key
    · subst hk
      simp
    · simpa [AList.lookup_erase_ne hk] using s.distinct k
  nodup := s.nodup

def setFacts (s : RuleStore V A) (key : String) (fs : List (List V)) (h : fs.Nodup) :
    RuleStore V A where
  rules := s.rules
  facts := s.facts.insert key fs
  distinct := s.distinct
  nodup k := by
    by_cases hk : k = key
    · subst hk
      simpa using h
    · simpa [AList.lookup_insert_ne hk] using s.nodup k

def eraseFacts (s : RuleStore V A) (key : String) : RuleStore V A where
  rules := s.rules
  facts := s.facts.erase key
  distinct := s.distinct
  nodup k := by
    by_cases hk : k = key
    · subst hk
      simp
    · simpa [AList.lookup_erase_ne hk] using s.nodup k

theorem nodup_factsOf (s : RuleStore V A) (key : String) : (s.factsOf key).Nodup := s.nodup key

theorem distinct_rulesOf (s : RuleStore V A) (key : String) :
    (s.rulesOf key).Pairwise fun r r' => r.1.same r'.1 = false := s.distinct key

/-- `add_rule` of a `Fact`. -/
def addFact (s : RuleStore V A) (key : String) (fact : List V) : RuleStore V A × Bool :=
  if h : fact ∈ s.factsOf key then (s, false)
  else (s.setFacts key (s.factsOf key ++ [fact]) ((s.nodup_factsOf key).append
    (List.nodup_singleton _) (List.disjoint_singleton.2 h)), true)

/-- `add_rule`, which returns whether there was a change. -/
def addRule (pf : Platform V) (s : RuleStore V A) (key : String) (rule : Rule V) (info : A) :
    RuleStore V A × Bool :=
  if rule.body.isEmpty && !rule.head.negated then s.addFact key (pf.factValues rule.head)
  else if h : (s.rulesOf key).any (·.1.same rule) then (s, false)
  else (s.setRules key (s.rulesOf key ++ [(rule, info)]) (List.pairwise_append.2
    ⟨s.distinct_rulesOf key, List.pairwise_singleton .., by simpa using h⟩), true)

/-- `discard_rule`, which returns whether there was a change. -/
def discardRule (pf : Platform V) (s : RuleStore V A) (key : String) (rule : Rule V) :
    RuleStore V A × Bool :=
  if rule.body.isEmpty then
    let fact := pf.factValues rule.head
    if key ∈ s.facts then
      let rest := (s.factsOf key).erase fact
      (if rest.isEmpty then s.eraseFacts key else s.setFacts key rest ((s.nodup_factsOf key).erase fact),
        fact ∈ s.factsOf key)
    else (s, false)
  else
    if key ∈ s.rules then
      let rest := (s.rulesOf key).eraseP (·.1.same rule)
      (if rest.isEmpty then s.eraseRules key
        else s.setRules key rest ((s.distinct_rulesOf key).sublist List.eraseP_sublist),
        (s.rulesOf key).any (·.1.same rule))
    else (s, false)

/-- Whether `add_rule` or `discard_rule` finds a rule, where it looks for it. -/
def finds (pf : Platform V) (s : RuleStore V A) (r : Rule V) (insert : Bool) : Bool :=
  if r.body.isEmpty && !(insert && r.head.negated) then
    pf.factValues r.head ∈ s.factsOf r.head.table.table
  else (s.rulesOf r.head.table.table).any (·.1.same r)

/-- `_insert_actual` and `_delete_actual`. -/
def put (pf : Platform V) (s : RuleStore V A) (rule : Rule V) (info : A) (insert : Bool) :
    RuleStore V A × Bool :=
  let key := rule.head.table.table
  if insert then s.addRule pf key rule info else s.discardRule pf key rule

/-- `contains` of a rule or an atom. -/
def contains (pf : Platform V) (s : RuleStore V A) (rule : Rule V) : Bool :=
  let key := rule.head.table.table
  if rule.body.isEmpty then pf.factValues rule.head ∈ s.factsOf key
  else (s.rulesOf key).any (·.1.same rule)

/-- `get_rules` without a literal to match. -/
def getRules [Inhabited A] (s : RuleStore V A) (key : String) : List (Rule V × A) :=
  (s.factsOf key).map (fun fact => (factRule key fact, default)) ++ s.rulesOf key

/-- `content`; a table that is in both dictionaries comes twice. -/
def content [Inhabited A] (s : RuleStore V A) : List (Rule V × A) :=
  (s.facts.keys ++ s.rules.keys).flatMap s.getRules

def clearTable (s : RuleStore V A) (key : String) : RuleStore V A :=
  (s.setRules key [] .nil).setFacts key [] .nil

/-- The rules and facts as evaluation sees them. -/
def toRuleSet (s : RuleStore V A) : RuleSet V :=
  ⟨⟨s.rules.entries.map fun e => ⟨e.1, e.2.map Prod.fst⟩, by
    simpa [List.NodupKeys, List.keys, Function.comp_def] using s.rules.nodupKeys⟩, s.facts⟩

end RuleStore

/-- The kinds of policies that keep their rules in a rule set. -/
inductive RuleKind
  | nonrecursive
  | action
  | datasource
  deriving DecidableEq

inductive PolicyData (V A : Type) [DecidableEq V]
  | rules (kind : RuleKind) (store : RuleStore V A)
  | database (database : Database V)
  | materialized (theory : MaterializedViewTheory V)

structure Policy (V A : Type) [DecidableEq V] where
  data : PolicyData V A
  schema : Option Schema

/-- The policies by their names, which all of them know. -/
abbrev PolicyMap (V A : Type) [DecidableEq V] := AList fun _ : String => Policy V A

/-- An atom as the rule that it is put in as. -/
def Formula.asRule : Formula V → Rule V
  | .atom l => ⟨l, [], []⟩
  | .rule r => r

namespace Policy

def topDown (p : Policy V A) (name : String) : TopDownTheory V :=
  match p.data with
  | .rules _ store => store.toRuleSet.toTopDown name
  | .database db => db.toTopDown name
  | .materialized th => th.toTopDown

/-- `__contains__`. -/
def contains (pf : Platform V) (p : Policy V A) (formula : Formula V) : Outcome Bool :=
  match p.data, formula with
  | .rules _ store, .atom l =>
    if l.negated then .error .attributeError else pure (store.contains pf formula.asRule)
  | .rules _ store, .rule r => pure (store.contains pf r)
  | .database db, .atom l => pure (!l.negated && db.contains l)
  | .database _, .rule _ => pure false
  | .materialized th, .atom l => pure (!l.negated && th.database.contains l)
  | .materialized th, .rule r => pure (th.deltaRules.contains r)

/-- What `update_would_cause_errors` finds in a formula. -/
def formulaErrors (reg : BuiltinRegistry V) (schemas : Schemas) (p : Policy V A) (name : String)
    (formula : Formula V) : Outcome (List (PolicyError V)) :=
  match p.data, formula with
  | .database _, .atom l =>
    if l.negated then pure [.nonAtomic formula] else pure (factErrors reg schemas (some name) l)
  | .database _, .rule _ => pure [.nonAtomic formula]
  | .materialized _, .atom l =>
    if l.negated then .error .assertionError else pure (factErrors reg schemas (some name) l)
  | .materialized _, .rule r =>
    if formula.isDatalog then pure (ruleErrors reg schemas (some name) r) else .error .assertionError
  | .rules kind _, _ =>
    if !formula.isDatalog then pure [.nonFormula formula]
    else
      match formula with
      | .atom l => pure (factErrors reg schemas (some name) l)
      | .rule r =>
        if kind = .action then pure (ruleHeadHasNoTheory r (·.table.isUpdate))
        else pure (ruleErrors reg schemas (some name) r)

/-- `update_would_cause_errors`. -/
def updateWouldCauseErrors (reg : BuiltinRegistry V) (schemas : Schemas) (p : Policy V A)
    (name : String) : List (Formula V) → Outcome (List (PolicyError V))
  | [] => pure []
  | formula :: formulas => do
    let errors ← p.formulaErrors reg schemas name formula
    let rest ← updateWouldCauseErrors reg schemas p name formulas
    pure (errors ++ rest)

/-- `content`, as formulas with what comes with them; that of materialized views is their data. -/
def content [Inhabited A] (p : Policy V A) : List (Formula V × A) :=
  let atoms (db : Database V) : List (Formula V × A) := db.data.entries.flatMap fun e =>
    e.2.map fun t => (.atom ⟨parseServiceTable e.1, t.tuple.map .object, false, []⟩, default)
  match p.data with
  | .rules _ store => store.content.map fun (r, a) => (.rule r, a)
  | .database db => atoms db
  | .materialized th => atoms th.database

/-- The rules, with what comes with them: those of `policy`, which have a body. -/
def policy [Inhabited A] (p : Policy V A) : List (Rule V × A) :=
  match p.data with
  | .rules _ store => store.content.filter fun r => !r.1.body.isEmpty
  | .database _ => []
  | .materialized th => th.deltaRules.originals.map fun r => (r, default)

end Policy

/-! ## Schemas -/

/-- What `Schema.update` has changed. -/
structure SchemaChange where
  table : String
  columns : Option (List String)
  insert : Bool
  service : Option String

namespace Schema

def init : Schema := ⟨∅, some ∅, false⟩

/-- `update`; a table is counted exactly if its columns are known. -/
def update (s : Schema) (l : Literal V) (insert : Bool) : Schema × Option SchemaChange :=
  let table := l.table.table
  let change (columns : Option (List String)) := some ⟨table, columns, insert, l.table.service⟩
  match s.count with
  | none => (s, none)
  | some count =>
    let n := (count.lookup table).getD 0
    match s.columns.lookup table with
    | some columns =>
      if insert then ({ s with count := some (count.insert table (n + 1)) }, change none)
      else if 1 < n then ({ s with count := some (count.insert table (n - 1)) }, change none)
      else ({ s with columns := s.columns.erase table, count := some (count.erase table) },
        change (some columns))
    | none =>
      if insert then
        let columns := (List.range l.arguments.length).map fun i => "Col" ++ toString i
        ({ s with columns := s.columns.insert table columns, count := some (count.insert table 1) },
          change (some columns))
      else (s, none)

def revert (s : Schema) (change : SchemaChange) : Outcome Schema :=
  match s.count with
  | none => .error .typeError
  | some count =>
    match count.lookup change.table with
    | some n =>
      if !change.insert then pure { s with count := some (count.insert change.table (n + 1)) }
      else if 1 < n then pure { s with count := some (count.insert change.table (n - 1)) }
      else pure { s with
        columns := s.columns.erase change.table, count := some (count.erase change.table) }
    | none =>
      if change.insert then .error .keyError
      else
        match change.columns with
        | none => .error .assertionError
        | some columns => pure { s with
            columns := s.columns.insert change.table columns
            count := some (count.insert change.table 1) }

end Schema

namespace PolicyMap

def schemas (ps : PolicyMap V A) : Schemas := fun name => (ps.lookup name).map (·.schema)

def infos (ps : PolicyMap V A) : String → Option PolicyInfo := fun name =>
  (ps.lookup name).map fun p =>
    ⟨match p.data with
      | .rules .datasource _ => true
      | _ => false, p.schema⟩

def topDown (ps : PolicyMap V A) : Theories V := fun name => (ps.lookup name).map (·.topDown name)

/-- Calls that change policies. -/
abbrev Run (V A : Type) [DecidableEq V] := Stateful Fault (PolicyMap V A)

/-- `_update_lit_schema`, which databases and materialized views do not have. -/
def updateLitSchema (name : String) (l : Literal V) (insert : Bool) :
    Run V A (Option SchemaChange) := do
  match (← get).lookup name with
  | none => fail .keyError
  | some p =>
    match p.data, p.schema with
    | .rules _ _, none => fail .policyException
    | .rules _ _, some schema =>
      if schema.complete then pure none
      else
        let (schema, change) := schema.update l insert
        modify fun ps => ps.insert name { p with schema := some schema }
        pure change
    | _, _ => fail .attributeError

/-- The loop of `update_rule_schema` over the body. -/
def updateBodySchema (reg : BuiltinRegistry V) (name : String) (insert : Bool) :
    List (Literal V) → Run V A (List (Option SchemaChange))
  | [] => pure []
  | l :: ls => do
    let active := l.table.service.getD name
    if l.isBuiltin reg true || ((← get).lookup active).isNone then
      updateBodySchema reg name insert ls
    else
      let change ← updateLitSchema active l insert
      let changes ← updateBodySchema reg name insert ls
      pure (change :: changes)

/-- `update_rule_schema`. -/
def updateRuleSchema (reg : BuiltinRegistry V) (name : String) (formula : Formula V) (insert : Bool) :
    Run V A (List (Option SchemaChange)) := do
  match ((← get).lookup name).bind (·.schema) with
  | none => pure []
  | some schema =>
    if schema.complete then pure []
    else
      match formula with
      | .atom l =>
        let change ← updateLitSchema name l insert
        pure [change]
      | .rule r =>
        let change ← updateLitSchema name r.head insert
        let changes ← updateBodySchema reg name insert r.body
        pure (change :: changes)

/-- `revert_schema`; it looks for the schema at the service of the literal. -/
def revertSchema (name : String) : List (Option SchemaChange) → Run V A Unit
  | [] => pure ()
  | none :: changes => revertSchema name changes
  | some change :: changes => do
    let active := change.service.getD name
    match (← get).lookup active with
    | none => fail .keyError
    | some p =>
      match p.schema with
      | none => fail .attributeError
      | some schema =>
        let schema ← lift (schema.revert change)
        modify fun ps => ps.insert active { p with schema := some schema }
        revertSchema name changes

/-! ## Events -/

/-- `update` of a policy that keeps its rules in a rule set. -/
def updateRules (pf : Platform V) (name : String) :
    List (AnnotatedEvent V A) → Run V A (List (AnnotatedEvent V A))
  | [] => pure []
  | e :: events => do
    let schemaChanges ← updateRuleSchema pf.registry name e.formula e.insert
    match e.formula.reorderForSafety pf.registry with
    | none => fail .policyException
    | some formula =>
      match (← get).lookup name with
      | some ⟨.rules kind store, schema⟩ =>
        let (store, changed) := store.put pf formula.asRule e.info e.insert
        modify fun ps => ps.insert name ⟨.rules kind store, schema⟩
        if changed then
          let changes ← updateRules pf name events
          pure (e :: changes)
        else
          revertSchema name schemaChanges
          updateRules pf name events
      | _ => fail .attributeError

/-- `update` of a database. -/
def updateDatabase (name : String) (schema : Option Schema) : Database V →
    List (AnnotatedEvent V A) → Run V A (List (AnnotatedEvent V A))
  | _, [] => pure []
  | db, e :: events => do
    let (db, changes) ← lift (db.modify ⟨e.formula, e.insert, []⟩)
    modify fun ps => ps.insert name ⟨.database db, schema⟩
    let rest ← updateDatabase name schema db events
    pure (if changes.isEmpty then rest else e :: rest)

/-- `update` of materialized views. Its changes are events of its own. -/
def updateMaterialized (pf : Platform V) (name : String) (schema : Option Schema)
    (th : MaterializedViewTheory V) (events : List (AnnotatedEvent V A)) :
    Run V A (List (ProofEvent V)) := do
  let ps ← get
  zoom (fun _ => th) (fun ps th => ps.insert name ⟨.materialized th, schema⟩)
    (MaterializedViewTheory.update pf.registry ps.topDown pf.setOrder pf.evalFuel pf.queueFuel
      (events.map fun e => (e.formula, e.insert)))

/-- What an update reports: an event that it was given, or one of materialized views. -/
inductive Changed (V A : Type)
  | event (e : AnnotatedEvent V A)
  | view (e : ProofEvent V)

/-- `update` of the policy of that name. -/
def update (pf : Platform V) (name : String) (events : List (AnnotatedEvent V A)) :
    Run V A (List (Changed V A)) := do
  match (← get).lookup name with
  | none => fail .policyException
  | some p =>
    match p.data with
    | .rules _ _ => do
      let changes ← updateRules pf name events
      pure (changes.map .event)
    | .database db => do
      let changes ← updateDatabase name p.schema db events
      pure (changes.map .event)
    | .materialized th => do
      let changes ← updateMaterialized pf name p.schema th events
      pure (changes.map .view)

end PolicyMap

end Congress
