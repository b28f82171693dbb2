import Congress.Lib.Stateful
import Congress.TopDown

/-!
# Fact sets

A `FactSet` keeps the facts of a table and indices on some of their columns, and a rule set as it is with
fact sets in it. A constant in a fact is a native value, and Python may find two constants equal that
have different types. What raises keeps the state that it came to.
-/

namespace Congress

open Lib Stateful

/-- Constants as native values, which are equal if their `native` is, and names of variables as strings. -/
structure Natives (V K : Type) where
  native : V → K
  string : String → V

/-- A tuple of native values, with its table. -/
structure Fact (V : Type) where
  table : String
  values : List V
  deriving DecidableEq

variable {V K : Type} [DecidableEq K] (nat : Natives V K)

/-- `Fact.__eq__`. -/
def Fact.same (f f' : Fact V) : Bool :=
  f.table = f'.table && f.values.map nat.native = f'.values.map nat.native

/-- The values of the arguments, as `Fact` takes them. -/
def Natives.factValues (l : Literal V) : List V :=
  l.arguments.map fun
    | .object v => v
    | .variable x => nat.string x

/-- The facts, and for each index the facts by their values in its columns. -/
structure FactSet (V K : Type) where
  facts : List (Fact V)
  indicies : AList fun _ : List ℕ => AList fun _ : List K => List (Fact V)

namespace FactSet

def empty : FactSet V K := ⟨[], ∅⟩

/-- Calls on a fact set. -/
abbrev Run (V K : Type) := Stateful Fault (FactSet V K)

/-- `_compute_key`; a column that the fact does not have is an `IndexError`. -/
def computeKey (f : Fact V) : List ℕ → Outcome (List K)
  | [] => .ok []
  | i :: columns => do
    match f.values[i]? with
    | none => .error .indexError
    | some v =>
      let k ← computeKey f columns
      pure (nat.native v :: k)

/-- `_add_fact_to_index`. -/
def addFactToIndex (f : Fact V) (columns : List ℕ) : Run V K Unit := do
  if columns ∉ (← get).indicies then
    modify fun s => { s with indicies := s.indicies.insert columns ∅ }
  let k ← lift (computeKey nat f columns)
  modify fun s =>
    let index := (s.indicies.lookup columns).getD ∅
    let fs := (index.lookup k).getD []
    let index := index.insert k (if fs.any (f.same nat) then fs else fs ++ [f])
    { s with indicies := s.indicies.insert columns index }

/-- `_remove_fact_from_index`. -/
def removeFactFromIndex (f : Fact V) (columns : List ℕ) : Run V K Unit := do
  let k ← lift (computeKey nat f columns)
  match ((← get).indicies.lookup columns).bind fun index => (index.lookup k).map fun fs => (index, fs) with
  | none => fail .keyError
  | some (index, fs) =>
    if fs.any (f.same nat) then
      let rest := fs.eraseP (f.same nat)
      let index := if rest.isEmpty then index.erase k else index.insert k rest
      modify fun s => { s with indicies := s.indicies.insert columns index }
    else fail .keyError

/-- A loop over indices or facts. -/
def each {α : Type} (body : α → Run V K Unit) : List α → Run V K Unit
  | [] => pure ()
  | a :: as => do
    body a
    each body as

/-- `add`, which returns whether there was a change. -/
def add (f : Fact V) : Run V K Bool := do
  let s ← get
  if s.facts.any (f.same nat) then pure false
  else
    modify fun s => { s with facts := s.facts ++ [f] }
    catching (each (addFactToIndex nat f) s.indicies.keys) fun e => do
      modify fun s => { s with facts := s.facts.eraseP (f.same nat) }
      fail e
    pure true

/-- `remove`. -/
def remove (f : Fact V) : Run V K Bool := do
  let s ← get
  if s.facts.any (f.same nat) then
    modify fun s => { s with facts := s.facts.eraseP (f.same nat) }
    catching (each (removeFactFromIndex nat f) s.indicies.keys) fun e => do
      modify fun s => { s with facts := s.facts ++ [f] }
      fail e
    pure true
  else pure false

/-- `create_index`. -/
def createIndex (columns : List ℕ) : Run V K Unit := do
  if !columns.Pairwise (· ≤ ·) || columns.isEmpty then fail .assertionError
  else
    let s ← get
    if columns ∈ s.indicies then pure ()
    else each (fun f => addFactToIndex nat f columns) s.facts

/-- `remove_index`. -/
def removeIndex (columns : List ℕ) : Run V K Unit := do
  if !columns.Pairwise (· ≤ ·) then fail .assertionError
  else modify fun s => { s with indicies := s.indicies.erase columns }

/-- Whether a fact has the values; the first value that it does not have ends the comparison. -/
def matchesFact (f : Fact V) : List (ℕ × V) → Outcome Bool
  | [] => .ok true
  | (i, v) :: partialFact =>
    match f.values[i]? with
    | none => .error .indexError
    | some w => if nat.native w = nat.native v then matchesFact f partialFact else .ok false

/-- The loop of `find` over all facts. -/
def scan (partialFact : List (ℕ × V)) : List (Fact V) → Outcome (List (Fact V))
  | [] => .ok []
  | f :: fs => do
    let found ← matchesFact nat f partialFact
    let rest ← scan partialFact fs
    pure (if found then f :: rest else rest)

/-- `find`; the results are a set. -/
def find (s : FactSet V K) (partialFact : List (ℕ × V)) : Outcome (List (Fact V)) :=
  match s.indicies.lookup (partialFact.map Prod.fst) with
  | some index => .ok ((index.lookup (partialFact.map fun p => nat.native p.2)).getD [])
  | none => scan nat partialFact s.facts

end FactSet

/-- A fact or a rule, as it is given to a rule set. -/
inductive Stored (V : Type)
  | fact (f : Fact V)
  | rule (r : Rule V)

/-- `RuleSet`: the rules of each table, and its facts with their indices. -/
structure IndexedRuleSet (V K : Type) where
  rules : AList fun _ : String => List (Rule V)
  facts : AList fun _ : String => FactSet V K

namespace IndexedRuleSet

def empty : IndexedRuleSet V K := ⟨∅, ∅⟩

/-- Calls on a rule set. -/
abbrev Run (V K : Type) := Stateful Fault (IndexedRuleSet V K)

def factsOf (s : IndexedRuleSet V K) (key : String) : FactSet V K := (s.facts.lookup key).getD .empty

def rulesOf (s : IndexedRuleSet V K) (key : String) : List (Rule V) := (s.rules.lookup key).getD []

/-- A call on the facts of a table, which are there. -/
def onFacts {α : Type} (key : String) (x : FactSet.Run V K α) : Run V K α :=
  zoom (·.factsOf key) (fun s fs => { s with facts := s.facts.insert key fs }) x

/-- `add_rule` of a fact. -/
def addFact (key : String) (f : Fact V) : Run V K Bool := do
  modify fun s => if key ∈ s.facts then s else { s with facts := s.facts.insert key .empty }
  onFacts key (FactSet.add nat f)

/-- `discard_rule` of a fact. -/
def discardFact (key : String) (f : Fact V) : Run V K Bool := do
  if key ∈ (← get).facts then
    let changed ← onFacts key (FactSet.remove nat f)
    modify fun s => if (s.factsOf key).facts.isEmpty then { s with facts := s.facts.erase key } else s
    pure changed
  else pure false

variable [DecidableEq V]

/-- `add_rule`, which returns whether there was a change. -/
def addRule (key : String) : Stored V → Run V K Bool
  | .fact f => addFact nat key f
  | .rule r => do
    if r.body.isEmpty && !r.head.negated then addFact nat key ⟨key, nat.factValues r.head⟩
    else
      let rs := (← get).rulesOf key
      if rs.any (·.same r) then pure false
      else
        modify fun s => { s with rules := s.rules.insert key (rs ++ [r]) }
        pure true

/-- `discard_rule`, which returns whether there was a change. -/
def discardRule (key : String) : Stored V → Run V K Bool
  | .fact f => discardFact nat key f
  | .rule r => do
    if r.body.isEmpty then discardFact nat key ⟨key, nat.factValues r.head⟩
    else
      let s ← get
      if key ∈ s.rules then
        let rs := s.rulesOf key
        let rest := rs.eraseP (·.same r)
        modify fun s => { s with rules := if rest.isEmpty then s.rules.erase key else s.rules.insert key rest }
        pure (rs.any (·.same r))
      else pure false

def clearTable (key : String) (s : IndexedRuleSet V K) : IndexedRuleSet V K :=
  ⟨s.rules.insert key [], s.facts.insert key .empty⟩

def keys (s : IndexedRuleSet V K) : List String := s.facts.keys ++ s.rules.keys

/-- `contains`; a literal is looked for as the rule without a body that has it as its head. -/
def contains (s : IndexedRuleSet V K) (key : String) : Stored V → Bool
  | .fact f => (s.factsOf key).facts.any (f.same nat)
  | .rule r =>
    if r.body.isEmpty then
      (s.factsOf key).facts.any (Fact.same nat ⟨key, nat.factValues r.head⟩)
    else (s.rulesOf key).any (·.same r)

/-- The rules of `get_rules` without a literal. -/
def allRules (s : IndexedRuleSet V K) (key : String) : List (Rule V) :=
  (s.factsOf key).facts.map (fun f => factRule key f.values) ++ s.rulesOf key

/-- The index that `get_rules` makes if there are columns and it is not there. -/
def ensureIndex (key : String) (columns : List ℕ) : Run V K Unit := do
  let s ← get
  if !columns.isEmpty && columns ∉ (s.factsOf key).indicies then
    onFacts key (FactSet.createIndex nat columns)
  else pure ()

/-- `get_rules` with a literal. -/
def getRules (key : String) (l : Literal V) : Run V K (List (Rule V)) := do
  let s ← get
  if !l.negated && key ∈ s.facts then
    let partialFact := RuleSet.partialFact l
    ensureIndex nat key (partialFact.map Prod.fst)
    let s ← get
    let facts ← lift ((s.factsOf key).find nat partialFact)
    pure (facts.map (fun f => factRule key f.values) ++ s.rulesOf key)
  else pure (s.allRules key)

/-- The rules of all `keys`, as a policy's `content` goes through them. -/
def content (s : IndexedRuleSet V K) : List (String × Rule V) :=
  s.keys.flatMap fun key => (s.allRules key).map (key, ·)

end IndexedRuleSet

end Congress
