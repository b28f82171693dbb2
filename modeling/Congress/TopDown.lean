import Congress.Safety
import Congress.Unify

/-!
# Top-down evaluation

`TopDownTheory`: a depth first search that unifies a literal with the heads that `head_index` gives
and goes on with their bodies. All unifiers are one heap (`Bindings`), which the search passes on;
every unification is undone on the way back. Contexts are not changed: moving on to the next literal
makes a new one, so nothing has to be moved back. The log is left out.
-/

namespace Congress

set_option linter.unusedSectionVars false

/-- How a call ends without a result. -/
inductive Fault
  | assertionError
  | attributeError
  | congressException
  | indexError
  | keyError
  | notImplemented
  | policyException
  | typeError
  | outOfFuel
  deriving DecidableEq

/-- What `head_index` gives: rules, or the tuples of a database. -/
inductive Clause (V : Type*)
  | rule (rule : Rule V)
  | tuple (values : List V)

def Clause.body {V : Type*} : Clause V → List (Literal V)
  | .rule r => r.body
  | .tuple _ => []

/-- A theory as far as evaluation sees it; `head_index` can raise an `IndexError`. -/
structure TopDownTheory (V : Type*) where
  name : String
  headIndex : String → Literal V → Option (List (Clause V))
  includes : List (TopDownTheory V)

/-- The theories by name, which all theories share. -/
abbrev Theories (V : Type*) := String → Option (TopDownTheory V)

/-- A `TopDownContext`, with the literals from `literal_index` on; the contexts before it
(`previous`) are kept in a list. -/
structure Frame (V : Type*) where
  literals : List (Literal V)
  binding : ℕ
  theory : TopDownTheory V

/-- A `TopDownCaller`; its results and its support are part of the search. -/
structure Caller (V : Type*) where
  variableNames : List String
  binding : ℕ
  findAll : Bool
  save : Option (Literal V → Bool)

structure TopDownResult (V : Type*) where
  binding : List (String × Term V)
  support : List (Literal V)

/-- What the search changes: the unifiers, of which `unifiers` have been made, and the results and
the support of the caller. -/
structure Search (V : Type*) where
  bindings : Bindings V
  unifiers : ℕ
  results : List (TopDownResult V)
  support : List (Literal V × ℕ)

/-- What a call returns, unless it faults. -/
abbrev Outcome := Except Fault

/-- A call of the search, which returns whether the search is done. -/
abbrev Call (V : Type*) := Search V → Outcome (Bool × Search V)

variable {V : Type*} [DecidableEq V]

/-- `plug` for a caller, which renames a variable without a value unless it is the caller's. -/
def Caller.plug (c : Caller V) (h : Bindings V) (l : Literal V) (u : ℕ) : Literal V :=
  { l with arguments := l.arguments.map fun
      | .object v => .object v
      | .variable x =>
        if h.value u x = none ∧ ¬ (x ∈ c.variableNames ∧ c.binding = u) then
          .variable (x ++ toString u)
        else h.apply u (.variable x) }

/-- What a caller stores when everything is proved. -/
def Caller.result (c : Caller V) (s : Search V) : TopDownResult V :=
  ⟨c.variableNames.map fun x => (x, s.bindings.apply c.binding (.variable x)),
    s.support.map fun (l, u) => c.plug s.bindings l u⟩

namespace TopDown

/-- `_top_down_finish`. -/
def finish (eval : TopDownTheory V → Frame V → List (Frame V) → Call V)
    (caller : Caller V) : List (Frame V) → Call V
  | [], s => .ok (true, { s with results := s.results ++ [caller.result s] })
  | f :: previous, s =>
    match f.literals with
    | _ :: l :: ls => eval f.theory { f with literals := l :: ls } previous s
    | _ => finish eval caller previous s

/-- Saves a literal and goes on. -/
def save (finish : List (Frame V) → Call V) (lit : Literal V) (f : Frame V)
    (previous : List (Frame V)) (s : Search V) : Outcome (Bool × Search V) := do
  let (done, s) ← finish (f :: previous) { s with support := s.support ++ [(lit, f.binding)] }
  pure (done, { s with support := s.support.dropLast })

/-- The inputs of a builtin; `none` if one is a variable. -/
def inputs : ℕ → List (Term V) → Outcome (Option (List V))
  | 0, _ => .ok (some [])
  | _ + 1, [] => .error .indexError
  | _ + 1, .variable _ :: _ => .ok none
  | n + 1, .object v :: ts => (inputs n ts).map (Option.map (v :: ·))

/-- `_top_down_builtin`. -/
def builtin (finish : List (Frame V) → Call V) (caller : Caller V)
    (built : Builtin V) (lit : Literal V) (f : Frame V) (previous : List (Frame V)) (s : Search V) :
    Outcome (Bool × Search V) := do
  match ← inputs built.numInputs (lit.plug s.bindings f.binding).arguments with
  | none =>
    if caller.save.isSome then save finish lit f previous s else .error .assertionError
  | some args =>
    match built with
    | .test _ code =>
      if code args = some true then finish (f :: previous) s else pure (false, s)
    | .function n _ code =>
      match code args with
      | none => pure (false, s)
      | some result =>
        let s := { s with unifiers := s.unifiers + 1 }
        match s.bindings.biUnifyLists (result.map .object) (s.unifiers - 1)
          (lit.arguments.drop n) f.binding with
        | (h, none) => pure (false, { s with bindings := h })
        | (h, some undo) =>
          let (done, s) ← finish (f :: previous) { s with bindings := h }
          pure (done, { s with bindings := s.bindings.undoAll undo })

/-- `bi_unify` of a theory's clause and a literal. -/
def biUnify (h : Bindings V) (c : Clause V) (u : ℕ) (lit : Literal V) (u' : ℕ) (name : String) :
    Bindings V × Option (List (ℕ × String)) :=
  match c with
  | .rule r => h.biUnifyAtoms r.head u lit u' (some name)
  | .tuple t => h.matchTuple t lit u'

/-- Goes on with literals in a context of their own, or with the contexts if there are none. -/
def proveBody (eval : TopDownTheory V → Frame V → List (Frame V) → Call V) (caller : Caller V)
    (self : TopDownTheory V) (body : List (Literal V)) (u : ℕ) (context : List (Frame V)) : Call V :=
  fun s => if body.isEmpty then finish eval caller context s else eval self ⟨body, u, self⟩ context s

/-- The loop of `_top_down_th`. -/
def tryClauses (eval : TopDownTheory V → Frame V → List (Frame V) → Call V)
    (caller : Caller V) (self : TopDownTheory V) (lit : Literal V) (f : Frame V)
    (previous : List (Frame V)) : List (Clause V) → Call V
  | [], s => pure (false, s)
  | c :: cs, s =>
    let u := s.unifiers
    match biUnify s.bindings c u lit f.binding self.name with
    | (h, none) =>
      tryClauses eval caller self lit f previous cs { s with bindings := h, unifiers := u + 1 }
    | (h, some undo) => do
      let (done, s) ← proveBody eval caller self c.body u (f :: previous)
        { s with bindings := h, unifiers := u + 1 }
      let s := { s with bindings := s.bindings.undoAll undo }
      if done && !caller.findAll then pure (true, s)
      else tryClauses eval caller self lit f previous cs s

/-- `_top_down_th`. -/
def th (eval : TopDownTheory V → Frame V → List (Frame V) → Call V)
    (caller : Caller V) (lit : Literal V) (f : Frame V) (previous : List (Frame V))
    (self : TopDownTheory V) (s : Search V) : Outcome (Bool × Search V) :=
  match self.headIndex lit.table.table (lit.plug s.bindings f.binding) with
  | none => .error .indexError
  | some clauses => tryClauses eval caller self lit f previous clauses s

/-- `_top_down_includes`. -/
def includes (th : TopDownTheory V → Call V) (caller : Caller V) :
    ℕ → TopDownTheory V → Call V
  | 0, _, _ => .error .outOfFuel
  | fuel + 1, self, s => do
    let (found, s) ← th self s
    if found && !caller.findAll then pure (true, s)
    else loop (includes th caller fuel) self.includes s
where
  loop (includes : TopDownTheory V → Call V) :
      List (TopDownTheory V) → Call V
    | [], s => pure (false, s)
    | t :: ts, s => do
      let (found, s) ← includes t s
      if found && !caller.findAll then pure (true, s) else loop includes ts s

/-- A literal of another theory; a modal and a pseudo-modal are not moved there. -/
def movesTo (self : TopDownTheory V) (lit : Literal V) : Option String :=
  match lit.table.service with
  | none => none
  | some service =>
    if lit.table.modal = none ∧ service ≠ self.name ∧ ¬ lit.table.isUpdate then some service
    else none

/-- `_top_down_eval`. -/
def eval (reg : BuiltinRegistry V) (theories : Theories V) : ℕ → Caller V → TopDownTheory V →
    Frame V → List (Frame V) → Call V
  | 0, _, _, _, _, _ => .error .outOfFuel
  | fuel + 1, caller, self, f, previous, s =>
    let finish := finish (eval reg theories fuel caller) caller
    match f.literals with
    | [] => .error .indexError
    | lit :: _ =>
      if caller.save.any (· lit) then save finish lit f previous s
      else if lit.negated then
        if (lit.plug s.bindings f.binding).isGround then do
          let newCaller := { caller with findAll := false, save := none }
          let (_, s') ← eval reg theories fuel newCaller self
            ⟨[lit.complement], f.binding, self⟩ [] { s with results := [], support := [] }
          let s := { s with bindings := s'.bindings, unifiers := s'.unifiers }
          if s'.results.isEmpty then finish (f :: previous) s else pure (false, s)
        else .error .assertionError
      else if lit.tablename none = "true" then finish (f :: previous) s
      else if lit.tablename none = "false" then pure (false, s)
      else if lit.isBuiltin reg true then
        match reg lit.table.table with
        | none => .error .assertionError
        | some built => builtin finish caller built lit f previous s
      else
        match movesTo self lit with
        | some service =>
          match theories service with
          | none => pure (false, s)
          | some th => eval reg theories fuel caller th f previous s
        | none => includes (th (eval reg theories fuel caller) caller lit f previous) caller
            (fuel + 1) self s

/-- `top_down_abduction`. -/
def abduction (reg : BuiltinRegistry V) (theories : Theories V) (fuel : ℕ) (self : TopDownTheory V)
    (names : List String) (literals : List (Literal V)) (findAll : Bool)
    (save : Option (Literal V → Bool)) : Outcome (List (TopDownResult V)) := do
  let caller : Caller V := ⟨names, 0, findAll, save⟩
  let (_, s) ← proveBody (eval reg theories fuel caller) caller self literals 0 [] ⟨[], 1, [], []⟩
  pure s.results

end TopDown

/-- `plug` of a formula with a dictionary. -/
def Formula.plugDict (binding : List (String × Term V)) : Formula V → Formula V
  | .atom l => .atom (l.plugDict binding)
  | .rule r => .rule ⟨r.head.plugDict binding, r.moreHeads.map (·.plugDict binding),
      r.body.map (·.plugDict binding)⟩

/-- The literals of a query that are evaluated. -/
def Formula.literals : Formula V → List (Literal V)
  | .atom l => [l]
  | .rule r => r.body

/-- `is_datalog`: an atom, or a rule with one head. -/
def Formula.isDatalog : Formula V → Bool
  | .atom l => !l.negated
  | .rule r => r.moreHeads.isEmpty && !r.head.negated

/-- `variables`. -/
def Formula.variableNames (f : Formula V) : List String :=
  Congress.variableNames (f.heads ++ f.body)

/-- `select`. -/
def TopDownTheory.select (reg : BuiltinRegistry V) (theories : Theories V) (fuel : ℕ)
    (self : TopDownTheory V) (query : Formula V) (findAll : Bool) : Outcome (List (Formula V)) :=
  if query.isDatalog then do
    let results ← TopDown.abduction reg theories fuel self query.variableNames query.literals
      findAll none
    pure (results.map fun r => query.plugDict r.binding)
  else .error .assertionError

/-- A `NonrecursiveRuleTheory` as far as evaluation sees it. -/
def RuleSet.toTopDown (rules : RuleSet V) (name : String) : TopDownTheory V :=
  ⟨name, fun table lit => (rules.getRules table (some lit)).map (·.map .rule), []⟩

end Congress
