import Mathlib.Logic.Function.Basic
import Congress.TopDown

/-!
# The search in place

The functions of `TopDownTheory` as they go about their contexts. A `TopDownContext` is an object
that its rule's literals are proved in, one after the other: to go on with the next literal, the
search adds one to the context's `literal_index`, and on the way back it takes it away again. The
depth of a context, which is only printed, is left out.
-/

namespace Congress

set_option linter.unusedSectionVars false

/-- A `TopDownContext`, without its `literal_index`; `previous` is the rest of a list of contexts. -/
structure TopDownContext (V : Type*) where
  id : ℕ
  literals : List (Literal V)
  binding : ℕ
  theory : TopDownTheory V

/-- What the search changes, with the `literal_index` of each of the contexts made so far. -/
structure InPlace (V : Type*) extends Search V where
  contexts : ℕ
  literalIndex : ℕ → ℕ

namespace InPlace

/-- A call of the search, which returns whether the search is done. -/
abbrev Call (V : Type*) := InPlace V → Outcome (Bool × InPlace V)

variable {V : Type*} [DecidableEq V]

/-- `context.literals[context.literal_index]`. -/
def lit (m : InPlace V) (c : TopDownContext V) : Outcome (Literal V) :=
  match c.literals[m.literalIndex c.id]? with
  | none => .error .indexError
  | some l => .ok l

def setIndex (m : InPlace V) (id index : ℕ) : InPlace V :=
  { m with literalIndex := Function.update m.literalIndex id index }

/-- A new context, at its first literal. -/
def newContext (m : InPlace V) (literals : List (Literal V)) (binding : ℕ)
    (theory : TopDownTheory V) : TopDownContext V × InPlace V :=
  (⟨m.contexts, literals, binding, theory⟩,
    { m.setIndex m.contexts 0 with contexts := m.contexts + 1 })

/-- The search for a new caller, which has no results and no support. -/
def forNewCaller (m : InPlace V) : InPlace V := { m with results := [], support := [] }

/-- The search again for the caller that it was for in `m`. -/
def forCallerOf (m' m : InPlace V) : InPlace V :=
  { m' with results := m.results, support := m.support }

/-- `_top_down_finish`. -/
def finish (eval : TopDownTheory V → TopDownContext V → List (TopDownContext V) → Call V)
    (caller : Caller V) : List (TopDownContext V) → Call V
  | [], m => .ok (true, { m with results := m.results ++ [caller.result m.toSearch] })
  | c :: previous, m =>
    if m.literalIndex c.id + 1 < c.literals.length then do
      let (finished, m) ← eval c.theory c previous (m.setIndex c.id (m.literalIndex c.id + 1))
      pure (finished, m.setIndex c.id (m.literalIndex c.id - 1))
    else finish eval caller previous m

/-- Saves a literal and goes on. -/
def save (finish : List (TopDownContext V) → Call V) (lit : Literal V) (c : TopDownContext V)
    (previous : List (TopDownContext V)) : Call V := fun m => do
  let (success, m) ← finish (c :: previous) { m with support := m.support ++ [(lit, c.binding)] }
  pure (success, { m with support := m.support.dropLast })

/-- `_top_down_builtin`. -/
def builtin (reg : BuiltinRegistry V) (finish : List (TopDownContext V) → Call V)
    (caller : Caller V) (c : TopDownContext V) (previous : List (TopDownContext V)) : Call V :=
  fun m => do
    let lit ← m.lit c
    match reg lit.table.table with
    | none => .error .attributeError
    | some built =>
      match ← TopDown.inputs built.numInputs (lit.plug m.bindings c.binding).arguments with
      | none =>
        if caller.save.isSome then save finish lit c previous m else .error .assertionError
      | some args =>
        match built with
        | .test _ code =>
          if code args = some true then finish (c :: previous) m else pure (false, m)
        | .function n _ code =>
          match code args with
          | none => pure (false, m)
          | some result =>
            match m.bindings.biUnifyLists (result.map .object) m.unifiers (lit.arguments.drop n)
              c.binding with
            | (h, none) => pure (false, { m with bindings := h, unifiers := m.unifiers + 1 })
            | (h, some undo) =>
              let (done, m) ← finish (c :: previous)
                { m with bindings := h, unifiers := m.unifiers + 1 }
              pure (done, { m with bindings := m.bindings.undoAll undo })

/-- A rule's body in a context of its own; without a body the search goes on in the context. -/
def proveBody (eval : TopDownTheory V → TopDownContext V → List (TopDownContext V) → Call V)
    (caller : Caller V) (self : TopDownTheory V) (body : List (Literal V)) (unifier : ℕ)
    (context : List (TopDownContext V)) : Call V := fun m =>
  if body.isEmpty then finish eval caller context m
  else eval self (m.newContext body unifier self).1 context (m.newContext body unifier self).2

/-- The loop of `_top_down_th`. -/
def tryClauses (eval : TopDownTheory V → TopDownContext V → List (TopDownContext V) → Call V)
    (caller : Caller V) (self : TopDownTheory V) (lit : Literal V) (c : TopDownContext V)
    (previous : List (TopDownContext V)) : List (Clause V) → Call V
  | [], m => pure (false, m)
  | rule :: rules, m =>
    let unifier := m.unifiers
    match TopDown.biUnify m.bindings rule unifier lit c.binding self.name with
    | (h, none) =>
      tryClauses eval caller self lit c previous rules { m with bindings := h, unifiers := unifier + 1 }
    | (h, some undo) => do
      let (done, m) ← proveBody eval caller self rule.body unifier (c :: previous)
        { m with bindings := h, unifiers := unifier + 1 }
      let m := { m with bindings := m.bindings.undoAll undo }
      if done && !caller.findAll then pure (true, m)
      else tryClauses eval caller self lit c previous rules m

/-- `_top_down_th`. -/
def th (eval : TopDownTheory V → TopDownContext V → List (TopDownContext V) → Call V)
    (caller : Caller V) (c : TopDownContext V) (previous : List (TopDownContext V))
    (self : TopDownTheory V) : Call V := fun m => do
  let lit ← m.lit c
  match self.headIndex lit.table.table (lit.plug m.bindings c.binding) with
  | none => .error .indexError
  | some rules => tryClauses eval caller self lit c previous rules m

/-- `_top_down_includes`. -/
def includes (th : TopDownTheory V → Call V) (caller : Caller V) : ℕ → TopDownTheory V → Call V
  | 0, _, _ => .error .outOfFuel
  | fuel + 1, self, m => do
    let (found, m) ← th self m
    if found && !caller.findAll then pure (true, m)
    else loop (includes th caller fuel) self.includes m
where
  loop (includes : TopDownTheory V → Call V) : List (TopDownTheory V) → Call V
    | [], m => pure (false, m)
    | t :: ts, m => do
      let (found, m) ← includes t m
      if found && !caller.findAll then pure (true, m) else loop includes ts m

/-- `_top_down_eval`. -/
def eval (reg : BuiltinRegistry V) (theories : Theories V) : ℕ → Caller V → TopDownTheory V →
    TopDownContext V → List (TopDownContext V) → Call V
  | 0, _, _, _, _, _ => .error .outOfFuel
  | fuel + 1, caller, self, c, previous, m =>
    let finish := finish (eval reg theories fuel caller) caller
    match m.lit c with
    | .error e => .error e
    | .ok lit =>
      if caller.save.any (· lit) then save finish lit c previous m
      else if lit.negated then
        if (lit.plug m.bindings c.binding).isGround then do
          let new := m.newContext [lit.complement] c.binding self
          let newCaller := { caller with findAll := false, save := none }
          let (_, m') ← eval reg theories fuel newCaller self new.1 [] new.2.forNewCaller
          if m'.results.isEmpty then finish (c :: previous) (m'.forCallerOf m)
          else pure (false, m'.forCallerOf m)
        else .error .assertionError
      else if lit.tablename none = "true" then finish (c :: previous) m
      else if lit.tablename none = "false" then pure (false, m)
      else if lit.isBuiltin reg true then builtin reg finish caller c previous m
      else
        match TopDown.movesTo self lit with
        | some service =>
          match theories service with
          | none => pure (false, m)
          | some th => eval reg theories fuel caller th c previous m
        | none => includes (th (eval reg theories fuel caller) caller c previous) caller (fuel + 1)
            self m

/-- `top_down_abduction`. -/
def abduction (reg : BuiltinRegistry V) (theories : Theories V) (fuel : ℕ) (self : TopDownTheory V)
    (names : List String) (literals : List (Literal V)) (findAll : Bool)
    (save : Option (Literal V → Bool)) : Outcome (List (TopDownResult V)) := do
  let caller : Caller V := ⟨names, 0, findAll, save⟩
  let (_, m) ← proveBody (eval reg theories fuel caller) caller self literals 0 []
    ⟨⟨[], 1, [], []⟩, 0, fun _ => 0⟩
  pure m.results

end InPlace

/-- The functions of the search that call each other. -/
inductive Routine
  | eval
  | th
  | builtin
  | finish

/-- A call of a function for a context. -/
def Routine.call {V : Type*} [DecidableEq V] (reg : BuiltinRegistry V) (theories : Theories V)
    (fuel : ℕ) (caller : Caller V) (self : TopDownTheory V) (c : TopDownContext V)
    (previous : List (TopDownContext V)) : Routine → InPlace.Call V
  | .eval => InPlace.eval reg theories fuel caller self c previous
  | .th => InPlace.th (InPlace.eval reg theories fuel caller) caller c previous self
  | .builtin => InPlace.builtin reg (InPlace.finish (InPlace.eval reg theories fuel caller) caller)
      caller c previous
  | .finish => InPlace.finish (InPlace.eval reg theories fuel caller) caller (c :: previous)

end Congress
