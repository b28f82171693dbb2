import Mathlib.Algebra.Order.Ring.Rat
import Mathlib.Data.String.Basic
import Mathlib.Order.WithBot
import Congress.Constants
import Congress.Lib.Comparisons

/-!
# The order on literals

`__lt__` of names of tables, of terms and of literals, and what is made of it: rules are equal if their heads
and their bodies are when they are sorted, and the hash of a rule is that of its sorted heads and bodies. A
comparison of values of two types, or with `None`, is a `TypeError`.
-/

namespace Congress

open Lib

/-- `<` of two modals that differ, one of which can be `None`. -/
def optionLt : Option String → Option String → Outcome Bool
  | some s, some s' => .ok (s < s')
  | _, _ => .error .typeError

/-- `Tablename.__lt__`; no service is before all services. -/
def Tablename.lt (t t' : Tablename) : Outcome Bool :=
  if t.modal ≠ t'.modal then optionLt t.modal t'.modal
  else if t.service ≠ t'.service then
    match t.service, t'.service with
    | none, _ => .ok true
    | some _, none => .ok false
    | some s, some s' => .ok (s < s')
  else if t.table ≠ t'.table then .ok (t.table < t'.table)
  else .ok false

namespace ObjectConstant

def type : ObjectConstant → String
  | .string _ => "STRING"
  | .integer _ => "INTEGER"
  | .float _ => "FLOAT"

/-- `__lt__` of two constants. -/
def lt (c c' : ObjectConstant) : Outcome Bool :=
  if c.native ≠ c'.native then
    match c.native, c'.native with
    | .inl s, .inl s' => .ok (s < s')
    | .inr n, .inr n' => .ok (n < n')
    | .inl _, .inr _ => .error .typeError
    | .inr _, .inl _ => .error .typeError
  else .ok (c.type < c'.type)

end ObjectConstant

/-- `__lt__` of terms; variables are before constants. -/
def Term.lt : Term ObjectConstant → Term ObjectConstant → Outcome Bool
  | .variable x, .variable x' => .ok (x < x')
  | .variable _, .object _ => .ok true
  | .object _, .variable _ => .ok false
  | .object c, .object c' => c.lt c'

/-- The comparison of the numbers and the names of columns. -/
def columnLt : ℕ ⊕ String → ℕ ⊕ String → Outcome Bool
  | .inl i, .inl i' => .ok (i < i')
  | .inr name, .inr name' => .ok (name < name')
  | .inl _, .inr _ => .error .typeError
  | .inr _, .inl _ => .error .typeError

/-- The comparison of two pairs, a column with its argument. -/
def namedLt (a a' : (ℕ ⊕ String) × Term ObjectConstant) : Outcome Bool :=
  if a.1 ≠ a'.1 then columnLt a.1 a'.1 else if a.2 ≠ a'.2 then a.2.lt a'.2 else .ok false

/-- `Literal.__lt__`. -/
def Literal.lt (l l' : Literal ObjectConstant) : Outcome Bool :=
  if l.table ≠ l'.table then l.table.lt l'.table
  else if l.negated ≠ l'.negated then .ok (l.negated < l'.negated)
  else if l.arguments.length ≠ l'.arguments.length then .ok (l.arguments.length < l'.arguments.length)
  else if l.namedArguments.length ≠ l'.namedArguments.length then
    .ok (l.namedArguments.length < l'.namedArguments.length)
  else do
    if ← listLt Term.lt l.arguments l'.arguments then pure true
    else listLt namedLt l.namedArguments l'.namedArguments

/-- `hash` of what Python has; `hash(True)` is that of the number 1. -/
structure Hashes where
  string : String → ℤ
  number : Number → ℤ
  ofNone : ℤ
  tuple : List ℤ → ℤ

section

variable (H : Hashes)

def Hashes.option : Option String → ℤ
  | none => H.ofNone
  | some s => H.string s

def Tablename.hash (t : Tablename) : ℤ :=
  H.tuple [H.string "Tablename", H.option t.service, H.string t.table, H.option t.modal]

/-- A name and its type are hashed, so that equal names have equal hashes. -/
def Term.hash : Term ObjectConstant → ℤ
  | .variable x => H.tuple [H.string "Variable", H.string x]
  | .object c => H.tuple [H.string "ObjectConstant", c.native.elim H.string H.number, H.string c.type]

def Hashes.column : ℕ ⊕ String → ℤ
  | .inl i => H.number ((i : ℚ) : WithTop ℚ)
  | .inr name => H.string name

def Literal.hash (l : Literal ObjectConstant) : ℤ :=
  H.tuple [H.string "Literal", l.table.hash H, H.tuple (l.arguments.map (Term.hash H)),
    H.number (if l.negated then ((1 : ℚ) : WithTop ℚ) else ((0 : ℚ) : WithTop ℚ)),
    H.tuple (l.namedArguments.map fun a => H.tuple [H.column a.1, a.2.hash H])]

end

namespace Rule

variable (H : Hashes) (r r' : Rule ObjectConstant)

/-- `__eq__`, which sorts. -/
def eq : Outcome Bool :=
  if r.heads.length ≠ r'.heads.length then .ok false
  else if r.body.length ≠ r'.body.length then .ok false
  else do
    let heads ← sorted Literal.lt r.heads
    let heads' ← sorted Literal.lt r'.heads
    if heads ≠ heads' then pure false
    else
      let body ← sorted Literal.lt r.body
      let body' ← sorted Literal.lt r'.body
      pure (body = body')

/-- `__hash__`. -/
def hash : Outcome ℤ := do
  let heads ← sorted Literal.lt r.heads
  let body ← sorted Literal.lt r.body
  pure (H.tuple [H.string "Rule", H.tuple (heads.map (Literal.hash H)), H.tuple (body.map (Literal.hash H))])

end Rule

/-! ## Sets of rules -/

/-- Whether a member is the one that is sought, which has a hash and maybe is equal. -/
def isSought (H : Hashes) (r : Rule ObjectConstant) (k : ℤ) (member : Rule ObjectConstant) : Outcome Bool := do
  if (← member.hash H) = k then member.eq r else pure false

/-- The members of an `OrderedSet` before and after the one that is sought, if it is there. -/
def splitAtMember (H : Hashes) (r : Rule ObjectConstant) (k : ℤ) :
    List (Rule ObjectConstant) → Outcome (Option (List (Rule ObjectConstant) × List (Rule ObjectConstant)))
  | [] => .ok none
  | member :: members => do
    if ← isSought H r k member then pure (some ([], members))
    else
      let found ← splitAtMember H r k members
      pure (found.map fun p => (member :: p.1, p.2))

/-- Calls on an `OrderedSet` of rules. -/
inductive MemberCall
  | add (rule : Rule ObjectConstant)
  | discard (rule : Rule ObjectConstant)
  | contains (rule : Rule ObjectConstant)

/-- The rule that a call is about. -/
def MemberCall.rule : MemberCall → Rule ObjectConstant
  | .add rule => rule
  | .discard rule => rule
  | .contains rule => rule

/-- A call, with what it makes of the members and what it returns. -/
def MemberCall.run (H : Hashes) (call : MemberCall) (members : List (Rule ObjectConstant)) :
    Outcome (List (Rule ObjectConstant) × Bool) := do
  let k ← call.rule.hash H
  let found ← splitAtMember H call.rule k members
  match call, found with
  | .add rule, none => pure (members ++ [rule], true)
  | .add _, some _ => pure (members, false)
  | .discard _, none => pure (members, false)
  | .discard _, some (before, after) => pure (before ++ after, true)
  | .contains _, none => pure (members, false)
  | .contains _, some _ => pure (members, true)

/-- What calls one after another return. -/
def MemberCall.answers (H : Hashes) : List MemberCall → List (Rule ObjectConstant) → Outcome (List Bool)
  | [], _ => .ok []
  | call :: calls, members => do
    let (members, answer) ← call.run H members
    let rest ← answers H calls members
    pure (answer :: rest)

end Congress
