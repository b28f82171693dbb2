import Mathlib.Data.Rat.Defs
import Mathlib.Algebra.Order.Ring.Rat
import Mathlib.Data.List.Lookmap
import Mathlib.Tactic.Common

/-!
# Types of configuration options

The types of options as their constructors' arguments make them, how `OptionJsonEncoder` writes them down and how
`make_type` builds them again. How values are read is a parameter.
-/

namespace Congress

/-- Types of options; `maxLength` 0 is no limit, and a regular expression has its pattern and its flags. -/
inductive CfgType
  | integer (min max : Option ℤ) (choices : Option (List ℤ))
  | float (min max : Option ℚ)
  | port (min max : ℤ) (choices : Option (List ℤ))
  | string (choices : Option (List String)) (quotes : Bool) (regex : Option (String × ℕ)) (ignoreCase : Bool)
    (maxLength : ℕ)
  | boolean
  | list (itemType : CfgType) (bounds : Bool)
  | dict (valueType : CfgType) (bounds : Bool)
  | range (min max : Option ℤ)
  deriving DecidableEq

namespace CfgType

inductive Scalar
  | int (n : ℤ)
  | str (s : String)
  deriving DecidableEq

/-- What a field of a description holds, as an attribute of a type and in JSON. -/
inductive FieldValue
  | none
  | bool (b : Bool)
  | int (n : ℤ)
  | float (q : ℚ)
  | str (s : String)
  | list (vs : List Scalar)
  | descr (fields : List (String × FieldValue))

/-- A value of no `bool` is dropped. -/
def FieldValue.truthy : FieldValue → Bool
  | .none => false
  | .bool b => b
  | .int n => n ≠ 0
  | .float q => q ≠ 0
  | .str s => s ≠ ""
  | .list vs => vs ≠ []
  | .descr _ => true

def ofInt : Option ℤ → FieldValue
  | some n => .int n
  | none => .none

def ofFloat : Option ℚ → FieldValue
  | some q => .float q
  | none => .none

def ofInts : Option (List ℤ) → FieldValue
  | some ns => .list (ns.map .int)
  | none => .none

def ofStrs : Option (List String) → FieldValue
  | some ss => .list (ss.map .str)
  | none => .none

/-- The pattern of a regular expression. -/
def ofRegex : Option (String × ℕ) → FieldValue
  | some r => .str r.1
  | none => .none

/-- "Remove unused fields". -/
def removeUnused (res : List (String × FieldValue)) : List (String × FieldValue) := res.filter fun f => f.2.truthy

/-- `OptionJsonEncoder.default` for types of options. -/
def encode : CfgType → FieldValue
  | .integer min max choices => .descr <| removeUnused
    [("type", .str "Integer"), ("max", ofInt max), ("min", ofInt min), ("choices", ofInts choices)]
  | .float min max => .descr <| removeUnused
    [("type", .str "Float"), ("max", ofFloat max), ("min", ofFloat min), ("choices", .none)]
  | .port min max choices => .descr <| removeUnused
    [("type", .str "Port"), ("max", .int max), ("min", .int min), ("choices", ofInts choices)]
  | .string choices quotes regex ignoreCase maxLength => .descr <| removeUnused
    [("type", .str "String"), ("regex", ofRegex regex), ("max_length", .int maxLength), ("quotes", .bool quotes),
      ("ignore_case", .bool ignoreCase), ("choices", ofStrs choices)]
  | .boolean => .descr <| removeUnused [("type", .str "Boolean")]
  | .list itemType bounds => .descr <| removeUnused
    [("type", .str "List"), ("item_type", itemType.encode), ("bounds", .bool bounds)]
  | .dict valueType bounds => .descr <| removeUnused
    [("type", .str "Dict"), ("value_type", valueType.encode), ("bounds", .bool bounds)]
  | .range min max => .descr <| removeUnused [("type", .str "Range"), ("max", ofInt max), ("min", ofInt min)]

/-! ## Building types again -/

inductive CfgRaised
  | keyError
  | typeError
  | valueError
  | otherClass
  deriving DecidableEq

/-- An argument of a constructor; a description of a type has become a type. -/
inductive Arg
  | value (v : FieldValue)
  | type (t : CfgType)

abbrev Args := List (String × Arg)

/-- Only these arguments are known to a constructor. -/
def known (names : List String) (args : Args) : Except CfgRaised Unit :=
  if ∀ a ∈ args, a.1 ∈ names then .ok () else .error .typeError

def intArg (args : Args) (name : String) : Except CfgRaised (Option ℤ) :=
  match args.lookup name with
  | none => .ok none
  | some (.value (.int n)) => .ok (some n)
  | some _ => .error .typeError

def floatArg (args : Args) (name : String) : Except CfgRaised (Option ℚ) :=
  match args.lookup name with
  | none => .ok none
  | some (.value (.float q)) => .ok (some q)
  | some _ => .error .typeError

def boolArg (args : Args) (name : String) : Except CfgRaised Bool :=
  match args.lookup name with
  | none => .ok false
  | some (.value (.bool b)) => .ok b
  | some _ => .error .typeError

def strArg (args : Args) (name : String) : Except CfgRaised (Option String) :=
  match args.lookup name with
  | none => .ok none
  | some (.value (.str s)) => .ok (some s)
  | some _ => .error .typeError

def Scalar.getInt : Scalar → Except CfgRaised ℤ
  | .int n => .ok n
  | .str _ => .error .typeError

def Scalar.getStr : Scalar → Except CfgRaised String
  | .str s => .ok s
  | .int _ => .error .typeError

def listArg {α : Type} (get : Scalar → Except CfgRaised α) (args : Args) (name : String) :
    Except CfgRaised (Option (List α)) :=
  match args.lookup name with
  | none => .ok none
  | some (.value (.list vs)) => (vs.mapM get).map some
  | some _ => .error .typeError

/-- A type of items is given; another one is the type of texts. -/
def typeArg (args : Args) (name : String) : Except CfgRaised CfgType :=
  match args.lookup name with
  | none => .ok (.string none false none false 0)
  | some (.type t) => .ok t
  | some (.value _) => .error .typeError

/-- `Number.__init__`: choices lie between the bounds, and the upper bound is not below the lower one. -/
def NumberOk {α : Type} [LE α] (min max : Option α) (choices : Option (List α)) : Prop :=
  (∀ c ∈ choices.getD [], (∀ m ∈ min, m ≤ c) ∧ ∀ m ∈ max, c ≤ m) ∧ ∀ m ∈ min, ∀ m' ∈ max, m ≤ m'

instance {α : Type} [LE α] [DecidableLE α] (min max : Option α) (choices : Option (List α)) :
    Decidable (NumberOk min max choices) := inferInstanceAs (Decidable (_ ∧ _))

/-- What the constructor of a type checks of its arguments. -/
def Checked : CfgType → Prop
  | .integer min max choices => NumberOk min max choices
  | .float min max => NumberOk min max none
  | .port min max choices => 0 ≤ min ∧ max ≤ 65535 ∧ NumberOk (some min) (some max) choices
  | .string choices _ regex _ _ => choices.getD [] = [] ∨ ∀ r ∈ regex, r.1 = ""
  | .boolean => True
  | .list _ _ => True
  | .dict _ _ => True
  | .range _ _ => True

instance : (t : CfgType) → Decidable t.Checked
  | .integer .. => inferInstanceAs (Decidable (NumberOk _ _ _))
  | .float .. => inferInstanceAs (Decidable (NumberOk _ _ _))
  | .port .. => inferInstanceAs (Decidable (_ ∧ _ ∧ NumberOk _ _ _))
  | .string .. => inferInstanceAs (Decidable (_ ∨ ∀ _ ∈ _, _))
  | .boolean => .isTrue trivial
  | .list .. => .isTrue trivial
  | .dict .. => .isTrue trivial
  | .range .. => .isTrue trivial

/-- A type whose constructors raised nothing. -/
def Valid : CfgType → Prop
  | .list itemType _ => itemType.Valid
  | .dict valueType _ => valueType.Valid
  | t => t.Checked

def check (t : CfgType) : Except CfgRaised CfgType := if t.Checked then .ok t else .error .valueError

/-- `getattr(types, type_name)(**type_descr)`; other classes are not modelled. -/
def construct (name : String) (args : Args) : Except CfgRaised CfgType :=
  match name with
  | "Integer" => do
    known ["min", "max", "type_name", "choices"] args
    check (.integer (← intArg args "min") (← intArg args "max") (← listArg Scalar.getInt args "choices"))
  | "Float" => do
    known ["min", "max", "type_name"] args
    check (.float (← floatArg args "min") (← floatArg args "max"))
  | "Port" => do
    known ["min", "max", "type_name", "choices"] args
    check (.port ((← intArg args "min").getD 0) ((← intArg args "max").getD 65535)
      (← listArg Scalar.getInt args "choices"))
  | "String" => do
    known ["choices", "quotes", "regex", "ignore_case", "max_length", "type_name"] args
    check (.string (← listArg Scalar.getStr args "choices") (← boolArg args "quotes")
      ((← strArg args "regex").map (·, 0)) (← boolArg args "ignore_case")
      (((← intArg args "max_length").getD 0).toNat))
  | "Boolean" => do
    known ["type_name"] args
    check .boolean
  | "List" => do
    known ["item_type", "bounds", "type_name"] args
    check (.list (← typeArg args "item_type") (← boolArg args "bounds"))
  | "Dict" => do
    known ["value_type", "bounds", "type_name"] args
    check (.dict (← typeArg args "value_type") (← boolArg args "bounds"))
  | "Range" => do
    known ["min", "max", "inclusive", "type_name"] args
    check (.range (← intArg args "min") (← intArg args "max"))
  | _ => .error .otherClass

mutual

/-- `make_type`. -/
def makeType : FieldValue → Except CfgRaised CfgType
  | .descr fields => do
    match fields.lookup "type" with
    | none => .error .keyError
    | some (.str name) => construct name (← makeArgs fields)
    | some _ => .error .typeError
  | _ => .error .typeError

/-- The arguments of a constructor: all fields but the name of the type, and types for descriptions of types. -/
def makeArgs : List (String × FieldValue) → Except CfgRaised Args
  | [] => .ok []
  | field :: fields => do
    let arg ← makeArg field
    let args ← makeArgs fields
    .ok (if field.1 = "type" then args else (field.1, arg) :: args)

def makeArg : String × FieldValue → Except CfgRaised Arg
  | (name, value) =>
    if name = "item_type" ∨ name = "value_type" then do
      let t ← makeType value
      .ok (.type t)
    else .ok (.value value)

end

/-! ## What types accept -/

/-- How values are read as numbers, texts and ranges, and how lists and dictionaries are taken apart, given what
their items accept. An empty text is read as no number at all, and the empty pattern is found everywhere. -/
structure Readings (W : Type) where
  int : W → Option (Option ℤ)
  float : W → Option (Option ℚ)
  bool : W → Bool
  text : W → String
  unquote : String → Option String
  lower : String → String
  search : String → Bool → ℕ → String → Bool
  range : W → Option (ℤ × ℤ)
  list : Bool → (W → Prop) → W → Prop
  dict : Bool → (W → Prop) → W → Prop
  search_empty : ∀ ignoreCase flags s, search "" ignoreCase flags s = true

variable {W : Type}

/-- `Number.__call__`: a number among the choices, or between the bounds if there are none. -/
def AcceptsNumber {α : Type} [LE α] (min max : Option α) (choices : Option (List α)) : Option (Option α) → Prop
  | none => False
  | some none => True
  | some (some n) =>
    match choices with
    | some cs => n ∈ cs
    | none => (∀ m ∈ min, m ≤ n) ∧ ∀ m ∈ max, n ≤ m

/-- `String.__call__`, once quotes are taken off. -/
def AcceptsText (R : Readings W) (choices : Option (List String)) (regex : Option (String × ℕ)) (ignoreCase : Bool)
    (maxLength : ℕ) (s : String) : Prop :=
  (0 < maxLength → s.length ≤ maxLength)
    ∧ (∀ r ∈ regex, R.search r.1 ignoreCase r.2 s = true)
    ∧ ∀ cs ∈ choices, if ignoreCase then R.lower s ∈ cs.map R.lower else s ∈ cs

/-- The values for which calling a type raises nothing. -/
def Accepts (R : Readings W) : CfgType → W → Prop
  | .integer min max choices, v => AcceptsNumber min max choices (R.int v)
  | .float min max, v => AcceptsNumber min max none (R.float v)
  | .port min max choices, v => AcceptsNumber (some min) (some max) choices (R.int v)
  | .string choices quotes regex ignoreCase maxLength, v =>
    ∃ s, (if quotes then R.unquote (R.text v) else some (R.text v)) = some s
      ∧ AcceptsText R choices regex ignoreCase maxLength s
  | .boolean, v => R.bool v = true
  | .list itemType bounds, v => R.list bounds (Accepts R itemType) v
  | .dict valueType bounds, v => R.dict bounds (Accepts R valueType) v
  | .range min max, v => ∃ p, R.range v = some p ∧ (∀ m ∈ min, m ≤ p.1) ∧ ∀ m ∈ max, p.2 ≤ m

/-- The type that is built again accepts the same values. -/
def Survives (R : Readings W) (t : CfgType) : Prop :=
  ∃ t', makeType t.encode = .ok t' ∧ ∀ v, Accepts R t' v ↔ Accepts R t v

end CfgType

end Congress
