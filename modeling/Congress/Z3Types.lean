import Mathlib.Data.List.AList
import Mathlib.Data.Nat.Size
import Mathlib.Data.Finset.Card
import Mathlib.Algebra.Order.Ring.Int

/-!
# Types for Z3

The translators between values and bit vectors. A bit vector is an integer modulo a power of two, and
`as_long` is its unsigned value. Codes are the lengths which the dictionary of codes has had.
-/

namespace Congress

set_option linter.unusedSectionVars false

variable {V A : Type} [DecidableEq V] [DecidableEq A] {size : ℕ}

/-- What a translator keeps: the codes of values, and the values of codes. -/
structure Codes (V : Type) (size : ℕ) where
  map : AList fun _ : V => BitVec size
  back : AList fun _ : ℕ => V

def Codes.reset : Codes V size := ⟨∅, ∅⟩

/-- The next code, given to a value. -/
def Codes.allocate (m : Codes V size) (val : V) : BitVec size × Codes V size :=
  let code := m.map.keys.length
  let bvect := BitVec.ofNat size code
  (bvect, ⟨m.map.insert val bvect, m.back.insert code val⟩)

inductive Z3Raised (V : Type)
  | policyRuntimeException (val : V)
  | keyError (code : ℕ)
  deriving DecidableEq

/-- A translator: `to_z3` with its flag `strict`, which gives codes and changes what the translator keeps,
and `to_os`. -/
structure Z3Type (V : Type) (size : ℕ) where
  toZ3 : Codes V size → V → Bool → Except (Z3Raised V) (BitVec size × Codes V size)
  toOs : Codes V size → BitVec size → Except (Z3Raised V) V

/-- `self.back[val.as_long()]`. -/
def Codes.value (m : Codes V size) (val : BitVec size) : Except (Z3Raised V) V :=
  match m.back.lookup val.toNat with
  | some v => .ok v
  | none => .error (.keyError val.toNat)

def stringType (size : ℕ) : Z3Type V size where
  toZ3 m val _ :=
    match m.map.lookup val with
    | some bvect => .ok (bvect, m)
    | none => .ok (m.allocate val)
  toOs := Codes.value

/-- `(len(domain) + 1).bit_length()`. -/
def finiteSize (domain : Finset (Option A)) : ℕ := (domain.card + 1).size

/-- `FiniteType`: no value is `None`, and `other` the text `__OTHER__`. -/
def finiteType (other : A) (domain : Finset (Option A)) : Z3Type (Option A) (finiteSize domain) where
  toZ3 m val strict :=
    match m.map.lookup val with
    | some bvect => .ok (bvect, m)
    | none =>
      if val ∉ domain ∧ val ≠ none then
        if strict then .error (.policyRuntimeException val) else .ok (m.allocate (some other))
      else .ok (m.allocate val)
  toOs := Codes.value

def intType (size : ℕ) : Z3Type ℤ size where
  toZ3 m val _ := .ok (BitVec.ofInt size val, m)
  toOs _ val := .ok val.toNat

/-! ## Calls -/

inductive Z3Call (V : Type) (size : ℕ)
  | toZ3 (val : V) (strict : Bool)
  | toOs (val : BitVec size)

namespace Z3Type

/-- What a translator keeps, and the values it has encoded with their codes. -/
abbrev History (V : Type) (size : ℕ) := Codes V size × List (V × BitVec size)

/-- One call; a call that raises an exception changes nothing, nor does `to_os`. -/
def step (T : Z3Type V size) (s : History V size) : Z3Call V size → History V size
  | .toZ3 val strict =>
    match T.toZ3 s.1 val strict with
    | .ok (bvect, m) => (m, s.2 ++ [(val, bvect)])
    | .error _ => s
  | .toOs _ => s

/-- Calls since the translator was reset. -/
def run (T : Z3Type V size) (calls : List (Z3Call V size)) : History V size :=
  calls.foldl T.step (Codes.reset, [])

/-- Fewer values are encoded than there are codes. -/
def FewValues (T : Z3Type V size) (calls : List (Z3Call V size)) : Prop :=
  ((T.run calls).2.map Prod.fst).toFinset.card < 2 ^ size

/-- Values are told apart by their codes, for which they come back; values outside the domain have one
code, that of a stand-in. -/
structure Faithful (T : Z3Type V size) (standIn : V → Option V) (calls : List (Z3Call V size)) : Prop where
  codes : ∀ p ∈ (T.run calls).2, ∀ q ∈ (T.run calls).2,
    p.2 = q.2 ↔ p.1 = q.1 ∨ (standIn p.1).isSome ∧ (standIn q.1).isSome
  values : ∀ before, before <+: calls → ∀ p ∈ (T.run before).2,
    T.toOs (T.run before).1 p.2 = .ok ((standIn p.1).getD p.1)

end Z3Type

/-- Outside a finite domain; `None` is the missing value of every type. -/
def Outside (domain : Finset (Option A)) (val : Option A) : Prop := val ∉ domain ∧ val ≠ none

instance (domain : Finset (Option A)) (val : Option A) : Decidable (Outside domain val) :=
  inferInstanceAs (Decidable (_ ∧ _))

/-- What stands for a value outside a finite domain. -/
def standIn (other : A) (domain : Finset (Option A)) (val : Option A) : Option (Option A) :=
  if Outside domain val then some (some other) else none

/-- A call that gives a code to a value outside a finite domain. -/
def Z3Call.EncodesOutside (domain : Finset (Option A)) : Z3Call (Option A) size → Prop
  | .toZ3 val strict => Outside domain val ∧ strict = false
  | .toOs _ => False

/-- After a call for a value outside the domain there is none for another than the stand-in; and none at all
if the stand-in belongs to the domain. -/
structure OtherOnce (other : A) (domain : Finset (Option A)) (calls : List (Z3Call (Option A) size)) : Prop where
  once : calls.Pairwise fun c c' => c.EncodesOutside domain → c'.EncodesOutside domain → c' = .toZ3 (some other) false
  apart : some other ∈ domain → ∀ c ∈ calls, ¬c.EncodesOutside domain

/-! ## All translators -/

/-- The translators of texts, of the values of a finite domain, and of integers. -/
inductive Translator (A : Type)
  | string (size : ℕ)
  | finite (other : A) (domain : Finset (Option A))
  | int (size : ℕ)

namespace Translator

@[reducible]
def Value : Translator A → Type
  | .int _ => ℤ
  | _ => Option A

@[reducible]
def width : Translator A → ℕ
  | .string size => size
  | .finite _ domain => finiteSize domain
  | .int size => size

instance : (T : Translator A) → DecidableEq T.Value
  | .string _ => inferInstanceAs (DecidableEq (Option A))
  | .finite _ _ => inferInstanceAs (DecidableEq (Option A))
  | .int _ => inferInstanceAs (DecidableEq ℤ)

def type : (T : Translator A) → Z3Type T.Value T.width
  | .string size => stringType size
  | .finite other domain => finiteType other domain
  | .int size => intType size

/-- What stands for values outside the domain of the type. -/
def standIn : (T : Translator A) → T.Value → Option T.Value
  | .string _ => fun _ => none
  | .finite other domain => Congress.standIn other domain
  | .int _ => fun _ => none

/-- The calls that are answered rightly: the stand-in gets a code once, and integers are in range. -/
def Clear : (T : Translator A) → List (Z3Call T.Value T.width) → Prop
  | .string _ => fun _ => True
  | .finite other domain => OtherOnce other domain
  | .int size => fun calls => ∀ val strict, .toZ3 val strict ∈ calls → 0 ≤ val ∧ val < 2 ^ size

/-- The stand-in is no value of the domain. -/
def Apart : Translator A → Prop
  | .finite other domain => some other ∉ domain
  | _ => True

end Translator

end Congress
