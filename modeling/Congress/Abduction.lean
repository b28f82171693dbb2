import Congress.PolicyModel

/-!
# Abduction

`abduce` saves literals of some tables in place of proving them, and answers with rules that have what
was saved in their bodies. What a theory and some more facts make true is what they derive
(`RuleSet.Derives`); of the builtins, which no facts are about, the true ones are evident.
-/

namespace Congress

variable {V : Type*} [DecidableEq V]

/-- The literals that `abduce` saves. -/
def saved (tablenames : List String) (lit : Literal V) : Bool := lit.tablename none ∈ tablenames

/-- `abduce`; the answers come in some order. -/
def TopDownTheory.abduce (reg : BuiltinRegistry V) (theories : Theories V) (fuel : ℕ)
    (self : TopDownTheory V) (query : Formula V) (tablenames : List String) (findAll : Bool) :
    Outcome (List (Rule V)) :=
  if query.isDatalog then do
    let output := match query with
      | .atom l => l
      | .rule r => r.head
    let abductions ← TopDown.abduction reg theories fuel self (variableNames [output]) query.literals
      findAll (some (saved tablenames))
    pure (abductions.map fun abd => ⟨output.plugDict abd.binding, [], abd.support⟩)
  else .error .assertionError

/-- The name of a table in theory `p`. -/
def Tablename.within (p : String) (t : Tablename) : Tablename :=
  ⟨some (t.service.getD p), t.table, t.modal⟩

/-- A table, as it is written, and constants. -/
abbrev GroundAtom (V : Type*) := Tablename × List V

namespace Literal

/-- The instance of a literal. -/
def ground (ν : String → V) (l : Literal V) : GroundAtom V := (l.table, l.values ν)

/-- No rules are looked up for the literal. -/
def isReserved (reg : BuiltinRegistry V) (l : Literal V) : Bool :=
  l.tablename none = "true" || l.tablename none = "false" || l.isBuiltin reg true

/-- True whatever the theory: `true`, and builtins that say so. -/
def Evident (reg : BuiltinRegistry V) (ν : String → V) (l : Literal V) : Prop :=
  l.tablename none = "true" ∨ l.tablename none ≠ "false" ∧ l.isBuiltin reg true = true
    ∧ reg.Relation l.table.table (l.values ν)

/-- What is in the body of an answer is among the facts, or it is evident. -/
def Given (reg : BuiltinRegistry V) (save : Literal V → Bool) (facts : Set (GroundAtom V))
    (ν : String → V) (l : Literal V) : Prop :=
  if save l then l.ground ν ∈ facts else l.Evident reg ν

end Literal

namespace RuleSet

/-- A rule, or a fact as one. -/
def HasClause (rules : RuleSet V) (r : Rule V) : Prop :=
  rules.HasRule r ∨ ∃ table fact, rules.HasFact table fact ∧ r = factRule table fact

/-- What the rules of theory `p` derive from more facts, if only these facts are used for the tables
that are closed. -/
inductive Derives (rules : RuleSet V) (reg : BuiltinRegistry V) (p : String)
    (closed : Literal V → Bool) (facts : Set (GroundAtom V)) : Literal V → (String → V) → Prop
  | given {l : Literal V} {ν : String → V} (h : l.ground ν ∈ facts) : Derives rules reg p closed facts l ν
  | evident {l : Literal V} {ν : String → V} (hc : closed l = false) (h : l.Evident reg ν) :
      Derives rules reg p closed facts l ν
  | clause {l : Literal V} {ν : String → V} {r : Rule V} {μ : String → V} (hc : closed l = false)
      (hl : l.isReserved reg = false) (hr : rules.HasClause r)
      (hsame : r.head.sameSchema l (some p) = true) (hhead : r.head.values μ = l.values ν)
      (hbody : ∀ b ∈ r.body, Derives rules reg p closed facts b μ) : Derives rules reg p closed facts l ν

/-- The tables of a theory, each with those in the bodies of its rules. -/
def Depends (rules : RuleSet V) (p : String) (a b : Tablename) : Prop :=
  ∃ r, rules.HasRule r ∧ a = r.head.table.within p ∧ ∃ l ∈ r.body, b = l.table.within p

end RuleSet

end Congress
