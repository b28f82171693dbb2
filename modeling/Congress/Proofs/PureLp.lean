import Mathlib.Algebra.BigOperators.Group.List.Basic
import Mathlib.Algebra.Order.BigOperators.Group.List
import Mathlib.Tactic.Linarith
import Congress.Lib.Extension
import Congress.PureLp

/-!
# What linear programs say

The constraints that `pure_lp` returns tell of each variable that was made what the expression is that it
stands for, as long as its comparisons stay within bounds. So assignments can be extended to meet them
exactly where the equation holds with a sum of products in place of its disjunction
(`pureLp_exact_iff`): not where several disjuncts hold, nor where bounds are too small.
-/

namespace Congress

open Lib Stateful

namespace LpExpr

/-- Values of variables, by what stands after `VAR`. -/
abbrev Assignment := List LpExpr → ℚ

/-! ## Expressions that are converted -/

/-- Variables, numbers, and their sums, differences and products. -/
inductive IsTerm : LpExpr → Prop
  | num (q : ℚ) : IsTerm (.num q)
  | var (args : List LpExpr) : IsTerm (makeVariable args)
  | arith {op : String} {args : List LpExpr} : op.toLower ∈ ["plus", "minus", "times"] →
      (∀ a ∈ args, IsTerm a) → IsTerm (makeArith op args)

/-- A variable, or a comparison of terms. -/
inductive IsAtom : LpExpr → Prop
  | var (args : List LpExpr) : IsAtom (makeVariable args)
  | compare {op : String} {lhs rhs : LpExpr} : op.toLower ∈ ["lt", "lteq", "gt", "gteq", "equal"] →
      IsTerm lhs → IsTerm rhs → IsAtom (makeArith op [lhs, rhs])

/-- A disjunction of conjunctions of atoms. -/
def disjunction (ds : List (List LpExpr)) : LpExpr := makeOr (ds.map makeAnd)

/-- A variable that is equal to a disjunction. -/
def equation (y : List LpExpr) (ds : List (List LpExpr)) : LpExpr :=
  makeEqual (makeVariable y) (disjunction ds)

/-! ## Assignments -/

/-- The number that an expression stands for. -/
def number (σ : Assignment) (e : LpExpr) : ℚ := (value σ e).number

def Satisfies (σ : Assignment) (e : LpExpr) : Prop := (value σ e).holds = true

/-- The variables are natural numbers within their bounds, the one that is defined is 0 or 1. -/
structure Admissible (bounds : Bounds) (σ : Assignment) (y : List LpExpr) (ds : List (List LpExpr)) :
    Prop where
  bool : σ y = 0 ∨ σ y = 1
  natural : ∀ v ∈ variablesOf (equation y ds), ∃ n : ℕ, σ v = n ∧ ∀ u ∈ bounds v, (n : ℚ) ≤ u

/-- Values for the new variables, 0 or 1 for those of type `bool`, that satisfy the constraints. -/
def Extends (σ : Assignment) (e : LpExpr) (constraints : List LpExpr) (bools : List ℕ) : Prop :=
  ∃ τ : Assignment, (∀ v ∈ variablesOf e, τ v = σ v)
    ∧ (∀ i ∈ bools, τ (internal i) = 0 ∨ τ (internal i) = 1) ∧ ∀ c ∈ constraints, Satisfies τ c

/-- The variables that are made are new. -/
structure New (n : ℕ) (bounds : Bounds) (e : LpExpr) : Prop where
  notUsed : ∀ v ∈ variablesOf e, ∀ i, n ≤ i → v ≠ internal i
  notBounded : ∀ i, n ≤ i → bounds (internal i) = none

/-! ## What constraints say -/

/-- What is less than zero where a comparison holds, up to the threshold. -/
def gap (op : String) (lhs rhs : ℚ) : ℚ :=
  match op.toLower with
  | "lt" => lhs - rhs
  | "lteq" => lhs - rhs - minThreshold
  | "gt" => rhs - lhs
  | _ => rhs - lhs - minThreshold

/-- The side of a comparison whose bound is taken for that of the difference. -/
def bounded (op : String) (lhs rhs : LpExpr) : LpExpr :=
  if op.toLower ∈ ["lt", "lteq"] then lhs else rhs

/-- The difference of the sides of a comparison is within the bound. -/
def Within (bounds : Bounds) (σ : Assignment) : LpExpr → Prop
  | .expr [.str "ARITH", .str op, lhs, rhs] => ∀ upper, upperBound bounds (bounded op lhs rhs) = .ok upper →
      -(upper + 1) ≤ gap op (number σ lhs) (number σ rhs)
        ∧ gap op (number σ lhs) (number σ rhs) < upper + 1
  | _ => True

/-- A comparison counts if it holds up to the threshold, a variable as often as its value says. -/
def atomCount (σ : Assignment) : LpExpr → ℚ
  | .expr [.str "ARITH", .str op, lhs, rhs] =>
    if gap op (number σ lhs) (number σ rhs) < 0 then 1 else 0
  | a => number σ a

def AllWithin (bounds : Bounds) (σ : Assignment) (ds : List (List LpExpr)) : Prop :=
  ∀ d ∈ ds, ∀ a ∈ d, Within bounds σ a

/-- How many disjuncts hold up to the threshold. -/
def disjunctCount (σ : Assignment) (ds : List (List LpExpr)) : ℚ :=
  (ds.map fun d => (d.map (atomCount σ)).prod).sum

/-- Where the variable has the value of the disjunction, all comparisons are within their bounds, and as
many disjuncts hold up to the threshold as that value says; where that many hold, it has that value. -/
structure CountedRight (bounds : Bounds) (σ : Assignment) (y : List LpExpr) (ds : List (List LpExpr)) :
    Prop where
  enough : σ y = number σ (disjunction ds) →
    AllWithin bounds σ ds ∧ disjunctCount σ ds = number σ (disjunction ds)
  right : AllWithin bounds σ ds → σ y = disjunctCount σ ds →
    disjunctCount σ ds = number σ (disjunction ds)

/-! ## Values -/

variable {bounds : Bounds} {σ τ τ' : Assignment} {op : String} {e lhs rhs : LpExpr} {as : List LpExpr}
  {y : List LpExpr} {ds : List (List LpExpr)} {n : ℕ}

theorem valueArgs_eq (σ : Assignment) : ∀ as : List LpExpr, valueArgs σ as = as.map (value σ)
  | [] => rfl
  | a :: as => by rw [valueArgs, valueArgs_eq σ as, List.map_cons]

theorem number_makeVariable (σ : Assignment) (args : List LpExpr) :
    number σ (makeVariable args) = σ args := rfl

/-- An operation on numbers. -/
def arithNumber (op : String) (qs : List ℚ) : ℚ := (arith op (qs.map .num)).number

theorem value_makeArith (σ : Assignment) (op : String) (as : List LpExpr) :
    value σ (makeArith op as) = arith op (as.map fun a => .num (number σ a)) := by
  show arith op (valueArgs σ as) = _
  rw [valueArgs_eq]
  unfold arith
  simp only [List.map_map]
  rfl

theorem number_makeArith (σ : Assignment) (op : String) (as : List LpExpr) :
    number σ (makeArith op as) = arithNumber op (as.map (number σ)) := by
  rw [number, value_makeArith, arithNumber, List.map_map]
  rfl

theorem arith_eq_num (op : String) (vs : List Value) : ∃ q, arith op vs = .num q := by
  unfold LpExpr.arith
  dsimp only
  split <;> exact ⟨_, rfl⟩

theorem value_makeArith_eq (σ : Assignment) (op : String) (as : List LpExpr) :
    value σ (makeArith op as) = .num (number σ (makeArith op as)) := by
  obtain ⟨q, hq⟩ := arith_eq_num op (as.map fun a => .num (number σ a))
  rw [number, value_makeArith, hq]
  rfl

/-- What the operations that constraints are made with come to. -/
theorem arith_of_toLower (op : String) (vs : List Value) :
    (op.toLower = "plus" → arith op vs = .num (vs.map Value.number).sum)
      ∧ (op.toLower = "times" → arith op vs = .num ((vs.map Value.number).foldl (· * ·) 1))
      ∧ ∀ p q, vs.map Value.number = [p, q] → (op.toLower = "minus" → arith op vs = .num (p - q))
        ∧ (op.toLower = "lt" → arith op vs = .ofBool (p < q))
        ∧ (op.toLower = "lteq" → arith op vs = .ofBool (p ≤ q)) := by
  unfold LpExpr.arith
  refine ⟨fun h => ?_, fun h => ?_, fun p q hvs => ⟨fun h => ?_, fun h => ?_, fun h => ?_⟩⟩
  · rw [h]
    rfl
  · rw [h]
    rfl
  all_goals
    rw [h, hvs]
    rfl

theorem IsTerm.value_eq (h : IsTerm e) (σ : Assignment) : value σ e = .num (number σ e) := by
  cases h with
  | num q => rfl
  | var args => rfl
  | arith => exact value_makeArith_eq ..

theorem satisfies_makeEqual {a b : LpExpr} {p q : ℚ} (ha : value σ a = .num p) (hb : value σ b = .num q) :
    Satisfies σ (makeEqual a b) ↔ p = q := by
  show (Value.ofBool (value σ a = value σ b)).holds = true ↔ _
  by_cases hpq : p = q
  · simp [ha, hb, hpq, Value.ofBool, Value.holds]
  · simp [ha, hb, hpq, Value.ofBool, Value.holds]

theorem toList_toLower (s : String) : s.toLower.toList = s.toList.map Char.toLower :=
  String.toList_map

/-- The operators in lower case. -/
theorem toLower_operators : "EQ".toLower = "eq" ∧ "AND".toLower = "and" ∧ "OR".toLower = "or"
    ∧ "ARITH".toLower = "arith" ∧ "plus".toLower = "plus" ∧ "minus".toLower = "minus"
    ∧ "times".toLower = "times" ∧ "lt".toLower = "lt" ∧ "lteq".toLower = "lteq" := by
  simp only [← String.toList_inj, toList_toLower]
  decide

theorem satisfies_lt (σ : Assignment) (a b : LpExpr) :
    Satisfies σ (makeArith "lt" [a, b]) ↔ number σ a < number σ b := by
  rw [Satisfies, value_makeArith, ((arith_of_toLower _ _).2.2 _ _ rfl).2.1 (by simp [toLower_operators])]
  by_cases h : number σ a < number σ b <;> simp [h, Value.ofBool, Value.holds, Value.number]

theorem satisfies_lteq (σ : Assignment) (a b : LpExpr) :
    Satisfies σ (makeArith "lteq" [a, b]) ↔ number σ a ≤ number σ b := by
  rw [Satisfies, value_makeArith, ((arith_of_toLower _ _).2.2 _ _ rfl).2.2 (by simp [toLower_operators])]
  by_cases h : number σ a ≤ number σ b <;> simp [h, Value.ofBool, Value.holds, Value.number]

theorem number_minus (σ : Assignment) (a b : LpExpr) :
    number σ (makeArith "minus" [a, b]) = number σ a - number σ b := by
  rw [number, value_makeArith, ((arith_of_toLower _ _).2.2 _ _ rfl).1 (by simp [toLower_operators])]
  rfl

theorem number_times (σ : Assignment) (as : List LpExpr) :
    number σ (makeArith "times" as) = (as.map (number σ)).prod := by
  rw [number, value_makeArith, (arith_of_toLower _ _).2.1 (by simp [toLower_operators]), List.prod_eq_foldl,
    List.map_map]
  rfl

theorem number_plus (σ : Assignment) (as : List LpExpr) :
    number σ (makeArith "plus" as) = (as.map (number σ)).sum := by
  rw [number, value_makeArith, (arith_of_toLower _ _).1 (by simp [toLower_operators]), List.map_map]
  rfl

theorem variablesOf_expr {args : List LpExpr} (h : op ≠ "VAR") :
    variablesOf (.expr (.str op :: args)) = variablesOfArgs args := by
  rw [variablesOf, if_neg fun heq => h (LpExpr.str.inj heq)]

theorem mem_variablesOfArgs {v : List LpExpr} : ∀ {as : List LpExpr},
    v ∈ variablesOfArgs as ↔ ∃ a ∈ as, v ∈ variablesOf a
  | [] => by simp [variablesOfArgs]
  | a :: as => by simp [variablesOfArgs, @mem_variablesOfArgs v as]

theorem operate_congr {op : LpExpr} {args : List LpExpr} {vs : List Value} (hop : op ≠ .str "VAR") :
    operate τ (op :: args) vs = operate σ (op :: args) vs := by
  unfold operate
  split
  · rename_i heq
    exact absurd (List.cons.inj heq).1 hop
  all_goals simp_all

mutual

/-- The value of an expression depends on its variables only. -/
theorem value_congr : ∀ {e : LpExpr}, (∀ v ∈ variablesOf e, τ v = σ v) → value τ e = value σ e
  | .str _, _ => rfl
  | .num _, _ => rfl
  | .expr [], _ => rfl
  | .expr (op :: args), h => by
    rw [variablesOf] at h
    split_ifs at h with hop
    · subst hop
      show Value.num (τ args) = Value.num (σ args)
      rw [h args List.mem_cons_self]
    · have hargs := valueArgs_congr h
      rw [value, value, operate_congr hop]
      cases op with
      | str o => rw [valueArgs, valueArgs, hargs]; rfl
      | num q => rfl
      | expr => rfl

theorem valueArgs_congr : ∀ {as : List LpExpr}, (∀ v ∈ variablesOfArgs as, τ v = σ v) →
    valueArgs τ as = valueArgs σ as
  | [], _ => rfl
  | a :: as, h => by
    rw [variablesOfArgs] at h
    rw [valueArgs, valueArgs, value_congr fun v hv => h v (List.mem_append_left _ hv),
      valueArgs_congr fun v hv => h v (List.mem_append_right _ hv)]

end

/-! ## Single constraints -/

/-- A number or a variable, which is flat. -/
inductive Plain : LpExpr → Prop
  | num (q : ℚ) : Plain (.num q)
  | var (args : List LpExpr) : Plain (makeVariable args)

/-- The constraints for one expression that `flatten` has made. -/
def convertOne (bounds : Bounds) (flat : LpExpr) : Except Failure (List LpExpr) := do
  let noAndOr ← removeAndOr flat
  indicatorToPureLp bounds noAndOr

/-- An expression is converted, to constraints that hold. -/
def Kept (bounds : Bounds) (τ : Assignment) (flat : LpExpr) : Prop :=
  ∃ cs, convertOne bounds flat = .ok cs ∧ ∀ c ∈ cs, Satisfies τ c

theorem convert_ok : ∀ {flats cs : List LpExpr}, convert bounds flats = .ok cs →
    (∀ f ∈ flats, ∃ cs, convertOne bounds f = .ok cs)
      ∧ ∀ τ, (∀ c ∈ cs, Satisfies τ c) ↔ ∀ f ∈ flats, Kept bounds τ f
  | [], cs, h => by
    cases h
    simp
  | flat :: flats, cs, h => by
    unfold convert at h
    obtain ⟨e, he, h⟩ := bind_ok.1 h
    obtain ⟨cs₁, h₁, h⟩ := bind_ok.1 h
    obtain ⟨cs₂, h₂, h⟩ := bind_ok.1 h
    cases h
    have hone : convertOne bounds flat = .ok cs₁ := bind_ok.2 ⟨e, he, h₁⟩
    obtain ⟨hconverts, hkept⟩ := convert_ok h₂
    refine ⟨List.forall_mem_cons.2 ⟨⟨cs₁, hone⟩, hconverts⟩, fun τ => ?_⟩
    rw [List.forall_mem_append, List.forall_mem_cons, hkept]
    refine and_congr ⟨fun hcs => ⟨cs₁, hone, hcs⟩, ?_⟩ .rfl
    rintro ⟨cs, hcs, hholds⟩
    rw [hone] at hcs
    cases hcs
    exact hholds

theorem construct_eq {arg1 arg2 : LpExpr} (h : op.toLower = "eq") :
    construct op [arg1, arg2] = .ok (makeEqual arg1 arg2) := by
  unfold construct
  rw [h]
  rfl

theorem construct_and (h : op.toLower = "and") : construct op as = .ok (makeAnd as) := by
  unfold construct
  rw [h]
  rfl

theorem construct_or (h : op.toLower = "or") : construct op as = .ok (makeOr as) := by
  unfold construct
  rw [h]
  rfl

theorem construct_arith (h : op.toLower = "arith") :
    construct op as = .ok (.expr (.str "ARITH" :: as)) := by
  unfold construct
  rw [h]
  rfl

theorem removeAndOr_plain (h : Plain e) : removeAndOr e = .ok e := by
  cases h with
  | num q => rfl
  | var args => rfl

theorem removeAndOr_expr (h : op ≠ "VAR") : removeAndOr (.expr (.str op :: as))
    = if op.toLower ∈ ["and", "or"] then removeAndOrTerm (.expr (.str op :: as))
      else removeAndOrArgs as >>= construct op := by
  rw [removeAndOr, if_neg fun heq => h (LpExpr.str.inj heq)]

theorem removeAndOrArgs_cons {a a' : LpExpr} {as' : List LpExpr} (ha : removeAndOr a = .ok a')
    (has : removeAndOrArgs as = .ok as') : removeAndOrArgs (a :: as) = .ok (a' :: as') := by
  rw [removeAndOrArgs, ha, has]
  rfl

theorem removeAndOrArgs_plain : ∀ {as : List LpExpr}, (∀ a ∈ as, Plain a) → removeAndOrArgs as = .ok as
  | [], _ => rfl
  | a :: as, h => by
    obtain ⟨ha, has⟩ := List.forall_mem_cons.1 h
    exact removeAndOrArgs_cons (removeAndOr_plain ha) (removeAndOrArgs_plain has)

theorem removeAndOr_arith (h : ∀ a ∈ as, Plain a) :
    removeAndOr (makeArith op as) = .ok (makeArith op as) := by
  have hargs : removeAndOrArgs (.str op :: as) = .ok (.str op :: as) :=
    removeAndOrArgs_cons rfl (removeAndOrArgs_plain h)
  unfold makeArith
  rw [removeAndOr_expr (by decide), if_neg (by simp [toLower_operators]), hargs]
  exact construct_arith (by simp [toLower_operators])

theorem removeAndOr_makeEqual {a a' b b' : LpExpr} (ha : removeAndOr a = .ok a')
    (hb : removeAndOr b = .ok b') : removeAndOr (makeEqual a b) = .ok (makeEqual a' b') := by
  have hargs : removeAndOrArgs [a, b] = .ok [a', b'] :=
    removeAndOrArgs_cons ha (removeAndOrArgs_cons hb rfl)
  unfold makeEqual
  rw [removeAndOr_expr (by decide), if_neg (by simp [toLower_operators]), hargs]
  exact construct_eq (by simp [toLower_operators])

theorem removeAndOr_and : removeAndOr (.expr (.str "AND" :: as)) = .ok (makeArith "times" as) := by
  rw [removeAndOr_expr (by decide), if_pos (by simp [toLower_operators]), removeAndOrTerm]
  show Except.ok (makeArith (if "AND".toLower = "and" then _ else _) as) = _
  rw [if_pos (by simp [toLower_operators])]

theorem removeAndOr_or : removeAndOr (.expr (.str "OR" :: as)) = .ok (makeArith "plus" as) := by
  rw [removeAndOr_expr (by decide), if_pos (by simp [toLower_operators]), removeAndOrTerm]
  show Except.ok (makeArith (if "OR".toLower = "and" then _ else _) as) = _
  rw [if_neg (by simp [toLower_operators])]

theorem indicatorToPureLp_plain {y : List LpExpr} (h : Plain e) :
    indicatorToPureLp bounds (makeEqual (makeVariable y) e) = .ok [makeEqual (makeVariable y) e] := by
  cases h with
  | num q => rfl
  | var args => rfl

theorem isBoolArith_makeArith : isBoolArith (makeArith op as)
    = .ok (op.toLower ∈ ["lteq", "lt", "gteq", "gt", "equal"]) := rfl

theorem indicatorToPureLp_arith {y : List LpExpr} :
    indicatorToPureLp bounds (makeEqual (makeVariable y) (makeArith op as))
      = if op.toLower ∈ ["lteq", "lt", "gteq", "gt", "equal"]
        then indicatorConstraints bounds (makeVariable y) (makeArith op as)
        else .ok [makeEqual (makeVariable y) (makeArith op as)] := by
  have hdo : indicatorToPureLp bounds (makeEqual (makeVariable y) (makeArith op as)) = (do
      if ← isBoolArith (makeArith op as) then
        indicatorConstraints bounds (makeVariable y) (makeArith op as)
      else .ok [makeEqual (makeVariable y) (makeArith op as)]) := rfl
  rw [hdo, isBoolArith_makeArith]
  by_cases h : op.toLower ∈ ["lteq", "lt", "gteq", "gt", "equal"]
  · rw [if_pos h, decide_eq_true h]
    rfl
  · rw [if_neg h, decide_eq_false h]
    rfl

theorem Plain.isTerm (h : Plain e) : IsTerm e := by
  cases h with
  | num q => exact .num q
  | var args => exact .var args

theorem kept_iff {cs : List LpExpr} (h : convertOne bounds e = .ok cs) :
    Kept bounds τ e ↔ ∀ c ∈ cs, Satisfies τ c := by
  constructor
  · rintro ⟨cs', hcs, hholds⟩
    rw [h] at hcs
    cases hcs
    exact hholds
  · exact fun hholds => ⟨cs, h, hholds⟩

/-- An equation that is a constraint itself. -/
theorem kept_equation {y : List LpExpr} {a b : LpExpr} (hb : removeAndOr a = .ok b) (hterm : IsTerm b)
    (h : indicatorToPureLp bounds (makeEqual (makeVariable y) b) = .ok [makeEqual (makeVariable y) b]) :
    Kept bounds τ (makeEqual (makeVariable y) a) ↔ τ y = number τ b := by
  have hone : convertOne bounds (makeEqual (makeVariable y) a) = .ok [makeEqual (makeVariable y) b] :=
    bind_ok.2 ⟨_, removeAndOr_makeEqual (removeAndOr_plain (.var y)) hb, h⟩
  rw [kept_iff hone, List.forall_mem_singleton]
  exact satisfies_makeEqual rfl (hterm.value_eq τ)

theorem not_compare (hop : op.toLower ∈ ["plus", "minus", "times"]) :
    op.toLower ∉ ["lteq", "lt", "gteq", "gt", "equal"] := by
  simp only [List.mem_cons, List.not_mem_nil, or_false] at hop ⊢
  rcases hop with hop | hop | hop <;> rw [hop] <;> decide

theorem kept_plain {y : List LpExpr} (h : Plain e) :
    Kept bounds τ (makeEqual (makeVariable y) e) ↔ τ y = number τ e :=
  kept_equation (removeAndOr_plain h) h.isTerm (indicatorToPureLp_plain h)

theorem kept_arith {y : List LpExpr} (hop : op.toLower ∈ ["plus", "minus", "times"])
    (h : ∀ a ∈ as, Plain a) : Kept bounds τ (makeEqual (makeVariable y) (makeArith op as))
      ↔ τ y = arithNumber op (as.map (number τ)) := by
  rw [kept_equation (removeAndOr_arith h) (.arith hop fun a ha => (h a ha).isTerm)
    (indicatorToPureLp_arith.trans (if_neg (not_compare hop))), number_makeArith]

theorem kept_and {y : List LpExpr} (h : ∀ a ∈ as, Plain a) :
    Kept bounds τ (makeEqual (makeVariable y) (.expr (.str "AND" :: as)))
      ↔ τ y = (as.map (number τ)).prod := by
  have hop : "times".toLower ∈ ["plus", "minus", "times"] := by simp [toLower_operators]
  rw [kept_equation removeAndOr_and (.arith hop fun a ha => (h a ha).isTerm)
    (indicatorToPureLp_arith.trans (if_neg (not_compare hop))), number_times]

theorem kept_or {y : List LpExpr} (h : ∀ a ∈ as, Plain a) :
    Kept bounds τ (makeEqual (makeVariable y) (.expr (.str "OR" :: as)))
      ↔ τ y = (as.map (number τ)).sum := by
  have hop : "plus".toLower ∈ ["plus", "minus", "times"] := by simp [toLower_operators]
  rw [kept_equation removeAndOr_or (.arith hop fun a ha => (h a ha).isTerm)
    (indicatorToPureLp_arith.trans (if_neg (not_compare hop))), number_plus]

theorem upperBound_minus {es : List LpExpr} :
    upperBound bounds (makeArith "minus" (e :: es)) = upperBound bounds e := by
  unfold makeArith
  rw [upperBound, show "minus".toLower = "minus" by simp [toLower_operators]]
  rfl

theorem arithToLtZero_makeArith : arithToLtZero (makeArith op [lhs, rhs])
    = match op.toLower with
      | "lt" => .ok (makeArith "minus" [lhs, rhs])
      | "lteq" => .ok (makeArith "minus" [makeArith "minus" [lhs, rhs], .num minThreshold])
      | "gt" => .ok (makeArith "minus" [rhs, lhs])
      | "gteq" => .ok (makeArith "minus" [makeArith "minus" [rhs, lhs], .num minThreshold])
      | _ => .error .conversion := rfl

theorem arithToLtZero_spec {x : LpExpr} (h : arithToLtZero (makeArith op [lhs, rhs]) = .ok x) :
    upperBound bounds x = upperBound bounds (bounded op lhs rhs)
      ∧ ∀ τ, number τ x = gap op (number τ lhs) (number τ rhs) := by
  rw [arithToLtZero_makeArith] at h
  unfold bounded gap
  split at h
  · rename_i hop
    cases h
    rw [hop, upperBound_minus]
    exact ⟨rfl, fun τ => number_minus ..⟩
  · rename_i hop
    cases h
    rw [hop, upperBound_minus, upperBound_minus]
    exact ⟨rfl, fun τ => by rw [number_minus, number_minus]; rfl⟩
  · rename_i hop
    cases h
    rw [hop, upperBound_minus]
    exact ⟨rfl, fun τ => number_minus ..⟩
  · rename_i hop
    cases h
    rw [hop, upperBound_minus, upperBound_minus]
    exact ⟨rfl, fun τ => by rw [number_minus, number_minus]; rfl⟩
  · cases h

/-- What the two constraints with a bound say about a variable for an inequality. -/
theorem indicator_iff {x y u : ℚ} (hy : y = 0 ∨ y = 1) : -1 * x ≤ y * u ∧ x < (1 - y) * u
    ↔ (-u ≤ x ∧ x < u) ∧ y = if x < 0 then 1 else 0 := by
  rcases hy with rfl | rfl
  · by_cases hx : x < 0
    · simp only [hx, if_true]
      constructor
      · rintro ⟨h, -⟩
        linarith
      · rintro ⟨-, h⟩
        linarith
    · simp only [hx, if_false, and_true]
      constructor
      · rintro ⟨h, h'⟩
        constructor <;> linarith
      · rintro ⟨h, h'⟩
        constructor <;> linarith
  · by_cases hx : x < 0
    · simp only [hx, if_true, and_true]
      constructor
      · rintro ⟨h, h'⟩
        constructor <;> linarith
      · rintro ⟨h, h'⟩
        constructor <;> linarith
    · simp only [hx, if_false]
      constructor
      · rintro ⟨-, h⟩
        linarith
      · rintro ⟨-, h⟩
        linarith

/-- A variable for a comparison is bounded in one way, and says so whether it holds. -/
theorem kept_compare {y : List LpExpr} (hop : op.toLower ∈ ["lt", "lteq", "gt", "gteq", "equal"])
    (hl : Plain lhs) (hr : Plain rhs)
    (h : ∃ cs, convertOne bounds (makeEqual (makeVariable y) (makeArith op [lhs, rhs])) = .ok cs) :
    ∃ u, upperBound bounds (bounded op lhs rhs) = .ok u ∧ ∀ τ : Assignment, τ y = 0 ∨ τ y = 1 →
      (Kept bounds τ (makeEqual (makeVariable y) (makeArith op [lhs, rhs]))
        ↔ (-(u + 1) ≤ gap op (number τ lhs) (number τ rhs) ∧ gap op (number τ lhs) (number τ rhs) < u + 1)
          ∧ τ y = if gap op (number τ lhs) (number τ rhs) < 0 then 1 else 0) := by
  obtain ⟨cs, hcs⟩ := h
  have hplain : ∀ a ∈ [lhs, rhs], Plain a := by
    simp only [List.mem_cons, List.not_mem_nil, or_false]
    rintro a (rfl | rfl)
    · exact hl
    · exact hr
  have hcompare : op.toLower ∈ ["lteq", "lt", "gteq", "gt", "equal"] := by
    simp only [List.mem_cons, List.not_mem_nil, or_false] at hop ⊢
    tauto
  have hkept := fun τ => kept_iff (τ := τ) hcs
  obtain ⟨e, he, hind⟩ := bind_ok.1 hcs
  rw [removeAndOr_makeEqual (removeAndOr_plain (.var y)) (removeAndOr_arith hplain)] at he
  cases he
  rw [indicatorToPureLp_arith, if_pos hcompare] at hind
  obtain ⟨x, hx, hind⟩ := bind_ok.1 hind
  obtain ⟨u, hu, hind⟩ := bind_ok.1 hind
  cases hind
  obtain ⟨hbound, hgap⟩ := @arithToLtZero_spec bounds op lhs rhs x hx
  refine ⟨u, hbound ▸ hu, fun τ hy => ?_⟩
  rw [hkept, List.forall_mem_cons, List.forall_mem_singleton, satisfies_lteq, satisfies_lt, number_times,
    number_times, number_times, hgap, ← indicator_iff hy]
  simp only [List.map_cons, List.map_nil, List.prod_cons, List.prod_nil, mul_one, number_minus, hgap]
  exact .rfl

/-! ## Flattening -/

theorem internal_injective : Function.Injective internal := by
  intro i j h
  have hq := LpExpr.num.inj (List.cons.inj (List.cons.inj h).2).1
  exact_mod_cast hq

theorem agree_of_agreeBelow {N : ℕ} {vars : List (List LpExpr)}
    (hnew : ∀ v ∈ vars, ∀ i, N ≤ i → v ≠ internal i) (h : AgreeBelow internal N τ τ') :
    ∀ v ∈ vars, τ v = τ' v := fun v hv => h v (hnew v hv)

theorem number_stable {N : ℕ} (hnew : ∀ v ∈ variablesOf e, ∀ i, N ≤ i → v ≠ internal i) :
    StableBelow internal N fun τ => number τ e := fun _ _ hτ =>
  congrArg Value.number (value_congr (agree_of_agreeBelow hnew hτ))

/-- The constraints for what was made hold, and new variables of type `bool` are 0 or 1. -/
def Meets (bounds : Bounds) (new : List ℕ) (extras : List LpExpr) (τ : Assignment) : Prop :=
  (∀ i ∈ new, τ (internal i) = 0 ∨ τ (internal i) = 1) ∧ ∀ f ∈ extras, Kept bounds τ f

def Converts (bounds : Bounds) (flats : List LpExpr) : Prop :=
  ∀ f ∈ flats, ∃ cs, convertOne bounds f = .ok cs

/-- An expression or a variable that was made for it. -/
def StandsFor (N : ℕ) (e e' : LpExpr) : Prop := e' = e ∨ ∃ i, N ≤ i ∧ e' = makeVariable (internal i)

/-- Flattened, an expression is a number or a variable whose value is `w` where the constraints can be met,
which is where `F` holds. -/
def Flattens (N : ℕ) (bounds : Bounds) (e : LpExpr) (F : Assignment → Prop) (w : Assignment → ℚ) : Prop :=
  ∀ st e' extras st', (flatten e true).run st = (.ok (e', extras), st') → N ≤ st.counter →
    Converts bounds extras → Plain e' ∧ StandsFor N e e' ∧ ∃ new, st'.bools = new ++ st.bools
      ∧ Extension internal st.counter st'.counter (Meets bounds new extras) F (fun τ => number τ e') w

theorem flatten_plain {indicator : Bool} (h : Plain e) : flatten e indicator = Pure.pure (e, []) := by
  cases h with
  | num q => rfl
  | var args =>
    unfold makeVariable
    rw [flatten, if_pos rfl]

theorem flattens_plain {N : ℕ} (h : Plain e) (hnew : ∀ v ∈ variablesOf e, ∀ i, N ≤ i → v ≠ internal i) :
    Flattens N bounds e (fun _ => True) fun τ => number τ e := by
  intro st e' extras st' hrun hN _
  rw [flatten_plain h] at hrun
  cases hrun
  have hpure := Extension.pure ((number_stable hnew).mono hN)
  refine ⟨h, .inl rfl, [], rfl, hpure.congr (fun τ => ?_) fun _ => .rfl⟩
  simp [Meets]

/-- Arguments are flattened one after the other. -/
theorem flattenArgs_spec {ι : Type} {N : ℕ} {g : ι → LpExpr} {F : ι → Assignment → Prop}
    {w : ι → Assignment → ℚ} : ∀ {l : List ι},
    (∀ i ∈ l, Flattens N bounds (g i) (F i) (w i)) →
    (∀ i ∈ l, StableBelow internal N (F i) ∧ StableBelow internal N (w i)) →
    ∀ {st st' : Fresh} {as extras : List LpExpr},
      (flattenArgs (l.map g) true).run st = (.ok (as, extras), st') → N ≤ st.counter →
      Converts bounds extras → (∀ a ∈ as, Plain a)
        ∧ List.Forall₂ (fun i a => StandsFor N (g i) a) l as ∧ ∃ new, st'.bools = new ++ st.bools
        ∧ Extension internal st.counter st'.counter (Meets bounds new extras)
          (fun τ => ∀ i ∈ l, F i τ) (fun τ => as.map (number τ)) fun τ => l.map fun i => w i τ
  | [], _, _, st, st', as, extras, hrun, _, _ => by
    cases hrun
    refine ⟨by simp, .nil, [], rfl, ?_⟩
    exact (Extension.pure fun _ _ _ => rfl).congr (fun τ => by simp [Meets]) fun τ => by simp
  | i :: l, hflat, hstable, st, st', as, extras, hrun, hN, hconv => by
    obtain ⟨hi, hflat⟩ := List.forall_mem_cons.1 hflat
    obtain ⟨-, hstable⟩ := List.forall_mem_cons.1 hstable
    rw [List.map_cons, flattenArgs] at hrun
    obtain ⟨⟨a, extra⟩, st₁, h₁, hrun⟩ := run_bind_ok.1 hrun
    obtain ⟨⟨as', extras'⟩, st₂, h₂, hrun⟩ := run_bind_ok.1 hrun
    cases hrun
    obtain ⟨hconv₁, hconv₂⟩ := List.forall_mem_append.1 hconv
    obtain ⟨hplain, hstands, new₁, hbools₁, hext₁⟩ := hi st a extra st₁ h₁ hN hconv₁
    obtain ⟨hplains, hforall, new₂, hbools₂, hext₂⟩ :=
      flattenArgs_spec hflat hstable h₂ (hN.trans hext₁.le) hconv₂
    refine ⟨List.forall_mem_cons.2 ⟨hplain, hplains⟩, .cons hstands hforall, new₂ ++ new₁,
      by rw [hbools₂, hbools₁, List.append_assoc], ?_⟩
    have hF : StableBelow internal st.counter fun τ => ∀ i ∈ l, F i τ := by
      intro τ τ' hτ
      refine propext (forall₂_congr fun i hi => ?_)
      rw [(hstable i hi).1 τ τ' (hτ.mono hN)]
    have hw : StableBelow internal st.counter fun τ => l.map fun i => w i τ := fun τ τ' hτ =>
      List.map_congr_left fun i hi => (hstable i hi).2 τ τ' (hτ.mono hN)
    refine ((hext₁.pair hext₂ hF hw).map fun p => p.1 :: p.2).congr (fun τ => ?_) fun τ => ?_
    · unfold Meets
      rw [List.forall_mem_append, List.forall_mem_append]
      tauto
    · rw [List.forall_mem_cons]

/-- What `flatten` does with an operator: its arguments come first. -/
theorem flatten_expr {o : String} {args extras : List LpExpr} {indicator : Bool} {e' : LpExpr}
    {st st' : Fresh} (ho : o ≠ "VAR")
    (hrun : (flatten (.expr (.str o :: args)) indicator).run st = (.ok (e', extras), st')) :
    ∃ newArgs extras' newExp st₁,
      (flattenArgs args (o.toLower ∉ ["eq", "noteq"])).run st = (.ok (newArgs, extras'), st₁)
        ∧ construct o newArgs = .ok newExp
        ∧ if indicator then ∃ extra, (createIntermediate newExp).run st₁ = (.ok (e', extra), st')
            ∧ extras = extra ++ extras'
          else e' = newExp ∧ extras = extras' ∧ st' = st₁ := by
  rw [flatten, if_neg fun h => ho (LpExpr.str.inj h)] at hrun
  obtain ⟨⟨newArgs, extras'⟩, st₁, h₁, hrun⟩ := run_bind_ok.1 hrun
  obtain ⟨newExp, hexp, hrun⟩ := run_lift_bind_ok.1 hrun
  refine ⟨newArgs, extras', newExp, st₁, h₁, hexp, ?_⟩
  cases indicator with
  | true =>
    obtain ⟨⟨indic, extra⟩, st₂, h₂, hrun⟩ := run_bind_ok.1 hrun
    cases hrun
    exact ⟨extra, h₂, rfl⟩
  | false =>
    cases hrun
    exact ⟨rfl, rfl, rfl⟩

theorem createIntermediate_run {b : Bool} {st : Fresh} (h : isBoolArith e = .ok b) :
    (createIntermediate e).run st = (.ok (makeVariable (internal st.counter),
        [makeEqual (makeVariable (internal st.counter)) e]),
      ⟨st.counter + 1, if b || isAnd e || isOr e then st.counter :: st.bools else st.bools⟩) := by
  unfold createIntermediate
  rw [h]
  rfl

/-- The arguments of an arithmetic operation, and what it becomes of them. -/
theorem flatten_arith {indicator : Bool} {as extras : List LpExpr} {e' : LpExpr} {st st' : Fresh}
    (hrun : (flatten (makeArith op as) indicator).run st = (.ok (e', extras), st')) :
    ∃ newArgs extras' st₁, (flattenArgs as true).run st = (.ok (newArgs, extras'), st₁)
      ∧ if indicator then ∃ extra,
            (createIntermediate (makeArith op newArgs)).run st₁ = (.ok (e', extra), st')
            ∧ extras = extra ++ extras'
          else e' = makeArith op newArgs ∧ extras = extras' ∧ st' = st₁ := by
  obtain ⟨newArgs, extras', newExp, st₁, hargs, hexp, hrest⟩ := flatten_expr (by decide) hrun
  have htrue : decide ("ARITH".toLower ∉ ["eq", "noteq"]) = true := by simp [toLower_operators]
  rw [htrue, flattenArgs] at hargs
  obtain ⟨⟨a, extra⟩, st₂, h₂, hargs⟩ := run_bind_ok.1 hargs
  cases h₂
  obtain ⟨⟨as', extras''⟩, st₃, h₃, hargs⟩ := run_bind_ok.1 hargs
  cases hargs
  rw [construct_arith (by simp [toLower_operators])] at hexp
  cases hexp
  exact ⟨as', extras'', _, h₃, hrest⟩

/-- A new variable with its constraint. -/
theorem extension_define {N c c' : ℕ} {γ : Type} {new : List ℕ} {extras : List LpExpr} {exp : LpExpr}
    {b : Bool} {F : Assignment → Prop} {v w : Assignment → γ} {G : γ → Prop} {f : γ → ℚ}
    (h : Extension internal c c' (Meets bounds new extras) F v w) (hN : N ≤ c)
    (hD : ∀ τ : Assignment, ((b = true → τ (internal c') = 0 ∨ τ (internal c') = 1)
      ∧ Kept bounds τ (makeEqual (makeVariable (internal c')) exp)) ↔ G (v τ) ∧ τ (internal c') = f (v τ)) :
    StandsFor N e (makeVariable (internal c'))
      ∧ Extension internal c (c' + 1)
        (Meets bounds ((if b then [c'] else []) ++ new)
          ([makeEqual (makeVariable (internal c')) exp] ++ extras))
        (fun τ => F τ ∧ G (w τ)) (fun τ => number τ (makeVariable (internal c'))) fun τ => f (w τ) := by
  refine ⟨.inr ⟨c', hN.trans h.le, rfl⟩, (h.define internal_injective hD).congr (fun τ => ?_) fun _ => .rfl⟩
  unfold Meets
  rw [List.forall_mem_append, List.forall_mem_append, List.forall_mem_singleton]
  have hbool : (∀ i ∈ (if b then [c'] else []), τ (internal i) = 0 ∨ τ (internal i) = 1)
      ↔ (b = true → τ (internal c') = 0 ∨ τ (internal c') = 1) := by
    cases b <;> simp
  rw [hbool]
  tauto

theorem notUsed_of_mem {N : ℕ} {o : String} {args : List LpExpr} (ho : o ≠ "VAR")
    (hnew : ∀ v ∈ variablesOf (.expr (.str o :: args)), ∀ i, N ≤ i → v ≠ internal i) :
    ∀ a ∈ args, ∀ v ∈ variablesOf a, ∀ i, N ≤ i → v ≠ internal i := by
  rw [variablesOf_expr ho] at hnew
  exact fun a ha v hv => hnew v (mem_variablesOfArgs.2 ⟨a, ha, hv⟩)

theorem notUsed_arith {N : ℕ} (hnew : ∀ v ∈ variablesOf (makeArith op as), ∀ i, N ≤ i → v ≠ internal i) :
    ∀ a ∈ as, ∀ v ∈ variablesOf a, ∀ i, N ≤ i → v ≠ internal i := fun a ha =>
  notUsed_of_mem (by decide) hnew a (List.mem_cons_of_mem _ ha)

/-- A term becomes a variable with its value. -/
theorem IsTerm.flattens {N : ℕ} (h : IsTerm e) (hnew : ∀ v ∈ variablesOf e, ∀ i, N ≤ i → v ≠ internal i) :
    Flattens N bounds e (fun _ => True) fun τ => number τ e := by
  induction h with
  | num q => exact flattens_plain (.num q) hnew
  | var args => exact flattens_plain (.var args) hnew
  | @arith op args hop _ ih =>
    intro st e' extras st' hrun hN hconv
    have hargs := notUsed_arith hnew
    obtain ⟨newArgs, extras', st₁, hflat, extra, hmake, rfl⟩ := flatten_arith hrun
    have hbool : isBoolArith (makeArith op newArgs) = .ok false := by
      rw [isBoolArith_makeArith, decide_eq_false (not_compare hop)]
    rw [createIntermediate_run hbool] at hmake
    cases hmake
    obtain ⟨hplain, -, new, hbools, hext⟩ := flattenArgs_spec (g := id) (fun a ha => ih a ha (hargs a ha))
      (fun a ha => ⟨fun _ _ _ => rfl, number_stable (hargs a ha)⟩) (by rwa [List.map_id]) hN
      (List.forall_mem_append.1 hconv).2
    obtain ⟨hstands, hdefine⟩ := extension_define (e := makeArith op args) (b := false)
      (G := fun _ => True) (f := arithNumber op) hext hN fun τ => by
        simpa using kept_arith hop hplain
    refine ⟨.var _, hstands, new, hbools, ?_⟩
    have hmeaning : (fun τ => number τ (makeArith op args))
        = fun τ => arithNumber op (args.map fun a => number τ a) := funext fun τ => number_makeArith ..
    rw [hmeaning]
    exact hdefine.congr (fun _ => .rfl) fun _ => by simp

/-- The side with the bound stays as it is, because no bounds are given for new variables. -/
theorem bounded_eq {N : ℕ} {lhs' rhs' : LpExpr} {u : ℚ} (hnone : ∀ i, N ≤ i → bounds (internal i) = none)
    (hl : StandsFor N lhs lhs') (hr : StandsFor N rhs rhs')
    (hu : upperBound bounds (bounded op lhs' rhs') = .ok u) :
    bounded op lhs' rhs' = bounded op lhs rhs := by
  have hmade : ∀ i, N ≤ i → upperBound bounds (makeVariable (internal i)) ≠ .ok u := by
    intro i hi h
    unfold makeVariable at h
    rw [upperBound, hnone i hi] at h
    cases h
  unfold bounded at hu ⊢
  split_ifs at hu ⊢
  · rcases hl with rfl | ⟨i, hi, rfl⟩
    · rfl
    · exact absurd hu (hmade i hi)
  · rcases hr with rfl | ⟨i, hi, rfl⟩
    · rfl
    · exact absurd hu (hmade i hi)

theorem within_makeArith : Within bounds τ (makeArith op [lhs, rhs])
    = ∀ upper, upperBound bounds (bounded op lhs rhs) = .ok upper →
      -(upper + 1) ≤ gap op (number τ lhs) (number τ rhs)
        ∧ gap op (number τ lhs) (number τ rhs) < upper + 1 := rfl

theorem atomCount_makeArith : atomCount τ (makeArith op [lhs, rhs])
    = if gap op (number τ lhs) (number τ rhs) < 0 then 1 else 0 := rfl

theorem within_compare {u : ℚ} (hu : upperBound bounds (bounded op lhs rhs) = .ok u) :
    Within bounds τ (makeArith op [lhs, rhs]) ↔ -(u + 1) ≤ gap op (number τ lhs) (number τ rhs)
      ∧ gap op (number τ lhs) (number τ rhs) < u + 1 := by
  constructor
  · exact fun h => h u hu
  · rintro h u' hu'
    rw [hu] at hu'
    cases hu'
    exact h

/-- The sides of a comparison differ by less than a bound and one more. -/
def SidesWithin (op : String) (u : ℚ) (sides : List ℚ) : Prop :=
  -(u + 1) ≤ gap op (sides.getD 0 0) (sides.getD 1 0) ∧ gap op (sides.getD 0 0) (sides.getD 1 0) < u + 1

def sidesCount (op : String) (sides : List ℚ) : ℚ :=
  if gap op (sides.getD 0 0) (sides.getD 1 0) < 0 then 1 else 0

/-- The sides of a comparison, and what its variable or the equation with it says. -/
theorem flatten_compare {N : ℕ} (hop : op.toLower ∈ ["lt", "lteq", "gt", "gteq", "equal"])
    (hl : IsTerm lhs) (hr : IsTerm rhs)
    (hnew : ∀ v ∈ variablesOf (makeArith op [lhs, rhs]), ∀ i, N ≤ i → v ≠ internal i)
    (hnone : ∀ i, N ≤ i → bounds (internal i) = none) {st st' : Fresh} {as extras : List LpExpr}
    (hrun : (flattenArgs [lhs, rhs] true).run st = (.ok (as, extras), st')) (hN : N ≤ st.counter)
    (hconv : Converts bounds extras) {y : List LpExpr}
    (hone : ∃ cs, convertOne bounds (makeEqual (makeVariable y) (makeArith op as)) = .ok cs) :
    ∃ u, upperBound bounds (bounded op lhs rhs) = .ok u ∧ ∃ new, st'.bools = new ++ st.bools
      ∧ Extension internal st.counter st'.counter (Meets bounds new extras) (fun _ => True)
        (fun τ => as.map (number τ)) (fun τ => [number τ lhs, number τ rhs])
      ∧ ∀ τ : Assignment, τ y = 0 ∨ τ y = 1 → (Kept bounds τ (makeEqual (makeVariable y) (makeArith op as))
        ↔ SidesWithin op u (as.map (number τ)) ∧ τ y = sidesCount op (as.map (number τ))) := by
  have hargs := notUsed_arith hnew
  have hterm : ∀ a ∈ [lhs, rhs], IsTerm a := by
    simp only [List.mem_cons, List.not_mem_nil, or_false]
    rintro a (rfl | rfl)
    · exact hl
    · exact hr
  obtain ⟨hplain, hforall, new, hbools, hext⟩ := flattenArgs_spec (g := id) (l := [lhs, rhs])
    (fun a ha => (hterm a ha).flattens (hargs a ha))
    (fun a ha => ⟨fun _ _ _ => rfl, number_stable (hargs a ha)⟩) hrun hN hconv
  cases hforall with
  | @cons _ lhs' _ as' hlhs htail =>
    cases htail with
    | @cons _ rhs' _ as' hrhs htail =>
      cases htail
      obtain ⟨hpl, hpr⟩ := List.forall_mem_cons.1 hplain
      obtain ⟨u, hu, hkept⟩ := kept_compare hop hpl (List.forall_mem_singleton.1 hpr) hone
      rw [bounded_eq hnone hlhs hrhs hu] at hu
      refine ⟨u, hu, new, hbools, hext.congr (fun _ => .rfl) fun _ => by simp, fun τ hy => ?_⟩
      exact hkept τ hy

theorem isBoolArith_compare (hop : op.toLower ∈ ["lt", "lteq", "gt", "gteq", "equal"]) :
    isBoolArith (makeArith op as) = .ok true := by
  rw [isBoolArith_makeArith, decide_eq_true]
  simp only [List.mem_cons, List.not_mem_nil, or_false] at hop ⊢
  tauto

/-- An atom becomes a variable that counts it, within the bound. -/
theorem IsAtom.flattens {N : ℕ} (h : IsAtom e) (hnew : ∀ v ∈ variablesOf e, ∀ i, N ≤ i → v ≠ internal i)
    (hnone : ∀ i, N ≤ i → bounds (internal i) = none) :
    Flattens N bounds e (fun τ => Within bounds τ e) fun τ => atomCount τ e := by
  cases h with
  | var args => exact flattens_plain (.var args) hnew
  | @compare op lhs rhs hop hl hr =>
    intro st e' extras st' hrun hN hconv
    obtain ⟨as, extras', st₁, hflat, extra, hmake, rfl⟩ := flatten_arith hrun
    rw [createIntermediate_run (isBoolArith_compare hop)] at hmake
    cases hmake
    obtain ⟨hone, hconv⟩ := List.forall_mem_append.1 hconv
    obtain ⟨u, hu, new, hbools, hext, hkept⟩ := flatten_compare hop hl hr hnew hnone hflat hN hconv
      (hone _ List.mem_cons_self)
    obtain ⟨hstands, hdefine⟩ := extension_define (e := makeArith op [lhs, rhs]) (b := true)
      (G := SidesWithin op u) (f := sidesCount op) hext hN fun τ => by
        constructor
        · rintro ⟨hbool, hk⟩
          exact (hkept τ (hbool rfl)).1 hk
        · rintro ⟨hG, hτ⟩
          have hbool : τ (internal st₁.counter) = 0 ∨ τ (internal st₁.counter) = 1 := by
            rw [hτ, sidesCount]
            split_ifs
            · exact .inr rfl
            · exact .inl rfl
          exact ⟨fun _ => hbool, (hkept τ hbool).2 ⟨hG, hτ⟩⟩
    refine ⟨.var _, hstands, st₁.counter :: new, by rw [hbools]; rfl, ?_⟩
    exact hdefine.congr (fun _ => .rfl) fun τ => (within_compare hu).trans (iff_of_eq (true_and _).symm)

/-- The atoms of a conjunction hold, up to the threshold. -/
def conjunctCount (σ : Assignment) (d : List LpExpr) : ℚ := (d.map (atomCount σ)).prod

/-- The comparisons of a conjunction are within their bounds; it counts at most once if it gets a
variable. -/
def ConjunctOk (bounds : Bounds) (σ : Assignment) (d : List LpExpr) : Prop :=
  (∀ a ∈ d, Within bounds σ a) ∧ (d.length ≠ 1 → conjunctCount σ d = 0 ∨ conjunctCount σ d = 1)

theorem makeAnd_eq (h : as.length ≠ 1) : makeAnd as = .expr (.str "AND" :: as) := by
  unfold makeAnd
  split
  · exact absurd rfl h
  · rfl

theorem makeOr_eq (h : as.length ≠ 1) : makeOr as = .expr (.str "OR" :: as) := by
  unfold makeOr
  split
  · exact absurd rfl h
  · rfl

/-- Whether a comparison is within its bounds depends on its variables only, and so does its count. -/
theorem atom_congr (bounds : Bounds) (h : IsAtom e) (hσ : ∀ v ∈ variablesOf e, τ v = σ v) :
    (Within bounds τ e ↔ Within bounds σ e) ∧ atomCount τ e = atomCount σ e := by
  have hval := value_congr hσ
  cases h with
  | var args => exact ⟨.rfl, congrArg Value.number hval⟩
  | @compare op lhs rhs hop hl hr =>
    have hargs : ∀ a ∈ [lhs, rhs], number τ a = number σ a := fun a ha =>
      congrArg Value.number (value_congr fun v hv => hσ v (by
        unfold makeArith
        rw [variablesOf_expr (by decide)]
        exact mem_variablesOfArgs.2 ⟨a, List.mem_cons_of_mem _ ha, hv⟩))
    obtain ⟨hlhs, hrhs⟩ := List.forall_mem_cons.1 hargs
    have hrhs := List.forall_mem_singleton.1 hrhs
    rw [within_makeArith, within_makeArith, atomCount_makeArith, atomCount_makeArith, hlhs, hrhs]
    exact ⟨.rfl, rfl⟩

/-- What the atoms of a list share. -/
structure Atoms (N : ℕ) (bounds : Bounds) (d : List LpExpr) : Prop where
  atoms : ∀ a ∈ d, IsAtom a
  notUsed : ∀ a ∈ d, ∀ v ∈ variablesOf a, ∀ i, N ≤ i → v ≠ internal i
  notBounded : ∀ i, N ≤ i → bounds (internal i) = none

theorem Atoms.stable {N : ℕ} {d : List LpExpr} (h : Atoms N bounds d) : ∀ a ∈ d,
    StableBelow internal N (fun τ => Within bounds τ a)
      ∧ StableBelow internal N fun τ => atomCount τ a := by
  refine fun a ha => ⟨fun τ τ' hτ => ?_, fun τ τ' hτ => ?_⟩
  · exact propext (atom_congr bounds (h.atoms a ha) (agree_of_agreeBelow (h.notUsed a ha) hτ)).1
  · exact (atom_congr bounds (h.atoms a ha) (agree_of_agreeBelow (h.notUsed a ha) hτ)).2

theorem Atoms.conjunct_stable {N : ℕ} {d : List LpExpr} (h : Atoms N bounds d) :
    StableBelow internal N (fun τ => ConjunctOk bounds τ d)
      ∧ StableBelow internal N fun τ => conjunctCount τ d := by
  have hcount : StableBelow internal N fun τ => conjunctCount τ d := fun τ τ' hτ =>
    congrArg List.prod (List.map_congr_left fun a ha => (h.stable a ha).2 τ τ' hτ)
  refine ⟨fun τ τ' hτ => propext ?_, hcount⟩
  have hsame : conjunctCount τ d = conjunctCount τ' d := hcount τ τ' hτ
  exact and_congr (forall₂_congr fun a ha => iff_of_eq ((h.stable a ha).1 τ τ' hτ)) (by rw [hsame])

/-- The arguments of a conjunction. -/
theorem Atoms.flattenArgs {N : ℕ} {d as extras : List LpExpr} {st st' : Fresh} (h : Atoms N bounds d)
    (hrun : (flattenArgs d true).run st = (.ok (as, extras), st')) (hN : N ≤ st.counter)
    (hconv : Converts bounds extras) : (∀ a ∈ as, Plain a) ∧ as.length = d.length
      ∧ ∃ new, st'.bools = new ++ st.bools
      ∧ Extension internal st.counter st'.counter (Meets bounds new extras)
        (fun τ => ∀ a ∈ d, Within bounds τ a) (fun τ => as.map (number τ)) fun τ => d.map (atomCount τ) := by
  obtain ⟨hplain, hforall, new, hbools, hext⟩ := flattenArgs_spec (g := id)
    (fun a ha => (h.atoms a ha).flattens (h.notUsed a ha) h.notBounded) h.stable
    (by rwa [List.map_id]) hN hconv
  exact ⟨hplain, hforall.length_eq.symm, new, hbools, hext⟩

/-- The conjunction of a list, flattened. -/
theorem flatten_and {indicator : Bool} {d extras : List LpExpr} {e' : LpExpr} {st st' : Fresh}
    (hd : d.length ≠ 1) (hrun : (flatten (makeAnd d) indicator).run st = (.ok (e', extras), st')) :
    ∃ as extras' st₁, (flattenArgs d true).run st = (.ok (as, extras'), st₁)
      ∧ if indicator then ∃ extra, (createIntermediate (makeAnd as)).run st₁ = (.ok (e', extra), st')
            ∧ extras = extra ++ extras'
          else e' = makeAnd as ∧ extras = extras' ∧ st' = st₁ := by
  rw [makeAnd_eq hd] at hrun
  obtain ⟨as, extras', newExp, st₁, hargs, hexp, hrest⟩ := flatten_expr (by decide) hrun
  rw [show decide ("AND".toLower ∉ ["eq", "noteq"]) = true by simp [toLower_operators]] at hargs
  rw [construct_and (by simp [toLower_operators])] at hexp
  cases hexp
  exact ⟨as, extras', st₁, hargs, hrest⟩

/-- A conjunction becomes a variable that counts it, if it is 0 or 1. -/
theorem Atoms.flattens {N : ℕ} {d : List LpExpr} (h : Atoms N bounds d) :
    Flattens N bounds (makeAnd d) (fun τ => ConjunctOk bounds τ d) fun τ => conjunctCount τ d := by
  by_cases hd : d.length = 1
  · obtain ⟨a, rfl⟩ := List.length_eq_one_iff.1 hd
    intro st e' extras st' hrun hN hconv
    obtain ⟨hplain, hstands, new, hbools, hext⟩ := (h.atoms a List.mem_cons_self).flattens
      (h.notUsed a List.mem_cons_self) h.notBounded st e' extras st' hrun hN hconv
    have hcount : (fun τ => conjunctCount τ [a]) = fun τ => atomCount τ a := by
      funext τ
      simp [conjunctCount]
    rw [hcount]
    exact ⟨hplain, hstands, new, hbools, hext.congr (fun _ => .rfl) fun τ => by simp [ConjunctOk]⟩
  · intro st e' extras st' hrun hN hconv
    obtain ⟨as, extras', st₁, hflat, extra, hmake, rfl⟩ := flatten_and hd hrun
    obtain ⟨-, hconv⟩ := List.forall_mem_append.1 hconv
    obtain ⟨hplain, hlen, new, hbools, hext⟩ := h.flattenArgs hflat hN hconv
    rw [makeAnd_eq (hlen ▸ hd), createIntermediate_run (b := false) rfl] at hmake
    cases hmake
    obtain ⟨hstands, hdefine⟩ := extension_define (e := makeAnd d) (b := true)
      (G := fun qs => qs.prod = 0 ∨ qs.prod = 1) (f := List.prod) hext hN fun τ => by
        rw [kept_and hplain]
        constructor
        · rintro ⟨hbool, hτ⟩
          exact ⟨hτ ▸ hbool rfl, hτ⟩
        · rintro ⟨hG, hτ⟩
          exact ⟨fun _ => hτ ▸ hG, hτ⟩
    refine ⟨.var _, hstands, st₁.counter :: new, by rw [hbools]; rfl,
      hdefine.congr (fun _ => .rfl) fun τ => ?_⟩
    exact and_congr_right fun _ => ⟨fun hok => hok hd, fun hok _ => hok⟩

/-! ## Equations -/

/-- Where the constraints can be met by values for the variables that are made, and an equation with what
was made for its right side. -/
theorem exists_extension_iff {c c' : ℕ} {γ : Type} {C F K : Assignment → Prop} {v w : Assignment → γ}
    {G : γ → Prop} {f : γ → ℚ} {vars : List (List LpExpr)} (h : Extension internal c c' C F v w)
    (hK : ∀ τ : Assignment, τ y = 0 ∨ τ y = 1 → (K τ ↔ G (v τ) ∧ τ y = f (v τ)))
    (hy : y ∈ vars) (hnew : ∀ x ∈ vars, ∀ i, c ≤ i → x ≠ internal i)
    (hF : ∀ τ σ : Assignment, (∀ x ∈ vars, τ x = σ x) → (F τ ↔ F σ) ∧ w τ = w σ)
    (hσ : σ y = 0 ∨ σ y = 1) :
    (∃ τ, (∀ x ∈ vars, τ x = σ x) ∧ C τ ∧ K τ) ↔ F σ ∧ G (w σ) ∧ σ y = f (w σ) := by
  constructor
  · rintro ⟨τ, hτ, hC, hk⟩
    obtain ⟨hFτ, hvw⟩ := h.sound τ hC
    obtain ⟨hG, heq⟩ := (hK τ (by rwa [hτ y hy])).1 hk
    obtain ⟨hFσ, hwσ⟩ := hF τ σ hτ
    rw [hvw, hwσ] at hG heq
    exact ⟨hFσ.1 hFτ, hG, by rw [← hτ y hy, heq]⟩
  · rintro ⟨hFσ, hG, heq⟩
    obtain ⟨τ, hτ, hC, hvw⟩ := h.exists_of_feasible hFσ
    have hagree := agree_of_agreeBelow hnew hτ
    refine ⟨τ, fun x hx => (hagree x hx).symm, hC, (hK τ ?_).2 ?_⟩
    · rwa [← hagree y hy]
    · rw [hvw, ← hagree y hy]
      exact ⟨hG, heq⟩

/-- What an equation comes to: everything that is a disjunction is counted. -/
def Counts (bounds : Bounds) (σ : Assignment) (y : List LpExpr) (ds : List (List LpExpr)) : Prop :=
  AllWithin bounds σ ds ∧ σ y = disjunctCount σ ds

/-- The expressions of an equation. -/
structure Equation (N : ℕ) (bounds : Bounds) (y : List LpExpr) (ds : List (List LpExpr))
    (vars : List (List LpExpr)) : Prop where
  atoms : ∀ d ∈ ds, Atoms N bounds d
  left : y ∈ vars
  right : ∀ d ∈ ds, ∀ a ∈ d, ∀ v ∈ variablesOf a, v ∈ vars
  notUsed : ∀ v ∈ vars, ∀ i, N ≤ i → v ≠ internal i

variable {vars : List (List LpExpr)} {N : ℕ}

theorem Equation.atoms_congr (h : Equation N bounds y ds vars) (hσ : ∀ v ∈ vars, τ v = σ v) :
    ∀ d ∈ ds, ((∀ a ∈ d, Within bounds τ a) ↔ ∀ a ∈ d, Within bounds σ a)
      ∧ d.map (atomCount τ) = d.map (atomCount σ) := fun d hd => by
  have ha := fun a ha => atom_congr bounds ((h.atoms d hd).atoms a ha) fun v hv =>
    hσ v (h.right d hd a ha v hv)
  exact ⟨forall₂_congr fun a hmem => (ha a hmem).1, List.map_congr_left fun a hmem => (ha a hmem).2⟩

theorem Equation.conjuncts_congr (h : Equation N bounds y ds vars) (hσ : ∀ v ∈ vars, τ v = σ v) :
    ((∀ d ∈ ds, ConjunctOk bounds τ d) ↔ ∀ d ∈ ds, ConjunctOk bounds σ d)
      ∧ ds.map (conjunctCount τ) = ds.map (conjunctCount σ) := by
  have hcount : ∀ d ∈ ds, conjunctCount τ d = conjunctCount σ d := fun d hd => by
    rw [conjunctCount, (h.atoms_congr hσ d hd).2, conjunctCount]
  refine ⟨forall₂_congr fun d hd => ?_, List.map_congr_left hcount⟩
  rw [ConjunctOk, ConjunctOk, (h.atoms_congr hσ d hd).1, hcount d hd]

/-- The disjunction of a list, flattened. -/
theorem flatten_or {ds : List LpExpr} {extras : List LpExpr} {e' : LpExpr} {st st' : Fresh}
    (hds : ds.length ≠ 1) (hrun : (flatten (makeOr ds) false).run st = (.ok (e', extras), st')) :
    ∃ as, (flattenArgs ds true).run st = (.ok (as, extras), st') ∧ e' = makeOr as := by
  rw [makeOr_eq hds] at hrun
  obtain ⟨as, extras', newExp, st₁, hargs, hexp, rfl, rfl, rfl⟩ := flatten_expr (by decide) hrun
  rw [show decide ("OR".toLower ∉ ["eq", "noteq"]) = true by simp [toLower_operators]] at hargs
  rw [construct_or (by simp [toLower_operators])] at hexp
  cases hexp
  exact ⟨as, hargs, rfl⟩

theorem natural_atomCount (h : IsAtom e) (hσ : ∀ v ∈ variablesOf e, ∃ n : ℕ, σ v = n) :
    ∃ n : ℕ, atomCount σ e = n := by
  cases h with
  | var args =>
    refine hσ args ?_
    unfold makeVariable
    rw [variablesOf, if_pos rfl]
    exact List.mem_singleton_self args
  | compare =>
    rw [atomCount_makeArith]
    split_ifs
    · exact ⟨1, rfl⟩
    · exact ⟨0, rfl⟩

theorem natural_prod : ∀ {qs : List ℚ}, (∀ q ∈ qs, ∃ n : ℕ, q = n) → ∃ n : ℕ, qs.prod = n
  | [], _ => ⟨1, by simp⟩
  | q :: qs, h => by
    obtain ⟨⟨n, rfl⟩, hqs⟩ := List.forall_mem_cons.1 h
    obtain ⟨m, hm⟩ := natural_prod hqs
    exact ⟨n * m, by rw [List.prod_cons, hm, Nat.cast_mul]⟩

/-- Of numbers whose sum is 0 or 1 each is. -/
theorem bool_of_sum {l : List ℚ} (h : ∀ q ∈ l, ∃ n : ℕ, q = n) (hsum : l.sum = 0 ∨ l.sum = 1) {q : ℚ}
    (hq : q ∈ l) : q = 0 ∨ q = 1 := by
  have hle : q ≤ l.sum := List.single_le_sum (fun p hp => by
    obtain ⟨n, rfl⟩ := h p hp
    exact Nat.cast_nonneg n) q hq
  obtain ⟨n, rfl⟩ := h q hq
  have hn : (n : ℚ) ≤ (1 : ℕ) := hle.trans (by rcases hsum with hs | hs <;> rw [hs] <;> norm_num)
  rcases Nat.le_one_iff_eq_zero_or_eq_one.1 (Nat.cast_le.1 hn) with rfl | rfl
  · exact .inl Nat.cast_zero
  · exact .inr Nat.cast_one

theorem Equation.natural (h : Equation N bounds y ds vars) (hσ : ∀ v ∈ vars, ∃ n : ℕ, σ v = n) :
    ∀ d ∈ ds, ∃ n : ℕ, conjunctCount σ d = n := fun d hd => by
  refine natural_prod fun q hq => ?_
  obtain ⟨a, ha, rfl⟩ := List.mem_map.1 hq
  exact natural_atomCount ((h.atoms d hd).atoms a ha) fun v hv => hσ v (h.right d hd a ha v hv)

/-- The equation with the expression that a disjunction was flattened to, and the constraints for what was
made, say that the disjuncts are counted. -/
def Says (bounds : Bounds) (y : List LpExpr) (ds : List (List LpExpr)) (vars : List (List LpExpr))
    (st : Fresh) (e' : LpExpr) (extras : List LpExpr) (st' : Fresh) : Prop :=
  ∃ new, st'.bools = new ++ st.bools ∧ ∀ σ : Assignment, σ y = 0 ∨ σ y = 1 →
    (∀ v ∈ vars, ∃ n : ℕ, σ v = n) →
      ((∃ τ, (∀ v ∈ vars, τ v = σ v) ∧ Meets bounds new extras τ
        ∧ Kept bounds τ (makeEqual (makeVariable y) e')) ↔ Counts bounds σ y ds)

section Equations

variable {e' : LpExpr} {extras d : List LpExpr} {st st' : Fresh} {a : LpExpr}

theorem Equation.newer (h : Equation N bounds y ds vars) (hN : N ≤ st.counter) :
    ∀ v ∈ vars, ∀ i, st.counter ≤ i → v ≠ internal i := fun v hv i hi => h.notUsed v hv i (hN.trans hi)

theorem counts_single : Counts bounds σ y [d] ↔ (∀ a ∈ d, Within bounds σ a) ∧ σ y = conjunctCount σ d := by
  simp [Counts, AllWithin, disjunctCount, conjunctCount]

theorem counts_atom : Counts bounds σ y [[a]] ↔ Within bounds σ a ∧ σ y = atomCount σ a := by
  rw [counts_single, List.forall_mem_singleton, conjunctCount, List.map_singleton, List.prod_singleton]

theorem Equation.states_variable {args : List LpExpr} (h : Equation N bounds y [[makeVariable args]] vars)
    (hrun : (flatten (makeVariable args) false).run st = (.ok (e', extras), st')) (hN : N ≤ st.counter) :
    Says bounds y [[makeVariable args]] vars st e' extras st' := by
  have hmem : makeVariable args ∈ [makeVariable args] := List.mem_cons_self
  rw [flatten_plain (.var args)] at hrun
  cases hrun
  refine ⟨[], rfl, fun σ hσ _ => ?_⟩
  have hnot := (h.atoms _ List.mem_cons_self).notUsed _ hmem
  have hext : Extension internal st.counter st.counter (Meets bounds [] []) (fun _ => True)
      (fun τ => number τ (makeVariable args)) fun τ => number τ (makeVariable args) :=
    (Extension.pure ((number_stable hnot).mono hN)).congr (fun τ => by simp [Meets]) fun _ => .rfl
  rw [exists_extension_iff (G := fun _ => True) (f := id) hext
    (fun τ _ => (kept_plain (.var args)).trans (by simp)) h.left (h.newer hN)
    (fun τ σ hτ => ⟨.rfl, congrArg Value.number (value_congr fun v hv =>
      hτ v (h.right _ List.mem_cons_self _ hmem v hv))⟩) hσ, counts_atom]
  simp [Within, makeVariable, atomCount]

theorem Equation.states_compare (hop : op.toLower ∈ ["lt", "lteq", "gt", "gteq", "equal"]) (hl : IsTerm lhs)
    (hr : IsTerm rhs) (h : Equation N bounds y [[makeArith op [lhs, rhs]]] vars)
    (hrun : (flatten (makeArith op [lhs, rhs]) false).run st = (.ok (e', extras), st'))
    (hN : N ≤ st.counter) (hextras : Converts bounds extras)
    (hone : ∃ cs, convertOne bounds (makeEqual (makeVariable y) e') = .ok cs) :
    Says bounds y [[makeArith op [lhs, rhs]]] vars st e' extras st' := by
  have hmem : makeArith op [lhs, rhs] ∈ [makeArith op [lhs, rhs]] := List.mem_cons_self
  have hatoms := h.atoms _ List.mem_cons_self
  obtain ⟨as, extras', st₁, hflat, rfl, rfl, rfl⟩ := flatten_arith hrun
  obtain ⟨u, hu, new, hbools, hext, hkept⟩ := flatten_compare hop hl hr (hatoms.notUsed _ hmem)
    hatoms.notBounded hflat hN hextras hone
  refine ⟨new, hbools, fun σ hσ _ => ?_⟩
  have hargs : ∀ τ σ : Assignment, (∀ x ∈ vars, τ x = σ x) →
      [number τ lhs, number τ rhs] = [number σ lhs, number σ rhs] := by
    intro τ σ hτ
    have hside : ∀ b ∈ [lhs, rhs], number τ b = number σ b := fun b hb =>
      congrArg Value.number (value_congr fun v hv => hτ v (h.right _ List.mem_cons_self _ hmem v (by
        unfold makeArith
        rw [variablesOf_expr (by decide)]
        exact mem_variablesOfArgs.2 ⟨b, List.mem_cons_of_mem _ hb, hv⟩)))
    rw [hside lhs List.mem_cons_self, hside rhs (List.mem_cons_of_mem _ List.mem_cons_self)]
  refine (exists_extension_iff (G := SidesWithin op u) (f := sidesCount op) hext hkept h.left (h.newer hN)
    (fun τ σ hτ => ⟨.rfl, hargs τ σ hτ⟩) hσ).trans ?_
  rw [counts_atom, within_compare hu, atomCount_makeArith, true_and]
  rfl

theorem Equation.states_conjunction (hd : d.length ≠ 1) (h : Equation N bounds y [d] vars)
    (hrun : (flatten (makeAnd d) false).run st = (.ok (e', extras), st')) (hN : N ≤ st.counter)
    (hextras : Converts bounds extras) : Says bounds y [d] vars st e' extras st' := by
  obtain ⟨as, extras', st₁, hflat, rfl, rfl, rfl⟩ := flatten_and hd hrun
  obtain ⟨hplain, hlen, new, hbools, hext⟩ := (h.atoms d List.mem_cons_self).flattenArgs hflat hN hextras
  refine ⟨new, hbools, fun σ hσ _ => ?_⟩
  rw [makeAnd_eq (hlen ▸ hd), exists_extension_iff (G := fun _ => True) (f := List.prod) hext
    (fun τ _ => (kept_and hplain).trans (by simp)) h.left (h.newer hN)
    (fun τ σ hτ => h.atoms_congr hτ d List.mem_cons_self) hσ, counts_single, true_and]
  rfl

theorem Equation.states_disjunction (hds : ds.length ≠ 1) (h : Equation N bounds y ds vars)
    (hrun : (flatten (disjunction ds) false).run st = (.ok (e', extras), st')) (hN : N ≤ st.counter)
    (hextras : Converts bounds extras) : Says bounds y ds vars st e' extras st' := by
  obtain ⟨as, hflat, rfl⟩ := flatten_or (by rwa [List.length_map]) hrun
  obtain ⟨hplain, hforall, new, hbools, hext⟩ := flattenArgs_spec (fun d hd => (h.atoms d hd).flattens)
    (fun d hd => (h.atoms d hd).conjunct_stable) hflat hN hextras
  refine ⟨new, hbools, fun σ hσ hnat => ?_⟩
  rw [makeOr_eq (hforall.length_eq ▸ hds), exists_extension_iff (G := fun _ => True) (f := List.sum) hext
    (fun τ _ => (kept_or hplain).trans (by simp)) h.left (h.newer hN)
    (fun τ σ hτ => h.conjuncts_congr hτ) hσ, true_and]
  constructor
  · rintro ⟨hok, hsum⟩
    exact ⟨fun d hd => (hok d hd).1, hsum⟩
  · rintro ⟨hall, hsum⟩
    refine ⟨fun d hd => ⟨hall d hd, fun _ => ?_⟩, hsum⟩
    refine bool_of_sum (l := ds.map (conjunctCount σ)) (fun q hq => ?_) ?_ (List.mem_map_of_mem hd)
    · obtain ⟨d', hd', rfl⟩ := List.mem_map.1 hq
      exact h.natural hnat d' hd'
    · have hsum : σ y = (ds.map (conjunctCount σ)).sum := hsum
      rwa [← hsum]

/-- What the constraints for an equation say. -/
theorem Equation.states (h : Equation N bounds y ds vars)
    (hrun : (flatten (disjunction ds) false).run st = (.ok (e', extras), st')) (hN : N ≤ st.counter)
    (hextras : Converts bounds extras)
    (hone : ∃ cs, convertOne bounds (makeEqual (makeVariable y) e') = .ok cs) :
    Says bounds y ds vars st e' extras st' := by
  by_cases hds : ds.length = 1
  · obtain ⟨d, rfl⟩ := List.length_eq_one_iff.1 hds
    by_cases hd : d.length = 1
    · obtain ⟨a, rfl⟩ := List.length_eq_one_iff.1 hd
      cases (h.atoms [a] List.mem_cons_self).atoms a List.mem_cons_self with
      | var args => exact h.states_variable hrun hN
      | compare hop hl hr => exact h.states_compare hop hl hr hrun hN hextras hone
    · exact h.states_conjunction hd hrun hN hextras
  · exact h.states_disjunction hds hrun hN hextras

end Equations

/-! ## Exactness -/

theorem value_disjunction (h : ∀ d ∈ ds, ∀ a ∈ d, IsAtom a) (σ : Assignment) :
    value σ (disjunction ds) = .num (number σ (disjunction ds)) := by
  have hnum : ∀ {o : String} {args : List LpExpr}, o = "AND" ∨ o = "OR" →
      value σ (.expr (.str o :: args)) = .num (number σ (.expr (.str o :: args))) := by
    rintro o args (rfl | rfl) <;> rfl
  unfold disjunction
  by_cases hds : ds.length = 1
  · obtain ⟨d, rfl⟩ := List.length_eq_one_iff.1 hds
    rw [List.map_singleton, makeOr]
    by_cases hd : d.length = 1
    · obtain ⟨a, rfl⟩ := List.length_eq_one_iff.1 hd
      cases h _ List.mem_cons_self a List.mem_cons_self with
      | var args => rfl
      | compare => exact value_makeArith_eq ..
    · rw [makeAnd_eq hd]
      exact hnum (.inl rfl)
  · rw [makeOr_eq (by rwa [List.length_map])]
    exact hnum (.inr rfl)

theorem variablesOf_equation : variablesOf (equation y ds) = y :: variablesOf (disjunction ds) := by
  unfold equation makeEqual makeVariable
  rw [variablesOf_expr (by decide), variablesOfArgs, variablesOfArgs, variablesOfArgs, variablesOf,
    if_pos rfl, List.append_nil]
  rfl

theorem mem_variablesOf_disjunction {d : List LpExpr} {a : LpExpr} {v : List LpExpr} (hd : d ∈ ds)
    (ha : a ∈ d) (hv : v ∈ variablesOf a) : v ∈ variablesOf (disjunction ds) := by
  have hand : v ∈ variablesOf (makeAnd d) := by
    by_cases hlen : d.length = 1
    · obtain ⟨b, rfl⟩ := List.length_eq_one_iff.1 hlen
      obtain rfl := List.mem_singleton.1 ha
      exact hv
    · rw [makeAnd_eq hlen, variablesOf_expr (by decide)]
      exact mem_variablesOfArgs.2 ⟨a, ha, hv⟩
  unfold disjunction
  by_cases hlen : ds.length = 1
  · obtain ⟨b, rfl⟩ := List.length_eq_one_iff.1 hlen
    obtain rfl := List.mem_singleton.1 hd
    exact hand
  · rw [makeOr_eq (by rwa [List.length_map]), variablesOf_expr (by decide)]
    exact mem_variablesOfArgs.2 ⟨_, List.mem_map_of_mem hd, hand⟩

theorem equation_of_new (hatoms : ∀ d ∈ ds, ∀ a ∈ d, IsAtom a) (hnew : New n bounds (equation y ds)) :
    Equation n bounds y ds (variablesOf (equation y ds)) where
  atoms d hd := ⟨hatoms d hd, fun a ha v hv => hnew.notUsed v (by
    rw [variablesOf_equation]
    exact List.mem_cons_of_mem _ (mem_variablesOf_disjunction hd ha hv)), hnew.notBounded⟩
  left := by
    rw [variablesOf_equation]
    exact List.mem_cons_self
  right d hd a ha v hv := by
    rw [variablesOf_equation]
    exact List.mem_cons_of_mem _ (mem_variablesOf_disjunction hd ha hv)
  notUsed := hnew.notUsed

/-- What `pure_lp` makes of an equation. -/
theorem pureLp_run {cs : List LpExpr} {st st' : Fresh}
    (hrun : (pureLp (equation y ds) bounds).run st = (.ok cs, st')) : ∃ e' extras,
      (flatten (disjunction ds) false).run st = (.ok (e', extras), st')
        ∧ convert bounds (extras ++ [makeEqual (makeVariable y) e']) = .ok cs := by
  unfold pureLp at hrun
  obtain ⟨⟨flat, support⟩, st₁, hflat, hrun⟩ := run_bind_ok.1 hrun
  obtain ⟨hcs, rfl⟩ := Prod.mk.inj hrun
  obtain ⟨newArgs, extras, newExp, st₂, hargs, hexp, rfl, rfl, rfl⟩ := flatten_expr (by decide) hflat
  rw [show decide ("EQ".toLower ∉ ["eq", "noteq"]) = false by simp [toLower_operators], flattenArgs,
    flatten_plain (.var y), run_pure_bind, flattenArgs] at hargs
  obtain ⟨⟨as, extras'⟩, st₃, hargs, hpure⟩ := run_bind_ok.1 hargs
  cases hpure
  obtain ⟨⟨e', extra⟩, st₄, hright, hargs⟩ := run_bind_ok.1 hargs
  cases hargs
  rw [construct_eq (by simp [toLower_operators])] at hexp
  cases hexp
  refine ⟨e', extra, hright, ?_⟩
  rwa [List.nil_append, List.append_nil] at hcs

/-- For an admissible assignment `pure_lp` is exact if and only if the disjuncts are counted right. -/
theorem pureLp_exact_iff (bounds : Bounds) (y : List LpExpr) (ds : List (List LpExpr)) (n : ℕ)
    (hatoms : ∀ d ∈ ds, ∀ a ∈ d, IsAtom a) (hnew : New n bounds (equation y ds)) {cs : List LpExpr}
    {fresh : Fresh} (hrun : (pureLp (equation y ds) bounds).run ⟨n, []⟩ = (.ok cs, fresh)) {σ : Assignment}
    (hσ : Admissible bounds σ y ds) :
    (Satisfies σ (equation y ds) ↔ Extends σ (equation y ds) cs fresh.bools)
      ↔ CountedRight bounds σ y ds := by
  obtain ⟨e', extras, hflat, hconvert⟩ := pureLp_run hrun
  obtain ⟨hconv, hkept⟩ := convert_ok hconvert
  obtain ⟨hextras, hone⟩ := List.forall_mem_append.1 hconv
  obtain ⟨new, hbools, hstates⟩ := (equation_of_new hatoms hnew).states hflat le_rfl hextras
    (hone _ List.mem_cons_self)
  have hextends : Extends σ (equation y ds) cs fresh.bools ↔ Counts bounds σ y ds := by
    rw [← hstates σ hσ.bool fun v hv => (hσ.natural v hv).imp fun _ h => h.1, hbools, List.append_nil]
    refine exists_congr fun τ => and_congr_right fun _ => ?_
    rw [hkept, List.forall_mem_append, List.forall_mem_singleton, Meets, and_assoc]
  have hsat : Satisfies σ (equation y ds) ↔ σ y = number σ (disjunction ds) :=
    satisfies_makeEqual rfl (value_disjunction hatoms σ)
  rw [hextends, hsat, Counts]
  constructor
  · intro h
    refine ⟨fun hy => ?_, fun hall hy => ?_⟩
    · obtain ⟨hall, hcount⟩ := h.1 hy
      exact ⟨hall, hcount.symm.trans hy⟩
    · exact hy.symm.trans (h.2 ⟨hall, hy⟩)
  · rintro ⟨henough, hright⟩
    constructor
    · intro hy
      obtain ⟨hall, hcount⟩ := henough hy
      exact ⟨hall, hy.trans hcount.symm⟩
    · rintro ⟨hall, hy⟩
      exact hy.trans (hright hall hy)

/-- Where the variable is smaller than 3, the constraints can be met. -/
theorem pureLp_exact_sample :
    let σ : Assignment := fun _ => 1
    let bounds : Bounds := fun v => if v = [.str "x"] then some 10 else none
    let y : List LpExpr := [.str "y"]
    let ds : List (List LpExpr) := [[makeArith "lt" [makeVariable [.str "x"], .num 3]]]
    let x : LpExpr := makeArith "minus" [makeVariable [.str "x"], .num 3]
    let cs : List LpExpr :=
      [makeArith "lteq" [makeArith "times" [.num (-1), x], makeArith "times" [makeVariable y, .num 11]],
        makeArith "lt" [x, makeArith "times" [makeArith "minus" [.num 1, makeVariable y], .num 11]]]
    (Satisfies σ (equation y ds) ↔ Extends σ (equation y ds) cs []) ↔ CountedRight bounds σ y ds := by
  intro σ bounds y ds x cs
  refine @pureLp_exact_iff bounds y ds 0 ?_ ?_ cs ⟨0, []⟩ (by decide +kernel) σ ?_
  · simp only [ds, List.forall_mem_singleton]
    exact .compare (by decide +kernel) (.var _) (.num 3)
  · have hlen : ∀ v ∈ variablesOf (equation y ds), v.length = 1 := by decide +kernel
    refine ⟨fun v hv i _ heq => ?_, fun i _ => rfl⟩
    have h := hlen v hv
    rw [heq] at h
    cases h
  · refine ⟨.inr rfl, fun v _ => ⟨1, by norm_num [σ], fun u hu => ?_⟩⟩
    simp only [bounds] at hu
    split_ifs at hu
    · cases hu
      norm_num
    · cases hu

/-- Two disjuncts that hold count twice. -/
theorem not_pureLp_exact : ¬ ∀ (bounds : Bounds) (y : List LpExpr) (ds : List (List LpExpr)) (n : ℕ),
    (∀ d ∈ ds, ∀ a ∈ d, IsAtom a) → New n bounds (equation y ds) → ∀ (cs : List LpExpr) (fresh : Fresh),
    (pureLp (equation y ds) bounds).run ⟨n, []⟩ = (.ok cs, fresh) → ∀ σ, Admissible bounds σ y ds →
    (Satisfies σ (equation y ds) ↔ Extends σ (equation y ds) cs fresh.bools) := by
  intro h
  obtain ⟨e, he⟩ : ∃ e, e = equation [.str "y"] [[makeVariable [.str "a"]], [makeVariable [.str "b"]]] :=
    ⟨_, rfl⟩
  have hvars : variablesOf e = [[.str "y"], [.str "a"], [.str "b"]] := by
    rw [he]
    decide +kernel
  have hnew : New 0 (fun _ => none) e := by
    refine ⟨fun v hv i _ heq => ?_, fun _ _ => rfl⟩
    have hlen : ∀ v ∈ variablesOf e, v.length = 1 := by simp [hvars]
    have hv := hlen v hv
    rw [heq] at hv
    cases hv
  subst he
  have hexact := h (fun _ => none) [.str "y"] [[makeVariable [.str "a"]], [makeVariable [.str "b"]]] 0
    (by simpa using ⟨.var _, .var _⟩) hnew
    [makeEqual (makeVariable [.str "y"])
      (makeArith "plus" [makeVariable [.str "a"], makeVariable [.str "b"]])]
    ⟨0, []⟩ (by decide +kernel) (fun _ => 1) ⟨.inr rfl, fun v _ => ⟨1, by norm_num, by simp⟩⟩
  -- the expression holds where all three variables are 1, but 1 is not 1 + 1
  have hsat : (value (fun _ => 1) (equation [.str "y"] [[makeVariable [.str "a"]],
      [makeVariable [.str "b"]]])).holds = true := by decide +kernel
  obtain ⟨τ, hτ, -, hc⟩ := hexact.1 hsat
  have hsum := (satisfies_makeEqual rfl (value_makeArith_eq ..)).1 (hc _ List.mem_cons_self)
  rw [hvars] at hτ
  rw [number_plus] at hsum
  simp only [List.map_cons, List.map_nil, List.sum_cons, List.sum_nil, number_makeVariable] at hsum
  rw [hτ [.str "y"] (by simp), hτ [.str "a"] (by simp), hτ [.str "b"] (by simp)] at hsum
  norm_num at hsum

end LpExpr

end Congress
