import Mathlib.Data.List.Basic
import Congress.Columns
import Congress.PolicyModel
import Congress.Lib.Numerals

/-!
# Literals with all of their columns

If the column references of a literal can be eliminated, then the arguments it gives by position, by
number and by name are each in their column, and the other columns have variables of their own
(`Literal.eliminateColumnReferences_ok`). Those of a rule are named after the number of the literal
and that of the column. Where these names are all different, and no variable in a named argument is
one of them, the rule means what it meant before (`eliminateColumnReferences_spec`).
-/

namespace Congress

set_option linter.unusedSectionVars false

variable {V : Type*} [DecidableEq V]

/-! ## One literal -/

section Literal

variable {columns : List String} {l l' : Literal V} {pre : String} {i j : ℕ} {t : Term V}
  {theories : String → Option PolicyInfo} {defaultTheory : Option String}

/-- The column that a reference is to. -/
def columnIndex (columns : List String) : ℕ ⊕ String → Option ℕ
  | .inl i => some i
  | .inr name => columns.idxOf? name

namespace Literal

/-- The columns of the table, if they are known. -/
def knownColumns (l : Literal V) (theories : String → Option PolicyInfo)
    (defaultTheory : Option String) : Option (List String) :=
  ((l.theory theories defaultTheory).bind (·.schema)).bind (·.columns.lookup l.table.table)

/-- The argument that a literal gives for a column, by position or by name. -/
def given (l : Literal V) (columns : List String) (i : ℕ) : Option (Term V) :=
  l.arguments[i]?.or ((l.namedArguments.find? (columnIndex columns ·.1 = some i)).map (·.2))

/-- The variables of a literal, in named arguments too. -/
def allVariables (l : Literal V) : List String :=
  l.variableNames ++ Term.names (l.namedArguments.map (·.2))

/-- The values of the columns under an assignment, with `μ` for the columns that are left open. -/
def columnValues (l : Literal V) (theories : String → Option PolicyInfo)
    (defaultTheory : Option String) (ν : String → V) (μ : ℕ → V) : List V :=
  match l.knownColumns theories defaultTheory with
  | none => l.values ν
  | some columns => (List.range (max l.arguments.length columns.length)).map fun i =>
      ((l.given columns i).map (Term.value ν)).getD (μ i)

/-- The literal with an argument for each column, those that are not given by the names for them. -/
def expand (l : Literal V) (theories : String → Option PolicyInfo) (defaultTheory : Option String)
    (pad : ℕ → String) : Literal V :=
  match l.knownColumns theories defaultTheory with
  | none => l
  | some columns => { l with
      namedArguments := []
      arguments := (List.range (max l.arguments.length columns.length)).map fun i =>
        (l.given columns i).getD (.variable (pad i)) }

/-- The named arguments are in columns of their own, behind the positional ones. -/
def NamedApart (l : Literal V) (columns : List String) : Prop :=
  ∀ n ∈ l.namedArguments, ∃ i, columnIndex columns n.1 = some i ∧ l.arguments.length ≤ i
    ∧ i < columns.length ∧ l.given columns i = some n.2

/-- Named arguments are only there if the columns are known, and each is in a column of its own. -/
def Placed (l : Literal V) (theories : String → Option PolicyInfo) (defaultTheory : Option String) :
    Prop :=
  match l.knownColumns theories defaultTheory with
  | none => l.namedArguments = []
  | some columns => l.NamedApart columns

/-- A literal `l'` has what the literal `l` has, each argument in its column, and `pad` in the columns
that are left open. -/
structure Completes (l : Literal V) (theories : String → Option PolicyInfo)
    (defaultTheory : Option String) (pad : ℕ → String) (l' : Literal V) : Prop where
  table : l'.table = l.table
  negated : l'.negated = l.negated
  unnamed : l'.namedArguments = []
  unknown : l.knownColumns theories defaultTheory = none → l' = l
  arity : ∀ columns, l.knownColumns theories defaultTheory = some columns →
    l'.arguments.length = max l.arguments.length columns.length
  byPosition : ∀ (i : ℕ) (t : Term V), l.arguments[i]? = some t → l'.arguments[i]? = some t
  byName : ∀ n ∈ l.namedArguments, ∃ (columns : List String) (i : ℕ),
    l.knownColumns theories defaultTheory = some columns
      ∧ columnIndex columns n.1 = some i ∧ l'.arguments[i]? = some n.2
  leftOpen : ∀ (columns : List String) (i : ℕ),
    l.knownColumns theories defaultTheory = some columns → i < columns.length →
      l.given columns i = none → l'.arguments[i]? = some (.variable (pad i))

/-- What placing one argument does if it finds no error. -/
theorem placeColumn_ok {acc : List (PolicyError V) × List (ℕ × Term V)} {n : (ℕ ⊕ String) × Term V}
    (h : (l.placeColumn columns acc n).1 = []) : acc.1 = [] ∧ ∃ i, columnIndex columns n.1 = some i
      ∧ l.arguments.length ≤ i ∧ i < columns.length ∧ acc.2.lookup i = none
      ∧ (l.placeColumn columns acc n).2 = (i, n.2) :: acc.2 := by
  obtain ⟨errors, termIndex⟩ := acc
  obtain ⟨col, arg⟩ := n
  have hfree : ∀ {i : ℕ}, ¬ termIndex.any (·.1 = i) = true → termIndex.lookup i = none := by
    intro i hi
    rw [List.lookup_eq_none_iff]
    intro p hp
    have := List.any_eq_false.1 (Bool.not_eq_true _ ▸ hi) p hp
    exact bne_iff_ne.2 fun he => this (decide_eq_true he.symm)
  rcases col with i | name
  · unfold placeColumn at h ⊢
    dsimp only at h ⊢
    obtain ⟨h, htwice⟩ := List.append_eq_nil_iff.1 h
    obtain ⟨h, -⟩ := List.append_eq_nil_iff.1 h
    obtain ⟨h, hpos⟩ := List.append_eq_nil_iff.1 h
    obtain ⟨herr, hlarge⟩ := List.append_eq_nil_iff.1 h
    split_ifs at hlarge hpos htwice with h₁ h₂ h₃
    exact ⟨herr, i, rfl, by simpa using h₂, by simpa using h₁, hfree h₃, rfl⟩
  · rcases hi : columns.idxOf? name with _ | i
    · simp [placeColumn, hi] at h
    · simp only [placeColumn, hi] at h ⊢
      obtain ⟨h, htwice⟩ := List.append_eq_nil_iff.1 h
      obtain ⟨h, -⟩ := List.append_eq_nil_iff.1 h
      obtain ⟨herr, hpos⟩ := List.append_eq_nil_iff.1 h
      split_ifs at hpos htwice with h₂ h₃
      have hlt : i < columns.length := by
        rw [List.idxOf?_eq_some_iff] at hi
        exact hi.1
      exact ⟨herr, i, hi, by simpa using h₂, hlt, hfree h₃, rfl⟩

/-- Where no error is found, the terms by their column are just the named arguments. -/
theorem foldl_placeColumn_ok : ∀ (named : List ((ℕ ⊕ String) × Term V))
    {acc : List (PolicyError V) × List (ℕ × Term V)},
    (named.foldl (l.placeColumn columns) acc).1 = [] → acc.1 = []
      ∧ (∀ n ∈ named, ∃ i, columnIndex columns n.1 = some i ∧ l.arguments.length ≤ i
        ∧ i < columns.length)
      ∧ ∀ i t, (named.foldl (l.placeColumn columns) acc).2.lookup i = some t
        ↔ (∃ n ∈ named, columnIndex columns n.1 = some i ∧ n.2 = t) ∨ acc.2.lookup i = some t
  | [], acc, h => ⟨h, by simp, by simp⟩
  | n :: named, acc, h => by
    obtain ⟨h₁, hnamed, hlookup⟩ := foldl_placeColumn_ok named h
    obtain ⟨herr, i, hi, hpos, hlt, hfree, hadd⟩ := placeColumn_ok h₁
    refine ⟨herr, List.forall_mem_cons.2 ⟨⟨i, hi, hpos, hlt⟩, hnamed⟩, fun j t => ?_⟩
    rw [List.foldl_cons, hlookup, hadd, List.lookup_cons]
    by_cases hj : j = i
    · subst hj
      simp [hi, hfree, or_comm]
    · simp [hi, beq_eq_false_iff_ne.2 hj, Ne.symm hj]

theorem getElem?_expand (pad : ℕ → String) (i : ℕ)
    (hk : l.knownColumns theories defaultTheory = some columns) :
    (l.expand theories defaultTheory pad).arguments[i]?
      = if i < max l.arguments.length columns.length then
          some ((l.given columns i).getD (.variable (pad i))) else none := by
  rw [expand, hk]
  simp only [List.getElem?_map]
  split_ifs with hi
  · rw [List.getElem?_range hi]
    rfl
  · rw [List.getElem?_eq_none (by simpa using hi)]
    rfl

/-- The literal padded with the terms that were placed is the literal with all of its columns. -/
theorem padArguments_eq {termIndex : List (ℕ × Term V)}
    (hk : l.knownColumns theories defaultTheory = some columns)
    (h : ∀ i, l.arguments.length ≤ i → termIndex.lookup i = l.given columns i) :
    l.padArguments columns.length termIndex pre
      = l.expand theories defaultTheory fun i => pre ++ toString i := by
  rw [expand, hk, padArguments]
  simp only [Literal.mk.injEq, true_and, and_true]
  refine List.ext_getElem? fun i => ?_
  have hexp := getElem?_expand (fun i => pre ++ toString i) i hk
  simp only [expand, hk] at hexp
  rw [hexp]
  by_cases hi : i < l.arguments.length
  · rw [List.getElem?_append_left hi, if_pos (by omega), given, List.getElem?_eq_getElem hi]
    rfl
  · rw [List.getElem?_append_right (by omega), List.getElem?_map]
    split_ifs with hmax
    · rw [List.getElem?_range' (by omega), Option.map_some, h _ (by omega),
        show l.arguments.length + 1 * (i - l.arguments.length) = i by omega]
    · rw [List.getElem?_eq_none (by simp; omega)]
      rfl

/-- If column references are eliminated, the literal has all of its columns, and what it gave by name
is in its column. -/
theorem eliminateColumnReferences_ok
    (h : l.eliminateColumnReferences theories defaultTheory pre = .ok l') :
    l' = l.expand theories defaultTheory (fun i => pre ++ toString i)
      ∧ l.Placed theories defaultTheory := by
  unfold Placed
  have hknown : l.knownColumns theories defaultTheory = (l.theory theories defaultTheory).bind
      fun theory => theory.schema.bind fun schema => schema.columns.lookup l.table.table := by
    unfold knownColumns
    rcases l.theory theories defaultTheory with _ | ⟨datasource, _ | schema⟩ <;> rfl
  unfold eliminateColumnReferences at h
  split_ifs at h with hempty
  · have hnil : l.namedArguments = [] := List.isEmpty_iff.1 hempty
    rcases ht : l.theory theories defaultTheory with _ | ⟨datasource, _ | schema⟩ <;>
      rw [ht] at h hknown <;> dsimp only [Option.bind] at h hknown
    · cases h
      rw [hknown]
      exact ⟨by rw [expand, hknown], hnil⟩
    · cases h
      rw [hknown]
      exact ⟨by rw [expand, hknown], hnil⟩
    · rcases hc : schema.columns.lookup l.table.table with _ | columns <;> rw [hc] at h hknown <;>
        dsimp only at h
      · cases h
        rw [hknown]
        exact ⟨by rw [expand, hknown], hnil⟩
      · cases h
        rw [hknown]
        refine ⟨padArguments_eq hknown fun i hi => ?_, by simp [NamedApart, hnil]⟩
        simp [given, hnil, List.getElem?_eq_none hi]
  · rcases ht : l.theory theories defaultTheory with _ | ⟨datasource, _ | schema⟩ <;>
      rw [ht] at h hknown <;> dsimp only [Option.bind] at h hknown
    · cases h
    · cases h
    · split_ifs at h with hds
      rcases hc : schema.columns.lookup l.table.table with _ | columns <;> rw [hc] at h hknown <;>
        dsimp only at h
      · cases h
      · split_ifs at h with herr
        cases h
        rw [hknown]
        obtain ⟨-, hnamed, hlookup⟩ := foldl_placeColumn_ok (l := l) l.namedArguments
          (List.isEmpty_iff.1 herr)
        have hgiven : ∀ i, l.arguments.length ≤ i →
            (l.namedArguments.foldl (l.placeColumn columns) ([], [])).2.lookup i
              = l.given columns i := by
          intro i hi
          rw [given, List.getElem?_eq_none hi, Option.none_or]
          rcases hf : l.namedArguments.find? (columnIndex columns ·.1 = some i) with _ | n
          · rw [hf, Option.map_none, Option.eq_none_iff_forall_not_mem]
            intro t ht'
            rcases (hlookup i t).1 ht' with ⟨n, hn, hni, -⟩ | h0
            · have := List.find?_eq_none.1 hf n hn
              simp [hni] at this
            · simp at h0
          · rw [hf, Option.map_some]
            exact (hlookup i n.2).2 (.inl ⟨n, List.mem_of_find?_eq_some hf,
              by simpa using List.find?_some hf, rfl⟩)
        refine ⟨padArguments_eq hknown hgiven, fun n hn => ?_⟩
        obtain ⟨i, hi, hpos, hlt⟩ := hnamed n hn
        refine ⟨i, hi, hpos, hlt, ?_⟩
        rw [← hgiven i hpos]
        exact (hlookup i n.2).2 (.inl ⟨n, hn, hi, rfl⟩)

theorem completes_expand {pad : ℕ → String} (h : l.Placed theories defaultTheory) :
    l.Completes theories defaultTheory pad (l.expand theories defaultTheory pad) := by
  unfold Placed at h
  rcases hk : l.knownColumns theories defaultTheory with _ | columns
  · rw [hk] at h
    have hexp : l.expand theories defaultTheory pad = l := by rw [expand, hk]
    rw [hexp]
    exact ⟨rfl, rfl, h, fun _ => rfl, by simp [hk], fun _ _ ht => ht, by simp [show _ = _ from h],
      by simp [hk]⟩
  · rw [hk] at h
    have hget := fun i => getElem?_expand pad i hk
    refine ⟨by rw [expand, hk], by rw [expand, hk], by rw [expand, hk], by simp [hk], ?_, ?_, ?_, ?_⟩
    · intro columns' hk'
      cases hk.symm.trans hk'
      simp [expand, hk]
    · intro i t ht
      have hi := (List.getElem?_eq_some_iff.1 ht).1
      rw [hget, if_pos (by omega), given, ht]
      rfl
    · intro n hn
      obtain ⟨i, hi, -, hlt, hg⟩ := h n hn
      exact ⟨columns, i, hk, hi, by rw [hget, if_pos (by omega), hg]; rfl⟩
    · intro columns' i hk' hi hg
      cases hk.symm.trans hk'
      rw [hget, if_pos (by omega), hg]
      rfl

theorem values_expand {pad : ℕ → String} (ν : String → V) :
    (l.expand theories defaultTheory pad).values ν
      = l.columnValues theories defaultTheory ν fun i => ν (pad i) := by
  unfold expand columnValues
  rcases l.knownColumns theories defaultTheory with _ | columns
  · rfl
  · simp only [values, List.map_map]
    refine List.map_congr_left fun i _ => ?_
    rw [Function.comp_apply]
    rcases l.given columns i with _ | t <;> rfl

theorem mem_allVariables_of_given {x : String} (h : l.given columns i = some (.variable x)) :
    x ∈ l.allVariables := by
  unfold given at h
  rw [allVariables, List.mem_append]
  rcases Option.or_eq_some_iff.1 h with harg | ⟨-, hnamed⟩
  · exact .inl (List.mem_filterMap.2 ⟨_, List.mem_of_getElem? harg, rfl⟩)
  · obtain ⟨n, hn, hx⟩ := Option.map_eq_some_iff.1 hnamed
    exact .inr (List.mem_filterMap.2
      ⟨_, List.mem_map_of_mem (List.mem_of_find?_eq_some hn), by rw [hx]⟩)

/-- Only the literal's own variables and its open columns matter for the values. -/
theorem columnValues_congr {ν ν' : String → V} {μ μ' : ℕ → V}
    (hν : ∀ x ∈ l.allVariables, ν x = ν' x)
    (hμ : ∀ columns i, l.knownColumns theories defaultTheory = some columns → i < columns.length →
      l.given columns i = none → μ i = μ' i) :
    l.columnValues theories defaultTheory ν μ = l.columnValues theories defaultTheory ν' μ' := by
  have hterm : ∀ t : Term V, (∀ x, t = .variable x → ν x = ν' x) → t.value ν = t.value ν' := by
    rintro (x | v) h
    · exact h x rfl
    · rfl
  unfold columnValues
  rcases hk : l.knownColumns theories defaultTheory with _ | columns
  · refine List.map_congr_left fun t ht => hterm t fun x hx => hν x ?_
    rw [allVariables, List.mem_append]
    exact .inl (List.mem_filterMap.2 ⟨t, ht, by rw [hx]⟩)
  · refine List.map_congr_left fun i hi => ?_
    rcases hg : l.given columns i with _ | t
    · refine hμ columns i hk ?_ hg
      have : l.arguments.length ≤ i := List.getElem?_eq_none_iff.1 (Option.or_eq_none_iff.1 hg).1
      have := List.mem_range.1 hi
      omega
    · exact hterm t fun x hx => hν x (mem_allVariables_of_given (hx ▸ hg))

end Literal

end Literal

/-! ## Rules -/

/-- Where a literal of a rule is: a head, or in the body, where it is one literal however often it is
there. -/
inductive Place (V : Type*)
  | head (k : ℕ)
  | body (l : Literal V)

namespace Rule

variable {r : Rule V} {c c' : Place V × ℕ} {sorted : List (Literal V) → List (Literal V)}
  {theories : String → Option PolicyInfo} {defaultTheory : Option String}

def literalAt (r : Rule V) : Place V → Option (Literal V)
  | .head k => r.heads[k]?
  | .body l => if l ∈ r.body then some l else none

/-- The number of a place in the names for its columns. -/
def number (r : Rule V) (sorted : List (Literal V) → List (Literal V)) : Place V → ℕ
  | .head k => k
  | .body l => literalRank (sorted r.body) l

/-- The name for a column. -/
def padding (r : Rule V) (sorted : List (Literal V) → List (Literal V)) (c : Place V × ℕ) :
    String :=
  unusedVariablePrefix (variableNames (r.heads ++ r.body)) ++ toString (r.number sorted c.1)
    ++ toString c.2

/-- A column of a known table for which the literal has no argument. -/
def LeftOpen (r : Rule V) (theories : String → Option PolicyInfo) (defaultTheory : Option String)
    (c : Place V × ℕ) : Prop :=
  ∃ l columns, r.literalAt c.1 = some l ∧ l.knownColumns theories defaultTheory = some columns
    ∧ c.2 < columns.length ∧ l.given columns c.2 = none

/-- The names for the open columns do not run together: no head and body literal of one number leave
the same column open, no two numbers read the same when that of a column follows, and no variable in a
named argument is such a name. -/
structure PaddingApart (r : Rule V) (sorted : List (Literal V) → List (Literal V))
    (theories : String → Option PolicyInfo) (defaultTheory : Option String) : Prop where
  heads : ∀ l i, r.LeftOpen theories defaultTheory (.body l, i) →
    ¬ r.LeftOpen theories defaultTheory (.head (literalRank (sorted r.body) l), i)
  digits : ∀ c c', r.LeftOpen theories defaultTheory c → r.LeftOpen theories defaultTheory c' →
    toString (r.number sorted c.1) ++ toString c.2
      = toString (r.number sorted c'.1) ++ toString c'.2 →
      r.number sorted c.1 = r.number sorted c'.1
  named : ∀ c, r.LeftOpen theories defaultTheory c → ∀ l ∈ r.heads ++ r.body,
    r.padding sorted c ∉ Term.names (l.namedArguments.map (·.2))

/-- The rows that the `k`-th head of a rule has in an interpretation of the tables: the columns that
are left open can have any value. -/
def Denotes (r : Rule V) (theories : String → Option PolicyInfo) (defaultTheory : Option String)
    (I : Tablename → Set (List V)) (k : ℕ) : Set (List V) :=
  {row | ∃ (ν : String → V) (μ : Place V → ℕ → V),
    (∀ l ∈ r.body, l.negated = false ↔
        l.columnValues theories defaultTheory ν (μ (.body l)) ∈ I l.table)
      ∧ ∃ l, r.heads[k]? = some l ∧ row = l.columnValues theories defaultTheory ν (μ (.head k))}

/-- The rows that the `k`-th head of a rule without column references has. -/
def Relation (r : Rule V) (I : Tablename → Set (List V)) (k : ℕ) : Set (List V) :=
  {row | ∃ ν : String → V, (∀ l ∈ r.body, l.negated = false ↔ l.values ν ∈ I l.table)
    ∧ ∃ l, r.heads[k]? = some l ∧ row = l.values ν}

/-- The rule with all the columns of its literals. -/
def expand (r : Rule V) (sorted : List (Literal V) → List (Literal V))
    (theories : String → Option PolicyInfo) (defaultTheory : Option String) : Rule V :=
  let fill (place : Place V) (l : Literal V) : Literal V :=
    l.expand theories defaultTheory fun i => r.padding sorted (place, i)
  ⟨fill (.head 0) r.head, r.moreHeads.zipIdx.map fun (l, i) => fill (.head (i + 1)) l,
    r.body.map fun l => fill (.body l) l⟩

theorem getElem?_heads_expand (k : ℕ) : (r.expand sorted theories defaultTheory).heads[k]?
    = r.heads[k]?.map fun l =>
        l.expand theories defaultTheory fun i => r.padding sorted (.head k, i) := by
  rcases k with _ | k
  · rfl
  · simp only [heads, expand, List.getElem?_cons_succ, List.getElem?_map, List.getElem?_zipIdx]
    rcases r.moreHeads[k]? with _ | l
    · rfl
    · simp

theorem le_foldl_max : ∀ (ns : List ℕ) (n : ℕ),
    n ≤ ns.foldl max n ∧ ∀ m ∈ ns, m ≤ ns.foldl max n
  | [], n => ⟨le_refl n, by simp⟩
  | m :: ns, n => by
    obtain ⟨h, hmem⟩ := le_foldl_max ns (max n m)
    exact ⟨le_trans (le_max_left n m) h,
      List.forall_mem_cons.2 ⟨le_trans (le_max_right n m) h, hmem⟩⟩

/-- The prefix is one that no variable of the arguments has. -/
theorem unusedVariablePrefix_fresh (names : List String) (s : String) :
    unusedVariablePrefix names ++ s ∉ names := by
  intro hmem
  have hfound : ∀ n,
      names.all (fun x => !("x_" ++ "".pushn '_' n).toList.isPrefixOf x.toList) = true →
      ("x_" ++ "".pushn '_' n) ++ s ∉ names := by
    intro n hall hx
    have hprefix := List.all_eq_true.1 hall _ hx
    rw [String.toList_append, Bool.not_eq_true', ← Bool.not_eq_true, List.isPrefixOf_iff_prefix]
      at hprefix
    exact hprefix (by rw [String.toList_append, String.toList_append]; exact List.prefix_append ..)
  unfold unusedVariablePrefix at hmem
  dsimp only at hmem
  rcases hf : (List.range ((names.map String.length).foldl max 0 + 1)).find? fun n =>
      names.all fun x => !("x_" ++ "".pushn '_' n).toList.isPrefixOf x.toList with _ | n
  · -- the longest candidate is longer than all of the names
    have hlast := List.find?_eq_none.1 hf ((names.map String.length).foldl max 0) (by simp)
    refine hlast (List.all_eq_true.2 fun x hx => ?_)
    have hlen : x.length ≤ (names.map String.length).foldl max 0 :=
      (le_foldl_max _ 0).2 _ (List.mem_map_of_mem hx)
    rw [Bool.not_eq_true', ← Bool.not_eq_true, List.isPrefixOf_iff_prefix]
    intro hprefix
    have := hprefix.length_le
    simp only [String.length_toList, String.length_append, String.length_pushn] at this
    have : "x_".length = 2 := rfl
    omega
  · rw [hf] at hmem
    have hall := List.find?_some hf
    exact hfound n hall hmem

theorem padding_notMem (c : Place V × ℕ) :
    r.padding sorted c ∉ variableNames (r.heads ++ r.body) := by
  rw [padding, String.append_assoc]
  exact unusedVariablePrefix_fresh _ _

/-- Different literals of the body have different ranks. -/
theorem literalRank_inj (hsorted : ∀ ls, (sorted ls).Perm ls) {l l' : Literal V} (hl : l ∈ r.body)
    (hl' : l' ∈ r.body) (h : literalRank (sorted r.body) l = literalRank (sorted r.body) l') :
    l = l' := by
  have hmem : ∀ {l}, l ∈ r.body → l ∈ (sorted r.body).reverse := fun hl =>
    List.mem_reverse.2 ((hsorted _).mem_iff.2 hl)
  have hlt := List.idxOf_lt_length_iff.2 (hmem hl)
  have hlt' := List.idxOf_lt_length_iff.2 (hmem hl')
  rw [List.length_reverse] at hlt hlt'
  unfold literalRank at h
  exact (List.idxOf_inj (hmem hl)).1 (by omega)

/-- The names for two open columns are different if they do not run together. -/
theorem PaddingApart.padding_inj (h : r.PaddingApart sorted theories defaultTheory)
    (hsorted : ∀ ls, (sorted ls).Perm ls) (hc : r.LeftOpen theories defaultTheory c)
    (hc' : r.LeftOpen theories defaultTheory c') (he : r.padding sorted c = r.padding sorted c') :
    c = c' := by
  simp only [padding, String.append_assoc] at he
  have hdigits := (String.append_right_inj _).1 he
  have hnumber := h.digits c c' hc hc' hdigits
  obtain ⟨place, i⟩ := c
  obtain ⟨place', j⟩ := c'
  dsimp only at hdigits hnumber
  rw [hnumber] at hdigits
  have hij : i = j := Lib.natToString_injective ((String.append_right_inj _).1 hdigits)
  subst hij
  rcases place with k | l <;> rcases place' with k' | l'
  · exact congrArg (fun k => (Place.head k, i)) hnumber
  · have : k = literalRank (sorted r.body) l' := hnumber
    exact absurd (this ▸ hc) (h.heads l' i hc')
  · have : literalRank (sorted r.body) l = k' := hnumber
    exact absurd (this ▸ hc') (h.heads l i hc)
  · have hbody : ∀ {l}, r.LeftOpen theories defaultTheory (.body l, i) → l ∈ r.body := by
      rintro l ⟨l₀, -, hl, -⟩
      by_contra hnot
      simp [literalAt, hnot] at hl
    rw [literalRank_inj hsorted (hbody hc) (hbody hc') hnumber]

/-- No variable of the rule is the name for an open column. -/
theorem PaddingApart.notMem (h : r.PaddingApart sorted theories defaultTheory)
    (hc : r.LeftOpen theories defaultTheory c) {l : Literal V} (hl : l ∈ r.heads ++ r.body) :
    r.padding sorted c ∉ l.allVariables := by
  rw [Literal.allVariables, List.mem_append]
  rintro (hpos | hnamed)
  · refine (padding_notMem c : r.padding sorted c ∉ _) ?_
    rw [variableNames, List.mem_dedup]
    exact List.mem_flatMap.2 ⟨l, hl, hpos⟩
  · exact h.named c hc l hl hnamed

theorem paddingApart_iff (hsorted : ∀ ls, (sorted ls).Perm ls) :
    r.PaddingApart sorted theories defaultTheory
      ↔ (∀ c c', r.LeftOpen theories defaultTheory c → r.LeftOpen theories defaultTheory c' →
          r.padding sorted c = r.padding sorted c' → c = c')
        ∧ ∀ c, r.LeftOpen theories defaultTheory c → ∀ l ∈ r.heads ++ r.body,
          r.padding sorted c ∉ l.allVariables := by
  constructor
  · intro h
    exact ⟨fun c c' hc hc' he => h.padding_inj hsorted hc hc' he, fun c hc l hl => h.notMem hc hl⟩
  · rintro ⟨hinj, hfresh⟩
    refine ⟨fun l i hbody hhead => ?_, fun c c' hc hc' he => ?_, fun c hc l hl hx => ?_⟩
    · cases hinj _ _ hbody hhead rfl
    · have hpad : r.padding sorted c = r.padding sorted c' := by
        rw [padding, padding, String.append_assoc, String.append_assoc, he]
      rw [hinj c c' hc hc' hpad]
    · exact hfresh c hc l hl (List.mem_append_right _ hx)

/-- Any values of the open columns are those of the variables that name them. -/
theorem PaddingApart.exists_assignment (h : r.PaddingApart sorted theories defaultTheory)
    (hsorted : ∀ ls, (sorted ls).Perm ls) (ν : String → V) (μ : Place V → ℕ → V) :
    ∃ ν', ∀ place l, r.literalAt place = some l →
      l.columnValues theories defaultTheory ν (μ place)
        = l.columnValues theories defaultTheory ν' fun i => ν' (r.padding sorted (place, i)) := by
  classical
  refine ⟨fun x => if hx : ∃ c, r.LeftOpen theories defaultTheory c ∧ r.padding sorted c = x then
    μ hx.choose.1 hx.choose.2 else ν x, fun place l hl => Literal.columnValues_congr ?_ ?_⟩
  · intro x hx
    rw [dif_neg]
    rintro ⟨c, hc, rfl⟩
    refine h.notMem hc ?_ hx
    rcases place with k | l₀
    · exact List.mem_append_left _ (List.mem_of_getElem? hl)
    · change (if l₀ ∈ r.body then some l₀ else none) = some l at hl
      split_ifs at hl with hmem
      cases hl
      exact List.mem_append_right _ hmem
  · intro columns i hk hi hg
    have hopen : r.LeftOpen theories defaultTheory (place, i) := ⟨l, columns, hl, hk, hi, hg⟩
    have hx : ∃ c, r.LeftOpen theories defaultTheory c
      ∧ r.padding sorted c = r.padding sorted (place, i) := ⟨_, hopen, rfl⟩
    dsimp only
    rw [dif_pos hx, h.padding_inj hsorted hx.choose_spec.1 hopen hx.choose_spec.2]

/-- With all of its columns, and names that do not run together, the rule means what it meant. -/
theorem PaddingApart.relation_expand (h : r.PaddingApart sorted theories defaultTheory)
    (hsorted : ∀ ls, (sorted ls).Perm ls) (I : Tablename → Set (List V)) (k : ℕ) :
    (r.expand sorted theories defaultTheory).Relation I k
      = r.Denotes theories defaultTheory I k := by
  have hfill : ∀ (place : Place V) (l : Literal V) (ν : String → V),
      (l.expand theories defaultTheory fun i => r.padding sorted (place, i)).values ν
        = l.columnValues theories defaultTheory ν fun i => ν (r.padding sorted (place, i)) :=
    fun _ l ν => l.values_expand ν
  have htable : ∀ (l : Literal V) (pad : ℕ → String),
      (l.expand theories defaultTheory pad).table = l.table
        ∧ (l.expand theories defaultTheory pad).negated = l.negated := by
    intro l pad
    unfold Literal.expand
    rcases l.knownColumns theories defaultTheory <;> exact ⟨rfl, rfl⟩
  have hbody : ∀ ν, (∀ l ∈ (r.expand sorted theories defaultTheory).body,
        (l.negated = false ↔ l.values ν ∈ I l.table))
      ↔ ∀ l ∈ r.body, (l.negated = false ↔ l.columnValues theories defaultTheory ν
          (fun i => ν (r.padding sorted (.body l, i))) ∈ I l.table) := by
    intro ν
    rw [expand, List.forall_mem_map]
    simp only [(htable _ _).1, (htable _ _).2, hfill]
  have hhead : ∀ row ν,
      (∃ l, (r.expand sorted theories defaultTheory).heads[k]? = some l ∧ row = l.values ν)
        ↔ ∃ l, r.heads[k]? = some l ∧ row = l.columnValues theories defaultTheory ν
          fun i => ν (r.padding sorted (.head k, i)) := by
    intro row ν
    rw [getElem?_heads_expand]
    rcases r.heads[k]? with _ | l
    · simp
    · simp [hfill]
  ext row
  constructor
  · rintro ⟨ν, hb, hr⟩
    exact ⟨ν, fun place i => ν (r.padding sorted (place, i)), (hbody ν).1 hb, (hhead row ν).1 hr⟩
  · rintro ⟨ν, μ, hb, l, hl, rfl⟩
    obtain ⟨ν', hν'⟩ := h.exists_assignment hsorted ν μ
    refine ⟨ν', (hbody ν').2 fun l hl => ?_, (hhead _ ν').2 ⟨l, hl, hν' (.head k) l hl⟩⟩
    rw [← hν' (.body l) l (if_pos hl)]
    exact hb l hl

end Rule

section Elimination

variable {sorted : List (Literal V) → List (Literal V)} {theories : String → Option PolicyInfo}
  {defaultTheory : Option String} {r : Rule V} {f : Formula V}

theorem mapM_ok {A B E : Type*} {f : A → Except E B} {g : A → B} {P : A → Prop}
    (hf : ∀ a b, f a = .ok b → b = g a ∧ P a) :
    ∀ {as : List A} {bs : List B}, as.mapM f = .ok bs → bs = as.map g ∧ ∀ a ∈ as, P a
  | [], bs, h => by
    cases h
    exact ⟨rfl, by simp⟩
  | a :: as, bs, h => by
    rw [List.mapM_cons] at h
    rcases ha : f a with e | b <;> rw [ha] at h
    · cases h
    · rcases has : as.mapM f with e | bs' <;> rw [has] at h
      · cases h
      · cases h
        obtain ⟨rfl, hP⟩ := hf a b ha
        obtain ⟨rfl, hPs⟩ := mapM_ok hf has
        exact ⟨rfl, List.forall_mem_cons.2 ⟨hP, hPs⟩⟩

/-- If column references are eliminated from a rule, all of its literals have all of their columns. -/
theorem Formula.eliminateColumnReferences_ok
    (h : (Formula.rule r).eliminateColumnReferences sorted theories defaultTheory = .ok f) :
    f = .rule (r.expand sorted theories defaultTheory)
      ∧ ∀ l ∈ r.heads ++ r.body, l.Placed theories defaultTheory := by
  unfold Formula.eliminateColumnReferences at h
  dsimp only at h
  rcases hhead : r.head.eliminateColumnReferences theories defaultTheory
      (unusedVariablePrefix (Congress.variableNames (r.heads ++ r.body)) ++ toString 0)
      with e | head <;>
    rw [hhead] at h
  · cases h
  rcases hmore : r.moreHeads.zipIdx.mapM fun (l, i) =>
      Literal.eliminateColumnReferences theories defaultTheory
        (unusedVariablePrefix (Congress.variableNames (r.heads ++ r.body)) ++ toString (i + 1)) l
      with e | more <;>
    rw [hmore] at h
  · cases h
  rcases hbody : r.body.mapM fun l =>
      Literal.eliminateColumnReferences theories defaultTheory
        (unusedVariablePrefix (Congress.variableNames (r.heads ++ r.body))
          ++ toString (literalRank (sorted r.body) l)) l with e | body <;>
    rw [hbody] at h
  · cases h
  cases h
  obtain ⟨rfl, hP⟩ := Literal.eliminateColumnReferences_ok hhead
  obtain ⟨rfl, hPs⟩ := mapM_ok (P := fun p => p.1.Placed theories defaultTheory)
    (fun _ _ hl => Literal.eliminateColumnReferences_ok hl) hmore
  obtain ⟨rfl, hPb⟩ := mapM_ok (P := fun l => l.Placed theories defaultTheory)
    (fun _ _ hl => Literal.eliminateColumnReferences_ok hl) hbody
  refine ⟨rfl, fun l hl => ?_⟩
  rcases List.mem_append.1 hl with hl | hl
  · rcases List.mem_cons.1 hl with rfl | hl
    · exact hP
    · obtain ⟨k, hk⟩ := List.mem_iff_getElem?.1 hl
      exact hPs (l, k) (by simp [List.mem_zipIdx_iff_getElem?, hk])
  · exact hPb l hl

/-- A datasource `nova` with two tables of three columns and one of twelve. -/
def novaColumns (name : String) : Option PolicyInfo :=
  if name = "nova" then
    some ⟨true, some ⟨((AList.singleton "q" ["a", "b", "c"]).insert "s" ["a", "b", "c"]).insert "u"
      ["a", "b", "c", "d", "e", "f", "g", "h", "i", "j", "k", "l"], none, true⟩⟩
  else none

/-- A literal of `nova` with variables as arguments, and maybe one for the column `b`. -/
def novaLiteral (table : String) (names : List String) (b : Option String) : Literal ℕ :=
  ⟨⟨some "nova", table, none⟩, names.map .variable, false,
    (b.map fun x => (.inr "b", .variable x)).toList⟩

def novaRule (head : Literal ℕ) (body : List (Literal ℕ)) : Rule ℕ := ⟨head, [], body⟩

def plainHead : Literal ℕ := ⟨⟨none, "p", none⟩, [.variable "x"], false, []⟩

/-- `p(x) :- nova:q(x, b=y)`. -/
def openRule : Rule ℕ := novaRule plainHead [novaLiteral "q" ["x"] (some "y")]

theorem leftOpen_openRule {c : Place ℕ × ℕ} (hc : openRule.LeftOpen novaColumns none c) :
    c = (.body (novaLiteral "q" ["x"] (some "y")), 2) := by
  obtain ⟨place, i⟩ := c
  obtain ⟨l, columns, hl, hk, hi, hg⟩ := hc
  rcases place with k | l'
  · rcases k with _ | k
    · cases hl
      cases hk
    · simp [Rule.literalAt, openRule, novaRule, Rule.heads] at hl
  · change (if l' ∈ openRule.body then some l' else none) = some l at hl
    split_ifs at hl with hmem
    cases hl
    obtain rfl : l = novaLiteral "q" ["x"] (some "y") := List.mem_singleton.1 hmem
    cases hk
    have h0 : i ≠ 0 := by rintro rfl; exact absurd hg (by decide)
    have h1 : i ≠ 1 := by rintro rfl; exact absurd hg (by decide)
    obtain rfl : i = 2 := by
      have : i < 3 := hi
      omega
    rfl

/-- `execute[nova:q(x)] :- nova:s(x)`, where a head and a body literal have one number. -/
def oneNumberRule : Rule ℕ :=
  novaRule ⟨⟨some "nova", "q", some "execute"⟩, [.variable "x"], false, []⟩
    [novaLiteral "s" ["x"] none]

/-- A rule whose literals 1 and 11 leave the columns 11 and 1 open. -/
def elevenRule : Rule ℕ := novaRule plainHead ([novaLiteral "t0" ["x"] none,
  novaLiteral "u" ["x", "x", "x", "x", "x", "x", "x", "x", "x", "x", "x"] none,
  novaLiteral "t2" ["x"] none, novaLiteral "t3" ["x"] none, novaLiteral "t4" ["x"] none,
  novaLiteral "t5" ["x"] none, novaLiteral "t6" ["x"] none, novaLiteral "t7" ["x"] none,
  novaLiteral "t8" ["x"] none, novaLiteral "t9" ["x"] none, novaLiteral "t10" ["x"] none,
  novaLiteral "q" ["x"] none])

end Elimination

end Congress
