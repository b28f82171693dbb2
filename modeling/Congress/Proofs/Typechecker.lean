import Mathlib.Algebra.BigOperators.Group.Finset.Basic
import Mathlib.Algebra.Order.BigOperators.Group.Finset
import Mathlib.Logic.Function.Basic
import Congress.Typechecker

/-!
# Type inference for Z3 policies

After the first iteration, in which constants have a say, types only become more precise, so that the
typechecker ends; when it does, a variable has the type of every column it is in. The columns of other
policies stay as they are exactly if they fit all constants in them (`typeAll_exact`): constants are written
to them as to any other column.
-/

namespace Congress

open Lib Stateful

set_option linter.unusedSectionVars false

variable {T V : Type} [DecidableEq T] [DecidableEq V]

namespace TypesRegistry

variable {reg : TypesRegistry T}

/-- How deep a type is in the hierarchy. -/
def typeDepth (reg : TypesRegistry T) (name : String) : ℕ := (reg.class? name).elim 0 reg.depth

theorem leastAncestor_some {target cls d : T}
    (h : reg.leastAncestor [target] cls = (.ok (some d) : Except (TypingRaised V) (Option T))) :
    target = cls ∨ reg.depth target < reg.depth cls := by
  rw [leastAncestor] at h
  split_ifs at h with hmem
  · exact .inl (List.mem_singleton.1 hmem).symm
  · split at h
    · cases h
    · rename_i parent hbases
      have hlt : reg.depth parent < reg.depth cls := reg.depth_lt cls parent (hbases ▸ List.mem_cons_self)
      rcases leastAncestor_some h with rfl | hdeep
      · exact .inr hlt
      · exact .inr (hdeep.trans hlt)
    · cases h
termination_by reg.depth cls

/-- The minimum of two types is one of them, below the other; if the second must not change, it is that. -/
theorem minType_some {name1 name2 typ : String} {strict : Bool} (hne : name1 ≠ name2)
    (h : minType reg name1 name2 strict = (.ok (some typ) : Except (TypingRaised V) (Option String))) :
    (typ = name2 ∧ reg.typeDepth name1 < reg.typeDepth name2)
      ∨ strict = false ∧ typ = name1 ∧ reg.typeDepth name2 < reg.typeDepth name1 := by
  unfold minType at h
  obtain ⟨typ1, h₁, h⟩ := bind_ok.1 h
  obtain ⟨typ2, h₂, h⟩ := bind_ok.1 h
  obtain ⟨ancestor, hancestor, h⟩ := bind_ok.1 h
  have hclass : ∀ {name c}, reg.typeClass name = (.ok c : Except (TypingRaised V) T) →
      reg.class? name = some c := by
    intro name c hc
    unfold typeClass at hc
    split at hc
    · cases hc
      assumption
    · cases hc
  have hdiffer : typ1 ≠ typ2 := by
    rintro rfl
    exact hne (reg.name_unique _ _ _ (hclass h₁) (hclass h₂))
  have hdepth₁ : reg.typeDepth name1 = reg.depth typ1 := by rw [typeDepth, hclass h₁]; rfl
  have hdepth₂ : reg.typeDepth name2 = reg.depth typ2 := by rw [typeDepth, hclass h₂]; rfl
  rw [hdepth₁, hdepth₂]
  split_ifs at h with hsome hstrict
  · cases h
    obtain ⟨d, rfl⟩ := Option.isSome_iff_exists.1 hsome
    exact .inl ⟨rfl, (leastAncestor_some hancestor).resolve_left hdiffer⟩
  · cases h
  · obtain ⟨ancestor', hancestor', h⟩ := bind_ok.1 h
    split_ifs at h with hsome'
    · cases h
      obtain ⟨d, rfl⟩ := Option.isSome_iff_exists.1 hsome'
      exact .inr ⟨by simpa using hstrict, rfl, (leastAncestor_some hancestor').resolve_left hdiffer.symm⟩
    · cases h

end TypesRegistry

/-! ## Cells -/

namespace Cell

variable {reg : TypesRegistry T} {D : ℕ} {c c' : Cell}

/-- The type of the cell is not deeper. -/
def Within (reg : TypesRegistry T) (D : ℕ) (c : Cell) : Prop :=
  ∀ typ, c.type = some (some typ) → reg.typeDepth typ ≤ D

/-- How much more precise a type can become. -/
def typeRank (reg : TypesRegistry T) (D : ℕ) : Option (Option String) → ℕ
  | some none => D + 1
  | some (some typ) => D - reg.typeDepth typ
  | none => 0

/-- How often the cell can change. -/
def rank (reg : TypesRegistry T) (D : ℕ) (c : Cell) : ℕ :=
  typeRank reg D c.type + if c.nullable = some false then 1 else 0

/-- A type that there is becomes `Scalar` at most, and what can be null stays so. -/
structure Looser (c c' : Cell) : Prop where
  type : c.type ≠ some none → c'.type = c.type ∨ c'.type = some (some "Scalar")
  nullable : c.nullable = some true → c'.nullable = some true

theorem Looser.refl (c : Cell) : c.Looser c := ⟨fun _ => .inl rfl, id⟩

theorem Looser.ne_none (h : c.Looser c') (hc : c.type ≠ some none) : c'.type ≠ some none := by
  rcases h.type hc with heq | heq
  · rwa [heq]
  · rw [heq]
    simp

theorem Looser.trans {c'' : Cell} (h : c.Looser c') (h' : c'.Looser c'') : c.Looser c'' where
  type hc := by
    rcases h'.type (h.ne_none hc) with heq | heq
    · rw [heq]
      exact h.type hc
    · exact .inr heq
  nullable hc := h'.nullable (h.nullable hc)

/-- A constant of a type changes nothing in the cell; `None` has no type. -/
def Admits (c : Cell) : Option String → Prop
  | none => c.nullable = some true
  | some typ => c.type = some (some "Scalar") ∨ c.type = some (some typ)

theorem Admits.looser {typ : Option String} (h : c.Admits typ) (hc : c.Looser c') : c'.Admits typ := by
  cases typ with
  | none => exact hc.nullable h
  | some typ =>
    rcases h with h | h
    · rcases hc.type (by simp [h]) with heq | heq
      · exact .inl (heq.trans h)
      · exact .inl heq
    · rcases hc.type (by simp [h]) with heq | heq
      · exact .inr (heq.trans h)
      · exact .inl heq

theorem with_type {typ : Option String} (h : c.type = some typ) : { c with type := some typ } = c := by
  rw [← h]

theorem getNullable_ok {n : Bool} (h : c.getNullable = (.ok n : Except (TypingRaised V) Bool)) :
    c.nullable = some n := by
  unfold Cell.getNullable at h
  split at h
  · cases h
    assumption
  · cases h

theorem getType_ok {typ : Option String}
    (h : c.getType = (.ok typ : Except (TypingRaised V) (Option String))) : c.type = some typ := by
  unfold Cell.getType at h
  split at h
  · cases h
    assumption
  · cases h

end Cell

namespace Typer

variable {reg : TypesRegistry T} {D : ℕ} {classOf : V → ValueClass} {s s' : Typer} {place : CellPlace}
  {col : Target} {strict : Bool} {b b' b'' : Both}

/-! ## Constants -/

/-- What a constant does to a cell. -/
structure Typed (place : CellPlace) (typ : Option String) (s s' : Typer) : Prop where
  others : ∀ q, q ≠ place → s'.cells q = s.cells q
  looser : (s.cells place).Looser (s'.cells place)
  admits : (s'.cells place).Admits typ
  fits : (s.cells place).Admits typ → s'.cells = s.cells
  quiet : s'.work = false → s' = s
  once : s'.once = s.once

theorem typed_setType (typ new : String) (hnone : (s.cells place).type = some none → new = typ)
    (hsome : (s.cells place).type ≠ some none → (s.cells place).type ≠ some (some typ) ∧ new = "Scalar") :
    Typed place (some typ) s (setType place new s) where
  others q hq := Function.update_of_ne hq ..
  looser := by
    refine ⟨fun hc => .inr ?_, ?_⟩
    · simp [setType, (hsome hc).2]
    · simp [setType]
  admits := by
    by_cases hc : (s.cells place).type = some none
    · exact .inr (by simp [setType, hnone hc])
    · exact .inl (by simp [setType, (hsome hc).2])
  fits h := by
    have hc : (s.cells place).type ≠ some none := by
      rcases h with h | h <;> rw [h] <;> simp
    obtain ⟨hne, rfl⟩ := hsome hc
    have htype : (s.cells place).type = some (some "Scalar") := h.resolve_right hne
    show Function.update _ _ _ = _
    rw [Cell.with_type htype, Function.update_eq_self]
  quiet h := by cases h
  once := rfl

theorem constrainType_ok {typ : String} (h : (constrainType place typ : Run V Unit).run s = (.ok (), s')) :
    Typed place (some typ) s s' := by
  unfold constrainType at h
  rw [run_get_bind] at h
  obtain ⟨old, hold, h⟩ := run_lift_bind_ok.1 h
  have htype := Cell.getType_ok hold
  cases old with
  | none =>
    cases h
    exact typed_setType typ typ (fun _ => rfl) fun hne => absurd htype hne
  | some old =>
    dsimp only at h
    split_ifs at h with hne
    · cases h
      exact typed_setType typ "Scalar" (fun hnone => by simp [htype] at hnone)
        fun _ => ⟨by simpa [htype] using Ne.symm hne, rfl⟩
    · cases h
      obtain rfl : typ = old := by simpa using hne
      exact ⟨fun _ _ => rfl, .refl _, .inr htype, fun _ => rfl, fun _ => rfl, rfl⟩

theorem setNullable_ok (h : (setNullable place : Run V Unit).run s = (.ok (), s')) :
    Typed place none s s' := by
  unfold setNullable at h
  rw [run_get_bind] at h
  obtain ⟨nullable, hnullable, h⟩ := run_lift_bind_ok.1 h
  have hcell := Cell.getNullable_ok hnullable
  cases nullable with
  | true =>
    cases h
    exact ⟨fun _ _ => rfl, .refl _, hcell, fun _ => rfl, fun _ => rfl, rfl⟩
  | false =>
    cases h
    refine ⟨fun q hq => Function.update_of_ne hq .., ⟨fun _ => .inl ?_, fun _ => ?_⟩, ?_, fun hadmits => ?_,
      (fun hwork => by cases hwork), rfl⟩
    · simp
    · simp
    · simp [Cell.Admits]
    · simp [Cell.Admits, hcell] at hadmits

theorem typeConstant_ok {v : V} (h : (typeConstant classOf v col).run s = (.ok (), s')) :
    ∃ place, col = .cell place ∧ Typed place (classOf v).type s s' := by
  cases col with
  | text => cases h
  | cell place =>
    refine ⟨place, rfl, ?_⟩
    unfold typeConstant at h
    dsimp only at h
    split at h
    · rename_i hclass
      rw [hclass]
      exact setNullable_ok h
    · rename_i typ hclass
      rw [hclass]
      exact constrainType_ok h

/-! ## Pairs of cells -/

/-- The types of both cells are not deeper. -/
def Both.Within (reg : TypesRegistry T) (D : ℕ) (b : Both) : Prop :=
  b.cell1.Within reg D ∧ b.cell2.Within reg D

/-- What propagation does to two cells, up to some depth: they become more precise, one of them at least if
there is work then. -/
structure Sinks (reg : TypesRegistry T) (D : ℕ) (b b' : Both) : Prop where
  within : b'.Within reg D
  rank1 : b'.cell1.rank reg D ≤ b.cell1.rank reg D
  rank2 : b'.cell2.rank reg D ≤ b.cell2.rank reg D
  work : b'.work = true →
    b.work = true ∨ b'.cell1.rank reg D < b.cell1.rank reg D ∨ b'.cell2.rank reg D < b.cell2.rank reg D

theorem Sinks.refl (h : b.Within reg D) : Sinks reg D b b := ⟨h, le_rfl, le_rfl, .inl⟩

theorem Sinks.trans (h : Sinks reg D b b') (h' : Sinks reg D b' b'') : Sinks reg D b b'' where
  within := h'.within
  rank1 := h'.rank1.trans h.rank1
  rank2 := h'.rank2.trans h.rank2
  work hw := by
    rcases h'.work hw with hw | hlt | hlt
    · rcases h.work hw with hw | hlt | hlt
      · exact .inl hw
      · exact .inr (.inl (h'.rank1.trans_lt hlt))
      · exact .inr (.inr (h'.rank2.trans_lt hlt))
    · exact .inr (.inl (hlt.trans_le h.rank1))
    · exact .inr (.inr (hlt.trans_le h.rank2))

/-- What propagation does to two cells, the second of which is strict or not. -/
structure Shares (strict : Bool) (b b' : Both) : Prop where
  quiet : b'.work = false → b' = b
  nullable : strict = true → b'.cell2.nullable = b.cell2.nullable
  type : strict = true → b.cell2.type ≠ some none → b'.cell2.type = b.cell2.type

theorem Shares.refl (strict : Bool) (b : Both) : Shares strict b b :=
  ⟨fun _ => rfl, fun _ => rfl, fun _ _ => rfl⟩

theorem Shares.cell2_eq (h : Shares true b b') (hne : b.cell2.type ≠ some none) : b'.cell2 = b.cell2 :=
  Cell.ext (h.type rfl hne) (h.nullable rfl)

theorem Shares.trans (h : Shares strict b b') (h' : Shares strict b' b'') : Shares strict b b'' where
  quiet hw := by
    obtain rfl := h'.quiet hw
    exact h.quiet hw
  nullable hs := (h'.nullable hs).trans (h.nullable hs)
  type hs hne := by
    have heq := h.type hs hne
    rw [h'.type hs (heq ▸ hne), heq]

theorem rank_nullable (c : Cell) (h : c.canBeNull = false) :
    Cell.rank reg D { c with nullable := some true } < Cell.rank reg D c := by
  have hnull : c.nullable = some false := by
    unfold Cell.canBeNull at h
    cases hc : c.nullable with
    | none => simp [hc] at h
    | some n => simpa [hc] using h
  simp [Cell.rank, hnull]

theorem shareNullable_ok (h : shareNullable strict b = (.ok b' : Except (TypingRaised V) Both)) :
    Shares strict b b' ∧ ∀ D, b.Within reg D → Sinks reg D b b' := by
  unfold shareNullable at h
  obtain ⟨nullable1, hnull, h⟩ := bind_ok.1 h
  have hnull := Cell.getNullable_ok hnull
  cases h
  by_cases hsecond : nullable1 && !b.cell2.canBeNull && !strict
  · rw [if_pos hsecond]
    simp only [Bool.and_eq_true, Bool.not_eq_true'] at hsecond
    obtain ⟨⟨rfl, hcan⟩, rfl⟩ := hsecond
    simp only [Bool.not_true, Bool.and_false, Bool.false_eq_true, if_false]
    refine ⟨⟨(fun hw => by cases hw), (fun hs => by cases hs), fun hs => by cases hs⟩,
      fun D hD => ⟨hD, le_rfl, ?_, fun _ => ?_⟩⟩
    · exact (rank_nullable _ hcan).le
    · exact .inr (.inr (rank_nullable _ hcan))
  · rw [if_neg hsecond]
    split_ifs with hfirst
    · simp only [Bool.and_eq_true, Bool.not_eq_true'] at hfirst
      obtain ⟨-, rfl⟩ := hfirst
      have hlt : ∀ D, Cell.rank reg D { b.cell1 with nullable := some true } < Cell.rank reg D b.cell1 :=
        fun D => rank_nullable _ (by simp [Cell.canBeNull, hnull])
      exact ⟨⟨(fun hw => by cases hw), fun _ => rfl, fun _ _ => rfl⟩,
        fun D hD => ⟨hD, (hlt D).le, le_rfl, fun _ => .inr (.inl (hlt D))⟩⟩
    · exact ⟨.refl strict b, fun D hD => .refl hD⟩

theorem rank_type {c : Cell} {typ : Option String} (hc : c.type = some typ) {new : String}
    (hnew : ∀ old, typ = some old → reg.typeDepth old < reg.typeDepth new) (hD : reg.typeDepth new ≤ D) :
    Cell.rank reg D { c with type := some (some new) } < Cell.rank reg D c := by
  have hlt : Cell.typeRank reg D (some (some new)) < Cell.typeRank reg D c.type := by
    rw [hc]
    cases typ with
    | none => exact Nat.lt_succ_of_le (Nat.sub_le ..)
    | some old =>
      have hdeep := hnew old rfl
      show D - _ < D - _
      omega
  exact Nat.add_lt_add_right hlt _

theorem shareType_ok (h : shareType reg strict b = (.ok (none, b') :
      Except (TypingRaised V) (Option (String × String) × Both))) :
    Shares strict b b' ∧ (∀ D, b.Within reg D → Sinks reg D b b')
      ∧ (b'.work = false → b.cell1.type = b.cell2.type) := by
  unfold shareType at h
  obtain ⟨typ1, h₁, h⟩ := bind_ok.1 h
  obtain ⟨typ2, h₂, h⟩ := bind_ok.1 h
  have h₁ := Cell.getType_ok h₁
  have h₂ := Cell.getType_ok h₂
  rcases typ1 with _ | typ1 <;> rcases typ2 with _ | typ2
  · cases h
    exact ⟨.refl strict b, fun D hD => .refl hD, fun _ => h₁.trans h₂.symm⟩
  · cases h
    refine ⟨⟨(fun hw => by cases hw), fun _ => rfl, fun _ _ => rfl⟩, fun D hD => ?_, fun hw => by cases hw⟩
    have hlt := @rank_type _ _ reg D _ _ h₁ typ2 (fun old hold => by cases hold) (hD.2 typ2 h₂)
    refine ⟨⟨fun typ htyp => ?_, hD.2⟩, hlt.le, le_rfl, fun _ => .inr (.inl hlt)⟩
    exact hD.2 typ (h₂.trans htyp)
  · cases h
    refine ⟨⟨(fun hw => by cases hw), fun _ => rfl, fun _ hne => absurd h₂ hne⟩, fun D hD => ?_,
      fun hw => by cases hw⟩
    have hlt := @rank_type _ _ reg D _ _ h₂ typ1 (fun old hold => by cases hold) (hD.1 typ1 h₁)
    refine ⟨⟨hD.1, fun typ htyp => ?_⟩, le_rfl, hlt.le, fun _ => .inr (.inr hlt)⟩
    exact hD.1 typ (h₁.trans htyp)
  · dsimp only at h
    split_ifs at h with hne
    · obtain ⟨typ3, hmin, h⟩ := bind_ok.1 h
      cases typ3 with
      | none => cases h
      | some typ3 =>
        cases h
        rcases TypesRegistry.minType_some hne hmin with ⟨rfl, hdeep⟩ | ⟨rfl, rfl, hdeep⟩
        · rw [Cell.with_type h₂]
          refine ⟨⟨(fun hw => by cases hw), fun _ => rfl, fun _ _ => rfl⟩, fun D hD => ?_,
            fun hw => by cases hw⟩
          have hlt := rank_type (D := D) h₁ (fun old hold => by cases hold; exact hdeep) (hD.2 _ h₂)
          refine ⟨⟨fun typ htyp => ?_, hD.2⟩, hlt.le, le_rfl, fun _ => .inr (.inl hlt)⟩
          exact hD.2 typ (h₂.trans htyp)
        · rw [Cell.with_type h₁]
          refine ⟨⟨(fun hw => by cases hw), fun _ => rfl, fun hs => by cases hs⟩, fun D hD => ?_,
            fun hw => by cases hw⟩
          have hlt := rank_type (D := D) h₂ (fun old hold => by cases hold; exact hdeep) (hD.1 _ h₁)
          refine ⟨⟨hD.1, fun typ htyp => ?_⟩, le_rfl, hlt.le, fun _ => .inr (.inr hlt)⟩
          exact hD.1 typ (h₁.trans htyp)
    · cases h
      obtain rfl : typ1 = typ2 := by simpa using hne
      exact ⟨.refl strict b, fun D hD => .refl hD, fun _ => h₁.trans h₂.symm⟩

/-! ## Type cells -/

/-- The type that an argument of an atom is typed with. -/
def typeOf (s : Typer) (col : Target) : Option (Option String) := (s.cellOf col).type

theorem store_store (b b' : Both) (s : Typer) :
    (s.store place col b).store place col b' = s.store place col b' := by
  cases col with
  | text =>
    unfold store
    simp only [Function.update_idem]
  | cell place' =>
    unfold store
    dsimp only
    congr 1
    funext q
    simp only [Function.update_apply]
    split_ifs <;> rfl

theorem typeCells_ok (h : (typeCells reg place col strict : Run V _).run s = (.ok none, s')) :
    ∃ b', s' = s.store place col b' ∧ Shares strict ⟨s.cells place, s.cellOf col, s.work⟩ b'
      ∧ (∀ D, Both.Within reg D ⟨s.cells place, s.cellOf col, s.work⟩ →
        Sinks reg D ⟨s.cells place, s.cellOf col, s.work⟩ b')
      ∧ (b'.work = false → s.typeOf (.cell place) = s.typeOf col) := by
  unfold typeCells at h
  rw [run_get_bind] at h
  obtain ⟨b₁, h₁, h⟩ := run_lift_bind_ok.1 h
  rw [run_modify_bind] at h
  obtain ⟨⟨err, b₂⟩, h₂, h⟩ := run_lift_bind_ok.1 h
  rw [run_modify_bind] at h
  cases h
  have hnullable := @shareNullable_ok _ _ _ _ reg _ _ _ h₁
  obtain ⟨hshare₁, hsink₁⟩ := hnullable
  obtain ⟨hshare₂, hsink₂, htype⟩ := shareType_ok h₂
  refine ⟨b₂, store_store .., ?_, fun D hD => (hsink₁ D hD).trans (hsink₂ D (hsink₁ D hD).within),
    fun hw => ?_⟩
  · exact hshare₁.trans hshare₂
  · obtain rfl := hshare₁.quiet (hshare₂.quiet hw ▸ hw)
    exact htype hw

theorem store_cells_of_ne {q : CellPlace} (hq : q ≠ place) (hcol : col ≠ .cell q) (b : Both) (s : Typer) :
    (s.store place col b).cells q = s.cells q := by
  cases col with
  | text => exact Function.update_of_ne hq ..
  | cell place' =>
    have hne : q ≠ place' := by
      rintro rfl
      exact hcol rfl
    exact (Function.update_of_ne hne ..).trans (Function.update_of_ne hq ..)

theorem store_cells_col {q : CellPlace} (b : Both) (s : Typer) :
    (s.store place (.cell q) b).cells q = b.cell2 := Function.update_self ..

theorem store_cells_place (hcol : col ≠ .cell place) (b : Both) (s : Typer) :
    (s.store place col b).cells place = b.cell1 := by
  cases col with
  | text => exact Function.update_self ..
  | cell place' =>
    have hne : place ≠ place' := by
      rintro rfl
      exact hcol rfl
    exact (Function.update_of_ne hne ..).trans (Function.update_self ..)

theorem store_work (b : Both) (s : Typer) : (s.store place col b).work = b.work := by
  cases col <;> rfl

theorem store_once (b : Both) (s : Typer) : (s.store place col b).once = s.once := by
  cases col <;> rfl

theorem store_self (place : CellPlace) (col : Target) (s : Typer) :
    s.store place col ⟨s.cells place, s.cellOf col, s.work⟩ = s := by
  cases col with
  | text =>
    unfold store
    simp only [Function.update_eq_self]
  | cell place' =>
    unfold store cellOf
    simp only [Function.update_eq_self]

/-! ## Occurrences -/

section Policies

variable (theories : List (Z3Policy V)) (world : World)

/-- An argument of an atom in a rule, and the column that it is typed with, which is strict or not. -/
def Occurs (rule : Z3Rule V) (atom : Literal V) (strict : Bool) (a : Term V × Target) : Prop :=
  ∃ theory ∈ theories, rule ∈ theory.rules ∧ ∃ pos schema, (atom, pos) ∈ atoms rule
    ∧ tblSchema theories world theory rule atom pos = .ok (strict, schema) ∧ a ∈ atom.arguments.zip schema

/-- A column of a table of another policy which is typed, and its cell. -/
inductive Given : CellPlace → Cell → Prop
  | intro {svc table : String} {map : String → Option (List Column)} {row : List Column} {pos : ℕ}
      {cell : Cell} :
      svc ∉ theorynames theories → world svc = some map → map table = some row →
      row[pos]? = some (.dict cell) → Given (.column svc table pos) cell

/-- Every column of another policy which is typed has a type. -/
def TypesGiven : Prop := ∀ place cell, Given theories world place cell → cell.type ≠ some none

/-- Variables have the types of the columns which they are in. -/
def Sound (s : Typer) : Prop := ∀ rule atom strict name col,
  Occurs theories world rule atom strict (.variable name, col) →
    s.typeOf (.cell (.variable rule.id name)) = s.typeOf col

/-- The columns of other policies are as they were. -/
def Unchanged (s : Typer) : Prop := ∀ place cell, Given theories world place cell → s.cells place = cell

/-- The constants in columns of other policies are of the columns' types, if these are not `Scalar`. -/
def ConstantsFit (classOf : V → ValueClass) : Prop := ∀ rule atom strict v place cell,
  Occurs theories world rule atom strict (.object v, .cell place) → Given theories world place cell →
    cell.Admits (classOf v).type

variable {theories : List (Z3Policy V)} {world : World} {rule : Z3Rule V} {atom : Literal V}
  {a : Term V × Target} {t : Term V} {cell : Cell}

theorem resetTypes_other {svc : String} (h : svc ∉ theorynames theories) :
    resetTypes theories world svc = world svc := by
  unfold resetTypes
  simp only [h, if_false, Option.map_id']

theorem resetTypes_own {svc table : String} {map : String → Option (List Column)} {row : List Column}
    (h : svc ∈ theorynames theories) (hmap : resetTypes theories world svc = some map)
    (hrow : map table = some row) : ∀ c ∈ row, c = .dict .bottom := by
  unfold resetTypes at hmap
  obtain ⟨map, -, rfl⟩ := Option.map_eq_some_iff.1 hmap
  obtain ⟨row, -, rfl⟩ := Option.map_eq_some_iff.1 hrow
  intro c hc
  rw [if_pos h] at hc
  obtain ⟨_, -, rfl⟩ := List.mem_map.1 hc
  rfl

theorem Given.reset (h : Given theories world place cell) : (reset theories world).cells place = cell := by
  cases h with
  | intro hsvc hmap hrow hcell =>
    unfold Typer.reset
    dsimp only
    rw [resetTypes_other hsvc, hmap, Option.bind_some, hrow, Option.bind_some, hcell]

theorem unchanged_reset : Unchanged theories world (reset theories world) := fun _ _ h => h.reset

/-- Columns of a table are cells of their own, and texts only in other policies. -/
theorem columns_ok {svc table : String} {row : List Target}
    (h : columns theories world svc table = (.ok row : Except (TypingRaised V) (List Target))) :
    ∀ col ∈ row, (col = .text ∧ svc ∉ theorynames theories) ∨ ∃ pos, col = .cell (.column svc table pos)
      ∧ (svc ∉ theorynames theories → ∃ cell, Given theories world (.column svc table pos) cell) := by
  unfold columns at h
  split at h
  · cases h
  rename_i map hmap
  split at h
  · cases h
  rename_i cells hcells
  cases h
  intro col hcol
  obtain ⟨⟨c, pos⟩, hmem, rfl⟩ := List.mem_map.1 hcol
  have hpos : cells[pos]? = some c := List.mem_zipIdx_iff_getElem?.1 hmem
  cases c with
  | name =>
    refine .inl ⟨rfl, fun hsvc => ?_⟩
    cases resetTypes_own hsvc hmap hcells _ (List.mem_of_getElem? hpos)
  | dict cell =>
    refine .inr ⟨pos, rfl, fun hsvc => ⟨cell, ?_⟩⟩
    rw [resetTypes_other hsvc] at hmap
    exact .intro hsvc hmap hcells hpos

theorem Given.not_mem {svc table : String} {pos : ℕ} (h : Given theories world (.column svc table pos) cell) :
    svc ∉ theorynames theories := by
  cases h
  assumption

theorem builtinTypes_mem {id : String} {pos : ℕ} {col : Target} (h : col ∈ builtinTypes theories id pos) :
    ∃ arg, col = .cell (.typeVar id pos arg) := by
  unfold builtinTypes at h
  split at h
  · cases h
  split_ifs at h
  · split at h
    · cases h
    · obtain ⟨arg, -, rfl⟩ := List.mem_map.1 h
      exact ⟨arg, rfl⟩
  · cases h

/-- What is strict is what belongs to other policies, and texts are. -/
theorem Occurs.target {strict : Bool} {col : Target} (h : Occurs theories world rule atom strict (t, col)) :
    (col = .text ∧ strict = true) ∨ ∃ place, col = .cell place ∧ (∀ name, place ≠ .variable rule.id name)
      ∧ (strict = true ↔ ∃ cell, Given theories world place cell) := by
  obtain ⟨theory, hth, hrule, pos, schema, hatom, hschema, ha⟩ := h
  have hcol := (List.of_mem_zip ha).2
  unfold tblSchema at hschema
  dsimp only at hschema
  split_ifs at hschema with hsvc
  · cases pos with
    | none => cases hschema
    | some pos =>
      cases hschema
      obtain ⟨arg, rfl⟩ := builtinTypes_mem hcol
      exact .inr ⟨_, rfl, fun _ h => (by cases h), fun h => (by cases h), fun ⟨_, h⟩ => (by cases h)⟩
  · obtain ⟨row, hrow, heq⟩ : ∃ row, columns theories world (atom.table.service.getD theory.name)
        atom.table.table = (.ok row : Except (TypingRaised V) (List Target))
        ∧ (decide (atom.table.service.getD theory.name ∉ theorynames theories), row) = (strict, schema) := by
      cases hrow : columns theories world (atom.table.service.getD theory.name) atom.table.table with
      | error e =>
        rw [hrow] at hschema
        cases hschema
      | ok row =>
        rw [hrow] at hschema
        exact ⟨row, rfl, Except.ok.inj hschema⟩
    cases heq
    rcases columns_ok hrow col hcol with ⟨rfl, hsvc⟩ | ⟨pos, rfl, hgiven⟩
    · exact .inl ⟨rfl, decide_eq_true hsvc⟩
    · refine .inr ⟨_, rfl, fun _ h => (by cases h), ?_⟩
      rw [decide_eq_true_iff]
      exact ⟨hgiven, fun ⟨_, h⟩ => h.not_mem⟩

/-! ## Arguments -/

theorem varTypes_ok {id name : String}
    (h : varTypes theories id name = (.ok place : Except (TypingRaised V) CellPlace)) :
    place = .variable id name := by
  unfold varTypes at h
  split at h
  · cases h
  · split_ifs at h
    cases h
    rfl

theorem typeArgument_variable {name : String}
    (h : (typeArgument theories reg classOf rule atom strict (.variable name, col)).run s = (.ok (), s')) :
    ∃ b', s' = s.store (.variable rule.id name) col b'
      ∧ Shares strict ⟨s.cells (.variable rule.id name), s.cellOf col, s.work⟩ b'
      ∧ (∀ D, Both.Within reg D ⟨s.cells (.variable rule.id name), s.cellOf col, s.work⟩ →
        Sinks reg D ⟨s.cells (.variable rule.id name), s.cellOf col, s.work⟩ b')
      ∧ (b'.work = false → s.typeOf (.cell (.variable rule.id name)) = s.typeOf col) := by
  unfold typeArgument at h
  obtain ⟨place, hplace, h⟩ := run_lift_bind_ok.1 h
  obtain rfl := varTypes_ok hplace
  obtain ⟨err, s₁, h₁, h⟩ := run_bind_ok.1 h
  cases err with
  | none =>
    cases h
    exact typeCells_ok h₁
  | some err => cases h

theorem typeArgument_object {v : V}
    (h : (typeArgument theories reg classOf rule atom strict (.object v, col)).run s = (.ok (), s')) :
    if s.once then (typeConstant classOf v col).run s = (.ok (), s') else s' = s := by
  unfold typeArgument at h
  rw [run_get_bind] at h
  split_ifs at h ⊢
  · exact h
  · cases h
    rfl

/-- What a loop may do: columns of other policies become looser at most. -/
structure Respects (theories : List (Z3Policy V)) (world : World) (s s' : Typer) : Prop where
  looser : ∀ place cell, Given theories world place cell → (s.cells place).Looser (s'.cells place)
  once : s'.once = s.once

theorem Respects.refl (s : Typer) : Respects theories world s s := ⟨fun _ _ _ => .refl _, rfl⟩

theorem Respects.trans {t : Typer} (h : Respects theories world s s') (h' : Respects theories world s' t) :
    Respects theories world s t :=
  ⟨fun place cell hp => (h.looser place cell hp).trans (h'.looser place cell hp), h'.once.trans h.once⟩

theorem Typed.respects {typ : Option String} (h : Typed place typ s s') : Respects theories world s s' := by
  refine ⟨fun q cell _ => ?_, h.once⟩
  by_cases hq : q = place
  · exact hq ▸ h.looser
  · rw [h.others q hq]
    exact .refl _

theorem Occurs.respects (ho : Occurs theories world rule atom strict a)
    (h : (typeArgument theories reg classOf rule atom strict a).run s = (.ok (), s')) :
    Respects theories world s s' := by
  obtain ⟨t, col⟩ := a
  rcases t with name | v
  · obtain ⟨b', rfl, hshare, -, -⟩ := typeArgument_variable h
    refine ⟨fun q cell hq => ?_, store_once ..⟩
    have hne : q ≠ .variable rule.id name := by
      rintro rfl
      cases hq
    by_cases hcol : col = .cell q
    · subst hcol
      have hstrict : strict = true := by
        rcases ho.target with ⟨h, -⟩ | ⟨place, h, -, hiff⟩
        · cases h
        · cases h
          exact hiff.2 ⟨cell, hq⟩
      rw [store_cells_col]
      refine ⟨fun hne => .inl (hshare.type hstrict hne), fun hnull => ?_⟩
      rw [hshare.nullable hstrict]
      exact hnull
    · rw [store_cells_of_ne hne hcol]
      exact .refl _
  · have h := typeArgument_object h
    split_ifs at h
    · obtain ⟨place, rfl, htyped⟩ := typeConstant_ok h
      exact htyped.respects
    · rw [h]
      exact .refl _

/-- Nothing is done to columns of other policies which fit their constants. -/
theorem Occurs.unchanged (ho : Occurs theories world rule atom strict a) (hgiven : TypesGiven theories world)
    (hfit : ConstantsFit theories world classOf) (hs : Unchanged theories world s)
    (h : (typeArgument theories reg classOf rule atom strict a).run s = (.ok (), s')) :
    Unchanged theories world s' := by
  intro q cell hq
  have hcell := hs q cell hq
  obtain ⟨t, col⟩ := a
  rcases t with name | v
  · obtain ⟨b', rfl, hshare, -, -⟩ := typeArgument_variable h
    have hne : q ≠ .variable rule.id name := by
      rintro rfl
      cases hq
    by_cases hcol : col = .cell q
    · subst hcol
      obtain rfl : strict = true := by
        rcases ho.target with ⟨h, -⟩ | ⟨place, h, -, hiff⟩
        · cases h
        · cases h
          exact hiff.2 ⟨cell, hq⟩
      rw [store_cells_col, hshare.cell2_eq (by show (s.cells q).type ≠ _; rw [hcell]; exact hgiven q cell hq)]
      exact hcell
    · rw [store_cells_of_ne hne hcol]
      exact hcell
  · have h := typeArgument_object h
    split_ifs at h
    · obtain ⟨place, rfl, htyped⟩ := typeConstant_ok h
      by_cases hplace : q = place
      · subst hplace
        rw [htyped.fits (hcell ▸ hfit rule atom strict v q cell ho hq)]
        exact hcell
      · rw [htyped.others q hplace]
        exact hcell
    · rw [h]
      exact hcell

/-- What leaves no work has not changed anything, and variables have the types of their columns. -/
theorem typeArgument_quiet (h : (typeArgument theories reg classOf rule atom strict a).run s = (.ok (), s'))
    (hwork : s'.work = false) : s' = s ∧ ∀ name col, a = (.variable name, col) →
      s.typeOf (.cell (.variable rule.id name)) = s.typeOf col := by
  obtain ⟨t, col⟩ := a
  rcases t with name | v
  · obtain ⟨b', rfl, hshare, -, htype⟩ := typeArgument_variable h
    rw [store_work] at hwork
    refine ⟨?_, fun name' col' heq => ?_⟩
    · rw [hshare.quiet hwork]
      exact store_self ..
    · cases heq
      exact htype hwork
  · have h := typeArgument_object h
    refine ⟨?_, fun _ _ heq => by cases heq⟩
    split_ifs at h
    · obtain ⟨place, rfl, htyped⟩ := typeConstant_ok h
      exact htyped.quiet hwork
    · exact h

/-! ## Iterations -/

/-- All rules, as an iteration goes through them. -/
def allRules (theories : List (Z3Policy V)) (world : World) (reg : TypesRegistry T)
    (classOf : V → ValueClass) : Run V Unit :=
  forEach (fun theory => forEach (typeRule theories world reg classOf theory) theory.rules) theories

theorem iteration_ok (h : (iteration theories world reg classOf).run s = (.ok (), s')) :
    ∃ t, (allRules theories world reg classOf).run { s with work := false } = (.ok (), t)
      ∧ s' = { t with once := false } := by
  unfold iteration at h
  rw [run_modify_bind] at h
  obtain ⟨⟨⟩, t, ht, h⟩ := run_bind_ok.1 h
  cases h
  exact ⟨t, ht, rfl⟩

section Relations

variable {R : Typer → Typer → Prop} (hrefl : ∀ s, R s s) (htrans : ∀ s t u, R s t → R t u → R s u)
  (hstep : ∀ rule atom strict a, Occurs theories world rule atom strict a → ∀ s s',
    (typeArgument theories reg classOf rule atom strict a).run s = (.ok (), s') → R s s')

include hrefl htrans hstep

theorem typeAtom_rel {theory : Z3Policy V} (hth : theory ∈ theories) (hrule : rule ∈ theory.rules)
    {atom : Literal V × Option ℕ} (hatom : atom ∈ atoms rule)
    (h : (typeAtom theories world reg classOf theory rule atom).run s = (.ok (), s')) : R s s' := by
  obtain ⟨⟨strict, schema⟩, hschema, h⟩ := run_lift_bind_ok.1 h
  exact forEach_rel hrefl htrans (fun a ha s s' h =>
    hstep rule atom.1 strict a ⟨theory, hth, hrule, atom.2, schema, hatom, hschema, ha⟩ s s' h) h

theorem typeRule_rel {theory : Z3Policy V} (hth : theory ∈ theories) (hrule : rule ∈ theory.rules)
    (h : (typeRule theories world reg classOf theory rule).run s = (.ok (), s')) : R s s' :=
  forEach_rel hrefl htrans (fun _ hatom _ _ h => typeAtom_rel hrefl htrans hstep hth hrule hatom h) h

theorem allRules_rel (h : (allRules theories world reg classOf).run s = (.ok (), s')) : R s s' :=
  forEach_rel hrefl htrans (fun _ hth _ _ h =>
    forEach_rel hrefl htrans (fun _ hrule _ _ h => typeRule_rel hrefl htrans hstep hth hrule h) h) h

end Relations

/-- The variables of an atom have the types of their columns. -/
def AtomSound (theories : List (Z3Policy V)) (world : World) (theory : Z3Policy V) (rule : Z3Rule V)
    (atom : Literal V × Option ℕ) (s : Typer) : Prop := ∀ strict schema,
  tblSchema theories world theory rule atom.1 atom.2 = .ok (strict, schema) →
    ∀ a ∈ atom.1.arguments.zip schema, ∀ name col, a = (.variable name, col) →
      s.typeOf (.cell (.variable rule.id name)) = s.typeOf col

theorem typeAtom_quiet {theory : Z3Policy V} {atom : Literal V × Option ℕ}
    (h : (typeAtom theories world reg classOf theory rule atom).run s = (.ok (), s'))
    (hwork : s'.work = false) : s' = s ∧ AtomSound theories world theory rule atom s := by
  obtain ⟨⟨strict, schema⟩, hschema, h⟩ := run_lift_bind_ok.1 h
  have h : (forEach (typeArgument theories reg classOf rule atom.1 strict)
    (atom.1.arguments.zip schema)).run s = (.ok (), s') := h
  obtain ⟨rfl, hall⟩ := forEach_quiet (P := fun s : Typer => s.work = false)
    (Q := fun a s => ∀ name col, a = (.variable name, col) →
      s.typeOf (.cell (.variable rule.id name)) = s.typeOf col)
    (fun a _ s s' h hq => typeArgument_quiet h hq) h hwork
  refine ⟨rfl, fun strict' schema' hschema' => ?_⟩
  rw [hschema] at hschema'
  cases hschema'
  exact hall

/-- An iteration that leaves no work has changed nothing, and the types are sound. -/
theorem allRules_quiet (h : (allRules theories world reg classOf).run s = (.ok (), s'))
    (hwork : s'.work = false) : s' = s ∧ Sound theories world s := by
  obtain ⟨rfl, hsound⟩ := forEach_quiet (P := fun s : Typer => s.work = false)
    (Q := fun theory s => ∀ rule ∈ theory.rules, ∀ atom ∈ atoms rule,
      AtomSound theories world theory rule atom s)
    (fun theory _ s s' h hq => forEach_quiet (P := fun s : Typer => s.work = false)
      (Q := fun rule s => ∀ atom ∈ atoms rule, AtomSound theories world theory rule atom s)
      (fun rule _ s s' h hq => forEach_quiet (P := fun s : Typer => s.work = false)
        (fun atom _ s s' h hq => typeAtom_quiet h hq) h hq) h hq) h hwork
  refine ⟨rfl, fun rule atom strict name col ho => ?_⟩
  obtain ⟨theory, hth, hrule, pos, schema, hatom, hschema, ha⟩ := ho
  exact hsound theory hth rule hrule _ hatom strict schema hschema _ ha name col rfl

/-- The constant is admitted by its column, in the first iteration. -/
def Admitted (theories : List (Z3Policy V)) (world : World) (classOf : V → ValueClass) (a : Term V × Target)
    (s : Typer) : Prop := s.once = true → ∀ v place, a = (.object v, .cell place) →
  (∃ cell, Given theories world place cell) → (s.cells place).Admits (classOf v).type

theorem Admitted.respects (hr : Respects theories world s s') (h : Admitted theories world classOf a s) :
    Admitted theories world classOf a s' := by
  rintro honce v place rfl ⟨cell, hcell⟩
  exact (h (hr.once ▸ honce) v place rfl ⟨cell, hcell⟩).looser (hr.looser place cell hcell)

theorem Occurs.admitted (ho : Occurs theories world rule atom strict a)
    (h : (typeArgument theories reg classOf rule atom strict a).run s = (.ok (), s')) :
    Admitted theories world classOf a s' := by
  rintro honce v place rfl -
  have hrun := typeArgument_object h
  rw [if_pos ((ho.respects h).once ▸ honce)] at hrun
  obtain ⟨_, heq, htyped⟩ := typeConstant_ok hrun
  cases heq
  exact htyped.admits

/-- The constants of an atom are admitted. -/
def AtomAdmitted (theories : List (Z3Policy V)) (world : World) (classOf : V → ValueClass)
    (theory : Z3Policy V) (rule : Z3Rule V) (atom : Literal V × Option ℕ) (s : Typer) : Prop := ∀ strict schema,
  tblSchema theories world theory rule atom.1 atom.2 = .ok (strict, schema) →
    ∀ a ∈ atom.1.arguments.zip schema, Admitted theories world classOf a s

theorem typeAtom_admits {theory : Z3Policy V} (hth : theory ∈ theories) (hrule : rule ∈ theory.rules)
    {atom : Literal V × Option ℕ} (hatom : atom ∈ atoms rule)
    (h : (typeAtom theories world reg classOf theory rule atom).run s = (.ok (), s')) :
    AtomAdmitted theories world classOf theory rule atom s' := by
  obtain ⟨⟨strict, schema⟩, hschema, h⟩ := run_lift_bind_ok.1 h
  intro strict' schema' hschema'
  rw [hschema] at hschema'
  cases hschema'
  refine forEach_brings (R := Respects theories world) (Q := Admitted theories world classOf) Respects.refl
    (fun _ _ _ => Respects.trans) (fun a s s' => Admitted.respects) (fun a ha s s' h => ?_) h
  have ho : Occurs theories world rule atom.1 strict a :=
    ⟨theory, hth, hrule, atom.2, schema, hatom, hschema, ha⟩
  exact ⟨ho.respects h, ho.admitted h⟩

/-- After the first iteration columns of other policies admit their constants. -/
theorem allRules_admits (h : (allRules theories world reg classOf).run s = (.ok (), s')) :
    ∀ theory ∈ theories, ∀ rule ∈ theory.rules, ∀ atom ∈ atoms rule,
      AtomAdmitted theories world classOf theory rule atom s' := by
  have hstep : ∀ rule atom strict a, Occurs theories world rule atom strict a → ∀ s s',
      (typeArgument theories reg classOf rule atom strict a).run s = (.ok (), s') →
      Respects theories world s s' := fun _ _ _ _ ho _ _ h => ho.respects h
  have htrans : ∀ s t u, Respects theories world s t → Respects theories world t u →
      Respects theories world s u := fun _ _ _ => Respects.trans
  refine forEach_brings (R := Respects theories world)
    (Q := fun theory s => ∀ rule ∈ theory.rules, ∀ atom ∈ atoms rule,
      AtomAdmitted theories world classOf theory rule atom s) Respects.refl htrans
    (fun theory s s' hr h rule hrule atom hatom strict schema hschema a ha =>
      (h rule hrule atom hatom strict schema hschema a ha).respects hr)
    (fun theory hth s s' h => ⟨?_, ?_⟩) h
  · exact forEach_rel Respects.refl htrans (fun rule hrule s s' h =>
      typeRule_rel Respects.refl htrans hstep hth hrule h) h
  refine forEach_brings (R := Respects theories world)
    (Q := fun rule s => ∀ atom ∈ atoms rule, AtomAdmitted theories world classOf theory rule atom s)
    Respects.refl htrans
    (fun rule s s' hr h atom hatom strict schema hschema a ha =>
      (h atom hatom strict schema hschema a ha).respects hr)
    (fun rule hrule s s' h => ⟨?_, ?_⟩) h
  · exact typeRule_rel Respects.refl htrans hstep hth hrule h
  exact forEach_brings (R := Respects theories world)
    (Q := fun atom s => AtomAdmitted theories world classOf theory rule atom s) Respects.refl htrans
    (fun atom s s' hr h strict schema hschema a ha => (h strict schema hschema a ha).respects hr)
    (fun atom hatom s s' h => ⟨typeAtom_rel Respects.refl htrans hstep hth hrule hatom h,
      typeAtom_admits hth hrule hatom h⟩) h

/-! ## Termination -/

/-- The cells that are typed for an argument. -/
def touched (rule : Z3Rule V) : Term V × Target → List CellPlace
  | (.variable name, .text) => [.variable rule.id name]
  | (.variable name, .cell place) => [.variable rule.id name, place]
  | (.object _, _) => []

/-- The cells of all variables and of the columns they are in. -/
def places (theories : List (Z3Policy V)) (world : World) : Finset CellPlace :=
  (theories.flatMap fun theory => theory.rules.flatMap fun rule => (atoms rule).flatMap fun atom =>
    match tblSchema theories world theory rule atom.1 atom.2 with
    | .ok (_, schema) => (atom.1.arguments.zip schema).flatMap (touched rule)
    | .error _ => []).toFinset

theorem Occurs.mem_places (ho : Occurs theories world rule atom strict a) (h : place ∈ touched rule a) :
    place ∈ places theories world := by
  obtain ⟨theory, hth, hrule, pos, schema, hatom, hschema, ha⟩ := ho
  refine List.mem_toFinset.2 (List.mem_flatMap.2 ⟨theory, hth, List.mem_flatMap.2 ⟨rule, hrule,
    List.mem_flatMap.2 ⟨_, hatom, ?_⟩⟩⟩)
  simp only [hschema]
  exact List.mem_flatMap.2 ⟨a, ha, h⟩

/-- What a loop does to the cells of some places, after the first iteration. -/
structure Lowers (reg : TypesRegistry T) (D : ℕ) (P : Finset CellPlace) (s s' : Typer) : Prop where
  within : ∀ q ∈ P, (s'.cells q).Within reg D
  rank : ∀ q ∈ P, (s'.cells q).rank reg D ≤ (s.cells q).rank reg D
  work : s'.work = true → s.work = true ∨ ∃ q ∈ P, (s'.cells q).rank reg D < (s.cells q).rank reg D

/-- After the first iteration, and with types that are not too deep. -/
structure Settled (reg : TypesRegistry T) (D : ℕ) (P : Finset CellPlace) (s : Typer) : Prop where
  once : s.once = false
  within : ∀ q ∈ P, (s.cells q).Within reg D

theorem Lowers.trans {P : Finset CellPlace} {t : Typer} (h : Lowers reg D P s s') (h' : Lowers reg D P s' t) :
    Lowers reg D P s t where
  within := h'.within
  rank q hq := (h'.rank q hq).trans (h.rank q hq)
  work hw := by
    rcases h'.work hw with hw | ⟨q, hq, hlt⟩
    · rcases h.work hw with hw | ⟨q, hq, hlt⟩
      · exact .inl hw
      · exact .inr ⟨q, hq, (h'.rank q hq).trans_lt hlt⟩
    · exact .inr ⟨q, hq, hlt.trans_le (h.rank q hq)⟩

/-- After the first iteration arguments make cells more precise. -/
theorem Occurs.lowers (hD : reg.typeDepth "Scalar" ≤ D) (ho : Occurs theories world rule atom strict a)
    (hs : Settled reg D (places theories world) s)
    (h : (typeArgument theories reg classOf rule atom strict a).run s = (.ok (), s')) :
    Lowers reg D (places theories world) s s' := by
  obtain ⟨t, col⟩ := a
  rcases t with name | v
  · obtain ⟨b', rfl, hshare, hsink, -⟩ := typeArgument_variable h
    rcases ho.target with ⟨rfl, rfl⟩ | ⟨place, rfl, hne, -⟩
    · have hvar := ho.mem_places (List.mem_singleton_self _)
      have hfake : Cell.Within reg D Cell.fake := fun typ htyp => by
        cases htyp
        exact hD
      obtain ⟨hwithin, hrank, -, hwork⟩ := hsink D ⟨hs.within _ hvar, hfake⟩
      have hcell := hshare.cell2_eq (by simp [cellOf, Cell.fake])
      have hstore : (s.store (.variable rule.id name) .text b').cells
          = Function.update s.cells (.variable rule.id name) b'.cell1 := rfl
      refine ⟨fun q hq => ?_, fun q hq => ?_, fun hw => ?_⟩
      · rw [hstore, Function.update_apply]
        split_ifs with heq
        · exact hwithin.1
        · exact hs.within q hq
      · rw [hstore, Function.update_apply]
        split_ifs with heq
        · exact heq ▸ hrank
        · exact le_rfl
      · rcases hwork hw with hw | hlt | hlt
        · exact .inl hw
        · refine .inr ⟨_, hvar, ?_⟩
          rw [hstore, Function.update_self]
          exact hlt
        · rw [hcell] at hlt
          exact absurd hlt (lt_irrefl _)
    · have hvar := ho.mem_places (List.mem_cons_self ..)
      have hplace := ho.mem_places (List.mem_cons_of_mem _ (List.mem_singleton_self place))
      obtain ⟨hwithin, hrank₁, hrank₂, hwork⟩ := hsink D ⟨hs.within _ hvar, hs.within _ hplace⟩
      have hstore : (s.store (.variable rule.id name) (.cell place) b').cells
          = Function.update (Function.update s.cells (.variable rule.id name) b'.cell1) place b'.cell2 := rfl
      refine ⟨fun q hq => ?_, fun q hq => ?_, fun hw => ?_⟩
      · rw [hstore, Function.update_apply, Function.update_apply]
        split_ifs
        · exact hwithin.2
        · exact hwithin.1
        · exact hs.within q hq
      · rw [hstore, Function.update_apply, Function.update_apply]
        split_ifs with heq heq'
        · exact heq ▸ hrank₂
        · exact heq' ▸ hrank₁
        · exact le_rfl
      · rcases hwork hw with hw | hlt | hlt
        · exact .inl hw
        · refine .inr ⟨_, hvar, ?_⟩
          rw [store_cells_place (by rintro ⟨⟩; exact hne name rfl)]
          exact hlt
        · refine .inr ⟨_, hplace, ?_⟩
          rw [store_cells_col]
          exact hlt
  · have h := typeArgument_object h
    rw [if_neg (by simp [hs.once])] at h
    rw [h]
    exact ⟨hs.within, fun _ _ => le_rfl, .inl⟩

theorem allRules_lowers (hD : reg.typeDepth "Scalar" ≤ D) (hs : Settled reg D (places theories world) s)
    (h : (allRules theories world reg classOf).run s = (.ok (), s')) :
    Settled reg D (places theories world) s' ∧ Lowers reg D (places theories world) s s' := by
  refine allRules_rel (R := fun s s' => Settled reg D (places theories world) s →
      Settled reg D (places theories world) s' ∧ Lowers reg D (places theories world) s s')
    (fun s hs => ⟨hs, hs.within, fun _ _ => le_rfl, .inl⟩) (fun s t u h h' hs => ?_)
    (fun rule atom strict a ho s s' h hs => ?_) h hs
  · obtain ⟨ht, hst⟩ := h hs
    obtain ⟨hu, htu⟩ := h' ht
    exact ⟨hu, hst.trans htu⟩
  · have hlower := ho.lowers hD hs h
    exact ⟨⟨(ho.respects h).once.trans hs.once, hlower.within⟩, hlower⟩

/-- Iterations after the first make cells more precise as long as there is work. -/
theorem repeat_ends (hD : reg.typeDepth "Scalar" ≤ D) (hs : Settled reg D (places theories world) s) :
    Ends (repeatWhile (·.work) (iteration theories world reg classOf)) s := by
  refine repeatWhile_ends (I := Settled reg D (places theories world))
    (μ := fun s => ∑ q ∈ places theories world, (s.cells q).rank reg D) (fun s s' hs h => ?_) hs
  obtain ⟨t, ht, rfl⟩ := iteration_ok h
  have hstart : Settled reg D (places theories world) { s with work := false } := ⟨hs.once, hs.within⟩
  obtain ⟨hsettled, hlower⟩ := allRules_lowers hD hstart ht
  refine ⟨⟨rfl, hsettled.within⟩, fun hw => ?_⟩
  rcases hlower.work hw with hw | ⟨q, hq, hlt⟩
  · cases hw
  · exact Finset.sum_lt_sum hlower.rank ⟨q, hq, hlt⟩

/-- From any state the iterations end: the types that there are after the first bound the others. -/
theorem iterations_end (s : Typer) :
    Ends (repeatWhile (·.work) (iteration theories world reg classOf)) s := by
  cases hw : s.work with
  | false => exact .of_done hw
  | true =>
    rcases hrun : (iteration theories world reg classOf).run s with ⟨_ | ⟨⟨⟩⟩, s'⟩
    · exact .of_error hw hrun
    refine .of_round hw hrun ?_
    obtain ⟨t, -, rfl⟩ := iteration_ok hrun
    let depth (q : CellPlace) : ℕ := ((t.cells q).type.join.map reg.typeDepth).getD 0
    refine repeat_ends (D := max (reg.typeDepth "Scalar") ((places theories world).sup depth))
      (le_max_left ..) ⟨rfl, fun q hq typ htyp => ?_⟩
    have hdepth : depth q = reg.typeDepth typ := by
      have htyp : (t.cells q).type = some (some typ) := htyp
      simp [depth, htyp]
    exact hdepth ▸ (Finset.le_sup hq).trans (le_max_right ..)

/-! ## All types -/

/-- Facts are in tables of their own policies. -/
theorem typeFacts_unchanged {theory : Z3Policy V} (hth : theory ∈ theories) (hs : Unchanged theories world s)
    (h : (typeFacts theories world classOf theory).run s = (.ok (), s')) : Unchanged theories world s' := by
  let R (s s' : Typer) : Prop := Unchanged theories world s → Unchanged theories world s'
  have hrefl : ∀ s, R s s := fun _ h => h
  have htrans : ∀ s t u, R s t → R t u → R s u := fun _ _ _ h h' hs => h' (h hs)
  refine forEach_rel hrefl htrans (fun tables _ s s' h => ?_) h hs
  obtain ⟨row, hrow, h⟩ := run_lift_bind_ok.1 h
  refine forEach_rel hrefl htrans (fun fact _ s s' h => ?_) h
  refine forEach_rel hrefl htrans (fun arg harg s s' h hs q cell hq => ?_) h
  obtain ⟨place, hplace, htyped⟩ := typeConstant_ok h
  have hne : q ≠ place := by
    rintro rfl
    rcases columns_ok hrow arg.2 (List.of_mem_zip (show (arg.1, arg.2) ∈ _ from harg)).2 with
      ⟨htext, -⟩ | ⟨pos, hcol, -⟩
    · rw [hplace] at htext
      cases htext
    · rw [hplace] at hcol
      cases hcol
      exact hq.not_mem (List.mem_map_of_mem hth)
  rw [htyped.others q hne]
  exact hs q cell hq

theorem typeAll_ends (reg : TypesRegistry T) (classOf : V → ValueClass) (s : Typer) :
    Ends (fun n => typeAll theories world reg classOf n) s := by
  unfold typeAll
  cases henv : resetTypeEnvironment theories with
  | error e => exact .bind_error rfl
  | ok =>
    refine .bind rfl ?_
    rcases hfacts : (forEach (typeFacts theories world classOf) theories).run s with ⟨_ | ⟨⟨⟩⟩, s'⟩
    · exact .bind_error hfacts
    · exact .bind hfacts (.bind rfl (iterations_end _))

/-- What a run of `type_all` does: the facts, then iterations with a first and a last one. -/
theorem typeAll_ok {n : ℕ} (h : (typeAll theories world reg classOf n).run s = (.ok true, s')) :
    ∃ t, (forEach (typeFacts theories world classOf) theories).run s = (.ok (), t)
      ∧ (repeatWhile (·.work) (iteration theories world reg classOf) n).run
        { t with work := true, once := true } = (.ok true, s') := by
  unfold typeAll at h
  obtain ⟨⟨⟩, -, h⟩ := run_lift_bind_ok.1 h
  obtain ⟨⟨⟩, t, ht, h⟩ := run_bind_ok.1 h
  exact ⟨t, ht, h⟩

theorem facts_unchanged
    (h : (forEach (typeFacts theories world classOf) theories).run (reset theories world) = (.ok (), s)) :
    Unchanged theories world s :=
  forEach_rel (R := fun s s' => Unchanged theories world s → Unchanged theories world s') (fun _ h => h)
    (fun _ _ _ h h' hs => h' (h hs)) (fun _ hth _ _ h hs => typeFacts_unchanged hth hs h) h unchanged_reset

/-- What no iteration changes, the loop does not change. -/
theorem iteration_rel {R : Typer → Typer → Prop} (hrefl : ∀ s, R s s)
    (htrans : ∀ s t u, R s t → R t u → R s u) (hflags : ∀ s work once, R s { s with work := work, once := once })
    (hstep : ∀ rule atom strict a, Occurs theories world rule atom strict a → ∀ s s',
      (typeArgument theories reg classOf rule atom strict a).run s = (.ok (), s') → R s s')
    (h : (iteration theories world reg classOf).run s = (.ok (), s')) : R s s' := by
  obtain ⟨t, ht, rfl⟩ := iteration_ok h
  have hrules := allRules_rel hrefl htrans hstep ht
  exact htrans _ _ _ (hflags s false s.once) (htrans _ _ _ hrules (hflags t t.work false))

theorem typeAll_sound {n : ℕ}
    (h : (typeAll theories world reg classOf n).run (reset theories world) = (.ok true, s')) :
    Sound theories world s' := by
  obtain ⟨t, -, h⟩ := typeAll_ok h
  obtain ⟨hwork, -, u, -, hlast⟩ := repeatWhile_ok (R := fun _ _ => True) (fun _ => trivial)
    (fun _ _ _ _ _ => trivial) (fun _ _ _ => trivial) rfl h
  obtain ⟨v, hv, rfl⟩ := iteration_ok hlast
  obtain ⟨rfl, hsound⟩ := allRules_quiet hv hwork
  exact hsound

theorem typeAll_unchanged {n : ℕ} (hgiven : TypesGiven theories world)
    (hfit : ConstantsFit theories world classOf)
    (h : (typeAll theories world reg classOf n).run (reset theories world) = (.ok true, s')) :
    Unchanged theories world s' := by
  obtain ⟨t, ht, h⟩ := typeAll_ok h
  let R (s s' : Typer) : Prop := Unchanged theories world s → Unchanged theories world s'
  have hrefl : ∀ s, R s s := fun _ h => h
  have htrans : ∀ s t u, R s t → R t u → R s u := fun _ _ _ h h' hs => h' (h hs)
  have hround : ∀ s s', (iteration theories world reg classOf).run s = (.ok (), s') → R s s' := fun s s' h =>
    iteration_rel hrefl htrans (fun _ _ _ h => h)
      (fun _ _ _ _ ho _ _ h hs => ho.unchanged hgiven hfit hs h) h
  obtain ⟨-, ⟨u, hfirst, hrest⟩, -⟩ := repeatWhile_ok hrefl htrans hround rfl h
  have hfacts : Unchanged theories world t := facts_unchanged ht
  exact hrest (hround _ _ hfirst hfacts)

/-- What the columns of other policies became admits their constants. -/
theorem typeAll_admits {n : ℕ}
    (h : (typeAll theories world reg classOf n).run (reset theories world) = (.ok true, s')) {v : V}
    (ho : Occurs theories world rule atom strict (.object v, .cell place))
    (hcell : Given theories world place cell) :
    (s'.cells place).Admits (classOf v).type := by
  obtain ⟨t, -, h⟩ := typeAll_ok h
  let R (s s' : Typer) : Prop := ∀ place cell, Given theories world place cell →
    (s.cells place).Looser (s'.cells place)
  have hrefl : ∀ s, R s s := fun _ _ _ _ => .refl _
  have htrans : ∀ s t u, R s t → R t u → R s u := fun _ _ _ h h' place cell hp =>
    (h place cell hp).trans (h' place cell hp)
  obtain ⟨-, ⟨u, hfirst, hrest⟩, -⟩ := repeatWhile_ok hrefl htrans (fun s s' h =>
    iteration_rel hrefl htrans (fun _ _ _ _ _ _ => .refl _)
      (fun _ _ _ _ ho _ _ h => (ho.respects h).looser) h) rfl h
  obtain ⟨w, hw, rfl⟩ := iteration_ok hfirst
  have honce : w.once = true := (allRules_rel (R := Respects theories world) Respects.refl
    (fun _ _ _ => Respects.trans) (fun _ _ _ _ ho _ _ h => ho.respects h) hw).once
  obtain ⟨theory, hth, hrule, pos, schema, hatom, hschema, ha⟩ := ho
  have hadmits : (w.cells place).Admits (classOf v).type :=
    allRules_admits hw theory hth rule hrule _ hatom strict schema hschema _ ha honce v place rfl
      ⟨cell, hcell⟩
  exact hadmits.looser (hrest place cell hcell)

end Policies

/-- Typing ends. Where it returns and the columns of other policies have types, it is sound and leaves these
columns as they are if and only if their constants fit them. -/
theorem typeAll_exact (reg : TypesRegistry T) (classOf : V → ValueClass) (theories : List (Z3Policy V))
    (world : World) (hgiven : TypesGiven theories world) :
    Ends (fun n => typeAll theories world reg classOf n) (reset theories world) ∧ ∀ n s',
      (typeAll theories world reg classOf n).run (reset theories world) = (.ok true, s') →
        ((Sound theories world s' ∧ Unchanged theories world s') ↔ ConstantsFit theories world classOf) := by
  refine ⟨typeAll_ends reg classOf _, fun n s' h => ⟨?_, fun hfit => ?_⟩⟩
  · rintro ⟨-, hsame⟩ rule atom strict v place cell ho hcell
    exact hsame place cell hcell ▸ typeAll_admits h ho hcell
  · exact ⟨typeAll_sound h, typeAll_unchanged hgiven hfit h⟩

/-! ## A service -/

/-- Types of values, all below `Scalar`. -/
def scalarTypes : TypesRegistry String where
  bases c := if c = "Scalar" then [] else ["Scalar"]
  depth c := if c = "Scalar" then 0 else 1
  depth_lt c p hp := by
    split_ifs at hp with hc
    · cases hp
    · rw [List.mem_singleton.1 hp, if_neg hc, if_pos rfl]
      exact Nat.one_pos
  class? name := if name ∈ ["Scalar", "Str", "Int", "Bool", "Float"] then some name else none
  name_unique name name' c h h' := by
    split_ifs at h h'
    cases h
    cases h'
    rfl

/-- A table of servers, with their names and sizes. -/
def servers : World := fun svc =>
  if svc = "nova" then some fun table =>
    if table = "servers" then some [.dict ⟨some (some "Str"), none⟩, .dict ⟨some (some "Int"), some false⟩]
    else none
  else if svc = "z3" then some fun table => if table = "p" then some [.name] else none
  else none

/-- `p(x) :- nova:servers(x, c)`. -/
def serverPolicy (c : V) : List (Z3Policy V) :=
  [⟨"z3", [], [⟨"rule", ⟨⟨none, "p", none⟩, [.variable "x"], false, []⟩,
    [⟨⟨some "nova", "servers", none⟩, [.variable "x", .object c], false, []⟩]⟩]⟩]

theorem given_servers {c : ValueClass} {place : CellPlace} {cell : Cell}
    (h : Given (serverPolicy c) servers place cell) : cell.type ≠ some none := by
  cases h with
  | @intro svc table map row pos cell hsvc hmap hrow hcell =>
    unfold servers at hmap
    split_ifs at hmap
    · cases hmap
      dsimp only at hrow
      split_ifs at hrow
      cases hrow
      have hmem := List.mem_of_getElem? hcell
      simp only [List.mem_cons, Column.dict.injEq, List.not_mem_nil, or_false] at hmem
      rcases hmem with rfl | rfl <;> simp
    · rename_i hz3
      exact absurd (List.mem_singleton.2 hz3) hsvc

/-- Where servers of size 2 are asked for, the type of sizes stays. -/
theorem typeAll_exact_servers : Ends (fun n => typeAll (serverPolicy ValueClass.int) servers scalarTypes id n)
    (reset (serverPolicy ValueClass.int) servers) ∧ ∀ n s',
      (typeAll (serverPolicy ValueClass.int) servers scalarTypes id n).run
        (reset (serverPolicy ValueClass.int) servers) = (.ok true, s') →
      ((Sound (serverPolicy ValueClass.int) servers s' ∧ Unchanged (serverPolicy ValueClass.int) servers s')
        ↔ ConstantsFit (serverPolicy ValueClass.int) servers id) :=
  typeAll_exact scalarTypes id (serverPolicy ValueClass.int) servers fun _ _ h => given_servers h

/-- Where servers whose size is a text are asked for, sizes become `Scalar`. -/
theorem not_typeAll_exact : ¬ ∀ (reg : TypesRegistry String) (classOf : ValueClass → ValueClass)
    (theories : List (Z3Policy ValueClass)) (world : World), TypesGiven theories world →
    Ends (fun n => typeAll theories world reg classOf n) (reset theories world) ∧ ∀ n s',
      (typeAll theories world reg classOf n).run (reset theories world) = (.ok true, s') →
        Sound theories world s' ∧ Unchanged theories world s' := by
  intro h
  obtain ⟨r, hr⟩ : ∃ r, r = (typeAll (serverPolicy ValueClass.string) servers scalarTypes id 3).run
    (reset (serverPolicy ValueClass.string) servers) := ⟨_, rfl⟩
  have hrun : r.1 = .ok true := by
    rw [hr]
    decide +kernel
  have hcell : (r.2.cells (.column "nova" "servers" 1)).type = some (some "Scalar") := by
    rw [hr]
    decide +kernel
  obtain ⟨-, hspec⟩ := h scalarTypes id (serverPolicy ValueClass.string) servers fun _ _ h => given_servers h
  obtain ⟨-, hsame⟩ := hspec 3 r.2 (by rw [← hr, ← hrun])
  rw [hsame (.column "nova" "servers" 1) ⟨some (some "Int"), some false⟩
    (.intro (by decide) rfl rfl rfl)] at hcell
  exact absurd hcell (by decide)

end Typer

end Congress
