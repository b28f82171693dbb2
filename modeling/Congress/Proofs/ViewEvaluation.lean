import Congress.Materialized
import Congress.Proofs.Databases
import Congress.Proofs.EvalOk

/-!
# Evaluation over a database

A database is exact for its own rows (`Database.setting`), so a theory whose tables are those of a
database finds all valuations that make a safe body true (`evaluation_spec`).
-/

namespace Congress

open Lib Bindings TopDown

set_option linter.unusedSectionVars false

variable {V : Type} [DecidableEq V] [Inhabited V] {reg : BuiltinRegistry V} {theories : Theories V}
  {db : Database V} {name : String} {X : List String} {h : Bindings V} {n fuel : ℕ}
  {names : List String} {body : List (Literal V)} {l : Literal V}

/-- A literal about the policy it is in. -/
structure Literal.Local (reg : BuiltinRegistry V) (l : Literal V) : Prop extends l.Proper reg where
  service : l.table.service = none

/-- The rows of a policy with this database. -/
def Database.rows (db : Database V) (name : String) : Set (Row V) :=
  {a | a.policy = name ∧ db.Present (a.table, a.values)}

theorem Database.present_iff {table : String} {values : List V} :
    db.Present (table, values) ↔ ∃ t ∈ db.tuples table, t.tuple = values := by
  simp [Present, proofs]

theorem movesTo_local (hl : l.Local reg) (th : TopDownTheory V) : movesTo th l = none := by
  rw [movesTo, hl.service]

/-- The theory of a database, with the literals about it. -/
def Database.scope (reg : BuiltinRegistry V) (db : Database V) (name : String) : Scope V :=
  fun th l => th = db.toTopDown name ∧ l.Local reg

theorem Database.index_spec (hl : l.Local reg) (hlook : LooksUp reg (db.toTopDown name) l)
    (ρ : String → V) : l.Holds reg evaluationFollows (db.rows name) name ρ
      ↔ GivenBy reg (db.rows name) name ((((db.tuples l.table.table).map fun t =>
        Clause.tuple t.tuple)).map (·.asRule l.table.table)) l (l.values ρ) := by
  have hres : l.table.resolve evaluationFollows name = some (name, l.table.table) := by
    rw [Tablename.resolve, hl.service]
  rw [holds_iff_row hlook.positive hlook.notTrue hlook.notFalse hlook.notBuiltin]
  simp only [hres, Option.some.injEq, Prod.mk.injEq, rows, Set.mem_ofPred_eq, GivenBy, List.map_map,
    List.mem_map, sameSchema_iff, Rule.Gives]
  constructor
  · rintro ⟨_, _, ⟨rfl, rfl⟩, -, hp⟩
    obtain ⟨t, ht, hv⟩ := present_iff.1 hp
    refine ⟨_, ⟨t, ht, rfl⟩, ⟨⟨rfl, hl.modal.symm, by rw [hl.service]; rfl⟩, ?_⟩, fun _ => default, ?_,
      by simp [Clause.asRule, factRule]⟩
    · simp [Clause.asRule, factRule, hv, Literal.values]
    · simp [Clause.asRule, factRule, hv, Literal.values, Function.comp_def, Term.value]
  · rintro ⟨_, ⟨t, ht, rfl⟩, -, ν, hν, -⟩
    refine ⟨_, _, ⟨rfl, rfl⟩, rfl, present_iff.2 ⟨t, ht, ?_⟩⟩
    rw [← hν]
    simp [Clause.asRule, factRule, Literal.values, Function.comp_def, Term.value]

theorem Database.setting (theories : Theories V) (db : Database V) (name : String) :
    Setting reg theories (db.scope reg name) (db.rows name) fun _ => 1 where
  pos _ := Nat.one_pos
  proper _ _ hl := hl.2.toProper
  complement _ _ hl := ⟨hl.1, ⟨hl.2.modal, hl.2.builtin, hl.2.reserved⟩, hl.2.service⟩
  includes th _ hl := by
    rw [hl.1]
    rfl
  moves th l q hl hmove := by simp [movesTo_local hl.2] at hmove
  index := by
    rintro _ l ⟨rfl, hl⟩ hlook h u -
    refine ⟨_, rfl, fun _ _ => ⟨hl.modal, by rw [hl.service]; rfl⟩, fun r hr _ => ?_,
      fun ρ _ => index_spec hl hlook _⟩
    simp only [List.map_map, List.mem_map] at hr
    obtain ⟨t, -, rfl⟩ := hr
    refine ⟨⟨?_, trivial, by simp [Clause.asRule, factRule], le_rfl⟩, ?_⟩
    · simp [Clause.asRule, factRule, Literal.variableNames, Term.names]
    · rw [tablename_eq_node, hl.service]
      rfl

/-- Fuel for literals that are looked up in a database. -/
theorem litCost_le (th : TopDownTheory V) : ∀ {body : List (Literal V)}, (∀ l ∈ body, l.Local reg) →
    (body.map (litCost (fun _ => 1) th)).sum ≤ 3 * body.length
  | [], _ => le_rfl
  | l :: ls, hl => by
    obtain ⟨hl, hls⟩ := List.forall_mem_cons.1 hl
    have ih := litCost_le th hls
    have hneg := Bool.toNat_le l.negated
    rw [List.map_cons, List.sum_cons, List.length_cons, litCost, movesTo_local hl]
    simp only [Option.isSome_none, Bool.toNat_false]
    omega

/-- Evaluation finds the valuations that the unifiers allow and that make the body true. -/
theorem evaluation_spec {setOrder : List (TopDownResult V) → List (TopDownResult V)}
    (horder : ∀ rs, (setOrder rs).Perm rs) (hready : Search.Ready X ⟨h, n, [], []⟩)
    (hlocal : ∀ l ∈ body, l.Local reg) (hsafe : SafeInOrder reg (fun x => Det h ∅ (0, x)) body)
    (hX : ∀ l ∈ body, ∀ x ∈ l.variableNames, x ∈ X)
    (hnames : ∀ x ∈ names, Det h (keys 0 body) (0, x)) (hfuel : 3 * body.length ≤ fuel) :
    ∃ bindings, MaterializedViewTheory.evaluation reg theories setOrder fuel (db.toTopDown name)
        names body h n = .ok bindings
      ∧ ∀ b, b ∈ bindings ↔ ∃ ρ, Models ρ h
        ∧ (∀ l ∈ body, l.Holds reg evaluationFollows (db.rows name) name fun x => ρ (0, x))
        ∧ b = names.map fun x => (x, .object (ρ (0, x))) := by
  have hp : Prepared reg (db.scope reg name) X (keys 0 body) ([] : List (Frame V)) ⟨h, n, [], []⟩ :=
    ⟨by simp, hready, trivial⟩
  obtain ⟨done, s', new, ho, -, -, -, hres, hfound⟩ :
      Evaluates (⟨names, 0, true, none⟩ : Caller V) X _ _ _ _ :=
    body_spec (evalOk (db.setting theories name) fuel) rfl rfl (fun l hl => ⟨rfl, hlocal l hl⟩) hsafe
      hready.pos (fun l hl x hx _ => hX l hl x hx) hp
      (by simpa [pendingCost] using (litCost_le _ hlocal).trans hfuel)
  have hnames' : ∀ x ∈ names, Det h (keys 0 body ∪ pendingKeys ([] : List (Frame V))) (0, x) :=
    fun x hx => (hnames x hx).mono List.suffix_rfl fun k hk => .of_mem (.inl hk)
  have hbinding : ∀ r ∈ new, ∀ ρ : ℕ × String → V, r.Agrees ρ →
      r.binding = names.map fun x => (x, .object (ρ (0, x))) := by
    intro r hr ρ hagrees
    have hfits := (hfound.sound r hr).1
    have hkeys : r.binding.map Prod.fst = names := hfits.names
    have hmap : r.binding = r.binding.map fun e => (e.1, Term.object (ρ (0, e.1))) := by
      conv_lhs => rw [← List.map_id r.binding]
      refine List.map_congr_left fun e he => ?_
      have hx : e.1 ∈ names := hkeys ▸ List.mem_map_of_mem he
      obtain ⟨c, hc⟩ := hfits.ground e he (hnames' e.1 hx)
      have := hagrees e.1 c (hc ▸ he)
      rw [this]
      exact Prod.ext rfl hc
    rw [hmap, ← hkeys, List.map_map]
    rfl
  refine ⟨_, by rw [MaterializedViewTheory.evaluation, ho]; rfl, fun b => ?_⟩
  rw [hres, List.nil_append, List.mem_map]
  constructor
  · rintro ⟨r, hr, rfl⟩
    have hr := (horder new).mem_iff.1 hr
    obtain ⟨-, ρ, hm, hgoal, hagrees⟩ := hfound.sound r hr
    exact ⟨ρ, hm, hgoal.1, hbinding r hr ρ hagrees⟩
  · rintro ⟨ρ, hm, hgoal, rfl⟩
    obtain ⟨r, hr, hagrees⟩ := hfound.complete (.inl rfl) ρ hm ⟨hgoal, by simp [Pending]⟩
    exact ⟨r, (horder new).mem_iff.2 hr, hbinding r hr ρ hagrees⟩

end Congress
