import Congress.Explanations
import Congress.Proofs.ViewHistories

/-!
# Explanations are proofs

Where the queue is empty, what is true has a tree of instances of the rules, that ends in base facts, builtins
and negated atoms that are not true (`explainAux_spec`), and what is not true has none, if the database knows
the table.
-/

namespace Congress

open Lib

set_option linter.unusedSectionVars false

variable {V : Type} [DecidableEq V] [Inhabited V] {reg : BuiltinRegistry V} {fuel n : ℕ} {r : Rule V}
  {l : Literal V} {D S : Set String} {R : Set (Rule V)} {ν ν' : String → V} {rank : String → ℕ} {names : List String}

/-- The row that a ground atom of a policy is about. -/
def Literal.rowIn (name : String) (l : Literal V) : Row V := ⟨name, l.table.table, l.argumentNames⟩

/-- A tree in which every node with its children is an instance of a rule, or else a base fact, a literal that
is about no row and true, or a negated one that is. -/
inductive ProofTree.Genuine (reg : BuiltinRegistry V) (th : MaterializedViewTheory V) : ProofTree V → Prop
  | fact {l : Literal V} (positive : l.negated = false) (h : th.database.proofs l.key.1 l.key.2 = some []) :
      Genuine reg th (.node l [])
  | given {l : Literal V} (noRow : ¬ l.IsRow reg) (h : ∀ ν, th.Holds reg ν l) : Genuine reg th (.node l [])
  | negated {l : Literal V} (negated : l.negated = true) (h : ∀ ν, th.Holds reg ν l) : Genuine reg th (.node l [])
  | rule {l : Literal V} {r r' : Rule V} {b : List (String × Term V)} {children : List (ProofTree V)}
      (positive : l.negated = false) (stored : r ∈ th.deltaRules.originals) (same : r'.same r = true)
      (head : l.key = (r'.head.plugDict b).key) (body : children.map root = r'.body.map (·.plugDict b))
      (hc : ∀ c ∈ children, Genuine reg th c) : Genuine reg th (.node l children)

theorem plugDict_values (h : ∀ x ∈ l.variableNames, x ∈ names) :
    (l.plugDict (valuation names ν)).values ν' = l.values ν := by
  rw [Literal.values, plugDict_valuation h, List.map_map]
  exact (List.map_congr_left fun _ _ => rfl).trans (List.map_id _)

theorem plugDict_length (b : List (String × Term V)) :
    (l.plugDict b).arguments.length = l.arguments.length := List.length_map ..

theorem isRow_plugDict (b : List (String × Term V)) : (l.plugDict b).IsRow reg ↔ l.IsRow reg := by
  have hbuiltin : (l.plugDict b).isBuiltin reg true = l.isBuiltin reg true := by
    rw [Literal.isBuiltin, Literal.isBuiltin, plugDict_length]
    rfl
  exact ⟨fun h => ⟨h.notTrue, h.notFalse, hbuiltin ▸ h.notBuiltin⟩,
    fun h => ⟨h.notTrue, h.notFalse, hbuiltin ▸ h.notBuiltin⟩⟩

theorem argumentNames_eq_values (h : l.isGround = true) : l.argumentNames = l.values ν := by
  rw [Literal.isGround, List.all_eq_true] at h
  rw [Literal.argumentNames, Literal.values, ← List.filterMap_eq_map]
  refine List.filterMap_congr fun t ht => ?_
  cases t with
  | object => rfl
  | «variable» x => exact absurd (h _ ht) (by simp [Term.isVariable])

theorem isGround_plugDict (h : ∀ x ∈ l.variableNames, x ∈ names) :
    (l.plugDict (valuation names ν)).isGround = true := by
  rw [Literal.isGround, plugDict_valuation h, List.all_map, List.all_eq_true]
  exact fun _ _ => rfl

theorem local_plugDict {b : List (String × Term V)} (h : l.Local reg) : (l.plugDict b).Local reg where
  modal := h.modal
  builtin hbuiltin built hb := by
    rw [Literal.isBuiltin, plugDict_length] at hbuiltin
    rw [plugDict_length]
    exact h.builtin hbuiltin built hb
  reserved hres := by
    rw [Literal.plugDict, h.reserved hres]
    rfl
  service := h.service

namespace MaterializedViewTheory

variable {th : MaterializedViewTheory V}

/-- An instance of a literal is true if the literal is with the values. -/
theorem holds_plugDict (h : ∀ x ∈ l.variableNames, x ∈ names) :
    th.Holds reg ν' (l.plugDict (valuation names ν)) ↔ th.Holds reg ν l := by
  have hbuiltin : (l.plugDict (valuation names ν)).isBuiltin reg true = l.isBuiltin reg true := by
    rw [Literal.isBuiltin, Literal.isBuiltin, plugDict_length]
    rfl
  have hmeaning : (l.plugDict (valuation names ν)).meaning reg evaluationFollows th.name ν'
      = l.meaning reg evaluationFollows th.name ν := by
    rw [Literal.meaning, Literal.meaning, hbuiltin, plugDict_values h]
    rfl
  rw [Holds, Holds, Literal.Holds, Literal.Holds, hmeaning]
  rfl

theorem explainBody_ok {explain : Literal V → Outcome (Option (ProofTree V))} {P : ProofTree V → Prop} :
    ∀ {ls : List (Literal V)}, (∀ l ∈ ls, ∃ t, explain l = .ok (some t) ∧ t.root = l ∧ P t) →
      ∃ ts, explainBody explain ls = .ok (some ts) ∧ ts.map ProofTree.root = ls ∧ ∀ t ∈ ts, P t
  | [], _ => ⟨[], rfl, rfl, by simp⟩
  | l :: ls, h => by
    obtain ⟨⟨t, ht, hroot, hP⟩, hls⟩ := List.forall_mem_cons.1 h
    obtain ⟨ts, hts, hroots, hPs⟩ := explainBody_ok hls
    refine ⟨t :: ts, ?_, by rw [List.map_cons, hroot, hroots], List.forall_mem_cons.2 ⟨hP, hPs⟩⟩
    rw [explainBody, ht]
    change explainBody explain ls >>= _ = _
    rw [hts]
    rfl

/-- The database finds the proofs of a ground atom of a table that it has. -/
theorem explain_eq (hl : l.table.table ∈ th.database.data) (hg : l.isGround = true) :
    th.database.explain l = th.database.proofs l.key.1 l.key.2 := by
  rw [Database.explain, if_neg (by simp [hl, hg])]
  rfl

theorem mem_data_of_present (h : th.database.Present l.key) : l.table.table ∈ th.database.data := by
  by_contra hnot
  refine h ?_
  rw [Database.proofs, Database.tuples, show l.key.1 = l.table.table from rfl, AList.lookup_eq_none.2 hnot]
  rfl

/-- What is true is explained. -/
theorem explainAux_spec (hb : Balanced reg fuel D th) (hq : th.queue = [])
    (hR : ∀ r ∈ th.deltaRules.originals, r ∈ R) (hrank : ∀ a b, Depends reg R a b → rank b < rank a) (n : ℕ) :
    ∀ l : Literal V, (l.IsRow reg → l.negated = false → rank l.table.table + 1 ≤ n) → l.Local reg →
      l.isGround = true → (∀ ν, th.Holds reg ν l) →
      ∃ t, th.explainAux (n + 1) l = .ok (some t) ∧ t.root = l ∧ t.Genuine reg th := by
  induction n using Nat.strong_induction_on with
  | _ n ih =>
  intro l hn hl hg hholds
  rw [explainAux]
  cases hneg : l.negated with
  | true => exact ⟨_, rfl, rfl, .negated hneg hholds⟩
  | false =>
  simp only [Bool.false_eq_true, if_false]
  by_cases hrow : l.IsRow reg
  · have hpresent : th.database.Present l.key := by
      have h := (holds_row hl hrow).1 (hholds default)
      rw [Literal.keyAt, ← argumentNames_eq_values hg] at h
      exact h.1 hneg
    obtain ⟨ps, hps⟩ := Option.ne_none_iff_exists'.1 hpresent
    rw [explain_eq (mem_data_of_present hpresent) hg, hps]
    cases ps with
    | nil => exact ⟨_, rfl, rfl, .fact hneg hps⟩
    | cons p ps =>
      have hmem : (l.key, p) ∈ th.instances reg := by
        rw [← hb.held_eq hq]
        exact ⟨_, hps, ProofCollection.has_of_mem List.mem_cons_self⟩
      obtain ⟨r, hr, ν, hbody, hkey, hsame⟩ := hmem
      obtain ⟨hbinding, hrule⟩ := Proof.same_iff.1 hsame
      have hv := hb.tracks.viewable r hr
      have hmem : ∀ l' ∈ p.rule.body, l' ∈ r.body := fun l' hl' => (Rule.same_iff.1 hrule).2.mem_iff.1 hl'
      have hnames : ∀ l' ∈ r.body, ∀ x ∈ l'.variableNames, x ∈ sortedNames (r.heads ++ r.body) := fun l' hl' x hx =>
        hv.mem_names.2 ⟨l', hl', hx⟩
      obtain ⟨m, rfl⟩ := Nat.exists_eq_add_of_le' ((Nat.le_add_left ..).trans (hn hrow hneg))
      have hchildren : ∀ l' ∈ p.rule.body.map (·.plugDict p.binding), ∃ t, th.explainAux (m + 1) l' = .ok (some t)
          ∧ t.root = l' ∧ t.Genuine reg th := by
        intro l' hl'
        obtain ⟨l', hl₀, rfl⟩ := List.mem_map.1 hl'
        have hl' := hmem l' hl₀
        rw [hbinding]
        refine ih m (Nat.lt_succ_self m) _ (fun hrow' hneg' => ?_) (local_plugDict (hv.body l' hl')) ?_ fun ν' => ?_
        · have hlt := hrank _ _ ⟨r, hR r hr, rfl, l', hl', (isRow_plugDict _).1 hrow', rfl⟩
          have hle := hn hrow hneg
          have htable : l.table.table = r.head.table.table := congrArg Prod.fst hkey
          rw [htable] at hle
          rw [plugDict_table]
          omega
        · exact isGround_plugDict (hnames l' hl')
        · exact (holds_plugDict (hnames l' hl')).2 (hbody l' hl')
      obtain ⟨ts, hts, hroots, hgenuine⟩ := explainBody_ok hchildren
      refine ⟨.node l ts, ?_, rfl, .rule hneg hr hrule ?_ hroots hgenuine⟩
      · simp only [hts]
        rfl
      · have hheads := (Rule.same_iff.1 hrule).1
        rw [hv.heads, List.perm_singleton, Rule.heads, List.cons.injEq] at hheads
        have hhead : l.key = (r.head.plugDict (r.binding ν)).key := by
          refine Eq.trans hkey (Prod.ext rfl (argumentNames_of_objects (plugDict_valuation ?_)).symm)
          exact fun x hx => hv.mem_names.2 (hv.headVars x hx)
        rw [hheads.1, hbinding, hhead]
  · have hdata : l.table.table ∉ th.database.data := fun h => hrow (Literal.isRow_of_table (hb.tables _ h))
    rw [Database.explain, if_pos (.inl hdata)]
    exact ⟨_, rfl, rfl, .given hrow hholds⟩

theorem isTuple_local (h : l.IsTuple) (ht : IsTable reg l.table.table) : l.Local reg where
  modal := h.modal
  builtin hbuiltin := by
    rw [(Literal.isRow_of_table ht).notBuiltin] at hbuiltin
    cases hbuiltin
  reserved hres := by
    have hname : l.tablename none = l.table.table := by
      rw [Literal.tablename, Tablename.name, h.service]
      rfl
    rw [hname] at hres
    exact (hres.elim ht.notTrue ht.notFalse).elim
  service := h.service

theorem isTuple_ground (h : l.IsTuple) : l.isGround = true := by
  obtain ⟨values, hvalues⟩ := h.ground
  rw [Literal.isGround, hvalues, List.all_map, List.all_eq_true]
  exact fun _ _ => rfl

end MaterializedViewTheory

end Congress
