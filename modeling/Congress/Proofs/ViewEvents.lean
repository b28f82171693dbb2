import Congress.Proofs.Select
import Congress.Proofs.ViewRules

/-!
# The events that rules of views bring about

The events for new bindings of a rule are one for each tuple, with all the proofs found of it
(`Generates`). An event that matches the trigger of a delta rule brings about those for the instances of
the rule whose other literals are true (`propagateRule_spec`), and an event for a rule those for all
instances with a true body (`ruleEvents_spec`).
-/

namespace Congress

open Lib Bindings MaterializedViewTheory

set_option linter.unusedSectionVars false

variable {V : Type} [DecidableEq V] {reg : BuiltinRegistry V} {fuel : ℕ} {r rule : Rule V}
  {d : DeltaRule V} {head atom l : Literal V} {table : String} {names : List String} {ν ν' : String → V}
  {insert : Bool} {B : List (List (String × Term V))} {b : List (String × Term V)}

/-- An atom as databases store them: ground, and of the policy itself. -/
structure Literal.IsTuple (l : Literal V) : Prop where
  positive : l.negated = false
  ground : ∃ values : List V, l.arguments = values.map .object
  service : l.table.service = none
  modal : l.table.modal = none

/-- The names of variables with their values. -/
def valuation (names : List String) (ν : String → V) : List (String × Term V) :=
  names.map fun x => (x, .object (ν x))

/-- The binding of all variables of a rule. -/
def Rule.binding (r : Rule V) (ν : String → V) : List (String × Term V) :=
  valuation (sortedNames (r.heads ++ r.body)) ν

/-- Events for tuples of a table with the proofs in `X`, one for each tuple. -/
structure Generates (events : List (ProofEvent V)) (insert : Bool) (table : String)
    (X : Set ((String × List V) × Proof V)) : Prop where
  insert : ∀ e ∈ events, e.insert = insert
  tuple : ∀ e ∈ events, ∃ l, e.formula = .atom l ∧ l.IsTuple ∧ l.table.table = table ∧ e.proofs ≠ []
  cover : ∀ x, x ∈ X ↔ ∃ e ∈ events, x ∈ e.change.on
  disjoint : events.Pairwise fun e e' => Disjoint e.change.on e'.change.on

theorem Generates.nil {X : Set ((String × List V) × Proof V)} (h : ∀ x, x ∉ X) :
    Generates [] insert table X :=
  ⟨by simp, by simp, fun x => by simp [h x], .nil⟩

theorem mem_sortedNames {ls : List (Literal V)} {x : String} :
    x ∈ sortedNames ls ↔ ∃ l ∈ ls, x ∈ l.variableNames := by
  rw [sortedNames, List.mem_insertionSort, variableNames, List.mem_dedup, List.mem_flatMap]

theorem sortedNames_congr {ls ls' : List (Literal V)}
    (h : ∀ x, (∃ l ∈ ls, x ∈ l.variableNames) ↔ ∃ l ∈ ls', x ∈ l.variableNames) :
    sortedNames ls = sortedNames ls' := by
  have hperm : (variableNames ls).Perm (variableNames ls') := by
    refine (List.perm_ext_iff_of_nodup (List.nodup_dedup _) (List.nodup_dedup _)).2 fun x => ?_
    simpa only [List.mem_dedup, List.mem_flatMap] using h x
  exact List.Perm.eq_of_pairwise (fun _ _ _ _ => le_antisymm) (List.pairwise_insertionSort _ _)
    (List.pairwise_insertionSort _ _)
    ((List.perm_insertionSort _ _).trans (hperm.trans (List.perm_insertionSort _ _).symm))

theorem valuation_congr (h : ∀ x ∈ names, ν x = ν' x) : valuation names ν = valuation names ν' :=
  List.map_congr_left fun x hx => by rw [h x hx]

theorem valuation_inj (h : valuation names ν = valuation names ν') : ∀ x ∈ names, ν x = ν' x := by
  intro x hx
  have := List.map_inj_left.1 h x hx
  simpa using this

/-- Two valuations with the same binding agree on the variables of the rule. -/
theorem Rule.binding_inj (h : r.binding ν = r.binding ν') (hl : l ∈ r.heads ++ r.body) :
    l.values ν = l.values ν' := by
  refine List.map_congr_left fun t ht => ?_
  cases t with
  | object => rfl
  | «variable» x => exact valuation_inj h x (mem_sortedNames.2 ⟨l, hl, mem_names.2 ht⟩)

/-- A literal whose variables are bound becomes a tuple. -/
theorem plugDict_valuation (h : ∀ x ∈ l.variableNames, x ∈ names) :
    (l.plugDict (valuation names ν)).arguments = (l.values ν).map .object := by
  rw [Literal.plugDict, Literal.values, List.map_map]
  refine List.map_congr_left fun t ht => ?_
  cases t with
  | object => rfl
  | «variable» x =>
    change ((names.map fun x => (x, Term.object (ν x))).lookup x).getD (.variable x) = .object (ν x)
    rw [lookup_map, if_pos (h x (mem_names.2 ht)), Option.getD_some]

theorem argumentNames_of_objects {values : List V} (h : l.arguments = values.map .object) :
    l.argumentNames = values := by
  rw [Literal.argumentNames, h]
  induction values with
  | nil => rfl
  | cons v vs ih => simp

/-! ## Collecting the proofs of each atom -/

section AddProof

variable {atoms : List (Literal V × ProofCollection V)} {p : Proof V}

theorem keys_addProof : ∀ {atoms : List (Literal V × ProofCollection V)},
    (addProof atom p atoms).map Prod.fst
      = if atom ∈ atoms.map Prod.fst then atoms.map Prod.fst else atoms.map Prod.fst ++ [atom]
  | [] => by simp [addProof]
  | (atom', ps) :: rest => by
    rw [addProof]
    by_cases ha : atom' = atom
    · simp [ha]
    · have ih := @keys_addProof rest
      simp only [if_neg ha, List.map_cons, List.mem_cons, Ne.symm ha, false_or, ih]
      split_ifs <;> rfl

theorem nodup_addProof (h : (atoms.map Prod.fst).Nodup) : ((addProof atom p atoms).map Prod.fst).Nodup := by
  rw [keys_addProof]
  split_ifs with ha
  · exact h
  · exact h.append (List.nodup_singleton _) (List.disjoint_singleton.2 ha)

/-- A proof is among those of an atom. -/
def Collected (atoms : List (Literal V × ProofCollection V)) (a : Literal V) (p : Proof V) : Prop :=
  ∃ q ∈ atoms, q.1 = a ∧ p ∈ q.2

theorem collected_addProof {a : Literal V} {p' : Proof V} : ∀ {atoms : List (Literal V × ProofCollection V)},
    Collected (addProof atom p atoms) a p' ↔ Collected atoms a p' ∨ atom = a ∧ p' = p
  | [] => by simp [Collected, addProof]
  | (atom', ps) :: rest => by
    have ih := @collected_addProof a p' rest
    simp only [Collected] at ih ⊢
    rw [addProof]
    by_cases ha : atom' = atom
    · subst ha
      simp only [if_true, List.exists_mem_cons_iff, List.mem_append, List.mem_singleton]
      rw [and_or_left, or_right_comm]
    · simp only [if_neg ha, List.exists_mem_cons_iff, ih, or_assoc]

theorem collected_of_mem (h : (atoms.map Prod.fst).Nodup) {q : Literal V × ProofCollection V} (hq : q ∈ atoms) :
    p ∈ q.2 ↔ Collected atoms q.1 p := by
  refine ⟨fun hp => ⟨q, hq, rfl, hp⟩, ?_⟩
  rintro ⟨q', hq', he, hp⟩
  rwa [← List.inj_on_of_nodup_map h hq' hq he]

end AddProof

/-- The atoms of the bindings, each once with all its proofs. -/
theorem collected_foldl (B : List (List (String × Term V))) : ∀ atoms : List (Literal V × ProofCollection V),
    (atoms.map Prod.fst).Nodup →
    ((B.foldl (fun atoms b => addProof (head.plugDict b) ⟨b, rule⟩ atoms) atoms).map Prod.fst).Nodup
      ∧ (∀ a, a ∈ (B.foldl (fun atoms b => addProof (head.plugDict b) ⟨b, rule⟩ atoms) atoms).map Prod.fst
        ↔ a ∈ atoms.map Prod.fst ∨ ∃ b ∈ B, head.plugDict b = a)
      ∧ ∀ a p, Collected (B.foldl (fun atoms b => addProof (head.plugDict b) ⟨b, rule⟩ atoms) atoms) a p
        ↔ Collected atoms a p ∨ ∃ b ∈ B, head.plugDict b = a ∧ p = ⟨b, rule⟩ := by
  induction B with
  | nil => exact fun atoms h => ⟨h, by simp, by simp⟩
  | cons b B ih =>
    intro atoms h
    obtain ⟨hnodup, hkeys, hproofs⟩ := ih (addProof (head.plugDict b) ⟨b, rule⟩ atoms) (nodup_addProof h)
    refine ⟨hnodup, fun a => ?_, fun a p => ?_⟩
    · rw [List.foldl_cons, hkeys, keys_addProof]
      simp only [List.exists_mem_cons_iff, ← or_assoc]
      refine or_congr_left ?_
      split_ifs with hmem
      · exact ⟨.inl, fun h => h.elim id fun h => h ▸ hmem⟩
      · rw [List.mem_append, List.mem_singleton, eq_comm (a := a)]
    · rw [List.foldl_cons, hproofs, collected_addProof]
      simp only [List.exists_mem_cons_iff, ← or_assoc]

theorem plugDict_table (l : Literal V) (b : List (String × Term V)) : (l.plugDict b).table = l.table := rfl

/-- The events for bindings that are valuations. -/
theorem processNewBindings_spec {P : (String → V) → Prop} (hB : ∀ b, b ∈ B ↔ ∃ ν, P ν ∧ b = valuation names ν)
    (hvars : ∀ x ∈ head.variableNames, x ∈ names) (hpos : head.negated = false)
    (hservice : head.table.service = none) (hmodal : head.table.modal = none) :
    Generates (processNewBindings B head insert rule) insert head.table.table
      {x | ∃ ν, P ν ∧ x.1 = (head.table.table, head.values ν)
        ∧ x.2.same ⟨valuation names ν, rule⟩ = true} := by
  obtain ⟨hnodup, hkeys, hproofs⟩ := @collected_foldl V _ rule head B [] (by simp)
  have hkey : ∀ ν, (head.plugDict (valuation names ν)).key = (head.table.table, head.values ν) := fun ν => by
    rw [Literal.key, argumentNames_of_objects (plugDict_valuation hvars), plugDict_table]
  have hform : ∀ e ∈ processNewBindings B head insert rule, ∃ a ps, e = ⟨.atom a, insert, ps⟩
      ∧ (∃ b ∈ B, head.plugDict b = a)
      ∧ ∀ p, p ∈ ps ↔ ∃ b ∈ B, head.plugDict b = a ∧ p = ⟨b, rule⟩ := by
    intro e he
    obtain ⟨q, hq, rfl⟩ := List.mem_map.1 he
    refine ⟨q.1, q.2, rfl, ?_, fun p => ?_⟩
    · simpa using (hkeys q.1).1 (List.mem_map_of_mem hq)
    · rw [collected_of_mem hnodup hq, hproofs]
      simp [Collected]
  have hon : ∀ {a : Literal V} {ps : ProofCollection V} {x : (String × List V) × Proof V},
      x ∈ (ProofEvent.change ⟨.atom a, insert, ps⟩).on ↔ x.1 = a.key ∧ ps.has x.2 = true := by
    simp [ProofEvent.change]
  refine ⟨fun e he => ?_, fun e he => ?_, fun x => ⟨?_, ?_⟩, ?_⟩
  · obtain ⟨a, ps, rfl, -⟩ := hform e he
    rfl
  · obtain ⟨a, ps, rfl, ⟨b, hb, rfl⟩, hps⟩ := hform e he
    obtain ⟨ν, -, rfl⟩ := (hB b).1 hb
    refine ⟨_, rfl, ⟨hpos, ⟨_, plugDict_valuation hvars⟩, hservice, hmodal⟩, rfl, fun hnil => ?_⟩
    have := (hps ⟨_, rule⟩).2 ⟨_, hb, rfl, rfl⟩
    rw [show ps = [] from hnil] at this
    cases this
  · rintro ⟨ν, hν, hx, hsame⟩
    have hb : valuation names ν ∈ B := (hB _).2 ⟨ν, hν, rfl⟩
    obtain ⟨q, hq, hq1⟩ := List.mem_map.1 ((hkeys (head.plugDict (valuation names ν))).2 (.inr ⟨_, hb, rfl⟩))
    refine ⟨_, List.mem_map_of_mem hq, hon.2 ⟨?_, ?_⟩⟩
    · rw [hq1, hkey, hx]
    · refine ProofCollection.has_iff.2 ⟨⟨valuation names ν, rule⟩, ?_, hsame⟩
      rw [collected_of_mem hnodup hq, hproofs, hq1]
      exact .inr ⟨_, hb, rfl, rfl⟩
  · rintro ⟨e, he, hx⟩
    obtain ⟨a, ps, rfl, -, hps⟩ := hform e he
    obtain ⟨hx1, hx2⟩ := hon.1 hx
    obtain ⟨p, hp, hsame⟩ := ProofCollection.has_iff.1 hx2
    obtain ⟨b, hb, rfl, rfl⟩ := (hps p).1 hp
    obtain ⟨ν, hν, rfl⟩ := (hB b).1 hb
    exact ⟨ν, hν, by rw [hx1, hkey], hsame⟩
  · have hpairs : (B.foldl (fun atoms b => addProof (head.plugDict b) ⟨b, rule⟩ atoms) []).Pairwise
        fun q q' => q.1 ≠ q'.1 := List.pairwise_map.1 hnodup
    refine List.pairwise_map.2 (hpairs.imp_of_mem fun {q q'} hq hq' hne => ?_)
    refine Set.disjoint_left.2 fun x hx hx' => hne ?_
    obtain ⟨a, ps, he, ⟨b, hb, hqb⟩, -⟩ := hform _ (List.mem_map_of_mem hq)
    obtain ⟨a', ps', he', ⟨b', hb', hqb'⟩, -⟩ := hform _ (List.mem_map_of_mem hq')
    obtain ⟨ν, -, rfl⟩ := (hB b).1 hb
    obtain ⟨ν', -, rfl⟩ := (hB b').1 hb'
    simp only [ProofEvent.mk.injEq, Formula.atom.injEq] at he he'
    have hk : q.1.key = q'.1.key := (hon.1 hx).1.symm.trans (hon.1 hx').1
    rw [he.1, he'.1, ← hqb, ← hqb', hkey, hkey, Prod.mk.injEq] at hk
    rw [he.1, he'.1, ← hqb, ← hqb']
    have hargs : (head.plugDict (valuation names ν)).arguments
        = (head.plugDict (valuation names ν')).arguments := by
      rw [plugDict_valuation hvars, plugDict_valuation hvars, hk.2]
    exact congrArg (fun args => { head with arguments := args }) hargs

/-! ## Rules and delta rules -/

/-- A literal is true in a theory's database. -/
def MaterializedViewTheory.Holds (reg : BuiltinRegistry V) (th : MaterializedViewTheory V) (ν : String → V)
    (l : Literal V) : Prop :=
  l.Holds reg evaluationFollows (th.database.rows th.name) th.name ν

/-- A tuple and a proof of it are given by an instance of a rule. -/
def Rule.Proves (r : Rule V) (ν : String → V) (x : (String × List V) × Proof V) : Prop :=
  x.1 = (r.head.table.table, r.head.values ν) ∧ x.2.same ⟨r.binding ν, r⟩ = true

section

variable [Inhabited V] {theories : Theories V} {setOrder : List (TopDownResult V) → List (TopDownResult V)}
  {th : MaterializedViewTheory V}

theorem Rule.Viewable.mem_names (hr : r.Viewable reg fuel) {x : String} :
    x ∈ sortedNames (r.heads ++ r.body) ↔ ∃ l ∈ r.body, x ∈ l.variableNames := by
  rw [mem_sortedNames, hr.heads]
  constructor
  · rintro ⟨l, hl, hx⟩
    rcases List.mem_cons.1 hl with rfl | hl
    · exact hr.headVars x hx
    · exact ⟨l, hl, hx⟩
  · rintro ⟨l, hl, hx⟩
    exact ⟨l, List.mem_cons_of_mem _ hl, hx⟩

/-- The events for a rule are about all its instances with a true body. -/
theorem ruleEvents_spec (horder : ∀ rs, (setOrder rs).Perm rs) (hr : r.Viewable reg fuel) :
    ∃ bindings, evaluation reg theories setOrder fuel th.toTopDown (sortedNames (r.heads ++ r.body)) r.body
        [] 1 = .ok bindings
      ∧ Generates (processNewBindings bindings r.head insert r) insert r.head.table.table
        {x | ∃ ν, (∀ l ∈ r.body, th.Holds reg ν l) ∧ r.Proves ν x} := by
  have hready : Search.Ready (sortedNames (r.heads ++ r.body)) (⟨[], 1, [], []⟩ : Search V) :=
    ⟨trivial, by simp [Over], Nat.one_pos⟩
  have hdet : ∀ x ∈ sortedNames (r.heads ++ r.body), Det ([] : Bindings V) (keys 0 r.body) (0, x) := fun x hx => by
    obtain ⟨l, hl, hx⟩ := hr.mem_names.1 hx
    exact .of_mem ⟨rfl, l, hl, hx⟩
  obtain ⟨bindings, hok, hmem⟩ : ∃ bindings, evaluation reg theories setOrder fuel
      (th.database.toTopDown th.name) (sortedNames (r.heads ++ r.body)) r.body [] 1 = .ok bindings ∧ _ :=
    evaluation_spec horder hready hr.body (hr.safe.mono fun _ => False.elim)
      (fun l hl x hx => hr.mem_names.2 ⟨l, hl, hx⟩) hdet hr.short
  have hB : ∀ b, b ∈ bindings ↔ ∃ ν, (∀ l ∈ r.body, th.Holds reg ν l)
      ∧ b = valuation (sortedNames (r.heads ++ r.body)) ν := fun b => ?_
  · exact ⟨bindings, hok, processNewBindings_spec hB (fun x hx => hr.mem_names.2 (hr.headVars x hx))
      hr.positive hr.service hr.modal⟩
  rw [hmem]
  constructor
  · rintro ⟨ρ, -, hbody, rfl⟩
    exact ⟨fun x => ρ (0, x), hbody, rfl⟩
  · rintro ⟨ν, hbody, rfl⟩
    exact ⟨fun k => ν k.2, by simp [Models], hbody, rfl⟩

theorem deltaRule_names (hr : r.Viewable reg fuel) (hd : d ∈ r.deltaRules reg) :
    sortedNames (d.trigger :: d.head :: d.body) = sortedNames (r.heads ++ r.body) := by
  obtain ⟨l, hl, -, rfl⟩ := (Rule.mem_deltaRules hr.nodup).1 hd
  refine sortedNames_congr fun x => exists_congr fun l' => and_congr_left fun _ => ?_
  have hbody : l' ∈ (DeltaRule.create reg l r.head (r.body.erase l) r).body ↔ l' ∈ r.body.erase l :=
    (DeltaRule.create_body_perm ..).mem_iff
  have hcons : l' ∈ r.body ↔ l' = l ∨ l' ∈ r.body.erase l :=
    (List.perm_cons_erase hl).mem_iff.trans List.mem_cons
  have hcreate : (DeltaRule.create reg l r.head (r.body.erase l) r).trigger = l
      ∧ (DeltaRule.create reg l r.head (r.body.erase l) r).head = r.head := ⟨rfl, rfl⟩
  rw [List.mem_cons, List.mem_cons, hbody, List.mem_append, hr.heads, List.mem_singleton, hcons,
    hcreate.1, hcreate.2]
  tauto

/-- What matching a trigger with a tuple makes of the unifiers. -/
theorem trigger_unified {trigger : Literal V} {h : Bindings V} {cs : List (ℕ × String)} {X : List String}
    (htuple : atom.IsTuple) (hX : ∀ x ∈ trigger.variableNames, x ∈ X)
    (hu : biUnifyLists [] trigger.arguments 0 atom.arguments 1 = (h, some cs)) :
    Search.Ready X (⟨h, 2, [], []⟩ : Search V) ∧ (∀ x ∈ trigger.variableNames, Det h ∅ (0, x))
      ∧ ∀ ρ : ℕ × String → V,
        Models ρ h ↔ trigger.values (fun x => ρ (0, x)) = atom.argumentNames := by
  obtain ⟨values, hvalues⟩ := htuple.ground
  obtain ⟨hlen, hunified, -⟩ := biUnifyLists_some (h := []) trivial hu
  have hatom : ∀ ρ : ℕ × String → V, atom.arguments.map (Term.value fun x => ρ (1, x)) = atom.argumentNames :=
    fun ρ => by
      rw [argumentNames_of_objects hvalues, hvalues, List.map_map]
      exact (List.map_congr_left fun _ _ => rfl).trans (List.map_id _)
  refine ⟨⟨hunified.trail, hunified.bounded _ (by simp [Over]) fun p hp => ?_, Nat.two_pos⟩,
    fun x hx => ?_, fun ρ => ?_⟩
  · obtain ⟨h₁, h₂⟩ := List.of_mem_zip hp
    refine ⟨over_of_names (fun x hx => ⟨Nat.two_pos, fun _ => hX x hx⟩) _ h₁, over_of_names (fun x hx => ?_) _ h₂⟩
    rw [hvalues, names_objects] at hx
    cases hx
  · obtain ⟨i, hi, hx⟩ := List.getElem_of_mem (mem_names.1 hx)
    have hi' : i < atom.arguments.length := hlen ▸ hi
    have hr := hunified.roots ((trigger.arguments[i]).within 0, (atom.arguments[i]).within 1) (by
      rw [List.mem_iff_getElem]
      exact ⟨i, by simp [hi, hi'], by simp⟩)
    have hobj : ∃ v, atom.arguments[i] = .object v := by
      obtain ⟨v, -, hv⟩ := List.mem_map.1
        ((congrArg (atom.arguments[i] ∈ ·) hvalues).mp (List.getElem_mem hi'))
      exact ⟨v, hv.symm⟩
    obtain ⟨v, hv⟩ := hobj
    rw [hx, hv] at hr
    exact .inl ⟨v, hr.trans (root_object v)⟩
  · rw [hunified.models, zip_eval_iff ρ 0 1 hlen, hatom]
    simp only [Models, List.not_mem_nil, false_imp_iff, implies_true, true_and]
    rfl

/-- An event about a tuple brings about events for the instances in which the tuple matches the trigger and
the other literals are true. -/
theorem propagateRule_spec (horder : ∀ rs, (setOrder rs).Perm rs) (hr : r.Viewable reg fuel)
    (hd : d ∈ r.deltaRules reg) (htuple : atom.IsTuple) (htable : d.trigger.table.table = atom.table.table) :
    ∃ new, propagateRule reg theories setOrder fuel th atom insert d = .ok new
      ∧ Generates new (insert != d.trigger.negated) r.head.table.table
        {x | ∃ ν, d.trigger.values ν = atom.argumentNames ∧ (∀ l ∈ d.body, th.Holds reg ν l)
          ∧ r.Proves ν x} := by
  obtain ⟨t, ht, -, he⟩ := (Rule.mem_deltaRules hr.nodup).1 hd
  have htrigger : d.trigger = t := by rw [he]; rfl
  have hhead : d.head = r.head := by rw [he]; rfl
  have horiginal : d.original = r := by rw [he]; rfl
  have hbody : d.body.Perm (r.body.erase t) := by rw [he]; exact DeltaRule.create_body_perm ..
  have hlocal := hr.body t ht
  obtain ⟨values, hvalues⟩ := htuple.ground
  have hlength : ∀ ν, d.trigger.values ν = atom.argumentNames →
      d.trigger.arguments.length = atom.arguments.length := fun ν hν => by
    have := congrArg List.length hν
    rw [argumentNames_of_objects hvalues, Literal.values, List.length_map] at this
    rw [this, hvalues, List.length_map]
  unfold propagateRule
  rw [biUnifyAtoms]
  by_cases hsame : d.trigger.sameSchema atom (some th.name) = true
  · rw [if_pos hsame]
    rcases hu : biUnifyLists [] d.trigger.arguments 0 atom.arguments 1 with ⟨h, _ | cs⟩
    · refine ⟨[], rfl, .nil fun x => ?_⟩
      rintro ⟨ν, hν, -⟩
      obtain ⟨-, hnone⟩ := biUnifyLists_none (h := []) trivial hu
      have hlen := hlength ν hν
      obtain ⟨p, hp, hne⟩ := hnone hlen (fun k => ν k.2) (by simp [Models])
      refine hne ((zip_eval_iff (fun k => ν k.2) 0 1 hlen).2 ?_ p hp)
      change d.trigger.values ν = _
      rw [hν, argumentNames_of_objects hvalues, hvalues, List.map_map]
      exact ((List.map_congr_left fun _ _ => rfl).trans (List.map_id _)).symm
    · have hvars : ∀ x, x ∈ sortedNames (r.heads ++ r.body)
          ↔ x ∈ d.trigger.variableNames ∨ ∃ l ∈ d.body, x ∈ l.variableNames := fun x => by
        rw [hr.mem_names, htrigger]
        constructor
        · rintro ⟨l, hl, hx⟩
          rcases List.mem_cons.1 ((List.perm_cons_erase ht).mem_iff.1 hl) with rfl | hl
          · exact .inl hx
          · exact .inr ⟨l, hbody.mem_iff.2 hl, hx⟩
        · rintro (hx | ⟨l, hl, hx⟩)
          · exact ⟨t, ht, hx⟩
          · exact ⟨l, List.mem_of_mem_erase (hbody.mem_iff.1 hl), hx⟩
      obtain ⟨hready, hdet, hmodels⟩ := trigger_unified htuple (fun x hx => (hvars x).2 (.inl hx)) hu
      have hshort : 3 * d.body.length ≤ fuel := by
        have := hr.short
        rw [hbody.length_eq, List.length_erase_of_mem ht]
        omega
      have hnames : ∀ x ∈ sortedNames (r.heads ++ r.body), Det h (keys 0 d.body) (0, x) := fun x hx => by
        rcases (hvars x).1 hx with hx | ⟨l, hl, hx⟩
        · exact (hdet x hx).mono List.suffix_rfl (by simp)
        · exact .of_mem ⟨rfl, l, hl, hx⟩
      obtain ⟨bindings, hok, hmem⟩ : ∃ bindings, evaluation reg theories setOrder fuel
          (th.database.toTopDown th.name) (sortedNames (r.heads ++ r.body)) d.body h 2 = .ok bindings ∧ _ :=
        evaluation_spec horder hready (fun l hl => hr.body l (List.mem_of_mem_erase (hbody.mem_iff.1 hl)))
          ((hr.deltas d hd).mono fun x hx => hdet x hx) (fun l hl x hx => (hvars x).2 (.inr ⟨l, hl, hx⟩))
          hnames hshort
      refine ⟨processNewBindings bindings d.head (insert != d.trigger.negated) d.original, ?_, ?_⟩
      · dsimp only
        rw [deltaRule_names hr hd, show th.toTopDown = th.database.toTopDown th.name from rfl, hok]
        rfl
      · rw [hhead, horiginal]
        have hB : ∀ b, b ∈ bindings ↔ ∃ ν, (d.trigger.values ν = atom.argumentNames
            ∧ ∀ l ∈ d.body, th.Holds reg ν l) ∧ b = valuation (sortedNames (r.heads ++ r.body)) ν := fun b => by
          rw [hmem]
          constructor
          · rintro ⟨ρ, hm, hl, rfl⟩
            exact ⟨fun x => ρ (0, x), ⟨(hmodels ρ).1 hm, hl⟩, rfl⟩
          · rintro ⟨ν, ⟨hm, hl⟩, rfl⟩
            exact ⟨fun k => ν k.2, (hmodels _).2 hm, hl, rfl⟩
        simpa only [and_assoc, Rule.Proves, Rule.binding] using
          processNewBindings_spec hB (fun x hx => hr.mem_names.2 (hr.headVars x hx)) hr.positive hr.service
            hr.modal
  · rw [if_neg hsame]
    refine ⟨[], rfl, .nil fun x => ?_⟩
    rintro ⟨ν, hν, -⟩
    refine hsame (sameSchema_iff.2 ⟨⟨htable, ?_, ?_⟩, hlength ν hν⟩)
    · rw [htrigger, hlocal.modal, htuple.modal]
    · rw [htrigger, hlocal.service, htuple.service]

end

end Congress
