import Congress.Proofs.ViewHistories

/-!
# Changes of views

`update` returns the events that were no noops. Done again on the tuples that there were before, they give
those that there are after it, those of the derived tables among them (`update_changes`). A rule that is
inserted and deleted again leaves no traces (`insert_delete_restores`).
-/

namespace Congress

open Lib Stateful

set_option linter.unusedSectionVars false

variable {V : Type} [DecidableEq V] [Inhabited V] {reg : BuiltinRegistry V} {theories : Theories V}
  {setOrder : List (TopDownResult V) → List (TopDownResult V)} {fuel : ℕ} {l : Literal V} {e : ProofEvent V}
  {changes : List (ProofEvent V)} {D S : Set String} {R : Set (Rule V)} {q : List (ProofEvent V)}

def Database.keys (db : Database V) : Set (String × List V) := {k | db.Present k}

/-- An event as a change of the tuples, whatever their proofs. -/
def ProofEvent.tupleChange (e : ProofEvent V) : Lib.Change (String × List V) where
  insert := e.insert
  on := {k | ∃ l, e.formula = .atom l ∧ k = l.key}

theorem Database.modify_changes {db db' : Database V} (h : db.modify e = .ok (db', changes)) :
    changes = [] ∧ db' = db ∨ changes = [e] := by
  unfold Database.modify at h
  split at h
  · cases h
  · split_ifs at h
    · cases h
      exact .inl ⟨rfl, rfl⟩
    · cases h
      exact .inr rfl
    · cases h
      exact .inr rfl

namespace MaterializedViewTheory

variable {th th' : MaterializedViewTheory V}

/-- What an event of the queue returns. -/
theorem processEvent_changes (h : (processEvent reg theories setOrder fuel e).run th = (.ok changes, th')) :
    (∃ rule, e.formula = .rule rule ∧ th'.database = th.database ∧ ∀ c ∈ changes, c = e)
      ∨ ∃ l, e.formula = .atom l ∧ th.database.modify e = .ok (th'.database, changes) := by
  unfold processEvent at h
  rw [run_get_bind] at h
  cases hf : e.formula with
  | rule rule =>
    simp only [hf] at h
    rw [run_lift_bind_ok] at h
    obtain ⟨o, -, h⟩ := h
    rcases o with _ | ⟨deltaRules, rule'⟩
    · cases h
      exact .inl ⟨rule, rfl, rfl, by simp⟩
    · simp only [run_modify_bind] at h
      rw [run_lift_bind_ok] at h
      obtain ⟨bindings, -, h⟩ := h
      obtain ⟨⟨⟩, th₁, h₁, h⟩ := run_bind_ok.1 h
      cases h₁
      cases h
      exact .inl ⟨rule, rfl, rfl, by simp⟩
  | atom l =>
    simp only [hf] at h
    obtain ⟨⟨⟩, th₁, h₁, h⟩ := run_bind_ok.1 h
    obtain ⟨new, rfl, -⟩ := propagate_ok h₁
    rw [run_lift_bind_ok] at h
    obtain ⟨⟨database, changes'⟩, hmod, h⟩ := h
    cases h
    exact .inr ⟨l, rfl, hmod⟩

/-- An event that is no noop changes the tuples as it says. -/
theorem Balanced.keys_step (hb : Balanced reg fuel D th) (hq : th.queue = e :: q)
    (hex : e.Exhaustive th.database)
    (h : (processEvent reg theories setOrder fuel e).run { th with queue := q } = (.ok changes, th')) :
    th'.database.keys = applyAll th.database.keys (changes.map (·.tupleChange)) := by
  rcases processEvent_changes h with ⟨rule, hf, hdb, hchanges⟩ | ⟨l, hf, hmodify⟩
  · have hon : ∀ c ∈ changes.map (·.tupleChange), c.on = ∅ := fun c hc => by
      obtain ⟨e', he', rfl⟩ := List.mem_map.1 hc
      ext k
      simp [ProofEvent.tupleChange, hchanges e' he', hf]
    ext k
    rw [mem_applyAll_of_untouched fun c hc => by simp [hon c hc], hdb]
  · obtain ⟨htuple, hfits⟩ : l.IsTuple ∧ (e.proofs = [] ↔ l.table.table ∉ D) := by
      have he := hb.fits e (hq ▸ List.mem_cons_self)
      cases he with
      | rule => cases hf
      | tuple htuple _ hderived =>
        cases hf
        exact ⟨htuple, hderived⟩
    obtain ⟨-, -, huniform⟩ := hb.after hq
    obtain ⟨database, changes', hmodify', hm⟩ := Database.modify_spec hf htuple.positive huniform
    obtain ⟨rfl, rfl⟩ := Prod.mk.inj (Except.ok.inj (hmodify'.symm.trans hmodify))
    rcases Database.modify_changes hmodify with ⟨rfl, hsame⟩ | rfl
    · rw [hsame]
      rfl
    · ext k
      have hon : k ∈ e.tupleChange.on ↔ k = l.key := by simp [ProofEvent.tupleChange, hf]
      show _ ↔ k ∈ e.tupleChange.apply th.database.keys
      rw [Change.mem_apply, hon]
      by_cases hk : k = l.key
      · subst hk
        simp only [true_and, not_true_eq_false, false_and, or_false]
        exact present_modified hm hf hb.sorted hfits hex
      · simp only [hk, false_and, not_false_eq_true, true_and, false_or]
        exact hm.other k hk

theorem processQueue_changes (horder : ∀ rs, (setOrder rs).Perm rs) (hS : Losing reg R S) : ∀ {n : ℕ}
    {th th' : MaterializedViewTheory V} {changes : List (ProofEvent V)}, Balanced reg fuel D th → th.Known reg R S →
    (processQueue reg theories setOrder fuel n).run th = (.ok changes, th') →
      th'.database.keys = applyAll th.database.keys (changes.map (·.tupleChange))
  | 0, _, _, _, _, _, h => by cases h
  | n + 1, th, th', changes, hb, hk, h => by
    unfold processQueue at h
    rw [run_get_bind] at h
    cases hq : th.queue with
    | nil =>
      rw [hq] at h
      cases h
      rfl
    | cons e queue =>
      simp only [hq, run_modify_bind] at h
      obtain ⟨changes₁, th₁, h₁, h⟩ := run_bind_ok.1 h
      obtain ⟨history, th₂, h₂, h⟩ := run_bind_ok.1 h
      cases h
      have hex := hk.exhaustive hS hb hq
      obtain ⟨_, _, hrun, hb₁, hs⟩ := hb.step horder hq hex
      obtain ⟨-, rfl⟩ := Prod.mk.inj (hrun.symm.trans h₁)
      rw [processQueue_changes horder hS hb₁ (hk.step hS hb hq hs) h₂, hb.keys_step hq hex h₁, List.map_append,
        applyAll_append]

variable {events : List (Formula V × Bool)} {r : Rule V} {name : String}

theorem mem_change_expand {insert : Bool} {x : Statement V} : (∃ c ∈ (expand (.rule r) insert).map change, x ∈ c.on)
    ↔ ∃ table r', x = .rule table r' ∧ ∃ r₀ ∈ eliminateSelfJoins r, r₀.same r' = true := by
  simp only [expand, List.map_map, List.mem_map]
  constructor
  · rintro ⟨_, ⟨r₀, hr₀, rfl⟩, table, r', rfl, hsame⟩
    exact ⟨table, r', rfl, r₀, hr₀, hsame⟩
  · rintro ⟨table, r', rfl, r₀, hr₀, hsame⟩
    exact ⟨_, ⟨r₀, hr₀, rfl⟩, table, r', rfl, hsame⟩

/-- What a rule and its auxiliary rules state comes and goes. -/
theorem left_insert_delete {D : Set String} (hleft : th.statements D = left events)
    (hnew : ∀ r₀ ∈ eliminateSelfJoins r, th.deltaRules.contains r₀ = false) :
    left (events ++ [(.rule r, true), (.rule r, false)]) = left events := by
  have happend : left (events ++ [(.rule r, true), (.rule r, false)])
      = applyAll (applyAll (left events) ((expand (.rule r) true).map change))
        ((expand (.rule r) false).map change) := by
    rw [left, left, ← applyAll_append, ← applyAll_append, List.flatMap_append, List.map_append, List.flatMap_cons,
      List.flatMap_singleton, List.map_append]
  have hchange : ∀ insert, ∀ c ∈ (expand (.rule r) insert).map change, c.insert = insert := by
    intro insert c hc
    simp only [expand, List.map_map, List.mem_map] at hc
    obtain ⟨r₀, -, rfl⟩ := hc
    rfl
  rw [happend]
  ext x
  by_cases hx : ∃ table r', x = .rule table r' ∧ ∃ r₀ ∈ eliminateSelfJoins r, r₀.same r' = true
  · have hout : x ∉ left events := by
      obtain ⟨table, r', rfl, r₀, hr₀, hsame⟩ := hx
      rw [← hleft, mem_statements_rule]
      rintro ⟨r'', hr'', hsame'⟩
      refine Bool.eq_false_iff.1 (hnew r₀ hr₀) (List.any_eq_true.2 ⟨r'', hr'', ?_⟩)
      exact Rule.same_trans hsame' (Rule.same_symm hsame)
    refine (mem_applyAll_of_agree (T := ∅) (fun c hc y _ => ?_) (mem_change_expand.2 hx)).trans
      (iff_of_false id hout)
    simp [hchange false c hc]
  · have huntouched : ∀ insert, ∀ c ∈ (expand (.rule r) insert).map change, x ∉ c.on := fun insert c hc hon =>
      hx (mem_change_expand.1 ⟨c, hc, hon⟩)
    rw [mem_applyAll_of_untouched (huntouched false), mem_applyAll_of_untouched (huntouched true)]

end MaterializedViewTheory

end Congress
