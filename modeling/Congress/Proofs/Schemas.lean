import Congress.Lib.Usage
import Congress.Proofs.Updates

/-!
# Schemas count uses

A schema that is not given counts the uses of each table, and has as many columns for it as its first
use had arguments. So the changes of schemas by a rule are changes of a dictionary of counted uses
(`updateRuleSchema_counts`), and so is taking them back (`revertSchema_counts`).
-/

namespace Congress

open Lib Stateful

set_option linter.unusedSectionVars false

/-- The schema has the counts and the numbers of columns of a dictionary. -/
def Schema.Counts (s : Schema) (known : String → Usage ℕ) : Prop :=
  s.complete = false ∧ ∃ count, s.count = some count ∧ ∀ table,
    count.lookup table = (known table).map Prod.fst
      ∧ (s.columns.lookup table).map List.length = (known table).map Prod.snd

/-- A change of schemas is what was logged for a table; it is taken back at the policy that its literal
names, or else at the given one. -/
def SchemaChange.Logs (name : String) (change : Option SchemaChange)
    (e : (String × String) × Option (Logged ℕ)) : Prop :=
  match change, e.2 with
  | none, none => True
  | some c, some l => (c.service.getD name, c.table) = e.1 ∧ c.insert = l.insert
      ∧ c.columns.map List.length = l.value
  | _, _ => False

/-- Where nothing was changed it does not matter at which policy. -/
theorem SchemaChange.Logs.at {name : String} {change : Option SchemaChange} {k k' : String × String}
    {log : Option (Logged ℕ)} (h : SchemaChange.Logs name change (k, log)) (hk : k = k' ∨ log = none) :
    SchemaChange.Logs name change (k', log) := by
  rcases hk with rfl | rfl
  · exact h
  · rcases change with _ | change
    · trivial
    · exact h.elim

variable {V A : Type} [DecidableEq V] {reg : BuiltinRegistry V} {insert : Bool}

namespace Schema

variable {s s' : Schema} {known : String → Usage ℕ} {table : String}

theorem Counts.set {count : AList fun _ : String => ℕ} {columns : AList fun _ : String => List String}
    {n : ℕ} {names : List String} (h : s.Counts known) (hold : s.count = some count)
    (hcol : columns.lookup table = some names)
    (hother : ∀ t ≠ table, columns.lookup t = s.columns.lookup t) :
    Counts ⟨columns, some (count.insert table n), s.complete⟩
      (Function.update known table (some (n, names.length))) := by
  obtain ⟨hcomplete, count', hcount, htables⟩ := h
  obtain rfl := Option.some.inj (hold.symm.trans hcount)
  refine ⟨hcomplete, _, rfl, fun t => ?_⟩
  by_cases ht : t = table
  · subst ht
    simp [hcol]
  · rw [Function.update_of_ne ht, AList.lookup_insert_ne ht]
    dsimp only
    rw [hother t ht]
    exact htables t

theorem Counts.first {count : AList fun _ : String => ℕ} (h : s.Counts known)
    (hold : s.count = some count) (table : String) (names : List String) :
    Counts ⟨s.columns.insert table names, some (count.insert table 1), s.complete⟩
      (Function.update known table (some (1, names.length))) :=
  h.set hold (AList.lookup_insert _) fun _ ht => AList.lookup_insert_ne ht

theorem Counts.unset {count : AList fun _ : String => ℕ} (h : s.Counts known)
    (hold : s.count = some count) :
    Counts ⟨s.columns.erase table, some (count.erase table), s.complete⟩
      (Function.update known table none) := by
  obtain ⟨hcomplete, count', hcount, htables⟩ := h
  obtain rfl := Option.some.inj (hold.symm.trans hcount)
  refine ⟨hcomplete, _, rfl, fun t => ?_⟩
  by_cases ht : t = table
  · subst ht
    simp
  · rw [Function.update_of_ne ht, AList.lookup_erase_ne ht, AList.lookup_erase_ne ht]
    exact htables t

theorem update_counts (h : s.Counts known) (l : Literal V) (name : String) :
    (s.update l insert).1.Counts (Function.update known l.table.table
        ((known l.table.table).change insert l.arguments.length).1)
      ∧ SchemaChange.Logs name (s.update l insert).2 ((l.table.service.getD name, l.table.table),
          ((known l.table.table).change insert l.arguments.length).2) := by
  have hc := h
  obtain ⟨hcomplete, count, hcount, htables⟩ := hc
  obtain ⟨hn, hcols⟩ := htables l.table.table
  unfold Schema.update
  rw [hcount]
  dsimp only
  rcases hk : known l.table.table with _ | ⟨n, m⟩
  · rw [hk] at hn hcols
    simp only [Option.map_none, Option.map_eq_none_iff] at hn hcols
    rw [hcols, Usage.change]
    dsimp only
    cases insert with
    | true =>
      simp only [if_true]
      refine ⟨?_, rfl, rfl, by simp⟩
      have hfirst := h.first hcount l.table.table
        ((List.range l.arguments.length).map fun i => "Col" ++ toString i)
      rwa [List.length_map, List.length_range] at hfirst
    | false =>
      simp only [Bool.false_eq_true, if_false]
      refine ⟨?_, trivial⟩
      rwa [← hk, Function.update_eq_self]
  · rw [hk] at hn hcols
    simp only [Option.map_some] at hn hcols
    obtain ⟨names, hnames, hlen⟩ := Option.map_eq_some_iff.1 hcols
    rw [hnames, hn, Usage.change]
    dsimp only [Option.getD_some]
    subst hlen
    split_ifs with hins hlt
    · exact ⟨h.set hcount hnames fun _ _ => rfl, rfl, hins, rfl⟩
    · exact ⟨h.set hcount hnames fun _ _ => rfl, rfl, Bool.not_eq_true _ ▸ hins, rfl⟩
    · exact ⟨h.unset hcount, rfl, Bool.not_eq_true _ ▸ hins, rfl⟩

theorem revert_counts {c : SchemaChange} {l : Logged ℕ} {name : String}
    {key : String × String} (h : s.Counts known) (hl : SchemaChange.Logs name (some c) (key, some l))
    (hr : s.revert c = .ok s') :
    ∃ u, (known c.table).revert l = some u ∧ s'.Counts (Function.update known c.table u) := by
  obtain ⟨-, hins, hval⟩ := hl
  have hc := h
  obtain ⟨hcomplete, count, hcount, htables⟩ := hc
  obtain ⟨hn, hcols⟩ := htables c.table
  unfold Schema.revert at hr
  rw [hcount] at hr
  dsimp only at hr
  rcases hk : known c.table with _ | ⟨n, m⟩
  · rw [hk] at hn hcols
    simp only [Option.map_none, Option.map_eq_none_iff] at hn hcols
    rw [hn] at hr
    dsimp only at hr
    split_ifs at hr with hc
    cases hcc : c.columns with
    | none =>
      rw [hcc] at hr
      cases hr
    | some names =>
      rw [hcc] at hr hval
      cases hr
      refine ⟨some (1, names.length), ?_, ?_⟩
      · rw [Usage.revert, if_neg (hins ▸ hc), ← hval]
        rfl
      · exact h.first hcount c.table names
  · rw [hk] at hn hcols
    simp only [Option.map_some] at hn hcols
    obtain ⟨names, hnames, rfl⟩ := Option.map_eq_some_iff.1 hcols
    rw [hn] at hr
    dsimp only at hr
    rw [Usage.revert, ← hins]
    split_ifs at hr ⊢ with hc hlt
    · cases hr
      exact ⟨_, rfl, h.set hcount hnames fun _ _ => rfl⟩
    · cases hr
      exact ⟨_, rfl, h.set hcount hnames fun _ _ => rfl⟩
    · cases hr
      exact ⟨_, rfl, h.unset hcount⟩

theorem revert_ok {c : SchemaChange} {l : Logged ℕ} {name : String} {key : String × String} {u : Usage ℕ}
    (h : s.Counts known) (hl : SchemaChange.Logs name (some c) (key, some l))
    (hu : (known c.table).revert l = some u) : ∃ s', s.revert c = .ok s' := by
  obtain ⟨-, hins, hval⟩ := hl
  obtain ⟨-, count, hcount, htables⟩ := h
  obtain ⟨hn, -⟩ := htables c.table
  unfold Schema.revert
  rw [hcount]
  dsimp only
  rw [hn]
  rcases hk : known c.table with _ | ⟨n, m⟩
  · rw [hk, Usage.revert, ← hins] at hu
    rw [Option.map_none]
    dsimp only
    split_ifs at hu ⊢ with hc
    cases hcc : c.columns with
    | none =>
      rw [hcc, Option.map_none] at hval
      rw [← hval] at hu
      cases hu
    | some names => exact ⟨_, rfl⟩
  · rw [Option.map_some]
    dsimp only
    split_ifs <;> exact ⟨_, rfl⟩

end Schema

/-- The uses of tables in a body; builtins and tables of unknown policies do not count. -/
def bodyUses (reg : BuiltinRegistry V) (known : String → Bool) (name : String) (ls : List (Literal V)) :
    List ((String × String) × ℕ) :=
  ls.filterMap fun l =>
    if l.isBuiltin reg true || !known (l.table.service.getD name) then none
    else some ((l.table.service.getD name, l.table.table), l.arguments.length)

/-- The uses of tables by a formula in a policy; its head counts as a table of that policy. -/
def Formula.uses (reg : BuiltinRegistry V) (known : String → Bool) (name : String) :
    Formula V → List ((String × String) × ℕ)
  | .atom l => [((name, l.table.table), l.arguments.length)]
  | .rule r => ((name, r.head.table.table), r.head.arguments.length) :: bodyUses reg known name r.body

namespace PolicyMap

variable {ps ps' : PolicyMap V A} {S S' : String × String → Usage ℕ} {name : String}

/-- The schemas that there are count uses, and every rule set has one. -/
structure Counts (ps : PolicyMap V A) (S : String × String → Usage ℕ) : Prop where
  known : ∀ name p s, ps.lookup name = some p → p.schema = some s → s.Counts fun t => S (name, t)
  schema : ∀ name kind store, ps.lookup name ≠ some ⟨.rules kind store, none⟩

/-- Whether there is a policy of that name. -/
def knows (ps : PolicyMap V A) (name : String) : Bool := (ps.data name).isSome

theorem knows_of_sameData (h : SameData ps ps') : ps'.knows = ps.knows := by
  funext n
  rw [knows, knows, h]

theorem Counts.put {d : PolicyData V A} {s : Schema} (h : ps.Counts S)
    (hs : s.Counts fun t => S' (name, t)) (hS : ∀ k : String × String, k.1 ≠ name → S' k = S k) :
    Counts (ps.insert name ⟨d, some s⟩) S' where
  known name' p s' hlook hp := by
    by_cases hn : name' = name
    · subst hn
      rw [AList.lookup_insert, Option.some.injEq] at hlook
      subst hlook
      cases hp
      exact hs
    · rw [AList.lookup_insert_ne hn] at hlook
      have hsame : (fun t => S' (name', t)) = fun t => S (name', t) := funext fun t => hS _ hn
      rw [hsame]
      exact h.known name' p s' hlook hp
  schema name' kind store hlook := by
    by_cases hn : name' = name
    · subst hn
      rw [AList.lookup_insert] at hlook
      cases hlook
    · rw [AList.lookup_insert_ne hn] at hlook
      exact h.schema name' kind store hlook

/-- One entry of the dictionary is that of a table of one policy. -/
theorem update_pair {table : String} {u : Usage ℕ} : (fun t => Function.update S (name, table) u (name, t))
    = Function.update (fun t => S (name, t)) table u := by
  funext t
  by_cases ht : t = table
  · subst ht
    rw [Function.update_self, Function.update_self]
  · rw [Function.update_of_ne ht, Function.update_of_ne fun h => ht (Prod.mk.inj h).2]

theorem update_pair_ne {table : String} {u : Usage ℕ} (k : String × String) (hk : k.1 ≠ name) :
    Function.update S (name, table) u k = S k :=
  Function.update_of_ne (fun h => hk (congrArg Prod.fst h)) ..

theorem updateLitSchema_counts {l : Literal V} {change : Option SchemaChange} (h : ps.Counts S)
    (hrun : (updateLitSchema name l insert).run ps = (.ok change, ps')) (other : String) :
    ps'.Counts (Function.update S (name, l.table.table)
        ((S (name, l.table.table)).change insert l.arguments.length).1)
      ∧ SchemaChange.Logs other change ((l.table.service.getD other, l.table.table),
          ((S (name, l.table.table)).change insert l.arguments.length).2) := by
  unfold updateLitSchema at hrun
  rw [run_get_bind] at hrun
  cases hlook : ps.lookup name with
  | none =>
    rw [hlook] at hrun
    cases hrun
  | some p =>
    rw [hlook] at hrun
    dsimp only at hrun
    split at hrun
    · cases hrun
    · rename_i kind store schema hdata hschema
      have hcounts := h.known name p schema hlook hschema
      rw [if_neg (by simp [hcounts.1]), run_modify_bind] at hrun
      cases hrun
      obtain ⟨hupdate, hlogs⟩ := Schema.update_counts hcounts l other
      refine ⟨h.put ?_ update_pair_ne, hlogs⟩
      rw [update_pair]
      exact hupdate
    · cases hrun

/-- Every policy keeps its rules in a rule set. -/
def AllRules (ps : PolicyMap V A) : Prop :=
  ∀ name d, ps.data name = some d → ∃ kind store, d = .rules kind store

theorem AllRules.of_sameData (h : ps.AllRules) (hsame : SameData ps ps') : ps'.AllRules := by
  intro name d hd
  rw [hsame] at hd
  exact h name d hd

theorem updateLitSchema_ok (l : Literal V) (insert : Bool) (h : ps.Counts S) (hrules : ps.AllRules)
    (hknown : ps.knows name = true) :
    ∃ change ps', (updateLitSchema name l insert).run ps = (.ok change, ps') := by
  obtain ⟨d, hd⟩ := Option.isSome_iff_exists.1 hknown
  obtain ⟨kind, store, rfl⟩ := hrules name d hd
  obtain ⟨⟨d, schema⟩, hlook, rfl⟩ := Option.map_eq_some_iff.1 hd
  cases schema with
  | none => exact absurd hlook (h.schema name kind store)
  | some schema =>
    unfold updateLitSchema
    rw [run_get_bind, hlook]
    dsimp only
    rw [if_neg (by simp [(h.known name _ schema hlook rfl).1]), run_modify_bind]
    exact ⟨_, _, rfl⟩

theorem updateBodySchema_counts (reg : BuiltinRegistry V) : ∀ (ls : List (Literal V))
    {ps ps' : PolicyMap V A} {S : String × String → Usage ℕ} {changes : List (Option SchemaChange)},
    ps.Counts S → (updateBodySchema reg name insert ls).run ps = (.ok changes, ps') →
      ps'.Counts (Usage.changeEach insert (bodyUses reg ps.knows name ls) S).1
        ∧ List.Forall₂ (SchemaChange.Logs name) changes
          (Usage.changeEach insert (bodyUses reg ps.knows name ls) S).2
  | [], ps, ps', S, changes, h, hrun => by
    cases hrun
    exact ⟨h, .nil⟩
  | l :: ls, ps, ps', S, changes, h, hrun => by
    unfold updateBodySchema at hrun
    rw [run_get_bind] at hrun
    have hknows : ps.knows (l.table.service.getD name)
        = (ps.lookup (l.table.service.getD name)).isSome := by
      simp [knows, data]
    split_ifs at hrun with hskip
    · have huses : bodyUses reg ps.knows name (l :: ls) = bodyUses reg ps.knows name ls := by
        simp only [bodyUses, List.filterMap_cons]
        rw [if_pos]
        simpa [hknows] using hskip
      rw [huses]
      exact updateBodySchema_counts reg ls h hrun
    · have huses : bodyUses reg ps.knows name (l :: ls)
          = ((l.table.service.getD name, l.table.table), l.arguments.length)
            :: bodyUses reg ps.knows name ls := by
        simp only [bodyUses, List.filterMap_cons]
        rw [if_neg]
        simpa [hknows] using hskip
      obtain ⟨change, ps₁, h₁, hrun⟩ := run_bind_ok.1 hrun
      obtain ⟨changes', ps₂, h₂, hrun⟩ := run_bind_ok.1 hrun
      cases hrun
      obtain ⟨hcounts, hlogs⟩ := updateLitSchema_counts h h₁ name
      obtain ⟨hcounts', hlogs'⟩ := updateBodySchema_counts reg ls hcounts h₂
      rw [knows_of_sameData (updateLitSchema_keeps.of_run h₁)] at hcounts' hlogs'
      rw [huses]
      exact ⟨hcounts', .cons hlogs hlogs'⟩

theorem updateBodySchema_ok (reg : BuiltinRegistry V) (insert : Bool) : ∀ (ls : List (Literal V))
    {ps : PolicyMap V A} {S : String × String → Usage ℕ}, ps.Counts S → ps.AllRules →
      ∃ changes ps', (updateBodySchema reg name insert ls).run ps = (.ok changes, ps')
  | [], _, _, _, _ => ⟨_, _, rfl⟩
  | l :: ls, ps, S, h, hrules => by
    unfold updateBodySchema
    rw [run_get_bind]
    split_ifs with hskip
    · exact updateBodySchema_ok reg insert ls h hrules
    · have hknown : ps.knows (l.table.service.getD name) = true := by
        simp only [Bool.or_eq_true, not_or, Option.isNone_iff_eq_none] at hskip
        rw [knows, data, Option.isSome_map]
        exact Option.isSome_iff_ne_none.2 hskip.2
      obtain ⟨change, ps₁, h₁⟩ := updateLitSchema_ok l insert h hrules hknown
      have hsame := updateLitSchema_keeps.of_run h₁
      obtain ⟨changes, ps₂, h₂⟩ := updateBodySchema_ok reg insert ls
        (updateLitSchema_counts h h₁ name).1 (hrules.of_sameData hsame)
      exact ⟨_, _, run_bind_ok.2 ⟨_, _, h₁, run_bind_ok.2 ⟨_, _, h₂, rfl⟩⟩⟩

theorem updateRuleSchema_ok {reg : BuiltinRegistry V} (formula : Formula V) (insert : Bool)
    (h : ps.Counts S) (hrules : ps.AllRules) (hknown : ps.knows name = true) :
    ∃ changes ps', (updateRuleSchema reg name formula insert).run ps = (.ok changes, ps') := by
  unfold updateRuleSchema
  rw [run_get_bind]
  split
  · exact ⟨_, _, rfl⟩
  · split_ifs
    · exact ⟨_, _, rfl⟩
    · cases formula with
      | atom l =>
        obtain ⟨change, ps₁, h₁⟩ := updateLitSchema_ok l insert h hrules hknown
        exact ⟨_, _, run_bind_ok.2 ⟨_, _, h₁, rfl⟩⟩
      | rule r =>
        obtain ⟨change, ps₁, h₁⟩ := updateLitSchema_ok r.head insert h hrules hknown
        have hsame := updateLitSchema_keeps.of_run h₁
        obtain ⟨changes, ps₂, h₂⟩ := updateBodySchema_ok reg insert r.body
          (updateLitSchema_counts h h₁ name).1 (hrules.of_sameData hsame)
        exact ⟨_, _, run_bind_ok.2 ⟨_, _, h₁, run_bind_ok.2 ⟨_, _, h₂, rfl⟩⟩⟩

/-- The changes of schemas by a formula; the head has to name no other policy for them to be taken back
where they were made, unless there was no change. -/
theorem updateRuleSchema_counts {reg : BuiltinRegistry V} {formula : Formula V} {kind : RuleKind}
    {store : RuleStore V A} {changes : List (Option SchemaChange)} (h : ps.Counts S)
    (hdata : ps.data name = some (.rules kind store))
    (hrun : (updateRuleSchema reg name formula insert).run ps = (.ok changes, ps')) :
    ps'.Counts (Usage.changeEach insert (formula.uses reg ps.knows name) S).1
      ∧ (formula.asRule.head.table.service.getD name = name
          ∨ insert = false ∧ S (name, formula.asRule.head.table.table) = none →
        List.Forall₂ (SchemaChange.Logs name) changes
          (Usage.changeEach insert (formula.uses reg ps.knows name) S).2) := by
  obtain ⟨⟨d, schema⟩, hlook, rfl⟩ := Option.map_eq_some_iff.1 hdata
  unfold updateRuleSchema at hrun
  rw [run_get_bind, hlook, Option.bind_some] at hrun
  cases schema with
  | none => exact absurd hlook (h.schema name kind store)
  | some schema =>
    dsimp only at hrun
    rw [if_neg (by simp [(h.known name _ schema hlook rfl).1])] at hrun
    have hwhere : ∀ l : Literal V, l.table.service.getD name = name
        ∨ insert = false ∧ S (name, l.table.table) = none →
          (l.table.service.getD name, l.table.table) = (name, l.table.table)
            ∨ ((S (name, l.table.table)).change insert l.arguments.length).2 = none := by
      rintro l (hown | ⟨rfl, hnone⟩)
      · exact .inl (by rw [hown])
      · exact .inr (by rw [hnone]; rfl)
    cases formula with
    | atom l =>
      obtain ⟨change, ps₁, h₁, hrun⟩ := run_bind_ok.1 hrun
      cases hrun
      obtain ⟨hcounts, hlogs⟩ := updateLitSchema_counts h h₁ name
      exact ⟨hcounts, fun hown => .cons (hlogs.at (hwhere l hown)) .nil⟩
    | rule r =>
      obtain ⟨change, ps₁, h₁, hrun⟩ := run_bind_ok.1 hrun
      obtain ⟨changes', ps₂, h₂, hrun⟩ := run_bind_ok.1 hrun
      cases hrun
      obtain ⟨hcounts, hlogs⟩ := updateLitSchema_counts h h₁ name
      obtain ⟨hcounts', hlogs'⟩ := updateBodySchema_counts reg r.body hcounts h₂
      rw [knows_of_sameData (updateLitSchema_keeps.of_run h₁)] at hcounts' hlogs'
      exact ⟨hcounts', fun hown => .cons (hlogs.at (hwhere r.head hown)) hlogs'⟩

theorem revertSchema_counts {changes : List (Option SchemaChange)}
    {logs : List ((String × String) × Option (Logged ℕ))} {ps ps' : PolicyMap V A}
    {S : String × String → Usage ℕ} (h : ps.Counts S)
    (hlogs : List.Forall₂ (SchemaChange.Logs name) changes logs)
    (hrun : (revertSchema name changes).run ps = (.ok (), ps')) :
    ∃ S', Usage.revertEach logs S = some S' ∧ ps'.Counts S' := by
  induction hlogs generalizing ps S with
  | nil =>
    cases hrun
    exact ⟨S, rfl, h⟩
  | @cons change entry changes logs hlog hlogs ih =>
    obtain ⟨key, log⟩ := entry
    rcases change with _ | change
    · rcases log with _ | log
      · exact ih h hrun
      · exact hlog.elim
    · rcases log with _ | log
      · exact hlog.elim
      have hkey := hlog.1
      dsimp only at hkey
      subst hkey
      unfold revertSchema at hrun
      rw [run_get_bind] at hrun
      rcases hlook : ps.lookup (change.service.getD name) with _ | p
      · rw [hlook] at hrun
        cases hrun
      rw [hlook] at hrun
      dsimp only at hrun
      rcases hschema : p.schema with _ | schema
      · rw [hschema] at hrun
        cases hrun
      rw [hschema] at hrun
      dsimp only at hrun
      rw [run_lift_bind_ok] at hrun
      obtain ⟨schema', hrevert, hrun⟩ := hrun
      rw [run_modify_bind] at hrun
      obtain ⟨u, hu, hcounts⟩ := Schema.revert_counts (h.known _ p schema hlook hschema) hlog hrevert
      have hput : Counts (ps.insert _ { p with schema := some schema' })
          (Function.update S (change.service.getD name, change.table) u) :=
        h.put (by rwa [update_pair]) update_pair_ne
      obtain ⟨S', hS', hcounts'⟩ := ih hput hrun
      exact ⟨S', by rw [Usage.revertEach, hu]; exact hS', hcounts'⟩

/-- Changes that were counted are taken back without an error if the counts can be. -/
theorem revertSchema_ok {changes : List (Option SchemaChange)}
    {logs : List ((String × String) × Option (Logged ℕ))} {ps : PolicyMap V A}
    {S : String × String → Usage ℕ} (h : ps.Counts S) (hrules : ps.AllRules)
    (hlogs : List.Forall₂ (SchemaChange.Logs name) changes logs)
    (hknown : ∀ e ∈ logs, ps.knows e.1.1 = true) (hrevert : (Usage.revertEach logs S).isSome) :
    ∃ ps', (revertSchema name changes).run ps = (.ok (), ps') := by
  induction hlogs generalizing ps S with
  | nil => exact ⟨_, rfl⟩
  | @cons change entry changes logs hlog hlogs ih =>
    obtain ⟨key, log⟩ := entry
    obtain ⟨hk, hrest⟩ := List.forall_mem_cons.1 hknown
    rcases change with _ | change
    · rcases log with _ | log
      · exact ih h hrules hrest hrevert
      · exact hlog.elim
    · rcases log with _ | log
      · exact hlog.elim
      have hkey := hlog.1
      dsimp only at hkey
      subst hkey
      obtain ⟨d, hd⟩ := Option.isSome_iff_exists.1 hk
      obtain ⟨kind, store, rfl⟩ := hrules _ d hd
      obtain ⟨⟨d, schema⟩, hlook, rfl⟩ := Option.map_eq_some_iff.1 hd
      dsimp only at hlook
      cases schema with
      | none => exact absurd hlook (h.schema _ kind store)
      | some schema =>
        obtain ⟨S', hS'⟩ := Option.isSome_iff_exists.1 hrevert
        rw [Usage.revertEach] at hS'
        obtain ⟨u, hu, hS'⟩ := Option.bind_eq_some_iff.1 hS'
        obtain ⟨schema', hschema⟩ := Schema.revert_ok (h.known _ _ schema hlook rfl) hlog hu
        obtain ⟨u', hu', hcounts⟩ := Schema.revert_counts (h.known _ _ schema hlook rfl) hlog hschema
        obtain rfl := Option.some.inj (hu.symm.trans hu')
        have hput : Counts (ps.insert (change.service.getD name) ⟨.rules kind store, some schema'⟩)
            (Function.update S (change.service.getD name, change.table) u) :=
          h.put (by rwa [update_pair]) update_pair_ne
        have hsame : SameData ps (ps.insert (change.service.getD name)
            ⟨.rules kind store, some schema'⟩) := sameData_insert hlook
        obtain ⟨ps', hrun⟩ := ih hput (hrules.of_sameData hsame)
          (by rwa [knows_of_sameData hsame]) (by rw [hS']; rfl)
        refine ⟨ps', ?_⟩
        unfold revertSchema
        rw [run_get_bind, hlook]
        dsimp only
        rw [run_lift_bind_ok]
        exact ⟨schema', hschema, hrun⟩

end PolicyMap

end Congress
