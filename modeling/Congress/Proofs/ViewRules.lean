import Congress.Lib.Grouped
import Congress.Proofs.RuleStores
import Congress.Proofs.ViewEvaluation

/-!
# The rules of materialized views

A rule by which views can be computed (`Rule.Viewable`) is known from each of its delta rules, so the
delta rules of a theory are those of its rules through all changes (`DeltaRuleTheory.Tracks`).
-/

namespace Congress

open Lib

set_option linter.unusedSectionVars false

variable {V : Type} [DecidableEq V] {reg : BuiltinRegistry V} {fuel : ℕ} {r r' rule : Rule V}
  {d d' delta : DeltaRule V} {l l' : Literal V} {D : Set String} {table : String}

/-- A name to which the language itself gives no meaning. -/
structure IsTable (reg : BuiltinRegistry V) (table : String) : Prop where
  notTrue : table ≠ "true"
  notFalse : table ≠ "false"
  notBuiltin : reg table = none

/-- A rule about tables of its own policy, none of them twice in its body. It is safe, and so is each of
its delta rules once the trigger is matched; the fuel is enough to evaluate any of their bodies. -/
structure Rule.Viewable (reg : BuiltinRegistry V) (fuel : ℕ) (r : Rule V) : Prop where
  oneHead : r.moreHeads = []
  positive : r.head.negated = false
  service : r.head.table.service = none
  modal : r.head.table.modal = none
  named : IsTable reg r.head.table.table
  body : ∀ l ∈ r.body, l.Local reg
  headVars : ∀ x ∈ r.head.variableNames, ∃ l ∈ r.body, x ∈ l.variableNames
  distinct : (r.body.map Literal.tableArity).Nodup
  safe : SafeInOrder reg (fun _ => False) r.body
  deltas : ∀ d ∈ r.deltaRules reg, SafeInOrder reg (· ∈ d.trigger.variableNames) d.body
  short : 3 * r.body.length ≤ fuel

theorem Rule.Viewable.heads (h : r.Viewable reg fuel) : r.heads = [r.head] := by
  rw [Rule.heads, h.oneHead]

theorem Rule.Viewable.nodup (h : r.Viewable reg fuel) : r.body.Nodup := h.distinct.of_map

/-- Literals of a body about the same table are the same. -/
theorem Rule.Viewable.eq_of_table (h : r.Viewable reg fuel) (hl : l ∈ r.body) (hl' : l' ∈ r.body)
    (ht : l.table.table = l'.table.table) (hn : l.arguments.length = l'.arguments.length) : l = l' := by
  refine List.inj_on_of_nodup_map h.distinct hl hl' ?_
  rw [Literal.tableArity, Literal.tableArity, Literal.tablename, Literal.tablename, Tablename.name,
    Tablename.name, (h.body l hl).service, (h.body l' hl').service, ht, hn]

theorem sortLiterals_perm (ls : List (Literal V)) : (sortLiterals ls).Perm ls := List.perm_insertionSort _ ls

/-- Sorting literals about different tables forgets their order. -/
theorem sortLiterals_congr {ls ls' : List (Literal V)} (hp : ls.Perm ls')
    (hinj : ∀ l ∈ ls, ∀ l' ∈ ls, l.table.table = l'.table.table →
      l.arguments.length = l'.arguments.length → l = l') : sortLiterals ls = sortLiterals ls' := by
  have hsorted : ∀ ls : List (Literal V),
      (sortLiterals ls).Pairwise fun l l' => l.sortKey ≤ l'.sortKey := fun ls =>
    List.pairwise_insertionSort _ ls
  refine List.Perm.eq_of_pairwise (fun a b ha hb hab hba => ?_) (hsorted ls) (hsorted ls')
    ((sortLiterals_perm ls).trans (hp.trans (sortLiterals_perm ls').symm))
  have hkey : a.sortKey = b.sortKey := le_antisymm hab hba
  have ha : a ∈ ls := (sortLiterals_perm ls).mem_iff.1 ha
  have hb : b ∈ ls := hp.mem_iff.2 ((sortLiterals_perm ls').mem_iff.1 hb)
  exact hinj a ha b hb (congrArg (fun k => (ofLex (ofLex k).2).1) hkey)
    (congrArg (fun k => (ofLex (ofLex (ofLex k).2).2).2) hkey)

namespace DeltaRule

theorem same_eq_true : d.same d' = true ↔ d.trigger = d'.trigger ∧ d.head = d'.head ∧ d.body = d'.body := by
  simp only [same, Bool.and_eq_true, decide_eq_true_eq, and_assoc]

theorem create_body_perm (trigger head : Literal V) (body : List (Literal V)) (original : Rule V) :
    (create reg trigger head body original).body.Perm body := by
  refine ((sortLiterals_perm _).append (sortLiterals_perm _)).trans ?_
  refine List.perm_append_comm.trans ?_
  have h := List.filter_append_perm (fun l : Literal V => l.isBuiltin reg true) body
  exact h

end DeltaRule

theorem Rule.mem_deltaRules (hn : r.body.Nodup) : d ∈ r.deltaRules reg
    ↔ ∃ l ∈ r.body, l.isBuiltin reg true = false ∧ d = .create reg l r.head (r.body.erase l) r := by
  simp only [Rule.deltaRules, List.mem_filterMap]
  constructor
  · rintro ⟨⟨l, i⟩, hmem, hd⟩
    obtain ⟨-, hi, hl⟩ := List.mem_zipIdx hmem
    simp only [Nat.zero_add, Nat.sub_zero] at hi hl
    split_ifs at hd with hb
    refine ⟨l, hl ▸ List.getElem_mem hi, by simpa using hb, ?_⟩
    rw [Option.some.injEq] at hd
    rw [← hd, hl, hn.erase_getElem]
  · rintro ⟨l, hl, hb, rfl⟩
    obtain ⟨i, hi, rfl⟩ := List.getElem_of_mem hl
    refine ⟨(r.body[i], i), ?_, by rw [if_neg (by simpa using hb), hn.erase_getElem]⟩
    rw [List.mk_mem_zipIdx_iff_getElem?]
    exact List.getElem?_eq_getElem hi

/-- A rule is known from each of its delta rules. -/
theorem Rule.same_of_deltaRules (hr : r.Viewable reg fuel) (hr' : r'.Viewable reg fuel)
    (hd : d ∈ r.deltaRules reg) (hd' : d' ∈ r'.deltaRules reg) (h : d.same d' = true) :
    r.same r' = true := by
  obtain ⟨l, hl, -, rfl⟩ := (mem_deltaRules hr.nodup).1 hd
  obtain ⟨l', hl', -, rfl⟩ := (mem_deltaRules hr'.nodup).1 hd'
  obtain ⟨ht, hh, hb⟩ := DeltaRule.same_eq_true.1 h
  change l = l' at ht
  subst ht
  refine Rule.same_iff.2 ⟨?_, ?_⟩
  · rw [hr.heads, hr'.heads]
    exact List.Perm.of_eq (congrArg (fun h => [h]) hh)
  · have hperm := (DeltaRule.create_body_perm l r.head (r.body.erase l) r).symm.trans
      ((List.Perm.of_eq hb).trans (DeltaRule.create_body_perm l r'.head (r'.body.erase l) r'))
    exact (List.perm_cons_erase hl).trans ((hperm.cons l).trans (List.perm_cons_erase hl').symm)

/-- Equal rules have equal delta rules. -/
theorem Rule.exists_deltaRule_of_same (hr : r.Viewable reg fuel) (hr' : r'.Viewable reg fuel)
    (h : r.same r' = true) (hd : d ∈ r.deltaRules reg) : ∃ d' ∈ r'.deltaRules reg, d.same d' = true := by
  obtain ⟨l, hl, hb, rfl⟩ := (mem_deltaRules hr.nodup).1 hd
  obtain ⟨hheads, hbody⟩ := Rule.same_iff.1 h
  have hhead : r.head = r'.head := by
    rw [hr.heads, hr'.heads, List.singleton_perm_singleton] at hheads
    exact hheads
  refine ⟨_, (mem_deltaRules hr'.nodup).2 ⟨l, hbody.mem_iff.1 hl, hb, rfl⟩,
    DeltaRule.same_eq_true.2 ⟨rfl, hhead, ?_⟩⟩
  have herase := hbody.erase l
  have hinj : ∀ a ∈ r.body.erase l, ∀ b ∈ r.body.erase l, a.table.table = b.table.table →
      a.arguments.length = b.arguments.length → a = b := fun a ha b hb =>
    hr.eq_of_table (List.mem_of_mem_erase ha) (List.mem_of_mem_erase hb)
  refine congrArg₂ (· ++ ·) (sortLiterals_congr (herase.filter _) fun a ha b hb => ?_)
    (sortLiterals_congr (herase.filter _) fun a ha b hb => ?_)
  · exact hinj a (List.mem_of_mem_filter ha) b (List.mem_of_mem_filter hb)
  · exact hinj a (List.mem_of_mem_filter ha) b (List.mem_of_mem_filter hb)

theorem Rule.deltaRules_distinct (hr : r.Viewable reg fuel) :
    (r.deltaRules reg).Pairwise fun d d' => d.same d' = false := by
  rw [Rule.deltaRules, List.pairwise_filterMap]
  have hidx : r.body.zipIdx.Pairwise fun p p' => p.1 ≠ p'.1 := by
    rw [← List.pairwise_map (f := Prod.fst) (R := (· ≠ ·)), List.zipIdx_map_fst]
    exact hr.nodup
  refine hidx.imp fun {p p'} hne d hd d' hd' => Bool.eq_false_iff.2 fun hsame => hne ?_
  simp only at hd hd'
  split_ifs at hd hd'
  simp only [Option.some.injEq] at hd hd'
  subst hd hd'
  exact (DeltaRule.same_eq_true.1 hsame).1

namespace DeltaRuleTheory

variable {th th' : DeltaRuleTheory V} {ds : List (DeltaRule V)}

theorem rulesWithTrigger_insertDelta : (th.insertDelta d).rulesWithTrigger table
    = if table = d.trigger.table.table ∧ ¬ (th.rulesWithTrigger table).any (·.same d)
      then th.rulesWithTrigger table ++ [d] else th.rulesWithTrigger table := by
  unfold insertDelta rulesWithTrigger
  by_cases ht : table = d.trigger.table.table
  · subst ht
    simp only [AList.lookup_insert, Option.getD_some, true_and]
    split_ifs <;> simp_all
  · rw [AList.lookup_insert_ne ht]
    simp [ht]

theorem rulesWithTrigger_deleteDelta : (th.deleteDelta d).rulesWithTrigger table
    = if table = d.trigger.table.table then (th.rulesWithTrigger table).eraseP (·.same d)
      else th.rulesWithTrigger table := by
  unfold deleteDelta rulesWithTrigger
  by_cases ht : table = d.trigger.table.table
  · subst ht
    simp only [if_true]
    split_ifs with he
    · rw [AList.lookup_erase, Option.getD_none]
      exact (List.isEmpty_iff.1 he).symm
    · rw [AList.lookup_insert, Option.getD_some]
  · simp only [if_neg ht]
    split_ifs
    · rw [AList.lookup_erase_ne ht]
    · rw [AList.lookup_insert_ne ht]

/-- The delta rules of a theory are those of its rules, each by the table of its trigger. -/
structure Tracks (reg : BuiltinRegistry V) (fuel : ℕ) (D : Set String) (th : DeltaRuleTheory V) :
    Prop where
  viewable : ∀ r ∈ th.originals, r.Viewable reg fuel
  heads : ∀ r ∈ th.originals, r.head.table.table ∈ D
  views : ∀ table, th.isView table = true → table ∈ D
  sound : ∀ table, ∀ d ∈ th.rulesWithTrigger table,
    d.trigger.table.table = table ∧ ∃ r ∈ th.originals, d ∈ r.deltaRules reg
  complete : ∀ r ∈ th.originals, ∀ d ∈ r.deltaRules reg, d ∈ th.rulesWithTrigger d.trigger.table.table
  distinct : ∀ table, (th.rulesWithTrigger table).Pairwise fun d d' => d.same d' = false

theorem tracks_empty : (empty : DeltaRuleTheory V).Tracks reg fuel D where
  viewable := by simp [empty]
  heads := by simp [empty]
  views := by simp [empty, isView]
  sound := by simp [empty, rulesWithTrigger]
  complete := by simp [empty]
  distinct := by simp [empty, rulesWithTrigger]

/-- Delta rules none of which is there yet are put at the ends. -/
theorem rulesWithTrigger_foldl_insertDelta : ∀ {ds : List (DeltaRule V)} {th : DeltaRuleTheory V},
    (∀ d ∈ ds, ∀ table, ∀ d' ∈ th.rulesWithTrigger table, d'.same d = false) →
    ds.Pairwise (fun d d' => d.same d' = false) → (ds.foldl insertDelta th).rulesWithTrigger table
      = th.rulesWithTrigger table ++ ds.filter (·.trigger.table.table = table)
  | [], th, _, _ => by simp
  | d :: ds, th, hnew, hds => by
    obtain ⟨hd, hds⟩ := List.pairwise_cons.1 hds
    obtain ⟨hnewd, hnew⟩ := List.forall_mem_cons.1 hnew
    have hany : ∀ table, (th.rulesWithTrigger table).any (·.same d) = false := fun table => by
      rw [List.any_eq_false]
      exact fun d' hd' => by simp [hnewd table d' hd']
    have hstep : ∀ table, (th.insertDelta d).rulesWithTrigger table
        = th.rulesWithTrigger table ++ [d].filter (·.trigger.table.table = table) := fun table => by
      rw [rulesWithTrigger_insertDelta, hany]
      by_cases ht : table = d.trigger.table.table
      · simp [ht]
      · simp [ht, Ne.symm ht]
    rw [List.foldl_cons, rulesWithTrigger_foldl_insertDelta (fun d' hd' table' x hx => ?_) hds, hstep,
      List.append_assoc, ← List.filter_append, List.singleton_append]
    rw [hstep, List.mem_append] at hx
    rcases hx with hx | hx
    · exact hnew d' hd' table' x hx
    · rw [List.mem_singleton.1 (List.mem_of_mem_filter hx)]
      exact hd d' hd'

/-- Delta rules are taken out wherever there is an equal one. -/
theorem rulesWithTrigger_foldl_deleteDelta : ∀ {ds : List (DeltaRule V)} {th : DeltaRuleTheory V},
    (th.rulesWithTrigger table).Pairwise (fun d d' => d.same d' = false) →
    (∀ d ∈ th.rulesWithTrigger table, d.trigger.table.table = table) →
    (ds.foldl deleteDelta th).rulesWithTrigger table
      = (th.rulesWithTrigger table).filter fun d => !ds.any d.same
  | [], th, _, _ => by simp
  | d :: ds, th, hdistinct, htrigger => by
    have hstep : (th.deleteDelta d).rulesWithTrigger table
        = (th.rulesWithTrigger table).filter fun d' => !d'.same d := by
      rw [rulesWithTrigger_deleteDelta]
      split_ifs with ht
      · refine eraseP_eq_filter (hdistinct.imp fun {a b} hab ha => Bool.eq_false_iff.2 fun hb => ?_)
        rw [DeltaRule.same_eq_true] at ha hb
        have hsame : a.same b = true := DeltaRule.same_eq_true.2
          ⟨ha.1.trans hb.1.symm, ha.2.1.trans hb.2.1.symm, ha.2.2.trans hb.2.2.symm⟩
        rw [hab] at hsame
        cases hsame
      · refine (List.filter_eq_self.2 fun d' hd' => ?_).symm
        rw [Bool.not_eq_true', Bool.eq_false_iff]
        intro hsame
        rw [← htrigger d' hd', (DeltaRule.same_eq_true.1 hsame).1] at ht
        exact ht rfl
    rw [List.foldl_cons, rulesWithTrigger_foldl_deleteDelta (by rw [hstep]; exact hdistinct.filter _)
      fun d' hd' => htrigger d' (List.mem_of_mem_filter (hstep ▸ hd')), hstep, List.filter_filter]
    refine List.filter_congr fun d' _ => ?_
    rw [List.any_cons, Bool.not_or, Bool.and_comm]

theorem isView_foldl_insertDelta : ∀ {ds : List (DeltaRule V)} {th : DeltaRuleTheory V},
    (ds.foldl insertDelta th).isView table = true →
      th.isView table = true ∨ ∃ d ∈ ds, d.head.table.table = table
  | [], _, h => .inl h
  | d :: ds, th, h => by
    rcases @isView_foldl_insertDelta ds _ h with h | ⟨d', hd', ht⟩
    · by_cases ht : table = d.head.table.table
      · exact .inr ⟨d, List.mem_cons_self, ht.symm⟩
      · refine .inl ?_
        simpa [isView, insertDelta, Function.update_of_ne ht] using h
    · exact .inr ⟨d', List.mem_cons_of_mem _ hd', ht⟩

theorem isView_foldl_deleteDelta : ∀ {ds : List (DeltaRule V)} {th : DeltaRuleTheory V},
    (ds.foldl deleteDelta th).isView table = true → th.isView table = true
  | [], _, h => h
  | d :: ds, th, h => by
    have h := @isView_foldl_deleteDelta ds _ h
    by_cases ht : table = d.head.table.table
    · subst ht
      simp only [isView, deleteDelta, Function.update_self, decide_eq_true_eq] at h ⊢
      omega
    · simpa [isView, deleteDelta, Function.update_of_ne ht] using h

theorem eraseP_originals (th : DeltaRuleTheory V) (rule : Rule V) :
    th.originals.eraseP (·.same rule) = th.originals.filter fun r => !r.same rule :=
  eraseP_eq_filter (th.distinct.imp fun {a b} hab ha => Bool.eq_false_iff.2 fun hb => by
    rw [Rule.same_trans ha (Rule.same_symm hb)] at hab
    cases hab)

/-- Some changes of a theory that tracks its rules. -/
inductive Changed (reg : BuiltinRegistry V) (fuel : ℕ) (D : Set String) (th : DeltaRuleTheory V)
    (rule rule' : Rule V) (insert : Bool) : Option (DeltaRuleTheory V × Rule V) → Prop
  | noop (h : insert = th.contains rule) : Changed reg fuel D th rule rule' insert none
  | changed {th' : DeltaRuleTheory V} (h : insert ≠ th.contains rule) (tracks : th'.Tracks reg fuel D)
      (originals : th'.originals = if insert then th.originals ++ [rule']
        else th.originals.filter fun r => !r.same rule') :
      Changed reg fuel D th rule rule' insert (some (th', rule'))

theorem Tracks.insertRule (h : th.Tracks reg fuel D) (hv : r.Viewable reg fuel)
    (hD : r.head.table.table ∈ D) (hnew : ∀ r' ∈ th.originals, r'.same r = false)
    (horig : th'.originals = th.originals ++ [r])
    (hviews : th'.views = ((r.deltaRules reg).foldl insertDelta th).views)
    (hrules : th'.rules = ((r.deltaRules reg).foldl insertDelta th).rules) : th'.Tracks reg fuel D := by
  have hnewd : ∀ d ∈ r.deltaRules reg, ∀ table, ∀ d' ∈ th.rulesWithTrigger table, d'.same d = false := by
    intro d hd table d' hd'
    obtain ⟨-, r', hr', hd'⟩ := h.sound table d' hd'
    refine Bool.eq_false_iff.2 fun hsame => ?_
    have := hnew r' hr'
    rw [Rule.same_of_deltaRules (h.viewable r' hr') hv hd' hd hsame] at this
    cases this
  have htriggers : ∀ table, th'.rulesWithTrigger table
      = th.rulesWithTrigger table ++ (r.deltaRules reg).filter (·.trigger.table.table = table) :=
    fun table => by
      rw [← rulesWithTrigger_foldl_insertDelta hnewd (Rule.deltaRules_distinct hv), rulesWithTrigger,
        hrules]
      rfl
  have hmem : ∀ r' ∈ th'.originals, r' ∈ th.originals ∨ r' = r := fun r' hr' => by
    rw [horig, List.mem_append, List.mem_singleton] at hr'
    exact hr'
  refine ⟨fun r' hr' => ?_, fun r' hr' => ?_, fun table ht => ?_, fun table d hd => ?_,
    fun r' hr' d hd => ?_, fun table => ?_⟩
  · rcases hmem r' hr' with hr' | rfl
    · exact h.viewable r' hr'
    · exact hv
  · rcases hmem r' hr' with hr' | rfl
    · exact h.heads r' hr'
    · exact hD
  · rw [isView, hviews] at ht
    rcases isView_foldl_insertDelta ht with ht | ⟨d, hd, rfl⟩
    · exact h.views table ht
    · obtain ⟨l, -, -, rfl⟩ := (Rule.mem_deltaRules hv.nodup).1 hd
      exact hD
  · rw [htriggers, List.mem_append, List.mem_filter, decide_eq_true_eq] at hd
    rcases hd with hd | ⟨hd, ht⟩
    · obtain ⟨ht, r', hr', hd⟩ := h.sound table d hd
      exact ⟨ht, r', by rw [horig]; exact List.mem_append_left _ hr', hd⟩
    · exact ⟨ht, r, by rw [horig]; exact List.mem_append_right _ (List.mem_singleton_self _), hd⟩
  · rw [htriggers, List.mem_append]
    rcases hmem r' hr' with hr' | rfl
    · exact .inl (h.complete r' hr' d hd)
    · exact .inr (List.mem_filter.2 ⟨hd, by simp⟩)
  · rw [htriggers, List.pairwise_append]
    refine ⟨h.distinct table, (Rule.deltaRules_distinct hv).filter _, fun d' hd' d hd => ?_⟩
    exact hnewd d (List.mem_of_mem_filter hd) table d' hd'

theorem Tracks.deleteRule (h : th.Tracks reg fuel D) (hv : r.Viewable reg fuel)
    (horig : th'.originals = th.originals.filter fun r' => !r'.same r)
    (hviews : th'.views = ((r.deltaRules reg).foldl deleteDelta th).views)
    (hrules : th'.rules = ((r.deltaRules reg).foldl deleteDelta th).rules) : th'.Tracks reg fuel D := by
  have htriggers : ∀ table, th'.rulesWithTrigger table
      = (th.rulesWithTrigger table).filter fun d => !(r.deltaRules reg).any d.same := fun table => by
    rw [← rulesWithTrigger_foldl_deleteDelta (h.distinct table) fun d hd => (h.sound table d hd).1,
      rulesWithTrigger, hrules]
    rfl
  have hmem : ∀ {r'}, r' ∈ th'.originals ↔ r' ∈ th.originals ∧ r'.same r = false := fun {r'} => by
    rw [horig, List.mem_filter, Bool.not_eq_true']
  have hkept : ∀ {table d}, d ∈ th'.rulesWithTrigger table
      ↔ d ∈ th.rulesWithTrigger table ∧ ∀ d' ∈ r.deltaRules reg, d.same d' = false := fun {table d} => by
    rw [htriggers, List.mem_filter, Bool.not_eq_true', List.any_eq_false]
    simp only [Bool.not_eq_true]
  refine ⟨fun r' hr' => h.viewable r' (hmem.1 hr').1, fun r' hr' => h.heads r' (hmem.1 hr').1,
    fun table ht => ?_, fun table d hd => ?_, fun r' hr' d hd => ?_, fun table => ?_⟩
  · rw [isView, hviews] at ht
    exact h.views table (isView_foldl_deleteDelta ht)
  · obtain ⟨hd, hother⟩ := hkept.1 hd
    obtain ⟨ht, r', hr', hdr⟩ := h.sound table d hd
    refine ⟨ht, r', hmem.2 ⟨hr', Bool.eq_false_iff.2 fun hsame => ?_⟩, hdr⟩
    obtain ⟨d', hd', he⟩ := Rule.exists_deltaRule_of_same (h.viewable r' hr') hv hsame hdr
    rw [hother d' hd'] at he
    cases he
  · obtain ⟨hr', hne⟩ := hmem.1 hr'
    refine hkept.2 ⟨h.complete r' hr' d hd, fun d' hd' => Bool.eq_false_iff.2 fun hsame => ?_⟩
    rw [Rule.same_of_deltaRules (h.viewable r' hr') hv hd hd' hsame] at hne
    cases hne
  · rw [htriggers]
    exact (h.distinct table).filter _

/-- Rules are inserted and deleted without errors. -/
theorem Tracks.modify (h : th.Tracks reg fuel D) (hr : reorderForSafety reg rule = some r)
    (hv : r.Viewable reg fuel) (hD : r.head.table.table ∈ D) (insert : Bool) :
    ∃ o, th.modify reg rule insert = .ok o ∧ Changed reg fuel D th rule r insert o := by
  unfold DeltaRuleTheory.modify
  by_cases hnoop : insert = th.contains rule
  · exact ⟨none, by rw [dif_pos hnoop]; rfl, .noop hnoop⟩
  · rw [dif_neg hnoop]
    split
    · rename_i hnone
      rw [hr] at hnone
      cases hnone
    · rename_i r' hr'
      rw [hr, Option.some.injEq] at hr'
      subst hr'
      by_cases hins : insert = true
      · rw [dif_pos hins]
        refine ⟨_, rfl, .changed hnoop (h.insertRule hv hD ?_ rfl rfl rfl) (if_pos hins).symm⟩
        exact same_of_not_contains (by simpa [hins] using hnoop) hr
      · rw [dif_neg hins]
        refine ⟨_, rfl, .changed hnoop (h.deleteRule hv (eraseP_originals th r) rfl rfl) ?_⟩
        rw [if_neg hins]
        exact eraseP_originals th r

end DeltaRuleTheory

end Congress
