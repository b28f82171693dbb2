import Congress.DeltaRules

/-!
# Delta rules follow the rules

What a theory keeps is the delta rules of its rules, grouped by the tables of their triggers, with counts
of the tables in heads and of all tables (`Follows`). Delta rules of two rules are never equal, and those
of equal rules are, so that deleting a rule takes out what inserting it put in (`deltaRules_track`).
-/

namespace Congress

open Lib Function

set_option linter.unusedSectionVars false

/-! ## Literals that can be compared -/

theorem firstDifference_self {α : Type} [DecidableEq α] : ∀ as : List α, firstDifference as as = none
  | [] => rfl
  | a :: as => by rw [firstDifference, if_pos rfl, firstDifference_self as]

theorem Literal.comparable_refl (l : Literal ObjectConstant) : l.Comparable l where
  modal := rfl
  arguments _ p hp := by cases (firstDifference_self _).symm.trans hp
  named _ p hp := by cases (firstDifference_self _).symm.trans hp
  direction _ := ⟨fun h => lt_irrefl _ h.1, fun h => lt_irrefl _ h.1⟩

/-! ## What a theory keeps along with its delta rules -/

namespace DeltaRule

variable {d d' d'' : DeltaRule ObjectConstant}

theorem same_iff : d.same d' = true ↔ d.trigger = d'.trigger ∧ d.head = d'.head ∧ d.body = d'.body := by
  simp only [same, Bool.and_eq_true, decide_eq_true_eq, and_assoc]

theorem same_refl (d : DeltaRule ObjectConstant) : d.same d = true := same_iff.2 ⟨rfl, rfl, rfl⟩

theorem same_comm : d.same d' = d'.same d := Bool.eq_iff_iff.2 (by
  rw [same_iff, same_iff, eq_comm, eq_comm (a := d.head), eq_comm (a := d.body)])

theorem same_trans (h : d.same d' = true) (h' : d'.same d'' = true) : d.same d'' = true := by
  rw [same_iff] at h h' ⊢
  exact ⟨h.1.trans h'.1, h.2.1.trans h'.2.1, h.2.2.trans h'.2.2⟩

theorem tablenames_eq_of_same (h : d.same d' = true) : d.tablenames = d'.tablenames := by
  obtain ⟨ht, hh, hb⟩ := same_iff.1 h
  rw [tablenames, tablenames, ht, hh, hb]

/-- No two of the delta rules are equal. -/
def Distinct (D : List (DeltaRule ObjectConstant)) : Prop := D.Pairwise fun d d' => d.same d' = false

theorem Distinct.eraseP_eq {D : List (DeltaRule ObjectConstant)} (h : Distinct D)
    (d : DeltaRule ObjectConstant) : D.eraseP (·.same d) = D.filter fun d' => !d'.same d := by
  refine eraseP_eq_filter (h.imp fun {a b} hab ha => Bool.eq_false_iff.2 fun hb => ?_)
  rw [same_trans ha (same_comm.trans hb)] at hab
  cases hab

end DeltaRule

namespace DeltaRules

open DeltaRule Theory

variable {reg : BuiltinRegistry ObjectConstant} {H : Hashes} {th th' : Theory}
  {D ds : List (DeltaRule ObjectConstant)} {d : DeltaRule ObjectConstant} {r r' : Rule ObjectConstant}

/-- The dictionaries are those of a list of delta rules. -/
structure Follows (D : List (DeltaRule ObjectConstant)) (th : Theory) : Prop where
  rules : th.rules = group (·.trigger.table.table) D
  views : th.views = counts (fun d => [d.head.table.table]) D
  allTables : th.allTables = counts tablenames D

theorem follows_empty : Follows [] empty := ⟨rfl, rfl, rfl⟩

theorem Follows.insertDelta (h : Follows D th) (hd : ∀ d' ∈ D, d'.same d = false) :
    Follows (D ++ [d]) (th.insertDelta d) where
  rules := by
    have hany : ((th.rules d.trigger.table.table).getD []).any (·.same d) = false := by
      rw [h.rules, group_getD, List.any_eq_false]
      exact fun d' hd' => Bool.eq_false_iff.1 (hd d' (List.mem_filter.1 hd').1)
    rw [← group_append, ← h.rules]
    unfold Theory.insertDelta
    dsimp only
    rw [hany]
    rfl
  views := by
    rw [← counts_append (fun d : DeltaRule ObjectConstant => [d.head.table.table]) D d (List.nodup_singleton _),
      ← h.views]
    rfl
  allTables := by
    rw [← counts_append tablenames D d (List.nodup_dedup _), ← h.allTables]
    rfl

theorem Follows.deleteDelta (h : Follows D th) {a : DeltaRule ObjectConstant} (ha : a ∈ D)
    (hd : a.same d = true) : ∃ th', th.deleteDelta d = .ok th' ∧ Follows (D.eraseP (·.same d)) th'
      ∧ th'.originals = th.originals := by
  have hkey : ∀ b : DeltaRule ObjectConstant, b.same d = true → b.trigger.table.table = d.trigger.table.table :=
    fun b hb => by rw [(same_iff.1 hb).1]
  obtain ⟨rules, hrules⟩ : ∃ rules, th.rules d.trigger.table.table = some rules := by
    rw [h.rules]
    unfold group
    rw [if_neg fun hnil => List.not_mem_nil (hnil ▸ List.mem_filter.2 ⟨ha, decide_eq_true (hkey a hd)⟩)]
    exact ⟨_, rfl⟩
  have hdelete : th.deleteDelta d = .ok { th with
      views := decrement th.views d.head.table.table
      allTables := d.tablenames.foldl decrement th.allTables
      rules := update th.rules d.trigger.table.table
        (if rules.eraseP (·.same d) = [] then none else some (rules.eraseP (·.same d))) } := by
    unfold Theory.deleteDelta
    rw [hrules]
  refine ⟨_, hdelete, ⟨?_, ?_, ?_⟩, rfl⟩
  · rw [← group_eraseP hkey, ← h.rules, hrules]
    rfl
  · rw [← counts_eraseP ha hd (List.nodup_singleton d.head.table.table) fun b hb k => by
      rw [(same_iff.1 hb).2.1], ← h.views]
    rfl
  · rw [← counts_eraseP ha hd (List.nodup_dedup _) fun b hb k => by
      rw [tablenames_eq_of_same hb]
      rfl, ← h.allTables]
    rfl

/-- Delta rules are inserted one after the other. -/
theorem Follows.insertAll : ∀ {ds D : List (DeltaRule ObjectConstant)} {th : Theory}, Follows D th →
    Distinct (D ++ ds) → Follows (D ++ ds) (ds.foldl Theory.insertDelta th)
  | [], D, th, h, _ => by rwa [List.append_nil]
  | d :: ds, D, th, h, hD => by
    have hd : ∀ d' ∈ D, d'.same d = false := fun d' hd' =>
      (List.pairwise_append.1 hD).2.2 d' hd' d (List.mem_cons_self ..)
    rw [List.append_cons] at hD ⊢
    exact (h.insertDelta hd).insertAll hD

theorem insertAll_originals : ∀ (ds : List (DeltaRule ObjectConstant)) (th : Theory),
    (ds.foldl Theory.insertDelta th).originals = th.originals
  | [], _ => rfl
  | _ :: ds, _ => insertAll_originals ds _

/-- Delta rules are deleted one after the other, each of which is there. -/
theorem Follows.deleteAll : ∀ {ds D : List (DeltaRule ObjectConstant)} {th : Theory}, Follows D th →
    Distinct D → Distinct ds → (∀ d ∈ ds, ∃ a ∈ D, a.same d = true) →
    ∃ th', ds.foldlM Theory.deleteDelta th = .ok th'
      ∧ Follows (D.filter fun a => ds.all fun d => !a.same d) th' ∧ th'.originals = th.originals
  | [], D, th, h, _, _, _ => ⟨th, rfl, by simpa using h, rfl⟩
  | d :: ds, D, th, h, hD, hds, hmem => by
    obtain ⟨hd, hds⟩ := List.pairwise_cons.1 hds
    obtain ⟨a, ha, had⟩ := hmem d (List.mem_cons_self ..)
    obtain ⟨th₁, hth₁, h₁, horiginals₁⟩ := h.deleteDelta ha had
    rw [hD.eraseP_eq] at h₁
    obtain ⟨th', hth', h', horiginals⟩ := h₁.deleteAll (hD.filter _) hds fun d' hd' => by
      obtain ⟨b, hb, hbd⟩ := hmem d' (List.mem_cons_of_mem _ hd')
      refine ⟨b, List.mem_filter.2 ⟨hb, ?_⟩, hbd⟩
      -- what equals a later one does not equal this one
      rw [Bool.not_eq_true']
      refine Bool.eq_false_iff.2 fun hb' => ?_
      have hfalse := hd d' hd'
      rw [same_trans (same_comm.trans hb') hbd] at hfalse
      cases hfalse
    refine ⟨th', ?_, ?_, horiginals.trans horiginals₁⟩
    · rw [List.foldlM_cons, hth₁]
      exact hth'
    · rw [List.filter_filter] at h'
      simp only [List.all_cons, Bool.and_comm] at h' ⊢
      exact h'

/-! ## The delta rules of a rule -/

theorem Plain.moreHeads (h : Plain reg r) : r.moreHeads = [] := by
  have hregular := h.regular
  rw [Rule.isRegular, Bool.and_eq_true, List.isEmpty_iff] at hregular
  exact hregular.1

theorem Plain.sorts (h : Plain reg r) : r.Sorts where
  heads := by
    refine keyedOn_of_comparable fun l hl l' hl' => ?_
    rw [Set.mem_ofPred_eq, Rule.heads, h.moreHeads, List.mem_singleton] at hl hl'
    rw [hl, hl']
    exact Literal.comparable_refl _
  body := keyedOn_of_comparable h.comparable

theorem Plain.same_iff (h : Plain reg r) (h' : Plain reg r') :
    r.same r' = true ↔ r.head = r'.head ∧ r.body.Perm r'.body := by
  rw [Rule.same_iff, Rule.heads, Rule.heads, h.moreHeads, h'.moreHeads, List.singleton_perm]
  exact and_congr_left' ⟨fun h => (List.cons.inj h).1, fun h => by rw [h]⟩

/-- What is reordered stays plain, and is then left alone. -/
theorem Plain.reordered (h : Plain reg r) (hr : reorderForSafety reg r = some r') :
    Plain reg r' ∧ reorderForSafety reg r' = some r' := by
  obtain ⟨hhead, hmore, hbody, hsafe⟩ := reorderForSafety_safe hr
  have hr' := reorderForSafety_of_safe hsafe
  refine ⟨⟨?_, by rw [hr']; simp, fun l hl l' hl' => ?_, ?_⟩, hr'⟩
  · rw [Rule.isRegular, hhead, hmore]
    exact h.regular
  · exact h.comparable l (hbody.mem_iff.1 hl) l' (hbody.mem_iff.1 hl')
  · exact (hbody.filter _).nodup_iff.2 h.distinct

/-- The body of a delta rule is that which was given, in an order that does not depend on how it was. -/
theorem make_ok (reg : BuiltinRegistry ObjectConstant) {S : Set (Literal ObjectConstant)}
    (hS : KeyedOn Literal.lt Literal.orderKey S) (trigger head : Literal ObjectConstant)
    {body : List (Literal ObjectConstant)} (hbody : ∀ l ∈ body, l ∈ S)
    (original : Rule ObjectConstant) : ∃ d, DeltaRule.make reg trigger head body original = .ok d
      ∧ d.trigger = trigger ∧ d.head = head ∧ d.body.Perm body
      ∧ ∀ body' original', body.Perm body' → ∃ d',
        DeltaRule.make reg trigger head body' original' = .ok d' ∧ d.same d' = true := by
  have hfilter : ∀ p : Literal ObjectConstant → Bool, ∀ l ∈ body.filter p, l ∈ S :=
    fun p l hl => hbody l (List.mem_filter.1 hl).1
  obtain ⟨ls, hls, hperm, -⟩ := sorted_ok hS (hfilter fun l => !l.isBuiltin reg true)
  obtain ⟨ls', hls', hperm', -⟩ := sorted_ok hS (hfilter fun l => l.isBuiltin reg true)
  refine ⟨⟨trigger, head, ls ++ ls', original⟩, ?_, rfl, rfl, ?_, fun body' original' hp => ?_⟩
  · rw [DeltaRule.make, hls, hls']
    rfl
  · refine (hperm.append hperm').trans (List.perm_append_comm.trans ?_)
    exact List.filter_append_perm (fun l => l.isBuiltin reg true) body
  · refine ⟨⟨trigger, head, ls ++ ls', original'⟩, ?_, same_iff.2 ⟨rfl, rfl, rfl⟩⟩
    rw [sorted_perm hS Literal.orderKey_injective (hfilter _) (hp.filter _)] at hls hls'
    rw [DeltaRule.make, hls, hls']
    rfl

/-- A delta rule of a rule is made of a literal of its body and the others. -/
structure IsDelta (reg : BuiltinRegistry ObjectConstant) (r : Rule ObjectConstant)
    (d : DeltaRule ObjectConstant) : Prop where
  ordinary : d.trigger.isBuiltin reg true = false
  made : ∃ body original, (d.trigger :: body).Perm r.body
    ∧ DeltaRule.make reg d.trigger r.head body original = .ok d

theorem computeFrom_ok (h : Plain reg r) : ∀ {i : ℕ} {literals : List (Literal ObjectConstant)},
    r.body.drop i = literals → ∃ ds, computeFrom reg r i literals = .ok ds
      ∧ ds.map (·.trigger) = literals.filter (fun l => !l.isBuiltin reg true) ∧ ∀ d ∈ ds, IsDelta reg r d
  | i, [], _ => ⟨[], rfl, rfl, by simp⟩
  | i, l :: literals, hdrop => by
    have hi : i < r.body.length := by
      by_contra hle
      rw [List.drop_eq_nil_of_le (not_lt.1 hle)] at hdrop
      cases hdrop
    obtain ⟨rfl, hrest⟩ : r.body[i] = l ∧ r.body.drop (i + 1) = literals := by
      rw [List.drop_eq_getElem_cons hi, List.cons.injEq] at hdrop
      exact hdrop
    obtain ⟨ds, hds, htriggers, hall⟩ := computeFrom_ok h hrest
    unfold computeFrom
    rcases hb : r.body[i].isBuiltin reg true with _ | _
    · have hperm : (r.body[i] :: r.body.eraseIdx i).Perm r.body := List.getElem_cons_eraseIdx_perm hi
      obtain ⟨d, hd, htrigger, -, -, -⟩ := make_ok reg h.sorts.body r.body[i] r.head
        (fun l hl => hperm.mem_iff.1 (List.mem_cons_of_mem _ hl)) r
      refine ⟨d :: ds, by simp [hd, hds, bind, Except.bind, pure, Except.pure], ?_, ?_⟩
      · rw [List.filter_cons_of_pos (by rw [hb]; rfl), List.map_cons, htriggers, htrigger]
      · refine List.forall_mem_cons.2 ⟨⟨htrigger ▸ hb, _, r, htrigger ▸ hperm, ?_⟩, hall⟩
        rw [htrigger]
        exact hd
    · exact ⟨ds, by simpa using hds, by rw [List.filter_cons_of_neg (by rw [hb]; decide), htriggers], hall⟩

/-- What `compute_delta_rules` returns for a rule. -/
def deltasOf (reg : BuiltinRegistry ObjectConstant) (r : Rule ObjectConstant) :
    List (DeltaRule ObjectConstant) :=
  match compute reg r with
  | .ok (_, ds) => ds
  | .error _ => []

/-- A plain rule has a delta rule for each literal that is no builtin. -/
theorem Plain.compute_ok (h : Plain reg r) : ∃ r', reorderForSafety reg r = some r'
    ∧ compute reg r = .ok (r', deltasOf reg r) ∧ deltasOf reg r' = deltasOf reg r
    ∧ ((deltasOf reg r).map (·.trigger)).Perm (r.body.filter fun l => !l.isBuiltin reg true)
    ∧ ∀ d ∈ deltasOf reg r, IsDelta reg r d := by
  obtain ⟨r', hr⟩ := Option.ne_none_iff_exists'.1 h.safe
  obtain ⟨h', hr'⟩ := h.reordered hr
  obtain ⟨hhead, -, hbody, -⟩ := reorderForSafety_safe hr
  obtain ⟨ds, hds, htriggers, hall⟩ := computeFrom_ok h' (i := 0) List.drop_zero
  have hcompute : ∀ {q}, reorderForSafety reg q = some r' → compute reg q = .ok (r', ds) := fun {q} hq => by
    rw [compute, hq]
    dsimp only
    rw [hds]
    rfl
  have hof : ∀ {q}, reorderForSafety reg q = some r' → deltasOf reg q = ds := fun {q} hq => by
    rw [deltasOf, hcompute hq]
  refine ⟨r', hr, ?_, (hof hr').trans (hof hr).symm, ?_, fun d hd => ?_⟩
  · rw [hof hr, hcompute hr]
  · rw [hof hr, htriggers]
    exact hbody.filter _
  · rw [hof hr] at hd
    obtain ⟨hordinary, body, original, hperm, hmake⟩ := hall d hd
    exact ⟨hordinary, body, original, hperm.trans hbody, hhead ▸ hmake⟩

theorem IsDelta.parts (hr : Plain reg r) (h : IsDelta reg r d) :
    d.head = r.head ∧ (d.trigger :: d.body).Perm r.body := by
  obtain ⟨-, body, original, hperm, hmake⟩ := h
  obtain ⟨d', hd', -, hhead, hbody, -⟩ := make_ok reg hr.sorts.body d.trigger r.head
    (fun l hl => hperm.mem_iff.1 (List.mem_cons_of_mem _ hl)) original
  obtain rfl : d = d' := Except.ok.inj (hmake.symm.trans hd')
  exact ⟨hhead, (hbody.cons _).trans hperm⟩

/-- Equal delta rules come from equal rules. -/
theorem IsDelta.same (hr : Plain reg r) (hr' : Plain reg r') (h : IsDelta reg r d)
    {d' : DeltaRule ObjectConstant} (h' : IsDelta reg r' d') (hd : d.same d' = true) : r.same r' = true := by
  obtain ⟨hhead, hperm⟩ := h.parts hr
  obtain ⟨hhead', hperm'⟩ := h'.parts hr'
  obtain ⟨ht, hh, hb⟩ := same_iff.1 hd
  rw [hr.same_iff hr', ← hhead, ← hhead', hh]
  refine ⟨rfl, hperm.symm.trans ?_⟩
  rwa [ht, hb]

/-- Equal rules have equal delta rules. -/
theorem Plain.same_delta (hr : Plain reg r) (hr' : Plain reg r') (hsame : r.same r' = true)
    (hd : d ∈ deltasOf reg r') : ∃ a ∈ deltasOf reg r, a.same d = true := by
  obtain ⟨-, -, -, -, htriggers, hall⟩ := hr.compute_ok
  obtain ⟨-, -, -, -, -, hall'⟩ := hr'.compute_ok
  obtain ⟨hhead, hbody⟩ := (hr.same_iff hr').1 hsame
  obtain ⟨hordinary, body', original', hperm', hmake'⟩ := hall' d hd
  have hmem : d.trigger ∈ r.body.filter fun l => !l.isBuiltin reg true :=
    List.mem_filter.2 ⟨hbody.mem_iff.2 (hperm'.mem_iff.1 (List.mem_cons_self ..)), by rw [hordinary]; rfl⟩
  obtain ⟨a, ha, hat⟩ := List.mem_map.1 (htriggers.mem_iff.2 hmem)
  obtain ⟨-, body, original, hperm, hmake⟩ := hall a ha
  rw [hat] at hperm hmake
  obtain ⟨a', ha', -, -, -, hothers⟩ := make_ok reg hr.sorts.body d.trigger r.head
    (fun l hl => hperm.mem_iff.1 (List.mem_cons_of_mem _ hl)) original
  obtain rfl : a = a' := Except.ok.inj (hmake.symm.trans ha')
  obtain ⟨d', hd', hsame'⟩ := hothers body' original'
    (List.perm_cons d.trigger |>.1 (hperm.trans (hbody.trans hperm'.symm)))
  rw [hhead, hmake'] at hd'
  obtain rfl : d = d' := Except.ok.inj hd'
  exact ⟨a, ha, hsame'⟩

theorem Plain.distinct_deltas (h : Plain reg r) : Distinct (deltasOf reg r) := by
  obtain ⟨-, -, -, -, htriggers, -⟩ := h.compute_ok
  have hnodup := htriggers.nodup_iff.2 h.distinct
  refine (List.pairwise_map.1 hnodup).imp fun {a b} hab => Bool.eq_false_iff.2 fun hsame => ?_
  exact hab (DeltaRule.same_iff.1 hsame).1

/-! ## Histories -/

/-- The member that is sought is found, and what remains is the list without it. -/
theorem splitAtMember_eq {k : ℤ} : ∀ {members : List (Rule ObjectConstant)},
    (∀ m ∈ members, isSought H r k m = .ok (m.same r)) →
    (splitAtMember H r k members = .ok none ∧ members.any (·.same r) = false)
      ∨ ∃ before after, splitAtMember H r k members = .ok (some (before, after))
        ∧ members.any (·.same r) = true ∧ before ++ after = members.eraseP (·.same r)
  | [], _ => .inl ⟨rfl, rfl⟩
  | m :: members, h => by
    obtain ⟨hm, hrest⟩ := List.forall_mem_cons.1 h
    rw [splitAtMember, hm, List.any_cons]
    rcases hsame : m.same r with _ | _
    · rw [List.eraseP_cons_of_neg (by rw [hsame]; decide)]
      rcases splitAtMember_eq hrest with ⟨hsplit, hany⟩ | ⟨before, after, hsplit, hany, heq⟩
      · exact .inl ⟨by rw [hsplit]; rfl, by rw [hany]; rfl⟩
      · exact .inr ⟨m :: before, after, by rw [hsplit]; rfl, by rw [hany]; rfl, by rw [← heq]; rfl⟩
    · rw [List.eraseP_cons_of_pos (by exact hsame)]
      exact .inr ⟨[], members, rfl, rfl, rfl⟩

/-- The theory is that of its rules. -/
structure Tracks (reg : BuiltinRegistry ObjectConstant) (th : Theory) : Prop where
  plain : ∀ r ∈ th.originals, Plain reg r ∧ reorderForSafety reg r = some r
  distinct : th.originals.Pairwise fun r r' => r.same r' = false
  follows : Follows (th.originals.flatMap (deltasOf reg)) th

theorem tracks_empty : Tracks reg empty := ⟨(fun _ h => by cases h), .nil, follows_empty⟩

/-- Delta rules of different rules are different. -/
theorem distinct_flatMap : ∀ {rs : List (Rule ObjectConstant)}, (∀ r ∈ rs, Plain reg r) →
    (rs.Pairwise fun r r' => r.same r' = false) → Distinct (rs.flatMap (deltasOf reg))
  | [], _, _ => .nil
  | r :: rs, hplain, hrs => by
    obtain ⟨hr, hplain⟩ := List.forall_mem_cons.1 hplain
    obtain ⟨hdiffer, hrs⟩ := List.pairwise_cons.1 hrs
    rw [List.flatMap_cons]
    refine List.pairwise_append.2 ⟨hr.distinct_deltas, distinct_flatMap hplain hrs, fun d hd d' hd' => ?_⟩
    obtain ⟨r', hr', hd'⟩ := List.mem_flatMap.1 hd'
    refine Bool.eq_false_iff.2 fun hsame => ?_
    obtain ⟨-, -, -, -, -, hall⟩ := hr.compute_ok
    obtain ⟨-, -, -, -, -, hall'⟩ := (hplain r' hr').compute_ok
    have hfalse := hdiffer r' hr'
    rw [(hall d hd).same hr (hplain r' hr') (hall' d' hd') hsame] at hfalse
    cases hfalse

theorem Tracks.sought (h : Tracks reg th) (hr : Plain reg r) : ∃ k, r.hash H = .ok k
    ∧ ∀ m ∈ th.originals, isSought H r k m = .ok (m.same r) := by
  obtain ⟨k, hk⟩ := Rule.hash_ok (H := H) hr.sorts
  exact ⟨k, hk, fun m hm => isSought_ok hr.sorts (h.plain m hm).1.sorts hk⟩

theorem Tracks.insert (h : Tracks reg th) (hr : Plain reg r) : ∃ th' b, th.insert reg H r = .ok (th', b)
    ∧ Tracks reg th' ∧ th'.originals = if th.originals.any (·.same r) then th.originals
      else th.originals ++ [(reorderForSafety reg r).getD r] := by
  obtain ⟨k, hk, hsought⟩ := h.sought (H := H) hr
  unfold Theory.insert
  rw [if_pos hr.regular, hk]
  rcases splitAtMember_eq hsought with ⟨hsplit, hany⟩ | ⟨before, after, hsplit, hany, -⟩
  · obtain ⟨r', hreorder, hcompute, hdeltas, -⟩ := hr.compute_ok
    obtain ⟨hplain', hr'⟩ := hr.reordered hreorder
    have hnew : ∀ m ∈ th.originals, m.same r' = false := fun m hm => by
      refine Bool.eq_false_iff.2 fun hsame => ?_
      refine List.any_eq_false.1 hany m hm ?_
      exact Rule.same_trans hsame (Rule.same_symm (reorderForSafety_same hreorder))
    have hplain : ∀ m ∈ th.originals ++ [r'], Plain reg m := fun m hm => by
      rcases List.mem_append.1 hm with hm | hm
      · exact (h.plain m hm).1
      · rw [List.mem_singleton.1 hm]
        exact hplain'
    have hpairwise : (th.originals ++ [r']).Pairwise fun r r' => r.same r' = false :=
      List.pairwise_append.2 ⟨h.distinct, List.pairwise_singleton .., fun m hm m' hm' => by
        rw [List.mem_singleton.1 hm']
        exact hnew m hm⟩
    have hdistinct := distinct_flatMap hplain hpairwise
    rw [List.flatMap_append, List.flatMap_singleton, hdeltas] at hdistinct
    have hfollows := h.follows.insertAll hdistinct
    refine ⟨{ (deltasOf reg r).foldl insertDelta th with originals := th.originals ++ [r'] }, true, ?_,
      ⟨fun m hm => ?_, hpairwise, ?_⟩, ?_⟩
    · simp only [bind, Except.bind, hsplit, hcompute]
      rfl
    · rcases List.mem_append.1 hm with hm | hm
      · exact h.plain m hm
      · rw [List.mem_singleton.1 hm]
        exact ⟨hplain', hr'⟩
    · show Follows ((th.originals ++ [r']).flatMap (deltasOf reg)) _
      rw [List.flatMap_append, List.flatMap_singleton, hdeltas]
      exact ⟨hfollows.rules, hfollows.views, hfollows.allTables⟩
    · rw [if_neg (by rw [hany]; decide), hreorder]
      rfl
  · refine ⟨th, false, ?_, h, ?_⟩
    · simp only [bind, Except.bind, hsplit]
      rfl
    · rw [if_pos hany]

/-- Taking a rule out takes out the delta rules that equal one of it. -/
theorem filter_deltas (hr : Plain reg r) : ∀ {rs : List (Rule ObjectConstant)}, (∀ m ∈ rs, Plain reg m) →
    (rs.flatMap (deltasOf reg)).filter (fun a => (deltasOf reg r).all fun d => !a.same d)
      = (rs.filter fun m => !m.same r).flatMap (deltasOf reg)
  | [], _ => rfl
  | m :: rs, hplain => by
    obtain ⟨hm, hplain⟩ := List.forall_mem_cons.1 hplain
    obtain ⟨-, -, -, -, -, hall⟩ := hm.compute_ok
    obtain ⟨-, -, -, -, -, hall'⟩ := hr.compute_ok
    rw [List.flatMap_cons, List.filter_append, filter_deltas hr hplain]
    rcases hsame : m.same r with _ | _
    · rw [List.filter_cons_of_pos (by rw [hsame]; rfl), List.flatMap_cons, List.filter_eq_self.2]
      refine fun a ha => List.all_eq_true.2 fun d hd => ?_
      rw [Bool.not_eq_true']
      refine Bool.eq_false_iff.2 fun h => ?_
      rw [(hall a ha).same hm hr (hall' d hd) h] at hsame
      cases hsame
    · rw [List.filter_cons_of_neg (by rw [hsame]; decide), List.filter_eq_nil_iff.2, List.nil_append]
      intro a ha hnone
      obtain ⟨d, hd, had⟩ := hr.same_delta hm (Rule.same_symm hsame) ha
      have hfalse := List.all_eq_true.1 hnone d hd
      rw [same_comm, had] at hfalse
      cases hfalse

theorem Tracks.delete (h : Tracks reg th) (hr : Plain reg r) : ∃ th' b, th.delete reg H r = .ok (th', b)
    ∧ Tracks reg th' ∧ th'.originals = th.originals.eraseP (·.same r) := by
  obtain ⟨k, hk, hsought⟩ := h.sought (H := H) hr
  unfold Theory.delete
  rw [hk]
  rcases splitAtMember_eq hsought with ⟨hsplit, hany⟩ | ⟨before, after, hsplit, hany, heq⟩
  · refine ⟨th, false, ?_, h, ?_⟩
    · simp only [bind, Except.bind, hsplit]
      rfl
    · rw [List.eraseP_of_forall_not fun m hm => List.any_eq_false.1 hany m hm]
  · obtain ⟨m₀, hm₀, hsame₀⟩ := List.any_eq_true.1 hany
    obtain ⟨r', hreorder, hcompute, hdeltas, -⟩ := hr.compute_ok
    have hplain : ∀ m ∈ th.originals, Plain reg m := fun m hm => (h.plain m hm).1
    have herase : th.originals.eraseP (·.same r) = th.originals.filter fun m => !m.same r := by
      refine eraseP_eq_filter (h.distinct.imp fun {a b} hab ha => Bool.eq_false_iff.2 fun hb => ?_)
      rw [Rule.same_trans ha (Rule.same_symm hb)] at hab
      cases hab
    obtain ⟨th₁, hth₁, hfollows, -⟩ := h.follows.deleteAll (distinct_flatMap hplain h.distinct)
      hr.distinct_deltas fun d hd => by
        obtain ⟨a, ha, had⟩ := (hplain m₀ hm₀).same_delta hr hsame₀ hd
        exact ⟨a, List.mem_flatMap.2 ⟨m₀, hm₀, ha⟩, had⟩
    rw [filter_deltas hr hplain, ← herase] at hfollows
    refine ⟨{ th₁ with originals := before ++ after }, true, ?_, ⟨fun m hm => ?_, ?_, ?_⟩, heq⟩
    · simp only [bind, Except.bind, hsplit, hcompute, hth₁]
      rfl
    · refine h.plain m (List.mem_of_mem_eraseP (p := fun m => m.same r) ?_)
      rw [← heq]
      exact hm
    · show (before ++ after).Pairwise _
      rw [heq, herase]
      exact h.distinct.filter _
    · show Follows ((before ++ after).flatMap (deltasOf reg)) _
      rw [heq]
      exact ⟨hfollows.rules, hfollows.views, hfollows.allTables⟩

/-- Every history of plain rules keeps the theory that of the rules that remain. -/
theorem Tracks.changeAll : ∀ {changes : List (Rule ObjectConstant × Bool)} {th : Theory}, Tracks reg th →
    (∀ c ∈ changes, Plain reg c.1) → ∃ th', th.changeAll reg H changes = .ok th' ∧ Tracks reg th'
      ∧ th'.originals = remaining reg th.originals changes
  | [], th, h, _ => ⟨th, rfl, h, rfl⟩
  | (r, true) :: changes, th, h, hchanges => by
    obtain ⟨hr, hchanges⟩ := List.forall_mem_cons.1 hchanges
    obtain ⟨th₁, b, hth₁, h₁, horiginals⟩ := h.insert (H := H) hr
    obtain ⟨th', hth', h', horiginals'⟩ := h₁.changeAll hchanges
    refine ⟨th', ?_, h', ?_⟩
    · rw [Theory.changeAll, if_pos rfl, hth₁]
      exact hth'
    · rw [horiginals', horiginals]
      rfl
  | (r, false) :: changes, th, h, hchanges => by
    obtain ⟨hr, hchanges⟩ := List.forall_mem_cons.1 hchanges
    obtain ⟨th₁, b, hth₁, h₁, horiginals⟩ := h.delete (H := H) hr
    obtain ⟨th', hth', h', horiginals'⟩ := h₁.changeAll hchanges
    refine ⟨th', ?_, h', ?_⟩
    · rw [Theory.changeAll, if_neg (by decide), hth₁]
      exact hth'
    · rw [horiginals', horiginals]
      rfl

theorem remaining_inserted : ∀ {rs : List (Rule ObjectConstant)} (before : List (Rule ObjectConstant)),
    ((before ++ rs).Pairwise fun r r' => r.same r' = false) → (∀ r ∈ rs, reorderForSafety reg r = some r) →
    remaining reg before (rs.map (·, true)) = before ++ rs
  | [], before, _, _ => (List.append_nil before).symm
  | r :: rs, before, hdistinct, hrs => by
    obtain ⟨hr, hrs⟩ := List.forall_mem_cons.1 hrs
    have hnew : before.any (·.same r) = false := List.any_eq_false.2 fun m hm => by
      rw [(List.pairwise_append.1 hdistinct).2.2 m hm r (List.mem_cons_self ..)]
      decide
    rw [List.map_cons, remaining, hnew, if_neg (by decide), hr, Option.getD_some,
      remaining_inserted (before ++ [r]) (by rwa [← List.append_cons]) hrs, ← List.append_cons]

/-- The rules determine the rest. -/
theorem Tracks.build (h : Tracks reg th) : Theory.build reg H th.originals = .ok th := by
  have hplain : ∀ c ∈ th.originals.map (·, true), Plain reg c.1 := fun c hc => by
    obtain ⟨r, hr, rfl⟩ := List.mem_map.1 hc
    exact (h.plain r hr).1
  obtain ⟨th', hth', h', horiginals⟩ := tracks_empty.changeAll (H := H) hplain
  rw [show empty.originals = [] from rfl,
    remaining_inserted [] h.distinct fun r hr => (h.plain r hr).2, List.nil_append] at horiginals
  have hfollows := h'.follows
  rw [horiginals] at hfollows
  rw [Theory.build, hth']
  obtain ⟨rules, originals, views, allTables⟩ := th
  obtain ⟨rules', originals', views', allTables'⟩ := th'
  obtain rfl : rules' = rules := hfollows.rules.trans h.follows.rules.symm
  obtain rfl : originals' = originals := horiginals
  obtain rfl : views' = views := hfollows.views.trans h.follows.views.symm
  obtain rfl : allTables' = allTables := hfollows.allTables.trans h.follows.allTables.symm
  rfl

theorem Tracks.isView_iff (h : Tracks reg th) {table : String} : th.isView table = true
    ↔ ∃ r ∈ th.originals, r.head.table.table = table ∧ ∃ l ∈ r.body, l.isBuiltin reg true = false := by
  have hview : th.isView table = true
      ↔ ∃ d ∈ th.originals.flatMap (deltasOf reg), d.head.table.table = table := by
    unfold isView
    rw [h.follows.views]
    unfold counts
    split_ifs with h0
    · rw [List.countP_eq_zero] at h0
      simp only [List.mem_singleton, decide_eq_true_eq] at h0
      exact iff_of_false (by decide) fun ⟨d, hd, ht⟩ => h0 d hd ht.symm
    · obtain ⟨d, hd, ht⟩ := List.countP_pos_iff.1 (Nat.pos_of_ne_zero h0)
      rw [decide_eq_true_eq, List.mem_singleton] at ht
      exact iff_of_true rfl ⟨d, hd, ht.symm⟩
  rw [hview]
  constructor
  · rintro ⟨d, hd, ht⟩
    obtain ⟨r, hr, hd⟩ := List.mem_flatMap.1 hd
    have hplain := (h.plain r hr).1
    obtain ⟨-, -, -, -, -, hall⟩ := hplain.compute_ok
    obtain ⟨hhead, hperm⟩ := (hall d hd).parts hplain
    exact ⟨r, hr, hhead ▸ ht, d.trigger, hperm.mem_iff.1 (List.mem_cons_self ..), (hall d hd).ordinary⟩
  · rintro ⟨r, hr, ht, l, hl, hordinary⟩
    have hplain := (h.plain r hr).1
    obtain ⟨-, -, -, -, htriggers, hall⟩ := hplain.compute_ok
    obtain ⟨d, hd, -⟩ := List.mem_map.1 (htriggers.mem_iff.2
      (List.mem_filter.2 ⟨hl, by rw [hordinary]; rfl⟩))
    exact ⟨d, List.mem_flatMap.2 ⟨r, hr, hd⟩, ((hall d hd).parts hplain).1 ▸ ht⟩

/-- A regular rule that can be reordered is plain if its body has no modals and no table twice with the same
number of arguments. -/
theorem plain_of_noSelfJoins (hregular : r.isRegular = true) (hsafe : reorderForSafety reg r ≠ none)
    (hmodal : ∀ l ∈ r.body, l.table.modal = none)
    (hjoin : (r.body.map Literal.tableArity).Nodup) : Plain reg r where
  regular := hregular
  safe := hsafe
  comparable l hl l' hl' := by
    by_cases heq : l = l'
    · rw [heq]
      exact l'.comparable_refl
    · have hshape : ¬l.SameShape l' := fun h => by
        refine heq (List.inj_on_of_nodup_map hjoin hl hl' ?_)
        rw [Literal.tableArity, Literal.tableArity, Literal.tablename, Literal.tablename, h.1, h.2.2.1]
      exact ⟨by rw [hmodal l hl, hmodal l' hl'], fun h => (hshape h).elim, fun h => (hshape h).elim,
        fun h => (hshape h).elim⟩
  distinct := hjoin.of_map.filter _

/-! ## Samples -/

/-- No table is a builtin. -/
def noBuiltins : BuiltinRegistry ObjectConstant := fun _ => none

/-- Every value has the hash 0. -/
def zeroHashes : Hashes := ⟨fun _ => 0, fun _ => 0, 0, fun _ => 0⟩

/-- A literal with one variable. -/
def unary (table : String) : Literal ObjectConstant := ⟨⟨none, table, none⟩, [.variable "x"], false, []⟩

end DeltaRules

end Congress
