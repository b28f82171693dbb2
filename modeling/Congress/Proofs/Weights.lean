import Mathlib.Algebra.Order.BigOperators.Group.Finset
import Mathlib.Algebra.Order.BigOperators.Group.List
import Congress.Lib.Totals
import Congress.Proofs.Updates

/-!
# Sums over what policies hold

Each rule and each fact contributes to a sum, a number or a bag. An event that changes a rule set
changes the sum by what its rule contributes (`weight_put`).
-/

namespace Congress

open Lib

set_option linter.unusedSectionVars false

variable {V A M : Type} [DecidableEq V] [AddCommMonoid M] {pf : Platform V} {r : Rule V} {info : A}
  {key : String} {insert : Bool}

namespace RuleStore

/-- What the rules and facts of each table contribute. -/
def weight (w : String → Rule V → M) (s : RuleStore V A) : M :=
  total (fun key fs => (fs.map fun f => w key (factRule key f)).sum) s.facts
    + total (fun key rs => (rs.map fun r => w key r.1).sum) s.rules

variable {w : String → Rule V → M} {s : RuleStore V A}

theorem part_facts : part (fun key fs => (fs.map fun f => w key (factRule key f)).sum) s.facts key
    = ((s.factsOf key).map fun f => w key (factRule key f)).sum := by
  unfold part factsOf
  cases s.facts.lookup key <;> simp

theorem part_rules : part (fun key rs => (rs.map fun r : Rule V × A => w key r.1).sum) s.rules key
    = ((s.rulesOf key).map fun r => w key r.1).sum := by
  unfold part rulesOf
  cases s.rules.lookup key <;> simp

theorem weight_ext {w' : String → Rule V → M}
    (hfacts : ∀ key, ∀ fact ∈ s.factsOf key, w key (factRule key fact) = w' key (factRule key fact))
    (hrules : ∀ key, ∀ r ∈ s.rulesOf key, w key r.1 = w' key r.1) : s.weight w = s.weight w' := by
  have hf : ∀ key fs, s.facts.lookup key = some fs → (fs.map fun f => w key (factRule key f)).sum
      = (fs.map fun f => w' key (factRule key f)).sum := by
    intro key fs hlook
    refine congrArg List.sum (List.map_congr_left fun fact hfact => hfacts key fact ?_)
    rwa [factsOf, hlook]
  have hr : ∀ key rs, s.rules.lookup key = some rs → (rs.map fun r => w key r.1).sum
      = (rs.map fun r => w' key r.1).sum := by
    intro key rs hlook
    refine congrArg List.sum (List.map_congr_left fun r hr => hrules key r ?_)
    rwa [rulesOf, hlook]
  unfold weight
  rw [total_congr hf, total_congr hr]

theorem weight_setFacts (w : String → Rule V → M) (s : RuleStore V A) (key : String)
    (fs : List (List V)) (h : fs.Nodup) :
    (s.setFacts key fs h).weight w + ((s.factsOf key).map fun f => w key (factRule key f)).sum
      = s.weight w + (fs.map fun f => w key (factRule key f)).sum := by
  have htotal := total_insert (f := fun key fs => (fs.map fun f => w key (factRule key f)).sum)
    (s := s.facts) (a := key) (b := fs)
  rw [part_facts] at htotal
  unfold weight setFacts
  dsimp only
  rw [add_right_comm, htotal, add_right_comm]

theorem weight_eraseFacts (w : String → Rule V → M) (s : RuleStore V A) (key : String) :
    (s.eraseFacts key).weight w + ((s.factsOf key).map fun f => w key (factRule key f)).sum
      = s.weight w := by
  have htotal := total_erase (f := fun key fs => (fs.map fun f => w key (factRule key f)).sum)
    (s := s.facts) (a := key)
  rw [part_facts] at htotal
  unfold weight eraseFacts
  dsimp only
  rw [add_right_comm, htotal]

theorem weight_setRules (w : String → Rule V → M) (s : RuleStore V A) (key : String)
    (rs : List (Rule V × A)) (h) :
    (s.setRules key rs h).weight w + ((s.rulesOf key).map fun r => w key r.1).sum
      = s.weight w + (rs.map fun r => w key r.1).sum := by
  have htotal := total_insert (f := fun key rs => (rs.map fun r : Rule V × A => w key r.1).sum)
    (s := s.rules) (a := key) (b := rs)
  rw [part_rules] at htotal
  unfold weight setRules
  dsimp only
  rw [add_assoc, htotal, add_assoc]

theorem weight_eraseRules (w : String → Rule V → M) (s : RuleStore V A) (key : String) :
    (s.eraseRules key).weight w + ((s.rulesOf key).map fun r => w key r.1).sum = s.weight w := by
  have htotal := total_erase (f := fun key rs => (rs.map fun r : Rule V × A => w key r.1).sum)
    (s := s.rules) (a := key)
  rw [part_rules] at htotal
  unfold weight eraseRules
  dsimp only
  rw [add_assoc, htotal]

/-- A table of facts that are left; an empty one goes. -/
theorem weight_keepFacts (w : String → Rule V → M) (s : RuleStore V A) (key : String)
    (fs : List (List V)) (h : fs.Nodup) :
    (if fs.isEmpty then s.eraseFacts key else s.setFacts key fs h).weight w
        + ((s.factsOf key).map fun f => w key (factRule key f)).sum
      = s.weight w + (fs.map fun f => w key (factRule key f)).sum := by
  split_ifs with he
  · rw [weight_eraseFacts, List.isEmpty_iff.1 he, List.map_nil, List.sum_nil, add_zero]
  · exact weight_setFacts w s key fs h

theorem weight_keepRules (w : String → Rule V → M) (s : RuleStore V A) (key : String)
    (rs : List (Rule V × A)) (h) :
    (if rs.isEmpty then s.eraseRules key else s.setRules key rs h).weight w
        + ((s.rulesOf key).map fun r => w key r.1).sum
      = s.weight w + (rs.map fun r => w key r.1).sum := by
  split_ifs with he
  · rw [weight_eraseRules, List.isEmpty_iff.1 he, List.map_nil, List.sum_nil, add_zero]
  · exact weight_setRules w s key rs h

section Le

variable [PartialOrder M] [CanonicallyOrderedAdd M] [IsOrderedAddMonoid M]

theorem le_weight_fact {fact : List V} (h : fact ∈ s.factsOf key) :
    w key (factRule key fact) ≤ s.weight w := by
  have hpart := part_le_total (f := fun key fs => (fs.map fun f => w key (factRule key f)).sum)
    (s := s.facts) (a := key)
  rw [part_facts] at hpart
  exact (List.le_sum_of_mem (List.mem_map_of_mem h)).trans
    (hpart.trans (self_le_add_right ..))

theorem le_weight_rule {p : Rule V × A} (h : p ∈ s.rulesOf key) : w key p.1 ≤ s.weight w := by
  have hpart := part_le_total (f := fun key rs => (rs.map fun r : Rule V × A => w key r.1).sum)
    (s := s.rules) (a := key)
  rw [part_rules] at hpart
  exact (List.le_sum_of_mem (List.mem_map_of_mem h)).trans
    (hpart.trans (self_le_add_left ..))

end Le

variable [IsCancelAdd M]

theorem weight_addFact {fact : List V} : (s.addFact key fact).1.weight w
    = if (s.addFact key fact).2 then s.weight w + w key (factRule key fact) else s.weight w := by
  unfold addFact
  by_cases h : fact ∈ s.factsOf key
  · rw [dif_pos h]
    rfl
  · rw [dif_neg h, if_pos rfl]
    have hset := weight_setFacts w s key (s.factsOf key ++ [fact])
      ((s.nodup_factsOf key).append (List.nodup_singleton _) (List.disjoint_singleton.2 h))
    rw [List.map_append, List.sum_append, List.map_singleton, List.sum_singleton,
      add_comm (List.sum _), ← add_assoc] at hset
    exact add_right_cancel hset

theorem weight_addRule (hr : (r.body.isEmpty && !r.head.negated) = false) :
    (s.addRule pf key r info).1.weight w
      = if (s.addRule pf key r info).2 then s.weight w + w key r else s.weight w := by
  rw [addRule, hr, if_neg Bool.false_ne_true]
  by_cases h : (s.rulesOf key).any (·.1.same r) = true
  · rw [dif_pos h]
    rfl
  · rw [dif_neg h, if_pos rfl]
    have hset := weight_setRules w s key (s.rulesOf key ++ [(r, info)])
      (List.pairwise_append.2 ⟨s.distinct_rulesOf key, List.pairwise_singleton .., by simpa using h⟩)
    rw [List.map_append, List.sum_append, List.map_singleton, List.sum_singleton,
      add_comm (List.sum _), ← add_assoc] at hset
    exact add_right_cancel hset

theorem weight_discardFact (pf : Platform V) (w : String → Rule V → M) (s : RuleStore V A)
    (key : String) (hr : r.body = []) :
    (s.discardRule pf key r).1.weight w
        + (if (s.discardRule pf key r).2 then w key (factRule key (pf.factValues r.head)) else 0)
      = s.weight w := by
  have hsum : ((s.factsOf key).map fun f => w key (factRule key f)).sum
      = (if pf.factValues r.head ∈ s.factsOf key
          then w key (factRule key (pf.factValues r.head)) else 0)
        + (((s.factsOf key).erase (pf.factValues r.head)).map fun f => w key (factRule key f)).sum := by
    split_ifs with h
    · rw [((List.perm_cons_erase h).map _).sum_eq, List.map_cons, List.sum_cons]
    · rw [List.erase_of_not_mem h, zero_add]
  simp only [discardRule, hr, List.isEmpty_nil, if_true]
  by_cases hkey : key ∈ s.facts
  · have hkeep := weight_keepFacts w s key ((s.factsOf key).erase (pf.factValues r.head))
      ((s.nodup_factsOf key).erase _)
    rw [hsum, ← add_assoc] at hkeep
    simp only [hkey, if_true, decide_eq_true_eq]
    exact add_right_cancel hkeep
  · simp [hkey]

theorem weight_discardRule (pf : Platform V) (s : RuleStore V A) (hr : r.body ≠ [])
    (hsame : ∀ r', r'.same r = true → w key r' = w key r) :
    (s.discardRule pf key r).1.weight w + (if (s.discardRule pf key r).2 then w key r else 0)
      = s.weight w := by
  have hsum : ((s.rulesOf key).map fun r => w key r.1).sum
      = (if (s.rulesOf key).any (·.1.same r) then w key r else 0)
        + (((s.rulesOf key).eraseP (·.1.same r)).map fun r => w key r.1).sum := by
    split_ifs with h
    · obtain ⟨r', hmem, hr'⟩ := List.any_eq_true.1 h
      obtain ⟨p, l₁, l₂, -, hp, hl, he⟩ :=
        List.exists_of_eraseP (p := fun r' : Rule V × A => r'.1.same r) hmem hr'
      rw [he, hl]
      simp only [List.map_append, List.map_cons, List.sum_append, List.sum_cons, hsame _ hp]
      rw [add_left_comm]
    · rw [List.eraseP_of_forall_not (by simpa using h), zero_add]
  simp only [discardRule, List.isEmpty_iff, hr, if_false]
  by_cases hkey : key ∈ s.rules
  · have hkeep := weight_keepRules w s key ((s.rulesOf key).eraseP (·.1.same r))
      ((s.distinct_rulesOf key).sublist List.eraseP_sublist)
    rw [hsum, ← add_assoc] at hkeep
    simp only [List.isEmpty_iff] at hkeep
    simp only [hkey, if_true]
    exact add_right_cancel hkeep
  · simp [hkey]

/-- A rule or a fact that is put in, or taken out, contributes or no longer does. -/
theorem weight_put (pf : Platform V) (s : RuleStore V A) (info : A) (insert : Bool)
    (hsame : ∀ r', r'.same r = true → w r.head.table.table r' = w r.head.table.table r)
    (hfact : r.body = [] → w r.head.table.table
      (factRule r.head.table.table (pf.factValues r.head)) = w r.head.table.table r) :
    if (s.put pf r info insert).2 then
      if insert then (s.put pf r info insert).1.weight w = s.weight w + w r.head.table.table r
      else (s.put pf r info insert).1.weight w + w r.head.table.table r = s.weight w
    else (s.put pf r info insert).1.weight w = s.weight w := by
  unfold put
  cases insert with
  | true =>
    simp only [if_true]
    cases hr : r.body.isEmpty && !r.head.negated with
    | true =>
      obtain ⟨hnil, hneg⟩ := Bool.and_eq_true_iff.1 hr
      rw [List.isEmpty_iff] at hnil
      rw [addRule_fact hnil (by simpa using hneg), weight_addFact, hfact hnil]
      split_ifs <;> rfl
    | false =>
      rw [weight_addRule hr]
      split_ifs <;> rfl
  | false =>
    simp only [Bool.false_eq_true, if_false]
    by_cases hr : r.body = []
    · have hdiscard := weight_discardFact pf w s r.head.table.table hr
      rw [hfact hr] at hdiscard
      split_ifs at hdiscard ⊢
      · exact hdiscard
      · rwa [add_zero] at hdiscard
    · have hdiscard := weight_discardRule pf s hr hsame
      split_ifs at hdiscard ⊢
      · exact hdiscard
      · rwa [add_zero] at hdiscard

end RuleStore

/-- What the rules of a rule set contribute; the other policies contribute nothing. -/
def PolicyData.weight (w : String → Rule V → M) : PolicyData V A → M
  | .rules _ store => store.weight w
  | _ => 0

namespace PolicyMap

variable {ps ps' : PolicyMap V A} {name : String} {w : String → String → Rule V → M}

/-- What the rules of all policies contribute. -/
def weight (w : String → String → Rule V → M) (ps : PolicyMap V A) : M :=
  ∑ name ∈ ps.keys.toFinset, ((ps.data name).map fun d => d.weight (w name)).getD 0

theorem mem_keys_iff : name ∈ ps.keys.toFinset ↔ (ps.data name).isSome = true := by
  rw [List.mem_toFinset, AList.mem_keys.symm, ← AList.lookup_isSome]
  simp [data]

theorem le_weight [PartialOrder M] [CanonicallyOrderedAdd M] [IsOrderedAddMonoid M]
    {d : PolicyData V A} (hd : ps.data name = some d) : d.weight (w name) ≤ ps.weight w := by
  have hmem : name ∈ ps.keys.toFinset := mem_keys_iff.2 (by rw [hd]; rfl)
  have hle := Finset.single_le_sum (f := fun name => ((ps.data name).map fun d =>
    d.weight (w name)).getD 0) (fun _ _ => zero_le) hmem
  rwa [hd] at hle

theorem weight_ext {w' : String → String → Rule V → M}
    (h : ∀ name d, ps.data name = some d → d.weight (w name) = d.weight (w' name)) :
    ps.weight w = ps.weight w' := by
  refine Finset.sum_congr rfl fun name _ => ?_
  cases hd : ps.data name with
  | none => rfl
  | some d => exact h name d hd

theorem weight_congr (h : SameData ps ps') : ps'.weight w = ps.weight w := by
  have hkeys : ps'.keys.toFinset = ps.keys.toFinset := by
    ext name
    rw [mem_keys_iff, mem_keys_iff, h]
  rw [weight, weight, hkeys, h]

theorem weight_update {d d' : PolicyData V A} (hd : ps.data name = some d)
    (h : ps'.data = Function.update ps.data name (some d')) :
    ps'.weight w + d.weight (w name) = ps.weight w + d'.weight (w name) := by
  have hmem : name ∈ ps.keys.toFinset := mem_keys_iff.2 (by rw [hd]; rfl)
  have hkeys : ps'.keys.toFinset = ps.keys.toFinset := by
    ext other
    rw [mem_keys_iff, mem_keys_iff, h]
    by_cases ho : other = name
    · subst ho
      rw [Function.update_self, hd]
      rfl
    · rw [Function.update_of_ne ho]
  rw [weight, weight, hkeys, ← Finset.add_sum_erase _ _ hmem, ← Finset.add_sum_erase _ _ hmem, h, hd,
    Function.update_self]
  have hrest : ∀ other ∈ ps.keys.toFinset.erase name,
      Function.update ps.data name (some d') other = ps.data other :=
    fun other ho => Function.update_of_ne (Finset.ne_of_mem_erase ho) ..
  rw [Finset.sum_congr rfl fun other ho => by rw [hrest other ho]]
  simp only [Option.map_some, Option.getD_some]
  rw [add_right_comm, add_comm (d'.weight (w name)), add_right_comm, add_comm (d.weight (w name))]

end PolicyMap

end Congress
