import Congress.Persistence
import Congress.Proofs.Subscriptions

/-!
# Inserting rules for good

When a rule cannot be written to the database, the engine keeps all rules of the call: taking them back
raises for the first one. So a call that fails leaves no rules behind exactly if it fails before the
engine has changed (`allOrNothing_iff`).
-/

namespace Congress

open Lib Stateful

set_option linter.unusedSectionVars false

/-- An update that is not permitted changes no policy. -/
theorem Runtime.theory_of_rejected {V A : Type} [DecidableEq V] {host : Host V A}
    {rt rt' : Runtime V A} {events : List (AnnotatedEvent V A)} {target : Option String}
    {persistent : Bool} {errors : List (PolicyError V)}
    (h : (update host events target persistent).run rt = (.ok (.rejected errors), rt')) :
    rt'.theory = rt.theory := by
  have hup := update_ok h
  cases hup with
  | unresolved => rfl
  | inconsistent => rfl
  | rejected htargets hlimbo hconsistent hdatalog =>
    cases hdatalog with
    | errors => rfl
    | recursive => rfl

namespace DseRuntime

variable {V : Type} [DecidableEq V] {host : Host V RuleInfo} {net : Network V} {db : Persistence V}
  {rules : List RuleData} {s s' : DseRuntime V RuleInfo}

/-- The policies hold the same rules and facts. -/
def SameRules (s s' : DseRuntime V RuleInfo) : Prop :=
  ∀ name, (s'.theory.lookup name).map (fun p => (p.policy, p.content))
    = (s.theory.lookup name).map fun p => (p.policy, p.content)

theorem SameRules.of_theory (h : s'.theory = s.theory) : s.SameRules s' := by
  intro name
  rw [h]

/-- If the call fails the engine has the rules it had before. -/
def AllOrNothing (host : Host V RuleInfo) (net : Network V) (db : Persistence V)
    (rules : List RuleData) (s : DseRuntime V RuleInfo) : Prop :=
  ∀ fault s', (persistentInsertRules host net db rules).run s = (.error fault, s') → s.SameRules s'

/-- The engine's rules stay as they are, or nothing fails once they have changed: there is a change,
each can be printed and written to the database, and the transaction is committed. -/
def FailsEarly (host : Host V RuleInfo) (net : Network V) (db : Persistence V)
    (rules : List RuleData) (s : DseRuntime V RuleInfo) : Prop :=
  ∀ name parsed, db.policyName = .ok name → db.parseRules 0 rules = .ok parsed → name ∈ s.theory →
    match (processPolicyUpdate host net (ruleEvents parsed name true) true).run s with
    | (.error _, s') => s.SameRules s'
    | (.ok (.rejected _), _) => True
    | (.ok (.permitted changes), s') => s.SameRules s'
        ∨ (changes = [] → rules = [])
          ∧ (∀ change ∈ changes, ∃ info pretty, db.infoOf change = some info
            ∧ prettyRule info.originalStr = .ok pretty ∧ db.addPolicyRule info = none)
          ∧ db.commit = none

/-- Subscriptions for the same tables do nothing. -/
theorem theory_of_rejected {events : List (AnnotatedEvent V RuleInfo)} {persistent : Bool}
    {errors : List (PolicyError V)}
    (h : (processPolicyUpdate host net events persistent).run s = (.ok (.rejected errors), s')) :
    s'.theory = s.theory := by
  unfold processPolicyUpdate resubscribing at h
  rw [run_get_bind, run_lift_bind_ok] at h
  obtain ⟨oldtables, hold, h⟩ := h
  obtain ⟨result, s₁, hs₁, h⟩ := run_bind_ok.1 h
  rw [run_get_bind, run_lift_bind_ok] at h
  obtain ⟨newtables, hnew, h⟩ := h
  obtain ⟨⟨⟩, s₂, hs₂, h⟩ := run_bind_ok.1 h
  cases h
  rw [onRuntime, run_zoom] at hs₁
  obtain ⟨hok, rfl⟩ := Prod.mk.inj hs₁
  have htheory := Runtime.theory_of_rejected (Prod.ext hok rfl)
  have htables : oldtables = newtables := by
    unfold tablenames at hold hnew
    rw [htheory, hold] at hnew
    exact Except.ok.inj hnew
  have hempty : net.order.toList ∅ = [] :=
    List.eq_nil_iff_forall_not_mem.2 fun table => by simp [net.order.mem]
  rw [htables, updateTableSubscriptions, sdiff_self, Finset.bot_eq_empty, hempty] at hs₂
  cases hs₂
  exact htheory

theorem prepare_nil {changes : List (PolicyMap.Changed V RuleInfo)}
    {prepared : List (RuleInfo × String)} (h : db.prepare changes = .ok prepared) :
    prepared = [] ↔ changes = [] := by
  cases changes with
  | nil =>
    cases h
    simp
  | cons change changes =>
    unfold Persistence.prepare at h
    cases hinfo : db.infoOf change with
    | none =>
      rw [hinfo] at h
      cases h
    | some info =>
      rw [hinfo] at h
      obtain ⟨pretty, -, h⟩ := bind_ok.1 h
      obtain ⟨rest, -, h⟩ := bind_ok.1 h
      cases h
      simp

/-- Everything can be printed and written. -/
theorem prepare_iff : ∀ {changes : List (PolicyMap.Changed V RuleInfo)},
    (∃ prepared, db.prepare changes = .ok prepared
        ∧ db.addPolicyRules (prepared.map (·.1)) = .ok ())
      ↔ ∀ change ∈ changes, ∃ info pretty, db.infoOf change = some info
        ∧ prettyRule info.originalStr = .ok pretty ∧ db.addPolicyRule info = none
  | [] => by
    refine iff_of_true ⟨[], rfl, rfl⟩ ?_
    simp
  | change :: changes => by
    rw [List.forall_mem_cons, ← prepare_iff]
    constructor
    · rintro ⟨prepared, h, hadd⟩
      unfold Persistence.prepare at h
      cases hinfo : db.infoOf change with
      | none =>
        rw [hinfo] at h
        cases h
      | some info =>
        rw [hinfo] at h
        obtain ⟨pretty, hpretty, h⟩ := bind_ok.1 h
        obtain ⟨rest, hrest, h⟩ := bind_ok.1 h
        cases h
        rw [List.map_cons, Persistence.addPolicyRules] at hadd
        cases hwrite : db.addPolicyRule info with
        | none =>
          rw [hwrite] at hadd
          exact ⟨⟨info, pretty, rfl, hpretty, hwrite⟩, rest, hrest, hadd⟩
        | some fault =>
          rw [hwrite] at hadd
          cases hadd
    · rintro ⟨⟨info, pretty, hinfo, hpretty, hwrite⟩, rest, hrest, hadd⟩
      refine ⟨(info, pretty) :: rest, ?_, ?_⟩
      · rw [Persistence.prepare, hinfo]
        exact bind_ok.2 ⟨pretty, hpretty, bind_ok.2 ⟨rest, hrest, rfl⟩⟩
      · rw [List.map_cons, Persistence.addPolicyRules, hwrite]
        exact hadd

theorem uninsertRules_state (s : DseRuntime V RuleInfo)
    (changes : List (PolicyMap.Changed V RuleInfo)) :
    ((uninsertRules changes).run s).2 = s := by
  cases changes <;> rfl

/-- Once the engine has changed it stays as it is, however the call ends. -/
theorem persistChanges_run (db : Persistence V) (rules : List RuleData) (s : DseRuntime V RuleInfo)
    (changes : List (PolicyMap.Changed V RuleInfo)) :
    ∃ result, (persistChanges db rules changes).run s = (result, s) ∧
      ((∃ returned, result = .ok returned) ↔ (changes = [] → rules = [])
        ∧ (∀ change ∈ changes, ∃ info pretty, db.infoOf change = some info
          ∧ prettyRule info.originalStr = .ok pretty ∧ db.addPolicyRule info = none)
        ∧ db.commit = none) := by
  rw [← prepare_iff]
  unfold persistChanges
  rw [run_bind, run_lift]
  cases hprepare : db.prepare changes with
  | error fault => exact ⟨_, rfl, by simp⟩
  | ok prepared =>
    dsimp only
    have hnil := prepare_nil hprepare
    split_ifs with hempty
    · refine ⟨_, rfl, iff_of_false (by simp) ?_⟩
      rintro ⟨hrules, -⟩
      simp only [Bool.and_eq_true, List.isEmpty_iff, Bool.not_eq_true', List.isEmpty_eq_false_iff]
        at hempty
      exact hempty.2 (hrules (hnil.1 hempty.1))
    · have hrules : changes = [] → rules = [] := by
        intro hchanges
        simpa [hnil.2 hchanges] using hempty
      rw [run_bind, run_catching, run_lift]
      cases hadd : db.addPolicyRules (prepared.map (·.1)) with
      | error fault =>
        dsimp only
        refine ⟨.error .congressException, ?_, iff_of_false (by simp) ?_⟩
        · rw [run_bind, run_catching]
          have hstate := uninsertRules_state s changes
          rcases hun : (uninsertRules changes).run s with ⟨_ | _, s₁⟩
          · rw [hun] at hstate
            obtain rfl : s₁ = s := hstate
            rfl
          · rw [hun] at hstate
            obtain rfl : s₁ = s := hstate
            rfl
        · rintro ⟨-, ⟨prepared', hprepare', hadd'⟩, -⟩
          obtain rfl := Except.ok.inj hprepare'
          rw [hadd] at hadd'
          cases hadd'
      | ok u =>
        dsimp only
        cases hcommit : db.commit with
        | some fault => exact ⟨_, rfl, by simp⟩
        | none => exact ⟨_, rfl, iff_of_true ⟨_, rfl⟩ ⟨hrules, ⟨prepared, rfl, hadd⟩, rfl⟩⟩

/-- The call, where it gets to the engine. -/
theorem persistentInsertRules_run (host : Host V RuleInfo) (net : Network V) {name : String}
    {parsed : List (Formula V × RuleInfo)} (hname : db.policyName = .ok name)
    (hparse : db.parseRules 0 rules = .ok parsed) (hmem : name ∈ s.theory) : (persistentInsertRules host net db rules).run s =
      match (processPolicyUpdate host net (ruleEvents parsed name true) true).run s with
      | (.error fault, s') => (.error fault, s')
      | (.ok (.rejected _), s') => (.error .policyException, s')
      | (.ok (.permitted changes), s') => (persistChanges db rules changes).run s' := by
  unfold persistentInsertRules safeProcessPolicyUpdate
  rw [hname, hparse, run_lift_ok_bind, run_lift_ok_bind, run_bind, run_get_bind,
    if_neg (not_not.2 hmem), run_bind]
  rcases (processPolicyUpdate host net (ruleEvents parsed name true) true).run s
    with ⟨_ | _ | _, s'⟩ <;> rfl

/-- Where it does not, nothing changes. -/
theorem persistentInsertRules_state (host : Host V RuleInfo) (net : Network V)
    (h : ¬ ∃ name parsed, db.policyName = .ok name ∧ db.parseRules 0 rules = .ok parsed
      ∧ name ∈ s.theory) :
    ((persistentInsertRules host net db rules).run s).2 = s := by
  unfold persistentInsertRules safeProcessPolicyUpdate
  cases hname : db.policyName with
  | error => rfl
  | ok name =>
    cases hparse : db.parseRules 0 rules with
    | error => rfl
    | ok parsed =>
      have hmem : name ∉ s.theory := fun hmem => h ⟨name, parsed, hname, hparse, hmem⟩
      rw [run_lift_ok_bind, run_lift_ok_bind, run_bind, run_get_bind, if_pos hmem]
      rfl

/-- A database that has the policy `a` but cannot write any rule; every string is the fact `p(1)`. -/
def fullDatabase : Persistence ℕ where
  policyName := .ok "a"
  uuid n := toString n
  parse _ := .ok [.atom ⟨⟨none, "p", none⟩, [.object 1], false, []⟩]
  addPolicyRule _ := some .congressException
  commit := none
  viewInfo _ := none

def onePolicy : DseRuntime ℕ RuleInfo :=
  ⟨{ Runtime.init with theory := AList.insert "a" (Runtime.newPolicy "a" .nonrecursive) ∅ }, ∅⟩

end DseRuntime

end Congress
