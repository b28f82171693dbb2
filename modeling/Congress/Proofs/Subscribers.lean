import Mathlib.Data.Finset.Sort
import Mathlib.Data.List.TakeWhile
import Mathlib.Data.String.Basic
import Congress.Lib.Run
import Congress.Subscribers
import Congress.Proofs.Triggers

/-!
# Publishing triggers

The hook for tables that get a subscriber returns at the first table that is not qualified by a
policy, and leaves the tables behind it without a trigger for good, since they are remembered as
published. In a run where this happens to no qualified table, every one with a subscriber has exactly
one trigger (`publishes_iff`).
-/

namespace Congress

open Lib

/-- The table is one of a policy. -/
def Qualified (table : String) : Prop := (parseServiceTable table).service ≠ none

instance (table : String) : Decidable (Qualified table) := inferInstanceAs (Decidable (_ ≠ _))

theorem toList_of_qualified {table policy : String}
    (h : (parseServiceTable table).service = some policy) :
    table.toList = policy.toList ++ ':' :: (parseServiceTable table).table.toList := by
  have happend := List.takeWhile_append_dropWhile (p := (· ≠ ':')) (l := table.toList)
  have hhead := List.head?_dropWhile_not (· ≠ ':') table.toList
  rw [parseServiceTable] at h ⊢
  cases hd : table.toList.dropWhile (· ≠ ':') with
  | nil =>
    rw [hd] at h
    simp at h
  | cons c cs =>
    rw [hd] at h happend hhead
    obtain rfl : c = ':' := by simpa using hhead
    rw [← happend, ← Option.some.inj h]
    simp only [String.toList_ofList]

namespace PublishingRuntime

variable {s : PublishingRuntime} {t : Trigger} {table table' : String} {tables : List String}
  {key : String × Option String}

/-- A table of a policy is known by its key. -/
theorem subKey_injective (h : Qualified table) (hk : subKey table = subKey table') :
    table = table' := by
  obtain ⟨policy, hp⟩ := Option.ne_none_iff_exists'.1 h
  obtain ⟨htable, hservice⟩ := Prod.mk.injEq .. ▸ hk
  have hp' : (parseServiceTable table').service = some policy := hservice ▸ hp
  refine String.toList_inj.1 ?_
  rw [toList_of_qualified hp, toList_of_qualified hp', htable]

/-- The triggers that publish a table. -/
def publishers (s : PublishingRuntime) (table : String) : List Trigger :=
  s.triggerRegistry.triggers.filter fun t =>
    t.callback = .pubPolicyResult ∧ t.modal = none ∧ (t.tablename, some t.policy) = subKey table

/-- The triggers that publish tables are those in `policySubData`, each at its table. -/
structure Sound (s : PublishingRuntime) : Prop where
  indexed : s.triggerRegistry.Indexed
  trigger : ∀ key t, s.policySubData key = some t → t ∈ s.triggerRegistry.triggers
    ∧ t.callback = .pubPolicyResult ∧ t.modal = none ∧ (t.tablename, some t.policy) = key
    ∧ ∃ table, subKey table = key
  sub : ∀ t ∈ s.triggerRegistry.triggers, t.callback = .pubPolicyResult →
    s.policySubData (t.tablename, some t.policy) = some t

theorem Sound.mem_publishers (h : s.Sound) :
    t ∈ s.publishers table ↔ s.policySubData (subKey table) = some t := by
  simp only [publishers, List.mem_filter, decide_eq_true_eq]
  constructor
  · rintro ⟨ht, hc, -, hk⟩
    rw [← hk]
    exact h.sub t ht hc
  · intro ht
    obtain ⟨hmem, hc, hm, hk, -⟩ := h.trigger _ t ht
    exact ⟨hmem, hc, hm, hk⟩

theorem Sound.length_publishers (h : s.Sound) :
    (s.publishers table).length = if s.policySubData (subKey table) = none then 0 else 1 := by
  cases hs : s.policySubData (subKey table) with
  | none =>
    have : s.publishers table = [] := List.eq_nil_iff_forall_not_mem.2 fun t ht => by
      rw [h.mem_publishers, hs] at ht
      simp at ht
    simp [this]
  | some t =>
    have hnodup : (s.publishers table).Nodup := h.indexed.nodup.filter _
    have hperm : (s.publishers table).Perm [t] := by
      rw [List.perm_ext_iff_of_nodup hnodup (List.nodup_singleton t)]
      intro t'
      rw [h.mem_publishers, hs, List.mem_singleton, Option.some.injEq]
      exact eq_comm
    simp [hperm.length_eq]

theorem Sound.qualified (h : s.Sound) (hs : s.policySubData (subKey table) ≠ none) :
    Qualified table := by
  obtain ⟨t, ht⟩ := Option.ne_none_iff_exists'.1 hs
  obtain ⟨-, -, -, hk, -⟩ := h.trigger _ t ht
  have hservice : some t.policy = (parseServiceTable table).service := congrArg Prod.snd hk
  intro hnone
  simp [hnone] at hservice

/-- The hook gives triggers to the tables before the first one that is not qualified. -/
theorem Sound.onFirstSubs : ∀ {tables : List String} {s : PublishingRuntime}, s.Sound →
    ∃ s', s.onFirstSubs tables = .ok s' ∧ s'.Sound
      ∧ s'.publishedTablesWithSubscriber = s.publishedTablesWithSubscriber
      ∧ ∀ key, s'.policySubData key ≠ none ↔ s.policySubData key ≠ none
        ∨ ∃ table ∈ tables.takeWhile Qualified, subKey table = key
  | [], s, h => ⟨s, rfl, h, rfl, by simp⟩
  | table :: tables, s, h => by
    rw [PublishingRuntime.onFirstSubs]
    cases hp : (parseServiceTable table).service with
    | none => exact ⟨s, rfl, h, rfl, by simp [Qualified, hp]⟩
    | some policy =>
      have hq : Qualified table := by simp [Qualified, hp]
      have hkey : subKey table = ((parseServiceTable table).table, some policy) := by rw [← hp]; rfl
      have htake : ∀ key, (∃ table' ∈ (table :: tables).takeWhile Qualified, subKey table' = key)
          ↔ subKey table = key ∨ ∃ table' ∈ tables.takeWhile Qualified, subKey table' = key := by
        intro key
        rw [List.takeWhile_cons_of_pos (by simpa using hq)]
        simp
      simp only [← hkey]
      split_ifs with hnew
      · obtain ⟨r, t, hreg, hindexed, rfl, hfresh, htriggers⟩ := h.indexed.registerTable
          (parseServiceTable table).table policy .pubPolicyResult none
        simp only [hreg]
        have hs : Sound { s with
            triggerRegistry := r
            policySubData := Function.update s.policySubData (subKey table)
              (some ⟨s.triggerRegistry.created, (parseServiceTable table).table, policy, none,
                .pubPolicyResult⟩) } := by
          refine ⟨hindexed, fun key t ht => ?_, fun t ht hc => ?_⟩
          · by_cases hk : key = subKey table
            · subst hk
              simp only [Function.update_self, Option.some.injEq] at ht
              subst ht
              exact ⟨by simp [htriggers], rfl, rfl, hkey.symm, table, rfl⟩
            · simp only [Function.update_of_ne hk] at ht
              obtain ⟨hmem, h'⟩ := h.trigger key t ht
              exact ⟨by simp [htriggers, hmem], h'⟩
          · simp only [htriggers, List.mem_append, List.mem_singleton] at ht
            rcases ht with ht | rfl
            · have hold := h.sub t ht hc
              have hne : (t.tablename, some t.policy) ≠ subKey table := fun hk => by
                rw [hk, hnew] at hold
                simp at hold
              simpa [Function.update_of_ne hne] using hold
            · simp [hkey]
        obtain ⟨s', hok, hsound, hpub, hdata⟩ := Sound.onFirstSubs hs
        refine ⟨s', hok, hsound, hpub, fun key => ?_⟩
        rw [hdata, htake]
        by_cases hk : key = subKey table
        · simp [hk]
        · simp [Function.update_of_ne hk, Ne.symm hk]
      · obtain ⟨s', hok, hsound, hpub, hdata⟩ := Sound.onFirstSubs h
        refine ⟨s', hok, hsound, hpub, fun key => ?_⟩
        rw [hdata, htake, ← or_assoc]
        refine or_congr_left ⟨.inl, fun h => h.elim id ?_⟩
        rintro rfl
        exact hnew

theorem Sound.onNoSubs : ∀ {tables : List String} {s : PublishingRuntime}, s.Sound →
    ∃ s', s.onNoSubs tables = .ok s' ∧ s'.Sound
      ∧ s'.publishedTablesWithSubscriber = s.publishedTablesWithSubscriber
      ∧ ∀ key, s'.policySubData key ≠ none ↔ s.policySubData key ≠ none
        ∧ ∀ table ∈ tables, subKey table ≠ key
  | [], s, h => ⟨s, rfl, h, rfl, by simp⟩
  | table :: tables, s, h => by
    rw [PublishingRuntime.onNoSubs]
    cases hsub : s.policySubData (subKey table) with
    | none =>
      obtain ⟨s', hok, hsound, hpub, hdata⟩ := @Sound.onNoSubs tables _ h
      refine ⟨s', hok, hsound, hpub, fun key => ?_⟩
      rw [hdata, List.forall_mem_cons]
      refine and_congr_right fun hk => ⟨fun h' => ⟨?_, h'⟩, And.right⟩
      rintro rfl
      exact hk hsub
    | some trig =>
      obtain ⟨hmem, hcb, -, hkey, -⟩ := h.trigger _ trig hsub
      obtain ⟨r, hunreg, hindexed, htriggers⟩ := h.indexed.unregister hmem
      simp only [hunreg]
      have hs : Sound { s with
          triggerRegistry := r
          policySubData := Function.update s.policySubData (subKey table) none } := by
        refine ⟨hindexed, fun key t ht => ?_, fun t ht hc => ?_⟩
        · by_cases hk : key = subKey table
          · simp [hk] at ht
          · simp only [Function.update_of_ne hk] at ht
            obtain ⟨hmem', hc', hm', hk', h'⟩ := h.trigger key t ht
            refine ⟨?_, hc', hm', hk', h'⟩
            rw [htriggers]
            refine (List.mem_erase_of_ne fun he => hk ?_).2 hmem'
            rw [← hk', he, hkey]
        · simp only [htriggers, h.indexed.nodup.mem_erase_iff] at ht
          have hold := h.sub t ht.2 hc
          have hne : (t.tablename, some t.policy) ≠ subKey table := fun hk => ht.1 (by
            rw [hk, hsub] at hold
            exact (Option.some.inj hold).symm)
          simpa [Function.update_of_ne hne] using hold
      obtain ⟨s', hok, hsound, hpub, hdata⟩ := @Sound.onNoSubs tables _ hs
      refine ⟨s', hok, hsound, hpub, fun key => ?_⟩
      rw [hdata, List.forall_mem_cons]
      by_cases hk : key = subKey table
      · simp [hk]
      · simp [Function.update_of_ne hk, Ne.symm hk]

end PublishingRuntime

namespace DseNode

open PublishingRuntime

variable {n n' : DseNode} {order : SetOrder String}

/-- A service on this node or on a known peer subscribes to the table of the engine. -/
def HasSubscriber (n : DseNode) (table : String) : Prop :=
  (∃ tables subscribers, n.subscriptions.lookup n.serviceId = some tables
      ∧ tables.lookup table = some subscribers ∧ subscribers.Nonempty)
    ∨ ∃ peer ∈ n.peers.entries, ∃ tables, peer.2.lookup n.serviceId = some tables ∧ table ∈ tables

/-- A table is kept only as long as it has subscribers. -/
def Tidy (n : DseNode) : Prop := ∀ publisher tables, n.subscriptions.lookup publisher = some tables →
  ∀ table subscribers, tables.lookup table = some subscribers → subscribers.Nonempty

/-- Each table of a policy that has a subscriber is published by exactly one trigger, and there are
no other publishing triggers. -/
structure Publishes (n : DseNode) : Prop where
  one : ∀ table, Qualified table → n.HasSubscriber table → (n.engine.publishers table).length = 1
  others : ∀ t ∈ n.engine.triggerRegistry.triggers, t.callback = .pubPolicyResult →
    ∃ table, n.HasSubscriber table ∧ Qualified table ∧ (t.tablename, some t.policy) = subKey table

/-- What a run of `_update_tables_with_subscriber` has to bring about. -/
def PublishesAfter (_ : DseNode) : NodeOp → DseNode → Prop
  | .updateTables _, n' => n'.Publishes
  | _, _ => True

/-- Among the tables that get a subscriber, none of a policy comes behind one that is not. -/
def QualifiedFirst (n : DseNode) : NodeOp → Prop
  | .updateTables order =>
    ∀ table ∈ (order.toList (n.tablesWithSubs \ n.engine.publishedTablesWithSubscriber)).dropWhile
      Qualified, ¬ Qualified table
  | _ => True

/-- The tables with a publishing trigger are those that are remembered. -/
def Remembers (n : DseNode) : Prop := ∀ table, n.engine.policySubData (subKey table) ≠ none
  ↔ Qualified table ∧ table ∈ n.engine.publishedTablesWithSubscriber

theorem mem_foldl_union {α β : Type*} [DecidableEq β] {f : α → Finset β} {b : β} :
    ∀ {l : List α} {s : Finset β}, b ∈ l.foldl (fun s a => s ∪ f a) s ↔ b ∈ s ∨ ∃ a ∈ l, b ∈ f a
  | [], s => by simp
  | a :: l, s => by
    rw [List.foldl_cons, mem_foldl_union, Finset.mem_union]
    simp [or_assoc]

theorem mem_getD_empty {tables : Option (Finset String)} {table : String} :
    table ∈ tables.getD ∅ ↔ ∃ s, tables = some s ∧ table ∈ s := by
  cases tables <;> simp

theorem Tidy.mem_tablesWithSubs (h : n.Tidy) {table : String} :
    table ∈ n.tablesWithSubs ↔ n.HasSubscriber table := by
  rw [tablesWithSubs, Finset.mem_union, mem_foldl_union]
  refine or_congr ?_ ?_
  · rw [List.mem_toFinset, ← AList.mem_keys]
    cases hlook : n.subscriptions.lookup n.serviceId with
    | none => simp [AList.notMem_empty]
    | some tables =>
      rw [Option.getD_some, ← AList.lookup_isSome, Option.isSome_iff_exists]
      constructor
      · rintro ⟨subscribers, hs⟩
        exact ⟨tables, subscribers, rfl, hs, h _ _ hlook _ _ hs⟩
      · rintro ⟨tables', subscribers, ht, hs, -⟩
        cases ht
        exact ⟨subscribers, hs⟩
  · simp only [Finset.notMem_empty, false_or, mem_getD_empty]

theorem Tidy.subscribeTable (h : n.Tidy) (subscriber publisher table : String) :
    (n.subscribeTable subscriber publisher table).Tidy := by
  intro publisher' tables' hp table' subscribers' ht
  simp only [DseNode.subscribeTable] at hp
  by_cases hpub : publisher' = publisher
  · subst hpub
    rw [AList.lookup_insert, Option.some.injEq] at hp
    subst hp
    by_cases htable : table' = table
    · subst htable
      rw [AList.lookup_insert, Option.some.injEq] at ht
      subst ht
      exact Finset.insert_nonempty ..
    · rw [AList.lookup_insert_ne htable] at ht
      cases hlook : n.subscriptions.lookup publisher' with
      | none => simp [hlook] at ht
      | some tables =>
        rw [hlook, Option.getD_some] at ht
        exact h _ _ hlook _ _ ht
  · rw [AList.lookup_insert_ne hpub] at hp
    exact h _ _ hp _ _ ht

theorem Tidy.unsubscribeTable (h : n.Tidy) (subscriber publisher table : String) :
    (n.unsubscribeTable subscriber publisher table).Tidy := by
  unfold DseNode.unsubscribeTable
  cases hlook : n.subscriptions.lookup publisher with
  | none => exact h
  | some tables =>
    cases hlook' : tables.lookup table with
    | none =>
      simp only [hlook']
      exact h
    | some subscribers =>
      simp only [hlook']
      set tables' := if subscribers.erase subscriber = ∅ then tables.erase table
        else tables.insert table (subscribers.erase subscriber) with htables'
      have hkept : ∀ table' subscribers', tables'.lookup table' = some subscribers' →
          subscribers'.Nonempty := by
        intro table' subscribers' ht
        rw [htables'] at ht
        by_cases htable : table' = table
        · subst htable
          split_ifs at ht with hempty
          · simp at ht
          · rw [AList.lookup_insert, Option.some.injEq] at ht
            exact ht ▸ Finset.nonempty_iff_ne_empty.2 hempty
        · split_ifs at ht with hempty
          · rw [AList.lookup_erase_ne htable] at ht
            exact h _ _ hlook _ _ ht
          · rw [AList.lookup_insert_ne htable] at ht
            exact h _ _ hlook _ _ ht
      intro publisher' tables'' hp table' subscribers' ht
      by_cases hpub : publisher' = publisher
      · subst hpub
        by_cases hkeys : tables'.keys = []
        · simp [hkeys] at hp
        · simp only [if_neg hkeys, AList.lookup_insert, Option.some.injEq] at hp
          subst hp
          exact hkept _ _ ht
      · by_cases hkeys : tables'.keys = []
        · simp only [if_pos hkeys, AList.lookup_erase_ne hpub] at hp
          exact h _ _ hp _ _ ht
        · simp only [if_neg hkeys, AList.lookup_insert_ne hpub] at hp
          exact h _ _ hp _ _ ht

/-- What is kept by every step. -/
structure Sound (n : DseNode) : Prop where
  engine : n.engine.Sound
  tidy : n.Tidy

theorem publishes_iff_sub (h : n.Sound) : n.Publishes ↔ ∀ table,
    n.engine.policySubData (subKey table) ≠ none ↔ Qualified table ∧ table ∈ n.tablesWithSubs := by
  simp only [h.tidy.mem_tablesWithSubs]
  constructor
  · intro hp table
    constructor
    · intro hs
      obtain ⟨t, ht⟩ := Option.ne_none_iff_exists'.1 hs
      obtain ⟨hmem, hc, -, hk, -⟩ := h.engine.trigger _ t ht
      obtain ⟨table', hsub, hq, hk'⟩ := hp.others t hmem hc
      obtain rfl : table' = table := subKey_injective hq (hk'.symm.trans hk)
      exact ⟨hq, hsub⟩
    · rintro ⟨hq, hsub⟩ hnone
      have hone := hp.one table hq hsub
      simp [h.engine.length_publishers, hnone] at hone
  · refine fun hs => ⟨fun table hq hsub => ?_, fun t ht hc => ?_⟩
    · rw [h.engine.length_publishers, if_neg ((hs table).2 ⟨hq, hsub⟩)]
    · have hsub := h.engine.sub t ht hc
      obtain ⟨-, -, -, -, table, hk⟩ := h.engine.trigger _ t hsub
      have := (hs table).1 (by simp [hk, hsub])
      exact ⟨table, this.2, this.1, hk.symm⟩

/-- What a run of `_update_tables_with_subscriber` does. -/
theorem updateTables_spec (h : n.Sound) (order : SetOrder String) :
    ∃ n', n.updateTablesWithSubscriber order = .ok n' ∧ n'.Sound
      ∧ n'.tablesWithSubs = n.tablesWithSubs
      ∧ n'.engine.publishedTablesWithSubscriber = n.tablesWithSubs
      ∧ ∀ key, n'.engine.policySubData key ≠ none ↔ (n.engine.policySubData key ≠ none
          ∨ ∃ table ∈ (order.toList (n.tablesWithSubs \
              n.engine.publishedTablesWithSubscriber)).takeWhile Qualified, subKey table = key)
        ∧ ∀ table ∈ n.engine.publishedTablesWithSubscriber, table ∉ n.tablesWithSubs →
          subKey table ≠ key := by
  obtain ⟨e, hfirst, he, -, hdata⟩ := @Sound.onFirstSubs
    (order.toList (n.tablesWithSubs \ n.engine.publishedTablesWithSubscriber)) _ h.engine
  obtain ⟨e', hno, he', -, hdata'⟩ := @Sound.onNoSubs
    (order.toList (n.engine.publishedTablesWithSubscriber \ n.tablesWithSubs)) _ he
  refine ⟨{ n with engine := { e' with publishedTablesWithSubscriber := n.tablesWithSubs } }, ?_,
    ⟨⟨he'.indexed, he'.trigger, he'.sub⟩, h.tidy⟩, rfl, rfl, fun key => ?_⟩
  · rw [updateTablesWithSubscriber]
    simp only [hfirst]
    show (e.onNoSubs _).bind _ = _
    rw [hno]
    rfl
  · simp only [hdata', hdata, order.mem, Finset.mem_sdiff, and_imp]

theorem step_ok (h : n.Sound) (o : NodeOp) : ∃ n', n.step o = .ok n' ∧ n'.Sound := by
  cases o with
  | subscribe subscriber publisher table =>
    exact ⟨_, rfl, h.engine, h.tidy.subscribeTable subscriber publisher table⟩
  | unsubscribe subscriber publisher table =>
    refine ⟨_, rfl, ?_, h.tidy.unsubscribeTable subscriber publisher table⟩
    unfold unsubscribeTable
    split
    · exact h.engine
    · split <;> exact h.engine
  | heartbeat peer tables => exact ⟨_, rfl, h.engine, h.tidy⟩
  | updateDependencies graph closed =>
    obtain ⟨r, hok, hr, htriggers⟩ := h.engine.indexed.updateDependencies
      fun v w (hw : graph.Edge v w) => by
        obtain ⟨l, hl⟩ := Graph.edge_iff.1 hw
        exact closed v _ hl
    refine ⟨{ n with engine := { n.engine with triggerRegistry := r } }, ?_, ⟨hr, ?_, ?_⟩, h.tidy⟩
    · rw [step, hok]
      rfl
    · intro key t ht
      rw [htriggers]
      exact h.engine.trigger key t ht
    · intro t ht
      rw [htriggers] at ht
      exact h.engine.sub t ht
  | updateTables order =>
    obtain ⟨n', hok, hn', -⟩ := updateTables_spec h order
    exact ⟨n', hok, hn'⟩

/-- The engine changes its publishing triggers only in `_update_tables_with_subscriber`. -/
theorem step_frame {o : NodeOp} (ho : ∀ order, o ≠ .updateTables order) (hok : n.step o = .ok n')
    (h : n.Sound) : n'.engine.policySubData = n.engine.policySubData
      ∧ n'.engine.publishedTablesWithSubscriber = n.engine.publishedTablesWithSubscriber := by
  cases o with
  | subscribe subscriber publisher table =>
    cases hok
    exact ⟨rfl, rfl⟩
  | unsubscribe subscriber publisher table =>
    cases hok
    unfold unsubscribeTable
    split
    · exact ⟨rfl, rfl⟩
    · split <;> exact ⟨rfl, rfl⟩
  | heartbeat peer tables =>
    cases hok
    exact ⟨rfl, rfl⟩
  | updateDependencies graph closed =>
    obtain ⟨r, hr, -, -⟩ := h.engine.indexed.updateDependencies fun v w (hw : graph.Edge v w) => by
      obtain ⟨l, hl⟩ := Graph.edge_iff.1 hw
      exact closed v _ hl
    rw [step, hr] at hok
    cases hok
    exact ⟨rfl, rfl⟩
  | updateTables order => exact absurd rfl (ho order)

theorem remembers_of_publishes (h : n.Sound) (hn : n.Remembers) {o : NodeOp}
    (hok : n.step o = .ok n') (hp : n.PublishesAfter o n') : n'.Remembers := by
  by_cases ho : ∃ order, o = .updateTables order
  · obtain ⟨order, rfl⟩ := ho
    obtain ⟨n'', hok', hsound, htables, hpub, -⟩ := updateTables_spec h order
    obtain rfl : n'' = n' := Except.ok.inj (hok'.symm.trans hok)
    intro table
    rw [hpub, ← htables]
    exact (publishes_iff_sub hsound).1 hp table
  · obtain ⟨hdata, hpub⟩ := step_frame (fun order ho' => ho ⟨order, ho'⟩) hok h
    intro table
    rw [hdata, hpub]
    exact hn table

/-- Where the engine remembers rightly, a run publishes rightly exactly if no table of a policy that
gets a subscriber comes behind one that is not of a policy. -/
theorem publishesAfter_iff (h : n.Sound) (hn : n.Remembers) {o : NodeOp}
    (hok : n.step o = .ok n') : n.PublishesAfter o n' ↔ n.QualifiedFirst o := by
  cases o with
  | updateTables order =>
    obtain ⟨n'', hok', hsound, htables, -, hdata⟩ := updateTables_spec h order
    obtain rfl : n'' = n' := Except.ok.inj (hok'.symm.trans hok)
    set added := order.toList (n.tablesWithSubs \ n.engine.publishedTablesWithSubscriber) with hadded
    have hmem : ∀ table, table ∈ added
        ↔ table ∈ n.tablesWithSubs ∧ table ∉ n.engine.publishedTablesWithSubscriber := fun table => by
      rw [hadded, order.mem, Finset.mem_sdiff]
    show n''.Publishes ↔ ∀ table ∈ added.dropWhile Qualified, ¬ Qualified table
    rw [publishes_iff_sub hsound, htables]
    have hsplit := List.takeWhile_append_dropWhile (p := fun x => decide (Qualified x)) (l := added)
    have hnodup : (added.takeWhile Qualified ++ added.dropWhile Qualified).Nodup :=
      hsplit.symm ▸ order.nodup _
    have hdisjoint := (List.nodup_append.1 hnodup).2.2
    constructor
    · intro hall table hdrop hq
      have hin : table ∈ added := hsplit ▸ List.mem_append_right _ hdrop
      have hsub := (hall table).2 ⟨hq, ((hmem table).1 hin).1⟩
      rcases ((hdata _).1 hsub).1 with hold | ⟨table', htake, hk⟩
      · exact ((hmem table).1 hin).2 ((hn table).1 hold).2
      · obtain rfl : table = table' := subKey_injective hq hk.symm
        exact hdisjoint _ htake _ hdrop rfl
    · intro hall table
      rw [hdata, hn]
      constructor
      · rintro ⟨(⟨hq, hpub⟩ | ⟨table', htake, hk⟩), hremoved⟩
        · refine ⟨hq, ?_⟩
          by_contra hno
          exact hremoved table hpub hno rfl
        · have hq' : Qualified table' := by simpa using List.mem_takeWhile_imp htake
          obtain rfl : table' = table := subKey_injective hq' hk
          exact ⟨hq', ((hmem _).1 (hsplit ▸ List.mem_append_left _ htake)).1⟩
      · rintro ⟨hq, hin⟩
        refine ⟨?_, fun table' _ hno hk => hno (subKey_injective hq hk.symm ▸ hin)⟩
        by_cases hpub : table ∈ n.engine.publishedTablesWithSubscriber
        · exact .inl ⟨hq, hpub⟩
        · have hadd := (hmem table).2 ⟨hin, hpub⟩
          rw [← hsplit, List.mem_append] at hadd
          exact .inr ⟨table, hadd.resolve_right fun hdrop => hall table hdrop hq, rfl⟩
  | _ => exact ⟨fun _ => trivial, fun _ => trivial⟩

theorem sound_init (serviceId : String) : (init serviceId).Sound where
  engine := ⟨TriggerRegistry.indexed_empty, by simp [init], by simp [init, TriggerRegistry.empty]⟩
  tidy := by simp [init, Tidy]

theorem alwaysOk_publishesAfter_iff (ops : List NodeOp) (h : n.Sound) (hn : n.Remembers) :
    AlwaysOk step PublishesAfter n ops ↔ AlongOk step QualifiedFirst n ops :=
  alwaysOk_iff_alongOk (I := Sound) (fun _ o h => step_ok h o)
    (fun _ _ _ h hn hok hp => remembers_of_publishes h hn hok hp)
    (fun _ _ _ h hn hok => publishesAfter_iff h hn hok) ops h hn

/-- After every run of `_update_tables_with_subscriber` exactly the tables of policies that have a
subscriber are published, if and only if in every run no table of a policy that gets a subscriber
comes behind one that is not of a policy. -/
theorem publishes_iff (serviceId : String) (ops : List NodeOp) :
    AlwaysOk step PublishesAfter (init serviceId) ops
      ↔ AlongOk step QualifiedFirst (init serviceId) ops :=
  alwaysOk_publishesAfter_iff ops (sound_init serviceId) fun table => by simp [init]

/-- A set of strings in their order. -/
def sortedOrder : SetOrder String where
  toList s := s.sort (· ≤ ·)
  mem _ _ := Finset.mem_sort _
  nodup _ := Finset.sort_nodup _ _

/-- A subscriber of the table `p:q`, and of `a`, which is no table of a policy and comes first. -/
theorem not_publishes_unqualified : ¬ AlwaysOk step PublishesAfter (init "engine")
    [.subscribe "nova" "engine" "a", .subscribe "nova" "engine" "p:q", .updateTables sortedOrder] := by
  rw [alwaysOk_publishesAfter_iff _ (sound_init _) fun table => by simp [init]]
  intro h
  obtain ⟨hfirst, -⟩ := ((h.2 _ rfl).2 _ rfl)
  have horder : sortedOrder.toList {"a", "p:q"} = ["a", "p:q"] := by
    show Finset.sort {"a", "p:q"} (· ≤ ·) = _
    rw [Finset.sort_insert, Finset.sort_singleton]
    · decide
    · decide
  have hadded : ((((init "engine").subscribeTable "nova" "engine" "a").subscribeTable "nova" "engine"
      "p:q").tablesWithSubs \ ∅) = {"a", "p:q"} := by decide
  have hdrop : "p:q" ∈ ["a", "p:q"].dropWhile Qualified := by decide
  rw [← horder, ← hadded] at hdrop
  exact hfirst "p:q" hdrop (by decide)

end DseNode

end Congress
