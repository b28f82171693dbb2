import Congress.Lib.Worklists
import Congress.Proofs.ViewSteps

/-!
# Running the queue of materialized views

The queue runs empty if the rules are not recursive, since an event brings about events for higher tables only.
All deletions on the way are exhaustive if the tables that may lose tuples (`Losing`) have no tuple that can
be proved in two ways. Then the database holds in the end what the rules give (`processQueue_done`).
-/

namespace Congress

open Lib Stateful Relation

set_option linter.unusedSectionVars false

variable {V : Type} [DecidableEq V] [Inhabited V] {reg : BuiltinRegistry V} {fuel n : ℕ} {r rule : Rule V}
  {l : Literal V} {e : ProofEvent V} {D S : Set String} {R : Set (Rule V)} {q : List (ProofEvent V)}
  {x : (String × List V) × Proof V} {rank : String → ℕ}

/-- The head of a rule is a table that depends on those in the body. -/
def Depends (reg : BuiltinRegistry V) (R : Set (Rule V)) (a b : String) : Prop :=
  ∃ r ∈ R, r.head.table.table = a ∧ ∃ l ∈ r.body, l.IsRow reg ∧ l.table.table = b

/-- Tables that may lose tuples: with a table those that depend on it, and all that depend on a negated one.
No tuple of such a table is given by two different instances of rules. -/
structure Losing (reg : BuiltinRegistry V) (R : Set (Rule V)) (S : Set String) : Prop where
  positive : ∀ r ∈ R, ∀ l ∈ r.body, l.IsRow reg → l.table.table ∈ S → r.head.table.table ∈ S
  negated : ∀ r ∈ R, ∀ l ∈ r.body, l.IsRow reg → l.negated = true → r.head.table.table ∈ S
  unambiguous : ∀ r ∈ R, ∀ r' ∈ R, r.head.table.table ∈ S → r.head.table.table = r'.head.table.table →
    ∀ ν ν', r.head.values ν = r'.head.values ν' →
      (⟨r.binding ν, r⟩ : Proof V).same ⟨r'.binding ν', r'⟩ = true

namespace MaterializedViewTheory

variable {th th' : MaterializedViewTheory V} {theories : Theories V}
  {setOrder : List (TopDownResult V) → List (TopDownResult V)}

/-- What the queue and the database know about comes from rules in `R`, and deletions are about tables
in `S`. -/
structure Known (reg : BuiltinRegistry V) (R : Set (Rule V)) (S : Set String) (th : MaterializedViewTheory V) :
    Prop where
  originals : ∀ r ∈ th.deltaRules.originals, r ∈ R
  rules : ∀ e ∈ th.queue, ∀ rule r, e.formula = .rule rule → reorderForSafety reg rule = some r →
    r ∈ R ∧ (e.insert = false → r.head.table.table ∈ S)
  tuples : ∀ e ∈ th.queue, ∀ l, e.formula = .atom l → e.insert = false → l.table.table ∈ S
  proofs : ∀ e ∈ th.queue, ∀ x ∈ e.change.on, ∃ r ∈ R, ∃ ν, r.Proves ν x
  held : ∀ x ∈ th.database.held, ∃ r ∈ R, ∃ ν, r.Proves ν x

/-- A deletion takes all proofs of its tuple, as there is one at most. -/
theorem Known.exhaustive (hk : th.Known reg R S) (hS : Losing reg R S) (hb : Balanced reg fuel D th)
    (hq : th.queue = e :: q) : e.Exhaustive th.database := by
  intro hins l hl p hp
  have he : e ∈ th.queue := hq ▸ List.mem_cons_self
  obtain ⟨ps, hps, hhas⟩ := Database.mem_held.1 hp
  have hne : ps ≠ [] := by
    rintro rfl
    cases hhas
  have hD : l.table.table ∈ D := by
    by_contra hD
    exact hne ((hb.sorted _ _ _ hps).2 hD)
  have hproofs : e.proofs ≠ [] := by
    have hfits := hb.fits e he
    cases hfits with
    | rule => cases hl
    | tuple _ _ hderived =>
      cases hl
      exact fun hnil => hderived.1 hnil hD
  obtain ⟨p₀, hp₀⟩ := List.exists_mem_of_ne_nil _ hproofs
  obtain ⟨r, hr, ν, hprove⟩ := hk.held _ hp
  obtain ⟨r₀, hr₀, ν₀, hprove₀⟩ :=
    hk.proofs e he (l.key, p₀) ((Database.mem_change_on hl).2 ⟨rfl, ProofCollection.has_of_mem hp₀⟩)
  obtain ⟨htable, hvalues⟩ := Prod.mk.inj (hprove.1.symm.trans hprove₀.1)
  have hheadS : r.head.table.table ∈ S := by
    rw [← show l.table.table = r.head.table.table from congrArg Prod.fst hprove.1]
    exact hk.tuples e he l hl hins
  have hsame := hS.unambiguous r hr r₀ hr₀ hheadS htable ν ν₀ hvalues
  refine ProofCollection.has_iff.2 ⟨p₀, hp₀, ?_⟩
  exact Proof.same_trans hprove.2 (Proof.same_trans hsame (Proof.same_symm hprove₀.2))

/-- What a step brings about is known as well. -/
theorem Known.step (hk : th.Known reg R S) (hS : Losing reg R S) (hb : Balanced reg fuel D th)
    (hq : th.queue = e :: q) (hs : Stepped reg th e q th') : th'.Known reg R S := by
  have he : e ∈ th.queue := hq ▸ List.mem_cons_self
  obtain ⟨new, hqueue, hnew⟩ := hs.queue
  have hmem : ∀ n ∈ th'.queue, n ∈ th.queue ∨ n ∈ new := fun n hn => by
    rw [hqueue, List.mem_append] at hn
    exact hn.imp_left fun hn => hq ▸ List.mem_cons_of_mem _ hn
  have hbrought : ∀ n r, Brought reg th e n r → r ∈ R ∧ (n.insert = false → r.head.table.table ∈ S) := by
    rintro n r (⟨hf, hr, hsign⟩ | @⟨l, t, _, hf, hr, ht, hbuiltin, htable, hsign⟩)
    · rw [hsign]
      exact hk.rules e he _ r hf hr
    · refine ⟨hk.originals r hr, fun hins => ?_⟩
      have hnamed : IsTable reg l.table.table := by
        have hfits := hb.fits e he
        cases hfits with
        | rule => cases hf
        | tuple _ hnamed _ =>
          cases hf
          exact hnamed
      have hrow : t.IsRow reg := Literal.isRow_of_table (htable ▸ hnamed)
      cases hneg : t.negated with
      | true => exact hS.negated r (hk.originals r hr) t ht hrow hneg
      | false =>
        rw [hsign, hneg, Bool.bne_false] at hins
        exact hS.positive r (hk.originals r hr) t ht hrow (htable ▸ hk.tuples e he l hf hins)
  refine ⟨fun r hr => ?_, fun n hn rule r hf hr => ?_, fun n hn l hf hins => ?_, fun n hn x hx => ?_,
    fun x hx => ?_⟩
  · rcases hs.originals r hr with hr | ⟨rule, hf, hr⟩
    · exact hk.originals r hr
    · exact (hk.rules e he rule r hf hr).1
  · rcases hmem n hn with hn | hn
    · exact hk.rules n hn rule r hf hr
    · obtain ⟨r', hr'⟩ := hnew n hn
      obtain ⟨l, hl, -⟩ := hr'.tuple
      rw [hl] at hf
      cases hf
  · rcases hmem n hn with hn | hn
    · exact hk.tuples n hn l hf hins
    · obtain ⟨r, hr⟩ := hnew n hn
      obtain ⟨l', hl', -, htable, -⟩ := hr.tuple
      rw [hl'] at hf
      cases hf
      exact htable ▸ (hbrought n r hr.brought).2 hins
  · rcases hmem n hn with hn | hn
    · exact hk.proofs n hn x hx
    · obtain ⟨r, hr⟩ := hnew n hn
      exact ⟨r, (hbrought n r hr.brought).1, hr.proves x hx⟩
  · rcases hs.held x hx with hx | hx
    · exact hk.held x hx
    · exact hk.proofs e he x hx

/-- How far an event is from the highest table. -/
def height (rank : String → ℕ) (top : ℕ) (e : ProofEvent V) : ℕ :=
  match e.formula with
  | .rule rule => top - rank rule.head.table.table + 1
  | .atom l => top - rank l.table.table

/-- A step takes an event from the queue and puts only lower ones there. -/
theorem Stepped.advances {top : ℕ} (hs : Stepped reg th e q th') (hk : th.Known reg R S)
    (hb : Balanced reg fuel D th) (hq : th.queue = e :: q)
    (hrank : ∀ a b, Depends reg R a b → rank b < rank a) (htop : ∀ r ∈ R, rank r.head.table.table ≤ top) :
    Advances (·.queue) (height rank top) th th' := by
  obtain ⟨new, hqueue, hnew⟩ := hs.queue
  refine ⟨e, q, new, hq, hqueue, fun n hn => ?_⟩
  obtain ⟨r, hr⟩ := hnew n hn
  obtain ⟨a, ha, -, htable, -⟩ := hr.tuple
  have hn : height rank top n = top - rank r.head.table.table := by rw [height, ha, ← htable]
  have hbrought := hr.brought
  rw [hn]
  cases hbrought with
  | @rule rule _ hf hreordered =>
    rw [height, hf, (reorderForSafety_safe hreordered).1]
    exact Nat.lt_succ_self _
  | @tuple l t _ hf hstored ht hbuiltin htable =>
    have hfits := hb.fits e (hq ▸ List.mem_cons_self)
    cases hfits with
    | rule => cases hf
    | tuple _ hnamed _ =>
      cases hf
      have hrow : t.IsRow reg := Literal.isRow_of_table (htable ▸ hnamed)
      have hlt := hrank _ _ ⟨r, hk.originals r hstored, rfl, t, ht, hrow, htable⟩
      have hle := htop r (hk.originals r hstored)
      show top - rank r.head.table.table < top - rank l.table.table
      omega

/-- The queue is run for one event. -/
def Step (reg : BuiltinRegistry V) (theories : Theories V)
    (setOrder : List (TopDownResult V) → List (TopDownResult V)) (fuel : ℕ) (th th' : MaterializedViewTheory V) :
    Prop :=
  ∃ e q changes, th.queue = e :: q
    ∧ (processEvent reg theories setOrder fuel e).run { th with queue := q } = (.ok changes, th')

theorem processQueue_of_steps (h : ReflTransGen (Step reg theories setOrder fuel) th th') (hnil : th'.queue = []) :
    ∃ N changes, ∀ n ≥ N, (processQueue reg theories setOrder fuel n).run th = (.ok changes, th') := by
  induction h using ReflTransGen.head_induction_on with
  | refl =>
    refine ⟨1, [], fun n hn => ?_⟩
    obtain ⟨n, rfl⟩ := Nat.exists_eq_succ_of_ne_zero (Nat.one_le_iff_ne_zero.1 hn)
    unfold processQueue
    rw [run_get_bind, hnil]
    rfl
  | head hstep _ ih =>
    obtain ⟨N, history, hN⟩ := ih
    obtain ⟨e, q, changes, hq, hrun⟩ := hstep
    refine ⟨N + 1, changes ++ history, fun n hn => ?_⟩
    obtain ⟨n, rfl⟩ := Nat.exists_eq_add_of_le' (Nat.le_of_add_left_le hn)
    unfold processQueue
    rw [run_get_bind, hq]
    simp only [run_modify_bind]
    refine run_bind_ok.2 ⟨changes, _, hrun, run_bind_ok.2 ⟨history, _, hN n (by omega), rfl⟩⟩

/-- The queue runs empty, and the database then holds what the rules give. -/
theorem processQueue_done (horder : ∀ rs, (setOrder rs).Perm rs) (hS : Losing reg R S) {top : ℕ}
    (hrank : ∀ a b, Depends reg R a b → rank b < rank a) (htop : ∀ r ∈ R, rank r.head.table.table ≤ top)
    (hb : Balanced reg fuel D th) (hk : th.Known reg R S) :
    ∃ N changes th', (∀ n ≥ N, (processQueue reg theories setOrder fuel n).run th = (.ok changes, th'))
      ∧ th'.name = th.name ∧ th'.queue = [] ∧ Balanced reg fuel D th' ∧ th'.Known reg R S := by
  let P (th₁ : MaterializedViewTheory V) : Prop :=
    th₁.name = th.name ∧ Balanced reg fuel D th₁ ∧ th₁.Known reg R S
  have hstep : ∀ th₁, P th₁ → th₁.queue ≠ [] → ∃ th₂, Step reg theories setOrder fuel th₁ th₂ ∧ P th₂
      ∧ Advances (·.queue) (height rank top) th₁ th₂ := by
    rintro th₁ ⟨hname, hb, hk⟩ hne
    obtain ⟨e, q, hq⟩ := List.exists_cons_of_ne_nil hne
    obtain ⟨changes, th₂, hrun, hb₂, hs⟩ := hb.step horder hq (hk.exhaustive hS hb hq)
    exact ⟨th₂, ⟨e, q, changes, hq, hrun⟩, ⟨hs.name.trans hname, hb₂, hk.step hS hb hq hs⟩,
      hs.advances hk hb hq hrank htop⟩
  obtain ⟨th', hsteps, ⟨hname, hb', hk'⟩, hnil⟩ := exists_done hstep ⟨rfl, hb, hk⟩
  obtain ⟨N, changes, hN⟩ := processQueue_of_steps hsteps hnil
  exact ⟨N, changes, th', hN, hname, hnil, hb', hk'⟩

end MaterializedViewTheory

end Congress
