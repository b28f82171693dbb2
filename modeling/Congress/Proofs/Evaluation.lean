import Congress.Proofs.Semantics
import Congress.Proofs.Unification

/-!
# What a search finds

The state of a search says which valuations of all unifiers' variables are still possible, and the
contexts say which literals have to be true under them. `eval_spec`: with enough fuel, evaluation
leaves the unifiers as they were and adds results that agree with such valuations; it adds one for
each of them, or if one answer is enough, it adds one exactly if there is any.
-/

namespace Congress

open Lib Bindings

set_option linter.unusedSectionVars false

variable {V : Type*} [DecidableEq V] {reg : BuiltinRegistry V} {h h' : Bindings V}
  {S T : Set (ℕ × String)} {k : ℕ × String}

/-- A variable has a constant, or will have one when those of `S` do. -/
def Det (h : Bindings V) (S : Set (ℕ × String)) (k : ℕ × String) : Prop :=
  (∃ c, h.root (.variable k.2 k.1) = .object c)
    ∨ ∃ s ∈ S, h.root (.variable k.2 k.1) = h.root (.variable s.2 s.1)

theorem Det.of_mem (hk : k ∈ S) : Det h S k := .inr ⟨k, hk, rfl⟩

theorem Det.mono (hs : h <:+ h') (hS : ∀ k ∈ S, Det h' T k) (hk : Det h S k) : Det h' T k := by
  rcases hk with ⟨c, hc⟩ | ⟨s, hs', he⟩
  · refine .inl ⟨c, ?_⟩
    rw [← root_object (h := h') c]
    exact root_eq_of_suffix hs (by rw [hc, root_object])
  · have he := root_eq_of_suffix hs he
    rcases hS s hs' with ⟨c, hc⟩ | ⟨t, ht, hte⟩
    · exact .inl ⟨c, he.trans hc⟩
    · exact .inr ⟨t, ht, he.trans hte⟩

/-- The variables of some literals within a unifier. -/
def keys (u : ℕ) (ls : List (Literal V)) : Set (ℕ × String) :=
  {k | k.1 = u ∧ ∃ l ∈ ls, k.2 ∈ l.variableNames}

theorem keys_nil (u : ℕ) : keys u ([] : List (Literal V)) = ∅ := by
  ext k
  simp [keys]

theorem keys_cons (u : ℕ) (l : Literal V) (ls : List (Literal V)) :
    keys u (l :: ls) = keys u [l] ∪ keys u ls := by
  ext k
  show k.1 = u ∧ (∃ l' ∈ l :: ls, k.2 ∈ l'.variableNames)
    ↔ k.1 = u ∧ (∃ l' ∈ [l], k.2 ∈ l'.variableNames) ∨ k.1 = u ∧ ∃ l' ∈ ls, k.2 ∈ l'.variableNames
  rw [List.exists_mem_cons_iff, List.exists_mem_cons_iff, ← and_or_left]
  simp

/-- The variables of the literals still to be proved. -/
def pendingKeys (fs : List (Frame V)) : Set (ℕ × String) :=
  {k | ∃ f ∈ fs, k ∈ keys f.binding f.literals.tail}

theorem pendingKeys_cons (f : Frame V) (fs : List (Frame V)) :
    pendingKeys (f :: fs) = keys f.binding f.literals.tail ∪ pendingKeys fs := by
  ext k
  simp [pendingKeys]

/-- The literals still to be proved can be evaluated in their order once the variables of `S` have
constants. -/
def SafeFrames (reg : BuiltinRegistry V) (h : Bindings V) : Set (ℕ × String) → List (Frame V) → Prop
  | _, [] => True
  | S, f :: fs => SafeInOrder reg (fun x => Det h S (f.binding, x)) f.literals.tail
    ∧ SafeFrames reg h (S ∪ keys f.binding f.literals.tail) fs

theorem SafeFrames.mono {fs : List (Frame V)} (hs : h <:+ h') (hS : ∀ k ∈ S, Det h' T k)
    (hf : SafeFrames reg h S fs) : SafeFrames reg h' T fs := by
  induction fs generalizing S T with
  | nil => trivial
  | cons f fs ih =>
    refine ⟨hf.1.mono fun x => Det.mono hs hS, ih (fun k hk => ?_) hf.2⟩
    rcases hk with hk | hk
    · exact (hS k hk).mono List.suffix_rfl fun k hk => .of_mem (.inl hk)
    · exact .of_mem (.inr hk)

/-- The theories that a search can come to, each with the literals that can be asked there. -/
abbrev Scope (V : Type*) := TopDownTheory V → Literal V → Prop

variable {scope : Scope V} {n m : ℕ} {X : List String}

/-- A variable of one of the first `n` unifiers, in the first unifier one of `X`. -/
def Allowed (X : List String) (n : ℕ) (k : ℕ × String) : Prop := k.1 < n ∧ (k.1 = 0 → k.2 ∈ X)

theorem Allowed.mono (hn : n ≤ m) (hk : Allowed X n k) : Allowed X m k := ⟨hk.1.trans_le hn, hk.2⟩

/-- What holds of the contexts when `n` unifiers have been made. -/
structure Frame.Ok (scope : Scope V) (X : List String) (n : ℕ) (f : Frame V) : Prop where
  admitted : ∀ l ∈ f.literals, scope f.theory l
  binding : f.binding < n
  allowed : ∀ l ∈ f.literals, ∀ x ∈ l.variableNames, f.binding = 0 → x ∈ X

theorem Frame.Ok.mono {f : Frame V} (hn : n ≤ m) (hf : f.Ok scope X n) : f.Ok scope X m :=
  ⟨hf.admitted, hf.binding.trans_le hn, hf.allowed⟩

/-- What holds of the search before and after every call. -/
structure Search.Ready (X : List String) (s : Search V) : Prop where
  trail : s.bindings.Trail
  bounded : s.bindings.Over (Allowed X s.unifiers)
  pos : 0 < s.unifiers

/-- The constants of a result are the values of a valuation. -/
def TopDownResult.Agrees (r : TopDownResult V) (ρ : ℕ × String → V) : Prop :=
  ∀ x c, (x, Term.object c) ∈ r.binding → ρ (0, x) = c

/-- The terms in a result: constants for the variables of `ground`, and the variables themselves for
those that are not in `X`. -/
structure TopDownResult.Fits (names X : List String) (ground : ℕ × String → Prop)
    (r : TopDownResult V) : Prop where
  names : r.binding.map Prod.fst = names
  ground : ∀ e ∈ r.binding, ground (0, e.1) → ∃ c, e.2 = .object c
  other : ∀ e ∈ r.binding, e.1 ∉ X → e.2 = .variable e.1

/-- The results `new` are those for the valuations that are possible and meet `goal`. -/
structure Found (caller : Caller V) (X : List String) (h : Bindings V) (S : Set (ℕ × String))
    (goal : (ℕ × String → V) → Prop) (new : List (TopDownResult V)) (done : Bool) : Prop where
  sound : ∀ r ∈ new, r.Fits caller.variableNames X (Det h S)
    ∧ ∃ ρ, Models ρ h ∧ goal ρ ∧ r.Agrees ρ
  complete : caller.findAll = true ∨ done = false → ∀ ρ, Models ρ h → goal ρ → ∃ r ∈ new, r.Agrees ρ
  one : caller.findAll = false → new.length = if done then 1 else 0

/-- A call from `s` succeeds and finds those results. -/
def Evaluates (caller : Caller V) (X : List String) (S : Set (ℕ × String))
    (goal : (ℕ × String → V) → Prop) (s : Search V) (out : Outcome (Bool × Search V)) : Prop :=
  ∃ done s' new, out = .ok (done, s') ∧ s'.bindings = s.bindings ∧ s.unifiers ≤ s'.unifiers
    ∧ s'.support = s.support ∧ s'.results = s.results ++ new ∧ Found caller X s.bindings S goal new done

variable {caller : Caller V} {goal goal' : (ℕ × String → V) → Prop} {new new' : List (TopDownResult V)}
  {done done' : Bool} {s s' : Search V} {out : Outcome (Bool × Search V)}

/-- From unifiers with more entries, and another goal. -/
theorem Found.transfer (hf : Found caller X h' T goal' new done)
    (hS : ∀ k, Det h S k → Det h' T k)
    (hsound : ∀ ρ, Models ρ h' → goal' ρ → Models ρ h ∧ goal ρ)
    (hcomplete : ∀ ρ, Models ρ h → goal ρ →
      ∃ ρ', Models ρ' h' ∧ goal' ρ' ∧ ∀ x, ρ' (0, x) = ρ (0, x)) :
    Found caller X h S goal new done where
  sound r hr := by
    obtain ⟨hfit, ρ, hm, hg, ha⟩ := hf.sound r hr
    obtain ⟨hm', hg'⟩ := hsound ρ hm hg
    exact ⟨⟨hfit.names, fun e he hk => hfit.ground e he (hS _ hk), hfit.other⟩, ρ, hm', hg', ha⟩
  complete hd ρ hm hg := by
    obtain ⟨ρ', hm', hg', hx⟩ := hcomplete ρ hm hg
    obtain ⟨r, hr, ha⟩ := hf.complete hd ρ' hm' hg'
    exact ⟨r, hr, fun x c hxc => (hx x).symm.trans (ha x c hxc)⟩
  one := hf.one

theorem Found.congr (hf : Found caller X h T goal' new done) (hS : ∀ k ∈ S, Det h T k)
    (hg : ∀ ρ, Models ρ h → (goal' ρ ↔ goal ρ)) : Found caller X h S goal new done :=
  hf.transfer (fun _ => Det.mono List.suffix_rfl hS) (fun ρ hm h => ⟨hm, (hg ρ hm).1 h⟩)
    fun ρ hm h => ⟨ρ, hm, (hg ρ hm).2 h, fun _ => rfl⟩

/-- One more alternative, if the search is not over. -/
theorem Found.append (hf : Found caller X h S goal new done)
    (hd : caller.findAll = true ∨ done = false) (hf' : Found caller X h S goal' new' done') :
    Found caller X h S (fun ρ => goal ρ ∨ goal' ρ) (new ++ new') done' where
  sound r hr := by
    rcases List.mem_append.1 hr with hr | hr
    · obtain ⟨hfit, ρ, hm, hg, ha⟩ := hf.sound r hr
      exact ⟨hfit, ρ, hm, .inl hg, ha⟩
    · obtain ⟨hfit, ρ, hm, hg, ha⟩ := hf'.sound r hr
      exact ⟨hfit, ρ, hm, .inr hg, ha⟩
  complete hd' ρ hm hg := by
    rcases hg with hg | hg
    · obtain ⟨r, hr, ha⟩ := hf.complete hd ρ hm hg
      exact ⟨r, List.mem_append_left _ hr, ha⟩
    · obtain ⟨r, hr, ha⟩ := hf'.complete hd' ρ hm hg
      exact ⟨r, List.mem_append_right _ hr, ha⟩
  one hall := by
    have hd := hd.resolve_left (by simp [hall])
    subst hd
    rw [List.length_append, hf.one hall, hf'.one hall]
    simp

/-- The search is over, so other alternatives do not matter. -/
theorem Found.of_done (hf : Found caller X h S goal new true) (hall : caller.findAll = false) :
    Found caller X h S (fun ρ => goal ρ ∨ goal' ρ) new true where
  sound r hr := by
    obtain ⟨hfit, ρ, hm, hg, ha⟩ := hf.sound r hr
    exact ⟨hfit, ρ, hm, .inl hg, ha⟩
  complete hd := by simp [hall] at hd
  one := hf.one

/-- Nothing is found where no valuation meets the goal. -/
theorem Evaluates.fail (hg : ∀ ρ, Models ρ s.bindings → ¬ goal ρ) (hb : s'.bindings = s.bindings)
    (hu : s.unifiers ≤ s'.unifiers) (hp : s'.support = s.support) (hr : s'.results = s.results) :
    Evaluates caller X S goal s (.ok (false, s')) :=
  ⟨false, s', [], rfl, hb, hu, hp, by simp [hr], by simp, fun _ ρ hm h => absurd h (hg ρ hm),
    fun _ => rfl⟩

theorem Evaluates.congr (he : Evaluates caller X T goal' s out) (hS : ∀ k ∈ S, Det s.bindings T k)
    (hg : ∀ ρ, Models ρ s.bindings → (goal' ρ ↔ goal ρ)) : Evaluates caller X S goal s out := by
  obtain ⟨done, s', new, ho, hb, hu, hp, hr, hf⟩ := he
  exact ⟨done, s', new, ho, hb, hu, hp, hr, hf.congr hS hg⟩

/-- From a search that differs in unifiers made meanwhile. -/
theorem Evaluates.of_later (s : Search V) {s₁ : Search V} (he : Evaluates caller X S goal s₁ out)
    (hb : s₁.bindings = s.bindings) (hu : s.unifiers ≤ s₁.unifiers) (hp : s₁.support = s.support)
    (hr : s₁.results = s.results) : Evaluates caller X S goal s out := by
  obtain ⟨done, s', new, ho, hb', hu', hp', hr', hf⟩ := he
  exact ⟨done, s', new, ho, hb'.trans hb, hu.trans hu', hp'.trans hp, by rw [hr', hr], hb ▸ hf⟩

/-- The variables of a new unifier can have any values. -/
theorem exists_extension_of_over {ρ : ℕ × String → V} (hb : h.Over (·.1 < n)) (hm : Models ρ h)
    (ν : String → V) : ∃ ρ', Models ρ' h ∧ (fun x => ρ' (n, x)) = ν
      ∧ ∀ u, u < n → (fun x => ρ' (u, x)) = fun x => ρ (u, x) := by
  refine ⟨fun k => if k.1 = n then ν k.2 else ρ k, ?_, funext fun x => if_pos rfl,
    fun u hu => funext fun x => if_neg hu.ne⟩
  exact hm.congr hb fun k hk => (if_neg hk.ne).symm

theorem exists_extension {ρ : ℕ × String → V} (hr : s.Ready X) (hm : Models ρ s.bindings)
    (ν : String → V) : ∃ ρ', Models ρ' s.bindings ∧ (fun x => ρ' (s.unifiers, x)) = ν
      ∧ ∀ u, u < s.unifiers → (fun x => ρ' (u, x)) = fun x => ρ (u, x) :=
  exists_extension_of_over (hr.bounded.mono fun _ hk => hk.1) hm ν

theorem within_eval (ρ : ℕ × String → V) (u : ℕ) (t : Term V) :
    (t.within u).eval ρ = t.value fun x => ρ (u, x) := by
  cases t <;> rfl

/-- Equal values of the arguments, as unification states them. -/
theorem zip_eval_iff (ρ : ℕ × String → V) (u u' : ℕ) : ∀ {ts ts' : List (Term V)},
    ts.length = ts'.length →
    ((∀ p ∈ (ts.map (·.within u)).zip (ts'.map (·.within u')), p.1.eval ρ = p.2.eval ρ)
      ↔ ts.map (Term.value fun x => ρ (u, x)) = ts'.map (Term.value fun x => ρ (u', x)))
  | [], [], _ => by simp
  | t :: ts, t' :: ts', hl => by
    have ih := zip_eval_iff ρ u u' (Nat.succ.inj hl)
    simp only [List.map_cons, List.zip_cons_cons, List.forall_mem_cons, List.cons.injEq, ih,
      within_eval]

/-- Terms whose variables have constants. -/
theorem exists_constants (ht : h.Trail) (u : ℕ) : ∀ ts : List (Term V),
    (∀ x ∈ Term.names ts, Det h ∅ (u, x)) → ∃ cs : List V, ts.map (h.apply u) = cs.map .object
      ∧ ∀ ρ, Models ρ h → ts.map (Term.value fun x => ρ (u, x)) = cs
  | [], _ => ⟨[], rfl, fun _ _ => rfl⟩
  | .object c :: ts, hd => by
    obtain ⟨cs, hcs, hv⟩ := exists_constants ht u ts hd
    refine ⟨c :: cs, ?_, fun ρ hm => ?_⟩
    · rw [List.map_cons, hcs, Bindings.apply, Term.within, applyFull_eq_root ht, root_object]
      rfl
    · rw [List.map_cons, hv ρ hm]
      rfl
  | .variable x :: ts, hd => by
    obtain ⟨cs, hcs, hv⟩ := exists_constants ht u ts fun y hy => hd y (List.mem_cons_of_mem _ hy)
    obtain ⟨c, hc⟩ | ⟨_, hs, -⟩ := hd x (List.mem_cons_self ..)
    · refine ⟨c :: cs, ?_, fun ρ hm => ?_⟩
      · rw [List.map_cons, hcs, Bindings.apply, Term.within, applyFull_eq_root ht, hc]
        rfl
      · rw [List.map_cons, hv ρ hm, List.cons.injEq]
        refine ⟨?_, rfl⟩
        have := eval_root hm (.variable x u)
        rw [hc] at this
        exact this.symm
    · exact hs.elim

/-- After unification, the variables of one side have constants when those of the other have. -/
theorem det_of_unified {u u' : ℕ} {ts ts' : List (Term V)}
    (hu : Unified h h' ((ts.map (·.within u)).zip (ts'.map (·.within u'))))
    (hl : ts.length = ts'.length) (hS : ∀ x ∈ Term.names ts, (u, x) ∈ S) :
    ∀ x ∈ Term.names ts', Det h' S (u', x) := by
  intro x hx
  obtain ⟨t, ht, hx⟩ := List.mem_filterMap.1 hx
  obtain ⟨i, hi, rfl⟩ := List.getElem_of_mem ht
  have hi' : i < ts.length := hl ▸ hi
  have hx : ts'[i] = .variable x := by
    cases ht : ts'[i] with
    | object => simp [ht] at hx
    | «variable» y => simpa [ht] using hx
  have hr := hu.roots (ts[i].within u, ts'[i].within u') (by
    rw [List.mem_iff_getElem]
    exact ⟨i, by simp [hi, hi'], by simp⟩)
  rw [hx] at hr
  cases ht : ts[i] with
  | object c =>
    rw [ht] at hr
    exact .inl ⟨c, hr.symm.trans (root_object c)⟩
  | «variable» y =>
    rw [ht] at hr
    refine .inr ⟨(u, y), hS y (List.mem_filterMap.2 ⟨ts[i], List.getElem_mem _, by rw [ht]⟩), hr.symm⟩

theorem over_of_names {P : ℕ × String → Prop} {u : ℕ} {ts : List (Term V)}
    (hP : ∀ x ∈ Term.names ts, P (u, x)) : ∀ v ∈ ts.map (·.within u), v.Over P := by
  intro v hv
  obtain ⟨t, ht, rfl⟩ := List.mem_map.1 hv
  cases t with
  | object => trivial
  | «variable» x => exact hP x (List.mem_filterMap.2 ⟨_, ht, rfl⟩)

/-- The truth of a literal depends on the values of its arguments. -/
theorem holds_congr {M : Set (Row V)} {p : String} {ν ν' : String → V} {l : Literal V}
    (hv : l.values ν = l.values ν') :
    l.Holds reg evaluationFollows M p ν ↔ l.Holds reg evaluationFollows M p ν' := by
  simp only [Literal.Holds, Literal.meaning, hv]

/-- What remains to be proved is true. -/
def Pending (reg : BuiltinRegistry V) (M : Set (Row V)) (fs : List (Frame V))
    (ρ : ℕ × String → V) : Prop :=
  ∀ f ∈ fs, ∀ l ∈ f.literals.tail,
    l.Holds reg evaluationFollows M f.theory.name fun x => ρ (f.binding, x)

/-- The fuel for a literal: for its table, for moving to another policy, and for negation. -/
def litCost (weight : String → ℕ) (self : TopDownTheory V) (l : Literal V) : ℕ :=
  2 * weight (l.tablename (some self.name)) + (TopDown.movesTo self l).isSome.toNat
    + l.negated.toNat

def pendingCost (weight : String → ℕ) (fs : List (Frame V)) : ℕ :=
  (fs.map fun f => (f.literals.tail.map (litCost weight f.theory)).sum).sum

theorem sameSchema_iff {l l' : Literal V} {p : String} : l.sameSchema l' (some p) = true
    ↔ (l.table.table = l'.table.table ∧ l.table.modal = l'.table.modal
      ∧ l.table.service.getD p = l'.table.service.getD p)
      ∧ l.arguments.length = l'.arguments.length := by
  simp only [Literal.sameSchema, Tablename.same, Bool.and_eq_true, decide_eq_true_eq, and_assoc]
  cases l.table.service <;> cases l'.table.service <;> simp

theorem lookup_map {W : Type*} (f : String → W) (xs : List String) (x : String) :
    (xs.map fun x => (x, f x)).lookup x = if x ∈ xs then some (f x) else none := by
  induction xs with
  | nil => rfl
  | cons y ys ih =>
    rw [List.map_cons, List.lookup_cons]
    by_cases hxy : x = y
    · simp [hxy]
    · simp [hxy, ih, beq_false_of_ne hxy]

theorem mem_names {ts : List (Term V)} {x : String} : x ∈ Term.names ts ↔ .variable x ∈ ts := by
  rw [Term.names, List.mem_filterMap]
  constructor
  · rintro ⟨t, ht, he⟩
    cases t with
    | object => cases he
    | «variable» y =>
      cases he
      exact ht
  · exact fun h => ⟨_, h, rfl⟩

theorem value_of_apply {u : ℕ} {ρ : ℕ × String → V} (ht : h.Trail) (hm : Models ρ h) {t : Term V}
    {c : V} (ha : h.apply u t = .object c) : t.value (fun x => ρ (u, x)) = c := by
  rw [Bindings.apply, applyFull_eq_root ht] at ha
  rw [← within_eval, ← eval_root hm]
  cases hr : h.root (t.within u) with
  | object c' =>
    rw [hr] at ha
    cases ha
    rfl
  | «variable» => rw [hr] at ha; cases ha

/-- Every fact is long enough for the lookup. -/
theorem findFacts_eq_some {facts : List (List V)} {l : Literal V}
    (hlen : ∀ fact ∈ facts, fact.length = l.arguments.length) :
    findFacts facts (RuleSet.partialFact l)
      = some (facts.filter fun f => (RuleSet.partialFact l).all fun (i, v) => f[i]? = some v) := by
  rw [findFacts, if_pos]
  rw [List.all_eq_true]
  intro fact hfact
  rw [List.all_eq_true]
  rintro ⟨i, v⟩ hiv
  obtain ⟨hi, -⟩ := List.getElem?_eq_some_iff.1 (RuleSet.mem_partialFact.1 hiv)
  simpa [hlen fact hfact] using hi

end Congress
