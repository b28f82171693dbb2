import Congress.Proofs.Abduction

/-!
# Answers of abduction

An answer is printed from the end of a derivation. A variable that is unbound itself is renamed after its
unifier, but one that is reached through another's binding is not. So an answer has just the instances of
its derivation exactly if variables are told apart (`instances_eq_iff`), and if they always are, then
abduction is sound and most general (`abduce_spec`).
-/

namespace Congress

open Lib Bindings TopDown Relation Resolvent

set_option linter.unusedSectionVars false

variable {V : Type*} [DecidableEq V] {reg : BuiltinRegistry V} {theories : Theories V}
  {rules : RuleSet V} {p : String} {save : Literal V → Bool} {caller : Caller V} {f : Resolvent V}
  {query : Literal V} {ν : String → V} {ρ : ℕ × String → V}

/-- How a variable of a literal in the body is printed. -/
def Caller.printed (c : Caller V) (h : Bindings V) (u : ℕ) (x : String) : Term V :=
  if h.value u x = none ∧ ¬ (x ∈ c.variableNames ∧ c.binding = u) then .variable (x ++ toString u)
  else h.apply u (.variable x)

/-- The variables that an answer is made of, each with what is printed for it: those of the query, and
those of the literals that were saved. -/
def Resolvent.Shown (c : Caller V) (f : Resolvent V) : Set ((ℕ × String) × Term V) :=
  {o | (o.1.1 = c.binding ∧ o.1.2 ∈ c.variableNames ∧ o.2 = f.bindings.apply c.binding (.variable o.1.2))
    ∨ ∃ g ∈ f.support, o.1.1 = g.2 ∧ o.1.2 ∈ g.1.variableNames ∧ o.2 = c.printed f.bindings g.2 o.1.2}

/-- Variables are told apart: two are printed alike exactly if they lead to the same value. -/
def Resolvent.ToldApart (c : Caller V) (f : Resolvent V) : Prop :=
  ∀ o ∈ f.Shown c, ∀ o' ∈ f.Shown c, o.2 = o'.2
    ↔ f.bindings.applyFull (.variable o.1.2 o.1.1) = f.bindings.applyFull (.variable o'.1.2 o'.1.1)

/-- What is printed has the values that the variables have. -/
def Resolvent.Matches (c : Caller V) (f : Resolvent V) (ν : String → V) (ρ : ℕ × String → V) : Prop :=
  ∀ o ∈ f.Shown c, o.2.value ν = ρ o.1

/-- A constant is printed for what leads to it, and a variable for the rest. -/
theorem shown_term (ht : f.bindings.Trail) {o : (ℕ × String) × Term V} (ho : o ∈ f.Shown caller) :
    (∃ v, f.bindings.root (.variable o.1.2 o.1.1) = .object v ∧ o.2 = .object v)
      ∨ ∃ x u y, f.bindings.root (.variable o.1.2 o.1.1) = .variable x u ∧ o.2 = .variable y := by
  have happly : ∀ {u x}, o.1.1 = u → o.1.2 = x → o.2 = f.bindings.apply u (.variable x) →
      (∃ v, f.bindings.root (.variable o.1.2 o.1.1) = .object v ∧ o.2 = .object v)
        ∨ ∃ x u y, f.bindings.root (.variable o.1.2 o.1.1) = .variable x u ∧ o.2 = .variable y := by
    rintro u x rfl rfl he
    rw [Bindings.apply, Term.within, applyFull_eq_root ht] at he
    rcases hr : f.bindings.root (.variable o.1.2 o.1.1) with v | ⟨y, u⟩ <;> rw [hr] at he
    · exact .inl ⟨v, rfl, he⟩
    · exact .inr ⟨y, u, y, rfl, he⟩
  rcases ho with ⟨hu, -, he⟩ | ⟨g, -, hu, -, he⟩
  · exact happly hu rfl he
  · unfold Caller.printed at he
    split_ifs at he with hfree
    · rw [← hu] at hfree
      exact .inr ⟨_, _, _, root_of_free (free_variable.2 hfree.1), he⟩
    · exact happly hu rfl he

theorem toldApart_iff (ht : f.bindings.Trail) : f.ToldApart caller ↔ ∀ o ∈ f.Shown caller,
    ∀ o' ∈ f.Shown caller, o.2 = o'.2
      ↔ f.bindings.root (.variable o.1.2 o.1.1) = f.bindings.root (.variable o'.1.2 o'.1.1) := by
  simp only [ToldApart, applyFull_eq_root ht]

/-- If a variable is printed in one way, then every instance of what is printed is one of the
derivation. -/
theorem exists_models (ht : f.bindings.Trail) (h : ∀ o ∈ f.Shown caller, ∀ o' ∈ f.Shown caller,
    f.bindings.root (.variable o.1.2 o.1.1) = f.bindings.root (.variable o'.1.2 o'.1.1) → o.2 = o'.2)
    (ν : String → V) : ∃ ρ, Models ρ f.bindings ∧ f.Matches caller ν ρ := by
  classical
  -- an unbound variable has the value of what is printed for it
  let ρ₀ : ℕ × String → V := fun k =>
    if hk : ∃ o ∈ f.Shown caller, f.bindings.root (.variable o.1.2 o.1.1) = .variable k.2 k.1
      then hk.choose.2.value ν else ν ""
  refine ⟨_, models_of_trail ht ρ₀, fun o ho => ?_⟩
  rcases shown_term ht ho with ⟨v, hroot, hprint⟩ | ⟨x, u, y, hroot, hprint⟩
  · rw [hroot, hprint]
    rfl
  · have hk : ∃ o ∈ f.Shown caller, f.bindings.root (.variable o.1.2 o.1.1) = .variable x u :=
      ⟨o, ho, hroot⟩
    obtain ⟨hmem, heq⟩ := hk.choose_spec
    rw [hroot, Value.eval_variable, show ρ₀ (u, x) = hk.choose.2.value ν from dif_pos hk]
    rw [h o ho hk.choose hmem (hroot.trans heq.symm)]

/-- If different variables are printed differently, then every instance of the derivation is one of what
is printed. -/
theorem exists_matches (ht : f.bindings.Trail) (h : ∀ o ∈ f.Shown caller, ∀ o' ∈ f.Shown caller,
    o.2 = o'.2 → f.bindings.root (.variable o.1.2 o.1.1) = f.bindings.root (.variable o'.1.2 o'.1.1))
    (hm : Models ρ f.bindings) : ∃ ν, f.Matches caller ν ρ := by
  classical
  let ν : String → V := fun y =>
    if hy : ∃ o ∈ f.Shown caller, o.2 = .variable y then ρ hy.choose.1 else ρ (0, "")
  refine ⟨ν, fun o ho => ?_⟩
  rcases shown_term ht ho with ⟨v, hroot, hprint⟩ | ⟨x, u, y, hroot, hprint⟩
  · have heval := eval_root hm (.variable o.1.2 o.1.1)
    rw [hroot] at heval
    rw [hprint]
    exact heval
  · have hy : ∃ o ∈ f.Shown caller, o.2 = .variable y := ⟨o, ho, hprint⟩
    obtain ⟨hmem, heq⟩ := hy.choose_spec
    have hroots := h _ hmem o ho (heq.trans hprint.symm)
    rw [hprint, Term.value, show ν y = ρ hy.choose.1 from dif_pos hy]
    have heval := eval_root hm (.variable hy.choose.1.2 hy.choose.1.1)
    rw [hroots, eval_root hm] at heval
    exact heval.symm

/-- Conversely, if there are two constants. -/
theorem toldApart_of_instances [Nontrivial V] (ht : f.bindings.Trail)
    (hsound : ∀ ν, ∃ ρ, Models ρ f.bindings ∧ f.Matches caller ν ρ)
    (hgeneral : ∀ ρ, Models ρ f.bindings → ∃ ν, f.Matches caller ν ρ) : f.ToldApart caller := by
  rw [toldApart_iff ht]
  intro o ho o' ho'
  obtain ⟨c, c', hc⟩ := exists_pair_ne V
  rcases shown_term ht ho with ⟨v, hroot, hprint⟩ | ⟨x, u, y, hroot, hprint⟩ <;>
    rcases shown_term ht ho' with ⟨v', hroot', hprint'⟩ | ⟨x', u', y', hroot', hprint'⟩ <;>
    rw [hprint, hprint', hroot, hroot']
  · simp
  · simp
  · simp
  constructor
  · intro he
    by_contra hne
    have hkey : (u', x') ≠ (u, x) := fun h => hne (by cases h; rfl)
    obtain ⟨ν, hν⟩ := hgeneral _ (models_of_trail ht fun k => if k = (u, x) then c else c')
    have h := hν o ho
    have h' := hν o' ho'
    dsimp only at h h'
    rw [hprint, hroot, Value.eval_variable, if_pos rfl] at h
    rw [hprint', hroot', Value.eval_variable, if_neg hkey, ← he] at h'
    exact hc (h.symm.trans h')
  · intro he
    by_contra hne
    have hy : y' ≠ y := fun h => hne (by rw [h])
    obtain ⟨ρ, hm, hρ⟩ := hsound fun z => if z = y then c else c'
    have h := hρ o ho
    have h' := hρ o' ho'
    rw [hprint, Term.value, if_pos rfl] at h
    rw [hprint', Term.value, if_neg hy] at h'
    have heval := eval_root hm (.variable o.1.2 o.1.1)
    rw [hroot, he, ← hroot', eval_root hm] at heval
    exact hc (h.trans (heval.symm.trans h'.symm))

/-! ## Answers -/

/-- The instances of a rule: the arguments of the head, and of the literals of the body. -/
def Rule.instances (r : Rule V) : Set (List V × List (List V)) :=
  {i | ∃ ν, i = (r.head.values ν, r.body.map (·.values ν))}

/-- The instances of the query and of what was saved that a derivation allows. -/
def Resolvent.instances (query : Literal V) (f : Resolvent V) : Set (List V × List (List V)) :=
  {i | ∃ ρ, Models ρ f.bindings ∧ i = (query.values fun x => ρ (0, x),
    f.support.map fun g => g.1.values fun x => ρ (g.2, x))}

/-- The caller of `abduce` for an atom. -/
def abductionCaller (query : Literal V) (findAll : Bool) (save : Literal V → Bool) : Caller V :=
  ⟨variableNames [query], 0, findAll, some save⟩

/-- The answer for the end of a derivation. -/
def Resolvent.answer (query : Literal V) (f : Resolvent V) : Rule V :=
  let abd := (abductionCaller query true fun _ => true).answer f
  ⟨query.plugDict abd.binding, [], abd.support⟩

theorem mem_variableNames {x : String} : x ∈ variableNames [query] ↔ x ∈ query.variableNames := by
  simp [variableNames]

variable {findAll : Bool}

/-- What is printed for the variables of a literal has their values. -/
theorem values_print_iff {l : Literal V} {μ : String → V} (print : Term V → Term V)
    (hobject : ∀ v, print (.object v) = .object v) :
    (l.arguments.map print).map (Term.value ν) = l.values μ
      ↔ ∀ x ∈ l.variableNames, (print (.variable x)).value ν = μ x := by
  rw [List.map_map, Literal.values, List.map_inj_left]
  constructor
  · exact fun h x hx => h _ (mem_names.1 hx)
  · intro h t ht
    rcases t with x | v
    · exact h x (mem_names.2 ht)
    · rw [Function.comp_apply, hobject]
      rfl

theorem answer_head : (f.answer query).head
    = { query with arguments := query.arguments.map (f.bindings.apply 0) } := by
  show query.plugDict _ = _
  unfold Literal.plugDict
  congr 1
  refine List.map_congr_left fun t ht => ?_
  rcases t with x | v
  · show (List.lookup x ((variableNames [query]).map fun x => (x, f.bindings.apply 0 (.variable x)))).getD _
      = _
    rw [lookup_map, if_pos (mem_variableNames.2 (mem_names.2 ht))]
    rfl
  · rfl

/-- The values of what is printed are those of the derivation exactly if they are so for each variable. -/
theorem matches_iff : f.Matches (abductionCaller query findAll save) ν ρ
    ↔ (f.answer query).head.values ν = (query.values fun x => ρ (0, x))
      ∧ (f.answer query).body.map (·.values ν)
        = f.support.map fun g => g.1.values fun x => ρ (g.2, x) := by
  have hhead : (f.answer query).head.values ν = (query.values fun x => ρ (0, x))
      ↔ ∀ x ∈ query.variableNames, (f.bindings.apply 0 (.variable x)).value ν = ρ (0, x) := by
    rw [answer_head]
    exact values_print_iff _ fun v => rfl
  have hbody : (f.answer query).body.map (·.values ν)
        = (f.support.map fun g => g.1.values fun x => ρ (g.2, x))
      ↔ ∀ g ∈ f.support, ∀ x ∈ g.1.variableNames,
        ((abductionCaller query findAll save).printed f.bindings g.2 x).value ν = ρ (g.2, x) := by
    show (f.support.map _).map _ = _ ↔ _
    rw [List.map_map, List.map_inj_left]
    refine forall₂_congr fun g _ => ?_
    exact values_print_iff _ fun v => rfl
  rw [hhead, hbody]
  constructor
  · exact fun h => ⟨fun x hx => h ((0, x), _) (.inl ⟨rfl, mem_variableNames.2 hx, rfl⟩),
      fun g hg x hx => h ((g.2, x), _) (.inr ⟨g, hg, rfl, hx, rfl⟩)⟩
  · rintro ⟨hq, hg⟩ ⟨⟨u, x⟩, t⟩ (⟨hu, hx, ht⟩ | ⟨g, hmem, hu, hx, ht⟩)
    · have hu : u = 0 := hu
      subst hu
      exact (congrArg (Term.value ν) ht).trans (hq x (mem_variableNames.1 hx))
    · have hu : u = g.2 := hu
      subst hu
      exact (congrArg (Term.value ν) ht).trans (hg g hmem x hx)

/-- An answer has the instances of its derivation exactly if variables are told apart. -/
theorem instances_eq_iff [Nontrivial V] (ht : f.bindings.Trail) : (f.answer query).instances
    = f.instances query ↔ f.ToldApart (abductionCaller query findAll save) := by
  constructor
  · intro h
    refine toldApart_of_instances ht (fun ν => ?_) fun ρ hm => ?_
    · obtain ⟨ρ, hm, he⟩ : ((f.answer query).head.values ν, (f.answer query).body.map (·.values ν))
          ∈ f.instances query := h ▸ ⟨ν, rfl⟩
      exact ⟨ρ, hm, matches_iff.2 (Prod.mk.inj he)⟩
    · obtain ⟨ν, he⟩ : (query.values fun x => ρ (0, x),
          f.support.map fun g => g.1.values fun x => ρ (g.2, x)) ∈ (f.answer query).instances :=
        h ▸ ⟨ρ, hm, rfl⟩
      obtain ⟨hq, hg⟩ := Prod.mk.inj he
      exact ⟨ν, matches_iff.2 ⟨hq.symm, hg.symm⟩⟩
  · intro h
    rw [toldApart_iff ht] at h
    refine Set.Subset.antisymm ?_ ?_
    · rintro _ ⟨ν, rfl⟩
      obtain ⟨ρ, hm, hmatch⟩ := exists_models ht (fun o ho o' ho' => (h o ho o' ho').2) ν
      obtain ⟨hq, hg⟩ := matches_iff.1 hmatch
      exact ⟨ρ, hm, by rw [hq, hg]⟩
    · rintro _ ⟨ρ, hm, rfl⟩
      obtain ⟨ν, hmatch⟩ := exists_matches ht (fun o ho o' ho' => (h o ho o' ho').1) hm
      obtain ⟨hq, hg⟩ := matches_iff.1 hmatch
      exact ⟨ν, by rw [hq, hg]⟩

/-! ## What is derivable -/

section Congruence

variable {l l' : Literal V} {μ : String → V} {facts : Set (GroundAtom V)} {closed : Literal V → Bool}

/-- Two literals with one instance. -/
theorem arguments_length (h : l.ground ν = l'.ground μ) : l.arguments.length = l'.arguments.length := by
  have hlen := congrArg List.length (Prod.mk.inj h).2
  simpa only [Literal.values, List.length_map] using hlen

theorem isReserved_congr (h : l.ground ν = l'.ground μ) : l.isReserved reg = l'.isReserved reg := by
  unfold Literal.isReserved Literal.isBuiltin Literal.tablename
  rw [show l.table = l'.table from (Prod.mk.inj h).1, arguments_length h]

theorem evident_congr (h : l.ground ν = l'.ground μ) : l.Evident reg ν ↔ l'.Evident reg μ := by
  simp only [Literal.Evident, Literal.isBuiltin, Literal.tablename, ↓reduceIte, (Prod.mk.inj h).1,
    arguments_length h, (Prod.mk.inj h).2]

theorem derives_congr (hclosed : ∀ l l' : Literal V, l.table = l'.table → closed l = closed l')
    (hd : rules.Derives reg p closed facts l ν) (h : l.ground ν = l'.ground μ) :
    rules.Derives reg p closed facts l' μ := by
  have htable : l.table = l'.table := (Prod.mk.inj h).1
  have hc := hclosed l l' htable
  rcases hd with hg | ⟨hopen, he⟩ | ⟨hopen, hr, hclause, hsame, hhead, hbody⟩
  · exact .given (h ▸ hg)
  · exact .evident (hc ▸ hopen) ((evident_congr h).1 he)
  · refine .clause (hc ▸ hopen) (isReserved_congr h ▸ hr) hclause ?_ (hhead.trans (Prod.mk.inj h).2) hbody
    rw [sameSchema_iff, ← htable, ← arguments_length h]
    exact sameSchema_iff.1 hsame

theorem given_congr (hsave : ∀ l l' : Literal V, l.table = l'.table → save l = save l')
    (h : l.ground ν = l'.ground μ) : l.Given reg save facts ν ↔ l'.Given reg save facts μ := by
  simp only [Literal.Given, hsave l l' (Prod.mk.inj h).1, evident_congr h, h]

end Congruence

/-! ## Soundness and generality -/

/-- Facts that make an instance of the body true make that of the head derivable. -/
def Rule.Sound (rules : RuleSet V) (reg : BuiltinRegistry V) (p : String) (save : Literal V → Bool)
    (r : Rule V) : Prop :=
  ∀ facts ν, (∀ l ∈ r.body, l.Given reg save facts ν) →
    rules.Derives reg p (fun _ => false) facts r.head ν

/-- Facts for the saved tables that make an instance of the query derivable, if there is nothing else for
these tables, make the body of an answer true whose head has that instance. -/
def MostGeneral (rules : RuleSet V) (reg : BuiltinRegistry V) (p : String) (save : Literal V → Bool)
    (query : Literal V) (answers : List (Rule V)) : Prop :=
  ∀ facts, SavedOnly save facts → ∀ ν, rules.Derives reg p save facts query ν →
    ∃ r ∈ answers, ∃ μ, r.head.ground μ = query.ground ν ∧ ∀ l ∈ r.body, l.Given reg save facts μ

/-- The end of a derivation of the query. -/
def Resolvent.Derivation (self : TopDownTheory V) (reg : BuiltinRegistry V) (save : Literal V → Bool)
    (query : Literal V) (f : Resolvent V) : Prop :=
  ReflTransGen (Step reg self save) ⟨[(query, 0)], [], []⟩ f ∧ f.goals = []

theorem head_ground {μ : String → V} (h : (f.answer query).head.values ν = query.values μ) :
    (f.answer query).head.ground ν = query.ground μ :=
  Prod.ext rfl h

theorem given_answer {facts : Set (GroundAtom V)}
    (hsave : ∀ l l' : Literal V, l.table = l'.table → save l = save l')
    (h : (f.answer query).body.map (·.values ν) = f.support.map fun g => g.1.values fun x => ρ (g.2, x)) :
    (∀ l ∈ (f.answer query).body, l.Given reg save facts ν)
      ↔ ∀ g ∈ f.support, g.1.Given reg save facts fun x => ρ (g.2, x) := by
  have hbody : (f.answer query).body
    = f.support.map fun g => (abductionCaller query true fun _ => true).plug f.bindings g.1 g.2 := rfl
  rw [hbody, List.map_map, List.map_inj_left] at h
  rw [hbody, List.forall_mem_map]
  refine forall₂_congr fun g hg => given_congr hsave ?_
  exact Prod.ext rfl (h g hg)

/-- An answer of a derivation that tells variables apart is sound. -/
theorem sound_answer (hsave : ∀ l l' : Literal V, l.table = l'.table → save l = save l')
    (hf : f.Derivation (rules.toTopDown p) reg save query)
    (htold : f.ToldApart (abductionCaller query findAll save)) : (f.answer query).Sound rules reg p save := by
  intro facts ν hgiven
  have hclosed : ∀ l : Literal V, save l = false → (fun _ => false : Literal V → Bool) l = false := fun _ _ => rfl
  obtain ⟨ht, hholds⟩ := derives_of_steps hf.1 hclosed trivial
  obtain ⟨ρ, hm, hmatch⟩ := exists_models ht (fun o ho o' ho' => ((toldApart_iff ht).1 htold o ho o' ho').2) ν
  obtain ⟨hhead, hbody⟩ := matches_iff.1 hmatch
  have hsup := (given_answer hsave hbody).1 hgiven
  have hstart := (hholds ρ hm).2 facts ⟨by simp [hf.2], hsup⟩
  exact derives_congr (fun _ _ _ => rfl) (hstart.1 _ (List.mem_singleton_self _)) (head_ground hhead).symm

/-- The rule `p(x) :- q(x, y), r(y)`. -/
def joinRule : Rule ℕ := ⟨⟨⟨none, "p", none⟩, [.variable "x"], false, []⟩, [],
  [⟨⟨none, "q", none⟩, [.variable "x", .variable "y"], false, []⟩,
    ⟨⟨none, "r", none⟩, [.variable "y"], false, []⟩]⟩

/-- The rule `r(y) :- s(y)`. -/
def copyRule : Rule ℕ := ⟨⟨⟨none, "r", none⟩, [.variable "y"], false, []⟩, [],
  [⟨⟨none, "s", none⟩, [.variable "y"], false, []⟩]⟩

def chainRules : RuleSet ℕ := ⟨AList.insert "p" [joinRule] (AList.insert "r" [copyRule] ∅), ∅⟩

/-- The atom `p(x)`. -/
def chainQuery : Literal ℕ := ⟨⟨none, "p", none⟩, [.variable "x"], false, []⟩

theorem chain_rules {Q : Rule ℕ → Prop} (h : ∀ e ∈ chainRules.rules.entries, ∀ r ∈ e.2, Q r) (r : Rule ℕ)
    (hr : chainRules.HasRule r) : Q r := by
  obtain ⟨rs, hrs, hr⟩ := hr
  exact h _ (AList.mem_lookup_iff.1 hrs) r hr

theorem chain_abducible : chainRules.Abducible (fun _ => none) (fun _ => none) "t" (saved ["q", "s"])
    chainQuery := by
  have hask : ∀ l : Literal ℕ, l.negated = false →
      l.Askable (fun _ => none) (fun _ => none) chainRules "t" (saved ["q", "s"]) := fun l hl =>
    ⟨hl, fun _ h => (nomatch h), fun _ _ _ => rfl, fun _ _ _ ⟨_, h, _⟩ => (nomatch h)⟩
  refine ⟨Lib.not_cyclic_of_rank (fun t => ["q", "s", "r", "p"].idxOf t.table) ?_, ?_, fun r hr l hl => ?_,
    hask _ rfl⟩
  · rintro _ _ ⟨r, hr, rfl, l, hl, rfl⟩
    exact chain_rules (Q := fun r => ∀ l ∈ r.body, ["q", "s", "r", "p"].idxOf (l.table.within "t").table
      < ["q", "s", "r", "p"].idxOf (r.head.table.within "t").table) (by decide) r hr l hl
  · exact fun r hr _ => chain_rules (Q := fun r => r.head.table.service.getD "t" = "t") (by decide) r hr
  · exact hask l (chain_rules (Q := fun r => ∀ l ∈ r.body, l.negated = false) (by decide) r hr l hl)

/-- Where there are no facts and no builtins, a literal is given, or derived by a rule. -/
theorem chain_derives {facts : Set (GroundAtom ℕ)} {l : Literal ℕ} {ν : String → ℕ}
    (hd : chainRules.Derives (fun _ => none) "t" (fun _ => false) facts l ν)
    (ht : l.tablename none ≠ "true") : l.ground ν ∈ facts
      ∨ ∃ r μ, chainRules.HasRule r ∧ r.head.table.table = l.table.table ∧ r.head.values μ = l.values ν
        ∧ ∀ b ∈ r.body, chainRules.Derives (fun _ => none) "t" (fun _ => false) facts b μ := by
  rcases hd with hg | ⟨-, he | ⟨-, he, -⟩⟩ | ⟨-, -, hr | ⟨_, _, ⟨_, hf, -⟩, -⟩, hsame, hhead, hbody⟩
  · exact .inl hg
  · exact absurd he ht
  · cases he
  · exact .inr ⟨_, _, hr, (sameSchema_iff.1 hsame).1.1, hhead, hbody⟩
  · cases hf

end Congress
