import Mathlib.Logic.Relation
import Congress.Proofs.Renamings

/-!
# Instances

`instance` reads the arguments of two literals from the left. A variable of the second literal that was given
a variable of the first one, and meets a constant later, makes it read the first literal with that constant
for its variable (`Misread`); and for rules with bodies it raises. Otherwise the answer is right, up to what
it overlooks (`instance_correct_iff`).
-/

namespace Congress

open Bindings Relation

set_option linter.unusedSectionVars false

variable {V : Type*} [DecidableEq V]

/-- The formula is the other one with terms for its variables. -/
def Formula.InstanceOf (f f' : Formula V) : Prop := ∃ θ : String → Term V, f'.subst θ = f

/-- Pairs of terms, the first of which are instances of the second ones. -/
def Instances (ts : List (Term V × Term V)) : Prop := ∃ θ : String → Term V, ∀ p ∈ ts, p.2.subst θ = p.1

/-- A constant for one variable. -/
def Term.put (x : String) (c : V) : Term V → Term V :=
  Term.subst fun z => if z = x then .object c else .variable z

/-- The first terms with a constant for one of their variables. -/
def putFirst (x : String) (c : V) (ts : List (Term V × Term V)) : List (Term V × Term V) :=
  ts.map fun p => (p.1.put x c, p.2)

/-- One wrong reading: a variable that stands for `x` meets a constant, which is then put for `x`. -/
inductive Misread : List (Term V × Term V) → List (Term V × Term V) → Prop
  | step {before after : List (Term V × Term V)} {x y : String} {c : V} (θ : String → Term V)
    (hbefore : ∀ p ∈ before, p.2.subst θ = p.1) (hmet : (.variable x, .variable y) ∈ before) :
    Misread (before ++ (.object c, .variable y) :: after)
      (putFirst x c (before ++ (.object c, .variable y) :: after))

/-- After wrong readings, the first terms are instances of the second ones. -/
def Misled (ts : List (Term V × Term V)) : Prop := ∃ ts', TransGen Misread ts ts' ∧ Instances ts'

/-- Read correctly or not, the first terms are instances of the second ones. -/
def Accepted (ts : List (Term V × Term V)) : Prop := ∃ ts', ReflTransGen Misread ts ts' ∧ Instances ts'

variable {ts ts' : List (Term V × Term V)} {x y : String} {c : V} {t : Term V}

theorem accepted_iff : Accepted ts ↔ Instances ts ∨ Misled ts := by
  constructor
  · rintro ⟨ts', hread, hinst⟩
    rcases ReflTransGen.cases_head_iff.1 hread with rfl | ⟨ts₁, hstep, hrest⟩
    · exact .inl hinst
    · exact .inr ⟨ts', TransGen.head' hstep hrest, hinst⟩
  · rintro (hinst | ⟨ts', hread, hinst⟩)
    · exact ⟨ts, .refl, hinst⟩
    · exact ⟨ts', hread.to_reflTransGen, hinst⟩

theorem Misread.not_instances (h : Misread ts ts') : ¬Instances ts := by
  obtain @⟨before, after, x, y, c, θ, hbefore, hmet⟩ := h
  rintro ⟨θ', hall⟩
  have hvariable : θ' y = .variable x := hall _ (List.mem_append_left _ hmet)
  have hobject : θ' y = .object c := hall _ (List.mem_append_right _ (List.mem_cons_self ..))
  rw [hvariable] at hobject
  cases hobject

theorem Misled.not_instances (h : Misled ts) : ¬Instances ts := by
  obtain ⟨ts', hread, -⟩ := h
  obtain ⟨ts₁, hstep, -⟩ := TransGen.head'_iff.1 hread
  exact hstep.not_instances

/-! ## Reading from the left -/

/-- What the variables of the second terms were given. -/
abbrev Assigned (V : Type*) := String → Option (Term V)

def Assigned.put (x : String) (c : V) (γ : Assigned V) : Assigned V := fun y => (γ y).map (Term.put x c)

/-- The pairs can be read, with or without wrong readings. -/
def Reads : Assigned V → List (Term V × Term V) → Prop
  | _, [] => True
  | γ, (t, .object c) :: ts => t = .object c ∧ Reads γ ts
  | γ, (t, .variable y) :: ts =>
    (γ y = none ∧ Reads (Function.update γ y (some t)) ts)
    ∨ (γ y = some t ∧ Reads γ ts)
    ∨ ∃ x c, γ y = some (.variable x) ∧ t = .object c ∧ Reads (γ.put x c) (putFirst x c ts)
  termination_by _ ts => ts.length
  decreasing_by all_goals simp [putFirst]

variable {γ : Assigned V} {θ : String → Term V}

@[simp] theorem Term.put_object (x : String) (c v : V) : Term.put x c (.object v) = .object v := rfl

theorem putFirst_append : putFirst x c (ts ++ ts') = putFirst x c ts ++ putFirst x c ts' := List.map_append

theorem putFirst_cons (p : Term V × Term V) : putFirst x c (p :: ts) = (p.1.put x c, p.2) :: putFirst x c ts := rfl

/-- What was given agrees with a substitution. -/
def Assigned.Agrees (γ : Assigned V) (θ : String → Term V) : Prop := ∀ y t, γ y = some t → θ y = t

/-- What is given once terms that are instances are read. -/
def Assigned.extend (γ : Assigned V) (θ : String → Term V) (ts : List (Term V × Term V)) : Assigned V := fun y =>
  if y ∈ Term.names (ts.map Prod.snd) then some (θ y) else γ y

theorem Assigned.extend_mem (γ : Assigned V) (θ : String → Term V) (hy : y ∈ Term.names (ts.map Prod.snd)) :
    γ.extend θ ts y = some (θ y) := if_pos hy

theorem Assigned.extend_notMem (γ : Assigned V) (θ : String → Term V) (hy : y ∉ Term.names (ts.map Prod.snd)) :
    γ.extend θ ts y = γ y := if_neg hy

/-- Terms that are instances are read as they are. -/
theorem reads_append_iff : ∀ {before after : List (Term V × Term V)} {γ : Assigned V}, γ.Agrees θ →
    (∀ p ∈ before, p.2.subst θ = p.1) → (Reads γ (before ++ after) ↔ Reads (γ.extend θ before) after)
  | [], after, γ, _, _ => by
    have hext : γ.extend θ [] = γ := funext fun y => if_neg (by simp [Term.names])
    rw [hext, List.nil_append]
  | (t, t₂) :: before, after, γ, hγ, h => by
    obtain ⟨ht, hrest⟩ := List.forall_mem_cons.1 h
    change t₂.subst θ = t at ht
    subst ht
    rcases t₂ with y | c
    · have hext : γ.extend θ ((θ y, .variable y) :: before)
          = Assigned.extend (Function.update γ y (some (θ y))) θ before := by
        funext z
        unfold Assigned.extend
        have hmem : z ∈ Term.names (((θ y, .variable y) :: before : List (Term V × Term V)).map Prod.snd)
            ↔ z = y ∨ z ∈ Term.names (before.map Prod.snd) := List.mem_cons
        by_cases hz : z ∈ Term.names (before.map Prod.snd)
        · rw [if_pos (hmem.2 (.inr hz)), if_pos hz]
        · rw [if_neg hz]
          by_cases hzy : z = y
          · rw [if_pos (hmem.2 (.inl hzy)), hzy, Function.update_self]
          · rw [if_neg (by rw [hmem]; tauto), Function.update_of_ne hzy]
      have hagrees : Assigned.Agrees (Function.update γ y (some (θ y))) θ := fun z t hz => by
        by_cases hzy : z = y
        · subst hzy
          rw [Function.update_self] at hz
          exact Option.some.inj hz
        · rw [Function.update_of_ne hzy] at hz
          exact hγ z t hz
      rw [List.cons_append, Reads, Term.subst, hext]
      rcases hy : γ y with _ | t
      · rw [reads_append_iff hagrees hrest]
        simp
      · have hty : t = θ y := (hγ y t hy).symm
        have hupdate : Function.update γ y (some (θ y)) = γ := by
          rw [← hty, ← hy, Function.update_eq_self]
        rw [hupdate, reads_append_iff hγ hrest, hty]
        constructor
        · rintro (⟨hn, -⟩ | ⟨-, hr⟩ | ⟨x, c, hx, hc, -⟩)
          · cases hn
          · exact hr
          · rw [hc] at hx
            cases hx
        · exact fun hr => .inr (.inl ⟨rfl, hr⟩)
    · have hext : γ.extend θ ((.object c, .object c) :: before) = γ.extend θ before := rfl
      rw [List.cons_append, Reads, Term.subst, hext, reads_append_iff hγ hrest]
      exact and_iff_right rfl

theorem Assigned.agrees_none (θ : String → Term V) : Assigned.Agrees (fun _ => none) θ := fun _ _ h =>
  (Option.some_ne_none _ h.symm).elim

/-- Instances can be read. -/
theorem reads_of_instances (h : Instances ts) : Reads (fun _ => none) ts := by
  obtain ⟨θ, hθ⟩ := h
  have hiff : Reads (fun _ => none) (ts ++ []) ↔ _ := reads_append_iff (Assigned.agrees_none θ) hθ
  rw [List.append_nil] at hiff
  exact hiff.2 (by rw [Reads]; trivial)

theorem Term.put_subst (x : String) (c : V) (θ : String → Term V) : ∀ t : Term V,
    (t.subst θ).put x c = t.subst fun y => (θ y).put x c
  | .variable _ => rfl
  | .object _ => rfl

/-- What can be read after a wrong reading can be read. -/
theorem Misread.reads (h : Misread ts ts') (hr : Reads (fun _ => none) ts') : Reads (fun _ => none) ts := by
  obtain @⟨before, after, x, y, c, θ, hbefore, hmet⟩ := h
  have hy : y ∈ Term.names (before.map Prod.snd) :=
    List.mem_filterMap.2 ⟨.variable y, List.mem_map.2 ⟨_, hmet, rfl⟩, rfl⟩
  have hx : θ y = .variable x := hbefore _ hmet
  have hput : ∀ p ∈ putFirst x c before, p.2.subst (fun y => (θ y).put x c) = p.1 := by
    rintro _ hp
    obtain ⟨q, hq, rfl⟩ := List.mem_map.1 hp
    rw [← Term.put_subst, hbefore q hq]
  have hsecond : (putFirst x c before).map Prod.snd = before.map Prod.snd := by
    simp [putFirst]
  rw [putFirst_append, putFirst_cons, reads_append_iff (Assigned.agrees_none _) hput, Reads] at hr
  have hgiven : Assigned.extend (fun _ => none) (fun y => (θ y).put x c) (putFirst x c before)
      = (Assigned.extend (fun _ => none) θ before).put x c := by
    funext z
    by_cases hz : z ∈ Term.names (before.map Prod.snd)
    · rw [Assigned.extend_mem _ _ (hsecond ▸ hz), Assigned.put, Assigned.extend_mem _ _ hz]
      rfl
    · rw [Assigned.extend_notMem _ _ (hsecond ▸ hz), Assigned.put, Assigned.extend_notMem _ _ hz]
      rfl
  have hxput : (Term.variable x : Term V).put x c = .object c := if_pos rfl
  have hlook : (Assigned.extend (fun _ => none) θ before).put x c y = some (.object c) := by
    rw [Assigned.put, Assigned.extend_mem _ _ hy, hx, Option.map_some, hxput]
  rw [reads_append_iff (Assigned.agrees_none θ) hbefore, Reads]
  refine .inr (.inr ⟨x, c, by rw [Assigned.extend_mem _ _ hy, hx], rfl, ?_⟩)
  rw [hgiven, hlook] at hr
  rcases hr with ⟨hn, -⟩ | ⟨-, hr⟩ | ⟨x', c', hx', -⟩
  · cases hn
  · exact hr
  · cases hx'

theorem reads_of_accepted (h : Accepted ts) : Reads (fun _ => none) ts := by
  obtain ⟨ts', hread, hinst⟩ := h
  induction hread using ReflTransGen.head_induction_on with
  | refl => exact reads_of_instances hinst
  | head hstep _ ih => exact hstep.reads ih

/-- What was given is what the terms before have. -/
structure Assigned.Covers (γ : Assigned V) (before : List (Term V × Term V)) : Prop where
  ofObject : ∀ t c, (t, .object c) ∈ before → t = .object c
  ofVariable : ∀ t y, (t, .variable y) ∈ before → γ y = some t
  given : ∀ y t, γ y = some t → (t, .variable y) ∈ before

theorem Assigned.Covers.instances {before : List (Term V × Term V)} (h : γ.Covers before) :
    ∀ p ∈ before, p.2.subst (fun y => (γ y).getD (.variable y)) = p.1 := by
  rintro ⟨t, y | c⟩ hp
  · show (γ y).getD (.variable y) = t
    rw [h.ofVariable t y hp]
    rfl
  · exact (h.ofObject t c hp).symm

theorem Assigned.Covers.put {before : List (Term V × Term V)} (h : γ.Covers before) (x : String) (c : V) :
    (γ.put x c).Covers (putFirst x c before) := by
  refine ⟨fun t v hp => ?_, fun t y hp => ?_, fun y t hy => ?_⟩
  · obtain ⟨⟨t', t₂⟩, hq, heq⟩ := List.mem_map.1 hp
    obtain ⟨rfl, rfl⟩ := Prod.mk.inj heq
    rw [h.ofObject t' v hq]
    rfl
  · obtain ⟨⟨t', t₂⟩, hq, heq⟩ := List.mem_map.1 hp
    obtain ⟨rfl, rfl⟩ := Prod.mk.inj heq
    rw [Assigned.put, h.ofVariable t' y hq]
    rfl
  · obtain ⟨t', ht', rfl⟩ := Option.map_eq_some_iff.1 hy
    exact List.mem_map.2 ⟨_, h.given y t' ht', rfl⟩

theorem Assigned.Covers.append {before : List (Term V × Term V)} {t₂ : Term V} (h : γ.Covers before)
    (hobject : ∀ c, t₂ = .object c → t = .object c) (hvariable : ∀ y, t₂ = .variable y → γ y = some t) :
    γ.Covers (before ++ [(t, t₂)]) := by
  refine ⟨fun t' c hp => ?_, fun t' y hp => ?_, fun y t' hy => List.mem_append_left _ (h.given y t' hy)⟩
  · rcases List.mem_append.1 hp with hp | hp
    · exact h.ofObject t' c hp
    · obtain ⟨rfl, rfl⟩ := Prod.mk.inj (List.mem_singleton.1 hp)
      exact hobject c rfl
  · rcases List.mem_append.1 hp with hp | hp
    · exact h.ofVariable t' y hp
    · obtain ⟨rfl, rfl⟩ := Prod.mk.inj (List.mem_singleton.1 hp)
      exact hvariable y rfl

theorem Assigned.Covers.update {before : List (Term V × Term V)} (h : γ.Covers before) (hy : γ y = none)
    (t : Term V) : Assigned.Covers (Function.update γ y (some t)) (before ++ [(t, .variable y)]) := by
  refine ⟨fun t' c hp => ?_, fun t' z hp => ?_, fun z t' hz => ?_⟩
  · rcases List.mem_append.1 hp with hp | hp
    · exact h.ofObject t' c hp
    · cases List.mem_singleton.1 hp
  · rcases List.mem_append.1 hp with hp | hp
    · have hz := h.ofVariable t' z hp
      have hne : z ≠ y := fun he => by
        rw [he, hy] at hz
        cases hz
      rw [Function.update_of_ne hne, hz]
    · cases List.mem_singleton.1 hp
      exact Function.update_self ..
  · by_cases hzy : z = y
    · subst hzy
      rw [Function.update_self] at hz
      cases hz
      exact List.mem_append_right _ (List.mem_singleton_self _)
    · rw [Function.update_of_ne hzy] at hz
      exact List.mem_append_left _ (h.given z t' hz)

/-- What can be read is accepted. -/
theorem accepted_of_reads : ∀ {ts before : List (Term V × Term V)} {γ : Assigned V}, γ.Covers before → Reads γ ts →
    Accepted (before ++ ts)
  | [], before, γ, hγ, _ => ⟨before ++ [], .refl, _, by rw [List.append_nil]; exact hγ.instances⟩
  | (t, .object c) :: ts, before, γ, hγ, hr => by
    rw [Reads] at hr
    rw [List.append_cons]
    exact accepted_of_reads (hγ.append (fun c' hc => by cases hc; exact hr.1) fun y hy => by cases hy) hr.2
  | (t, .variable y) :: ts, before, γ, hγ, hr => by
    rw [Reads] at hr
    rcases hr with ⟨hy, hr⟩ | ⟨hy, hr⟩ | ⟨x, c, hy, rfl, hr⟩
    · rw [List.append_cons]
      exact accepted_of_reads (hγ.update hy t) hr
    · rw [List.append_cons]
      exact accepted_of_reads (hγ.append (fun c hc => by cases hc) fun z hz => by cases hz; exact hy) hr
    · have hmisread : Misread (before ++ (.object c, .variable y) :: ts)
          (putFirst x c (before ++ (.object c, .variable y) :: ts)) :=
        .step _ hγ.instances (hγ.given y _ hy)
      have hcovers : (γ.put x c).Covers (putFirst x c before ++ [(.object c, .variable y)]) := by
        refine (hγ.put x c).append (fun c' hc => by cases hc) fun z hz => ?_
        cases hz
        rw [Assigned.put, hy]
        exact congrArg some (if_pos rfl)
      obtain ⟨ts', hread, hinst⟩ := accepted_of_reads hcovers hr
      rw [← List.append_cons] at hread
      refine ⟨ts', .head hmisread ?_, hinst⟩
      rw [putFirst_append, putFirst_cons]
      exact hread
  termination_by ts => ts.length
  decreasing_by all_goals simp [putFirst]

theorem Assigned.covers_nil : Assigned.Covers (fun _ => none : Assigned V) [] where
  ofObject t c h := by cases h
  ofVariable t y h := by cases h
  given y t h := by cases h

theorem reads_iff : Reads (fun _ => none) ts ↔ Accepted ts :=
  ⟨fun hr => accepted_of_reads Assigned.covers_nil hr, reads_of_accepted⟩

/-! ## The loop -/

/-- A variable of the first formula stands for itself or a constant; one of the second formula for itself, for
a variable of the first one or for a constant. -/
structure Binds (h : Bindings V) : Prop where
  trail : h.Trail
  first : ∀ x, h.root (.variable x 1) = .variable x 1 ∨ ∃ c, h.root (.variable x 1) = .object c
  second : ∀ y, h.root (.variable y 0) = .variable y 0 ∨ (∃ x, h.root (.variable y 0) = .variable x 1)
    ∨ ∃ c, h.root (.variable y 0) = .object c

/-- What the variables of the second formula were given. -/
def Bindings.given (h : Bindings V) : Assigned V := fun y =>
  if h.root (.variable y 0) = .variable y 0 then none else some (h.root (.variable y 0)).term

/-- The first terms as they are read. -/
def Bindings.readFirst (h : Bindings V) (ts : List (Term V × Term V)) : List (Term V × Term V) :=
  ts.map fun p => ((h.root (p.1.within 1)).term, p.2)

variable {h : Bindings V} {changes : List (ℕ × String)}

theorem Bindings.given_eq_none (hy : h.root (.variable y 0) = .variable y 0) : h.given y = none := if_pos hy

theorem Bindings.given_eq_some {w : Value V} (hy : h.root (.variable y 0) = w) (hw : w ≠ .variable y 0) :
    h.given y = some w.term := by
  subst hy
  exact if_neg hw

/-- A variable of the second formula is given a value. -/
theorem Binds.give (hb : Binds h) {w : Value V} (hy : h.root (.variable y 0) = .variable y 0)
    (hroot : h.root w = w) (hw : (∃ x, w = .variable x 1) ∨ ∃ c, w = .object c) :
    Binds (h.add 0 y w) ∧ (h.add 0 y w).given = Function.update h.given y (some w.term)
      ∧ ∀ t : Term V, (h.add 0 y w).root (t.within 1) = h.root (t.within 1) := by
  have hadd : ∀ v, (h.add 0 y w).root v = if h.root v = .variable y 0 then w else h.root v := fun v => rfl
  have hne : w ≠ .variable y 0 := by
    rcases hw with ⟨x, rfl⟩ | ⟨c, rfl⟩
    · simp
    · simp
  have hfirst : ∀ x, (h.add 0 y w).root (.variable x 1) = h.root (.variable x 1) := fun x => by
    rw [hadd, if_neg]
    rcases hb.first x with hx | ⟨c, hx⟩
    · simp [hx]
    · simp [hx]
  have hother : ∀ z, z ≠ y → (h.add 0 y w).root (.variable z 0) = h.root (.variable z 0) := fun z hz => by
    rw [hadd, if_neg]
    rcases hb.second z with hx | ⟨x, hx⟩ | ⟨c, hx⟩
    · simpa [hx] using hz
    · simp [hx]
    · simp [hx]
  have hself : (h.add 0 y w).root (.variable y 0) = w := by rw [hadd, if_pos hy]
  have hfree : ∀ v : Value V, h.root v = v → h.Free v := fun v hv => hv ▸ root_free hb.trail v
  refine ⟨⟨⟨hb.trail, hfree _ hy, hfree w hroot, hne⟩, fun x => ?_, fun z => ?_⟩, funext fun z => ?_, fun t => ?_⟩
  · rw [hfirst]
    exact hb.first x
  · by_cases hz : z = y
    · rw [hz, hself]
      exact .inr hw
    · rw [hother z hz]
      exact hb.second z
  · by_cases hz : z = y
    · rw [hz, Function.update_self]
      exact Bindings.given_eq_some hself hne
    · rw [Function.update_of_ne hz, Bindings.given, Bindings.given, hother z hz]
  · rcases t with x | c
    · exact hfirst x
    · exact (root_object c).trans (root_object c).symm

/-- A variable of the first formula is given a constant. -/
theorem Binds.misgive (hb : Binds h) (hx : h.root (.variable x 1) = .variable x 1) (c : V) :
    Binds (h.add 1 x (.object c)) ∧ (h.add 1 x (.object c)).given = h.given.put x c
      ∧ ∀ t : Term V, ((h.add 1 x (.object c)).root (t.within 1)).term
        = (h.root (t.within 1)).term.put x c := by
  have hadd : ∀ v, (h.add 1 x (.object c)).root v
      = if h.root v = .variable x 1 then .object c else h.root v := fun v => rfl
  have hvariable : ∀ z : String, (Value.variable z 1 : Value V).term.put x c
      = if z = x then .object c else .variable z := fun z => rfl
  have hfirst : ∀ z, ((h.add 1 x (.object c)).root (.variable z 1) = .variable z 1
      ∨ ∃ c', (h.add 1 x (.object c)).root (.variable z 1) = .object c')
      ∧ ((h.add 1 x (.object c)).root (.variable z 1)).term = (h.root (.variable z 1)).term.put x c := fun z => by
    rw [hadd]
    rcases hb.first z with hz | ⟨c', hz⟩
    · rw [hz, hvariable]
      by_cases hzx : z = x
      · rw [hzx, if_pos rfl, if_pos rfl]
        exact ⟨.inr ⟨c, rfl⟩, rfl⟩
      · rw [if_neg (by simpa using hzx), if_neg hzx]
        exact ⟨.inl rfl, rfl⟩
    · rw [hz, if_neg (by simp)]
      exact ⟨.inr ⟨c', rfl⟩, rfl⟩
  have hsecond : ∀ z, ((h.add 1 x (.object c)).root (.variable z 0) = .variable z 0
      ∨ (∃ x', (h.add 1 x (.object c)).root (.variable z 0) = .variable x' 1)
      ∨ ∃ c', (h.add 1 x (.object c)).root (.variable z 0) = .object c')
      ∧ (h.add 1 x (.object c)).given z = h.given.put x c z := fun z => by
    rcases hb.second z with hz | ⟨x', hz⟩ | ⟨c', hz⟩
    · have hz' : (h.add 1 x (.object c)).root (.variable z 0) = .variable z 0 := by
        rw [hadd, hz, if_neg (by simp)]
      exact ⟨.inl hz', by rw [Bindings.given_eq_none hz', Assigned.put, Bindings.given_eq_none hz]; rfl⟩
    · by_cases hxx : x' = x
      · have hz' : (h.add 1 x (.object c)).root (.variable z 0) = .object c := by
          rw [hadd, hz, hxx, if_pos rfl]
        refine ⟨.inr (.inr ⟨c, hz'⟩), ?_⟩
        rw [Bindings.given_eq_some hz' (by simp), Assigned.put, Bindings.given_eq_some hz (by simp), Option.map_some,
          hvariable, if_pos hxx]
        rfl
      · have hz' : (h.add 1 x (.object c)).root (.variable z 0) = .variable x' 1 := by
          rw [hadd, hz, if_neg (by simpa using hxx)]
        refine ⟨.inr (.inl ⟨x', hz'⟩), ?_⟩
        rw [Bindings.given_eq_some hz' (by simp), Assigned.put, Bindings.given_eq_some hz (by simp), Option.map_some,
          hvariable, if_neg hxx]
        rfl
    · have hz' : (h.add 1 x (.object c)).root (.variable z 0) = .object c' := by
        rw [hadd, hz, if_neg (by simp)]
      refine ⟨.inr (.inr ⟨c', hz'⟩), ?_⟩
      rw [Bindings.given_eq_some hz' (by simp), Assigned.put, Bindings.given_eq_some hz (by simp)]
      rfl
  have hfree : h.Free (.variable x 1) := hx ▸ root_free hb.trail (.variable x 1)
  refine ⟨⟨⟨hb.trail, hfree, trivial, by simp⟩, fun z => (hfirst z).1, fun z => (hsecond z).1⟩,
    funext fun z => (hsecond z).2, fun t => ?_⟩
  rcases t with z | c'
  · exact (hfirst z).2
  · show (Bindings.root _ (.object c')).term = (h.root (.object c')).term.put x c
    rw [root_object, root_object]
    rfl

theorem binds_nil : Binds ([] : Bindings V) where
  trail := trivial
  first _ := .inl rfl
  second _ := .inl rfl

/-- The loop reads the pairs. -/
theorem isSome_instanceLoop_iff : ∀ {ts : List (Term V × Term V)} {h : Bindings V} {changes : List (ℕ × String)},
    Binds h → ((h.instanceLoop 1 0 ts changes).2.isSome = true ↔ Reads h.given (h.readFirst ts))
  | [], h, changes, _ => by simp [instanceLoop, readFirst, Reads]
  | (t₁, .object c) :: ts, h, changes, hb => by
    have ih : ∀ changes, (h.instanceLoop 1 0 ts changes).2.isSome = true ↔ Reads h.given (h.readFirst ts) :=
      fun changes => isSome_instanceLoop_iff hb
    have hread : h.readFirst ((t₁, .object c) :: ts) = ((h.root (t₁.within 1)).term, .object c) :: h.readFirst ts := rfl
    rw [instanceLoop, applyFull_eq_root hb.trail, applyFull_eq_root hb.trail, hread, Reads, Term.within, root_object]
    rcases hr : h.root (t₁.within 1) with c₁ | ⟨x, u⟩
    · dsimp only
      split_ifs with hc
      · rw [ih, hc]
        exact (and_iff_right rfl).symm
      · exact iff_of_false Bool.false_ne_true fun hread => hc (Term.object.inj hread.1)
    · exact iff_of_false Bool.false_ne_true fun hread => by cases hread.1
  | (t₁, .variable y) :: ts, h, changes, hb => by
    have ih : ∀ changes, (h.instanceLoop 1 0 ts changes).2.isSome = true ↔ Reads h.given (h.readFirst ts) :=
      fun changes => isSome_instanceLoop_iff hb
    have hread : h.readFirst ((t₁, .variable y) :: ts)
        = ((h.root (t₁.within 1)).term, .variable y) :: h.readFirst ts := rfl
    have hgive : ∀ (w : Value V) changes, h.root (.variable y 0) = .variable y 0 → h.root w = w →
        ((∃ x, w = .variable x 1) ∨ ∃ c, w = .object c) →
        (((h.add 0 y w).instanceLoop 1 0 ts changes).2.isSome = true
          ↔ Reads (Function.update h.given y (some w.term)) (h.readFirst ts)) := fun w changes hy hw hkind => by
      obtain ⟨hb', hgiven, hsame⟩ := hb.give hy hw hkind
      rw [isSome_instanceLoop_iff hb', hgiven]
      simp only [readFirst, hsame]
    rw [instanceLoop, applyFull_eq_root hb.trail, applyFull_eq_root hb.trail, hread, Reads]
    have hroot := root_of_free (root_free hb.trail (t₁.within 1))
    rcases hr : h.root (t₁.within 1) with c | ⟨x, u⟩
    · rcases hb.second y with hy | ⟨x', hy⟩ | ⟨c', hy⟩
      · rw [Term.within, hy, Bindings.given_eq_none hy]
        simpa using hgive (.object c) _ hy (root_object c) (.inr ⟨c, rfl⟩)
      · have hx' : h.root (.variable x' 1) = .variable x' 1 := hy ▸ root_of_free (root_free hb.trail _)
        obtain ⟨hb', hgiven, hput⟩ := hb.misgive hx' c
        have hfirst : (h.add 1 x' (.object c)).readFirst ts = putFirst x' c (h.readFirst ts) := by
          simp [readFirst, putFirst, hput]
        rw [Term.within, hy, Bindings.given_eq_some hy (by simp)]
        dsimp only
        rw [isSome_instanceLoop_iff hb', hgiven, hfirst]
        simp [Value.term]
      · rw [Term.within, hy, Bindings.given_eq_some hy (by simp)]
        dsimp only
        split_ifs with hc
        · rw [ih, hc]
          simp [Value.term]
        · exact iff_of_false Bool.false_ne_true (by simpa [Value.term] using fun hc' => absurd hc'.symm hc)
    · have hvariable : u = 1 ∧ Value.variable x 1 = t₁.within 1 := by
        rcases t₁ with z | c
        · rcases hb.first z with hz | ⟨c, hz⟩
          · rw [Term.within, hz] at hr
            cases hr
            exact ⟨rfl, rfl⟩
          · rw [Term.within, hz] at hr
            cases hr
        · rw [Term.within, root_object] at hr
          cases hr
      obtain ⟨rfl, ht₁⟩ := hvariable
      rw [hr] at hroot
      rcases hb.second y with hy | ⟨x', hy⟩ | ⟨c', hy⟩
      · rw [Term.within, hy, Bindings.given_eq_none hy]
        dsimp only
        rw [if_neg (by simp), if_neg (by simp [ht₁])]
        simpa using hgive (.variable x 1) _ hy hroot (.inl ⟨x, rfl⟩)
      · rw [Term.within, hy, Bindings.given_eq_some hy (by simp)]
        dsimp only
        by_cases hx : x = x'
        · rw [if_pos ⟨hx, rfl⟩, ih, hx]
          simp [Value.term]
        · rw [if_neg (by simpa using hx), if_pos (.inr (by simp))]
          exact iff_of_false Bool.false_ne_true (by simpa [Value.term] using fun hx' => absurd hx'.symm hx)
      · rw [Term.within, hy, Bindings.given_eq_some hy (by simp)]
        exact iff_of_false Bool.false_ne_true (by simp [Value.term])

/-! ## Formulas -/

/-- What is looked at of two literals: the tables, the numbers of their positional arguments, and these. -/
def Literal.Matches (P : List (Term V × Term V) → Prop) (l l' : Literal V) : Prop :=
  l.sameSchema l' none = true ∧ P (l.arguments.zip l'.arguments)

namespace Formula

/-- The formula is an instance in what is looked at, but not in the sign of a literal, or in further heads or
named arguments. -/
def InstanceOverlooked (f f' : Formula V) : Prop :=
  f.bare.InstanceOf f'.bare ∧ ¬(f.signs = f'.signs ∧ f.unsigned.InstanceOf f'.unsigned)

/-- Where `instance` is wrong: after a wrong reading, about what it overlooks, and for rules with bodies once it
has accepted their heads. -/
def Misjudged : Formula V → Formula V → Prop
  | .atom l, .atom l' =>
    l.negated = l'.negated ∧ (l.Matches Misled l' ∨ (atom l).InstanceOverlooked (.atom l'))
  | .rule r, .rule r' =>
    r.body.length = r'.body.length ∧
      if r.body = [] then r.head.Matches Misled r'.head ∨ (rule r).InstanceOverlooked (.rule r')
      else r.head.Matches Accepted r'.head
  | _, _ => False

end Formula

variable {l l' : Literal V} {r r' : Rule V} {f f' : Formula V}

theorem isSome_instanceAtoms_iff : (instanceAtoms [] l 1 l' 0).2.isSome = true ↔ l.Matches Accepted l' := by
  rw [instanceAtoms, Literal.Matches]
  split_ifs with hschema
  · have hread : Bindings.readFirst [] (l.arguments.zip l'.arguments) = l.arguments.zip l'.arguments := by
      have hterm : ∀ t : Term V, (Bindings.root ([] : Bindings V) (t.within 1)).term = t := fun t => by
        cases t <;> rfl
      simp [readFirst, hterm]
    have hgiven : Bindings.given ([] : Bindings V) = fun _ => none := funext fun y => if_pos rfl
    rw [isSome_instanceLoop_iff binds_nil, hread, hgiven, reads_iff]
    exact (and_iff_right hschema).symm
  · exact iff_of_false Bool.false_ne_true fun h => hschema h.1

theorem instances_zip_iff {ts ts' : List (Term V)} (hlength : ts.length = ts'.length) :
    (∀ p ∈ ts.zip ts', p.2.subst θ = p.1) ↔ ts'.map (Term.subst θ) = ts := by
  induction ts generalizing ts' with
  | nil => simp [List.length_eq_zero_iff.1 hlength.symm]
  | cons t ts ih =>
    obtain ⟨t', ts', rfl⟩ := List.exists_cons_of_length_eq_add_one hlength.symm
    rw [List.zip_cons_cons, List.map_cons, List.cons.injEq, ← ih (by simpa using hlength)]
    exact List.forall_mem_cons

/-- A literal is an instance but for its sign and named arguments. -/
theorem bare_instances_iff : (∃ θ : String → Term V, l'.bare.subst θ = l.bare) ↔ l.Matches Instances l' := by
  rw [Literal.Matches, Literal.sameSchema, Bool.and_eq_true, same_none_iff, decide_eq_true_eq, and_assoc]
  constructor
  · rintro ⟨θ, heq⟩
    simp only [Literal.bare, Literal.subst, Literal.mk.injEq] at heq
    have hlength : l.arguments.length = l'.arguments.length := by rw [← heq.2.1, List.length_map]
    exact ⟨heq.1.symm, hlength, θ, (instances_zip_iff hlength).2 heq.2.1⟩
  · rintro ⟨htable, hlength, θ, hall⟩
    rw [instances_zip_iff hlength] at hall
    exact ⟨θ, by simp [Literal.bare, Literal.subst, htable, hall]⟩

theorem Literal.matches_accepted_iff : l.Matches Accepted l' ↔ l.Matches Instances l' ∨ l.Matches Misled l' := by
  rw [Literal.Matches, Literal.Matches, Literal.Matches, accepted_iff, and_or_left]

theorem Literal.Matches.not_instances (h : l.Matches Misled l') : ¬l.Matches Instances l' := fun hinst =>
  h.2.not_instances hinst.2

namespace Formula

theorem InstanceOf.unsigned_iff : f.InstanceOf f' ↔ f.signs = f'.signs ∧ f.unsigned.InstanceOf f'.unsigned := by
  simp only [InstanceOf, eq_iff_unsigned (f := f'.subst _), signs_subst, unsigned_subst]
  exact ⟨fun ⟨θ, hsigns, hrest⟩ => ⟨hsigns.symm, θ, hrest⟩, fun ⟨hsigns, θ, hrest⟩ => ⟨θ, hsigns.symm, hrest⟩⟩

theorem bare_subst (θ : String → Term V) : ∀ f : Formula V, (f.subst θ).bare = f.bare.subst θ
  | .atom _ => rfl
  | .rule r => by simp [subst, bare, Rule.subst, Literal.subst, Literal.bare]

/-- An instance is one in what is looked at. -/
theorem InstanceOf.bare (h : f.InstanceOf f') : f.bare.InstanceOf f'.bare := by
  obtain ⟨θ, rfl⟩ := h
  exact ⟨θ, (bare_subst θ f').symm⟩

theorem bare_atom_iff : (atom l).bare.InstanceOf (atom l').bare ↔ l.Matches Instances l' := by
  rw [← bare_instances_iff]
  exact exists_congr fun θ => ⟨atom.inj, congrArg atom⟩

theorem bare_fact_iff (h : r.body = []) (h' : r'.body = []) :
    (rule r).bare.InstanceOf (rule r').bare ↔ r.head.Matches Instances r'.head := by
  rw [← bare_instances_iff]
  refine exists_congr fun θ => ?_
  simp [Formula.bare, subst, Rule.subst, h, h']

end Formula

open Formula

theorem instanceOf_atom (l l' : Literal V) : ∃ o, Unify.instanceOf (.atom l) (.atom l') = .ok o
    ∧ (o.isSome = true ↔ l.negated = l'.negated ∧ l.Matches Accepted l') := by
  rw [Unify.instanceOf, ← isSome_instanceAtoms_iff]
  split_ifs with hsign
  · exact ⟨none, rfl, iff_of_false Bool.false_ne_true fun h => hsign h.1⟩
  · rw [and_iff_right (not_not.1 hsign)]
    rcases instanceAtoms [] l 1 l' 0 with ⟨h, _ | changes⟩
    · exact ⟨none, rfl, Iff.rfl⟩
    · exact ⟨some h, rfl, Iff.rfl⟩

/-- Rules of different lengths or whose heads are not accepted are no instances. -/
theorem instanceOf_rule_none (h : ¬(r.body.length = r'.body.length ∧ r.head.Matches Accepted r'.head)) :
    Unify.instanceOf (.rule r) (.rule r') = .ok none := by
  rw [Unify.instanceOf]
  by_cases hlength : r.body.length = r'.body.length
  · rw [if_neg (not_not.2 hlength)]
    rw [← isSome_instanceAtoms_iff] at h
    rcases ha : instanceAtoms [] r.head 1 r'.head 0 with ⟨u, _ | changes⟩
    · rfl
    · exact absurd ⟨hlength, by rw [ha]; rfl⟩ h
  · rw [if_pos hlength]

theorem instanceOf_rule (hlength : r.body.length = r'.body.length) (hhead : r.head.Matches Accepted r'.head) :
    (r.body = [] ∧ ∃ h, Unify.instanceOf (.rule r) (.rule r') = .ok (some h))
      ∨ r.body ≠ [] ∧ Unify.instanceOf (.rule r) (.rule r') = .error .typeError := by
  rw [Unify.instanceOf, if_neg (not_not.2 hlength)]
  rw [← isSome_instanceAtoms_iff] at hhead
  rcases ha : instanceAtoms [] r.head 1 r'.head 0 with ⟨h, _ | changes⟩
  · rw [ha] at hhead
    exact absurd hhead Bool.false_ne_true
  · by_cases hbody : r.body = []
    · exact .inl ⟨hbody, h, if_pos (by rw [hbody]; rfl)⟩
    · exact .inr ⟨hbody, if_neg (by rwa [List.isEmpty_iff])⟩

/-- A right answer is the one about instances. -/
theorem accepted_right_iff {inst alike misled : Prop} (hsub : inst → alike) (hnot : misled → ¬alike) :
    ((alike ∨ misled) ↔ inst) ↔ ¬(misled ∨ alike ∧ ¬inst) := by
  tauto

/-- `instance` tells whether one formula is an instance of the other one unless it misjudges them. -/
theorem instance_correct_iff (f f' : Formula V) :
    (∃ o, Unify.instanceOf f f' = .ok o ∧ (o.isSome = true ↔ f.InstanceOf f')) ↔ ¬f.Misjudged f' := by
  have hok : ∀ {o : Option (Bindings V)}, Unify.instanceOf f f' = .ok o →
      ((∃ o, Unify.instanceOf f f' = .ok o ∧ (o.isSome = true ↔ f.InstanceOf f'))
        ↔ (o.isSome = true ↔ f.InstanceOf f')) := fun ho =>
    ⟨fun ⟨o', ho', h⟩ => by rw [ho] at ho'; cases ho'; exact h, fun h => ⟨_, ho, h⟩⟩
  rcases f with l | r <;> rcases f' with l' | r'
  · obtain ⟨o, ho, hiff⟩ := instanceOf_atom l l'
    rw [hok ho, hiff, Misjudged, InstanceOverlooked, ← InstanceOf.unsigned_iff, Literal.matches_accepted_iff,
      bare_atom_iff]
    by_cases hsign : l.negated = l'.negated
    · rw [and_iff_right hsign, and_iff_right hsign]
      exact accepted_right_iff (fun h => bare_atom_iff.1 h.bare) Literal.Matches.not_instances
    · refine iff_of_true (iff_of_false (fun h => hsign h.1) ?_) fun h => hsign h.1
      rintro ⟨θ, hθ⟩
      exact hsign (congrArg Literal.negated (atom.inj hθ)).symm
  · exact iff_of_true ((hok rfl).2 (iff_of_false Bool.false_ne_true fun ⟨θ, hθ⟩ => by cases hθ)) id
  · exact iff_of_true ((hok rfl).2 (iff_of_false Bool.false_ne_true fun ⟨θ, hθ⟩ => by cases hθ)) id
  · have hlength_of : (rule r).InstanceOf (rule r') → r.body.length = r'.body.length := fun ⟨θ, hθ⟩ => by
      have hlength := congrArg (fun r => r.body.length) (rule.inj hθ)
      simpa [Rule.subst] using hlength.symm
    rw [Misjudged]
    by_cases hlength : r.body.length = r'.body.length
    · rw [and_iff_right hlength]
      split_ifs with hbody
      · have hbody' : r'.body = [] := List.length_eq_zero_iff.1 (by rw [← hlength, hbody]; rfl)
        have hfact := bare_fact_iff hbody hbody'
        have hsub : (rule r).InstanceOf (rule r') → r.head.Matches Instances r'.head := fun h => hfact.1 h.bare
        rw [InstanceOverlooked, ← InstanceOf.unsigned_iff, hfact]
        refine Iff.trans ?_ (accepted_right_iff hsub Literal.Matches.not_instances)
        rw [← Literal.matches_accepted_iff]
        by_cases hhead : r.head.Matches Accepted r'.head
        · rcases instanceOf_rule hlength hhead with ⟨-, h, ho⟩ | ⟨hne, -⟩
          · rw [hok ho]
            exact iff_congr (iff_of_true rfl hhead) Iff.rfl
          · exact absurd hbody hne
        · rw [hok (instanceOf_rule_none fun h => hhead h.2)]
          exact iff_congr (iff_of_false Bool.false_ne_true hhead) Iff.rfl
      · by_cases hhead : r.head.Matches Accepted r'.head
        · rcases instanceOf_rule hlength hhead with ⟨h, -⟩ | ⟨-, ho⟩
          · exact absurd h hbody
          · refine iff_of_false ?_ (not_not.2 hhead)
            rintro ⟨o, ho', -⟩
            rw [ho] at ho'
            cases ho'
        · rw [hok (instanceOf_rule_none fun h => hhead h.2)]
          refine iff_of_true (iff_of_false Bool.false_ne_true ?_) hhead
          rintro ⟨θ, hθ⟩
          refine hhead (Literal.matches_accepted_iff.2 (.inl (bare_instances_iff.1 ⟨θ, ?_⟩)))
          have hheads := congrArg (fun r => r.head.bare) (rule.inj hθ)
          exact hheads
    · rw [hok (instanceOf_rule_none fun h => hlength h.1)]
      exact iff_of_true (iff_of_false Bool.false_ne_true fun h => hlength (hlength_of h)) fun h => hlength h.1

/-- `p(x, 1)` as an instance of `p(y, y)`. -/
theorem not_instance_correct :
    let p (arguments : List (Term ℕ)) : Formula ℕ := .atom ⟨⟨none, "p", none⟩, arguments, false, []⟩
    let f := p [.variable "x", .object 1]
    let f' := p [.variable "y", .variable "y"]
    (∃ o, Unify.instanceOf f f' = .ok (some o)) ∧ ¬f.InstanceOf f' := by
  refine ⟨⟨_, rfl⟩, ?_⟩
  rintro ⟨θ, hθ⟩
  have harguments : [θ "y", θ "y"] = [.variable "x", .object 1] := congrArg Literal.arguments (atom.inj hθ)
  simp only [List.cons.injEq, and_true] at harguments
  rw [harguments.1] at harguments
  cases harguments.2

end Congress
