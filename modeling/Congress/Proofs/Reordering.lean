import Mathlib.Tactic.SplitIfs
import Congress.Safety

/-!
# Reordering makes bodies safe

If `reorder_for_safety` succeeds then the new body has the literals of the old one, and each of them
can be evaluated after those before it (`reorderForSafety_safe`). A literal that was put off is only
taken when the variables it waited for are bound, and those that were bound before stay bound.

Of what stays put off in the end, no literal could be evaluated even after all the others
(`Reordering.Stuck`), so that no order of the body is safe (`reorderForSafety_complete`).
-/

namespace Congress

set_option linter.unusedSectionVars false

variable {V : Type*} [DecidableEq V] {reg : BuiltinRegistry V} {l : Literal V}
  {ls ls' : List (Literal V)} {bound bound' : String → Prop}

theorem Literal.Safe.mono (hb : ∀ x, bound x → bound' x) (h : l.Safe reg bound) :
    l.Safe reg bound' := by
  rw [Literal.Safe] at h ⊢
  split_ifs at h ⊢
  · exact fun x hx => hb x (h x hx)
  · exact fun built hr x hx => hb x (h built hr x hx)

theorem SafeInOrder.mono (hb : ∀ x, bound x → bound' x) (h : SafeInOrder reg bound ls) :
    SafeInOrder reg bound' ls := by
  induction ls generalizing bound bound' with
  | nil => trivial
  | cons l ls ih => exact ⟨h.1.mono hb, ih (fun x => Or.imp_left (hb x)) h.2⟩

theorem SafeInOrder.concat (h : SafeInOrder reg bound ls)
    (hl : l.Safe reg fun x => bound x ∨ x ∈ ls.flatMap Literal.variableNames) :
    SafeInOrder reg bound (ls ++ [l]) := by
  induction ls generalizing bound with
  | nil => exact ⟨hl.mono fun x hx => hx.resolve_right (by simp), trivial⟩
  | cons l' ls ih =>
    refine ⟨h.1, ih h.2 (hl.mono fun x hx => ?_)⟩
    rw [List.flatMap_cons, List.mem_append] at hx
    tauto

namespace Reordering

variable {r r' : Reordering V}

/-- The reordering after the literals `ls` of the body. -/
structure Sound (reg : BuiltinRegistry V) (ls : List (Literal V)) (r : Reordering V) : Prop where
  perm : (r.newBody ++ r.unsafeLiterals).Perm ls
  safe : SafeInOrder reg (fun _ => False) r.newBody
  vars : r.safeVars = r.newBody.flatMap Literal.variableNames
  waiting : ∀ l ∈ r.unsafeLiterals, ∀ bound : String → Prop, (∀ x ∈ r.safeVars, bound x) →
    (∀ x ∈ r.unsafeVariables l, bound x) → l.Safe reg bound

theorem Sound.makeSafe (h : r.Sound reg ls) (hl : l.Safe reg (· ∈ r.safeVars)) :
    (r.makeSafe l).Sound reg (l :: ls) where
  perm := by
    simp only [Reordering.makeSafe, List.append_assoc, List.singleton_append]
    exact List.perm_middle.trans (h.perm.cons l)
  safe := h.safe.concat (hl.mono fun x hx => .inr (h.vars ▸ hx))
  vars := by simp [Reordering.makeSafe, h.vars]
  waiting l' hl' bound hb hw := h.waiting l' hl' bound
    (fun x hx => hb x (List.mem_append_left _ hx)) hw

/-- Taking out a literal that was put off. -/
theorem Sound.erase (h : r.Sound reg ls) (hl : l ∈ r.unsafeLiterals) :
    ({ r with unsafeLiterals := r.unsafeLiterals.erase l } : Reordering V).Sound reg (ls.erase l) where
  perm := by
    refine List.perm_cons l |>.1 ?_
    refine (List.perm_middle.symm.trans ((List.perm_cons_erase hl).symm.append_left _)).trans ?_
    refine h.perm.trans (List.perm_cons_erase (h.perm.subset ?_))
    exact List.mem_append_right _ hl
  safe := h.safe
  vars := h.vars
  waiting l' hl' := h.waiting l' (List.mem_of_mem_erase hl')

theorem Sound.perm' (h : r.Sound reg ls) (hp : ls.Perm ls') : r.Sound reg ls' :=
  ⟨h.perm.trans hp, h.safe, h.vars, h.waiting⟩

theorem Sound.makeSafeLoop : ∀ (fuel : ℕ) {r : Reordering V}, r.Sound reg ls →
    (r.makeSafeLoop fuel).Sound reg ls
  | 0, _, h => h
  | fuel + 1, r, h => by
    rw [Reordering.makeSafeLoop]
    split
    · exact h
    · rename_i l hl
      have hmem := List.mem_of_find?_eq_some hl
      have hbound := List.find?_some hl
      simp only [List.all_eq_true, decide_eq_true_eq] at hbound
      have hsafe := h.waiting l hmem (· ∈ r.safeVars) (fun x hx => hx) hbound
      refine Sound.makeSafeLoop fuel (((h.erase hmem).makeSafe hsafe).perm' ?_)
      exact (List.perm_cons_erase (h.perm.subset (List.mem_append_right _ hmem))).symm

theorem Sound.makeSafePlus (h : r.Sound reg ls) (hl : l.Safe reg (· ∈ r.safeVars)) :
    (r.makeSafePlus l).Sound reg (ls ++ [l]) :=
  Sound.makeSafeLoop _ ((h.makeSafe hl).perm' (List.perm_append_singleton l ls).symm)

/-- Putting off a literal. -/
theorem Sound.wait (h : r.Sound reg ls) {targetVars : List String}
    (hl : ∀ bound : String → Prop, (∀ x ∈ targetVars, bound x) → l.Safe reg bound) :
    Sound reg (ls ++ [l]) { r with
      unsafeLiterals := r.unsafeLiterals ++ [l]
      unsafeVariables := Function.update r.unsafeVariables l
        (targetVars.filter (· ∉ r.safeVars)) } where
  perm := by
    rw [← List.append_assoc]
    exact h.perm.append_right [l]
  safe := h.safe
  vars := h.vars
  waiting l' hl' bound hb hw := by
    simp only at hl' hb hw
    by_cases he : l' = l
    · subst he
      rw [Function.update_self] at hw
      refine hl bound fun x hx => ?_
      by_cases hx' : x ∈ r.safeVars
      · exact hb x hx'
      · exact hw x (by simp [hx, hx'])
    · rw [Function.update_of_ne he] at hw
      have hl' : l' ∈ r.unsafeLiterals := by simpa [he] using hl'
      exact h.waiting l' hl' bound hb hw

theorem Sound.take (h : r.Sound reg ls) : (r.take reg l).Sound reg (ls ++ [l]) := by
  have wait : ∀ targetVars : List String,
      (∀ bound : String → Prop, (∀ x ∈ targetVars, bound x) → l.Safe reg bound) →
      Sound reg (ls ++ [l]) (if (targetVars.filter (· ∉ r.safeVars)).isEmpty then r.makeSafePlus l
        else { r with
          unsafeLiterals := r.unsafeLiterals ++ [l]
          unsafeVariables := Function.update r.unsafeVariables l
            (targetVars.filter (· ∉ r.safeVars)) }) := by
    intro targetVars hl
    split_ifs with he
    · refine h.makeSafePlus (hl _ fun x hx => ?_)
      rw [List.isEmpty_iff, List.filter_eq_nil_iff] at he
      simpa using he x hx
    · exact h.wait hl
  rw [Reordering.take]
  split_ifs with hn hb
  · exact wait _ fun bound hb => by rw [Literal.Safe, if_pos hn]; exact hb
  · cases hr : reg l.table.table with
    | none => simp [Literal.isBuiltin, BuiltinRegistry.isBuiltin, hr] at hb
    | some built =>
      refine wait _ fun bound hbound => ?_
      rw [Literal.Safe, if_neg hn, if_pos hb]
      intro built' hr'
      rw [hr] at hr'
      cases hr'
      exact hbound
  · exact h.makeSafePlus (by rw [Literal.Safe, if_neg hn, if_neg hb]; trivial)

theorem Sound.foldl : ∀ (ls' : List (Literal V)) {ls : List (Literal V)} {r : Reordering V},
    r.Sound reg ls → (ls'.foldl (Reordering.take reg) r).Sound reg (ls ++ ls')
  | [], ls, _, h => by simpa using h
  | l :: ls', ls, r, h => by
    have := Sound.foldl ls' (h.take (l := l))
    rwa [List.append_assoc, List.singleton_append] at this

/-! ## What is put off -/

/-- What a literal was put off for is needed to evaluate it. -/
def Needed (reg : BuiltinRegistry V) (r : Reordering V) : Prop :=
  ∀ l ∈ r.unsafeLiterals, ∀ bound : String → Prop, l.Safe reg bound →
    ∀ x ∈ r.unsafeVariables l, bound x

/-- Every literal that is put off waits for a variable. -/
structure Stuck (reg : BuiltinRegistry V) (r : Reordering V) : Prop where
  needed : r.Needed reg
  missing : ∀ l ∈ r.unsafeLiterals, ∃ x ∈ r.unsafeVariables l, x ∉ r.safeVars

theorem Stuck.not_safe (h : r.Stuck reg) (hl : l ∈ r.unsafeLiterals) : ¬ l.Safe reg (· ∈ r.safeVars) := by
  obtain ⟨x, hx, hmissing⟩ := h.missing l hl
  exact fun hsafe => hmissing (h.needed l hl _ hsafe x hx)

theorem Needed.makeSafeLoop : ∀ (fuel : ℕ) {r : Reordering V}, r.Needed reg →
    (r.makeSafeLoop fuel).Needed reg
  | 0, _, h => h
  | fuel + 1, r, h => by
    rw [Reordering.makeSafeLoop]
    split
    · exact h
    · exact Needed.makeSafeLoop fuel fun l' hl' => h l' (List.mem_of_mem_erase hl')

theorem makeSafeLoop_step {fuel : ℕ} (hl : r.unsafeLiterals.find? (fun l =>
    (r.unsafeVariables l).all (· ∈ r.safeVars)) = some l) :
    r.makeSafeLoop (fuel + 1)
      = makeSafeLoop fuel ({ r with unsafeLiterals := r.unsafeLiterals.erase l }.makeSafe l) := by
  rw [makeSafeLoop, hl]

theorem makeSafeLoop_stop {fuel : ℕ} (hl : r.unsafeLiterals.find? (fun l =>
    (r.unsafeVariables l).all (· ∈ r.safeVars)) = none) : r.makeSafeLoop fuel = r := by
  rcases fuel with _ | fuel
  · rfl
  · rw [makeSafeLoop, hl]

/-- The loop ends after at most as many rounds as literals are put off: more change nothing. -/
theorem makeSafeLoop_of_le : ∀ (fuel : ℕ) {r : Reordering V}, r.unsafeLiterals.length ≤ fuel →
    r.makeSafeLoop fuel = r.makeSafeLoop r.unsafeLiterals.length
      ∧ ∀ l ∈ (r.makeSafeLoop fuel).unsafeLiterals, ∃ x ∈ (r.makeSafeLoop fuel).unsafeVariables l,
        x ∉ (r.makeSafeLoop fuel).safeVars
  | 0, r, hf => by
    have hnil : r.unsafeLiterals = [] := List.length_eq_zero_iff.1 (by omega)
    rw [hnil]
    exact ⟨rfl, by simp [makeSafeLoop, hnil]⟩
  | fuel + 1, r, hf => by
    rcases hfind : r.unsafeLiterals.find? fun l => (r.unsafeVariables l).all (· ∈ r.safeVars) with _ | l
    · rw [makeSafeLoop_stop hfind, makeSafeLoop_stop hfind]
      refine ⟨rfl, fun l hl => ?_⟩
      have := List.find?_eq_none.1 hfind l hl
      simpa using this
    · have hmem := List.mem_of_find?_eq_some hfind
      have hlen := List.length_erase_of_mem hmem
      have hpos := List.length_pos_of_mem hmem
      obtain ⟨n, hn⟩ : ∃ n, r.unsafeLiterals.length = n + 1 := ⟨r.unsafeLiterals.length - 1, by omega⟩
      have hle : (r.unsafeLiterals.erase l).length = n := by omega
      rw [hn, makeSafeLoop_step hfind, makeSafeLoop_step hfind, ← hle]
      exact makeSafeLoop_of_le fuel (r := makeSafe { r with
        unsafeLiterals := r.unsafeLiterals.erase l } l) (show (r.unsafeLiterals.erase l).length ≤ fuel by omega)

theorem Needed.makeSafePlus (h : r.Needed reg) : (r.makeSafePlus l).Stuck reg where
  needed := Needed.makeSafeLoop _ fun l' hl' => h l' hl'
  missing := (makeSafeLoop_of_le r.unsafeLiterals.length (r := r.makeSafe l) le_rfl).2

theorem Stuck.wait (h : r.Stuck reg) {targetVars : List String}
    (hl : ∀ bound : String → Prop, l.Safe reg bound → ∀ x ∈ targetVars, bound x)
    (he : ¬ (targetVars.filter (· ∉ r.safeVars)).isEmpty = true) :
    Stuck reg { r with
      unsafeLiterals := r.unsafeLiterals ++ [l]
      unsafeVariables := Function.update r.unsafeVariables l
        (targetVars.filter (· ∉ r.safeVars)) } where
  needed l' hl' bound hsafe x hx := by
    by_cases hll : l' = l
    · subst hll
      simp only [Function.update_self, List.mem_filter] at hx
      exact hl bound hsafe x hx.1
    · simp only [Function.update_of_ne hll] at hx
      exact h.needed l' (by simpa [hll] using hl') bound hsafe x hx
  missing l' hl' := by
    by_cases hll : l' = l
    · subst hll
      obtain ⟨x, hx⟩ := List.exists_mem_of_ne_nil _ (mt List.isEmpty_iff.2 he)
      refine ⟨x, ?_, by simpa using (List.mem_filter.1 hx).2⟩
      simpa only [Function.update_self] using hx
    · simp only [Function.update_of_ne hll]
      exact h.missing l' (by simpa [hll] using hl')

theorem Stuck.take (h : r.Stuck reg) : (r.take reg l).Stuck reg := by
  have wait : ∀ targetVars : List String,
      (∀ bound : String → Prop, l.Safe reg bound → ∀ x ∈ targetVars, bound x) →
      Stuck reg (if (targetVars.filter (· ∉ r.safeVars)).isEmpty then r.makeSafePlus l
        else { r with
          unsafeLiterals := r.unsafeLiterals ++ [l]
          unsafeVariables := Function.update r.unsafeVariables l
            (targetVars.filter (· ∉ r.safeVars)) }) := by
    intro targetVars hl
    split_ifs with he
    · exact h.needed.makeSafePlus
    · exact h.wait hl he
  rw [Reordering.take]
  split_ifs with hn hb
  · exact wait _ fun bound hsafe => by rwa [Literal.Safe, if_pos hn] at hsafe
  · rcases hr : reg l.table.table with _ | built
    · exact h
    · refine wait _ fun bound hsafe => ?_
      rw [Literal.Safe, if_neg hn, if_pos hb] at hsafe
      exact hsafe built hr
  · exact h.needed.makeSafePlus

theorem Stuck.foldl : ∀ (ls : List (Literal V)) {r : Reordering V}, r.Stuck reg →
    (ls.foldl (Reordering.take reg) r).Stuck reg
  | [], _, h => h
  | _ :: ls, _, h => Stuck.foldl ls h.take

/-- A safe order of literals evaluates each of them, if the others can be. -/
theorem not_stuck_of_safeInOrder : ∀ {ls : List (Literal V)} {bound : String → Prop},
    r.Stuck reg → SafeInOrder reg bound ls → (∀ x, bound x → x ∈ r.safeVars) →
      (∀ l ∈ ls, l ∉ r.unsafeLiterals → ∀ x ∈ l.variableNames, x ∈ r.safeVars) →
        ∀ l ∈ ls, l ∉ r.unsafeLiterals
  | [], _, _, _, _, _ => by simp
  | l :: ls, bound, h, hs, hb, hvars => by
    have hl : l ∉ r.unsafeLiterals := fun hmem => h.not_safe hmem (hs.1.mono hb)
    refine List.forall_mem_cons.2 ⟨hl, ?_⟩
    refine not_stuck_of_safeInOrder h hs.2 (fun x hx => ?_) fun l' hl' =>
      hvars l' (List.mem_cons_of_mem _ hl')
    rcases hx with hx | hx
    · exact hb x hx
    · exact hvars l (List.mem_cons_self ..) hl x hx

/-! ## Bodies that are safe -/

theorem makeSafePlus_of_nil (h : r.unsafeLiterals = []) : r.makeSafePlus l = r.makeSafe l :=
  makeSafeLoop_stop (by simp [makeSafe, h])

/-- A literal that can be evaluated is not put off. -/
theorem take_of_safe (h : r.unsafeLiterals = []) (hl : l.Safe reg (· ∈ r.safeVars)) :
    r.take reg l = r.makeSafe l := by
  have hnone : ∀ {targetVars : List String}, (∀ x ∈ targetVars, x ∈ r.safeVars) →
      (targetVars.filter (· ∉ r.safeVars)).isEmpty = true := by
    intro targetVars hvars
    rw [List.isEmpty_iff, List.filter_eq_nil_iff]
    simpa using hvars
  rw [Reordering.take]
  rw [Literal.Safe] at hl
  split_ifs at hl ⊢ with hn hb
  · dsimp only
    rw [if_pos (hnone hl), makeSafePlus_of_nil h]
  · rcases hr : reg l.table.table with _ | built
    · simp [Literal.isBuiltin, BuiltinRegistry.isBuiltin, hr] at hb
    · dsimp only
      rw [if_pos (hnone (hl built hr)), makeSafePlus_of_nil h]
  · exact makeSafePlus_of_nil h

theorem foldl_take_of_safe : ∀ (ls : List (Literal V)) {r : Reordering V}, r.unsafeLiterals = [] →
    SafeInOrder reg (· ∈ r.safeVars) ls →
      (ls.foldl (Reordering.take reg) r).unsafeLiterals = []
        ∧ (ls.foldl (Reordering.take reg) r).newBody = r.newBody ++ ls
  | [], r, h, _ => ⟨h, by simp⟩
  | l :: ls, r, h, hs => by
    rw [List.foldl_cons, take_of_safe h hs.1]
    obtain ⟨hnil, hbody⟩ := foldl_take_of_safe ls (r := r.makeSafe l) h
      (hs.2.mono fun x hx => List.mem_append.2 hx)
    refine ⟨hnil, hbody.trans ?_⟩
    simp [makeSafe]

end Reordering

/-- What is left of a rule when it was reordered. -/
theorem reorderForSafety_safe {rule rule' : Rule V} (h : reorderForSafety reg rule = some rule') :
    rule'.head = rule.head ∧ rule'.moreHeads = rule.moreHeads ∧ rule'.body.Perm rule.body
      ∧ SafeInOrder reg (fun _ => False) rule'.body := by
  have hs : Reordering.Sound reg ([] ++ rule.body) _ :=
    Reordering.Sound.foldl rule.body (r := ⟨[], [], fun _ => [], []⟩) ⟨.refl _, trivial, rfl, by simp⟩
  rw [reorderForSafety] at h
  split_ifs at h with he
  cases h
  refine ⟨rfl, rfl, ?_, hs.safe⟩
  have := hs.perm
  rwa [List.isEmpty_iff.1 he, List.append_nil, List.nil_append] at this

/-- A rule is the same when it was reordered. -/
theorem reorderForSafety_same {rule rule' : Rule V} (h : reorderForSafety reg rule = some rule') :
    rule.same rule' = true := by
  obtain ⟨hhead, hmore, hbody, -⟩ := reorderForSafety_safe h
  refine Rule.same_iff.2 ⟨?_, hbody.symm⟩
  rw [Rule.heads, Rule.heads, hhead, hmore]

/-- A rule whose body can be put in a safe order is reordered. -/
theorem reorderForSafety_complete {rule : Rule V} {body : List (Literal V)}
    (hp : body.Perm rule.body) (hs : SafeInOrder reg (fun _ => False) body) :
    reorderForSafety reg rule ≠ none := by
  have hsound : Reordering.Sound reg ([] ++ rule.body) _ :=
    Reordering.Sound.foldl rule.body (r := ⟨[], [], fun _ => [], []⟩) ⟨.refl _, trivial, rfl, by simp⟩
  have hstuck : Reordering.Stuck reg _ :=
    Reordering.Stuck.foldl rule.body (r := ⟨[], [], fun _ => [], []⟩) ⟨by simp [Reordering.Needed], by simp⟩
  rw [reorderForSafety]
  generalize rule.body.foldl (Reordering.take reg) ⟨[], [], fun _ => [], []⟩ = r at hsound hstuck
  have hin : ∀ {l}, l ∈ body ↔ l ∈ r.newBody ∨ l ∈ r.unsafeLiterals := fun {l} => by
    rw [hp.mem_iff, ← List.mem_append, hsound.perm.mem_iff, List.nil_append]
  have hnone := Reordering.not_stuck_of_safeInOrder hstuck hs (fun _ => False.elim) fun l hl hl' x hx => by
    rw [hsound.vars]
    exact List.mem_flatMap.2 ⟨l, (hin.1 hl).resolve_right hl', hx⟩
  have hnil : r.unsafeLiterals = [] :=
    List.eq_nil_iff_forall_not_mem.2 fun l hl => hnone l (hin.2 (.inr hl)) hl
  simp [hnil]

/-- A rule whose body is in a safe order is left as it is. -/
theorem reorderForSafety_of_safe {rule : Rule V} (hs : SafeInOrder reg (fun _ => False) rule.body) :
    reorderForSafety reg rule = some rule := by
  obtain ⟨hnil, hbody⟩ := Reordering.foldl_take_of_safe rule.body (r := ⟨[], [], fun _ => [], []⟩) rfl
    (hs.mono fun _ => False.elim)
  rw [reorderForSafety, hnil, hbody]
  rfl

/-- `reorder_for_safety` succeeds exactly if some order of the body is safe. Then the body is put in
such an order, and left alone if it was in one; else the rule is left as it is. The loop in it ends: to
let it run for longer changes nothing. -/
theorem reorderForSafety_exact (reg : BuiltinRegistry V) (rule : Rule V)
    (hrule : ∀ h ∈ rule.heads, h.negated = false) :
    ((Formula.rule rule).reorderForSafety reg ≠ none
        ↔ ∃ body, body.Perm rule.body ∧ SafeInOrder reg (fun _ => False) body)
      ∧ (∀ f, (Formula.rule rule).reorderForSafety reg = some f → ∃ body,
        f = .rule { rule with body := body } ∧ body.Perm rule.body
          ∧ SafeInOrder reg (fun _ => False) body
          ∧ (SafeInOrder reg (fun _ => False) rule.body → body = rule.body))
      ∧ ((Formula.rule rule).reorderForSafety reg = none →
        ruleBodySafety reg rule = ([.notReordered rule], .rule rule))
      ∧ ∀ (r : Reordering V) (l : Literal V) (fuel : ℕ), r.unsafeLiterals.length ≤ fuel →
        (r.makeSafe l).makeSafeLoop fuel = r.makeSafePlus l := by
  have hany : ¬ rule.heads.any (·.negated) = true := by
    simpa only [List.any_eq_true, not_exists, not_and, Bool.not_eq_true] using hrule
  have heq : (Formula.rule rule).reorderForSafety reg = (reorderForSafety reg rule).map .rule := by
    rw [Formula.reorderForSafety, if_neg hany]
  rw [heq]
  refine ⟨⟨fun h => ?_, ?_⟩, fun f hf => ?_, fun h => ?_, fun r l fuel hf => ?_⟩
  · obtain ⟨rule', hrule'⟩ := Option.ne_none_iff_exists'.1 (mt Option.map_eq_none_iff.2 h)
    obtain ⟨-, -, hperm, hsafe⟩ := reorderForSafety_safe hrule'
    exact ⟨rule'.body, hperm, hsafe⟩
  · rintro ⟨body, hperm, hsafe⟩
    exact mt Option.map_eq_none_iff.1 (reorderForSafety_complete hperm hsafe)
  · obtain ⟨rule', hrule', rfl⟩ := Option.map_eq_some_iff.1 hf
    obtain ⟨hhead, hmore, hperm, hsafe⟩ := reorderForSafety_safe hrule'
    refine ⟨rule'.body, ?_, hperm, hsafe, fun h => ?_⟩
    · rw [← hhead, ← hmore]
    · rw [reorderForSafety_of_safe h] at hrule'
      rw [Option.some.inj hrule']
  · rw [ruleBodySafety, heq, h]
  · exact (Reordering.makeSafeLoop_of_le fuel (r := r.makeSafe l) hf).1

/-- `p(x) :- not q(x), r(x)` is reordered. -/
theorem reorderForSafety_exact_negated :
    (Formula.rule (V := ℕ) ⟨⟨⟨none, "p", none⟩, [.variable "x"], false, []⟩, [],
      [⟨⟨none, "q", none⟩, [.variable "x"], true, []⟩,
        ⟨⟨none, "r", none⟩, [.variable "x"], false, []⟩]⟩).reorderForSafety (fun _ => none) ≠ none := by
  refine (reorderForSafety_exact (fun _ => none) _ (by decide)).1.2 ⟨_, List.Perm.swap _ _ _, ?_⟩
  simp [SafeInOrder, Literal.Safe, Literal.variableNames, Term.names, Literal.isBuiltin,
    BuiltinRegistry.isBuiltin]

end Congress
