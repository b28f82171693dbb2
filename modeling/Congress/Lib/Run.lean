import Mathlib.Tactic.Common

/-!
# Runs of a deterministic system

A system is a function from a state and an operation to the next state. `Always` says that a
property holds in every state a run passes through, `Along` that every step of it meets a
condition in the state before the step. Where one step decides the property exactly, so does the
whole run (`always_iff_along`). The same for steps that can fail (`alwaysOk_iff_alongOk`).
-/

namespace Lib

variable {σ ο : Type*}

/-- The state a list of operations leads to. -/
def run (step : σ → ο → σ) (s : σ) (ops : List ο) : σ := ops.foldl step s

/-- `P` holds in every state the run passes through, the first and the last included. -/
def Always (step : σ → ο → σ) (P : σ → Prop) : σ → List ο → Prop
  | s, [] => P s
  | s, o :: ops => P s ∧ Always step P (step s o) ops

/-- Every step of the run meets `K` in the state before it. -/
def Along (step : σ → ο → σ) (K : σ → ο → Prop) : σ → List ο → Prop
  | _, [] => True
  | s, o :: ops => K s o ∧ Along step K (step s o) ops

variable {step : σ → ο → σ} {I P : σ → Prop} {K : σ → ο → Prop}

@[simp] theorem run_nil (s : σ) : run step s [] = s := rfl

@[simp] theorem run_cons (s : σ) (o : ο) (ops : List ο) :
    run step s (o :: ops) = run step (step s o) ops := rfl

@[simp] theorem run_append (s : σ) (ops ops' : List ο) :
    run step s (ops ++ ops') = run step (run step s ops) ops' := List.foldl_append ..

/-- What every step keeps, every run keeps. -/
theorem run_invariant (h : ∀ s o, I s → I (step s o)) : ∀ (ops : List ο) {s : σ}, I s →
    I (run step s ops)
  | [], _, hs => hs
  | o :: ops, _, hs => run_invariant h ops (h _ o hs)

theorem Always.first : ∀ {ops : List ο} {s : σ}, Always step P s ops → P s
  | [], _, h => h
  | _ :: _, _, h => h.1

theorem Always.last : ∀ {ops : List ο} {s : σ}, Always step P s ops → P (run step s ops)
  | [], _, h => h
  | o :: _, s, h => @Always.last _ (step s o) h.2

theorem Always.imp {Q : σ → Prop} (h : ∀ s, P s → Q s) : ∀ {ops : List ο} {s : σ},
    Always step P s ops → Always step Q s ops
  | [], s, hs => h s hs
  | _ :: _, s, hs => ⟨h s hs.1, hs.2.imp h⟩

/-- A property holds throughout a run if it holds after each of its beginnings. -/
theorem always_iff_split : ∀ {ops : List ο} {s : σ}, Always step P s ops
    ↔ ∀ before after, ops = before ++ after → P (run step s before)
  | [], s => by
    constructor
    · rintro h before after heq
      rw [(List.append_eq_nil_iff.1 heq.symm).1]
      exact h
    · exact fun h => h [] [] rfl
  | o :: ops, s => by
    constructor
    · rintro ⟨hs, h⟩ (_ | ⟨o', before⟩) after heq
      · exact hs
      · rw [List.cons_append, List.cons.injEq] at heq
        rw [← heq.1, run_cons]
        exact always_iff_split.1 h before after heq.2
    · exact fun h => ⟨h [] _ rfl, always_iff_split.2 fun before after heq =>
        h (o :: before) after (heq ▸ rfl)⟩

/-- Every step of a run meets a condition if each does after the steps before it. -/
theorem along_iff_split : ∀ {ops : List ο} {s : σ}, Along step K s ops
    ↔ ∀ before o after, ops = before ++ o :: after → K (run step s before) o
  | [], s => by simp [Along]
  | o :: ops, s => by
    constructor
    · rintro ⟨hs, h⟩ (_ | ⟨o', before⟩) o'' after heq
      · rw [List.nil_append, List.cons.injEq] at heq
        exact heq.1 ▸ hs
      · rw [List.cons_append, List.cons.injEq] at heq
        rw [← heq.1, run_cons]
        exact along_iff_split.1 h before o'' after heq.2
    · exact fun h => ⟨h [] o _ rfl, along_iff_split.2 fun before o' after heq =>
        h (o :: before) o' after (heq ▸ rfl)⟩

/-- Between a state in which something holds and a later one in which it does not, a step ended it. -/
theorem exists_step_of_change : ∀ {ops : List ο} {s : σ}, P s → ¬P (run step s ops) →
    ∃ before o after, ops = before ++ o :: after ∧ P (run step s before) ∧ ¬P (step (run step s before) o)
  | [], _, hs, h => absurd hs h
  | o :: ops, s, hs, h => by
    by_cases ho : P (step s o)
    · obtain ⟨before, o', after, rfl, hbefore, ho'⟩ := exists_step_of_change ho h
      exact ⟨o :: before, o', after, rfl, hbefore, ho'⟩
    · exact ⟨[], o, ops, rfl, hs, ho⟩

theorem along_append : ∀ {ops ops' : List ο} {s : σ}, Along step K s (ops ++ ops')
    ↔ Along step K s ops ∧ Along step K (run step s ops) ops'
  | [], _, _ => ⟨fun h => ⟨trivial, h⟩, fun h => h.2⟩
  | _ :: _, _, _ => (and_congr_right fun _ => along_append).trans and_assoc.symm

theorem always_append : ∀ {ops ops' : List ο} {s : σ}, Always step P s (ops ++ ops')
    ↔ Always step P s ops ∧ Always step P (run step s ops) ops'
  | [], _, _ => ⟨fun h => ⟨h.first, h⟩, fun h => h.2⟩
  | _ :: _, _, _ => (and_congr_right fun _ => always_append).trans and_assoc.symm

/-- What every step meeting `K` keeps holds throughout a run whose steps all meet `K`. -/
theorem always_of_along (h : ∀ s o, P s → K s o → P (step s o)) : ∀ (ops : List ο) {s : σ}, P s →
    Along step K s ops → Always step P s ops
  | [], _, hs, _ => hs
  | o :: ops, _, hs, hk => ⟨hs, always_of_along h ops (h _ o hs hk.1) hk.2⟩

/-- If, where `I` and `P` hold, a step keeps `P` exactly when it meets `K`, then `P` holds
throughout a run exactly when all its steps meet `K`. -/
theorem always_iff_along (hI : ∀ s o, I s → P s → I (step s o))
    (hP : ∀ s o, I s → P s → (P (step s o) ↔ K s o)) : ∀ (ops : List ο) {s : σ}, I s → P s →
      (Always step P s ops ↔ Along step K s ops)
  | [], _, _, hp => ⟨fun _ => trivial, fun _ => hp⟩
  | o :: ops, s, hi, hp => by
    constructor
    · rintro ⟨-, h⟩
      have hp' : P (step s o) := h.first
      exact ⟨(hP s o hi hp).1 hp', (always_iff_along hI hP ops (hI s o hi hp) hp').1 h⟩
    · rintro ⟨hk, h⟩
      have hp' : P (step s o) := (hP s o hi hp).2 hk
      exact ⟨hp, (always_iff_along hI hP ops (hI s o hi hp) hp').2 h⟩

/-- If a step that `Q` holds of keeps `I`, and where `I` holds `Q` holds of a step exactly when it
meets `K`, then so it is with whole runs. -/
theorem along_iff_along {Q : σ → ο → Prop} (hI : ∀ s o, I s → Q s o → I (step s o))
    (hQ : ∀ s o, I s → (Q s o ↔ K s o)) : ∀ (ops : List ο) {s : σ}, I s →
      (Along step Q s ops ↔ Along step K s ops)
  | [], _, _ => .rfl
  | o :: ops, s, hi => by
    constructor
    · rintro ⟨hq, h⟩
      exact ⟨(hQ s o hi).1 hq, (along_iff_along hI hQ ops (hI s o hi hq)).1 h⟩
    · rintro ⟨hk, h⟩
      have hq := (hQ s o hi).2 hk
      exact ⟨hq, (along_iff_along hI hQ ops (hI s o hi hq)).2 h⟩

/-- Two systems side by side. If a step keeps them related exactly when it meets `K`, then they stay
related throughout exactly when all steps do. -/
theorem related_iff_along {τ : Type*} {step' : τ → ο → τ} {R : σ → τ → Prop}
    (hR : ∀ s t o, R s t → (R (step s o) (step' t o) ↔ K s o)) : ∀ (ops : List ο) {s : σ} {t : τ}, R s t →
      ((∀ before after, ops = before ++ after → R (run step s before) (run step' t before))
        ↔ Along step K s ops)
  | [], s, t, h => by
    refine ⟨fun _ => trivial, fun _ before after heq => ?_⟩
    rw [(List.append_eq_nil_iff.1 heq.symm).1]
    exact h
  | o :: ops, s, t, h => by
    constructor
    · intro hrun
      have h' : R (step s o) (step' t o) := hrun [o] ops rfl
      exact ⟨(hR s t o h).1 h', (related_iff_along hR ops h').1 fun before after heq =>
        hrun (o :: before) after (heq ▸ rfl)⟩
    · rintro ⟨hk, hrun⟩ (_ | ⟨o', before⟩) after heq
      · exact h
      · rw [List.cons_append, List.cons.injEq] at heq
        rw [← heq.1, run_cons, run_cons]
        exact (related_iff_along hR ops ((hR s t o h).2 hk)).2 hrun before after heq.2

section Failing

variable {ε : Type*} {step : σ → ο → Except ε σ} {Q : σ → ο → σ → Prop} {I G : σ → Prop}
  {K : σ → ο → Prop}

/-- No step of the run fails, and `Q` holds of each. -/
def AlwaysOk (step : σ → ο → Except ε σ) (Q : σ → ο → σ → Prop) : σ → List ο → Prop
  | _, [] => True
  | s, o :: ops => ∃ s', step s o = .ok s' ∧ Q s o s' ∧ AlwaysOk step Q s' ops

/-- Every step of the run meets `K` in the state before it, as far as it does not fail. -/
def AlongOk (step : σ → ο → Except ε σ) (K : σ → ο → Prop) : σ → List ο → Prop
  | _, [] => True
  | s, o :: ops => K s o ∧ ∀ s', step s o = .ok s' → AlongOk step K s' ops

/-- If `I` is invariant and keeps steps from failing, and where `G` holds `Q` holds of a step, which
then keeps `G`, exactly when the step meets `K`, then so it is with whole runs. -/
theorem alwaysOk_iff_alongOk (hI : ∀ s o, I s → ∃ s', step s o = .ok s' ∧ I s')
    (hG : ∀ s o s', I s → G s → step s o = .ok s' → Q s o s' → G s')
    (hQ : ∀ s o s', I s → G s → step s o = .ok s' → (Q s o s' ↔ K s o)) : ∀ (ops : List ο) {s : σ},
      I s → G s → (AlwaysOk step Q s ops ↔ AlongOk step K s ops)
  | [], _, _, _ => .rfl
  | o :: ops, s, hi, hg => by
    obtain ⟨s', hs', hi'⟩ := hI s o hi
    have hqk := hQ s o s' hi hg hs'
    have ih := fun hq => alwaysOk_iff_alongOk hI hG hQ ops hi' (hG s o s' hi hg hs' hq)
    constructor
    · rintro ⟨t, ht, hq, h⟩
      obtain rfl : s' = t := Except.ok.inj (hs'.symm.trans ht)
      refine ⟨hqk.1 hq, fun t' ht' => ?_⟩
      obtain rfl : s' = t' := Except.ok.inj (hs'.symm.trans ht')
      exact (ih hq).1 h
    · rintro ⟨hk, h⟩
      have hq := hqk.2 hk
      exact ⟨s', hs', hq, (ih hq).2 (h s' hs')⟩

end Failing

end Lib
