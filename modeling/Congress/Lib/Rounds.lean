import Mathlib.Order.Basic
import Congress.Lib.Stateful

/-!
# Rounds

A computation for each element of a list, and a round that is repeated while the state asks for it. What
every element's computation does to the state so does the loop (`forEach_rel`); a loop that leaves the state
quiet has not changed it (`forEach_quiet`). Rounds end if each one that asks for another one lowers a measure
(`repeatWhile_ends`).
-/

namespace Lib

namespace Stateful

variable {ε σ α : Type} {body : α → Stateful ε σ Unit} {round : Stateful ε σ Unit} {working : σ → Bool}
  {l : List α} {s s' : σ}

/-- A loop over a list. -/
def forEach (body : α → Stateful ε σ Unit) : List α → Stateful ε σ Unit
  | [] => pure ()
  | a :: as => do
    body a
    forEach body as

/-- Some rounds of a loop, and whether it has ended. -/
def repeatWhile (working : σ → Bool) (round : Stateful ε σ Unit) : ℕ → Stateful ε σ Bool
  | 0 => pure false
  | fuel + 1 => do
    if working (← get) then
      round
      repeatWhile working round fuel
    else pure true

theorem forEach_cons_ok {a : α} (h : (forEach body (a :: l)).run s = (.ok (), s')) :
    ∃ s₁, (body a).run s = (.ok (), s₁) ∧ (forEach body l).run s₁ = (.ok (), s') := by
  obtain ⟨⟨⟩, s₁, h₁, h₂⟩ := run_bind_ok.1 h
  exact ⟨s₁, h₁, h₂⟩

/-- What the loop does where all elements do it. -/
theorem forEach_rel {R : σ → σ → Prop} (hrefl : ∀ s, R s s) (htrans : ∀ s t u, R s t → R t u → R s u) :
    ∀ {l : List α} {s s' : σ}, (∀ a ∈ l, ∀ s s', (body a).run s = (.ok (), s') → R s s') →
      (forEach body l).run s = (.ok (), s') → R s s'
  | [], s, _, _, h => by
    cases h
    exact hrefl s
  | a :: l, s, s', hbody, h => by
    obtain ⟨hfirst, hrest⟩ := List.forall_mem_cons.1 hbody
    obtain ⟨s₁, h₁, h₂⟩ := forEach_cons_ok h
    exact htrans _ _ _ (hfirst _ _ h₁) (forEach_rel hrefl htrans hrest h₂)

/-- A loop whose last state is quiet has not changed the state, and found it right for all elements. -/
theorem forEach_quiet {P : σ → Prop} {Q : α → σ → Prop} : ∀ {l : List α} {s s' : σ},
    (∀ a ∈ l, ∀ s s', (body a).run s = (.ok (), s') → P s' → s' = s ∧ Q a s) →
      (forEach body l).run s = (.ok (), s') → P s' → s' = s ∧ ∀ a ∈ l, Q a s
  | [], s, _, _, h, _ => by
    cases h
    exact ⟨rfl, fun _ ha => absurd ha List.not_mem_nil⟩
  | a :: l, s, s', hbody, h, hq => by
    obtain ⟨hfirst, hrest⟩ := List.forall_mem_cons.1 hbody
    obtain ⟨s₁, h₁, h₂⟩ := forEach_cons_ok h
    obtain ⟨rfl, hall⟩ := forEach_quiet hrest h₂ hq
    obtain ⟨rfl, ha⟩ := hfirst _ _ h₁ hq
    exact ⟨rfl, List.forall_mem_cons.2 ⟨ha, hall⟩⟩

/-- What each element brings about, and what the others do keeps. -/
theorem forEach_brings {R : σ → σ → Prop} (hrefl : ∀ s, R s s) (htrans : ∀ s t u, R s t → R t u → R s u)
    {Q : α → σ → Prop} (hkeeps : ∀ a s s', R s s' → Q a s → Q a s') : ∀ {l : List α} {s s' : σ},
    (∀ a ∈ l, ∀ s s', (body a).run s = (.ok (), s') → R s s' ∧ Q a s') →
      (forEach body l).run s = (.ok (), s') → ∀ a ∈ l, Q a s'
  | [], _, _, _, _ => fun _ ha => absurd ha List.not_mem_nil
  | a :: l, s, s', hbody, h => by
    obtain ⟨hfirst, hrest⟩ := List.forall_mem_cons.1 hbody
    obtain ⟨s₁, h₁, h₂⟩ := forEach_cons_ok h
    have hrel : R s₁ s' := forEach_rel hrefl htrans (fun b hb s s' h => (hrest b hb s s' h).1) h₂
    exact List.forall_mem_cons.2
      ⟨hkeeps _ _ _ hrel (hfirst _ _ h₁).2, forEach_brings hrefl htrans hkeeps hrest h₂⟩

theorem repeatWhile_succ (h : working s = true) (n : ℕ) :
    (repeatWhile working round (n + 1)).run s = (round >>= fun _ => repeatWhile working round n).run s := by
  rw [repeatWhile, run_get_bind, if_pos h]

theorem repeatWhile_done (h : working s = false) (n : ℕ) :
    (repeatWhile working round (n + 1)).run s = (.ok true, s) := by
  rw [repeatWhile, run_get_bind, if_neg (by simp [h])]
  rfl

/-- Where a loop that had work to do has ended, there was a first round and a last one. -/
theorem repeatWhile_ok {R : σ → σ → Prop} (hrefl : ∀ s, R s s) (htrans : ∀ s t u, R s t → R t u → R s u)
    (hround : ∀ s s', round.run s = (.ok (), s') → R s s') : ∀ {n : ℕ} {s s' : σ}, working s = true →
      (repeatWhile working round n).run s = (.ok true, s') → working s' = false
        ∧ (∃ t, round.run s = (.ok (), t) ∧ R t s') ∧ ∃ t, R s t ∧ round.run t = (.ok (), s')
  | 0, _, _, _, h => by cases h
  | n + 1, s, s', hs, h => by
    rw [repeatWhile_succ hs] at h
    obtain ⟨⟨⟩, s₁, h₁, h₂⟩ := run_bind_ok.1 h
    cases hw : working s₁ with
    | true =>
      obtain ⟨hdone, -, t, ht, hlast⟩ := repeatWhile_ok hrefl htrans hround hw h₂
      exact ⟨hdone, ⟨s₁, h₁, htrans _ _ _ ht (hround _ _ hlast)⟩, t, htrans _ _ _ (hround _ _ h₁) ht, hlast⟩
    | false =>
      cases n with
      | zero => cases h₂
      | succ n =>
        rw [repeatWhile_done hw] at h₂
        cases h₂
        exact ⟨hw, ⟨_, h₁, hrefl _⟩, s, hrefl s, h₁⟩

/-- The loop ends, in one way or another, and more rounds would not change how. -/
def Ends (x : ℕ → Stateful ε σ Bool) (s : σ) : Prop :=
  ∃ n r s', r ≠ .ok false ∧ ∀ m, n ≤ m → (x m).run s = (r, s')

theorem Ends.of_error {e : ε} (hs : working s = true) (h : round.run s = (.error e, s')) :
    Ends (repeatWhile working round) s := by
  refine ⟨1, .error e, s', by simp, fun m hm => ?_⟩
  obtain ⟨m, rfl⟩ := Nat.exists_eq_add_of_le' hm
  rw [repeatWhile_succ hs, run_bind, h]

theorem Ends.of_round (hs : working s = true) (h : round.run s = (.ok (), s'))
    (hrest : Ends (repeatWhile working round) s') : Ends (repeatWhile working round) s := by
  obtain ⟨n, r, t, hr, hrun⟩ := hrest
  refine ⟨n + 1, r, t, hr, fun m hm => ?_⟩
  obtain ⟨m, rfl⟩ := Nat.exists_eq_add_of_le' (Nat.le_of_add_left_le hm)
  rw [repeatWhile_succ hs, run_bind, h]
  exact hrun m (by omega)

theorem Ends.of_done (hs : working s = false) : Ends (repeatWhile working round) s := by
  refine ⟨1, .ok true, s, by simp, fun m hm => ?_⟩
  obtain ⟨m, rfl⟩ := Nat.exists_eq_add_of_le' hm
  exact repeatWhile_done hs m

theorem Ends.bind {τ : Type} {x : Stateful ε σ τ} {f : ℕ → τ → Stateful ε σ Bool} {a : τ}
    (h : x.run s = (.ok a, s')) (hf : Ends (fun n => f n a) s') : Ends (fun n => x >>= f n) s := by
  obtain ⟨n, r, t, hr, hrun⟩ := hf
  exact ⟨n, r, t, hr, fun m hm => by rw [run_bind, h]; exact hrun m hm⟩

theorem Ends.bind_error {τ : Type} {x : Stateful ε σ τ} {f : ℕ → τ → Stateful ε σ Bool} {e : ε}
    (h : x.run s = (.error e, s')) : Ends (fun n => x >>= f n) s :=
  ⟨0, .error e, s', by simp, fun m _ => by rw [run_bind, h]⟩

/-- A loop ends whose rounds keep an invariant, and lower a measure if another round is to follow. -/
theorem repeatWhile_ends {I : σ → Prop} {μ : σ → ℕ} (hround : ∀ s s', I s → round.run s = (.ok (), s') →
    I s' ∧ (working s' = true → μ s' < μ s)) (h : I s) : Ends (repeatWhile working round) s := by
  induction hn : μ s using Nat.strongRecOn generalizing s with
  | ind n ih =>
    cases hw : working s with
    | false => exact .of_done hw
    | true =>
      rcases hrun : round.run s with ⟨_ | ⟨⟨⟩⟩, s'⟩
      · exact .of_error hw hrun
      · obtain ⟨hI, hlt⟩ := hround s s' h hrun
        refine .of_round hw hrun ?_
        cases hw' : working s' with
        | false => exact .of_done hw'
        | true => exact ih _ (hn ▸ hlt hw') hI rfl

end Stateful

end Lib
