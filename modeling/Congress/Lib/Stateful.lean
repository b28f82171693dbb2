import Mathlib.Tactic.Common

/-!
# Computations that change a state and can fail

A failure keeps the state that it came to. A sequence of two computations returns exactly if both do
(`run_bind_ok`). What each part of a computation does to the state at most, so does the whole
(`Keeps.bind`).
-/

namespace Lib

theorem bind_ok {ε α β : Type} {x : Except ε α} {f : α → Except ε β} {b : β} :
    (x >>= f) = .ok b ↔ ∃ a, x = .ok a ∧ f a = .ok b := by
  rcases x with e | a
  · exact iff_of_false (fun h => by cases h) fun ⟨_, h, _⟩ => by cases h
  · exact ⟨fun h => ⟨a, rfl, h⟩, fun ⟨_, ha, h⟩ => by cases ha; exact h⟩

/-- What a computation returns, or how it fails, and the state in the end. -/
def Stateful (ε σ α : Type) := σ → Except ε α × σ

namespace Stateful

variable {ε σ α β : Type} {x : Stateful ε σ α} {f : α → Stateful ε σ β} {s s' : σ} {b : β} {e : ε}

def run (x : Stateful ε σ α) (s : σ) : Except ε α × σ := x s

instance : Monad (Stateful ε σ) where
  pure a := fun s => (.ok a, s)
  bind x f := fun s =>
    match x s with
    | (.ok a, s) => f a s
    | (.error e, s) => (.error e, s)

/-- The state. -/
def get : Stateful ε σ σ := fun s => (.ok s, s)

def modify (f : σ → σ) : Stateful ε σ Unit := fun s => (.ok (), f s)

def fail (e : ε) : Stateful ε σ α := fun s => (.error e, s)

/-- What leaves the state as it is. -/
def lift (r : Except ε α) : Stateful ε σ α := fun s => (r, s)

/-- A computation on a part of the state. -/
def zoom {τ : Type} (view : σ → τ) (put : σ → τ → σ) (x : Stateful ε τ α) : Stateful ε σ α :=
  fun s => ((x (view s)).1, put s (x (view s)).2)

/-- `try`: what fails goes on with the handler, in the state that it came to. -/
def catching (x : Stateful ε σ α) (handler : ε → Stateful ε σ α) : Stateful ε σ α := fun s =>
  match x s with
  | (.ok a, s) => (.ok a, s)
  | (.error e, s) => handler e s

@[simp] theorem run_pure (a : α) : (pure a : Stateful ε σ α).run s = (.ok a, s) := rfl

@[simp] theorem run_get : (get : Stateful ε σ σ).run s = (.ok s, s) := rfl

@[simp] theorem run_modify (f : σ → σ) : (modify f : Stateful ε σ Unit).run s = (.ok (), f s) := rfl

@[simp] theorem run_fail : (fail e : Stateful ε σ α).run s = (.error e, s) := rfl

@[simp] theorem run_lift (r : Except ε α) : (lift r : Stateful ε σ α).run s = (r, s) := rfl

theorem run_bind : (x >>= f).run s = match x.run s with
    | (.ok a, s) => (f a).run s
    | (.error e, s) => (.error e, s) := rfl

/-- A sequence returns exactly if both its parts do. -/
theorem run_bind_ok : (x >>= f).run s = (.ok b, s')
    ↔ ∃ a s₁, x.run s = (.ok a, s₁) ∧ (f a).run s₁ = (.ok b, s') := by
  rw [run_bind]
  rcases x.run s with ⟨_ | a, s₁⟩
  · simp
  · simp

@[simp] theorem run_get_bind {f : σ → Stateful ε σ β} : (get >>= f).run s = (f s).run s := rfl

@[simp] theorem run_modify_bind {g : σ → σ} {f : Unit → Stateful ε σ β} :
    (modify g >>= f).run s = (f ()).run (g s) := rfl

@[simp] theorem run_pure_bind (a : α) : ((pure a : Stateful ε σ α) >>= f).run s = (f a).run s := rfl

@[simp] theorem run_lift_ok_bind (a : α) : (lift (.ok a) >>= f).run s = (f a).run s := rfl

theorem run_lift_bind_ok {r : Except ε α} :
    (lift r >>= f).run s = (.ok b, s') ↔ ∃ a, r = .ok a ∧ (f a).run s = (.ok b, s') := by
  rw [run_bind_ok]
  simp only [run_lift, Prod.mk.injEq]
  constructor
  · rintro ⟨a, s₁, ⟨rfl, rfl⟩, h⟩
    exact ⟨a, rfl, h⟩
  · rintro ⟨a, rfl, h⟩
    exact ⟨a, s, ⟨rfl, rfl⟩, h⟩

theorem run_catching {handler : ε → Stateful ε σ α} : (catching x handler).run s = match x.run s with
    | (.ok a, s) => (.ok a, s)
    | (.error e, s) => (handler e).run s := rfl

theorem run_zoom {τ : Type} {view : σ → τ} {put : σ → τ → σ} {x : Stateful ε τ α} :
    (zoom view put x).run s = ((x.run (view s)).1, put s (x.run (view s)).2) := rfl

/-- However the computation ends, the state in the end is related to the state `s` before. -/
def Keeps (R : σ → σ → Prop) (x : Stateful ε σ α) (s : σ) : Prop := R s (x.run s).2

theorem Keeps.of_run {R : σ → σ → Prop} {r : Except ε α} (h : Keeps R x s) (hx : x.run s = (r, s')) :
    R s s' := by
  rwa [Keeps, hx] at h

section

variable {R : σ → σ → Prop} (hrefl : ∀ s, R s s) (htrans : ∀ s t u, R s t → R t u → R s u)

include hrefl in
theorem Keeps.pure (a : α) : Keeps R (Pure.pure a : Stateful ε σ α) s := hrefl s

include hrefl in
theorem Keeps.fail : Keeps R (Stateful.fail e : Stateful ε σ α) s := hrefl s

include hrefl in
theorem Keeps.lift (r : Except ε α) : Keeps R (Stateful.lift r : Stateful ε σ α) s := hrefl s

include htrans in
theorem Keeps.bind (hx : Keeps R x s) (hf : ∀ a s', x.run s = (.ok a, s') → Keeps R (f a) s') :
    Keeps R (x >>= f) s := by
  unfold Keeps at hx ⊢
  rw [run_bind]
  rcases h : x.run s with ⟨_ | a, s'⟩
  · rw [h] at hx
    exact hx
  · rw [h] at hx
    exact htrans _ _ _ hx (hf a s' h)

end

end Stateful

end Lib
