import Mathlib.Data.Set.Lattice
import Mathlib.Order.CompletePartialOrder

/-!
# Queues of changes

Changes that wait in a queue, each the insertion or the deletion of some elements of a set. What the
set will be once all are applied (`applyAll`) is what an invariant can speak about while they wait.
Changes that agree on what is to be in the set bring that about where they touch it
(`mem_applyAll_of_agree`). A deletion that is dropped unless all of its elements are there is safe
in a queue in which they are all there or none of them is (`Uniform`).
-/

namespace Lib

/-- Elements that are put into a set, or taken out of it. -/
structure Change (X : Type*) where
  insert : Bool
  on : Set X

variable {X : Type*} {F T : Set X} {c : Change X} {cs ds : List (Change X)} {x : X}

open scoped Classical in
def Change.apply (F : Set X) (c : Change X) : Set X :=
  {x | if x ∈ c.on then c.insert = true else x ∈ F}

noncomputable def applyAll (F : Set X) (cs : List (Change X)) : Set X := cs.foldl Change.apply F

theorem Change.mem_apply : x ∈ c.apply F ↔ (x ∈ c.on ∧ c.insert = true) ∨ (x ∉ c.on ∧ x ∈ F) := by
  by_cases h : x ∈ c.on <;> simp [apply, h]

theorem Change.apply_empty (h : c.on = ∅) : c.apply F = F := by
  ext x
  simp [mem_apply, h]

/-- The change without what it says of the elements in `keep`. -/
def Change.sparing (keep : Set X) (c : Change X) : Change X := ⟨c.insert, c.on \ keep⟩

theorem Change.mem_apply_sparing {keep : Set X} : x ∈ (c.sparing keep).apply F
    ↔ (x ∈ c.on ∧ x ∉ keep ∧ c.insert = true) ∨ (¬ (x ∈ c.on ∧ x ∉ keep) ∧ x ∈ F) := by
  rw [mem_apply, sparing, Set.mem_sdiff, and_assoc]

@[simp] theorem Change.sparing_empty : c.sparing ∅ = c := by simp [sparing]

theorem applyAll_cons : applyAll F (c :: cs) = applyAll (c.apply F) cs := rfl

theorem applyAll_append : applyAll F (cs ++ ds) = applyAll (applyAll F cs) ds := List.foldl_append

/-- Changes none of which touches an element. -/
theorem mem_applyAll_of_untouched : ∀ {cs : List (Change X)} {F : Set X}, (∀ c ∈ cs, x ∉ c.on) →
    (x ∈ applyAll F cs ↔ x ∈ F)
  | [], _, _ => .rfl
  | c :: cs, F, h => by
    obtain ⟨hc, hcs⟩ := List.forall_mem_cons.1 h
    rw [applyAll_cons, mem_applyAll_of_untouched hcs, Change.mem_apply]
    simp [hc]

/-- Changes that agree on which elements are to be there. -/
theorem mem_applyAll_of_agree : ∀ {cs : List (Change X)} {F : Set X},
    (∀ c ∈ cs, ∀ x ∈ c.on, (c.insert = true ↔ x ∈ T)) → (∃ c ∈ cs, x ∈ c.on) →
    (x ∈ applyAll F cs ↔ x ∈ T)
  | [], _, _, hx => by simp at hx
  | c :: cs, F, h, hx => by
    obtain ⟨hc, hcs⟩ := List.forall_mem_cons.1 h
    rw [applyAll_cons]
    by_cases hlater : ∃ c ∈ cs, x ∈ c.on
    · exact mem_applyAll_of_agree hcs hlater
    · obtain ⟨c', hc', hxc⟩ := hx
      obtain rfl : c' = c :=
        (List.mem_cons.1 hc').resolve_right fun hc' => hlater ⟨c', hc', hxc⟩
      simp only [not_exists, not_and] at hlater
      rw [mem_applyAll_of_untouched hlater, Change.mem_apply, ← hc x hxc]
      simp [hxc]

open scoped Classical in
/-- Whether the last of the changes that touch an element puts it in, if any of them touches it. -/
noncomputable def verdict (cs : List (Change X)) (x : X) : Option Bool :=
  (cs.filter fun c => x ∈ c.on).getLast?.map (·.insert)

theorem verdict_eq_none : verdict cs x = none ↔ ∀ c ∈ cs, x ∉ c.on := by
  simp [verdict]

open scoped Classical in
theorem verdict_cons (hx : x ∈ c.on) :
    verdict (c :: cs) x = some ((verdict cs x).getD c.insert) := by
  rw [verdict, List.filter_cons_of_pos (by simpa using hx), List.getLast?_cons, verdict]
  cases (cs.filter fun c => x ∈ c.on).getLast? <;> rfl

theorem mem_applyAll_iff : ∀ {cs : List (Change X)} {F : Set X},
    x ∈ applyAll F cs ↔ verdict cs x = some true ∨ verdict cs x = none ∧ x ∈ F
  | [], F => by simp [verdict, applyAll]
  | c :: cs, F => by
    rw [applyAll_cons, mem_applyAll_iff, Change.mem_apply]
    by_cases hx : x ∈ c.on
    · rw [verdict_cons hx]
      cases verdict cs x <;> simp [hx]
    · have : verdict (c :: cs) x = verdict cs x := by simp [verdict, hx]
      simp [this, hx]

/-- Both lists of changes leave an element in the same place: their last changes of it agree, and one
that only one of them changes stays as it was. -/
def Agree (F : Set X) (cs ds : List (Change X)) : Prop :=
  ∀ x, match verdict cs x, verdict ds x with
    | some b, some b' => b = b'
    | some b, none => b = true ↔ x ∈ F
    | none, some b => b = true ↔ x ∈ F
    | none, none => True

theorem applyAll_eq_iff : applyAll F cs = applyAll F ds ↔ Agree F cs ds := by
  rw [Set.ext_iff]
  refine forall_congr' fun x => ?_
  rw [mem_applyAll_iff, mem_applyAll_iff]
  rcases verdict cs x with _ | b <;> rcases verdict ds x with _ | b'
  · simp
  · cases b' <;> simp
  · cases b <;> simp
  · cases b <;> cases b' <;> simp

/-- The elements of a deletion are all there, or none of them is. -/
def Change.Uniform (F : Set X) (c : Change X) : Prop :=
  c.insert = false → c.on ⊆ F ∨ Disjoint c.on F

/-- Every deletion is uniform when its turn comes. -/
def Uniform : Set X → List (Change X) → Prop
  | _, [] => True
  | F, c :: cs => c.Uniform F ∧ Uniform (c.apply F) cs

theorem uniform_append : ∀ {cs : List (Change X)} {F : Set X},
    Uniform F (cs ++ ds) ↔ Uniform F cs ∧ Uniform (applyAll F cs) ds
  | [], _ => by simp [Uniform, applyAll]
  | c :: cs, F => by
    rw [List.cons_append, Uniform, Uniform, uniform_append, applyAll_cons, and_assoc]

/-- Changes of different elements do not get in each other's way. -/
theorem uniform_of_disjoint : ∀ {cs : List (Change X)} {F : Set X},
    cs.Pairwise (fun c d => Disjoint c.on d.on) → (∀ c ∈ cs, c.Uniform F) → Uniform F cs
  | [], _, _, _ => trivial
  | c :: cs, F, hd, hu => by
    obtain ⟨hd, hds⟩ := List.pairwise_cons.1 hd
    obtain ⟨hu, hus⟩ := List.forall_mem_cons.1 hu
    refine ⟨hu, uniform_of_disjoint hds fun d hdmem hdel => ?_⟩
    have hout : ∀ x ∈ d.on, x ∉ c.on := fun x hx hx' => Set.disjoint_left.1 (hd d hdmem) hx' hx
    refine (hus d hdmem hdel).imp (fun h x hx => ?_) fun h => Set.disjoint_left.2 fun x hx => ?_
    · exact Change.mem_apply.2 (.inr ⟨hout x hx, h hx⟩)
    · rw [Change.mem_apply]
      simpa [hout x hx] using Set.disjoint_left.1 h hx

end Lib
