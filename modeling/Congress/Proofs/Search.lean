import Mathlib.Tactic.SplitIfs
import Congress.Graph
import Congress.Lib.Digraph

/-!
# Depth first search

What a search explores (`Explores`): it begins at its roots and at everything reachable from them,
and it records a path exactly if it comes to its target by an edge. So the search from a node for
that node itself records a path exactly if the node lies on a cycle (`dfs_self`).
-/

namespace Congress

open Lib Relation

set_option linter.unusedSectionVars false

variable {N L : Type*} [DecidableEq N] [DecidableEq L]

namespace Graph

/-- There is an edge from `v` to `w`. -/
def Edge (g : Graph N L) (v w : N) : Prop := w ∈ (g.out v).map Prod.fst

instance (g : Graph N L) (v w : N) : Decidable (g.Edge v w) := inferInstanceAs (Decidable (_ ∈ _))

/-- The nodes at which a search has not begun. -/
def unbegun (g : Graph N L) (d : DfsData N) : List N := g.nodes.filter (· ∉ d.begun)

/-- What a search that comes to `roots` with the nodes of `stack` behind it does. -/
structure Explores (g : Graph N L) (target : Option N) (roots stack : List N)
    (d d' : DfsData N) : Prop where
  mono : ∀ v ∈ d.begun, v ∈ d'.begun
  root : ∀ v ∈ roots, v ∈ d'.begun
  reach : ∀ v ∈ d'.begun, v ∈ d.begun ∨ ∃ r ∈ roots, ReflTransGen g.Edge r v
  closed : ∀ v ∈ d'.begun, v ∉ d.begun → ∀ w, g.Edge v w → w ∈ d'.begun
  found : d'.targetPaths ≠ [] ↔ d.targetPaths ≠ [] ∨ ∃ t, target = some t
    ∧ (stack ≠ [] ∧ t ∈ roots ∨ ∃ v ∈ d'.begun, v ∉ d.begun ∧ g.Edge v t)

variable {g : Graph N L} {target : Option N} {v : N} {vs stack : List N} {d d₁ d₂ : DfsData N}

theorem Explores.nil (d : DfsData N) : g.Explores target [] stack d d where
  mono _ h := h
  root := by simp
  reach _ h := .inl h
  closed _ h h' := absurd h h'
  found := by
    refine ⟨.inl, fun h => h.resolve_right ?_⟩
    rintro ⟨t, -, ⟨-, h⟩ | ⟨v, h, h', -⟩⟩
    · simp at h
    · exact h' h

/-- Searching from one root and then from the others. -/
theorem Explores.cons (h₁ : g.Explores target [v] stack d d₁)
    (h₂ : g.Explores target vs stack d₁ d₂) : g.Explores target (v :: vs) stack d d₂ where
  mono u hu := h₂.mono u (h₁.mono u hu)
  root u hu := by
    rcases List.mem_cons.1 hu with rfl | hu
    · exact h₂.mono _ (h₁.root _ (List.mem_singleton_self _))
    · exact h₂.root u hu
  reach u hu := by
    rcases h₂.reach u hu with hu | ⟨r, hr, hu⟩
    · rcases h₁.reach u hu with hu | ⟨r, hr, hu⟩
      · exact .inl hu
      · exact .inr ⟨r, List.mem_cons.2 (.inl (List.mem_singleton.1 hr)), hu⟩
    · exact .inr ⟨r, List.mem_cons_of_mem _ hr, hu⟩
  closed u hu hu' w hw := by
    by_cases h : u ∈ d₁.begun
    · exact h₂.mono w (h₁.closed u h hu' w hw)
    · exact h₂.closed u hu h w hw
  found := by
    rw [h₂.found, h₁.found]
    constructor
    · rintro ((h | ⟨t, rfl, ⟨hs, ht⟩ | ⟨u, hu, hu', hw⟩⟩) | ⟨t, rfl, ⟨hs, ht⟩ | ⟨u, hu, hu', hw⟩⟩)
      · exact .inl h
      · exact .inr ⟨t, rfl, .inl ⟨hs, List.mem_cons.2 (.inl (List.mem_singleton.1 ht))⟩⟩
      · exact .inr ⟨t, rfl, .inr ⟨u, h₂.mono u hu, hu', hw⟩⟩
      · exact .inr ⟨t, rfl, .inl ⟨hs, List.mem_cons_of_mem _ ht⟩⟩
      · exact .inr ⟨t, rfl, .inr ⟨u, hu, fun h => hu' (h₁.mono u h), hw⟩⟩
    · rintro (h | ⟨t, rfl, ⟨hs, ht⟩ | ⟨u, hu, hu', hw⟩⟩)
      · exact .inl (.inl h)
      · rcases List.mem_cons.1 ht with rfl | ht
        · exact .inl (.inr ⟨t, rfl, .inl ⟨hs, List.mem_singleton_self _⟩⟩)
        · exact .inr ⟨t, rfl, .inl ⟨hs, ht⟩⟩
      · by_cases h : u ∈ d₁.begun
        · exact .inl (.inr ⟨t, rfl, .inr ⟨u, h, hu', hw⟩⟩)
        · exact .inr ⟨t, rfl, .inr ⟨u, hu, h, hw⟩⟩

/-- Searching from a list of roots, one after the other. -/
theorem Explores.foldlM {f : DfsData N → N → Except (Raised N) (DfsData N)} {n : ℕ}
    (hmono : ∀ {d d' : DfsData N}, (∀ v ∈ d.begun, v ∈ d'.begun) →
      (g.unbegun d').length ≤ (g.unbegun d).length)
    (hf : ∀ v ∈ vs, ∀ d, (g.unbegun d).length < n →
      ∃ d', f d v = .ok d' ∧ g.Explores target [v] stack d d')
    (d : DfsData N) (hd : (g.unbegun d).length < n) :
    ∃ d', vs.foldlM f d = .ok d' ∧ g.Explores target vs stack d d' := by
  induction vs generalizing d with
  | nil => exact ⟨d, rfl, .nil d⟩
  | cons v vs ih =>
    obtain ⟨d₁, hf₁, h₁⟩ := hf v (List.mem_cons_self ..) d hd
    obtain ⟨d₂, hf₂, h₂⟩ := ih (fun u hu => hf u (List.mem_cons_of_mem _ hu)) d₁
      ((hmono h₁.mono).trans_lt hd)
    exact ⟨d₂, by rw [List.foldlM_cons, hf₁]; exact hf₂, h₁.cons h₂⟩

theorem unbegun_mono {d d' : DfsData N} (h : ∀ v ∈ d.begun, v ∈ d'.begun) :
    (g.unbegun d').length ≤ (g.unbegun d).length := by
  refine (List.monotone_filter_right g.nodes fun v hv => ?_).length_le
  simp only [decide_not, Bool.not_eq_true', decide_eq_false_iff_not] at hv ⊢
  exact fun hd => hv (h v hd)

theorem unbegun_append_lt (hv : v ∈ g.nodes) (hb : v ∉ d.begun) (p : List (List N)) :
    (g.unbegun ⟨d.begun ++ [v], p⟩).length < (g.unbegun d).length := by
  have hsub : (g.unbegun ⟨d.begun ++ [v], p⟩).Sublist (g.unbegun d) :=
    List.monotone_filter_right g.nodes fun u hu => by
      simp only [decide_not, Bool.not_eq_true', decide_eq_false_iff_not] at hu ⊢
      exact fun hd => hu (List.mem_append_left _ hd)
  refine lt_of_le_of_ne hsub.length_le fun h => ?_
  have hv' : v ∈ g.unbegun ⟨d.begun ++ [v], p⟩ := by
    rw [hsub.eq_of_length h]
    exact List.mem_filter.2 ⟨hv, by simpa using hb⟩
  simp [unbegun] at hv'

/-- In a graph whose edges lead to nodes, a search from a node explores what is reachable. -/
theorem dfs_spec (ht : ∀ v w, g.Edge v w → w ∈ g.nodes) : ∀ (fuel : ℕ) {node : N} {stack : List N}
    {d : DfsData N}, node ∈ g.nodes → (g.unbegun d).length < fuel →
      ∃ d', g.dfs target fuel node stack d = .ok d' ∧ g.Explores target [node] stack d d'
  | fuel + 1, node, stack, d, hn, hf => by
    -- what is recorded on coming to the node
    set p := if target = some node ∧ 1 < (stack ++ [node]).length then
      d.targetPaths ++ [stack ++ [node]] else d.targetPaths with hp
    have hd : (if target = some node ∧ 1 < (stack ++ [node]).length then
        { d with targetPaths := d.targetPaths ++ [stack ++ [node]] } else d) = ⟨d.begun, p⟩ := by
      rw [hp]
      split_ifs <;> rfl
    have hpe : p ≠ [] ↔ d.targetPaths ≠ [] ∨ target = some node ∧ stack ≠ [] := by
      rw [hp]
      split_ifs with h
      · simp only [List.length_append, List.length_singleton] at h
        have hs : stack ≠ [] := List.length_pos_iff.1 (by omega)
        simp [h.1, hs]
      · refine ⟨.inl, fun h' => h'.resolve_right fun ⟨ht, hs⟩ => h ⟨ht, ?_⟩⟩
        have := List.length_pos_iff.2 hs
        simp only [List.length_append, List.length_singleton]
        omega
    simp only [dfs, hd, hn, not_true_eq_false, if_false]
    by_cases hb : node ∈ d.begun
    · rw [if_pos hb]
      refine ⟨_, rfl, fun _ h => h, by simpa using hb, fun _ h => .inl h, fun _ h h' => absurd h h',
        hpe.trans (or_congr_right ?_)⟩
      constructor
      · exact fun ⟨ht, hs⟩ => ⟨node, ht, .inl ⟨hs, List.mem_singleton_self _⟩⟩
      · rintro ⟨t, rfl, ⟨hs, h⟩ | ⟨v, h, h', -⟩⟩
        · exact ⟨congrArg some (List.mem_singleton.1 h), hs⟩
        · exact absurd h h'
    rw [if_neg hb]
    have hlt := unbegun_append_lt hn hb p
    obtain ⟨d', hok, h⟩ := Explores.foldlM
      (f := fun d v => g.dfs target fuel v (stack ++ [node]) d) unbegun_mono
      (fun w hw d hd => dfs_spec ht fuel (ht node w hw) hd) ⟨d.begun ++ [node], p⟩
      (by omega)
    refine ⟨d', hok, fun v hv => h.mono v (List.mem_append_left _ hv), fun v hv => ?_,
      fun v hv => ?_, fun v hv hv' w hw => ?_, ?_⟩
    · exact h.mono v (List.mem_append_right _ hv)
    · rcases h.reach v hv with hv | ⟨r, hr, hv⟩
      · rcases List.mem_append.1 hv with hv | hv
        · exact .inl hv
        · exact .inr ⟨node, List.mem_singleton_self _, List.mem_singleton.1 hv ▸ .refl⟩
      · exact .inr ⟨node, List.mem_singleton_self _, .head hr hv⟩
    · by_cases hvn : v = node
      · exact h.root w (hvn ▸ hw)
      · exact h.closed v hv (by simp [hv', hvn]) w hw
    · rw [h.found, hpe, or_assoc]
      refine or_congr_right ?_
      constructor
      · rintro (⟨ht, hs⟩ | ⟨t, rfl, ⟨-, ht⟩ | ⟨v, hv, hv', hw⟩⟩)
        · exact ⟨node, ht, .inl ⟨hs, List.mem_singleton_self _⟩⟩
        · exact ⟨t, rfl, .inr ⟨node, h.mono node (by simp), hb, ht⟩⟩
        · exact ⟨t, rfl, .inr ⟨v, hv, fun hd => hv' (List.mem_append_left _ hd), hw⟩⟩
      · rintro ⟨t, rfl, ⟨hs, ht⟩ | ⟨v, hv, hv', hw⟩⟩
        · exact .inl ⟨congrArg some (List.mem_singleton.1 ht), hs⟩
        · by_cases hvn : v = node
          · exact .inr ⟨t, rfl, .inl ⟨by simp, hvn ▸ hw⟩⟩
          · exact .inr ⟨t, rfl, .inr ⟨v, hv, by simp [hv', hvn], hw⟩⟩

theorem unbegun_lt_dfsFuel (g : Graph N L) (d : DfsData N) :
    (g.unbegun d).length < g.dfsFuel :=
  Nat.lt_succ_of_le (List.length_filter_le _ _)

/-- The search from a node for that node records a path exactly if it lies on a cycle. -/
theorem dfs_self (ht : ∀ v w, g.Edge v w → w ∈ g.nodes) {node : N} (hn : node ∈ g.nodes) :
    ∃ d, g.dfs (some node) g.dfsFuel node [] .reset = .ok d
      ∧ (d.targetPaths ≠ [] ↔ TransGen g.Edge node node) := by
  obtain ⟨d, hok, h⟩ := @dfs_spec _ _ _ _ g (some node) ht g.dfsFuel node [] .reset hn
    (g.unbegun_lt_dfsFuel .reset)
  have hb : ∀ v, v ∈ d.begun ↔ ReflTransGen g.Edge node v := by
    refine fun v => ⟨fun hv => ?_, fun hv => ?_⟩
    · obtain ⟨r, hr, hv⟩ := (h.reach v hv).resolve_left (List.not_mem_nil)
      exact List.mem_singleton.1 hr ▸ hv
    · exact mem_of_reflTransGen (p := (· ∈ d.begun)) (fun u w hu => h.closed u hu List.not_mem_nil w)
        (h.root node (List.mem_singleton_self _)) hv
  refine ⟨d, hok, h.found.trans ⟨?_, fun hc => .inr ⟨node, rfl, .inr ?_⟩⟩⟩
  · rintro (h0 | ⟨t, hnt, ⟨h0, -⟩ | ⟨v, hv, -, hw⟩⟩)
    · exact absurd rfl h0
    · exact absurd rfl h0
    · obtain rfl := Option.some.inj hnt
      exact .tail' ((hb v).1 hv) hw
  · obtain ⟨v, hv, hw⟩ := TransGen.tail'_iff.1 hc
    exact ⟨v, (hb v).2 hv, List.not_mem_nil, hw⟩

end Graph

end Congress
