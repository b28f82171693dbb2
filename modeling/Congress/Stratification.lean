import Mathlib.Algebra.BigOperators.Group.Finset.Basic
import Mathlib.Algebra.Order.BigOperators.Group.Finset
import Mathlib.Logic.Function.Basic
import Congress.Lib.Strata
import Congress.Proofs.HasCycle

/-!
# Stratification

`stratification` raises the strata of nodes until no edge asks for more. A stratum above the number of nodes
means that an edge with one of the labels lies on a cycle, and otherwise the strata are the least ones
(`stratification_exact`).
-/

namespace Congress

open Lib Relation

set_option linter.unusedSectionVars false

variable {N L : Type*} [DecidableEq N] [DecidableEq L]

namespace Graph

/-- The strata of the nodes, and whether one has changed. -/
abbrev StratumState (N : Type*) := (N → ℕ) × Bool

/-- The stratum of a node that an edge asks for. -/
def raised (labels : List L) (stratum : N → ℕ) (node : N) (edge : N × L) : ℕ :=
  if edge.2 ∈ labels then max (stratum node) (1 + stratum edge.1) else max (stratum node) (stratum edge.1)

/-- The loop over the edges of a node; without a result the strata cannot be found. -/
def stratifyEdges (g : Graph N L) (labels : List L) (node : N) :
    List (N × L) → StratumState N → Except (Raised N) (Option (StratumState N))
  | [], s => .ok (some s)
  | edge :: edges, (stratum, changes) =>
    if edge.1 ∉ g.nodes then .error (.keyError edge.1)
    else
      let new := raised labels stratum node edge
      let changes := changes || stratum node ≠ new
      if new > g.nodes.length then .ok none
      else g.stratifyEdges labels node edges (Function.update stratum node new, changes)

/-- The loop over the nodes that have edges. -/
def stratifyNodes (g : Graph N L) (labels : List L) :
    List N → StratumState N → Except (Raised N) (Option (StratumState N))
  | [], s => .ok (some s)
  | node :: nodes, s =>
    match g.stratifyEdges labels node (g.out node) s with
    | .error e => .error e
    | .ok none => .ok none
    | .ok (some s) => g.stratifyNodes labels nodes s

/-- The outer loop, which ends when no stratum has changed. -/
def stratifyLoop (g : Graph N L) (labels : List L) (keys : List N) :
    ℕ → (N → ℕ) → Except (Raised N) (Option (N → ℕ))
  | 0, _ => .error .outOfFuel
  | fuel + 1, stratum =>
    match g.stratifyNodes labels keys (stratum, false) with
    | .error e => .error e
    | .ok none => .ok none
    | .ok (some (stratum, changes)) =>
      if changes then g.stratifyLoop labels keys fuel stratum else .ok (some stratum)

/-- `stratification`, where the dictionary of edges has its keys in some order. -/
def stratification (g : Graph N L) (keys : List N) (labels : List L) : Except (Raised N) (Option (N → ℕ)) :=
  g.stratifyLoop labels keys (g.nodes.length * g.nodes.length + 1) fun _ => 1

/-! ## Strata of nodes -/

/-- Nodes have strata from 1 on, which do not rise along an edge and fall along one with a label. -/
structure IsStratification (g : Graph N L) (labels : List L) (s : N → ℕ) : Prop where
  one_le : ∀ v ∈ g.nodes, 1 ≤ s v
  weak : ∀ v w l, (w, l) ∈ g.out v → s w ≤ s v
  strict : ∀ v w l, (w, l) ∈ g.out v → l ∈ labels → s w < s v

/-- A directed cycle has an edge with one of the labels. -/
def LabelledCycle (g : Graph N L) (labels : List L) : Prop :=
  ∃ v w l, (w, l) ∈ g.out v ∧ l ∈ labels ∧ ReflTransGen g.Edge w v

variable {g : Graph N L} {labels : List L} {s s' t : N → ℕ} {c c' : Bool} {v w : N} {l : L}

theorem IsStratification.not_labelledCycle (h : g.IsStratification labels s) : ¬g.LabelledCycle labels := by
  rintro ⟨v, w, l, hvw, hl, hwv⟩
  have hstrata : Strata g.Edge (fun v w => ∃ l ∈ labels, (w, l) ∈ g.out v) s :=
    ⟨fun v w hw => (edge_iff.1 hw).elim fun l hw => h.weak v w l hw, fun v w ⟨l, hl, hw⟩ => h.strict v w l hw hl⟩
  exact hstrata.not_cycle ⟨l, hl, hvw⟩ hwv

/-- Without such a cycle there are strata up to the number of nodes. -/
theorem exists_stratification (ht : ∀ v w, g.Edge v w → w ∈ g.nodes) (h : ¬g.LabelledCycle labels) :
    ∃ t, g.IsStratification labels t ∧ ∀ v ∈ g.nodes, t v ≤ g.nodes.length := by
  obtain ⟨t, hstrata, hone, hle⟩ := exists_strata (r := g.Edge)
    (q := fun v w => ∃ l ∈ labels, (w, l) ∈ g.out v) g.nodes.toFinset
    (fun v w ⟨l, _, hw⟩ => edge_iff.2 ⟨l, hw⟩)
    (fun v w ⟨l, _, hw⟩ => List.mem_toFinset.2 (ht v w (edge_iff.2 ⟨l, hw⟩)))
    fun v w ⟨l, hl, hw⟩ hwv => h ⟨v, w, l, hw, hl, hwv⟩
  refine ⟨t, ⟨fun v _ => hone v, fun v w l hw => hstrata.weak v w (edge_iff.2 ⟨l, hw⟩),
    fun v w l hw hl => hstrata.strict v w ⟨l, hl, hw⟩⟩, fun v hv => ?_⟩
  exact (hle v (List.mem_toFinset.2 hv)).trans_eq (List.toFinset_card_of_nodup g.nodup)

/-! ## One pass -/

/-- A stratum is what an edge asks for. -/
def Meets (labels : List L) (s : N → ℕ) (v : N) (e : N × L) : Prop := s e.1 ≤ s v ∧ (e.2 ∈ labels → s e.1 < s v)

/-- What passing over some edges makes of the strata: no more than any stratification needs, and without a
change they are right for these edges. -/
structure Pass (g : Graph N L) (labels : List L) (E : Set (N × N × L)) (p p' : StratumState N) : Prop where
  mono : ∀ v, p.1 v ≤ p'.1 v
  below : ∀ t, g.IsStratification labels t → (∀ v ∈ g.nodes, p.1 v ≤ t v) → ∀ v ∈ g.nodes, p'.1 v ≤ t v
  bounded : (∀ v ∈ g.nodes, p.1 v ≤ g.nodes.length) → ∀ v ∈ g.nodes, p'.1 v ≤ g.nodes.length
  unchanged : p'.2 = false → p.2 = false ∧ p'.1 = p.1 ∧ ∀ e ∈ E, Meets labels p.1 e.1 e.2
  changed : p'.2 = true → p.2 = true ∨ ∃ v ∈ g.nodes, p.1 v < p'.1 v

/-- Every stratification from these strata on goes beyond the number of nodes. -/
def Exceeds (g : Graph N L) (labels : List L) (s : N → ℕ) : Prop :=
  ∀ t, g.IsStratification labels t → (∀ v ∈ g.nodes, s v ≤ t v) → ∃ v ∈ g.nodes, g.nodes.length < t v

variable {E E' : Set (N × N × L)} {p p' p'' : StratumState N}

theorem Pass.refl (p : StratumState N) : g.Pass labels ∅ p p where
  mono _ := le_rfl
  below _ _ h := h
  bounded h := h
  unchanged h := ⟨h, rfl, fun _ he => he.elim⟩
  changed h := .inl h

theorem Pass.trans (h : g.Pass labels E p p') (h' : g.Pass labels E' p' p'') : g.Pass labels (E ∪ E') p p'' where
  mono v := (h.mono v).trans (h'.mono v)
  below t ht hle := h'.below t ht (h.below t ht hle)
  bounded hle := h'.bounded (h.bounded hle)
  unchanged hc := by
    obtain ⟨hc', heq', hmeets'⟩ := h'.unchanged hc
    obtain ⟨hc, heq, hmeets⟩ := h.unchanged hc'
    refine ⟨hc, heq'.trans heq, fun e he => ?_⟩
    rcases he with he | he
    · exact hmeets e he
    · exact heq ▸ hmeets' e he
  changed hc := by
    rcases h'.changed hc with hc | ⟨v, hv, hlt⟩
    · rcases h.changed hc with hc | ⟨v, hv, hlt⟩
      · exact .inl hc
      · exact .inr ⟨v, hv, hlt.trans_le (h'.mono v)⟩
    · exact .inr ⟨v, hv, (h.mono v).trans_lt hlt⟩

theorem Pass.exceeds (h : g.Pass labels E p p') (hx : g.Exceeds labels p'.1) : g.Exceeds labels p.1 :=
  fun t ht hle => hx t ht (h.below t ht hle)

theorem raised_le (h : g.IsStratification labels t) (ht : ∀ v w, g.Edge v w → w ∈ g.nodes) (hv : v ∈ g.nodes)
    (he : (w, l) ∈ g.out v) (hle : ∀ v ∈ g.nodes, s v ≤ t v) : raised labels s v (w, l) ≤ t v := by
  have hw := hle w (ht v w (edge_iff.2 ⟨l, he⟩))
  have hweak := h.weak v w l he
  have hself := hle v hv
  unfold raised
  split_ifs with hl
  · have hstrict := h.strict v w l he hl
    exact max_le hself (by dsimp only; omega)
  · exact max_le hself (hw.trans hweak)

theorem le_raised (e : N × L) : s v ≤ raised labels s v e := by
  unfold raised
  split_ifs <;> exact le_max_left _ _

theorem meets_of_raised_eq {e : N × L} (h : s v = raised labels s v e) : Meets labels s v e := by
  unfold raised at h
  split_ifs at h with hl
  · have hle : 1 + s e.1 ≤ s v := h ▸ le_max_right _ _
    exact ⟨by omega, fun _ => by omega⟩
  · exact ⟨h ▸ le_max_right _ _, fun h' => absurd h' hl⟩

/-- An edge that asks for no more strata than there are nodes. -/
theorem pass_edge (ht : ∀ v w, g.Edge v w → w ∈ g.nodes) (hv : v ∈ g.nodes) {e : N × L} (he : e ∈ g.out v)
    (hle : raised labels s v e ≤ g.nodes.length) : g.Pass labels {(v, e)} (s, c)
      (Function.update s v (raised labels s v e), c || s v ≠ raised labels s v e) where
  mono u := by
    by_cases hu : u = v
    · subst hu
      simpa only [Function.update_self] using le_raised e
    · simp only [Function.update_of_ne hu, le_refl]
  below t hstrat hst u hu := by
    by_cases huv : u = v
    · subst huv
      simpa only [Function.update_self] using raised_le hstrat ht hv he hst
    · simpa only [Function.update_of_ne huv] using hst u hu
  bounded hs u hu := by
    by_cases huv : u = v
    · subst huv
      simpa only [Function.update_self] using hle
    · simpa only [Function.update_of_ne huv] using hs u hu
  unchanged hc := by
    obtain ⟨hc, heq⟩ := Bool.or_eq_false_iff.1 hc
    have heq : s v = raised labels s v e := by simpa using heq
    refine ⟨hc, heq ▸ Function.update_eq_self v s, fun e' he' => ?_⟩
    rw [Set.mem_singleton_iff.1 he']
    exact meets_of_raised_eq heq
  changed hc := by
    rcases Bool.or_eq_true_iff.1 hc with hc | hne
    · exact .inl hc
    · have hne : s v ≠ raised labels s v e := by simpa using hne
      refine .inr ⟨v, hv, ?_⟩
      simpa only [Function.update_self] using (le_raised e).lt_of_ne hne

/-- An edge that asks for more strata than there are nodes. -/
theorem exceeds_edge (ht : ∀ v w, g.Edge v w → w ∈ g.nodes) (hv : v ∈ g.nodes) {e : N × L} (he : e ∈ g.out v)
    (hlt : g.nodes.length < raised labels s v e) : g.Exceeds labels s := fun _ hstrat hst =>
  ⟨v, hv, hlt.trans_le (raised_le hstrat ht hv he hst)⟩

/-- A loop over edges makes a pass, or gives up because of a stratum that goes too far. -/
def Passes (g : Graph N L) (labels : List L) (E : Set (N × N × L)) (p : StratumState N)
    (r : Except (Raised N) (Option (StratumState N))) : Prop :=
  r = .ok none ∧ g.Exceeds labels p.1 ∨ ∃ p', r = .ok (some p') ∧ g.Pass labels E p p'

theorem Pass.passes (h : g.Pass labels E p p') {r : Except (Raised N) (Option (StratumState N))}
    (hr : g.Passes labels E' p' r) : g.Passes labels (E ∪ E') p r := by
  rcases hr with ⟨hr, hx⟩ | ⟨p'', hr, hpass⟩
  · exact .inl ⟨hr, h.exceeds hx⟩
  · exact .inr ⟨p'', hr, h.trans hpass⟩

theorem stratifyEdges_passes (ht : ∀ v w, g.Edge v w → w ∈ g.nodes) (hv : v ∈ g.nodes) :
    ∀ (es : List (N × L)) (p : StratumState N), es ⊆ g.out v →
      g.Passes labels {e | e.1 = v ∧ e.2 ∈ es} p (g.stratifyEdges labels v es p)
  | [], p, _ => by
    have hempty : {e : N × N × L | e.1 = v ∧ e.2 ∈ ([] : List (N × L))} = ∅ := by simp
    exact .inr ⟨p, rfl, hempty ▸ Pass.refl p⟩
  | e :: es, (s, c), hes => by
    have he : e ∈ g.out v := hes (List.mem_cons_self ..)
    have hset : {e' : N × N × L | e'.1 = v ∧ e'.2 ∈ e :: es} = {(v, e)} ∪ {e' | e'.1 = v ∧ e'.2 ∈ es} := by
      ext ⟨u, e'⟩
      simp only [List.mem_cons, Set.mem_ofPred_eq, Set.mem_union, Set.mem_singleton_iff, Prod.mk.injEq]
      tauto
    unfold stratifyEdges
    rw [if_neg (not_not_intro (ht v e.1 (edge_iff.2 ⟨e.2, he⟩)))]
    dsimp only
    split_ifs with hgt
    · exact .inl ⟨rfl, exceeds_edge ht hv he hgt⟩
    · rw [hset]
      exact (pass_edge ht hv he (not_lt.1 hgt)).passes
        (stratifyEdges_passes ht hv es _ fun e' he' => hes (List.mem_cons_of_mem _ he'))

theorem stratifyNodes_passes (ht : ∀ v w, g.Edge v w → w ∈ g.nodes) :
    ∀ (vs : List N) (p : StratumState N), vs ⊆ g.nodes →
      g.Passes labels {e | e.1 ∈ vs ∧ e.2 ∈ g.out e.1} p (g.stratifyNodes labels vs p)
  | [], p, _ => by
    have hempty : {e : N × N × L | e.1 ∈ ([] : List N) ∧ e.2 ∈ g.out e.1} = ∅ := by simp
    exact .inr ⟨p, rfl, hempty ▸ Pass.refl p⟩
  | v :: vs, p, hvs => by
    have hset : {e : N × N × L | e.1 ∈ v :: vs ∧ e.2 ∈ g.out e.1}
        = {e | e.1 = v ∧ e.2 ∈ g.out v} ∪ {e | e.1 ∈ vs ∧ e.2 ∈ g.out e.1} := by
      ext e
      simp only [List.mem_cons, Set.mem_ofPred_eq, Set.mem_union]
      constructor
      · rintro ⟨rfl | hvs, he⟩
        · exact .inl ⟨rfl, he⟩
        · exact .inr ⟨hvs, he⟩
      · rintro (⟨rfl, he⟩ | ⟨hvs, he⟩)
        · exact ⟨.inl rfl, he⟩
        · exact ⟨.inr hvs, he⟩
    unfold stratifyNodes
    rcases stratifyEdges_passes ht (hvs (List.mem_cons_self ..)) (g.out v) p (List.Subset.refl _)
      with ⟨hr, hx⟩ | ⟨p', hr, hpass⟩
    · exact .inl ⟨by rw [hr], hx⟩
    · rw [hr, hset]
      exact hpass.passes (stratifyNodes_passes ht vs p' fun u hu => hvs (List.mem_cons_of_mem _ hu))

/-! ## All passes -/

/-- How far the strata can still rise. -/
def slack (g : Graph N L) (s : N → ℕ) : ℕ := ∑ v ∈ g.nodes.toFinset, (g.nodes.length - s v)

/-- The strata between the passes: no more than any stratification needs, nor than there are nodes. -/
structure Rising (g : Graph N L) (labels : List L) (s : N → ℕ) : Prop where
  one_le : ∀ v ∈ g.nodes, 1 ≤ s v
  bounded : ∀ v ∈ g.nodes, s v ≤ g.nodes.length
  below : ∀ t, g.IsStratification labels t → ∀ v ∈ g.nodes, s v ≤ t v

theorem Pass.rising (h : g.Pass labels E p p') (hs : g.Rising labels p.1) : g.Rising labels p'.1 where
  one_le v hv := (hs.one_le v hv).trans (h.mono v)
  bounded := h.bounded hs.bounded
  below t ht := h.below t ht (hs.below t ht)

theorem Pass.slack_lt (h : g.Pass labels E (s, false) p') (hs : g.Rising labels s) (hc : p'.2 = true) :
    g.slack p'.1 < g.slack s := by
  rcases h.changed hc with hf | ⟨v, hv, hlt⟩
  · cases hf
  · have hbound := (h.rising hs).bounded v hv
    refine Finset.sum_lt_sum (fun u _ => Nat.sub_le_sub_left (h.mono u) _) ⟨v, List.mem_toFinset.2 hv, ?_⟩
    change s v < p'.1 v at hlt
    omega

theorem initial_rising : g.Rising labels fun _ => 1 where
  one_le _ _ := le_rfl
  bounded _ hv := List.length_pos_of_mem hv
  below _ ht v hv := ht.one_le v hv

theorem slack_initial_lt : g.slack (fun _ => 1) < g.nodes.length * g.nodes.length + 1 := by
  have hcard : g.nodes.toFinset.card = g.nodes.length := List.toFinset_card_of_nodup g.nodup
  rw [slack, Finset.sum_const, hcard, nsmul_eq_mul, Nat.cast_id]
  exact Nat.lt_succ_of_le (Nat.mul_le_mul_left _ (Nat.sub_le _ _))

/-- What the strata are in the end, or that there are none up to the number of nodes. -/
structure LeastStrata (g : Graph N L) (labels : List L) (r : Option (N → ℕ)) : Prop where
  none : r = none → ∀ t, g.IsStratification labels t → ∃ v ∈ g.nodes, g.nodes.length < t v
  some : ∀ s, r = some s → g.IsStratification labels s
    ∧ ∀ t, g.IsStratification labels t → ∀ v ∈ g.nodes, s v ≤ t v

theorem stratifyLoop_least (ht : ∀ v w, g.Edge v w → w ∈ g.nodes) {keys : List N}
    (hkeys : ∀ v, v ∈ keys ↔ g.edges v ≠ none) : ∀ (fuel : ℕ) (s : N → ℕ), g.Rising labels s →
      g.slack s < fuel → ∃ r, g.stratifyLoop labels keys fuel s = .ok r ∧ g.LeastStrata labels r
  | 0, _, _, hfuel => absurd hfuel (Nat.not_lt_zero _)
  | fuel + 1, s, hs, hfuel => by
    unfold stratifyLoop
    have hpasses : g.Passes labels _ (s, false) (g.stratifyNodes labels keys (s, false)) :=
      stratifyNodes_passes ht keys _ fun v hv => g.keys v ((hkeys v).1 hv)
    rcases hpasses with ⟨hr, hx⟩ | ⟨⟨s', c⟩, hr, hpass⟩
    · exact ⟨none, by rw [hr], fun _ t hstrat => hx t hstrat (hs.below t hstrat), fun _ h => by cases h⟩
    · rw [hr]
      dsimp only
      cases c with
      | true =>
        rw [if_pos rfl]
        exact stratifyLoop_least ht hkeys fuel s' (hpass.rising hs)
          ((hpass.slack_lt hs rfl).trans_le (Nat.lt_succ_iff.1 hfuel))
      | false =>
        obtain ⟨-, heq, hmeets⟩ := hpass.unchanged rfl
        change s' = s at heq
        subst heq
        have hedge : ∀ v w l, (w, l) ∈ g.out v → Meets labels s' v (w, l) := fun v w l he => by
          refine hmeets (v, w, l) ⟨(hkeys v).2 fun hnone => ?_, he⟩
          rw [out, hnone] at he
          cases he
        refine ⟨some s', by simp, ⟨fun h => by simp at h, fun t h => ?_⟩⟩
        obtain rfl := Option.some.inj h
        exact ⟨⟨hs.one_le, fun v w l he => (hedge v w l he).1, fun v w l he => (hedge v w l he).2⟩, hs.below⟩

/-- `stratification` ends; it has no result exactly if a cycle has an edge with one of the labels, and otherwise
its result is the least stratification. -/
theorem stratification_exact (g : Graph N L) (keys : List N) (labels : List L)
    (hkeys : ∀ v, v ∈ keys ↔ g.edges v ≠ none) (ht : ∀ v w, g.Edge v w → w ∈ g.nodes) :
    ∃ r, g.stratification keys labels = .ok r ∧ (r = none ↔ g.LabelledCycle labels)
      ∧ ∀ s, r = some s → g.IsStratification labels s
        ∧ ∀ t, g.IsStratification labels t → ∀ v ∈ g.nodes, s v ≤ t v := by
  have hrising : g.Rising labels fun _ => 1 := initial_rising
  obtain ⟨r, hr, hleast⟩ := stratifyLoop_least ht hkeys _ _ hrising slack_initial_lt
  refine ⟨r, hr, ⟨fun hnone => ?_, fun hcycle => ?_⟩, hleast.some⟩
  · by_contra hcycle
    obtain ⟨t, hstrat, hle⟩ := exists_stratification ht hcycle
    obtain ⟨v, hv, hlt⟩ := hleast.none hnone t hstrat
    exact (hle v hv).not_gt hlt
  · cases r with
    | none => rfl
    | some s => exact absurd hcycle (hleast.some s rfl).1.not_labelledCycle

/-- Two nodes, one of which uses the other with a label. -/
theorem stratification_exact_negated :
    let g : Graph (Fin 2) Bool := Graph.empty.addEdge 0 1 true
    ∃ r, g.stratification [0] [true] = .ok r ∧ (r = none ↔ g.LabelledCycle [true])
      ∧ ∀ s, r = some s → g.IsStratification [true] s
        ∧ ∀ t, g.IsStratification [true] t → ∀ v ∈ g.nodes, s v ≤ t v :=
  stratification_exact (Graph.empty.addEdge 0 1 true) [0] [true] (by decide) (by decide)

end Graph

end Congress
