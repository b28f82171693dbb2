import Mathlib.Data.List.Chain
import Congress.Z3Theory
import Congress.Proofs.HasCycle

/-!
# Tables on cycles

`cycles` does not list all cycles: from each node it makes one search. Still the nodes of the cycles
it lists are just those that lie on a cycle (`cyclesList_spec`): a path that a search records leads
from its target to its target, and the search from a node on a cycle records one. So
`cycle_not_contained_in_z3` finds out whether one of them is a table of another policy.
-/

namespace Congress

open Lib Relation

set_option linter.unusedSectionVars false

variable {N L : Type*} [DecidableEq N] [DecidableEq L]

namespace Graph

variable {g : Graph N L} {v t : N} {p stack : List N} {d d' : DfsData N} {vs : List N}

/-- A path along edges from a node to that node. -/
structure Closed (g : Graph N L) (t : N) (p : List N) : Prop where
  chain : p.IsChain g.Edge
  head : p.head? = some t
  last : p.getLast? = some t
  long : 1 < p.length

theorem Closed.exists_middle (h : g.Closed t p) : ∃ m, p = t :: (m ++ [t]) := by
  obtain ⟨-, hhead, hlast, hlong⟩ := h
  rcases p with _ | ⟨a, p⟩
  · simp at hlong
  obtain rfl : a = t := by simpa using hhead
  have hp : p ≠ [] := by
    rintro rfl
    simp at hlong
  refine ⟨p.dropLast, ?_⟩
  rw [List.getLast?_cons, List.getLast?_eq_some_getLast hp] at hlast
  have hlast : p.getLast hp = a := by simpa using hlast
  conv_lhs => rw [← List.dropLast_append_getLast hp, hlast]

/-- Every node of a closed path lies on a cycle. -/
theorem Closed.transGen (h : g.Closed t p) (hv : v ∈ p) : TransGen g.Edge v v := by
  obtain ⟨m, rfl⟩ := h.exists_middle
  have hpair : (t :: (m ++ [t])).Pairwise (TransGen g.Edge) :=
    List.isChain_iff_pairwise.1 (h.chain.imp fun _ _ => .single)
  obtain ⟨hhead, hm⟩ := List.pairwise_cons.1 hpair
  have ht : TransGen g.Edge t t := hhead t (by simp)
  rcases List.mem_cons.1 hv with rfl | hv
  · exact ht
  rcases List.mem_append.1 hv with hvm | hv
  · exact ((List.pairwise_append.1 hm).2.2 v hvm t (by simp)).trans (hhead v hv)
  · obtain rfl := List.mem_singleton.1 hv
    exact ht

/-- A search from one root after the other records closed paths if each of them does. -/
theorem foldlM_closed {f : DfsData N → N → Except (Raised N) (DfsData N)}
    (hf : ∀ v ∈ vs, ∀ d d', f d v = .ok d' → (∀ p ∈ d.targetPaths, g.Closed t p) →
      ∀ p ∈ d'.targetPaths, g.Closed t p)
    (hok : vs.foldlM f d = .ok d') (hd : ∀ p ∈ d.targetPaths, g.Closed t p) :
    ∀ p ∈ d'.targetPaths, g.Closed t p := by
  induction vs generalizing d with
  | nil =>
    cases hok
    exact hd
  | cons v vs ih =>
    rw [List.foldlM_cons] at hok
    rcases hv : f d v with e | d₁
    · rw [hv] at hok
      cases hok
    · rw [hv] at hok
      exact ih (fun u hu => hf u (List.mem_cons_of_mem _ hu)) hok
        (hf v (List.mem_cons_self ..) d d₁ hv hd)

/-- A search for `t` along a path from `t` records closed paths. -/
theorem dfs_closed : ∀ (fuel : ℕ) {v : N} {stack : List N} {d d' : DfsData N},
    g.dfs (some t) fuel v stack d = .ok d' → (stack ++ [v]).IsChain g.Edge →
      (stack ++ [v]).head? = some t → (∀ p ∈ d.targetPaths, g.Closed t p) →
        ∀ p ∈ d'.targetPaths, g.Closed t p
  | fuel + 1, v, stack, d, d', hok, hchain, hhead, hd => by
    -- what is recorded on coming to the node
    have hrec : ∀ p ∈ (if some t = some v ∧ 1 < (stack ++ [v]).length then
        { d with targetPaths := d.targetPaths ++ [stack ++ [v]] } else d).targetPaths,
        g.Closed t p := by
      intro p hp
      split_ifs at hp with h
      · rcases List.mem_append.1 hp with hp | hp
        · exact hd p hp
        · obtain rfl := List.mem_singleton.1 hp
          exact ⟨hchain, hhead, by simp [Option.some.inj h.1], h.2⟩
      · exact hd p hp
    rw [dfs] at hok
    generalize (if some t = some v ∧ 1 < (stack ++ [v]).length then
      { d with targetPaths := d.targetPaths ++ [stack ++ [v]] } else d) = d₀ at hok hrec
    split_ifs at hok with hn hb
    · cases hok
      exact hrec
    · refine foldlM_closed (fun w hw d₁ d₂ h₁ hd₁ => ?_) hok hrec
      refine dfs_closed fuel h₁ ?_ (by simpa [List.head?_append] using hhead) hd₁
      rw [List.isChain_append]
      refine ⟨hchain, List.isChain_singleton w, fun a ha b hb => ?_⟩
      simp only [List.getLast?_append, List.getLast?_singleton, Option.some_or, Option.mem_def,
        Option.some.injEq, List.head?_cons] at ha hb
      subst ha hb
      exact hw

theorem mem_nodes_of_dfs {target : Option N} : ∀ {fuel : ℕ}, g.dfs target fuel v stack d = .ok d' →
    v ∈ g.nodes
  | 0, hok => by cases hok
  | fuel + 1, hok => by
    rw [dfs] at hok
    by_contra hn
    rw [if_pos hn] at hok
    cases hok

theorem exists_of_foldlM {f : DfsData N → N → Except (Raised N) (DfsData N)}
    (hok : vs.foldlM f d = .ok d') : ∀ w ∈ vs, ∃ d₁ d₂, f d₁ w = .ok d₂ := by
  induction vs generalizing d with
  | nil => simp
  | cons v vs ih =>
    rw [List.foldlM_cons] at hok
    rcases hv : f d v with e | d₁
    · rw [hv] at hok
      cases hok
    · rw [hv] at hok
      exact List.forall_mem_cons.2 ⟨⟨d, d₁, hv⟩, ih hok⟩

/-- A search from a node that does not raise has followed its edges to nodes. -/
theorem targets_of_dfs {target : Option N} : ∀ {fuel : ℕ},
    g.dfs target fuel v [] .reset = .ok d' → ∀ w, g.Edge v w → w ∈ g.nodes
  | 0, hok => by cases hok
  | fuel + 1, hok => by
    have hn := mem_nodes_of_dfs hok
    rw [dfs] at hok
    intro w hw
    rw [if_neg (by simpa using hn), if_neg (by split_ifs <;> simp [DfsData.reset])] at hok
    obtain ⟨d₁, d₂, h⟩ := exists_of_foldlM hok w hw
    exact mem_nodes_of_dfs h

/-! ## Listing -/

theorem mem_iff_mem_zip_tail (v : N) : ∀ {p : List N}, 1 < p.length →
    (v ∈ p ↔ ∃ e ∈ p.zip p.tail, v = e.1 ∨ v = e.2)
  | [], h => by simp at h
  | [_], h => by simp at h
  | [a, b], _ => by simp
  | a :: b :: c :: p, _ => by
    have ih := mem_iff_mem_zip_tail v (p := b :: c :: p) (by simp)
    rw [List.mem_cons, ih]
    simp only [List.tail_cons, List.zip_cons_cons, List.mem_cons, exists_eq_or_imp]
    constructor
    · rintro (h | h)
      · exact .inl (.inl h)
      · exact .inr h
    · rintro ((h | h) | h)
      · exact .inl h
      · exact .inr (.inl (.inl h))
      · exact .inr h

/-- Some of the cycles goes through the node. -/
def Listed (cs : List (Cycle N)) (v : N) : Prop := ∃ c ∈ cs, v ∈ c.listRepr

/-- The edges of a cycle tell its nodes. -/
theorem mem_congr_edges {c c' : Cycle N} (hc : 1 < c.listRepr.length) (hc' : 1 < c'.listRepr.length)
    (h : c.edges = c'.edges) : v ∈ c.listRepr ↔ v ∈ c'.listRepr := by
  have he : ∀ e, e ∈ c.listRepr.zip c.listRepr.tail ↔ e ∈ c'.listRepr.zip c'.listRepr.tail := by
    intro e
    rw [← List.mem_toFinset, ← List.mem_toFinset]
    exact Finset.ext_iff.1 h e
  rw [mem_iff_mem_zip_tail v hc, mem_iff_mem_zip_tail v hc']
  exact exists_congr fun e => and_congr_left fun _ => he e

theorem listed_addCycle {cs : List (Cycle N)} {c : Cycle N} (hc : 1 < c.listRepr.length)
    (hcs : ∀ c ∈ cs, 1 < c.listRepr.length) :
    Listed (addCycle cs c) v ↔ Listed cs v ∨ v ∈ c.listRepr := by
  unfold addCycle
  split_ifs with h
  · refine ⟨.inl, fun hv => hv.elim id fun hv => ?_⟩
    obtain ⟨c', hc', he⟩ := List.any_eq_true.1 h
    exact ⟨c', hc', (mem_congr_edges (hcs c' hc') hc (by simpa using he)).2 hv⟩
  · simp only [Listed, List.mem_append, List.mem_singleton]
    constructor
    · rintro ⟨c', hc' | rfl, hv⟩
      · exact .inl ⟨c', hc', hv⟩
      · exact .inr hv
    · rintro (⟨c', hc', hv⟩ | hv)
      · exact ⟨c', .inl hc', hv⟩
      · exact ⟨c, .inr rfl, hv⟩

theorem mem_addCycle {cs : List (Cycle N)} {c c' : Cycle N} (h : c' ∈ addCycle cs c) :
    c' ∈ cs ∨ c' = c := by
  unfold addCycle at h
  split_ifs at h
  · exact .inl h
  · simpa using h

theorem foldl_addCycle_listed : ∀ {new cs : List (Cycle N)},
    (∀ c ∈ new, 1 < c.listRepr.length) → (∀ c ∈ cs, 1 < c.listRepr.length) →
      (∀ c ∈ new.foldl addCycle cs, 1 < c.listRepr.length)
        ∧ (Listed (new.foldl addCycle cs) v ↔ Listed cs v ∨ Listed new v)
  | [], cs, _, hcs => ⟨hcs, by simp [Listed]⟩
  | c :: new, cs, hnew, hcs => by
    obtain ⟨hc, hnew⟩ := List.forall_mem_cons.1 hnew
    have hadd : ∀ c' ∈ addCycle cs c, 1 < c'.listRepr.length := by
      intro c' hc'
      rcases mem_addCycle hc' with hc' | rfl
      · exact hcs c' hc'
      · exact hc
    obtain ⟨hlong, hlisted⟩ := foldl_addCycle_listed hnew hadd
    refine ⟨hlong, ?_⟩
    rw [List.foldl_cons, hlisted, listed_addCycle hc hcs, or_assoc]
    simp [Listed]

/-- From nodes that are searched without raising, the nodes listed are those on a cycle through one
of them. -/
theorem enumerateCycles_listed : ∀ {ns : List N} {cs cs' : List (Cycle N)},
    g.enumerateCycles ns cs = (cs', .ok ()) → (∀ v w, g.Edge v w → w ∈ g.nodes) →
      (∀ v ∈ ns, v ∈ g.nodes) → (∀ c ∈ cs, 1 < c.listRepr.length) →
        (∀ c ∈ cs, ∀ v ∈ c.listRepr, TransGen g.Edge v v) → ∀ v,
          (Listed cs' v → TransGen g.Edge v v)
            ∧ (Listed cs v ∨ v ∈ ns ∧ TransGen g.Edge v v → Listed cs' v)
  | [], cs, cs', hrun, _, _, _, hcyc, v => by
    cases hrun
    exact ⟨fun ⟨c, hc, hv⟩ => hcyc c hc v hv, by simp⟩
  | n :: ns, cs, cs', hrun, ht, hns, hlong, hcyc, v => by
    obtain ⟨hn, hns⟩ := List.forall_mem_cons.1 hns
    obtain ⟨d, hok, hd⟩ := dfs_self ht hn
    rw [enumerateCycles, hok] at hrun
    have hclosed : ∀ p ∈ d.targetPaths, g.Closed n p :=
      dfs_closed _ hok (List.isChain_singleton n) rfl (by simp [DfsData.reset])
    have hnew : ∀ c ∈ d.targetPaths.map Cycle.mk, g.Closed n c.listRepr := by
      intro c hc
      obtain ⟨p, hp, rfl⟩ := List.mem_map.1 hc
      exact hclosed p hp
    have hfold : ∀ u, (∀ c ∈ (d.targetPaths.map Cycle.mk).foldl addCycle cs, 1 < c.listRepr.length)
        ∧ (Listed ((d.targetPaths.map Cycle.mk).foldl addCycle cs) u
          ↔ Listed cs u ∨ Listed (d.targetPaths.map Cycle.mk) u) :=
      fun u => foldl_addCycle_listed (fun c hc => (hnew c hc).long) hlong
    obtain ⟨hsound, hcomplete⟩ := enumerateCycles_listed hrun ht hns (hfold v).1
      (fun c hc u hu => by
        rcases (hfold u).2.1 ⟨c, hc, hu⟩ with ⟨c, hc, hu⟩ | ⟨c, hc, hu⟩
        · exact hcyc c hc u hu
        · exact (hnew c hc).transGen hu) v
    refine ⟨hsound, fun h => hcomplete ?_⟩
    rcases h with h | ⟨hv, hv'⟩
    · exact .inl ((hfold v).2.2 (.inl h))
    rcases List.mem_cons.1 hv with rfl | hv
    · obtain ⟨p, hp⟩ := List.exists_mem_of_ne_nil _ (hd.2 hv')
      refine .inl ((hfold v).2.2 (.inr ⟨⟨p⟩, List.mem_map_of_mem hp, ?_⟩))
      exact List.mem_of_mem_head? (hclosed p hp).head
    · exact .inr ⟨hv, hv'⟩

theorem targets_of_enumerateCycles : ∀ {ns : List N} {cs cs' : List (Cycle N)},
    g.enumerateCycles ns cs = (cs', .ok ()) → ∀ v ∈ ns, ∀ w, g.Edge v w → w ∈ g.nodes
  | [], _, _, _ => by simp
  | n :: ns, cs, cs', hrun => by
    rw [enumerateCycles] at hrun
    rcases hd : g.dfs (some n) g.dfsFuel n [] .reset with e | d
    · rw [hd] at hrun
      cases hrun
    · rw [hd] at hrun
      exact List.forall_mem_cons.2 ⟨targets_of_dfs hd, targets_of_enumerateCycles hrun⟩

/-- Freshly computed, the cycles listed go through just the nodes that lie on a cycle; they can be
computed if every edge leads to a node. -/
theorem cyclesList_spec (hfresh : g.cycles = none) :
    ((∃ cs, g.cyclesList.2 = .ok cs) ↔ ∀ v w, g.Edge v w → w ∈ g.nodes)
      ∧ ∀ cs, g.cyclesList.2 = .ok cs → ∀ v, v ∈ cs.flatten ↔ TransGen g.Edge v v := by
  have hknow : g.cyclesList.2 = (g.enumerateCycles g.nodes []).2.map
      fun _ => (g.enumerateCycles g.nodes []).1.map Cycle.listRepr := by
    simp only [cyclesList, knowCycles, hfresh]
    rcases (g.enumerateCycles g.nodes []).2 <;> rfl
  have hok : ∀ {cs}, g.cyclesList.2 = .ok cs → ∃ cs', g.enumerateCycles g.nodes [] = (cs', .ok ())
      ∧ cs = cs'.map Cycle.listRepr := by
    intro cs h
    rw [hknow] at h
    rcases he : g.enumerateCycles g.nodes [] with ⟨cs', e | u⟩
    · rw [he] at h
      cases h
    · rw [he] at h
      cases h
      exact ⟨cs', rfl, rfl⟩
  have htargets : ∀ {cs}, g.cyclesList.2 = .ok cs → ∀ v w, g.Edge v w → w ∈ g.nodes := by
    intro cs h v w hw
    obtain ⟨cs', he, -⟩ := hok h
    exact targets_of_enumerateCycles he v hw.mem_nodes w hw
  refine ⟨⟨fun ⟨cs, h⟩ => htargets h, fun ht => ?_⟩, fun cs h v => ?_⟩
  · obtain ⟨cs, he, -⟩ := enumerateCycles_spec ht g.nodes [] fun _ hv => hv
    exact ⟨_, by rw [hknow, he]; rfl⟩
  · obtain ⟨cs', he, rfl⟩ := hok h
    obtain ⟨hsound, hcomplete⟩ := enumerateCycles_listed he (htargets h) (fun _ hv => hv)
      (by simp) (by simp) v
    have hlisted : v ∈ (cs'.map Cycle.listRepr).flatten ↔ Listed cs' v := by
      simp [Listed]
    rw [hlisted]
    refine ⟨hsound, fun hv => hcomplete (.inr ⟨?_, hv⟩)⟩
    obtain ⟨w, hw, -⟩ := TransGen.head'_iff.1 hv
    exact hw.mem_nodes

end Graph

/-! ## Recursion outside of Z3 -/

theorem beforeColon_eq {fullname policy : String}
    (h : (parseServiceTable fullname).service = some policy) : beforeColon fullname = .ok policy := by
  unfold parseServiceTable at h
  unfold beforeColon
  rcases hd : fullname.toList.dropWhile (· ≠ ':') with _ | ⟨c, table⟩
  · rw [hd] at h
    cases h
  · rw [hd] at h
    cases h
    have hc : c = ':' := by
      have := List.head?_dropWhile_not (· ≠ ':') fullname.toList
      rw [hd] at this
      simpa using this
    have hmem : ':' ∈ fullname.toList := by
      rw [← List.takeWhile_append_dropWhile (p := fun c => decide (c ≠ ':')) (l := fullname.toList), hd,
        hc]
      simp
    rw [if_pos hmem]

/-- The policy is one that Z3 evaluates. -/
def IsZ3Policy (theories : List TheoryClass) (policy : String) : Prop :=
  ∃ th ∈ theories, th.isZ3Theory = true ∧ th.name = policy

/-- Where all names are qualified, the answer is whether one is of a policy that is not for Z3. -/
theorem cycleNotContainedInZ3_eq (theories : List TheoryClass) (cycles : List (List String))
    (hq : ∀ v ∈ cycles.flatten, (parseServiceTable v).service ≠ none) :
    ∃ answer, cycleNotContainedInZ3 theories cycles = .ok answer
      ∧ (answer = true ↔ ∃ v ∈ cycles.flatten, ∃ policy,
        (parseServiceTable v).service = some policy ∧ ¬ IsZ3Policy theories policy) := by
  unfold cycleNotContainedInZ3
  generalize cycles.flatten = names at hq ⊢
  induction names with
  | nil => exact ⟨false, rfl, by simp⟩
  | cons v names ih =>
    obtain ⟨hv, hnames⟩ := List.forall_mem_cons.1 hq
    obtain ⟨policy, hpolicy⟩ := Option.ne_none_iff_exists'.1 hv
    obtain ⟨answer, hrun, hanswer⟩ := ih hnames
    have hmem : policy ∈ (theories.filter (·.isZ3Theory)).map (·.name) ↔ IsZ3Policy theories policy := by
      simp [IsZ3Policy, and_assoc]
    have hhead : (∃ p, (parseServiceTable v).service = some p ∧ ¬ IsZ3Policy theories p)
        ↔ ¬ IsZ3Policy theories policy := by
      simp [hpolicy]
    simp only [List.anyM_cons, beforeColon_eq hpolicy, List.mem_cons, exists_eq_or_imp, hhead]
    by_cases hz : IsZ3Policy theories policy
    · refine ⟨answer, ?_, by simp [hz, hanswer]⟩
      show (if decide (policy ∉ (theories.filter (·.isZ3Theory)).map (·.name)) = true
        then Except.ok true else List.anyM _ names) = _
      rw [if_neg (by simpa only [decide_eq_true_eq, not_not] using hmem.2 hz)]
      exact hrun
    · refine ⟨true, ?_, by simp [hz]⟩
      simp [hmem, hz, bind, Except.bind, pure, Except.pure]

/-- `cycle_not_contained_in_z3` of freshly computed cycles tells whether a table on a cycle belongs to
a policy that is not for Z3; they can be computed if every edge leads to a node. -/
theorem cycleNotContainedInZ3_exact (theories : List TheoryClass) (g : Graph String L)
    (hfresh : g.cycles = none) (hq : ∀ v ∈ g.nodes, (parseServiceTable v).service ≠ none) :
    ((∃ cs, g.cyclesList.2 = .ok cs) ↔ ∀ v w, g.Edge v w → w ∈ g.nodes)
      ∧ ∀ cs, g.cyclesList.2 = .ok cs → ∃ answer, cycleNotContainedInZ3 theories cs = .ok answer
        ∧ (answer = true ↔ ∃ table policy, TransGen g.Edge table table
          ∧ (parseServiceTable table).service = some policy ∧ ¬ IsZ3Policy theories policy) := by
  obtain ⟨hok, hspec⟩ := Graph.cyclesList_spec hfresh
  refine ⟨hok, fun cs hcs => ?_⟩
  obtain ⟨answer, hrun, hanswer⟩ := cycleNotContainedInZ3_eq theories cs fun v hv => by
    obtain ⟨w, hw, -⟩ := TransGen.head'_iff.1 ((hspec cs hcs v).1 hv)
    exact hq v hw.mem_nodes
  refine ⟨answer, hrun, hanswer.trans ?_⟩
  simp only [hspec cs hcs, exists_and_left]

/-- Two overlapping cycles, one of them through a table of another policy. -/
def overlapping : Graph String Bool :=
  (((Graph.empty.addEdge "z:p" "z:q" false).addEdge "z:q" "z:p" false).addEdge "z:q" "t:r" true).addEdge
    "t:r" "z:q" false

theorem cycleNotContainedInZ3_exact_overlapping :
    ∃ cs, overlapping.cyclesList.2 = .ok cs ∧ cycleNotContainedInZ3 [⟨"z", true⟩, ⟨"t", false⟩] cs
      = .ok true := by
  obtain ⟨hok, hspec⟩ := cycleNotContainedInZ3_exact [⟨"z", true⟩, ⟨"t", false⟩] overlapping rfl
    (by decide +kernel)
  obtain ⟨cs, hcs⟩ : ∃ cs, overlapping.cyclesList.2 = .ok cs := by
    refine hok.2 fun v w hw => ?_
    have hedges : ∀ v ∈ overlapping.nodes, ∀ w ∈ (overlapping.out v).map Prod.fst,
        w ∈ overlapping.nodes := by decide +kernel
    exact hedges v hw.mem_nodes w hw
  obtain ⟨answer, hrun, hanswer⟩ := hspec cs hcs
  refine ⟨cs, hcs, hrun.trans (congrArg Except.ok (hanswer.2 ⟨"t:r", "t", ?_, by decide +kernel, ?_⟩))⟩
  · exact .head (show overlapping.Edge "t:r" "z:q" by decide +kernel)
      (.single (show overlapping.Edge "z:q" "t:r" by decide +kernel))
  · simp [IsZ3Policy]

end Congress
