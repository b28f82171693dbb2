import Congress.FactSet
import Congress.Lib.Run

/-!
# Indices agree with scanning

As long as all facts have one width and all columns are within it, every index of a fact set has the facts
under their keys, in the order in which they were added (`Indexed.step`). So `find` returns what going
through all facts returns (`Indexed.find_eq`).
-/

namespace Congress

open Lib Stateful

set_option linter.unusedSectionVars false

variable {V K : Type} [DecidableEq K] {nat : Natives V K} {f f' : Fact V} {fs : List (Fact V)}
  {columns : List ℕ} {k k' : List K} {n : ℕ}

theorem Fact.same_iff : f.same nat f' = true
    ↔ f.table = f'.table ∧ f.values.map nat.native = f'.values.map nat.native := by
  simp [Fact.same]

theorem Fact.same_refl (f : Fact V) : f.same nat f = true := Fact.same_iff.2 ⟨rfl, rfl⟩

theorem Fact.same_comm : f.same nat f' = f'.same nat f := by
  simp only [Fact.same, eq_comm]

namespace FactSet

variable (nat)

/-- The fact has the values in the columns. -/
def hasKey (columns : List ℕ) (k : List K) (f : Fact V) : Bool :=
  columns.map (fun i => f.values[i]?.map nat.native) = k.map some

variable {nat}

theorem hasKey_iff : hasKey nat columns k f = true
    ↔ columns.map (fun i => f.values[i]?.map nat.native) = k.map some := by
  simp [hasKey]

theorem hasKey_unique (h : hasKey nat columns k f = true) (h' : hasKey nat columns k' f = true) : k = k' :=
  List.map_injective_iff.2 (Option.some_injective K) ((hasKey_iff.1 h).symm.trans (hasKey_iff.1 h'))

theorem hasKey_congr (h : f.same nat f' = true) : hasKey nat columns k f = hasKey nat columns k f' := by
  have hvalues : ∀ i : ℕ, f.values[i]?.map nat.native = f'.values[i]?.map nat.native := fun i => by
    rw [← List.getElem?_map, ← List.getElem?_map, (Fact.same_iff.1 h).2]
  simp only [hasKey, hvalues]

variable (nat) in
theorem computeKey_ok : ∀ {columns : List ℕ}, (∀ i ∈ columns, i < f.values.length) →
    ∃ k, computeKey nat f columns = .ok k ∧ hasKey nat columns k f = true
  | [], _ => ⟨[], rfl, by simp [hasKey]⟩
  | i :: columns, h => by
    obtain ⟨hi, h⟩ := List.forall_mem_cons.1 h
    obtain ⟨k, hk, hkey⟩ := computeKey_ok h
    refine ⟨nat.native f.values[i] :: k, ?_, ?_⟩
    · simp only [computeKey, List.getElem?_eq_getElem hi, hk]
      rfl
    · rw [hasKey_iff] at hkey ⊢
      rw [List.map_cons, List.map_cons, hkey, List.getElem?_eq_getElem hi, Option.map_some]

theorem matchesFact_eq : ∀ {partialFact : List (ℕ × V)}, (∀ p ∈ partialFact, p.1 < f.values.length) →
    matchesFact nat f partialFact
      = .ok (hasKey nat (partialFact.map Prod.fst) (partialFact.map fun p => nat.native p.2) f)
  | [], _ => by simp [matchesFact, hasKey]
  | (i, v) :: partialFact, h => by
    obtain ⟨hi, h⟩ := List.forall_mem_cons.1 h
    simp only [matchesFact, List.getElem?_eq_getElem hi]
    split_ifs with heq
    · rw [matchesFact_eq h]
      simp [hasKey, List.getElem?_eq_getElem hi, heq]
    · simp [hasKey, List.getElem?_eq_getElem hi, heq]

theorem scan_eq {partialFact : List (ℕ × V)} : ∀ {fs : List (Fact V)},
    (∀ f ∈ fs, ∀ p ∈ partialFact, p.1 < f.values.length) → scan nat partialFact fs
      = .ok (fs.filter (hasKey nat (partialFact.map Prod.fst) (partialFact.map fun p => nat.native p.2)))
  | [], _ => rfl
  | f :: fs, h => by
    obtain ⟨hf, h⟩ := List.forall_mem_cons.1 h
    simp only [scan, matchesFact_eq hf, scan_eq h, bind, Except.bind, pure, Except.pure, List.filter_cons]

/-! ## One index -/

variable (nat)

/-- The index has the facts under their keys. -/
def IndexOf (fs : List (Fact V)) (columns : List ℕ) (index : AList fun _ : List K => List (Fact V)) : Prop :=
  ∀ k, (index.lookup k).getD [] = fs.filter (hasKey nat columns k)

variable {nat} {index : AList fun _ : List K => List (Fact V)} {s : FactSet V K}

theorem indexOf_empty (columns : List ℕ) : IndexOf nat [] columns ∅ := fun k => by simp

theorem filter_any_false (h : fs.any (f.same nat) = false) (p : Fact V → Bool) :
    (fs.filter p).any (f.same nat) = false := by
  rw [List.any_eq_false] at h ⊢
  exact fun g hg => h g (List.mem_of_mem_filter hg)

theorem IndexOf.add (h : IndexOf nat fs columns index) (hk : hasKey nat columns k f = true)
    (hnew : fs.any (f.same nat) = false) :
    IndexOf nat (fs ++ [f]) columns (index.insert k
      (if ((index.lookup k).getD []).any (f.same nat) then (index.lookup k).getD []
        else (index.lookup k).getD [] ++ [f])) := by
  intro k'
  rw [h k, filter_any_false hnew, if_neg Bool.false_ne_true, List.filter_append]
  by_cases hkk : k' = k
  · subst hkk
    rw [AList.lookup_insert, Option.getD_some, List.filter_singleton, hk]
    rfl
  · rw [AList.lookup_insert_ne hkk, h k', List.filter_singleton,
      Bool.eq_false_iff.2 fun hk' => hkk (hasKey_unique hk' hk)]
    simp

theorem filter_eraseP {α : Type} {p q : α → Bool} (h : ∀ a, p a = true → q a = true) : ∀ (l : List α),
    (l.eraseP p).filter q = (l.filter q).eraseP p
  | [] => rfl
  | a :: l => by
    rcases hp : p a with _ | _
    · rw [List.eraseP_cons_of_neg (by simp [hp]), List.filter_cons, List.filter_cons, filter_eraseP h l]
      split_ifs
      · rw [List.eraseP_cons_of_neg (by simp [hp])]
      · rfl
    · rw [List.eraseP_cons_of_pos hp, List.filter_cons, if_pos (h a hp), List.eraseP_cons_of_pos hp]

theorem filter_eraseP_of_disjoint {α : Type} {p q : α → Bool} (h : ∀ a, p a = true → q a = false) :
    ∀ (l : List α), (l.eraseP p).filter q = l.filter q
  | [] => rfl
  | a :: l => by
    rcases hp : p a with _ | _
    · rw [List.eraseP_cons_of_neg (by simp [hp]), List.filter_cons, List.filter_cons,
        filter_eraseP_of_disjoint h l]
    · rw [List.eraseP_cons_of_pos hp, List.filter_cons, h a hp, if_neg Bool.false_ne_true]

theorem IndexOf.remove (h : IndexOf nat fs columns index) (hk : hasKey nat columns k f = true)
    (hold : fs.any (f.same nat) = true) : ∃ gs, index.lookup k = some gs ∧ gs.any (f.same nat) = true
      ∧ IndexOf nat (fs.eraseP (f.same nat)) columns
        (if (gs.eraseP (f.same nat)).isEmpty then index.erase k
          else index.insert k (gs.eraseP (f.same nat))) := by
  have hkeys : ∀ g, f.same nat g = true → hasKey nat columns k g = true := fun g hg =>
    (hasKey_congr hg).symm.trans hk
  have hany : ((index.lookup k).getD []).any (f.same nat) = true := by
    obtain ⟨g, hg, hsame⟩ := List.any_eq_true.1 hold
    rw [h k]
    exact List.any_eq_true.2 ⟨g, List.mem_filter.2 ⟨hg, hkeys g hsame⟩, hsame⟩
  rcases hlook : index.lookup k with _ | gs
  · rw [hlook] at hany
    exact absurd hany (by simp)
  have hgs : gs = fs.filter (hasKey nat columns k) := by
    rw [← h k, hlook]
    rfl
  rw [hlook] at hany
  refine ⟨gs, rfl, hany, fun k' => ?_⟩
  by_cases hkk : k' = k
  · subst hkk
    rw [filter_eraseP hkeys, ← hgs]
    split_ifs with hempty
    · rw [AList.lookup_erase, List.isEmpty_iff.1 hempty]
      rfl
    · rw [AList.lookup_insert]
      rfl
  · have hother : ∀ g, f.same nat g = true → hasKey nat columns k' g = false := fun g hg =>
      Bool.eq_false_iff.2 fun hk' => hkk (hasKey_unique hk' (hkeys g hg))
    rw [filter_eraseP_of_disjoint hother, ← h k']
    split_ifs
    · rw [AList.lookup_erase_ne hkk]
    · rw [AList.lookup_insert_ne hkk]

/-! ## All indices -/

/-- The call does not raise, and all it does is to turn the index on the columns into one that `Q` holds of. -/
def Turns (Q : (AList fun _ : List K => List (Fact V)) → Prop) (columns : List ℕ) (x : Run V K Unit)
    (s : FactSet V K) : Prop :=
  ∃ s', x.run s = (.ok (), s') ∧ s'.facts = s.facts
    ∧ (∃ index, s'.indicies.lookup columns = some index ∧ Q index)
    ∧ ∀ columns' ≠ columns, s'.indicies.lookup columns' = s.indicies.lookup columns'

/-- Putting an index in is such a call. -/
theorem turns_insert {Q : (AList fun _ : List K => List (Fact V)) → Prop} {x : Run V K Unit}
    (hx : x.run s = (.ok (), { s with indicies := s.indicies.insert columns index })) (hq : Q index) :
    Turns Q columns x s :=
  ⟨_, hx, rfl, ⟨index, AList.lookup_insert _, hq⟩, fun _ hne => AList.lookup_insert_ne hne⟩

theorem addFactToIndex_turns (hcolumns : ∀ i ∈ columns, i < f.values.length)
    (hnew : fs.any (f.same nat) = false)
    (h : IndexOf nat fs columns ((s.indicies.lookup columns).getD ∅)) :
    Turns (IndexOf nat (fs ++ [f]) columns) columns (addFactToIndex nat f columns) s := by
  obtain ⟨k, hcompute, hk⟩ := computeKey_ok nat hcolumns
  refine turns_insert ?_ (h.add hk hnew)
  by_cases hmem : columns ∈ s.indicies
  · simp only [addFactToIndex, run_get_bind, if_neg (not_not.2 hmem), hcompute, run_lift_ok_bind,
      run_modify]
  · simp only [addFactToIndex, run_get_bind, if_pos hmem, run_modify_bind, hcompute, run_lift_ok_bind,
      run_modify, AList.lookup_insert, AList.lookup_eq_none.2 hmem, AList.insert_insert, Option.getD_some,
      Option.getD_none]

theorem removeFactFromIndex_turns (hcolumns : ∀ i ∈ columns, i < f.values.length)
    (hold : fs.any (f.same nat) = true) (hlook : s.indicies.lookup columns = some index)
    (h : IndexOf nat fs columns index) :
    Turns (IndexOf nat (fs.eraseP (f.same nat)) columns) columns (removeFactFromIndex nat f columns) s := by
  obtain ⟨k, hcompute, hk⟩ := computeKey_ok nat hcolumns
  obtain ⟨gs, hgs, hany, hrest⟩ := h.remove hk hold
  refine turns_insert ?_ hrest
  simp only [removeFactFromIndex, run_get_bind, hcompute, run_lift_ok_bind, hlook, hgs, Option.bind_some,
    Option.map_some, hany, if_true, run_modify]

/-- The loop over the indices turns each of them. -/
theorem each_turns {P Q : List ℕ → (AList fun _ : List K => List (Fact V)) → Prop}
    {body : List ℕ → Run V K Unit}
    (hbody : ∀ columns s index, s.indicies.lookup columns = some index → P columns index →
      Turns (Q columns) columns (body columns) s) : ∀ (keys : List (List ℕ)) {s : FactSet V K}, keys.Nodup →
    (∀ columns ∈ keys, ∃ index, s.indicies.lookup columns = some index ∧ P columns index) →
    ∃ s', (each body keys).run s = (.ok (), s') ∧ s'.facts = s.facts
      ∧ (∀ columns ∈ keys, ∃ index, s'.indicies.lookup columns = some index ∧ Q columns index)
      ∧ ∀ columns ∉ keys, s'.indicies.lookup columns = s.indicies.lookup columns
  | [], s, _, _ => ⟨s, rfl, rfl, by simp, fun _ _ => rfl⟩
  | columns :: keys, s, hnodup, h => by
    obtain ⟨hnot, hnodup⟩ := List.nodup_cons.1 hnodup
    obtain ⟨⟨index, hlook, hp⟩, h⟩ := List.forall_mem_cons.1 h
    obtain ⟨s₁, hrun, hfacts, hturned, hothers⟩ := hbody columns s index hlook hp
    obtain ⟨s₂, hrun₂, hfacts₂, hturned₂, hothers₂⟩ := each_turns hbody keys (s := s₁) hnodup
      fun c hc => by
        rw [hothers c fun he => hnot (he ▸ hc)]
        exact h c hc
    refine ⟨s₂, ?_, hfacts₂.trans hfacts, List.forall_mem_cons.2 ⟨?_, hturned₂⟩, fun c hc => ?_⟩
    · rw [each, run_bind, hrun]
      exact hrun₂
    · rw [hothers₂ columns hnot]
      exact hturned
    · obtain ⟨hne, hc⟩ := not_or.1 (List.mem_cons.not.1 hc)
      rw [hothers₂ c hc, hothers c hne]

/-- The loop over the facts that makes an index. -/
theorem each_addFactToIndex : ∀ {fs : List (Fact V)} (before : List (Fact V)) {s : FactSet V K},
    (∀ f ∈ fs, ∀ i ∈ columns, i < f.values.length) →
    (before ++ fs).Pairwise (fun f f' => f.same nat f' = false) →
    IndexOf nat before columns ((s.indicies.lookup columns).getD ∅) →
    ∃ s', (each (fun f => addFactToIndex nat f columns) fs).run s = (.ok (), s') ∧ s'.facts = s.facts
      ∧ IndexOf nat (before ++ fs) columns ((s'.indicies.lookup columns).getD ∅)
      ∧ ∀ columns' ≠ columns, s'.indicies.lookup columns' = s.indicies.lookup columns'
  | [], before, s, _, _, h => ⟨s, rfl, rfl, by rwa [List.append_nil], fun _ _ => rfl⟩
  | f :: fs, before, s, hcolumns, hdistinct, h => by
    obtain ⟨hf, hcolumns⟩ := List.forall_mem_cons.1 hcolumns
    have hnew : before.any (f.same nat) = false := List.any_eq_false.2 fun g hg => by
      rw [Fact.same_comm, (List.pairwise_append.1 hdistinct).2.2 g hg f (List.mem_cons_self ..)]
      exact Bool.false_ne_true
    rw [List.append_cons] at hdistinct ⊢
    obtain ⟨s₁, hrun, hfacts, ⟨index, hlook, hindex⟩, hothers⟩ := addFactToIndex_turns hf hnew h
    obtain ⟨s₂, hrun₂, hfacts₂, hindex₂, hothers₂⟩ := each_addFactToIndex _ (s := s₁) hcolumns hdistinct
      (by rwa [hlook])
    refine ⟨s₂, ?_, hfacts₂.trans hfacts, hindex₂, fun c hc => (hothers₂ c hc).trans (hothers c hc)⟩
    rw [each, run_bind, hrun]
    exact hrun₂

/-! ## Operations -/

variable (nat)

/-- All facts have the width, all columns are within it, and the indices have the facts under their keys. -/
structure Indexed (n : ℕ) (s : FactSet V K) : Prop where
  distinct : s.facts.Pairwise fun f f' => f.same nat f' = false
  width : ∀ f ∈ s.facts, f.values.length = n
  columns : ∀ columns ∈ s.indicies, ∀ i ∈ columns, i < n
  index : ∀ columns index, s.indicies.lookup columns = some index → IndexOf nat s.facts columns index

variable {nat}

variable (nat) in
theorem indexed_empty (n : ℕ) : Indexed nat n (.empty : FactSet V K) where
  distinct := .nil
  width := by simp [empty]
  columns := by simp [empty]
  index := by simp [empty]

theorem mem_of_lookup {α β : Type} [DecidableEq α] {a a' : AList fun _ : α => β} {k : α}
    (h : a'.lookup k = a.lookup k) : k ∈ a' ↔ k ∈ a := by
  rw [← AList.lookup_isSome, ← AList.lookup_isSome, h]

/-- What the loops over the indices and over the facts make of an indexed set. -/
theorem Indexed.of_turned {s' : FactSet V K} (h : Indexed nat n s)
    (hdistinct : fs.Pairwise fun f f' => f.same nat f' = false) (hwidth : ∀ f ∈ fs, f.values.length = n)
    (hfacts : s'.facts = fs)
    (hturned : ∀ columns ∈ s.indicies.keys,
      ∃ index, s'.indicies.lookup columns = some index ∧ IndexOf nat fs columns index)
    (hothers : ∀ columns ∉ s.indicies.keys, s'.indicies.lookup columns = s.indicies.lookup columns) :
    Indexed nat n s' := by
  have hnew : ∀ columns index, s'.indicies.lookup columns = some index → columns ∈ s.indicies := by
    intro columns index hlook
    by_contra hc
    rw [hothers columns hc, AList.lookup_eq_none.2 hc] at hlook
    cases hlook
  subst hfacts
  refine ⟨hdistinct, hwidth, fun columns hc => ?_, fun columns index hlook => ?_⟩
  · obtain ⟨index, hlook⟩ := Option.isSome_iff_exists.1 (AList.lookup_isSome.2 hc)
    exact h.columns columns (hnew columns index hlook)
  · obtain ⟨index', hlook', hindex⟩ := hturned columns (hnew columns index hlook)
    rwa [Option.some.inj (hlook.symm.trans hlook')]

/-- `add` of a fact of the width. -/
theorem Indexed.add (h : Indexed nat n s) (hf : f.values.length = n) : ∃ s',
    (FactSet.add nat f).run s = (.ok (!s.facts.any (f.same nat)), s') ∧ Indexed nat n s'
      ∧ s'.facts = if s.facts.any (f.same nat) then s.facts else s.facts ++ [f] := by
  rcases hany : s.facts.any (f.same nat) with _ | _
  · obtain ⟨s', hrun, hfacts, hturned, hothers⟩ := each_turns
      (P := fun columns index => (∀ i ∈ columns, i < n) ∧ IndexOf nat s.facts columns index)
      (Q := IndexOf nat (s.facts ++ [f]))
      (fun columns t index hlook hp => addFactToIndex_turns (hf ▸ hp.1) hany (by
        rw [hlook]
        exact hp.2)) s.indicies.keys (s := { s with facts := s.facts ++ [f] }) s.indicies.nodupKeys
      fun columns hc => by
        obtain ⟨index, hlook⟩ := Option.isSome_iff_exists.1 (AList.lookup_isSome.2 hc)
        exact ⟨index, hlook, h.columns columns hc, h.index columns index hlook⟩
    refine ⟨s', ?_, h.of_turned ?_ ?_ hfacts hturned hothers, hfacts⟩
    · rw [FactSet.add, run_get_bind, hany, if_neg Bool.false_ne_true, run_modify_bind, run_bind, run_catching,
        hrun]
      rfl
    · refine List.pairwise_append.2 ⟨h.distinct, List.pairwise_singleton .., fun g hg f' hf' => ?_⟩
      rw [List.mem_singleton.1 hf', Fact.same_comm]
      exact Bool.eq_false_iff.2 fun hsame => List.any_eq_false.1 hany g hg hsame
    · exact List.forall_mem_append.2 ⟨h.width, by simpa using hf⟩
  · refine ⟨s, ?_, h, rfl⟩
    rw [FactSet.add, run_get_bind, hany]
    rfl

/-- `remove`. -/
theorem Indexed.remove (h : Indexed nat n s) (f : Fact V) : ∃ s',
    (FactSet.remove nat f).run s = (.ok (s.facts.any (f.same nat)), s') ∧ Indexed nat n s'
      ∧ s'.facts = s.facts.eraseP (f.same nat) := by
  rcases hany : s.facts.any (f.same nat) with _ | _
  · refine ⟨s, ?_, h, (List.eraseP_of_forall_not (List.any_eq_false.1 hany)).symm⟩
    rw [FactSet.remove, run_get_bind, hany]
    rfl
  · obtain ⟨g, hg, hsame⟩ := List.any_eq_true.1 hany
    have hlength := congrArg List.length (Fact.same_iff.1 hsame).2
    rw [List.length_map, List.length_map, h.width g hg] at hlength
    obtain ⟨s', hrun, hfacts, hturned, hothers⟩ := each_turns
      (P := fun columns index => (∀ i ∈ columns, i < n) ∧ IndexOf nat s.facts columns index)
      (Q := IndexOf nat (s.facts.eraseP (f.same nat)))
      (fun columns t index hlook hp => removeFactFromIndex_turns (hlength ▸ hp.1) hany hlook hp.2)
      s.indicies.keys (s := { s with facts := s.facts.eraseP (f.same nat) }) s.indicies.nodupKeys
      fun columns hc => by
        obtain ⟨index, hlook⟩ := Option.isSome_iff_exists.1 (AList.lookup_isSome.2 hc)
        exact ⟨index, hlook, h.columns columns hc, h.index columns index hlook⟩
    refine ⟨s', ?_, h.of_turned (h.distinct.sublist List.eraseP_sublist)
      (fun g hg => h.width g (List.mem_of_mem_eraseP hg)) hfacts hturned hothers, hfacts⟩
    rw [FactSet.remove, run_get_bind, hany, if_pos rfl, run_modify_bind, run_bind, run_catching, hrun]
    rfl

/-- `create_index` on columns within the width, which raises only if they are not sorted, or none. -/
theorem Indexed.createIndex (h : Indexed nat n s) (hcolumns : ∀ i ∈ columns, i < n) :
    Indexed nat n ((FactSet.createIndex nat columns).run s).2
      ∧ ((FactSet.createIndex nat columns).run s).2.facts = s.facts
      ∧ (columns.Pairwise (· ≤ ·) → columns ≠ [] →
        ((FactSet.createIndex nat columns).run s).1 = .ok ()) := by
  unfold FactSet.createIndex
  split_ifs with hsorted
  · exact ⟨h, rfl, fun hpair hne => absurd hsorted (by simp [hpair, hne])⟩
  rw [run_get_bind]
  split_ifs with hmem
  · exact ⟨h, rfl, fun _ _ => rfl⟩
  obtain ⟨s', hrun, hfacts, hindex, hothers⟩ := each_addFactToIndex (s := s) []
    (fun f hf => (h.width f hf).symm ▸ hcolumns) h.distinct
    (by
      rw [AList.lookup_eq_none.2 hmem]
      exact indexOf_empty columns)
  rw [hrun]
  refine ⟨⟨by rw [hfacts]; exact h.distinct, by rw [hfacts]; exact h.width, fun c hc => ?_,
    fun c index hlook => ?_⟩, hfacts, fun _ _ => rfl⟩
  · by_cases he : c = columns
    · rw [he]
      exact hcolumns
    · exact h.columns c ((mem_of_lookup (hothers c he)).1 hc)
  · rw [hfacts]
    by_cases he : c = columns
    · subst he
      rw [hlook] at hindex
      exact hindex
    · exact h.index c index (by rw [← hothers c he, hlook])

theorem Indexed.removeIndex (h : Indexed nat n s) (columns : List ℕ) :
    Indexed nat n ((FactSet.removeIndex columns).run s).2
      ∧ ((FactSet.removeIndex columns).run s).2.facts = s.facts := by
  unfold FactSet.removeIndex
  split_ifs
  · exact ⟨h, rfl⟩
  · rw [run_modify]
    refine ⟨⟨h.distinct, h.width, fun c hc => h.columns c (AList.mem_erase.1 hc).2,
      fun c index hlook => ?_⟩, rfl⟩
    have hne : c ≠ columns := (AList.mem_erase.1 (AList.lookup_isSome.1 (by rw [hlook]; rfl))).1
    rw [AList.lookup_erase_ne hne] at hlook
    exact h.index c index hlook

/-- An index gives what going through all facts gives. -/
theorem Indexed.find_eq (h : Indexed nat n s) (partialFact : List (ℕ × V)) :
    s.find nat partialFact = scan nat partialFact s.facts := by
  rcases hlook : s.indicies.lookup (partialFact.map Prod.fst) with _ | index
  · rw [find, hlook]
  · have hcolumns := h.columns _ (AList.lookup_isSome.1 (by rw [hlook]; rfl))
    rw [find, hlook, scan_eq fun f hf p hp => (h.width f hf).symm ▸ hcolumns _ (List.mem_map_of_mem hp),
      ← h.index _ _ hlook]

end FactSet

/-- The operations on a fact set. -/
inductive FactSetOp (V : Type)
  | add (f : Fact V)
  | remove (f : Fact V)
  | createIndex (columns : List ℕ)
  | removeIndex (columns : List ℕ)

namespace FactSetOp

/-- A fact that is added has the width, and columns are within it. -/
def Within (n : ℕ) : FactSetOp V → Prop
  | .add f => f.values.length = n
  | .remove _ => True
  | .createIndex columns => ∀ i ∈ columns, i < n
  | .removeIndex columns => ∀ i ∈ columns, i < n

variable (nat)

/-- The fact set after the operation, which may raise. -/
def apply (s : FactSet V K) : FactSetOp V → FactSet V K
  | .add f => ((FactSet.add nat f).run s).2
  | .remove f => ((FactSet.remove nat f).run s).2
  | .createIndex columns => ((FactSet.createIndex nat columns).run s).2
  | .removeIndex columns => ((FactSet.removeIndex columns).run s).2

/-- The facts after the operation. -/
def applyFacts (fs : List (Fact V)) : FactSetOp V → List (Fact V)
  | .add f => if fs.any (f.same nat) then fs else fs ++ [f]
  | .remove f => fs.eraseP (f.same nat)
  | .createIndex _ => fs
  | .removeIndex _ => fs

end FactSetOp

namespace FactSet

variable {s : FactSet V K}

theorem Indexed.step {op : FactSetOp V} (h : Indexed nat n s) (hop : op.Within n) :
    Indexed nat n (op.apply nat s) ∧ (op.apply nat s).facts = op.applyFacts nat s.facts := by
  cases op with
  | add f =>
    obtain ⟨s', hrun, hs', hfacts⟩ := h.add hop
    rw [FactSetOp.apply, hrun]
    exact ⟨hs', hfacts⟩
  | remove f =>
    obtain ⟨s', hrun, hs', hfacts⟩ := h.remove f
    rw [FactSetOp.apply, hrun]
    exact ⟨hs', hfacts⟩
  | createIndex columns => exact ⟨(h.createIndex hop).1, (h.createIndex hop).2.1⟩
  | removeIndex columns => exact h.removeIndex columns

theorem Indexed.run : ∀ {ops : List (FactSetOp V)} {s : FactSet V K}, Indexed nat n s →
    (∀ op ∈ ops, op.Within n) → Indexed nat n (Lib.run (FactSetOp.apply nat) s ops)
      ∧ (Lib.run (FactSetOp.apply nat) s ops).facts = ops.foldl (FactSetOp.applyFacts nat) s.facts
  | [], _, h, _ => ⟨h, rfl⟩
  | op :: ops, s, h, hops => by
    obtain ⟨hop, hops⟩ := List.forall_mem_cons.1 hops
    obtain ⟨hs, hfacts⟩ := h.step hop
    obtain ⟨hlast, hrest⟩ := Indexed.run hs hops
    rw [hfacts] at hrest
    exact ⟨hlast, hrest⟩

end FactSet

/-! ## Rule sets -/

variable [DecidableEq V] {l : Literal V} {key : String}

theorem map_fst_sublist {α : Type} {g : α × ℕ → Option (ℕ × V)} (hg : ∀ a p, g a = some p → p.1 = a.2) :
    ∀ as : List (α × ℕ), ((as.filterMap g).map Prod.fst).Sublist (as.map Prod.snd)
  | [] => .slnil
  | a :: as => by
    rcases h : g a with _ | p
    · rw [List.filterMap_cons_none h]
      exact (map_fst_sublist hg as).cons _
    · rw [List.filterMap_cons_some h, List.map_cons, List.map_cons, hg a p h]
      exact (map_fst_sublist hg as).cons_cons _

theorem partialFact_sorted (l : Literal V) : ((RuleSet.partialFact l).map Prod.fst).Pairwise (· ≤ ·) := by
  refine List.Pairwise.sublist (map_fst_sublist ?_ _) ?_
  · rintro ⟨t, i⟩ p h
    rcases t with x | v
    · cases h
    · cases h
      rfl
  · rw [List.zipIdx_map_snd]
    exact List.pairwise_le_range'

theorem biUnifyLoop_objects : ∀ {ts : List (Value V × Value V)} {h : Bindings V}
    {changes : List (ℕ × String)}, (h.biUnifyLoop ts changes).2.isSome = true → ∀ c c',
    (.object c, .object c') ∈ ts → c = c'
  | [], _, _, _, _, _, hmem => by cases hmem
  | (t, t') :: ts, h, changes, hsome, c, c', hmem => by
    rw [Bindings.biUnifyLoop] at hsome
    rcases List.mem_cons.1 hmem with heq | hmem
    · obtain ⟨rfl, rfl⟩ := Prod.mk.inj heq
      by_contra hne
      simp [Bindings.applyFull, Bindings.applyFuel, Bindings.biUnifyValues, hne] at hsome
    · split at hsome
      · cases hsome
      · exact biUnifyLoop_objects hsome c c' hmem
      · exact biUnifyLoop_objects hsome c c' hmem

/-- A fact whose rule unifies with a literal has its constants. -/
theorem hasKey_of_unifies {h : Bindings V} {u u' : ℕ} {theoryname : Option String} {f : Fact V}
    (hunify : (h.biUnifyAtoms (factRule key f.values).head u l u' theoryname).2.isSome = true) :
    FactSet.hasKey nat ((RuleSet.partialFact l).map Prod.fst)
      ((RuleSet.partialFact l).map fun p => nat.native p.2) f = true := by
  rw [FactSet.hasKey_iff, List.map_map, List.map_map, List.map_inj_left]
  rintro ⟨i, v⟩ hp
  have hv := RuleSet.mem_partialFact.1 hp
  unfold Bindings.biUnifyAtoms Bindings.biUnifyLists at hunify
  split_ifs at hunify with hschema hne
  · cases hunify
  rotate_left
  · cases hunify
  obtain ⟨hi, hv⟩ := List.getElem?_eq_some_iff.1 hv
  have hlength : f.values.length = l.arguments.length := by
    rw [← not_not.1 hne, factRule, List.length_map]
  have hpair : (Value.object f.values[i], Value.object v)
      ∈ ((factRule key f.values).head.arguments.map (·.within u)).zip (l.arguments.map (·.within u')) := by
    refine List.mem_iff_getElem.2 ⟨i, ?_, ?_⟩
    · simpa [factRule, hlength] using hi
    · rw [List.getElem_zip, List.getElem_map, List.getElem_map, hv]
      simp only [factRule, List.getElem_map]
      rfl
  have heq := biUnifyLoop_objects hunify _ _ hpair
  simp only [Function.comp_apply, List.getElem?_eq_getElem (hlength ▸ hi : i < f.values.length), heq,
    Option.map_some]

/-- Calls on a rule set. -/
inductive RuleSetOp (V : Type)
  | addRule (key : String) (item : Stored V)
  | discardRule (key : String) (item : Stored V)
  | clearTable (key : String)
  | clear
  | getRules (key : String) (l : Literal V)


/-- What is kept as a fact has the width. -/
def Stored.Within (n : ℕ) : Stored V → Prop
  | .fact f => f.values.length = n
  | .rule r => r.body = [] → r.head.negated = false → r.head.arguments.length = n

namespace RuleSetOp

/-- Facts have the width of their table, and literals have their constants within it. -/
def Within (width : String → ℕ) : RuleSetOp V → Prop
  | .addRule key item => item.Within (width key)
  | .getRules key l => ∀ p ∈ RuleSet.partialFact l, p.1 < width key
  | _ => True

variable (nat)

/-- The rule set after the call, which may raise. -/
def apply (s : IndexedRuleSet V K) : RuleSetOp V → IndexedRuleSet V K
  | .addRule key item => ((IndexedRuleSet.addRule nat key item).run s).2
  | .discardRule key item => ((IndexedRuleSet.discardRule nat key item).run s).2
  | .clearTable key => s.clearTable key
  | .clear => .empty
  | .getRules key l => ((IndexedRuleSet.getRules nat key l).run s).2

end RuleSetOp

namespace IndexedRuleSet

variable {s : IndexedRuleSet V K} {width : String → ℕ} {k : String}

variable (nat) in
/-- The facts of each table have its width, and their indices are right. -/
def Indexed (width : String → ℕ) (s : IndexedRuleSet V K) : Prop :=
  ∀ key, (s.factsOf key).Indexed nat (width key)

theorem factsOf_insert {fs : FactSet V K} {rules : AList fun _ : String => List (Rule V)} :
    factsOf ⟨rules, s.facts.insert key fs⟩ k = if k = key then fs else s.factsOf k := by
  unfold factsOf
  split_ifs with hk
  · rw [hk, AList.lookup_insert]
    rfl
  · rw [AList.lookup_insert_ne hk]

theorem factsOf_erase {rules : AList fun _ : String => List (Rule V)} :
    factsOf ⟨rules, s.facts.erase key⟩ k = if k = key then .empty else s.factsOf k := by
  unfold factsOf
  split_ifs with hk
  · rw [hk, AList.lookup_erase]
    rfl
  · rw [AList.lookup_erase_ne hk]

theorem factsOf_of_notMem (h : key ∉ s.facts) : s.factsOf key = .empty := by
  rw [factsOf, AList.lookup_eq_none.2 h]
  rfl

theorem run_onFacts {α : Type} (x : FactSet.Run V K α) : (onFacts key x).run s
    = ((x.run (s.factsOf key)).1, { s with facts := s.facts.insert key (x.run (s.factsOf key)).2 }) := rfl

variable (nat key s) in
/-- Adding a fact is adding it to the facts of the table. -/
theorem addFact_run (f : Fact V) : ((addFact nat key f).run s).1 = ((FactSet.add nat f).run (s.factsOf key)).1
    ∧ ((addFact nat key f).run s).2
      = { s with facts := s.facts.insert key ((FactSet.add nat f).run (s.factsOf key)).2 } := by
  unfold addFact
  rw [run_modify_bind, run_onFacts]
  split_ifs with hmem
  · exact ⟨rfl, rfl⟩
  · rw [factsOf_insert, if_pos rfl, factsOf_of_notMem hmem, AList.insert_insert]
    exact ⟨rfl, rfl⟩

theorem Indexed.insert {fs : FactSet V K} (h : Indexed nat width s) (hfs : fs.Indexed nat (width key))
    (rules : AList fun _ : String => List (Rule V)) : Indexed nat width ⟨rules, s.facts.insert key fs⟩ := by
  intro k
  rw [factsOf_insert]
  split_ifs with hk
  · rw [hk]
    exact hfs
  · exact h k

theorem Indexed.erase (h : Indexed nat width s) (key : String) (rules : AList fun _ : String => List (Rule V)) :
    Indexed nat width ⟨rules, s.facts.erase key⟩ := by
  intro k
  rw [factsOf_erase]
  split_ifs with hk
  · exact FactSet.indexed_empty nat _
  · exact h k

theorem Indexed.addFact {f : Fact V} (h : Indexed nat width s) (hf : f.values.length = width key) :
    Indexed nat width ((IndexedRuleSet.addFact nat key f).run s).2 := by
  obtain ⟨s', hrun, hs', -⟩ := (h key).add hf
  rw [(addFact_run nat key s f).2, hrun]
  exact h.insert hs' _

theorem Indexed.discardFact (h : Indexed nat width s) (f : Fact V) :
    Indexed nat width ((IndexedRuleSet.discardFact nat key f).run s).2 := by
  unfold IndexedRuleSet.discardFact
  rw [run_get_bind]
  split_ifs with hmem
  · obtain ⟨s', hrun, hs', -⟩ := (h key).remove f
    rw [run_bind, run_onFacts, hrun]
    show Indexed nat width (if _ then _ else _)
    split_ifs
    · exact (h.insert hs' s.rules).erase key s.rules
    · exact h.insert hs' _
  · exact h

theorem Indexed.ensureIndex (h : Indexed nat width s) (hcolumns : ∀ i ∈ columns, i < width key)
    (hsorted : columns.Pairwise (· ≤ ·)) : ∃ s', (IndexedRuleSet.ensureIndex nat key columns).run s = (.ok (), s')
      ∧ Indexed nat width s' ∧ (s'.factsOf key).facts = (s.factsOf key).facts ∧ s'.rules = s.rules := by
  unfold IndexedRuleSet.ensureIndex
  rw [run_get_bind]
  split_ifs with hmake
  · obtain ⟨hindexed, hfacts, hok⟩ := (h key).createIndex hcolumns
    have hne : columns ≠ [] := fun he => by simp [he] at hmake
    rw [run_onFacts, hok hsorted hne]
    exact ⟨_, rfl, h.insert hindexed _, by rw [factsOf_insert, if_pos rfl, hfacts], rfl⟩
  · exact ⟨s, rfl, h, rfl, rfl⟩

/-- `get_rules` with a literal gives the facts with its constants, and all rules. -/
theorem Indexed.getRules (h : Indexed nat width s) (hl : ∀ p ∈ RuleSet.partialFact l, p.1 < width key) :
    Indexed nat width ((IndexedRuleSet.getRules nat key l).run s).2
      ∧ (l.negated = false → ((IndexedRuleSet.getRules nat key l).run s).1 = .ok
        (((s.factsOf key).facts.filter (FactSet.hasKey nat ((RuleSet.partialFact l).map Prod.fst)
          ((RuleSet.partialFact l).map fun p => nat.native p.2))).map (fun f => factRule key f.values)
          ++ s.rulesOf key)) := by
  unfold IndexedRuleSet.getRules
  rw [run_get_bind]
  split_ifs with hkey
  · obtain ⟨s', hrun, hs', hfacts, hrules⟩ := h.ensureIndex (List.forall_mem_map.2 hl) (partialFact_sorted l)
    have hfind : (s'.factsOf key).find nat (RuleSet.partialFact l) = _ := ((hs' key).find_eq _).trans
      (FactSet.scan_eq fun f hf p hp => ((hs' key).width f hf).symm ▸ hl p hp)
    simp only [run_bind, hrun, run_get, hfind, run_lift, hfacts]
    exact ⟨hs', fun _ => by rw [rulesOf, rulesOf, hrules]; rfl⟩
  · refine ⟨h, fun hpos => ?_⟩
    have hnot : key ∉ s.facts := by simpa [hpos] using hkey
    rw [allRules, factsOf_of_notMem hnot]
    rfl

theorem Indexed.step {op : RuleSetOp V} (h : Indexed nat width s) (hop : op.Within width) :
    Indexed nat width (op.apply nat s) := by
  cases op with
  | addRule key item =>
    rcases item with f | r
    · exact h.addFact hop
    · rw [RuleSetOp.apply, IndexedRuleSet.addRule]
      split_ifs with hfact
      · rw [Bool.and_eq_true, List.isEmpty_iff, Bool.not_eq_true'] at hfact
        exact h.addFact (by simpa [Natives.factValues] using hop hfact.1 hfact.2)
      · rw [run_get_bind]
        dsimp only
        split_ifs
        · exact h
        · exact h
  | discardRule key item =>
    rcases item with f | r
    · exact h.discardFact f
    · rw [RuleSetOp.apply, IndexedRuleSet.discardRule]
      split_ifs
      · exact h.discardFact _
      · rw [run_get_bind]
        split_ifs
        · exact h
        · exact h
  | clearTable key => exact h.insert (FactSet.indexed_empty nat _) _
  | clear => exact fun key => FactSet.indexed_empty nat _
  | getRules key l => exact (h.getRules hop).1

theorem Indexed.run : ∀ {ops : List (RuleSetOp V)} {s : IndexedRuleSet V K}, Indexed nat width s →
    (∀ op ∈ ops, op.Within width) → Indexed nat width (Lib.run (RuleSetOp.apply nat) s ops)
  | [], _, h, _ => h
  | op :: ops, s, h, hops => by
    obtain ⟨hop, hops⟩ := List.forall_mem_cons.1 hops
    have hrest : Indexed nat width (Lib.run (RuleSetOp.apply nat) (op.apply nat s) ops) :=
      (h.step hop).run hops
    exact hrest

end IndexedRuleSet

/-- `find` gives what going through the facts gives, which are those that were added and not removed since;
and `get_rules` with a positive literal gives all rules of the table whose head unifies with it. -/
theorem indexed_lookup (nat : Natives V K) :
    (∀ (n : ℕ) (ops : List (FactSetOp V)), (∀ op ∈ ops, op.Within n) → ∀ partialFact,
      (Lib.run (FactSetOp.apply nat) .empty ops).find nat partialFact
        = FactSet.scan nat partialFact (ops.foldl (FactSetOp.applyFacts nat) [])
      ∧ (Lib.run (FactSetOp.apply nat) .empty ops).facts = ops.foldl (FactSetOp.applyFacts nat) [])
    ∧ ∀ (width : String → ℕ) (ops : List (RuleSetOp V)), (∀ op ∈ ops, op.Within width) →
      ∀ (key : String) (l : Literal V), l.negated = false → l.arguments.length = width key →
      ∃ rules, ((IndexedRuleSet.getRules nat key l).run (Lib.run (RuleSetOp.apply nat) .empty ops)).1
          = .ok rules
        ∧ ∀ r ∈ (Lib.run (RuleSetOp.apply nat) .empty ops).allRules key, ∀ (h : Bindings V) u u' theoryname,
          (h.biUnifyAtoms r.head u l u' theoryname).2.isSome = true → r ∈ rules := by
  refine ⟨fun n ops hops partialFact => ?_, fun width ops hops key l hpos hlength => ?_⟩
  · obtain ⟨hindexed, hfacts⟩ := (FactSet.indexed_empty nat n).run hops
    rw [hindexed.find_eq, hfacts]
    exact ⟨rfl, rfl⟩
  · have hindexed : IndexedRuleSet.Indexed nat width (Lib.run (RuleSetOp.apply nat) .empty ops) :=
      IndexedRuleSet.Indexed.run (fun key => FactSet.indexed_empty nat _) hops
    have hl : ∀ p ∈ RuleSet.partialFact l, p.1 < width key := fun p hp =>
      hlength ▸ (List.getElem?_eq_some_iff.1 (RuleSet.mem_partialFact.1 hp)).1
    refine ⟨_, (hindexed.getRules hl).2 hpos, fun r hr h u u' theoryname hunify => ?_⟩
    rcases List.mem_append.1 hr with hr | hr
    · obtain ⟨f, hf, rfl⟩ := List.mem_map.1 hr
      exact List.mem_append_left _ (List.mem_map.2 ⟨f, List.mem_filter.2 ⟨hf, hasKey_of_unifies hunify⟩, rfl⟩)
    · exact List.mem_append_right _ hr

/-- Two indices while facts are added and removed, and a literal that is looked up twice. -/
theorem indexed_lookup_pairs :
    let nat : Natives ℕ ℕ := ⟨id, String.length⟩
    let ops : List (FactSetOp ℕ) := [.add ⟨"p", [1, 2]⟩, .createIndex [0], .add ⟨"p", [1, 3]⟩,
      .createIndex [0, 1], .remove ⟨"p", [1, 2]⟩, .removeIndex [0, 1]]
    let l : Literal ℕ := ⟨⟨none, "p", none⟩, [.object 1, .variable "x"], false, []⟩
    let calls : List (RuleSetOp ℕ) := [.addRule "p" (.fact ⟨"p", [1, 2]⟩), .getRules "p" l,
      .addRule "p" (.fact ⟨"p", [1, 3]⟩)]
    (Lib.run (FactSetOp.apply nat) .empty ops).find nat [(0, 1)] = .ok [⟨"p", [1, 3]⟩]
      ∧ ∃ rules, ((IndexedRuleSet.getRules nat "p" l).run (Lib.run (RuleSetOp.apply nat) .empty calls)).1
          = .ok rules ∧ factRule "p" [1, 3] ∈ rules := by
  intro nat ops l calls
  refine ⟨(((indexed_lookup nat).1 2 ops (by simp [ops, FactSetOp.Within]) _).1).trans (by decide), ?_⟩
  have hl : ∀ p ∈ RuleSet.partialFact l, p.1 < 2 := by decide
  obtain ⟨rules, hrules, hmem⟩ := (indexed_lookup nat).2 (fun _ => 2) calls
    (List.forall_mem_cons.2 ⟨rfl, List.forall_mem_cons.2 ⟨hl, List.forall_mem_cons.2
      ⟨rfl, List.forall_mem_nil _⟩⟩⟩) "p" l rfl rfl
  exact ⟨rules, hrules, hmem _ (by decide) [] 0 1 none (by decide)⟩

end Congress
