import Mathlib.Data.Multiset.OrderedMonoid
import Congress.Lib.Ledger
import Congress.RuleGraph

/-!
# The dictionaries of a modal

What updates and undoing them do with one modal: its dictionaries, and which of them is in the index. An
event for a modal that is not in the index puts its own dictionary there, and later events change it, so
that undoing the event takes away what is there then. Still, undoing in the order of the events restores
the tables where no end of the batch takes away more than there is, if a modal that had tables was not
without any in between (`restored`).
-/

namespace Congress

open Lib Ledger Function

/-- The dictionaries of a modal, and the number of that in the index. -/
structure Shelf where
  dicts : ℕ → Multiset String
  index : Option ℕ

namespace Shelf

def tables (s : Shelf) : Multiset String := s.index.elim 0 s.dicts

def iadd (s : Shelf) (other : Option ℕ) : Shelf :=
  match s.index, other with
  | some i, some j => ⟨update s.dicts i (s.dicts i + s.dicts j), some i⟩
  | i, j => ⟨s.dicts, i.or j⟩

def isub (s : Shelf) (other : Option ℕ) : Shelf :=
  match s.index, other with
  | some i, some j => ⟨update s.dicts i (s.dicts i - s.dicts j),
      if s.dicts i ∩ s.dicts j ≠ 0 ∧ s.dicts i - s.dicts j = 0 then none else some i⟩
  | i, _ => ⟨s.dicts, i⟩

/-- The number of an event's dictionary, if it has one for the modal. -/
def number (n : ℕ) (c : Multiset String) : Option ℕ := if c = 0 then none else some n

/-- What event `n` does. -/
def apply (s : Shelf) (n : ℕ) (e : Bool × Multiset String) : Shelf :=
  let s := { s with dicts := update s.dicts n e.2 }
  if e.1 then s.iadd (number n e.2) else s.isub (number n e.2)

def undo (s : Shelf) (n : ℕ) (e : Bool × Multiset String) : Shelf :=
  if e.1 then s.isub (number n e.2) else s.iadd (number n e.2)

def applyAll : ℕ → Ledger String → Shelf → Shelf
  | _, [], s => s
  | n, e :: l, s => applyAll (n + 1) l (s.apply n e)

def undoAll : ℕ → Ledger String → Shelf → Shelf
  | _, [], s => s
  | n, e :: l, s => undoAll (n + 1) l (s.undo n e)

/-- No dictionary in the index is empty. -/
def Proper (s : Shelf) : Prop := ∀ i, s.index = some i → s.dicts i ≠ 0

/-- The events from `n` on have the dictionaries they were made with, none of which is in the index. -/
def Kept (s : Shelf) (n : ℕ) (l : Ledger String) : Prop :=
  ∀ k e, l[k]? = some e → s.dicts (n + k) = e.2 ∧ s.index ≠ some (n + k)

variable {s s' : Shelf} {n i : ℕ} {c : Multiset String} {e : Bool × Multiset String} {l : Ledger String}

theorem Proper.index_iff (h : s.Proper) : s.index = none ↔ s.tables = 0 := by
  unfold tables
  rcases hi : s.index with _ | i
  · simp
  · simpa using h i hi

theorem iadd_none (s : Shelf) : s.iadd none = s := by
  obtain ⟨d, i⟩ := s
  cases i <;> rfl

theorem isub_none (s : Shelf) : s.isub none = s := by
  obtain ⟨d, i⟩ := s
  cases i <;> rfl

/-- Taking in a dictionary other than that in the index. -/
theorem iadd_spec (hs : s.Proper) (hn : s.index ≠ some n) (hd : s.dicts n = c) :
    (s.iadd (number n c)).tables = s.tables + c ∧ (s.iadd (number n c)).Proper
      ∧ (∀ i, s.index ≠ some i → (s.iadd (number n c)).dicts i = s.dicts i)
      ∧ (s.iadd (number n c)).index = s.index.or (number n c) := by
  by_cases hc : c = 0
  · rw [number, if_pos hc, iadd_none, hc]
    exact ⟨(add_zero _).symm, hs, fun _ _ => rfl, (Option.or_none ..).symm⟩
  rw [number, if_neg hc]
  obtain ⟨d, _ | i⟩ := s
  · refine ⟨hd.trans (zero_add c).symm, ?_, fun _ _ => rfl, rfl⟩
    rintro j ⟨⟩
    exact hd.trans_ne hc
  · have hd : d n = c := hd
    refine ⟨?_, ?_, fun j hj => update_of_ne (fun h => hj (by rw [h])) .., rfl⟩
    · show update d i (d i + d n) i = d i + c
      rw [update_self, hd]
    · rintro j ⟨⟩
      show update d i (d i + d n) i ≠ 0
      rw [update_self]
      exact fun h => hs i rfl (Multiset.le_zero.1 (h ▸ Multiset.le_add_right ..))

/-- Taking away a dictionary. -/
theorem isub_spec (hs : s.Proper) (hd : s.dicts n = c) :
    (s.isub (some n)).tables = s.tables - c ∧ (s.isub (some n)).Proper
      ∧ (∀ i, s.index ≠ some i → (s.isub (some n)).dicts i = s.dicts i)
      ∧ ∀ i, s.index = some i → ((s.isub (some n)).index = some i ∨ (s.isub (some n)).index = none
          ∧ (s.isub (some n)).dicts i = 0) := by
  obtain ⟨d, _ | i⟩ := s
  · exact ⟨(Multiset.zero_sub c).symm, hs, fun _ _ => rfl, by simp⟩
  have hd : d n = c := hd
  have hi : d i ≠ 0 := hs i rfl
  have hdrop : d i ∩ d n ≠ 0 ∧ d i - d n = 0 ↔ d i - c = 0 := by
    rw [hd, and_iff_right_iff_imp]
    intro h h0
    -- nothing was taken away, so the dictionary is as it was
    have hdisj : d i - c = d i := by
      ext a
      have ha := congrArg (Multiset.count a) h0
      rw [Multiset.count_inter, Multiset.count_zero] at ha
      rw [Multiset.count_sub]
      omega
    exact hi (hdisj.symm.trans h)
  have hindex : isub ⟨d, some i⟩ (some n)
      = ⟨update d i (d i - c), if d i - c = 0 then none else some i⟩ := by
    show Shelf.mk _ (if d i ∩ d n ≠ 0 ∧ d i - d n = 0 then none else some i) = _
    rw [if_congr hdrop rfl rfl]
    simp only [hd]
  rw [hindex]
  refine ⟨?_, ?_, fun j hj => update_of_ne (fun h => hj (by rw [h])) .., ?_⟩
  · unfold tables
    dsimp only
    split_ifs with h
    · exact h.symm
    · exact update_self ..
  · intro j hj
    dsimp only at hj ⊢
    split_ifs at hj with h
    cases hj
    rwa [update_self]
  · rintro j ⟨⟩
    dsimp only
    split_ifs with h
    · exact .inr ⟨rfl, by rw [update_self, h]⟩
    · exact .inl rfl

theorem isub_number (hs : s.Proper) (hd : s.dicts n = c) :
    (s.isub (number n c)).tables = s.tables - c ∧ (s.isub (number n c)).Proper
      ∧ (∀ i, s.index ≠ some i → (s.isub (number n c)).dicts i = s.dicts i)
      ∧ ∀ i, s.index = some i → ((s.isub (number n c)).index = some i
          ∨ (s.isub (number n c)).index = none ∧ (s.isub (number n c)).dicts i = 0) := by
  by_cases hc : c = 0
  · rw [number, if_pos hc, isub_none, hc]
    exact ⟨(tsub_zero _).symm, hs, fun _ _ => rfl, fun i hi => .inl hi⟩
  · rw [number, if_neg hc]
    exact isub_spec hs hd

theorem isub_index_none (h : s.index = none) (m : Option ℕ) : s.isub m = s := by
  obtain ⟨d, i⟩ := s
  cases h
  rfl

/-- Undoing an event whose dictionary is as it was made. -/
theorem undo_spec (hs : s.Proper) (hd : s.dicts n = e.2) (hn : s.index ≠ some n) :
    (s.undo n e).tables = undone s.tables [e] ∧ (s.undo n e).Proper
      ∧ (∀ i, s.index ≠ some i → (s.undo n e).dicts i = s.dicts i)
      ∧ ∀ i, (s.undo n e).index = some i → s.index = some i ∨ i = n := by
  obtain ⟨b, c⟩ := e
  cases b
  · obtain ⟨ht, hp, hdicts, hi⟩ := iadd_spec hs hn hd
    refine ⟨ht, hp, hdicts, fun i h => ?_⟩
    have h : s.index.or (number n c) = some i := hi.symm.trans h
    rcases Option.or_eq_some_iff.1 h with h | ⟨-, h⟩
    · exact .inl h
    · unfold number at h
      split_ifs at h
      exact .inr (Option.some.inj h).symm
  · obtain ⟨ht, hp, hdicts, hi⟩ := isub_number hs hd
    refine ⟨ht, hp, hdicts, fun i h => .inl ?_⟩
    rcases hsi : s.index with _ | j
    · rw [undo, if_pos rfl, isub_index_none hsi, hsi] at h
      cases h
    · rcases hi j hsi with h' | ⟨h', -⟩
      · exact h'.symm.trans h
      · cases h'.symm.trans h

/-- What an event does to the shelf. -/
theorem apply_spec (hs : s.Proper) (hn : s.index ≠ some n) :
    (s.apply n e).tables = after s.tables [e] ∧ (s.apply n e).Proper ∧ (s.apply n e).dicts n = e.2
      ∧ (∀ i, i ≠ n → s.index ≠ some i → (s.apply n e).dicts i = s.dicts i)
      ∧ (∀ i, s.index = some i → (s.apply n e).index = some i
          ∨ (s.apply n e).index = none ∧ (s.apply n e).dicts i = 0)
      ∧ (s.index = none → (s.apply n e).index = if e.1 then number n e.2 else none) := by
  obtain ⟨b, c⟩ := e
  let s₀ : Shelf := { s with dicts := update s.dicts n c }
  have hne : ∀ i, s.index = some i → i ≠ n := fun i hi h => hn (h ▸ hi)
  have hs₀ : s₀.Proper := fun i hi => by
    show update s.dicts n c i ≠ 0
    rw [update_of_ne (hne i hi)]
    exact hs i hi
  have ht₀ : s₀.tables = s.tables := by
    unfold tables
    rcases hi : s.index with _ | i
    · rfl
    · exact update_of_ne (hne i hi) ..
  have hd₀ : s₀.dicts n = c := update_self ..
  cases b
  · obtain ⟨ht, hp, hdicts, hi⟩ := isub_number hs₀ hd₀
    exact ⟨ht.trans (by rw [ht₀]; rfl), hp, (hdicts n hn).trans hd₀,
      fun i hin hsi => (hdicts i hsi).trans (update_of_ne hin ..), hi,
      fun h => (congrArg Shelf.index (isub_index_none (s := s₀) h _)).trans h⟩
  · obtain ⟨ht, hp, hdicts, hi⟩ := iadd_spec hs₀ hn hd₀
    exact ⟨ht.trans (by rw [ht₀]; rfl), hp, (hdicts n hn).trans hd₀,
      fun i hin hsi => (hdicts i hsi).trans (update_of_ne hin ..),
      fun i h => .inl (hi.trans (by rw [show s₀.index = some i from h]; rfl)),
      fun h => hi.trans (by rw [show s₀.index = none from h]; rfl)⟩

theorem after_cons (t : Multiset String) (e : Bool × Multiset String) (l : Ledger String) :
    after t (e :: l) = after (after t [e]) l := by
  obtain ⟨_ | _, c⟩ := e <;> rfl

theorem undone_cons (t : Multiset String) (e : Bool × Multiset String) (l : Ledger String) :
    undone t (e :: l) = undone (undone t [e]) l := undone_append [e] l t

theorem Kept.tail (h : s.Kept n (e :: l)) : s.Kept (n + 1) l := fun k e' hk => by
  have := h (k + 1) e' (by simpa using hk)
  rwa [show n + (k + 1) = n + 1 + k by omega] at this

theorem Kept.cons (hd : s.dicts n = e.2) (hn : s.index ≠ some n) (h : s.Kept (n + 1) l) :
    s.Kept n (e :: l)
  | 0, _, hk => by
    cases hk
    exact ⟨hd, hn⟩
  | k + 1, e', hk => by
    have := h k e' (by simpa using hk)
    rwa [show n + 1 + k = n + (k + 1) by omega] at this

/-- The dictionaries that are not in the index stay. -/
theorem Kept.of_dicts (h : s.Kept n l) (hd : ∀ i, n ≤ i → s.index ≠ some i → s'.dicts i = s.dicts i)
    (hi : ∀ i, n ≤ i → s'.index = some i → s.index = some i) : s'.Kept n l := fun k e hk => by
  obtain ⟨hdk, hik⟩ := h k e hk
  exact ⟨(hd _ (Nat.le_add_right ..) hik).trans hdk, fun h' => hik (hi _ (Nat.le_add_right ..) h')⟩

/-- Undoing events whose dictionaries are as they were made. -/
theorem undoAll_kept : ∀ (l : Ledger String) {n : ℕ} {s : Shelf}, s.Proper → s.Kept n l →
    (undoAll n l s).tables = undone s.tables l ∧ (undoAll n l s).Proper
  | [], _, _, hs, _ => ⟨rfl, hs⟩
  | e :: l, n, s, hs, hk => by
    obtain ⟨hd, hn⟩ : s.dicts n = e.2 ∧ s.index ≠ some n := hk 0 e rfl
    obtain ⟨ht, hp, hdicts, hi⟩ := undo_spec hs hd hn
    have hkept : (s.undo n e).Kept (n + 1) l := hk.tail.of_dicts (fun i _ => hdicts i) fun i hni h =>
      (hi i h).resolve_right (by omega)
    obtain ⟨ht', hp'⟩ := undoAll_kept l hp hkept
    exact ⟨by rw [undoAll, ht', ht, ← undone_cons], hp'⟩

/-- While there are tables throughout, the dictionary in the index stays there. -/
theorem applyAll_kept : ∀ (l : Ledger String) {n j : ℕ} {s : Shelf}, s.Proper → s.index = some j → j < n →
    (∀ p, p <+: l → after s.tables p ≠ 0) → (applyAll n l s).tables = after s.tables l
      ∧ (applyAll n l s).Proper ∧ (applyAll n l s).index = some j ∧ (applyAll n l s).Kept n l
      ∧ ∀ i < n, i ≠ j → (applyAll n l s).dicts i = s.dicts i
  | [], _, _, s, hs, hi, _, _ => ⟨rfl, hs, hi, fun k e hk => by simp at hk, fun _ _ _ => rfl⟩
  | e :: l, n, j, s, hs, hi, hj, hne => by
    have hn : s.index ≠ some n := by
      rw [hi]
      exact fun h => hj.ne (Option.some.inj h)
    obtain ⟨ht, hp, hd, hdicts, hindex, -⟩ := apply_spec (e := e) hs hn
    have hi' : (s.apply n e).index = some j := (hindex j hi).resolve_right fun h => by
      have h0 := hne [e] (by simp)
      rw [← ht] at h0
      exact h0 (hp.index_iff.1 h.1)
    obtain ⟨ht', hp', hi'', hk, hdicts'⟩ := applyAll_kept l hp hi' (hj.trans (Nat.lt_succ_self n)) fun p hpl => by
      have := hne (e :: p) ((List.prefix_cons_inj e).2 hpl)
      rwa [after_cons, ← ht] at this
    refine ⟨by rw [applyAll, ht', ht, ← after_cons], hp', hi'', .cons ?_ ?_ hk, fun i hin hij => ?_⟩
    · exact (hdicts' n (Nat.lt_succ_self n) hj.ne').trans hd
    · rw [applyAll, hi'']
      exact fun h => hj.ne (Option.some.inj h)
    · refine (hdicts' i (hin.trans (Nat.lt_succ_self n)) hij).trans (hdicts i hin.ne ?_)
      rw [hi]
      exact fun h => hij (Option.some.inj h).symm

/-- An event before the last that put its dictionary into the index: it has the dictionary it was made with,
or it put it there itself and it is empty since. -/
def Faded (s : Shelf) (n : ℕ) (l : Ledger String) : Prop :=
  ∀ k e, l[k]? = some e → s.dicts (n + k) = e.2 ∨ e.1 = true ∧ s.dicts (n + k) = 0

/-- How the index can be after events: with the dictionary that was there at first, with none, or with
that of an event, and then the one that was there at first is empty. -/
theorem applyAll_spec : ∀ (l : Ledger String) {n : ℕ} {s : Shelf}, s.Proper →
    (∀ i, s.index = some i → i < n) → (applyAll n l s).tables = after s.tables l ∧ (applyAll n l s).Proper
      ∧ (∀ i < n, s.index ≠ some i → (applyAll n l s).dicts i = s.dicts i)
      ∧ ((∃ i, s.index = some i ∧ (applyAll n l s).index = some i ∧ (applyAll n l s).Kept n l)
        ∨ (applyAll n l s).index = none
        ∨ ∃ l₁ c l₂, l = l₁ ++ (true, c) :: l₂ ∧ c ≠ 0 ∧ (applyAll n l s).index = some (n + l₁.length)
          ∧ (applyAll n l s).Faded n l₁ ∧ (applyAll n l s).Kept (n + l₁.length + 1) l₂
          ∧ ∀ i, s.index = some i → (applyAll n l s).dicts i = 0)
  | [], n, s, hs, hi => by
    refine ⟨rfl, hs, fun _ _ _ => rfl, ?_⟩
    rcases h : s.index with _ | i
    · exact .inr (.inl h)
    · exact .inl ⟨i, rfl, h, fun k e hk => by simp at hk⟩
  | e :: l, n, s, hs, hi => by
    have hn : s.index ≠ some n := fun h => (hi n h).false
    obtain ⟨ht, hp, hd, hdicts, hsome, hnone⟩ := apply_spec (e := e) hs hn
    have hi' : ∀ i, (s.apply n e).index = some i → s.index = some i ∨ s.index = none ∧ i = n ∧ e.1 = true
        ∧ e.2 ≠ 0 := by
      intro i h
      rcases hsi : s.index with _ | j
      · rw [hnone hsi] at h
        unfold number at h
        split_ifs at h with hb hc
        exact .inr ⟨rfl, (Option.some.inj h).symm, hb, hc⟩
      · rcases hsome j hsi with h' | ⟨h', -⟩
        · exact .inl (h'.symm.trans h)
        · cases h'.symm.trans h
    have hlt : ∀ i, (s.apply n e).index = some i → i < n + 1 := by
      intro i h
      rcases hi' i h with h | ⟨-, rfl, -⟩
      · exact (hi i h).trans (Nat.lt_succ_self n)
      · exact Nat.lt_succ_self _
    obtain ⟨ht', hp', hdicts', hcases⟩ := applyAll_spec l hp hlt
    have hframe : ∀ i < n, s.index ≠ some i → (applyAll (n + 1) l (s.apply n e)).dicts i = s.dicts i := by
      intro i hin hsi
      refine (hdicts' i (hin.trans (Nat.lt_succ_self n)) fun h => ?_).trans (hdicts i hin.ne hsi)
      rcases hi' i h with h | ⟨-, rfl, -⟩
      · exact hsi h
      · exact hin.false
    refine ⟨by rw [applyAll, ht', ht, ← after_cons], hp', hframe, ?_⟩
    rcases hcases with ⟨i, h, hindex, hk⟩ | hindex | ⟨l₁, c, l₂, rfl, hc, hindex, hf, hk, hzero⟩
    · rcases hi' i h with hsi | ⟨hsi, rfl, hb, hne⟩
      · have hin : i ≠ n := fun h => hn (h ▸ hsi)
        refine .inl ⟨i, hsi, hindex, .cons ?_ (fun h => hin (Option.some.inj (hindex.symm.trans h))) hk⟩
        refine (hdicts' n (Nat.lt_succ_self n) fun h' => hin ?_).trans hd
        exact Option.some.inj (h.symm.trans h')
      · obtain ⟨b, c⟩ := e
        obtain rfl : b = true := hb
        refine .inr (.inr ⟨[], c, l, rfl, hne, hindex, fun k e hk => by simp at hk, hk, fun i hi => ?_⟩)
        rw [hsi] at hi
        cases hi
    · exact .inr (.inl hindex)
    · have hlen : n + 1 + l₁.length = n + (e :: l₁).length := by
        rw [List.length_cons]
        omega
      rw [hlen] at hindex hk
      refine .inr (.inr ⟨e :: l₁, c, l₂, rfl, hc, hindex, ?_, hk, fun i hsi => ?_⟩)
      · rintro (_ | k) e' hk'
        · cases hk'
          by_cases hin : (s.apply n e).index = some n
          · rcases hi' n hin with h | ⟨-, -, hb, -⟩
            · exact absurd h hn
            · exact .inr ⟨hb, hzero n hin⟩
          · exact .inl ((hdicts' n (Nat.lt_succ_self n) hin).trans hd)
        · have := hf k e' (by simpa using hk')
          rwa [show n + 1 + k = n + (k + 1) by omega] at this
      · rcases hsome i hsi with h | ⟨h, h0⟩
        · exact hzero i h
        · exact (hdicts' i ((hi i hsi).trans (Nat.lt_succ_self n)) (by simp [h])).trans h0

theorem le_of_undoable {x : Multiset String} (hu : Undoable 0 l)
    (hle : c + inserted l ≤ x + deleted l) : c ≤ x := by
  have hdel : deleted l ≤ inserted l := (hu l List.suffix_rfl).trans (zero_add _).le
  exact le_of_add_le_add_right (hle.trans (Multiset.add_le_add_left hdel))

/-- Undoing an event from before the dictionary in the index, while there are tables `c` too many. -/
theorem undo_faded (hc : c ≠ 0) (hi : s.index = some i) (hn : n ≠ i)
    (hf : s.dicts n = e.2 ∨ e.1 = true ∧ s.dicts n = 0) (hu : Undoable 0 (e :: l))
    (hle : c + inserted (e :: l) ≤ s.dicts i + deleted (e :: l)) :
    (s.undo n e).index = some i ∧ (∀ j, j ≠ i → (s.undo n e).dicts j = s.dicts j)
      ∧ c + inserted l ≤ (s.undo n e).dicts i + deleted l := by
  have hs : s.Proper := by
    intro j hj h0
    obtain rfl := Option.some.inj (hi.symm.trans hj)
    have := le_of_undoable hu hle
    rw [h0] at this
    exact hc (Multiset.le_zero.1 this)
  have hother : ∀ j, j ≠ i → s.index ≠ some j := fun j hj h => hj (Option.some.inj (h.symm.trans hi))
  obtain ⟨b, c'⟩ := e
  cases b
  · have hd : s.dicts n = c' := hf.resolve_right fun h => by cases h.1
    obtain ⟨ht, -, hdicts, hindex⟩ := iadd_spec hs (hother n hn) hd
    have hindex : (s.undo n (false, c')).index = some i := hindex.trans (by rw [hi]; rfl)
    have ht : (s.undo n (false, c')).tables = s.tables + c' := ht
    unfold tables at ht
    rw [hindex, hi] at ht
    refine ⟨hindex, fun j hj => hdicts j (hother j hj), ?_⟩
    have ht : (s.undo n (false, c')).dicts i = s.dicts i + c' := ht
    rwa [ht, add_assoc]
  · have hdc : s.dicts n ≤ c' := by
      rcases hf with h | ⟨-, h⟩
      · exact h.le
      · exact h ▸ Multiset.zero_le _
    have hle' : c + c' + inserted l ≤ s.dicts i + deleted l := by
      rw [add_assoc]
      exact hle
    have hcx : s.dicts n ≤ s.dicts i :=
      hdc.trans ((Multiset.le_add_left ..).trans (le_of_undoable hu.tail hle'))
    have hrest : c + inserted l ≤ s.dicts i - s.dicts n + deleted l := by
      refine le_of_add_le_add_right (a := s.dicts n) ?_
      calc c + inserted l + s.dicts n ≤ c + inserted l + c' := Multiset.add_le_add_left hdc
        _ = c + c' + inserted l := add_right_comm ..
        _ ≤ s.dicts i - s.dicts n + s.dicts n + deleted l := by rwa [tsub_add_cancel_of_le hcx]
        _ = _ := add_right_comm ..
    by_cases hc' : c' = 0
    · have hundo : s.undo n (true, c') = s := by
        rw [undo, if_pos rfl, number, if_pos hc', isub_none]
      have h0 : s.dicts n = 0 := Multiset.le_zero.1 (hc' ▸ hdc)
      rw [hundo]
      rw [h0, tsub_zero] at hrest
      exact ⟨hi, fun _ _ => rfl, hrest⟩
    · have hundo : s.undo n (true, c') = s.isub (some n) := by
        rw [undo, if_pos rfl, number, if_neg hc']
      rw [hundo]
      obtain ⟨ht, hp, hdicts, hsome⟩ := isub_spec hs (rfl : s.dicts n = _)
      have htables : s.tables = s.dicts i := by
        unfold tables
        rw [hi]
        rfl
      rw [htables] at ht
      have hindex : (s.isub (some n)).index = some i := (hsome i hi).resolve_right fun h => hc (by
        rw [hp.index_iff, ht] at h
        have := le_of_undoable hu.tail hrest
        rw [h.1] at this
        exact Multiset.le_zero.1 this)
      unfold tables at ht
      rw [hindex] at ht
      have ht : (s.isub (some n)).dicts i = s.dicts i - s.dicts n := ht
      exact ⟨hindex, fun j hj => hdicts j (hother j hj), by rwa [ht]⟩

theorem undoAll_faded : ∀ (l₁ : Ledger String) {l₂ : Ledger String} {n : ℕ} {s : Shelf},
    c ≠ 0 → s.index = some i → n + l₁.length ≤ i → s.Faded n l₁ → Undoable 0 (l₁ ++ l₂) →
    c + inserted (l₁ ++ l₂) ≤ s.dicts i + deleted (l₁ ++ l₂) →
    (undoAll n l₁ s).index = some i ∧ (∀ j, j ≠ i → (undoAll n l₁ s).dicts j = s.dicts j)
      ∧ c ≤ (undoAll n l₁ s).dicts i
  | [], _, _, _, _, hi, _, _, hu, hle => ⟨hi, fun _ _ => rfl, le_of_undoable hu hle⟩
  | e :: l₁, l₂, n, s, hc, hi, hn, hf, hu, hle => by
    rw [List.length_cons] at hn
    have hfe : s.dicts n = e.2 ∨ e.1 = true ∧ s.dicts n = 0 := hf 0 e rfl
    obtain ⟨hi', hdicts, hle'⟩ := undo_faded hc hi (by omega) hfe hu hle
    have hf' : (s.undo n e).Faded (n + 1) l₁ := fun k e' hk => by
      have hlt := (List.getElem?_eq_some_iff.1 hk).1
      rw [hdicts _ (by omega)]
      have := hf (k + 1) e' (by simpa using hk)
      rwa [show n + (k + 1) = n + 1 + k by omega] at this
    obtain ⟨hi'', hdicts', hc'⟩ := undoAll_faded l₁ hc hi' (by omega) hf' hu.tail hle'
    exact ⟨hi'', fun j hj => (hdicts' j hj).trans (hdicts j hj), hc'⟩

theorem undoAll_append : ∀ (l l' : Ledger String) (n : ℕ) (s : Shelf),
    undoAll n (l ++ l') s = undoAll (n + l.length) l' (undoAll n l s)
  | [], _, _, _ => rfl
  | e :: l, l', n, s => by
    rw [List.cons_append, undoAll, undoAll_append l l', undoAll, List.length_cons, Nat.add_right_comm,
      Nat.add_assoc]

/-- Undoing the event whose dictionary is in the index takes away everything. -/
theorem undo_taken (hs : s.Proper) (hi : s.index = some n) (hc : c ≠ 0) :
    (s.undo n (true, c)).index = none ∧ (s.undo n (true, c)).Proper
      ∧ ∀ i, i ≠ n → (s.undo n (true, c)).dicts i = s.dicts i := by
  have hundo : s.undo n (true, c) = s.isub (some n) := by
    rw [undo, if_pos rfl, number, if_neg hc]
  have htables : s.tables = s.dicts n := by
    unfold tables
    rw [hi]
    rfl
  obtain ⟨ht, hp, hdicts, -⟩ := isub_spec hs (rfl : s.dicts n = _)
  rw [hundo]
  refine ⟨hp.index_iff.2 (by rw [ht, htables, tsub_self]), hp, fun i hne => hdicts i ?_⟩
  rw [hi]
  exact fun h => hne (Option.some.inj h).symm

/-- From nothing, at most what is there is left. -/
theorem undoAll_none (hs : s.Proper) (hi : s.index = none) (hk : s.Kept n l) (hu : Undoable 0 l) :
    (undoAll n l s).index = none := by
  obtain ⟨ht, hp⟩ := undoAll_kept l hs hk
  have hdel : deleted l ≤ inserted l := (hu l List.suffix_rfl).trans (zero_add _).le
  have hle : undone 0 l ≤ undone (inserted l - deleted l) l := undone_mono l (Multiset.zero_le _)
  have hzero : undone (inserted l - deleted l) l = 0 :=
    undone_eq l hu (by rw [tsub_add_cancel_of_le hdel, zero_add])
  rw [hzero] at hle
  rw [hs.index_iff.1 hi] at ht
  exact hp.index_iff.2 (ht.trans (Multiset.le_zero.1 hle))

/-- A modal that is new in the batch. -/
theorem restored_of_none : ∀ (l : Ledger String) {n : ℕ} {s : Shelf}, s.index = none → Legal 0 l →
    Undoable 0 l → (undoAll n l (applyAll n l s)).index = none
  | [], _, _, hi, _, _ => hi
  | (b, c) :: l, n, s, hi, hl, hu => by
    have hs : s.Proper := fun i h => by simp [hi] at h
    obtain ⟨ht, hp, hd, -, -, hnone⟩ := apply_spec (e := (b, c)) hs (n := n) (by simp [hi])
    have hindex := hnone hi
    by_cases hc : c = 0
    · subst hc
      have hlegal : Legal 0 l := by
        cases b
        · simpa [Legal] using hl
        · simpa [Legal] using hl
      have hundo : ∀ s' : Shelf, s'.undo n (b, 0) = s' := fun s' => by
        unfold undo number
        simp only [if_true, isub_none, iadd_none, ite_self]
      rw [undoAll, hundo, applyAll]
      exact restored_of_none l (hindex.trans (by simp [number])) hlegal hu.tail
    cases b
    · exact absurd (Multiset.le_zero.1 hl.1) hc
    have hindex : (s.apply n (true, c)).index = some n := by
      rw [hindex, if_pos rfl, number, if_neg hc]
    have htables : (s.apply n (true, c)).tables = c := by
      rw [ht, hs.index_iff.1 hi]
      exact zero_add c
    have hlegal : Legal c l := by simpa [Legal] using hl
    obtain ⟨hta, hpa, -, hcases⟩ := applyAll_spec l hp (n := n + 1) fun i h => by
      rw [hindex] at h
      exact (Option.some.inj h).symm.trans_lt (Nat.lt_succ_self n)
    rw [undoAll, applyAll]
    set f := applyAll (n + 1) l (s.apply n (true, c)) with hf
    have hsum := after_add_deleted l hlegal
    rw [← htables, ← hta, htables] at hsum
    rcases hcases with ⟨i, h, hfi, hk⟩ | hfi | ⟨l₁, c', l₂, rfl, hc', hfi, hfaded, hk, hzero⟩
    · obtain rfl : n = i := Option.some.inj (hindex.symm.trans h)
      obtain ⟨hnone', hp', hdicts⟩ := undo_taken hpa hfi hc
      refine undoAll_none hp' hnone' (hk.of_dicts (fun i hi _ => hdicts i (by omega)) fun i _ h => ?_) hu.tail
      rw [hnone'] at h
      cases h
    · -- nothing would be left, so the event would not be undoable
      rw [hpa.index_iff.1 hfi, zero_add] at hsum
      have hle := (hu.tail l List.suffix_rfl).trans (zero_add _).le
      rw [hsum] at hle
      exact absurd (Multiset.le_zero.1 (by simpa using hle)) hc
    · have hfn : f.dicts n = 0 := hzero n hindex
      have hne : n ≠ n + 1 + l₁.length := by omega
      have hskip : f.undo n (true, c) = f := by
        unfold undo isub number
        simp only [if_true, if_neg hc, hfi, hfn, tsub_zero, Multiset.inter_zero, ne_eq, not_true_eq_false,
          false_and, if_false, update_eq_self]
        rw [← hfi]
      have htf : f.tables = f.dicts (n + 1 + l₁.length) := by
        unfold tables
        rw [hfi]
        rfl
      obtain ⟨hi₁, hd₁, hc₁⟩ := undoAll_faded l₁ hc hfi le_rfl hfaded hu.tail (by rw [← htf, hsum])
      have hp₁ : (undoAll (n + 1) l₁ f).Proper := by
        intro j hj h0
        obtain rfl := Option.some.inj (hi₁.symm.trans hj)
        rw [h0] at hc₁
        exact hc (Multiset.le_zero.1 hc₁)
      obtain ⟨hnone', hp', hdicts⟩ := undo_taken hp₁ hi₁ hc'
      rw [hskip, undoAll_append, undoAll]
      refine undoAll_none hp' hnone' (hk.of_dicts (fun i hi _ => ?_) fun i _ h => ?_) fun s' hs' => ?_
      · rw [hdicts i (by omega), hd₁ i (by omega)]
      · rw [hnone'] at h
        cases h
      · exact hu s' (hs'.trans ((List.suffix_cons ..).trans ((List.suffix_append ..).trans
          (List.suffix_cons ..))))

/-- Undoing the events of a batch in their order restores the tables of a modal. -/
theorem restored (hs : s.Proper) (hn : ∀ i, s.index = some i → i < n) (hl : Legal s.tables l)
    (hu : Undoable s.tables l) (hne : s.tables ≠ 0 → ∀ p, p <+: l → after s.tables p ≠ 0) :
    (undoAll n l (applyAll n l s)).tables = s.tables ∧ (undoAll n l (applyAll n l s)).Proper := by
  rcases hi : s.index with _ | j
  · rw [hs.index_iff.1 hi] at hl hu ⊢
    have hnone := restored_of_none l (n := n) hi hl hu
    have hp : (undoAll n l (applyAll n l s)).Proper := fun i h => by simp [hnone] at h
    exact ⟨hp.index_iff.1 hnone, hp⟩
  · have h0 : s.tables ≠ 0 := fun h => by simp [hs.index_iff.2 h] at hi
    obtain ⟨ht, hp, -, hk, -⟩ := applyAll_kept l hs hi (hn j hi) (hne h0)
    obtain ⟨ht', hp'⟩ := undoAll_kept l hp hk
    exact ⟨by rw [ht', ht, (undone_after_iff hl).2 hu], hp'⟩

end Shelf

end Congress
