import Mathlib.Data.List.Basic
import Mathlib.Logic.Function.Basic

/-!
# Counted uses

Each key of a dictionary counts how often it is in use, and keeps a value while it is: the first use
gives it one, and with the last use that is given back it goes. A list of uses, or of uses given back,
is logged; going through the log in the same order undoes it, where that does not fail
(`revertEach_changeEach`).
-/

namespace Lib

/-- How often a key is in use, and its value. -/
abbrev Usage (β : Type*) := Option (ℕ × β)

/-- What a change was: a use or one given back, with the value if it came or went. -/
structure Logged (β : Type*) where
  insert : Bool
  value : Option β

namespace Usage

variable {β : Type*} {u u' : Usage β} {b : β} {n : ℕ} {insert : Bool}

def count : Usage β → ℕ
  | none => 0
  | some (n, _) => n

/-- What is in use is used at least once. -/
def Proper (u : Usage β) : Prop := ∀ n b, u = some (n, b) → 0 < n

theorem Proper.eq_none (h : u.Proper) (h0 : u.count = 0) : u = none := by
  rcases u with _ | ⟨n, b⟩
  · rfl
  · exact absurd (h n b rfl) (by rw [show n = 0 from h0]; exact Nat.lt_irrefl 0)

/-- A use with a value, or one given back; what is not in use cannot be given back. -/
def change (insert : Bool) (b : β) : Usage β → Usage β × Option (Logged β)
  | none => if insert then (some (1, b), some ⟨true, some b⟩) else (none, none)
  | some (n, b') =>
    if insert then (some (n + 1, b'), some ⟨true, none⟩)
    else if 1 < n then (some (n - 1, b'), some ⟨false, none⟩)
    else (none, some ⟨false, some b'⟩)

/-- What undoes a change; a value that is needed must have been logged. -/
def revert (l : Logged β) : Usage β → Option (Usage β)
  | some (n, b) =>
    if !l.insert then some (some (n + 1, b))
    else if 1 < n then some (some (n - 1, b))
    else some none
  | none => if l.insert then none else l.value.map fun b => some (1, b)

def changeAll (insert : Bool) : List β → Usage β → Usage β × List (Logged β)
  | [], u => (u, [])
  | b :: bs, u =>
    let (u₁, l) := u.change insert b
    let (u₂, ls) := changeAll insert bs u₁
    (u₂, l.toList ++ ls)

def revertAll : List (Logged β) → Usage β → Option (Usage β)
  | [], u => some u
  | l :: ls, u => (u.revert l).bind (revertAll ls)

theorem proper_change (h : u.Proper) : (u.change insert b).1.Proper := by
  rcases u with _ | ⟨n, b'⟩
  · rw [change]
    split_ifs
    · rintro _ _ ⟨⟩
      exact Nat.one_pos
    · exact h
  · rw [change]
    split_ifs with hins hn
    · rintro _ _ ⟨⟩
      exact n.succ_pos
    · rintro _ _ ⟨⟩
      exact Nat.sub_pos_of_lt hn
    · rintro _ _ ⟨⟩

theorem count_change : (u.change insert b).1.count = if insert then u.count + 1 else u.count - 1 := by
  rcases u with _ | ⟨n, b'⟩
  · cases insert <;> rfl
  · cases insert
    · rw [change, if_neg Bool.false_ne_true, if_neg Bool.false_ne_true]
      split_ifs with hn
      · rfl
      · show 0 = n - 1
        omega
    · rfl

/-- The value stays, or it is that of the first use. -/
theorem value_change {c : ℕ} {v : β} (h : (u.change insert b).1 = some (c, v)) :
    (∃ n, u = some (n, v)) ∨ u = none ∧ insert = true ∧ v = b := by
  rcases u with _ | ⟨n, b'⟩
  · rw [change] at h
    split_ifs at h with hins
    cases h
    exact .inr ⟨rfl, hins, rfl⟩
  · rw [change] at h
    split_ifs at h
    all_goals
      cases h
      exact .inl ⟨n, rfl⟩

/-! ## Undoing changes of one key -/

theorem changeAll_use : ∀ {bs : List β} {n : ℕ},
    changeAll true bs (some (n, b)) = (some (n + bs.length, b), List.replicate bs.length ⟨true, none⟩)
  | [], _ => rfl
  | _ :: bs, n => by
    rw [changeAll, change, if_pos rfl]
    dsimp only
    rw [changeAll_use, List.length_cons, List.replicate_succ, Nat.add_right_comm, Nat.add_assoc]
    rfl

theorem revertAll_use : ∀ {ls : List (Logged β)} {n : ℕ}, (∀ l ∈ ls, l.insert = true) → 0 < n →
    ls.length ≤ n →
      revertAll ls (some (n, b)) = some (if ls.length < n then some (n - ls.length, b) else none)
  | [], n, _, hn, _ => by simp [revertAll, hn]
  | l :: ls, n, hins, hn, hlen => by
    obtain ⟨hl, hls⟩ := List.forall_mem_cons.1 hins
    rw [List.length_cons] at hlen
    rw [revertAll, revert, hl]
    by_cases h1 : 1 < n
    · simp only [Bool.not_true, Bool.false_eq_true, if_false, h1, if_true, Option.bind_some]
      rw [revertAll_use hls (by omega) (by omega), List.length_cons]
      split_ifs with hlt hlt' hlt'
      · congr 3
        omega
      · omega
      · omega
      · rfl
    · obtain rfl : ls = [] := List.length_eq_zero_iff.1 (by omega)
      simp [h1, revertAll]

theorem changeAll_drop : ∀ {bs : List β} {n : ℕ}, bs.length < n → changeAll false bs (some (n, b))
    = (some (n - bs.length, b), List.replicate bs.length ⟨false, none⟩)
  | [], _, _ => rfl
  | _ :: bs, n, h => by
    rw [List.length_cons] at h
    rw [changeAll, change, if_neg Bool.false_ne_true, if_pos (by omega)]
    dsimp only
    rw [changeAll_drop (by omega), List.length_cons, List.replicate_succ, Nat.sub_sub,
      Nat.add_comm 1]
    rfl

theorem revertAll_drop : ∀ {k n : ℕ}, revertAll (List.replicate k ⟨false, none⟩) (some (n, b))
    = some (some (n + k, b))
  | 0, _ => rfl
  | k + 1, n => by
    rw [List.replicate_succ, revertAll, revert]
    simp only [Bool.not_false, if_true, Option.bind_some]
    rw [revertAll_drop, Nat.add_right_comm, Nat.add_assoc]

theorem changeAll_none : ∀ {bs : List β}, changeAll false bs none = (none, [])
  | [] => rfl
  | b :: bs => by
    rw [changeAll, change, if_neg Bool.false_ne_true]
    dsimp only
    rw [changeAll_none]
    rfl

theorem changeAll_drop_all : ∀ {bs : List β} {n : ℕ}, 0 < n → n ≤ bs.length →
    (changeAll false bs (some (n, b))).1 = none
  | [], n, h, h' => by
    rw [List.length_nil] at h'
    omega
  | _ :: bs, n, h, h' => by
    rw [List.length_cons] at h'
    rw [changeAll, change, if_neg Bool.false_ne_true]
    split_ifs with hn
    · exact changeAll_drop_all (by omega) (by omega)
    · dsimp only
      rw [changeAll_none]

/-- Changes of one key, undone in the order in which they were made. -/
theorem revertAll_changeAll {bs : List β} (h : u.Proper)
    (hr : revertAll (changeAll insert bs u).2 (changeAll insert bs u).1 = some u') : u' = u := by
  cases insert with
  | true =>
    rcases u with _ | ⟨n, b⟩
    · cases bs with
      | nil =>
        cases hr
        rfl
      | cons b bs =>
        rw [changeAll, change, if_pos rfl] at hr
        dsimp only at hr
        rw [changeAll_use, revertAll_use (by simp) (by omega) (by simp [Nat.add_comm])] at hr
        simp [Nat.add_comm] at hr
        exact hr.symm
    · have hn := h n b rfl
      rw [changeAll_use, revertAll_use (by simp) (by omega) (by simp)] at hr
      simpa [hn] using hr.symm
  | false =>
    rcases u with _ | ⟨n, b⟩
    · rw [changeAll_none] at hr
      cases hr
      rfl
    · have hn := h n b rfl
      by_cases hlen : bs.length < n
      · rw [changeAll_drop hlen, revertAll_drop, Nat.sub_add_cancel (Nat.le_of_lt hlen)] at hr
        exact (Option.some.inj hr).symm
      · cases bs with
        | nil =>
          cases hr
          rfl
        | cons b' bs =>
          have hnone := changeAll_drop_all (b := b) hn (Nat.not_lt.1 hlen)
          rw [hnone] at hr
          rw [changeAll, change, if_neg Bool.false_ne_true] at hr
          split_ifs at hr with h1
          · simp [revertAll, revert] at hr
          · dsimp only at hr
            rw [changeAll_none] at hr
            obtain rfl : n = 1 := by omega
            simp only [Option.toList_some, List.append_nil, revertAll, revert, Bool.false_eq_true,
              if_false, Option.map_some, Option.bind_some, Option.some.injEq] at hr
            exact hr.symm

/-- Changes of one key can be undone in that order if not all its uses, of several, have gone. -/
theorem revertAll_isSome {bs : List β} (h : u.Proper)
    (hn : insert = false → u.count ≤ 1 ∨ bs.length < u.count) :
    (revertAll (changeAll insert bs u).2 (changeAll insert bs u).1).isSome := by
  cases insert with
  | true =>
    rcases u with _ | ⟨n, b⟩
    · cases bs with
      | nil => rfl
      | cons b bs =>
        rw [changeAll, change, if_pos rfl]
        dsimp only
        rw [changeAll_use, revertAll_use (by simp) (by omega) (by simp [Nat.add_comm])]
        rfl
    · have hpos := h n b rfl
      rw [changeAll_use, revertAll_use (by simp) (by omega) (by simp)]
      rfl
  | false =>
    rcases u with _ | ⟨n, b⟩
    · rw [changeAll_none]
      rfl
    · have hpos := h n b rfl
      rcases hn rfl with hone | hlt
      · obtain rfl : n = 1 := Nat.le_antisymm hone hpos
        cases bs with
        | nil => rfl
        | cons b' bs =>
          rw [changeAll, change, if_neg Bool.false_ne_true, if_neg (Nat.lt_irrefl 1)]
          dsimp only
          rw [changeAll_none]
          rfl
      · rw [changeAll_drop (show bs.length < n from hlt), revertAll_drop]
        rfl

/-! ## Dictionaries -/

variable {κ : Type*} [DecidableEq κ] {s s' : κ → Usage β} {ops : List (κ × β)} {k : κ}

/-- The changes, one after the other, each with what is logged of it. -/
def changeEach (insert : Bool) : List (κ × β) → (κ → Usage β) →
    (κ → Usage β) × List (κ × Option (Logged β))
  | [], s => (s, [])
  | (k, b) :: ops, s =>
    let (u, l) := (s k).change insert b
    let (s', ls) := changeEach insert ops (Function.update s k u)
    (s', (k, l) :: ls)

def revertEach : List (κ × Option (Logged β)) → (κ → Usage β) → Option (κ → Usage β)
  | [], s => some s
  | (_, none) :: ls, s => revertEach ls s
  | (k, some l) :: ls, s => ((s k).revert l).bind fun u => revertEach ls (Function.update s k u)

/-- The values with which a key is changed. -/
def values (k : κ) (ops : List (κ × β)) : List β :=
  ops.filterMap fun o => if o.1 = k then some o.2 else none

theorem mem_values : b ∈ values k ops ↔ (k, b) ∈ ops := by
  simp only [values, List.mem_filterMap, Option.ite_none_right_eq_some, Option.some.injEq]
  constructor
  · rintro ⟨⟨k', b'⟩, hmem, rfl, rfl⟩
    exact hmem
  · exact fun hmem => ⟨(k, b), hmem, rfl, rfl⟩

theorem changeEach_apply (insert : Bool) (k : κ) : ∀ (ops : List (κ × β)) (s : κ → Usage β),
    (changeEach insert ops s).1 k = (changeAll insert (values k ops) (s k)).1
      ∧ ((changeEach insert ops s).2.filterMap fun e => if e.1 = k then e.2 else none)
        = (changeAll insert (values k ops) (s k)).2
  | [], _ => ⟨rfl, rfl⟩
  | (k', b) :: ops, s => by
    obtain ⟨hs, hl⟩ := changeEach_apply insert k ops
      (Function.update s k' ((s k').change insert b).1)
    simp only [changeEach, values, List.filterMap_cons]
    by_cases hk : k' = k
    · subst hk
      rw [Function.update_self] at hs hl
      simp only [if_true, changeAll]
      refine ⟨hs, ?_⟩
      cases hlog : ((s k').change insert b).2 with
      | none => simpa [hlog, values] using hl
      | some l => simpa [hlog, values] using hl
    · rw [Function.update_of_ne (Ne.symm hk)] at hs hl
      simp only [hk, if_false]
      exact ⟨hs, hl⟩

theorem revertEach_apply (k : κ) : ∀ (ls : List (κ × Option (Logged β))) {s s' : κ → Usage β},
    revertEach ls s = some s' →
      revertAll (ls.filterMap fun e => if e.1 = k then e.2 else none) (s k) = some (s' k)
  | [], s, s', h => by
    cases h
    rfl
  | (k', none) :: ls, s, s', h => by
    have ih := revertEach_apply k ls h
    simpa using ih
  | (k', some l) :: ls, s, s', h => by
    obtain ⟨u, hu, h⟩ := Option.bind_eq_some_iff.1 h
    have ih := revertEach_apply k ls h
    rw [List.filterMap_cons]
    by_cases hk : k' = k
    · subst hk
      rw [Function.update_self] at ih
      simp only [if_true, revertAll, hu, Option.bind_some]
      exact ih
    · rw [Function.update_of_ne (Ne.symm hk)] at ih
      simp only [hk, if_false]
      exact ih

theorem revertEach_isSome : ∀ (ls : List (κ × Option (Logged β))) {s : κ → Usage β},
    (∀ k, (revertAll (ls.filterMap fun e => if e.1 = k then e.2 else none) (s k)).isSome) →
      (revertEach ls s).isSome
  | [], _, _ => rfl
  | (k', none) :: ls, s, h => by
    refine revertEach_isSome ls fun k => ?_
    have hk := h k
    rwa [List.filterMap_cons, ite_self] at hk
  | (k', some l) :: ls, s, h => by
    have hk' := h k'
    rw [List.filterMap_cons, if_pos rfl] at hk'
    dsimp only at hk'
    rw [revertAll] at hk'
    cases hu : (s k').revert l with
    | none =>
      rw [hu] at hk'
      cases hk'
    | some u =>
      rw [revertEach, hu, Option.bind_some]
      refine revertEach_isSome ls fun k => ?_
      by_cases hk : k = k'
      · subst hk
        rw [hu, Option.bind_some] at hk'
        rwa [Function.update_self]
      · have hother := h k
        rw [List.filterMap_cons, if_neg (Ne.symm hk)] at hother
        rwa [Function.update_of_ne hk]

/-- Changes of many keys can be undone if those of each can. -/
theorem revertEach_changeEach_isSome (h : ∀ k, (s k).Proper)
    (hn : insert = false → ∀ k, (s k).count ≤ 1 ∨ (values k ops).length < (s k).count) :
    (revertEach (changeEach insert ops s).2 (changeEach insert ops s).1).isSome := by
  refine revertEach_isSome _ fun k => ?_
  obtain ⟨hs, hl⟩ := changeEach_apply insert k ops s
  rw [hs, hl]
  exact revertAll_isSome (h k) fun hins => hn hins k

/-- Changes of many keys, undone in the order in which they were made. -/
theorem revertEach_changeEach (h : ∀ k, (s k).Proper)
    (hr : revertEach (changeEach insert ops s).2 (changeEach insert ops s).1 = some s') : s' = s := by
  funext k
  obtain ⟨hs, hl⟩ := changeEach_apply insert k ops s
  have hrk := revertEach_apply k _ hr
  rw [hs, hl] at hrk
  exact revertAll_changeAll (h k) hrk

/-- What is not in use cannot be given back. -/
theorem changeEach_absent : ∀ (ops : List (κ × β)) {s : κ → Usage β}, (∀ o ∈ ops, s o.1 = none) →
    (changeEach false ops s).1 = s
  | [], _, _ => rfl
  | (k, b) :: ops, s, h => by
    obtain ⟨hk, hops⟩ := List.forall_mem_cons.1 h
    rw [changeEach, hk]
    dsimp only
    rw [change, if_neg Bool.false_ne_true, ← hk, Function.update_eq_self]
    exact changeEach_absent ops hops

/-- The log tells of no key but those that were changed. -/
theorem mem_changeEach : ∀ (ops : List (κ × β)) {s : κ → Usage β} {e : κ × Option (Logged β)},
    e ∈ (changeEach insert ops s).2 → ∃ b, (e.1, b) ∈ ops
  | [], _, _, he => absurd he List.not_mem_nil
  | (k, b) :: ops, s, e, he => by
    rw [changeEach] at he
    rcases List.mem_cons.1 he with rfl | he
    · exact ⟨b, List.mem_cons_self⟩
    · obtain ⟨b', hb'⟩ := mem_changeEach ops he
      exact ⟨b', List.mem_cons_of_mem _ hb'⟩

theorem proper_changeEach : ∀ (ops : List (κ × β)) {s : κ → Usage β}, (∀ k, (s k).Proper) →
    ∀ k, ((changeEach insert ops s).1 k).Proper
  | [], _, h => h
  | (k', b) :: ops, s, h => by
    refine proper_changeEach ops fun k => ?_
    by_cases hk : k = k'
    · subst hk
      rw [Function.update_self]
      exact proper_change (h k)
    · rw [Function.update_of_ne hk]
      exact h k

theorem count_changeEach (k : κ) : ∀ (ops : List (κ × β)) (s : κ → Usage β),
    ((changeEach insert ops s).1 k).count
      = if insert then (s k).count + (values k ops).length else (s k).count - (values k ops).length
  | [], s => by cases insert <;> rfl
  | (k', b) :: ops, s => by
    rw [changeEach]
    dsimp only
    rw [count_changeEach k ops]
    by_cases hk : k' = k
    · subst hk
      have hlen : (values k' ((k', b) :: ops)).length = (values k' ops).length + 1 := by
        simp [values]
      rw [Function.update_self, count_change, hlen]
      split_ifs <;> omega
    · have hvals : values k ((k', b) :: ops) = values k ops := by simp [values, hk]
      rw [Function.update_of_ne (Ne.symm hk), hvals]

/-- A value was there before, or it comes from one of the uses. -/
theorem value_changeEach (k : κ) {c : ℕ} {v : β} : ∀ (ops : List (κ × β)) {s : κ → Usage β},
    (changeEach insert ops s).1 k = some (c, v) →
      (∃ n, s k = some (n, v)) ∨ s k = none ∧ insert = true ∧ (k, v) ∈ ops
  | [], s, h => .inl ⟨c, h⟩
  | (k', b) :: ops, s, h => by
    by_cases hk : k = k'
    · subst hk
      rcases value_changeEach k ops h with ⟨n, hn⟩ | ⟨hnone, hins, hmem⟩
      · rw [Function.update_self] at hn
        rcases value_change hn with h | ⟨hnone, hins, rfl⟩
        · exact .inl h
        · exact .inr ⟨hnone, hins, List.mem_cons_self⟩
      · rw [Function.update_self] at hnone
        cases hs : s k with
        | none => exact .inr ⟨rfl, hins, List.mem_cons_of_mem _ hmem⟩
        | some p =>
          obtain ⟨n, b'⟩ := p
          subst hins
          rw [hs] at hnone
          cases hnone
    · rcases value_changeEach k ops h with ⟨n, hn⟩ | ⟨hnone, hins, hmem⟩
      · rw [Function.update_of_ne hk] at hn
        exact .inl ⟨n, hn⟩
      · rw [Function.update_of_ne hk] at hnone
        exact .inr ⟨hnone, hins, List.mem_cons_of_mem _ hmem⟩

end Usage

end Lib
