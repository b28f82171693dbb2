import Mathlib.Data.List.Basic
import Mathlib.Data.List.Nodup
import Mathlib.Logic.Function.Basic

/-!
# Groups and counts of a list

Dictionaries that are kept along with a list: its elements grouped by a key (`group`), and how many
elements use a key (`counts`). A key with no element is not there. When an element is put at the end or
one is taken out, each dictionary is changed at the keys of this element only, and is again that of the
list (`group_append`, `group_eraseP`, `counts_append`, `counts_eraseP`).
-/

namespace Lib

open Function

variable {α κ : Type*} [DecidableEq κ] {key : α → κ} {uses : α → List κ} {l : List α} {a : α} {k : κ}
  {ks : List κ} {p q : α → Bool}

/-! ## Groups -/

/-- The elements with a key, if there are any. -/
def group (key : α → κ) (l : List α) (k : κ) : Option (List α) :=
  if l.filter (key · = k) = [] then none else some (l.filter (key · = k))

theorem group_getD : (group key l k).getD [] = l.filter (key · = k) := by
  unfold group
  split_ifs with h
  · exact h.symm
  · rfl

/-- An element at the end. -/
theorem group_append (key : α → κ) (l : List α) (a : α) :
    update (group key l) (key a) (some ((group key l (key a)).getD [] ++ [a])) = group key (l ++ [a]) := by
  funext k
  rw [group_getD, group, List.filter_append]
  by_cases hk : k = key a
  · subst hk
    simp
  · rw [update_of_ne hk, group]
    have h : [a].filter (key · = k) = [] := by simp [Ne.symm hk]
    simp only [h, List.append_nil]

/-- Taking out the first element of a kind from what another filter keeps all of this kind of. -/
theorem filter_eraseP (h : ∀ a, p a = true → q a = true) : ∀ l : List α,
    (l.eraseP p).filter q = (l.filter q).eraseP p
  | [] => rfl
  | a :: l => by
    by_cases hp : p a
    · rw [List.eraseP_cons_of_pos hp, List.filter_cons_of_pos (h a hp), List.eraseP_cons_of_pos hp]
    · rw [List.eraseP_cons_of_neg hp]
      by_cases hq : q a
      · rw [List.filter_cons_of_pos hq, List.filter_cons_of_pos hq, List.eraseP_cons_of_neg hp,
          filter_eraseP h l]
      · rw [List.filter_cons_of_neg hq, List.filter_cons_of_neg hq, filter_eraseP h l]

theorem filter_eraseP_of_disjoint (h : ∀ a, p a = true → q a = false) : ∀ l : List α,
    (l.eraseP p).filter q = l.filter q
  | [] => rfl
  | a :: l => by
    by_cases hp : p a
    · rw [List.eraseP_cons_of_pos hp, List.filter_cons_of_neg (by rw [h a hp]; decide)]
    · rw [List.eraseP_cons_of_neg hp]
      by_cases hq : q a
      · rw [List.filter_cons_of_pos hq, List.filter_cons_of_pos hq, filter_eraseP_of_disjoint h l]
      · rw [List.filter_cons_of_neg hq, List.filter_cons_of_neg hq, filter_eraseP_of_disjoint h l]

/-- An element of some kind, all of which have one key, is taken out. -/
theorem group_eraseP (h : ∀ a, p a = true → key a = k) : update (group key l) k
    (if ((group key l k).getD []).eraseP p = [] then none else some (((group key l k).getD []).eraseP p))
      = group key (l.eraseP p) := by
  funext k'
  rw [group_getD, ← filter_eraseP (fun a ha => by rw [h a ha, decide_eq_true_eq])]
  by_cases hk : k' = k
  · subst hk
    rw [update_self, group]
  · rw [update_of_ne hk, group, group, filter_eraseP_of_disjoint]
    intro a ha
    rw [h a ha, decide_eq_false_iff_not]
    exact Ne.symm hk

/-- Where there is at most one element of a kind, taking out the first one takes out all. -/
theorem eraseP_eq_filter : ∀ {l : List α}, l.Pairwise (fun a b => p a = true → p b = false) →
    l.eraseP p = l.filter fun a => !p a
  | [], _ => rfl
  | a :: l, h => by
    obtain ⟨ha, h⟩ := List.pairwise_cons.1 h
    by_cases hp : p a
    · rw [List.eraseP_cons_of_pos hp, List.filter_cons_of_neg (by rw [hp]; decide), List.filter_eq_self.2]
      intro b hb
      rw [ha b hb hp]
      rfl
    · rw [List.eraseP_cons_of_neg hp, List.filter_cons_of_pos (by simpa using hp), eraseP_eq_filter h]

/-! ## Counts -/

/-- How many elements use a key, if any do. -/
def counts (uses : α → List κ) (l : List α) (k : κ) : Option ℕ :=
  if l.countP (k ∈ uses ·) = 0 then none else some (l.countP (k ∈ uses ·))

def increment (d : κ → Option ℕ) (k : κ) : κ → Option ℕ := update d k (some ((d k).getD 0 + 1))

/-- A count that gets zero is taken out. -/
def decrement (d : κ → Option ℕ) (k : κ) : κ → Option ℕ :=
  match d k with
  | none => d
  | some n => update d k (if n - 1 = 0 then none else some (n - 1))

theorem counts_getD : (counts uses l k).getD 0 = l.countP (k ∈ uses ·) := by
  unfold counts
  split_ifs with h
  · exact h.symm
  · rfl

theorem foldl_increment : ∀ {ks : List κ} (d : κ → Option ℕ), ks.Nodup →
    ks.foldl increment d k = if k ∈ ks then some ((d k).getD 0 + 1) else d k
  | [], _, _ => rfl
  | k' :: ks, d, h => by
    obtain ⟨hk', h⟩ := List.nodup_cons.1 h
    rw [List.foldl_cons, foldl_increment _ h, increment]
    by_cases hk : k = k'
    · subst hk
      rw [if_neg hk', update_self, if_pos (List.mem_cons_self ..)]
    · rw [update_of_ne hk]
      exact if_congr (by rw [List.mem_cons, or_iff_right hk]) rfl rfl

theorem foldl_decrement : ∀ {ks : List κ} (d : κ → Option ℕ), ks.Nodup → (∀ k ∈ ks, (d k).isSome) →
    ks.foldl decrement d k
      = if k ∈ ks then if (d k).getD 0 - 1 = 0 then none else some ((d k).getD 0 - 1) else d k
  | [], _, _, _ => rfl
  | k' :: ks, d, h, hd => by
    obtain ⟨hk', h⟩ := List.nodup_cons.1 h
    obtain ⟨n, hn⟩ := Option.isSome_iff_exists.1 (hd k' (List.mem_cons_self ..))
    have hdec : decrement d k' = update d k' (if n - 1 = 0 then none else some (n - 1)) := by
      rw [decrement, hn]
    rw [List.foldl_cons, hdec, foldl_decrement _ h fun k hk => by
      rw [update_of_ne fun h' : k = k' => hk' (h' ▸ hk)]
      exact hd k (List.mem_cons_of_mem _ hk)]
    by_cases hk : k = k'
    · subst hk
      rw [if_neg hk', update_self, if_pos (List.mem_cons_self ..), hn]
      rfl
    · rw [update_of_ne hk]
      exact if_congr (by rw [List.mem_cons, or_iff_right hk]) rfl rfl

/-- An element at the end. -/
theorem counts_append (uses : α → List κ) (l : List α) (a : α) (h : (uses a).Nodup) :
    (uses a).foldl increment (counts uses l) = counts uses (l ++ [a]) := by
  funext k
  rw [foldl_increment _ h, counts_getD]
  unfold counts
  rw [List.countP_append]
  by_cases hk : k ∈ uses a
  · simp [hk]
  · simp [hk]

theorem countP_eraseP {a : α} (ha : a ∈ l) (hp : p a = true) (hq : ∀ b, p b = true → q b = q a) :
    (l.eraseP p).countP q = l.countP q - (if q a then 1 else 0) := by
  obtain ⟨b, l₁, l₂, -, hb, hl, herase⟩ := List.exists_of_eraseP ha hp
  rw [herase, hl, List.countP_append, List.countP_append, List.countP_cons, hq b hb]
  omega

/-- An element of some kind, all of which use the same keys, is taken out. -/
theorem counts_eraseP (ha : a ∈ l) (hp : p a = true) (h : ks.Nodup)
    (hks : ∀ b, p b = true → ∀ k, k ∈ uses b ↔ k ∈ ks) :
    ks.foldl decrement (counts uses l) = counts uses (l.eraseP p) := by
  have hcount : ∀ k, k ∈ ks → 0 < l.countP (k ∈ uses ·) := fun k hk =>
    List.countP_pos_iff.2 ⟨a, ha, decide_eq_true ((hks a hp k).2 hk)⟩
  funext k
  rw [foldl_decrement _ h fun k hk => by
    unfold counts
    rw [if_neg (Nat.ne_of_gt (hcount k hk))]
    rfl, counts_getD, counts, counts, countP_eraseP ha hp fun b hb => by
      rw [decide_eq_decide, hks b hb, hks a hp]]
  simp only [hks a hp, decide_eq_true_eq]
  by_cases hk : k ∈ ks
  · simp only [hk, if_true]
  · simp only [hk, if_false, Nat.sub_zero]

end Lib
