import Mathlib.Data.List.Forall2
import Mathlib.Data.List.Nodup
import Mathlib.Data.List.Perm.Subperm
import Mathlib.Tactic.Common
import Congress.LpLang

/-!
# Equality of expressions

Where hashes do not collide, an element is in a set of arguments exactly if it is one of them, so `__eq__` finds
out whether two expressions are `Confusable`. It is right exactly about expressions that are the same, and about
others that are neither confusable nor reordered (`expressionEq_sound_iff`).
-/

namespace Congress

namespace LpExpr

variable {H : Hashes} {s t : LpExpr} {as bs : List LpExpr}

mutual

/-- An expression and all that it consists of. -/
def subs : LpExpr → List LpExpr
  | .str s => [.str s]
  | .num q => [.num q]
  | .expr args => .expr args :: subsArgs args

def subsArgs : List LpExpr → List LpExpr
  | [] => []
  | a :: as => subs a ++ subsArgs as

end

/-- No two of the expressions that two expressions consist of have the same hash. -/
def NoCollision (H : Hashes) (s t : LpExpr) : Prop :=
  ∀ a ∈ subs s ++ subs t, ∀ b ∈ subs s ++ subs t, hash H a = hash H b → a = b

instance (H : Hashes) (s t : LpExpr) : Decidable (NoCollision H s t) :=
  inferInstanceAs (Decidable (∀ _ ∈ _, ∀ _ ∈ _, _))

/-- The same constants; arguments that are the same set; two arguments in either order, whatever the operator of
the second expression; or otherwise one argument after the other. -/
inductive Confusable : LpExpr → LpExpr → Prop
  | str (s : String) : Confusable (.str s) (.str s)
  | num (q : ℚ) : Confusable (.num q) (.num q)
  | set {as bs : List LpExpr} : isCommutative as = true → as.length = bs.length → (∀ x, x ∈ as ↔ x ∈ bs) →
      Confusable (.expr as) (.expr bs)
  | equality {o o' a₁ a₂ b₁ b₂ : LpExpr} : isEquality [o, a₁, a₂] = true → Confusable a₁ b₁ → Confusable a₂ b₂ →
      Confusable (.expr [o, a₁, a₂]) (.expr [o', b₁, b₂])
  | swapped {o o' a₁ a₂ b₁ b₂ : LpExpr} : isEquality [o, a₁, a₂] = true → Confusable a₁ b₂ → Confusable a₂ b₁ →
      Confusable (.expr [o, a₁, a₂]) (.expr [o', b₁, b₂])
  | args {as bs : List LpExpr} : isCommutative as = false → isEquality as = false → List.Forall₂ Confusable as bs →
      Confusable (.expr as) (.expr bs)

/-- The arguments that come before those which may change their order. -/
def Reorderable (front : List LpExpr) : Prop :=
  (∃ op ∈ ["AND", "OR", "EQ", "NOTEQ"], front = [.str op])
    ∨ ∃ name, name.toLower ∈ ["plus", "times"] ∧ front = [.str "ARITH", .str name]

/-- Expressions that differ only in the order of arguments of commutative operators. -/
inductive Reordered : LpExpr → LpExpr → Prop
  | refl (s : LpExpr) : Reordered s s
  | trans {s t u : LpExpr} : Reordered s t → Reordered t u → Reordered s u
  | perm {front as bs : List LpExpr} : Reorderable front → as.Perm bs →
      Reordered (.expr (front ++ as)) (.expr (front ++ bs))
  | args {as bs : List LpExpr} : List.Forall₂ Reordered as bs → Reordered (.expr as) (.expr bs)

/-- What `__eq__` promises about two expressions. -/
def EqualitySound (H : Hashes) (s t : LpExpr) : Prop :=
  (eq H s t = true → hash H s = hash H t ∧ ∀ σ, value σ s = value σ t) ∧ (Reordered s t → eq H s t = true)

/-! ## Parts of expressions -/

theorem self_mem_subs (s : LpExpr) : s ∈ subs s := by
  cases s <;> simp [subs]

theorem depth_le_of_mem {a : LpExpr} : ∀ {as : List LpExpr}, a ∈ as → depth a ≤ depthArgs as
  | b :: bs, h => by
    unfold depthArgs
    rcases List.mem_cons.1 h with rfl | h
    · exact le_max_left _ _
    · exact (depth_le_of_mem h).trans (le_max_right _ _)

theorem mem_subsArgs {x : LpExpr} : ∀ {as : List LpExpr}, x ∈ subsArgs as ↔ ∃ a ∈ as, x ∈ subs a
  | [] => by simp [subsArgs]
  | a :: as => by
    rw [subsArgs, List.mem_append, mem_subsArgs, List.exists_mem_cons_iff]

/-- Parts of parts are parts. -/
theorem mem_subs_of_arg {a : LpExpr} : ∀ (n : ℕ) {s : LpExpr}, depth s ≤ n → .expr as ∈ subs s → a ∈ as → a ∈ subs s
  | _, .str _, _, h, _ => by simp [subs] at h
  | _, .num _, _, h, _ => by simp [subs] at h
  | 0, .expr args, hn, _, _ => by simp [depth] at hn
  | n + 1, .expr args, hn, h, ha => by
    unfold depth at hn
    unfold subs at h ⊢
    rcases List.mem_cons.1 h with h | h
    · cases h
      exact List.mem_cons_of_mem _ (mem_subsArgs.2 ⟨a, ha, self_mem_subs a⟩)
    · obtain ⟨b, hb, hx⟩ := mem_subsArgs.1 h
      have hle := depth_le_of_mem hb
      exact List.mem_cons_of_mem _ (mem_subsArgs.2 ⟨b, hb, mem_subs_of_arg n (by omega) hx ha⟩)

theorem Built.args (h : Built s) : ∀ {as}, s = .expr as →
    (∀ a ∈ as, Built a) ∧ (isEquality as = true → ∃ o a b, as = [o, a, b]) := by
  have hcons : ∀ {args : List LpExpr} (op : String), (∀ a ∈ args, Built a) → ∀ a ∈ LpExpr.str op :: args, Built a :=
    fun op hargs a ha => by
      rcases List.mem_cons.1 ha with rfl | ha
      · exact .str op
      · exact hargs a ha
  induction h with
  | str s => intro as h; cases h
  | num q => intro as h; cases h
  | makeVariable hargs ih =>
    intro as h
    cases h
    exact ⟨hcons _ hargs, fun he => by simp [isEquality] at he⟩
  | @makeOr args hargs ih =>
    intro as h
    unfold LpExpr.makeOr at h
    split at h
    · exact ih _ (List.mem_singleton_self _) h
    · cases h
      exact ⟨hcons _ hargs, fun he => by simp [isEquality] at he⟩
  | @makeAnd args hargs ih =>
    intro as h
    unfold LpExpr.makeAnd at h
    split at h
    · exact ih _ (List.mem_singleton_self _) h
    · cases h
      exact ⟨hcons _ hargs, fun he => by simp [isEquality] at he⟩
  | makeEqual h₁ h₂ =>
    intro as h
    cases h
    exact ⟨hcons _ (by simp [h₁, h₂]), fun _ => ⟨_, _, _, rfl⟩⟩
  | makeNotEqual h₁ h₂ =>
    intro as h
    cases h
    exact ⟨hcons _ (by simp [h₁, h₂]), fun _ => ⟨_, _, _, rfl⟩⟩
  | makeArith op hargs ih =>
    intro as h
    cases h
    exact ⟨hcons _ (hcons _ hargs), fun he => by simp [isEquality] at he⟩

theorem Built.of_mem_subs : ∀ (n : ℕ) {s : LpExpr}, depth s ≤ n → Built s → ∀ x ∈ subs s, Built x
  | _, .str s, _, h, x, hx => by
    obtain rfl : x = .str s := by simpa [subs] using hx
    exact h
  | _, .num q, _, h, x, hx => by
    obtain rfl : x = .num q := by simpa [subs] using hx
    exact h
  | 0, .expr args, hn, _, _, _ => by simp [depth] at hn
  | n + 1, .expr args, hn, h, x, hx => by
    unfold depth at hn
    unfold subs at hx
    rcases List.mem_cons.1 hx with rfl | hx
    · exact h
    · obtain ⟨a, ha, hx⟩ := mem_subsArgs.1 hx
      have hle := depth_le_of_mem ha
      exact Built.of_mem_subs n (by omega) ((h.args rfl).1 a ha) x hx

/-- What is built is confusable with itself. -/
theorem Built.confusable_self (n : ℕ) : ∀ {s : LpExpr}, depth s ≤ n → Built s → Confusable s s := by
  induction n with
  | zero =>
    intro s hn h
    cases s with
    | str s => exact .str s
    | num q => exact .num q
    | expr args => simp [depth] at hn
  | succ n ih =>
    intro s hn h
    cases s with
    | str s => exact .str s
    | num q => exact .num q
    | expr args =>
      unfold depth at hn
      have hself : ∀ a ∈ args, Confusable a a := fun a ha => by
        have hle := depth_le_of_mem ha
        exact ih (by omega) ((h.args rfl).1 a ha)
      cases hc : isCommutative args with
      | true => exact .set hc rfl fun _ => Iff.rfl
      | false =>
        cases he : isEquality args with
        | true =>
          obtain ⟨o, a, b, rfl⟩ := (h.args rfl).2 he
          exact .equality he (hself a (by simp)) (hself b (by simp))
        | false => exact .args hc he (List.forall₂_same.2 hself)

/-! ## Sets of arguments -/

section Sets

variable {same : LpExpr → LpExpr → Bool} {s l : List LpExpr}

/-- Adding elements, where comparing them tells whether they are the same. -/
theorem foldl_setAdd : ∀ {l s : List LpExpr}, (∀ x ∈ s ++ l, ∀ y ∈ s ++ l, same x y = true ↔ x = y) → s.Nodup →
    (l.foldl (setAdd same) s).Nodup ∧ ∀ x, x ∈ l.foldl (setAdd same) s ↔ x ∈ s ∨ x ∈ l
  | [], s, _, hs => ⟨hs, fun x => by simp⟩
  | a :: l, s, h, hs => by
    have hany : s.any (same · a) = true ↔ a ∈ s := by
      simp only [List.any_eq_true]
      constructor
      · rintro ⟨y, hy, hya⟩
        rw [← (h y (List.mem_append_left _ hy) a (by simp)).1 hya]
        exact hy
      · intro ha
        exact ⟨a, ha, (h a (by simp) a (by simp)).2 rfl⟩
    rw [List.foldl_cons]
    by_cases ha : a ∈ s
    · have hset : setAdd same s a = s := if_pos (hany.2 ha)
      rw [hset]
      have hsub : s ++ l ⊆ s ++ a :: l := fun x hx => by
        rcases List.mem_append.1 hx with hx | hx
        · exact List.mem_append_left _ hx
        · exact List.mem_append_right _ (List.mem_cons_of_mem _ hx)
      obtain ⟨hnodup, hmem⟩ := foldl_setAdd (fun x hx y hy => h x (hsub hx) y (hsub hy)) hs
      refine ⟨hnodup, fun x => (hmem x).trans ?_⟩
      rw [List.mem_cons]
      refine ⟨fun hx => hx.imp_right .inr, fun hx => ?_⟩
      rcases hx with hx | rfl | hx
      · exact .inl hx
      · exact .inl ha
      · exact .inr hx
    · have hset : setAdd same s a = s ++ [a] := if_neg fun hx => ha (hany.1 hx)
      rw [hset]
      have hs' : (s ++ [a]).Nodup := hs.append (List.nodup_singleton a) (List.disjoint_singleton.2 ha)
      obtain ⟨hnodup, hmem⟩ := foldl_setAdd (l := l) (s := s ++ [a]) (by simpa using h) hs'
      refine ⟨hnodup, fun x => (hmem x).trans ?_⟩
      rw [List.mem_append, List.mem_singleton, List.mem_cons, or_assoc]

theorem setEq_iff (h : ∀ x ∈ as ++ bs, ∀ y ∈ as ++ bs, same x y = true ↔ x = y) :
    setEq same as bs = true ↔ ∀ x, x ∈ as ↔ x ∈ bs := by
  have hspec : ∀ l ⊆ as ++ bs, (toSet same l).Nodup ∧ ∀ x, x ∈ toSet same l ↔ x ∈ l := fun l hl => by
    have hsame : ∀ x ∈ [] ++ l, ∀ y ∈ [] ++ l, same x y = true ↔ x = y := fun x hx y hy =>
      h x (hl (by simpa using hx)) y (hl (by simpa using hy))
    obtain ⟨hnodup, hmem⟩ := foldl_setAdd hsame .nil
    exact ⟨hnodup, fun x => (hmem x).trans (by simp)⟩
  obtain ⟨has, hasm⟩ := hspec as (List.subset_append_left _ _)
  obtain ⟨hbs, hbsm⟩ := hspec bs (List.subset_append_right _ _)
  have hall : (toSet same as).all (fun x => (toSet same bs).any (same · x)) = true ↔ toSet same as ⊆ toSet same bs := by
    simp only [List.all_eq_true, List.any_eq_true]
    constructor
    · intro hx x hxa
      obtain ⟨y, hy, hyx⟩ := hx x hxa
      have hya : y ∈ as ++ bs := List.mem_append_right _ ((hbsm y).1 hy)
      have hxb : x ∈ as ++ bs := List.mem_append_left _ ((hasm x).1 hxa)
      rw [← (h y hya x hxb).1 hyx]
      exact hy
    · intro hsub x hxa
      have hxb : x ∈ as ++ bs := List.mem_append_left _ ((hasm x).1 hxa)
      exact ⟨x, hsub hxa, (h x hxb x hxb).2 rfl⟩
  unfold setEq
  rw [Bool.and_eq_true, decide_eq_true_eq, hall]
  constructor
  · rintro ⟨hlen, hsub⟩ x
    have hperm := (has.subperm hsub).perm_of_length_le hlen.ge
    rw [← hasm, ← hbsm]
    exact hperm.mem_iff
  · intro hiff
    have hperm : (toSet same as).Perm (toSet same bs) := (List.perm_ext_iff_of_nodup has hbs).2 fun x => by
      rw [hasm, hbsm, hiff]
    exact ⟨hperm.length_eq, hperm.subset⟩

end Sets

/-! ## What is found equal -/

theorem isEquality_of_isCommutative (h : isCommutative as = true) : isEquality as = false := by
  unfold isCommutative at h
  unfold isEquality
  split at h
  · rename_i op args
    by_contra hne
    have hop : op = "EQ" ∨ op = "NOTEQ" := by simpa [or_iff_not_imp_left] using hne
    rcases hop with rfl | rfl <;> simp at h
  · cases h

theorem tupleEq_iff {eq : LpExpr → LpExpr → Bool} : ∀ {as bs : List LpExpr}, as.length = bs.length →
    (∀ a ∈ as, ∀ b ∈ bs, eq a b = true ↔ Confusable a b) → (tupleEq eq as bs = true ↔ List.Forall₂ Confusable as bs)
  | [], [], _, _ => by simp [tupleEq]
  | a :: as, b :: bs, hlen, h => by
    rw [tupleEq, Bool.and_eq_true, List.forall₂_cons, h a (by simp) b (by simp),
      tupleEq_iff (Nat.succ.inj hlen) fun x hx y hy => h x (by simp [hx]) y (by simp [hy])]
  | [], b :: bs, hlen, _ => by simp at hlen
  | a :: as, [], hlen, _ => by simp at hlen

/-- Among expressions that are built, with their parts, and whose hashes do not collide, `__eq__` tells whether
two are confusable. -/
theorem eqFuel_iff {D : Set LpExpr} (hargs : ∀ as, .expr as ∈ D → ∀ a ∈ as, a ∈ D) (hb : ∀ s ∈ D, Built s)
    (hinj : ∀ a ∈ D, ∀ b ∈ D, hash H a = hash H b → a = b) : ∀ (fuel : ℕ) (s t : LpExpr), s ∈ D → t ∈ D →
      depth s ≤ fuel → depth t ≤ fuel → (eqFuel H fuel s t = true ↔ Confusable s t)
  | fuel, .str s, .str t, _, _, _, _ => by
    simp only [eqFuel, decide_eq_true_eq]
    exact ⟨fun h => h ▸ .str s, fun h => by cases h; rfl⟩
  | fuel, .num p, .num q, _, _, _, _ => by
    simp only [eqFuel, decide_eq_true_eq]
    exact ⟨fun h => h ▸ .num p, fun h => by cases h; rfl⟩
  | fuel, .str s, .num q, _, _, _, _ => by
    simp only [eqFuel, Bool.false_eq_true, false_iff]
    exact nofun
  | fuel, .str s, .expr bs, _, _, _, _ => by
    simp only [eqFuel, Bool.false_eq_true, false_iff]
    exact nofun
  | fuel, .num p, .str t, _, _, _, _ => by
    simp only [eqFuel, Bool.false_eq_true, false_iff]
    exact nofun
  | fuel, .num p, .expr bs, _, _, _, _ => by
    simp only [eqFuel, Bool.false_eq_true, false_iff]
    exact nofun
  | fuel, .expr as, .str t, _, _, _, _ => by
    simp only [eqFuel, Bool.false_eq_true, false_iff]
    exact nofun
  | fuel, .expr as, .num q, _, _, _, _ => by
    simp only [eqFuel, Bool.false_eq_true, false_iff]
    exact nofun
  | 0, .expr as, .expr bs, _, _, hs, _ => by simp [depth] at hs
  | fuel + 1, .expr as, .expr bs, has, hbs, hs, ht => by
    unfold depth at hs ht
    have hmem : ∀ a ∈ as ++ bs, a ∈ D ∧ depth a ≤ fuel := fun a ha => by
      rcases List.mem_append.1 ha with ha | ha
      · exact ⟨hargs as has a ha, (depth_le_of_mem ha).trans (by omega)⟩
      · exact ⟨hargs bs hbs a ha, (depth_le_of_mem ha).trans (by omega)⟩
    have ih : ∀ a ∈ as ++ bs, ∀ b ∈ as ++ bs, eqFuel H fuel a b = true ↔ Confusable a b := fun a ha b hb' =>
      eqFuel_iff hargs hb hinj fuel a b (hmem a ha).1 (hmem b hb').1 (hmem a ha).2 (hmem b hb').2
    unfold eqFuel
    by_cases hlen : as.length = bs.length
    swap
    · rw [if_pos hlen]
      simp only [Bool.false_eq_true, false_iff]
      intro h
      cases h with
      | set _ h _ => exact hlen h
      | equality => exact hlen rfl
      | swapped => exact hlen rfl
      | args _ _ h => exact hlen h.length_eq
    rw [if_neg (not_not_intro hlen)]
    cases hc : isCommutative as with
    | true =>
      rw [if_pos rfl, setEq_iff]
      · refine ⟨fun h => .set hc hlen h, fun h => ?_⟩
        cases h with
        | set _ _ h => exact h
        | equality he => simp [isEquality_of_isCommutative hc] at he
        | swapped he => simp [isEquality_of_isCommutative hc] at he
        | args hc' => simp [hc] at hc'
      · intro x hx y hy
        rw [Bool.and_eq_true, decide_eq_true_eq, ih x hx y hy]
        refine ⟨fun h => hinj x (hmem x hx).1 y (hmem y hy).1 h.1, fun h => ⟨h ▸ rfl, ?_⟩⟩
        subst h
        exact (hb x (hmem x hx).1).confusable_self _ le_rfl
    | false =>
      rw [if_neg (by simp)]
      cases he : isEquality as with
      | true =>
        rw [if_pos rfl]
        obtain ⟨o, a₁, a₂, rfl⟩ := ((hb _ has).args rfl).2 he
        obtain ⟨o', b₁, b₂, rfl⟩ : ∃ o' b₁ b₂, bs = [o', b₁, b₂] := List.length_eq_three.1 hlen.symm
        dsimp only
        rw [Bool.or_eq_true, Bool.and_eq_true, Bool.and_eq_true, ih a₁ (by simp) b₁ (by simp),
          ih a₂ (by simp) b₂ (by simp), ih a₁ (by simp) b₂ (by simp), ih a₂ (by simp) b₁ (by simp)]
        constructor
        · rintro (⟨h₁, h₂⟩ | ⟨h₁, h₂⟩)
          · exact .equality he h₁ h₂
          · exact .swapped he h₁ h₂
        · intro h
          cases h with
          | set hc' => simp [hc] at hc'
          | equality _ h₁ h₂ => exact .inl ⟨h₁, h₂⟩
          | swapped _ h₁ h₂ => exact .inr ⟨h₁, h₂⟩
          | args _ he' => simp [he] at he'
      | false =>
        rw [if_neg (by simp), tupleEq_iff hlen fun a ha b hb' => ih a (by simp [ha]) b (by simp [hb'])]
        refine ⟨fun h => .args hc he h, fun h => ?_⟩
        cases h with
        | set hc' => simp [hc] at hc'
        | equality he' => simp [he] at he'
        | swapped he' => simp [he] at he'
        | args _ _ h => exact h

theorem eq_iff_confusable (hs : Built s) (ht : Built t) (hH : NoCollision H s t) :
    eq H s t = true ↔ Confusable s t := by
  refine eqFuel_iff (D := {x | x ∈ subs s ++ subs t}) (fun as has a ha => ?_) (fun x hx => ?_) hH _ s t
    (List.mem_append_left _ (self_mem_subs s)) (List.mem_append_right _ (self_mem_subs t))
    (le_max_left _ _) (le_max_right _ _)
  · rcases List.mem_append.1 has with has | has
    · exact List.mem_append_left _ (mem_subs_of_arg _ le_rfl has ha)
    · exact List.mem_append_right _ (mem_subs_of_arg _ le_rfl has ha)
  · rcases List.mem_append.1 hx with hx | hx
    · exact hs.of_mem_subs _ le_rfl x hx
    · exact ht.of_mem_subs _ le_rfl x hx

/-- Equality keeps its promise for two expressions that are the same, and otherwise exactly for those that are
neither confusable nor reordered. -/
theorem expressionEq_sound_iff (hs : Built s) (ht : Built t) (hH : NoCollision H s t) :
    EqualitySound H s t ↔ s = t ∨ ¬Confusable s t ∧ ¬Reordered s t := by
  have heq := eq_iff_confusable hs ht hH
  have hhash : hash H s = hash H t → s = t :=
    hH s (List.mem_append_left _ (self_mem_subs s)) t (List.mem_append_right _ (self_mem_subs t))
  constructor
  · rintro ⟨hsound, hreordered⟩
    by_cases hst : s = t
    · exact .inl hst
    · exact .inr ⟨fun hc => hst (hhash (hsound (heq.2 hc)).1), fun hr => hst (hhash (hsound (hreordered hr)).1)⟩
  · rintro (rfl | ⟨hc, hr⟩)
    · exact ⟨fun _ => ⟨rfl, fun _ => rfl⟩, fun _ => heq.2 (hs.confusable_self _ le_rfl)⟩
    · exact ⟨fun h => absurd (heq.1 h) hc, fun h => absurd h hr⟩

/-- Hashes that tell the expressions below apart. -/
def smallHashes : Hashes where
  str s := ["VAR", "AND", "OR", "ARITH", "plus", "times", "x", "y"].idxOf s
  num q := q.num
  tuple hs := hs.foldl (fun h x => 1009 * h + x) 7

def varX : LpExpr := makeVariable [.str "x"]

def varY : LpExpr := makeVariable [.str "y"]

theorem built_var (name : String) : Built (LpExpr.makeVariable [.str name]) :=
  .makeVariable fun a ha => by
    rw [List.mem_singleton.1 ha]
    exact .str name

/-- The sum of x and y, and their product. -/
theorem expressionEq_sound_iff_sum : EqualitySound smallHashes (makeArith "plus" [varX, varY])
      (makeArith "times" [varX, varY]) ↔ makeArith "plus" [varX, varY] = makeArith "times" [varX, varY]
    ∨ ¬Confusable (makeArith "plus" [varX, varY]) (makeArith "times" [varX, varY])
      ∧ ¬Reordered (makeArith "plus" [varX, varY]) (makeArith "times" [varX, varY]) :=
  expressionEq_sound_iff
    (.makeArith "plus" (List.forall_mem_cons.2 ⟨built_var "x", List.forall_mem_singleton.2 (built_var "y")⟩))
    (.makeArith "times" (List.forall_mem_cons.2 ⟨built_var "x", List.forall_mem_singleton.2 (built_var "y")⟩))
    (by decide +kernel)

/-- x + x + y equals x + y + y, and x ∨ (x ∧ y) does not equal x ∨ (y ∧ x). -/
theorem not_expressionEq_sound :
    (Built (makeArith "plus" [varX, varX, varY]) ∧ Built (makeArith "plus" [varX, varY, varY])
      ∧ NoCollision smallHashes (makeArith "plus" [varX, varX, varY]) (makeArith "plus" [varX, varY, varY])
      ∧ ¬EqualitySound smallHashes (makeArith "plus" [varX, varX, varY]) (makeArith "plus" [varX, varY, varY]))
    ∧ ¬EqualitySound smallHashes (makeOr [varX, makeAnd [varX, varY]]) (makeOr [varX, makeAnd [varY, varX]]) := by
  have hx := built_var "x"
  have hy := built_var "y"
  refine ⟨⟨.makeArith "plus" fun a ha => ?_, .makeArith "plus" fun a ha => ?_, by decide +kernel, fun h => ?_⟩,
    fun h => ?_⟩
  · simp only [List.mem_cons, List.not_mem_nil, or_false] at ha
    rcases ha with rfl | rfl | rfl <;> assumption
  · simp only [List.mem_cons, List.not_mem_nil, or_false] at ha
    rcases ha with rfl | rfl | rfl <;> assumption
  · have hvalue := (h.1 (by decide +kernel)).2 fun args => if args = [.str "x"] then 1 else 2
    exact absurd hvalue (by decide +kernel)
  · have hswap : Reordered (.expr ([.str "AND"] ++ [varX, varY])) (.expr ([.str "AND"] ++ [varY, varX])) :=
      .perm (.inl ⟨"AND", by simp, rfl⟩) (.swap _ _ _)
    exact absurd (h.2 (.args (.cons (.refl _) (.cons (.refl _) (.cons hswap .nil))))) (by decide +kernel)

end LpExpr

end Congress
