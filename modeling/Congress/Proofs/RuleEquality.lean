import Mathlib.Data.Prod.Lex
import Mathlib.Data.Sum.Order
import Mathlib.Data.String.Basic
import Mathlib.Order.WithBot
import Congress.LiteralOrder

/-!
# Equal rules

Literals can be compared unless one has a modal and the other has none, or the first arguments or names that
differ are a string and a number, or their positional and their named arguments are in opposite orders. On
literals that can be compared the order is that of keys, so that what sorts them is right; on others it is not
even an order (`ruleEquality_iff`).
-/

namespace Congress

open Lib

set_option linter.unusedSectionVars false

/-! ## Which literals can be compared -/

/-- Both are strings, or both are numbers, unless one is a variable. -/
def Term.Comparable : Term ObjectConstant → Term ObjectConstant → Prop
  | .object c, .object c' => c.native.isLeft = c'.native.isLeft
  | _, _ => True

/-- Both columns are numbers, or both are names, and then what they are given can be compared. -/
def NamedComparable (a a' : (ℕ ⊕ String) × Term ObjectConstant) : Prop :=
  a.1.isLeft = a'.1.isLeft ∧ (a.1 = a'.1 → a.2.Comparable a'.2)

/-- Constants in a linear order, as far as they are compared. -/
def ObjectConstant.key (c : ObjectConstant) : String ⊕ₗ (Number ×ₗ String) :=
  match c.native with
  | .inl s => Sum.inlₗ s
  | .inr n => Sum.inrₗ (toLex (n, c.type))

/-- Terms in a linear order, as far as they are compared: variables and constants. -/
def Term.key : Term ObjectConstant → String ⊕ₗ (String ⊕ₗ (Number ×ₗ String))
  | .variable x => Sum.inlₗ x
  | .object c => Sum.inrₗ c.key

def namedKey (a : (ℕ ⊕ String) × Term ObjectConstant) :
    (ℕ ⊕ₗ String) ×ₗ (String ⊕ₗ (String ⊕ₗ (Number ×ₗ String))) := toLex (toLex a.1, a.2.key)

def noneFirst : Option String → WithBot String
  | none => ⊥
  | some s => s

def Tablename.key (t : Tablename) : WithBot String ×ₗ WithBot String ×ₗ String :=
  toLex (noneFirst t.modal, toLex (noneFirst t.service, t.table))

/-- Two literals of which the arguments are compared. -/
def Literal.SameShape (l l' : Literal ObjectConstant) : Prop :=
  l.table = l'.table ∧ l.negated = l'.negated ∧ l.arguments.length = l'.arguments.length
    ∧ l.namedArguments.length = l'.namedArguments.length

/-- The positional arguments are not in the opposite order of the named ones. -/
def Literal.SameDirection (l l' : Literal ObjectConstant) : Prop :=
  ¬(l.arguments.map Term.key < l'.arguments.map Term.key
    ∧ l'.namedArguments.map namedKey < l.namedArguments.map namedKey)

/-- The comparison of two literals does not raise, and is the opposite of that of the second and the first. -/
structure Literal.Comparable (l l' : Literal ObjectConstant) : Prop where
  modal : l.table.modal.isSome = l'.table.modal.isSome
  arguments : l.SameShape l' → ∀ p, firstDifference l.arguments l'.arguments = some p → p.1.Comparable p.2
  named : l.SameShape l' →
    ∀ p, firstDifference l.namedArguments l'.namedArguments = some p → NamedComparable p.1 p.2
  direction : l.SameShape l' → l.SameDirection l' ∧ l'.SameDirection l

/-! ## Keys -/

variable {t t' : Term ObjectConstant} {l l' : Literal ObjectConstant}

namespace ObjectConstant

variable {c c' : ObjectConstant}

theorem native_type_injective (hnative : c.native = c'.native) (htype : c.type = c'.type) : c = c' := by
  have hne : "INTEGER" ≠ "FLOAT" := by decide
  rcases c with s | i | n <;> rcases c' with s' | i' | n'
  · exact congrArg string (Sum.inl.inj hnative)
  · cases hnative
  · cases hnative
  · cases hnative
  · have hcast : ((i : ℚ) : WithTop ℚ) = ((i' : ℚ) : WithTop ℚ) := WithBot.coe_inj.1 (Sum.inr.inj hnative)
    exact congrArg integer (Rat.intCast_inj.1 (WithTop.coe_inj.1 hcast))
  · exact absurd htype hne
  · cases hnative
  · exact absurd htype hne.symm
  · exact congrArg float (Sum.inr.inj hnative)

theorem type_eq_of_left {s : String} (h : c.native = .inl s) : c.type = "STRING" := by
  rcases c with s | i | n
  · rfl
  · cases h
  · cases h

theorem key_eq_iff : c.key = c'.key ↔ c = c' := by
  refine ⟨fun h => ?_, fun h => h ▸ rfl⟩
  rw [key, key] at h
  rcases hc : c.native with s | n <;> rcases hc' : c'.native with s' | n' <;> rw [hc, hc'] at h
  · have hs : s = s' := Sum.inl.inj (toLex.injective h)
    exact native_type_injective (by rw [hc, hc', hs]) (by rw [type_eq_of_left hc, type_eq_of_left hc'])
  · cases toLex.injective h
  · cases toLex.injective h
  · have hpair : (n, c.type) = (n', c'.type) := toLex.injective (Sum.inr.inj (toLex.injective h))
    exact native_type_injective (by rw [hc, hc', (Prod.mk.inj hpair).1]) (Prod.mk.inj hpair).2

theorem byKey : ByKey lt key := by
  intro c c' x hx
  rw [lt] at hx
  rw [key, key]
  rcases hc : c.native with s | n <;> rcases hc' : c'.native with s' | n' <;> rw [hc, hc'] at hx
  · rw [Sum.Lex.inl_lt_inl_iff]
    split_ifs at hx with hs
    · rw [← Except.ok.inj hx, decide_eq_true_eq]
    · obtain rfl : s = s' := Sum.inl.inj (not_not.1 hs)
      rw [type_eq_of_left hc, type_eq_of_left hc'] at hx
      simp [← Except.ok.inj hx]
  · cases hx
  · cases hx
  · rw [Sum.Lex.inr_lt_inr_iff]
    split_ifs at hx with hn
    · rw [← Except.ok.inj hx, decide_eq_true_eq, lex_lt_iff_fst (by simpa using hn)]
    · obtain rfl : n = n' := Sum.inr.inj (not_not.1 hn)
      rw [← Except.ok.inj hx, decide_eq_true_eq, lex_lt_iff_snd]

theorem compares_iff : Compares lt c c' ↔ c.native.isLeft = c'.native.isLeft := by
  rw [Compares, lt]
  rcases hc : c.native with s | n <;> rcases hc' : c'.native with s' | n'
  · split_ifs <;> simp
  · simp
  · simp
  · split_ifs <;> simp

end ObjectConstant

theorem term_key_injective : Function.Injective Term.key := by
  rintro (x | c) (x' | c') h
  · exact congrArg Term.variable (Sum.inl.inj (toLex.injective h))
  · cases toLex.injective h
  · cases toLex.injective h
  · exact congrArg Term.object (ObjectConstant.key_eq_iff.1 (Sum.inr.inj (toLex.injective h)))

theorem byKey_term : ByKey Term.lt Term.key := by
  rintro (x | c) (x' | c') b hb
  · rw [Term.key, Term.key, Sum.Lex.inl_lt_inl_iff, ← Except.ok.inj hb, decide_eq_true_eq]
  · rw [← Except.ok.inj hb]
    exact iff_of_true rfl (Sum.Lex.inl_lt_inr x c'.key)
  · rw [← Except.ok.inj hb]
    exact iff_of_false Bool.false_ne_true Sum.Lex.not_inr_lt_inl
  · rw [Term.key, Term.key, Sum.Lex.inr_lt_inr_iff]
    exact ObjectConstant.byKey c c' b hb

theorem compares_term_iff : ∀ {t t' : Term ObjectConstant}, Compares Term.lt t t' ↔ t.Comparable t'
  | .variable _, .variable _ => iff_of_true ⟨_, rfl⟩ trivial
  | .variable _, .object _ => iff_of_true ⟨_, rfl⟩ trivial
  | .object _, .variable _ => iff_of_true ⟨_, rfl⟩ trivial
  | .object _, .object _ => ObjectConstant.compares_iff

theorem Term.Comparable.symm : ∀ {t t' : Term ObjectConstant}, t.Comparable t' → t'.Comparable t
  | .variable _, .variable _, _ => trivial
  | .variable _, .object _, _ => trivial
  | .object _, .variable _, _ => trivial
  | .object _, .object _, h => Eq.symm h

theorem Term.comparable_refl : ∀ t : Term ObjectConstant, t.Comparable t
  | .variable _ => trivial
  | .object _ => rfl

/-! ## Named arguments -/

theorem namedKey_injective : Function.Injective namedKey := by
  rintro ⟨k, t⟩ ⟨k', t'⟩ h
  have hpair := Prod.mk.inj (toLex.injective h)
  exact Prod.ext (toLex.injective hpair.1) (term_key_injective hpair.2)

theorem byKey_column : ByKey columnLt toLex := by
  rintro (i | name) (i' | name') b hb
  · rw [Sum.Lex.inl_lt_inl_iff, ← Except.ok.inj hb, decide_eq_true_eq]
  · cases hb
  · cases hb
  · rw [Sum.Lex.inr_lt_inr_iff, ← Except.ok.inj hb, decide_eq_true_eq]

theorem compares_column_iff : ∀ {k k' : ℕ ⊕ String}, Compares columnLt k k' ↔ k.isLeft = k'.isLeft
  | .inl _, .inl _ => iff_of_true ⟨_, rfl⟩ rfl
  | .inl _, .inr _ => iff_of_false (fun ⟨_, h⟩ => by cases h) (by simp)
  | .inr _, .inl _ => iff_of_false (fun ⟨_, h⟩ => by cases h) (by simp)
  | .inr _, .inr _ => iff_of_true ⟨_, rfl⟩ rfl

theorem byKey_named : ByKey namedLt namedKey := by
  rintro ⟨k, t⟩ ⟨k', t'⟩ b hb
  rw [namedLt] at hb
  rw [namedKey, namedKey]
  dsimp only at hb ⊢
  split_ifs at hb with hk ht
  · rw [lex_lt_iff_fst (toLex.injective.ne hk)]
    exact byKey_column k k' b hb
  · rw [not_not.1 hk, lex_lt_iff_snd]
    exact byKey_term t t' b hb
  · rw [not_not.1 hk, not_not.1 ht, ← Except.ok.inj hb]
    simp

theorem compares_named_iff {a a' : (ℕ ⊕ String) × Term ObjectConstant} :
    Compares namedLt a a' ↔ NamedComparable a a' := by
  obtain ⟨k, t⟩ := a
  obtain ⟨k', t'⟩ := a'
  rw [Compares, namedLt, NamedComparable]
  dsimp only
  by_cases hk : k = k'
  · rw [if_neg (not_not.2 hk), hk]
    by_cases ht : t = t'
    · rw [if_neg (not_not.2 ht), ht]
      exact iff_of_true ⟨_, rfl⟩ ⟨rfl, fun _ => t'.comparable_refl⟩
    · rw [if_pos ht]
      exact compares_term_iff.trans (by simp)
  · rw [if_pos hk]
    exact compares_column_iff.trans (by simp [hk])

theorem NamedComparable.symm {a a' : (ℕ ⊕ String) × Term ObjectConstant} (h : NamedComparable a a') :
    NamedComparable a' a := ⟨h.1.symm, fun hk => (h.2 hk.symm).symm⟩

/-! ## Names of tables -/

theorem noneFirst_injective : Function.Injective noneFirst
  | none, none, _ => rfl
  | none, some s, h => absurd h (WithBot.bot_ne_coe (a := s))
  | some s, none, h => absurd h (WithBot.coe_ne_bot (a := s))
  | some _, some _, h => congrArg some (WithBot.coe_inj.1 h)

theorem compares_tablename_iff {t t' : Tablename} :
    Compares Tablename.lt t t' ↔ t.modal.isSome = t'.modal.isSome := by
  rw [Compares, Tablename.lt]
  by_cases hm : t.modal = t'.modal
  · rw [if_neg (not_not.2 hm), hm]
    refine iff_of_true ?_ rfl
    rcases t.service with _ | s <;> rcases t'.service with _ | s' <;> split_ifs <;> exact ⟨_, rfl⟩
  · rw [if_pos hm]
    rcases hm' : t.modal with _ | m <;> rcases hm'' : t'.modal with _ | m'
    · exact absurd (hm'.trans hm''.symm) hm
    · refine iff_of_false ?_ (by simp)
      rintro ⟨_, h⟩
      cases h
    · refine iff_of_false ?_ (by simp)
      rintro ⟨_, h⟩
      cases h
    · exact iff_of_true ⟨_, rfl⟩ rfl

theorem byKey_tablename : ByKey Tablename.lt Tablename.key := by
  rintro ⟨service, table, modal⟩ ⟨service', table', modal'⟩ b hb
  rw [Tablename.lt] at hb
  rw [Tablename.key, Tablename.key]
  dsimp only at hb ⊢
  split_ifs at hb with hm hs ht
  · rw [lex_lt_iff_fst (noneFirst_injective.ne hm)]
    rcases modal with _ | m <;> rcases modal' with _ | m'
    · exact absurd rfl hm
    · cases hb
    · cases hb
    · rw [← Except.ok.inj hb, decide_eq_true_eq]
      exact WithBot.coe_lt_coe.symm
  · rw [not_not.1 hm, lex_lt_iff_snd, lex_lt_iff_fst (noneFirst_injective.ne hs)]
    rcases service with _ | s <;> rcases service' with _ | s'
    · exact absurd rfl hs
    · rw [← Except.ok.inj hb]
      exact iff_of_true rfl (WithBot.bot_lt_coe s')
    · rw [← Except.ok.inj hb]
      exact iff_of_false Bool.false_ne_true not_lt_bot
    · rw [← Except.ok.inj hb, decide_eq_true_eq]
      exact WithBot.coe_lt_coe.symm
  · rw [not_not.1 hm, not_not.1 hs, lex_lt_iff_snd, lex_lt_iff_snd, ← Except.ok.inj hb, decide_eq_true_eq]
  · rw [not_not.1 hm, not_not.1 hs, not_not.1 ht, ← Except.ok.inj hb]
    simp

theorem tablename_key_injective : Function.Injective Tablename.key := by
  rintro ⟨service, table, modal⟩ ⟨service', table', modal'⟩ h
  have houter := Prod.mk.inj (toLex.injective h)
  have hinner := Prod.mk.inj (toLex.injective houter.2)
  have hm : modal = modal' := noneFirst_injective houter.1
  have hs : service = service' := noneFirst_injective hinner.1
  have ht : table = table' := hinner.2
  rw [hm, hs, ht]

/-! ## Literals -/

namespace Literal

/-- Literals in a linear order, that of those that can be compared. -/
def orderKey (l : Literal ObjectConstant) := toLex (l.table.key, toLex (l.negated, toLex (l.arguments.length,
  toLex (l.namedArguments.length, toLex (l.arguments.map Term.key, l.namedArguments.map namedKey)))))

theorem orderKey_injective : Function.Injective orderKey := by
  rintro ⟨table, arguments, negated, named⟩ ⟨table', arguments', negated', named'⟩ h
  obtain ⟨htable, h⟩ := Prod.mk.inj (toLex.injective h)
  obtain ⟨hnegated, h⟩ := Prod.mk.inj (toLex.injective h)
  obtain ⟨-, h⟩ := Prod.mk.inj (toLex.injective h)
  obtain ⟨-, h⟩ := Prod.mk.inj (toLex.injective h)
  obtain ⟨harguments, hnamed⟩ := Prod.mk.inj (toLex.injective h)
  rw [Literal.mk.injEq]
  exact ⟨tablename_key_injective htable, term_key_injective.list_map harguments, hnegated,
    namedKey_injective.list_map hnamed⟩

theorem SameShape.symm (h : l.SameShape l') : l'.SameShape l := ⟨h.1.symm, h.2.1.symm, h.2.2.1.symm, h.2.2.2.symm⟩

theorem Comparable.symm (h : l.Comparable l') : l'.Comparable l where
  modal := h.modal.symm
  arguments hshape _ hp := (h.arguments hshape.symm _ (firstDifference_swap hp)).symm
  named hshape _ hp := (h.named hshape.symm _ (firstDifference_swap hp)).symm
  direction hshape := (h.direction hshape.symm).symm

theorem lt_of_sameShape (h : l.SameShape l') : l.lt l' = (listLt Term.lt l.arguments l'.arguments).bind fun b =>
    if b = true then .ok true else listLt namedLt l.namedArguments l'.namedArguments := by
  rw [lt, if_neg (not_not.2 h.1), if_neg (not_not.2 h.2.1), if_neg (not_not.2 h.2.2.1), if_neg (not_not.2 h.2.2.2)]
  rfl

theorem orderKey_lt_of_sameShape (h : l.SameShape l') : l.orderKey < l'.orderKey
    ↔ toLex (l.arguments.map Term.key, l.namedArguments.map namedKey)
      < toLex (l'.arguments.map Term.key, l'.namedArguments.map namedKey) := by
  rw [orderKey, orderKey, h.1, h.2.1, h.2.2.1, h.2.2.2, lex_lt_iff_snd, lex_lt_iff_snd, lex_lt_iff_snd, lex_lt_iff_snd]

theorem compares_arguments_iff : Compares (listLt Term.lt) l.arguments l'.arguments
    ↔ ∀ p, firstDifference l.arguments l'.arguments = some p → p.1.Comparable p.2 := by
  simp only [compares_listLt_iff, compares_term_iff]

theorem compares_namedArguments_iff : Compares (listLt namedLt) l.namedArguments l'.namedArguments
    ↔ ∀ p, firstDifference l.namedArguments l'.namedArguments = some p → NamedComparable p.1 p.2 := by
  simp only [compares_listLt_iff, compares_named_iff]

/-- Literals that can be compared are by their keys. -/
theorem Comparable.lt_eq (h : l.Comparable l') : l.lt l' = .ok (decide (l.orderKey < l'.orderKey)) := by
  by_cases htable : l.table = l'.table
  · by_cases hnegated : l.negated = l'.negated
    · by_cases harguments : l.arguments.length = l'.arguments.length
      · by_cases hnamed : l.namedArguments.length = l'.namedArguments.length
        · have hshape : l.SameShape l' := ⟨htable, hnegated, harguments, hnamed⟩
          have hlists := (byKey_term.list term_key_injective).eq_ok (compares_arguments_iff.2 (h.arguments hshape))
          have hnamed := (byKey_named.list namedKey_injective).eq_ok (compares_namedArguments_iff.2 (h.named hshape))
          have hkey := (orderKey_lt_of_sameShape hshape).trans Prod.Lex.toLex_lt_toLex
          rw [lt_of_sameShape hshape, hlists, hnamed]
          by_cases hlt : l.arguments.map Term.key < l'.arguments.map Term.key
          · simp [hlt, hkey.2 (.inl hlt), Except.bind]
          · have hiff : l.orderKey < l'.orderKey ↔ l.namedArguments.map namedKey < l'.namedArguments.map namedKey := by
              refine hkey.trans ⟨fun h => (h.resolve_left hlt).2, fun hlt' => .inr ⟨?_, hlt'⟩⟩
              exact le_antisymm (not_lt.1 fun hgt => (h.direction hshape).2 ⟨hgt, hlt'⟩) (not_lt.1 hlt)
            simp [hlt, hiff, Except.bind]
        · have hkey : l.orderKey < l'.orderKey ↔ l.namedArguments.length < l'.namedArguments.length := by
            rw [orderKey, orderKey, htable, hnegated, harguments, lex_lt_iff_snd, lex_lt_iff_snd, lex_lt_iff_snd,
              lex_lt_iff_fst hnamed]
          rw [lt, if_neg (not_not.2 htable), if_neg (not_not.2 hnegated), if_neg (not_not.2 harguments),
            if_pos hnamed, decide_eq_decide.2 hkey]
      · have hkey : l.orderKey < l'.orderKey ↔ l.arguments.length < l'.arguments.length := by
          rw [orderKey, orderKey, htable, hnegated, lex_lt_iff_snd, lex_lt_iff_snd, lex_lt_iff_fst harguments]
        rw [lt, if_neg (not_not.2 htable), if_neg (not_not.2 hnegated), if_pos harguments, decide_eq_decide.2 hkey]
    · have hkey : l.orderKey < l'.orderKey ↔ l.negated < l'.negated := by
        rw [orderKey, orderKey, htable, lex_lt_iff_snd, lex_lt_iff_fst hnegated]
      rw [lt, if_neg (not_not.2 htable), if_pos hnegated, decide_eq_decide.2 hkey]
  · have hkey : l.orderKey < l'.orderKey ↔ l.table.key < l'.table.key := by
      rw [orderKey, orderKey, lex_lt_iff_fst (tablename_key_injective.ne htable)]
    rw [lt, if_pos htable, byKey_tablename.eq_ok (compares_tablename_iff.2 h.modal), decide_eq_decide.2 hkey]

/-- What is compared of literals of one shape. -/
theorem of_lt_ok (hshape : l.SameShape l') {b : Bool} (hb : l.lt l' = .ok b) :
    Compares (listLt Term.lt) l.arguments l'.arguments
      ∧ (¬l.arguments.map Term.key < l'.arguments.map Term.key →
        Compares (listLt namedLt) l.namedArguments l'.namedArguments)
      ∧ (b = false → ¬l.arguments.map Term.key < l'.arguments.map Term.key
        ∧ ¬l.namedArguments.map namedKey < l'.namedArguments.map namedKey) := by
  rw [lt_of_sameShape hshape] at hb
  rcases hlists : listLt Term.lt l.arguments l'.arguments with e | c
  · rw [hlists] at hb
    cases hb
  · have hc := byKey_term.list term_key_injective _ _ _ hlists
    rw [hlists] at hb
    refine ⟨⟨c, hlists⟩, ?_⟩
    rw [← hc]
    rcases c with _ | _
    · have hnamed : listLt namedLt l.namedArguments l'.namedArguments = .ok b := hb
      have hkey := byKey_named.list namedKey_injective _ _ _ hnamed
      refine ⟨fun _ => ⟨b, hnamed⟩, fun hfalse => ⟨Bool.false_ne_true, ?_⟩⟩
      rw [← hkey, hfalse]
      exact Bool.false_ne_true
    · obtain rfl : true = b := Except.ok.inj hb
      exact ⟨fun h => absurd rfl h, fun h => by cases h⟩

/-- Comparing two literals does not raise, and exactly one of the comparisons holds unless they are equal. -/
def Ordered (l l' : Literal ObjectConstant) : Prop :=
  ∃ b b', l.lt l' = .ok b ∧ l'.lt l = .ok b' ∧ (l = l' ↔ b = false ∧ b' = false) ∧ ¬(b = true ∧ b' = true)

theorem ordered_iff : l.Ordered l' ↔ l.Comparable l' := by
  constructor
  · rintro ⟨b, b', hb, hb', -, hboth⟩
    refine ⟨?_, fun hshape => ?_, fun hshape => ?_, fun hshape => ?_⟩
    · by_cases htable : l.table = l'.table
      · rw [htable]
      · rw [lt, if_pos htable] at hb
        exact compares_tablename_iff.1 ⟨b, hb⟩
    · exact compares_arguments_iff.1 (of_lt_ok hshape hb).1
    · by_cases hlt : l.arguments.map Term.key < l'.arguments.map Term.key
      · have hnamed := compares_namedArguments_iff.1 ((of_lt_ok hshape.symm hb').2.1 (lt_asymm hlt))
        exact fun p hp => (hnamed _ (firstDifference_swap hp)).symm
      · exact compares_namedArguments_iff.1 ((of_lt_ok hshape hb).2.1 hlt)
    · have hfalse := (of_lt_ok hshape hb).2.2
      have hfalse' := (of_lt_ok hshape.symm hb').2.2
      refine ⟨fun hlt => ?_, fun hlt => ?_⟩
      · refine hboth ⟨Bool.eq_true_of_not_eq_false fun h => (hfalse h).1 hlt.1, ?_⟩
        exact Bool.eq_true_of_not_eq_false fun h => (hfalse' h).2 hlt.2
      · refine hboth ⟨Bool.eq_true_of_not_eq_false fun h => (hfalse h).2 hlt.2, ?_⟩
        exact Bool.eq_true_of_not_eq_false fun h => (hfalse' h).1 hlt.1
  · intro h
    refine ⟨_, _, h.lt_eq, h.symm.lt_eq, ?_, ?_⟩
    · rw [decide_eq_false_iff_not, decide_eq_false_iff_not, not_lt, not_lt, ← orderKey_injective.eq_iff]
      exact ⟨fun heq => ⟨heq.ge, heq.le⟩, fun hle => le_antisymm hle.2 hle.1⟩
    · rw [decide_eq_true_eq, decide_eq_true_eq]
      exact fun hlt => lt_asymm hlt.1 hlt.2

end Literal

/-! ## Rules -/

variable {S : Set (Literal ObjectConstant)} {H : Hashes} {r r' r'' : Rule ObjectConstant}

theorem keyedOn_of_comparable (h : ∀ l ∈ S, ∀ l' ∈ S, l.Comparable l') : KeyedOn Literal.lt Literal.orderKey S :=
  fun l hl l' hl' => (h l hl l' hl').lt_eq

namespace Rule

/-- All literals of the rule are in the set. -/
structure Over (S : Set (Literal ObjectConstant)) (r : Rule ObjectConstant) : Prop where
  heads : ∀ l ∈ r.heads, l ∈ S
  body : ∀ l ∈ r.body, l ∈ S

/-- The heads and the literals of the body are compared by their keys. -/
structure Sorts (r : Rule ObjectConstant) : Prop where
  heads : KeyedOn Literal.lt Literal.orderKey {l | l ∈ r.heads}
  body : KeyedOn Literal.lt Literal.orderKey {l | l ∈ r.body}

theorem Over.sorts (hr : r.Over S) (hS : KeyedOn Literal.lt Literal.orderKey S) : r.Sorts :=
  ⟨hS.mono hr.heads, hS.mono hr.body⟩

theorem eq_ok (hr : r.Sorts) (hr' : r'.Sorts) : r.eq r' = .ok (r.same r') := by
  obtain ⟨hs, hhs, -⟩ := sorted_ok hr.heads fun _ h => h
  obtain ⟨hs', hhs', -⟩ := sorted_ok hr'.heads fun _ h => h
  obtain ⟨bs, hbs, -⟩ := sorted_ok hr.body fun _ h => h
  obtain ⟨bs', hbs', -⟩ := sorted_ok hr'.body fun _ h => h
  have hheads := sorted_eq_iff hr.heads hr'.heads Literal.orderKey_injective (fun _ h => h) (fun _ h => h) hhs hhs'
  have hbody := sorted_eq_iff hr.body hr'.body Literal.orderKey_injective (fun _ h => h) (fun _ h => h) hbs hbs'
  have hsame : ∀ b : Bool, (b = true ↔ r.heads.Perm r'.heads ∧ r.body.Perm r'.body) → b = r.same r' := fun b hb =>
    Bool.eq_iff_iff.2 (hb.trans same_iff.symm)
  rw [eq]
  split_ifs with hlength hlength'
  · rw [← hsame false (iff_of_false Bool.false_ne_true fun h => hlength h.1.length_eq)]
  · rw [← hsame false (iff_of_false Bool.false_ne_true fun h => hlength' h.2.length_eq)]
  · rw [hhs, hhs', hbs, hbs']
    by_cases heq : hs = hs'
    · rw [← hsame (decide (bs = bs')) (by rw [decide_eq_true_eq, hbody, and_iff_right (hheads.1 heq)])]
      simp [heq, bind, Except.bind, pure, Except.pure]
    · rw [← hsame false (iff_of_false Bool.false_ne_true fun h => heq (hheads.2 h.1))]
      simp [heq, bind, Except.bind, pure, Except.pure]

theorem hash_ok (hr : r.Sorts) : ∃ k, r.hash H = .ok k := by
  obtain ⟨hs, hhs, -⟩ := sorted_ok hr.heads fun _ h => h
  obtain ⟨bs, hbs, -⟩ := sorted_ok hr.body fun _ h => h
  rw [hash, hhs, hbs]
  exact ⟨_, rfl⟩

theorem hash_eq_of_same (hr : r.Sorts) (h : r.same r' = true) : r.hash H = r'.hash H := by
  obtain ⟨hheads, hbody⟩ := same_iff.1 h
  rw [hash, hash, sorted_perm hr.heads Literal.orderKey_injective (fun _ h => h) hheads,
    sorted_perm hr.body Literal.orderKey_injective (fun _ h => h) hbody]

end Rule

/-! ## Sets of rules -/

variable {k : ℤ} {members members' : List (Rule ObjectConstant)}

theorem isSought_ok (hr : r.Sorts) (hr' : r'.Sorts) (hk : r.hash H = .ok k) :
    isSought H r k r' = .ok (r'.same r) := by
  obtain ⟨k', hk'⟩ := Rule.hash_ok (H := H) hr'
  rw [isSought, hk']
  by_cases heq : k' = k
  · rw [← Rule.eq_ok hr' hr]
    simp [heq, bind, Except.bind]
  · have hnot : r'.same r = false := Bool.eq_false_iff.2 fun hsame => by
      rw [Rule.hash_eq_of_same hr' hsame, hk] at hk'
      exact heq (Except.ok.inj hk').symm
    simp [heq, hnot, bind, Except.bind, pure, Except.pure]

/-- What is equal to a rule is found at the place where the rule is found. -/
theorem splitAtMember_ok (hS : KeyedOn Literal.lt Literal.orderKey S) (hr : r.Over S) (hr' : r'.Over S)
    (hk : r.hash H = .ok k) (hk' : r'.hash H = .ok k) (hsame : r.same r' = true) :
    ∀ {members members' : List (Rule ObjectConstant)}, List.Forall₂ (fun m m' => m.same m' = true) members members' →
    (∀ m ∈ members, m.Over S) → (∀ m ∈ members', m.Over S) →
    (splitAtMember H r k members = .ok none ∧ splitAtMember H r' k members' = .ok none)
      ∨ ∃ before after before' after', splitAtMember H r k members = .ok (some (before, after))
        ∧ splitAtMember H r' k members' = .ok (some (before', after'))
        ∧ List.Forall₂ (fun m m' => m.same m' = true) (before ++ after) (before' ++ after')
        ∧ (∀ m ∈ before ++ after, m ∈ members) ∧ ∀ m ∈ before' ++ after', m ∈ members'
  | [], [], _, _, _ => .inl ⟨rfl, rfl⟩
  | m :: members, m' :: members', hall, hover, hover' => by
    obtain ⟨hm, hrest⟩ := List.forall₂_cons.1 hall
    obtain ⟨hmS, hoverRest⟩ := List.forall_mem_cons.1 hover
    obtain ⟨hmS', hoverRest'⟩ := List.forall_mem_cons.1 hover'
    have heq : m.same r = m'.same r' := Bool.eq_iff_iff.2
      ⟨fun h => Rule.same_trans (Rule.same_symm hm) (Rule.same_trans h hsame),
        fun h => Rule.same_trans hm (Rule.same_trans h (Rule.same_symm hsame))⟩
    rw [splitAtMember, splitAtMember, isSought_ok (hr.sorts hS) (hmS.sorts hS) hk,
      isSought_ok (hr'.sorts hS) (hmS'.sorts hS) hk', ← heq]
    rcases hfound : m.same r with _ | _
    · rcases splitAtMember_ok hS hr hr' hk hk' hsame hrest hoverRest hoverRest' with
        ⟨hn, hn'⟩ | ⟨before, after, before', after', hs, hs', hlists, hsub, hsub'⟩
      · rw [hn, hn']
        exact .inl ⟨rfl, rfl⟩
      · rw [hs, hs']
        refine .inr ⟨m :: before, after, m' :: before', after', rfl, rfl, hlists.cons hm, ?_, ?_⟩
        · exact fun x hx => (List.mem_cons.1 hx).elim (fun h => h ▸ List.mem_cons_self ..) fun h =>
            List.mem_cons_of_mem m (hsub x h)
        · exact fun x hx => (List.mem_cons.1 hx).elim (fun h => h ▸ List.mem_cons_self ..) fun h =>
            List.mem_cons_of_mem m' (hsub' x h)
    · exact .inr ⟨[], members, [], members', rfl, rfl, hrest, fun x hx => List.mem_cons_of_mem m hx,
        fun x hx => List.mem_cons_of_mem m' hx⟩

/-- The same calls about rules that are equal. -/
inductive MemberCall.Alike : MemberCall → MemberCall → Prop
  | add {r r' : Rule ObjectConstant} (h : r.eq r' = .ok true) : Alike (.add r) (.add r')
  | discard {r r' : Rule ObjectConstant} (h : r.eq r' = .ok true) : Alike (.discard r) (.discard r')
  | contains {r r' : Rule ObjectConstant} (h : r.eq r' = .ok true) : Alike (.contains r) (.contains r')

theorem MemberCall.Alike.eq {call call' : MemberCall} (h : call.Alike call') : call.rule.eq call'.rule = .ok true := by
  cases h with
  | add h => exact h
  | discard h => exact h
  | contains h => exact h

/-- One call about equal rules. -/
theorem MemberCall.Alike.run_ok (hS : KeyedOn Literal.lt Literal.orderKey S) {call call' : MemberCall} (h : call.Alike call')
    (hr : call.rule.Over S) (hr' : call'.rule.Over S)
    (hall : List.Forall₂ (fun m m' => m.same m' = true) members members') (hover : ∀ m ∈ members, m.Over S)
    (hover' : ∀ m ∈ members', m.Over S) :
    ∃ after after' b, call.run H members = .ok (after, b) ∧ call'.run H members' = .ok (after', b)
      ∧ List.Forall₂ (fun m m' => m.same m' = true) after after' ∧ (∀ m ∈ after, m.Over S) ∧ ∀ m ∈ after', m.Over S := by
  obtain ⟨k, hk⟩ := Rule.hash_ok (H := H) (hr.sorts hS)
  have hsame : call.rule.same call'.rule = true :=
    Except.ok.inj ((Rule.eq_ok (hr.sorts hS) (hr'.sorts hS)).symm.trans h.eq)
  have hk' : call'.rule.hash H = .ok k := (Rule.hash_eq_of_same (hr.sorts hS) hsame).symm.trans hk
  rw [run, run, hk, hk']
  rcases splitAtMember_ok hS hr hr' hk hk' hsame hall hover hover' with
    ⟨hn, hn'⟩ | ⟨before, after, before', after', hs, hs', hlists, hsub, hsub'⟩
  · simp only [bind, Except.bind, hn, hn']
    cases h with
    | add h =>
      refine ⟨_, _, true, rfl, rfl, List.rel_append hall (.cons hsame .nil), ?_, ?_⟩
      · exact List.forall_mem_append.2 ⟨hover, List.forall_mem_singleton.2 hr⟩
      · exact List.forall_mem_append.2 ⟨hover', List.forall_mem_singleton.2 hr'⟩
    | discard h => exact ⟨_, _, false, rfl, rfl, hall, hover, hover'⟩
    | contains h => exact ⟨_, _, false, rfl, rfl, hall, hover, hover'⟩
  · simp only [bind, Except.bind, hs, hs']
    cases h with
    | add h => exact ⟨_, _, false, rfl, rfl, hall, hover, hover'⟩
    | discard h =>
      exact ⟨_, _, true, rfl, rfl, hlists, fun m hm => hover m (hsub m hm), fun m hm => hover' m (hsub' m hm)⟩
    | contains h => exact ⟨_, _, true, rfl, rfl, hall, hover, hover'⟩

/-- Calls about equal rules return the same. -/
theorem answers_ok (hS : KeyedOn Literal.lt Literal.orderKey S) :
    ∀ {calls calls' : List MemberCall} {members members' : List (Rule ObjectConstant)},
    List.Forall₂ MemberCall.Alike calls calls' → (∀ call ∈ calls, call.rule.Over S) →
    (∀ call ∈ calls', call.rule.Over S) → List.Forall₂ (fun m m' => m.same m' = true) members members' →
    (∀ m ∈ members, m.Over S) → (∀ m ∈ members', m.Over S) →
    ∃ bs, MemberCall.answers H calls members = .ok bs ∧ MemberCall.answers H calls' members' = .ok bs
  | [], [], _, _, _, _, _, _, _, _ => ⟨[], rfl, rfl⟩
  | call :: calls, call' :: calls', members, members', halike, hcalls, hcalls', hall, hover, hover' => by
    obtain ⟨hcall, hrest⟩ := List.forall₂_cons.1 halike
    obtain ⟨hr, hcalls⟩ := List.forall_mem_cons.1 hcalls
    obtain ⟨hr', hcalls'⟩ := List.forall_mem_cons.1 hcalls'
    obtain ⟨after, after', b, hrun, hrun', hafter, hoverAfter, hoverAfter'⟩ :=
      hcall.run_ok (H := H) hS hr hr' hall hover hover'
    obtain ⟨bs, hbs, hbs'⟩ := answers_ok hS hrest hcalls hcalls' hafter hoverAfter hoverAfter'
    refine ⟨b :: bs, ?_, ?_⟩
    · rw [MemberCall.answers, hrun]
      simp only [bind, Except.bind, hbs]
      rfl
    · rw [MemberCall.answers, hrun']
      simp only [bind, Except.bind, hbs']
      rfl

/-! ## What is expected of literals and rules -/

/-- The order on the literals of a set is total and strict and never raises, and equality of the rules that
are made of them is an equivalence that knows no order, with hashes and sets of rules that go along with
it. -/
structure EqualityRight (H : Hashes) (S : Set (Literal ObjectConstant)) : Prop where
  ordered : ∀ l ∈ S, ∀ l' ∈ S, l.Ordered l'
  transitive : ∀ l ∈ S, ∀ l' ∈ S, ∀ l'' ∈ S, l.lt l' = .ok true → l'.lt l'' = .ok true → l.lt l'' = .ok true
  permuted : ∀ r r' : Rule ObjectConstant, r.Over S → r'.Over S → r.heads.Perm r'.heads → r.body.Perm r'.body →
    r.eq r' = .ok true ∧ ∃ k, r.hash H = .ok k ∧ r'.hash H = .ok k
  compared : ∀ r r' : Rule ObjectConstant, r.Over S → r'.Over S → ∃ b, r.eq r' = .ok b
  symmetric : ∀ r r' : Rule ObjectConstant, r.Over S → r'.Over S → r.eq r' = .ok true → r'.eq r = .ok true
  transitiveRules : ∀ r r' r'' : Rule ObjectConstant, r.Over S → r'.Over S → r''.Over S → r.eq r' = .ok true →
    r'.eq r'' = .ok true → r.eq r'' = .ok true
  hashed : ∀ r r' : Rule ObjectConstant, r.Over S → r'.Over S → r.eq r' = .ok true →
    ∃ k, r.hash H = .ok k ∧ r'.hash H = .ok k
  -- a policy keeps a rule with one head under the table of its head
  filed : ∀ r r' : Rule ObjectConstant, r.Over S → r'.Over S → r.eq r' = .ok true → r.moreHeads = [] →
    r'.moreHeads = [] ∧ r.head = r'.head ∧ (r.body = [] ↔ r'.body = [])
  interchangeable : ∀ calls calls', List.Forall₂ MemberCall.Alike calls calls' →
    (∀ call ∈ calls, call.rule.Over S) → (∀ call ∈ calls', call.rule.Over S) →
    ∃ bs, MemberCall.answers H calls [] = .ok bs ∧ MemberCall.answers H calls' [] = .ok bs

/-- The order and equality are right for a set of literals exactly if all of them can be compared. -/
theorem ruleEquality_iff (H : Hashes) (S : Set (Literal ObjectConstant)) :
    EqualityRight H S ↔ ∀ l ∈ S, ∀ l' ∈ S, l.Comparable l' := by
  refine ⟨fun h l hl l' hl' => Literal.ordered_iff.1 (h.ordered l hl l' hl'), fun h => ?_⟩
  have hS := keyedOn_of_comparable h
  have hkey : ∀ l ∈ S, ∀ l' ∈ S, l.lt l' = .ok true ↔ l.orderKey < l'.orderKey := fun l hl l' hl' => by
    rw [hS l hl l' hl', Except.ok.injEq, decide_eq_true_eq]
  have hsame : ∀ r r' : Rule ObjectConstant, r.Over S → r'.Over S → (r.eq r' = .ok true ↔ r.same r' = true) := fun r r' hr hr' => by
    rw [Rule.eq_ok (hr.sorts hS) (hr'.sorts hS), Except.ok.injEq]
  have hhash : ∀ r r' : Rule ObjectConstant, r.Over S → r.same r' = true → ∃ k, r.hash H = .ok k ∧ r'.hash H = .ok k :=
    fun r r' hr heq => by
      obtain ⟨k, hk⟩ := Rule.hash_ok (H := H) (hr.sorts hS)
      exact ⟨k, hk, (Rule.hash_eq_of_same (hr.sorts hS) heq).symm.trans hk⟩
  refine ⟨fun l hl l' hl' => Literal.ordered_iff.2 (h l hl l' hl'), fun l hl l' hl' l'' hl'' hlt hlt' => ?_,
    fun r r' hr hr' hheads hbody => ?_, fun r r' hr hr' => ⟨_, Rule.eq_ok (hr.sorts hS) (hr'.sorts hS)⟩, fun r r' hr hr' heq => ?_,
    fun r r' r'' hr hr' hr'' heq heq' => ?_, fun r r' hr hr' heq => hhash r r' hr ((hsame r r' hr hr').1 heq),
    fun r r' hr hr' heq hmore => ?_, fun calls calls' halike hover hover' => ?_⟩
  · rw [hkey l hl l' hl'] at hlt
    rw [hkey l' hl' l'' hl''] at hlt'
    exact (hkey l hl l'' hl'').2 (hlt.trans hlt')
  · have heq := Rule.same_iff.2 ⟨hheads, hbody⟩
    exact ⟨(hsame r r' hr hr').2 heq, hhash r r' hr heq⟩
  · exact (hsame r' r hr' hr).2 (Rule.same_symm ((hsame r r' hr hr').1 heq))
  · exact (hsame r r'' hr hr'').2 (Rule.same_trans ((hsame r r' hr hr').1 heq) ((hsame r' r'' hr' hr'').1 heq'))
  · obtain ⟨hheads, hbody⟩ := Rule.same_iff.1 ((hsame r r' hr hr').1 heq)
    rw [Rule.heads, hmore] at hheads
    have hlist := List.singleton_perm.1 hheads
    rw [Rule.heads, List.cons.injEq] at hlist
    exact ⟨hlist.2.symm, hlist.1, by rw [← List.length_eq_zero_iff, hbody.length_eq, List.length_eq_zero_iff]⟩
  · exact answers_ok hS halike hover hover' .nil (by simp) (by simp)

/-- Two literals on which comparing is no order, and two on which it raises. -/
theorem not_ruleEquality :
    let p (i j : ℤ) : Literal ObjectConstant :=
      ⟨⟨none, "p", none⟩, [.object (.integer i)], false, [(.inr "c", .object (.integer j))]⟩
    let q (c : ObjectConstant) : Literal ObjectConstant := ⟨⟨none, "q", none⟩, [.object c], false, []⟩
    let rule (body : List (Literal ObjectConstant)) : Rule ObjectConstant := ⟨q (.integer 0), [], body⟩
    (rule [p 1 2, p 2 1]).eq (rule [p 2 1, p 1 2]) = .ok false
      ∧ (rule [q (.integer 1), q (.string "a")]).eq (rule [q (.integer 1), q (.string "a")]) = .error .typeError := by
  decide +kernel

end Congress
