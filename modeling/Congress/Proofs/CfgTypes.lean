import Mathlib.Algebra.Order.Ring.Cast
import Mathlib.Tactic.Linarith
import Congress.CfgTypes

/-!
# Types sent to the validator

What `make_type` builds from a description is the type without its bounds that are 0 and without its choices if
there are none (`makeType_encode`). So the type that is built accepts the same values unless it has one of these
(`type_survives_iff`).
-/

namespace Congress

namespace CfgType

variable {W : Type} {R : Readings W} {t : CfgType} {k : String} {args : Args}

/-- The type that is built from a description. -/
def rebuilt : CfgType → CfgType
  | .integer min max choices => .integer (min.filter (· ≠ 0)) (max.filter (· ≠ 0)) (choices.filter (· ≠ []))
  | .float min max => .float (min.filter (· ≠ 0)) (max.filter (· ≠ 0))
  | .port min max choices => .port min (if max = 0 then 65535 else max) (choices.filter (· ≠ []))
  | .string choices quotes regex ignoreCase maxLength => .string (choices.filter (· ≠ [])) quotes
    ((regex.filter (·.1 ≠ "")).map fun r => (r.1, 0)) ignoreCase maxLength
  | .boolean => .boolean
  | .list itemType bounds => .list itemType.rebuilt bounds
  | .dict valueType bounds => .dict valueType.rebuilt bounds
  | .range min max => .range (min.filter (· ≠ 0)) (max.filter (· ≠ 0))

/-! ## Arguments from fields -/

/-- The arguments that fields become. -/
def argsWith (g : String × FieldValue → Arg) (fields : List (String × FieldValue)) : Args :=
  (fields.filter (·.1 ≠ "type")).map fun f => (f.1, g f)

variable {g : String × FieldValue → Arg} {res : List (String × FieldValue)} {v : FieldValue}

theorem makeArgs_eq : ∀ {fields : List (String × FieldValue)},
    (∀ f ∈ fields, f.1 ≠ "type" → makeArg f = .ok (g f)) → makeArgs fields = .ok (argsWith g fields)
  | [], _ => rfl
  | f :: fields, h => by
    have ih := makeArgs_eq fun f' hf' => h f' (List.mem_cons_of_mem _ hf')
    by_cases hf : f.1 = "type"
    · obtain ⟨k, v⟩ := f
      obtain rfl : k = "type" := hf
      simp [makeArgs, makeArg, ih, bind, Except.bind, argsWith]
    · simp [makeArgs, h f (List.mem_cons_self ..) hf, ih, bind, Except.bind, argsWith, hf]

theorem lookup_argsWith_of_notMem : ∀ {fields : List (String × FieldValue)}, k ∉ fields.map Prod.fst →
    (argsWith g fields).lookup k = none
  | [], _ => rfl
  | f :: fields, h => by
    have ih : (argsWith g fields).lookup k = none :=
      lookup_argsWith_of_notMem fun hk => h (List.mem_cons_of_mem _ hk)
    have hne : (k == f.1) = false := beq_false_of_ne fun heq => h (heq ▸ List.mem_cons_self ..)
    unfold argsWith at ih ⊢
    by_cases hf : f.1 = "type"
    · simpa [hf] using ih
    · simpa [hf, List.lookup_cons, hne] using ih

/-- A constructor gets the argument of a field that is not dropped. -/
theorem lookup_argsWith : ∀ {res : List (String × FieldValue)}, (res.map Prod.fst).Nodup → (k, v) ∈ res → k ≠ "type" →
    (argsWith g (removeUnused res)).lookup k = if v.truthy then some (g (k, v)) else none
  | f :: res, hnd, hmem, hk => by
    rw [List.map_cons, List.nodup_cons] at hnd
    have hsub : ∀ x, x ∈ (removeUnused res).map Prod.fst → x ∈ res.map Prod.fst := fun x hx => by
      obtain ⟨f', hf', rfl⟩ := List.mem_map.1 hx
      exact List.mem_map_of_mem ((List.mem_filter.1 hf').1)
    rcases List.mem_cons.1 hmem with rfl | hmem
    · have hnone : (argsWith g (removeUnused res)).lookup k = none :=
        lookup_argsWith_of_notMem fun hx => hnd.1 (hsub _ hx)
      unfold removeUnused at hnone ⊢
      by_cases hv : v.truthy = true
      · simp [argsWith, hv, hk]
      · simpa [hv] using hnone
    · have ih := lookup_argsWith hnd.2 hmem hk
      have hne : (k == f.1) = false := beq_false_of_ne fun heq => hnd.1 (heq ▸ List.mem_map_of_mem hmem)
      unfold removeUnused at ih ⊢
      by_cases hf : f.2.truthy = true <;> by_cases hft : f.1 = "type"
      · simpa [argsWith, hf, hft] using ih
      · simpa [argsWith, hf, hft, List.lookup_cons, hne] using ih
      · simpa [argsWith, hf] using ih
      · simpa [argsWith, hf] using ih

theorem known_argsWith {names : List String} (h : ∀ f ∈ res, f.1 = "type" ∨ f.1 ∈ names) :
    known names (argsWith g (removeUnused res)) = .ok () := by
  refine if_pos fun a ha => ?_
  obtain ⟨f, hf, rfl⟩ := List.mem_map.1 ha
  obtain ⟨hf, hft⟩ := List.mem_filter.1 hf
  exact (h f (List.mem_filter.1 hf).1).resolve_left (by simpa using hft)

/-- `make_type` calls the constructor with the fields that are not dropped. -/
theorem makeType_eq (g : String × FieldValue → Arg) (name : String) (res : List (String × FieldValue))
    (hname : name ≠ "") (hnd : ("type" :: res.map Prod.fst).Nodup) (hg : ∀ f ∈ res, makeArg f = .ok (g f)) :
    ∃ args, makeType (.descr (removeUnused (("type", .str name) :: res))) = construct name args
      ∧ (∀ names, (∀ f ∈ res, f.1 ∈ names) → known names args = .ok ())
      ∧ ∀ k v, (k, v) ∈ res → args.lookup k = if v.truthy then some (g (k, v)) else none := by
  refine ⟨argsWith g (removeUnused (("type", .str name) :: res)), ?_, fun names h => ?_, fun k v hmem => ?_⟩
  · have htype : (removeUnused (("type", .str name) :: res)).lookup "type" = some (.str name) := by
      simp [removeUnused, FieldValue.truthy, hname]
    have hargs : makeArgs (removeUnused (("type", .str name) :: res)) = .ok (argsWith g _) :=
      makeArgs_eq fun f hf hft => by
        rcases List.mem_cons.1 (List.mem_filter.1 hf).1 with rfl | hf
        · exact absurd rfl hft
        · exact hg f hf
    simp only [makeType, htype, hargs, bind, Except.bind]
  · refine known_argsWith fun f hf => ?_
    rcases List.mem_cons.1 hf with rfl | hf
    · exact .inl rfl
    · exact .inr (h f hf)
  · refine lookup_argsWith hnd (List.mem_cons_of_mem _ hmem) fun hk => ?_
    exact (List.nodup_cons.1 hnd).1 (hk ▸ List.mem_map_of_mem hmem)

/-! ## What arguments are read as -/

theorem intArg_eq {o : Option ℤ} (h : args.lookup k = if (ofInt o).truthy then some (.value (ofInt o)) else none) :
    intArg args k = .ok (o.filter (· ≠ 0)) := by
  rw [intArg, h]
  cases o with
  | none => rfl
  | some n => by_cases hn : n = 0 <;> simp [ofInt, FieldValue.truthy, hn, Option.filter]

theorem floatArg_eq {o : Option ℚ} (h : args.lookup k = if (ofFloat o).truthy then some (.value (ofFloat o)) else none) :
    floatArg args k = .ok (o.filter (· ≠ 0)) := by
  rw [floatArg, h]
  cases o with
  | none => rfl
  | some q => by_cases hq : q = 0 <;> simp [ofFloat, FieldValue.truthy, hq, Option.filter]

theorem boolArg_eq {b : Bool}
    (h : args.lookup k = if (FieldValue.bool b).truthy then some (.value (.bool b)) else none) :
    boolArg args k = .ok b := by
  rw [boolArg, h]
  cases b <;> rfl

theorem strArg_eq {o : Option (String × ℕ)}
    (h : args.lookup k = if (ofRegex o).truthy then some (.value (ofRegex o)) else none) :
    (strArg args k).map (·.map (·, 0)) = .ok ((o.filter (·.1 ≠ "")).map fun r => (r.1, 0)) := by
  rw [strArg, h]
  cases o with
  | none => rfl
  | some r => by_cases hr : r.1 = "" <;> simp [ofRegex, FieldValue.truthy, hr, Option.filter, Except.map]

theorem mapM_getInt : ∀ ns : List ℤ, (ns.map Scalar.int).mapM Scalar.getInt = .ok ns
  | [] => rfl
  | n :: ns => by
    rw [List.map_cons, List.mapM_cons, mapM_getInt ns]
    rfl

theorem mapM_getStr : ∀ ss : List String, (ss.map Scalar.str).mapM Scalar.getStr = .ok ss
  | [] => rfl
  | s :: ss => by
    rw [List.map_cons, List.mapM_cons, mapM_getStr ss]
    rfl

theorem intsArg_eq {o : Option (List ℤ)}
    (h : args.lookup k = if (ofInts o).truthy then some (.value (ofInts o)) else none) :
    listArg Scalar.getInt args k = .ok (o.filter (· ≠ [])) := by
  rw [listArg, h]
  cases o with
  | none => rfl
  | some ns =>
    cases ns with
    | nil => rfl
    | cons n ns =>
      simp only [ofInts, FieldValue.truthy, List.map_cons, ne_eq, reduceCtorEq, not_false_eq_true, decide_true, if_true]
      rw [← List.map_cons, mapM_getInt]
      rfl

theorem strsArg_eq {o : Option (List String)}
    (h : args.lookup k = if (ofStrs o).truthy then some (.value (ofStrs o)) else none) :
    listArg Scalar.getStr args k = .ok (o.filter (· ≠ [])) := by
  rw [listArg, h]
  cases o with
  | none => rfl
  | some ss =>
    cases ss with
    | nil => rfl
    | cons s ss =>
      simp only [ofStrs, FieldValue.truthy, List.map_cons, ne_eq, reduceCtorEq, not_false_eq_true, decide_true, if_true]
      rw [← List.map_cons, mapM_getStr]
      rfl

/-! ## Types built again -/

theorem mem_getD_filter {α : Type} {choices : Option (List α)} {r : List α → Bool} {c : α}
    (hc : c ∈ (choices.filter r).getD []) : c ∈ choices.getD [] := by
  cases choices with
  | none => exact hc
  | some cs =>
    by_cases hr : r cs = true
    · simpa [Option.filter, hr] using hc
    · simp [Option.filter, hr] at hc

theorem NumberOk.filter {α : Type} [LE α] {min max : Option α} {choices : Option (List α)}
    (h : NumberOk min max choices) (p q : α → Bool) (r : List α → Bool) :
    NumberOk (min.filter p) (max.filter q) (choices.filter r) := by
  have hmin : ∀ m ∈ min.filter p, m ∈ min := fun m hm => (Option.mem_filter_iff.1 hm).1
  have hmax : ∀ m ∈ max.filter q, m ∈ max := fun m hm => (Option.mem_filter_iff.1 hm).1
  refine ⟨fun c hc => ?_, fun m hm m' hm' => h.2 m (hmin m hm) m' (hmax m' hm')⟩
  have hc := h.1 c (mem_getD_filter hc)
  exact ⟨fun m hm => hc.1 m (hmin m hm), fun m hm => hc.2 m (hmax m hm)⟩

/-- The default of the upper bound of a port is no smaller. -/
theorem NumberOk.port {min max : ℤ} {choices : Option (List ℤ)} (h : NumberOk (some min) (some max) choices)
    (hmax : max ≤ 65535) (r : List ℤ → Bool) :
    NumberOk (some min) (some (if max = 0 then 65535 else max)) (choices.filter r) := by
  have hle : max ≤ if max = 0 then 65535 else max := by split_ifs <;> omega
  refine ⟨fun c hc => ?_, fun m hm m' hm' => ?_⟩
  · obtain ⟨hmin, hm⟩ := h.1 c (mem_getD_filter hc)
    refine ⟨hmin, fun m hm' => ?_⟩
    obtain rfl := Option.mem_some_iff.1 hm'
    exact (hm max rfl).trans hle
  · obtain rfl := Option.mem_some_iff.1 hm'
    exact (h.2 m hm max rfl).trans hle

theorem checked_rebuilt (h : t.Checked) : t.rebuilt.Checked := by
  cases t with
  | integer min max choices => exact NumberOk.filter h _ _ _
  | float min max => exact NumberOk.filter h _ _ (fun _ => true)
  | port min max choices =>
    obtain ⟨hmin, hmax, hok⟩ := h
    exact ⟨hmin, by split_ifs <;> omega, hok.port hmax _⟩
  | string choices quotes regex ignoreCase maxLength =>
    rcases h with h | h
    · refine .inl (List.eq_nil_iff_forall_not_mem.2 fun c hc => ?_)
      exact List.eq_nil_iff_forall_not_mem.1 h c (mem_getD_filter hc)
    · refine .inr fun r hr => ?_
      obtain ⟨r', hr', rfl⟩ := Option.mem_map.1 hr
      exact h r' (Option.mem_filter_iff.1 hr').1
  | boolean => trivial
  | list itemType bounds => trivial
  | dict valueType bounds => trivial
  | range min max => trivial

theorem check_rebuilt (h : t.Checked) : check t.rebuilt = .ok t.rebuilt := if_pos (checked_rebuilt h)

theorem truthy_encode (t : CfgType) : t.encode.truthy = true := by
  cases t <;> rfl

theorem typeArg_eq (h : args.lookup k = some (.type t)) : typeArg args k = .ok t := by
  rw [typeArg, h]

/-- `make_type` makes of the description of a type the type without what was dropped. -/
theorem makeType_encode : ∀ {t : CfgType}, t.Valid → makeType t.encode = .ok t.rebuilt
  | .integer min max choices, h => by
    have hcheck := check_rebuilt (t := .integer min max choices) h
    obtain ⟨args, hmake, hknown, hargs⟩ := makeType_eq (fun f => .value f.2) "Integer"
      [("max", ofInt max), ("min", ofInt min), ("choices", ofInts choices)] (by decide) (by simp) (by simp [makeArg])
    rw [encode, hmake]
    simp only [construct, hknown ["min", "max", "type_name", "choices"] (by simp),
      intArg_eq (hargs "min" (ofInt min) (by simp)), intArg_eq (hargs "max" (ofInt max) (by simp)),
      intsArg_eq (hargs "choices" (ofInts choices) (by simp)), bind, Except.bind]
    exact hcheck
  | .float min max, h => by
    have hcheck := check_rebuilt (t := .float min max) h
    obtain ⟨args, hmake, hknown, hargs⟩ := makeType_eq (fun f => .value f.2) "Float"
      [("max", ofFloat max), ("min", ofFloat min)] (by decide) (by simp) (by simp [makeArg])
    have hnone : encode (.float min max)
        = .descr (removeUnused [("type", .str "Float"), ("max", ofFloat max), ("min", ofFloat min)]) := by
      simp [encode, removeUnused, FieldValue.truthy, List.filter_cons]
    rw [hnone, hmake]
    simp only [construct, hknown ["min", "max", "type_name"] (by simp),
      floatArg_eq (hargs "min" (ofFloat min) (by simp)), floatArg_eq (hargs "max" (ofFloat max) (by simp)),
      bind, Except.bind]
    exact hcheck
  | .port min max choices, h => by
    have hcheck := check_rebuilt (t := .port min max choices) h
    obtain ⟨args, hmake, hknown, hargs⟩ := makeType_eq (fun f => .value f.2) "Port"
      [("max", .int max), ("min", .int min), ("choices", ofInts choices)] (by decide) (by simp) (by simp [makeArg])
    have hmin : (Option.filter (fun x => decide (x ≠ 0)) (some min)).getD 0 = min := by
      by_cases h0 : min = 0 <;> simp [Option.filter, h0]
    have hmax : (Option.filter (fun x => decide (x ≠ 0)) (some max)).getD 65535 = if max = 0 then 65535 else max := by
      by_cases h0 : max = 0 <;> simp [Option.filter, h0]
    rw [encode, hmake]
    simp only [construct, hknown ["min", "max", "type_name", "choices"] (by simp),
      intArg_eq (hargs "min" (ofInt (some min)) (by simp [ofInt])),
      intArg_eq (hargs "max" (ofInt (some max)) (by simp [ofInt])),
      intsArg_eq (hargs "choices" (ofInts choices) (by simp)), bind, Except.bind, hmin, hmax]
    exact hcheck
  | .string choices quotes regex ignoreCase maxLength, h => by
    have hcheck := check_rebuilt (t := .string choices quotes regex ignoreCase maxLength) h
    obtain ⟨args, hmake, hknown, hargs⟩ := makeType_eq (fun f => .value f.2) "String"
      [("regex", ofRegex regex), ("max_length", .int maxLength), ("quotes", .bool quotes),
        ("ignore_case", .bool ignoreCase), ("choices", ofStrs choices)] (by decide) (by simp) (by simp [makeArg])
    have hregex := strArg_eq (hargs "regex" (ofRegex regex) (by simp))
    have hmax : ((Option.filter (fun x => decide (x ≠ 0)) (some (maxLength : ℤ))).getD 0).toNat = maxLength := by
      by_cases h0 : maxLength = 0 <;> simp [Option.filter, h0]
    rw [encode, hmake]
    simp only [construct, hknown ["choices", "quotes", "regex", "ignore_case", "max_length", "type_name"] (by simp),
      strsArg_eq (hargs "choices" (ofStrs choices) (by simp)), boolArg_eq (hargs "quotes" (.bool quotes) (by simp)),
      boolArg_eq (hargs "ignore_case" (.bool ignoreCase) (by simp)),
      intArg_eq (hargs "max_length" (ofInt (some (maxLength : ℤ))) (by simp [ofInt])), bind, Except.bind, hmax]
    rcases hs : strArg args "regex" with e | o
    · rw [hs] at hregex
      cases hregex
    · rw [hs] at hregex
      have heq : o.map (·, 0) = (regex.filter (·.1 ≠ "")).map fun r => (r.1, 0) := Except.ok.inj hregex
      dsimp only
      rw [heq]
      exact hcheck
  | .boolean, _ => rfl
  | .list itemType bounds, h => by
    obtain ⟨args, hmake, hknown, hargs⟩ :=
      makeType_eq (fun f => if f.1 = "item_type" then .type itemType.rebuilt else .value f.2) "List"
        [("item_type", itemType.encode), ("bounds", .bool bounds)] (by decide) (by simp)
        (by simp [makeArg, makeType_encode (t := itemType) h, bind, Except.bind])
    have htype := hargs "item_type" itemType.encode (by simp)
    rw [if_pos (truthy_encode _), if_pos rfl] at htype
    rw [encode, hmake]
    simp only [construct, hknown ["item_type", "bounds", "type_name"] (by simp), typeArg_eq htype,
      boolArg_eq (hargs "bounds" (.bool bounds) (by simp)), bind, Except.bind]
    exact check_rebuilt (t := .list itemType bounds) trivial
  | .dict valueType bounds, h => by
    obtain ⟨args, hmake, hknown, hargs⟩ :=
      makeType_eq (fun f => if f.1 = "value_type" then .type valueType.rebuilt else .value f.2) "Dict"
        [("value_type", valueType.encode), ("bounds", .bool bounds)] (by decide) (by simp)
        (by simp [makeArg, makeType_encode (t := valueType) h, bind, Except.bind])
    have htype := hargs "value_type" valueType.encode (by simp)
    rw [if_pos (truthy_encode _), if_pos rfl] at htype
    rw [encode, hmake]
    simp only [construct, hknown ["value_type", "bounds", "type_name"] (by simp), typeArg_eq htype,
      boolArg_eq (hargs "bounds" (.bool bounds) (by simp)), bind, Except.bind]
    exact check_rebuilt (t := .dict valueType bounds) trivial
  | .range min max, h => by
    have hcheck := check_rebuilt (t := .range min max) h
    obtain ⟨args, hmake, hknown, hargs⟩ := makeType_eq (fun f => .value f.2) "Range"
      [("max", ofInt max), ("min", ofInt min)] (by decide) (by simp) (by simp [makeArg])
    rw [encode, hmake]
    simp only [construct, hknown ["min", "max", "inclusive", "type_name"] (by simp),
      intArg_eq (hargs "min" (ofInt min) (by simp)), intArg_eq (hargs "max" (ofInt max) (by simp)), bind, Except.bind]
    exact hcheck

/-! ## What is still accepted -/

/-- Nothing of a type is dropped that matters: no bound is 0, unless there are choices, or it is the default
of a port; no list of choices is empty; and a regular expression has no flags. -/
def Kept : CfgType → Prop
  | .integer min max none => min ≠ some 0 ∧ max ≠ some 0
  | .integer _ _ (some choices) => choices ≠ []
  | .float min max => min ≠ some 0 ∧ max ≠ some 0
  | .port _ max none => max ≠ 0
  | .port _ _ (some choices) => choices ≠ []
  | .string choices _ regex _ _ => choices ≠ some [] ∧ ∀ r ∈ regex, r.1 = "" ∨ r.2 = 0
  | .boolean => True
  | .list itemType _ => itemType.Kept
  | .dict valueType _ => valueType.Kept
  | .range min max => min ≠ some 0 ∧ max ≠ some 0

theorem filter_ne_self {α : Type} [DecidableEq α] {o : Option α} {a : α} (h : o ≠ some a) : o.filter (· ≠ a) = o := by
  cases o with
  | none => rfl
  | some b =>
    have hb : b ≠ a := fun hb => h (hb ▸ rfl)
    simp [Option.filter, hb]

theorem acceptsNumber_choices {α : Type} [LE α] {min max min' max' : Option α} {choices : List α}
    (n : Option (Option α)) :
    AcceptsNumber min' max' (some choices) n ↔ AcceptsNumber min max (some choices) n := by
  rcases n with _ | _ | n <;> rfl

theorem accepts_rebuilt : ∀ {t : CfgType}, t.Kept → ∀ v, Accepts R t.rebuilt v ↔ Accepts R t v
  | .integer min max none, h, v => by
    simp only [rebuilt, filter_ne_self h.1, filter_ne_self h.2, Option.filter_none]
  | .integer min max (some choices), h, v => by
    have hchoices : (some choices).filter (· ≠ []) = some choices := filter_ne_self fun heq => h (Option.some.inj heq)
    simp only [rebuilt, hchoices]
    exact acceptsNumber_choices _
  | .float min max, h, v => by
    simp only [rebuilt, filter_ne_self h.1, filter_ne_self h.2]
  | .port min max none, h, v => by
    have hmax : max ≠ 0 := h
    simp only [rebuilt, if_neg hmax, Option.filter_none]
  | .port min max (some choices), h, v => by
    have hchoices : (some choices).filter (· ≠ []) = some choices := filter_ne_self fun heq => h (Option.some.inj heq)
    simp only [rebuilt, hchoices]
    exact acceptsNumber_choices _
  | .string choices quotes regex ignoreCase maxLength, h, v => by
    obtain ⟨hchoices, hregex⟩ := h
    have htext : ∀ s, (∀ r ∈ (regex.filter (·.1 ≠ "")).map fun r => (r.1, 0), R.search r.1 ignoreCase r.2 s = true)
        ↔ ∀ r ∈ regex, R.search r.1 ignoreCase r.2 s = true := fun s => by
      cases regex with
      | none => rfl
      | some r =>
        obtain ⟨pattern, flags⟩ := r
        rcases hregex _ rfl with h0 | h0
        · obtain rfl : pattern = "" := h0
          simp [Option.filter, R.search_empty]
        · obtain rfl : flags = 0 := h0
          by_cases hp : pattern = ""
          · subst hp
            simp [Option.filter, R.search_empty]
          · simp [Option.filter, hp]
    simp only [rebuilt, Accepts, AcceptsText, filter_ne_self hchoices, htext]
  | .boolean, _, _ => Iff.rfl
  | .list itemType bounds, h, v => by
    have hkept : itemType.Kept := h
    have hitem : Accepts R itemType.rebuilt = Accepts R itemType := funext fun v => propext (accepts_rebuilt hkept v)
    simp only [rebuilt, Accepts, hitem]
  | .dict valueType bounds, h, v => by
    have hkept : valueType.Kept := h
    have hvalue : Accepts R valueType.rebuilt = Accepts R valueType :=
      funext fun v => propext (accepts_rebuilt hkept v)
    simp only [rebuilt, Accepts, hvalue]
  | .range min max, h, v => by
    simp only [rebuilt, filter_ne_self h.1, filter_ne_self h.2]

/-! ## What is accepted too much -/

/-- Some values are read as numbers, ranges and texts of one letter; and lists and dictionaries can be made of one
of these. -/
structure Readings.Tells (R : Readings W) (plain : W → Prop) : Prop where
  int : ∀ n : ℤ, ∃ v, plain v ∧ R.int v = some (some n)
  float : ∀ n : ℤ, ∃ v, plain v ∧ R.float v = some (some (n : ℚ))
  range : ∀ n : ℤ, ∃ v, plain v ∧ R.range v = some (n, n)
  text : ∃ v, plain v ∧ (R.text v).length = 1 ∧ R.unquote (R.text v) = some (R.text v)
  list : ∀ bounds v, plain v → ∃ w, plain w ∧ ∀ P, R.list bounds P w ↔ P v
  dict : ∀ bounds v, plain v → ∃ w, plain w ∧ ∀ P, R.dict bounds P w ↔ P v

/-- Texts have no regular expression with flags, and none beside an empty list of choices. -/
def PlainTexts : CfgType → Prop
  | .string choices _ regex _ _ => (choices = some [] → regex = none) ∧ ∀ r ∈ regex, r.2 = 0
  | .list itemType _ => itemType.PlainTexts
  | .dict valueType _ => valueType.PlainTexts
  | _ => True

theorem mem_filter_ne_zero {α : Type} [DecidableEq α] [Zero α] {o : Option α} {m : α} (h : m ∈ o.filter (· ≠ 0)) :
    m ∈ o ∧ m ≠ 0 := by
  obtain ⟨hm, hne⟩ := Option.mem_filter_iff.1 h
  exact ⟨hm, by simpa using hne⟩

/-- A number that is accepted when a bound that is 0 is dropped. -/
theorem exists_beyond_zero {α : Type} [CommRing α] [LinearOrder α] [IsStrictOrderedRing α] {min max : Option α}
    (h : NumberOk min max none) (hz : ¬(min ≠ some 0 ∧ max ≠ some 0)) : ∃ n : ℤ,
      AcceptsNumber (min.filter (· ≠ 0)) (max.filter (· ≠ 0)) none (some (some (n : α)))
        ∧ ¬AcceptsNumber min max none (some (some (n : α))) := by
  by_cases hmin : min = some 0
  · subst hmin
    refine ⟨-1, ⟨fun m hm => absurd (mem_filter_ne_zero hm).1 ?_, fun m hm => ?_⟩, fun hn => ?_⟩
    · intro h0
      exact (mem_filter_ne_zero hm).2 (Option.mem_some_iff.1 h0).symm
    · have hle := h.2 0 rfl m (mem_filter_ne_zero hm).1
      push_cast
      linarith
    · have hle := hn.1 0 rfl
      push_cast at hle
      linarith
  · have hmax : max = some 0 := by tauto
    subst hmax
    refine ⟨1, ⟨fun m hm => ?_, fun m hm => absurd (mem_filter_ne_zero hm).1 ?_⟩, fun hn => ?_⟩
    · have hle := h.2 m (mem_filter_ne_zero hm).1 0 rfl
      push_cast
      linarith
    · intro h0
      exact (mem_filter_ne_zero hm).2 (Option.mem_some_iff.1 h0).symm
    · have hle := hn.2 0 rfl
      push_cast at hle
      linarith

/-- Where the list of choices was empty, a number between the bounds is accepted. -/
theorem exists_without_choices {min max : Option ℤ} (h : ∀ m ∈ min, ∀ m' ∈ max, m ≤ m') (min' max' : Option ℤ) :
    ∃ n : ℤ, AcceptsNumber min max none (some (some n)) ∧ ¬AcceptsNumber min' max' (some []) (some (some n)) := by
  have hnot : ∀ n : ℤ, ¬AcceptsNumber min' max' (some []) (some (some n)) := fun n hn => List.not_mem_nil hn
  cases min with
  | some m =>
    refine ⟨m, ⟨fun m' hm' => ?_, h m rfl⟩, hnot m⟩
    exact (Option.mem_some_iff.1 hm').ge
  | none =>
    refine ⟨max.getD 0, ⟨fun m hm => by simp at hm, fun m hm => ?_⟩, hnot _⟩
    rw [Option.mem_def.1 hm, Option.getD_some]

/-- If something that matters is dropped, a value is accepted that was not. -/
theorem exists_accepted {plain : W → Prop} (hR : R.Tells plain) : ∀ {t : CfgType}, t.Valid → t.PlainTexts → ¬t.Kept →
    ∃ v, plain v ∧ Accepts R t.rebuilt v ∧ ¬Accepts R t v
  | .integer min max none, h, _, hk => by
    have hok : NumberOk min max none := h
    obtain ⟨n, hn, hnot⟩ := exists_beyond_zero hok hk
    rw [Int.cast_id] at hn hnot
    obtain ⟨v, hv, hint⟩ := hR.int n
    refine ⟨v, hv, ?_, ?_⟩
    · rw [rebuilt, Accepts, hint]
      exact hn
    · rw [Accepts, hint]
      exact hnot
  | .integer min max (some choices), h, _, hk => by
    obtain rfl : choices = [] := not_not.1 hk
    have hok : NumberOk min max (some []) := h
    obtain ⟨n, hn, hnot⟩ := exists_without_choices (hok.filter (· ≠ 0) (· ≠ 0) (· ≠ [])).2 min max
    obtain ⟨v, hv, hint⟩ := hR.int n
    refine ⟨v, hv, ?_, ?_⟩
    · rw [rebuilt, Accepts, hint]
      exact hn
    · rw [Accepts, hint]
      exact hnot
  | .float min max, h, _, hk => by
    have hok : NumberOk min max none := h
    obtain ⟨n, hn, hnot⟩ := exists_beyond_zero hok hk
    obtain ⟨v, hv, hfloat⟩ := hR.float n
    refine ⟨v, hv, ?_, ?_⟩
    · rw [rebuilt, Accepts, hfloat]
      exact hn
    · rw [Accepts, hfloat]
      exact hnot
  | .port min max none, h, _, hk => by
    obtain rfl : max = 0 := not_not.1 hk
    obtain ⟨hmin, -, hok⟩ : 0 ≤ min ∧ (0 : ℤ) ≤ 65535 ∧ NumberOk (some min) (some 0) none := h
    obtain ⟨v, hv, hint⟩ := hR.int 1
    refine ⟨v, hv, ?_, fun hacc => ?_⟩
    · simp only [rebuilt, Accepts, hint]
      refine ⟨fun m hm => ?_, fun m hm => ?_⟩
      · have hle := hok.2 m hm 0 rfl
        omega
      · obtain rfl := Option.mem_some_iff.1 hm
        decide
    · simp only [Accepts, hint] at hacc
      exact absurd (hacc.2 0 rfl) (by decide)
  | .port min max (some choices), h, _, hk => by
    obtain rfl : choices = [] := not_not.1 hk
    obtain ⟨-, hmax, hok⟩ : 0 ≤ min ∧ max ≤ 65535 ∧ NumberOk (some min) (some max) (some []) := h
    obtain ⟨n, hn, hnot⟩ := exists_without_choices (hok.port hmax (· ≠ [])).2 (some min) (some max)
    obtain ⟨v, hv, hint⟩ := hR.int n
    refine ⟨v, hv, ?_, ?_⟩
    · rw [rebuilt, Accepts, hint]
      exact hn
    · rw [Accepts, hint]
      exact hnot
  | .string choices quotes regex ignoreCase maxLength, _, hp, hk => by
    have hchoices : choices = some [] := by
      by_contra hne
      exact hk ⟨hne, fun r hr => .inr (hp.2 r hr)⟩
    obtain rfl : regex = none := hp.1 hchoices
    subst hchoices
    obtain ⟨v, hv, hlen, hunquote⟩ := hR.text
    refine ⟨v, hv, ⟨R.text v, by split_ifs <;> simp [hunquote], fun hpos => hlen.trans_le hpos, nofun, ?_⟩, ?_⟩
    · intro cs hcs
      simp [Option.filter] at hcs
    · rintro ⟨s, -, -, -, hcs⟩
      have hmem := hcs [] rfl
      split_ifs at hmem <;> simp at hmem
  | .boolean, _, _, hk => absurd trivial hk
  | .list itemType bounds, h, hp, hk => by
    obtain ⟨v, hv, hacc, hnot⟩ := exists_accepted hR (t := itemType) h hp hk
    obtain ⟨w, hw, hiff⟩ := hR.list bounds v hv
    exact ⟨w, hw, (hiff _).2 hacc, fun h' => hnot ((hiff _).1 h')⟩
  | .dict valueType bounds, h, hp, hk => by
    obtain ⟨v, hv, hacc, hnot⟩ := exists_accepted hR (t := valueType) h hp hk
    obtain ⟨w, hw, hiff⟩ := hR.dict bounds v hv
    exact ⟨w, hw, (hiff _).2 hacc, fun h' => hnot ((hiff _).1 h')⟩
  | .range min max, _, _, hk => by
    by_cases hmin : min = some 0
    · subst hmin
      obtain ⟨v, hv, hrange⟩ := hR.range (Min.min (-1) (max.getD (-1)))
      refine ⟨v, hv, ⟨_, hrange, fun m hm => ?_, fun m hm => ?_⟩, ?_⟩
      · exact absurd (Option.mem_some_iff.1 (mem_filter_ne_zero hm).1).symm (mem_filter_ne_zero hm).2
      · have hmax : max = some m := (mem_filter_ne_zero hm).1
        rw [hmax]
        exact min_le_right _ _
      · rintro ⟨p, hp, hle, -⟩
        obtain rfl := Option.some.inj (hrange.symm.trans hp)
        have hzero := (hle 0 rfl).trans (min_le_left _ _)
        omega
    · have hmax : max = some 0 := by
        by_contra hmax
        exact hk ⟨hmin, hmax⟩
      subst hmax
      obtain ⟨v, hv, hrange⟩ := hR.range (Max.max 1 (min.getD 1))
      refine ⟨v, hv, ⟨_, hrange, fun m hm => ?_, fun m hm => ?_⟩, ?_⟩
      · have hmin : min = some m := (mem_filter_ne_zero hm).1
        rw [hmin]
        exact le_max_right _ _
      · exact absurd (Option.mem_some_iff.1 (mem_filter_ne_zero hm).1).symm (mem_filter_ne_zero hm).2
      · rintro ⟨p, hp, -, hle⟩
        obtain rfl := Option.some.inj (hrange.symm.trans hp)
        have hzero := (le_max_left _ _).trans (hle 0 rfl)
        omega

/-- A type survives the trip if nothing of it is dropped that matters, and only then if its texts are plain. -/
theorem type_survives_iff (R : Readings W) {t : CfgType} (h : t.Valid) :
    (t.Kept → Survives R t) ∧ ∀ plain, R.Tells plain → t.PlainTexts → Survives R t → t.Kept := by
  refine ⟨fun hk => ⟨_, makeType_encode h, accepts_rebuilt hk⟩, fun plain hR hp hs => ?_⟩
  obtain ⟨t', ht', hacc⟩ := hs
  obtain rfl : t.rebuilt = t' := Except.ok.inj ((makeType_encode h).symm.trans ht')
  by_contra hk
  obtain ⟨v, -, hv, hnot⟩ := exists_accepted hR h hp hk
  exact hnot ((hacc v).1 hv)

/-- Integers, a text of one letter, lists, and dictionaries with one value. -/
inductive Sample
  | int (n : ℤ)
  | text
  | list (vs : List Sample)
  | dict (v : Sample)

def sampleReadings : Readings Sample where
  int
    | .int n => some (some n)
    | _ => none
  float
    | .int n => some (some n)
    | _ => none
  bool _ := false
  text
    | .int n => toString n
    | _ => "x"
  unquote s := some s
  lower s := s
  search pattern _ _ s := pattern = "" ∨ pattern = s
  range
    | .int n => some (n, n)
    | _ => none
  list _ P
    | .list vs => ∀ v ∈ vs, P v
    | _ => False
  dict _ P
    | .dict v => P v
    | _ => False
  search_empty _ _ _ := by simp

theorem sampleReadings_tells : sampleReadings.Tells fun _ => True where
  int n := ⟨.int n, trivial, rfl⟩
  float n := ⟨.int n, trivial, rfl⟩
  range n := ⟨.int n, trivial, rfl⟩
  text := ⟨.text, trivial, by decide +kernel, rfl⟩
  list _ v _ := ⟨.list [v], trivial, fun P => by simp [sampleReadings]⟩
  dict _ v _ := ⟨.dict v, trivial, fun _ => Iff.rfl⟩

/-- A list of integers from 1 to 5 survives, and one of integers from 0 to 5 does not. -/
theorem type_survives_iff_list : Survives sampleReadings (.list (.integer (some 1) (some 5) none) true)
    ∧ ¬Survives sampleReadings (.list (.integer (some 0) (some 5) none) true) := by
  have hone : Valid (.list (.integer (some 1) (some 5) none) true) := show NumberOk (some 1) (some 5) none by decide
  have hzero : Valid (.list (.integer (some 0) (some 5) none) true) := show NumberOk (some 0) (some 5) none by decide
  refine ⟨(type_survives_iff sampleReadings hone).1 (show some 1 ≠ some 0 ∧ some 5 ≠ some 0 by decide), fun h => ?_⟩
  exact ((type_survives_iff sampleReadings hzero).2 _ sampleReadings_tells trivial h).1 rfl

/-- An integer from 0 on becomes any integer. -/
theorem not_type_survives : (CfgType.integer (some 0) none none).Valid
    ∧ ¬Survives sampleReadings (.integer (some 0) none none) := by
  refine ⟨show NumberOk (some 0) none none by decide, fun h => ?_⟩
  obtain ⟨t', ht', hacc⟩ := h
  obtain rfl : .integer none none none = t' := Except.ok.inj ht'
  have haccepted : Accepts sampleReadings (.integer none none none) (.int (-1)) := ⟨nofun, nofun⟩
  exact absurd (((hacc (.int (-1))).1 haccepted).1 0 rfl) (by decide)

end CfgType

end Congress
