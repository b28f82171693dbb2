import Congress.Z3Types

/-!
# Codes of values

A translator that never gives the stand-in a second code numbers the values it meets (`Numbered`), and as long
as there are fewer of them than codes, the numbers tell them apart and lead back to them. A finite type does so
as long as it meets one value outside its domain at most once, and an integer comes back if it is in range
(`encodings_faithful_iff`).
-/

namespace Congress

set_option linter.unusedSectionVars false

variable {V A : Type} [DecidableEq V] [DecidableEq A] {size : ℕ} {m : Codes V size} {ks : List V} {v k : V}

/-- The values with codes, in the order in which they got them. -/
structure Numbered (m : Codes V size) (ks : List V) : Prop where
  nodup : ks.Nodup
  length : m.map.keys.length = ks.length
  mem : ∀ v, v ∈ m.map ↔ v ∈ ks
  code : ∀ v ∈ ks, m.map.lookup v = some (BitVec.ofNat size (ks.idxOf v))
  back : ∀ i, m.back.lookup i = ks[i]?

theorem reset_numbered : Numbered (.reset : Codes V size) [] where
  nodup := .nil
  length := rfl
  mem v := by simp [Codes.reset]
  code v hv := by simp at hv
  back i := by simp [Codes.reset]

theorem Numbered.lookup_none (h : Numbered m ks) (hv : v ∉ ks) : m.map.lookup v = none :=
  AList.lookup_eq_none.2 fun hm => hv ((h.mem v).1 hm)

theorem Numbered.allocate_fst (h : Numbered m ks) : (m.allocate v).1 = BitVec.ofNat size ks.length := by
  simp only [Codes.allocate, h.length]

theorem Numbered.allocate (h : Numbered m ks) (hv : v ∉ ks) : Numbered (m.allocate v).2 (ks ++ [v]) where
  nodup := h.nodup.append (List.nodup_singleton v) (List.disjoint_singleton.2 hv)
  length := by
    have hk : v ∉ m.map.keys := fun hk => hv ((h.mem v).1 (AList.mem_keys.1 hk))
    simp [Codes.allocate, AList.keys_insert, List.erase_of_not_mem hk, h.length]
  mem u := by
    simp only [Codes.allocate, AList.mem_insert, List.mem_append, List.mem_singleton, h.mem]
    exact or_comm
  code u hu := by
    by_cases huv : u = v
    · subst huv
      simp [Codes.allocate, List.idxOf_append_of_notMem hv, h.length]
    · have hu : u ∈ ks := (List.mem_append.1 hu).resolve_right fun hu => huv (List.mem_singleton.1 hu)
      simp only [Codes.allocate, AList.lookup_insert_ne huv, List.idxOf_append_of_mem hu, h.code u hu]
  back i := by
    by_cases hi : i = ks.length
    · subst hi
      simp [Codes.allocate, h.length]
    · have hlen : i ≠ m.map.keys.length := h.length ▸ hi
      rw [Codes.allocate, AList.lookup_insert_ne hlen, h.back]
      rcases Nat.lt_or_ge i ks.length with hlt | hge
      · rw [List.getElem?_append_left hlt]
      · rw [List.getElem?_eq_none hge, List.getElem?_eq_none (by simp; omega)]

/-! ## Encodings -/

/-- Each value has been encoded by the number of its key, which stands for it. -/
structure Coded (key : V → V) (s : Z3Type.History V size) (ks : List V) : Prop where
  numbered : Numbered s.1 ks
  codes : ∀ p ∈ s.2, key p.1 ∈ ks ∧ p.2 = BitVec.ofNat size (ks.idxOf (key p.1))
  keys : ∀ k ∈ ks, ∃ p ∈ s.2, key p.1 = k

variable {key : V → V} {s : Z3Type.History V size}

theorem reset_coded : Coded key ((Codes.reset, []) : Z3Type.History V size) [] :=
  ⟨reset_numbered, fun _ hp => (List.not_mem_nil hp).elim, fun _ hk => (List.not_mem_nil hk).elim⟩

theorem Coded.hit (h : Coded key s ks) (hv : key v ∈ ks) {bvect : BitVec size}
    (hb : s.1.map.lookup (key v) = some bvect) : Coded key (s.1, s.2 ++ [(v, bvect)]) ks where
  numbered := h.numbered
  codes p hp := by
    rcases List.mem_append.1 hp with hp | hp
    · exact h.codes p hp
    · rw [List.mem_singleton.1 hp]
      exact ⟨hv, Option.some.inj (hb.symm.trans (h.numbered.code _ hv))⟩
  keys k hk := by
    obtain ⟨p, hp, hpk⟩ := h.keys k hk
    exact ⟨p, List.mem_append_left _ hp, hpk⟩

theorem Coded.miss (h : Coded key s ks) (hv : key v ∉ ks) :
    Coded key ((s.1.allocate (key v)).2, s.2 ++ [(v, (s.1.allocate (key v)).1)]) (ks ++ [key v]) where
  numbered := h.numbered.allocate hv
  codes p hp := by
    rcases List.mem_append.1 hp with hp | hp
    · obtain ⟨hk, hcode⟩ := h.codes p hp
      exact ⟨List.mem_append_left _ hk, by rw [List.idxOf_append_of_mem hk, hcode]⟩
    · rw [List.mem_singleton.1 hp]
      refine ⟨List.mem_append_right _ (List.mem_singleton_self _), ?_⟩
      simp only [h.numbered.allocate_fst, List.idxOf_append_of_notMem hv, List.idxOf_cons_self, Nat.add_zero]
  keys k hk := by
    rcases List.mem_append.1 hk with hk | hk
    · obtain ⟨p, hp, hpk⟩ := h.keys k hk
      exact ⟨p, List.mem_append_left _ hp, hpk⟩
    · exact ⟨_, List.mem_append_right _ (List.mem_singleton_self _), (List.mem_singleton.1 hk).symm⟩

theorem Coded.length_lt (h : Coded key s ks) (hfew : (s.2.map Prod.fst).toFinset.card < 2 ^ size) :
    ks.length < 2 ^ size := by
  refine lt_of_le_of_lt ?_ hfew
  rw [← List.toFinset_card_of_nodup h.numbered.nodup]
  refine (Finset.card_le_card fun k hk => ?_).trans (Finset.card_image_le (f := key))
  obtain ⟨p, hp, hpk⟩ := h.keys k (List.mem_toFinset.1 hk)
  exact Finset.mem_image.2 ⟨p.1, List.mem_toFinset.2 (List.mem_map_of_mem hp), hpk⟩

theorem ofNat_injOn {i j : ℕ} (hi : i < 2 ^ size) (hj : j < 2 ^ size) (h : BitVec.ofNat size i = BitVec.ofNat size j) :
    i = j := by
  have hnat := congrArg BitVec.toNat h
  rwa [BitVec.toNat_ofNat, BitVec.toNat_ofNat, Nat.mod_eq_of_lt hi, Nat.mod_eq_of_lt hj] at hnat

theorem Coded.code_eq_iff (h : Coded key s ks) (hlen : ks.length < 2 ^ size) {p q : V × BitVec size} (hp : p ∈ s.2)
    (hq : q ∈ s.2) : p.2 = q.2 ↔ key p.1 = key q.1 := by
  obtain ⟨hpk, hpc⟩ := h.codes p hp
  obtain ⟨hqk, hqc⟩ := h.codes q hq
  have hpi := (List.idxOf_lt_length_iff.2 hpk).trans hlen
  have hqi := (List.idxOf_lt_length_iff.2 hqk).trans hlen
  rw [hpc, hqc]
  exact ⟨fun heq => (List.idxOf_inj hpk).1 (ofNat_injOn hpi hqi heq), fun heq => by rw [heq]⟩

theorem Coded.value (h : Coded key s ks) (hlen : ks.length < 2 ^ size) {p : V × BitVec size} (hp : p ∈ s.2) :
    s.1.value p.2 = .ok (key p.1) := by
  obtain ⟨hpk, hpc⟩ := h.codes p hp
  have hpi := (List.idxOf_lt_length_iff.2 hpk).trans hlen
  rw [Codes.value, hpc, BitVec.toNat_ofNat, Nat.mod_eq_of_lt hpi, h.numbered.back, List.getElem?_idxOf hpk]

/-- The next code is a new one. -/
theorem Coded.code_ne_next (h : Coded key s ks) (hlen : ks.length < 2 ^ size) {p : V × BitVec size} (hp : p ∈ s.2)
    (v : V) : p.2 ≠ (s.1.allocate v).1 := by
  obtain ⟨hk, hcode⟩ := h.codes p hp
  have hlt := List.idxOf_lt_length_iff.2 hk
  rw [hcode, h.numbered.allocate_fst]
  exact fun heq => hlt.ne (ofNat_injOn (hlt.trans hlen) hlen heq)

/-! ## Runs -/

namespace Z3Type

variable {T : Z3Type V size} {calls : List (Z3Call V size)} {c : Z3Call V size}

theorem run_append_singleton : T.run (calls ++ [c]) = T.step (T.run calls) c := by
  rw [run, List.foldl_append, List.foldl_cons, List.foldl_nil, run]

theorem step_ok {s : History V size} {val : V} {strict : Bool} {bvect : BitVec size} {m : Codes V size}
    (h : T.toZ3 s.1 val strict = .ok (bvect, m)) : T.step s (.toZ3 val strict) = (m, s.2 ++ [(val, bvect)]) := by
  rw [step, h]

theorem step_error {s : History V size} {val : V} {strict : Bool} {e : Z3Raised V}
    (h : T.toZ3 s.1 val strict = .error e) : T.step s (.toZ3 val strict) = s := by
  rw [step, h]

theorem subset_step (s : History V size) : s.2 ⊆ (T.step s c).2 := by
  unfold step
  split
  · split
    · exact List.subset_append_left _ _
    · exact List.Subset.refl _
  · exact List.Subset.refl _

theorem run_subset (more : List (Z3Call V size)) : (T.run calls).2 ⊆ (T.run (calls ++ more)).2 := by
  induction more using List.reverseRecOn with
  | nil => rw [List.append_nil]; exact List.Subset.refl _
  | append_singleton more c ih =>
    rw [← List.append_assoc, run_append_singleton]
    exact List.Subset.trans ih (subset_step _)

theorem FewValues.mono {before : List (Z3Call V size)} (h : T.FewValues calls) (hb : before <+: calls) :
    T.FewValues before := by
  obtain ⟨more, rfl⟩ := hb
  refine lt_of_le_of_lt (Finset.card_le_card fun v hv => ?_) h
  obtain ⟨p, hp, rfl⟩ := List.mem_map.1 (List.mem_toFinset.1 hv)
  exact List.mem_toFinset.2 (List.mem_map_of_mem (run_subset more hp))

theorem Faithful.mono {standIn : V → Option V} {before : List (Z3Call V size)} (h : T.Faithful standIn calls)
    (hb : before <+: calls) : T.Faithful standIn before where
  codes p hp q hq := by
    obtain ⟨more, rfl⟩ := hb
    exact h.codes p (run_subset more hp) q (run_subset more hq)
  values first hf := h.values first (hf.trans hb)

/-- A translator that numbers its values in every part of a run is right about it. -/
theorem faithful_of_coded {standIn : V → Option V} (hT : T.toOs = Codes.value) (hfew : T.FewValues calls)
    (hcoded : ∀ before, before <+: calls → ∃ ks, Coded (fun v => (standIn v).getD v) (T.run before) ks)
    (hkey : ∀ p ∈ (T.run calls).2, ∀ q ∈ (T.run calls).2, (standIn p.1).getD p.1 = (standIn q.1).getD q.1 ↔
      p.1 = q.1 ∨ (standIn p.1).isSome ∧ (standIn q.1).isSome) : T.Faithful standIn calls where
  codes p hp q hq := by
    obtain ⟨ks, hks⟩ := hcoded calls List.prefix_rfl
    exact (hks.code_eq_iff (hks.length_lt hfew) hp hq).trans (hkey p hp q hq)
  values before hb p hp := by
    obtain ⟨ks, hks⟩ := hcoded before hb
    rw [hT]
    exact hks.value (hks.length_lt (hfew.mono hb)) hp

end Z3Type

/-! ## Texts -/

open Z3Type

theorem stringType_hit {strict : Bool} {bvect : BitVec size} (h : m.map.lookup v = some bvect) :
    (stringType size).toZ3 m v strict = .ok (bvect, m) := by
  simp only [stringType, h]

theorem stringType_miss {strict : Bool} (h : m.map.lookup v = none) :
    (stringType size).toZ3 m v strict = .ok (m.allocate v) := by
  simp only [stringType, h]

theorem stringType_coded (calls : List (Z3Call V size)) : ∃ ks, Coded (fun v => v) ((stringType size).run calls) ks := by
  induction calls using List.reverseRecOn with
  | nil => exact ⟨[], reset_coded⟩
  | append_singleton calls c ih =>
    obtain ⟨ks, hks⟩ := ih
    rw [run_append_singleton]
    cases c with
    | toOs val => exact ⟨ks, hks⟩
    | toZ3 val strict =>
      by_cases hv : val ∈ ks
      · refine ⟨ks, ?_⟩
        have hcode := hks.numbered.code val hv
        rw [step_ok (stringType_hit hcode)]
        exact hks.hit hv hcode
      · refine ⟨ks ++ [val], ?_⟩
        rw [step_ok (stringType_miss (hks.numbered.lookup_none hv))]
        exact hks.miss hv

theorem stringType_faithful (calls : List (Z3Call V size)) (hfew : (stringType size).FewValues calls) :
    (stringType size).Faithful (fun _ => none) calls :=
  faithful_of_coded rfl hfew (fun before _ => stringType_coded before) fun p _ q _ => by simp

/-! ## Finite domains -/

variable {other : A} {domain : Finset (Option A)} {val : Option A}

/-- What a value of a finite type is encoded as. -/
abbrev finiteKey (other : A) (domain : Finset (Option A)) (val : Option A) : Option A :=
  (standIn other domain val).getD val

theorem finiteKey_inside (h : ¬Outside domain val) : finiteKey other domain val = val := by
  simp [finiteKey, standIn, h]

theorem finiteKey_outside (h : Outside domain val) : finiteKey other domain val = some other := by
  simp [finiteKey, standIn, h]

theorem isSome_standIn : (standIn other domain val).isSome ↔ Outside domain val := by
  unfold standIn
  split_ifs with h <;> simp [h]

variable {codes : Codes (Option A) (finiteSize domain)} {strict : Bool}

theorem finiteType_hit {bvect : BitVec (finiteSize domain)} (h : codes.map.lookup val = some bvect) :
    (finiteType other domain).toZ3 codes val strict = .ok (bvect, codes) := by
  simp only [finiteType, h]

theorem finiteType_error (h : codes.map.lookup val = none) (ho : Outside domain val) :
    (finiteType other domain).toZ3 codes val true = .error (.policyRuntimeException val) := by
  have ho : val ∉ domain ∧ val ≠ none := ho
  simp only [finiteType, h, if_pos ho, if_true]

theorem finiteType_miss (h : codes.map.lookup val = none) (ho : Outside domain val → strict = false) :
    (finiteType other domain).toZ3 codes val strict = .ok (codes.allocate (finiteKey other domain val)) := by
  by_cases hout : Outside domain val
  · have hnot : val ∉ domain ∧ val ≠ none := hout
    simp only [finiteType, h, if_pos hnot, ho hout, finiteKey_outside hout, Bool.false_eq_true, if_false]
  · have hnot : ¬(val ∉ domain ∧ val ≠ none) := hout
    simp only [finiteType, h, if_neg hnot, finiteKey_inside hout]

/-- A run of a finite type in which the stand-in has got a code once. -/
structure FiniteRun (other : A) (domain : Finset (Option A)) (calls : List (Z3Call (Option A) (finiteSize domain)))
    (ks : List (Option A)) : Prop where
  coded : Coded (finiteKey other domain) ((finiteType other domain).run calls) ks
  outside : some other ∈ ks → some other ∈ domain ∨ ∃ c ∈ calls, c.EncodesOutside domain
  inside : some other ∈ domain → ∀ p ∈ ((finiteType other domain).run calls).2, ¬Outside domain p.1

variable {calls : List (Z3Call (Option A) (finiteSize domain))} {c : Z3Call (Option A) (finiteSize domain)}
  {vs : List (Option A)}

/-- Values with codes stand for themselves. -/
theorem Coded.eq_other {s : Z3Type.History (Option A) (finiteSize domain)} (h : Coded (finiteKey other domain) s vs)
    (hv : val ∈ vs) (ho : Outside domain val) : val = some other := by
  obtain ⟨p, -, hp⟩ := h.keys val hv
  by_cases hpo : Outside domain p.1
  · exact hp.symm.trans (finiteKey_outside hpo)
  · rw [finiteKey_inside hpo] at hp
    exact absurd (hp ▸ ho) hpo

theorem Coded.key_eq {s : Z3Type.History (Option A) (finiteSize domain)} (h : Coded (finiteKey other domain) s vs)
    (hv : val ∈ vs) : finiteKey other domain val = val := by
  by_cases ho : Outside domain val
  · rw [finiteKey_outside ho, h.eq_other hv ho]
  · exact finiteKey_inside ho

theorem OtherOnce.mono {before : List (Z3Call (Option A) (finiteSize domain))} (h : OtherOnce other domain calls)
    (hb : before <+: calls) : OtherOnce other domain before :=
  ⟨h.once.sublist hb.sublist, fun ho c hc => h.apart ho c (hb.subset hc)⟩

/-- A call for a value with a code. -/
theorem FiniteRun.hit (h : FiniteRun other domain calls vs) (strict : Bool) (hv : val ∈ vs) :
    FiniteRun other domain (calls ++ [.toZ3 val strict]) vs := by
  obtain ⟨bvect, hb⟩ : ∃ bvect, ((finiteType other domain).run calls).1.map.lookup val = some bvect :=
    ⟨_, h.coded.numbered.code val hv⟩
  have hrun : (finiteType other domain).run (calls ++ [.toZ3 val strict])
      = (((finiteType other domain).run calls).1, ((finiteType other domain).run calls).2 ++ [(val, bvect)]) := by
    rw [run_append_singleton, step_ok (finiteType_hit hb)]
  refine ⟨?_, fun ho => (h.outside ho).imp_right fun hc => ?_, fun ho p hp => ?_⟩
  · rw [hrun]
    have hkey := h.coded.key_eq hv
    exact h.coded.hit (hkey.symm ▸ hv) (hkey.symm ▸ hb)
  · obtain ⟨c, hc, hout⟩ := hc
    exact ⟨c, List.mem_append_left _ hc, hout⟩
  · rw [hrun] at hp
    rcases List.mem_append.1 hp with hp | hp
    · exact h.inside ho p hp
    · rw [List.mem_singleton.1 hp]
      exact fun hout => hout.1 (h.coded.eq_other hv hout ▸ ho)

/-- A call for a value without a code, where what it is encoded as has none either. -/
theorem FiniteRun.miss (h : FiniteRun other domain calls vs) {strict : Bool} (hv : val ∉ vs)
    (hkey : finiteKey other domain val ∉ vs) (ho : Outside domain val → strict = false ∧ some other ∉ domain) :
    FiniteRun other domain (calls ++ [.toZ3 val strict]) (vs ++ [finiteKey other domain val]) := by
  have hrun : (finiteType other domain).run (calls ++ [.toZ3 val strict])
      = ((((finiteType other domain).run calls).1.allocate (finiteKey other domain val)).2,
        ((finiteType other domain).run calls).2
          ++ [(val, (((finiteType other domain).run calls).1.allocate (finiteKey other domain val)).1)]) := by
    rw [run_append_singleton,
      step_ok (finiteType_miss (h.coded.numbered.lookup_none hv) fun hout => (ho hout).1)]
    rfl
  refine ⟨?_, fun hmem => ?_, fun hdom p hp => ?_⟩
  · rw [hrun]
    exact h.coded.miss hkey
  · rcases List.mem_append.1 hmem with hmem | hmem
    · refine (h.outside hmem).imp_right fun hc => ?_
      obtain ⟨c, hc, hout⟩ := hc
      exact ⟨c, List.mem_append_left _ hc, hout⟩
    · by_cases hout : Outside domain val
      · exact .inr ⟨_, List.mem_append_right _ (List.mem_singleton_self _), hout, (ho hout).1⟩
      · rw [finiteKey_inside hout] at hmem
        rw [← List.mem_singleton.1 hmem] at hout
        exact .inl (not_not.1 fun hdom => hout ⟨hdom, by simp⟩)
  · rw [hrun] at hp
    rcases List.mem_append.1 hp with hp | hp
    · exact h.inside hdom p hp
    · rw [List.mem_singleton.1 hp]
      exact fun hout => (ho hout).2 hdom

theorem finiteType_run (h : OtherOnce other domain calls) : ∃ vs, FiniteRun other domain calls vs := by
  induction calls using List.reverseRecOn with
  | nil => exact ⟨[], reset_coded, fun hm => (List.not_mem_nil hm).elim, fun _ _ hp => (List.not_mem_nil hp).elim⟩
  | append_singleton calls c ih =>
    obtain ⟨vs, hvs⟩ := ih (h.mono (List.prefix_append _ _))
    have hsame : (finiteType other domain).run (calls ++ [c]) = (finiteType other domain).run calls →
        FiniteRun other domain (calls ++ [c]) vs := fun heq =>
      ⟨heq ▸ hvs.coded, fun hm => (hvs.outside hm).imp_right fun hc => hc.imp fun c hc =>
        ⟨List.mem_append_left _ hc.1, hc.2⟩, heq ▸ hvs.inside⟩
    cases c with
    | toOs val => exact ⟨vs, hsame run_append_singleton⟩
    | toZ3 val strict =>
      by_cases hv : val ∈ vs
      · exact ⟨vs, hvs.hit strict hv⟩
      by_cases hout : Outside domain val
      · cases strict with
        | true =>
          refine ⟨vs, hsame ?_⟩
          rw [run_append_singleton, step_error (finiteType_error (hvs.coded.numbered.lookup_none hv) hout)]
        | false =>
          have hc : (Z3Call.toZ3 val false : Z3Call (Option A) (finiteSize domain)).EncodesOutside domain := ⟨hout, rfl⟩
          have hdom : some other ∉ domain := fun hdom =>
            h.apart hdom _ (List.mem_append_right _ (List.mem_singleton_self _)) hc
          refine ⟨_, hvs.miss hv ?_ fun _ => ⟨rfl, hdom⟩⟩
          rw [finiteKey_outside hout]
          intro hmem
          obtain ⟨c, hc', hcout⟩ := (hvs.outside hmem).resolve_left hdom
          have heq := (List.pairwise_append.1 h.once).2.2 c hc' _ (List.mem_singleton_self _) hcout hc
          exact hv ((Z3Call.toZ3.inj heq).1 ▸ hmem)
      · refine ⟨_, hvs.miss hv ?_ fun ho => absurd ho hout⟩
        rwa [finiteKey_inside hout]

theorem finiteType_faithful (h : OtherOnce other domain calls) (hfew : (finiteType other domain).FewValues calls) :
    (finiteType other domain).Faithful (standIn other domain) calls := by
  refine faithful_of_coded rfl hfew (fun before hb => ?_) fun p hp q hq => ?_
  · obtain ⟨vs, hvs⟩ := finiteType_run (h.mono hb)
    exact ⟨vs, hvs.coded⟩
  obtain ⟨vs, hvs⟩ := finiteType_run h
  rw [isSome_standIn, isSome_standIn]
  change finiteKey other domain p.1 = finiteKey other domain q.1 ↔ _
  by_cases hpo : Outside domain p.1 <;> by_cases hqo : Outside domain q.1
  · simp only [finiteKey_outside hpo, finiteKey_outside hqo, hpo, hqo, and_self, or_true]
  · rw [finiteKey_outside hpo, finiteKey_inside hqo]
    refine ⟨fun heq => ?_, fun heq => ?_⟩
    · exact absurd hpo (hvs.inside (not_not.1 fun hdom => hqo (heq ▸ ⟨hdom, by simp⟩)) p hp)
    · exact absurd (heq.elim (fun heq => heq ▸ hpo) fun heq => heq.2) hqo
  · rw [finiteKey_inside hpo, finiteKey_outside hqo]
    refine ⟨fun heq => ?_, fun heq => ?_⟩
    · exact absurd hqo (hvs.inside (not_not.1 fun hdom => hpo (heq ▸ ⟨hdom, by simp⟩)) q hq)
    · exact absurd (heq.elim (fun heq => heq ▸ hqo) fun heq => heq.1) hpo
  · rw [finiteKey_inside hpo, finiteKey_inside hqo]
    simp only [hpo, false_and, or_false]

/-- A call for a value outside the domain has encoded it. -/
theorem mem_run_of_encodesOutside (hc : c ∈ calls) (ho : c.EncodesOutside domain) :
    ∃ p ∈ ((finiteType other domain).run calls).2, Outside domain p.1 := by
  obtain ⟨before, more, rfl⟩ := List.append_of_mem hc
  cases c with
  | toOs val => exact ho.elim
  | toZ3 val strict =>
    obtain ⟨hout, rfl⟩ := ho
    obtain ⟨r, hr⟩ : ∃ r, (finiteType other domain).toZ3 ((finiteType other domain).run before).1 val false = .ok r := by
      cases hl : ((finiteType other domain).run before).1.map.lookup val with
      | some bvect => exact ⟨_, finiteType_hit hl⟩
      | none => exact ⟨_, finiteType_miss hl fun _ => rfl⟩
    refine ⟨(val, r.1), ?_, hout⟩
    rw [List.append_cons]
    refine run_subset more ?_
    rw [run_append_singleton, step_ok hr]
    exact List.mem_append_right _ (List.mem_singleton_self _)

/-- A second code for the stand-in is not the first one. -/
theorem otherOnce_of_faithful (hdom : some other ∉ domain) (hfew : (finiteType other domain).FewValues calls)
    (h : (finiteType other domain).Faithful (standIn other domain) calls) : OtherOnce other domain calls := by
  refine ⟨?_, fun hd => absurd hd hdom⟩
  induction calls using List.reverseRecOn with
  | nil => exact .nil
  | append_singleton calls c ih =>
    have hb : calls <+: calls ++ [c] := List.prefix_append _ _
    have hbefore := ih (hfew.mono hb) (h.mono hb)
    refine List.pairwise_append.2 ⟨hbefore, List.pairwise_singleton _ _, fun c₀ hc₀ c' hc' hout₀ hout => ?_⟩
    rw [List.mem_singleton.1 hc'] at hout ⊢
    have honce : OtherOnce other domain calls := ⟨hbefore, fun hd => absurd hd hdom⟩
    obtain ⟨vs, hvs⟩ := finiteType_run honce
    have houtside : ∃ p ∈ ((finiteType other domain).run calls).2, Outside domain p.1 :=
      mem_run_of_encodesOutside hc₀ hout₀
    obtain ⟨p, hp, hpo⟩ := houtside
    cases c with
    | toOs val => exact hout.elim
    | toZ3 val strict =>
      obtain ⟨hval, rfl⟩ := hout
      by_contra hne
      have hv : val ∉ vs := fun hv => hne (by rw [hvs.coded.eq_other hv hval])
      have hrun : (finiteType other domain).run (calls ++ [.toZ3 val false])
          = (finiteType other domain).step ((finiteType other domain).run calls) (.toZ3 val false) :=
        run_append_singleton
      rw [step_ok (finiteType_miss (hvs.coded.numbered.lookup_none hv) fun _ => rfl)] at hrun
      have hp' := run_subset [Z3Call.toZ3 val false] hp
      have hq' : (val, (((finiteType other domain).run calls).1.allocate (finiteKey other domain val)).1)
          ∈ ((finiteType other domain).run (calls ++ [.toZ3 val false])).2 := by
        rw [hrun]
        exact List.mem_append_right _ (List.mem_singleton_self _)
      have heq := (h.codes p hp' _ hq').2 (.inr ⟨isSome_standIn.2 hpo, isSome_standIn.2 hval⟩)
      exact hvs.coded.code_ne_next (hvs.coded.length_lt (hfew.mono hb)) hp (finiteKey other domain val) heq

/-! ## Integers -/

theorem mem_intType_run {size : ℕ} {p : ℤ × BitVec size} (calls : List (Z3Call ℤ size)) :
    p ∈ ((intType size).run calls).2 ↔ (∃ strict, .toZ3 p.1 strict ∈ calls) ∧ p.2 = BitVec.ofInt size p.1 := by
  induction calls using List.reverseRecOn with
  | nil => simp [run]
  | append_singleton calls c ih =>
    rw [run_append_singleton]
    cases c with
    | toOs val =>
      change p ∈ ((intType size).run calls).2 ↔ _
      rw [ih]
      simp
    | toZ3 val strict =>
      change p ∈ ((intType size).run calls).2 ++ [(val, BitVec.ofInt size val)] ↔ _
      rw [List.mem_append, List.mem_singleton, ih]
      obtain ⟨v, b⟩ := p
      simp only [List.mem_append, List.mem_singleton, Z3Call.toZ3.injEq, Prod.mk.injEq]
      constructor
      · rintro (⟨⟨strict', hc⟩, hb⟩ | ⟨rfl, rfl⟩)
        · exact ⟨⟨strict', .inl hc⟩, hb⟩
        · exact ⟨⟨strict, .inr ⟨rfl, rfl⟩⟩, rfl⟩
      · rintro ⟨⟨strict', hc | ⟨rfl, -⟩⟩, hb⟩
        · exact .inl ⟨⟨strict', hc⟩, hb⟩
        · exact .inr ⟨rfl, hb⟩

theorem ofInt_toNat {i : ℤ} (h0 : 0 ≤ i) (hlt : i < 2 ^ size) : ((BitVec.ofInt size i).toNat : ℤ) = i := by
  have hpos : ((2 ^ size : ℕ) : ℤ) ≠ 0 := by exact_mod_cast (Nat.two_pow_pos size).ne'
  rw [BitVec.toNat_ofInt, Int.toNat_of_nonneg (Int.emod_nonneg _ hpos)]
  exact Int.emod_eq_of_lt h0 (by exact_mod_cast hlt)

theorem intType_faithful_iff {size : ℕ} (calls : List (Z3Call ℤ size)) : (intType size).Faithful (fun _ => none) calls ↔
    ∀ val strict, .toZ3 val strict ∈ calls → 0 ≤ val ∧ val < 2 ^ size := by
  constructor
  · intro h val strict hc
    have hvalue := h.values calls List.prefix_rfl (val, BitVec.ofInt size val)
      ((mem_intType_run calls).2 ⟨⟨strict, hc⟩, rfl⟩)
    have heq : ((BitVec.ofInt size val).toNat : ℤ) = val := Except.ok.inj hvalue
    have hlt := (BitVec.ofInt size val).isLt
    exact ⟨heq ▸ Int.natCast_nonneg _, heq ▸ by exact_mod_cast hlt⟩
  · intro h
    have hback : ∀ p ∈ ((intType size).run calls).2, (p.2.toNat : ℤ) = p.1 := fun p hp => by
      obtain ⟨⟨strict, hc⟩, hcode⟩ := (mem_intType_run calls).1 hp
      obtain ⟨h0, hlt⟩ := h _ _ hc
      rw [hcode, ofInt_toNat h0 hlt]
    refine ⟨fun p hp q hq => ?_, fun before hb p hp => ?_⟩
    · simp only [Option.isSome_none, Bool.false_eq_true, and_self, or_false]
      refine ⟨fun heq => by rw [← hback p hp, ← hback q hq, heq], fun heq => ?_⟩
      rw [((mem_intType_run calls).1 hp).2, ((mem_intType_run calls).1 hq).2, heq]
    · obtain ⟨more, rfl⟩ := hb
      exact congrArg Except.ok (hback p (run_subset more hp))

/-- Encodings are faithful if the calls are clear, and only then if the stand-in is no value of the domain. -/
theorem encodings_faithful_iff (T : Translator A) (calls : List (Z3Call T.Value T.width)) (hfew : T.type.FewValues calls) :
    (T.Clear calls → T.type.Faithful T.standIn calls)
      ∧ (T.Apart → T.type.Faithful T.standIn calls → T.Clear calls) := by
  cases T with
  | string size => exact ⟨fun _ => stringType_faithful calls hfew, fun _ _ => trivial⟩
  | finite other domain => exact ⟨fun h => finiteType_faithful h hfew, fun hdom h => otherOnce_of_faithful hdom hfew h⟩
  | int size => exact ⟨(intType_faithful_iff calls).2, fun _ => (intType_faithful_iff calls).1⟩

/-- A type of two values. -/
def smallType : Translator String := .finite "__OTHER__" {some "a", some "b"}

/-- One value outside the domain, a value of it, and the stand-in. -/
theorem encodings_faithful_iff_once : smallType.type.Faithful smallType.standIn
    [.toZ3 (some "x") false, .toZ3 (some "a") true, .toZ3 (some "__OTHER__") false] := by
  have honce : OtherOnce "__OTHER__" {some "a", some "b"} ([.toZ3 (some "x") false, .toZ3 (some "a") true,
      .toZ3 (some "__OTHER__") false] : List (Z3Call (Option String) (finiteSize {some "a", some "b"}))) :=
    ⟨by simp [Z3Call.EncodesOutside], fun h => absurd h (by decide +kernel)⟩
  exact (encodings_faithful_iff smallType _ (by unfold FewValues; decide +kernel)).1 honce

/-- Two values outside a domain get two codes, and -1 comes back as another integer. -/
theorem not_encodings_faithful :
    (smallType.type.FewValues [.toZ3 (some "x") false, .toZ3 (some "y") false]
      ∧ ¬smallType.type.Faithful smallType.standIn [.toZ3 (some "x") false, .toZ3 (some "y") false])
    ∧ (Translator.int 32 : Translator String).type.FewValues [.toZ3 (-1 : ℤ) false]
      ∧ ¬(Translator.int 32 : Translator String).type.Faithful (Translator.int 32 : Translator String).standIn
        [.toZ3 (-1 : ℤ) false] := by
  refine ⟨⟨by unfold FewValues; decide +kernel, fun h => ?_⟩, by unfold FewValues; decide +kernel, fun h => ?_⟩
  · have heq := (h.codes (some "x", 0) (by decide +kernel) (some "y", 1) (by decide +kernel)).2
    exact absurd (heq (.inr ⟨by decide +kernel, by decide +kernel⟩)) (by decide +kernel)
  · have heq := h.values _ List.prefix_rfl (-1, BitVec.ofInt 32 (-1)) (by decide +kernel)
    exact absurd (Except.ok.inj heq) (by decide +kernel)

end Congress
