import Congress.JsonIngester
import Congress.Lib.Numerals

/-!
# The database table follows the source

After a poll whose write does not fail, the table has one row for each item, under the item's key.
This is so throughout a run exactly if no poll finds no items while the table has rows and what it
holds is not known (`poll_follows_iff`), for then nothing is written.
-/

namespace Congress

open Lib

set_option linter.unusedSectionVars false

variable {D : Type*} [DecidableEq D] {keys : KeyMap D} {d d' : D} {key : ℤ} {pop : Finset ℤ → ℤ}

/-! ## Keys -/

/-- Different data have different keys, and keys that are free or still to come are not in use. -/
structure KeyMap.WellFormed (keys : KeyMap D) : Prop where
  inj : ∀ d d' key, keys.keyMapping.lookup d = some key → keys.keyMapping.lookup d' = some key →
    d = d'
  used : ∀ d key, keys.keyMapping.lookup d = some key →
    key < keys.nextIncrementalKey ∧ key ∉ keys.reclaimedFreeKeys
  free : ∀ key ∈ keys.reclaimedFreeKeys, key < keys.nextIncrementalKey

namespace KeyMap

theorem new_wellFormed (maxsize : ℤ) : (new maxsize : KeyMap D).WellFormed := by
  refine ⟨?_, ?_, ?_⟩ <;> simp [new]

/-- A new datum gets a key that no other has. -/
theorem WellFormed.add (h : keys.WellFormed) (hpop : ∀ s, s.Nonempty → pop s ∈ s)
    (hd : keys.keyMapping.lookup d = none) : (keys.addAndGetKey pop d).2.WellFormed
      ∧ (∀ d', keys.keyMapping.lookup d' ≠ some (keys.addAndGetKey pop d).1)
      ∧ ∀ d', (keys.addAndGetKey pop d).2.keyMapping.lookup d'
        = if d' = d then some (keys.addAndGetKey pop d).1 else keys.keyMapping.lookup d' := by
  have hlookup : ∀ key d', (keys.keyMapping.insert d key).lookup d'
      = if d' = d then some key else keys.keyMapping.lookup d' := by
    intro key d'
    split_ifs with he
    · rw [he, AList.lookup_insert]
    · rw [AList.lookup_insert_ne he]
  -- a key that no datum has can be given to the new one
  have hinj : ∀ new, (∀ d', keys.keyMapping.lookup d' ≠ some new) → ∀ d₁ d₂ key,
      (keys.keyMapping.insert d new).lookup d₁ = some key →
      (keys.keyMapping.insert d new).lookup d₂ = some key → d₁ = d₂ := by
    intro new hnew d₁ d₂ key h₁ h₂
    rw [hlookup] at h₁ h₂
    split_ifs at h₁ h₂ with e₁ e₂ e₂
    · rw [e₁, e₂]
    · exact absurd (h₂.trans h₁.symm) (hnew d₂)
    · exact absurd (h₁.trans h₂.symm) (hnew d₁)
    · exact h.inj _ _ _ h₁ h₂
  unfold addAndGetKey
  rw [hd]
  dsimp only
  split_ifs with hfree
  · have hmem := hpop _ hfree
    have hnew : ∀ d', keys.keyMapping.lookup d' ≠ some (pop keys.reclaimedFreeKeys) :=
      fun d' hd' => (h.used d' _ hd').2 hmem
    refine ⟨⟨hinj _ hnew, ?_, ?_⟩, hnew, hlookup _⟩
    · intro d' key h'
      rw [hlookup] at h'
      split_ifs at h' with he
      · cases h'
        exact ⟨h.free _ hmem, Finset.notMem_erase _ keys.reclaimedFreeKeys⟩
      · exact ⟨(h.used d' key h').1, fun hk => (h.used d' key h').2 (Finset.mem_of_mem_erase hk)⟩
    · exact fun key hk => h.free key (Finset.mem_of_mem_erase hk)
  · have hnew : ∀ d', keys.keyMapping.lookup d' ≠ some keys.nextIncrementalKey :=
      fun d' hd' => absurd (h.used d' _ hd').1 (lt_irrefl _)
    refine ⟨⟨hinj _ hnew, ?_, by simp⟩, hnew, hlookup _⟩
    · intro d' key h'
      rw [hlookup] at h'
      split_ifs at h' with he
      · cases h'
        exact ⟨by dsimp only; omega, by simp⟩
      · have := (h.used d' key h').1
        exact ⟨by dsimp only; omega, by simp⟩

/-- The key of a datum that is removed becomes free. -/
theorem WellFormed.remove (h : keys.WellFormed) (hd : keys.keyMapping.lookup d = some key) :
    ∃ keys', keys.removeAndGetKey d = some (key, keys') ∧ keys'.WellFormed
      ∧ ∀ d', keys'.keyMapping.lookup d' = if d' = d then none else keys.keyMapping.lookup d' := by
  have hlookup : ∀ d', (keys.keyMapping.erase d).lookup d'
      = if d' = d then none else keys.keyMapping.lookup d' := by
    intro d'
    split_ifs with he
    · rw [he, AList.lookup_erase]
    · rw [AList.lookup_erase_ne he]
  refine ⟨_, by rw [removeAndGetKey, hd]; rfl, ⟨?_, ?_, ?_⟩, hlookup⟩
  · intro d₁ d₂ key h₁ h₂
    rw [hlookup] at h₁ h₂
    split_ifs at h₁ h₂
    exact h.inj _ _ _ h₁ h₂
  · intro d' key' h'
    rw [hlookup] at h'
    split_ifs at h' with he
    refine ⟨(h.used d' key' h').1, fun hk => ?_⟩
    rcases Finset.mem_insert.1 hk with rfl | hk
    · exact he (h.inj _ _ _ h' hd)
    · exact (h.used d' key' h').2 hk
  · intro key' hk
    rcases Finset.mem_insert.1 hk with rfl | hk
    · exact (h.used d _ hd).1
    · exact h.free key' hk

end KeyMap

/-! ## Rows -/

/-- The rows are those of the data with a key, which are the items. -/
structure Synced (rows : List (D × String)) (keys : KeyMap D) (items : Set D) : Prop where
  wellFormed : keys.WellFormed
  nodup : (rows.map Prod.snd).Nodup
  mem : ∀ d text, (d, text) ∈ rows ↔ ∃ key, keys.keyMapping.lookup d = some key ∧ text = toString key
  items : ∀ d, (∃ key, keys.keyMapping.lookup d = some key) ↔ d ∈ items

namespace Synced

open IngestTable

variable {rows : List (D × String)} {items : Set D}

theorem nil (maxsize : ℤ) : Synced ([] : List (D × String)) (KeyMap.new maxsize) ∅ :=
  ⟨KeyMap.new_wellFormed maxsize, by simp, by simp [KeyMap.new], by simp [KeyMap.new]⟩

theorem insertDatum (h : Synced rows keys items) (hpop : ∀ s, s.Nonempty → pop s ∈ s)
    (hd : d ∉ items) : ∃ written, IngestTable.insertDatum pop (rows, keys) d = some written
      ∧ Synced written.1 written.2 (insert d items) := by
  have hnone : keys.keyMapping.lookup d = none := by
    rw [Option.eq_none_iff_forall_ne_some]
    exact fun key hk => hd ((h.items d).1 ⟨key, hk⟩)
  obtain ⟨hwf, hnew, hlookup⟩ := h.wellFormed.add hpop hnone
  have hfresh : ∀ row ∈ rows, row.2 ≠ toString (keys.addAndGetKey pop d).1 := by
    rintro ⟨d', text⟩ hrow he
    obtain ⟨key, hkey, rfl⟩ := (h.mem d' text).1 hrow
    exact hnew d' (intToString_injective he ▸ hkey)
  refine ⟨(rows ++ [(d, toString (keys.addAndGetKey pop d).1)], (keys.addAndGetKey pop d).2), ?_,
    hwf, ?_, ?_, ?_⟩
  · have hinsert : insertRow rows (d, toString (keys.addAndGetKey pop d).1)
        = some (rows ++ [(d, toString (keys.addAndGetKey pop d).1)]) := by
      refine if_neg fun hany => ?_
      obtain ⟨row, hrow, he⟩ := List.any_eq_true.1 hany
      exact hfresh row hrow (of_decide_eq_true he)
    change (insertRow rows (d, toString (keys.addAndGetKey pop d).1)).map _ = _
    rw [hinsert]
    rfl
  · rw [List.map_append, List.nodup_append]
    refine ⟨h.nodup, by simp, ?_⟩
    intro text htext text' htext' he
    obtain ⟨row, hrow, rfl⟩ := List.mem_map.1 htext
    obtain rfl : text' = toString (keys.addAndGetKey pop d).1 := by simpa using htext'
    exact hfresh row hrow he
  · intro d' text
    rw [List.mem_append, h.mem, hlookup, List.mem_singleton, Prod.mk.injEq]
    by_cases he : d' = d
    · subst he
      simp [hnone]
    · simp [he]
  · intro d'
    rw [hlookup, Set.mem_insert_iff, ← h.items]
    by_cases he : d' = d
    · simp [he]
    · simp [he]

theorem deleteDatum (h : Synced rows keys items) (hd : d ∈ items) :
    ∃ written, IngestTable.deleteDatum (rows, keys) d = some written
      ∧ Synced written.1 written.2 (items \ {d}) := by
  obtain ⟨key, hkey⟩ := (h.items d).2 hd
  obtain ⟨keys', hremove, hwf, hlookup⟩ := h.wellFormed.remove hkey
  refine ⟨(deleteRow rows (toString key), keys'), ?_, hwf, ?_, ?_, ?_⟩
  · rw [IngestTable.deleteDatum, hremove]
    rfl
  · exact h.nodup.sublist (List.filter_sublist.map _)
  · intro d' text
    simp only [deleteRow, List.mem_filter, h.mem, decide_eq_true_eq, hlookup]
    constructor
    · rintro ⟨⟨key', hkey', rfl⟩, hne⟩
      have : d' ≠ d := by
        rintro rfl
        exact hne (by rw [Option.some.inj (hkey'.symm.trans hkey)])
      exact ⟨key', by rw [if_neg this, hkey'], rfl⟩
    · rintro ⟨key', hkey', rfl⟩
      split_ifs at hkey' with he
      refine ⟨⟨key', hkey', rfl⟩, fun htext => he ?_⟩
      exact h.wellFormed.inj _ _ _ (intToString_injective htext ▸ hkey') hkey
  · intro d'
    rw [hlookup, Set.mem_sdiff, ← h.items, Set.mem_singleton_iff]
    by_cases he : d' = d
    · simp [he]
    · simp [he]

theorem foldlM_insertDatum (hpop : ∀ s, s.Nonempty → pop s ∈ s) : ∀ {ds : List D}
    {rows : List (D × String)} {keys : KeyMap D} {items : Set D}, Synced rows keys items → ds.Nodup →
    (∀ d ∈ ds, d ∉ items) →
    ∃ written, ds.foldlM (IngestTable.insertDatum pop) (rows, keys) = some written
      ∧ Synced written.1 written.2 (items ∪ {d | d ∈ ds})
  | [], rows, keys, items, h, _, _ => ⟨(rows, keys), rfl, by simpa using h⟩
  | d :: ds, rows, keys, items, h, hnodup, hds => by
    obtain ⟨hd, hnodup⟩ := List.nodup_cons.1 hnodup
    obtain ⟨⟨rows', keys'⟩, hone, h'⟩ := h.insertDatum hpop (hds d (List.mem_cons_self ..))
    obtain ⟨written, hwritten, hsynced⟩ := foldlM_insertDatum hpop h' hnodup fun d' hd' => by
      rintro (rfl | hitem)
      · exact hd hd'
      · exact hds d' (List.mem_cons_of_mem _ hd') hitem
    refine ⟨written, by rw [List.foldlM_cons, hone]; exact hwritten, ?_⟩
    convert hsynced using 1
    ext d'
    simp only [Set.mem_union, Set.mem_insert_iff, Set.mem_ofPred_eq, List.mem_cons]
    tauto

theorem foldlM_deleteDatum : ∀ {ds : List D} {rows : List (D × String)} {keys : KeyMap D}
    {items : Set D}, Synced rows keys items → ds.Nodup → (∀ d ∈ ds, d ∈ items) →
    ∃ written, ds.foldlM IngestTable.deleteDatum (rows, keys) = some written
      ∧ Synced written.1 written.2 (items \ {d | d ∈ ds})
  | [], rows, keys, items, h, _, _ => ⟨(rows, keys), rfl, by simpa using h⟩
  | d :: ds, rows, keys, items, h, hnodup, hds => by
    obtain ⟨hd, hnodup⟩ := List.nodup_cons.1 hnodup
    obtain ⟨⟨rows', keys'⟩, hone, h'⟩ := h.deleteDatum (hds d (List.mem_cons_self ..))
    obtain ⟨written, hwritten, hsynced⟩ := foldlM_deleteDatum h' hnodup fun d' hd' =>
      ⟨hds d' (List.mem_cons_of_mem _ hd'), fun he => hd (Set.mem_singleton_iff.1 he ▸ hd')⟩
    refine ⟨written, by rw [List.foldlM_cons, hone]; exact hwritten, ?_⟩
    convert hsynced using 1
    ext d'
    simp only [Set.mem_sdiff, Set.mem_singleton_iff, Set.mem_ofPred_eq, List.mem_cons]
    tauto

end Synced

/-! ## Polls of a table -/

namespace IngestTable

variable {maxsize : ℤ} {t : IngestTable D} {p : IngestPoll D} {s : Finset D}

/-- The rows are one for each item, each under the item's key, and the keys are different. -/
structure Agrees (t : IngestTable D) (s : Finset D) : Prop where
  once : (t.rows.map Prod.fst).Nodup
  items : ∀ d, d ∈ t.rows.map Prod.fst ↔ d ∈ s
  unique : (t.rows.map Prod.snd).Nodup
  key : ∀ d text, (d, text) ∈ t.rows → ∃ key, t.keys.keyMapping.lookup d = some key
    ∧ text = toString key

/-- What is kept: the table has the items of the state, or nothing is known of it. -/
def Kept (maxsize : ℤ) (t : IngestTable D) : Prop :=
  match t.state with
  | some s => Synced t.rows t.keys {d | d ∈ s}
  | none => t.keys = KeyMap.new maxsize

/-- One poll of a table. -/
def pollTable (maxsize : ℤ) (t : IngestTable D) (p : IngestPoll D) : IngestTable D :=
  ((t.update p).publish maxsize p t.state).1

/-- The table follows its source from before a poll to `t'` after it: if a write is needed and does
not go through, the rows are unchanged, else they are those of the items. -/
def Follows (t t' : IngestTable D) (p : IngestPoll D) : Prop :=
  match p.items with
  | none => t'.rows = t.rows
  | some s => if s ≠ t.state.getD ∅ ∧ p.succeeds = false then t'.rows = t.rows else t'.Agrees s

/-- No items are only found if the table is empty or what it holds is known. -/
def EmptyKnown (t : IngestTable D) (p : IngestPoll D) : Prop :=
  p.items = some ∅ → t.state = none → t.rows = []

theorem agrees_of_synced (h : Synced t.rows t.keys {d | d ∈ s}) : t.Agrees s := by
  have hmem : ∀ d, d ∈ t.rows.map Prod.fst ↔ d ∈ s := by
    intro d
    rw [← show d ∈ {d | d ∈ s} ↔ d ∈ s from Iff.rfl, ← h.items, List.mem_map]
    constructor
    · rintro ⟨⟨d, text⟩, hrow, rfl⟩
      obtain ⟨key, hkey, -⟩ := (h.mem d text).1 hrow
      exact ⟨key, hkey⟩
    · rintro ⟨key, hkey⟩
      exact ⟨(d, toString key), (h.mem d _).2 ⟨key, hkey, rfl⟩, rfl⟩
  refine ⟨?_, hmem, h.nodup, fun d text hrow => (h.mem d text).1 hrow⟩
  refine (List.nodup_map_iff_inj_on h.nodup.of_map).2 ?_
  rintro ⟨d, text⟩ hrow ⟨d', text'⟩ hrow' (rfl : d = d')
  obtain ⟨key, hkey, rfl⟩ := (h.mem _ _).1 hrow
  obtain ⟨key', hkey', rfl⟩ := (h.mem _ _).1 hrow'
  rw [Option.some.inj (hkey.symm.trans hkey')]

/-- The statements of a write go through if the keys are those of the rows, and write the items. -/
theorem write_synced (h : t.Kept maxsize) (s : Finset D) :
    ∃ rows keys, t.write maxsize p s (t.state.getD ∅) t.state.isNone = some (rows, keys)
      ∧ Synced rows keys {d | d ∈ s} := by
  unfold Kept at h
  unfold write
  rcases hs : t.state with _ | old
  · obtain ⟨⟨rows, keys⟩, hwritten, hsynced⟩ := (Synced.nil maxsize).foldlM_insertDatum p.pop_mem
      (p.nodup_list s) (by simp)
    exact ⟨rows, keys, hwritten, by simpa [p.mem_list] using hsynced⟩
  · rw [hs] at h
    obtain ⟨⟨rows, keys⟩, hdeleted, hkept⟩ := h.foldlM_deleteDatum (p.nodup_list (old \ s))
      fun d hd => (Finset.mem_sdiff.1 ((p.mem_list _ d).1 hd)).1
    obtain ⟨⟨rows', keys'⟩, hwritten, hsynced⟩ := hkept.foldlM_insertDatum p.pop_mem
      (p.nodup_list (s \ old)) fun d hd hitem =>
        (Finset.mem_sdiff.1 ((p.mem_list _ d).1 hd)).2 hitem.1
    refine ⟨rows', keys', ?_, ?_⟩
    · simp only [Option.isNone_some, Bool.false_eq_true, if_false, Option.getD_some]
      change ((p.list (old \ s)).foldlM deleteDatum (t.rows, t.keys)).bind _ = _
      rw [hdeleted]
      exact hwritten
    · convert hsynced using 1
      ext d
      simp only [Set.mem_ofPred_eq, Set.mem_union, Set.mem_sdiff, p.mem_list, Finset.mem_sdiff]
      tauto

/-- What a poll does to a table. -/
theorem pollTable_cases (h : t.Kept maxsize) (s : Finset D) (hitems : p.items = some s) :
    (s = t.state.getD ∅ ∧ t.pollTable maxsize p = { t with state := some s })
      ∨ (s ≠ t.state.getD ∅ ∧ p.succeeds = false
        ∧ t.pollTable maxsize p = ⟨none, KeyMap.new maxsize, t.rows⟩)
      ∨ (s ≠ t.state.getD ∅ ∧ p.succeeds = true ∧ ∃ rows keys,
        t.pollTable maxsize p = ⟨some s, keys, rows⟩ ∧ Synced rows keys {d | d ∈ s}) := by
  have hupdate : t.update p = { t with state := some s } := by rw [update, hitems]; rfl
  unfold pollTable publish
  rw [hupdate]
  obtain ⟨rows, keys, hwrite, hsynced⟩ := write_synced (p := p) h s
  have hwrite' : IngestTable.write maxsize { t with state := some s } p s (t.state.getD ∅)
    t.state.isNone = some (rows, keys) := hwrite
  by_cases he : s = t.state.getD ∅
  · exact .inl ⟨he, by rw [updateTable, if_pos (by exact he)]⟩
  · have hne : ¬ ((some s).getD ∅ = t.state.getD ∅) := he
    refine .inr ?_
    rcases hp : p.succeeds
    · refine .inl ⟨he, rfl, ?_⟩
      rw [updateTable, if_neg hne]
      simp only [Option.getD_some, hwrite', hp]
      rfl
    · refine .inr ⟨he, rfl, rows, keys, ?_, hsynced⟩
      rw [updateTable, if_neg hne]
      simp only [Option.getD_some, hwrite', hp]
      rfl

/-- A table follows its source exactly if no items are found only where it is known to be empty. -/
theorem follows_iff (h : t.Kept maxsize) : t.Follows (t.pollTable maxsize p) p ↔ t.EmptyKnown p := by
  unfold Follows EmptyKnown
  rcases hitems : p.items with _ | s
  · have : t.update p = t := by rw [update, hitems]; rfl
    simp [pollTable, publish, updateTable, this]
  dsimp only
  rcases pollTable_cases h s hitems
    with ⟨he, hpoll⟩ | ⟨hne, hp, hpoll⟩ | ⟨hne, hp, rows, keys, hpoll, hs⟩
  · rw [hpoll, if_neg (fun hne => hne.1 he)]
    unfold Kept at h
    rcases hstate : t.state with _ | old
    · obtain rfl : s = ∅ := by rw [he, hstate]; rfl
      constructor
      · rintro hagrees - -
        rw [List.eq_nil_iff_forall_not_mem]
        rintro ⟨d, text⟩ hrow
        exact absurd ((hagrees.items d).1 (List.mem_map_of_mem hrow)) (Finset.notMem_empty d)
      · intro hrows
        have hrows : t.rows = [] := hrows rfl rfl
        refine ⟨?_, ?_, ?_, ?_⟩ <;> simp [hrows]
    · rw [hstate] at h
      obtain rfl : s = old := by rw [he, hstate]; rfl
      exact ⟨fun _ _ hnone => absurd hnone (by simp), fun _ => agrees_of_synced h⟩
  · rw [hpoll, if_pos ⟨hne, hp⟩]
    refine ⟨fun _ hsome hstate => absurd ?_ hne, fun _ => rfl⟩
    rw [Option.some.inj hsome, hstate]
    rfl
  · rw [hpoll, if_neg (by simp [hp])]
    refine ⟨fun _ hsome hstate => absurd ?_ hne, fun _ => agrees_of_synced hs⟩
    rw [Option.some.inj hsome, hstate]
    rfl

theorem Kept.pollTable (h : t.Kept maxsize) (hfollows : t.Follows (t.pollTable maxsize p) p) :
    (t.pollTable maxsize p).Kept maxsize := by
  rcases hitems : p.items with _ | s
  · have hupdate : t.update p = t := by rw [update, hitems]; rfl
    have : t.pollTable maxsize p = t := by simp [IngestTable.pollTable, publish, updateTable, hupdate]
    rwa [this]
  have hempty := (follows_iff h).1 hfollows
  rcases pollTable_cases h s hitems
    with ⟨he, hpoll⟩ | ⟨hne, hp, hpoll⟩ | ⟨hne, hp, rows, keys, hpoll, hs⟩ <;>
    rw [hpoll]
  · unfold Kept at h ⊢
    dsimp only
    rcases hstate : t.state with _ | old <;> rw [hstate] at h he
    · obtain rfl : s = ∅ := he
      rw [h, hempty hitems hstate]
      simpa using Synced.nil maxsize
    · obtain rfl : s = old := he
      exact h
  · rfl
  · exact hs

end IngestTable

/-! ## Polls of a driver -/

namespace JsonIngester

variable {maxsize : ℤ} {ingester : JsonIngester D} {polls : String → IngestPoll D} {table : String}

theorem foldl_update {A : Type*} (f : String → A → A) : ∀ (ts : List String) (g : String → A),
    ts.Nodup → ∀ t, ts.foldl (fun g t => Function.update g t (f t (g t))) g t
      = if t ∈ ts then f t (g t) else g t
  | [], _, _, _ => rfl
  | t' :: ts, g, hnodup, t => by
    obtain ⟨hnot, hnodup⟩ := List.nodup_cons.1 hnodup
    rw [List.foldl_cons, foldl_update f ts _ hnodup]
    by_cases he : t = t'
    · subst he
      simp [hnot]
    · simp [he]

theorem foldl_publish (prior : String → Option (Finset D)) : ∀ (ts : List String)
    (g : String → IngestTable D) (change : Bool), (ts.foldl (fun (tables, change) t =>
        let (table, made) := (tables t).publish maxsize (polls t) (prior t)
        (Function.update tables t table, change || made)) (g, change)).1
      = ts.foldl (fun g t =>
          Function.update g t ((g t).publish maxsize (polls t) (prior t)).1) g
  | [], _, _ => rfl
  | _ :: ts, _, _ => foldl_publish prior ts _ _

/-- A poll of the driver polls each of its tables. -/
theorem tables_after (table : String) : (ingester.after maxsize polls).tables table
    = if table ∈ ingester.updateMethods then (ingester.tables table).pollTable maxsize (polls table)
      else ingester.tables table := by
  change (ingester.poll maxsize polls).1.tables table = _
  unfold poll
  dsimp only
  rw [foldl_publish (fun t => (ingester.tables t).state), foldl_update
    (fun t (g : IngestTable D) => (g.publish maxsize (polls t) (ingester.tables t).state).1) _ _
    ingester.nodup]
  unfold updateFromDatasource
  dsimp only
  rw [foldl_update (fun t (g : IngestTable D) => g.update (polls t)) _ _ ingester.nodup]
  split_ifs <;> rfl

/-- In a run from a new driver over any rows, a table follows its source at every poll exactly if none
finds no items while the table has rows and what it holds is not known. -/
theorem poll_follows_iff (ht : table ∈ ingester.updateMethods)
    (hstate : (ingester.tables table).state = none)
    (hkeys : (ingester.tables table).keys = KeyMap.new maxsize)
    (polls : List (String → IngestPoll D)) :
    Along (after maxsize)
        (fun i p => (i.tables table).Follows ((i.after maxsize p).tables table) (p table))
        ingester polls
      ↔ Along (after maxsize) (fun i p => (i.tables table).EmptyKnown (p table)) ingester polls := by
  refine along_iff_along (I := fun i => table ∈ i.updateMethods ∧ (i.tables table).Kept maxsize)
    (fun i p hi hfollows => ?_) (fun i p hi => ?_) polls ⟨ht, ?_⟩
  · refine ⟨hi.1, ?_⟩
    rw [tables_after, if_pos hi.1] at hfollows ⊢
    exact hi.2.pollTable hfollows
  · rw [tables_after, if_pos hi.1]
    exact IngestTable.follows_iff hi.2
  · unfold IngestTable.Kept
    rw [hstate]
    exact hkeys

/-- A driver of one table with rows of an earlier session. -/
def fresh (rows : List (String × String)) : JsonIngester String :=
  ⟨["t"], by decide, fun _ => ⟨none, KeyMap.new (2 ^ 63 - 1), rows⟩⟩

/-- A poll that finds some items. -/
noncomputable def found (items : Finset String) (succeeds : Bool) : String → IngestPoll String :=
  fun _ => {
    items := some items
    succeeds := succeeds
    list := Finset.toList
    pop := fun s => s.toList.headD 0
    nodup_list := Finset.nodup_toList
    mem_list := fun _ _ => Finset.mem_toList
    pop_mem := by
      intro s hs
      rcases hl : s.toList with _ | ⟨key, keys⟩
      · exact absurd (Finset.toList_eq_nil.1 hl) hs.ne_empty
      · exact Finset.mem_toList.1 (by rw [hl]; exact List.mem_cons_self ..) }

/-- A write that fails between two that do not. -/
theorem poll_follows_iff_failure : Along (after (2 ^ 63 - 1))
    (fun i p => (i.tables "t").Follows ((i.after (2 ^ 63 - 1) p).tables "t") (p "t"))
    (fresh [("z", "0")]) [found {"a"} true, found {"b"} false, found {"c"} true] := by
  refine (poll_follows_iff (by decide) rfl rfl _).2 ⟨?_, ?_, ?_, trivial⟩
  all_goals
    intro hempty
    simp [found] at hempty

/-- Rows of an earlier session stay if the first poll finds nothing, and so do those of a write that
was followed by a failure and a poll that finds nothing. -/
theorem not_poll_follows : ¬ Along (after (2 ^ 63 - 1))
      (fun i p => (i.tables "t").Follows ((i.after (2 ^ 63 - 1) p).tables "t") (p "t"))
      (fresh [("z", "0")]) [found ∅ true]
    ∧ ¬ Along (after (2 ^ 63 - 1))
      (fun i p => (i.tables "t").Follows ((i.after (2 ^ 63 - 1) p).tables "t") (p "t"))
      (fresh []) [found {"a"} true, found {"b"} false, found ∅ true] := by
  have hstep : ∀ (i : JsonIngester String) p, "t" ∈ i.updateMethods →
      (i.after (2 ^ 63 - 1) p).tables "t" = (i.tables "t").pollTable (2 ^ 63 - 1) (p "t") :=
    fun i p hi => by rw [tables_after, if_pos hi]
  have hfresh : ∀ rows, ((fresh rows).tables "t").Kept (2 ^ 63 - 1) := fun _ => rfl
  constructor
  · rintro ⟨h, -⟩
    rw [hstep _ _ (by decide)] at h
    exact absurd ((IngestTable.follows_iff (hfresh _)).1 h rfl rfl) (by decide)
  · rintro ⟨h₁, h₂, h₃, -⟩
    rw [hstep _ _ (by exact List.mem_singleton_self _)] at h₁ h₂ h₃
    rw [hstep _ _ (by exact List.mem_singleton_self _)] at h₂ h₃
    rw [hstep _ _ (by exact List.mem_singleton_self _)] at h₃
    have hkept₁ := (hfresh []).pollTable h₁
    have hkept₂ := hkept₁.pollTable h₂
    have hempty := (IngestTable.follows_iff hkept₂).1 h₃ rfl
    -- the first poll writes a row for `a`
    rcases IngestTable.pollTable_cases (p := found {"a"} true "t") (hfresh []) {"a"} rfl
      with ⟨he, -⟩ | ⟨-, hp, -⟩ | ⟨-, -, rows, keys, hpoll, hs⟩
    · exact absurd he (by decide)
    · cases hp
    obtain ⟨key, hkey⟩ := (hs.items "a").2 (Finset.mem_singleton_self _)
    have hrow := (hs.mem "a" _).2 ⟨key, hkey, rfl⟩
    rw [hpoll] at hkept₁ hempty
    rcases IngestTable.pollTable_cases (p := found {"b"} false "t") hkept₁ {"b"} rfl
      with ⟨he, -⟩ | ⟨-, -, hpoll₂⟩ | ⟨-, hp, -⟩
    · exact absurd (show ({"b"} : Finset String) = {"a"} from he) (by decide)
    · rw [hpoll₂] at hempty
      have hrows : rows = [] := hempty rfl
      rw [hrows] at hrow
      cases hrow
    · cases hp

end JsonIngester

end Congress
