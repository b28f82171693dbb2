import Mathlib.Data.Multiset.OrderedMonoid
import Congress.ModalIndexes

/-!
# Exactness of modal indexes

The dictionaries with all their counts refine those of `ModalHeap`, which are multisets
(`iadd_refines`, `isub_refines`). There an operation brings its own index, and every index that holds
a dictionary it changes, to what it should bring its own index to (`Acts`). So the indexes are multisets
that only their own operations change exactly as long as no operation changes a dictionary that
another index has taken over (`represents_iff_undivided`).
-/

namespace Congress

open Function Lib

set_option linter.unusedSectionVars false

variable {ι : Type*} [DecidableEq ι]

/-- The dictionary has the tables of the multiset, with their counts. -/
def Holds (c : Counter) (b : Multiset String) : Prop :=
  ∀ table, c.lookup table = if b.count table = 0 then none else some (b.count table : ℤ)

theorem Holds.isSome_iff {c : Counter} {b : Multiset String} (h : Holds c b) (table : String) :
    (c.lookup table).isSome ↔ table ∈ b := by
  rw [h table, ← Multiset.count_pos]
  split_ifs with h0
  · simp [h0]
  · simp [Nat.pos_of_ne_zero h0]

theorem Holds.getD {c : Counter} {b : Multiset String} (h : Holds c b) (table : String) :
    (c.lookup table).getD 0 = (b.count table : ℤ) := by
  rw [h table]
  split_ifs with h0
  · rw [h0]
    rfl
  · rfl

theorem Holds.eq {c : Counter} {b b' : Multiset String} (h : Holds c b) (h' : Holds c b') : b = b' := by
  ext table
  exact_mod_cast (h.getD table).symm.trans (h'.getD table)

/-- A dictionary whose counts are those of a multiset, no matter where they come from. -/
theorem Holds.of_getD {c : Counter} {b : Multiset String} (h : ∀ table, c.lookup table = none ∨
    ∃ n, c.lookup table = some n ∧ 0 < n) (hb : ∀ table, (c.lookup table).getD 0 = (b.count table : ℤ)) :
    Holds c b := by
  intro table
  have hb := hb table
  rcases h table with h | ⟨n, h, hn⟩
  · rw [h] at hb ⊢
    change (0 : ℤ) = _ at hb
    rw [if_pos (by omega)]
  · rw [h] at hb ⊢
    change n = _ at hb
    rw [if_neg (by omega), hb]

theorem keys_eq_nil {c : Counter} : c.keys = [] ↔ ∀ table, c.lookup table = none := by
  rw [List.eq_nil_iff_forall_not_mem]
  exact forall_congr' fun table => AList.lookup_eq_none.symm

theorem Holds.empty {c : Counter} {b : Multiset String} (h : Holds c b) :
    (∀ table, c.lookup table = none) ↔ b = 0 := by
  rw [Multiset.eq_zero_iff_forall_notMem]
  refine forall_congr' fun table => ?_
  rw [← h.isSome_iff, Bool.not_eq_true, Option.isSome_eq_false_iff, Option.isNone_iff_eq_none]

namespace ModalHeap

variable {h : ModalHeap} {modal modal' : String} {n n' : ℕ} {b : Multiset String}

/-- The heap with a dictionary written anew. -/
def set (h : ModalHeap) (modal : String) (n : ℕ) (b : Multiset String) : ModalHeap :=
  ⟨update h.dicts modal (update (h.dicts modal) n b), h.fresh⟩

theorem set_dicts_self : (h.set modal n b).dicts modal n = b := by
  unfold set
  dsimp only
  rw [update_self, update_self]

theorem set_dicts_ne (hne : ¬(modal' = modal ∧ n' = n)) :
    (h.set modal n b).dicts modal' n' = h.dicts modal' n' := by
  unfold set
  dsimp only
  by_cases hm : modal' = modal
  · subst hm
    rw [update_self, update_of_ne fun h => hne ⟨rfl, h⟩]
  · rw [update_of_ne hm]

end ModalHeap

namespace ModalStore

variable {s s' : ModalStore ι} {k k' other : ι} {modal modal' table table' : String} {n : ℕ} {v : ℤ}

/-- The numbers of the dictionaries of an index. -/
def view (s : ModalStore ι) (k : ι) : ModalIndex := fun modal => (s.index k).lookup modal

theorem item_eq (h : s.view k modal = some n) (table : String) :
    s.item k modal table = (s.dicts modal n).lookup table := by
  unfold item
  rw [show (s.index k).lookup modal = some n from h]
  rfl

theorem item_none (h : s.view k modal = none) (table : String) : s.item k modal table = none := by
  unfold item
  rw [show (s.index k).lookup modal = none from h]
  rfl

theorem mem_keys : table ∈ s.keys k modal ↔ (s.item k modal table).isSome := by
  unfold keys
  rcases h : s.view k modal with _ | n
  · rw [item_none h, show (s.index k).lookup modal = none from h]
    simp
  · rw [item_eq h, show (s.index k).lookup modal = some n from h]
    exact AList.lookup_isSome.symm

theorem nodup_keys : (s.keys k modal).Nodup := by
  unfold keys
  split
  · exact List.nodup_nil
  · exact AList.keys_nodup _

theorem mem_index : modal ∈ s.index k ↔ (s.view k modal).isSome := AList.lookup_isSome.symm

/-! ## Single writes -/

@[simp] theorem setItem_index : (s.setItem k modal table v).index = s.index := by
  unfold setItem
  split <;> rfl

@[simp] theorem setItem_fresh : (s.setItem k modal table v).fresh = s.fresh := by
  unfold setItem
  split <;> rfl

theorem setItem_lookup : ((s.setItem k modal table v).dicts modal' n).lookup table'
    = if modal' = modal ∧ s.view k modal = some n ∧ table' = table then some v
      else (s.dicts modal' n).lookup table' := by
  unfold setItem
  rcases h : (s.index k).lookup modal with _ | i
  · rw [if_neg]
    rintro ⟨-, h', -⟩
    cases h.symm.trans h'
  · dsimp only
    by_cases hm : modal' = modal
    · subst hm
      rw [update_self]
      by_cases hn : n = i
      · subst hn
        rw [update_self]
        by_cases ht : table' = table
        · rw [ht, AList.lookup_insert, if_pos ⟨rfl, h, rfl⟩]
        · rw [AList.lookup_insert_ne ht, if_neg fun h' => ht h'.2.2]
      · rw [update_of_ne hn, if_neg fun h' => hn (Option.some.inj (h'.2.1.symm.trans h))]
    · rw [update_of_ne hm, if_neg fun h' => hm h'.1]

@[simp] theorem delItem_index : (s.delItem k modal table).index = s.index := by
  unfold delItem
  split <;> rfl

@[simp] theorem delItem_fresh : (s.delItem k modal table).fresh = s.fresh := by
  unfold delItem
  split <;> rfl

theorem delItem_lookup : ((s.delItem k modal table).dicts modal' n).lookup table'
    = if modal' = modal ∧ s.view k modal = some n ∧ table' = table then none
      else (s.dicts modal' n).lookup table' := by
  unfold delItem
  rcases h : (s.index k).lookup modal with _ | i
  · rw [if_neg]
    rintro ⟨-, h', -⟩
    cases h.symm.trans h'
  · dsimp only
    by_cases hm : modal' = modal
    · subst hm
      rw [update_self]
      by_cases hn : n = i
      · subst hn
        rw [update_self]
        by_cases ht : table' = table
        · rw [ht, AList.lookup_erase, if_pos ⟨rfl, h, rfl⟩]
        · rw [AList.lookup_erase_ne ht, if_neg fun h' => ht h'.2.2]
      · rw [update_of_ne hn, if_neg fun h' => hn (Option.some.inj (h'.2.1.symm.trans h))]
    · rw [update_of_ne hm, if_neg fun h' => hm h'.1]

@[simp] theorem setItem_view : (s.setItem k modal table v).view = s.view := by
  unfold view
  rw [setItem_index]

@[simp] theorem delItem_view : (s.delItem k modal table).view = s.view := by
  unfold view
  rw [delItem_index]

/-- A write at one modal and table leaves what is written at the others. -/
theorem setItem_item_ne (h : (modal', table') ≠ (modal, table)) :
    (s.setItem k modal table v).item k' modal' table' = s.item k' modal' table' := by
  rcases hi : s.view k' modal' with _ | i
  · rw [item_none hi, item_none (by rw [setItem_view, hi])]
  · rw [item_eq hi, item_eq (s := s.setItem k modal table v) (by rw [setItem_view, hi]), setItem_lookup,
      if_neg fun h' => h (by rw [h'.1, h'.2.2])]

/-- Writing at distinct places what depends on what is written there. -/
theorem foldl_setItem {f : ModalStore ι → String × String → ℤ}
    (hf : ∀ s s' e, (∀ k, s.item k e.1 e.2 = s'.item k e.1 e.2) → f s e = f s' e) :
    ∀ {l : List (String × String)} (s : ModalStore ι), l.Nodup →
      (l.foldl (fun s e => s.setItem k e.1 e.2 (f s e)) s).view = s.view
      ∧ (l.foldl (fun s e => s.setItem k e.1 e.2 (f s e)) s).fresh = s.fresh
      ∧ ∀ modal n table, ((l.foldl (fun s e => s.setItem k e.1 e.2 (f s e)) s).dicts modal n).lookup table
        = if (modal, table) ∈ l ∧ s.view k modal = some n then some (f s (modal, table))
          else (s.dicts modal n).lookup table
  | [], s, _ => ⟨rfl, rfl, fun _ _ _ => by simp⟩
  | e :: l, s, hl => by
    obtain ⟨he, hl⟩ := List.nodup_cons.1 hl
    obtain ⟨hview, hfresh, hlookup⟩ := foldl_setItem hf (s.setItem k e.1 e.2 (f s e)) hl
    refine ⟨hview.trans setItem_view, hfresh.trans setItem_fresh, fun modal n table => ?_⟩
    rw [List.foldl_cons, hlookup, setItem_view, setItem_lookup]
    by_cases hn : s.view k modal = some n
    · by_cases hmem : (modal, table) ∈ l
      · -- this place is written later, and nothing was changed there before
        have hne : (modal, table) ≠ e := fun h => he (h ▸ hmem)
        rw [if_pos ⟨hmem, hn⟩, if_pos ⟨List.mem_cons_of_mem _ hmem, hn⟩,
          hf _ s (modal, table) fun k' => setItem_item_ne hne]
      · rw [if_neg fun h => hmem h.1]
        by_cases hce : (modal, table) = e
        · subst hce
          rw [if_pos ⟨rfl, hn, rfl⟩, if_pos ⟨List.mem_cons_self .., hn⟩]
        · rw [if_neg fun h => hce (Prod.ext h.1 h.2.2),
            if_neg fun h => (List.mem_cons.1 h.1).elim hce hmem]
    · have hne : ¬(modal = e.1 ∧ s.view k e.1 = some n ∧ table = e.2) := fun h => hn (h.1 ▸ h.2.1)
      rw [if_neg fun h => hn h.2, if_neg hne, if_neg fun h => hn h.2]

/-! ## `__iadd__` -/

/-- The two states are the same at a modal. -/
def SameAt (modal : String) (s s' : ModalStore ι) : Prop :=
  (∀ k, s.view k modal = s'.view k modal)
    ∧ ∀ n table, (s.dicts modal n).lookup table = (s'.dicts modal n).lookup table

theorem SameAt.refl (modal : String) (s : ModalStore ι) : SameAt modal s s :=
  ⟨fun _ => rfl, fun _ _ => rfl⟩

theorem SameAt.trans {s s' t : ModalStore ι} (h : SameAt modal s s') (h' : SameAt modal s' t) :
    SameAt modal s t :=
  ⟨fun k => (h.1 k).trans (h'.1 k), fun n table => (h.2 n table).trans (h'.2 n table)⟩

theorem SameAt.item {s s' : ModalStore ι} (h : SameAt modal s s') (k : ι) (table : String) :
    s.item k modal table = s'.item k modal table := by
  rcases hn : s.view k modal with _ | n
  · rw [item_none hn, item_none ((h.1 k).symm.trans hn)]
  · rw [item_eq hn, item_eq ((h.1 k).symm.trans hn), h.2]

/-- Steps that work on different modals each do there what they would do alone. -/
theorem foldl_sameAt {f : ModalStore ι → String → ModalStore ι}
    (hf : ∀ s m m', m' ≠ m → SameAt m' (f s m) s)
    (hcongr : ∀ s s' m, SameAt m s s' → SameAt m (f s m) (f s' m)) (modal : String) :
    ∀ {l : List String} (s : ModalStore ι), l.Nodup →
      SameAt modal (l.foldl f s) (if modal ∈ l then f s modal else s)
  | [], s, _ => SameAt.refl modal s
  | m :: l, s, hl => by
    obtain ⟨hm, hl⟩ := List.nodup_cons.1 hl
    refine (foldl_sameAt hf hcongr modal (f s m) hl).trans ?_
    by_cases hmodal : modal = m
    · subst hmodal
      rw [if_neg hm, if_pos (List.mem_cons_self ..)]
      exact .refl ..
    · have hiff : modal ∈ m :: l ↔ modal ∈ l := by simp [hmodal]
      simp only [hiff]
      split_ifs with h
      · exact hcongr _ _ _ (hf s m modal hmodal)
      · exact hf s m modal hmodal

/-- What is written when two entries are added up. -/
theorem iaddTable_eq : iaddTable k other modal s table
    = s.setItem k modal table ((s.item k modal table).getD 0 + (s.item other modal table).getD 0) := by
  unfold iaddTable
  rcases s.item k modal table with _ | c
  · exact congrArg (s.setItem k modal table) (Int.zero_add _).symm
  · rfl

/-- The loop over the tables of a modal. -/
theorem foldl_iaddTable (k other : ι) (modal : String) (s : ModalStore ι) {l : List String} (hl : l.Nodup) :
    (l.foldl (iaddTable k other modal) s).view = s.view
      ∧ (l.foldl (iaddTable k other modal) s).fresh = s.fresh
      ∧ ∀ modal' n table, ((l.foldl (iaddTable k other modal) s).dicts modal' n).lookup table
        = if modal' = modal ∧ table ∈ l ∧ s.view k modal = some n then
            some ((s.item k modal table).getD 0 + (s.item other modal table).getD 0)
          else (s.dicts modal' n).lookup table := by
  let f : ModalStore ι → String × String → ℤ := fun s e =>
    (s.item k e.1 e.2).getD 0 + (s.item other e.1 e.2).getD 0
  have hf : ∀ (s s' : ModalStore ι) e, (∀ k, s.item k e.1 e.2 = s'.item k e.1 e.2) → f s e = f s' e :=
    fun s s' e h => by
      show _ + _ = _ + _
      rw [h k, h other]
  have hfold : l.foldl (iaddTable k other modal) s
      = (l.map (modal, ·)).foldl (fun s e => s.setItem k e.1 e.2 (f s e)) s := by
    rw [List.foldl_map]
    exact congrArg (List.foldl · s l) (funext₂ fun s table => iaddTable_eq)
  rw [hfold]
  obtain ⟨hview, hfresh, hlookup⟩ := foldl_setItem (k := k) hf s (hl.map (Prod.mk_right_injective modal))
  refine ⟨hview, hfresh, fun modal' n table => ?_⟩
  rw [hlookup]
  by_cases hm : modal' = modal
  · subst hm
    simp [f]
  · rw [if_neg, if_neg fun h => hm h.1]
    rintro ⟨h, -⟩
    obtain ⟨_, -, h⟩ := List.mem_map.1 h
    exact hm (Prod.ext_iff.1 h).1.symm

theorem takeOver_view (h : s.view k modal = none) : (s.takeOver k other modal).view k' modal'
    = if k' = k ∧ modal' = modal then s.view other modal else s.view k' modal' := by
  unfold view at h
  unfold takeOver view
  split
  · next h' =>
    split_ifs with hk
    · rw [hk.1, hk.2, h, h']
    · rfl
  · next n' h' =>
    dsimp only
    by_cases hk : k' = k
    · subst hk
      rw [update_self]
      by_cases hm : modal' = modal
      · subst hm
        rw [AList.lookup_insert, if_pos ⟨rfl, rfl⟩, h']
      · rw [AList.lookup_insert_ne hm, if_neg fun h => hm h.2]
    · rw [update_of_ne hk, if_neg fun h => hk h.1]

theorem takeOver_dicts : (s.takeOver k other modal).dicts = s.dicts := by
  unfold takeOver
  split <;> rfl

theorem takeOver_fresh : (s.takeOver k other modal).fresh = s.fresh := by
  unfold takeOver
  split <;> rfl

theorem iaddModal_fresh : (iaddModal k other s modal).fresh = s.fresh := by
  unfold iaddModal
  split_ifs
  · exact (foldl_iaddTable k other modal s nodup_keys).2.1
  · exact takeOver_fresh

theorem iaddModal_view : (iaddModal k other s modal).view k' modal'
    = if k' = k ∧ modal' = modal then (s.view k modal).or (s.view other modal)
      else s.view k' modal' := by
  unfold iaddModal
  rcases hk : s.view k modal with _ | n
  · rw [if_neg (by rw [mem_index, hk]; decide), takeOver_view hk, Option.none_or]
  · rw [if_pos (by rw [mem_index, hk]; rfl), (foldl_iaddTable k other modal s nodup_keys).1,
      Option.some_or]
    split_ifs with h'
    · rw [h'.1, h'.2, hk]
    · rfl

theorem iaddModal_lookup : ((iaddModal k other s modal).dicts modal' n).lookup table
    = if modal' = modal ∧ (s.item other modal table).isSome ∧ s.view k modal = some n then
        some ((s.item k modal table).getD 0 + (s.item other modal table).getD 0)
      else (s.dicts modal' n).lookup table := by
  unfold iaddModal
  split_ifs with hk hn hn
  · rw [(foldl_iaddTable k other modal s nodup_keys).2.2, if_pos ⟨hn.1, mem_keys.2 hn.2.1, hn.2.2⟩]
  · rw [(foldl_iaddTable k other modal s nodup_keys).2.2,
      if_neg fun h => hn ⟨h.1, mem_keys.1 h.2.1, h.2.2⟩]
  · exact absurd (mem_index.2 (hn.2.2 ▸ rfl)) hk
  · rw [takeOver_dicts]

/-- What `+=` does: each dictionary that both have takes in the other one, and each that only `other`
has is taken over. -/
theorem iadd_spec (s : ModalStore ι) (k other : ι) : (s.iadd k other).fresh = s.fresh
    ∧ (∀ k' modal, (s.iadd k other).view k' modal
      = if k' = k then (s.view k modal).or (s.view other modal) else s.view k' modal)
    ∧ ∀ modal n table, ((s.iadd k other).dicts modal n).lookup table
      = if (s.item other modal table).isSome ∧ s.view k modal = some n then
          some ((s.item k modal table).getD 0 + (s.item other modal table).getD 0)
        else (s.dicts modal n).lookup table := by
  have hone : ∀ modal, SameAt modal (s.iadd k other)
      (if modal ∈ (s.index other).keys then iaddModal k other s modal else s) := fun modal => by
    refine foldl_sameAt (fun s m m' hm => ?_) (fun s s' m h => ?_) modal s (AList.keys_nodup _)
    · exact ⟨fun _ => by rw [iaddModal_view, if_neg fun h => hm h.2],
        fun _ _ => by rw [iaddModal_lookup, if_neg fun h => hm h.1]⟩
    · refine ⟨fun k' => ?_, fun n table => ?_⟩
      · rw [iaddModal_view, iaddModal_view, h.1 k, h.1 k', h.1 other]
      · rw [iaddModal_lookup, iaddModal_lookup, h.item k, h.item other, h.1 k, h.2 n]
  -- a modal that `other` lacks is as if the loop went over it
  have hall : ∀ modal, SameAt modal (s.iadd k other) (iaddModal k other s modal) := fun modal => by
    have h := hone modal
    split_ifs at h with hm
    · exact h
    have hnone : s.view other modal = none := AList.lookup_eq_none.2 hm
    refine h.trans ⟨fun k' => ?_, fun n table => ?_⟩
    · rw [iaddModal_view, hnone, Option.or_none]
      split_ifs with hk
      · rw [hk.1]
      · rfl
    · rw [iaddModal_lookup, item_none hnone, if_neg fun h => by simp at h]
  refine ⟨?_, fun k' modal => ?_, fun modal n table => ?_⟩
  · exact (s.index other).keys.foldlRecOn (motive := fun t : ModalStore ι => t.fresh = s.fresh) _ rfl
      fun t ht m _ => iaddModal_fresh.trans ht
  · rw [(hall modal).1, iaddModal_view]
    simp only [and_true]
  · rw [(hall modal).2, iaddModal_lookup]
    simp only [true_and]

/-! ## `__isub__` -/

theorem mem_changes {e : String × String} : e ∈ s.changes k other
    ↔ (s.item k e.1 e.2).isSome ∧ (s.item other e.1 e.2).isSome := by
  obtain ⟨modal, table⟩ := e
  simp only [changes, List.mem_flatMap, List.mem_map, List.mem_filter, mem_keys, Prod.mk.injEq]
  constructor
  · rintro ⟨_, -, _, h, rfl, rfl⟩
    exact h
  · rintro h
    refine ⟨modal, ?_, table, h, rfl, rfl⟩
    refine mem_index.2 (Option.isSome_iff_ne_none.2 fun hn => ?_)
    rw [item_none hn] at h
    cases h.1

theorem nodup_changes : (s.changes k other).Nodup := by
  refine List.nodup_flatMap.2 ⟨fun modal _ => ?_, ?_⟩
  · exact (nodup_keys.filter _).map (Prod.mk_right_injective modal)
  · refine (AList.keys_nodup _).imp fun {m m'} hne => ?_
    rintro ⟨a, b⟩ h h'
    obtain ⟨_, -, h⟩ := List.mem_map.1 h
    obtain ⟨_, -, h'⟩ := List.mem_map.1 h'
    exact hne ((Prod.ext_iff.1 h).1.trans (Prod.ext_iff.1 h').1.symm)

/-- What `_clean_up` does at the entries of a list: those with no count left go, and so does a modal when
its dictionary gets empty. -/
structure Cleaned (k : ι) (l : List (String × String)) (s s' : ModalStore ι) : Prop where
  fresh : s'.fresh = s.fresh
  others : ∀ k', k' ≠ k → s'.view k' = s.view k'
  lookup : ∀ modal n table, (s'.dicts modal n).lookup table
    = if (modal, table) ∈ l ∧ s.view k modal = some n ∧ ((s.dicts modal n).lookup table).getD 0 ≤ 0
      then none else (s.dicts modal n).lookup table
  view : ∀ modal, s'.view k modal = s.view k modal ∨ s'.view k modal = none
  gone : ∀ modal n, s.view k modal = some n → (s'.view k modal = none
    ↔ (∃ table, (modal, table) ∈ l) ∧ ∀ table, (s'.dicts modal n).lookup table = none)

theorem delModal_view : (s.delModal k modal).view k' modal'
    = if k' = k ∧ modal' = modal then none else s.view k' modal' := by
  unfold delModal view
  dsimp only
  by_cases hk : k' = k
  · subst hk
    rw [update_self]
    by_cases hm : modal' = modal
    · rw [hm, AList.lookup_erase, if_pos ⟨rfl, rfl⟩]
    · rw [AList.lookup_erase_ne hm, if_neg fun h => hm h.2]
  · rw [update_of_ne hk, if_neg fun h => hk h.1]

/-- The entry goes if its count is not positive. -/
theorem dropItem_spec (hn : s.view k modal = some n) (hv : (s.dicts modal n).lookup table = some v)
    {t : ModalStore ι} (ht : t = if v ≤ 0 then s.delItem k modal table else s) :
    t.view = s.view ∧ t.fresh = s.fresh ∧ ∀ modal' n table', (t.dicts modal' n).lookup table'
      = if (modal', table') ∈ [(modal, table)] ∧ s.view k modal' = some n
          ∧ ((s.dicts modal' n).lookup table').getD 0 ≤ 0
        then none else (s.dicts modal' n).lookup table' := by
  subst ht
  have hentry : ∀ {modal' n' table'}, modal' = modal ∧ table' = table → s.view k modal' = some n' →
      (s.dicts modal' n').lookup table' = some v := by
    rintro _ n' _ ⟨rfl, rfl⟩ hn'
    obtain rfl : n = n' := Option.some.inj (hn.symm.trans hn')
    exact hv
  simp only [List.mem_singleton, Prod.mk.injEq]
  by_cases h0 : v ≤ 0
  · rw [if_pos h0]
    refine ⟨delItem_view, delItem_fresh, fun modal' n' table' => ?_⟩
    rw [delItem_lookup]
    refine if_congr ⟨?_, ?_⟩ rfl rfl
    · rintro ⟨rfl, hn', rfl⟩
      exact ⟨⟨rfl, rfl⟩, hn', by rwa [hentry ⟨rfl, rfl⟩ hn']⟩
    · rintro ⟨⟨rfl, rfl⟩, hn', -⟩
      exact ⟨rfl, hn', rfl⟩
  · rw [if_neg h0]
    refine ⟨rfl, rfl, fun modal' n' table' => (if_neg ?_).symm⟩
    rintro ⟨heq, hn', h⟩
    rw [hentry heq hn'] at h
    exact h0 h

theorem cleanUp_spec (hv : s.item k modal table = some v) :
    ∃ s', s.cleanUp k modal table = some s' ∧ Cleaned k [(modal, table)] s s' := by
  obtain ⟨n, hn⟩ : ∃ n, s.view k modal = some n := by
    rcases h : s.view k modal with _ | n
    · cases hv.symm.trans (item_none h table)
    · exact ⟨n, rfl⟩
  rw [item_eq hn] at hv
  obtain ⟨t, ht⟩ : ∃ t, t = if v ≤ 0 then s.delItem k modal table else s := ⟨_, rfl⟩
  obtain ⟨hview, hfresh, hlookup⟩ := dropItem_spec hn hv ht
  have hkeys : t.keys k modal = [] ↔ ∀ table, (t.dicts modal n).lookup table = none := by
    unfold keys
    rw [show (t.index k).lookup modal = some n from (congrFun₂ hview k modal).trans hn]
    exact keys_eq_nil
  have hother : ∀ modal', modal' ≠ modal → ¬∃ table', (modal', table') ∈ [(modal, table)] := by
    rintro modal' hne ⟨table', h⟩
    exact hne (Prod.ext_iff.1 (List.mem_singleton.1 h)).1
  refine ⟨if t.keys k modal = [] then t.delModal k modal else t, ?_, ?_⟩
  · unfold cleanUp
    rw [item_eq hn, hv, ht]
  split_ifs with h
  · refine ⟨hfresh, fun k' hk' => ?_, hlookup, fun modal' => ?_, fun modal' n' hn' => ?_⟩
    · funext modal'
      rw [delModal_view, if_neg fun h => hk' h.1, hview]
    · rw [delModal_view, hview]
      split_ifs with h'
      · exact .inr rfl
      · exact .inl rfl
    · rw [delModal_view, hview]
      by_cases hm : modal' = modal
      · subst hm
        obtain rfl : n = n' := Option.some.inj (hn.symm.trans hn')
        rw [if_pos ⟨rfl, rfl⟩]
        exact ⟨fun _ => ⟨⟨table, List.mem_singleton_self _⟩, hkeys.1 h⟩, fun _ => rfl⟩
      · rw [if_neg fun h => hm h.2, hn']
        exact ⟨fun h => (Option.some_ne_none _ h).elim, fun h => (hother _ hm h.1).elim⟩
  · refine ⟨hfresh, fun k' _ => congrFun hview k', hlookup, fun modal' => .inl ?_, fun modal' n' hn' => ?_⟩
    · rw [hview]
    · rw [hview, hn']
      refine ⟨fun h => (Option.some_ne_none _ h).elim, fun ⟨hex, hnone⟩ => (h ?_).elim⟩
      obtain rfl : modal' = modal := by_contra fun hm => hother _ hm hex
      obtain rfl : n = n' := Option.some.inj (hn.symm.trans hn')
      exact hkeys.2 hnone

/-- An entry that is there stays so while others are cleaned up, and with it its modal. -/
theorem Cleaned.stays {l : List (String × String)} (h : Cleaned k l s s') {e : String × String}
    (he : e ∉ l) (hs : (s.item k e.1 e.2).isSome) :
    s'.view k e.1 = s.view k e.1 ∧ s'.item k e.1 e.2 = s.item k e.1 e.2 := by
  rcases hn : s.view k e.1 with _ | n
  · rw [item_none hn] at hs
    cases hs
  rw [item_eq hn] at hs ⊢
  have hlookup : (s'.dicts e.1 n).lookup e.2 = (s.dicts e.1 n).lookup e.2 :=
    (h.lookup ..).trans (if_neg fun h' => he h'.1)
  have hview : s'.view k e.1 = some n := by
    rcases h.view e.1 with h' | h'
    · exact h'.trans hn
    · rw [← hlookup, ((h.gone _ _ hn).1 h').2] at hs
      cases hs
  exact ⟨hview, (item_eq hview _).trans hlookup⟩

theorem Cleaned.cons {l : List (String × String)} {e : String × String} {s₁ : ModalStore ι}
    (h : Cleaned k [e] s s₁) (h' : Cleaned k l s₁ s') (he : e ∉ l)
    (hl : ∀ e ∈ l, (s.item k e.1 e.2).isSome) : Cleaned k (e :: l) s s' := by
  have hstays : ∀ e' ∈ l, s₁.view k e'.1 = s.view k e'.1 := fun e' he' =>
    (h.stays (fun hmem => he (List.mem_singleton.1 hmem ▸ he')) (hl e' he')).1
  have hnone : ∀ modal n, (∀ table, (s₁.dicts modal n).lookup table = none) →
      ∀ table, (s'.dicts modal n).lookup table = none := fun modal n h₁ table => by
    rw [h'.lookup, h₁]
    exact ite_self ..
  refine ⟨h'.fresh.trans h.fresh, fun k' hk' => (h'.others k' hk').trans (h.others k' hk'),
    fun modal n table => ?_, fun modal => ?_, fun modal n hn => ?_⟩
  · rw [h'.lookup, h.lookup]
    simp only [List.mem_cons, List.not_mem_nil, or_false]
    by_cases hmem : (modal, table) ∈ l
    · have hne : (modal, table) ≠ e := fun h => he (h ▸ hmem)
      rw [hstays _ hmem]
      simp only [hne, hmem, false_and, if_false, true_and, or_true]
    · simp only [hmem, false_and, if_false, or_false]
  · rcases h'.view modal with h₁ | h₁
    · rw [h₁]
      exact h.view modal
    · exact .inr h₁
  · rcases h₁ : s₁.view k modal with _ | n'
    · have hgone := (h.gone modal n hn).1 h₁
      refine ⟨fun _ => ⟨?_, hnone _ _ hgone.2⟩, fun _ => ?_⟩
      · obtain ⟨⟨table, hmem⟩, -⟩ := hgone
        exact ⟨table, List.mem_cons.2 (.inl (List.mem_singleton.1 hmem))⟩
      · rcases h'.view modal with h₂ | h₂
        · exact h₂.trans h₁
        · exact h₂
    · obtain rfl : n' = n := by
        rcases h.view modal with h₂ | h₂
        · exact Option.some.inj (h₁.symm.trans (h₂.trans hn))
        · cases h₁.symm.trans h₂
      rw [h'.gone modal n' h₁]
      refine and_congr_left fun hempty => ⟨fun ⟨table, hmem⟩ => ⟨table, List.mem_cons_of_mem _ hmem⟩, ?_⟩
      rintro ⟨table, hmem⟩
      rcases List.mem_cons.1 hmem with rfl | hmem
      · -- cleaning up the first entry left some, which were cleaned up later
        by_contra hnot
        refine Option.some_ne_none n' (h₁.symm.trans ((h.gone _ _ hn).2 ⟨⟨table, ?_⟩, fun table' => ?_⟩))
        · exact List.mem_singleton_self _
        · have h₃ := hempty table'
          rwa [h'.lookup, if_neg fun h => hnot ⟨table', h.1⟩] at h₃
      · exact ⟨table, hmem⟩

theorem foldlM_cleanUp (k : ι) : ∀ {l : List (String × String)} (s : ModalStore ι), l.Nodup →
    (∀ e ∈ l, (s.item k e.1 e.2).isSome) →
      ∃ s', l.foldlM (fun s e => s.cleanUp k e.1 e.2) s = some s' ∧ Cleaned k l s s'
  | [], s, _, _ => ⟨s, rfl, rfl, fun _ _ => rfl, fun _ _ _ => by simp, fun _ => .inl rfl,
      fun _ _ hn => by simp [hn]⟩
  | e :: l, s, hl, hs => by
    obtain ⟨he, hl⟩ := List.nodup_cons.1 hl
    obtain ⟨v, hv⟩ := Option.isSome_iff_exists.1 (hs e (List.mem_cons_self ..))
    obtain ⟨s₁, h₁, hs₁⟩ := cleanUp_spec hv
    have hpresent : ∀ e' ∈ l, (s.item k e'.1 e'.2).isSome := fun e' he' =>
      hs e' (List.mem_cons_of_mem _ he')
    obtain ⟨s', h', hs'⟩ := foldlM_cleanUp k s₁ hl fun e' he' => by
      have hne : e' ∉ [e] := fun hmem => he ((List.mem_singleton.1 hmem : e' = e) ▸ he')
      rw [(hs₁.stays hne (hpresent e' he')).2]
      exact hpresent e' he'
    refine ⟨s', ?_, hs₁.cons hs' he hpresent⟩
    rw [List.foldlM_cons, h₁]
    exact h'

/-! ## The multisets of the dictionaries -/

/-- The dictionaries that are in an index have the tables of those of the heap. -/
structure Refines (s : ModalStore ι) (h : ModalHeap) : Prop where
  fresh : h.fresh = s.fresh
  holds : ∀ k modal n, s.view k modal = some n → Holds (s.dicts modal n) (h.dicts modal n)

variable {h h' : ModalHeap}

theorem tables_some (hn : s.view k modal = some n) : h.tables (s.view k) modal = h.dicts modal n := by
  unfold ModalHeap.tables
  rw [hn]

theorem tables_none (hn : s.view k modal = none) : h.tables (s.view k) modal = 0 := by
  unfold ModalHeap.tables
  rw [hn]

theorem Refines.item (hs : s.Refines h) (k : ι) (modal table : String) : s.item k modal table
    = if (h.tables (s.view k) modal).count table = 0 then none
      else some ((h.tables (s.view k) modal).count table : ℤ) := by
  rcases hn : s.view k modal with _ | n
  · rw [item_none hn, tables_none hn]
    simp
  · rw [item_eq hn, tables_some hn]
    exact hs.holds k modal n hn table

theorem Refines.isSome_iff (hs : s.Refines h) : (s.item k modal table).isSome
    ↔ table ∈ h.tables (s.view k) modal := by
  rw [hs.item, ← Multiset.count_pos]
  split_ifs with h0
  · simp [h0]
  · simp [Nat.pos_of_ne_zero h0]

theorem Refines.getD (hs : s.Refines h) : (s.item k modal table).getD 0
    = ((h.tables (s.view k) modal).count table : ℤ) := by
  rw [hs.item]
  split_ifs with h0
  · rw [h0]
    rfl
  · rfl

/-- `+=` does to the dictionaries what it does to their multisets. -/
theorem iadd_refines (hs : s.Refines h) (k other : ι) :
    (s.iadd k other).Refines (h.iadd (s.view k) (s.view other)).1
      ∧ (s.iadd k other).view k = (h.iadd (s.view k) (s.view other)).2
      ∧ ∀ k', k' ≠ k → (s.iadd k other).view k' = s.view k' := by
  obtain ⟨hfresh, hview, hlookup⟩ := iadd_spec s k other
  refine ⟨⟨hs.fresh.trans hfresh.symm, fun k' modal n hn => ?_⟩, ?_, fun k' hk' => ?_⟩
  · -- some index had this dictionary before
    have hold : Holds (s.dicts modal n) (h.dicts modal n) := by
      rw [hview] at hn
      split_ifs at hn
      · rcases Option.or_eq_some_iff.1 hn with hn | ⟨-, hn⟩
        · exact hs.holds _ _ _ hn
        · exact hs.holds _ _ _ hn
      · exact hs.holds _ _ _ hn
    intro table
    rw [hlookup]
    by_cases hk : s.view k modal = some n
    · rcases ho : s.view other modal with _ | j
      · rw [item_none ho, if_neg (by simp), hold table]
        simp only [ModalHeap.iadd, hk, ho]
      · have hdicts : (h.iadd (s.view k) (s.view other)).1.dicts modal n
            = h.dicts modal n + h.dicts modal j := by
          simp only [ModalHeap.iadd, hk, ho]
          exact update_self ..
        rw [hdicts, Multiset.count_add, hs.getD, hs.getD, tables_some hk, tables_some ho]
        by_cases hmem : table ∈ h.dicts modal j
        · have hpos := Multiset.count_pos.2 hmem
          rw [if_pos ⟨hs.isSome_iff.2 (by rwa [tables_some ho]), hk⟩, if_neg (by omega)]
          push_cast
          rfl
        · rw [if_neg fun h' => hmem (tables_some (h := h) ho ▸ hs.isSome_iff.1 h'.1),
            Multiset.count_eq_zero_of_notMem hmem]
          exact hold table
    · rw [if_neg fun h' => hk h'.2, hold table]
      rcases hi : s.view k modal with _ | i
      · simp only [ModalHeap.iadd, hi]
      · rcases ho : s.view other modal with _ | j
        · simp only [ModalHeap.iadd, hi, ho]
        · simp only [ModalHeap.iadd, hi, ho]
          rw [update_of_ne fun h' : n = i => hk (h' ▸ hi)]
  · funext modal
    rw [hview, if_pos rfl]
    rfl
  · funext modal
    rw [hview, if_neg hk']

/-- What the first loop of `-=` writes. -/
theorem foldl_isubTable (s : ModalStore ι) (k other : ι) :
    ((s.changes k other).foldl (isubTable k other) s).view = s.view
      ∧ ((s.changes k other).foldl (isubTable k other) s).fresh = s.fresh
      ∧ ∀ modal n table, (((s.changes k other).foldl (isubTable k other) s).dicts modal n).lookup table
        = if (modal, table) ∈ s.changes k other ∧ s.view k modal = some n then
            some ((s.item k modal table).getD 0 - (s.item other modal table).getD 0)
          else (s.dicts modal n).lookup table :=
  foldl_setItem (f := fun s e => (s.item k e.1 e.2).getD 0 - (s.item other e.1 e.2).getD 0)
    (fun s s' e h => by rw [h k, h other]) s nodup_changes

/-- What `-=` does to the counts; it raises no error. -/
theorem isub_spec (s : ModalStore ι) (k other : ι) : ∃ s', s.isub k other = some s'
    ∧ Cleaned k (s.changes k other) ((s.changes k other).foldl (isubTable k other) s) s'
    ∧ ∀ modal n table, (s'.dicts modal n).lookup table
      = if (modal, table) ∈ s.changes k other ∧ s.view k modal = some n then
          if (s.item k modal table).getD 0 ≤ (s.item other modal table).getD 0 then none
          else some ((s.item k modal table).getD 0 - (s.item other modal table).getD 0)
        else (s.dicts modal n).lookup table := by
  obtain ⟨hview, -, hlookup⟩ := foldl_isubTable s k other
  obtain ⟨s', hs', hc⟩ : ∃ s', s.isub k other = some s'
      ∧ Cleaned k (s.changes k other) ((s.changes k other).foldl (isubTable k other) s) s' := by
    refine foldlM_cleanUp k _ nodup_changes fun e he => ?_
    obtain ⟨n, hn⟩ : ∃ n, s.view k e.1 = some n := by
      rcases h : s.view k e.1 with _ | n
      · have h' := (mem_changes.1 he).1
        rw [item_none h] at h'
        cases h'
      · exact ⟨n, rfl⟩
    rw [item_eq (hview ▸ hn), hlookup, if_pos ⟨he, hn⟩]
    rfl
  refine ⟨s', hs', hc, fun modal n table => ?_⟩
  rw [hc.lookup, hview]
  by_cases hin : (modal, table) ∈ s.changes k other ∧ s.view k modal = some n
  · rw [hlookup, if_pos hin, if_pos hin, Option.getD_some]
    refine if_congr ⟨fun h => by have := h.2.2; omega, fun h => ⟨hin.1, hin.2, by omega⟩⟩ rfl rfl
  · rw [if_neg fun h => hin ⟨h.1, h.2.1⟩, hlookup, if_neg hin, if_neg hin]

theorem sub_ne_iff (b b' : Multiset String) : b - b' ≠ b ↔ ∃ table, table ∈ b ∧ table ∈ b' := by
  rw [Ne, Multiset.ext, not_forall]
  refine exists_congr fun table => ?_
  rw [Multiset.count_sub, ← Multiset.count_pos, ← Multiset.count_pos]
  omega

theorem inter_ne_zero_iff (b b' : Multiset String) : b ∩ b' ≠ 0 ↔ ∃ table, table ∈ b ∧ table ∈ b' := by
  rw [Ne, Multiset.eq_zero_iff_forall_notMem, not_forall]
  exact exists_congr fun table => by rw [not_not, Multiset.mem_inter]

/-- `-=` does to the dictionaries what it does to their multisets. -/
theorem isub_refines (hs : s.Refines h) (k other : ι) : ∃ s', s.isub k other = some s'
    ∧ s'.Refines (h.isub (s.view k) (s.view other)).1
    ∧ s'.view k = (h.isub (s.view k) (s.view other)).2 ∧ ∀ k', k' ≠ k → s'.view k' = s.view k' := by
  obtain ⟨s', hs', hc, hlookup⟩ := isub_spec s k other
  obtain ⟨hview, hfresh, -⟩ := foldl_isubTable s k other
  have hmem : ∀ {modal table i j}, s.view k modal = some i → s.view other modal = some j →
      ((modal, table) ∈ s.changes k other ↔ table ∈ h.dicts modal i ∧ table ∈ h.dicts modal j) := by
    intro modal table i j hi hj
    rw [mem_changes, hs.isSome_iff, hs.isSome_iff, tables_some hi, tables_some hj]
  have hnone : ∀ {modal}, s.view k modal = none ∨ s.view other modal = none →
      ∀ table, (modal, table) ∉ s.changes k other := by
    intro modal hn table hc
    rw [mem_changes] at hc
    rcases hn with hn | hn
    · rw [item_none hn] at hc
      cases hc.1
    · rw [item_none hn] at hc
      cases hc.2
  have hothers : ∀ k', k' ≠ k → s'.view k' = s.view k' := fun k' hk' =>
    (hc.others k' hk').trans (congrFun hview k')
  -- the dictionaries that were in an index before
  have hholds : ∀ modal n, Holds (s.dicts modal n) (h.dicts modal n) →
      Holds (s'.dicts modal n) ((h.isub (s.view k) (s.view other)).1.dicts modal n) := by
    intro modal n hold table
    rw [hlookup]
    by_cases hk : s.view k modal = some n
    · rcases ho : s.view other modal with _ | j
      · rw [if_neg fun h' => hnone (.inr ho) _ h'.1, hold table]
        simp only [ModalHeap.isub, hk, ho]
      · have hdicts : (h.isub (s.view k) (s.view other)).1.dicts modal n
            = h.dicts modal n - h.dicts modal j := by
          simp only [ModalHeap.isub, hk, ho]
          exact update_self ..
        rw [hdicts, Multiset.count_sub, hs.getD, hs.getD, tables_some hk, tables_some ho]
        by_cases hch : (modal, table) ∈ s.changes k other
        · rw [if_pos ⟨hch, hk⟩]
          refine ite_congr (propext (by omega)) (fun _ => rfl) fun hle => congrArg some ?_
          omega
        · have h0 : (h.dicts modal n).count table - (h.dicts modal j).count table
              = (h.dicts modal n).count table := by
            rw [hmem hk ho, ← Multiset.count_pos, ← Multiset.count_pos] at hch
            omega
          rw [if_neg fun h' => hch h'.1, h0]
          exact hold table
    · rw [if_neg fun h' => hk h'.2, hold table]
      rcases hi : s.view k modal with _ | i
      · simp only [ModalHeap.isub, hi]
      · rcases ho : s.view other modal with _ | j
        · simp only [ModalHeap.isub, hi, ho]
        · simp only [ModalHeap.isub, hi, ho]
          rw [update_of_ne fun h' : n = i => hk (h' ▸ hi)]
  refine ⟨s', hs', ⟨hs.fresh.trans (hfresh.symm.trans hc.fresh.symm), fun k' modal n hn => ?_⟩, ?_, hothers⟩
  · refine hholds modal n (hs.holds k' modal n ?_)
    by_cases hk' : k' = k
    · subst hk'
      rcases hc.view modal with hv | hv
      · rw [← hview, ← hv, hn]
      · cases hv.symm.trans hn
    · rw [← hothers k' hk', hn]
  · funext modal
    rcases hi : s.view k modal with _ | i
    · rcases hc.view modal with hv | hv
      · rw [hv, hview, hi]
        simp only [ModalHeap.isub, hi]
      · rw [hv]
        simp only [ModalHeap.isub, hi]
    · have hgone := hc.gone modal i (hview ▸ hi)
      have hstay : s'.view k modal ≠ none → s'.view k modal = some i := fun hne => by
        rcases hc.view modal with hv | hv
        · rw [hv, hview, hi]
        · exact (hne hv).elim
      rcases ho : s.view other modal with _ | j
      · rw [hstay fun hn => hnone (.inr ho) _ (hgone.1 hn).1.choose_spec]
        simp only [ModalHeap.isub, hi, ho]
      · have hempty := (hholds modal i (hs.holds k modal i hi)).empty
        have hdicts : (h.isub (s.view k) (s.view other)).1.dicts modal i
            = h.dicts modal i - h.dicts modal j := by
          simp only [ModalHeap.isub, hi, ho]
          exact update_self ..
        have hiff : s'.view k modal = none ↔ h.dicts modal i ∩ h.dicts modal j ≠ 0
            ∧ h.dicts modal i - h.dicts modal j = 0 := by
          rw [hgone, hempty, hdicts, inter_ne_zero_iff]
          exact and_congr_left' (exists_congr fun table => hmem hi ho)
        simp only [ModalHeap.isub, hi, ho]
        split_ifs with hif
        · exact hiff.2 hif
        · exact hstay fun hn => hif (hiff.1 hn)

/-! ## Operations -/

/-- An operation brings its index to `next`, and with it the others that hold a dictionary of it. -/
structure Acts (h : ModalHeap) (s s' : ModalStore ι) (k : ι) (next : String → Multiset String)
    (h' : ModalHeap) : Prop where
  refines : s'.Refines h'
  self : ∀ modal, h'.tables (s'.view k) modal = next modal
  others : ∀ modal k', k' ≠ k → h'.tables (s'.view k') modal
    = if s.view k modal = s.view k' modal ∧ (s.view k modal).isSome then next modal
      else h.tables (s.view k') modal

/-- Each dictionary of the index is written, or stays, as it should be. -/
theorem acts_of_dicts {next : String → Multiset String} (hs' : s'.Refines h')
    (hothers : ∀ k', k' ≠ k → s'.view k' = s.view k')
    (hsome : ∀ modal i, s.view k modal = some i → h'.dicts modal = update (h.dicts modal) i (next modal)
      ∧ (s'.view k modal = some i ∨ s'.view k modal = none ∧ next modal = 0))
    (hnone : ∀ modal, s.view k modal = none → h'.dicts modal = h.dicts modal
      ∧ h'.tables (s'.view k) modal = next modal) : Acts h s s' k next h' := by
  refine ⟨hs', fun modal => ?_, fun modal k' hk' => ?_⟩
  · rcases hn : s.view k modal with _ | i
    · exact (hnone modal hn).2
    · obtain ⟨hdicts, hview | ⟨hview, h0⟩⟩ := hsome modal i hn
      · rw [tables_some hview, hdicts, update_self]
      · rw [tables_none hview, h0]
  · rw [hothers k' hk']
    rcases hn' : s.view k' modal with _ | n'
    · rw [tables_none hn', tables_none hn', if_neg]
      rintro ⟨h₁, h₂⟩
      rw [h₁] at h₂
      cases h₂
    rw [tables_some hn', tables_some hn']
    rcases hn : s.view k modal with _ | i
    · rw [(hnone modal hn).1, if_neg fun h => by simp at h]
    · rw [(hsome modal i hn).1]
      by_cases hi : n' = i
      · rw [hi, update_self, if_pos ⟨rfl, rfl⟩]
      · rw [update_of_ne hi, if_neg fun h => hi (Option.some.inj h.1).symm]

/-- Writing a dictionary, after which the modal goes if it is empty. -/
theorem acts_of_write {b : Multiset String} (hs : s.Refines h) (hn : s.view k modal = some n)
    (hfresh : s'.fresh = s.fresh) (hothers : ∀ k', k' ≠ k → s'.view k' = s.view k')
    (hview : ∀ modal', modal' ≠ modal → s'.view k modal' = s.view k modal')
    (hself : s'.view k modal = some n ∨ s'.view k modal = none ∧ b = 0)
    (hholds : Holds (s'.dicts modal n) b)
    (hkept : ∀ modal' n' table, ¬(modal' = modal ∧ n' = n) →
      (s'.dicts modal' n').lookup table = (s.dicts modal' n').lookup table) :
    Acts h s s' k (update (h.tables (s.view k)) modal b) (h.set modal n b) := by
  have hle : ∀ k' modal' n', s'.view k' modal' = some n' → s.view k' modal' = some n' := by
    intro k' modal' n' h'
    by_cases hk : k' = k
    · subst hk
      by_cases hm : modal' = modal
      · subst hm
        rcases hself with hself | ⟨hself, -⟩
        · rw [hn, ← h', hself]
        · cases hself.symm.trans h'
      · rw [← hview modal' hm, h']
    · rw [← hothers k' hk, h']
  refine acts_of_dicts ⟨hs.fresh.trans hfresh.symm, fun k' modal' n' hn' => ?_⟩ hothers
    (fun modal' i hi => ?_) fun modal' hi => ?_
  · by_cases hm : modal' = modal ∧ n' = n
    · rw [hm.1, hm.2, ModalHeap.set_dicts_self]
      exact hholds
    · rw [ModalHeap.set_dicts_ne hm]
      intro table
      rw [hkept _ _ _ hm]
      exact hs.holds k' _ n' (hle k' _ n' hn') table
  · by_cases hm : modal' = modal
    · subst hm
      obtain rfl : n = i := Option.some.inj (hn.symm.trans hi)
      rw [update_self]
      exact ⟨update_self .., hself⟩
    · rw [update_of_ne hm, tables_some hi, update_eq_self, hview modal' hm]
      exact ⟨update_of_ne hm .., .inl hi⟩
  · have hm : modal' ≠ modal := by
      rintro rfl
      cases hn.symm.trans hi
    rw [update_of_ne hm, tables_none hi, tables_none ((hview modal' hm).trans hi)]
    exact ⟨update_of_ne hm .., rfl⟩

theorem increment_acts (hs : s.Refines h) (hn : s.view k modal = some n) (table : String) :
    Acts h s (s.increment k modal table) k (update (h.tables (s.view k)) modal (table ::ₘ h.tables (s.view k) modal))
      (h.set modal n (table ::ₘ h.dicts modal n)) := by
  obtain ⟨t, ht⟩ : ∃ t, t = if (s.item k modal table).isSome then s else s.setItem k modal table 0 :=
    ⟨_, rfl⟩
  have hs' : s.increment k modal table = t.setItem k modal table ((t.item k modal table).getD 0 + 1) := by
    rw [ht]
    rfl
  have hview : t.view = s.view := by
    rw [ht]
    split_ifs
    · rfl
    · exact setItem_view
  have hfresh : t.fresh = s.fresh := by
    rw [ht]
    split_ifs
    · rfl
    · exact setItem_fresh
  have hkept : ∀ modal' n' table', ¬(modal' = modal ∧ s.view k modal = some n' ∧ table' = table) →
      (t.dicts modal' n').lookup table' = (s.dicts modal' n').lookup table' := fun _ _ _ hne => by
    rw [ht]
    split_ifs
    · rfl
    · rw [setItem_lookup, if_neg hne]
  have hcount : (t.item k modal table).getD 0 = ((h.dicts modal n).count table : ℤ) := by
    rw [← tables_some hn, ← hs.getD, ht]
    split_ifs with h'
    · rfl
    · rw [item_eq (s := s.setItem k modal table 0) (by rw [setItem_view, hn]), setItem_lookup,
        if_pos ⟨rfl, hn, rfl⟩, Option.not_isSome_iff_eq_none.1 h']
      rfl
  have hlookup : ∀ modal' n' table', ((s.increment k modal table).dicts modal' n').lookup table'
      = if modal' = modal ∧ s.view k modal = some n' ∧ table' = table then
          some ((h.dicts modal n).count table + 1 : ℤ) else (s.dicts modal' n').lookup table' := by
    intro modal' n' table'
    rw [hs', setItem_lookup, hview, hcount]
    split_ifs with h'
    · rfl
    · exact hkept _ _ _ h'
  have hview' : (s.increment k modal table).view = s.view := by rw [hs', setItem_view, hview]
  rw [tables_some hn]
  refine acts_of_write hs hn (by rw [hs', setItem_fresh, hfresh]) (fun k' _ => congrFun hview' k')
    (fun m _ => congrFun₂ hview' k m) (.inl (hview' ▸ hn)) (fun table' => ?_) fun modal' n' table' hne => ?_
  · rw [hlookup, Multiset.count_cons]
    by_cases ht' : table' = table
    · subst ht'
      rw [if_pos ⟨rfl, hn, rfl⟩, if_pos rfl, if_neg (Nat.succ_ne_zero _)]
      rfl
    · rw [if_neg fun h => ht' h.2.2, if_neg ht', Nat.add_zero]
      exact hs.holds k modal n hn table'
  · rw [hlookup, if_neg]
    rintro ⟨rfl, hn', -⟩
    exact hne ⟨rfl, Option.some.inj (hn'.symm.trans hn)⟩

theorem newDict_view : (s.newDict k modal).view k' modal'
    = if k' = k ∧ modal' = modal then some s.fresh else s.view k' modal' := by
  unfold newDict view
  dsimp only
  by_cases hk : k' = k
  · subst hk
    rw [update_self]
    by_cases hm : modal' = modal
    · rw [hm, AList.lookup_insert, if_pos ⟨rfl, rfl⟩]
    · rw [AList.lookup_insert_ne hm, if_neg fun h => hm h.2]
  · rw [update_of_ne hk, if_neg fun h => hk h.1]

/-- An index gets an empty dictionary of its own. -/
theorem newDict_refines (hs : s.Refines h) (hn : s.view k modal = none) :
    (s.newDict k modal).Refines { h.set modal s.fresh 0 with fresh := h.fresh + 1 }
      ∧ ∀ k' modal', ModalHeap.tables { h.set modal s.fresh 0 with fresh := h.fresh + 1 }
        ((s.newDict k modal).view k') modal' = h.tables (s.view k') modal' := by
  have hold : ∀ k' modal' n', s.view k' modal' = some n' → ¬(modal' = modal ∧ n' = s.fresh) :=
    fun k' modal' n' hn' h => absurd (s.allocated k' modal' n' hn') (by omega)
  have hdicts : ∀ modal' n', ¬(modal' = modal ∧ n' = s.fresh) →
      (s.newDict k modal).dicts modal' n' = s.dicts modal' n' := fun modal' n' hne => by
    unfold newDict
    dsimp only
    by_cases hm : modal' = modal
    · subst hm
      rw [update_self, update_of_ne fun h => hne ⟨rfl, h⟩]
    · rw [update_of_ne hm]
  refine ⟨⟨congrArg (· + 1) hs.fresh, fun k' modal' n' hn' => ?_⟩, fun k' modal' => ?_⟩
  · rw [newDict_view] at hn'
    show Holds _ ((h.set modal s.fresh 0).dicts modal' n')
    split_ifs at hn' with h'
    · obtain ⟨rfl, rfl⟩ := h'
      obtain rfl := Option.some.inj hn'
      rw [ModalHeap.set_dicts_self]
      intro table
      rw [show (s.newDict k' modal').dicts modal' s.fresh = ∅ by
        unfold newDict
        dsimp only
        rw [update_self, update_self]]
      rfl
    · rw [hdicts _ _ (hold _ _ _ hn'), ModalHeap.set_dicts_ne (hold _ _ _ hn')]
      exact hs.holds _ _ _ hn'
  · show (h.set modal s.fresh 0).tables ((s.newDict k modal).view k') modal' = _
    unfold ModalHeap.tables
    rw [newDict_view]
    split_ifs with h'
    · obtain ⟨rfl, rfl⟩ := h'
      rw [hn]
      exact ModalHeap.set_dicts_self
    · split
      · rfl
      · next n' hn' => exact ModalHeap.set_dicts_ne (hold _ _ _ hn')

theorem add_acts (hs : s.Refines h) (k : ι) (modal table : String) : ∃ h',
    Acts h s (s.add k modal table) k
      (update (h.tables (s.view k)) modal (table ::ₘ h.tables (s.view k) modal)) h' := by
  rcases hn : s.view k modal with _ | n
  · have hadd : s.add k modal table = (s.newDict k modal).increment k modal table := by
      unfold add
      rw [if_neg (by rw [mem_index, hn]; decide)]
    obtain ⟨hs₁, htables⟩ := newDict_refines hs hn
    have hn₁ : (s.newDict k modal).view k modal = some s.fresh := by
      rw [newDict_view, if_pos ⟨rfl, rfl⟩]
    obtain ⟨hrefines, hself, hothers⟩ := increment_acts hs₁ hn₁ table
    rw [← hadd] at hrefines hself hothers
    refine ⟨_, hrefines, fun modal' => ?_, fun modal' k' hk' => ?_⟩
    · rw [hself, htables, show ModalHeap.tables _ _ = _ from funext (htables k)]
    · have hview' : (s.newDict k modal).view k' modal' = s.view k' modal' := by
        rw [newDict_view, if_neg fun h => hk' h.1]
      rw [hothers modal' k' hk', htables, htables, show ModalHeap.tables _ _ = _ from funext (htables k),
        hview', newDict_view]
      refine if_congr ?_ rfl rfl
      by_cases hm : modal' = modal
      · -- no other index has the new dictionary
        subst hm
        rw [if_pos ⟨rfl, rfl⟩, hn]
        refine ⟨fun h' => ?_, fun h' => by simp at h'⟩
        exact absurd (s.allocated k' _ _ h'.1.symm) (Nat.lt_irrefl _)
      · rw [if_neg fun h => hm h.2]
  · have hadd : s.add k modal table = s.increment k modal table := by
      unfold add
      rw [if_pos (by rw [mem_index, hn]; rfl)]
    rw [hadd]
    exact ⟨_, increment_acts hs hn table⟩

/-- `remove` raises an error exactly if the entry is not there. -/
theorem remove_acts (hs : s.Refines h) (k : ι) (modal table : String) :
    (s.remove k modal table = none ↔ table ∉ h.tables (s.view k) modal) ∧ ∃ h',
      Acts h s ((s.remove k modal table).getD s) k
        (update (h.tables (s.view k)) modal ((h.tables (s.view k) modal).erase table)) h' := by
  unfold remove
  rcases hv : s.item k modal table with _ | v
  · have hmem : table ∉ h.tables (s.view k) modal := fun h' => by
      rw [← hs.isSome_iff, hv] at h'
      cases h'
    rw [Multiset.erase_of_notMem hmem, update_eq_self]
    refine ⟨⟨fun _ => hmem, fun _ => rfl⟩, h, acts_of_dicts hs (fun _ _ => rfl) (fun m i hi => ?_)
      fun _ _ => ⟨rfl, rfl⟩⟩
    rw [tables_some hi, update_eq_self]
    exact ⟨rfl, .inl hi⟩
  · obtain ⟨n, hn⟩ : ∃ n, s.view k modal = some n := by
      rcases h : s.view k modal with _ | n
      · cases hv.symm.trans (item_none h table)
      · exact ⟨n, rfl⟩
    have hmem : table ∈ h.dicts modal n := by
      rw [← tables_some hn, ← hs.isSome_iff, hv]
      rfl
    have hcount : v = ((h.dicts modal n).count table : ℤ) := by
      rw [← tables_some hn, ← hs.getD, hv]
      rfl
    have hset : ∀ modal' n' table', ((s.setItem k modal table (v - 1)).dicts modal' n').lookup table'
        = if modal' = modal ∧ s.view k modal = some n' ∧ table' = table then some (v - 1)
          else (s.dicts modal' n').lookup table' := fun _ _ _ => setItem_lookup
    have hitem : (s.setItem k modal table (v - 1)).item k modal table = some (v - 1) := by
      rw [item_eq (s := s.setItem k modal table (v - 1)) (by rw [setItem_view, hn]), hset,
        if_pos ⟨rfl, hn, rfl⟩]
    obtain ⟨s', hs', hc⟩ := cleanUp_spec hitem
    dsimp only
    rw [hs', tables_some hn]
    have hlookup : ∀ modal' n' table', (s'.dicts modal' n').lookup table'
        = if modal' = modal ∧ s.view k modal = some n' ∧ table' = table then
            if v - 1 ≤ 0 then none else some (v - 1)
          else (s.dicts modal' n').lookup table' := fun modal' n' table' => by
      rw [hc.lookup, setItem_view, hset]
      simp only [List.mem_singleton, Prod.mk.injEq]
      by_cases h' : modal' = modal ∧ s.view k modal = some n' ∧ table' = table
      · rw [if_pos h', if_pos h', Option.getD_some]
        exact if_congr ⟨fun h => h.2.2, fun h => ⟨⟨h'.1, h'.2.2⟩, h'.1 ▸ h'.2.1, h⟩⟩ rfl rfl
      · rw [if_neg h', if_neg h', if_neg]
        rintro ⟨⟨rfl, rfl⟩, hn', -⟩
        exact h' ⟨rfl, hn', rfl⟩
    have hholds : Holds (s'.dicts modal n) ((h.dicts modal n).erase table) := fun table' => by
      rw [hlookup]
      by_cases ht : table' = table
      · subst ht
        rw [if_pos ⟨rfl, hn, rfl⟩, Multiset.count_erase_self, hcount]
        have hpos := Multiset.count_pos.2 hmem
        refine ite_congr (propext (by omega)) (fun _ => rfl) fun _ => congrArg some ?_
        omega
      · rw [if_neg fun h => ht h.2.2, Multiset.count_erase_of_ne ht]
        exact hs.holds k modal n hn table'
    have hgone : ∀ modal', s'.view k modal' = s.view k modal'
        ∨ s'.view k modal' = none ∧ modal' = modal
          ∧ ∀ table', (s'.dicts modal n).lookup table' = none := fun modal' => by
      rcases hc.view modal' with h' | h'
      · exact .inl (h'.trans (congrFun₂ setItem_view k modal'))
      rcases hn' : s.view k modal' with _ | n'
      · exact .inl h'
      · obtain ⟨⟨table', hin⟩, hempty⟩ := (hc.gone modal' n' (by rw [setItem_view, hn'])).1 h'
        obtain rfl : modal' = modal := (Prod.ext_iff.1 (List.mem_singleton.1 hin)).1
        obtain rfl : n = n' := Option.some.inj (hn.symm.trans hn')
        exact .inr ⟨h', rfl, hempty⟩
    refine ⟨⟨(fun h' => by cases h'), fun h' => (h' hmem).elim⟩, _, acts_of_write hs hn
      (hc.fresh.trans setItem_fresh) (fun k' hk' => (hc.others k' hk').trans (congrFun setItem_view k'))
      (fun modal' hm => (hgone modal').resolve_right fun h' => hm h'.2.1) ?_ hholds
      fun modal' n' table' hne => ?_⟩
    · rcases hgone modal with h' | ⟨h', -, hempty⟩
      · exact .inl (h'.trans hn)
      · exact .inr ⟨h', hholds.empty.1 hempty⟩
    · show (s'.dicts modal' n').lookup table' = _
      rw [hlookup, if_neg]
      rintro ⟨rfl, hn', -⟩
      exact hne ⟨rfl, Option.some.inj (hn'.symm.trans hn)⟩

theorem iadd_acts (hs : s.Refines h) (k other : ι) : Acts h s (s.iadd k other) k
    (fun modal => h.tables (s.view k) modal + h.tables (s.view other) modal)
    (h.iadd (s.view k) (s.view other)).1 := by
  obtain ⟨hrefines, hview, hothers⟩ := iadd_refines hs k other
  refine acts_of_dicts hrefines hothers (fun modal i hi => ?_) fun modal hi => ?_
  · rw [hview, tables_some hi]
    rcases ho : s.view other modal with _ | j
    · rw [tables_none ho]
      simp [ModalHeap.iadd, hi, ho]
    · rw [tables_some ho]
      simp [ModalHeap.iadd, hi, ho]
  · rw [hview, tables_none hi]
    rcases ho : s.view other modal with _ | j
    · rw [tables_none ho]
      simp [ModalHeap.iadd, ModalHeap.tables, hi, ho]
    · rw [tables_some ho]
      simp [ModalHeap.iadd, ModalHeap.tables, hi, ho]

theorem isub_acts (hs : s.Refines h) (k other : ι) : ∃ s', s.isub k other = some s' ∧ Acts h s s' k
    (fun modal => h.tables (s.view k) modal - h.tables (s.view other) modal)
    (h.isub (s.view k) (s.view other)).1 := by
  obtain ⟨s', hs', hrefines, hview, hothers⟩ := isub_refines hs k other
  refine ⟨s', hs', acts_of_dicts hrefines hothers (fun modal i hi => ?_) fun modal hi => ?_⟩
  · rw [hview, tables_some hi]
    rcases ho : s.view other modal with _ | j
    · rw [tables_none ho]
      simp [ModalHeap.isub, hi, ho]
    · rw [tables_some ho]
      simp only [ModalHeap.isub, hi, ho]
      refine ⟨trivial, ?_⟩
      split_ifs with hif
      · exact .inr ⟨rfl, hif.2⟩
      · exact .inl rfl
  · rw [hview, tables_none hi, Multiset.zero_sub]
    simp [ModalHeap.isub, ModalHeap.tables, hi]

/-- What every operation does. -/
theorem step_acts (hs : s.Refines h) (op : IndexOp ι) : ∃ h', Acts h s (s.step op) op.self
    (Tally.step (fun k => h.tables (s.view k)) op op.self) h' := by
  rcases op with ⟨k, modal, table⟩ | ⟨k, modal, table⟩ | ⟨k, other⟩ | ⟨k, other⟩
  · simp only [Tally.step, IndexOp.self, update_self]
    exact add_acts hs k modal table
  · simp only [Tally.step, IndexOp.self, update_self]
    exact (remove_acts hs k modal table).2
  · simp only [Tally.step, IndexOp.self, update_self]
    exact ⟨_, iadd_acts hs k other⟩
  · simp only [Tally.step, IndexOp.self, update_self]
    obtain ⟨s', hs', hacts⟩ := isub_acts hs k other
    rw [show s.step (.isub k other) = s' from congrArg (Option.getD · s) hs']
    exact ⟨_, hacts⟩

theorem step_other (M : Tally ι) (op : IndexOp ι) (hk : k ≠ op.self) : M.step op k = M k := by
  cases op <;> exact update_of_ne hk ..

/-- Where the index has a dictionary for the modal, it is changed exactly if its multiset is. -/
theorem changes_iff (hs : s.Refines h) (op : IndexOp ι) (hn : s.view op.self modal = some n) :
    s.Changes op modal ↔ Tally.step (fun k => h.tables (s.view k)) op op.self modal
      ≠ h.tables (s.view op.self) modal := by
  rcases op with ⟨k, m, table⟩ | ⟨k, m, table⟩ | ⟨k, other⟩ | ⟨k, other⟩
  · simp only [Tally.step, IndexOp.self, Changes, update_self]
    by_cases hm : modal = m
    · rw [hm, update_self]
      refine ⟨fun _ heq => ?_, fun _ => rfl⟩
      have hcard := congrArg Multiset.card heq
      rw [Multiset.card_cons] at hcard
      exact Nat.succ_ne_self _ hcard
    · rw [update_of_ne hm]
      exact ⟨fun h => (hm h).elim, fun h => (h rfl).elim⟩
  · simp only [Tally.step, IndexOp.self, Changes, update_self, hs.isSome_iff]
    by_cases hm : modal = m
    · subst hm
      rw [update_self]
      refine ⟨fun h' heq => ?_, fun h' => ⟨rfl, by_contra fun hmem => h' (Multiset.erase_of_notMem hmem)⟩⟩
      have hlt := Multiset.card_erase_lt_of_mem h'.2
      rw [heq] at hlt
      exact Nat.lt_irrefl _ hlt
    · rw [update_of_ne hm]
      exact ⟨fun h => (hm h.1).elim, fun h => (h rfl).elim⟩
  · simp only [Tally.step, IndexOp.self, Changes, update_self, hs.isSome_iff]
    rw [Ne, add_eq_left, Multiset.eq_zero_iff_forall_notMem, not_forall]
    simp only [not_not]
  · simp only [Tally.step, IndexOp.self, Changes, update_self, hs.isSome_iff]
    exact (sub_ne_iff _ _).symm

theorem represents_iff {M : Tally ι} (hs : s.Refines h) :
    s.Represents M ↔ ∀ k modal, h.tables (s.view k) modal = M k modal := by
  refine forall_congr' fun k => forall_congr' fun modal => ?_
  constructor
  · intro h'
    ext table
    have hget := congrArg (·.getD 0) (h' table)
    rw [hs.getD] at hget
    split_ifs at hget with h0
    · rw [h0]
      exact Int.ofNat_inj.1 hget
    · exact Int.ofNat_inj.1 hget
  · intro h' table
    rw [← h']
    exact hs.item k modal table

theorem Represents.refines {M : Tally ι} (hM : s.Represents M) : ∃ h, s.Refines h := by
  classical
  refine ⟨⟨fun modal n => if hk : ∃ k, s.view k modal = some n then M hk.choose modal else 0, s.fresh⟩,
    rfl, fun k modal n hn table => ?_⟩
  have hk : ∃ k, s.view k modal = some n := ⟨k, hn⟩
  simp only [dif_pos hk]
  exact (item_eq hk.choose_spec table).symm.trans (hM hk.choose modal table)

/-- One operation is that on multisets exactly if no other index holds a dictionary that it changes. -/
theorem step_represents_iff {M : Tally ι} (hM : s.Represents M) (op : IndexOp ι) :
    (s.step op).Represents (M.step op) ↔ s.Undivided op := by
  obtain ⟨h, hs⟩ := hM.refines
  obtain rfl : M = fun k => h.tables (s.view k) :=
    funext₂ fun k modal => ((represents_iff hs).1 hM k modal).symm
  obtain ⟨h', hacts⟩ := step_acts hs op
  rw [represents_iff hacts.refines]
  constructor
  · intro hrep modal hch n hn k hk hkn
    refine (changes_iff hs op hn).1 hch ?_
    have hkn : s.view k modal = some n := hkn
    have hself := hrep k modal
    rw [step_other _ _ hk, hacts.others modal k hk, if_pos ⟨by rw [hkn]; exact hn, by
      rw [show s.view op.self modal = some n from hn]; rfl⟩] at hself
    rw [hself, tables_some hkn, tables_some hn]
  · intro hund k modal
    by_cases hk : k = op.self
    · rw [hk]
      exact hacts.self modal
    · rw [step_other _ _ hk, hacts.others modal k hk]
      split_ifs with hshare
      · obtain ⟨n, hn⟩ := Option.isSome_iff_exists.1 hshare.2
        have hkn : s.view k modal = some n := hshare.1.symm.trans hn
        rw [tables_some hkn, ← tables_some (h := h) hn]
        by_contra hne
        exact hund modal ((changes_iff hs op hn).2 hne) n hn k hk hkn
      · rfl

/-- In every run the indexes are multisets that only their own operations change exactly as long as no
operation changes a dictionary that another index holds too. -/
theorem represents_iff_undivided {M : Tally ι} (hM : s.Represents M) (ops : List (IndexOp ι)) :
    (∀ before after, ops = before ++ after →
      (run ModalStore.step s before).Represents (run Tally.step M before))
    ↔ Along ModalStore.step Undivided s ops := by
  have hstep : ∀ (s : ModalStore ι) (M : Tally ι) op, s.Represents M →
      ((s.step op).Represents (M.step op) ↔ s.Undivided op) := fun _ _ op hM => step_represents_iff hM op
  exact related_iff_along hstep ops hM

theorem init_represents : (init : ModalStore ι).Represents fun _ _ => 0 := fun _ _ _ => rfl

/-- One index is added to another that lacks the modal, which then gets one more table. -/
theorem represents_iff_undivided_sample :
    (∀ before after, [IndexOp.add true "insert" "p", .iadd false true, .add false "insert" "q"]
      = before ++ after → (run ModalStore.step (init : ModalStore Bool) before).Represents
        (run Tally.step (fun _ _ => 0) before))
    ↔ Along ModalStore.step Undivided (init : ModalStore Bool)
      [.add true "insert" "p", .iadd false true, .add false "insert" "q"] :=
  represents_iff_undivided init_represents _

/-- The table gets into the index on the right as well. -/
theorem not_represents_always : ¬∀ (s : ModalStore Bool) (M : Tally Bool), s.Represents M →
    ∀ ops before after, ops = before ++ after →
      (run ModalStore.step s before).Represents (run Tally.step M before) := by
  intro h
  have h' := h init _ init_represents [.add true "insert" "p", .iadd false true, .add false "insert" "q"]
    _ [] (List.append_nil _).symm true "insert" "q"
  exact absurd h' (by decide)

end ModalStore

end Congress
