import Congress.Lib.Run
import Congress.Proofs.Delivery

/-!
# The stream a publisher sends

A publisher remembers the data it last published differentially, and computes the next difference
from it. A full snapshot is not remembered, so a subscriber that has applied it is out of step with
the publisher unless it repeats what is remembered (`Repeats`). What is remembered is replaced by
the table's content at the first request if no message has been sent so far; it should be the same
if an empty table has been published (`Agrees`). With these two conditions the messages sent after
any request rebuild the data published, and only with them (`reconstructs_iff`).
-/

namespace Congress

open Lib

set_option linter.unusedSectionVars false

variable {P T Row τ κ : Type*} [DecidableEq P] [DecidableEq T] [DecidableEq Row] [LinearOrder κ]
  {rank : Payload Row → τ → κ}

/-- What happens to a table of a publisher: it is published, or its last data are asked for. -/
inductive PublisherOp (Row : Type*)
  | publish (data : Finset Row) (useSnapshot : Bool)
  | request

/-- A publisher at work on a table: the time, which counts the operations, the messages sent, and
the data given to the last call of `publish`. -/
structure Publishing (P T : Type*) {Row τ κ : Type*} [LinearOrder κ]
    (rank : Payload Row → τ → κ) where
  time : ℕ
  service : DataService P T rank
  sent : List (Publication Row)
  given : Option (Finset Row)

namespace Publishing

/-- A new publisher. -/
def start : Publishing P T rank := ⟨0, DataService.init, [], none⟩

variable (table : T) (getSnapshot : ℕ → Finset Row)

/-- A publisher after one more operation; `getSnapshot` tells the table's content at each time. -/
def step (p : Publishing P T rank) : PublisherOp Row → Publishing P T rank
  | .publish data useSnapshot =>
    let (s, m) := p.service.publish table data useSnapshot
    ⟨p.time + 1, s, p.sent ++ m.toList, some data⟩
  | .request =>
    { p with
      time := p.time + 1
      service := (p.service.getLastPublishedDataWithSeqnum table (getSnapshot p.time)).1 }

/-- The answer to a request, unless it fails. -/
def answer (p : Publishing P T rank) : Option (ℕ × Finset Row) :=
  (p.service.getLastPublishedDataWithSeqnum table (getSnapshot p.time)).2

/-- The publisher that has just answered a request. -/
def answered (p : Publishing P T rank) : Publishing P T rank :=
  { p with service := (p.service.getLastPublishedDataWithSeqnum table (getSnapshot p.time)).1 }

end Publishing

/-- What a subscriber that got `data` under number `n` makes of the messages numbered later. -/
def copyAfter (n : ℕ) (data : Finset Row) (sent : List (Publication Row)) : Finset Row :=
  (sent.filter fun m => n < m.seqnum).foldl (fun copy m => applyPayload copy m.data) data

namespace Publishing

/-- At every moment a request is answered, with the data last given to `publish`, and the messages
with later numbers turn the answer into what each later call of `publish` is given. -/
def Reconstructs (table : T) (getSnapshot : ℕ → Finset Row) (ops : List (PublisherOp Row))
    (p₀ : Publishing P T rank) : Prop :=
  ∀ before after, ops = before ++ after →
    let p := run (step table getSnapshot) p₀ before
    ∃ n data, p.answer table getSnapshot = some (n, data) ∧ (∀ d, p.given = some d → data = d)
      ∧ ∀ later d b rest, after = later ++ .publish d b :: rest →
        copyAfter n data (run (step table getSnapshot) (p.answered table getSnapshot)
          (later ++ [.publish d b])).sent = d

/-- A snapshot repeats the data remembered. -/
def Repeats (table : T) (p : Publishing P T rank) : PublisherOp Row → Prop
  | .publish data true => p.service.lastPublishedData table = some data
  | _ => True

/-- As long as no number has been given out, data remembered are the table's content. -/
def Agrees (table : T) (getSnapshot : ℕ → Finset Row) (p : Publishing P T rank) : Prop :=
  p.service.senderSeqnums table = none →
    ∀ d, p.service.lastPublishedData table = some d → getSnapshot p.time = d

end Publishing

/-! ## Publishing once -/

namespace DataService

section Publish

variable {s : DataService P T rank} {table : T} {d x : Finset Row}

theorem differential_eq (s : DataService P T rank) (table : T) (d : Finset Row) :
    s.differential table d = (d \ (s.lastPublishedData table).getD ∅,
      (s.lastPublishedData table).getD ∅ \ d) := by
  unfold differential
  split <;> rename_i h <;> simp [h]

theorem applyPayload_differential (x d : Finset Row) :
    applyPayload x (.diff (d \ x) (x \ d)) = d := by
  ext i
  simp only [applyPayload, Finset.mem_union, Finset.mem_sdiff]
  tauto

/-- Publishing differentially records the data, and sends what is different. -/
theorem publish_diff (s : DataService P T rank) (table : T) (d : Finset Row) :
    s.publish table d false
      = if (s.lastPublishedData table).getD ∅ = d then
          ({ s with lastPublishedData := Function.update s.lastPublishedData table (some d) }, none)
        else
          ({ s with
              lastPublishedData := Function.update s.lastPublishedData table (some d)
              senderSeqnums := Function.update s.senderSeqnums table (some (s.nextSeqnum table)) },
            some ⟨s.nextSeqnum table, false, .diff (d \ (s.lastPublishedData table).getD ∅)
              ((s.lastPublishedData table).getD ∅ \ d)⟩) := by
  have h : (s.lastPublishedData table).getD ∅ = d
      ↔ d \ (s.lastPublishedData table).getD ∅ = ∅
        ∧ (s.lastPublishedData table).getD ∅ \ d = ∅ := by
    rw [Finset.sdiff_eq_empty_iff_subset, Finset.sdiff_eq_empty_iff_subset,
      Finset.Subset.antisymm_iff, and_comm]
  simp only [publish, differential_eq, Bool.false_eq_true, if_false, h]

theorem publish_snapshot (s : DataService P T rank) (table : T) (d : Finset Row) :
    s.publish table d true
      = ({ s with
            senderSeqnums := Function.update s.senderSeqnums table (some (s.nextSeqnum table)) },
          some ⟨s.nextSeqnum table, true, .rows d⟩) := rfl

theorem publish_diff_last (s : DataService P T rank) (table : T) (d : Finset Row) :
    (s.publish table d false).1.lastPublishedData table = some d := by
  rw [publish_diff]
  split_ifs <;> simp

/-- A message sent carries the number reached; without one the numbers stay as they are. -/
theorem publish_seqnum (s : DataService P T rank) (table : T) (d : Finset Row) (b : Bool) :
    (∃ m, (s.publish table d b).2 = some m ∧ m.seqnum = s.nextSeqnum table
        ∧ (s.publish table d b).1.senderSeqnums table = some (s.nextSeqnum table))
      ∨ (s.publish table d b).2 = none
        ∧ (s.publish table d b).1.senderSeqnums = s.senderSeqnums := by
  cases b
  · rw [publish_diff]
    split_ifs <;> simp
  · rw [publish_snapshot]
    simp

/-- What is sent turns the data remembered into those published, provided that a snapshot repeats
them. -/
theorem publish_copy (hx : s.lastPublishedData table = some x) {b : Bool} (hb : b = true → x = d) :
    (s.publish table d b).1.lastPublishedData table = some d
      ∧ (s.publish table d b).2.toList.foldl (fun copy m => applyPayload copy m.data) x = d := by
  cases b
  · refine ⟨s.publish_diff_last table d, ?_⟩
    rw [publish_diff, hx, Option.getD_some]
    split_ifs with h
    · simpa using h
    · simpa using applyPayload_differential x d
  · obtain rfl := hb rfl
    exact ⟨hx, by simp [publish_snapshot, applyPayload]⟩

theorem nextSeqnum_eq {n : ℕ} (h : s.senderSeqnums table = some n) :
    s.nextSeqnum table = n + 1 := by simp [nextSeqnum, h]

theorem getLastPublishedDataWithSeqnum_some {n : ℕ} (h : s.senderSeqnums table = some n)
    (snapshot : Finset Row) : s.getLastPublishedDataWithSeqnum table snapshot
      = (s, (s.lastPublishedData table).map fun data => (n, data)) := by
  simp [getLastPublishedDataWithSeqnum, h]

theorem getLastPublishedDataWithSeqnum_none (h : s.senderSeqnums table = none)
    (snapshot : Finset Row) : s.getLastPublishedDataWithSeqnum table snapshot
      = ({ s with
            senderSeqnums := Function.update s.senderSeqnums table (some 0)
            lastPublishedData := Function.update s.lastPublishedData table (some snapshot) },
          some (0, snapshot)) := by
  simp [getLastPublishedDataWithSeqnum, h]

end Publish

end DataService

namespace Publishing

variable {table : T} {getSnapshot : ℕ → Finset Row} {p p' : Publishing P T rank}
  {x data : Finset Row} {n₀ : ℕ}

/-! ## After a request -/

/-- A request on a table with a number changes nothing. -/
theorem step_request_known {n : ℕ} (h : p.service.senderSeqnums table = some n) :
    step table getSnapshot p .request = { p with time := p.time + 1 } := by
  simp only [step, DataService.getLastPublishedDataWithSeqnum_some h]

theorem step_request_new (h : p.service.senderSeqnums table = none) :
    step table getSnapshot p .request
      = { p with
          time := p.time + 1
          service := { p.service with
            senderSeqnums := Function.update p.service.senderSeqnums table (some 0)
            lastPublishedData := Function.update p.service.lastPublishedData table
              (some (getSnapshot p.time)) } } := by
  simp only [step, DataService.getLastPublishedDataWithSeqnum_none h]

/-- A subscriber that got `data` under number `n₀` has what is remembered. -/
structure Tracks (table : T) (n₀ : ℕ) (data x : Finset Row) (p : Publishing P T rank) : Prop where
  seqnum : ∃ n, p.service.senderSeqnums table = some n ∧ n₀ ≤ n
  last : p.service.lastPublishedData table = some x
  copy : copyAfter n₀ data p.sent = x

theorem copyAfter_append (l l' : List (Publication Row)) (h : ∀ m ∈ l', n₀ < m.seqnum) :
    copyAfter n₀ data (l ++ l')
      = l'.foldl (fun copy m => applyPayload copy m.data) (copyAfter n₀ data l) := by
  unfold copyAfter
  have hl : l'.filter (fun m => decide (n₀ < m.seqnum)) = l' :=
    List.filter_eq_self.2 fun m hm => by simpa using h m hm
  rw [List.filter_append, List.foldl_append, hl]

theorem copyAfter_of_le {l : List (Publication Row)} (h : ∀ m ∈ l, m.seqnum ≤ n₀) :
    copyAfter n₀ data l = data := by
  unfold copyAfter
  rw [List.filter_eq_nil_iff.2 fun m hm => by simpa using h m hm]
  rfl

theorem Tracks.publish (h : Tracks table n₀ data x p) {d : Finset Row} {b : Bool}
    (hr : Repeats table p (.publish d b)) :
    Tracks table n₀ data d (step table getSnapshot p (.publish d b)) := by
  obtain ⟨n, hn, hle⟩ := h.seqnum
  have hnext := DataService.nextSeqnum_eq hn
  obtain ⟨hl, hc⟩ := DataService.publish_copy (d := d) h.last (b := b) (by
    rintro rfl
    exact Option.some.inj (h.last.symm.trans hr))
  have hs := p.service.publish_seqnum table d b
  rw [hnext] at hs
  refine ⟨?_, hl, ?_⟩
  · rcases hs with ⟨m, -, -, hs⟩ | ⟨-, hs⟩
    · exact ⟨n + 1, hs, by omega⟩
    · exact ⟨n, (congrFun hs table).trans hn, hle⟩
  · simp only [step]
    rw [copyAfter_append, h.copy, hc]
    rcases hs with ⟨m, hm, hs, -⟩ | ⟨hm, -⟩
    · simp only [hm, Option.toList_some, List.mem_singleton, forall_eq]
      omega
    · simp [hm]

theorem Tracks.request (h : Tracks table n₀ data x p) :
    Tracks table n₀ data x (step table getSnapshot p .request) := by
  obtain ⟨n, hn, hle⟩ := h.seqnum
  rw [step_request_known hn]
  exact ⟨⟨n, hn, hle⟩, h.last, h.copy⟩

theorem Tracks.runs : ∀ {ops : List (PublisherOp Row)} {x : Finset Row} {p : Publishing P T rank},
    Tracks table n₀ data x p → Along (step table getSnapshot) (Repeats table) p ops →
      ∃ x', Tracks table n₀ data x' (run (step table getSnapshot) p ops)
  | [], x, _, h, _ => ⟨x, h⟩
  | .publish _ _ :: _, _, _, h, hk => (h.publish hk.1).runs hk.2
  | .request :: _, _, _, h, hk => h.request.runs hk.2

/-! ## With and without the request -/

/-- `p'` has answered a request that `p` has not. -/
structure Ahead (table : T) (getSnapshot : ℕ → Finset Row) (p p' : Publishing P T rank) :
    Prop where
  time : p'.time = p.time
  seqnum : ∃ n, p'.service.senderSeqnums table = some n
  last : p'.service.lastPublishedData table
    = some ((p.service.lastPublishedData table).getD (getSnapshot p.time))
  fresh : p.service.lastPublishedData table = none → p.service.senderSeqnums table = none

theorem Ahead.repeats (h : Ahead table getSnapshot p p') {o : PublisherOp Row}
    (hr : Repeats table p o) : Repeats table p' o := by
  match o with
  | .publish d true =>
    have hr : p.service.lastPublishedData table = some d := hr
    exact h.last.trans (by rw [hr, Option.getD_some])
  | .publish d false => trivial
  | .request => trivial

theorem publish_seqnum_ne_none {d : Finset Row} {b : Bool} {n : ℕ}
    (h : p.service.senderSeqnums table = some n) :
    ∃ n', (step table getSnapshot p (.publish d b)).service.senderSeqnums table = some n' := by
  rcases p.service.publish_seqnum table d b with ⟨m, -, -, hs⟩ | ⟨-, hs⟩
  · exact ⟨_, hs⟩
  · exact ⟨n, (congrFun hs table).trans h⟩

theorem Ahead.step (h : Ahead table getSnapshot p p') (ha : Agrees table getSnapshot p)
    {o : PublisherOp Row} (hr : Repeats table p o) :
    Ahead table getSnapshot (step table getSnapshot p o) (step table getSnapshot p' o) := by
  obtain ⟨n, hn⟩ := h.seqnum
  match o with
  | .publish d true =>
    have hr : p.service.lastPublishedData table = some d := hr
    have hl := h.last
    rw [hr, Option.getD_some] at hl
    refine ⟨congrArg (· + 1) h.time, publish_seqnum_ne_none hn, ?_, fun h0 => ?_⟩
    · exact hl.trans (by simp [Publishing.step, DataService.publish_snapshot, hr])
    · exact absurd (hr.symm.trans h0) (by simp)
  | .publish d false =>
    refine ⟨congrArg (· + 1) h.time, publish_seqnum_ne_none hn, ?_, fun h0 => ?_⟩
    · simp only [Publishing.step, DataService.publish_diff_last, Option.getD_some]
    · simp [Publishing.step, DataService.publish_diff_last] at h0
  | .request =>
    rw [step_request_known hn]
    rcases hs : p.service.senderSeqnums table with _ | n'
    · rw [step_request_new hs]
      refine ⟨congrArg (· + 1) h.time, ⟨n, hn⟩, ?_, fun h0 => by simp at h0⟩
      rw [h.last]
      rcases hl : p.service.lastPublishedData table with _ | x
      · simp
      · simp [ha hs x hl]
    · rw [step_request_known hs]
      refine ⟨congrArg (· + 1) h.time, ⟨n, hn⟩, ?_, h.fresh⟩
      rw [h.last]
      rcases hl : p.service.lastPublishedData table with _ | x
      · exact absurd (hs.symm.trans (h.fresh hl)) (by simp)
      · rfl

/-- What is repeated without the request is repeated after it. -/
theorem Ahead.along : ∀ {ops : List (PublisherOp Row)} {p p' : Publishing P T rank},
    Ahead table getSnapshot p p' → Always (Publishing.step table getSnapshot)
      (Agrees table getSnapshot) p ops → Along (Publishing.step table getSnapshot) (Repeats table) p ops →
      Along (Publishing.step table getSnapshot) (Repeats table) p' ops
  | [], _, _, _, _, _ => trivial
  | _ :: _, _, _, h, ha, hr => ⟨h.repeats hr.1, (h.step ha.1 hr.1).along ha.2 hr.2⟩

/-! ## A run -/

/-- As long as no number is given out, what is remembered is what was published; the messages sent
are numbered up to the number reached. -/
structure Numbered (table : T) (p : Publishing P T rank) : Prop where
  fresh : p.service.senderSeqnums table = none → p.service.lastPublishedData table = p.given
  sent : ∀ m ∈ p.sent, ∃ n, p.service.senderSeqnums table = some n ∧ m.seqnum ≤ n

theorem Numbered.step (h : Numbered table p) (o : PublisherOp Row) :
    Numbered table (step table getSnapshot p o) := by
  match o with
  | .publish d b =>
    rcases p.service.publish_seqnum table d b with ⟨m, hm, hs, hn⟩ | ⟨hm, hn⟩
    · refine ⟨fun h0 => absurd (hn.symm.trans h0) (by simp), fun m' hm' => ⟨_, hn, ?_⟩⟩
      simp only [Publishing.step, hm, Option.toList_some, List.mem_append, List.mem_singleton] at hm'
      rcases hm' with hm' | rfl
      · obtain ⟨n, hn', hle⟩ := h.sent m' hm'
        rw [DataService.nextSeqnum_eq hn']
        omega
      · exact hs.le
    · refine ⟨fun _ => ?_, fun m' hm' => ?_⟩
      · cases b
        · exact p.service.publish_diff_last table d
        · simp [DataService.publish_snapshot] at hm
      · simp only [Publishing.step, hm, Option.toList_none, List.append_nil] at hm'
        simp only [Publishing.step, hn]
        exact h.sent m' hm'
  | .request =>
    rcases hs : p.service.senderSeqnums table with _ | n
    · rw [step_request_new hs]
      refine ⟨by simp, fun m hm => ?_⟩
      obtain ⟨n, hn, -⟩ := h.sent m hm
      exact absurd (hs.symm.trans hn) (by simp)
    · rw [step_request_known hs]
      exact ⟨h.fresh, h.sent⟩

/-- What was published is remembered, and something is once a number is given out. -/
structure Recorded (table : T) (p : Publishing P T rank) : Prop where
  given : ∀ d, p.given = some d → p.service.lastPublishedData table = some d
  fresh : p.service.lastPublishedData table = none → p.service.senderSeqnums table = none

theorem Recorded.step (h : Recorded table p) (ha : Agrees table getSnapshot p)
    {o : PublisherOp Row} (hr : Repeats table p o) :
    Recorded table (step table getSnapshot p o) := by
  match o with
  | .publish d true =>
    have hr : p.service.lastPublishedData table = some d := hr
    exact ⟨fun d' hd => hd ▸ hr, fun h0 => absurd (hr.symm.trans h0) (by simp)⟩
  | .publish d false =>
    have hl := p.service.publish_diff_last table d
    exact ⟨fun d' hd => hd ▸ hl, fun h0 => absurd (hl.symm.trans h0) (by simp)⟩
  | .request =>
    rcases hs : p.service.senderSeqnums table with _ | n
    · rw [step_request_new hs]
      refine ⟨fun d hd => ?_, by simp⟩
      simp [ha hs d (h.given d hd)]
    · rw [step_request_known hs]
      exact ⟨h.given, h.fresh⟩

theorem Recorded.runs : ∀ {ops : List (PublisherOp Row)} {p : Publishing P T rank},
    Recorded table p → Always (Publishing.step table getSnapshot) (Agrees table getSnapshot) p ops →
      Along (Publishing.step table getSnapshot) (Repeats table) p ops →
      Recorded table (run (Publishing.step table getSnapshot) p ops)
  | [], _, h, _, _ => h
  | _ :: _, _, h, ha, hr => (h.step ha.1 hr.1).runs ha.2 hr.2

/-- A publisher that remembers what it published answers a request, and is ahead by it. -/
theorem Recorded.answered (h : Recorded table p) (hn : Numbered table p)
    (ha : Agrees table getSnapshot p) :
    ∃ n data, p.answer table getSnapshot = some (n, data) ∧ (∀ d, p.given = some d → data = d)
      ∧ Ahead table getSnapshot p (p.answered table getSnapshot)
      ∧ Tracks table n data data (p.answered table getSnapshot) := by
  rcases hs : p.service.senderSeqnums table with _ | n
  · have hg := DataService.getLastPublishedDataWithSeqnum_none hs (getSnapshot p.time)
    have hc : copyAfter 0 (getSnapshot p.time) p.sent = getSnapshot p.time :=
      copyAfter_of_le fun m hm => by
        obtain ⟨n, hn', -⟩ := hn.sent m hm
        exact absurd (hs.symm.trans hn') (by simp)
    refine ⟨0, getSnapshot p.time, by simp only [answer, hg],
      fun d hd => ha hs d (h.given d hd), ⟨rfl, ⟨0, ?_⟩, ?_, h.fresh⟩, ⟨⟨0, ?_, le_rfl⟩, ?_, hc⟩⟩
    all_goals simp only [Publishing.answered, hg, Function.update_self]
    rcases hl : p.service.lastPublishedData table with _ | x
    · rfl
    · rw [ha hs x hl, Option.getD_some]
  · have hg := DataService.getLastPublishedDataWithSeqnum_some hs (getSnapshot p.time)
    rcases hl : p.service.lastPublishedData table with _ | x
    · exact absurd (hs.symm.trans (h.fresh hl)) (by simp)
    have hc : copyAfter n x p.sent = x := copyAfter_of_le fun m hm => by
      obtain ⟨n', hn', hle⟩ := hn.sent m hm
      rwa [Option.some.inj (hs.symm.trans hn')]
    refine ⟨n, x, by simp only [answer, hg, hl, Option.map_some],
      fun d hd => Option.some.inj (hl.symm.trans (h.given d hd)),
      ⟨rfl, ⟨n, ?_⟩, ?_, h.fresh⟩, ⟨⟨n, ?_, le_rfl⟩, ?_, hc⟩⟩
    all_goals simp only [Publishing.answered, hg, hs, hl, Option.getD_some]

/-- A new publisher's messages rebuild its data from every moment on exactly if its snapshots repeat
what it remembers, and an empty table published before any message is empty when it is asked
for. -/
theorem reconstructs_iff (table : T) (getSnapshot : ℕ → Finset Row) (ops : List (PublisherOp Row)) :
    Reconstructs table getSnapshot ops (start : Publishing P T rank)
      ↔ Along (Publishing.step table getSnapshot) (Repeats table) (start : Publishing P T rank) ops
        ∧ Always (Publishing.step table getSnapshot) (Agrees table getSnapshot)
          (start : Publishing P T rank) ops := by
  have hn : ∀ before, Numbered table (run (Publishing.step table getSnapshot)
      (start : Publishing P T rank) before) := fun before =>
    run_invariant (fun _ o h => h.step o) before ⟨fun _ => rfl, by simp [start]⟩
  constructor
  · intro h
    refine ⟨along_iff_split.2 fun before o after heq => ?_,
      always_iff_split.2 fun before after heq hs d hd => ?_⟩
    · match o with
      | .publish d false => trivial
      | .request => trivial
      | .publish d true =>
        obtain ⟨n, data, ha, hg, -⟩ := h (before ++ [.publish d true]) after (by simp [heq])
        rw [run_append, run_cons, run_nil] at ha hg
        have := hg d rfl
        subst this
        simp only [answer] at ha
        rw [DataService.getLastPublishedDataWithSeqnum_some (n := _) (by
          simp [Publishing.step, DataService.publish_snapshot]; rfl)] at ha
        obtain ⟨x, hx, hx'⟩ := Option.map_eq_some_iff.1 ha
        rw [← (Prod.mk.inj hx').2]
        exact hx
    · obtain ⟨n, data, ha, hg, -⟩ := h before after heq
      simp only [answer, DataService.getLastPublishedDataWithSeqnum_none hs] at ha
      rw [(Prod.mk.inj (Option.some.inj ha)).2]
      exact hg d ((hn before).fresh hs ▸ hd)
  · rintro ⟨hr, ha⟩ before after rfl
    rw [along_append] at hr
    rw [always_append] at ha
    have h : Recorded table (run (Publishing.step table getSnapshot)
        (start : Publishing P T rank) before) :=
      Recorded.runs ⟨by simp [start], fun _ => rfl⟩ ha.1 hr.1
    obtain ⟨n, data, hans, hg, had, ht⟩ := h.answered (hn before) ha.2.first
    refine ⟨n, data, hans, hg, ?_⟩
    rintro later d b rest rfl
    have hr' := had.along ha.2 hr.2
    rw [along_append] at hr'
    obtain ⟨x, hx⟩ := ht.runs hr'.1
    rw [run_append, run_cons, run_nil]
    exact (hx.publish hr'.2.1).copy

/-- A snapshot published on a new table: the request after it fails. -/
theorem not_reconstructs_snapshot : ¬ Reconstructs 0 (fun _ => {1}) [.publish {1} true]
    (start : Publishing ℕ ℕ fun _ (t : ℕ) => t) := by
  rw [reconstructs_iff]
  rintro ⟨h, -⟩
  have h : DataService.init.lastPublishedData 0 = some {1} := h.1
  exact absurd h (by simp [DataService.init])

end Publishing

end Congress
