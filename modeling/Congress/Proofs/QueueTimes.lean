import Congress.Lib.Run
import Congress.Proofs.Receiving

/-!
# The oldest queue times

The time recorded for a queue is that of one of its messages unless it was dropped: by a message
queued after the queue was emptied, which sets no time, or by processing a queue down to a single
message, which is taken out, leaving no time, and put back. `KeepsTime` is what a step must avoid,
and avoiding it is exactly what keeps the times right (`noticeable_iff`).
-/

namespace Congress

open Lib

set_option linter.unusedSectionVars false

variable {P T Row τ κ : Type*} [DecidableEq P] [DecidableEq T] [DecidableEq Row] [LinearOrder κ]
  {rank : Payload Row → τ → κ}

namespace DataService

/-- If messages are queued on the channel, the time recorded is that of one of them, so that the
resubscription check succeeds once that message is older than the limit. -/
def NoticeableAt [Sub τ] [LT τ] [DecidableLT τ] (s : DataService P T rank) (c : P × T) : Prop :=
  s.queued c ≠ [] → ∃ m ∈ s.queued c, s.oldestQueueTimes c = some (some m.receiptTime)
    ∧ ∀ now timeToResub, timeToResub < now - m.receiptTime → s.checkResub now timeToResub c = true

/-- Missing messages can be noticed on every channel. -/
def Noticeable [Sub τ] [LT τ] [DecidableLT τ] (s : DataService P T rank) : Prop :=
  ∀ c, s.NoticeableAt c

/-- The messages of a queue still waiting once its channel has reached number `r`: those behind a
gap in the numbers, if no `0` comes before it. -/
def waiting : ℕ → List (QueuedMsg Row τ) → List (QueuedMsg Row τ)
  | _, [] => []
  | r, m :: q =>
    if m.seqnum = 0 then []
    else if m.seqnum ≤ r then waiting r q
    else if m.seqnum = r + 1 then waiting (r + 1) q
    else m :: q

/-- A numbered message does not arrive while its queue is drained, if it is too early, and else
does not leave a single message waiting. -/
def KeepsTimeAt (s : DataService P T rank) (c : P × T) (n : ℕ) (isSnapshot : Bool) : Prop :=
  let drained := s.msgQueues c ≠ none ∧ s.queued c = []
  match s.receiverSeqnums c with
  | none => if isSnapshot then (waiting n (s.queued c)).length ≠ 1 else ¬ drained
  | some r =>
    if n = 0 then True
    else if n ≤ r then (waiting r (s.queued c)).length ≠ 1
    else if n = r + 1 then (waiting n (s.queued c)).length ≠ 1
    else ¬ drained

/-- The condition on a step. -/
def KeepsTime (s : DataService P T rank) : SubscriberOp P T Row τ → Prop
  | .subscribe c (some (n, _)) _ => s.KeepsTimeAt c n true
  | .arrive ⟨p, t, _, some n, b, _⟩ => s.KeepsTimeAt (p, t) n b
  | _ => True

/-- No time is recorded for an emptied queue. -/
def EmptiedAt (s : DataService P T rank) (c : P × T) : Prop :=
  s.msgQueues c ≠ none → s.queued c = [] → s.oldestQueueTimes c = some none

def Emptied (s : DataService P T rank) : Prop := ∀ c, s.EmptiedAt c

theorem EmptiedAt.congr {s s' : DataService P T rank} {c : P × T} (h : s.EmptiedAt c)
    (hq : s'.msgQueues c = s.msgQueues c) (ht : s'.oldestQueueTimes c = s.oldestQueueTimes c) :
    s'.EmptiedAt c := by
  unfold EmptiedAt queued at h ⊢
  rwa [hq, ht]

/-! ## One channel -/

section At

variable [Sub τ] [LT τ] [DecidableLT τ] {s s' : DataService P T rank} {c : P × T} {r : ℕ}
  {handed : List (Received P T Row)}

theorem NoticeableAt.congr (h : s.NoticeableAt c) (hq : s'.msgQueues c = s.msgQueues c)
    (ht : s'.oldestQueueTimes c = s.oldestQueueTimes c) : s'.NoticeableAt c := by
  unfold NoticeableAt checkResub queued at h ⊢
  rwa [hq, ht]

theorem noticeableAt_of_mem {m : QueuedMsg Row τ} (hm : m ∈ s.queued c)
    (ht : s.oldestQueueTimes c = some (some m.receiptTime)) : s.NoticeableAt c :=
  fun _ => ⟨m, hm, ht, fun now timeToResub h => by simpa [checkResub, ht] using h⟩

theorem noticeableAt_of_nil (h : s.queued c = []) : s.NoticeableAt c := fun hq => absurd h hq

theorem not_noticeableAt (h : s.queued c ≠ []) (ht : s.oldestQueueTimes c = some none) :
    ¬ s.NoticeableAt c := by
  intro hn
  obtain ⟨m, -, hm, -⟩ := hn h
  simp [ht] at hm

theorem workOff_rest : ∀ (r : ℕ) (q : List (QueuedMsg Row τ)),
    (workOff r q).rest.getD [] = waiting r q
  | _, [] => rfl
  | r, m :: q => by
    simp only [workOff, waiting]
    split_ifs
    · rfl
    · exact workOff_rest r q
    · exact workOff_rest (r + 1) q
    · rfl

theorem worked_rest (s : DataService P T rank) (c : P × T) (r : ℕ) :
    (s.worked c r).rest.getD [] = waiting r (s.queued c) := by
  unfold worked
  rcases hq : s.msgQueues c with _ | q
  · simp [queued, hq, waiting]
  · rw [queued_eq s c hq, ← workOff_rest]

theorem Processed.queued (h : Processed s c r handed s') :
    s'.queued c = waiting r (s.queued c) := by
  unfold DataService.queued
  rw [h.leaves.rest, worked_rest]
  rfl

theorem Processed.emptiedAt (h : Processed s c r handed s') (he : s.EmptiedAt c) :
    s'.EmptiedAt c := by
  intro hq hq'
  have hr := h.leaves.rest
  rw [h.time]
  split_ifs with h0
  · refine he ?_ h0
    intro hn
    simp [worked, hn] at hr
    exact hq hr
  · obtain ⟨q, hs'⟩ := Option.ne_none_iff_exists'.1 hq
    rw [queued_eq s' c hs'] at hq'
    rw [hs', Option.map_some, hq'] at hr
    simp [← hr, oldestLeft]

/-- Once its queue is processed, the channel is as it should be unless one message is left. -/
theorem Processed.noticeableAt_iff (h : Processed s c r handed s') :
    s'.NoticeableAt c ↔ (waiting r (s.queued c)).length ≠ 1 := by
  have hr := h.leaves.rest
  have hq := h.queued
  have ht := h.time
  by_cases h0 : s.queued c = []
  · rw [h0] at hq ⊢
    exact ⟨fun _ => by simp [waiting], fun _ => noticeableAt_of_nil hq⟩
  rw [if_neg h0] at ht
  rcases hw : waiting r (s.queued c) with _ | ⟨m, _ | ⟨m', l⟩⟩
  · exact ⟨fun _ => by simp, fun _ => noticeableAt_of_nil (hq.trans hw)⟩
  all_goals
    have hs : (s.worked c r).rest = some (waiting r (s.queued c)) := by
      rw [← worked_rest]
      rcases hw' : (s.worked c r).rest with _ | l
      · rw [← worked_rest, hw'] at hw
        simp at hw
      · rfl
    rw [hs, hw] at ht
    simp only [oldestLeft, Option.map_some] at ht
  · refine ⟨fun hn => absurd hn (not_noticeableAt (by simp [hq, hw]) ht), fun hl => ?_⟩
    simp at hl
  · exact ⟨fun _ => by simp, fun _ => noticeableAt_of_mem (by rw [hq, hw]; simp) ht⟩

theorem addToMsgQueue_emptiedAt (s : DataService P T rank) (c : P × T) (m : QueuedMsg Row τ) :
    (s.addToMsgQueue c m).EmptiedAt c := by
  intro _ hq
  obtain ⟨q, hs, hi⟩ := s.addToMsgQueue_queued c m
  rw [queued_eq _ c hs, hi] at hq
  have := congrArg List.length hq
  simp [List.orderedInsert_length] at this

/-- A queued message leaves the channel as it should be unless it comes into an emptied queue. -/
theorem addToMsgQueue_noticeableAt_iff (m : QueuedMsg Row τ) (he : s.EmptiedAt c)
    (hn : s.NoticeableAt c) : (s.addToMsgQueue c m).NoticeableAt c
      ↔ ¬ (s.msgQueues c ≠ none ∧ s.queued c = []) := by
  obtain ⟨q, hs, hi⟩ := s.addToMsgQueue_queued c m
  have hq := queued_eq _ c hs
  rw [hi] at hq
  rcases hc : s.msgQueues c with _ | q₀
  · refine ⟨fun _ h => h.1 rfl, fun _ => noticeableAt_of_mem (m := m) ?_ ?_⟩
    · rw [hq, List.mem_orderedInsert]
      exact .inl rfl
    · simp [addToMsgQueue, hc]
  have ht : (s.addToMsgQueue c m).oldestQueueTimes c = s.oldestQueueTimes c := by
    simp [addToMsgQueue, hc]
  by_cases h0 : s.queued c = []
  · refine ⟨fun h => absurd h (not_noticeableAt ?_ ?_), fun h => absurd ⟨by simp, h0⟩ h⟩
    · rw [hq, h0]
      simp
    · rw [ht]
      exact he (by simp [hc]) h0
  · obtain ⟨m', hm', ht', -⟩ := hn h0
    refine ⟨fun _ h => h0 h.2, fun _ => noticeableAt_of_mem (m := m') ?_ (ht.trans ht')⟩
    rw [hq, List.mem_orderedInsert]
    exact .inr hm'

/-! ## A step -/

theorem Leaves.emptied {r rest} (h : Leaves s c r rest handed s') (he : s.Emptied)
    (hc : s'.EmptiedAt c) : s'.Emptied := fun c' =>
  if hcc : c' = c then hcc ▸ hc else (he c').congr (h.queues c' hcc) (h.times c' hcc)

theorem Leaves.noticeable {r rest} (h : Leaves s c r rest handed s') (hn : s.Noticeable) :
    s'.Noticeable ↔ s'.NoticeableAt c :=
  ⟨fun h' => h' c, fun hc c' =>
    if hcc : c' = c then hcc ▸ hc else (hn c').congr (h.queues c' hcc) (h.times c' hcc)⟩

/-- A numbered message keeps what it should exactly on the condition. -/
theorem receive_noticeable_iff (he : s.Emptied) (hn : s.Noticeable) (d : Payload Row) (n : ℕ)
    (b : Bool) (t : τ) :
    (s.receive ⟨c.1, c.2, d, some n, b, t⟩).Emptied
      ∧ ((s.receive ⟨c.1, c.2, d, some n, b, t⟩).Noticeable ↔ s.KeepsTimeAt c n b) := by
  have queue : (s.receive ⟨c.1, c.2, d, some n, b, t⟩ = s.addToMsgQueue c ⟨n, b, d, t⟩) →
      (s.receive ⟨c.1, c.2, d, some n, b, t⟩).Emptied
      ∧ ((s.receive ⟨c.1, c.2, d, some n, b, t⟩).Noticeable
        ↔ ¬ (s.msgQueues c ≠ none ∧ s.queued c = [])) := by
    intro h
    rw [h, (leaves_add s c _).noticeable hn, addToMsgQueue_noticeableAt_iff _ (he c) (hn c)]
    exact ⟨(leaves_add s c _).emptied he (addToMsgQueue_emptiedAt s c _), Iff.rfl⟩
  have process : ∀ {r handed}, Processed s c r handed (s.receive ⟨c.1, c.2, d, some n, b, t⟩) →
      (s.receive ⟨c.1, c.2, d, some n, b, t⟩).Emptied
      ∧ ((s.receive ⟨c.1, c.2, d, some n, b, t⟩).Noticeable
        ↔ (waiting r (s.queued c)).length ≠ 1) := by
    intro r handed h
    rw [h.leaves.noticeable hn, h.noticeableAt_iff]
    exact ⟨h.leaves.emptied he (h.emptiedAt (he c)), Iff.rfl⟩
  unfold KeepsTimeAt
  rcases hr : s.receiverSeqnums c with _ | r
  · cases b
    · exact queue (receive_queue d t (.inl ⟨hr, rfl⟩))
    · exact process (receive_handOn d t (.inl ⟨hr, rfl⟩))
  simp only
  split_ifs with h0 h1 h2
  · subst h0
    rw [receive_restart d t hr]
    have hl := leaves_restart s c 0 d b
    have hq : (((s.setSeqnum c 0).clearMsgQueue c).receiveData c d b).queued c = [] := by
      simp [queued]
    refine ⟨hl.emptied he fun h => absurd (by simp) h, ?_⟩
    rw [hl.noticeable hn]
    exact ⟨fun _ => trivial, fun _ => noticeableAt_of_nil hq⟩
  · exact process (receive_stale d t hr h0 h1)
  · exact process (receive_handOn d t (.inr ⟨r, hr, h2⟩))
  · exact queue (receive_queue d t (.inr ⟨r, hr, by omega⟩))

/-- A step keeps what it should exactly on the condition. -/
theorem subscriberStep_noticeable_iff (he : s.Emptied) (hn : s.Noticeable)
    (o : SubscriberOp P T Row τ) :
    (s.subscriberStep o).Emptied ∧ ((s.subscriberStep o).Noticeable ↔ s.KeepsTime o) := by
  match o with
  | .subscribe c (some (n, data)) now => exact receive_noticeable_iff he hn _ _ _ _
  | .subscribe c none now => exact ⟨he, fun _ => trivial, fun _ => hn⟩
  | .unsubscribe c =>
    have hq : ∀ c' ≠ c, (s.unsubscribe c).msgQueues c' = s.msgQueues c' := by
      intro c' h
      simp [unsubscribe, clearReceiverSeqnum, h]
    have ht : ∀ c' ≠ c, (s.unsubscribe c).oldestQueueTimes c' = s.oldestQueueTimes c' := by
      intro c' h
      simp [unsubscribe, clearReceiverSeqnum, h]
    have hc : (s.unsubscribe c).msgQueues c = none := by
      simp [unsubscribe, clearReceiverSeqnum]
    refine ⟨fun c' => ?_, fun _ => trivial, fun _ c' => ?_⟩ <;> by_cases hcc : c' = c
    · exact fun h => absurd (hcc ▸ hc) h
    · exact (he c').congr (hq c' hcc) (ht c' hcc)
    · exact noticeableAt_of_nil (by rw [hcc]; simp [queued, subscriberStep, hc])
    · exact (hn c').congr (hq c' hcc) (ht c' hcc)
  | .arrive ⟨p, u, d, none, b, t⟩ =>
    exact ⟨he, fun _ => trivial, fun _ => hn⟩
  | .arrive ⟨p, u, d, some n, b, t⟩ => exact receive_noticeable_iff (c := (p, u)) he hn _ _ _ _

end At

/-! ## A run -/

/-- In every run of a new subscriber, missing messages can be noticed throughout exactly if every
step meets the condition. -/
theorem noticeable_iff [Sub τ] [LT τ] [DecidableLT τ] (ops : List (SubscriberOp P T Row τ)) :
    Always subscriberStep Noticeable (init : DataService P T rank) ops
      ↔ Along subscriberStep KeepsTime (init : DataService P T rank) ops :=
  always_iff_along (I := Emptied) (fun _ o he hn => (subscriberStep_noticeable_iff he hn o).1)
    (fun _ o he hn => (subscriberStep_noticeable_iff he hn o).2) ops (fun _ h => absurd rfl h)
    (fun _ => noticeableAt_of_nil rfl)

/-- A subscriber at number `5` gets `7`, which is queued, then `6`, which empties the queue, then
`9`: it is queued and no time is recorded. -/
def drainedOps : List (SubscriberOp ℕ ℕ ℕ ℕ) :=
  [.subscribe (0, 0) (some (5, ∅)) 0,
    .arrive ⟨0, 0, .diff {7} ∅, some 7, false, 1⟩,
    .arrive ⟨0, 0, .diff {6} ∅, some 6, false, 2⟩,
    .arrive ⟨0, 0, .diff {9} ∅, some 9, false, 3⟩]

theorem not_noticeable_drained :
    ¬ Always subscriberStep Noticeable (init : DataService ℕ ℕ fun _ t => t) drainedOps := by
  intro h
  have hq : (run subscriberStep (init : DataService ℕ ℕ fun _ t => t) drainedOps).queued (0, 0)
      ≠ [] := by decide
  have ht : (run subscriberStep (init : DataService ℕ ℕ fun _ t => t)
      drainedOps).oldestQueueTimes (0, 0) = some none := by decide
  exact not_noticeableAt hq ht (h.last (0, 0))

end DataService

end Congress
