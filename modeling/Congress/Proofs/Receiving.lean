import Mathlib.Tactic.SplitIfs
import Mathlib.Tactic.Common
import Congress.DataService

/-!
# What receiving a message does

`workOff` says what is left of a queue, and what is handed on, once it is processed from a given
receiver number: stale messages are dropped and consecutive ones handed on, up to the first that
is too early, or to one numbered `0`, which starts the table afresh. Every nested call of
`receive_data_sequenced` takes one message out of the queue, so the recursion ends
(`receiveDataSequenced_isSome`).
-/

namespace Congress

open Lib

set_option linter.unusedSectionVars false

variable {P T Row τ κ : Type*} [DecidableEq P] [DecidableEq T] [DecidableEq Row] [LinearOrder κ]
  {rank : Payload Row → τ → κ}

/-- What processing a queue comes to: the number reached, the queue left, unless it is cleared,
and the messages handed on. -/
structure WorkOff (Row τ : Type*) where
  seqnum : ℕ
  rest : Option (List (QueuedMsg Row τ))
  handed : List (QueuedMsg Row τ)

/-- A queue processed from receiver number `r`. -/
def workOff : ℕ → List (QueuedMsg Row τ) → WorkOff Row τ
  | r, [] => ⟨r, some [], []⟩
  | r, m :: q =>
    if m.seqnum = 0 then ⟨0, none, [m]⟩
    else if m.seqnum ≤ r then workOff r q
    else if m.seqnum = r + 1 then
      let w := workOff (r + 1) q
      { w with handed := m :: w.handed }
    else ⟨r, some (m :: q), []⟩

section WorkOff

variable {r : ℕ} {m : QueuedMsg Row τ} (q : List (QueuedMsg Row τ))

@[simp] theorem workOff_nil : workOff r ([] : List (QueuedMsg Row τ)) = ⟨r, some [], []⟩ := rfl

theorem workOff_restart (h : m.seqnum = 0) : workOff r (m :: q) = ⟨0, none, [m]⟩ := if_pos h

theorem workOff_stale (h : m.seqnum ≠ 0) (hr : m.seqnum ≤ r) :
    workOff r (m :: q) = workOff r q := by rw [workOff, if_neg h, if_pos hr]

theorem workOff_next (h : m.seqnum = r + 1) : workOff r (m :: q)
    = { workOff (r + 1) q with handed := m :: (workOff (r + 1) q).handed } := by
  rw [workOff, if_neg (by omega), if_neg (by omega), if_pos h]

theorem workOff_early (h : r + 1 < m.seqnum) :
    workOff r (m :: q) = ⟨r, some (m :: q), []⟩ := by
  rw [workOff, if_neg (by omega), if_neg (by omega), if_neg (by omega)]

end WorkOff

/-- The call of `receive_data` for a message of channel `c`. -/
def QueuedMsg.received (c : P × T) (m : QueuedMsg Row τ) : Received P T Row :=
  ⟨c.1, c.2, m.data, m.isSnapshot⟩

namespace DataService

section Fields

variable (s : DataService P T rank) (c : P × T)

@[simp] theorem receiveData_msgQueues (d : Payload Row) (b : Bool) :
    (s.receiveData c d b).msgQueues = s.msgQueues := rfl
@[simp] theorem receiveData_oldestQueueTimes (d : Payload Row) (b : Bool) :
    (s.receiveData c d b).oldestQueueTimes = s.oldestQueueTimes := rfl
@[simp] theorem receiveData_receiverSeqnums (d : Payload Row) (b : Bool) :
    (s.receiveData c d b).receiverSeqnums = s.receiverSeqnums := rfl
@[simp] theorem receiveData_history (d : Payload Row) (b : Bool) :
    (s.receiveData c d b).receiveDataHistory
      = s.receiveDataHistory ++ [⟨c.1, c.2, d, b⟩] := rfl

@[simp] theorem setSeqnum_msgQueues (n : ℕ) : (s.setSeqnum c n).msgQueues = s.msgQueues := rfl
@[simp] theorem setSeqnum_oldestQueueTimes (n : ℕ) :
    (s.setSeqnum c n).oldestQueueTimes = s.oldestQueueTimes := rfl
@[simp] theorem setSeqnum_receiverSeqnums (n : ℕ) :
    (s.setSeqnum c n).receiverSeqnums = Function.update s.receiverSeqnums c (some n) := rfl
@[simp] theorem setSeqnum_history (n : ℕ) :
    (s.setSeqnum c n).receiveDataHistory = s.receiveDataHistory := rfl

@[simp] theorem clearMsgQueue_msgQueues :
    (s.clearMsgQueue c).msgQueues = Function.update s.msgQueues c none := rfl
@[simp] theorem clearMsgQueue_oldestQueueTimes :
    (s.clearMsgQueue c).oldestQueueTimes = Function.update s.oldestQueueTimes c none := rfl
@[simp] theorem clearMsgQueue_receiverSeqnums :
    (s.clearMsgQueue c).receiverSeqnums = s.receiverSeqnums := rfl
@[simp] theorem clearMsgQueue_history :
    (s.clearMsgQueue c).receiveDataHistory = s.receiveDataHistory := rfl

@[simp] theorem addToMsgQueue_receiverSeqnums (m : QueuedMsg Row τ) :
    (s.addToMsgQueue c m).receiverSeqnums = s.receiverSeqnums := by
  unfold addToMsgQueue; split <;> rfl
@[simp] theorem addToMsgQueue_history (m : QueuedMsg Row τ) :
    (s.addToMsgQueue c m).receiveDataHistory = s.receiveDataHistory := by
  unfold addToMsgQueue; split <;> rfl

@[simp] theorem updateOldestTime_receiverSeqnums (q : PriorityQueue (QueuedMsg.key rank)) :
    (s.updateOldestTime c q).receiverSeqnums = s.receiverSeqnums := by
  unfold updateOldestTime; split <;> rfl
@[simp] theorem updateOldestTime_history (q : PriorityQueue (QueuedMsg.key rank)) :
    (s.updateOldestTime c q).receiveDataHistory = s.receiveDataHistory := by
  unfold updateOldestTime; split <;> rfl

/-- Looking at the first message leaves the queue as it is. -/
@[simp] theorem updateOldestTime_msgQueues (q : PriorityQueue (QueuedMsg.key rank)) :
    (s.updateOldestTime c q).msgQueues = Function.update s.msgQueues c (some q) := by
  unfold updateOldestTime
  split
  · rename_i m q' h
    simp only [PriorityQueue.put_of_get? h]
  · rfl

/-- The time recorded is the first message's. -/
@[simp] theorem updateOldestTime_oldestQueueTimes (q : PriorityQueue (QueuedMsg.key rank)) :
    (s.updateOldestTime c q).oldestQueueTimes
      = Function.update s.oldestQueueTimes c (some (q.items.head?.map (·.receiptTime))) := by
  unfold updateOldestTime
  split
  · rename_i m q' h
    rw [PriorityQueue.get?_eq_some] at h
    simp [h]
  · rename_i h
    rw [PriorityQueue.get?_eq_none] at h
    simp [h]

theorem queued_eq {q : PriorityQueue (QueuedMsg.key rank)} (h : s.msgQueues c = some q) :
    s.queued c = q.items := by simp [queued, h]

theorem addToMsgQueue_other (m : QueuedMsg Row τ) {c' : P × T} (h : c' ≠ c) :
    (s.addToMsgQueue c m).msgQueues c' = s.msgQueues c'
      ∧ (s.addToMsgQueue c m).oldestQueueTimes c' = s.oldestQueueTimes c' := by
  unfold addToMsgQueue; split <;> simp [h]

/-- Queueing a message puts it in its place. -/
theorem addToMsgQueue_queued (m : QueuedMsg Row τ) :
    ∃ q, (s.addToMsgQueue c m).msgQueues c = some q
      ∧ q.items = (s.queued c).orderedInsert (QueuedMsg.key rank · ≤ QueuedMsg.key rank ·) m := by
  unfold addToMsgQueue
  split
  · rename_i h
    exact ⟨_, Function.update_self .., by simp [queued, h]⟩
  · rename_i q h
    exact ⟨_, Function.update_self .., by simp [queued, h]⟩

end Fields

/-- What receiving and processing changes: channel `c` reaches number `r` with the queue `rest`,
and `handed` is handed on. -/
structure Leaves (s : DataService P T rank) (c : P × T) (r : Option ℕ)
    (rest : Option (List (QueuedMsg Row τ))) (handed : List (Received P T Row))
    (s' : DataService P T rank) : Prop where
  seqnum : s'.receiverSeqnums = Function.update s.receiverSeqnums c r
  rest : (s'.msgQueues c).map PriorityQueue.items = rest
  queues : ∀ c' ≠ c, s'.msgQueues c' = s.msgQueues c'
  times : ∀ c' ≠ c, s'.oldestQueueTimes c' = s.oldestQueueTimes c'
  history : s'.receiveDataHistory = s.receiveDataHistory ++ handed

/-- The time recorded once a queue is processed: a message left at the front was taken out and put
back, so it is that of the second. -/
def oldestLeft (rest : Option (List (QueuedMsg Row τ))) : Option (Option τ) :=
  rest.map fun l => l[1]?.map (·.receiptTime)

theorem Leaves.trans {s s₁ s₂ : DataService P T rank} {c : P × T} {r₁ r₂ : Option ℕ}
    {rest₁ rest₂ : Option (List (QueuedMsg Row τ))} {h₁ h₂ : List (Received P T Row)}
    (l₁ : Leaves s c r₁ rest₁ h₁ s₁) (l₂ : Leaves s₁ c r₂ rest₂ h₂ s₂) :
    Leaves s c r₂ rest₂ (h₁ ++ h₂) s₂ where
  seqnum := by rw [l₂.seqnum, l₁.seqnum, Function.update_idem]
  rest := l₂.rest
  queues c' h := (l₂.queues c' h).trans (l₁.queues c' h)
  times c' h := (l₂.times c' h).trans (l₁.times c' h)
  history := by rw [l₂.history, l₁.history, List.append_assoc]

/-- Taking the first message out of a queue. -/
theorem leaves_updateOldestTime (s : DataService P T rank) (c : P × T)
    (q : PriorityQueue (QueuedMsg.key rank)) :
    Leaves s c (s.receiverSeqnums c) (some q.items) [] (s.updateOldestTime c q) where
  seqnum := by simp
  rest := by simp
  queues c' h := by simp [h]
  times c' h := by simp [h]
  history := by simp

/-- Handing a message on under number `n`. -/
theorem leaves_handOn (s : DataService P T rank) (c : P × T) (n : ℕ) (d : Payload Row) (b : Bool) :
    Leaves s c (some n) ((s.msgQueues c).map PriorityQueue.items) [⟨c.1, c.2, d, b⟩]
      ((s.setSeqnum c n).receiveData c d b) where
  seqnum := by simp
  rest := rfl
  queues _ _ := rfl
  times _ _ := rfl
  history := rfl

/-- Starting the table afresh. -/
theorem leaves_restart (s : DataService P T rank) (c : P × T) (n : ℕ) (d : Payload Row)
    (b : Bool) :
    Leaves s c (some n) none [⟨c.1, c.2, d, b⟩]
      (((s.setSeqnum c n).clearMsgQueue c).receiveData c d b) where
  seqnum := by simp
  rest := by simp
  queues c' h := by simp [h]
  times c' h := by simp [h]
  history := rfl

/-- Queueing a message. -/
theorem leaves_add (s : DataService P T rank) (c : P × T) (m : QueuedMsg Row τ) :
    Leaves s c (s.receiverSeqnums c)
      (some ((s.queued c).orderedInsert (QueuedMsg.key rank · ≤ QueuedMsg.key rank ·) m)) []
      (s.addToMsgQueue c m) where
  seqnum := by simp
  rest := by
    obtain ⟨q, hq, hi⟩ := s.addToMsgQueue_queued c m
    rw [hq, Option.map_some, hi]
  queues c' h := (s.addToMsgQueue_other c m h).1
  times c' h := (s.addToMsgQueue_other c m h).2
  history := by simp

theorem receiveDataSequenced_unknown (fuel : ℕ) {s : DataService P T rank} {c : P × T}
    (hr : s.receiverSeqnums c = none) (d : Payload Row) (n : ℕ) (b : Bool) (t : τ) :
    receiveDataSequenced (fuel + 1) s ⟨c.1, c.2, d, some n, b, t⟩
      = if b then processQueuedMsg (receiveDataSequenced fuel)
          ((s.setSeqnum c n).receiveData c d b) c
        else some (s.addToMsgQueue c ⟨n, b, d, t⟩) := by
  simp only [receiveDataSequenced, Prod.mk.eta, hr]

theorem receiveDataSequenced_known (fuel : ℕ) {s : DataService P T rank} {c : P × T} {r : ℕ}
    (hr : s.receiverSeqnums c = some r) (d : Payload Row) (n : ℕ) (b : Bool) (t : τ) :
    receiveDataSequenced (fuel + 1) s ⟨c.1, c.2, d, some n, b, t⟩
      = if n = 0 then some (((s.setSeqnum c n).clearMsgQueue c).receiveData c d b)
        else if n ≤ r then processQueuedMsg (receiveDataSequenced fuel) s c
        else if n = r + 1 then processQueuedMsg (receiveDataSequenced fuel)
          ((s.setSeqnum c n).receiveData c d b) c
        else some (s.addToMsgQueue c ⟨n, b, d, t⟩) := by
  simp only [receiveDataSequenced, Prod.mk.eta, hr]

/-- There is nothing to process in an empty queue. -/
theorem processQueuedMsg_nil (receive : DataService P T rank → Message P T Row τ →
    Option (DataService P T rank)) {s : DataService P T rank} {c : P × T} {r : ℕ}
    {q : PriorityQueue (QueuedMsg.key rank)} (hq : s.msgQueues c = some q)
    (hr : s.receiverSeqnums c = some r) (hi : q.items = []) :
    processQueuedMsg receive s c = some s
      ∧ Leaves s c (some (workOff r q.items).seqnum) (workOff r q.items).rest
          ((workOff r q.items).handed.map (QueuedMsg.received c)) s := by
  refine ⟨by simp only [processQueuedMsg, hq, PriorityQueue.get?_eq_none.2 hi],
    ⟨?_, ?_, fun _ _ => rfl, fun _ _ => rfl, ?_⟩⟩ <;> simp [hi, hq, ← hr]

/-- Processing a queue works it off, and records the time of what is then first but one. -/
theorem processQueuedMsg_spec : ∀ (fuel : ℕ) {s : DataService P T rank} {c : P × T} {r : ℕ}
    {q : PriorityQueue (QueuedMsg.key rank)}, s.msgQueues c = some q →
    s.receiverSeqnums c = some r → q.items.length ≤ fuel →
      ∃ s', processQueuedMsg (receiveDataSequenced fuel) s c = some s'
        ∧ Leaves s c (some (workOff r q.items).seqnum) (workOff r q.items).rest
          ((workOff r q.items).handed.map (QueuedMsg.received c)) s'
        ∧ s'.oldestQueueTimes c
          = if q.items = [] then s.oldestQueueTimes c else oldestLeft (workOff r q.items).rest := by
  intro fuel
  induction fuel with
  | zero =>
    intro s c r q hq hr hf
    have hi : q.items = [] := List.length_eq_zero_iff.1 (Nat.le_zero.1 hf)
    obtain ⟨hp, hl⟩ := processQueuedMsg_nil (receiveDataSequenced 0) hq hr hi
    exact ⟨s, hp, hl, by rw [if_pos hi]⟩
  | succ fuel ih =>
    intro s c r q hq hr hf
    rcases hg : q.get? with _ | ⟨m, q'⟩
    · have hi : q.items = [] := PriorityQueue.get?_eq_none.1 hg
      obtain ⟨hp, hl⟩ := processQueuedMsg_nil (receiveDataSequenced (fuel + 1)) hq hr hi
      exact ⟨s, hp, hl, by rw [if_pos hi]⟩
    have hi : q.items = m :: q'.items := PriorityQueue.get?_eq_some.1 hg
    have hl : q'.items.length ≤ fuel := by
      rw [hi, List.length_cons] at hf
      omega
    -- the state in which the message taken out is received again
    set s₁ := s.updateOldestTime c q' with hs₁
    have l₁ : Leaves s c (some r) (some q'.items) [] s₁ := hr ▸ leaves_updateOldestTime s c q'
    have hq₁ : s₁.msgQueues c = some q' := by simp [hs₁]
    have hr₁ : s₁.receiverSeqnums c = some r := by simp [hs₁, hr]
    have ht₁ : s₁.oldestQueueTimes c = some (q'.items.head?.map (·.receiptTime)) := by simp [hs₁]
    have hp : processQueuedMsg (receiveDataSequenced (fuel + 1)) s c
        = receiveDataSequenced (fuel + 1) s₁
          ⟨c.1, c.2, m.data, some m.seqnum, m.isSnapshot, m.receiptTime⟩ := by
      simp only [processQueuedMsg, hq, hg, hs₁]
    rw [hp, receiveDataSequenced_known fuel hr₁, hi, if_neg (List.cons_ne_nil _ _)]
    by_cases h0 : m.seqnum = 0
    · refine ⟨_, if_pos h0, ?_, ?_⟩
      · simpa [workOff_restart q'.items h0, h0, QueuedMsg.received]
          using l₁.trans (leaves_restart s₁ c m.seqnum m.data m.isSnapshot)
      · simp [workOff_restart q'.items h0, oldestLeft]
    rw [if_neg h0]
    by_cases hle : m.seqnum ≤ r
    · rw [if_pos hle]
      obtain ⟨s', hp, l₂, ht⟩ := ih hq₁ hr₁ hl
      rw [workOff_stale q'.items h0 hle]
      refine ⟨s', hp, l₁.trans l₂, ?_⟩
      rw [ht, ht₁]
      split_ifs with hi' <;> simp [hi', oldestLeft]
    rw [if_neg hle]
    by_cases hs : m.seqnum = r + 1
    · rw [if_pos hs]
      have l₂ := l₁.trans (leaves_handOn s₁ c m.seqnum m.data m.isSnapshot)
      set s₂ := (s₁.setSeqnum c m.seqnum).receiveData c m.data m.isSnapshot with hs₂
      have hq₂ : s₂.msgQueues c = some q' := by simpa [hs₂] using hq₁
      have hr₂ : s₂.receiverSeqnums c = some (r + 1) := by simp [hs₂, hs]
      have ht₂ : s₂.oldestQueueTimes c = s₁.oldestQueueTimes c := rfl
      obtain ⟨s', hp, l₃, ht⟩ := ih hq₂ hr₂ hl
      rw [workOff_next q'.items hs]
      refine ⟨s', hp, by simpa [QueuedMsg.received] using l₂.trans l₃, ?_⟩
      rw [ht, ht₂, ht₁]
      split_ifs with hi' <;> simp [hi', oldestLeft]
    · rw [if_neg hs, workOff_early q'.items (by omega)]
      -- too early: it goes back to the front of the queue, and the time stays the next one's
      refine ⟨_, rfl, ?_, ?_⟩
      · have l₂ := l₁.trans (leaves_add s₁ c m)
        rwa [hr₁, queued_eq _ _ hq₁, ← PriorityQueue.put_items, PriorityQueue.put_of_get? hg, hi]
          at l₂
      · simp [addToMsgQueue, hq₁, ht₁, oldestLeft, List.head?_eq_getElem?]

/-- The queue of channel `c`, if it has one, worked off from receiver number `r`. -/
def worked (s : DataService P T rank) (c : P × T) (r : ℕ) : WorkOff Row τ :=
  match s.msgQueues c with
  | none => ⟨r, none, []⟩
  | some q => workOff r q.items

/-- What processing the queue of channel `c` from number `r` on makes of `s`. -/
structure Processed (s : DataService P T rank) (c : P × T) (r : ℕ)
    (handed : List (Received P T Row)) (s' : DataService P T rank) : Prop where
  leaves : Leaves s c (some (s.worked c r).seqnum) (s.worked c r).rest
    (handed ++ (s.worked c r).handed.map (QueuedMsg.received c)) s'
  time : s'.oldestQueueTimes c
    = if s.queued c = [] then s.oldestQueueTimes c else oldestLeft (s.worked c r).rest

theorem processed {fuel : ℕ} {s : DataService P T rank} {c : P × T} {r : ℕ}
    (hr : s.receiverSeqnums c = some r) (hf : (s.queued c).length ≤ fuel) :
    ∃ s', processQueuedMsg (receiveDataSequenced fuel) s c = some s' ∧ Processed s c r [] s' := by
  rcases hq : s.msgQueues c with _ | q
  · refine ⟨s, by simp only [processQueuedMsg, hq], ⟨⟨?_, ?_, fun _ _ => rfl, fun _ _ => rfl, ?_⟩,
      ?_⟩⟩ <;> simp [worked, hq, ← hr, queued]
  · rw [queued_eq s c hq] at hf
    obtain ⟨s', hp, hl, ht⟩ := processQueuedMsg_spec fuel hq hr hf
    exact ⟨s', hp, ⟨by simpa [worked, hq] using hl, by simpa [worked, hq, queued_eq s c hq] using ht⟩⟩

theorem Processed.handOn {s s' : DataService P T rank} {c : P × T} {n : ℕ} {d : Payload Row}
    {b : Bool} (h : Processed ((s.setSeqnum c n).receiveData c d b) c n [] s') :
    Processed s c n [⟨c.1, c.2, d, b⟩] s' :=
  ⟨(leaves_handOn s c n d b).trans h.leaves, h.time⟩

section Receive

variable {s : DataService P T rank} {c : P × T} {r n : ℕ} {b : Bool} (d : Payload Row) (t : τ)

/-- Enough fuel: the call returns. -/
theorem receiveDataSequenced_isSome (s : DataService P T rank) (m : Message P T Row τ) {fuel : ℕ}
    (hf : (s.queued (m.publisher, m.table)).length < fuel) :
    (receiveDataSequenced fuel s m).isSome := by
  obtain ⟨fuel, rfl⟩ := Nat.exists_eq_add_of_lt hf
  rcases m with ⟨p, u, d, _ | n, b, t⟩
  · rfl
  set c := (p, u) with hc
  have hf : (s.queued c).length ≤ (s.queued c).length + fuel := Nat.le_add_right ..
  have hd : ∀ s' : DataService P T rank, s'.msgQueues = s.msgQueues → s'.receiverSeqnums c ≠ none →
      (processQueuedMsg (receiveDataSequenced ((s.queued c).length + fuel)) s' c).isSome := by
    intro s' hq hr
    obtain ⟨r, hr⟩ := Option.ne_none_iff_exists'.1 hr
    have hf' : (s'.queued c).length ≤ (s.queued c).length + fuel := by
      rw [show s'.queued c = s.queued c by unfold queued; rw [hq]]
      exact hf
    obtain ⟨s'', hp, -⟩ := processed hr hf'
    rw [hp]
    rfl
  rcases hr : s.receiverSeqnums c with _ | r
  · rw [receiveDataSequenced_unknown (c := c) _ hr]
    split_ifs
    · exact hd _ rfl (by simp)
    · rfl
  · rw [receiveDataSequenced_known (c := c) _ hr]
    split_ifs
    · rfl
    · exact hd _ rfl (by simp [hr])
    · exact hd _ rfl (by simp)
    · rfl

/-- A message without a number is handed on. -/
theorem receive_unsequenced (s : DataService P T rank) (c : P × T) (b : Bool) :
    s.receive ⟨c.1, c.2, d, none, b, t⟩ = s.receiveData c d b := rfl

/-- A message too early for the channel is queued. -/
theorem receive_queue (h : s.receiverSeqnums c = none ∧ b = false
      ∨ ∃ r, s.receiverSeqnums c = some r ∧ r + 1 < n) :
    s.receive ⟨c.1, c.2, d, some n, b, t⟩ = s.addToMsgQueue c ⟨n, b, d, t⟩ := by
  unfold receive
  rcases h with ⟨hr, rfl⟩ | ⟨r, hr, hn⟩
  · rw [receiveDataSequenced_unknown _ hr]
    rfl
  · rw [receiveDataSequenced_known _ hr, if_neg (by omega), if_neg (by omega), if_neg (by omega)]
    rfl

/-- Number `0` on a channel that is under way starts it afresh. -/
theorem receive_restart (hr : s.receiverSeqnums c = some r) :
    s.receive ⟨c.1, c.2, d, some 0, b, t⟩
      = ((s.setSeqnum c 0).clearMsgQueue c).receiveData c d b := by
  unfold receive
  rw [receiveDataSequenced_known _ hr, if_pos rfl]
  rfl

/-- A stale message only has the queue processed. -/
theorem receive_stale (hr : s.receiverSeqnums c = some r) (h0 : n ≠ 0) (hn : n ≤ r) :
    Processed s c r [] (s.receive ⟨c.1, c.2, d, some n, b, t⟩) := by
  obtain ⟨s', hp, h⟩ := processed hr (le_refl (s.queued c).length)
  unfold receive
  rw [receiveDataSequenced_known _ hr, if_neg h0, if_pos hn]
  simp only [Prod.mk.eta, hp, Option.getD_some]
  exact h

/-- A first snapshot, and the next message of a channel under way, is handed on, and the queue
processed after it. -/
theorem receive_handOn (h : s.receiverSeqnums c = none ∧ b = true
      ∨ ∃ r, s.receiverSeqnums c = some r ∧ n = r + 1) :
    Processed s c n [⟨c.1, c.2, d, b⟩] (s.receive ⟨c.1, c.2, d, some n, b, t⟩) := by
  have hr' : ((s.setSeqnum c n).receiveData c d b).receiverSeqnums c = some n := by simp
  obtain ⟨s', hp, hl⟩ := processed hr' (le_refl (s.queued c).length)
  suffices s.receive ⟨c.1, c.2, d, some n, b, t⟩ = s' from this ▸ hl.handOn
  unfold receive
  rcases h with ⟨hr, rfl⟩ | ⟨r, hr, rfl⟩
  · rw [receiveDataSequenced_unknown _ hr, if_pos rfl]
    simp only [Prod.mk.eta, hp, Option.getD_some]
  · rw [receiveDataSequenced_known _ hr, if_neg (by omega), if_neg (by omega), if_pos rfl]
    simp only [Prod.mk.eta, hp, Option.getD_some]

/-- Receiving a message changes its channel only, and hands on messages of that channel only. -/
theorem receive_leaves (s : DataService P T rank) (m : Message P T Row τ) :
    ∃ r rest handed, Leaves s (m.publisher, m.table) r rest handed (s.receive m)
      ∧ ∀ x ∈ handed, (x.publisher, x.table) = (m.publisher, m.table) := by
  rcases m with ⟨p, u, d, _ | n, b, t⟩
  · refine ⟨s.receiverSeqnums (p, u), _, [⟨p, u, d, b⟩],
      ⟨?_, rfl, fun _ _ => rfl, fun _ _ => rfl, rfl⟩, by simp⟩
    rw [show s.receive ⟨p, u, d, none, b, t⟩ = s.receiveData (p, u) d b from rfl]
    simp only [receiveData_receiverSeqnums, Function.update_eq_self]
  have process : ∀ {r n : ℕ} {handed : List (Received P T Row)},
      Processed s (p, u) r handed (s.receive ⟨p, u, d, some n, b, t⟩) →
      (∀ x ∈ handed, (x.publisher, x.table) = (p, u)) →
      ∃ r rest handed, Leaves s (p, u) r rest handed (s.receive ⟨p, u, d, some n, b, t⟩)
        ∧ ∀ x ∈ handed, (x.publisher, x.table) = (p, u) := by
    intro r n handed h hx
    refine ⟨_, _, _, h.leaves, fun x hm => ?_⟩
    rcases List.mem_append.1 hm with hm | hm
    · exact hx x hm
    · obtain ⟨q, -, rfl⟩ := List.mem_map.1 hm
      rfl
  have queue : s.receive ⟨p, u, d, some n, b, t⟩ = s.addToMsgQueue (p, u) ⟨n, b, d, t⟩ →
      ∃ r rest handed, Leaves s (p, u) r rest handed (s.receive ⟨p, u, d, some n, b, t⟩)
        ∧ ∀ x ∈ handed, (x.publisher, x.table) = (p, u) := fun h =>
    ⟨_, _, [], h ▸ leaves_add s (p, u) _, by simp⟩
  rcases hr : s.receiverSeqnums (p, u) with _ | r
  · cases b
    · exact queue (receive_queue (c := (p, u)) d t (.inl ⟨hr, rfl⟩))
    · exact process (receive_handOn (c := (p, u)) d t (.inl ⟨hr, rfl⟩)) (by simp)
  rcases Nat.eq_zero_or_pos n with rfl | h0
  · exact ⟨_, _, [⟨p, u, d, b⟩],
      receive_restart (c := (p, u)) d t hr ▸ leaves_restart s (p, u) 0 d b, by simp⟩
  rcases lt_trichotomy n (r + 1) with h | h | h
  · exact process (receive_stale (c := (p, u)) d t hr (by omega) (by omega)) (by simp)
  · exact process (receive_handOn (c := (p, u)) d t (.inr ⟨r, hr, h⟩)) (by simp)
  · exact queue (receive_queue (c := (p, u)) d t (.inr ⟨r, hr, h⟩))

end Receive

end DataService

end Congress
