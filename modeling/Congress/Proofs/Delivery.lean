import Congress.Lib.Run
import Congress.Proofs.Receiving

/-!
# Sequenced delivery

A subscriber that gets a snapshot numbered `s` and the publisher's deltas in any order, with any
repetition, hands on the snapshot and then the deltas from `s + 1` up to the first that has not
arrived (`Following`), unless the delta numbered `0` is among them: that one is taken for a fresh
start and handed on whenever it comes, so more is handed on than the number reached accounts for
(`Restarted`).
-/

namespace Congress

open Lib

set_option linter.unusedSectionVars false

variable {P T Row τ κ : Type*} [DecidableEq P] [DecidableEq T] [DecidableEq Row] [LinearOrder κ]
  {rank : Payload Row → τ → κ}

/-- A table's deltas under consecutive numbers, and its content under each number. -/
structure History (Row : Type*) [DecidableEq Row] where
  toAdd : ℕ → Finset Row
  toDel : ℕ → Finset Row
  content : ℕ → Finset Row
  content_succ : ∀ n, content (n + 1) = content n \ toDel (n + 1) ∪ toAdd (n + 1)

namespace History

variable (H : History Row) (c : P × T)

def delta (n : ℕ) : Payload Row := .diff (H.toAdd n) (H.toDel n)

/-- Delta `n` arriving at time `t`. -/
def deltaOp (n : ℕ) (t : τ) : SubscriberOp P T Row τ :=
  .arrive ⟨c.1, c.2, H.delta n, some n, false, t⟩

/-- The answer to the subscription: the content under number `s`. -/
def snapshotOp (s : ℕ) (t : τ) : SubscriberOp P T Row τ := .subscribe c (some (s, H.content s)) t

/-- On channel `c` nothing arrives but deltas. -/
def OnlyDeltas (o : SubscriberOp P T Row τ) : Prop := o.channel = c → ∃ n t, o = H.deltaOp c n t

/-- Delta `n` is among the operations. -/
def Arrived (ops : List (SubscriberOp P T Row τ)) (n : ℕ) : Prop := ∃ t, H.deltaOp c n t ∈ ops

def deltaReceived (n : ℕ) : Received P T Row := ⟨c.1, c.2, H.delta n, false⟩

def snapshotReceived (s : ℕ) : Received P T Row := ⟨c.1, c.2, .rows (H.content s), true⟩

end History

/-- A subscriber's copy of a table after one more call of `receive_data`. -/
def applyPayload (copy : Finset Row) : Payload Row → Finset Row
  | .rows data => data
  | .diff toAdd toDel => copy \ toDel ∪ toAdd

/-- A subscriber's copy of a table after the calls in `log`. -/
def copyOf (log : List (Received P T Row)) : Finset Row :=
  log.foldl (fun copy x => applyPayload copy x.data) ∅

namespace DataService

/-- From `s` to `s'`, `log` is what was handed on to `receive_data` for channel `c`. -/
def HandedOn (s s' : DataService P T rank) (c : P × T) (log : List (Received P T Row)) : Prop :=
  ∃ new, s'.receiveDataHistory = s.receiveDataHistory ++ new
    ∧ new.filter (fun x => (x.publisher, x.table) = c) = log

/-- What was handed on is the snapshot and the deltas after it up to the first that has not
arrived; the last of them is the number recorded, under which the copy is the publisher's table. -/
def DeliversInOrder (H : History Row) (c : P × T) (n₀ : ℕ) (arrived : ℕ → Prop)
    (s s' : DataService P T rank) : Prop :=
  ∃ k log, n₀ ≤ k ∧ (∀ n, n₀ < n → n ≤ k → arrived n) ∧ ¬ arrived (k + 1)
    ∧ s.HandedOn s' c log
    ∧ log = H.snapshotReceived c n₀ :: (List.range' (n₀ + 1) (k - n₀)).map (H.deltaReceived c)
    ∧ s'.receiverSeqnums c = some k ∧ copyOf log = H.content k

end DataService

/-! ## Working off a queue of deltas -/

section WorkOff

/-- A queue `q` worked off from `r` on without a fresh start: the numbers following `r` are handed
on, each once, and what is left comes after a gap. -/
structure InOrder (r : ℕ) (q : List (QueuedMsg Row τ)) (w : WorkOff Row τ) : Prop where
  le : r ≤ w.seqnum
  handed : w.handed.map (·.seqnum) = List.range' (r + 1) (w.seqnum - r)
  handed_mem : ∀ m ∈ w.handed, m ∈ q
  rest_mem : ∀ m ∈ w.rest.getD [], m ∈ q ∧ w.seqnum + 1 < m.seqnum
  cover : ∀ m ∈ q, m.seqnum ≤ w.seqnum ∨ m ∈ w.rest.getD []

theorem InOrder.nil (r : ℕ) (rest : Option (List (QueuedMsg Row τ))) (h : rest.getD [] = []) :
    InOrder r [] (⟨r, rest, []⟩ : WorkOff Row τ) :=
  ⟨le_rfl, by simp, by simp, by simp [h], by simp⟩

theorem workOff_inOrder : ∀ {q : List (QueuedMsg Row τ)} (r : ℕ),
    q.Pairwise (·.seqnum ≤ ·.seqnum) → (∀ m ∈ q, m.seqnum ≠ 0) → InOrder r q (workOff r q)
  | [], r, _, _ => InOrder.nil r _ rfl
  | m :: q, r, hs, h0 => by
    rw [List.pairwise_cons] at hs
    have hm : m.seqnum ≠ 0 := h0 m (List.mem_cons_self ..)
    have h0' : ∀ m ∈ q, m.seqnum ≠ 0 := fun m' h => h0 m' (List.mem_cons_of_mem _ h)
    rcases lt_trichotomy m.seqnum (r + 1) with h | h | h
    · have ih := workOff_inOrder r hs.2 h0'
      rw [workOff_stale q hm (by omega)]
      refine ⟨ih.le, ih.handed, fun m' hm' => List.mem_cons_of_mem _ (ih.handed_mem m' hm'),
        fun m' hm' => ⟨List.mem_cons_of_mem _ (ih.rest_mem m' hm').1, (ih.rest_mem m' hm').2⟩,
        fun m' hm' => ?_⟩
      rcases List.mem_cons.1 hm' with rfl | hm'
      · exact .inl (by have := ih.le; omega)
      · exact ih.cover m' hm'
    · have ih := workOff_inOrder (r + 1) hs.2 h0'
      have hle := ih.le
      rw [workOff_next q h]
      refine ⟨by simp only; omega, ?_, fun m' hm' => ?_,
        fun m' hm' => ⟨List.mem_cons_of_mem _ (ih.rest_mem m' hm').1, (ih.rest_mem m' hm').2⟩,
        fun m' hm' => ?_⟩
      · simp only [List.map_cons, ih.handed, h]
        rw [show (workOff (r + 1) q).seqnum - r = (workOff (r + 1) q).seqnum - (r + 1) + 1 by omega,
          List.range'_succ]
      · rcases List.mem_cons.1 hm' with rfl | hm'
        · exact List.mem_cons_self ..
        · exact List.mem_cons_of_mem _ (ih.handed_mem m' hm')
      · rcases List.mem_cons.1 hm' with rfl | hm'
        · exact .inl (by simp only; omega)
        · exact ih.cover m' hm'
    · rw [workOff_early q h]
      refine ⟨le_rfl, by simp, by simp, fun m' hm' => ⟨hm', ?_⟩, fun _ => .inr⟩
      rcases List.mem_cons.1 hm' with rfl | hm'
      · exact h
      · exact h.trans_le (hs.1 m' hm')

/-- However a queue is worked off, the number reached grows by no more than what is handed on. -/
theorem workOff_seqnum_le : ∀ (q : List (QueuedMsg Row τ)) (r L : ℕ), r + 2 ≤ L →
    (workOff r q).seqnum + 2 ≤ L + (workOff r q).handed.length
  | [], r, L, h => by simpa using h
  | m :: q, r, L, h => by
    rw [workOff]
    split_ifs
    · simp only [List.length_singleton]
      omega
    · exact workOff_seqnum_le q r L h
    · have := workOff_seqnum_le q (r + 1) (L + 1) (by omega)
      simp only [List.length_cons]
      omega
    · simpa using h

/-- A queue with a `0` in it starts the table afresh. -/
theorem workOff_zero_mem : ∀ {q : List (QueuedMsg Row τ)} (r : ℕ),
    q.Pairwise (·.seqnum ≤ ·.seqnum) → (∃ m ∈ q, m.seqnum = 0) →
      (workOff r q).seqnum = 0 ∧ (workOff r q).handed ≠ []
  | [], _, _, h => by simp at h
  | m :: q, r, hs, h => by
    have hm : m.seqnum = 0 := by
      obtain ⟨m', hm', h0⟩ := h
      rcases List.mem_cons.1 hm' with rfl | hm'
      · exact h0
      · have := (List.pairwise_cons.1 hs).1 m' hm'
        omega
    simp [workOff_restart q hm]

end WorkOff

namespace DataService

section Worked

variable (s : DataService P T rank) (c : P × T)

/-- A queue is in the order of the sequence numbers. -/
theorem queued_pairwise : (s.queued c).Pairwise (·.seqnum ≤ ·.seqnum) := by
  unfold queued
  rcases hq : s.msgQueues c with _ | q
  · exact .nil
  · refine q.sorted.imp fun {m m'} h => ?_
    rcases Prod.Lex.toLex_le_toLex.1 h with h | h
    · exact h.le
    · exact h.1.le

theorem worked_inOrder (r : ℕ) (h0 : ∀ m ∈ s.queued c, m.seqnum ≠ 0) :
    InOrder r (s.queued c) (s.worked c r) := by
  have hs := s.queued_pairwise c
  unfold worked
  rcases hq : s.msgQueues c with _ | q
  · simpa [queued, hq] using InOrder.nil r none rfl
  · rw [queued_eq s c hq] at hs h0 ⊢
    exact workOff_inOrder r hs h0

theorem worked_seqnum_le (r L : ℕ) (h : r + 2 ≤ L) :
    (s.worked c r).seqnum + 2 ≤ L + (s.worked c r).handed.length := by
  unfold worked
  split
  · simpa using h
  · exact workOff_seqnum_le _ r L h

theorem worked_zero_mem (r : ℕ) (h : ∃ m ∈ s.queued c, m.seqnum = 0) :
    (s.worked c r).seqnum = 0 ∧ (s.worked c r).handed ≠ [] := by
  have hs := s.queued_pairwise c
  unfold worked
  rcases hq : s.msgQueues c with _ | q
  · simp [queued, hq] at h
  · rw [queued_eq s c hq] at hs h
    exact workOff_zero_mem r hs h

end Worked

/-! ## Steps on a channel and elsewhere -/

section Steps

variable {s s₀ s₁ s₂ s' : DataService P T rank} {c : P × T} {log log' : List (Received P T Row)}

theorem HandedOn.refl (s : DataService P T rank) (c : P × T) : s.HandedOn s c [] :=
  ⟨[], by simp, rfl⟩

theorem HandedOn.trans (h : s₀.HandedOn s₁ c log) (h' : s₁.HandedOn s₂ c log') :
    s₀.HandedOn s₂ c (log ++ log') := by
  obtain ⟨new, h, rfl⟩ := h
  obtain ⟨new', h', rfl⟩ := h'
  exact ⟨new ++ new', by rw [h', h, List.append_assoc], List.filter_append ..⟩

theorem HandedOn.unique (h : s₀.HandedOn s₁ c log) (h' : s₀.HandedOn s₁ c log') : log = log' := by
  obtain ⟨new, h, rfl⟩ := h
  obtain ⟨new', h', rfl⟩ := h'
  rw [h, List.append_cancel_left_eq] at h'
  rw [h']

theorem Leaves.handedOn {r rest} {handed : List (Received P T Row)}
    (h : Leaves s c r rest handed s') (hc : ∀ x ∈ handed, (x.publisher, x.table) = c) :
    s.HandedOn s' c handed :=
  ⟨handed, h.history, List.filter_eq_self.2 fun x hx => by simpa using hc x hx⟩

theorem Leaves.queued {r rest} {handed : List (Received P T Row)}
    (h : Leaves s c r rest handed s') : s'.queued c = rest.getD [] := by
  unfold DataService.queued
  rw [h.rest]

theorem Leaves.receiver {r rest} {handed : List (Received P T Row)}
    (h : Leaves s c r rest handed s') : s'.receiverSeqnums c = r := by
  rw [h.seqnum, Function.update_self]

/-- An operation on another channel leaves this one alone. -/
theorem subscriberStep_other (s : DataService P T rank) {o : SubscriberOp P T Row τ}
    (h : o.channel ≠ c) :
    (s.subscriberStep o).receiverSeqnums c = s.receiverSeqnums c
      ∧ (s.subscriberStep o).queued c = s.queued c ∧ s.HandedOn (s.subscriberStep o) c [] := by
  have receive : ∀ m : Message P T Row τ, (m.publisher, m.table) ≠ c →
      (s.receive m).receiverSeqnums c = s.receiverSeqnums c
        ∧ (s.receive m).queued c = s.queued c ∧ s.HandedOn (s.receive m) c [] := by
    intro m hm
    obtain ⟨r, rest, handed, hl, hx⟩ := s.receive_leaves m
    refine ⟨?_, ?_, handed, hl.history, List.filter_eq_nil_iff.2 fun x hx' => ?_⟩
    · rw [hl.seqnum, Function.update_of_ne hm.symm]
    · unfold DataService.queued
      rw [hl.queues c hm.symm]
    · rw [hx x hx']
      simpa using hm
  match o with
  | .subscribe c' (some (n, data)) now => exact receive _ h
  | .subscribe c' none now => exact ⟨rfl, rfl, .refl s c⟩
  | .unsubscribe c' =>
    have h : c ≠ c' := Ne.symm h
    refine ⟨?_, ?_, [], by simp [subscriberStep, unsubscribe, clearReceiverSeqnum], rfl⟩ <;>
      simp [subscriberStep, unsubscribe, clearReceiverSeqnum, queued, h]
  | .arrive m => exact receive m h

/-- The messages a processed queue hands on are of its channel. -/
theorem Processed.handedOn {r : ℕ} {handed : List (Received P T Row)}
    (h : Processed s c r handed s') (hc : ∀ x ∈ handed, (x.publisher, x.table) = c) :
    s.HandedOn s' c (handed ++ (s.worked c r).handed.map (QueuedMsg.received c)) :=
  h.leaves.handedOn fun x hx => by
    rcases List.mem_append.1 hx with hx | hx
    · exact hc x hx
    · obtain ⟨m, -, rfl⟩ := List.mem_map.1 hx
      rfl

end Steps

/-! ## The states of a subscription -/

section States

variable (H : History Row) (c : P × T)

/-- The queue holds deltas that have arrived. -/
structure HoldsDeltas (A : ℕ → Prop) (q : List (QueuedMsg Row τ)) : Prop where
  genuine : ∀ m ∈ q, m.data = H.delta m.seqnum ∧ m.isSnapshot = false
  arrived : ∀ m ∈ q, A m.seqnum

/-- Before the snapshot every delta waits in the queue. -/
structure Waits (A : ℕ → Prop) (s₀ s : DataService P T rank) : Prop where
  receiver : s.receiverSeqnums c = none
  handedOn : s₀.HandedOn s c []
  queue : HoldsDeltas H A (s.queued c)
  cover : ∀ n, A n → ∃ m ∈ s.queued c, m.seqnum = n

/-- The snapshot and the deltas up to number `k`. -/
def inOrder (n₀ k : ℕ) : List (Received P T Row) :=
  H.snapshotReceived c n₀ :: (List.range' (n₀ + 1) (k - n₀)).map (H.deltaReceived c)

/-- After the snapshot the deltas are handed on up to number `k`, after which there is a gap. -/
structure Follows (n₀ : ℕ) (A : ℕ → Prop) (s₀ : DataService P T rank) (k : ℕ)
    (s : DataService P T rank) : Prop where
  le : n₀ ≤ k
  between : ∀ n, n₀ < n → n ≤ k → A n
  receiver : s.receiverSeqnums c = some k
  handedOn : s₀.HandedOn s c (inOrder H c n₀ k)
  queue : HoldsDeltas H A (s.queued c)
  gap : ∀ m ∈ s.queued c, k + 1 < m.seqnum
  cover : ∀ n, A n → n ≤ k ∨ ∃ m ∈ s.queued c, m.seqnum = n

/-- After a fresh start more has been handed on than the snapshot and the deltas up to the number
reached. -/
structure Restarted (s₀ s : DataService P T rank) : Prop where
  ex : ∃ k log, s.receiverSeqnums c = some k ∧ s₀.HandedOn s c log ∧ k + 2 ≤ log.length

variable {H c} {n₀ k n : ℕ} {t : τ} {A : ℕ → Prop} {s₀ s s' : DataService P T rank}

theorem HoldsDeltas.received {q : List (QueuedMsg Row τ)} (h : HoldsDeltas H A q)
    {l : List (QueuedMsg Row τ)} (hl : ∀ m ∈ l, m ∈ q) :
    l.map (QueuedMsg.received c) = (l.map (·.seqnum)).map (H.deltaReceived c) := by
  rw [List.map_map]
  refine List.map_congr_left fun m hm => ?_
  obtain ⟨hd, hb⟩ := h.genuine m (hl m hm)
  simp [QueuedMsg.received, History.deltaReceived, hd, hb]

theorem inOrder_append (h : n₀ ≤ k) {k' : ℕ} (h' : k ≤ k') : inOrder H c n₀ k
    ++ (List.range' (k + 1) (k' - k)).map (H.deltaReceived c) = inOrder H c n₀ k' := by
  have : List.range' (n₀ + 1) (k' - n₀)
      = List.range' (n₀ + 1) (k - n₀) ++ List.range' (k + 1) (k' - k) := by
    rw [show k' - n₀ = (k - n₀) + (k' - k) by omega, ← List.range'_append,
      show n₀ + 1 + 1 * (k - n₀) = k + 1 by omega]
  rw [inOrder, inOrder, this, List.map_append, List.cons_append]

/-- Once the queue is processed, what is handed on goes on to the next gap. -/
theorem Processed.follows {log handed : List (Received P T Row)}
    (hp : Processed s c k handed s') (hl : s₀.HandedOn s c log)
    (hx : ∀ x ∈ handed, (x.publisher, x.table) = c) (hlog : log ++ handed = inOrder H c n₀ k)
    (hle : n₀ ≤ k) (hb : ∀ n, n₀ < n → n ≤ k → A n) (hq : HoldsDeltas H A (s.queued c))
    (hc : ∀ n, A n → n ≤ k ∨ ∃ m ∈ s.queued c, m.seqnum = n) (h0 : ¬ A 0) :
    ∃ k', Follows H c n₀ A s₀ k' s' := by
  have hw := s.worked_inOrder c k fun m hm h => h0 (h ▸ hq.arrived m hm)
  have hq' := hp.leaves.queued
  refine ⟨(s.worked c k).seqnum, hle.trans hw.le, fun n hn hn' => ?_, hp.leaves.receiver, ?_,
    ⟨?_, ?_⟩, ?_, fun n hn => ?_⟩
  · by_cases hnk : n ≤ k
    · exact hb n hn hnk
    · have : n ∈ (s.worked c k).handed.map (·.seqnum) := by
        rw [hw.handed, List.mem_range'_1]
        omega
      obtain ⟨m, hm, rfl⟩ := List.mem_map.1 this
      exact hq.arrived m (hw.handed_mem m hm)
  · have := hl.trans (hp.handedOn hx)
    rwa [← List.append_assoc, hlog, hq.received hw.handed_mem, hw.handed,
      inOrder_append hle hw.le] at this
  · exact fun m hm => hq.genuine m (hw.rest_mem m (hq' ▸ hm)).1
  · exact fun m hm => hq.arrived m (hw.rest_mem m (hq' ▸ hm)).1
  · exact fun m hm => (hw.rest_mem m (hq' ▸ hm)).2
  · rcases hc n hn with hn | ⟨m, hm, rfl⟩
    · exact .inl (hn.trans hw.le)
    · exact (hw.cover m hm).imp_right fun h => ⟨m, hq' ▸ h, rfl⟩

/-- A queued delta joins the queue. -/
theorem HoldsDeltas.add (h : HoldsDeltas H A (s.queued c)) :
    HoldsDeltas H (fun i => A i ∨ i = n)
      ((s.addToMsgQueue c ⟨n, false, H.delta n, t⟩).queued c) := by
  have hq := (leaves_add s c ⟨n, false, H.delta n, t⟩).queued
  rw [hq]
  simp only [Option.getD_some]
  refine ⟨fun m hm => ?_, fun m hm => ?_⟩ <;>
    rcases (List.mem_orderedInsert _).1 hm with rfl | hm
  · exact ⟨rfl, rfl⟩
  · exact h.genuine m hm
  · exact .inr rfl
  · exact .inl (h.arrived m hm)

theorem mem_addToMsgQueue {m m' : QueuedMsg Row τ} :
    m' ∈ (s.addToMsgQueue c m).queued c ↔ m' = m ∨ m' ∈ s.queued c := by
  rw [(leaves_add s c m).queued]
  exact List.mem_orderedInsert _

theorem addToMsgQueue_handedOn (m : QueuedMsg Row τ) : s.HandedOn (s.addToMsgQueue c m) c [] :=
  (leaves_add s c m).handedOn (by simp)

theorem HoldsDeltas.mono {A' : ℕ → Prop} {q : List (QueuedMsg Row τ)} (h : HoldsDeltas H A q)
    (hA : ∀ n, A n → A' n) : HoldsDeltas H A' q :=
  ⟨h.genuine, fun m hm => hA _ (h.arrived m hm)⟩

/-! ## Steps -/

/-- Before the snapshot a delta is queued. -/
theorem Waits.delta (h : Waits H c A s₀ s) (n : ℕ) (t : τ) :
    Waits H c (fun i => A i ∨ i = n) s₀ (s.subscriberStep (H.deltaOp c n t)) := by
  have hs : s.subscriberStep (H.deltaOp c n t) = s.addToMsgQueue c ⟨n, false, H.delta n, t⟩ :=
    receive_queue _ t (.inl ⟨h.receiver, rfl⟩)
  rw [hs]
  refine ⟨by simpa using h.receiver, h.handedOn.trans (addToMsgQueue_handedOn _), h.queue.add,
    fun i hi => ?_⟩
  rcases hi with hi | rfl
  · obtain ⟨m, hm, rfl⟩ := h.cover i hi
    exact ⟨m, mem_addToMsgQueue.2 (.inr hm), rfl⟩
  · exact ⟨_, mem_addToMsgQueue.2 (.inl rfl), rfl⟩

theorem Waits.processed (h : Waits H c A s₀ s) (n₀ : ℕ) (t : τ) :
    Processed s c n₀ [H.snapshotReceived c n₀] (s.subscriberStep (H.snapshotOp c n₀ t)) :=
  receive_handOn _ t (.inl ⟨h.receiver, rfl⟩)

/-- The snapshot is followed by what has arrived. -/
theorem Waits.snapshot (h : Waits H c A s₀ s) (h0 : ¬ A 0) (n₀ : ℕ) (t : τ) :
    ∃ k, Follows H c n₀ A s₀ k (s.subscriberStep (H.snapshotOp c n₀ t)) :=
  (h.processed n₀ t).follows h.handedOn (by simp [History.snapshotReceived]) (by simp [inOrder])
    le_rfl (fun n hn hn' => absurd hn (by omega)) h.queue (fun n hn => .inr (h.cover n hn)) h0

/-- The snapshot comes to a fresh start if a `0` is waiting. -/
theorem Waits.restart (h : Waits H c A s₀ s) (h0 : A 0) (n₀ : ℕ) (t : τ) :
    Restarted c s₀ (s.subscriberStep (H.snapshotOp c n₀ t)) := by
  have hp := h.processed n₀ t
  obtain ⟨hw, hne⟩ := s.worked_zero_mem c n₀ (h.cover 0 h0)
  refine ⟨0, _, hw ▸ hp.leaves.receiver,
    h.handedOn.trans (hp.handedOn (by simp [History.snapshotReceived])), ?_⟩
  have := List.length_pos_iff.2 hne
  simp only [List.nil_append, List.length_append, List.length_singleton, List.length_map]
  omega

/-- After the snapshot a delta with another number than `0` is queued, or handed on with those that
it was holding up, or dropped. -/
theorem Follows.delta (h : Follows H c n₀ A s₀ k s) (h0 : ¬ A 0) (hn : n ≠ 0) (t : τ) :
    ∃ k', Follows H c n₀ (fun i => A i ∨ i = n) s₀ k' (s.subscriberStep (H.deltaOp c n t)) := by
  have h0' : ¬ (A 0 ∨ 0 = n) := not_or.2 ⟨h0, Ne.symm hn⟩
  have hq : HoldsDeltas H (fun i => A i ∨ i = n) (s.queued c) := h.queue.mono fun _ => .inl
  rcases lt_trichotomy n (k + 1) with hk | rfl | hk
  · have hp : Processed s c k [] (s.subscriberStep (H.deltaOp c n t)) :=
      receive_stale _ t h.receiver hn (by omega)
    refine hp.follows h.handedOn (by simp) (by simp) h.le
      (fun i hi hi' => .inl (h.between i hi hi')) hq (fun i hi => ?_) h0'
    rcases hi with hi | rfl
    · exact h.cover i hi
    · exact .inl (by omega)
  · have hp : Processed s c (k + 1) [H.deltaReceived c (k + 1)]
        (s.subscriberStep (H.deltaOp c (k + 1) t)) :=
      receive_handOn _ t (.inr ⟨k, h.receiver, rfl⟩)
    refine hp.follows h.handedOn (by simp [History.deltaReceived]) ?_ (h.le.trans (Nat.le_succ k))
      (fun i hi hi' => ?_) hq (fun i hi => ?_) h0'
    · simpa using inOrder_append (H := H) (c := c) h.le (Nat.le_succ k)
    · rcases Nat.le_succ_iff.1 hi' with hi' | rfl
      · exact .inl (h.between i hi hi')
      · exact .inr rfl
    · rcases hi with hi | rfl
      · exact (h.cover i hi).imp_left fun h => h.trans (Nat.le_succ k)
      · exact .inl le_rfl
  · have hs : s.subscriberStep (H.deltaOp c n t) = s.addToMsgQueue c ⟨n, false, H.delta n, t⟩ :=
      receive_queue _ t (.inr ⟨k, h.receiver, hk⟩)
    rw [hs]
    refine ⟨k, h.le, fun i hi hi' => .inl (h.between i hi hi'), by simpa using h.receiver, ?_,
      h.queue.add, fun m hm => ?_, fun i hi => ?_⟩
    · simpa using h.handedOn.trans (addToMsgQueue_handedOn _)
    · rcases mem_addToMsgQueue.1 hm with rfl | hm
      · exact hk
      · exact h.gap m hm
    · rcases hi with hi | rfl
      · exact (h.cover i hi).imp_right fun ⟨m, hm, he⟩ => ⟨m, mem_addToMsgQueue.2 (.inr hm), he⟩
      · exact .inr ⟨_, mem_addToMsgQueue.2 (.inl rfl), rfl⟩

/-- After the snapshot a `0` is taken for a fresh start. -/
theorem Follows.restart (h : Follows H c n₀ A s₀ k s) (t : τ) :
    Restarted c s₀ (s.subscriberStep (H.deltaOp c 0 t)) := by
  have hs := receive_restart (H.delta 0) t (b := false) h.receiver
  have hl := leaves_restart s c 0 (H.delta 0) false
  rw [← hs] at hl
  refine ⟨0, _, hl.receiver, h.handedOn.trans (hl.handedOn (by simp)), ?_⟩
  simp [inOrder]

/-- However it goes on, it stays so. -/
theorem Restarted.delta (h : Restarted c s₀ s) (n : ℕ) (t : τ) :
    Restarted c s₀ (s.subscriberStep (H.deltaOp c n t)) := by
  obtain ⟨k, log, hk, hlog, hlen⟩ := h
  have processed : ∀ {r : ℕ} {handed : List (Received P T Row)},
      Processed s c r handed (s.subscriberStep (H.deltaOp c n t)) →
      (∀ x ∈ handed, (x.publisher, x.table) = c) → r + 2 ≤ log.length + handed.length →
      Restarted c s₀ (s.subscriberStep (H.deltaOp c n t)) := by
    intro r handed hp hx hr
    refine ⟨_, _, hp.leaves.receiver, hlog.trans (hp.handedOn hx), ?_⟩
    have := s.worked_seqnum_le c r _ hr
    simp only [List.length_append, List.length_map]
    omega
  rcases Nat.eq_zero_or_pos n with rfl | hn
  · have hl := leaves_restart s c 0 (H.delta 0) false
    rw [← receive_restart (H.delta 0) t (b := false) hk] at hl
    refine ⟨0, _, hl.receiver, hlog.trans (hl.handedOn (by simp)), ?_⟩
    simp only [List.length_append, List.length_singleton]
    omega
  rcases lt_trichotomy n (k + 1) with hr | rfl | hr
  · exact processed (receive_stale _ t hk (by omega) (by omega)) (by simp) (by simpa using hlen)
  · refine processed (receive_handOn _ t (.inr ⟨k, hk, rfl⟩)) (by simp) ?_
    simp only [List.length_singleton]
    omega
  · have hs : s.subscriberStep (H.deltaOp c n t) = s.addToMsgQueue c ⟨n, false, H.delta n, t⟩ :=
      receive_queue _ t (.inr ⟨k, hk, hr⟩)
    rw [hs]
    exact ⟨k, _, by simpa using hk, hlog.trans (addToMsgQueue_handedOn _), by simpa using hlen⟩

theorem Waits.other (h : Waits H c A s₀ s) {o : SubscriberOp P T Row τ} (ho : o.channel ≠ c) :
    Waits H c A s₀ (s.subscriberStep o) := by
  obtain ⟨hr, hq, hl⟩ := s.subscriberStep_other ho
  exact ⟨hr.trans h.receiver, h.handedOn.trans hl, hq.symm ▸ h.queue, hq.symm ▸ h.cover⟩

theorem Follows.other (h : Follows H c n₀ A s₀ k s) {o : SubscriberOp P T Row τ}
    (ho : o.channel ≠ c) : Follows H c n₀ A s₀ k (s.subscriberStep o) := by
  obtain ⟨hr, hq, hl⟩ := s.subscriberStep_other ho
  exact ⟨h.le, h.between, hr.trans h.receiver, by simpa using h.handedOn.trans hl,
    hq.symm ▸ h.queue, hq.symm ▸ h.gap, hq.symm ▸ h.cover⟩

theorem Restarted.other (h : Restarted c s₀ s) {o : SubscriberOp P T Row τ} (ho : o.channel ≠ c) :
    Restarted c s₀ (s.subscriberStep o) := by
  obtain ⟨hr, -, hl⟩ := s.subscriberStep_other ho
  obtain ⟨k, log, hk, hlog, hlen⟩ := h
  exact ⟨k, _, hr.trans hk, hlog.trans hl, by simpa using hlen⟩

/-! ## Runs -/

theorem arrived_cons_delta {n i : ℕ} {t : τ} {ops : List (SubscriberOp P T Row τ)} :
    H.Arrived c (H.deltaOp c n t :: ops) i ↔ i = n ∨ H.Arrived c ops i := by
  simp only [History.Arrived, List.mem_cons, exists_or]
  refine or_congr_left ⟨fun ⟨t', h⟩ => ?_, fun h => ⟨t, h ▸ rfl⟩⟩
  simp only [History.deltaOp, SubscriberOp.arrive.injEq, Message.mk.injEq] at h
  exact Option.some.inj h.2.2.2.1

theorem arrived_cons_other {i : ℕ} {o : SubscriberOp P T Row τ} (ho : o.channel ≠ c)
    {ops : List (SubscriberOp P T Row τ)} : H.Arrived c (o :: ops) i ↔ H.Arrived c ops i := by
  simp only [History.Arrived, List.mem_cons, exists_or]
  exact or_iff_right fun ⟨t, h⟩ => ho (h ▸ rfl)

theorem arrived_append {i : ℕ} {ops ops' : List (SubscriberOp P T Row τ)} :
    H.Arrived c (ops ++ ops') i ↔ H.Arrived c ops i ∨ H.Arrived c ops' i := by
  simp only [History.Arrived, List.mem_append, exists_or]

theorem Waits.runs : ∀ {ops : List (SubscriberOp P T Row τ)} {A : ℕ → Prop}
    {s : DataService P T rank}, Waits H c A s₀ s → (∀ o ∈ ops, H.OnlyDeltas c o) →
      Waits H c (fun i => A i ∨ H.Arrived c ops i) s₀ (run subscriberStep s ops)
  | [], A, s, h, _ => by simpa [History.Arrived] using h
  | o :: ops, A, s, h, hd => by
    have hd' : ∀ o ∈ ops, H.OnlyDeltas c o := fun o' ho => hd o' (List.mem_cons_of_mem _ ho)
    by_cases ho : o.channel = c
    · obtain ⟨n, t, rfl⟩ := hd o (List.mem_cons_self ..) ho
      simpa only [run_cons, arrived_cons_delta, or_assoc] using (h.delta n t).runs hd'
    · simpa only [run_cons, arrived_cons_other ho] using (h.other ho).runs hd'

theorem Follows.runs : ∀ {ops : List (SubscriberOp P T Row τ)} {A : ℕ → Prop} {k : ℕ}
    {s : DataService P T rank}, Follows H c n₀ A s₀ k s → (∀ o ∈ ops, H.OnlyDeltas c o) →
      ¬ A 0 → ¬ H.Arrived c ops 0 →
      ∃ k', Follows H c n₀ (fun i => A i ∨ H.Arrived c ops i) s₀ k' (run subscriberStep s ops)
  | [], A, k, s, h, _, _, _ => ⟨k, by simpa [History.Arrived] using h⟩
  | o :: ops, A, k, s, h, hd, hA, h0 => by
    have hd' : ∀ o ∈ ops, H.OnlyDeltas c o := fun o' ho => hd o' (List.mem_cons_of_mem _ ho)
    by_cases ho : o.channel = c
    · obtain ⟨n, t, rfl⟩ := hd o (List.mem_cons_self ..) ho
      rw [arrived_cons_delta, not_or] at h0
      obtain ⟨k', h⟩ := h.delta hA (Ne.symm h0.1) t
      have hA' : ¬ (A 0 ∨ 0 = n) := not_or.2 ⟨hA, h0.1⟩
      simpa only [run_cons, arrived_cons_delta, or_assoc] using h.runs hd' hA' h0.2
    · rw [arrived_cons_other ho] at h0
      simpa only [run_cons, arrived_cons_other ho] using (h.other ho).runs hd' hA h0

theorem Restarted.runs : ∀ {ops : List (SubscriberOp P T Row τ)} {s : DataService P T rank},
    Restarted c s₀ s → (∀ o ∈ ops, H.OnlyDeltas c o) →
      Restarted c s₀ (run subscriberStep s ops)
  | [], _, h, _ => h
  | o :: ops, s, h, hd => by
    have hd' : ∀ o ∈ ops, H.OnlyDeltas c o := fun o' ho => hd o' (List.mem_cons_of_mem _ ho)
    by_cases ho : o.channel = c
    · obtain ⟨n, t, rfl⟩ := hd o (List.mem_cons_self ..) ho
      exact (h.delta n t).runs hd'
    · exact (h.other ho).runs hd'

/-- After the snapshot, a `0` at any point comes to a fresh start. -/
theorem Follows.run_restart : ∀ {ops : List (SubscriberOp P T Row τ)} {A : ℕ → Prop} {k : ℕ}
    {s : DataService P T rank}, Follows H c n₀ A s₀ k s → (∀ o ∈ ops, H.OnlyDeltas c o) →
      ¬ A 0 → H.Arrived c ops 0 → Restarted c s₀ (run subscriberStep s ops)
  | [], _, _, _, _, _, _, h0 => by simp [History.Arrived] at h0
  | o :: ops, A, k, s, h, hd, hA, h0 => by
    have hd' : ∀ o ∈ ops, H.OnlyDeltas c o := fun o' ho => hd o' (List.mem_cons_of_mem _ ho)
    by_cases ho : o.channel = c
    · obtain ⟨n, t, rfl⟩ := hd o (List.mem_cons_self ..) ho
      rcases Nat.eq_zero_or_pos n with rfl | hn
      · exact (h.restart t).runs hd'
      · rw [arrived_cons_delta, or_iff_right (by omega)] at h0
        obtain ⟨k', h⟩ := h.delta hA hn.ne' t
        exact h.run_restart hd' (not_or.2 ⟨hA, hn.ne⟩) h0
    · rw [arrived_cons_other ho] at h0
      exact (h.other ho).run_restart hd' hA h0

end States

/-! ## Delivery -/

section Delivery

variable (H : History Row) (c : P × T) (n₀ : ℕ)

/-- The copy after the deltas up to `k` is the table's content under number `k`. -/
theorem copyOf_inOrder {k : ℕ} (h : n₀ ≤ k) : copyOf (inOrder H c n₀ k) = H.content k := by
  induction k, h using Nat.le_induction with
  | base => simp [inOrder, copyOf, History.snapshotReceived, applyPayload]
  | succ k hk ih =>
    rw [← inOrder_append hk (Nat.le_succ k), copyOf, List.foldl_append]
    change List.foldl _ (copyOf (inOrder H c n₀ k)) _ = _
    rw [ih, H.content_succ]
    simp [History.deltaReceived, applyPayload, History.delta]

variable {H c n₀} {A : ℕ → Prop} {s₀ s : DataService P T rank}

theorem Follows.deliversInOrder {k : ℕ} (h : Follows H c n₀ A s₀ k s) :
    DeliversInOrder H c n₀ A s₀ s := by
  refine ⟨k, _, h.le, h.between, fun hk => ?_, h.handedOn, rfl, h.receiver,
    copyOf_inOrder H c n₀ h.le⟩
  rcases h.cover _ hk with hk | ⟨m, hm, hk⟩
  · omega
  · have := h.gap m hm
    omega

theorem Restarted.not_deliversInOrder (h : Restarted c s₀ s) :
    ¬ DeliversInOrder H c n₀ A s₀ s := by
  rintro ⟨k, log, hle, -, -, hl, hlog, hk, -⟩
  obtain ⟨k', log', hk', hl', hlen⟩ := h
  obtain rfl := hl.unique hl'
  obtain rfl : k = k' := Option.some.inj (hk.symm.trans hk')
  rw [hlog] at hlen
  simp only [List.length_cons, List.length_map, List.length_range'] at hlen
  omega

/-- A channel on which nothing has been received gets the snapshot, and before and after it deltas
in any order and with any repetition: they are delivered in order exactly if the one numbered `0`
is not among them. -/
theorem deliversInOrder_iff (H : History Row) (c : P × T) (n₀ : ℕ) (now : τ)
    (pre post : List (SubscriberOp P T Row τ)) (s₀ : DataService P T rank)
    (hr : s₀.receiverSeqnums c = none) (hq : s₀.msgQueues c = none)
    (hpre : ∀ o ∈ pre, H.OnlyDeltas c o) (hpost : ∀ o ∈ post, H.OnlyDeltas c o) :
    DeliversInOrder H c n₀ (H.Arrived c (pre ++ post)) s₀
        (run subscriberStep s₀ (pre ++ H.snapshotOp c n₀ now :: post))
      ↔ ¬ H.Arrived c (pre ++ post) 0 := by
  have hq₀ : s₀.queued c = [] := by simp [queued, hq]
  have hw : Waits H c (fun _ => False) s₀ s₀ :=
    ⟨hr, .refl s₀ c, ⟨by simp [hq₀], by simp [hq₀]⟩, fun _ h => h.elim⟩
  replace hw := hw.runs hpre
  simp only [false_or] at hw
  rw [run_append, run_cons, arrived_append]
  by_cases h0 : H.Arrived c pre 0
  · have h := (hw.restart h0 n₀ now).runs hpost
    exact iff_of_false h.not_deliversInOrder (not_not.2 (.inl h0))
  obtain ⟨k, h⟩ := hw.snapshot h0 n₀ now
  by_cases h0' : H.Arrived c post 0
  · exact iff_of_false (h.run_restart hpost h0 h0').not_deliversInOrder (not_not.2 (.inr h0'))
  · obtain ⟨k', h⟩ := h.runs hpost h0 h0'
    have hA : H.Arrived c (pre ++ post) = fun i => H.Arrived c pre i ∨ H.Arrived c post i :=
      funext fun i => propext arrived_append
    exact iff_of_true (hA ▸ h.deliversInOrder) (not_or.2 ⟨h0, h0'⟩)

/-- A table into which row `n` is put under number `n`. -/
def rowsUpTo : History ℕ where
  toAdd n := {n}
  toDel _ := ∅
  content n := Finset.range (n + 1)
  content_succ n := by
    ext i
    simp only [Finset.mem_range, Finset.mem_union, Finset.mem_sdiff, Finset.mem_singleton,
      Finset.notMem_empty, not_false_eq_true, and_true]
    omega

/-- Behind the snapshot under number `1`, the delta under number `3` waits for that under `2`. -/
theorem deliversInOrder_late :
    DeliversInOrder rowsUpTo (0, 0) 1 (rowsUpTo.Arrived (τ := ℕ) (0, 0)
      ([] ++ [rowsUpTo.deltaOp (0, 0) 3 1, rowsUpTo.deltaOp (0, 0) 1 2]))
      (init : DataService ℕ ℕ fun _ t => t)
      (run subscriberStep init ([] ++ rowsUpTo.snapshotOp (0, 0) 1 0
        :: [rowsUpTo.deltaOp (0, 0) 3 1, rowsUpTo.deltaOp (0, 0) 1 2])) := by
  have hd : ∀ o ∈ [rowsUpTo.deltaOp (0, 0) 3 1, rowsUpTo.deltaOp (τ := ℕ) (0, 0) 1 2],
      rowsUpTo.OnlyDeltas (0, 0) o := by
    intro o ho _
    simp only [List.mem_cons, List.not_mem_nil, or_false] at ho
    rcases ho with rfl | rfl
    · exact ⟨3, 1, rfl⟩
    · exact ⟨1, 2, rfl⟩
  refine (deliversInOrder_iff rowsUpTo (0, 0) 1 0 [] _ init rfl rfl (by simp) hd).2 ?_
  simp [History.Arrived, History.deltaOp]

/-- The delta under number `0`, still in flight when the snapshot under number `1` is sent, is
handed on after it, and the number reached is `0`. -/
theorem not_deliversInOrder_stale :
    ¬ DeliversInOrder rowsUpTo (0, 0) 1 (rowsUpTo.Arrived (τ := ℕ) (0, 0)
      [rowsUpTo.deltaOp (0, 0) 0 1])
      (init : DataService ℕ ℕ fun _ t => t)
      (run subscriberStep init [rowsUpTo.snapshotOp (0, 0) 1 0,
        rowsUpTo.deltaOp (0, 0) 0 1]) := by
  rintro ⟨k, log, hle, -, -, -, -, hk, -⟩
  have h0 : (run subscriberStep (init : DataService ℕ ℕ fun _ t => t)
      [rowsUpTo.snapshotOp (0, 0) 1 0, rowsUpTo.deltaOp (0, 0) 0 1]).receiverSeqnums (0, 0)
      = some 0 := by decide
  rw [h0] at hk
  have := Option.some.inj hk
  omega

end Delivery

end DataService

end Congress
