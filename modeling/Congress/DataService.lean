import Mathlib.Data.Finset.Basic
import Mathlib.Data.Prod.Lex
import Mathlib.Data.Bool.Basic
import Congress.Lib.PriorityQueue

/-!
# Sequenced publication

The part of a `DataService` that publishes and receives tables: `publish` and
`get_last_published_data_with_seqnum` on the sending side, `receive_data_sequenced` with its
queues of early messages on the receiving side. A nested dictionary
`{publisher -> {table -> v}}` is a map on pairs of a publisher and a table.
-/

namespace Congress

open Lib

/-- What is published: a whole table, or the rows to add to it and those to delete from it. -/
inductive Payload (Row : Type*)
  | rows (data : Finset Row)
  | diff (toAdd toDel : Finset Row)
  deriving DecidableEq

/-- An entry of a message queue. -/
structure QueuedMsg (Row τ : Type*) where
  seqnum : ℕ
  isSnapshot : Bool
  data : Payload Row
  receiptTime : τ
  deriving DecidableEq

/-- How the queue orders its entries, which are compared as tuples: `rank` stands for the
comparison of their last two components. -/
def QueuedMsg.key {Row τ κ : Type*} (rank : Payload Row → τ → κ) (m : QueuedMsg Row τ) :
    ℕ ×ₗ Bool ×ₗ κ :=
  toLex (m.seqnum, toLex (m.isSnapshot, rank m.data m.receiptTime))

/-- The arguments of one call of `receive_data`. -/
structure Received (P T Row : Type*) where
  publisher : P
  table : T
  data : Payload Row
  isSnapshot : Bool
  deriving DecidableEq

/-- A message to `receive_data_sequenced`, with the time at which it is received. -/
structure Message (P T Row τ : Type*) where
  publisher : P
  table : T
  data : Payload Row
  seqnum : Option ℕ
  isSnapshot : Bool
  receiptTime : τ

/-- What a subscriber does: subscribe, with the publisher's answer if it gives one, unsubscribe, or
receive a message. `check_resub_all` unsubscribes and subscribes. -/
inductive SubscriberOp (P T Row τ : Type*)
  | subscribe (c : P × T) (answer : Option (ℕ × Finset Row)) (now : τ)
  | unsubscribe (c : P × T)
  | arrive (m : Message P T Row τ)

/-- The publisher and the table an operation is about. -/
def SubscriberOp.channel {P T Row τ : Type*} : SubscriberOp P T Row τ → P × T
  | .subscribe c _ _ => c
  | .unsubscribe c => c
  | .arrive m => (m.publisher, m.table)

/-- A message the publisher sends for one table. -/
structure Publication (Row : Type*) where
  seqnum : ℕ
  isSnapshot : Bool
  data : Payload Row
  deriving DecidableEq

variable {P T Row τ κ : Type*} [DecidableEq P] [DecidableEq T] [DecidableEq Row] [LinearOrder κ]

/-- The state of a `DataService`: `receiveDataHistory` is the list of its calls of
`receive_data`. -/
structure DataService (P T : Type*) {Row τ κ : Type*} [LinearOrder κ]
    (rank : Payload Row → τ → κ) where
  msgQueues : P × T → Option (PriorityQueue (QueuedMsg.key rank))
  oldestQueueTimes : P × T → Option (Option τ)
  receiverSeqnums : P × T → Option ℕ
  senderSeqnums : T → Option ℕ
  lastPublishedData : T → Option (Finset Row)
  receiveDataHistory : List (Received P T Row)

variable {rank : Payload Row → τ → κ}

namespace DataService

/-- A service that has neither sent nor received anything. -/
def init : DataService P T rank := ⟨fun _ => none, fun _ => none, fun _ => none, fun _ => none,
  fun _ => none, []⟩

/-! ## Sending -/

/-- What `get_differential_and_set_last_published_data` returns. -/
def differential (s : DataService P T rank) (table : T) (data : Finset Row) :
    Finset Row × Finset Row :=
  match s.lastPublishedData table with
  | some last => (data \ last, last \ data)
  | none => (data, ∅)

/-- `increment_get_seqnum`'s number: the first is `0`. -/
def nextSeqnum (s : DataService P T rank) (table : T) : ℕ :=
  match s.senderSeqnums table with
  | none => 0
  | some n => n + 1

/-- `publish`: the state after it and the message sent, if there is one. -/
def publish (s : DataService P T rank) (table : T) (data : Finset Row) (useSnapshot : Bool) :
    DataService P T rank × Option (Publication Row) :=
  let seqnum := s.nextSeqnum table
  if useSnapshot then
    ({ s with senderSeqnums := Function.update s.senderSeqnums table (some seqnum) },
      some ⟨seqnum, true, .rows data⟩)
  else
    let (toAdd, toDel) := s.differential table data
    let s := { s with lastPublishedData := Function.update s.lastPublishedData table (some data) }
    if toAdd = ∅ ∧ toDel = ∅ then (s, none)
    else ({ s with senderSeqnums := Function.update s.senderSeqnums table (some seqnum) },
      some ⟨seqnum, false, .diff toAdd toDel⟩)

/-- `get_last_published_data_with_seqnum`, where `snapshot` is what `get_snapshot` returns at that
moment: the state after it, and the answer unless a `KeyError` is raised. -/
def getLastPublishedDataWithSeqnum (s : DataService P T rank) (table : T)
    (snapshot : Finset Row) : DataService P T rank × Option (ℕ × Finset Row) :=
  match s.senderSeqnums table with
  | none =>
    ({ s with
        senderSeqnums := Function.update s.senderSeqnums table (some 0)
        lastPublishedData := Function.update s.lastPublishedData table (some snapshot) },
      some (0, snapshot))
  | some n => (s, (s.lastPublishedData table).map fun data => (n, data))

/-! ## Receiving -/

/-- `receive_data`, which instances override, is recorded. -/
def receiveData (s : DataService P T rank) (c : P × T) (data : Payload Row) (isSnapshot : Bool) :
    DataService P T rank :=
  { s with receiveDataHistory := s.receiveDataHistory ++ [⟨c.1, c.2, data, isSnapshot⟩] }

def setSeqnum (s : DataService P T rank) (c : P × T) (seqnum : ℕ) : DataService P T rank :=
  { s with receiverSeqnums := Function.update s.receiverSeqnums c (some seqnum) }

def clearMsgQueue (s : DataService P T rank) (c : P × T) : DataService P T rank :=
  { s with
    msgQueues := Function.update s.msgQueues c none
    oldestQueueTimes := Function.update s.oldestQueueTimes c none }

def clearReceiverSeqnum (s : DataService P T rank) (c : P × T) : DataService P T rank :=
  { s with receiverSeqnums := Function.update s.receiverSeqnums c none }

/-- `add_to_msg_queue`: the oldest time is set on the first message of a new queue only. -/
def addToMsgQueue (s : DataService P T rank) (c : P × T) (m : QueuedMsg Row τ) :
    DataService P T rank :=
  match s.msgQueues c with
  | none =>
    { s with
      msgQueues := Function.update s.msgQueues c (some (PriorityQueue.empty.put m))
      oldestQueueTimes := Function.update s.oldestQueueTimes c (some (some m.receiptTime)) }
  | some q => { s with msgQueues := Function.update s.msgQueues c (some (q.put m)) }

/-- `update_oldest_time`: the first message is taken out to read its time, and put back. -/
def updateOldestTime (s : DataService P T rank) (c : P × T)
    (q : PriorityQueue (QueuedMsg.key rank)) : DataService P T rank :=
  match q.get? with
  | some (m, q') =>
    { s with
      msgQueues := Function.update s.msgQueues c (some (q'.put m))
      oldestQueueTimes := Function.update s.oldestQueueTimes c (some (some m.receiptTime)) }
  | none =>
    { s with
      msgQueues := Function.update s.msgQueues c (some q)
      oldestQueueTimes := Function.update s.oldestQueueTimes c (some none) }

/-- `process_queued_msg`: the first queued message is received again; `receive` is
`receive_data_sequenced`. -/
def processQueuedMsg
    (receive : DataService P T rank → Message P T Row τ → Option (DataService P T rank))
    (s : DataService P T rank) (c : P × T) : Option (DataService P T rank) :=
  match s.msgQueues c with
  | none => some s
  | some q =>
    match q.get? with
    | none => some s
    | some (m, q') => receive (s.updateOldestTime c q')
        ⟨c.1, c.2, m.data, some m.seqnum, m.isSnapshot, m.receiptTime⟩

/-- `receive_data_sequenced`, or nothing when the fuel does not last: each nested call takes a
message out of the queue, so the length of the queue is enough (`receiveDataSequenced_isSome`). -/
def receiveDataSequenced : ℕ → DataService P T rank → Message P T Row τ →
    Option (DataService P T rank)
  | 0, _, _ => none
  | fuel + 1, s, ⟨publisher, table, data, seqnum, isSnapshot, receiptTime⟩ =>
    let c := (publisher, table)
    match seqnum with
    | none => some (s.receiveData c data isSnapshot)
    | some n =>
      match s.receiverSeqnums c with
      | none =>
        if isSnapshot then
          processQueuedMsg (receiveDataSequenced fuel)
            ((s.setSeqnum c n).receiveData c data isSnapshot) c
        else some (s.addToMsgQueue c ⟨n, isSnapshot, data, receiptTime⟩)
      | some r =>
        if n = 0 then some (((s.setSeqnum c n).clearMsgQueue c).receiveData c data isSnapshot)
        else if n ≤ r then processQueuedMsg (receiveDataSequenced fuel) s c
        else if n = r + 1 then
          processQueuedMsg (receiveDataSequenced fuel)
            ((s.setSeqnum c n).receiveData c data isSnapshot) c
        else some (s.addToMsgQueue c ⟨n, isSnapshot, data, receiptTime⟩)

/-- The number of messages queued on a channel. -/
def queued (s : DataService P T rank) (c : P × T) : List (QueuedMsg Row τ) :=
  ((s.msgQueues c).map PriorityQueue.items).getD []

/-- A message arrives. -/
def receive (s : DataService P T rank) (m : Message P T Row τ) : DataService P T rank :=
  (receiveDataSequenced ((s.queued (m.publisher, m.table)).length + 1) s m).getD s

/-- `subscribe`, with the publisher's answer to the request for its last data, if it gives one. -/
def subscribe (s : DataService P T rank) (c : P × T) (answer : Option (ℕ × Finset Row))
    (now : τ) : DataService P T rank :=
  match answer with
  | some (seqnum, data) => s.receive ⟨c.1, c.2, .rows data, some seqnum, true, now⟩
  | none => s

def unsubscribe (s : DataService P T rank) (c : P × T) : DataService P T rank :=
  (s.clearMsgQueue c).clearReceiverSeqnum c

def subscriberStep (s : DataService P T rank) : SubscriberOp P T Row τ → DataService P T rank
  | .subscribe c answer now => s.subscribe c answer now
  | .unsubscribe c => s.unsubscribe c
  | .arrive m => s.receive m

/-- Whether `check_resub` finds the time limit passed. -/
def checkResub [Sub τ] [LT τ] [DecidableLT τ] (s : DataService P T rank) (now timeToResub : τ)
    (c : P × T) : Bool :=
  match s.oldestQueueTimes c with
  | some (some t) => decide (timeToResub < now - t)
  | _ => false

end DataService

end Congress
