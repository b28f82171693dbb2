import Mathlib.Data.Finset.Erase
import Mathlib.Data.Finset.Insert
import Mathlib.Algebra.Order.Ring.Rat
import Mathlib.Logic.Function.Basic
import Congress.Lib.Run

/-!
# Leaders

A driver executes the requests of one node, its leader, until it gives that node up because of its heartbeats.
Nodes send requests and heartbeats; both are under way for some time, and nodes stop. Between requests of two
nodes that are both executed the first one was given up (`vacated_between`).
-/

namespace Congress

open Lib

variable {N A : Type*} [DecidableEq N]

/-- What leadership depends on: the driver's own node, what that has seen of its peers, and the leader. -/
structure ExecutionDriver (N : Type*) where
  nodeId : N
  leaderNodeId : Option N
  lastHbTime : N → Option ℚ
  leaderTimeout : ℚ

namespace ExecutionDriver

/-- The node is not among the peers, or its last heartbeat is too old. -/
def LostHeartbeat (d : ExecutionDriver N) (now : ℚ) (node : N) : Prop :=
  match d.lastHbTime node with
  | none => True
  | some lastHbTime => d.leaderTimeout < now - lastHbTime

instance (d : ExecutionDriver N) (now : ℚ) (node : N) : Decidable (d.LostHeartbeat now node) := by
  unfold LostHeartbeat
  cases d.lastHbTime node <;> infer_instance

/-- `_check_leader_heartbeat`. -/
def checkLeaderHeartbeat (d : ExecutionDriver N) (now : ℚ) : ExecutionDriver N :=
  match d.leaderNodeId with
  | none => d
  | some leader =>
    if leader ≠ d.nodeId ∧ d.LostHeartbeat now leader then { d with leaderNodeId := none } else d

/-- `request_execute` with the node identifier of its context: whether the action is executed. -/
def requestExecute (d : ExecutionDriver N) (nodeId : Option N) : Bool × ExecutionDriver N :=
  if d.leaderNodeId = nodeId then (true, d)
  else
    match nodeId with
    | none => (false, d)
    | some node => if d.leaderNodeId = none then (true, { d with leaderNodeId := some node }) else (false, d)

/-- `accept_heartbeat`, which ignores the echoes of the own node's heartbeats. -/
def acceptHeartbeat (d : ExecutionDriver N) (peer : N) (now : ℚ) : ExecutionDriver N :=
  if peer = d.nodeId then d else { d with lastHbTime := Function.update d.lastHbTime peer (some now) }

end ExecutionDriver

/-! ## Nodes and messages -/

inductive ClusterMessage (N A : Type*)
  | request (node : N) (action : A)
  | heartbeat (node : N)

/-- The node whose identifier is in the context of a message. -/
def ClusterMessage.sender : ClusterMessage N A → N
  | .request node _ => node
  | .heartbeat node => node

/-- A driver, the nodes that run, the messages to the driver's node that are under way, and the time. -/
structure Cluster (N A : Type*) where
  driver : ExecutionDriver N
  running : Finset N
  messages : List (ClusterMessage N A)
  clock : ℚ

/-- What happens: nodes join, are lost and send, messages arrive in any order or are lost, the driver checks
its leader, and time passes. -/
inductive ClusterOp (N A : Type*)
  | join (node : N)
  | lose (node : N)
  | send (message : ClusterMessage N A)
  | deliver (i : ℕ)
  | drop (i : ℕ)
  | check
  | pass (time : ℚ)

namespace Cluster

/-- What a message does when it arrives. -/
def receive (c : Cluster N A) : ClusterMessage N A → Cluster N A
  | .request node _ => { c with driver := (c.driver.requestExecute (some node)).2 }
  | .heartbeat node => { c with driver := c.driver.acceptHeartbeat node c.clock }

def step (c : Cluster N A) : ClusterOp N A → Cluster N A
  | .join node => { c with running := insert node c.running }
  | .lose node => { c with running := c.running.erase node }
  | .send message => if message.sender ∈ c.running then { c with messages := c.messages ++ [message] } else c
  | .deliver i =>
    match c.messages[i]? with
    | some message => receive { c with messages := c.messages.eraseIdx i } message
    | none => c
  | .drop i => { c with messages := c.messages.eraseIdx i }
  | .check => { c with driver := c.driver.checkLeaderHeartbeat c.clock }
  | .pass time => { c with clock := c.clock + |time| }

/-- The driver executes a request of the node. -/
def Executes (c : Cluster N A) (o : ClusterOp N A) (node : N) : Prop :=
  ∃ i action, o = .deliver i ∧ c.messages[i]? = some (.request node action)
    ∧ (c.driver.requestExecute (some node)).1 = true

/-- The driver gives the node up as leader, because it has lost its heartbeat. -/
structure GivesUp (c : Cluster N A) (o : ClusterOp N A) (node : N) : Prop where
  check : o = .check
  leader : c.driver.leaderNodeId = some node
  lost : c.driver.LostHeartbeat c.clock node
  vacated : (c.step o).driver.leaderNodeId = none

variable {c : Cluster N A} {o : ClusterOp N A} {node : N}

/-! ## What steps do to the leader -/

/-- Who is executed is the leader then. -/
theorem Executes.leader (h : c.Executes o node) : (c.step o).driver.leaderNodeId = some node := by
  obtain ⟨i, action, rfl, hi, hexec⟩ := h
  have hreceive : c.step (.deliver i)
      = receive { c with messages := c.messages.eraseIdx i } (.request node action) := by
    simp only [step, hi]
  rw [hreceive]
  unfold receive ExecutionDriver.requestExecute at *
  dsimp only at hexec ⊢
  split_ifs at hexec ⊢ with hleader hnone
  · exact hleader
  · rfl

/-- A leader's place is not taken by a request. -/
theorem requestExecute_leader {d : ExecutionDriver N} (h : d.leaderNodeId = some node) (nodeId : Option N) :
    (d.requestExecute nodeId).2.leaderNodeId = some node := by
  unfold ExecutionDriver.requestExecute
  cases nodeId with
  | none => split_ifs <;> exact h
  | some n =>
    split_ifs with heq hnone
    · exact h
    · rw [h] at hnone
      cases hnone
    · exact h

theorem acceptHeartbeat_leader (d : ExecutionDriver N) (peer : N) (now : ℚ) :
    (d.acceptHeartbeat peer now).leaderNodeId = d.leaderNodeId := by
  unfold ExecutionDriver.acceptHeartbeat
  split_ifs <;> rfl

/-- Only a check takes its place from a leader, and only if its heartbeat was lost. -/
theorem givesUp_of_change (h : c.driver.leaderNodeId = some node)
    (h' : (c.step o).driver.leaderNodeId ≠ some node) : c.GivesUp o node := by
  cases o with
  | join n => exact absurd h h'
  | lose n => exact absurd h h'
  | send message =>
    have hstep : (c.step (.send message)).driver = c.driver := by
      show (if _ then _ else _ : Cluster N A).driver = _
      split_ifs <;> rfl
    rw [hstep] at h'
    exact absurd h h'
  | deliver i =>
    unfold step at h'
    dsimp only at h'
    split at h'
    · rename_i message _
      cases message with
      | request n action => exact absurd (requestExecute_leader h (some n)) h'
      | heartbeat n => exact absurd ((acceptHeartbeat_leader ..).trans h) h'
    · exact absurd h h'
  | drop i => exact absurd h h'
  | pass time => exact absurd h h'
  | check =>
    have hcheck : c.driver.checkLeaderHeartbeat c.clock = if node ≠ c.driver.nodeId
        ∧ c.driver.LostHeartbeat c.clock node then { c.driver with leaderNodeId := none } else c.driver := by
      unfold ExecutionDriver.checkLeaderHeartbeat
      rw [h]
    have hstep : (c.step .check).driver = c.driver.checkLeaderHeartbeat c.clock := rfl
    rw [hstep, hcheck] at h'
    split_ifs at h' with hlost
    · exact ⟨rfl, h, hlost.2, by rw [hstep, hcheck, if_pos hlost]⟩
    · exact absurd h h'

/-- Requests of other nodes than the leader are not executed. -/
theorem Executes.not_leader {node' : N} (h : c.Executes o node') (hne : node ≠ node') :
    c.driver.leaderNodeId ≠ some node := by
  intro hleader
  obtain ⟨i, action, -, -, hexec⟩ := h
  unfold ExecutionDriver.requestExecute at hexec
  rw [hleader, if_neg fun heq => hne (Option.some.inj heq)] at hexec
  cases hexec

/-- Between executed requests of two nodes the driver has given up the first as leader. -/
theorem vacated_between (c : Cluster N A) (before between : List (ClusterOp N A)) (o o' : ClusterOp N A)
    {node node' : N} (hne : node ≠ node') (h : (run step c before).Executes o node)
    (h' : (run step c (before ++ o :: between)).Executes o' node') : ∃ first o'' rest,
      between = first ++ o'' :: rest ∧ (run step c (before ++ o :: first)).GivesUp o'' node := by
  have hrun : ∀ ops, run step c (before ++ o :: ops) = run step (step (run step c before) o) ops :=
    fun ops => by rw [run_append, run_cons]
  have hend : (run step (step (run step c before) o) between).driver.leaderNodeId ≠ some node := by
    rw [← hrun]
    exact h'.not_leader hne
  obtain ⟨first, o'', rest, rfl, hbefore, hafter⟩ :=
    exists_step_of_change (P := fun c : Cluster N A => c.driver.leaderNodeId = some node) h.leader hend
  refine ⟨first, o'', rest, rfl, ?_⟩
  rw [hrun]
  exact givesUp_of_change hbefore hafter

/-- Two nodes of which the second is executed once the first has been silent for too long. -/
theorem vacated_between_silent :
    let c : Cluster ℕ Unit := ⟨⟨0, none, fun _ => none, 5⟩, {1, 2}, [], 0⟩
    let before : List (ClusterOp ℕ Unit) := [.send (.heartbeat 1), .deliver 0, .send (.request 1 ())]
    let between : List (ClusterOp ℕ Unit) := [.lose 1, .pass 6, .check, .send (.request 2 ())]
    ∃ first o rest, between = first ++ o :: rest
      ∧ (run step c (before ++ .deliver 0 :: first)).GivesUp o 1 :=
  @vacated_between ℕ Unit _ _ _ _ (.deliver 0) (.deliver 0) 1 2 (by decide)
    ⟨0, (), rfl, rfl, rfl⟩ ⟨0, (), rfl, rfl, by decide +kernel⟩

end Cluster

end Congress
