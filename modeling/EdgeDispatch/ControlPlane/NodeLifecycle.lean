import EdgeDispatch.Lib.Transition
import EdgeDispatch.Store.Nodes

/-! # Node lifecycle (internal/controlplane/heartbeat.go:102-190)

What one processed heartbeat and one health check do to a node's status, each run
without interruption. What they do between each other's steps is in `NodeRuns`. -/

namespace EdgeDispatch.ControlPlane.NodeLifecycle
open Lib.Transition Store.Nodes
open ControlPlane.Scoring (Node NodeStatus)

/- models.go:322-329, less the scheduler's event. -/
inductive EventType where
  | nodeOnline
  | nodeOffline
  | nodeDegraded
  | nodeQuarantined
  | nodeRecovered
  deriving DecidableEq

structure Event where
  type : EventType
  nodeID : String
  message : String
  deriving DecidableEq

/-- How the calls of one heartbeat or health check turn out. -/
structure Calls where
  saveHeartbeat : Bool
  lastSeen : Outcome
  select : Bool
  write : Outcome

def Calls.allOk : Calls := ⟨true, .ok, true, .ok⟩

inductive HeartbeatError where
  | saveHeartbeat
  | updateLastSeen
  | getNode
  | activateNode
  | degradeNode
  | offlineNode
  deriving DecidableEq

/- The text each error is wrapped in. -/
def HeartbeatError.message : HeartbeatError → String
  | .saveHeartbeat => "save heartbeat: "
  | .updateLastSeen => "update last seen: "
  | .getNode => "get node: "
  | .activateNode => "activate node: "
  | .degradeNode => "degrade node: "
  | .offlineNode => "offline node: "

/-- The status that a heartbeat writes to a node it has read with the given one. -/
def heartbeatWrite (st : NodeStatus) : Option NodeStatus :=
  if st = .disabled ∨ st = .maintenance then none
  else if st = .registered then some .active
  else none

/-- The status that a failed health check writes, with its event. -/
def healthWrite : NodeStatus → Option (NodeStatus × EventType × String × HeartbeatError)
  | .active => some (.degraded, .nodeDegraded, "heartbeat lost, node degraded", .degradeNode)
  | .degraded => some (.offline, .nodeOffline, "heartbeat lost, node offline", .offlineNode)
  | _ => none

variable {κ : Type} [DecidableEq κ]

/-- On instance `k`, for node `n`. The content summary it passes on last is the subject of
`ContentReport`. -/
def processOne (c : Calls) (s : Tables κ) (k : κ) (n : String) :
    Tables κ × Except HeartbeatError (List Event) :=
  if c.saveHeartbeat = false then (s, .error .saveHeartbeat)
  else match s.updateNodeLastSeen k n c.lastSeen with
    | (s, .error _) => (s, .error .updateLastSeen)
    | (s, .ok _) =>
      match s.getNode k n c.select with
      | (s, .error _) => (s, .error .getNode)
      | (s, .ok node) =>
        match heartbeatWrite node.status with
        | none => (s, .ok [])
        | some st =>
          match s.updateNodeStatus k n st c.write with
          | (s, .error _) => (s, .error .activateNode)
          | (s, .ok _) => (s, .ok [⟨.nodeOnline, n, "node activated"⟩])

/- `alive` is the answer of HasHeartbeat. -/
def checkNodeHealth (c : Calls) (alive : Bool) (s : Tables κ) (k : κ) (n : String) :
    Tables κ × Except HeartbeatError (List Event) :=
  if alive = true then (s, .ok [])
  else match s.getNode k n c.select with
    | (s, .error _) => (s, .error .getNode)
    | (s, .ok node) =>
      match healthWrite node.status with
      | none => (s, .ok [])
      | some (st, ev, text, err) =>
        match s.updateNodeStatus k n st c.write with
        | (s, .error _) => (s, .error err)
        | (s, .ok _) => (s, .ok [⟨ev, n, text⟩])

inductive Act (κ : Type) where
  | register (node : Node)
  | heartbeat (k : κ) (n : String) (c : Calls)
  | healthCheck (k : κ) (n : String) (alive : Bool) (c : Calls)
  | tick (d : ℕ)

def start : Tables κ := ⟨0, [], fun _ _ => none⟩

def step (s : Tables κ) : Act κ → Option (Tables κ)
  | .register node => some (s.createNode node)
  | .heartbeat k n c => some (processOne c s k n).1
  | .healthCheck k n alive c => some (checkNodeHealth c alive s k n).1
  | .tick d => some { s with now := s.now + d }

/-! ### What a processed heartbeat leaves -/

variable {n : String}

theorem updateNodeStatus_ok {s t : Tables κ} {k : κ} {st : NodeStatus} {o : Outcome}
    (h : s.updateNodeStatus k n st o = (t, .ok ())) :
    t = (s.setStatus n st).invalidateNodeCache k n := by
  cases o with
  | ok =>
    simp only [Tables.updateNodeStatus] at h
    split at h
    · cases h
    · cases h
      rfl
  | lost => cases h
  | refused => cases h

theorem updateNodeLastSeen_ok {s t : Tables κ} {k : κ} {o : Outcome}
    (h : s.updateNodeLastSeen k n o = (t, .ok ())) : t = s.invalidateNodeCache k n := by
  cases o with
  | ok =>
    cases h
    rfl
  | lost => cases h
  | refused => cases h

/- The heartbeat reads the row as it is, because touching it clears the cached node. -/
theorem processOne_status {c : Calls} {s t : Tables κ} {k : κ} {evs : List Event}
    (h : processOne c s k n = (t, .ok evs)) :
    ∃ st, s.status n = some st ∧ t.status n = some ((heartbeatWrite st).getD st) := by
  unfold processOne at h
  split at h
  · cases h
  · split at h
    · cases h
    · rename_i s₁ _ htouch
      have hs₁ := updateNodeLastSeen_ok htouch
      subst hs₁
      split at h
      · cases h
      · rename_i s₂ node hget
        obtain ⟨hrow, hrows⟩ := Tables.getNode_cleared hget
        have hst : s.status n = some node.status := by rw [Tables.status, hrow]; rfl
        have hst₂ : s₂.status n = some node.status := by
          rw [← hst, Tables.status, Tables.status, Tables.row, Tables.row, hrows]
        refine ⟨node.status, hst, ?_⟩
        split at h
        · rename_i hnone
          cases h
          rw [hnone]
          exact hst₂
        · rename_i st hsome
          split at h
          · cases h
          · rename_i s₃ _ hwrite
            cases h
            rw [updateNodeStatus_ok hwrite, hsome]
            exact Tables.status_setStatus s₂ n st node.status hst₂

theorem heartbeatWrite_active_iff (st : NodeStatus) :
    (st ≠ .disabled → st ≠ .maintenance → (heartbeatWrite st).getD st = .active) ↔
      st ≠ .degraded ∧ st ≠ .offline ∧ st ≠ .quarantined := by
  cases st <;> decide

/-- A processed heartbeat leaves a node in service ACTIVE exactly if the node was not
DEGRADED, OFFLINE or QUARANTINED. -/
theorem heartbeat_leaves_active_iff (c : Calls) (s t : Tables κ) (k : κ) (n : String)
    (evs : List Event) (h : processOne c s k n = (t, .ok evs)) :
    (s.status n ≠ some .disabled → s.status n ≠ some .maintenance → t.status n = some .active) ↔
      s.status n ≠ some .degraded ∧ s.status n ≠ some .offline ∧
        s.status n ≠ some .quarantined := by
  obtain ⟨st, hs, ht⟩ := processOne_status h
  rw [hs, ht]
  simpa using heartbeatWrite_active_iff st

def exampleNode : Node :=
  ⟨"a", "", "", .registered, [], ⟨true, 0, false, 0, false⟩, ⟨0, 0, 0⟩⟩

def registered : Tables Unit := start.createNode exampleNode

theorem first_heartbeat_leaves_active :
    ∃ t evs, processOne .allOk registered () "a" = (t, .ok evs) ∧
      ((registered.status "a" ≠ some .disabled → registered.status "a" ≠ some .maintenance →
        t.status "a" = some .active) ↔
        registered.status "a" ≠ some .degraded ∧ registered.status "a" ≠ some .offline ∧
          registered.status "a" ≠ some .quarantined) :=
  ⟨_, _, rfl, heartbeat_leaves_active_iff .allOk registered _ () "a" _ rfl⟩

/- Two lost heartbeats take an active node offline, and the heartbeats that come back
   leave it there. -/
theorem offline_node_stays_offline :
    ∃ s : Tables Unit, Reach step Free start s ∧ s.status "a" = some .offline ∧
      (processOne .allOk s () "a").2 = .ok [] ∧
      (processOne .allOk s () "a").1.status "a" = some .offline := by
  let acts : List (Act Unit) := [.register exampleNode, .heartbeat () "a" .allOk,
    .healthCheck () "a" false .allOk, .healthCheck () "a" false .allOk]
  have hrun : (exec step acts start).map (fun s => (s.status "a",
      (processOne .allOk s () "a").2, (processOne .allOk s () "a").1.status "a")) =
      some (some .offline, .ok [], some .offline) := rfl
  obtain ⟨s, hr, hview⟩ := reach_of_view acts _ hrun
  simp only [Prod.mk.injEq] at hview
  exact ⟨s, hr, hview⟩

end EdgeDispatch.ControlPlane.NodeLifecycle
