import EdgeDispatch.ControlPlane.Scoring

/-! # The nodes table and the store's node cache (internal/store/pg.go:24-35, 282-453)

All control-plane instances share one table. Each has a cache of single nodes, which
GetNode fills and which every update of a node clears on the instance that makes it. -/

namespace EdgeDispatch.Store.Nodes
open ControlPlane.Scoring (Node NodeStatus)

/-- What a statement gives its caller: its result, an error although it was executed
(`lost`), or an error and no effect (`refused`). -/
inductive Outcome where
  | ok
  | lost
  | refused
  deriving DecidableEq

inductive StoreError where
  | noRows
  | failed
  deriving DecidableEq

structure CacheEntry where
  node : Node
  expiresAt : ℕ
  deriving DecidableEq

/-- The table, and the node cache of each instance. The clock is in nanoseconds. -/
structure Tables (κ : Type) where
  now : ℕ
  rows : List Node
  cache : κ → String → Option CacheEntry

def cacheTTL : ℕ := 30 * 10 ^ 9

namespace Tables
variable {κ : Type} [DecidableEq κ]

def row (s : Tables κ) (n : String) : Option Node := s.rows.find? fun r => r.nodeID = n

def status (s : Tables κ) (n : String) : Option NodeStatus := (s.row n).map Node.status

def setEntry (s : Tables κ) (k : κ) (n : String) (e : Option CacheEntry) : Tables κ :=
  { s with cache := fun k' n' => if k' = k ∧ n' = n then e else s.cache k' n' }

def invalidateNodeCache (s : Tables κ) (k : κ) (n : String) : Tables κ := s.setEntry k n none

def remember (s : Tables κ) (k : κ) (n : String) (node : Node) : Tables κ :=
  s.setEntry k n (some ⟨node, s.now + cacheTTL⟩)

/- `UPDATE nodes SET status = ... WHERE node_id = ...` -/
def setStatus (s : Tables κ) (n : String) (st : NodeStatus) : Tables κ :=
  { s with rows := s.rows.map fun r => if r.nodeID = n then { r with status := st } else r }

def deleteRow (s : Tables κ) (n : String) : Tables κ :=
  { s with rows := s.rows.filter fun r => r.nodeID ≠ n }

/- CreateNode inserts every node as REGISTERED. -/
def createNode (s : Tables κ) (node : Node) : Tables κ :=
  { s with rows := s.rows ++ [{ node with status := .registered }] }

def listActiveNodes (s : Tables κ) : List Node :=
  s.rows.filter fun r => r.status = .active ∨ r.status = .degraded

/-- An unexpired entry of the cache, or the row; `ok` is whether the SELECT succeeds. -/
def getNode (s : Tables κ) (k : κ) (n : String) (ok : Bool) : Tables κ × Except StoreError Node :=
  let select (s : Tables κ) : Tables κ × Except StoreError Node :=
    if ok = false then (s, .error .failed)
    else match s.row n with
      | none => (s, .error .noRows)
      | some r => (s.remember k n r, .ok r)
  match s.cache k n with
  | some e => if s.now < e.expiresAt then (s, .ok e.node) else select (s.invalidateNodeCache k n)
  | none => select s

def updateNodeStatus (s : Tables κ) (k : κ) (n : String) (st : NodeStatus) :
    Outcome → Tables κ × Except StoreError Unit
  | .ok =>
    if s.row n = none then (s, .error .noRows)
    else ((s.setStatus n st).invalidateNodeCache k n, .ok ())
  | .lost => (s.setStatus n st, .error .failed)
  | .refused => (s, .error .failed)

/- The columns it sets are not read by what is modelled here. -/
def updateNodeLastSeen (s : Tables κ) (k : κ) (n : String) :
    Outcome → Tables κ × Except StoreError Unit
  | .ok => (s.invalidateNodeCache k n, .ok ())
  | _ => (s, .error .failed)

/-! ### Rows and statuses -/

omit [DecidableEq κ] in
theorem row_setStatus (s : Tables κ) (n : String) (st : NodeStatus) :
    (s.setStatus n st).row n = (s.row n).map fun r => { r with status := st } := by
  unfold row setStatus
  induction s.rows with
  | nil => rfl
  | cons r rest ih =>
    by_cases hr : r.nodeID = n
    · simp [hr]
    · simpa [List.find?_cons, hr] using ih

omit [DecidableEq κ] in
theorem status_setStatus (s : Tables κ) (n : String) (st old : NodeStatus)
    (h : s.status n = some old) : (s.setStatus n st).status n = some st := by
  obtain ⟨r, hr, _⟩ := Option.map_eq_some_iff.mp h
  unfold status
  rw [row_setStatus, hr]
  rfl

omit [DecidableEq κ] in
theorem row_nodeID {s : Tables κ} {n : String} {r : Node} (h : s.row n = some r) :
    r ∈ s.rows ∧ r.nodeID = n := by
  refine ⟨List.mem_of_find?_eq_some h, ?_⟩
  simpa using List.find?_some h

omit [DecidableEq κ] in
theorem mem_listActiveNodes {s : Tables κ} {r : Node} :
    r ∈ s.listActiveNodes ↔ r ∈ s.rows ∧ (r.status = .active ∨ r.status = .degraded) := by
  simp [listActiveNodes]

@[simp] theorem cache_setEntry_self (s : Tables κ) (k : κ) (n : String) (e : Option CacheEntry) :
    (s.setEntry k n e).cache k n = e := by
  simp [setEntry]

/- Once its entry is cleared, GetNode reads the row itself. -/
theorem getNode_cleared {s t : Tables κ} {k : κ} {n : String} {ok : Bool} {node : Node}
    (h : (s.invalidateNodeCache k n).getNode k n ok = (t, .ok node)) :
    s.row n = some node ∧ t.rows = s.rows := by
  have hclear : (s.invalidateNodeCache k n).cache k n = none := cache_setEntry_self ..
  unfold getNode at h
  rw [hclear] at h
  simp only at h
  split at h
  · cases h
  · split at h
    · cases h
    · rename_i r hr
      cases h
      exact ⟨hr, rfl⟩

end Tables

end EdgeDispatch.Store.Nodes
