import EdgeDispatch.Lib.Transition
import EdgeDispatch.Store.Tasks

/-! # Task executors (internal/controlplane/task_executor.go)

Any number of executors that poll one database, and the requests that create and cancel
tasks, interleaved between the statements. An executor lists pending tasks, then takes them
one after the other: it marks a task as running, sends the pushes, and marks it as
completed; or it marks it as failed at once. No statement looks at the status it replaces. -/

namespace EdgeDispatch.ControlPlane.TaskRuns
open Lib.Transition Lib.GoJSON Store.Tasks
open Store.Nodes (Outcome)
open ControlPlane.Scoring (Node NodeStatus Endpoint)

/-! ### What an executor does with one task -/

structure TaskParams where
  objectKey : String
  keyPrefix : String
  targetNodes : List String
  targetScope : String
  concurrency : ℤ
  rateLimit : ℤ

/- `json.Unmarshal(task.Params, &params)` -/
def decodeParams : Json → Option TaskParams
  | .null => some ⟨"", "", [], "", 0, 0⟩
  | .obj members => do
    let objectKey ← field "object_key" decodeString "" members
    let keyPrefix ← field "key_prefix" decodeString "" members
    let targetNodes ← field "target_nodes" (decodeList decodeString) [] members
    let targetScope ← field "target_scope" decodeString "" members
    let concurrency ← field "concurrency" decodeInt 0 members
    let rateLimit ← field "rate_limit" decodeInt 0 members
    return ⟨objectKey, keyPrefix, targetNodes, targetScope, concurrency, rateLimit⟩
  | _ => none

/-- The nodes as the executor finds them: `GetNode` and the cache of active nodes. -/
structure NodeView where
  getNode : String → Option Node
  getActiveNodes : Option (List Node)

/- Both scopes end in the same list. -/
def resolveTargetNodes (v : NodeView) (params : TaskParams) : List Node :=
  if params.targetNodes ≠ [] then
    params.targetNodes.filterMap fun id =>
      (v.getNode id).filter fun n => n.status = .active ∨ n.status = .degraded
  else v.getActiveNodes.getD []

/-- What the three kinds of tasks differ in. -/
structure CacheOp where
  path : String
  keysName : String
  nodesName : String

/-- Up to the first update: the task has failed, or its pushes are to be sent. -/
inductive Begun where
  | failed
  | push (op : CacheOp) (keys : List String) (targets : List Node)

def Begun.pushes : Begun → Bool
  | .failed => false
  | .push _ _ _ => true

def execute (op : CacheOp) (v : NodeView) (params : Json) : Begun :=
  match decodeParams params with
  | none => .failed
  | some p =>
    let keys := if p.objectKey ≠ "" then [p.objectKey] else []
    if keys = [] then .failed
    else
      let targets := resolveTargetNodes v p
      if targets = [] then .failed else .push op keys targets

def executePurge : NodeView → Json → Begun :=
  execute ⟨"/internal/push/purge", "keys_purged", "nodes_purged"⟩

def executePrewarm : NodeView → Json → Begun :=
  execute ⟨"/internal/push/prewarm", "keys_prewarmed", "nodes_prewarmed"⟩

/- A block is pushed as a purge. -/
def executeBlock : NodeView → Json → Begun :=
  execute ⟨"/internal/push/purge", "keys_blocked", "nodes_blocked"⟩

/- A task of unknown type is left as it is. -/
def executeTask (v : NodeView) (t : Task) : Option Begun :=
  match t.type with
  | .purge => some (executePurge v t.params)
  | .prewarm => some (executePrewarm v t.params)
  | .block => some (executeBlock v t.params)
  | .other _ => none

/-- What becomes of the request of each goroutine: it cannot be made, or it is sent and the
answer can be read or not. -/
abbrev Fates := ℕ → Option Bool

/- The requests that are sent; a node without an endpoint gets none. -/
def pushRequests (op : CacheOp) (keys : List String) (fates : Fates) (targets : List Node) :
    List (String × List String) :=
  targets.zipIdx.filterMap fun x => (fates x.2).bind fun _ =>
    x.1.endpoints.head?.map fun e => (e.url ++ op.path, keys)

/- The nodes whose answer could be read. -/
def doneNodes (fates : Fates) (targets : List Node) : ℕ :=
  targets.zipIdx.countP fun x => x.1.endpoints ≠ [] ∧ fates x.2 = some true

def pushResult (op : CacheOp) (keys : List String) (targets : List Node) (done : ℕ) : Json :=
  .obj [(op.keysName, .num keys.length), (op.nodesName, .num done),
    ("total_nodes", .num targets.length)]

/-! ### Executors, requests and the database -/

inductive Pc where
  | idle
  | batch (todo : List Task)
  | pushing (t : Task) (op : CacheOp) (keys : List String) (targets : List Node) (rest : List Task)
  | finishing (t : Task) (result : Json) (progress done : ℤ) (rest : List Task)

/-- Updates that hit a row, with its status before and after, and tasks carried out. -/
inductive Event where
  | wrote (taskID : String) (before after : TaskStatus)
  | executed (taskID : String) (requests : List (String × List String))
  deriving DecidableEq

/- The newest event of the log is the first. -/
structure State (ι : Type) where
  db : Database
  pc : ι → Pc
  log : List Event

inductive Act (ι : Type) where
  | listPending (i : ι) (ok : Bool)
  | take (i : ι) (v : NodeView) (now : ℕ) (o : Outcome)
  | push (i : ι) (fates : Fates)
  | markComplete (i : ι) (now : ℕ) (o : Outcome)
  | handleCancelTask (taskID : String) (now : ℕ) (o : Outcome)
  | createCacheTask (task : Task) (o : Outcome)
  | replicate

variable {ι : Type} [DecidableEq ι]

def start (db : Database) : State ι := { db := db, pc := fun _ => .idle, log := [] }

def State.status (s : State ι) (id : String) : Option TaskStatus :=
  (s.db.primary.row id).map Task.status

def goto (s : State ι) (i : ι) (p : Pc) : State ι := { s with pc := Function.update s.pc i p }

/- The loop over the listed tasks ends with the last. -/
def resume : List Task → Pc
  | [] => .idle
  | todo => .batch todo

/-- `UpdateTaskStatus`; the executors go on after an error. -/
def updateTaskStatus (s : State ι) (now : ℕ) (id : String) (status : TaskStatus) (result : Json)
    (progress done : ℤ) : Outcome → State ι
  | .refused => s
  | _ =>
    { s with
      db := { s.db with primary :=
        s.db.primary.updateTaskStatus now id status result progress done }
      log := match s.status id with
        | some before => .wrote id before status :: s.log
        | none => s.log }

def step (readPool : Bool) (s : State ι) : Act ι → Option (State ι)
  | .listPending i ok =>
    match s.pc i with
    | .idle => some (goto s i (if ok then
        resume (((s.db.reading readPool).listTasks "" "pending" "" 10 0).elim [] Prod.fst)
        else .idle))
    | _ => none
  | .take i v now o =>
    match s.pc i with
    | .batch (t :: rest) =>
      match executeTask v t with
      | none => some (goto s i (resume rest))
      | some .failed =>
        some (goto (updateTaskStatus s now t.taskID .failed .null 0 0 o) i (resume rest))
      | some (.push op keys targets) =>
        some (goto (updateTaskStatus s now t.taskID .running .null 0 targets.length o) i
          (.pushing t op keys targets rest))
    | _ => none
  | .push i fates =>
    match s.pc i with
    | .pushing t op keys targets rest =>
      let done := doneNodes fates targets
      some (goto { s with log := .executed t.taskID (pushRequests op keys fates targets) :: s.log }
        i (.finishing t (pushResult op keys targets done) (done * 100 / targets.length) done rest))
    | _ => none
  | .markComplete i now o =>
    match s.pc i with
    | .finishing t result progress done rest =>
      some (goto (updateTaskStatus s now t.taskID .completed result progress done o) i
        (resume rest))
    | _ => none
  | .handleCancelTask id now o => some (updateTaskStatus s now id .cancelled .null 0 0 o)
  | .createCacheTask task o =>
    if o = .refused then some s
    else match s.db.primary.createTask { task with status := .pending, result := .null } with
      | some tb => some { s with db := { s.db with primary := tb } }
      | none => some s
  | .replicate => some { s with db := { s.db with replica := s.db.primary } }

/-! ### What is asked of a run -/

def Terminal (st : TaskStatus) : Prop := st = .completed ∨ st = .failed ∨ st = .cancelled

instance (st : TaskStatus) : Decidable (Terminal st) :=
  inferInstanceAs (Decidable (st = .completed ∨ st = .failed ∨ st = .cancelled))

def executions (id : String) (log : List Event) : ℕ :=
  log.countP fun e => match e with
    | .executed id' _ => id' = id
    | _ => false

def NoneAfterCancel (log : List Event) : Prop :=
  ∀ id, .wrote id .pending .cancelled ∈ log → executions id log = 0

/- A purge that waits, a node that takes pushes, and an executor's steps for one task. -/
def waiting (id : String) : Task :=
  { taskID := id, tenantID := "", projectID := "", creatorID := "", type := .purge,
    status := .pending, params := .obj [("object_key", .str "k"), ("target_scope", .str "all")],
    result := .null, progress := 0, totalNodes := 0, doneNodes := 0, createdAt := 0,
    updatedAt := 0 }

def waitingTable (id : String) : Database :=
  ⟨⟨[waiting id], List.nodup_singleton _⟩, ⟨[], List.nodup_nil⟩⟩

def edge : Node :=
  { nodeID := "n", region := "", isp := "", status := .active, endpoints := [⟨"http", "edge", 0⟩],
    capabilities := ⟨true, 0, false, 0, false⟩, scores := ⟨0, 0, 0⟩ }

def oneNode : NodeView := ⟨fun _ => none, some [edge]⟩

def requestsToNode : List (String × List String) := [("http://edge/internal/push/purge", ["k"])]

def executed (i : Fin 2) : List (Act (Fin 2)) :=
  [.take i oneNode 2 .ok, .push i fun _ => some true, .markComplete i 3 .ok]

/-- Two executors that list a task before either takes it both execute it. A task that is
cancelled while it is listed is executed, and ends as completed. And a completed task can be
cancelled. -/
theorem executors_overwrite_statuses :
    (∃ s : State (Fin 2), Reach (step false) Free (start (waitingTable "t")) s ∧
      s.log = [.wrote "t" .running .completed, .executed "t" requestsToNode,
        .wrote "t" .completed .running, .wrote "t" .running .completed,
        .executed "t" requestsToNode, .wrote "t" .pending .running] ∧
      executions "t" s.log = 2) ∧
    (∃ s s' : State (Fin 2), Reach (step false) Free (start (waitingTable "t")) s ∧
      Reach (step false) Free s s' ∧ s.status "t" = some .cancelled ∧
      s'.status "t" = some .completed ∧
      s'.log = [.wrote "t" .running .completed, .executed "t" requestsToNode,
        .wrote "t" .cancelled .running, .wrote "t" .pending .cancelled] ∧
      ¬ NoneAfterCancel s'.log) ∧
    ∃ s s' : State (Fin 2), Reach (step false) Free (start (waitingTable "t")) s ∧
      Reach (step false) Free s s' ∧ s.status "t" = some .completed ∧
      s'.status "t" = some .cancelled := by
  refine ⟨?_, ?_, ?_⟩
  · have hrun : (exec (step false) ([.listPending 0 true, .listPending 1 true] ++ executed 0 ++
        executed 1) (start (waitingTable "t"))).map State.log = some
        [.wrote "t" .running .completed, .executed "t" requestsToNode,
          .wrote "t" .completed .running, .wrote "t" .running .completed,
          .executed "t" requestsToNode, .wrote "t" .pending .running] := by decide +kernel
    obtain ⟨s, hr, hlog⟩ := reach_of_view _ State.log hrun
    exact ⟨s, hr, hlog, by rw [hlog]; decide⟩
  · have hrun : ((exec (step false) [.listPending 0 true, .handleCancelTask "t" 1 .ok]
        (start (waitingTable "t"))).bind fun s => (exec (step false) (executed 0) s).map fun s' =>
          (s.status "t", s'.status "t", s'.log)) = some (some .cancelled, some .completed,
        [.wrote "t" .running .completed, .executed "t" requestsToNode,
          .wrote "t" .cancelled .running, .wrote "t" .pending .cancelled]) := by decide +kernel
    obtain ⟨s, s', hr, hr', hst, hview⟩ := reach_of_views _ _ (State.status · "t")
      (fun s' : State (Fin 2) => (s'.status "t", s'.log)) hrun
    obtain ⟨hst', hlog⟩ := Prod.mk.inj hview
    refine ⟨s, s', hr, hr', hst, hst', hlog, fun hnone => ?_⟩
    rw [hlog] at hnone
    exact absurd (hnone "t" (by decide)) (by decide)
  · have hrun : ((exec (step false) (.listPending 0 true :: executed 0)
        (start (waitingTable "t"))).bind fun s =>
          (exec (step false) [.handleCancelTask "t" 4 .ok] s).map fun s' =>
          (s.status "t", s'.status "t")) = some (some .completed, some .cancelled) := by
      decide +kernel
    exact reach_of_views _ _ (State.status · "t") (State.status · "t") hrun

/-! ### Updates that find the status they replace -/

/- The task that an executor takes next, and the one it is about to mark as completed. -/
def upNext : Pc → Option Task
  | .batch (t :: _) => some t
  | _ => none

def finishing : Pc → Option String
  | .finishing t _ _ _ _ => some t.taskID
  | _ => none

/-- A task is taken up while it is pending, and then its update is carried out; it is
completed while it is running; and a cancel does not find it completed or failed. -/
def Orderly (s : State ι) : Act ι → Prop
  | .take i v _ o => ∀ t ∈ upNext (s.pc i), ∀ b ∈ executeTask v t,
      s.status t.taskID = some .pending ∧ (b.pushes = true → o ≠ .refused)
  | .markComplete i _ o => ∀ id ∈ finishing (s.pc i),
      o = .refused ∨ s.status id = some .running
  | .handleCancelTask id _ o =>
      o = .refused ∨ s.status id ≠ some .completed ∧ s.status id ≠ some .failed
  | _ => True

omit [DecidableEq ι] in
instance (s : State ι) : ∀ a, Decidable (Orderly s a)
  | .take i v _ o => inferInstanceAs (Decidable (∀ t ∈ upNext (s.pc i), ∀ b ∈ executeTask v t,
      s.status t.taskID = some .pending ∧ (b.pushes = true → o ≠ .refused)))
  | .markComplete i _ o => inferInstanceAs (Decidable (∀ id ∈ finishing (s.pc i),
      o = .refused ∨ s.status id = some .running))
  | .handleCancelTask id _ o => inferInstanceAs (Decidable
      (o = .refused ∨ s.status id ≠ some .completed ∧ s.status id ≠ some .failed))
  | .listPending .. | .push .. | .createCacheTask .. | .replicate => isTrue trivial

/- The task whose pushes an executor is about to send. -/
def pushing : Pc → Option String
  | .pushing t _ _ _ _ => some t.taskID
  | _ => none

def Taken (s : State ι) (id : String) : Prop := ∃ st, s.status id = some st ∧ st ≠ .pending

/- No task that was cancelled while it was pending. -/
def Uncancelled (s : State ι) (id : String) : Prop := .wrote id .pending .cancelled ∉ s.log

structure Inv (s : State ι) : Prop where
  pushing_taken : ∀ i id, pushing (s.pc i) = some id → Taken s id
  pushing_fresh : ∀ i id, pushing (s.pc i) = some id → executions id s.log = 0
  pushing_uncancelled : ∀ i id, pushing (s.pc i) = some id → Uncancelled s id
  pushing_apart : ∀ i j id, pushing (s.pc i) = some id → pushing (s.pc j) = some id → i = j
  executed_taken : ∀ id, executions id s.log ≠ 0 → Taken s id
  executed_uncancelled : ∀ id, executions id s.log ≠ 0 → Uncancelled s id
  cancelled_taken : ∀ id, ¬ Uncancelled s id → Taken s id
  once : ∀ id, executions id s.log ≤ 1

omit [DecidableEq ι] in
theorem start_inv (db : Database) : Inv (start db : State ι) :=
  ⟨nofun, nofun, nofun, nofun, fun _ h => absurd rfl h, fun _ h => absurd rfl h,
    fun _ h => absurd List.not_mem_nil h, fun _ => Nat.zero_le 1⟩

variable {s : State ι} {id id' : String} {st : TaskStatus} {readPool : Bool} {a : Act ι}

omit [DecidableEq ι] in
theorem Taken.not_pending (h : Taken s id) : s.status id ≠ some .pending := by
  obtain ⟨st, hst, hne⟩ := h
  rw [hst]
  exact fun he => hne (Option.some.inj he)

omit [DecidableEq ι] in
/- An update that is carried out sets the status of that one task. -/
theorem status_update (s : State ι) (now : ℕ) (id : String) (st : TaskStatus) (result : Json)
    (progress done : ℤ) (o : Outcome) (id' : String) :
    (updateTaskStatus s now id st result progress done o).status id' =
      if o ≠ .refused ∧ id' = id then (s.status id').map (fun _ => st) else s.status id' := by
  have carried : ((s.db.primary.updateTaskStatus now id st result progress done).row id').map
      Task.status = if id' = id then (s.status id').map (fun _ => st) else s.status id' := by
    rw [Table.row_updateTaskStatus, State.status]
    cases hrow : s.db.primary.row id' with
    | none => simp
    | some t =>
      have hid : t.taskID = id' := (Table.row_eq_some.mp hrow).2
      simp only [Option.map_some, Table.setRow, hid]
      split <;> rfl
  cases o with
  | refused => simp [updateTaskStatus]
  | ok => simpa [updateTaskStatus, State.status] using carried
  | lost => simpa [updateTaskStatus, State.status] using carried

omit [DecidableEq ι] in
theorem log_update (s : State ι) (now : ℕ) (id : String) (st : TaskStatus) (result : Json)
    (progress done : ℤ) (o : Outcome) :
    (updateTaskStatus s now id st result progress done o).log = s.log ∨
      ∃ before, s.status id = some before ∧ o ≠ .refused ∧
        (updateTaskStatus s now id st result progress done o).log =
          .wrote id before st :: s.log := by
  cases hst : s.status id with
  | none => cases o <;> simp [updateTaskStatus, hst]
  | some before => cases o <;> simp [updateTaskStatus, hst]

omit [DecidableEq ι] in
theorem executions_update (s : State ι) (now : ℕ) (id : String) (st : TaskStatus) (result : Json)
    (progress done : ℤ) (o : Outcome) (id' : String) :
    executions id' (updateTaskStatus s now id st result progress done o).log =
      executions id' s.log := by
  rcases log_update s now id st result progress done o with hlog | ⟨before, -, -, hlog⟩
  · rw [hlog]
  · rw [hlog]
    exact List.countP_cons_of_neg (by simp)

omit [DecidableEq ι] in
/- No update makes a task pending. -/
theorem Taken.update (h : Taken s id') (now : ℕ) (id : String) (hst : st ≠ .pending) (result : Json)
    (progress done : ℤ) (o : Outcome) :
    Taken (updateTaskStatus s now id st result progress done o) id' := by
  obtain ⟨old, hold, hne⟩ := h
  rw [Taken, status_update, hold]
  split
  · exact ⟨st, rfl, hst⟩
  · exact ⟨old, rfl, hne⟩

omit [DecidableEq ι] in
/- A task that was taken up is not cancelled while it is pending. -/
theorem Taken.uncancelled (h : Taken s id') (hu : Uncancelled s id') (now : ℕ) (id : String)
    (st : TaskStatus) (result : Json) (progress done : ℤ) (o : Outcome) :
    Uncancelled (updateTaskStatus s now id st result progress done o) id' := by
  rcases log_update s now id st result progress done o with hlog | ⟨before, hbefore, -, hlog⟩
  · rwa [Uncancelled, hlog]
  · rw [Uncancelled, hlog]
    intro hmem
    rcases List.mem_cons.mp hmem with he | hold
    · cases he
      exact h.not_pending hbefore
    · exact hu hold

omit [DecidableEq ι] in
theorem cancelled_update (h : Inv s) (now : ℕ) (id : String) (hst : st ≠ .pending) (result : Json)
    (progress done : ℤ) (o : Outcome) (id' : String)
    (hc : ¬ Uncancelled (updateTaskStatus s now id st result progress done o) id') :
    Taken (updateTaskStatus s now id st result progress done o) id' := by
  by_cases hold : Uncancelled s id'
  · rcases log_update s now id st result progress done o with hlog | ⟨before, hbefore, ho, hlog⟩
    · rw [Uncancelled, hlog] at hc
      exact absurd hold hc
    · rw [Uncancelled, hlog, not_not] at hc
      rcases List.mem_cons.mp hc with he | hmem
      · cases he
        exact ⟨.cancelled, by rw [status_update, if_pos ⟨ho, rfl⟩, hbefore]; rfl, hst⟩
      · exact absurd hmem hold
  · exact (h.cancelled_taken id' hold).update now id hst result progress done o

omit [DecidableEq ι] in
theorem Inv.update (h : Inv s) (now : ℕ) (id : String) (hst : st ≠ .pending) (result : Json)
    (progress done : ℤ) (o : Outcome) :
    Inv (updateTaskStatus s now id st result progress done o) := by
  have hpc : (updateTaskStatus s now id st result progress done o).pc = s.pc := by
    cases o <;> rfl
  have hex := executions_update s now id st result progress done o
  refine ⟨?_, ?_, ?_, ?_, ?_, ?_, cancelled_update h now id hst result progress done o, ?_⟩
  · intro i x hi
    rw [hpc] at hi
    exact (h.pushing_taken i x hi).update now id hst result progress done o
  · intro i x hi
    rw [hpc] at hi
    rw [hex]
    exact h.pushing_fresh i x hi
  · intro i x hi
    rw [hpc] at hi
    exact (h.pushing_taken i x hi).uncancelled (h.pushing_uncancelled i x hi) now id st result
      progress done o
  · intro i j x hi hj
    rw [hpc] at hi hj
    exact h.pushing_apart i j x hi hj
  · intro x hx
    rw [hex] at hx
    exact (h.executed_taken x hx).update now id hst result progress done o
  · intro x hx
    rw [hex] at hx
    exact (h.executed_taken x hx).uncancelled (h.executed_uncancelled x hx) now id st result
      progress done o
  · intro x
    rw [hex]
    exact h.once x

variable {p : Pc} {o : Outcome} {s' : State ι}

/- No two executors are about to push the same task. -/
theorem Inv.apart_update (h : Inv s) (i : ι)
    (hp : ∀ id, pushing p = some id → ∀ j, pushing (s.pc j) ≠ some id) :
    ∀ j k id, pushing (Function.update s.pc i p j) = some id →
      pushing (Function.update s.pc i p k) = some id → j = k := by
  intro j k id hj hk
  refine held_apart_update i (fun j k x y hj hk he => ?_) (fun x hx j y hy => ?_) j k id id hj hk rfl
  · exact h.pushing_apart j k x hj (he ▸ hk)
  · have hne : y ≠ x := fun he => hp x hx j (he ▸ hy)
    exact ⟨hne.symm, hne⟩

/- An executor that goes on to something other than pushes. -/
theorem Inv.goto (h : Inv s) (i : ι) (hp : pushing p = none) : Inv (goto s i p) := by
  have hnone : ∀ {Q : String → Prop} id, pushing p = some id → Q id :=
    fun id he => nomatch hp.symm.trans he
  exact ⟨forall_held_update i h.pushing_taken hnone, forall_held_update i h.pushing_fresh hnone,
    forall_held_update i h.pushing_uncancelled hnone, h.apart_update i hnone, h.executed_taken,
    h.executed_uncancelled, h.cancelled_taken, h.once⟩

/- A pending task is marked as running, and its pushes come next. -/
theorem Inv.take (h : Inv s) (i : ι) {t : Task} (hp : s.status t.taskID = some .pending)
    (ho : o ≠ .refused) (now : ℕ) (done : ℤ) (op : CacheOp) (keys : List String)
    (targets : List Node) (rest : List Task) :
    Inv (TaskRuns.goto (updateTaskStatus s now t.taskID .running .null 0 done o) i
      (.pushing t op keys targets rest)) := by
  have hpc : (updateTaskStatus s now t.taskID .running .null 0 done o).pc = s.pc := by
    cases o <;> rfl
  have new : Inv (updateTaskStatus s now t.taskID .running .null 0 done o) :=
    h.update now t.taskID (by decide) .null 0 done o
  have taken : Taken (updateTaskStatus s now t.taskID .running .null 0 done o) t.taskID :=
    ⟨.running, by rw [status_update, if_pos ⟨ho, rfl⟩, hp]; rfl, nofun⟩
  have fresh : executions t.taskID s.log = 0 := by
    by_contra hex
    exact (h.executed_taken _ hex).not_pending hp
  have clear : Uncancelled (updateTaskStatus s now t.taskID .running .null 0 done o) t.taskID := by
    rcases log_update s now t.taskID .running .null 0 done o with hlog | ⟨before, -, -, hlog⟩
    · rw [Uncancelled, hlog]
      exact fun hmem => (h.cancelled_taken _ (not_not.mpr hmem)).not_pending hp
    · rw [Uncancelled, hlog, List.mem_cons, not_or]
      exact ⟨nofun, fun hmem => (h.cancelled_taken _ (not_not.mpr hmem)).not_pending hp⟩
  -- no executor is about to push this task, since it was still pending
  have alone : ∀ j, pushing (s.pc j) ≠ some t.taskID :=
    fun j hj => (h.pushing_taken j _ hj).not_pending hp
  refine ⟨forall_held_update i new.pushing_taken ?_, forall_held_update i new.pushing_fresh ?_,
    forall_held_update i new.pushing_uncancelled ?_, new.apart_update i ?_, new.executed_taken,
    new.executed_uncancelled, new.cancelled_taken, new.once⟩
  · exact fun id he => Option.some.inj he ▸ taken
  · intro id he
    rw [← Option.some.inj he]
    exact (executions_update ..).trans fresh
  · exact fun id he => Option.some.inj he ▸ clear
  · intro id he j
    rw [hpc, ← Option.some.inj he]
    exact alone j

theorem executions_push (id id' : String) (requests : List (String × List String))
    (log : List Event) : executions id' (.executed id requests :: log) =
      executions id' log + if id = id' then 1 else 0 := by
  rw [executions, List.countP_cons]
  simp [executions]

/- The pushes of one task are sent. -/
theorem Inv.push (h : Inv s) {i : ι} (hi : pushing (s.pc i) = some id)
    (requests : List (String × List String)) (hp : pushing p = none) :
    Inv (TaskRuns.goto { s with log := .executed id requests :: s.log } i p) := by
  have uncancelled : ∀ x, Uncancelled s x →
      Uncancelled ({ s with log := .executed id requests :: s.log } : State ι) x :=
    fun x hx hmem => hx (by simpa using hmem)
  have executed : ∀ x, executions x (.executed id requests :: s.log) ≠ 0 →
      x = id ∨ executions x s.log ≠ 0 := by
    intro x hx
    rw [executions_push] at hx
    by_cases he : x = id
    · exact .inl he
    · rw [if_neg (Ne.symm he)] at hx
      exact .inr hx
  refine ⟨?_, ?_, ?_, ?_, ?_, ?_, ?_, ?_⟩
  · exact forall_held_update i h.pushing_taken fun x hx => nomatch hp.symm.trans hx
  · intro j x hj
    simp only [TaskRuns.goto, Function.update_apply] at hj
    split at hj
    · exact nomatch hp.symm.trans hj
    · have hne : id ≠ x := fun he => ‹¬ j = i› (h.pushing_apart j i x hj (he ▸ hi))
      exact (executions_push id x requests s.log).trans
        (by rw [if_neg hne, h.pushing_fresh j x hj])
  · exact forall_held_update i (fun j x hj => uncancelled x (h.pushing_uncancelled j x hj))
      fun x hx => nomatch hp.symm.trans hx
  · exact (h.goto i hp).pushing_apart
  · intro x hx
    rcases executed x hx with rfl | hold
    · exact h.pushing_taken i x hi
    · exact h.executed_taken x hold
  · intro x hx
    rcases executed x hx with rfl | hold
    · exact uncancelled x (h.pushing_uncancelled i x hi)
    · exact uncancelled x (h.executed_uncancelled x hold)
  · exact fun x hx => h.cancelled_taken x fun hu => hx (uncancelled x hu)
  · intro x
    refine (executions_push id x requests s.log).trans_le ?_
    split
    · rename_i he
      rw [← he, h.pushing_fresh i id hi]
    · exact h.once x

omit [DecidableEq ι] in
/- Tables that still have every row as it was. -/
theorem Inv.grow (h : Inv s) {db : Database}
    (hrow : ∀ id t, s.db.primary.row id = some t → db.primary.row id = some t) :
    Inv ({ s with db := db } : State ι) := by
  have taken : ∀ id, Taken s id → Taken ({ s with db := db } : State ι) id := by
    rintro id ⟨st, hst, hne⟩
    obtain ⟨t, ht, hts⟩ := Option.map_eq_some_iff.mp hst
    exact ⟨st, Option.map_eq_some_iff.mpr ⟨t, hrow id t ht, hts⟩, hne⟩
  exact ⟨fun i id hi => taken id (h.pushing_taken i id hi), h.pushing_fresh, h.pushing_uncancelled,
    h.pushing_apart, fun id hx => taken id (h.executed_taken id hx), h.executed_uncancelled,
    fun id hx => taken id (h.cancelled_taken id hx), h.once⟩

theorem pushing_resume (todo : List Task) : pushing (resume todo) = none := by
  cases todo <;> rfl

/-- The branches of `step`, by what they do to the database and the log. -/
inductive Moves (s : State ι) : Act ι → State ι → Prop
  | pass {a i p} : pushing p = none → Moves s a (TaskRuns.goto s i p)
  | fail {i v now o t p} : upNext (s.pc i) = some t → executeTask v t = some .failed →
      pushing p = none →
      Moves s (.take i v now o)
        (TaskRuns.goto (updateTaskStatus s now t.taskID .failed .null 0 0 o) i p)
  | take {i v now o t op keys targets rest} : upNext (s.pc i) = some t →
      executeTask v t = some (.push op keys targets) →
      Moves s (.take i v now o)
        (TaskRuns.goto (updateTaskStatus s now t.taskID .running .null 0 targets.length o) i
          (.pushing t op keys targets rest))
  | push {i fates id requests p} : pushing (s.pc i) = some id → pushing p = none →
      Moves s (.push i fates)
        (TaskRuns.goto { s with log := .executed id requests :: s.log } i p)
  | complete {i now o id result progress done p} : finishing (s.pc i) = some id →
      pushing p = none →
      Moves s (.markComplete i now o)
        (TaskRuns.goto (updateTaskStatus s now id .completed result progress done o) i p)
  | cancel {id now o} :
      Moves s (.handleCancelTask id now o) (updateTaskStatus s now id .cancelled .null 0 0 o)
  | grow {a db} : (∀ id t, s.db.primary.row id = some t → db.primary.row id = some t) →
      Moves s a { s with db := db }

theorem moves_of_step (h : step readPool s a = some s') : Moves s a s' := by
  cases a with
  | listPending i ok =>
    simp only [step] at h
    split at h
    · refine Option.some.inj h ▸ .pass ?_
      split
      · exact pushing_resume _
      · rfl
    · cases h
  | take i v now o =>
    simp only [step] at h
    split at h
    · rename_i t rest hpc
      have hnext : upNext (s.pc i) = some t := by rw [hpc]; rfl
      split at h
      · exact Option.some.inj h ▸ .pass (pushing_resume rest)
      · exact Option.some.inj h ▸ .fail hnext ‹_› (pushing_resume rest)
      · exact Option.some.inj h ▸ .take hnext ‹_›
    · cases h
  | push i fates =>
    simp only [step] at h
    split at h
    · rename_i hpc
      exact Option.some.inj h ▸ .push (by rw [hpc]; rfl) rfl
    · cases h
  | markComplete i now o =>
    simp only [step] at h
    split at h
    · rename_i hpc
      exact Option.some.inj h ▸ .complete (by rw [hpc]; rfl) (pushing_resume _)
    · cases h
  | handleCancelTask id now o => exact Option.some.inj h ▸ .cancel
  | createCacheTask task o =>
    simp only [step] at h
    split at h
    · exact Option.some.inj h ▸ .grow fun _ _ ht => ht
    · split at h
      · rename_i hcreate
        exact Option.some.inj h ▸ .grow fun _ _ ht => Table.row_createTask hcreate ht
      · exact Option.some.inj h ▸ .grow fun _ _ ht => ht
  | replicate => exact Option.some.inj h ▸ .grow fun _ _ ht => ht

theorem step_inv (h : Inv s) (ho : Orderly s a) (hstep : step readPool s a = some s') : Inv s' := by
  cases moves_of_step hstep with
  | pass hp => exact h.goto _ hp
  | fail _ _ hp => exact (h.update _ _ (by decide) ..).goto _ hp
  | take hnext hbegun =>
    obtain ⟨hpending, hcarried⟩ := ho _ hnext _ hbegun
    exact h.take _ hpending (hcarried rfl) ..
  | push hi hp => exact h.push hi _ hp
  | complete _ hp => exact (h.update _ _ (by decide) ..).goto _ hp
  | cancel => exact h.update _ _ (by decide) ..
  | grow hrow => exact h.grow hrow

omit [DecidableEq ι] in
theorem Inv.noneAfterCancel (h : Inv s) : NoneAfterCancel s.log := by
  intro id hc
  by_contra hex
  exact h.executed_uncancelled id hex hc

omit [DecidableEq ι] in
/- A status survives an update of its task only if the update writes the same. -/
theorem status_update_of {old : TaskStatus} (hold : s.status id' = some old) (now : ℕ) (id : String)
    (result : Json) (progress done : ℤ) (h : o ≠ .refused → id' = id → st = old) :
    (updateTaskStatus s now id st result progress done o).status id' = some old := by
  rw [status_update, hold]
  split
  · rename_i hcarried
    rw [Option.map_some, h hcarried.1 hcarried.2]
  · rfl

/- Completed, failed and cancelled tasks stay so. -/
theorem step_terminal (ho : Orderly s a) (hstep : step readPool s a = some s')
    (hid : s.status id = some st) (hst : Terminal st) : s'.status id = some st := by
  -- an update that finds a status that is not final is one of another task
  have stays : ∀ {id' : String} {st' : TaskStatus}, s.status id' = some st' → ¬ Terminal st' →
      ∀ now new result progress done o,
        (updateTaskStatus s now id' new result progress done o).status id = some st := by
    intro id' st' hst' hnot now new result progress done o
    refine status_update_of hid now id' result progress done fun _ he => ?_
    rw [he, hst'] at hid
    exact absurd (Option.some.inj hid ▸ hst) hnot
  cases moves_of_step hstep with
  | pass _ => exact hid
  | fail hnext hbegun _ => exact stays (ho _ hnext _ hbegun).1 (by decide) ..
  | take hnext hbegun => exact stays (ho _ hnext _ hbegun).1 (by decide) ..
  | push _ _ => exact hid
  | complete hi _ =>
    rcases ho _ hi with rfl | hrunning
    · exact hid
    · exact stays hrunning (by decide) ..
  | cancel =>
    refine status_update_of hid _ _ .null 0 0 fun hcarried he => ?_
    rcases ho with hrefused | ⟨hcompleted, hfailed⟩
    · exact absurd hrefused hcarried
    · rw [← he, hid] at hcompleted hfailed
      rcases hst with rfl | rfl | rfl
      · exact absurd rfl hcompleted
      · exact absurd rfl hfailed
      · rfl
  | grow hrow =>
    obtain ⟨t, ht, hts⟩ := Option.map_eq_some_iff.mp hid
    exact Option.map_eq_some_iff.mpr ⟨t, hrow id t ht, hts⟩

/-- In every run whose updates find the status they should replace, from any set of tasks:
a task that is completed, failed or cancelled stays so, one cancelled while pending is not
executed, and none is executed twice. -/
theorem task_lifecycle (readPool : Bool) (db : Database) {s : State ι}
    (hr : Reach (step readPool) Orderly (start db) s) :
    (∀ s', Reach (step readPool) Orderly s s' → ∀ id st, s.status id = some st → Terminal st →
      s'.status id = some st) ∧
    NoneAfterCancel s.log ∧ ∀ id, executions id s.log ≤ 1 := by
  have h : Inv s := hr.invariant _ (start_inv db) fun _ _ _ h ho hs => step_inv h ho hs
  refine ⟨fun s' hr' id st hid hst => ?_, h.noneAfterCancel, h.once⟩
  exact hr'.invariant (fun s' => s'.status id = some st) hid
    fun _ _ _ hkept ho hs => step_terminal ho hs hkept hst

theorem two_tasks_one_cancelled : ∃ s : State (Fin 2),
    Reach (step false) Orderly (start (waitingTable "t")) s ∧
    s.status "t" = some .completed ∧ s.status "u" = some .cancelled ∧
    (∀ s', Reach (step false) Orderly s s' → ∀ id st, s.status id = some st → Terminal st →
      s'.status id = some st) ∧
    NoneAfterCancel s.log ∧ ∀ id, executions id s.log ≤ 1 := by
  let acts : List (Act (Fin 2)) := [.createCacheTask (waiting "u") .ok,
    .handleCancelTask "u" 1 .ok, .listPending 0 true] ++ executed 0
  have hguard : Guarded (step false) Orderly acts (start (waitingTable "t")) := by decide +kernel
  have hrun : (exec (step false) acts (start (waitingTable "t"))).map
      (fun s => (s.status "t", s.status "u")) = some (some .completed, some .cancelled) := by
    decide +kernel
  obtain ⟨s, hr, hview⟩ := reach_of_guarded_view hguard
    (fun s : State (Fin 2) => (s.status "t", s.status "u")) hrun
  obtain ⟨ht, hu⟩ := Prod.mk.inj hview
  exact ⟨s, hr, ht, hu, task_lifecycle false (waitingTable "t") hr⟩

end EdgeDispatch.ControlPlane.TaskRuns
