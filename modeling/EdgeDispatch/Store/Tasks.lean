import EdgeDispatch.Lib.GoJSON
import EdgeDispatch.Store.Nodes
import Mathlib.Data.List.Sort

/-! # The tasks table (internal/store/pg.go:204-218, 1404-1491)

Cache operations that the admin API has created and the task executors carry out. Reads may
go to a replica, which has the rows of an earlier moment. -/

namespace EdgeDispatch.Store.Tasks
open Lib.GoJSON Store.Nodes

inductive TaskType where
  | prewarm
  | purge
  | block
  | other (name : String)
  deriving DecidableEq

def TaskType.name : TaskType → String
  | .prewarm => "prewarm"
  | .purge => "purge"
  | .block => "block"
  | .other name => name

inductive TaskStatus where
  | pending
  | running
  | completed
  | failed
  | cancelled
  deriving DecidableEq

def TaskStatus.name : TaskStatus → String
  | .pending => "pending"
  | .running => "running"
  | .completed => "completed"
  | .failed => "failed"
  | .cancelled => "cancelled"

structure Task where
  taskID : String
  tenantID : String
  projectID : String
  creatorID : String
  type : TaskType
  status : TaskStatus
  params : Json
  result : Json
  progress : ℤ
  totalNodes : ℤ
  doneNodes : ℤ
  createdAt : ℕ
  updatedAt : ℕ

/-- `task_id` is the primary key. -/
structure Table where
  rows : List Task
  unique : (rows.map Task.taskID).Nodup

namespace Table

def row (tb : Table) (id : String) : Option Task := tb.rows.find? fun t => t.taskID = id

/-- An empty string in the query asks for everything. -/
def selected (tenantID statusFilter taskType : String) (t : Task) : Bool :=
  (tenantID = "" ∨ t.tenantID = tenantID) ∧ (statusFilter = "" ∨ t.status.name = statusFilter) ∧
    (taskType = "" ∨ t.type.name = taskType)

/- `ORDER BY created_at DESC`; rows of one moment stay in the order of the table. -/
def newestFirst (rows : List Task) : List Task :=
  rows.insertionSort fun a b => b.createdAt ≤ a.createdAt

/-- One page of the selected rows and how many there are. The database refuses a negative
LIMIT or OFFSET. -/
def listTasks (tb : Table) (tenantID statusFilter taskType : String) (limit offset : Int64) :
    Option (List Task × ℕ) :=
  let found := tb.rows.filter (selected tenantID statusFilter taskType)
  if limit < 0 ∨ offset < 0 then none
  else some (((newestFirst found).drop offset.toInt.toNat).take limit.toInt.toNat, found.length)

/- The columns that UpdateTaskStatus sets. -/
def statusSet (now : ℕ) (status : TaskStatus) (result : Json) (progress doneNodes : ℤ)
    (t : Task) : Task :=
  { t with status := status, result := result, progress := progress, doneNodes := doneNodes,
           updatedAt := now }

/- `UPDATE tasks SET ... WHERE task_id = ...` -/
def setRow (id : String) (f : Task → Task) (t : Task) : Task := if t.taskID = id then f t else t

/- A column that the update does not set. -/
theorem setRow_keeps {α : Type} (column : Task → α) (f : Task → Task)
    (hf : ∀ t, column (f t) = column t) (id : String) (t : Task) :
    column (setRow id f t) = column t := by
  rw [setRow]
  split
  · exact hf t
  · rfl

def updateTaskStatus (tb : Table) (now : ℕ) (id : String) (status : TaskStatus) (result : Json)
    (progress doneNodes : ℤ) : Table where
  rows := tb.rows.map (setRow id (statusSet now status result progress doneNodes))
  unique := by
    have same : Task.taskID ∘ setRow id (statusSet now status result progress doneNodes) =
        Task.taskID := funext (setRow_keeps Task.taskID (statusSet _ _ _ _ _) (fun _ => rfl) id)
    rw [List.map_map, same]
    exact tb.unique

/-- The insert fails if the id is taken. -/
def createTask (tb : Table) (task : Task) : Option Table :=
  if h : task.taskID ∈ tb.rows.map Task.taskID then none
  else some
    { rows := tb.rows ++ [task]
      unique := by
        rw [List.map_append, List.map_singleton, List.nodup_append]
        refine ⟨tb.unique, List.nodup_singleton _, fun a ha b hb => ?_⟩
        rw [List.mem_singleton.mp hb]
        exact fun he => h (he ▸ ha) }

theorem row_eq_some {tb : Table} {id : String} {t : Task} :
    tb.row id = some t ↔ t ∈ tb.rows ∧ t.taskID = id := by
  constructor
  · intro h
    exact ⟨List.mem_of_find?_eq_some h, by simpa using List.find?_some h⟩
  · rintro ⟨hmem, hid⟩
    cases hrow : tb.row id with
    | none =>
      have hnone := List.find?_eq_none.mp hrow t hmem
      exact absurd hid (by simpa using hnone)
    | some u =>
      have hu : u ∈ tb.rows := List.mem_of_find?_eq_some hrow
      have hid' : u.taskID = id := by simpa using List.find?_some hrow
      rw [List.inj_on_of_nodup_map tb.unique hu hmem (hid'.trans hid.symm)]

theorem row_updateTaskStatus (tb : Table) (now : ℕ) (id : String) (status : TaskStatus)
    (result : Json) (progress doneNodes : ℤ) (id' : String) :
    (tb.updateTaskStatus now id status result progress doneNodes).row id' =
      (tb.row id').map (setRow id (statusSet now status result progress doneNodes)) := by
  have same : (fun t : Task => decide (t.taskID = id')) ∘
      setRow id (statusSet now status result progress doneNodes) =
      fun t : Task => decide (t.taskID = id') := by
    funext t
    have hid := setRow_keeps Task.taskID (statusSet now status result progress doneNodes)
      (fun _ => rfl) id t
    simp only [Function.comp, hid]
  exact List.find?_map.trans (congrArg _ (congrArg (List.find? · tb.rows) same))

theorem row_createTask {tb tb' : Table} {task : Task} (h : tb.createTask task = some tb')
    {id : String} {t : Task} (ht : tb.row id = some t) : tb'.row id = some t := by
  unfold createTask at h
  split at h
  · cases h
  · obtain ⟨hmem, hid⟩ := row_eq_some.mp ht
    exact row_eq_some.mpr ⟨Option.some.inj h ▸ List.mem_append_left _ hmem, hid⟩

end Table

/-- The primary and a replica of it. -/
structure Database where
  primary : Table
  replica : Table

/- `readPoolOrPrimary` -/
def Database.reading (db : Database) (readPool : Bool) : Table :=
  if readPool then db.replica else db.primary

end EdgeDispatch.Store.Tasks
