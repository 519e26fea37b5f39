import EdgeDispatch.ControlPlane.TaskRuns

/-! # The counters of a task

`total_nodes` and `done_nodes` of a purge or prewarm task, as the executors write them
(internal/controlplane/task_executor.go:96-287; store/pg.go:1404-1418, 1485-1491;
admin_api.go:1164-1194), with the answers of the nodes. The runs are those of the executors;
beside the database stands what was pushed and answered. -/

namespace EdgeDispatch.ControlPlane.TaskCounters
open Lib.Transition Lib.GoJSON Store.Tasks
open Store.Nodes (Outcome)
open ControlPlane.Scoring (Node)
open ControlPlane.TaskRuns (CacheOp NodeView State Act Pc Begun executeTask upNext
  finishing doneNodes)

/-! ### What a node answers -/

structure KeyResult where
  key : String
  status : String
  size : ℤ
  error : String

structure Response where
  total : ℤ
  results : List KeyResult

def prewarmPath : String := "/internal/push/prewarm"

/- Only the answer to a prewarm has sizes. -/
def decodeResult (op : CacheOp) : Json → Option KeyResult
  | .null => some ⟨"", "", 0, ""⟩
  | .obj members => do
    let key ← field "key" decodeString "" members
    let status ← field "status" decodeString "" members
    let size ← if op.path = prewarmPath then field "size" decodeInt 0 members else some 0
    let error ← field "error" decodeString "" members
    return ⟨key, status, size, error⟩
  | _ => none

def decodeResponse (op : CacheOp) : Json → Option Response
  | .null => some ⟨0, []⟩
  | .obj members => do
    let total ← field "total" decodeInt 0 members
    let results ← field "results" (decodeList (decodeResult op)) [] members
    return ⟨total, results⟩
  | _ => none

/-- The body of an answer and its first 65536 bytes, as JSON if they are. Its HTTP status is
not looked at. -/
structure Reply where
  whole : Option Json
  limited : Option Json

/- For each goroutine: `none` where it cannot make its request, `some none` where that fails. -/
abbrev Replies := ℕ → Option (Option Reply)

/- The goroutine of a node counts it. -/
def readable (op : CacheOp) (reply : Option Reply) : Bool :=
  ((reply.bind Reply.limited).bind (decodeResponse op)).isSome

/- The word for success in the edge's answer (edgeagent/server.go:714-805). -/
def successStatus (op : CacheOp) : String := if op.path = prewarmPath then "cached" else "purged"

def reports (op : CacheOp) (keys : List String) (r : Response) : Bool :=
  keys.all fun key => r.results.any fun x => x.key = key && x.status = successStatus op

/-- What an executor asked the nodes for one task, and what they answered. -/
structure Sent where
  op : CacheOp
  keys : List String
  targets : List Node
  replies : Replies

def Sent.counted (p : Sent) : ℕ :=
  doneNodes (fun j => (p.replies j).map (readable p.op)) p.targets

/-- The nodes that report success for every key. -/
def Sent.succeeded (p : Sent) : ℕ :=
  p.targets.zipIdx.countP fun x => decide (x.1.endpoints ≠ []) &&
    ((((p.replies x.2).join.bind Reply.whole).bind (decodeResponse p.op)).any
      (reports p.op p.keys))

/-! ### Runs -/

/-- `pushed` is the last push of an executor, `completed` the one that completed a task. -/
structure Watched (ι : Type) where
  state : State ι
  pushed : ι → Option Sent
  completed : String → Option Sent

inductive Action (ι : Type) where
  | listPending (i : ι) (ok : Bool)
  | take (i : ι) (v : NodeView) (now : ℕ) (o : Outcome)
  | push (i : ι) (replies : Replies)
  | markComplete (i : ι) (now : ℕ) (o : Outcome)
  | handleCancelTask (taskID : String) (now : ℕ) (o : Outcome)
  | createCacheTask (taskID tenantID creatorID : String) (type : TaskType) (params : Json)
      (now : ℕ) (o : Outcome)
  | replicate

variable {ι : Type} [DecidableEq ι]

/- The push that an executor is about to send. -/
def pushOf (replies : Replies) : Pc → Option Sent
  | .pushing _ op keys targets _ => some ⟨op, keys, targets, replies⟩
  | _ => none

/- The handler leaves the counters of a new task at zero. -/
def newTask (taskID tenantID creatorID : String) (type : TaskType) (params : Json) (now : ℕ) :
    Task :=
  { taskID, tenantID, projectID := "", creatorID, type, status := .pending, params, result := .null,
    progress := 0, totalNodes := 0, doneNodes := 0, createdAt := now, updatedAt := now }

def act (s : State ι) : Action ι → Act ι
  | .listPending i ok => .listPending i ok
  | .take i v now o => .take i v now o
  | .push i replies => .push i fun j =>
      (pushOf replies (s.pc i)).bind fun p => (replies j).map (readable p.op)
  | .markComplete i now o => .markComplete i now o
  | .handleCancelTask id now o => .handleCancelTask id now o
  | .createCacheTask id tenant creator type params now o =>
      .createCacheTask (newTask id tenant creator type params now) o
  | .replicate => .replicate

def pushedAfter (w : Watched ι) : Action ι → ι → Option Sent
  | .push i replies => Function.update w.pushed i (pushOf replies (w.state.pc i))
  | _ => w.pushed

def completedAfter (w : Watched ι) : Action ι → String → Option Sent
  | .markComplete i _ o =>
    match finishing (w.state.pc i) with
    | some id => if o = .refused then w.completed else Function.update w.completed id (w.pushed i)
    | none => w.completed
  | _ => w.completed

def step (readPool : Bool) (w : Watched ι) (a : Action ι) : Option (Watched ι) :=
  (TaskRuns.step readPool w.state (act w.state a)).map fun s =>
    ⟨s, pushedAfter w a, completedAfter w a⟩

def start (db : Database) : Watched ι := ⟨TaskRuns.start db, fun _ => none, fun _ => none⟩

/-! ### What is asked of the rows -/

def IsPush (row : Task) : Prop := row.type = .purge ∨ row.type = .prewarm

instance (row : Task) : Decidable (IsPush row) := inferInstanceAs (Decidable (_ ∨ _))

def RowTruthful (completed : String → Option Sent) (row : Task) : Prop :=
  IsPush row → 0 ≤ row.doneNodes ∧ row.doneNodes ≤ row.totalNodes ∧
    (row.status = .completed → ∃ p, completed row.taskID = some p ∧
      row.doneNodes = p.succeeded)

def Truthful (w : Watched ι) : Prop :=
  ∀ row ∈ w.state.db.primary.rows, RowTruthful w.completed row

/- Tasks that no executor has completed, with counters that may stand. -/
def Fresh (db : Database) : Prop :=
  ∀ row ∈ db.primary.rows, 0 ≤ row.doneNodes ∧ row.doneNodes ≤ row.totalNodes ∧
    row.status ≠ .completed

def targetsOf : Begun → Option (List Node)
  | .push _ _ targets => some targets
  | .failed => none

/-- A task that is taken up has room for its targets in `total_nodes`; a task that is completed
has room for the answers that could be read, and as many of them as could be read report
success for every key. -/
def Counted (w : Watched ι) : Action ι → Prop
  | .take i v _ o => o ≠ .refused → ∀ t ∈ upNext (w.state.pc i), ∀ b ∈ executeTask v t,
      ∀ targets ∈ targetsOf b, ∀ row ∈ w.state.db.primary.row t.taskID,
        IsPush row → (targets.length : ℤ) ≤ row.totalNodes
  | .markComplete i _ o => o ≠ .refused → ∀ id ∈ finishing (w.state.pc i),
      ∀ row ∈ w.state.db.primary.row id, IsPush row → ∀ p ∈ w.pushed i,
        (p.counted : ℤ) ≤ row.totalNodes ∧ p.counted = p.succeeded
  | _ => True

instance (w : Watched ι) : ∀ a, Decidable (Counted w a)
  | .take i v _ o => inferInstanceAs (Decidable (o ≠ .refused → ∀ t ∈ upNext (w.state.pc i),
      ∀ b ∈ executeTask v t, ∀ targets ∈ targetsOf b, ∀ row ∈ w.state.db.primary.row t.taskID,
        IsPush row → (targets.length : ℤ) ≤ row.totalNodes))
  | .markComplete i _ o => inferInstanceAs (Decidable (o ≠ .refused →
      ∀ id ∈ finishing (w.state.pc i), ∀ row ∈ w.state.db.primary.row id, IsPush row →
        ∀ p ∈ w.pushed i, (p.counted : ℤ) ≤ row.totalNodes ∧ p.counted = p.succeeded))
  | .listPending .. | .push .. | .handleCancelTask .. | .createCacheTask .. | .replicate =>
    isTrue trivial

/-! ### One write -/

section Write
variable {completed completed' : String → Option Sent} {id : String}

theorem truthful_updateTaskStatus {tb : Table} (h : ∀ row ∈ tb.rows, RowTruthful completed row)
    (hother : ∀ id' ≠ id, completed' id' = completed id') (now : ℕ) (st : TaskStatus)
    (result : Json) (progress done : ℤ) :
    (∀ row ∈ (tb.updateTaskStatus now id st result progress done).rows,
      RowTruthful completed' row) ↔
      ∀ row ∈ tb.row id, IsPush row → 0 ≤ done ∧ done ≤ row.totalNodes ∧
        (st = .completed → ∃ p, completed' id = some p ∧ done = p.succeeded) := by
  rw [show (tb.updateTaskStatus now id st result progress done).rows =
    tb.rows.map (Table.setRow id (Table.statusSet now st result progress done)) from rfl,
    List.forall_mem_map]
  constructor
  · intro hrows row hrow
    obtain ⟨hmem, rfl⟩ := Table.row_eq_some.mp hrow
    have hset := hrows row hmem
    rwa [Table.setRow, if_pos rfl] at hset
  · intro hwrite row hmem
    by_cases hid : row.taskID = id
    · have hset := hwrite row (Table.row_eq_some.mpr ⟨hmem, hid⟩)
      rw [Table.setRow, if_pos hid]
      subst hid
      exact hset
    · rw [Table.setRow, if_neg hid]
      intro hpush
      rw [hother _ hid]
      exact h row hmem hpush

omit [DecidableEq ι] in
/-- A write keeps the counters truthful iff it is refused or what it writes is true of its row. -/
theorem truthful_write {s : State ι} (h : ∀ row ∈ s.db.primary.rows, RowTruthful completed row)
    (hother : ∀ id' ≠ id, completed' id' = completed id') {o : Outcome}
    (hrefused : o = .refused → completed' = completed) (now : ℕ) (st : TaskStatus)
    (result : Json) (progress done : ℤ) :
    (∀ row ∈ (TaskRuns.updateTaskStatus s now id st result progress done o).db.primary.rows,
      RowTruthful completed' row) ↔
      (o ≠ .refused → ∀ row ∈ s.db.primary.row id, IsPush row → 0 ≤ done ∧ done ≤ row.totalNodes ∧
        (st = .completed → ∃ p, completed' id = some p ∧ done = p.succeeded)) := by
  cases o with
  | refused =>
    rw [hrefused rfl]
    exact iff_of_true h fun hne => absurd rfl hne
  | ok =>
    rw [← truthful_updateTaskStatus h hother now st result progress done]
    exact ⟨fun hrows _ => hrows, fun hrows => hrows (by decide)⟩
  | lost =>
    rw [← truthful_updateTaskStatus h hother now st result progress done]
    exact ⟨fun hrows _ => hrows, fun hrows => hrows (by decide)⟩

omit [DecidableEq ι] in
/- A write of zero, for a task that is not completed. -/
theorem truthful_write_zero {s : State ι}
    (h : ∀ row ∈ s.db.primary.rows, RowTruthful completed row) (id : String) (o : Outcome)
    (now : ℕ) {st : TaskStatus} (hst : st ≠ .completed) :
    ∀ row ∈ (TaskRuns.updateTaskStatus s now id st .null 0 0 o).db.primary.rows,
      RowTruthful completed row := by
  rw [truthful_write h (fun _ _ => rfl) fun _ => rfl]
  intro _ row hrow hpush
  obtain ⟨hlow, hhigh, -⟩ := h row (Table.row_eq_some.mp hrow).1 hpush
  exact ⟨Int.le_refl 0, Int.le_trans hlow hhigh, fun he => absurd he hst⟩

end Write

/-! ### One action -/

/- An executor that is about to complete a task has counted the answers to its last push. -/
def LinkedPc (pushed : Option Sent) (pc : Pc) : Prop :=
  ∀ t result progress done rest, pc = .finishing t result progress done rest →
    ∃ p, pushed = some p ∧ done = p.counted

def Linked (w : Watched ι) : Prop := ∀ i, LinkedPc (w.pushed i) (w.state.pc i)

theorem linkedPc_idle (pushed : Option Sent) : LinkedPc pushed .idle := by
  intro t result progress done rest h
  cases h

theorem linkedPc_resume (pushed : Option Sent) (todo : List Task) :
    LinkedPc pushed (TaskRuns.resume todo) := by
  intro t result progress done rest h
  cases todo <;> cases h

theorem linked_update {w : Watched ι} (h : Linked w) (i : ι) {pc : Pc}
    (hpc : LinkedPc (w.pushed i) pc) (j : ι) :
    LinkedPc (w.pushed j) (Function.update w.state.pc i pc j) := by
  by_cases hj : j = i
  · subst hj
    rwa [Function.update_self]
  · rw [Function.update_of_ne hj]
    exact h j

omit [DecidableEq ι] in
theorem pc_updateTaskStatus (s : State ι) (now : ℕ) (id : String) (st : TaskStatus) (result : Json)
    (progress done : ℤ) (o : Outcome) :
    (TaskRuns.updateTaskStatus s now id st result progress done o).pc = s.pc := by
  cases o <;> rfl

section Step
variable {readPool : Bool} {w w' : Watched ι} (hT : Truthful w) (hL : Linked w)
include hT hL

variable {i : ι} {o : Outcome}

theorem listPending_spec {ok : Bool} (h : step readPool w (.listPending i ok) = some w') :
    Truthful w' ∧ Linked w' := by
  obtain ⟨s, hs, rfl⟩ := Option.map_eq_some_iff.mp h
  simp only [act, TaskRuns.step] at hs
  split at hs
  · obtain rfl := Option.some.inj hs
    refine ⟨hT, linked_update hL i ?_⟩
    split
    · exact linkedPc_resume _ _
    · exact linkedPc_idle _
  · cases hs

theorem take_spec {v : NodeView} {now : ℕ} (h : step readPool w (.take i v now o) = some w') :
    (Truthful w' ↔ Counted w (.take i v now o)) ∧ Linked w' := by
  obtain ⟨s, hs, rfl⟩ := Option.map_eq_some_iff.mp h
  simp only [act, TaskRuns.step] at hs
  split at hs
  · rename_i t rest hpc
    have hnext : upNext (w.state.pc i) = some t := by
      rw [hpc]
      rfl
    split at hs
    · -- a task of unknown type
      rename_i hbegun
      obtain rfl := Option.some.inj hs
      refine ⟨iff_of_true hT fun _ t' ht' b hb => ?_, linked_update hL i (linkedPc_resume _ _)⟩
      cases hnext.symm.trans ht'
      cases hbegun.symm.trans hb
    · rename_i hbegun
      obtain rfl := Option.some.inj hs
      refine ⟨iff_of_true ?_ fun _ t' ht' b hb targets htargets => ?_, ?_⟩
      · exact truthful_write_zero hT t.taskID o now (show TaskStatus.failed ≠ .completed by decide)
      · cases hnext.symm.trans ht'
        cases hbegun.symm.trans hb
        cases htargets
      · intro j
        simp only [TaskRuns.goto, pc_updateTaskStatus]
        exact linked_update hL i (linkedPc_resume _ _) j
    · rename_i op keys targets hbegun
      obtain rfl := Option.some.inj hs
      constructor
      · refine (truthful_write hT (fun _ _ => rfl) (fun _ => rfl) now .running .null 0 _).trans ?_
        constructor
        · intro hwrite ho t' ht' b hb targets' htargets row hrow hpush
          cases hnext.symm.trans ht'
          cases hbegun.symm.trans hb
          cases htargets
          exact (hwrite ho row hrow hpush).2.1
        · intro hcounted ho row hrow hpush
          have hle := hcounted ho t hnext _ hbegun targets rfl row hrow hpush
          exact ⟨Int.natCast_nonneg _, hle, fun he => TaskStatus.noConfusion he⟩
      · intro j
        simp only [TaskRuns.goto, pc_updateTaskStatus]
        refine linked_update hL i ?_ j
        rintro _ _ _ _ _ ⟨⟩
  · cases hs

theorem push_spec {replies : Replies} (h : step readPool w (.push i replies) = some w') :
    Truthful w' ∧ Linked w' := by
  obtain ⟨s, hs, rfl⟩ := Option.map_eq_some_iff.mp h
  simp only [act, TaskRuns.step] at hs
  split at hs
  · rename_i t op keys targets rest hpc
    obtain rfl := Option.some.inj hs
    refine ⟨hT, fun j => ?_⟩
    by_cases hj : j = i
    · subst hj
      simp only [pushedAfter, TaskRuns.goto, Function.update_self, hpc, pushOf]
      rintro _ _ _ _ _ ⟨⟩
      exact ⟨_, rfl, rfl⟩
    · simp only [pushedAfter, TaskRuns.goto, Function.update_of_ne hj]
      exact hL j
  · cases hs

theorem markComplete_spec {now : ℕ} (h : step readPool w (.markComplete i now o) = some w') :
    (Truthful w' ↔ Counted w (.markComplete i now o)) ∧ Linked w' := by
  obtain ⟨s, hs, rfl⟩ := Option.map_eq_some_iff.mp h
  simp only [act, TaskRuns.step] at hs
  split at hs
  · rename_i t result progress done rest hpc
    obtain rfl := Option.some.inj hs
    obtain ⟨p, hp, rfl⟩ := hL i t result progress done rest hpc
    have hid : finishing (w.state.pc i) = some t.taskID := by
      rw [hpc]
      rfl
    have hcompleted : completedAfter w (.markComplete i now o) =
        if o = .refused then w.completed
        else Function.update w.completed t.taskID (some p) := by
      simp only [completedAfter, hid, hp]
    have hset : o ≠ .refused → completedAfter w (.markComplete i now o) t.taskID = some p :=
      fun ho => by rw [hcompleted, if_neg ho, Function.update_self]
    constructor
    · refine (truthful_write hT ?_ ?_ now .completed result progress _).trans ?_
      · intro id hne
        rw [hcompleted]
        split
        · rfl
        · exact Function.update_of_ne hne _ _
      · intro ho
        rw [hcompleted, if_pos ho]
      · constructor
        · intro hwrite ho id hid' row hrow hpush p' hp'
          cases hid.symm.trans hid'
          cases hp.symm.trans hp'
          obtain ⟨-, hle, hsame⟩ := hwrite ho row hrow hpush
          obtain ⟨q, hq, hcount⟩ := hsame rfl
          cases (hset ho).symm.trans hq
          exact ⟨hle, Int.natCast_inj.mp hcount⟩
        · intro hcounted ho row hrow hpush
          obtain ⟨hle, hsame⟩ := hcounted ho _ hid row hrow hpush p hp
          exact ⟨Int.natCast_nonneg _, hle, fun _ => ⟨p, hset ho, congrArg _ hsame⟩⟩
    · intro j
      simp only [TaskRuns.goto, pc_updateTaskStatus]
      exact linked_update hL i (linkedPc_resume _ _) j
  · cases hs

theorem createCacheTask_spec {taskID tenantID creatorID : String} {type : TaskType} {params : Json}
    {now : ℕ}
    (h : step readPool w (.createCacheTask taskID tenantID creatorID type params now o) = some w') :
    Truthful w' ∧ Linked w' := by
  obtain ⟨s, hs, rfl⟩ := Option.map_eq_some_iff.mp h
  simp only [act, TaskRuns.step] at hs
  split at hs
  · obtain rfl := Option.some.inj hs
    exact ⟨hT, hL⟩
  · split at hs
    · rename_i tb hcreate
      obtain rfl := Option.some.inj hs
      refine ⟨fun row hrow => ?_, hL⟩
      unfold Table.createTask at hcreate
      split at hcreate
      · cases hcreate
      · obtain rfl := Option.some.inj hcreate
        rcases List.mem_append.mp hrow with hold | hnew
        · exact hT row hold
        · rw [List.mem_singleton.mp hnew]
          exact fun _ => ⟨Int.le_refl 0, Int.le_refl 0, fun he => TaskStatus.noConfusion he⟩
    · obtain rfl := Option.some.inj hs
      exact ⟨hT, hL⟩

theorem step_truthful_iff {a : Action ι} (h : step readPool w a = some w') :
    (Truthful w' ↔ Counted w a) ∧ Linked w' := by
  cases a with
  | listPending i ok =>
    obtain ⟨hT', hL'⟩ := listPending_spec hT hL h
    exact ⟨iff_of_true hT' trivial, hL'⟩
  | take i v now o => exact take_spec hT hL h
  | push i replies =>
    obtain ⟨hT', hL'⟩ := push_spec hT hL h
    exact ⟨iff_of_true hT' trivial, hL'⟩
  | markComplete i now o => exact markComplete_spec hT hL h
  | handleCancelTask id now o =>
    obtain ⟨s, hs, rfl⟩ := Option.map_eq_some_iff.mp h
    obtain rfl := Option.some.inj hs
    have hzero := truthful_write_zero hT id o now (show TaskStatus.cancelled ≠ .completed by decide)
    refine ⟨iff_of_true hzero trivial, fun i => ?_⟩
    rw [pc_updateTaskStatus]
    exact hL i
  | createCacheTask taskID tenantID creatorID type params now o =>
    obtain ⟨hT', hL'⟩ := createCacheTask_spec hT hL h
    exact ⟨iff_of_true hT' trivial, hL'⟩
  | replicate =>
    obtain ⟨s, hs, rfl⟩ := Option.map_eq_some_iff.mp h
    obtain rfl := Option.some.inj hs
    exact ⟨iff_of_true hT trivial, hL⟩

end Step

/-- Any executors and requests, any nodes and answers: the counters are truthful all along a run
iff each task has room for its targets when it is taken up and for the answers when it is
completed, and as many answers report success as can be read. -/
theorem counters_truthful_iff (readPool : Bool) {db : Database} (hdb : Fresh db)
    {actions : List (Action ι)} {w : Watched ι}
    (hrun : exec (step readPool) actions (start db) = some w) :
    (∀ u ∈ visited (step readPool) actions (start db), Truthful u) ↔
      Guarded (step readPool) Counted actions (start db) := by
  refine forall_visited_iff_guarded_of (P := fun w => Truthful w ∧ Linked w)
    (Q := fun _ => True) hrun ⟨fun row hrow _ => ?_, fun _ => linkedPc_idle _⟩ (fun _ h => h.1)
    (fun _ _ => trivial) ?_
  · obtain ⟨hlow, hhigh, hst⟩ := hdb row hrow
    exact ⟨hlow, hhigh, fun he => absurd he hst⟩
  · rintro w a w' - ⟨hT, hL⟩ hstep
    obtain ⟨hiff, hL'⟩ := step_truthful_iff hT hL hstep
    exact ⟨hiff.mp, fun hcounted => ⟨hiff.mpr hcounted, hL'⟩⟩

/- A node that answers for the key `k` with the given status. -/
def answering (status : String) : Replies := fun _ =>
  let body : Json := .obj [("total", .num 1),
    ("results", .arr [.obj [("key", .str "k"), ("status", .str status)]])]
  some (some ⟨some body, some body⟩)

def oneExecution (status : String) : List (Action Unit) :=
  [.listPending () true, .take () TaskRuns.oneNode 2 .ok, .push () (answering status),
    .markComplete () 3 .ok]

/- A task that was created with its number of nodes. -/
def roomy : Database :=
  ⟨⟨[{ TaskRuns.waiting "t" with totalNodes := 1 }], List.nodup_singleton _⟩,
    ⟨[], List.nodup_nil⟩⟩

theorem counters_truthful_with_room :
    (exec (step false) (oneExecution "purged") (start roomy)).isSome = true ∧
      ∀ u ∈ visited (step false) (oneExecution "purged") (start roomy), Truthful u := by
  have hsome : (exec (step false) (oneExecution "purged") (start roomy)).isSome = true := by
    decide +kernel
  obtain ⟨w, hw⟩ := Option.isSome_iff_exists.mp hsome
  have hfresh : Fresh roomy := fun row hrow => by
    rw [List.mem_singleton.mp hrow]
    exact ⟨by decide, by decide, by decide⟩
  exact ⟨hsome, (counters_truthful_iff false hfresh hw).mpr (by decide +kernel)⟩

def noTasks : Database := ⟨⟨[], List.nodup_nil⟩, ⟨[], List.nodup_nil⟩⟩

def created : List (Action Unit) :=
  .createCacheTask "t" "" "" .purge (TaskRuns.waiting "t").params 1 .ok :: oneExecution "failed"

def counters (w : Watched Unit) : List (TaskStatus × ℤ × ℤ) :=
  w.state.db.primary.rows.map fun row => (row.status, row.totalNodes, row.doneNodes)

/-- A purge as the API creates it, of one node: while it runs, one of no nodes is done; and it is
completed with one node done, although that node has failed. -/
theorem counters_of_failed_purge :
    (exec (step false) (created.take 3) (start noTasks)).map counters = some [(.running, 0, 1)] ∧
      (exec (step false) created (start noTasks)).map (fun w =>
        (counters w, (w.completed "t").map Sent.succeeded)) =
        some ([(.completed, 0, 1)], some 0) := by
  decide +kernel

end EdgeDispatch.ControlPlane.TaskCounters
