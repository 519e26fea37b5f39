import EdgeDispatch.Store.Tasks

/-! # Tasks of one tenant and of the others (internal/controlplane/admin_api.go:1210-1263)

The list, get and cancel requests of an actor, on two databases that may differ in the
tasks of other tenants. Listing filters by the actor's tenant; the other two requests go by
the task's id alone. -/

namespace EdgeDispatch.ControlPlane.TaskIsolation
open Lib.GoJSON Store.Tasks Store.Nodes

/-- `limit` and `offset` are what Atoi returned; `now` is the database's clock. -/
inductive Request where
  | list (statusFilter taskType : String) (limit offset : Int64)
  | get (taskID : String)
  | cancel (taskID : String) (now : ℕ)

inductive Response where
  | page (data : List Task) (total : ℕ) (limit offset : Int64) (hasMore : Bool)
  | task (t : Task)
  | canceled (taskID : String)
  | error (status : ℕ) (code message : String)

def pageLimit (limit : Int64) : Int64 := if limit ≤ 0 then 50 else limit

/- What the handler makes of the store's answer. -/
def listResponse (limit offset : Int64) : Option (List Task × ℕ) → Response
  | none => .error 500 "LIST_FAILED" "failed to list tasks"
  | some (tasks, total) => .page tasks total limit offset (offset + limit < Int64.ofNat total)

def handleListTasks (tb : Table) (ok : Bool) (tenantID statusFilter taskType : String)
    (limit offset : Int64) : Response :=
  listResponse (pageLimit limit) offset (if ok then
    tb.listTasks tenantID statusFilter taskType (pageLimit limit) offset else none)

def getResponse : Option Task → Response
  | none => .error 404 "NOT_FOUND" "task not found"
  | some t => .task t

def handleGetTask (tb : Table) (ok : Bool) (taskID : String) : Response :=
  getResponse (if ok then tb.row taskID else none)

def cancelRow (now : ℕ) : Task → Task := Table.statusSet now .cancelled .null 0 0

def cancelTask (tb : Table) (now : ℕ) (taskID : String) : Table :=
  tb.updateTaskStatus now taskID .cancelled .null 0 0

def handleCancelTask (taskID : String) : Outcome → Response
  | .ok => .canceled taskID
  | _ => .error 500 "CANCEL_FAILED" "failed to cancel task"

/- The replica catches up between requests. -/
inductive Event where
  | request (r : Request) (o : Outcome)
  | replicate

def respond (readPool : Bool) (tenantID : String) (db : Database) : Event → Option Response
  | .request (.list statusFilter taskType limit offset) o =>
    some (handleListTasks (db.reading readPool) (o = .ok) tenantID statusFilter taskType limit offset)
  | .request (.get taskID) o => some (handleGetTask (db.reading readPool) (o = .ok) taskID)
  | .request (.cancel taskID _) o => some (handleCancelTask taskID o)
  | .replicate => none

def next (db : Database) : Event → Database
  | .request (.cancel taskID now) o =>
    if o = .refused then db else { db with primary := cancelTask db.primary now taskID }
  | .replicate => { db with replica := db.primary }
  | _ => db

/-! ### Isolation -/

def ownRows (A : String) (tb : Table) : List Task := tb.rows.filter fun t => t.tenantID = A

def otherRows (A : String) (tb : Table) : List Task := tb.rows.filter fun t => t.tenantID ≠ A

/-- The databases agree on the tasks of tenant `A`. -/
structure Agree (A : String) (d₁ d₂ : Database) : Prop where
  primary : ownRows A d₁.primary = ownRows A d₂.primary
  replica : ownRows A d₁.replica = ownRows A d₂.replica

/- One step: the same answer from both, and the rows of the other tenants as they were. -/
def StepIsolated (readPool : Bool) (A : String) (d₁ d₂ : Database) (e : Event) : Prop :=
  respond readPool A d₁ e = respond readPool A d₂ e ∧
    otherRows A (next d₁ e).primary = otherRows A d₁.primary ∧
    otherRows A (next d₂ e).primary = otherRows A d₂.primary

/-- A condition on each step of two runs side by side. -/
def Along (cond : Database → Database → Event → Prop) : List Event → Database → Database → Prop
  | [], _, _ => True
  | e :: rest, d₁, d₂ => cond d₁ d₂ e ∧ Along cond rest (next d₁ e) (next d₂ e)

/-- An actor of tenant `A` learns nothing of the other tenants' tasks and changes none. -/
def Isolated (readPool : Bool) (A : String) : List Event → Database → Database → Prop :=
  Along (StepIsolated readPool A)

/- The task of that id, if it is another tenant's. -/
def foreignRow (A : String) (tb : Table) (id : String) : Option Task :=
  (tb.row id).filter fun t => t.tenantID ≠ A

/-- When one step keeps to the tenant: a list by an actor with a tenant, a get that finds no
other tenant's task or the same one, a cancel that finds none or one it leaves as it is. -/
def Confined (readPool : Bool) (A : String) (d₁ d₂ : Database) : Event → Prop
  | .request (.list statusFilter taskType limit offset) o => o = .ok → A = "" →
      (d₁.reading readPool).listTasks "" statusFilter taskType (pageLimit limit) offset =
        (d₂.reading readPool).listTasks "" statusFilter taskType (pageLimit limit) offset
  | .request (.get taskID) o => o = .ok →
      foreignRow A (d₁.reading readPool) taskID = foreignRow A (d₂.reading readPool) taskID
  | .request (.cancel taskID now) o => o ≠ .refused → ∀ t,
      foreignRow A d₁.primary taskID = some t ∨ foreignRow A d₂.primary taskID = some t →
        cancelRow now t = t
  | .replicate => True

variable {A : String} {readPool : Bool}

theorem listTasks_own (hA : A ≠ "") {t₁ t₂ : Table} (h : ownRows A t₁ = ownRows A t₂)
    (statusFilter taskType : String) (limit offset : Int64) :
    t₁.listTasks A statusFilter taskType limit offset =
      t₂.listTasks A statusFilter taskType limit offset := by
  have found : ∀ tb : Table, tb.rows.filter (Table.selected A statusFilter taskType) =
      (ownRows A tb).filter (Table.selected "" statusFilter taskType) := by
    intro tb
    rw [ownRows, List.filter_filter]
    apply List.filter_congr
    intro t _
    simp [Table.selected, hA, Bool.and_comm]
  simp only [Table.listTasks, found, h]

theorem listResponse_inj {limit offset : Int64} {a b : Option (List Task × ℕ)}
    (h : listResponse limit offset a = listResponse limit offset b) : a = b := by
  cases a <;> cases b <;> simp_all [listResponse, Prod.ext_iff]

theorem getResponse_inj {a b : Option Task} (h : getResponse a = getResponse b) : a = b := by
  cases a <;> cases b <;> simp_all [getResponse]

/- By their ids the tenant's own rows are found alike. -/
theorem ownRow_eq {t₁ t₂ : Table} (h : ownRows A t₁ = ownRows A t₂) (id : String) :
    (t₁.row id).filter (fun t => t.tenantID = A) = (t₂.row id).filter (fun t => t.tenantID = A) := by
  have own : ∀ (tb : Table) (t : Task), (tb.row id).filter (fun t => t.tenantID = A) = some t ↔
      t ∈ ownRows A tb ∧ t.taskID = id := by
    intro tb t
    rw [Option.filter_eq_some_iff, Table.row_eq_some, ownRows, List.mem_filter]
    tauto
  ext t
  rw [own t₁ t, own t₂ t, h]

theorem row_eq_iff {t₁ t₂ : Table} (h : ownRows A t₁ = ownRows A t₂) (id : String) :
    t₁.row id = t₂.row id ↔ foreignRow A t₁ id = foreignRow A t₂ id := by
  have parts : ∀ (tb : Table) (t : Task), tb.row id = some t ↔
      (tb.row id).filter (fun t => t.tenantID = A) = some t ∨ foreignRow A tb id = some t := by
    intro tb t
    simp only [foreignRow, Option.filter_eq_some_iff, decide_eq_true_eq]
    tauto
  constructor
  · intro he
    rw [foreignRow, foreignRow, he]
  · intro hf
    ext t
    rw [parts t₁ t, parts t₂ t, ownRow_eq h id, hf]

theorem filter_cancel (p : String → Bool) (tb : Table) (now : ℕ) (id : String) :
    (cancelTask tb now id).rows.filter (fun t => p t.tenantID) =
      (tb.rows.filter fun t => p t.tenantID).map (Table.setRow id (cancelRow now)) := by
  have same : (fun t : Task => p t.tenantID) ∘ Table.setRow id (cancelRow now) =
      fun t => p t.tenantID := by
    funext t
    exact congrArg p (Table.setRow_keeps Task.tenantID (cancelRow now) (fun _ => rfl) id t)
  exact List.filter_map.trans (congrArg _ (congrArg (List.filter · tb.rows) same))

theorem otherRows_cancel (A : String) (tb : Table) (now : ℕ) (id : String) :
    otherRows A (cancelTask tb now id) = otherRows A tb ↔
      ∀ t, foreignRow A tb id = some t → cancelRow now t = t := by
  have mapped : otherRows A (cancelTask tb now id) =
      (otherRows A tb).map (Table.setRow id (cancelRow now)) :=
    filter_cancel (fun T => T ≠ A) tb now id
  have unmapped : otherRows A tb = (otherRows A tb).map (fun t => t) := (List.map_id' _).symm
  have foreign : ∀ t, foreignRow A tb id = some t ↔ t ∈ otherRows A tb ∧ t.taskID = id := by
    intro t
    rw [foreignRow, Option.filter_eq_some_iff, Table.row_eq_some, otherRows, List.mem_filter]
    tauto
  rw [mapped]
  nth_rewrite 2 [unmapped]
  rw [List.map_inj_left]
  constructor
  · intro h t ht
    obtain ⟨hmem, hid⟩ := (foreign t).mp ht
    have hset := h t hmem
    rwa [Table.setRow, if_pos hid] at hset
  · intro h t hmem
    rw [Table.setRow]
    split
    · rename_i hid
      exact h t ((foreign t).mpr ⟨hmem, hid⟩)
    · rfl

theorem Agree.reading {d₁ d₂ : Database} (h : Agree A d₁ d₂) (readPool : Bool) :
    ownRows A (d₁.reading readPool) = ownRows A (d₂.reading readPool) := by
  cases readPool with
  | false => exact h.primary
  | true => exact h.replica

/- Whatever the actor does, the databases go on to agree on the actor's tenant. -/
theorem Agree.next {d₁ d₂ : Database} (h : Agree A d₁ d₂) (e : Event) :
    Agree A (next d₁ e) (next d₂ e) := by
  rcases e with ⟨r, o⟩ | _
  · cases r with
    | list _ _ _ _ => exact h
    | get _ => exact h
    | cancel taskID now =>
      simp only [TaskIsolation.next]
      split
      · exact h
      · refine ⟨?_, h.replica⟩
        have hown : ∀ tb : Table, ownRows A (cancelTask tb now taskID) =
            (ownRows A tb).map (Table.setRow taskID (cancelRow now)) :=
          fun tb => filter_cancel (fun T => T = A) tb now taskID
        rw [hown, hown, h.primary]
  · exact ⟨h.primary, h.primary⟩

theorem list_isolated_iff {d₁ d₂ : Database} (h : Agree A d₁ d₂) (statusFilter taskType : String)
    (limit offset : Int64) (o : Outcome) :
    respond readPool A d₁ (.request (.list statusFilter taskType limit offset) o) =
        respond readPool A d₂ (.request (.list statusFilter taskType limit offset) o) ↔
      Confined readPool A d₁ d₂ (.request (.list statusFilter taskType limit offset) o) := by
  simp only [respond, handleListTasks, Confined, Option.some.injEq]
  by_cases ho : o = .ok
  · by_cases hA : A = ""
    · simp only [ho, hA, decide_true, if_true, forall_const]
      exact ⟨listResponse_inj, congrArg _⟩
    · simp only [ho, hA, listTasks_own hA (h.reading readPool), false_imp_iff, implies_true]
  · simp only [ho, decide_false, Bool.false_eq_true, if_false, false_imp_iff]

theorem get_isolated_iff {d₁ d₂ : Database} (h : Agree A d₁ d₂) (taskID : String) (o : Outcome) :
    respond readPool A d₁ (.request (.get taskID) o) =
        respond readPool A d₂ (.request (.get taskID) o) ↔
      Confined readPool A d₁ d₂ (.request (.get taskID) o) := by
  simp only [respond, handleGetTask, Confined, Option.some.injEq]
  by_cases ho : o = .ok
  · simp only [ho, decide_true, if_true, forall_const]
    rw [← row_eq_iff (h.reading readPool)]
    exact ⟨getResponse_inj, congrArg _⟩
  · simp only [ho, decide_false, Bool.false_eq_true, if_false, false_imp_iff]

theorem stepIsolated_iff {d₁ d₂ : Database} (h : Agree A d₁ d₂) (e : Event) :
    StepIsolated readPool A d₁ d₂ e ↔ Confined readPool A d₁ d₂ e := by
  rcases e with ⟨r, o⟩ | _
  · cases r with
    | list statusFilter taskType limit offset =>
      rw [← list_isolated_iff h]
      exact ⟨And.left, fun he => ⟨he, rfl, rfl⟩⟩
    | get taskID =>
      rw [← get_isolated_iff h]
      exact ⟨And.left, fun he => ⟨he, rfl, rfl⟩⟩
    | cancel taskID now =>
      simp only [StepIsolated, Confined, respond, TaskIsolation.next]
      by_cases ho : o = .refused
      · simp [ho]
      · simp only [ho, if_false, otherRows_cancel, true_and, ne_eq, not_false_eq_true, forall_const]
        constructor
        · rintro ⟨h₁, h₂⟩ t (ht | ht)
          · exact h₁ t ht
          · exact h₂ t ht
        · exact fun hc => ⟨fun t ht => hc t (.inl ht), fun t ht => hc t (.inr ht)⟩
  · exact ⟨fun _ => trivial, fun _ => ⟨rfl, rfl, rfl⟩⟩

/-- Isolation of the tasks holds in exactly the runs whose every step keeps to the actor's
tenant. -/
theorem task_isolation_iff (readPool : Bool) (A : String) (events : List Event)
    {d₁ d₂ : Database} (h : Agree A d₁ d₂) :
    Isolated readPool A events d₁ d₂ ↔ Along (Confined readPool A) events d₁ d₂ := by
  induction events generalizing d₁ d₂ with
  | nil => exact Iff.rfl
  | cons e rest ih => exact and_congr (stepIsolated_iff h e) (ih (h.next e))

/- A purge that is being carried out, and tables with one task or none. -/
def purgeOf (tenantID taskID : String) : Task :=
  { taskID := taskID, tenantID := tenantID, projectID := "", creatorID := "", type := .purge,
    status := .running, params := .null, result := .null, progress := 0, totalNodes := 0,
    doneNodes := 3, createdAt := 0, updatedAt := 0 }

def single (t : Task) : Database := ⟨⟨[t], List.nodup_singleton _⟩, ⟨[], List.nodup_nil⟩⟩

def pair (t u : Task) (h : t.taskID ≠ u.taskID) : Database :=
  ⟨⟨[t, u], by simpa using h⟩, ⟨[], List.nodup_nil⟩⟩

def empty : Database := ⟨⟨[], List.nodup_nil⟩, ⟨[], List.nodup_nil⟩⟩

theorem own_task_requests_isolated :
    Agree "a" (pair (purgeOf "a" "task_1") (purgeOf "b" "task_2") (by decide))
      (single (purgeOf "a" "task_1")) ∧
    Isolated false "a" [.request (.list "" "" 10 0) .ok, .request (.get "task_1") .ok,
        .request (.cancel "task_1" 5) .ok]
      (pair (purgeOf "a" "task_1") (purgeOf "b" "task_2") (by decide))
      (single (purgeOf "a" "task_1")) := by
  have agree : Agree "a" (pair (purgeOf "a" "task_1") (purgeOf "b" "task_2") (by decide))
      (single (purgeOf "a" "task_1")) := ⟨rfl, rfl⟩
  refine ⟨agree, (task_isolation_iff false "a" _ agree).mpr ⟨?_, ?_, ?_, trivial⟩⟩
  · exact fun _ hA => absurd hA (by decide)
  · exact fun _ => rfl
  · rintro - t (ht | ht) <;> cases ht

/-- An actor of tenant `a` is shown the task of tenant `b`, and cancels it while it is
running. An actor without a tenant is shown the tasks of all. -/
theorem other_tenants_task_reached :
    Agree "a" (single (purgeOf "b" "task_1")) empty ∧
    respond false "a" (single (purgeOf "b" "task_1")) (.request (.get "task_1") .ok) =
      some (.task (purgeOf "b" "task_1")) ∧
    ¬ Isolated false "a" [.request (.get "task_1") .ok] (single (purgeOf "b" "task_1")) empty ∧
    (next (single (purgeOf "b" "task_1")) (.request (.cancel "task_1" 1) .ok)).primary.rows =
      [cancelRow 1 (purgeOf "b" "task_1")] ∧
    ¬ Isolated false "a" [.request (.cancel "task_1" 1) .ok] (single (purgeOf "b" "task_1"))
      empty ∧
    Agree "" (single (purgeOf "b" "task_1")) empty ∧
    ¬ Isolated false "" [.request (.list "" "" 10 0) .ok] (single (purgeOf "b" "task_1"))
      empty := by
  refine ⟨⟨rfl, rfl⟩, rfl, ?_, rfl, ?_, ⟨rfl, rfl⟩, ?_⟩
  · rintro ⟨⟨hresp, -, -⟩, -⟩
    cases hresp
  · rintro ⟨⟨-, hrows, -⟩, -⟩
    cases hrows
  · rintro ⟨⟨hresp, -, -⟩, -⟩
    cases hresp

end EdgeDispatch.ControlPlane.TaskIsolation
