import EdgeDispatch.ControlPlane.TaskRuns
import EdgeDispatch.Lib.Gather
import Mathlib.Data.Nat.SuccPred

/-! # Pushes to many nodes at once

The goroutines in which an executor sends the pushes of a task
(internal/controlplane/task_executor.go:114-192, 227-308, 343-423), and those of
`handleAdminPrewarm` (internal/controlplane/config_manager.go:288-383). What the network
answers to a goroutine is fixed in advance, since each asks once. -/

namespace EdgeDispatch.ControlPlane.NodePushes
open Lib Lib.Transition Lib.GoJSON
open ControlPlane.Scoring (Node NodeStatus)
open ControlPlane.TaskRuns (CacheOp doneNodes pushRequests pushResult goto)

/-! ### The pushes of a task -/

/-- `newRequest` is whether a goroutine can make its request, `answered` whether it gets an
answer that it can read and decode. -/
structure Push where
  op : CacheOp
  keys : List String
  targets : List Node
  concurrency : ℤ
  newRequest : Fin targets.length → Bool
  answered : Fin targets.length → Bool

namespace Push
variable (P : Push)

def slots : ℕ := if P.concurrency ≤ 0 then 5 else P.concurrency.toNat

/- The only error that is not logged is that of a node without an endpoint. -/
def entry (n : Node) (newRequest : Bool) : Gather.Entry (String × List String) :=
  match n.endpoints with
  | [] => .leave
  | e :: _ => if newRequest then .ask (e.url ++ P.op.path, P.keys) else .leave

def job : Gather.Job P.targets.length (String × List String) Unit ℕ :=
  { entry := fun i => P.entry (P.targets.get i) (P.newRequest i)
    answer := fun i => if P.answered i then some () else none
    put := fun done _ => done + 1 }

def pool := P.job.pool (some P.slots)

def start : Gather.Run P.targets.length (String × List String) Unit ℕ :=
  FanOut.start (Gather.Job.unlocked 0)

def progress (done : ℕ) : ℤ :=
  if 0 < P.targets.length then (done : ℤ) * 100 / P.targets.length else 100

/- The nodes that count as done. -/
def reached (i : Fin P.targets.length) : Bool :=
  (P.targets.get i).endpoints ≠ [] ∧ P.newRequest i ∧ P.answered i

def request (i : Fin P.targets.length) : Option (String × List String) :=
  if P.newRequest i then
    (P.targets.get i).endpoints.head?.map fun e => (e.url ++ P.op.path, P.keys)
  else none

/- As the executor's step has it. -/
def fates (j : ℕ) : Option Bool :=
  if h : j < P.targets.length then
    if P.newRequest ⟨j, h⟩ then some (P.answered ⟨j, h⟩) else none
  else none

theorem fates_val (i : Fin P.targets.length) :
    P.fates i = if P.newRequest i then some (P.answered i) else none := dif_pos i.isLt

theorem slots_pos : 0 < P.slots := by
  unfold slots
  split <;> omega

theorem job_request (i : Fin P.targets.length) : P.job.request i = P.request i := by
  change (P.entry (P.targets.get i) (P.newRequest i)).request = _
  unfold entry request
  cases (P.targets.get i).endpoints with
  | nil => cases P.newRequest i <;> rfl
  | cons e rest => cases P.newRequest i <;> rfl

theorem job_contrib (i : Fin P.targets.length) :
    P.job.contrib i = if P.reached i then some () else none := by
  rw [Gather.Job.contrib, job_request]
  unfold request reached job
  cases (P.targets.get i).endpoints with
  | nil => simp
  | cons e rest => cases P.newRequest i <;> simp

theorem entry_ne_crash (i : Fin P.targets.length) : P.job.entry i ≠ .crash := by
  change P.entry (P.targets.get i) (P.newRequest i) ≠ .crash
  unfold entry
  cases (P.targets.get i).endpoints with
  | nil =>
    intro h
    cases h
  | cons e rest =>
    intro h
    cases hnew : P.newRequest i <;> simp [hnew] at h

end Push

variable {P : Push} {s : Gather.Run P.targets.length (String × List String) Unit ℕ}

theorem length_filterMap_contrib (l : List (Fin P.targets.length)) :
    (l.filterMap P.job.contrib).length = l.countP P.reached := by
  induction l with
  | nil => rfl
  | cons i rest ih =>
    rw [List.filterMap_cons, List.countP_cons, P.job_contrib i]
    cases P.reached i with
    | false => simpa using ih
    | true => simp [ih]

theorem collected (h : Gather.Gathered P.job (some P.slots) 0 s) (hw : s.waited = true) :
    s.shared.acc = (List.finRange _).countP P.reached ∧
    s.shared.asked.Perm ((List.finRange _).filterMap P.request) := by
  obtain ⟨⟨l, hl, hperm⟩, hasked⟩ := h.of_waited hw
  constructor
  · have hput : s.shared.acc = 0 + l.length :=
      hl.trans ((List.foldl_const Nat.succ 0 l).trans (Nat.succ_iterate 0 _))
    rw [hput, hperm.length_eq, length_filterMap_contrib, Nat.zero_add]
  · have hreq : P.job.request = P.request := funext P.job_request
    rw [← hreq]
    exact hasked

/-- However the goroutines of a task are interleaved: no more of them are at work than the
task allows, none is stuck, the wait ends; and then each node with an endpoint was asked once
and the counter is the number of those that answered. -/
theorem push_collects {acts : List (FanOut.Act P.targets.length Unit)}
    (hrun : exec (FanOut.step P.pool) acts P.start = some s) :
    (Finset.univ.filter fun i => (s.phase i).isRunning = true).card ≤ P.slots ∧
    acts.length ≤ 10 * P.targets.length ∧
    (s.waited = false → ∃ a, (FanOut.step P.pool s a).isSome = true) ∧
    (s.waited = true → s.shared.acc = (List.finRange _).countP P.reached ∧
      s.shared.asked.Perm ((List.finRange _).filterMap P.request)) := by
  have h : Gather.Gathered P.job (some P.slots) 0 s :=
    Gather.gathered_of_reach (reach_of_guarded acts (guarded_free _ acts _) hrun)
  refine ⟨h.sound.card_running_le rfl, Gather.length_le_of_exec hrun, fun hw => ?_, collected h⟩
  refine h.enabled ?_ (h.not_crashed P.entry_ne_crash) hw
  intro c hc
  cases hc
  exact P.slots_pos

def twoPushes : Push :=
  { op := ⟨"/internal/push/purge", "keys_purged", "nodes_purged"⟩, keys := ["k"]
    targets := [TaskRuns.edge, TaskRuns.edge], concurrency := 1
    newRequest := fun _ => true, answered := fun _ => true }

/- There is one slot, and the first to be started is the last to get it. -/
def twoPushesActs : List (FanOut.Act twoPushes.targets.length Unit) :=
  let i : Fin twoPushes.targets.length := ⟨0, by decide⟩
  let j : Fin twoPushes.targets.length := ⟨1, by decide⟩
  [.launch, .launch, .acquire j] ++ List.replicate 6 (.run j ()) ++ [.release j, .acquire i] ++
    List.replicate 6 (.run i ()) ++ [.release i, .finish j, .finish i]

theorem push_collects_two : ∃ s : Gather.Run _ (String × List String) Unit ℕ,
    exec (FanOut.step twoPushes.pool) twoPushesActs twoPushes.start = some s ∧
    s.waited = true ∧ s.shared.acc = 2 := by
  obtain ⟨s, hs, hw⟩ := Option.map_eq_some_iff.mp
    (show (exec (FanOut.step twoPushes.pool) twoPushesActs twoPushes.start).map
      FanOut.State.waited = some true from rfl)
  exact ⟨s, hs, hw, ((push_collects hs).2.2.2 hw).1⟩

theorem zipIdx_targets :
    P.targets.zipIdx = (List.finRange _).map fun i => (P.targets.get i, i.val) := by
  apply List.ext_getElem
  · simp
  · intro i _ _
    simp

theorem doneNodes_fates :
    doneNodes P.fates P.targets = (List.finRange _).countP P.reached := by
  rw [doneNodes, zipIdx_targets, List.countP_map]
  refine List.countP_congr fun i _ => ?_
  cases hnew : P.newRequest i <;> simp [Push.reached, Push.fates_val, hnew]

theorem pushRequests_fates :
    pushRequests P.op P.keys P.fates P.targets = (List.finRange _).filterMap P.request := by
  rw [pushRequests, zipIdx_targets, List.filterMap_map]
  refine List.filterMap_congr fun i _ => ?_
  cases hnew : P.newRequest i <;> simp [Push.request, Push.fates_val, hnew]

/-- A run of the goroutines, seen from its end, is one step of the executor: it has sent the
same requests and it writes the same result, which is between 0 and 100 percent. -/
theorem push_refines {ι : Type} [DecidableEq ι] (readPool : Bool) (σ : TaskRuns.State ι) (k : ι)
    {t : Store.Tasks.Task} {rest : List Store.Tasks.Task}
    (hpc : σ.pc k = .pushing t P.op P.keys P.targets rest) (hne : P.targets ≠ [])
    (hrun : Reach (FanOut.step P.pool) Free P.start s) (hw : s.waited = true) :
    s.shared.asked.Perm (pushRequests P.op P.keys P.fates P.targets) ∧
    TaskRuns.step readPool σ (.push k P.fates) =
      some (goto { σ with
        log := .executed t.taskID (pushRequests P.op P.keys P.fates P.targets) :: σ.log } k
        (.finishing t (pushResult P.op P.keys P.targets s.shared.acc)
          (P.progress s.shared.acc) s.shared.acc rest)) ∧
    0 ≤ P.progress s.shared.acc ∧ P.progress s.shared.acc ≤ 100 := by
  have hpos : 0 < P.targets.length := List.length_pos_iff.mpr hne
  obtain ⟨hdone, hasked⟩ := collected (Gather.gathered_of_reach hrun) hw
  rw [← doneNodes_fates] at hdone
  rw [← pushRequests_fates] at hasked
  have hprogress : P.progress s.shared.acc =
      (doneNodes P.fates P.targets : ℤ) * 100 / P.targets.length := by
    rw [Push.progress, if_pos hpos, hdone]
  refine ⟨hasked, ?_, ?_, ?_⟩
  · rw [hprogress, hdone]
    simp only [TaskRuns.step, hpc]
  · rw [hprogress]
    positivity
  · have hle : doneNodes P.fates P.targets ≤ P.targets.length :=
      List.countP_le_length.trans_eq (List.length_zipIdx ..)
    rw [hprogress]
    refine Int.ediv_le_of_le_mul (by exact_mod_cast hpos) ?_
    rw [mul_comm 100 (P.targets.length : ℤ)]
    exact mul_le_mul_of_nonneg_right (by exact_mod_cast hle) (by norm_num)

/- An executor at its pushes. -/
def atPushes : TaskRuns.State Unit :=
  { db := TaskRuns.waitingTable "t", log := []
    pc := fun _ =>
      .pushing (TaskRuns.waiting "t") twoPushes.op twoPushes.keys twoPushes.targets [] }

theorem push_refines_two : ∃ s : Gather.Run _ (String × List String) Unit ℕ,
    Reach (FanOut.step twoPushes.pool) Free twoPushes.start s ∧ s.waited = true ∧
    (TaskRuns.step false atPushes (.push () twoPushes.fates)).isSome = true ∧
    twoPushes.progress s.shared.acc ≤ 100 := by
  have hends : ∃ s, Reach (FanOut.step twoPushes.pool) Free twoPushes.start s ∧
      s.waited = true := reach_of_view twoPushesActs FanOut.State.waited rfl
  obtain ⟨s, hs, hw⟩ := hends
  have h := push_refines (P := twoPushes) false atPushes () rfl (by decide) hs hw
  exact ⟨s, hs, hw, by rw [h.2.1]; rfl, h.2.2.2⟩

/-! ### handleAdminPrewarm -/

structure PrewarmRequest where
  keys : List String
  nodeID : String

def decodePrewarm : Json → Option PrewarmRequest
  | .null => some ⟨[], ""⟩
  | .obj members => do
    let keys ← field "keys" (decodeList decodeString) [] members
    let nodeID ← field "node_id" decodeString "" members
    return ⟨keys, nodeID⟩
  | _ => none

/-- Up to the goroutines: an error, or the nodes that get a push. -/
inductive Prewarm where
  | error (code : ℕ) (text : String)
  | push (keys : List String) (targets : List Node)
  deriving DecidableEq

def PrewarmRequest.targets (req : PrewarmRequest) (nodes : List Node) : List Node :=
  nodes.filter fun n => (req.nodeID = "" ∨ n.nodeID = req.nodeID) ∧
    (n.status = .active ∨ n.status = .degraded) ∧ n.endpoints ≠ []

/- The body cannot be read, is no JSON, or is a value; the cache of active nodes has an answer
   or an error. -/
def handleAdminPrewarm (method : String) (body : Option (Option Json))
    (activeNodes : Option (List Node)) : Prewarm :=
  if method ≠ "POST" then .error 405 "method not allowed"
  else match body with
  | none => .error 400 "read body failed"
  | some text =>
    match text.bind decodePrewarm with
    | none => .error 400 "invalid request"
    | some req =>
      if req.keys = [] then .error 400 "invalid request"
      else match activeNodes with
        | none => .error 500 "internal error"
        | some nodes => .push req.keys (req.targets nodes)

structure NodeResult where
  nodeID : String
  status : String
  error : String
  deriving DecidableEq

/-- What the goroutines meet: whether the request could be made, and the error of `Do`. -/
structure Pushes where
  keys : List String
  targets : List Node
  newRequest : Fin targets.length → Bool
  do' : Fin targets.length → Option String

namespace Pushes
variable (P : Pushes)

def result (i : Fin P.targets.length) : NodeResult :=
  match P.do' i with
  | some err => ⟨(P.targets.get i).nodeID, "failed", err⟩
  | none => ⟨(P.targets.get i).nodeID, "pushed", ""⟩

/- The error of `NewRequestWithContext` is dropped, and the header of a nil request is set. -/
def entry (n : Node) (newRequest : Bool) : Gather.Entry (String × List String) :=
  match n.endpoints with
  | [] => .crash
  | e :: _ => if newRequest then .ask (e.url ++ "/internal/push/prewarm", P.keys) else .crash

def job : Gather.Job P.targets.length (String × List String) NodeResult (List NodeResult) :=
  { entry := fun i => P.entry (P.targets.get i) (P.newRequest i)
    answer := fun i => some (P.result i)
    put := fun results r => results ++ [r] }

def pool := P.job.pool none

def start : Gather.Run P.targets.length (String × List String) NodeResult (List NodeResult) :=
  FanOut.start (Gather.Job.unlocked [])

end Pushes

def NodeResult.json (r : NodeResult) : Json :=
  .obj ([("node_id", .str r.nodeID), ("status", .str r.status)] ++
    if r.error = "" then [] else [("error", .str r.error)])

def prewarmReply (keys : List String) (results : List NodeResult) : Json :=
  .obj [("keys_total", .num keys.length), ("node_results", .arr (results.map NodeResult.json)),
    ("nodes_pushed", .num results.length)]

section
variable {P : Pushes}
  {s : Gather.Run P.targets.length (String × List String) NodeResult (List NodeResult)}

theorem Pushes.job_request (P : Pushes) (hends : ∀ n ∈ P.targets, n.endpoints ≠ [])
    (i : Fin P.targets.length) (hnew : P.newRequest i = true) :
    ∃ q, P.job.request i = some q := by
  have hne := hends _ (List.get_mem P.targets i)
  change ∃ q, (P.entry (P.targets.get i) (P.newRequest i)).request = some q
  unfold Pushes.entry
  cases he : (P.targets.get i).endpoints with
  | nil => exact absurd he hne
  | cons e rest =>
    rw [hnew]
    exact ⟨_, rfl⟩

theorem Pushes.entry_ne_crash (P : Pushes) (hends : ∀ n ∈ P.targets, n.endpoints ≠ [])
    (i : Fin P.targets.length) : P.job.entry i ≠ .crash ↔ P.newRequest i = true := by
  have hne := hends _ (List.get_mem P.targets i)
  change P.entry (P.targets.get i) (P.newRequest i) ≠ .crash ↔ _
  unfold Pushes.entry
  cases he : (P.targets.get i).endpoints with
  | nil => exact absurd he hne
  | cons e rest => cases P.newRequest i <;> simp

theorem targets_endpoints {method : String} {body : Option (Option Json)}
    {activeNodes : Option (List Node)} {keys : List String} {targets : List Node}
    (h : handleAdminPrewarm method body activeNodes = .push keys targets) :
    ∀ n ∈ targets, n.endpoints ≠ [] := by
  unfold handleAdminPrewarm at h
  split at h
  · cases h
  · split at h
    · cases h
    · split at h
      · cases h
      · split at h
        · cases h
        · split at h
          · cases h
          · cases h
            intro n hn
            exact (of_decide_eq_true (List.mem_filter.mp hn).2).2.2

/-- The handler answers with one result for every active node that it was to push to, in some
order, and counts a failed push as a push. It answers if and only if all requests could be
made: one that could not ends the program. -/
theorem prewarm_answers {method : String} {body : Option (Option Json)}
    {activeNodes : Option (List Node)}
    (hpush : handleAdminPrewarm method body activeNodes = .push P.keys P.targets)
    {acts : List (FanOut.Act P.targets.length Unit)}
    (hrun : exec (FanOut.step P.pool) acts P.start = some s) :
    acts.length ≤ 10 * P.targets.length ∧
    ((∀ i, P.newRequest i = true) → s.shared.crashed = false ∧
      (s.waited = false → ∃ a, (FanOut.step P.pool s a).isSome = true)) ∧
    (s.waited = true → s.shared.crashed = false → (∀ i, P.newRequest i = true) ∧
      ∃ results : List NodeResult, results.Perm ((List.finRange _).map P.result) ∧
        prewarmReply P.keys s.shared.acc = .obj [("keys_total", .num P.keys.length),
          ("node_results", .arr (results.map NodeResult.json)),
          ("nodes_pushed", .num P.targets.length)]) := by
  have hends := targets_endpoints hpush
  have h : Gather.Gathered P.job none [] s :=
    Gather.gathered_of_reach (reach_of_guarded acts (guarded_free _ acts _) hrun)
  refine ⟨Gather.length_le_of_exec hrun, fun hnew => ?_, fun hw hcalm => ?_⟩
  · have hcalm := h.not_crashed fun i => (P.entry_ne_crash hends i).mpr (hnew i)
    exact ⟨hcalm, h.enabled (by simp) hcalm⟩
  · have hnew : ∀ i, P.newRequest i = true := fun i =>
      (P.entry_ne_crash hends i).mp (h.entry_ne_crash hw hcalm i)
    obtain ⟨⟨l, hl, hperm⟩, -⟩ := h.of_waited hw
    have hacc : s.shared.acc = l := by
      refine hl.trans (List.foldl_append_eq_append.trans ?_)
      rw [← List.flatMap_def, List.flatMap_singleton', List.nil_append]
    have hcontrib : P.job.contrib = fun i => some (P.result i) := by
      funext i
      obtain ⟨q, hq⟩ := P.job_request hends i (hnew i)
      rw [Gather.Job.contrib, hq]
      rfl
    rw [hcontrib, List.filterMap_eq_map'] at hperm
    refine ⟨hnew, l, hperm, ?_⟩
    rw [hacc, prewarmReply, hperm.length_eq, List.length_map, List.length_finRange]

end

/- Of two nodes the first to be started is the last to be done, and fails. -/
def twoPrewarms : Pushes :=
  { keys := ["k"], targets := [TaskRuns.edge, { TaskRuns.edge with nodeID := "m" }]
    newRequest := fun _ => true
    do' := fun i => if i.val = 0 then some "connection refused" else none }

def twoPrewarmsActs : List (FanOut.Act twoPrewarms.targets.length Unit) :=
  let i : Fin twoPrewarms.targets.length := ⟨0, by decide⟩
  let j : Fin twoPrewarms.targets.length := ⟨1, by decide⟩
  [.launch, .launch, .acquire i, .acquire j] ++ List.replicate 6 (.run j ()) ++ [.release j] ++
    List.replicate 6 (.run i ()) ++ [.release i, .finish j, .finish i]

theorem twoPrewarms_begun :
    handleAdminPrewarm "POST" (some (some (.obj [("keys", .arr [.str "k"])])))
      (some twoPrewarms.targets) = .push twoPrewarms.keys twoPrewarms.targets := by
  decide +kernel

theorem prewarm_answers_two :
    ∃ s : Gather.Run _ (String × List String) NodeResult (List NodeResult),
    exec (FanOut.step twoPrewarms.pool) twoPrewarmsActs twoPrewarms.start = some s ∧
    (s.waited = true ∧ s.shared.crashed = false) ∧
    ∃ results : List NodeResult,
      results.Perm [⟨"n", "failed", "connection refused"⟩, ⟨"m", "pushed", ""⟩] ∧
      prewarmReply ["k"] s.shared.acc = .obj [("keys_total", .num 1),
        ("node_results", .arr (results.map NodeResult.json)), ("nodes_pushed", .num 2)] := by
  obtain ⟨s, hs, hview⟩ := Option.map_eq_some_iff.mp
    (show (exec (FanOut.step twoPrewarms.pool) twoPrewarmsActs twoPrewarms.start).map
      (fun s => (s.waited, s.shared.crashed)) = some (true, false) from rfl)
  obtain ⟨hw, hcalm⟩ := Prod.mk.inj hview
  obtain ⟨-, results, hperm, hreply⟩ := (prewarm_answers twoPrewarms_begun hs).2.2 hw hcalm
  exact ⟨s, hs, ⟨hw, hcalm⟩, results, hperm, by simpa [twoPrewarms] using hreply⟩

end EdgeDispatch.ControlPlane.NodePushes
