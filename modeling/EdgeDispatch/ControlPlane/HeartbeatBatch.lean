import EdgeDispatch.Lib.Transition
import Mathlib.Data.List.Nodup

/-! # Batching of heartbeats (internal/controlplane/heartbeat.go:48-100, 150-164)

`ProcessHeartbeat` puts a heartbeat into `batchCh` and waits for the reply on a channel of
its own. One goroutine gathers heartbeats into a batch, which it processes when it is full,
when the timer fires or when the context is cancelled; it returns in the last case. Its
select may take any case that is ready. The batch is processed by the goroutine itself, so
the slice that it keeps reusing is a list here. -/

namespace EdgeDispatch.ControlPlane.HeartbeatBatch
open Lib.Transition

/- Capacity of `batchCh`, and of the batch. -/
def channelCap : ℕ := 256
def batchCap : ℕ := 32

/- A `ProcessHeartbeat` call. A revoked node's heartbeat is rejected at once; `waiting` has
put its heartbeat into the channel. The result of `processOne` is of type `E`. -/
inductive Pc (E : Type) where
  | idle
  | rejected
  | waiting
  | returned (err : E)

def Pc.accepted {E : Type} : Pc E → Bool
  | .waiting | .returned _ => true
  | _ => false

/-- The goroutine: in its select with a batch, in `processBatch` before `processOne` or
before the reply to it, or gone. `exit` is whether it got there through `ctx.Done()`. -/
inductive Loop (ι E : Type) where
  | selecting (batch : List ι)
  | processing (todo : List ι) (exit : Bool)
  | replying (i : ι) (err : E) (rest : List ι) (exit : Bool)
  | returned
  deriving DecidableEq

/-- `slot` is the buffer of a call's reply channel, which holds one value; `processed` and
`replies` count the runs of `processOne` and the replies for each heartbeat. -/
structure State (ι E : Type) where
  channel : List ι
  loop : Loop ι E
  armed : Bool
  cancelled : Bool
  pc : ι → Pc E
  slot : ι → Option E
  processed : ι → ℕ
  replies : ι → ℕ

inductive Act (ι E : Type) where
  | reject (i : ι)
  | enqueue (i : ι)
  | receive
  | tick
  | cancel
  | done
  | process (err : E)
  | reply
  | finish (i : ι)

variable {ι E : Type}

def start : State ι E :=
  { channel := [], loop := .selecting [], armed := true, cancelled := false,
    pc := fun _ => .idle, slot := fun _ => none, processed := fun _ => 0, replies := fun _ => 0 }

/- What is left of a batch is processed; then the loop goes on with an empty one, or ends. -/
def Loop.next (batch : List ι) (exit : Bool) : Loop ι E :=
  match batch, exit with
  | [], true => .returned
  | [], false => .selecting []
  | batch, exit => .processing batch exit

/-- The first heartbeat of a batch sets the timer; a full batch stops it. -/
def received (s : State ι E) (batch : List ι) (i : ι) (rest : List ι) : State ι E :=
  let batch' := batch ++ [i]
  if batchCap ≤ batch'.length then
    { s with channel := rest, armed := false, loop := .processing batch' false }
  else
    { s with channel := rest, armed := if batch = [] then true else s.armed,
             loop := .selecting batch' }

def step [DecidableEq ι] (s : State ι E) : Act ι E → Option (State ι E)
  | .reject i =>
    match s.pc i with
    | .idle => some { s with pc := Function.update s.pc i .rejected }
    | _ => none
  | .enqueue i =>
    match s.pc i with
    | .idle =>
      if s.channel.length < channelCap then
        some { s with channel := s.channel ++ [i], pc := Function.update s.pc i .waiting }
      else none
    | _ => none
  | .receive =>
    match s.loop, s.channel with
    | .selecting batch, i :: rest => some (received s batch i rest)
    | _, _ => none
  | .tick =>
    match s.loop with
    | .selecting batch =>
      if s.armed then some { s with armed := false, loop := Loop.next batch false } else none
    | _ => none
  | .cancel => some { s with cancelled := true }
  | .done =>
    match s.loop with
    | .selecting batch =>
      if s.cancelled then some { s with loop := Loop.next batch true } else none
    | _ => none
  | .process err =>
    match s.loop with
    | .processing (i :: rest) exit =>
      some { s with
        processed := Function.update s.processed i (s.processed i + 1)
        loop := .replying i err rest exit }
    | _ => none
  | .reply =>
    match s.loop with
    | .replying i err rest exit =>
      if s.slot i = none then
        some { s with
          slot := Function.update s.slot i (some err)
          replies := Function.update s.replies i (s.replies i + 1)
          loop := Loop.next rest exit }
      else none
    | _ => none
  | .finish i =>
    match s.pc i, s.slot i with
    | .waiting, some err =>
      some { s with
        pc := Function.update s.pc i (.returned err)
        slot := Function.update s.slot i none }
    | _, _ => none

/- The heartbeats that the goroutine has in hand, without and with the one whose reply is due. -/
def Loop.todo : Loop ι E → List ι
  | .selecting batch => batch
  | .processing todo _ => todo
  | .replying _ _ rest _ => rest
  | .returned => []

def Loop.held : Loop ι E → List ι
  | .replying i _ rest _ => i :: rest
  | loop => loop.todo

def State.unprocessed (s : State ι E) : List ι := s.loop.todo ++ s.channel

def State.unanswered (s : State ι E) : List ι := s.loop.held ++ s.channel

@[simp] theorem Loop.todo_next (batch : List ι) (exit : Bool) :
    (Loop.next batch exit : Loop ι E).todo = batch := by
  cases batch <;> cases exit <;> rfl

@[simp] theorem Loop.held_next (batch : List ι) (exit : Bool) :
    (Loop.next batch exit : Loop ι E).held = batch := by
  cases batch <;> cases exit <;> rfl

theorem Loop.next_eq_returned (batch : List ι) (exit : Bool) :
    (Loop.next batch exit : Loop ι E) = .returned ↔ batch = [] ∧ exit = true := by
  cases batch <;> cases exit <;> simp [Loop.next]

/-- No heartbeat is processed twice, and when the goroutine has returned, all that were
accepted have been processed and answered once. -/
def Lossless (s : State ι E) : Prop :=
  (∀ i, s.processed i ≤ 1) ∧
    (s.loop = .returned → ∀ i, (s.pc i).accepted = true → s.processed i = 1 ∧ s.replies i = 1)

/-- The channel is empty at the step with which the goroutine returns, and nothing is put
into it afterwards. -/
def Drained (s : State ι E) : Act ι E → Prop
  | .enqueue _ =>
    match s.loop with
    | .returned => False
    | _ => True
  | .done =>
    match s.loop with
    | .selecting [] => s.channel = []
    | _ => True
  | .reply =>
    match s.loop with
    | .replying _ _ [] true => s.channel = []
    | _ => True
  | _ => True

instance (s : State ι E) (a : Act ι E) : Decidable (Drained s a) := by
  unfold Drained
  split <;> (try split) <;> infer_instance

/-- `n` counts what is done for each heartbeat: once for those that were accepted and are not
`pending` any more, and not at all for the others. -/
structure Tally (n : ι → ℕ) (pc : ι → Pc E) (pending : List ι) : Prop where
  nodup : pending.Nodup
  accepted : ∀ i ∈ pending, (pc i).accepted = true
  due : ∀ i ∈ pending, n i = 0
  outside : ∀ i, (pc i).accepted = false → n i = 0
  finished : ∀ i, (pc i).accepted = true → i ∉ pending → n i = 1

variable {n : ι → ℕ} {pc : ι → Pc E} {pending batch rest : List ι} {s : State ι E} {i : ι}

theorem Tally.le_one (h : Tally n pc pending) (i : ι) : n i ≤ 1 := by
  by_cases hi : i ∈ pending
  · exact (h.due i hi).symm ▸ Nat.zero_le 1
  · cases hacc : (pc i).accepted with
    | false => exact (h.outside i hacc).symm ▸ Nat.zero_le 1
    | true => exact Nat.le_of_eq (h.finished i hacc hi)

theorem Tally.standing {pc' : ι → Pc E} (h : Tally n pc pending)
    (hpc : ∀ i, (pc' i).accepted = (pc i).accepted) : Tally n pc' pending where
  nodup := h.nodup
  accepted i hi := (hpc i).trans (h.accepted i hi)
  due := h.due
  outside i hi := h.outside i ((hpc i).symm.trans hi)
  finished i hi := h.finished i ((hpc i).symm.trans hi)

/-- Where every heartbeat is: accepted ones are in the channel, in hand, or answered. -/
structure Inv (s : State ι E) : Prop where
  processed : Tally s.processed s.pc s.unprocessed
  replies : Tally s.replies s.pc s.unanswered
  slot : ∀ i, s.replies i = 0 → s.slot i = none

theorem start_inv : Inv (start : State ι E) := by
  have tally : Tally (fun _ : ι => 0) (fun _ => (.idle : Pc E)) [] :=
    { nodup := List.nodup_nil
      accepted := fun _ hi => absurd hi List.not_mem_nil
      due := fun _ _ => rfl
      outside := fun _ _ => rfl
      finished := fun _ hi => (nomatch hi) }
  exact ⟨tally, tally, fun _ _ => rfl⟩

theorem lossless_iff (h : Inv s) : Lossless s ↔ (s.loop = .returned → s.channel = []) := by
  refine ⟨fun hl hret => ?_, fun hdrained => ⟨h.processed.le_one, fun hret i hi => ?_⟩⟩
  · -- what is in the channel has not been processed
    rw [List.eq_nil_iff_forall_not_mem]
    intro i hi
    have hmem : i ∈ s.unprocessed := List.mem_append_right _ hi
    have hone := (hl.2 hret i (h.processed.accepted i hmem)).1
    rw [h.processed.due i hmem] at hone
    cases hone
  · have hnone : i ∉ s.unprocessed ∧ i ∉ s.unanswered := by
      simp [State.unprocessed, State.unanswered, hret, Loop.todo, Loop.held, hdrained hret]
    exact ⟨h.processed.finished i hi hnone.1, h.replies.finished i hi hnone.2⟩

/- Nothing is accepted, processed or answered. -/
theorem Inv.frame {t : State ι E} (h : Inv s) (hu : t.unanswered = s.unanswered)
    (hp : t.unprocessed = s.unprocessed) (hpc : ∀ i, (t.pc i).accepted = (s.pc i).accepted)
    (hprocessed : t.processed = s.processed) (hreplies : t.replies = s.replies)
    (hslot : ∀ i, s.slot i = none → t.slot i = none) : Inv t where
  processed := hprocessed ▸ hp ▸ h.processed.standing hpc
  replies := hreplies ▸ hu ▸ h.replies.standing hpc
  slot i hi := hslot i (h.slot i (hreplies ▸ hi))

theorem received_frame (s : State ι E) (hl : s.loop = .selecting batch) (hc : s.channel = i :: rest) :
    
    (received s batch i rest).unanswered = s.unanswered ∧
      (received s batch i rest).unprocessed = s.unprocessed ∧
      (received s batch i rest).loop ≠ .returned := by
  unfold received
  dsimp only
  split <;> simp [State.unanswered, State.unprocessed, Loop.held, Loop.todo, hl, hc]

theorem received_inv (h : Inv s) (hl : s.loop = .selecting batch) (hc : s.channel = i :: rest) :
    Inv (received s batch i rest) := by
  obtain ⟨hu, hp, -⟩ := received_frame s hl hc
  apply h.frame hu hp
  all_goals
    unfold received
    dsimp only
    split <;> simp

/- The select is left with the batch as it is. -/
theorem next_inv (h : Inv s) (hl : s.loop = .selecting batch) (armed exit : Bool) :
    Inv { s with armed := armed, loop := Loop.next batch exit } := by
  refine h.frame ?_ ?_ (fun _ => rfl) rfl rfl fun _ hj => hj
  · rw [State.unanswered, State.unanswered, Loop.held_next, hl]
    rfl
  · rw [State.unprocessed, State.unprocessed, Loop.todo_next, hl]
    rfl

/- Where the goroutine can be with a batch that is not full yet. -/
def Timed (s : State ι E) : Prop :=
  ∀ batch, s.loop = .selecting batch → batch.length < batchCap ∧ (batch ≠ [] → s.armed = true)

theorem timed_next (batch : List ι) (exit : Bool) (hl : s.loop = Loop.next batch exit) :
    Timed s := by
  intro batch' hl'
  rw [hl] at hl'
  cases batch <;> cases exit <;> simp [Loop.next] at hl'
  subst hl'
  exact ⟨Nat.zero_lt_succ 31, fun h => absurd rfl h⟩

theorem received_timed (h : Timed s) (i : ι) (rest : List ι) (hl : s.loop = .selecting batch) :
    Timed (received s batch i rest) := by
  intro batch' hl'
  unfold received at hl' ⊢
  dsimp only at hl' ⊢
  split at hl'
  · cases hl'
  · rename_i hfull
    cases hl'
    rw [if_neg hfull]
    refine ⟨Nat.lt_of_not_le hfull, fun _ => ?_⟩
    by_cases hempty : batch = []
    · simp [hempty]
    · simp [hempty, (h batch hl).2 hempty]

variable [DecidableEq ι]

/- A call that goes to a place with the same standing. -/
theorem accepted_update {p : Pc E} (h : p.accepted = (pc i).accepted) (j : ι) :
    (Function.update pc i p j).accepted = (pc j).accepted := by
  rw [Function.update_apply]
  split
  · rename_i hj
    rw [hj, h]
  · rfl

/-- A heartbeat is accepted: it is pending. -/
theorem Tally.accept (h : Tally n pc pending) (hi : (pc i).accepted = false) :
    Tally n (Function.update pc i .waiting) (pending ++ [i]) := by
  have hout : i ∉ pending := fun hmem => by simp [h.accepted i hmem] at hi
  have hkeep : ∀ j, j ≠ i → Function.update pc i .waiting j = pc j := fun j hj =>
    Function.update_of_ne hj ..
  refine ⟨?_, fun j hj => ?_, fun j hj => ?_, fun j hj => ?_, fun j hj hnot => ?_⟩
  · exact List.nodup_append.mpr ⟨h.nodup, List.nodup_singleton i, by grind⟩
  · by_cases hji : j = i
    · rw [hji, Function.update_self]
      rfl
    · rw [hkeep j hji]
      exact h.accepted j (by simpa [hji] using hj)
  · by_cases hji : j = i
    · exact hji ▸ h.outside i hi
    · exact h.due j (by simpa [hji] using hj)
  · by_cases hji : j = i
    · rw [hji, Function.update_self] at hj
      cases hj
    · exact h.outside j (hkeep j hji ▸ hj)
  · obtain ⟨hnot, hji⟩ : j ∉ pending ∧ j ≠ i := by simpa using hnot
    exact h.finished j (hkeep j hji ▸ hj) hnot

/-- It is counted and not pending any more. -/
theorem Tally.count (h : Tally n pc (i :: rest)) :
    Tally (Function.update n i (n i + 1)) pc rest := by
  obtain ⟨hi, hrest⟩ := List.nodup_cons.mp h.nodup
  have hacc : (pc i).accepted = true := h.accepted i List.mem_cons_self
  have hcount : Function.update n i (n i + 1) i = 1 := by
    rw [Function.update_self, h.due i List.mem_cons_self]
  refine ⟨hrest, fun j hj => h.accepted j (List.mem_cons_of_mem i hj), fun j hj => ?_,
    fun j hj => ?_, fun j hj hnot => ?_⟩
  · have hji : j ≠ i := fun he => hi (he ▸ hj)
    rw [Function.update_of_ne hji]
    exact h.due j (List.mem_cons_of_mem i hj)
  · have hji : j ≠ i := fun he => by simp [he, hacc] at hj
    rw [Function.update_of_ne hji]
    exact h.outside j hj
  · by_cases hji : j = i
    · exact hji ▸ hcount
    · rw [Function.update_of_ne hji]
      exact h.finished j hj (by simp [hji, hnot])

/-- The steps, each with the state that it starts from. -/
inductive Move (s : State ι E) : Act ι E → State ι E → Prop
  | reject (i : ι) : s.pc i = .idle →
      Move s (.reject i) { s with pc := Function.update s.pc i .rejected }
  | enqueue (i : ι) : s.pc i = .idle → Move s (.enqueue i)
      { s with channel := s.channel ++ [i], pc := Function.update s.pc i .waiting }
  | receive (batch : List ι) (i : ι) (rest : List ι) : s.loop = .selecting batch →
      s.channel = i :: rest → Move s .receive (received s batch i rest)
  | tick (batch : List ι) : s.loop = .selecting batch →
      Move s .tick { s with armed := false, loop := Loop.next batch false }
  | cancel : Move s .cancel { s with cancelled := true }
  | done (batch : List ι) : s.loop = .selecting batch →
      Move s .done { s with loop := Loop.next batch true }
  | process (err : E) (i : ι) (rest : List ι) (exit : Bool) :
      s.loop = .processing (i :: rest) exit → Move s (.process err) { s with
        processed := Function.update s.processed i (s.processed i + 1)
        loop := .replying i err rest exit }
  | reply (i : ι) (err : E) (rest : List ι) (exit : Bool) :
      s.loop = .replying i err rest exit → Move s .reply { s with
        slot := Function.update s.slot i (some err)
        replies := Function.update s.replies i (s.replies i + 1)
        loop := Loop.next rest exit }
  | finish (i : ι) (err : E) : s.pc i = .waiting → Move s (.finish i) { s with
      pc := Function.update s.pc i (.returned err)
      slot := Function.update s.slot i none }

variable {a : Act ι E} {err : E} {exit : Bool}

theorem step_move {t : State ι E} (h : step s a = some t) : Move s a t := by
  cases a <;> unfold step at h <;> dsimp only at h
  case reject i =>
    split at h
    · cases h
      exact .reject i ‹_›
    · cases h
  case enqueue i =>
    split at h
    · split at h
      · cases h
        exact .enqueue i ‹_›
      · cases h
    · cases h
  case receive =>
    split at h
    · cases h
      exact .receive _ _ _ ‹_› ‹_›
    · cases h
  case tick =>
    split at h
    · split at h
      · cases h
        exact .tick _ ‹_›
      · cases h
    · cases h
  case cancel =>
    cases h
    exact .cancel
  case done =>
    split at h
    · split at h
      · cases h
        exact .done _ ‹_›
      · cases h
    · cases h
  case process err =>
    split at h
    · cases h
      exact .process err _ _ _ ‹_›
    · cases h
  case reply =>
    split at h
    · split at h
      · cases h
        exact .reply _ _ _ _ ‹_›
      · cases h
    · cases h
  case finish i =>
    split at h
    · cases h
      exact .finish i _ ‹_›
    · cases h

theorem enqueue_inv (h : Inv s) (hi : s.pc i = .idle) :
    Inv { s with channel := s.channel ++ [i], pc := Function.update s.pc i .waiting } := by
  have hacc : (s.pc i).accepted = false := by rw [hi]; rfl
  refine ⟨?_, ?_, h.slot⟩
  · simpa [State.unprocessed] using h.processed.accept hacc
  · simpa [State.unanswered] using h.replies.accept hacc

theorem process_inv (h : Inv s) (hl : s.loop = .processing (i :: rest) exit) :
    Inv { s with
      processed := Function.update s.processed i (s.processed i + 1)
      loop := .replying i err rest exit } := by
  have hprocessed := h.processed
  have hreplies := h.replies
  rw [State.unprocessed, hl] at hprocessed
  rw [State.unanswered, hl] at hreplies
  exact ⟨hprocessed.count, hreplies, h.slot⟩

theorem reply_inv (h : Inv s) (hl : s.loop = .replying i err rest exit) :
    Inv { s with
      slot := Function.update s.slot i (some err)
      replies := Function.update s.replies i (s.replies i + 1)
      loop := Loop.next rest exit } := by
  have hprocessed := h.processed
  have hreplies := h.replies
  rw [State.unprocessed, hl] at hprocessed
  rw [State.unanswered, hl] at hreplies
  refine ⟨?_, ?_, fun j hj => ?_⟩
  · rw [State.unprocessed, Loop.todo_next]
    exact hprocessed
  · simpa [State.unanswered] using hreplies.count
  · by_cases hji : j = i
    · simp [hji] at hj
    · simp only [Function.update_of_ne hji] at hj ⊢
      exact h.slot j hj

theorem finish_inv (h : Inv s) (hi : s.pc i = .waiting) :
    Inv { s with
      pc := Function.update s.pc i (.returned err)
      slot := Function.update s.slot i none } := by
  refine h.frame rfl rfl (accepted_update (by rw [hi]; rfl)) rfl rfl fun j hj => ?_
  simp only [Function.update_apply]
  split
  · rfl
  · exact hj

theorem step_inv {t : State ι E} (h : Inv s) (hstep : step s a = some t) : Inv t := by
  cases step_move hstep with
  | reject i hi =>
    exact h.frame rfl rfl (accepted_update (by rw [hi]; rfl)) rfl rfl fun _ hj => hj
  | enqueue i hi => exact enqueue_inv h hi
  | receive batch i rest hl hc => exact received_inv h hl hc
  | tick batch hl => exact next_inv h hl false false
  | cancel => exact h.frame rfl rfl (fun _ => rfl) rfl rfl fun _ hj => hj
  | done batch hl => exact next_inv h hl s.armed true
  | process err i rest exit hl => exact process_inv h hl
  | reply i err rest exit hl => exact reply_inv h hl
  | finish i err hi => exact finish_inv h hi

/-- Heartbeats are left behind by a step that is not `Drained`, and only by such a step. -/
theorem step_drained_iff {t : State ι E} (h : s.loop = .returned → s.channel = [])
    (hstep : step s a = some t) : (t.loop = .returned → t.channel = []) ↔ Drained s a := by
  cases step_move hstep with
  | reject i hi => exact iff_of_true h trivial
  | enqueue i hi => cases hl : s.loop <;> simp [Drained, hl]
  | receive batch i rest hl hc =>
    exact iff_of_true (fun hret => absurd hret (received_frame s hl hc).2.2) trivial
  | tick batch hl => simp [Drained, Loop.next_eq_returned]
  | cancel => exact iff_of_true h trivial
  | done batch hl => cases batch <;> simp [Drained, hl, Loop.next_eq_returned]
  | process err i rest exit hl => simp [Drained]
  | reply i err rest exit hl =>
    cases rest <;> cases exit <;> simp [Drained, hl, Loop.next_eq_returned]
  | finish i err hi => exact iff_of_true h trivial

/-- A batch with a heartbeat in it has the timer running, and has room for one more. -/
theorem batch_timed (hs : Reach step Free start s) : Timed s := by
  refine hs.invariant Timed (fun batch hl => ?_) fun s a t h _ hstep => ?_
  · cases hl
    exact ⟨Nat.zero_lt_succ 31, fun h => absurd rfl h⟩
  · cases step_move hstep with
    | receive batch i rest hl hc => exact received_timed h i rest hl
    | tick batch hl => exact timed_next batch false rfl
    | done batch hl => exact timed_next batch true rfl
    | reply i err rest exit hl => exact timed_next rest exit rfl
    | process err i rest exit hl => exact fun _ hl' => (nomatch hl')
    | _ => exact h

/-- The goroutine is never held up by a reply: the buffer of the channel is empty. -/
theorem reply_enabled (hs : Reach step Free start s) (hl : s.loop = .replying i err rest exit) :
    (step s .reply).isSome = true := by
  have h : Inv s := hs.invariant Inv start_inv fun s a t hi _ hst => step_inv hi hst
  have hmem : i ∈ s.unanswered := by simp [State.unanswered, hl, Loop.held]
  have hslot : s.slot i = none := h.slot i (h.replies.due i hmem)
  simp [step, hl, hslot]

/-- In every reachable state the goroutine can go on with the heartbeats that it holds, without
a call or another heartbeat. -/
theorem held_enabled {s : State ι E} (hs : Reach step Free start s) (err : E)
    (hheld : s.loop.held ≠ []) :
    ∃ a, a ∈ [.tick, .process err, .reply] ∧ (step s a).isSome = true := by
  cases hl : s.loop with
  | selecting batch =>
    rw [hl] at hheld
    exact ⟨.tick, by simp, by simp [step, hl, (batch_timed hs batch hl).2 hheld]⟩
  | processing todo exit =>
    rw [hl] at hheld
    cases todo with
    | nil => exact absurd rfl hheld
    | cons i rest => exact ⟨.process err, by simp, by simp [step, hl]⟩
  | replying i err' rest exit => exact ⟨.reply, by simp, reply_enabled hs hl⟩
  | returned =>
    rw [hl] at hheld
    exact absurd rfl hheld

/-- Every interleaving processes each heartbeat at most once. It also leaves none unprocessed
or without its reply once the goroutine has returned, at all times, just if the channel is
empty when the goroutine returns and no heartbeat is accepted after that. -/
theorem heartbeats_lossless_iff (acts : List (Act ι E))
    (hrun : (exec step acts (start : State ι E)).isSome = true) :
    (∀ s ∈ visited step acts (start : State ι E), Lossless s) ↔
      Guarded step Drained acts (start : State ι E) := by
  obtain ⟨t, ht⟩ := Option.isSome_iff_exists.mp hrun
  refine forall_visited_iff_guarded_of (Q := fun _ => True)
    (P := fun s : State ι E => Inv s ∧ (s.loop = .returned → s.channel = [])) ht
    ⟨start_inv, fun h => (nomatch h)⟩ (fun s h => (lossless_iff h.1).mpr h.2)
    (fun _ _ => trivial) fun s a t _ h hstep => ?_
  have hinv : Inv t := step_inv h.1 hstep
  have hiff := step_drained_iff h.2 hstep
  exact ⟨fun hl => hiff.mp ((lossless_iff hinv).mp hl), fun hd => ⟨hinv, hiff.mpr hd⟩⟩

/- Two heartbeats in one batch, which the timer ends; then the context is cancelled. -/
def twoHeartbeats : List (Act (Fin 2) Bool) :=
  [.enqueue 0, .receive, .enqueue 1, .receive, .tick, .process true, .reply, .finish 0,
    .process false, .reply, .cancel, .done]

theorem two_heartbeats_lossless :
    (exec step twoHeartbeats start).isSome = true ∧
      ∀ s ∈ visited step twoHeartbeats start, Lossless s :=
  ⟨by decide +kernel, (heartbeats_lossless_iff _ (by decide +kernel)).mpr (by decide +kernel)⟩

theorem two_heartbeats_enabled : ∃ s : State (Fin 2) Bool, Reach step Free start s ∧
    s.loop.held = [0, 1] ∧ ∃ a, a ∈ [.tick, .process true, .reply] ∧ (step s a).isSome = true := by
  have hrun : ∃ s : State (Fin 2) Bool, Reach step Free start s ∧ s.loop.held = [0, 1] :=
    reach_of_view (twoHeartbeats.take 4) (fun s : State (Fin 2) Bool => s.loop.held) rfl
  obtain ⟨s, hs, hheld⟩ := hrun
  exact ⟨s, hs, hheld, held_enabled hs true (by simp [hheld])⟩

/-- The context is cancelled with one heartbeat in the batch and one in the channel: the
second is never processed, and its call waits for ever. -/
theorem heartbeat_left_in_channel :
    (exec step [.enqueue 0, .receive, .enqueue 1, .cancel, .done, .process true, .reply]
      (start : State (Fin 2) Bool)).map
        (fun s => (s.loop, s.channel, (s.pc 1).accepted, s.processed 1, s.replies 1)) =
      some (.returned, [1], true, 0, 0) := by
  decide +kernel

end EdgeDispatch.ControlPlane.HeartbeatBatch
