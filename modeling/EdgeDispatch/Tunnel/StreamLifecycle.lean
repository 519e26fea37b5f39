import EdgeDispatch.Lib.Transition
import Mathlib.Data.List.Nodup

/-! # The streams of one tunnel session

`CreateStream`, `RemoveStream` and `Close` each hold the session's lock from their first line
to their last (tunnel.go:130-181), so what any callers do to a session is a sequence of these
operations. A stream is an object of its own: the table finds it under an id, and its Done
channel outlives its entry. -/

namespace EdgeDispatch.Tunnel.StreamLifecycle
open Lib.Transition

/-- The streams are numbered as `CreateStream` made them. `doneCloses` counts the
`close(stream.Done)` statements run on each (the second one on a channel panics), and
`streams` is the table. `conn` tells whether the connection, if there is one, is open. -/
structure TunnelSession where
  made : ℕ
  id : ℕ → UInt32
  doneCloses : ℕ → ℕ
  streams : UInt32 → Option ℕ
  closed : Bool
  conn : Option Bool

def newTunnelSession (conn : Option Bool) : TunnelSession :=
  { made := 0, id := fun _ => 0, doneCloses := fun _ => 0, streams := fun _ => none,
    closed := false, conn }

/- The `closed` field is not looked at. -/
def createStream (s : TunnelSession) (id : UInt32) : TunnelSession :=
  { s with
    made := s.made + 1
    id := Function.update s.id s.made id
    doneCloses := Function.update s.doneCloses s.made 0
    streams := Function.update s.streams id (some s.made) }

def removeStream (s : TunnelSession) (id : UInt32) : TunnelSession :=
  match s.streams id with
  | some r => { s with
      doneCloses := Function.update s.doneCloses r (s.doneCloses r + 1)
      streams := Function.update s.streams id none }
  | none => s

/-- A stream is only ever stored under its own id, so the loop over the table meets the
streams whose entry leads back to them, each once. -/
def close (s : TunnelSession) : TunnelSession :=
  if s.closed then s
  else { s with
    closed := true
    doneCloses := fun r =>
      if s.streams (s.id r) = some r then s.doneCloses r + 1 else s.doneCloses r
    streams := fun _ => none
    conn := s.conn.map fun _ => false }

inductive Op where
  | createStream (id : UInt32)
  | removeStream (id : UInt32)
  | close
  deriving DecidableEq

/- The id that an operation gives to a new stream. -/
def Op.created : Op → Option UInt32
  | .createStream id => some id
  | _ => none

def apply (s : TunnelSession) : Op → TunnelSession
  | .createStream id => createStream s id
  | .removeStream id => removeStream s id
  | .close => close s

def step (s : TunnelSession) (op : Op) : Option TunnelSession := some (apply s op)

/-- What every sequence of operations keeps, the ids being distinct: an entry of the table
is a stream under its own id, a stream is in the table exactly while its Done channel is
open, and no Done channel is closed twice. -/
structure Listed (s : TunnelSession) : Prop where
  own : ∀ id r, s.streams id = some r → r < s.made ∧ s.id r = id
  listed : ∀ r < s.made, (s.streams (s.id r) = some r ↔ s.doneCloses r = 0)
  once : ∀ r < s.made, s.doneCloses r ≤ 1

/- Once the session is closed, no stream of it has an open Done channel. -/
def Shut (s : TunnelSession) : Prop := s.closed = true → ∀ r < s.made, s.doneCloses r ≠ 0

/- No stream of the session has had this id. -/
def Unused (s : TunnelSession) (id : UInt32) : Prop := ∀ r < s.made, s.id r ≠ id

/-- The ids that the operations give out are new to the session and distinct. -/
structure Fresh (s : TunnelSession) (ops : List Op) : Prop where
  unused : ∀ id ∈ ops.filterMap Op.created, Unused s id
  nodup : (ops.filterMap Op.created).Nodup

variable {r : ℕ} {s : TunnelSession} {id : UInt32} {op : Op} {rest : List Op}

theorem not_lt_new {conn : Option Bool} (hr : r < (newTunnelSession conn).made) : False :=
  Nat.not_lt_zero r hr

theorem listed_new (conn : Option Bool) : Listed (newTunnelSession conn) :=
  { own := fun _ _ h => nomatch h
    listed := fun _ hr => (not_lt_new hr).elim
    once := fun _ hr => (not_lt_new hr).elim }

theorem fresh_new {conn : Option Bool} {ops : List Op}
    (hids : (ops.filterMap Op.created).Nodup) : Fresh (newTunnelSession conn) ops :=
  ⟨fun _ _ _ hr => (not_lt_new hr).elim, hids⟩

theorem removeStream_of_some (h : s.streams id = some r) :
    removeStream s id = { s with
      doneCloses := Function.update s.doneCloses r (s.doneCloses r + 1)
      streams := Function.update s.streams id none } := by
  simp only [removeStream, h]

theorem removeStream_of_none (h : s.streams id = none) : removeStream s id = s := by
  simp only [removeStream, h]

theorem close_of_closed (hs : s.closed = true) : close s = s := if_pos hs

theorem close_of_open (hs : s.closed = false) :
    close s = { s with
      closed := true
      doneCloses := fun r =>
        if s.streams (s.id r) = some r then s.doneCloses r + 1 else s.doneCloses r
      streams := fun _ => none
      conn := s.conn.map fun _ => false } := by
  simp [close, hs]

theorem createStream_listed (h : Listed s) (hid : Unused s id) : Listed (createStream s id) := by
  have old : ∀ r < s.made + 1, r ≠ s.made → r < s.made := fun r hr hne => by omega
  refine ⟨fun d r hd => ?_, fun r hr => ?_, fun r hr => ?_⟩
  · simp only [createStream, Function.update_apply] at hd ⊢
    by_cases hdi : d = id
    · rw [if_pos hdi] at hd
      cases hd
      exact ⟨Nat.lt_succ_self _, by rw [if_pos rfl, hdi]⟩
    · rw [if_neg hdi] at hd
      obtain ⟨hlt, hown⟩ := h.own d r hd
      exact ⟨Nat.lt_succ_of_lt hlt, by rw [if_neg (Nat.ne_of_lt hlt), hown]⟩
  · simp only [createStream, Function.update_apply]
    by_cases hrm : r = s.made
    · simp [hrm]
    · simp only [if_neg hrm, if_neg (hid r (old r hr hrm))]
      exact h.listed r (old r hr hrm)
  · simp only [createStream, Function.update_apply]
    by_cases hrm : r = s.made
    · simp [hrm]
    · rw [if_neg hrm]
      exact h.once r (old r hr hrm)

theorem removeStream_listed (h : Listed s) (id : UInt32) : Listed (removeStream s id) := by
  cases hs : s.streams id with
  | none => exact (removeStream_of_none hs).symm ▸ h
  | some r =>
    obtain ⟨hr, hown⟩ := h.own id r hs
    have hopen : s.doneCloses r = 0 := (h.listed r hr).mp (hown ▸ hs)
    rw [removeStream_of_some hs]
    refine ⟨fun d q hd => ?_, fun q hq => ?_, fun q hq => ?_⟩
    · by_cases hdi : d = id
      · simp [hdi] at hd
      · simp only [Function.update_of_ne hdi] at hd
        exact h.own d q hd
    · by_cases hqr : q = r
      · simp [hqr, hown]
      · -- another stream under this id is not the one in the table
        have hkeep : Function.update s.streams id none (s.id q) = some q ↔
            s.streams (s.id q) = some q := by
          by_cases hqi : s.id q = id
          · rw [hqi, Function.update_self, hs]
            simp [Ne.symm hqr]
          · rw [Function.update_of_ne hqi]
        simp only [hkeep, Function.update_of_ne hqr]
        exact h.listed q hq
    · by_cases hqr : q = r
      · simp [hqr, hopen]
      · simp only [Function.update_of_ne hqr]
        exact h.once q hq

/- `Close` on an open session closes what is open, and only that. -/
theorem close_done (h : Listed s) (hs : s.closed = false) (hr : r < s.made) :
    (close s).doneCloses r = 1 := by
  have honce := h.once r hr
  simp only [close_of_open hs]
  by_cases hopen : s.doneCloses r = 0
  · rw [if_pos ((h.listed r hr).mpr hopen), hopen]
  · rw [if_neg (mt (h.listed r hr).mp hopen)]
    omega

theorem close_made (s : TunnelSession) : (close s).made = s.made ∧ (close s).id = s.id := by
  unfold close
  split <;> exact ⟨rfl, rfl⟩

theorem close_listed (h : Listed s) : Listed (close s) := by
  cases hs : s.closed with
  | true => exact (close_of_closed hs).symm ▸ h
  | false =>
    have hempty : ∀ id, (close s).streams id = none := fun id => by rw [close_of_open hs]
    have hdone : ∀ r < (close s).made, (close s).doneCloses r = 1 := fun r hr =>
      close_done h hs ((close_made s).1 ▸ hr)
    refine ⟨fun d r hd => ?_, fun r hr => ?_, fun r hr => ?_⟩
    · rw [hempty] at hd
      cases hd
    · simp [hempty, hdone r hr]
    · exact Nat.le_of_eq (hdone r hr)

theorem removeStream_made (s : TunnelSession) (id : UInt32) :
    (removeStream s id).made = s.made ∧ (removeStream s id).id = s.id ∧
      (removeStream s id).closed = s.closed := by
  unfold removeStream
  split <;> exact ⟨rfl, rfl, rfl⟩

/-- After an operation the ids in use are those from before and the one it gave out. -/
theorem apply_unused (h : Unused s id) (hop : op.created ≠ some id) : Unused (apply s op) id := by
  intro r hr
  cases op with
  | createStream d =>
    simp only [apply, createStream, Function.update_apply] at hr ⊢
    by_cases hrm : r = s.made
    · rw [if_pos hrm]
      exact fun he => hop (congrArg some he)
    · rw [if_neg hrm]
      exact h r (by omega)
  | removeStream d =>
    obtain ⟨hmade, hid, -⟩ := removeStream_made s d
    rw [apply, hid]
    exact h r (hmade ▸ hr)
  | close =>
    obtain ⟨hmade, hid⟩ := close_made s
    rw [apply, hid]
    exact h r (hmade ▸ hr)

theorem Fresh.head (h : Fresh s (op :: rest)) (hid : op.created = some id) :
    Unused s id ∧ id ∉ rest.filterMap Op.created := by
  have hnodup := h.nodup
  rw [List.filterMap_cons_some hid] at hnodup
  exact ⟨h.unused id (List.mem_filterMap.mpr ⟨op, List.mem_cons_self, hid⟩),
    (List.nodup_cons.mp hnodup).1⟩

theorem Fresh.tail (h : Fresh s (op :: rest)) : Fresh (apply s op) rest := by
  have hsub := (List.sublist_cons_self op rest).filterMap Op.created
  refine ⟨fun id hid => apply_unused (h.unused id (hsub.subset hid)) fun he => ?_,
    h.nodup.sublist hsub⟩
  exact (h.head he).2 hid

theorem apply_listed (h : Listed s) (hfresh : Fresh s (op :: rest)) : Listed (apply s op) := by
  cases op with
  | createStream id => exact createStream_listed h (hfresh.head rfl).1
  | removeStream id => exact removeStream_listed h id
  | close => exact close_listed h

theorem apply_closed (s : TunnelSession) (op : Op) :
    (apply s op).closed = true ↔ s.closed = true ∨ op = .close := by
  cases op with
  | createStream id => simp [apply, createStream]
  | removeStream id => simp [apply, (removeStream_made s id).2.2]
  | close => cases hs : s.closed <;> simp [apply, close, hs]

/- `RemoveStream` opens no Done channel again. -/
theorem removeStream_done (h : s.doneCloses r ≠ 0) (id : UInt32) :
    (removeStream s id).doneCloses r ≠ 0 := by
  cases hs : s.streams id with
  | none => rwa [removeStream_of_none hs]
  | some q =>
    simp only [removeStream_of_some hs, Function.update_apply]
    split
    · exact Nat.succ_ne_zero _
    · exact h

/-- The step at which a closed session gets an open stream is a `CreateStream`. -/
theorem apply_shut_iff (h : Listed s) (hshut : Shut s) (op : Op) :
    Shut (apply s op) ↔ (s.closed = true → op.created = none) := by
  cases op with
  | createStream id =>
    have hnew : (createStream s id).doneCloses s.made = 0 := Function.update_self ..
    have hlt : s.made < (createStream s id).made := Nat.lt_succ_self _
    exact ⟨fun ht hc => absurd hnew (ht hc s.made hlt), fun hop hc => nomatch hop hc⟩
  | removeStream id =>
    obtain ⟨hmade, -, hclosed⟩ := removeStream_made s id
    refine iff_of_true (fun hc r hr => ?_) fun _ => rfl
    exact removeStream_done (hshut (hclosed ▸ hc) r (hmade ▸ hr)) id
  | close =>
    refine iff_of_true (fun _ r hr => ?_) fun _ => rfl
    have hr' : r < s.made := (close_made s).1 ▸ hr
    cases hs : s.closed with
    | true =>
      simp only [apply, close_of_closed hs]
      exact hshut hs r hr'
    | false => simp [apply, close_done h hs hr']

theorem visited_listed (h : Listed s) (ops : List Op) (hfresh : Fresh s ops) :
    ∀ u ∈ visited step ops s, Listed u := by
  induction ops generalizing s with
  | nil => simpa [visited] using h
  | cons op rest ih =>
    exact List.forall_mem_cons.mpr ⟨h, ih (apply_listed h hfresh) hfresh.tail⟩

/- From any state, so that the session may be closed already. -/
theorem visited_shut_iff (h : Listed s) (hshut : Shut s) (ops : List Op) (hfresh : Fresh s ops) :
    (∀ u ∈ visited step ops s, Shut u) ↔
      (s.closed = true → ∀ op ∈ ops, op.created = none) ∧
        ops.Pairwise fun a b => a = .close → b.created = none := by
  induction ops generalizing s with
  | nil => simp [visited, hshut]
  | cons op rest ih =>
    have hvisited : visited step (op :: rest) s = s :: visited step rest (apply s op) := rfl
    rw [hvisited, List.forall_mem_cons, List.forall_mem_cons, List.pairwise_cons]
    by_cases hkeep : s.closed = true → op.created = none
    · have hs' : Shut (apply s op) := (apply_shut_iff h hshut op).mpr hkeep
      rw [ih (apply_listed h hfresh) hs' hfresh.tail, apply_closed]
      grind
    · have hlost : ¬ Shut (apply s op) := mt (apply_shut_iff h hshut op).mp hkeep
      refine iff_of_false (fun hall => hlost ?_) fun hall => hkeep fun hc => (hall.1 hc).1
      exact hall.2 _ (start_mem_visited step rest (apply s op))

/-- The life of the streams of a session, over every sequence of operations that gives no
id twice: each Done channel is closed at most once, a stream is in the table exactly while
its Done channel is open, and a closed session has no open stream; in every state of the
sequence if and only if no `CreateStream` comes after a `Close`. -/
theorem streams_end_with_session_iff (conn : Option Bool) (ops : List Op)
    (hids : (ops.filterMap Op.created).Nodup) :
    (∀ s ∈ visited step ops (newTunnelSession conn),
      (∀ r < s.made, s.doneCloses r ≤ 1) ∧
      (∀ r < s.made, (s.streams (s.id r) = some r ↔ s.doneCloses r = 0)) ∧
      (s.closed = true → ∀ r < s.made, s.doneCloses r ≠ 0)) ↔
    ops.Pairwise fun a b => a = .close → b.created = none := by
  have hfresh : Fresh (newTunnelSession conn) ops := fresh_new hids
  have hlisted := visited_listed (listed_new conn) ops hfresh
  have hshut := visited_shut_iff (listed_new conn) (fun hc => nomatch hc) ops hfresh
  constructor
  · intro hall
    exact (hshut.mp fun s hs => (hall s hs).2.2).2
  · intro hops s hs
    have hopen : (newTunnelSession conn).closed = true → ∀ op ∈ ops, op.created = none :=
      fun hc => nomatch hc
    exact ⟨(hlisted s hs).once, (hlisted s hs).listed, hshut.mpr ⟨hopen, hops⟩ s hs⟩

/- Two streams, one of them removed before the session is closed. -/
def twoStreams : List Op := [.createStream 1, .createStream 2, .removeStream 1, .close, .close]

theorem streams_end_with_session_of_two :
    (twoStreams.filterMap Op.created).Nodup ∧
      ∀ s ∈ visited step twoStreams (newTunnelSession (some true)),
        (∀ r < s.made, s.doneCloses r ≤ 1) ∧
        (∀ r < s.made, (s.streams (s.id r) = some r ↔ s.doneCloses r = 0)) ∧
        (s.closed = true → ∀ r < s.made, s.doneCloses r ≠ 0) :=
  ⟨by decide, (streams_end_with_session_iff _ _ (by decide)).mpr (by decide)⟩

/-- A `ForwardRequest` call has looked the session up when it is closed, and makes its
stream afterwards: the Done channel is open, and a second `Close` leaves it so. -/
theorem stream_opened_after_close :
    (exec step [.close, .createStream 1, .close] (newTunnelSession (some true))).map
      (fun s => (s.closed, s.made, s.doneCloses 0, s.streams 1)) = some (true, 1, 0, some 0) := by
  decide

end EdgeDispatch.Tunnel.StreamLifecycle
