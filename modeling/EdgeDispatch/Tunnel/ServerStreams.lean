import EdgeDispatch.Tunnel.SharedConn

/-! # Response streams on the tunnel server

One session of the server: its `messageLoop`, any number of `ForwardRequest` calls
with their deferred `RemoveStream`, and the readers these calls return
(server.go:191-354, tunnel.go:130-181). Frames arrive whole and in the order of
each client goroutine; what two Write calls can do to a frame is the subject of
`SharedConn`. -/

namespace EdgeDispatch.Tunnel.ServerStreams
open Lib.Transition Lib.ByteString Tunnel.Wire
open Tunnel.SharedConn (Reply handleRequest handleRequest_streamID heartbeat)

inductive Status where
  | reading
  | eof
  | failed
  deriving DecidableEq

/- `tunnelBodyReader`; `out` collects what its Read calls have returned so far. -/
structure Reader where
  remain : ℤ
  buf : Bytes
  out : Bytes
  status : Status
  deriving DecidableEq

/-- Where a `ForwardRequest` call is. `returning` is after its return statement and
before the deferred `RemoveStream`; `none` stands for an error result. -/
inductive Pc where
  | idle
  | created
  | requested
  | waiting
  | returning (r : Option Reader)
  | returned (r : Option Reader)
  deriving DecidableEq

/- `messageLoop` is reading, or blocked in `stream.Response <- msg`. -/
inductive Loop (ι : Type) where
  | reading
  | sending (i : ι) (m : Message)
  | stopped

/-- A stream object is named by the call that created it: `response` is its one-slot
channel and `done` whether its Done channel is closed. `todo` is what the client
still has to send for a call, once `asked`. -/
structure State (ι : Type) where
  nextID : ℕ
  id : ι → UInt32
  pc : ι → Pc
  asked : ι → Bool
  todo : ι → List Message
  wire : List Message
  loop : Loop ι
  streams : UInt32 → Option ι
  response : ι → Option Message
  done : ι → Bool
  closed : Bool

/- Which ready branch of the select in `Read` is taken. -/
inductive Pick where
  | response
  | done
  | timeout

inductive Act (ι : Type) where
  | createStream (i : ι)
  | writeRequest (i : ι) (ok : Bool)
  | writeBody (i : ι) (ok : Bool)
  | clientSend (i : ι)
  | clientHeartbeat
  | loopRead
  | loopSend
  | loopStop
  | receive (i : ι)
  | timeout (i : ι)
  | cleanup (i : ι)
  | read (i : ι) (n : ℕ) (pick : Pick)
  | close

def start {ι : Type} : State ι :=
  { nextID := 0, id := fun _ => 0, pc := fun _ => .idle, asked := fun _ => false,
    todo := fun _ => [], wire := [], loop := .reading, streams := fun _ => none,
    response := fun _ => none, done := fun _ => false, closed := false }

variable {ι : Type} [DecidableEq ι]

def setPc (s : State ι) (i : ι) (p : Pc) : State ι := { s with pc := Function.update s.pc i p }

/- `uint32(s.nextID.Add(1))` -/
def streamID (n : ℕ) : UInt32 := UInt32.ofNat n

def createStream (reply : ι → Reply) (s : State ι) (i : ι) : State ι :=
  { s with
    nextID := s.nextID + 1
    id := Function.update s.id i (streamID (s.nextID + 1))
    pc := Function.update s.pc i .created
    todo := Function.update s.todo i (handleRequest (streamID (s.nextID + 1)) (reply i))
    streams := Function.update s.streams (streamID (s.nextID + 1)) (some i)
    response := Function.update s.response i none
    done := Function.update s.done i false }

def removeStream (s : State ι) (id : UInt32) : State ι :=
  match s.streams id with
  | some i => { s with
      done := Function.update s.done i true
      streams := Function.update s.streams id none }
  | none => s

/- `TunnelSession.Close`: the Done channel of every stream still in the map. -/
def close (s : State ι) : State ι :=
  if s.closed then s
  else { s with
    closed := true
    done := fun i => s.done i || decide (s.streams (s.id i) = some i)
    streams := fun _ => none }

/-- The switch of `messageLoop`; Error frames fall into its default branch. -/
def dispatch (s : State ι) (m : Message) : State ι :=
  if m.header.msgType = msgTypeHeartbeat then s
  else if m.header.msgType = msgTypeResponse ∨ m.header.msgType = msgTypeData then
    match s.streams m.header.streamID with
    | some i => { s with loop := .sending i m }
    | none => s
  else if m.header.msgType = msgTypeDataEnd then removeStream s m.header.streamID
  else s

/- What `ForwardRequest` makes of the first message on its stream; `unmarshal` is
   the body_len of a response header, if the payload is one. -/
def respond (unmarshal : Bytes → Option ℤ) (m : Message) : Option Reader :=
  if m.header.msgType = msgTypeError then none
  else (unmarshal m.payload).map fun n => ⟨n, [], [], .reading⟩

def takeMessage (r : Reader) (n : ℕ) (m : Message) : Reader :=
  if m.header.msgType = msgTypeData then
    { r with
      remain := r.remain - m.payload.length
      buf := m.payload.drop n
      out := r.out ++ m.payload.take n }
  else if m.header.msgType = msgTypeDataEnd then { r with status := .eof }
  else { r with status := .failed }

/- One Read call with room for `n` bytes. -/
def read (s : State ι) (i : ι) (r : Reader) (n : ℕ) (pick : Pick) : Option (State ι) :=
  if r.remain ≤ 0 ∧ r.buf = [] then some (setPc s i (.returned (some { r with status := .eof })))
  else if r.buf ≠ [] then
    some (setPc s i (.returned (some { r with buf := r.buf.drop n, out := r.out ++ r.buf.take n })))
  else
    match pick with
    | .response =>
      match s.response i with
      | some m => some (setPc { s with response := Function.update s.response i none } i
          (.returned (some (takeMessage r n m))))
      | none => none
    | .done =>
      if s.done i then some (setPc s i (.returned (some { r with status := .eof }))) else none
    | .timeout => some (setPc s i (.returned (some { r with status := .failed })))

def step (unmarshal : Bytes → Option ℤ) (reply : ι → Reply) (s : State ι) :
    Act ι → Option (State ι)
  | .createStream i => if s.pc i = .idle then some (createStream reply s i) else none
  | .writeRequest i ok =>
    if s.pc i = .created then
      some (if ok then setPc { s with asked := Function.update s.asked i true } i .requested
        else setPc s i (.returning none))
    else none
  | .writeBody i ok =>
    if s.pc i = .requested then some (setPc s i (if ok then .waiting else .returning none))
    else none
  | .clientSend i =>
    match s.asked i, s.todo i with
    | true, m :: rest =>
      some { s with wire := s.wire ++ [m], todo := Function.update s.todo i rest }
    | _, _ => none
  | .clientHeartbeat => some { s with wire := s.wire ++ [heartbeat] }
  | .loopRead =>
    match s.loop, s.wire with
    | .reading, m :: rest => some (dispatch { s with wire := rest } m)
    | _, _ => none
  | .loopSend =>
    match s.loop with
    | .sending i m =>
      if s.response i = none then
        some { s with response := Function.update s.response i (some m), loop := .reading }
      else none
    | _ => none
  | .loopStop =>
    match s.loop with
    | .reading => some { s with loop := .stopped }
    | _ => none
  | .receive i =>
    match s.pc i, s.response i with
    | .waiting, some m =>
      some (setPc { s with response := Function.update s.response i none } i
        (.returning (respond unmarshal m)))
    | _, _ => none
  | .timeout i => if s.pc i = .waiting then some (setPc s i (.returning none)) else none
  | .cleanup i =>
    match s.pc i with
    | .returning r => some (setPc (removeStream s (s.id i)) i (.returned r))
    | _ => none
  | .read i n pick =>
    match s.pc i with
    | .returned (some r) => if r.status = .reading then read s i r n pick else none
    | _ => none
  | .close => some (close s)

/-- The reader of call `c`, once at EOF, has returned the whole body. -/
def WholeAtEof (s : State ι) (c : ι) (body : Bytes) : Prop :=
  ∀ r, s.pc c = .returned (some r) → r.status = .eof → r.out = body

/-- Even when the loop runs as far ahead as the slot lets it, the third Data frame
comes after the deferred `RemoveStream` and is dropped. -/
theorem third_chunk_dropped :
    ∃ s, Reach (step (fun _ => some 3) fun _ : Unit => .response [] [[1], [2], [3]] true)
        Free start s ∧ ¬ WholeAtEof s () [1, 2, 3] := by
  let acts : List (Act Unit) := [.createStream (), .writeRequest () true, .writeBody () true,
    .clientSend (), .clientSend (), .clientSend (), .clientSend (), .clientSend (),
    .loopRead, .loopSend, .receive (), .loopRead, .loopSend, .loopRead, .cleanup (),
    .read () 1 .response, .loopSend, .loopRead, .loopRead, .read () 1 .response, .read () 1 .done]
  have hrun : (exec (step (fun _ => some 3) fun _ : Unit =>
      .response [] [[1], [2], [3]] true) acts start).map (fun s => s.pc ()) =
      some (.returned (some ⟨1, [], [1, 2], .eof⟩)) := rfl
  obtain ⟨s, hr, hpc⟩ := reach_of_view acts _ hrun
  refine ⟨s, hr, ?_⟩
  intro hwhole
  have hout := hwhole _ hpc rfl
  exact absurd hout (by decide)

/-! ### A body is lost whenever there is one -/

/- The reader comes to `Done` (or to a body_len of -1) before any Data frame. -/
def hasty (c : ι) : List (Act ι) :=
  [.createStream c, .writeRequest c true, .writeBody c true, .clientSend c, .loopRead, .loopSend,
    .receive c, .cleanup c, .read c 1 .done]

/-- Stream ids are taken from a counter, cut to 32 bits; they are not used up. -/
def FreshIds (s : State ι) : Act ι → Prop
  | .createStream _ => s.nextID + 1 < 2 ^ 32
  | _ => True

theorem hasty_freshIds (unmarshal : Bytes → Option ℤ) (reply : ι → Reply) (c : ι) :
    Guarded (step unmarshal reply) FreshIds (hasty c) start := by
  simp [hasty, Guarded, FreshIds, start]

/- The call is made and its response header waits for it. -/
theorem hasty_sent (unmarshal : Bytes → Option ℤ) (reply : ι → Reply) (c : ι) (json : Bytes)
    (ds : List Bytes) (hc : reply c = .response json ds true) :
    ∃ s, exec (step unmarshal reply) ((hasty c).take 6) start = some s ∧ s.pc c = .waiting ∧
      s.response c = some (newDataMessage msgTypeResponse (streamID 1) json) ∧
      s.streams (s.id c) = some c := by
  simp [hasty, exec, step, start, createStream, setPc, dispatch, hc, handleRequest,
    newDataMessage, msgTypeHeartbeat, msgTypeResponse]

variable {unmarshal : Bytes → Option ℤ} {reply : ι → Reply} {s : State ι} {c i : ι} {json : Bytes}
  {m : Message}
variable {n : ℤ} {t : State ι} {resp : Message} {ds : List Bytes} {r : Reader} {pick : Pick}

theorem answered_eof (hpc : s.pc c = .waiting)
    (hresponse : s.response c = some (newDataMessage msgTypeResponse (streamID 1) json))
    (hstream : s.streams (s.id c) = some c) (hu : unmarshal json = some n) :
    ∃ t, exec (step unmarshal reply) ((hasty c).drop 6) s = some t ∧
      t.pc c = .returned (some ⟨n, [], [], .eof⟩) := by
  simp [hasty, exec, step, setPc, respond, removeStream, read, hpc, hresponse, hstream, hu,
    newDataMessage, msgTypeResponse, msgTypeError]

theorem hasty_eof (unmarshal : Bytes → Option ℤ) (reply : ι → Reply) (c : ι) (json : Bytes)
    (ds : List Bytes) (n : ℤ) (hc : reply c = .response json ds true)
    (hu : unmarshal json = some n) :
    ∃ s, exec (step unmarshal reply) (hasty c) start = some s ∧
      s.pc c = .returned (some ⟨n, [], [], .eof⟩) := by
  obtain ⟨s, hs, hpc, hresponse, hstream⟩ := hasty_sent unmarshal reply c json ds hc
  obtain ⟨t, ht, hend⟩ := answered_eof hpc hresponse hstream hu
  refine ⟨t, ?_, hend⟩
  rw [← List.take_append_drop 6 (hasty c), exec_append, hs, Option.bind_some, ht]

/-! ### Without a body the reader is at EOF from the start -/

/-- Stream ids tell the calls apart, and every frame on its way belongs to a call
already made. -/
structure Ids (s : State ι) : Prop where
  bound : ∀ i, s.pc i ≠ .idle → 1 ≤ (s.id i).toNat ∧ (s.id i).toNat ≤ s.nextID
  distinct : ∀ i j, s.pc i ≠ .idle → s.pc j ≠ .idle → s.id i = s.id j → i = j
  table : ∀ d i, s.streams d = some i → s.pc i ≠ .idle ∧ s.id i = d
  wire : ∀ m ∈ s.wire, m.header.streamID.toNat ≤ s.nextID
  todo : ∀ i, ∀ m ∈ s.todo i, s.pc i ≠ .idle ∧ m.header.streamID = s.id i
  loop : ∀ i m, s.loop = .sending i m → s.pc i ≠ .idle

omit [DecidableEq ι] in
theorem Ids.mono (h : Ids s) (hn : t.nextID = s.nextID) (hid : t.id = s.id)
    (hpc : ∀ i, t.pc i = .idle ↔ s.pc i = .idle)
    (htab : ∀ d i, t.streams d = some i → s.streams d = some i)
    (hwire : ∀ m ∈ t.wire, m ∈ s.wire ∨ m.header.streamID.toNat ≤ s.nextID)
    (htodo : ∀ i, ∀ m ∈ t.todo i, m ∈ s.todo i)
    (hloop : ∀ i m, t.loop = .sending i m → s.pc i ≠ .idle) : Ids t := by
  have hne : ∀ i, t.pc i ≠ .idle ↔ s.pc i ≠ .idle := fun i => not_congr (hpc i)
  refine ⟨?_, ?_, ?_, ?_, ?_, ?_⟩
  · intro i hi
    rw [hid, hn]
    exact h.bound i ((hne i).mp hi)
  · intro i j hi hj he
    rw [hid] at he
    exact h.distinct i j ((hne i).mp hi) ((hne j).mp hj) he
  · intro d i hd
    rw [hid, hne]
    exact h.table d i (htab d i hd)
  · intro m hm
    rw [hn]
    rcases hwire m hm with hm | hm
    · exact h.wire m hm
    · exact hm
  · intro i m hm
    rw [hid, hne]
    exact h.todo i m (htodo i m hm)
  · intro i m hm
    rw [hne]
    exact hloop i m hm

omit [DecidableEq ι] in
/- The loop holds no message. -/
theorem Ids.unheld (h : Ids s) (response : ι → Option Message) {loop : Loop ι}
    (hloop : ∀ i m, loop ≠ .sending i m) : Ids { s with response := response, loop := loop } :=
  h.mono rfl rfl (fun _ => Iff.rfl) (fun _ _ h => h) (fun _ hm => Or.inl hm) (fun _ _ h => h)
    fun i m hm => absurd hm (hloop i m)

theorem removeStream_eq (s : State ι) (d : UInt32) :
    ∃ dn st, removeStream s d = { s with done := dn, streams := st } ∧
      ∀ d' i, st d' = some i → s.streams d' = some i := by
  unfold removeStream
  split
  case h_1 i hd =>
    refine ⟨_, _, rfl, ?_⟩
    intro d' j hj
    by_cases he : d' = d
    · subst he
      simp at hj
    · simpa [he] using hj
  case h_2 => exact ⟨s.done, s.streams, rfl, fun _ _ h => h⟩

theorem close_eq (s : State ι) :
    ∃ cl dn st, close s = { s with closed := cl, done := dn, streams := st } ∧
      ∀ d' i, st d' = some i → s.streams d' = some i := by
  unfold close
  split
  · exact ⟨s.closed, s.done, s.streams, rfl, fun _ _ h => h⟩
  · exact ⟨true, _, fun _ => none, rfl, fun _ _ h => by cases h⟩

/- The frames of call `c` that `messageLoop` has not read yet. -/
def flow (s : State ι) (c : ι) : List Message :=
  s.wire.filter (fun m => m.header.streamID = s.id c) ++ s.todo c

/- Until `ForwardRequest` has received, the first message to get to it is `resp`:
   it is in the channel, or in the hands of `messageLoop`, or next in the flow,
   unless the stream is out of the map for good. -/
structure First (c : ι) (resp : Message) (s : State ι) : Prop where
  queued : ∀ m, s.response c = some m → m = resp
  held : s.response c = none → ∀ m, s.loop = .sending c m → m = resp
  next : s.response c = none → (∀ m, s.loop ≠ .sending c m) → s.streams (s.id c) = some c →
    ∃ rest, flow s c = resp :: rest

omit [DecidableEq ι] in
theorem First.mono (h : First c resp s) (hid : t.id c = s.id c)
    (hresp : t.response c = s.response c)
    (hloop : ∀ m, t.loop = .sending c m ↔ s.loop = .sending c m)
    (htab : t.streams (s.id c) = some c → s.streams (s.id c) = some c)
    (hflow : ∃ new, flow t c = flow s c ++ new) : First c resp t := by
  obtain ⟨new, hnew⟩ := hflow
  refine ⟨?_, ?_, ?_⟩
  · rw [hresp]
    exact h.queued
  · intro hr m hm
    rw [hresp] at hr
    exact h.held hr m ((hloop m).mp hm)
  · intro hr hl ht
    rw [hresp] at hr
    rw [hid] at ht
    obtain ⟨rest, hrest⟩ := h.next hr (fun m hm => hl m ((hloop m).mpr hm)) (htab ht)
    exact ⟨rest ++ new, by rw [hnew, hrest, List.cons_append]⟩

def Pc.early : Pc → Bool
  | .created | .requested | .waiting => true
  | _ => false

def Pc.reader : Pc → Option Reader
  | .returning r | .returned r => r
  | _ => none

/- Nothing was announced and nothing returned. -/
def Spent (r : Reader) : Prop := r.remain ≤ 0 ∧ r.buf = [] ∧ r.out = []

/-- All that a step can do; `called` is a step of a call that has not received yet. -/
inductive Effect (unmarshal : Bytes → Option ℤ) (reply : ι → Reply) (s : State ι) :
    Act ι → State ι → Prop
  | created (i : ι) (hi : s.pc i = .idle) :
      Effect unmarshal reply s (.createStream i) (createStream reply s i)
  | called {a : Act ι} (i : ι) (p : Pc) (asked : ι → Bool) (hfrom : (s.pc i).early = true)
      (hto : p = .requested ∨ p = .waiting ∨ p = .returning none) :
      Effect unmarshal reply s a (setPc { s with asked := asked } i p)
  | received (i : ι) (m : Message) (hi : s.pc i = .waiting) (hm : s.response i = some m) :
      Effect unmarshal reply s (.receive i) (setPc { s with
        response := Function.update s.response i none } i (.returning (respond unmarshal m)))
  | cleaned (i : ι) (r : Option Reader) (hi : s.pc i = .returning r) :
      Effect unmarshal reply s (.cleanup i) (setPc (removeStream s (s.id i)) i (.returned r))
  | bodyRead {t : State ι} (i : ι) (n : ℕ) (pick : Pick) (r : Reader)
      (hi : s.pc i = .returned (some r)) (hread : read s i r n pick = some t) :
      Effect unmarshal reply s (.read i n pick) t
  | clientSent (i : ι) (m : Message) (rest : List Message) (htodo : s.todo i = m :: rest) :
      Effect unmarshal reply s (.clientSend i)
        { s with wire := s.wire ++ [m], todo := Function.update s.todo i rest }
  | heartbeatSent :
      Effect unmarshal reply s .clientHeartbeat { s with wire := s.wire ++ [heartbeat] }
  | frameRead (m : Message) (rest : List Message) (hloop : s.loop = .reading)
      (hwire : s.wire = m :: rest) :
      Effect unmarshal reply s .loopRead (dispatch { s with wire := rest } m)
  | delivered (i : ι) (m : Message) (hloop : s.loop = .sending i m) (hempty : s.response i = none) :
      Effect unmarshal reply s .loopSend
        { s with response := Function.update s.response i (some m), loop := .reading }
  | loopStopped (hloop : s.loop = .reading) :
      Effect unmarshal reply s .loopStop { s with loop := .stopped }
  | closed : Effect unmarshal reply s .close (close s)

theorem step_effect {a : Act ι} (h : step unmarshal reply s a = some t) :
    Effect unmarshal reply s a t := by
  cases a with
  | createStream i =>
    obtain ⟨hi, he⟩ := Option.ite_none_right_eq_some.mp h
    cases he
    exact .created i hi
  | writeRequest i ok =>
    obtain ⟨hi, he⟩ := Option.ite_none_right_eq_some.mp h
    cases he
    have hearly : (s.pc i).early = true := by rw [hi]; rfl
    split
    · exact .called i .requested _ hearly (Or.inl rfl)
    · exact .called i (.returning none) s.asked hearly (Or.inr (Or.inr rfl))
  | writeBody i ok =>
    obtain ⟨hi, he⟩ := Option.ite_none_right_eq_some.mp h
    cases he
    refine .called i _ s.asked (by rw [hi]; rfl) ?_
    split
    · exact Or.inr (Or.inl rfl)
    · exact Or.inr (Or.inr rfl)
  | clientSend i =>
    simp only [step] at h
    split at h
    · cases h
      exact .clientSent i _ _ ‹_›
    · cases h
  | clientHeartbeat =>
    cases h
    exact .heartbeatSent
  | loopRead =>
    simp only [step] at h
    split at h
    · cases h
      exact .frameRead _ _ ‹_› ‹_›
    · cases h
  | loopSend =>
    simp only [step] at h
    split at h
    · obtain ⟨hempty, he⟩ := Option.ite_none_right_eq_some.mp h
      cases he
      exact .delivered _ _ ‹_› hempty
    · cases h
  | loopStop =>
    simp only [step] at h
    split at h
    · cases h
      exact .loopStopped ‹_›
    · cases h
  | receive i =>
    simp only [step] at h
    split at h
    · cases h
      exact .received i _ ‹_› ‹_›
    · cases h
  | timeout i =>
    obtain ⟨hi, he⟩ := Option.ite_none_right_eq_some.mp h
    cases he
    exact .called i (.returning none) s.asked (by rw [hi]; rfl) (Or.inr (Or.inr rfl))
  | cleanup i =>
    simp only [step] at h
    split at h
    · cases h
      exact .cleaned i _ ‹_›
    · cases h
  | read i n pick =>
    simp only [step] at h
    split at h
    · obtain ⟨-, he⟩ := Option.ite_none_right_eq_some.mp h
      exact .bodyRead i n pick _ ‹_› he
    · cases h
  | close =>
    cases h
    exact .closed

structure Inv (c : ι) (json : Bytes) (s : State ι) : Prop where
  ids : Ids s
  first : (s.pc c).early = true → First c (newDataMessage msgTypeResponse (s.id c) json) s
  after : ∀ r, (s.pc c).reader = some r → Spent r

omit [DecidableEq ι] in
theorem inv_start (c : ι) (json : Bytes) : Inv c json start := by
  refine ⟨⟨?_, ?_, ?_, ?_, ?_, ?_⟩, ?_, ?_⟩ <;> simp [start, Pc.early, Pc.reader]

theorem createStream_self (reply : ι → Reply) (s : State ι) (i : ι) :
    (createStream reply s i).pc i = .created ∧
      (createStream reply s i).id i = streamID (s.nextID + 1) := by
  simp [createStream]

theorem createStream_others (reply : ι → Reply) (s : State ι) {j : ι} (hj : j ≠ i) :
    (createStream reply s i).pc j = s.pc j ∧ (createStream reply s i).id j = s.id j := by
  simp [createStream, hj]

omit [DecidableEq ι] in
theorem Ids.ne_next (h : Ids s) (hn : s.nextID + 1 < 2 ^ 32) {j : ι} (hj : s.pc j ≠ .idle) :
    s.id j ≠ streamID (s.nextID + 1) := by
  intro he
  have hnew : (streamID (s.nextID + 1)).toNat = s.nextID + 1 := UInt32.toNat_ofNat_of_lt hn
  have hb := (h.bound j hj).2
  rw [he, hnew] at hb
  omega

theorem createStream_distinct (reply : ι → Reply) (h : Ids s) (hn : s.nextID + 1 < 2 ^ 32) (j k : ι)
    (hj : (createStream reply s i).pc j ≠ .idle) (hk : (createStream reply s i).pc k ≠ .idle)
    (he : (createStream reply s i).id j = (createStream reply s i).id k) : j = k := by
  have hself := createStream_self reply s i
  by_cases hji : j = i <;> by_cases hki : k = i
  · rw [hji, hki]
  · have hother := createStream_others reply s hki
    rw [hother.1] at hk
    rw [hji, hself.2, hother.2] at he
    exact absurd he.symm (h.ne_next hn hk)
  · have hother := createStream_others reply s hji
    rw [hother.1] at hj
    rw [hki, hself.2, hother.2] at he
    exact absurd he (h.ne_next hn hj)
  · have hotherj := createStream_others reply s hji
    have hotherk := createStream_others reply s hki
    rw [hotherj.1] at hj
    rw [hotherk.1] at hk
    rw [hotherj.2, hotherk.2] at he
    exact h.distinct j k hj hk he

theorem createStream_ids (reply : ι → Reply) (h : Ids s) (hn : s.nextID + 1 < 2 ^ 32)
    (hi : s.pc i = .idle) : Ids (createStream reply s i) := by
  have hnew : (streamID (s.nextID + 1)).toNat = s.nextID + 1 := UInt32.toNat_ofNat_of_lt hn
  have hself := createStream_self reply s i
  have hne : ∀ j, j ≠ i → _ := fun j hj => createStream_others reply s hj
  refine ⟨?_, createStream_distinct reply h hn, ?_, ?_, ?_, ?_⟩
  · intro j hj
    change 1 ≤ _ ∧ _ ≤ s.nextID + 1
    by_cases he : j = i
    · subst he
      rw [hself.2, hnew]
      omega
    · rw [(hne j he).1] at hj
      rw [(hne j he).2]
      have hb := h.bound j hj
      omega
  · intro d j hd
    by_cases hdn : d = streamID (s.nextID + 1)
    · obtain rfl : i = j := by simpa [createStream, hdn] using hd
      rw [hself.1, hself.2, hdn]
      simp
    · have hd' := h.table d j (by simpa [createStream, hdn] using hd)
      have hji : j ≠ i := fun he => hd'.1 (he ▸ hi)
      rw [(hne j hji).1, (hne j hji).2]
      exact hd'
  · intro m hm
    have hb := h.wire m hm
    change _ ≤ s.nextID + 1
    omega
  · intro j m hm
    by_cases he : j = i
    · subst he
      rw [hself.1, hself.2]
      refine ⟨by simp, ?_⟩
      have hm' : m ∈ handleRequest (streamID (s.nextID + 1)) (reply j) := by
        simpa [createStream] using hm
      exact handleRequest_streamID _ _ m hm'
    · rw [(hne j he).1, (hne j he).2]
      exact h.todo j m (by simpa [createStream, he] using hm)
  · intro j m hm
    have hj := h.loop j m hm
    by_cases he : j = i
    · subst he
      exact absurd hi hj
    · rw [(hne j he).1]
      exact hj

theorem createStream_inv (reply : ι → Reply) (hc : reply c = .response json ds true)
    (h : Inv c json s) (hn : s.nextID + 1 < 2 ^ 32) (hi : s.pc i = .idle) :
    Inv c json (createStream reply s i) := by
  have hnew : (streamID (s.nextID + 1)).toNat = s.nextID + 1 := UInt32.toNat_ofNat_of_lt hn
  refine ⟨createStream_ids reply h.ids hn hi, ?_, ?_⟩
  · intro he
    by_cases hic : i = c
    · subst hic
      refine ⟨?_, ?_, ?_⟩
      · intro m hm
        simp [createStream] at hm
      · intro _ m hm
        exact absurd hi (h.ids.loop i m hm)
      · intro _ _ _
        -- no frame on the wire has the new id yet
        have hnone : s.wire.filter (fun m => m.header.streamID = streamID (s.nextID + 1)) = [] := by
          apply List.filter_eq_nil_iff.mpr
          intro m hm
          have hb := h.ids.wire m hm
          simp only [decide_eq_true_eq]
          intro hid
          rw [hid, hnew] at hb
          omega
        refine ⟨ds.map (newDataMessage msgTypeData (streamID (s.nextID + 1))) ++
          [newDataMessage msgTypeDataEnd (streamID (s.nextID + 1)) []], ?_⟩
        simp [flow, createStream, hnone, hc, handleRequest]
    · have hci : ¬ c = i := fun h => hic h.symm
      obtain ⟨hpc, hid⟩ := createStream_others reply s hci
      rw [hpc] at he
      rw [hid]
      apply (h.first he).mono hid (by simp [createStream, hci]) (fun m => Iff.rfl)
      · intro ht
        by_cases hd : s.id c = streamID (s.nextID + 1)
        · simp [createStream, hd, hic] at ht
        · simpa [createStream, hd] using ht
      · exact ⟨[], by simp [flow, createStream, hci]⟩
  · intro r hr
    by_cases hic : i = c
    · subst hic
      simp [createStream, Pc.reader] at hr
    · have hci : ¬ c = i := fun h => hic h.symm
      exact h.after r (by simpa [createStream, hci] using hr)

/- A step of a call that touches only its own program counter, and of the channels
   at most its own. -/
theorem Inv.move (h : Inv c json s) (p : Pc) (asked : ι → Bool) (response : ι → Option Message)
    (hi : s.pc i ≠ .idle) (hp : p ≠ .idle) (hother : i ≠ c → response c = s.response c)
    (hearly : i = c → p.early = true → (s.pc c).early = true ∧ response c = s.response c)
    (hread : i = c → ∀ r, p.reader = some r → Spent r) :
    Inv c json (setPc { s with asked := asked, response := response } i p) := by
  refine ⟨?_, ?_, ?_⟩
  · refine h.ids.mono rfl rfl ?_ (fun _ _ h => h) (fun m hm => Or.inl hm) (fun _ _ h => h)
      (fun j m hm => h.ids.loop j m hm)
    intro j
    by_cases hj : j = i
    · subst hj
      simp [setPc, hi, hp]
    · simp [setPc, hj]
  · intro he
    have hboth : (s.pc c).early = true ∧ response c = s.response c := by
      by_cases hic : i = c
      · subst hic
        exact hearly rfl (by simpa [setPc] using he)
      · have hci : ¬ c = i := fun h => hic h.symm
        exact ⟨by simpa [setPc, hci] using he, hother hic⟩
    exact (h.first hboth.1).mono rfl hboth.2 (fun m => Iff.rfl) (fun h => h)
      ⟨[], (List.append_nil _).symm⟩
  · intro r hr
    by_cases hic : i = c
    · subst hic
      exact hread rfl r (by simpa [setPc] using hr)
    · have hci : ¬ c = i := fun h => hic h.symm
      exact h.after r (by simpa [setPc, hci] using hr)

theorem Inv.setPc (h : Inv c json s) (p : Pc) (hi : s.pc i ≠ .idle) (hp : p ≠ .idle)
    (hearly : i = c → p.early = true → (s.pc c).early = true)
    (hread : i = c → ∀ r, p.reader = some r → Spent r) : Inv c json (setPc s i p) :=
  h.move p s.asked s.response hi hp (fun _ => rfl) (fun hc he => ⟨hearly hc he, rfl⟩) hread

omit [DecidableEq ι] in
/- Streams leave the map. -/
theorem Inv.shrink (h : Inv c json s) (cl : Bool) (dn : ι → Bool) (st : UInt32 → Option ι)
    (hst : ∀ d i, st d = some i → s.streams d = some i) :
    Inv c json { s with closed := cl, done := dn, streams := st } := by
  refine ⟨?_, ?_, h.after⟩
  · exact h.ids.mono rfl rfl (fun _ => Iff.rfl) hst (fun m hm => Or.inl hm) (fun _ _ h => h)
      (fun j m hm => h.ids.loop j m hm)
  · intro he
    exact (h.first he).mono rfl rfl (fun _ => Iff.rfl) (hst _ _) ⟨[], (List.append_nil _).symm⟩

theorem removeStream_inv (h : Inv c json s) (d : UInt32) : Inv c json (removeStream s d) := by
  obtain ⟨dn, st, he, hst⟩ := removeStream_eq s d
  rw [he]
  exact h.shrink s.closed dn st hst

theorem dispatch_cases (s : State ι) (m : Message) :
    (∃ i, s.streams m.header.streamID = some i ∧ dispatch s m = { s with loop := .sending i m }) ∨
    (∃ dn st, dispatch s m = { s with done := dn, streams := st } ∧
      ∀ d i, st d = some i → s.streams d = some i) := by
  have hsame : ∃ dn st, s = { s with done := dn, streams := st } ∧
      ∀ d i, st d = some i → s.streams d = some i := ⟨s.done, s.streams, rfl, fun _ _ h => h⟩
  unfold dispatch
  split
  · exact Or.inr hsame
  · split
    · split
      case h_1 i hi => exact Or.inl ⟨i, hi, rfl⟩
      case h_2 => exact Or.inr hsame
    · split
      · exact Or.inr (removeStream_eq s _)
      · exact Or.inr hsame

theorem dispatch_reply (s : State ι)
    (hm : m.header.msgType = msgTypeResponse ∨ m.header.msgType = msgTypeData)
    (hi : s.streams m.header.streamID = some i) :
    dispatch s m = { s with loop := .sending i m } := by
  have hheartbeat : m.header.msgType ≠ msgTypeHeartbeat := by
    rcases hm with hm | hm <;> rw [hm] <;> decide
  simp only [dispatch, if_neg hheartbeat, if_pos hm, hi]

/- The loop has read the frame `m` of call `c`, whose channel is empty. -/
theorem First.own (h : First c resp s) (hresp : resp.header.msgType = msgTypeResponse)
    (hempty : s.response c = none) (hloop : s.loop = .reading) (rest : List Message)
    (hwire : s.wire = m :: rest) (hm : m.header.streamID = s.id c) :
    First c resp (dispatch { s with wire := rest } m) := by
  by_cases hin : s.streams (s.id c) = some c
  · obtain ⟨more, hmore⟩ := h.next hempty (by simp [hloop]) hin
    obtain rfl : m = resp := by
      simp only [flow, hwire, List.filter_cons, hm, decide_true, if_true, List.cons_append] at hmore
      exact (List.cons.inj hmore).1
    rw [dispatch_reply { s with wire := rest } (Or.inl hresp) (by rw [hm]; exact hin)]
    refine ⟨?_, ?_, ?_⟩
    · intro x hx
      rw [hempty] at hx
      cases hx
    · intro _ x hx
      exact (Loop.sending.inj hx).2.symm
    · intro _ hx _
      exact absurd rfl (hx m)
  · rcases dispatch_cases { s with wire := rest } m with ⟨i, hi, he⟩ | ⟨dn, st, he, hst⟩
    · rw [he]
      have hic : i ≠ c := by
        rintro rfl
        exact hin (by rw [← hm]; exact hi)
      refine ⟨h.queued, ?_, fun _ _ ht => absurd ht hin⟩
      intro _ x hx
      exact absurd (Loop.sending.inj hx).1 hic
    · rw [he]
      refine ⟨h.queued, ?_, fun _ _ ht => absurd (hst _ _ ht) hin⟩
      intro _ x hx
      rw [hloop] at hx
      cases hx

/- The loop has read a frame of another call. -/
theorem First.other (h : First c resp s) (hids : Ids s) (hloop : s.loop = .reading)
    (rest : List Message) (hwire : s.wire = m :: rest) (hm : m.header.streamID ≠ s.id c) :
    First c resp (dispatch { s with wire := rest } m) := by
  have hflow : flow s c = rest.filter (fun m => m.header.streamID = s.id c) ++ s.todo c := by
    simp [flow, hwire, hm]
  rcases dispatch_cases { s with wire := rest } m with ⟨i, hi, he⟩ | ⟨dn, st, he, hst⟩
  · rw [he]
    have hic : i ≠ c := by
      rintro rfl
      exact hm (hids.table _ _ hi).2.symm
    refine h.mono rfl rfl ?_ (fun h => h) ⟨[], by rw [hflow]; simp [flow]⟩
    intro x
    refine ⟨fun hx => absurd (Loop.sending.inj hx).1 hic, fun hx => ?_⟩
    rw [hloop] at hx
    cases hx
  · rw [he]
    exact h.mono rfl rfl (fun _ => Iff.rfl) (hst _ _) ⟨[], by rw [hflow]; simp [flow]⟩

theorem loopRead_ids (h : Ids s) (m : Message) (rest : List Message) (hwire : s.wire = m :: rest) :
    Ids (dispatch { s with wire := rest } m) := by
  have hrest : ∀ x ∈ rest, x ∈ s.wire ∨ x.header.streamID.toNat ≤ s.nextID := by
    intro x hx
    rw [hwire]
    exact Or.inl (List.mem_cons_of_mem _ hx)
  rcases dispatch_cases { s with wire := rest } m with ⟨i, hi, he⟩ | ⟨dn, st, he, hst⟩
  · rw [he]
    refine h.mono rfl rfl (fun _ => Iff.rfl) (fun _ _ h => h) hrest (fun _ _ h => h) ?_
    intro j x hx
    obtain rfl := (Loop.sending.inj hx).1
    exact (h.table _ _ hi).1
  · rw [he]
    refine h.mono rfl rfl (fun _ => Iff.rfl) hst hrest (fun _ _ h => h) ?_
    intro j x hx
    exact h.loop j x hx

theorem dispatch_pc (s : State ι) (m : Message) (c : ι) :
    (dispatch s m).pc c = s.pc c ∧ (dispatch s m).id c = s.id c ∧
      (dispatch s m).response c = s.response c := by
  rcases dispatch_cases s m with ⟨i, _, he⟩ | ⟨dn, st, he, _⟩ <;> rw [he] <;> exact ⟨rfl, rfl, rfl⟩

theorem loopRead_inv (h : Inv c json s) (hloop : s.loop = .reading) (m : Message)
    (rest : List Message) (hwire : s.wire = m :: rest) :
    Inv c json (dispatch { s with wire := rest } m) := by
  obtain ⟨hpc, hid, hresp⟩ := dispatch_pc { s with wire := rest } m c
  refine ⟨loopRead_ids h.ids m rest hwire, ?_, fun r hr => h.after r (by rwa [hpc] at hr)⟩
  intro he
  rw [hpc] at he
  rw [hid]
  have hf := h.first he
  by_cases hm : m.header.streamID = s.id c
  · cases hq : s.response c with
    | none => exact hf.own rfl hq hloop rest hwire hm
    | some x =>
      -- the slot is taken, by the Response
      have hx : (dispatch { s with wire := rest } m).response c = some x := hresp.trans hq
      refine ⟨?_, ?_, ?_⟩
      · rw [hx]
        rintro y hy
        exact hf.queued y (hq.trans hy)
      · rw [hx]
        intro hn
        cases hn
      · rw [hx]
        intro hn
        cases hn
  · exact hf.other h.ids hloop rest hwire hm

theorem loopSend_inv (h : Inv c json s) (hloop : s.loop = .sending i m)
    (hempty : s.response i = none) :
    Inv c json { s with response := Function.update s.response i (some m), loop := .reading } := by
  refine ⟨h.ids.unheld _ nofun, ?_, h.after⟩
  intro he
  have hf := h.first he
  by_cases hic : i = c
  · subst hic
    refine ⟨?_, ?_, ?_⟩
    · intro x hx
      obtain rfl : m = x := by simpa using hx
      exact hf.held hempty m hloop
    · intro hx
      simp at hx
    · intro hx
      simp at hx
  · have hci : ¬ c = i := fun h => hic h.symm
    refine hf.mono rfl (by simp [hci]) ?_ (fun h => h) ⟨[], (List.append_nil _).symm⟩
    intro x
    rw [hloop]
    exact Iff.intro (fun hx => nomatch hx) (fun hx => absurd (Loop.sending.inj hx).1 hic)

theorem wire_append_ids (h : Ids s) (m : Message) (i : ι) (rest : List Message)
    (hm : m.header.streamID.toNat ≤ s.nextID) (hrest : ∀ x ∈ rest, x ∈ s.todo i) :
    Ids { s with wire := s.wire ++ [m], todo := Function.update s.todo i rest } := by
  refine h.mono rfl rfl (fun _ => Iff.rfl) (fun _ _ h => h) ?_ ?_ (fun j x hx => h.loop j x hx)
  · intro x hx
    rcases List.mem_append.mp hx with hx | hx
    · exact Or.inl hx
    · rw [List.mem_singleton.mp hx]
      exact Or.inr hm
  · intro j x hx
    by_cases hj : j = i
    · subst hj
      exact hrest x (by simpa using hx)
    · simpa [hj] using hx

theorem clientSend_inv {rest : List Message} (h : Inv c json s) (htodo : s.todo i = m :: rest) :
    Inv c json { s with wire := s.wire ++ [m], todo := Function.update s.todo i rest } := by
  have hm := h.ids.todo i m (by rw [htodo]; exact List.mem_cons_self ..)
  have hbound : m.header.streamID.toNat ≤ s.nextID := by
    rw [hm.2]
    exact (h.ids.bound i hm.1).2
  refine ⟨wire_append_ids h.ids m i rest hbound (fun x hx => by rw [htodo]; exact .tail _ hx), ?_,
    h.after⟩
  intro he
  have hcpc : s.pc c ≠ .idle := by
    intro hidle
    change (s.pc c).early = true at he
    rw [hidle] at he
    cases he
  refine (h.first he).mono rfl rfl (fun _ => Iff.rfl) (fun h => h) ⟨[], ?_⟩
  by_cases hic : i = c
  · subst hic
    simp [flow, htodo, hm.2]
  · have hci : ¬ c = i := fun h => hic h.symm
    have hne : ¬ s.id i = s.id c := fun heq => hic (h.ids.distinct i c hm.1 hcpc heq)
    simp [flow, hm.2, hne, hci]

theorem clientHeartbeat_inv (h : Inv c json s) :
    Inv c json { s with wire := s.wire ++ [heartbeat] } := by
  have hzero : heartbeat.header.streamID.toNat = 0 := rfl
  have hids := wire_append_ids h.ids heartbeat c (s.todo c) (by rw [hzero]; exact Nat.zero_le _)
    (fun x hx => hx)
  rw [Function.update_eq_self] at hids
  refine ⟨hids, ?_, h.after⟩
  intro he
  have hcpc : s.pc c ≠ .idle := by
    intro hidle
    change (s.pc c).early = true at he
    rw [hidle] at he
    cases he
  have hne : ¬ heartbeat.header.streamID = s.id c := by
    intro heq
    have hb := (h.ids.bound c hcpc).1
    rw [← heq, hzero] at hb
    omega
  refine (h.first he).mono rfl rfl (fun _ => Iff.rfl) (fun h => h) ⟨[], ?_⟩
  simp [flow, hne]

omit [DecidableEq ι] in
theorem loopStop_inv (h : Inv c json s) (hloop : s.loop = .reading) :
    Inv c json { s with loop := .stopped } := by
  refine ⟨h.ids.unheld s.response nofun, ?_, h.after⟩
  intro he
  refine (h.first he).mono rfl rfl ?_ (fun h => h) ⟨[], (List.append_nil _).symm⟩
  intro x
  rw [hloop]
  exact Iff.intro (fun hx => nomatch hx) (fun hx => nomatch hx)

theorem receive_inv (hu : unmarshal json = some n) (hn : n ≤ 0) (h : Inv c json s)
    (hpc : s.pc i = .waiting) (hm : s.response i = some m) :
    Inv c json (setPc { s with response := Function.update s.response i none } i
      (.returning (respond unmarshal m))) := by
  refine h.move _ s.asked _ (by simp [hpc]) (by simp) ?_ ?_ ?_
  · intro hic
    have hci : ¬ c = i := fun h => hic h.symm
    simp [hci]
  · intro _ he
    cases he
  · rintro rfl r hr
    have hearly : (s.pc i).early = true := by rw [hpc]; rfl
    have hresp := (h.first hearly).queued m hm
    have hne : ¬ msgTypeResponse = msgTypeError := by decide
    have hr' : some (⟨n, [], [], .reading⟩ : Reader) = some r := by
      simpa [Pc.reader, respond, hresp, newDataMessage, hne, hu] using hr
    rw [← Option.some.inj hr']
    exact ⟨hn, rfl, rfl⟩

/- A Read ends at once when nothing is left, else it may have emptied the slot. -/
theorem read_cases {n : ℕ} (h : read s i r n pick = some t) :
    
    (r.remain ≤ 0 ∧ r.buf = []) ∧ t = setPc s i (.returned (some { r with status := .eof })) ∨
    ¬ (r.remain ≤ 0 ∧ r.buf = []) ∧ ∃ r', t = setPc s i (.returned (some r')) ∨
      t = setPc { s with response := Function.update s.response i none } i
        (.returned (some r')) := by
  unfold read at h
  split at h
  · exact Or.inl ⟨‹_›, (Option.some.inj h).symm⟩
  · refine Or.inr ⟨‹_›, ?_⟩
    split at h
    · exact ⟨_, Or.inl (Option.some.inj h).symm⟩
    · split at h
      · split at h
        · exact ⟨_, Or.inr (Option.some.inj h).symm⟩
        · cases h
      · split at h
        · exact ⟨_, Or.inl (Option.some.inj h).symm⟩
        · cases h
      · exact ⟨_, Or.inl (Option.some.inj h).symm⟩

theorem read_inv {k : ℕ} (h : Inv c json s) (hpc : s.pc i = .returned (some r))
    (hs : read s i r k pick = some t) : Inv c json t := by
  have hne : s.pc i ≠ .idle := by simp [hpc]
  have hspent : i = c → Spent r := by
    rintro rfl
    exact h.after r (by rw [hpc]; rfl)
  rcases read_cases hs with ⟨-, rfl⟩ | ⟨hpast, r', hread⟩
  · refine h.setPc _ hne (by simp) (fun _ he => nomatch he) fun hic x hx => ?_
    rw [← Option.some.inj hx]
    exact hspent hic
  · -- the reader of `c` itself never gets past the first test
    have hic : i ≠ c := fun hic => hpast ⟨(hspent hic).1, (hspent hic).2.1⟩
    rcases hread with rfl | rfl
    · exact h.setPc _ hne (by simp) (fun he => absurd he hic) (fun he => absurd he hic)
    · exact h.move _ s.asked _ hne (by simp) (fun _ => Function.update_of_ne hic.symm ..)
        (fun he => absurd he hic) (fun he => absurd he hic)

theorem step_inv (hc : reply c = .response json ds true) (hu : unmarshal json = some n) (hn : n ≤ 0)
    (s : State ι) (a : Act ι) (t : State ι) (h : Inv c json s) (hg : FreshIds s a)
    (hs : step unmarshal reply s a = some t) : Inv c json t := by
  cases step_effect hs with
  | created i hi => exact createStream_inv reply hc h hg hi
  | called i p asked hfrom hto =>
    have hp : p ≠ .idle ∧ p.reader = none := by
      rcases hto with rfl | rfl | rfl <;> exact ⟨nofun, rfl⟩
    refine h.move p asked s.response (fun hi => ?_) hp.1 (fun _ => rfl) (fun hic _ => ?_)
      fun _ r hr => ?_
    · rw [hi] at hfrom
      cases hfrom
    · exact ⟨hic ▸ hfrom, rfl⟩
    · rw [hp.2] at hr
      cases hr
  | received i m hi hm => exact receive_inv hu hn h hi hm
  | cleaned i r hi =>
    have hpc : (removeStream s (s.id i)).pc i = .returning r := by
      obtain ⟨dn, st, he, _⟩ := removeStream_eq s (s.id i)
      rw [he]
      exact hi
    refine (removeStream_inv h _).setPc _ (by simp [hpc]) (by simp) (fun _ he => nomatch he) ?_
    rintro rfl x hx
    exact h.after x (by rw [hi]; exact hx)
  | bodyRead i k pick r hi hread => exact read_inv h hi hread
  | clientSent i m rest htodo => exact clientSend_inv h htodo
  | heartbeatSent => exact clientHeartbeat_inv h
  | frameRead m rest hloop hwire => exact loopRead_inv h hloop m rest hwire
  | delivered i m hloop hempty => exact loopSend_inv h hloop hempty
  | loopStopped hloop => exact loopStop_inv h hloop
  | closed =>
    obtain ⟨cl, dn, st, he, hst⟩ := close_eq s
    rw [he]
    exact h.shrink cl dn st hst

/-- For a response announced with its length or with -1, every interleaving gives the
reader the whole body exactly when there is no body. -/
theorem whole_at_eof_iff_no_body (unmarshal : Bytes → Option ℤ) (reply : ι → Reply) (c : ι)
    (json : Bytes) (ds : List Bytes) (n : ℤ) (hc : reply c = .response json ds true)
    (hu : unmarshal json = some n) (hn : n = ds.flatten.length ∨ n = -1) :
    (∀ s, Reach (step unmarshal reply) FreshIds start s → WholeAtEof s c ds.flatten) ↔
      ds.flatten = [] := by
  constructor
  · intro hall
    obtain ⟨s, hs, hpc⟩ := hasty_eof unmarshal reply c json ds n hc hu
    have hr := reach_of_guarded (hasty c) (hasty_freshIds unmarshal reply c) hs
    exact (hall s hr _ hpc rfl).symm
  · intro hnil s hr r hpc _
    have hle : n ≤ 0 := by
      rcases hn with hn | hn
      · rw [hn, hnil]
        exact le_refl _
      · omega
    have hinv := hr.invariant (Inv c json) (inv_start c json) (step_inv hc hu hle)
    rw [hnil]
    exact (hinv.after r (by rw [hpc]; rfl)).2.2

theorem whole_at_eof_beside_a_body :
    ∃ reply : Fin 2 → Reply, reply 1 = .response [1] [[104, 105]] true ∧
      ∀ s, Reach (step (fun json => if json = [] then some 0 else some 2) reply) FreshIds start s →
        WholeAtEof s 0 [] :=
  ⟨fun i => if i = 0 then .response [] [] true else .response [1] [[104, 105]] true, rfl,
    (whole_at_eof_iff_no_body _ _ 0 [] [] 0 rfl rfl (Or.inl rfl)).mpr rfl⟩

end EdgeDispatch.Tunnel.ServerStreams
