import EdgeDispatch.Tunnel.SharedConn

/-! # Request bodies on the tunnel client

`messageLoop` and every `readRequestBody` call `ReadMessage` on the same connection
(client.go:206, client.go:363). The server's frames arrive whole, since its
`ForwardRequest` calls share the mutex of `connAdapter`; which goroutine gets which
bytes of them is up to the scheduler. -/

namespace EdgeDispatch.Tunnel.ClientBodies
open Lib.Transition Lib.ByteString Tunnel.Wire
open Tunnel.SharedConn (forwardRequest heartbeat)

/-- A forwarded request: its header in JSON, the pieces of at most 32 KiB that
`ForwardRequest` sent of the body, and whether it sent DataEnd after them, which it does not
for a nil body and for one that breaks off (server.go:265-288). -/
structure Request where
  json : Bytes
  chunks : List Bytes
  ended : Bool
  json_fits : json.length < 2 ^ 32
  chunk_fits : ∀ d ∈ chunks, 0 < d.length ∧ d.length ≤ 32 * 1024

def Request.bytes (r : Request) : Bytes := r.chunks.flatten

def Request.frames (r : Request) (id : UInt32) : List Message :=
  forwardRequest ⟨id, r.json, r.chunks, r.ended⟩

/-- What the client makes of a request header: it does not unmarshal, `NewRequest`
rejects its method or path, or it is good and announces a body length. -/
inductive Header where
  | malformed
  | rejected
  | good (bodyLen : ℤ)

inductive Phase where
  | ready (json : Bytes)
  | reading (remaining : ℤ) (buf : Bytes) (acc : Bytes)
  | handed (body : Bytes)
  | failed
  | dropped
  deriving DecidableEq

/- A `handleRequest` goroutine. -/
structure Handler where
  id : UInt32
  phase : Phase
  deriving DecidableEq

/- `todo` is what the server still has to send for each stream, `sent` what it has
   sent, `loop` the bytes `messageLoop` has of the message it is reading. -/
structure State where
  wire : Bytes
  todo : UInt32 → List Message
  sent : List Message
  loop : Bytes
  handlers : List Handler

inductive Act where
  | serverSend (id : UInt32)
  | serverHeartbeat
  | loopRead (n : ℕ)
  | run (h : ℕ)
  | bodyRead (h : ℕ) (n : ℕ)

def start (req : UInt32 → Option Request) : State :=
  ⟨[], fun id => (req id).elim [] fun r => r.frames id, [], [], []⟩

def send (s : State) (m : Message) : State :=
  { s with wire := s.wire ++ m.wire, sent := s.sent ++ [m] }

/- The switch of `messageLoop`. -/
def deliver (s : State) (m : Message) : State :=
  if m.header.msgType = msgTypeRequest then
    { s with handlers := s.handlers ++ [⟨m.header.streamID, .ready m.payload⟩] }
  else s

def setPhase (s : State) (h : ℕ) (x : Handler) (p : Phase) : State :=
  { s with handlers := s.handlers.set h { x with phase := p } }

/- `handleRequest` up to the body. -/
def afterHeader : Header → Phase
  | .malformed => .dropped
  | .rejected => .dropped
  | .good bodyLen => if 0 < bodyLen then .reading bodyLen [] [] else .handed []

/-- One turn of the loop in `readRequestBody`; the stream id of `m` is not looked at. -/
def takeData (remaining : ℤ) (buf : Bytes) (m : Message) : Phase :=
  if m.header.msgType ≠ msgTypeData then .failed
  else if 0 < remaining - m.payload.length then
    .reading (remaining - m.payload.length) (buf ++ m.payload) []
  else .handed (buf ++ m.payload)

/- A Read call of the connection gives between one byte and all that is asked for. -/
def Gives (s : State) (acc : Bytes) (n : ℕ) : Prop := 0 < n ∧ n ≤ need acc ∧ n ≤ s.wire.length
instance (s : State) (acc : Bytes) (n : ℕ) : Decidable (Gives s acc n) :=
  inferInstanceAs (Decidable (0 < n ∧ n ≤ need acc ∧ n ≤ s.wire.length))

def step (header : Bytes → Header) (s : State) : Act → Option State
  | .serverSend id =>
    match s.todo id with
    | m :: rest => some { send s m with todo := Function.update s.todo id rest }
    | [] => none
  | .serverHeartbeat => some (send s heartbeat)
  | .loopRead n =>
    if Gives s s.loop n then
      match completed (s.loop ++ s.wire.take n) with
      | some m => some (deliver { s with wire := s.wire.drop n, loop := [] } m)
      | none => some { s with wire := s.wire.drop n, loop := s.loop ++ s.wire.take n }
    else none
  | .run h =>
    match s.handlers[h]? with
    | some x =>
      match x.phase with
      | .ready json => some (setPhase s h x (afterHeader (header json)))
      | _ => none
    | none => none
  | .bodyRead h n =>
    match s.handlers[h]? with
    | some x =>
      match x.phase with
      | .reading remaining buf acc =>
        if Gives s acc n then
          match completed (acc ++ s.wire.take n) with
          | some m => some (setPhase { s with wire := s.wire.drop n } h x (takeData remaining buf m))
          | none => some (setPhase { s with wire := s.wire.drop n } h x
              (.reading remaining buf (acc ++ s.wire.take n)))
        else none
      | _ => none
    | none => none

/-- Every body handed on is that of its stream, no request fails over its body, and
once all bytes are read every Request frame has got its goroutine. -/
structure Demuxed (req : UInt32 → Option Request) (s : State) : Prop where
  body : ∀ x ∈ s.handlers, ∀ b, x.phase = .handed b → ∃ r, req x.id = some r ∧ b = r.bytes
  served : ∀ x ∈ s.handlers, x.phase ≠ .failed
  spawned : s.wire = [] → s.loop = [] → ∀ m ∈ s.sent, m.header.msgType = msgTypeRequest →
    ∃ x ∈ s.handlers, x.id = m.header.streamID

/-- A request that the client accepts announces no body and has none. -/
def Bare (header : Bytes → Header) (r : Request) : Prop :=
  ∀ n, header r.json = .good n → n ≤ 0 ∧ r.bytes = []

/- Two requests with one-byte bodies: the goroutine of stream 1 reads the Data frame
   of stream 2 and hands its byte to the local service. -/
def twoRequests (id : UInt32) : Option Request :=
  if id = 1 then some ⟨[1], [[97]], true, by decide, by decide⟩
  else if id = 2 then some ⟨[2], [[98]], true, by decide, by decide⟩
  else none

theorem body_of_another_stream_handed :
    ∃ s, Reach (step fun _ => .good 1) Free (start twoRequests) s ∧ ¬ Demuxed twoRequests s := by
  let acts : List Act := [.serverSend 1, .serverSend 2, .loopRead 10, .loopRead 1, .loopRead 10,
    .loopRead 1, .run 0, .run 1, .serverSend 2, .bodyRead 0 10, .bodyRead 0 1]
  have hrun : (exec (step fun _ => .good 1) acts (start twoRequests)).map (fun s => s.handlers) =
      some [⟨1, .handed [98]⟩, ⟨2, .reading 1 [] []⟩] := by
    decide +kernel
  obtain ⟨s, hreach, hhandlers⟩ := reach_of_view acts _ hrun
  refine ⟨s, hreach, ?_⟩
  intro hd
  obtain ⟨r, hr, hb⟩ := hd.body ⟨1, .handed [98]⟩ (by rw [hhandlers]; simp) [98] rfl
  obtain rfl : (⟨[1], [[97]], true, by decide, by decide⟩ : Request) = r := Option.some.inj hr
  exact absurd hb (by decide)

/- The goroutines that a list of messages makes `messageLoop` start. -/
def spawned (ms : List Message) : List Handler :=
  (ms.filter fun m => m.header.msgType = msgTypeRequest).map
    fun m => ⟨m.header.streamID, .ready m.payload⟩

theorem deliver_handlers (s : State) (m : Message) :
    deliver s m = { s with handlers := s.handlers ++ spawned [m] } := by
  by_cases hm : m.header.msgType = msgTypeRequest <;> simp [deliver, spawned, hm]

theorem spawned_append (ms ms' : List Message) : spawned (ms ++ ms') = spawned ms ++ spawned ms' := by
  simp [spawned]

/-! ### A schedule that fails any other request -/

theorem Request.frames_wellFormed (r : Request) (id : UInt32) :
    ∀ m ∈ r.frames id, WellFormed m := by
  intro m hm
  simp only [Request.frames, forwardRequest, List.cons_append, List.mem_cons, List.mem_append,
    List.mem_map] at hm
  rcases hm with rfl | ⟨d, hd, rfl⟩ | hm
  · exact newDataMessage_wellFormed _ _ _ r.json_fits
  · have hfit := (r.chunk_fits d hd).2
    exact newDataMessage_wellFormed _ _ _ (by omega)
  · split at hm
    · rw [List.mem_singleton.mp hm]
      exact newDataMessage_wellFormed _ _ _ (by simp)
    · cases hm

section Failing
variable (header : Bytes → Header)

/- `messageLoop` gets a whole frame, header and payload, to itself. -/
theorem loop_takes_frame (m : Message) (hw : WellFormed m) (s : State) (rest : Bytes)
    (hloop : s.loop = []) (hwire : s.wire = m.wire ++ rest) :
    Reach (step header) Free s (deliver { s with wire := rest } m) := by
  have hl := wire_length m hw
  have hsz : headerSize = 10 := rfl
  have hdone : deliver { s with wire := rest, loop := [] } m = deliver { s with wire := rest } m := by
    rw [← hloop]
  rw [← hdone]
  have h10 : need [] = 10 := rfl
  by_cases hp : m.payload = []
  · have hlen : m.wire.length = 10 := by rw [hl, hp]; rfl
    apply Reach.start.next (.loopRead 10) trivial
    have ht : s.wire.take 10 = m.wire := by rw [hwire, ← hlen]; exact List.take_left
    have hd : s.wire.drop 10 = rest := by rw [hwire, ← hlen]; exact List.drop_left
    have hg : Gives s [] 10 := by
      refine ⟨by omega, by rw [h10], ?_⟩
      rw [hwire, List.length_append]
      omega
    simp only [step, hloop, hg, if_true, List.nil_append, ht, hd, completed_wire m hw]
  · have hpos : 0 < m.payload.length := List.length_pos_iff.mpr hp
    let t : State := { s with wire := m.payload ++ rest, loop := m.wire.take 10 }
    have ht : s.wire.take 10 = m.wire.take 10 := by
      rw [hwire, List.take_append_of_le_length (by omega)]
    have heq : m.wire.take 10 ++ m.payload = m.wire ∧ m.wire.drop 10 = m.payload := by
      rw [wire_eq m hw, ← hsz, ← encodeHeader_length m.header, List.take_left, List.drop_left]
      exact ⟨rfl, rfl⟩
    have hd : s.wire.drop 10 = m.payload ++ rest := by
      rw [hwire, List.drop_append_of_le_length (by omega), heq.2]
    have hfirst : Reach (step header) Free s t := by
      apply Reach.start.next (.loopRead 10) trivial
      have hg : Gives s [] 10 := by
        refine ⟨by omega, by rw [h10], ?_⟩
        rw [hwire, List.length_append]
        omega
      have hnone := completed_take m hw 10 (by omega)
      simp only [step, hloop, hg, if_true, List.nil_append, ht, hd, hnone, t]
    refine hfirst.trans (Reach.start.next (.loopRead m.payload.length) trivial ?_)
    have hneed := need_take m hw 10 (by omega)
    rw [if_neg (by omega)] at hneed
    have hg : Gives t (m.wire.take 10) m.payload.length := by
      refine ⟨hpos, by rw [hneed]; omega, ?_⟩
      simp [t]
    have htake : t.wire.take m.payload.length = m.payload := List.take_left
    have hdrop : t.wire.drop m.payload.length = rest := List.drop_left
    simp only [step]
    rw [if_pos hg, htake, hdrop]
    simp only [t, heq.1, completed_wire m hw]

variable {req : UInt32 → Option Request}

theorem request_reached {id : UInt32} {r : Request} (hreq : req id = some r) :
    ∃ todo sent, Reach (step header) Free (start req)
      ⟨[], todo, sent, [], [⟨id, .ready r.json⟩]⟩ := by
  have hw : WellFormed (newDataMessage msgTypeRequest id r.json) :=
    newDataMessage_wellFormed _ _ _ r.json_fits
  have hsent : Reach (step header) Free (start req)
      { send (start req) (newDataMessage msgTypeRequest id r.json) with
        todo := Function.update (start req).todo id (r.frames id).tail } :=
    Reach.start.next (.serverSend id) trivial (by
      simp [step, start, hreq, Request.frames, forwardRequest])
  have hread := hsent.trans (loop_takes_frame header _ hw _ [] rfl (by simp [send, start]))
  rw [deliver_handlers] at hread
  have hspawn : spawned [newDataMessage msgTypeRequest id r.json] = [⟨id, .ready r.json⟩] := by
    simp [spawned, newDataMessage]
  rw [hspawn] at hread
  exact ⟨_, _, hread⟩

/- A goroutine that waits for its body reads the answer to a heartbeat, header and payload. -/
theorem heartbeat_as_body (id : UInt32) (n : ℤ) (todo : UInt32 → List Message)
    (sent : List Message) :
    Reach (step header) Free ⟨heartbeat.wire, todo, sent, [], [⟨id, .reading n [] []⟩]⟩
      ⟨[], todo, sent, [], [⟨id, .failed⟩]⟩ := by
  have hhead : completed (heartbeat.wire.take 10) = none := by decide
  have hall : completed (heartbeat.wire.take 10 ++ (heartbeat.wire.drop 10).take 4) =
      some heartbeat := by decide
  have hfail : takeData n [] heartbeat = .failed := if_pos (by decide)
  refine (Reach.start.next (t := ⟨heartbeat.wire.drop 10, todo, sent, [],
    [⟨id, .reading n [] (heartbeat.wire.take 10)⟩]⟩) (.bodyRead 0 10) trivial ?_).next
    (.bodyRead 0 4) trivial ?_
  · have hg : (0 < 10 ∧ 10 ≤ need [] ∧ 10 ≤ heartbeat.wire.length) := by decide
    simp only [step, Gives, List.getElem?_cons_zero, hg, List.nil_append, hhead]
    rfl
  · have hg : (0 < 4 ∧ 4 ≤ need (heartbeat.wire.take 10) ∧
        4 ≤ (heartbeat.wire.drop 10).length) := by decide
    have hrest : (heartbeat.wire.drop 10).drop 4 = [] := by decide
    simp only [step, Gives, List.getElem?_cons_zero, hg, hall, hrest, hfail]
    rfl

/- The goroutine of such a request finds a heartbeat where its body should be, or hands on
   an empty body. -/
theorem not_demuxed {id : UInt32} {r : Request} (hreq : req id = some r) {n : ℤ}
    (hn : header r.json = .good n) (hbody : 0 < n ∨ r.bytes ≠ []) :
    ∃ s, Reach (step header) Free (start req) s ∧ ¬ Demuxed req s := by
  obtain ⟨todo, sent, hready⟩ := request_reached header hreq
  have hrun := hready.next (t := ⟨[], todo, sent, [], [⟨id, afterHeader (.good n)⟩]⟩) (.run 0)
    trivial (by simp [step, setPhase, hn])
  by_cases hpos : 0 < n
  · have hphase : afterHeader (.good n) = .reading n [] [] := by simp [afterHeader, hpos]
    rw [hphase] at hrun
    have hbeat := (hrun.next .serverHeartbeat trivial rfl).trans
      (heartbeat_as_body header id n todo (sent ++ [heartbeat]))
    exact ⟨_, hbeat, fun hd => hd.served ⟨id, .failed⟩ (List.mem_singleton_self _) rfl⟩
  · have hphase : afterHeader (.good n) = .handed [] := by simp [afterHeader, hpos]
    rw [hphase] at hrun
    refine ⟨_, hrun, fun hd => ?_⟩
    obtain ⟨r', hr', hb⟩ := hd.body ⟨id, .handed []⟩ (List.mem_singleton_self _) [] rfl
    rw [hreq] at hr'
    cases hr'
    exact hbody.resolve_left hpos hb.symm

end Failing

/-! ### Without bodies only `messageLoop` reads -/

/- A frame the server sends: if it is a Request, it is that of its stream. -/
def Proper (req : UInt32 → Option Request) (m : Message) : Prop :=
  WellFormed m ∧ (m.header.msgType = msgTypeRequest →
    ∃ r, req m.header.streamID = some r ∧ m.payload = r.json)

/- A goroutine that has not run yet, has given up or has passed on an empty body. -/
def Bodiless (req : UInt32 → Option Request) (x : Handler) : Prop :=
  ∃ r, req x.id = some r ∧ (x.phase = .ready r.json ∨ x.phase = .dropped ∨
    x.phase = .handed [] ∧ r.bytes = [])

/- `seen` are the messages `messageLoop` has read, `rest` those still to come; `loop`
   is the beginning of the first of them. -/
structure Inv (req : UInt32 → Option Request) (seen rest : List Message) (s : State) : Prop where
  sent : s.sent = seen ++ rest
  bytes : s.loop ++ s.wire = wireAll rest
  part : ∀ m tail, rest = m :: tail → s.loop.length < m.wire.length
  empty : rest = [] → s.loop = []
  ids : s.handlers.map Handler.id = (spawned seen).map Handler.id
  proper : ∀ m ∈ s.sent, Proper req m
  todo : ∀ id, ∀ m ∈ s.todo id, Proper req m
  bodiless : ∀ x ∈ s.handlers, Bodiless req x

theorem frames_proper (req : UInt32 → Option Request) (id : UInt32) (r : Request)
    (hreq : req id = some r) : ∀ m ∈ r.frames id, Proper req m := by
  intro m hm
  refine ⟨r.frames_wellFormed id m hm, ?_⟩
  intro ht
  simp only [Request.frames, forwardRequest, List.cons_append, List.mem_cons, List.mem_append,
    List.mem_map] at hm
  rcases hm with rfl | ⟨d, _, rfl⟩ | hm
  · exact ⟨r, hreq, rfl⟩
  · exact absurd ht (by simp [newDataMessage, msgTypeData, msgTypeRequest])
  · split at hm
    · rw [List.mem_singleton.mp hm] at ht
      exact absurd ht (by simp [newDataMessage, msgTypeDataEnd, msgTypeRequest])
    · cases hm

theorem heartbeat_proper (req : UInt32 → Option Request) : Proper req heartbeat :=
  ⟨rfl, fun h => absurd h (by decide)⟩

theorem inv_start (req : UInt32 → Option Request) : Inv req [] [] (start req) := by
  refine ⟨rfl, rfl, by simp, fun _ => rfl, rfl, by simp [start], ?_, by simp [start]⟩
  intro id m hm
  cases hreq : req id with
  | none => simp [start, hreq] at hm
  | some r => exact frames_proper req id r hreq m (by simpa [start, hreq] using hm)

variable {req : UInt32 → Option Request} {s : State} {m : Message} {header : Bytes → Header}

theorem send_inv {seen rest : List Message} (h : Inv req seen rest s) (hm : Proper req m) :
    Inv req seen (rest ++ [m]) (send s m) := by
  have hl := wire_length m hm.1
  have hsz : headerSize = 10 := rfl
  refine ⟨?_, ?_, ?_, by simp, h.ids, ?_, h.todo, h.bodiless⟩
  · simp [send, h.sent]
  · rw [wireAll_concat, ← h.bytes]
    simp [send]
  · intro x tail hx
    cases hrest : rest with
    | nil =>
      rw [hrest, List.nil_append] at hx
      cases hx
      have hempty : (send s m).loop = [] := h.empty hrest
      rw [hempty, hl]
      simp [hsz]
    | cons y ys =>
      rw [hrest, List.cons_append] at hx
      cases hx
      exact h.part _ ys hrest
  · intro x hx
    rcases List.mem_append.mp hx with hx | hx
    · exact h.proper x hx
    · rw [List.mem_singleton.mp hx]
      exact hm

/- What the loop has after one more Read call is a longer beginning of the message. -/
theorem loop_progress {seen tail : List Message} {n : ℕ} (h : Inv req seen (m :: tail) s)
    (hw : WellFormed m) (hg : Gives s s.loop n) :
    s.loop ++ s.wire.take n = m.wire.take (s.loop.length + n) ∧
      s.loop.length + n ≤ m.wire.length := by
  have hpart := h.part m tail rfl
  have hbytes : s.loop ++ s.wire = m.wire ++ wireAll tail := h.bytes
  have hloop : s.loop = m.wire.take s.loop.length := by
    have ht := congrArg (List.take s.loop.length) hbytes
    rwa [List.take_left, List.take_append_of_le_length hpart.le] at ht
  have hle : s.loop.length + n ≤ m.wire.length := by
    have hneed := need_take_le m hw s.loop.length hpart.le
    rw [← hloop] at hneed
    have hn := hg.2.1
    omega
  refine ⟨?_, hle⟩
  have ht := congrArg (List.take (s.loop.length + n)) hbytes
  rwa [List.take_append, List.take_of_length_le (by omega), Nat.add_sub_cancel_left,
    List.take_append_of_le_length hle] at ht

theorem spawned_bodiless (hm : Proper req m) : ∀ x ∈ spawned [m], Bodiless req x := by
  intro x hx
  by_cases ht : m.header.msgType = msgTypeRequest
  · obtain ⟨r, hr, hp⟩ := hm.2 ht
    obtain rfl : x = ⟨m.header.streamID, .ready m.payload⟩ := by
      simpa [spawned, ht] using hx
    exact ⟨r, hr, Or.inl (by rw [hp])⟩
  · simp [spawned, ht] at hx

/- The read that completes a message: `messageLoop` acts on it and starts afresh. -/
theorem deliver_inv {seen tail : List Message} (h : Inv req seen (m :: tail) s) {wire : Bytes}
    (hwire : wire = wireAll tail) :
    Inv req (seen ++ [m]) tail (deliver { s with wire := wire, loop := [] } m) := by
  have hm : Proper req m := h.proper m (by rw [h.sent]; simp)
  rw [deliver_handlers]
  refine ⟨?_, hwire, ?_, fun _ => rfl, ?_, h.proper, h.todo, ?_⟩
  · rw [List.append_assoc]
    exact h.sent
  · intro x ys hx
    have hmem : x ∈ s.sent := by
      rw [h.sent, hx]
      simp
    have hl := wire_length x (h.proper x hmem).1
    have hsz : headerSize = 10 := rfl
    simp only [List.length_nil]
    omega
  · rw [spawned_append, List.map_append, List.map_append, h.ids]
  · intro x hx
    rcases List.mem_append.mp hx with hx | hx
    · exact h.bodiless x hx
    · exact spawned_bodiless hm x hx

theorem loopRead_inv {seen rest : List Message} {t : State} {n : ℕ} (h : Inv req seen rest s)
    (hs : step header s (.loopRead n) = some t) : ∃ seen' rest', Inv req seen' rest' t := by
  obtain ⟨hg, hs⟩ := Option.ite_none_right_eq_some.mp hs
  have hcut : s.loop ++ s.wire.take n ++ s.wire.drop n = wireAll rest := by
    rw [List.append_assoc, List.take_append_drop]
    exact h.bytes
  cases rest with
  | nil =>
    -- nothing is on its way, so no byte can be read
    have hw : s.wire = [] := (List.append_eq_nil_iff.mp h.bytes).2
    have hlen := hg.2.2
    have hpos := hg.1
    rw [hw, List.length_nil] at hlen
    omega
  | cons m tail =>
    have hm : Proper req m := h.proper m (by rw [h.sent]; simp)
    obtain ⟨hacc, hle⟩ := loop_progress h hm.1 hg
    by_cases hfull : s.loop.length + n = m.wire.length
    · rw [hfull, List.take_length] at hacc
      rw [hacc, completed_wire m hm.1] at hs
      obtain rfl : deliver { s with wire := s.wire.drop n, loop := [] } m = t :=
        Option.some.inj hs
      rw [hacc] at hcut
      exact ⟨seen ++ [m], tail, deliver_inv h (List.append_cancel_left hcut)⟩
    · have hnone := completed_take m hm.1 (s.loop.length + n) (by omega)
      rw [← hacc] at hnone
      rw [hnone] at hs
      obtain rfl : { s with wire := s.wire.drop n, loop := s.loop ++ s.wire.take n } = t :=
        Option.some.inj hs
      refine ⟨seen, m :: tail, h.sent, hcut, ?_, by simp, h.ids, h.proper, h.todo, h.bodiless⟩
      intro x ys hx
      cases hx
      have hl := congrArg List.length hacc
      rw [List.length_take, Nat.min_eq_left hle] at hl
      change (s.loop ++ s.wire.take n).length < m.wire.length
      omega

theorem run_inv {seen rest : List Message} {k : ℕ} {x : Handler} {json : Bytes}
    (hbare : ∀ id r, req id = some r → Bare header r) (h : Inv req seen rest s)
    (hx : s.handlers[k]? = some x) (hp : x.phase = .ready json) :
    Inv req seen rest (setPhase s k x (afterHeader (header json))) := by
  obtain ⟨r, hr, hphase⟩ := h.bodiless x (List.mem_of_getElem? hx)
  have hjson : json = r.json := by
    rw [hp] at hphase
    rcases hphase with hphase | hphase | ⟨hphase, -⟩
    · exact Phase.ready.inj hphase
    · cases hphase
    · cases hphase
  have hafter : afterHeader (header json) = .dropped ∨
      afterHeader (header json) = .handed [] ∧ r.bytes = [] := by
    have hn := hbare x.id r hr
    rw [Bare, ← hjson] at hn
    cases hh : header json with
    | malformed => exact .inl rfl
    | rejected => exact .inl rfl
    | good n =>
      obtain ⟨hle, hbytes⟩ := hn n hh
      exact .inr ⟨if_neg (by omega), hbytes⟩
  refine ⟨h.sent, h.bytes, h.part, h.empty, ?_, h.proper, h.todo, ?_⟩
  · obtain ⟨hk, hget⟩ := List.getElem?_eq_some_iff.mp hx
    rw [← h.ids]
    apply List.ext_getElem?
    intro j
    by_cases hj : k = j
    · subst hj
      simp [setPhase, hk, hget]
    · simp [setPhase, hj]
  · intro y hy
    rcases List.mem_or_eq_of_mem_set hy with hy | hy
    · exact h.bodiless y hy
    · rw [hy]
      exact ⟨r, hr, Or.inr hafter⟩

theorem step_inv (hbare : ∀ id r, req id = some r → Bare header r) (s : State) (a : Act) (t : State)
    (h : ∃ seen rest, Inv req seen rest s) (_ : Free s a) (hs : step header s a = some t) :
    ∃ seen rest, Inv req seen rest t := by
  obtain ⟨seen, rest, h⟩ := h
  cases a with
  | serverSend id =>
    simp only [step] at hs
    split at hs
    · rename_i m more htodo
      cases hs
      have hm := h.todo id m (by rw [htodo]; exact List.mem_cons_self ..)
      have hsent := send_inv h hm
      refine ⟨seen, rest ++ [m], hsent.sent, hsent.bytes, hsent.part, hsent.empty, hsent.ids,
        hsent.proper, ?_, hsent.bodiless⟩
      intro j x hx
      by_cases hj : j = id
      · subst hj
        have hmore : x ∈ more := by simpa using hx
        exact h.todo j x (by rw [htodo]; exact List.mem_cons_of_mem _ hmore)
      · exact h.todo j x (by simpa [hj] using hx)
    · cases hs
  | serverHeartbeat =>
    cases hs
    exact ⟨seen, rest ++ [heartbeat], send_inv h (heartbeat_proper req)⟩
  | loopRead n => exact loopRead_inv h hs
  | run k =>
    simp only [step] at hs
    split at hs
    · split at hs
      · cases hs
        exact ⟨seen, rest, run_inv hbare h ‹_› ‹_›⟩
      · cases hs
    · cases hs
  | bodyRead k n =>
    -- no goroutine is in `readRequestBody`
    simp only [step] at hs
    split at hs
    · rename_i x hx
      obtain ⟨r, _, hphase⟩ := h.bodiless x (List.mem_of_getElem? hx)
      rcases hphase with hphase | hphase | ⟨hphase, -⟩ <;> simp [hphase] at hs
    · cases hs

theorem wireAll_eq_nil {ms : List Message} (h : wireAll ms = []) : ms = [] := by
  have hl := wireAll_length_ge ms
  rw [h, List.length_nil] at hl
  exact List.length_eq_zero_iff.mp (by omega)

theorem Inv.demuxed {seen rest : List Message} (h : Inv req seen rest s) : Demuxed req s := by
  refine ⟨?_, ?_, ?_⟩
  · intro x hx b hb
    obtain ⟨r, hr, hphase⟩ := h.bodiless x hx
    refine ⟨r, hr, ?_⟩
    rw [hb] at hphase
    rcases hphase with hphase | hphase | ⟨hphase, hbytes⟩
    · cases hphase
    · cases hphase
    · rw [hbytes]
      exact Phase.handed.inj hphase
  · intro x hx hfail
    obtain ⟨r, _, hphase⟩ := h.bodiless x hx
    rcases hphase with hphase | hphase | ⟨hphase, -⟩ <;> simp [hphase] at hfail
  · intro hwire hloop m hm ht
    have hrest : rest = [] := by
      apply wireAll_eq_nil
      rw [← h.bytes, hwire, hloop]
      rfl
    rw [h.sent, hrest, List.append_nil] at hm
    have hid : m.header.streamID ∈ (spawned seen).map Handler.id := by
      simp only [spawned, List.map_map, List.mem_map, List.mem_filter]
      exact ⟨m, ⟨hm, by simpa using ht⟩, rfl⟩
    rw [← h.ids] at hid
    obtain ⟨x, hx, he⟩ := List.mem_map.mp hid
    exact ⟨x, hx, he⟩

/-- Every scheduling demultiplexes a set of requests exactly when those that the client
accepts announce no body and have none. -/
theorem demuxed_iff_no_bodies (header : Bytes → Header) (req : UInt32 → Option Request) :
    (∀ s, Reach (step header) Free (start req) s → Demuxed req s) ↔
      ∀ id r, req id = some r → Bare header r := by
  constructor
  · intro hall id r hreq n hn
    by_contra hbody
    have hsome : 0 < n ∨ r.bytes ≠ [] := by
      by_contra hno
      exact hbody ⟨not_lt.mp fun h => hno (.inl h), not_not.mp fun h => hno (.inr h)⟩
    obtain ⟨s, hs, hbad⟩ := not_demuxed header hreq hn hsome
    exact hbad (hall s hs)
  · intro hbare s hr
    obtain ⟨seen, rest, h⟩ := hr.invariant (fun s => ∃ seen rest, Inv req seen rest s)
      ⟨[], [], inv_start req⟩ (step_inv hbare)
    exact h.demuxed

end EdgeDispatch.Tunnel.ClientBodies
