import EdgeDispatch.Lib.Transition
import EdgeDispatch.Tunnel.Wire

/-! # Goroutines that write to one tunnel connection

`WriteMessage` makes one Write call for the header and one for the payload. The
server's `ForwardRequest` calls and heartbeat replies go through
`connAdapter.WriteMessage`, which holds a mutex over both (server.go:356-366);
the RegisterOK reply (server.go:172) and every sender of the client
(client.go:229-389) call `WriteMessage` on the bare connection. -/

namespace EdgeDispatch.Tunnel.SharedConn
open Lib.Transition Lib.ByteString Tunnel.Wire

/-- One `WriteMessage` call; `locked` when it goes through `connAdapter`. -/
structure Send where
  locked : Bool
  msg : Message

/- `half` holds the Write calls still missing from a message that was begun, `mu`
   the holder of `connAdapter.mu`, `sent` the finished calls of each sender. -/
structure State (κ : Type) where
  wire : Bytes
  todo : κ → List Send
  half : κ → Option (Send × List Bytes)
  mu : Option κ
  sent : κ → List Message

variable {κ : Type} [DecidableEq κ]

def start (script : κ → List Send) : State κ :=
  ⟨[], script, fun _ => none, none, fun _ => []⟩

/- Unlock and return from `WriteMessage`. -/
def finish (s : State κ) (k : κ) (c : Send) : State κ :=
  { s with
    half := Function.update s.half k none
    mu := if c.locked then none else s.mu
    sent := Function.update s.sent k (s.sent k ++ [c.msg]) }

def write (s : State κ) (k : κ) (c : Send) : List Bytes → State κ
  | [] => finish s k c
  | [w] => finish { s with wire := s.wire ++ w } k c
  | w :: rest => { s with wire := s.wire ++ w, half := Function.update s.half k (some (c, rest)) }

def begin (s : State κ) (k : κ) (c : Send) (rest : List Send) : State κ :=
  { s with
    todo := Function.update s.todo k rest
    mu := if c.locked then some k else s.mu }

/-- Sender `k` makes its next Write call. A locked call waits for the mutex. -/
def step (s : State κ) (k : κ) : Option (State κ) :=
  match s.half k with
  | some (c, ws) => some (write s k c ws)
  | none =>
    match s.todo k with
    | [] => none
    | c :: rest =>
      if c.locked = true ∧ s.mu ≠ none then none
      else some (write (begin s k c rest) k c (writeMessage c.msg))

/-- The peer decodes a merge of what the senders have sent, and nothing is left over
once every message is complete. -/
def FramesIntact (s : State κ) : Prop :=
  (∃ log : List (κ × Message), (readMessages s.wire).1 = log.map Prod.snd ∧
    ∀ k, (log.filter fun p => p.1 = k).map Prod.snd = s.sent k) ∧
  ((∀ k, s.half k = none) → (readMessages s.wire).2 = [])

/-! ### The senders of the two ends -/

def jsonNull : Bytes := [110, 117, 108, 108]
def heartbeat : Message := newDataMessage msgTypeHeartbeat 0 jsonNull

/-- What `handleRequest` sends: nothing when the request header does not parse, one
Error frame, or a Response and its body; `ended` is false when reading the local
body failed, where the goroutine returns without DataEnd. -/
inductive Reply where
  | silent
  | sendError (json : Bytes)
  | response (json : Bytes) (chunks : List Bytes) (ended : Bool)

def handleRequest (id : UInt32) : Reply → List Message
  | .silent => []
  | .sendError json => [newDataMessage msgTypeError id json]
  | .response json chunks ended =>
    newDataMessage msgTypeResponse id json ::
      chunks.map (newDataMessage msgTypeData id) ++
      (if ended then [newDataMessage msgTypeDataEnd id []] else [])

theorem handleRequest_streamID (id : UInt32) (r : Reply) :
    ∀ m ∈ handleRequest id r, m.header.streamID = id := by
  intro m hm
  cases r with
  | silent => cases hm
  | sendError json =>
    rw [List.mem_singleton.mp hm]
    rfl
  | response json chunks ended =>
    simp only [handleRequest, List.cons_append, List.mem_cons, List.mem_append,
      List.mem_map] at hm
    rcases hm with rfl | ⟨d, _, rfl⟩ | hm
    · rfl
    · rfl
    · split at hm
      · rw [List.mem_singleton.mp hm]
        rfl
      · cases hm

inductive ClientSender where
  | heartbeatLoop
  | handleRequest (i : ℕ)
  deriving DecidableEq

def clientScript (beats : ℕ) (reply : ℕ → UInt32 × Reply) : ClientSender → List Send
  | .heartbeatLoop => List.replicate beats ⟨false, heartbeat⟩
  | .handleRequest i => (handleRequest (reply i).1 (reply i).2).map (Send.mk false)

/- `ended` is false for a nil body and for one whose reader failed: no DataEnd. -/
structure Call where
  id : UInt32
  json : Bytes
  chunks : List Bytes
  ended : Bool

def forwardRequest (c : Call) : List Message :=
  newDataMessage msgTypeRequest c.id c.json ::
    c.chunks.map (newDataMessage msgTypeData c.id) ++
    (if c.ended then [newDataMessage msgTypeDataEnd c.id []] else [])

inductive ServerSender where
  | handleConnection
  | forwardRequest (i : ℕ)
  deriving DecidableEq

/- `handleConnection` goes on as `messageLoop`, which answers heartbeats. -/
def serverScript (okJson : Bytes) (beats : ℕ) (call : ℕ → Call) : ServerSender → List Send
  | .handleConnection => ⟨false, newDataMessage msgTypeRegisterOK 0 okJson⟩ ::
      List.replicate beats ⟨true, heartbeat⟩
  | .forwardRequest i => (forwardRequest (call i)).map (Send.mk true)

/-- Two client goroutines cross: the heartbeat's payload is written after the header
of an Error frame, and the peer takes that header for the payload. -/
theorem crossed_writes_break_frames :
    ∃ s, Reach step Free (start (clientScript 1 fun _ => (1, .sendError [0x7b, 0x7d]))) s ∧
      ¬ FramesIntact s := by
  let acts : List ClientSender :=
    [.heartbeatLoop, .handleRequest 0, .heartbeatLoop, .handleRequest 0]
  let s0 := start (clientScript 1 fun _ => (1, .sendError [0x7b, 0x7d]))
  have hrun : (exec step acts s0).map (fun s =>
      (decide (heartbeat ∈ (readMessages s.wire).1), s.sent .heartbeatLoop)) =
      some (false, [heartbeat]) := rfl
  obtain ⟨s, hr, hview⟩ := reach_of_view acts _ hrun
  obtain ⟨hread, hbeat⟩ := Prod.mk.inj hview
  have habsent : heartbeat ∉ (readMessages s.wire).1 := of_decide_eq_false hread
  refine ⟨s, hr, ?_⟩
  rintro ⟨⟨log, hlog, hmerge⟩, _⟩
  have hk := hmerge .heartbeatLoop
  rw [hbeat] at hk
  have hmem : heartbeat ∈ (log.filter fun p => p.1 = .heartbeatLoop).map Prod.snd := by
    rw [hk]
    exact List.mem_singleton_self _
  obtain ⟨p, hp, he⟩ := List.mem_map.mp hmem
  apply habsent
  rw [hlog, ← he]
  exact List.mem_map_of_mem (List.mem_of_mem_filter hp)

/-! ### Runs in which no two messages cross -/

/-- A message is begun only when no other one is half written, except where both are
locked: there the mutex sees to it. -/
def Uncrossed (s : State κ) (k : κ) : Prop :=
  s.half k = none → ∀ c rest, s.todo k = c :: rest →
    ∀ j d ws, s.half j = some (d, ws) → c.locked = true ∧ d.locked = true

def Fits (script : κ → List Send) : Prop := ∀ k, ∀ c ∈ script k, WellFormed c.msg

/- Nothing is half written: the bytes are those of the finished messages. -/
def Settled (log : List (κ × Message)) (s : State κ) : Prop :=
  (∀ k, s.half k = none) ∧ s.wire = wireAll (log.map Prod.snd)

/- Sender `k` alone has written the header of `c` and still owes the payload. -/
structure Midway (log : List (κ × Message)) (s : State κ) (k : κ) (c : Send) : Prop where
  half : s.half k = some (c, [c.msg.payload])
  alone : ∀ j, j ≠ k → s.half j = none
  fit : WellFormed c.msg
  body : c.msg.payload ≠ []
  wire : s.wire = wireAll (log.map Prod.snd) ++ encodeHeader c.msg.header

structure Inv (log : List (κ × Message)) (s : State κ) : Prop where
  fit : ∀ p ∈ log, WellFormed p.2
  todo : ∀ k, ∀ c ∈ s.todo k, WellFormed c.msg
  order : ∀ k, (log.filter fun p => p.1 = k).map Prod.snd = s.sent k
  lock : ∀ k c ws, s.half k = some (c, ws) → c.locked = true → s.mu = some k
  tail : Settled log s ∨ ∃ k c, Midway log s k c

theorem inv_start (script : κ → List Send) (h : Fits script) : Inv [] (start script) := by
  refine ⟨by simp, h, fun k => rfl, ?_, Or.inl ⟨fun k => rfl, rfl⟩⟩
  intro k c ws hk
  simp [start] at hk

variable {log : List (κ × Message)} {s : State κ} {k : κ} {c : Send}

/- The last Write call of a message, whether it is its second or its only one. -/
theorem last_write_inv {w : Bytes} (hfit : ∀ p ∈ log, WellFormed p.2)
    (htodo : ∀ k, ∀ c ∈ s.todo k, WellFormed c.msg)
    (horder : ∀ k, (log.filter fun p => p.1 = k).map Prod.snd = s.sent k) (hc : WellFormed c.msg)
    (halone : ∀ j, j ≠ k → s.half j = none)
    (hwire : s.wire ++ w = wireAll (log.map Prod.snd) ++ c.msg.wire) :
    Inv (log ++ [(k, c.msg)]) (write s k c [w]) := by
  have hnone : ∀ j, (write s k c [w]).half j = none := by
    intro j
    by_cases hj : j = k
    · subst hj
      simp [write, finish]
    · simpa [write, finish, hj] using halone j hj
  refine ⟨?_, htodo, ?_, ?_, Or.inl ⟨hnone, ?_⟩⟩
  · intro p hp
    rcases List.mem_append.mp hp with hp | hp
    · exact hfit p hp
    · rw [List.mem_singleton.mp hp]
      exact hc
  · intro j
    have hj' := horder j
    by_cases hj : j = k
    · subst hj
      simp [write, finish, List.filter_append, hj']
    · have hk : ¬ k = j := fun h => hj h.symm
      simp [write, finish, List.filter_append, hj, hk, hj']
  · intro j d ws hd
    rw [hnone j] at hd
    cases hd
  · simp only [write, finish, hwire, List.map_append, List.map_cons, List.map_nil, wireAll_concat]

theorem second_write_inv {ws : List Bytes} (h : Inv log s) (hk : s.half k = some (c, ws)) :
    ∃ log', Inv log' (write s k c ws) := by
  rcases h.tail with hset | ⟨k', c', hmid⟩
  · rw [hset.1 k] at hk
    cases hk
  · have hkk : k = k' := by
      by_contra hne
      rw [hmid.alone k hne] at hk
      cases hk
    subst hkk
    rw [hmid.half] at hk
    cases hk
    refine ⟨log ++ [(k, c.msg)], ?_⟩
    apply last_write_inv h.fit h.todo h.order hmid.fit hmid.alone
    rw [hmid.wire, wire_eq c.msg hmid.fit, List.append_assoc]

theorem first_write_inv {rest : List Send} (h : Inv log s) (hset : Settled log s)
    (ht : s.todo k = c :: rest) :
    ∃ log', Inv log' (write (begin s k c rest) k c (writeMessage c.msg)) := by
  have hc : WellFormed c.msg := h.todo k c (by rw [ht]; exact List.mem_cons_self ..)
  have htodo : ∀ j, ∀ d ∈ (begin s k c rest).todo j, WellFormed d.msg := by
    intro j d hd
    by_cases hj : j = k
    · subst hj
      have hd' : d ∈ rest := by simpa [begin] using hd
      exact h.todo j d (by rw [ht]; exact List.mem_cons_of_mem _ hd')
    · exact h.todo j d (by simpa [begin, hj] using hd)
  by_cases hp : c.msg.payload = []
  · refine ⟨log ++ [(k, c.msg)], ?_⟩
    rw [writeMessage_empty c.msg hp]
    apply last_write_inv h.fit htodo h.order hc (fun j _ => hset.1 j)
    simp only [begin, hset.2, Message.wire, writeMessage_empty c.msg hp, List.flatten_cons,
      List.flatten_nil, List.append_nil]
  · refine ⟨log, ?_⟩
    rw [writeMessage_full c.msg hc hp]
    have hmid : Midway log (write (begin s k c rest) k c [encodeHeader c.msg.header,
        c.msg.payload]) k c := by
      refine ⟨by simp [write, begin], ?_, hc, hp, by simp [write, begin, hset.2]⟩
      intro j hj
      simpa [write, begin, hj] using hset.1 j
    refine ⟨h.fit, htodo, h.order, ?_, Or.inr ⟨k, c, hmid⟩⟩
    intro j d ws hd hl
    by_cases hj : j = k
    · subst hj
      rw [hmid.half] at hd
      cases hd
      simp [write, begin, hl]
    · rw [hmid.alone j hj] at hd
      cases hd

/- With the guard, the mutex leaves no half-written message behind a new one. -/
theorem settled_of_uncrossed {rest : List Send} (h : Inv log s) (hg : Uncrossed s k)
    (hk : s.half k = none) (ht : s.todo k = c :: rest) (hfree : ¬ (c.locked = true ∧ s.mu ≠ none)) :
    Settled log s := by
  rcases h.tail with hset | ⟨j, d, hmid⟩
  · exact hset
  · obtain ⟨hc, hd⟩ := hg hk c rest ht j d _ hmid.half
    have hmu := h.lock j d _ hmid.half hd
    exact absurd ⟨hc, by simp [hmu]⟩ hfree

theorem step_inv (s : State κ) (k : κ) (t : State κ) (h : ∃ log, Inv log s) (hg : Uncrossed s k)
    (hs : step s k = some t) : ∃ log, Inv log t := by
  obtain ⟨log, hlog⟩ := h
  unfold step at hs
  split at hs
  case h_1 c ws hk =>
    cases hs
    exact second_write_inv hlog hk
  case h_2 hk =>
    split at hs
    case h_1 => cases hs
    case h_2 c rest ht =>
      split at hs
      · cases hs
      · rename_i hfree
        cases hs
        exact first_write_inv hlog (settled_of_uncrossed hlog hg hk ht hfree) ht

theorem Inv.intact (h : Inv log s) : FramesIntact s := by
  have hfit : ∀ m ∈ log.map Prod.snd, WellFormed m := by
    intro m hm
    obtain ⟨p, hp, he⟩ := List.mem_map.mp hm
    rw [← he]
    exact h.fit p hp
  rcases h.tail with ⟨hnone, hwire⟩ | ⟨k, c, hmid⟩
  · have hread := readMessages_wireAll (log.map Prod.snd) [] hfit readMessage_nil
    rw [List.append_nil, ← hwire] at hread
    exact ⟨⟨log, by rw [hread], h.order⟩, fun _ => by rw [hread]⟩
  · have hread := readMessages_wireAll (log.map Prod.snd) (encodeHeader c.msg.header) hfit
      (readMessage_header_only c.msg hmid.fit hmid.body)
    rw [← hmid.wire] at hread
    refine ⟨⟨log, by rw [hread], h.order⟩, fun hnone => ?_⟩
    have hk := hnone k
    rw [hmid.half] at hk
    cases hk

theorem uncrossed_intact (script : κ → List Send) (hfit : Fits script)
    (h : Reach step Uncrossed (start script) s) : FramesIntact s := by
  obtain ⟨log, hlog⟩ := h.invariant (fun s => ∃ log, Inv log s) ⟨[], inv_start script hfit⟩ step_inv
  exact hlog.intact

/-- Both ends of a tunnel: what the peer of each decodes is what its senders sent. -/
theorem uncrossed_runs_keep_frames (beats : ℕ) (reply : ℕ → UInt32 × Reply) (okJson : Bytes)
    (beats' : ℕ) (call : ℕ → Call) (hc : Fits (clientScript beats reply))
    (hv : Fits (serverScript okJson beats' call)) {s : State ClientSender}
    {t : State ServerSender} (hs : Reach step Uncrossed (start (clientScript beats reply)) s)
    (ht : Reach step Uncrossed (start (serverScript okJson beats' call)) t) :
    FramesIntact s ∧ FramesIntact t :=
  ⟨uncrossed_intact (clientScript beats reply) hc hs,
   uncrossed_intact (serverScript okJson beats' call) hv ht⟩

theorem uncrossed_turns_keep_frames :
    ∃ s t, Reach step Uncrossed (start (clientScript 1 fun _ => (1, .sendError [0x7b, 0x7d]))) s ∧
      Reach step Uncrossed (start (serverScript [0x7b, 0x7d] 0 fun _ => ⟨1, [], [], false⟩)) t ∧
      s.sent .heartbeatLoop = [heartbeat] ∧ (s.sent (.handleRequest 0)).length = 1 ∧
      (t.sent .handleConnection).length = 1 ∧ FramesIntact s ∧ FramesIntact t := by
  have hc : Fits (clientScript 1 fun _ => (1, .sendError [0x7b, 0x7d])) := by
    rintro (_ | i) c hc
    · obtain rfl : c = ⟨false, heartbeat⟩ := by simpa [clientScript] using hc
      rfl
    · obtain rfl : c = ⟨false, newDataMessage msgTypeError 1 [0x7b, 0x7d]⟩ := by
        simpa [clientScript, handleRequest] using hc
      rfl
  have hv : Fits (serverScript [0x7b, 0x7d] 0 fun _ => ⟨1, [], [], false⟩) := by
    rintro (_ | i) c hc
    · obtain rfl : c = ⟨false, newDataMessage msgTypeRegisterOK 0 [0x7b, 0x7d]⟩ := by
        simpa [serverScript] using hc
      rfl
    · obtain rfl : c = ⟨true, newDataMessage msgTypeRequest 1 []⟩ := by
        simpa [serverScript, forwardRequest] using hc
      rfl
  let acts : List ClientSender :=
    [.heartbeatLoop, .heartbeatLoop, .handleRequest 0, .handleRequest 0]
  let s0 := start (clientScript 1 fun _ => (1, .sendError [0x7b, 0x7d]))
  have hrun : (exec step acts s0).map
      (fun s => (s.sent .heartbeatLoop, (s.sent (.handleRequest 0)).length)) =
      some ([heartbeat], 1) := rfl
  have hg : Guarded step Uncrossed acts s0 := by
    simp [acts, s0, Guarded, Uncrossed, step, start, clientScript, handleRequest, begin, write,
      finish, writeMessage, heartbeat, newDataMessage, jsonNull, Function.update]
  obtain ⟨s, hr, hview⟩ := reach_of_guarded_view hg _ hrun
  obtain ⟨hbeat, herror⟩ := Prod.mk.inj hview
  let acts' : List ServerSender := [.handleConnection, .handleConnection]
  let t0 := start (serverScript [0x7b, 0x7d] 0 fun _ => ⟨1, [], [], false⟩)
  have hrun' : (exec step acts' t0).map (fun s => (s.sent .handleConnection).length) =
      some 1 := rfl
  have hg' : Guarded step Uncrossed acts' t0 := by
    simp [acts', t0, Guarded, Uncrossed, step, start, serverScript, begin, write,
      finish, writeMessage, newDataMessage, Function.update]
  obtain ⟨t, hr', hregister⟩ := reach_of_guarded_view hg' _ hrun'
  exact ⟨s, t, hr, hr', hbeat, herror, hregister,
    uncrossed_runs_keep_frames 1 _ _ 0 _ hc hv hr hr'⟩

end EdgeDispatch.Tunnel.SharedConn
