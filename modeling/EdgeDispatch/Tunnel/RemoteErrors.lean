import EdgeDispatch.Tunnel.ServerStreams

/-! # Error frames and the calls that wait for them

One session of the server as in `ServerStreams`, with what `ForwardRequest` returns told
apart (server.go:191-312). The client may send any frame at any time; its error frames are
those of `sendError` (client.go:377-389). -/

namespace EdgeDispatch.Tunnel.RemoteErrors
open Lib.Transition Lib.ByteString Tunnel.Wire
open Tunnel.ServerStreams (Loop streamID)

/-- What encoding/json makes of payloads: a response header, and the message of an error,
which is empty if the payload is none. -/
structure Unmarshal (H : Type) where
  response : Bytes → Option H
  errorMessage : Bytes → String

inductive Result (H : Type) where
  | response (header : H)
  | remoteError (message : String)
  | unmarshalFailed
  | sendFailed
  | timeout
  deriving DecidableEq

/- `returning` is before the deferred `RemoveStream`. -/
inductive Pc (H : Type) where
  | idle
  | created
  | requested
  | waiting
  | returning (r : Result H)
  | returned (r : Result H)
  deriving DecidableEq

/-- `sent` is every frame of the client so far. `failing` is the error frame that was sent
for a call while it waited, and before any other frame for its stream. -/
structure State (ι H : Type) where
  nextID : ℕ
  id : ι → UInt32
  pc : ι → Pc H
  wire : List Message
  sent : List Message
  failing : ι → Option Message
  loop : Loop ι
  streams : UInt32 → Option ι
  response : ι → Option Message

inductive Act (ι : Type) where
  | createStream (i : ι)
  | writeRequest (i : ι) (ok : Bool)
  | writeBody (i : ι) (ok : Bool)
  | clientSend (m : Message)
  | loopRead
  | loopSend
  | loopStop
  | receive (i : ι)
  | timeout (i : ι)
  | removeStream (i : ι)
  | close

def start {ι H : Type} : State ι H :=
  { nextID := 0, id := fun _ => 0, pc := fun _ => .idle, wire := [], sent := [],
    failing := fun _ => none, loop := .reading, streams := fun _ => none,
    response := fun _ => none }

/- `Client.sendError` -/
def sendError (marshal : ℕ × String → Option Bytes) (id : UInt32) (message : String) :
    Option Message :=
  newControlMessage marshal msgTypeError id (1, message)

variable {ι H : Type} [DecidableEq ι] [DecidableEq H]

def setPc (s : State ι H) (i : ι) (p : Pc H) : State ι H :=
  { s with pc := Function.update s.pc i p }

def createStream (s : State ι H) (i : ι) : State ι H :=
  { s with
    nextID := s.nextID + 1
    id := Function.update s.id i (streamID (s.nextID + 1))
    pc := Function.update s.pc i .created
    streams := Function.update s.streams (streamID (s.nextID + 1)) (some i)
    response := Function.update s.response i none }

def removeStream (s : State ι H) (id : UInt32) : State ι H :=
  { s with streams := Function.update s.streams id none }

/- The first frame for a stream, and an error, while the call waits. -/
def failingBy (s : State ι H) (m : Message) (i : ι) : Prop :=
  m.header.msgType = msgTypeError ∧ m.header.streamID = s.id i ∧ s.pc i = .waiting ∧
    ∀ m' ∈ s.sent, m'.header.streamID ≠ s.id i

instance (s : State ι H) (m : Message) (i : ι) : Decidable (failingBy s m i) :=
  inferInstanceAs (Decidable (m.header.msgType = msgTypeError ∧ m.header.streamID = s.id i ∧
    s.pc i = .waiting ∧ ∀ m' ∈ s.sent, m'.header.streamID ≠ s.id i))

def clientSend (s : State ι H) (m : Message) : State ι H :=
  { s with
    wire := s.wire ++ [m]
    sent := s.sent ++ [m]
    failing := fun i => if failingBy s m i then some m else s.failing i }

/-- The switch of `messageLoop`. It has no branch for errors. -/
def dispatch (s : State ι H) (m : Message) : State ι H :=
  if m.header.msgType = msgTypeHeartbeat then s
  else if m.header.msgType = msgTypeResponse ∨ m.header.msgType = msgTypeData then
    match s.streams m.header.streamID with
    | some i => { s with loop := .sending i m }
    | none => s
  else if m.header.msgType = msgTypeDataEnd then removeStream s m.header.streamID
  else s

/- What `ForwardRequest` makes of the first message on its stream. -/
def respond (u : Unmarshal H) (m : Message) : Result H :=
  if m.header.msgType = msgTypeError then .remoteError (u.errorMessage m.payload)
  else match u.response m.payload with
    | some header => .response header
    | none => .unmarshalFailed

def step (u : Unmarshal H) (s : State ι H) : Act ι → Option (State ι H)
  | .createStream i => if s.pc i = .idle then some (createStream s i) else none
  | .writeRequest i ok =>
    if s.pc i = .created then
      some (setPc s i (if ok then .requested else .returning .sendFailed))
    else none
  | .writeBody i ok =>
    if s.pc i = .requested then
      some (setPc s i (if ok then .waiting else .returning .sendFailed))
    else none
  | .clientSend m => some (clientSend s m)
  | .loopRead =>
    match s.loop, s.wire with
    | .reading, m :: rest => some (dispatch { s with wire := rest } m)
    | _, _ => none
  | .loopSend =>
    match s.loop with
    | .sending i m =>
      if s.response i = none then
        some { s with response := Function.update s.response i (some m), loop := .reading }
      else none
    | _ => none
  | .loopStop =>
    match s.loop with
    | .reading => some { s with loop := .stopped }
    | _ => none
  | .receive i =>
    match s.pc i, s.response i with
    | .waiting, some m =>
      some (setPc { s with response := Function.update s.response i none } i
        (.returning (respond u m)))
    | _, _ => none
  | .timeout i => if s.pc i = .waiting then some (setPc s i (.returning .timeout)) else none
  | .removeStream i =>
    match s.pc i with
    | .returning r => some (setPc (removeStream s (s.id i)) i (.returned r))
    | _ => none
  | .close => some { s with streams := fun _ => none }

def result : Pc H → Option (Result H)
  | .returning r => some r
  | .returned r => some r
  | _ => none

/-- Every call that was sent an error while it waited, and nothing before that, returns this
error once it returns. -/
def ErrorsReturned (u : Unmarshal H) (s : State ι H) : Prop :=
  ∀ i m, s.failing i = some m → ∀ r, s.pc i = .returned r →
    r = .remoteError (u.errorMessage m.payload)

/-! ### Where the message that a call receives comes from -/

/- A frame that was sent for the call and that the loop passes on. -/
structure Answer (s : State ι H) (i : ι) (m : Message) : Prop where
  sent : m ∈ s.sent
  own : m.header.streamID = s.id i
  passed : m.header.msgType = msgTypeResponse ∨ m.header.msgType = msgTypeData
  begun : s.pc i ≠ .idle

/-- A call that ended in a response, or in something that is none, had an answer. -/
def Explained (s : State ι H) (i : ι) : Result H → Prop
  | .response _ => ∃ m, Answer s i m
  | .unmarshalFailed => ∃ m, Answer s i m
  | .remoteError _ => False
  | .sendFailed => s.failing i = none
  | .timeout => True

structure Inv (s : State ι H) : Prop where
  wire_sent : ∀ m ∈ s.wire, m ∈ s.sent
  mapped : ∀ sid i, s.streams sid = some i → s.id i = sid ∧ s.pc i ≠ .idle
  slot : ∀ i m, s.response i = some m → Answer s i m
  passing : ∀ i m, s.loop = .sending i m → Answer s i m
  results : ∀ i r, result (s.pc i) = some r → Explained s i r
  failing_sent : ∀ i m, s.failing i = some m → m ∈ s.sent ∧ m.header.msgType = msgTypeError ∧
    m.header.streamID = s.id i
  failing_waits : ∀ i m, s.failing i = some m → s.pc i = .waiting ∨ result (s.pc i) ≠ none

omit [DecidableEq ι] [DecidableEq H] in
theorem start_inv : Inv (start : State ι H) :=
  ⟨nofun, nofun, nofun, nofun, nofun, nofun, nofun⟩

variable {s : State ι H} {i : ι} {p : Pc H} {m : Message}

omit [DecidableEq ι] [DecidableEq H] in
theorem Explained.mono {t : State ι H} {r : Result H} (h : Explained s i r)
    (hanswer : ∀ m, Answer s i m → Answer t i m)
    (hfailing : s.failing i = none → t.failing i = none) : Explained t i r := by
  cases r with
  | response _ => exact h.imp hanswer
  | unmarshalFailed => exact h.imp hanswer
  | remoteError _ => exact h
  | sendFailed => exact hfailing h
  | timeout => trivial

omit [DecidableEq H] in
theorem begun_setPc (s : State ι H) (i : ι) (hp : p ≠ .idle) :
    ∀ j, s.pc j ≠ .idle → (setPc s i p).pc j ≠ .idle :=
  (Function.forall_update_iff s.pc fun j q => s.pc j ≠ .idle → q ≠ .idle).mpr
    ⟨fun _ => hp, fun _ _ hj => hj⟩

omit [DecidableEq H] in
theorem Answer.setPc {j : ι} (h : Answer s j m) (i : ι) (hp : p ≠ .idle) :
    Answer (setPc s i p) j m :=
  ⟨h.sent, h.own, h.passed, begun_setPc s i hp j h.begun⟩

omit [DecidableEq H] in
/- A call moves on; how it ends is explained. -/
theorem Inv.setPc (h : Inv s) (i : ι) (hp : p ≠ .idle)
    (hr : ∀ r, result p = some r → Explained s i r)
    (hf : ∀ m, s.failing i = some m → p = .waiting ∨ result p ≠ none) : Inv (setPc s i p) := by
  have ended : ∀ j r, result ((RemoteErrors.setPc s i p).pc j) = some r → Explained s j r :=
    (Function.forall_update_iff s.pc fun j q => ∀ r, result q = some r → Explained s j r).mpr
      ⟨hr, fun j _ => h.results j⟩
  refine ⟨h.wire_sent, fun sid j hj => ⟨(h.mapped sid j hj).1, ?_⟩,
    fun j m hj => (h.slot j m hj).setPc i hp, fun j m hj => (h.passing j m hj).setPc i hp,
    fun j r hj => (ended j r hj).mono (fun m hm => hm.setPc i hp) id, h.failing_sent, ?_⟩
  · exact begun_setPc s i hp j (h.mapped sid j hj).2
  · exact (Function.forall_update_iff s.pc fun j q =>
      ∀ m, s.failing j = some m → q = .waiting ∨ result q ≠ none).mpr
        ⟨hf, fun j _ => h.failing_waits j⟩

omit [DecidableEq ι] [DecidableEq H] in
theorem Inv.failing_begun (h : Inv s) (hi : s.failing i = some m) : s.pc i ≠ .idle := by
  intro hidle
  rcases h.failing_waits i m hi with hw | hres
  · exact nomatch hidle.symm.trans hw
  · rw [hidle] at hres
    exact hres rfl

omit [DecidableEq ι] [DecidableEq H] in
/- The calls stay where they are, and what is passed on to them are answers. -/
theorem Inv.pass (h : Inv s) {wire : List Message} {streams : UInt32 → Option ι}
    {response : ι → Option Message} {loop : Loop ι} (hwire : ∀ m ∈ wire, m ∈ s.wire)
    (hmap : ∀ sid i, streams sid = some i → s.streams sid = some i)
    (hslot : ∀ i m, response i = some m → Answer s i m)
    (hloop : ∀ i m, loop = .sending i m → Answer s i m) :
    Inv ({ s with wire := wire, streams := streams, response := response, loop := loop } :
      State ι H) := by
  have answer : ∀ {i m}, Answer s i m → Answer
      ({ s with wire := wire, streams := streams, response := response, loop := loop } :
        State ι H) i m :=
    fun ha => ⟨ha.sent, ha.own, ha.passed, ha.begun⟩
  exact ⟨fun m hm => h.wire_sent m (hwire m hm), fun sid i hi => h.mapped sid i (hmap sid i hi),
    fun i m hi => answer (hslot i m hi), fun i m hi => answer (hloop i m hi),
    fun i r hi => (h.results i r hi).mono (fun _ => answer) id, h.failing_sent, h.failing_waits⟩

omit [DecidableEq ι] [DecidableEq H] in
theorem removeStream_inv (h : Inv s) (id : UInt32) : Inv (removeStream s id) := by
  refine h.pass (fun _ hm => hm) ?_ h.slot h.passing
  exact (Function.forall_update_iff s.streams fun sid x => ∀ i, x = some i →
    s.streams sid = some i).mpr ⟨nofun, fun _ _ _ hi => hi⟩

omit [DecidableEq H] in
theorem createStream_inv (h : Inv s) (hi : s.pc i = .idle) : Inv (createStream s i) := by
  have pc_other : ∀ j, j ≠ i → (createStream s i).pc j = s.pc j :=
    fun j hj => Function.update_of_ne hj _ _
  have id_other : ∀ j, j ≠ i → (createStream s i).id j = s.id j :=
    fun j hj => Function.update_of_ne hj _ _
  have other : ∀ j, s.pc j ≠ .idle → j ≠ i := fun j hj he => hj (he ▸ hi)
  have answer : ∀ j m, Answer s j m → Answer (createStream s i) j m := by
    intro j m hm
    have hji := other j hm.begun
    exact ⟨hm.sent, (id_other j hji).symm ▸ hm.own, hm.passed, (pc_other j hji).symm ▸ hm.begun⟩
  have slot : ∀ j m, (createStream s i).response j = some m → Answer s j m :=
    (Function.forall_update_iff s.response fun j x => ∀ m, x = some m → Answer s j m).mpr
      ⟨nofun, fun j _ => h.slot j⟩
  have ended : ∀ j r, result ((createStream s i).pc j) = some r → Explained s j r :=
    (Function.forall_update_iff s.pc fun j q => ∀ r, result q = some r → Explained s j r).mpr
      ⟨nofun, fun j _ => h.results j⟩
  refine ⟨h.wire_sent, ?_, fun j m hj => answer j m (slot j m hj),
    fun j m hj => answer j m (h.passing j m hj), fun j r hj => (ended j r hj).mono (answer j) id,
    ?_, ?_⟩
  · intro sid j hj
    simp only [createStream, Function.update_apply] at hj
    split at hj
    · rename_i hsid
      rw [← Option.some.inj hj, hsid]
      exact ⟨Function.update_self .., by simp [createStream]⟩
    · obtain ⟨hid, hne⟩ := h.mapped sid j hj
      rw [id_other j (other j hne), pc_other j (other j hne)]
      exact ⟨hid, hne⟩
  · intro j m hj
    obtain ⟨hsent, htype, hown⟩ := h.failing_sent j m hj
    rw [id_other j (other j (h.failing_begun hj))]
    exact ⟨hsent, htype, hown⟩
  · intro j m hj
    rw [pc_other j (other j (h.failing_begun hj))]
    exact h.failing_waits j m hj

omit [DecidableEq ι] in
theorem clientSend_inv (h : Inv s) (m : Message) : Inv (clientSend s m) := by
  have answer : ∀ j m', Answer s j m' → Answer (clientSend s m) j m' :=
    fun j m' hm => ⟨List.mem_append_left _ hm.sent, hm.own, hm.passed, hm.begun⟩
  refine ⟨?_, h.mapped, fun j m' hj => answer j m' (h.slot j m' hj),
    fun j m' hj => answer j m' (h.passing j m' hj), ?_, ?_, ?_⟩
  · intro m' hm'
    rcases List.mem_append.mp hm' with hold | hnew
    · exact List.mem_append_left _ (h.wire_sent m' hold)
    · exact List.mem_append_right _ hnew
  · intro j r hj
    refine (h.results j r hj).mono (answer j) fun hnone => ?_
    -- a call that has a result does not wait
    have hpc : s.pc j ≠ .waiting := by
      intro hw
      have hj' : result (s.pc j) = some r := hj
      rw [hw] at hj'
      cases hj'
    exact (if_neg fun hf : failingBy s m j => hpc hf.2.2.1).trans hnone
  · intro j m' hj
    simp only [clientSend] at hj
    split at hj
    · rename_i hf
      obtain rfl := Option.some.inj hj
      exact ⟨List.mem_append_right _ List.mem_cons_self, hf.1, hf.2.1⟩
    · obtain ⟨hsent, hrest⟩ := h.failing_sent j m' hj
      exact ⟨List.mem_append_left _ hsent, hrest⟩
  · intro j m' hj
    simp only [clientSend] at hj
    split at hj
    · rename_i hf
      exact .inl hf.2.2.1
    · exact h.failing_waits j m' hj

omit [DecidableEq ι] [DecidableEq H] in
theorem dispatch_inv (h : Inv s) (hm : m ∈ s.sent) : Inv (dispatch s m) := by
  unfold dispatch
  split
  · exact h
  · split
    · rename_i hpassed
      split
      · rename_i i hmap
        obtain ⟨hid, hne⟩ := h.mapped _ i hmap
        refine h.pass (fun _ hm => hm) (fun _ _ hi => hi) h.slot fun j m' hj => ?_
        cases hj
        exact ⟨hm, hid.symm, hpassed, hne⟩
      · exact h
    · split
      · exact removeStream_inv h _
      · exact h

omit [DecidableEq ι] [DecidableEq H] in
/- Answers are no error frames. -/
theorem respond_explained (u : Unmarshal H) (h : Answer s i m) : Explained s i (respond u m) := by
  have hne : m.header.msgType ≠ msgTypeError := by
    rcases h.passed with ht | ht <;> rw [ht] <;> decide
  rw [respond, if_neg hne]
  split
  · exact ⟨m, h⟩
  · exact ⟨m, h⟩

omit [DecidableEq H] in
/- A write of a call that does not wait yet. -/
theorem Inv.send (h : Inv s) (hw : s.pc i ≠ .waiting) (hres : result (s.pc i) = none) (ok : Bool)
    (hp : p ≠ .idle) (hnone : result p = none) :
    Inv (RemoteErrors.setPc s i (if ok then p else .returning .sendFailed)) := by
  have unsent : s.failing i = none := by
    cases hf : s.failing i with
    | none => rfl
    | some m =>
      rcases h.failing_waits i m hf with hw' | hres'
      · exact absurd hw' hw
      · exact absurd hres hres'
  refine h.setPc i ?_ ?_ fun m hm => nomatch unsent.symm.trans hm
  · split
    · exact hp
    · exact nofun
  · split
    · exact fun r hr => nomatch hnone.symm.trans hr
    · exact fun r hr => Option.some.inj hr ▸ unsent

theorem step_inv {u : Unmarshal H} {s' : State ι H} {a : Act ι} (h : Inv s)
    (hstep : step u s a = some s') : Inv s' := by
  cases a with
  | createStream i =>
    obtain ⟨hi, hs⟩ := Option.ite_none_right_eq_some.mp hstep
    exact Option.some.inj hs ▸ createStream_inv h hi
  | writeRequest i ok =>
    obtain ⟨hi, hs⟩ := Option.ite_none_right_eq_some.mp hstep
    exact Option.some.inj hs ▸ h.send (by rw [hi]; nofun) (by rw [hi]; rfl) ok nofun rfl
  | writeBody i ok =>
    obtain ⟨hi, hs⟩ := Option.ite_none_right_eq_some.mp hstep
    exact Option.some.inj hs ▸ h.send (by rw [hi]; nofun) (by rw [hi]; rfl) ok nofun rfl
  | clientSend m => exact Option.some.inj hstep ▸ clientSend_inv h m
  | loopRead =>
    simp only [step] at hstep
    split at hstep
    · rename_i m rest hloop hwire
      have hrest : Inv ({ s with wire := rest } : State ι H) :=
        h.pass (fun m' hm' => hwire ▸ List.mem_cons_of_mem m hm') (fun _ _ hi => hi) h.slot
          h.passing
      exact Option.some.inj hstep ▸ dispatch_inv hrest (h.wire_sent m (by simp [hwire]))
    · cases hstep
  | loopSend =>
    simp only [step] at hstep
    split at hstep
    · rename_i i m hloop
      obtain ⟨-, hs⟩ := Option.ite_none_right_eq_some.mp hstep
      refine Option.some.inj hs ▸ h.pass (fun _ hm => hm) (fun _ _ hi => hi) ?_ nofun
      exact (Function.forall_update_iff s.response fun j x => ∀ m', x = some m' → Answer s j m').mpr
        ⟨fun m' hm' => Option.some.inj hm' ▸ h.passing i m hloop, fun j _ => h.slot j⟩
    · cases hstep
  | loopStop =>
    simp only [step] at hstep
    split at hstep
    · exact Option.some.inj hstep ▸ h.pass (fun _ hm => hm) (fun _ _ hi => hi) h.slot nofun
    · cases hstep
  | receive i =>
    simp only [step] at hstep
    split at hstep
    · rename_i m hpc hslot
      have hdone : Inv (setPc s i (.returning (respond u m))) :=
        h.setPc i nofun (fun r hr => Option.some.inj hr ▸ respond_explained u (h.slot i m hslot))
          fun _ _ => .inr nofun
      refine Option.some.inj hstep ▸ hdone.pass (fun _ hm => hm) (fun _ _ hi => hi) ?_ hdone.passing
      exact (Function.forall_update_iff s.response fun j x => ∀ m', x = some m' →
        Answer (setPc s i _) j m').mpr ⟨nofun, fun j _ => hdone.slot j⟩
    · cases hstep
  | timeout i =>
    obtain ⟨hi, hs⟩ := Option.ite_none_right_eq_some.mp hstep
    exact Option.some.inj hs ▸ h.setPc i nofun (fun r hr => Option.some.inj hr ▸ trivial)
      fun _ _ => .inr nofun
  | removeStream i =>
    simp only [step] at hstep
    split at hstep
    · rename_i r hpc
      have hgone := removeStream_inv h (s.id i)
      refine Option.some.inj hstep ▸ hgone.setPc i nofun (fun r' hr => ?_) fun _ _ => .inr nofun
      exact hgone.results i r' ((congrArg result hpc).trans hr)
    · cases hstep
  | close => exact Option.some.inj hstep ▸ h.pass (fun _ hm => hm) nofun h.slot h.passing

/-- No call returns an error that the client sent it. If nothing else was sent for its
stream, what it returns is a timeout. -/
theorem remote_error_never_returned (u : Unmarshal H) {s : State ι H}
    (hr : Reach (step u) Free start s) {i : ι} {m : Message} (hi : s.failing i = some m)
    {r : Result H} (hret : s.pc i = .returned r) :
    r ≠ .remoteError (u.errorMessage m.payload) ∧
      ((∀ m' ∈ s.sent, m'.header.streamID = s.id i → m'.header.msgType = msgTypeError) →
        r = .timeout) := by
  have h : Inv s := hr.invariant _ start_inv fun _ _ _ h _ hs => step_inv h hs
  have hex : Explained s i r := h.results i r (by rw [hret]; rfl)
  have answered : (∃ m', Answer s i m') →
      ¬ ∀ m' ∈ s.sent, m'.header.streamID = s.id i → m'.header.msgType = msgTypeError := by
    rintro ⟨m', hm'⟩ honly
    have herr := honly m' hm'.sent hm'.own
    rcases hm'.passed with ht | ht <;> rw [ht] at herr <;> exact absurd herr (by decide)
  cases r with
  | response _ => exact ⟨nofun, fun honly => absurd honly (answered hex)⟩
  | unmarshalFailed => exact ⟨nofun, fun honly => absurd honly (answered hex)⟩
  | remoteError _ => exact hex.elim
  | sendFailed => exact nomatch (show s.failing i = none from hex).symm.trans hi
  | timeout => exact ⟨nofun, fun _ => rfl⟩

/- The frame of a client that could not reach its service, and one call it is for. -/
def refused : Message := ⟨⟨1, msgTypeError, 1, 1⟩, [101]⟩

def readRefused : Unmarshal Unit :=
  ⟨fun _ => none, fun payload => if payload = [101] then "local request: refused" else ""⟩

def refusedRun : List (Act Unit) :=
  [.createStream (), .writeRequest () true, .writeBody () true, .clientSend refused, .loopRead,
    .timeout (), .removeStream ()]

theorem refusedRun_view : (exec (step readRefused) refusedRun start).map
    (fun s => (s.failing (), s.pc (), s.sent)) =
      some (some refused, .returned .timeout, [refused]) := rfl

theorem refused_request_returns_timeout : ∃ (s : State Unit Unit) (r : Result Unit),
    Reach (step readRefused) Free start s ∧ s.failing () = some refused ∧ s.pc () = .returned r ∧
    r ≠ .remoteError (readRefused.errorMessage refused.payload) ∧ r = .timeout := by
  obtain ⟨s, hr, hview⟩ := reach_of_view refusedRun
    (fun s : State Unit Unit => (s.failing (), s.pc (), s.sent)) refusedRun_view
  simp only [Prod.mk.injEq] at hview
  obtain ⟨hfail, hpc, hsent⟩ := hview
  obtain ⟨hnot, htimeout⟩ := remote_error_never_returned readRefused hr hfail hpc
  refine ⟨s, .timeout, hr, hfail, hpc, hnot, htimeout ?_⟩
  simp [hsent, refused]

/-- The loop drops the error frame, and the call waits until it times out. -/
theorem error_frame_dropped :
    sendError (fun _ => some [101]) 1 "local request: refused" = some refused ∧
    ∃ s : State Unit Unit, Reach (step readRefused) Free start s ∧ s.failing () = some refused ∧
      s.sent = [refused] ∧ s.pc () = .returned .timeout ∧ ¬ ErrorsReturned readRefused s := by
  refine ⟨rfl, ?_⟩
  obtain ⟨s, hr, hview⟩ := reach_of_view refusedRun
    (fun s : State Unit Unit => (s.failing (), s.pc (), s.sent)) refusedRun_view
  simp only [Prod.mk.injEq] at hview
  obtain ⟨hfail, hpc, hsent⟩ := hview
  refine ⟨s, hr, hfail, hsent, hpc, fun hall => ?_⟩
  exact nomatch hall () refused hfail .timeout hpc

end EdgeDispatch.Tunnel.RemoteErrors
