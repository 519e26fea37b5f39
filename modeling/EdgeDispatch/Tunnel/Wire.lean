import EdgeDispatch.Lib.ByteString

/-! # Tunnel wire format (internal/tunnel/message.go)

A message is a ten-byte header (version, type, stream id, payload length, both
words big-endian) and a payload. `WriteMessage` hands the two to the connection
in separate Write calls; `ReadMessage` reads them back with two `io.ReadFull`. -/

namespace EdgeDispatch.Tunnel.Wire
open Lib.ByteString

abbrev MessageType := UInt8
def msgTypeRegister : MessageType := 0x01
def msgTypeRegisterOK : MessageType := 0x02
def msgTypeHeartbeat : MessageType := 0x03
def msgTypeError : MessageType := 0x04
def msgTypeRequest : MessageType := 0x10
def msgTypeResponse : MessageType := 0x11
def msgTypeData : MessageType := 0x12
def msgTypeDataEnd : MessageType := 0x13

structure MessageHeader where
  version : UInt8
  msgType : MessageType
  streamID : UInt32
  length : UInt32
  deriving DecidableEq, Repr

structure Message where
  header : MessageHeader
  payload : Bytes
  deriving DecidableEq, Repr

def headerSize : ℕ := 10

def encodeHeader (h : MessageHeader) : Bytes :=
  [h.version, h.msgType] ++ putUint32 h.streamID ++ putUint32 h.length

def decodeHeader (buf : Bytes) : MessageHeader :=
  ⟨buf.getD 0 0, buf.getD 1 0, uint32 ((buf.drop 2).take 4), uint32 ((buf.drop 6).take 4)⟩

/-- The Write calls of one `WriteMessage`, in order. -/
def writeMessage (m : Message) : List Bytes :=
  encodeHeader m.header ::
    if 0 < m.header.length ∧ m.payload ≠ [] then [m.payload.take m.header.length.toNat] else []

def readMessage (bs : Bytes) : Option (Message × Bytes) :=
  (readFull headerSize bs).bind fun r =>
    let h := decodeHeader r.1
    if 0 < h.length then (readFull h.length.toNat r.2).map fun p => (⟨h, p.1⟩, p.2)
    else some (⟨h, []⟩, r.2)

/- Both constructors stamp version 1 and the length, truncated to 32 bits. -/
def newDataMessage (t : MessageType) (streamID : UInt32) (data : Bytes) : Message :=
  ⟨⟨1, t, streamID, UInt32.ofNat data.length⟩, data⟩

def newControlMessage {P : Type} (marshal : P → Option Bytes) (t : MessageType)
    (streamID : UInt32) (payload : P) : Option Message :=
  (marshal payload).map (newDataMessage t streamID)

/- `ReadMessage` called again and again until it fails, on what has arrived; every
   message takes at least a header, so the length bounds the number of calls. -/
def readLoop : ℕ → Bytes → List Message × Bytes
  | 0, bs => ([], bs)
  | fuel + 1, bs =>
    match readMessage bs with
    | none => ([], bs)
    | some (m, rest) => (m :: (readLoop fuel rest).1, (readLoop fuel rest).2)

def readMessages (bs : Bytes) : List Message × Bytes := readLoop bs.length bs

/-! ### One message -/

def Message.wire (m : Message) : Bytes := (writeMessage m).flatten

/-- The length field tells the truth; the constructors guarantee it below 2^32. -/
def WellFormed (m : Message) : Prop := m.header.length.toNat = m.payload.length

theorem newDataMessage_wellFormed (t : MessageType) (id : UInt32) (data : Bytes)
    (h : data.length < 2 ^ 32) : WellFormed (newDataMessage t id data) := by
  simp only [WellFormed, newDataMessage, UInt32.toNat_ofNat']
  exact Nat.mod_eq_of_lt h

theorem encodeHeader_length (h : MessageHeader) : (encodeHeader h).length = headerSize := by
  simp [encodeHeader, putUint32_length, headerSize]

theorem decodeHeader_encodeHeader (h : MessageHeader) : decodeHeader (encodeHeader h) = h := by
  have hs : (putUint32 h.streamID).length = 4 := putUint32_length _
  have hl : (putUint32 h.length).length = 4 := putUint32_length _
  have h2 : ((encodeHeader h).drop 2).take 4 = putUint32 h.streamID := by
    simp [encodeHeader, hs]
  have h6 : ((encodeHeader h).drop 6).take 4 = putUint32 h.length := by
    have hd : (encodeHeader h).drop 6 = (putUint32 h.streamID ++ putUint32 h.length).drop 4 := rfl
    rw [hd, List.drop_append_of_le_length hs.ge, List.drop_of_length_le hs.le, List.nil_append]
    exact List.take_of_length_le hl.le
  simp only [decodeHeader, h2, h6, uint32_putUint32]
  rfl

theorem length_pos_iff (m : Message) (hw : WellFormed m) :
    0 < m.header.length ↔ m.payload ≠ [] := by
  have hlt : 0 < m.header.length ↔ 0 < m.header.length.toNat := UInt32.lt_iff_toNat_lt
  rw [hlt, hw]
  exact List.length_pos_iff

theorem writeMessage_empty (m : Message) (hp : m.payload = []) :
    writeMessage m = [encodeHeader m.header] := by
  simp [writeMessage, hp]

theorem writeMessage_full (m : Message) (hw : WellFormed m) (hp : m.payload ≠ []) :
    writeMessage m = [encodeHeader m.header, m.payload] := by
  have hl := (length_pos_iff m hw).mpr hp
  have ht : m.payload.take m.header.length.toNat = m.payload := by
    rw [hw]
    exact List.take_length
  simp [writeMessage, hp, hl, ht]

theorem wire_eq (m : Message) (hw : WellFormed m) :
    m.wire = encodeHeader m.header ++ m.payload := by
  by_cases hp : m.payload = []
  · simp [Message.wire, writeMessage_empty m hp, hp]
  · simp [Message.wire, writeMessage_full m hw hp]

theorem readFull_header (h : MessageHeader) (rest : Bytes) :
    readFull headerSize (encodeHeader h ++ rest) = some (encodeHeader h, rest) := by
  rw [← encodeHeader_length h]
  exact readFull_append _ _

theorem readMessage_wire (m : Message) (rest : Bytes) (hw : WellFormed m) :
    readMessage (m.wire ++ rest) = some (m, rest) := by
  rw [wire_eq m hw, List.append_assoc, readMessage, readFull_header]
  simp only [Option.bind_some, decodeHeader_encodeHeader]
  by_cases hp : m.payload = []
  · have hl : ¬ 0 < m.header.length := fun h => (length_pos_iff m hw).mp h hp
    rw [if_neg hl, hp]
    cases m
    simp_all
  · rw [if_pos ((length_pos_iff m hw).mpr hp), hw, readFull_append]
    rfl

/- A header whose payload has not arrived is no message yet. -/
theorem readMessage_header_only (m : Message) (hw : WellFormed m) (hp : m.payload ≠ []) :
    readMessage (encodeHeader m.header) = none := by
  have h := readFull_header m.header []
  rw [List.append_nil] at h
  have hshort : readFull m.header.length.toNat [] = none := by
    apply readFull_short
    rw [hw]
    exact List.length_pos_iff.mpr hp
  rw [readMessage, h]
  simp only [Option.bind_some, decodeHeader_encodeHeader]
  rw [if_pos ((length_pos_iff m hw).mpr hp), hshort]
  rfl

theorem readMessage_nil : readMessage [] = none := rfl

/-! ### A message read in pieces

`io.ReadFull` takes what each Read call of the connection gives; with two goroutines
in `ReadMessage` their Read calls alternate, so the state of one is the bytes it has. -/

/-- What the ReadFull call in progress still waits for; 0 once the message is whole. -/
def need (acc : Bytes) : ℕ :=
  if acc.length < headerSize then headerSize - acc.length
  else headerSize + (decodeHeader (acc.take headerSize)).length.toNat - acc.length

def completed (acc : Bytes) : Option Message :=
  if need acc = 0 then (readMessage acc).map Prod.fst else none

theorem wire_length (m : Message) (hw : WellFormed m) :
    m.wire.length = headerSize + m.payload.length := by
  rw [wire_eq m hw, List.length_append, encodeHeader_length]

theorem need_take (m : Message) (hw : WellFormed m) (k : ℕ) (hk : k ≤ m.wire.length) :
    need (m.wire.take k) = if k < headerSize then headerSize - k else m.wire.length - k := by
  have hl : (m.wire.take k).length = k := by
    rw [List.length_take]
    omega
  unfold need
  rw [hl]
  split
  · rfl
  · have hh : (m.wire.take k).take headerSize = encodeHeader m.header := by
      rw [List.take_take, Nat.min_eq_left (by omega), wire_eq m hw, ← encodeHeader_length m.header]
      exact List.take_left
    rw [hh, decodeHeader_encodeHeader, hw, wire_length m hw]

theorem need_take_le (m : Message) (hw : WellFormed m) (k : ℕ) (hk : k ≤ m.wire.length) :
    k + need (m.wire.take k) ≤ m.wire.length := by
  have hl := wire_length m hw
  rw [need_take m hw k hk]
  split <;> omega

theorem completed_wire (m : Message) (hw : WellFormed m) : completed m.wire = some m := by
  have hl := wire_length m hw
  have hneed := need_take m hw m.wire.length (le_refl _)
  rw [List.take_length, if_neg (by omega), Nat.sub_self] at hneed
  have hread := readMessage_wire m [] hw
  rw [List.append_nil] at hread
  simp only [completed, hneed, if_true, hread, Option.map_some]

theorem completed_take (m : Message) (hw : WellFormed m) (k : ℕ) (hk : k < m.wire.length) :
    completed (m.wire.take k) = none := by
  have hneed := need_take m hw k hk.le
  apply if_neg
  rw [hneed]
  split <;> omega

/-! ### Streams of messages -/

def wireAll (ms : List Message) : Bytes := (ms.map Message.wire).flatten

theorem wireAll_concat (ms : List Message) (m : Message) :
    wireAll (ms ++ [m]) = wireAll ms ++ m.wire := by
  simp [wireAll]

theorem readLoop_wireAll (ms : List Message) (tail : Bytes) (fuel : ℕ)
    (hw : ∀ m ∈ ms, WellFormed m) (ht : readMessage tail = none) (hf : ms.length ≤ fuel) :
    readLoop fuel (wireAll ms ++ tail) = (ms, tail) := by
  induction ms generalizing fuel with
  | nil =>
    cases fuel with
    | zero => rfl
    | succ fuel => simp [readLoop, wireAll, ht]
  | cons m ms ih =>
    cases fuel with
    | zero => simp at hf
    | succ fuel =>
      have hm := readMessage_wire m (wireAll ms ++ tail) (hw m (List.mem_cons_self ..))
      have hcons : wireAll (m :: ms) ++ tail = m.wire ++ (wireAll ms ++ tail) := by
        simp [wireAll]
      have hrest := ih fuel (fun x hx => hw x (List.mem_cons_of_mem _ hx))
        (by simp only [List.length_cons] at hf; omega)
      rw [hcons, readLoop, hm]
      simp only [hrest]

theorem wireAll_length_ge (ms : List Message) : ms.length ≤ (wireAll ms).length := by
  induction ms with
  | nil => simp [wireAll]
  | cons m ms ih =>
    have hh := encodeHeader_length m.header
    simp only [headerSize] at hh
    simp only [wireAll, List.map_cons, List.flatten_cons, List.length_append, List.length_cons,
      Message.wire, writeMessage, hh] at ih ⊢
    omega

theorem readMessages_wireAll (ms : List Message) (tail : Bytes)
    (hw : ∀ m ∈ ms, WellFormed m) (ht : readMessage tail = none) :
    readMessages (wireAll ms ++ tail) = (ms, tail) := by
  apply readLoop_wireAll ms tail _ hw ht
  have h := wireAll_length_ge ms
  rw [List.length_append]
  omega

/-! ### Cut streams -/

/- Cut anywhere before its last byte, a message is not read: the header is short, or
   the header is there and the payload it announces is short. -/
theorem readMessage_take (m : Message) (hw : WellFormed m) (k : ℕ) (hk : k < m.wire.length) :
    readMessage (m.wire.take k) = none := by
  have hl := wire_length m hw
  have hk' : (m.wire.take k).length = k := by
    rw [List.length_take]
    omega
  by_cases hshort : k < headerSize
  · have hread : readFull headerSize (m.wire.take k) = none := by
      apply readFull_short
      omega
    rw [readMessage, hread]
    rfl
  · have hsplit : m.wire.take k = encodeHeader m.header ++ m.payload.take (k - headerSize) := by
      rw [wire_eq m hw, List.take_append, encodeHeader_length]
      rw [List.take_of_length_le (by rw [encodeHeader_length]; omega)]
    have hpay : readFull m.header.length.toNat (m.payload.take (k - headerSize)) = none := by
      apply readFull_short
      rw [List.length_take, hw]
      omega
    have hpos : 0 < m.header.length := by
      apply (length_pos_iff m hw).mpr
      intro hnil
      rw [hnil, List.length_nil] at hl
      omega
    rw [hsplit, readMessage, readFull_header]
    simp only [Option.bind_some, decodeHeader_encodeHeader, if_pos hpos, hpay]
    rfl

theorem wireAll_cons (m : Message) (ms : List Message) : wireAll (m :: ms) = m.wire ++ wireAll ms := by
  simp [wireAll]

/-- A proper prefix of a stream of messages ends inside one of them, or right before it. -/
theorem prefix_ends_inside (ms : List Message) {p : Bytes} (hp : p <+: wireAll ms)
    (hne : p ≠ wireAll ms) :
    ∃ before m later k, ms = before ++ m :: later ∧ k < m.wire.length ∧
      p = wireAll before ++ m.wire.take k := by
  induction ms generalizing p with
  | nil =>
    have hnil : p = [] := List.prefix_nil.mp hp
    exact absurd hnil hne
  | cons m ms ih =>
    rw [wireAll_cons] at hp hne
    obtain ⟨rest, hrest⟩ := hp
    by_cases hin : p.length < m.wire.length
    · refine ⟨[], m, ms, p.length, rfl, hin, ?_⟩
      have htake := congrArg (List.take p.length) hrest
      rw [List.take_left, List.take_append_of_le_length hin.le] at htake
      simpa [wireAll] using htake
    · obtain ⟨q, hq, hq'⟩ : ∃ q, p = m.wire ++ q ∧ q ++ rest = wireAll ms := by
        rcases List.append_eq_append_iff.mp hrest with ⟨a, ha, hb⟩ | ⟨a, ha, hb⟩
        · have hlen := congrArg List.length ha
          rw [List.length_append] at hlen
          have hnil : a = [] := List.eq_nil_of_length_eq_zero (by omega)
          subst hnil
          exact ⟨[], by simpa using ha.symm, by simpa using hb⟩
        · exact ⟨a, ha, hb.symm⟩
      have hne' : q ≠ wireAll ms := by
        intro h
        exact hne (by rw [hq, h])
      obtain ⟨before, x, later, k, hms, hk, hx⟩ := ih ⟨rest, hq'⟩ hne'
      refine ⟨m :: before, x, later, k, by rw [hms]; rfl, hk, ?_⟩
      rw [hq, hx, wireAll_cons, List.append_assoc]

/-- What the two constructors make of payloads whose length fits the header. -/
inductive Built {P : Type} (marshal : P → Option Bytes) : Message → Prop
  | control {t : MessageType} {id : UInt32} {payload : P} {m : Message}
      (h : newControlMessage marshal t id payload = some m) (hlen : m.payload.length < 2 ^ 32) :
      Built marshal m
  | data (t : MessageType) (id : UInt32) (data : Bytes) (hlen : data.length < 2 ^ 32) :
      Built marshal (newDataMessage t id data)

theorem Built.wellFormed {P : Type} {marshal : P → Option Bytes} {m : Message}
    (h : Built marshal m) : WellFormed m := by
  cases h with
  | control h hlen =>
    obtain ⟨data, -, rfl⟩ := Option.map_eq_some_iff.mp h
    exact newDataMessage_wellFormed _ _ _ hlen
  | data t id data hlen => exact newDataMessage_wellFormed t id data hlen

/-- A stream of built messages is read back whole, and a stream cut short up to the cut:
the message that is cut, or that has not begun to arrive, is an error. -/
theorem messages_read_back {P : Type} (marshal : P → Option Bytes) (ms : List Message)
    (hb : ∀ m ∈ ms, Built marshal m) :
    readMessages (wireAll ms) = (ms, []) ∧
      ∀ p, p <+: wireAll ms → p ≠ wireAll ms →
        ∃ before m later k, ms = before ++ m :: later ∧ k < m.wire.length ∧
          p = wireAll before ++ m.wire.take k ∧
          readMessages p = (before, m.wire.take k) ∧ readMessage (m.wire.take k) = none := by
  have hw : ∀ m ∈ ms, WellFormed m := fun m hm => (hb m hm).wellFormed
  refine ⟨?_, ?_⟩
  · have h := readMessages_wireAll ms [] hw readMessage_nil
    rwa [List.append_nil] at h
  · intro p hp hne
    obtain ⟨before, m, later, k, hms, hk, heq⟩ := prefix_ends_inside ms hp hne
    have hcut : readMessage (m.wire.take k) = none := by
      apply readMessage_take m (hw m ?_) k hk
      rw [hms]
      exact List.mem_append_right _ (List.mem_cons_self ..)
    have hdone : ∀ x ∈ before, WellFormed x := by
      intro x hx
      apply hw
      rw [hms]
      exact List.mem_append_left _ hx
    refine ⟨before, m, later, k, hms, hk, heq, ?_, hcut⟩
    rw [heq]
    exact readMessages_wireAll before _ hdone hcut

/- A register message with a payload, then an end marker without one; the stream is cut
   after three bytes of the marker. -/
theorem register_then_end_read_back :
    let marshal : Bytes → Option Bytes := some
    let ms := [newDataMessage msgTypeRegister 0 [123, 125], newDataMessage msgTypeDataEnd 7 []]
    (∀ m ∈ ms, Built marshal m) ∧ readMessages (wireAll ms) = (ms, []) ∧
      ∃ before m later k, ms = before ++ m :: later ∧ k < m.wire.length ∧
        (wireAll ms).take 15 = wireAll before ++ m.wire.take k ∧
        readMessages ((wireAll ms).take 15) = (before, m.wire.take k) ∧
        readMessage (m.wire.take k) = none := by
  intro marshal ms
  have hb : ∀ m ∈ ms, Built marshal m := by
    intro m hm
    simp only [ms, List.mem_cons, List.not_mem_nil, or_false] at hm
    rcases hm with rfl | rfl
    · have hmade : newControlMessage marshal msgTypeRegister 0 [123, 125] =
          some (newDataMessage msgTypeRegister 0 [123, 125]) := rfl
      exact .control hmade (by decide)
    · exact .data _ _ _ (by decide)
  have h := messages_read_back marshal ms hb
  exact ⟨hb, h.1, h.2 _ (List.take_prefix 15 _) (by decide)⟩

end EdgeDispatch.Tunnel.Wire
