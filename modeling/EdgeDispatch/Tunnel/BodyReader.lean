import EdgeDispatch.Tunnel.ServerStreams

/-! # The reader of a response body (internal/tunnel/server.go:314-354)

`tunnelBodyReader.Read` on its own, while the Done channel of its stream stays open: the
messages that come on the Response channel, and the buffers that its caller brings. -/

namespace EdgeDispatch.Tunnel.BodyReader
open Lib.ByteString Tunnel.Wire

structure TunnelBodyReader where
  remain : ℤ
  buf : Bytes

inductive ReadError where
  | eof
  | unexpectedType (t : MessageType)
  | timeout
  deriving DecidableEq

/-- What a Read call returns, the reader after it and the messages still to come. -/
structure Outcome where
  bytes : Bytes
  err : Option ReadError
  reader : TunnelBodyReader
  response : List Message

/- The switch on the type of a message. -/
def receive (r : TunnelBodyReader) (n : ℕ) (msg : Message) (rest : List Message) : Outcome :=
  if msg.header.msgType = msgTypeData then
    ⟨msg.payload.take n, none, ⟨r.remain - msg.payload.length, msg.payload.drop n⟩, rest⟩
  else if msg.header.msgType = msgTypeDataEnd then ⟨[], some .eof, r, rest⟩
  else ⟨[], some (.unexpectedType msg.header.msgType), r, rest⟩

/-- One Read call with room for `n` bytes. It waits for the next message of `response`; where
there is none, the timer fires. -/
def read (r : TunnelBodyReader) (response : List Message) (n : ℕ) : Outcome :=
  if r.remain ≤ 0 ∧ r.buf = [] then ⟨[], some .eof, r, response⟩
  else if r.buf ≠ [] then ⟨r.buf.take n, none, { r with buf := r.buf.drop n }, response⟩
  else
    match response with
    | [] => ⟨[], some .timeout, r, []⟩
    | msg :: rest => receive r n msg rest

/- The results of Read calls with buffers of these sizes, one after the other. -/
def reads (r : TunnelBodyReader) (response : List Message) :
    List ℕ → List (Bytes × Option ReadError)
  | [] => []
  | n :: sizes =>
    ((read r response n).bytes, (read r response n).err) ::
      reads (read r response n).reader (read r response n).response sizes

section Read
variable {r : TunnelBodyReader} {response : List Message} {n : ℕ}

theorem read_of_done (h : r.remain ≤ 0 ∧ r.buf = []) :
    read r response n = ⟨[], some .eof, r, response⟩ := if_pos h

theorem read_of_buf (h : r.buf ≠ []) :
    read r response n = ⟨r.buf.take n, none, { r with buf := r.buf.drop n }, response⟩ := by
  rw [read.eq_def, if_neg fun hdone => h hdone.2, if_pos h]

theorem read_nil (hremain : 0 < r.remain) (hbuf : r.buf = []) :
    read r [] n = ⟨[], some .timeout, r, []⟩ := by
  rw [read.eq_def, if_neg fun hdone => absurd hdone.1 (Int.not_le.mpr hremain),
    if_neg (not_not.mpr hbuf)]

theorem read_cons (hremain : 0 < r.remain) (hbuf : r.buf = []) (msg : Message)
    (rest : List Message) : read r (msg :: rest) n = receive r n msg rest := by
  rw [read.eq_def, if_neg fun hdone => absurd hdone.1 (Int.not_le.mpr hremain),
    if_neg (not_not.mpr hbuf)]

end Read

/-! ### The same call in a session -/

def status : Option ReadError → ServerStreams.Status
  | none => .reading
  | some .eof => .eof
  | some _ => .failed

theorem takeMessage_eq (r : TunnelBodyReader) (out : Bytes) (n : ℕ)
    (msg : Message) (rest : List Message) :
    ServerStreams.takeMessage ⟨r.remain, r.buf, out, .reading⟩ n msg =
      ⟨(receive r n msg rest).reader.remain, (receive r n msg rest).reader.buf,
        out ++ (receive r n msg rest).bytes, status (receive r n msg rest).err⟩ := by
  unfold ServerStreams.takeMessage receive
  split
  · rfl
  · split
    · simp [status]
    · simp [status]

/-- The Read step of a session is this call, on what is in the stream's slot. -/
theorem sessionRead_eq {ι : Type} [DecidableEq ι] (s : ServerStreams.State ι) (i : ι)
    (r : TunnelBodyReader) (out : Bytes) (n : ℕ)
    (hready : (read r (s.response i).toList n).err ≠ some .timeout) :
    ServerStreams.read s i ⟨r.remain, r.buf, out, .reading⟩ n .response =
      some (ServerStreams.setPc { s with
          response := Function.update s.response i
            (read r (s.response i).toList n).response.head? } i
        (.returned (some ⟨(read r (s.response i).toList n).reader.remain,
          (read r (s.response i).toList n).reader.buf,
          out ++ (read r (s.response i).toList n).bytes,
          status (read r (s.response i).toList n).err⟩))) := by
  have hslot : Function.update s.response i (s.response i).toList.head? = s.response := by
    rw [Option.head?_toList, Function.update_eq_self]
  by_cases hbuf : r.buf = []
  · by_cases hremain : 0 < r.remain
    · have hopen : ¬ (r.remain ≤ 0 ∧ r.buf = []) := fun h => absurd h.1 (Int.not_le.mpr hremain)
      cases hm : s.response i with
      | none =>
        rw [hm, Option.toList_none, read_nil hremain hbuf] at hready
        exact absurd rfl hready
      | some msg =>
        rw [Option.toList_some, read_cons hremain hbuf, ← takeMessage_eq r,
          ServerStreams.read, if_neg hopen, if_neg (not_not.mpr hbuf)]
        simp only [hm]
        congr
        unfold receive
        split
        · rfl
        · split <;> rfl
    · have hdone : r.remain ≤ 0 ∧ r.buf = [] := ⟨Int.not_lt.mp hremain, hbuf⟩
      rw [read_of_done hdone, hslot, ServerStreams.read, if_pos hdone]
      simp [status]
  · rw [read_of_buf hbuf, hslot, ServerStreams.read, if_neg fun h => hbuf h.2, if_pos hbuf]
    rfl

/-! ### What is still to come -/

def pending (r : TunnelBodyReader) (response : List Message) : Bytes :=
  r.buf ++ response.flatMap Message.payload

/-- Data messages are to come, and the count is that of their bytes. -/
structure Ready (r : TunnelBodyReader) (response : List Message) : Prop where
  data : ∀ msg ∈ response, msg.header.msgType = msgTypeData
  remain : r.remain = (response.flatMap Message.payload).length

variable {response : List Message}

theorem Ready.pending_eq_nil {r : TunnelBodyReader} (h : Ready r response) :
    pending r response = [] ↔ r.remain ≤ 0 ∧ r.buf = [] := by
  have hnil : response.flatMap Message.payload = [] ↔ r.remain ≤ 0 := by
    rw [h.remain, ← List.length_eq_zero_iff]
    omega
  rw [pending, List.append_eq_nil_iff, hnil, and_comm]

/-- What one call does: at the end it says so, and before it returns bytes from the front, of the
message at hand or of the next one. -/
theorem read_spec {r : TunnelBodyReader} (h : Ready r response) {n : ℕ} (hn : 0 < n) :
    (pending r response = [] ∧ read r response n = ⟨[], some .eof, r, response⟩) ∨
      (pending r response ≠ [] ∧ (read r response n).err = none ∧
        Ready (read r response n).reader (read r response n).response ∧
        (read r response n).bytes ++
          pending (read r response n).reader (read r response n).response = pending r response ∧
        (read r response n).response.length +
          (pending (read r response n).reader (read r response n).response).length <
          response.length + (pending r response).length) := by
  by_cases hpending : pending r response = []
  · exact Or.inl ⟨hpending, read_of_done (h.pending_eq_nil.mp hpending)⟩
  · refine Or.inr ⟨hpending, ?_⟩
    by_cases hbuf : r.buf = []
    · have hremain : 0 < r.remain := by
        by_contra hle
        exact hpending (h.pending_eq_nil.mpr ⟨Int.not_lt.mp hle, hbuf⟩)
      cases response with
      | nil =>
        rw [h.remain] at hremain
        exact absurd hremain (by simp)
      | cons msg rest =>
        have hdata : msg.header.msgType = msgTypeData := h.data msg List.mem_cons_self
        rw [read_cons hremain hbuf, receive, if_pos hdata]
        have hsum : pending r (msg :: rest) =
            msg.payload ++ rest.flatMap Message.payload := by
          rw [pending, hbuf, List.nil_append, List.flatMap_cons]
        refine ⟨rfl, ⟨fun m hm => h.data m (List.mem_cons_of_mem _ hm), ?_⟩, ?_, ?_⟩
        · have hr := h.remain
          rw [List.flatMap_cons, List.length_append] at hr
          dsimp only
          omega
        · rw [hsum, pending, ← List.append_assoc, List.take_append_drop]
        · rw [hsum]
          simp only [pending, List.length_append, List.length_drop, List.length_cons]
          omega
    · rw [read_of_buf hbuf]
      have hlen := List.length_pos_iff.mpr hbuf
      refine ⟨rfl, ⟨h.data, h.remain⟩, ?_, ?_⟩
      · rw [pending, pending, ← List.append_assoc, List.take_append_drop]
      · simp only [pending, List.length_append, List.length_drop]
        omega

/-! ### A sequence of calls -/

section Reads
variable {r : TunnelBodyReader} {response : List Message} {sizes : List ℕ}

/- At the end every call says EOF. -/
theorem reads_of_done (h : pending r response = []) (hr : Ready r response) (sizes : List ℕ) :
    reads r response sizes = sizes.map fun _ => ([], some .eof) := by
  induction sizes with
  | nil => rfl
  | cons n sizes ih =>
    rw [reads, read_of_done (hr.pending_eq_nil.mp h), ih, List.map_cons]

theorem length_reads (r : TunnelBodyReader) (response : List Message) (sizes : List ℕ) :
    (reads r response sizes).length = sizes.length := by
  induction sizes generalizing r response with
  | nil => rfl
  | cons n sizes ih => rw [reads, List.length_cons, ih, List.length_cons]

/-- Each call says EOF iff what was returned before it is all there is, and no other error. -/
theorem reads_err (hr : Ready r response) (hsizes : ∀ n ∈ sizes, 0 < n)
    {before after : List (Bytes × Option ReadError)} {result : Bytes × Option ReadError}
    (h : reads r response sizes = before ++ result :: after) :
    if before.flatMap Prod.fst = pending r response then result = ([], some .eof)
      else result.2 = none := by
  induction sizes generalizing r response before with
  | nil => exact absurd h.symm (List.append_ne_nil_of_right_ne_nil _ (List.cons_ne_nil _ _))
  | cons n sizes ih =>
    rcases read_spec hr (hsizes n List.mem_cons_self) with ⟨hdone, heof⟩ |
      ⟨hpending, herr, hready, hbytes, -⟩
    · have hall := reads_of_done hdone hr (n :: sizes)
      rw [h] at hall
      have hmem : ∀ x ∈ before ++ result :: after, x = ([], some ReadError.eof) := by
        rw [hall]
        intro x hx
        obtain ⟨-, -, rfl⟩ := List.mem_map.mp hx
        rfl
      have hbefore : before.flatMap Prod.fst = [] := by
        rw [List.flatMap_eq_nil_iff]
        intro x hx
        rw [hmem x (List.mem_append_left _ hx)]
      rw [hdone, if_pos hbefore]
      exact hmem result (by simp)
    · rw [reads] at h
      cases before with
      | nil =>
        obtain ⟨rfl, -⟩ := List.cons.inj h
        rw [List.flatMap_nil, if_neg hpending.symm]
        exact herr
      | cons first before =>
        obtain ⟨rfl, htail⟩ := List.cons.inj h
        have hrest := ih hready (fun m hm => hsizes m (List.mem_cons_of_mem _ hm)) htail
        rw [List.flatMap_cons, ← hbytes]
        simpa only [List.append_cancel_left_eq] using hrest

theorem reads_isPrefix (hr : Ready r response) (hsizes : ∀ n ∈ sizes, 0 < n) :
    (reads r response sizes).flatMap Prod.fst <+: pending r response := by
  induction sizes generalizing r response with
  | nil => exact List.nil_prefix
  | cons n sizes ih =>
    rcases read_spec hr (hsizes n List.mem_cons_self) with ⟨hdone, -⟩ | ⟨-, -, hready, hbytes, -⟩
    · rw [reads_of_done hdone hr, hdone]
      simp
    · rw [reads, List.flatMap_cons, ← hbytes, List.prefix_append_right_inj]
      exact ih hready fun m hm => hsizes m (List.mem_cons_of_mem _ hm)

/- Each call takes a message or a byte, so their number bounds the calls. -/
theorem reads_complete (hr : Ready r response) (hsizes : ∀ n ∈ sizes, 0 < n)
    (hlen : response.length + (pending r response).length ≤ sizes.length) :
    (reads r response sizes).flatMap Prod.fst = pending r response := by
  induction sizes generalizing r response with
  | nil =>
    have hnil : pending r response = [] := List.eq_nil_of_length_eq_zero (by
      rw [List.length_nil] at hlen
      omega)
    rw [hnil]
    rfl
  | cons n sizes ih =>
    rcases read_spec hr (hsizes n List.mem_cons_self) with ⟨hdone, -⟩ |
      ⟨-, -, hready, hbytes, hless⟩
    · rw [reads_of_done hdone hr, hdone]
      simp
    · rw [List.length_cons] at hlen
      rw [reads, List.flatMap_cons,
        ih hready (fun m hm => hsizes m (List.mem_cons_of_mem _ hm)) (by omega), hbytes]

end Reads

/-- Data messages that make up the announced length, and buffers of any sizes: what the calls
return is the body from its front, all of it once there were enough of them; a call says EOF
iff all of the body was returned before it, and no call fails. -/
theorem reads_return_body (bodyLen : ℤ) (messages : List Message)
    (hdata : ∀ msg ∈ messages, msg.header.msgType = msgTypeData)
    (hlen : bodyLen = ((messages.map fun msg => msg.payload.length).sum : ℕ)) (sizes : List ℕ)
    (hsizes : ∀ n ∈ sizes, 0 < n) :
    let results := reads ⟨bodyLen, []⟩ messages sizes
    let body := messages.flatMap Message.payload
    results.length = sizes.length ∧ results.flatMap Prod.fst <+: body ∧
      (messages.length + body.length ≤ sizes.length → results.flatMap Prod.fst = body) ∧
      ∀ before result after, results = before ++ result :: after →
        (result.2 = some .eof ↔ before.flatMap Prod.fst = body) ∧
          (result.2 = some .eof → result.1 = []) ∧ (result.2 = none ∨ result.2 = some .eof) := by
  have hready : Ready ⟨bodyLen, []⟩ messages := ⟨hdata, by rw [List.length_flatMap, hlen]⟩
  have hbody : pending ⟨bodyLen, []⟩ messages = messages.flatMap Message.payload := rfl
  intro results body
  refine ⟨length_reads _ _ _, reads_isPrefix hready hsizes, fun hmany => ?_,
    fun before result after hsplit => ?_⟩
  · exact reads_complete hready hsizes hmany
  · have herr := reads_err hready hsizes hsplit
    rw [hbody] at herr
    split at herr
    · rename_i hall
      rw [herr]
      exact ⟨iff_of_true rfl hall, fun _ => rfl, Or.inr rfl⟩
    · rename_i hsome
      rw [herr]
      exact ⟨iff_of_false nofun hsome, nofun, Or.inl rfl⟩

def dataMessage (payload : Bytes) : Message := newDataMessage msgTypeData 1 payload

/- Two messages and an empty one, through buffers that fit none of them. -/
theorem reads_return_body_of_three :
    reads ⟨5, []⟩ [dataMessage [1, 2, 3], dataMessage [], dataMessage [4, 5]] [2, 7, 7, 1, 7, 7] =
        [([1, 2], none), ([3], none), ([], none), ([4], none), ([5], none), ([], some .eof)] ∧
      (reads ⟨5, []⟩ [dataMessage [1, 2, 3], dataMessage [], dataMessage [4, 5]]
        (List.replicate 8 1)).flatMap Prod.fst = [1, 2, 3, 4, 5] := by
  refine ⟨by decide, ?_⟩
  have h := reads_return_body 5 [dataMessage [1, 2, 3], dataMessage [], dataMessage [4, 5]]
    (by decide) (by decide) (List.replicate 8 1) (by decide)
  exact h.2.2.1 (by decide)

end EdgeDispatch.Tunnel.BodyReader
