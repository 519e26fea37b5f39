import EdgeDispatch.Lib.GoStrings
import EdgeDispatch.Lib.HttpResponse

/-! # Response compression at the edge (internal/edgeagent/server.go:150-218)

`withCompression` puts an encoder between a handler and the response. Whether it is used is
decided when the header is written, and it is closed at the end in any case. -/

namespace EdgeDispatch.Edge.Compression
open Lib.ByteString Lib.GoStrings Lib.HttpResponse

/-- An encoder, which writes to the response in chunks of its own, and its decoder. -/
structure Codec where
  σ : Type
  fresh : σ
  write : σ → Bytes → σ × List Bytes
  close : σ → List Bytes
  decode : Bytes → Option Bytes

/- The chunks for some writes and the final Close. -/
def Codec.emit (e : Codec) : e.σ → List Bytes → List Bytes
  | s, [] => e.close s
  | s, b :: rest => (e.write s b).2 ++ e.emit (e.write s b).1 rest

def Codec.output (e : Codec) (bs : List Bytes) : List Bytes := e.emit e.fresh bs

/-- What gzip and brotli are taken to do: what was encoded is decoded, a stream that is cut
short is an error, and Close writes something. -/
structure Codec.Lossless (e : Codec) : Prop where
  whole : ∀ bs, e.decode (e.output bs).flatten = some bs.flatten
  cut : ∀ bs p, p <+: (e.output bs).flatten → p ≠ (e.output bs).flatten → e.decode p = none
  closing : ∀ s, (e.close s).flatten ≠ []

/-! ### The handler and its writer -/

inductive Act where
  | set (f : Field) (value : Bytes)
  | writeHeader (s : Status)
  | write (b : Bytes)

/- `http.ResponseWriter` -/
structure ResponseWriter (α : Type) where
  setHeader : α → (Header → Header) → α
  writeHeader : α → Status → α
  write : α → Bytes → α

def ResponseWriter.act {α : Type} (rw : ResponseWriter α) (a : α) : Act → α
  | .set f value => rw.setHeader a fun h => h.set f value
  | .writeHeader s => rw.writeHeader a s
  | .write b => rw.write a b

def response : ResponseWriter Writer :=
  ⟨fun w f => { w with header := f w.header }, Writer.writeHeader, Writer.write⟩

def isCompressible (ct : Bytes) : Bool :=
  ct = [] ∨ hasPrefix ct (lit "application/json") ∨ hasPrefix ct (lit "text/") ∨
    hasPrefix ct (lit "application/javascript") ∨ hasPrefix ct (lit "application/xml")

/-- `direct` is whether its Writer has become the response itself. -/
structure CompressedResponseWriter (e : Codec) where
  enc : e.σ
  direct : Bool
  wroteHeader : Bool
  w : Writer

namespace CompressedResponseWriter
variable {e : Codec}

def writeHeader (c : CompressedResponseWriter e) (s : Status) : CompressedResponseWriter e :=
  if c.wroteHeader then c
  else if isCompressible c.w.header.contentType then
    { c with wroteHeader := true, w := c.w.writeHeader s }
  else
    let w := { c.w with header := c.w.header.set .contentEncoding [] }
    { c with wroteHeader := true, direct := true, w := w.writeHeader s }

def write (c : CompressedResponseWriter e) (b : Bytes) : CompressedResponseWriter e :=
  let c := c.writeHeader .ok
  if c.direct then { c with w := c.w.write b }
  else { c with enc := (e.write c.enc b).1, w := (e.write c.enc b).2.foldl Writer.write c.w }

end CompressedResponseWriter

def compressed (e : Codec) : ResponseWriter (CompressedResponseWriter e) :=
  ⟨fun c f => { c with w := { c.w with header := f c.w.header } },
    CompressedResponseWriter.writeHeader, CompressedResponseWriter.write⟩

/- The deferred Close comes last. -/
def serveCompressed (e : Codec) (name : Bytes) (h : Header) (acts : List Act) : Writer :=
  let w := Writer.blank ((h.set .contentEncoding name).set .contentLength [])
  let c := acts.foldl (compressed e).act ⟨e.fresh, false, false, w⟩
  (e.close c.enc).foldl Writer.write c.w

/-- The encoder that is asked for; brotli comes first. -/
def coding (br gz : Codec) (acceptEncoding : Bytes) : Option (Codec × Bytes) :=
  if contains acceptEncoding (lit "br") then some (br, lit "br")
  else if contains acceptEncoding (lit "gzip") then some (gz, lit "gzip")
  else none

def withCompression (br gz : Codec) (acceptEncoding : Bytes) (h : Header) (acts : List Act) :
    Writer :=
  match coding br gz acceptEncoding with
  | some (e, name) => serveCompressed e name h acts
  | none => acts.foldl response.act (.blank h)

/- net/http writes a header if the handler did not. -/
def serve (br gz : Codec) (acceptEncoding : Bytes) (acts : List Act) : Writer :=
  (withCompression br gz acceptEncoding ⟨[], [], []⟩ acts).writeHeader .ok

/-! ### Transparency -/

def writes : List Act → List Bytes
  | [] => []
  | .write b :: rest => b :: writes rest
  | _ :: rest => writes rest

/- How a client reads a body; a coding it does not know is an error. -/
def decodeBy (br gz : Codec) (contentEncoding b : Bytes) : Option Bytes :=
  if contentEncoding = [] then some b
  else if contentEncoding = lit "br" then br.decode b
  else if contentEncoding = lit "gzip" then gz.decode b
  else none

/-- The body that was sent is read as `body`, and is as long as the header says; a status
that has no body is sent without either. -/
def Transparent (br gz : Codec) (w : Writer) (body : Bytes) : Prop :=
  ∃ c ∈ w.committed,
    if c.status.bodyAllowed then
      decodeBy br gz c.header.contentEncoding w.sent = some body ∧
        ∀ n ∈ declared c.header, n = w.sent.length
    else w.sent = body

instance (br gz : Codec) (w : Writer) (body : Bytes) : Decidable (Transparent br gz w body) :=
  inferInstanceAs (Decidable (∃ c ∈ w.committed, if c.status.bodyAllowed then
    decodeBy br gz c.header.contentEncoding w.sent = some body ∧
      ∀ n ∈ declared c.header, n = w.sent.length else w.sent = body))

/-! ### What a handler's acts come to -/

/- The header when it is fixed, by the first WriteHeader or Write. -/
def openHeader : List Act → Header → Header
  | .set f value :: rest, h => openHeader rest (h.set f value)
  | _, h => h

def openStatus : List Act → Status
  | .set _ _ :: rest => openStatus rest
  | .writeHeader s :: _ => s
  | _ => .ok

def silent : List Act → Bool
  | [] => true
  | .set _ _ :: rest => silent rest
  | _ => false

/-- The three ways a response can take: as the handler writes it, through the encoder, or
past it. -/
inductive Path where
  | plain
  | coded (e : Codec) (name : Bytes)
  | direct (e : Codec) (name : Bytes)

def path (br gz : Codec) (acceptEncoding : Bytes) (acts : List Act) : Path :=
  match coding br gz acceptEncoding with
  | none => .plain
  | some (e, name) =>
    if silent acts ∨ isCompressible (openHeader acts ⟨[], [], name⟩).contentType then .coded e name
    else .direct e name

/- The Content-Encoding that the path calls for. -/
def Path.name : Path → Bytes
  | .plain => []
  | .coded _ name => name
  | .direct _ _ => []

def Path.header (acts : List Act) : Path → Header
  | .plain => openHeader acts ⟨[], [], []⟩
  | .coded _ name => openHeader acts ⟨[], [], name⟩
  | .direct _ name => (openHeader acts ⟨[], [], name⟩).set .contentEncoding []

/- What is written to the response. -/
def Path.handed (bs : List Bytes) : Path → List Bytes
  | .plain => bs
  | .coded e _ => e.output bs
  | .direct e _ => bs ++ e.output []

def Path.committed (acts : List Act) (p : Path) : Committed := ⟨openStatus acts, p.header acts⟩

/-! ### A response without an encoder -/

theorem response_pushed {c : Committed} {w : Writer} (h : w.committed = some c) (acts : List Act) :
    Pushed c (writes acts) w (acts.foldl response.act w) := by
  induction acts generalizing w with
  | nil => exact .refl h
  | cons a rest ih =>
    cases a with
    | set f value =>
      have hset := Pushed.header h (w.header.set f value)
      exact hset.trans (ih hset.committed)
    | writeHeader s =>
      change Pushed c (writes rest) w (rest.foldl response.act (w.writeHeader s))
      rw [writeHeader_of_committed h]
      exact ih h
    | write b =>
      have hwrite := write_pushed h b
      exact hwrite.trans (ih hwrite.committed)

theorem plain_pushed (acts : List Act) (h h' : Header) :
    Pushed ⟨openStatus acts, openHeader acts h⟩ (writes acts) (.blank h')
      ((acts.foldl response.act (.blank h)).writeHeader .ok) := by
  induction acts generalizing h with
  | nil => exact (Pushed.refl (w := (Writer.blank h).writeHeader .ok) rfl).of_writeHeader h'
  | cons a rest ih =>
    cases a with
    | set f value => exact ih (h.set f value)
    | writeHeader s =>
      have hrest : Pushed ⟨s, h⟩ (writes rest) ((Writer.blank h).writeHeader s)
          (rest.foldl response.act ((Writer.blank h).writeHeader s)) := response_pushed rfl rest
      have hdone := writeHeader_of_committed hrest.committed .ok
      exact (hdone.symm ▸ hrest).of_writeHeader h'
    | write b =>
      have hfirst := writes_blank h (List.cons_ne_nil b [])
      have hall := hfirst.trans (response_pushed hfirst.committed rest)
      have hdone := writeHeader_of_committed hall.committed .ok
      exact (hdone.symm ▸ hall).of_writeHeader h'

/-! ### A response with an encoder -/

/- The start of `serveCompressed`, and its end. -/
def handedOver (e : Codec) (h : Header) : CompressedResponseWriter e :=
  ⟨e.fresh, false, false, .blank h⟩

def closed {e : Codec} (c : CompressedResponseWriter e) : Writer :=
  (e.close c.enc).foldl Writer.write c.w

/- What reaches the response when the handler writes `bs` and the encoder is closed; an
encoder that is passed by still has its Close. -/
def CompressedResponseWriter.emitted {e : Codec} (c : CompressedResponseWriter e)
    (bs : List Bytes) : List Bytes :=
  if c.direct then bs ++ e.close c.enc else e.emit c.enc bs

variable {e : Codec}

theorem write_emitted {k : Committed} {c : CompressedResponseWriter e} (hk : c.w.committed = some k)
    (hwrote : c.wroteHeader = true) (b : Bytes) (bs : List Bytes) :
    ∃ chunks, c.emitted (b :: bs) = chunks ++ ((compressed e).act c (.write b)).emitted bs ∧
      Pushed k chunks c.w ((compressed e).act c (.write b)).w ∧
      ((compressed e).act c (.write b)).wroteHeader = true := by
  have hsame : c.writeHeader .ok = c := if_pos hwrote
  cases hdirect : c.direct with
  | true =>
    have hact : (compressed e).act c (.write b) = { c with w := c.w.write b } := by
      simp only [compressed, ResponseWriter.act, CompressedResponseWriter.write, hsame, hdirect,
        if_true]
    rw [hact]
    refine ⟨[b], ?_, write_pushed hk b, hwrote⟩
    simp only [CompressedResponseWriter.emitted, hdirect, if_true, List.cons_append,
      List.nil_append]
  | false =>
    have hact : (compressed e).act c (.write b) =
        { c with enc := (e.write c.enc b).1
                 w := (e.write c.enc b).2.foldl Writer.write c.w } := by
      simp only [compressed, ResponseWriter.act, CompressedResponseWriter.write, hsame, hdirect,
        Bool.false_eq_true, if_false]
    rw [hact]
    refine ⟨(e.write c.enc b).2, ?_, writes_pushed hk _, hwrote⟩
    simp only [CompressedResponseWriter.emitted, hdirect, Bool.false_eq_true, if_false, Codec.emit]

/- From the first WriteHeader on, the handler goes on and the encoder is closed. -/
theorem emitted_pushed {k : Committed} {c : CompressedResponseWriter e}
    (hk : c.w.committed = some k) (hwrote : c.wroteHeader = true) (acts : List Act) :
    Pushed k (c.emitted (writes acts)) c.w (closed (acts.foldl (compressed e).act c)) := by
  induction acts generalizing c with
  | nil =>
    have hclose : c.emitted [] = e.close c.enc := by
      cases hdirect : c.direct <;> simp [CompressedResponseWriter.emitted, hdirect, Codec.emit]
    exact hclose ▸ writes_pushed hk (e.close c.enc)
  | cons a rest ih =>
    cases a with
    | set f value =>
      have hset := Pushed.header hk (c.w.header.set f value)
      exact hset.trans (ih (c := { c with w := { c.w with header := c.w.header.set f value } })
        hset.committed hwrote)
    | writeHeader s =>
      have hsame : (compressed e).act c (.writeHeader s) = c := if_pos hwrote
      rw [List.foldl_cons, hsame]
      exact ih hk hwrote
    | write b =>
      obtain ⟨chunks, hchunks, hfirst, hstill⟩ := write_emitted hk hwrote b (writes rest)
      rw [List.foldl_cons, writes, hchunks]
      exact hfirst.trans (ih hfirst.committed hstill)

def Coded (acts : List Act) (h : Header) : Prop :=
  silent acts = true ∨ isCompressible (openHeader acts h).contentType = true

/- From the first WriteHeader on. -/
theorem opened_pushed (e : Codec) (s : Status) (rest : List Act) (h h' : Header) :
    (isCompressible h.contentType = true → Pushed ⟨s, h⟩ (e.output (writes rest)) (.blank h')
      (closed ((.writeHeader s :: rest).foldl (compressed e).act (handedOver e h)))) ∧
    (¬ isCompressible h.contentType = true → Pushed ⟨s, h.set .contentEncoding []⟩
      (writes rest ++ e.output []) (.blank h')
      (closed ((.writeHeader s :: rest).foldl (compressed e).act (handedOver e h)))) := by
  constructor
  · intro hcomp
    let c : CompressedResponseWriter e :=
      ⟨e.fresh, false, true, (Writer.blank h).writeHeader s⟩
    have hact : (compressed e).act (handedOver e h) (.writeHeader s) = c := if_pos hcomp
    rw [List.foldl_cons, hact]
    have hrest : Pushed ⟨s, h⟩ (e.output (writes rest)) c.w _ :=
      emitted_pushed (c := c) rfl rfl rest
    exact hrest.of_writeHeader h'
  · intro hcomp
    let c : CompressedResponseWriter e :=
      ⟨e.fresh, true, true, (Writer.blank (h.set .contentEncoding [])).writeHeader s⟩
    have hact : (compressed e).act (handedOver e h) (.writeHeader s) = c := if_neg hcomp
    rw [List.foldl_cons, hact]
    have hrest : Pushed ⟨s, h.set .contentEncoding []⟩ (writes rest ++ e.output []) c.w _ :=
      emitted_pushed (c := c) rfl rfl rest
    exact hrest.of_writeHeader h'

theorem CompressedResponseWriter.wroteHeader_writeHeader (c : CompressedResponseWriter e)
    (s : Status) : (c.writeHeader s).wroteHeader = true := by
  by_cases hwrote : c.wroteHeader = true
  · rw [writeHeader, if_pos hwrote]
    exact hwrote
  · by_cases hcomp : isCompressible c.w.header.contentType = true
    · rw [writeHeader, if_neg hwrote, if_pos hcomp]
    · rw [writeHeader, if_neg hwrote, if_neg hcomp]

/- A Write without a WriteHeader begins with one. -/
theorem act_write (c : CompressedResponseWriter e) (b : Bytes) :
    (compressed e).act c (.write b) =
      (compressed e).act ((compressed e).act c (.writeHeader .ok)) (.write b) := by
  have hsame : (c.writeHeader .ok).writeHeader .ok = c.writeHeader .ok :=
    if_pos (c.wroteHeader_writeHeader .ok)
  simp only [compressed, ResponseWriter.act, CompressedResponseWriter.write, hsame]

theorem compressed_pushed (he : e.Lossless) (acts : List Act) (h h' : Header) :
    (Coded acts h → Pushed ⟨openStatus acts, openHeader acts h⟩ (e.output (writes acts)) (.blank h')
      (closed (acts.foldl (compressed e).act (handedOver e h)))) ∧
    (¬ Coded acts h → Pushed ⟨openStatus acts, (openHeader acts h).set .contentEncoding []⟩
      (writes acts ++ e.output []) (.blank h')
      (closed (acts.foldl (compressed e).act (handedOver e h)))) := by
  induction acts generalizing h with
  | nil =>
    refine ⟨fun _ => ?_, fun hn => absurd (.inl rfl) hn⟩
    have hne : e.close e.fresh ≠ [] := fun hnil => he.closing e.fresh (by rw [hnil]; rfl)
    exact (writes_blank h hne).of_writeHeader h'
  | cons a rest ih =>
    cases a with
    | set f value => exact ih (h.set f value)
    | writeHeader s =>
      obtain ⟨hcoded, hdirect⟩ := opened_pushed e s rest h h'
      exact ⟨fun hc => hcoded (hc.resolve_left nofun), fun hn => hdirect fun hc => hn (.inr hc)⟩
    | write b =>
      obtain ⟨hcoded, hdirect⟩ := opened_pushed e .ok (.write b :: rest) h h'
      rw [List.foldl_cons, act_write]
      exact ⟨fun hc => hcoded (hc.resolve_left nofun), fun hn => hdirect fun hc => hn (.inr hc)⟩

theorem coding_lossless {br gz : Codec} (hbr : br.Lossless) (hgz : gz.Lossless)
    {acceptEncoding : Bytes} {name : Bytes} (h : coding br gz acceptEncoding = some (e, name)) :
    e.Lossless ∧ decodeBy br gz name = e.decode := by
  unfold coding at h
  split at h
  · cases h
    exact ⟨hbr, rfl⟩
  · obtain ⟨-, hs⟩ := Option.ite_none_right_eq_some.mp h
    cases hs
    exact ⟨hgz, rfl⟩

theorem serve_pushed {br gz : Codec} (hbr : br.Lossless) (hgz : gz.Lossless)
    (acceptEncoding : Bytes) (acts : List Act) :
    Pushed ((path br gz acceptEncoding acts).committed acts)
      ((path br gz acceptEncoding acts).handed (writes acts)) (.blank ⟨[], [], []⟩)
      (serve br gz acceptEncoding acts) := by
  cases hcoding : coding br gz acceptEncoding with
  | none =>
    simp only [path, serve, withCompression, hcoding]
    exact plain_pushed acts ⟨[], [], []⟩ ⟨[], [], []⟩
  | some chosen =>
    obtain ⟨e, name⟩ := chosen
    obtain ⟨he, -⟩ := coding_lossless hbr hgz hcoding
    obtain ⟨hcoded, hdirect⟩ := compressed_pushed he acts ⟨[], [], name⟩ ⟨[], [], []⟩
    have hserve : ∀ {c : Committed} {bs : List Bytes}, Pushed c bs (.blank ⟨[], [], []⟩)
        (closed (acts.foldl (compressed e).act (handedOver e ⟨[], [], name⟩))) →
        Pushed c bs (.blank ⟨[], [], []⟩) (serve br gz acceptEncoding acts) := by
      intro c bs hp
      have hdone := writeHeader_of_committed hp.committed .ok
      simp only [serve, withCompression, hcoding]
      exact hdone.symm ▸ hp
    simp only [path, hcoding]
    split
    · rename_i hc
      exact hserve (hcoded hc)
    · rename_i hn
      exact hserve (hdirect hn)

/-! ### When a response is transparent -/

/-- The length that is declared, if any, is that of the body or of the coded body; and past
the encoder it has to be there. -/
def Path.LengthFits (bs : List Bytes) (length : Option ℕ) : Path → Prop
  | .plain => length = none ∨ length = some bs.flatten.length
  | .coded e _ => length = none ∨ length = some (e.output bs).flatten.length
  | .direct _ _ => length = some bs.flatten.length

/-- A handler that sets a Content-Encoding of its own has to have what is sent decode to what
it wrote; for all others it is a matter of the length. -/
def Fits (br gz : Codec) (acts : List Act) (p : Path) : Prop :=
  if (openStatus acts).bodyAllowed = false then (writes acts).flatten = []
  else if (p.header acts).contentEncoding = p.name then
    p.LengthFits (writes acts) (declared (p.header acts))
  else
    decodeBy br gz (p.header acts).contentEncoding
        (accept (declared (p.header acts)) 0 (p.handed (writes acts))) =
      some (writes acts).flatten ∧
    ∀ n ∈ declared (p.header acts),
      n = (accept (declared (p.header acts)) 0 (p.handed (writes acts))).length

theorem transparent_iff (br gz : Codec) {c : Committed} {bs : List Bytes} {h : Header} {w : Writer}
    (hp : Pushed c bs (.blank h) w) (body : Bytes) :
    Transparent br gz w body ↔
      if c.status.bodyAllowed = false then body = []
      else decodeBy br gz c.header.contentEncoding (accept (declared c.header) 0 bs) = some body ∧
        ∀ n ∈ declared c.header, n = (accept (declared c.header) 0 bs).length := by
  have only : Transparent br gz w body ↔ if c.status.bodyAllowed then
      decodeBy br gz c.header.contentEncoding w.sent = some body ∧
        ∀ n ∈ declared c.header, n = w.sent.length else w.sent = body := by
    constructor
    · rintro ⟨c', hc', ht⟩
      cases hp.committed.symm.trans hc'
      exact ht
    · exact fun ht => ⟨c, hp.committed, ht⟩
  rw [only]
  cases hb : c.status.bodyAllowed with
  | true =>
    have hsent : w.sent = accept (declared c.header) 0 bs := hp.sent hb
    simp only [hsent, if_true, Bool.true_eq_false, if_false]
  | false =>
    have hsent : w.sent = [] := hp.none_sent hb
    simp only [hsent, Bool.false_eq_true, if_false, if_true]
    exact eq_comm

theorem coded_iff (he : e.Lossless) (limit : Option ℕ) (bs : List Bytes) :
    (e.decode (accept limit 0 (e.output bs)) = some bs.flatten ∧
      ∀ n, limit = some n → n = (accept limit 0 (e.output bs)).length) ↔
      limit = none ∨ limit = some (e.output bs).flatten.length := by
  rw [← accept_whole_iff]
  constructor
  · rintro ⟨hdec, hlen⟩
    refine ⟨?_, hlen⟩
    by_contra hne
    rw [he.cut bs _ (accept_isPrefix limit 0 _) hne] at hdec
    cases hdec
  · rintro ⟨hall, hlen⟩
    exact ⟨by rw [hall, he.whole], hlen⟩

/- With its length declared the body goes out alone, and otherwise not. -/
theorem direct_iff (he : e.Lossless) (limit : Option ℕ) (bs : List Bytes) :
    (accept limit 0 (bs ++ e.output []) = bs.flatten ∧
      ∀ n, limit = some n → n = (accept limit 0 (bs ++ e.output [])).length) ↔
      limit = some bs.flatten.length := by
  constructor
  · rintro ⟨hall, hlen⟩
    cases limit with
    | none =>
      rw [accept_none, List.flatten_append] at hall
      exact absurd (List.append_right_eq_self.mp hall) (he.closing e.fresh)
    | some n => rw [hlen n rfl, hall]
  · rintro rfl
    have hbody := accept_within 0 bs (by omega : 0 + bs.flatten.length ≤ bs.flatten.length)
    have hrest :=
      accept_full (0 + bs.flatten.length) (e.output []) (by omega : bs.flatten.length ≤ _)
    have hall : accept (some bs.flatten.length) 0 (bs ++ e.output []) = bs.flatten := by
      rw [accept_append, hbody, hrest, List.append_nil]
    exact ⟨hall, fun n hn => by rw [hall, Option.some.inj hn]⟩

/- The encoder of a path, if any, is one of the two, under its name. -/
def Path.Sound (br gz : Codec) : Path → Prop
  | .plain => True
  | .coded e name => e.Lossless ∧ decodeBy br gz name = e.decode
  | .direct e _ => e.Lossless

theorem path_sound {br gz : Codec} (hbr : br.Lossless) (hgz : gz.Lossless) (acceptEncoding : Bytes)
    (acts : List Act) : (path br gz acceptEncoding acts).Sound br gz := by
  unfold path
  split
  · trivial
  · rename_i e name hcoding
    have hsound := coding_lossless hbr hgz hcoding
    split
    · exact hsound
    · exact hsound.1

/-- A response is read as what the handler wrote exactly if its length fits its path. -/
theorem compression_transparent_iff {br gz : Codec} (hbr : br.Lossless) (hgz : gz.Lossless)
    (acceptEncoding : Bytes) (acts : List Act) :
    Transparent br gz (serve br gz acceptEncoding acts) (writes acts).flatten ↔
      Fits br gz acts (path br gz acceptEncoding acts) := by
  rw [transparent_iff br gz (serve_pushed hbr hgz acceptEncoding acts), Fits]
  have hsound := path_sound hbr hgz acceptEncoding acts
  generalize path br gz acceptEncoding acts = p at hsound ⊢
  have hplain : ∀ b, decodeBy br gz [] b = some b := fun _ => rfl
  by_cases hbody : (openStatus acts).bodyAllowed = false
  · simp only [Path.committed, hbody, if_true]
  · by_cases hname : (p.header acts).contentEncoding = p.name
    · simp only [Path.committed, hbody, hname, if_true]
      cases p with
      | plain =>
        simp only [Path.name, hplain, Option.some.injEq]
        exact accept_whole_iff _ _
      | coded e name =>
        simp only [Path.name, hsound.2]
        exact coded_iff hsound.1 _ _
      | direct e name =>
        simp only [Path.name, hplain, Option.some.injEq]
        exact direct_iff hsound _ _
    · simp only [Path.committed, hbody, if_false, hname]

/-! ### A small coding: every byte has a mark before it, and an end mark comes last -/

def unmark : Bytes → Option Bytes
  | [] => none
  | [b] => if b = 0 then some [] else none
  | b :: x :: rest => if b = 1 then (unmark rest).map (x :: ·) else none

def marks (b : Bytes) : Bytes := b.flatMap fun x => [1, x]

def marked : Codec := ⟨Unit, (), fun _ b => ((), [marks b]), fun _ => [[0]], unmark⟩

theorem marked_output (bs : List Bytes) :
    (marked.output bs).flatten = marks bs.flatten ++ [0] := by
  induction bs with
  | nil => rfl
  | cons b rest ih =>
    have hrest : (marked.output (b :: rest)).flatten = marks b ++ (marked.output rest).flatten := rfl
    rw [hrest, ih, List.flatten_cons, marks, marks, marks, List.flatMap_append, List.append_assoc]

theorem unmark_marks (b : Bytes) : unmark (marks b ++ [0]) = some b := by
  induction b with
  | nil => rfl
  | cons x b ih =>
    change (if (1 : Byte) = 1 then (unmark (marks b ++ [0])).map (x :: ·) else none) = _
    rw [if_pos rfl, ih]
    rfl

theorem unmark_cut (b : Bytes) : ∀ p, p <+: marks b ++ [0] → p ≠ marks b ++ [0] → unmark p = none := by
  induction b with
  | nil =>
    intro p hp hne
    rcases List.prefix_cons_iff.mp hp with rfl | ⟨q, rfl, hq⟩
    · rfl
    · exact absurd (by rw [List.prefix_nil.mp hq]; rfl) hne
  | cons x b ih =>
    intro p hp hne
    have hcons : marks (x :: b) ++ [0] = 1 :: x :: (marks b ++ [0]) := rfl
    rw [hcons] at hp hne
    rcases List.prefix_cons_iff.mp hp with rfl | ⟨q, rfl, hq⟩
    · rfl
    · rcases List.prefix_cons_iff.mp hq with rfl | ⟨r, rfl, hr⟩
      · rfl
      · have hrest : unmark r = none := ih r hr fun he => hne (by rw [he])
        change (if (1 : Byte) = 1 then (unmark r).map (x :: ·) else none) = _
        rw [if_pos rfl, hrest]
        rfl

theorem marked_lossless : marked.Lossless where
  whole bs := by rw [marked_output]; exact unmark_marks bs.flatten
  cut bs p hp hne := by rw [marked_output] at hp hne; exact unmark_cut bs.flatten p hp hne
  closing _ := List.cons_ne_nil 0 []

/- The handlers of an HTML page and of an image, with a Content-Length or without. -/
def page (length : Bytes) : List Act :=
  [.set .contentType (lit "text/html"), .set .contentLength length, .write (lit "hi")]

def image (length : Bytes) : List Act :=
  [.set .contentType (lit "image/png"), .set .contentLength length, .write (lit "hi")]

theorem page_and_image_transparent :
    Transparent marked marked (serve marked marked (lit "gzip") (page [])) (lit "hi") ∧
    Transparent marked marked (serve marked marked (lit "gzip") (image (lit "2"))) (lit "hi") := by
  have hpage : path marked marked (lit "gzip") (page []) = .coded marked (lit "gzip") := by
    simp only [path, show coding marked marked (lit "gzip") = some (marked, lit "gzip") from rfl]
    exact if_pos (.inr (by decide +kernel))
  have himage : path marked marked (lit "gzip") (image (lit "2")) = .direct marked (lit "gzip") := by
    simp only [path, show coding marked marked (lit "gzip") = some (marked, lit "gzip") from rfl]
    exact if_neg (by decide +kernel)
  constructor
  · refine (compression_transparent_iff marked_lossless marked_lossless _ (page [])).mpr ?_
    rw [hpage, Fits, if_neg (by decide), if_pos (by decide +kernel)]
    exact .inl (by decide +kernel)
  · refine (compression_transparent_iff marked_lossless marked_lossless _ (image (lit "2"))).mpr ?_
    rw [himage, Fits, if_neg (by decide), if_pos (by decide +kernel)]
    exact (show declared _ = some 2 by decide +kernel)

/-- A page whose handler declares the length of what it writes does not get through, since
its coded form is longer. And an image without a length is followed by the end of an encoder
that was not used. -/
theorem lengths_and_encoders_disagree :
    (serve marked marked (lit "gzip") (page (lit "2"))).sent = [] ∧
    ¬ Transparent marked marked (serve marked marked (lit "gzip") (page (lit "2"))) (lit "hi") ∧
    (serve marked marked (lit "gzip") (image [])).sent = lit "hi" ++ [0] ∧
    ¬ Transparent marked marked (serve marked marked (lit "gzip") (image [])) (lit "hi") := by
  decide +kernel

end EdgeDispatch.Edge.Compression
