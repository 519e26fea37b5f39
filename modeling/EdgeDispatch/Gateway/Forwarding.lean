import EdgeDispatch.ClientAddress
import EdgeDispatch.Lib.GoQuery
import EdgeDispatch.Lib.HttpHeader
import EdgeDispatch.Lib.JsonText
import EdgeDispatch.PathSanitizing

/-! # What the gateway sends to a node

`proxyToPublic` sends a request on through a reverse proxy, `proxyToTunnel` as a message with a
path and one value a header (internal/gateway/gateway.go:276-292, 308-392), from which the
tunnel's client makes a request to the node (internal/tunnel/client.go:266-276). -/

namespace EdgeDispatch.Gateway.Forwarding
open Lib Lib.ByteString Lib.GoStrings
open Lib.HttpHeader Lib.GoQuery
open PathSanitizing (tunnelPath sanitizeGatewayKey)

structure Request where
  method : Bytes
  header : Header
  host : Bytes
  rawQuery : Bytes
  remoteAddr : Bytes
  contentLength : ℤ
  tls : Bool

def extractClientIP (h : Header) (remoteAddr : Bytes) : Bytes :=
  ClientAddress.gatewayExtractClientIP
    ⟨h.get (lit "X-Forwarded-For"), h.get (lit "X-Real-IP"), remoteAddr⟩

def hopByHopHeaders : List Bytes :=
  ["Connection", "Keep-Alive", "Proxy-Authenticate", "Proxy-Authorization", "TE", "Trailer",
    "Transfer-Encoding", "Upgrade"].map lit

/-! ### Through the tunnel -/

structure HTTPRequestHeader where
  method : Bytes
  path : Bytes
  headers : Bytes → Option Bytes
  bodyLen : ℤ

def stripHopByHopHeaders (headers : Bytes → Option Bytes) : Bytes → Option Bytes :=
  fun k => if k ∈ hopByHopHeaders then none else headers k

def setHeader (headers : Bytes → Option Bytes) (name value : Bytes) : Bytes → Option Bytes :=
  fun k => if k = name then some value else headers k

/- `edgeToken` is what GetEdgeToken returns; an empty token is not sent. -/
def sentToken (edgeToken : Option Bytes) : Option Bytes := edgeToken.filter (· ≠ [])

def setAuthorization (headers : Bytes → Option Bytes) : Option Bytes → Bytes → Option Bytes
  | some token => setHeader headers (lit "Authorization") (lit "Bearer " ++ token)
  | none => headers

/-- The message that is handed to ForwardRequest. -/
def proxyToTunnel (r : Request) (edgeToken : Option Bytes) (key : Bytes) : HTTPRequestHeader :=
  let headers := stripHopByHopHeaders fun k => (r.header k).bind List.head?
  let headers := setHeader headers (lit "X-Forwarded-For") (extractClientIP r.header r.remoteAddr)
  let headers := setHeader headers (lit "X-Forwarded-Host") r.host
  let headers := setAuthorization headers (sentToken edgeToken)
  ⟨r.method, tunnelPath key, headers, r.contentLength⟩

/- A request line with a blank or a control byte is not written, or not read. -/
def transmit (query : Bytes) : Option Bytes :=
  if query.any fun b => b ≤ 32 || b == 127 then none else some query

/-- The query of the request that the client makes of a path: `url.Parse` cuts off the
fragment and refuses control bytes and bad escapes. The path came as JSON. -/
def tunnelQuery (path : Bytes) : Option Bytes :=
  let (url, fragment) := cut 35 (JsonText.coerceUTF8 path)
  let (path, query) := cut 63 url
  if (url.any fun b => b < 32 || b == 127) || (GoURL.pathUnescape path).isNone ||
      (GoURL.pathUnescape fragment).isNone then none
  else transmit query

/-! ### Through the reverse proxy -/

def setTokenQuery (rawQuery token : Bytes) : Bytes :=
  let (q, ok) := parseQuery rawQuery
  encode (set (if ok then q else []) (lit "token") token)

structure Outgoing where
  header : Header
  rawQuery : Bytes

/-- What the Director of `proxyToPublic` makes of the headers and the query. -/
def director (r : Request) (edgeToken : Option Bytes) : Outgoing :=
  let header := hopByHopHeaders.foldl Header.del r.header
  let header := header.set (lit "X-Forwarded-For") (extractClientIP header r.remoteAddr)
  let header := header.set (lit "X-Forwarded-Host") r.host
  let header := header.set (lit "X-Forwarded-Proto") (if r.tls then lit "https" else lit "http")
  ⟨header, match sentToken edgeToken with
    | some token => setTokenQuery r.rawQuery token
    | none => r.rawQuery⟩

def publicQuery (r : Request) (edgeToken : Option Bytes) : Option Bytes :=
  transmit (director r edgeToken).rawQuery

/-! ### What is to be forwarded -/

/- In any letter case. -/
def HopByHop (k : Bytes) : Prop := toLower k ∈ hopByHopHeaders.map toLower

instance (k : Bytes) : Decidable (HopByHop k) := inferInstanceAs (Decidable (_ ∈ _))

/- The headers that `proxyToTunnel` sets itself. -/
def ownHeaders (edgeToken : Option Bytes) : List Bytes :=
  lit "X-Forwarded-For" :: lit "X-Forwarded-Host" ::
    if (sentToken edgeToken).isSome then [lit "Authorization"] else []

/- The parameter that `proxyToPublic` sets itself. -/
def OwnParam (edgeToken : Option Bytes) (name : Bytes) : Prop :=
  (sentToken edgeToken).isSome = true ∧ name = lit "token"

structure Faithful (r : Request) (edgeToken : Option Bytes) (key : Bytes) : Prop where
  no_hop : ∀ k, ((proxyToTunnel r edgeToken key).headers k).isSome → ¬ HopByHop k
  all_values : ∀ k vs, r.header k = some vs → ¬ HopByHop k → k ∉ ownHeaders edgeToken →
    ((proxyToTunnel r edgeToken key).headers k).toList = vs
  query : ∀ name, ¬ OwnParam edgeToken name →
    (tunnelQuery (proxyToTunnel r edgeToken key).path).map (param · name) =
      (publicQuery r edgeToken).map (param · name)

/-! ### Headers -/

theorem ownHeaders_not_hop (edgeToken : Option Bytes) : ∀ k ∈ ownHeaders edgeToken, ¬ HopByHop k := by
  have hnone : ∀ k ∈ [lit "X-Forwarded-For", lit "X-Forwarded-Host", lit "Authorization"],
      ¬ HopByHop k := by decide +kernel
  intro k hk
  have hall : k ∈ [lit "X-Forwarded-For", lit "X-Forwarded-Host", lit "Authorization"] := by
    rw [ownHeaders] at hk
    split at hk
    · exact hk
    · simp only [List.mem_cons, List.not_mem_nil, or_false] at hk ⊢
      exact hk.imp_right Or.inl
  exact hnone k hall

/- `TE` is the only name in the list that is not canonical. -/
theorem canonical_hopByHop : ∀ h ∈ hopByHopHeaders,
    canonicalMIMEHeaderKey h ∈ hopByHopHeaders ∨ canonicalMIMEHeaderKey h = lit "Te" := by
  decide +kernel

theorem hopByHop_tokens : ∀ h ∈ hopByHopHeaders, h.all validHeaderFieldByte = true := by
  decide +kernel

theorem te_hop : HopByHop (lit "Te") ∧ lit "Te" ∉ hopByHopHeaders := by decide +kernel

/-- Of the canonical names, those that are deleted and `Te`. -/
theorem hopByHop_canonical {k : Bytes} (hcanon : canonicalMIMEHeaderKey k = k) (h : HopByHop k) :
    k ∈ hopByHopHeaders ∨ k = lit "Te" := by
  obtain ⟨name, hname, he⟩ := List.mem_map.mp h
  rw [← hcanon, canonical_eq_of_toLower (hopByHop_tokens name hname) he.symm]
  exact canonical_hopByHop name hname

section Sent
variable {r : Request} {edgeToken : Option Bytes} {key k : Bytes}

theorem sent_other (hk : k ∉ ownHeaders edgeToken) :
    (proxyToTunnel r edgeToken key).headers k =
      if k ∈ hopByHopHeaders then none else (r.header k).bind List.head? := by
  simp only [ownHeaders, List.mem_cons, not_or] at hk
  obtain ⟨hfor, hhost, hauth⟩ := hk
  have hset : ∀ headers : Bytes → Option Bytes,
      setAuthorization headers (sentToken edgeToken) k = headers k := fun headers => by
    cases htoken : sentToken edgeToken with
    | none => rfl
    | some token =>
      simp only [htoken, Option.isSome_some, if_true, List.mem_singleton] at hauth
      exact if_neg hauth
  simp only [proxyToTunnel, hset, setHeader, if_neg hfor, if_neg hhost]
  rfl

theorem sent_not_hop_iff (hcanon : r.header.Canonical) :
    (∀ k, ((proxyToTunnel r edgeToken key).headers k).isSome → ¬ HopByHop k) ↔
      ∀ vs, r.header (lit "Te") = some vs → vs = [] := by
  have hte : lit "Te" ∉ ownHeaders edgeToken := fun h => ownHeaders_not_hop _ _ h te_hop.1
  constructor
  · intro h vs hvs
    cases vs with
    | nil => rfl
    | cons v vs =>
      refine absurd te_hop.1 (h (lit "Te") ?_)
      rw [sent_other hte, if_neg te_hop.2, hvs]
      rfl
  · intro h k hk hhop
    have hown : k ∉ ownHeaders edgeToken := fun hown => ownHeaders_not_hop _ _ hown hhop
    rw [sent_other hown] at hk
    split at hk
    · cases hk
    · rename_i hlist
      cases hvs : r.header k with
      | none =>
        rw [hvs] at hk
        cases hk
      | some vs =>
        have hname := hopByHop_canonical (hcanon k (by rw [hvs]; exact Option.some_ne_none _)) hhop
        obtain rfl := hname.resolve_left hlist
        rw [hvs, h vs hvs] at hk
        cases hk

theorem sent_values_iff {vs : List Bytes} (hvs : r.header k = some vs) (hhop : ¬ HopByHop k)
    (hown : k ∉ ownHeaders edgeToken) :
    ((proxyToTunnel r edgeToken key).headers k).toList = vs ↔ vs.length ≤ 1 := by
  have hlist : k ∉ hopByHopHeaders := fun h => hhop (List.mem_map_of_mem h)
  rw [sent_other hown, if_neg hlist, hvs]
  match vs with
  | [] => exact ⟨fun _ => Nat.zero_le 1, fun _ => rfl⟩
  | [v] => exact ⟨fun _ => Nat.le_refl 1, fun _ => rfl⟩
  | v :: w :: vs => simp

end Sent

/-! ### The query -/

/-- The values of a parameter in the text of the key, if a client can make a URL of it. -/
def written (key name : Bytes) : Option (List Bytes) :=
  (tunnelQuery (tunnelPath key)).map (param · name)

/-- The values of a parameter in the request. With a token to be added, a query that cannot be
read is dropped. -/
def asked (r : Request) (edgeToken : Option Bytes) (name : Bytes) : Option (List Bytes) :=
  if (sentToken edgeToken).isSome then
    some (if (parseQuery r.rawQuery).2 then param r.rawQuery name else [])
  else (transmit r.rawQuery).map (param · name)

theorem transmit_encode (pairs : List Pair) : transmit (encode pairs) = some (encode pairs) := by
  refine if_neg fun h => ?_
  obtain ⟨b, hb, hbad⟩ := List.any_eq_true.mp h
  have hprintable : ∀ b : Byte, GoURL.unreserved b = true → (b ≤ 32 || b == 127) = false :=
    forall_byte (P := fun b => GoURL.unreserved b = true → (b ≤ 32 || b == 127) = false)
      (by decide +kernel)
  rcases mem_encode hb with h | rfl | rfl | rfl | rfl
  · rw [hprintable b h] at hbad
    cases hbad
  all_goals exact absurd hbad (by decide)

theorem publicQuery_param {r : Request} {edgeToken : Option Bytes} {name : Bytes}
    (h : ¬ OwnParam edgeToken name) :
    (publicQuery r edgeToken).map (param · name) = asked r edgeToken name := by
  rw [publicQuery, director, asked]
  cases htoken : sentToken edgeToken with
  | none => rfl
  | some token =>
    have hname : name ≠ lit "token" := fun he => h ⟨by rw [htoken]; rfl, he⟩
    simp only [setTokenQuery, transmit_encode, Option.map_some, param_encode,
      values_set_of_ne hname, Option.isSome_some, if_true]
    split
    · rfl
    · rfl

/- Printable ASCII without the characters that mean something in a URL. -/
def Plain (b : Byte) : Prop := 32 < b ∧ b < 127 ∧ b ≠ 35 ∧ b ≠ 37 ∧ b ≠ 63

theorem written_of_plain {key : Bytes} (h : ∀ b ∈ tunnelPath key, Plain b) (name : Bytes) :
    written key name = some [] := by
  have hascii : JsonText.coerceUTF8 (tunnelPath key) = tunnelPath key :=
    JsonText.coerceUTF8_ascii fun b hb => Std.lt_trans (h b hb).2.1 (by decide)
  have hcontrol : ((tunnelPath key).any fun b => b < 32 || b == 127) = false := by
    rw [List.any_eq_false]
    intro b hb
    have := h b hb
    simp only [Plain] at this
    simp only [Bool.or_eq_true, decide_eq_true_eq, beq_iff_eq]
    grind
  have hunescape := GoURL.pathUnescape_of_notMem fun hb => (h 37 hb).2.2.2.1 rfl
  rw [written, tunnelQuery, hascii, cut_of_notMem fun hb => (h 35 hb).2.2.1 rfl]
  simp only [cut_of_notMem fun hb => (h 63 hb).2.2.2.2 rfl, hcontrol, hunescape]
  rfl

/-- The headers go on as they should iff no `Te` has a value and no other header has two, apart
from those that the gateway sets. The query does iff each parameter of the request stands with
the same values in the key's own text; a plain key has none. -/
theorem tunnel_faithful_iff (r : Request) (edgeToken : Option Bytes) (key : Bytes)
    (hcanon : r.header.Canonical) :
    Faithful r edgeToken key ↔
      (∀ vs, r.header (lit "Te") = some vs → vs = []) ∧
      (∀ k vs, r.header k = some vs → ¬ HopByHop k → k ∉ ownHeaders edgeToken → vs.length ≤ 1) ∧
      ∀ name, ¬ OwnParam edgeToken name → written key name = asked r edgeToken name := by
  constructor
  · rintro ⟨hhop, hvalues, hquery⟩
    refine ⟨(sent_not_hop_iff hcanon).mp hhop, fun k vs hvs hk hown => ?_, fun name hname => ?_⟩
    · exact (sent_values_iff hvs hk hown).mp (hvalues k vs hvs hk hown)
    · rw [← publicQuery_param hname]
      exact hquery name hname
  · rintro ⟨hte, hsingle, hquery⟩
    refine ⟨(sent_not_hop_iff hcanon).mpr hte, fun k vs hvs hk hown => ?_, fun name hname => ?_⟩
    · exact (sent_values_iff hvs hk hown).mpr (hsingle k vs hvs hk hown)
    · rw [publicQuery_param hname]
      exact hquery name hname

/- A request for `a` with two headers. -/
def sample (te accept : List Bytes) (rawQuery : Bytes) : Request where
  method := lit "GET"
  header k := if k = lit "Te" then some te else if k = lit "Accept" then some accept else none
  host := lit "cdn.test"
  rawQuery := rawQuery
  remoteAddr := lit "192.0.2.1:4000"
  contentLength := 0
  tls := false

theorem sample_canonical (te accept : List Bytes) (rawQuery : Bytes) :
    (sample te accept rawQuery).header.Canonical := by
  intro k hk
  simp only [sample] at hk
  split at hk
  · rename_i h
    rw [h]
    decide +kernel
  · split at hk
    · rename_i h
      rw [h]
      decide +kernel
    · exact absurd rfl hk

theorem tunnel_faithful_with_token :
    Faithful (sample [] [lit "text/html"] (lit "token=old")) (some (lit "s3cret")) (lit "a") := by
  refine (tunnel_faithful_iff _ _ _ (sample_canonical _ _ _)).mpr ⟨?_, ?_, ?_⟩
  · rintro vs ⟨⟩
    rfl
  · intro k vs hvs
    simp only [sample] at hvs
    split at hvs
    · cases hvs
      exact fun _ _ => Nat.zero_le 1
    · split at hvs
      · cases hvs
        exact fun _ _ => Nat.le_refl 1
      · cases hvs
  · intro name hname
    have hplain : ∀ b ∈ tunnelPath (lit "a"), Plain b := by
      simp only [Plain]
      decide +kernel
    have hparse : parseQuery (lit "token=old") = ([(lit "token", lit "old")], true) := by
      decide +kernel
    have hne : lit "token" ≠ name := fun he => hname ⟨by decide +kernel, he.symm⟩
    rw [written_of_plain hplain, asked, if_pos (by decide +kernel)]
    simp [sample, param, hparse, values, hne]

/-- `Te` is sent on, the second value of `Accept` is not, and the node sees no query. The Director
has all three right; ReverseProxy may set `Te` and `X-Forwarded-For` again after it. -/
theorem te_sent_value_and_query_lost :
    let r := sample [lit "trailers"] [lit "text/html", lit "text/plain"] (lit "v=2")
    r.header.Canonical ∧
      (proxyToTunnel r none (lit "a")).headers (lit "Te") = some (lit "trailers") ∧
      (proxyToTunnel r none (lit "a")).headers (lit "Accept") = some (lit "text/html") ∧
      tunnelQuery (proxyToTunnel r none (lit "a")).path = some [] ∧
      (director r none).header (lit "Te") = none ∧
      (director r none).header (lit "Accept") = some [lit "text/html", lit "text/plain"] ∧
      publicQuery r none = some (lit "v=2") :=
  ⟨sample_canonical _ _ _, by decide +kernel, by decide +kernel, by decide +kernel,
    by decide +kernel, by decide +kernel, by decide +kernel⟩

end EdgeDispatch.Gateway.Forwarding
