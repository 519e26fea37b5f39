import EdgeDispatch.Lib.NetIP

/-! # The client's address, as each component computes it

The control plane (internal/controlplane/api.go:325-369), the edge
(internal/edgeagent/server.go:30-45) and the gateway (internal/gateway/gateway.go:438-456)
each take it from X-Forwarded-For, X-Real-IP or the peer's address. -/

namespace EdgeDispatch.ClientAddress
open Lib Lib.ByteString Lib.GoStrings
open Lib.NetIP (HostPort splitHostPort)

/-- The headers as `Header.Get` returns them, empty if absent. -/
structure Request where
  forwardedFor : Bytes
  realIP : Bytes
  remoteAddr : Bytes
  deriving DecidableEq

def comma : Byte := 44

/- `strings.Split` never returns an empty slice. -/
def firstEntry (xff : Bytes) : Bytes := (split comma xff).headD []

/-- The text after the last comma, if that is not the first byte; else all of it. -/
def lastForwarded (xff : Bytes) : Bytes :=
  match lastIndexByte comma xff with
  | some i => if 0 < i then trimSpace (xff.drop (i + 1)) else trimSpace xff
  | none => trimSpace xff

/- How `clientIP` takes the port off the peer's address. -/
def peerHost (addr : Bytes) : Bytes :=
  if addr.head? = some NetIP.openBracket then
    match indexByte NetIP.closeBracket addr with
    | some i => if 0 < i then (addr.take i).drop 1 else addr.drop 1
    | none => addr.drop 1
  else match lastIndexByte NetIP.colon addr with
    | some i => if 0 < i then addr.take i else addr
    | none => addr

/- The other two components use `net.SplitHostPort`, and the address itself on an error. -/
def splitHost (addr : Bytes) : Bytes :=
  match splitHostPort addr with
  | some (host, _) => host
  | none => addr

/-- The control plane. -/
def clientIP (r : Request) : Bytes :=
  if r.forwardedFor ≠ [] then lastForwarded r.forwardedFor
  else if r.realIP ≠ [] then trimSpace r.realIP
  else if r.remoteAddr ≠ [] then peerHost r.remoteAddr
  else []

/-- The edge. -/
def edgeExtractClientIP (r : Request) : Bytes :=
  if r.forwardedFor ≠ [] then lastForwarded r.forwardedFor
  else if r.realIP ≠ [] then trimSpace r.realIP
  else splitHost r.remoteAddr

/-- The gateway. -/
def gatewayExtractClientIP (r : Request) : Bytes :=
  if r.forwardedFor ≠ [] then trimSpace (firstEntry r.forwardedFor)
  else if r.realIP ≠ [] then r.realIP
  else splitHost r.remoteAddr

/-! ### The table of addresses of the control plane -/

/-- Where `clientIP` finds the address. -/
inductive Source where
  | forwardedFor
  | realIP
  | remoteAddr
  deriving DecidableEq

def source (r : Request) : Source :=
  if r.forwardedFor ≠ [] then .forwardedFor
  else if r.realIP ≠ [] then .realIP
  else .remoteAddr

/- The key of the table: the text that `clientIP` parses. -/
def raw (r : Request) : Bytes :=
  let raw := if r.forwardedFor = [] then r.realIP else r.forwardedFor
  if raw = [] then r.remoteAddr else raw

def parse : Source → Bytes → Bytes
  | .forwardedFor => lastForwarded
  | .realIP => trimSpace
  | .remoteAddr => peerHost

/-- `ipCache`, which nothing is ever removed from. -/
abbrev IPCache := Bytes → Option Bytes

def cachedClientIP (cache : IPCache) (r : Request) : Bytes × IPCache :=
  if raw r = [] then ([], cache)
  else match cache (raw r) with
    | some ip => (ip, cache)
    | none => (clientIP r, fun t => if t = raw r then some (clientIP r) else cache t)

/-- The table after the requests of `history`. -/
def cacheAfter (cache : IPCache) (history : List Request) : IPCache :=
  history.foldl (fun cache q => (cachedClientIP cache q).2) cache

theorem clientIP_eq_parse (r : Request) : clientIP r = parse (source r) (raw r) := by
  by_cases hf : r.forwardedFor = []
  · by_cases hx : r.realIP = []
    · by_cases ha : r.remoteAddr = []
      · simp [clientIP, source, raw, parse, hf, hx, ha, peerHost, lastIndexByte]
      · simp [clientIP, source, raw, parse, hf, hx, ha]
    · simp [clientIP, source, raw, parse, hf, hx]
  · simp [clientIP, source, raw, parse, hf]

theorem cachedClientIP_snd (cache : IPCache) (q : Request) {t : Bytes} (ht : t ≠ []) :
    (cachedClientIP cache q).2 t =
      (cache t).or (if raw q = t then some (clientIP q) else none) := by
  by_cases hq : raw q = t
  · subst hq
    unfold cachedClientIP
    rw [if_neg ht]
    cases hc : cache (raw q) with
    | some ip => simp [hc]
    | none => simp
  · rw [if_neg hq, Option.or_none]
    unfold cachedClientIP
    split
    · rfl
    · split
      · rfl
      · exact if_neg (Ne.symm hq)

/- Each text keeps the address that its first request gave it. -/
theorem cacheAfter_apply (cache : IPCache) (history : List Request) {t : Bytes} (ht : t ≠ []) :
    cacheAfter cache history t =
      (cache t).or ((history.find? fun q => raw q = t).map clientIP) := by
  induction history generalizing cache with
  | nil => simp [cacheAfter]
  | cons q rest ih =>
    have hstep : cacheAfter cache (q :: rest) = cacheAfter (cachedClientIP cache q).2 rest := rfl
    rw [hstep, ih, cachedClientIP_snd cache q ht, Option.or_assoc]
    by_cases hq : raw q = t
    · simp [hq]
    · simp [hq]

theorem cachedClientIP_fst (cache : IPCache) {r : Request} (hr : raw r ≠ []) :
    (cachedClientIP cache r).1 = (cache (raw r)).getD (clientIP r) := by
  unfold cachedClientIP
  rw [if_neg hr]
  cases cache (raw r) <;> rfl

/- With no text at all there is no address either. -/
theorem source_of_raw_nil {r : Request} (h : raw r = []) : source r = .remoteAddr := by
  have hboth : r.forwardedFor = [] ∧ r.realIP = [] := by
    by_cases hf : r.forwardedFor = []
    · by_cases hx : r.realIP = []
      · exact ⟨hf, hx⟩
      · simp [raw, hf, hx] at h
    · simp [raw, hf] at h
  simp [source, hboth.1, hboth.2]

/-- The address that is looked up is the one that would be parsed if and only if the first
request with the same text was parsed alike. -/
theorem cachedClientIP_eq_iff (history : List Request) (r : Request) :
    (cachedClientIP (cacheAfter (fun _ => none) history) r).1 = clientIP r ↔
      ∀ q, (history.find? fun q => raw q = raw r) = some q →
        parse (source q) (raw r) = parse (source r) (raw r) := by
  by_cases hr : raw r = []
  · have hleft : (cachedClientIP (cacheAfter (fun _ => none) history) r).1 = clientIP r := by
      rw [clientIP_eq_parse, source_of_raw_nil hr, hr]
      simp [cachedClientIP, hr, parse, peerHost, lastIndexByte]
    refine iff_of_true hleft ?_
    intro q hq
    have hraw : raw q = raw r := by simpa using List.find?_some hq
    rw [source_of_raw_nil hr, source_of_raw_nil (hraw.trans hr)]
  · rw [cachedClientIP_fst _ hr, cacheAfter_apply _ _ hr, Option.none_or]
    cases hq : history.find? fun q => raw q = raw r with
    | none => simp
    | some q =>
      have hraw : raw q = raw r := by simpa using List.find?_some hq
      rw [clientIP_eq_parse r]
      simp [clientIP_eq_parse q, hraw]

def realIPRequest : Request := ⟨[], lit "1.2.3.4:80", lit "10.0.0.1:9000"⟩
def peerRequest : Request := ⟨[], [], lit "1.2.3.4:80"⟩

/- The peer 1.2.3.4:80 gets the address that a header with the same text had. -/
theorem peer_gets_cached_header :
    (cachedClientIP (cacheAfter (fun _ => none) [realIPRequest]) peerRequest).1 =
      lit "1.2.3.4:80" ∧ clientIP peerRequest = lit "1.2.3.4" := by
  decide +kernel

/-! ### The three components -/

/- A comma is no part of any white space. -/
theorem comma_notMem_spaces : ∀ c ∈ spaces, comma ∉ c := by decide

def lastEntry (xff : Bytes) : Bytes := (split comma xff).getLastD []

/-- The first entry is what the last-entry rule returns if and only if the two entries are
the same apart from spaces, and the only comma is not the first byte. -/
theorem firstEntry_eq_lastForwarded_iff (xff : Bytes) :
    trimSpace (firstEntry xff) = lastForwarded xff ↔
      trimSpace (firstEntry xff) = trimSpace (lastEntry xff) ∧
        lastIndexByte comma xff ≠ some 0 := by
  unfold lastForwarded
  cases hl : lastIndexByte comma xff with
  | none =>
    have hlast : lastEntry xff = xff := by
      simp [lastEntry, split_of_notMem (lastIndexByte_eq_none.mp hl)]
    simp [hlast]
  | some i =>
    have hlast : lastEntry xff = xff.drop (i + 1) := by
      simp [lastEntry, List.getLastD_eq_getLast?, split_getLast? hl]
    by_cases hi : 0 < i
    · simp [hi, hlast, Nat.ne_of_gt hi]
    · obtain ⟨before, after, rfl, _, hlen⟩ := lastIndexByte_eq_some hl
      have hnil : before = [] := List.length_eq_zero_iff.mp (by omega)
      subst hnil
      have hempty : firstEntry (comma :: after) = [] := by simp [firstEntry, split]
      have hfirst : trimSpace (firstEntry (comma :: after)) = [] := by
        rw [hempty]
        rfl
      have hne := trimSpace_cons_ne_nil comma_notMem_spaces after
      have hzero : i = 0 := by omega
      simp [hfirst, hzero, Ne.symm hne]

theorem splitHost_text (a : HostPort) : splitHost a.text = a.host := by
  simp [splitHost, a.splitHostPort_text]

/- The control plane does not find the host if it is empty and not in brackets. -/
theorem peerHost_text (a : HostPort) :
    peerHost a.text = if a.host = [] ∧ a.bracketed = false then a.text else a.host := by
  unfold peerHost
  cases hb : a.bracketed with
  | true =>
    obtain ⟨htext, _, hfirst⟩ := a.text_bracketed hb
    have hhead : a.text.head? = some NetIP.openBracket := by rw [htext]; rfl
    have hhost : (a.text.take (a.host.length + 1)).drop 1 = a.host := by
      rw [htext]
      simp
    simp only [hhead, hfirst, if_true, Nat.succ_pos, hhost]
    simp
  | false =>
    obtain ⟨htext, _, hhead⟩ := a.text_plain hb
    have hlast : lastIndexByte NetIP.colon a.text = some a.host.length := by
      rw [htext]
      exact lastIndexByte_append _ a.notMem_port.2.2
    have hhost : a.text.take a.host.length = a.host := by
      rw [htext]
      simp
    rw [if_neg hhead, hlast]
    simp only [hhost, List.length_pos_iff]
    by_cases hnil : a.host = []
    · simp [hnil]
    · simp [hnil]

theorem text_ne_nil (a : HostPort) : a.text ≠ [] := by
  unfold HostPort.text
  split
  · exact List.cons_ne_nil _ _
  · simp

/-- For a peer address with a port, the three components agree exactly in these cases. -/
theorem client_addresses_agree_iff (xff xri : Bytes) (a : HostPort) :
    (gatewayExtractClientIP ⟨xff, xri, a.text⟩ = clientIP ⟨xff, xri, a.text⟩ ∧
      edgeExtractClientIP ⟨xff, xri, a.text⟩ = clientIP ⟨xff, xri, a.text⟩) ↔
      if xff ≠ [] then trimSpace (firstEntry xff) = trimSpace (lastEntry xff) ∧
        lastIndexByte comma xff ≠ some 0
      else if xri ≠ [] then trimSpace xri = xri
      else a.host ≠ [] ∨ a.bracketed = true := by
  unfold gatewayExtractClientIP edgeExtractClientIP clientIP
  by_cases hf : xff = []
  · by_cases hx : xri = []
    · -- only the peer's address is left
      simp only [hf, hx, ne_eq, not_true, if_false, text_ne_nil a, not_false_eq_true, if_true,
        splitHost_text, peerHost_text, and_self]
      by_cases hempty : a.host = [] ∧ a.bracketed = false
      · simp [hempty, (text_ne_nil a).symm]
      · have hhost : a.host ≠ [] ∨ a.bracketed = true := by
          rcases not_and_or.mp hempty with hh | hb
          · exact Or.inl hh
          · exact Or.inr (Bool.not_eq_false _ ▸ hb)
        simp [hempty, hhost]
    · simp only [hf, hx, ne_eq, not_true, if_false, not_false_eq_true, if_true, and_true]
      exact eq_comm
  · have hfirst := firstEntry_eq_lastForwarded_iff xff
    simpa [hf] using hfirst

def peerAddress : HostPort :=
  ⟨lit "10.0.0.3", lit "9000", false, by decide +kernel, by decide +kernel⟩
def forwardedRequest : Request := ⟨lit "10.0.0.1, 10.0.0.2", [], peerAddress.text⟩

/- Two entries: the gateway takes the first, the others the last. -/
theorem gateway_takes_first_entry :
    gatewayExtractClientIP forwardedRequest = lit "10.0.0.1" ∧
      clientIP forwardedRequest = lit "10.0.0.2" ∧
      edgeExtractClientIP forwardedRequest = lit "10.0.0.2" := by
  decide +kernel

end EdgeDispatch.ClientAddress
