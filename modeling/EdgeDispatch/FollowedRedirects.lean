import EdgeDispatch.ControlPlane.Redirects
import EdgeDispatch.Edge.TokenBinding
import EdgeDispatch.Lib.GoQuery
import EdgeDispatch.Lib.HttpHeader
import EdgeDispatch.ObjectKeys

/-! # From an object request at the control plane to the edge that serves it

The client follows the redirect of `handleObjectIngress`; the edge reads key and token back
from the request target and checks the token (api.go:494-533, scheduler.go:208-217,
server.go:321-355). The control plane signs with its TokenSecret, the edge checks with its
NodeToken. -/

namespace EdgeDispatch.FollowedRedirects
open Lib Lib.ByteString Lib.GoStrings
open Auth.Token ControlPlane.Ingress ObjectKeys
open Edge.TokenBinding Edge.TokenCheck
open Lib.NetAddr (parseIP)
open ClientAddress (IPCache cachedClientIP)
open ControlPlane.Scoring (Node Candidate candidates)

/-- What the server of the edge makes of a request target; `Query().Get` is the first value. -/
def received (method : Method) (clientIP target : Bytes) : Option Request :=
  (GoURL.pathUnescape (GoQuery.cut 63 target).1).map fun path =>
    ⟨method, [], ((GoQuery.param (GoQuery.cut 63 target).2 (lit "token")).head?).getD [], clientIP,
      path⟩

/- The redirect behind the endpoint. -/
def target (key token : Bytes) : Bytes :=
  (lit "/obj/" ++ escapeResourcePath key) ++ 63 :: GoQuery.encode [(lit "token", token)]

/-! ### The redirect -/

theorem text_append (s t : Bytes) : text (s ++ t) = text s ++ text t := by
  simp [text]

theorem encode_token (token : Bytes) :
    GoQuery.encode [(lit "token", token)] = lit "token=" ++ GoURL.queryEscape token := by
  have hname : GoURL.queryEscape (lit "token") ++ [61] = lit "token=" := by decide +kernel
  have hgroup : GoQuery.grouped [(lit "token", token)] = [(lit "token", token)] := by
    simp [GoQuery.grouped, GoQuery.names]
  rw [GoQuery.encode, hgroup, ← hname]
  simp [GoQuery.encodePair, join]

theorem redirectURL_eq (top : Candidate) (key : Bytes) {token : Bytes}
    (h : token ≠ []) :
    redirectURL top key token = trimSlashes top.endpoint ++ text (target key token) := by
  have hobj : text (lit "/obj/") = "/obj/" := by decide +kernel
  have hquery : text (63 :: lit "token=") = "?token=" := by decide +kernel
  rw [redirectURL, if_pos h, target, encode_token, ← List.cons_append, text_append, text_append,
    text_append, hobj, hquery]
  simp only [String.append_assoc]

/- No part of the path ends it. -/
theorem question_notMem_path (key : Bytes) : 63 ∉ lit "/obj/" ++ escapeResourcePath key := by
  have hbyte := HttpHeader.forall_byte (P := fun b => 63 ∉ GoURL.pathEscape [b])
    (by decide +kernel)
  have hsegment : ∀ s, 63 ∉ GoURL.pathEscape s := by
    intro s hmem
    obtain ⟨b, -, hb⟩ := List.mem_flatMap.mp hmem
    exact hbyte b (by simpa [GoURL.pathEscape] using hb)
  intro hmem
  cases List.mem_append.mp hmem with
  | inl hobj => exact absurd hobj (by decide +kernel)
  | inr hpath =>
    have hone : [63] <:+: join slash ((split slash key).map GoURL.pathEscape) :=
      (List.singleton_infix_iff _ _).mpr hpath
    rw [infix_join_iff (by decide) (by decide)] at hone
    obtain ⟨s, hs, hin⟩ := hone
    obtain ⟨part, -, rfl⟩ := List.mem_map.mp hs
    exact hsegment part ((List.singleton_infix_iff _ _).mp hin)

theorem received_target (method : Method) (clientIP key token : Bytes) :
    received method clientIP (target key token) =
      some ⟨method, [], token, clientIP, lit "/obj/" ++ key⟩ := by
  have hpath : GoURL.pathUnescape (lit "/obj/" ++ escapeResourcePath key) =
      some (lit "/obj/" ++ key) := redirectPath_eq key
  rw [received, target, GoQuery.cut_append (question_notMem_path key), hpath, GoQuery.param_encode]
  rfl

/-! ### The token -/

variable (C : Codecs) (secret tokenSecret nodeToken : Bytes)

theorem checkToken_eq_ok_iff {now : ℤ} {r : Request} (hmethod : r.method = .get ∨ r.method = .head)
    (htoken : requestToken r ≠ []) :
    checkToken C goNet secret now r = .ok () ↔
      ∃ p, verifyWithIP C goNet secret now (requestToken r) r.clientIP = .ok p := by
  have hm : ¬ (r.method ≠ .get ∧ r.method ≠ .head) := fun hno => hmethod.elim hno.1 hno.2
  rw [checkToken, if_neg hm, if_neg htoken]
  cases verifyWithIP C goNet secret now (requestToken r) r.clientIP with
  | error e => simp
  | ok p => simp

/-- Until it expires a dispatch token is good for the network of the client that it was issued
to, and for everyone if that client has no valid address. -/
theorem dispatchToken_accepted_iff (issued ttlMs now : ℤ) (key clientIP b : Bytes) :
    (∃ p, verifyWithIP C goNet secret now
        (dispatchToken C goNet secret issued ttlMs key clientIP) b = .ok p) ↔
      ¬ Expired issued ttlMs now key clientIP ∧
        (parseIP clientIP = none ∨ SameNetwork clientIP b) := by
  by_cases hexp : Expired issued ttlMs now key clientIP
  · have hrefused := verify_sign_expired C secret issued now
      (dispatchPayload goNet issued ttlMs key clientIP) hexp
    constructor
    · intro hok
      obtain ⟨p, hp⟩ := hok
      have hverify := ((verifyWithIP_eq_ok_iff C secret now _ b p).mp hp).1
      rw [dispatchToken, hrefused] at hverify
      cases hverify
    · exact fun hno => absurd hexp hno.1
  · cases hip : parseIP clientIP with
    | none => exact iff_of_true (accepts_unparsable C secret hip hexp b) ⟨hexp, .inl rfl⟩
    | some ip =>
      obtain ⟨q, hq, hpre⟩ := verify_dispatchToken C goNet secret issued ttlMs now key clientIP
        (not_lt.mp hexp)
      have hne : clientIP ≠ [] := by
        intro hnil
        have hnone : parseIP [] = none := by decide +kernel
        rw [hnil, hnone] at hip
        cases hip
      have hmatch := matchesIP_eq hip (hpre.trans (if_pos hne)) b
      have haccepted : (∃ p, verifyWithIP C goNet secret now
          (dispatchToken C goNet secret issued ttlMs key clientIP) b = .ok p) ↔
          matchesIP goNet q b = .ok true := by
        simp only [verifyWithIP_eq_ok_iff, hq, Except.ok.injEq, exists_eq_left']
      rw [haccepted, hmatch]
      cases hb : parseIP b with
      | none => simp [SameNetwork, hb]
      | some ip' => simp [SameNetwork, hexp, hip, hb]

/- A token that passes is the one that the edge itself would have signed. -/
theorem sign_of_verify {issued now : ℤ} {p q : TokenPayload}
    (h : verify C nodeToken now (sign C tokenSecret issued p) = .ok q) :
    sign C nodeToken issued p = sign C tokenSecret issued p := by
  obtain ⟨encoded, _, htoken, hdot, -⟩ := (verify_eq_ok_iff C nodeToken now _ q).mp h
  have hpair := congrArg splitToken htoken
  rw [splitToken_dot _ _ hdot, sign, splitToken_dot _ _ (C.encode_no_dot _)] at hpair
  obtain ⟨hencoded, hrest⟩ := List.cons.inj hpair
  subst hencoded
  rw [sign, sign, (List.cons.inj hrest).1]

/-! ### A request that is redirected and followed -/

theorem ingress_redirect {api : Api} {nodes : List Node} (hnodes : api.nodes = some nodes)
    {cache : IPCache} {r : ClientAddress.Request} {raw : Bytes} {url : String}
    (hnode : dispatchable api.scheduler (objectRequest raw).key nodes ≠ [])
    (hurl : (handleObjectIngress api cache r raw).1 = .ok url) :
    sanitizeResourceKey raw ≠ [] ∧
    ∃ top ∈ candidates (chosen api.scheduler nodes (objectRequest raw)),
      url = redirectURL top (sanitizeResourceKey raw)
        (api.token (sanitizeResourceKey raw) (cachedClientIP cache r).1) := by
  have hkey : sanitizeResourceKey raw ≠ [] := by
    intro hnil
    simp [handleObjectIngress, hnil] at hurl
  have hcandidates := resolve_candidates api.scheduler
    (api.token (sanitizeResourceKey raw) (cachedClientIP cache r).1) nodes (objectRequest raw)
  have hsigned : (resolve api.scheduler
      (api.token (sanitizeResourceKey raw) (cachedClientIP cache r).1) nodes
      (objectRequest raw)).token =
        api.token (sanitizeResourceKey raw) (cachedClientIP cache r).1 := by
    unfold resolve
    simp only [narrowed_eq]
    exact if_neg hnode
  rw [if_neg hnode] at hcandidates
  refine ⟨hkey, ?_⟩
  unfold handleObjectIngress at hurl
  simp only [hkey, if_false, hnodes] at hurl
  split at hurl
  · cases hurl
  · rename_i top rest htop
    refine ⟨top, ?_, ?_⟩
    · rw [← hcandidates]
      exact htop ▸ List.mem_cons_self
    · rw [← Except.ok.inj hurl]
      exact congrArg (redirectURL top (sanitizeResourceKey raw)) hsigned

/- The two secrets sign a dispatch token alike. -/
def SameToken (issued ttlMs : ℤ) (key clientIP : Bytes) : Prop :=
  dispatchToken C goNet nodeToken issued ttlMs key clientIP =
    dispatchToken C goNet tokenSecret issued ttlMs key clientIP

theorem served_iff {raw : Bytes} (hkey : sanitizeResourceKey raw ≠ []) (issued ttlMs now : ℤ)
    (clientIP b : Bytes) {method : Method} (hmethod : method = .get ∨ method = .head) :
    ∃ req, received method b (target (sanitizeResourceKey raw) (dispatchToken C goNet tokenSecret
        issued ttlMs (sanitizeResourceKey raw) clientIP)) = some req ∧
      ((checkToken C goNet nodeToken now req = .ok () ∧
          objectKey req = some (sanitizeResourceKey raw)) ↔
        SameToken C tokenSecret nodeToken issued ttlMs (sanitizeResourceKey raw) clientIP ∧
        ¬ Expired issued ttlMs now (sanitizeResourceKey raw) clientIP ∧
          (parseIP clientIP = none ∨ SameNetwork clientIP b) ∧
          contains (decoded raw) (lit "..") = false) := by
  obtain ⟨parts, hparts, haccepted⟩ := sanitizeResourceKey_ne_nil hkey
  have hdots : lit ".." <:+: join slash parts ↔ lit ".." <:+: decoded raw :=
    haccepted.infix_iff (by decide) (by decide) Edge.Origin.dot_notMem_spaces
  refine ⟨_, received_target method b _ _, ?_⟩
  rw [checkToken_eq_ok_iff C nodeToken hmethod (by simp [requestToken, dispatchToken, sign])]
  have hobject := haccepted.objectKey_iff ⟨method, [], dispatchToken C goNet tokenSecret issued
    ttlMs (sanitizeResourceKey raw) clientIP, b, []⟩
  rw [hdots, ← hparts] at hobject
  rw [hobject, ← Bool.not_eq_true, contains_iff]
  have haccept := dispatchToken_accepted_iff C nodeToken issued ttlMs now
    (sanitizeResourceKey raw) clientIP b
  constructor
  · rintro ⟨⟨p, hp⟩, hno⟩
    have hsame : SameToken C tokenSecret nodeToken issued ttlMs (sanitizeResourceKey raw) clientIP :=
      sign_of_verify C _ _ ((verifyWithIP_eq_ok_iff C nodeToken now _ b p).mp hp).1
    rw [hsame] at haccept
    obtain ⟨hlive, hnear⟩ := haccept.mp ⟨p, hp⟩
    exact ⟨hsame, hlive, hnear, hno⟩
  · rintro ⟨hsame, hlive, hnear, hno⟩
    rw [hsame] at haccept
    exact ⟨haccept.mpr ⟨hlive, hnear⟩, hno⟩

/-- A client that asks the edge it was redirected to is served the key it had asked the control
plane for, just if the two sign alike, it comes before the token expires, from the network
it came from before (if that is known), and the key has no two dots in a row. -/
theorem redirect_served_iff (issued ttlMs : ℤ) {api : Api} {nodes : List Node}
    (hnodes : api.nodes = some nodes)
    (htoken : api.token = dispatchToken C goNet tokenSecret issued ttlMs) {cache : IPCache}
    {r : ClientAddress.Request} {raw : Bytes} {url : String}
    (hnode : dispatchable api.scheduler (objectRequest raw).key nodes ≠ [])
    (hurl : (handleObjectIngress api cache r raw).1 = .ok url) :
    ∃ top ∈ candidates (chosen api.scheduler nodes (objectRequest raw)),
      ∃ tgt, url = trimSlashes top.endpoint ++ text tgt ∧
        ∀ (now : ℤ) (b : Bytes) (method : Method), method = .get ∨ method = .head →
          ∃ req, received method b tgt = some req ∧
            ((checkToken C goNet nodeToken now req = .ok () ∧
                objectKey req = some (sanitizeResourceKey raw)) ↔
              SameToken C tokenSecret nodeToken issued ttlMs (sanitizeResourceKey raw)
                (cachedClientIP cache r).1 ∧
              ¬ Expired issued ttlMs now (sanitizeResourceKey raw) (cachedClientIP cache r).1 ∧
                (parseIP (cachedClientIP cache r).1 = none ∨
                  SameNetwork (cachedClientIP cache r).1 b) ∧
                contains (decoded raw) (lit "..") = false) := by
  obtain ⟨hkey, top, htop, hredirect⟩ := ingress_redirect hnodes hnode hurl
  rw [htoken] at hredirect
  refine ⟨top, htop, _, hredirect.trans (redirectURL_eq top _ (by simp [dispatchToken, sign])), ?_⟩
  intro now b method hmethod
  exact served_iff C tokenSecret nodeToken hkey issued ttlMs now _ b hmethod

/- A client at 10.0.0.9 that asks for k. -/
def signingEdge : Api :=
  { oneEdge with token := dispatchToken unaryCodecs goNet [1] 0 60000 }

theorem redirect_served_of_neighbour :
    ∃ url, (handleObjectIngress signingEdge (fun _ => none) blockedPeer (lit "k")).1 = .ok url ∧
      ∃ tgt req, received .get (lit "10.0.0.7") tgt = some req ∧
        checkToken unaryCodecs goNet [1] (10 ^ 9) req = .ok () ∧
        objectKey req = some (lit "k") := by
  have hok : (handleObjectIngress signingEdge (fun _ => none) blockedPeer
      (lit "k")).1.toOption.isSome = true := by decide +kernel
  have hpeer : (cachedClientIP (fun _ => none) blockedPeer).1 = lit "10.0.0.9" := by decide +kernel
  have hnear : SameNetwork (lit "10.0.0.9") (lit "10.0.0.7") :=
    ⟨(parseIP (lit "10.0.0.9")).getD [], (parseIP (lit "10.0.0.7")).getD [], by decide +kernel,
      by decide +kernel, by decide +kernel⟩
  cases hurl : (handleObjectIngress signingEdge (fun _ => none) blockedPeer (lit "k")).1 with
  | error e =>
    rw [hurl] at hok
    cases hok
  | ok url =>
    have hnodes : signingEdge.nodes = some [ControlPlane.ResolveRuns.publicNode "a"] := rfl
    obtain ⟨top, -, tgt, -, hserved⟩ := redirect_served_iff unaryCodecs [1] [1] 0 60000
      hnodes rfl (by decide +kernel) hurl
    obtain ⟨req, hreq, hiff⟩ := hserved (10 ^ 9) (lit "10.0.0.7") .get (.inl rfl)
    rw [hpeer] at hiff
    exact ⟨url, rfl, tgt, req, hreq,
      hiff.mpr ⟨rfl, by decide +kernel, .inr hnear, by decide +kernel⟩⟩

end EdgeDispatch.FollowedRedirects
