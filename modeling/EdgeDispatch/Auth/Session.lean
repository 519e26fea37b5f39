import EdgeDispatch.Edge.TokenCheck
import EdgeDispatch.Lib.HttpHeader

/-! # Sessions of the admin console (internal/auth/admin.go:186-313)

A session is a JWT. The middleware in front of the handlers checks it and writes the user into
the headers from which the handlers take the actor. -/

namespace EdgeDispatch.Auth.Session
open Lib.ByteString Lib.GoStrings Lib.HttpHeader
open Auth.Token (Codecs signature)
open Edge.TokenCheck (unaryCodecs)

structure JWTClaims where
  userID : Bytes
  tenantID : Bytes
  email : Bytes
  expiresAt : ℤ
  issuedAt : ℤ
  deriving DecidableEq

/-- JSON for the header (its alg and typ) and for the claims. -/
structure JwtCodecs extends Codecs where
  marshalHeader : Bytes × Bytes → Bytes
  unmarshalHeader : Bytes → Option (Bytes × Bytes)
  marshalClaims : JWTClaims → Bytes
  unmarshalClaims : Bytes → Option JWTClaims
  header_back : ∀ h, unmarshalHeader (marshalHeader h) = some (clean h.1, clean h.2)
  claims_back : ∀ c, unmarshalClaims (marshalClaims c) = some { c with
    userID := clean c.userID, tenantID := clean c.tenantID, email := clean c.email }

inductive VerifyError where
  | invalidFormat
  | decodeHeader
  | unmarshalHeader
  | invalidHeader
  | invalidSignature
  | decodePayload
  | unmarshalClaims
  | expired
  deriving DecidableEq

/-- The arguments of `Sign`, and the time in seconds at which it is called. -/
structure Login where
  userID : Bytes
  tenantID : Bytes
  email : Bytes
  time : ℤ

structure JWTSession where
  codecs : JwtCodecs
  secret : Bytes
  expirySeconds : ℤ

namespace JWTSession
variable (j : JWTSession)

def claims (l : Login) : JWTClaims :=
  ⟨l.userID, l.tenantID, l.email, l.time + j.expirySeconds, l.time⟩

def headerPart : Bytes := j.codecs.encode (j.codecs.marshalHeader (lit "HS256", lit "JWT"))

def payloadPart (l : Login) : Bytes := j.codecs.encode (j.codecs.marshalClaims (j.claims l))

def mac (signingInput : Bytes) : Bytes := signature j.codecs.toCodecs j.secret signingInput

def sign (l : Login) : Bytes × ℤ :=
  let signingInput := j.headerPart ++ 46 :: j.payloadPart l
  (signingInput ++ 46 :: j.mac signingInput, l.time + j.expirySeconds)

def verifyClaims (now : ℤ) (payload : Bytes) : Except VerifyError JWTClaims :=
  match j.codecs.decode payload with
  | none => .error .decodePayload
  | some payloadJSON =>
    match j.codecs.unmarshalClaims payloadJSON with
    | none => .error .unmarshalClaims
    | some claims => if claims.expiresAt < now then .error .expired else .ok claims

def verify (now : ℤ) (token : Bytes) : Except VerifyError JWTClaims :=
  match split 46 token with
  | [header, payload, sig] =>
    match j.codecs.decode header with
    | none => .error .decodeHeader
    | some headerJSON =>
      match j.codecs.unmarshalHeader headerJSON with
      | none => .error .unmarshalHeader
      | some (alg, typ) =>
        if alg ≠ lit "HS256" ∨ typ ≠ lit "JWT" then .error .invalidHeader
        else if sig ≠ j.mac (header ++ 46 :: payload) then .error .invalidSignature
        else j.verifyClaims now payload
  | _ => .error .invalidFormat

/-- The request that the handlers get, or the message of the answer with status 401.
`requestID` is a new UUID. -/
def middleware (now : ℤ) (requestID : Bytes) (h : Header) : Except String Header :=
  let auth := h.get (lit "Authorization")
  if auth = [] ∨ hasPrefix auth (lit "Bearer ") = false then .error "missing bearer token"
  else match j.verify now (trimPrefix auth (lit "Bearer ")) with
    | .error _ => .error "invalid or expired token"
    | .ok claims => .ok ((((h.set (lit "X-Actor-UserId") claims.userID).set
        (lit "X-Actor-TenantId") claims.tenantID).set (lit "X-Actor-Email") claims.email).set
        (lit "X-Request-Id") requestID)

/-! ### What is verified -/

theorem get_set (h : Header) (name value : Bytes) : (h.set name value).get name = value := by
  simp [Header.get, Header.set]

variable {h : Header} {now : ℤ} {token : Bytes} {c : JWTClaims}

theorem get_set_of_ne {name other value : Bytes}
    (hne : canonicalMIMEHeaderKey other ≠ canonicalMIMEHeaderKey name) :
    (h.set name value).get other = h.get other := by
  simp [Header.get, Header.set, hne]

theorem split_token {header payload sig : Bytes} (hh : 46 ∉ header) (hp : 46 ∉ payload)
    (hs : 46 ∉ sig) :
    split 46 ((header ++ 46 :: payload) ++ 46 :: sig) = [header, payload, sig] := by
  have hjoin : (header ++ 46 :: payload) ++ 46 :: sig = join 46 [header, payload, sig] := by
    simp [join, List.intercalate]
  rw [hjoin]
  refine split_join (by simp) fun p hp' => ?_
  simp only [List.mem_cons, List.not_mem_nil, or_false] at hp'
  rcases hp' with rfl | rfl | rfl
  · exact hh
  · exact hp
  · exact hs

/- A token that is accepted is a signed text and its signature. -/
theorem verify_ok (h : j.verify now token = .ok c) :
    ∃ header payload, 46 ∉ header ∧ 46 ∉ payload ∧
      token = (header ++ 46 :: payload) ++ 46 :: j.mac (header ++ 46 :: payload) ∧
      j.verifyClaims now payload = .ok c := by
  unfold verify at h
  split at h
  · rename_i header payload sig hsplit
    have hdots := mem_split (c := 46) (s := token)
    have hjoin := join_split 46 token
    rw [hsplit] at hdots hjoin
    split at h
    · cases h
    · split at h
      · cases h
      · split at h
        · cases h
        · split at h
          · cases h
          · rename_i hsig
            rw [not_not] at hsig
            refine ⟨header, payload, (hdots header (by simp)).1, (hdots payload (by simp)).1, ?_, h⟩
            rw [← hjoin, ← hsig]
            simp [join, List.intercalate]
  · cases h

theorem verifyClaims_payloadPart (now : ℤ) (l : Login) :
    j.verifyClaims now (j.payloadPart l) =
      if l.time + j.expirySeconds < now then .error .expired
      else .ok { j.claims l with
        userID := j.codecs.clean l.userID, tenantID := j.codecs.clean l.tenantID
        email := j.codecs.clean l.email } := by
  simp only [verifyClaims, payloadPart, j.codecs.decode_encode, j.codecs.claims_back]
  rfl

theorem split_sign (l : Login) : split 46 (j.sign l).1 =
    [j.headerPart, j.payloadPart l, j.mac (j.headerPart ++ 46 :: j.payloadPart l)] :=
  split_token (j.codecs.encode_no_dot _) (j.codecs.encode_no_dot _) (j.codecs.encode_no_dot _)

theorem verify_sign (now : ℤ) (l : Login) :
    j.verify now (j.sign l).1 = j.verifyClaims now (j.payloadPart l) := by
  have hheader : j.codecs.decode j.headerPart = some _ := j.codecs.decode_encode _
  have halg : j.codecs.clean (lit "HS256") = lit "HS256" :=
    j.codecs.clean_ascii _ (by decide +kernel)
  have htyp : j.codecs.clean (lit "JWT") = lit "JWT" := j.codecs.clean_ascii _ (by decide +kernel)
  simp only [verify, split_sign, hheader, j.codecs.header_back, halg, htyp, ne_eq,
    not_true_eq_false, or_self, if_false]

theorem middleware_ok {requestID : Bytes} {h' : Header}
    (hok : j.middleware now requestID h = .ok h') :
    ∃ token c, h.get (lit "Authorization") = lit "Bearer " ++ token ∧ j.verify now token = .ok c ∧
      h'.get (lit "X-Actor-UserId") = c.userID ∧ h'.get (lit "X-Actor-TenantId") = c.tenantID ∧
      h'.get (lit "X-Actor-Email") = c.email := by
  unfold middleware at hok
  dsimp only at hok
  split at hok
  · cases hok
  · rename_i hbearer
    obtain ⟨-, hprefix⟩ := not_or.mp hbearer
    obtain ⟨token, htoken⟩ : lit "Bearer " <+: h.get (lit "Authorization") := by
      simpa [hasPrefix] using hprefix
    rw [← htoken, trimPrefix_append] at hok
    cases hv : j.verify now token with
    | error e =>
      rw [hv] at hok
      cases hok
    | ok c =>
      rw [hv] at hok
      cases hok
      refine ⟨token, c, htoken.symm, hv, ?_, ?_, ?_⟩
      · rw [get_set_of_ne (by decide +kernel), get_set_of_ne (by decide +kernel),
          get_set_of_ne (by decide +kernel), get_set]
      · rw [get_set_of_ne (by decide +kernel), get_set_of_ne (by decide +kernel), get_set]
      · rw [get_set_of_ne (by decide +kernel), get_set]

theorem middleware_of_verify (requestID : Bytes)
    (hauth : h.get (lit "Authorization") = lit "Bearer " ++ token) (hv : j.verify now token = .ok c) :
    ∃ h', j.middleware now requestID h = .ok h' := by
  have hbearer : ¬ (lit "Bearer " ++ token = [] ∨
      hasPrefix (lit "Bearer " ++ token) (lit "Bearer ") = false) := by
    simp [hasPrefix, lit]
  simp only [middleware, hauth, if_neg hbearer, trimPrefix_append, hv]
  exact ⟨_, rfl⟩

/-! ### Who the actor is -/

/-- What carries the session's signature was signed for one of these logins. -/
def Unforged (logins : List Login) (h : Header) : Prop :=
  ∀ header payload, 46 ∉ header → 46 ∉ payload →
    h.get (lit "Authorization") = lit "Bearer " ++
      ((header ++ 46 :: payload) ++ 46 :: j.mac (header ++ 46 :: payload)) →
    ∃ l ∈ logins, header = j.headerPart ∧ payload = j.payloadPart l

/-- A request is let through with a token that was signed for a login and has not expired, and
with no other; and the actor that the handlers see is that login's, whatever headers the
client has sent. -/
theorem actor_logged_in (now : ℤ) (requestID : Bytes) {logins : List Login} {h : Header}
    (hforge : j.Unforged logins h) :
    (∀ l ∈ logins, h.get (lit "Authorization") = lit "Bearer " ++ (j.sign l).1 →
      now ≤ (j.sign l).2 → ∃ h', j.middleware now requestID h = .ok h') ∧
    ∀ h', j.middleware now requestID h = .ok h' →
      ∃ l ∈ logins, h.get (lit "Authorization") = lit "Bearer " ++ (j.sign l).1 ∧
        now ≤ (j.sign l).2 ∧ h'.get (lit "X-Actor-UserId") = j.codecs.clean l.userID ∧
        h'.get (lit "X-Actor-TenantId") = j.codecs.clean l.tenantID ∧
        h'.get (lit "X-Actor-Email") = j.codecs.clean l.email := by
  constructor
  · intro l _ hauth hlive
    have hv := (j.verifyClaims_payloadPart now l).trans (if_neg (not_lt.mpr hlive))
    exact j.middleware_of_verify requestID hauth ((j.verify_sign now l).trans hv)
  · intro h' hok
    obtain ⟨token, c, hauth, hv, huser, htenant, hemail⟩ := j.middleware_ok hok
    obtain ⟨header, payload, hh, hp, rfl, hc⟩ := j.verify_ok hv
    obtain ⟨l, hl, rfl, rfl⟩ := hforge header payload hh hp hauth
    rw [verifyClaims_payloadPart] at hc
    split at hc
    · cases hc
    · rename_i hlive
      cases hc
      exact ⟨l, hl, hauth, not_lt.mp hlive, huser, htenant, hemail⟩

end JWTSession

/- Everything is written as the payloads of dispatch tokens are there. -/
def unaryJwtCodecs : JwtCodecs :=
  { unaryCodecs with
    marshalHeader := fun h => unaryCodecs.marshal ⟨h.1, 0, h.2⟩
    unmarshalHeader := fun s => (unaryCodecs.unmarshal s).map fun p => (p.key, p.ipPrefix)
    marshalClaims := fun c => unaryCodecs.marshal
      ⟨unaryCodecs.marshal ⟨c.userID, c.expiresAt, c.tenantID⟩, c.issuedAt, c.email⟩
    unmarshalClaims := fun s => (unaryCodecs.unmarshal s).bind fun p =>
      (unaryCodecs.unmarshal p.key).map fun q => ⟨q.key, q.ipPrefix, p.ipPrefix, q.exp, p.exp⟩
    header_back := fun h => by rw [unaryCodecs.unmarshal_marshal]; rfl
    claims_back := fun c => by
      rw [unaryCodecs.unmarshal_marshal, Option.bind_some]
      exact congrArg _ (unaryCodecs.unmarshal_marshal _) }

/- A request that has its token from a login, and names another tenant. -/
theorem actor_logged_in_of_alice :
    ∃ (j : JWTSession) (l : Login) (h h' : Header), l.tenantID = lit "a" ∧
      h.get (lit "X-Actor-TenantId") = lit "b" ∧ j.middleware 1 [] h = .ok h' ∧
      h'.get (lit "X-Actor-TenantId") = lit "a" := by
  let j : JWTSession := ⟨unaryJwtCodecs, lit "s", 60⟩
  let l : Login := ⟨lit "u", lit "a", lit "e", 0⟩
  let h : Header := Header.set (Header.set (fun _ => none) (lit "X-Actor-TenantId") (lit "b"))
    (lit "Authorization") (lit "Bearer " ++ (j.sign l).1)
  have hauth : h.get (lit "Authorization") = lit "Bearer " ++ (j.sign l).1 :=
    JWTSession.get_set ..
  have hforge : j.Unforged [l] h := by
    intro header payload hh hp hsame
    have htoken := List.append_cancel_left (hauth.symm.trans hsame)
    have hsplit : split 46 (_ ++ 46 :: j.mac (header ++ 46 :: payload)) = _ :=
      JWTSession.split_token hh hp (j.codecs.encode_no_dot _)
    rw [← htoken, j.split_sign] at hsplit
    simp only [List.cons.injEq] at hsplit
    exact ⟨l, List.mem_singleton_self l, hsplit.1.symm, hsplit.2.1.symm⟩
  obtain ⟨hlive, hactor⟩ := j.actor_logged_in 1 [] hforge
  obtain ⟨h', hok⟩ := hlive l (List.mem_singleton_self l) hauth (by decide)
  obtain ⟨l', hl', -, -, -, htenant, -⟩ := hactor h' hok
  rw [List.mem_singleton.mp hl'] at htenant
  refine ⟨j, l, h, h', rfl, ?_, hok, htenant⟩
  exact (JWTSession.get_set_of_ne (by decide +kernel)).trans (JWTSession.get_set ..)

end EdgeDispatch.Auth.Session
