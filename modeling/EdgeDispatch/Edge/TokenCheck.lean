import EdgeDispatch.Auth.Token

/-! # Dispatch tokens at the edge

`Resolve` signs the resource key, an expiry and the client's address range into a
token (scheduler.go:208-217); `handleObject` checks the token of a request before it
looks at the key (server.go:321-355). -/

namespace EdgeDispatch.Edge.TokenCheck
open Lib.ByteString Lib.GoStrings Auth.Token

inductive Method where
  | get
  | head
  | other (name : Bytes)
  deriving DecidableEq

/-- What the check reads of a request: the Authorization header, the `token` query
parameter and the address that `extractClientIP` finds, "" where there is none. -/
structure Request where
  method : Method
  authorization : Bytes
  queryToken : Bytes
  clientIP : Bytes
  path : Bytes

inductive Refusal where
  | methodNotAllowed
  | unauthorized
  | forbidden
  deriving DecidableEq

section
variable (C : Codecs) (N : NetText) (secret : Bytes)

def dispatchPayload (issued ttlMs : ℤ) (key clientIP : Bytes) : TokenPayload :=
  { key := key
    exp := unix (issued + ttlMs * 10 ^ 6)
    ipPrefix := if clientIP ≠ [] then computeIPPrefix N clientIP else [] }

def dispatchToken (issued ttlMs : ℤ) (key clientIP : Bytes) : Bytes :=
  sign C secret issued (dispatchPayload N issued ttlMs key clientIP)

def requestToken (r : Request) : Bytes :=
  if r.authorization ≠ [] ∧ hasPrefix r.authorization (lit "Bearer ") = true then
    trimPrefix r.authorization (lit "Bearer ")
  else r.queryToken

/- `handleObject` up to and with the token check; the payload that `VerifyWithIP`
   returns is dropped. -/
def checkToken (now : ℤ) (r : Request) : Except Refusal Unit :=
  if r.method ≠ .get ∧ r.method ≠ .head then .error .methodNotAllowed
  else if requestToken r = [] then .error .unauthorized
  else match verifyWithIP C N secret now (requestToken r) r.clientIP with
    | .error _ => .error .forbidden
    | .ok _ => .ok ()

/- The object key, extracted after the check. -/
def objectKey (r : Request) : Option Bytes :=
  let key := trimSpace (trimPrefix r.path (lit "/obj/"))
  if key = [] ∨ key = lit "." ∨ contains key (lit "..") = true then none else some key

/- The payload the edge sees: a dispatch token that is not expired verifies. -/
theorem verify_dispatchToken (issued ttlMs now : ℤ) (key clientIP : Bytes)
    (hexp : unix now ≤ (withExpiry issued (dispatchPayload N issued ttlMs key clientIP)).exp) :
    ∃ p, verify C secret now (dispatchToken C N secret issued ttlMs key clientIP) = .ok p ∧
      p.ipPrefix = (dispatchPayload N issued ttlMs key clientIP).ipPrefix := by
  refine ⟨_, verify_sign C secret issued now _ hexp, ?_⟩
  have hsame : (withExpiry issued (dispatchPayload N issued ttlMs key clientIP)).ipPrefix =
      (dispatchPayload N issued ttlMs key clientIP).ipPrefix := by
    unfold withExpiry
    split <;> rfl
  rw [hsame]
  apply C.clean_ascii
  unfold dispatchPayload
  split
  · exact computeIPPrefix_ascii N clientIP
  · intro b hb
    cases hb

theorem matchesIP_congr (p q : TokenPayload) (ip : Bytes) (h : p.ipPrefix = q.ipPrefix) :
    matchesIP N p ip = matchesIP N q ip := by
  simp only [matchesIP, h]

/-- No key is compared: a request with a live token and a matching address passes. -/
theorem checkToken_passes (issued ttlMs now : ℤ) (key clientIP : Bytes) (r : Request)
    (hmethod : r.method = .get ∨ r.method = .head)
    (htoken : requestToken r = dispatchToken C N secret issued ttlMs key clientIP)
    (hexp : unix now ≤ (withExpiry issued (dispatchPayload N issued ttlMs key clientIP)).exp)
    (hip : matchesIP N (dispatchPayload N issued ttlMs key clientIP) r.clientIP = .ok true) :
    checkToken C N secret now r = .ok () := by
  obtain ⟨p, hp, hpre⟩ := verify_dispatchToken C N secret issued ttlMs now key clientIP hexp
  have hne : dispatchToken C N secret issued ttlMs key clientIP ≠ [] := by
    simp [dispatchToken, sign]
  have hm : ¬ (r.method ≠ .get ∧ r.method ≠ .head) := by
    rintro ⟨hg, hh⟩
    rcases hmethod with h | h
    · exact hg h
    · exact hh h
  have hverify : verifyWithIP C N secret now
      (dispatchToken C N secret issued ttlMs key clientIP) r.clientIP = .ok p := by
    rw [verifyWithIP, hp]
    show (matchesIP N p r.clientIP >>= fun ok => if ok then .ok p else .error .ipMismatch) = _
    rw [matchesIP_congr N p _ r.clientIP hpre, hip]
    rfl
  simp only [checkToken, if_neg hm, htoken, if_neg hne, hverify]

/-- A token issued for one key lets through exactly the GET and HEAD requests that
carry it, whatever their key. -/
theorem past_check_only_for_own_key_iff (issued ttlMs now : ℤ) (key clientIP : Bytes)
    (r : Request) (asked : Bytes) (hasked : objectKey r = some asked)
    (htoken : requestToken r = dispatchToken C N secret issued ttlMs key clientIP)
    (hexp : unix now ≤ (withExpiry issued (dispatchPayload N issued ttlMs key clientIP)).exp)
    (hip : matchesIP N (dispatchPayload N issued ttlMs key clientIP) r.clientIP = .ok true) :
    (checkToken C N secret now r = .ok () → some key = objectKey r) ↔
      (key = asked ∨ (r.method ≠ .get ∧ r.method ≠ .head)) := by
  rw [hasked]
  constructor
  · intro h
    by_cases hmethod : r.method = .get ∨ r.method = .head
    · have hpass := checkToken_passes C N secret issued ttlMs now key clientIP r hmethod htoken
        hexp hip
      exact Or.inl (Option.some.inj (h hpass))
    · exact Or.inr (not_or.mp hmethod)
  · intro h hpass
    rcases h with h | h
    · rw [h]
    · rw [checkToken, if_pos h] at hpass
      cases hpass

end

/- Codecs that meet the laws: everything is written in unary. -/
def unaryCodecs : Codecs where
  hmac secret bs := secret ++ bs
  encode bs := List.replicate (Encodable.encode (bs.map UInt8.toNat)) 65
  decode bs := ((Encodable.decode bs.length : Option (List ℕ))).map (List.map UInt8.ofNat)
  marshal p := List.replicate
    (Encodable.encode (p.key.map UInt8.toNat, p.exp, p.ipPrefix.map UInt8.toNat)) 0
  unmarshal bs := ((Encodable.decode bs.length : Option (List ℕ × ℤ × List ℕ))).map
    fun q => ⟨q.1.map UInt8.ofNat, q.2.1, q.2.2.map UInt8.ofNat⟩
  clean bs := bs
  decode_encode bs := by simp [Function.comp_def]
  encode_no_dot bs := by simp [List.mem_replicate]
  unmarshal_marshal p := by
    rw [List.length_replicate, Encodable.encodek]
    simp [Function.comp_def]
  clean_ascii _ _ := rfl

def noAddresses : NetText := ⟨fun _ => none, fun _ => none, fun _ => [], fun _ _ h => by cases h⟩

def tokenForA : Bytes := dispatchToken unaryCodecs noAddresses [1] 0 60000 (lit "a") []
def requestFor (path : Bytes) : Request := ⟨.get, [], tokenForA, [], path⟩

/-- A token for a opens b. -/
theorem token_for_a_opens_b :
    objectKey (requestFor (lit "/obj/b")) = some (lit "b") ∧
    checkToken unaryCodecs noAddresses [1] (10 ^ 9) (requestFor (lit "/obj/b")) = .ok () ∧
    lit "a" ≠ lit "b" := by
  refine ⟨rfl, ?_, by decide⟩
  exact checkToken_passes unaryCodecs noAddresses [1] 0 60000 (10 ^ 9) (lit "a") [] _ (Or.inl rfl)
    rfl (by decide) rfl

theorem token_for_a_asked_a :
    (checkToken unaryCodecs noAddresses [1] (10 ^ 9) (requestFor (lit "/obj/a")) = .ok () →
      some (lit "a") = objectKey (requestFor (lit "/obj/a"))) ↔
    (lit "a" = lit "a" ∨ ((requestFor (lit "/obj/a")).method ≠ .get ∧
      (requestFor (lit "/obj/a")).method ≠ .head)) :=
  past_check_only_for_own_key_iff unaryCodecs noAddresses [1] 0 60000 (10 ^ 9) (lit "a") []
    (requestFor (lit "/obj/a")) (lit "a") rfl rfl (by decide) rfl

end EdgeDispatch.Edge.TokenCheck
