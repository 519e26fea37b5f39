import EdgeDispatch.Lib.NetIP
import Mathlib.Data.List.TakeWhile
import Mathlib.Logic.Equiv.List

/-! # Dispatch tokens (internal/auth/token.go)

A token is base64url(JSON payload) + "." + base64url(HMAC of the first part). HMAC,
base64url, JSON and the text forms of addresses enter as codecs with the laws they
have; what is done with their results follows the source. -/

namespace EdgeDispatch.Auth.Token
open Lib.ByteString Lib.GoStrings Lib.NetIP

structure TokenPayload where
  key : Bytes
  exp : ℤ
  ipPrefix : Bytes
  deriving DecidableEq

/- `clean` is the replacement of invalid UTF-8 that marshalling makes in strings. -/
structure Codecs where
  hmac : Bytes → Bytes → Bytes
  encode : Bytes → Bytes
  decode : Bytes → Option Bytes
  marshal : TokenPayload → Bytes
  unmarshal : Bytes → Option TokenPayload
  clean : Bytes → Bytes
  decode_encode : ∀ bs, decode (encode bs) = some bs
  encode_no_dot : ∀ bs, 46 ∉ encode bs
  unmarshal_marshal : ∀ p, unmarshal (marshal p) = some ⟨clean p.key, p.exp, clean p.ipPrefix⟩
  clean_ascii : ∀ bs : Bytes, (∀ b ∈ bs, b < 128) → clean bs = bs

/- `net.ParseIP`, `net.ParseCIDR` and `IPNet.String`. -/
structure NetText where
  parseIP : Bytes → Option Bytes
  parseCIDR : Bytes → Option IPNet
  string : IPNet → Bytes
  string_ascii : ∀ n, ∀ b ∈ string n, b < 128

inductive VerifyError where
  | invalidFormat
  | invalidSignature
  | decodePayload
  | unmarshalPayload
  | expired
  | invalidPrefix
  | invalidClientIP
  | ipMismatch
  deriving DecidableEq

section
variable (C : Codecs) (N : NetText) (secret : Bytes)

/- Times are in nanoseconds since the epoch. -/
def unix (t : ℤ) : ℤ := t / 10 ^ 9

/- An expiry of 0 stands for none given. -/
def withExpiry (now : ℤ) (p : TokenPayload) : TokenPayload :=
  if p.exp = 0 then { p with exp := unix (now + 5 * 60 * 10 ^ 9) } else p

def signature (encoded : Bytes) : Bytes := C.encode (C.hmac secret encoded)

def sign (now : ℤ) (p : TokenPayload) : Bytes :=
  let encoded := C.encode (C.marshal (withExpiry now p))
  encoded ++ 46 :: signature C secret encoded

def splitToken (token : Bytes) : List Bytes :=
  match token.span fun b => b ≠ 46 with
  | (a, _ :: b) => [a, b]
  | (a, []) => [a]

def verify (now : ℤ) (token : Bytes) : Except VerifyError TokenPayload :=
  match splitToken token with
  | [encoded, sig] =>
    if sig ≠ signature C secret encoded then .error .invalidSignature
    else match C.decode encoded with
      | none => .error .decodePayload
      | some payloadBytes => match C.unmarshal payloadBytes with
        | none => .error .unmarshalPayload
        | some p => if p.exp < unix now then .error .expired else .ok p
  | _ => .error .invalidFormat

def matchesIP (p : TokenPayload) (ip : Bytes) : Except VerifyError Bool :=
  if p.ipPrefix = [] then .ok true
  else match N.parseCIDR p.ipPrefix with
    | none => .error .invalidPrefix
    | some cidr => match N.parseIP ip with
      | none => .error .invalidClientIP
      | some parsed => .ok (cidr.contains parsed)

def verifyWithIP (now : ℤ) (token clientIP : Bytes) : Except VerifyError TokenPayload := do
  let p ← verify C secret now token
  let ok ← matchesIP N p clientIP
  if ok then .ok p else .error .ipMismatch

/- /24 for IPv4 and /64 for IPv6. -/
def computeIPPrefix (ip : Bytes) : Bytes :=
  match N.parseIP ip with
  | none => []
  | some parsed =>
    match to4 parsed with
    | some v4 => N.string ⟨(maskIP v4 (byteMask 3 4)).getD [], byteMask 3 4⟩
    | none => N.string ⟨(maskIP parsed (byteMask 8 16)).getD [], byteMask 8 16⟩

theorem splitToken_dot (a b : Bytes) (h : 46 ∉ a) : splitToken (a ++ 46 :: b) = [a, b] := by
  have hspan : (a ++ 46 :: b).span (fun x => x ≠ 46) = (a, 46 :: b) := by
    have hall : ∀ x ∈ a, (decide (x ≠ 46)) = true := by
      intro x hx
      simp only [decide_eq_true_eq]
      exact fun he => h (he ▸ hx)
    rw [List.span_eq_takeWhile_dropWhile, List.takeWhile_append_of_pos hall,
      List.dropWhile_append_of_pos hall]
    simp
  simp only [splitToken, hspan]

theorem eq_of_splitToken {token a b : Bytes} (h : splitToken token = [a, b]) :
    token = a ++ 46 :: b ∧ 46 ∉ a := by
  have hspan := List.span_eq_takeWhile_dropWhile (p := fun x : Byte => decide (x ≠ 46)) (l := token)
  have hjoin := List.takeWhile_append_dropWhile (p := fun x : Byte => decide (x ≠ 46)) (l := token)
  unfold splitToken at h
  rw [hspan] at h
  cases hdrop : token.dropWhile fun x => decide (x ≠ 46) with
  | nil =>
    rw [hdrop] at h
    cases h
  | cons c rest =>
    rw [hdrop] at h hjoin
    obtain ⟨hfront, hback⟩ : token.takeWhile (fun x => decide (x ≠ 46)) = a ∧ rest = b := by
      simpa using h
    -- the byte at which `takeWhile` stops is the dot
    have hc : c = 46 := by
      have hne : token.dropWhile (fun x : Byte => decide (x ≠ 46)) ≠ [] := by
        rw [hdrop]
        exact List.cons_ne_nil c rest
      have hhead := List.head_dropWhile_not (fun x : Byte => decide (x ≠ 46)) hne
      simp only [hdrop, List.head_cons] at hhead
      simpa using hhead
    refine ⟨by rw [← hjoin, hfront, hback, hc], fun hmem => ?_⟩
    rw [← hfront] at hmem
    simpa using List.mem_takeWhile_imp hmem

/-- What `Verify` accepts: the first dot splits the token into a payload and its signature,
and the payload has not expired. -/
theorem verify_eq_ok_iff (now : ℤ) (token : Bytes) (p : TokenPayload) :
    verify C secret now token = .ok p ↔ ∃ encoded payloadBytes,
      token = encoded ++ 46 :: signature C secret encoded ∧ 46 ∉ encoded ∧
      C.decode encoded = some payloadBytes ∧ C.unmarshal payloadBytes = some p ∧
      unix now ≤ p.exp := by
  constructor
  · intro h
    unfold verify at h
    split at h
    · rename_i encoded sig hsplit
      split at h
      · cases h
      · rename_i hsig
        obtain ⟨htoken, hdot⟩ := eq_of_splitToken hsplit
        split at h
        · cases h
        · rename_i payloadBytes hdecode
          split at h
          · cases h
          · rename_i q hq
            split at h
            · cases h
            · rename_i hlive
              cases h
              rw [not_not] at hsig
              exact ⟨encoded, payloadBytes, by rw [htoken, hsig], hdot, hdecode, hq, not_lt.mp hlive⟩
    · cases h
  · rintro ⟨encoded, payloadBytes, rfl, hdot, hdecode, hp, hlive⟩
    simp [verify, splitToken_dot _ _ hdot, hdecode, hp, not_lt.mpr hlive]

/-- A signed payload comes back as JSON leaves it, until it expires. -/
theorem verify_sign (issued now : ℤ) (p : TokenPayload)
    (h : unix now ≤ (withExpiry issued p).exp) :
    verify C secret now (sign C secret issued p) = .ok ⟨C.clean (withExpiry issued p).key,
      (withExpiry issued p).exp, C.clean (withExpiry issued p).ipPrefix⟩ := by
  have hlive : ¬ (withExpiry issued p).exp < unix now := by omega
  simp only [verify, sign, splitToken_dot _ _ (C.encode_no_dot _), C.decode_encode,
    C.unmarshal_marshal, hlive, ne_eq, not_true_eq_false, if_false]

theorem verify_sign_expired (issued now : ℤ) (p : TokenPayload)
    (h : (withExpiry issued p).exp < unix now) :
    verify C secret now (sign C secret issued p) = .error .expired := by
  simp only [verify, sign, splitToken_dot _ _ (C.encode_no_dot _), C.decode_encode,
    C.unmarshal_marshal, h, ne_eq, not_true_eq_false, if_false, if_true]

theorem computeIPPrefix_ascii (ip : Bytes) : ∀ b ∈ computeIPPrefix N ip, b < 128 := by
  unfold computeIPPrefix
  split
  · intro b hb
    cases hb
  · split <;> exact N.string_ascii _

end

end EdgeDispatch.Auth.Token
