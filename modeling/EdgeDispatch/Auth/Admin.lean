import EdgeDispatch.Auth.Token
import EdgeDispatch.Lib.GoInt64
import EdgeDispatch.Lib.GoStrconv
import EdgeDispatch.Lib.ReplayWindow

/-! # HMAC authentication of admin requests (internal/auth/admin.go:19-157)

`Verify` checks a timestamp, a nonce that must be new, and a signature over both. A
goroutine drops old nonces whenever its ticker fires. Times are in nanoseconds; a request
reads the clock when it arrives. -/

namespace EdgeDispatch.Auth.Admin
open Lib.ByteString Lib.GoStrings Lib.GoStrconv
open Lib.ReplayWindow Lib.GoInt64
open Auth.Token (unix)

def minute : ℤ := 60 * second

/-- The nonces seen, each with the time it was stored. -/
abbrev NonceCache := Bytes → Option ℤ

def newNonceCache : NonceCache := fun _ => none

/- One tick of `cleanupLoop`; `maxAge` is set once, by `NewNonceCache`. -/
def cleanup (maxAge : ℤ) (nc : NonceCache) (now : ℤ) : NonceCache :=
  fun k => (nc k).filter fun v => decide (¬ now - v > maxAge)

def checkAndStore (nc : NonceCache) (nonce : Bytes) (now : ℤ) : Bool × NonceCache :=
  match nc nonce with
  | some _ => (false, nc)
  | none => (true, Function.update nc nonce (some now))

structure AdminAuth where
  accessKeys : Bytes → Option Bytes
  nonceTTL : ℤ
  clockSkew : ℤ

def newAdminAuth (accessKey secretKey : Bytes) (nonceTTL clockSkew : ℤ) : AdminAuth :=
  { accessKeys := if accessKey ≠ [] ∧ secretKey ≠ [] then
      Function.update (fun _ => none) accessKey (some secretKey) else fun _ => none
    nonceTTL := nonceTTL
    clockSkew := clockSkew }

/-- The four headers, as `Header.Get` returns them. -/
structure Headers where
  keyID : Bytes
  timestamp : Bytes
  nonce : Bytes
  signature : Bytes
  deriving DecidableEq

inductive AdminError where
  | missingHeaders
  | invalidTimestamp
  | timestampOutOfRange
  | nonceUsed
  | invalidAccessKey
  | invalidSignature
  deriving DecidableEq

def AdminError.message : AdminError → String
  | .missingHeaders => "missing admin auth headers"
  | .invalidTimestamp => "invalid timestamp"
  | .timestampOutOfRange => "timestamp out of range"
  | .nonceUsed => "nonce already used (replay attack)"
  | .invalidAccessKey => "invalid access key"
  | .invalidSignature => "invalid signature"

/- `mac` is HMAC-SHA256 in standard base64. -/
def computeHMAC (mac : Bytes → Bytes → Bytes) (secret keyID timestamp nonce : Bytes) : Bytes :=
  mac secret (keyID ++ lit "|" ++ timestamp ++ lit "|" ++ nonce)

/- What `Verify` checks before the nonce, and what it checks after it. -/
def checkTime (a : AdminAuth) (h : Headers) (now : ℤ) : Except AdminError Unit :=
  if h.keyID = [] ∨ h.timestamp = [] ∨ h.nonce = [] ∨ h.signature = [] then .error .missingHeaders
  else match parseInt h.timestamp with
    | none => .error .invalidTimestamp
    | some ts =>
      let skew := a.clockSkew / second
      if ts.toInt < unix now - skew ∨ ts.toInt > unix now + skew then .error .timestampOutOfRange
      else .ok ()

def checkSignature (mac : Bytes → Bytes → Bytes) (a : AdminAuth) (h : Headers) :
    Except AdminError Bytes :=
  match a.accessKeys h.keyID with
  | none => .error .invalidAccessKey
  | some secretKey =>
    if h.signature ≠ computeHMAC mac secretKey h.keyID h.timestamp h.nonce then
      .error .invalidSignature
    else .ok h.keyID

def verify (mac : Bytes → Bytes → Bytes) (a : AdminAuth) (nc : NonceCache) (h : Headers) (now : ℤ) :
    Except AdminError Bytes × NonceCache :=
  match checkTime a h now with
  | .error e => (.error e, nc)
  | .ok () =>
    let r := checkAndStore nc h.nonce now
    if r.1 then (checkSignature mac a h, r.2) else (.error .nonceUsed, r.2)

inductive Event where
  | request (h : Headers) (now : ℤ)
  | cleanup (now : ℤ)
  deriving DecidableEq

def Event.time : Event → ℤ
  | .request _ now => now
  | .cleanup now => now

def Event.nonce : Event → Bytes
  | .request h _ => h.nonce
  | .cleanup _ => []

/- A tick accepts nothing. -/
def step (mac : Bytes → Bytes → Bytes) (a : AdminAuth) (maxAge : ℤ) (nc : NonceCache) :
    Event → Bool × NonceCache
  | .request h now => ((verify mac a nc h now).1.isOk, (verify mac a nc h now).2)
  | .cleanup now => (false, cleanup maxAge nc now)

/-! ### What a step does to the nonces -/

variable {a : AdminAuth} {h : Headers} {now : ℤ} {mac : Bytes → Bytes → Bytes} {nc : NonceCache}

theorem checkTime_ok (hc : checkTime a h now = .ok ()) :
    ∃ ts, parseInt h.timestamp = some ts ∧ unix now - a.clockSkew / second ≤ ts.toInt ∧
      ts.toInt ≤ unix now + a.clockSkew / second := by
  unfold checkTime at hc
  split at hc
  · cases hc
  · split at hc
    · cases hc
    · rename_i ts hts
      simp only at hc
      split at hc
      · cases hc
      · exact ⟨ts, hts, by omega, by omega⟩

/- An accepted request was in time, and its nonce was new and is now stored. -/
theorem verify_ok (hv : (verify mac a nc h now).1.isOk = true) :
    checkTime a h now = .ok () ∧ nc h.nonce = none ∧
      (verify mac a nc h now).2 h.nonce = some now := by
  unfold verify at hv ⊢
  cases hc : checkTime a h now with
  | error e => simp [hc, Except.isOk, Except.toBool] at hv
  | ok u =>
    cases hn : nc h.nonce with
    | some t => simp [hc, checkAndStore, hn, Except.isOk, Except.toBool] at hv
    | none => simp [checkAndStore, hn]

theorem verify_seen {k : Bytes} {t : ℤ} (hk : nc k = some t) :
    (verify mac a nc h now).2 k = some t := by
  unfold verify
  cases hc : checkTime a h now with
  | error e => exact hk
  | ok u =>
    cases hn : nc h.nonce with
    | some v => simpa [checkAndStore, hn] using hk
    | none =>
      have hne : k ≠ h.nonce := by
        intro he
        rw [he, hn] at hk
        cases hk
      simpa [checkAndStore, hn, Function.update_of_ne hne] using hk

theorem cleanup_seen {maxAge : ℤ} {k : Bytes} {t : ℤ} (hk : nc k = some t)
    (hyoung : now ≤ t + maxAge) : cleanup maxAge nc now k = some t := by
  have hkeep : decide (¬ now - t > maxAge) = true := by
    rw [decide_eq_true_eq]
    omega
  rw [cleanup, hk, Option.filter_some, if_pos hkeep]

/-- The verifier as a gate: a nonce stays for `maxAge`. -/
def gate (mac : Bytes → Bytes → Bytes) (a : AdminAuth) (maxAge : ℤ) :
    Gate NonceCache Event Bytes where
  step := step mac a maxAge
  time := Event.time
  key := Event.nonce
  seen := fun nc => nc
  window := maxAge
  remembers nc e h := by
    cases e with
    | request hs now => exact (verify_ok h).2.2
    | cleanup now => cases h
  refuses nc e t hseen hyoung := by
    cases e with
    | request hs now =>
      rw [Bool.eq_false_iff]
      intro hok
      have hnew := (verify_ok hok).2.1
      rw [show nc hs.nonce = some t from hseen] at hnew
      cases hnew
    | cleanup now => rfl
  keeps nc e k t hseen hyoung := by
    cases e with
    | request hs now => exact verify_seen hseen
    | cleanup now => exact cleanup_seen hseen hyoung

/-- The same signed request, whenever it comes. -/
def SameRequest : Event → Event → Prop
  | .request h _, .request h' _ => h = h'
  | _, _ => False

/- Accepted twice means twice within the skew on both sides, in whole seconds. -/
theorem accepted_within {maxAge : ℤ} (hskew : (2 * (a.clockSkew / second) + 1) * second ≤ maxAge)
    {nc' : NonceCache} {e e' : Event} (h : (step mac a maxAge nc e).1 = true)
    (h' : (step mac a maxAge nc' e').1 = true) (hsame : SameRequest e e') :
    e'.time ≤ e.time + maxAge := by
  cases e with
  | cleanup now => exact absurd hsame (by simp [SameRequest])
  | request hs now =>
    cases e' with
    | cleanup now' => exact absurd hsame (by simp [SameRequest])
    | request hs' now' =>
      have heq : hs = hs' := hsame
      subst heq
      obtain ⟨ts, hts, -, hhigh⟩ := checkTime_ok (verify_ok h).1
      obtain ⟨ts', hts', hlow, -⟩ := checkTime_ok (verify_ok h').1
      have hsts : ts = ts' := Option.some.inj (hts.symm.trans hts')
      subst hsts
      simp only [Event.time, unix, second] at *
      omega

theorem accepted_once (mac : Bytes → Bytes → Bytes) (a : AdminAuth) (maxAge : ℤ)
    (hskew : (2 * (a.clockSkew / second) + 1) * second ≤ maxAge) (es : List Event) (nc : NonceCache)
    (hs : es.Pairwise fun e e' => e.time ≤ e'.time) :
    (verdicts (gate mac a maxAge) nc es).Pairwise fun p q =>
      p.2 = true → q.2 = true → ¬ SameRequest p.1 q.1 := by
  apply let_through_once (gate mac a maxAge) SameRequest _ _ es nc hs
  · intro e e' hsame
    cases e with
    | cleanup now => exact absurd hsame (by simp [SameRequest])
    | request h now =>
      cases e' with
      | cleanup now' => exact absurd hsame (by simp [SameRequest])
      | request h' now' => exact congrArg Headers.nonce hsame
  · intro s s' e e' h h' hsame
    exact accepted_within hskew h h' hsame

end EdgeDispatch.Auth.Admin
