import EdgeDispatch.Auth.Admin
import EdgeDispatch.ClientAddress
import EdgeDispatch.Lib.Digest

/-! # The signed requests of the internal admin API (internal/controlplane/admin_internal.go)

`middleware` lets a request through if its headers are complete, its timestamp is recent,
its nonce is new and its signature is right. Old nonces are dropped by the requests
themselves, at most once a minute. -/

namespace EdgeDispatch.ControlPlane.AdminInternal
open Lib.ByteString Lib.GoStrings Lib.GoStrconv
open Lib.Digest (hex decodeHex)
open Lib.NetIP (IPNet)
open Lib.ReplayWindow
open Auth.Token (NetText)
open Lib.GoInt64 (second)
open Auth.Admin (minute)

/- HMAC-SHA256 and SHA-256. -/
structure Crypto where
  hmac : Bytes → Bytes → Bytes
  sha256 : Bytes → Bytes

structure AdminAuth where
  keyID : Bytes
  secret : Bytes
  allowedNets : List IPNet
  nonceTTL : ℤ
  maxSkew : ℤ
  cleanupEvery : ℤ

def newAdminAuth (adminAccessKey adminSecretKey : Bytes) : AdminAuth :=
  { keyID := adminAccessKey
    secret := adminSecretKey
    allowedNets := []
    nonceTTL := 10 * minute
    maxSkew := 5 * minute
    cleanupEvery := 1 * minute }

/-- `seenNonces` and `lastCleanup`, which is the zero time at first. -/
structure Nonces where
  seen : Bytes → Option ℤ
  lastCleanup : Option ℤ

def noNonces : Nonces := ⟨fun _ => none, none⟩

/-- What `middleware` reads of a request; the body is `none` if it cannot be read. -/
structure Request where
  addr : ClientAddress.Request
  keyID : Bytes
  timestamp : Bytes
  nonce : Bytes
  signature : Bytes
  actorUserID : Bytes
  actorTenantID : Bytes
  actorProjectID : Bytes
  method : Bytes
  path : Bytes
  body : Option Bytes
  deriving DecidableEq

structure AdminActor where
  userID : Bytes
  tenantID : Bytes
  projectID : Bytes
  deriving DecidableEq

structure Refusal where
  status : ℕ
  code : String
  message : String
  deriving DecidableEq

def forget (a : AdminAuth) (seen : Bytes → Option ℤ) (now : ℤ) : Bytes → Option ℤ :=
  fun k => (seen k).filter fun t => decide (¬ t < now - a.nonceTTL)

/- The map and the time of the last cleanup, as they are when the nonce is looked up. -/
def cleaned (a : AdminAuth) (m : Nonces) (now : ℤ) : Nonces :=
  let lastCleanup := m.lastCleanup.getD now
  if now - lastCleanup ≥ a.cleanupEvery then ⟨forget a m.seen now, some now⟩
  else ⟨m.seen, some lastCleanup⟩

def checkAndRememberNonce (a : AdminAuth) (m : Nonces) (nonce : Bytes) (now : ℤ) : Bool × Nonces :=
  let m := cleaned a m now
  match m.seen nonce with
  | some _ => (false, m)
  | none => (true, { m with seen := Function.update m.seen nonce (some now) })

def ipAllowed (a : AdminAuth) (ip : Bytes) : Bool := a.allowedNets.any fun n => n.contains ip

/- What is checked before the nonce. -/
def checkHeaders (N : NetText) (a : AdminAuth) (r : Request) (now : ℤ) : Except Refusal Unit :=
  if a.allowedNets ≠ [] ∧
      ((N.parseIP (ClientAddress.clientIP r.addr)).any fun ip => ipAllowed a ip) = false then
    .error ⟨403, "FORBIDDEN", "client ip not allowed"⟩
  else if trimSpace r.keyID = [] ∨ trimSpace r.timestamp = [] ∨ trimSpace r.nonce = [] ∨
      trimSpace r.signature = [] then
    .error ⟨401, "UNAUTHORIZED", "missing admin auth headers"⟩
  else if trimSpace r.keyID ≠ a.keyID then .error ⟨403, "FORBIDDEN", "invalid key id"⟩
  else match parseInt (trimSpace r.timestamp) with
    | none => .error ⟨400, "BAD_REQUEST", "invalid timestamp"⟩
    | some ts =>
      let t := ts.toInt * second
      if t > now + a.maxSkew ∨ t < now - a.maxSkew then
        .error ⟨401, "UNAUTHORIZED", "timestamp out of range"⟩
      else .ok ()

def bodyLimit : ℕ := 2 ^ 20

def newline : Byte := 10

def payload (C : Crypto) (r : Request) (body : Bytes) : Bytes :=
  join newline [trimSpace r.timestamp, trimSpace r.nonce, r.method, r.path, hex (C.sha256 body)]

/- What is checked after the nonce. -/
def checkSignature (C : Crypto) (a : AdminAuth) (r : Request) : Except Refusal AdminActor :=
  match r.body with
  | none => .error ⟨400, "BAD_REQUEST", "failed to read body"⟩
  | some body =>
    let want := C.hmac a.secret (payload C r (body.take bodyLimit))
    if decodeHex (trimSpace r.signature) ≠ some want then
      .error ⟨401, "UNAUTHORIZED", "invalid signature"⟩
    else
      let actor : AdminActor :=
        ⟨trimSpace r.actorUserID, trimSpace r.actorTenantID, trimSpace r.actorProjectID⟩
      if actor.userID = [] ∨ actor.tenantID = [] ∨ actor.projectID = [] then
        .error ⟨400, "BAD_REQUEST", "missing actor headers"⟩
      else .ok actor

/-- The answer, or the actor on whose behalf the request is passed on. -/
def middleware (C : Crypto) (N : NetText) (a : AdminAuth) (m : Nonces) (r : Request) (now : ℤ) :
    Except Refusal AdminActor × Nonces :=
  match checkHeaders N a r now with
  | .error e => (.error e, m)
  | .ok () =>
    let c := checkAndRememberNonce a m (trimSpace r.nonce) now
    if c.1 then (checkSignature C a r, c.2)
    else (.error ⟨401, "UNAUTHORIZED", "replayed nonce"⟩, c.2)

structure Arrival where
  request : Request
  now : ℤ
  deriving DecidableEq

def step (C : Crypto) (N : NetText) (a : AdminAuth) (m : Nonces) (e : Arrival) : Bool × Nonces :=
  ((middleware C N a m e.request e.now).1.isOk, (middleware C N a m e.request e.now).2)

/-! ### What a request does to the nonces -/

variable {N : NetText} {a : AdminAuth} {r : Request} {now : ℤ} {m : Nonces} {C : Crypto}

theorem checkHeaders_ok (h : checkHeaders N a r now = .ok ()) :
    ∃ ts, parseInt (trimSpace r.timestamp) = some ts ∧ ts.toInt * second ≤ now + a.maxSkew ∧
      now - a.maxSkew ≤ ts.toInt * second := by
  unfold checkHeaders at h
  split at h
  · cases h
  · split at h
    · cases h
    · split at h
      · cases h
      · split at h
        · cases h
        · rename_i ts hts
          simp only at h
          split at h
          · cases h
          · exact ⟨ts, hts, by omega, by omega⟩

theorem cleaned_seen {k : Bytes} {t : ℤ} (h : m.seen k = some t) (hyoung : now ≤ t + a.nonceTTL) :
    (cleaned a m now).seen k = some t := by
  have hkeep : decide (¬ t < now - a.nonceTTL) = true := by
    rw [decide_eq_true_eq]
    omega
  unfold cleaned
  dsimp only
  split
  · simp only [forget, h, Option.filter_some, hkeep, if_true]
  · exact h

theorem middleware_ok (h : (middleware C N a m r now).1.isOk = true) :
    checkHeaders N a r now = .ok () ∧ (cleaned a m now).seen (trimSpace r.nonce) = none ∧
      (middleware C N a m r now).2.seen (trimSpace r.nonce) = some now := by
  unfold middleware at h ⊢
  cases hc : checkHeaders N a r now with
  | error e => simp [hc, Except.isOk, Except.toBool] at h
  | ok u =>
    cases hn : (cleaned a m now).seen (trimSpace r.nonce) with
    | some t => simp [hc, checkAndRememberNonce, hn, Except.isOk, Except.toBool] at h
    | none => simp [checkAndRememberNonce, hn]

theorem middleware_seen {k : Bytes} {t : ℤ} (h : m.seen k = some t) (hyoung : now ≤ t + a.nonceTTL) :
    
    (middleware C N a m r now).2.seen k = some t := by
  have hkept := cleaned_seen h hyoung
  unfold middleware
  cases hc : checkHeaders N a r now with
  | error e => exact h
  | ok u =>
    cases hn : (cleaned a m now).seen (trimSpace r.nonce) with
    | some v => simpa [checkAndRememberNonce, hn] using hkept
    | none =>
      have hne : k ≠ trimSpace r.nonce := by
        intro he
        rw [he, hn] at hkept
        cases hkept
      simpa [checkAndRememberNonce, hn, Function.update_of_ne hne] using hkept

/-- The middleware as a gate: a nonce stays for `nonceTTL`. -/
def gate (C : Crypto) (N : NetText) (a : AdminAuth) : Gate Nonces Arrival Bytes where
  step := step C N a
  time := Arrival.now
  key e := trimSpace e.request.nonce
  seen := Nonces.seen
  window := a.nonceTTL
  remembers m e h := (middleware_ok h).2.2
  refuses m e t hseen hyoung := by
    rw [Bool.eq_false_iff]
    intro hok
    have hnew := (middleware_ok hok).2.1
    rw [cleaned_seen hseen hyoung] at hnew
    cases hnew
  keeps m e k t hseen hyoung := middleware_seen hseen hyoung

/-- Equal in the four headers that make a signed request, as the middleware reads them. -/
def SameRequest (e e' : Arrival) : Prop :=
  trimSpace e.request.keyID = trimSpace e'.request.keyID ∧
  trimSpace e.request.timestamp = trimSpace e'.request.timestamp ∧
  trimSpace e.request.nonce = trimSpace e'.request.nonce ∧
  trimSpace e.request.signature = trimSpace e'.request.signature

theorem accepted_within (hskew : 2 * a.maxSkew ≤ a.nonceTTL) {m' : Nonces} {e e' : Arrival}
    (h : (step C N a m e).1 = true) (h' : (step C N a m' e').1 = true) (hsame : SameRequest e e') :
    e'.now ≤ e.now + a.nonceTTL := by
  obtain ⟨ts, hts, hhigh, -⟩ := checkHeaders_ok (middleware_ok h).1
  obtain ⟨ts', hts', -, hlow⟩ := checkHeaders_ok (middleware_ok h').1
  rw [← hsame.2.1] at hts'
  have heq : ts = ts' := Option.some.inj (hts.symm.trans hts')
  subst heq
  omega

theorem accepted_once (C : Crypto) (N : NetText) (a : AdminAuth) (hskew : 2 * a.maxSkew ≤ a.nonceTTL)
    (es : List Arrival) (m : Nonces) (hs : es.Pairwise fun e e' => e.now ≤ e'.now) :
    (verdicts (gate C N a) m es).Pairwise fun p q =>
      p.2 = true → q.2 = true → ¬ SameRequest p.1 q.1 := by
  apply let_through_once (gate C N a) SameRequest _ _ es m hs
  · intro e e' hsame
    exact hsame.2.2.1
  · intro s s' e e' h h' hsame
    exact accepted_within hskew h h' hsame

/-- Neither of the two verifiers, with the durations it is configured with, accepts a
signed request twice. -/
theorem signed_requests_accepted_once :
    (∀ (C : Crypto) (N : NetText) (accessKey secretKey : Bytes) (es : List Arrival),
      es.Pairwise (fun e e' => e.now ≤ e'.now) →
      (verdicts (gate C N (newAdminAuth accessKey secretKey)) noNonces es).Pairwise fun p q =>
        p.2 = true → q.2 = true → ¬ SameRequest p.1 q.1) ∧
    ∀ (mac : Bytes → Bytes → Bytes) (accessKey secretKey : Bytes) (es : List Auth.Admin.Event),
      es.Pairwise (fun e e' => e.time ≤ e'.time) →
      (verdicts (Auth.Admin.gate mac
        (Auth.Admin.newAdminAuth accessKey secretKey (5 * minute) (30 * second)) (5 * minute))
        Auth.Admin.newNonceCache es).Pairwise fun p q =>
          p.2 = true → q.2 = true → ¬ Auth.Admin.SameRequest p.1 q.1 := by
  refine ⟨?_, ?_⟩
  · intro C N accessKey secretKey es hs
    exact accepted_once C N _ (by show 2 * (5 * minute) ≤ 10 * minute; decide) es noNonces hs
  · intro mac accessKey secretKey es hs
    apply Auth.Admin.accepted_once mac _ _ _ es _ hs
    show (2 * (30 * second / second) + 1) * second ≤ 5 * minute
    decide

def sampleRequest : Request :=
  { addr := ⟨[], [], lit "10.0.0.1:9000"⟩, keyID := lit "k1", timestamp := lit "0", nonce := lit "n",
    signature := lit "01", actorUserID := lit "u1", actorTenantID := lit "t1",
    actorProjectID := lit "p1", method := lit "POST", path := lit "/", body := some [] }

/- A request that is accepted at once is refused at the last instant of its skew, with the
   nonces cleaned up in between. -/
theorem replayed_requests_refused :
    let C : Crypto := ⟨fun _ _ => [1], fun _ => []⟩
    let N : NetText := ⟨fun _ => none, fun _ => none, fun _ => [], fun _ _ h => by cases h⟩
    let es : List Arrival := [⟨sampleRequest, 0⟩, ⟨sampleRequest, 5 * minute⟩]
    let h : Auth.Admin.Headers := ⟨lit "k1", lit "0", lit "n", lit "s"⟩
    let mac : Bytes → Bytes → Bytes := fun _ _ => lit "s"
    let fs : List Auth.Admin.Event :=
      [.request h 0, .cleanup (30 * second), .request h (30 * second)]
    let g := gate C N (newAdminAuth (lit "k1") (lit "s1"))
    let g' := Auth.Admin.gate mac
      (Auth.Admin.newAdminAuth (lit "k1") (lit "s1") (5 * minute) (30 * second)) (5 * minute)
    (verdicts g noNonces es).map Prod.snd = [true, false] ∧
      (verdicts g' Auth.Admin.newNonceCache fs).map Prod.snd = [true, false, false] ∧
      ((verdicts g noNonces es).Pairwise fun p q =>
        p.2 = true → q.2 = true → ¬ SameRequest p.1 q.1) ∧
      (verdicts g' Auth.Admin.newNonceCache fs).Pairwise fun p q =>
        p.2 = true → q.2 = true → ¬ Auth.Admin.SameRequest p.1 q.1 := by
  intro C N es h mac fs g g'
  refine ⟨by decide +kernel, by decide +kernel, ?_, ?_⟩
  · exact signed_requests_accepted_once.1 C N _ _ es (by decide +kernel)
  · exact signed_requests_accepted_once.2 mac _ _ fs (by decide +kernel)

end EdgeDispatch.ControlPlane.AdminInternal
