import EdgeDispatch.Lib.TokenBucket
import Mathlib.Tactic.FieldSimp

/-! # The rate limit of a tenant (internal/controlplane/tenant_ratelimit.go)

`Allow` runs a Lua script in Redis that keeps a token bucket per tenant in a hash and
sets the hash to expire ten seconds later. The script's numbers are exact here; times
are Unix milliseconds, the same for the argument of the script and for Redis. -/

namespace EdgeDispatch.ControlPlane.TenantRateLimit
open Lib.TokenBucket

structure TenantLimit where
  reqPerSec : ℤ
  burst : ℤ

def defaultReqPerSec : ℤ := 100
def defaultBurst : ℤ := 200

abbrev Limits := String → Option TenantLimit

def setLimit (limits : Limits) (tenantID : String) (reqPerSec burst : ℤ) : Limits :=
  Function.update limits tenantID (some ⟨reqPerSec, burst⟩)

def getLimit (limits : Limits) (tenantID : String) : ℤ × ℤ :=
  match limits tenantID with
  | some l => (l.reqPerSec, l.burst)
  | none => (defaultReqPerSec, defaultBurst)

/-- How many milliseconds a key is still there after `EXPIRE key s`. Redis documents an
error of up to one millisecond. -/
structure Expiry where
  life : ℕ → ℕ
  not_early : ∀ s, 1000 * s ≤ life s
  not_late : ∀ s, life s ≤ 1000 * s + 1

/- The two fields of the hash, and the millisecond from which on it is gone. -/
structure Hash where
  tokens : ℚ
  lastRefill : ℤ
  goneAt : ℤ

abbrev Redis := String → Option Hash

def hget (db : Redis) (key : String) (now : ℤ) : Option Hash :=
  (db key).filter fun h => decide (now < h.goneAt)

def refillTokens (tokens : ℚ) (lastRefill rate burst now : ℤ) : ℚ × ℤ :=
  let elapsed := now - lastRefill
  if 0 < elapsed then (min burst (tokens + elapsed * rate / 1000), now) else (tokens, lastRefill)

def hset (x : Expiry) (db : Redis) (key : String) (tokens : ℚ) (lastRefill now : ℤ) : Redis :=
  Function.update db key (some ⟨tokens, lastRefill, now + x.life 10⟩)

def rateLimitScript (x : Expiry) (db : Redis) (key : String) (rate burst now : ℤ) : Bool × Redis :=
  let tokens := ((hget db key now).map Hash.tokens).getD burst
  let lastRefill := ((hget db key now).map Hash.lastRefill).getD now
  let refilled := refillTokens tokens lastRefill rate burst now
  if 1 ≤ refilled.1 then (true, hset x db key (refilled.1 - 1) refilled.2 now)
  else (false, hset x db key refilled.1 refilled.2 now)

def tenantKey (tenantID : String) : String := "rl:tenant:" ++ tenantID

/- `up` is false when the script call fails: then every request is let through. -/
def allow (x : Expiry) (limits : Limits) (db : Redis) (up : Bool) (tenantID : String) (now : ℤ) :
    Bool × Redis :=
  if up then
    rateLimitScript x db (tenantKey tenantID) (getLimit limits tenantID).1
      (getLimit limits tenantID).2 now
  else (true, db)

structure Call where
  tenantID : String
  nowMs : ℤ

/-- Calls in a row with Redis available, each with its answer. -/
def answers (x : Expiry) (limits : Limits) : Redis → List Call → List (Call × Bool)
  | _, [] => []
  | db, c :: cs =>
    let r := allow x limits db true c.tenantID c.nowMs
    (c, r.1) :: answers x limits r.2 cs

/-- The calls of a tenant that are let through within `d` milliseconds from `a` on. -/
def admitted (tenantID : String) (a : ℤ) (d : ℕ) (rs : List (Call × Bool)) : ℕ :=
  rs.countP fun r => r.2 && decide (r.1.tenantID = tenantID) &&
    (decide (a ≤ r.1.nowMs) && decide (r.1.nowMs ≤ a + d))

def RateBounded (x : Expiry) (limits : Limits) (tenantID : String) (rate burst : ℤ) : Prop :=
  ∀ calls : List Call, calls.Pairwise (fun c c' => c.nowMs ≤ c'.nowMs) → ∀ (a : ℤ) (d : ℕ),
    (admitted tenantID a d (answers x limits (fun _ => none) calls) : ℚ) ≤ burst + rate * d / 1000

/-! ### The script as a bucket that is never dropped -/

theorem tenantKey_inj {t t' : String} (h : tenantKey t = tenantKey t') : t = t' := by
  exact (String.append_right_inj _).mp h

theorem getLimit_setLimit (limits : Limits) (tenantID : String) (rate burst : ℤ) :
    getLimit (setLimit limits tenantID rate burst) tenantID = (rate, burst) := by
  simp [getLimit, setLimit]

theorem refill_eq (tokens : ℚ) (lastRefill rate burst now : ℤ) :
    refill ((rate : ℚ) / 1000) (burst : ℚ) ⟨tokens, lastRefill⟩ now =
      ⟨(refillTokens tokens lastRefill rate burst now).1,
        (refillTokens tokens lastRefill rate burst now).2⟩ := by
  have hiff : (lastRefill : ℚ) < now ↔ 0 < now - lastRefill := by
    rw [sub_pos]
    exact Int.cast_lt
  unfold refill refillTokens
  by_cases h : 0 < now - lastRefill
  · rw [if_pos (hiff.mpr h), if_pos h]
    have hgain : ((now : ℚ) - lastRefill) * (rate / 1000) = (now - lastRefill : ℤ) * rate / 1000 := by
      push_cast
      ring
    rw [hgain]
  · rw [if_neg (fun h' => h (hiff.mp h')), if_neg h]

/- What the script finds and refills, as a bucket. -/
def found (db : Redis) (key : String) (rate burst now : ℤ) : ℚ × ℤ :=
  refillTokens (((hget db key now).map Hash.tokens).getD burst)
    (((hget db key now).map Hash.lastRefill).getD now) rate burst now

theorem rateLimitScript_eq (x : Expiry) (db : Redis) (key : String) (rate burst now : ℤ) :
    let p := found db key rate burst now
    let r := spend (⟨p.1, p.2⟩ : Bucket ℚ)
    rateLimitScript x db key rate burst now = (r.1, hset x db key r.2.tokens p.2 now) := by
  intro p r
  by_cases h : 1 ≤ p.1
  · have hs : r = (true, ⟨p.1 - 1, p.2⟩) := if_pos h
    rw [hs]
    exact if_pos h
  · have hs : r = (false, ⟨p.1, p.2⟩) := if_neg h
    rw [hs]
    exact if_neg h

/-- The hash of a tenant holds the bucket, as long as it is there; before the first call
the bucket is full. -/
def Mirrors (x : Expiry) (burst : ℤ) (db : Redis) (key : String) (b : Bucket ℚ) : Prop :=
  match db key with
  | none => b.tokens = burst
  | some h => b.tokens = h.tokens ∧ b.last = h.lastRefill ∧ h.goneAt = h.lastRefill + x.life 10

variable {b : Bucket ℚ} {now rate burst : ℤ} {db : Redis} {key tenantID : String} {x : Expiry}
  {limits : Limits}

theorem refill_of_full {rate burst : ℚ} (hr : 0 ≤ rate) {now : ℚ} (hfull : b.tokens = burst)
    (hlast : b.last ≤ now) : refill rate burst b now = ⟨burst, now⟩ := by
  rcases hlast.lt_or_eq with hlt | heq
  · apply refill_full hlt
    have hgain := mul_nonneg (sub_nonneg.mpr hlt.le) hr
    linarith
  · rw [refill_self rate burst heq, ← hfull, ← heq]

theorem refillTokens_now {lastRefill : ℤ} (h : lastRefill ≤ now) (tokens : ℚ) (rate burst : ℤ) :
    (refillTokens tokens lastRefill rate burst now).2 = now := by
  unfold refillTokens
  dsimp only
  split
  · rfl
  · show lastRefill = now
    omega

/- A key that is not there is found full. -/
theorem found_missing (h : hget db key now = none) (rate burst : ℤ) :
    found db key rate burst now = ((burst : ℚ), now) := by
  simp [found, h, refillTokens]

/- By the time the key is gone the bucket is full again. -/
theorem full_when_gone (hr : (0 : ℚ) ≤ (rate : ℚ) / 1000) (hlife : 1000 * burst ≤ rate * x.life 10)
    {last : ℤ} (hpast : last + x.life 10 ≤ now) :
    (burst : ℚ) ≤ ((now : ℚ) - last) * (rate / 1000) := by
  have hwait : ((x.life 10 : ℕ) : ℚ) ≤ (now : ℚ) - last := by
    have hcast : (last : ℚ) + ((x.life 10 : ℕ) : ℚ) ≤ now := by exact_mod_cast hpast
    linarith
  have hcond : (1000 : ℚ) * burst ≤ rate * ((x.life 10 : ℕ) : ℚ) := by exact_mod_cast hlife
  have hmul := mul_le_mul_of_nonneg_right hwait hr
  have hsame : ((x.life 10 : ℕ) : ℚ) * (rate / 1000) = rate * ((x.life 10 : ℕ) : ℚ) / 1000 := by
    ring
  linarith

/-- What the script finds and refills is the refilled bucket, in each of the three cases:
no key yet, a live key, a key that is gone. -/
theorem found_eq (hr : 0 ≤ rate) (hlife : 1000 * burst ≤ rate * x.life 10)
    (hm : Mirrors x burst db key b) (hb : Sound (burst : ℚ) b now) :
    refill ((rate : ℚ) / 1000) burst b now =
        ⟨(found db key rate burst now).1, (found db key rate burst now).2⟩ ∧
      (found db key rate burst now).2 = now := by
  have hrate : (0 : ℚ) ≤ (rate : ℚ) / 1000 := div_nonneg (by exact_mod_cast hr) (by norm_num)
  unfold Mirrors at hm
  cases hdb : db key with
  | none =>
    rw [hdb] at hm
    rw [found_missing (by rw [hget, hdb]; rfl)]
    exact ⟨refill_of_full hrate hm hb.last_le, rfl⟩
  | some h =>
    rw [hdb] at hm
    obtain ⟨htokens, hlast, hgone⟩ := hm
    by_cases hlive : now < h.goneAt
    · have hsome : hget db key now = some h := by
        rw [hget, hdb, Option.filter_some, if_pos (by simpa using hlive)]
      have hfound : found db key rate burst now =
          refillTokens h.tokens h.lastRefill rate burst now := by
        simp [found, hsome]
      have hb' : b = ⟨h.tokens, h.lastRefill⟩ := by
        rw [← htokens, ← hlast]
      have hle : h.lastRefill ≤ now := by
        have hle' := hb.last_le
        rw [hlast] at hle'
        exact_mod_cast hle'
      rw [hfound, hb']
      exact ⟨refill_eq _ _ _ _ _, refillTokens_now hle _ _ _⟩
    · have hnone : hget db key now = none := by
        rw [hget, hdb, Option.filter_some, if_neg (by simpa using hlive)]
      have hpast : h.lastRefill + x.life 10 ≤ now := by
        rw [← hgone]
        exact not_lt.mp hlive
      have hlater : h.lastRefill < now := by
        have hlong := x.not_early 10
        omega
      rw [found_missing hnone]
      refine ⟨refill_full ?_ ?_, rfl⟩
      · rw [hlast]
        exact_mod_cast hlater
      · have hfull := full_when_gone hrate hlife hpast
        have hnonneg := hb.nonneg
        rw [hlast]
        linarith

theorem script_request (hr : 0 ≤ rate) (hlife : 1000 * burst ≤ rate * x.life 10)
    (hm : Mirrors x burst db key b) (hb : Sound (burst : ℚ) b now) :
    (rateLimitScript x db key rate burst now).1 = (request ((rate : ℚ) / 1000) burst b now).1 ∧
      Mirrors x burst (rateLimitScript x db key rate burst now).2 key
        (request ((rate : ℚ) / 1000) burst b now).2 := by
  obtain ⟨hfound, hnow⟩ := found_eq hr hlife hm hb
  have hscript := rateLimitScript_eq x db key rate burst now
  obtain ⟨-, hkept⟩ := spend_paid (refill ((rate : ℚ) / 1000) burst b now)
  rw [hscript, request, hfound]
  refine ⟨rfl, ?_⟩
  rw [hfound] at hkept
  simp only [Mirrors, hset, Function.update_self]
  exact ⟨trivial, hkept, by rw [hnow]⟩

/-! ### Runs -/

theorem allow_other {t t' : String} (h : t' ≠ t) (x : Expiry) (limits : Limits) (db : Redis)
    (now : ℤ) : (allow x limits db true t' now).2 (tenantKey t) = db (tenantKey t) := by
  have hkey : tenantKey t ≠ tenantKey t' := fun hk => h (tenantKey_inj hk).symm
  have hscript := rateLimitScript_eq x db (tenantKey t') (getLimit limits t').1
    (getLimit limits t').2 now
  simp only [allow, if_true, hscript, hset, Function.update_of_ne hkey]

def timesOf (tenantID : String) (calls : List Call) : List ℚ :=
  (calls.filter fun c => decide (c.tenantID = tenantID)).map fun c => (c.nowMs : ℚ)

theorem timesOf_sorted {calls : List Call} (hs : calls.Pairwise fun c c' => c.nowMs ≤ c'.nowMs)
    (tenantID : String) : (timesOf tenantID calls).Pairwise (· ≤ ·) := by
  apply List.pairwise_map.mpr
  apply (hs.filter _).imp
  intro c c' h
  exact_mod_cast h

/- One answer counts for the tenant as it counts for the bucket. -/
theorem admitted_cons_own {c : Call} (h : c.tenantID = tenantID) (ok : Bool) (a : ℤ) (d : ℕ)
    {rs : List (Call × Bool)} {ps : List (ℚ × Bool)}
    (hrest : admitted tenantID a d rs = granted (a : ℚ) (a + d) ps) :
    admitted tenantID a d ((c, ok) :: rs) = granted (a : ℚ) (a + d) (((c.nowMs : ℚ), ok) :: ps) := by
  have hfrom : ((a : ℚ) ≤ c.nowMs) ↔ a ≤ c.nowMs := Int.cast_le
  have hto : ((c.nowMs : ℚ) ≤ a + d) ↔ c.nowMs ≤ a + d := by exact_mod_cast Iff.rfl
  unfold admitted granted at *
  rw [List.countP_cons, List.countP_cons, hrest]
  simp only [h, hfrom, hto, decide_true, Bool.and_true, Bool.and_assoc]

theorem admitted_cons_other {c : Call} (h : c.tenantID ≠ tenantID) (ok : Bool) (a : ℤ) (d : ℕ)
    (rs : List (Call × Bool)) :
    admitted tenantID a d ((c, ok) :: rs) = admitted tenantID a d rs := by
  unfold admitted
  rw [List.countP_cons_of_neg]
  simp [h]

/-- Where the limit allows it, a tenant is served like the bucket that is never dropped,
whatever other tenants do in between. -/
theorem admitted_eq_granted (hl : getLimit limits tenantID = (rate, burst)) (hr : 0 ≤ rate)
    (hlife : 1000 * burst ≤ rate * x.life 10) (a : ℤ) (d : ℕ) (calls : List Call) (db : Redis)
    (b : Bucket ℚ) (hm : Mirrors x burst db (tenantKey tenantID) b)
    (hb : ∀ c ∈ calls, Sound (burst : ℚ) b c.nowMs)
    (hs : calls.Pairwise fun c c' => c.nowMs ≤ c'.nowMs) :
    admitted tenantID a d (answers x limits db calls) =
      granted (a : ℚ) (a + d) (served ((rate : ℚ) / 1000) burst b (timesOf tenantID calls)) := by
  have hrate : (0 : ℚ) ≤ (rate : ℚ) / 1000 := div_nonneg (by exact_mod_cast hr) (by norm_num)
  induction calls generalizing db b with
  | nil => rfl
  | cons c calls ih =>
    obtain ⟨hle, hs'⟩ := List.pairwise_cons.mp hs
    have hsound := hb c (List.mem_cons_self ..)
    by_cases hown : c.tenantID = tenantID
    · have htimes : timesOf tenantID (c :: calls) = (c.nowMs : ℚ) :: timesOf tenantID calls := by
        simp [timesOf, hown]
      have hallow : allow x limits db true c.tenantID c.nowMs =
          rateLimitScript x db (tenantKey tenantID) rate burst c.nowMs := by
        simp [allow, hown, hl]
      obtain ⟨hok, hm'⟩ := script_request hr hlife hm hsound
      rw [htimes, answers, hallow, served, ← hok]
      apply admitted_cons_own hown
      apply ih _ _ hm' _ hs'
      intro c' hc'
      exact (request_sound hrate hsound).later (by exact_mod_cast hle c' hc')
    · have htimes : timesOf tenantID (c :: calls) = timesOf tenantID calls := by
        simp [timesOf, hown]
      rw [htimes, answers, admitted_cons_other hown]
      apply ih _ _ _ (fun c' hc' => hb c' (List.mem_cons_of_mem _ hc')) hs'
      unfold Mirrors at hm ⊢
      rw [allow_other hown]
      exact hm

theorem rate_bounded (hl : getLimit limits tenantID = (rate, burst)) (hr : 0 ≤ rate)
    (hb : 0 ≤ burst) (hlife : 1000 * burst ≤ rate * x.life 10) :
    RateBounded x limits tenantID rate burst := by
  intro calls hs a d
  have hrate : (0 : ℚ) ≤ (rate : ℚ) / 1000 := div_nonneg (by exact_mod_cast hr) (by norm_num)
  have hburst : (0 : ℚ) ≤ burst := by exact_mod_cast hb
  -- a full bucket that was last filled no later than the first call
  obtain ⟨t, ht⟩ : ∃ t : ℤ, ∀ c ∈ calls, t ≤ c.nowMs := by
    cases calls with
    | nil => exact ⟨0, nofun⟩
    | cons c calls =>
      refine ⟨c.nowMs, fun c' hc' => ?_⟩
      rcases List.mem_cons.mp hc' with rfl | hc'
      · exact le_refl _
      · exact (List.pairwise_cons.mp hs).1 c' hc'
  have hfull : ∀ now : ℤ, t ≤ now → Sound (burst : ℚ) (⟨burst, t⟩ : Bucket ℚ) now :=
    fun now hnow => ⟨hburst, le_refl _, Int.cast_le.mpr hnow⟩
  rw [admitted_eq_granted hl hr hlife a d calls (fun _ => none) ⟨burst, t⟩ rfl
    (fun c hc => hfull _ (ht c hc)) hs]
  have hbound := granted_le hrate (a : ℚ) (a + d) (by simp) (timesOf tenantID calls)
    ⟨(burst : ℚ), (t : ℚ)⟩
    (by
      intro q hq
      obtain ⟨c, hc, rfl⟩ := List.mem_map.mp hq
      exact hfull _ (ht c (List.mem_filter.mp hc).1))
    hburst (timesOf_sorted hs tenantID)
  have hwindow : ((a : ℚ) + d - a) * (rate / 1000) = rate * d / 1000 := by ring
  rw [hwindow] at hbound
  exact hbound

/-! ### A burst before the key expires and one after -/

/- A bucket of `m + 1` tokens answers one call and is left with `m`. -/
theorem allow_found (hl : getLimit limits tenantID = (rate, burst)) {m : ℕ}
    (h : found db (tenantKey tenantID) rate burst now = (((m + 1 : ℕ) : ℚ), now)) :
    let db' := (allow x limits db true tenantID now).2
    (allow x limits db true tenantID now).1 = true ∧
      db' (tenantKey tenantID) = some ⟨m, now, now + x.life 10⟩ ∧
      found db' (tenantKey tenantID) rate burst now = ((m : ℚ), now) := by
  have hone : (1 : ℚ) ≤ ((m + 1 : ℕ) : ℚ) := by
    push_cast
    linarith [Nat.cast_nonneg (α := ℚ) m]
  have hscript := rateLimitScript_eq x db (tenantKey tenantID) rate burst now
  have hspend : spend (⟨((m + 1 : ℕ) : ℚ), (now : ℚ)⟩ : Bucket ℚ) = (true, ⟨m, now⟩) := by
    rw [spend, if_pos hone]
    push_cast
    rw [add_sub_cancel_right]
  have hallow : allow x limits db true tenantID now =
      (true, hset x db (tenantKey tenantID) m now now) := by
    simp only [allow, if_true, hl, hscript, h, hspend]
  intro db'
  have hkey : db' (tenantKey tenantID) = some ⟨m, now, now + x.life 10⟩ := by
    simp only [db', hallow, hset, Function.update_self]
  have hlive : now < now + (x.life 10 : ℤ) := by
    have hlong := x.not_early 10
    omega
  have hget' : hget db' (tenantKey tenantID) now = some ⟨m, now, now + x.life 10⟩ := by
    rw [hget, hkey, Option.filter_some, if_pos (by simpa using hlive)]
  refine ⟨by rw [hallow], hkey, ?_⟩
  simp [found, hget', refillTokens]

theorem answers_burst (hl : getLimit limits tenantID = (rate, burst)) (now : ℤ) (rest : List Call)
    (m : ℕ) (db : Redis)
    (h : found db (tenantKey tenantID) rate burst now = (((m + 1 : ℕ) : ℚ), now)) :
    ∃ db', db' (tenantKey tenantID) = some ⟨0, now, now + x.life 10⟩ ∧
      answers x limits db (List.replicate (m + 1) ⟨tenantID, now⟩ ++ rest) =
        List.replicate (m + 1) (⟨tenantID, now⟩, true) ++ answers x limits db' rest := by
  induction m generalizing db with
  | zero =>
    obtain ⟨hok, hkey, -⟩ := allow_found (x := x) hl h
    refine ⟨_, by simpa using hkey, ?_⟩
    simp [answers, hok]
  | succ m ih =>
    obtain ⟨hok, -, hleft⟩ := allow_found (x := x) hl h
    obtain ⟨db', hkey, hrest⟩ := ih _ hleft
    refine ⟨db', hkey, ?_⟩
    rw [List.replicate_succ, List.cons_append, answers, hrest, hok]
    rfl

/- A burst at time 0, and another at the first millisecond without the key. -/
def twoBursts (x : Expiry) (tenantID : String) (n : ℕ) : List Call :=
  List.replicate n ⟨tenantID, 0⟩ ++ List.replicate n ⟨tenantID, x.life 10⟩

theorem twoBursts_sorted (x : Expiry) (tenantID : String) (n : ℕ) :
    (twoBursts x tenantID n).Pairwise fun c c' => c.nowMs ≤ c'.nowMs := by
  unfold twoBursts
  rw [List.pairwise_append]
  refine ⟨?_, ?_, ?_⟩
  · exact List.pairwise_replicate.mpr (Or.inr (le_refl _))
  · exact List.pairwise_replicate.mpr (Or.inr (le_refl _))
  · intro c hc c' hc'
    rw [List.eq_of_mem_replicate hc, List.eq_of_mem_replicate hc']
    exact Int.natCast_nonneg _

theorem twoBursts_answers {m : ℕ} (hl : getLimit limits tenantID = (rate, ((m + 1 : ℕ) : ℤ))) :
    answers x limits (fun _ => none) (twoBursts x tenantID (m + 1)) =
      List.replicate (m + 1) (⟨tenantID, 0⟩, true) ++
        List.replicate (m + 1) (⟨tenantID, x.life 10⟩, true) := by
  obtain ⟨db, hkey, hfirst⟩ := answers_burst (x := x) hl 0
    (List.replicate (m + 1) ⟨tenantID, x.life 10⟩) m (fun _ => none) (found_missing rfl _ _)
  have hgone : hget db (tenantKey tenantID) (x.life 10) = none := by
    rw [hget, hkey, Option.filter_some, if_neg (by simp)]
  obtain ⟨db', -, hsecond⟩ := answers_burst (x := x) hl (x.life 10) [] m db
    (found_missing hgone _ _)
  rw [twoBursts, hfirst]
  rw [List.append_nil] at hsecond
  rw [hsecond, answers, List.append_nil]

theorem twoBursts_admitted (x : Expiry) (tenantID : String) (n : ℕ) :
    admitted tenantID 0 (x.life 10) (List.replicate n (⟨tenantID, 0⟩, true) ++
      List.replicate n (⟨tenantID, x.life 10⟩, true)) = n + n := by
  unfold admitted
  rw [List.countP_append, List.countP_replicate, List.countP_replicate]
  simp

/-- The bound of a limit holds if and only if a drained bucket is full again by the time
Redis drops it: about ten times the rate is the largest burst. -/
theorem tenant_rate_bound_iff (x : Expiry) (limits : Limits) (tenantID : String) (rate burst : ℤ)
    (hr : 1 ≤ rate) (hb : 1 ≤ burst) :
    RateBounded x (setLimit limits tenantID rate burst) tenantID rate burst ↔
      1000 * burst ≤ rate * x.life 10 := by
  have hl := getLimit_setLimit limits tenantID rate burst
  refine ⟨?_, rate_bounded hl (by omega) (by omega)⟩
  intro hbound
  obtain ⟨m, rfl⟩ : ∃ m : ℕ, burst = ((m + 1 : ℕ) : ℤ) := ⟨(burst - 1).toNat, by omega⟩
  have htwo := hbound _ (twoBursts_sorted x tenantID (m + 1)) 0 (x.life 10)
  rw [twoBursts_answers hl, twoBursts_admitted] at htwo
  have hcast : (1000 : ℚ) * ((m + 1 : ℕ) : ℤ) ≤ rate * x.life 10 := by
    push_cast at htwo ⊢
    linarith
  exact_mod_cast hcast

/- A key is gone when the clock is past its deadline. -/
def pastDeadline : Expiry := ⟨fun s => 1000 * s + 1, fun _ => Nat.le_succ _, fun _ => le_refl _⟩

/- The default limit is within the condition. -/
theorem default_rate_bounded :
    RateBounded pastDeadline (setLimit (fun _ => none) "default" defaultReqPerSec defaultBurst)
      "default" defaultReqPerSec defaultBurst :=
  (tenant_rate_bound_iff pastDeadline _ "default" defaultReqPerSec defaultBurst (by decide)
    (by decide)).mpr (by decide)

/-- With one request a second and a burst of 11, twenty-two requests are let through in 10001
milliseconds instead of at most twenty-one. -/
theorem burst_again_after_expiry :
    ¬ RateBounded pastDeadline (setLimit (fun _ => none) "t" 1 11) "t" 1 11 := by
  intro hbound
  have htwo := hbound _ (twoBursts_sorted pastDeadline "t" 11) 0 (pastDeadline.life 10)
  have hl : getLimit (setLimit (fun _ => none) "t" 1 11) "t" = (1, ((10 + 1 : ℕ) : ℤ)) :=
    getLimit_setLimit _ _ _ _
  rw [twoBursts_answers (x := pastDeadline) hl, twoBursts_admitted] at htwo
  have hlife : pastDeadline.life 10 = 10001 := rfl
  rw [hlife] at htwo
  norm_num at htwo

end EdgeDispatch.ControlPlane.TenantRateLimit
