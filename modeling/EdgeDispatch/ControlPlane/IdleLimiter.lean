import EdgeDispatch.ControlPlane.ApiRateLimit

/-! # The rate limiter after an idle time (internal/controlplane/api.go:83-117, 214)

Calls of `Allow` one after the other. The refill is computed by a product of the elapsed
nanoseconds and the rate, which wraps around. -/

namespace EdgeDispatch.ControlPlane.ApiRateLimit
open Lib.GoInt64 Lib.Transition

structure Bucket where
  tokens : ℤ
  lastTime : ℤ
  deriving DecidableEq

def allow (l : Limit) (b : Bucket) (now : ℤ) : Bucket × Bool :=
  if newTokens l now b.lastTime ≤ 0 then
    if b.tokens ≤ 0 then (b, false) else ({ b with tokens := int64 (b.tokens - 1) }, true)
  else if capped l b.tokens (newTokens l now b.lastTime) ≤ 0 then (b, false)
  else (⟨capped l b.tokens (newTokens l now b.lastTime) - 1, now⟩, true)

/- A limiter made at `start`, after calls at the times `calls`. -/
def afterCalls (l : Limit) (start : ℤ) (calls : List ℤ) : Bucket :=
  calls.foldl (fun b now => (allow l b now).1) ⟨l.burst, start⟩

/- The limiters of the API (api.go:214) and of the admin login (admin_api.go:193). -/
def apiLimit : Limit := ⟨100000, 200000, by decide, by decide, by decide, by decide⟩
def adminLoginLimit : Limit := ⟨5, 10, by decide, by decide, by decide, by decide⟩

/-- The product, as far as 64 bits show it, is a whole token or more, and the new number of
tokens is one too; or there is a token left. -/
def Available (l : Limit) (b : Bucket) (now : ℤ) : Prop :=
  if 10 ^ 9 ≤ (now - b.lastTime) * l.rate % 2 ^ 64 ∧ (now - b.lastTime) * l.rate % 2 ^ 64 < 2 ^ 63
  then b.tokens + (now - b.lastTime) * l.rate % 2 ^ 64 / 10 ^ 9 < 2 ^ 63
  else 0 < b.tokens

/-! ### One call among the interleaved ones -/

section Refines
variable {ι : Type} [DecidableEq ι]

def State.bucket (s : State ι) : Bucket := ⟨s.tokens, s.lastTime⟩

/-- A call that no other call interrupts does what `allow` does. -/
theorem allow_refines (l : Limit) (s : State ι) (i : ι) (hidle : s.pc i = .idle) :
    ∃ acts s', exec (step l) acts s = some s' ∧ s'.bucket = (allow l s.bucket s.clock).1 ∧
      s'.pc = Function.update s.pc i (.returned (allow l s.bucket s.clock).2) := by
  by_cases hnone : newTokens l s.clock s.lastTime ≤ 0
  · by_cases htokens : s.tokens ≤ 0
    · refine ⟨[.enter i, .run i, .run i], goto s i (.returned false), ?_, ?_⟩
      · simp [exec, step, goto, hidle, afterLast, hnone, htokens]
      · simp [allow, State.bucket, goto, hnone, htokens]
    · refine ⟨[.enter i, .run i, .run i, .run i], goto
        { s with tokens := int64 (s.tokens - 1), admitted := s.admitted + 1 } i (.returned true),
        ?_, ?_⟩
      · simp [exec, step, goto, hidle, afterLast, hnone, htokens]
      · simp [allow, State.bucket, goto, hnone, htokens]
  · by_cases hcapped : capped l s.tokens (newTokens l s.clock s.lastTime) ≤ 0
    · refine ⟨[.enter i, .run i, .run i], goto s i (.returned false), ?_, ?_⟩
      · simp [exec, step, goto, hidle, afterLast, afterOld, hnone, hcapped]
      · simp [allow, State.bucket, goto, hnone, hcapped]
    · refine ⟨[.enter i, .run i, .run i, .run i, .run i], goto
        { s with tokens := capped l s.tokens (newTokens l s.clock s.lastTime) - 1
                 admitted := s.admitted + 1
                 lastTime := s.clock } i (.returned true), ?_, ?_⟩
      · simp [exec, step, goto, hidle, afterLast, afterOld, hnone, hcapped]
      · simp [allow, State.bucket, goto, hnone, hcapped]

end Refines

/-! ### The tokens between two calls -/

/-- What every sequence of calls keeps. -/
structure InRange (l : Limit) (b : Bucket) : Prop where
  nonneg : 0 ≤ b.tokens
  le_burst : b.tokens ≤ l.burst

variable {b : Bucket}

theorem allow_inRange {l : Limit} (h : InRange l b) (now : ℤ) : InRange l (allow l b now).1 := by
  obtain ⟨hnonneg, hle⟩ := h
  have hburst := l.burst_fits
  unfold allow
  split
  · split
    · exact ⟨hnonneg, hle⟩
    · have hless : int64 (b.tokens - 1) = b.tokens - 1 := int64_eq (by omega) (by omega)
      refine ⟨?_, ?_⟩
      · show 0 ≤ int64 (b.tokens - 1)
        omega
      · show int64 (b.tokens - 1) ≤ l.burst
        omega
  · rename_i hpos
    split
    · exact ⟨hnonneg, hle⟩
    · rename_i hcapped
      have hcap := (capped_le l hnonneg (Int.not_le.mp hpos)).2
      refine ⟨?_, ?_⟩
      · show 0 ≤ capped l b.tokens (newTokens l now b.lastTime) - 1
        omega
      · show capped l b.tokens (newTokens l now b.lastTime) - 1 ≤ l.burst
        omega

theorem afterCalls_inRange (l : Limit) (start : ℤ) (calls : List ℤ) :
    InRange l (afterCalls l start calls) := by
  have hrange : ∀ b, InRange l b → InRange l (calls.foldl (fun b now => (allow l b now).1) b) := by
    induction calls with
    | nil => exact fun b hb => hb
    | cons now calls ih => exact fun b hb => ih _ (allow_inRange hb now)
  have hburst := l.burst_pos
  exact hrange _ ⟨by show 0 ≤ l.burst; omega, Int.le_refl _⟩

/-! ### When a call is admitted -/

theorem tdiv_second_pos_iff {product : ℤ} : 0 < product.tdiv second ↔ 10 ^ 9 ≤ product := by
  unfold second
  by_cases hneg : 0 ≤ product
  · rw [Int.tdiv_eq_ediv_of_nonneg hneg]
    omega
  · have hflip := Int.neg_tdiv product (10 ^ 9)
    have hnonneg : 0 ≤ (-product).tdiv (10 ^ 9) := Int.tdiv_nonneg (by omega) (by decide)
    omega

theorem newTokens_eq (l : Limit) (now last : ℤ) :
    newTokens l now last = (int64 ((now - last) * l.rate)).tdiv second := by
  have hwrap : int64 (int64 (now - last) * l.rate) = int64 ((now - last) * l.rate) :=
    Int.bmod_mul_bmod
  rw [newTokens, hwrap]

theorem newTokens_pos_iff (l : Limit) (now last : ℤ) :
    0 < newTokens l now last ↔
      10 ^ 9 ≤ (now - last) * l.rate % 2 ^ 64 ∧ (now - last) * l.rate % 2 ^ 64 < 2 ^ 63 := by
  rw [newTokens_eq, tdiv_second_pos_iff]
  generalize (now - last) * l.rate = product
  unfold int64
  rw [Int.bmod_def]
  split
  · omega
  · omega

theorem newTokens_eq_of_pos (l : Limit) {now last : ℤ} (h : 0 < newTokens l now last) :
    newTokens l now last = (now - last) * l.rate % 2 ^ 64 / 10 ^ 9 := by
  have hbounds := (newTokens_pos_iff l now last).mp h
  rw [newTokens_eq]
  generalize (now - last) * l.rate = product at hbounds
  have hproduct : int64 product = product % 2 ^ 64 := by
    unfold int64
    rw [Int.bmod_def]
    split
    · rfl
    · omega
  rw [hproduct, Int.tdiv_eq_ediv_of_nonneg (by omega)]
  rfl

/- The counter wraps around to a negative number if it does not fit. -/
theorem capped_pos_iff {l : Limit} (h : InRange l b) {nt : ℤ} (hpos : 0 < nt) (hfits : nt < 2 ^ 63) :
    0 < capped l b.tokens nt ↔ b.tokens + nt < 2 ^ 63 := by
  obtain ⟨hnonneg, hle⟩ := h
  have hburst := l.burst_pos
  have hburst' := l.burst_fits
  obtain ⟨k, hk⟩ := int64_cases (b.tokens + nt)
  unfold capped
  split
  · omega
  · omega

theorem allow_iff_available {l : Limit} (h : InRange l b) (now : ℤ) :
    (allow l b now).2 = true ↔ Available l b now := by
  have hpos := newTokens_pos_iff l now b.lastTime
  unfold allow Available
  by_cases hnone : newTokens l now b.lastTime ≤ 0
  · rw [if_pos hnone, if_neg fun hbounds => Int.not_lt.mpr hnone (hpos.mpr hbounds)]
    by_cases htokens : b.tokens ≤ 0
    · rw [if_pos htokens]
      exact iff_of_false (by simp) (Int.not_lt.mpr htokens)
    · rw [if_neg htokens]
      exact iff_of_true rfl (Int.not_le.mp htokens)
  · have hsome := Int.not_le.mp hnone
    have hbounds := hpos.mp hsome
    have hvalue := newTokens_eq_of_pos l hsome
    have hcapped := capped_pos_iff h hsome (by omega)
    rw [if_neg hnone, if_pos hbounds, ← hvalue, ← hcapped]
    by_cases hnv : capped l b.tokens (newTokens l now b.lastTime) ≤ 0
    · rw [if_pos hnv]
      exact iff_of_false (by simp) (Int.not_lt.mpr hnv)
    · rw [if_neg hnv]
      exact iff_of_true rfl (Int.not_le.mp hnv)

/-- After an idle time that is worth a token, a call is admitted just if the product shows it
or there is a token left. The counter does not overflow at the limits that are configured. -/
theorem idle_call_admitted_iff (l : Limit) (start : ℤ) (calls : List ℤ) (now : ℤ)
    (hidle : 10 ^ 9 ≤ (now - (afterCalls l start calls).lastTime) * l.rate) :
    ((allow l (afterCalls l start calls) now).2 = true ↔ Available l (afterCalls l start calls) now) ∧
    (l = apiLimit ∨ l = adminLoginLimit →
      (Available l (afterCalls l start calls) now ↔ 0 < (afterCalls l start calls).tokens ∨
        10 ^ 9 ≤ (now - (afterCalls l start calls).lastTime) * l.rate % 2 ^ 64 ∧
          (now - (afterCalls l start calls).lastTime) * l.rate % 2 ^ 64 < 2 ^ 63)) := by
  have hrange := afterCalls_inRange l start calls
  refine ⟨allow_iff_available hrange now, fun hconfigured => ?_⟩
  have hburst : l.burst ≤ 200000 := by
    rcases hconfigured with rfl | rfl <;> decide
  have hle := hrange.le_burst
  unfold Available
  split
  · rename_i hbounds
    refine iff_of_true ?_ (Or.inr hbounds)
    omega
  · rename_i hout
    exact ⟨Or.inl, fun h => h.resolve_right hout⟩

/- Five tokens a second: one second of rest is enough. -/
theorem idle_login_admitted :
    (allow adminLoginLimit (afterCalls adminLoginLimit 0 (List.replicate 10 0)) 1000000000).2 =
      true := by
  have hidle : 10 ^ 9 ≤ (1000000000 - (afterCalls adminLoginLimit 0 (List.replicate 10 0)).lastTime) *
      adminLoginLimit.rate := by
    decide +kernel
  obtain ⟨hiff, hconfigured⟩ :=
    idle_call_admitted_iff adminLoginLimit 0 (List.replicate 10 0) 1000000000 hidle
  rw [hiff, hconfigured (Or.inr rfl)]
  right
  decide +kernel

/-! ### An empty bucket and a long rest -/

/- Calls in the moment of the last refill take what there is. -/
theorem afterCalls_drained (l : Limit) (start : ℤ) (n : ℕ) (hn : (n : ℤ) ≤ l.burst) :
    afterCalls l start (List.replicate n start) = ⟨l.burst - n, start⟩ := by
  induction n with
  | zero => rw [Int.natCast_zero, Int.sub_zero]; rfl
  | succ n ih =>
    have hburst := l.burst_fits
    have hzero : newTokens l start start ≤ 0 := by simp [newTokens_eq, int64]
    have hsome : ¬ l.burst - (n : ℤ) ≤ 0 := by omega
    rw [List.replicate_succ', afterCalls, List.foldl_append, List.foldl_cons, List.foldl_nil]
    rw [afterCalls] at ih
    rw [ih (by omega)]
    simp only [allow, if_pos hzero, if_neg hsome, Bucket.mk.injEq, and_true]
    rw [int64_eq (by omega) (by omega)]
    omega

/- The 200000 tokens are taken at once; after 92233.72 seconds of rest, worth more than nine
billion tokens, the next call is refused. -/
theorem idle_api_call_refused :
    afterCalls apiLimit 0 (List.replicate 200000 0) = ⟨0, 0⟩ ∧
      10 ^ 9 ≤ (92233720368548 - (afterCalls apiLimit 0 (List.replicate 200000 0)).lastTime) *
        apiLimit.rate ∧
      (allow apiLimit (afterCalls apiLimit 0 (List.replicate 200000 0)) 92233720368548).2 = false := by
  rw [afterCalls_drained apiLimit 0 200000 (by decide)]
  decide +kernel

end EdgeDispatch.ControlPlane.ApiRateLimit
