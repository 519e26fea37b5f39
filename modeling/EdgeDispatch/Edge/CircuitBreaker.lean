import EdgeDispatch.Lib.GoInt64
import Mathlib.Data.List.Induction

/-! # The circuit breaker of the fetcher (internal/edgeagent/fetcher.go:219-227, 242-292)

Every call is one step and is given the time that it reads from the clock, in nanoseconds. -/

namespace EdgeDispatch.Edge.CircuitBreaker
open Lib.GoInt64

/- The values 0, 1 and 2 of `state`. -/
inductive Mode where
  | closed
  | opened
  | halfOpen
  deriving DecidableEq

structure Breaker where
  state : Mode
  failures : Int32
  threshold : Int32
  recovery : ℤ
  lastFailure : ℤ
  successes : Int32
  deriving DecidableEq

def newCircuitBreaker (threshold : Int32) (recovery : ℤ) : Breaker :=
  ⟨.closed, 0, threshold, recovery, 0, 0⟩

/- `false` is the error "circuit breaker open". -/
def allow (cb : Breaker) (now : ℤ) : Breaker × Bool :=
  match cb.state with
  | .closed => (cb, true)
  | .opened =>
    if cb.recovery ≤ now - cb.lastFailure then
      ({ cb with state := .halfOpen, successes := 0 }, true)
    else (cb, false)
  | .halfOpen => (cb, true)

def recordFailure (cb : Breaker) (now : ℤ) : Breaker :=
  { cb with
    failures := cb.failures + 1
    lastFailure := now
    state := if cb.threshold ≤ cb.failures + 1 then .opened else cb.state }

def recordSuccess (cb : Breaker) : Breaker :=
  match cb.state with
  | .halfOpen =>
    if 3 ≤ cb.successes + 1 then
      { cb with successes := cb.successes + 1, state := .closed, failures := 0 }
    else { cb with successes := cb.successes + 1 }
  | .closed => { cb with failures := 0 }
  | .opened => cb

theorem recordSuccess_closed {cb : Breaker} (h : cb.state = .closed) :
    recordSuccess cb = { cb with failures := 0 } := by
  cases cb
  cases h
  rfl

theorem recordSuccess_halfOpen {cb : Breaker} (h : cb.state = .halfOpen) :
    recordSuccess cb = if 3 ≤ cb.successes + 1 then
      { cb with successes := cb.successes + 1, state := .closed, failures := 0 }
    else { cb with successes := cb.successes + 1 } := by
  cases cb
  cases h
  rfl

/-! ### Sequences of calls -/

inductive Call where
  | allow
  | failure
  | success
  deriving DecidableEq

structure Event where
  now : ℤ
  call : Call
  deriving DecidableEq

def step (cb : Breaker) (e : Event) : Breaker :=
  match e.call with
  | .allow => (allow cb e.now).1
  | .failure => recordFailure cb e.now
  | .success => recordSuccess cb

def isFailure (e : Event) : Bool := e.call = .failure
def isSuccess (e : Event) : Bool := e.call = .success

section History
variable (threshold : Int32) (recovery : ℤ)

def run (history : List Event) : Breaker :=
  history.foldl step (newCircuitBreaker threshold recovery)

theorem run_concat (history : List Event) (e : Event) :
    run threshold recovery (history ++ [e]) = step (run threshold recovery history) e := by
  rw [run, List.foldl_append, List.foldl_cons, List.foldl_nil]
  rfl

/- A breaker is closed by a success, so these are the failures since then as well. -/
def failuresSince (history : List Event) : ℕ :=
  (history.reverse.takeWhile fun e => !isSuccess e).countP isFailure

def latestFailure (history : List Event) : Option ℤ :=
  (history.reverse.find? isFailure).map Event.now

/-- `since` are the calls after the one that made the breaker half-open. -/
structure HalfOpenSince (before : List Event) (opening : Event) (since : List Event) : Prop where
  was_opened : (run threshold recovery before).state = .opened
  stayed : ∀ k ≤ since.length,
    (run threshold recovery (before ++ opening :: since.take k)).state = .halfOpen
  no_failure : ∀ e ∈ since, isFailure e = false

/-- What the fields say about the calls so far. -/
structure Tracked (history : List Event) (cb : Breaker) : Prop where
  threshold_eq : cb.threshold = threshold
  recovery_eq : cb.recovery = recovery
  nonneg : 0 ≤ cb.failures.toInt
  le_count : cb.failures.toInt ≤ history.countP isFailure
  closed : cb.state = .closed →
    cb.failures.toInt = failuresSince history ∧ cb.failures.toInt < threshold.toInt
  reached : cb.state ≠ .closed → threshold.toInt ≤ cb.failures.toInt
  latest : ∀ t, latestFailure history = some t → cb.lastFailure = t
  halfOpen : cb.state = .halfOpen → ∃ before opening since,
    history = before ++ opening :: since ∧ HalfOpenSince threshold recovery before opening since ∧
      cb.successes.toInt = since.countP isSuccess ∧ cb.successes.toInt < 3

end History

/-! ### One more call -/

section Concat
variable (history : List Event) {e : Event}

theorem failuresSince_success (h : e.call = .success) : failuresSince (history ++ [e]) = 0 := by
  simp [failuresSince, isSuccess, h]

theorem failuresSince_failure (h : e.call = .failure) :
    failuresSince (history ++ [e]) = failuresSince history + 1 := by
  simp [failuresSince, isSuccess, isFailure, h]

theorem failuresSince_allow (h : e.call = .allow) :
    failuresSince (history ++ [e]) = failuresSince history := by
  simp [failuresSince, isSuccess, isFailure, h]

theorem latestFailure_concat :
    latestFailure (history ++ [e]) = if isFailure e then some e.now else latestFailure history := by
  rw [latestFailure, List.reverse_concat, List.find?_cons]
  split
  · rename_i hfailure
    rw [if_pos hfailure]
    rfl
  · rename_i hother
    rw [if_neg (by simp [hother])]
    rfl

theorem countP_isFailure_concat :
    (history ++ [e]).countP isFailure = history.countP isFailure + if isFailure e then 1 else 0 := by
  rw [List.countP_append, List.countP_singleton]

theorem countP_isFailure_other (h : isFailure e = false) :
    (history ++ [e]).countP isFailure = history.countP isFailure := by
  rw [countP_isFailure_concat, h]
  rfl

theorem latestFailure_other (h : isFailure e = false) :
    latestFailure (history ++ [e]) = latestFailure history := by
  rw [latestFailure_concat, h]
  rfl

end Concat

section Step
variable {threshold : Int32} {recovery : ℤ} {history before since : List Event} {opening e : Event}

theorem HalfOpenSince.concat (h : HalfOpenSince threshold recovery before opening since)
    (he : isFailure e = false)
    (hstate : (run threshold recovery (before ++ opening :: (since ++ [e]))).state = .halfOpen) :
    HalfOpenSince threshold recovery before opening (since ++ [e]) where
  was_opened := h.was_opened
  stayed k hk := by
    rcases Nat.lt_or_ge since.length k with hlt | hle
    · rwa [List.take_of_length_le (by simp; omega)]
    · rw [List.take_append_of_le_length hle]
      exact h.stayed k hle
  no_failure x hx := by
    rcases List.mem_append.mp hx with hx | hx
    · exact h.no_failure x hx
    · rw [List.mem_singleton.mp hx]
      exact he

theorem tracked_new (hthreshold : 1 ≤ threshold.toInt) :
    Tracked threshold recovery [] (run threshold recovery []) where
  threshold_eq := rfl
  recovery_eq := rfl
  nonneg := Int.le_refl _
  le_count := Int.le_refl _
  closed _ := ⟨rfl, hthreshold⟩
  reached h := absurd rfl h
  latest t h := by cases h
  halfOpen h := by cases h

/- A call that changes nothing. -/
theorem Tracked.unchanged (h : Tracked threshold recovery history (run threshold recovery history))
    (hstep : step (run threshold recovery history) e = run threshold recovery history)
    (he : isFailure e = false)
    (hclosed : (run threshold recovery history).state = .closed → e.call = .allow)
    (hhalf : (run threshold recovery history).state = .halfOpen → isSuccess e = false) :
    Tracked threshold recovery (history ++ [e]) (run threshold recovery (history ++ [e])) := by
  have hrun : run threshold recovery (history ++ [e]) = run threshold recovery history :=
    (run_concat threshold recovery history e).trans hstep
  have hcount := countP_isFailure_other history he
  have hlatest := latestFailure_other history he
  rw [hrun]
  refine ⟨h.threshold_eq, h.recovery_eq, h.nonneg, hcount ▸ h.le_count, fun hstate => ?_, h.reached,
    fun t ht => h.latest t (hlatest ▸ ht), fun hstate => ?_⟩
  · rw [failuresSince_allow history (hclosed hstate)]
    exact h.closed hstate
  · obtain ⟨before, opening, since, rfl, hsince, hcount, hlt⟩ := h.halfOpen hstate
    refine ⟨before, opening, since ++ [e], by simp, hsince.concat he ?_, ?_, hlt⟩
    · rw [← List.cons_append, ← List.append_assoc, hrun]
      exact hstate
    · rw [List.countP_append, List.countP_singleton, hhalf hstate]
      exact hcount

theorem tracked_allow (h : Tracked threshold recovery history (run threshold recovery history))
    (he : e.call = .allow) :
    Tracked threshold recovery (history ++ [e]) (run threshold recovery (history ++ [e])) := by
  have hfailure : isFailure e = false := by simp [isFailure, he]
  have hsuccess : isSuccess e = false := by simp [isSuccess, he]
  have hstep : step (run threshold recovery history) e =
      (allow (run threshold recovery history) e.now).1 := by
    rw [step, he]
  by_cases hrecovers : (run threshold recovery history).state = .opened ∧
      (run threshold recovery history).recovery ≤ e.now - (run threshold recovery history).lastFailure
  · -- the breaker becomes half-open by this call
    obtain ⟨hopened, htime⟩ := hrecovers
    have hrun : run threshold recovery (history ++ [e]) =
        { run threshold recovery history with state := .halfOpen, successes := 0 } := by
      rw [run_concat, hstep, allow, hopened]
      simp only [if_pos htime]
    have hcount := countP_isFailure_other history hfailure
    have hlatest := latestFailure_other history hfailure
    have hzero : (0 : Int32).toInt < 3 := by decide
    rw [hrun]
    refine ⟨h.threshold_eq, h.recovery_eq, h.nonneg, hcount ▸ h.le_count, nofun,
      fun _ => h.reached (by simp [hopened]), fun t ht => h.latest t (hlatest ▸ ht), fun _ => ?_⟩
    refine ⟨history, e, [], rfl, ⟨hopened, fun k _ => ?_, by simp⟩, rfl, hzero⟩
    rw [List.take_nil, hrun]
  · refine h.unchanged ?_ hfailure (fun _ => he) fun _ => hsuccess
    rw [hstep, allow]
    cases hstate : (run threshold recovery history).state with
    | closed => rfl
    | opened => simp only [if_neg fun htime => hrecovers ⟨hstate, htime⟩]
    | halfOpen => rfl

/- What one more failure makes of the breaker. Below the threshold it was closed, and stays so. -/
theorem Tracked.failure_cases {cb : Breaker} (h : Tracked threshold recovery history cb)
    (hfits : history.countP isFailure + 1 < 2 ^ 31) (now : ℤ) :
    (recordFailure cb now).failures.toInt = cb.failures.toInt + 1 ∧
      ((recordFailure cb now).state = .opened ∧ threshold.toInt ≤ cb.failures.toInt + 1 ∨
        (recordFailure cb now).state = .closed ∧ cb.state = .closed ∧
          cb.failures.toInt + 1 < threshold.toInt) := by
  have hle := h.le_count
  have hnonneg := h.nonneg
  have hnext := int32_toInt_add_one (a := cb.failures) (by omega)
  have htrips : cb.threshold ≤ cb.failures + 1 ↔ threshold.toInt ≤ cb.failures.toInt + 1 := by
    rw [h.threshold_eq, Int32.le_iff_toInt_le, hnext]
  refine ⟨hnext, ?_⟩
  by_cases hreached : threshold.toInt ≤ cb.failures.toInt + 1
  · exact Or.inl ⟨if_pos (htrips.mpr hreached), hreached⟩
  · have hclosed : cb.state = .closed := by
      by_contra hopen
      have hopened := h.reached hopen
      omega
    refine Or.inr ⟨(if_neg fun hle => hreached (htrips.mp hle)).trans hclosed, hclosed, ?_⟩
    omega

theorem tracked_failure (h : Tracked threshold recovery history (run threshold recovery history))
    (he : e.call = .failure) (hfits : (history ++ [e]).countP isFailure < 2 ^ 31) :
    Tracked threshold recovery (history ++ [e]) (run threshold recovery (history ++ [e])) := by
  have hfailure : isFailure e = true := by simp [isFailure, he]
  have hcount : (history ++ [e]).countP isFailure = history.countP isFailure + 1 := by
    rw [countP_isFailure_concat, if_pos hfailure]
  have hle := h.le_count
  have hnonneg := h.nonneg
  have hrun : run threshold recovery (history ++ [e]) =
      recordFailure (run threshold recovery history) e.now := by
    rw [run_concat, step, he]
  have hlatest : ∀ t, latestFailure (history ++ [e]) = some t → e.now = t := by
    rw [latestFailure_concat, if_pos hfailure]
    exact fun t ht => Option.some.inj ht
  obtain ⟨hnext, ⟨hstate, hreached⟩ | ⟨hstate, hclosed, hbelow⟩⟩ :=
    h.failure_cases (hcount ▸ hfits) e.now
  · rw [hrun]
    refine ⟨h.threshold_eq, h.recovery_eq, by omega, by omega, fun hc => ?_, fun _ => by omega,
      hlatest, fun hc => ?_⟩
    · cases hstate.symm.trans hc
    · cases hstate.symm.trans hc
  · have hsince := (h.closed hclosed).1
    rw [hrun]
    refine ⟨h.threshold_eq, h.recovery_eq, by omega, by omega, fun _ => ⟨?_, by omega⟩,
      fun hc => absurd hstate hc, hlatest, fun hc => ?_⟩
    · rw [failuresSince_failure history he]
      omega
    · cases hstate.symm.trans hc

theorem tracked_success (hthreshold : 1 ≤ threshold.toInt)
    (h : Tracked threshold recovery history (run threshold recovery history))
    (he : e.call = .success) :
    Tracked threshold recovery (history ++ [e]) (run threshold recovery (history ++ [e])) := by
  have hfailure : isFailure e = false := by simp [isFailure, he]
  have hcount := countP_isFailure_other history hfailure
  have hlatest := latestFailure_other history hfailure
  have hzero : (0 : Int32).toInt = (failuresSince (history ++ [e]) : ℤ) := by
    rw [failuresSince_success history he]
    rfl
  have hcounts : (0 : Int32).toInt ≤ ((history ++ [e]).countP isFailure : ℤ) := Int.natCast_nonneg _
  have hstep : step (run threshold recovery history) e =
      recordSuccess (run threshold recovery history) := by
    rw [step, he]
  cases hstate : (run threshold recovery history).state with
  | closed =>
    have hrun : run threshold recovery (history ++ [e]) =
        { run threshold recovery history with failures := 0 } := by
      rw [run_concat, hstep, recordSuccess_closed hstate]
    rw [hrun]
    exact ⟨h.threshold_eq, h.recovery_eq, Int.le_refl _, hcounts, fun _ => ⟨hzero, hthreshold⟩,
      fun hc => absurd hstate hc, fun t ht => h.latest t (hlatest ▸ ht),
      fun hc => nomatch hstate.symm.trans hc⟩
  | opened =>
    refine h.unchanged ?_ hfailure (fun hc => ?_) fun hc => ?_
    · rw [hstep, recordSuccess, hstate]
    · rw [hstate] at hc
      cases hc
    · rw [hstate] at hc
      cases hc
  | halfOpen =>
    obtain ⟨before, opening, since, hhistory, hsince, hsuccesses, hlt⟩ := h.halfOpen hstate
    have hnext := int32_toInt_add_one (a := (run threshold recovery history).successes) (by omega)
    have hthree : (3 : Int32).toInt = 3 := rfl
    by_cases hcloses : 3 ≤ (run threshold recovery history).successes + 1
    · have hrun : run threshold recovery (history ++ [e]) = { run threshold recovery history with
          successes := (run threshold recovery history).successes + 1
          state := .closed
          failures := 0 } := by
        rw [run_concat, hstep, recordSuccess_halfOpen hstate, if_pos hcloses]
      rw [hrun]
      exact ⟨h.threshold_eq, h.recovery_eq, Int.le_refl _, hcounts, fun _ => ⟨hzero, hthreshold⟩,
        fun hc => absurd rfl hc, fun t ht => h.latest t (hlatest ▸ ht), nofun⟩
    · have hrun : run threshold recovery (history ++ [e]) = { run threshold recovery history with
          successes := (run threshold recovery history).successes + 1 } := by
        rw [run_concat, hstep, recordSuccess_halfOpen hstate, if_neg hcloses]
      rw [Int32.le_iff_toInt_le, hthree] at hcloses
      have hreached := h.reached (by simp [hstate])
      rw [hrun]
      refine ⟨h.threshold_eq, h.recovery_eq, h.nonneg, hcount ▸ h.le_count,
        fun hc => (nomatch hstate.symm.trans hc), fun _ => hreached,
        fun t ht => h.latest t (hlatest ▸ ht), fun _ => ?_⟩
      refine ⟨before, opening, since ++ [e], by simp [hhistory], hsince.concat hfailure ?_, ?_, ?_⟩
      · rw [← List.cons_append, ← List.append_assoc, ← hhistory, hrun]
        exact hstate
      · show ((run threshold recovery history).successes + 1).toInt = _
        rw [hnext, hsuccesses, List.countP_append, List.countP_singleton]
        simp [isSuccess, he]
      · show ((run threshold recovery history).successes + 1).toInt < 3
        omega

theorem tracked_run (hthreshold : 1 ≤ threshold.toInt) (history : List Event)
    (hfits : history.countP isFailure < 2 ^ 31) :
    Tracked threshold recovery history (run threshold recovery history) := by
  induction history using List.reverseRecOn with
  | nil => exact tracked_new hthreshold
  | append_singleton history e ih =>
    have hbefore : history.countP isFailure < 2 ^ 31 := by
      rw [countP_isFailure_concat] at hfits
      omega
    cases he : e.call with
    | allow => exact tracked_allow (ih hbefore) he
    | failure => exact tracked_failure (ih hbefore) he hfits
    | success => exact tracked_success hthreshold (ih hbefore) he

theorem Tracked.exists_latestFailure (hthreshold : 1 ≤ threshold.toInt)
    (h : Tracked threshold recovery history (run threshold recovery history))
    (hstate : (run threshold recovery history).state ≠ .closed) :
    ∃ t, latestFailure history = some t := by
  have hreached := h.reached hstate
  have hle := h.le_count
  obtain ⟨e, he, hfailure⟩ : ∃ e ∈ history, isFailure e = true :=
    List.countP_pos_iff.mp (by omega)
  have hsome : (history.reverse.find? isFailure).isSome :=
    List.find?_isSome.mpr ⟨e, List.mem_reverse.mpr he, hfailure⟩
  obtain ⟨latest, hlatest⟩ := Option.isSome_iff_exists.mp hsome
  exact ⟨latest.now, by rw [latestFailure, hlatest]; rfl⟩

theorem Tracked.refuses (h : Tracked threshold recovery history (run threshold recovery history))
    (hstate : (run threshold recovery history).state = .opened) {t now : ℤ}
    (ht : latestFailure history = some t) (hnow : now - t < recovery) :
    allow (run threshold recovery history) now = (run threshold recovery history, false) := by
  have hearly : ¬ (run threshold recovery history).recovery ≤
      now - (run threshold recovery history).lastFailure := by
    rw [h.recovery_eq, h.latest t ht]
    omega
  rw [allow, hstate]
  simp only [if_neg hearly]

theorem Tracked.reopens (h : Tracked threshold recovery history (run threshold recovery history))
    (hstate : (run threshold recovery history).state = .halfOpen) (he : e.call = .failure)
    (hfits : (history ++ [e]).countP isFailure < 2 ^ 31) :
    (run threshold recovery (history ++ [e])).state = .opened := by
  rw [countP_isFailure_concat, if_pos (by simp [isFailure, he])] at hfits
  rw [run_concat, step, he]
  obtain ⟨-, ⟨hopened, -⟩ | ⟨-, hclosed, -⟩⟩ := h.failure_cases hfits e.now
  · exact hopened
  · cases hstate.symm.trans hclosed

theorem Tracked.closes (h : Tracked threshold recovery history (run threshold recovery history))
    (hstate : (run threshold recovery history).state = .halfOpen)
    (hclosed : (run threshold recovery (history ++ [e])).state = .closed) :
    e.call = .success ∧ 3 ≤ (run threshold recovery history).successes.toInt + 1 := by
  obtain ⟨-, -, -, -, -, -, hlt⟩ := h.halfOpen hstate
  rw [run_concat, step] at hclosed
  cases he : e.call with
  | allow =>
    rw [he, allow, hstate] at hclosed
    cases hstate.symm.trans hclosed
  | failure =>
    rw [he] at hclosed
    simp only [recordFailure, hstate] at hclosed
    split at hclosed <;> cases hclosed
  | success =>
    have hnext := int32_toInt_add_one (a := (run threshold recovery history).successes) (by omega)
    rw [he] at hclosed
    simp only [recordSuccess_halfOpen hstate] at hclosed
    by_cases hthree : 3 ≤ (run threshold recovery history).successes + 1
    · rw [Int32.le_iff_toInt_le, hnext] at hthree
      exact ⟨rfl, hthree⟩
    · rw [if_neg hthree] at hclosed
      cases hstate.symm.trans hclosed

end Step

/-- The times need not be ordered. -/
theorem breaker_follows_history (threshold : Int32) (recovery : ℤ) (history : List Event)
    (hthreshold : 1 ≤ threshold.toInt) (hfits : history.countP isFailure < 2 ^ 31) :
    ((run threshold recovery history).state = .closed →
      (run threshold recovery history).failures.toInt = failuresSince history ∧
        failuresSince history < threshold.toInt) ∧
    ((run threshold recovery history).state = .opened →
      ∃ t, latestFailure history = some t ∧ ∀ now, now - t < recovery →
        allow (run threshold recovery history) now = (run threshold recovery history, false)) ∧
    (∀ before e, history = before ++ [e] → (run threshold recovery before).state = .halfOpen →
      e.call = .failure → (run threshold recovery history).state = .opened) ∧
    (∀ earlier e, history = earlier ++ [e] → (run threshold recovery earlier).state = .halfOpen →
      (run threshold recovery history).state = .closed →
      ∃ before opening since, earlier = before ++ opening :: since ∧
        HalfOpenSince threshold recovery before opening since ∧
        e.call = .success ∧ (since ++ [e]).countP isSuccess = 3) := by
  have htracked : ∀ earlier e, history = earlier ++ [e] →
      Tracked threshold recovery earlier (run threshold recovery earlier) := by
    rintro earlier e rfl
    refine tracked_run hthreshold earlier ?_
    rw [countP_isFailure_concat] at hfits
    omega
  have h : Tracked threshold recovery history (run threshold recovery history) :=
    tracked_run hthreshold history hfits
  refine ⟨fun hstate => ?_, fun hstate => ?_, ?_, ?_⟩
  · obtain ⟨hcount, hlt⟩ := h.closed hstate
    exact ⟨hcount, hcount ▸ hlt⟩
  · obtain ⟨t, ht⟩ := h.exists_latestFailure hthreshold (by simp [hstate])
    exact ⟨t, ht, fun now hnow => h.refuses hstate ht hnow⟩
  · rintro before e rfl hstate he
    exact (htracked before e rfl).reopens hstate he hfits
  · rintro earlier e rfl hstate hclosed
    have hearlier := htracked earlier e rfl
    obtain ⟨hsuccess, hthree⟩ := hearlier.closes hstate hclosed
    obtain ⟨before, opening, since, hsplit, hsince, hsuccesses, hlt⟩ := hearlier.halfOpen hstate
    refine ⟨before, opening, since, hsplit, hsince, hsuccess, ?_⟩
    rw [List.countP_append, List.countP_singleton, if_pos (by simp [isSuccess, hsuccess])]
    omega

/- Two failures open a breaker of threshold 2, which is half-open at 40 and closed by three
successes. -/
def recovered : List Event :=
  [⟨1, .failure⟩, ⟨2, .failure⟩, ⟨40, .allow⟩, ⟨41, .success⟩, ⟨42, .success⟩, ⟨43, .success⟩]

theorem breaker_follows_recovered :
    (run 2 30 (recovered.take 2)).state = .opened ∧ (run 2 30 (recovered.take 5)).state = .halfOpen ∧
      (run 2 30 recovered).failures.toInt = failuresSince recovered ∧
      ∃ before opening since, recovered.take 5 = before ++ opening :: since ∧
        HalfOpenSince 2 30 before opening since ∧
        (since ++ [Event.mk 43 .success]).countP isSuccess = 3 := by
  have hmodes : (run 2 30 (recovered.take 5)).state = .halfOpen ∧
      (run 2 30 recovered).state = .closed := by
    decide +kernel
  obtain ⟨hclosed, -, -, hcloses⟩ :=
    breaker_follows_history 2 30 recovered (by decide +kernel) (by decide +kernel)
  obtain ⟨before, opening, since, hsplit, hsince, -, hthree⟩ :=
    hcloses (recovered.take 5) ⟨43, .success⟩ rfl hmodes.1 hmodes.2
  exact ⟨by decide +kernel, hmodes.1, (hclosed hmodes.2).1, before, opening, since, hsplit, hsince,
    hthree⟩

end EdgeDispatch.Edge.CircuitBreaker
