import EdgeDispatch.Lib.GoInt64
import EdgeDispatch.Lib.Transition
import Mathlib.Data.Fintype.Defs
import Mathlib.Tactic.Linarith
import Mathlib.Tactic.Ring

/-! # The rate limiter of the API (internal/controlplane/api.go:76-117)

Any number of `Allow` calls on one limiter, interleaved between their atomic operations:
a clock reading, the loads of `lastTime` and `tokens`, `Add`, `CompareAndSwap` and the
final `Store` are one step each. Times are Unix nanoseconds. -/

namespace EdgeDispatch.ControlPlane.ApiRateLimit
open Lib.GoInt64 Lib.Transition

/-- The two parameters of `newRateLimiter`, of type int64 and at least 1. -/
structure Limit where
  rate : ℤ
  burst : ℤ
  rate_pos : 1 ≤ rate
  burst_pos : 1 ≤ burst
  rate_fits : rate < 2 ^ 63
  burst_fits : burst < 2 ^ 63

def newTokens (l : Limit) (now last : ℤ) : ℤ :=
  (int64 (int64 (now - last) * l.rate)).tdiv second

def capped (l : Limit) (old newTokens : ℤ) : ℤ :=
  if int64 (old + newTokens) > l.burst then l.burst else int64 (old + newTokens)

/-- Where an `Allow` call is: before the step named, with its local variables. -/
inductive Pc where
  | idle
  | loadLast (now : ℤ)
  | loadTokens
  | add
  | loadOld (now last newTokens : ℤ)
  | swap (now last newTokens old nv : ℤ)
  | store (now : ℤ)
  | returned (ok : Bool)
  deriving DecidableEq

/-- The limiter, the calls and the clock; `admitted` counts the tokens taken, each by the
step after which its call can only return true. -/
structure State (ι : Type) where
  clock : ℤ
  tokens : ℤ
  lastTime : ℤ
  pc : ι → Pc
  admitted : ℕ

inductive Act (ι : Type) where
  | wait (d : ℕ)
  | enter (i : ι)
  | run (i : ι)

def newRateLimiter {ι : Type} (l : Limit) (now : ℤ) : State ι :=
  { clock := now, tokens := l.burst, lastTime := now, pc := fun _ => .idle, admitted := 0 }

variable {ι : Type} [DecidableEq ι]

def goto (s : State ι) (i : ι) (p : Pc) : State ι := { s with pc := Function.update s.pc i p }

/- What follows the load of `lastTime`. -/
def afterLast (l : Limit) (now last : ℤ) : Pc :=
  if newTokens l now last ≤ 0 then .loadTokens else .loadOld now last (newTokens l now last)

/- What follows the load of `tokens` in the loop. -/
def afterOld (l : Limit) (now last newTokens old : ℤ) : Pc :=
  if capped l old newTokens ≤ 0 then .returned false
  else .swap now last newTokens old (capped l old newTokens)

def step (l : Limit) (s : State ι) : Act ι → Option (State ι)
  | .wait d => some { s with clock := s.clock + d }
  | .enter i => if s.pc i = .idle then some (goto s i (.loadLast s.clock)) else none
  | .run i =>
    match s.pc i with
    | .loadLast now => some (goto s i (afterLast l now s.lastTime))
    | .loadTokens => some (goto s i (if s.tokens ≤ 0 then .returned false else .add))
    | .add =>
      some (goto { s with tokens := int64 (s.tokens - 1), admitted := s.admitted + 1 } i
        (.returned true))
    | .loadOld now last nt => some (goto s i (afterOld l now last nt s.tokens))
    | .swap now last nt old nv =>
      if s.tokens = old then
        some (goto { s with tokens := nv - 1, admitted := s.admitted + 1 } i (.store now))
      else some (goto s i (.loadOld now last nt))
    | .store now => some (goto { s with lastTime := now } i (.returned true))
    | _ => none

/-- Never more calls admitted than the burst and what the rate allows until now, and a
counter that is not negative. -/
def Bounded (l : Limit) (start : ℤ) (s : State ι) : Prop :=
  (s.admitted : ℚ) ≤ l.burst + l.rate * (s.clock - start) / 10 ^ 9 ∧ 0 ≤ s.tokens

def oneASecond : Limit := ⟨1, 1, by decide, by decide, by decide, by decide⟩

/-- Two calls load the last token and both take it, within the same nanosecond. And two
calls that loaded the same `lastTime` hand out the same second twice. -/
theorem interleaved_calls_overrun :
    (∃ s : State (Fin 2), Reach (step oneASecond) Free (newRateLimiter oneASecond 0) s ∧
      (s.clock, s.admitted, s.tokens) = (0, 2, -1) ∧ (∀ i, s.pc i = .returned true) ∧
      ¬ Bounded oneASecond 0 s) ∧
    ∃ s : State (Fin 3), Reach (step oneASecond) Free (newRateLimiter oneASecond 0) s ∧
      (s.clock, s.admitted, s.tokens) = (10 ^ 9, 3, 0) ∧ (∀ i, s.pc i = .returned true) ∧
      ¬ Bounded oneASecond 0 s := by
  constructor
  · let acts : List (Act (Fin 2)) :=
      [.enter 0, .enter 1, .run 0, .run 1, .run 0, .run 1, .run 0, .run 1]
    have hrun : (exec (step oneASecond) acts (newRateLimiter oneASecond 0)).map
        (fun s => ((s.clock, s.admitted, s.tokens), decide (∀ i, s.pc i = .returned true))) =
        some ((0, 2, -1), true) := by decide
    obtain ⟨s, hr, hview⟩ := reach_of_view acts _ hrun
    obtain ⟨hnum, hpc⟩ := Prod.mk.inj hview
    refine ⟨s, hr, hnum, of_decide_eq_true hpc, ?_⟩
    intro h
    have hneg := h.2
    simp only [Prod.mk.injEq] at hnum
    omega
  · let acts : List (Act (Fin 3)) := [.enter 0, .run 0, .run 0, .run 0, .wait (10 ^ 9), .enter 1,
      .enter 2, .run 1, .run 2, .run 1, .run 1, .run 2, .run 2, .run 1, .run 2]
    have hrun : (exec (step oneASecond) acts (newRateLimiter oneASecond 0)).map
        (fun s => ((s.clock, s.admitted, s.tokens), decide (∀ i, s.pc i = .returned true))) =
        some ((10 ^ 9, 3, 0), true) := by decide
    obtain ⟨s, hr, hview⟩ := reach_of_view acts _ hrun
    obtain ⟨hnum, hpc⟩ := Prod.mk.inj hview
    refine ⟨s, hr, hnum, of_decide_eq_true hpc, ?_⟩
    intro h
    have hover := h.1
    simp only [Prod.mk.injEq] at hnum
    obtain ⟨hclock, hadm, -⟩ := hnum
    rw [hclock, hadm] at hover
    norm_num [oneASecond] at hover

/-! ### Calls that do not interfere -/

/-- A token is taken from a positive counter. A refill goes through only if `lastTime`
is still the time the call refills from, not later than its own clock reading, and no
other call has a `Store` of `lastTime` outstanding. -/
def Orderly (s : State ι) : Act ι → Prop
  | .run i =>
    match s.pc i with
    | .add => 0 < s.tokens
    | .swap now last _ old _ =>
      s.tokens = old → s.lastTime = last ∧ last ≤ now ∧ ∀ j t, s.pc j ≠ .store t
    | _ => True
  | _ => True

/- The time that a call is about to store. -/
def storing : Pc → Option ℤ
  | .store t => some t
  | _ => none

omit [DecidableEq ι] in
theorem none_storing_iff (s : State ι) :
    (∀ j, storing (s.pc j) = none) ↔ ∀ j t, s.pc j ≠ .store t := by
  refine forall_congr' fun j => ?_
  cases s.pc j <;> simp [storing]

omit [DecidableEq ι] in
instance [Fintype ι] (s : State ι) : Decidable (∀ j t, s.pc j ≠ .store t) :=
  decidable_of_iff _ (none_storing_iff s)

omit [DecidableEq ι] in
instance [Fintype ι] (s : State ι) : ∀ a, Decidable (Orderly s a)
  | .run i =>
    match hi : s.pc i with
    | .add => decidable_of_iff (0 < s.tokens) (by rw [Orderly, hi])
    | .swap now last _ old _ =>
      decidable_of_iff (s.tokens = old → s.lastTime = last ∧ last ≤ now ∧ ∀ j t, s.pc j ≠ .store t)
        (by rw [Orderly, hi])
    | .idle | .loadLast _ | .loadTokens | .loadOld _ _ _ | .store _ | .returned _ =>
      isTrue (by rw [Orderly, hi]; trivial)
  | .wait _ | .enter _ => isTrue trivial

/- Overflow only ever makes a refill smaller, as long as time goes forward. -/
theorem newTokens_le (l : Limit) {now last : ℤ} (h : last ≤ now) (hpos : 0 < newTokens l now last) :
    newTokens l now last * second ≤ l.rate * (now - last) := by
  have hrate := l.rate_pos
  have hprod : 0 ≤ (now - last) * l.rate := mul_nonneg (by omega) (by omega)
  have hwrap : int64 (int64 (now - last) * l.rate) = int64 ((now - last) * l.rate) :=
    Int.bmod_mul_bmod
  unfold newTokens at hpos ⊢
  rw [hwrap] at hpos ⊢
  have hle := int64_le hprod
  rw [mul_comm l.rate]
  by_cases hneg : 0 ≤ int64 ((now - last) * l.rate)
  · rw [Int.tdiv_eq_ediv_of_nonneg hneg]
    have hdiv := Int.ediv_mul_le (int64 ((now - last) * l.rate)) (by decide : second ≠ 0)
    omega
  · have hflip := Int.neg_tdiv (int64 ((now - last) * l.rate)) second
    have hnonneg : 0 ≤ (-int64 ((now - last) * l.rate)).tdiv second :=
      Int.tdiv_nonneg (by omega) (by decide)
    omega

theorem capped_le (l : Limit) {old nt : ℤ} (ho : 0 ≤ old) (hn : 0 < nt) :
    capped l old nt ≤ old + nt ∧ capped l old nt ≤ l.burst := by
  have hle := int64_le (n := old + nt) (by omega)
  unfold capped
  split <;> omega

/-- What a call's local variables say, given the clock. -/
def PcOk (l : Limit) (clock : ℤ) : Pc → Prop
  | .loadLast now => now ≤ clock
  | .loadOld now last nt => now ≤ clock ∧ nt = newTokens l now last ∧ 0 < nt
  | .swap now last nt old nv =>
    now ≤ clock ∧ nt = newTokens l now last ∧ 0 < nt ∧ nv = capped l old nt ∧ 0 < nv
  | .store now => now ≤ clock
  | _ => True

variable {l : Limit} {p : Pc} {pc : ι → Pc} {i : ι} {start : ℤ} {s : State ι}

theorem PcOk.later {clock clock' : ℤ} (hle : clock ≤ clock') (h : PcOk l clock p) :
    PcOk l clock' p := by
  cases p with
  | loadLast now => exact h.trans hle
  | loadOld now last nt => exact ⟨h.1.trans hle, h.2⟩
  | swap now last nt old nv => exact ⟨h.1.trans hle, h.2⟩
  | store now => exact h.trans hle
  | _ => trivial

/-- `t` is the time up to which refills have been handed out: the `lastTime` that a call
is about to store, or the one that is there. -/
structure RefilledTo (pc : ι → Pc) (lastTime t : ℤ) : Prop where
  stored : (∀ i n, pc i ≠ .store n) → lastTime = t
  storing : ∀ i n, pc i = .store n → n = t
  one : ∀ i j n m, pc i = .store n → pc j = .store m → i = j

structure Inv (l : Limit) (start : ℤ) (s : State ι) : Prop where
  nonneg : 0 ≤ s.tokens
  le_burst : s.tokens ≤ l.burst
  place : ∀ i, PcOk l s.clock (s.pc i)
  funded : ∃ t, RefilledTo s.pc s.lastTime t ∧ t ≤ s.clock ∧
    (s.admitted + s.tokens - l.burst) * second ≤ l.rate * (t - start)

omit [DecidableEq ι] in
theorem inv_new (l : Limit) (start : ℤ) : Inv l start (newRateLimiter l start : State ι) := by
  have hb := l.burst_pos
  refine ⟨by show 0 ≤ l.burst; omega, le_refl _, fun _ => trivial, start, ?_, le_refl _, ?_⟩
  · exact ⟨fun _ => rfl, nofun, nofun⟩
  · simp [newRateLimiter]

theorem RefilledTo.move {lastTime t : ℤ} (h : RefilledTo pc lastTime t) (hi : ∀ n, pc i ≠ .store n)
    (hp : ∀ n, p ≠ .store n) : RefilledTo (Function.update pc i p) lastTime t := by
  have same : ∀ j n, Function.update pc i p j = .store n ↔ pc j = .store n :=
    (Function.forall_update_iff pc fun j q => ∀ n, q = .store n ↔ pc j = .store n).mpr
      ⟨fun n => ⟨fun h => absurd h (hp n), fun h => absurd h (hi n)⟩, fun _ _ _ => Iff.rfl⟩
  refine ⟨fun hno => h.stored fun j n hj => hno j n ((same j n).mpr hj), ?_, ?_⟩
  · intro j n hj
    exact h.storing j n ((same j n).mp hj)
  · intro j k n m hj hk
    exact h.one j k n m ((same j n).mp hj) ((same k m).mp hk)

/- The one call with a `Store` outstanding says how far refills go. -/
theorem refilledTo_swap (hno : ∀ j n, pc j ≠ .store n) (i : ι) (now lastTime : ℤ) :
    RefilledTo (Function.update pc i (.store now)) lastTime now := by
  have own : ∀ j n, Function.update pc i (.store now) j = .store n → j = i ∧ n = now :=
    (Function.forall_update_iff pc fun j q => ∀ n, q = .store n → j = i ∧ n = now).mpr
      ⟨fun n hn => ⟨rfl, (Pc.store.inj hn).symm⟩, fun j _ n hj => absurd hj (hno j n)⟩
  refine ⟨fun hnone => absurd (Function.update_self ..) (hnone i now), ?_, ?_⟩
  · intro j n hj
    exact (own j n hj).2
  · intro j k n m hj hk
    exact (own j n hj).1.trans (own k m hk).1.symm

theorem place_update {clock : ℤ} (h : ∀ i, PcOk l clock (pc i)) (i : ι) (hp : PcOk l clock p) :
    ∀ j, PcOk l clock (Function.update pc i p j) :=
  (Function.forall_update_iff pc fun _ q => PcOk l clock q).mpr ⟨hp, fun j _ => h j⟩

/- A step that changes nothing but where a call is. -/
theorem Inv.goto (h : Inv l start s) (hi : ∀ n, s.pc i ≠ .store n) (hp : ∀ n, p ≠ .store n)
    (hok : PcOk l s.clock p) : Inv l start (goto s i p) := by
  obtain ⟨t, ht, hle, hf⟩ := h.funded
  exact ⟨h.nonneg, h.le_burst, place_update h.place i hok, t, ht.move hi hp, hle, hf⟩

theorem afterLast_ok (l : Limit) {now clock : ℤ} (last : ℤ) (h : now ≤ clock) :
    PcOk l clock (afterLast l now last) ∧ ∀ n, afterLast l now last ≠ .store n := by
  unfold afterLast
  split
  · exact ⟨trivial, nofun⟩
  · exact ⟨⟨h, rfl, by omega⟩, nofun⟩

theorem afterOld_ok (l : Limit) {now last nt clock : ℤ} (old : ℤ)
    (h : PcOk l clock (.loadOld now last nt)) :
    PcOk l clock (afterOld l now last nt old) ∧ ∀ n, afterOld l now last nt old ≠ .store n := by
  unfold afterOld
  split
  · exact ⟨trivial, nofun⟩
  · exact ⟨⟨h.1, h.2.1, h.2.2, rfl, by omega⟩, nofun⟩

/- `Add(-1)`: a token less, a call more. -/
theorem add_inv (h : Inv l start s) (hi : s.pc i = .add) (hpos : 0 < s.tokens) :
    Inv l start (ApiRateLimit.goto
      { s with tokens := int64 (s.tokens - 1), admitted := s.admitted + 1 } i
      (.returned true)) := by
  have hfits := l.burst_fits
  have hle := h.le_burst
  have htoken : int64 (s.tokens - 1) = s.tokens - 1 := int64_eq (by omega) (by omega)
  obtain ⟨t, ht, htle, hf⟩ := h.funded
  refine ⟨by show 0 ≤ int64 (s.tokens - 1); omega, by show int64 (s.tokens - 1) ≤ l.burst; omega,
    place_update h.place i trivial, t, ht.move (by simp [hi]) nofun, htle, ?_⟩
  show (((s.admitted + 1 : ℕ) : ℤ) + int64 (s.tokens - 1) - l.burst) * second ≤ l.rate * (t - start)
  rw [htoken]
  push_cast
  have hsame : (s.admitted : ℤ) + 1 + (s.tokens - 1) - l.burst =
      s.admitted + s.tokens - l.burst := by ring
  rwa [hsame]

/- The successful `CompareAndSwap`: the refill is paid for by the time since `lastTime`. -/
theorem swap_inv (h : Inv l start s) {now last nt nv : ℤ}
    (hi : s.pc i = .swap now last nt s.tokens nv) (hlast : s.lastTime = last) (hle : last ≤ now)
    (hno : ∀ j t, s.pc j ≠ .store t) :
    Inv l start (ApiRateLimit.goto
      { s with tokens := nv - 1, admitted := s.admitted + 1 } i (.store now)) := by
  have hplace := h.place i
  rw [hi] at hplace
  obtain ⟨hnow, rfl, hpos, rfl, hnv⟩ := hplace
  obtain ⟨t, ht, -, hf⟩ := h.funded
  have htime : s.lastTime = t := ht.stored hno
  have hgain := newTokens_le l hle hpos
  obtain ⟨hcap, hburst⟩ := capped_le l h.nonneg hpos
  refine ⟨by show 0 ≤ _ - 1; omega, by show _ - 1 ≤ l.burst; omega,
    place_update h.place i hnow, now, refilledTo_swap hno i now s.lastTime, hnow, ?_⟩
  show (((s.admitted + 1 : ℕ) : ℤ) + (capped l s.tokens (newTokens l now last) - 1) - l.burst) *
    second ≤ l.rate * (now - start)
  have hsecond : (0 : ℤ) ≤ second := by decide
  have hpaid : (((s.admitted + 1 : ℕ) : ℤ) + (capped l s.tokens (newTokens l now last) - 1) -
      l.burst) * second ≤ (s.admitted + s.tokens - l.burst) * second +
        newTokens l now last * second := by
    rw [← add_mul]
    apply mul_le_mul_of_nonneg_right _ hsecond
    push_cast
    linarith
  have hsplit : l.rate * (now - start) = l.rate * (t - start) + l.rate * (now - last) := by
    rw [← htime, hlast]
    ring
  linarith

/- The outstanding `Store`: `lastTime` catches up with what was handed out. -/
theorem store_inv (h : Inv l start s) {now : ℤ} (hi : s.pc i = .store now) :
    Inv l start (ApiRateLimit.goto { s with lastTime := now } i (.returned true)) := by
  obtain ⟨t, ht, hle, hf⟩ := h.funded
  have hnow : now = t := ht.storing i now hi
  have gone : ∀ j n, Function.update s.pc i (Pc.returned true) j ≠ .store n :=
    (Function.forall_update_iff s.pc fun _ q => ∀ n, q ≠ .store n).mpr
      ⟨nofun, fun j hji n hj => hji (ht.one j i n now hj hi)⟩
  have hto : RefilledTo (Function.update s.pc i (Pc.returned true)) now t :=
    ⟨fun _ => hnow, fun j n hj => absurd hj (gone j n), fun j _ n _ hj => absurd hj (gone j n)⟩
  exact ⟨h.nonneg, h.le_burst, place_update h.place i trivial, t, hto, hle, hf⟩

theorem step_inv (s : State ι) (a : Act ι) (t : State ι) (h : Inv l start s) (hg : Orderly s a)
    (hs : step l s a = some t) : Inv l start t := by
  cases a with
  | wait d =>
    cases hs
    obtain ⟨u, hu, hle, hf⟩ := h.funded
    have hclock : s.clock ≤ s.clock + d := by omega
    exact ⟨h.nonneg, h.le_burst, fun i => (h.place i).later hclock, u, hu, hle.trans hclock, hf⟩
  | enter i =>
    obtain ⟨hi, he⟩ := Option.ite_none_right_eq_some.mp hs
    cases he
    exact h.goto (by simp [hi]) nofun (le_refl _)
  | run i =>
    have hplace := h.place i
    simp only [step] at hs
    simp only [Orderly] at hg
    cases hi : s.pc i with
    | idle => simp [hi] at hs
    | returned ok => simp [hi] at hs
    | loadLast now =>
      rw [hi] at hplace hs
      cases hs
      obtain ⟨hok, hp⟩ := afterLast_ok l s.lastTime hplace
      exact h.goto (by simp [hi]) hp hok
    | loadTokens =>
      rw [hi] at hs
      cases hs
      split
      · exact h.goto (by simp [hi]) nofun trivial
      · exact h.goto (by simp [hi]) nofun trivial
    | add =>
      rw [hi] at hs hg
      cases hs
      exact add_inv h hi hg
    | loadOld now last nt =>
      rw [hi] at hplace hs
      cases hs
      obtain ⟨hok, hp⟩ := afterOld_ok l s.tokens hplace
      exact h.goto (by simp [hi]) hp hok
    | swap now last nt old nv =>
      rw [hi] at hplace hs hg
      simp only at hs
      split at hs
      · rename_i hsame
        subst hsame
        cases hs
        obtain ⟨hlast, hle, hno⟩ := hg rfl
        exact swap_inv h hi hlast hle hno
      · cases hs
        exact h.goto (by simp [hi]) nofun ⟨hplace.1, hplace.2.1, hplace.2.2.1⟩
    | store now =>
      rw [hi] at hs
      cases hs
      exact store_inv h hi

omit [DecidableEq ι] in
theorem Inv.bounded (h : Inv l start s) : Bounded l start s := by
  obtain ⟨t, -, hle, hf⟩ := h.funded
  have hrate := l.rate_pos
  have hnonneg := h.nonneg
  have hlate : l.rate * (t - start) ≤ l.rate * (s.clock - start) :=
    mul_le_mul_of_nonneg_left (by omega) (by omega)
  have hint : ((s.admitted : ℤ) - l.burst) * second ≤ l.rate * (s.clock - start) := by
    have hless : ((s.admitted : ℤ) - l.burst) * second ≤
        (s.admitted + s.tokens - l.burst) * second :=
      mul_le_mul_of_nonneg_right (by omega) (by decide)
    omega
  refine ⟨?_, hnonneg⟩
  have hrat : ((s.admitted : ℚ) - l.burst) * 10 ^ 9 ≤ l.rate * (s.clock - start) := by
    have hcast : ((((s.admitted : ℤ) - l.burst) * second : ℤ) : ℚ) ≤
        ((l.rate * (s.clock - start) : ℤ) : ℚ) := Int.cast_le.mpr hint
    unfold second at hcast
    push_cast at hcast
    exact hcast
  have hdiv : (s.admitted : ℚ) - l.burst ≤ l.rate * (s.clock - start) / 10 ^ 9 := by
    rw [le_div_iff₀ (by norm_num)]
    exact hrat
  linarith

/-- Without interference the limiter keeps its bound, for any number of calls. -/
theorem api_rate_bounded (l : Limit) (start : ℤ) (s : State ι)
    (h : Reach (step l) Orderly (newRateLimiter l start) s) : Bounded l start s := by
  have hinv : Inv l start s :=
    h.invariant (Inv l start) (inv_new l start) fun s a t => step_inv s a t
  exact hinv.bounded

/- One call takes the last token; a second later another one refills and takes the new one. -/
theorem api_rate_bounded_refill :
    ∃ s : State Bool, Reach (step oneASecond) Orderly (newRateLimiter oneASecond 0) s ∧
      (s.pc true, s.pc false, s.admitted, s.clock, s.tokens) =
        (.returned true, .returned true, 2, 10 ^ 9, 0) ∧ Bounded oneASecond 0 s := by
  let acts : List (Act Bool) := [.enter true, .run true, .run true, .run true, .wait (10 ^ 9),
    .enter false, .run false, .run false, .run false, .run false]
  have hg : Guarded (step oneASecond) Orderly acts (newRateLimiter oneASecond 0) := by
    decide
  have hrun : (exec (step oneASecond) acts (newRateLimiter oneASecond 0)).map
      (fun s => (s.pc true, s.pc false, s.admitted, s.clock, s.tokens)) =
      some (.returned true, .returned true, 2, 10 ^ 9, 0) := by decide
  obtain ⟨s, hr, hview⟩ := reach_of_guarded_view hg _ hrun
  exact ⟨s, hr, hview, api_rate_bounded oneASecond 0 s hr⟩

end EdgeDispatch.ControlPlane.ApiRateLimit
