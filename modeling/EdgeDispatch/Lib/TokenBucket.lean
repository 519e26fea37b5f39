import Mathlib.Data.List.Count
import Mathlib.Tactic.Linarith
import Mathlib.Tactic.Ring

/-! # Token buckets

A bucket holds at most `burst` tokens and gains `rate` tokens in a unit of time; a
request is granted if there is a token for it. What a bucket can grant in a stretch of
time is what it held at first and what it gained since. -/

namespace EdgeDispatch.Lib.TokenBucket
variable {K : Type*}

structure Bucket (K : Type*) where
  tokens : K
  last : K

section Answers
variable [LinearOrder K]

/-- The number of requests granted from `a` to `e`, both included. -/
def granted (a e : K) (answers : List (K × Bool)) : ℕ :=
  answers.countP fun p => p.2 && decide (a ≤ p.1) && decide (p.1 ≤ e)

/- Every answer counts at most once. -/
theorem granted_cons_le (a e t : K) (ok : Bool) (rest : List (K × Bool)) :
    granted a e ((t, ok) :: rest) ≤ ok.toNat + granted a e rest := by
  unfold granted
  rw [List.countP_cons]
  cases ok with
  | false => simp
  | true =>
    have hone : (if (true && decide (a ≤ t) && decide (t ≤ e)) = true then 1 else 0) ≤ 1 := by
      split <;> omega
    simp only [Bool.toNat_true]
    omega

theorem granted_cons_outside {a e t : K} (h : ¬ (a ≤ t ∧ t ≤ e)) (ok : Bool)
    (rest : List (K × Bool)) : granted a e ((t, ok) :: rest) = granted a e rest := by
  unfold granted
  rw [List.countP_cons_of_neg]
  simp only [Bool.and_eq_true, decide_eq_true_eq]
  tauto

end Answers

variable [CommRing K] [LinearOrder K]

def refill (rate burst : K) (b : Bucket K) (now : K) : Bucket K :=
  if b.last < now then ⟨min burst (b.tokens + (now - b.last) * rate), now⟩ else b

def spend (b : Bucket K) : Bool × Bucket K :=
  if 1 ≤ b.tokens then (true, ⟨b.tokens - 1, b.last⟩) else (false, b)

def request (rate burst : K) (b : Bucket K) (now : K) : Bool × Bucket K :=
  spend (refill rate burst b now)

/-- The requests of a run, each with the answer it gets. -/
def served (rate burst : K) : Bucket K → List K → List (K × Bool)
  | _, [] => []
  | b, t :: ts =>
    (t, (request rate burst b t).1) :: served rate burst (request rate burst b t).2 ts

/-- Never in debt, never above the burst, and not refilled ahead of time. -/
structure Sound (burst : K) (b : Bucket K) (now : K) : Prop where
  nonneg : 0 ≤ b.tokens
  le_burst : b.tokens ≤ burst
  last_le : b.last ≤ now

variable {b : Bucket K} {now burst : K}

theorem refill_last (h : b.last ≤ now) (rate burst : K) : (refill rate burst b now).last = now := by
  unfold refill
  split
  · rfl
  · exact le_antisymm h (not_lt.mp ‹_›)

theorem refill_self (rate burst : K) (h : b.last = now) :
    refill rate burst b now = b := if_neg (by rw [h]; exact lt_irrefl now)

/- A bucket that would be full again is as good as a new one. -/
theorem refill_full {rate : K} (hlt : b.last < now) (h : burst ≤ b.tokens + (now - b.last) * rate) :
    refill rate burst b now = ⟨burst, now⟩ := by
  rw [refill, if_pos hlt, min_eq_left h]

theorem Sound.later {t : K} (h : Sound burst b now) (ht : now ≤ t) :
    Sound burst b t := ⟨h.nonneg, h.le_burst, h.last_le.trans ht⟩

/- A grant is paid for with one token. -/
theorem spend_paid (b : Bucket K) :
    (((spend b).1.toNat : ℕ) : K) + (spend b).2.tokens = b.tokens ∧ (spend b).2.last = b.last := by
  unfold spend
  split
  · exact ⟨by simp, rfl⟩
  · exact ⟨by simp, rfl⟩

theorem served_times (rate burst : K) (ts : List K) (b : Bucket K) :
    (served rate burst b ts).map Prod.fst = ts := by
  induction ts generalizing b with
  | nil => rfl
  | cons t ts ih => simp only [served, List.map_cons, ih]

theorem granted_after {a e : K} {rate : K} (ts : List K) (b : Bucket K) (h : ∀ t ∈ ts, e < t) :
    granted a e (served rate burst b ts) = 0 := by
  unfold granted
  rw [List.countP_eq_zero]
  intro p hp
  have hmem : p.1 ∈ ts := by
    rw [← served_times rate burst ts b]
    exact List.mem_map_of_mem hp
  have hlate := h p.1 hmem
  simp only [Bool.and_eq_true, decide_eq_true_eq, not_and, not_le]
  exact fun _ => hlate

theorem refill_tokens_le (rate burst : K) (h : b.last ≤ now) :
    (refill rate burst b now).tokens ≤ b.tokens + (now - b.last) * rate := by
  unfold refill
  split
  · exact min_le_right _ _
  · have hnow : now = b.last := le_antisymm (not_lt.mp ‹_›) h
    rw [hnow, sub_self, zero_mul, add_zero]

/-! ### What a bucket grants -/

variable [IsStrictOrderedRing K]

theorem refill_sound {rate : K} (hr : 0 ≤ rate) (h : Sound burst b now) :
    Sound burst (refill rate burst b now) now := by
  unfold refill
  split
  · rename_i hlt
    have hgain : 0 ≤ (now - b.last) * rate := mul_nonneg (sub_nonneg.mpr hlt.le) hr
    exact ⟨le_min (h.nonneg.trans h.le_burst) (add_nonneg h.nonneg hgain), min_le_left _ _,
      le_refl now⟩
  · exact h

theorem spend_sound (h : Sound burst b now) : Sound burst (spend b).2 now := by
  unfold spend
  split
  · rename_i hone
    have hle := h.le_burst
    exact ⟨sub_nonneg.mpr hone, by show b.tokens - 1 ≤ burst; linarith, h.last_le⟩
  · exact h

theorem request_sound {rate : K} (hr : 0 ≤ rate) (h : Sound burst b now) :
    Sound burst (request rate burst b now).2 now :=
  spend_sound (refill_sound hr h)

/-- Up to `e` a bucket grants what it holds and what it gains until then. -/
theorem granted_le_held {rate : K} (hr : 0 ≤ rate) (a e : K) (ts : List K) (b : Bucket K)
    (hb : Sound burst b e) (hlast : ∀ t ∈ ts, b.last ≤ t) (hs : ts.Pairwise (· ≤ ·)) :
    (granted a e (served rate burst b ts) : K) ≤ b.tokens + (e - b.last) * rate := by
  induction ts generalizing b with
  | nil =>
    have hgain := mul_nonneg (sub_nonneg.mpr hb.last_le) hr
    have hpos := hb.nonneg
    simp only [served, granted, List.countP_nil, Nat.cast_zero]
    linarith
  | cons t ts ih =>
    obtain ⟨hle, hs'⟩ := List.pairwise_cons.mp hs
    have hbt : b.last ≤ t := hlast t (List.mem_cons_self ..)
    by_cases hte : t ≤ e
    · have hsound : Sound burst b t := ⟨hb.nonneg, hb.le_burst, hbt⟩
      have hreq : Sound burst (request rate burst b t).2 t := request_sound hr hsound
      obtain ⟨hpaid, hkept⟩ := spend_paid (refill rate burst b t)
      have hnow : (request rate burst b t).2.last = t := hkept.trans (refill_last hbt rate burst)
      have hrest := ih (request rate burst b t).2 (hreq.later hte)
        (by rw [hnow]; exact hle) hs'
      have hgain := refill_tokens_le rate burst hbt
      have hhead := granted_cons_le a e t (request rate burst b t).1
        (served rate burst (request rate burst b t).2 ts)
      have hcast : (granted a e (served rate burst b (t :: ts)) : K) ≤
          ((request rate burst b t).1.toNat : ℕ) +
            (granted a e (served rate burst (request rate burst b t).2 ts) : ℕ) := by
        exact_mod_cast hhead
      rw [hnow] at hrest
      have hsplit : (e - b.last) * rate = (e - t) * rate + (t - b.last) * rate := by ring
      have hpaid' : (((request rate burst b t).1.toNat : ℕ) : K) +
          (request rate burst b t).2.tokens = (refill rate burst b t).tokens := hpaid
      linarith
    · have hnone : granted a e (served rate burst b (t :: ts)) = 0 := by
        apply granted_after
        intro x hx
        rcases List.mem_cons.mp hx with rfl | hx
        · exact not_le.mp hte
        · exact (not_le.mp hte).trans_le (hle x hx)
      have hgain := mul_nonneg (sub_nonneg.mpr hb.last_le) hr
      have hpos := hb.nonneg
      rw [hnone, Nat.cast_zero]
      linarith

/-- In any window a bucket grants at most a burst and what it gains in that time. -/
theorem granted_le {rate : K} (hr : 0 ≤ rate) (a e : K) (hae : a ≤ e) (ts : List K) (b : Bucket K)
    (hb : ∀ t ∈ ts, Sound burst b t) (hburst : 0 ≤ burst) (hs : ts.Pairwise (· ≤ ·)) :
    (granted a e (served rate burst b ts) : K) ≤ burst + (e - a) * rate := by
  induction ts generalizing b with
  | nil =>
    have hgain := mul_nonneg (sub_nonneg.mpr hae) hr
    simp only [served, granted, List.countP_nil, Nat.cast_zero]
    linarith
  | cons t ts ih =>
    obtain ⟨hle, hs'⟩ := List.pairwise_cons.mp hs
    have hsound := hb t (List.mem_cons_self ..)
    by_cases hin : a ≤ t ∧ t ≤ e
    · -- the first request inside: from here on the bucket holds a burst at most
      have hfull : served rate burst b (t :: ts) =
          served rate burst (refill rate burst b t) (t :: ts) := by
        have hsame := refill_self rate burst (refill_last hsound.last_le rate burst)
        simp only [served, request, hsame]
      have hlast := refill_last hsound.last_le rate burst
      have hbound := granted_le_held hr a e (t :: ts) (refill rate burst b t)
        ((refill_sound hr hsound).later hin.2)
        (by
          intro x hx
          rw [hlast]
          rcases List.mem_cons.mp hx with rfl | hx
          · exact le_refl _
          · exact hle x hx) hs
      have htop := (refill_sound hr hsound).le_burst
      have hshort : (e - t) * rate ≤ (e - a) * rate :=
        mul_le_mul_of_nonneg_right (by linarith [hin.1]) hr
      rw [hfull]
      rw [hlast] at hbound
      linarith
    · rw [served, granted_cons_outside hin]
      apply ih _ _ hs'
      intro x hx
      exact (request_sound hr hsound).later (hle x hx)

end EdgeDispatch.Lib.TokenBucket
