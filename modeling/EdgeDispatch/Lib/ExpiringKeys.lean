import Mathlib.Algebra.Group.Int.Defs
import Mathlib.Algebra.Group.Nat.Defs

/-! # Keys that expire

A store in which a key may have a deadline, with the commands of Redis: a new value
keeps the deadline of the old one, EXPIRE sets it for a key that exists and removes the
key if the time is not positive, DEL removes it. Times are in nanoseconds. -/

namespace EdgeDispatch.Lib.ExpiringKeys
variable {β : Type}

structure Entry (β : Type) where
  value : β
  deadline : Option ℕ

structure Keys (β : Type) where
  now : ℕ
  entry : String → Option (Entry β)

def empty : Keys β := ⟨0, fun _ => none⟩

def second : ℕ := 10 ^ 9

def Entry.livesAt (e : Entry β) (t : ℕ) : Bool := e.deadline.all fun d => decide (t < d)

def live (s : Keys β) (k : String) : Option (Entry β) := (s.entry k).filter fun e => e.livesAt s.now

def get (s : Keys β) (k : String) : Option β := (live s k).map Entry.value

def wait (s : Keys β) (d : ℕ) : Keys β := { s with now := s.now + d }

def write (s : Keys β) (k : String) (e : Option (Entry β)) : Keys β :=
  { s with entry := fun k' => if k' = k then e else s.entry k' }

def set (s : Keys β) (k : String) (v : β) : Keys β :=
  write s k (some ⟨v, (live s k).bind Entry.deadline⟩)

def delete (s : Keys β) (k : String) : Keys β := write s k none

def expire (s : Keys β) (k : String) (seconds : ℤ) : Keys β :=
  match live s k with
  | none => s
  | some e =>
    if seconds ≤ 0 then delete s k
    else write s k (some { e with deadline := some (s.now + seconds.toNat * second) })

theorem wait_wait (s : Keys β) (a b : ℕ) : wait (wait s a) b = wait s (a + b) := by
  simp [wait, Nat.add_assoc]

theorem get_eq (s : Keys β) (k : String) :
    get s k = (s.entry k).bind fun e => if e.livesAt s.now then some e.value else none := by
  unfold get live
  cases s.entry k with
  | none => rfl
  | some e =>
    cases h : e.livesAt s.now with
    | false => simp [h]
    | true => simp [Option.filter_some, h]

theorem get_wait_write_of_ne (s : Keys β) {k k' : String} (h : k' ≠ k) (e : Option (Entry β))
    (w : ℕ) : get (wait (write s k e) w) k' = get (wait s w) k' := by
  simp [get, live, wait, write, h]

theorem get_wait_write (s : Keys β) (k : String) (e : Entry β) (w : ℕ) :
    get (wait (write s k (some e)) w) k =
      if e.livesAt (s.now + w) then some e.value else none := by
  simp [get_eq, wait, write]

theorem get_wait_delete (s : Keys β) (k : String) (w : ℕ) : get (wait (delete s k) w) k = none := by
  simp [get_eq, wait, delete, write]

theorem get_wait_set_of_ne (s : Keys β) {k k' : String} (h : k' ≠ k) (v : β) (w : ℕ) :
    get (wait (set s k v) w) k' = get (wait s w) k' :=
  get_wait_write_of_ne s h _ w

theorem get_wait_expire_of_ne (s : Keys β) {k k' : String} (h : k' ≠ k) (seconds : ℤ) (w : ℕ) :
    get (wait (expire s k seconds) w) k' = get (wait s w) k' := by
  unfold expire
  split
  · rfl
  · split
    · exact get_wait_write_of_ne s h _ w
    · exact get_wait_write_of_ne s h _ w

theorem Entry.livesAt_mono {e : Entry β} {t t' : ℕ} (h : t ≤ t') (hlives : e.livesAt t' = true) :
    e.livesAt t = true := by
  unfold livesAt at hlives ⊢
  cases hd : e.deadline with
  | none => rfl
  | some d =>
    rw [hd] at hlives
    simp only [Option.all_some, decide_eq_true_eq] at hlives ⊢
    exact Nat.lt_of_le_of_lt h hlives

/- What has expired stays so. -/
theorem get_wait_of_none {s : Keys β} {k : String} (h : get s k = none) (w : ℕ) :
    get (wait s w) k = none := by
  rw [get_eq] at h ⊢
  show (s.entry k).bind _ = none
  cases he : s.entry k with
  | none => rfl
  | some e =>
    have hdead : e.livesAt s.now = false := by
      simpa [he] using h
    have hlater : e.livesAt (wait s w).now = false := by
      rw [Bool.eq_false_iff] at hdead ⊢
      exact fun hl => hdead (e.livesAt_mono (Nat.le_add_right _ _) hl)
    simp [hlater]

/-- EXPIRE gives a live key exactly that time, and a key that is not there none. -/
theorem get_wait_expire (s : Keys β) (k : String) (seconds : ℤ) (w : ℕ) :
    get (wait (expire s k seconds) w) k =
      if w < seconds.toNat * second then get s k else none := by
  unfold expire
  cases hlive : live s k with
  | none =>
    have hnone : get s k = none := by simp [get, hlive]
    rw [hnone, ite_self]
    exact get_wait_of_none hnone w
  | some e =>
    have hsome : get s k = some e.value := by simp [get, hlive]
    simp only [hsome]
    split
    · rename_i hneg
      have hzero : ¬ w < seconds.toNat * second := by
        rw [Int.toNat_of_nonpos hneg, Nat.zero_mul]
        exact Nat.not_lt_zero w
      rw [if_neg hzero]
      exact get_wait_delete s k w
    · have hlives : (Entry.mk e.value (some (s.now + seconds.toNat * second))).livesAt
          (s.now + w) = true ↔ w < seconds.toNat * second := by
        rw [Entry.livesAt, Option.all_some, decide_eq_true_eq]
        exact Nat.add_lt_add_iff_left
      rw [get_wait_write]
      simp only [hlives]

theorem get_set (s : Keys β) (k : String) (v : β) : get (set s k v) k = some v := by
  have hlives : (Entry.mk v ((live s k).bind Entry.deadline)).livesAt (s.now + 0) = true := by
    cases hlive : live s k with
    | none => rfl
    | some e => exact (Option.filter_eq_some_iff.mp hlive).2
  have hget := get_wait_write s k ⟨v, (live s k).bind Entry.deadline⟩ 0
  rw [if_pos hlives] at hget
  exact hget

end EdgeDispatch.Lib.ExpiringKeys
