import Mathlib.Data.List.Basic

/-! # Go slices

A slice that owns its backing array: the array from the slice's first element up to
its capacity, and the length. Indexing is checked against the length, slicing against
the capacity; both panic otherwise. -/

namespace EdgeDispatch.Lib.GoSlice

inductive Panic where
  | indexOutOfRange (i len : ℕ)
  | sliceOutOfRange (hi cap : ℕ)
  deriving DecidableEq

structure Slice (α : Type) where
  backing : List α
  len : ℕ
  len_le : len ≤ backing.length

namespace Slice
variable {α : Type}

def cap (s : Slice α) : ℕ := s.backing.length
def toList (s : Slice α) : List α := s.backing.take s.len

def make (zero : α) (n : ℕ) : Slice α := ⟨List.replicate n zero, n, by simp⟩

theorem make_cap (zero : α) (n : ℕ) : (make zero n).cap = n := List.length_replicate

/- `s[:hi]` -/
def upTo (s : Slice α) (hi : ℕ) : Except Panic (Slice α) :=
  if h : hi ≤ s.backing.length then .ok ⟨s.backing, hi, h⟩
  else .error (.sliceOutOfRange hi s.cap)

/- `s[i] = x` -/
def set (s : Slice α) (i : ℕ) (x : α) : Except Panic (Slice α) :=
  if i < s.len then .ok ⟨s.backing.set i x, s.len, by simpa using s.len_le⟩
  else .error (.indexOutOfRange i s.len)

/- Overwrites `n` elements of the backing array from `off` on, as far as both reach. -/
def overwrite (xs : List α) (off n : ℕ) (src : List α) : List α :=
  xs.take off ++ src.take (min n (xs.length - off)) ++
    xs.drop (off + min src.length (min n (xs.length - off)))

theorem overwrite_length (xs : List α) (off n : ℕ) (src : List α) :
    xs.length ≤ (overwrite xs off n src).length := by
  simp only [overwrite, List.length_append, List.length_take, List.length_drop]
  omega

/- `copy(s[off:hi], src)` -/
def copyTo (s : Slice α) (off hi : ℕ) (src : List α) : Except Panic (Slice α) :=
  if hi ≤ s.cap then
    .ok ⟨overwrite s.backing off (hi - off) src, s.len, Nat.le_trans s.len_le (overwrite_length ..)⟩
  else .error (.sliceOutOfRange hi s.cap)

/- `append(s, xs...)`: in place while the capacity lasts, else into a new array whose
   spare room `slack` the runtime chooses. -/
def append (zero : α) (slack : ℕ → ℕ) (s : Slice α) (xs : List α) : Slice α :=
  if h : s.len + xs.length ≤ s.cap then
    ⟨overwrite s.backing s.len xs.length xs, s.len + xs.length, Nat.le_trans h (overwrite_length ..)⟩
  else
    ⟨s.toList ++ xs ++ List.replicate (slack (s.len + xs.length)) zero, s.len + xs.length, by
      have hl := s.len_le
      simp only [toList, List.length_append, List.length_take, List.length_replicate]
      omega⟩

theorem toList_length (s : Slice α) : s.toList.length = s.len := by
  rw [toList, List.length_take, Nat.min_eq_left s.len_le]

/- In place or not, the elements are added at the end. -/
theorem append_toList (zero : α) (slack : ℕ → ℕ) (s : Slice α) (xs : List α) :
    (s.append zero slack xs).toList = s.toList ++ xs := by
  have hlen := s.toList_length
  unfold append
  split
  · rename_i hfits
    have hroom : min xs.length (s.backing.length - s.len) = xs.length := by
      rw [cap] at hfits
      omega
    have hfront : (s.toList ++ xs).length = s.len + xs.length := by
      rw [List.length_append, hlen]
    show (overwrite s.backing s.len xs.length xs).take (s.len + xs.length) = _
    rw [overwrite, hroom, List.take_length, ← hfront]
    exact List.take_left
  · have hfront : (s.toList ++ xs).length = s.len + xs.length := by
      rw [List.length_append, hlen]
    show (s.toList ++ xs ++ _).take (s.len + xs.length) = _
    rw [← hfront]
    exact List.take_left

end Slice

/-! ### Reading only -/

section Read
variable {α : Type}

/- `xs[i]` -/
def readAt (xs : List α) (i : ℕ) : Except Panic α :=
  match xs[i]? with
  | some x => .ok x
  | none => .error (.indexOutOfRange i xs.length)

/- `xs[lo:hi]`, here within the length. -/
def readRange (xs : List α) (lo hi : ℕ) : Except Panic (List α) :=
  if lo ≤ hi ∧ hi ≤ xs.length then .ok ((xs.drop lo).take (hi - lo))
  else .error (.sliceOutOfRange hi xs.length)

theorem readAt_ok {xs : List α} {i : ℕ} {x : α} (h : xs[i]? = some x) : readAt xs i = .ok x := by
  rw [readAt, h]

theorem readRange_ok {xs : List α} {lo n : ℕ} (h : lo + n ≤ xs.length) :
    readRange xs lo (lo + n) = .ok ((xs.drop lo).take n) := by
  rw [readRange, if_pos ⟨by omega, h⟩, Nat.add_sub_cancel_left]

end Read

end EdgeDispatch.Lib.GoSlice
