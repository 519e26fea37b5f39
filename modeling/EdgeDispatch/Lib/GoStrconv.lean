import EdgeDispatch.Lib.ByteString
import Mathlib.Data.Nat.Digits.Defs

/-! # Decimal integers of 64 bits, read and written (packages strconv and fmt) -/

namespace EdgeDispatch.Lib.GoStrconv
open Lib.ByteString

def digit (d : ℕ) : Byte := UInt8.ofNat (48 + d)

def digitVal (b : Byte) : Option ℕ :=
  if 48 ≤ b.toNat ∧ b.toNat ≤ 57 then some (b.toNat - 48) else none

/- The digits of `s` after those that `acc` is the value of. -/
def parseDigits : ℕ → Bytes → Option ℕ
  | acc, [] => some acc
  | acc, b :: rest => (digitVal b).bind fun d => parseDigits (acc * 10 + d) rest

/- `ParseUint`; what is out of the range of 64 bits is refused by `parseInt`. -/
def parseUint (s : Bytes) : Option ℕ := if s = [] then none else parseDigits 0 s

/- `strconv.ParseInt(s, 10, 64)`; an error is `none`. -/
def parseInt (s : Bytes) : Option Int64 :=
  match s with
  | 45 :: rest =>
    (parseUint rest).bind fun n => if n ≤ 2 ^ 63 then some (Int64.ofInt (-n)) else none
  | 43 :: rest => (parseUint rest).bind fun n => if n < 2 ^ 63 then some (Int64.ofInt n) else none
  | s => (parseUint s).bind fun n => if n < 2 ^ 63 then some (Int64.ofInt n) else none

def decimal (n : ℕ) : Bytes := if n = 0 then [48] else (Nat.digits 10 n).reverse.map digit

/- The verb `%0wd`: the zeros stand between the sign and the digits. -/
def formatPadded (w : ℕ) (n : Int64) : Bytes :=
  let sign : Bytes := if n.toInt < 0 then [45] else []
  let digits := decimal n.toInt.natAbs
  sign ++ List.replicate (w - sign.length - digits.length) 48 ++ digits

/-! ### What is written reads back -/

theorem digit_toNat {d : ℕ} (h : d < 10) : (digit d).toNat = 48 + d := by
  simp only [digit, UInt8.toNat_ofNat']
  omega

theorem digitVal_digit {d : ℕ} (h : d < 10) : digitVal (digit d) = some d := by
  simp only [digitVal, digit_toNat h]
  rw [if_pos (by omega)]
  simp

theorem parseDigits_append (acc : ℕ) (s t : Bytes) :
    parseDigits acc (s ++ t) = (parseDigits acc s).bind fun n => parseDigits n t := by
  induction s generalizing acc with
  | nil => rfl
  | cons b s ih => cases hd : digitVal b <;> simp [parseDigits, hd, ih]

variable {s : Bytes}

theorem parseDigits_le {acc n : ℕ} (h : parseDigits acc s = some n) : acc ≤ n := by
  induction s generalizing acc with
  | nil => exact Nat.le_of_eq (Option.some.inj h)
  | cons b s ih =>
    obtain ⟨d, -, hrest⟩ := Option.bind_eq_some_iff.mp h
    have := ih hrest
    omega

/- Little-endian digits, so the induction adds the digit that is read last. -/
theorem parseDigits_reverse (ds : List ℕ) (hds : ∀ d ∈ ds, d < 10) :
    parseDigits 0 (ds.reverse.map digit) = some (Nat.ofDigits 10 ds) := by
  induction ds with
  | nil => rfl
  | cons d ds ih =>
    have hrest := ih fun x hx => hds x (List.mem_cons_of_mem d hx)
    have hd := digitVal_digit (hds d List.mem_cons_self)
    rw [List.reverse_cons, List.map_append, parseDigits_append, hrest, Nat.ofDigits_cons]
    simp [parseDigits, hd]
    ring

theorem parseDigits_decimal (n : ℕ) : parseDigits 0 (decimal n) = some n := by
  unfold decimal
  split
  · rename_i hn
    rw [hn]
    rfl
  · have hread := parseDigits_reverse (Nat.digits 10 n) fun d => Nat.digits_lt_base (by decide)
    rw [hread, Nat.ofDigits_digits]

theorem parseDigits_zeros (k : ℕ) (s : Bytes) :
    parseDigits 0 (List.replicate k 48 ++ s) = parseDigits 0 s := by
  induction k with
  | zero => rfl
  | succ k ih => simpa [List.replicate_succ, parseDigits, digitVal] using ih

theorem decimal_digits (n : ℕ) : ∀ b ∈ decimal n, ∃ d < 10, b = digit d := by
  intro b hb
  unfold decimal at hb
  split at hb
  · exact ⟨0, by decide, List.mem_singleton.mp hb⟩
  · obtain ⟨d, hd, rfl⟩ := List.mem_map.mp hb
    exact ⟨d, Nat.digits_lt_base (by decide) (List.mem_reverse.mp hd), rfl⟩

theorem decimal_ne_nil (n : ℕ) : decimal n ≠ [] := by
  unfold decimal
  split
  · simp
  · rename_i hn
    simpa [Nat.digits_ne_nil_iff_ne_zero] using hn

theorem parseUint_padded (k n : ℕ) : parseUint (List.replicate k 48 ++ decimal n) = some n := by
  rw [parseUint, if_neg (by simp [decimal_ne_nil]), parseDigits_zeros, parseDigits_decimal]

theorem digit_ne_sign {d : ℕ} (h : d < 10) : (45 : Byte) ≠ digit d ∧ (43 : Byte) ≠ digit d := by
  constructor <;>
    · intro he
      have hval := congrArg UInt8.toNat he
      rw [digit_toNat h] at hval
      simp at hval
      omega

/- Only a string that starts with a sign is read as one. -/
theorem parseInt_unsigned (h : ∀ b ∈ s, ∃ d < 10, b = digit d) :
    parseInt s =
      (parseUint s).bind fun n => if n < 2 ^ 63 then some (Int64.ofInt n) else none := by
  unfold parseInt
  split
  · obtain ⟨d, hd, he⟩ := h 45 List.mem_cons_self
    exact absurd he (digit_ne_sign hd).1
  · obtain ⟨d, hd, he⟩ := h 43 List.mem_cons_self
    exact absurd he (digit_ne_sign hd).2
  · rfl

theorem padded_digits (k n : ℕ) :
    ∀ b ∈ List.replicate k 48 ++ decimal n, ∃ d < 10, b = digit d := by
  intro b hb
  rcases List.mem_append.mp hb with hb | hb
  · exact ⟨0, by decide, List.eq_of_mem_replicate hb⟩
  · exact decimal_digits n b hb

theorem parseInt_formatPadded (w : ℕ) (n : Int64) : parseInt (formatPadded w n) = some n := by
  have hlt := n.toInt_lt
  have hle := n.le_toInt
  unfold formatPadded
  by_cases hneg : n.toInt < 0
  · have habs : (-(n.toInt.natAbs : ℤ)) = n.toInt := by omega
    simp only [hneg, if_true]
    rw [List.append_assoc, List.singleton_append]
    simp only [parseInt]
    rw [parseUint_padded, Option.bind_some, if_pos (by omega), habs, Int64.ofInt_toInt]
  · have habs : (n.toInt.natAbs : ℤ) = n.toInt := by omega
    simp only [hneg, if_false, List.nil_append]
    rw [parseInt_unsigned (padded_digits _ _), parseUint_padded, Option.bind_some,
      if_pos (by omega), habs, Int64.ofInt_toInt]

theorem formatPadded_inj {w : ℕ} {n m : Int64} (h : formatPadded w n = formatPadded w m) :
    n = m := by
  have hread := congrArg parseInt h
  rw [parseInt_formatPadded, parseInt_formatPadded] at hread
  exact Option.some.inj hread

/- A byte that is neither a digit nor the sign does not occur. -/
theorem notMem_formatPadded {b : Byte} (hsign : b ≠ 45) (hdigit : digitVal b = none) (w : ℕ)
    (n : Int64) : b ∉ formatPadded w n := by
  intro hb
  simp only [formatPadded, List.append_assoc] at hb
  rcases List.mem_append.mp hb with hb | hb
  · split at hb
    · exact hsign (List.mem_singleton.mp hb)
    · cases hb
  · obtain ⟨d, hd, rfl⟩ := padded_digits _ _ b hb
    rw [digitVal_digit hd] at hdigit
    cases hdigit

theorem formatPadded_zero {n : Int64} {m : ℕ} (h : n.toInt = m) :
    formatPadded 0 n = decimal m := by
  simp [formatPadded, h]

/- Only digits are read. -/
theorem parseDigits_digits {acc n : ℕ} (h : parseDigits acc s = some n) :
    ∀ b ∈ s, ∃ d < 10, b = digit d := by
  induction s generalizing acc with
  | nil => exact fun b hb => absurd hb List.not_mem_nil
  | cons c s ih =>
    obtain ⟨d, hd, hrest⟩ := Option.bind_eq_some_iff.mp h
    have hc : c = digit d ∧ d < 10 := by
      unfold digitVal at hd
      split at hd
      · cases hd
        refine ⟨?_, by omega⟩
        rw [digit, show 48 + (c.toNat - 48) = c.toNat by omega, UInt8.ofNat_toNat]
      · cases hd
    intro b hb
    rcases List.mem_cons.mp hb with rfl | hb
    · exact ⟨d, hc.2, hc.1⟩
    · exact ih hrest b hb

/-! ### `Atoi`, for callers that go on after an error -/

/- How far `ParseUint` comes; it stops at the first digit with which the value needs more than
64 bits. -/
inductive Scan where
  | value (n : ℕ)
  | badSyntax
  | range
  deriving DecidableEq

def scanDigits : ℕ → Bytes → Scan
  | acc, [] => .value acc
  | acc, b :: rest =>
    match digitVal b with
    | none => .badSyntax
    | some d => if 2 ^ 64 ≤ acc * 10 + d then .range else scanDigits (acc * 10 + d) rest

def scan (s : Bytes) : Scan := if s = [] then .badSyntax else scanDigits 0 s

/- The value that comes with the error is 0, or the nearest one in range. -/
def clampPos : Scan → Int64
  | .value n => Int64.ofInt (min n (2 ^ 63 - 1))
  | .badSyntax => 0
  | .range => Int64.ofInt (2 ^ 63 - 1)

def clampNeg : Scan → Int64
  | .value n => Int64.ofInt (max (-n) (-2 ^ 63))
  | .badSyntax => 0
  | .range => Int64.ofInt (-2 ^ 63)

/-- The first result of `strconv.Atoi(s)`. -/
def atoi : Bytes → Int64
  | 45 :: rest => clampNeg (scan rest)
  | 43 :: rest => clampPos (scan rest)
  | s => clampPos (scan s)

theorem scanDigits_of_parseDigits {acc n : ℕ} (hacc : acc < 2 ^ 64) (h : parseDigits acc s = some n) :
    
    scanDigits acc s = if 2 ^ 64 ≤ n then .range else .value n := by
  induction s generalizing acc with
  | nil =>
    cases h
    exact (if_neg (Nat.not_le.mpr hacc)).symm
  | cons b s ih =>
    obtain ⟨d, hd, hrest⟩ := Option.bind_eq_some_iff.mp h
    by_cases hbig : 2 ^ 64 ≤ acc * 10 + d
    · -- the digits that follow do not make the value smaller
      have hn : 2 ^ 64 ≤ n := Nat.le_trans hbig (parseDigits_le hrest)
      simp only [scanDigits, hd, if_pos hbig, if_pos hn]
    · simp only [scanDigits, hd, if_neg hbig]
      exact ih (Nat.lt_of_not_le hbig) hrest

theorem atoi_unsigned (h : ∀ b ∈ s, ∃ d < 10, b = digit d) : atoi s = clampPos (scan s) := by
  unfold atoi
  split
  · obtain ⟨d, hd, he⟩ := h 45 List.mem_cons_self
    exact absurd he (digit_ne_sign hd).1
  · obtain ⟨d, hd, he⟩ := h 43 List.mem_cons_self
    exact absurd he (digit_ne_sign hd).2
  · rfl

/-- A number written in decimal is read back, or the largest int64 if it is larger. -/
theorem atoi_decimal (n : ℕ) : (atoi (decimal n)).toInt = min (n : ℤ) (2 ^ 63 - 1) := by
  have hscan := scanDigits_of_parseDigits (by decide) (parseDigits_decimal n)
  rw [atoi_unsigned (decimal_digits n), scan, if_neg (decimal_ne_nil n), hscan]
  split
  · rw [clampPos, Int64.toInt_ofInt_of_le (by decide) (by decide)]
    omega
  · rw [clampPos, Int64.toInt_ofInt_of_le (by omega) (by omega)]

end EdgeDispatch.Lib.GoStrconv
