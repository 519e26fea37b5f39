import EdgeDispatch.Lib.GoStrings

/-! # Header names and header maps of Go's net/http -/

namespace EdgeDispatch.Lib.HttpHeader
open Lib.ByteString Lib.GoStrings

def isLower (b : Byte) : Bool := 97 ≤ b && b ≤ 122
def isUpper (b : Byte) : Bool := 65 ≤ b && b ≤ 90

/- The bytes of a token. -/
def validHeaderFieldByte (b : Byte) : Bool :=
  isLower b || isUpper b || (48 ≤ b && b ≤ 57) || (lit "!#$%&'*+-.^_`|~").contains b

def canonicalLetter (upper : Bool) (b : Byte) : Byte :=
  if upper && isLower b then b - 32 else if !upper && isUpper b then b + 32 else b

/- The first letter and each letter behind a hyphen is a capital, all others are not. -/
def canonicalLetters : Bool → Bytes → Bytes
  | _, [] => []
  | upper, b :: rest =>
    canonicalLetter upper b :: canonicalLetters (canonicalLetter upper b = 45) rest

/-- A name that is no token stays as it is. -/
def canonicalMIMEHeaderKey (s : Bytes) : Bytes :=
  if s.all validHeaderFieldByte then canonicalLetters true s else s

/-- A `map[string][]string`; a name may stand in it without a value. -/
abbrev Header := Bytes → Option (List Bytes)

namespace Header

def get (h : Header) (name : Bytes) : Bytes :=
  ((h (canonicalMIMEHeaderKey name)).getD []).headD []

def set (h : Header) (name value : Bytes) : Header :=
  fun k => if k = canonicalMIMEHeaderKey name then some [value] else h k

def del (h : Header) (name : Bytes) : Header :=
  fun k => if k = canonicalMIMEHeaderKey name then none else h k

def Canonical (h : Header) : Prop := ∀ k, h k ≠ none → canonicalMIMEHeaderKey k = k

end Header

/-! ### Letter case -/

theorem forall_byte {P : Byte → Prop} (h : ∀ n < 256, P (UInt8.ofNat n)) (b : Byte) : P b := by
  have hb := h b.toNat b.toNat_lt
  rwa [UInt8.ofNat_toNat] at hb

theorem validHeaderFieldByte_lower (b : Byte) :
    validHeaderFieldByte (lowerByte b) = validHeaderFieldByte b :=
  forall_byte (P := fun b => validHeaderFieldByte (lowerByte b) = validHeaderFieldByte b)
    (by decide +kernel) b

/- A letter is written the same, whatever its case was. -/
theorem canonicalLetter_lower (upper : Bool) (b : Byte) :
    canonicalLetter upper (lowerByte b) = canonicalLetter upper b :=
  forall_byte (P := fun b => canonicalLetter upper (lowerByte b) = canonicalLetter upper b)
    (by cases upper <;> decide +kernel) b

theorem canonicalLetters_toLower (upper : Bool) (s : Bytes) :
    canonicalLetters upper (toLower s) = canonicalLetters upper s := by
  induction s generalizing upper with
  | nil => rfl
  | cons b s ih =>
    have hcons : toLower (b :: s) = lowerByte b :: toLower s := rfl
    rw [hcons, canonicalLetters, canonicalLetters, canonicalLetter_lower, ih]

theorem all_valid_toLower (s : Bytes) :
    (toLower s).all validHeaderFieldByte = s.all validHeaderFieldByte := by
  rw [toLower, List.all_map]
  exact congrArg s.all (funext validHeaderFieldByte_lower)

/-- The canonical form of a token depends on its letters only. -/
theorem canonical_eq_of_toLower {k h : Bytes} (hh : h.all validHeaderFieldByte = true)
    (he : toLower k = toLower h) : canonicalMIMEHeaderKey k = canonicalMIMEHeaderKey h := by
  have hk : k.all validHeaderFieldByte = true := by
    rw [← all_valid_toLower, he, all_valid_toLower]
    exact hh
  rw [canonicalMIMEHeaderKey, canonicalMIMEHeaderKey, if_pos hk, if_pos hh,
    ← canonicalLetters_toLower true k, he, canonicalLetters_toLower]

example : canonicalMIMEHeaderKey (lit "x-real-IP") = lit "X-Real-Ip" := by decide +kernel

end EdgeDispatch.Lib.HttpHeader
