import EdgeDispatch.Lib.GoStrings
import EdgeDispatch.Lib.GoStrconv
import EdgeDispatch.Lib.Digest

/-! # The text that Go's encoding/json writes

Strings are quoted and escaped, byte slices are strings in standard base64, and the members
of an object stand in the order of the struct's fields. -/

namespace EdgeDispatch.Lib.JsonText
open Lib.ByteString Lib.GoStrings Lib.GoStrconv
open Lib.Digest (hexDigit)

/-! ### Base64 -/

def sextet (n : ℕ) : Byte :=
  UInt8.ofNat (if n < 26 then 65 + n else if n < 52 then 71 + n else if n < 62 then n - 4
    else if n = 62 then 43 else 47)

/- Three bytes are four characters, and what is missing at the end is padded with '='. -/
def encodeBase64 : Bytes → Bytes
  | [] => []
  | [a] => [sextet (a.toNat / 4), sextet (a.toNat % 4 * 16), 61, 61]
  | [a, b] => [sextet (a.toNat / 4), sextet (a.toNat % 4 * 16 + b.toNat / 16),
      sextet (b.toNat % 16 * 4), 61]
  | a :: b :: c :: rest =>
    sextet (a.toNat / 4) :: sextet (a.toNat % 4 * 16 + b.toNat / 16) ::
      sextet (b.toNat % 16 * 4 + c.toNat / 64) :: sextet (c.toNat % 64) :: encodeBase64 rest

theorem encodeBase64_length (bs : Bytes) : (encodeBase64 bs).length = 4 * ((bs.length + 2) / 3) := by
  fun_induction encodeBase64 bs with
  | case1 => rfl
  | case2 a => simp
  | case3 a b => simp
  | case4 a b c rest ih =>
    simp only [List.length_cons, ih]
    omega

example : encodeBase64 (lit "Man") = lit "TWFu" := by decide
example : encodeBase64 (lit "Ma") = lit "TWE=" := by decide

/-! ### Strings -/

/- A byte below 128. HTML's special characters are escaped like control characters. -/
def escape (b : Byte) : Bytes :=
  if b = 34 ∨ b = 92 then [92, b]
  else if b = 8 then lit "\\b"
  else if b = 12 then lit "\\f"
  else if b = 10 then lit "\\n"
  else if b = 13 then lit "\\r"
  else if b = 9 then lit "\\t"
  else if b < 32 ∨ b = 60 ∨ b = 62 ∨ b = 38 then
    lit "\\u00" ++ [hexDigit (b.toNat / 16), hexDigit (b.toNat % 16)]
  else [b]

def isCont (b : Byte) : Bool := 0x80 ≤ b ∧ b ≤ 0xBF

/- How many bytes the character at the front has, `none` if they are not valid UTF-8. -/
def runeSize : Bytes → Option ℕ
  | a :: rest =>
    if a < 0x80 then some 1
    else if 0xC2 ≤ a ∧ a ≤ 0xDF then
      match rest with
      | b :: _ => if isCont b then some 2 else none
      | [] => none
    else if 0xE0 ≤ a ∧ a ≤ 0xEF then
      match rest with
      | b :: c :: _ =>
        if isCont b ∧ isCont c ∧ (a = 0xE0 → 0xA0 ≤ b) ∧ (a = 0xED → b ≤ 0x9F) then some 3 else none
      | _ => none
    else if 0xF0 ≤ a ∧ a ≤ 0xF4 then
      match rest with
      | b :: c :: d :: _ =>
        if isCont b ∧ isCont c ∧ isCont d ∧ (a = 0xF0 → 0x90 ≤ b) ∧ (a = 0xF4 → b ≤ 0x8F) then some 4
        else none
      | _ => none
    else none
  | [] => none

/- What the character at the front is written as, and its size. The two line separators are
   escaped; a byte that is not valid UTF-8 is replaced. -/
def quoteRune (s : Bytes) : Bytes × ℕ :=
  match s.head?, runeSize s with
  | some b, some 1 => (escape b, 1)
  | _, some size =>
    if s.take size = [0xE2, 0x80, 0xA8] then (lit "\\u2028", 3)
    else if s.take size = [0xE2, 0x80, 0xA9] then (lit "\\u2029", 3)
    else (s.take size, size)
  | _, none => (lit "\\ufffd", 1)

/- `skip` bytes belong to the character that was written last. -/
def quoteFrom : ℕ → Bytes → Bytes
  | _, [] => []
  | skip + 1, _ :: rest => quoteFrom skip rest
  | 0, b :: rest => (quoteRune (b :: rest)).1 ++ quoteFrom ((quoteRune (b :: rest)).2 - 1) rest

def quote (s : Bytes) : Bytes := 34 :: quoteFrom 0 s ++ [34]

example : quote (lit "a\"<\n") = lit "\"a\\\"\\u003c\\n\"" := by decide
example : quote [0xC3, 0xA4, 0xC3] = [34, 0xC3, 0xA4] ++ lit "\\ufffd\"" := by decide

/- What a text is after it was quoted and read back. -/
def coerceFrom : ℕ → Bytes → Bytes
  | _, [] => []
  | skip + 1, b :: rest => b :: coerceFrom skip rest
  | 0, b :: rest =>
    match runeSize (b :: rest) with
    | some size => b :: coerceFrom (size - 1) rest
    | none => [0xEF, 0xBF, 0xBD] ++ coerceFrom 0 rest

def coerceUTF8 (s : Bytes) : Bytes := coerceFrom 0 s

theorem coerceUTF8_ascii {s : Bytes} (h : ∀ b ∈ s, b < 0x80) : coerceUTF8 s = s := by
  rw [coerceUTF8]
  induction s with
  | nil => rfl
  | cons b rest ih =>
    have hsize : runeSize (b :: rest) = some 1 := if_pos (h b List.mem_cons_self)
    rw [coerceFrom, hsize]
    exact congrArg _ (ih fun c hc => h c (List.mem_cons_of_mem b hc))

/-! ### Numbers, arrays and objects -/

def formatInt (n : ℤ) : Bytes := (if n < 0 then [45] else []) ++ decimal n.natAbs

def array (items : List Bytes) : Bytes := 91 :: join 44 items ++ [93]

/- The names of members are plain text. -/
def member (m : String × Bytes) : Bytes := 34 :: lit m.1 ++ [34, 58] ++ m.2

def object (members : List (String × Bytes)) : Bytes := 123 :: join 44 (members.map member) ++ [125]

theorem array_length {items : List Bytes} (h : items ≠ []) :
    (array items).length = 1 + (items.map fun item => item.length + 1).sum := by
  have hjoin := join_length (c := 44) h
  simp only [array, List.cons_append, List.length_cons, List.length_append, List.length_nil]
  omega

theorem member_length (m : String × Bytes) : (member m).length = m.1.length + m.2.length + 3 := by
  simp only [member, lit, List.cons_append, List.length_cons, List.length_append, List.length_map,
    List.length_nil, String.length_toList]
  omega

theorem object_length {members : List (String × Bytes)} (h : members ≠ []) :
    (object members).length = 1 + (members.map fun m => m.1.length + m.2.length + 4).sum := by
  have hne : members.map member ≠ [] := by simpa using h
  have hjoin := join_length (c := 44) hne
  have hmembers : ((members.map member).map fun p => p.length + 1) =
      members.map fun m => m.1.length + m.2.length + 4 := by
    rw [List.map_map]
    refine List.map_congr_left fun m _ => ?_
    show (member m).length + 1 = _
    rw [member_length]
  rw [hmembers] at hjoin
  simp only [object, List.cons_append, List.length_cons, List.length_append, List.length_nil]
  omega

end EdgeDispatch.Lib.JsonText
