import EdgeDispatch.Lib.GoStrings

/-! # Escaping in Go's net/url -/

namespace EdgeDispatch.Lib.GoURL
open Lib.ByteString Lib.GoStrings

def hexDigit (n : ℕ) : Byte := if n < 10 then UInt8.ofNat (48 + n) else UInt8.ofNat (55 + n)

def unhex (b : Byte) : Option Byte :=
  if 48 ≤ b ∧ b ≤ 57 then some (b - 48)
  else if 97 ≤ b ∧ b ≤ 102 then some (b - 97 + 10)
  else if 65 ≤ b ∧ b ≤ 70 then some (b - 65 + 10)
  else none

/- Letters, digits and `-_.~`. -/
def unreserved (b : Byte) : Bool :=
  (97 ≤ b && b ≤ 122) || (65 ≤ b && b ≤ 90) || (48 ≤ b && b ≤ 57) || (lit "-_.~").contains b

def percent (b : Byte) : Bytes := [37, hexDigit (b.toNat / 16), hexDigit (b.toNat % 16)]

/- In a path segment the reserved bytes `$&+:=@` stay as well. -/
def pathEscape (s : Bytes) : Bytes :=
  s.flatMap fun b => if unreserved b || (lit "$&+:=@").contains b then [b] else percent b

def queryEscape (s : Bytes) : Bytes :=
  s.flatMap fun b => if unreserved b then [b] else if b = 32 then [43] else percent b

/-- An error, here `none`, if a percent sign is not followed by two hexadecimal digits. -/
def pathUnescape : Bytes → Option Bytes
  | [] => some []
  | b :: rest =>
    if b = 37 then
      match rest with
      | x :: y :: rest' =>
        match unhex x, unhex y with
        | some hi, some lo => (pathUnescape rest').map ((hi <<< 4 ||| lo) :: ·)
        | _, _ => none
      | _ => none
    else (pathUnescape rest).map (b :: ·)

/-! ### Unescaping what was escaped -/

theorem unhex_hexDigit : ∀ n < 16, unhex (hexDigit n) = some (UInt8.ofNat n) := by decide

theorem nibbles (b : Byte) :
    UInt8.ofNat (b.toNat / 16) <<< 4 ||| UInt8.ofNat (b.toNat % 16) = b := by
  have hall : ∀ n < 256, UInt8.ofNat (n / 16) <<< 4 ||| UInt8.ofNat (n % 16) = UInt8.ofNat n := by
    decide +kernel
  rw [hall b.toNat b.toNat_lt, UInt8.ofNat_toNat]

theorem pathUnescape_cons {b : Byte} (hb : b ≠ 37) (rest : Bytes) :
    pathUnescape (b :: rest) = (pathUnescape rest).map (b :: ·) := by
  conv_lhs => unfold pathUnescape
  exact if_neg hb

theorem pathUnescape_percent (b : Byte) (rest : Bytes) :
    pathUnescape (percent b ++ rest) = (pathUnescape rest).map (b :: ·) := by
  have hb : b.toNat < 256 := b.toNat_lt
  have hhi := unhex_hexDigit (b.toNat / 16) (by omega)
  have hlo := unhex_hexDigit (b.toNat % 16) (by omega)
  show pathUnescape (37 :: hexDigit (b.toNat / 16) :: hexDigit (b.toNat % 16) :: rest) = _
  rw [pathUnescape, if_pos rfl, hhi, hlo]
  simp only [nibbles]

theorem pathUnescape_pathEscape (s rest : Bytes) :
    pathUnescape (pathEscape s ++ rest) = (pathUnescape rest).map (s ++ ·) := by
  induction s with
  | nil => simp [pathEscape]
  | cons b s ih =>
    rw [pathEscape, List.flatMap_cons, List.append_assoc]
    have htail : pathUnescape (pathEscape s ++ rest) = (pathUnescape rest).map (s ++ ·) := ih
    split
    · rename_i hplain
      have hb : b ≠ 37 := by
        rintro rfl
        exact absurd hplain (by decide)
      rw [List.singleton_append, pathUnescape_cons hb, ← pathEscape, htail, Option.map_map]
      rfl
    · rw [pathUnescape_percent, ← pathEscape, htail, Option.map_map]
      rfl

/- Segments that are escaped one by one. -/
theorem pathUnescape_join {c : Byte} (hc : c ≠ 37) (parts : List Bytes) :
    pathUnescape (join c (parts.map pathEscape)) = some (join c parts) := by
  induction parts with
  | nil => rfl
  | cons p parts ih =>
    cases parts with
    | nil => simpa [join, List.intercalate, pathUnescape] using pathUnescape_pathEscape p []
    | cons q parts =>
      rw [List.map_cons, List.map_cons, join_cons_cons, pathUnescape_pathEscape,
        pathUnescape_cons hc, ← List.map_cons, ih, join_cons_cons]
      rfl

/-! ### What is escaped, and where -/

theorem pathUnescape_of_notMem {s : Bytes} (h : 37 ∉ s) : pathUnescape s = some s := by
  induction s with
  | nil => rfl
  | cons b s ih =>
    simp only [List.mem_cons, not_or] at h
    rw [pathUnescape_cons (Ne.symm h.1), ih h.2]
    rfl

theorem pathUnescape_escape {x y hi lo : Byte} (hx : unhex x = some hi) (hy : unhex y = some lo)
    (rest : Bytes) :
    pathUnescape (37 :: x :: y :: rest) = (pathUnescape rest).map ((hi <<< 4 ||| lo) :: ·) := by
  rw [pathUnescape, if_pos rfl, hx, hy]

theorem pathUnescape_not_escape {x y : Byte} (h : unhex x = none ∨ unhex y = none) (rest : Bytes) :
    pathUnescape (37 :: x :: y :: rest) = none := by
  rw [pathUnescape, if_pos rfl]
  rcases h with h | h
  · rw [h]
  · cases hx : unhex x with
    | none => rfl
    | some hi => rw [h]

/-- A byte that no escape has stands between two texts that are unescaped apart. -/
theorem pathUnescape_append_cons {c : Byte} (hc : c ≠ 37) (hx : unhex c = none) (s t : Bytes) :
    pathUnescape (s ++ c :: t) =
      (pathUnescape s).bind fun a => (pathUnescape t).map fun b => a ++ c :: b := by
  fun_induction pathUnescape s with
  | case1 => simp [pathUnescape_cons hc]
  | case2 x y rest hi lo hy hx ih =>
    rw [List.cons_append, List.cons_append, List.cons_append, pathUnescape_escape hx hy, ih]
    cases pathUnescape rest with
    | none => rfl
    | some a => simp [Function.comp_def]
  | case3 x y rest hno =>
    refine pathUnescape_not_escape ?_ (rest ++ c :: t)
    by_contra hall
    simp only [not_or, ← ne_eq, Option.ne_none_iff_exists'] at hall
    obtain ⟨⟨hi, hhi⟩, lo, hlo⟩ := hall
    exact hno hi lo hhi hlo
  | case4 rest hshort =>
    -- the byte itself is where the second or third of the escape should be
    match rest, hshort with
    | [], _ =>
      cases t with
      | nil => rfl
      | cons y t => exact pathUnescape_not_escape (Or.inl hx) t
    | [x], _ => exact pathUnescape_not_escape (Or.inr hx) t
    | x :: y :: rest, hshort => exact absurd rfl (hshort x y rest)
  | case5 b rest hb ih =>
    rw [List.cons_append, pathUnescape_cons hb, ih]
    cases pathUnescape rest with
    | none => rfl
    | some a => simp [Function.comp_def]

theorem pathUnescape_length {s t : Bytes} (h : pathUnescape s = some t) :
    t.length ≤ s.length ∧ (37 ∈ s → t.length < s.length) := by
  fun_induction pathUnescape s generalizing t with
  | case1 =>
    cases h
    exact ⟨le_refl _, fun hmem => absurd hmem List.not_mem_nil⟩
  | case2 x y rest hi lo hy hx ih =>
    obtain ⟨a, ha, rfl⟩ := Option.map_eq_some_iff.mp h
    have hle := (ih ha).1
    simp only [List.length_cons]
    exact ⟨by omega, fun _ => by omega⟩
  | case3 x y rest hno => cases h
  | case4 rest hshort => cases h
  | case5 b rest hb ih =>
    obtain ⟨a, ha, rfl⟩ := Option.map_eq_some_iff.mp h
    obtain ⟨hle, hlt⟩ := ih ha
    refine ⟨Nat.succ_le_succ hle, fun hmem => Nat.succ_lt_succ (hlt ?_)⟩
    rcases List.mem_cons.mp hmem with heq | hmem
    · exact absurd heq.symm hb
    · exact hmem

/-- Bytes that no escape has can be put around a text. -/
theorem pathUnescape_surrounded {l r : Bytes} (hl : 37 ∉ l) (hr : ∀ b ∈ r, b ≠ 37 ∧ unhex b = none)
    (s : Bytes) : pathUnescape (l ++ s ++ r) = (pathUnescape s).map fun a => l ++ a ++ r := by
  have hright : pathUnescape (s ++ r) = (pathUnescape s).map (· ++ r) := by
    cases r with
    | nil => simp
    | cons b r =>
      obtain ⟨hb, hx⟩ := hr b List.mem_cons_self
      have hrest : 37 ∉ r := fun hmem => (hr 37 (List.mem_cons_of_mem b hmem)).1 rfl
      rw [pathUnescape_append_cons hb hx, pathUnescape_of_notMem hrest]
      cases pathUnescape s with
      | none => rfl
      | some a => rfl
  rw [List.append_assoc]
  induction l with
  | nil =>
    rw [List.nil_append, hright]
    rfl
  | cons b l ih =>
    simp only [List.mem_cons, not_or] at hl
    rw [List.cons_append, pathUnescape_cons (Ne.symm hl.1), ih hl.2, Option.map_map]
    rfl

theorem pathUnescape_join_eq_none {c : Byte} (hc : c ≠ 37) (hx : unhex c = none)
    {parts : List Bytes} :
    pathUnescape (join c parts) = none ↔ ∃ p ∈ parts, pathUnescape p = none := by
  induction parts with
  | nil => simp [join, pathUnescape]
  | cons p parts ih =>
    cases parts with
    | nil => simp [join_singleton]
    | cons q parts =>
      rw [join_cons_cons, pathUnescape_append_cons hc hx, List.exists_mem_cons_iff, ← ih]
      cases pathUnescape p with
      | none => simp
      | some a => simp

end EdgeDispatch.Lib.GoURL
