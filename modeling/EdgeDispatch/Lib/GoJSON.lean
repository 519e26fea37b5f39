import Mathlib.Algebra.Group.Int.Defs
import Mathlib.Algebra.Group.Nat.Defs
import Mathlib.Data.List.Nodup
import Mathlib.Data.Rat.Defs

/-! # Values of encoding/json, and structs decoded from them -/

namespace EdgeDispatch.Lib.GoJSON

inductive Json where
  | null
  | bool (b : Bool)
  | num (q : ℚ)
  | str (s : String)
  | arr (items : List Json)
  | obj (members : List (String × Json))

/- The names of members and fields are compared without regard to case. -/
def fold (name : String) : List Char := name.toList.map Char.toLower

/- A later member of the same name overwrites an earlier one. -/
def member (name : String) (members : List (String × Json)) : Option Json :=
  (members.reverse.find? fun m => fold m.1 = fold name).map Prod.snd

/-! ### Decoders; `none` is an error, and null leaves the zero value -/

def decodeString : Json → Option String
  | .str s => some s
  | .null => some ""
  | _ => none

def decodeBool : Json → Option Bool
  | .bool b => some b
  | .null => some false
  | _ => none

/- An int of 64 bits. -/
def decodeInt : Json → Option ℤ
  | .num q => if q.den = 1 ∧ -2 ^ 63 ≤ q.num ∧ q.num < 2 ^ 63 then some q.num else none
  | .null => some 0
  | _ => none

def decodeList {α : Type} (decode : Json → Option α) : Json → Option (List α)
  | .arr items => items.mapM decode
  | .null => some []
  | _ => none

/- The field of a struct: a member that is missing leaves the zero value. -/
def field {α : Type} (name : String) (decode : Json → Option α) (zero : α)
    (members : List (String × Json)) : Option α :=
  match member name members with
  | none => some zero
  | some v => decode v

variable {members : List (String × Json)}

theorem member_eq_none {name : String} (h : ∀ m ∈ members, fold m.1 ≠ fold name) :
    member name members = none := by
  have hfind : (members.reverse.find? fun m => decide (fold m.1 = fold name)) = none := by
    rw [List.find?_eq_none]
    intro m hm
    simpa using h m (List.mem_reverse.mp hm)
  rw [member, hfind]
  rfl

/- Members of different names. -/
theorem member_eq_some {name : String} {v : Json} (hnodup : (members.map fun m => fold m.1).Nodup)
    (hmem : (name, v) ∈ members) : member name members = some v := by
  cases hfind : members.reverse.find? fun m => decide (fold m.1 = fold name) with
  | none =>
    rw [List.find?_eq_none] at hfind
    exact absurd (by simp) (hfind (name, v) (List.mem_reverse.mpr hmem))
  | some m =>
    have hm : m ∈ members := List.mem_reverse.mp (List.mem_of_find?_eq_some hfind)
    have hfold : fold m.1 = fold name := by simpa using List.find?_some hfind
    rw [member, hfind, List.inj_on_of_nodup_map hnodup hm hmem hfold]
    rfl

end EdgeDispatch.Lib.GoJSON
