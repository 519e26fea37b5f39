import EdgeDispatch.Lib.GoStrings
import EdgeDispatch.Lib.GoStrconv
import Mathlib.Data.List.TakeWhile

/-! # Formatted printing of one int64 (package fmt)

`Sprintf` copies the format up to the next percent sign, lets the directive after it print
what it prints, and goes on behind it. An argument that no directive has taken is printed
at the end, as an error. The directives are a parameter. -/

namespace EdgeDispatch.Lib.GoFmt
open Lib.ByteString Lib.GoStrings Lib.GoStrconv

/- How many arguments are taken, and whether they were taken out of order. -/
structure Taken where
  argNum : ℕ
  reordered : Bool

/- What a directive prints of the argument, what it takes and how many bytes of the format it
   has, from the text behind the percent sign. -/
abbrev Directives := Int64 → Taken → Bytes → Bytes × Taken × ℕ

/- The loop of `doPrintf`. -/
def doPrintf (directive : Directives) (arg : Int64) : ℕ → Taken → Bytes → Bytes × Taken
  | 0, taken, _ => ([], taken)
  | fuel + 1, taken, format =>
    match format.dropWhile (· ≠ 37) with
    | [] => (format, taken)
    | _ :: rest =>
      let (text, taken, size) := directive arg taken rest
      let (more, taken) := doPrintf directive arg fuel taken (rest.drop size)
      (format.takeWhile (· ≠ 37) ++ text ++ more, taken)

/- The text for an argument that was not asked for. -/
def extra (arg : Int64) : Bytes := lit "%!(EXTRA int64=" ++ formatPadded 0 arg ++ lit ")"

/- `fmt.Sprintf(format, arg)` -/
def sprintf (directive : Directives) (format : Bytes) (arg : Int64) : Bytes :=
  let (text, taken) := doPrintf directive arg (format.length + 1) ⟨0, false⟩ format
  if taken.reordered = false ∧ taken.argNum < 1 then text ++ extra arg else text

/-- Without a percent sign no directive takes the argument. -/
theorem sprintf_plain (directive : Directives) {format : Bytes} (h : 37 ∉ format) (arg : Int64) :
    sprintf directive format arg = format ++ extra arg := by
  have hdrop : format.dropWhile (· ≠ 37) = [] := by
    rw [List.dropWhile_eq_nil_iff]
    intro b hb
    simpa using fun heq : b = 37 => h (heq ▸ hb)
  have hloop : doPrintf directive arg (format.length + 1) ⟨0, false⟩ format =
      (format, ⟨0, false⟩) := by
    unfold doPrintf
    rw [hdrop]
  simp [sprintf, hloop]

theorem extra_ne_nil (arg : Int64) : extra arg ≠ [] := by
  simp [extra, lit]

end EdgeDispatch.Lib.GoFmt
