import Mathlib.Data.List.Nodup

/-! # Loops over a map (`for k, v := range m`)

A loop visits every entry once, in an order that the runtime chooses. A map is the function
that looks a key up. -/

namespace EdgeDispatch.Lib.MapRange
variable {α β : Type*}

/-- An order in which a loop can visit the keys of `m`. -/
structure Visits (m : α → Option β) (order : List α) : Prop where
  nodup : order.Nodup
  mem_iff : ∀ a, a ∈ order ↔ (m a).isSome = true

theorem visits_empty : Visits (fun _ : α => (none : Option β)) [] :=
  ⟨List.nodup_nil, fun _ => by simp⟩

section
variable [DecidableEq α]
variable {order : List α} {p : α → Option Bool}

theorem Visits.set {m : α → Option β} (h : Visits m order) (a : α) (b : β) :
    ∃ order', Visits (Function.update m a (some b)) order' := by
  refine ⟨a :: order.filter (· ≠ a), ⟨?_, fun x => ?_⟩⟩
  · exact List.nodup_cons.mpr ⟨by simp, h.nodup.filter _⟩
  · by_cases hx : x = a
    · simp [hx]
    · simp [hx, h.mem_iff]

theorem Visits.delete {m : α → Option β} (h : Visits m order) (a : α) :
    ∃ order', Visits (Function.update m a none) order' := by
  refine ⟨order.filter (· ≠ a), ⟨h.nodup.filter _, fun x => ?_⟩⟩
  by_cases hx : x = a
  · simp [hx]
  · simp [hx, h.mem_iff]

/-- A loop that sets `acc[a] = true` for the keys that `p` accepts; `none` is a panic. -/
def mark (p : α → Option Bool) : List α → (α → Bool) → Option (α → Bool)
  | [], acc => some acc
  | a :: rest, acc =>
    match p a with
    | none => none
    | some b => mark p rest (if b then Function.update acc a true else acc)

theorem mark_eq_none {acc : α → Bool} : mark p order acc = none ↔ ∃ a ∈ order, p a = none := by
  induction order generalizing acc with
  | nil => simp [mark]
  | cons a rest ih =>
    rw [mark, List.exists_mem_cons_iff]
    cases hp : p a with
    | none => simp
    | some b => simp [ih]

theorem mark_eq_some {acc r : α → Bool} (h : mark p order acc = some r) (x : α) :
    r x = true ↔ acc x = true ∨ (x ∈ order ∧ p x = some true) := by
  induction order generalizing acc with
  | nil =>
    cases h
    simp
  | cons a rest ih =>
    rw [mark] at h
    cases hp : p a with
    | none =>
      rw [hp] at h
      cases h
    | some b =>
      rw [hp] at h
      rw [ih h, List.mem_cons]
      by_cases hx : x = a
      · cases b <;> simp [hx, hp]
      · cases b <;> simp [hx]

/-- The same loop with a test that cannot panic. -/
def collect (p : α → Bool) (order : List α) (acc : α → Bool) : α → Bool :=
  order.foldl (fun acc a => if p a then Function.update acc a true else acc) acc

theorem mark_some (p : α → Bool) (order : List α) (acc : α → Bool) :
    mark (fun a => some (p a)) order acc = some (collect p order acc) := by
  induction order generalizing acc with
  | nil => rfl
  | cons a rest ih => exact ih _

theorem collect_eq_true {p : α → Bool} {x : α} :
    collect p order (fun _ => false) x = true ↔ x ∈ order ∧ p x = true := by
  have h := mark_eq_some (mark_some p order fun _ => false) x
  simpa using h

end

end EdgeDispatch.Lib.MapRange
