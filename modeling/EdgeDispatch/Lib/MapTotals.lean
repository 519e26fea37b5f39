import Mathlib.Algebra.BigOperators.Group.List.Basic
import Mathlib.Data.List.AList
import Mathlib.Tactic.Ring

/-! # Totals over the values of a map -/

namespace EdgeDispatch.Lib.MapTotals
variable {α β : Type*} [DecidableEq α]

def total (f : β → ℤ) (m : AList fun _ : α => β) : ℤ := (m.entries.map fun e => f e.2).sum

/- What a key adds to the total. -/
def share (f : β → ℤ) (m : AList fun _ : α => β) (a : α) : ℤ := (m.lookup a).elim 0 f

theorem sum_kerase (f : β → ℤ) (a : α) (l : List (Σ _ : α, β)) :
    ((l.kerase a).map fun e => f e.2).sum = (l.map fun e => f e.2).sum - (l.dlookup a).elim 0 f := by
  induction l with
  | nil => simp
  | cons e l ih =>
    obtain ⟨k, v⟩ := e
    by_cases hk : a = k
    · subst hk
      have herase : List.kerase a (⟨a, v⟩ :: l) = l := List.kerase_cons_eq rfl
      rw [herase, List.dlookup_cons_eq, List.map_cons, List.sum_cons]
      simp
    · rw [List.kerase_cons_ne hk, List.dlookup_cons_ne _ _ hk, List.map_cons, List.sum_cons, ih,
        List.map_cons, List.sum_cons]
      ring

theorem total_erase (f : β → ℤ) (m : AList fun _ : α => β) (a : α) :
    total f (m.erase a) = total f m - share f m a :=
  sum_kerase f a m.entries

theorem total_insert (f : β → ℤ) (m : AList fun _ : α => β) (a : α) (b : β) :
    total f (m.insert a b) = total f m - share f m a + f b := by
  have herase := sum_kerase f a m.entries
  rw [total, AList.entries_insert, List.map_cons, List.sum_cons, herase]
  exact Int.add_comm _ _

omit [DecidableEq α] in
theorem total_congr {f g : β → ℤ} {m : AList fun _ : α => β}
    (h : ∀ e ∈ m.entries, f e.2 = g e.2) : total f m = total g m := by
  unfold total
  rw [List.map_congr_left h]

end EdgeDispatch.Lib.MapTotals
