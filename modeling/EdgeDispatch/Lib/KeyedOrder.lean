import Mathlib.Data.List.Sort

/-! # Rows in an order that a key leaves open

`ORDER BY key DESC` puts rows in an order of descending keys. Rows with the same key may come
in any order, and in another one each time. -/

namespace EdgeDispatch.Lib.KeyedOrder
variable {ρ : Type*} {key : ρ → ℕ} {found order order' : List ρ} {p : ℕ}

/-- An order in which the rows may come. -/
structure Orders (key : ρ → ℕ) (found order : List ρ) : Prop where
  perm : order.Perm found
  sorted : order.Pairwise fun a b => key b ≤ key a

/- The keys in their order, which is the same in every order of the rows. -/
def keys (key : ρ → ℕ) (found : List ρ) : List ℕ := (found.map key).insertionSort (· ≥ ·)

/- The rows at the places `p - 1` and `p` have different keys. -/
def Gap (key : ρ → ℕ) (found : List ρ) (p : ℕ) : Prop :=
  (keys key found)[p - 1]? ≠ (keys key found)[p]?

instance : Decidable (Gap key found p) := inferInstanceAs (Decidable (_ ≠ _))

theorem exists_orders (key : ρ → ℕ) (found : List ρ) : ∃ order, Orders key found order := by
  let r : ρ → ρ → Prop := fun a b => key b ≤ key a
  have : Std.Total r := ⟨fun a b => Nat.le_total (key b) (key a)⟩
  have : IsTrans ρ r := ⟨fun _ _ _ hab hbc => Nat.le_trans hbc hab⟩
  classical
  exact ⟨found.insertionSort r, List.perm_insertionSort r found, List.pairwise_insertionSort r found⟩

namespace Orders

theorem length_eq (h : Orders key found order) : order.length = found.length := h.perm.length_eq

theorem map_key (h : Orders key found order) : order.map key = keys key found := by
  have hperm : (order.map key).Perm (keys key found) :=
    (h.perm.map key).trans (List.perm_insertionSort _ _).symm
  have hsorted : (order.map key).Pairwise (· ≥ ·) := List.pairwise_map.mpr h.sorted
  exact hperm.eq_of_pairwise' hsorted (List.pairwise_insertionSort _ _)

/- The two rows at a boundary. -/
theorem split (h : Orders key found order) (hp : 0 < p) (hlt : p < found.length) :
    ∃ a x y b, order = a ++ x :: y :: b ∧ a.length + 1 = p ∧
      (keys key found)[p - 1]? = some (key x) ∧ (keys key found)[p]? = some (key y) := by
  have hlen := h.length_eq
  obtain ⟨x, y, b, htail⟩ : ∃ x y b, order.drop (p - 1) = x :: y :: b := by
    match htail : order.drop (p - 1) with
    | x :: y :: b => exact ⟨x, y, b, rfl⟩
    | [_] | [] =>
      have := congrArg List.length htail
      simp only [List.length_drop, List.length_cons, List.length_nil] at this
      omega
  have horder : order = order.take (p - 1) ++ x :: y :: b := by
    rw [← htail, List.take_append_drop]
  have htake : (order.take (p - 1)).length = p - 1 := by
    rw [List.length_take]
    omega
  have hx : order[p - 1]? = some x := by
    rw [horder, List.getElem?_append_right (by omega), htake]
    simp
  have hy : order[p]? = some y := by
    rw [horder, List.getElem?_append_right (by omega), htake]
    have : p - (p - 1) = 1 := by omega
    simp [this]
  refine ⟨_, x, y, b, horder, by omega, ?_, ?_⟩
  · rw [← h.map_key, List.getElem?_map, hx]
    rfl
  · rw [← h.map_key, List.getElem?_map, hy]
    rfl

/-- Behind a gap stand the rows with a smaller key than the one before it. -/
theorem drop_eq_filter (h : Orders key found order) (hp : 0 < p) (hlt : p < found.length)
    (hgap : Gap key found p) {t : ℕ} (ht : (keys key found)[p - 1]? = some t) :
    order.drop p = order.filter fun r => key r < t := by
  obtain ⟨a, x, y, b, rfl, hlen, hx, hy⟩ := h.split hp hlt
  obtain rfl : key x = t := Option.some.inj (hx.symm.trans ht)
  have hne : key x ≠ key y := fun he => hgap (by rw [hx, hy, he])
  have hsorted := h.sorted
  rw [List.pairwise_append, List.pairwise_cons, List.pairwise_cons] at hsorted
  obtain ⟨-, ⟨hxrest, hyrest, -⟩, hcross⟩ := hsorted
  have hbefore : ∀ r ∈ a, ¬ key r < key x := fun r hr =>
    Nat.not_lt.mpr (hcross r hr x List.mem_cons_self)
  have hxy : key y < key x := by
    have := hxrest y List.mem_cons_self
    omega
  have hafter : ∀ r ∈ b, key r < key x := fun r hr => Nat.lt_of_le_of_lt (hyrest r hr) hxy
  have hdrop : (a ++ x :: y :: b).drop p = y :: b := by
    rw [← hlen, List.drop_append]
    simp
  rw [hdrop, List.filter_append, List.filter_eq_nil_iff.mpr (by simpa using hbefore)]
  simp only [List.nil_append, List.filter_cons, lt_irrefl, decide_false, Bool.false_eq_true,
    if_false, hxy, decide_true, if_true]
  rw [List.filter_eq_self.mpr (by simpa using hafter)]

/-- Two orders have the same rows behind a gap. -/
theorem drop_perm (h : Orders key found order) (h' : Orders key found order') (hp : 0 < p)
    (hlt : p < found.length) (hgap : Gap key found p) : (order.drop p).Perm (order'.drop p) := by
  obtain ⟨_, x, _, _, _, _, hx, _⟩ := h.split hp hlt
  rw [h.drop_eq_filter hp hlt hgap hx, h'.drop_eq_filter hp hlt hgap hx]
  exact (h.perm.trans h'.perm.symm).filter _

/-- Without a gap, the row before the boundary may also come behind it. -/
theorem exists_swapped (h : Orders key found order) (hp : 0 < p) (hlt : p < found.length)
    (htie : ¬ Gap key found p) :
    ∃ order' a x b c, Orders key found order' ∧ order = a ++ x :: b ∧ a.length + 1 = p ∧
      order'.drop p = x :: c := by
  obtain ⟨a, x, y, b, rfl, hlen, hx, hy⟩ := h.split hp hlt
  have hkey : key x = key y := by
    have := not_not.mp htie
    rw [hx, hy] at this
    exact Option.some.inj this
  refine ⟨a ++ y :: x :: b, a, x, y :: b, b, ⟨?_, ?_⟩, rfl, hlen, ?_⟩
  · exact ((List.Perm.swap x y b).append_left a).trans h.perm
  · have hsorted := h.sorted
    simp only [List.pairwise_append, List.pairwise_cons, List.mem_cons] at hsorted ⊢
    grind
  · rw [← hlen, List.drop_append]
    simp

end Orders
end EdgeDispatch.Lib.KeyedOrder
