import Mathlib.Data.List.Basic
import Mathlib.Order.Lattice

/-! # Binary heaps as Go's container/heap keeps them

The heap is a list in array order; `less` is its Less method. Each sift moves at
least one level, so the number of elements is fuel enough. -/

namespace EdgeDispatch.Lib.BinaryHeap
variable {α : Type}

def swap (xs : List α) (i j : ℕ) : List α :=
  match xs[i]?, xs[j]? with
  | some a, some b => (xs.set i b).set j a
  | _, _ => xs

def lessAt (less : α → α → Bool) (xs : List α) (i j : ℕ) : Bool :=
  match xs[i]?, xs[j]? with
  | some a, some b => less a b
  | _, _ => false

def up (less : α → α → Bool) : ℕ → ℕ → List α → List α
  | 0, _, xs => xs
  | fuel + 1, j, xs =>
    let i := (j - 1) / 2
    if i = j ∨ lessAt less xs j i = false then xs else up less fuel i (swap xs i j)

/- Also gives the place the element came to. -/
def down (less : α → α → Bool) : ℕ → ℕ → ℕ → List α → List α × ℕ
  | 0, i, _, xs => (xs, i)
  | fuel + 1, i, n, xs =>
    let j1 := 2 * i + 1
    if n ≤ j1 then (xs, i)
    else
      let j := if j1 + 1 < n ∧ lessAt less xs (j1 + 1) j1 = true then j1 + 1 else j1
      if lessAt less xs j i = false then (xs, i) else down less fuel j n (swap xs i j)

def push (less : α → α → Bool) (xs : List α) (x : α) : List α :=
  up less (xs.length + 1) xs.length (xs ++ [x])

def fix (less : α → α → Bool) (xs : List α) (i : ℕ) : List α :=
  let r := down less xs.length i xs.length xs
  if i < r.2 then r.1 else up less xs.length i r.1

def pop (less : α → α → Bool) (xs : List α) : Option (α × List α) :=
  let n := xs.length - 1
  let r := (down less xs.length 0 n (swap xs 0 n)).1
  r.getLast?.map fun x => (x, r.dropLast)

/- Pops until the heap is empty. -/
def drain (less : α → α → Bool) : ℕ → List α → List α
  | 0, _ => []
  | fuel + 1, xs =>
    match pop less xs with
    | none => []
    | some (x, rest) => x :: drain less fuel rest

/-! ### Nothing is lost or added -/

open List (Perm)

variable {xs : List α}

theorem swap_of_lt {i j : ℕ} (hi : i < xs.length) (hj : j < xs.length) :
    swap xs i j = (xs.set i xs[j]).set j xs[i] := by
  simp [swap, hi, hj]

theorem swap_perm (xs : List α) (i j : ℕ) : Perm (swap xs i j) xs := by
  by_cases hi : i < xs.length
  · by_cases hj : j < xs.length
    · rw [swap_of_lt hi hj]
      exact List.set_set_perm hi hj
    · simp [swap, hj]
  · simp [swap, hi]

theorem up_zero (less : α → α → Bool) (fuel : ℕ) (xs : List α) : up less fuel 0 xs = xs := by
  cases fuel <;> simp [up]

theorem up_perm (less : α → α → Bool) (fuel j : ℕ) (xs : List α) :
    Perm (up less fuel j xs) xs := by
  induction fuel generalizing j xs with
  | zero => exact Perm.refl _
  | succ fuel ih =>
    simp only [up]
    split
    · exact Perm.refl _
    · exact (ih _ _).trans (swap_perm _ _ _)

/- The child that `down` compares `i` with. -/
def minChild (less : α → α → Bool) (xs : List α) (i n : ℕ) : ℕ :=
  if 2 * i + 1 + 1 < n ∧ lessAt less xs (2 * i + 1 + 1) (2 * i + 1) = true then 2 * i + 1 + 1
  else 2 * i + 1

theorem down_succ (less : α → α → Bool) (fuel i n : ℕ) (xs : List α) :
    down less (fuel + 1) i n xs =
      if n ≤ 2 * i + 1 then (xs, i)
      else if lessAt less xs (minChild less xs i n) i = false then (xs, i)
      else down less fuel (minChild less xs i n) n (swap xs i (minChild less xs i n)) := rfl

theorem down_perm (less : α → α → Bool) (fuel i n : ℕ) (xs : List α) :
    Perm (down less fuel i n xs).1 xs := by
  induction fuel generalizing i xs with
  | zero => exact Perm.refl _
  | succ fuel ih =>
    rw [down_succ]
    split
    · exact Perm.refl _
    · split
      · exact Perm.refl _
      · exact (ih _ _).trans (swap_perm _ _ _)

theorem push_perm (less : α → α → Bool) (xs : List α) (x : α) :
    Perm (push less xs x) (x :: xs) :=
  (up_perm _ _ _ _).trans (List.perm_append_singleton x xs)

theorem fix_perm (less : α → α → Bool) (xs : List α) (i : ℕ) : Perm (fix less xs i) xs := by
  unfold fix
  simp only
  split
  · exact down_perm _ _ _ _ _
  · exact (up_perm _ _ _ _).trans (down_perm _ _ _ _ _)

/- The heap that `pop` takes the last element of. -/
theorem popped_perm (less : α → α → Bool) (xs : List α) :
    Perm (down less xs.length 0 (xs.length - 1) (swap xs 0 (xs.length - 1))).1 xs :=
  (down_perm _ _ _ _ _).trans (swap_perm _ _ _)

theorem pop_perm {less : α → α → Bool} {rest : List α} {x : α} (h : pop less xs = some (x, rest)) :
    Perm (x :: rest) xs := by
  obtain ⟨y, hlast, he⟩ := Option.map_eq_some_iff.mp h
  obtain ⟨rfl, rfl⟩ := Prod.mk.inj he
  have hall := popped_perm less xs
  rw [← List.dropLast_append_getLast? y hlast] at hall
  exact (List.perm_append_singleton _ _).symm.trans hall

theorem pop_cons (less : α → α → Bool) (x : α) (xs : List α) : pop less (x :: xs) ≠ none := by
  intro h
  have hnil := List.getLast?_eq_none_iff.mp (Option.map_eq_none_iff.mp h)
  have hperm := popped_perm less (x :: xs)
  rw [hnil] at hperm
  exact absurd hperm.symm.eq_nil (List.cons_ne_nil x xs)

theorem drain_perm (less : α → α → Bool) (fuel : ℕ) (xs : List α) (h : xs.length ≤ fuel) :
    Perm (drain less fuel xs) xs := by
  induction fuel generalizing xs with
  | zero =>
    rw [List.length_eq_zero_iff.mp (Nat.le_zero.mp h)]
    exact Perm.refl _
  | succ fuel ih =>
    cases xs with
    | nil => exact Perm.refl _
    | cons x xs =>
      simp only [drain]
      cases hp : pop less (x :: xs) with
      | none => exact absurd hp (pop_cons less x xs)
      | some r =>
        obtain ⟨y, rest⟩ := r
        have hperm := pop_perm hp
        have hlen : rest.length ≤ fuel := by
          have := hperm.length_eq
          simp only [List.length_cons] at this h
          omega
        exact ((ih rest hlen).cons y).trans hperm

/-! ### Heap order

Here `less` compares keys in a linear order. An index past the end is in order with
every other. -/

variable {β : Type} [LinearOrder β] (key : α → β)

def byKey (a b : α) : Bool := decide (key a < key b)

def Le (xs : List α) (i j : ℕ) : Prop :=
  ∀ a b, xs[i]? = some a → xs[j]? = some b → key a ≤ key b

/-- Among the first `n` elements none comes before its parent. -/
def Ordered (n : ℕ) (xs : List α) : Prop := ∀ c, 0 < c → c < n → Le key xs ((c - 1) / 2) c

variable {key}

theorem Le.trans {i j k : ℕ} (hij : Le key xs i j) (hjk : Le key xs j k) (hj : j < xs.length) :
    Le key xs i k := by
  intro a c ha hc
  have hb : xs[j]? = some xs[j] := List.getElem?_eq_getElem hj
  exact le_trans (hij a _ ha hb) (hjk _ c hb hc)

theorem lessAt_eq_false {i j : ℕ} : lessAt (byKey key) xs j i = false ↔ Le key xs i j := by
  unfold lessAt Le byKey
  split
  · rename_i b a hb ha
    simp [hb, ha]
  · rename_i hnone
    refine ⟨fun _ a b ha hb => absurd hb ?_, fun _ => rfl⟩
    exact fun hb => hnone b a hb ha

theorem le_of_lessAt {i j : ℕ} (h : lessAt (byKey key) xs j i = true) : Le key xs j i := by
  intro b a hb ha
  simp only [lessAt, hb, ha, byKey, decide_eq_true_eq] at h
  exact le_of_lt h

theorem getElem?_swap {i j : ℕ} (hi : i < xs.length) (hj : j < xs.length) (k : ℕ) :
    (swap xs i j)[k]? = xs[if k = i then j else if k = j then i else k]? := by
  rw [swap_of_lt hi hj, List.getElem?_set, List.getElem?_set]
  grind

theorem Le.swap {i j a b : ℕ} (hi : i < xs.length) (hj : j < xs.length)
    (h : Le key xs (if a = i then j else if a = j then i else a)
      (if b = i then j else if b = j then i else b)) : Le key (swap xs i j) a b := by
  intro x y hx hy
  rw [getElem?_swap hi hj] at hx hy
  exact h x y hx hy

theorem length_swap (xs : List α) (i j : ℕ) : (swap xs i j).length = xs.length :=
  (swap_perm xs i j).length_eq

/- What `up` starts from: only `j` may come before its parent, and its children may not. -/
structure UpOrder (key : α → β) (j : ℕ) (xs : List α) : Prop where
  rest : ∀ c, 0 < c → c < xs.length → c ≠ j → Le key xs ((c - 1) / 2) c
  across : 0 < j → ∀ c, 0 < c → c < xs.length → (c - 1) / 2 = j → Le key xs ((j - 1) / 2) c

theorem UpOrder.ordered {j : ℕ} (h : UpOrder key j xs) (hj : 0 < j → Le key xs ((j - 1) / 2) j) :
    Ordered key xs.length xs := by
  intro c hc hlt
  by_cases hcj : c = j
  · subst hcj
    exact hj hc
  · exact h.rest c hc hlt hcj

theorem UpOrder.move {j : ℕ} (h : UpOrder key j xs) (hpos : 0 < j) (hj : j < xs.length)
    (hless : Le key xs j ((j - 1) / 2)) :
    UpOrder key ((j - 1) / 2) (BinaryHeap.swap xs ((j - 1) / 2) j) := by
  have hi : (j - 1) / 2 < xs.length := by omega
  have hij : (j - 1) / 2 < j := by omega
  generalize hp : (j - 1) / 2 = i at *
  refine ⟨fun c hc hlt hci => ?_, fun hipos c hc hlt hpc => ?_⟩
  · rw [length_swap] at hlt
    apply Le.swap hi hj
    by_cases hcj : c = j
    · -- the old parent stands below the element now
      subst hcj
      rw [hp, if_pos rfl, if_neg hci, if_pos rfl]
      exact hless
    · rw [if_neg hci, if_neg hcj]
      by_cases hpj : (c - 1) / 2 = j
      · rw [if_neg (by omega), if_pos hpj]
        exact hp ▸ h.across hpos c hc hlt hpj
      · have hrest := h.rest c hc hlt hcj
        by_cases hpi : (c - 1) / 2 = i
        · rw [if_pos hpi]
          rw [hpi] at hrest
          exact hless.trans hrest hi
        · rw [if_neg hpi, if_neg hpj]
          exact hrest
  · rw [length_swap] at hlt
    apply Le.swap hi hj
    have htop := h.rest i hipos hi (by omega)
    rw [if_neg (by omega), if_neg (by omega), if_neg (show c ≠ i by omega)]
    by_cases hcj : c = j
    · rw [if_pos hcj]
      exact htop
    · rw [if_neg hcj]
      have hrest := h.rest c hc hlt hcj
      rw [hpc] at hrest
      exact htop.trans hrest hi

theorem up_ordered (fuel j : ℕ) (xs : List α) (h : UpOrder key j xs) (hj : j < xs.length)
    (hfuel : j < fuel) : Ordered key xs.length (up (byKey key) fuel j xs) := by
  induction fuel generalizing j xs with
  | zero => omega
  | succ fuel ih =>
    simp only [up]
    split
    · rename_i hstop
      apply h.ordered
      intro hpos
      rcases hstop with heq | hle
      · omega
      · exact lessAt_eq_false.mp hle
    · rename_i hgo
      obtain ⟨hne, hless⟩ := not_or.mp hgo
      have hpos : 0 < j := by omega
      have hmove := h.move hpos hj (le_of_lessAt (Bool.not_eq_false _ ▸ hless))
      have hrec := ih _ _ hmove (by rw [length_swap]; omega) (by omega)
      rwa [length_swap] at hrec

theorem push_ordered (h : Ordered key xs.length xs) (x : α) :
    Ordered key (push (byKey key) xs x).length (push (byKey key) xs x) := by
  have hlen : (push (byKey key) xs x).length = (xs ++ [x]).length := by
    rw [(push_perm _ _ _).length_eq, List.length_append, List.length_cons, List.length_singleton]
  rw [hlen]
  refine up_ordered _ _ _ ⟨?_, ?_⟩ (by simp) (Nat.lt_succ_self _)
  · intro c hc hlt hne a b ha hb
    have hcx : c < xs.length := by
      rw [List.length_append, List.length_singleton] at hlt
      omega
    rw [List.getElem?_append_left (by omega)] at ha
    rw [List.getElem?_append_left hcx] at hb
    exact h c hc hcx a b ha hb
  · intro _ c _ hlt hp
    rw [List.length_append, List.length_singleton] at hlt
    omega

/- What `down` starts from: only `i` may come after its children, and its parent may not. -/
structure DownOrder (key : α → β) (n i : ℕ) (xs : List α) : Prop where
  rest : ∀ c, 0 < c → c < n → (c - 1) / 2 ≠ i → Le key xs ((c - 1) / 2) c
  across : 0 < i → ∀ c, 0 < c → c < n → (c - 1) / 2 = i → Le key xs ((i - 1) / 2) c

theorem DownOrder.move {n i j : ℕ} (h : DownOrder key n i xs) (hn : n ≤ xs.length) (hj : j < n)
    (hpos : 0 < j) (hp : (j - 1) / 2 = i) (hless : Le key xs j i)
    (hmin : ∀ c, 0 < c → c < n → (c - 1) / 2 = i → Le key xs j c) :
    DownOrder key n j (BinaryHeap.swap xs i j) := by
  have hi : i < xs.length := by omega
  have hjl : j < xs.length := by omega
  refine ⟨fun c hc hlt hpc => ?_, fun _ c hc hlt hpc => ?_⟩
  · apply Le.swap hi hjl
    rw [if_neg hpc]
    by_cases hpi : (c - 1) / 2 = i
    · rw [if_pos hpi, if_neg (show c ≠ i by omega)]
      by_cases hcj : c = j
      · rw [if_pos hcj]
        exact hless
      · rw [if_neg hcj]
        exact hmin c hc hlt hpi
    · have hcj : c ≠ j := fun hcj => hpi (hcj ▸ hp)
      rw [if_neg hpi, if_neg hcj]
      by_cases hci : c = i
      · rw [if_pos hci, hci]
        exact h.across (hci ▸ hc) j hpos hj hp
      · rw [if_neg hci]
        exact h.rest c hc hlt hpi
  · -- a child of `j` and the element that came up
    apply Le.swap hi hjl
    rw [hp, if_pos rfl, if_neg (show c ≠ i by omega), if_neg (show c ≠ j by omega)]
    have hrest := h.rest c hc hlt (by omega)
    rwa [hpc] at hrest

theorem minChild_spec (key : α → β) {n i : ℕ} (xs : List α) (h : 2 * i + 1 < n) :
    minChild (byKey key) xs i n < n ∧ 0 < minChild (byKey key) xs i n ∧
      (minChild (byKey key) xs i n - 1) / 2 = i ∧
      ∀ c, 0 < c → c < n → (c - 1) / 2 = i → Le key xs (minChild (byKey key) xs i n) c := by
  have hself : ∀ k, Le key xs k k := by
    intro k a b ha hb
    rw [Option.some.inj (ha.symm.trans hb)]
  have hchild : ∀ c, 0 < c → (c - 1) / 2 = i → c = 2 * i + 1 ∨ c = 2 * i + 1 + 1 := by
    omega
  unfold minChild
  split
  · rename_i hright
    refine ⟨hright.1, by omega, by omega, ?_⟩
    intro c hc _ hpc
    rcases hchild c hc hpc with rfl | rfl
    · exact le_of_lessAt hright.2
    · exact hself _
  · rename_i hleft
    refine ⟨h, by omega, by omega, ?_⟩
    intro c hc hlt hpc
    rcases hchild c hc hpc with rfl | rfl
    · exact hself _
    · have hnot := not_and.mp hleft hlt
      exact lessAt_eq_false.mp (Bool.eq_false_iff.mpr hnot)

theorem down_ordered (fuel i n : ℕ) (xs : List α) (h : DownOrder key n i xs) (hn : n ≤ xs.length)
    (hfuel : n ≤ i + fuel) : Ordered key n (down (byKey key) fuel i n xs).1 := by
  induction fuel generalizing i xs with
  | zero =>
    intro c hc hlt
    exact h.rest c hc hlt (by omega)
  | succ fuel ih =>
    rw [down_succ]
    split
    · intro c hc hlt
      exact h.rest c hc hlt (by omega)
    · rename_i hchild
      obtain ⟨hjn, hpos, hp, hmin⟩ := minChild_spec key xs (Nat.not_le.mp hchild)
      generalize minChild (byKey key) xs i n = j at *
      split
      · rename_i hle
        intro c hc hlt
        by_cases hpc : (c - 1) / 2 = i
        · rw [hpc]
          exact (lessAt_eq_false.mp hle).trans (hmin c hc hlt hpc) (by omega)
        · exact h.rest c hc hlt hpc
      · rename_i hgo
        have hmove := h.move hn hjn hpos hp (le_of_lessAt (Bool.not_eq_false _ ▸ hgo)) hmin
        exact ih _ _ hmove (by rw [length_swap]; exact hn) (by omega)

/- Fix after the root was replaced. -/
theorem fix_root_ordered (h : Ordered key xs.length xs) (x : α) :
    Ordered key xs.length (fix (byKey key) (xs.set 0 x) 0) := by
  have hlen : (xs.set 0 x).length = xs.length := List.length_set
  have hdown : Ordered key xs.length
      (down (byKey key) (xs.set 0 x).length 0 (xs.set 0 x).length (xs.set 0 x)).1 := by
    rw [← hlen]
    refine down_ordered _ _ _ _ ⟨?_, ?_⟩ (Nat.le_refl _) (by omega)
    · intro c hc hlt hp a b ha hb
      rw [List.getElem?_set_ne (by omega)] at ha hb
      exact h c hc (hlen ▸ hlt) a b ha hb
    · intro h0
      exact absurd h0 (Nat.lt_irrefl 0)
  unfold fix
  simp only
  split
  · exact hdown
  · rw [up_zero]
    exact hdown

theorem Ordered.root_le {n : ℕ} (h : Ordered key n xs) (hn : n ≤ xs.length) :
    ∀ c, c < n → Le key xs 0 c := by
  intro c
  induction c using Nat.strongRecOn with
  | _ c ih =>
    intro hlt
    by_cases hc : c = 0
    · subst hc
      intro a b ha hb
      rw [Option.some.inj (ha.symm.trans hb)]
    · have hparent := ih ((c - 1) / 2) (by omega) (by omega)
      exact hparent.trans (h c (by omega) hlt) (by omega)

/-! ### The heap is emptied in order -/

/- `down` does not touch what lies past its bound. -/
theorem getElem?_down (less : α → α → Bool) (fuel i n : ℕ) (xs : List α) (hn : n ≤ xs.length)
    {k : ℕ} (hk : n ≤ k) : (down less fuel i n xs).1[k]? = xs[k]? := by
  induction fuel generalizing i xs with
  | zero => rfl
  | succ fuel ih =>
    rw [down_succ]
    split
    · rfl
    · rename_i hchild
      split
      · rfl
      · have hj : minChild less xs i n < n := by
          unfold minChild
          split <;> omega
        rw [ih _ _ (by rw [length_swap]; exact hn), getElem?_swap (by omega) (by omega),
          if_neg (by omega), if_neg (by omega)]

/-- Pop takes an element that none comes before, and leaves a heap. -/
theorem pop_ordered {rest : List α} {x : α} (h : Ordered key xs.length xs)
    (hp : pop (byKey key) xs = some (x, rest)) :
    (∀ y ∈ xs, key x ≤ key y) ∧ Ordered key rest.length rest := by
  have hperm := pop_perm hp
  have hlen : xs.length = rest.length + 1 := by rw [← hperm.length_eq, List.length_cons]
  obtain ⟨y, hlast, he⟩ := Option.map_eq_some_iff.mp hp
  obtain ⟨rfl, rfl⟩ := Prod.mk.inj he
  generalize hr : (down (byKey key) xs.length 0 (xs.length - 1) (swap xs 0 (xs.length - 1))).1 = r
    at hlast hlen
  have hrlen : r.length = xs.length := by
    rw [← hr]
    exact (popped_perm _ _).length_eq
  have hn : xs.length - 1 ≤ (swap xs 0 (xs.length - 1)).length := by
    rw [length_swap]
    omega
  -- the last place got the root and kept it
  have hroot : xs[0]? = some y := by
    rw [List.getLast?_eq_getElem?, hrlen, ← hr, getElem?_down _ _ _ _ _ hn (Nat.le_refl _),
      getElem?_swap (by omega) (by omega)] at hlast
    split at hlast
    · rename_i hzero
      rwa [hzero] at hlast
    · rwa [if_pos rfl] at hlast
  have hdown : DownOrder key (xs.length - 1) 0 (swap xs 0 (xs.length - 1)) := by
    refine ⟨fun c hc hlt hpc => ?_, fun h0 => absurd h0 (Nat.lt_irrefl 0)⟩
    apply Le.swap (by omega) (by omega)
    rw [if_neg (by omega), if_neg (by omega), if_neg (by omega), if_neg (by omega)]
    exact h c hc (by omega)
  have hord : Ordered key (xs.length - 1) r := by
    rw [← hr]
    exact down_ordered _ _ _ _ hdown hn (by omega)
  constructor
  · intro z hz
    obtain ⟨c, hc⟩ := List.mem_iff_getElem?.mp hz
    have hlt : c < xs.length := (List.getElem?_eq_some_iff.mp hc).1
    exact h.root_le (Nat.le_refl _) c hlt y z hroot hc
  · intro c hc hlt a b ha hb
    rw [List.length_dropLast, hrlen] at hlt
    rw [List.getElem?_dropLast, if_pos (by omega)] at ha hb
    exact hord c hc hlt a b ha hb

theorem drain_sorted {fuel : ℕ} (hlen : xs.length ≤ fuel) (h : Ordered key xs.length xs) :
    (drain (byKey key) fuel xs).Pairwise fun a b => key a ≤ key b := by
  induction fuel generalizing xs with
  | zero => exact List.Pairwise.nil
  | succ fuel ih =>
    rw [drain]
    cases hp : pop (byKey key) xs with
    | none => exact List.Pairwise.nil
    | some r =>
      obtain ⟨x, rest⟩ := r
      obtain ⟨hmin, hrest⟩ := pop_ordered h hp
      have hperm := pop_perm hp
      have hle : rest.length ≤ fuel := by
        have heq := hperm.length_eq
        rw [List.length_cons] at heq
        omega
      refine List.pairwise_cons.mpr ⟨fun y hy => hmin y ?_, ih hle hrest⟩
      have hy : y ∈ rest := (drain_perm _ _ _ hle).mem_iff.mp hy
      exact hperm.mem_iff.mp (List.mem_cons_of_mem x hy)

/-! ### Only the comparisons count

The same heap of other elements, which `f` gives and which compare alike. -/

section
variable {γ : Type} (less : α → α → Bool) (f : γ → α)

def comapLess (a b : γ) : Bool := less (f a) (f b)

theorem swap_map (xs : List γ) (i j : ℕ) : swap (xs.map f) i j = (swap xs i j).map f := by
  unfold swap
  rw [List.getElem?_map, List.getElem?_map]
  cases xs[i]? with
  | none => rfl
  | some a =>
    cases xs[j]? with
    | none => rfl
    | some b => simp [List.map_set]

theorem lessAt_map (xs : List γ) (i j : ℕ) :
    lessAt less (xs.map f) i j = lessAt (comapLess less f) xs i j := by
  unfold lessAt
  rw [List.getElem?_map, List.getElem?_map]
  cases xs[i]? with
  | none => rfl
  | some a => cases xs[j]? <;> rfl

theorem up_map (fuel j : ℕ) (xs : List γ) :
    up less fuel j (xs.map f) = (up (comapLess less f) fuel j xs).map f := by
  induction fuel generalizing j xs with
  | zero => rfl
  | succ fuel ih =>
    simp only [up, lessAt_map, swap_map, ih]
    split <;> rfl

theorem down_map (fuel i n : ℕ) (xs : List γ) :
    down less fuel i n (xs.map f) =
      ((down (comapLess less f) fuel i n xs).1.map f, (down (comapLess less f) fuel i n xs).2) := by
  induction fuel generalizing i xs with
  | zero => rfl
  | succ fuel ih =>
    have hchild : minChild less (xs.map f) i n = minChild (comapLess less f) xs i n := by
      simp only [minChild, lessAt_map]
    rw [down_succ, down_succ, hchild, lessAt_map, swap_map, ih]
    split
    · rfl
    · split <;> rfl

theorem push_map (xs : List γ) (x : γ) :
    push less (xs.map f) (f x) = (push (comapLess less f) xs x).map f := by
  unfold push
  rw [List.length_map, ← up_map, List.map_append, List.map_singleton]

theorem fix_map (xs : List γ) (i : ℕ) :
    fix less (xs.map f) i = (fix (comapLess less f) xs i).map f := by
  unfold fix
  simp only [List.length_map, down_map, up_map]
  split <;> rfl

theorem pop_map (xs : List γ) :
    pop less (xs.map f) = (pop (comapLess less f) xs).map fun r => (f r.1, r.2.map f) := by
  unfold pop
  simp only [List.length_map, swap_map, down_map, List.getLast?_map, Option.map_map,
    ← List.map_dropLast]
  rfl

theorem drain_map (fuel : ℕ) (xs : List γ) :
    drain less fuel (xs.map f) = (drain (comapLess less f) fuel xs).map f := by
  induction fuel generalizing xs with
  | zero => rfl
  | succ fuel ih =>
    rw [drain, drain, pop_map]
    cases pop (comapLess less f) xs with
    | none => rfl
    | some r => simp [ih]

end

end EdgeDispatch.Lib.BinaryHeap
