import EdgeDispatch.Lib.Transition
import Mathlib.Data.Fintype.Basic

/-! # Updates of a cell by a load and a store

Each party loads a cell, computes a new value from what it loaded and stores it. Loads and
stores are atomic, a party's two steps together are not. What a party wants is a property
of the cell that its own update establishes and that the others' leave as it is. -/

namespace EdgeDispatch.Lib.LoadStore
open Lib.Transition

inductive Pc (β : Type*) where
  | idle
  | loaded (old : β)
  | returned

structure State (ι β : Type*) where
  cell : β
  pc : ι → Pc β

inductive Act (ι : Type*) where
  | load (i : ι)
  | store (i : ι)

variable {ι β : Type*} [DecidableEq ι]

def start (b : β) : State ι β := ⟨b, fun _ => .idle⟩

def step (update : ι → β → β) (s : State ι β) : Act ι → Option (State ι β)
  | .load i =>
    match s.pc i with
    | .idle => some { s with pc := Function.update s.pc i (.loaded s.cell) }
    | _ => none
  | .store i =>
    match s.pc i with
    | .loaded old => some ⟨update i old, Function.update s.pc i .returned⟩
    | _ => none

/- A store that finds in the cell what its party loaded, as a compare-and-swap would demand. -/
def Undisturbed (s : State ι β) : Act ι → Prop
  | .load _ => True
  | .store i => ∀ old, s.pc i = .loaded old → old = s.cell

def Finished (s : State ι β) : Prop := ∀ i, s.pc i = .returned

variable {update : ι → β → β} {s t : State ι β}

/-- The two moves of a party. -/
inductive Move (update : ι → β → β) (s : State ι β) : Act ι → State ι β → Prop
  | load (i : ι) : s.pc i = .idle →
      Move update s (.load i) { s with pc := Function.update s.pc i (.loaded s.cell) }
  | store (i : ι) (old : β) : s.pc i = .loaded old →
      Move update s (.store i) ⟨update i old, Function.update s.pc i .returned⟩

theorem step_move {a : Act ι} (h : step update s a = some t) : Move update s a t := by
  cases a with
  | load i =>
    cases hi : s.pc i with
    | idle =>
      simp only [step, hi] at h
      cases h
      exact .load i hi
    | loaded old => simp [step, hi] at h
    | returned => simp [step, hi] at h
  | store i =>
    cases hi : s.pc i with
    | idle => simp [step, hi] at h
    | loaded old =>
      simp only [step, hi] at h
      cases h
      exact .store i old hi
    | returned => simp [step, hi] at h

/- A party that runs its two steps without a pause. -/
def atOnce (i : ι) : List (Act ι) := [.load i, .store i]

theorem exec_atOnce {i : ι} (hi : s.pc i = .idle) :
    exec (step update) (atOnce i) s =
      some ⟨update i s.cell, Function.update s.pc i .returned⟩ := by
  simp [atOnce, exec, step, hi]

/-- Any parties that have not begun can run one after the other; the rest stay where they are. -/
theorem exec_each (update : ι → β → β) (order : List ι) (hnodup : order.Nodup)
    (hidle : ∀ i ∈ order, s.pc i = .idle) :
    ∃ t, exec (step update) (order.flatMap atOnce) s = some t ∧
      (∀ i ∈ order, t.pc i = .returned) ∧ ∀ i ∉ order, t.pc i = s.pc i := by
  induction order generalizing s with
  | nil => exact ⟨s, rfl, fun i hi => absurd hi List.not_mem_nil, fun _ _ => rfl⟩
  | cons i rest ih =>
    obtain ⟨hi, hrest⟩ := List.nodup_cons.mp hnodup
    have hstill : ∀ j ∈ rest, Function.update s.pc i .returned j = .idle := by
      intro j hj
      have hji : j ≠ i := fun he => hi (he ▸ hj)
      rw [Function.update_of_ne hji]
      exact hidle j (List.mem_cons_of_mem i hj)
    obtain ⟨t, ht, hdone, hothers⟩ :=
      ih (s := ⟨update i s.cell, Function.update s.pc i .returned⟩) hrest hstill
    refine ⟨t, ?_, fun j hj => ?_, fun j hj => ?_⟩
    · rw [List.flatMap_cons, exec_append, exec_atOnce (hidle i List.mem_cons_self)]
      exact ht
    · rcases List.mem_cons.mp hj with rfl | hj
      · rw [hothers j hi]
        exact Function.update_self ..
      · exact hdone j hj
    · obtain ⟨hne, hnot⟩ := List.ne_and_not_mem_of_not_mem_cons hj
      rw [hothers j hnot]
      exact Function.update_of_ne hne ..

section Wants
variable {wants : ι → β → Prop} (hown : ∀ i b, wants i (update i b))
  (hothers : ∀ i j b, j ≠ i → (wants j (update i b) ↔ wants j b))
include hown hothers

/-- Undisturbed updates are all there. -/
theorem wants_of_undisturbed {b : β} (h : Reach (step update) Undisturbed (start b) s) :
    ∀ i, s.pc i = .returned → wants i s.cell := by
  refine h.invariant (fun s : State ι β => ∀ i, s.pc i = .returned → wants i s.cell)
    (fun _ (hi : Pc.idle = .returned) => nomatch hi) fun s a t ih hguard hstep => ?_
  cases step_move hstep with
  | load i _ =>
    exact (Function.forall_update_iff s.pc fun j p => p = .returned → wants j s.cell).mpr
      ⟨fun hi => (nomatch hi), fun j _ => ih j⟩
  | store i old hi =>
    have hcell : old = s.cell := hguard old hi
    exact (Function.forall_update_iff s.pc fun j p => p = .returned → wants j (update i old)).mpr
      ⟨fun _ => hown i old, fun j hji hj => (hothers i j old hji).mpr (hcell ▸ ih j hj)⟩

/- What all parties find done already stays done, in the cell and in what was loaded. -/
theorem wants_of_settled {b : β} (hb : ∀ i, wants i b)
    (h : Reach (step update) Free (start b) s) : ∀ i, wants i s.cell := by
  have keeps : ∀ i c, (∀ j, wants j c) → ∀ j, wants j (update i c) := by
    intro i c hc j
    by_cases hji : j = i
    · exact hji ▸ hown i c
    · exact (hothers i j c hji).mpr (hc j)
  refine (h.invariant (fun s : State ι β => (∀ i, wants i s.cell) ∧
    ∀ j old, s.pc j = .loaded old → ∀ i, wants i old)
    ⟨hb, fun _ old (hj : Pc.idle = .loaded old) => nomatch hj⟩ fun s a t ih _ hstep => ?_).1
  cases step_move hstep with
  | load i _ =>
    refine ⟨ih.1, (Function.forall_update_iff s.pc fun _ p => ∀ old, p = .loaded old →
      ∀ k, wants k old).mpr ⟨fun old hold => ?_, fun j _ => ih.2 j⟩⟩
    cases hold
    exact ih.1
  | store i old hi =>
    exact ⟨keeps i old (ih.2 i old hi), (Function.forall_update_iff s.pc fun _ p => ∀ c,
      p = .loaded c → ∀ k, wants k c).mpr ⟨fun _ hc => (nomatch hc), fun j _ => ih.2 j⟩⟩

end Wants

/- A party that is alone finds in the cell what it loaded. -/
theorem undisturbed_of_alone [Subsingleton ι] {b : β}
    (h : Reach (step update) Free (start b) s) :
    Reach (step update) Undisturbed (start b) s ∧ ∀ i old, s.pc i = .loaded old → old = s.cell := by
  induction h with
  | start => exact ⟨.start, fun _ _ hi => nomatch hi⟩
  | next a _ _ hstep ih =>
    refine ⟨ih.1.next a ?_ hstep, fun j old hj => ?_⟩
    · cases a with
      | load i => trivial
      | store i => exact ih.2 i
    · cases step_move hstep with
      | load i hi =>
        rw [Subsingleton.elim j i] at hj
        simp only [Function.update_self, Pc.loaded.injEq] at hj
        exact hj.symm
      | store i _ hi =>
        rw [Subsingleton.elim j i] at hj
        simp at hj

/-- One party loads first and stores last: what the others did in between is gone. -/
theorem reach_overwritten (update : ι → β → β) [Fintype ι] (b : β) (i : ι) :
    ∃ s, Reach (step update) Free (start b) s ∧ Finished s ∧ s.cell = update i b := by
  let order := (Finset.univ.erase i).toList
  let loaded : State ι β := ⟨b, Function.update (fun _ => .idle) i (.loaded b)⟩
  have hnot : i ∉ order := by simp [order]
  have hidle : ∀ j ∈ order, loaded.pc j = .idle := fun j hj =>
    have hji : j ≠ i := fun he => hnot (he ▸ hj)
    Function.update_of_ne hji (Pc.loaded b) fun _ => Pc.idle
  obtain ⟨t, ht, hdone, hrest⟩ :=
    exec_each update order (Finset.nodup_toList _) hidle
  have hi : t.pc i = .loaded b := (hrest i hnot).trans (by simp [loaded])
  have hload : Reach (step update) Free (start b) loaded := Reach.start.next (.load i) trivial rfl
  have hmiddle := hload.trans (reach_of_guarded _ (guarded_free ..) ht)
  have hstore : step update t (.store i) =
      some ⟨update i b, Function.update t.pc i .returned⟩ := by
    simp only [step, hi]
  refine ⟨_, hmiddle.next (.store i) trivial hstore, fun j => ?_, rfl⟩
  by_cases hji : j = i
  · exact hji ▸ Function.update_self ..
  · exact (Function.update_of_ne hji ..).trans (hdone j (by simp [order, hji]))

/-- All interleavings end with every update in the cell just if there is one party at most,
or none has anything to do. -/
theorem no_update_lost_iff [Fintype ι] {wants : ι → β → Prop}
    (hown : ∀ i b, wants i (update i b))
    (hothers : ∀ i j b, j ≠ i → (wants j (update i b) ↔ wants j b)) (b : β) :
    (∀ s, Reach (step update) Free (start b) s → Finished s → ∀ i, wants i s.cell) ↔
      Subsingleton ι ∨ ∀ i, wants i b := by
  constructor
  · intro h
    by_cases hone : Subsingleton ι
    · exact Or.inl hone
    · obtain ⟨i, hi⟩ := not_subsingleton_iff_nontrivial.mp hone
      refine Or.inr fun j => ?_
      -- somebody else loads before `j` and stores after it
      obtain ⟨k, hk⟩ : ∃ k, k ≠ j := by
        obtain ⟨k, hk⟩ := hi
        by_cases hij : i = j
        · exact ⟨k, fun he => hk (hij.trans he.symm)⟩
        · exact ⟨i, hij⟩
      obtain ⟨s, hs, hfin, hcell⟩ := reach_overwritten update b k
      exact (hothers k j b (Ne.symm hk)).mp (hcell ▸ h s hs hfin j)
  · rintro (hone | hb) s hs hfin i
    · exact wants_of_undisturbed hown hothers (undisturbed_of_alone hs).1 i (hfin i)
    · exact wants_of_settled hown hothers hb hs i

end EdgeDispatch.Lib.LoadStore
