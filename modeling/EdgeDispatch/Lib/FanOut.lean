import EdgeDispatch.Lib.Transition
import Mathlib.Algebra.BigOperators.Group.Finset.Piecewise
import Mathlib.Algebra.Order.BigOperators.Group.Finset

/-! # Goroutines that are started in a loop and waited for

A loop starts `n` goroutines and then waits for all of them. Each takes a slot of a
semaphore, runs its body, gives the slot back and leaves the wait group, in this order. The
body is a partial step function on a place of its own and on what all of them share; `none`
is a step that has to wait. -/

namespace EdgeDispatch.Lib.FanOut
open Lib.Transition

/-- A goroutine. In `returned` it still has its slot, in `released` it is still waited for. -/
inductive Phase (β : Type) where
  | unlaunched
  | waiting
  | running (b : β)
  | returned
  | released
  | done

/-- `cap` is the capacity of the semaphore; without one a slot is always free. -/
structure Pool (n : ℕ) (β γ ε : Type) where
  cap : Option ℕ
  entry : Fin n → β
  body : Fin n → β → γ → ε → Option (Option β × γ)

/-- `held` is what the semaphore's channel holds, `pending` the counter of the wait group. -/
structure State (n : ℕ) (β γ : Type) where
  phase : Fin n → Phase β
  launched : ℕ
  held : ℕ
  pending : ℕ
  shared : γ

inductive Act (n : ℕ) (ε : Type) where
  | launch
  | acquire (i : Fin n)
  | run (i : Fin n) (e : ε)
  | release (i : Fin n)
  | finish (i : Fin n)

variable {n : ℕ} {β γ ε : Type}

def start (g : γ) : State n β γ := ⟨fun _ => .unlaunched, 0, 0, 0, g⟩

def Pool.hasSlot (P : Pool n β γ ε) (held : ℕ) : Bool := P.cap.all fun c => decide (held < c)

/- Where the body goes on, or that it returns. -/
def Phase.after : Option β → Phase β
  | some b => .running b
  | none => .returned

def State.move (s : State n β γ) (i : Fin n) (p : Phase β) : State n β γ :=
  { s with phase := Function.update s.phase i p }

def step (P : Pool n β γ ε) (s : State n β γ) : Act n ε → Option (State n β γ)
  | .launch =>
    if h : s.launched < n then
      some { s.move ⟨s.launched, h⟩ .waiting with
        launched := s.launched + 1, pending := s.pending + 1 }
    else none
  | .acquire i =>
    match s.phase i with
    | .waiting =>
      if P.hasSlot s.held then some { s.move i (.running (P.entry i)) with held := s.held + 1 }
      else none
    | _ => none
  | .run i e =>
    match s.phase i with
    | .running b =>
      (P.body i b s.shared e).map fun r => { s.move i (.after r.1) with shared := r.2 }
    | _ => none
  | .release i =>
    match s.phase i with
    | .returned => some { s.move i .released with held := s.held - 1 }
    | _ => none
  | .finish i =>
    match s.phase i with
    | .released => some { s.move i .done with pending := s.pending - 1 }
    | _ => none

/- `wg.Wait()` returns; it is called after the loop. -/
def State.waited (s : State n β γ) : Bool := decide (s.launched = n ∧ s.pending = 0)

/-- A step takes one goroutine from one phase to the next. -/
inductive Moved (P : Pool n β γ ε) (s : State n β γ) : State n β γ → Prop
  | launch (h : s.launched < n) : Moved P s { s.move ⟨s.launched, h⟩ .waiting with
      launched := s.launched + 1, pending := s.pending + 1 }
  | acquire (i : Fin n) (hi : s.phase i = .waiting) (hslot : P.hasSlot s.held = true) :
      Moved P s { s.move i (.running (P.entry i)) with held := s.held + 1 }
  | run (i : Fin n) (e : ε) (b : β) (r : Option β × γ) (hi : s.phase i = .running b)
      (hbody : P.body i b s.shared e = some r) :
      Moved P s { s.move i (.after r.1) with shared := r.2 }
  | release (i : Fin n) (hi : s.phase i = .returned) :
      Moved P s { s.move i .released with held := s.held - 1 }
  | finish (i : Fin n) (hi : s.phase i = .released) :
      Moved P s { s.move i .done with pending := s.pending - 1 }

variable {P : Pool n β γ ε} {r : Fin n → β → ℕ}

theorem moved_of_step {s t : State n β γ} {a : Act n ε} (h : step P s a = some t) :
    Moved P s t := by
  cases a with
  | launch =>
    rw [step] at h
    split at h
    · cases h
      exact .launch ‹_›
    · cases h
  | acquire i =>
    rw [step] at h
    split at h
    · split at h
      · cases h
        exact .acquire i ‹_› ‹_›
      · cases h
    · cases h
  | run i e =>
    rw [step] at h
    split at h
    · rename_i b hi
      obtain ⟨r, hr, ht⟩ := Option.map_eq_some_iff.mp h
      cases ht
      exact .run i e b r hi hr
    · cases h
  | release i =>
    rw [step] at h
    split at h
    · cases h
      exact .release i ‹_›
    · cases h
  | finish i =>
    rw [step] at h
    split at h
    · cases h
      exact .finish i ‹_›
    · cases h

/-! ### Sums over the goroutines -/

section Sums
variable {ι π M : Type*} [Fintype ι] [DecidableEq ι] [AddCommMonoid M]

/-- How a sum over the parties changes when one of them moves. -/
theorem sum_update (f : ι → π → M) (x : ι → π) (i : ι) (p : π) :
    (∑ j, f j (Function.update x i p j)) + f i (x i) = (∑ j, f j (x j)) + f i p := by
  have hrest : ∑ j ∈ Finset.univ.erase i, f j (Function.update x i p j) =
      ∑ j ∈ Finset.univ.erase i, f j (x j) := by
    refine Finset.sum_congr rfl fun j hj => ?_
    rw [Function.update_of_ne (Finset.ne_of_mem_erase hj)]
  rw [← Finset.sum_erase_add _ _ (Finset.mem_univ i), hrest, Function.update_self,
    ← Finset.sum_erase_add Finset.univ (fun j => f j (x j)) (Finset.mem_univ i)]
  exact add_right_comm _ _ _

theorem sum_update_of_eq (f : ι → π → M) (x : ι → π) {i : ι} {p : π} (h : f i p = f i (x i)) :
    ∑ j, f j (Function.update x i p j) = ∑ j, f j (x j) := by
  refine Finset.sum_congr rfl fun j _ => ?_
  by_cases hj : j = i
  · rw [hj, Function.update_self, h]
  · rw [Function.update_of_ne hj]

end Sums

@[simp] theorem phase_move_self (s : State n β γ) (i : Fin n) (p : Phase β) :
    (s.move i p).phase i = p := Function.update_self ..

theorem phase_move_of_ne (s : State n β γ) {i j : Fin n} (hj : j ≠ i) (p : Phase β) :
    (s.move i p).phase j = s.phase j := Function.update_of_ne hj ..

theorem sum_move {M : Type*} [AddCommMonoid M] (f : Fin n → Phase β → M) (s : State n β γ)
    (i : Fin n) (p : Phase β) :
    (∑ j, f j ((s.move i p).phase j)) + f i (s.phase i) = (∑ j, f j (s.phase j)) + f i p :=
  sum_update f s.phase i p

theorem le_sum_phase (f : Phase β → ℕ) (s : State n β γ) (i : Fin n) :
    f (s.phase i) ≤ ∑ j, f (s.phase j) :=
  Finset.single_le_sum (f := fun j => f (s.phase j)) (fun _ _ => Nat.zero_le _) (Finset.mem_univ i)

def Phase.slots : Phase β → ℕ
  | .running _ | .returned => 1
  | _ => 0

def Phase.waits : Phase β → ℕ
  | .unlaunched | .done => 0
  | _ => 1

/-! ### What holds along every run -/

/-- The loop has started the first goroutines; the semaphore and the wait group count right. -/
structure Sound (P : Pool n β γ ε) (s : State n β γ) : Prop where
  launched_le : s.launched ≤ n
  unlaunched_iff : ∀ i, s.phase i = .unlaunched ↔ s.launched ≤ i
  held_eq : s.held = ∑ i, (s.phase i).slots
  within : ∀ c ∈ P.cap, s.held ≤ c
  pending_eq : s.pending = ∑ i, (s.phase i).waits

theorem sound_start (P : Pool n β γ ε) (g : γ) : Sound P (start g) := by
  refine ⟨Nat.zero_le n, fun i => ?_, ?_, fun c _ => Nat.zero_le c, ?_⟩
  · simp [start]
  · simp [start, Phase.slots]
  · simp [start, Phase.waits]

section
variable {P : Pool n β γ ε} {s : State n β γ}
variable {t : State n β γ}

/- A goroutine that was started moves on: its slot and its place in the wait group are what
   the two counters have to follow. -/
theorem Sound.of_move (hs : Sound P s) {i : Fin n} {p : Phase β} (hi : s.phase i ≠ .unlaunched)
    (hp : p ≠ .unlaunched) (hphase : t.phase = (s.move i p).phase)
    (hlaunched : t.launched = s.launched) (hheld : t.held + (s.phase i).slots = s.held + p.slots)
    (hpending : t.pending + (s.phase i).waits = s.pending + p.waits)
    (hwithin : ∀ c ∈ P.cap, t.held ≤ c) : Sound P t := by
  have hslots := sum_move (fun _ q => q.slots) s i p
  have hwaits := sum_move (fun _ q => q.waits) s i p
  rw [← hs.held_eq] at hslots
  rw [← hs.pending_eq] at hwaits
  refine ⟨hlaunched ▸ hs.launched_le, fun j => ?_, ?_, hwithin, ?_⟩
  · rw [hphase, hlaunched]
    by_cases hj : j = i
    · subst hj
      rw [phase_move_self, ← hs.unlaunched_iff j]
      exact iff_of_false hp hi
    · rw [phase_move_of_ne s hj]
      exact hs.unlaunched_iff j
  · rw [hphase]
    omega
  · rw [hphase]
    omega

theorem Sound.launch (hs : Sound P s) (h : s.launched < n) :
    Sound P { s.move ⟨s.launched, h⟩ .waiting with
      launched := s.launched + 1, pending := s.pending + 1 } := by
  have hi : s.phase ⟨s.launched, h⟩ = .unlaunched := (hs.unlaunched_iff _).mpr le_rfl
  have hslots := sum_move (fun _ q => q.slots) s ⟨s.launched, h⟩ .waiting
  have hwaits := sum_move (fun _ q => q.waits) s ⟨s.launched, h⟩ .waiting
  rw [hi, ← hs.held_eq] at hslots
  rw [hi, ← hs.pending_eq] at hwaits
  refine ⟨h, fun j => ?_, hslots.symm, hs.within, hwaits.symm⟩
  by_cases hj : j = ⟨s.launched, h⟩
  · simp [hj]
  · have hne : (j : ℕ) ≠ s.launched := fun he => hj (Fin.ext he)
    rw [phase_move_of_ne s hj, hs.unlaunched_iff j]
    change s.launched ≤ j ↔ s.launched + 1 ≤ j
    omega

theorem Sound.moved (hs : Sound P s) (h : Moved P s t) : Sound P t := by
  cases h with
  | launch h => exact hs.launch h
  | acquire i hi hslot =>
    have hwithin : ∀ c ∈ P.cap, s.held + 1 ≤ c := by
      intro c hc
      rw [Pool.hasSlot, Option.mem_def.mp hc] at hslot
      exact of_decide_eq_true hslot
    exact hs.of_move (i := i) (by simp [hi]) (by simp) rfl rfl (by rw [hi]; rfl) (by rw [hi]; rfl)
      hwithin
  | run i e b r hi hbody =>
    cases hr : r.1 with
    | none =>
      exact hs.of_move (i := i) (p := .returned) (by simp [hi]) (by simp) (by rw [Phase.after]) rfl
        (by rw [hi]; rfl) (by rw [hi]; rfl) hs.within
    | some b' =>
      exact hs.of_move (i := i) (p := .running b') (by simp [hi]) (by simp) (by rw [Phase.after])
        rfl (by rw [hi]; rfl) (by rw [hi]; rfl) hs.within
  | release i hi =>
    have hone := le_sum_phase Phase.slots s i
    rw [hi, ← hs.held_eq] at hone
    refine hs.of_move (i := i) (by simp [hi]) (by simp) rfl rfl ?_ (by rw [hi]; rfl) fun c hc => ?_
    · rw [hi]
      exact Nat.sub_add_cancel hone
    · exact (Nat.sub_le _ _).trans (hs.within c hc)
  | finish i hi =>
    have hone := le_sum_phase Phase.waits s i
    rw [hi, ← hs.pending_eq] at hone
    refine hs.of_move (i := i) (by simp [hi]) (by simp) rfl rfl (by rw [hi]; rfl) ?_ hs.within
    rw [hi]
    exact Nat.sub_add_cancel hone

theorem Sound.step {a : Act n ε} (hs : Sound P s) (h : FanOut.step P s a = some t) :
    Sound P t := hs.moved (moved_of_step h)

def Phase.isRunning : Phase β → Bool
  | .running _ => true
  | _ => false

/-- As many bodies as the semaphore lets in. -/
theorem Sound.card_running_le (hs : Sound P s) {c : ℕ} (hc : P.cap = some c) :
    (Finset.univ.filter fun i => (s.phase i).isRunning = true).card ≤ c := by
  have hheld : (Finset.univ.filter fun i => (s.phase i).isRunning = true).card ≤ s.held := by
    rw [hs.held_eq, Finset.card_filter]
    refine Finset.sum_le_sum fun i _ => ?_
    cases s.phase i <;> simp [Phase.isRunning, Phase.slots]
  exact hheld.trans (hs.within c hc)

/-! ### The wait -/

theorem Sound.done_of_waited (hs : Sound P s) (hw : s.waited = true) (i : Fin n) :
    s.phase i = .done := by
  obtain ⟨hall, hnone⟩ := of_decide_eq_true hw
  have hzero : (s.phase i).waits = 0 := by
    have hsum : ∑ j, (s.phase j).waits = 0 := hs.pending_eq.symm.trans hnone
    exact Finset.sum_eq_zero_iff.mp hsum i (Finset.mem_univ i)
  have hlaunched : s.phase i ≠ .unlaunched := fun h =>
    absurd ((hs.unlaunched_iff i).mp h) (by omega)
  cases hp : s.phase i <;> simp_all [Phase.waits]

/-- Nobody is stuck outside a body. -/
theorem Sound.enabled_or_running (hs : Sound P s) (hcap : ∀ c ∈ P.cap, 0 < c)
    (hw : s.waited = false) :
    (∃ a t, FanOut.step P s a = some t) ∨ ∃ i b, s.phase i = .running b := by
  by_cases hlaunch : s.launched < n
  · exact .inl ⟨.launch, _, dif_pos hlaunch⟩
  have hpending : s.pending ≠ 0 := fun h => by
    have hall : s.launched = n := le_antisymm hs.launched_le (Nat.le_of_not_lt hlaunch)
    simp [State.waited, hall, h] at hw
  obtain ⟨i, -, hi⟩ := Finset.exists_ne_zero_of_sum_ne_zero (hs.pending_eq ▸ hpending)
  cases hp : s.phase i with
  | unlaunched => simp [hp, Phase.waits] at hi
  | done => simp [hp, Phase.waits] at hi
  | running b => exact .inr ⟨i, b, hp⟩
  | returned => exact .inl ⟨.release i, _, by simp only [FanOut.step, hp]; rfl⟩
  | released => exact .inl ⟨.finish i, _, by simp only [FanOut.step, hp]; rfl⟩
  | waiting =>
    by_cases hslot : P.hasSlot s.held = true
    · exact .inl ⟨.acquire i, _, by simp only [FanOut.step, hp, hslot]; rfl⟩
    -- somebody has the slot that is missing
    have hheld : s.held ≠ 0 := by
      intro hzero
      cases hc : P.cap with
      | none => simp [Pool.hasSlot, hc] at hslot
      | some c => simp [Pool.hasSlot, hc, hzero, hcap c hc] at hslot
    obtain ⟨j, -, hj⟩ := Finset.exists_ne_zero_of_sum_ne_zero (hs.held_eq ▸ hheld)
    cases hq : s.phase j with
    | running b => exact .inr ⟨j, b, hq⟩
    | returned => exact .inl ⟨.release j, _, by simp only [FanOut.step, hq]; rfl⟩
    | unlaunched => simp [hq, Phase.slots] at hj
    | waiting => simp [hq, Phase.slots] at hj
    | released => simp [hq, Phase.slots] at hj
    | done => simp [hq, Phase.slots] at hj

end

/-! ### Steps that are left -/

/-- Steps that a goroutine has before it, with those of its body given. -/
def Phase.left (whole : ℕ) (r : β → ℕ) : Phase β → ℕ
  | .unlaunched => whole + 5
  | .waiting => whole + 4
  | .running b => r b + 3
  | .returned => 2
  | .released => 1
  | .done => 0

def State.left (P : Pool n β γ ε) (r : Fin n → β → ℕ) (s : State n β γ) : ℕ :=
  ∑ i, (s.phase i).left (r i (P.entry i)) (r i)

theorem left_start (P : Pool n β γ ε) (r : Fin n → β → ℕ) (g : γ) :
    (start g : State n β γ).left P r = ∑ i, (r i (P.entry i) + 5) := rfl

theorem left_move_lt {s : State n β γ} {i : Fin n} {p : Phase β}
    (h : p.left (r i (P.entry i)) (r i) < (s.phase i).left (r i (P.entry i)) (r i)) :
    (s.move i p).left P r < s.left P r := by
  have hsum := sum_move (fun j q => q.left (r j (P.entry j)) (r j)) s i p
  simp only [State.left]
  omega

theorem left_lt_of_step {s t : State n β γ} {a : Act n ε} (hs : Sound P s)
    (hstep : step P s a = some t)
    (hbody : ∀ i b g e b' g', P.body i b g e = some (some b', g') → r i b' < r i b) :
    t.left P r < s.left P r := by
  cases moved_of_step hstep with
  | launch h =>
    have hi : s.phase ⟨s.launched, h⟩ = .unlaunched := (hs.unlaunched_iff _).mpr le_rfl
    exact left_move_lt (i := ⟨s.launched, h⟩) (p := .waiting) (by simp [hi, Phase.left])
  | acquire i hi _ =>
    exact left_move_lt (i := i) (p := .running (P.entry i)) (by simp [hi, Phase.left])
  | run i e b res hi hres =>
    refine left_move_lt (i := i) (p := .after res.1) ?_
    obtain ⟨b', g'⟩ := res
    cases b' with
    | none =>
      simp only [hi, Phase.after, Phase.left]
      omega
    | some b' =>
      have hless := hbody i b s.shared e b' g' hres
      simp only [hi, Phase.after, Phase.left]
      omega
  | release i hi => exact left_move_lt (i := i) (p := .released) (by simp [hi, Phase.left])
  | finish i hi => exact left_move_lt (i := i) (p := .done) (by simp [hi, Phase.left])

end EdgeDispatch.Lib.FanOut
