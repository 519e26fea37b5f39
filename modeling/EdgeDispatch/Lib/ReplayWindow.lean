import Mathlib.Data.Int.Notation
import Mathlib.Data.List.Basic

/-! # At most once, with a memory that forgets

A gate lets an event through and remembers its key, and may forget keys again. If what it
forgets is older than the time in which an event can be let through at all, no event is
let through twice. Times are integers. -/

namespace EdgeDispatch.Lib.ReplayWindow
variable {σ ε κ : Type*}

/-- A key that was remembered at `t` is kept, and refused, until `t + window`. -/
structure Gate (σ ε κ : Type*) where
  step : σ → ε → Bool × σ
  time : ε → ℤ
  key : ε → κ
  seen : σ → κ → Option ℤ
  window : ℤ
  remembers : ∀ s e, (step s e).1 = true → seen (step s e).2 (key e) = some (time e)
  refuses : ∀ s e t, seen s (key e) = some t → time e ≤ t + window → (step s e).1 = false
  keeps : ∀ s e k t, seen s k = some t → time e ≤ t + window → seen (step s e).2 k = some t

/-- The events of a run, each with whether it was let through. -/
def verdicts (g : Gate σ ε κ) : σ → List ε → List (ε × Bool)
  | _, [] => []
  | s, e :: es => (e, (g.step s e).1) :: verdicts g (g.step s e).2 es

theorem mem_of_verdicts {g : Gate σ ε κ} {es : List ε} {s : σ} {p : ε × Bool}
    (h : p ∈ verdicts g s es) : p.1 ∈ es := by
  induction es generalizing s with
  | nil => cases h
  | cons e es ih =>
    rcases List.mem_cons.mp h with rfl | h
    · exact List.mem_cons_self ..
    · exact List.mem_cons_of_mem _ (ih h)

/- An event of a run that was let through met some state of the gate. -/
theorem verdict_state {g : Gate σ ε κ} {es : List ε} {s : σ} {p : ε × Bool}
    (h : p ∈ verdicts g s es) (hp : p.2 = true) : ∃ s', (g.step s' p.1).1 = true := by
  induction es generalizing s with
  | nil => cases h
  | cons e es ih =>
    rcases List.mem_cons.mp h with rfl | h
    · exact ⟨s, hp⟩
    · exact ih h

/- The memory survives every event up to the end of the window, so the key is refused there. -/
theorem refused_within (g : Gate σ ε κ) (es : List ε) (s : σ) (k : κ) (t : ℤ)
    (hs : es.Pairwise fun e e' => g.time e ≤ g.time e') (hseen : g.seen s k = some t) :
    ∀ p ∈ verdicts g s es, g.key p.1 = k → g.time p.1 ≤ t + g.window → p.2 = false := by
  induction es generalizing s with
  | nil => exact fun p hp => nomatch hp
  | cons e es ih =>
    obtain ⟨hle, hs'⟩ := List.pairwise_cons.mp hs
    intro p hp hkey htime
    rcases List.mem_cons.mp hp with rfl | hp
    · exact g.refuses s _ t (by rw [hkey]; exact hseen) htime
    · have hbefore : g.time e ≤ t + g.window := Int.le_trans (hle p.1 (mem_of_verdicts hp)) htime
      exact ih _ hs' (g.keeps s e k t hseen hbefore) p hp hkey htime

/-- Events that are the same in the sense of `same` are let through at most once, if they
share their key and can only be let through within one window. -/
theorem let_through_once (g : Gate σ ε κ) (same : ε → ε → Prop)
    (hkey : ∀ e e', same e e' → g.key e = g.key e')
    (hwindow : ∀ s s' e e', (g.step s e).1 = true → (g.step s' e').1 = true → same e e' →
      g.time e' ≤ g.time e + g.window)
    (es : List ε) (s : σ) (hs : es.Pairwise fun e e' => g.time e ≤ g.time e') :
    (verdicts g s es).Pairwise fun p q => p.2 = true → q.2 = true → ¬ same p.1 q.1 := by
  induction es generalizing s with
  | nil => exact List.Pairwise.nil
  | cons e es ih =>
    obtain ⟨-, hs'⟩ := List.pairwise_cons.mp hs
    refine List.pairwise_cons.mpr ⟨?_, ih _ hs'⟩
    intro q hq hfirst hsecond hsame
    obtain ⟨s', hs''⟩ := verdict_state hq hsecond
    have htime := hwindow s s' e q.1 hfirst hs'' hsame
    have hno := refused_within g es _ (g.key e) (g.time e) hs' (g.remembers s e hfirst) q hq
      (hkey e q.1 hsame).symm htime
    rw [hno] at hsecond
    cases hsecond

end EdgeDispatch.Lib.ReplayWindow
