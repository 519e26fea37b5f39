import Mathlib.Logic.Function.Basic

/-! # Runs of a step function

A system is a start state and a partial step function. The label of a step says
which party moves and how every choice that is not its own (the scheduler's, the
network's, the environment's) is made, so one list of labels is one run. -/

namespace EdgeDispatch.Lib.Transition
variable {σ α : Type*}

/- Two parties are numbered 0 and 1. -/
instance neZeroTwo : @NeZero Nat Zero.ofOfNat0 2 := Nat.instNeZeroSucc

/-- Replays a schedule; `none` means that some step of it was not enabled. -/
def exec (step : σ → α → Option σ) : List α → σ → Option σ
  | [], s => some s
  | a :: rest, s => (step s a).bind (exec step rest)

theorem exec_append (step : σ → α → Option σ) (acts more : List α) (s : σ) :
    exec step (acts ++ more) s = (exec step acts s).bind (exec step more) := by
  induction acts generalizing s with
  | nil => rfl
  | cons a rest ih =>
    simp only [List.cons_append, exec]
    cases step s a with
    | none => rfl
    | some m => exact ih m

/-- States reached from `start` by steps that all meet `guard`. -/
inductive Reach (step : σ → α → Option σ) (guard : σ → α → Prop) (start : σ) : σ → Prop
  | start : Reach step guard start start
  | next {s t : σ} (a : α) : Reach step guard start s → guard s a → step s a = some t →
      Reach step guard start t

/- The guard that allows every enabled step. -/
def Free (_ : σ) (_ : α) : Prop := True

variable {step : σ → α → Option σ} {guard : σ → α → Prop} {start : σ} {acts : List α}

theorem Reach.invariant {s : σ} (Inv : σ → Prop) (h0 : Inv start)
    (hstep : ∀ s a t, Inv s → guard s a → step s a = some t → Inv t) (h : Reach step guard start s) :
    Inv s := by
  induction h with
  | start => exact h0
  | next a _ hg hs ih => exact hstep _ a _ ih hg hs

theorem Reach.trans {s t : σ} (hs : Reach step guard start s) (ht : Reach step guard s t) :
    Reach step guard start t := by
  induction ht with
  | start => exact hs
  | next a _ hg hst ih => exact ih.next a hg hst

/-- A schedule whose steps meet the guard reaches the state it replays to. -/
def Guarded (step : σ → α → Option σ) (guard : σ → α → Prop) : List α → σ → Prop
  | [], _ => True
  | a :: rest, s => guard s a ∧ ∀ t, step s a = some t → Guarded step guard rest t

/- So that a witness can evaluate the guard along its schedule. -/
instance guardedDecidable (step : σ → α → Option σ) (guard : σ → α → Prop)
    [∀ s a, Decidable (guard s a)] : ∀ acts s, Decidable (Guarded step guard acts s)
  | [], _ => isTrue trivial
  | a :: rest, s =>
    match h : step s a with
    | none => decidable_of_iff (guard s a)
        ⟨fun hg => ⟨hg, fun _ ht => nomatch h.symm.trans ht⟩, fun hg => hg.1⟩
    | some m =>
      have := guardedDecidable step guard rest m
      decidable_of_iff (guard s a ∧ Guarded step guard rest m)
        ⟨fun hg => ⟨hg.1, fun _ ht => Option.some.inj (h.symm.trans ht) ▸ hg.2⟩,
          fun hg => ⟨hg.1, hg.2 m h⟩⟩

theorem reach_of_guarded {s t : σ} (acts : List α) (hg : Guarded step guard acts s)
    (h : exec step acts s = some t) : Reach step guard s t := by
  induction acts generalizing s with
  | nil =>
    have he : s = t := Option.some.inj h
    subst he
    exact .start
  | cons a rest ih =>
    obtain ⟨m, hm, hr⟩ := Option.bind_eq_some_iff.mp h
    have first : Reach step guard s m := Reach.start.next a hg.1 hm
    exact first.trans (ih (hg.2 m hm) hr)

/-- The states that a schedule passes through, as far as its steps are enabled. -/
def visited (step : σ → α → Option σ) : List α → σ → List σ
  | [], s => [s]
  | a :: rest, s => s :: (step s a).elim [] (visited step rest)

theorem start_mem_visited (step : σ → α → Option σ) (acts : List α) (s : σ) :
    s ∈ visited step acts s := by
  cases acts with
  | nil => exact List.mem_singleton_self s
  | cons a rest => exact List.mem_cons_self

/-- A guard decides whether `C` holds all along a schedule: its steps keep an invariant `P`
that gives `C`, and a step from `P` into `C` meets it. `Q` is what is known of the states
that the schedule passes through. -/
theorem forall_visited_iff_guarded_of {C P Q : σ → Prop} {s t : σ}
    (hrun : exec step acts s = some t) (hs : P s) (hC : ∀ s, P s → C s)
    (hQ : ∀ u ∈ visited step acts s, Q u)
    (hstep : ∀ s a t, Q t → P s → step s a = some t → (C t → guard s a) ∧ (guard s a → P t)) :
    (∀ u ∈ visited step acts s, C u) ↔ Guarded step guard acts s := by
  induction acts generalizing s with
  | nil => exact iff_of_true (fun u hu => List.mem_singleton.mp hu ▸ hC s hs) trivial
  | cons a rest ih =>
    obtain ⟨m, hm, hrest⟩ := Option.bind_eq_some_iff.mp hrun
    have hvisited : visited step (a :: rest) s = s :: visited step rest m := by
      rw [visited, hm]
      rfl
    rw [hvisited] at hQ ⊢
    have hmem : m ∈ s :: visited step rest m :=
      List.mem_cons_of_mem s (start_mem_visited step rest m)
    have hrestQ : ∀ u ∈ visited step rest m, Q u := fun u hu => hQ u (List.mem_cons_of_mem s hu)
    obtain ⟨hmeets, hkeeps⟩ := hstep s a m (hQ m hmem) hs hm
    constructor
    · intro h
      have hguard : guard s a := hmeets (h m hmem)
      refine ⟨hguard, fun u hu => ?_⟩
      cases Option.some.inj (hm.symm.trans hu)
      exact (ih hrest (hkeeps hguard) hrestQ).mp fun u hu => h u (List.mem_cons_of_mem s hu)
    · rintro ⟨hguard, hnext⟩ u hu
      rcases List.mem_cons.mp hu with rfl | hu
      · exact hC u hs
      · exact (ih hrest (hkeeps hguard) hrestQ).mpr (hnext m hm) u hu

/-- If the guard says of every step whether it keeps `P`, it says so of a whole schedule. -/
theorem forall_visited_iff_guarded {P : σ → Prop} {s t : σ} (hrun : exec step acts s = some t)
    (hs : P s) (hstep : ∀ s a t, P s → step s a = some t → (P t ↔ guard s a)) :
    (∀ u ∈ visited step acts s, P u) ↔ Guarded step guard acts s :=
  forall_visited_iff_guarded_of hrun hs (fun _ h => h) (fun _ _ => trivial)
    fun s a t _ hP hst => ⟨(hstep s a t hP hst).mp, (hstep s a t hP hst).mpr⟩

theorem guarded_free (step : σ → α → Option σ) (acts : List α) (s : σ) :
    Guarded step Free acts s := by
  induction acts generalizing s with
  | nil => trivial
  | cons a rest ih => exact ⟨trivial, fun t _ => ih t⟩

/-- One guard gives another along a schedule, with the help of an invariant. -/
theorem Guarded.imp {guard' : σ → α → Prop} {s : σ} (Inv : σ → Prop) (h : Guarded step guard acts s)
    (hs : Inv s)
    (himp : ∀ s, ∀ a ∈ acts, Inv s → guard s a → guard' s a ∧ ∀ t, step s a = some t → Inv t) :
    Guarded step guard' acts s := by
  induction acts generalizing s with
  | nil => trivial
  | cons a rest ih =>
    obtain ⟨hguard', hnext⟩ := himp s a List.mem_cons_self hs h.1
    refine ⟨hguard', fun t ht => ih (h.2 t ht) (hnext t ht) ?_⟩
    exact fun u b hb => himp u b (List.mem_cons_of_mem a hb)

/-- What is seen of the state at the end of a schedule is seen of a reached state. -/
theorem reach_of_guarded_view {β : Type*} (hg : Guarded step guard acts start) (view : σ → β)
    {v : β} (h : (exec step acts start).map view = some v) :
    ∃ s, Reach step guard start s ∧ view s = v := by
  obtain ⟨s, hs, hv⟩ := Option.map_eq_some_iff.mp h
  exact ⟨s, reach_of_guarded acts hg hs, hv⟩

theorem reach_of_view {β : Type*} (acts : List α) (view : σ → β) {v : β}
    (h : (exec step acts start).map view = some v) : ∃ s, Reach step Free start s ∧ view s = v :=
  reach_of_guarded_view (guarded_free step acts start) view h

/- A run that goes on, seen at two moments. -/
theorem reach_of_views {β γ : Type*} (acts more : List α) (view : σ → β) (view' : σ → γ) {v : β}
    {v' : γ} (h : ((exec step acts start).bind fun s =>
      (exec step more s).map fun s' => (view s, view' s')) = some (v, v')) :
    ∃ s s', Reach step Free start s ∧ Reach step Free s s' ∧ view s = v ∧ view' s' = v' := by
  obtain ⟨s, hs, hmore⟩ := Option.bind_eq_some_iff.mp h
  obtain ⟨s', hs', hviews⟩ := Option.map_eq_some_iff.mp hmore
  exact ⟨s, s', reach_of_guarded acts (guarded_free step acts start) hs,
    reach_of_guarded more (guarded_free step more s) hs', (Prod.mk.inj hviews).1,
    (Prod.mk.inj hviews).2⟩

/-- One party moves on: what parties hold is held by another, or by the new place. -/
theorem forall_held_update {ι β γ : Type*} [DecidableEq ι] {holds : β → Option γ} {pc : ι → β}
    {Q : γ → Prop} (i : ι) {p : β} (h : ∀ j x, holds (pc j) = some x → Q x)
    (hp : ∀ x, holds p = some x → Q x) :
    ∀ j x, holds (Function.update pc i p j) = some x → Q x :=
  (Function.forall_update_iff pc fun _ q => ∀ x, holds q = some x → Q x).mpr
    ⟨hp, fun j _ => h j⟩

/-- And no two parties hold things that clash, if nothing clashes with the new ones. -/
theorem held_apart_update {ι β γ : Type*} [DecidableEq ι] {holds : β → Option γ} {pc : ι → β}
    {clash : γ → γ → Prop} (i : ι) {p : β}
    (h : ∀ j k x y, holds (pc j) = some x → holds (pc k) = some y → clash x y → j = k)
    (hp : ∀ x, holds p = some x → ∀ j y, holds (pc j) = some y → ¬ clash x y ∧ ¬ clash y x) :
    ∀ j k x y, holds (Function.update pc i p j) = some x →
      holds (Function.update pc i p k) = some y → clash x y → j = k := by
  intro j k x y hj hk hc
  rw [Function.update_apply] at hj hk
  split at hj <;> split at hk
  · rw [‹j = i›, ‹k = i›]
  · exact absurd hc (hp x hj k y hk).1
  · exact absurd hc (hp y hk j x hj).2
  · exact h j k x y hj hk hc

/-- If every step makes a measure smaller, no run is longer than the measure at its start. -/
theorem length_add_measure_le {Inv : σ → Prop} {m : σ → Nat}
    (hstep : ∀ s a t, Inv s → step s a = some t → Inv t ∧ m t < m s) {s t : σ} (hs : Inv s)
    (hrun : exec step acts s = some t) : acts.length + m t ≤ m s := by
  induction acts generalizing s with
  | nil =>
    cases hrun
    simp
  | cons a rest ih =>
    obtain ⟨u, hu, hrest⟩ := Option.bind_eq_some_iff.mp hrun
    obtain ⟨hInv, hlt⟩ := hstep s a u hs hu
    have hle := ih hInv hrest
    simp only [List.length_cons]
    omega

end EdgeDispatch.Lib.Transition
