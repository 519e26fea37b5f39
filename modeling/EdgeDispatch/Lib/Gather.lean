import EdgeDispatch.Lib.FanOut
import Mathlib.Algebra.BigOperators.Fin

/-! # Goroutines that each add to one value under a mutex

Every goroutine of a fan-out may ask something outside the program, and may then have
something to add to a value that all share. The addition is a load and a store between the
lock and the unlock. A goroutine that panics ends the program. -/

namespace EdgeDispatch.Lib.Gather
open Lib.FanOut

/-- How a goroutine begins. -/
inductive Entry (Q : Type) where
  | leave
  | crash
  | ask (q : Q)

def Entry.request {Q : Type} : Entry Q → Option Q
  | .ask q => some q
  | _ => none

/-- `answer` is what a goroutine has to add once it was answered. -/
structure Job (n : ℕ) (Q X A : Type) where
  entry : Fin n → Entry Q
  answer : Fin n → Option X
  put : A → X → A

inductive Place (X A : Type) where
  | begin
  | asking
  | locking (x : X)
  | locked (x : X)
  | loaded (x : X) (a : A)
  | stored

structure Shared (Q A : Type) where
  locked : Bool
  acc : A
  asked : List Q
  crashed : Bool

abbrev Run (n : ℕ) (Q X A : Type) := State n (Place X A) (Shared Q A)

variable {n : ℕ} {Q X A : Type}

namespace Job
variable (J : Job n Q X A)

def act (i : Fin n) (g : Shared Q A) :
    Place X A → Option (Option (Place X A) × Shared Q A)
  | .begin =>
    match J.entry i with
    | .leave => some (none, g)
    | .crash => some (none, { g with crashed := true })
    | .ask q => some (some .asking, { g with asked := g.asked ++ [q] })
  | .asking => some ((J.answer i).map .locking, g)
  | .locking x => if g.locked then none else some (some (.locked x), { g with locked := true })
  | .locked x => some (some (.loaded x g.acc), g)
  | .loaded x a => some (some .stored, { g with acc := J.put a x })
  | .stored => some (none, { g with locked := false })

def pool (cap : Option ℕ) : Pool n (Place X A) (Shared Q A) Unit :=
  { cap := cap
    entry := fun _ => .begin
    body := fun i b g _ => if g.crashed then none else J.act i g b }

def request (i : Fin n) : Option Q := (J.entry i).request

def contrib (i : Fin n) : Option X := (J.request i).bind fun _ => J.answer i

def unlocked (a : A) : Shared Q A := ⟨false, a, [], false⟩

end Job

/-! ### What holds along every run -/

/- In the critical section. -/
def Place.inside : Place X A → ℕ
  | .locked _ | .loaded _ _ | .stored => 1
  | _ => 0

def inside : Phase (Place X A) → ℕ
  | .running b => b.inside
  | _ => 0

def putBy (J : Job n Q X A) (i : Fin n) : Phase (Place X A) → Multiset X
  | .running .stored | .returned | .released | .done => (J.contrib i).toList
  | _ => 0

def askedBy (J : Job n Q X A) (i : Fin n) : Phase (Place X A) → Multiset Q
  | .unlaunched | .waiting | .running .begin => 0
  | _ => (J.request i).toList

/- Past its entry. -/
def begun : Phase (Place X A) → Bool
  | .unlaunched | .waiting | .running .begin => false
  | _ => true

/-- What a goroutine carries is its own, and what it has loaded is still there. -/
def Fits (J : Job n Q X A) (i : Fin n) (acc : A) : Place X A → Prop
  | .begin | .stored => True
  | .asking => ∃ q, J.request i = some q
  | .locking x | .locked x => J.contrib i = some x
  | .loaded x a => J.contrib i = some x ∧ a = acc

structure Gathered (J : Job n Q X A) (cap : Option ℕ) (init : A) (s : Run n Q X A) : Prop where
  sound : Sound (J.pool cap) s
  fits : ∀ i b, s.phase i = .running b → Fits J i s.shared.acc b
  mutex : s.shared.locked.toNat = ∑ i, inside (s.phase i)
  acc_eq : ∃ l : List X, s.shared.acc = l.foldl J.put init ∧ l = ∑ i, putBy J i (s.phase i)
  asked_eq : (s.shared.asked : Multiset Q) = ∑ i, askedBy J i (s.phase i)
  crashed : s.shared.crashed = true → ∃ i, J.entry i = .crash
  spared : ∀ i, J.entry i = .crash → begun (s.phase i) = true → s.shared.crashed = true

section
variable {J : Job n Q X A} {cap : Option ℕ} {init : A} {s t : Run n Q X A}

theorem gathered_start (J : Job n Q X A) (cap : Option ℕ) (init : A) :
    Gathered J cap init (start (Job.unlocked init)) := by
  refine ⟨sound_start _ _, fun i b h => ?_, ?_, ⟨[], rfl, ?_⟩, ?_, fun h => ?_, fun i _ h => ?_⟩
  · cases h
  · simp [start, Job.unlocked, inside]
  · simp [start, putBy]
  · simp [start, Job.unlocked, askedBy]
  · cases h
  · cases h

variable {i : Fin n}

/- Two goroutines are not in the critical section at once. -/
theorem Gathered.apart (h : Gathered J cap init s) {j : Fin n} (hij : j ≠ i)
    (hi : inside (s.phase i) = 1) : inside (s.phase j) = 0 := by
  have hle : s.shared.locked.toNat ≤ 1 := Bool.toNat_le _
  rw [h.mutex, ← Finset.add_sum_erase _ _ (Finset.mem_univ i), hi] at hle
  have hmem : j ∈ Finset.univ.erase i := Finset.mem_erase.mpr ⟨hij, Finset.mem_univ j⟩
  have hone := Finset.single_le_sum (f := fun k => inside (s.phase k))
    (fun k _ => Nat.zero_le _) hmem
  have hzero : inside (s.phase j) ≤ 0 := by
    refine hone.trans ?_
    omega
  exact Nat.le_zero.mp hzero

/- A goroutine moves and leaves the value as it is. -/
theorem Gathered.of_quiet (h : Gathered J cap init s) (hsound : Sound (J.pool cap) t)
    {q : Phase (Place X A)} (hphase : t.phase = (s.move i q).phase)
    (hacc : t.shared.acc = s.shared.acc) (hfits : ∀ b, q = .running b → Fits J i s.shared.acc b)
    (hlock : t.shared.locked.toNat + inside (s.phase i) = s.shared.locked.toNat + inside q)
    (hput : putBy J i q = putBy J i (s.phase i))
    (hasked : (t.shared.asked : Multiset Q) + askedBy J i (s.phase i) =
      s.shared.asked + askedBy J i q) (hcrash : t.shared.crashed = s.shared.crashed ∧
      (begun q = begun (s.phase i) ∨ J.entry i ≠ .crash) ∨
      t.shared.crashed = true ∧ J.entry i = .crash) : Gathered J cap init t := by
  refine ⟨hsound, fun j b hj => ?_, ?_, ?_, ?_, fun hc => ?_, fun j hj hb => ?_⟩
  · rw [hphase] at hj
    rw [hacc]
    by_cases hji : j = i
    · subst hji
      rw [phase_move_self] at hj
      exact hfits b hj
    · rw [phase_move_of_ne _ hji] at hj
      exact h.fits j b hj
  · have hsum := sum_move (fun _ p => inside p) s i q
    rw [← h.mutex] at hsum
    rw [hphase]
    omega
  · obtain ⟨l, hl, hsum⟩ := h.acc_eq
    refine ⟨l, hacc.trans hl, ?_⟩
    rw [hsum, hphase]
    exact (sum_update_of_eq (putBy J) s.phase hput).symm
  · have hsum := sum_move (askedBy J) s i q
    rw [← h.asked_eq, ← hasked] at hsum
    rw [hphase]
    exact (add_right_cancel hsum).symm
  · cases hcrash with
    | inl hsame => exact h.crashed (hsame.1 ▸ hc)
    | inr hnow => exact ⟨i, hnow.2⟩
  · cases hcrash with
    | inr hnow => exact hnow.1
    | inl hsame =>
      rw [hsame.1]
      rw [hphase] at hb
      by_cases hji : j = i
      · subst hji
        rw [phase_move_self, hsame.2.resolve_right fun hne => hne hj] at hb
        exact h.spared j hj hb
      · rw [phase_move_of_ne _ hji] at hb
        exact h.spared j hj hb

/- Only its own place changes. -/
theorem Gathered.of_still (h : Gathered J cap init s) (hsound : Sound (J.pool cap) t)
    {p q : Phase (Place X A)} (hi : s.phase i = p) (hphase : t.phase = (s.move i q).phase)
    (hshared : t.shared = s.shared) (hfits : ∀ b, q = .running b → Fits J i s.shared.acc b)
    (hsame : inside q = inside p ∧ putBy J i q = putBy J i p ∧ askedBy J i q = askedBy J i p ∧
      begun q = begun p) : Gathered J cap init t := by
  obtain ⟨hin, hput, hasked, hbegun⟩ := hsame
  refine h.of_quiet hsound hphase (by rw [hshared]) hfits ?_ (hi ▸ hput) ?_
    (.inl ⟨by rw [hshared], .inl (hi ▸ hbegun)⟩)
  · rw [hshared, hi, hin]
  · rw [hshared, hi, hasked]

/- The store. Nobody else has loaded the value. -/
theorem Gathered.store (h : Gathered J cap init s) (hsound : Sound (J.pool cap) t) {x : X} {a : A}
    (hi : s.phase i = .running (.loaded x a))
    (hphase : t.phase = (s.move i (.running .stored)).phase)
    (hshared : t.shared = { s.shared with acc := J.put a x }) : Gathered J cap init t := by
  obtain ⟨hx, ha⟩ := h.fits i _ hi
  refine ⟨hsound, fun j b hj => ?_, ?_, ?_, ?_, fun hc => ?_, fun j hj hb => ?_⟩
  · rw [hphase] at hj
    by_cases hji : j = i
    · subst hji
      rw [phase_move_self] at hj
      cases hj
      trivial
    · rw [phase_move_of_ne _ hji] at hj
      have hfits := h.fits j b hj
      have hout : inside (s.phase j) = 0 := h.apart hji (by rw [hi]; rfl)
      rw [hj] at hout
      cases b with
      | loaded y c => cases hout
      | begin => exact hfits
      | asking => exact hfits
      | locking y => exact hfits
      | locked y => exact hfits
      | stored => exact hfits
  · rw [hphase, hshared]
    exact h.mutex.trans (sum_update_of_eq (fun _ => inside) s.phase (by rw [hi]; rfl)).symm
  · obtain ⟨l, hl, hsum⟩ := h.acc_eq
    refine ⟨l ++ [x], ?_, ?_⟩
    · rw [hshared, List.foldl_append, ← hl, ← ha]
      rfl
    · have hmove := sum_move (putBy J) s i (.running .stored)
      rw [hi] at hmove
      change _ + 0 = _ + ((J.contrib i).toList : Multiset X) at hmove
      rw [add_zero, hx, ← hsum] at hmove
      rw [hphase, hmove, ← Multiset.coe_add]
      rfl
  · rw [hphase, hshared]
    exact h.asked_eq.trans (sum_update_of_eq (askedBy J) s.phase (by rw [hi]; rfl)).symm
  · rw [hshared] at hc
    exact h.crashed hc
  · rw [hshared]
    rw [hphase] at hb
    by_cases hji : j = i
    · subst hji
      exact h.spared j hj (by rw [hi]; rfl)
    · rw [phase_move_of_ne _ hji] at hb
      exact h.spared j hj hb

theorem contrib_eq_none (h : J.request i = none) : J.contrib i = none := by
  rw [Job.contrib, h]
  rfl

theorem Gathered.run (h : Gathered J cap init s) {b : Place X A}
    {r : Option (Place X A) × Shared Q A} (hi : s.phase i = .running b)
    (hact : J.act i s.shared b = some r)
    (hsound : Sound (J.pool cap) { s.move i (.after r.1) with shared := r.2 }) :
    Gathered J cap init { s.move i (.after r.1) with shared := r.2 } := by
  have hfits := h.fits i b hi
  cases b with
  | begin =>
    cases hentry : J.entry i with
    | leave =>
      have hreq : J.request i = none := by rw [Job.request, hentry]; rfl
      simp only [Job.act, hentry, Option.some.injEq] at hact
      subst hact
      refine h.of_quiet (i := i) (q := .returned) hsound rfl rfl (by simp) (by rw [hi]; rfl) ?_ ?_
        (.inl ⟨rfl, .inr (by simp [hentry])⟩)
      · rw [hi, putBy, contrib_eq_none hreq]
        rfl
      · simp [hi, askedBy, hreq]
    | crash =>
      have hreq : J.request i = none := by rw [Job.request, hentry]; rfl
      simp only [Job.act, hentry, Option.some.injEq] at hact
      subst hact
      refine h.of_quiet (i := i) (q := .returned) hsound rfl rfl (by simp) (by rw [hi]; rfl) ?_ ?_
        (.inr ⟨rfl, hentry⟩)
      · rw [hi, putBy, contrib_eq_none hreq]
        rfl
      · simp [hi, askedBy, hreq]
    | ask q =>
      have hreq : J.request i = some q := by rw [Job.request, hentry]; rfl
      simp only [Job.act, hentry, Option.some.injEq] at hact
      subst hact
      refine h.of_quiet (i := i) (q := .running .asking) hsound rfl rfl ?_ (by rw [hi]; rfl)
        (by rw [hi]; rfl) ?_ (.inl ⟨rfl, .inr (by simp [hentry])⟩)
      · intro b hb
        cases hb
        exact ⟨q, hreq⟩
      · simp [hi, askedBy, hreq, ← Multiset.coe_add]
  | asking =>
    obtain ⟨q, hq⟩ := hfits
    cases hans : J.answer i with
    | none =>
      simp only [Job.act, hans, Option.map_none, Option.some.injEq] at hact
      subst hact
      have hnone : J.contrib i = none := by rw [Job.contrib, hq, hans]; rfl
      refine h.of_still (q := .returned) hsound hi rfl rfl (by simp) ⟨rfl, ?_, rfl, rfl⟩
      rw [putBy, hnone]
      rfl
    | some x =>
      simp only [Job.act, hans, Option.map_some, Option.some.injEq] at hact
      subst hact
      have hsome : J.contrib i = some x := by rw [Job.contrib, hq, hans]; rfl
      refine h.of_still hsound hi rfl rfl ?_ ⟨rfl, rfl, rfl, rfl⟩
      intro b hb
      cases hb
      exact hsome
  | locking x =>
    simp only [Job.act] at hact
    split at hact
    · cases hact
    · rename_i hfree
      cases hact
      rw [Bool.not_eq_true] at hfree
      refine h.of_quiet (i := i) (q := .running (.locked x)) hsound rfl rfl ?_ ?_ (by rw [hi]; rfl)
        (by rw [hi]; rfl) (.inl ⟨rfl, .inl (by rw [hi]; rfl)⟩)
      · intro b hb
        cases hb
        exact hfits
      · rw [hi, hfree]
        rfl
  | locked x =>
    cases hact
    refine h.of_still hsound hi rfl rfl ?_ ⟨rfl, rfl, rfl, rfl⟩
    intro b hb
    cases hb
    exact ⟨hfits, rfl⟩
  | loaded x a =>
    cases hact
    exact h.store hsound hi rfl rfl
  | stored =>
    cases hact
    refine h.of_quiet (i := i) (q := .returned) hsound rfl rfl (by simp) ?_ (by rw [hi]; rfl)
      (by rw [hi]; rfl) (.inl ⟨rfl, .inl (by rw [hi]; rfl)⟩)
    -- the lock is taken, by this goroutine
    have hle := le_sum_phase inside s i
    rw [hi, ← h.mutex] at hle
    have hone : s.shared.locked.toNat = 1 := le_antisymm (Bool.toNat_le _) hle
    rw [hi, hone]
    rfl

theorem Gathered.step {a : Act n Unit} (h : Gathered J cap init s)
    (hstep : FanOut.step (J.pool cap) s a = some t) : Gathered J cap init t := by
  have hsound := h.sound.step hstep
  cases moved_of_step hstep with
  | launch hlt =>
    have hi : s.phase ⟨s.launched, hlt⟩ = .unlaunched := (h.sound.unlaunched_iff _).mpr le_rfl
    exact h.of_still hsound hi rfl rfl (by simp) ⟨rfl, rfl, rfl, rfl⟩
  | acquire i hi hslot =>
    refine h.of_still hsound hi rfl rfl ?_ ⟨rfl, rfl, rfl, rfl⟩
    intro b hb
    cases hb
    trivial
  | run i e b r hi hbody =>
    simp only [Job.pool] at hbody
    split at hbody
    · cases hbody
    · exact h.run hi hbody hsound
  | release i hi =>
    exact h.of_still hsound hi rfl rfl (by simp) ⟨rfl, rfl, rfl, rfl⟩
  | finish i hi =>
    exact h.of_still hsound hi rfl rfl (by simp) ⟨rfl, rfl, rfl, rfl⟩

theorem gathered_of_reach (h : Transition.Reach (FanOut.step (J.pool cap)) Transition.Free
      (start (Job.unlocked init)) s) :
    Gathered J cap init s :=
  h.invariant _ (gathered_start J cap init) fun _ _ _ hs _ hstep => hs.step hstep

/-! ### The end -/

theorem sum_toList {n : ℕ} {α : Type*} (f : Fin n → Option α) :
    ∑ i, ((f i).toList : Multiset α) = ((List.finRange n).filterMap f : Multiset α) := by
  rw [Fin.sum_univ_def]
  induction List.finRange n with
  | nil => rfl
  | cons i rest ih =>
    rw [List.map_cons, List.sum_cons, ih, List.filterMap_cons]
    cases f i with
    | none => simp
    | some x => simp

/- Who should have panicked has. -/
theorem Gathered.entry_ne_crash (h : Gathered J cap init s) (hw : s.waited = true)
    (hcalm : s.shared.crashed = false) (i : Fin n) : J.entry i ≠ .crash := by
  intro hi
  have hcrash := h.spared i hi (by rw [h.sound.done_of_waited hw i]; rfl)
  rw [hcalm] at hcrash
  cases hcrash

theorem Gathered.not_crashed (h : Gathered J cap init s) (hentry : ∀ i, J.entry i ≠ .crash) :
    s.shared.crashed = false := by
  by_contra hc
  obtain ⟨i, hi⟩ := h.crashed ((Bool.not_eq_false _).mp hc)
  exact hentry i hi

/-- When all have been waited for, each addition was made once, in some order, and each
question was asked once. -/
theorem Gathered.of_waited (h : Gathered J cap init s) (hw : s.waited = true) :
    (∃ l : List X, s.shared.acc = l.foldl J.put init ∧
      l.Perm ((List.finRange n).filterMap J.contrib)) ∧
    s.shared.asked.Perm ((List.finRange n).filterMap J.request) := by
  have hdone := h.sound.done_of_waited hw
  obtain ⟨l, hl, hsum⟩ := h.acc_eq
  refine ⟨⟨l, hl, ?_⟩, ?_⟩
  · rw [← Multiset.coe_eq_coe, hsum, ← sum_toList]
    simp only [hdone, putBy]
  · rw [← Multiset.coe_eq_coe, h.asked_eq, ← sum_toList]
    simp only [hdone, askedBy]

/-- Nobody waits for the mutex in vain. -/
theorem Gathered.enabled (h : Gathered J cap init s) (hcap : ∀ c ∈ cap, 0 < c)
    (hcalm : s.shared.crashed = false) (hw : s.waited = false) :
    ∃ a, (FanOut.step (J.pool cap) s a).isSome = true := by
  have hrun : ∀ i b, s.phase i = .running b → (J.act i s.shared b).isSome = true →
      ∃ a, (FanOut.step (J.pool cap) s a).isSome = true := by
    intro i b hi hsome
    refine ⟨.run i (), ?_⟩
    simp [FanOut.step, hi, Job.pool, hcalm, hsome]
  have hin : ∀ i b, s.phase i = .running b → b.inside ≠ 0 → (J.act i s.shared b).isSome = true := by
    intro i b hi hb
    cases b with
    | locked x => rfl
    | loaded x a => rfl
    | stored => rfl
    | begin => exact absurd rfl hb
    | asking => exact absurd rfl hb
    | locking x => exact absurd rfl hb
  cases h.sound.enabled_or_running hcap hw with
  | inl hstep =>
    obtain ⟨a, t, ht⟩ := hstep
    exact ⟨a, by simp [ht]⟩
  | inr hbusy =>
    obtain ⟨i, b, hi⟩ := hbusy
    by_cases hact : (J.act i s.shared b).isSome = true
    · exact hrun i b hi hact
    -- only a lock that somebody has makes it wait
    have hlocked : s.shared.locked = true := by
      cases b with
      | locking x =>
        by_contra hfree
        exact hact (by simp [Job.act, hfree])
      | begin => cases hentry : J.entry i <;> simp [Job.act, hentry] at hact
      | asking => simp [Job.act] at hact
      | locked x => simp [Job.act] at hact
      | loaded x a => simp [Job.act] at hact
      | stored => simp [Job.act] at hact
    have hsum : ∑ j, inside (s.phase j) ≠ 0 := by
      rw [← h.mutex, hlocked]
      exact Nat.one_ne_zero
    obtain ⟨j, -, hj⟩ := Finset.exists_ne_zero_of_sum_ne_zero hsum
    cases hp : s.phase j with
    | running b' =>
      rw [hp] at hj
      exact hrun j b' hp (hin j b' hp hj)
    | unlaunched => simp [hp, inside] at hj
    | waiting => simp [hp, inside] at hj
    | returned => simp [hp, inside] at hj
    | released => simp [hp, inside] at hj
    | done => simp [hp, inside] at hj

def Place.left : Place X A → ℕ
  | .begin => 5
  | .asking => 4
  | .locking _ => 3
  | .locked _ => 2
  | .loaded _ _ => 1
  | .stored => 0

theorem left_lt_of_act {g g' : Shared Q A} {b b' : Place X A} (h : J.act i g b = some (some b', g')) :
    b'.left < b.left := by
  cases b with
  | begin =>
    cases hentry : J.entry i with
    | leave => simp [Job.act, hentry] at h
    | crash => simp [Job.act, hentry] at h
    | ask q =>
      simp only [Job.act, hentry, Option.some.injEq, Prod.mk.injEq] at h
      rw [← h.1]
      exact Nat.lt_succ_self _
  | asking =>
    cases hans : J.answer i with
    | none => simp [Job.act, hans] at h
    | some x =>
      simp only [Job.act, hans, Option.map_some, Option.some.injEq, Prod.mk.injEq] at h
      rw [← h.1]
      exact Nat.lt_succ_self _
  | locking x =>
    simp only [Job.act] at h
    split at h
    · cases h
    · cases h
      exact Nat.lt_succ_self _
  | locked x =>
    cases h
    exact Nat.lt_succ_self _
  | loaded x a =>
    cases h
    exact Nat.lt_succ_self _
  | stored => cases h

/-- Ten steps for a goroutine, from its start to the wait group. -/
theorem length_le_of_exec {acts : List (Act n Unit)}
    (hrun : Transition.exec (FanOut.step (J.pool cap)) acts (start (Job.unlocked init)) = some s) :
    acts.length ≤ 10 * n := by
  have hlen := Transition.length_add_measure_le
    (m := fun s => s.left (J.pool cap) fun _ => Place.left)
    (fun s a t (hs : Gathered J cap init s) hst => ⟨hs.step hst, left_lt_of_step hs.sound hst
      fun i b g _ b' g' hbody => by
        simp only [Job.pool] at hbody
        split at hbody
        · cases hbody
        · exact left_lt_of_act hbody⟩) (gathered_start J cap init) hrun
  rw [left_start] at hlen
  have hsum : ∑ i : Fin n, (Place.left ((J.pool cap).entry i) + 5) = 10 * n := by
    simp [Job.pool, Place.left, Nat.mul_comm]
  omega

end

end EdgeDispatch.Lib.Gather
