import EdgeDispatch.Lib.Transition

/-! # Leader election (internal/controlplane/leader.go)

Each control-plane instance runs `Start`: `tryAcquire` on a ticker and `resign`
once its context is done. Both talk to one Redis key, `cp:leader`, in separate
commands, so the model interleaves the single commands and the stores to
`isLeader` of any number of instances with expiries of the key. -/

namespace EdgeDispatch.ControlPlane.Leader
open Lib.Transition

/-- The next thing an instance does. `idle` is the select of `Start`: the next
step is the SetNX of a `tryAcquire` or, once the context is done, `resign`. -/
inductive Pc where
  | idle
  | get
  | expire
  | storeTrue
  | storeFalse
  | del
  | resigned
  | stopped
  deriving DecidableEq, Repr

/-- What a Redis call gives its caller: the answer, an error although the command
was executed (`lost`), or an error and no effect (`refused`). -/
inductive Reply where
  | ok
  | lost
  | refused
  deriving DecidableEq, Repr

structure State (ι : Type) where
  key : Option ι
  pc : ι → Pc
  isLeader : ι → Bool

inductive Act (ι : Type) where
  | redis (i : ι) (r : Reply)
  | store (i : ι)
  | stop (i : ι)
  | lapse

variable {ι : Type} [DecidableEq ι]

def init : State ι := ⟨none, fun _ => .idle, fun _ => false⟩

def State.goto (s : State ι) (i : ι) (p : Pc) : State ι :=
  { s with pc := Function.update s.pc i p }
def State.setLeader (s : State ι) (i : ι) (b : Bool) : State ι :=
  { s with isLeader := Function.update s.isLeader i b }

/- SET NX: writes the key only when it is absent. -/
def claimed (s : State ι) (i : ι) : Option ι :=
  match s.key with
  | none => some i
  | some j => some j

def setNX (s : State ι) (i : ι) : Reply → State ι
  | .refused => s
  | .lost => { s with key := claimed s i }
  | .ok =>
    if s.key = none then { s.goto i .storeTrue with key := some i }
    else s.goto i .get

/- An absent key is an error of go-redis as well (`redis.Nil`), so `tryAcquire`
   returns and leaves `isLeader` as it is. -/
def get (s : State ι) (i : ι) : Reply → State ι
  | .ok =>
    match s.key with
    | none => s.goto i .idle
    | some j => if j = i then s.goto i .expire else s.goto i .storeFalse
  | _ => s.goto i .idle

/- EXPIRE answers without an error when the key is absent or another's too. -/
def expire (s : State ι) (i : ι) : Reply → State ι
  | .ok => s.goto i .storeTrue
  | _ => s.goto i .storeFalse

/- DEL removes the key whoever wrote it; `resign` goes on after an error. -/
def del (s : State ι) (i : ι) : Reply → State ι
  | .refused => s.goto i .resigned
  | _ => { s.goto i .resigned with key := none }

def redis (s : State ι) (i : ι) (r : Reply) : Option (State ι) :=
  match s.pc i with
  | .idle => some (setNX s i r)
  | .get => some (get s i r)
  | .expire => some (expire s i r)
  | .del => some (del s i r)
  | _ => none

def store (s : State ι) (i : ι) : Option (State ι) :=
  match s.pc i with
  | .storeTrue => some ((s.goto i .idle).setLeader i true)
  | .storeFalse => some ((s.goto i .idle).setLeader i false)
  | .resigned => some ((s.goto i .stopped).setLeader i false)
  | _ => none

/- `ctx.Done()` in `Start`, then the load at the head of `resign`. -/
def stop (s : State ι) (i : ι) : Option (State ι) :=
  match s.pc i with
  | .idle => some (if s.isLeader i then s.goto i .del else s.goto i .stopped)
  | _ => none

def step (s : State ι) : Act ι → Option (State ι)
  | .redis i r => redis s i r
  | .store i => store s i
  | .stop i => stop s i
  | .lapse => some { s with key := none }

def AtMostOneLeader (s : State ι) : Prop :=
  ∀ i j, s.isLeader i = true → s.isLeader j = true → i = j

/-- No expiry and no failing call is needed: `resign` deletes the key before it
clears the flag, and instance 1 acquires in between. -/
theorem resign_window_two_leaders :
    ∃ s, Reach step Free (init : State (Fin 2)) s ∧ ¬ AtMostOneLeader s := by
  let acts : List (Act (Fin 2)) :=
    [.redis 0 .ok, .store 0, .stop 0, .redis 0 .ok, .redis 1 .ok, .store 1]
  have hboth : (exec step acts init).map (fun s => (s.isLeader 0, s.isLeader 1))
      = some (true, true) := rfl
  obtain ⟨s, hr, hview⟩ := reach_of_view acts _ hboth
  obtain ⟨hfirst, hsecond⟩ := Prod.mk.inj hview
  exact ⟨s, hr, fun h => absurd (h 0 1 hfirst hsecond) (by decide)⟩

/-- The instance has the flag set, or is on its way to set it, or is about to
delete the key. `resigned` is left out: there the key is already given up. -/
def EngagedAt (p : Pc) (leader : Bool) : Prop :=
  (leader = true ∧ p ≠ .resigned) ∨ p = .storeTrue ∨ p = .expire ∨ p = .del

def Engaged (s : State ι) (i : ι) : Prop := EngagedAt (s.pc i) (s.isLeader i)

/-- The lease outlives the engagement of the instance it names, and no SetNX takes
the key while a resigning instance stands between its DEL and its store. -/
def Orderly (s : State ι) : Act ι → Prop
  | .lapse => ∀ i, s.key = some i → ¬ Engaged s i
  | .redis i r => s.pc i = .idle → s.key = none → r ≠ .refused → ∀ j, s.pc j ≠ .resigned
  | _ => True

structure Inv (s : State ι) : Prop where
  engaged : ∀ i, Engaged s i → s.key = some i
  resigned : ∀ i, s.pc i = .resigned → s.key = none ∨ s.key = some i
  alone : ∀ i j, s.pc i = .resigned → s.pc j = .resigned → i = j

omit [DecidableEq ι] in
theorem inv_init : Inv (init : State ι) := by
  refine ⟨?_, ?_, ?_⟩
  · intro i h
    simp [Engaged, EngagedAt, init] at h
  · intro i h
    simp [init] at h
  · intro i j h
    simp [init] at h

variable {s : State ι}

/- One instance moves and the key stays. -/
theorem Inv.move (h : Inv s) (i : ι) (p : Pc) (b : Bool) (hp : p ≠ .resigned)
    (hk : EngagedAt p b → s.key = some i) : Inv ((s.goto i p).setLeader i b) := by
  have away : ∀ l, ((s.goto i p).setLeader i b).pc l = .resigned → s.pc l = .resigned := by
    intro l hl
    by_cases hli : l = i
    · subst hli
      exact absurd (by simpa [State.goto, State.setLeader] using hl) hp
    · simpa [State.goto, State.setLeader, hli] using hl
  refine ⟨?_, fun j hj => h.resigned j (away j hj), ?_⟩
  · intro j hj
    by_cases hji : j = i
    · subst hji
      exact hk (by simpa [Engaged, State.goto, State.setLeader] using hj)
    · exact h.engaged j (by simpa [Engaged, State.goto, State.setLeader, hji] using hj)
  · intro j k hj hk'
    exact h.alone j k (away j hj) (away k hk')

theorem goto_eq (s : State ι) (i : ι) (p : Pc) :
    s.goto i p = (s.goto i p).setLeader i (s.isLeader i) := by
  simp [State.goto, State.setLeader]

theorem Inv.goto (h : Inv s) (i : ι) (p : Pc) (hp : p ≠ .resigned)
    (hk : EngagedAt p (s.isLeader i) → s.key = some i) : Inv (s.goto i p) := by
  rw [goto_eq]
  exact h.move i p (s.isLeader i) hp hk

/- A move to a state that does not engage by itself: only the flag matters, and
   the flag already ties the key to the instance. -/
theorem Inv.goto_plain (h : Inv s) (i : ι) (p : Pc) (hi : s.pc i ≠ .resigned)
    (hp : p = .idle ∨ p = .get ∨ p = .storeFalse ∨ p = .stopped) : Inv (s.goto i p) := by
  apply h.goto i p
  · rcases hp with hp | hp | hp | hp <;> simp [hp]
  · intro he
    apply h.engaged i
    have hl : s.isLeader i = true := by
      rcases hp with hp | hp | hp | hp <;> simpa [EngagedAt, hp] using he
    exact Or.inl ⟨hl, hi⟩

omit [DecidableEq ι] in
theorem Inv.claim (h : Inv s) (i : ι) (hk : s.key = none) (hr : ∀ j, s.pc j ≠ .resigned) :
    Inv { s with key := some i } := by
  refine ⟨?_, ?_, ?_⟩
  · intro j hj
    have hj' := h.engaged j hj
    rw [hk] at hj'
    cases hj'
  · intro j hj
    exact absurd hj (hr j)
  · intro j k hj _
    exact absurd hj (hr j)

theorem setNX_inv (h : Inv s) (i : ι) (r : Reply) (hi : s.pc i = .idle)
    (hg : s.key = none → r ≠ .refused → ∀ j, s.pc j ≠ .resigned) : Inv (setNX s i r) := by
  cases hk : s.key with
  | none =>
    cases r with
    | refused => exact h
    | lost =>
      have hc := h.claim i hk (hg hk (by simp))
      simpa [setNX, claimed, hk] using hc
    | ok =>
      have hc := h.claim i hk (hg hk (by simp))
      have hm := hc.goto i .storeTrue (by simp) (fun _ => rfl)
      simpa [setNX, hk, State.goto] using hm
  | some j =>
    cases r with
    | refused => exact h
    | lost =>
      have hc : claimed s i = s.key := by simp [claimed, hk]
      simpa only [setNX, hc] using h
    | ok =>
      have hm := h.goto_plain i .get (by simp [hi]) (by simp)
      simpa [setNX, hk] using hm

theorem get_inv (h : Inv s) (i : ι) (r : Reply) (hi : s.pc i = .get) : Inv (get s i r) := by
  have hne : s.pc i ≠ .resigned := by simp [hi]
  have hidle := h.goto_plain i .idle hne (by simp)
  cases r with
  | lost => exact hidle
  | refused => exact hidle
  | ok =>
    cases hk : s.key with
    | none => simpa [get, hk] using hidle
    | some j =>
      by_cases hj : j = i
      · subst hj
        simpa [get, hk] using h.goto j .expire (by simp) (fun _ => hk)
      · simpa [get, hk, hj] using h.goto_plain i .storeFalse hne (by simp)

theorem expire_inv (h : Inv s) (i : ι) (r : Reply) (hi : s.pc i = .expire) :
    Inv (expire s i r) := by
  have hne : s.pc i ≠ .resigned := by simp [hi]
  have hfalse := h.goto_plain i .storeFalse hne (by simp)
  have hkey : s.key = some i := h.engaged i (by simp [Engaged, EngagedAt, hi])
  cases r with
  | lost => exact hfalse
  | refused => exact hfalse
  | ok => exact h.goto i .storeTrue (by simp) (fun _ => hkey)

/- The instance that deletes holds the key, so nobody else is engaged or resigned. -/
theorem del_inv (h : Inv s) (i : ι) (r : Reply) (hi : s.pc i = .del) : Inv (del s i r) := by
  have hkey : s.key = some i := h.engaged i (by simp [Engaged, EngagedAt, hi])
  have hdel : ∀ key, (key = none ∨ key = some i) →
      Inv { s.goto i .resigned with key := key } := by
    intro key hk
    have other : ∀ j, j ≠ i → s.pc j ≠ .resigned := by
      intro j hj hp
      rcases h.resigned j hp with hn | hn <;> rw [hkey] at hn
      · cases hn
      · exact hj (Option.some.inj hn).symm
    have only : ∀ j, (s.goto i .resigned).pc j = .resigned → j = i := by
      intro j hj
      by_contra hji
      exact other j hji (by simpa [State.goto, hji] using hj)
    refine ⟨?_, ?_, ?_⟩
    · intro j hj
      by_cases hji : j = i
      · subst hji
        simp [Engaged, EngagedAt, State.goto] at hj
      · have hj' : Engaged s j := by simpa [Engaged, State.goto, hji] using hj
        have := h.engaged j hj'
        rw [hkey] at this
        exact absurd (Option.some.inj this).symm hji
    · intro j hj
      rw [only j hj]
      exact hk
    · intro j k hj hk'
      rw [only j hj, only k hk']
  cases r with
  | refused => simpa [del, State.goto, hkey] using hdel (some i) (Or.inr rfl)
  | lost => exact hdel none (Or.inl rfl)
  | ok => exact hdel none (Or.inl rfl)

theorem store_inv {t : State ι} (h : Inv s) (i : ι) (hs : store s i = some t) : Inv t := by
  have hfalse : ∀ p : Pc, p = .idle ∨ p = .stopped → ¬ EngagedAt p false := by
    intro p hp
    rcases hp with hp | hp <;> simp [EngagedAt, hp]
  unfold store at hs
  split at hs
  case h_1 hp =>
    cases hs
    have hkey : s.key = some i := h.engaged i (by simp [Engaged, EngagedAt, hp])
    exact h.move i .idle true (by simp) (fun _ => hkey)
  case h_2 hp =>
    cases hs
    exact h.move i .idle false (by simp) (fun he => absurd he (hfalse _ (Or.inl rfl)))
  case h_3 hp =>
    cases hs
    exact h.move i .stopped false (by simp) (fun he => absurd he (hfalse _ (Or.inr rfl)))
  case h_4 => cases hs

theorem stop_inv {t : State ι} (h : Inv s) (i : ι) (hs : stop s i = some t) : Inv t := by
  unfold stop at hs
  split at hs
  case h_1 hp =>
    have hne : s.pc i ≠ .resigned := by simp [hp]
    cases hs
    split
    · rename_i hl
      exact h.goto i .del (by simp) (fun _ => h.engaged i (Or.inl ⟨hl, hne⟩))
    · exact h.goto_plain i .stopped hne (by simp)
  case h_2 => cases hs

theorem step_inv (s : State ι) (a : Act ι) (t : State ι) (h : Inv s) (hg : Orderly s a)
    (hs : step s a = some t) : Inv t := by
  cases a with
  | redis i r =>
    simp only [step, redis] at hs
    split at hs
    case h_1 hp => cases hs; exact setNX_inv h i r hp (hg hp)
    case h_2 hp => cases hs; exact get_inv h i r hp
    case h_3 hp => cases hs; exact expire_inv h i r hp
    case h_4 hp => cases hs; exact del_inv h i r hp
    case h_5 => cases hs
  | store i => exact store_inv h i hs
  | stop i => exact stop_inv h i hs
  | lapse =>
    cases hs
    refine ⟨?_, ?_, h.alone⟩
    · intro i hi
      exact absurd hi (hg i (h.engaged i hi))
    · intro i _
      exact Or.inl rfl

omit [DecidableEq ι] in
theorem Inv.atMostOne (h : Inv s) : AtMostOneLeader s := by
  intro i j hi hj
  by_cases pi : s.pc i = .resigned
  · by_cases pj : s.pc j = .resigned
    · exact h.alone i j pi pj
    · have hkey := h.engaged j (Or.inl ⟨hj, pj⟩)
      rcases h.resigned i pi with hn | hn <;> rw [hkey] at hn
      · cases hn
      · exact (Option.some.inj hn).symm
  · have hkey := h.engaged i (Or.inl ⟨hi, pi⟩)
    by_cases pj : s.pc j = .resigned
    · rcases h.resigned j pj with hn | hn <;> rw [hkey] at hn
      · cases hn
      · exact Option.some.inj hn
    · have hkey' := h.engaged j (Or.inl ⟨hj, pj⟩)
      rw [hkey] at hkey'
      exact Option.some.inj hkey'

theorem orderly_runs_keep_one_leader {s : State ι} (h : Reach step Orderly init s) :
    AtMostOneLeader s :=
  (h.invariant Inv inv_init step_inv).atMostOne

/- Two instances: 0 acquires and renews, 1 finds the key taken and stays out. -/
theorem orderly_renewal_keeps_one_leader :
    ∃ s, Reach step Orderly (init : State (Fin 2)) s ∧ s.isLeader 0 = true ∧
      AtMostOneLeader s := by
  let acts : List (Act (Fin 2)) := [.redis 0 .ok, .store 0, .redis 1 .ok, .redis 1 .ok, .store 1,
    .redis 0 .ok, .redis 0 .ok, .redis 0 .ok, .store 0]
  have hg : Guarded step Orderly acts init := by
    simp [acts, Guarded, Orderly, step, redis, store, setNX, get, expire, init, State.goto,
      State.setLeader, Function.update]
  have hlead : (exec step acts init).map (fun s => s.isLeader 0) = some true := rfl
  obtain ⟨s, hr, hview⟩ := reach_of_guarded_view hg _ hlead
  exact ⟨s, hr, hview, orderly_runs_keep_one_leader hr⟩

/-! ### What a resigning instance deletes -/

/-- The DEL of a `resign` removes no key that another instance wrote. -/
def DelLocal (s : State ι) : Prop :=
  ∀ i r t, s.pc i = .del → step s (.redis i r) = some t →
    ∀ j, s.key = some j → t.key = none → j = i

/-- The lease of instance 0 lapses and instance 1 acquires; 0 has not looked since, still
takes itself for the leader, and its `resign` deletes the key of 1. -/
theorem lapsed_leader_deletes_successor :
    ∃ s, Reach step Free (init : State (Fin 2)) s ∧ ¬ DelLocal s := by
  let acts : List (Act (Fin 2)) := [.redis 0 .ok, .store 0, .lapse, .redis 1 .ok, .stop 0]
  have hrun : (exec step acts init).map (fun s => (s.pc 0, s.key)) = some (.del, some 1) := rfl
  obtain ⟨s, hr, hview⟩ := reach_of_view acts _ hrun
  obtain ⟨hpc, hkey⟩ := Prod.mk.inj hview
  refine ⟨s, hr, ?_⟩
  intro hlocal
  have hstep : step s (.redis 0 .ok) = some (del s 0 .ok) := by
    simp only [step, redis, hpc]
  exact absurd (hlocal 0 .ok _ hpc hstep 1 hkey rfl) (by decide)

/-- The instance can come to the DEL of `resign` without reading the key again as
another's. At `storeFalse` it has read it so, and at `resigned` it is past the DEL. -/
def MayDelAt (p : Pc) (leader : Bool) : Prop :=
  (leader = true ∧ (p = .idle ∨ p = .get)) ∨ p = .storeTrue ∨ p = .expire ∨ p = .del

def MayDel (s : State ι) (i : ι) : Prop := MayDelAt (s.pc i) (s.isLeader i)

/-- No SetNX takes the free key while another instance may still delete it. -/
def NoTakeover (s : State ι) : Act ι → Prop
  | .redis i r => s.pc i = .idle → s.key = none → r ≠ .refused → ∀ j, j ≠ i → ¬ MayDel s j
  | _ => True

/- Leases may lapse at any time, so the key may be gone as well. -/
def Tied (s : State ι) : Prop := ∀ i, MayDel s i → s.key = none ∨ s.key = some i

omit [DecidableEq ι] in
theorem tied_init : Tied (init : State ι) := by
  intro i h
  simp [MayDel, MayDelAt, init] at h

omit [DecidableEq ι] in
theorem tied_drop (s : State ι) : Tied { s with key := none } := fun _ _ => Or.inl rfl

theorem Tied.move (h : Tied s) (i : ι) (p : Pc) (b : Bool) (hp : MayDelAt p b → MayDel s i) :
    Tied ((s.goto i p).setLeader i b) := by
  intro j hj
  by_cases hji : j = i
  · subst hji
    exact h j (hp (by simpa [MayDel, State.goto, State.setLeader] using hj))
  · exact h j (by simpa [MayDel, State.goto, State.setLeader, hji] using hj)

theorem Tied.goto (h : Tied s) (i : ι) (p : Pc) (hp : MayDelAt p (s.isLeader i) → MayDel s i) :
    Tied (s.goto i p) := by
  rw [goto_eq]
  exact h.move i p (s.isLeader i) hp

theorem Tied.claim (i : ι) (p : Pc) (hothers : ∀ j, j ≠ i → ¬ MayDel s j) :
    Tied { s.goto i p with key := some i } := by
  intro j hj
  by_cases hji : j = i
  · rw [hji]
    exact Or.inr rfl
  · exact absurd (by simpa [MayDel, State.goto, hji] using hj) (hothers j hji)

theorem setNX_tied (h : Tied s) (i : ι) (r : Reply) (hi : s.pc i = .idle)
    (hg : s.key = none → r ≠ .refused → ∀ j, j ≠ i → ¬ MayDel s j) : Tied (setNX s i r) := by
  cases hk : s.key with
  | none =>
    cases r with
    | refused => exact h
    | lost =>
      have hc := Tied.claim i .idle (hg hk (by simp))
      have hsame : s.goto i .idle = s := by simp [State.goto, ← hi]
      simpa [setNX, claimed, hk, hsame] using hc
    | ok =>
      have hc := Tied.claim i .storeTrue (hg hk (by simp))
      simpa [setNX, hk] using hc
  | some j =>
    cases r with
    | refused => exact h
    | lost =>
      have hc : claimed s i = s.key := by simp [claimed, hk]
      simpa only [setNX, hc] using h
    | ok =>
      have hm := h.goto i .get (by simp [MayDel, MayDelAt, hi])
      simpa [setNX, hk] using hm

theorem get_tied (h : Tied s) (i : ι) (r : Reply) (hi : s.pc i = .get) : Tied (get s i r) := by
  have hidle : Tied (s.goto i .idle) := h.goto i .idle (by simp [MayDel, MayDelAt, hi])
  cases r with
  | lost => exact hidle
  | refused => exact hidle
  | ok =>
    cases hk : s.key with
    | none => simpa [get, hk] using hidle
    | some j =>
      by_cases hj : j = i
      · -- the value read is the instance's own, and so is the key
        subst hj
        have hown : Tied (s.goto j .expire) := by
          intro k hk'
          by_cases hkj : k = j
          · subst hkj
            exact Or.inr hk
          · exact h k (by simpa [MayDel, State.goto, hkj] using hk')
        simpa [get, hk] using hown
      · have hfalse := h.goto i .storeFalse (by simp [MayDelAt])
        simpa [get, hk, hj] using hfalse

theorem expire_tied (h : Tied s) (i : ι) (r : Reply) (hi : s.pc i = .expire) :
    Tied (expire s i r) := by
  have hfalse : Tied (s.goto i .storeFalse) := h.goto i .storeFalse (by simp [MayDelAt])
  cases r with
  | lost => exact hfalse
  | refused => exact hfalse
  | ok => exact h.goto i .storeTrue (by simp [MayDel, MayDelAt, hi])

theorem del_tied (h : Tied s) (i : ι) (r : Reply) : Tied (del s i r) := by
  have hresigned : Tied (s.goto i .resigned) := h.goto i .resigned (by simp [MayDelAt])
  cases r with
  | refused => exact hresigned
  | lost => exact tied_drop _
  | ok => exact tied_drop _

theorem store_tied {t : State ι} (h : Tied s) (i : ι) (hs : store s i = some t) : Tied t := by
  unfold store at hs
  split at hs
  case h_1 hp =>
    cases hs
    exact h.move i .idle true (by simp [MayDel, MayDelAt, hp])
  case h_2 =>
    cases hs
    exact h.move i .idle false (by simp [MayDelAt])
  case h_3 =>
    cases hs
    exact h.move i .stopped false (by simp [MayDelAt])
  case h_4 => cases hs

theorem stop_tied {t : State ι} (h : Tied s) (i : ι) (hs : stop s i = some t) : Tied t := by
  unfold stop at hs
  split at hs
  case h_1 hp =>
    cases hs
    split
    · rename_i hl
      exact h.goto i .del (fun _ => Or.inl ⟨hl, Or.inl hp⟩)
    · exact h.goto i .stopped (by simp [MayDelAt])
  case h_2 => cases hs

theorem step_tied (s : State ι) (a : Act ι) (t : State ι) (h : Tied s) (hg : NoTakeover s a)
    (hs : step s a = some t) : Tied t := by
  cases a with
  | redis i r =>
    simp only [step, redis] at hs
    split at hs
    case h_1 hp => cases hs; exact setNX_tied h i r hp (hg hp)
    case h_2 hp => cases hs; exact get_tied h i r hp
    case h_3 hp => cases hs; exact expire_tied h i r hp
    case h_4 => cases hs; exact del_tied h i r
    case h_5 => cases hs
  | store i => exact store_tied h i hs
  | stop i => exact stop_tied h i hs
  | lapse =>
    cases hs
    exact tied_drop s

omit [DecidableEq ι] in
theorem Tied.key_of_del (h : Tied s) {i j : ι} (hi : s.pc i = .del) (hj : s.key = some j) :
    j = i := by
  rcases h i (by simp [MayDel, MayDelAt, hi]) with hn | hn
  · rw [hj] at hn
    cases hn
  · rw [hj] at hn
    exact Option.some.inj hn

/-- As long as no instance takes the free key from under one that may still delete it,
every `resign` deletes its own key or none. -/
theorem no_takeover_resigns_locally {s : State ι} (h : Reach step NoTakeover init s) :
    DelLocal s := by
  have htied : Tied s := h.invariant Tied tied_init step_tied
  intro i r t hi _ j hj _
  exact htied.key_of_del hi hj

/- The lease of 0 lapses, 0 acquires the key again, 1 stays out, and 0 resigns. -/
theorem lapsed_leader_back_resigns_locally :
    ∃ s, Reach step NoTakeover (init : State (Fin 2)) s ∧ s.pc 0 = .del ∧ s.key = some 0 ∧
      DelLocal s := by
  let acts : List (Act (Fin 2)) := [.redis 0 .ok, .store 0, .lapse, .redis 0 .ok, .store 0,
    .redis 1 .ok, .redis 1 .ok, .store 1, .stop 0]
  have hg : Guarded step NoTakeover acts init := by
    simp [acts, Guarded, NoTakeover, MayDel, MayDelAt, step, redis, store, setNX, get, init,
      State.goto, State.setLeader, Function.update]
  have hrun : (exec step acts init).map (fun s => (s.pc 0, s.key)) = some (.del, some 0) := rfl
  obtain ⟨s, hr, hview⟩ := reach_of_guarded_view hg _ hrun
  obtain ⟨hpc, hkey⟩ := Prod.mk.inj hview
  exact ⟨s, hr, hpc, hkey, no_takeover_resigns_locally hr⟩

end EdgeDispatch.ControlPlane.Leader
