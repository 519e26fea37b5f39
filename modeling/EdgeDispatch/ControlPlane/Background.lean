import Mathlib.Order.BooleanAlgebra.Basic

/-! # Background work (cmd/control-plane/main.go:151-185)

`main` starts the heartbeat, prober and task executor loops if it finds itself leader,
and a goroutine that looks at `IsLeader` every second starts them again on each
promotion. `Heartbeat` and `Prober` keep the cancel function of their last Start only. -/

namespace EdgeDispatch.ControlPlane.Background

/-- A Heartbeat or Prober: its cancel function, named by the context it cancels, and the
contexts of the loops that run. -/
structure Worker where
  cancel : Option ℕ
  loops : List ℕ
  deriving DecidableEq

/- `ctx, w.cancel = context.WithCancel(ctx)`, then a goroutine with that context. -/
def Worker.start (w : Worker) (ctx : ℕ) : Worker := ⟨some ctx, ctx :: w.loops⟩

/-- Where the process stands with IsLeader: `main` has not asked yet, the watching
goroutine has not, or it has and keeps the last answer. -/
inductive Watch where
  | booting
  | decided
  | watching (wasLeader : Bool)
  deriving DecidableEq

/- The task executor has no cancel function; `contexts` counts those made so far. -/
structure Process where
  heartbeat : Worker
  prober : Worker
  taskExecutor : List ℕ
  contexts : ℕ
  watch : Watch
  deriving DecidableEq

def boot : Process := ⟨⟨none, []⟩, ⟨none, []⟩, [], 0, .booting⟩

def startAll (p : Process) : Process :=
  { p with
    heartbeat := p.heartbeat.start p.contexts
    prober := p.prober.start (p.contexts + 1)
    taskExecutor := (p.contexts + 2) :: p.taskExecutor
    contexts := p.contexts + 3 }

/-- One answer of IsLeader. The goroutine's first is only remembered, and a demotion is
only logged. -/
def observe (p : Process) (isNow : Bool) : Process :=
  match p.watch with
  | .booting => { (if isNow then startAll p else p) with watch := .decided }
  | .decided => { p with watch := .watching isNow }
  | .watching wasLeader =>
    { (if isNow && !wasLeader then startAll p else p) with watch := .watching isNow }

/-- One loop of each kind on a leader, none on a follower. -/
def Follows (p : Process) (leader : Bool) : Prop :=
  p.heartbeat.loops.length = leader.toNat ∧ p.prober.loops.length = leader.toNat ∧
    p.taskExecutor.length = leader.toNat
instance (p : Process) (leader : Bool) : Decidable (Follows p leader) :=
  inferInstanceAs (Decidable (_ ∧ _ ∧ _))

def FollowsThroughout : Process → List Bool → Prop
  | _, [] => True
  | p, b :: rest => Follows (observe p b) b ∧ FollowsThroughout (observe p b) rest

/-! ### How many loops run -/

/- All three kinds are started together and never stopped. -/
structure Runs (p : Process) (n : ℕ) : Prop where
  heartbeat : p.heartbeat.loops.length = n
  prober : p.prober.loops.length = n
  taskExecutor : p.taskExecutor.length = n

theorem runs_boot : Runs boot 0 := ⟨rfl, rfl, rfl⟩

variable {p : Process} {n : ℕ}

theorem Runs.startAll (h : Runs p n) : Runs (startAll p) (n + 1) :=
  ⟨congrArg (· + 1) h.heartbeat, congrArg (· + 1) h.prober, congrArg (· + 1) h.taskExecutor⟩

theorem Runs.watch (h : Runs p n) (w : Watch) : Runs { p with watch := w } n :=
  ⟨h.heartbeat, h.prober, h.taskExecutor⟩

theorem Runs.follows_iff (h : Runs p n) (b : Bool) : Follows p b ↔ n = b.toNat := by
  unfold Follows
  rw [h.heartbeat, h.prober, h.taskExecutor]
  exact ⟨fun hf => hf.1, fun hn => ⟨hn, hn, hn⟩⟩

theorem observe_watching (h : Runs p n) {was : Bool} (hw : p.watch = .watching was) (b : Bool) :
    Runs (observe p b) (n + (b && !was).toNat) ∧ (observe p b).watch = .watching b := by
  unfold observe
  rw [hw]
  have hruns : Runs (if (b && !was) = true then startAll p else p) (n + (b && !was).toNat) := by
    cases (b && !was) with
    | false => exact h
    | true => exact h.startAll
  exact ⟨hruns.watch _, rfl⟩

/- A watching process with the right number of loops keeps it until it observes a loss
   of leadership: the loops it then has are not stopped. -/
theorem watching_follows_iff (obs : List Bool) (p : Process) (was : Bool)
    (hw : p.watch = .watching was) (hr : Runs p was.toNat) :
    FollowsThroughout p obs ↔ (was :: obs).Pairwise (· ≤ ·) := by
  induction obs generalizing p was with
  | nil => simp [FollowsThroughout]
  | cons b rest ih =>
    obtain ⟨hruns, hwatch⟩ := observe_watching hr hw b
    have hhead : Follows (observe p b) b ↔ was ≤ b := by
      rw [hruns.follows_iff]
      cases was <;> cases b <;> decide
    unfold FollowsThroughout
    rw [hhead]
    constructor
    · rintro ⟨hle, hrest⟩
      have hcount : was.toNat + (b && !was).toNat = b.toNat := (hruns.follows_iff b).mp (hhead.mpr hle)
      rw [hcount] at hruns
      have hpair := (ih _ b hwatch hruns).mp hrest
      refine List.pairwise_cons.mpr ⟨?_, hpair⟩
      intro c hc
      rcases List.mem_cons.mp hc with rfl | hc
      · exact hle
      · exact hle.trans (List.rel_of_pairwise_cons hpair hc)
    · intro hpair
      have hle : was ≤ b := List.rel_of_pairwise_cons hpair (List.mem_cons_self ..)
      have hcount : was.toNat + (b && !was).toNat = b.toNat := (hruns.follows_iff b).mp (hhead.mpr hle)
      rw [hcount] at hruns
      exact ⟨hle, (ih _ b hwatch hruns).mpr hpair.of_cons⟩

theorem observe_boot (b : Bool) :
    Runs (observe boot b) b.toNat ∧ (observe boot b).watch = .decided := by
  cases b with
  | false => exact ⟨runs_boot.watch _, rfl⟩
  | true => exact ⟨runs_boot.startAll.watch _, rfl⟩

/-- The loops follow leadership exactly as long as no observation of a follower comes
after one of a leader, and the first two observations agree. -/
theorem background_follows_iff (obs : List Bool) :
    FollowsThroughout boot obs ↔ obs.Pairwise (· ≤ ·) ∧ ¬ [false, true] <+: obs := by
  cases obs with
  | nil => simp [FollowsThroughout]
  | cons first rest =>
    obtain ⟨hruns, hdecided⟩ := observe_boot first
    have hfirst : Follows (observe boot first) first := (hruns.follows_iff first).mpr rfl
    cases rest with
    | nil => simp [FollowsThroughout, hfirst]
    | cons second rest =>
      -- the goroutine's first answer starts nothing
      have hsecond : observe (observe boot first) second =
          { observe boot first with watch := .watching second } := by
        rw [observe, hdecided]
      have hruns' : Runs (observe (observe boot first) second) first.toNat := by
        rw [hsecond]
        exact hruns.watch _
      have hwatch : (observe (observe boot first) second).watch = .watching second := by
        rw [hsecond]
      have hagree : Follows (observe (observe boot first) second) second ↔ first = second := by
        rw [hruns'.follows_iff]
        cases first <;> cases second <;> decide
      unfold FollowsThroughout
      unfold FollowsThroughout
      rw [hagree]
      constructor
      · rintro ⟨_, rfl, hrest⟩
        have hpair := (watching_follows_iff rest _ first hwatch hruns').mp hrest
        refine ⟨List.pairwise_cons.mpr ⟨?_, hpair⟩, ?_⟩
        · intro c hc
          rcases List.mem_cons.mp hc with rfl | hc
          · exact le_rfl
          · exact List.rel_of_pairwise_cons hpair hc
        · cases first <;> simp
      · rintro ⟨hpair, hnot⟩
        have hle : first ≤ second := List.rel_of_pairwise_cons hpair (List.mem_cons_self ..)
        have heq : first = second := by
          by_contra hne
          obtain ⟨hf, hs⟩ := Bool.lt_iff.mp (lt_of_le_of_ne hle hne)
          exact hnot ⟨rest, by rw [hf, hs]; rfl⟩
        subst heq
        exact ⟨hfirst, rfl, (watching_follows_iff rest _ first hwatch hruns').mpr hpair.of_cons⟩

/- Promoted, demoted and promoted again: a follower that runs all loops, then a leader
   that runs each of them twice. -/
theorem demoted_process_keeps_loops :
    ¬ FollowsThroughout boot [true, true, false, true] ∧
      Runs ([true, true, false].foldl observe boot) 1 ∧
      Runs ([true, true, false, true].foldl observe boot) 2 := by
  refine ⟨?_, ⟨rfl, rfl, rfl⟩, ⟨rfl, rfl, rfl⟩⟩
  intro h
  exact absurd h.2.2.1 (by decide)

end EdgeDispatch.ControlPlane.Background
