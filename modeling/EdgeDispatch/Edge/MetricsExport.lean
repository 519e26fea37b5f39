import EdgeDispatch.Lib.GoFloat64
import EdgeDispatch.Lib.Transition
import Mathlib.Data.Fintype.Basic

/-! # Counters as the edge exports them (internal/edgeagent/server.go:587-663)

A scrape loads the edge's five counters one after the other and hands what it read to
`addDeltas`, which adds what is new since the values handed over last to the exported
totals. Scrapes run concurrently: only `addDeltas` holds a lock. -/

namespace EdgeDispatch.Edge.MetricsExport
open Lib Lib.Transition

inductive Counter where
  | requests
  | cacheHits
  | cacheMisses
  | bytesSent
  | errors
  deriving DecidableEq

/- The loads of a scrape stand in the argument list of a call, from left to right. -/
def loads : List Counter := [.requests, .cacheHits, .cacheMisses, .bytesSent, .errors]

instance : Fintype Counter := ⟨⟨loads, by decide⟩, fun c => by cases c <;> decide⟩

/- One value per counter. -/
abbrev Values := Counter → ℕ

/-- The exported totals are float64 values, the values handed over last are int64. -/
structure PromMetrics where
  total : Values
  last : Values

/- The five totals are treated alike: a positive difference is added, and in any case the
value is kept for the next time. -/
def addDeltas (m : PromMetrics) (v : Values) : PromMetrics where
  total c :=
    if m.last c < v c then GoFloat64.add (m.total c) (GoFloat64.ofNat (v c - m.last c))
    else m.total c
  last := v

inductive Pc where
  | reading (todo : List Counter) (read : Values)
  | returned

/-- `given` lists what `addDeltas` was called with, the latest first. -/
structure State (ι : Type) where
  counters : Values
  prom : PromMetrics
  given : List Values
  pc : ι → Pc

/- The counters only grow. -/
inductive Act (ι : Type) where
  | count (c : Counter) (n : ℕ)
  | load (i : ι)
  | addDeltas (i : ι)

variable {ι : Type}

def start : State ι :=
  ⟨fun _ => 0, ⟨fun _ => 0, fun _ => 0⟩, [], fun _ => .reading loads fun _ => 0⟩

def step [DecidableEq ι] (s : State ι) : Act ι → Option (State ι)
  | .count c n => some { s with counters := Function.update s.counters c (s.counters c + n) }
  | .load i =>
    match s.pc i with
    | .reading (c :: rest) read =>
      let read := Function.update read c (s.counters c)
      some { s with pc := Function.update s.pc i (.reading rest read) }
    | _ => none
  | .addDeltas i =>
    match s.pc i with
    | .reading [] read =>
      some { s with
        prom := addDeltas s.prom read
        given := read :: s.given
        pc := Function.update s.pc i .returned }
    | _ => none

/- The largest value of a counter that was handed over; 0 before the first. -/
def largest (given : List Values) (c : Counter) : ℕ := (given.map (· c)).foldr max 0

/-- Values may stand still or go back, but they go up only from the largest ones. -/
def InOrder (s : State ι) : Act ι → Prop
  | .addDeltas i =>
    match s.pc i with
    | .reading [] read => ∀ c, s.prom.last c < read c → s.prom.last c = largest s.given c
    | _ => True
  | _ => True

instance (s : State ι) : ∀ a, Decidable (InOrder s a)
  | .count .. | .load _ => isTrue trivial
  | .addDeltas i => by
    unfold InOrder
    dsimp only
    split <;> infer_instance

variable {s : State ι} {read : Values}

theorem inOrder_addDeltas {i : ι} (hi : s.pc i = .reading [] read) :
    InOrder s (.addDeltas i) ↔
      ∀ c, s.prom.last c < read c → s.prom.last c = largest s.given c := by
  simp only [InOrder, hi]

/-- What is read is at most what was counted. In order, the totals are the largest values
handed over. -/
structure Exact (s : State ι) : Prop where
  read : ∀ i todo read, s.pc i = .reading todo read → ∀ c, read c ≤ s.counters c
  given : ∀ c, largest s.given c ≤ s.counters c
  last : ∀ c, s.prom.last c ≤ largest s.given c
  total : ∀ c, s.prom.total c = largest s.given c

theorem start_exact : Exact (start : State ι) where
  read := by
    intro i todo read h c
    cases h
    exact Nat.zero_le _
  given _ := Nat.le_refl _
  last _ := Nat.le_refl _
  total _ := rfl

/-! ### One counter in one call of `addDeltas`, below `2 ^ 53` -/

section Added
variable {last v m : ℕ} (hv : v < 2 ^ 53) (hlast : last ≤ m)

include hv hlast

/-- A value that goes up only from the largest one makes the total the largest. -/
theorem added_eq (hfrom : last < v → last = m) :
    (if last < v then GoFloat64.add m (GoFloat64.ofNat (v - last)) else m) = max v m := by
  by_cases hup : last < v
  · have hm : last = m := hfrom hup
    have hsum : m + (v - last) = v := by omega
    rw [if_pos hup, GoFloat64.ofNat_of_lt (by omega), GoFloat64.add, hsum,
      GoFloat64.ofNat_of_lt hv, Nat.max_eq_left (by omega)]
  · rw [if_neg hup]
    omega

/-- One that goes up from a smaller one takes the total past the largest, rounding or not. -/
theorem from_largest_of_added_le (hm : m < 2 ^ 53)
    (h : (if last < v then GoFloat64.add m (GoFloat64.ofNat (v - last)) else m) ≤ max v m)
    (hup : last < v) : last = m := by
  rw [if_pos hup, GoFloat64.ofNat_of_lt (by omega), GoFloat64.add] at h
  by_contra hne
  have hpast : max v m + 1 ≤ GoFloat64.ofNat (m + (v - last)) :=
    GoFloat64.le_ofNat (by omega) (by omega)
  omega

end Added

theorem count_exact (h : Exact s) (c : Counter) (n : ℕ) :
    Exact { s with counters := Function.update s.counters c (s.counters c + n) } := by
  have hgrow : ∀ d, s.counters d ≤ Function.update s.counters c (s.counters c + n) d := by
    intro d
    rw [Function.update_apply]
    split
    · rename_i hd
      exact hd ▸ Nat.le_add_right _ n
    · exact Nat.le_refl _
  exact { h with
    read := fun i todo read hi d => Nat.le_trans (h.read i todo read hi d) (hgrow d)
    given := fun d => Nat.le_trans (h.given d) (hgrow d) }

variable [DecidableEq ι]

/-- The moves of a scrape. -/
inductive Move (s : State ι) : Act ι → State ι → Prop
  | count (c : Counter) (n : ℕ) : Move s (.count c n)
      { s with counters := Function.update s.counters c (s.counters c + n) }
  | load (i : ι) (c : Counter) (rest : List Counter) (read : Values) :
      s.pc i = .reading (c :: rest) read → Move s (.load i) { s with
        pc := Function.update s.pc i (.reading rest (Function.update read c (s.counters c))) }
  | addDeltas (i : ι) (read : Values) : s.pc i = .reading [] read → Move s (.addDeltas i) { s with
      prom := addDeltas s.prom read
      given := read :: s.given
      pc := Function.update s.pc i .returned }

theorem step_move {t : State ι} {a : Act ι} (h : step s a = some t) : Move s a t := by
  cases a with
  | count c n =>
    cases h
    exact .count c n
  | load i =>
    unfold step at h
    dsimp only at h
    split at h
    · rename_i hi
      cases h
      exact .load i _ _ _ hi
    · cases h
  | addDeltas i =>
    unfold step at h
    dsimp only at h
    split at h
    · rename_i hi
      cases h
      exact .addDeltas i _ hi
    · cases h

theorem load_exact (h : Exact s) {i : ι} {c : Counter} {rest : List Counter}
    (hi : s.pc i = .reading (c :: rest) read) :
    Exact { s with
      pc := Function.update s.pc i (.reading rest (Function.update read c (s.counters c))) } := by
  have hread : ∀ d, Function.update read c (s.counters c) d ≤ s.counters d := by
    intro d
    rw [Function.update_apply]
    split
    · rename_i hd
      exact hd ▸ Nat.le_refl _
    · exact h.read i _ read hi d
  refine { h with read := ?_ }
  refine (Function.forall_update_iff s.pc fun _ p => ∀ todo read, p = .reading todo read →
    ∀ d, read d ≤ s.counters d).mpr ⟨fun todo read' hp => ?_, fun j _ => h.read j⟩
  cases hp
  exact hread

theorem addDeltas_exact (h : Exact s) (hsmall : ∀ c, s.counters c < 2 ^ 53) {i : ι}
    (hi : s.pc i = .reading [] read)
    (horder : ∀ c, s.prom.last c < read c → s.prom.last c = largest s.given c) :
    Exact { s with
      prom := addDeltas s.prom read
      given := read :: s.given
      pc := Function.update s.pc i .returned } where
  read := (Function.forall_update_iff s.pc fun _ p => ∀ todo read, p = .reading todo read →
    ∀ d, read d ≤ s.counters d).mpr ⟨fun _ _ hp => (nomatch hp), fun j _ => h.read j⟩
  given c := Nat.max_le.mpr ⟨h.read i [] read hi c, h.given c⟩
  last c := Nat.le_max_left ..
  total c := by
    have hv : read c < 2 ^ 53 := Nat.lt_of_le_of_lt (h.read i [] read hi c) (hsmall c)
    simp only [addDeltas, h.total c]
    exact added_eq hv (h.last c) (horder c)

/-- From exact totals, a step is one after which no total is too large just if it is in order. -/
theorem step_exact {t : State ι} {a : Act ι} (hsmall : ∀ c, t.counters c < 2 ^ 53) (h : Exact s)
    (hstep : step s a = some t) :
    ((∀ c, t.prom.total c ≤ largest t.given c) → InOrder s a) ∧ (InOrder s a → Exact t) := by
  cases step_move hstep with
  | count c n => exact ⟨fun _ => trivial, fun _ => count_exact h c n⟩
  | load i c rest read hi => exact ⟨fun _ => trivial, fun _ => load_exact h hi⟩
  | addDeltas i read hi =>
    rw [inOrder_addDeltas hi]
    refine ⟨fun hle c => ?_, addDeltas_exact h hsmall hi⟩
    have hv : read c < 2 ^ 53 := Nat.lt_of_le_of_lt (h.read i [] read hi c) (hsmall c)
    have hm : largest s.given c < 2 ^ 53 := Nat.lt_of_le_of_lt (h.given c) (hsmall c)
    have hc := hle c
    simp only [addDeltas, h.total c] at hc
    exact from_largest_of_added_le hv (h.last c) hm hc

/-- Along every interleaving of scrapes with the counting, as long as the counters stay below
`2 ^ 53`: the exported totals are at all times at most the largest values handed over by a
scrape, just if values go up only from the largest ones handed over before. -/
theorem exported_at_most_read_iff (acts : List (Act ι))
    (hrun : (exec step acts (start : State ι)).isSome = true)
    (hsmall : ∀ s ∈ visited step acts (start : State ι), ∀ c, s.counters c < 2 ^ 53) :
    (∀ s ∈ visited step acts (start : State ι), ∀ c, s.prom.total c ≤ largest s.given c) ↔
      Guarded step InOrder acts (start : State ι) := by
  obtain ⟨t, ht⟩ := Option.isSome_iff_exists.mp hrun
  exact forall_visited_iff_guarded_of ht start_exact
    (fun s h c => Nat.le_of_eq (h.total c)) hsmall fun s a t hsmall h hstep =>
      step_exact hsmall h hstep

/- All the loads of one scrape. -/
def readAll (i : ι) : List (Act ι) := loads.map fun _ => .load i

/- Two scrapes that read at once and hand over one after the other. -/
def twoScrapes : List (Act (Fin 2)) :=
  .count .requests 3 :: readAll 0 ++ .count .requests 2 :: readAll 1 ++ [.addDeltas 0, .addDeltas 1]

theorem exported_by_two_scrapes :
    (exec step twoScrapes start).isSome = true ∧
      ∀ s ∈ visited step twoScrapes start, ∀ c, s.prom.total c ≤ largest s.given c :=
  ⟨by decide +kernel,
    (exported_at_most_read_iff _ (by decide +kernel) (by decide +kernel)).mpr (by decide +kernel)⟩

/-- The second of two scrapes overtakes the first, which then sets the value back: the third
one adds the difference again, and 8 requests are exported where 5 were counted. -/
theorem overtaken_scrape_counted_twice :
    (exec step (.count .requests 2 :: readAll 0 ++ .count .requests 3 :: readAll 1 ++
        [.addDeltas 1, .addDeltas 0] ++ readAll 2 ++ [.addDeltas 2]) (start : State (Fin 3))).map
      (fun s => (s.counters .requests, largest s.given .requests, s.prom.total .requests)) =
        some (5, 5, 8) := by
  decide +kernel

end EdgeDispatch.Edge.MetricsExport
