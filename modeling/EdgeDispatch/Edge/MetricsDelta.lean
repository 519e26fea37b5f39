import EdgeDispatch.Lib.Transition
import Mathlib.Algebra.BigOperators.Group.List.Basic
import Mathlib.Algebra.Order.Ring.Int

/-! # The traffic of one heartbeat (internal/edgeagent/server.go:693-711)

Requests add to three atomic counters. `GetMetricsDelta` loads them one after the other under
a mutex, and returns what has come since the last call. The wrap at 2^63 is left out. -/

namespace EdgeDispatch.Edge.MetricsDelta
open Lib.Transition

inductive Counter where
  | requests
  | bytesSent
  | errors
  deriving DecidableEq

abbrev Snapshot := Counter → ℤ

inductive Pc where
  | idle
  | loading (current : Snapshot) (rest : List Counter)
  | returned (delta : Snapshot)

/-- `returned` are the results of all calls so far. -/
structure State (ι : Type) where
  metrics : Snapshot
  snapshotMu : Option ι
  lastSnapshot : Snapshot
  pc : ι → Pc
  returned : List Snapshot

inductive Act (ι : Type) where
  | add (c : Counter) (n : ℕ)
  | lock (i : ι)
  | load (i : ι)
  | unlock (i : ι)

variable {ι : Type} [DecidableEq ι]

def start : State ι := ⟨0, none, 0, fun _ => .idle, []⟩

def step (s : State ι) : Act ι → Option (State ι)
  | .add c n => some { s with metrics := Function.update s.metrics c (s.metrics c + n) }
  | .lock i =>
    match s.snapshotMu, s.pc i with
    | none, .idle => some { s with
        snapshotMu := some i
        pc := Function.update s.pc i (.loading 0 [.requests, .bytesSent, .errors]) }
    | _, _ => none
  | .load i =>
    match s.pc i with
    | .loading current (c :: rest) => some { s with
        pc := Function.update s.pc i
          (.loading (Function.update current c (s.metrics c)) rest) }
    | _ => none
  | .unlock i =>
    match s.pc i with
    | .loading current [] => some { s with
        snapshotMu := none, lastSnapshot := current
        returned := s.returned ++ [current - s.lastSnapshot]
        pc := Function.update s.pc i (.returned (current - s.lastSnapshot)) }
    | _ => none

/-- Only the holder of the mutex loads, and what it has loaded is between the last snapshot
and the counters. -/
structure Inv (s : State ι) : Prop where
  counted : ∀ c, s.lastSnapshot c ≤ s.metrics c
  holder : ∀ i current rest, s.pc i = .loading current rest → s.snapshotMu = some i ∧
    ∀ c, c ∉ rest → s.lastSnapshot c ≤ current c ∧ current c ≤ s.metrics c
  total : s.returned.sum = s.lastSnapshot
  nonneg : ∀ d ∈ s.returned, ∀ c, 0 ≤ d c

theorem loading_update {pc : ι → Pc} {i j : ι} {p : Pc} {current : Snapshot} {rest : List Counter}
    (h : Function.update pc i p j = .loading current rest) :
    (j = i ∧ p = .loading current rest) ∨ (j ≠ i ∧ pc j = .loading current rest) := by
  rw [Function.update_apply] at h
  split at h
  · exact .inl ⟨‹_›, h⟩
  · exact .inr ⟨‹_›, h⟩

theorem Inv.step {s t : State ι} {a : Act ι} (h : Inv s) (hstep : MetricsDelta.step s a = some t) :
    Inv t := by
  cases a with
  | add c n =>
    cases hstep
    have hle : ∀ c', s.metrics c' ≤ Function.update s.metrics c (s.metrics c + n) c' := by
      intro c'
      rw [Function.update_apply]
      split
      · rw [‹c' = c›]
        omega
      · exact le_rfl
    refine ⟨fun c' => (h.counted c').trans (hle c'), fun i current rest hi => ?_, h.total, h.nonneg⟩
    obtain ⟨hmu, hbetween⟩ := h.holder i current rest hi
    exact ⟨hmu, fun c' hc' => ⟨(hbetween c' hc').1, (hbetween c' hc').2.trans (hle c')⟩⟩
  | lock i =>
    simp only [MetricsDelta.step] at hstep
    split at hstep
    · rename_i hmu hi
      cases hstep
      refine ⟨h.counted, fun j current rest hj => ?_, h.total, h.nonneg⟩
      obtain ⟨rfl, hp⟩ | ⟨-, hj⟩ := loading_update hj
      · cases hp
        exact ⟨rfl, fun c hc => by cases c <;> simp at hc⟩
      · cases hmu.symm.trans (h.holder j current rest hj).1
    · cases hstep
  | load i =>
    simp only [MetricsDelta.step] at hstep
    split at hstep
    · rename_i current c rest hi
      cases hstep
      refine ⟨h.counted, fun j current' rest' hj => ?_, h.total, h.nonneg⟩
      obtain ⟨rfl, hp⟩ | ⟨-, hj⟩ := loading_update hj
      · cases hp
        obtain ⟨hmu, hbetween⟩ := h.holder j current _ hi
        refine ⟨hmu, fun c' hc' => ?_⟩
        rw [Function.update_apply]
        split
        · rw [‹c' = c›]
          exact ⟨h.counted c, le_rfl⟩
        · exact hbetween c' (List.not_mem_cons_of_ne_of_not_mem ‹_› hc')
      · exact h.holder j current' rest' hj
    · cases hstep
  | unlock i =>
    simp only [MetricsDelta.step] at hstep
    split at hstep
    · rename_i current hi
      cases hstep
      obtain ⟨hmu, hbetween⟩ := h.holder i current _ hi
      refine ⟨fun c => (hbetween c List.not_mem_nil).2, fun j current' rest' hj => ?_, ?_, ?_⟩
      · obtain ⟨rfl, hp⟩ | ⟨hji, hj⟩ := loading_update hj
        · cases hp
        · cases hmu.symm.trans (h.holder j current' rest' hj).1
          exact absurd rfl hji
      · simp [h.total]
      · intro d hd c
        cases List.mem_append.mp hd with
        | inl hold => exact h.nonneg d hold c
        | inr hnew =>
          rw [List.mem_singleton.mp hnew]
          exact Int.sub_nonneg.mpr (hbetween c List.not_mem_nil).1
    · cases hstep

/-- However calls and requests are interleaved, no call returns a negative number, and all of
them together return no more than was counted; a call that nothing comes between brings what
was returned up to the counters, so what one call misses the next has. -/
theorem deltas_conserve {s : State ι} (h : Reach step Free start s) :
    (∀ d ∈ s.returned, ∀ c, 0 ≤ d c) ∧ (∀ c, s.returned.sum c ≤ s.metrics c) ∧
    ∀ i t, exec step [.lock i, .load i, .load i, .load i, .unlock i] s = some t →
      t.returned.sum = t.metrics := by
  have hstart : Inv (start : State ι) := by
    refine ⟨fun _ => le_rfl, fun i current rest hi => ?_, rfl, fun d hd => ?_⟩
    · cases hi
    · cases hd
  have hInv := h.invariant Inv hstart fun _ _ _ hs _ hstep => hs.step hstep
  refine ⟨hInv.nonneg, fun c => ?_, fun i t hrun => ?_⟩
  · rw [hInv.total]
    exact hInv.counted c
  · cases hmu : s.snapshotMu <;> cases hi : s.pc i <;>
      simp [exec, MetricsDelta.step, hmu, hi] at hrun
    subst hrun
    funext c
    cases c <;> simp [hInv.total]

/- The second request comes too late for the first load. -/
def lateRequest : List (Act (Fin 2)) :=
  [.add .requests 1, .lock 0, .load 0, .add .requests 1, .load 0, .load 0, .unlock 0]

theorem deltas_conserve_of_late_request : ∃ s : State (Fin 2), Reach step Free start s ∧
    s.metrics .requests = 2 ∧ s.returned.sum .requests ≤ 2 := by
  have hrun : ∃ s : State (Fin 2), Reach step Free start s ∧ s.metrics .requests = 2 :=
    reach_of_view lateRequest (fun s : State (Fin 2) => s.metrics .requests) rfl
  obtain ⟨s, hs, hcount⟩ := hrun
  exact ⟨s, hs, hcount, hcount ▸ (deltas_conserve hs).2.1 .requests⟩

end EdgeDispatch.Edge.MetricsDelta
