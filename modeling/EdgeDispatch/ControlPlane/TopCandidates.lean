import EdgeDispatch.ControlPlane.Ingress

/-! # The candidates of a dispatch (internal/controlplane/scheduler.go:26-64, 168-206)

`Resolve` pushes every filtered node on a bounded heap that keeps the lowest score on top,
pops the heap empty and returns what it popped the other way around. -/

namespace EdgeDispatch.ControlPlane.TopCandidates
open Lib Lib.ByteString
open ControlPlane.Scoring ControlPlane.Ingress

/- The heap in the order in which the candidates are returned. -/
def ranking (h : List ScoredNode) : List ScoredNode := (BinaryHeap.drain lower h.length h).reverse

theorem candidates_eq (h : List ScoredNode) : candidates h = (ranking h).map candidateOf := rfl

theorem ranking_perm (h : List ScoredNode) : (ranking h).Perm h :=
  (List.reverse_perm _).trans (BinaryHeap.drain_perm lower h.length h le_rfl)

theorem ranking_sorted {h : List ScoredNode}
    (hord : BinaryHeap.Ordered ScoredNode.score h.length h) :
    (ranking h).Pairwise fun a b => b.score ≤ a.score := by
  rw [ranking, List.pairwise_reverse]
  exact BinaryHeap.drain_sorted le_rfl hord

section
variable (sch : Scheduler) (req : DispatchRequest)

def score (n : Node) : ℚ := (scored sch req n).score

/-- `best` are the first of the filtered nodes `ds` by score, and `rest` the others. -/
structure Ranked (ds best rest : List Node) : Prop where
  perm : (best ++ rest).Perm ds
  length : (best.length : ℤ) = min sch.cfg.maxCandidates ds.length
  sorted : best.Pairwise fun a b => score sch req b ≤ score sch req a
  le : ∀ m ∈ rest, ∀ n ∈ best, score sch req m ≤ score sch req n

/- The nodes in the heap are the nodes of the filter, each with its own score. -/
theorem map_scored_node {l : List ScoredNode} {ds : List Node}
    (h : l ⊆ ds.map (scored sch req)) : (l.map ScoredNode.node).map (scored sch req) = l := by
  rw [List.map_map]
  refine (List.map_congr_left fun sn hsn => ?_).trans (List.map_id l)
  obtain ⟨n, -, rfl⟩ := List.mem_map.mp (h hsn)
  rfl

theorem exists_ranked (hmax : 0 < sch.cfg.maxCandidates) (nodes : List Node) :
    ∃ best rest, Ranked sch req (dispatchable sch req.key nodes) best rest ∧
      ranking (chosen sch nodes req) = best.map (scored sch req) := by
  obtain ⟨rest, hb⟩ := best_foldl hmax (scored sch req) (dispatchable sch req.key nodes)
    (best_nil hmax.le)
  change Best _ _ (chosen sch nodes req) rest at hb
  have hperm := hb.perm
  rw [List.append_nil] at hperm
  have hsplit : (ranking (chosen sch nodes req) ++ rest).Perm
      ((dispatchable sch req.key nodes).map (scored sch req)) :=
    ((ranking_perm _).append_right rest).trans hperm
  have hbest := map_scored_node sch req fun sn hsn =>
    hsplit.subset (List.mem_append_left rest hsn)
  have hrest := map_scored_node sch req fun sn hsn =>
    hsplit.subset (List.mem_append_right (ranking (chosen sch nodes req)) hsn)
  have hlen : (ranking (chosen sch nodes req)).length = (chosen sch nodes req).length :=
    (ranking_perm _).length_eq
  refine ⟨(ranking (chosen sch nodes req)).map ScoredNode.node, rest.map ScoredNode.node,
    ⟨?_, ?_, ?_, ?_⟩, hbest.symm⟩
  · have hnodes := hsplit.map ScoredNode.node
    rw [List.map_append, List.map_map] at hnodes
    exact hnodes.trans (List.Perm.of_eq (List.map_id _))
  · have hsum := hsplit.length_eq
    rw [List.length_append, List.length_map, hlen] at hsum
    rw [List.length_map, hlen]
    have hbound := hb.bound
    by_cases hnil : rest = []
    · rw [hnil, List.length_nil] at hsum
      omega
    · have hfull := hb.full hnil
      omega
  · have hsorted := ranking_sorted hb.ordered
    rw [← hbest, List.pairwise_map] at hsorted
    exact hsorted
  · intro m hm n hn
    have hle : ∀ e ∈ rest, ∀ a ∈ ranking (chosen sch nodes req), e.score ≤ a.score :=
      fun e he a ha => hb.le e he a ((ranking_perm _).mem_iff.mp ha)
    rw [← hbest, ← hrest] at hle
    exact hle _ (List.mem_map_of_mem hm) _ (List.mem_map_of_mem hn)

/-- With a node left after filtering, `Resolve` returns the best `MaxCandidates` of the
filtered nodes, or all of them, the best first. -/
theorem resolve_returns_top_k (token : Bytes) (nodes : List Node)
    (hmax : 1 ≤ sch.cfg.maxCandidates) (hne : dispatchable sch req.key nodes ≠ []) :
    ∃ best rest : List Node, (best ++ rest).Perm (dispatchable sch req.key nodes) ∧
      (resolve sch token nodes req).candidates =
        best.map (fun n => candidateOf (scored sch req n)) ∧
      (best.length : ℤ) = min sch.cfg.maxCandidates (dispatchable sch req.key nodes).length ∧
      (best.Pairwise fun a b => (scored sch req b).score ≤ (scored sch req a).score) ∧
      ∀ m ∈ rest, ∀ n ∈ best, (scored sch req m).score ≤ (scored sch req n).score := by
  obtain ⟨best, rest, hr, hrank⟩ := exists_ranked sch req hmax nodes
  refine ⟨best, rest, hr.perm, ?_, hr.length, hr.sorted, hr.le⟩
  rw [resolve_candidates, if_neg hne, candidates_eq, hrank, List.map_map]
  rfl

end

theorem resolve_returns_top_k_of_two :
    ∃ best rest : List Node, (best ++ rest).Perm (dispatchable ResolveRuns.plainScheduler "k"
        [ResolveRuns.publicNode "a", ResolveRuns.publicNode "b"]) ∧
      (best.length : ℤ) = min ResolveRuns.plainScheduler.cfg.maxCandidates
        (dispatchable ResolveRuns.plainScheduler "k"
          [ResolveRuns.publicNode "a", ResolveRuns.publicNode "b"]).length := by
  obtain ⟨best, rest, hperm, -, hlen, -⟩ := resolve_returns_top_k ResolveRuns.plainScheduler
    ⟨"", "", "k"⟩ [] [ResolveRuns.publicNode "a", ResolveRuns.publicNode "b"]
    (by decide) (by decide +kernel)
  exact ⟨best, rest, hperm, hlen⟩

end EdgeDispatch.ControlPlane.TopCandidates
