import EdgeDispatch.Lib.BinaryHeap
import Mathlib.Data.Rat.Floor

/-! # Scheduling (internal/controlplane/scheduler.go)

The functions `Resolve` is made of, each on its own: eligibility, the small-bandwidth
rule, scores over exact rationals, the bounded heap and the candidate list. How
concurrent calls share the filter's buffers is in `ResolveRuns`. -/

namespace EdgeDispatch.ControlPlane.Scoring
open Lib

inductive NodeStatus where
  | registered
  | active
  | degraded
  | quarantined
  | offline
  | disabled
  | maintenance
  deriving DecidableEq

structure Endpoint where
  scheme : String
  host : String
  port : ℤ
  deriving DecidableEq

/- `net.JoinHostPort` puts a host with a colon into brackets. -/
def joinHostPort (host : String) (port : ℤ) : String :=
  if host.toList.contains ':' then "[" ++ host ++ "]:" ++ toString port
  else host ++ ":" ++ toString port

def Endpoint.url (e : Endpoint) : String :=
  let s := if 0 < e.port then joinHostPort e.host e.port else e.host
  if e.scheme ≠ "" then e.scheme ++ "://" ++ s else s

structure Capabilities where
  inboundReachable : Bool
  maxUplinkMbps : ℤ
  tunnelRequired : Bool
  currentEgressMbps : ℚ
  shieldMode : Bool
  deriving DecidableEq

structure NodeScores where
  reachableScore : ℚ
  healthScore : ℚ
  riskScore : ℚ
  deriving DecidableEq

structure Node where
  nodeID : String
  region : String
  isp : String
  status : NodeStatus
  endpoints : List Endpoint
  capabilities : Capabilities
  scores : NodeScores
  deriving DecidableEq

structure Config where
  maxCandidates : ℤ
  smallBandwidthEnabled : Bool
  smallBandwidthThreshold : ℤ
  hotContentAwareWeight : ℚ
  contentAwareWeight : ℚ
  degradeToOrigin : Bool
  originURL : String

structure ContentIndexLookup where
  isCached : String → String → Bool × Bool
  findNodesWithKey : String → (String → Bool) × (String → Bool)

structure StreamingStrategy where
  streamScore : String → String → ℚ
  findNodesWithStream : String → String → Bool

/-- The optional parts are those that may be nil; `inferStream` is the stream key that
`InferStreamFromChunkKey` finds, "" if none. -/
structure Scheduler where
  cfg : Config
  contentIndex : Option ContentIndexLookup
  tunnelMgr : Option (String → Bool)
  streamStrat : Option StreamingStrategy
  inferStream : String → String

structure DispatchRequest where
  region : String
  isp : String
  key : String

structure ScoredNode where
  node : Node
  score : ℚ
  endpoint : String

structure Candidate where
  id : String
  endpoint : String
  weight : ℤ
  region : String
  isp : String
  proxyMode : String
  deriving DecidableEq

/-- The body of the loop in `filter`. -/
def eligible (s : Scheduler) (n : Node) : Bool :=
  if n.status = .disabled ∨ n.status = .maintenance then false
  else if n.capabilities.inboundReachable then decide (10 ≤ n.scores.reachableScore)
  else if n.capabilities.tunnelRequired then
    match s.tunnelMgr with
    | some isConnected => isConnected n.nodeID
    | none => false
  else false

/-- The body of the loop in `filterForSmallBandwidth`. -/
def keepSmall (s : Scheduler) (key : String) (n : Node) : Bool :=
  if 0 < n.capabilities.maxUplinkMbps ∧
      n.capabilities.maxUplinkMbps < s.cfg.smallBandwidthThreshold then
    match s.contentIndex with
    | none => true
    | some ix =>
      if key = "" then true
      else
        let (isHot, likelyCached) := ix.isCached n.nodeID key
        if isHot || likelyCached then true
        else decide (0 < (n.capabilities.maxUplinkMbps : ℚ) ∧
          n.capabilities.currentEgressMbps / n.capabilities.maxUplinkMbps < 1 / 2)
  else true

/- The three maps of `Resolve`; a nil map holds nothing. -/
structure Lookup where
  hot : String → Bool
  bloom : String → Bool
  stream : String → Bool

def lookup (s : Scheduler) (key : String) : Lookup :=
  let content := match s.contentIndex with
    | some ix => if key ≠ "" then ix.findNodesWithKey key else (fun _ => false, fun _ => false)
    | none => (fun _ => false, fun _ => false)
  let stream := match s.streamStrat with
    | some ss => if key ≠ "" ∧ s.inferStream key ≠ "" then
        ss.findNodesWithStream (s.inferStream key) else fun _ => false
    | none => fun _ => false
  ⟨content.1, content.2, stream⟩

def baseScore (n : Node) (req : DispatchRequest) : ℚ :=
  (if n.region = req.region ∧ req.region ≠ "" then 30 else 0) +
  (if n.isp = req.isp ∧ req.isp ≠ "" then 20 else 0) +
  (n.scores.reachableScore * (3 / 10) + n.scores.healthScore * (1 / 5) -
    n.scores.riskScore * (1 / 2)) -
  (if n.capabilities.tunnelRequired then 15 else 0)

def contentScore (s : Scheduler) (n : Node) (key : String) (l : Lookup) : ℚ :=
  if l.hot n.nodeID then s.cfg.hotContentAwareWeight
  else if l.bloom n.nodeID then s.cfg.contentAwareWeight
  else match s.contentIndex with
    | none => 0
    | some ix =>
      let (isHot, likelyCached) := ix.isCached n.nodeID key
      if isHot then s.cfg.hotContentAwareWeight
      else if likelyCached then s.cfg.contentAwareWeight else 0

def streamBonus (s : Scheduler) (n : Node) (key : String) (l : Lookup) : ℚ :=
  if l.stream n.nodeID then 20
  else match s.streamStrat with
    | none => 0
    | some ss => ss.streamScore n.nodeID key

def bandwidthScore (s : Scheduler) (n : Node) (l : Lookup) : ℚ :=
  let bw := n.capabilities.maxUplinkMbps
  (if 0 < bw then
    (if 20 < (bw : ℚ) * (1 / 5) then 20 else (bw : ℚ) * (1 / 5)) -
    (if (bw : ℚ) * (4 / 5) < n.capabilities.currentEgressMbps then 15 else 0) +
    (if bw < s.cfg.smallBandwidthThreshold ∧ (l.hot n.nodeID || l.bloom n.nodeID) = true
      then 30 else 0)
  else 0) +
  (if n.capabilities.shieldMode then 20 else 0)

def scoreKeyFast (s : Scheduler) (n : Node) (req : DispatchRequest) (l : Lookup) : ℚ :=
  let score := baseScore n req +
    (if req.key ≠ "" then contentScore s n req.key l + streamBonus s n req.key l else 0) +
    (if s.cfg.smallBandwidthEnabled then bandwidthScore s n l else 0)
  if score < 0 then 0 else score

/- The endpoint of a node as `Resolve` fills it in. -/
def nodeEndpoint (n : Node) : String :=
  match n.capabilities.inboundReachable, n.endpoints with
  | true, e :: _ => e.url
  | _, _ => ""

def scored (s : Scheduler) (req : DispatchRequest) (n : Node) : ScoredNode :=
  ⟨n, scoreKeyFast s n req (lookup s req.key), nodeEndpoint n⟩

def lower (a b : ScoredNode) : Bool := decide (a.score < b.score)

/- `scoredHeap.push` for elements of any kind: at most `max` are kept, the lowest on top. -/
def boundedPush {α : Type} (less : α → α → Bool) (max : ℤ) (h : List α) (x : α) : List α :=
  if 0 < max ∧ (h.length : ℤ) < max then BinaryHeap.push less h x
  else if 0 < max then
    match h with
    | top :: _ => if less top x then BinaryHeap.fix less (h.set 0 x) 0 else h
    | [] => h
  else h

def heapPush : ℤ → List ScoredNode → ScoredNode → List ScoredNode := boundedPush lower

/- The body of the last loop of `Resolve`. -/
def candidateOf (sn : ScoredNode) : Candidate :=
  { id := sn.node.nodeID
    endpoint := sn.endpoint
    weight := sn.score.floor
    region := sn.node.region
    isp := sn.node.isp
    proxyMode := if sn.node.capabilities.tunnelRequired then "tunnel" else "direct" }

/- `sorted` pops the heap, lowest first; the candidates are its reverse. -/
def candidates (h : List ScoredNode) : List Candidate :=
  (BinaryHeap.drain lower h.length h).reverse.map candidateOf

def noOriginFallback (s : Scheduler) : List Candidate :=
  if s.cfg.degradeToOrigin = false then []
  else [⟨"origin", if s.cfg.originURL = "" then "http://localhost:7070" else s.cfg.originURL, 1,
    "", "", ""⟩]

/-! ### The heap keeps the best -/

/-- Of the nodes `xs` pushed so far `h` holds at most `max`; none of the others, `rest`,
scores higher than one in `h`. -/
structure Best (max : ℤ) (xs h rest : List ScoredNode) : Prop where
  perm : (h ++ rest).Perm xs
  bound : (h.length : ℤ) ≤ max
  full : rest ≠ [] → (h.length : ℤ) = max
  le : ∀ e ∈ rest, ∀ a ∈ h, e.score ≤ a.score
  ordered : BinaryHeap.Ordered ScoredNode.score h.length h

variable {max : ℤ} {h : List ScoredNode} {f : Node → ScoredNode} {sn : ScoredNode}

theorem Best.top_le {xs rest tail : List ScoredNode} {top : ScoredNode}
    (h : Best max xs (top :: tail) rest) {a : ScoredNode} (ha : a ∈ top :: tail) :
    top.score ≤ a.score := by
  obtain ⟨c, hc⟩ := List.mem_iff_getElem?.mp ha
  have hlt : c < (top :: tail).length := (List.getElem?_eq_some_iff.mp hc).1
  exact h.ordered.root_le le_rfl c hlt top a rfl hc

theorem Best.add {xs rest : List ScoredNode} (hb : Best max xs h rest) (hlt : (h.length : ℤ) < max)
    (x : ScoredNode) : Best max (x :: xs) (BinaryHeap.push lower h x) rest := by
  have hrest : rest = [] := by
    by_contra hne
    exact absurd (hb.full hne) (ne_of_lt hlt)
  have hperm := BinaryHeap.push_perm lower h x
  refine ⟨?_, ?_, fun hne => absurd hrest hne, ?_, BinaryHeap.push_ordered hb.ordered x⟩
  · exact (hperm.append_right rest).trans (hb.perm.cons x)
  · rw [hperm.length_eq, List.length_cons]
    push_cast
    omega
  · rw [hrest]
    exact fun e he => nomatch he

theorem Best.replace {xs tail rest : List ScoredNode} {top x : ScoredNode}
    (hb : Best max xs (top :: tail) rest) (hfull : ((top :: tail).length : ℤ) = max)
    (hx : top.score < x.score) :
    Best max (x :: xs) (BinaryHeap.fix lower ((top :: tail).set 0 x) 0) (top :: rest) := by
  have hperm : (BinaryHeap.fix lower ((top :: tail).set 0 x) 0).Perm (x :: tail) :=
    BinaryHeap.fix_perm _ _ _
  have hlen : ((BinaryHeap.fix lower ((top :: tail).set 0 x) 0).length : ℤ) = max := by
    rw [hperm.length_eq]
    exact hfull
  refine ⟨?_, hlen.le, fun _ => hlen, ?_, ?_⟩
  · have hmid : (x :: (tail ++ top :: rest)).Perm (x :: (top :: tail ++ rest)) :=
      List.Perm.cons x List.perm_middle
    exact (hperm.append_right _).trans (hmid.trans (hb.perm.cons x))
  · intro e he a ha
    have htop : e.score ≤ top.score := by
      rcases List.mem_cons.mp he with rfl | he
      · exact le_rfl
      · exact hb.le e he top List.mem_cons_self
    rcases List.mem_cons.mp (hperm.mem_iff.mp ha) with rfl | ha
    · exact htop.trans hx.le
    · exact htop.trans (hb.top_le (List.mem_cons_of_mem _ ha))
  · have hord := BinaryHeap.fix_root_ordered hb.ordered x
    have heq : (BinaryHeap.fix lower ((top :: tail).set 0 x) 0).length = (top :: tail).length :=
      hperm.length_eq
    rw [heq]
    exact hord

theorem Best.drop {xs tail rest : List ScoredNode} {top x : ScoredNode}
    (hb : Best max xs (top :: tail) rest) (hfull : ((top :: tail).length : ℤ) = max)
    (hx : x.score ≤ top.score) : Best max (x :: xs) (top :: tail) (x :: rest) := by
  refine ⟨List.perm_middle.trans (hb.perm.cons x), hb.bound, fun _ => hfull, ?_, hb.ordered⟩
  intro e he a ha
  rcases List.mem_cons.mp he with rfl | he
  · exact hx.trans (hb.top_le ha)
  · exact hb.le e he a ha

theorem Best.push {xs rest : List ScoredNode} (hb : Best max xs h rest) (hmax : 0 < max)
    (x : ScoredNode) : ∃ rest', Best max (x :: xs) (heapPush max h x) rest' := by
  unfold heapPush boundedPush
  by_cases hlt : (h.length : ℤ) < max
  · rw [if_pos ⟨hmax, hlt⟩]
    exact ⟨rest, hb.add hlt x⟩
  · have hfull : (h.length : ℤ) = max := le_antisymm hb.bound (not_lt.mp hlt)
    rw [if_neg (fun hc => hlt hc.2), if_pos hmax]
    cases h with
    | nil =>
      rw [← hfull] at hmax
      exact absurd hmax (lt_irrefl _)
    | cons top tail =>
      simp only [lower, decide_eq_true_eq]
      split
      · rename_i hx
        exact ⟨top :: rest, hb.replace hfull hx⟩
      · rename_i hx
        exact ⟨x :: rest, hb.drop hfull (not_lt.mp hx)⟩

theorem best_foldl (hmax : 0 < max) (f : Node → ScoredNode) (nodes : List Node)
    {xs rest : List ScoredNode} (hb : Best max xs h rest) :
    ∃ rest', Best max (nodes.map f ++ xs)
      (nodes.foldl (fun h n => heapPush max h (f n)) h) rest' := by
  induction nodes generalizing xs h rest with
  | nil => exact ⟨rest, hb⟩
  | cons n nodes ih =>
    obtain ⟨rest₁, h₁⟩ := hb.push hmax (f n)
    obtain ⟨rest₂, h₂⟩ := ih h₁
    refine ⟨rest₂, ⟨h₂.perm.trans List.perm_middle, h₂.bound, h₂.full, h₂.le, h₂.ordered⟩⟩

theorem best_nil (hmax : 0 ≤ max) : Best max [] [] [] :=
  ⟨.refl _, hmax, fun h => absurd rfl h, fun _ he _ _ => (List.not_mem_nil he).elim,
    fun _ _ h => absurd h (Nat.not_lt_zero _)⟩

/- With no room in the heap nothing is ever pushed. -/
theorem heapPush_nil (hmax : max ≤ 0) (x : ScoredNode) : heapPush max [] x = [] := by
  unfold heapPush boundedPush
  rw [if_neg (fun h => absurd h.1 (not_lt.mpr hmax)), if_neg (not_lt.mpr hmax)]

theorem foldl_heapPush_nil (hmax : max ≤ 0) (f : Node → ScoredNode) (nodes : List Node) :
    nodes.foldl (fun h n => heapPush max h (f n)) [] = [] := by
  induction nodes with
  | nil => rfl
  | cons n nodes ih => rw [List.foldl_cons, heapPush_nil hmax, ih]

/- Every candidate is a node that was scored. -/
theorem mem_foldl_heapPush {nodes : List Node}
    (h : sn ∈ nodes.foldl (fun h n => heapPush max h (f n)) []) : ∃ n ∈ nodes, f n = sn := by
  by_cases hmax : 0 < max
  · obtain ⟨rest, hb⟩ := best_foldl hmax f nodes (best_nil hmax.le)
    have hmem := hb.perm.mem_iff.mp (List.mem_append_left rest h)
    rw [List.append_nil] at hmem
    exact List.mem_map.mp hmem
  · rw [foldl_heapPush_nil (not_lt.mp hmax)] at h
    cases h

/- The nodes that score higher than one in the heap are in the heap too. -/
theorem Best.fewer_higher {xs rest : List ScoredNode} (hb : Best max xs h rest) (hsn : sn ∈ h) :
    ((xs.filter fun x => sn.score < x.score).length : ℤ) < max := by
  have hrest : rest.filter (fun x => sn.score < x.score) = [] := by
    rw [List.filter_eq_nil_iff]
    intro x hx
    simpa using hb.le x hx sn hsn
  have hlen : (xs.filter fun x => sn.score < x.score).length =
      (h.filter fun x => sn.score < x.score).length := by
    rw [← (hb.perm.filter _).length_eq, List.filter_append, hrest, List.append_nil]
  have hlt : (h.filter fun x => sn.score < x.score).length < h.length := by
    rw [List.length_filter_lt_length_iff_exists]
    exact ⟨sn, hsn, by simp⟩
  have hbound := hb.bound
  omega

/- A node stays in the heap while only nodes come that do not score higher. -/
theorem mem_heapPush_of_le {x : ScoredNode} (hsn : sn ∈ h) (hx : x.score ≤ sn.score) :
    sn ∈ heapPush max h x := by
  unfold heapPush boundedPush
  split
  · exact (BinaryHeap.push_perm lower h x).mem_iff.mpr (List.mem_cons_of_mem x hsn)
  · split
    · cases h with
      | nil => cases hsn
      | cons top tail =>
        simp only [lower, decide_eq_true_eq]
        split
        · rename_i htop
          have hne : sn ≠ top := fun he => absurd (he ▸ hx) (not_le.mpr htop)
          have htail := (List.mem_cons.mp hsn).resolve_left hne
          exact (BinaryHeap.fix_perm lower _ 0).mem_iff.mpr (List.mem_cons_of_mem x htail)
        · exact hsn
    · exact hsn

theorem mem_foldl_heapPush_of_le (nodes : List Node) (hsn : sn ∈ h)
    (hle : ∀ n ∈ nodes, (f n).score ≤ sn.score) :
    sn ∈ nodes.foldl (fun h n => heapPush max h (f n)) h := by
  induction nodes generalizing h with
  | nil => exact hsn
  | cons n nodes ih =>
    have hn : sn ∈ heapPush max h (f n) := mem_heapPush_of_le hsn (hle n List.mem_cons_self)
    exact ih hn (fun m hm => hle m (List.mem_cons_of_mem n hm))

/-- Up to `max` nodes are all kept, whatever their scores. -/
theorem mem_foldl_heapPush_of_length {nodes : List Node} (hmax : 0 < max)
    (hlen : (nodes.length : ℤ) ≤ max) {n : Node} (hn : n ∈ nodes) :
    f n ∈ nodes.foldl (fun h n => heapPush max h (f n)) [] := by
  obtain ⟨rest, hb⟩ := best_foldl hmax f nodes (best_nil hmax.le)
  have hperm := hb.perm
  rw [List.append_nil] at hperm
  have hrest : rest = [] := by
    by_contra hne
    have hfull := hb.full hne
    have hsum := hperm.length_eq
    rw [List.length_append, List.length_map] at hsum
    have hpos := List.length_pos_iff.mpr hne
    omega
  rw [hrest, List.append_nil] at hperm
  exact hperm.mem_iff.mpr (List.mem_map_of_mem hn)

theorem candidates_ids (h : List ScoredNode) :
    ((candidates h).map Candidate.id).Perm (h.map fun sn => sn.node.nodeID) := by
  unfold candidates
  rw [List.map_map]
  have hdrain := BinaryHeap.drain_perm lower h.length h le_rfl
  exact ((List.reverse_perm _).trans hdrain).map _

/-! ### Compaction in place

`filterForSmallBandwidth` writes the nodes it keeps to the front of the slice it is
still reading. -/

/- `todo` more turns of the loop, at index `i`, with `n` nodes kept so far. -/
def compactLoop (keep : Node → Bool) : ℕ → ℕ → ℕ → List Node → List Node × ℕ
  | 0, _, n, cells => (cells, n)
  | todo + 1, i, n, cells =>
    match cells[i]? with
    | none => (cells, n)
    | some node =>
      if keep node then compactLoop keep todo (i + 1) (n + 1) (cells.set n node)
      else compactLoop keep todo (i + 1) n cells

/-- The slice is the first `len` of `cells`; the result is what is in the array after it
and the length of the slice returned. -/
def filterForSmallBandwidth (s : Scheduler) (key : String) (len : ℕ) (cells : List Node) :
    List Node × ℕ :=
  if s.cfg.smallBandwidthEnabled then compactLoop (keepSmall s key) len 0 0 cells
  else (cells, len)

/- What the loop has kept is never written over what it has still to read. -/
theorem compactLoop_spec (keep : Node → Bool) (todo i n : ℕ) (cells : List Node) (hn : n ≤ i)
    (hlen : i + todo ≤ cells.length) :
    let kept := ((cells.drop i).take todo).filter keep
    (compactLoop keep todo i n cells).2 = n + kept.length ∧
      (compactLoop keep todo i n cells).1.take (n + kept.length) = cells.take n ++ kept := by
  induction todo generalizing i n cells with
  | zero => simp [compactLoop]
  | succ todo ih =>
    have hi : i < cells.length := by omega
    have hcell : cells[i]? = some cells[i] := List.getElem?_eq_getElem hi
    have hdrop : (cells.drop i).take (todo + 1) = cells[i] :: (cells.drop (i + 1)).take todo := by
      rw [List.drop_eq_getElem_cons hi, List.take_succ_cons]
    simp only [compactLoop, hcell, hdrop]
    by_cases hk : keep cells[i] = true
    · have hset : (cells.set n cells[i]).drop (i + 1) = cells.drop (i + 1) := by
        rw [List.drop_set, if_pos (by omega)]
      have htake : (cells.set n cells[i]).take (n + 1) = cells.take n ++ [cells[i]] := by
        rw [List.take_add_one, List.take_set_of_le (le_refl n)]
        simp [List.getElem?_set_self (show n < cells.length by omega)]
      have hrec := ih (i + 1) (n + 1) (cells.set n cells[i]) (by omega)
        (by rw [List.length_set]; omega)
      simp only [hset, htake] at hrec
      simp only [hk, if_true, List.filter_cons_of_pos, List.length_cons]
      obtain ⟨hcount, hkept⟩ := hrec
      have hsum : n + (((cells.drop (i + 1)).take todo).filter keep).length.succ =
          n + 1 + (((cells.drop (i + 1)).take todo).filter keep).length := by omega
      refine ⟨hcount.trans hsum.symm, ?_⟩
      rw [hsum, hkept, List.append_assoc, List.singleton_append]
    · have hrec := ih (i + 1) n cells (by omega) (by omega)
      simpa [hk] using hrec

theorem filterForSmallBandwidth_spec (s : Scheduler) (key : String) (nodes : List Node)
    (cells : List Node) (hcells : cells.take nodes.length = nodes) :
    let kept := if s.cfg.smallBandwidthEnabled then nodes.filter (keepSmall s key) else nodes
    (filterForSmallBandwidth s key nodes.length cells).2 = kept.length ∧
      (filterForSmallBandwidth s key nodes.length cells).1.take kept.length = kept := by
  have hlen : nodes.length ≤ cells.length := by
    have hl := congrArg List.length hcells
    rw [List.length_take] at hl
    omega
  unfold filterForSmallBandwidth
  by_cases he : s.cfg.smallBandwidthEnabled = true
  · have hspec := compactLoop_spec (keepSmall s key) nodes.length 0 0 cells (le_refl 0) (by omega)
    simp only [List.drop_zero, hcells, Nat.zero_add, List.take_zero, List.nil_append] at hspec
    simpa [he] using hspec
  · simpa [he] using hcells

/- The index is asked, and has the key hot or in its filter for the node. -/
def IndexHas (s : Scheduler) (key : String) (n : Node) : Prop :=
  ∃ ix ∈ s.contentIndex, (ix.isCached n.nodeID key).1 = true ∨ (ix.isCached n.nodeID key).2 = true

/-- Which nodes stay: those without a limit or with one that is not small, all where there is no
key or no index, those that have the content, and those that use less than half their uplink. -/
def Keeps (s : Scheduler) (key : String) (n : Node) : Prop :=
  n.capabilities.maxUplinkMbps ≤ 0 ∨
    s.cfg.smallBandwidthThreshold ≤ n.capabilities.maxUplinkMbps ∨
    key = "" ∨ s.contentIndex = none ∨ IndexHas s key n ∨
    n.capabilities.currentEgressMbps < (n.capabilities.maxUplinkMbps : ℚ) / 2

instance (s : Scheduler) (key : String) (n : Node) : Decidable (IndexHas s key n) :=
  inferInstanceAs (Decidable (∃ ix ∈ s.contentIndex, _))

instance (s : Scheduler) (key : String) : DecidablePred (Keeps s key) := fun _ =>
  inferInstanceAs (Decidable (_ ∨ _ ∨ _ ∨ _ ∨ _ ∨ _))

theorem keepSmall_iff (s : Scheduler) (key : String) (n : Node) :
    keepSmall s key n = true ↔ Keeps s key n := by
  unfold keepSmall Keeps
  by_cases hsmall : 0 < n.capabilities.maxUplinkMbps ∧
      n.capabilities.maxUplinkMbps < s.cfg.smallBandwidthThreshold
  · have hcap : 0 < (n.capabilities.maxUplinkMbps : ℚ) := Int.cast_pos.mpr hsmall.1
    have hhalf : n.capabilities.currentEgressMbps / n.capabilities.maxUplinkMbps < 1 / 2 ↔
        n.capabilities.currentEgressMbps < (n.capabilities.maxUplinkMbps : ℚ) / 2 := by
      rw [div_lt_iff₀ hcap, one_div, inv_mul_eq_div]
    rw [if_pos hsmall, or_iff_right (Int.not_le.mpr hsmall.1),
      or_iff_right (Int.not_le.mpr hsmall.2)]
    cases hix : s.contentIndex with
    | none => simp
    | some ix =>
      by_cases hkey : key = ""
      · simp [hkey]
      · have hhas : IndexHas s key n ↔ (ix.isCached n.nodeID key).1 = true ∨
            (ix.isCached n.nodeID key).2 = true := by
          simp [IndexHas, hix]
        simp only [hkey, hhas, false_or, reduceCtorEq, if_false]
        split
        · rename_i hany
          exact iff_of_true rfl (Or.inl (Bool.or_eq_true_iff.mp hany))
        · rename_i hnone
          rw [or_iff_right (mt Bool.or_eq_true_iff.mpr hnone), decide_eq_true_iff,
            and_iff_right hcap, hhalf]
  · rw [if_neg hsmall]
    refine iff_of_true rfl ?_
    rcases not_and_or.mp hsmall with hnone | hlarge
    · exact Or.inl (Int.not_lt.mp hnone)
    · exact Or.inr (Or.inl (Int.not_lt.mp hlarge))

/-- The slice that is returned holds the nodes of the slice that was given for which the rule
holds, in their order; `rest` is what the array holds behind that slice. -/
theorem filterForSmallBandwidth_eq_filter (s : Scheduler)
    (henabled : s.cfg.smallBandwidthEnabled = true) (key : String) (nodes rest : List Node) :
    (filterForSmallBandwidth s key nodes.length (nodes ++ rest)).1.take
        (filterForSmallBandwidth s key nodes.length (nodes ++ rest)).2 =
      nodes.filter fun n => Keeps s key n := by
  have hcells : (nodes ++ rest).take nodes.length = nodes := List.take_left
  obtain ⟨hcount, hkept⟩ := filterForSmallBandwidth_spec s key nodes (nodes ++ rest) hcells
  rw [if_pos henabled] at hcount hkept
  have hrule : nodes.filter (keepSmall s key) = nodes.filter fun n => Keeps s key n :=
    List.filter_congr fun n _ => by rw [Bool.eq_iff_iff, keepSmall_iff, decide_eq_true_iff]
  rw [hcount, hkept, hrule]

def uplinkNode (nodeID : String) (maxUplinkMbps : ℤ) (currentEgressMbps : ℚ) : Node :=
  ⟨nodeID, "", "", .active, [], ⟨true, maxUplinkMbps, false, currentEgressMbps, false⟩,
    ⟨100, 100, 0⟩⟩

def fourUplinks : List Node :=
  [uplinkNode "a" 50 25, uplinkNode "b" 50 24, uplinkNode "c" 50 50, uplinkNode "d" 100 100]

/- An index that has every key in the filter of node c. -/
def smallUplinks : Scheduler where
  cfg := ⟨3, true, 100, 40, 20, true, ""⟩
  contentIndex :=
    some ⟨fun nodeID _ => (false, nodeID = "c"), fun _ => (fun _ => false, fun _ => false)⟩
  tunnelMgr := none
  streamStrat := none
  inferStream _ := ""

/- A busy node is left out, and so the nodes behind it move up in the array they are read from. -/
theorem filterForSmallBandwidth_of_four :
    (filterForSmallBandwidth smallUplinks "k" 4 (fourUplinks ++ [uplinkNode "e" 0 0])).1.take
        (filterForSmallBandwidth smallUplinks "k" 4 (fourUplinks ++ [uplinkNode "e" 0 0])).2 =
      fourUplinks.tail ∧
    (filterForSmallBandwidth smallUplinks "k" 4
        (fourUplinks ++ [uplinkNode "e" 0 0])).1.map Node.nodeID = ["b", "c", "d", "d", "e"] := by
  refine ⟨?_, by decide +kernel⟩
  refine (filterForSmallBandwidth_eq_filter smallUplinks rfl "k" fourUplinks
    [uplinkNode "e" 0 0]).trans ?_
  decide +kernel

end EdgeDispatch.ControlPlane.Scoring
