import EdgeDispatch.ControlPlane.Scoring
import EdgeDispatch.ContentIndex.KeyLookup
import EdgeDispatch.Streaming.Strategy

/-! # A score from the maps and a score from the node (scheduler.go:145-158, 238-317)

`Resolve` asks the content index and the streaming strategy once for all nodes and scores
each node with the maps it got. `scoreKey` scores one node with no maps, so that each
lookup is made for that node. -/

namespace EdgeDispatch.ControlPlane.BatchScoring
open Lib.ByteString Lib.GoStrings Lib.MapRange
open ContentIndex.Summaries ContentIndex.KeyLookup
open Streaming ControlPlane.Scoring

/- An index with orders in which the loops over its maps can go. -/
structure Content where
  index : Index
  hotOrder : List String
  bloomOrder : List String
  hot_visits : Visits index.hotKeys hotOrder
  bloom_visits : Visits index.blooms bloomOrder

structure Streams where
  strategy : Strategy.StreamingStrategy
  nodeOrder : List String
  typeOrder : String → List Strategy.StreamType
  ranges : Strategy.Ranges strategy nodeOrder typeOrder

/- The parts of a scheduler; those that are `none` were never set. -/
structure Parts where
  cfg : Config
  content : Option Content
  tunnelMgr : Option (String → Bool)
  streams : Option Streams

/- What a call that panics would have answered is never read. -/
def Content.lookup (c : Content) : ContentIndexLookup where
  isCached nodeID key := (isCachedOrPanic c.index nodeID (lit key)).getD (false, false)
  findNodesWithKey key := (findNodesWithKey c.index c.hotOrder c.bloomOrder (lit key)).getD
    (fun _ => false, fun _ => false)

def Streams.lookup (s : Streams) : Scoring.StreamingStrategy where
  streamScore nodeID key := Strategy.streamScore s.strategy nodeID (lit key)
  findNodesWithStream streamKey :=
    Strategy.findNodesWithStream s.strategy s.nodeOrder s.typeOrder (lit streamKey)

/- The stream key is "" whenever `ok` is false. -/
def inferStream (key : String) : String :=
  match inferStreamFromChunkKey (lit key) with
  | some (streamKey, _) => text streamKey
  | none => ""

def Parts.scheduler (p : Parts) : Scheduler where
  cfg := p.cfg
  contentIndex := p.content.map Content.lookup
  tunnelMgr := p.tunnelMgr
  streamStrat := p.streams.map Streams.lookup
  inferStream := inferStream

/- What the index says of one node, `none` if it panics; nothing is asked without a key. -/
def cachedAt (p : Parts) (nodeID key : String) : Option (Bool × Bool) :=
  if key = "" then some (false, false)
  else match p.content with
    | none => some (false, false)
    | some c => isCachedOrPanic c.index nodeID (lit key)

/- What the index says of all nodes. -/
def cachedNodes (p : Parts) (key : String) : Option ((String → Bool) × (String → Bool)) :=
  if key = "" then some (fun _ => false, fun _ => false)
  else match p.content with
    | none => some (fun _ => false, fun _ => false)
    | some c => findNodesWithKey c.index c.hotOrder c.bloomOrder (lit key)

def nilMaps : Lookup := ⟨fun _ => false, fun _ => false, fun _ => false⟩

def scoreKey (p : Parts) (n : Node) (req : DispatchRequest) : Option ℚ :=
  (cachedAt p n.nodeID req.key).map fun _ => scoreKeyFast p.scheduler n req nilMaps

/- The score in `Resolve`. Once `FindNodesWithKey` has returned, `IsCached` does not panic for
   any node. -/
def resolveScore (p : Parts) (n : Node) (req : DispatchRequest) : Option ℚ :=
  (cachedNodes p req.key).map fun _ =>
    scoreKeyFast p.scheduler n req (Scoring.lookup p.scheduler req.key)

/-! ### When the two agree -/

/- Whether the key's stream is listed for the node, under any type and under the types that
   `StreamScore` counts. -/
def listed (p : Parts) (nodeID key : String) : Bool :=
  match p.streams, inferStreamFromChunkKey (lit key) with
  | some s, some (streamKey, _) => decide (s.strategy.cfg = some true) &&
      Strategy.hasStream s.strategy (s.typeOrder nodeID) nodeID streamKey
  | _, _ => false

def listedScored (p : Parts) (nodeID key : String) : Bool :=
  match p.streams, inferStreamFromChunkKey (lit key) with
  | some s, some (streamKey, _) => decide (s.strategy.cfg = some true) &&
      [Strategy.streamTypeHLS, Strategy.streamTypeDASH].any fun st =>
        decide (streamKey ∈ Strategy.streamsOf s.strategy nodeID st)
  | _, _ => false

/-- A slow node for which the index reports the key. -/
def SlowAndCached (p : Parts) (n : Node) (key : String) : Prop :=
  p.cfg.smallBandwidthEnabled = true ∧ 0 < n.capabilities.maxUplinkMbps ∧
    n.capabilities.maxUplinkMbps < p.cfg.smallBandwidthThreshold ∧
    ∃ isHot, cachedAt p n.nodeID key = some (isHot, true)

/-- The key's stream is reported for the node, but neither as HLS nor as DASH. -/
def OtherTypeOnly (p : Parts) (n : Node) (key : String) : Prop :=
  listed p n.nodeID key = true ∧ listedScored p n.nodeID key = false

instance (p : Parts) (n : Node) (key : String) : Decidable (SlowAndCached p n key) :=
  inferInstanceAs (Decidable (_ ∧ _ ∧ _ ∧ ∃ _ : Bool, _))

instance (p : Parts) (n : Node) (key : String) : Decidable (OtherTypeOnly p n key) :=
  inferInstanceAs (Decidable (_ ∧ _))

/- What the content index gives. -/
def weight (cfg : Config) (isHot likelyCached : Bool) : ℚ :=
  if isHot then cfg.hotContentAwareWeight else if likelyCached then cfg.contentAwareWeight else 0

/- What counts for a node of which this is known: the index's answer, that its stream is
   listed, and that it is slow and has the key. -/
def credit (cfg : Config) (n : Node) (req : DispatchRequest)
    (isHot likelyCached onStream slow : Bool) : ℚ :=
  (if n.region = req.region ∧ req.region ≠ "" then 30 else 0) +
  (if n.isp = req.isp ∧ req.isp ≠ "" then 20 else 0) +
  n.scores.reachableScore * (3 / 10) + n.scores.healthScore * (1 / 5) +
  weight cfg isHot likelyCached + (if onStream then 20 else 0) +
  (if cfg.smallBandwidthEnabled then
    (if 0 < n.capabilities.maxUplinkMbps then min 20 ((n.capabilities.maxUplinkMbps : ℚ) / 5)
      else 0) + (if n.capabilities.shieldMode then 20 else 0) else 0) +
  (if slow then 30 else 0)

/-- All that counts for a node. -/
def bonuses (p : Parts) (n : Node) (req : DispatchRequest) : ℚ :=
  let (isHot, likelyCached) := (cachedAt p n.nodeID req.key).getD (false, false)
  credit p.cfg n req isHot likelyCached (listed p n.nodeID req.key)
    (decide (SlowAndCached p n req.key))

/-- What counts against it. -/
def penalties (cfg : Config) (n : Node) : ℚ :=
  n.scores.riskScore / 2 + (if n.capabilities.tunnelRequired then 15 else 0) +
  (if cfg.smallBandwidthEnabled = true ∧ 0 < n.capabilities.maxUplinkMbps ∧
    (n.capabilities.maxUplinkMbps : ℚ) * (4 / 5) < n.capabilities.currentEgressMbps
    then 15 else 0)

/- The bonuses that `scoreKey` does not give. -/
def missed (p : Parts) (n : Node) (key : String) : ℚ :=
  (if SlowAndCached p n key then 30 else 0) + (if OtherTypeOnly p n key then 20 else 0)

/- The sum before a negative one is cut off. -/
def total (s : Scheduler) (n : Node) (req : DispatchRequest) (l : Lookup) : ℚ :=
  baseScore n req +
    (if req.key ≠ "" then contentScore s n req.key l + streamBonus s n req.key l else 0) +
    (if s.cfg.smallBandwidthEnabled then bandwidthScore s n l else 0)

theorem scoreKeyFast_eq (s : Scheduler) (n : Node) (req : DispatchRequest) (l : Lookup) :
    scoreKeyFast s n req l = max 0 (total s n req l) := by
  show (if total s n req l < 0 then 0 else total s n req l) = _
  split
  · rename_i h
    rw [max_eq_left h.le]
  · rename_i h
    rw [max_eq_right (not_lt.mp h)]

/-! ### The content index -/

variable {p : Parts} {key nodeID : String} {likelyCached : Bool} {n : Node} {s : Streams}
  {req : DispatchRequest}

theorem cachedNodes_eq_none :
    cachedNodes p key = none ↔ ∃ nodeID, cachedAt p nodeID key = none := by
  unfold cachedNodes cachedAt
  by_cases hkey : key = ""
  · simp [hkey]
  · cases p.content with
    | none => simp [hkey]
    | some c =>
      simp only [hkey, if_false]
      exact findNodesWithKey_eq_none c.hot_visits c.bloom_visits (lit key)

theorem cachedNodes_eq_some {hot bloom : String → Bool} (h : cachedNodes p key = some (hot, bloom))
    (nodeID : String) : ∃ isHot likelyCached,
      cachedAt p nodeID key = some (isHot, likelyCached) ∧
      (hot nodeID = true ↔ isHot = true) ∧
      (bloom nodeID = true ↔ isHot = false ∧ likelyCached = true) := by
  unfold cachedNodes at h
  unfold cachedAt
  by_cases hkey : key = ""
  · simp only [hkey, if_true, Option.some.injEq, Prod.mk.injEq] at h ⊢
    obtain ⟨rfl, rfl⟩ := h
    exact ⟨false, false, ⟨rfl, rfl⟩, by simp⟩
  · simp only [hkey, if_false] at h ⊢
    split at h
    · cases h
      exact ⟨false, false, rfl, by simp⟩
    · rename_i c hc
      exact findNodesWithKey_eq_some c.hot_visits c.bloom_visits h nodeID

/- A hot key counts as cached. -/
theorem cachedAt_of_hot (h : cachedAt p nodeID key = some (true, likelyCached)) :
    likelyCached = true := by
  unfold cachedAt at h
  split at h
  · cases h
  · split at h
    · cases h
    · rw [isCachedOrPanic_eq] at h
      obtain ⟨found, -, heq⟩ := Option.map_eq_some_iff.mp h
      have h1 := (Prod.mk.inj heq).1
      have h2 := (Prod.mk.inj heq).2
      rw [h1, Bool.true_or] at h2
      exact h2.symm

/- The maps of `Resolve` are those that were found. -/
theorem lookup_content {hot bloom : String → Bool} (h : cachedNodes p key = some (hot, bloom)) :
    (Scoring.lookup p.scheduler key).hot = hot ∧
      (Scoring.lookup p.scheduler key).bloom = bloom := by
  unfold cachedNodes at h
  unfold Scoring.lookup Parts.scheduler
  by_cases hkey : key = ""
  · simp only [hkey, if_true, Option.some.injEq, Prod.mk.injEq] at h
    obtain ⟨rfl, rfl⟩ := h
    cases p.content <;> simp [hkey]
  · cases hc : p.content with
    | none =>
      simp only [hkey, if_false, hc, Option.some.injEq, Prod.mk.injEq] at h
      obtain ⟨rfl, rfl⟩ := h
      exact ⟨rfl, rfl⟩
    | some c =>
      simp only [hkey, if_false, hc] at h
      simp [hkey, Content.lookup, h]

/-- Maps that say nothing wrong of a node change nothing: what they do not say is looked up. -/
theorem contentScore_eq {isHot : Bool} (hkey : key ≠ "")
    (hc : cachedAt p n.nodeID key = some (isHot, likelyCached)) {l : Lookup}
    (hhot : l.hot n.nodeID = true → isHot = true)
    (hbloom : l.bloom n.nodeID = true → isHot = false ∧ likelyCached = true) :
    contentScore p.scheduler n key l = weight p.cfg isHot likelyCached := by
  unfold contentScore weight
  split
  · rename_i h
    rw [hhot h]
    rfl
  · split
    · rename_i h
      rw [(hbloom h).1, (hbloom h).2]
      rfl
    · simp only [cachedAt, hkey, if_false] at hc
      cases hp : p.content with
      | none =>
        rw [hp] at hc
        cases hc
        simp [Parts.scheduler, hp]
      | some c =>
        rw [hp] at hc
        simp [Parts.scheduler, hp, Content.lookup, hc]

/-! ### The streaming strategy -/

theorem listed_iff (hs : p.streams = some s) :
    listed p nodeID key = true ↔ s.strategy.cfg = some true ∧ ∃ streamKey seqNum,
      inferStreamFromChunkKey (lit key) = some (streamKey, seqNum) ∧
      ∃ st, streamKey ∈ Strategy.streamsOf s.strategy nodeID st := by
  unfold listed
  rw [hs]
  cases hinfer : inferStreamFromChunkKey (lit key) with
  | none => simp
  | some stream =>
    obtain ⟨streamKey, seqNum⟩ := stream
    simp [Strategy.hasStream_iff s.ranges]

theorem listedScored_iff (hs : p.streams = some s) :
    listedScored p nodeID key = true ↔ Strategy.Scores s.strategy nodeID (lit key) := by
  unfold listedScored Strategy.Scores
  rw [hs]
  cases hinfer : inferStreamFromChunkKey (lit key) with
  | none => simp
  | some stream =>
    obtain ⟨streamKey, seqNum⟩ := stream
    simp

/- What `StreamScore` counts is among what `FindNodesWithStream` finds. -/
theorem listed_of_listedScored (h : listedScored p nodeID key = true) :
    listed p nodeID key = true := by
  cases hs : p.streams with
  | none => simp [listedScored, hs] at h
  | some s =>
    obtain ⟨hcfg, streamKey, seqNum, hinfer, st, -, hmem⟩ := (listedScored_iff hs).mp h
    exact (listed_iff hs).mpr ⟨hcfg, streamKey, seqNum, hinfer, st, hmem⟩

theorem streamScore_eq (hs : p.streams = some s) (nodeID key : String) :
    Strategy.streamScore s.strategy nodeID (lit key) =
      if listedScored p nodeID key then 20 else 0 := by
  split
  · rename_i h
    exact Strategy.streamScore_of_scores ((listedScored_iff hs).mp h)
  · rename_i h
    exact Strategy.streamScore_of_not_scores fun hc => h ((listedScored_iff hs).mpr hc)

theorem streamBonus_nilMaps (p : Parts) (n : Node) (key : String) :
    streamBonus p.scheduler n key nilMaps = if listedScored p n.nodeID key then 20 else 0 := by
  cases hs : p.streams with
  | none => simp [streamBonus, listedScored, nilMaps, Parts.scheduler, hs]
  | some s =>
    rw [← streamScore_eq hs]
    simp [streamBonus, nilMaps, Parts.scheduler, hs, Streams.lookup]

theorem inferStream_ne_empty {streamKey : Bytes} {seqNum : Int64}
    (h : inferStreamFromChunkKey (lit key) = some (streamKey, seqNum)) :
    key ≠ "" ∧ inferStream key ≠ "" ∧ lit (inferStream key) = streamKey := by
  have htext : inferStream key = text streamKey := by
    unfold inferStream
    rw [h]
  refine ⟨?_, ?_, ?_⟩
  · rintro rfl
    have hnone : inferStreamFromChunkKey (lit "") = none := by decide
    rw [hnone] at h
    cases h
  · intro hempty
    have hnil : streamKey = [] := by
      rw [← lit_text streamKey, ← htext, hempty]
      rfl
    exact (infer_stream h).2 hnil
  · rw [htext, lit_text]

theorem lookup_stream (hs : p.streams = some s) (nodeID key : String) :
    (Scoring.lookup p.scheduler key).stream nodeID = listed p nodeID key := by
  rw [Bool.eq_iff_iff, listed_iff hs]
  simp only [Scoring.lookup, Parts.scheduler, hs, Option.map_some, Streams.lookup]
  cases hinfer : inferStreamFromChunkKey (lit key) with
  | none =>
    have hempty : inferStream key = "" := by
      unfold inferStream
      rw [hinfer]
    simp [hempty]
  | some stream =>
    obtain ⟨streamKey, seqNum⟩ := stream
    obtain ⟨hkey, hstream, hlit⟩ := inferStream_ne_empty hinfer
    rw [if_pos ⟨hkey, hstream⟩, hlit, Strategy.findNodesWithStream_iff s.ranges]
    simp

theorem streamBonus_lookup (p : Parts) (n : Node) (key : String) :
    streamBonus p.scheduler n key (Scoring.lookup p.scheduler key) =
      if listed p n.nodeID key then 20 else 0 := by
  cases hs : p.streams with
  | none => simp [streamBonus, listed, Scoring.lookup, Parts.scheduler, hs]
  | some s =>
    rw [streamBonus, lookup_stream hs]
    split
    · rfl
    · rename_i h
      have hscored : listedScored p n.nodeID key = false := by
        by_contra hc
        exact h (listed_of_listedScored (Bool.eq_true_of_not_eq_false hc))
      have hzero := streamScore_eq hs n.nodeID key
      rw [hscored] at hzero
      simpa [Parts.scheduler, hs, Streams.lookup] using hzero

/-! ### The sums -/

theorem min_uplink (bw : ℚ) :
    (if 20 < bw * (1 / 5) then 20 else bw * (1 / 5)) = min 20 (bw / 5) := by
  rw [mul_one_div]
  split
  · rename_i h
    rw [min_eq_left h.le]
  · rename_i h
    rw [min_eq_right (not_lt.mp h)]

/-- The sum, from what the lookups answer with the maps given. -/
theorem total_eq {l : Lookup} {isHot onStream slow : Bool}
    (hcontent : req.key ≠ "" → contentScore p.scheduler n req.key l =
      weight p.cfg isHot likelyCached)
    (hstream : streamBonus p.scheduler n req.key l = if onStream then 20 else 0)
    (hnokey : req.key = "" → isHot = false ∧ likelyCached = false ∧ onStream = false)
    (hslow : slow = true ↔ p.cfg.smallBandwidthEnabled = true ∧
      0 < n.capabilities.maxUplinkMbps ∧
      n.capabilities.maxUplinkMbps < p.cfg.smallBandwidthThreshold ∧
      (l.hot n.nodeID || l.bloom n.nodeID) = true) :
    total p.scheduler n req l =
      credit p.cfg n req isHot likelyCached onStream slow - penalties p.cfg n := by
  have hkeyed : (if req.key ≠ "" then contentScore p.scheduler n req.key l +
      streamBonus p.scheduler n req.key l else 0) =
      weight p.cfg isHot likelyCached + if onStream then 20 else 0 := by
    by_cases hkey : req.key = ""
    · obtain ⟨rfl, rfl, rfl⟩ := hnokey hkey
      simp [hkey, weight]
    · rw [if_pos hkey, hcontent hkey, hstream]
  have hcfg : p.scheduler.cfg = p.cfg := rfl
  unfold total baseScore credit penalties
  rw [hkeyed, hcfg]
  cases hsmall : p.cfg.smallBandwidthEnabled with
  | false =>
    have hfast : slow = false := by
      by_contra hc
      rw [hsmall] at hslow
      exact absurd (hslow.mp (Bool.eq_true_of_not_eq_false hc)).1 (by decide)
    simp only [hfast, Bool.false_eq_true, if_false, false_and]
    ring
  | true =>
    simp only [hsmall, true_and] at hslow
    simp only [if_true, true_and, bandwidthScore, hcfg, min_uplink, hslow]
    by_cases hbw : 0 < n.capabilities.maxUplinkMbps
    · simp only [hbw, if_true, true_and]
      ring
    · simp only [hbw, if_false, false_and]
      ring

theorem not_listed_of_no_key : listed p nodeID "" = false := by
  have hnone : inferStreamFromChunkKey (lit "") = none := by decide
  unfold listed
  rw [hnone]
  cases p.streams <;> rfl

theorem total_lookup {hot bloom : String → Bool} (h : cachedNodes p req.key = some (hot, bloom)) :
    total p.scheduler n req (Scoring.lookup p.scheduler req.key) =
      bonuses p n req - penalties p.cfg n := by
  obtain ⟨isHot, likelyCached, hc, hhot, hbloom⟩ := cachedNodes_eq_some h n.nodeID
  obtain ⟨hmapHot, hmapBloom⟩ := lookup_content h
  have hcached : (hot n.nodeID || bloom n.nodeID) = true ↔ likelyCached = true := by
    rw [Bool.or_eq_true, hhot, hbloom]
    cases isHot with
    | true => simp [cachedAt_of_hot hc]
    | false => simp
  unfold bonuses
  rw [hc]
  refine total_eq (fun hkey => contentScore_eq hkey hc ?_ ?_) (streamBonus_lookup p n req.key)
    ?_ ?_
  · rw [hmapHot]
    exact hhot.mp
  · rw [hmapBloom]
    exact hbloom.mp
  · intro hkey
    rw [cachedAt, if_pos hkey] at hc
    cases hc
    rw [hkey]
    exact ⟨rfl, rfl, not_listed_of_no_key⟩
  · rw [decide_eq_true_eq, hmapHot, hmapBloom, hcached, SlowAndCached, hc]
    simp

theorem total_nilMaps (h : cachedAt p n.nodeID req.key ≠ none) :
    total p.scheduler n req nilMaps = bonuses p n req - missed p n req.key - penalties p.cfg n := by
  obtain ⟨⟨isHot, likelyCached⟩, hc⟩ := Option.ne_none_iff_exists'.mp h
  have htotal : total p.scheduler n req nilMaps =
      credit p.cfg n req isHot likelyCached (listedScored p n.nodeID req.key) false -
        penalties p.cfg n := by
    refine total_eq (fun hkey => contentScore_eq hkey hc ?_ ?_)
      (streamBonus_nilMaps p n req.key) ?_ ?_
    · exact fun hf => nomatch hf
    · exact fun hf => nomatch hf
    · intro hkey
      rw [cachedAt, if_pos hkey] at hc
      cases hc
      refine ⟨rfl, rfl, ?_⟩
      by_contra hne
      have hlisted := listed_of_listedScored (Bool.eq_true_of_not_eq_false hne)
      rw [hkey, not_listed_of_no_key] at hlisted
      cases hlisted
    · simp [nilMaps]
  rw [htotal]
  have hstream : (if listed p n.nodeID req.key then (20 : ℚ) else 0) =
      (if listedScored p n.nodeID req.key then 20 else 0) +
        if OtherTypeOnly p n req.key then 20 else 0 := by
    unfold OtherTypeOnly
    by_cases hs : listedScored p n.nodeID req.key = true
    · simp [hs, listed_of_listedScored hs]
    · simp [hs]
  simp only [bonuses, credit, missed, hc, Option.getD_some, hstream, decide_eq_true_eq,
    Bool.false_eq_true, if_false]
  ring

/-! ### The scores -/

theorem missed_eq_zero_iff :
    missed p n key = 0 ↔ ¬ SlowAndCached p n key ∧ ¬ OtherTypeOnly p n key := by
  unfold missed
  by_cases hslow : SlowAndCached p n key <;> by_cases hother : OtherTypeOnly p n key <;>
    simp [hslow, hother]
  norm_num

theorem missed_nonneg (p : Parts) (n : Node) (key : String) : 0 ≤ missed p n key := by
  unfold missed
  split <;> split <;> norm_num

/- Two sums that are cut off at zero. -/
theorem max_zero_sub_eq_iff {a d : ℚ} (hd : 0 ≤ d) :
    max 0 a = max 0 (a - d) ↔ d = 0 ∨ a ≤ 0 := by
  rcases le_or_gt a 0 with ha | ha
  · rw [max_eq_left ha, max_eq_left (by linarith)]
    simp [ha]
  · rw [max_eq_right ha.le]
    constructor
    · intro h
      rcases le_or_gt (a - d) 0 with hs | hs
      · rw [max_eq_left hs] at h
        exact absurd h ha.ne'
      · rw [max_eq_right hs.le] at h
        exact .inl (by linarith)
    · rintro (rfl | hc)
      · rw [sub_zero, max_eq_right ha.le]
      · exact absurd hc (not_le.mpr ha)

/-- The two scores of a node are the same exactly if the lookup panics at the node itself, or
it panics nowhere and the node has neither of the two bonuses that `scoreKey` leaves out, or
has so much against it that both scores are zero. -/
theorem resolveScore_eq_scoreKey_iff (p : Parts) (n : Node) (req : DispatchRequest) :
    resolveScore p n req = scoreKey p n req ↔
      cachedAt p n.nodeID req.key = none ∨
      (∀ nodeID, cachedAt p nodeID req.key ≠ none) ∧
        (¬ SlowAndCached p n req.key ∧ ¬ OtherTypeOnly p n req.key ∨
          bonuses p n req ≤ penalties p.cfg n) := by
  unfold resolveScore scoreKey
  cases hown : cachedAt p n.nodeID req.key with
  | none => simp [cachedNodes_eq_none.mpr ⟨n.nodeID, hown⟩]
  | some answer =>
    cases hall : cachedNodes p req.key with
    | none =>
      obtain ⟨nodeID, hp⟩ := cachedNodes_eq_none.mp hall
      simp only [Option.map_none, Option.map_some, reduceCtorEq, false_or, false_iff]
      exact fun h => h.1 nodeID hp
    | some maps =>
      have hnone : ∀ nodeID, cachedAt p nodeID req.key ≠ none := by
        intro nodeID hp
        rw [cachedNodes_eq_none.mpr ⟨nodeID, hp⟩] at hall
        cases hall
      simp only [Option.map_some, Option.some.injEq, reduceCtorEq, false_or]
      rw [scoreKeyFast_eq, scoreKeyFast_eq, total_lookup hall, total_nilMaps (hnone n.nodeID),
        sub_right_comm, max_zero_sub_eq_iff (missed_nonneg p n req.key), missed_eq_zero_iff,
        sub_nonpos]
      exact ⟨fun h => ⟨hnone, h⟩, fun h => h.2⟩

/- A node with an uplink of 50 Mbps that has the key among its hot keys. -/
def slowNode : Node :=
  ⟨"a", "", "", .active, [], ⟨true, 50, false, 0, false⟩, ⟨100, 100, 0⟩⟩

def hotContent : Content where
  index := run [.update "a" ⟨some [lit "live/seg_8.ts"], none, 0, 1⟩]
  hotOrder := ["a"]
  bloomOrder := []
  hot_visits := by
    refine ⟨by simp, fun nodeID => ?_⟩
    by_cases hn : nodeID = "a" <;> simp [run, apply, update, newContentIndex, hn]
  bloom_visits := visits_empty

/- One report of the stream, under a type of its own. -/
def otherStream : Streams where
  strategy := Strategy.run (some true) [.reportStream "a" (lit "live") "flv"]
  nodeOrder := ["a"]
  typeOrder _ := ["flv"]
  ranges := by
    have hnode (nodeID : String) :
        (Strategy.run (some true) [.reportStream "a" (lit "live") "flv"]).nodeStreams nodeID =
          if nodeID = "a" then
            some (Function.update (fun _ => none) "flv" (some [lit "live"])) else none := by
      by_cases hn : nodeID = "a" <;> simp [Strategy.run, Strategy.apply, Strategy.reportStream,
        Strategy.newStreamingStrategy, Strategy.streamsOf, hn]
    refine ⟨⟨by simp, fun nodeID => ?_⟩, fun nodeID types h => ⟨by simp, fun st => ?_⟩⟩
    · rw [hnode]
      by_cases hn : nodeID = "a" <;> simp [hn]
    · simp only [hnode, Option.ite_none_right_eq_some, Option.some.injEq] at h
      rw [← h.2]
      by_cases hst : st = "flv" <;> simp [hst]

def chunkRequest : DispatchRequest := ⟨"", "", "live/seg_8.ts"⟩

def dispatchConfig : Config := ⟨3, true, 100, 40, 20, true, ""⟩

theorem scoreKey_leaves_bonuses_out :
    resolveScore ⟨dispatchConfig, some hotContent, none, none⟩ slowNode chunkRequest = some 130 ∧
      scoreKey ⟨dispatchConfig, some hotContent, none, none⟩ slowNode chunkRequest = some 100 ∧
    resolveScore ⟨dispatchConfig, none, none, some otherStream⟩ slowNode chunkRequest = some 80 ∧
      scoreKey ⟨dispatchConfig, none, none, some otherStream⟩ slowNode chunkRequest = some 60 := by
  decide +kernel

end EdgeDispatch.ControlPlane.BatchScoring
