import EdgeDispatch.Streaming.ChunkKeys
import EdgeDispatch.Lib.MapRange

/-! # Which nodes have a stream (internal/streaming/strategy.go)

The control plane keeps, for each node and stream type, the list of streams reported for it.
A dispatch asks for one node (`StreamScore`, `HasStream`) or for all nodes at once
(`FindNodesWithStream`). -/

namespace EdgeDispatch.Streaming.Strategy
open Lib.ByteString Lib.MapRange

/- models.StreamType is a string, and these are its two constants. -/
abbrev StreamType := String

def streamTypeHLS : StreamType := "hls"
def streamTypeDASH : StreamType := "dash"

abbrev TypeMap := StreamType → Option (List Bytes)

/- `cfg` is nil or says whether streaming is enabled. -/
structure StreamingStrategy where
  nodeStreams : String → Option TypeMap
  cfg : Option Bool

def newStreamingStrategy (cfg : Option Bool) : StreamingStrategy := ⟨fun _ => none, cfg⟩

/- `nodeStreams[nodeID][st]`, nil where either map has no entry. -/
def streamsOf (ss : StreamingStrategy) (nodeID : String) (st : StreamType) : List Bytes :=
  (((ss.nodeStreams nodeID).getD fun _ => none) st).getD []

def reportStream (ss : StreamingStrategy) (nodeID : String) (streamKey : Bytes)
    (st : StreamType) : StreamingStrategy :=
  let types : TypeMap := (ss.nodeStreams nodeID).getD fun _ => none
  let streams := streamsOf ss nodeID st
  let types := if streamKey ∈ streams then types
    else Function.update types st (some (streams ++ [streamKey]))
  { ss with nodeStreams := Function.update ss.nodeStreams nodeID (some types) }

/- The first entry that is `streamKey` is cut out. -/
def removeStream (ss : StreamingStrategy) (nodeID : String) (streamKey : Bytes)
    (st : StreamType) : StreamingStrategy :=
  match ss.nodeStreams nodeID with
  | none => ss
  | some types =>
    match types st with
    | none => ss
    | some streams =>
      let types := Function.update types st (some (streams.erase streamKey))
      { ss with nodeStreams := Function.update ss.nodeStreams nodeID (some types) }

def streamScore (ss : StreamingStrategy) (nodeID : String) (key : Bytes) : ℚ :=
  if ss.cfg ≠ some true then 0
  else match inferStreamFromChunkKey key with
    | none => 0
    | some (streamKey, _) =>
      match ss.nodeStreams nodeID with
      | none => 0
      | some types =>
        if [streamTypeHLS, streamTypeDASH].any fun st => decide (streamKey ∈ (types st).getD [])
        then 20 else 0

/- The loop goes over the node's types in the order `typeOrder`. -/
def hasStream (ss : StreamingStrategy) (typeOrder : List StreamType) (nodeID : String)
    (streamKey : Bytes) : Bool :=
  match ss.nodeStreams nodeID with
  | none => false
  | some types => typeOrder.any fun st => decide (streamKey ∈ (types st).getD [])

/- The nil map of a disabled strategy holds nothing. For each node the inner loops do what
   `hasStream` does. -/
def findNodesWithStream (ss : StreamingStrategy) (nodeOrder : List String)
    (typeOrder : String → List StreamType) (streamKey : Bytes) : String → Bool :=
  if ss.cfg ≠ some true then fun _ => false
  else collect (fun nodeID => hasStream ss (typeOrder nodeID) nodeID streamKey) nodeOrder
    fun _ => false

/-! ### The two questions -/

/-- Orders in which the loops can visit the two levels of the map. -/
structure Ranges (ss : StreamingStrategy) (nodeOrder : List String)
    (typeOrder : String → List StreamType) : Prop where
  nodes : Visits ss.nodeStreams nodeOrder
  types : ∀ nodeID types, ss.nodeStreams nodeID = some types → Visits types (typeOrder nodeID)

variable {ss : StreamingStrategy} {nodeID : String} {nodeOrder : List String}
  {typeOrder : String → List StreamType} {held : Reports}

theorem streamsOf_of_some {types : TypeMap} (h : ss.nodeStreams nodeID = some types)
    (st : StreamType) : streamsOf ss nodeID st = (types st).getD [] := by
  unfold streamsOf
  rw [h, Option.getD_some]

theorem mem_streamsOf {st : StreamType} {streamKey : Bytes} (h : streamKey ∈ streamsOf ss nodeID st) :
    
    ∃ types streams, ss.nodeStreams nodeID = some types ∧ types st = some streams ∧
      streamKey ∈ streams := by
  cases hn : ss.nodeStreams nodeID with
  | none => simp [streamsOf, hn] at h
  | some types =>
    rw [streamsOf_of_some hn] at h
    cases ht : types st with
    | none => simp [ht] at h
    | some streams =>
      rw [ht] at h
      exact ⟨types, streams, rfl, ht, h⟩

/-- `HasStream` counts every type. -/
theorem hasStream_iff (hr : Ranges ss nodeOrder typeOrder) (nodeID : String) (streamKey : Bytes) :
    hasStream ss (typeOrder nodeID) nodeID streamKey = true ↔
      ∃ st, streamKey ∈ streamsOf ss nodeID st := by
  constructor
  · intro h
    unfold hasStream at h
    split at h
    · cases h
    · rename_i types hn
      obtain ⟨st, -, hst⟩ := List.any_eq_true.mp h
      exact ⟨st, by rw [streamsOf_of_some hn]; exact of_decide_eq_true hst⟩
  · rintro ⟨st, h⟩
    obtain ⟨types, streams, hn, ht, hmem⟩ := mem_streamsOf h
    have hvisited : st ∈ typeOrder nodeID := by
      rw [(hr.types nodeID types hn).mem_iff, ht]
      rfl
    simp only [hasStream, hn]
    exact List.any_eq_true.mpr ⟨st, hvisited, by simpa [ht] using hmem⟩

theorem findNodesWithStream_iff (hr : Ranges ss nodeOrder typeOrder) (streamKey : Bytes)
    (nodeID : String) :
    findNodesWithStream ss nodeOrder typeOrder streamKey nodeID = true ↔
      ss.cfg = some true ∧ ∃ st, streamKey ∈ streamsOf ss nodeID st := by
  unfold findNodesWithStream
  by_cases hcfg : ss.cfg = some true
  · rw [if_neg (not_not.mpr hcfg), collect_eq_true, hasStream_iff hr]
    refine ⟨fun h => ⟨hcfg, h.2⟩, fun h => ⟨?_, h.2⟩⟩
    obtain ⟨st, hst⟩ := h.2
    obtain ⟨types, _, hn, -⟩ := mem_streamsOf hst
    rw [hr.nodes.mem_iff, hn]
    rfl
  · simp [hcfg]

/-- `StreamScore` counts the types HLS and DASH only. -/
def Scores (ss : StreamingStrategy) (nodeID : String) (key : Bytes) : Prop :=
  ss.cfg = some true ∧ ∃ streamKey seqNum, inferStreamFromChunkKey key = some (streamKey, seqNum) ∧
    ∃ st ∈ [streamTypeHLS, streamTypeDASH], streamKey ∈ streamsOf ss nodeID st

theorem streamScore_of_scores {key : Bytes} (h : Scores ss nodeID key) :
    streamScore ss nodeID key = 20 := by
  obtain ⟨hcfg, streamKey, seqNum, hinfer, st, hst, hmem⟩ := h
  obtain ⟨types, streams, hn, ht, hmem⟩ := mem_streamsOf hmem
  simp only [streamScore, hcfg, ne_eq, not_true, if_false, hinfer, hn]
  refine if_pos (List.any_eq_true.mpr ⟨st, hst, ?_⟩)
  simpa [ht] using hmem

theorem streamScore_of_not_scores {key : Bytes} (h : ¬ Scores ss nodeID key) :
    streamScore ss nodeID key = 0 := by
  unfold streamScore
  split
  · rfl
  · rename_i hcfg
    split
    · rfl
    · rename_i streamKey seqNum hinfer
      split
      · rfl
      · rename_i types hn
        refine if_neg fun hany => h ?_
        obtain ⟨st, hst, hmem⟩ := List.any_eq_true.mp hany
        refine ⟨not_not.mp hcfg, streamKey, seqNum, hinfer, st, hst, ?_⟩
        rw [streamsOf_of_some hn]
        exact of_decide_eq_true hmem

/-! ### What the lists hold after any run

The purpose of the two calls: a set of triples, to which a report adds and from which a
removal takes away. -/

inductive Op where
  | reportStream (nodeID : String) (streamKey : Bytes) (st : StreamType)
  | removeStream (nodeID : String) (streamKey : Bytes) (st : StreamType)
  deriving DecidableEq

def apply (ss : StreamingStrategy) : Op → StreamingStrategy
  | .reportStream nodeID streamKey st => reportStream ss nodeID streamKey st
  | .removeStream nodeID streamKey st => removeStream ss nodeID streamKey st

def run (cfg : Option Bool) (ops : List Op) : StreamingStrategy :=
  ops.foldl apply (newStreamingStrategy cfg)

abbrev Reports := Set (String × StreamType × Bytes)

def Op.meaning (held : Reports) : Op → Reports
  | .reportStream nodeID streamKey st => insert (nodeID, st, streamKey) held
  | .removeStream nodeID streamKey st => held \ {(nodeID, st, streamKey)}

/-- The lists of `ss` hold the triples `held`, each once, and the maps are finite. -/
structure Holds (held : Reports) (ss : StreamingStrategy) : Prop where
  mem_iff : ∀ nodeID st streamKey,
    streamKey ∈ streamsOf ss nodeID st ↔ (nodeID, st, streamKey) ∈ held
  nodup : ∀ nodeID st, (streamsOf ss nodeID st).Nodup
  nodes : ∃ nodeOrder, Visits ss.nodeStreams nodeOrder
  types : ∀ nodeID, ∀ types ∈ ss.nodeStreams nodeID, ∃ typeOrder, Visits types typeOrder

theorem streamsOf_setNode (ss : StreamingStrategy) (nodeID : String) (types : TypeMap)
    (n : String) (t : StreamType) :
    streamsOf { ss with nodeStreams := Function.update ss.nodeStreams nodeID (some types) } n t =
      if n = nodeID then (types t).getD [] else streamsOf ss n t := by
  unfold streamsOf
  by_cases hn : n = nodeID <;> simp [hn]

theorem streamsOf_reportStream (ss : StreamingStrategy) (nodeID : String) (streamKey : Bytes)
    (st : StreamType) (n : String) (t : StreamType) :
    streamsOf (reportStream ss nodeID streamKey st) n t =
      if n = nodeID ∧ t = st ∧ streamKey ∉ streamsOf ss nodeID st
      then streamsOf ss n t ++ [streamKey] else streamsOf ss n t := by
  unfold reportStream
  simp only [streamsOf_setNode]
  by_cases hn : n = nodeID
  · subst hn
    by_cases hmem : streamKey ∈ streamsOf ss n st
    · simp only [hmem, if_true, not_true, and_false, if_false]
      rfl
    · by_cases ht : t = st
      · simp [ht, hmem]
      · simp only [hmem, if_false, ht, false_and, and_false, if_true, Function.update_of_ne ht]
        rfl
  · simp [hn]

theorem streamsOf_removeStream (ss : StreamingStrategy) (nodeID : String) (streamKey : Bytes)
    (st : StreamType) (n : String) (t : StreamType) :
    streamsOf (removeStream ss nodeID streamKey st) n t =
      if n = nodeID ∧ t = st then (streamsOf ss n t).erase streamKey else streamsOf ss n t := by
  -- where an entry is missing there is nothing to erase
  have hnil (h : streamsOf ss nodeID st = []) : streamsOf ss n t =
      if n = nodeID ∧ t = st then (streamsOf ss n t).erase streamKey else streamsOf ss n t := by
    split
    · rename_i heq
      rw [heq.1, heq.2, h, List.erase_nil]
    · rfl
  unfold removeStream
  cases hn : ss.nodeStreams nodeID with
  | none => exact hnil (by simp [streamsOf, hn])
  | some types =>
    simp only
    cases ht : types st with
    | none => exact hnil (by simp [streamsOf, hn, ht])
    | some streams =>
      simp only [streamsOf_setNode]
      by_cases heq : n = nodeID
      · subst heq
        by_cases hst : t = st
        · simp [hst, streamsOf_of_some hn, ht]
        · simp [hst, streamsOf_of_some hn]
      · simp [heq]

theorem types_setNode {m : String → Option TypeMap}
    (h : ∀ n, ∀ types ∈ m n, ∃ typeOrder, Visits types typeOrder) (nodeID : String)
    {types : TypeMap} (ht : ∃ typeOrder, Visits types typeOrder) :
    ∀ n, ∀ types' ∈ Function.update m nodeID (some types) n, ∃ typeOrder,
      Visits types' typeOrder := by
  refine (Function.forall_update_iff m fun _ o => ∀ t ∈ o, ∃ typeOrder, Visits t typeOrder).mpr
    ⟨?_, fun n _ => h n⟩
  rintro _ ⟨⟩
  exact ht

theorem Holds.reportStream (h : Holds held ss) (nodeID : String) (streamKey : Bytes)
    (st : StreamType) :
    Holds (insert (nodeID, st, streamKey) held) (reportStream ss nodeID streamKey st) := by
  refine ⟨fun n t k => ?_, fun n t => ?_, ?_, ?_⟩
  · rw [streamsOf_reportStream, Set.mem_insert_iff, ← h.mem_iff, Prod.mk.injEq, Prod.mk.injEq]
    by_cases hk : k = streamKey
    · subst hk
      grind
    · grind
  · rw [streamsOf_reportStream]
    split
    · rename_i hnew
      obtain ⟨rfl, rfl, hnew⟩ := hnew
      rw [← List.concat_eq_append]
      exact (h.nodup n t).concat hnew
    · exact h.nodup n t
  · obtain ⟨nodeOrder, hv⟩ := h.nodes
    exact hv.set nodeID _
  · have hold : ∃ typeOrder, Visits ((ss.nodeStreams nodeID).getD fun _ => none) typeOrder := by
      cases hn : ss.nodeStreams nodeID with
      | none => exact ⟨[], visits_empty⟩
      | some types => exact h.types nodeID types hn
    obtain ⟨typeOrder, hv⟩ := hold
    refine types_setNode h.types nodeID ?_
    split
    · exact ⟨typeOrder, hv⟩
    · exact hv.set st _

theorem Holds.removeStream (h : Holds held ss) (nodeID : String) (streamKey : Bytes)
    (st : StreamType) :
    Holds (held \ {(nodeID, st, streamKey)}) (removeStream ss nodeID streamKey st) := by
  refine ⟨fun n t k => ?_, fun n t => ?_, ?_, ?_⟩
  · rw [streamsOf_removeStream, Set.mem_sdiff, Set.mem_singleton_iff, ← h.mem_iff,
      Prod.mk.injEq, Prod.mk.injEq]
    split
    · rename_i heq
      rw [(h.nodup n t).mem_erase_iff]
      grind
    · grind
  · rw [streamsOf_removeStream]
    split
    · exact (h.nodup n t).erase streamKey
    · exact h.nodup n t
  · unfold Strategy.removeStream
    obtain ⟨nodeOrder, hv⟩ := h.nodes
    split
    · exact ⟨nodeOrder, hv⟩
    · split
      · exact ⟨nodeOrder, hv⟩
      · exact hv.set nodeID _
  · unfold Strategy.removeStream
    split
    · exact h.types
    · rename_i types hn
      split
      · exact h.types
      · obtain ⟨typeOrder, hv⟩ := h.types nodeID types hn
        exact types_setNode h.types nodeID (hv.set st _)

theorem holds_new (cfg : Option Bool) : Holds ∅ (newStreamingStrategy cfg) where
  mem_iff _ _ _ := by simp [streamsOf, newStreamingStrategy]
  nodup _ _ := by simp [streamsOf, newStreamingStrategy]
  nodes := ⟨[], visits_empty⟩
  types _ _ h := nomatch h

theorem Holds.foldl (h : Holds held ss) (ops : List Op) :
    Holds (ops.foldl Op.meaning held) (ops.foldl apply ss) := by
  induction ops generalizing held ss with
  | nil => exact h
  | cons op rest ih =>
    refine ih ?_
    cases op with
    | reportStream nodeID streamKey st => exact h.reportStream nodeID streamKey st
    | removeStream nodeID streamKey st => exact h.removeStream nodeID streamKey st

/-- After any run the lists hold what was reported and not removed since. -/
theorem holds_run (cfg : Option Bool) (ops : List Op) :
    Holds (ops.foldl Op.meaning ∅) (run cfg ops) :=
  (holds_new cfg).foldl ops

theorem ranges_run (cfg : Option Bool) (ops : List Op) :
    ∃ nodeOrder typeOrder, Ranges (run cfg ops) nodeOrder typeOrder := by
  have h := holds_run cfg ops
  obtain ⟨nodeOrder, hnodes⟩ := h.nodes
  have htypes : ∀ nodeID, ∃ typeOrder, ∀ types, (run cfg ops).nodeStreams nodeID = some types →
      Visits types typeOrder := by
    intro nodeID
    cases hn : (run cfg ops).nodeStreams nodeID with
    | none => exact ⟨[], fun _ hc => nomatch hc⟩
    | some types =>
      obtain ⟨typeOrder, hv⟩ := h.types nodeID types hn
      refine ⟨typeOrder, ?_⟩
      rintro _ ⟨⟩
      exact hv
  choose typeOrder hv using htypes
  exact ⟨nodeOrder, typeOrder, hnodes, hv⟩

/-! ### The last call for a node, a stream and a type -/

def Op.names (nodeID : String) (streamKey : Bytes) (st : StreamType) : Op → Bool
  | .reportStream n k t => decide (n = nodeID ∧ k = streamKey ∧ t = st)
  | .removeStream n k t => decide (n = nodeID ∧ k = streamKey ∧ t = st)

/-- The last call that names the node, the stream and the type is a report. -/
def LastReported (ops : List Op) (nodeID : String) (streamKey : Bytes) (st : StreamType) : Prop :=
  (ops.filter (Op.names nodeID streamKey st)).getLast? = some (.reportStream nodeID streamKey st)

instance (ops : List Op) (nodeID : String) (streamKey : Bytes) (st : StreamType) :
    Decidable (LastReported ops nodeID streamKey st) := inferInstanceAs (Decidable (_ = _))

section Last
variable {nodeID : String} {streamKey : Bytes} {st : StreamType}
variable {op : Op}

/- A call decides about the triple that it names. -/
theorem lastReported_of_names (ops : List Op) (h : Op.names nodeID streamKey st op = true) :
    LastReported (ops ++ [op]) nodeID streamKey st ↔ op = .reportStream nodeID streamKey st := by
  rw [LastReported, List.filter_append, List.filter_cons_of_pos h, List.filter_nil,
    List.getLast?_concat, Option.some.injEq]

/- And about no other. -/
theorem lastReported_of_not_names (ops : List Op) (h : ¬ Op.names nodeID streamKey st op = true) :
    LastReported (ops ++ [op]) nodeID streamKey st ↔ LastReported ops nodeID streamKey st := by
  rw [LastReported, List.filter_append, List.filter_cons_of_neg h, List.filter_nil,
    List.append_nil, LastReported]

theorem mem_meaning_of_names (held : Reports) (h : Op.names nodeID streamKey st op = true) :
    (nodeID, st, streamKey) ∈ op.meaning held ↔ op = .reportStream nodeID streamKey st := by
  cases op with
  | reportStream n k t =>
    obtain ⟨rfl, rfl, rfl⟩ := of_decide_eq_true h
    exact iff_of_true (Set.mem_insert _ _) rfl
  | removeStream n k t =>
    obtain ⟨rfl, rfl, rfl⟩ := of_decide_eq_true h
    exact iff_of_false (fun hmem => hmem.2 rfl) (fun heq => nomatch heq)

theorem mem_meaning_of_not_names (held : Reports) (h : ¬ Op.names nodeID streamKey st op = true) :
    (nodeID, st, streamKey) ∈ op.meaning held ↔ (nodeID, st, streamKey) ∈ held := by
  cases op with
  | reportStream n k t =>
    refine ⟨fun hmem => hmem.resolve_left ?_, Or.inr⟩
    rintro ⟨⟩
    exact h (decide_eq_true ⟨rfl, rfl, rfl⟩)
  | removeStream n k t =>
    refine ⟨fun hmem => hmem.1, fun hmem => ⟨hmem, ?_⟩⟩
    rintro ⟨⟩
    exact h (decide_eq_true ⟨rfl, rfl, rfl⟩)

/-- What is held is what was last reported. -/
theorem mem_foldl_meaning_iff (ops : List Op) :
    (nodeID, st, streamKey) ∈ ops.foldl Op.meaning ∅ ↔
      LastReported ops nodeID streamKey st := by
  induction ops using List.reverseRecOn with
  | nil => exact iff_of_false (fun hmem => hmem) (fun hlast => nomatch hlast)
  | append_singleton ops op ih =>
    rw [List.foldl_append]
    by_cases hnames : Op.names nodeID streamKey st op = true
    · rw [lastReported_of_names ops hnames]
      exact mem_meaning_of_names _ hnames
    · rw [lastReported_of_not_names ops hnames, ← ih]
      exact mem_meaning_of_not_names _ hnames

end Last

theorem cfg_apply (ss : StreamingStrategy) (op : Op) : (apply ss op).cfg = ss.cfg := by
  cases op with
  | reportStream nodeID streamKey st => rfl
  | removeStream nodeID streamKey st =>
    show (removeStream ss nodeID streamKey st).cfg = ss.cfg
    unfold removeStream
    split
    · rfl
    · split <;> rfl

theorem cfg_run (cfg : Option Bool) (ops : List Op) : (run cfg ops).cfg = cfg := by
  induction ops using List.reverseRecOn with
  | nil => rfl
  | append_singleton ops op ih =>
    rw [run, List.foldl_append]
    exact (cfg_apply _ op).trans ih

/-- After any run, whatever the orders of the loops: no list holds a stream twice, `HasStream`
says whether the last call for some type was a report, and `FindNodesWithStream` finds the
nodes for which it holds. -/
theorem streams_form_set (cfg : Option Bool) (ops : List Op) {nodeOrder nodeOrder' : List String}
    {typeOrder typeOrder' : String → List StreamType}
    (hasked : Ranges (run cfg ops) nodeOrder typeOrder)
    (hfound : Ranges (run cfg ops) nodeOrder' typeOrder') :
    (∀ nodeID st, (streamsOf (run cfg ops) nodeID st).Nodup) ∧
      (∀ nodeID streamKey, hasStream (run cfg ops) (typeOrder nodeID) nodeID streamKey = true ↔
        ∃ st, LastReported ops nodeID streamKey st) ∧
      (cfg = some true → ∀ streamKey nodeID,
        findNodesWithStream (run cfg ops) nodeOrder' typeOrder' streamKey nodeID = true ↔
          hasStream (run cfg ops) (typeOrder nodeID) nodeID streamKey = true) := by
  have hholds := holds_run cfg ops
  refine ⟨hholds.nodup, fun nodeID streamKey => ?_, fun henabled streamKey nodeID => ?_⟩
  · rw [hasStream_iff hasked]
    refine exists_congr fun st => ?_
    rw [hholds.mem_iff, mem_foldl_meaning_iff]
  · rw [findNodesWithStream_iff hfound, hasStream_iff hasked, cfg_run]
    exact and_iff_right henabled

/- A stream under two types, of which one is taken away again. -/
def twoTypes : List Op :=
  [.reportStream "a" [1] streamTypeHLS, .reportStream "a" [1] streamTypeDASH,
    .reportStream "b" [1] streamTypeHLS, .removeStream "a" [1] streamTypeHLS,
    .removeStream "b" [1] streamTypeHLS]

theorem streams_form_set_of_two_types :
    ∃ nodeOrder typeOrder, Ranges (run (some true) twoTypes) nodeOrder typeOrder ∧
      findNodesWithStream (run (some true) twoTypes) nodeOrder typeOrder [1] "a" = true ∧
      hasStream (run (some true) twoTypes) (typeOrder "a") "a" [1] = true := by
  obtain ⟨nodeOrder, typeOrder, hr⟩ := ranges_run (some true) twoTypes
  obtain ⟨-, hasked, hfound⟩ := streams_form_set (some true) twoTypes hr hr
  have hhas : hasStream (run (some true) twoTypes) (typeOrder "a") "a" [1] = true :=
    (hasked "a" [1]).mpr ⟨streamTypeDASH, by decide⟩
  exact ⟨nodeOrder, typeOrder, hr, (hfound rfl [1] "a").mpr hhas, hhas⟩

end EdgeDispatch.Streaming.Strategy
