import EdgeDispatch.ContentIndex.Summaries
import EdgeDispatch.Lib.MapRange

/-! # Which nodes have a key, asked in both directions (contentindex/bloom.go:175-250)

`IsCached` asks one node for a key and `FindNodesWithKey` collects all nodes that have it.
Both read the filters with `Contains`, which panics on a filter whose `m` is zero. -/

namespace EdgeDispatch.ContentIndex.KeyLookup
open Lib.ByteString Lib.MapRange
open ContentIndex.Bloom ContentIndex.Summaries

def removeNode (ci : Index) (nodeID : String) : Index :=
  { hotKeys := Function.update ci.hotKeys nodeID none
    blooms := Function.update ci.blooms nodeID none
    totalKeys := Function.update ci.totalKeys nodeID none }

/- `IsCached` with the panic of a lookup in the filter. -/
def isCachedOrPanic (ci : Index) (nodeID : String) (key : Bytes) : Option (Bool × Bool) :=
  if isHot ci nodeID key then some (true, true)
  else match ci.blooms nodeID with
    | some bf => (containsOrPanic bf key).map fun found => (false, found)
    | none => some (false, false)

/- The body of the second loop; a node of the first map is passed over. -/
def bloomHas (ci : Index) (hot : String → Bool) (key : Bytes) (nodeID : String) : Option Bool :=
  if hot nodeID then some false
  else match ci.blooms nodeID with
    | some bf => containsOrPanic bf key
    | none => some false

/- The maps (hotNodes, bloomNodes); the loops go over `ci.hotKeys` and `ci.blooms`, in the
   orders that are given. -/
def findNodesWithKey (ci : Index) (hotOrder bloomOrder : List String) (key : Bytes) :
    Option ((String → Bool) × (String → Bool)) :=
  match mark (fun nodeID => some (isHot ci nodeID key)) hotOrder fun _ => false with
  | none => none
  | some hot =>
    match mark (bloomHas ci hot key) bloomOrder fun _ => false with
    | none => none
    | some bloom => some (hot, bloom)

/-! ### The two answers -/

variable {ci : Index}

theorem isCachedOrPanic_of_inRange {nodeID : String} (h : ∀ bf ∈ ci.blooms nodeID, InRange bf)
    (key : Bytes) : isCachedOrPanic ci nodeID key = some (isCached ci nodeID key) := by
  unfold isCachedOrPanic isCached bloomMatch
  split
  · rfl
  · cases hb : ci.blooms nodeID with
    | none => rfl
    | some bf =>
      simp only [(h bf hb).containsOrPanic key, Option.map_some]
      split <;> simp_all

/- The first loop finds what each node would say of itself. -/
theorem mark_hot {hotOrder : List String} (hv : Visits ci.hotKeys hotOrder) (key : Bytes) :
    mark (fun nodeID => some (isHot ci nodeID key)) hotOrder (fun _ => false) =
      some fun nodeID => isHot ci nodeID key := by
  rw [mark_some]
  congr 1
  funext nodeID
  rw [Bool.eq_iff_iff, collect_eq_true]
  refine ⟨fun h => h.2, fun hhot => ⟨?_, hhot⟩⟩
  rw [hv.mem_iff]
  unfold isHot at hhot
  split at hhot
  · rename_i keys hkeys
    rw [hkeys]
    rfl
  · cases hhot

theorem isCachedOrPanic_eq (ci : Index) (nodeID : String) (key : Bytes) :
    isCachedOrPanic ci nodeID key = (bloomHas ci (fun n => isHot ci n key) key nodeID).map
      fun found => (isHot ci nodeID key, isHot ci nodeID key || found) := by
  cases hhot : isHot ci nodeID key with
  | true => simp [isCachedOrPanic, bloomHas, hhot]
  | false => cases hbf : ci.blooms nodeID <;> simp [isCachedOrPanic, bloomHas, hhot, hbf]

/- A node without a filter does not panic, so the second loop meets every panic there is. -/
theorem bloomHas_visited {bloomOrder : List String} (hv : Visits ci.blooms bloomOrder)
    {hot : String → Bool} {key : Bytes} {nodeID : String} {b : Option Bool}
    (h : bloomHas ci hot key nodeID = b) (hb : b ≠ some false) : nodeID ∈ bloomOrder := by
  rw [hv.mem_iff]
  unfold bloomHas at h
  split at h
  · exact absurd h.symm hb
  · cases hbf : ci.blooms nodeID with
    | some bf => rfl
    | none =>
      rw [hbf] at h
      exact absurd h.symm hb

section
variable {ci : Index} {hotOrder bloomOrder : List String} (hhot : Visits ci.hotKeys hotOrder)
  (hbloom : Visits ci.blooms bloomOrder)
include hhot hbloom

theorem findNodesWithKey_eq_none (key : Bytes) :
    findNodesWithKey ci hotOrder bloomOrder key = none ↔
      ∃ nodeID, isCachedOrPanic ci nodeID key = none := by
  simp only [findNodesWithKey, mark_hot hhot, isCachedOrPanic_eq, Option.map_eq_none_iff]
  cases hm : mark (bloomHas ci (fun n => isHot ci n key) key) bloomOrder fun _ => false with
  | none =>
    obtain ⟨nodeID, -, hp⟩ := mark_eq_none.mp hm
    exact iff_of_true rfl ⟨nodeID, hp⟩
  | some bloom =>
    refine iff_of_false (Option.some_ne_none _) ?_
    rintro ⟨nodeID, hp⟩
    rw [mark_eq_none.mpr ⟨nodeID, bloomHas_visited hbloom hp (by simp), hp⟩] at hm
    cases hm

theorem findNodesWithKey_eq_some {key : Bytes} {hotNodes bloomNodes : String → Bool}
    (h : findNodesWithKey ci hotOrder bloomOrder key = some (hotNodes, bloomNodes))
    (nodeID : String) : ∃ isHot likelyCached,
      isCachedOrPanic ci nodeID key = some (isHot, likelyCached) ∧
      (hotNodes nodeID = true ↔ isHot = true) ∧
      (bloomNodes nodeID = true ↔ isHot = false ∧ likelyCached = true) := by
  cases hp : bloomHas ci (fun n => isHot ci n key) key nodeID with
  | none =>
    have hnone := (findNodesWithKey_eq_none hhot hbloom key).mpr
      ⟨nodeID, by rw [isCachedOrPanic_eq, hp, Option.map_none]⟩
    rw [hnone] at h
    cases h
  | some found =>
    refine ⟨isHot ci nodeID key, isHot ci nodeID key || found, ?_, ?_⟩
    · rw [isCachedOrPanic_eq, hp, Option.map_some]
    simp only [findNodesWithKey, mark_hot hhot] at h
    split at h
    · cases h
    · rename_i bloom hm
      cases h
      refine ⟨Iff.rfl, ?_⟩
      rw [mark_eq_some hm nodeID, hp]
      cases found with
      | true =>
        -- the loop has passed over a hot node, so this one is not
        have hcold : isHot ci nodeID key = false := by
          by_contra hne
          rw [bloomHas, Bool.eq_true_of_not_eq_false hne] at hp
          cases hp
        simp [hcold, bloomHas_visited hbloom hp (by simp)]
      | false => simp

end

/-! ### Indexes that updates and removals reach -/

inductive Op where
  | update (nodeID : String) (summary : ContentSummaryData)
  | removeNode (nodeID : String)

def apply (ci : Index) : Op → Index
  | .update nodeID summary => Summaries.update ci nodeID summary
  | .removeNode nodeID => KeyLookup.removeNode ci nodeID

def run (ops : List Op) : Index := ops.foldl apply newContentIndex

/- The bits of the filter that an update brings fit a uint32. -/
def Op.Fits : Op → Prop
  | .update _ summary => ∀ data ∈ summary.bloomBytes, data.length ≤ 2 ^ 29 - 8
  | .removeNode _ => True

/-- What holds of the new index and is kept by each call holds of the index after any calls. -/
theorem run_induction {P : Index → Prop} {Q : Op → Prop} (h0 : P newContentIndex)
    (hstep : ∀ ci op, P ci → Q op → P (apply ci op)) {ops : List Op} (hops : ∀ op ∈ ops, Q op) :
    P (run ops) := by
  unfold run
  induction ops using List.reverseRecOn with
  | nil => exact h0
  | append_singleton ops op ih =>
    rw [List.foldl_append]
    exact hstep _ op (ih fun o ho => hops o (List.mem_append_left _ ho)) (hops op (by simp))

/- What an update can do to each map. -/
theorem update_hotKeys (ci : Index) (nodeID : String) (summary : ContentSummaryData) :
    (update ci nodeID summary).hotKeys = ci.hotKeys ∨
      ∃ keys, (update ci nodeID summary).hotKeys = Function.update ci.hotKeys nodeID (some keys) := by
  cases hkeys : summary.hotKeys with
  | none => exact .inl (by simp [update, hkeys])
  | some keys => exact .inr ⟨keys, by simp [update, hkeys]⟩

theorem update_blooms (ci : Index) (nodeID : String) (summary : ContentSummaryData) :
    (update ci nodeID summary).blooms = ci.blooms ∨
      ∃ data ∈ summary.bloomBytes, (update ci nodeID summary).blooms =
        Function.update ci.blooms nodeID (some (newBloomFilterFromBytes data summary.bloomK)) := by
  cases hdata : summary.bloomBytes with
  | none => exact .inl (by simp [update, hdata])
  | some data =>
    by_cases hk : summary.bloomK > 0
    · exact .inr ⟨data, rfl, by simp [update, hdata, hk]⟩
    · exact .inl (by simp [update, hdata, hk])

theorem inRange_run {ops : List Op} (hops : ∀ op ∈ ops, op.Fits) :
    ∀ nodeID, ∀ bf ∈ (run ops).blooms nodeID, InRange bf := by
  refine run_induction (P := fun ci => ∀ nodeID, ∀ bf ∈ ci.blooms nodeID, InRange bf) ?_ ?_ hops
  · intro nodeID bf hbf
    cases hbf
  · intro ci op hci hop
    cases op with
    | update node summary =>
      rcases update_blooms ci node summary with hsame | ⟨data, hdata, hnew⟩
      · show ∀ nodeID, ∀ bf ∈ (update ci node summary).blooms nodeID, InRange bf
        rwa [hsame]
      · show ∀ nodeID, ∀ bf ∈ (update ci node summary).blooms nodeID, InRange bf
        rw [hnew]
        refine (Function.forall_update_iff ci.blooms fun _ b => ∀ bf ∈ b, InRange bf).mpr
          ⟨fun bf hbf => ?_, fun nodeID _ => hci nodeID⟩
        rw [← Option.some.inj hbf]
        exact inRange_newBloomFilterFromBytes (hop data hdata) _
    | removeNode node =>
      refine (Function.forall_update_iff ci.blooms fun _ b => ∀ bf ∈ b, InRange bf).mpr
        ⟨fun bf hbf => ?_, fun nodeID _ => hci nodeID⟩
      cases hbf

/-- The maps stay finite, so there is an order for each loop. -/
theorem visits_run (ops : List Op) :
    ∃ hotOrder bloomOrder, Visits (run ops).hotKeys hotOrder ∧ Visits (run ops).blooms bloomOrder := by
  have hrun : (∃ order, Visits (run ops).hotKeys order) ∧
      ∃ order, Visits (run ops).blooms order := by
    refine run_induction (P := fun ci => (∃ order, Visits ci.hotKeys order) ∧
      ∃ order, Visits ci.blooms order) (Q := fun _ => True)
      ⟨⟨[], visits_empty⟩, [], visits_empty⟩ ?_ fun _ _ => trivial
    rintro ci op ⟨⟨hotOrder, hhot⟩, bloomOrder, hbloom⟩ -
    cases op with
    | update node summary =>
      constructor
      · show ∃ order, Visits (update ci node summary).hotKeys order
        rcases update_hotKeys ci node summary with hsame | ⟨keys, hnew⟩
        · exact ⟨hotOrder, by rwa [hsame]⟩
        · rw [hnew]
          exact hhot.set node keys
      · show ∃ order, Visits (update ci node summary).blooms order
        rcases update_blooms ci node summary with hsame | ⟨data, -, hnew⟩
        · exact ⟨bloomOrder, by rwa [hsame]⟩
        · rw [hnew]
          exact hbloom.set node _
    | removeNode node => exact ⟨hhot.delete node, hbloom.delete node⟩
  obtain ⟨⟨hotOrder, hhot⟩, bloomOrder, hbloom⟩ := hrun
  exact ⟨hotOrder, bloomOrder, hhot, hbloom⟩

/-- The collected nodes are the nodes that say it of themselves. The collection fails only
where one of them does, and never with filters whose bits fit a uint32. -/
theorem findNodesWithKey_iff_isCached (ops : List Op) {hotOrder bloomOrder : List String}
    (hhot : Visits (run ops).hotKeys hotOrder) (hbloom : Visits (run ops).blooms bloomOrder)
    (key : Bytes) :
    (∀ hotNodes bloomNodes,
      findNodesWithKey (run ops) hotOrder bloomOrder key = some (hotNodes, bloomNodes) →
      ∀ nodeID, ∃ isHot likelyCached,
        isCachedOrPanic (run ops) nodeID key = some (isHot, likelyCached) ∧
        (hotNodes nodeID = true ↔ isHot = true) ∧
        (bloomNodes nodeID = true ↔ isHot = false ∧ likelyCached = true)) ∧
    (findNodesWithKey (run ops) hotOrder bloomOrder key = none ↔
      ∃ nodeID, isCachedOrPanic (run ops) nodeID key = none) ∧
    ((∀ op ∈ ops, op.Fits) → findNodesWithKey (run ops) hotOrder bloomOrder key ≠ none) := by
  have hpanic := findNodesWithKey_eq_none hhot hbloom key
  refine ⟨fun _ _ hfind => findNodesWithKey_eq_some hhot hbloom hfind, hpanic, ?_⟩
  intro hfits hnone
  obtain ⟨nodeID, hp⟩ := hpanic.mp hnone
  rw [isCachedOrPanic_of_inRange (inRange_run hfits nodeID)] at hp
  cases hp

/- Node "a" reports hot keys, "b" only a filter with all bits set, and "c" is removed again. -/
def threeNodes : List Op :=
  [.update "a" ⟨some [[107]], none, 0, 1⟩, .update "b" ⟨none, some (List.replicate 8 255), 1, 1⟩,
    .update "c" ⟨some [[107]], some (List.replicate 8 255), 1, 1⟩, .removeNode "c"]

theorem findNodesWithKey_iff_isCached_of_threeNodes :
    ∃ hotOrder bloomOrder hotNodes bloomNodes, Visits (run threeNodes).hotKeys hotOrder ∧
      Visits (run threeNodes).blooms bloomOrder ∧
      findNodesWithKey (run threeNodes) hotOrder bloomOrder [107] = some (hotNodes, bloomNodes) ∧
      hotNodes "a" = true ∧ bloomNodes "b" = true ∧ hotNodes "c" = false := by
  obtain ⟨hotOrder, bloomOrder, hhot, hbloom⟩ := visits_run threeNodes
  obtain ⟨hagree, -, hreturns⟩ := findNodesWithKey_iff_isCached threeNodes hhot hbloom [107]
  have hfits : ∀ op ∈ threeNodes, op.Fits := by
    simp [threeNodes, Op.Fits]
  obtain ⟨⟨hotNodes, bloomNodes⟩, hfind⟩ := Option.ne_none_iff_exists'.mp (hreturns hfits)
  refine ⟨hotOrder, bloomOrder, hotNodes, bloomNodes, hhot, hbloom, hfind, ?_⟩
  have hall := hagree hotNodes bloomNodes hfind
  obtain ⟨_, _, ha, hhotA, -⟩ := hall "a"
  obtain ⟨_, _, hb, -, hbloomB⟩ := hall "b"
  obtain ⟨_, _, hc, hhotC, -⟩ := hall "c"
  have ha' : isCachedOrPanic (run threeNodes) "a" [107] = some (true, true) := by decide +kernel
  have hb' : isCachedOrPanic (run threeNodes) "b" [107] = some (false, true) := by decide +kernel
  have hc' : isCachedOrPanic (run threeNodes) "c" [107] = some (false, false) := by decide +kernel
  rw [ha'] at ha
  rw [hb'] at hb
  rw [hc'] at hc
  cases ha
  cases hb
  cases hc
  simpa using And.intro hhotA (And.intro hbloomB hhotC)

end EdgeDispatch.ContentIndex.KeyLookup
