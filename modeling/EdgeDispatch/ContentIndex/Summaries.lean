import EdgeDispatch.ContentIndex.Bloom
import Mathlib.Data.List.AList

/-! # Content summaries at the control plane

`ContentIndex` (contentindex/bloom.go:137-250) answers which node is likely to have a
key; `UpsertSummary` (contentindex/store.go:125-179) writes a node's summary to two
tables and then to the index. -/

namespace EdgeDispatch.ContentIndex.Summaries
open Lib.ByteString ContentIndex.Bloom

/- models.ContentSummary; `none` is a nil slice. -/
structure ContentSummary where
  nodeID : String
  hotKeys : Option (List Bytes)
  bloomFilter : Option Bytes
  bloomK : ℕ
  totalKeys : ℤ
  updatedAt : ℤ
  deriving DecidableEq

structure ContentSummaryData where
  hotKeys : Option (List Bytes)
  bloomBytes : Option Bytes
  bloomK : ℕ
  totalKeys : ℤ

structure Index where
  hotKeys : String → Option (List Bytes)
  blooms : String → Option BloomFilter
  totalKeys : String → Option ℤ

def newContentIndex : Index := ⟨fun _ => none, fun _ => none, fun _ => none⟩

/-- A nil list of hot keys leaves the node's old ones, and so does an unusable filter
the old filter. -/
def update (ci : Index) (nodeID : String) (summary : ContentSummaryData) : Index :=
  { hotKeys := match summary.hotKeys with
      | some keys => Function.update ci.hotKeys nodeID (some keys)
      | none => ci.hotKeys
    blooms := match summary.bloomBytes with
      | some data => if summary.bloomK > 0 then
          Function.update ci.blooms nodeID (some (newBloomFilterFromBytes data summary.bloomK))
        else ci.blooms
      | none => ci.blooms
    totalKeys := Function.update ci.totalKeys nodeID (some summary.totalKeys) }

def isHot (ci : Index) (nodeID : String) (key : Bytes) : Bool :=
  match ci.hotKeys nodeID with
  | some keys => decide (key ∈ keys)
  | none => false

def bloomMatch (ci : Index) (nodeID : String) (key : Bytes) : Bool :=
  match ci.blooms nodeID with
  | some bf => contains bf key
  | none => false

/- (isHot, likelyCached) -/
def isCached (ci : Index) (nodeID : String) (key : Bytes) : Bool × Bool :=
  if isHot ci nodeID key then (true, true)
  else if bloomMatch ci nodeID key then (false, true)
  else (false, false)

theorem isCached_likely (ci : Index) (nodeID : String) (key : Bytes) :
    (isCached ci nodeID key).2 = true ↔
      isHot ci nodeID key = true ∨ bloomMatch ci nodeID key = true := by
  unfold isCached
  by_cases hh : isHot ci nodeID key = true
  · simp [hh]
  · by_cases hb : bloomMatch ci nodeID key = true <;> simp [hh, hb]

/- A row of content_bloom, whose columns are NOT NULL, and of content_index. -/
structure BloomRow where
  data : Bytes
  k : ℕ
  totalKeys : ℤ
  updatedAt : ℤ

structure KeyRow where
  isHot : Bool
  lastSeenAt : ℤ

structure Store where
  blooms : AList fun _ : String => BloomRow
  keys : AList fun _ : String × Bytes => KeyRow
  index : Index

inductive Statement where
  | upsertBloom
  | deleteHotKeys
  | insertHotKey (key : Bytes)

inductive UpsertError where
  | upsertBloom
  | deleteOldHotKeys
  deriving DecidableEq

/- The K that is stored: out of range counts as none. -/
def usableK (k : ℕ) : ℕ := if 0 < k ∧ k ≤ 100 then k else 0

def deleteHotKeys (keys : AList fun _ : String × Bytes => KeyRow) (nodeID : String) :
    AList fun _ : String × Bytes => KeyRow :=
  ⟨keys.entries.filter fun e => !(decide (e.1.1 = nodeID) && e.2.isHot),
    keys.nodupKeys.sublist List.filter_sublist⟩

/- On a conflict only last_seen_at changes. -/
def insertHotKey (now : ℤ) (nodeID : String) (keys : AList fun _ : String × Bytes => KeyRow)
    (key : Bytes) : AList fun _ : String × Bytes => KeyRow :=
  match keys.lookup (nodeID, key) with
  | some row => keys.insert (nodeID, key) { row with lastSeenAt := now }
  | none => keys.insert (nodeID, key) ⟨true, now⟩

def summaryData (summary : ContentSummary) : ContentSummaryData :=
  match summary.bloomFilter with
  | some (b :: rest) =>
    ⟨summary.hotKeys, some (b :: rest), usableK summary.bloomK, summary.totalKeys⟩
  | _ => ⟨summary.hotKeys, none, 0, summary.totalKeys⟩

/- `ok` says which statements the database carries out. The first one that fails ends
   the call, but a hot key that cannot be inserted is only logged. -/
def upsertSummary (ok : Statement → Bool) (now : ℤ) (s : Store) (summary : ContentSummary) :
    Store × Option UpsertError :=
  match summary.bloomFilter, ok .upsertBloom with
  | some data, true =>
    let blooms := s.blooms.insert summary.nodeID
      ⟨data, usableK summary.bloomK, summary.totalKeys, now⟩
    if ok .deleteHotKeys then
      let keys := ((summary.hotKeys.getD []).filter fun key => ok (.insertHotKey key)).foldl
        (insertHotKey now summary.nodeID) (deleteHotKeys s.keys summary.nodeID)
      (⟨blooms, keys, update s.index summary.nodeID (summaryData summary)⟩, none)
    else ({ s with blooms }, some .deleteOldHotKeys)
  | _, _ => (s, some .upsertBloom)

/- From the heartbeat's JSON: an empty list is omitted and comes back nil. The node id
   is the heartbeat's (controlplane/heartbeat.go:128-133). -/
def omitEmpty {α : Type} : Option (List α) → Option (List α)
  | some [] => none
  | o => o

def received (nodeID : String) (summary : ContentSummary) : ContentSummary :=
  { summary with
    nodeID := nodeID
    hotKeys := omitEmpty summary.hotKeys
    bloomFilter := omitEmpty summary.bloomFilter }

/- Without a K the index keeps the filter it has; hot keys are replaced. -/
theorem update_without_k (ci : Index) (nodeID : String) (keys : List Bytes) (data : Option Bytes)
    (total : ℤ) (key : Bytes) :
    (isCached (update ci nodeID ⟨some keys, data, 0, total⟩) nodeID key).2 = true ↔
      key ∈ keys ∨ ∃ bf, ci.blooms nodeID = some bf ∧ contains bf key = true := by
  have hhot : isHot (update ci nodeID ⟨some keys, data, 0, total⟩) nodeID key =
      decide (key ∈ keys) := by
    simp [isHot, update]
  have hbloom : (update ci nodeID ⟨some keys, data, 0, total⟩).blooms = ci.blooms := by
    cases data <;> rfl
  rw [isCached_likely, hhot, bloomMatch, hbloom, decide_eq_true_iff]
  cases ci.blooms nodeID <;> simp

/-- A summary with hot keys and a filter but no K: the call succeeds, and the index then
knows the hot keys and whatever its old filter has. -/
theorem upsertSummary_without_k (now : ℤ) (s : Store) (summary : ContentSummary) (key : Bytes)
    {keys : List Bytes} {data : Bytes} (hkeys : summary.hotKeys = some keys)
    (hdata : summary.bloomFilter = some data) (hk : summary.bloomK = 0) :
    (upsertSummary (fun _ => true) now s summary).2 = none ∧
      ((isCached (upsertSummary (fun _ => true) now s summary).1.index summary.nodeID key).2 = true ↔
        key ∈ keys ∨ ∃ bf, s.index.blooms summary.nodeID = some bf ∧ contains bf key = true) := by
  have hsum : ∃ d, summaryData summary = ⟨some keys, d, 0, summary.totalKeys⟩ := by
    cases data with
    | nil => exact ⟨none, by simp [summaryData, hdata, hkeys]⟩
    | cons b rest => exact ⟨some (b :: rest), by simp [summaryData, hdata, hkeys, hk, usableK]⟩
  obtain ⟨d, hd⟩ := hsum
  have hindex : (upsertSummary (fun _ => true) now s summary).1.index =
      update s.index summary.nodeID (summaryData summary) := by
    simp [upsertSummary, hdata]
  refine ⟨by simp [upsertSummary, hdata], ?_⟩
  rw [hindex, hd]
  exact update_without_k s.index summary.nodeID keys d summary.totalKeys key

end EdgeDispatch.ContentIndex.Summaries
