import EdgeDispatch.ContentIndex.KeyLookup
import EdgeDispatch.Lib.Transition
import Mathlib.Data.List.Sort

/-! # The content index in memory and in the database

`UpsertSummary`, `RemoveNode` and `expireStaleHotKeys` change two tables and the index in memory
(contentindex/store.go:66-87, 125-179, 236-310). An update in memory keeps what a summary does
not bring, the statements replace it; and expired keys go from memory only as far as `LoadAll`
can read the array of the remaining ones. -/

namespace EdgeDispatch.ContentIndex.StoreMirror
open Lib.ByteString Lib.Transition
open ContentIndex.Bloom ContentIndex.Summaries
open ContentIndex.KeyLookup (isCachedOrPanic)

abbrev KeyTable := AList fun _ : String × Bytes => KeyRow

/- `ORDER BY last_seen_at DESC` -/
def hotKeysOf (keys : KeyTable) (nodeID : String) : List Bytes :=
  ((keys.entries.filter fun e => e.1.1 = nodeID && e.2.isHot).insertionSort
    fun a b => b.2.lastSeenAt ≤ a.2.lastSeenAt).map fun e => e.1.2

/-- `scan` is what the database driver puts into a `[]byte` for a `text[]`, `none` if it fails;
`unmarshal` what json.Unmarshal makes of a nil `[]string`. -/
structure Driver where
  scan : List Bytes → Option Bytes
  unmarshal : Bytes → Option (List Bytes)

/-- A driver that does not fail gives the text of the array, which starts with a brace; no JSON
array does. -/
structure Driver.Lawful (d : Driver) : Prop where
  scan_text : ∀ keys text, d.scan keys = some text → ∃ rest, text = 123 :: rest
  unmarshal_brace : ∀ rest, d.unmarshal (123 :: rest) = none

/- A Scan that fails also closes the rows. -/
def loadRows (d : Driver) (keys : KeyTable) : List (Σ _ : String, BloomRow) → Index → Index
  | [], ci => ci
  | e :: rest, ci =>
    match d.scan (hotKeysOf keys e.1) with
    | none => ci
    | some text => loadRows d keys rest
        (update ci e.1 ⟨d.unmarshal text, some e.2.data, e.2.k, e.2.totalKeys⟩)

def loadAll (d : Driver) (s : Store) : Store :=
  { s with index := loadRows d s.keys s.blooms.entries s.index }

def filterKeys (keys : KeyTable) (p : (String × Bytes) → KeyRow → Bool) : KeyTable :=
  ⟨keys.entries.filter fun e => p e.1 e.2, keys.nodupKeys.sublist List.filter_sublist⟩

def deleteStale (cutoff : ℤ) (keys : KeyTable) : KeyTable :=
  filterKeys keys fun _ row => !(row.isHot && decide (row.lastSeenAt < cutoff))

/- `ttl` is HotKeyTTL in seconds. -/
def expireStaleHotKeys (d : Driver) (ttl now : ℤ) (s : Store) : Store :=
  if now - ttl ≤ 0 then s
  else if (deleteStale (now - ttl) s.keys).entries.length < s.keys.entries.length then
    loadAll d { s with keys := deleteStale (now - ttl) s.keys }
  else { s with keys := deleteStale (now - ttl) s.keys }

def removeNode (s : Store) (nodeID : String) : Store where
  keys := filterKeys s.keys fun a _ => a.1 ≠ nodeID
  blooms := s.blooms.erase nodeID
  index := KeyLookup.removeNode s.index nodeID

inductive Call where
  | upsertSummary (now : ℤ) (summary : ContentSummary)
  | removeNode (nodeID : String)
  | expireStaleHotKeys (now : ℤ)

/- Statements succeed; only a nil filter cannot be stored, as its column is NOT NULL. -/
def step (d : Driver) (ttl : ℤ) (s : Store) : Call → Option Store
  | .upsertSummary now summary =>
    let result := upsertSummary (fun _ => true) now s summary
    if result.2 = none then some result.1 else none
  | .removeNode nodeID => some (removeNode s nodeID)
  | .expireStaleHotKeys now => some (expireStaleHotKeys d ttl now s)

/- NewStore on empty tables. -/
def newStore : Store := ⟨∅, ∅, newContentIndex⟩

/-- The index that the rows describe. -/
def fromRows (s : Store) : Index where
  hotKeys nodeID := some (hotKeysOf s.keys nodeID)
  blooms nodeID := (s.blooms.lookup nodeID).bind fun row =>
    if row.k > 0 then some (newBloomFilterFromBytes row.data row.k) else none
  totalKeys nodeID := (s.blooms.lookup nodeID).map BloomRow.totalKeys

def InSync (s : Store) : Prop :=
  ∀ nodeID key, isCachedOrPanic s.index nodeID key = isCachedOrPanic (fromRows s) nodeID key

/-! ### Answers, from the hot keys and from the filter -/

def filterHas (ci : Index) (nodeID : String) (key : Bytes) : Option Bool :=
  match ci.blooms nodeID with
  | some bf => containsOrPanic bf key
  | none => some false

theorem isCachedOrPanic_eq_iff (a b : Index) (nodeID : String) (key : Bytes) :
    isCachedOrPanic a nodeID key = isCachedOrPanic b nodeID key ↔
      isHot a nodeID key = isHot b nodeID key ∧
        (isHot b nodeID key = false → filterHas a nodeID key = filterHas b nodeID key) := by
  have hsplit : ∀ ci, isCachedOrPanic ci nodeID key =
      if isHot ci nodeID key then some (true, true)
      else (filterHas ci nodeID key).map fun found => (false, found) := fun ci => by
    unfold isCachedOrPanic filterHas
    cases ci.blooms nodeID <;> rfl
  have hinj : Function.Injective (Option.map fun found : Bool => (false, found)) :=
    Option.map_injective fun x y h => congrArg Prod.snd h
  rw [hsplit, hsplit]
  cases isHot a nodeID key <;> cases isHot b nodeID key
  · simpa using hinj.eq_iff
  all_goals simp

/-! ### Hot rows -/

def HotRow (keys : KeyTable) (nodeID : String) (key : Bytes) : Prop :=
  ∃ row, ⟨(nodeID, key), row⟩ ∈ keys.entries ∧ row.isHot = true

variable {keys : KeyTable} {s : Store} {d : Driver}

theorem mem_hotKeysOf {nodeID : String} {key : Bytes} :
    key ∈ hotKeysOf keys nodeID ↔ HotRow keys nodeID key := by
  simp only [hotKeysOf, List.mem_map, List.mem_insertionSort, List.mem_filter, Bool.and_eq_true,
    decide_eq_true_eq]
  constructor
  · rintro ⟨⟨⟨n, k⟩, row⟩, ⟨hmem, rfl, hhot⟩, rfl⟩
    exact ⟨row, hmem, hhot⟩
  · rintro ⟨row, hmem, hhot⟩
    exact ⟨⟨(nodeID, key), row⟩, ⟨hmem, rfl, hhot⟩, rfl⟩

theorem isHot_fromRows (s : Store) (nodeID : String) (key : Bytes) :
    isHot (fromRows s) nodeID key = true ↔ HotRow s.keys nodeID key := by
  rw [← mem_hotKeysOf]
  exact decide_eq_true_iff

/-- In terms of the rows. -/
theorem inSync_iff (s : Store) : InSync s ↔ ∀ nodeID key,
    (isHot s.index nodeID key = true ↔ HotRow s.keys nodeID key) ∧
      (¬ HotRow s.keys nodeID key →
        filterHas s.index nodeID key = filterHas (fromRows s) nodeID key) := by
  refine forall_congr' fun nodeID => forall_congr' fun key => ?_
  rw [isCachedOrPanic_eq_iff, Bool.eq_iff_iff, isHot_fromRows, ← Bool.not_eq_true, isHot_fromRows]

/- The statements only write rows that are hot. -/
def AllHot (keys : KeyTable) : Prop := ∀ e ∈ keys.entries, e.2.isHot = true

theorem hotRow_iff (h : AllHot keys) {nodeID : String} {key : Bytes} :
    HotRow keys nodeID key ↔ ∃ row, keys.lookup (nodeID, key) = some row := by
  refine exists_congr fun row => ?_
  rw [← Option.mem_def, AList.mem_lookup_iff]
  exact ⟨fun hrow => hrow.1, fun hrow => ⟨hrow, h _ hrow⟩⟩

theorem allHot_insert (h : AllHot keys) (a : String × Bytes) {row : KeyRow}
    (hrow : row.isHot = true) : AllHot (keys.insert a row) := by
  rintro ⟨a', row'⟩ hmem
  rw [← AList.mem_lookup_iff] at hmem
  by_cases ha : a' = a
  · subst ha
    rw [AList.lookup_insert] at hmem
    rw [← Option.some.inj hmem]
    exact hrow
  · rw [AList.lookup_insert_ne ha] at hmem
    exact h _ (AList.mem_lookup_iff.mp hmem)

theorem insertHotKey_spec (now : ℤ) (nodeID : String) (h : AllHot keys) (key : Bytes) :
    AllHot (insertHotKey now nodeID keys key) ∧ ∀ node k,
      HotRow (insertHotKey now nodeID keys key) node k ↔
        (node = nodeID ∧ k = key) ∨ HotRow keys node k := by
  obtain ⟨row, hrow, heq⟩ : ∃ row : KeyRow, row.isHot = true ∧
      insertHotKey now nodeID keys key = keys.insert (nodeID, key) row := by
    unfold insertHotKey
    cases hlookup : keys.lookup (nodeID, key) with
    | none => exact ⟨_, rfl, rfl⟩
    | some row => exact ⟨⟨row.isHot, now⟩, h _ (AList.mem_lookup_iff.mp hlookup), rfl⟩
  have hall := allHot_insert h (nodeID, key) hrow
  rw [heq]
  refine ⟨hall, fun node k => ?_⟩
  rw [hotRow_iff hall, hotRow_iff h]
  by_cases ha : (node, k) = (nodeID, key)
  · rw [ha, AList.lookup_insert]
    exact iff_of_true ⟨row, rfl⟩ (Or.inl (Prod.mk.inj ha))
  · rw [AList.lookup_insert_ne ha]
    exact (or_iff_right fun hne => ha (Prod.ext hne.1 hne.2)).symm

theorem foldl_insertHotKey_spec (now : ℤ) (nodeID : String) (h : AllHot keys) (hotKeys : List Bytes) :
    
    AllHot (hotKeys.foldl (insertHotKey now nodeID) keys) ∧ ∀ node k,
      HotRow (hotKeys.foldl (insertHotKey now nodeID) keys) node k ↔
        (node = nodeID ∧ k ∈ hotKeys) ∨ HotRow keys node k := by
  induction hotKeys generalizing keys with
  | nil => exact ⟨h, fun node k => by simp⟩
  | cons key hotKeys ih =>
    obtain ⟨hall, hrows⟩ := insertHotKey_spec now nodeID h key
    obtain ⟨hall', hrows'⟩ := ih hall
    refine ⟨hall', fun node k => ?_⟩
    rw [List.foldl_cons, hrows', hrows, List.mem_cons]
    tauto

theorem filterKeys_spec (h : AllHot keys) (p : (String × Bytes) → KeyRow → Bool) :
    AllHot (filterKeys keys p) ∧ ∀ node k, HotRow (filterKeys keys p) node k ↔
      ∃ row, ⟨(node, k), row⟩ ∈ keys.entries ∧ p (node, k) row = true := by
  refine ⟨fun e he => h e (List.mem_filter.mp he).1, fun node k => exists_congr fun row => ?_⟩
  have hmem : ⟨(node, k), row⟩ ∈ (filterKeys keys p).entries ↔
      ⟨(node, k), row⟩ ∈ keys.entries ∧ p (node, k) row = true := List.mem_filter
  rw [hmem]
  exact ⟨fun hrow => hrow.1, fun hrow => ⟨hrow, h _ hrow.1⟩⟩

/- The rows of one node go. -/
theorem hotRow_filter_node (h : AllHot keys) (nodeID node : String) (k : Bytes) :
    HotRow (filterKeys keys fun a _ => a.1 ≠ nodeID) node k ↔
      node ≠ nodeID ∧ HotRow keys node k := by
  rw [(filterKeys_spec h _).2]
  constructor
  · rintro ⟨row, hmem, hne⟩
    exact ⟨of_decide_eq_true hne, row, hmem, h _ hmem⟩
  · rintro ⟨hne, row, hmem, -⟩
    exact ⟨row, hmem, decide_eq_true hne⟩

theorem deleteHotKeys_eq (h : AllHot keys) (nodeID : String) :
    deleteHotKeys keys nodeID = filterKeys keys fun a _ => a.1 ≠ nodeID := by
  refine AList.ext (List.filter_congr fun e he => ?_)
  rw [h e he, Bool.and_true]
  exact decide_not.symm

/-! ### One call -/

section Upsert
variable {d : Driver} {ttl now : ℤ} {s t : Store} {summary : ContentSummary}

/- The filter of a summary that is stored and also taken over into memory. -/
def Usable (summary : ContentSummary) : Prop :=
  summary.bloomFilter ≠ some [] ∧ 0 < usableK summary.bloomK

/-- What a call of UpsertSummary leaves, in the table and in memory. -/
theorem upsert_spec (h : step d ttl s (.upsertSummary now summary) = some t) :
    ∃ data, summary.bloomFilter = some data ∧
      t.blooms = s.blooms.insert summary.nodeID
        ⟨data, usableK summary.bloomK, summary.totalKeys, now⟩ ∧
      t.keys = (summary.hotKeys.getD []).foldl (insertHotKey now summary.nodeID)
        (deleteHotKeys s.keys summary.nodeID) ∧
      t.index = update s.index summary.nodeID (summaryData summary) := by
  simp only [step, upsertSummary] at h
  cases hdata : summary.bloomFilter with
  | none => simp [hdata] at h
  | some data =>
    simp only [hdata, if_true, Option.some.injEq] at h
    subst h
    simp

theorem upsert_rows (hall : AllHot s.keys)
    (h : step d ttl s (.upsertSummary now summary) = some t) :
    AllHot t.keys ∧ ∀ node k, HotRow t.keys node k ↔
      if node = summary.nodeID then k ∈ summary.hotKeys.getD [] else HotRow s.keys node k := by
  obtain ⟨data, -, -, hkeys, -⟩ := upsert_spec h
  rw [hkeys, deleteHotKeys_eq hall]
  obtain ⟨hall', hrows⟩ := foldl_insertHotKey_spec now summary.nodeID (filterKeys_spec hall _).1
    (summary.hotKeys.getD [])
  refine ⟨hall', fun node k => ?_⟩
  rw [hrows, hotRow_filter_node hall]
  split
  · rename_i hnode
    simp [hnode]
  · rename_i hnode
    simp [hnode]

theorem upsert_isHot (h : step d ttl s (.upsertSummary now summary) = some t) (node : String)
    (k : Bytes) : isHot t.index node k =
      if node = summary.nodeID then
        (summary.hotKeys.map fun keys => decide (k ∈ keys)).getD (isHot s.index node k)
      else isHot s.index node k := by
  obtain ⟨data, hdata, -, -, hindex⟩ := upsert_spec h
  have hhot : (summaryData summary).hotKeys = summary.hotKeys := by
    rw [summaryData]
    split <;> rfl
  rw [hindex, isHot, update, hhot]
  cases summary.hotKeys with
  | none => exact (ite_self _).symm
  | some keys =>
    by_cases hnode : node = summary.nodeID
    · simp [hnode]
    · simp [hnode, isHot]

/- A filter without a byte has no key. -/
theorem containsOrPanic_empty {k : ℕ} (hk : 0 < usableK k) (key : Bytes) :
    containsOrPanic (newBloomFilterFromBytes [] (usableK k)) key = some false := by
  have hle : usableK k ≤ 100 := by
    unfold usableK at hk ⊢
    split <;> omega
  have hcount : (newBloomFilterFromBytes [] (usableK k)).k = usableK k :=
    if_neg (Nat.not_lt.mpr hle)
  have hbits : (newBloomFilterFromBytes [] (usableK k)).bits = [0] := rfl
  rw [(inRange_newBloomFilterFromBytes (Nat.zero_le _) _).containsOrPanic, Option.some.injEq,
    ← Bool.not_eq_true, contains_iff]
  intro hall
  have hfirst := hall 0 (by rw [hcount]; exact hk)
  rw [hbits, getBit] at hfirst
  generalize position (newBloomFilterFromBytes [] (usableK k)) key 0 = pos at hfirst
  cases hword : pos / 64 with
  | zero => simp [hword] at hfirst
  | succ n => simp [hword] at hfirst

theorem filterHas_congr {a b : Index} {node : String} (h : a.blooms node = b.blooms node)
    (k : Bytes) : filterHas a node k = filterHas b node k := by
  rw [filterHas, filterHas, h]

theorem upsert_filter_other (h : step d ttl s (.upsertSummary now summary) = some t)
    {node : String} (hnode : node ≠ summary.nodeID) (k : Bytes) :
    filterHas t.index node k = filterHas s.index node k ∧
      filterHas (fromRows t) node k = filterHas (fromRows s) node k := by
  obtain ⟨data, -, hblooms, -, hindex⟩ := upsert_spec h
  refine ⟨filterHas_congr ?_ k, filterHas_congr ?_ k⟩
  · rw [hindex]
    rcases KeyLookup.update_blooms s.index summary.nodeID (summaryData summary) with hsame |
      ⟨_, -, hnew⟩
    · rw [hsame]
    · rw [hnew, Function.update_of_ne hnode]
  · simp only [fromRows]
    rw [hblooms, AList.lookup_insert_ne hnode]

theorem fromRows_upsert (h : step d ttl s (.upsertSummary now summary) = some t) {data : Bytes}
    (hdata : summary.bloomFilter = some data) :
    (fromRows t).blooms summary.nodeID =
      if usableK summary.bloomK > 0 then
        some (newBloomFilterFromBytes data (usableK summary.bloomK)) else none := by
  obtain ⟨data', hdata', hblooms, -, -⟩ := upsert_spec h
  cases hdata.symm.trans hdata'
  simp only [fromRows]
  rw [hblooms, AList.lookup_insert]
  rfl

theorem summaryData_of_cons {b : Byte} {rest : Bytes}
    (hdata : summary.bloomFilter = some (b :: rest)) :
    summaryData summary =
      ⟨summary.hotKeys, some (b :: rest), usableK summary.bloomK, summary.totalKeys⟩ := by
  rw [summaryData, hdata]

/- A usable filter is the same in the row and in memory. -/
theorem upsert_filter_usable (h : step d ttl s (.upsertSummary now summary) = some t)
    (hu : Usable summary) (k : Bytes) :
    filterHas t.index summary.nodeID k = filterHas (fromRows t) summary.nodeID k := by
  obtain ⟨data, hdata, -, -, hindex⟩ := upsert_spec h
  refine filterHas_congr ?_ k
  rw [fromRows_upsert h hdata, if_pos hu.2, hindex]
  cases data with
  | nil => exact absurd hdata hu.1
  | cons b rest =>
    simp [update, summaryData_of_cons hdata, hu.2]

/- Any other is nothing in the row, and leaves the old one in memory. -/
theorem upsert_filter_unusable (h : step d ttl s (.upsertSummary now summary) = some t)
    (hu : ¬ Usable summary) (k : Bytes) :
    filterHas t.index summary.nodeID k = filterHas s.index summary.nodeID k ∧
      filterHas (fromRows t) summary.nodeID k = some false := by
  obtain ⟨data, hdata, -, -, hindex⟩ := upsert_spec h
  have hrow := fromRows_upsert h hdata
  cases data with
  | nil =>
    have hsummary : summaryData summary = ⟨summary.hotKeys, none, 0, summary.totalKeys⟩ := by
      rw [summaryData, hdata]
    refine ⟨filterHas_congr (by rw [hindex, hsummary]; rfl) k, ?_⟩
    rw [filterHas, hrow]
    by_cases hk : usableK summary.bloomK > 0
    · rw [if_pos hk]
      exact containsOrPanic_empty hk k
    · rw [if_neg hk]
  | cons b rest =>
    have hk : ¬ usableK summary.bloomK > 0 := fun hk => hu ⟨by rw [hdata]; simp, hk⟩
    refine ⟨filterHas_congr ?_ k, ?_⟩
    · rw [hindex]
      simp [update, summaryData_of_cons hdata, hk]
    · rw [filterHas, hrow, if_neg hk]

/-- The hot keys of the summary are present, or the node has none; and its filter is usable, or
the old one has no other key. -/
def UpsertKeeps (s : Store) (summary : ContentSummary) : Prop :=
  (summary.hotKeys = none → ∀ key, ¬ HotRow s.keys summary.nodeID key) ∧
    (Usable summary ∨ ∀ key ∉ summary.hotKeys.getD [],
      filterHas s.index summary.nodeID key = some false)

theorem upsert_inSync_iff (hs : InSync s) (hall : AllHot s.keys)
    (h : step d ttl s (.upsertSummary now summary) = some t) :
    InSync t ↔ UpsertKeeps s summary := by
  rw [inSync_iff] at hs ⊢
  obtain ⟨-, hrows⟩ := upsert_rows hall h
  have hnode : ∀ k, HotRow t.keys summary.nodeID k ↔ k ∈ summary.hotKeys.getD [] := fun k => by
    rw [hrows, if_pos rfl]
  have hhot := fun k => upsert_isHot h summary.nodeID k
  simp only [if_true] at hhot
  constructor
  · intro ht
    refine ⟨fun hnone key hrow => ?_, ?_⟩
    · -- the old hot key is still in memory
      have hold := (hs summary.nodeID key).1.mpr hrow
      have hnew := (ht summary.nodeID key).1.mp (by rw [hhot, hnone]; exact hold)
      rw [hnode, hnone] at hnew
      cases hnew
    · by_cases hu : Usable summary
      · exact Or.inl hu
      · refine Or.inr fun key hkey => ?_
        obtain ⟨hmem, hrow⟩ := upsert_filter_unusable h hu key
        rw [← hmem, (ht summary.nodeID key).2 (by rwa [hnode]), hrow]
  · rintro ⟨hkeys, hfilter⟩ node k
    by_cases hn : node = summary.nodeID
    · subst hn
      constructor
      · rw [hhot, hnode]
        cases hk : summary.hotKeys with
        | none =>
          rw [Option.map_none, Option.getD_none, (hs summary.nodeID k).1]
          exact iff_of_false (hkeys hk k) List.not_mem_nil
        | some keys => exact decide_eq_true_iff
      · intro hrow
        by_cases hu : Usable summary
        · exact upsert_filter_usable h hu k
        · obtain ⟨hmem, hempty⟩ := upsert_filter_unusable h hu k
          rw [hmem, hempty]
          exact hfilter.resolve_left hu k (by rwa [← hnode])
    · obtain ⟨hmem, hrow⟩ := upsert_filter_other h hn k
      rw [upsert_isHot h, if_neg hn, hrows, if_neg hn, hmem, hrow]
      exact hs node k

end Upsert

theorem remove_keeps (hs : InSync s) (hall : AllHot s.keys) (nodeID : String) :
    InSync (removeNode s nodeID) ∧ AllHot (removeNode s nodeID).keys := by
  refine ⟨?_, (filterKeys_spec hall _).1⟩
  rw [inSync_iff] at hs ⊢
  intro node k
  have hrow : HotRow (removeNode s nodeID).keys node k ↔ node ≠ nodeID ∧ HotRow s.keys node k :=
    hotRow_filter_node hall nodeID node k
  rw [hrow]
  by_cases hn : node = nodeID
  · subst hn
    simp [isHot, filterHas, fromRows, removeNode, KeyLookup.removeNode]
  · have hmem : filterHas (removeNode s nodeID).index node k = filterHas s.index node k :=
      filterHas_congr (Function.update_of_ne hn _ _) k
    have hrows : filterHas (fromRows (removeNode s nodeID)) node k =
        filterHas (fromRows s) node k := by
      refine filterHas_congr ?_ k
      simp only [fromRows, removeNode]
      rw [AList.lookup_erase_ne hn]
    have hhot : isHot (removeNode s nodeID).index node k = isHot s.index node k := by
      simp [isHot, removeNode, KeyLookup.removeNode, hn]
    rw [hmem, hrows, hhot]
    simpa [hn] using hs node k

/-! ### Expiry -/

/- Whatever LoadAll reads, it finds no hot keys in it. -/
theorem loadRows_hotKeys (hd : d.Lawful) (keys : KeyTable) (rows : List (Σ _ : String, BloomRow))
    (ci : Index) : (loadRows d keys rows ci).hotKeys = ci.hotKeys := by
  induction rows generalizing ci with
  | nil => rfl
  | cons e rest ih =>
    rw [loadRows]
    split
    · rfl
    · rename_i text htext
      obtain ⟨brace, rfl⟩ := hd.scan_text _ _ htext
      rw [ih, update, hd.unmarshal_brace]

/-- No hot key is older than the cutoff. -/
def ExpireKeeps (ttl now : ℤ) (s : Store) : Prop :=
  0 < now - ttl → ∀ e ∈ s.keys.entries, now - ttl ≤ e.2.lastSeenAt

theorem expire_of_keeps {ttl now : ℤ} (h : ExpireKeeps ttl now s) :
    expireStaleHotKeys d ttl now s = s := by
  unfold expireStaleHotKeys
  split
  · rfl
  · rename_i hcutoff
    have hsame : deleteStale (now - ttl) s.keys = s.keys := by
      refine AList.ext (List.filter_eq_self.mpr fun e he => ?_)
      have := h (by omega) e he
      simp [this]
    simp [hsame]

theorem not_inSync_of_expired (hd : d.Lawful) {ttl now : ℤ} (hs : InSync s) (hall : AllHot s.keys)
    (h : ¬ ExpireKeeps ttl now s) : ¬ InSync (expireStaleHotKeys d ttl now s) := by
  simp only [ExpireKeeps, not_forall, not_le] at h
  obtain ⟨hcutoff, ⟨⟨node, k⟩, row⟩, hmem, hstale⟩ := h
  have hhot : row.isHot = true := hall _ hmem
  have hgone : ⟨(node, k), row⟩ ∉ (deleteStale (now - ttl) s.keys).entries := fun hin => by
    have := (List.mem_filter.mp hin).2
    simp [hhot, hstale] at this
  have hshorter : (deleteStale (now - ttl) s.keys).entries.length < s.keys.entries.length :=
    List.length_filter_lt_length_iff_exists.mpr ⟨_, hmem, by simp [hhot, hstale]⟩
  have hnorow : ¬ HotRow (deleteStale (now - ttl) s.keys) node k := by
    rintro ⟨row', hrow', -⟩
    -- the table has one row for each key
    have hsame : row' = row := by
      have hlookup := AList.mem_lookup_iff.mpr (List.mem_filter.mp hrow').1
      exact Option.some.inj (hlookup.symm.trans (AList.mem_lookup_iff.mpr hmem))
    exact hgone (hsame ▸ hrow')
  have hold : isHot s.index node k = true :=
    ((inSync_iff s).mp hs node k).1.mpr ⟨row, hmem, hhot⟩
  rw [expireStaleHotKeys, if_neg (by omega), if_pos hshorter, inSync_iff]
  intro hsync
  refine hnorow ((hsync node k).1.mp ?_)
  rw [isHot, loadAll, loadRows_hotKeys hd]
  exact hold

/-! ### Whole runs -/

def Keeps (ttl : ℤ) (s : Store) : Call → Prop
  | .upsertSummary _ summary => UpsertKeeps s summary
  | .removeNode _ => True
  | .expireStaleHotKeys now => ExpireKeeps ttl now s

theorem step_inSync_iff (hd : d.Lawful) {ttl : ℤ} {t : Store} {c : Call} (hs : InSync s)
    (hall : AllHot s.keys) (h : step d ttl s c = some t) :
    (InSync t ↔ Keeps ttl s c) ∧ AllHot t.keys := by
  cases c with
  | upsertSummary now summary =>
    exact ⟨upsert_inSync_iff hs hall h, (upsert_rows hall h).1⟩
  | removeNode nodeID =>
    obtain rfl : removeNode s nodeID = t := Option.some.inj h
    obtain ⟨hsync, hhot⟩ := remove_keeps hs hall nodeID
    exact ⟨iff_of_true hsync trivial, hhot⟩
  | expireStaleHotKeys now =>
    obtain rfl : expireStaleHotKeys d ttl now s = t := Option.some.inj h
    constructor
    · refine ⟨fun hsync => ?_, fun hkeeps => ?_⟩
      · by_contra hkeeps
        exact not_inSync_of_expired hd hs hall hkeeps hsync
      · rwa [expire_of_keeps hkeeps]
    · unfold expireStaleHotKeys
      split
      · exact hall
      · split <;> exact (filterKeys_spec hall _).1

theorem newStore_inSync : InSync newStore ∧ AllHot newStore.keys :=
  ⟨fun _ _ => rfl, fun _ he => absurd he List.not_mem_nil⟩

/-- The answers from memory are those from the rows all along a run iff each of its calls keeps
them so: no summary without hot keys for a node that has some, none with an unusable filter
while the old one has a key, and no expired key. -/
theorem memory_matches_rows_iff {d : Driver} (hd : d.Lawful) (ttl : ℤ) {calls : List Call}
    {t : Store} (hrun : exec (step d ttl) calls newStore = some t) :
    (∀ u ∈ visited (step d ttl) calls newStore, InSync u) ↔
      Guarded (step d ttl) (Keeps ttl) calls newStore := by
  refine forall_visited_iff_guarded_of (P := fun s => InSync s ∧ AllHot s.keys)
    (Q := fun _ => True) hrun newStore_inSync (fun _ h => h.1) (fun _ _ => trivial) ?_
  rintro s c t - ⟨hs, hall⟩ hstep
  obtain ⟨hiff, hhot⟩ := step_inSync_iff hd hs hall hstep
  exact ⟨hiff.mp, fun hkeeps => ⟨hiff.mpr hkeeps, hhot⟩⟩

/- As pgx does with a binary array. -/
def refusing : Driver := ⟨fun _ => none, fun _ => none⟩

theorem refusing_lawful : refusing.Lawful := ⟨fun _ _ h => (nomatch h), fun _ => rfl⟩

def summaryOf (hotKeys : Option (List Bytes)) (bloomK : ℕ) : ContentSummary :=
  ⟨"n1", hotKeys, some [1], bloomK, 1, 0⟩

def fullSummaries : List Call :=
  [.upsertSummary 100 (summaryOf (some [[97]]) 3), .expireStaleHotKeys 150,
    .upsertSummary 160 (summaryOf (some []) 3), .removeNode "n1"]

theorem memory_matches_full_summaries :
    (exec (step refusing 100) fullSummaries newStore).isSome = true ∧
      ∀ u ∈ visited (step refusing 100) fullSummaries newStore, InSync u := by
  have hsome : (exec (step refusing 100) fullSummaries newStore).isSome = true := by decide +kernel
  obtain ⟨t, ht⟩ := Option.isSome_iff_exists.mp hsome
  refine ⟨hsome, (memory_matches_rows_iff refusing_lawful 100 ht).mpr ?_⟩
  have husable : ∀ keys, Usable (summaryOf keys 3) := fun _ =>
    ⟨(by decide : some [1] ≠ some ([] : Bytes)), (by decide : 0 < usableK 3)⟩
  refine ⟨⟨fun h => (nomatch h), Or.inl (husable _)⟩, fun s₁ h₁ => ⟨?_, fun s₂ h₂ =>
    ⟨⟨fun h => (nomatch h), Or.inl (husable _)⟩, fun s₃ h₃ => ⟨trivial, fun _ _ => trivial⟩⟩⟩⟩
  cases h₁
  intro _
  decide +kernel

/-- A summary without hot keys, and keys that expire: the rows are gone, the index still answers
from them. -/
theorem memory_keeps_deleted_rows :
    (let calls := [.upsertSummary 100 (summaryOf (some [[97]]) 0),
      .upsertSummary 160 (summaryOf none 0)]
    (exec (step refusing 100) calls newStore).map fun s =>
      (isCachedOrPanic s.index "n1" [97], isCachedOrPanic (fromRows s) "n1" [97])) =
      some (some (true, true), some (false, false)) ∧
    (let calls := [.upsertSummary 100 (summaryOf (some [[97]]) 0), .expireStaleHotKeys 300]
    (exec (step refusing 100) calls newStore).map fun s =>
      (isCachedOrPanic s.index "n1" [97], isCachedOrPanic (fromRows s) "n1" [97])) =
      some (some (true, true), some (false, false)) := by
  decide +kernel

end EdgeDispatch.ContentIndex.StoreMirror
