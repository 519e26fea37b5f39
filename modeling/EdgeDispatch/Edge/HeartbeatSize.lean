import EdgeDispatch.Edge.CacheAccounting
import EdgeDispatch.Edge.ContentReport
import EdgeDispatch.Lib.JsonText

/-! # The size of a heartbeat

The edge posts its content summary with each heartbeat (edgeagent/reporter.go:128-160), and
the filter in it grows with the cache. The control plane reads at most 32 KB of a request
(controlplane/api.go:294-320). -/

namespace EdgeDispatch.Edge.HeartbeatSize
open Lib.ByteString Lib.GoStrings Lib.GoStrconv
open Lib.JsonText Lib.Transition Edge.Cache
open Edge.ContentReport
open ContentIndex.Bloom ContentIndex.Summaries

/-! ### What is sent -/

/- models.ContentSummary as JSON; a list that is nil or empty is left out, and so is a zero
   `bloom_k`. -/
def summaryText (s : ContentSummary) : Bytes :=
  object ([("node_id", quote (lit s.nodeID))] ++
    (match s.hotKeys with
      | some (k :: ks) => [("hot_keys", array ((k :: ks).map quote))]
      | _ => []) ++
    (match s.bloomFilter with
      | some (b :: bs) => [("bloom_filter", 34 :: encodeBase64 (b :: bs) ++ [34])]
      | _ => []) ++
    (if s.bloomK = 0 then [] else [("bloom_k", formatInt s.bloomK)]) ++
    [("total_keys", formatInt s.totalKeys), ("updated_at", formatInt s.updatedAt)])

/- What was measured: the time and the JSON texts of models.NodeRuntime, NodeTraffic and
   NodeCache. -/
structure Measured where
  ts : ℤ
  runtime : Bytes
  traffic : Bytes
  cache : Bytes

/- models.HeartbeatRequest; `Encode` ends with a newline. -/
def heartbeatText (nodeID : String) (m : Measured) (summary : Option ContentSummary) : Bytes :=
  object ([("node_id", quote (lit nodeID)), ("ts", formatInt m.ts), ("runtime", m.runtime),
      ("traffic", m.traffic), ("cache", m.cache)] ++
    (match summary with
      | some s => [("content_summary", summaryText s)]
      | none => [])) ++ [10]

/- `updatedAt` is read after `ts`. -/
def heartbeatBody (sz : Sizing) (c : DiskCache) (all hot : MapOrder) (nodeID : String)
    (m : Measured) (updatedAt : ℤ) : Bytes :=
  heartbeatText nodeID m (buildContentSummary sz c all hot nodeID updatedAt)

/-! ### What is read -/

def maxJSONBodySize : ℕ := 2 ^ 15

/- What `Decoder.Decode` makes of the bytes that it can read: a value and the bytes after it,
   or it comes to their end within a value. -/
inductive Decoded (α : Type) where
  | value (v : α) (rest : Bytes)
  | needMore
  | invalid

inductive DecodeError where
  | tooLarge
  | invalidBody
  | notSingleValue
  deriving DecidableEq

def isSpace (b : Byte) : Bool := b = 32 ∨ b = 9 ∨ b = 13 ∨ b = 10

/- `http.MaxBytesReader` gives the first 32 KB, and if there is more then an error in place of
   EOF. The second `Decode` has to end with EOF. -/
def decodeJSON {α : Type} (decode : Bytes → Decoded α) (body : Bytes) : Except DecodeError α :=
  match decode (body.take maxJSONBodySize) with
  | .invalid => .error .invalidBody
  | .needMore => .error (if maxJSONBodySize < body.length then .tooLarge else .invalidBody)
  | .value v rest =>
    if rest.all isSpace ∧ body.length ≤ maxJSONBodySize then .ok v else .error .notSingleValue

/-- Only a body within the limit is decoded, and for such a body the limit changes nothing. -/
theorem decodeJSON_eq_ok_iff {α : Type} {decode : Bytes → Decoded α} {body : Bytes} {v : α} :
    decodeJSON decode body = .ok v ↔ body.length ≤ maxJSONBodySize ∧
      ∃ rest, decode body = .value v rest ∧ rest.all isSpace = true := by
  unfold decodeJSON
  by_cases hlen : body.length ≤ maxJSONBodySize
  · rw [List.take_of_length_le hlen]
    cases hd : decode body with
    | invalid => simp
    | needMore => simp
    | value w rest =>
      by_cases hrest : rest.all isSpace = true
      · simp only [hrest, hlen, and_self, if_true, Except.ok.injEq, Decoded.value.injEq, true_and]
        refine ⟨fun hv => ⟨rest, ⟨hv, rfl⟩, hrest⟩, fun ⟨_, h, _⟩ => h.1⟩
      · simp only [hrest, false_and, if_false, reduceCtorEq, false_iff]
        rintro ⟨-, rest', heq, hsp⟩
        cases heq
        exact hrest hsp
  · cases hd : decode (body.take maxJSONBodySize) <;> simp [hlen]

/-! ### How long the text is -/

/- The words of the filter for `n` names. -/
def filterWords (sz : Sizing) (n : ℕ) : ℕ := (newBloomFilter sz (max n 100) (5 / 100)).bits.length

/- The heartbeat of a cache with nothing in it. -/
def baseLength (nodeID : String) (m : Measured) : ℕ :=
  50 + (quote (lit nodeID)).length + (formatInt m.ts).length + m.runtime.length +
    m.traffic.length + m.cache.length

/- All of the summary but the characters of the filter. -/
def summaryLength (nodeID : String) (hotNames : List Bytes) (n : ℕ) (updatedAt : ℤ) : ℕ :=
  90 + (quote (lit nodeID)).length + (hotNames.map fun k => (quote k).length + 1).sum +
    (formatInt n).length + (formatInt updatedAt).length

theorem heartbeatText_none_length (nodeID : String) (m : Measured) :
    (heartbeatText nodeID m none).length = baseLength nodeID m := by
  have hnames : "node_id".length = 7 ∧ "ts".length = 2 ∧ "runtime".length = 7 ∧
      "traffic".length = 7 ∧ "cache".length = 5 := by decide
  obtain ⟨h1, h2, h3, h4, h5⟩ := hnames
  rw [heartbeatText, List.length_append, object_length (by simp), baseLength]
  simp only [List.append_nil, List.map_cons, List.map_nil, List.sum_cons, List.sum_nil,
    List.length_cons, List.length_nil, h1, h2, h3, h4, h5]
  omega

theorem heartbeatText_some_length (nodeID : String) (m : Measured) (s : ContentSummary) :
    (heartbeatText nodeID m (some s)).length =
      baseLength nodeID m + (summaryText s).length + 19 := by
  have hbase := heartbeatText_none_length nodeID m
  have hname : "content_summary".length = 15 := by decide
  unfold heartbeatText at hbase ⊢
  rw [List.length_append, object_length (by simp)] at hbase ⊢
  simp only [List.append_nil, List.map_append, List.sum_append, List.map_cons, List.map_nil,
    List.sum_cons, List.sum_nil, hname] at hbase ⊢
  omega

theorem summaryText_length (sz : Sizing) (names : List Bytes) {hot : List Bytes} (hhot : hot ≠ [])
    (nodeID : String) (updatedAt : ℤ) :
    (summaryText (summaryOf sz names hot nodeID updatedAt)).length + 19 =
      summaryLength nodeID hot names.length updatedAt +
        4 * ((8 * filterWords sz names.length + 2) / 3) := by
  obtain ⟨k, ks, rfl⟩ := List.exists_cons_of_ne_nil hhot
  obtain ⟨b, bs, hfilter⟩ := List.exists_cons_of_ne_nil (bytes_namesFilter sz names)
  have hbytes : (b :: bs).length = 8 * filterWords sz names.length := by
    rw [← hfilter, bytes_length, namesFilter, foldl_add_length, filterWords]
  have hcode := encodeBase64_length (b :: bs)
  rw [hbytes] at hcode
  have harray : (array ((k :: ks).map quote)).length =
      1 + ((k :: ks).map fun k => (quote k).length + 1).sum := by
    rw [array_length (by simp), List.map_map]
    rfl
  have hnames : "node_id".length = 7 ∧ "hot_keys".length = 8 ∧ "bloom_filter".length = 12 ∧
      "total_keys".length = 10 ∧ "updated_at".length = 10 := by decide
  obtain ⟨h1, h2, h3, h4, h5⟩ := hnames
  simp only [summaryText, summaryOf, hfilter, if_true]
  rw [object_length (by simp), summaryLength]
  simp only [List.append_nil, List.map_append, List.sum_append, List.map_cons, List.map_nil,
    List.sum_cons, List.sum_nil, List.length_cons, List.length_append, List.length_nil,
    List.cons_append, h1, h2, h3, h4, h5] at harray hcode ⊢
  omega

/-- From the number of objects and the other things that are written. -/
def heartbeatLength (sz : Sizing) (c : DiskCache) (hot : MapOrder) (nodeID : String)
    (m : Measured) (updatedAt : ℤ) : ℕ :=
  let n := c.accessTimes.keys.length
  if n = 0 then baseLength nodeID m
  else baseLength nodeID m + summaryLength nodeID (hotKeys c hot 20) n updatedAt +
    4 * ((8 * filterWords sz n + 2) / 3)

theorem heartbeatBody_length (sz : Sizing) (c : DiskCache) (all hot : MapOrder) (nodeID : String)
    (m : Measured) (updatedAt : ℤ) :
    (heartbeatBody sz c all hot nodeID m updatedAt).length =
      heartbeatLength sz c hot nodeID m updatedAt := by
  have hn : (allKeys c all).length = c.accessTimes.keys.length := (all.perm _).length_eq
  unfold heartbeatBody heartbeatLength buildContentSummary
  simp only [hn]
  by_cases hzero : c.accessTimes.keys.length = 0
  · rw [if_pos hzero, if_pos hzero, heartbeatText_none_length]
  · have hkeys : c.accessTimes.keys ≠ [] := fun hnil => hzero (by rw [hnil]; rfl)
    have hsummary := summaryText_length sz (allKeys c all)
      (hotKeys_ne_nil c hot 20 (by decide) hkeys) nodeID updatedAt
    rw [if_neg hzero, if_neg hzero, heartbeatText_some_length, Nat.add_assoc, hsummary, hn]
    omega

variable {c : DiskCache}

/- The characters of a filter with six bits for each object are at least as many as these. -/
theorem objects_le_heartbeatLength {sz : Sizing}
    (hbits : 6 * c.accessTimes.keys.length ≤ 64 * filterWords sz c.accessTimes.keys.length)
    (hpos : c.accessTimes.keys.length ≠ 0) (hot : MapOrder) (nodeID : String) (m : Measured)
    (updatedAt : ℤ) :
    c.accessTimes.keys.length + 140 ≤ heartbeatLength sz c hot nodeID m updatedAt := by
  simp only [heartbeatLength, if_neg hpos, baseLength, summaryLength]
  omega

/-- A heartbeat is taken exactly if its text, whose length follows from the size of the filter,
is at most 32 KB. With six bits for each object that needs fewer objects than 32 K. -/
theorem heartbeat_accepted_iff {α : Type} (decode : Bytes → Decoded α) (v : α) (sz : Sizing)
    (c : DiskCache) (all hot : MapOrder) (nodeID : String) (m : Measured) (updatedAt : ℤ)
    (hdecode : decode (heartbeatBody sz c all hot nodeID m updatedAt) = .value v [10]) :
    (decodeJSON decode (heartbeatBody sz c all hot nodeID m updatedAt) = .ok v ↔
      heartbeatLength sz c hot nodeID m updatedAt ≤ maxJSONBodySize) ∧
    (6 * c.accessTimes.keys.length ≤ 64 * filterWords sz c.accessTimes.keys.length →
      decodeJSON decode (heartbeatBody sz c all hot nodeID m updatedAt) = .ok v →
      c.accessTimes.keys.length + 140 ≤ maxJSONBodySize) := by
  have haccepted : decodeJSON decode (heartbeatBody sz c all hot nodeID m updatedAt) = .ok v ↔
      heartbeatLength sz c hot nodeID m updatedAt ≤ maxJSONBodySize := by
    rw [decodeJSON_eq_ok_iff, heartbeatBody_length]
    exact ⟨fun h => h.1, fun h => ⟨h, [10], hdecode, by decide⟩⟩
  refine ⟨haccepted, fun hbits hok => ?_⟩
  have hlen := haccepted.mp hok
  by_cases hzero : c.accessTimes.keys.length = 0
  · rw [hzero]
    decide
  · exact (objects_le_heartbeatLength hbits hzero hot nodeID m updatedAt).trans hlen

/-! ### A cache opened on a large directory -/

def readable (dir : Σ _ : Bytes, Entry) : Bool := dir.2.metaFile.join.isSome

theorem readEntry_objects {dir : Σ _ : Bytes, Entry} (h : dir.1 ∉ c.accessTimes) :
    (readEntry c dir).accessTimes.keys.length =
      c.accessTimes.keys.length + if readable dir = true then 1 else 0 := by
  unfold readEntry readable
  cases hm : dir.2.metaFile.join with
  | none => rfl
  | some m =>
    simp only [AList.insert_of_notMem h]
    rfl

theorem readEntries_objects {dirs : List (Σ _ : Bytes, Entry)} (hnodup : dirs.NodupKeys)
    (hnew : ∀ dir ∈ dirs, dir.1 ∉ c.accessTimes) :
    (dirs.foldl readEntry c).accessTimes.keys.length =
      c.accessTimes.keys.length + dirs.countP readable := by
  induction dirs generalizing c with
  | nil => rfl
  | cons dir dirs ih =>
    rw [List.nodupKeys_cons] at hnodup
    have hkeep : ∀ d ∈ dirs, d.1 ∉ (readEntry c dir).accessTimes := by
      intro d hd
      have hold := hnew d (List.mem_cons_of_mem dir hd)
      have hne : d.1 ≠ dir.1 := fun heq => hnodup.1 (heq ▸ List.mem_map_of_mem hd)
      unfold readEntry
      split
      · exact hold
      · rw [AList.mem_insert]
        exact fun h => h.elim hne hold
    rw [List.foldl_cons, ih hnodup.2 hkeep, List.countP_cons,
      readEntry_objects (hnew dir List.mem_cons_self)]
    omega

/-- Every directory with a readable meta.json is an object, whatever its name. -/
theorem openCache_objects (maxGB : ℤ) (disk : AList fun _ : Bytes => Entry) :
    (openCache maxGB disk).accessTimes.keys.length = disk.entries.countP readable := by
  rw [openCache, readEntries_objects disk.nodupKeys fun dir _ => AList.notMem_empty dir.1]
  simp [newCache]

/- Directories named by numbers, each with an empty object. -/
def numbered (n : ℕ) : AList fun _ : Bytes => Entry where
  entries := (List.range n).map fun i => ⟨decimal i, ⟨some [], some (some ⟨0, 0⟩)⟩⟩
  nodupKeys := by
    have hinj : Function.Injective decimal := by
      intro a b h
      have ha := parseDigits_decimal a
      rw [h, parseDigits_decimal] at ha
      exact (Option.some.inj ha).symm
    show (List.map Sigma.fst _).Nodup
    rw [List.map_map]
    exact List.nodup_range.map hinj

theorem openCache_numbered (n : ℕ) : (openCache 10 (numbered n)).accessTimes.keys.length = n := by
  rw [openCache_objects, List.countP_eq_length.mpr]
  · simp [numbered]
  · intro e he
    obtain ⟨i, -, rfl⟩ := List.mem_map.mp he
    rfl

/- The least that is assumed of a filter. -/
def sixBits : Sizing := ⟨fun n _ => 6 * n, fun _ _ => 4⟩

def idle : Measured := ⟨0, lit "\x7b\x7d", lit "\x7b\x7d", lit "\x7b\x7d"⟩

theorem heartbeat_accepted_iff_of_three_objects :
    (openCache 10 (numbered 3)).accessTimes.keys.length = 3 ∧
      6 * 3 ≤ 64 * filterWords sixBits 3 ∧
      decodeJSON (fun _ => Decoded.value () [10]) (heartbeatBody sixBits
        (openCache 10 (numbered 3)) .inOrder .inOrder "n" idle 0) = .ok () := by
  have hn := openCache_numbered 3
  refine ⟨hn, by decide +kernel, ?_⟩
  have hiff := heartbeat_accepted_iff (fun _ => Decoded.value () [10]) () sixBits
    (openCache 10 (numbered 3)) .inOrder .inOrder "n" idle 0 rfl
  exact hiff.1.mpr (by decide +kernel)

theorem heartbeat_of_large_cache_refused :
    (openCache 10 (numbered 32768)).accessTimes.keys.length = 32768 ∧
      6 * 32768 ≤ 64 * filterWords sixBits 32768 ∧
      ∀ (decode : Bytes → Decoded Unit), decodeJSON decode (heartbeatBody sixBits
        (openCache 10 (numbered 32768)) .inOrder .inOrder "n" idle 0) ≠ .ok () := by
  have hn := openCache_numbered 32768
  have hbits : 6 * 32768 ≤ 64 * filterWords sixBits 32768 := by
    simp only [filterWords, newBloomFilter, sixBits, List.length_replicate]
    decide
  refine ⟨hn, hbits, fun decode hok => ?_⟩
  have hlen := (decodeJSON_eq_ok_iff.mp hok).1
  rw [heartbeatBody_length] at hlen
  have hge : (openCache 10 (numbered 32768)).accessTimes.keys.length + 140 ≤
      heartbeatLength sixBits (openCache 10 (numbered 32768)) .inOrder "n" idle 0 :=
    objects_le_heartbeatLength (by rw [hn]; exact hbits) (by rw [hn]; decide) _ _ _ _
  rw [hn] at hge
  have hmax : maxJSONBodySize = 32768 := rfl
  omega

end EdgeDispatch.Edge.HeartbeatSize
