import EdgeDispatch.Lib.Transition
import EdgeDispatch.Edge.Cache
import EdgeDispatch.ContentIndex.Summaries

/-! # From the edge's cache to the control plane's index

`buildContentSummary` (edgeagent/reporter.go:259-279) reports the names under which
entries are cached, which are digests of the keys, and sets no `BloomK`. -/

namespace EdgeDispatch.Edge.ContentReport
open Lib.ByteString Lib.Transition Edge.Cache
open ContentIndex.Bloom ContentIndex.Summaries

def namesFilter (sz : Sizing) (names : List Bytes) : BloomFilter :=
  names.foldl add (newBloomFilter sz (max names.length 100) (5 / 100))

def summaryOf (sz : Sizing) (names hot : List Bytes) (nodeID : String) (now : ℤ) :
    ContentSummary :=
  { nodeID := nodeID
    hotKeys := some hot
    bloomFilter := some (bytes (namesFilter sz names))
    bloomK := 0
    totalKeys := names.length
    updatedAt := now }

/-- The cache is visited twice, each time in an order of its own. -/
def buildContentSummary (sz : Sizing) (c : DiskCache) (all hot : MapOrder) (nodeID : String)
    (now : ℤ) : Option ContentSummary :=
  let names := allKeys c all
  if names.length = 0 then none
  else some (summaryOf sz names (hotKeys c hot 20) nodeID now)

def putStep (c : DiskCache) (p : PutCall) : Option DiskCache := some (put c p).1

/-! ### The names a cache lists -/

/- Every name in the access map is the digest of a key. -/
def Named (c : DiskCache) : Prop := ∀ name ∈ c.accessTimes, ∃ key, name = keyName key

theorem commit_accessTimes (c : DiskCache) (n : Bytes) (written : ℤ) (old : Option ℤ) (now : ℤ)
    (ord : MapOrder) (stuck : Bytes → Bool) (name : Bytes)
    (h : name ∈ (c.commit n written old now ord stuck).accessTimes) :
    name = n ∨ name ∈ c.accessTimes := by
  refine DiskCache.commit_invariant (P := fun c' : DiskCache => name ∈ c'.accessTimes →
    name = n ∨ name ∈ c.accessTimes) (fun c' e hc' hrest => ?_) (fun hacc => ?_) h
  · exact hc' (AList.mem_erase.mp hrest).2
  · exact (AList.mem_insert _).mp hacc

theorem put_named (c : DiskCache) (p : PutCall) (h : Named c) : Named (put c p).1 := by
  intro name hname
  unfold put at hname
  split at hname
  · exact h name hname
  · exact h name hname
  · exact h name hname
  · refine h name ?_
    simp only at hname
    split at hname <;> exact hname
  · rcases commit_accessTimes _ _ _ _ _ _ _ _ hname with he | hold
    · exact ⟨p.key, he⟩
    · exact h name hold

theorem reached_named (maxGB : ℤ) (c : DiskCache)
    (h : Reach putStep Free (newCache maxGB) c) : Named c := by
  refine h.invariant Named ?_ ?_
  · intro name hname
    exact absurd hname (AList.notMem_empty name)
  · intro s p t hs _ hst
    cases hst
    exact put_named s p hs

theorem hotKeys_ne_nil (c : DiskCache) (ord : MapOrder) (limit : ℕ) (hlimit : 0 < limit)
    (h : c.accessTimes.keys ≠ []) : hotKeys c ord limit ≠ [] := by
  obtain ⟨name, hname⟩ := List.exists_mem_of_ne_nil _ h
  obtain ⟨t, ht⟩ := Option.isSome_iff_exists.mp (AList.lookup_isSome.mpr (AList.mem_keys.mpr hname))
  have hitem : (name, t) ∈ (ord.visit c.accessTimes.keys).filterMap fun name =>
      (c.accessTimes.lookup name).map fun t => (name, t) :=
    List.mem_filterMap.mpr ⟨name, (ord.perm _).mem_iff.mpr hname, by rw [ht]; rfl⟩
  have hsorted := (List.mem_insertionSort fun a b : Bytes × ℤ => a.2 ≥ b.2).mpr hitem
  intro hnil
  rcases List.take_eq_nil_iff.mp (List.map_eq_nil_iff.mp hnil) with hzero | hempty
  · omega
  · rw [hempty] at hsorted
    cases hsorted

theorem omitEmpty_some {α : Type} {l : List α} (h : l ≠ []) : omitEmpty (some l) = some l := by
  cases l with
  | nil => exact absurd rfl h
  | cons x xs => rfl

theorem bytes_namesFilter (sz : Sizing) (names : List Bytes) :
    bytes (namesFilter sz names) ≠ [] := by
  apply List.ne_nil_of_length_pos
  have hwords := newBloomFilter_length sz (max names.length 100) (5 / 100)
  rw [bytes_length, namesFilter, foldl_add_length]
  omega

/-- A heartbeat tells the index about a key only if the key is itself, as text, one of
the directory names listed as hot; for any other key the index answers from whatever
Bloom filter it had before. -/
theorem reported_iff_named_or_known (sz : Sizing) (maxGB : ℤ) (c : DiskCache)
    (hc : Reach putStep Free (newCache maxGB) c) (all hot : MapOrder) (node : String) (now : ℤ)
    (summary : ContentSummary) (hs : buildContentSummary sz c all hot node now = some summary)
    (s : Store) (now' : ℤ) (key : Bytes) :
    (upsertSummary (fun _ => true) now' s (received node summary)).2 = none ∧
      ((isCached (upsertSummary (fun _ => true) now' s (received node summary)).1.index node
          key).2 = true ↔
        (∃ key', key = keyName key' ∧ key ∈ hotKeys c hot 20) ∨
          ∃ bf, s.index.blooms node = some bf ∧ contains bf key = true) := by
  unfold buildContentSummary at hs
  simp only at hs
  split at hs
  · cases hs
  · rename_i hlen
    cases hs
    have hnames : c.accessTimes.keys ≠ [] := by
      intro hnil
      apply hlen
      rw [allKeys, (all.perm _).length_eq, hnil]
      rfl
    have hspec := upsertSummary_without_k now' s
      (received node (summaryOf sz (allKeys c all) (hotKeys c hot 20) node now)) key
      (omitEmpty_some (hotKeys_ne_nil c hot 20 (by omega) hnames))
      (omitEmpty_some (bytes_namesFilter sz (allKeys c all))) rfl
    refine ⟨hspec.1, hspec.2.trans (or_congr_left ?_)⟩
    apply Iff.intro
    · intro hmem
      obtain ⟨key', hkey'⟩ := reached_named maxGB c hc key (mem_hotKeys c hot 20 key hmem)
      exact ⟨key', hkey', hmem⟩
    · exact fun ⟨_, _, hmem⟩ => hmem

/-! ### One cached object -/

def oneObject : DiskCache := (put (newCache 1) ⟨[97], [1], 5, .none, .inOrder, fun _ => false⟩).1

/- 624 bits and 5 hashes are what the formulas give for a hundred keys at 5 %. -/
def hundredKeys : Sizing := ⟨fun _ _ => 624, fun _ _ => 5⟩

/- The key is the text "a", the only name reported is its digest. -/
theorem cached_key_not_reported :
    Reach putStep Free (newCache 1) oneObject ∧ oneObject.has [97] = true ∧
      ∃ summary, buildContentSummary hundredKeys oneObject .inOrder .inOrder "n" 6 = some summary ∧
        (upsertSummary (fun _ => true) 7 ⟨∅, ∅, newContentIndex⟩ (received "n" summary)).2 = none ∧
        isCached (upsertSummary (fun _ => true) 7 ⟨∅, ∅, newContentIndex⟩
          (received "n" summary)).1.index "n" [97] = (false, false) := by
  refine ⟨Reach.start.next ⟨[97], [1], 5, .none, .inOrder, fun _ => false⟩ trivial rfl,
    by decide +kernel, summaryOf hundredKeys [keyName [97]] [keyName [97]] "n" 6, ?_, ?_, ?_⟩
  · decide +kernel
  · decide +kernel
  · decide +kernel

/- An index that already has a filter for the node, here one with every bit set. -/
def fullIndex : Index :=
  { newContentIndex with
    blooms := fun _ => some (newBloomFilterFromBytes (List.replicate 8 255) 1) }

theorem cached_key_known_before :
    ∃ summary, buildContentSummary hundredKeys oneObject .inOrder .inOrder "n" 6 = some summary ∧
      (isCached (upsertSummary (fun _ => true) 7 ⟨∅, ∅, fullIndex⟩
        (received "n" summary)).1.index "n" [97]).2 = true := by
  have hreach : Reach putStep Free (newCache 1) oneObject :=
    Reach.start.next ⟨[97], [1], 5, .none, .inOrder, fun _ => false⟩ trivial rfl
  have hs : buildContentSummary hundredKeys oneObject .inOrder .inOrder "n" 6 =
      some (summaryOf hundredKeys [keyName [97]] [keyName [97]] "n" 6) := by
    decide +kernel
  refine ⟨_, hs, ?_⟩
  apply (reported_iff_named_or_known hundredKeys 1 oneObject hreach .inOrder .inOrder "n" 6 _ hs
    ⟨∅, ∅, fullIndex⟩ 7 [97]).2.mpr
  exact Or.inr ⟨_, rfl, by decide +kernel⟩

end EdgeDispatch.Edge.ContentReport
