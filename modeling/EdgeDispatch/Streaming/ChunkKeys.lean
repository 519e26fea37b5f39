import EdgeDispatch.Lib.GoStrings
import EdgeDispatch.Lib.GoStrconv
import Mathlib.Algebra.Order.BigOperators.Group.List

/-! # From a chunk's object key to its name in the cache (internal/streaming/window.go)

A chunk is requested by object key and cached under its stream and sequence number,
which are read off the key: the directory is the stream, and the last part of the
file name that is a number is the sequence number. The rest of the file name, its
extension included, does not reach the cache. -/

namespace EdgeDispatch.Streaming
open Lib.ByteString Lib.GoStrings Lib.GoStrconv

def backslash : Byte := 92
def underscore : Byte := 95

/- The segments that `validateStreamKey` keeps. -/
def keepSegment (p : Bytes) : Bool := p ≠ [] ∧ p ≠ lit "." ∧ p ≠ lit ".."

def segments (key : Bytes) : List Bytes :=
  let key := (trimSpace key).map fun b => if b = backslash then slash else b
  ((split slash key).map trimSpace).filter keepSegment

def validateStreamKey (key : Bytes) : Bytes := join slash (segments key)

def extractSeqNum (name : Bytes) : Int64 :=
  ((split underscore name).reverse.findSome? parseInt).getD (-1)

/- The file name without what follows its last dot. -/
def stem (filename : Bytes) : Bytes :=
  match lastIndexByte dot filename with
  | some i => filename.take i
  | none => filename

def inferStreamFromChunkKey (key : Bytes) : Option (Bytes × Int64) :=
  match lastIndexByte slash key with
  | none => none
  | some lastSlash =>
    let streamKey := validateStreamKey (key.take lastSlash)
    let seqNum := extractSeqNum (stem (key.drop (lastSlash + 1)))
    if streamKey = [] then none
    else if 0 ≤ seqNum then some (streamKey, seqNum)
    else none

/- `fmt.Sprintf("stream/%s/seq_%010d", streamKey, seqNum)`. -/
def chunkCacheKey (streamKey : Bytes) (seqNum : Int64) : Bytes :=
  lit "stream/" ++ streamKey ++ lit "/seq_" ++ formatPadded 10 seqNum

/- The triple `("", 0, false)` is `none`. -/
def parseChunkKey (key : Bytes) : Option (Bytes × Int64) :=
  if ¬ hasPrefix key (lit "stream/") then none
  else
    let rest := trimPrefix key (lit "stream/")
    match lastIndex (lit "/seq_") rest with
    | none => none
    | some idx =>
      match parseInt (rest.drop (idx + (lit "/seq_").length)) with
      | none => none
      | some seqNum => some (rest.take idx, seqNum)

/-! ### Which keys are streaming content -/

/- No character outside ASCII has a lower case that could end these. -/
def isHLSChunk (key : Bytes) : Bool :=
  hasSuffix (toLower key) (lit ".ts") || hasSuffix (toLower key) (lit ".aac") ||
    hasSuffix (toLower key) (lit ".vtt")

def isDASHChunk (key : Bytes) : Bool :=
  hasSuffix (toLower key) (lit ".m4s") || hasSuffix (toLower key) (lit ".cmfv")

def isManifestRequest (key : Bytes) : Bool :=
  hasSuffix key (lit ".m3u8") || hasSuffix key (lit ".mpd")

def isStreamingRequest (key : Bytes) : Bool :=
  isHLSChunk key || isDASHChunk key || isManifestRequest key

/-! ### A stream key is its own stream key -/

/-- What a segment that was kept looks like. -/
structure Segment (p : Bytes) : Prop where
  kept : keepSegment p = true
  trimmed : Trimmed p
  no_slash : slash ∉ p
  no_backslash : backslash ∉ p

theorem segment_of_mem {key p : Bytes} (h : p ∈ segments key) : Segment p := by
  obtain ⟨hp, hkept⟩ := List.mem_filter.mp h
  obtain ⟨q, hq, rfl⟩ := List.mem_map.mp hp
  obtain ⟨hslash, hsub⟩ := mem_split q hq
  refine ⟨hkept, trimSpace_trimmed q, fun hb => hslash (mem_of_mem_trimSpace hb), fun hb => ?_⟩
  obtain ⟨b, -, hb⟩ := List.mem_map.mp (hsub (mem_of_mem_trimSpace hb))
  -- every backslash was rewritten
  split at hb
  · exact absurd hb (by decide)
  · contradiction

theorem slash_notMem_spaces : ∀ w ∈ spaces, slash ∉ w := by decide

theorem segments_join {parts : List Bytes} (h : ∀ p ∈ parts, Segment p) :
    segments (join slash parts) = parts := by
  have htrim : trimSpace (join slash parts) = join slash parts :=
    trimSpace_of_trimmed (Trimmed.join slash_notMem_spaces fun p hp => (h p hp).trimmed)
  have hsame : (join slash parts).map (fun b => if b = backslash then slash else b) =
      join slash parts := by
    refine (List.map_congr_left fun b hb => ?_).trans (List.map_id _)
    rcases mem_join hb with rfl | ⟨p, hp, hbp⟩
    · rfl
    · have hb : b ≠ backslash := fun he => (h p hp).no_backslash (he ▸ hbp)
      exact if_neg hb
  have hparts : parts.map trimSpace = parts := by
    refine (List.map_congr_left fun p hp => ?_).trans (List.map_id _)
    exact trimSpace_of_trimmed (h p hp).trimmed
  have hkept : parts.filter keepSegment = parts :=
    List.filter_eq_self.mpr fun p hp => (h p hp).kept
  unfold segments
  simp only [htrim, hsame]
  by_cases hnil : parts = []
  · rw [hnil]
    decide
  · rw [split_join hnil fun p hp => (h p hp).no_slash, hparts, hkept]

theorem validateStreamKey_idem (key : Bytes) :
    validateStreamKey (validateStreamKey key) = validateStreamKey key := by
  unfold validateStreamKey
  rw [segments_join fun p hp => segment_of_mem hp]

theorem join_trimmed_length_le (c : Byte) (s : Bytes) :
    (join c ((split c s).map trimSpace)).length ≤ s.length := by
  have htrim : (((split c s).map trimSpace).map fun p => p.length + 1).sum ≤
      ((split c s).map fun p => p.length + 1).sum := by
    rw [List.map_map]
    exact List.sum_le_sum fun p _ => Nat.succ_le_succ (trimSpace_isInfix p).length_le
  have hne : (split c s).map trimSpace ≠ [] := by simpa using split_ne_nil c s
  have hjoin := join_length (c := c) hne
  have hsplit := join_length (c := c) (split_ne_nil c s)
  rw [join_split] at hsplit
  omega

/- Trimming and dropping segments makes no key longer. -/
theorem validateStreamKey_length_le (key : Bytes) :
    (validateStreamKey key).length ≤ key.length := by
  unfold validateStreamKey
  by_cases hnil : segments key = []
  · rw [hnil]
    exact Nat.zero_le _
  · let clean := (trimSpace key).map fun b => if b = backslash then slash else b
    have hclean : clean.length ≤ key.length := by
      rw [List.length_map]
      exact (trimSpace_isInfix key).length_le
    have hkept : ((segments key).map fun p => p.length + 1).sum ≤
        (((split slash clean).map trimSpace).map fun p => p.length + 1).sum :=
      ((List.filter_sublist).map _).sum_le_sum fun _ _ => Nat.zero_le _
    have hne : (split slash clean).map trimSpace ≠ [] := by simpa using split_ne_nil slash clean
    have hjoin := join_length (c := slash) hnil
    have hall := join_length (c := slash) hne
    have htrim := join_trimmed_length_le slash clean
    omega

/- What the prefetcher does to a stream key it is given changes nothing. -/
theorem infer_stream {key streamKey : Bytes} {seqNum : Int64}
    (h : inferStreamFromChunkKey key = some (streamKey, seqNum)) :
    validateStreamKey streamKey = streamKey ∧ streamKey ≠ [] := by
  unfold inferStreamFromChunkKey at h
  split at h
  · cases h
  · simp only at h
    split at h
    · cases h
    · rename_i hne
      split at h
      · cases h
        exact ⟨validateStreamKey_idem _, hne⟩
      · cases h

example : inferStreamFromChunkKey (lit "live/stream1/segment_042.ts") =
    some (lit "live/stream1", 42) := by decide +kernel

/-! ### A name belongs to one stream and number -/

theorem slash_notMem_seq (n : Int64) : slash ∉ lit "seq_" ++ formatPadded 10 n := by
  intro hmem
  rcases List.mem_append.mp hmem with hmem | hmem
  · exact absurd hmem (by decide)
  · exact notMem_formatPadded (by decide) (by decide) 10 n hmem

theorem chunkCacheKey_eq (s : Bytes) (n : Int64) : chunkCacheKey s n =
    lit "stream/" ++ (s ++ slash :: (lit "seq_" ++ formatPadded 10 n)) := by
  simp [chunkCacheKey, lit, slash]

/-- The stream ends at the last slash, whatever slashes it has itself. -/
theorem chunkCacheKey_inj {s s' : Bytes} {n n' : Int64}
    (h : chunkCacheKey s n = chunkCacheKey s' n') : s = s' ∧ n = n' := by
  rw [chunkCacheKey_eq, chunkCacheKey_eq] at h
  obtain ⟨hs, hseq⟩ := append_cons_inj (slash_notMem_seq n) (slash_notMem_seq n')
    (List.append_cancel_left h)
  have hnum := List.append_cancel_left hseq
  exact ⟨hs, formatPadded_inj hnum⟩

/-- What is stored for a chunk names its stream and number, also where the stream key itself
has a `/seq_` in it: the search is for the last one, and no slash follows it. -/
theorem parseChunkKey_chunkCacheKey (s : Bytes) (n : Int64) :
    parseChunkKey (chunkCacheKey s n) = some (s, n) ∧
      ∀ s' n', chunkCacheKey s n = chunkCacheKey s' n' ↔ s = s' ∧ n = n' := by
  refine ⟨?_, fun s' n' => ⟨chunkCacheKey_inj, fun ⟨hs, hn⟩ => by rw [hs, hn]⟩⟩
  have hpre : hasPrefix (chunkCacheKey s n) (lit "stream/") = true := by
    rw [chunkCacheKey_eq]
    simp [hasPrefix]
  have hlast : lastIndex (lit "/seq_") (s ++ slash :: (lit "seq_" ++ formatPadded 10 n)) =
      some s.length := lastIndex_append s (slash_notMem_seq n)
  have htail : (s ++ slash :: (lit "seq_" ++ formatPadded 10 n)).drop
      (s.length + (lit "/seq_").length) = formatPadded 10 n := by
    rw [List.drop_append, List.drop_of_length_le (Nat.le_add_right _ _), Nat.add_sub_cancel_left]
    rfl
  unfold parseChunkKey
  rw [if_neg (by simp [hpre]), chunkCacheKey_eq, trimPrefix_append]
  simp only [hlast, htail, parseInt_formatPadded, List.take_left]

example : parseChunkKey (lit "stream/a/seq_/seq_-000000007") = some (lit "a/seq_", -7) := by
  decide +kernel

end EdgeDispatch.Streaming
