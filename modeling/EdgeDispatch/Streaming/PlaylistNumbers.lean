import EdgeDispatch.Lib.GoInt64
import EdgeDispatch.Streaming.Manifest

/-! # How the chunks of a playlist are numbered (internal/streaming/manifest.go:17-67)

`ParseHLSManifest` counts on from the last `#EXT-X-MEDIA-SEQUENCE` tag that it has read,
and reports the last one of the whole playlist. -/

namespace EdgeDispatch.Streaming
open Lib.ByteString Lib.GoStrings Lib.GoStrconv
open Lib.GoInt64

/-! ### Lines, trimmed -/

def playlistLines (data : Bytes) : List Bytes := (scanLines data).map trimSpace

def isChunkLine (line : Bytes) : Bool := line ≠ [] ∧ hasPrefix line (lit "#") = false

/- The number on a tag, if it can be read. -/
def tagValue (line : Bytes) : Option Int64 :=
  if hasPrefix line mediaSequence then parseInt (trimPrefix line mediaSequence) else none

def lastTag (lines : List Bytes) : Int64 := (lines.reverse.findSome? tagValue).getD 0

/- The chunks after the last tag. -/
def chunksSinceTag (lines : List Bytes) : ℕ :=
  (lines.reverse.takeWhile fun line => (tagValue line).isNone).countP isChunkLine

/- The number that a chunk gets after `lines`. -/
def nextNumber (lines : List Bytes) : Int64 := lastTag lines + Int64.ofNat (chunksSinceTag lines)

theorem lastTag_concat (lines : List Bytes) (line : Bytes) :
    lastTag (lines ++ [line]) = (tagValue line).getD (lastTag lines) := by
  cases htag : tagValue line with
  | none => simp [lastTag, htag]
  | some v => simp [lastTag, htag]

theorem chunksSinceTag_concat (lines : List Bytes) (line : Bytes) :
    chunksSinceTag (lines ++ [line]) =
      if (tagValue line).isSome then 0
      else chunksSinceTag lines + if isChunkLine line then 1 else 0 := by
  cases htag : tagValue line with
  | none => simp [chunksSinceTag, htag, List.countP_cons]
  | some v => simp [chunksSinceTag, htag]

variable {line : Bytes} {lines : List Bytes}

/- A tag is no chunk. -/
theorem tagValue_of_isChunkLine (h : isChunkLine line = true) : tagValue line = none := by
  simp only [isChunkLine, decide_eq_true_eq] at h
  refine if_neg fun hpre => ?_
  obtain ⟨rest, rfl⟩ := List.isPrefixOf_iff_prefix.mp hpre
  exact absurd h.2 (by simp [hasPrefix, mediaSequence, lit])

theorem nextNumber_chunk (h : isChunkLine line = true) (lines : List Bytes) :
    nextNumber (lines ++ [line]) = nextNumber lines + 1 := by
  have htag := tagValue_of_isChunkLine h
  rw [nextNumber, lastTag_concat, chunksSinceTag_concat, htag, h]
  simp only [Option.getD_none, Option.isSome_none, Bool.false_eq_true, if_false, if_true, nextNumber]
  exact add_ofNat_succ _ _

theorem nextNumber_tag (h : isChunkLine line = false) (lines : List Bytes) :
    nextNumber (lines ++ [line]) = (tagValue line).getD (nextNumber lines) := by
  rw [nextNumber, lastTag_concat, chunksSinceTag_concat, h]
  cases htag : tagValue line with
  | none => simp [nextNumber]
  | some v => simp

/-! ### One line -/

theorem parseLine_chunk (h : isChunkLine (trimSpace line) = true) (state : ManifestInfo × Int64) :
    parseLine state line =
      ({ state.1 with
          chunks := state.1.chunks ++ [⟨⟨state.1.streamKey, state.2⟩, trimSpace line⟩] },
        state.2 + 1) := by
  simp only [isChunkLine, decide_eq_true_eq] at h
  unfold parseLine
  simp only
  rw [if_neg (by simp [h.1, h.2])]

/- A line that is no chunk changes no chunk, and its number is the next one if it has one. -/
theorem parseLine_tag (h : isChunkLine (trimSpace line) = false) (state : ManifestInfo × Int64) :
    (parseLine state line).1.chunks = state.1.chunks ∧
      (parseLine state line).1.streamKey = state.1.streamKey ∧
      (parseLine state line).1.medSeq = (tagValue (trimSpace line)).getD state.1.medSeq ∧
      (parseLine state line).2 = (tagValue (trimSpace line)).getD state.2 := by
  have hread : (readMediaSequence state (trimSpace line)).1.chunks = state.1.chunks ∧
      (readMediaSequence state (trimSpace line)).1.streamKey = state.1.streamKey ∧
      (readMediaSequence state (trimSpace line)).1.medSeq =
        (tagValue (trimSpace line)).getD state.1.medSeq ∧
      (readMediaSequence state (trimSpace line)).2 = (tagValue (trimSpace line)).getD state.2 := by
    unfold readMediaSequence tagValue
    split
    · cases parseInt (trimPrefix (trimSpace line) mediaSequence) with
      | none => exact ⟨rfl, rfl, rfl, rfl⟩
      | some v => exact ⟨rfl, rfl, rfl, rfl⟩
    · exact ⟨rfl, rfl, rfl, rfl⟩
  have hskip : trimSpace line = [] ∨ hasPrefix (trimSpace line) (lit "#") = true := by
    simp only [isChunkLine, decide_eq_false_iff_not, not_and_or, not_not, Bool.not_eq_false] at h
    exact h
  unfold parseLine
  simp only
  rw [if_pos hskip]
  split
  · exact hread
  · exact hread

/-! ### The whole playlist -/

/-- What the scan knows after `lines`. -/
structure Scanned (streamKey : Bytes) (lines : List Bytes) (state : ManifestInfo × Int64) :
    Prop where
  key_eq : state.1.streamKey = streamKey
  next : state.2 = nextNumber lines
  medSeq : state.1.medSeq = lastTag lines
  urls : state.1.chunks.map ManifestChunk.url = lines.filter isChunkLine
  numbers : ∀ before line after, lines = before ++ line :: after → isChunkLine line = true →
    state.1.chunks[before.countP isChunkLine]? = some ⟨⟨streamKey, nextNumber before⟩, line⟩

theorem concat_eq_append_cons {α : Type} {xs before after : List α} {x y : α}
    (h : xs ++ [x] = before ++ y :: after) :
    (xs = before ∧ x = y ∧ after = []) ∨ ∃ rest, after = rest ++ [x] ∧ xs = before ++ y :: rest := by
  rcases List.eq_nil_or_concat after with rfl | ⟨rest, z, rfl⟩
  · obtain ⟨hxs, hx⟩ := List.append_inj' h rfl
    exact Or.inl ⟨hxs, List.singleton_inj.mp hx, rfl⟩
  · rw [List.concat_eq_append, ← List.cons_append, ← List.append_assoc] at h
    obtain ⟨hxs, hx⟩ := List.append_inj' h rfl
    cases List.singleton_inj.mp hx
    exact Or.inr ⟨rest, List.concat_eq_append, hxs⟩

section
variable {streamKey : Bytes} {lines : List Bytes} {state : ManifestInfo × Int64}

theorem Scanned.length (h : Scanned streamKey lines state) :
    state.1.chunks.length = lines.countP isChunkLine := by
  rw [← List.length_map (f := ManifestChunk.url), h.urls, List.countP_eq_length_filter]

theorem Scanned.chunk (h : Scanned streamKey lines state) {line : Bytes}
    (hchunk : isChunkLine (trimSpace line) = true) :
    Scanned streamKey (lines ++ [trimSpace line]) (parseLine state line) := by
  rw [parseLine_chunk hchunk]
  refine ⟨h.key_eq, ?_, ?_, ?_, fun before line' after heq hline' => ?_⟩
  · rw [nextNumber_chunk hchunk, ← h.next]
  · rw [lastTag_concat, tagValue_of_isChunkLine hchunk]
    exact h.medSeq
  · simp [h.urls, hchunk]
  · rcases concat_eq_append_cons heq with ⟨rfl, rfl, rfl⟩ | ⟨rest, rfl, hlines⟩
    · rw [← h.length, List.getElem?_append_right (le_refl _), Nat.sub_self, h.key_eq, h.next]
      rfl
    · have hold := h.numbers before line' rest hlines hline'
      obtain ⟨hlt, -⟩ := List.getElem?_eq_some_iff.mp hold
      rw [List.getElem?_append_left hlt, hold]

theorem Scanned.tag (h : Scanned streamKey lines state) {line : Bytes}
    (htag : isChunkLine (trimSpace line) = false) :
    Scanned streamKey (lines ++ [trimSpace line]) (parseLine state line) := by
  obtain ⟨hchunks, hkey, hmedSeq, hnext⟩ := parseLine_tag htag state
  refine ⟨hkey.trans h.key_eq, ?_, ?_, ?_, fun before line' after heq hline' => ?_⟩
  · rw [hnext, nextNumber_tag htag, h.next]
  · rw [hmedSeq, lastTag_concat, h.medSeq]
  · rw [hchunks, h.urls, List.filter_append]
    simp [htag]
  · rw [hchunks]
    rcases concat_eq_append_cons heq with ⟨rfl, rfl, rfl⟩ | ⟨rest, rfl, hlines⟩
    · rw [htag] at hline'
      cases hline'
    · exact h.numbers before line' rest hlines hline'

theorem scanned (streamKey : Bytes) (lines : List Bytes) :
    Scanned streamKey (lines.map trimSpace)
      (lines.foldl parseLine (⟨⟨streamKey, []⟩, false, 0⟩, 0)) := by
  induction lines using List.reverseRecOn with
  | nil => exact ⟨rfl, rfl, rfl, rfl, fun before line after heq => by simp at heq⟩
  | append_singleton lines line ih =>
    rw [List.map_append, List.map_singleton, List.foldl_append, List.foldl_cons, List.foldl_nil]
    cases hchunk : isChunkLine (trimSpace line) with
    | true => exact ih.chunk hchunk
    | false => exact ih.tag hchunk

theorem parseHLSManifest_scanned {streamKey data : Bytes} {m : ManifestInfo}
    (h : parseHLSManifest streamKey data = .ok m) :
    ∃ next, Scanned streamKey (playlistLines data) (m, next) := by
  unfold parseHLSManifest at h
  split at h
  · cases h
  · cases h
    exact ⟨_, scanned streamKey (scanLines data)⟩

end

/-! ### Tags before the first chunk -/

/-- All tags stand before the first chunk, as the format wants it. -/
def TagsFirst (lines : List Bytes) : Prop :=
  ∀ before line after, lines = before ++ line :: after → isChunkLine line = true →
    ∀ line' ∈ after, tagValue line' = none

theorem TagsFirst.init {more : List Bytes} (h : TagsFirst (lines ++ more)) : TagsFirst lines := by
  intro before line after heq hline line' hline'
  refine h before line (after ++ more) ?_ hline line' (List.mem_append_left more hline')
  rw [heq, List.append_assoc, List.cons_append]

/- A tag that is read comes after no chunk. -/
theorem TagsFirst.countP_eq_zero {tag : Bytes} (h : TagsFirst (lines ++ [tag]))
    (htag : tagValue tag ≠ none) : lines.countP isChunkLine = 0 := by
  rw [List.countP_eq_zero]
  intro line hline hchunk
  obtain ⟨before, after, rfl⟩ := List.append_of_mem hline
  refine htag (h before line (after ++ [tag]) ?_ hchunk tag (by simp))
  rw [List.append_assoc, List.cons_append]

theorem nextNumber_of_tagsFirst (h : TagsFirst lines) :
    nextNumber lines = lastTag lines + Int64.ofNat (lines.countP isChunkLine) := by
  induction lines using List.reverseRecOn with
  | nil => rfl
  | append_singleton lines line ih =>
    have hlines := ih h.init
    rw [lastTag_concat, List.countP_append, List.countP_singleton]
    cases hchunk : isChunkLine line with
    | true =>
      rw [nextNumber_chunk hchunk, tagValue_of_isChunkLine hchunk, hlines]
      simp only [Option.getD_none, if_true]
      exact (add_ofNat_succ _ _).symm
    | false =>
      rw [nextNumber_tag hchunk]
      cases htag : tagValue line with
      | none => simpa using hlines
      | some v => simp [h.countP_eq_zero (by simp [htag])]

theorem lastTag_append {before after : List Bytes} (h : ∀ line ∈ after, tagValue line = none) :
    lastTag (before ++ after) = lastTag before := by
  have hnone : after.reverse.findSome? tagValue = none := by
    rw [List.findSome?_eq_none_iff]
    exact fun line hline => h line (List.mem_reverse.mp hline)
  rw [lastTag, List.reverse_append, List.findSome?_append, hnone]
  rfl

/- Where a chunk of the list comes from. -/
theorem exists_of_getElem?_filter {α : Type} {p : α → Bool} {xs : List α} {i : ℕ} {x : α}
    (h : (xs.filter p)[i]? = some x) :
    ∃ before after, xs = before ++ x :: after ∧ p x = true ∧ before.countP p = i := by
  induction xs generalizing i with
  | nil => simp at h
  | cons y ys ih =>
    by_cases hy : p y = true
    · rw [List.filter_cons_of_pos hy] at h
      cases i with
      | zero =>
        cases h
        exact ⟨[], ys, rfl, hy, rfl⟩
      | succ i =>
        obtain ⟨before, after, rfl, hx, hcount⟩ := ih h
        exact ⟨y :: before, after, rfl, hx, by rw [List.countP_cons_of_pos hy, hcount]⟩
    · rw [List.filter_cons_of_neg hy] at h
      obtain ⟨before, after, rfl, hx, hcount⟩ := ih h
      exact ⟨y :: before, after, rfl, hx, by rw [List.countP_cons_of_neg hy, hcount]⟩

/-- The chunks are the lines that are neither empty nor comments. Each has the number of the
last tag before it, plus the chunks between that tag and itself; MedSeq is the last tag of
all. With the tags first these are the numbers from MedSeq on. -/
theorem playlist_numbers {streamKey data : Bytes} {m : ManifestInfo}
    (h : parseHLSManifest streamKey data = .ok m) :
    m.chunks.map ManifestChunk.url = (playlistLines data).filter isChunkLine ∧
      m.medSeq = lastTag (playlistLines data) ∧
      (∀ before line after, playlistLines data = before ++ line :: after →
        isChunkLine line = true →
        m.chunks[before.countP isChunkLine]? = some ⟨⟨streamKey, nextNumber before⟩, line⟩) ∧
      (TagsFirst (playlistLines data) → ∀ i chunk, m.chunks[i]? = some chunk →
        chunk.seqNum = m.medSeq + Int64.ofNat i) := by
  obtain ⟨next, hscanned⟩ := parseHLSManifest_scanned h
  refine ⟨hscanned.urls, hscanned.medSeq, hscanned.numbers, fun hfirst i chunk hchunk => ?_⟩
  have hurl : ((playlistLines data).filter isChunkLine)[i]? = some chunk.url := by
    rw [← hscanned.urls, List.getElem?_map, hchunk]
    rfl
  obtain ⟨before, after, hlines, hline, rfl⟩ := exists_of_getElem?_filter hurl
  have hnumber := hscanned.numbers before chunk.url after hlines hline
  have hseq : chunk.seqNum = nextNumber before :=
    congrArg (fun c : ManifestChunk => c.seqNum) (Option.some.inj (hchunk.symm.trans hnumber))
  have hbefore : TagsFirst before := TagsFirst.init (hlines ▸ hfirst)
  have hlast : lastTag (playlistLines data) = lastTag before := by
    rw [hlines]
    refine lastTag_append fun line' hline' => ?_
    rcases List.mem_cons.mp hline' with rfl | hline'
    · exact tagValue_of_isChunkLine hline
    · exact hfirst before chunk.url after hlines hline line' hline'
  calc chunk.seqNum = nextNumber before := hseq
    _ = lastTag before + Int64.ofNat (before.countP isChunkLine) := nextNumber_of_tagsFirst hbefore
    _ = m.medSeq + Int64.ofNat (before.countP isChunkLine) := by rw [hscanned.medSeq, hlast]

def taggedPlaylist : Bytes := lit "#EXTM3U\n#EXT-X-MEDIA-SEQUENCE:7\r\n\n a.ts \nb.ts\n"

theorem playlist_numbers_of_tagged :
    (parseHLSManifest (lit "live") taggedPlaylist).toOption =
        some ⟨⟨lit "live", [⟨⟨lit "live", 7⟩, lit "a.ts"⟩, ⟨⟨lit "live", 8⟩, lit "b.ts"⟩]⟩, false, 7⟩ ∧
      lastTag (playlistLines taggedPlaylist) = 7 := by
  have hparse : parseHLSManifest (lit "live") taggedPlaylist = .ok
      ⟨⟨lit "live", [⟨⟨lit "live", 7⟩, lit "a.ts"⟩, ⟨⟨lit "live", 8⟩, lit "b.ts"⟩]⟩, false, 7⟩ := by
    rfl
  exact ⟨by rw [hparse]; rfl, (playlist_numbers hparse).2.1.symm⟩

/- A tag after the first chunk: MedSeq is 5, and the first chunk is number 0. -/
theorem late_tag_renumbers :
    (parseHLSManifest (lit "live") (lit "a.ts\n#EXT-X-MEDIA-SEQUENCE:5\nb.ts\n")).toOption =
      some ⟨⟨lit "live", [⟨⟨lit "live", 0⟩, lit "a.ts"⟩, ⟨⟨lit "live", 5⟩, lit "b.ts"⟩]⟩, false, 5⟩ :=
  by decide +kernel

end EdgeDispatch.Streaming
