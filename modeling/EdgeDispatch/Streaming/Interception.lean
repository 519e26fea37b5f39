import EdgeDispatch.Streaming.Handler

/-! # Requests that the streaming handler takes over

The edge hands a request to the streaming handler if the key has the extension of a chunk or
a playlist (internal/edgeagent/server.go:365-369, 836-867). The handler then wants more of a
chunk's key: a stream, which is a directory, and a number in the file name
(internal/streaming/handler.go:65-110, window.go:200-232). -/

namespace EdgeDispatch.Streaming
open Lib.ByteString Lib.GoStrings Lib.GoStrconv

variable {σ : Type} {cfg : StreamingConfig}

/-! ### The edge's answer -/

structure ChunkResponse where
  status : ℕ
  contentType : Bytes
  xCache : Option Bytes
  contentLength : Option Bytes
  body : Bytes
  deriving DecidableEq

def serveStreamingResponse (served : Served) : ChunkResponse where
  status := 200
  contentType := lit "application/octet-stream"
  xCache := some (if served.fromCache then lit "HIT" else lit "MISS")
  contentLength := some (decimal served.data.length)
  body := served.data

def upstreamError : ChunkResponse :=
  ⟨502, lit "text/plain; charset=utf-8", none, none, lit "upstream error\n"⟩

/- The edge's `handleStreamingRequest` for a key that is no playlist. -/
def handleChunkRequest (c : CacheAccessor σ) (h : Handler σ cfg) (key : Bytes)
    (fetchFn : Bytes → Option Body) (drop : Bool) : Handler σ cfg × ChunkResponse :=
  match handleStreamingRequest c h key fetchFn drop with
  | (h, .error _) => (h, upstreamError)
  | (h, .ok served) => (h, serveStreamingResponse served)

/-! ### Keys that name a chunk -/

/-- The number that is read off a file name: its last part that is a number. -/
def Numbered (name : Bytes) (n : Int64) : Prop :=
  ∃ before part after, split underscore (stem name) = before ++ part :: after ∧
    parseInt part = some n ∧ ∀ p ∈ after, parseInt p = none

/-- A directory that something is left of, and a file name with a number. -/
def NamesChunk (key : Bytes) : Prop :=
  ∃ dir name n, key = dir ++ slash :: name ∧ slash ∉ name ∧ segments dir ≠ [] ∧
    Numbered name n ∧ 0 ≤ n

/-- A response that ends, with no more bytes than a chunk may have. -/
structure WithinLimit (body : Body) : Prop where
  whole : body.broken = false
  declared : body.contentLen ≤ maxStreamingChunkBytes
  length_le : body.data.length ≤ maxStreamingChunkBytes

theorem numbered_iff {name : Bytes} {n : Int64} :
    Numbered name n ↔ (split underscore (stem name)).reverse.findSome? parseInt = some n := by
  rw [List.findSome?_eq_some_iff]
  constructor
  · rintro ⟨before, part, after, hsplit, hpart, hafter⟩
    refine ⟨after.reverse, part, before.reverse, ?_, hpart, fun p hp => ?_⟩
    · rw [hsplit]
      simp
    · exact hafter p (List.mem_reverse.mp hp)
  · rintro ⟨after, part, before, hsplit, hpart, hafter⟩
    refine ⟨before.reverse, part, after.reverse, ?_, hpart, fun p hp => ?_⟩
    · rw [← List.reverse_reverse (split underscore (stem name)), hsplit]
      simp
    · exact hafter p (List.mem_reverse.mp hp)

theorem extractSeqNum_nonneg_iff {name : Bytes} :
    0 ≤ extractSeqNum (stem name) ↔ ∃ n, Numbered name n ∧ 0 ≤ n := by
  simp only [numbered_iff, extractSeqNum]
  cases (split underscore (stem name)).reverse.findSome? parseInt with
  | none => exact iff_of_false (by decide) (by simp)
  | some n => simp

theorem validateStreamKey_eq_nil_iff {dir : Bytes} :
    validateStreamKey dir = [] ↔ segments dir = [] := by
  constructor
  · intro hnil
    have hsegments : segments (validateStreamKey dir) = segments dir :=
      segments_join fun p hp => segment_of_mem hp
    rw [← hsegments, hnil]
    decide
  · intro hnil
    rw [validateStreamKey, hnil]
    rfl

theorem inferStreamFromChunkKey_append {dir name : Bytes} (h : slash ∉ name) :
    inferStreamFromChunkKey (dir ++ slash :: name) =
      if validateStreamKey dir = [] then none
      else if 0 ≤ extractSeqNum (stem name) then
        some (validateStreamKey dir, extractSeqNum (stem name))
      else none := by
  unfold inferStreamFromChunkKey
  rw [lastIndexByte_append dir h]
  simp

variable {key : Bytes} {fetchFn : Bytes → Option Body}

theorem inferStreamFromChunkKey_isSome_iff :
    (inferStreamFromChunkKey key).isSome ↔ NamesChunk key := by
  constructor
  · intro hsome
    cases hlast : lastIndexByte slash key with
    | none => simp [inferStreamFromChunkKey, hlast] at hsome
    | some i =>
      obtain ⟨dir, name, rfl, hname, -⟩ := lastIndexByte_eq_some hlast
      rw [inferStreamFromChunkKey_append hname] at hsome
      split at hsome
      · cases hsome
      · rename_i hdir
        split at hsome
        · rename_i hnumber
          obtain ⟨n, hn, hpos⟩ := extractSeqNum_nonneg_iff.mp hnumber
          exact ⟨dir, name, n, rfl, hname, validateStreamKey_eq_nil_iff.not.mp hdir, hn, hpos⟩
        · cases hsome
  · rintro ⟨dir, name, n, rfl, hname, hdir, hn, hpos⟩
    have hnumber := extractSeqNum_nonneg_iff.mpr ⟨n, hn, hpos⟩
    rw [inferStreamFromChunkKey_append hname, if_neg (validateStreamKey_eq_nil_iff.not.mpr hdir),
      if_pos hnumber]
    rfl

/-! ### Which objects get through -/

/- A chunk that is not cached is passed on as it was fetched. -/
theorem serveFromOrigin_within {c : CacheAccessor σ} {body : Body}
    (hfetch : fetchFn key = some body) (hbody : WithinLimit body) (h : Handler σ cfg)
    (streamKey : Bytes) (seqNum : Int64) (drop : Bool) :
    (serveFromOrigin c h key streamKey seqNum fetchFn drop).2 =
      .ok ⟨body.data, body.data.length, false⟩ := by
  obtain ⟨contentLen, data, broken⟩ := body
  obtain ⟨rfl, hdeclared, hlen⟩ := hbody
  unfold serveFromOrigin
  rw [hfetch]
  simp only [if_neg (not_lt.mpr hdeclared), readLimited_whole hlen]

theorem handleStreamingRequest_chunk (c : CacheAccessor σ) (h : Handler σ cfg) {body : Body}
    (hfetch : fetchFn key = some body) (hbody : WithinLimit body) {stream : Bytes} {n : Int64}
    (hinfer : inferStreamFromChunkKey key = some (stream, n)) (drop : Bool) :
    ∃ served, (handleStreamingRequest c h key fetchFn drop).2 = .ok served ∧
      served.fromCache = (getChunk c h.window stream n).2.isSome ∧
      served.data = (getChunk c h.window stream n).2.getD body.data := by
  unfold handleStreamingRequest
  simp only [hinfer]
  cases (getChunk c h.window stream n).2 with
  | some data => exact ⟨_, rfl, rfl, rfl⟩
  | none => exact ⟨_, serveFromOrigin_within hfetch hbody _ _ _ _, rfl, rfl⟩

/-- When the origin's answer is one that may be passed on, the handler answers just if the key
names a chunk: with the chunk that the window has, and otherwise with that answer. -/
theorem streaming_request_served_iff (c : CacheAccessor σ) (h : Handler σ cfg) (key : Bytes)
    (fetchFn : Bytes → Option Body) (drop : Bool) (body : Body) (hfetch : fetchFn key = some body)
    (hbody : WithinLimit body) :
    ((∃ served, (handleStreamingRequest c h key fetchFn drop).2 = .ok served ∧
        (served.fromCache = true ∨ served.data = body.data)) ↔
      NamesChunk key) ∧
    ∀ stream n, inferStreamFromChunkKey key = some (stream, n) →
      ∃ served, (handleStreamingRequest c h key fetchFn drop).2 = .ok served ∧
        served.fromCache = (getChunk c h.window stream n).2.isSome ∧
        served.data = (getChunk c h.window stream n).2.getD body.data := by
  have hchunk (stream : Bytes) (n : Int64)
      (hinfer : inferStreamFromChunkKey key = some (stream, n)) :=
    handleStreamingRequest_chunk c h hfetch hbody hinfer drop
  refine ⟨?_, hchunk⟩
  rw [← inferStreamFromChunkKey_isSome_iff]
  cases hinfer : inferStreamFromChunkKey key with
  | none => simp [handleStreamingRequest, hinfer]
  | some chunk =>
    refine iff_of_true ?_ rfl
    obtain ⟨served, hok, hcache, hdata⟩ := hchunk chunk.1 chunk.2 hinfer
    refine ⟨served, hok, ?_⟩
    rw [hcache, hdata]
    cases (getChunk c h.window chunk.1 chunk.2).2 with
    | some data => exact Or.inl rfl
    | none => exact Or.inr rfl

/- Otherwise it does nothing, -/
theorem handleStreamingRequest_refused (c : CacheAccessor σ) (h : Handler σ cfg)
    (fetchFn : Bytes → Option Body) (drop : Bool) (hno : ¬ NamesChunk key) :
    handleStreamingRequest c h key fetchFn drop = (h, .error (.notChunk key)) := by
  have hnone : inferStreamFromChunkKey key = none := by
    rw [← inferStreamFromChunkKey_isSome_iff] at hno
    simpa using hno
  simp [handleStreamingRequest, hnone]

/- and the client is told that the origin failed. -/
theorem handleChunkRequest_refused (c : CacheAccessor σ) (h : Handler σ cfg)
    (fetchFn : Bytes → Option Body) (drop : Bool) (hno : ¬ NamesChunk key) :
    handleChunkRequest c h key fetchFn drop = (h, upstreamError) := by
  rw [handleChunkRequest, handleStreamingRequest_refused c h fetchFn drop hno]

/- An origin that has the bytes of a film under every key. -/
def filmOrigin : Bytes → Option Body := fun _ => some ⟨4, lit "film", false⟩

theorem filmOrigin_within : WithinLimit ⟨4, lit "film", false⟩ :=
  ⟨rfl, by decide, by decide⟩

def noPrefetch : StreamingConfig := ⟨true, 0, 10, 1⟩

def filmHandler : Handler (Bytes → Option Bytes) noPrefetch := newHandler noPrefetch fun _ => none

/- A key without a directory, and a key without a number. -/
theorem claimed_keys_refused :
    (isStreamingRequest (lit "movie.ts") = true ∧ isManifestRequest (lit "movie.ts") = false ∧
      filmOrigin (lit "movie.ts") = some ⟨4, lit "film", false⟩ ∧
      handleStreamingRequest keeping filmHandler (lit "movie.ts") filmOrigin false =
        (filmHandler, .error (.notChunk (lit "movie.ts"))) ∧
      handleChunkRequest keeping filmHandler (lit "movie.ts") filmOrigin false =
        (filmHandler, upstreamError)) ∧
    isStreamingRequest (lit "live/intro.ts") = true ∧
      isManifestRequest (lit "live/intro.ts") = false ∧
      filmOrigin (lit "live/intro.ts") = some ⟨4, lit "film", false⟩ ∧
      handleStreamingRequest keeping filmHandler (lit "live/intro.ts") filmOrigin false =
        (filmHandler, .error (.notChunk (lit "live/intro.ts"))) ∧
      handleChunkRequest keeping filmHandler (lit "live/intro.ts") filmOrigin false =
        (filmHandler, upstreamError) := by
  have hmovie : ¬ NamesChunk (lit "movie.ts") :=
    inferStreamFromChunkKey_isSome_iff.not.mp (by decide +kernel)
  have hintro : ¬ NamesChunk (lit "live/intro.ts") :=
    inferStreamFromChunkKey_isSome_iff.not.mp (by decide +kernel)
  constructor
  · exact ⟨by decide +kernel, by decide +kernel, rfl,
      handleStreamingRequest_refused _ _ _ _ hmovie, handleChunkRequest_refused _ _ _ _ hmovie⟩
  · exact ⟨by decide +kernel, by decide +kernel, rfl,
      handleStreamingRequest_refused _ _ _ _ hintro, handleChunkRequest_refused _ _ _ _ hintro⟩

theorem streaming_request_served_of_segment :
    filmOrigin (lit "live/seg_7.ts") = some ⟨4, lit "film", false⟩ ∧
      WithinLimit ⟨4, lit "film", false⟩ ∧ NamesChunk (lit "live/seg_7.ts") := by
  refine ⟨rfl, filmOrigin_within, ?_⟩
  refine (streaming_request_served_iff keeping filmHandler (lit "live/seg_7.ts") filmOrigin false
    ⟨4, lit "film", false⟩ rfl filmOrigin_within).1.mp ⟨⟨lit "film", 4, false⟩, ?_, Or.inr rfl⟩
  rfl

end EdgeDispatch.Streaming
