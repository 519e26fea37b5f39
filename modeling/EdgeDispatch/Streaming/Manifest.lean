import EdgeDispatch.Streaming.Handler

/-! # Prefetching from a playlist (internal/streaming/manifest.go:17-67, prefetch.go:113-293)

`HandleManifestRequest` parses an HLS playlist under the playlist's own key, and
`OnManifestUpdate` queues the chunks after its last one. Players ask for segments by
file name. -/

namespace EdgeDispatch.Streaming
open Lib.ByteString Lib.GoStrings Lib.GoStrconv

/-! ### The playlist -/

structure ManifestChunk extends ChunkInfo where
  url : Bytes
  deriving DecidableEq

/-- models.ManifestInfo, as far as the parsers of both formats fill it in. -/
structure Manifest (χ : Type) where
  streamKey : Bytes
  chunks : List χ
  deriving DecidableEq

structure ManifestInfo extends Manifest ManifestChunk where
  endlist : Bool
  medSeq : Int64
  deriving DecidableEq

inductive ScanError where
  | tooLong -- scan m3u8: bufio.Scanner: token too long
  deriving DecidableEq

def newline : Byte := 10
def maxLineBytes : ℕ := 64 * 1024 - 1

/- `bufio.ScanLines`; the carriage return that it drops would be trimmed anyway. -/
def scanLines (data : Bytes) : List Bytes :=
  let lines := split newline data
  if lines.getLast? = some [] then lines.dropLast else lines

def mediaSequence : Bytes := lit "#EXT-X-MEDIA-SEQUENCE:"

/- The loop's state is the manifest and `medSeq`, the number of the next segment. -/
def readMediaSequence (state : ManifestInfo × Int64) (line : Bytes) : ManifestInfo × Int64 :=
  if hasPrefix line mediaSequence then
    match parseInt (trimPrefix line mediaSequence) with
    | some s => ({ state.1 with medSeq := s }, s)
    | none => state
  else state

def parseLine (state : ManifestInfo × Int64) (line : Bytes) : ManifestInfo × Int64 :=
  let line := trimSpace line
  if line = [] ∨ hasPrefix line (lit "#") = true then
    let (m, medSeq) := readMediaSequence state line
    if line = lit "#EXT-X-ENDLIST" then ({ m with endlist := true }, medSeq) else (m, medSeq)
  else
    let (m, medSeq) := state
    ({ m with chunks := m.chunks ++ [⟨⟨m.streamKey, medSeq⟩, line⟩] }, medSeq + 1)

def parseHLSManifest (streamKey data : Bytes) : Except ScanError ManifestInfo :=
  if (scanLines data).any fun line => maxLineBytes < line.length then .error .tooLong
  else .ok ((scanLines data).foldl parseLine (⟨⟨streamKey, []⟩, false, 0⟩, 0)).1

theorem readMediaSequence_streamKey (state : ManifestInfo × Int64) (line : Bytes) :
    (readMediaSequence state line).1.streamKey = state.1.streamKey := by
  unfold readMediaSequence
  split
  · split
    · rfl
    · rfl
  · rfl

theorem parseLine_streamKey (state : ManifestInfo × Int64) (line : Bytes) :
    (parseLine state line).1.streamKey = state.1.streamKey := by
  unfold parseLine
  simp only
  split
  · split
    · exact readMediaSequence_streamKey state _
    · exact readMediaSequence_streamKey state _
  · rfl

theorem parseLines_streamKey (lines : List Bytes) (state : ManifestInfo × Int64) :
    (lines.foldl parseLine state).1.streamKey = state.1.streamKey := by
  induction lines generalizing state with
  | nil => rfl
  | cons line lines ih => exact (ih _).trans (parseLine_streamKey state line)

theorem parseHLSManifest_streamKey {streamKey data : Bytes} {m : ManifestInfo}
    (h : parseHLSManifest streamKey data = .ok m) : m.streamKey = streamKey := by
  unfold parseHLSManifest at h
  split at h
  · cases h
  · cases h
    exact parseLines_streamKey _ _

example : (parseHLSManifest (lit "live/test") (lit
    "#EXTM3U\n#EXT-X-MEDIA-SEQUENCE:7\n#EXTINF:10.0,\nsegment_000.ts\n#EXT-X-ENDLIST\n")).toOption =
    some ⟨⟨lit "live/test", [⟨⟨lit "live/test", 7⟩, lit "segment_000.ts"⟩]⟩, true, 7⟩ := by
  decide +kernel

/-! ### What is queued -/

variable {σ : Type} {cfg : StreamingConfig}

/- A negative count makes `make` panic; nothing is queued then either. -/
def onManifestUpdate (c : CacheAccessor σ) (h : Handler σ cfg) (m : ManifestInfo) (drop : Bool) :
    Handler σ cfg :=
  if cfg.enabled = false then h
  else
    match m.chunks.getLast? with
    | none => h
    | some last => h.enqueue (wanted c cfg h.window m.streamKey last.seqNum) drop

/- The HLS case of `HandleManifestRequest`. -/
def handleHLSManifest (c : CacheAccessor σ) (h : Handler σ cfg) (key data : Bytes) (drop : Bool) :
    Handler σ cfg :=
  match parseHLSManifest key data with
  | .error _ => h
  | .ok m => onManifestUpdate c h m drop

/- The jobs that a call has put into the queue. -/
def newJobs (h h' : Handler σ cfg) : List (List ChunkInfo) :=
  h'.prefetch.queue.drop h.prefetch.queue.length

/-- A queued chunk under the stream and number that a request for one of the segments looks
up, and with that segment's bytes if it is cached at all. -/
def Demanded (origin : Bytes → Bytes) (keys : Set Bytes) (chunk : ChunkInfo) : Prop :=
  ∃ key ∈ keys, inferStreamFromChunkKey key = some (chunk.streamKey, chunk.seqNum) ∧
    ∀ (fetch : Fetch) (data : Bytes), download (fetch.response origin) chunk = some data →
      data ≠ [] → data = origin key

/-- All that is queued for a stream with these segment keys is asked for: by its playlist,
and by requests for its segments. -/
structure PrefetchMatches (c : CacheAccessor σ) (h : Handler σ cfg) (origin : Bytes → Bytes)
    (keys : Set Bytes) (manifestKey data : Bytes) : Prop where
  manifest : ∀ drop, ∀ job ∈ newJobs h (handleHLSManifest c h manifestKey data drop),
    ∀ chunk ∈ job, Demanded origin keys chunk
  request : ∀ key ∈ keys, ∀ streamKey seqNum,
    inferStreamFromChunkKey key = some (streamKey, seqNum) →
    ∀ drop, ∀ job ∈ newJobs h (onChunkRequest c h streamKey seqNum drop),
      ∀ chunk ∈ job, Demanded origin keys chunk

/-- A segment has this stream and number, and the origin serves its bytes also under the
name of the chunk. -/
def Mirrored (origin : Bytes → Bytes) (keys : Set Bytes) (streamKey : Bytes) (seqNum : Int64) :
    Prop :=
  ∃ key ∈ keys, inferStreamFromChunkKey key = some (streamKey, seqNum) ∧
    (Cacheable (origin (chunkCacheKey streamKey seqNum)) →
      origin (chunkCacheKey streamKey seqNum) = origin key)

variable {c : CacheAccessor σ} {h : Handler σ cfg} {origin : Bytes → Bytes} {keys : Set Bytes}

theorem demanded_iff (streamKey : Bytes) (seqNum : Int64) :
    Demanded origin keys ⟨streamKey, seqNum⟩ ↔ Mirrored origin keys streamKey seqNum := by
  constructor
  · rintro ⟨key, hkey, hinfer, hbytes⟩
    obtain ⟨hvalid, hne⟩ := infer_stream hinfer
    refine ⟨key, hkey, hinfer, fun hcacheable => ?_⟩
    exact hbytes (.body (-1)) _ (download_whole hvalid hne hcacheable.2)
      (List.ne_nil_of_length_pos hcacheable.1)
  · rintro ⟨key, hkey, hinfer, hbytes⟩
    obtain ⟨hvalid, -⟩ := infer_stream hinfer
    refine ⟨key, hkey, hinfer, fun fetch data hdata hnil => ?_⟩
    obtain ⟨rfl, hlen⟩ := download_eq_some hvalid hdata
    exact hbytes ⟨List.length_pos_iff.mpr hnil, hlen⟩

theorem newJobs_self (h : Handler σ cfg) : newJobs h h = [] := List.drop_length

/- Whatever the `select` does, chunks are queued only while there is room. -/
theorem enqueue_all (h : Handler σ cfg) (chunks : List ChunkInfo) (P : ChunkInfo → Prop) :
    (∀ drop, ∀ job ∈ newJobs h (h.enqueue chunks drop), ∀ chunk ∈ job, P chunk) ↔
      (h.prefetch.queue.length < queueCap → ∀ chunk ∈ chunks, P chunk) := by
  constructor
  · intro hall hroom chunk hchunk
    refine hall false chunks ?_ chunk hchunk
    have hsend : h.prefetch.send chunks false =
        { h.prefetch with queue := h.prefetch.queue ++ [chunks] } := by
      simp [PrefetchManager.send, hroom]
    have hqueue : (h.enqueue chunks false).prefetch.queue = h.prefetch.queue ++ [chunks] := by
      rw [Handler.enqueue, if_neg (List.ne_nil_of_mem hchunk), hsend]
    rw [newJobs, hqueue, List.drop_left]
    exact List.mem_cons_self ..
  · intro hall drop job hjob chunk hchunk
    unfold Handler.enqueue at hjob
    split at hjob
    · rw [newJobs_self] at hjob
      cases hjob
    · unfold newJobs PrefetchManager.send at hjob
      simp only at hjob
      split at hjob
      · rename_i hroom
        rw [List.drop_left, List.mem_singleton] at hjob
        exact hall hroom.1 chunk (hjob ▸ hchunk)
      · rw [List.drop_length] at hjob
        cases hjob

/- A request for a segment passes the checks of its stream key. -/
theorem onChunkRequest_enqueue {key streamKey : Bytes} {seqNum : Int64}
    (hinfer : inferStreamFromChunkKey key = some (streamKey, seqNum)) (drop : Bool) :
    onChunkRequest c h streamKey seqNum drop =
      if cfg.enabled = false then h
      else h.enqueue (wanted c cfg h.window streamKey seqNum) drop := by
  obtain ⟨hvalid, hne⟩ := infer_stream hinfer
  unfold onChunkRequest Handler.enqueue
  by_cases hon : cfg.enabled = false
  · rw [if_pos (.inl hon), if_pos hon]
  · rw [if_neg hon]
    by_cases hcount : cfg.prefetchCount ≤ 0
    · rw [if_pos (.inr hcount), if_pos (wanted_of_count c h.window streamKey seqNum hcount)]
    · rw [if_neg (not_or.mpr ⟨hon, hcount⟩)]
      simp only [hvalid, hne, if_false]

/-- What is queued after `seqNum` is what is missing of the numbers that follow. -/
theorem enqueue_wanted_all (streamKey : Bytes) (seqNum : Int64) (P : ChunkInfo → Prop) :
    (∀ drop, ∀ job ∈ newJobs h (h.enqueue (wanted c cfg h.window streamKey seqNum) drop),
      ∀ chunk ∈ job, P chunk) ↔
      (h.prefetch.queue.length < queueCap → ∀ n ∈ cfg.following seqNum,
        hasChunk c h.window streamKey n = false → P ⟨streamKey, n⟩) := by
  rw [enqueue_all]
  refine imp_congr_right fun _ => ?_
  constructor
  · intro hall n hn hmiss
    exact hall _ (List.mem_map.mpr ⟨n, List.mem_filter.mpr ⟨hn, by simp [hmiss]⟩, rfl⟩)
  · intro hall chunk hchunk
    obtain ⟨n, hn, rfl⟩ := List.mem_map.mp hchunk
    obtain ⟨hn, hmiss⟩ := List.mem_filter.mp hn
    exact hall n hn (by simpa using hmiss)

theorem handleHLSManifest_last {manifestKey data : Bytes} {m : ManifestInfo}
    {last : ManifestChunk} (hon : cfg.enabled = true)
    (hparse : parseHLSManifest manifestKey data = .ok m)
    (hlast : m.chunks.getLast? = some last) (drop : Bool) :
    handleHLSManifest c h manifestKey data drop =
      h.enqueue (wanted c cfg h.window manifestKey last.seqNum) drop := by
  have hkey := parseHLSManifest_streamKey hparse
  simp only [handleHLSManifest, hparse, onManifestUpdate, hon, Bool.true_eq_false, if_false, hlast,
    hkey]

/- The prefetcher is off or the playlist has no segments, or there is a last one. -/
theorem handleHLSManifest_cases (c : CacheAccessor σ) (h : Handler σ cfg) (manifestKey data : Bytes)
    (drop : Bool) :
    handleHLSManifest c h manifestKey data drop = h ∨ ∃ m last, cfg.enabled = true ∧
      parseHLSManifest manifestKey data = .ok m ∧ m.chunks.getLast? = some last := by
  unfold handleHLSManifest onManifestUpdate
  split
  · exact .inl rfl
  · rename_i m hparse
    split
    · exact .inl rfl
    · rename_i hon
      split
      · exact .inl rfl
      · rename_i last hlast
        exact .inr ⟨m, last, by simpa using hon, hparse, hlast⟩

theorem manifest_all (manifestKey data : Bytes) (P : ChunkInfo → Prop) :
    (∀ drop, ∀ job ∈ newJobs h (handleHLSManifest c h manifestKey data drop),
      ∀ chunk ∈ job, P chunk) ↔
      (cfg.enabled = true → h.prefetch.queue.length < queueCap →
        ∀ m last, parseHLSManifest manifestKey data = .ok m → m.chunks.getLast? = some last →
          ∀ n ∈ cfg.following last.seqNum, hasChunk c h.window manifestKey n = false →
            P ⟨manifestKey, n⟩) := by
  constructor
  · intro hall hon hroom m last hparse hlast
    simp only [handleHLSManifest_last hon hparse hlast] at hall
    exact (enqueue_wanted_all manifestKey last.seqNum P).mp hall hroom
  · intro hall drop job hjob
    rcases handleHLSManifest_cases c h manifestKey data drop with hself | ⟨m, last, hon, hparse, hlast⟩
    · rw [hself, newJobs_self] at hjob
      cases hjob
    · rw [handleHLSManifest_last hon hparse hlast] at hjob
      exact (enqueue_wanted_all manifestKey last.seqNum P).mpr
        (fun hroom => hall hon hroom m last hparse hlast) drop job hjob

theorem request_all {key streamKey : Bytes} {seqNum : Int64}
    (hinfer : inferStreamFromChunkKey key = some (streamKey, seqNum)) (P : ChunkInfo → Prop) :
    (∀ drop, ∀ job ∈ newJobs h (onChunkRequest c h streamKey seqNum drop),
      ∀ chunk ∈ job, P chunk) ↔
      (cfg.enabled = true → h.prefetch.queue.length < queueCap →
        ∀ n ∈ cfg.following seqNum, hasChunk c h.window streamKey n = false →
          P ⟨streamKey, n⟩) := by
  cases hon : cfg.enabled with
  | false => simp [onChunkRequest_enqueue hinfer, hon, newJobs_self]
  | true =>
    simp only [onChunkRequest_enqueue hinfer, hon, Bool.true_eq_false, if_false, enqueue_wanted_all,
      forall_const]

/-- Prefetching matches the requests if the prefetcher is off, its queue is full, or the
chunks that it wants are mirrored; those that follow a playlist it wants under the key of
the playlist. -/
theorem prefetch_matches_iff (c : CacheAccessor σ) (h : Handler σ cfg) (origin : Bytes → Bytes)
    (keys : Set Bytes) (manifestKey data : Bytes) :
    PrefetchMatches c h origin keys manifestKey data ↔
      (cfg.enabled = true → h.prefetch.queue.length < queueCap →
        (∀ m last, parseHLSManifest manifestKey data = .ok m → m.chunks.getLast? = some last →
          ∀ n ∈ cfg.following last.seqNum, hasChunk c h.window manifestKey n = false →
            Mirrored origin keys manifestKey n) ∧
        ∀ key ∈ keys, ∀ streamKey seqNum,
          inferStreamFromChunkKey key = some (streamKey, seqNum) →
          ∀ n ∈ cfg.following seqNum, hasChunk c h.window streamKey n = false →
            Mirrored origin keys streamKey n) := by
  constructor
  · intro hm hon hroom
    refine ⟨?_, ?_⟩
    · intro m last hparse hlast n hn hmiss
      exact (demanded_iff _ _).mp
        ((manifest_all manifestKey data _).mp hm.manifest hon hroom m last hparse hlast n hn hmiss)
    · intro key hkey streamKey seqNum hinfer n hn hmiss
      exact (demanded_iff _ _).mp
        ((request_all hinfer _).mp (hm.request key hkey _ _ hinfer) hon hroom n hn hmiss)
  · intro hall
    refine ⟨(manifest_all manifestKey data _).mpr ?_, ?_⟩
    · intro hon hroom m last hparse hlast n hn hmiss
      exact (demanded_iff _ _).mpr ((hall hon hroom).1 m last hparse hlast n hn hmiss)
    · intro key hkey streamKey seqNum hinfer
      refine (request_all hinfer _).mpr fun hon hroom n hn hmiss => ?_
      exact (demanded_iff _ _).mpr ((hall hon hroom).2 key hkey _ _ hinfer n hn hmiss)

/-! ### Segments next to their playlist -/

/-- A key in the directory of the playlist. -/
def Beside (manifestKey key : Bytes) : Prop :=
  ∃ dir name file, manifestKey = dir ++ slash :: name ∧ slash ∉ name ∧
    key = dir ++ slash :: file ∧ slash ∉ file

/-- The stream of such a segment is the directory, and never the playlist's key. -/
theorem infer_beside {manifestKey key : Bytes} (hbeside : Beside manifestKey key) (n : Int64) :
    inferStreamFromChunkKey key ≠ some (manifestKey, n) := by
  obtain ⟨dir, name, file, hmanifest, -, rfl, hfile⟩ := hbeside
  intro hinfer
  unfold inferStreamFromChunkKey at hinfer
  simp only [lastIndexByte_append dir hfile, List.take_left] at hinfer
  split at hinfer
  · cases hinfer
  · split at hinfer
    · obtain ⟨hstream, -⟩ := Prod.mk.inj (Option.some.inj hinfer)
      have hle := validateStreamKey_length_le dir
      rw [hstream, hmanifest, List.length_append, List.length_cons] at hle
      omega
    · cases hinfer

def playlistKey : Bytes := lit "live/index.m3u8"
def playlist : Bytes := lit "#EXTM3U\n#EXT-X-MEDIA-SEQUENCE:7\nseg_7.ts\nseg_8.ts\n"

def emptyHandler : Handler (Bytes → Option Bytes) defaultConfig :=
  newHandler defaultConfig fun _ => none

theorem live_of_beside {key : Bytes} (h : Beside playlistKey key) :
    ∃ file, key = lit "live" ++ slash :: file := by
  obtain ⟨dir, name, file, hmanifest, hname, rfl, -⟩ := h
  have hform : playlistKey = lit "live" ++ slash :: lit "index.m3u8" := by decide +kernel
  obtain ⟨hdir, -⟩ := append_cons_inj hname (by decide +kernel) (hmanifest.symm.trans hform)
  exact ⟨file, by rw [hdir]⟩

/- The chunks after the playlist are queued under the playlist's key, where no segment
   beside it is looked up. Those after a segment are queued under the right name, and
   fetched from the origin under that name; here every object is its own key. -/
theorem prefetch_mismatched :
    newJobs emptyHandler (handleHLSManifest keeping emptyHandler playlistKey playlist false) =
        [[⟨playlistKey, 9⟩, ⟨playlistKey, 10⟩, ⟨playlistKey, 11⟩]] ∧
      (∀ origin, ¬ PrefetchMatches keeping emptyHandler origin {key | Beside playlistKey key}
        playlistKey playlist) ∧
      inferStreamFromChunkKey (lit "live/seg_8.ts") = some (lit "live", 8) ∧
      newJobs emptyHandler (onChunkRequest keeping emptyHandler (lit "live") 8 false) =
        [[⟨lit "live", 9⟩, ⟨lit "live", 10⟩, ⟨lit "live", 11⟩]] ∧
      ¬ Demanded (fun key => key) {key | Beside playlistKey key} ⟨lit "live", 9⟩ := by
  have hjobs : newJobs emptyHandler
      (handleHLSManifest keeping emptyHandler playlistKey playlist false) =
        [[⟨playlistKey, 9⟩, ⟨playlistKey, 10⟩, ⟨playlistKey, 11⟩]] := by decide +kernel
  refine ⟨hjobs, ?_, by decide +kernel, by decide +kernel, ?_⟩
  · intro origin hmatches
    obtain ⟨key, hkey, hinfer, -⟩ := hmatches.manifest false _
      (by rw [hjobs]; exact List.mem_cons_self ..) ⟨playlistKey, 9⟩ (List.mem_cons_self ..)
    exact infer_beside hkey 9 hinfer
  · intro hdemanded
    obtain ⟨key, hkey, -, hbytes⟩ := (demanded_iff _ _).mp hdemanded
    obtain ⟨file, hfile⟩ := live_of_beside hkey
    have hname : chunkCacheKey (lit "live") 9 = lit "live" ++ slash :: file :=
      (hbytes ⟨by decide +kernel, by decide +kernel⟩).trans hfile
    have hhead : (chunkCacheKey (lit "live") 9).head? = (lit "live" ++ slash :: file).head? :=
      congrArg List.head? hname
    simp [chunkCacheKey, lit] at hhead

end EdgeDispatch.Streaming
