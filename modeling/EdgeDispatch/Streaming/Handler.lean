import EdgeDispatch.Lib.Transition
import EdgeDispatch.Streaming.Window

/-! # Serving chunks through the cache (internal/streaming/handler.go, prefetch.go)

A request for a chunk is answered from the cache, or from the origin and then cached.
Either way the next chunks of the stream are queued, and background workers fetch them
from the origin and cache them too. Calls come one after the other, and the workers run
beside them: what the cache writes it writes in place (edgeagent/cache.go:164-171), also
into a file that a call is reading. -/

namespace EdgeDispatch.Streaming
open Lib.ByteString Lib.GoStrings Lib.Transition

def maxStreamingChunkBytes : ℕ := 128 <<< 20

/- A response whose body yields `data` and then, if `broken`, an error. -/
structure Body where
  contentLen : ℤ
  data : Bytes
  broken : Bool

inductive ReadError where
  | read
  | exceeds -- body exceeds %d bytes
  deriving DecidableEq

/- The reader stops one byte after `maxBytes`, so a later error is not seen. -/
def readLimited (body : Body) (maxBytes : ℕ) : Except ReadError Bytes :=
  let data := body.data.take (maxBytes + 1)
  if body.broken ∧ body.data.length ≤ maxBytes then .error .read
  else if maxBytes < data.length then .error .exceeds
  else .ok data

/-- What becomes of one request to the origin. -/
inductive Fetch where
  | refused -- no response, or one with an error status
  | body (contentLen : ℤ)
  | broken (contentLen : ℤ) (after : ℕ)

def Fetch.response (origin : Bytes → Bytes) (fetch : Fetch) (key : Bytes) : Option Body :=
  match fetch with
  | .refused => none
  | .body contentLen => some ⟨contentLen, origin key, false⟩
  | .broken contentLen after => some ⟨contentLen, (origin key).take after, true⟩

inductive HandleError where
  | notChunk (key : Bytes) -- not a streaming chunk: %s
  | fetch
  | exceeds -- streaming chunk exceeds %d bytes
  | read (err : ReadError) -- read upstream: %w
  deriving DecidableEq

/- What HandleStreamingRequest returns without an error. -/
structure Served where
  data : Bytes
  contentLen : ℕ
  fromCache : Bool
  deriving DecidableEq

structure ChunkInfo where
  streamKey : Bytes
  seqNum : Int64
  deriving DecidableEq

namespace StreamingConfig

/- `PrefetchManager.Start`. -/
def workers (cfg : StreamingConfig) : ℕ :=
  if cfg.prefetchWorkers < 1 then 2 else cfg.prefetchWorkers.toInt.toNat

theorem workers_pos (cfg : StreamingConfig) : 0 < cfg.workers := by
  unfold workers
  split
  · decide
  · rename_i h
    have hle : 1 ≤ cfg.prefetchWorkers.toInt := by
      simpa [Int64.lt_iff_toInt_lt] using h
    omega

/- The sequence numbers after `seqNum`, as 64-bit sums. -/
def following (cfg : StreamingConfig) (seqNum : Int64) : List Int64 :=
  (List.range cfg.prefetchCount.toInt.toNat).map fun i => seqNum + Int64.ofNat (i + 1)

end StreamingConfig

structure PrefetchManager (cfg : StreamingConfig) where
  queue : List (List ChunkInfo)
  stopped : Bool
  jobs : Fin cfg.workers → List ChunkInfo -- what is left of each worker's job
  prefetched : ℕ
  failed : ℕ

structure Handler (σ : Type) (cfg : StreamingConfig) where
  window : SlidingWindow σ
  prefetch : PrefetchManager cfg
  chunkRequests : ℕ
  chunkCacheHits : ℕ
  chunkCacheMisses : ℕ

variable {σ : Type} {cfg : StreamingConfig}

def newHandler (cfg : StreamingConfig) (cache : σ) : Handler σ cfg :=
  ⟨newSlidingWindow cache, ⟨[], false, fun _ => [], 0, 0⟩, 0, 0, 0⟩

def queueCap : ℕ := 256

/- The `select`: a full queue drops the job, and after Stop either ready case may be taken. -/
def PrefetchManager.send (pm : PrefetchManager cfg) (chunks : List ChunkInfo) (drop : Bool) :
    PrefetchManager cfg :=
  if pm.queue.length < queueCap ∧ ¬ (pm.stopped = true ∧ drop = true) then
    { pm with queue := pm.queue ++ [chunks] }
  else pm

def wanted (c : CacheAccessor σ) (cfg : StreamingConfig) (sw : SlidingWindow σ)
    (streamKey : Bytes) (seqNum : Int64) : List ChunkInfo :=
  ((cfg.following seqNum).filter fun nextSeq => !hasChunk c sw streamKey nextSeq).map
    fun nextSeq => ⟨streamKey, nextSeq⟩

def Handler.enqueue (h : Handler σ cfg) (chunks : List ChunkInfo) (drop : Bool) : Handler σ cfg :=
  if chunks = [] then h else { h with prefetch := h.prefetch.send chunks drop }

def onChunkRequest (c : CacheAccessor σ) (h : Handler σ cfg) (streamKey : Bytes) (seqNum : Int64)
    (drop : Bool) : Handler σ cfg :=
  if cfg.enabled = false ∨ cfg.prefetchCount ≤ 0 then h
  else
    let streamKey := validateStreamKey streamKey
    if streamKey = [] then h else h.enqueue (wanted c cfg h.window streamKey seqNum) drop

/- After GetChunk has given `data`. -/
def serveFromCache (c : CacheAccessor σ) (h : Handler σ cfg) (streamKey : Bytes) (seqNum : Int64)
    (data : Bytes) (drop : Bool) : Handler σ cfg × Served :=
  (onChunkRequest c { h with chunkCacheHits := h.chunkCacheHits + 1 } streamKey seqNum drop,
    ⟨data, data.length, true⟩)

/- After GetChunk has missed. -/
def serveFromOrigin (c : CacheAccessor σ) (h : Handler σ cfg) (key streamKey : Bytes)
    (seqNum : Int64) (fetchFn : Bytes → Option Body) (drop : Bool) :
    Handler σ cfg × Except HandleError Served :=
  let h := { h with chunkCacheMisses := h.chunkCacheMisses + 1 }
  match fetchFn key with
  | none => (h, .error .fetch)
  | some body =>
    if (maxStreamingChunkBytes : ℤ) < body.contentLen then (h, .error .exceeds)
    else
      match readLimited body maxStreamingChunkBytes with
      | .error err => (h, .error (.read err))
      | .ok data =>
        let h :=
          if 0 < data.length then
            { h with window := (cacheChunk c cfg h.window streamKey seqNum data).1 }
          else h
        (onChunkRequest c h streamKey seqNum drop, .ok ⟨data, data.length, false⟩)

def handleStreamingRequest (c : CacheAccessor σ) (h : Handler σ cfg) (key : Bytes)
    (fetchFn : Bytes → Option Body) (drop : Bool) : Handler σ cfg × Except HandleError Served :=
  match inferStreamFromChunkKey key with
  | none => (h, .error (.notChunk key))
  | some (streamKey, seqNum) =>
    let read := getChunk c h.window streamKey seqNum
    let h := { h with window := read.1, chunkRequests := h.chunkRequests + 1 }
    match read.2 with
    | some data =>
      let hit := serveFromCache c h streamKey seqNum data drop
      (hit.1, .ok hit.2)
    | none => serveFromOrigin c h key streamKey seqNum fetchFn drop

def Handler.fail (h : Handler σ cfg) : Handler σ cfg :=
  { h with prefetch := { h.prefetch with failed := h.prefetch.failed + 1 } }

/- What a worker gets for a chunk, if it gets anything. The object that is fetched is the one
   whose key is the chunk's name in the cache. -/
def download (response : Bytes → Option Body) (chunk : ChunkInfo) : Option Bytes :=
  let sk := validateStreamKey chunk.streamKey
  if sk = [] then none
  else
    match response (chunkCacheKey sk chunk.seqNum) with
    | none => none
    | some body =>
      if (maxStreamingChunkBytes : ℤ) < body.contentLen then none
      else (readLimited body maxStreamingChunkBytes).toOption

/- One round of the loop of `processJob` up to CacheChunk, with the bytes to be cached. -/
def processChunk (c : CacheAccessor σ) (h : Handler σ cfg) (chunk : ChunkInfo)
    (response : Bytes → Option Body) : Handler σ cfg × Option Bytes :=
  if cfg.enabled = true ∧ hasChunk c h.window chunk.streamKey chunk.seqNum = true then (h, none)
  else
    match download response chunk with
    | none => (h.fail, none)
    | some data => (h, some data)

/- The rest of the round. -/
def Handler.store (c : CacheAccessor σ) (h : Handler σ cfg) (chunk : ChunkInfo) (data : Bytes) :
    Handler σ cfg :=
  let cached := cacheChunk c cfg h.window chunk.streamKey chunk.seqNum data
  let h := { h with window := cached.1 }
  if cached.2 = false then h.fail
  else { h with prefetch := { h.prefetch with prefetched := h.prefetch.prefetched + 1 } }

/-! ### Runs -/

/-- The call that has opened a chunk: what the file holds now, and what was read of it. -/
structure Reading where
  key : Bytes
  chunk : ChunkInfo
  drop : Bool
  file : Bytes
  got : Bytes

/-- The Put of a worker, which has the cache's lock, with the number of bytes in the file. -/
structure Writing where
  chunk : ChunkInfo
  data : Bytes
  written : ℕ

/-- `returned` is what the calls have returned, with their keys. -/
structure System (σ : Type) (cfg : StreamingConfig) where
  handler : Handler σ cfg
  reading : Option Reading
  writing : Option Writing
  returned : List (Bytes × Served)

inductive Act (cfg : StreamingConfig) where
  | hit (key : Bytes) (drop : Bool)
  | read (more : ℕ)
  | miss (key : Bytes) (fetch : Fetch) (drop : Bool)
  | take (worker : Fin cfg.workers)
  | work (worker : Fin cfg.workers) (fetch : Fetch)
  | write (more : ℕ)
  | stop

def Handler.setJob (h : Handler σ cfg) (worker : Fin cfg.workers) (job : List ChunkInfo) :
    Handler σ cfg :=
  { h with prefetch := { h.prefetch with jobs := Function.update h.prefetch.jobs worker job } }

theorem Handler.setJob_self (h : Handler σ cfg) (worker : Fin cfg.workers)
    (job : List ChunkInfo) : (h.setJob worker job).prefetch.jobs worker = job :=
  Function.update_self ..

theorem Handler.setJob_of_ne (h : Handler σ cfg) {worker other : Fin cfg.workers}
    (job : List ChunkInfo) (hne : other ≠ worker) :
    (h.setJob worker job).prefetch.jobs other = h.prefetch.jobs other :=
  Function.update_of_ne hne ..

namespace System

def start (cfg : StreamingConfig) (cache : σ) : System σ cfg :=
  ⟨newHandler cfg cache, none, none, []⟩

/- What Get opens, if it does: a file that is being written is there already. -/
def get (c : CacheAccessor σ) (s : System σ cfg) (chunk : ChunkInfo) :
    SlidingWindow σ × Option Bytes :=
  match s.writing.filter fun w => w.chunk = chunk with
  | some w => (s.handler.window, some (w.data.take w.written))
  | none => getChunk c s.handler.window chunk.streamKey chunk.seqNum

/- The bytes in the file of a chunk change under the call that has opened it. -/
def rewrite (s : System σ cfg) (w : Writing) : System σ cfg :=
  { s with
    writing := some w
    reading := s.reading.map fun r =>
      if r.chunk = w.chunk then { r with file := w.data.take w.written } else r }

/- The call has to be the only one. -/
def hit (c : CacheAccessor σ) (s : System σ cfg) (key : Bytes) (chunk : ChunkInfo) (drop : Bool) :
    Option (System σ cfg) :=
  if s.reading.isSome then none
  else (s.get c chunk).2.map fun file => { s with
    handler := { s.handler with
      window := (s.get c chunk).1, chunkRequests := s.handler.chunkRequests + 1 }
    reading := some ⟨key, chunk, drop, file, []⟩ }

/- A Get may also fail where there is a chunk. The call then writes too, so it gets on when no
   worker has the lock. -/
def miss (c : CacheAccessor σ) (s : System σ cfg) (key : Bytes) (chunk : ChunkInfo)
    (fetchFn : Bytes → Option Body) (drop : Bool) : Option (System σ cfg) :=
  if s.reading.isSome ∨ s.writing.isSome then none
  else
    let h := { s.handler with
      window := (getChunk c s.handler.window chunk.streamKey chunk.seqNum).1
      chunkRequests := s.handler.chunkRequests + 1 }
    let answer := serveFromOrigin c h key chunk.streamKey chunk.seqNum fetchFn drop
    some { s with
      handler := answer.1
      returned := match answer.2 with
        | .ok served => s.returned ++ [(key, served)]
        | .error _ => s.returned }

/- The loop of ReadAll; a Read that gives no bytes has found the end. -/
def read (c : CacheAccessor σ) (s : System σ cfg) (more : ℕ) (r : Reading) : System σ cfg :=
  let bytes := readSome r.file r.file.length r.got more
  if bytes = [] then
    let answer := serveFromCache c s.handler r.chunk.streamKey r.chunk.seqNum r.got r.drop
    { s with handler := answer.1, reading := none, returned := s.returned ++ [(r.key, answer.2)] }
  else { s with reading := some { r with got := r.got ++ bytes } }

/- An empty chunk is not written. -/
def work (c : CacheAccessor σ) (s : System σ cfg) (worker : Fin cfg.workers) (chunk : ChunkInfo)
    (rest : List ChunkInfo) (response : Bytes → Option Body) : System σ cfg :=
  let fetched := processChunk c s.handler chunk response
  let s := { s with handler := fetched.1.setJob worker rest }
  match fetched.2 with
  | none => s
  | some [] => { s with handler := s.handler.store c chunk [] }
  | some data => s.rewrite ⟨chunk, data, 0⟩

/- The loop of io.Copy, and then the rest of CacheChunk. -/
def write (c : CacheAccessor σ) (s : System σ cfg) (more : ℕ) (w : Writing) : System σ cfg :=
  if w.written < w.data.length then s.rewrite { w with written := w.written + more + 1 }
  else { s with handler := s.handler.store c w.chunk w.data, writing := none }

end System

def step (c : CacheAccessor σ) (origin : Bytes → Bytes) (s : System σ cfg) :
    Act cfg → Option (System σ cfg)
  | .hit key drop =>
    (inferStreamFromChunkKey key).bind fun chunk => s.hit c key ⟨chunk.1, chunk.2⟩ drop
  | .read more => s.reading.map (s.read c more)
  | .miss key fetch drop =>
    (inferStreamFromChunkKey key).bind fun chunk =>
      s.miss c key ⟨chunk.1, chunk.2⟩ (fetch.response origin) drop
  | .take worker =>
    match s.handler.prefetch.jobs worker, s.handler.prefetch.queue with
    | [], job :: queue =>
      let h := { s.handler with prefetch := { s.handler.prefetch with queue } }
      some { s with handler := h.setJob worker job }
    | _, _ => none
  | .work worker fetch =>
    match s.writing, s.handler.prefetch.jobs worker with
    | none, chunk :: rest => some (s.work c worker chunk rest (fetch.response origin))
    | _, _ => none
  | .write more => s.writing.map (s.write c more)
  | .stop => some { s with
      handler := { s.handler with prefetch := { s.handler.prefetch with stopped := true } } }

/-- The runs in which only chunks with a key in `keys` are asked for, and no call reads a
chunk while a worker writes it. -/
def Apart (keys : Set Bytes) (s : System σ cfg) : Act cfg → Prop
  | .hit key _ => key ∈ keys ∧ ∀ w ∈ s.writing,
      inferStreamFromChunkKey key ≠ some (w.chunk.streamKey, w.chunk.seqNum)
  | .miss key _ _ => key ∈ keys
  | .work worker _ => ∀ r ∈ s.reading, ∀ chunk ∈ (s.handler.prefetch.jobs worker).head?,
      r.chunk ≠ chunk
  | _ => True

/- The name of the cached chunk that a request for `key` reads. -/
def chunkName (key : Bytes) : Option Bytes :=
  (inferStreamFromChunkKey key).map fun chunk => chunkCacheKey chunk.1 chunk.2

section
variable (cfg) (origin : Bytes → Bytes) (keys : Set Bytes)

/-- Whatever the cache loses, in every state that requests for `keys` lead to: what calls have
returned is the origin's, and no cached chunk is read for two keys. -/
def FaithfulFor : Prop :=
  ∀ (σ : Type) (c : LossyCache σ) (cache : σ), (∀ name, c.entry cache name = none) →
    ∀ s, Reach (step c.toCacheAccessor origin) (Apart keys) (System.start cfg cache) s →
      (∀ answer ∈ s.returned, answer.2.data = origin answer.1) ∧
      ∀ key ∈ keys, ∀ other ∈ keys, key ≠ other → ∀ name, chunkName key = some name →
        chunkName other = some name → c.entry s.handler.window.cache name = none

/-- A body that is cached when it is fetched. -/
def Cacheable (data : Bytes) : Prop := 0 < data.length ∧ data.length ≤ maxStreamingChunkBytes

/-- A request for one of the keys queues the chunk. -/
def Ahead (streamKey : Bytes) (seqNum : Int64) : Prop :=
  cfg.enabled = true ∧ ∃ key ∈ keys, ∃ n, inferStreamFromChunkKey key = some (streamKey, n) ∧
    (origin key).length ≤ maxStreamingChunkBytes ∧ seqNum ∈ cfg.following n

/-- Two keys with the same stream and number have no bytes that are cached, and an object that
is prefetched as a chunk has the bytes of the key that this chunk is read for. -/
structure Separate : Prop where
  unshared : ∀ key ∈ keys, ∀ other ∈ keys, key ≠ other → ∀ streamKey seqNum,
    inferStreamFromChunkKey key = some (streamKey, seqNum) →
    inferStreamFromChunkKey other = some (streamKey, seqNum) → ¬ Cacheable (origin key)
  ahead : ∀ key ∈ keys, ∀ streamKey seqNum,
    inferStreamFromChunkKey key = some (streamKey, seqNum) →
    Ahead cfg origin keys streamKey seqNum →
    Cacheable (origin (chunkCacheKey streamKey seqNum)) →
    origin (chunkCacheKey streamKey seqNum) = origin key

end

/-! ### What a request and a worker do to the cache and the queue -/

variable {data : Bytes} {maxBytes : ℕ} {origin : Bytes → Bytes}
variable {body : Body} {fetch : Fetch} {drop : Bool}

theorem readLimited_ok (h : readLimited body maxBytes = .ok data) :
    body.broken = false ∧ data = body.data ∧ data.length ≤ maxBytes := by
  unfold readLimited at h
  simp only at h
  split at h
  · cases h
  · rename_i hread
    split at h
    · cases h
    · rename_i hshort
      cases h
      rw [List.length_take] at hshort
      have hlen : body.data.length ≤ maxBytes := by omega
      refine ⟨?_, List.take_of_length_le (by omega), ?_⟩
      · cases hb : body.broken with
        | false => rfl
        | true => exact absurd ⟨hb, hlen⟩ hread
      · rw [List.length_take]
        omega

/- The whole object is read, or nothing is. -/
theorem readLimited_response {key : Bytes} (hbody : fetch.response origin key = some body)
    (h : readLimited body maxBytes = .ok data) : data = origin key ∧ data.length ≤ maxBytes := by
  obtain ⟨hwhole, hdata, hlen⟩ := readLimited_ok h
  refine ⟨?_, hlen⟩
  cases fetch with
  | refused => cases hbody
  | body contentLen =>
    cases hbody
    exact hdata
  | broken contentLen after =>
    cases hbody
    cases hwhole

/- A worker gets the object that has the chunk's name for its key. -/
theorem download_eq_some {chunk : ChunkInfo}
    (hvalid : validateStreamKey chunk.streamKey = chunk.streamKey)
    (hdata : download (fetch.response origin) chunk = some data) :
    data = origin (chunkCacheKey chunk.streamKey chunk.seqNum) ∧
      data.length ≤ maxStreamingChunkBytes := by
  unfold download at hdata
  simp only [hvalid] at hdata
  split at hdata
  · cases hdata
  · split at hdata
    · cases hdata
    · rename_i body hbody
      split at hdata
      · cases hdata
      · cases hread : readLimited body maxStreamingChunkBytes with
        | error err =>
          rw [hread] at hdata
          cases hdata
        | ok data' =>
          rw [hread] at hdata
          cases hdata
          exact readLimited_response hbody hread

/- The prefetcher is switched off or has nothing to do, or a job is sent to the queue. -/
theorem onChunkRequest_cases (c : CacheAccessor σ) (h : Handler σ cfg) (streamKey : Bytes)
    (seqNum : Int64) (drop : Bool) :
    onChunkRequest c h streamKey seqNum drop = h ∨
      (cfg.enabled = true ∧ onChunkRequest c h streamKey seqNum drop = { h with
        prefetch := h.prefetch.send
          (wanted c cfg h.window (validateStreamKey streamKey) seqNum) drop }) := by
  unfold onChunkRequest Handler.enqueue
  split
  · exact Or.inl rfl
  · rename_i hon
    have henabled : cfg.enabled = true := Bool.not_eq_false _ ▸ (not_or.mp hon).1
    simp only
    split
    · exact Or.inl rfl
    · split
      · exact Or.inl rfl
      · exact Or.inr ⟨henabled, rfl⟩

theorem onChunkRequest_window (c : CacheAccessor σ) (h : Handler σ cfg) (streamKey : Bytes)
    (seqNum : Int64) (drop : Bool) :
    (onChunkRequest c h streamKey seqNum drop).window = h.window := by
  rcases onChunkRequest_cases c h streamKey seqNum drop with he | ⟨_, he⟩
  · rw [he]
  · rw [he]

theorem send_jobs (pm : PrefetchManager cfg) (chunks : List ChunkInfo) (drop : Bool) :
    (pm.send chunks drop).jobs = pm.jobs := by
  unfold PrefetchManager.send
  split
  · rfl
  · rfl

theorem onChunkRequest_jobs (c : CacheAccessor σ) (h : Handler σ cfg) (streamKey : Bytes)
    (seqNum : Int64) (drop : Bool) :
    (onChunkRequest c h streamKey seqNum drop).prefetch.jobs = h.prefetch.jobs := by
  rcases onChunkRequest_cases c h streamKey seqNum drop with he | ⟨_, he⟩
  · rw [he]
  · rw [he]
    exact send_jobs _ _ _

theorem mem_send_queue {pm : PrefetchManager cfg} {chunks job : List ChunkInfo}
    (h : job ∈ (pm.send chunks drop).queue) : job ∈ pm.queue ∨ job = chunks := by
  unfold PrefetchManager.send at h
  split at h
  · rcases List.mem_append.mp h with hold | hnew
    · exact Or.inl hold
    · exact Or.inr (List.mem_singleton.mp hnew)
  · exact Or.inl h

/- A job that is queued is for the chunks that follow. -/
theorem onChunkRequest_queue {c : CacheAccessor σ} {h : Handler σ cfg} {streamKey : Bytes}
    {seqNum : Int64} {job : List ChunkInfo}
    (hjob : job ∈ (onChunkRequest c h streamKey seqNum drop).prefetch.queue) :
    job ∈ h.prefetch.queue ∨ (cfg.enabled = true ∧ ∀ chunk ∈ job,
      chunk.streamKey = validateStreamKey streamKey ∧ chunk.seqNum ∈ cfg.following seqNum) := by
  rcases onChunkRequest_cases c h streamKey seqNum drop with he | ⟨hon, he⟩
  · rw [he] at hjob
    exact Or.inl hjob
  · rw [he] at hjob
    rcases mem_send_queue hjob with hold | rfl
    · exact Or.inl hold
    · refine Or.inr ⟨hon, fun chunk hchunk => ?_⟩
      obtain ⟨n, hn, rfl⟩ := List.mem_map.mp hchunk
      exact ⟨rfl, List.mem_of_mem_filter hn⟩

/- Under a call that reads another chunk. -/
theorem System.rewrite_reading {s : System σ cfg} {w : Writing}
    (h : ∀ r ∈ s.reading, r.chunk ≠ w.chunk) : (s.rewrite w).reading = s.reading := by
  cases hr : s.reading with
  | none => simp [rewrite, hr]
  | some r => simp [rewrite, hr, h r hr]

/-! ### Separate keys are served faithfully -/

section
variable (cfg) (origin : Bytes → Bytes) (keys : Set Bytes)

/-- How a chunk came to hold `d`. -/
def Filled (streamKey : Bytes) (seqNum : Int64) (d : Bytes) : Prop :=
  Cacheable d ∧
    ((∃ key ∈ keys, inferStreamFromChunkKey key = some (streamKey, seqNum) ∧ d = origin key) ∨
      (Ahead cfg origin keys streamKey seqNum ∧ d = origin (chunkCacheKey streamKey seqNum)))

structure Inv (c : LossyCache σ) (h : Handler σ cfg) : Prop where
  cached : ∀ name d, c.entry h.window.cache name = some d →
    ∃ streamKey seqNum, name = chunkCacheKey streamKey seqNum ∧
      Filled cfg origin keys streamKey seqNum d
  queued : ∀ job ∈ h.prefetch.queue, ∀ chunk ∈ job,
    Ahead cfg origin keys chunk.streamKey chunk.seqNum
  taken : ∀ worker, ∀ chunk ∈ h.prefetch.jobs worker,
    Ahead cfg origin keys chunk.streamKey chunk.seqNum

/-- The call reads the origin's bytes. -/
structure Opened (r : Reading) : Prop where
  key_mem : r.key ∈ keys
  infer : inferStreamFromChunkKey r.key = some (r.chunk.streamKey, r.chunk.seqNum)
  file_eq : r.file = origin r.key
  length_le : r.file.length ≤ maxStreamingChunkBytes
  got : r.got <+: r.file

/-- What is read, written and returned beside the handler. -/
structure Calls (reader : Option Reading) (writer : Option Writing)
    (answers : List (Bytes × Served)) : Prop where
  reading : ∀ r ∈ reader, Opened origin keys r
  writing : ∀ w ∈ writer, Filled cfg origin keys w.chunk.streamKey w.chunk.seqNum w.data
  apart : ∀ r ∈ reader, ∀ w ∈ writer, r.chunk ≠ w.chunk
  returned : ∀ answer ∈ answers, answer.2.data = origin answer.1

structure Sound (c : LossyCache σ) (s : System σ cfg) : Prop where
  handler : Inv cfg origin keys c s.handler
  calls : Calls cfg origin keys s.reading s.writing s.returned

end

section
variable {origin : Bytes → Bytes} {keys : Set Bytes} {c : LossyCache σ}
variable {key streamKey : Bytes} {seqNum : Int64} {h : Handler σ cfg} {chunk : ChunkInfo}
  {s : System σ cfg}
variable {d : Bytes} {cache : σ} {fetch : Fetch} {s' : System σ cfg} {drop : Bool}

theorem Separate.filled_eq (sep : Separate cfg origin keys) (hkey : key ∈ keys)
    (hinfer : inferStreamFromChunkKey key = some (streamKey, seqNum))
    (hd : Filled cfg origin keys streamKey seqNum d) : d = origin key := by
  obtain ⟨hcache, ⟨other, hother, hsame, rfl⟩ | ⟨hahead, rfl⟩⟩ := hd
  · by_contra hne
    have hkeys : other ≠ key := fun he => hne (he ▸ rfl)
    exact sep.unshared other hother key hkey hkeys _ _ hsame hinfer hcache
  · exact sep.ahead key hkey _ _ hinfer hahead hcache

theorem Separate.not_filled (sep : Separate cfg origin keys) {other : Bytes} (hkey : key ∈ keys)
    (hother : other ∈ keys) (hne : key ≠ other)
    (hinfer : inferStreamFromChunkKey key = some (streamKey, seqNum))
    (hsame : inferStreamFromChunkKey other = some (streamKey, seqNum)) :
    ¬ Filled cfg origin keys streamKey seqNum d := by
  intro hd
  have heq := sep.filled_eq hkey hinfer hd
  exact sep.unshared key hkey other hother hne _ _ hinfer hsame (heq ▸ hd.1)

theorem Inv.filled (inv : Inv cfg origin keys c h)
    (hentry : c.entry h.window.cache (chunkCacheKey streamKey seqNum) = some d) :
    Filled cfg origin keys streamKey seqNum d := by
  obtain ⟨streamKey', seqNum', hname, hd⟩ := inv.cached _ _ hentry
  obtain ⟨rfl, rfl⟩ := chunkCacheKey_inj hname
  exact hd

theorem inv_start (hempty : ∀ name, c.entry cache name = none) :
    Inv cfg origin keys c (newHandler cfg cache) where
  cached name d hentry := by
    have hnone := hempty name
    rw [show c.entry cache name = some d from hentry] at hnone
    cases hnone
  queued job hjob := absurd hjob List.not_mem_nil
  taken worker chunk hchunk := absurd hchunk List.not_mem_nil

/- The invariant is about the cache, the queue and the jobs; losing entries keeps it. -/
theorem Inv.of_entries {h' : Handler σ cfg} (inv : Inv cfg origin keys c h)
    (hcache : ∀ name d, c.entry h'.window.cache name = some d →
      c.entry h.window.cache name = some d) (hqueue : h'.prefetch.queue = h.prefetch.queue)
    (hjobs : h'.prefetch.jobs = h.prefetch.jobs) :
    Inv cfg origin keys c h' where
  cached name d hentry := inv.cached name d (hcache name d hentry)
  queued := hqueue ▸ inv.queued
  taken := hjobs ▸ inv.taken

theorem Inv.cacheChunk (inv : Inv cfg origin keys c h) {data : Bytes}
    (hdata : 0 < data.length → Filled cfg origin keys streamKey seqNum data) :
    Inv cfg origin keys c { h with
      window := (cacheChunk c.toCacheAccessor cfg h.window streamKey seqNum data).1 } where
  cached name d hentry := by
    rcases entry_cacheChunk c hentry with hold | ⟨rfl, rfl, hlen⟩
    · exact inv.cached name d hold
    · exact ⟨streamKey, seqNum, rfl, hdata hlen⟩
  queued := inv.queued
  taken := inv.taken

theorem Inv.notify (inv : Inv cfg origin keys c h) (hkey : key ∈ keys)
    (hinfer : inferStreamFromChunkKey key = some (streamKey, seqNum))
    (hlen : (origin key).length ≤ maxStreamingChunkBytes) (drop : Bool) :
    Inv cfg origin keys c (onChunkRequest c.toCacheAccessor h streamKey seqNum drop) where
  cached := by
    rw [onChunkRequest_window]
    exact inv.cached
  queued job hjob chunk hchunk := by
    rcases onChunkRequest_queue hjob with hold | ⟨hon, hnew⟩
    · exact inv.queued job hold chunk hchunk
    · obtain ⟨hstream, hseq⟩ := hnew chunk hchunk
      rw [hstream, (infer_stream hinfer).1]
      exact ⟨hon, key, hkey, seqNum, hinfer, hlen, hseq⟩
  taken := by
    rw [onChunkRequest_jobs]
    exact inv.taken

theorem serveFromOrigin_spec (inv : Inv cfg origin keys c h) (hkey : key ∈ keys)
    (hinfer : inferStreamFromChunkKey key = some (streamKey, seqNum)) (fetch : Fetch) (drop : Bool) :
    
    Inv cfg origin keys c (serveFromOrigin c.toCacheAccessor h key streamKey seqNum
      (fetch.response origin) drop).1 ∧
    ∀ served, (serveFromOrigin c.toCacheAccessor h key streamKey seqNum
      (fetch.response origin) drop).2 = .ok served → served.data = origin key := by
  have inv : Inv cfg origin keys c { h with chunkCacheMisses := h.chunkCacheMisses + 1 } :=
    inv.of_entries (fun _ _ hentry => hentry) rfl rfl
  unfold serveFromOrigin
  simp only
  split
  · exact ⟨inv, nofun⟩
  · rename_i body hbody
    split
    · exact ⟨inv, nofun⟩
    · split
      · exact ⟨inv, nofun⟩
      · rename_i data hdata
        obtain ⟨hwhole, hlen⟩ := readLimited_response hbody hdata
        have hfilled : 0 < data.length → Filled cfg origin keys streamKey seqNum data :=
          fun hpos => ⟨⟨hpos, hlen⟩, Or.inl ⟨key, hkey, hinfer, hwhole⟩⟩
        refine ⟨?_, fun served hserved => by cases hserved; exact hwhole⟩
        split
        · exact (inv.cacheChunk hfilled).notify hkey hinfer (hwhole ▸ hlen) drop
        · exact inv.notify hkey hinfer (hwhole ▸ hlen) drop

theorem Inv.fail (inv : Inv cfg origin keys c h) : Inv cfg origin keys c h.fail :=
  inv.of_entries (fun _ _ hentry => hentry) rfl rfl

theorem ahead_valid (h : Ahead cfg origin keys streamKey seqNum) :
    validateStreamKey streamKey = streamKey ∧ streamKey ≠ [] := by
  obtain ⟨-, key, -, n, hinfer, -⟩ := h
  exact infer_stream hinfer

theorem processChunk_inv (inv : Inv cfg origin keys c h) (chunk : ChunkInfo)
    (response : Bytes → Option Body) :
    Inv cfg origin keys c (processChunk c.toCacheAccessor h chunk response).1 := by
  unfold processChunk
  split
  · exact inv
  · split
    · exact inv.fail
    · exact inv

theorem processChunk_filled {c : CacheAccessor σ}
    (hahead : Ahead cfg origin keys chunk.streamKey chunk.seqNum) {data : Bytes}
    (hdata : (processChunk c h chunk (fetch.response origin)).2 = some data)
    (hpos : 0 < data.length) : Filled cfg origin keys chunk.streamKey chunk.seqNum data := by
  have hdown : download (fetch.response origin) chunk = some data := by
    unfold processChunk at hdata
    split at hdata
    · cases hdata
    · split at hdata
      · cases hdata
      · rename_i hdown
        cases hdata
        exact hdown
  obtain ⟨hwhole, hlen⟩ := download_eq_some (ahead_valid hahead).1 hdown
  exact ⟨⟨hpos, hlen⟩, Or.inr ⟨hahead, hwhole⟩⟩

theorem Inv.store (inv : Inv cfg origin keys c h) {data : Bytes}
    (hdata : 0 < data.length → Filled cfg origin keys chunk.streamKey chunk.seqNum data) :
    Inv cfg origin keys c (h.store c.toCacheAccessor chunk data) := by
  have hcached := inv.cacheChunk hdata
  unfold Handler.store
  simp only
  split
  · exact hcached.fail
  · exact hcached.of_entries (fun _ _ hentry => hentry) rfl rfl

theorem Inv.setJob (inv : Inv cfg origin keys c h) {job : List ChunkInfo}
    (hjob : ∀ chunk ∈ job, Ahead cfg origin keys chunk.streamKey chunk.seqNum)
    (worker : Fin cfg.workers) : Inv cfg origin keys c (h.setJob worker job) where
  cached := inv.cached
  queued := inv.queued
  taken w chunk hchunk := by
    by_cases hw : w = worker
    · subst hw
      rw [h.setJob_self] at hchunk
      exact hjob chunk hchunk
    · rw [h.setJob_of_ne job hw] at hchunk
      exact inv.taken w chunk hchunk

theorem Calls.concat {reader : Option Reading} {writer : Option Writing}
    {answers : List (Bytes × Served)} (calls : Calls cfg origin keys reader writer answers)
    {served : Served} (h : served.data = origin key) :
    ∀ answer ∈ answers ++ [(key, served)], answer.2.data = origin answer.1 := by
  intro answer hanswer
  rcases List.mem_append.mp hanswer with hold | hnew
  · exact calls.returned answer hold
  · rw [List.mem_singleton.mp hnew]
    exact h

/- A call opens a chunk that nobody is writing. -/
theorem Sound.hit (sep : Separate cfg origin keys) (sound : Sound cfg origin keys c s)
    (hkey : key ∈ keys) (hinfer : inferStreamFromChunkKey key = some (streamKey, seqNum))
    (hother : ∀ w ∈ s.writing, (⟨streamKey, seqNum⟩ : ChunkInfo) ≠ w.chunk)
    (hhit : s.hit c.toCacheAccessor key ⟨streamKey, seqNum⟩ drop = some s') :
    Sound cfg origin keys c s' := by
  have hget : s.get c.toCacheAccessor ⟨streamKey, seqNum⟩ =
      getChunk c.toCacheAccessor s.handler.window streamKey seqNum := by
    have hnone : s.writing.filter (fun w => w.chunk = ⟨streamKey, seqNum⟩) = none :=
      Option.filter_eq_none_iff.mpr fun w hw => by simpa using (hother w hw).symm
    rw [System.get, hnone]
  unfold System.hit at hhit
  split at hhit
  · cases hhit
  · obtain ⟨file, hfile, rfl⟩ := Option.map_eq_some_iff.mp hhit
    rw [hget] at hfile ⊢
    -- the cached bytes are the origin's, so they are not too many
    have hfilled := sound.handler.filled (getChunk_hit c hfile)
    have hbytes := sep.filled_eq hkey hinfer hfilled
    refine ⟨sound.handler.of_entries (fun name d => entry_getChunk c) rfl rfl, ?_,
      sound.calls.writing, ?_, sound.calls.returned⟩
    · rintro r ⟨⟩
      exact ⟨hkey, hinfer, hbytes, hfilled.1.2, List.nil_prefix⟩
    · rintro r ⟨⟩
      exact hother

theorem Sound.miss (sound : Sound cfg origin keys c s) (hkey : key ∈ keys)
    (hinfer : inferStreamFromChunkKey key = some (streamKey, seqNum))
    (hmiss : s.miss c.toCacheAccessor key ⟨streamKey, seqNum⟩ (fetch.response origin) drop =
      some s') : Sound cfg origin keys c s' := by
  unfold System.miss at hmiss
  split at hmiss
  · cases hmiss
  · have hread : Inv cfg origin keys c { s.handler with
        window := (getChunk c.toCacheAccessor s.handler.window streamKey seqNum).1
        chunkRequests := s.handler.chunkRequests + 1 } :=
      sound.handler.of_entries (fun name d => entry_getChunk c) rfl rfl
    obtain ⟨inv, hserved⟩ := serveFromOrigin_spec hread hkey hinfer fetch drop
    cases hmiss
    refine ⟨inv, sound.calls.reading, sound.calls.writing, sound.calls.apart, ?_⟩
    simp only
    split
    · exact sound.calls.concat (hserved _ ‹_›)
    · exact sound.calls.returned

theorem Sound.read (sound : Sound cfg origin keys c s) {r : Reading} (hr : s.reading = some r)
    (more : ℕ) : Sound cfg origin keys c (s.read c.toCacheAccessor more r) := by
  have hopen := sound.calls.reading r hr
  have hcounted : Inv cfg origin keys c
      { s.handler with chunkCacheHits := s.handler.chunkCacheHits + 1 } :=
    sound.handler.of_entries (fun _ _ hentry => hentry) rfl rfl
  unfold System.read
  simp only
  split
  · rename_i hend
    have hall := (readSome_eq_nil_iff hopen.got.length_le le_rfl).mp hend
    refine ⟨?_, nofun, sound.calls.writing, nofun, ?_⟩
    · exact hcounted.notify hopen.key_mem hopen.infer (hopen.file_eq ▸ hopen.length_le) r.drop
    · exact sound.calls.concat ((hopen.got.eq_of_length hall).trans hopen.file_eq)
  · refine ⟨sound.handler, ?_, sound.calls.writing, ?_, sound.calls.returned⟩
    · rintro r' ⟨⟩
      exact { hopen with got := append_readSome_prefix hopen.got }
    · rintro r' ⟨⟩
      exact sound.calls.apart r hr

theorem Sound.rewrite (sound : Sound cfg origin keys c s) {w : Writing}
    (hw : Filled cfg origin keys w.chunk.streamKey w.chunk.seqNum w.data)
    (hother : ∀ r ∈ s.reading, r.chunk ≠ w.chunk) : Sound cfg origin keys c (s.rewrite w) := by
  have hreading := System.rewrite_reading hother
  refine ⟨sound.handler, hreading ▸ sound.calls.reading, ?_, ?_, sound.calls.returned⟩
  · rintro w' ⟨⟩
    exact hw
  · rw [hreading]
    rintro r hr w' ⟨⟩
    exact hother r hr

theorem Sound.work (sound : Sound cfg origin keys c s) {worker : Fin cfg.workers}
    {rest : List ChunkInfo} (hjob : s.handler.prefetch.jobs worker = chunk :: rest)
    (hother : ∀ r ∈ s.reading, r.chunk ≠ chunk) (fetch : Fetch) :
    Sound cfg origin keys c
      (s.work c.toCacheAccessor worker chunk rest (fetch.response origin)) := by
  have hall : ∀ chunk' ∈ chunk :: rest, Ahead cfg origin keys chunk'.streamKey chunk'.seqNum :=
    hjob ▸ sound.handler.taken worker
  have hhandler := (processChunk_inv sound.handler chunk (fetch.response origin)).setJob
    (fun chunk' h' => hall chunk' (List.mem_cons_of_mem chunk h')) worker
  have hnext : Sound cfg origin keys c { s with
      handler := (processChunk c.toCacheAccessor s.handler chunk
        (fetch.response origin)).1.setJob worker rest } := ⟨hhandler, sound.calls⟩
  unfold System.work
  simp only
  split
  · exact hnext
  · have hempty : 0 < ([] : Bytes).length →
        Filled cfg origin keys chunk.streamKey chunk.seqNum [] := fun hpos => by simp at hpos
    exact ⟨hhandler.store hempty, sound.calls⟩
  · rename_i data hne hdata
    have hpos : 0 < data.length := List.length_pos_iff.mpr fun hnil => by simp [hnil] at hne
    exact hnext.rewrite (processChunk_filled (hall chunk List.mem_cons_self) hdata hpos) hother

theorem step_sound (sep : Separate cfg origin keys) (s : System σ cfg) (a : Act cfg)
    (s' : System σ cfg) (sound : Sound cfg origin keys c s) (hapart : Apart keys s a)
    (hstep : step c.toCacheAccessor origin s a = some s') : Sound cfg origin keys c s' := by
  cases a with
  | hit key drop =>
    obtain ⟨⟨streamKey, seqNum⟩, hinfer, hhit⟩ := Option.bind_eq_some_iff.mp hstep
    refine sound.hit sep hapart.1 hinfer (fun w hw he => ?_) hhit
    exact hapart.2 w hw (by rw [hinfer, ← he])
  | read more =>
    obtain ⟨r, hr, rfl⟩ := Option.map_eq_some_iff.mp hstep
    exact sound.read hr more
  | miss key fetch drop =>
    obtain ⟨⟨streamKey, seqNum⟩, hinfer, hmiss⟩ := Option.bind_eq_some_iff.mp hstep
    exact sound.miss hapart hinfer hmiss
  | take worker =>
    simp only [step] at hstep
    split at hstep
    · rename_i job queue _ hqueue
      cases hstep
      have hall : ∀ job' ∈ job :: queue, ∀ chunk ∈ job',
          Ahead cfg origin keys chunk.streamKey chunk.seqNum := hqueue ▸ sound.handler.queued
      have hrest : Inv cfg origin keys c
          { s.handler with prefetch := { s.handler.prefetch with queue } } :=
        ⟨sound.handler.cached, fun job' hjob' => hall job' (List.mem_cons_of_mem job hjob'),
          sound.handler.taken⟩
      exact ⟨hrest.setJob (hall job List.mem_cons_self) worker, sound.calls⟩
    · cases hstep
  | work worker fetch =>
    simp only [step] at hstep
    split at hstep
    · rename_i hjob
      cases hstep
      exact sound.work hjob (fun r hr => hapart r hr _ (by rw [hjob]; rfl)) fetch
    · cases hstep
  | write more =>
    obtain ⟨w, hw, rfl⟩ := Option.map_eq_some_iff.mp hstep
    have hfilled := sound.calls.writing w hw
    unfold System.write
    split
    · exact sound.rewrite hfilled fun r hr => sound.calls.apart r hr w hw
    · exact ⟨sound.handler.store fun _ => hfilled, sound.calls.reading, nofun,
        fun _ _ => nofun, sound.calls.returned⟩
  | stop =>
    cases hstep
    exact ⟨sound.handler.of_entries (fun _ _ hentry => hentry) rfl rfl, sound.calls⟩

theorem chunkName_some {name : Bytes} (h : chunkName key = some name) :
    ∃ streamKey seqNum, inferStreamFromChunkKey key = some (streamKey, seqNum) ∧
      chunkCacheKey streamKey seqNum = name := by
  obtain ⟨⟨streamKey, seqNum⟩, hinfer, hname⟩ := Option.map_eq_some_iff.mp h
  exact ⟨streamKey, seqNum, hinfer, hname⟩

theorem sound_start (hempty : ∀ name, c.entry cache name = none) :
    Sound cfg origin keys c (System.start cfg cache) :=
  ⟨inv_start hempty, nofun, nofun, nofun, nofun⟩

theorem Separate.faithful (sep : Separate cfg origin keys) : FaithfulFor cfg origin keys := by
  intro σ c cache hempty s hreach
  have sound : Sound cfg origin keys c s :=
    hreach.invariant (Sound cfg origin keys c) (sound_start hempty) (step_sound sep)
  refine ⟨sound.calls.returned, ?_⟩
  intro key hkey other hother hne name hname hsame
  obtain ⟨streamKey, seqNum, hinfer, rfl⟩ := chunkName_some hname
  obtain ⟨streamKey', seqNum', hinfer', hkeys⟩ := chunkName_some hsame
  obtain ⟨rfl, rfl⟩ := chunkCacheKey_inj hkeys
  cases hentry : c.entry s.handler.window.cache (chunkCacheKey streamKey' seqNum') with
  | none => rfl
  | some d =>
    exact absurd (sound.handler.filled hentry) (sep.not_filled hkey hother hne hinfer hinfer')

end

/-! ### Other keys are not

The cache of these runs is a map. Its deletes fail if `deletes` is not set, so that no
window is too small. -/

def mapCache (deletes : Bool) : LossyCache (Bytes → Option Bytes) where
  get s key := (s, s key)
  put s key data := (Function.update s key (some data), true)
  has s key := (s key).isSome
  delete s key := if deletes then (Function.update s key none, true) else (s, false)
  entry s := s
  get_hit _ _ _ h := h
  get_entry _ _ _ _ h := h
  put_entry s key data name d h := by
    simp only at h
    by_cases hname : name = key
    · subst hname
      rw [Function.update_self] at h
      exact Or.inr ⟨rfl, (Option.some.inj h).symm⟩
    · rw [Function.update_of_ne hname] at h
      exact Or.inl h
  delete_entry s key name d h := by
    split at h
    · simp only at h
      by_cases hname : name = key
      · subst hname
        rw [Function.update_self] at h
        cases h
      · rwa [Function.update_of_ne hname] at h
    · exact h

def keeping : CacheAccessor (Bytes → Option Bytes) := (mapCache false).toCacheAccessor

theorem evict_keeping (streamKey : Bytes) (old : List Int64) (cache : Bytes → Option Bytes) :
    evict keeping streamKey old cache = cache := by
  induction old with
  | nil => rfl
  | cons seq old ih => exact ih

theorem storeChunk_keeping (cache : Bytes → Option Bytes) (streamKey data : Bytes)
    (seqNum : Int64) : (storeChunk keeping cache streamKey seqNum data).2 = true := by
  unfold storeChunk
  split
  · rfl
  · rfl

theorem cacheChunk_keeping (cfg : StreamingConfig) (sw : SlidingWindow (Bytes → Option Bytes))
    (streamKey data : Bytes) (seqNum : Int64) :
    (cacheChunk keeping cfg sw streamKey seqNum data).2 = true ∧
      (cacheChunk keeping cfg sw streamKey seqNum data).1.cache =
        (storeChunk keeping sw.cache streamKey seqNum data).1 := by
  unfold cacheChunk
  simp [storeChunk_keeping, evict_keeping]

theorem readLimited_whole (h : data.length ≤ maxBytes) (contentLen : ℤ) :
    readLimited ⟨contentLen, data, false⟩ maxBytes = .ok data := by
  have htake : data.take (maxBytes + 1) = data := List.take_of_length_le (by omega)
  simp [readLimited, htake, Nat.not_lt.mpr h]

section
variable {origin : Bytes → Bytes} {keys : Set Bytes}

/- The states with nobody reading or writing that calls for `keys` lead to. -/
def Quiet (origin : Bytes → Bytes) (keys : Set Bytes)
    (h : Handler (Bytes → Option Bytes) cfg) : Prop :=
  ∃ returned, Reach (step keeping origin) (Apart keys) (System.start cfg fun _ => none)
    ⟨h, none, none, returned⟩

variable {streamKey : Bytes} {seqNum : Int64} {h : Handler (Bytes → Option Bytes) cfg}
  {worker : Fin cfg.workers}

/- The first call caches the origin's bytes and then notifies the prefetcher. -/
theorem miss_caches (cfg : StreamingConfig) {key : Bytes} (hkey : key ∈ keys)
    (hinfer : inferStreamFromChunkKey key = some (streamKey, seqNum))
    (hlen : (origin key).length ≤ maxStreamingChunkBytes) :
    ∃ h : Handler (Bytes → Option Bytes) cfg,
      Quiet origin keys (onChunkRequest keeping h streamKey seqNum false) ∧
      h.window.cache = (storeChunk keeping (fun _ => none) streamKey seqNum (origin key)).1 ∧
      h.prefetch = (newHandler cfg fun _ : Bytes => (none : Option Bytes)).prefetch := by
  have hbody : (Fetch.body (-1)).response origin key = some ⟨-1, origin key, false⟩ := rfl
  have hlimit : ¬ (maxStreamingChunkBytes : ℤ) < -1 := by omega
  have hreach := (Reach.start : Reach (step keeping origin) (Apart keys)
    (System.start cfg fun _ => none) _).next (Act.miss key (.body (-1)) false) hkey
    (by
      simp only [step, hinfer, Option.bind_some]
      rfl)
  unfold serveFromOrigin at hreach
  simp only [hbody, hlimit, if_false, readLimited_whole hlen] at hreach
  by_cases hpos : 0 < (origin key).length
  · rw [if_pos hpos] at hreach
    exact ⟨_, ⟨_, hreach⟩, (cacheChunk_keeping cfg _ _ _ _).2, rfl⟩
  · rw [if_neg hpos] at hreach
    refine ⟨_, ⟨_, hreach⟩, ?_, rfl⟩
    rw [storeChunk, if_neg hpos]
    rfl

theorem following_ne {n m : Int64} (h : n ∈ cfg.following m) : n ≠ m := by
  intro he
  obtain ⟨i, hi, hsum⟩ := List.mem_map.mp h
  rw [he, Int64.add_eq_left] at hsum
  have hlt := cfg.prefetchCount.toInt_lt
  have hrange := List.mem_range.mp hi
  have hzero := congrArg Int64.toInt hsum
  rw [Int64.toInt_ofNat_of_lt (by omega), Int64.toInt_zero] at hzero
  omega

theorem download_whole (hvalid : validateStreamKey streamKey = streamKey) (hne : streamKey ≠ [])
    (hlen : (origin (chunkCacheKey streamKey seqNum)).length ≤ maxStreamingChunkBytes) :
    download ((Fetch.body (-1)).response origin) ⟨streamKey, seqNum⟩ =
      some (origin (chunkCacheKey streamKey seqNum)) := by
  have hlimit : ¬ (maxStreamingChunkBytes : ℤ) < -1 := by omega
  simp only [download, hvalid, hne, if_false, Fetch.response, hlimit, readLimited_whole hlen]
  rfl

variable {rest : List ChunkInfo}

/- A worker can be refused every chunk in front of the ones it is to come to. -/
theorem work_skips (front : List ChunkInfo) (hquiet : Quiet origin keys h)
    (hjob : h.prefetch.jobs worker = front ++ rest) :
    ∃ h', Quiet origin keys h' ∧ h'.prefetch.jobs worker = rest ∧ h'.window = h.window := by
  induction front generalizing h with
  | nil => exact ⟨h, hquiet, hjob, rfl⟩
  | cons chunk front ih =>
    obtain ⟨returned, hreach⟩ := hquiet
    have hdown : download (Fetch.refused.response origin) chunk = none := by
      simp [download, Fetch.response]
    have hnone : (processChunk keeping h chunk (Fetch.refused.response origin)).2 = none ∧
        (processChunk keeping h chunk (Fetch.refused.response origin)).1.window = h.window := by
      unfold processChunk
      rw [hdown]
      split <;> exact ⟨rfl, rfl⟩
    have hnext := hreach.next (Act.work worker .refused) (fun r hr => nomatch hr)
      (by simp only [step, hjob, List.cons_append]; rfl)
    simp only [System.work, hnone.1] at hnext
    obtain ⟨h', hquiet', hjob', hwindow⟩ := ih ⟨_, hnext⟩ (Handler.setJob_self ..)
    exact ⟨h', hquiet', hjob', hwindow.trans hnone.2⟩

theorem store_keeping (h : Handler (Bytes → Option Bytes) cfg) (chunk : ChunkInfo) {data : Bytes}
    (hpos : 0 < data.length) :
    (h.store keeping chunk data).window.cache (chunkCacheKey chunk.streamKey chunk.seqNum) =
      some data := by
  obtain ⟨hok, hcache⟩ := cacheChunk_keeping cfg h.window chunk.streamKey data chunk.seqNum
  simp only [Handler.store, hok, Bool.true_eq_false, if_false]
  rw [hcache, storeChunk, if_pos hpos]
  exact Function.update_self (chunkCacheKey chunk.streamKey chunk.seqNum) _ _

/- The worker then fetches the object that is named like the chunk, and writes it. -/
theorem work_caches (hquiet : Quiet origin keys h)
    (hjob : h.prefetch.jobs worker = ⟨streamKey, seqNum⟩ :: rest)
    (hvalid : validateStreamKey streamKey = streamKey) (hne : streamKey ≠ [])
    (hmiss : h.window.cache (chunkCacheKey streamKey seqNum) = none)
    (hdata : Cacheable (origin (chunkCacheKey streamKey seqNum))) :
    ∃ h' : Handler (Bytes → Option Bytes) cfg, Quiet origin keys h' ∧
      h'.window.cache (chunkCacheKey streamKey seqNum) =
        some (origin (chunkCacheKey streamKey seqNum)) := by
  obtain ⟨returned, hreach⟩ := hquiet
  have hhas : hasChunk keeping h.window streamKey seqNum = false := by
    show (h.window.cache (chunkCacheKey streamKey seqNum)).isSome = false
    rw [hmiss]
    rfl
  have hfetch : processChunk keeping h ⟨streamKey, seqNum⟩ ((Fetch.body (-1)).response origin) =
      (h, some (origin (chunkCacheKey streamKey seqNum))) := by
    simp only [processChunk, hhas, Bool.false_eq_true, and_false, if_false,
      download_whole hvalid hne hdata.2]
  obtain ⟨b, bs, hbytes⟩ := List.exists_cons_of_length_pos hdata.1
  rw [hbytes] at hfetch
  have hbegun := hreach.next (Act.work worker (.body (-1))) (fun r hr => nomatch hr)
    (by simp only [step, hjob, System.work, hfetch]; rfl)
  have hwritten := hbegun.next (Act.write bs.length) trivial
    (congrArg some (if_pos (by simp)))
  have hdone := hwritten.next (Act.write 0) trivial (congrArg some (if_neg (by simp)))
  refine ⟨_, ⟨_, hdone⟩, ?_⟩
  rw [hbytes]
  exact store_keeping _ ⟨streamKey, seqNum⟩ (List.length_pos_of_ne_nil (List.cons_ne_nil b bs))

theorem wanted_of_count (c : CacheAccessor σ) (sw : SlidingWindow σ) (streamKey : Bytes)
    (seqNum : Int64) (hcount : cfg.prefetchCount ≤ 0) : wanted c cfg sw streamKey seqNum = [] := by
  have hle := Int64.le_iff_toInt_le.mp hcount
  rw [Int64.toInt_zero] at hle
  have hzero : cfg.prefetchCount.toInt.toNat = 0 := by omega
  simp [wanted, StreamingConfig.following, hzero]

theorem onChunkRequest_sends {c : CacheAccessor σ} {h : Handler σ cfg} {n : Int64}
    {chunk : ChunkInfo} (hon : cfg.enabled = true)
    (hvalid : validateStreamKey streamKey = streamKey) (hne : streamKey ≠ [])
    (hchunk : chunk ∈ wanted c cfg h.window streamKey n) :
    onChunkRequest c h streamKey n false =
      { h with prefetch := h.prefetch.send (wanted c cfg h.window streamKey n) false } := by
  have hcount : ¬ cfg.prefetchCount ≤ 0 := by
    intro hle
    rw [wanted_of_count c h.window streamKey n hle] at hchunk
    cases hchunk
  unfold onChunkRequest Handler.enqueue
  simp only [hon, Bool.true_eq_false, hcount, or_self, if_false, hvalid, hne,
    List.ne_nil_of_mem hchunk]

/- One request for a key queues the chunk, and the first worker takes the job. -/
theorem taken_reached (hahead : Ahead cfg origin keys streamKey seqNum) :
    ∃ (h : Handler (Bytes → Option Bytes) cfg) (worker : Fin cfg.workers), Quiet origin keys h ∧
      (⟨streamKey, seqNum⟩ : ChunkInfo) ∈ h.prefetch.jobs worker ∧
      h.window.cache (chunkCacheKey streamKey seqNum) = none := by
  obtain ⟨hon, key, hkey, n, hinfer, hlen, hnext⟩ := hahead
  obtain ⟨hvalid, hne⟩ := infer_stream hinfer
  obtain ⟨h, ⟨returned, hreach⟩, hcache, hprefetch⟩ := miss_caches cfg hkey hinfer hlen
  -- only the chunk that was asked for is cached
  have hmiss : h.window.cache (chunkCacheKey streamKey seqNum) = none := by
    have hname : chunkCacheKey streamKey seqNum ≠ chunkCacheKey streamKey n :=
      fun he => following_ne hnext (chunkCacheKey_inj he).2
    rw [hcache, storeChunk]
    split
    · exact Function.update_of_ne hname (some (origin key)) fun _ => none
    · rfl
  have hwanted : (⟨streamKey, seqNum⟩ : ChunkInfo) ∈ wanted keeping cfg h.window streamKey n := by
    apply List.mem_map_of_mem
    rw [List.mem_filter]
    refine ⟨hnext, ?_⟩
    show (!(h.window.cache (chunkCacheKey streamKey seqNum)).isSome) = true
    rw [hmiss]
    rfl
  rw [onChunkRequest_sends hon hvalid hne hwanted, hprefetch] at hreach
  let worker : Fin cfg.workers := ⟨0, cfg.workers_pos⟩
  refine ⟨_, worker, ⟨_, hreach.next (.take worker) trivial rfl⟩, ?_, hmiss⟩
  rw [Handler.setJob_self]
  exact hwanted

theorem ahead_reached (hahead : Ahead cfg origin keys streamKey seqNum)
    (hdata : Cacheable (origin (chunkCacheKey streamKey seqNum))) :
    ∃ h : Handler (Bytes → Option Bytes) cfg, Quiet origin keys h ∧
      h.window.cache (chunkCacheKey streamKey seqNum) =
        some (origin (chunkCacheKey streamKey seqNum)) := by
  obtain ⟨hvalid, hne⟩ := ahead_valid hahead
  obtain ⟨h, worker, hquiet, hjob, hmiss⟩ := taken_reached hahead
  obtain ⟨front, rest, hsplit⟩ := List.append_of_mem hjob
  obtain ⟨h', hquiet', hjob', hwindow⟩ := work_skips front hquiet hsplit
  exact work_caches hquiet' hjob' hvalid hne (hwindow ▸ hmiss) hdata

/- A call that hits, and reads the chunk in one piece. -/
theorem hit_returns (hquiet : Quiet origin keys h) {key data : Bytes} (hkey : key ∈ keys)
    (hinfer : inferStreamFromChunkKey key = some (streamKey, seqNum))
    (hcached : h.window.cache (chunkCacheKey streamKey seqNum) = some data) :
    ∃ s, Reach (step keeping origin) (Apart keys) (System.start cfg fun _ => none) s ∧
      (key, ⟨data, data.length, true⟩) ∈ s.returned := by
  obtain ⟨returned, hreach⟩ := hquiet
  have hopened := hreach.next (Act.hit key false) ⟨hkey, fun w hw => nomatch hw⟩
    (by
      simp only [step, hinfer, Option.bind_some]
      exact congrArg (Option.map _) hcached)
  have hall : readSome data data.length [] data.length = data := by simp [readSome]
  have hread := hopened.next (Act.read data.length) trivial rfl
  simp only [System.read, hall] at hread
  by_cases hnil : data = []
  · refine ⟨_, hread, ?_⟩
    simp [hnil, serveFromCache]
  · simp only [hnil, if_false] at hread
    refine ⟨_, hread.next (Act.read 0) trivial rfl, ?_⟩
    simp [System.read, readSome, serveFromCache]

theorem FaithfulFor.separate (hall : FaithfulFor cfg origin keys) : Separate cfg origin keys where
  unshared key hkey other hother hne streamKey seqNum hinfer hsame hdata := by
    obtain ⟨h, ⟨returned, hreach⟩, hcache, -⟩ := miss_caches cfg hkey hinfer hdata.2
    have hname : chunkName key = some (chunkCacheKey streamKey seqNum) := by
      rw [chunkName, hinfer]
      rfl
    have hname' : chunkName other = some (chunkCacheKey streamKey seqNum) := by
      rw [chunkName, hsame]
      rfl
    have hempty : (onChunkRequest keeping h streamKey seqNum false).window.cache
        (chunkCacheKey streamKey seqNum) = none :=
      (hall _ (mapCache false) _ (fun _ => rfl) _ hreach).2 key hkey other hother hne _ hname hname'
    rw [onChunkRequest_window, hcache, storeChunk, if_pos hdata.1] at hempty
    simp [keeping, mapCache] at hempty
  ahead key hkey streamKey seqNum hinfer hahead hdata := by
    obtain ⟨h, hquiet, hcached⟩ := ahead_reached hahead hdata
    obtain ⟨s, hreach, hmem⟩ := hit_returns hquiet hkey hinfer hcached
    exact (hall _ (mapCache false) _ (fun _ => rfl) _ hreach).1 _ hmem

/-- For every configuration, origin and set of keys. -/
theorem chunks_faithful_iff (cfg : StreamingConfig) (origin : Bytes → Bytes) (keys : Set Bytes) :
    FaithfulFor cfg origin keys ↔ Separate cfg origin keys :=
  ⟨FaithfulFor.separate, Separate.faithful⟩

end

/- Every object is the same here, so any keys are separate; but a call that opens the chunk
   that a worker has just created reads nothing. -/
example : (exec (step (mapCache true).toCacheAccessor fun _ => [1, 2, 3])
    [.miss (lit "live/1.ts") (.body 3) false, .take ⟨0, by decide⟩, .work ⟨0, by decide⟩ (.body 3),
      .hit (lit "live/2.ts") false, .read 0] (System.start ⟨true, 3, 60, 4⟩ fun _ => none)).map
    System.returned =
      some [(lit "live/1.ts", ⟨[1, 2, 3], 3, false⟩), (lit "live/2.ts", ⟨[], 0, true⟩)] := by
  decide +kernel

/-! ### Two renditions of one stream -/

def audioKey : Bytes := lit "live/audio_1.ts"
def videoKey : Bytes := lit "live/video_1.ts"

def renditions (key : Bytes) : Bytes := if key = audioKey then [1] else [2]

/- `DefaultStreamingConfig`. -/
def defaultConfig : StreamingConfig := ⟨true, 3, 60, 4⟩

/- With a cache that never fails, a request for the audio and then one for the video. -/
def videoAfterAudio : List (Act defaultConfig) :=
  [.miss audioKey (.body 1) false, .hit videoKey false, .read 0, .read 0]

theorem video_request_gets_audio :
    (exec (step (mapCache true).toCacheAccessor renditions) videoAfterAudio
      (System.start defaultConfig fun _ => none)).map System.returned =
        some [(audioKey, ⟨renditions audioKey, 1, false⟩),
          (videoKey, ⟨renditions audioKey, 1, true⟩)] ∧
      renditions videoKey ≠ renditions audioKey ∧
      ¬ FaithfulFor defaultConfig renditions {audioKey, videoKey} := by
  refine ⟨by decide +kernel, by decide +kernel, fun hall => ?_⟩
  have haudio : inferStreamFromChunkKey audioKey = some (lit "live", 1) := by decide +kernel
  have hvideo : inferStreamFromChunkKey videoKey = some (lit "live", 1) := by decide +kernel
  exact hall.separate.unshared audioKey (.inl rfl) videoKey (.inr rfl) (by decide +kernel) _ _
    haudio hvideo ⟨by decide +kernel, by decide +kernel⟩

end EdgeDispatch.Streaming
