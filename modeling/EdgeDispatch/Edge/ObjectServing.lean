import EdgeDispatch.Lib.Transition
import EdgeDispatch.Edge.Cache
import EdgeDispatch.Edge.TokenCheck

/-! # Serving and caching objects (internal/edgeagent/server.go:356-526)

`handleObject` after its checks, for requests without a Range header: a hit is served
from the cache, a miss is fetched, sent to the client and cached by a goroutine. What
is cached is a by-product of sending it. Streaming chunks go through the same cache
(internal/streaming/handler.go, window.go, prefetch.go). Put runs under the cache's
lock, in several writes; Get does not take the lock, and the file that it opens is read
later. -/

namespace EdgeDispatch.Edge.ObjectServing
open Lib.ByteString Lib.Transition Edge.Cache
open Edge.TokenCheck (Method)

/-- A FetchResult: what the reads of the body return one after the other, and before
which of them the connection breaks, if it does. -/
structure FetchResult where
  chunks : List Bytes
  known : Bool
  readFails : Option ℕ

/- The origin's body, and -1 for a length that is not known. -/
def FetchResult.whole (fr : FetchResult) : Bytes := fr.chunks.flatten
def FetchResult.contentLength (fr : FetchResult) : ℤ := if fr.known then fr.whole.length else -1

/-- Who handles a request: `handleObject` itself, the WebSocket and gRPC proxy, or the
streaming handler, whose chunks have a cache key of their own. -/
inductive Route where
  | object
  | proxied
  | manifest
  | chunk (cacheKey : Bytes)

/-- A request, with what happens to it: `fetch` is the result of Fetch, `writeFails` the
write to the client that fails. The last three are about the temporary file. -/
structure Request where
  method : Method
  key : Bytes
  route : Route
  fetch : Option FetchResult
  writeFails : Option ℕ
  createTempFails : Bool
  tempWriteFails : Option ℕ
  reopenFails : Bool

/- `io.Copy` from a TeeReader: what the tee has got, and whether there was an error. A
   chunk goes to the tee before it goes to the client. -/
def copyTee : List Bytes → Option ℕ → Option ℕ → Option ℕ → Bytes × Bool
  | [], readFails, _, _ => ([], readFails.isSome)
  | c :: rest, readFails, writeFails, teeFails =>
    if readFails = some 0 ∨ teeFails = some 0 then ([], true)
    else if writeFails = some 0 then (c, true)
    else
      let r := copyTee rest (readFails.map Nat.pred) (writeFails.map Nat.pred)
        (teeFails.map Nat.pred)
      (c ++ r.1, r.2)

/- What the buffer behind the tee holds afterwards. -/
def serveFromFetchResult (r : Request) (fr : FetchResult) : Bytes :=
  if r.method = .head then [] else (copyTee fr.chunks fr.readFails r.writeFails none).1

/- What is handed to Put, if anything is. -/
def serveAndCacheLarge (r : Request) (fr : FetchResult) : Option Bytes :=
  if r.createTempFails then none
  else if r.method = .head then none
  else
    let t := copyTee fr.chunks fr.readFails r.writeFails r.tempWriteFails
    if t.2 then none else if r.reopenFails then none else some t.1

def largeFileThreshold : ℤ := 10 * 1024 * 1024

def FetchResult.large (fr : FetchResult) : Prop :=
  fr.contentLength > largeFileThreshold ∨ fr.contentLength < 0

instance (fr : FetchResult) : Decidable fr.large := inferInstanceAs (Decidable (_ ∨ _))

/- A goroutine that is to call Put; `whole` is what the origin had for the key. -/
structure Job where
  key : Bytes
  data : Bytes
  whole : Bytes
  deriving DecidableEq

def cacheMiss (r : Request) (fr : FetchResult) : Option Job :=
  (if fr.large then serveAndCacheLarge r fr else some (serveFromFetchResult r fr)).map
    fun data => ⟨r.key, data, fr.whole⟩

def maxStreamingChunkBytes : ℤ := 128 * 2 ^ 20

/- A streaming chunk is read to its end before it is cached. -/
def chunkMiss (cacheKey : Bytes) (fr : FetchResult) : Option Job :=
  if fr.contentLength > maxStreamingChunkBytes ∨ fr.readFails.isSome ∨
      (fr.whole.length : ℤ) > maxStreamingChunkBytes ∨ fr.whole = [] then none
  else some ⟨cacheKey, fr.whole, fr.whole⟩

/-- A Put that holds the lock, with what it has still to write. -/
structure Writing where
  job : Job
  rest : Bytes
  old : Option ℤ

/-- A hit whose file is open. Its client gets no more than `limit`, the Content-Length; a
chunk is read to the end of the file. `gone` is the file, if it has been removed. -/
structure Reader where
  key : Bytes
  limit : Option ℕ
  gone : Option Bytes
  got : Bytes

def Reader.file (c : DiskCache) (r : Reader) : Option Bytes :=
  r.gone.or (c.contentAt (keyName r.key))

/- A file that is removed can still be read where it is open. -/
def Reader.keep (c c' : DiskCache) (r : Reader) : Reader :=
  if c'.contentAt (keyName r.key) = none then { r with gone := r.file c } else r

/- `touches` are deferred access-time updates. The last three fields only record what
   happened: bodies the origin had, Puts that wrote all their data, hits read to the end. -/
structure State where
  cache : DiskCache
  jobs : List Job
  writing : Option Writing
  readers : List Reader
  touches : List Bytes
  fetched : List (Bytes × Bytes)
  stored : List Job
  served : List (Bytes × Bytes)

def start (maxGB : ℤ) : State := ⟨newCache maxGB, [], none, [], [], [], [], []⟩

def recordFetch (s : State) (key : Bytes) (fr : FetchResult) (job : Option Job) : State :=
  { s with fetched := (key, fr.whole) :: s.fetched, jobs := job.toList ++ s.jobs }

/- From the cache, or else from the origin, with `miss` to say what is then cached. For a
   hit `reader` has the size of the file. -/
def serve (s : State) (key : Bytes) (fetch : Option FetchResult) (reader : ℕ → Option Reader)
    (miss : FetchResult → Option Job) : State :=
  match s.cache.get key with
  | (c, some bs) =>
    { s with
      cache := c
      touches := keyName key :: s.touches
      readers := (reader bs.length).toList ++ s.readers }
  | (c, none) =>
    match fetch with
    | none => { s with cache := c }
    | some fr => recordFetch { s with cache := c } key fr (miss fr)

def handleObject (s : State) (r : Request) : State :=
  match r.route with
  | .object => serve s r.key r.fetch
      (fun n => if r.method = .head then none else some ⟨r.key, some n, none, []⟩) (cacheMiss r)
  | .chunk cacheKey => serve s cacheKey r.fetch (fun _ => some ⟨cacheKey, none, none, []⟩)
      (chunkMiss cacheKey)
  | .proxied | .manifest => s

inductive Act where
  | request (r : Request)
  | read (i : ℕ) (q : ℕ)
  | abandon (i : ℕ)
  | touch (i : ℕ) (now : ℤ)
  | lock (i : ℕ)
  | mkdirFails (i : ℕ)
  | createFails (i : ℕ)
  | write (n : ℕ)
  | copyFails
  | metaFails (lost : Bool)
  | finish (now : ℤ) (ord : MapOrder) (stuck : Bytes → Bool)
  | prefetch (cacheKey : Bytes) (fr : FetchResult)
  | leaveWindow (cacheKey : Bytes)

/- Put starts with an empty content file. -/
def lockStep (s : State) (i : ℕ) (job : Job) : State :=
  { s with
    jobs := s.jobs.eraseIdx i
    cache := s.cache.setContent (keyName job.key) (some [])
    writing := some ⟨job, job.data, s.cache.oldSize (keyName job.key)⟩ }

def createFailsStep (s : State) (i : ℕ) (job : Job) : State :=
  { s with
    jobs := s.jobs.eraseIdx i
    cache := s.cache.setContent (keyName job.key) (s.cache.contentAt (keyName job.key)) }

def fileBytes (s : State) (w : Writing) : Bytes :=
  (s.cache.contentAt (keyName w.job.key)).getD []

def writeStep (s : State) (w : Writing) (n : ℕ) : State :=
  { s with
    cache := s.cache.setContent (keyName w.job.key) (some (fileBytes s w ++ w.rest.take n))
    writing := some { w with rest := w.rest.drop n } }

/- The file that could not be written is removed. -/
def copyFailsStep (s : State) (w : Writing) : State :=
  { s with cache := s.cache.setContent (keyName w.job.key) none, writing := none }

def recordStored (s : State) (w : Writing) : State :=
  { s with writing := none, stored := { w.job with data := fileBytes s w } :: s.stored }

/- The content stays when meta.json cannot be written. -/
def metaFailsStep (s : State) (w : Writing) (lost : Bool) : State :=
  { recordStored s w with
    cache := if lost then s.cache.setMeta (keyName w.job.key) (some none) else s.cache }

def finishStep (s : State) (w : Writing) (now : ℤ) (ord : MapOrder) (stuck : Bytes → Bool) :
    State :=
  { recordStored s w with
    cache := s.cache.commit (keyName w.job.key) w.job.data.length w.old now ord stuck }

/- The job that gets the lock. -/
def unlocked (s : State) (i : ℕ) : Option Job :=
  match s.writing with
  | none => s.jobs[i]?
  | some _ => none

/- The Put whose data is all written. -/
def written (s : State) : Option Writing := s.writing.filter fun w => w.rest = []

/- At the end of the file or of the announced length the hit is over. -/
def readStep (s : State) (i q : ℕ) (r : Reader) (file : Bytes) : State :=
  let more := readSome file (r.limit.getD file.length) r.got q
  if more = [] then
    { s with readers := s.readers.eraseIdx i, served := (r.key, r.got) :: s.served }
  else { s with readers := s.readers.set i { r with got := r.got ++ more } }

def act (s : State) : Act → Option State
  | .request r => some (handleObject s r)
  | .read i q => s.readers[i]?.bind fun r => (r.file s.cache).map (readStep s i q r)
  | .abandon i => some { s with readers := s.readers.eraseIdx i }
  | .touch i now =>
    s.touches[i]?.map fun name =>
      { s with cache := s.cache.touch name now, touches := s.touches.eraseIdx i }
  | .lock i => (unlocked s i).map (lockStep s i)
  | .mkdirFails i => (unlocked s i).map fun _ => { s with jobs := s.jobs.eraseIdx i }
  | .createFails i => (unlocked s i).map (createFailsStep s i)
  | .write n => s.writing.map fun w => writeStep s w n
  | .copyFails => s.writing.map (copyFailsStep s)
  | .metaFails lost => (written s).map fun w => metaFailsStep s w lost
  | .finish now ord stuck => (written s).map fun w => finishStep s w now ord stuck
  | .prefetch cacheKey fr => some (recordFetch s cacheKey fr (chunkMiss cacheKey fr))
  | .leaveWindow cacheKey =>
    match s.writing with
    | none => some { s with cache := s.cache.delete cacheKey }
    | some _ => none

def relink (s t : State) : State :=
  { t with readers := t.readers.map (Reader.keep s.cache t.cache) }

def step (s : State) (a : Act) : Option State := (act s a).map (relink s)

/-- A Put that nobody looks in on does what `put` says. -/
theorem steps_of_put (s : State) (i : ℕ) (job : Job) (hu : unlocked s i = some job) (now : ℤ)
    (ord : MapOrder) (stuck : Bytes → Bool) :
    ∃ t, exec step [.lock i, .write job.data.length, .finish now ord stuck] s = some t ∧
      t.cache = (put s.cache ⟨job.key, job.data, now, .none, ord, stuck⟩).1 := by
  let s₁ := relink s (lockStep s i job)
  let w₁ : Writing := ⟨job, job.data, s.cache.oldSize (keyName job.key)⟩
  let s₂ := relink s₁ (writeStep s₁ w₁ job.data.length)
  let w₂ : Writing := { w₁ with rest := job.data.drop job.data.length }
  have hfile : fileBytes s₁ w₁ = [] := by
    show ((s.cache.setContent (keyName job.key) (some [])).contentAt (keyName job.key)).getD [] = []
    rw [DiskCache.contentAt_setContent_self]
    rfl
  have hwritten : written s₂ = some w₂ := by
    show (some w₂).filter _ = some w₂
    simp [Option.filter, w₂]
  have hcache : s₂.cache = s.cache.setContent (keyName job.key) (some job.data) := by
    show (s.cache.setContent _ (some [])).setContent _
      (some (fileBytes s₁ w₁ ++ job.data.take job.data.length)) = _
    rw [hfile, DiskCache.setContent_setContent, List.nil_append, List.take_length]
  refine ⟨relink s₂ (finishStep s₂ w₂ now ord stuck), ?_, ?_⟩
  · simp only [exec, step, act, hu, Option.map_some, Option.bind_some]
    show (((written s₂).map fun w => finishStep s₂ w now ord stuck).map (relink s₂)).bind some = _
    rw [hwritten]
    rfl
  · show s₂.cache.commit _ _ _ _ _ _ = _
    rw [hcache]
    rfl

/-- Every Put stored the origin's whole body, and every hit was served some whole body
of a key with the same digest. -/
def Faithful (s : State) : Prop :=
  (∀ job ∈ s.stored, job.data = job.whole) ∧
    ∀ hit ∈ s.served, ∃ key, keyName key = keyName hit.1 ∧ (key, hit.2) ∈ s.fetched

/-! ### What a copy leaves in the tee -/

theorem copyTee_no_error (chunks : List Bytes) (readFails writeFails teeFails : Option ℕ)
    (h : (copyTee chunks readFails writeFails teeFails).2 = false) :
    (copyTee chunks readFails writeFails teeFails).1 = chunks.flatten := by
  induction chunks generalizing readFails writeFails teeFails with
  | nil => rfl
  | cons c rest ih =>
    unfold copyTee at h ⊢
    split at h
    · cases h
    · split at h
      · cases h
      · rename_i hread hwrite
        rw [if_neg hread, if_neg hwrite, List.flatten_cons]
        exact congrArg (c ++ ·) (ih _ _ _ h)

/- A client that fails at the last chunk comes too late to cut the buffer. -/
theorem copyTee_last_write (chunks : List Bytes) (writeFails : Option ℕ)
    (h : ∀ n, writeFails = some n → chunks.length ≤ n + 1) :
    (copyTee chunks none writeFails none).1 = chunks.flatten := by
  induction chunks generalizing writeFails with
  | nil => rfl
  | cons c rest ih =>
    unfold copyTee
    rw [if_neg (by simp)]
    split
    · rename_i hw
      have hlen := h 0 hw
      have hrest : rest = [] := by
        apply List.eq_nil_of_length_eq_zero
        rw [List.length_cons] at hlen
        omega
      rw [hrest]
      simp
    · rename_i hw
      rw [List.flatten_cons]
      refine congrArg (c ++ ·) (ih _ ?_)
      intro n hn
      obtain ⟨m, hm, hpred⟩ := Option.map_eq_some_iff.mp hn
      have hlen := h m hm
      have hpos : m ≠ 0 := fun hz => hw (hz ▸ hm)
      have hnm : m - 1 = n := hpred
      rw [List.length_cons] at hlen
      omega

variable {r : Request} {fr : FetchResult} {job : Job} {s : State} {w : Writing}
  {fetch : Option FetchResult} {reader : ℕ → Option Reader} {miss : FetchResult → Option Job}

theorem serveAndCacheLarge_whole {data : Bytes} (h : serveAndCacheLarge r fr = some data) :
    data = fr.whole := by
  unfold serveAndCacheLarge at h
  split at h
  · cases h
  · split at h
    · cases h
    · simp only at h
      split at h
      · cases h
      · rename_i hok
        split at h
        · cases h
        · cases h
          exact copyTee_no_error _ _ _ _ (by simpa using hok)

/-! ### Runs that cut nothing off -/

/-- On the small path the whole body has to reach the buffer: no HEAD, no broken read,
no failing client before the last chunk. -/
def Uncut (r : Request) (fr : FetchResult) : Prop :=
  fr.large ∨ fr.whole = [] ∨ (r.method ≠ .head ∧ fr.readFails = none ∧
    ∀ n ∈ r.writeFails, fr.chunks.length ≤ n + 1)

/- No Put is writing the entry of this key. -/
def Settled (s : State) (key : Bytes) : Prop :=
  ∀ w ∈ s.writing, keyName w.job.key ≠ keyName key

/-- Misses are uncut, no request comes for an entry that is being written, and no Put of an
entry begins while a hit on it is being read. -/
def Orderly (s : State) : Act → Prop
  | .request r =>
    match r.route with
    | .object => Settled s r.key ∧ ∀ fr ∈ r.fetch, s.cache.has r.key = false → Uncut r fr
    | .chunk cacheKey => Settled s cacheKey
    | .proxied | .manifest => True
  | .lock i => ∀ job ∈ unlocked s i, ∀ r ∈ s.readers, r.gone = none →
      keyName job.key ≠ keyName r.key
  | _ => True

theorem copyTee_prefix (chunks : List Bytes) (readFails writeFails teeFails : Option ℕ) :
    (copyTee chunks readFails writeFails teeFails).1 <+: chunks.flatten := by
  induction chunks generalizing readFails writeFails teeFails with
  | nil => exact List.prefix_refl _
  | cons c rest ih =>
    unfold copyTee
    rw [List.flatten_cons]
    split
    · exact List.nil_prefix
    · split
      · exact List.prefix_append _ _
      · exact (List.prefix_append_right_inj c).mpr (ih _ _ _)

theorem serveFromFetchResult_whole (hu : Uncut r fr) (hsmall : ¬ fr.large) :
    serveFromFetchResult r fr = fr.whole := by
  unfold serveFromFetchResult
  rcases hu with hlarge | hempty | ⟨hmethod, hread, hwrite⟩
  · exact absurd hlarge hsmall
  · rw [hempty]
    split
    · rfl
    · have hpre := copyTee_prefix fr.chunks fr.readFails r.writeFails none
      rw [show fr.chunks.flatten = [] from hempty] at hpre
      exact List.prefix_nil.mp hpre
  · rw [if_neg hmethod, hread]
    exact copyTee_last_write fr.chunks r.writeFails hwrite

/- A job that stores the whole of what was fetched for its key. -/
def Job.Whole (job : Job) (key : Bytes) (fr : FetchResult) : Prop :=
  job.data = job.whole ∧ (job.key, job.whole) = (key, fr.whole)

theorem cacheMiss_whole (h : cacheMiss r fr = some job) (hu : Uncut r fr) : job.Whole r.key fr := by
  obtain ⟨data, hdata, rfl⟩ := Option.map_eq_some_iff.mp h
  refine ⟨?_, rfl⟩
  split at hdata
  · exact serveAndCacheLarge_whole hdata
  · rename_i hsmall
    cases hdata
    exact serveFromFetchResult_whole hu hsmall

theorem chunkMiss_whole {cacheKey : Bytes} (h : chunkMiss cacheKey fr = some job) :
    job.Whole cacheKey fr := by
  unfold chunkMiss at h
  split at h
  · cases h
  · cases h
    exact ⟨rfl, rfl⟩

/- Jobs and finished entries hold whole bodies; the entry being written holds a first
   part of one. -/
structure Inv (s : State) : Prop where
  jobs : ∀ job ∈ s.jobs, job.data = job.whole ∧ (job.key, job.whole) ∈ s.fetched
  writing : ∀ w, s.writing = some w → w.job.data = w.job.whole ∧
    (w.job.key, w.job.whole) ∈ s.fetched ∧
    ∃ bs, s.cache.contentAt (keyName w.job.key) = some bs ∧ bs ++ w.rest = w.job.data
  disk : ∀ name bs, s.cache.contentAt name = some bs →
    (∀ w, s.writing = some w → keyName w.job.key ≠ name) →
    ∃ key, keyName key = name ∧ (key, bs) ∈ s.fetched
  faithful : Faithful s

theorem inv_start (maxGB : ℤ) : Inv (start maxGB) where
  jobs _ h := nomatch h
  writing _ h := nomatch h
  disk _ _ h _ := nomatch h
  faithful := ⟨fun _ h => (nomatch h), fun _ h => (nomatch h)⟩

theorem recordFetch_inv (h : Inv s) (key : Bytes) (fr : FetchResult) (job : Option Job)
    (hjob : ∀ j, job = some j → j.Whole key fr) : Inv (recordFetch s key fr job) := by
  have hmore : ∀ x ∈ s.fetched, x ∈ (key, fr.whole) :: s.fetched :=
    fun x hx => List.mem_cons_of_mem _ hx
  refine ⟨?_, ?_, ?_, h.faithful.1, ?_⟩
  · intro j hj
    rcases List.mem_append.mp hj with hnew | hold
    · obtain ⟨hdata, hkey⟩ := hjob j (Option.mem_toList.mp hnew)
      exact ⟨hdata, hkey ▸ List.mem_cons_self ..⟩
    · exact ⟨(h.jobs j hold).1, hmore _ (h.jobs j hold).2⟩
  · intro w hw
    obtain ⟨hdata, hfetched, hfile⟩ := h.writing w hw
    exact ⟨hdata, hmore _ hfetched, hfile⟩
  · intro name bs hbs hfree
    obtain ⟨k, hname, hfetched⟩ := h.disk name bs hbs hfree
    exact ⟨k, hname, hmore _ hfetched⟩
  · intro hit hhit
    obtain ⟨k, hname, hfetched⟩ := h.faithful.2 hit hhit
    exact ⟨k, hname, hmore _ hfetched⟩

/- The counters of hits and misses do not matter. -/
theorem Inv.of_contentAt (h : Inv s) (c : DiskCache) (hc : c.contentAt = s.cache.contentAt) :
    Inv { s with cache := c } where
  jobs := h.jobs
  writing := by
    rw [hc]
    exact h.writing
  disk := by
    rw [hc]
    exact h.disk
  faithful := h.faithful

/- Whatever is not the entry being written is finished. -/
theorem Inv.disk_of_ne (h : Inv s) (hw : s.writing = some w) {name bs : Bytes}
    (hne : name ≠ keyName w.job.key) (hbs : s.cache.contentAt name = some bs) :
    ∃ key, keyName key = name ∧ (key, bs) ∈ s.fetched := by
  apply h.disk name bs hbs
  intro w' hw'
  rw [hw] at hw'
  cases hw'
  exact hne.symm

variable {key file : Bytes} {i : ℕ} {t : State}

theorem serve_inv (h : Inv s)
    (hmiss : ∀ fr ∈ fetch, s.cache.has key = false → ∀ j, miss fr = some j → j.Whole key fr) :
    Inv (serve s key fetch reader miss) := by
  unfold serve
  split
  · rename_i c bs hget
    have hc := h.of_contentAt c (DiskCache.get_hit hget).2
    exact ⟨hc.jobs, hc.writing, hc.disk, hc.faithful⟩
  · rename_i c hget
    obtain ⟨habsent, hsame⟩ := DiskCache.get_miss hget
    have hc := h.of_contentAt c hsame
    split
    · exact hc
    · rename_i fr
      exact recordFetch_inv hc key fr (miss fr) (hmiss fr rfl habsent)

theorem handleObject_inv (h : Inv s) (hg : Orderly s (.request r)) : Inv (handleObject s r) := by
  unfold handleObject
  simp only [Orderly] at hg
  split
  · rename_i hroute
    rw [hroute] at hg
    exact serve_inv h (fun fr hfr habsent j hj => cacheMiss_whole hj (hg.2 fr hfr habsent))
  · exact serve_inv h (fun fr _ _ j hj => chunkMiss_whole hj)
  · exact h
  · exact h

theorem unlocked_some (h : unlocked s i = some job) : s.writing = none ∧ job ∈ s.jobs := by
  unfold unlocked at h
  split at h
  · rename_i hw
    exact ⟨hw, List.mem_of_getElem? h⟩
  · cases h

theorem written_some (h : written s = some w) : s.writing = some w ∧ w.rest = [] := by
  obtain ⟨hw, hrest⟩ := Option.filter_eq_some_iff.mp h
  exact ⟨hw, by simpa using hrest⟩

theorem lockStep_inv (h : Inv s) (hu : unlocked s i = some job) : Inv (lockStep s i job) := by
  obtain ⟨hnone, hjob⟩ := unlocked_some hu
  refine ⟨fun j hj => h.jobs j (List.mem_of_mem_eraseIdx hj), ?_, ?_, h.faithful⟩
  · intro w hw
    cases hw
    exact ⟨(h.jobs job hjob).1, (h.jobs job hjob).2, [],
      DiskCache.contentAt_setContent_self .., List.nil_append _⟩
  · intro name bs hbs hfree
    have hne : name ≠ keyName job.key := (hfree _ rfl).symm
    have hold : s.cache.contentAt name = some bs :=
      (DiskCache.contentAt_setContent_ne _ _ _ _ hne).symm.trans hbs
    exact h.disk name bs hold (fun w hw => by rw [hnone] at hw; cases hw)

theorem createFailsStep_content (s : State) (i : ℕ) (job : Job) :
    (createFailsStep s i job).cache.contentAt = s.cache.contentAt := by
  funext name
  by_cases hn : name = keyName job.key
  · rw [hn]
    exact DiskCache.contentAt_setContent_self ..
  · exact DiskCache.contentAt_setContent_ne _ _ _ _ hn

theorem createFailsStep_inv (h : Inv s) (i : ℕ) (job : Job) : Inv (createFailsStep s i job) := by
  have hc := h.of_contentAt _ (createFailsStep_content s i job)
  exact ⟨fun j hj => h.jobs j (List.mem_of_mem_eraseIdx hj), hc.writing, hc.disk, hc.faithful⟩

theorem writeStep_inv (h : Inv s) (hw : s.writing = some w) (n : ℕ) : Inv (writeStep s w n) := by
  obtain ⟨hdata, hfetched, bs, hbs, hsplit⟩ := h.writing w hw
  have hfile : fileBytes s w = bs := by rw [fileBytes, hbs]; rfl
  refine ⟨h.jobs, ?_, ?_, h.faithful⟩
  · intro w' hw'
    cases hw'
    refine ⟨hdata, hfetched, bs ++ w.rest.take n, ?_, ?_⟩
    · show (s.cache.setContent _ (some (fileBytes s w ++ w.rest.take n))).contentAt _ = _
      rw [hfile]
      exact DiskCache.contentAt_setContent_self ..
    · rw [List.append_assoc, List.take_append_drop, hsplit]
  · intro name bs' hbs' hfree
    have hne : name ≠ keyName w.job.key := (hfree _ rfl).symm
    have hold : s.cache.contentAt name = some bs' :=
      (DiskCache.contentAt_setContent_ne _ _ _ _ hne).symm.trans hbs'
    exact h.disk_of_ne hw hne hold

theorem copyFailsStep_inv (h : Inv s) (hw : s.writing = some w) : Inv (copyFailsStep s w) := by
  refine ⟨h.jobs, fun _ hn => (nomatch hn), ?_, h.faithful⟩
  intro name bs hbs _
  by_cases hn : name = keyName w.job.key
  · rw [hn] at hbs
    have hnone : (copyFailsStep s w).cache.contentAt (keyName w.job.key) = none :=
      DiskCache.contentAt_setContent_self ..
    rw [hnone] at hbs
    cases hbs
  · have hold : s.cache.contentAt name = some bs :=
      (DiskCache.contentAt_setContent_ne _ _ _ _ hn).symm.trans hbs
    exact h.disk_of_ne hw hn hold

theorem metaFailsStep_content {lost : Bool} {name bs : Bytes}
    (h : (metaFailsStep s w lost).cache.contentAt name = some bs) :
    s.cache.contentAt name = some bs := by
  unfold metaFailsStep at h
  split at h
  · rwa [DiskCache.contentAt_setMeta] at h
  · exact h

/- Once all is written the entry is a finished one, whatever becomes of meta.json and
   whatever is evicted. -/
theorem recordStored_inv (h : Inv s) (hw : written s = some w) (c : DiskCache)
    (hc : ∀ name bs, c.contentAt name = some bs → s.cache.contentAt name = some bs) :
    Inv { recordStored s w with cache := c } := by
  obtain ⟨hwriting, hrest⟩ := written_some hw
  obtain ⟨hdata, hfetched, bs, hbs, hsplit⟩ := h.writing w hwriting
  have hwhole : bs = w.job.whole := by
    rw [← hdata, ← hsplit, hrest, List.append_nil]
  refine ⟨h.jobs, fun _ hn => (nomatch hn), ?_, ?_, h.faithful.2⟩
  · intro name bs' hbs' _
    by_cases hn : name = keyName w.job.key
    · subst hn
      have heq : bs' = bs := Option.some.inj ((hc _ _ hbs').symm.trans hbs)
      exact ⟨w.job.key, rfl, by rw [heq, hwhole]; exact hfetched⟩
    · exact h.disk_of_ne hwriting hn (hc name bs' hbs')
  · intro job hjob
    rcases List.mem_cons.mp hjob with rfl | hold
    · show fileBytes s w = w.job.whole
      rw [fileBytes, hbs]
      exact hwhole
    · exact h.faithful.1 job hold

/-! ### Hits that are being read -/

/- The reader has a first part of a whole body. -/
def Reader.Whole (c : DiskCache) (fetched : List (Bytes × Bytes)) (r : Reader) : Prop :=
  ∃ bs, r.file c = some bs ∧ r.got <+: bs ∧ (∀ n ∈ r.limit, n = bs.length) ∧
    ∃ key, keyName key = keyName r.key ∧ (key, bs) ∈ fetched

/- Nor will its file be changed. -/
structure Reader.Intact (s : State) (r : Reader) : Prop where
  whole : r.Whole s.cache s.fetched
  settled : r.gone = none → Settled s r.key

theorem getD_limit {limit : Option ℕ} {n : ℕ} (h : ∀ m ∈ limit, m = n) : limit.getD n = n := by
  cases hm : limit with
  | none => rfl
  | some m => exact h m hm

theorem readStep_inv (h : Inv s) {r : Reader} (hr : r.Intact s) (hfile : r.file s.cache = some file)
    {q : ℕ} : Inv (readStep s i q r file) := by
  obtain ⟨bs, hbs, hgot, hlimit, key, hname, hfetched⟩ := hr.whole
  cases hfile.symm.trans hbs
  unfold readStep
  simp only [getD_limit hlimit]
  split
  · rename_i hend
    have hlength := (readSome_eq_nil_iff hgot.length_le (le_refl _)).mp hend
    refine ⟨h.jobs, h.writing, h.disk, h.faithful.1, fun hit hhit => ?_⟩
    rcases List.mem_cons.mp hhit with rfl | hold
    · exact ⟨key, hname, by rw [hgot.eq_of_length hlength]; exact hfetched⟩
    · exact h.faithful.2 hit hold
  · exact ⟨h.jobs, h.writing, h.disk, h.faithful⟩

/-- A reader of `t`, a step after `s`, whose file may just have been removed. -/
structure Reader.Linked (s t : State) (r : Reader) : Prop where
  whole : r.Whole s.cache t.fetched
  settled : r.gone = none → Settled t r.key ∧
    ∀ bs, t.cache.contentAt (keyName r.key) = some bs → s.cache.contentAt (keyName r.key) = some bs

theorem Reader.Intact.linked {r : Reader} (h : r.Intact s) (hfetched : s.fetched ⊆ t.fetched)
    (hsettled : r.gone = none → Settled s r.key → Settled t r.key ∧ ∀ bs,
      t.cache.contentAt (keyName r.key) = some bs → s.cache.contentAt (keyName r.key) = some bs) :
    r.Linked s t := by
  obtain ⟨bs, hfile, hgot, hlimit, key, hname, hmem⟩ := h.whole
  exact ⟨⟨bs, hfile, hgot, hlimit, key, hname, hfetched hmem⟩,
    fun hgone => hsettled hgone (h.settled hgone)⟩

/- Nothing is written or removed. -/
theorem Reader.Intact.linked_same {r : Reader} (h : r.Intact s) (hfetched : s.fetched ⊆ t.fetched)
    (hwriting : t.writing = s.writing) (hcontent : t.cache.contentAt = s.cache.contentAt) :
    r.Linked s t :=
  h.linked hfetched fun _ hs => ⟨by rwa [Settled, hwriting], by rw [hcontent]; exact fun _ h => h⟩

theorem Reader.Linked.intact {r : Reader} (h : r.Linked s t) :
    (r.keep s.cache t.cache).Intact (relink s t) := by
  obtain ⟨bs, hfile, hrest⟩ := h.whole
  unfold keep
  split
  · refine ⟨⟨bs, ?_, hrest⟩, fun hgone => nomatch hgone.symm.trans hfile⟩
    show (r.file s.cache).or _ = some bs
    rw [hfile]
    rfl
  · rename_i hthere
    refine ⟨⟨bs, ?_, hrest⟩, fun hgone => (h.settled hgone).1⟩
    unfold file at hfile ⊢
    cases hgone : r.gone with
    | some g => rwa [hgone] at hfile
    | none =>
      rw [hgone, Option.none_or] at hfile
      obtain ⟨bs', hbs'⟩ := Option.ne_none_iff_exists'.mp hthere
      have hold := (h.settled hgone).2 bs' hbs'
      exact hbs'.trans (hold.symm.trans hfile)

theorem readStep_linked (hopen : ∀ r ∈ s.readers, r.Intact s) {r : Reader} (hr : r ∈ s.readers)
    (hfile : r.file s.cache = some file) {q : ℕ} :
    ∀ r' ∈ (readStep s i q r file).readers, r'.Linked s (readStep s i q r file) := by
  intro r' hr'
  unfold readStep at hr' ⊢
  simp only at hr' ⊢
  split at hr'
  · rename_i hend
    rw [if_pos hend]
    exact (hopen r' (List.mem_of_mem_eraseIdx hr')).linked_same (List.Subset.refl _) rfl rfl
  · rename_i hmore
    rw [if_neg hmore]
    rcases List.mem_or_eq_of_mem_set hr' with hold | rfl
    · exact (hopen r' hold).linked_same (List.Subset.refl _) rfl rfl
    · obtain ⟨⟨bs, hbs, hgot, hlimit, hkey⟩, hsettled⟩ := hopen r hr
      cases hfile.symm.trans hbs
      refine Reader.Intact.linked_same ⟨⟨file, hfile, ?_, hlimit, hkey⟩, hsettled⟩
        (List.Subset.refl _) rfl rfl
      exact append_readSome_prefix hgot

theorem serve_linked (h : Inv s) (hopen : ∀ r ∈ s.readers, r.Intact s) (hkey : Settled s key)
    (hreader : ∀ n, ∀ r ∈ reader n, ∃ limit, r = ⟨key, limit, none, []⟩ ∧ ∀ m ∈ limit, m = n) :
    ∀ r ∈ (serve s key fetch reader miss).readers,
      r.Linked s (serve s key fetch reader miss) := by
  unfold serve
  split
  · rename_i c bs hget
    obtain ⟨hbs, hsame⟩ := DiskCache.get_hit hget
    intro r hr
    have hintact : r.Intact s := by
      rcases List.mem_append.mp hr with hnew | hold
      · obtain ⟨limit, rfl, hlimit⟩ := hreader _ r (Option.mem_toList.mp hnew)
        exact ⟨⟨bs, hbs, List.nil_prefix, hlimit, h.disk _ _ hbs hkey⟩, fun _ => hkey⟩
      · exact hopen r hold
    exact hintact.linked_same (List.Subset.refl _) rfl hsame
  · rename_i c hget
    obtain ⟨-, hsame⟩ := DiskCache.get_miss hget
    intro r hr
    split at hr
    · exact (hopen r hr).linked_same (List.Subset.refl _) rfl hsame
    · exact (hopen r hr).linked_same (List.subset_cons_self _ _) rfl hsame

theorem handleObject_linked (h : Inv s) (hopen : ∀ r ∈ s.readers, r.Intact s)
    (hg : Orderly s (.request r)) :
    ∀ r' ∈ (handleObject s r).readers, r'.Linked s (handleObject s r) := by
  unfold handleObject
  simp only [Orderly] at hg
  split
  · rename_i hroute
    rw [hroute] at hg
    refine serve_linked h hopen hg.1 fun n r' hr' => ⟨some n, ?_, by simp⟩
    split at hr'
    · cases hr'
    · exact (Option.some.inj hr').symm
  · rename_i cacheKey hroute
    rw [hroute] at hg
    exact serve_linked h hopen hg fun n r' hr' => ⟨none, (Option.some.inj hr').symm, by simp⟩
  · exact fun r' hr' => (hopen r' hr').linked_same (List.Subset.refl _) rfl rfl
  · exact fun r' hr' => (hopen r' hr').linked_same (List.Subset.refl _) rfl rfl

theorem act_inv {a : Act} (h : Inv s) (hopen : ∀ r ∈ s.readers, r.Intact s) (hg : Orderly s a)
    (hs : act s a = some t) : Inv t ∧ ∀ r ∈ t.readers, r.Linked s t := by
  have hsub : s.fetched ⊆ s.fetched := List.Subset.refl _
  cases a with
  | request r =>
    cases hs
    exact ⟨handleObject_inv h hg, handleObject_linked h hopen hg⟩
  | read i q =>
    obtain ⟨r, hr, hs⟩ := Option.bind_eq_some_iff.mp hs
    obtain ⟨file, hfile, rfl⟩ := Option.map_eq_some_iff.mp hs
    have hmem := List.mem_of_getElem? hr
    exact ⟨readStep_inv h (hopen r hmem) hfile, readStep_linked hopen hmem hfile⟩
  | abandon i =>
    cases hs
    exact ⟨⟨h.jobs, h.writing, h.disk, h.faithful⟩,
      fun r hr => (hopen r (List.mem_of_mem_eraseIdx hr)).linked_same hsub rfl rfl⟩
  | touch i now =>
    obtain ⟨name, _, rfl⟩ := Option.map_eq_some_iff.mp hs
    exact ⟨⟨h.jobs, h.writing, h.disk, h.faithful⟩,
      fun r hr => (hopen r hr).linked_same hsub rfl rfl⟩
  | lock i =>
    obtain ⟨job, hu, rfl⟩ := Option.map_eq_some_iff.mp hs
    refine ⟨lockStep_inv h hu, fun r hr => (hopen r hr).linked hsub fun hgone _ => ?_⟩
    have hne := hg job hu r hr hgone
    refine ⟨fun w hw => by cases hw; exact hne, fun bs hbs => ?_⟩
    exact (DiskCache.contentAt_setContent_ne _ _ _ _ hne.symm).symm.trans hbs
  | mkdirFails i =>
    obtain ⟨job, _, rfl⟩ := Option.map_eq_some_iff.mp hs
    exact ⟨⟨fun j hj => h.jobs j (List.mem_of_mem_eraseIdx hj), h.writing, h.disk, h.faithful⟩,
      fun r hr => (hopen r hr).linked_same hsub rfl rfl⟩
  | createFails i =>
    obtain ⟨job, _, rfl⟩ := Option.map_eq_some_iff.mp hs
    exact ⟨createFailsStep_inv h i job,
      fun r hr => (hopen r hr).linked_same hsub rfl (createFailsStep_content s i job)⟩
  | write n =>
    obtain ⟨w, hw, rfl⟩ := Option.map_eq_some_iff.mp hs
    refine ⟨writeStep_inv h hw n, fun r hr => (hopen r hr).linked hsub fun _ hset => ?_⟩
    refine ⟨fun w' hw' => by cases hw'; exact hset w hw, fun bs hbs => ?_⟩
    exact (DiskCache.contentAt_setContent_ne _ _ _ _ (hset w hw).symm).symm.trans hbs
  | copyFails =>
    obtain ⟨w, hw, rfl⟩ := Option.map_eq_some_iff.mp hs
    refine ⟨copyFailsStep_inv h hw, fun r hr => (hopen r hr).linked hsub fun _ hset => ?_⟩
    refine ⟨nofun, fun bs hbs => ?_⟩
    exact (DiskCache.contentAt_setContent_ne _ _ _ _ (hset w hw).symm).symm.trans hbs
  | metaFails lost =>
    obtain ⟨w, hw, rfl⟩ := Option.map_eq_some_iff.mp hs
    exact ⟨recordStored_inv h hw _ fun _ _ => metaFailsStep_content,
      fun r hr => (hopen r hr).linked hsub fun _ _ => ⟨nofun, fun _ => metaFailsStep_content⟩⟩
  | finish now ord stuck =>
    obtain ⟨w, hw, rfl⟩ := Option.map_eq_some_iff.mp hs
    exact ⟨recordStored_inv h hw _ fun _ _ hbs => DiskCache.contentAt_commit hbs,
      fun r hr => (hopen r hr).linked hsub fun _ _ =>
        ⟨nofun, fun _ hbs => DiskCache.contentAt_commit hbs⟩⟩
  | prefetch cacheKey fr =>
    cases hs
    exact ⟨recordFetch_inv h cacheKey fr _ fun j hj => chunkMiss_whole hj,
      fun r hr => (hopen r hr).linked_same (List.subset_cons_self _ _) rfl rfl⟩
  | leaveWindow cacheKey =>
    simp only [act] at hs
    split at hs
    · rename_i hnone
      cases hs
      refine ⟨⟨h.jobs, fun w hw => ?_, ?_, h.faithful⟩, fun r hr => (hopen r hr).linked hsub
        fun _ hset => ⟨hset, fun _ hbs => DiskCache.contentAt_delete hbs⟩⟩
      · rw [hnone] at hw
        cases hw
      · intro name bs hbs hfree
        exact h.disk name bs (DiskCache.contentAt_delete hbs) hfree
    · cases hs

theorem step_inv (s : State) (a : Act) (t : State)
    (h : Inv s ∧ ∀ r ∈ s.readers, r.Intact s) (hg : Orderly s a) (hs : step s a = some t) :
    Inv t ∧ ∀ r ∈ t.readers, r.Intact t := by
  obtain ⟨u, hact, rfl⟩ := Option.map_eq_some_iff.mp hs
  obtain ⟨hu, hlinked⟩ := act_inv h.1 h.2 hg hact
  refine ⟨⟨hu.jobs, hu.writing, hu.disk, hu.faithful⟩, fun r hr => ?_⟩
  obtain ⟨r', hr', rfl⟩ := List.mem_map.mp hr
  exact (hlinked r' hr').intact

/-- While no miss is cut off before its last chunk, nobody asks for an entry that is being
written and no Put begins while its entry is being read, every Put stores a whole body and
every hit is served one. -/
theorem orderly_runs_cache_whole_bodies (maxGB : ℤ) (s : State)
    (h : Reach step Orderly (start maxGB) s) : Faithful s :=
  (h.invariant _ ⟨inv_start maxGB, fun _ hr => nomatch hr⟩ step_inv).1.faithful

/-! ### Runs with one object -/

def request (method : Method) (fetch : Option FetchResult) (writeFails : Option ℕ) : Request :=
  ⟨method, [107], .object, fetch, writeFails, false, none, false⟩

def twoChunks : FetchResult := ⟨[[1, 2], [3]], true, none⟩

def finish : Act := .finish 1 .inOrder fun _ => false

instance (s : State) (key : Bytes) : Decidable (Settled s key) :=
  inferInstanceAs (Decidable (∀ w ∈ s.writing, _))

instance (r : Request) (fr : FetchResult) : Decidable (Uncut r fr) :=
  inferInstanceAs (Decidable (_ ∨ _ ∨ _))

instance (s : State) (a : Act) : Decidable (Orderly s a) := by
  unfold Orderly
  split
  · split <;> infer_instance
  · infer_instance
  · infer_instance

/- What a run from an empty cache of 1 GB has put and served. -/
def logs (acts : List Act) : Option (List Job × List (Bytes × Bytes)) :=
  (exec step acts (start 1)).map fun s => (s.stored, s.served)

theorem reach_of_logs {guard : State → Act → Prop} {acts : List Act} {stored : List Job}
    {served : List (Bytes × Bytes)} (hg : Guarded step guard acts (start 1))
    (h : logs acts = some (stored, served)) :
    ∃ s, Reach step guard (start 1) s ∧ s.stored = stored ∧ s.served = served := by
  obtain ⟨s, hr, hlogs⟩ := reach_of_guarded_view hg _ h
  obtain ⟨hstored, hserved⟩ := Prod.mk.inj hlogs
  exact ⟨s, hr, hstored, hserved⟩

/- A HEAD request leaves an empty object in the cache, a client that goes away a
   truncated one; the next request is served that. -/
theorem head_and_broken_get_cut_entries :
    (∃ s, Reach step Free (start 1) s ∧ s.stored = [⟨[107], [], [1, 2, 3]⟩] ∧
      s.served = [([107], [])] ∧ ¬ Faithful s) ∧
    (∃ s, Reach step Free (start 1) s ∧ s.stored = [⟨[107], [1, 2], [1, 2, 3]⟩] ∧
      s.served = [([107], [1, 2])] ∧ ¬ Faithful s) := by
  have hcut : ∀ s data, s.stored = [⟨[107], data, [1, 2, 3]⟩] → data ≠ [1, 2, 3] →
      ¬ Faithful s := by
    intro s data hstored hne hf
    exact hne (hf.1 ⟨[107], data, [1, 2, 3]⟩ (by simp [hstored]))
  refine ⟨?_, ?_⟩
  · let acts := [.request (request .head twoChunks none), .lock 0, finish,
      .request (request .get none none), .read 0 0]
    have hrun : logs acts = some ([⟨[107], [], [1, 2, 3]⟩], [([107], [])]) := by
      decide +kernel
    obtain ⟨s, hr, hstored, hserved⟩ := reach_of_logs (guarded_free step acts _) hrun
    exact ⟨s, hr, hstored, hserved, hcut s [] hstored (by decide)⟩
  · let acts := [.request (request .get twoChunks (some 0)), .lock 0, .write 2, finish,
      .request (request .get none none), .read 0 1, .read 0 1]
    have hrun : logs acts = some ([⟨[107], [1, 2], [1, 2, 3]⟩], [([107], [1, 2])]) := by
      decide +kernel
    obtain ⟨s, hr, hstored, hserved⟩ := reach_of_logs (guarded_free step acts _) hrun
    exact ⟨s, hr, hstored, hserved, hcut s [1, 2] hstored (by decide)⟩

/- A client that goes away at the last chunk does no harm. -/
theorem broken_at_last_chunk_cached_whole :
    ∃ s, Reach step Orderly (start 1) s ∧ s.stored = [⟨[107], [1, 2, 3], [1, 2, 3]⟩] ∧
      s.served = [([107], [1, 2, 3])] ∧ Faithful s := by
  let acts := [.request (request .get twoChunks (some 1)), .lock 0, .write 3, finish,
    .request (request .get none none), .read 0 1, .read 0 1, .read 0 1]
  have hrun : logs acts = some ([⟨[107], [1, 2, 3], [1, 2, 3]⟩], [([107], [1, 2, 3])]) := by
    decide +kernel
  have hguard : Guarded step Orderly acts (start 1) := by decide +kernel
  obtain ⟨s, hr, hstored, hserved⟩ := reach_of_logs hguard hrun
  exact ⟨s, hr, hstored, hserved, orderly_runs_cache_whole_bodies 1 s hr⟩

end EdgeDispatch.Edge.ObjectServing
