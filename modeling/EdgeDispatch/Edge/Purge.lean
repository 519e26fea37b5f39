import EdgeDispatch.Edge.FetchDedup
import EdgeDispatch.Edge.ObjectServing
import EdgeDispatch.Streaming.Handler

/-! # Purging keys (internal/edgeagent/server.go:713-867, cache.go:214-247, 349-359)

`handlePurge` deletes the entries of its keys and reports them. What is fetched for
the cache is in one of three places until it is stored: a fetch in flight, a goroutine
that is to call Put, and a Put that is writing. A purge reaches none of them. -/

namespace EdgeDispatch.Edge.Purge
open Lib.ByteString Lib.GoStrings Lib.Transition
open Edge.Cache Streaming
open Edge.FetchDedup (Call)
open Edge.ObjectServing (FetchResult Job cacheMiss chunkMiss)
open Edge.TokenCheck (Method)

/-! ### The cache entries that requests for a key read -/

/-- Who answers a request for a key: `handleObject` itself or, with streaming enabled,
the handlers of chunks and manifests. A chunk without a number is an error. -/
inductive Answerer where
  | object
  | chunk (cacheKey : Bytes)
  | notChunk
  | manifest
  deriving DecidableEq

def answerer (streaming : Bool) (key : Bytes) : Answerer :=
  if streaming = true ∧ isStreamingRequest key = true then
    if isManifestRequest key then .manifest
    else
      match chunkName key with
      | some cacheKey => .chunk cacheKey
      | none => .notChunk
  else .object

/- From a client, as an upgrade to WebSocket or as gRPC, or from another node. -/
inductive Via where
  | client
  | proxied
  | peer
  deriving DecidableEq

/- The key that the cache is asked for. -/
def lookup (streaming : Bool) : Via → Bytes → Option Bytes
  | .client, key =>
    match answerer streaming key with
    | .object => some key
    | .chunk cacheKey => some cacheKey
    | .notChunk | .manifest => none
  | .proxied, _ => none
  | .peer, key => some key

/- The directories that requests for a key read. -/
def names (streaming : Bool) (key : Bytes) : List Bytes :=
  [Via.client, .peer].filterMap fun via => (lookup streaming via key).map keyName

/-! ### Requests, fetches and purges -/

/-- A request that has passed the checks, with what will happen to it as in
ObjectServing. -/
structure Request where
  via : Via
  method : Method
  key : Bytes
  rangeHeader : Bytes
  fetch : Option FetchResult
  writeFails : Option ℕ
  createTempFails : Bool
  tempWriteFails : Option ℕ
  reopenFails : Bool

def Request.object (r : Request) : ObjectServing.Request :=
  ⟨r.method, r.key, .object, r.fetch, r.writeFails, r.createTempFails, r.tempWriteFails,
    r.reopenFails⟩

/- The streaming handlers do not look at the Range header. -/
def Request.call (streaming : Bool) (r : Request) : Call :=
  match answerer streaming r.key with
  | .object => ⟨r.key, r.rangeHeader⟩
  | _ => ⟨r.key, []⟩

/- What is cached of a response. -/
def Request.job (streaming : Bool) (r : Request) (fr : FetchResult) : Option Job :=
  match answerer streaming r.key with
  | .object => if r.rangeHeader = [] then cacheMiss r.object fr else none
  | .chunk cacheKey => chunkMiss cacheKey fr
  | .notChunk | .manifest => none

/- `handlePrewarm` reads the body to its end. -/
def prewarmJob (key : Bytes) (fr : FetchResult) : Option Job :=
  if fr.readFails.isSome then none else some ⟨key, fr.whole, fr.whole⟩

/-- A fetch in flight for one of its callers: the call that started it, whether it goes
through the deduper, when it started, and what the caller will do with it; no result is
an error. -/
structure Flight where
  call : Call
  deduped : Bool
  started : ℕ
  result : Option (Option Job)

/- `missed` are the requests between their look at the cache and their fetch. The clock
   counts the entries purged. The last two fields only record what happened: the keys
   reported as purged, and the objects that were fetched without an error. -/
structure State where
  base : ObjectServing.State
  missed : List Request
  flights : List Flight
  clock : ℕ
  purged : List (Bytes × ℕ)
  completed : List (Bytes × ℕ)

/- `serving` are the steps of a Put, of a read of a file that is open, of a deferred update
   of an access time, and of a window that drops a chunk. -/
inductive Act where
  | request (r : Request)
  | fetch (i : ℕ) (shares : Option ℕ)
  | prewarm (key : Bytes) (fetch : Option FetchResult) (shares : Option ℕ)
  | prefetch (streamKey : Bytes) (seqNum : Int64) (fetch : Option FetchResult)
  | fetched (i : ℕ)
  | purge (key : Bytes)
  | purgeFails (key : Bytes) (lost : Bool)
  | serving (a : ObjectServing.Act)

def State.setCache (s : State) (c : DiskCache) : State :=
  { s with base := ObjectServing.relink s.base { s.base with cache := c } }

/- A manifest is fetched anew for every request. What is read of a hit does not matter. -/
def handleRequest (streaming : Bool) (s : State) (r : Request) : State :=
  match lookup streaming r.via r.key with
  | some cacheKey =>
    match s.base.cache.get cacheKey with
    | (c, some _) =>
      { s with base := { s.base with cache := c, touches := keyName cacheKey :: s.base.touches } }
    | (c, none) =>
      if r.via = .peer then s.setCache c else { s.setCache c with missed := r :: s.missed }
  | none =>
    if r.via = .client ∧ answerer streaming r.key = .manifest then
      { s with missed := r :: s.missed }
    else s

/- `doFetch`: a new fetch, or the one that is in flight under the same dedup key. -/
def doFetch (s : State) (call : Call) (result : Option (Option Job)) : Option ℕ → Option Flight
  | none => some ⟨call, true, s.clock, result⟩
  | some i =>
    (s.flights[i]?).bind fun f =>
      if f.deduped = true ∧ f.call.dedupKey = call.dedupKey then some { f with result } else none

/- The fetch that a step starts or joins. The prefetcher has an HTTP client of its own, and
   asks for the object with the name of the chunk. -/
def flight (streaming : Bool) (s : State) : Act → Option Flight
  | .fetch i shares =>
    (s.missed[i]?).bind fun r =>
      doFetch s (r.call streaming) (r.fetch.map (r.job streaming)) shares
  | .prewarm key fetch shares => doFetch s ⟨key, []⟩ (fetch.map (prewarmJob key)) shares
  | .prefetch streamKey seqNum fetch =>
    if validateStreamKey streamKey = [] then none
    else some ⟨⟨chunkCacheKey (validateStreamKey streamKey) seqNum, []⟩, false, s.clock,
      fetch.map (chunkMiss (chunkCacheKey streamKey seqNum))⟩
  | _ => none

/- A part of an object is not the object. -/
def fetchedStep (s : State) (i : ℕ) (f : Flight) : State :=
  { s with
    base := { s.base with jobs := f.result.join.toList ++ s.base.jobs }
    flights := s.flights.eraseIdx i
    completed :=
      if f.result.isSome = true ∧ f.call.rangeHeader = [] then
        (f.call.key, f.started) :: s.completed
      else s.completed }

/- One round of `DeleteKeys`, and what `handlePurge` will report of it. -/
def purgeStep (s : State) (key : Bytes) : State :=
  { s.setCache (s.base.cache.delete key) with
    clock := s.clock + 1
    purged := (key, s.clock + 1) :: s.purged }

def isServing : ObjectServing.Act → Bool
  | .request _ | .prefetch _ _ => false
  | _ => true

def step (streaming : Bool) (s : State) (a : Act) : Option State :=
  match a with
  | .request r => some (handleRequest streaming s r)
  | .fetch i _ =>
    (flight streaming s a).map fun f =>
      { s with missed := s.missed.eraseIdx i, flights := f :: s.flights }
  | .prewarm _ _ _ | .prefetch _ _ _ =>
    (flight streaming s a).map fun f => { s with flights := f :: s.flights }
  | .fetched i => (s.flights[i]?).map (fetchedStep s i)
  -- Delete waits for a Put that has the lock
  | .purge key => if s.base.writing.isSome then none else some (purgeStep s key)
  | .purgeFails key lost =>
    if s.base.writing.isSome then none
    else some (if lost then s.setCache (s.base.cache.setContent (keyName key) none) else s)
  | .serving a =>
    if isServing a then (ObjectServing.step s.base a).map fun base => { s with base } else none

/-! ### A purge that takes effect -/

def fromCache (streaming : Bool) (s : State) (r : Request) : Bool :=
  (lookup streaming r.via r.key).any s.base.cache.has

/- The key was fetched by a fetch that started after it was purged. -/
def Refetched (s : State) (p : Bytes × ℕ) : Prop := ∃ t, p.2 ≤ t ∧ (p.1, t) ∈ s.completed

/- What the fetch stores where requests for a purged key look is that object. -/
def Flight.Own (streaming : Bool) (s : State) (f : Flight) : Prop :=
  ∀ p ∈ s.purged, ∀ job ∈ f.result.join, keyName job.key ∈ names streaming p.1 →
    f.call = ⟨p.1, []⟩

/-- When a key is purged, its entry is the only one that requests for it read, no fetch of
the key is in flight, and nothing is about to be stored for these requests. Afterwards
nothing but the object itself is fetched for them. -/
def Orderly (streaming : Bool) (s : State) : Act → Prop
  | .purge key =>
    (∀ name ∈ names streaming key, name = keyName key ∨ s.base.cache.contentAt name = none) ∧
      (∀ job ∈ s.base.jobs, keyName job.key ∉ names streaming key) ∧
      ∀ f ∈ s.flights, f.call ≠ ⟨key, []⟩ ∧
        ∀ job ∈ f.result.join, keyName job.key ∉ names streaming key
  | a => ∀ f ∈ flight streaming s a, f.Own streaming s

/-! ### Entries that stay away -/

/-- No entry under these names, and none about to be stored. -/
structure Clear (ns : List Bytes) (b : ObjectServing.State) : Prop where
  content : ∀ name ∈ ns, b.cache.contentAt name = none
  jobs : ∀ job ∈ b.jobs, keyName job.key ∉ ns
  writing : ∀ w, b.writing = some w → keyName w.job.key ∉ ns

variable {ns : List Bytes} {b b' : ObjectServing.State}

theorem Clear.of_content (h : Clear ns b) {c : DiskCache}
    (hc : ∀ name bs, c.contentAt name = some bs → b.cache.contentAt name = some bs) :
    ∀ name ∈ ns, c.contentAt name = none := by
  intro name hname
  cases hbs : c.contentAt name with
  | none => rfl
  | some bs => exact nomatch (h.content name hname).symm.trans (hc name bs hbs)

/- What is written to an entry that is not there. -/
theorem Clear.setContent (h : Clear ns b) {name : Bytes} (v : Option Bytes)
    (hname : v = none ∨ name ∉ ns) :
    ∀ n ∈ ns, (b.cache.setContent name v).contentAt n = none := by
  intro n hn
  by_cases heq : n = name
  · subst heq
    rcases hname with rfl | hnot
    · exact DiskCache.contentAt_setContent_self ..
    · exact absurd hn hnot
  · rw [DiskCache.contentAt_setContent_ne _ _ _ _ heq]
    exact h.content n hn

theorem Clear.eraseIdx (h : Clear ns b) (i : ℕ) :
    ∀ job ∈ b.jobs.eraseIdx i, keyName job.key ∉ ns :=
  fun job hjob => h.jobs job (List.mem_of_mem_eraseIdx hjob)

/-- Reads, Puts, touches and windows that drop chunks. -/
theorem act_clear {a : ObjectServing.Act} (h : Clear ns b) (ha : isServing a = true)
    (hs : ObjectServing.act b a = some b') : Clear ns b' := by
  cases a with
  | request r => cases ha
  | prefetch cacheKey fr => cases ha
  | read i q =>
    obtain ⟨r, -, hs⟩ := Option.bind_eq_some_iff.mp hs
    obtain ⟨file, -, rfl⟩ := Option.map_eq_some_iff.mp hs
    unfold ObjectServing.readStep
    simp only
    split <;> exact ⟨h.content, h.jobs, h.writing⟩
  | abandon i =>
    cases hs
    exact ⟨h.content, h.jobs, h.writing⟩
  | touch i now =>
    obtain ⟨name, -, rfl⟩ := Option.map_eq_some_iff.mp hs
    exact ⟨h.content, h.jobs, h.writing⟩
  | lock i =>
    obtain ⟨job, hu, rfl⟩ := Option.map_eq_some_iff.mp hs
    have hjob := h.jobs job (ObjectServing.unlocked_some hu).2
    refine ⟨h.setContent _ (.inr hjob), h.eraseIdx i, ?_⟩
    intro w hw
    cases hw
    exact hjob
  | mkdirFails i =>
    obtain ⟨job, -, rfl⟩ := Option.map_eq_some_iff.mp hs
    exact ⟨h.content, h.eraseIdx i, h.writing⟩
  | createFails i =>
    obtain ⟨job, hu, rfl⟩ := Option.map_eq_some_iff.mp hs
    have hjob := h.jobs job (ObjectServing.unlocked_some hu).2
    exact ⟨h.setContent _ (.inr hjob), h.eraseIdx i, h.writing⟩
  | write n =>
    obtain ⟨w, hw, rfl⟩ := Option.map_eq_some_iff.mp hs
    refine ⟨h.setContent _ (.inr (h.writing w hw)), h.jobs, ?_⟩
    intro w' hw'
    cases hw'
    exact h.writing w hw
  | copyFails =>
    obtain ⟨w, -, rfl⟩ := Option.map_eq_some_iff.mp hs
    exact ⟨h.setContent none (.inl rfl), h.jobs, fun _ hw => (nomatch hw)⟩
  | metaFails lost =>
    obtain ⟨w, -, rfl⟩ := Option.map_eq_some_iff.mp hs
    exact ⟨h.of_content fun _ _ => ObjectServing.metaFailsStep_content, h.jobs,
      fun _ hw => (nomatch hw)⟩
  | finish now ord stuck =>
    obtain ⟨w, -, rfl⟩ := Option.map_eq_some_iff.mp hs
    exact ⟨h.of_content fun _ _ hbs => DiskCache.contentAt_commit hbs, h.jobs,
      fun _ hw => (nomatch hw)⟩
  | leaveWindow cacheKey =>
    simp only [ObjectServing.act] at hs
    split at hs
    · cases hs
      exact ⟨h.of_content fun _ _ hbs => DiskCache.contentAt_delete hbs, h.jobs, h.writing⟩
    · cases hs

theorem step_clear {a : ObjectServing.Act} (h : Clear ns b) (ha : isServing a = true)
    (hs : ObjectServing.step b a = some b') : Clear ns b' := by
  obtain ⟨u, hact, rfl⟩ := Option.map_eq_some_iff.mp hs
  have hu := act_clear h ha hact
  exact ⟨hu.content, hu.jobs, hu.writing⟩

variable {key : Bytes}

/-- A purged key that is not fetched again yet. -/
structure Quiet (streaming : Bool) (s : State) (p : Bytes × ℕ) : Prop where
  clear : Clear (names streaming p.1) s.base
  later : ∀ f ∈ s.flights, f.call = ⟨p.1, []⟩ → p.2 ≤ f.started
  own : ∀ f ∈ s.flights, ∀ job ∈ f.result.join, keyName job.key ∈ names streaming p.1 →
    f.call = ⟨p.1, []⟩

def Inv (streaming : Bool) (s : State) : Prop :=
  ∀ p ∈ s.purged, p.2 ≤ s.clock ∧ (Refetched s p ∨ Quiet streaming s p)

variable {streaming : Bool} {s t : State} {p : Bytes × ℕ}

/-- A step that purges nothing, and leaves alone what is away. -/
theorem Inv.mono (h : Inv streaming s) (hpurged : t.purged = s.purged) (hclock : t.clock = s.clock)
    (hcompleted : s.completed ⊆ t.completed)
    (hquiet : ∀ p ∈ s.purged, p.2 ≤ s.clock → Quiet streaming s p →
      Refetched t p ∨ Quiet streaming t p) : Inv streaming t := by
  intro p hp
  rw [hpurged] at hp
  obtain ⟨hle, hstate⟩ := h p hp
  refine ⟨by rw [hclock]; exact hle, ?_⟩
  rcases hstate with ⟨u, hu, hmem⟩ | hq
  · exact .inl ⟨u, hu, hcompleted hmem⟩
  · exact hquiet p hp hle hq

/- Only the serving side changes. -/
theorem Inv.of_base (h : Inv streaming s)
    (hclear : ∀ ns, Clear ns s.base → Clear ns t.base) (hflights : t.flights = s.flights)
    (hpurged : t.purged = s.purged) (hclock : t.clock = s.clock)
    (hcompleted : t.completed = s.completed) : Inv streaming t := by
  refine h.mono hpurged hclock (by rw [hcompleted]; exact List.Subset.refl _) ?_
  intro p _ _ hq
  refine .inr ⟨hclear _ hq.clear, ?_, ?_⟩
  · rw [hflights]
    exact hq.later
  · rw [hflights]
    exact hq.own

theorem Clear.of_get (h : Clear ns b) {c : DiskCache} {found : Option Bytes}
    (hget : b.cache.get key = (c, found)) : ∀ name ∈ ns, c.contentAt name = none := by
  have hsame : c.contentAt = b.cache.contentAt := by
    cases found with
    | none => exact (DiskCache.get_miss hget).2
    | some bs => exact (DiskCache.get_hit hget).2
  rw [hsame]
  exact h.content

theorem handleRequest_inv (h : Inv streaming s) (r : Request) :
    Inv streaming (handleRequest streaming s r) := by
  unfold handleRequest
  split
  · split
    · rename_i hget
      exact h.of_base (fun ns hc => ⟨hc.of_get hget, hc.jobs, hc.writing⟩) rfl rfl rfl rfl
    · rename_i hget
      split
      · exact h.of_base (fun ns hc => ⟨hc.of_get hget, hc.jobs, hc.writing⟩) rfl rfl rfl rfl
      · exact h.of_base (fun ns hc => ⟨hc.of_get hget, hc.jobs, hc.writing⟩) rfl rfl rfl rfl
  · split
    · exact h.of_base (fun ns hc => hc) rfl rfl rfl rfl
    · exact h

variable {f : Flight}

theorem doFetch_started {call : Call} {result : Option (Option Job)} {shares : Option ℕ}
    (hf : doFetch s call result shares = some f) :
    f.started = s.clock ∨ ∃ g ∈ s.flights, g.call = f.call ∧ g.started = f.started := by
  cases shares with
  | none =>
    cases hf
    exact .inl rfl
  | some i =>
    obtain ⟨g, hg, hf⟩ := Option.bind_eq_some_iff.mp hf
    split at hf
    · cases hf
      exact .inr ⟨g, List.mem_of_getElem? hg, rfl, rfl⟩
    · cases hf

/- A fetch is a new one, or it is shared with one in flight. -/
theorem flight_started {a : Act} (hf : flight streaming s a = some f) :
    f.started = s.clock ∨ ∃ g ∈ s.flights, g.call = f.call ∧ g.started = f.started := by
  cases a with
  | fetch i shares =>
    obtain ⟨r, -, hf⟩ := Option.bind_eq_some_iff.mp hf
    exact doFetch_started hf
  | prewarm key fetch shares => exact doFetch_started hf
  | prefetch streamKey seqNum fetch =>
    simp only [flight] at hf
    split at hf
    · cases hf
    · cases hf
      exact .inl rfl
  | _ => cases hf

theorem start_inv (h : Inv streaming s) {a : Act} (hf : flight streaming s a = some f)
    (hown : f.Own streaming s) (missed : List Request) :
    Inv streaming { s with missed, flights := f :: s.flights } := by
  refine h.mono rfl rfl (List.Subset.refl _) ?_
  intro p hp hle hq
  refine .inr ⟨hq.clear, ?_, ?_⟩
  · intro g hg hcall
    rcases List.mem_cons.mp hg with rfl | hg
    · rcases flight_started hf with hnew | ⟨g', hg', hsame, hstarted⟩
      · rw [hnew]
        exact hle
      · rw [← hstarted]
        exact hq.later g' hg' (hsame.trans hcall)
    · exact hq.later g hg hcall
  · intro g hg
    rcases List.mem_cons.mp hg with rfl | hg
    · exact hown p hp
    · exact hq.own g hg

/-- A fetch that brings something for a purged key is the fetch that was waited for. -/
theorem fetched_inv (h : Inv streaming s) {i : ℕ} (hf : s.flights[i]? = some f) :
    Inv streaming (fetchedStep s i f) := by
  have hmem : f ∈ s.flights := List.mem_of_getElem? hf
  refine h.mono rfl rfl ?_ ?_
  · show s.completed ⊆ if _ then _ else _
    split
    · exact List.subset_cons_self _ _
    · exact List.Subset.refl _
  · intro p _ _ hq
    by_cases hbrings : ∃ job ∈ f.result.join, keyName job.key ∈ names streaming p.1
    · obtain ⟨job, hjob, hname⟩ := hbrings
      have hcall := hq.own f hmem job hjob hname
      have hsome : f.result.isSome = true := by
        cases hresult : f.result with
        | none => rw [hresult] at hjob; cases hjob
        | some result => rfl
      refine .inl ⟨f.started, hq.later f hmem hcall, ?_⟩
      show _ ∈ if _ then _ else _
      rw [if_pos ⟨hsome, by rw [hcall]⟩, hcall]
      exact List.mem_cons_self ..
    · refine .inr ⟨⟨hq.clear.content, ?_, hq.clear.writing⟩, ?_, ?_⟩
      · intro job hjob hname
        rcases List.mem_append.mp hjob with hnew | hold
        · exact hbrings ⟨job, Option.mem_toList.mp hnew, hname⟩
        · exact hq.clear.jobs job hold hname
      · exact fun g hg => hq.later g (List.mem_of_mem_eraseIdx hg)
      · exact fun g hg => hq.own g (List.mem_of_mem_eraseIdx hg)

theorem purge_inv (h : Inv streaming s) (hw : s.base.writing = none)
    (hg : Orderly streaming s (.purge key)) : Inv streaming (purgeStep s key) := by
  obtain ⟨hcontent, hjobs, hflights⟩ := hg
  intro p hp
  rcases List.mem_cons.mp hp with rfl | hp
  · refine ⟨le_refl _, .inr ⟨⟨?_, hjobs, ?_⟩, ?_, ?_⟩⟩
    · intro name hname
      rcases hcontent name hname with rfl | hnone
      · exact DiskCache.contentAt_delete_self ..
      · cases hbs : (s.base.cache.delete key).contentAt name with
        | none => exact hbs
        | some bs => exact nomatch hnone.symm.trans (DiskCache.contentAt_delete hbs)
    · intro w hw'
      exact nomatch hw.symm.trans hw'
    · exact fun f hf hcall => absurd hcall (hflights f hf).1
    · exact fun f hf job hjob hname => absurd hname ((hflights f hf).2 job hjob)
  · obtain ⟨hle, hstate⟩ := h p hp
    refine ⟨Nat.le_succ_of_le hle, hstate.imp id fun hq => ⟨⟨?_, hq.clear.jobs, hq.clear.writing⟩,
      hq.later, hq.own⟩⟩
    exact hq.clear.of_content fun _ _ hbs => DiskCache.contentAt_delete hbs

theorem step_inv (s : State) (a : Act) (t : State) (h : Inv streaming s)
    (hg : Orderly streaming s a) (hs : step streaming s a = some t) : Inv streaming t := by
  cases a with
  | request r =>
    cases hs
    exact handleRequest_inv h r
  | fetch i shares =>
    obtain ⟨f, hf, rfl⟩ := Option.map_eq_some_iff.mp hs
    exact start_inv h hf (hg f hf) _
  | prewarm key fetch shares =>
    obtain ⟨f, hf, rfl⟩ := Option.map_eq_some_iff.mp hs
    exact start_inv h hf (hg f hf) _
  | prefetch streamKey seqNum fetch =>
    obtain ⟨f, hf, rfl⟩ := Option.map_eq_some_iff.mp hs
    exact start_inv h hf (hg f hf) _
  | fetched i =>
    obtain ⟨f, hf, rfl⟩ := Option.map_eq_some_iff.mp hs
    exact fetched_inv h hf
  | purge key =>
    simp only [step] at hs
    split at hs
    · cases hs
    · rename_i hw
      cases hs
      exact purge_inv h (by simpa using hw) hg
  | purgeFails key lost =>
    simp only [step] at hs
    split at hs
    · cases hs
    · cases hs
      split
      · exact h.of_base (fun ns hc => ⟨hc.setContent none (.inl rfl), hc.jobs, hc.writing⟩)
          rfl rfl rfl rfl
      · exact h
  | serving a =>
    simp only [step] at hs
    split at hs
    · rename_i ha
      obtain ⟨base, hbase, rfl⟩ := Option.map_eq_some_iff.mp hs
      exact h.of_base (fun ns hc => step_clear hc ha hbase) rfl rfl rfl rfl
    · cases hs

instance (f : Flight) : Decidable (f.Own streaming s) := by
  unfold Flight.Own
  infer_instance

instance (a : Act) : Decidable (Orderly streaming s a) := by
  cases a <;> unfold Orderly <;> infer_instance

def empty : State := ⟨ObjectServing.start 1, [], [], 0, [], []⟩

def get (key : Bytes) : Request :=
  ⟨.client, .get, key, [], some ⟨[[1, 2], [3]], true, none⟩, none, false, none, false⟩

def objectKey : Bytes := lit "a"
def finish : Act := .serving (.finish 1 .inOrder fun _ => false)

/- A request for the key that misses, up to the end of its Put. -/
def fill (key : Bytes) : List Act :=
  [.request (get key), .fetch 0 none, .fetched 0, .serving (.lock 0), .serving (.write 3), finish]

/- What a run shows: the purges, the fetches, and whether the key is in the cache. -/
def view (key : Bytes) (s : State) : List (Bytes × ℕ) × List (Bytes × ℕ) × Bool :=
  (s.purged, s.completed, fromCache true s (get key))

end EdgeDispatch.Edge.Purge
