import EdgeDispatch.Streaming.WindowContents

/-! # Several streams over one cache (internal/streaming/window.go:50-88, 109-152)

Every call is for one stream. What belongs to the others, and whatever else is in the cache,
stays as it is. -/

namespace EdgeDispatch.Streaming
open Lib.ByteString Lib.GoStrings

variable {σ : Type}

def windowStats (sw : SlidingWindow σ) (streamKey : Bytes) : Int64 × ℕ :=
  match sw.windows.lookup streamKey with
  | some win => (win.headSeq, win.evictions)
  | none => (0, 0)

def evictStream (c : CacheAccessor σ) (sw : SlidingWindow σ) (streamKey : Bytes) :
    SlidingWindow σ :=
  match sw.windows.lookup streamKey with
  | some win => ⟨evict c streamKey win.seqs sw.cache, sw.windows.erase streamKey⟩
  | none => sw

inductive WindowCall where
  | cacheChunk (streamKey : Bytes) (seqNum : Int64) (chunkData : Bytes)
  | evictStream (streamKey : Bytes)
  deriving DecidableEq

def WindowCall.stream : WindowCall → Bytes
  | .cacheChunk streamKey _ _ => streamKey
  | .evictStream streamKey => streamKey

def WindowCall.caches (streamKey : Bytes) : WindowCall → Bool
  | .cacheChunk s _ _ => s = streamKey
  | .evictStream _ => false

def runCall (c : CacheAccessor σ) (cfg : StreamingConfig) (sw : SlidingWindow σ) :
    WindowCall → SlidingWindow σ
  | .cacheChunk streamKey seqNum chunkData =>
    (cacheChunk c cfg sw streamKey seqNum chunkData).1
  | .evictStream streamKey => evictStream c sw streamKey

def runCalls (c : CacheAccessor σ) (cfg : StreamingConfig) (calls : List WindowCall)
    (sw : SlidingWindow σ) : SlidingWindow σ :=
  calls.foldl (runCall c cfg) sw

theorem runCalls_concat (c : CacheAccessor σ) (cfg : StreamingConfig) (calls : List WindowCall)
    (call : WindowCall) (sw : SlidingWindow σ) :
    runCalls c cfg (calls ++ [call]) sw = runCall c cfg (runCalls c cfg calls sw) call :=
  List.foldl_concat _ _ _ _

/-- What a call for `streamKey` leaves alone. -/
structure Untouched (c : PlainCache σ) (streamKey : Bytes) (sw sw' : SlidingWindow σ) : Prop where
  windows : ∀ s, s ≠ streamKey → sw'.windows.lookup s = sw.windows.lookup s
  entries : ∀ name, (∀ n, name ≠ chunkCacheKey streamKey n) →
    c.entry sw'.cache name = c.entry sw.cache name

/-! ### What a call leaves alone -/

variable {streamKey : Bytes}
variable {name s : Bytes} {c : PlainCache σ} {cfg : StreamingConfig}

theorem entry_evict_untouched (c : PlainCache σ) (hname : ∀ n, name ≠ chunkCacheKey streamKey n)
    (old : List Int64) (cache : σ) :
    c.entry (evict c.toCacheAccessor streamKey old cache) name = c.entry cache name := by
  rw [entry_evict_plain, if_neg]
  rintro ⟨n, -, hn⟩
  exact hname n hn

theorem entry_storeChunk_untouched (c : PlainCache σ)
    (hname : ∀ n, name ≠ chunkCacheKey streamKey n) (cache : σ) (seqNum : Int64) (data : Bytes) :
    c.entry (storeChunk c.toCacheAccessor cache streamKey seqNum data).1 name =
      c.entry cache name := by
  unfold storeChunk
  split
  · rw [c.put_entry, if_neg (hname seqNum)]
  · rfl

theorem runCall_untouched (c : PlainCache σ) (cfg : StreamingConfig) (sw : SlidingWindow σ)
    (call : WindowCall) :
    Untouched c call.stream sw (runCall c.toCacheAccessor cfg sw call) := by
  cases call with
  | cacheChunk streamKey seqNum data =>
    rw [runCall, cacheChunk_plain]
    refine ⟨fun s hs => AList.lookup_insert_ne hs, fun name hname => ?_⟩
    exact (entry_evict_untouched c hname _ _).trans (entry_storeChunk_untouched c hname _ _ _)
  | evictStream streamKey =>
    rw [runCall, evictStream]
    split
    · exact ⟨fun s hs => AList.lookup_erase_ne hs, fun name hname =>
        entry_evict_untouched c hname _ _⟩
    · exact ⟨fun _ _ => rfl, fun _ _ => rfl⟩

theorem Untouched.windowStats {sw sw' : SlidingWindow σ} (h : Untouched c streamKey sw sw')
    (hs : s ≠ streamKey) : windowStats sw' s = windowStats sw s := by
  unfold Streaming.windowStats
  rw [h.windows s hs]

/- The keys of different streams are different. -/
theorem Untouched.chunks {sw sw' : SlidingWindow σ} (h : Untouched c streamKey sw sw')
    (hs : s ≠ streamKey) (n : Int64) :
    c.entry sw'.cache (chunkCacheKey s n) = c.entry sw.cache (chunkCacheKey s n) :=
  h.entries _ fun _ hkey => hs (chunkCacheKey_inj hkey).1

/-! ### How many chunks a stream has evicted -/

/-- The window after `n` calls of CacheChunk for its stream. -/
structure Counts (cfg : StreamingConfig) (win : StreamWindow) (n : ℕ) : Prop where
  maxSize : win.maxSize = cfg.windowSize
  seqs : win.seqs.length = min n cfg.windowSize
  evictions : win.evictions = n - cfg.windowSize

theorem Counts.next {win : StreamWindow} {n : ℕ} (h : Counts cfg win n) (seqNum : Int64) :
    Counts cfg ⟨(win.seqs ++ [seqNum]).drop ((win.seqs ++ [seqNum]).length - win.maxSize), seqNum,
      win.maxSize, win.evictions + ((win.seqs ++ [seqNum]).length - win.maxSize)⟩ (n + 1) := by
  obtain ⟨hmax, hlength, hevictions⟩ := h
  refine ⟨hmax, ?_, ?_⟩
  · simp only [List.length_drop, List.length_append, List.length_singleton]
    omega
  · simp only [List.length_append, List.length_singleton]
    omega

theorem runCalls_counts (c : PlainCache σ) (cfg : StreamingConfig) (cache : σ) (streamKey : Bytes)
    (calls : List WindowCall) (hkept : ∀ call ∈ calls, call ≠ .evictStream streamKey) :
    Counts cfg ((runCalls c.toCacheAccessor cfg calls (newSlidingWindow cache)).window cfg streamKey)
      (calls.countP (WindowCall.caches streamKey)) := by
  induction calls using List.reverseRecOn with
  | nil =>
    refine ⟨?_, ?_, ?_⟩ <;>
      simp [runCalls, SlidingWindow.window, newSlidingWindow]
  | append_singleton calls call ih =>
    have hbefore := ih fun x hx => hkept x (List.mem_append_left _ hx)
    have hlast := hkept call (List.mem_append_right _ (List.mem_singleton_self _))
    rw [runCalls_concat, List.countP_append, List.countP_singleton]
    by_cases hstream : streamKey = call.stream
    · -- the call is a CacheChunk for this stream
      cases call with
      | cacheChunk s seqNum data =>
        obtain rfl : s = streamKey := hstream.symm
        have hcaches : WindowCall.caches s (.cacheChunk s seqNum data) = true := by
          simp [WindowCall.caches]
        have hnext := hbefore.next seqNum
        rw [if_pos hcaches, runCall, cacheChunk_plain]
        simpa only [SlidingWindow.window, AList.lookup_insert, Option.getD_some] using hnext
      | evictStream s => exact absurd (congrArg WindowCall.evictStream hstream.symm) hlast
    · have hcaches : WindowCall.caches streamKey call = false := by
        cases call with
        | cacheChunk s seqNum data => exact decide_eq_false fun hs => hstream hs.symm
        | evictStream s => rfl
      have hsame := (runCall_untouched c cfg
        (runCalls c.toCacheAccessor cfg calls (newSlidingWindow cache)) call).windows streamKey hstream
      rw [hcaches]
      unfold SlidingWindow.window at hbefore ⊢
      rw [hsame]
      exact hbefore

theorem Counts.windowStats {sw : SlidingWindow σ} {n : ℕ}
    (h : Counts cfg (sw.window cfg streamKey) n) :
    (windowStats sw streamKey).2 = n - cfg.windowSize := by
  have hevictions := h.evictions
  unfold SlidingWindow.window at hevictions
  unfold Streaming.windowStats
  cases hwin : sw.windows.lookup streamKey with
  | none =>
    rw [hwin] at hevictions
    exact hevictions
  | some win =>
    rw [hwin] at hevictions
    exact hevictions

/-- Every call of a sequence touches its own stream only, and the number of evictions of a
stream depends on how many of its chunks were cached only. The sequence numbers need not be
distinct. -/
theorem streams_do_not_interfere (c : PlainCache σ) (cfg : StreamingConfig) (cache : σ)
    (calls : List WindowCall) :
    (∀ before call after, calls = before ++ call :: after →
      let sw := runCalls c.toCacheAccessor cfg before (newSlidingWindow cache)
      let sw' := runCall c.toCacheAccessor cfg sw call
      (∀ s, s ≠ call.stream → sw'.windows.lookup s = sw.windows.lookup s ∧
        windowStats sw' s = windowStats sw s ∧
        ∀ n, c.entry sw'.cache (chunkCacheKey s n) = c.entry sw.cache (chunkCacheKey s n)) ∧
      ∀ name, (∀ n, name ≠ chunkCacheKey call.stream n) →
        c.entry sw'.cache name = c.entry sw.cache name) ∧
    ∀ s, (∀ call ∈ calls, call ≠ .evictStream s) →
      (windowStats (runCalls c.toCacheAccessor cfg calls (newSlidingWindow cache)) s).2 =
        calls.countP (WindowCall.caches s) - cfg.windowSize := by
  refine ⟨?_, fun s hkept => ?_⟩
  · intro before call after _ sw sw'
    have h : Untouched c call.stream sw sw' := runCall_untouched c cfg sw call
    exact ⟨fun s hs => ⟨h.windows s hs, h.windowStats hs, h.chunks hs⟩, h.entries⟩
  · exact (runCalls_counts c cfg cache s calls hkept).windowStats

/- As in TestSlidingWindowMultipleStreams, for windows of two chunks. -/
example :
    let sw := runCalls plainMap.toCacheAccessor twoChunks
      [.cacheChunk (lit "a") 1 (lit "x"), .cacheChunk (lit "b") 1 (lit "y"),
        .cacheChunk (lit "a") 2 (lit "x"), .cacheChunk (lit "a") 3 (lit "x")]
      (newSlidingWindow fun _ => none)
    windowStats sw (lit "a") = (3, 1) ∧ windowStats sw (lit "b") = (1, 0) := by
  decide +kernel

end EdgeDispatch.Streaming
