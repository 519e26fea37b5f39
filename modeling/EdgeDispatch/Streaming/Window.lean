import EdgeDispatch.Streaming.ChunkKeys
import Mathlib.Data.List.AList

/-! # The sliding windows over the chunk cache (internal/streaming/window.go)

A window is the list of the sequence numbers cached for one stream, oldest first. A
number that falls out of it is deleted from the cache. -/

namespace EdgeDispatch.Streaming
open Lib.ByteString

/-- The interface, over the states `σ` of a cache; `none` and `false` are errors. -/
structure CacheAccessor (σ : Type) where
  get : σ → Bytes → σ × Option Bytes
  put : σ → Bytes → Bytes → σ × Bool
  has : σ → Bytes → Bool
  delete : σ → Bytes → σ × Bool

/-- A cache that may fail and may lose any entry at any time, but makes none up: what it
holds under a key was put there under this key. -/
structure LossyCache (σ : Type) extends CacheAccessor σ where
  entry : σ → Bytes → Option Bytes
  get_hit : ∀ s key d, (get s key).2 = some d → entry s key = some d
  get_entry : ∀ s key name d, entry (get s key).1 name = some d → entry s name = some d
  put_entry : ∀ s key data name d, entry (put s key data).1 name = some d →
    entry s name = some d ∨ (name = key ∧ d = data)
  delete_entry : ∀ s key name d, entry (delete s key).1 name = some d → entry s name = some d

/- The fields that the window, the handler and the prefetcher read. -/
structure StreamingConfig where
  enabled : Bool
  prefetchCount : Int64
  windowSize : ℕ
  prefetchWorkers : Int64

structure StreamWindow where
  seqs : List Int64
  headSeq : Int64
  maxSize : ℕ
  evictions : ℕ

structure SlidingWindow (σ : Type) where
  cache : σ
  windows : AList fun _ : Bytes => StreamWindow

variable {σ : Type}

def newSlidingWindow (cache : σ) : SlidingWindow σ := ⟨cache, ∅⟩

/- The stream's window, a new one if it has none. -/
def SlidingWindow.window (cfg : StreamingConfig) (sw : SlidingWindow σ) (streamKey : Bytes) :
    StreamWindow :=
  (sw.windows.lookup streamKey).getD ⟨[], 0, cfg.windowSize, 0⟩

/- The loop over the numbers that fall out; an error of Delete is only logged. -/
def evict (c : CacheAccessor σ) (streamKey : Bytes) (old : List Int64) (cache : σ) : σ :=
  old.foldl (fun cache oldSeq => (c.delete cache (chunkCacheKey streamKey oldSeq)).1) cache

/- The write of CacheChunk, which skips an empty chunk. -/
def storeChunk (c : CacheAccessor σ) (cache : σ) (streamKey : Bytes) (seqNum : Int64)
    (chunkData : Bytes) : σ × Bool :=
  if 0 < chunkData.length then c.put cache (chunkCacheKey streamKey seqNum) chunkData
  else (cache, true)

def cacheChunk (c : CacheAccessor σ) (cfg : StreamingConfig) (sw : SlidingWindow σ)
    (streamKey : Bytes) (seqNum : Int64) (chunkData : Bytes) : SlidingWindow σ × Bool :=
  let win := sw.window cfg streamKey
  let stored := storeChunk c sw.cache streamKey seqNum chunkData
  if stored.2 = false then (⟨stored.1, sw.windows.insert streamKey win⟩, false)
  else
    let seqs := win.seqs ++ [seqNum]
    let toEvict := seqs.length - win.maxSize
    (⟨evict c streamKey (seqs.take toEvict) stored.1,
      sw.windows.insert streamKey
        ⟨seqs.drop toEvict, seqNum, win.maxSize, win.evictions + toEvict⟩⟩, true)

def getChunk (c : CacheAccessor σ) (sw : SlidingWindow σ) (streamKey : Bytes) (seqNum : Int64) :
    SlidingWindow σ × Option Bytes :=
  let read := c.get sw.cache (chunkCacheKey streamKey seqNum)
  ({ sw with cache := read.1 }, read.2)

def hasChunk (c : CacheAccessor σ) (sw : SlidingWindow σ) (streamKey : Bytes) (seqNum : Int64) :
    Bool :=
  c.has sw.cache (chunkCacheKey streamKey seqNum)

/-! ### What caching a chunk adds to the cache -/

variable {streamKey : Bytes} {seqNum : Int64} {sw : SlidingWindow σ}

theorem entry_evict (c : LossyCache σ) {name d : Bytes} {old : List Int64} {cache : σ}
    (h : c.entry (evict c.toCacheAccessor streamKey old cache) name = some d) :
    c.entry cache name = some d := by
  induction old generalizing cache with
  | nil => exact h
  | cons seq old ih => exact c.delete_entry cache _ name d (ih h)

theorem entry_storeChunk (c : LossyCache σ) {cache : σ} {data name d : Bytes}
    (h : c.entry (storeChunk c.toCacheAccessor cache streamKey seqNum data).1 name = some d) :
    c.entry cache name = some d ∨
      (name = chunkCacheKey streamKey seqNum ∧ d = data ∧ 0 < data.length) := by
  unfold storeChunk at h
  split at h
  · rename_i hlen
    rcases c.put_entry _ _ _ _ _ h with hold | ⟨hname, hd⟩
    · exact Or.inl hold
    · exact Or.inr ⟨hname, hd, hlen⟩
  · exact Or.inl h

theorem entry_cacheChunk (c : LossyCache σ) {cfg : StreamingConfig} {data name d : Bytes}
    (h : c.entry (cacheChunk c.toCacheAccessor cfg sw streamKey seqNum data).1.cache name = some d) :
    
    c.entry sw.cache name = some d ∨
      (name = chunkCacheKey streamKey seqNum ∧ d = data ∧ 0 < data.length) := by
  unfold cacheChunk at h
  simp only at h
  split at h
  · exact entry_storeChunk c h
  · exact entry_storeChunk c (entry_evict c h)

theorem getChunk_hit (c : LossyCache σ) {d : Bytes}
    (h : (getChunk c.toCacheAccessor sw streamKey seqNum).2 = some d) :
    c.entry sw.cache (chunkCacheKey streamKey seqNum) = some d :=
  c.get_hit _ _ _ h

theorem entry_getChunk (c : LossyCache σ) {name d : Bytes}
    (h : c.entry (getChunk c.toCacheAccessor sw streamKey seqNum).1.cache name = some d) :
    c.entry sw.cache name = some d :=
  c.get_entry _ _ _ _ h

end EdgeDispatch.Streaming
