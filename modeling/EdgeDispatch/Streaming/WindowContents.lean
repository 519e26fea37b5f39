import EdgeDispatch.Streaming.Handler

/-! # The window and the cache under it (internal/streaming/window.go)

The window is a list that may hold one number several times; the cache holds a chunk
once. When the oldest place of the list falls out, its chunk is deleted, also when the
same number stands in the list again. -/

namespace EdgeDispatch.Streaming
open Lib.ByteString Lib.GoStrings

/-! ### Lists of which the last `W` values are in view -/

section Views
variable {α : Type*}

def latest (W : ℕ) (ns : List α) : List α := ns.drop (ns.length - W)

/-- `m` was seen again after each time it fell out: the value at place `p` falls out when
the one at place `p + W` is seen. -/
def Held (W : ℕ) (ns : List α) (m : α) : Prop :=
  ∃ q, ns[q]? = some m ∧ ∀ p, ns[p]? = some m → p + W < ns.length → p + W < q

/-- Every value in view that once fell out was seen again after that. -/
def SeenAgain (W : ℕ) (ns : List α) : Prop :=
  ∀ p m, ns[p]? = some m → p + W < ns.length → m ∈ latest W ns → m ∈ ns.drop (p + W + 1)

theorem latest_append (W : ℕ) (ns : List α) (n : α) :
    latest W ns ++ [n] = (ns ++ [n]).drop (ns.length - W) :=
  (List.drop_append_of_le_length (Nat.sub_le _ _)).symm

theorem latest_concat (W : ℕ) (ns : List α) (n : α) :
    (latest W ns ++ [n]).drop ((latest W ns ++ [n]).length - W) = latest W (ns ++ [n]) := by
  rw [latest_append, List.drop_drop, latest]
  congr 1
  simp only [List.length_drop, List.length_append, List.length_singleton]
  omega

variable {W : ℕ} {ns : List α}

/- At most one value falls out at a time. -/
theorem mem_fallen {n m : α} :
    m ∈ (latest W ns ++ [n]).take ((latest W ns ++ [n]).length - W) ↔
      ∃ p, p + W = ns.length ∧ (ns ++ [n])[p]? = some m := by
  rw [latest_append]
  have hlen : ((ns ++ [n]).drop (ns.length - W)).length - W = if W ≤ ns.length then 1 else 0 := by
    simp only [List.length_drop, List.length_append, List.length_singleton]
    split <;> omega
  rw [hlen]
  split
  · rename_i hW
    rw [List.take_one, List.head?_drop, Option.mem_toList]
    constructor
    · intro hm
      exact ⟨ns.length - W, by omega, hm⟩
    · rintro ⟨p, hp, hm⟩
      rwa [show ns.length - W = p by omega]
  · rename_i hW
    constructor
    · intro hm
      cases hm
    · rintro ⟨p, hp, -⟩
      omega

theorem held_concat {n m : α} :
    Held W (ns ++ [n]) m ↔ (m = n ∨ Held W ns m) ∧
      ¬ ∃ p, p + W = ns.length ∧ (ns ++ [n])[p]? = some m := by
  have hold : ∀ {p}, p < ns.length → (ns ++ [n])[p]? = ns[p]? := List.getElem?_append_left
  have hnew : (ns ++ [n])[ns.length]? = some n := List.getElem?_concat_length
  have hlen : (ns ++ [n]).length = ns.length + 1 := by simp
  constructor
  · rintro ⟨q, hq, hlate⟩
    have hbound : q < ns.length + 1 := hlen ▸ (List.getElem?_eq_some_iff.mp hq).1
    refine ⟨?_, fun ⟨p, hp, hm⟩ => ?_⟩
    · rcases Nat.lt_or_eq_of_le (Nat.lt_succ_iff.mp hbound) with hlt | rfl
      · refine Or.inr ⟨q, hold hlt ▸ hq, fun p hp hout => ?_⟩
        exact hlate p (by rw [hold (by omega), hp]) (by omega)
      · exact Or.inl (Option.some.inj (hq.symm.trans hnew))
    · have hq := hlate p hm (by omega)
      omega
  · rintro ⟨hseen, hstays⟩
    -- an earlier fall of `m` was a fall from `ns`, since `m` does not fall out now
    have hearlier : ∀ p, (ns ++ [n])[p]? = some m → p + W < (ns ++ [n]).length →
        ns[p]? = some m ∧ p + W < ns.length := by
      intro p hp hout
      have hne : p + W ≠ ns.length := fun he => hstays ⟨p, he, hp⟩
      have hlt : p + W < ns.length := by omega
      exact ⟨(hold (by omega)).symm.trans hp, hlt⟩
    rcases hseen with rfl | ⟨q, hq, hlate⟩
    · exact ⟨ns.length, hnew, fun p hp hout => (hearlier p hp hout).2⟩
    · have hlt : q < ns.length := (List.getElem?_eq_some_iff.mp hq).1
      refine ⟨q, (hold hlt).trans hq, fun p hp hout => ?_⟩
      obtain ⟨hp, hout⟩ := hearlier p hp hout
      exact hlate p hp hout

theorem Held.mem_latest {m : α} (h : Held W ns m) : m ∈ latest W ns := by
  obtain ⟨q, hq, hlate⟩ := h
  have hview : ¬ q + W < ns.length := fun hout => absurd (hlate q hq hout) (by omega)
  refine List.mem_of_getElem? (i := q - (ns.length - W)) ?_
  rw [latest, List.getElem?_drop, ← hq]
  congr 1
  omega

theorem exists_last_place {m : α} (h : m ∈ ns) :
    ∃ q : ℕ, ns[q]? = some m ∧ ∀ r : ℕ, ns[r]? = some m → r ≤ q := by
  induction ns using List.reverseRecOn with
  | nil => cases h
  | append_singleton ns n ih =>
    by_cases hn : n = m
    · subst hn
      refine ⟨ns.length, List.getElem?_concat_length, fun r hr => ?_⟩
      have hbound := (List.getElem?_eq_some_iff.mp hr).1
      simp only [List.length_append, List.length_singleton] at hbound
      omega
    · have hm : m ∈ ns := by
        rcases List.mem_append.mp h with hm | hm
        · exact hm
        · exact absurd (List.mem_singleton.mp hm).symm hn
      obtain ⟨q, hq, hlast⟩ := ih hm
      have hlt : q < ns.length := (List.getElem?_eq_some_iff.mp hq).1
      refine ⟨q, (List.getElem?_append_left hlt).trans hq, fun r hr => ?_⟩
      rcases Nat.lt_trichotomy r ns.length with hr' | rfl | hr'
      · exact hlast r ((List.getElem?_append_left hr').symm.trans hr)
      · exact absurd (Option.some.inj (List.getElem?_concat_length.symm.trans hr)) hn
      · have hbound := (List.getElem?_eq_some_iff.mp hr).1
        simp only [List.length_append, List.length_singleton] at hbound
        omega

theorem held_latest_iff : (∀ m ∈ latest W ns, Held W ns m) ↔ SeenAgain W ns := by
  constructor
  · intro hheld p m hp hout hm
    obtain ⟨q, hq, hlate⟩ := hheld m hm
    have hpq := hlate p hp hout
    refine List.mem_of_getElem? (i := q - (p + W + 1)) ?_
    rw [List.getElem?_drop, ← hq]
    congr 1
    omega
  · intro hagain m hm
    obtain ⟨q, hq, hlast⟩ := exists_last_place (List.mem_of_mem_drop hm)
    refine ⟨q, hq, fun p hp hout => ?_⟩
    obtain ⟨r, hr⟩ := List.getElem?_of_mem (hagain p m hp hout hm)
    rw [List.getElem?_drop] at hr
    have hle := hlast _ hr
    omega

end Views

/-! ### Chunks over a plain cache -/

variable {σ : Type}

/-- A cache that is a key-value store and whose writes succeed. -/
structure PlainCache (σ : Type) extends CacheAccessor σ where
  entry : σ → Bytes → Option Bytes
  has_entry : ∀ s key, has s key = (entry s key).isSome
  put_ok : ∀ s key data, (put s key data).2 = true
  put_entry : ∀ s key data name,
    entry (put s key data).1 name = if name = key then some data else entry s name
  delete_entry : ∀ s key name,
    entry (delete s key).1 name = if name = key then none else entry s name

/- The calls of CacheChunk on one stream, in their order. -/
def cacheChunks (c : CacheAccessor σ) (cfg : StreamingConfig) (streamKey : Bytes)
    (chunks : List (Int64 × Bytes)) (sw : SlidingWindow σ) : SlidingWindow σ :=
  chunks.foldl (fun sw chunk => (cacheChunk c cfg sw streamKey chunk.1 chunk.2).1) sw

/-- The window and the cache name the same chunks of the stream, the last one cached
among them. -/
structure Matches (c : CacheAccessor σ) (cfg : StreamingConfig) (streamKey : Bytes)
    (sw : SlidingWindow σ) (chunks : List (Int64 × Bytes)) : Prop where
  listed_present : ∀ n ∈ (sw.window cfg streamKey).seqs, hasChunk c sw streamKey n = true
  present_listed : ∀ n, hasChunk c sw streamKey n = true → n ∈ (sw.window cfg streamKey).seqs
  last_present : ∀ chunk, chunks.getLast? = some chunk → hasChunk c sw streamKey chunk.1 = true

theorem entry_evict_plain (c : PlainCache σ) (streamKey name : Bytes) (old : List Int64)
    (cache : σ) :
    c.entry (evict c.toCacheAccessor streamKey old cache) name =
      if ∃ n ∈ old, name = chunkCacheKey streamKey n then none else c.entry cache name := by
  induction old generalizing cache with
  | nil => simp [evict]
  | cons seq old ih =>
    show c.entry (evict c.toCacheAccessor streamKey old _) name = _
    rw [ih, c.delete_entry]
    by_cases hseq : name = chunkCacheKey streamKey seq
    · simp [hseq]
    · simp [hseq]

/- A write to a plain cache succeeds, an empty chunk is not written. -/
theorem storeChunk_ok (c : PlainCache σ) (cache : σ) (streamKey : Bytes) (seqNum : Int64)
    (data : Bytes) : (storeChunk c.toCacheAccessor cache streamKey seqNum data).2 = true := by
  unfold storeChunk
  split
  · exact c.put_ok _ _ _
  · rfl

theorem cacheChunk_plain (c : PlainCache σ) (cfg : StreamingConfig) (sw : SlidingWindow σ)
    (streamKey : Bytes) (seqNum : Int64) (data : Bytes) :
    (cacheChunk c.toCacheAccessor cfg sw streamKey seqNum data).1 =
      let win := sw.window cfg streamKey
      let seqs := win.seqs ++ [seqNum]
      let toEvict := seqs.length - win.maxSize
      ⟨evict c.toCacheAccessor streamKey (seqs.take toEvict)
          (storeChunk c.toCacheAccessor sw.cache streamKey seqNum data).1,
        sw.windows.insert streamKey
          ⟨seqs.drop toEvict, seqNum, win.maxSize, win.evictions + toEvict⟩⟩ := by
  have hok : ¬ (storeChunk c.toCacheAccessor sw.cache streamKey seqNum data).2 = false := by
    simp [storeChunk_ok]
  simp only [cacheChunk, if_neg hok]

theorem hasChunk_evict_put (c : PlainCache σ) (streamKey data : Bytes) (seqNum n : Int64)
    (old : List Int64) (cache : σ) (windows windows' : AList fun _ : Bytes => StreamWindow) :
    hasChunk c.toCacheAccessor
        ⟨evict c.toCacheAccessor streamKey old
          (c.put cache (chunkCacheKey streamKey seqNum) data).1, windows⟩ streamKey n = true ↔
      (n = seqNum ∨ hasChunk c.toCacheAccessor ⟨cache, windows'⟩ streamKey n = true) ∧
        n ∉ old := by
  have hname : ∀ k, chunkCacheKey streamKey n = chunkCacheKey streamKey k ↔ n = k :=
    fun k => ⟨fun h => (chunkCacheKey_inj h).2, fun h => h ▸ rfl⟩
  unfold hasChunk
  rw [c.has_entry, c.has_entry, entry_evict_plain, c.put_entry]
  simp only [hname, exists_eq_right']
  by_cases hold : n ∈ old
  · simp [hold]
  · by_cases hn : n = seqNum
    · simp [hn, hn ▸ hold]
    · simp [hold, hn]

/-- What the calls with the numbers `ns` leave behind. -/
structure Follows (c : PlainCache σ) (cfg : StreamingConfig) (streamKey : Bytes)
    (sw : SlidingWindow σ) (ns : List Int64) : Prop where
  seqs : (sw.window cfg streamKey).seqs = latest cfg.windowSize ns
  maxSize : (sw.window cfg streamKey).maxSize = cfg.windowSize
  present : ∀ n, hasChunk c.toCacheAccessor sw streamKey n = true ↔ Held cfg.windowSize ns n

variable {c : PlainCache σ} {streamKey : Bytes}

theorem cacheChunk_follows {cfg : StreamingConfig} {data : Bytes} {sw : SlidingWindow σ}
    {ns : List Int64} (h : Follows c cfg streamKey sw ns) (n : Int64) (hdata : data ≠ []) :
    Follows c cfg streamKey (cacheChunk c.toCacheAccessor cfg sw streamKey n data).1
      (ns ++ [n]) := by
  have hstore : storeChunk c.toCacheAccessor sw.cache streamKey n data =
      c.put sw.cache (chunkCacheKey streamKey n) data :=
    if_pos (List.length_pos_iff.mpr hdata)
  simp only [cacheChunk_plain c cfg sw streamKey n data, hstore, h.seqs, h.maxSize]
  refine ⟨?_, ?_, fun m => ?_⟩
  · simp only [SlidingWindow.window, AList.lookup_insert, Option.getD_some]
    exact latest_concat cfg.windowSize ns n
  · simp only [SlidingWindow.window, AList.lookup_insert, Option.getD_some]
  · rw [hasChunk_evict_put c streamKey data n m _ sw.cache _ sw.windows, h.present, held_concat,
      mem_fallen]

theorem cacheChunks_follows {cfg : StreamingConfig} {sw : SlidingWindow σ}
    (h : Follows c cfg streamKey sw []) (chunks : List (Int64 × Bytes))
    (hdata : ∀ chunk ∈ chunks, chunk.2 ≠ []) :
    Follows c cfg streamKey (cacheChunks c.toCacheAccessor cfg streamKey chunks sw)
      (chunks.map Prod.fst) := by
  induction chunks using List.reverseRecOn with
  | nil => exact h
  | append_singleton chunks chunk ih =>
    have hbefore := ih fun ch hch => hdata ch (List.mem_append_left _ hch)
    have hlast : chunk.2 ≠ [] := hdata chunk (List.mem_append_right _ (List.mem_singleton_self _))
    rw [cacheChunks, List.foldl_concat, List.map_append]
    exact cacheChunk_follows hbefore chunk.1 hlast

theorem newSlidingWindow_follows (cfg : StreamingConfig) {cache : σ}
    (h : ∀ n, hasChunk c.toCacheAccessor (newSlidingWindow cache) streamKey n = false) :
    Follows c cfg streamKey (newSlidingWindow cache) [] where
  seqs := by simp [SlidingWindow.window, newSlidingWindow, latest]
  maxSize := by simp [SlidingWindow.window, newSlidingWindow]
  present n := by simp [h n, Held]

/-- The window and the cache agree after a sequence of calls just if every number still
listed that fell out of the window on the way was cached again after that. -/
theorem window_matches_cache_iff (c : PlainCache σ) (cfg : StreamingConfig)
    (hsize : 1 ≤ cfg.windowSize) (streamKey : Bytes) (cache : σ)
    (hnone : ∀ n, hasChunk c.toCacheAccessor (newSlidingWindow cache) streamKey n = false)
    (chunks : List (Int64 × Bytes)) (hdata : ∀ chunk ∈ chunks, chunk.2 ≠ []) :
    Matches c.toCacheAccessor cfg streamKey
        (cacheChunks c.toCacheAccessor cfg streamKey chunks (newSlidingWindow cache)) chunks ↔
      SeenAgain cfg.windowSize (chunks.map Prod.fst) := by
  have hf := cacheChunks_follows (newSlidingWindow_follows cfg hnone) chunks hdata
  rw [← held_latest_iff]
  constructor
  · intro hmatch m hm
    rw [← hf.seqs] at hm
    exact (hf.present m).mp (hmatch.listed_present m hm)
  · intro hheld
    have hlisted : ∀ n ∈ latest cfg.windowSize (chunks.map Prod.fst), hasChunk c.toCacheAccessor
        (cacheChunks c.toCacheAccessor cfg streamKey chunks (newSlidingWindow cache)) streamKey n =
          true := fun n hn => (hf.present n).mpr (hheld n hn)
    refine ⟨fun n hn => hlisted n (hf.seqs ▸ hn), fun n hn => ?_, fun chunk hlast => ?_⟩
    · rw [hf.seqs]
      exact ((hf.present n).mp hn).mem_latest
    · refine hlisted chunk.1 ?_
      obtain ⟨before, rfl⟩ := List.getLast?_eq_some_iff.mp hlast
      rw [List.map_append, latest, List.drop_append_of_le_length (by simp; omega)]
      exact List.mem_append_right _ (List.mem_singleton_self _)

/- The key-value store itself. -/
def plainMap : PlainCache (Bytes → Option Bytes) where
  toCacheAccessor := (mapCache true).toCacheAccessor
  entry s := s
  has_entry _ _ := rfl
  put_ok _ _ _ := rfl
  put_entry s key data name := Function.update_apply s key (some data) name
  delete_entry s key name := Function.update_apply s key none name

def twoChunks : StreamingConfig := ⟨true, 0, 2, 1⟩

theorem window_matches_cache_increasing :
    let chunks : List (Int64 × Bytes) := [(1, lit "one"), (2, lit "two"), (3, lit "three")]
    SeenAgain 2 (chunks.map Prod.fst) ∧
      Matches plainMap.toCacheAccessor twoChunks (lit "live") (cacheChunks plainMap.toCacheAccessor
        twoChunks (lit "live") chunks (newSlidingWindow fun _ => none)) chunks := by
  intro chunks
  have hagain : SeenAgain 2 (chunks.map Prod.fst) := by
    intro p m hp hout hm
    obtain rfl : p = 0 := Nat.lt_one_iff.mp (Nat.lt_of_add_lt_add_right hout)
    obtain rfl : 1 = m := Option.some.inj hp
    exact absurd hm (by decide)
  exact ⟨hagain, (window_matches_cache_iff plainMap twoChunks (by decide) (lit "live")
    (fun _ => none) (fun _ => rfl) chunks (by decide +kernel)).mpr hagain⟩

/- The window `[2, 1]` lists chunk 1, which went when its first place fell out. -/
theorem recached_chunk_deleted :
    let sw := cacheChunks plainMap.toCacheAccessor twoChunks (lit "live")
      [(1, lit "one"), (2, lit "two"), (1, lit "one")] (newSlidingWindow fun _ => none)
    (sw.window twoChunks (lit "live")).seqs = [2, 1] ∧
      hasChunk plainMap.toCacheAccessor sw (lit "live") 1 = false ∧
      hasChunk plainMap.toCacheAccessor sw (lit "live") 2 = true := by
  decide +kernel

end EdgeDispatch.Streaming
