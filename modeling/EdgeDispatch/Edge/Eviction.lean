import EdgeDispatch.Edge.CacheAccounting
import Mathlib.Algebra.Order.BigOperators.Group.List

/-! # Eviction (internal/edgeagent/cache.go:142-206, 265-313)

Directory removals do not fail here. An entry's access time is the one that is recorded for
it, by a Put or by the update that a Get has left to a goroutine. -/

namespace EdgeDispatch.Edge.Cache
open Lib.ByteString Lib.GoInt64 Lib.MapTotals
open DiskCache

/- A Put that has written and counted everything and not evicted yet. -/
def stored (c : DiskCache) (key data : Bytes) (now : ℤ) : DiskCache :=
  (c.setContent (keyName key) (some data)).account (keyName key) data.length
    (c.oldSize (keyName key)) now

/-- The caches that successful calls lead to, restarts on the same directory included. -/
inductive Reached : ℤ → DiskCache → Prop where
  | new (maxGB : ℤ) : Reached maxGB (newCache maxGB)
  | op {maxGB : ℤ} {c : DiskCache} (h : Reached maxGB c) (op : Op) : Reached maxGB (runOp c op)
  | inPut {maxGB : ℤ} {c : DiskCache} (h : Reached maxGB c) (key data : Bytes) (now : ℤ) :
    Reached maxGB (stored c key data now)
  | reopen {maxGB : ℤ} {c : DiskCache} (h : Reached maxGB c) (maxGB' : ℤ) :
    Reached maxGB' (openCache maxGB' c.disk)

def freedBy (es : List EvictEntry) : ℤ := (es.map EvictEntry.size).sum

/-- Between `c` and `c'` the entries `removed` are evicted, in this order. -/
structure EvictsOldest (c c' : DiskCache) (target : ℤ) (removed : List EvictEntry) : Prop where
  entries : ∀ e ∈ removed, c.accessTimes.lookup e.key = some e.lastAccess ∧
    ∃ data, c.contentAt e.key = some data ∧ e.size = data.length
  distinct : (removed.map EvictEntry.key).Nodup
  disk : ∀ name, c'.disk.lookup name =
    if name ∈ removed.map EvictEntry.key then none else c.disk.lookup name
  oldest : ∀ e ∈ removed, ∀ name ∈ c'.disk, ∃ t, c.accessTimes.lookup name = some t ∧
    e.lastAccess ≤ t
  enough : target ≤ freedBy removed ∨ ∀ name, name ∉ c'.disk
  notMore : ∀ init last, removed = init ++ [last] → freedBy init < target

/-! ### What holds in every cache -/

/-- The limit, the counters, and an access time for every entry. -/
structure Sound (maxGB : ℤ) (c : DiskCache) : Prop where
  maxBytes : c.maxBytes = int64 (maxGB * 1024 * 1024 * 1024)
  accounted : Accounted c
  timed : ∀ name ∈ c.sizes, name ∈ c.accessTimes

variable {maxGB : ℤ} {c c' : DiskCache}

theorem newCache_sound (maxGB : ℤ) : Sound maxGB (newCache maxGB) :=
  ⟨rfl, newCache_accounted maxGB, fun _ h => absurd h (AList.notMem_empty _)⟩

variable {name : Bytes} {ord : MapOrder}

theorem timed_insert (h : ∀ name ∈ c.sizes, name ∈ c.accessTimes) {size t : ℤ}
    (hsizes : c'.sizes = c.sizes.insert name size)
    (htimes : c'.accessTimes = c.accessTimes.insert name t) :
    ∀ n ∈ c'.sizes, n ∈ c'.accessTimes := by
  intro n hn
  rw [hsizes, AList.mem_insert] at hn
  rw [htimes, AList.mem_insert]
  exact hn.imp_right (h n)

theorem timed_erase (h : ∀ name ∈ c.sizes, name ∈ c.accessTimes)
    (hsizes : c'.sizes = c.sizes.erase name) (htimes : c'.accessTimes = c.accessTimes.erase name) :
    ∀ n ∈ c'.sizes, n ∈ c'.accessTimes := by
  intro n hn
  rw [hsizes, AList.mem_erase] at hn
  rw [htimes, AList.mem_erase]
  exact hn.imp_right (h n)

theorem stored_sound (h : Sound maxGB c) (key data : Bytes) (now : ℤ) :
    Sound maxGB (stored c key data now) :=
  ⟨h.maxBytes, account_accounted h.accounted (keyName key) data now,
    timed_insert h.timed rfl rfl⟩

theorem evict_sound (h : Sound maxGB c) (target : ℤ) (ord : MapOrder) (stuck : Bytes → Bool) :
    Sound maxGB (c.evict target ord stuck) := by
  obtain ⟨hmax, htimed⟩ : (c.evict target ord stuck).maxBytes = c.maxBytes ∧
      ∀ name ∈ (c.evict target ord stuck).sizes, name ∈ (c.evict target ord stuck).accessTimes :=
    evictLoop_invariant (P := fun c' => c'.maxBytes = c.maxBytes ∧
        ∀ name ∈ c'.sizes, name ∈ c'.accessTimes)
      (fun c' e hc' => ⟨hc'.1, timed_erase hc'.2 rfl rfl⟩) ⟨rfl, h.timed⟩
  exact ⟨hmax.trans h.maxBytes, evict_accounted h.accounted target ord stuck, htimed⟩

theorem put_eq (c : DiskCache) (key data : Bytes) (now : ℤ) (ord : MapOrder) :
    runOp c (.put key data now ord) =
      if int64 (stored c key data now).size > (stored c key data now).maxBytes then
        (stored c key data now).evict
          (int64 ((stored c key data now).size - (stored c key data now).maxBytes)) ord fun _ => false
      else stored c key data now :=
  rfl

theorem delete_sound (h : Sound maxGB c) (key : Bytes) : Sound maxGB (c.delete key) :=
  ⟨h.maxBytes, delete_accounted h.accounted key, timed_erase h.timed rfl rfl⟩

theorem deleteKeys_sound (h : Sound maxGB c) (keys : List Bytes) :
    Sound maxGB (deleteKeys c keys) := by
  induction keys generalizing c with
  | nil => exact h
  | cons key keys ih => exact ih (delete_sound h key)

theorem runOp_sound (h : Sound maxGB c) (op : Op) : Sound maxGB (runOp c op) := by
  cases op with
  | put key data now ord =>
    have hstored := stored_sound h key data now
    rw [put_eq]
    split
    · exact evict_sound hstored _ ord _
    · exact hstored
  | get key =>
    have haccounted := get_accounted h.accounted key
    obtain ⟨hits, misses, he⟩ := c.get_eq key
    rw [he] at haccounted
    show Sound maxGB (c.get key).1
    rw [he]
    exact ⟨h.maxBytes, haccounted, h.timed⟩
  | touch name now =>
    refine ⟨h.maxBytes, runOp_accounted h.accounted (.touch name now), fun n hn => ?_⟩
    exact (AList.mem_insert _).mpr (Or.inr (h.timed n hn))
  | delete key => exact delete_sound h key
  | deleteKeys keys => exact deleteKeys_sound h keys
  | evict target ord => exact evict_sound h target ord _

theorem readEntries_keeps (dirs : List (Σ _ : Bytes, Entry))
    (h : ∀ name ∈ c.sizes, name ∈ c.accessTimes) :
    (dirs.foldl readEntry c).maxBytes = c.maxBytes ∧ (dirs.foldl readEntry c).disk = c.disk ∧
      ∀ name ∈ (dirs.foldl readEntry c).sizes, name ∈ (dirs.foldl readEntry c).accessTimes := by
  induction dirs generalizing c with
  | nil => exact ⟨rfl, rfl, h⟩
  | cons dir dirs ih =>
    rw [List.foldl_cons]
    unfold readEntry
    split
    · exact ih h
    · exact ih (timed_insert h rfl rfl)

theorem openCache_sound (h : Accounted c) (maxGB : ℤ) : Sound maxGB (openCache maxGB c.disk) := by
  obtain ⟨hsize, hcount, hsizes⟩ := openCache_accounted h maxGB
  obtain ⟨hmax, hdisk, htimed⟩ :=
    readEntries_keeps (c := { newCache maxGB with disk := c.disk }) c.disk.entries
      (newCache_sound maxGB).timed
  have hdisk' : (openCache maxGB c.disk).disk = c.disk := hdisk
  refine ⟨hmax, ⟨?_, fun name => ?_, ?_, ?_⟩, htimed⟩
  · rw [hdisk']
    exact h.whole
  · rw [hdisk', hsizes]
    exact h.sizes name
  · rw [hdisk', hsize]
    exact h.size
  · rw [hdisk', hcount]
    exact h.count

theorem Reached.sound (h : Reached maxGB c) : Sound maxGB c := by
  induction h with
  | new maxGB => exact newCache_sound maxGB
  | op _ op ih => exact runOp_sound ih op
  | inPut _ key data now ih => exact stored_sound ih key data now
  | reopen _ maxGB' ih => exact openCache_sound ih.accounted maxGB'

theorem Sound.size_nonneg (h : Sound maxGB c) : 0 ≤ c.size := by
  rw [h.accounted.size]
  refine List.sum_nonneg fun n hn => ?_
  obtain ⟨dir, hdir, rfl⟩ := List.mem_map.mp hn
  obtain ⟨data, now, he⟩ := h.accounted.entries_whole dir hdir
  rw [he]
  exact Int.natCast_nonneg _

/-! ### The entries that are removed -/

theorem freedBy_cons (e : EvictEntry) (es : List EvictEntry) :
    freedBy (e :: es) = e.size + freedBy es :=
  List.sum_cons

theorem freedBy_append (es es' : List EvictEntry) :
    freedBy (es ++ es') = freedBy es + freedBy es' := by
  rw [freedBy, List.map_append, List.sum_append]
  rfl

/-- The loop removes a first part of the candidates. -/
theorem evictLoop_eq (target : ℤ) {freed : ℤ} (hfreed : int64 freed = freed)
    (es : List EvictEntry) (c : DiskCache) :
    ∃ removed kept, es = removed ++ kept ∧
      evictLoop target (fun _ => false) freed es c = removed.foldl removeEntry c ∧
      (kept ≠ [] → target ≤ int64 (freed + freedBy removed)) ∧
      ∀ init last, removed = init ++ [last] → int64 (freed + freedBy init) < target := by
  have hzero : int64 (freed + freedBy []) = freed := by
    rw [freedBy, List.map_nil, List.sum_nil, Int.add_zero, hfreed]
  induction es generalizing freed c with
  | nil => exact ⟨[], [], rfl, rfl, fun h => absurd rfl h, by simp⟩
  | cons e es ih =>
    by_cases hdone : freed ≥ target
    · refine ⟨[], e :: es, rfl, ?_, fun _ => ?_, by simp⟩
      · rw [evictLoop, if_pos hdone]
        rfl
      · rwa [hzero]
    · have hwrap : ∀ n, int64 (int64 (freed + e.size) + n) = int64 (freed + (e.size + n)) := by
        intro n
        rw [← Int.add_assoc]
        exact Int.bmod_add_bmod
      have hnext : int64 (int64 (freed + e.size)) = int64 (freed + e.size) := Int.bmod_bmod
      obtain ⟨removed, kept, hsplit, hrun, henough, hmore⟩ :=
        ih hnext (c.removeEntry e) ((hwrap 0).trans (by rw [Int.add_zero]))
      refine ⟨e :: removed, kept, by rw [hsplit]; rfl, ?_, fun hkept => ?_, fun init last hinit => ?_⟩
      · rw [evictLoop, if_neg hdone]
        exact hrun
      · rw [freedBy_cons, ← hwrap]
        exact henough hkept
      · cases init with
        | nil =>
          rw [hzero]
          omega
        | cons first init =>
          obtain ⟨rfl, hrest⟩ := List.cons.inj hinit
          rw [freedBy_cons, ← hwrap]
          exact hmore init last hrest

theorem foldl_removeEntry_size (removed : List EvictEntry) (c : DiskCache) :
    (removed.foldl removeEntry c).size = c.size - freedBy removed := by
  induction removed generalizing c with
  | nil => exact (Int.sub_zero _).symm
  | cons e removed ih =>
    rw [List.foldl_cons, ih, freedBy_cons]
    show c.size - e.size - _ = _
    omega

theorem foldl_removeEntry_disk (removed : List EvictEntry) (c : DiskCache) (name : Bytes) :
    (removed.foldl removeEntry c).disk.lookup name =
      if name ∈ removed.map EvictEntry.key then none else c.disk.lookup name := by
  induction removed generalizing c with
  | nil => rfl
  | cons e removed ih =>
    rw [List.foldl_cons, ih, List.map_cons]
    show (if _ then none else (c.disk.erase e.key).lookup name) = _
    by_cases hname : name = e.key
    · rw [hname, AList.lookup_erase, ite_self, if_pos List.mem_cons_self]
    · rw [AList.lookup_erase_ne hname]
      simp [hname]

def oldestFirst (c : DiskCache) (ord : MapOrder) : List EvictEntry :=
  (c.evictEntries ord).insertionSort fun a b => a.lastAccess ≤ b.lastAccess

theorem mem_oldestFirst {e : EvictEntry} :
    e ∈ oldestFirst c ord ↔
      c.accessTimes.lookup e.key = some e.lastAccess ∧ c.sizes.lookup e.key = some e.size :=
  (List.perm_insertionSort _ _).mem_iff.trans mem_evictEntries

theorem oldestFirst_nodup (c : DiskCache) (ord : MapOrder) :
    ((oldestFirst c ord).map EvictEntry.key).Nodup :=
  ((List.perm_insertionSort _ _).map EvictEntry.key).nodup_iff.mpr (evictEntries_nodup c ord)

theorem oldestFirst_sorted (c : DiskCache) (ord : MapOrder) :
    (oldestFirst c ord).Pairwise fun a b => a.lastAccess ≤ b.lastAccess := by
  have : Std.Total fun a b : EvictEntry => a.lastAccess ≤ b.lastAccess :=
    ⟨fun a b => Int.le_total a.lastAccess b.lastAccess⟩
  have : IsTrans EvictEntry fun a b => a.lastAccess ≤ b.lastAccess :=
    ⟨fun _ _ _ => Int.le_trans⟩
  exact List.pairwise_insertionSort _ _

/- An entry on disk has a candidate. -/
theorem Sound.candidate (h : Sound maxGB c) (ord : MapOrder) (hname : name ∈ c.disk) :
    ∃ e ∈ oldestFirst c ord, e.key = name := by
  obtain ⟨entry, hentry⟩ := Option.isSome_iff_exists.mp (AList.lookup_isSome.mpr hname)
  have hsize : c.sizes.lookup name = some (contentLength entry) := by
    rw [h.accounted.sizes, hentry]
    rfl
  have hsized : name ∈ c.sizes := AList.lookup_isSome.mp (by rw [hsize]; rfl)
  obtain ⟨t, ht⟩ := Option.isSome_iff_exists.mp (AList.lookup_isSome.mpr (h.timed name hsized))
  exact ⟨⟨name, t, contentLength entry⟩, mem_oldestFirst.mpr ⟨ht, hsize⟩, rfl⟩

theorem Sound.candidate_content (h : Sound maxGB c) {e : EvictEntry}
    (hsize : c.sizes.lookup e.key = some e.size) :
    ∃ data, c.contentAt e.key = some data ∧ e.size = data.length := by
  rw [h.accounted.sizes] at hsize
  rcases h.accounted.entry_cases e.key with ⟨hl, -⟩ | ⟨data, now, hl, he⟩
  · rw [hl] at hsize
    cases hsize
  · rw [hl] at hsize
    refine ⟨data, ?_, (Option.some.inj hsize).symm⟩
    rw [contentAt, he]
    rfl

/- What is still on disk after the first candidates are removed is among the others. -/
theorem Sound.mem_kept (h : Sound maxGB c) {removed kept : List EvictEntry}
    (hsplit : oldestFirst c ord = removed ++ kept)
    (hname : name ∈ (removed.foldl removeEntry c).disk) : ∃ e ∈ kept, e.key = name := by
  rw [← AList.lookup_isSome, foldl_removeEntry_disk] at hname
  by_cases hremoved : name ∈ removed.map EvictEntry.key
  · rw [if_pos hremoved] at hname
    cases hname
  · rw [if_neg hremoved, AList.lookup_isSome] at hname
    obtain ⟨e, he, rfl⟩ := h.candidate ord hname
    rw [hsplit] at he
    refine ⟨e, ?_, rfl⟩
    exact (List.mem_append.mp he).resolve_left fun hin => hremoved (List.mem_map_of_mem hin)

/-- What an eviction removes, the running total still modulo 2^64. -/
theorem Sound.evict_spec (h : Sound maxGB c) (target : ℤ) (ord : MapOrder) :
    ∃ removed kept, oldestFirst c ord = removed ++ kept ∧
      c.evict target ord (fun _ => false) = removed.foldl removeEntry c ∧
      (target ≤ int64 (freedBy removed) ∨ ∀ name, name ∉ (removed.foldl removeEntry c).disk) ∧
      ∀ init last, removed = init ++ [last] → int64 (freedBy init) < target := by
  obtain ⟨removed, kept, hsplit, hrun, henough, hmore⟩ :=
    evictLoop_eq target (rfl : int64 0 = 0) (oldestFirst c ord) c
  simp only [Int.zero_add] at henough hmore
  refine ⟨removed, kept, hsplit, hrun, ?_, hmore⟩
  by_cases hkept : kept = []
  · right
    intro name hname
    obtain ⟨e, he, -⟩ := h.mem_kept hsplit hname
    rw [hkept] at he
    cases he
  · exact Or.inl (henough hkept)

theorem Sound.freedBy_nonneg (h : Sound maxGB c) {es : List EvictEntry}
    (hes : ∀ e ∈ es, e ∈ oldestFirst c ord) : 0 ≤ freedBy es := by
  refine List.sum_nonneg fun n hn => ?_
  obtain ⟨e, he, rfl⟩ := List.mem_map.mp hn
  obtain ⟨data, -, hsize⟩ := h.candidate_content (mem_oldestFirst.mp (hes e he)).2
  omega

theorem Sound.evictsOldest (h : Sound maxGB c) (hfits : c.size < 2 ^ 63) (target : ℤ)
    (ord : MapOrder) :
    ∃ removed, EvictsOldest c (c.evict target ord fun _ => false) target removed := by
  obtain ⟨removed, kept, hsplit, hrun, henough, hmore⟩ := h.evict_spec target ord
  have hsorted := oldestFirst_sorted c ord
  have hnodup := oldestFirst_nodup c ord
  rw [hsplit] at hsorted hnodup
  rw [List.map_append] at hnodup
  have hmem : ∀ e ∈ removed, e ∈ oldestFirst c ord := by
    intro e he
    rw [hsplit]
    exact List.mem_append_left kept he
  -- the removed sizes are a part of the whole size, so that no partial sum wraps around
  have hwhole : freedBy removed ≤ c.size := by
    have hrest := (evict_sound h target ord fun _ => false).size_nonneg
    rw [hrun, foldl_removeEntry_size] at hrest
    omega
  have hpart : ∀ part rest, removed = part ++ rest → int64 (freedBy part) = freedBy part := by
    rintro part rest rfl
    have hpart := h.freedBy_nonneg fun e he => hmem e (List.mem_append_left rest he)
    have hrest := h.freedBy_nonneg fun e he => hmem e (List.mem_append_right part he)
    rw [freedBy_append] at hwhole
    exact int64_eq hpart (by omega)
  rw [hrun]
  refine ⟨removed, fun e he => ?_, (List.nodup_append.mp hnodup).1, foldl_removeEntry_disk removed c,
    fun e he name hname => ?_, ?_, fun init last hinit => ?_⟩
  · obtain ⟨htime, hsize⟩ := mem_oldestFirst.mp (hmem e he)
    exact ⟨htime, h.candidate_content hsize⟩
  · obtain ⟨e', hkept, rfl⟩ := h.mem_kept hsplit hname
    exact ⟨e'.lastAccess, (mem_oldestFirst.mp (hsplit ▸ List.mem_append_right removed hkept)).1,
      (List.pairwise_append.mp hsorted).2.2 e he e' hkept⟩
  · rwa [hpart removed [] (List.append_nil removed).symm] at henough
  · rw [← hpart init [last] hinit]
    exact hmore init last hinit

/-! ### The size after a Put -/

theorem size_eq_zero (h : Accounted c) (hempty : ∀ name, name ∉ c.disk) : c.size = 0 := by
  have hdisk : c.disk = ∅ := by
    refine AList.ext ?_
    refine List.eq_nil_iff_forall_not_mem.mpr fun dir hdir => hempty dir.1 ?_
    exact List.mem_keys_of_mem hdir
  rw [h.size, hdisk]
  rfl

theorem put_size_le (h : Sound maxGB c) (hmax : 0 ≤ c.maxBytes) (key data : Bytes) (now : ℤ)
    (ord : MapOrder) : int64 (runOp c (.put key data now ord)).size ≤ c.maxBytes := by
  have hstored := stored_sound h key data now
  have hlimit : (stored c key data now).maxBytes = c.maxBytes := rfl
  rw [put_eq]
  split
  · rename_i hover
    obtain ⟨removed, kept, -, hrun, henough, -⟩ := hstored.evict_spec
      (int64 ((stored c key data now).size - (stored c key data now).maxBytes)) ord
    have hafter := evict_sound hstored
      (int64 ((stored c key data now).size - (stored c key data now).maxBytes)) ord fun _ => false
    rw [hrun] at hafter ⊢
    rcases henough with henough | hempty
    · rw [foldl_removeEntry_size]
      rw [hlimit] at hover henough
      obtain ⟨k₁, hk₁⟩ := int64_cases (stored c key data now).size
      obtain ⟨k₂, hk₂⟩ := int64_cases ((stored c key data now).size - c.maxBytes)
      obtain ⟨k₃, hk₃⟩ := int64_cases (freedBy removed)
      obtain ⟨k₄, hk₄⟩ := int64_cases ((stored c key data now).size - freedBy removed)
      omega
    · rw [size_eq_zero hafter.accounted hempty]
      exact hmax
  · rename_i hfits
    rw [← hlimit]
    omega

theorem put_size_le_stored (h : Sound maxGB c) (key data : Bytes) (now : ℤ) (ord : MapOrder) :
    (runOp c (.put key data now ord)).size ≤ (stored c key data now).size := by
  have hstored := stored_sound h key data now
  rw [put_eq]
  split
  · obtain ⟨removed, kept, hsplit, hrun, -, -⟩ := hstored.evict_spec
      (int64 ((stored c key data now).size - (stored c key data now).maxBytes)) ord
    have hfreed : 0 ≤ freedBy removed :=
      hstored.freedBy_nonneg fun e he => hsplit ▸ List.mem_append_left kept he
    rw [hrun, foldl_removeEntry_size]
    omega
  · exact Int.le_refl _

theorem maxBytes_nonneg_iff (maxGB : ℤ) :
    0 ≤ int64 (maxGB * 1024 * 1024 * 1024) ↔ maxGB % 2 ^ 34 < 2 ^ 33 := by
  unfold int64
  rw [Int.bmod_def]
  split
  · omega
  · omega

/-- After every Put the size is within the limit, and evictions remove the oldest entries,
just if the product of `NewCache` does not wrap around to a negative limit. -/
theorem eviction_bounded_iff (maxGB : ℤ) :
    (∀ c, Reached maxGB c →
      (∀ key data now ord, int64 (runOp c (.put key data now ord)).size ≤ c.maxBytes) ∧
      (c.size < 2 ^ 63 → ∀ target ord, ∃ removed,
        EvictsOldest c (runOp c (.evict target ord)) target removed)) ↔
    maxGB % 2 ^ 34 < 2 ^ 33 := by
  rw [← maxBytes_nonneg_iff]
  constructor
  · intro h
    -- a size is never below a negative limit: an empty object shows it
    have hput := (h _ (.new maxGB)).1 [] [] 0 .inOrder
    have hnonneg := (runOp_sound (newCache_sound maxGB) (.put [] [] 0 .inOrder)).size_nonneg
    have hle : _ ≤ (0 : ℤ) := put_size_le_stored (newCache_sound maxGB) [] [] 0 .inOrder
    rw [int64_eq hnonneg (by omega)] at hput
    exact Int.le_trans hnonneg hput
  · intro hmax c hc
    have hsound := hc.sound
    refine ⟨put_size_le hsound (hsound.maxBytes ▸ hmax), fun hfits target ord => ?_⟩
    exact hsound.evictsOldest hfits target ord

/- EA_CACHE_MAX_GB=8589934592: the limit is negative, and so is the number of bytes to free. -/
theorem put_above_wrapped_limit :
    Reached (2 ^ 33) (newCache (2 ^ 33)) ∧ (newCache (2 ^ 33)).maxBytes = -2 ^ 63 ∧
      (runOp (newCache (2 ^ 33)) (.put [97] [7] 0 .inOrder)).size = 1 ∧
      ¬ int64 (runOp (newCache (2 ^ 33)) (.put [97] [7] 0 .inOrder)).size ≤
        (newCache (2 ^ 33)).maxBytes :=
  ⟨.new _, by decide +kernel, by decide +kernel, by decide +kernel⟩

end EdgeDispatch.Edge.Cache
