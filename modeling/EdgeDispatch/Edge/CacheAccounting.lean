import EdgeDispatch.Edge.Cache
import EdgeDispatch.Lib.MapTotals

/-! # The cache's counters, its maps and its directory (internal/edgeagent/cache.go)

The size and the count that Stats reports, the sizes that eviction goes by, and the
files are written one after the other. `NewCache` reads all of the first from the last. -/

namespace EdgeDispatch.Edge.Cache
open Lib.ByteString Lib.MapTotals

/- One turn of the loop of `NewCache`; a directory whose meta.json is missing or does not
   unmarshal is skipped. -/
def readEntry (c : DiskCache) (dir : Σ _ : Bytes, Entry) : DiskCache :=
  match dir.2.metaFile.join with
  | none => c
  | some m =>
    { c with
      accessTimes := c.accessTimes.insert dir.1 m.lastAccess
      sizes := c.sizes.insert dir.1 m.size
      size := c.size + m.size
      count := c.count + 1 }

/- `NewCache` on a directory that is there already. -/
def openCache (maxGB : ℤ) (disk : AList fun _ : Bytes => Entry) : DiskCache :=
  disk.entries.foldl readEntry { newCache maxGB with disk }

def deleteKeys (c : DiskCache) (keys : List Bytes) : DiskCache := keys.foldl DiskCache.delete c

/-- The calls, none of which fails. `touch` is the access time that a Get has left to a
goroutine, which may come late, also after the entry is gone. -/
inductive Op where
  | put (key data : Bytes) (now : ℤ) (ord : MapOrder)
  | get (key : Bytes)
  | touch (name : Bytes) (now : ℤ)
  | delete (key : Bytes)
  | deleteKeys (keys : List Bytes)
  | evict (target : ℤ) (ord : MapOrder)

def runOp (c : DiskCache) : Op → DiskCache
  | .put key data now ord => (put c ⟨key, data, now, .none, ord, fun _ => false⟩).1
  | .get key => (c.get key).1
  | .touch name now => c.touch name now
  | .delete key => c.delete key
  | .deleteKeys keys => deleteKeys c keys
  | .evict target ord => c.evict target ord fun _ => false

def runOps (c : DiskCache) (ops : List Op) : DiskCache := ops.foldl runOp c

/- The length of the content file, 0 if there is none. -/
def contentLength (e : Entry) : ℤ := (e.content.map fun bs => (bs.length : ℤ)).getD 0

/- An entry with both its files, as Put leaves it. -/
def wholeEntry (data : Bytes) (now : ℤ) : Entry := ⟨some data, some (some ⟨now, data.length⟩)⟩

/-- The counters and the size map say what the files say. -/
structure Accounted (c : DiskCache) : Prop where
  whole : ∀ name e, c.disk.lookup name = some e → ∃ data now, e = wholeEntry data now
  sizes : ∀ name, c.sizes.lookup name = (c.disk.lookup name).map contentLength
  size : c.size = total contentLength c.disk
  count : c.count = total (fun _ => 1) c.disk

theorem newCache_accounted (maxGB : ℤ) : Accounted (newCache maxGB) where
  whole name e h := by simp [newCache] at h
  sizes name := by simp [newCache]
  size := rfl
  count := rfl

/-! ### Entries that come and go -/

variable {c : DiskCache} {e : DiskCache.EvictEntry}

theorem Accounted.insert {c' : DiskCache} (h : Accounted c) {name data : Bytes} {now : ℤ}
    (hdisk : c'.disk = c.disk.insert name (wholeEntry data now))
    (hsizes : c'.sizes = c.sizes.insert name data.length)
    (hsize : c'.size = c.size - share contentLength c.disk name + data.length)
    (hcount : c'.count = c.count - share (fun _ => 1) c.disk name + 1) : Accounted c' where
  whole n e he := by
    rw [hdisk] at he
    by_cases hn : n = name
    · subst hn
      rw [AList.lookup_insert] at he
      exact ⟨data, now, (Option.some.inj he).symm⟩
    · rw [AList.lookup_insert_ne hn] at he
      exact h.whole n e he
  sizes n := by
    rw [hsizes, hdisk]
    by_cases hn : n = name
    · subst hn
      rw [AList.lookup_insert, AList.lookup_insert]
      rfl
    · rw [AList.lookup_insert_ne hn, AList.lookup_insert_ne hn]
      exact h.sizes n
  size := by
    rw [hsize, hdisk, total_insert, h.size]
    rfl
  count := by rw [hcount, hdisk, total_insert, h.count]

theorem Accounted.erase {c' : DiskCache} (h : Accounted c) {name : Bytes}
    (hdisk : c'.disk = c.disk.erase name) (hsizes : c'.sizes = c.sizes.erase name)
    (hsize : c'.size = c.size - share contentLength c.disk name)
    (hcount : c'.count = c.count - share (fun _ => 1) c.disk name) : Accounted c' where
  whole n e he := by
    rw [hdisk] at he
    by_cases hn : n = name
    · subst hn
      rw [AList.lookup_erase] at he
      cases he
    · rw [AList.lookup_erase_ne hn] at he
      exact h.whole n e he
  sizes n := by
    rw [hsizes, hdisk]
    by_cases hn : n = name
    · subst hn
      rw [AList.lookup_erase, AList.lookup_erase]
      rfl
    · rw [AList.lookup_erase_ne hn, AList.lookup_erase_ne hn]
      exact h.sizes n
  size := by rw [hsize, hdisk, total_erase, h.size]
  count := by rw [hcount, hdisk, total_erase, h.count]

/- What an accounted meta.json says is in the files or is not there at all. -/
theorem Accounted.entry_cases (h : Accounted c) (name : Bytes) :
    (c.disk.lookup name = none ∧ c.entry name = ⟨none, none⟩) ∨
      ∃ data now, c.disk.lookup name = some (wholeEntry data now) ∧
        c.entry name = wholeEntry data now := by
  cases hl : c.disk.lookup name with
  | none => exact Or.inl ⟨rfl, by simp [DiskCache.entry, hl]⟩
  | some e =>
    obtain ⟨data, now, rfl⟩ := h.whole name e hl
    exact Or.inr ⟨data, now, rfl, by simp [DiskCache.entry, hl]⟩

theorem account_accounted (h : Accounted c) (name data : Bytes) (now : ℤ) :
    Accounted ((c.setContent name (some data)).account name data.length (c.oldSize name) now) := by
  have hdisk : ((c.setContent name (some data)).account name data.length (c.oldSize name)
      now).disk = c.disk.insert name (wholeEntry data now) := by
    simp [DiskCache.account, DiskCache.setMeta, DiskCache.setContent, wholeEntry]
  refine h.insert hdisk rfl ?_ ?_
  · rcases h.entry_cases name with ⟨hl, he⟩ | ⟨old, t, hl, he⟩
    · simp [DiskCache.account, DiskCache.oldSize, he, share, hl, DiskCache.setContent,
        DiskCache.setMeta]
    · simp [DiskCache.account, DiskCache.oldSize, he, share, hl, DiskCache.setContent,
        DiskCache.setMeta, wholeEntry, contentLength]
      ring
  · rcases h.entry_cases name with ⟨hl, he⟩ | ⟨old, t, hl, he⟩
    · simp [DiskCache.account, DiskCache.oldSize, he, share, hl, DiskCache.setContent,
        DiskCache.setMeta]
    · simp [DiskCache.account, DiskCache.oldSize, he, share, hl, DiskCache.setContent,
        DiskCache.setMeta, wholeEntry]

theorem delete_accounted (h : Accounted c) (key : Bytes) : Accounted (c.delete key) := by
  refine h.erase rfl rfl ?_ ?_
  · rcases h.entry_cases (keyName key) with ⟨hl, he⟩ | ⟨old, t, hl, he⟩
    · simp [DiskCache.delete, he, share, hl]
    · simp [DiskCache.delete, DiskCache.oldSize, he, share, hl, wholeEntry, contentLength]
  · rcases h.entry_cases (keyName key) with ⟨hl, he⟩ | ⟨old, t, hl, he⟩
    · simp [DiskCache.delete, he, share, hl]
    · simp [DiskCache.delete, he, share, hl, wholeEntry]

theorem removeEntry_accounted (h : Accounted c) (hsize : c.sizes.lookup e.key = some e.size) :
    Accounted (c.removeEntry e) := by
  rw [h.sizes] at hsize
  obtain ⟨entry, hl, hlen⟩ := Option.map_eq_some_iff.mp hsize
  refine h.erase rfl rfl ?_ ?_
  · simp [DiskCache.removeEntry, share, hl, hlen]
  · simp [DiskCache.removeEntry, share, hl]

/- The candidates have different names, so each still has its size when its turn comes. -/
theorem evictLoop_accounted {target freed : ℤ} {stuck : Bytes → Bool}
    {es : List DiskCache.EvictEntry} (h : Accounted c)
    (hnodup : (es.map DiskCache.EvictEntry.key).Nodup)
    (hsizes : ∀ e ∈ es, c.sizes.lookup e.key = some e.size) :
    Accounted (DiskCache.evictLoop target stuck freed es c) := by
  induction es generalizing freed c with
  | nil => exact h
  | cons e es ih =>
    rw [List.map_cons, List.nodup_cons] at hnodup
    have hrest : ∀ e' ∈ es, c.sizes.lookup e'.key = some e'.size :=
      fun e' he' => hsizes e' (List.mem_cons_of_mem _ he')
    unfold DiskCache.evictLoop
    split
    · exact h
    · split
      · exact ih h hnodup.2 hrest
      · refine ih (removeEntry_accounted h (hsizes e List.mem_cons_self)) hnodup.2 fun e' he' => ?_
        have hne : e'.key ≠ e.key := fun heq => hnodup.1 (heq ▸ List.mem_map_of_mem he')
        exact (AList.lookup_erase_ne hne).trans (hrest e' he')

theorem mem_evictEntries {ord : MapOrder} :
    e ∈ c.evictEntries ord ↔
      c.accessTimes.lookup e.key = some e.lastAccess ∧ c.sizes.lookup e.key = some e.size := by
  constructor
  · intro h
    obtain ⟨name, -, he⟩ := List.mem_filterMap.mp h
    obtain ⟨t, ht, he⟩ := Option.bind_eq_some_iff.mp he
    obtain ⟨sz, hsz, rfl⟩ := Option.map_eq_some_iff.mp he
    exact ⟨ht, hsz⟩
  · rintro ⟨ht, hsz⟩
    have hmem : e.key ∈ c.accessTimes := by
      rw [← AList.lookup_isSome, ht]
      rfl
    refine List.mem_filterMap.mpr ⟨e.key, (ord.perm _).mem_iff.mpr (AList.mem_keys.mpr hmem), ?_⟩
    rw [ht, hsz]
    rfl

theorem filterMap_keys_sublist {names : List Bytes} {f : Bytes → Option DiskCache.EvictEntry}
    (h : ∀ name e, f name = some e → e.key = name) :
    ((names.filterMap f).map DiskCache.EvictEntry.key).Sublist names := by
  induction names with
  | nil => exact List.Sublist.slnil
  | cons name names ih =>
    cases hf : f name with
    | none =>
      rw [List.filterMap_cons_none hf]
      exact ih.cons name
    | some e =>
      rw [List.filterMap_cons_some hf, List.map_cons, h name e hf]
      exact ih.cons_cons name

theorem evictEntries_nodup (c : DiskCache) (ord : MapOrder) :
    ((c.evictEntries ord).map DiskCache.EvictEntry.key).Nodup := by
  have hkeys : (ord.visit c.accessTimes.keys).Nodup :=
    (ord.perm _).nodup_iff.mpr c.accessTimes.keys_nodup
  refine hkeys.sublist (filterMap_keys_sublist fun name e he => ?_)
  obtain ⟨t, -, he⟩ := Option.bind_eq_some_iff.mp he
  obtain ⟨sz, -, rfl⟩ := Option.map_eq_some_iff.mp he
  rfl

theorem evict_accounted (h : Accounted c) (target : ℤ) (ord : MapOrder) (stuck : Bytes → Bool) :
    Accounted (c.evict target ord stuck) := by
  have hperm := List.perm_insertionSort (fun a b : DiskCache.EvictEntry => a.lastAccess ≤ b.lastAccess)
    (c.evictEntries ord)
  refine evictLoop_accounted h ?_ fun e he => (mem_evictEntries.mp (hperm.mem_iff.mp he)).2
  exact (hperm.map DiskCache.EvictEntry.key).nodup_iff.mpr (evictEntries_nodup c ord)

theorem put_accounted (h : Accounted c) (key data : Bytes) (now : ℤ) (ord : MapOrder)
    (stuck : Bytes → Bool) : Accounted (put c ⟨key, data, now, .none, ord, stuck⟩).1 := by
  have hacc := account_accounted h (keyName key) data now
  unfold put DiskCache.commit
  simp only
  split
  · exact evict_accounted hacc _ ord stuck
  · exact hacc

theorem get_accounted (h : Accounted c) (key : Bytes) : Accounted (c.get key).1 := by
  obtain ⟨hits, misses, he⟩ := c.get_eq key
  rw [he]
  exact ⟨h.whole, h.sizes, h.size, h.count⟩

theorem deleteKeys_accounted (h : Accounted c) (keys : List Bytes) :
    Accounted (deleteKeys c keys) := by
  induction keys generalizing c with
  | nil => exact h
  | cons key keys ih => exact ih (delete_accounted h key)

theorem runOp_accounted (h : Accounted c) (op : Op) : Accounted (runOp c op) := by
  cases op with
  | put key data now ord => exact put_accounted h key data now ord _
  | get key => exact get_accounted h key
  | touch name now => exact ⟨h.whole, h.sizes, h.size, h.count⟩
  | delete key => exact delete_accounted h key
  | deleteKeys keys => exact deleteKeys_accounted h keys
  | evict target ord => exact evict_accounted h target ord _

theorem runOps_accounted (h : Accounted c) (ops : List Op) : Accounted (runOps c ops) := by
  induction ops generalizing c with
  | nil => exact h
  | cons op ops ih => exact ih (runOp_accounted h op)

/-! ### Opening the directory again -/

/- What a meta.json says is the size, 0 if it says nothing. -/
def metaSize (e : Entry) : ℤ := (e.metaFile.join.map CacheMeta.size).getD 0
def metaCount (e : Entry) : ℤ := if e.metaFile.join.isSome then 1 else 0

theorem readEntries_totals (c : DiskCache) (dirs : List (Σ _ : Bytes, Entry)) :
    (dirs.foldl readEntry c).size = c.size + (dirs.map fun d => metaSize d.2).sum ∧
      (dirs.foldl readEntry c).count = c.count + (dirs.map fun d => metaCount d.2).sum := by
  induction dirs generalizing c with
  | nil => simp
  | cons dir dirs ih =>
    rw [List.foldl_cons, List.map_cons, List.map_cons, List.sum_cons, List.sum_cons]
    obtain ⟨hsize, hcount⟩ := ih (readEntry c dir)
    rw [hsize, hcount]
    cases hm : dir.2.metaFile.join with
    | none => simp [readEntry, metaSize, metaCount, hm]
    | some m =>
      simp only [readEntry, metaSize, metaCount, hm, Option.map_some, Option.getD_some,
        Option.isSome_some, if_true]
      exact ⟨by ring, by ring⟩

theorem readEntries_sizes (c : DiskCache) {dirs : List (Σ _ : Bytes, Entry)}
    (hnodup : dirs.NodupKeys) (name : Bytes) :
    (dirs.foldl readEntry c).sizes.lookup name =
      ((dirs.dlookup name).bind fun e => e.metaFile.join.map CacheMeta.size).or
        (c.sizes.lookup name) := by
  induction dirs generalizing c with
  | nil => simp
  | cons dir dirs ih =>
    obtain ⟨n, e⟩ := dir
    obtain ⟨hnot, hrest⟩ := List.nodupKeys_cons.mp hnodup
    rw [List.foldl_cons, ih _ hrest]
    by_cases hn : name = n
    · subst hn
      rw [List.dlookup_eq_none.mpr hnot, List.dlookup_cons_eq]
      cases hm : e.metaFile.join with
      | none => simp [readEntry, hm]
      | some m => simp [readEntry, hm]
    · rw [List.dlookup_cons_ne _ _ hn]
      congr 1
      cases hm : e.metaFile.join with
      | none => simp [readEntry, hm]
      | some m => simp [readEntry, hm, AList.lookup_insert_ne hn]

theorem Accounted.entries_whole (h : Accounted c) :
    ∀ dir ∈ c.disk.entries, ∃ data now, dir.2 = wholeEntry data now := by
  intro dir hdir
  refine h.whole dir.1 dir.2 ?_
  exact List.mem_dlookup c.disk.nodupKeys hdir

/-- Opened again, an accounted cache counts what it counted. -/
theorem openCache_accounted (h : Accounted c) (maxGB : ℤ) :
    (openCache maxGB c.disk).size = c.size ∧ (openCache maxGB c.disk).count = c.count ∧
      ∀ name, (openCache maxGB c.disk).sizes.lookup name = c.sizes.lookup name := by
  obtain ⟨hsize, hcount⟩ := readEntries_totals { newCache maxGB with disk := c.disk } c.disk.entries
  refine ⟨?_, ?_, fun name => ?_⟩
  · rw [openCache, hsize, h.size]
    refine (Int.zero_add _).trans (total_congr (f := metaSize) fun dir hdir => ?_)
    obtain ⟨data, now, he⟩ := h.entries_whole dir hdir
    rw [he]
    rfl
  · rw [openCache, hcount, h.count]
    refine (Int.zero_add _).trans (total_congr (f := metaCount) fun dir hdir => ?_)
    obtain ⟨data, now, he⟩ := h.entries_whole dir hdir
    rw [he]
    rfl
  · rw [openCache, readEntries_sizes _ c.disk.nodupKeys, h.sizes]
    show ((c.disk.lookup name).bind _).or _ = _
    rcases h.entry_cases name with ⟨hl, -⟩ | ⟨data, now, hl, -⟩
    · simp [hl, newCache]
    · simp [hl, wholeEntry, contentLength]

/-- Stats reports the stored bytes and the stored entries, after any calls that succeed,
and NewCache on the directory they leave reports the same and knows the same sizes. -/
theorem cache_accounting (maxGB maxGB' : ℤ) (ops : List Op) :
    let c := runOps (newCache maxGB) ops
    let reopened := openCache maxGB' c.disk
    c.size = total contentLength c.disk ∧
      c.count = total (fun e => if e.content.isSome then 1 else 0) c.disk ∧
      reopened.size = c.size ∧ reopened.count = c.count ∧
      ∀ name, reopened.sizes.lookup name = c.sizes.lookup name ∧
        c.sizes.lookup name = (c.contentAt name).map fun bs => (bs.length : ℤ) := by
  intro c reopened
  have hc : Accounted c := runOps_accounted (newCache_accounted maxGB) ops
  obtain ⟨hsize, hcount, hsizes⟩ := openCache_accounted hc maxGB'
  refine ⟨hc.size, ?_, hsize, hcount, fun name => ⟨hsizes name, ?_⟩⟩
  · rw [hc.count]
    refine total_congr fun dir hdir => ?_
    obtain ⟨data, now, he⟩ := hc.entries_whole dir hdir
    rw [he]
    rfl
  · rw [hc.sizes]
    rcases hc.entry_cases name with ⟨hl, he⟩ | ⟨data, now, hl, he⟩
    · simp [hl, DiskCache.contentAt, he]
    · simp [hl, DiskCache.contentAt, he, wholeEntry, contentLength]

/-! ### Puts that fail -/

/-- The files of every key, the totals and the access times are as they were. -/
structure Unchanged (c c' : DiskCache) : Prop where
  entry : ∀ key, c'.entry (keyName key) = c.entry (keyName key)
  size : c'.size = c.size
  count : c'.count = c.count
  accessTimes : c'.accessTimes = c.accessTimes

/-- Where the fault strikes and what the entry held when it does no harm: os.Create empties
the content that a failing copy then removes, and a new content stays when meta.json
cannot be written. -/
def Harmless (c : DiskCache) (p : PutCall) : Prop :=
  match p.fault with
  | .copy => c.contentAt (keyName p.key) = none
  | .writeMeta lost => c.contentAt (keyName p.key) = some p.data ∧
      (lost = true → (c.entry (keyName p.key)).metaFile = some none)
  | _ => True

theorem unchanged_iff {key : Bytes} {e : Entry} :
    Unchanged c { c with disk := c.disk.insert (keyName key) e } ↔ c.entry (keyName key) = e := by
  constructor
  · intro h
    rw [← h.entry key, DiskCache.entry_insert_self]
  · intro he
    refine ⟨fun k => ?_, rfl, rfl, rfl⟩
    by_cases hk : keyName k = keyName key
    · rw [hk, DiskCache.entry_insert_self, he]
    · rw [DiskCache.entry_insert_ne _ _ _ _ hk]

theorem unchanged_setContent_iff {key : Bytes} {content : Option Bytes} :
    Unchanged c (c.setContent (keyName key) content) ↔ c.contentAt (keyName key) = content := by
  unfold DiskCache.setContent DiskCache.contentAt
  rw [unchanged_iff]
  constructor
  · intro he
    rw [he]
  · intro hc
    rw [← hc]

theorem unchanged_lostMeta_iff {key data : Bytes} :
    Unchanged c ((c.setContent (keyName key) (some data)).setMeta (keyName key) (some none)) ↔
      c.contentAt (keyName key) = some data ∧ (c.entry (keyName key)).metaFile = some none := by
  have hdisk : (c.setContent (keyName key) (some data)).setMeta (keyName key) (some none) =
      { c with disk := c.disk.insert (keyName key) ⟨some data, some none⟩ } := by
    simp [DiskCache.setMeta, DiskCache.setContent]
  rw [hdisk, unchanged_iff, DiskCache.contentAt]
  constructor
  · intro he
    rw [he]
    exact ⟨rfl, rfl⟩
  · rintro ⟨hcontent, hmeta⟩
    rw [← hcontent, ← hmeta]

/-- A Put that returns an error leaves everything as it was just if the fault is
harmless. -/
theorem failed_put_unchanged_iff (c : DiskCache) (p : PutCall) :
    (∀ err, (put c p).2 = some err → Unchanged c (put c p).1) ↔ Harmless c p := by
  obtain ⟨key, data, now, fault, ord, stuck⟩ := p
  cases fault with
  | none => simp [put, Harmless]
  | mkdir => exact iff_of_true (fun _ _ => ⟨fun _ => rfl, rfl, rfl, rfl⟩) trivial
  | create => exact iff_of_true (fun _ _ => unchanged_setContent_iff.mpr rfl) trivial
  | copy =>
    simp only [put, Option.some.injEq, forall_eq', Harmless]
    exact unchanged_setContent_iff
  | writeMeta lost =>
    simp only [put, Option.some.injEq, forall_eq', Harmless]
    cases lost with
    | false => simpa using unchanged_setContent_iff
    | true => simpa using unchanged_lostMeta_iff

/- The reader of a second Put fails: the first content is gone, and is still counted. -/
theorem failed_put_loses_content :
    let c := (put (newCache 1) ⟨[1], [7, 7], 0, .none, .inOrder, fun _ => false⟩).1
    let failed := put c ⟨[1], [8], 1, .copy, .inOrder, fun _ => false⟩
    failed.2 = some .writeCache ∧ c.content [1] = some [7, 7] ∧ failed.1.content [1] = none ∧
      failed.1.size = 2 ∧ failed.1.count = 1 := by
  decide +kernel

end EdgeDispatch.Edge.Cache
