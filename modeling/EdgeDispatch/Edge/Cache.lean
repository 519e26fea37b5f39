import EdgeDispatch.Lib.Digest
import EdgeDispatch.Lib.GoInt64
import Mathlib.Data.List.AList
import Mathlib.Data.List.Sort

/-! # The edge's disk cache (internal/edgeagent/cache.go)

An entry is a directory named by the MD5 of its key, with the files `content` and
`meta.json`. Access times and sizes are also kept in memory, under the directory's
name. `mu` makes Put, Delete and evict exclude each other; Get takes no lock. -/

namespace EdgeDispatch.Edge.Cache
open Lib.ByteString Lib.Digest Lib.GoInt64

structure CacheMeta where
  lastAccess : ℤ
  size : ℤ
  deriving DecidableEq

/-- The two files; an inner `none` is a meta.json that does not unmarshal. -/
structure Entry where
  content : Option Bytes
  metaFile : Option (Option CacheMeta)
  deriving DecidableEq

/-- The counters are of type int64; the fields are the sums, which they hold modulo 2^64. -/
structure DiskCache where
  maxBytes : ℤ
  disk : AList fun _ : Bytes => Entry
  accessTimes : AList fun _ : Bytes => ℤ
  sizes : AList fun _ : Bytes => ℤ
  size : ℤ
  count : ℤ
  hits : ℤ
  misses : ℤ

/- `NewCache` on an empty directory. -/
def newCache (maxGB : ℤ) : DiskCache :=
  ⟨int64 (maxGB * 1024 * 1024 * 1024), ∅, ∅, ∅, 0, 0, 0, 0⟩

/-- The order in which `range` visits a map: some permutation, chosen anew each time. -/
structure MapOrder where
  visit : List Bytes → List Bytes
  perm : ∀ l, (visit l).Perm l

def MapOrder.inOrder : MapOrder := ⟨fun l => l, fun l => List.Perm.refl l⟩

/- The last element of `keyPath`. -/
def keyName (key : Bytes) : Bytes := hex (md5 key)

namespace DiskCache

def entry (c : DiskCache) (name : Bytes) : Entry := (c.disk.lookup name).getD ⟨none, none⟩

/- What a file named `content` holds. -/
def contentAt (c : DiskCache) (name : Bytes) : Option Bytes := (c.entry name).content

def content (c : DiskCache) (key : Bytes) : Option Bytes := c.contentAt (keyName key)

def has (c : DiskCache) (key : Bytes) : Bool := (c.content key).isSome

/- The deferred update of the access time is `touch`. -/
def get (c : DiskCache) (key : Bytes) : DiskCache × Option Bytes :=
  match c.content key with
  | none => ({ c with misses := c.misses + 1 }, none)
  | some bs => ({ c with hits := c.hits + 1 }, some bs)

def touch (c : DiskCache) (name : Bytes) (now : ℤ) : DiskCache :=
  { c with accessTimes := c.accessTimes.insert name now }

def setContent (c : DiskCache) (name : Bytes) (content : Option Bytes) : DiskCache :=
  { c with disk := c.disk.insert name { c.entry name with content } }

def setMeta (c : DiskCache) (name : Bytes) (metaFile : Option (Option CacheMeta)) : DiskCache :=
  { c with disk := c.disk.insert name { c.entry name with metaFile } }

/- The size in a meta.json that is there and unmarshals: `oldSize`, if `existed`. -/
def oldSize (c : DiskCache) (name : Bytes) : Option ℤ :=
  (c.entry name).metaFile.join.map CacheMeta.size

structure EvictEntry where
  key : Bytes
  lastAccess : ℤ
  size : ℤ

/- A name without a size is skipped. -/
def evictEntries (c : DiskCache) (ord : MapOrder) : List EvictEntry :=
  ((ord.visit c.accessTimes.keys).filterMap fun name =>
    (c.accessTimes.lookup name).bind fun t => (c.sizes.lookup name).map fun sz => ⟨name, t, sz⟩)

def removeEntry (c : DiskCache) (e : EvictEntry) : DiskCache :=
  { c with
    disk := c.disk.erase e.key
    accessTimes := c.accessTimes.erase e.key
    sizes := c.sizes.erase e.key
    count := c.count - 1
    size := c.size - e.size }

/- `stuck` are the directories that cannot be removed. -/
def evictLoop (target : ℤ) (stuck : Bytes → Bool) : ℤ → List EvictEntry → DiskCache → DiskCache
  | _, [], c => c
  | freed, e :: rest, c =>
    if freed ≥ target then c
    else if stuck e.key then evictLoop target stuck freed rest c
    else evictLoop target stuck (int64 (freed + e.size)) rest (c.removeEntry e)

def evict (c : DiskCache) (target : ℤ) (ord : MapOrder) (stuck : Bytes → Bool) : DiskCache :=
  evictLoop target stuck 0
    ((c.evictEntries ord).insertionSort fun a b => a.lastAccess ≤ b.lastAccess) c

/- What Put does once `written` bytes are in the file: meta.json, the maps, the
   totals, and eviction if the cache is too large. -/
def account (c : DiskCache) (name : Bytes) (written : ℤ) (old : Option ℤ) (now : ℤ) : DiskCache :=
  { c.setMeta name (some (some ⟨now, written⟩)) with
    accessTimes := c.accessTimes.insert name now
    sizes := c.sizes.insert name written
    count := match old with
      | some _ => c.count
      | none => c.count + 1
    size := match old with
      | some o => c.size + (written - o)
      | none => c.size + written }

def commit (c : DiskCache) (name : Bytes) (written : ℤ) (old : Option ℤ) (now : ℤ)
    (ord : MapOrder) (stuck : Bytes → Bool) : DiskCache :=
  let c' := c.account name written old now
  if int64 c'.size > c'.maxBytes then c'.evict (int64 (c'.size - c'.maxBytes)) ord stuck else c'

/- A meta.json that is there counts as an entry, whether it unmarshals or not. -/
def delete (c : DiskCache) (key : Bytes) : DiskCache :=
  let name := keyName key
  let existed := (c.entry name).metaFile.isSome
  { c with
    disk := c.disk.erase name
    accessTimes := c.accessTimes.erase name
    sizes := c.sizes.erase name
    count := if existed then c.count - 1 else c.count
    size := if existed then c.size - (c.oldSize name).getD 0 else c.size }

/-! ### What each operation does to the contents -/

/- Get counts; the rest it leaves to its goroutine. -/
theorem get_eq (c : DiskCache) (key : Bytes) :
    ∃ hits misses, (c.get key).1 = { c with hits := hits, misses := misses } := by
  unfold get
  split
  · exact ⟨c.hits, c.misses + 1, rfl⟩
  · exact ⟨c.hits + 1, c.misses, rfl⟩

variable {c : DiskCache} {P : DiskCache → Prop} {stuck : Bytes → Bool}
variable {c' : DiskCache} {name : Bytes} {old : Option ℤ} {ord : MapOrder}

theorem get_hit {key bs : Bytes} (h : c.get key = (c', some bs)) :
    c.contentAt (keyName key) = some bs ∧ c'.contentAt = c.contentAt := by
  unfold get at h
  split at h
  · cases h
  · rename_i hbs
    cases h
    exact ⟨hbs, rfl⟩

theorem get_miss {key : Bytes} (h : c.get key = (c', none)) :
    c.has key = false ∧ c'.contentAt = c.contentAt := by
  unfold get at h
  split at h
  · rename_i hnone
    cases h
    exact ⟨by rw [has, hnone]; rfl, rfl⟩
  · cases h

@[simp] theorem entry_insert_self (c : DiskCache) (name : Bytes) (e : Entry) :
    ({ c with disk := c.disk.insert name e } : DiskCache).entry name = e := by
  simp [entry, AList.lookup_insert]

@[simp] theorem entry_insert_ne (c : DiskCache) (name n : Bytes) (e : Entry) (h : n ≠ name) :
    ({ c with disk := c.disk.insert name e } : DiskCache).entry n = c.entry n := by
  simp [entry, AList.lookup_insert_ne h]

@[simp] theorem contentAt_setContent_self (c : DiskCache) (name : Bytes) (v : Option Bytes) :
    (c.setContent name v).contentAt name = v := by
  simp [contentAt, setContent]

theorem setContent_setContent (c : DiskCache) (name : Bytes) (v v' : Option Bytes) :
    (c.setContent name v).setContent name v' = c.setContent name v' := by
  simp [setContent, AList.insert_insert]

theorem contentAt_setContent_ne (c : DiskCache) (name n : Bytes) (v : Option Bytes)
    (h : n ≠ name) : (c.setContent name v).contentAt n = c.contentAt n := by
  simp [contentAt, setContent, h]

@[simp] theorem contentAt_setMeta (c : DiskCache) (name n : Bytes)
    (m : Option (Option CacheMeta)) : (c.setMeta name m).contentAt n = c.contentAt n := by
  by_cases h : n = name
  · subst h
    simp [contentAt, setMeta]
  · simp [contentAt, setMeta, h]

theorem contentAt_of_erase {n bs : Bytes} (hdisk : c'.disk = c.disk.erase name)
    (h : c'.contentAt n = some bs) : c.contentAt n = some bs := by
  unfold contentAt entry at h ⊢
  rw [hdisk] at h
  by_cases hn : n = name
  · rw [hn, AList.lookup_erase] at h
    cases h
  · rwa [AList.lookup_erase_ne hn] at h

theorem contentAt_delete {key bs : Bytes} (h : (c.delete key).contentAt name = some bs) :
    c.contentAt name = some bs :=
  contentAt_of_erase rfl h

theorem contentAt_delete_self (c : DiskCache) (key : Bytes) :
    (c.delete key).contentAt (keyName key) = none := by
  simp [contentAt, entry, delete, AList.lookup_erase]

/-- The loop keeps what the removal of any entry keeps. -/
theorem evictLoop_invariant
    (hremove : ∀ (c : DiskCache) (e : EvictEntry), P c → P (c.removeEntry e)) {target freed : ℤ}
    {es : List EvictEntry} (h : P c) : P (evictLoop target stuck freed es c) := by
  induction es generalizing freed c with
  | nil => exact h
  | cons e es ih =>
    unfold evictLoop
    split
    · exact h
    · split
      · exact ih h
      · exact ih (hremove c e h)

theorem commit_invariant (hremove : ∀ (c : DiskCache) (e : EvictEntry), P c → P (c.removeEntry e))
    {written now : ℤ} (h : P (c.account name written old now)) :
    P (c.commit name written old now ord stuck) := by
  unfold commit
  simp only
  split
  · exact evictLoop_invariant hremove h
  · exact h

theorem contentAt_commit {n bs : Bytes} {written now : ℤ}
    (h : (c.commit name written old now ord stuck).contentAt n = some bs) :
    c.contentAt n = some bs := by
  -- eviction changes no content that it leaves
  refine commit_invariant (P := fun c' : DiskCache => c'.contentAt n = some bs →
    c.contentAt n = some bs) (fun c' e hc' hrest => ?_) (fun hacc => ?_) h
  · exact hc' (contentAt_of_erase rfl hrest)
  · exact (contentAt_setMeta c name n _).symm.trans hacc

end DiskCache

/-- Where a Put fails, if it does. `copy` is a failing reader or a full disk; a failing
write of meta.json may have emptied the file first. -/
inductive PutFault where
  | none
  | mkdir
  | create
  | copy
  | writeMeta (lost : Bool)

inductive PutError where
  | mkdirCacheEntry
  | createCacheFile
  | writeCache
  | writeMeta
  deriving DecidableEq

/-- Everything a call of Put depends on besides the cache. -/
structure PutCall where
  key : Bytes
  data : Bytes
  now : ℤ
  fault : PutFault
  ord : MapOrder
  stuck : Bytes → Bool

open DiskCache in
def put (c : DiskCache) (p : PutCall) : DiskCache × Option PutError :=
  let name := keyName p.key
  let old := c.oldSize name
  match p.fault with
  | .mkdir => (c, some .mkdirCacheEntry)
  | .create => (c.setContent name (c.entry name).content, some .createCacheFile)
  | .copy => (c.setContent name none, some .writeCache)
  | .writeMeta lost =>
    let c' := c.setContent name (some p.data)
    (if lost then c'.setMeta name (some none) else c', some .writeMeta)
  | .none =>
    ((c.setContent name (some p.data)).commit name p.data.length old p.now p.ord p.stuck, none)

def allKeys (c : DiskCache) (ord : MapOrder) : List Bytes := ord.visit c.accessTimes.keys

/- The most recently accessed names first, at most `limit` of them. -/
def hotKeys (c : DiskCache) (ord : MapOrder) (limit : ℕ) : List Bytes :=
  let items := (ord.visit c.accessTimes.keys).filterMap fun name =>
    (c.accessTimes.lookup name).map fun t => (name, t)
  (((items.insertionSort fun a b => a.2 ≥ b.2).take limit).map Prod.fst)

theorem mem_hotKeys (c : DiskCache) (ord : MapOrder) (limit : ℕ) (name : Bytes)
    (h : name ∈ hotKeys c ord limit) : name ∈ c.accessTimes := by
  obtain ⟨item, hitem, rfl⟩ := List.mem_map.mp h
  have hsorted := (List.mem_insertionSort _).mp (List.mem_of_mem_take hitem)
  obtain ⟨n, hn, hval⟩ := List.mem_filterMap.mp hsorted
  obtain ⟨t, _, rfl⟩ := Option.map_eq_some_iff.mp hval
  exact AList.mem_keys.mpr ((ord.perm _).mem_iff.mp hn)

end EdgeDispatch.Edge.Cache
