import EdgeDispatch.Edge.CacheAccounting
import EdgeDispatch.Lib.Transition

/-! # The keys that a cache lists (internal/edgeagent/cache.go:114-140, 214-247, 319-371)

AllKeys and HotKeys go by the access times, which Get sets in a goroutine of its own after it
has returned. -/

namespace EdgeDispatch.Edge.KeyListings
open Lib.ByteString Lib.Transition Edge.Cache

/-- `pending` are the names whose new access time has not been set yet. -/
structure State where
  cache : DiskCache
  pending : List Bytes

def start (maxGB : ℤ) : State := ⟨newCache maxGB, []⟩

inductive Act where
  | put (p : PutCall)
  | get (key : Bytes)
  | deliver (name : Bytes) (now : ℤ)
  | delete (key : Bytes)
  | deleteKeys (keys : List Bytes)
  | evict (target : ℤ) (ord : MapOrder) (stuck : Bytes → Bool)

/- Only a Get that finds the key leaves an update. -/
def afterGet (s : State) (key : Bytes) : State :=
  ⟨(s.cache.get key).1,
    if (s.cache.get key).2.isSome then keyName key :: s.pending else s.pending⟩

def step (s : State) : Act → Option State
  | .put p => some { s with cache := (put s.cache p).1 }
  | .get key => some (afterGet s key)
  | .deliver name now =>
    if name ∈ s.pending then some ⟨s.cache.touch name now, s.pending.erase name⟩ else none
  | .delete key => some { s with cache := s.cache.delete key }
  | .deleteKeys keys => some { s with cache := deleteKeys s.cache keys }
  | .evict target ord stuck => some { s with cache := s.cache.evict target ord stuck }

def isStored (c : DiskCache) (name : Bytes) : Bool := (c.contentAt name).isSome

/-- The update comes while the entry is there. A Put that fails while it copies has removed
the content, which must not be a listed one. -/
def Orderly (s : State) : Act → Prop
  | .deliver name _ => isStored s.cache name
  | .put p =>
    match p.fault with
    | .copy => keyName p.key ∉ s.cache.accessTimes
    | _ => True
  | _ => True

instance orderlyDecidable (s : State) : ∀ a, Decidable (Orderly s a)
  | .deliver name _ => inferInstanceAs (Decidable (isStored s.cache name = true))
  | .put ⟨key, _, _, .copy, _, _⟩ =>
    inferInstanceAs (Decidable (keyName key ∉ s.cache.accessTimes))
  | .put ⟨_, _, _, .none, _, _⟩ | .put ⟨_, _, _, .mkdir, _, _⟩ | .put ⟨_, _, _, .create, _, _⟩
  | .put ⟨_, _, _, .writeMeta _, _, _⟩ | .get _ | .delete _ | .deleteKeys _ | .evict _ _ _ =>
    isTrue trivial

/-! ### Listed names are the names with an access time -/

def Listed (c : DiskCache) : Prop := ∀ name ∈ c.accessTimes, isStored c name

variable {c : DiskCache}
variable {name : Bytes}

theorem isStored_of_erase {c' : DiskCache} {n : Bytes} (hdisk : c'.disk = c.disk.erase name)
    (hne : n ≠ name) : isStored c' n = isStored c n := by
  unfold isStored DiskCache.contentAt DiskCache.entry
  rw [hdisk, AList.lookup_erase_ne hne]

theorem Listed.erase {c' : DiskCache} (h : Listed c) (hdisk : c'.disk = c.disk.erase name)
    (htimes : c'.accessTimes = c.accessTimes.erase name) : Listed c' := by
  intro n hn
  rw [htimes, AList.mem_erase] at hn
  rw [isStored_of_erase hdisk hn.1]
  exact h n hn.2

theorem Listed.removeEntry (c : DiskCache) (e : DiskCache.EvictEntry) (h : Listed c) :
    Listed (c.removeEntry e) :=
  h.erase rfl rfl

theorem Listed.deleteKeys (h : Listed c) (keys : List Bytes) : Listed (deleteKeys c keys) := by
  induction keys generalizing c with
  | nil => exact h
  | cons key keys ih => exact ih (h.erase rfl rfl)

theorem Listed.setContent (h : Listed c) (name data : Bytes) :
    Listed (c.setContent name (some data)) := by
  intro n hn
  unfold isStored
  by_cases hname : n = name
  · rw [hname, DiskCache.contentAt_setContent_self]
    rfl
  · rw [DiskCache.contentAt_setContent_ne _ _ _ _ hname]
    exact h n hn

theorem Listed.setMeta (h : Listed c) (name : Bytes) (m : Option (Option CacheMeta)) :
    Listed (c.setMeta name m) := by
  intro n hn
  unfold isStored
  rw [DiskCache.contentAt_setMeta]
  exact h n hn

theorem Listed.account (h : Listed c) (hstored : isStored c name) (written : ℤ) (old : Option ℤ)
    (now : ℤ) : Listed (c.account name written old now) := by
  intro n hn
  have hcontent : isStored (c.account name written old now) n = isStored c n :=
    congrArg Option.isSome (DiskCache.contentAt_setMeta c name n _)
  rw [hcontent]
  rcases (AList.mem_insert _).mp hn with rfl | hn
  · exact hstored
  · exact h n hn

end EdgeDispatch.Edge.KeyListings
