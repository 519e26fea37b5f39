import EdgeDispatch.Lib.MapRange
import Mathlib.Algebra.Group.Int.Defs
import Mathlib.Data.List.Induction
import Mathlib.Data.List.Perm.Basic

/-! # Which peers are asked for an object (internal/edgeagent/p2p_fetcher.go:44-71)

`FetchFromPeer` goes over its table of peers in an order that the runtime chooses, makes a
list of them and tries them in turn. The table holds pointers, of type `ρ`; `info` is the
record that a pointer points to. -/

namespace EdgeDispatch.Edge.PeerFetch
open Lib.MapRange

/- Times are in nanoseconds, and a map that is nil holds no key. -/
structure PeerInfo where
  nodeID : String
  endpoint : String
  latencyMs : ℤ
  hasContent : String → Bool
  lastSeen : ℤ
  isShield : Bool

variable {ρ β : Type}

/- The two slices of the loop. -/
structure Slices (ρ : Type) where
  shieldPeers : List ρ
  peers : List ρ

def place (info : ρ → PeerInfo) (key : String) (s : Slices ρ) (peer : ρ) : Slices ρ :=
  if (info peer).hasContent key then
    if (info peer).isShield then { s with shieldPeers := s.shieldPeers ++ [peer] }
    else { s with peers := peer :: s.peers }
  else { s with peers := s.peers ++ [peer] }

def allPeers (info : ρ → PeerInfo) (key : String) (table : String → Option ρ)
    (order : List String) : List ρ :=
  let s := (order.filterMap table).foldl (place info key) ⟨[], []⟩
  s.shieldPeers ++ s.peers

/- The peers that were tried, and the body from the last of them. -/
def tryEach (tryFetch : ρ → Option β) : List ρ → List ρ × Option β
  | [] => ([], none)
  | peer :: rest =>
    match tryFetch peer with
    | some body => ([peer], some body)
    | none => (peer :: (tryEach tryFetch rest).1, (tryEach tryFetch rest).2)

/- `tryFetch` is `none` where it fails. -/
def fetchFromPeer (info : ρ → PeerInfo) (key : String) (table : String → Option ρ)
    (order : List String) (tryFetch : ρ → Option β) : List ρ × Option β :=
  tryEach tryFetch (allPeers info key table order)

/-! ### The three classes -/

section Classes
variable (info : ρ → PeerInfo) (key : String)

def shieldHolder (peer : ρ) : Bool := (info peer).hasContent key && (info peer).isShield
def plainHolder (peer : ρ) : Bool := (info peer).hasContent key && !(info peer).isShield
def stranger (peer : ρ) : Bool := !(info peer).hasContent key

/-- The loop keeps the shields in their order, turns the order of the other holders around and
leaves the rest behind them. -/
theorem foldl_place (l : List ρ) :
    l.foldl (place info key) ⟨[], []⟩ =
      ⟨l.filter (shieldHolder info key),
        (l.filter (plainHolder info key)).reverse ++ l.filter (stranger info key)⟩ := by
  induction l using List.reverseRecOn with
  | nil => rfl
  | append_singleton l peer ih =>
    rw [List.foldl_append, ih]
    simp only [List.foldl_cons, List.foldl_nil, place, List.filter_append]
    cases hc : (info peer).hasContent key with
    | false => simp [shieldHolder, plainHolder, stranger, hc]
    | true =>
      cases hs : (info peer).isShield with
      | false => simp [shieldHolder, plainHolder, stranger, hc, hs]
      | true => simp [shieldHolder, plainHolder, stranger, hc, hs]

theorem allPeers_eq (table : String → Option ρ) (order : List String) :
    allPeers info key table order =
      (order.filterMap table).filter (shieldHolder info key) ++
        (((order.filterMap table).filter (plainHolder info key)).reverse ++
          (order.filterMap table).filter (stranger info key)) := by
  rw [allPeers, foldl_place]

/- Every peer is in one of the classes. -/
theorem classes_perm (l : List ρ) :
    (l.filter (shieldHolder info key) ++ ((l.filter (plainHolder info key)).reverse ++
      l.filter (stranger info key))).Perm l := by
  have hholders : ((l.filter (fun peer => (info peer).hasContent key)).filter
      fun peer => (info peer).isShield) = l.filter (shieldHolder info key) := by
    rw [List.filter_filter]
    exact List.filter_congr fun peer _ => Bool.and_comm _ _
  have hplain : ((l.filter (fun peer => (info peer).hasContent key)).filter
      fun peer => !(info peer).isShield) = l.filter (plainHolder info key) := by
    rw [List.filter_filter]
    exact List.filter_congr fun peer _ => Bool.and_comm _ _
  have hsplit := List.filter_append_perm (fun peer => (info peer).isShield)
    (l.filter fun peer => (info peer).hasContent key)
  rw [hholders, hplain] at hsplit
  have hall := List.filter_append_perm (fun peer => (info peer).hasContent key) l
  have hturned : ((l.filter (plainHolder info key)).reverse ++ l.filter (stranger info key)).Perm
      (l.filter (plainHolder info key) ++ l.filter (stranger info key)) :=
    (List.reverse_perm _).append_right _
  refine (hturned.append_left _).trans ?_
  rw [← List.append_assoc]
  exact (hsplit.append_right _).trans hall

/-- What is asked of the order: `a` has to come before `b`. -/
def Before (a b : ρ) : Prop :=
  (shieldHolder info key a = true ∧ shieldHolder info key b = false) ∨
    (plainHolder info key a = true ∧ stranger info key b = true)

/- The place of a peer's class in the list. -/
def rank (peer : ρ) : ℕ :=
  if (info peer).hasContent key then if (info peer).isShield then 0 else 1 else 2

section Rank
variable {info key}
variable {a : ρ}

theorem rank_of_shieldHolder (h : shieldHolder info key a = true) : rank info key a = 0 := by
  obtain ⟨hc, hs⟩ := Bool.and_eq_true_iff.mp h
  simp [rank, hc, hs]

theorem rank_of_plainHolder (h : plainHolder info key a = true) : rank info key a = 1 := by
  obtain ⟨hc, hs⟩ := Bool.and_eq_true_iff.mp h
  simp [rank, hc, Bool.not_eq_true' _ |>.mp hs]

theorem rank_of_stranger (h : stranger info key a = true) : rank info key a = 2 := by
  simp [rank, (Bool.not_eq_true' _).mp h]

theorem rank_pos_of_not_shieldHolder (h : shieldHolder info key a = false) :
    0 < rank info key a := by
  unfold rank
  split
  · rename_i hc
    have hs : (info a).isShield = false := by simpa [shieldHolder, hc] using h
    simp [hs]
  · exact Nat.two_pos

theorem rank_lt_of_before {b : ρ} (h : Before info key a b) :
    rank info key a < rank info key b := by
  rcases h with ⟨ha, hb⟩ | ⟨ha, hb⟩
  · rw [rank_of_shieldHolder ha]
    exact rank_pos_of_not_shieldHolder hb
  · rw [rank_of_plainHolder ha, rank_of_stranger hb]
    exact Nat.one_lt_two

end Rank

theorem classes_pairwise (l : List ρ) :
    (l.filter (shieldHolder info key) ++ ((l.filter (plainHolder info key)).reverse ++
      l.filter (stranger info key))).Pairwise fun a b => rank info key a ≤ rank info key b := by
  have hshield : ∀ a ∈ l.filter (shieldHolder info key), rank info key a = 0 :=
    fun a ha => rank_of_shieldHolder (List.mem_filter.mp ha).2
  have hplain : ∀ a ∈ (l.filter (plainHolder info key)).reverse, rank info key a = 1 :=
    fun a ha => rank_of_plainHolder (List.mem_filter.mp (List.mem_reverse.mp ha)).2
  have hstranger : ∀ a ∈ l.filter (stranger info key), rank info key a = 2 :=
    fun a ha => rank_of_stranger (List.mem_filter.mp ha).2
  have hflat {k : List ρ} {r : ℕ} (h : ∀ a ∈ k, rank info key a = r) :
      k.Pairwise fun a b => rank info key a ≤ rank info key b :=
    List.pairwise_of_forall_mem_list fun a ha b hb => Nat.le_of_eq ((h a ha).trans (h b hb).symm)
  refine List.pairwise_append.mpr ⟨hflat hshield, List.pairwise_append.mpr ⟨hflat hplain,
    hflat hstranger, fun a ha b hb => ?_⟩, fun a ha b _ => ?_⟩
  · rw [hplain a ha, hstranger b hb]
    exact Nat.le_succ 1
  · rw [hshield a ha]
    exact Nat.zero_le _

end Classes

variable {table : String → Option ρ}

theorem mem_filterMap_iff {order : List String} (hv : Visits table order) (peer : ρ) :
    peer ∈ order.filterMap table ↔ ∃ id, table id = some peer := by
  rw [List.mem_filterMap]
  refine exists_congr fun id => and_iff_right_of_imp fun hid => ?_
  rw [hv.mem_iff, hid]
  rfl

theorem allPeers_perm (info : ρ → PeerInfo) (key : String) (table : String → Option ρ)
    (order : List String) : (allPeers info key table order).Perm (order.filterMap table) := by
  rw [allPeers_eq]
  exact classes_perm info key _

theorem mem_allPeers_iff (info : ρ → PeerInfo) (key : String) {order : List String}
    (hv : Visits table order) (peer : ρ) :
    peer ∈ allPeers info key table order ↔ ∃ id, table id = some peer := by
  rw [(allPeers_perm info key table order).mem_iff, mem_filterMap_iff hv]

/-- For any order of the loop the list is a permutation of the table, in which no peer that has
to come before another comes after it. -/
theorem allPeers_perm_and_order (info : ρ → PeerInfo) (key : String) {table : String → Option ρ}
    {order : List String} (hv : Visits table order) :
    (allPeers info key table order).Perm (order.filterMap table) ∧
      (∀ peer, peer ∈ allPeers info key table order ↔ ∃ id, table id = some peer) ∧
      (allPeers info key table order).Pairwise fun a b => ¬ Before info key b a := by
  refine ⟨allPeers_perm info key table order, mem_allPeers_iff info key hv, ?_⟩
  rw [allPeers_eq]
  exact (classes_pairwise info key _).imp fun hle hbefore =>
    absurd (rank_lt_of_before hbefore) (Nat.not_lt.mpr hle)

/- Four peers; b, c and d are known to hold the key, and d is a shield. -/
def fourPeers : String → PeerInfo := fun id =>
  ⟨id, "", 0, fun _ => id ≠ "a", 0, id = "d"⟩

def fourTable : String → Option String := fun id =>
  if id ∈ ["a", "b", "c", "d"] then some id else none

theorem allPeers_of_four :
    allPeers fourPeers "k" fourTable ["a", "b", "c", "d"] = ["d", "c", "b", "a"] ∧
      ["d", "c", "b", "a"].Pairwise fun a b => ¬ Before fourPeers "k" b a := by
  have hv : Visits fourTable ["a", "b", "c", "d"] := by
    refine ⟨by decide, fun id => ?_⟩
    unfold fourTable
    split
    · rename_i hid
      exact iff_of_true hid rfl
    · rename_i hid
      exact iff_of_false hid (by simp)
  have hlist : allPeers fourPeers "k" fourTable ["a", "b", "c", "d"] = ["d", "c", "b", "a"] := by
    decide
  exact ⟨hlist, hlist ▸ (allPeers_perm_and_order fourPeers "k" hv).2.2⟩

/-! ### What is tried -/

theorem tryEach_isPrefix (tryFetch : ρ → Option β) (l : List ρ) : (tryEach tryFetch l).1 <+: l := by
  induction l with
  | nil => exact List.prefix_refl _
  | cons peer rest ih =>
    unfold tryEach
    split
    · exact ⟨rest, rfl⟩
    · exact List.cons_prefix_cons.mpr ⟨rfl, ih⟩

/- Where every fetch fails, every peer is tried. -/
theorem tryEach_failing (l : List ρ) : (tryEach (fun _ => (none : Option β)) l).1 = l := by
  induction l with
  | nil => rfl
  | cons peer rest ih => exact congrArg (peer :: ·) ih

end EdgeDispatch.Edge.PeerFetch
