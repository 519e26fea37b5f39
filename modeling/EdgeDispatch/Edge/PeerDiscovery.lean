import EdgeDispatch.Edge.PeerFetch
import EdgeDispatch.Lib.GoJSON

/-! # Peers that are known and peers that are asked

Announcements put a peer into the table of the discovery service and into that of the fetcher
(internal/edgeagent/p2p_discovery.go:123-153, p2p_fetcher.go:90-97); the cleanup goes over the
first (p2p_discovery.go:169-180). Both tables hold pointers to one record. -/

namespace EdgeDispatch.Edge.PeerDiscovery
open Lib.GoJSON Lib.MapRange Edge.PeerFetch

/- In nanoseconds. -/
def p2pAnnounceTTL : ℤ := 90 * 10 ^ 9

structure P2PAnnounce where
  nodeID : String
  endpoint : String
  isShield : Bool
  ts : ℤ

def decodeAnnounce : Json → Option P2PAnnounce
  | .null => some ⟨"", "", false, 0⟩
  | .obj members => do
    let nodeID ← field "node_id" decodeString "" members
    let endpoint ← field "endpoint" decodeString "" members
    let isShield ← field "is_shield" decodeBool false members
    let ts ← field "ts" decodeInt 0 members
    return ⟨nodeID, endpoint, isShield, ts⟩
  | _ => none

/-- A pointer is the number of its record; those from `next` on are not yet allocated. -/
structure State where
  records : ℕ → PeerInfo
  next : ℕ
  knownPeers : String → Option ℕ
  peers : String → Option ℕ

def start : State :=
  ⟨fun _ => ⟨"", "", 0, fun _ => false, 0, false⟩, 0, fun _ => none, fun _ => none⟩

/- Each peer with the time at which the loop comes to it. -/
def updatePeers (s : State) : List (ℕ × ℤ) → State
  | [] => s
  | (peer, now) :: rest =>
    updatePeers { s with
      records := Function.update s.records peer { s.records peer with lastSeen := now }
      peers := Function.update s.peers (s.records peer).nodeID (some peer) } rest

/- The clock is read once here and once by `UpdatePeers`. The payload is `none` where it is not
   JSON. -/
def handleAnnounce (own : String) (payload : Option Json) (received stored : ℤ) (s : State) :
    State :=
  match payload.bind decodeAnnounce with
  | none => s
  | some announce =>
    if announce.nodeID = own then s
    else
      let peer : PeerInfo :=
        ⟨announce.nodeID, announce.endpoint, 0, fun _ => false, received, announce.isShield⟩
      updatePeers { s with
        records := Function.update s.records s.next peer
        next := s.next + 1
        knownPeers := Function.update s.knownPeers announce.nodeID (some s.next) }
        [(s.next, stored)]

/- The loop deletes what is stale, in any order. -/
def cleanup (now : ℤ) (s : State) : State :=
  { s with knownPeers := fun id => (s.knownPeers id).filter fun peer =>
      ¬ (s.records peer).lastSeen < now - p2pAnnounceTTL }

inductive Action where
  | announce (payload : Option Json) (received stored : ℤ)
  | cleanup (now : ℤ)

def apply (own : String) (s : State) : Action → State
  | .announce payload received stored => handleAnnounce own payload received stored s
  | .cleanup now => cleanup now s

def run (own : String) (actions : List Action) : State := actions.foldl (apply own) start

/- The readings of the clock. -/
def Action.times : Action → List ℤ
  | .announce _ received stored => [received, stored]
  | .cleanup now => [now]

/-! ### What is asked -/

/- Some fetch may come to the peer, for some key and order of the loop. -/
def MayContact (s : State) (peer : ℕ) : Prop :=
  ∃ key order, Visits s.peers order ∧ ∃ tryFetch : ℕ → Option Unit,
    peer ∈ (fetchFromPeer s.records key s.peers order tryFetch).1

def IsKnown (s : State) (peer : ℕ) : Prop := ∃ id, s.knownPeers id = some peer

/- The peer that an action announces, and when. -/
def announced (own : String) : Action → Option (String × ℤ)
  | .announce payload _ stored =>
    match payload.bind decodeAnnounce with
    | some announce => if announce.nodeID = own then none else some (announce.nodeID, stored)
    | none => none
  | .cleanup _ => none

def lastAnnounced (own : String) (actions : List Action) (id : String) : Option ℤ :=
  (((actions.filterMap (announced own)).filter fun a => a.1 = id).getLast?).map Prod.snd

/-- After a cleanup at `now`: the peers that may be asked are those that are known, and each of
them was announced within the lifetime. -/
def UsesKnown (own : String) (before : List Action) (now : ℤ) : Prop :=
  (∀ peer, MayContact (run own (before ++ [.cleanup now])) peer ↔
      IsKnown (run own (before ++ [.cleanup now])) peer) ∧
    ∀ peer, MayContact (run own (before ++ [.cleanup now])) peer →
      ∃ t, lastAnnounced own before
          ((run own (before ++ [.cleanup now])).records peer).nodeID = some t ∧
        now - p2pAnnounceTTL ≤ t

/-! ### One action -/

/-- What an announcement does: nothing, or the new record of its peer in both tables. -/
theorem handleAnnounce_spec (own : String) (payload : Option Json) (received stored : ℤ)
    (s : State) :
    (announced own (.announce payload received stored) = none ∧
      handleAnnounce own payload received stored s = s) ∨
    ∃ record : PeerInfo,
      announced own (.announce payload received stored) = some (record.nodeID, stored) ∧
      record.lastSeen = stored ∧
      handleAnnounce own payload received stored s =
        ⟨Function.update s.records s.next record, s.next + 1,
          Function.update s.knownPeers record.nodeID (some s.next),
          Function.update s.peers record.nodeID (some s.next)⟩ := by
  cases hdecode : payload.bind decodeAnnounce with
  | none =>
    refine Or.inl ⟨?_, ?_⟩
    · simp only [announced, hdecode]
    · simp only [handleAnnounce, hdecode]
  | some announce =>
    by_cases hown : announce.nodeID = own
    · refine Or.inl ⟨?_, ?_⟩
      · simp only [announced, hdecode, if_pos hown]
      · simp only [handleAnnounce, hdecode, if_pos hown]
    · refine Or.inr ⟨⟨announce.nodeID, announce.endpoint, 0, fun _ => false, stored,
        announce.isShield⟩, ?_, rfl, ?_⟩
      · simp only [announced, hdecode, if_neg hown]
      · simp only [handleAnnounce, hdecode, if_neg hown, updatePeers, Function.update_self,
          Function.update_idem]

section Last
variable {own : String} {actions : List Action} {a : Action} {id : String}

theorem lastAnnounced_of_silent (h : announced own a = none) :
    lastAnnounced own (actions ++ [a]) id = lastAnnounced own actions id := by
  rw [lastAnnounced, List.filterMap_append, List.filterMap_cons_none h, List.filterMap_nil,
    List.append_nil, lastAnnounced]

theorem lastAnnounced_of_same {t : ℤ} (h : announced own a = some (id, t)) :
    lastAnnounced own (actions ++ [a]) id = some t := by
  rw [lastAnnounced, List.filterMap_append, List.filterMap_cons_some h, List.filterMap_nil,
    List.filter_append]
  have hkeep : [(id, t)].filter (fun a => decide (a.1 = id)) = [(id, t)] := by simp
  rw [hkeep, List.getLast?_concat, Option.map_some]

theorem lastAnnounced_of_other {other : String} {t : ℤ} (h : announced own a = some (other, t))
    (hne : id ≠ other) :
    lastAnnounced own (actions ++ [a]) id = lastAnnounced own actions id := by
  have hdrop : [(other, t)].filter (fun a => decide (a.1 = id)) = [] := by simp [hne.symm]
  rw [lastAnnounced, List.filterMap_append, List.filterMap_cons_some h, List.filterMap_nil,
    List.filter_append, hdrop, List.append_nil, lastAnnounced]

end Last

/-! ### What holds in every run -/

/-- The fetcher's table holds the last announcement of every peer; the other holds no more. -/
structure Tables (own : String) (actions : List Action) (s : State) : Prop where
  allocated : ∀ id peer, s.peers id = some peer → peer < s.next
  known : ∀ id peer, s.knownPeers id = some peer → s.peers id = some peer
  name : ∀ id peer, s.peers id = some peer → (s.records peer).nodeID = id
  last : ∀ id, lastAnnounced own actions id =
    (s.peers id).map fun peer => (s.records peer).lastSeen
  order : ∃ order, Visits s.peers order

theorem tables_start (own : String) : Tables own [] start where
  allocated _ _ h := nomatch h
  known _ _ h := nomatch h
  name _ _ h := nomatch h
  last _ := rfl
  order := ⟨[], visits_empty⟩

variable {own : String} {actions : List Action} {s : State}

theorem Tables.stored (h : Tables own actions s) {a : Action} {record : PeerInfo}
    (ha : announced own a = some (record.nodeID, record.lastSeen)) :
    Tables own (actions ++ [a]) ⟨Function.update s.records s.next record, s.next + 1,
      Function.update s.knownPeers record.nodeID (some s.next),
      Function.update s.peers record.nodeID (some s.next)⟩ := by
  -- the records of the other peers are older than the new one
  have hother : ∀ id peer, s.peers id = some peer →
      Function.update s.records s.next record peer = s.records peer := fun id peer hpeer =>
    Function.update_of_ne (Nat.ne_of_lt (h.allocated id peer hpeer)) _ _
  refine ⟨fun id peer hpeer => ?_, fun id peer hpeer => ?_, fun id peer hpeer => ?_, fun id => ?_,
    ?_⟩
  all_goals dsimp only at *
  · by_cases hid : id = record.nodeID
    · rw [hid, Function.update_self] at hpeer
      cases hpeer
      exact Nat.lt_succ_self _
    · rw [Function.update_of_ne hid] at hpeer
      exact Nat.lt_succ_of_lt (h.allocated id peer hpeer)
  · by_cases hid : id = record.nodeID
    · rwa [hid, Function.update_self] at hpeer ⊢
    · rw [Function.update_of_ne hid] at hpeer ⊢
      exact h.known id peer hpeer
  · by_cases hid : id = record.nodeID
    · rw [hid, Function.update_self] at hpeer
      cases hpeer
      rw [Function.update_self, hid]
    · rw [Function.update_of_ne hid] at hpeer
      rw [hother id peer hpeer]
      exact h.name id peer hpeer
  · by_cases hid : id = record.nodeID
    · rw [hid, lastAnnounced_of_same ha, Function.update_self, Option.map_some,
        Function.update_self]
    · rw [lastAnnounced_of_other ha hid, h.last, Function.update_of_ne hid]
      exact Option.map_congr fun peer hpeer => by rw [hother id peer hpeer]
  · obtain ⟨order, hv⟩ := h.order
    exact hv.set _ _

theorem Tables.cleanup (h : Tables own actions s) (now : ℤ) :
    Tables own (actions ++ [.cleanup now]) (cleanup now s) where
  allocated := h.allocated
  known id peer hpeer := h.known id peer (Option.eq_some_of_filter_eq_some hpeer)
  name := h.name
  last id := (lastAnnounced_of_silent rfl).trans (h.last id)
  order := h.order

theorem run_concat (own : String) (actions : List Action) (a : Action) :
    run own (actions ++ [a]) = apply own (run own actions) a := by
  rw [run, List.foldl_append]
  rfl

theorem tables_run (own : String) (actions : List Action) :
    Tables own actions (run own actions) := by
  induction actions using List.reverseRecOn with
  | nil => exact tables_start own
  | append_singleton actions a ih =>
    rw [run_concat]
    cases a with
    | announce payload received stored =>
      rcases handleAnnounce_spec own payload received stored (run own actions) with
        ⟨hsilent, hsame⟩ | ⟨record, ha, hseen, hnew⟩
      · show Tables _ _ (handleAnnounce own payload received stored (run own actions))
        rw [hsame]
        exact ⟨ih.allocated, ih.known, ih.name,
          fun id => (lastAnnounced_of_silent hsilent).trans (ih.last id), ih.order⟩
      · show Tables _ _ (handleAnnounce own payload received stored (run own actions))
        rw [hnew]
        exact ih.stored (hseen ▸ ha)
    | cleanup now => exact ih.cleanup now

/-- Any peer of the fetcher's table may be asked: all before it may fail. -/
theorem mayContact_iff (horder : ∃ order, Visits s.peers order) (peer : ℕ) :
    MayContact s peer ↔ ∃ id, s.peers id = some peer := by
  constructor
  · rintro ⟨key, order, hv, tryFetch, hmem⟩
    rw [← mem_allPeers_iff s.records key hv]
    exact (tryEach_isPrefix tryFetch _).subset hmem
  · intro hpeer
    obtain ⟨order, hv⟩ := horder
    refine ⟨"", order, hv, fun _ => none, ?_⟩
    rw [fetchFromPeer, tryEach_failing, mem_allPeers_iff s.records "" hv]
    exact hpeer

/-! ### When no table is left behind -/

/-- At every cleanup, every peer announced so far was announced within the lifetime. -/
def Timely (own : String) (actions : List Action) : Prop :=
  ∀ before now after, actions = before ++ .cleanup now :: after →
    ∀ id, ∀ t ∈ lastAnnounced own before id, now - p2pAnnounceTTL ≤ t

theorem Timely.init {a : Action} (h : Timely own (actions ++ [a])) : Timely own actions := by
  intro before now after hsplit
  refine h before now (after ++ [a]) ?_
  rw [hsplit, List.append_assoc]
  rfl

/- A cleanup that finds nothing stale. -/
theorem cleanup_of_timely {now : ℤ}
    (h : ∀ id peer, s.knownPeers id = some peer → now - p2pAnnounceTTL ≤ (s.records peer).lastSeen) :
    
    cleanup now s = s := by
  have hknown : (fun id => (s.knownPeers id).filter fun peer =>
      decide (¬ (s.records peer).lastSeen < now - p2pAnnounceTTL)) = s.knownPeers := by
    funext id
    cases hid : s.knownPeers id with
    | none => rfl
    | some peer =>
      exact Option.filter_some_pos (decide_eq_true (Int.not_lt.mpr (h id peer hid)))
  rw [cleanup, hknown]

theorem tables_agree (h : Timely own actions) :
    (run own actions).knownPeers = (run own actions).peers := by
  induction actions using List.reverseRecOn with
  | nil => rfl
  | append_singleton actions a ih =>
    have hbefore := ih h.init
    rw [run_concat]
    cases a with
    | announce payload received stored =>
      rcases handleAnnounce_spec own payload received stored (run own actions) with
        ⟨-, hsame⟩ | ⟨record, -, -, hnew⟩
      · simp only [apply, hsame, hbefore]
      · simp only [apply, hnew, hbefore]
    | cleanup now =>
      have htables := tables_run own actions
      have hkept : cleanup now (run own actions) = run own actions := by
        refine cleanup_of_timely fun id peer hpeer => h actions now [] rfl id _ ?_
        rw [htables.last, htables.known id peer hpeer]
        rfl
      simp only [apply, hkept, hbefore]

/-- Any announcements and cleanups: after each cleanup the peers that are asked are those that
discovery knows iff no cleanup ever comes upon a peer that is stale. -/
theorem uses_known_iff (own : String) (actions : List Action) :
    (∀ before now after, actions = before ++ .cleanup now :: after → UsesKnown own before now) ↔
      Timely own actions := by
  constructor
  · intro h before now after hsplit id t ht
    have htables := tables_run own before
    have hpeers : (run own (before ++ [.cleanup now])).peers = (run own before).peers := by
      rw [run_concat]
      rfl
    have hrecords : (run own (before ++ [.cleanup now])).records = (run own before).records := by
      rw [run_concat]
      rfl
    rw [Option.mem_def, htables.last] at ht
    obtain ⟨peer, hpeer, -⟩ := Option.map_eq_some_iff.mp ht
    -- the peer is still in the fetcher's table, stale or not
    have hcontact : MayContact (run own (before ++ [.cleanup now])) peer := by
      rw [mayContact_iff (tables_run own _).order, hpeers]
      exact ⟨id, hpeer⟩
    obtain ⟨t', ht', hle⟩ := (h before now after hsplit).2 peer hcontact
    rw [hrecords, htables.name id peer hpeer, htables.last, ht] at ht'
    cases ht'
    exact hle
  · intro h before now after hsplit
    have hupto : Timely own (before ++ [.cleanup now]) := by
      intro b n a hba
      refine h b n (a ++ after) ?_
      rw [hsplit, List.append_cons, hba, List.append_assoc]
      rfl
    have hagree := tables_agree hupto
    have htables := tables_run own (before ++ [.cleanup now])
    have hcontact : ∀ peer, MayContact (run own (before ++ [.cleanup now])) peer ↔
        ∃ id, (run own (before ++ [.cleanup now])).peers id = some peer :=
      mayContact_iff htables.order
    refine ⟨fun peer => ?_, fun peer hpeer => ?_⟩
    · rw [hcontact, IsKnown, hagree]
    · obtain ⟨id, hid⟩ := (hcontact peer).mp hpeer
      have hlast : lastAnnounced own before id =
          some ((run own (before ++ [.cleanup now])).records peer).lastSeen := by
        rw [← lastAnnounced_of_silent (a := .cleanup now) rfl, htables.last, hid]
        rfl
      rw [htables.name id peer hid]
      exact ⟨_, hlast, h before now after hsplit id _ hlast⟩

/- An announcement of node b, and ninety-one seconds later a cleanup. -/
def announceB : Action :=
  .announce (some (.obj [("node_id", .str "b"), ("endpoint", .str "http://b")])) 0 0

/-- The cleanup forgets the peer, and a fetch may still go to it. -/
theorem stale_peer_contacted :
    ([announceB, .cleanup (91 * 10 ^ 9)].flatMap Action.times).Pairwise (· ≤ ·) ∧
      MayContact (run "a" [announceB, .cleanup (91 * 10 ^ 9)]) 0 ∧
      ((run "a" [announceB, .cleanup (91 * 10 ^ 9)]).records 0).nodeID = "b" ∧
      ¬ IsKnown (run "a" [announceB, .cleanup (91 * 10 ^ 9)]) 0 ∧
      ¬ UsesKnown "a" [announceB] (91 * 10 ^ 9) := by
  have hcontact : MayContact (run "a" [announceB, .cleanup (91 * 10 ^ 9)]) 0 := by
    rw [mayContact_iff (tables_run "a" _).order]
    exact ⟨"b", by decide⟩
  have hunknown : ¬ IsKnown (run "a" [announceB, .cleanup (91 * 10 ^ 9)]) 0 := by
    rintro ⟨id, hid⟩
    have hname : id = "b" := by
      have hpeer := (tables_run "a" [announceB, .cleanup (91 * 10 ^ 9)]).known id 0 hid
      rw [← (tables_run "a" [announceB, .cleanup (91 * 10 ^ 9)]).name id 0 hpeer]
      decide
    rw [hname] at hid
    exact absurd hid (by decide)
  exact ⟨by decide, hcontact, by decide, hunknown, fun h => hunknown ((h.1 0).mp hcontact)⟩

end EdgeDispatch.Edge.PeerDiscovery
