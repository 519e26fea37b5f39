import EdgeDispatch.Lib.Transition
import Mathlib.Algebra.Group.Nat.Defs

/-! # The gateway's resolver cache

`handleObjectRequest` calls `GetBestNode`, then `GetNodeEndpoint`, and the proxy it
chooses calls `GetEdgeToken` (gateway.go:239-274, 345, 370). All three share one
`sync.Map` from node id to endpoint, edge token and expiry (resolver.go:101-219);
concurrent requests interleave at its loads and stores. -/

namespace EdgeDispatch.Gateway.Resolver
open Lib.Transition

structure CandidateInfo where
  id : String
  endpoint : String

structure DispatchResponse where
  candidates : List CandidateInfo
  token : String

structure EndpointInfo where
  scheme : String
  host : String
  port : ℤ

structure NodeInfo where
  endpoints : List EndpointInfo
  inboundReachable : Bool

structure NodeInfoCache where
  endpoint : String
  edgeToken : String
  isPublic : Bool
  expireAt : ℕ

/- 30 s in nanoseconds. -/
def cacheTTL : ℕ := 30 * 10 ^ 9

def EndpointInfo.url (ep : EndpointInfo) : String :=
  ep.scheme ++ "://" ++ ep.host ++ ":" ++ toString ep.port

def nodeEndpoint (info : NodeInfo) : String :=
  match info.inboundReachable, info.endpoints with
  | true, ep :: _ => ep.url
  | _, _ => ""

inductive Route where
  | direct (endpoint : String)
  | tunnel

def route (endpoint : String) (isPublic : Bool) : Route :=
  if isPublic = true ∧ endpoint ≠ "" then .direct endpoint else .tunnel

/-- The places of a request in which a token travels: the `token` query parameter and
the Authorization header. -/
structure Credentials where
  query : Option String
  authorization : Option String
  deriving DecidableEq

/- `proxyToPublic` sets the query parameter, `proxyToTunnel` the header; without an
   edge token what the client sent goes on unchanged. -/
def attach : Route → Option String → Credentials → Credentials
  | _, none, c => c
  | .direct _, some t, c => { c with query := some t }
  | .tunnel, some t, c => { c with authorization := some ("Bearer " ++ t) }

/-- Where a request is; `own` is the token of its own dispatch response. -/
inductive Pc where
  | idle
  | resolved (node own : String)
  | fetching (node own : String)
  | routed (node own : String) (r : Route)
  | forwarded (own : String) (r : Route) (sent : Credentials)
  | failed

structure State (ι : Type) where
  now : ℕ
  cache : String → Option NodeInfoCache
  pc : ι → Pc

/- The control plane's answers are part of the label; `none` is a failed call. -/
inductive Act (ι : Type) where
  | getBestNode (i : ι) (resp : Option DispatchResponse)
  | loadEndpoint (i : ι)
  | fetchEndpoint (i : ι) (info : Option NodeInfo)
  | forward (i : ι)
  | tick (d : ℕ)
  | invalidateCache (node : String)

def start {ι : Type} : State ι := ⟨0, fun _ => none, fun _ => .idle⟩

variable {ι : Type} [DecidableEq ι]

def setPc (s : State ι) (i : ι) (p : Pc) : State ι := { s with pc := Function.update s.pc i p }

def store (s : State ι) (node : String) (e : NodeInfoCache) : State ι :=
  { s with cache := Function.update s.cache node (some e) }

/- A loaded entry counts while it has not expired. -/
def load (s : State ι) (node : String) : Option NodeInfoCache :=
  (s.cache node).filter fun e => s.now < e.expireAt

def getEdgeToken (s : State ι) (node : String) : Option String :=
  ((load s node).filter fun e => e.edgeToken ≠ "").map NodeInfoCache.edgeToken

/- Only a candidate with an endpoint is put into the cache. -/
def getBestNode (s : State ι) (i : ι) : Option DispatchResponse → State ι
  | none => setPc s i .failed
  | some resp =>
    match resp.candidates with
    | [] => setPc s i .failed
    | c :: _ =>
      let s' := if c.endpoint ≠ "" then
        store s c.id ⟨c.endpoint, resp.token, true, s.now + cacheTTL⟩ else s
      setPc s' i (.resolved c.id resp.token)

def loadEndpoint (s : State ι) (i : ι) (node own : String) : State ι :=
  match load s node with
  | some e => setPc s i (.routed node own (route e.endpoint e.isPublic))
  | none => setPc s i (.fetching node own)

/- The entry stored after a fetch has no edge token. -/
def fetchEndpoint (s : State ι) (i : ι) (node own : String) : Option NodeInfo → State ι
  | none => setPc s i .failed
  | some info =>
    setPc (store s node ⟨nodeEndpoint info, "", info.inboundReachable, s.now + cacheTTL⟩) i
      (.routed node own (route (nodeEndpoint info) info.inboundReachable))

/- `validURL` is that an endpoint parses and has scheme http or https. -/
def forward (validURL : String → Bool) (client : ι → Credentials) (s : State ι) (i : ι)
    (node own : String) : Route → State ι
  | .direct endpoint =>
    if validURL endpoint then
      setPc s i (.forwarded own (.direct endpoint)
        (attach (.direct endpoint) (getEdgeToken s node) (client i)))
    else setPc s i .failed
  | .tunnel =>
    setPc s i (.forwarded own .tunnel (attach .tunnel (getEdgeToken s node) (client i)))

def step (validURL : String → Bool) (client : ι → Credentials) (s : State ι) :
    Act ι → Option (State ι)
  | .getBestNode i resp =>
    match s.pc i with
    | .idle => some (getBestNode s i resp)
    | _ => none
  | .loadEndpoint i =>
    match s.pc i with
    | .resolved node own => some (loadEndpoint s i node own)
    | _ => none
  | .fetchEndpoint i info =>
    match s.pc i with
    | .fetching node own => some (fetchEndpoint s i node own info)
    | _ => none
  | .forward i =>
    match s.pc i with
    | .routed node own r => some (forward validURL client s i node own r)
    | _ => none
  | .tick d => some { s with now := s.now + d }
  | .invalidateCache node => some { s with cache := Function.update s.cache node none }

/- An empty token in a dispatch response is no token. -/
def dispatchToken (own : String) : Option String := if own = "" then none else some own

def TokensPaired (client : ι → Credentials) (s : State ι) : Prop :=
  ∀ i own r sent, s.pc i = .forwarded own r sent → sent = attach r (dispatchToken own) (client i)

/-- A tunnel candidate comes without endpoint, so its token never gets to the cache;
and of two requests for one public node the first is sent the second's token. -/
theorem token_lost_or_swapped :
    (∃ s, Reach (step (fun _ => true) fun _ : Fin 1 => ⟨none, none⟩) Free start s ∧
      s.pc 0 = .forwarded "a" .tunnel ⟨none, none⟩ ∧ ¬ TokensPaired (fun _ => ⟨none, none⟩) s) ∧
    (∃ s, Reach (step (fun _ => true) fun _ : Fin 2 => ⟨none, none⟩) Free start s ∧
      s.pc 0 = .forwarded "a" (.direct "http://e:80") ⟨some "b", none⟩ ∧
      ¬ TokensPaired (fun _ => ⟨none, none⟩) s) := by
  refine ⟨?_, ?_⟩
  · let acts : List (Act (Fin 1)) := [.getBestNode 0 (some ⟨[⟨"nat", ""⟩], "a"⟩), .loadEndpoint 0,
      .fetchEndpoint 0 (some ⟨[], false⟩), .forward 0]
    have hrun : (exec (step (fun _ => true) fun _ : Fin 1 => ⟨none, none⟩) acts start).map
        (fun s => s.pc 0) = some (.forwarded "a" .tunnel ⟨none, none⟩) := rfl
    obtain ⟨s, hr, hpc⟩ := reach_of_view acts _ hrun
    refine ⟨s, hr, hpc, ?_⟩
    intro hp
    exact absurd (hp 0 _ _ _ hpc) (by decide)
  · let acts : List (Act (Fin 2)) := [.getBestNode 0 (some ⟨[⟨"e", "http://e:80"⟩], "a"⟩),
      .getBestNode 1 (some ⟨[⟨"e", "http://e:80"⟩], "b"⟩), .loadEndpoint 0, .forward 0]
    have hrun : (exec (step (fun _ => true) fun _ : Fin 2 => ⟨none, none⟩) acts start).map
        (fun s => s.pc 0) = some (.forwarded "a" (.direct "http://e:80") ⟨some "b", none⟩) := rfl
    obtain ⟨s, hr, hpc⟩ := reach_of_view acts _ hrun
    refine ⟨s, hr, hpc, ?_⟩
    intro hp
    exact absurd (hp 0 _ _ _ hpc) (by decide)

/-! ### Runs that leave an entry alone while a request needs it -/

/-- Between its `GetBestNode` and its `GetEdgeToken` a request needs the entry. -/
def InFlight (s : State ι) (i : ι) (node own : String) : Prop :=
  s.pc i = .resolved node own ∨ s.pc i = .fetching node own ∨ ∃ r, s.pc i = .routed node own r

/-- What a request needs of the entry: its own token, unexpired. -/
def Undisturbed (s : State ι) : Act ι → Prop
  | .getBestNode i (some resp) => ∀ c rest, resp.candidates = c :: rest →
      c.endpoint ≠ "" ∧ ∀ j own, j ≠ i → InFlight s j c.id own → own = resp.token
  | .fetchEndpoint i _ => ∀ node own, s.pc i = .fetching node own →
      ∀ j own', InFlight s j node own' → own' = ""
  | .tick d => ∀ j node own, InFlight s j node own →
      ∀ e, s.cache node = some e → s.now + d < e.expireAt
  | .invalidateCache node => ∀ j own, ¬ InFlight s j node own
  | _ => True

structure Inv (client : ι → Credentials) (s : State ι) : Prop where
  held : ∀ i node own, InFlight s i node own →
    ∃ e, s.cache node = some e ∧ e.edgeToken = own ∧ s.now < e.expireAt
  paired : TokensPaired client s

omit [DecidableEq ι] in
theorem inv_start (client : ι → Credentials) : Inv client start := by
  refine ⟨?_, ?_⟩
  · rintro i node own (h | h | ⟨r, h⟩) <;> cases h
  · intro i own r sent h
    cases h

variable {s : State ι} {node : String} {i : ι} {client : ι → Credentials} {validURL : String → Bool}
variable {e : NodeInfoCache} {own : String}

omit [DecidableEq ι] in
theorem load_held (he : s.cache node = some e) (hnow : s.now < e.expireAt) :
    load s node = some e := by
  simp [load, he, hnow, Option.filter]

omit [DecidableEq ι] in
theorem getEdgeToken_held (he : s.cache node = some e) (htok : e.edgeToken = own)
    (hnow : s.now < e.expireAt) : getEdgeToken s node = dispatchToken own := by
  rw [getEdgeToken, load_held he hnow, dispatchToken]
  by_cases hown : own = "" <;> simp [Option.filter, htok, hown]

theorem inFlight_update {j : ι} {p : Pc} (h : InFlight (setPc s i p) j node own) (hj : j ≠ i) :
    InFlight s j node own := by
  simpa [InFlight, setPc, hj] using h

/- A request moves on; whatever entry it then needs is there. -/
theorem Inv.move (h : Inv client s) (i : ι) (p : Pc)
    (hheld : ∀ node own, InFlight (setPc s i p) i node own →
      ∃ e, s.cache node = some e ∧ e.edgeToken = own ∧ s.now < e.expireAt)
    (hpaired : ∀ own r sent, p = .forwarded own r sent →
      sent = attach r (dispatchToken own) (client i)) : Inv client (setPc s i p) := by
  refine ⟨?_, ?_⟩
  · intro j node own hj
    by_cases hij : j = i
    · subst hij
      exact hheld node own hj
    · exact h.held j node own (inFlight_update hj hij)
  · intro j own r sent hj
    by_cases hij : j = i
    · subst hij
      exact hpaired own r sent (by simpa [setPc] using hj)
    · exact h.paired j own r sent (by simpa [setPc, hij] using hj)

omit [DecidableEq ι] in
theorem store_inv (h : Inv client s) (node : String) (e : NodeInfoCache) (hnow : s.now < e.expireAt)
    (hown : ∀ j own, InFlight s j node own → own = e.edgeToken) : Inv client (store s node e) := by
  refine ⟨?_, h.paired⟩
  intro j n own hj
  have hj' : InFlight s j n own := hj
  by_cases hn : n = node
  · subst hn
    exact ⟨e, by simp [store], (hown j own hj').symm, hnow⟩
  · obtain ⟨e', he', hrest⟩ := h.held j n own hj'
    exact ⟨e', by simpa [store, hn] using he', hrest⟩

theorem getBestNode_inv {resp : Option DispatchResponse} (h : Inv client s) (hi : s.pc i = .idle)
    (hg : Undisturbed s (.getBestNode i resp)) : Inv client (getBestNode s i resp) := by
  have hfail : Inv client (setPc s i .failed) := by
    refine h.move i .failed ?_ (fun _ _ _ he => by cases he)
    rintro node own (hf | hf | ⟨r, hf⟩) <;> simp [setPc] at hf
  cases resp with
  | none => exact hfail
  | some resp =>
    cases hc : resp.candidates with
    | nil =>
      simp only [getBestNode, hc]
      exact hfail
    | cons c rest =>
      obtain ⟨hend, hothers⟩ := hg c rest hc
      let e : NodeInfoCache := ⟨c.endpoint, resp.token, true, s.now + cacheTTL⟩
      have hlive : s.now < e.expireAt := Nat.lt_add_of_pos_right (by decide)
      have hstore : Inv client (store s c.id e) := by
        apply store_inv h c.id e hlive
        intro j own hj
        by_cases hji : j = i
        · subst hji
          rcases hj with hj | hj | ⟨r, hj⟩ <;> simp [hi] at hj
        · exact hothers j own hji hj
      have hshape : getBestNode s i (some resp) =
          setPc (store s c.id e) i (.resolved c.id resp.token) := by
        simp [getBestNode, hc, hend, e]
      rw [hshape]
      refine hstore.move i _ ?_ (fun _ _ _ he => by cases he)
      rintro node own (hf | hf | ⟨r, hf⟩)
      · obtain ⟨rfl, rfl⟩ : c.id = node ∧ resp.token = own := by simpa [setPc] using hf
        exact ⟨e, by simp [store], rfl, hlive⟩
      · simp [setPc] at hf
      · simp [setPc] at hf

theorem loadEndpoint_inv (h : Inv client s) (hi : s.pc i = .resolved node own) :
    Inv client (loadEndpoint s i node own) := by
  obtain ⟨e, he, htok, hnow⟩ := h.held i node own (Or.inl hi)
  simp only [loadEndpoint, load_held he hnow]
  refine h.move i _ ?_ (fun _ _ _ hf => by cases hf)
  rintro node' own' (hf | hf | ⟨r, hf⟩)
  · simp [setPc] at hf
  · simp [setPc] at hf
  · obtain ⟨rfl, rfl, _⟩ : node = node' ∧ own = own' ∧ _ := by simpa [setPc] using hf
    exact ⟨e, he, htok, hnow⟩

theorem fetchEndpoint_inv {info : Option NodeInfo} (h : Inv client s)
    (hi : s.pc i = .fetching node own) (hg : Undisturbed s (.fetchEndpoint i info)) :
    Inv client (fetchEndpoint s i node own info) := by
  have hempty := hg node own hi
  cases info with
  | none =>
    refine h.move i .failed ?_ (fun _ _ _ he => by cases he)
    rintro node own (hf | hf | ⟨r, hf⟩) <;> simp [setPc] at hf
  | some info =>
    let e : NodeInfoCache := ⟨nodeEndpoint info, "", info.inboundReachable, s.now + cacheTTL⟩
    have hlive : s.now < e.expireAt := Nat.lt_add_of_pos_right (by decide)
    have hstore : Inv client (store s node e) := store_inv h node e hlive hempty
    refine hstore.move i _ ?_ (fun _ _ _ hf => by cases hf)
    rintro node' own' (hf | hf | ⟨r, hf⟩)
    · simp [setPc] at hf
    · simp [setPc] at hf
    · obtain ⟨rfl, rfl, _⟩ : node = node' ∧ own = own' ∧ _ := by simpa [setPc] using hf
      exact ⟨e, by simp [store, e], (hempty i own (Or.inr (Or.inl hi))).symm, hlive⟩

theorem forward_inv {r : Route} (h : Inv client s) (hi : s.pc i = .routed node own r) :
    
    Inv client (forward validURL client s i node own r) := by
  obtain ⟨e, he, htok, hnow⟩ := h.held i node own (Or.inr (Or.inr ⟨r, hi⟩))
  have htoken := getEdgeToken_held he htok hnow
  have hsent : Inv client (setPc s i
      (.forwarded own r (attach r (getEdgeToken s node) (client i)))) := by
    refine h.move i _ ?_ ?_
    · rintro node own (hf | hf | ⟨r, hf⟩) <;> simp [setPc] at hf
    · intro own' r' sent hf
      cases hf
      rw [htoken]
  cases r with
  | direct endpoint =>
    simp only [forward]
    split
    · exact hsent
    · refine h.move i .failed ?_ (fun _ _ _ he => by cases he)
      rintro node own (hf | hf | ⟨r, hf⟩) <;> simp [setPc] at hf
  | tunnel => exact hsent

theorem step_inv (s : State ι) (a : Act ι) (t : State ι) (h : Inv client s) (hg : Undisturbed s a)
    (hs : step validURL client s a = some t) : Inv client t := by
  cases a with
  | getBestNode i resp =>
    simp only [step] at hs
    split at hs
    · cases hs
      exact getBestNode_inv h ‹_› hg
    · cases hs
  | loadEndpoint i =>
    simp only [step] at hs
    split at hs
    · cases hs
      exact loadEndpoint_inv h ‹_›
    · cases hs
  | fetchEndpoint i info =>
    simp only [step] at hs
    split at hs
    · cases hs
      exact fetchEndpoint_inv h ‹_› hg
    · cases hs
  | forward i =>
    simp only [step] at hs
    split at hs
    · cases hs
      exact forward_inv h ‹_›
    · cases hs
  | tick d =>
    cases hs
    refine ⟨?_, h.paired⟩
    intro j node own hj
    obtain ⟨e, he, htok, _⟩ := h.held j node own hj
    exact ⟨e, he, htok, hg j node own hj e he⟩
  | invalidateCache node =>
    cases hs
    refine ⟨?_, h.paired⟩
    intro j n own hj
    have hj' : InFlight s j n own := hj
    by_cases hn : n = node
    · subst hn
      exact absurd hj' (hg j own)
    · obtain ⟨e, he, hrest⟩ := h.held j n own hj'
      exact ⟨e, by simpa [hn] using he, hrest⟩

/-- Every request forwarded in an undisturbed run carries the token of its own
dispatch response. -/
theorem undisturbed_runs_pair_tokens (validURL : String → Bool) (client : ι → Credentials)
    {s : State ι} (h : Reach (step validURL client) Undisturbed start s) :
    TokensPaired client s :=
  (h.invariant (Inv client) (inv_start client) step_inv).paired

theorem undisturbed_request_paired :
    ∃ s, Reach (step (fun _ => true) fun _ : Fin 2 => ⟨some "mine", none⟩) Undisturbed start s ∧
      s.pc 0 = .forwarded "a" (.direct "http://e:80") ⟨some "a", none⟩ ∧
      TokensPaired (fun _ => ⟨some "mine", none⟩) s := by
  let acts : List (Act (Fin 2)) := [.getBestNode 0 (some ⟨[⟨"e", "http://e:80"⟩], "a"⟩),
    .tick 1000, .loadEndpoint 0, .forward 0]
  have hrun : (exec (step (fun _ => true) fun _ : Fin 2 => ⟨some "mine", none⟩) acts start).map
      (fun s => s.pc 0) = some (.forwarded "a" (.direct "http://e:80") ⟨some "a", none⟩) := rfl
  have hg : Guarded (step (fun _ => true) fun _ : Fin 2 => ⟨some "mine", none⟩) Undisturbed acts
      start := by
    simp [acts, Guarded, Undisturbed, InFlight, step, start, getBestNode, setPc, store, cacheTTL]
  obtain ⟨s, hr, hpc⟩ := reach_of_guarded_view hg _ hrun
  exact ⟨s, hr, hpc, undisturbed_runs_pair_tokens _ _ hr⟩

end EdgeDispatch.Gateway.Resolver
