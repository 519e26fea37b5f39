import EdgeDispatch.Lib.GoURL
import EdgeDispatch.ClientAddress
import EdgeDispatch.ControlPlane.ResolveRuns

/-! # The two ways in: dispatch requests and object requests

`handleDispatch` answers with candidates, `handleObjectIngress` with a redirect to the
first of them (internal/controlplane/api.go:456-533, scheduler.go:379-400, policy.go). -/

namespace EdgeDispatch.ControlPlane.Ingress
open Lib Lib.ByteString Lib.GoStrings
open ClientAddress (IPCache cachedClientIP)
open ControlPlane.Scoring
open ControlPlane.ResolveRuns (Call)

/-- The block lists; nothing in the two handlers asks for a node's. -/
structure PolicyData where
  blockedIPs : Bytes → Bool
  blockedNodes : String → Bool

structure ApiError where
  status : ℕ
  code : String
  message : String
  deriving DecidableEq

structure DispatchResponse where
  candidates : List Candidate
  token : Bytes
  deriving DecidableEq

/-- The fields of models.DispatchRequest that are read. -/
structure DispatchBody where
  clientIP : Bytes
  region : String
  isp : String
  key : Bytes

def sanitizeResourceKey (key : Bytes) : Bytes :=
  let key := trimSpace key
  if key = [] ∨ [0, 13, 10, 92].any key.contains then []
  else
    let key := (GoURL.pathUnescape key).getD key
    let parts := (split slash (trimPrefix key [slash])).map trimSpace
    if parts.any fun p => p = [] ∨ p = lit "." ∨ p = lit ".." then []
    else [slash].intercalate parts

def escapeResourcePath (key : Bytes) : Bytes :=
  [slash].intercalate ((split slash key).map GoURL.pathEscape)

/- `strings.TrimRight(endpoint, "/")` -/
def trimSlashes (endpoint : String) : String :=
  String.ofList (endpoint.toList.reverse.dropWhile (· = '/')).reverse

def redirectURL (top : Candidate) (key token : Bytes) : String :=
  trimSlashes top.endpoint ++ "/obj/" ++ text (escapeResourcePath key) ++
    if token ≠ [] then "?token=" ++ text (GoURL.queryEscape token) else ""

/-- What Resolve returns for these nodes; the fallback has no token. -/
def resolve (sch : Scheduler) (token : Bytes) (nodes : List Node) (req : DispatchRequest) :
    DispatchResponse :=
  let call : Unit → Call := fun _ => ⟨nodes, req⟩
  { candidates := ResolveRuns.resolve sch call ()
    token := if ResolveRuns.narrowed sch call () = [] then [] else token }

/-- What the handlers work with. `nodes` is what GetActiveNodes returns, none on an error;
`token` is the token that Resolve signs for a key and a client address. -/
structure Api where
  policy : PolicyData
  scheduler : Scheduler
  nodes : Option (List Node)
  token : Bytes → Bytes → Bytes

/- The address in the body, or that of the connection. -/
def dispatchIP (cache : IPCache) (r : ClientAddress.Request) (body : DispatchBody) :
    Bytes × IPCache :=
  if trimSpace body.clientIP = [] then cachedClientIP cache r else (trimSpace body.clientIP, cache)

/-- `decoded` is what decodeJSON makes of the body, or the error it has answered with. -/
def handleDispatch (api : Api) (cache : IPCache) (r : ClientAddress.Request)
    (decoded : Except ApiError DispatchBody) : Except ApiError DispatchResponse × IPCache :=
  match decoded with
  | .error e => (.error e, cache)
  | .ok body =>
    let (ip, cache) := dispatchIP cache r body
    let key := trimSpace body.key
    if key = [] then (.error ⟨400, "BAD_REQUEST", "resource key is required"⟩, cache)
    else if api.policy.blockedIPs ip then (.error ⟨403, "BLOCKED", "client IP is blocked"⟩, cache)
    else match api.nodes with
      | none => (.error ⟨500, "DISPATCH_FAILED", "internal server error"⟩, cache)
      | some nodes => (.ok (resolve api.scheduler (api.token key ip) nodes
          ⟨body.region, body.isp, text key⟩), cache)

/-- The URL that is redirected to. -/
def handleObjectIngress (api : Api) (cache : IPCache) (r : ClientAddress.Request) (path : Bytes) :
    Except ApiError String × IPCache :=
  let key := sanitizeResourceKey path
  if key = [] then (.error ⟨400, "BAD_REQUEST", "invalid resource key"⟩, cache)
  else
    let (ip, cache) := cachedClientIP cache r
    match api.nodes with
    | none => (.error ⟨503, "NO_EDGE", "no edge nodes available"⟩, cache)
    | some nodes =>
      let resp := resolve api.scheduler (api.token key ip) nodes ⟨"", "", text key⟩
      match resp.candidates with
      | [] => (.error ⟨503, "NO_EDGE", "no edge nodes available"⟩, cache)
      | top :: _ => (.ok (redirectURL top key resp.token), cache)

/-! ### Which nodes are chosen -/

/- Both filters. -/
def passes (sch : Scheduler) (key : String) (n : Node) : Bool :=
  eligible sch n && (!sch.cfg.smallBandwidthEnabled || keepSmall sch key n)

def dispatchable (sch : Scheduler) (key : String) (nodes : List Node) : List Node :=
  nodes.filter (passes sch key)

/- How many of them score higher than `n`. -/
def higher (sch : Scheduler) (req : DispatchRequest) (nodes : List Node) (n : Node) : ℕ :=
  ((dispatchable sch req.key nodes).filter fun m =>
    (scored sch req n).score < (scored sch req m).score).length

theorem narrowed_eq (sch : Scheduler) (nodes : List Node) (req : DispatchRequest) :
    ResolveRuns.narrowed sch (fun _ : Unit => ⟨nodes, req⟩) () =
      dispatchable sch req.key nodes := by
  unfold ResolveRuns.narrowed ResolveRuns.kept
  show _ = nodes.filter fun n =>
    eligible sch n && (!sch.cfg.smallBandwidthEnabled || keepSmall sch req.key n)
  cases sch.cfg.smallBandwidthEnabled with
  | true => simp [List.filter_filter, Bool.and_comm]
  | false => simp

/- The heap that Resolve fills. -/
def chosen (sch : Scheduler) (nodes : List Node) (req : DispatchRequest) : List ScoredNode :=
  (dispatchable sch req.key nodes).foldl
    (fun h n => heapPush sch.cfg.maxCandidates h (scored sch req n)) []

theorem resolve_candidates (sch : Scheduler) (token : Bytes) (nodes : List Node)
    (req : DispatchRequest) :
    (resolve sch token nodes req).candidates =
      if dispatchable sch req.key nodes = [] then noOriginFallback sch
      else candidates (chosen sch nodes req) := by
  unfold resolve ResolveRuns.resolve
  simp only [narrowed_eq]
  by_cases hd : dispatchable sch req.key nodes = []
  · simp [hd]
  · have hkept : ResolveRuns.kept sch (fun _ : Unit => (⟨nodes, req⟩ : Call)) () ≠ [] := by
      intro hk
      apply hd
      rw [← narrowed_eq]
      simp [ResolveRuns.narrowed, hk]
    rw [if_neg hkept, if_neg hd, if_neg hd]
    rfl

variable {sch : Scheduler} {nodes : List Node} {req : DispatchRequest}
variable {key : String} {l : List Node} {h : List ScoredNode}

theorem dispatchable_perm (h : l.Perm nodes) :
    (dispatchable sch key l).Perm (dispatchable sch key nodes) :=
  h.filter _

theorem higher_perm (h : l.Perm nodes) (n : Node) : higher sch req l n = higher sch req nodes n :=
  ((dispatchable_perm h).filter _).length_eq

/-- A node that is chosen is outscored by fewer than `MaxCandidates` others. -/
theorem higher_of_chosen {sn : ScoredNode} (h : sn ∈ chosen sch nodes req) :
    ∃ n ∈ dispatchable sch req.key nodes, scored sch req n = sn ∧
      (higher sch req nodes n : ℤ) < sch.cfg.maxCandidates := by
  obtain ⟨n, hn, rfl⟩ := mem_foldl_heapPush h
  refine ⟨n, hn, rfl, ?_⟩
  have hmax : 0 < sch.cfg.maxCandidates := by
    by_contra hneg
    unfold chosen at h
    rw [foldl_heapPush_nil (not_lt.mp hneg)] at h
    cases h
  obtain ⟨rest, hb⟩ := best_foldl hmax (scored sch req) (dispatchable sch req.key nodes)
    (best_nil hmax.le)
  have hfew := hb.fewer_higher h
  rw [List.append_nil, List.filter_map, List.length_map] at hfew
  exact hfew

/-- And such a node is chosen in some order of the table's rows: first of all, then the
nodes that score higher. -/
theorem chosen_of_higher {n : Node} (hn : n ∈ dispatchable sch req.key nodes)
    (hfew : (higher sch req nodes n : ℤ) < sch.cfg.maxCandidates) :
    ∃ l, l.Perm nodes ∧ scored sch req n ∈ chosen sch l req := by
  have hmem : n ∈ nodes := List.mem_of_mem_filter hn
  let above (m : Node) : Bool := decide ((scored sch req n).score < (scored sch req m).score)
  let rest := nodes.erase n
  let l := (n :: rest.filter above) ++ rest.filter fun m => !above m
  have hperm : l.Perm nodes := by
    have hsplit : (rest.filter above ++ rest.filter fun m => !above m).Perm rest :=
      List.filter_append_perm above rest
    exact (hsplit.cons n).trans (List.perm_cons_erase hmem).symm
  refine ⟨l, hperm, ?_⟩
  have hl : dispatchable sch req.key l =
      dispatchable sch req.key (n :: rest.filter above) ++
        dispatchable sch req.key (rest.filter fun m => !above m) := List.filter_append _ _
  have hpass : passes sch req.key n = true := (List.mem_filter.mp hn).2
  have hfirst : dispatchable sch req.key (n :: rest.filter above) =
      n :: dispatchable sch req.key (rest.filter above) := List.filter_cons_of_pos hpass
  -- the first part of the order fits into the heap
  have hcount : higher sch req nodes n = (dispatchable sch req.key (rest.filter above)).length := by
    have hself : above n = false := by simp [above]
    rw [higher_perm (List.perm_cons_erase hmem) n]
    unfold higher dispatchable
    rw [List.filter_cons_of_pos hpass]
    show (List.filter above _).length = _
    rw [List.filter_cons_of_neg (by simp [hself]), List.filter_comm]
  have hmax : 0 < sch.cfg.maxCandidates := lt_of_le_of_lt (Int.natCast_nonneg _) hfew
  unfold chosen
  rw [hl, List.foldl_append]
  apply mem_foldl_heapPush_of_le
  · apply mem_foldl_heapPush_of_length hmax
    · rw [hfirst, List.length_cons, ← hcount]
      push_cast
      omega
    · rw [hfirst]
      exact List.mem_cons_self
  · intro m hm
    have habove := (List.mem_filter.mp (List.mem_of_mem_filter hm)).2
    simpa [above] using habove

/-! ### Block lists -/

/-- No node that the policy blocks is among the candidates. The fallback is no node. -/
def Clear (policy : PolicyData) (sch : Scheduler) (cs : List Candidate) : Prop :=
  cs = noOriginFallback sch ∨ ∀ c ∈ cs, policy.blockedNodes c.id = false

/-- Every node that could be chosen although it is blocked is outscored by enough others. -/
def Outscored (policy : PolicyData) (sch : Scheduler) (nodes : List Node)
    (req : DispatchRequest) : Prop :=
  ∀ n ∈ dispatchable sch req.key nodes, policy.blockedNodes n.nodeID = true →
    sch.cfg.maxCandidates ≤ higher sch req nodes n

/-- Resolve has nothing to offer. -/
def NoEdge (sch : Scheduler) (nodes : List Node) (key : String) : Prop :=
  if dispatchable sch key nodes = [] then sch.cfg.degradeToOrigin = false
  else sch.cfg.maxCandidates ≤ 0

theorem proxyMode_ne_empty {c : Candidate} (hc : c ∈ candidates h) : c.proxyMode ≠ "" := by
  obtain ⟨sn, _, rfl⟩ := List.mem_map.mp hc
  simp only [candidateOf]
  split <;> decide

/- A node's candidate is never taken for the fallback. -/
theorem clear_candidates_iff (policy : PolicyData) (sch : Scheduler) (h : List ScoredNode) :
    Clear policy sch (candidates h) ↔ ∀ sn ∈ h, policy.blockedNodes sn.node.nodeID = false := by
  have hids := candidates_ids h
  constructor
  · rintro hclear sn hsn
    have hmem : sn.node.nodeID ∈ (candidates h).map Candidate.id :=
      hids.mem_iff.mpr (List.mem_map_of_mem hsn)
    obtain ⟨c, hc, hcid⟩ := List.mem_map.mp hmem
    rcases hclear with hfall | hall
    · exfalso
      have hmode := proxyMode_ne_empty hc
      rw [hfall] at hc
      unfold noOriginFallback at hc
      split at hc
      · cases hc
      · rw [List.mem_singleton.mp hc] at hmode
        exact hmode rfl
    · rw [← hcid]
      exact hall c hc
  · intro hall
    right
    intro c hc
    obtain ⟨sn, hsn, hcid⟩ := List.mem_map.mp (hids.mem_iff.mp (List.mem_map_of_mem hc))
    rw [← hcid]
    exact hall sn hsn

theorem clear_resolve_iff (policy : PolicyData) (sch : Scheduler) (token : Bytes)
    (l : List Node) (req : DispatchRequest) :
    Clear policy sch (resolve sch token l req).candidates ↔
      ∀ sn ∈ chosen sch l req, policy.blockedNodes sn.node.nodeID = false := by
  rw [resolve_candidates]
  split
  · rename_i hd
    refine iff_of_true (Or.inl rfl) ?_
    simp [chosen, hd]
  · exact clear_candidates_iff policy sch _

/-- In every order of the rows the candidates are clear, if and only if the blocked nodes
are outscored. -/
theorem clear_all_iff (policy : PolicyData) (sch : Scheduler) (token : Bytes)
    (nodes : List Node) (req : DispatchRequest) :
    (∀ l, l.Perm nodes → Clear policy sch (resolve sch token l req).candidates) ↔
      Outscored policy sch nodes req := by
  simp only [clear_resolve_iff]
  constructor
  · intro hall n hn hblocked
    by_contra hfew
    obtain ⟨l, hl, hchosen⟩ := chosen_of_higher hn (not_le.mp hfew)
    have hclear : policy.blockedNodes n.nodeID = false := hall l hl _ hchosen
    rw [hblocked] at hclear
    cases hclear
  · intro hout l hl sn hsn
    obtain ⟨n, hn, rfl, hfew⟩ := higher_of_chosen hsn
    by_contra hblocked
    rw [higher_perm hl] at hfew
    have hle := hout n ((dispatchable_perm hl).mem_iff.mp hn) (Bool.not_eq_false _ ▸ hblocked)
    exact absurd hfew (not_lt.mpr hle)

theorem candidates_eq_nil_iff : candidates h = [] ↔ h = [] := by
  have hlen := (candidates_ids h).length_eq
  rw [List.length_map, List.length_map] at hlen
  rw [← List.length_eq_zero_iff, hlen, List.length_eq_zero_iff]

theorem chosen_eq_nil_iff (hd : dispatchable sch req.key nodes ≠ []) :
    chosen sch nodes req = [] ↔ sch.cfg.maxCandidates ≤ 0 := by
  constructor
  · intro hnil
    by_contra hpos
    have hmax := not_le.mp hpos
    obtain ⟨rest, hb⟩ := best_foldl hmax (scored sch req) (dispatchable sch req.key nodes)
      (best_nil hmax.le)
    change Best _ _ (chosen sch nodes req) rest at hb
    rw [hnil] at hb
    have hrest : rest ≠ [] := by
      rintro rfl
      have hlen := hb.perm.length_eq
      simp only [List.append_nil, List.length_nil, List.length_map] at hlen
      exact hd (List.length_eq_zero_iff.mp hlen.symm)
    exact absurd (hb.full hrest) (ne_of_lt hmax)
  · intro hneg
    exact foldl_heapPush_nil hneg _ _

theorem resolve_eq_nil_iff (sch : Scheduler) (token : Bytes) (nodes : List Node)
    (req : DispatchRequest) :
    (resolve sch token nodes req).candidates = [] ↔ NoEdge sch nodes req.key := by
  rw [resolve_candidates]
  unfold NoEdge
  split
  · unfold noOriginFallback
    split
    · rename_i hno
      simp [hno]
    · rename_i hyes
      simp [hyes]
  · rename_i hd
    rw [candidates_eq_nil_iff, chosen_eq_nil_iff hd]

theorem noEdge_perm (h : l.Perm nodes) : NoEdge sch l key ↔ NoEdge sch nodes key := by
  have hnil : dispatchable sch key l = [] ↔ dispatchable sch key nodes = [] :=
    ⟨fun he => (he ▸ (dispatchable_perm h)).nil_eq.symm, fun he => (he ▸ (dispatchable_perm h)).eq_nil⟩
  unfold NoEdge
  simp only [hnil]

section
variable (policy : PolicyData) (sch : Scheduler) (token : Bytes → Bytes → Bytes)
variable (cache : IPCache) (r : ClientAddress.Request)

/-- A client that gets candidates is not blocked, nor is a node among them. -/
def DispatchEnforced (decoded : Except ApiError DispatchBody) (nodes : List Node) : Prop :=
  ∀ resp, (handleDispatch ⟨policy, sch, some nodes, token⟩ cache r decoded).1 = .ok resp →
    (∀ body, decoded = .ok body → resp.candidates ≠ [] →
      policy.blockedIPs (dispatchIP cache r body).1 = false) ∧ Clear policy sch resp.candidates

/- The request that an object request makes to Resolve. -/
def objectRequest (path : Bytes) : DispatchRequest := ⟨"", "", text (sanitizeResourceKey path)⟩

/-- A client that is redirected is not blocked, nor is a node among the candidates. -/
def IngressEnforced (path : Bytes) (nodes : List Node) : Prop :=
  ∀ url, (handleObjectIngress ⟨policy, sch, some nodes, token⟩ cache r path).1 = .ok url →
    policy.blockedIPs (cachedClientIP cache r).1 = false ∧
      Clear policy sch (resolve sch (token (sanitizeResourceKey path) (cachedClientIP cache r).1)
        nodes (objectRequest path)).candidates

theorem dispatch_enforced_iff (decoded : Except ApiError DispatchBody) (nodes : List Node) :
    (∀ l, l.Perm nodes → DispatchEnforced policy sch token cache r decoded l) ↔
      ∀ body, decoded = .ok body → trimSpace body.key ≠ [] →
        policy.blockedIPs (dispatchIP cache r body).1 = false →
        Outscored policy sch nodes ⟨body.region, body.isp, text (trimSpace body.key)⟩ := by
  cases decoded with
  | error e => simp [DispatchEnforced, handleDispatch]
  | ok body =>
    by_cases hkey : trimSpace body.key = []
    · simp [DispatchEnforced, handleDispatch, hkey]
    · cases hb : policy.blockedIPs (dispatchIP cache r body).1 with
      | true => simp [DispatchEnforced, handleDispatch, hkey, hb]
      | false =>
        simp [DispatchEnforced, handleDispatch, hkey, hb, clear_all_iff]

theorem ingress_redirects_iff (path : Bytes) (nodes : List Node) :
    (∃ url, (handleObjectIngress ⟨policy, sch, some nodes, token⟩ cache r path).1 = .ok url) ↔
      sanitizeResourceKey path ≠ [] ∧ ¬ NoEdge sch nodes (objectRequest path).key := by
  rw [← resolve_eq_nil_iff sch (token (sanitizeResourceKey path) (cachedClientIP cache r).1)]
  unfold handleObjectIngress objectRequest
  by_cases hkey : sanitizeResourceKey path = []
  · simp [hkey]
  · simp only [hkey, if_false]
    split
    · rename_i hnil
      simp [hnil]
    · rename_i top rest hcons
      simp [hcons, hkey]

theorem ingress_enforced_iff (path : Bytes) (nodes : List Node) :
    (∀ l, l.Perm nodes → IngressEnforced policy sch token cache r path l) ↔
      (sanitizeResourceKey path ≠ [] →
        (policy.blockedIPs (cachedClientIP cache r).1 = true →
          NoEdge sch nodes (objectRequest path).key) ∧
        Outscored policy sch nodes (objectRequest path)) := by
  have hredirect := ingress_redirects_iff policy sch token cache r path
  have hclear := clear_all_iff policy sch
    (token (sanitizeResourceKey path) (cachedClientIP cache r).1) nodes (objectRequest path)
  constructor
  · intro hall hkey
    have hgiven : ∀ l, l.Perm nodes → ¬ NoEdge sch l (objectRequest path).key →
        policy.blockedIPs (cachedClientIP cache r).1 = false ∧
          Clear policy sch (resolve sch (token (sanitizeResourceKey path)
            (cachedClientIP cache r).1) l (objectRequest path)).candidates := by
      intro l hl hedge
      obtain ⟨url, hurl⟩ := (hredirect l).mpr ⟨hkey, hedge⟩
      exact hall l hl url hurl
    refine ⟨fun hblocked => ?_, hclear.mp fun l hl => ?_⟩
    · by_contra hedge
      have hfree := (hgiven nodes (.refl _) hedge).1
      rw [hblocked] at hfree
      cases hfree
    · by_cases hedge : NoEdge sch l (objectRequest path).key
      · rw [(resolve_eq_nil_iff sch _ l (objectRequest path)).mpr hedge]
        exact Or.inr fun c hc => nomatch hc
      · exact (hgiven l hl hedge).2
  · intro hcond l hl url hurl
    obtain ⟨hkey, hedge⟩ := (hredirect l).mp ⟨url, hurl⟩
    obtain ⟨hnoedge, hout⟩ := hcond hkey
    refine ⟨?_, hclear.mpr hout l hl⟩
    by_contra hblocked
    exact hedge ((noEdge_perm hl).mpr (hnoedge (Bool.not_eq_false _ ▸ hblocked)))

/-- Both ways in, for every policy, set of nodes (in any order) and request. -/
theorem block_lists_enforced_iff (decoded : Except ApiError DispatchBody) (path : Bytes)
    (nodes : List Node) :
    (∀ l, l.Perm nodes → DispatchEnforced policy sch token cache r decoded l ∧
      IngressEnforced policy sch token cache r path l) ↔
      (∀ body, decoded = .ok body → trimSpace body.key ≠ [] →
        policy.blockedIPs (dispatchIP cache r body).1 = false →
        Outscored policy sch nodes ⟨body.region, body.isp, text (trimSpace body.key)⟩) ∧
      (sanitizeResourceKey path ≠ [] →
        (policy.blockedIPs (cachedClientIP cache r).1 = true →
          NoEdge sch nodes (objectRequest path).key) ∧
        Outscored policy sch nodes (objectRequest path)) := by
  rw [← dispatch_enforced_iff policy sch token cache r decoded nodes,
    ← ingress_enforced_iff policy sch token cache r path nodes]
  exact ⟨fun h => ⟨fun l hl => (h l hl).1, fun l hl => (h l hl).2⟩,
    fun h l hl => ⟨h.1 l hl, h.2 l hl⟩⟩

end

/-! ### A blocked client and a blocked node -/

def blockedPeer : ClientAddress.Request := ⟨[], [], lit "10.0.0.9:5000"⟩

def blocking : PolicyData := ⟨fun ip => ip = lit "10.0.0.9", fun id => id = "a"⟩

def oneEdge : Api :=
  ⟨blocking, ResolveRuns.plainScheduler, some [ResolveRuns.publicNode "a"], fun _ _ => lit "t"⟩

/- The blocked client is redirected to the blocked node; a client that is not blocked gets
   it as a candidate. -/
theorem blocked_client_redirected_to_blocked_node :
    (handleObjectIngress oneEdge (fun _ => none) blockedPeer (lit "k")).1 =
        .ok "http://a:80/obj/k?token=t" ∧
      ¬ IngressEnforced blocking ResolveRuns.plainScheduler (fun _ _ => lit "t") (fun _ => none)
        blockedPeer (lit "k") [ResolveRuns.publicNode "a"] ∧
      ¬ DispatchEnforced blocking ResolveRuns.plainScheduler (fun _ _ => lit "t") (fun _ => none)
        blockedPeer (.ok ⟨lit "10.0.0.1", "", "", lit "k"⟩) [ResolveRuns.publicNode "a"] := by
  have hredirect : (handleObjectIngress oneEdge (fun _ => none) blockedPeer (lit "k")).1 =
      .ok "http://a:80/obj/k?token=t" := by
    decide +kernel
  have hcandidate : (handleDispatch oneEdge (fun _ => none) blockedPeer
      (.ok ⟨lit "10.0.0.1", "", "", lit "k"⟩)).1 =
      .ok ⟨[⟨"a", "http://a:80", 50, "", "", "direct"⟩], lit "t"⟩ := by
    decide +kernel
  refine ⟨hredirect, fun hing => ?_, fun hdisp => ?_⟩
  · have hfree := (hing _ hredirect).1
    have hblocked : blocking.blockedIPs (cachedClientIP (fun _ => none) blockedPeer).1 = true := by
      decide +kernel
    rw [hblocked] at hfree
    cases hfree
  · rcases (hdisp _ hcandidate).2 with hfall | hall
    · exact absurd hfall (by decide)
    · exact absurd (hall _ List.mem_cons_self) (by decide)

end EdgeDispatch.ControlPlane.Ingress
