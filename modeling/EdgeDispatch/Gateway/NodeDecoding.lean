import EdgeDispatch.ControlPlane.Scoring
import EdgeDispatch.Gateway.Resolver
import EdgeDispatch.Lib.GoJSON

/-! # A node as the control plane writes it and as the gateway reads it

`handleGetNode` answers with the JSON of a models.Node (api.go:428-438,
models.go:41-94); `GetNodeEndpoint` decodes it into a NodeInfo of its own
(resolver.go:31-42, 101-152). -/

namespace EdgeDispatch.Gateway.NodeDecoding
open Lib.GoJSON Gateway.Resolver

/-! ### The control plane's side -/

structure Endpoint where
  scheme : String
  host : String
  port : Int64

def Endpoint.url (e : Endpoint) : String :=
  ControlPlane.Scoring.Endpoint.url ⟨e.scheme, e.host, e.port.toInt⟩

structure Capabilities where
  inboundReachable : Bool
  cacheDiskGB : Int64
  maxUplinkMbps : Int64
  supportsHTTPS : Bool
  natType : String
  tunnelRequired : Bool
  supportsP2P : Bool
  currentEgressMbps : ℚ
  currentIngressMbps : ℚ
  shieldMode : Bool

structure NodeScores where
  reachableScore : ℚ
  healthScore : ℚ
  riskScore : ℚ

/-- A node with all that is encoded of it; times are given as they are written. -/
structure Node where
  lastSeenAt : String
  createdAt : String
  updatedAt : String
  endpoints : List Endpoint
  capabilities : Capabilities
  scores : NodeScores
  labels : List (String × String)
  disableReason : String
  maintainUntil : Option String
  nodeID : String
  tenantID : String
  projectID : String
  name : String
  region : String
  isp : String
  asn : String
  status : String
  weight : Int64

/- The tag option omitempty, for a string. -/
def nonEmpty (name s : String) : List (String × Json) := if s = "" then [] else [(name, .str s)]

def endpointMembers (e : Endpoint) : List (String × Json) :=
  [("scheme", .str e.scheme), ("host", .str e.host), ("port", .num e.port.toInt)]

def encodeEndpoint (e : Endpoint) : Json := .obj (endpointMembers e)

def encodeCapabilities (c : Capabilities) : Json :=
  .obj ([("inbound_reachable", .bool c.inboundReachable),
      ("cache_disk_gb", .num c.cacheDiskGB.toInt), ("max_uplink_mbps", .num c.maxUplinkMbps.toInt),
      ("supports_https", .bool c.supportsHTTPS)] ++ nonEmpty "nat_type" c.natType ++
    [("tunnel_required", .bool c.tunnelRequired), ("supports_p2p", .bool c.supportsP2P),
      ("current_egress_mbps", .num c.currentEgressMbps),
      ("current_ingress_mbps", .num c.currentIngressMbps), ("shield_mode", .bool c.shieldMode)])

/- The option omitempty leaves a struct in. -/
def encodeScores (s : NodeScores) : Json :=
  .obj [("reachable_score", .num s.reachableScore), ("health_score", .num s.healthScore),
    ("risk_score", .num s.riskScore)]

def encodeLabels : List (String × String) → List (String × Json)
  | [] => []
  | labels => [("labels", .obj (labels.map fun (k, v) => (k, .str v)))]

def encodeUntil : Option String → List (String × Json)
  | none => []
  | some t => [("maintain_until", .str t)]

def nodeMembers (n : Node) : List (String × Json) :=
  [("last_seen_at", .str n.lastSeenAt), ("created_at", .str n.createdAt),
      ("updated_at", .str n.updatedAt), ("endpoints", .arr (n.endpoints.map encodeEndpoint)),
      ("capabilities", encodeCapabilities n.capabilities), ("scores", encodeScores n.scores)] ++
    encodeLabels n.labels ++ nonEmpty "disable_reason" n.disableReason ++
    encodeUntil n.maintainUntil ++ [("node_id", .str n.nodeID)] ++
    nonEmpty "tenant_id" n.tenantID ++ nonEmpty "project_id" n.projectID ++
    [("name", .str n.name), ("region", .str n.region), ("isp", .str n.isp)] ++
    nonEmpty "asn" n.asn ++ [("status", .str n.status), ("weight", .num n.weight.toInt)]

def encodeNode (n : Node) : Json := .obj (nodeMembers n)

/-! ### The gateway's side -/

def decodeEndpoint : Json → Option EndpointInfo
  | .obj members => do
    let scheme ← field "scheme" decodeString "" members
    let host ← field "host" decodeString "" members
    let port ← field "port" decodeInt 0 members
    some ⟨scheme, host, port⟩
  | .null => some ⟨"", "", 0⟩
  | _ => none

/- The NodeID is decoded and not used. -/
def decodeNodeInfo : Json → Option NodeInfo
  | .obj members => do
    let _ ← field "node_id" decodeString "" members
    let endpoints ← field "endpoints" (decodeList decodeEndpoint) [] members
    let inboundReachable ← field "inbound_reachable" decodeBool false members
    some ⟨endpoints, inboundReachable⟩
  | .null => some ⟨[], false⟩
  | _ => none

/- What `GetNodeEndpoint` returns for a node that it has to fetch. -/
def getNodeEndpoint (n : Node) : Option (String × Bool) :=
  (decodeNodeInfo (encodeNode n)).map fun info => (nodeEndpoint info, info.inboundReachable)

/-! ### What the gateway finds in the answer -/

/- The names that a node may be written under, in their order. -/
def nodeNames : List String :=
  ["last_seen_at", "created_at", "updated_at", "endpoints", "capabilities", "scores"] ++
    ["labels"] ++ ["disable_reason"] ++ ["maintain_until"] ++ ["node_id"] ++ ["tenant_id"] ++
    ["project_id"] ++ ["name", "region", "isp"] ++ ["asn"] ++ ["status", "weight"]

theorem names_nonEmpty (name s : String) :
    ((nonEmpty name s).map Prod.fst).Sublist [name] := by
  unfold nonEmpty
  split
  · exact List.nil_sublist _
  · exact List.Sublist.refl _

theorem names_labels (labels : List (String × String)) :
    ((encodeLabels labels).map Prod.fst).Sublist ["labels"] := by
  cases labels with
  | nil => exact List.nil_sublist _
  | cons l labels => exact List.Sublist.refl _

theorem names_until (t : Option String) :
    ((encodeUntil t).map Prod.fst).Sublist ["maintain_until"] := by
  cases t with
  | none => exact List.nil_sublist _
  | some t => exact List.Sublist.refl _

theorem names_sublist (n : Node) : ((nodeMembers n).map Prod.fst).Sublist nodeNames := by
  unfold nodeMembers nodeNames
  simp only [List.map_append]
  refine .append (.append (.append (.append (.append (.append (.append (.append (.append ?_
    (names_labels _)) (names_nonEmpty _ _)) (names_until _)) ?_) (names_nonEmpty _ _))
    (names_nonEmpty _ _)) ?_) (names_nonEmpty _ _)) ?_
  all_goals exact List.Sublist.refl _

theorem members_nodup (n : Node) : ((nodeMembers n).map fun m => fold m.1).Nodup := by
  have hnames : (nodeNames.map fold).Nodup := by decide +kernel
  have hsub := (names_sublist n).map fold
  rw [List.map_map] at hsub
  exact hnames.sublist hsub

/- The flag of the capabilities is one level further down. -/
theorem inboundReachable_missing (n : Node) : member "inbound_reachable" (nodeMembers n) = none := by
  refine member_eq_none fun m hm => ?_
  have hname : m.1 ∈ nodeNames := (names_sublist n).subset (List.mem_map_of_mem hm)
  have hall : ∀ name ∈ nodeNames, fold name ≠ fold "inbound_reachable" := by decide +kernel
  exact hall m.1 hname

/-- An endpoint in the gateway's own type. -/
def toInfo (e : Endpoint) : EndpointInfo := ⟨e.scheme, e.host, e.port.toInt⟩

theorem decodeInt_encode (i : Int64) : decodeInt (.num i.toInt) = some i.toInt := by
  have hlow := i.le_toInt
  have hhigh := i.toInt_lt
  simp only [decodeInt, Rat.den_intCast, Rat.num_intCast, hlow, hhigh, and_self, if_true]

theorem decodeEndpoint_encodeEndpoint (e : Endpoint) :
    decodeEndpoint (encodeEndpoint e) = some (toInfo e) := by
  have hnodup : ((endpointMembers e).map fun m => fold m.1).Nodup := by
    show (["scheme", "host", "port"].map fold).Nodup
    decide
  have hscheme : member "scheme" (endpointMembers e) = some (.str e.scheme) :=
    member_eq_some hnodup (by simp [endpointMembers])
  have hhost : member "host" (endpointMembers e) = some (.str e.host) :=
    member_eq_some hnodup (by simp [endpointMembers])
  have hport : member "port" (endpointMembers e) = some (.num e.port.toInt) :=
    member_eq_some hnodup (by simp [endpointMembers])
  simp only [encodeEndpoint, decodeEndpoint, field, hscheme, hhost, hport, decodeInt_encode]
  rfl

theorem decodeList_map {α β : Type} {decode : Json → Option β} {encode : α → Json} {f : α → β}
    (h : ∀ a, decode (encode a) = some (f a)) (l : List α) :
    decodeList decode (.arr (l.map encode)) = some (l.map f) := by
  show (l.map encode).mapM decode = _
  induction l with
  | nil => rfl
  | cons a l ih => rw [List.map_cons, List.mapM_cons, h, ih]; rfl

theorem decodeNodeInfo_encodeNode (n : Node) :
    decodeNodeInfo (encodeNode n) = some ⟨n.endpoints.map toInfo, false⟩ := by
  have hid : member "node_id" (nodeMembers n) = some (.str n.nodeID) :=
    member_eq_some (members_nodup n) (by simp [nodeMembers])
  have hendpoints :
      member "endpoints" (nodeMembers n) = some (.arr (n.endpoints.map encodeEndpoint)) :=
    member_eq_some (members_nodup n) (by simp [nodeMembers])
  simp only [encodeNode, decodeNodeInfo, field, hid, hendpoints, inboundReachable_missing,
    decodeList_map decodeEndpoint_encodeEndpoint]
  rfl

/-- The answer decodes, and without the flag. -/
theorem getNodeEndpoint_eq (n : Node) : getNodeEndpoint n = some ("", false) := by
  rw [getNodeEndpoint, decodeNodeInfo_encodeNode]
  rfl

/-! ### The two ways of writing an endpoint -/

/- How the control plane writes an endpoint, by its three choices. -/
theorem url_length (e : Endpoint) :
    e.url.length = (if e.scheme ≠ "" then e.scheme.length + 3 else 0) + e.host.length +
      if 0 < e.port.toInt then
        (if ':' ∈ e.host.toList then 3 else 1) + (toString e.port.toInt).length else 0 := by
  have hsep : "://".length = 3 := rfl
  have hopen : "[".length = 1 := rfl
  have hclose : "]:".length = 2 := rfl
  have hcolon : ":".length = 1 := rfl
  simp only [Endpoint.url, ControlPlane.Scoring.Endpoint.url, ControlPlane.Scoring.joinHostPort,
    List.contains_iff_mem]
  split_ifs
  all_goals
    try simp only [String.length_append, hsep, hopen, hclose, hcolon]
    omega

theorem url_eq_empty_iff (e : Endpoint) :
    e.url = "" ↔ e.scheme = "" ∧ e.host = "" ∧ e.port.toInt ≤ 0 := by
  rw [← String.length_eq_zero_iff, ← String.length_eq_zero_iff (s := e.host), url_length]
  split_ifs <;> simp_all

theorem node_decoded_iff (n : Node) (h : n.endpoints ≠ []) :
    getNodeEndpoint n = some ((n.endpoints.head h).url, n.capabilities.inboundReachable) ↔
      n.capabilities.inboundReachable = false ∧ (n.endpoints.head h).scheme = "" ∧
        (n.endpoints.head h).host = "" ∧ (n.endpoints.head h).port.toInt ≤ 0 := by
  rw [getNodeEndpoint_eq, Option.some.injEq, Prod.mk.injEq]
  constructor
  · rintro ⟨hurl, hflag⟩
    exact ⟨hflag.symm, (url_eq_empty_iff _).mp hurl.symm⟩
  · rintro ⟨hflag, hempty⟩
    exact ⟨((url_eq_empty_iff _).mpr hempty).symm, hflag.symm⟩

/- A node with one endpoint, and zero values otherwise. -/
def oneEndpoint (e : Endpoint) (inboundReachable : Bool) : Node where
  lastSeenAt := "0001-01-01T00:00:00Z"
  createdAt := "0001-01-01T00:00:00Z"
  updatedAt := "0001-01-01T00:00:00Z"
  endpoints := [e]
  capabilities := ⟨inboundReachable, 0, 0, false, "", false, false, 0, 0, false⟩
  scores := ⟨0, 0, 0⟩
  labels := []
  disableReason := ""
  maintainUntil := none
  nodeID := "node-1"
  tenantID := ""
  projectID := ""
  name := ""
  region := ""
  isp := ""
  asn := ""
  status := "ACTIVE"
  weight := 0

theorem node_decoded_unreachable :
    getNodeEndpoint (oneEndpoint ⟨"", "", 0⟩ false) = some ("", false) :=
  (node_decoded_iff (oneEndpoint ⟨"", "", 0⟩ false) (List.cons_ne_nil _ _)).mpr
    ⟨rfl, rfl, rfl, by decide⟩

/- A node that can be reached directly is taken for one behind the tunnel. -/
theorem reachable_node_hidden :
    (⟨"https", "198.51.100.7", 443⟩ : Endpoint).url = "https://198.51.100.7:443" ∧
      getNodeEndpoint (oneEndpoint ⟨"https", "198.51.100.7", 443⟩ true) = some ("", false) := by
  refine ⟨by decide +kernel, getNodeEndpoint_eq _⟩

end EdgeDispatch.Gateway.NodeDecoding
