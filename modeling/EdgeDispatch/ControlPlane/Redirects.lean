import EdgeDispatch.ControlPlane.TopCandidates
import Mathlib.Data.List.FinRange
import Mathlib.Data.List.TakeWhile

/-! # Where an object request is redirected to (internal/controlplane/api.go:494-525)

`handleObjectIngress` puts the endpoint of the first candidate before `/obj/` and the key.
The rows of the table come in any order, and among nodes of equal score the order decides
which one is first. -/

namespace EdgeDispatch.ControlPlane.Redirects
open Lib Lib.ByteString Lib.GoStrings
open ClientAddress (IPCache cachedClientIP)
open ControlPlane.Scoring ControlPlane.Ingress
open ControlPlane.TopCandidates

/-! ### The order of equal scores -/

section
variable {α γ : Type} (less : α → α → Bool) (f : γ → α) (max : ℤ)

/- All of `xs` pushed, and the heap popped the other way around. -/
def firstFirst (xs : List α) : List α :=
  (BinaryHeap.drain less (xs.foldl (boundedPush less max) []).length
    (xs.foldl (boundedPush less max) [])).reverse

theorem boundedPush_map (h : List γ) (x : γ) :
    boundedPush less max (h.map f) (f x) =
      (boundedPush (BinaryHeap.comapLess less f) max h x).map f := by
  unfold boundedPush
  rw [List.length_map]
  split
  · exact BinaryHeap.push_map less f h x
  · split
    · cases h with
      | nil => rfl
      | cons top tail =>
        have hset : ((top :: tail).map f).set 0 (f x) = ((top :: tail).set 0 x).map f := rfl
        simp only [List.map_cons] at hset ⊢
        rw [hset, BinaryHeap.fix_map]
        unfold BinaryHeap.comapLess
        split <;> rfl
    · rfl

theorem foldl_boundedPush_map (xs h : List γ) :
    (xs.map f).foldl (boundedPush less max) (h.map f) =
      (xs.foldl (boundedPush (BinaryHeap.comapLess less f) max) h).map f := by
  induction xs generalizing h with
  | nil => rfl
  | cons x xs ih => rw [List.map_cons, List.foldl_cons, boundedPush_map, ih, List.foldl_cons]

theorem firstFirst_map (xs : List γ) :
    firstFirst less max (xs.map f) =
      (firstFirst (BinaryHeap.comapLess less f) max xs).map f := by
  have hheap := foldl_boundedPush_map less f max xs []
  rw [List.map_nil] at hheap
  unfold firstFirst
  rw [hheap, List.length_map, BinaryHeap.drain_map, List.map_reverse]

end

section
variable (sch : Scheduler) (req : DispatchRequest)

theorem ranking_chosen (nodes : List Node) :
    ranking (chosen sch nodes req) = firstFirst lower sch.cfg.maxCandidates
      ((dispatchable sch req.key nodes).map (scored sch req)) := by
  unfold ranking chosen firstFirst
  rw [List.foldl_map]
  rfl

variable {nodes : List Node}

/- The same with the nodes at places: the heap compares places by the scores there. -/
theorem ranking_places {ι : Type} {places : List ι} {node : ι → Node}
    (h : dispatchable sch req.key nodes = places.map node) :
    ranking (chosen sch nodes req) =
      (firstFirst (BinaryHeap.comapLess lower fun k => scored sch req (node k))
        sch.cfg.maxCandidates places).map fun k => scored sch req (node k) := by
  rw [ranking_chosen, h, List.map_map]
  exact firstFirst_map lower (fun k => scored sch req (node k)) sch.cfg.maxCandidates places

/- No node that can be dispatched to scores higher. -/
def Maximal (nodes : List Node) (n : Node) : Prop :=
  n ∈ dispatchable sch req.key nodes ∧
    ∀ m ∈ dispatchable sch req.key nodes, score sch req m ≤ score sch req n

theorem maximal_perm {l : List Node} (h : l.Perm nodes) (n : Node) :
    Maximal sch req l n ↔ Maximal sch req nodes n := by
  simp only [Maximal, (dispatchable_perm h).mem_iff]

/-- The first candidate is a node of the highest score. -/
theorem exists_first (hmax : 0 < sch.cfg.maxCandidates) (hne : dispatchable sch req.key nodes ≠ []) :
    
    ∃ n rest, Maximal sch req nodes n ∧ ranking (chosen sch nodes req) = scored sch req n :: rest := by
  obtain ⟨best, others, hr, hrank⟩ := exists_ranked sch req hmax nodes
  have hpos : 0 < best.length := by
    have hlen := hr.length
    have hds := List.length_pos_iff.mpr hne
    omega
  obtain ⟨n, best, rfl⟩ := List.exists_cons_of_ne_nil (List.length_pos_iff.mp hpos)
  refine ⟨n, best.map (scored sch req), ⟨?_, fun m hm => ?_⟩, hrank⟩
  · exact hr.perm.mem_iff.mp (List.mem_append_left _ List.mem_cons_self)
  · rcases List.mem_append.mp (hr.perm.mem_iff.mpr hm) with hm | hm
    · rcases List.mem_cons.mp hm with rfl | hm
      · exact le_rfl
      · exact (List.pairwise_cons.mp hr.sorted).1 m hm
    · exact hr.le m hm n List.mem_cons_self

/- The nodes that can be dispatched to come in any order, with the others after them. -/
theorem exists_order {ds : List Node} (h : ds.Perm (dispatchable sch req.key nodes)) :
    ∃ l, l.Perm nodes ∧ dispatchable sch req.key l = ds := by
  refine ⟨ds ++ nodes.filter fun m => !passes sch req.key m, ?_, ?_⟩
  · exact (h.append_right _).trans (List.filter_append_perm (passes sch req.key) nodes)
  · have hpass : ∀ m ∈ ds, passes sch req.key m = true := by
      intro m hm
      exact (List.mem_filter.mp (h.mem_iff.mp hm)).2
    show List.filter _ (ds ++ _) = ds
    rw [List.filter_append, List.filter_eq_self.mpr hpass, List.filter_filter]
    simp

theorem apply_swap {ι β : Type} [DecidableEq ι] {f : ι → β} {i j : ι} (h : f i = f j) (k : ι) :
    f (Equiv.swap i j k) = f k := by
  rw [Equiv.swap_apply_def]
  split
  · rename_i hk
    rw [hk, h]
  · split
    · rename_i hk
      rw [hk, h]
    · rfl

/-- And every node of the highest score is first in some order of the rows: the one that
is first and this one change places, which no comparison can see. -/
theorem exists_order_first (hmax : 0 < sch.cfg.maxCandidates) {n : Node}
    (hn : Maximal sch req nodes n) :
    ∃ l rest, l.Perm nodes ∧ ranking (chosen sch l req) = scored sch req n :: rest := by
  obtain ⟨t, tail, ht, hfirst⟩ := exists_first sch req hmax (List.ne_nil_of_mem hn.1)
  let ds := dispatchable sch req.key nodes
  rw [ranking_places sch req (List.map_get_finRange ds).symm] at hfirst
  obtain ⟨i, is, his, hi, -⟩ := List.map_eq_cons_iff.mp hfirst
  obtain ⟨j, hj⟩ := List.get_of_mem hn.1
  have hscore : (scored sch req (ds.get i)).score = (scored sch req (ds.get j)).score := by
    rw [hi, hj]
    exact le_antisymm (hn.2 t ht.1) (ht.2 n hn.1)
  have hperm : ((List.finRange ds.length).map fun k => ds.get (Equiv.swap i j k)).Perm ds := by
    have hmap := ((Equiv.swap i j).map_finRange_perm).map ds.get
    rw [List.map_map, List.map_get_finRange] at hmap
    exact hmap
  obtain ⟨l, hl, hdl⟩ := exists_order sch req hperm
  have hless : (BinaryHeap.comapLess lower fun k => scored sch req (ds.get (Equiv.swap i j k))) =
      BinaryHeap.comapLess lower fun k => scored sch req (ds.get k) := by
    funext k k'
    simp only [BinaryHeap.comapLess, lower,
      apply_swap (f := fun k => (scored sch req (ds.get k)).score) hscore]
  refine ⟨l, is.map fun k => scored sch req (ds.get (Equiv.swap i j k)), hl, ?_⟩
  rw [ranking_places sch req hdl, hless, his, List.map_cons, Equiv.swap_apply_left, hj]

end

/-! ### Absolute locations -/

def isSchemeChar (c : Char) : Bool := c.isAlphanum || c = '+' || c = '-' || c = '.'

/- A character that a host can start with: none of these ends an empty one. -/
def startsHost (c : Char) : Bool := c ≠ '/' && c ≠ '?' && c ≠ '#' && c ≠ ':'

/- What follows the scheme names a host. -/
def hasHost : List Char → Bool
  | ':' :: '/' :: '/' :: c :: _ => startsHost c
  | _ => false

/-- A scheme and a host: every other reference is resolved against the address of the
control plane, which answered with it. -/
def isAbsolute (u : String) : Bool :=
  let scheme := u.toList.takeWhile (· ≠ ':')
  scheme.head?.any Char.isAlpha && scheme.all isSchemeChar &&
    hasHost (u.toList.dropWhile (· ≠ ':'))

theorem trimSlashes_getLast? (endpoint : String) :
    (trimSlashes endpoint).toList.getLast? ≠ some '/' := by
  rw [trimSlashes, String.toList_ofList, List.getLast?_reverse]
  intro h
  have hne : endpoint.toList.reverse.dropWhile (fun c => decide (c = '/')) ≠ [] := by
    intro hnil
    rw [hnil] at h
    cases h
  have hhead := List.head_dropWhile_not (fun c => decide (c = '/')) hne
  rw [List.head?_eq_some_head hne] at h
  rw [Option.some.inj h] at hhead
  simp at hhead

/- A path after the endpoint does not complete what the endpoint does not have. -/
theorem hasHost_append {rest tail : List Char} (h : rest.getLast? ≠ some '/') :
    hasHost (':' :: (rest ++ '/' :: 'o' :: tail)) = hasHost (':' :: rest) := by
  match rest, h with
  | [], _ => rfl
  | [a], h =>
    have ha : a ≠ '/' := by simpa using h
    simp [hasHost, ha]
  | [a, b], h =>
    have hb : b ≠ '/' := by simpa using h
    simp [hasHost, hb]
  | a :: b :: c :: more, _ =>
    by_cases hab : a = '/' ∧ b = '/'
    · obtain ⟨rfl, rfl⟩ := hab
      rfl
    · simp only [List.cons_append]
      unfold hasHost
      split
      · rename_i heq
        simp only [List.cons.injEq] at heq
        exact absurd ⟨heq.2.1, heq.2.2.1⟩ hab
      · split
        · rename_i heq
          simp only [List.cons.injEq] at heq
          exact absurd ⟨heq.2.1, heq.2.2.1⟩ hab
        · rfl

/-- The location is absolute exactly if the endpoint without its last slashes is. -/
theorem isAbsolute_append {e : String} (he : e.toList.getLast? ≠ some '/') (t : String) :
    isAbsolute (e ++ ("/obj/" ++ t)) = isAbsolute e := by
  have hpath : (e ++ ("/obj/" ++ t)).toList =
      e.toList ++ '/' :: 'o' :: ('b' :: 'j' :: '/' :: t.toList) := by
    rw [String.toList_append, String.toList_append]
    rfl
  unfold isAbsolute
  rw [hpath]
  generalize e.toList = es at he
  by_cases hcolon : ':' ∈ es
  · obtain ⟨scheme, rest, rfl, hscheme⟩ := List.eq_append_cons_of_mem hcolon
    have hall : ∀ c ∈ scheme, decide (c ≠ ':') = true := by
      intro c hc
      exact decide_eq_true fun h => hscheme (h ▸ hc)
    have hrest : rest.getLast? ≠ some '/' := by
      cases rest with
      | nil => simp
      | cons a more => simpa using he
    rw [List.append_assoc, List.cons_append, List.takeWhile_append_of_pos hall,
      List.takeWhile_append_of_pos hall, List.dropWhile_append_of_pos hall,
      List.dropWhile_append_of_pos hall]
    simp only [List.takeWhile_cons, List.dropWhile_cons, ne_eq, not_true_eq_false, decide_false,
      Bool.false_eq_true, if_false, hasHost_append hrest]
  · -- without a colon the slash of the path falls into the scheme
    have hall : ∀ c ∈ es, decide (c ≠ ':') = true := by
      intro c hc
      exact decide_eq_true fun h => hcolon (h ▸ hc)
    have hslash : isSchemeChar '/' = false := by decide
    have hdrop : es.dropWhile (fun c => decide (c ≠ ':')) = [] := List.dropWhile_eq_nil_iff.mpr hall
    rw [List.takeWhile_append_of_pos hall, hdrop, List.takeWhile_cons]
    simp [hslash, hasHost]

/-! ### Redirects -/

/- A redirect to this endpoint leaves the control plane. -/
def Outward (endpoint : String) : Prop := isAbsolute (trimSlashes endpoint) = true

instance (endpoint : String) : Decidable (Outward endpoint) :=
  inferInstanceAs (Decidable (_ = true))

theorem isAbsolute_redirectURL (top : Candidate) (key token : Bytes) :
    isAbsolute (redirectURL top key token) = true ↔ Outward top.endpoint := by
  unfold redirectURL Outward
  rw [String.append_assoc, String.append_assoc, isAbsolute_append (trimSlashes_getLast? _)]

theorem Outward.ne_empty {endpoint : String} (h : Outward endpoint) : endpoint ≠ "" := by
  rintro rfl
  revert h
  decide

section
variable (policy : PolicyData) (sch : Scheduler) (token : Bytes → Bytes → Bytes)
variable (cache : IPCache) (r : ClientAddress.Request)

/-- A redirect goes to the first candidate's endpoint, which is not empty, and its location
is absolute. -/
def RedirectsOut (path : Bytes) (nodes : List Node) : Prop :=
  ∀ url, (handleObjectIngress ⟨policy, sch, some nodes, token⟩ cache r path).1 = .ok url →
    ∃ top rest, (resolve sch (token (sanitizeResourceKey path) (cachedClientIP cache r).1) nodes
        (objectRequest path)).candidates = top :: rest ∧
      top.endpoint ≠ "" ∧ isAbsolute url = true

/-- Every endpoint that can come first is one on a host: the origin's if there is no node to
dispatch to, and otherwise those of the nodes with the highest score. -/
def FirstOutward (path : Bytes) (nodes : List Node) : Prop :=
  if dispatchable sch (objectRequest path).key nodes = [] then
    ∀ c ∈ noOriginFallback sch, Outward c.endpoint
  else 0 < sch.cfg.maxCandidates →
    ∀ n, Maximal sch (objectRequest path) nodes n → Outward (nodeEndpoint n)

theorem redirectsOut_iff (path : Bytes) (nodes : List Node) :
    RedirectsOut policy sch token cache r path nodes ↔
      (sanitizeResourceKey path ≠ [] → ∀ top rest,
        (resolve sch (token (sanitizeResourceKey path) (cachedClientIP cache r).1) nodes
          (objectRequest path)).candidates = top :: rest → Outward top.endpoint) := by
  unfold RedirectsOut handleObjectIngress objectRequest
  by_cases hkey : sanitizeResourceKey path = []
  · simp [hkey]
  · simp only [hkey, if_false, ne_eq, not_false_eq_true, true_imp_iff]
    cases hc : (resolve sch (token (sanitizeResourceKey path) (cachedClientIP cache r).1) nodes
        ⟨"", "", text (sanitizeResourceKey path)⟩).candidates with
    | nil => simp
    | cons top rest =>
      simp only [Except.ok.injEq, forall_eq', List.cons.injEq, and_imp]
      constructor
      · rintro ⟨top', rest', hcons, -, habs⟩ t _ rfl _
        exact (isAbsolute_redirectURL _ _ _).mp habs
      · intro hout
        have hout := hout top rest rfl rfl
        exact ⟨top, rest, ⟨rfl, rfl⟩, hout.ne_empty, (isAbsolute_redirectURL _ _ _).mpr hout⟩

/- The fallback has one candidate at most. -/
theorem fallback_outward_iff :
    (∀ top rest, noOriginFallback sch = top :: rest → Outward top.endpoint) ↔
      ∀ c ∈ noOriginFallback sch, Outward c.endpoint := by
  unfold noOriginFallback
  split <;> simp

theorem dispatchable_eq_nil_iff {key : String} {l nodes : List Node} (h : l.Perm nodes) :
    dispatchable sch key l = [] ↔ dispatchable sch key nodes = [] := by
  rw [← List.length_eq_zero_iff, ← List.length_eq_zero_iff, (dispatchable_perm h).length_eq]

theorem candidates_outward_iff (req : DispatchRequest) (nodes : List Node)
    (hne : dispatchable sch req.key nodes ≠ []) :
    (∀ l, l.Perm nodes → ∀ top rest, candidates (chosen sch l req) = top :: rest →
      Outward top.endpoint) ↔
      (0 < sch.cfg.maxCandidates →
        ∀ n, Maximal sch req nodes n → Outward (nodeEndpoint n)) := by
  constructor
  · intro hall hmax n hn
    obtain ⟨l, rest, hl, hfirst⟩ := exists_order_first sch req hmax hn
    have hout := hall l hl (candidateOf (scored sch req n)) (rest.map candidateOf)
      (by rw [candidates_eq, hfirst, List.map_cons])
    exact hout
  · intro hbest l hl top rest hcons
    have hnel : dispatchable sch req.key l ≠ [] := mt (dispatchable_eq_nil_iff sch hl).mp hne
    have hmax : 0 < sch.cfg.maxCandidates := by
      by_contra hneg
      have hnil := (chosen_eq_nil_iff hnel).mpr (not_lt.mp hneg)
      rw [hnil] at hcons
      cases hcons
    obtain ⟨n, tail, hn, hfirst⟩ := exists_first sch req hmax hnel
    rw [candidates_eq, hfirst, List.map_cons] at hcons
    obtain ⟨rfl, -⟩ := List.cons.inj hcons
    exact hbest hmax n ((maximal_perm sch req hl n).mp hn)

/-- In every order of the rows an object request is redirected to another host, if and only
if every endpoint that can come first is on one. -/
theorem redirects_out_iff (path : Bytes) (nodes : List Node) :
    (∀ l, l.Perm nodes → RedirectsOut policy sch token cache r path l) ↔
      (sanitizeResourceKey path ≠ [] → FirstOutward sch path nodes) := by
  simp only [redirectsOut_iff, resolve_candidates, FirstOutward]
  by_cases hd : dispatchable sch (objectRequest path).key nodes = []
  · rw [if_pos hd, ← fallback_outward_iff]
    constructor
    · intro hall hkey
      simpa only [if_pos hd] using hall nodes (.refl _) hkey
    · intro hfall l hl hkey
      simpa only [if_pos ((dispatchable_eq_nil_iff sch hl).mpr hd)] using hfall hkey
  · rw [if_neg hd, ← candidates_outward_iff sch (objectRequest path) nodes hd]
    constructor
    · intro hall hkey l hl
      simpa only [if_neg (mt (dispatchable_eq_nil_iff sch hl).mp hd)] using hall l hl hkey
    · intro hcand l hl hkey
      simpa only [if_neg (mt (dispatchable_eq_nil_iff sch hl).mp hd)] using hcand hkey l hl

end

/-! ### A node behind a tunnel -/

def tunnelScheduler : Scheduler :=
  { ResolveRuns.plainScheduler with tunnelMgr := some fun id => id = "t" }

def tunnelNode : Node :=
  ⟨"t", "", "", .active, [], ⟨false, 0, true, 0, false⟩, ⟨100, 100, 0⟩⟩

/- The only node is connected by its tunnel: the client is sent to the path it asked for. -/
theorem tunnel_node_redirects_to_itself :
    (handleObjectIngress ⟨blocking, tunnelScheduler, some [tunnelNode], fun _ _ => lit "t"⟩
        (fun _ => none) blockedPeer (lit "k")).1 = .ok "/obj/k?token=t" ∧
      ¬ RedirectsOut blocking tunnelScheduler (fun _ _ => lit "t") (fun _ => none) blockedPeer
        (lit "k") [tunnelNode] := by
  have hredirect : (handleObjectIngress ⟨blocking, tunnelScheduler, some [tunnelNode],
      fun _ _ => lit "t"⟩ (fun _ => none) blockedPeer (lit "k")).1 = .ok "/obj/k?token=t" := by
    decide +kernel
  refine ⟨hredirect, fun hout => ?_⟩
  obtain ⟨top, rest, -, -, habs⟩ := hout _ hredirect
  exact absurd habs (by decide)

end EdgeDispatch.ControlPlane.Redirects
