import EdgeDispatch.ControlPlane.AuditExport
import EdgeDispatch.ControlPlane.TaskIsolation
import EdgeDispatch.Lib.GoInt64
import EdgeDispatch.Lib.KeyedOrder

/-! # Listings page by page

The node, task and audit listings of the admin API (internal/controlplane/admin_api.go:694-727,
1210-1241, 1265-1295) and their queries (internal/store/pg.go:1434-1483, 1508-1601, 1653-1718),
which all end with `ORDER BY created_at DESC LIMIT .. OFFSET ..`. Rows that were created at the
same time may come in another order in each query. -/

namespace EdgeDispatch.ControlPlane.Pagination
open Lib Lib.ByteString Lib.GoStrconv Lib.KeyedOrder
open Lib.GoStrings (lit)
open Store.Tasks (Task Table)
open ControlPlane.AuditExport (AuditEvent)
open ControlPlane.TaskIsolation (pageLimit)

/-- The rows of a table have different ids, and their number is a bigint. -/
structure Stored (ρ : Type) where
  rows : List ρ
  nodup : rows.Nodup
  count : rows.length < 2 ^ 63

structure PaginatedResponse (ρ : Type) where
  data : List ρ
  total : Int64
  limit : Int64
  offset : Int64
  hasMore : Bool
  deriving DecidableEq

variable {ρ : Type}

def Stored.filter (tb : Stored ρ) (p : ρ → Bool) : Stored ρ where
  rows := tb.rows.filter p
  nodup := tb.nodup.filter p
  count := Nat.lt_of_le_of_lt (List.length_filter_le p tb.rows) tb.count

/- The count and the page, for the order in which this query puts the rows. The database
refuses a negative LIMIT or OFFSET. -/
def select (found : Stored ρ) (order : List ρ) (limit offset : Int64) :
    Option (List ρ × Int64) :=
  if limit < 0 ∨ offset < 0 then none
  else some ((order.drop offset.toInt.toNat).take limit.toInt.toNat,
    Int64.ofNat found.rows.length)

/- What the handlers make of the answer; `none` is status 500. -/
def respond (limit offset : Int64) (answer : Option (List ρ × Int64)) :
    Option (PaginatedResponse ρ) :=
  answer.map fun (rows, total) => ⟨rows, total, limit, offset, offset + limit < total⟩

/- The order that the database chooses for a query, by its LIMIT and OFFSET. -/
abbrev Choice (ρ : Type) := Int64 → Int64 → List ρ

/-! ### The three listings -/

structure NodeRow where
  nodeID : String
  tenantID : String
  projectID : String
  status : String
  region : String
  isp : String
  createdAt : ℕ
  deriving DecidableEq

structure NodeFilter where
  tenantID : String
  statusFilter : String
  regionFilter : String
  ispFilter : String
  projectID : String

def NodeFilter.selects (f : NodeFilter) (r : NodeRow) : Bool :=
  (f.tenantID = "" ∨ r.tenantID = f.tenantID) ∧ (f.projectID = "" ∨ r.projectID = f.projectID) ∧
    (f.statusFilter = "" ∨ r.status = f.statusFilter) ∧
    (f.regionFilter = "" ∨ r.region = f.regionFilter) ∧ (f.ispFilter = "" ∨ r.isp = f.ispFilter)

def handleListNodes (tb : Stored NodeRow) (f : NodeFilter) (order : Choice NodeRow)
    (limit offset : Bytes) : Option (PaginatedResponse NodeRow) :=
  let limit := pageLimit (atoi limit)
  let offset := atoi offset
  respond limit offset (select (tb.filter f.selects) (order limit offset) limit offset)

def handleListTasks (tb : Stored Task) (tenantID statusFilter taskType : String)
    (order : Choice Task) (limit offset : Bytes) : Option (PaginatedResponse Task) :=
  let limit := pageLimit (atoi limit)
  let offset := atoi offset
  respond limit offset
    (select (tb.filter (Table.selected tenantID statusFilter taskType)) (order limit offset) limit
      offset)

/-- The handler leaves the project and the times of the query open. -/
structure AuditQuery where
  actorID : Bytes
  action : Bytes
  resourceType : Bytes
  resourceID : Bytes
  result : Bytes
  tenantID : Bytes
  limit : Int64
  offset : Int64

def AuditQuery.selects (q : AuditQuery) (e : AuditEvent ℕ) : Bool :=
  (q.actorID = [] ∨ e.actorID = q.actorID) ∧ (q.action = [] ∨ e.action = q.action) ∧
    (q.resourceType = [] ∨ e.resourceType = q.resourceType) ∧
    (q.resourceID = [] ∨ e.resourceID = q.resourceID) ∧ (q.result = [] ∨ e.result = q.result) ∧
    (q.tenantID = [] ∨ e.tenantID = q.tenantID)

/- The default for the limit goes into the query, which is a copy of the handler's. -/
def queryAuditEvents (tb : Stored (AuditEvent ℕ)) (order : Choice (AuditEvent ℕ)) (q : AuditQuery) :
    Option (List (AuditEvent ℕ) × Int64) :=
  let limit := pageLimit q.limit
  select (tb.filter q.selects) (order limit q.offset) limit q.offset

/- `q` without its limit and offset. -/
def handleQueryAudit (tb : Stored (AuditEvent ℕ)) (q : AuditQuery)
    (order : Choice (AuditEvent ℕ)) (limit offset : Bytes) :
    Option (PaginatedResponse (AuditEvent ℕ)) :=
  let q := { q with
    limit := if limit = [] then 0 else atoi limit
    offset := if offset = [] then 0 else atoi offset }
  respond q.limit q.offset (queryAuditEvents tb order q)

/-! ### Repeated requests -/

/-- The request is repeated with the offset increased by the returned limit, while there is
more; `none` if that does not end within `n` requests. -/
def walk (request : Bytes → Option (PaginatedResponse ρ)) : ℕ → Bytes → Option (List ρ)
  | 0, _ => none
  | n + 1, offset => (request offset).bind fun r =>
    if r.hasMore then
      (walk request n (decimal (r.offset.toInt + r.limit.toInt).toNat)).map (r.data ++ ·)
    else some r.data

/-- The flag of a request is right, and repeating the request gives the rows from its offset
on, each once. -/
def Complete (request : Bytes → Option (PaginatedResponse ρ)) (found rest : List ρ)
    (offset : Bytes) : Prop :=
  (∃ r, request offset = some r ∧
    (r.hasMore = true ↔ r.offset.toInt.toNat + r.data.length < found.length)) ∧
  ∃ n rows, walk request n offset = some rows ∧ rows.Perm rest

/-- The same in every order that the database may choose. -/
def AllComplete (key : ρ → ℕ) (found : Stored ρ)
    (request : Choice ρ → Bytes → Option (PaginatedResponse ρ)) (used : Int64) (offset : Bytes) :
    Prop :=
  ∀ order, (∀ l o, Orders key found.rows (order l o)) →
    Complete (request order) found.rows
      ((order used (atoi offset)).drop (atoi offset).toInt.toNat) offset

/-- No page ends between two rows that were created at the same time, and no sum of an offset
and the limit is out of range. -/
def Paged (key : ρ → ℕ) (found : List ρ) (limit offset : ℕ) : Prop :=
  ∀ k, (k = 0 ∨ offset + k * limit < found.length) →
    offset + (k + 1) * limit < 2 ^ 63 ∧ (k ≠ 0 → Gap key found (offset + k * limit))

theorem paged_iff {key : ρ → ℕ} {found : List ρ} {limit offset : ℕ} :
    Paged key found limit offset ↔ offset + limit < 2 ^ 63 ∧
      (offset + limit < found.length →
        Gap key found (offset + limit) ∧ Paged key found limit (offset + limit)) := by
  have hshift : ∀ k, offset + limit + k * limit = offset + (k + 1) * limit := fun k => by ring
  constructor
  · intro h
    have hfirst := (h 0 (Or.inl rfl)).1
    refine ⟨by simpa using hfirst, fun hlt => ⟨?_, fun k hk => ?_⟩⟩
    · have hsecond := (h 1 (Or.inr (by simpa using hlt))).2 (by decide)
      simpa using hsecond
    · have hk' : offset + (k + 1) * limit < found.length := by
        rcases hk with rfl | hk
        · simpa using hlt
        · rwa [hshift] at hk
      obtain ⟨hsum, hgap⟩ := h (k + 1) (Or.inr hk')
      rw [hshift, hshift]
      exact ⟨hsum, fun _ => hgap (Nat.succ_ne_zero k)⟩
  · rintro ⟨hsum, hnext⟩ k hk
    cases k with
    | zero => exact ⟨by simpa using hsum, fun h => absurd rfl h⟩
    | succ k =>
      have hk' : offset + (k + 1) * limit < found.length :=
        hk.resolve_left (Nat.succ_ne_zero k)
      have hlt : offset + limit < found.length := by
        rw [← hshift] at hk'
        omega
      obtain ⟨hgap, hpaged⟩ := hnext hlt
      have hrest := hpaged k (Or.inr (by rwa [hshift]))
      rw [hshift, hshift] at hrest
      refine ⟨hrest.1, fun _ => ?_⟩
      by_cases hzero : k = 0
      · simpa [hzero] using hgap
      · exact hrest.2 hzero

/-! ### One listing, by the limit it uses and the limit it reports -/

section Listing
variable (found : Stored ρ) (order : Choice ρ)

def listing (used reported offset : Int64) : Option (PaginatedResponse ρ) :=
  respond reported offset (select found (order used offset) used offset)

/- `walk` sees an offset only through its value. -/
def walkFrom (used reported : Int64) : ℕ → Int64 → Option (List ρ)
  | 0, _ => none
  | n + 1, offset => (listing found order used reported offset).bind fun r =>
    if r.hasMore then
      (walkFrom used reported n
        (atoi (decimal (r.offset.toInt + r.limit.toInt).toNat))).map (r.data ++ ·)
    else some r.data

theorem walk_listing (used reported : Int64) (n : ℕ) (offset : Bytes) :
    walk (fun o => listing found order used reported (atoi o)) n offset =
      walkFrom found order used reported n (atoi offset) := by
  induction n generalizing offset with
  | zero => rfl
  | succ n ih => simp only [walk, walkFrom, ih]

end Listing

section Pages
variable {found : Stored ρ} {order : Choice ρ} {used reported offset : Int64}

/- The rows of a page. -/
def page (order : Choice ρ) (used offset : Int64) : List ρ :=
  ((order used offset).drop offset.toInt.toNat).take used.toInt.toNat

theorem listing_eq (hused : 0 < used.toInt) (hoffset : 0 ≤ offset.toInt) :
    listing found order used reported offset = some ⟨page order used offset,
      Int64.ofNat found.rows.length, reported, offset,
      offset + reported < Int64.ofNat found.rows.length⟩ := by
  have hcheck : ¬ (used < 0 ∨ offset < 0) := by
    rw [Int64.lt_iff_toInt_lt, Int64.lt_iff_toInt_lt]
    have hzero : (0 : Int64).toInt = 0 := rfl
    omega
  rw [listing, select, if_neg hcheck]
  rfl

/-- The comparison that the flag comes from, where the sum may wrap around. -/
theorem more_iff (found : Stored ρ) (hoffset : 0 ≤ offset.toInt)
    (hreported : 0 ≤ reported.toInt) :
    offset + reported < Int64.ofNat found.rows.length ↔
      offset.toInt.toNat + reported.toInt.toNat < found.rows.length ∨
        2 ^ 63 ≤ offset.toInt.toNat + reported.toInt.toNat := by
  have hcount := found.count
  have ho := offset.toInt_lt
  have hr := reported.toInt_lt
  have htotal : (Int64.ofNat found.rows.length).toInt = found.rows.length :=
    GoInt64.toInt_ofInt_nat hcount
  rw [Int64.lt_iff_toInt_lt, htotal, Int64.toInt_add, Int.bmod_def]
  split <;> omega

/- The offset of the next request. -/
theorem next_toInt (n : ℕ) (h : n < 2 ^ 63) : (atoi (decimal n)).toInt.toNat = n := by
  rw [atoi_decimal]
  omega

theorem next_nonneg (n : ℕ) : 0 ≤ (atoi (decimal n)).toInt := by
  rw [atoi_decimal]
  omega

theorem next_page (hused : 0 < used.toInt) (hoffset : 0 ≤ offset.toInt)
    (hsum : offset.toInt.toNat + used.toInt.toNat < 2 ^ 63) :
    (atoi (decimal (offset.toInt + used.toInt).toNat)).toInt.toNat =
      offset.toInt.toNat + used.toInt.toNat := by
  rw [next_toInt _ (by omega)]
  omega

theorem walkFrom_of_more (hused : 0 < used.toInt) (hoffset : 0 ≤ offset.toInt)
    (hmore : offset + reported < Int64.ofNat found.rows.length) (n : ℕ) :
    walkFrom found order used reported (n + 1) offset =
      (walkFrom found order used reported n
        (atoi (decimal (offset.toInt + reported.toInt).toNat))).map
          (page order used offset ++ ·) := by
  rw [walkFrom, listing_eq hused hoffset, Option.bind_some]
  exact if_pos (decide_eq_true hmore)

theorem walkFrom_of_not_more (hused : 0 < used.toInt) (hoffset : 0 ≤ offset.toInt)
    (hmore : ¬ offset + reported < Int64.ofNat found.rows.length) (n : ℕ) :
    walkFrom found order used reported (n + 1) offset = some (page order used offset) := by
  rw [walkFrom, listing_eq hused hoffset, Option.bind_some]
  exact if_neg (by simpa using hmore)

/-- A sum out of range says that there is more, and so does every sum after it. -/
theorem walkFrom_overflow (hused : 0 < used.toInt) (hoffset : 0 ≤ offset.toInt)
    (hsum : 2 ^ 63 ≤ offset.toInt.toNat + used.toInt.toNat) (n : ℕ) :
    walkFrom found order used used n offset = none := by
  induction n generalizing offset with
  | zero => rfl
  | succ n ih =>
    have hmore := (more_iff found hoffset (Int.le_of_lt hused)).mpr (Or.inr hsum)
    have hnext := ih (next_nonneg (offset.toInt + used.toInt).toNat) (by
      rw [atoi_decimal]
      omega)
    rw [walkFrom_of_more hused hoffset hmore, hnext]
    rfl

/-- Where there is more, the walk goes on at the next page. -/
theorem walkFrom_more (hused : 0 < used.toInt) (hoffset : 0 ≤ offset.toInt)
    (hmore : offset.toInt.toNat + used.toInt.toNat < found.rows.length) (n : ℕ) :
    walkFrom found order used used (n + 1) offset =
      (walkFrom found order used used n
        (atoi (decimal (offset.toInt + used.toInt).toNat))).map (page order used offset ++ ·) := by
  exact walkFrom_of_more hused hoffset
    ((more_iff found hoffset (Int.le_of_lt hused)).mpr (Or.inl hmore)) n

theorem walkFrom_last (hused : 0 < used.toInt) (hoffset : 0 ≤ offset.toInt)
    (hsum : offset.toInt.toNat + used.toInt.toNat < 2 ^ 63)
    (hlast : found.rows.length ≤ offset.toInt.toNat + used.toInt.toNat) (n : ℕ) :
    walkFrom found order used used (n + 1) offset = some (page order used offset) := by
  exact walkFrom_of_not_more hused hoffset
    (mt (more_iff found hoffset (Int.le_of_lt hused)).mp (by omega)) n

/- A page is the beginning of what the walk gives. -/
theorem walkFrom_page (hused : 0 < used.toInt) (hoffset : 0 ≤ offset.toInt) {n : ℕ} {rows : List ρ}
    (h : walkFrom found order used used n offset = some rows) :
    ∃ tail, rows = page order used offset ++ tail := by
  cases n with
  | zero => cases h
  | succ n =>
    rw [walkFrom, listing_eq hused hoffset, Option.bind_some] at h
    split at h
    · obtain ⟨tail, -, rfl⟩ := Option.map_eq_some_iff.mp h
      exact ⟨tail, rfl⟩
    · cases h
      exact ⟨[], (List.append_nil _).symm⟩

theorem page_append_drop (order : Choice ρ) (used offset : Int64) :
    page order used offset ++ (order used offset).drop (offset.toInt.toNat + used.toInt.toNat) =
      (order used offset).drop offset.toInt.toNat := by
  rw [page, ← List.drop_drop, List.take_append_drop]

/-- The walk from an offset ends with the rows from there on, each once. -/
def Walks (found : Stored ρ) (order : Choice ρ) (used offset : Int64) : Prop :=
  ∃ n rows, walkFrom found order used used n offset = some rows ∧
    rows.Perm ((order used offset).drop offset.toInt.toNat)

variable {key : ρ → ℕ}

theorem walks_last (hused : 0 < used.toInt) (hoffset : 0 ≤ offset.toInt)
    (horder : Orders key found.rows (order used offset))
    (hsum : offset.toInt.toNat + used.toInt.toNat < 2 ^ 63)
    (hlast : found.rows.length ≤ offset.toInt.toNat + used.toInt.toNat) :
    Walks found order used offset := by
  have hlen := horder.length_eq
  refine ⟨1, _, walkFrom_last hused hoffset hsum hlast 0, ?_⟩
  rw [page, List.take_of_length_le (by rw [List.length_drop]; omega)]

/-- Behind a gap the walk is the walk from the next page on. -/
theorem walks_next_iff (hused : 0 < used.toInt) (hoffset : 0 ≤ offset.toInt)
    (hsum : offset.toInt.toNat + used.toInt.toNat < 2 ^ 63)
    (hmore : offset.toInt.toNat + used.toInt.toNat < found.rows.length)
    (hgap : Gap key found.rows (offset.toInt.toNat + used.toInt.toNat))
    (horder : ∀ l o, Orders key found.rows (order l o)) :
    Walks found order used offset ↔
      Walks found order used (atoi (decimal (offset.toInt + used.toInt).toNat)) := by
  have hdrop := (horder used offset).drop_perm
    (horder used (atoi (decimal (offset.toInt + used.toInt).toNat))) (by omega) hmore hgap
  unfold Walks
  rw [next_page hused hoffset hsum, ← page_append_drop]
  constructor
  · rintro ⟨n, rows, hwalk, hperm⟩
    cases n with
    | zero => cases hwalk
    | succ n =>
      rw [walkFrom_more hused hoffset hmore] at hwalk
      obtain ⟨rest, hrest, rfl⟩ := Option.map_eq_some_iff.mp hwalk
      exact ⟨n, rest, hrest, ((List.perm_append_left_iff _).mp hperm).trans hdrop⟩
  · rintro ⟨n, rows, hwalk, hperm⟩
    exact ⟨n + 1, _, by rw [walkFrom_more hused hoffset hmore, hwalk]; rfl,
      (hperm.trans hdrop.symm).append_left _⟩

/- `m` bounds the number of rows from the offset on. -/
theorem walks_of_paged (horder : ∀ l o, Orders key found.rows (order l o)) (hused : 0 < used.toInt)
    (m : ℕ) (hoffset : 0 ≤ offset.toInt) (hm : found.rows.length ≤ offset.toInt.toNat + m)
    (h : Paged key found.rows used.toInt.toNat offset.toInt.toNat) :
    Walks found order used offset := by
  induction m generalizing offset with
  | zero => exact walks_last hused hoffset (horder _ _) (paged_iff.mp h).1 (by omega)
  | succ m ih =>
    obtain ⟨hsum, hnext⟩ := paged_iff.mp h
    by_cases hmore : offset.toInt.toNat + used.toInt.toNat < found.rows.length
    · obtain ⟨hgap, hpaged⟩ := hnext hmore
      have hat := next_page hused hoffset hsum
      rw [walks_next_iff hused hoffset hsum hmore hgap horder]
      exact ih (next_nonneg _) (by rw [hat]; omega) (by rw [hat]; exact hpaged)
    · exact walks_last hused hoffset (horder _ _) hsum (by omega)

theorem sum_of_walks (hused : 0 < used.toInt) (hoffset : 0 ≤ offset.toInt)
    (h : Walks found order used offset) :
    offset.toInt.toNat + used.toInt.toNat < 2 ^ 63 := by
  by_contra hbig
  obtain ⟨n, rows, hwalk, -⟩ := h
  rw [walkFrom_overflow hused hoffset (Nat.le_of_not_lt hbig)] at hwalk
  cases hwalk

/-- A tie at the end of a page: another order for the next query, and a row comes twice. -/
theorem gap_of_walks (hused : 0 < used.toInt) (hoffset : 0 ≤ offset.toInt)
    (hsum : offset.toInt.toNat + used.toInt.toNat < 2 ^ 63)
    (hmore : offset.toInt.toNat + used.toInt.toNat < found.rows.length)
    (h : ∀ order : Choice ρ, (∀ l o, Orders key found.rows (order l o)) →
      Walks found order used offset) :
    Gap key found.rows (offset.toInt.toNat + used.toInt.toNat) := by
  by_contra htie
  obtain ⟨base, hbase⟩ := exists_orders key found.rows
  obtain ⟨swapped, a, x, b, c, hswapped, hsplit, hlen, hdrop⟩ :=
    hbase.exists_swapped (by omega) hmore htie
  let next := atoi (decimal (offset.toInt + used.toInt).toNat)
  have hat : next.toInt.toNat = offset.toInt.toNat + used.toInt.toNat :=
    next_page hused hoffset hsum
  have hne : offset ≠ next := fun he => by
    rw [← he] at hat
    omega
  let order : Choice ρ := fun _ o => if o = next then swapped else base
  have horder : ∀ l o, Orders key found.rows (order l o) := fun _ o => by
    show Orders key found.rows (if o = next then swapped else base)
    split
    · exact hswapped
    · exact hbase
  have hfirst : order used offset = base := if_neg hne
  have hsecond : order used next = swapped := if_pos rfl
  obtain ⟨n, rows, hwalk, hperm⟩ := h order horder
  -- the walk goes through both pages
  cases n with
  | zero => cases hwalk
  | succ n =>
    rw [walkFrom_more hused hoffset hmore] at hwalk
    obtain ⟨rest, hrest, rfl⟩ := Option.map_eq_some_iff.mp hwalk
    obtain ⟨tail, rfl⟩ := walkFrom_page hused (next_nonneg _) hrest
    have hx : x ∈ page order used offset := by
      have htake : page order used offset = (base.take (a.length + 1)).drop offset.toInt.toNat := by
        rw [page, hfirst, List.drop_take, hlen]
        congr 1
        omega
      have hfront : base.take (a.length + 1) = a ++ [x] := by
        rw [hsplit, List.append_cons]
        exact List.take_left' List.length_append
      rw [htake, hfront, List.drop_append_of_le_length (by omega)]
      exact List.mem_append_right _ (List.mem_singleton_self x)
    have hx' : x ∈ page order used next := by
      rw [page, hsecond, hat, hdrop, ← Nat.succ_pred (show used.toInt.toNat ≠ 0 by omega)]
      exact List.mem_cons_self
    have hnodup : (page order used offset ++ (page order used next ++ tail)).Nodup := by
      refine hperm.symm.nodup ?_
      rw [hfirst]
      exact (hbase.perm.nodup_iff.mpr found.nodup).sublist (List.drop_sublist _ _)
    exact (List.nodup_append.mp hnodup).2.2 x hx x (List.mem_append_left _ hx') rfl

theorem paged_of_walks (hused : 0 < used.toInt) (m : ℕ) (hoffset : 0 ≤ offset.toInt)
    (hm : found.rows.length ≤ offset.toInt.toNat + m)
    (h : ∀ order : Choice ρ, (∀ l o, Orders key found.rows (order l o)) →
      Walks found order used offset) :
    Paged key found.rows used.toInt.toNat offset.toInt.toNat := by
  obtain ⟨base, hbase⟩ := exists_orders key found.rows
  induction m generalizing offset with
  | zero =>
    have hsum := sum_of_walks hused hoffset (h (fun _ _ => base) fun _ _ => hbase)
    exact paged_iff.mpr ⟨hsum, fun hmore => by omega⟩
  | succ m ih =>
    have hsum := sum_of_walks hused hoffset (h (fun _ _ => base) fun _ _ => hbase)
    refine paged_iff.mpr ⟨hsum, fun hmore => ?_⟩
    have hgap := gap_of_walks hused hoffset hsum hmore h
    have hat := next_page hused hoffset hsum
    have hnext := ih (next_nonneg (offset.toInt + used.toInt).toNat) (by rw [hat]; omega)
      fun order horder =>
        (walks_next_iff hused hoffset hsum hmore hgap horder).mp (h order horder)
    rw [hat] at hnext
    exact ⟨hgap, hnext⟩

theorem length_page (horder : Orders key found.rows (order used offset)) :
    (page order used offset).length =
      min used.toInt.toNat (found.rows.length - offset.toInt.toNat) := by
  rw [page, List.length_take, List.length_drop, horder.length_eq]

/-- A listing that reports the limit it uses. -/
theorem allComplete_iff_paged {offset : Bytes} (hused : 0 < used.toInt)
    (hoffset : 0 ≤ (atoi offset).toInt) :
    AllComplete key found (fun order o => listing found order used used (atoi o)) used offset ↔
      Paged key found.rows used.toInt.toNat (atoi offset).toInt.toNat := by
  have hwalks : ∀ order, (∃ n rows, walk (fun o => listing found order used used (atoi o)) n offset =
      some rows ∧ rows.Perm ((order used (atoi offset)).drop (atoi offset).toInt.toNat)) ↔
      Walks found order used (atoi offset) := fun order => by
    simp only [walk_listing, Walks]
  have hbound : found.rows.length ≤ (atoi offset).toInt.toNat + found.rows.length :=
    Nat.le_add_left _ _
  constructor
  · intro h
    exact paged_of_walks hused _ hoffset hbound fun order horder =>
      (hwalks order).mp (h order horder).2
  · intro h order horder
    refine ⟨⟨_, listing_eq hused hoffset, ?_⟩,
      (hwalks order).mpr (walks_of_paged horder hused _ hoffset hbound h)⟩
    have hsum := (paged_iff.mp h).1
    have hflag := more_iff found hoffset (Int.le_of_lt hused)
    simp only [decide_eq_true_iff, hflag, length_page (horder _ _)]
    omega

theorem zero_nonneg : 0 ≤ (0 : Int64).toInt := Int.le_refl 0

/-- A listing that reports 0: the request is repeated as it was. -/
theorem walkFrom_zero (hused : 0 < used.toInt) (hoffset : 0 ≤ offset.toInt)
    (hmore : offset.toInt.toNat < found.rows.length) (n : ℕ) :
    walkFrom found order used 0 n offset = none := by
  induction n generalizing offset with
  | zero => rfl
  | succ n ih =>
    have hflag := (more_iff found hoffset zero_nonneg).mpr (Or.inl hmore)
    have hlt := offset.toInt_lt
    have hsame : (offset.toInt + (0 : Int64).toInt).toNat = offset.toInt.toNat :=
      congrArg Int.toNat (Int.add_zero _)
    have hat := next_toInt offset.toInt.toNat (by omega)
    have hnext := ih (next_nonneg (offset.toInt + (0 : Int64).toInt).toNat) (by
      rw [hsame, hat]
      exact hmore)
    rw [walkFrom_of_more hused hoffset hflag, hnext]
    rfl

theorem allComplete_zero_iff {offset : Bytes} (hused : 0 < used.toInt)
    (hoffset : 0 ≤ (atoi offset).toInt) :
    AllComplete key found (fun order o => listing found order used 0 (atoi o)) used offset ↔
      found.rows.length ≤ (atoi offset).toInt.toNat := by
  constructor
  · intro h
    by_contra hmore
    obtain ⟨base, hbase⟩ := exists_orders key found.rows
    obtain ⟨-, n, rows, hwalk, -⟩ := h (fun _ _ => base) fun _ _ => hbase
    rw [walk_listing, walkFrom_zero hused hoffset (by omega)] at hwalk
    cases hwalk
  · intro hend order horder
    have hflag := mt (more_iff found hoffset zero_nonneg).mp (by
      have := (atoi offset).toInt_lt
      have hzero : (0 : Int64).toInt = 0 := rfl
      omega)
    refine ⟨⟨_, listing_eq hused hoffset, ?_⟩, 1, page order used (atoi offset), ?_, ?_⟩
    · simp only [decide_eq_true_iff, hflag, false_iff, length_page (horder _ _)]
      omega
    · rw [walk_listing, walkFrom_of_not_more hused hoffset hflag]
    · have hlen := (horder used (atoi offset)).length_eq
      rw [page, List.drop_eq_nil_of_le (by omega), List.take_nil]

end Pages

/-! ### The listings of the API -/

theorem pageLimit_pos (limit : Int64) : 0 < (pageLimit limit).toInt := by
  rw [pageLimit]
  split
  · decide
  · rename_i h
    rw [Int64.le_iff_toInt_le] at h
    exact Int.not_le.mp h

theorem pageLimit_of_pos {limit : Int64} (h : 0 < limit.toInt) : pageLimit limit = limit := by
  rw [pageLimit, if_neg]
  rw [Int64.le_iff_toInt_le]
  exact Int.not_le.mpr h

/- An absent value is 0, as it is in the other listings. -/
theorem handleQueryAudit_eq (tb : Stored (AuditEvent ℕ)) (q : AuditQuery)
    (order : Choice (AuditEvent ℕ)) (limit offset : Bytes) :
    handleQueryAudit tb q order limit offset =
      listing (tb.filter q.selects) order (pageLimit (atoi limit)) (atoi limit) (atoi offset) := by
  have habsent : ∀ b : Bytes, (if b = [] then 0 else atoi b) = atoi b := fun b => by
    split
    · rename_i h
      rw [h]
      rfl
    · rfl
  simp only [handleQueryAudit, habsent]
  rfl

/-- The node and task listings are complete iff no sum is out of range and no page ends within
rows of one moment. The audit listing also reports a limit of 0 where it used 50, and is then
complete only behind the last row. -/
theorem listings_complete_iff (limit offset : Bytes) (hlimit : 0 ≤ (atoi limit).toInt)
    (hoffset : 0 ≤ (atoi offset).toInt) :
    (∀ tb f, AllComplete NodeRow.createdAt (tb.filter (NodeFilter.selects f))
        (fun order => handleListNodes tb f order limit) (pageLimit (atoi limit)) offset ↔
      Paged NodeRow.createdAt (tb.filter f.selects).rows (pageLimit (atoi limit)).toInt.toNat
        (atoi offset).toInt.toNat) ∧
    (∀ tb tenantID statusFilter taskType,
      AllComplete Task.createdAt (tb.filter (Table.selected tenantID statusFilter taskType))
        (fun order => handleListTasks tb tenantID statusFilter taskType order limit)
        (pageLimit (atoi limit)) offset ↔
      Paged Task.createdAt (tb.filter (Table.selected tenantID statusFilter taskType)).rows
        (pageLimit (atoi limit)).toInt.toNat (atoi offset).toInt.toNat) ∧
    ∀ tb q, AllComplete AuditEvent.createdAt (tb.filter (AuditQuery.selects q))
        (fun order => handleQueryAudit tb q order limit) (pageLimit (atoi limit)) offset ↔
      if (atoi limit).toInt = 0 then
        (tb.filter q.selects).rows.length ≤ (atoi offset).toInt.toNat
      else Paged AuditEvent.createdAt (tb.filter q.selects).rows (atoi limit).toInt.toNat
        (atoi offset).toInt.toNat := by
  have hused := pageLimit_pos (atoi limit)
  refine ⟨fun _ _ => allComplete_iff_paged hused hoffset,
    fun _ _ _ _ => allComplete_iff_paged hused hoffset, fun tb q => ?_⟩
  rw [funext fun order => funext (handleQueryAudit_eq tb q order limit)]
  split
  · rename_i hzero
    rw [show atoi limit = 0 from Int64.toInt.inj hzero]
    exact allComplete_zero_iff (pageLimit_pos 0) hoffset
  · rw [pageLimit_of_pos (show 0 < (atoi limit).toInt by omega)]
    exact allComplete_iff_paged (by omega) hoffset

/- Two events of different moments, and those without a filter. -/
def twoEvents : Stored (AuditEvent ℕ) where
  rows := [⟨lit "a", lit "t", lit "u", [], lit "node.create", lit "node", lit "n1", [], [],
      lit "success", 1⟩,
    ⟨lit "b", lit "t", lit "u", [], lit "node.create", lit "node", lit "n2", [], [],
      lit "success", 2⟩]
  nodup := by decide +kernel
  count := by decide

def anyEvent : AuditQuery := ⟨[], [], [], [], [], lit "t", 0, 0⟩

theorem listings_complete_one_by_one :
    AllComplete AuditEvent.createdAt (twoEvents.filter anyEvent.selects)
      (fun order => handleQueryAudit twoEvents anyEvent order (decimal 1))
      (pageLimit (atoi (decimal 1))) [] := by
  refine ((listings_complete_iff (decimal 1) [] (by decide) (by decide)).2.2 _ _).mpr ?_
  rw [if_neg (by decide)]
  have hpage : (atoi (decimal 1)).toInt.toNat = 1 := by decide
  have hstart : (atoi []).toInt.toNat = 0 := by decide
  rw [hpage, hstart]
  refine paged_iff.mpr ⟨by decide, fun _ => ⟨by decide +kernel, paged_iff.mpr ⟨by decide, ?_⟩⟩⟩
  exact fun h => absurd h (by decide +kernel)

/-- Without a limit, the request that returned both events says that there are more, and the
request that it asks to repeat is the same one. -/
theorem unlimited_audit_endless :
    Orders AuditEvent.createdAt (twoEvents.filter anyEvent.selects).rows twoEvents.rows.reverse ∧
    handleQueryAudit twoEvents anyEvent (fun _ _ => twoEvents.rows.reverse) [] [] =
      some ⟨twoEvents.rows.reverse, 2, 0, 0, true⟩ ∧
    ∀ n, walk (handleQueryAudit twoEvents anyEvent (fun _ _ => twoEvents.rows.reverse) []) n [] =
      none := by
  refine ⟨⟨by decide +kernel, by decide +kernel⟩, by decide +kernel, fun n => ?_⟩
  have h : ∀ o, handleQueryAudit twoEvents anyEvent (fun _ _ => twoEvents.rows.reverse) [] o =
      listing (twoEvents.filter anyEvent.selects) (fun _ _ => twoEvents.rows.reverse) 50 0
        (atoi o) := handleQueryAudit_eq _ _ _ []
  rw [funext h, walk_listing]
  exact walkFrom_zero (by decide) (by decide) (by decide +kernel) n

end EdgeDispatch.ControlPlane.Pagination
