import EdgeDispatch.Lib.Csv
import EdgeDispatch.Lib.GoStrconv
import EdgeDispatch.Lib.GoStrings

/-! # The audit log as a CSV file (internal/controlplane/admin_api.go:1328-1359)

What `handleExportAudit` writes for the events of its query, unless JSON is asked for. -/

namespace EdgeDispatch.ControlPlane.AuditExport
open Lib.ByteString Lib.GoStrings Lib.GoStrconv
open Lib

/-! ### Times -/

/-- A time as the calendar and the clock of its location have it; `offset` is in seconds east
of UTC. -/
structure Time where
  year : ℤ
  month : ℕ
  day : ℕ
  hour : ℕ
  min : ℕ
  sec : ℕ
  offset : ℤ

/- Package time: the sign stands in front of the padding. -/
def appendInt (x : ℤ) (width : ℕ) : Bytes :=
  (if x < 0 then [45] else []) ++
    (List.replicate (width - (decimal x.natAbs).length) 48 ++ decimal x.natAbs)

def formatZone (offset : ℤ) : Bytes :=
  if offset = 0 then lit "Z"
  else
    let zone := offset.tdiv 60
    (if zone < 0 then lit "-" else lit "+") ++ appendInt (zone.natAbs / 60 : ℕ) 2 ++ lit ":" ++
      appendInt (zone.natAbs % 60 : ℕ) 2

/- `t.Format(time.RFC3339)` -/
def formatRFC3339 (t : Time) : Bytes :=
  appendInt t.year 4 ++ lit "-" ++ appendInt t.month 2 ++ lit "-" ++ appendInt t.day 2 ++ lit "T" ++
    appendInt t.hour 2 ++ lit ":" ++ appendInt t.min 2 ++ lit ":" ++ appendInt t.sec 2 ++
    formatZone t.offset

/-! ### The export -/

/-- With times of type `τ`. -/
structure AuditEvent (τ : Type) where
  id : Bytes
  tenantID : Bytes
  actorID : Bytes
  actorEmail : Bytes
  action : Bytes
  resourceType : Bytes
  resourceID : Bytes
  requestID : Bytes
  sourceIP : Bytes
  result : Bytes
  createdAt : τ
  deriving DecidableEq

/- `strings.ContainsAny`, for characters of one byte. -/
def containsAny (s chars : Bytes) : Bool := s.any fun b => chars.contains b

def csvEscape (s : Bytes) : Bytes :=
  if containsAny s (lit ",\"\n") then
    lit "\"" ++ replaceAll s (lit "\"") (lit "\"\"") ++ lit "\""
  else s

def line (e : AuditEvent Time) : Bytes :=
  csvEscape e.id ++ lit "," ++ formatRFC3339 e.createdAt ++ lit "," ++ csvEscape e.tenantID ++
    lit "," ++ csvEscape e.actorID ++ lit "," ++ csvEscape e.actorEmail ++ lit "," ++
    csvEscape e.action ++ lit "," ++ csvEscape e.resourceType ++ lit "," ++
    csvEscape e.resourceID ++ lit "," ++ csvEscape e.result ++ lit "," ++ csvEscape e.sourceIP ++
    lit "," ++ csvEscape e.requestID ++ lit "\n"

def byteOrderMark : Bytes := [0xEF, 0xBB, 0xBF]

def header : Bytes :=
  lit ("ID,CreatedAt,TenantID,ActorID,ActorEmail,Action,ResourceType,ResourceID,Result," ++
    "SourceIP,RequestID\n")

def handleExportAudit (events : List (AuditEvent Time)) : Bytes :=
  byteOrderMark ++ header ++ events.flatMap line

/-! ### What is asked of it -/

/- The strings of an event, in the order of the columns; the time stands behind the first. -/
def strings (e : AuditEvent Time) : List Bytes :=
  [e.id, e.tenantID, e.actorID, e.actorEmail, e.action, e.resourceType, e.resourceID, e.result,
    e.sourceIP, e.requestID]

def fields (e : AuditEvent Time) : List Bytes :=
  [e.id, formatRFC3339 e.createdAt, e.tenantID, e.actorID, e.actorEmail, e.action, e.resourceType,
    e.resourceID, e.result, e.sourceIP, e.requestID]

/- The text behind the byte order mark and the header line. -/
def body (events : List (AuditEvent Time)) : Bytes :=
  (handleExportAudit events).drop (byteOrderMark ++ header).length

/-- The text is a CSV file, and reading it gives back the fields of each event. -/
def Lossless (events : List (AuditEvent Time)) : Prop :=
  (∃ records, Csv.File (body events) records) ∧
    Csv.parse (body events) = some (events.map fields)

/-- A CR is only in strings that are put in quotes for another byte. -/
def Clean (s : Bytes) : Prop := 13 ∈ s → 44 ∈ s ∨ 34 ∈ s ∨ 10 ∈ s

instance (s : Bytes) : Decidable (Clean s) := inferInstanceAs (Decidable (_ → _))

/-! ### Times have no special bytes -/

theorem special_digit {d : ℕ} (h : d < 10) : Csv.special (digit d) = false := by
  have hall : ∀ d < 10, Csv.special (digit d) = false := by decide
  exact hall d h

theorem appendInt_plain (x : ℤ) (width : ℕ) : ∀ b ∈ appendInt x width, Csv.special b = false := by
  intro b hb
  rcases List.mem_append.mp hb with hsign | hdigits
  · split at hsign
    · rw [List.mem_singleton.mp hsign]
      rfl
    · cases hsign
  · obtain ⟨d, hd, rfl⟩ := padded_digits _ _ b hdigits
    exact special_digit hd

theorem formatZone_plain (offset : ℤ) : ∀ b ∈ formatZone offset, Csv.special b = false := by
  unfold formatZone
  split
  · decide +kernel
  · have hsign : ∀ b ∈ (if offset.tdiv 60 < 0 then lit "-" else lit "+"),
        Csv.special b = false := by
      split <;> decide +kernel
    have hcolon : ∀ b ∈ lit ":", Csv.special b = false := by decide +kernel
    simp only [List.forall_mem_append]
    exact ⟨⟨⟨hsign, appendInt_plain _ _⟩, hcolon⟩, appendInt_plain _ _⟩

theorem formatRFC3339_plain (t : Time) : ∀ b ∈ formatRFC3339 t, Csv.special b = false := by
  have hdash : ∀ b ∈ lit "-", Csv.special b = false := by decide +kernel
  have ht : ∀ b ∈ lit "T", Csv.special b = false := by decide +kernel
  have hcolon : ∀ b ∈ lit ":", Csv.special b = false := by decide +kernel
  have hnumber := appendInt_plain
  simp only [formatRFC3339, List.forall_mem_append]
  exact ⟨⟨⟨⟨⟨⟨⟨⟨⟨⟨⟨hnumber _ _, hdash⟩, hnumber _ _⟩, hdash⟩, hnumber _ _⟩, ht⟩, hnumber _ _⟩,
    hcolon⟩, hnumber _ _⟩, hcolon⟩, hnumber _ _⟩, formatZone_plain _⟩

/-! ### One field -/

variable {s : Bytes}

theorem replaceFrom_quote {fuel : ℕ} (h : s.length ≤ fuel) :
    replaceFrom [34] [34, 34] fuel s = Csv.double s := by
  induction fuel generalizing s with
  | zero =>
    rw [List.eq_nil_of_length_eq_zero (Nat.le_zero.mp h)]
    rfl
  | succ fuel ih =>
    cases s with
    | nil => rfl
    | cons b rest =>
      have hrest := ih (Nat.le_of_succ_le_succ h)
      by_cases hb : b = 34
      · simp [replaceFrom, hasPrefix, hb, hrest, Csv.double]
      · simp [replaceFrom, hasPrefix, hb, Ne.symm hb, hrest, Csv.double]

theorem containsAny_iff (s : Bytes) :
    containsAny s (lit ",\"\n") = true ↔ 44 ∈ s ∨ 34 ∈ s ∨ 10 ∈ s := by
  have hchars : lit ",\"\n" = [44, 34, 10] := by decide
  rw [hchars, containsAny, List.any_eq_true]
  constructor
  · rintro ⟨b, hb, hmem⟩
    simp only [List.contains_cons, List.contains_nil, Bool.or_false, Bool.or_eq_true,
      beq_iff_eq] at hmem
    rcases hmem with rfl | rfl | rfl
    · exact Or.inl hb
    · exact Or.inr (Or.inl hb)
    · exact Or.inr (Or.inr hb)
  · rintro (h | h | h)
    · exact ⟨44, h, rfl⟩
    · exact ⟨34, h, rfl⟩
    · exact ⟨10, h, rfl⟩

theorem csvEscape_of_any (h : 44 ∈ s ∨ 34 ∈ s ∨ 10 ∈ s) :
    csvEscape s = 34 :: Csv.double s ++ [34] := by
  have hquote : lit "\"" = [34] := by decide
  have htwo : lit "\"\"" = [34, 34] := by decide
  rw [csvEscape, if_pos ((containsAny_iff s).mpr h), hquote, htwo, replaceAll,
    replaceFrom_quote (Nat.le_refl _)]
  rfl

theorem csvEscape_of_none (h : ¬ (44 ∈ s ∨ 34 ∈ s ∨ 10 ∈ s)) : csvEscape s = s :=
  if_neg (mt (containsAny_iff s).mp h)

theorem special_eq_false_iff (b : Byte) :
    Csv.special b = false ↔ b ≠ 34 ∧ b ≠ 44 ∧ b ≠ 13 ∧ b ≠ 10 := by
  simp [Csv.special, and_assoc]

theorem clean_of_plain (h : ∀ b ∈ s, Csv.special b = false) : Clean s := fun hcr =>
  absurd (h 13 hcr) (by decide)

theorem csvEscape_of_plain (h : ∀ b ∈ s, Csv.special b = false) : csvEscape s = s := by
  refine csvEscape_of_none ?_
  rintro (hb | hb | hb)
  · exact absurd (h 44 hb) (by decide)
  · exact absurd (h 34 hb) (by decide)
  · exact absurd (h 10 hb) (by decide)

theorem Clean.field (h : Clean s) : Csv.Field (csvEscape s) s := by
  by_cases hany : 44 ∈ s ∨ 34 ∈ s ∨ 10 ∈ s
  · rw [csvEscape_of_any hany]
    exact .quoted s
  · rw [csvEscape_of_none hany]
    refine .plain fun b hb => (special_eq_false_iff b).mpr ⟨?_, ?_, ?_, ?_⟩
    · rintro rfl
      exact hany (Or.inr (Or.inl hb))
    · rintro rfl
      exact hany (Or.inl hb)
    · rintro rfl
      exact hany (h hb)
    · rintro rfl
      exact hany (Or.inr (Or.inr hb))

/- A string with a CR that is not put in quotes, up to its first CR. -/
theorem split_of_not_clean (h : ¬ Clean s) :
    csvEscape s = s ∧ ∃ a b, s = a ++ 13 :: b ∧ (∀ x ∈ a, Csv.special x = false) ∧ 10 ∉ b := by
  obtain ⟨hcr, hany⟩ := Classical.not_imp.mp h
  refine ⟨csvEscape_of_none hany, ?_⟩
  obtain ⟨a, b, rfl, ha⟩ := List.eq_append_cons_of_mem hcr
  have hfront {x : Byte} (hx : x ∈ a) : x ∈ a ++ 13 :: b := List.mem_append_left _ hx
  refine ⟨a, b, rfl, fun x hx => (special_eq_false_iff x).mpr ⟨?_, ?_, ?_, ?_⟩, fun hlf => ?_⟩
  · rintro rfl
    exact hany (Or.inr (Or.inl (hfront hx)))
  · rintro rfl
    exact hany (Or.inl (hfront hx))
  · rintro rfl
    exact ha hx
  · rintro rfl
    exact hany (Or.inr (Or.inr (hfront hx)))
  · exact hany (Or.inr (Or.inr (List.mem_append_right _ (List.mem_cons_of_mem _ hlf))))

/-! ### One record -/

def record (values : List Bytes) : Bytes := join 44 (values.map csvEscape) ++ [10]

theorem record_singleton (s : Bytes) : record [s] = csvEscape s ++ [10] := by
  rw [record, List.map_singleton, join_singleton]

theorem record_cons (s t : Bytes) (values : List Bytes) :
    record (s :: t :: values) = csvEscape s ++ 44 :: record (t :: values) := by
  simp only [record, List.map_cons, join_cons_cons, List.append_assoc, List.cons_append]

theorem line_eq (e : AuditEvent Time) : line e = record (fields e) := by
  have htime := csvEscape_of_plain (formatRFC3339_plain e.createdAt)
  have hcomma : lit "," = [44] := by decide
  have hlf : lit "\n" = [10] := by decide
  unfold line fields
  rw [hcomma, hlf]
  simp only [record_cons, record_singleton, htime]
  simp only [List.append_assoc]
  simp only [List.singleton_append]

section Scan
variable {mode : Csv.Mode} {before : List Bytes} (hmode : mode = .line ∨ mode = .field)
include hmode

theorem scan_clean_comma {s : Bytes} (h : Clean s) (rest : Bytes) :
    Csv.scan mode [] before (csvEscape s ++ 44 :: rest) =
      Csv.scan .field [] (before ++ [s]) rest := by
  rw [Csv.scan_field hmode h.field rfl (by decide), Csv.scan_closed_comma]

theorem scan_clean_lf {s : Bytes} (h : Clean s) (rest : Bytes) :
    Csv.scan mode [] before (csvEscape s ++ 10 :: rest) =
      (Csv.scan .line [] [] rest).map ((before ++ [s]) :: ·) := by
  rw [Csv.scan_field hmode h.field rfl (by decide), Csv.scan_closed_lf]

/- Behind a bare CR the reader takes nothing but an LF, and that ends the record early. -/
theorem scan_unclean {s : Bytes} (h : ¬ Clean s) (d : Byte) (rest : Bytes)
    {records : List (List Bytes)}
    (hscan : Csv.scan mode [] before (csvEscape s ++ d :: rest) = some records) :
    d = 10 ∧ ∃ a more, a ≠ s ∧ records = (before ++ [a]) :: more := by
  obtain ⟨hplain, a, b, rfl, ha, hb⟩ := split_of_not_clean h
  rw [hplain, List.append_assoc, List.cons_append,
    Csv.scan_field hmode (.plain ha) rfl (by decide), Csv.scan_closed_cr] at hscan
  cases b with
  | cons c b =>
    have hc : c ≠ 10 := fun he => hb (he ▸ List.mem_cons_self)
    have hfail : Csv.move .cr c = .fail := if_neg hc
    rw [List.cons_append, Csv.scan_fail hfail] at hscan
    cases hscan
  | nil =>
    by_cases hd : d = 10
    · rw [hd, List.nil_append, Csv.scan_cr_lf] at hscan
      obtain ⟨more, -, rfl⟩ := Option.map_eq_some_iff.mp hscan
      refine ⟨hd, a, more, fun he => ?_, rfl⟩
      have hlen := congrArg List.length he
      rw [List.length_append, List.length_singleton] at hlen
      omega
    · have hfail : Csv.move .cr d = .fail := if_neg hd
      rw [List.nil_append, Csv.scan_fail hfail] at hscan
      cases hscan

end Scan

theorem scan_record_of_clean {values : List Bytes} (hne : values ≠ [])
    (h : ∀ s ∈ values, Clean s) {mode : Csv.Mode} (hmode : mode = .line ∨ mode = .field)
    (before : List Bytes) (rest : Bytes) :
    Csv.scan mode [] before (record values ++ rest) =
      (Csv.scan .line [] [] rest).map ((before ++ values) :: ·) := by
  induction values generalizing mode before with
  | nil => exact absurd rfl hne
  | cons s values ih =>
    have hs : Clean s := h s List.mem_cons_self
    cases values with
    | nil =>
      rw [record_singleton, List.append_assoc, List.singleton_append]
      exact scan_clean_lf hmode hs rest
    | cons t values =>
      rw [record_cons, List.append_assoc, List.cons_append, scan_clean_comma hmode hs,
        ih (List.cons_ne_nil _ _) (fun x hx => h x (List.mem_cons_of_mem s hx)) (Or.inr rfl),
        List.append_assoc, List.singleton_append]

theorem scan_record_of_unclean {values : List Bytes} (hs : s ∈ values) (hunclean : ¬ Clean s)
    {mode : Csv.Mode} (hmode : mode = .line ∨ mode = .field) (before : List Bytes) (rest : Bytes)
    (more : List (List Bytes)) :
    Csv.scan mode [] before (record values ++ rest) ≠ some ((before ++ values) :: more) := by
  induction values generalizing mode before with
  | nil => cases hs
  | cons t values ih =>
    intro hscan
    cases values with
    | nil =>
      rw [record_singleton, List.append_assoc, List.singleton_append] at hscan
      rw [← List.mem_singleton.mp hs] at hscan
      obtain ⟨-, a, more', hne, heq⟩ := scan_unclean hmode hunclean 10 rest hscan
      obtain ⟨hvalues, -⟩ := List.cons.inj heq
      exact hne (List.cons.inj (List.append_cancel_left hvalues)).1.symm
    | cons u values =>
      rw [record_cons, List.append_assoc, List.cons_append] at hscan
      by_cases ht : Clean t
      · have hlater : s ∈ u :: values := (List.mem_cons.mp hs).resolve_left fun he =>
          hunclean (he ▸ ht)
        rw [scan_clean_comma hmode ht] at hscan
        refine ih hlater (Or.inr rfl) (before ++ [t]) ?_
        rw [hscan, List.append_assoc, List.singleton_append]
      · obtain ⟨hd, -⟩ := scan_unclean hmode ht 44 _ hscan
        exact absurd hd (by decide)

/-! ### The file -/

theorem body_eq (events : List (AuditEvent Time)) : body events = events.flatMap line :=
  List.drop_left

theorem fields_ne_nil (e : AuditEvent Time) : fields e ≠ [] := List.cons_ne_nil _ _

theorem parse_body_iff (events : List (AuditEvent Time)) :
    Csv.parse (events.flatMap line) = some (events.map fields) ↔
      ∀ e ∈ events, ∀ s ∈ fields e, Clean s := by
  induction events with
  | nil => exact iff_of_true rfl fun _ he => absurd he List.not_mem_nil
  | cons e events ih =>
    rw [List.flatMap_cons, line_eq, List.map_cons, List.forall_mem_cons, Csv.parse]
    by_cases hclean : ∀ s ∈ fields e, Clean s
    · rw [scan_record_of_clean (fields_ne_nil e) hclean (Or.inl rfl), and_iff_right hclean,
        ← ih, Csv.parse]
      simp
    · obtain ⟨s, hs, hunclean⟩ : ∃ s ∈ fields e, ¬ Clean s := by simpa using hclean
      exact iff_of_false (scan_record_of_unclean hs hunclean (Or.inl rfl) [] _ _)
        fun h => hclean h.1

theorem clean_fields_iff (e : AuditEvent Time) :
    (∀ s ∈ fields e, Clean s) ↔ ∀ s ∈ strings e, Clean s := by
  have htime := clean_of_plain (formatRFC3339_plain e.createdAt)
  simp [fields, strings, htime]

/-- For every list of events: the export loses nothing iff no string of an event has a CR but no
comma, quote or LF. -/
theorem export_lossless_iff (events : List (AuditEvent Time)) :
    Lossless events ↔ ∀ e ∈ events, ∀ s ∈ strings e, Clean s := by
  have hclean : (∀ e ∈ events, ∀ s ∈ strings e, Clean s) ↔
      ∀ e ∈ events, ∀ s ∈ fields e, Clean s :=
    forall₂_congr fun e _ => (clean_fields_iff e).symm
  rw [Lossless, body_eq, hclean, ← parse_body_iff]
  exact and_iff_right_of_imp fun hparse => ⟨_, Csv.parse_eq_some_iff.mp hparse⟩

def change (resourceID requestID : Bytes) : AuditEvent Time :=
  ⟨lit "e1", lit "t1", lit "u1", lit "u1@example", lit "update", lit "node", resourceID, requestID,
    lit "10.0.0.1", lit "success", ⟨2024, 5, 1, 8, 30, 0, 0⟩⟩

/-- A CR within a resource id: the text is no CSV file. A CR at the end of a request id: it is
taken for a part of the line end, and the id comes back without it. -/
theorem bare_cr_lost :
    (¬ ∃ records, Csv.File (body [change (lit "a\rb") []]) records) ∧
      ¬ Lossless [change (lit "a\rb") []] ∧
      Csv.parse (body [change [] (lit "r\r")]) = some [fields (change [] (lit "r"))] ∧
      ¬ Lossless [change [] (lit "r\r")] := by
  have hnone : Csv.parse (body [change (lit "a\rb") []]) = none := by
    rw [body_eq]
    decide +kernel
  have hfile : ¬ ∃ records, Csv.File (body [change (lit "a\rb") []]) records := by
    rintro ⟨records, hrecords⟩
    rw [Csv.parse_eq_some_iff.mpr hrecords] at hnone
    cases hnone
  have hshort : Csv.parse (body [change [] (lit "r\r")]) = some [fields (change [] (lit "r"))] := by
    rw [body_eq]
    decide +kernel
  refine ⟨hfile, fun h => hfile h.1, hshort, fun h => ?_⟩
  have hsame := hshort.symm.trans h.2
  exact absurd hsame (by decide +kernel)

end EdgeDispatch.ControlPlane.AuditExport
