import EdgeDispatch.Dns.Response

/-! # From a query to the key it asks for (internal/dns/server.go:173-202, 251-281)

`parseQuestion` goes over the labels of the name; `handleQuery` looks whether the name is in
the configured zone and takes what stands before the zone for the key. -/

namespace EdgeDispatch.Dns.Question
open Lib.ByteString Lib.GoSlice Lib.GoStrings
open Dns.Response

/-! ### Every read of the loop -/

inductive Turn where
  | done (parts : List Bytes) (offset : ℕ)
  | failed (err : ParseError)
  | label (parts : List Bytes) (offset : ℕ)

/- One turn of the loop, with reads that panic outside of the query. -/
def labelTurn (query : Bytes) (parts : List Bytes) (offset : ℕ) : Except Panic Turn :=
  if query.length ≤ offset then .ok (.failed .offsetOverflow)
  else do
    let length ← readAt query offset
    if length = 0 then return .done parts (offset + 1)
    else if query.length < offset + 1 + length.toNat then return .failed .labelOverflow
    else
      let label ← readRange query (offset + 1) (offset + 1 + length.toNat)
      return .label (parts ++ [label]) (offset + 1 + length.toNat)

/- At most `n` turns; `none` if the loop is not over then. -/
def labelTurns (query : Bytes) :
    ℕ → List Bytes → ℕ → Except Panic (Option (Except ParseError (List Bytes × ℕ)))
  | 0, _, _ => .ok none
  | n + 1, parts, offset => do
    match ← labelTurn query parts offset with
    | .done parts offset => return some (.ok (parts, offset))
    | .failed err => return some (.error err)
    | .label parts offset => labelTurns query n parts offset

/- `parseQuestion` with at most `n` turns of its loop. -/
def questionTurns (n : ℕ) (query : Bytes) :
    Except Panic (Option (Except ParseError (Bytes × UInt16))) :=
  if query.length < 16 then .ok (some (.error .queryTooShort))
  else do
    match ← labelTurns query n [] 12 with
    | none => return none
    | some (.error err) => return some (.error err)
    | some (.ok (parts, offset)) =>
      if query.length < offset + 4 then return some (.error .noQtype)
      else
        let hi ← readAt query offset
        let lo ← readAt query (offset + 1)
        return some (.ok (List.intercalate [46] parts, hi.toUInt16 <<< 8 ||| lo.toUInt16))

/- One turn never panics. -/
theorem labelTurn_eq (query : Bytes) (parts : List Bytes) (offset : ℕ) :
    labelTurn query parts offset = .ok
      (match query[offset]? with
      | none => .failed .offsetOverflow
      | some length =>
        if length = 0 then .done parts (offset + 1)
        else if query.length < offset + 1 + length.toNat then .failed .labelOverflow
        else .label (parts ++ [(query.drop (offset + 1)).take length.toNat])
          (offset + 1 + length.toNat)) := by
  unfold labelTurn
  cases hread : query[offset]? with
  | none => rw [if_pos (List.getElem?_eq_none_iff.mp hread)]
  | some length =>
    have hlt : offset < query.length := (List.getElem?_eq_some_iff.mp hread).1
    rw [if_neg (by omega), readAt_ok hread]
    simp only [bind, Except.bind, pure, Except.pure]
    by_cases hzero : length = 0
    · rw [if_pos hzero, if_pos hzero]
    · by_cases hover : query.length < offset + 1 + length.toNat
      · rw [if_neg hzero, if_neg hzero, if_pos hover, if_pos hover]
      · have hfits : offset + 1 + length.toNat ≤ query.length := by omega
        rw [if_neg hzero, if_neg hzero, if_neg hover, if_neg hover, readRange_ok hfits]

/-- The loop is over within as many turns as there are bytes left and one more, reads
nothing outside of the query and does what `labelLoop` does. -/
theorem labelTurns_eq (query : Bytes) {n offset : ℕ} (fuel : ℕ) (parts : List Bytes)
    (hoffset : offset ≤ query.length) (hn : query.length < offset + n)
    (hfuel : query.length < offset + fuel) :
    labelTurns query n parts offset = .ok (some (labelLoop query fuel offset parts)) := by
  induction n generalizing fuel offset parts with
  | zero => omega
  | succ n ih =>
    obtain ⟨fuel, rfl⟩ : ∃ m, fuel = m + 1 := ⟨fuel - 1, by omega⟩
    unfold labelTurns labelLoop
    rw [labelTurn_eq]
    cases query[offset]? with
    | none => rfl
    | some length =>
      by_cases hzero : length = 0
      · simp only [if_pos hzero]
        rfl
      · by_cases hover : query.length < offset + 1 + length.toNat
        · simp only [if_neg hzero, if_pos hover]
          rfl
        · simp only [if_neg hzero, if_neg hover]
          exact ih fuel _ (by omega) (by omega) (by omega)

theorem questionTurns_eq (query : Bytes) {n : ℕ} (hn : query.length ≤ n) :
    questionTurns n query = .ok (some (parseQuestion query)) := by
  unfold questionTurns parseQuestion parseName
  by_cases hshort : query.length < 16
  · rw [if_pos hshort, if_pos hshort]
    rfl
  · rw [if_neg hshort, if_neg hshort,
      labelTurns_eq query query.length [] (by omega) (by omega) (by omega)]
    cases hloop : labelLoop query query.length 12 [] with
    | error err => rfl
    | ok r =>
      obtain ⟨parts, offset⟩ := r
      simp only [bind, Except.bind, pure, Except.pure]
      by_cases hqtype : query.length < offset + 4
      · rw [if_pos hqtype, if_pos hqtype]
      · rw [if_neg hqtype, if_neg hqtype]
        have hread : ∀ i < query.length, readAt query i = .ok (query.getD i 0) := fun i hi =>
          readAt_ok (by rw [List.getD_eq_getElem?_getD, List.getElem?_eq_getElem hi]; rfl)
        rw [hread offset (by omega), hread (offset + 1) (by omega)]

/-! ### Reading back what was encoded -/

def encodeLabel (label : Bytes) : Bytes := UInt8.ofNat label.length :: label

def wordBytes (w : UInt16) : Bytes := [(w >>> 8).toUInt8, w.toUInt8]

/- A header, the labels of a name, the type, the class and whatever follows. -/
def encodeQuery (header : Bytes) (labels : List Bytes) (qtype qclass : UInt16)
    (trailing : Bytes) : Bytes :=
  header ++ labels.flatMap encodeLabel ++ 0 :: (wordBytes qtype ++ wordBytes qclass ++ trailing)

/-- What the wire format allows for a label. -/
def ValidLabel (label : Bytes) : Prop := 1 ≤ label.length ∧ label.length ≤ 63

theorem wordBytes_value (w : UInt16) :
    (w >>> 8).toUInt8.toUInt16 <<< 8 ||| w.toUInt8.toUInt16 = w := by
  have hw := w.toNat_lt
  have hhigh : w.toNat >>> 8 % 2 ^ 8 = w.toNat >>> 8 := by
    rw [Nat.shiftRight_eq_div_pow]
    omega
  have hwhole : w.toNat >>> 8 <<< 8 % 2 ^ 16 = w.toNat >>> 8 <<< 8 := by
    rw [Nat.shiftRight_eq_div_pow, Nat.shiftLeft_eq]
    omega
  apply UInt16.toNat_inj.mp
  calc ((w >>> 8).toUInt8.toUInt16 <<< 8 ||| w.toUInt8.toUInt16).toNat
      = (w.toNat >>> 8 % 2 ^ 8) <<< 8 % 2 ^ 16 ||| w.toNat % 2 ^ 8 := by simp
    _ = w.toNat >>> 8 <<< 8 + w.toNat % 2 ^ 8 := by
        rw [hhigh, hwhole, Nat.shiftLeft_add_eq_or_of_lt (Nat.mod_lt _ (by decide))]
    _ = w.toNat := by
        rw [Nat.shiftRight_eq_div_pow, Nat.shiftLeft_eq]
        omega

/- One label: the loop stands behind `before`, and then behind the label as well. -/
theorem labelLoop_label {label : Bytes} (hlabel : ValidLabel label) (fuel : ℕ)
    (before rest : Bytes) (parts : List Bytes) :
    labelLoop (before ++ encodeLabel label ++ rest) (fuel + 1) before.length parts =
      labelLoop (before ++ encodeLabel label ++ rest) fuel (before ++ encodeLabel label).length
        (parts ++ [label]) := by
  obtain ⟨hpos, hle⟩ := hlabel
  have hlen : (UInt8.ofNat label.length).toNat = label.length := by
    rw [UInt8.toNat_ofNat']
    omega
  have hnonzero : UInt8.ofNat label.length ≠ 0 := by
    intro hzero
    rw [hzero, UInt8.toNat_zero] at hlen
    omega
  have hquery : before ++ encodeLabel label ++ rest =
      before ++ UInt8.ofNat label.length :: (label ++ rest) := by
    simp [encodeLabel]
  have hfits : ¬ (before ++ encodeLabel label ++ rest).length < before.length + 1 + label.length := by
    simp only [encodeLabel, List.length_append, List.length_cons]
    omega
  have hbytes : ((before ++ encodeLabel label ++ rest).drop (before.length + 1)).take label.length =
      label := by
    rw [hquery, ← List.drop_drop, List.drop_left, List.drop_one, List.tail_cons, List.take_left]
  have hread : (before ++ encodeLabel label ++ rest)[before.length]? =
      some (UInt8.ofNat label.length) := by
    rw [hquery, List.getElem?_append_right (le_refl _), Nat.sub_self, List.getElem?_cons_zero]
  have hoffset : before.length + 1 + label.length = (before ++ encodeLabel label).length := by
    simp only [encodeLabel, List.length_append, List.length_cons]
    omega
  rw [labelLoop, hread]
  simp only [if_neg hnonzero, hlen]
  rw [if_neg hfits, hbytes, hoffset]

theorem labelLoop_labels {labels : List Bytes} (hlabels : ∀ l ∈ labels, ValidLabel l)
    {fuel : ℕ} (hfuel : labels.length < fuel) (before rest : Bytes) (parts : List Bytes) :
    labelLoop (before ++ labels.flatMap encodeLabel ++ 0 :: rest) fuel before.length parts =
      .ok (parts ++ labels, (before ++ labels.flatMap encodeLabel).length + 1) := by
  obtain ⟨fuel, rfl⟩ : ∃ m, fuel = m + 1 := ⟨fuel - 1, by omega⟩
  induction labels generalizing fuel before parts with
  | nil => simp [labelLoop]
  | cons l labels ih =>
    obtain ⟨fuel, rfl⟩ : ∃ m, fuel = m + 1 := ⟨fuel - 1, by simp at hfuel; omega⟩
    have hquery : before ++ (l :: labels).flatMap encodeLabel =
        before ++ encodeLabel l ++ labels.flatMap encodeLabel := by
      rw [List.flatMap_cons, List.append_assoc]
    have hrest := ih (fun l' hl' => hlabels l' (List.mem_cons_of_mem l hl'))
      (before ++ encodeLabel l) (parts ++ [l]) fuel (Nat.lt_of_succ_lt_succ hfuel)
    have hturn := labelLoop_label (hlabels l List.mem_cons_self) (fuel + 1) before
      (labels.flatMap encodeLabel ++ 0 :: rest) parts
    rw [← List.append_assoc, hrest] at hturn
    rw [hquery, hturn, List.append_assoc parts, List.singleton_append]

theorem length_le_encodeLabels (labels : List Bytes) :
    labels.length ≤ (labels.flatMap encodeLabel).length := by
  induction labels with
  | nil => exact Nat.zero_le _
  | cons l labels ih =>
    simp only [List.flatMap_cons, List.length_append, List.length_cons, encodeLabel]
    omega

theorem encodeQuery_length (header : Bytes) (labels : List Bytes) (qtype qclass : UInt16)
    (trailing : Bytes) :
    (encodeQuery header labels qtype qclass trailing).length =
      (header ++ labels.flatMap encodeLabel).length + 1 + 4 + trailing.length := by
  simp only [encodeQuery, wordBytes, List.length_append, List.length_cons, List.length_nil]
  omega

theorem parseName_encodeQuery {header : Bytes} {labels : List Bytes} (hheader : header.length = 12)
    (hne : labels ≠ []) (hlabels : ∀ l ∈ labels, ValidLabel l) (qtype qclass : UInt16)
    (trailing : Bytes) :
    parseName (encodeQuery header labels qtype qclass trailing) =
      .ok (labels, (header ++ labels.flatMap encodeLabel).length + 1) := by
  have hpos := List.length_pos_iff.mpr hne
  have hflat := length_le_encodeLabels labels
  have hlen := encodeQuery_length header labels qtype qclass trailing
  rw [List.length_append] at hlen
  have hfuel : labels.length < (encodeQuery header labels qtype qclass trailing).length := by omega
  have hloop := labelLoop_labels hlabels hfuel header
    (wordBytes qtype ++ wordBytes qclass ++ trailing) []
  rw [hheader] at hloop
  rw [parseName, if_neg (by omega)]
  have hloop' : labelLoop (encodeQuery header labels qtype qclass trailing)
      (encodeQuery header labels qtype qclass trailing).length 12 [] =
        .ok (labels, (header ++ labels.flatMap encodeLabel).length + 1) := hloop
  rw [hloop']
  simp only [bind, Except.bind]
  rw [if_neg (by rw [List.length_append]; omega)]

/- The bytes behind the name. -/
theorem encodeQuery_getD (header : Bytes) (labels : List Bytes) (qtype qclass : UInt16)
    (trailing : Bytes) (i : ℕ) :
    (encodeQuery header labels qtype qclass trailing).getD
        ((header ++ labels.flatMap encodeLabel).length + 1 + i) 0 =
      (wordBytes qtype ++ wordBytes qclass ++ trailing).getD i 0 := by
  rw [List.getD_eq_getElem?_getD, List.getD_eq_getElem?_getD, encodeQuery,
    List.getElem?_append_right (by omega)]
  have hindex : (header ++ labels.flatMap encodeLabel).length + 1 + i -
      (header ++ labels.flatMap encodeLabel).length = i + 1 := by omega
  rw [hindex, List.getElem?_cons_succ]

/-- Whatever the query is, the loop ends and no read is outside of it; and a name that was
encoded is read back, with its type. -/
theorem parseQuestion_total_and_inverts :
    (∀ (query : Bytes) (n : ℕ), query.length ≤ n →
      questionTurns n query = .ok (some (parseQuestion query))) ∧
    ∀ (header : Bytes) (labels : List Bytes) (qtype qclass : UInt16) (trailing : Bytes),
      header.length = 12 → labels ≠ [] → (∀ l ∈ labels, ValidLabel l) →
        parseQuestion (encodeQuery header labels qtype qclass trailing) =
          .ok (join 46 labels, qtype) := by
  refine ⟨fun query n hn => questionTurns_eq query hn, ?_⟩
  intro header labels qtype qclass trailing hheader hne hlabels
  have hname := parseName_encodeQuery hheader hne hlabels qtype qclass trailing
  have hread := encodeQuery_getD header labels qtype qclass trailing
  have hvalue := wordBytes_value qtype
  rw [parseQuestion, hname]
  simp only [bind, Except.bind, pure, Except.pure]
  rw [hread 0, hread 1]
  simp only [wordBytes, List.cons_append, List.getD_cons_zero, List.getD_cons_succ, hvalue]
  rfl

theorem parseQuestion_inverts_of_example :
    (lit "0123456789ab").length = 12 ∧ (∀ l ∈ [lit "img", lit "cdn"], ValidLabel l) ∧
      parseQuestion (encodeQuery (lit "0123456789ab") [lit "img", lit "cdn"] 28 1 []) =
        .ok (lit "img.cdn", 28) := by
  have hheader : (lit "0123456789ab").length = 12 := by decide
  have hlabels : ∀ l ∈ [lit "img", lit "cdn"], ValidLabel l := by
    unfold ValidLabel
    decide
  exact ⟨hheader, hlabels, parseQuestion_total_and_inverts.2 _ _ 28 1 [] hheader (by simp) hlabels⟩

/-! ### The zone -/

/- What `handleQuery` does with a query: no answer, the answer that there is no such name, or
   to resolve a key. -/
inductive Decision where
  | ignore
  | nxdomain
  | resolve (resourceKey : Bytes) (qtype : UInt16)
  deriving DecidableEq

section Zone
variable (toLower : Bytes → Bytes) (zone : Bytes)

/- `strings.ToLower(strings.TrimSuffix(domain, "."))` -/
def queryName (domain : Bytes) : Bytes := toLower (trimSuffix domain [46])

/- The resource key of a name, `none` for a name of another zone. -/
def resourceKey (name : Bytes) : Option Bytes :=
  if hasSuffix name zone = false ∧ name ≠ zone then none
  else
    let key := trimSuffix name (46 :: zone)
    let key := if key = zone then [] else key
    some (trimSuffix key [46])

/- `handleQuery` up to the point where it looks for candidates. -/
def handleQuery (query : Bytes) : Decision :=
  if query.length < 12 then .ignore
  else
    match parseQuestion query with
    | .error _ => .ignore
    | .ok (domain, qtype) =>
      match resourceKey zone (queryName toLower domain) with
      | none => .nxdomain
      | some key => .resolve key qtype

/-- The name is the zone itself and has no key, or it is a key before the zone. -/
def InZone (name key : Bytes) : Prop := (name = zone ∧ key = []) ∨ name = key ++ 46 :: zone

/-- A name that ends as the zone does is the zone, or has a dot before it and a key before
the dot that is not the zone again and does not end in another dot. -/
def WellFormedName (name : Bytes) : Prop :=
  zone <:+ name → name = zone ∨
    ∃ k, name = k ++ 46 :: zone ∧ (k = [] ∨ k ≠ zone) ∧ ¬ [46] <:+ k

variable {toLower zone}

theorem resourceKey_of_suffix {name : Bytes} (h : zone <:+ name) :
    resourceKey zone name =
      some (trimSuffix (if trimSuffix name (46 :: zone) = zone then []
        else trimSuffix name (46 :: zone)) [46]) := by
  unfold resourceKey
  rw [if_neg (by simp [hasSuffix_iff.mpr h])]

theorem resourceKey_zone : resourceKey zone zone = some [] := by
  have hlonger : ¬ (46 :: zone) <:+ zone := by
    intro hsuffix
    have hlen := hsuffix.length_le
    simp at hlen
  rw [resourceKey_of_suffix (List.suffix_refl zone), trimSuffix_of_not_suffix hlonger, if_pos rfl,
    trimSuffix_nil]

theorem resourceKey_below (k : Bytes) :
    resourceKey zone (k ++ 46 :: zone) = some (trimSuffix (if k = zone then [] else k) [46]) := by
  have hsuffix : zone <:+ k ++ 46 :: zone :=
    (List.suffix_cons 46 zone).trans (List.suffix_append k (46 :: zone))
  rw [resourceKey_of_suffix hsuffix, trimSuffix_append]

/- A part before the zone is the key just if nothing more is cut off. -/
theorem key_kept_iff (k : Bytes) :
    trimSuffix (if k = zone then [] else k) [46] = k ↔ (k = [] ∨ k ≠ zone) ∧ ¬ [46] <:+ k := by
  by_cases hzone : k = zone
  · rw [if_pos hzone, trimSuffix_nil]
    constructor
    · intro hnil
      subst hnil
      exact ⟨Or.inl rfl, by simp⟩
    · rintro ⟨hnil | hne, -⟩
      · exact hnil.symm
      · exact absurd hzone hne
  · rw [if_neg hzone]
    constructor
    · intro hkept
      refine ⟨Or.inr hzone, fun hdot => ?_⟩
      obtain ⟨k', rfl⟩ := hdot
      rw [trimSuffix_append] at hkept
      simp at hkept
    · exact fun h => trimSuffix_of_not_suffix h.2

theorem inZone_iff (name : Bytes) :
    (∀ key, resourceKey zone name = some key → InZone zone name key) ↔ WellFormedName zone name := by
  by_cases hsuffix : zone <:+ name
  · by_cases hzone : name = zone
    · subst hzone
      refine iff_of_true (fun key hkey => ?_) fun _ => Or.inl rfl
      rw [resourceKey_zone] at hkey
      cases hkey
      exact Or.inl ⟨rfl, rfl⟩
    · by_cases hdot : ∃ k, name = k ++ 46 :: zone
      · obtain ⟨k, rfl⟩ := hdot
        have hwell : WellFormedName zone (k ++ 46 :: zone) ↔ (k = [] ∨ k ≠ zone) ∧ ¬ [46] <:+ k := by
          simp [WellFormedName, hsuffix, hzone]
        have hin : ∀ key, InZone zone (k ++ 46 :: zone) key ↔ key = k := by
          simp [InZone, hzone, eq_comm]
        rw [hwell, ← key_kept_iff, resourceKey_below]
        simp only [hin, Option.some.injEq, forall_eq']
      · refine iff_of_false (fun hall => ?_) fun hwell => ?_
        · rcases hall _ (resourceKey_of_suffix hsuffix) with ⟨heq, -⟩ | heq
          · exact hzone heq
          · exact hdot ⟨_, heq⟩
        · rcases hwell hsuffix with heq | ⟨k, heq, -⟩
          · exact hzone heq
          · exact hdot ⟨k, heq⟩
  · refine iff_of_true (fun key hkey => ?_) fun h => absurd h hsuffix
    have hne : name ≠ zone := fun heq => hsuffix (heq ▸ List.suffix_refl zone)
    have hno : hasSuffix name zone = false := Bool.of_not_eq_true (hasSuffix_iff.not.mpr hsuffix)
    simp [resourceKey, hno, hne] at hkey

theorem handleQuery_eq {query domain : Bytes} {qtype : UInt16}
    (h : parseQuestion query = .ok (domain, qtype)) :
    handleQuery toLower zone query =
      match resourceKey zone (queryName toLower domain) with
      | none => .nxdomain
      | some key => .resolve key qtype := by
  have hlong : ¬ query.length < 12 := by
    intro hshort
    rw [parseQuestion, parseName, if_pos (by omega)] at h
    cases h
  rw [handleQuery, if_neg hlong, h]

end Zone

/-- A query goes on with the key that its name has in the zone just if the name, where it
ends as the zone does, is put together as names of the zone are. -/
theorem zone_matching_iff (toLower : Bytes → Bytes) (zone query domain : Bytes) (qtype : UInt16)
    (h : parseQuestion query = .ok (domain, qtype)) :
    (∀ key t, handleQuery toLower zone query = .resolve key t →
        InZone zone (queryName toLower domain) key) ↔
      WellFormedName zone (queryName toLower domain) := by
  rw [handleQuery_eq h, ← inZone_iff]
  cases resourceKey zone (queryName toLower domain) with
  | none => simp
  | some key => simp

/- The query for the address of a name. -/
def addressQuery (labels : List Bytes) : Bytes := encodeQuery (lit "0123456789ab") labels 1 1 []

theorem zone_matching_of_subdomain :
    parseQuestion (addressQuery [lit "Img", lit "CDN"]) = .ok (lit "Img.CDN", 1) ∧
      InZone (lit "cdn") (lit "img.cdn") (lit "img") := by
  have hparse : parseQuestion (addressQuery [lit "Img", lit "CDN"]) = .ok (lit "Img.CDN", 1) := by
    rfl
  refine ⟨hparse, (zone_matching_iff toLower (lit "cdn") _ _ 1 hparse).mpr ?_ (lit "img") 1 ?_⟩
  · intro
    exact Or.inr ⟨lit "img", by decide +kernel, Or.inr (by decide), by decide +kernel⟩
  · decide +kernel

/- A name that only ends in the same letters, and the zone below itself. -/
theorem foreign_name_resolved :
    handleQuery toLower (lit "example.com") (addressQuery [lit "notexample", lit "com"]) =
        .resolve (lit "notexample.com") 1 ∧
      handleQuery toLower (lit "example.com")
          (addressQuery [lit "example", lit "com", lit "example", lit "com"]) = .resolve [] 1 := by
  decide +kernel

end EdgeDispatch.Dns.Question
