import EdgeDispatch.Lib.JsonText

/-! # Samples in the Prometheus text format, version 0.0.4

A line holds a sample: the name of the metric, the labels in braces if there are any, the
value, and maybe a time. Blanks and tabs may stand between the tokens. In the value of a label
backslash, quote and LF are escaped. -/

namespace EdgeDispatch.Lib.PromText
open Lib.ByteString Lib.GoStrings Lib.JsonText

/-! ### Tokens -/

def blank (b : Byte) : Bool := b = 32 || b = 9
def figure (b : Byte) : Bool := 48 ≤ b && b ≤ 57
def letter (b : Byte) : Bool := (65 ≤ b && b ≤ 90) || (97 ≤ b && b ≤ 122)

/- The bytes that a name begins with; figures may follow. -/
def labelFirst (b : Byte) : Bool := letter b || b = 95
def metricFirst (b : Byte) : Bool := labelFirst b || b = 58

def further (first : Byte → Bool) (b : Byte) : Bool := first b || figure b

def isName (first : Byte → Bool) : Bytes → Bool
  | [] => false
  | b :: rest => first b && rest.all (further first)

def skip (s : Bytes) : Bytes := s.dropWhile blank

def expect (c : Byte) : Bytes → Option Bytes
  | [] => none
  | b :: rest => if b = c then some rest else none

def readName (first : Byte → Bool) : Bytes → Option (Bytes × Bytes)
  | [] => none
  | b :: rest =>
    if first b then some (b :: rest.takeWhile (further first), rest.dropWhile (further first))
    else none

/-! ### Labels -/

def unescape (b : Byte) : Option Byte :=
  if b = 92 then some 92 else if b = 34 then some 34 else if b = 110 then some 10 else none

/- The value up to the quote that ends it, and what is behind the quote. -/
def readValue : Bytes → Option (Bytes × Bytes)
  | [] => none
  | b :: rest =>
    if b = 34 then some ([], rest)
    else if b = 10 then none
    else if b = 92 then
      match rest with
      | [] => none
      | e :: rest =>
        (unescape e).bind fun c => (readValue rest).map fun (value, rest) => (c :: value, rest)
    else (readValue rest).map fun (value, rest) => (b :: value, rest)

/- The first `n` bytes belong to the character that was read last. -/
def validFrom : ℕ → Bytes → Bool
  | _, [] => true
  | n + 1, _ :: rest => validFrom n rest
  | 0, b :: rest =>
    match runeSize (b :: rest) with
    | some size => validFrom (size - 1) rest
    | none => false

def validUTF8 (s : Bytes) : Bool := validFrom 0 s

def readLabel (s : Bytes) : Option ((Bytes × Bytes) × Bytes) :=
  (readName labelFirst s).bind fun (name, s) =>
    (expect 61 (skip s)).bind fun s =>
      (expect 34 (skip s)).bind fun s =>
        (readValue s).bind fun (value, s) =>
          if validUTF8 value then some ((name, value), s) else none

/- From behind the opening brace or a comma. A comma may stand behind the last label. -/
def readLabels : ℕ → Bytes → Option (List (Bytes × Bytes) × Bytes)
  | 0, _ => none
  | fuel + 1, s =>
    match expect 125 (skip s) with
    | some rest => some ([], rest)
    | none =>
      (readLabel (skip s)).bind fun (label, s) =>
        match expect 44 (skip s) with
        | some rest => (readLabels fuel rest).map fun (labels, rest) => (label :: labels, rest)
        | none => (expect 125 (skip s)).map fun rest => ([label], rest)

def readBraces (s : Bytes) : Option (List (Bytes × Bytes) × Bytes) :=
  match expect 123 (skip s) with
  | some rest => readLabels (rest.length + 1) rest
  | none => some ([], s)

/-! ### The value and the time -/

def unsigned : Bytes → Bytes
  | [] => []
  | b :: rest => if b = 43 || b = 45 then rest else b :: rest

def figures (s : Bytes) : Bool := s ≠ [] && s.all figure

def isExponent : Bytes → Bool
  | [] => true
  | b :: rest => (b = 101 || b = 69) && figures (unsigned rest)

/- What follows the figures in front of the point; `whole` says whether there were any. -/
def isFraction (whole : Bool) : Bytes → Bool
  | [] => whole
  | b :: rest =>
    if b = 46 then (whole || rest.takeWhile figure ≠ []) && isExponent (rest.dropWhile figure)
    else whole && isExponent (b :: rest)

def isNumber (s : Bytes) : Bool :=
  isFraction ((unsigned s).takeWhile figure ≠ []) ((unsigned s).dropWhile figure)

/- Numbers in decimal, and the three values that are none. -/
def isFloat (s : Bytes) : Bool :=
  s = lit "NaN" || s = lit "+Inf" || s = lit "-Inf" || isNumber s

def isInteger (s : Bytes) : Bool := figures (unsigned s)

structure Sample where
  name : Bytes
  labels : List (Bytes × Bytes)
  value : Bytes
  time : Bytes -- empty if there is none
  deriving DecidableEq

/- The bytes of a value or a time. -/
def solid (b : Byte) : Bool := !blank b && b ≠ 10

def readEnd (s : Bytes) : Option (Bytes × Bytes) :=
  let value := (skip s).takeWhile solid
  let s := skip ((skip s).dropWhile solid)
  let time := s.takeWhile solid
  let s := skip (s.dropWhile solid)
  if isFloat value && (time = [] || isInteger time) && s = [10] then some (value, time) else none

/- The metric's own name counts as a label of this name. -/
def nameLabel : Bytes := lit "__name__"

/-- A line with its LF. -/
def parse (line : Bytes) : Option Sample :=
  (readName metricFirst (skip line)).bind fun (name, s) =>
    (readBraces s).bind fun (labels, s) =>
      if (nameLabel :: labels.map Prod.fst).Nodup then
        (readEnd s).map fun (value, time) => ⟨name, labels, value, time⟩
      else none

/-- The samples of a text. What follows its last LF is no line. -/
def samples (text : Bytes) : List Sample :=
  (split 10 text).dropLast.filterMap fun line => parse (line ++ [10])

example : parse (lit "a_total\x7bb=\"x\\\"\\n\", c = \"\" ,\x7d +Inf 12\n") =
    some ⟨lit "a_total", [(lit "b", lit "x\"\n"), (lit "c", [])], lit "+Inf", lit "12"⟩ := by
  decide +kernel
example : parse (lit "a\x7bb=\"x\\y\"\x7d 1\n") = none := by decide +kernel

/-! ### Tokens in front of any text -/

variable {b : Byte} {s value : Bytes} {labels : List (Bytes × Bytes)} {fuel : ℕ}

theorem skip_cons (h : blank b = false) (s : Bytes) : skip (b :: s) = b :: s := by
  simp [skip, h]

theorem expect_cons (c : Byte) (s : Bytes) : expect c (c :: s) = some s := if_pos rfl

theorem expect_ne {c : Byte} (h : b ≠ c) (s : Bytes) : expect c (b :: s) = none := if_neg h

variable {first : Byte → Bool} {name rest : Bytes}

theorem readName_append (h : isName first name = true) {c : Byte} (hc : further first c = false)
    (s : Bytes) : readName first (name ++ c :: s) = some (name, c :: s) := by
  cases name with
  | nil => cases h
  | cons b rest =>
    obtain ⟨hb, hrest⟩ := Bool.and_eq_true_iff.mp h
    have hrest := List.all_eq_true.mp hrest
    have htake : (rest ++ c :: s).takeWhile (further first) = rest := by
      rw [List.takeWhile_append_of_pos hrest, List.takeWhile_cons_of_neg (by simp [hc]),
        List.append_nil]
    have hdrop : (rest ++ c :: s).dropWhile (further first) = c :: s := by
      rw [List.dropWhile_append_of_pos hrest, List.dropWhile_cons_of_neg (by simp [hc])]
    rw [List.cons_append, readName, if_pos hb, htake, hdrop]

theorem isName_of_readName (h : readName first s = some (name, rest)) :
    isName first name = true := by
  cases s with
  | nil => cases h
  | cons b s =>
    rw [readName] at h
    split at h
    · rename_i hb
      cases h
      exact Bool.and_eq_true_iff.mpr ⟨hb, List.all_takeWhile⟩
    · cases h

theorem not_blank_of_metricFirst (h : metricFirst b = true) : blank b = false := by
  cases hb : blank b with
  | false => rfl
  | true =>
    rcases Bool.or_eq_true_iff.mp hb with hb | hb
    · rw [of_decide_eq_true hb] at h
      exact absurd h (by decide)
    · rw [of_decide_eq_true hb] at h
      exact absurd h (by decide)

theorem metricFirst_of_labelFirst (h : labelFirst b = true) : metricFirst b = true :=
  Bool.or_eq_true_iff.mpr (.inl h)

theorem skip_name (h : isName metricFirst name = true) (s : Bytes) :
    skip (name ++ s) = name ++ s := by
  cases name with
  | nil => cases h
  | cons b rest => exact skip_cons (not_blank_of_metricFirst (Bool.and_eq_true_iff.mp h).1) _

/-! ### Values that are written as they are -/

/-- A value that is written without escapes. -/
def Plain (value : Bytes) : Prop := ∀ b ∈ value, b ≠ 34 ∧ b ≠ 10 ∧ b ≠ 92

instance (value : Bytes) : Decidable (Plain value) :=
  List.decidableBAll (fun b => b ≠ 34 ∧ b ≠ 10 ∧ b ≠ 92) value

theorem plain_nil : Plain [] := nofun

theorem plain_cons :
    Plain (b :: value) ↔ (b ≠ 34 ∧ b ≠ 10 ∧ b ≠ 92) ∧ Plain value := List.forall_mem_cons

theorem readValue_quote (s : Bytes) : readValue (34 :: s) = some ([], s) := by
  rw [readValue.eq_def]
  exact if_pos rfl

theorem readValue_lf (s : Bytes) : readValue (10 :: s) = none := by
  rw [readValue.eq_def]
  exact (if_neg (by decide)).trans (if_pos rfl)

theorem readValue_backslash (e : Byte) (s : Bytes) :
    readValue (92 :: e :: s) =
      (unescape e).bind fun c => (readValue s).map fun (value, rest) => (c :: value, rest) := by
  simp [readValue]

theorem readValue_other (h : b ≠ 34 ∧ b ≠ 10 ∧ b ≠ 92) (s : Bytes) :
    readValue (b :: s) = (readValue s).map fun (value, rest) => (b :: value, rest) := by
  rw [readValue.eq_def]
  simp [h.1, h.2.1, h.2.2]

theorem readValue_plain (h : Plain value) (s : Bytes) :
    readValue (value ++ 34 :: s) = some (value, s) := by
  induction value with
  | nil => exact readValue_quote s
  | cons b value ih =>
    obtain ⟨hb, hvalue⟩ := plain_cons.mp h
    rw [List.cons_append, readValue_other hb, ih hvalue]
    rfl

/- A backslash is read only from two of them. -/
theorem readValue_eq_backslash (h : readValue s = some (92 :: value, rest)) :
    ∃ t, s = 92 :: 92 :: t ∧ readValue t = some (value, rest) := by
  cases s with
  | nil => cases h
  | cons b s =>
    by_cases hquote : b = 34
    · rw [hquote, readValue_quote] at h
      cases h
    by_cases hlf : b = 10
    · rw [hlf, readValue_lf] at h
      cases h
    by_cases hback : b = 92
    · subst hback
      cases s with
      | nil => simp [readValue] at h
      | cons e t =>
        rw [readValue_backslash] at h
        obtain ⟨c, hc, hmap⟩ := Option.bind_eq_some_iff.mp h
        obtain ⟨⟨more, rest'⟩, ht, heq⟩ := Option.map_eq_some_iff.mp hmap
        cases heq
        refine ⟨t, ?_, ht⟩
        unfold unescape at hc
        grind
    · rw [readValue_other ⟨hquote, hlf, hback⟩] at h
      obtain ⟨⟨more, rest'⟩, -, heq⟩ := Option.map_eq_some_iff.mp h
      cases heq
      exact absurd rfl hback

/- Every step that reads a backslash takes two, so that those in front grow. -/
theorem readValue_ne_backslashes (k : ℕ) (value s rest : Bytes) :
    readValue (value ++ 34 :: s) ≠ some (List.replicate (k + 1) 92 ++ value, rest) := by
  intro h
  rw [List.replicate_succ, List.cons_append] at h
  obtain ⟨t, ht, hread⟩ := readValue_eq_backslash h
  match value, ht with
  | [], ht => cases ht
  | [b], ht => simp at ht
  | b :: c :: value, ht =>
    simp only [List.cons_append, List.cons.injEq] at ht
    obtain ⟨rfl, rfl, rfl⟩ := ht
    have hgrown : List.replicate k 92 ++ 92 :: 92 :: value =
        List.replicate (k + 1 + 1) (92 : Byte) ++ value := by
      rw [List.replicate_succ', List.replicate_succ']
      simp
    rw [hgrown] at hread
    exact readValue_ne_backslashes (k + 1) value s rest hread

theorem plain_of_readValue (h : readValue (value ++ 34 :: s) = some (value, rest)) :
    Plain value ∧ rest = s := by
  induction value generalizing rest with
  | nil =>
    rw [List.nil_append, readValue_quote] at h
    cases h
    exact ⟨plain_nil, rfl⟩
  | cons b value ih =>
    rw [List.cons_append] at h
    have hquote : b ≠ 34 := by
      rintro rfl
      rw [readValue_quote] at h
      cases h
    have hlf : b ≠ 10 := by
      rintro rfl
      rw [readValue_lf] at h
      cases h
    have hback : b ≠ 92 := by
      rintro rfl
      obtain ⟨t, ht, hread⟩ := readValue_eq_backslash h
      cases value with
      | nil => simp at ht
      | cons c value =>
        obtain ⟨rfl, rfl⟩ := List.cons.inj (List.cons.inj ht).2
        exact readValue_ne_backslashes 0 value s rest hread
    rw [readValue_other ⟨hquote, hlf, hback⟩] at h
    obtain ⟨⟨more, rest'⟩, hread, heq⟩ := Option.map_eq_some_iff.mp h
    cases heq
    obtain ⟨hvalue, hrest⟩ := ih hread
    exact ⟨plain_cons.mpr ⟨⟨hquote, hlf, hback⟩, hvalue⟩, hrest⟩

/-! ### Labels that are written as they are -/

def raw (label : Bytes × Bytes) : Bytes := label.1 ++ 61 :: 34 :: (label.2 ++ [34])

theorem raw_append (label : Bytes × Bytes) (s : Bytes) :
    raw label ++ s = label.1 ++ 61 :: 34 :: (label.2 ++ 34 :: s) := by simp [raw]

section Raw
variable {label : Bytes × Bytes} (hname : isName labelFirst label.1 = true)
include hname

theorem isName_metricFirst : isName metricFirst label.1 = true := by
  cases hl : label.1 with
  | nil =>
    rw [hl] at hname
    cases hname
  | cons b rest =>
    rw [hl] at hname
    obtain ⟨hb, hrest⟩ := Bool.and_eq_true_iff.mp hname
    refine Bool.and_eq_true_iff.mpr ⟨metricFirst_of_labelFirst hb, List.all_eq_true.mpr ?_⟩
    intro c hc
    rcases Bool.or_eq_true_iff.mp (List.all_eq_true.mp hrest c hc) with h | h
    · exact Bool.or_eq_true_iff.mpr (.inl (metricFirst_of_labelFirst h))
    · exact Bool.or_eq_true_iff.mpr (.inr h)

theorem skip_raw (s : Bytes) : skip (raw label ++ s) = raw label ++ s := by
  rw [raw_append]
  exact skip_name (isName_metricFirst hname) _

theorem expect_raw (s : Bytes) : expect 125 (raw label ++ s) = none := by
  cases hl : label.1 with
  | nil =>
    rw [hl] at hname
    cases hname
  | cons b rest =>
    rw [hl] at hname
    have hfirst : labelFirst b = true := (Bool.and_eq_true_iff.mp hname).1
    rw [raw_append, hl]
    refine expect_ne ?_ _
    rintro rfl
    exact absurd hfirst (by decide)

theorem readLabel_raw (s : Bytes) :
    readLabel (raw label ++ s) = (readValue (label.2 ++ 34 :: s)).bind fun (value, s) =>
      if validUTF8 value then some ((label.1, value), s) else none := by
  have hread := readName_append hname (c := 61) (by decide)
  rw [raw_append, readLabel, hread]
  simp only [Option.bind_some]
  rw [skip_cons (by decide), expect_cons, Option.bind_some, skip_cons (by decide), expect_cons,
    Option.bind_some]

theorem readLabel_raw_plain (hplain : Plain label.2) (hvalid : validUTF8 label.2 = true)
    (s : Bytes) : readLabel (raw label ++ s) = some (label, s) := by
  rw [readLabel_raw hname, readValue_plain hplain]
  exact if_pos hvalid

theorem plain_of_readLabel_raw {s rest : Bytes} {read : Bytes × Bytes}
    (h : readLabel (raw label ++ s) = some (read, rest)) (hvalue : read.2 = label.2) :
    (Plain label.2 ∧ validUTF8 label.2 = true) ∧ rest = s := by
  rw [readLabel_raw hname] at h
  obtain ⟨⟨value, rest'⟩, hread, hif⟩ := Option.bind_eq_some_iff.mp h
  simp only at hif
  split at hif
  · rename_i hvalid
    cases hif
    simp only at hvalue
    subst hvalue
    obtain ⟨hplain, hrest⟩ := plain_of_readValue hread
    exact ⟨⟨hplain, hvalid⟩, hrest⟩
  · cases hif

theorem readLabels_raw_cons (fuel : ℕ) (s : Bytes) :
    readLabels (fuel + 1) (raw label ++ s) = (readLabel (raw label ++ s)).bind fun (label, s) =>
      match expect 44 (skip s) with
      | some rest => (readLabels fuel rest).map fun (labels, rest) => (label :: labels, rest)
      | none => (expect 125 (skip s)).map fun rest => ([label], rest) := by
  rw [readLabels, skip_raw hname, expect_raw hname]

/- The first of the labels, and the labels behind a comma. -/
theorem readLabels_raw_some {fuel : ℕ} {s rest : Bytes} {read : List (Bytes × Bytes)}
    (h : readLabels (fuel + 1) (raw label ++ s) = some (read, rest)) :
    ∃ first more s', read = first :: more ∧ readLabel (raw label ++ s) = some (first, s') ∧
      ∀ t, s' = 44 :: t → readLabels fuel t = some (more, rest) := by
  rw [readLabels_raw_cons hname] at h
  obtain ⟨⟨first, s'⟩, hfirst, h⟩ := Option.bind_eq_some_iff.mp h
  simp only at h
  split at h
  · rename_i t hcomma
    obtain ⟨⟨more, rest'⟩, hmore, heq⟩ := Option.map_eq_some_iff.mp h
    cases heq
    refine ⟨first, more, s', rfl, hfirst, ?_⟩
    rintro t' rfl
    rw [skip_cons (by decide), expect_cons] at hcomma
    cases hcomma
    exact hmore
  · rename_i hcomma
    obtain ⟨rest', -, heq⟩ := Option.map_eq_some_iff.mp h
    cases heq
    refine ⟨first, [], s', rfl, hfirst, ?_⟩
    rintro t' rfl
    rw [skip_cons (by decide), expect_cons] at hcomma
    cases hcomma

end Raw

/-- A label that reads back although nothing in it is escaped. -/
def Readable (label : Bytes × Bytes) : Prop := Plain label.2 ∧ validUTF8 label.2 = true

theorem join_raw_cons (label next : Bytes × Bytes) (rest : List (Bytes × Bytes)) (s : Bytes) :
    join 44 ((label :: next :: rest).map raw) ++ s =
      raw label ++ 44 :: (join 44 ((next :: rest).map raw) ++ s) := by
  simp only [List.map_cons, join_cons_cons, List.append_assoc, List.cons_append]

theorem readLabels_raw (hne : labels ≠ []) (hnames : ∀ l ∈ labels, isName labelFirst l.1 = true)
    (h : ∀ l ∈ labels, Readable l) (hfuel : labels.length ≤ fuel) (s : Bytes) :
    readLabels fuel (join 44 (labels.map raw) ++ 125 :: s) = some (labels, s) := by
  induction labels generalizing fuel with
  | nil => exact absurd rfl hne
  | cons label rest ih =>
    obtain ⟨fuel, rfl⟩ := Nat.exists_eq_add_of_lt (Nat.lt_of_succ_le hfuel)
    have hname := hnames label List.mem_cons_self
    obtain ⟨hplain, hvalid⟩ := h label List.mem_cons_self
    cases rest with
    | nil =>
      rw [List.map_singleton, join_singleton, readLabels_raw_cons hname,
        readLabel_raw_plain hname hplain hvalid]
      simp only [Option.bind_some]
      rw [skip_cons (by decide), expect_ne (by decide), expect_cons]
      rfl
    | cons next rest =>
      have htail := ih (List.cons_ne_nil _ _)
        (fun l hl => hnames l (List.mem_cons_of_mem _ hl))
        (fun l hl => h l (List.mem_cons_of_mem _ hl)) (Nat.le_add_right _ fuel)
      rw [join_raw_cons, readLabels_raw_cons hname, readLabel_raw_plain hname hplain hvalid]
      simp only [Option.bind_some]
      rw [skip_cons (by decide), expect_cons]
      simp only [htail, Option.map_some]

theorem readable_of_readLabels (hnames : ∀ l ∈ labels, isName labelFirst l.1 = true)
    {read : List (Bytes × Bytes)}
    (h : readLabels fuel (join 44 (labels.map raw) ++ 125 :: s) = some (read, rest))
    (hread : read.map Prod.snd = labels.map Prod.snd) : ∀ l ∈ labels, Readable l := by
  induction labels generalizing fuel read with
  | nil => exact List.forall_mem_nil _
  | cons label more ih =>
    cases fuel with
    | zero => cases h
    | succ fuel =>
      have hname := hnames label List.mem_cons_self
      cases more with
      | nil =>
        rw [List.map_singleton, join_singleton] at h
        obtain ⟨first, read, s', rfl, hfirst, -⟩ := readLabels_raw_some hname h
        have hvalue := (List.cons.inj hread).1
        exact List.forall_mem_singleton.mpr (plain_of_readLabel_raw hname hfirst hvalue).1
      | cons next more =>
        rw [join_raw_cons] at h
        obtain ⟨first, read, s', rfl, hfirst, hmore⟩ := readLabels_raw_some hname h
        obtain ⟨hvalue, hvalues⟩ := List.cons.inj hread
        obtain ⟨hlabel, hs⟩ := plain_of_readLabel_raw hname hfirst hvalue
        exact List.forall_mem_cons.mpr ⟨hlabel,
          ih (fun l hl => hnames l (List.mem_cons_of_mem _ hl)) (hmore _ hs) hvalues⟩

/-! ### Values of samples -/

theorem mem_unsigned (h : b ∈ s) : b ∈ unsigned s ∨ b = 43 ∨ b = 45 := by
  cases s with
  | nil => cases h
  | cons c rest =>
    rw [unsigned]
    split
    · rename_i hc
      simp only [Bool.or_eq_true, decide_eq_true_eq] at hc
      rcases List.mem_cons.mp h with rfl | hb
      · exact .inr hc
      · exact .inl hb
    · exact .inl h

/- The bytes of a value that is not NaN. -/
def numeric (b : Byte) : Bool := figure b || b = 43 || b = 45 || b = 46 || b = 101 || b = 69

theorem numeric_of_figures (h : figures (unsigned s) = true) : ∀ b ∈ s, numeric b = true := by
  intro b hb
  have hall := List.all_eq_true.mp (Bool.and_eq_true_iff.mp h).2
  rcases mem_unsigned hb with hb | rfl | rfl
  · simp [numeric, hall b hb]
  · rfl
  · rfl

theorem numeric_of_isExponent (h : isExponent s = true) : ∀ b ∈ s, numeric b = true := by
  cases s with
  | nil => nofun
  | cons c rest =>
    obtain ⟨hc, hrest⟩ := Bool.and_eq_true_iff.mp h
    simp only [Bool.or_eq_true, decide_eq_true_eq] at hc
    have hfirst : numeric c = true := by
      rcases hc with rfl | rfl
      · rfl
      · rfl
    exact List.forall_mem_cons.mpr ⟨hfirst, numeric_of_figures hrest⟩

theorem numeric_of_dropWhile (h : ∀ b ∈ s.dropWhile figure, numeric b = true) :
    ∀ b ∈ s, numeric b = true := by
  intro b hb
  rw [← List.takeWhile_append_dropWhile (p := figure) (l := s)] at hb
  rcases List.mem_append.mp hb with hb | hb
  · simp [numeric, List.all_eq_true.mp List.all_takeWhile b hb]
  · exact h b hb

theorem numeric_of_isFraction {whole : Bool} (h : isFraction whole s = true) :
    ∀ b ∈ s, numeric b = true := by
  cases s with
  | nil => nofun
  | cons c rest =>
    rw [isFraction] at h
    split at h
    · rename_i hc
      have hexponent := (Bool.and_eq_true_iff.mp h).2
      rw [hc]
      exact List.forall_mem_cons.mpr
        ⟨rfl, numeric_of_dropWhile (numeric_of_isExponent hexponent)⟩
    · exact numeric_of_isExponent (Bool.and_eq_true_iff.mp h).2

theorem numeric_of_isNumber (h : isNumber s = true) : ∀ b ∈ s, numeric b = true := by
  intro b hb
  rcases mem_unsigned hb with hb | rfl | rfl
  · exact numeric_of_dropWhile (numeric_of_isFraction h) b hb
  · rfl
  · rfl

theorem solid_of_isFloat (h : isFloat s = true) : ∀ b ∈ s, solid b = true ∧ b ≠ 123 := by
  simp only [isFloat, Bool.or_eq_true, decide_eq_true_eq] at h
  rcases h with ((rfl | rfl) | rfl) | h
  · decide +kernel
  · decide +kernel
  · decide +kernel
  · intro b hb
    have hb := numeric_of_isNumber h b hb
    have hne (c : Byte) (hc : numeric c = false) : b ≠ c := by
      rintro rfl
      rw [hc] at hb
      cases hb
    refine ⟨?_, hne 123 rfl⟩
    simp [solid, blank, hne 32 rfl, hne 9 rfl, hne 10 rfl]

theorem isFloat_ne_nil (h : isFloat s = true) : s ≠ [] := by
  rintro rfl
  exact absurd h (by decide)

theorem figures_stop {tail : Bytes} (h : ∀ b ∈ tail.head?, figure b = false) :
    tail.takeWhile figure = [] ∧ tail.dropWhile figure = tail := by
  cases tail with
  | nil => exact ⟨rfl, rfl⟩
  | cons b rest =>
    have hb : ¬ figure b = true := by simp [h b rfl]
    exact ⟨List.takeWhile_cons_of_neg hb, List.dropWhile_cons_of_neg hb⟩

/- A number is made of a sign, figures, maybe a point with figures, and maybe an exponent. -/
theorem isNumber_append {whole tail : Bytes} (hne : whole ≠ [])
    (hwhole : ∀ b ∈ whole, figure b = true) (hstop : ∀ b ∈ tail.head?, figure b = false)
    (htail : isFraction true tail = true) (neg : Bool) :
    isNumber ((if neg then [45] else []) ++ (whole ++ tail)) = true := by
  have hunsigned : unsigned ((if neg then [45] else []) ++ (whole ++ tail)) = whole ++ tail := by
    cases neg with
    | true => rfl
    | false =>
      obtain ⟨b, rest, rfl⟩ := List.exists_cons_of_ne_nil hne
      have hb := hwhole b List.mem_cons_self
      refine if_neg fun hsign => ?_
      simp only [Bool.or_eq_true, decide_eq_true_eq] at hsign
      rcases hsign with rfl | rfl
      · cases hb
      · cases hb
  obtain ⟨htake, hdrop⟩ := figures_stop hstop
  rw [isNumber, hunsigned, List.takeWhile_append_of_pos hwhole,
    List.dropWhile_append_of_pos hwhole, htake, hdrop, List.append_nil]
  simpa [hne] using htail

theorem isFraction_point {frac tail : Bytes} (hfrac : ∀ b ∈ frac, figure b = true)
    (hstop : ∀ b ∈ tail.head?, figure b = false) (htail : isExponent tail = true) :
    isFraction true (46 :: (frac ++ tail)) = true := by
  rw [isFraction, if_pos rfl, List.dropWhile_append_of_pos hfrac, (figures_stop hstop).2, htail]
  rfl

/-! ### Lines -/

section Line
variable {name value : Bytes} (hname : isName metricFirst name = true)
  (hvalue : isFloat value = true)
include hvalue

theorem skip_value : skip (32 :: (value ++ [10])) = value ++ [10] := by
  cases value with
  | nil => exact absurd rfl (isFloat_ne_nil hvalue)
  | cons b rest =>
    have hb := (solid_of_isFloat hvalue b List.mem_cons_self).1
    have hblank : blank b = false := by
      simp only [solid, Bool.and_eq_true, Bool.not_eq_true'] at hb
      exact hb.1
    rw [skip, List.dropWhile_cons_of_pos (by decide)]
    exact skip_cons hblank _

theorem readEnd_value : readEnd (32 :: (value ++ [10])) = some (value, []) := by
  have hsolid : ∀ b ∈ value, solid b = true := fun b hb => (solid_of_isFloat hvalue b hb).1
  have htake : (value ++ [10]).takeWhile solid = value := by
    rw [List.takeWhile_append_of_pos hsolid]
    exact List.append_nil _
  have hdrop : (value ++ [10]).dropWhile solid = [10] := by
    rw [List.dropWhile_append_of_pos hsolid]
    rfl
  have hlf : skip [10] = [10] := rfl
  simp only [readEnd, skip_value hvalue, htake, hdrop, hlf, hvalue]
  rfl

include hname

/-- A line without braces. -/
theorem parse_bare : parse (name ++ 32 :: (value ++ [10])) = some ⟨name, [], value, []⟩ := by
  have hbraces : readBraces (32 :: (value ++ [10])) = some ([], 32 :: (value ++ [10])) := by
    have hnone : expect 123 (value ++ [10]) = none := by
      cases hv : value with
      | nil => exact absurd hv (isFloat_ne_nil hvalue)
      | cons b rest =>
        exact expect_ne (solid_of_isFloat hvalue b (hv ▸ List.mem_cons_self)).2 _
    rw [readBraces, skip_value hvalue, hnone]
  rw [parse, skip_name hname, readName_append hname (by decide)]
  simp only [Option.bind_some, hbraces, readEnd_value hvalue]
  rfl

/-- A line with labels that are written as they are. -/
def rawLine (name : Bytes) (labels : List (Bytes × Bytes)) (value : Bytes) : Bytes :=
  name ++ 123 :: (join 44 (labels.map raw) ++ 125 :: 32 :: (value ++ [10]))

omit hname hvalue in
theorem length_le_join (labels : List (Bytes × Bytes)) (s : Bytes) :
    labels.length ≤ (join 44 (labels.map raw) ++ s).length + 1 := by
  induction labels with
  | nil => exact Nat.zero_le _
  | cons label rest ih =>
    cases rest with
    | nil => exact Nat.le_add_left 1 _
    | cons next rest =>
      rw [join_raw_cons, List.length_append, List.length_cons (a := label),
        List.length_cons (a := 44)]
      omega

omit hvalue in
theorem parse_rawLine_eq (labels : List (Bytes × Bytes)) (value : Bytes) :
    ∃ fuel, labels.length ≤ fuel ∧
      parse (rawLine name labels value) =
        (readLabels fuel (join 44 (labels.map raw) ++ 125 :: 32 :: (value ++ [10]))).bind
          fun (labels, s) =>
            if (nameLabel :: labels.map Prod.fst).Nodup then
              (readEnd s).map fun (value, time) => ⟨name, labels, value, time⟩
            else none := by
  refine ⟨(join 44 (labels.map raw) ++ 125 :: 32 :: (value ++ [10])).length + 1,
    length_le_join labels _, ?_⟩
  rw [parse, rawLine, skip_name hname, readName_append hname (by decide)]
  simp only [Option.bind_some]
  rw [readBraces, skip_cons (by decide), expect_cons]

variable {labels : List (Bytes × Bytes)}

theorem parse_rawLine (hne : labels ≠ []) (hnames : ∀ l ∈ labels, isName labelFirst l.1 = true)
    (hnodup : (nameLabel :: labels.map Prod.fst).Nodup) (h : ∀ l ∈ labels, Readable l) :
    parse (rawLine name labels value) = some ⟨name, labels, value, []⟩ := by
  obtain ⟨fuel, hfuel, hparse⟩ := parse_rawLine_eq hname labels value
  rw [hparse, readLabels_raw hne hnames h hfuel]
  simp only [Option.bind_some, if_pos hnodup, readEnd_value hvalue]
  rfl

omit hvalue in
theorem readable_of_parse_rawLine (hnames : ∀ l ∈ labels, isName labelFirst l.1 = true)
    {sample : Sample} (h : parse (rawLine name labels value) = some sample)
    (hread : sample.labels.map Prod.snd = labels.map Prod.snd) : ∀ l ∈ labels, Readable l := by
  obtain ⟨fuel, -, hparse⟩ := parse_rawLine_eq hname labels value
  rw [hparse] at h
  obtain ⟨⟨read, rest⟩, hlabels, hif⟩ := Option.bind_eq_some_iff.mp h
  simp only at hif
  split at hif
  · obtain ⟨⟨value', time⟩, -, heq⟩ := Option.map_eq_some_iff.mp hif
    cases heq
    exact readable_of_readLabels hnames hlabels hread
  · cases hif

end Line

/-! ### Texts of several lines -/

section Lf
variable {name value : Bytes} {labels : List (Bytes × Bytes)}

/-- The line has one LF, at its end. -/
def Ended (line : Bytes) : Prop := ∃ body, line = body ++ [10] ∧ 10 ∉ body

theorem lf_notMem_name {first : Byte → Bool} (hfirst : further first 10 = false)
    (h : isName first name = true) : 10 ∉ name := by
  intro hlf
  cases name with
  | nil => cases hlf
  | cons b rest =>
    obtain ⟨hb, hrest⟩ := Bool.and_eq_true_iff.mp h
    have hfurther : further first 10 = true := by
      rcases List.mem_cons.mp hlf with rfl | hlf
      · simp [further, hb]
      · exact List.all_eq_true.mp hrest 10 hlf
    exact absurd hfurther (by simp [hfirst])

theorem lf_notMem_value (h : isFloat value = true) : 10 ∉ value := fun hlf =>
  absurd (solid_of_isFloat h 10 hlf).1 (by decide)

theorem ended_bare (hname : isName metricFirst name = true) (hvalue : isFloat value = true) :
    Ended (name ++ 32 :: (value ++ [10])) :=
  ⟨name ++ 32 :: value, by simp,
    by simp [lf_notMem_name (by decide) hname, lf_notMem_value hvalue]⟩

theorem lf_notMem_raw {label : Bytes × Bytes} (hname : isName labelFirst label.1 = true)
    (hplain : Plain label.2) : 10 ∉ raw label := by
  have hvalue : 10 ∉ label.2 := fun hlf => (hplain 10 hlf).2.1 rfl
  simp [raw, lf_notMem_name (by decide) hname, hvalue]

theorem ended_rawLine (hname : isName metricFirst name = true) (hvalue : isFloat value = true)
    (hnames : ∀ l ∈ labels, isName labelFirst l.1 = true) (h : ∀ l ∈ labels, Readable l) :
    Ended (rawLine name labels value) := by
  have hlabels : 10 ∉ join 44 (labels.map raw) := by
    intro hlf
    rcases mem_join hlf with hlf | ⟨_, hp, hlf⟩
    · cases hlf
    · obtain ⟨l, hl, rfl⟩ := List.mem_map.mp hp
      exact lf_notMem_raw (hnames l hl) (h l hl).1 hlf
  exact ⟨name ++ 123 :: (join 44 (labels.map raw) ++ 125 :: 32 :: value), by simp [rawLine],
    by simp [lf_notMem_name (by decide) hname, hlabels, lf_notMem_value hvalue]⟩

theorem samples_append {line : Bytes} (h : 10 ∉ line) (text : Bytes) :
    samples (line ++ 10 :: text) = (parse (line ++ [10])).toList ++ samples text := by
  rw [samples, split_append, split_of_notMem h, List.singleton_append,
    List.dropLast_cons_of_ne_nil (split_ne_nil 10 text), List.filterMap_cons]
  cases parse (line ++ [10]) <;> rfl

theorem samples_flatten {lines : List Bytes} (h : ∀ line ∈ lines, Ended line) :
    samples lines.flatten = lines.filterMap parse := by
  induction lines with
  | nil => rfl
  | cons line lines ih =>
    obtain ⟨⟨body, rfl, hbody⟩, hlines⟩ := List.forall_mem_cons.mp h
    rw [List.flatten_cons, List.append_assoc, List.singleton_append, samples_append hbody,
      ih hlines, List.filterMap_cons]
    cases parse (body ++ [10]) <;> rfl

end Lf

/-! ### What is accepted is well formed -/

theorem isName_of_readLabel {label : Bytes × Bytes} (h : readLabel s = some (label, rest)) :
    isName labelFirst label.1 = true := by
  obtain ⟨⟨name, s₁⟩, hname, h⟩ := Option.bind_eq_some_iff.mp h
  obtain ⟨s₂, -, h⟩ := Option.bind_eq_some_iff.mp h
  obtain ⟨s₃, -, h⟩ := Option.bind_eq_some_iff.mp h
  obtain ⟨⟨value, s₄⟩, -, h⟩ := Option.bind_eq_some_iff.mp h
  simp only at h
  split at h
  · cases h
    exact isName_of_readName hname
  · cases h

theorem isName_of_readLabels (h : readLabels fuel s = some (labels, rest)) :
    ∀ l ∈ labels, isName labelFirst l.1 = true := by
  induction fuel generalizing s labels with
  | zero => cases h
  | succ fuel ih =>
    rw [readLabels] at h
    split at h
    · cases h
      exact List.forall_mem_nil _
    · obtain ⟨⟨label, s'⟩, hlabel, h⟩ := Option.bind_eq_some_iff.mp h
      have hname := isName_of_readLabel hlabel
      simp only at h
      split at h
      · obtain ⟨⟨more, rest'⟩, hmore, heq⟩ := Option.map_eq_some_iff.mp h
        cases heq
        exact List.forall_mem_cons.mpr ⟨hname, ih hmore⟩
      · obtain ⟨rest', -, heq⟩ := Option.map_eq_some_iff.mp h
        cases heq
        exact List.forall_mem_singleton.mpr hname

theorem isName_of_readBraces (h : readBraces s = some (labels, rest)) :
    ∀ l ∈ labels, isName labelFirst l.1 = true := by
  unfold readBraces at h
  split at h
  · exact isName_of_readLabels h
  · cases h
    exact List.forall_mem_nil _

/-- The names that a metric and its labels may have. -/
structure WellNamed (name : Bytes) (labels : List Bytes) : Prop where
  metric : isName metricFirst name = true
  label : ∀ label ∈ labels, isName labelFirst label = true
  nodup : (nameLabel :: labels).Nodup

theorem wellNamed_of_parse {line : Bytes} {sample : Sample} (h : parse line = some sample) :
    WellNamed sample.name (sample.labels.map Prod.fst) := by
  obtain ⟨⟨name, s⟩, hname, h⟩ := Option.bind_eq_some_iff.mp h
  obtain ⟨⟨labels, s'⟩, hlabels, h⟩ := Option.bind_eq_some_iff.mp h
  simp only at h
  split at h
  · rename_i hnodup
    obtain ⟨⟨value, time⟩, -, heq⟩ := Option.map_eq_some_iff.mp h
    cases heq
    exact ⟨isName_of_readName hname,
      List.forall_mem_map.mpr (isName_of_readBraces hlabels), hnodup⟩
  · cases h

end EdgeDispatch.Lib.PromText
