import EdgeDispatch.Lib.MapRange
import EdgeDispatch.Lib.PromText

/-! # Metrics with labels (internal/metrics/metrics.go:88-202)

A metric keeps one number for each tuple of label values that it was updated with. The tuple is
made into a key, and the key is taken apart again when the numbers are written for Prometheus.
Gauges are set and counters are added to; they are alike otherwise. -/

namespace EdgeDispatch.Metrics
open Lib.ByteString Lib.GoStrings Lib.GoStrconv
open Lib.MapRange Lib.PromText

/-! ### The verb `%g` -/

/-- The shortest decimal digits that stand for a float64; `dp` is the place of the point. -/
inductive Decimal where
  | nan
  | inf (neg : Bool)
  | finite (neg : Bool) (digits : List (Fin 10)) (dp : ℤ)

def digitBytes (digits : List (Fin 10)) : Bytes := digits.map fun d : Fin 10 => digit d.val

def sign (neg : Bool) : Bytes := if neg then [45] else []

/- An exponent has two digits or more. -/
def formatE (digits : Bytes) (dp : ℤ) : Bytes :=
  let exp := if digits = [] then 0 else dp - 1
  digits.headD 48 :: (if 1 < digits.length then 46 :: digits.tail else []) ++
    101 :: (if exp < 0 then 45 else 43) ::
      (List.replicate (2 - (decimal exp.natAbs).length) 48 ++ decimal exp.natAbs)

def formatF (digits : Bytes) (dp : ℤ) : Bytes :=
  let whole := if 0 < dp then digits.take dp.toNat ++ List.replicate (dp.toNat - digits.length) 48
    else [48]
  let prec := (digits.length - dp).toNat
  let frac := (List.range prec).map fun i =>
    if 0 ≤ dp + i then digits.getD (dp + i).toNat 48 else 48
  whole ++ (if 0 < prec then 46 :: frac else [])

def formatG : Decimal → Bytes
  | .nan => lit "NaN"
  | .inf neg => if neg then lit "-Inf" else lit "+Inf"
  | .finite neg digits dp =>
    sign neg ++
      (if dp - 1 < -4 ∨ 6 ≤ dp - 1 then formatE (digitBytes digits) dp
        else formatF (digitBytes digits) dp)

example : formatG (.finite false [] 0) = lit "0" := by decide +kernel
example : formatG (.finite true [1, 2, 5] 1) = lit "-1.25" := by decide +kernel
example : formatG (.finite false [5] (-2)) = lit "0.005" := by decide +kernel
example : formatG (.finite false [1, 5] 7) = lit "1.5e+06" := by decide +kernel

theorem figure_digit {d : ℕ} (h : d < 10) : figure (digit d) = true := by
  simp only [figure, Bool.and_eq_true, decide_eq_true_eq, UInt8.le_iff_toNat_le, digit_toNat h]
  constructor
  · exact Nat.le_add_right 48 d
  · show 48 + d ≤ 57
    omega

theorem figure_digitBytes (digits : List (Fin 10)) : ∀ b ∈ digitBytes digits, figure b = true := by
  intro b hb
  obtain ⟨d, -, rfl⟩ := List.mem_map.mp hb
  exact figure_digit d.isLt

theorem figure_decimal (n : ℕ) : ∀ b ∈ decimal n, figure b = true := by
  intro b hb
  obtain ⟨d, hd, rfl⟩ := decimal_digits n b hb
  exact figure_digit hd

theorem figure_replicate (k : ℕ) : ∀ b ∈ List.replicate k (48 : Byte), figure b = true := by
  intro b hb
  rw [List.eq_of_mem_replicate hb]
  rfl

theorem isExponent_padded (neg : Bool) (k n : ℕ) :
    isExponent (101 :: (if neg then 45 else 43) :: (List.replicate k 48 ++ decimal n)) = true := by
  have hdigits : figures (List.replicate k 48 ++ decimal n) = true := by
    refine Bool.and_eq_true_iff.mpr ⟨by simp [decimal_ne_nil], List.all_eq_true.mpr fun b hb => ?_⟩
    rcases List.mem_append.mp hb with hb | hb
    · exact figure_replicate k b hb
    · exact figure_decimal n b hb
  cases neg with
  | true => exact hdigits
  | false => exact hdigits

theorem isNumber_formatE {digits : Bytes} (h : ∀ b ∈ digits, figure b = true) (dp : ℤ)
    (neg : Bool) : isNumber (sign neg ++ formatE digits dp) = true := by
  have hfirst : figure (digits.headD 48) = true := by
    cases digits with
    | nil => rfl
    | cons d rest => exact h d List.mem_cons_self
  have htail : ∀ b ∈ digits.tail, figure b = true := fun b hb => h b (List.mem_of_mem_tail hb)
  unfold formatE
  generalize (if digits = [] then 0 else dp - 1) = exp
  have hexp := isExponent_padded (decide (exp < 0)) (2 - (decimal exp.natAbs).length) exp.natAbs
  simp only [decide_eq_true_eq] at hexp
  have hsingle : ∀ b ∈ [digits.headD 48], figure b = true := List.forall_mem_singleton.mpr hfirst
  rw [← List.singleton_append, List.append_assoc]
  refine isNumber_append (List.cons_ne_nil _ _) hsingle ?_ ?_ neg
  · split <;> rintro b ⟨⟩ <;> rfl
  · split
    · rw [List.cons_append]
      exact isFraction_point htail (by rintro b ⟨⟩; rfl) hexp
    · rw [List.nil_append, isFraction, if_neg (by decide), hexp]
      rfl

theorem isNumber_formatF {digits : Bytes} (h : ∀ b ∈ digits, figure b = true) (dp : ℤ)
    (neg : Bool) : isNumber (sign neg ++ formatF digits dp) = true := by
  have hzero : figure 48 = true := rfl
  unfold formatF
  refine isNumber_append ?_ ?_ ?_ ?_ neg
  · split
    · rename_i hdp
      have hlength : 0 < dp.toNat := Int.lt_toNat.mpr hdp
      rw [Ne, ← List.length_eq_zero_iff, List.length_append, List.length_take,
        List.length_replicate]
      omega
    · exact List.cons_ne_nil _ _
  · split
    · intro b hb
      rcases List.mem_append.mp hb with hb | hb
      · exact h b (List.mem_of_mem_take hb)
      · exact figure_replicate _ b hb
    · exact List.forall_mem_singleton.mpr hzero
  · split <;> rintro b ⟨⟩
    rfl
  · split
    · rw [← List.append_nil (List.map _ _)]
      refine isFraction_point ?_ nofun rfl
      intro b hb
      obtain ⟨i, -, rfl⟩ := List.mem_map.mp hb
      split
      · rw [List.getD_eq_getElem?_getD]
        cases hd : digits[(dp + i).toNat]? with
        | none => exact hzero
        | some d => exact h d (List.mem_of_getElem? hd)
      · exact hzero
    · rfl

theorem isFloat_formatG (x : Decimal) : isFloat (formatG x) = true := by
  cases x with
  | nan => decide
  | inf neg => cases neg <;> decide
  | finite neg digits dp =>
    have hdigits := figure_digitBytes digits
    have hnumber : isNumber (formatG (.finite neg digits dp)) = true := by
      rw [formatG]
      split
      · exact isNumber_formatE hdigits dp neg
      · exact isNumber_formatF hdigits dp neg
    rw [isFloat, hnumber, Bool.or_true]

/-! ### Series -/

/-- What the package needs of float64. -/
structure Float64 (F : Type) where
  zero : F
  one : F
  add : F → F → F
  decimal : F → Decimal

structure MetricEntry where
  name : Bytes
  labels : List Bytes

def makeLabelKey (labels values : List Bytes) : Bytes :=
  if labels.length ≠ values.length then lit "_" else join 0 values

section Updates
variable {F : Type} (fl : Float64 F) (labels : List Bytes)

def set (value : F) (labelVals : List Bytes) (values : Bytes → Option F) : Bytes → Option F :=
  Function.update values (makeLabelKey labels labelVals) (some value)

/- A key that is missing counts as zero. -/
def add (delta : F) (labelVals : List Bytes) (values : Bytes → Option F) : Bytes → Option F :=
  let key := makeLabelKey labels labelVals
  Function.update values key (some (fl.add ((values key).getD fl.zero) delta))

def inc (labelVals : List Bytes) (values : Bytes → Option F) : Bytes → Option F :=
  add fl labels fl.one labelVals values

inductive Update (F : Type) where
  | set (value : F) (labelVals : List Bytes)
  | add (delta : F) (labelVals : List Bytes)
  | inc (labelVals : List Bytes)

def Update.labelVals : Update F → List Bytes
  | .set _ vals => vals
  | .add _ vals => vals
  | .inc vals => vals

def apply (values : Bytes → Option F) : Update F → Bytes → Option F
  | .set value vals => set labels value vals values
  | .add delta vals => add fl labels delta vals values
  | .inc vals => inc fl labels vals values

/-- The numbers of a metric after `updates`. -/
def run (updates : List (Update F)) : Bytes → Option F :=
  updates.foldl (apply fl labels) fun _ => none

end Updates

def formatLabels (labels : List Bytes) (key : Bytes) : Bytes :=
  if key = lit "_" ∨ labels.length = 0 then []
  else
    let values := split 0 key
    if values.length ≠ labels.length then []
    else
      let parts := (labels.zip values).map fun (label, value) =>
        label ++ lit "=\"" ++ value ++ lit "\""
      lit "\x7b" ++ join 44 parts ++ lit "\x7d"

section Writing
variable {F : Type} (fl : Float64 F) (entry : MetricEntry)

def line (key : Bytes) (value : F) : Bytes :=
  entry.name ++ formatLabels entry.labels key ++ lit " " ++ formatG (fl.decimal value) ++ lit "\n"

/- `sort.Strings` -/
def sortStrings (keys : List Bytes) : List Bytes := keys.mergeSort fun a b => a ≤ b

/- The map is gone over in the order `order`. -/
def lines (values : Bytes → Option F) (order : List Bytes) : List Bytes :=
  (sortStrings order).map fun key => line fl entry key ((values key).getD fl.zero)

def writeValues (values : Bytes → Option F) (order : List Bytes) : Bytes :=
  (lines fl entry values order).flatten

end Writing

/-! ### Keys and labels -/

section Keys
variable {labels vals vals' : List Bytes}

theorem makeLabelKey_eq (h : vals.length = labels.length) :
    makeLabelKey labels vals = join 0 vals :=
  if_neg (not_not_intro h.symm)

theorem makeLabelKey_inj (h : vals.length = labels.length) (h' : vals'.length = labels.length)
    (hnul : ∀ s ∈ vals, 0 ∉ s) (hnul' : ∀ s ∈ vals', 0 ∉ s)
    (heq : makeLabelKey labels vals = makeLabelKey labels vals') : vals = vals' := by
  rw [makeLabelKey_eq h, makeLabelKey_eq h'] at heq
  by_cases hne : vals = []
  · have hlength : vals'.length = 0 := by rw [h', ← h, hne]; rfl
    rw [hne, List.length_eq_zero_iff.mp hlength]
  · have hne' : vals' ≠ [] := by
      rintro rfl
      exact hne (List.length_eq_zero_iff.mp (h.trans h'.symm))
    rw [← split_join hne hnul, heq, split_join hne' hnul']

/-- Values that are written in a form that reads back. -/
structure Clean (vals : List Bytes) : Prop where
  nul : ∀ s ∈ vals, 0 ∉ s
  plain : ∀ s ∈ vals, Plain s
  valid : ∀ s ∈ vals, validUTF8 s = true
  sentinel : vals ≠ [lit "_"]

instance (vals : List Bytes) : Decidable (Clean vals) :=
  decidable_of_iff ((∀ s ∈ vals, 0 ∉ s) ∧ (∀ s ∈ vals, Plain s) ∧
      (∀ s ∈ vals, validUTF8 s = true) ∧ vals ≠ [lit "_"])
    ⟨fun ⟨h₁, h₂, h₃, h₄⟩ => ⟨h₁, h₂, h₃, h₄⟩, fun ⟨h₁, h₂, h₃, h₄⟩ => ⟨h₁, h₂, h₃, h₄⟩⟩

theorem clean_nil : Clean [] := by decide

theorem Clean.readable (h : Clean vals) {l : Bytes × Bytes} (hl : l.2 ∈ vals) : Readable l :=
  ⟨h.plain _ hl, h.valid _ hl⟩

theorem raw_eq (l : Bytes × Bytes) : l.1 ++ lit "=\"" ++ l.2 ++ lit "\"" = raw l := by
  have hopen : lit "=\"" = [61, 34] := by decide
  have hclose : lit "\"" = [34] := by decide
  rw [hopen, hclose, raw]
  simp

/- What is written for a key of as many values as there are labels. -/
theorem formatLabels_join (hlen : vals.length = labels.length) (hne : labels ≠ [])
    (hnul : ∀ s ∈ vals, 0 ∉ s) (hsentinel : vals ≠ [lit "_"]) :
    formatLabels labels (join 0 vals) = 123 :: (join 44 ((labels.zip vals).map raw) ++ [125]) := by
  have hvals : vals ≠ [] := by
    rintro rfl
    exact hne (List.length_eq_zero_iff.mp hlen.symm)
  have hsplit := split_join hvals hnul
  have hkey : join 0 vals ≠ lit "_" := by
    intro hkey
    rw [hkey] at hsplit
    exact hsentinel hsplit.symm
  have hzero : ¬ labels.length = 0 := fun h => hne (List.length_eq_zero_iff.mp h)
  have hparts : ((labels.zip vals).map fun (label, value) =>
      label ++ lit "=\"" ++ value ++ lit "\"") = (labels.zip vals).map raw :=
    List.map_congr_left fun l _ => raw_eq l
  have hopen : lit "\x7b" = [123] := by decide
  have hclose : lit "\x7d" = [125] := by decide
  unfold formatLabels
  rw [if_neg (not_or.mpr ⟨hkey, hzero⟩)]
  simp only [hsplit]
  rw [if_neg (not_not_intro hlen), hparts, hopen, hclose]
  simp

/- With a NUL in a value the key splits into more than there are labels. -/
theorem formatLabels_eq_nil (hlen : vals.length = labels.length)
    (h : labels ≠ [] → (∀ s ∈ vals, 0 ∉ s) → vals = [lit "_"]) :
    formatLabels labels (join 0 vals) = [] := by
  unfold formatLabels
  by_cases hkey : join 0 vals = lit "_" ∨ labels.length = 0
  · exact if_pos hkey
  · rw [if_neg hkey]
    obtain ⟨hsentinel, hzero⟩ := not_or.mp hkey
    refine if_pos fun hcount => hsentinel ?_
    have hvals := h (mt List.length_eq_zero_iff.mpr hzero)
      (notMem_of_split_join (hcount.trans hlen.symm))
    rw [hvals, join_singleton]

end Keys

/-! ### Lines -/

section Lines
variable {F : Type} (fl : Float64 F) {entry : MetricEntry} {vals : List Bytes}
  (hlen : vals.length = entry.labels.length)
include hlen

omit hlen in
theorem line_eq (key : Bytes) (x : F) :
    line fl entry key x =
      entry.name ++ (formatLabels entry.labels key ++ 32 :: (formatG (fl.decimal x) ++ [10])) := by
  have hblank : lit " " = [32] := by decide
  have hlf : lit "\n" = [10] := by decide
  rw [line, hblank, hlf]
  simp

theorem line_eq_rawLine (hne : entry.labels ≠ []) (hnul : ∀ s ∈ vals, 0 ∉ s)
    (hsentinel : vals ≠ [lit "_"]) (x : F) :
    line fl entry (makeLabelKey entry.labels vals) x =
      rawLine entry.name (entry.labels.zip vals) (formatG (fl.decimal x)) := by
  rw [line_eq, makeLabelKey_eq hlen, formatLabels_join hlen hne hnul hsentinel, rawLine]
  simp

theorem line_eq_bare (h : entry.labels ≠ [] → (∀ s ∈ vals, 0 ∉ s) → vals = [lit "_"]) (x : F) :
    line fl entry (makeLabelKey entry.labels vals) x =
      entry.name ++ 32 :: (formatG (fl.decimal x) ++ [10]) := by
  rw [line_eq, makeLabelKey_eq hlen, formatLabels_eq_nil hlen h, List.nil_append]

theorem zip_names : (entry.labels.zip vals).map Prod.fst = entry.labels :=
  List.map_fst_zip (Nat.le_of_eq hlen.symm)

theorem zip_values : (entry.labels.zip vals).map Prod.snd = vals :=
  List.map_snd_zip (Nat.le_of_eq hlen)

theorem forall_zip_iff (p : Bytes → Prop) :
    (∀ l ∈ entry.labels.zip vals, p l.2) ↔ ∀ s ∈ vals, p s := by
  rw [← List.forall_mem_map, zip_values hlen]

section Named
variable (hnamed : WellNamed entry.name entry.labels)
include hnamed

omit hlen in
theorem isName_zip : ∀ l ∈ entry.labels.zip vals, isName labelFirst l.1 = true :=
  fun _ hl => hnamed.label _ (List.of_mem_zip hl).1

theorem parse_line (hclean : Clean vals) (x : F) :
    parse (line fl entry (makeLabelKey entry.labels vals) x) =
      some ⟨entry.name, entry.labels.zip vals, formatG (fl.decimal x), []⟩ := by
  have hfloat := isFloat_formatG (fl.decimal x)
  by_cases hne : entry.labels = []
  · rw [line_eq_bare fl hlen fun h => absurd hne h, parse_bare hnamed.metric hfloat, hne,
      List.zip_nil_left]
  · have hzip : entry.labels.zip vals ≠ [] := by
      intro hzip
      have hnames := zip_names hlen
      rw [hzip] at hnames
      exact hne hnames.symm
    rw [line_eq_rawLine fl hlen hne hclean.nul hclean.sentinel]
    refine parse_rawLine hnamed.metric hfloat hzip (isName_zip hnamed) ?_ ?_
    · rw [zip_names hlen]
      exact hnamed.nodup
    · exact fun l hl => hclean.readable (List.of_mem_zip hl).2

theorem ended_line (hclean : Clean vals) (x : F) :
    Ended (line fl entry (makeLabelKey entry.labels vals) x) := by
  have hfloat := isFloat_formatG (fl.decimal x)
  by_cases hne : entry.labels = []
  · rw [line_eq_bare fl hlen fun h => absurd hne h]
    exact ended_bare hnamed.metric hfloat
  · rw [line_eq_rawLine fl hlen hne hclean.nul hclean.sentinel]
    exact ended_rawLine hnamed.metric hfloat (isName_zip hnamed) fun l hl =>
      hclean.readable (List.of_mem_zip hl).2

theorem clean_of_parse_line {x : F} {sample : Sample}
    (h : parse (line fl entry (makeLabelKey entry.labels vals) x) = some sample)
    (hread : sample.labels.map Prod.snd = vals) : Clean vals := by
  by_cases hshown : entry.labels ≠ [] → (∀ s ∈ vals, 0 ∉ s) → vals = [lit "_"]
  · -- without braces no value is read
    rw [line_eq_bare fl hlen hshown, parse_bare hnamed.metric (isFloat_formatG _)] at h
    cases h
    rw [← hread]
    exact clean_nil
  · obtain ⟨hne, hshown⟩ := Classical.not_imp.mp hshown
    obtain ⟨hnul, hsentinel⟩ := Classical.not_imp.mp hshown
    rw [line_eq_rawLine fl hlen hne hnul hsentinel] at h
    have hreadable := readable_of_parse_rawLine hnamed.metric (isName_zip hnamed) h
      (hread.trans (zip_values hlen).symm)
    exact ⟨hnul, (forall_zip_iff hlen Plain).mp fun l hl => (hreadable l hl).1,
      (forall_zip_iff hlen (validUTF8 · = true)).mp fun l hl => (hreadable l hl).2, hsentinel⟩

theorem parse_line_values_iff (x : F) :
    (parse (line fl entry (makeLabelKey entry.labels vals) x)).map
        (fun sample => sample.labels.map Prod.snd) = some vals ↔ Clean vals := by
  constructor
  · intro h
    obtain ⟨sample, hparse, hread⟩ := Option.map_eq_some_iff.mp h
    exact clean_of_parse_line fl hlen hnamed hparse hread
  · intro hclean
    rw [parse_line fl hlen hnamed hclean, Option.map_some, zip_values hlen]

end Named

theorem parse_line_labels_iff (x : F) :
    (parse (line fl entry (makeLabelKey entry.labels vals) x)).map
        (fun sample => (sample.name, sample.labels)) = some (entry.name, entry.labels.zip vals) ↔
      WellNamed entry.name entry.labels ∧ Clean vals := by
  constructor
  · intro h
    obtain ⟨sample, hparse, hread⟩ := Option.map_eq_some_iff.mp h
    obtain ⟨hname, hlabels⟩ := Prod.mk.inj hread
    have hnamed := wellNamed_of_parse hparse
    rw [hname, hlabels, zip_names hlen] at hnamed
    refine ⟨hnamed, clean_of_parse_line fl hlen hnamed hparse ?_⟩
    rw [hlabels, zip_values hlen]
  · rintro ⟨hnamed, hclean⟩
    rw [parse_line fl hlen hnamed hclean, Option.map_some]

end Lines

/-! ### Runs -/

section Runs
variable {F : Type} (fl : Float64 F)

/- The number of a series after an update of it. -/
def Update.next (old : Option F) : Update F → F
  | .set value _ => value
  | .add delta _ => fl.add (old.getD fl.zero) delta
  | .inc _ => fl.add (old.getD fl.zero) fl.one

theorem apply_eq (labels : List Bytes) (values : Bytes → Option F) (u : Update F) :
    apply fl labels values u =
      Function.update values (makeLabelKey labels u.labelVals)
        (some (u.next fl (values (makeLabelKey labels u.labelVals)))) := by
  cases u with
  | set value vals => rfl
  | add delta vals => rfl
  | inc vals => rfl

/-- A series is what the updates with its key have made of it. -/
theorem run_eq (labels : List Bytes) (updates : List (Update F)) (key : Bytes) :
    run fl labels updates key =
      (updates.filter fun u => makeLabelKey labels u.labelVals = key).foldl
        (fun old u => some (u.next fl old)) none := by
  induction updates using List.reverseRecOn with
  | nil => rfl
  | append_singleton updates u ih =>
    have hstep : run fl labels (updates ++ [u]) = apply fl labels (run fl labels updates) u := by
      simp [run]
    rw [hstep, apply_eq, List.filter_append, List.foldl_append, ← ih]
    by_cases hkey : makeLabelKey labels u.labelVals = key
    · simp [hkey]
    · simp [hkey, Function.update_of_ne (Ne.symm hkey)]

theorem foldl_next_isSome (updates : List (Update F)) (old : Option F) :
    (updates.foldl (fun old u => some (u.next fl old)) old).isSome = true ↔
      old.isSome = true ∨ updates ≠ [] := by
  induction updates generalizing old with
  | nil => simp
  | cons u updates ih => simp [ih]

theorem run_isSome_iff (labels : List Bytes) (updates : List (Update F)) (key : Bytes) :
    (run fl labels updates key).isSome = true ↔
      ∃ u ∈ updates, makeLabelKey labels u.labelVals = key := by
  rw [run_eq, foldl_next_isSome]
  simp [List.filter_eq_nil_iff]

variable (entry : MetricEntry) (updates : List (Update F))

/-- Updates with different values go to different series. -/
def Distinct : Prop :=
  ∀ u ∈ updates, ∀ u' ∈ updates, u.labelVals ≠ u'.labelVals →
    makeLabelKey entry.labels u.labelVals ≠ makeLabelKey entry.labels u'.labelVals

/-- How the line of the series of `vals` reads after the updates. -/
def exposed (vals : List Bytes) : Option Sample :=
  (run fl entry.labels updates (makeLabelKey entry.labels vals)).bind fun value =>
    parse (line fl entry (makeLabelKey entry.labels vals) value)

variable {updates}
variable {u : Update F}

theorem exposed_eq (hu : u ∈ updates) :
    ∃ value, exposed fl entry updates u.labelVals =
      parse (line fl entry (makeLabelKey entry.labels u.labelVals) value) := by
  have hsome := (run_isSome_iff fl entry.labels updates _).mpr ⟨u, hu, rfl⟩
  obtain ⟨value, hvalue⟩ := Option.isSome_iff_exists.mp hsome
  refine ⟨value, ?_⟩
  rw [exposed, hvalue, Option.bind_some]

variable {entry}

theorem exposed_labels_iff (hu : u ∈ updates) (hlen : u.labelVals.length = entry.labels.length) :
    (exposed fl entry updates u.labelVals).map (fun sample => (sample.name, sample.labels)) =
        some (entry.name, entry.labels.zip u.labelVals) ↔
      WellNamed entry.name entry.labels ∧ Clean u.labelVals := by
  obtain ⟨value, hexposed⟩ := exposed_eq fl entry hu
  rw [hexposed]
  exact parse_line_labels_iff fl hlen value

theorem exposed_values_iff (hu : u ∈ updates) (hlen : u.labelVals.length = entry.labels.length)
    (hnamed : WellNamed entry.name entry.labels) :
    (exposed fl entry updates u.labelVals).map (fun sample => sample.labels.map Prod.snd) =
        some u.labelVals ↔ Clean u.labelVals := by
  obtain ⟨value, hexposed⟩ := exposed_eq fl entry hu
  rw [hexposed]
  exact parse_line_values_iff fl hlen hnamed value

theorem distinct_of_clean (hlen : ∀ u ∈ updates, u.labelVals.length = entry.labels.length)
    (hclean : ∀ u ∈ updates, Clean u.labelVals) : Distinct entry updates := by
  intro u hu u' hu' hne hkey
  exact hne (makeLabelKey_inj (hlen u hu) (hlen u' hu') (hclean u hu).nul (hclean u' hu').nul hkey)

/-- The series of a metric are kept apart and their labels read back just if all names are well
formed and the values clean. Where the names are well formed it comes to the same if only the
values are read. -/
theorem series_distinct_and_readable_iff (fl : Float64 F) (entry : MetricEntry)
    (updates : List (Update F))
    (hlen : ∀ u ∈ updates, u.labelVals.length = entry.labels.length) :
    ((Distinct entry updates ∧ ∀ u ∈ updates,
        (exposed fl entry updates u.labelVals).map (fun sample => (sample.name, sample.labels)) =
          some (entry.name, entry.labels.zip u.labelVals)) ↔
      ∀ u ∈ updates, WellNamed entry.name entry.labels ∧ Clean u.labelVals) ∧
    (WellNamed entry.name entry.labels →
      ((Distinct entry updates ∧ ∀ u ∈ updates,
          (exposed fl entry updates u.labelVals).map (fun sample => sample.labels.map Prod.snd) =
            some u.labelVals) ↔
        ∀ u ∈ updates, Clean u.labelVals)) := by
  constructor
  · constructor
    · intro h u hu
      exact (exposed_labels_iff fl hu (hlen u hu)).mp (h.2 u hu)
    · intro h
      refine ⟨distinct_of_clean hlen fun u hu => (h u hu).2, fun u hu => ?_⟩
      exact (exposed_labels_iff fl hu (hlen u hu)).mpr (h u hu)
  · intro hnamed
    constructor
    · intro h u hu
      exact (exposed_values_iff fl hu (hlen u hu) hnamed).mp (h.2 u hu)
    · intro h
      refine ⟨distinct_of_clean hlen h, fun u hu => ?_⟩
      exact (exposed_values_iff fl hu (hlen u hu) hnamed).mpr (h u hu)

/- Numbers below ten. -/
def smallNumbers : Float64 (Fin 10) where
  zero := 0
  one := 1
  add := (· + ·)
  decimal n := .finite false [n] 1

def nodeStatus : MetricEntry := ⟨lit "controlplane_node_status", [lit "status"]⟩
def byRegion : MetricEntry := ⟨lit "requests_total", [lit "region", lit "isp"]⟩

theorem node_statuses_readable :
    (exposed smallNumbers nodeStatus [.set 3 [lit "active"], .set 1 [lit "offline"]]
        [lit "active"]).map (fun sample => (sample.name, sample.labels)) =
      some (nodeStatus.name, [(lit "status", lit "active")]) := by
  have hread := (series_distinct_and_readable_iff smallNumbers nodeStatus
    [.set 3 [lit "active"], .set 1 [lit "offline"]] (by decide)).1.mpr
      (by
        have hnamed : WellNamed nodeStatus.name nodeStatus.labels :=
          ⟨by decide, by decide, by decide⟩
        exact List.forall_mem_cons.mpr ⟨⟨hnamed, by decide⟩,
          List.forall_mem_singleton.mpr ⟨hnamed, by decide⟩⟩)
  exact hread.2 (.set 3 [lit "active"]) List.mem_cons_self

/-- A NUL moves from one value to the next and the key stays; a quote makes the line unreadable;
a backslash and the letter n read as a LF; the value `_` is taken for the key of a mismatch. -/
theorem label_values_lost :
    ¬ Distinct byRegion
        [.set (1 : Fin 10) [lit "a\x00b", lit "c"], .set 2 [lit "a", lit "b\x00c"]] ∧
      exposed smallNumbers nodeStatus [.set 1 [lit "a\"b"]] [lit "a\"b"] = none ∧
      (exposed smallNumbers nodeStatus [.set 1 [lit "a\\nb"]] [lit "a\\nb"]).map Sample.labels =
        some [(lit "status", lit "a\nb")] ∧
      (exposed smallNumbers nodeStatus [.set 1 [lit "_"]] [lit "_"]).map Sample.labels =
        some [] := by
  refine ⟨fun h => ?_, by decide +kernel, by decide +kernel, by decide +kernel⟩
  exact h _ List.mem_cons_self _ (List.mem_cons_of_mem _ List.mem_cons_self) (by decide) (by decide)

end Runs

/-! ### The text for all series -/

section Text
variable {F : Type} (fl : Float64 F) (entry : MetricEntry) {values : Bytes → Option F}
  {order order' : List Bytes}

theorem sortStrings_perm (keys : List Bytes) : (sortStrings keys).Perm keys :=
  List.mergeSort_perm _ _

theorem sortStrings_pairwise (keys : List Bytes) : (sortStrings keys).Pairwise (· ≤ ·) := by
  have htrans (a b c : Bytes) (hab : decide (a ≤ b) = true) (hbc : decide (b ≤ c) = true) :
      decide (a ≤ c) = true :=
    decide_eq_true (List.le_trans (of_decide_eq_true hab) (of_decide_eq_true hbc))
  have htotal (a b : Bytes) : (decide (a ≤ b) || decide (b ≤ a)) = true := by
    simpa using List.le_total a b
  exact (List.pairwise_mergeSort htrans htotal keys).imp of_decide_eq_true

theorem sortStrings_congr (h : order.Perm order') : sortStrings order = sortStrings order' := by
  have hperm := (sortStrings_perm order).trans (h.trans (sortStrings_perm order').symm)
  exact List.Perm.eq_of_pairwise (fun _ _ _ _ => List.le_antisymm) (sortStrings_pairwise _)
    (sortStrings_pairwise _) hperm

/-- The text does not depend on the order in which the runtime goes over the map. -/
theorem writeValues_order (h : Visits values order) (h' : Visits values order') :
    writeValues fl entry values order = writeValues fl entry values order' := by
  have hperm : order.Perm order' := (List.perm_ext_iff_of_nodup h.nodup h'.nodup).mpr fun key =>
    (h.mem_iff key).trans (h'.mem_iff key).symm
  rw [writeValues, writeValues, lines, lines, sortStrings_congr hperm]

theorem mem_lines_iff (h : Visits values order) (text : Bytes) :
    text ∈ lines fl entry values order ↔
      ∃ key value, values key = some value ∧ text = line fl entry key value := by
  rw [lines, List.mem_map]
  constructor
  · rintro ⟨key, hkey, rfl⟩
    have hsome := (h.mem_iff key).mp ((sortStrings_perm order).mem_iff.mp hkey)
    obtain ⟨value, hvalue⟩ := Option.isSome_iff_exists.mp hsome
    refine ⟨key, value, hvalue, ?_⟩
    rw [hvalue, Option.getD_some]
  · rintro ⟨key, value, hvalue, rfl⟩
    refine ⟨key, (sortStrings_perm order).mem_iff.mpr ((h.mem_iff key).mpr ?_), ?_⟩
    · rw [hvalue]
      rfl
    · rw [hvalue, Option.getD_some]

variable {entry} {updates : List (Update F)}
  (hlen : ∀ u ∈ updates, u.labelVals.length = entry.labels.length)
  (hclean : ∀ u ∈ updates, Clean u.labelVals)
include hlen hclean

/- No update reaches the series of another tuple. -/
theorem run_of_clean {u : Update F} (hu : u ∈ updates) :
    run fl entry.labels updates (makeLabelKey entry.labels u.labelVals) =
      (updates.filter fun u' => u'.labelVals = u.labelVals).foldl
        (fun old u => some (u.next fl old)) none := by
  have hdistinct := distinct_of_clean hlen hclean
  rw [run_eq]
  refine congrArg _ (List.filter_congr fun u' hu' => decide_eq_decide.mpr ⟨fun hkey => ?_, ?_⟩)
  · by_contra hne
    exact hdistinct u' hu' u hu hne hkey
  · intro hvals
    rw [hvals]

section Named
variable (hnamed : WellNamed entry.name entry.labels)
  (h : Visits (run fl entry.labels updates) order)
include hnamed h

/- A line is that of a tuple of values. -/
theorem exists_update_of_mem {key : Bytes} (hkey : key ∈ sortStrings order) :
    ∃ u ∈ updates, makeLabelKey entry.labels u.labelVals = key ∧ ∀ x,
      parse (line fl entry key x) =
        some ⟨entry.name, entry.labels.zip u.labelVals, formatG (fl.decimal x), []⟩ := by
  have hsome := (h.mem_iff key).mp ((sortStrings_perm order).mem_iff.mp hkey)
  obtain ⟨u, hu, rfl⟩ := (run_isSome_iff fl entry.labels updates key).mp hsome
  exact ⟨u, hu, rfl, parse_line fl (hlen u hu) hnamed (hclean u hu)⟩

theorem samples_writeValues :
    samples (writeValues fl entry (run fl entry.labels updates) order) =
      (lines fl entry (run fl entry.labels updates) order).filterMap parse := by
  refine samples_flatten fun text htext => ?_
  obtain ⟨key, value, hvalue, rfl⟩ := (mem_lines_iff fl entry h text).mp htext
  obtain ⟨u, hu, rfl⟩ := (run_isSome_iff fl entry.labels updates key).mp (by rw [hvalue]; rfl)
  exact ended_line fl (hlen u hu) hnamed (hclean u hu) value

/- Two lines differ in the labels that are read from them. -/
theorem nodup_samples :
    ((lines fl entry (run fl entry.labels updates) order).filterMap parse).Nodup := by
  rw [lines, List.filterMap_map]
  refine List.pairwise_filterMap.mpr ?_
  have hkeys : (sortStrings order).Nodup := (sortStrings_perm order).nodup_iff.mpr h.nodup
  refine hkeys.imp_of_mem fun hkey hkey' hne sample hsample sample' hsample' heq => hne ?_
  obtain ⟨u, hu, rfl, hparse⟩ := exists_update_of_mem fl hlen hclean hnamed h hkey
  obtain ⟨u', hu', rfl, hparse'⟩ := exists_update_of_mem fl hlen hclean hnamed h hkey'
  rw [Function.comp_apply, hparse] at hsample
  rw [Function.comp_apply, hparse'] at hsample'
  have hlabels : entry.labels.zip u.labelVals = entry.labels.zip u'.labelVals :=
    congrArg Sample.labels ((Option.some.inj hsample).trans
      (heq.trans (Option.some.inj hsample').symm))
  have hvals := congrArg (List.map Prod.snd) hlabels
  rw [zip_values (hlen u hu), zip_values (hlen u' hu')] at hvals
  rw [hvals]

end Named

/-- After updates with clean values the text holds one sample for each tuple of values, with the
number that the updates of this tuple have made. -/
theorem mem_samples_iff (hnamed : WellNamed entry.name entry.labels)
    (h : Visits (run fl entry.labels updates) order) :
    (samples (writeValues fl entry (run fl entry.labels updates) order)).Nodup ∧
    ∀ sample, sample ∈ samples (writeValues fl entry (run fl entry.labels updates) order) ↔
      ∃ u ∈ updates, ∃ value,
        (updates.filter fun u' => u'.labelVals = u.labelVals).foldl
            (fun old u => some (u.next fl old)) none = some value ∧
          sample = ⟨entry.name, entry.labels.zip u.labelVals, formatG (fl.decimal value), []⟩ := by
  rw [samples_writeValues fl hlen hclean hnamed h]
  refine ⟨nodup_samples fl hlen hclean hnamed h, fun sample => ?_⟩
  rw [List.mem_filterMap]
  constructor
  · rintro ⟨text, htext, hparse⟩
    obtain ⟨key, value, hvalue, rfl⟩ := (mem_lines_iff fl entry h text).mp htext
    obtain ⟨u, hu, rfl⟩ := (run_isSome_iff fl entry.labels updates key).mp (by rw [hvalue]; rfl)
    rw [parse_line fl (hlen u hu) hnamed (hclean u hu)] at hparse
    refine ⟨u, hu, value, ?_, (Option.some.inj hparse).symm⟩
    rw [← run_of_clean fl hlen hclean hu, hvalue]
  · rintro ⟨u, hu, value, hvalue, rfl⟩
    rw [← run_of_clean fl hlen hclean hu] at hvalue
    exact ⟨_, (mem_lines_iff fl entry h _).mpr ⟨_, value, hvalue, rfl⟩,
      parse_line fl (hlen u hu) hnamed (hclean u hu) value⟩

end Text

def statusUpdates : List (Update (Fin 10)) :=
  [.set 3 [lit "active"], .inc [lit "offline"], .add 2 [lit "active"], .inc [lit "active"]]

theorem visits_statusUpdates :
    Visits (run smallNumbers nodeStatus.labels statusUpdates) [lit "offline", lit "active"] := by
  refine ⟨by decide, fun key => ?_⟩
  have hkey (s : Bytes) : makeLabelKey nodeStatus.labels [s] = s := join_singleton 0 s
  rw [run_isSome_iff]
  simp only [statusUpdates, List.mem_cons, List.not_mem_nil, or_false, exists_eq_or_imp,
    exists_eq_left, Update.labelVals, hkey]
  constructor
  · rintro (rfl | rfl)
    · exact .inr (.inl rfl)
    · exact .inl rfl
  · rintro (rfl | rfl | rfl | rfl) <;> simp

theorem samples_of_node_statuses :
    (samples (writeValues smallNumbers nodeStatus
      (run smallNumbers nodeStatus.labels statusUpdates) [lit "offline", lit "active"])).Nodup ∧
    ∀ status number, (status, number) ∈ [(lit "active", lit "6"), (lit "offline", lit "1")] →
      ⟨nodeStatus.name, [(lit "status", status)], number, []⟩ ∈
        samples (writeValues smallNumbers nodeStatus
          (run smallNumbers nodeStatus.labels statusUpdates) [lit "offline", lit "active"]) := by
  have hlen : ∀ u ∈ statusUpdates, u.labelVals.length = nodeStatus.labels.length := by decide
  obtain ⟨hnodup, hmem⟩ := mem_samples_iff smallNumbers hlen (by decide)
    ⟨by decide, by decide, by decide⟩ visits_statusUpdates
  refine ⟨hnodup, fun status number h => (hmem _).mpr ?_⟩
  rcases List.mem_cons.mp h with h | h
  · cases h
    exact ⟨.set 3 [lit "active"], List.mem_cons_self, 6, by decide, by decide⟩
  · cases List.mem_singleton.mp h
    exact ⟨.inc [lit "offline"], List.mem_cons_of_mem _ List.mem_cons_self, 1, by decide, by decide⟩

end EdgeDispatch.Metrics
