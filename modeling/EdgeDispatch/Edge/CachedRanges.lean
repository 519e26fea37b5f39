import EdgeDispatch.Edge.Ranges
import EdgeDispatch.Lib.GoInt64

/-! # Which bytes a Range header selects

The edge reads the header in `parseRangeHeader` and answers from a file of its cache
(internal/edgeagent/server.go:528-569, 892-944); the origin has a parser of its own
(cmd/origin/main.go:187-232). Both compute with int64. -/

namespace EdgeDispatch.Edge.Ranges
open Lib.ByteString Lib.GoStrings Lib.GoStrconv
open Lib.GoInt64 Edge.TokenCheck

/-! ### Where the parsers agree -/

/-- A suffix so far below zero that the start of the range wraps around. -/
def SuffixOverflows (rh : Bytes) (size : Int64) : Prop :=
  ∃ text suffix, rh = lit "bytes=" ++ 45 :: text ∧ parseInt text = some suffix ∧
    0 < size ∧ 2 ^ 63 ≤ size.toInt - suffix.toInt

theorem within_suffixRange_eq_none {suffix size : Int64} (h : suffix ≤ 0) :
    within size (suffixRange suffix size) = none ↔
      ¬ (0 < size ∧ 2 ^ 63 ≤ size.toInt - suffix.toInt) := by
  have hsub := toInt_sub_cases size suffix
  have hzero : (0 : Int64).toInt = 0 := rfl
  have hsize := size.toInt_lt
  have hsuffix := suffix.le_toInt
  rw [Int64.le_iff_toInt_le, hzero] at h
  unfold within suffixRange
  simp only [Int64.lt_iff_toInt_lt, Int64.le_iff_toInt_le, ge_iff_le, hzero, ite_eq_left_iff,
    reduceCtorEq, imp_false, not_not]
  by_cases hpos : 0 ≤ size.toInt
  · have hlast := toInt_sub_one hpos
    split
    · rw [hzero]
      omega
    · omega
  · split
    · rw [hzero]
      omega
    · omega

theorem suffixOverflows_iff {text : Bytes} {size : Int64} :
    SuffixOverflows (lit "bytes=" ++ 45 :: text) size ↔
      ∃ suffix, parseInt text = some suffix ∧ 0 < size ∧ 2 ^ 63 ≤ size.toInt - suffix.toInt := by
  constructor
  · rintro ⟨text', suffix, heq, hsuffix⟩
    cases List.append_cancel_left heq
    exact ⟨suffix, hsuffix⟩
  · rintro ⟨suffix, hsuffix⟩
    exact ⟨text, suffix, rfl, hsuffix⟩

theorem suffix_parsers_agree_iff (text : Bytes) (size : Int64) :
    parseRangeHeader (lit "bytes=" ++ 45 :: text) size =
        parseHTTPRange (lit "bytes=" ++ 45 :: text) size ↔
      ¬ SuffixOverflows (lit "bytes=" ++ 45 :: text) size := by
  have hedge := parseRangeHeader_parts List.not_mem_nil text size
  have horigin := parseHTTPRange_parts List.not_mem_nil text size
  rw [List.nil_append, if_pos rfl] at hedge horigin
  rw [hedge, horigin, suffixOverflows_iff]
  cases parseInt text with
  | none => simp
  | some suffix =>
    simp only [Option.map_some, Option.bind_some, Option.some.injEq, exists_eq_left']
    by_cases hsuffix : suffix ≤ 0
    · rw [if_pos hsuffix, Option.bind_none]
      exact within_suffixRange_eq_none hsuffix
    · rw [if_neg hsuffix, Option.bind_some]
      refine iff_of_true rfl fun hwraps => hsuffix ?_
      have hsize := size.toInt_lt
      have hzero : (0 : Int64).toInt = 0 := rfl
      rw [Int64.le_iff_toInt_le, hzero]
      omega

/-- The parsers agree on every header but the suffix that wraps around, which the edge takes
for the whole object and the origin refuses. -/
theorem range_parsers_agree_iff (rh : Bytes) (size : Int64) :
    parseRangeHeader rh size = parseHTTPRange rh size ↔ ¬ SuffixOverflows rh size := by
  by_cases hform : HasParts rh
  · obtain ⟨first, second, hfirst, rfl⟩ := hform
    by_cases hnil : first = []
    · subst hnil
      exact suffix_parsers_agree_iff second size
    · rw [parseRangeHeader_parts hfirst, parseHTTPRange_parts hfirst, if_neg hnil, if_neg hnil]
      refine iff_of_true rfl ?_
      rintro ⟨text, suffix, heq, -⟩
      obtain ⟨b, rest, rfl⟩ := List.exists_cons_of_ne_nil hnil
      cases (List.cons.inj (List.append_cancel_left heq)).1
      exact hfirst List.mem_cons_self
  · obtain ⟨hedge, horigin⟩ := parse_no_parts hform size
    rw [hedge, horigin]
    refine iff_of_true rfl ?_
    rintro ⟨text, suffix, rfl, -⟩
    exact hform ⟨[], text, List.not_mem_nil, rfl⟩

/- The least int64 as a suffix: the whole object from the edge, an error from the origin. -/
theorem least_suffix_differs :
    parseRangeHeader (lit "bytes=--9223372036854775808") 5 = some (0, 4) ∧
      parseHTTPRange (lit "bytes=--9223372036854775808") 5 = none := by
  decide +kernel

/-! ### Serving from a cached file -/

/-- A file of the cache; its size is an int64. -/
structure CacheFile where
  data : Bytes
  fits : data.length < 2 ^ 63

def CacheFile.size (f : CacheFile) : Int64 := lengthOf f.data

/- What `serveRangeFromCache` sets and writes, and what it adds to the count of bytes sent. -/
structure FileResponse where
  status : ℕ
  contentType : Bytes
  contentRange : Option Bytes
  contentLength : Option Bytes
  body : Bytes
  bytesSent : Int64
  deriving DecidableEq

def octetStream : Bytes := lit "application/octet-stream"

/- `Seek` from the start of a file, which fails for negative offsets only. -/
def seek (offset : Int64) : Option ℕ := if offset < 0 then none else some offset.toInt.toNat

/- `serveRangeFromCache` with all that it writes; the reader is the file itself. -/
def serveRangeFromFile (method : Method) (rangeHeader : Bytes) (f : CacheFile) : FileResponse :=
  match parseRangeHeader rangeHeader f.size with
  | none =>
    { status := 200
      contentType := octetStream
      contentRange := none
      contentLength := some (formatPadded 0 f.size)
      body := if method = .head then [] else f.data
      bytesSent := if method = .head then 0 else f.size }
  | some (start, last) =>
    match seek start with
    | none => ⟨500, lit "text/plain; charset=utf-8", none, none, lit "internal error\n", 0⟩
    | some offset =>
      { status := 206
        contentType := octetStream
        contentRange := some (contentRange (start, last) f.size)
        contentLength := some (formatPadded 0 (last - start + 1))
        body :=
          if method = .head then [] else (f.data.drop offset).take (last - start + 1).toInt.toNat
        bytesSent := if method = .head then 0 else last - start + 1 }

/-- What a GET request for the bytes `first` to `last` should get. -/
def partialContent (f : CacheFile) (first last : ℕ) : FileResponse where
  status := 206
  contentType := octetStream
  contentRange := some (lit "bytes " ++ decimal first ++ lit "-" ++ decimal last ++ lit "/" ++
    decimal f.data.length)
  contentLength := some (decimal (last - first + 1))
  body := (f.data.drop first).take (last - first + 1)
  bytesSent := Int64.ofInt (last - first + 1 : ℕ)

/-- The ranges that the standard defines. -/
inductive RangeSpec where
  | fromTo (first last : ℕ)
  | fromOn (first : ℕ)
  | suffix (length : ℕ)

/-- The first and last byte that are selected of `n`, if there are any. -/
def RangeSpec.select (n : ℕ) : RangeSpec → Option (ℕ × ℕ)
  | .fromTo first last => if first ≤ last ∧ first < n then some (first, min last (n - 1)) else none
  | .fromOn first => if first < n then some (first, n - 1) else none
  | .suffix length => if 0 < length ∧ 0 < n then some (n - length, n - 1) else none

/-- Digits that are read as `n`, with zeros in front or not. -/
structure Unsigned (text : Bytes) (n : ℕ) : Prop where
  value : parseUint text = some n
  fits : n < 2 ^ 63

/- How a range is written in the header, after the unit. -/
def RangeSpec.Written : RangeSpec → Bytes → Prop
  | .fromTo first last, text =>
    ∃ a b, Unsigned a first ∧ Unsigned b last ∧ text = a ++ 45 :: b
  | .fromOn first, text => ∃ a, Unsigned a first ∧ text = a ++ [45]
  | .suffix length, text => ∃ a, Unsigned a length ∧ text = 45 :: a

/-! ### The numbers -/

theorem CacheFile.size_toInt (f : CacheFile) : f.size.toInt = f.data.length :=
  toInt_ofInt_nat f.fits

theorem Unsigned.digits {text : Bytes} {n : ℕ} (h : Unsigned text n) :
    text ≠ [] ∧ ∀ b ∈ text, ∃ d < 10, b = digit d := by
  have hvalue := h.value
  unfold parseUint at hvalue
  split at hvalue
  · cases hvalue
  · rename_i hne
    exact ⟨hne, parseDigits_digits hvalue⟩

theorem Unsigned.parseInt_eq {text : Bytes} {n : ℕ} (h : Unsigned text n) :
    parseInt text = some (Int64.ofInt n) := by
  rw [parseInt_unsigned h.digits.2, h.value, Option.bind_some, if_pos h.fits]

theorem Unsigned.no_dash {text : Bytes} {n : ℕ} (h : Unsigned text n) : 45 ∉ text := by
  intro hmem
  obtain ⟨d, hd, heq⟩ := h.digits.2 45 hmem
  have hval := congrArg UInt8.toNat heq
  rw [digit_toNat hd] at hval
  simp at hval
  omega

/-! ### Every range that is accepted -/

theorem within_bounds {size : Int64} {r r' : Int64 × Int64} (h : within size r = some r') :
    0 ≤ r'.1.toInt ∧ r'.1.toInt ≤ r'.2.toInt ∧ r'.2.toInt < size.toInt := by
  unfold within at h
  split at h
  · cases h
  · rename_i hbounds
    cases h
    have hzero : (0 : Int64).toInt = 0 := rfl
    simp only [not_or, Int64.lt_iff_toInt_lt, Int64.le_iff_toInt_le, ge_iff_le, hzero] at hbounds
    have hlast := toInt_sub_one (a := size) (by omega)
    simp only [clip, ge_iff_le, Int64.le_iff_toInt_le]
    split
    · omega
    · omega

theorem parseRangeHeader_bounds {rh : Bytes} {f : CacheFile} {start last : Int64}
    (h : parseRangeHeader rh f.size = some (start, last)) :
    0 ≤ start.toInt ∧ start.toInt ≤ last.toInt ∧ last.toInt < f.data.length := by
  by_cases hform : HasParts rh
  · obtain ⟨first, second, hfirst, rfl⟩ := hform
    rw [parseRangeHeader_parts hfirst] at h
    obtain ⟨r, -, hr⟩ := Option.bind_eq_some_iff.mp h
    have hbounds := within_bounds hr
    rwa [f.size_toInt] at hbounds
  · rw [(parse_no_parts hform f.size).1] at h
    cases h

theorem seek_of_nonneg {offset : Int64} (h : 0 ≤ offset.toInt) :
    seek offset = some offset.toInt.toNat := by
  refine if_neg ?_
  rw [Int64.lt_iff_toInt_lt]
  exact Int.not_lt.mpr h

theorem serveRangeFromFile_get {rh : Bytes} {f : CacheFile} {start last : Int64}
    (h : parseRangeHeader rh f.size = some (start, last)) :
    serveRangeFromFile .get rh f = partialContent f start.toInt.toNat last.toInt.toNat := by
  obtain ⟨hstart, hle, hlast⟩ := parseRangeHeader_bounds h
  have hfits := f.fits
  have hlen := toInt_span hstart hle (by omega)
  have hlen' : (last - start + 1).toInt = (last.toInt.toNat - start.toInt.toNat + 1 : ℕ) := by
    omega
  have hseek := seek_of_nonneg hstart
  have hsent : last - start + 1 =
      Int64.ofInt (last.toInt.toNat - start.toInt.toNat + 1 : ℕ) := by
    rw [← hlen', Int64.ofInt_toInt]
  have hbody : (last - start + 1).toInt.toNat = last.toInt.toNat - start.toInt.toNat + 1 := by
    omega
  unfold serveRangeFromFile partialContent
  simp only [h, hseek, hbody, reduceCtorEq, if_false, contentRange, ← hsent,
    formatPadded_zero hlen', formatPadded_zero f.size_toInt,
    formatPadded_zero (Int.toNat_of_nonneg hstart).symm,
    formatPadded_zero (Int.toNat_of_nonneg (hstart.trans hle)).symm]

/-! ### The ranges of the standard -/

/- The numbers of a range that is selected, as int64. -/
def asInt64 (r : ℕ × ℕ) : Int64 × Int64 := (Int64.ofInt r.1, Int64.ofInt r.2)

theorem within_none {size : Int64} {r : Int64 × Int64} (h : size.toInt ≤ r.1.toInt) :
    within size r = none := by
  refine if_pos (Or.inr (Or.inl ?_))
  exact Int64.le_iff_toInt_le.mpr h

theorem within_asInt64 (f : CacheFile) {first last : ℕ} (hfirst : first < 2 ^ 63)
    (hlast : last < 2 ^ 63) :
    within f.size (asInt64 (first, last)) =
      if first ≤ last ∧ first < f.data.length then
        some (asInt64 (first, min last (f.data.length - 1)))
      else none := by
  have hsize := f.size_toInt
  have hfits := f.fits
  have hfirst' := toInt_ofInt_nat hfirst
  have hlast' := toInt_ofInt_nat hlast
  have hzero : (0 : Int64).toInt = 0 := rfl
  unfold within asInt64
  simp only [Int64.lt_iff_toInt_lt, Int64.le_iff_toInt_le, ge_iff_le, hfirst', hlast', hzero, hsize]
  by_cases hok : first ≤ last ∧ first < f.data.length
  · rw [if_neg (by omega), if_pos hok]
    have hclip : (if (f.data.length : ℤ) ≤ last then f.size - 1 else Int64.ofInt last) =
        Int64.ofInt (min last (f.data.length - 1) : ℕ) := by
      apply Int64.toInt_inj.mp
      rw [toInt_ofInt_nat (by omega)]
      split
      · rw [toInt_sub_one (by omega), hsize]
        omega
      · rw [hlast']
        omega
    simp only [clip, ge_iff_le, Int64.le_iff_toInt_le, hlast', hsize, hclip]
  · rw [if_pos (by omega), if_neg hok]

/- The last byte of a file that is not empty. -/
theorem size_sub_one {f : CacheFile} (h : 0 < f.data.length) :
    f.size - 1 = Int64.ofInt (f.data.length - 1 : ℕ) := by
  have hsize := f.size_toInt
  have hfits := f.fits
  apply Int64.toInt_inj.mp
  rw [toInt_sub_one (by omega), toInt_ofInt_nat (by omega), hsize]
  omega

theorem within_fromOn (f : CacheFile) {first : ℕ} (hfirst : first < 2 ^ 63) :
    within f.size (Int64.ofInt first, f.size - 1) =
      ((RangeSpec.fromOn first).select f.data.length).map asInt64 := by
  have hsize := f.size_toInt
  have hfits := f.fits
  simp only [RangeSpec.select]
  by_cases hlt : first < f.data.length
  · have hlast : f.data.length - 1 < 2 ^ 63 := by omega
    have hselect := within_asInt64 f hfirst hlast
    rw [asInt64] at hselect
    rw [size_sub_one (by omega), hselect, if_pos ⟨by omega, hlt⟩, if_pos hlt, Option.map_some,
      Nat.min_self]
  · rw [if_neg hlt, within_none]
    · rfl
    · rw [toInt_ofInt_nat hfirst, hsize]
      omega

theorem within_suffix (f : CacheFile) {length : ℕ} (hlength : length < 2 ^ 63) :
    within f.size (suffixRange (Int64.ofInt length) f.size) =
      ((RangeSpec.suffix length).select f.data.length).map asInt64 := by
  have hsize := f.size_toInt
  have hfits := f.fits
  have hlength' := toInt_ofInt_nat hlength
  have hsub := toInt_sub_cases f.size (Int64.ofInt length)
  have hzero : (0 : Int64).toInt = 0 := rfl
  have hstart : (suffixRange (Int64.ofInt length) f.size).1 =
      Int64.ofInt (f.data.length - length : ℕ) := by
    apply Int64.toInt_inj.mp
    rw [toInt_ofInt_nat (by omega)]
    simp only [suffixRange, Int64.lt_iff_toInt_lt, hzero]
    split
    · rw [hzero]
      omega
    · omega
  have hrange : suffixRange (Int64.ofInt length) f.size =
      (Int64.ofInt (f.data.length - length : ℕ), f.size - 1) := Prod.ext hstart rfl
  rw [hrange, within_fromOn f (by omega)]
  simp only [RangeSpec.select]
  by_cases hok : 0 < length ∧ 0 < f.data.length
  · rw [if_pos hok, if_pos (by omega)]
  · rw [if_neg hok, if_neg (by omega)]

theorem parseRangeHeader_written {spec : RangeSpec} {text : Bytes} (h : spec.Written text)
    (f : CacheFile) :
    parseRangeHeader (lit "bytes=" ++ text) f.size =
      (spec.select f.data.length).map asInt64 := by
  cases spec with
  | fromTo first last =>
    obtain ⟨a, b, ha, hb, rfl⟩ := h
    have hselect := within_asInt64 f ha.fits hb.fits
    rw [parseRangeHeader_parts ha.no_dash, if_neg ha.digits.1, startEnd, ha.parseInt_eq,
      Option.bind_some, if_neg hb.digits.1, hb.parseInt_eq]
    refine hselect.trans ?_
    simp only [RangeSpec.select]
    split
    · rfl
    · rfl
  | fromOn first =>
    obtain ⟨a, ha, rfl⟩ := h
    rw [parseRangeHeader_parts ha.no_dash, if_neg ha.digits.1, startEnd, ha.parseInt_eq]
    exact within_fromOn f ha.fits
  | suffix length =>
    obtain ⟨a, ha, rfl⟩ := h
    have hparts : parseRangeHeader (lit "bytes=" ++ 45 :: a) f.size =
        ((parseInt a).map fun suffix => suffixRange suffix f.size).bind (within f.size) :=
      parseRangeHeader_parts List.not_mem_nil a f.size
    rw [ha.parseInt_eq] at hparts
    exact hparts.trans (within_suffix f ha.fits)

/-- A range that the edge accepts lies in the file, and a GET request gets just these bytes,
with headers that say so. A range in one of the forms of the standard is accepted just if
it selects something, and then it is what the standard selects. -/
theorem cached_range_served (f : CacheFile) :
    (∀ rh start last, parseRangeHeader rh f.size = some (start, last) →
      0 ≤ start.toInt ∧ start.toInt ≤ last.toInt ∧ last.toInt < f.data.length ∧
        serveRangeFromFile .get rh f = partialContent f start.toInt.toNat last.toInt.toNat ∧
        ((serveRangeFromFile .get rh f).body.length : ℤ) = last.toInt - start.toInt + 1) ∧
      ∀ (spec : RangeSpec) (text : Bytes), spec.Written text →
        parseRangeHeader (lit "bytes=" ++ text) f.size =
          (spec.select f.data.length).map asInt64 := by
  refine ⟨fun rh start last h => ?_, fun spec text h => parseRangeHeader_written h f⟩
  obtain ⟨hstart, hle, hlast⟩ := parseRangeHeader_bounds h
  refine ⟨hstart, hle, hlast, serveRangeFromFile_get h, ?_⟩
  rw [serveRangeFromFile_get h, partialContent]
  simp only [List.length_take, List.length_drop]
  omega

def hello : CacheFile := ⟨lit "hello", by decide⟩

theorem cached_range_served_of_hello :
    parseRangeHeader (lit "bytes=3-9") hello.size = some (3, 4) ∧
      serveRangeFromFile .get (lit "bytes=3-9") hello = partialContent hello 3 4 ∧
      (RangeSpec.suffix 9).Written (lit "-09") ∧
      parseRangeHeader (lit "bytes=-09") hello.size = some (0, 4) := by
  have hparse : parseRangeHeader (lit "bytes=3-9") hello.size = some (3, 4) := by decide +kernel
  have hwritten : (RangeSpec.suffix 9).Written (lit "-09") :=
    ⟨lit "09", ⟨by decide, by decide⟩, rfl⟩
  obtain ⟨hserved, hselected⟩ := cached_range_served hello
  exact ⟨hparse, (hserved _ _ _ hparse).2.2.2.1, hwritten, hselected _ _ hwritten⟩

end EdgeDispatch.Edge.Ranges
