import EdgeDispatch.Edge.Origin
import EdgeDispatch.Edge.TokenCheck

/-! # Range requests, from the cache and from the origin

An object that is cached is cut by the edge (internal/edgeagent/server.go:371-569,
892-944); one that is not is cut by the origin (cmd/origin/main.go), whose answer the
edge passes on. -/

namespace EdgeDispatch.Edge.Ranges
open Lib.ByteString Lib.GoStrings Lib.GoStrconv
open Lib.GoPath Edge.Origin Edge.TokenCheck
open Streaming

/-! ### The two parsers -/

/- `strings.SplitN(r, "-", 2)`, if it has two parts. -/
def splitDash (r : Bytes) : Option (Bytes × Bytes) :=
  (indexByte 45 r).map fun i => (r.take i, r.drop (i + 1))

/- A range with a start, as both parsers read it. -/
def startEnd (first second : Bytes) (size : Int64) : Option (Int64 × Int64) :=
  (parseInt first).bind fun start =>
    if second = [] then some (start, size - 1) else (parseInt second).map fun last => (start, last)

/- A range of the last `suffix` bytes. -/
def suffixRange (suffix size : Int64) : Int64 × Int64 :=
  (if size - suffix < 0 then 0 else size - suffix, size - 1)

/- The last byte of the range is not after the last byte. -/
def clip (size : Int64) (r : Int64 × Int64) : Int64 × Int64 :=
  (r.1, if r.2 ≥ size then size - 1 else r.2)

/- The edge's. -/
def parseRangeHeader (rh : Bytes) (contentLen : Int64) : Option (Int64 × Int64) :=
  if rh = [] then none
  else if hasPrefix rh (lit "bytes=") = false then none
  else
    (splitDash (trimPrefix rh (lit "bytes="))).bind fun (first, second) =>
      let range :=
        if first = [] then (parseInt second).map fun suffix => suffixRange suffix contentLen
        else startEnd first second contentLen
      range.bind fun (start, last) =>
        if start < 0 ∨ start ≥ contentLen ∨ last < start then none
        else some (clip contentLen (start, last))

/- The origin's, which refuses a suffix that is not positive. -/
def parseHTTPRange (rangeHeader : Bytes) (fileSize : Int64) : Option (Int64 × Int64) :=
  let rangeStr := trimPrefix rangeHeader (lit "bytes=")
  if rangeStr = rangeHeader then none
  else
    (splitDash rangeStr).bind fun (first, second) =>
      let range :=
        if first = [] then
          (parseInt second).bind fun suffix =>
            if suffix ≤ 0 then none else some (suffixRange suffix fileSize)
        else startEnd first second fileSize
      range.bind fun (start, last) =>
        if start < 0 ∨ last < 0 ∨ start > last ∨ start ≥ fileSize then none
        else some (clip fileSize (start, last))

/-! ### The origin -/

/-- The files under the data directory by their paths, and the page that http.ServeFile
makes of a directory. What lies below a file's name is no file, and a directory that a
file lies in is there. -/
structure Files where
  read : Bytes → Option Bytes
  listing : Bytes → Option Bytes
  root : read [] = none
  no_file_above : ∀ dir name, (read (dir ++ slash :: name)).isSome → read dir = none
  dir_above : ∀ dir name, (read (dir ++ slash :: name)).isSome → (listing dir).isSome

/- The three parts of an answer that are compared. -/
structure Answer where
  status : ℕ
  contentRange : Option Bytes
  body : Bytes
  deriving DecidableEq

inductive Reply where
  | answer (a : Answer)
  | moved (path : Bytes)

/- The size as an int64, and the bytes of a range. -/
def lengthOf (data : Bytes) : Int64 := Int64.ofInt data.length

def slice (data : Bytes) (r : Int64 × Int64) : Bytes :=
  (data.drop r.1.toInt.toNat).take (r.2 - r.1 + 1).toInt.toNat

/- "bytes start-end/size", written by both programs. -/
def contentRange (r : Int64 × Int64) (size : Int64) : Bytes :=
  lit "bytes " ++ formatPadded 0 r.1 ++ lit "-" ++ formatPadded 0 r.2 ++ lit "/" ++
    formatPadded 0 size

/- The path up to its last slash. -/
def directory (path : Bytes) : Bytes :=
  match lastIndexByte slash path with
  | some i => path.take (i + 1)
  | none => path

/- `http.ServeFile` for the file or directory `name`. -/
def serveFile (files : Files) (urlPath name : Bytes) : Reply :=
  if (lit "/index.html").isSuffixOf urlPath then .moved (directory urlPath)
  else
    match files.read name with
    | some data => .answer ⟨200, none, data⟩
    | none =>
      if urlPath.getLast? ≠ some slash then .moved (urlPath ++ [slash])
      else
        match files.read (name ++ lit "/index.html") with
        | some data => .answer ⟨200, none, data⟩
        | none => .answer ⟨200, none, (files.listing name).getD []⟩

/- A file name under the data directory; no key with ".." gets that far. -/
def relative (key : Bytes) : Bytes := join slash (cleanElems true (split slash key))

/- The handler of "/obj/*". A directory is asked for by redirects only, which go without a
   range. -/
def originHandler (files : Files) (urlPath rangeHeader : Bytes) : Reply :=
  let key := trimPrefix urlPath (lit "/obj/")
  if key = [] ∨ key = lit "." ∨ contains urlPath (lit "..") = true then
    .answer ⟨400, none, lit "invalid key\n"⟩
  else
    let name := relative key
    if files.read name = none ∧ files.listing name = none then
      .answer ⟨404, none, lit "not found\n"⟩
    else if rangeHeader ≠ [] then
      let data := (files.read name).getD []
      match parseHTTPRange rangeHeader (lengthOf data) with
      | none => .answer ⟨416, some (lit "bytes */" ++ formatPadded 0 (lengthOf data)),
          lit "invalid range\n"⟩
      | some r => .answer ⟨206, some (contentRange r (lengthOf data)), slice data r⟩
    else serveFile files urlPath name

/- The edge's http.Client, which makes ten requests at most. -/
def get (files : Files) (rangeHeader : Bytes) : ℕ → Bytes → Option Answer
  | 0, _ => none
  | fuel + 1, path =>
    match originHandler files path rangeHeader with
    | .answer a => some a
    | .moved path' => get files rangeHeader fuel path'

/-! ### The edge -/

/- The fields of FetchResult that matter here; the Content-Range of the origin is not among
   them, and ContentLength is the length of the body. -/
structure FetchResult where
  statusCode : ℕ
  body : Bytes

/- `executeFetch` against the origin. -/
def executeFetch (files : Files) (key rangeHeader : Bytes) : Option FetchResult :=
  (originRequest key rangeHeader).bind fun (object, range) =>
    (get files range 10 (slash :: originPath [] object)).bind fun a =>
      if a.status ≥ 400 then none else some ⟨a.status, a.body⟩

/- What is written for a HEAD request has no body. -/
def write (method : Method) (status : ℕ) (contentRange : Option Bytes) (body : Bytes) : Answer :=
  ⟨status, contentRange, if method = .head then [] else body⟩

def serveFromFetchResult (method : Method) (fr : FetchResult) : Answer :=
  write method fr.statusCode none fr.body

def serveRangeFromCache (method : Method) (rangeHeader data : Bytes) : Answer :=
  match parseRangeHeader rangeHeader (lengthOf data) with
  | none => write method 200 none data
  | some r => write method 206 (some (contentRange r (lengthOf data))) (slice data r)

/- `handleObject` from its look into the cache on; `cached` is what it finds there. A large
   object is written as a small one is. -/
def serveObject (files : Files) (cached : Option Bytes) (method : Method)
    (key rangeHeader : Bytes) : Answer :=
  match cached with
  | some data =>
    if rangeHeader ≠ [] then serveRangeFromCache method rangeHeader data
    else write method 200 none data
  | none =>
    match executeFetch files key rangeHeader with
    | none => write method 502 none (lit "upstream error\n")
    | some fr =>
      if rangeHeader = [] ∨ 0 < fr.body.length then serveFromFetchResult method fr
      else write method 200 none fr.body

/-! ### What the parsers have in common -/

/- The check that both parsers end with, in the edge's order. -/
def within (size : Int64) (r : Int64 × Int64) : Option (Int64 × Int64) :=
  if r.1 < 0 ∨ r.1 ≥ size ∨ r.2 < r.1 then none else some (clip size r)

variable {first : Bytes}

theorem splitDash_append (h : 45 ∉ first) (second : Bytes) :
    splitDash (first ++ 45 :: second) = some (first, second) := by
  rw [splitDash, indexByte_append h]
  simp

theorem parseRangeHeader_parts (h : 45 ∉ first) (second : Bytes) (size : Int64) :
    parseRangeHeader (lit "bytes=" ++ (first ++ 45 :: second)) size =
      (if first = [] then (parseInt second).map fun suffix => suffixRange suffix size
        else startEnd first second size).bind (within size) := by
  have hne : lit "bytes=" ++ (first ++ 45 :: second) ≠ [] := by simp
  have hpre : hasPrefix (lit "bytes=" ++ (first ++ 45 :: second)) (lit "bytes=") = true := by
    simp [hasPrefix]
  unfold parseRangeHeader
  rw [if_neg hne, if_neg (by simp [hpre]), trimPrefix_append, splitDash_append h, Option.bind_some]
  rfl

theorem parseHTTPRange_parts (h : 45 ∉ first) (second : Bytes) (size : Int64) :
    parseHTTPRange (lit "bytes=" ++ (first ++ 45 :: second)) size =
      (if first = [] then
          (parseInt second).bind fun suffix =>
            if suffix ≤ 0 then none else some (suffixRange suffix size)
        else startEnd first second size).bind (within size) := by
  have hne : first ++ 45 :: second ≠ lit "bytes=" ++ (first ++ 45 :: second) := by
    intro heq
    have hlen := (congrArg List.length heq).trans List.length_append
    exact absurd hlen (Nat.ne_of_lt (Nat.lt_add_of_pos_left (by decide)))
  have hbounds : ∀ r : Int64 × Int64,
      (if r.1 < 0 ∨ r.2 < 0 ∨ r.1 > r.2 ∨ r.1 ≥ size then none else some (clip size r)) =
        within size r := by
    intro r
    unfold within
    refine if_congr ?_ rfl rfl
    simp only [Int64.lt_iff_toInt_lt, Int64.le_iff_toInt_le, gt_iff_lt, ge_iff_le]
    omega
  unfold parseHTTPRange
  simp only [trimPrefix_append, if_neg hne, splitDash_append h, Option.bind_some]
  congr 1
  funext r
  exact hbounds r

/-- The unit and a dash, with what stands before and after the first one. -/
def HasParts (rh : Bytes) : Prop :=
  ∃ first second, 45 ∉ first ∧ rh = lit "bytes=" ++ (first ++ 45 :: second)

variable {rh : Bytes}

/- Without these neither parser gets to the numbers. -/
theorem parse_no_parts (h : ¬ HasParts rh) (size : Int64) :
    parseRangeHeader rh size = none ∧ parseHTTPRange rh size = none := by
  by_cases hpre : lit "bytes=" <+: rh
  · obtain ⟨r, rfl⟩ := hpre
    have hdash : 45 ∉ r := by
      intro hdash
      obtain ⟨first, second, rfl, hfirst⟩ := List.eq_append_cons_of_mem hdash
      exact h ⟨first, second, hfirst, rfl⟩
    have hsplit : splitDash r = none := by
      rw [splitDash, indexByte_eq_none.mpr hdash]
      rfl
    constructor
    · simp [parseRangeHeader, trimPrefix_append, hsplit]
    · simp [parseHTTPRange, trimPrefix_append, hsplit]
  · have hno : hasPrefix rh (lit "bytes=") = false :=
      Bool.of_not_eq_true fun hyes => hpre ( List.isPrefixOf_iff_prefix.mp hyes)
    constructor
    · simp [parseRangeHeader, hno]
    · simp [parseHTTPRange, trimPrefix, hno]

/-- A range that the origin accepts is the same range for the edge. -/
theorem parseRangeHeader_of_parseHTTPRange {size : Int64} {r : Int64 × Int64}
    (h : parseHTTPRange rh size = some r) : parseRangeHeader rh size = some r := by
  by_cases hform : HasParts rh
  · obtain ⟨first, second, hfirst, rfl⟩ := hform
    rw [parseHTTPRange_parts hfirst] at h
    rw [parseRangeHeader_parts hfirst]
    by_cases hnil : first = []
    · rw [if_pos hnil] at h ⊢
      obtain ⟨range, hrange, hr⟩ := Option.bind_eq_some_iff.mp h
      obtain ⟨suffix, hsuffix, hpositive⟩ := Option.bind_eq_some_iff.mp hrange
      split at hpositive
      · cases hpositive
      · cases hpositive
        rw [hsuffix]
        exact hr
    · rw [if_neg hnil] at h ⊢
      exact h
  · rw [(parse_no_parts hform size).2] at h
    cases h

/-! ### What the origin answers -/

section Stored
variable {files : Files} {key data : Bytes}

/- The path that the edge asks for, and that the origin is redirected to from an index. -/
structure Asked (files : Files) (x name : Bytes) : Prop where
  ne_nil : x ≠ []
  ne_dot : x ≠ lit "."
  no_dots : ¬ lit ".." <:+: x
  name_eq : relative x = name
  there : (files.read name).isSome ∨ (files.listing name).isSome

theorem originHandler_asked {x name : Bytes} (h : Asked files x name) (rangeHeader : Bytes) :
    originHandler files (lit "/obj/" ++ x) rangeHeader =
      if rangeHeader ≠ [] then
        match parseHTTPRange rangeHeader (lengthOf ((files.read name).getD [])) with
        | none => .answer ⟨416, some (lit "bytes */" ++
            formatPadded 0 (lengthOf ((files.read name).getD []))), lit "invalid range\n"⟩
        | some r => .answer ⟨206, some (contentRange r (lengthOf ((files.read name).getD []))),
            slice ((files.read name).getD []) r⟩
      else serveFile files (lit "/obj/" ++ x) name := by
  have hdots : contains (lit "/obj/" ++ x) (lit "..") = false := by
    rw [← Bool.not_eq_true, contains_iff]
    intro hsub
    have hobj : lit "/obj/" ++ x = lit "/obj" ++ slash :: x := by
      rw [show lit "/obj/" = lit "/obj" ++ [slash] by decide, List.append_assoc]
      rfl
    rw [hobj] at hsub
    rcases infix_append_cons (by decide) hsub with hsub | hsub
    · rw [← contains_iff] at hsub
      exact absurd hsub (by decide)
    · exact h.no_dots hsub
  have hthere : ¬ (files.read name = none ∧ files.listing name = none) := by
    rintro ⟨hr, hl⟩
    rcases h.there with hs | hs
    · rw [hr] at hs
      cases hs
    · rw [hl] at hs
      cases hs
  unfold originHandler
  simp only [trimPrefix_append, h.ne_nil, h.ne_dot, hdots, Bool.false_eq_true, or_self, if_false,
    h.name_eq, hthere]

variable {parts : List Bytes}

theorem relative_join (h : ∀ p ∈ parts, Proper p) (hne : parts ≠ []) :
    relative (join slash parts) = join slash parts := by
  have hclean : cleanElems true ([] ++ parts) = [] ++ parts := cleanElems_append_proper true [] h
  have hsplit : split slash (join slash parts) = parts :=
    split_join hne fun p hp => (h p hp).no_separator
  rw [relative, hsplit]
  exact congrArg (join slash) hclean

/- The slash at the end that a redirect to a directory has. -/
theorem relative_join_slash (h : ∀ p ∈ parts, Proper p) (hne : parts ≠ []) :
    relative (join slash parts ++ [slash]) = join slash parts := by
  have hclean : cleanElems true ([] ++ parts) = [] ++ parts := cleanElems_append_proper true [] h
  have hsplit : split slash (join slash parts ++ [slash]) = parts ++ [[]] := by
    refine (split_append slash _ []).trans ?_
    exact congrArg (· ++ [[]]) (split_join hne fun p hp => (h p hp).no_separator)
  have hlast : cleanElems true (parts ++ [[]]) = parts := by
    rw [cleanElems, List.foldl_append]
    exact hclean
  rw [relative, hsplit, hlast]

variable {last : Bytes}
variable {front rangeHeader : Bytes} {init : List Bytes}

theorem index_suffix_iff (h : slash ∉ last) :
    (lit "/index.html").isSuffixOf (front ++ slash :: last) = true ↔ last = lit "index.html" := by
  have hlit : lit "/index.html" = slash :: lit "index.html" := by decide
  rw [List.isSuffixOf_iff_suffix, hlit]
  constructor
  · rintro ⟨t, ht⟩
    exact (append_cons_inj (by decide) h ht).2.symm
  · rintro rfl
    exact List.suffix_append front _

theorem directory_append (h : slash ∉ last) :
    directory (front ++ slash :: last) = front ++ [slash] := by
  have hcut : front ++ slash :: last = (front ++ [slash]) ++ last := by simp
  rw [directory, lastIndexByte_append front h, hcut]
  exact List.take_left' (by simp)

/- A file that is not an index is answered at once. -/
theorem serveFile_file {name : Bytes} (hslash : slash ∉ last) (hlast : last ≠ lit "index.html")
    (hread : files.read name = some data) :
    serveFile files (front ++ slash :: last) name = .answer ⟨200, none, data⟩ := by
  have hno : ¬ (lit "/index.html").isSuffixOf (front ++ slash :: last) = true :=
    fun hsuf => hlast ((index_suffix_iff hslash).mp hsuf)
  rw [serveFile, if_neg hno, hread]

theorem serveFile_index (front name : Bytes) :
    serveFile files (front ++ slash :: lit "index.html") name = .moved (front ++ [slash]) := by
  rw [serveFile, if_pos ((index_suffix_iff (by decide)).mpr rfl), directory_append (by decide)]

/- A directory with an index is answered with it. -/
theorem serveFile_directory {name : Bytes} (hdir : files.read name = none)
    (hread : files.read (name ++ slash :: lit "index.html") = some data) :
    serveFile files (front ++ [slash]) name = .answer ⟨200, none, data⟩ := by
  have hno : ¬ (lit "/index.html").isSuffixOf (front ++ [slash]) = true :=
    fun hsuf => absurd ((index_suffix_iff List.not_mem_nil).mp hsuf) (by decide)
  have hindex : files.read (name ++ lit "/index.html") = some data := by
    rw [← hread]
    rfl
  rw [serveFile, if_neg hno, hdir]
  simp [hindex]

theorem get_answer {path : Bytes} {a : Answer} (fuel : ℕ)
    (h : originHandler files path rangeHeader = .answer a) :
    get files rangeHeader (fuel + 1) path = some a := by
  rw [get, h]

theorem get_moved {path path' : Bytes} (fuel : ℕ)
    (h : originHandler files path rangeHeader = .moved path') :
    get files rangeHeader (fuel + 1) path = get files rangeHeader fuel path' := by
  rw [get, h]

theorem objectPath (key : Bytes) (h : sanitizeKey key ≠ []) :
    slash :: originPath [] (sanitizeKey key) = lit "/obj/" ++ sanitizeKey key := by
  rw [originPath_sanitizeKey [] key h, show originPath [] [] = lit "obj" by decide]
  rfl

theorem objectKey_no_dots {r : Request} (h : objectKey r = some key) : ¬ lit ".." <:+: key := by
  unfold objectKey at h
  simp only at h
  split at h
  · cases h
  · rename_i hok
    simp only [not_or] at hok
    cases h
    rw [← contains_iff]
    exact hok.2.2

theorem stored_asked (hdots : ¬ lit ".." <:+: key)
    (hstored : files.read (sanitizeKey key) = some data) :
    Asked files (sanitizeKey key) (sanitizeKey key) := by
  have hne : sanitizeKey key ≠ [] := by
    intro hnil
    rw [hnil, files.root] at hstored
    cases hstored
  have hparts : segments key ≠ [] := fun hnil => hne (by rw [sanitizeKey, hnil]; rfl)
  have hproper : ∀ p ∈ segments key, Proper p := fun p hp => segment_proper (segment_of_mem hp)
  refine ⟨hne, fun hdot => ?_, fun hsub => hdots (dots_infix_sanitizeKey hsub),
    relative_join hproper hparts, Or.inl (by rw [hstored]; rfl)⟩
  have hsplit := split_join hparts fun p hp => (hproper p hp).no_separator
  rw [show join slash (segments key) = lit "." from hdot] at hsplit
  exact (hproper (lit ".") (by rw [← hsplit]; decide)).ne_dot rfl

/- The redirect from an index to its directory; the directory of all objects has no key. -/
theorem index_asked (hinit : init ≠ []) (hproper : ∀ p ∈ init, Proper p)
    (hdots : ¬ lit ".." <:+: join slash init ++ slash :: lit "index.html")
    (hstored : files.read (join slash init ++ slash :: lit "index.html") = some data) :
    Asked files (join slash init ++ [slash]) (join slash init) where
  ne_nil := by simp
  ne_dot hdot := by
    have hmem : slash ∈ lit "." := hdot ▸ List.mem_append_right _ (List.mem_singleton_self _)
    exact absurd hmem (by decide)
  no_dots hsub := by
    rcases infix_append_cons (by decide) hsub with hsub | hsub
    · exact hdots (hsub.trans (List.prefix_append _ _).isInfix)
    · exact absurd (List.infix_nil.mp hsub) (by decide)
  name_eq := relative_join_slash hproper hinit
  there := Or.inr (files.dir_above _ _ (by rw [hstored]; rfl))

/- Keys of one segment. -/
theorem get_top (hslash : slash ∉ last) (hread : files.read last = some data)
    (hasked : Asked files last last) :
    get files [] 10 (lit "/obj/" ++ last) =
      some (if last = lit "index.html" then ⟨400, none, lit "invalid key\n"⟩
        else ⟨200, none, data⟩) := by
  have hpath : lit "/obj/" ++ last = lit "/obj" ++ slash :: last := rfl
  have hhandler := (originHandler_asked hasked []).trans (if_neg (by simp))
  rw [hpath] at hhandler ⊢
  by_cases hindex : last = lit "index.html"
  · rw [if_pos hindex]
    rw [hindex, serveFile_index] at hhandler
    rw [hindex, get_moved 9 hhandler]
    exact get_answer 8 rfl
  · rw [if_neg hindex]
    rw [serveFile_file hslash hindex hread] at hhandler
    exact get_answer 9 hhandler

/- Keys of more than one. -/
theorem get_below (hinit : init ≠ []) (hproper : ∀ p ∈ init, Proper p) (hslash : slash ∉ last)
    (hread : files.read (join slash init ++ slash :: last) = some data)
    (hasked : Asked files (join slash init ++ slash :: last) (join slash init ++ slash :: last)) :
    get files [] 10 (lit "/obj/" ++ (join slash init ++ slash :: last)) =
      some ⟨200, none, data⟩ := by
  have hhandler := (originHandler_asked hasked []).trans (if_neg (by simp))
  rw [← List.append_assoc] at hhandler ⊢
  by_cases hindex : last = lit "index.html"
  · subst hindex
    have hdir := index_asked hinit hproper hasked.no_dots hread
    have hnofile : files.read (join slash init) = none :=
      files.no_file_above _ _ (by rw [hread]; rfl)
    rw [serveFile_index] at hhandler
    rw [get_moved 9 hhandler]
    refine get_answer 8 ?_
    rw [List.append_assoc, originHandler_asked hdir [], if_neg (by simp), ← List.append_assoc]
    exact serveFile_directory hnofile hread
  · rw [serveFile_file hslash hindex hread] at hhandler
    exact get_answer 9 hhandler

theorem get_full (hdots : ¬ lit ".." <:+: key)
    (hstored : files.read (sanitizeKey key) = some data) :
    get files [] 10 (lit "/obj/" ++ sanitizeKey key) =
      some (if sanitizeKey key = lit "index.html" then ⟨400, none, lit "invalid key\n"⟩
        else ⟨200, none, data⟩) := by
  have hasked := stored_asked hdots hstored
  have hproper : ∀ p ∈ segments key, Proper p := fun p hp => segment_proper (segment_of_mem hp)
  obtain ⟨init, last, hparts⟩ : ∃ init last, segments key = init ++ [last] := by
    rcases List.eq_nil_or_concat (segments key) with hnil | ⟨init, last, hcat⟩
    · exact absurd (show sanitizeKey key = [] by rw [sanitizeKey, hnil]; rfl) hasked.ne_nil
    · exact ⟨init, last, by rw [hcat, List.concat_eq_append]⟩
  have hslash : slash ∉ last := (hproper last (by simp [hparts])).no_separator
  by_cases hinit : init = []
  · have hkey : sanitizeKey key = last := by
      rw [sanitizeKey, hparts, hinit, List.nil_append, join_singleton]
    rw [hkey] at hasked hstored ⊢
    exact get_top hslash hstored hasked
  · have hkey : sanitizeKey key = join slash init ++ slash :: last := by
      rw [sanitizeKey, hparts, join_append hinit (List.cons_ne_nil _ _), join_singleton]
    have hne : join slash init ++ slash :: last ≠ lit "index.html" := by
      intro heq
      have hmem : slash ∈ lit "index.html" := heq ▸ List.mem_append_right _ List.mem_cons_self
      exact absurd hmem (by decide)
    rw [hkey] at hasked hstored ⊢
    rw [if_neg hne]
    exact get_below hinit (fun p hp => hproper p (by simp [hparts, hp])) hslash hstored hasked

theorem executeFetch_full (hdots : ¬ lit ".." <:+: key)
    (hstored : files.read (sanitizeKey key) = some data) :
    executeFetch files key [] =
      if sanitizeKey key = lit "index.html" then none else some ⟨200, data⟩ := by
  have hrequest : originRequest key [] = some (sanitizeKey key, []) := rfl
  unfold executeFetch
  rw [hrequest]
  simp only [Option.bind_some]
  rw [objectPath key (stored_asked hdots hstored).ne_nil, get_full hdots hstored]
  split
  · rfl
  · rfl

/- A range that the edge refuses is answered with 416 by the origin. -/
theorem executeFetch_refused (hdots : ¬ lit ".." <:+: key)
    (hstored : files.read (sanitizeKey key) = some data) (hrange : rangeHeader ≠ [])
    (h : parseRangeHeader rangeHeader (lengthOf data) = none) :
    executeFetch files key rangeHeader = none := by
  have hnone : parseHTTPRange rangeHeader (lengthOf data) = none := by
    cases hp : parseHTTPRange rangeHeader (lengthOf data) with
    | none => rfl
    | some r => cases h.symm.trans (parseRangeHeader_of_parseHTTPRange hp)
  have hasked := stored_asked hdots hstored
  have hhandler := originHandler_asked hasked rangeHeader
  rw [if_pos hrange, hstored, Option.getD_some, hnone] at hhandler
  unfold executeFetch originRequest
  split
  · rfl
  · simp only [Option.bind_some]
    rw [objectPath key hasked.ne_nil, get_answer 9 hhandler]
    rfl

end Stored

/-! ### Hits and misses -/

theorem serveRangeFromCache_cases (method : Method) (rangeHeader data : Bytes) :
    (parseRangeHeader rangeHeader (lengthOf data) = none ∧
        (serveRangeFromCache method rangeHeader data).status = 200) ∨
      (serveRangeFromCache method rangeHeader data).contentRange ≠ none := by
  unfold serveRangeFromCache
  split
  · rename_i hnone
    exact Or.inl ⟨hnone, rfl⟩
  · exact Or.inr (by simp [write])

/- The Content-Range of the origin is never passed on. -/
theorem miss_contentRange (files : Files) (method : Method) (key rangeHeader : Bytes) :
    (serveObject files none method key rangeHeader).contentRange = none := by
  unfold serveObject
  split
  · cases ‹none = some _›
  · split
    · rfl
    · split
      · rfl
      · rfl

/-- An object answers the same from the cache and through a fetch just if no range is asked
for, an index in the top directory apart, which the origin does not give out. -/
theorem hit_miss_agree_iff (files : Files) (r : Request) (key data rangeHeader : Bytes)
    (hkey : objectKey r = some key) (hstored : files.read (sanitizeKey key) = some data) :
    serveObject files (some data) r.method key rangeHeader =
        serveObject files none r.method key rangeHeader ↔
      rangeHeader = [] ∧ sanitizeKey key ≠ lit "index.html" := by
  have hdots := objectKey_no_dots hkey
  by_cases hrange : rangeHeader = []
  · subst hrange
    have hhit : serveObject files (some data) r.method key [] = write r.method 200 none data := rfl
    have hmiss : serveObject files none r.method key [] =
        if sanitizeKey key = lit "index.html" then
          write r.method 502 none (lit "upstream error\n")
        else write r.method 200 none data := by
      by_cases hindex : sanitizeKey key = lit "index.html"
      · simp [serveObject, executeFetch_full hdots hstored, hindex]
      · simp [serveObject, executeFetch_full hdots hstored, hindex, serveFromFetchResult]
    rw [hhit, hmiss]
    by_cases hindex : sanitizeKey key = lit "index.html"
    · simp [hindex, write]
    · simp [hindex]
  · refine iff_of_false (fun heq => ?_) fun h => hrange h.1
    have hhit : serveObject files (some data) r.method key rangeHeader =
        serveRangeFromCache r.method rangeHeader data := if_pos hrange
    rcases serveRangeFromCache_cases r.method rangeHeader data with ⟨hnone, hstatus⟩ | hcr
    · have hfetch := executeFetch_refused hdots hstored hrange hnone
      have hmiss : (serveObject files none r.method key rangeHeader).status = 502 := by
        simp only [serveObject, hfetch]
        rfl
      rw [← heq, hhit, hstatus] at hmiss
      cases hmiss
    · apply hcr
      rw [← hhit, heq]
      exact miss_contentRange files r.method key rangeHeader

/- An origin with one file. -/
def oneFile : Files where
  read name := if name = lit "a" then some (lit "hello") else none
  listing name := if name = [] then some (lit "<pre>") else none
  root := by decide
  no_file_above dir name h := by
    split at h
    · rename_i heq
      have hmem : slash ∈ lit "a" := heq ▸ List.mem_append_right _ List.mem_cons_self
      exact absurd hmem (by decide)
    · cases h
  dir_above dir name h := by
    split at h
    · rename_i heq
      have hmem : slash ∈ lit "a" := heq ▸ List.mem_append_right _ List.mem_cons_self
      exact absurd hmem (by decide)
    · cases h

def getA : Request := ⟨.get, [], [], [], lit "/obj/a"⟩

theorem hit_miss_agree_full :
    objectKey getA = some (lit "a") ∧ oneFile.read (sanitizeKey (lit "a")) = some (lit "hello") ∧
      serveObject oneFile (some (lit "hello")) getA.method (lit "a") [] =
        serveObject oneFile none getA.method (lit "a") [] := by
  have hkey : objectKey getA = some (lit "a") := by decide
  have hstored : oneFile.read (sanitizeKey (lit "a")) = some (lit "hello") := by decide +kernel
  exact ⟨hkey, hstored, (hit_miss_agree_iff oneFile getA _ _ [] hkey hstored).mpr
    ⟨rfl, by decide +kernel⟩⟩

/- The Content-Range is lost on a miss, and a range out of bounds is the whole object on a
   hit and an error on a miss. -/
theorem hit_miss_ranges_differ :
    serveObject oneFile (some (lit "hello")) .get (lit "a") (lit "bytes=0-1") =
        ⟨206, some (lit "bytes 0-1/5"), lit "he"⟩ ∧
      serveObject oneFile none .get (lit "a") (lit "bytes=0-1") = ⟨206, none, lit "he"⟩ ∧
      serveObject oneFile (some (lit "hello")) .get (lit "a") (lit "bytes=9-") =
        ⟨200, none, lit "hello"⟩ ∧
      serveObject oneFile none .get (lit "a") (lit "bytes=9-") =
        ⟨502, none, lit "upstream error\n"⟩ := by
  decide +kernel

end EdgeDispatch.Edge.Ranges
