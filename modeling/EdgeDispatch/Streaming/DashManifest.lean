import EdgeDispatch.Lib.GoFmt
import EdgeDispatch.Lib.GoInt64
import EdgeDispatch.Streaming.Manifest

/-! # Chunks of a DASH manifest (internal/streaming/manifest.go:69-249)

The chunks are those of every segment template and every segment list of the manifest, one
after the other; each of them counts from a number of its own. The URL of a chunk from a
template goes through `expandDASHTemplate` and then, as a format, through `Sprintf`. -/

namespace EdgeDispatch.Streaming
open Lib.ByteString Lib.GoStrings Lib.GoStrconv
open Lib.GoFmt Lib.GoInt64

/-! ### The document -/

structure MpdSegmentTemplate where
  timescale : Int64
  duration : Int64
  startNumber : Int64
  media : Bytes

/-- The media of its segment URLs; the length of a slice is an int. -/
structure MpdSegmentList where
  segmentURLs : List Bytes
  duration : Int64
  timescale : Int64
  fits : segmentURLs.length < 2 ^ 63

structure MpdAdaptationSet where
  segmentTemplate : Option MpdSegmentTemplate
  segmentList : Option MpdSegmentList

structure MpdPeriod where
  adaptationSets : List MpdAdaptationSet

structure MpdRoot where
  mediaPresentationDuration : Bytes
  periods : List MpdPeriod

/-- The arithmetic of float64, as far as durations need it. -/
structure Float64 (F : Type) where
  parseFloat : Bytes → F -- the value that is returned, also with an error
  ofInt64 : Int64 → F
  toInt64 : F → Int64
  add : F → F → F
  mul : F → F → F
  div : F → F → F
  ceil : F → F

variable {F : Type}

/- A number up to the letter `unit`, and what follows the letter. -/
def Float64.cut (fl : Float64 F) (unit : Byte) (s : Bytes) : F × Bytes :=
  match indexByte unit s with
  | some i => (fl.parseFloat (s.take i), s.drop (i + 1))
  | none => (fl.ofInt64 0, s)

def Float64.parseISO8601Duration (fl : Float64 F) (s : Bytes) : Int64 :=
  if s = [] ∨ hasPrefix s (lit "PT") = false then 0
  else
    let (hours, s) := fl.cut 72 (s.drop 2)
    let (minutes, s) := fl.cut 77 s
    let (seconds, _) := fl.cut 83 s
    fl.toInt64 (fl.mul (fl.add (fl.add (fl.mul hours (fl.ofInt64 3600))
      (fl.mul minutes (fl.ofInt64 60))) seconds) (fl.ofInt64 1000))

/-! ### The chunks -/

structure DashChunk extends ManifestChunk where
  durationMs : Int64
  deriving DecidableEq

structure DashManifest extends Manifest DashChunk where
  targetDurMs : Int64

def expandDASHTemplate (tpl : Bytes) (num : Int64) : Bytes :=
  let r := replaceAll tpl (lit "$RepresentationID$") (lit "1")
  let r := replaceAll r (lit "$Number$") (formatPadded 0 num)
  replaceAll r (lit "$Time$") (lit "0")

/- The duration of a segment in milliseconds, 0 if there is none. -/
def totalDurMs (duration timescale : Int64) : Int64 :=
  if 0 < timescale ∧ 0 < duration then duration * 1000 / timescale else 0

/- `none` is a nil configuration. -/
def maxSegments (maxDASHSegments : Option Int64) : Int64 :=
  match maxDASHSegments with
  | some n => if 0 < n then n else 200
  | none => 200

namespace MpdSegmentTemplate

def startNum (st : MpdSegmentTemplate) : Int64 := if st.startNumber = 0 then 1 else st.startNumber

def segmentCount (st : MpdSegmentTemplate) (fl : Float64 F) (manifestDur maxSegments : Int64) :
    Int64 :=
  let segmentDur := totalDurMs st.duration st.timescale
  if 0 < manifestDur ∧ 0 < segmentDur then
    let computed := fl.toInt64 (fl.ceil (fl.div (fl.ofInt64 manifestDur) (fl.ofInt64 segmentDur)))
    if computed ≤ maxSegments then computed else maxSegments
  else maxSegments

def chunk (st : MpdSegmentTemplate) (directive : Directives) (streamKey : Bytes) (seq : Int64) :
    DashChunk where
  streamKey := streamKey
  seqNum := seq
  url := sprintf directive (expandDASHTemplate st.media seq) seq
  durationMs := totalDurMs st.duration st.timescale

def chunks (st : MpdSegmentTemplate) (directive : Directives) (streamKey : Bytes)
    (segmentCount : Int64) : List DashChunk :=
  (List.range segmentCount.toInt.toNat).map fun i =>
    st.chunk directive streamKey (st.startNum + Int64.ofNat i)

end MpdSegmentTemplate

def MpdSegmentList.chunks (sl : MpdSegmentList) (streamKey : Bytes) : List DashChunk :=
  sl.segmentURLs.mapIdx fun i media =>
    ⟨⟨⟨streamKey, 1 + Int64.ofNat i⟩, media⟩, totalDurMs sl.duration sl.timescale⟩

section Parse
variable (fl : Float64 F) (directive : Directives) (streamKey : Bytes)

/- One round of the inner loop. -/
def addAdaptationSet (manifestDur maxSegments : Int64) (m : DashManifest)
    (as : MpdAdaptationSet) : DashManifest :=
  let m :=
    match as.segmentTemplate with
    | some st =>
      let segmentDur := totalDurMs st.duration st.timescale
      { m with
        chunks := m.chunks ++
          st.chunks directive streamKey (st.segmentCount fl manifestDur maxSegments)
        targetDurMs := if 0 < segmentDur then segmentDur else m.targetDurMs }
    | none => m
  match as.segmentList with
  | some sl => { m with chunks := m.chunks ++ sl.chunks streamKey }
  | none => m

/- `ParseDASHManifestWithConfig` once the document is read. -/
def dashManifest (maxDASHSegments : Option Int64) (root : MpdRoot) : DashManifest :=
  let manifestDur := fl.parseISO8601Duration root.mediaPresentationDuration
  root.periods.foldl
    (fun m period => period.adaptationSets.foldl
      (addAdaptationSet fl directive streamKey manifestDur (maxSegments maxDASHSegments)) m)
    ⟨⟨streamKey, []⟩, 0⟩

/- `unmarshal` is `xml.Unmarshal`. -/
def parseDASHManifestWithConfig (unmarshal : Bytes → Option MpdRoot)
    (maxDASHSegments : Option Int64) (data : Bytes) : Option DashManifest :=
  (unmarshal data).map (dashManifest fl directive streamKey maxDASHSegments)

end Parse

/-! ### Templates and lists, in order -/

inductive SegmentSource where
  | template (st : MpdSegmentTemplate)
  | list (sl : MpdSegmentList)

def MpdAdaptationSet.sources (as : MpdAdaptationSet) : List SegmentSource :=
  (as.segmentTemplate.map .template).toList ++ (as.segmentList.map .list).toList

def MpdRoot.sources (root : MpdRoot) : List SegmentSource :=
  root.periods.flatMap fun period => period.adaptationSets.flatMap MpdAdaptationSet.sources

section Sources
variable (fl : Float64 F) (directive : Directives) (streamKey : Bytes)

def SegmentSource.chunks (manifestDur maxSegments : Int64) : SegmentSource → List DashChunk
  | .template st => st.chunks directive streamKey (st.segmentCount fl manifestDur maxSegments)
  | .list sl => sl.chunks streamKey

theorem addAdaptationSet_chunks (manifestDur maxSegments : Int64) (m : DashManifest)
    (as : MpdAdaptationSet) :
    (addAdaptationSet fl directive streamKey manifestDur maxSegments m as).chunks =
      m.chunks ++
        as.sources.flatMap (SegmentSource.chunks fl directive streamKey manifestDur maxSegments) := by
  obtain ⟨template, list⟩ := as
  cases template with
  | none =>
    cases list with
    | none => simp [addAdaptationSet, MpdAdaptationSet.sources]
    | some sl => simp [addAdaptationSet, MpdAdaptationSet.sources, SegmentSource.chunks]
  | some st =>
    cases list with
    | none => simp [addAdaptationSet, MpdAdaptationSet.sources, SegmentSource.chunks]
    | some sl => simp [addAdaptationSet, MpdAdaptationSet.sources, SegmentSource.chunks]

/- A loop whose every round adds some chunks. -/
theorem foldl_chunks {α : Type} {f : DashManifest → α → DashManifest} {g : α → List DashChunk}
    (h : ∀ m x, (f m x).chunks = m.chunks ++ g x) (xs : List α) (m : DashManifest) :
    (xs.foldl f m).chunks = m.chunks ++ xs.flatMap g := by
  induction xs generalizing m with
  | nil => simp
  | cons x xs ih => rw [List.foldl_cons, ih, h, List.flatMap_cons, List.append_assoc]

/-- The nested loops go over the templates and lists in the order of the document. -/
theorem dashManifest_chunks (maxDASHSegments : Option Int64) (root : MpdRoot) :
    (dashManifest fl directive streamKey maxDASHSegments root).chunks =
      root.sources.flatMap (SegmentSource.chunks fl directive streamKey
        (fl.parseISO8601Duration root.mediaPresentationDuration) (maxSegments maxDASHSegments)) := by
  have hperiod := fun m (period : MpdPeriod) => foldl_chunks
    (addAdaptationSet_chunks fl directive streamKey
      (fl.parseISO8601Duration root.mediaPresentationDuration) (maxSegments maxDASHSegments))
    period.adaptationSets m
  unfold dashManifest MpdRoot.sources
  rw [foldl_chunks hperiod, List.nil_append, List.flatMap_assoc]
  simp only [List.flatMap_assoc]

end Sources

/-! ### What a template's URLs become -/

theorem percent_notMem_expandDASHTemplate {tpl : Bytes} (h : 37 ∉ tpl) (num : Int64) :
    37 ∉ expandDASHTemplate tpl num := by
  have hnum : 37 ∉ formatPadded 0 num := notMem_formatPadded (by decide) (by decide) 0 num
  unfold expandDASHTemplate
  exact notMem_replaceAll (notMem_replaceAll (notMem_replaceAll h (by decide)) hnum) (by decide)

variable {st : MpdSegmentTemplate}

theorem MpdSegmentTemplate.chunk_url (h : 37 ∉ st.media) (directive : Directives)
    (streamKey : Bytes) (seq : Int64) :
    (st.chunk directive streamKey seq).url = expandDASHTemplate st.media seq ++ extra seq :=
  sprintf_plain directive (percent_notMem_expandDASHTemplate h seq) seq

theorem MpdSegmentTemplate.getElem?_chunks {directive : Directives} {streamKey : Bytes}
    {segmentCount : Int64} {i : ℕ} {c : DashChunk}
    (h : (st.chunks directive streamKey segmentCount)[i]? = some c) :
    i < segmentCount.toInt.toNat ∧ c = st.chunk directive streamKey (st.startNum + Int64.ofNat i) := by
  rw [chunks, List.getElem?_map] at h
  obtain ⟨j, hj, rfl⟩ := Option.map_eq_some_iff.mp h
  obtain ⟨hlt, rfl⟩ := List.getElem?_eq_some_iff.mp hj
  simp only [List.length_range, List.getElem_range] at hlt ⊢
  exact ⟨hlt, trivial⟩

/- The chunks that are generated for a template of the document. -/
def MpdRoot.templateChunks (fl : Float64 F) (directive : Directives) (streamKey : Bytes)
    (maxDASHSegments : Option Int64) (root : MpdRoot) (st : MpdSegmentTemplate) : List DashChunk :=
  st.chunks directive streamKey (st.segmentCount fl
    (fl.parseISO8601Duration root.mediaPresentationDuration) (maxSegments maxDASHSegments))

/-- Every chunk of a template without percent signs has the number it should have, and for
its URL the expanded template followed by the complaint about an argument that the format
does not take. -/
theorem template_urls_never_plain (fl : Float64 F) (directive : Directives) (streamKey : Bytes)
    (maxDASHSegments : Option Int64) (root : MpdRoot) (st : MpdSegmentTemplate)
    (hst : SegmentSource.template st ∈ root.sources) (hmedia : 37 ∉ st.media) :
    (∃ before after, (dashManifest fl directive streamKey maxDASHSegments root).chunks =
        before ++ root.templateChunks fl directive streamKey maxDASHSegments st ++ after) ∧
      ∀ i c, (root.templateChunks fl directive streamKey maxDASHSegments st)[i]? = some c →
        c.seqNum = (if st.startNumber = 0 then 1 else st.startNumber) + Int64.ofNat i ∧
          c.url = expandDASHTemplate st.media c.seqNum ++ extra c.seqNum ∧
          c.url ≠ expandDASHTemplate st.media c.seqNum := by
  constructor
  · obtain ⟨pre, post, hsources⟩ := List.append_of_mem hst
    rw [dashManifest_chunks, hsources, List.flatMap_append, List.flatMap_cons,
      ← List.append_assoc]
    exact ⟨_, _, rfl⟩
  · intro i c hc
    obtain ⟨-, rfl⟩ := MpdSegmentTemplate.getElem?_chunks hc
    have hurl := MpdSegmentTemplate.chunk_url hmedia directive streamKey
      (st.startNum + Int64.ofNat i)
    refine ⟨rfl, hurl, fun heq => ?_⟩
    exact extra_ne_nil _ (List.append_right_eq_self.mp (hurl.symm.trans heq))

/- Durations as rational numbers, with digits only. -/
def rational : Float64 ℚ where
  parseFloat s := (parseUint s).getD 0
  ofInt64 n := n.toInt
  toInt64 q := Int64.ofInt q.floor
  add := (· + ·)
  mul := (· * ·)
  div := (· / ·)
  ceil q := q.ceil

/- No directive takes anything. -/
def noDirectives : Directives := fun _ taken _ => ([], taken, 0)

def videoTemplate : MpdSegmentTemplate := ⟨1000, 2000, 1, lit "video_$Number$.m4s"⟩

/- The document of the source's own test. -/
def videoOnly : MpdRoot := ⟨[], [⟨[⟨some videoTemplate, none⟩]⟩]⟩

theorem video_url_has_complaint :
    ((dashManifest rational noDirectives (lit "live/dash1") (some 2) videoOnly).chunks.map
        fun c => (c.seqNum, c.url)) =
      [(1, lit "video_1.m4s%!(EXTRA int64=1)"), (2, lit "video_2.m4s%!(EXTRA int64=2)")] ∧
    expandDASHTemplate videoTemplate.media 1 = lit "video_1.m4s" := by
  decide +kernel

theorem template_urls_never_plain_of_video :
    SegmentSource.template videoTemplate ∈ videoOnly.sources ∧ 37 ∉ videoTemplate.media ∧
      ∃ c, (videoOnly.templateChunks rational noDirectives (lit "live/dash1") (some 2)
          videoTemplate)[0]? = some c ∧
        c.url ≠ expandDASHTemplate videoTemplate.media c.seqNum := by
  have hst : SegmentSource.template videoTemplate ∈ videoOnly.sources := List.mem_cons_self
  have hmedia : 37 ∉ videoTemplate.media := by decide +kernel
  have hurls := template_urls_never_plain rational noDirectives (lit "live/dash1") (some 2)
    videoOnly videoTemplate hst hmedia
  exact ⟨hst, hmedia, _, rfl, (hurls.2 0 _ rfl).2.2⟩

/-! ### Which chunks share a number -/

section Identity
variable (fl : Float64 F) (directive : Directives)

/-- The source gives the number `n` to a chunk with this URL. -/
def SegmentSource.Gives (manifestDur maxSegments : Int64) (n : Int64) (url : Bytes) :
    SegmentSource → Prop
  | .template st =>
    ∃ i < (st.segmentCount fl manifestDur maxSegments).toInt.toNat,
      n = st.startNum + Int64.ofNat i ∧ url = sprintf directive (expandDASHTemplate st.media n) n
  | .list sl => ∃ i, n = 1 + Int64.ofNat i ∧ sl.segmentURLs[i]? = some url

/-- Where two sources give the same number, they give it to the same URL. -/
def SegmentSource.Compatible (manifestDur maxSegments : Int64) (a b : SegmentSource) : Prop :=
  ∀ n u v, a.Gives fl directive manifestDur maxSegments n u →
    b.Gives fl directive manifestDur maxSegments n v → u = v

/-- A number belongs to one URL only. -/
def SameURL (c c' : DashChunk) : Prop := c.seqNum = c'.seqNum → c.url = c'.url

instance : Std.Symm SameURL := ⟨fun _ _ h heq => (h heq.symm).symm⟩

variable {fl directive} {streamKey : Bytes} {manifestDur maxSegments : Int64}

theorem SegmentSource.mem_chunks (streamKey : Bytes) {src : SegmentSource} {n : Int64}
    {url : Bytes} :
    (∃ c ∈ src.chunks fl directive streamKey manifestDur maxSegments, c.seqNum = n ∧ c.url = url) ↔
      src.Gives fl directive manifestDur maxSegments n url := by
  cases src with
  | template st =>
    constructor
    · rintro ⟨c, hc, rfl, rfl⟩
      obtain ⟨i, hi, rfl⟩ := List.mem_map.mp hc
      exact ⟨i, List.mem_range.mp hi, rfl, rfl⟩
    · rintro ⟨i, hi, rfl, rfl⟩
      exact ⟨_, List.mem_map.mpr ⟨i, List.mem_range.mpr hi, rfl⟩, rfl, rfl⟩
  | list sl =>
    constructor
    · rintro ⟨c, hc, rfl, rfl⟩
      obtain ⟨i, hi, rfl⟩ := List.mem_mapIdx.mp hc
      exact ⟨i, rfl, List.getElem?_eq_getElem hi⟩
    · rintro ⟨i, rfl, hi⟩
      obtain ⟨hlt, rfl⟩ := List.getElem?_eq_some_iff.mp hi
      exact ⟨_, List.mem_mapIdx.mpr ⟨i, hlt, rfl⟩, rfl, rfl⟩

/- One source counts up, and never so far that a number comes again. -/
theorem SegmentSource.chunks_pairwise (src : SegmentSource) :
    (src.chunks fl directive streamKey manifestDur maxSegments).Pairwise SameURL := by
  rw [List.pairwise_iff_getElem]
  intro i j hi hj hlt hseq
  exfalso
  cases src with
  | template st =>
    have hcount := (st.segmentCount fl manifestDur maxSegments).toInt_lt
    simp only [chunks, MpdSegmentTemplate.chunks, List.length_map, List.length_range] at hi hj
    simp only [chunks, MpdSegmentTemplate.chunks, List.getElem_map, List.getElem_range,
      MpdSegmentTemplate.chunk] at hseq
    have heq := add_ofNat_inj (by omega) (by omega) hseq
    omega
  | list sl =>
    have hfits := sl.fits
    simp only [chunks, MpdSegmentList.chunks, List.length_mapIdx] at hi hj
    simp only [chunks, MpdSegmentList.chunks, List.getElem_mapIdx] at hseq
    have heq := add_ofNat_inj (by omega) (by omega) hseq
    omega

theorem SegmentSource.compatible_iff {a b : SegmentSource} :
    (∀ c ∈ a.chunks fl directive streamKey manifestDur maxSegments,
      ∀ c' ∈ b.chunks fl directive streamKey manifestDur maxSegments, SameURL c c') ↔
      a.Compatible fl directive manifestDur maxSegments b := by
  constructor
  · intro h n u v hu hv
    obtain ⟨c, hc, rfl, rfl⟩ := (mem_chunks streamKey).mpr hu
    obtain ⟨c', hc', hseq, rfl⟩ := (mem_chunks streamKey).mpr hv
    exact h c hc c' hc' hseq.symm
  · intro h c hc c' hc' hseq
    exact h c.seqNum c.url c'.url ((mem_chunks streamKey).mp ⟨c, hc, rfl, rfl⟩)
      ((mem_chunks streamKey).mp ⟨c', hc', hseq.symm, rfl⟩)

end Identity

theorem dashManifest_streamKey (fl : Float64 F) (directive : Directives) (streamKey : Bytes)
    (maxDASHSegments : Option Int64) (root : MpdRoot) :
    ∀ c ∈ (dashManifest fl directive streamKey maxDASHSegments root).chunks,
      c.streamKey = streamKey := by
  intro c hc
  rw [dashManifest_chunks] at hc
  obtain ⟨src, -, hc⟩ := List.mem_flatMap.mp hc
  cases src with
  | template st =>
    obtain ⟨i, -, rfl⟩ := List.mem_map.mp hc
    rfl
  | list sl =>
    obtain ⟨i, -, rfl⟩ := List.mem_mapIdx.mp hc
    rfl

theorem dashManifest_sameURL_iff (fl : Float64 F) (directive : Directives) (streamKey : Bytes)
    (maxDASHSegments : Option Int64) (root : MpdRoot) :
    (dashManifest fl directive streamKey maxDASHSegments root).chunks.Pairwise SameURL ↔
      root.sources.Pairwise (SegmentSource.Compatible fl directive
        (fl.parseISO8601Duration root.mediaPresentationDuration) (maxSegments maxDASHSegments)) := by
  rw [dashManifest_chunks, List.pairwise_flatMap]
  simp only [SegmentSource.chunks_pairwise, implies_true, true_and, SegmentSource.compatible_iff]

/-- The stream and the number name one URL just if any two templates or lists of the document
agree on the numbers that they have in common. -/
theorem dash_chunk_identity_iff (fl : Float64 F) (directive : Directives) (streamKey : Bytes)
    (unmarshal : Bytes → Option MpdRoot) (maxDASHSegments : Option Int64) (data : Bytes)
    (m : DashManifest)
    (h : parseDASHManifestWithConfig fl directive streamKey unmarshal maxDASHSegments data = some m) :
    ∃ root, unmarshal data = some root ∧
      ((∀ c ∈ m.chunks, ∀ c' ∈ m.chunks,
          c.url ≠ c'.url → (c.streamKey, c.seqNum) ≠ (c'.streamKey, c'.seqNum)) ↔
        root.sources.Pairwise (SegmentSource.Compatible fl directive
          (fl.parseISO8601Duration root.mediaPresentationDuration)
          (maxSegments maxDASHSegments))) := by
  obtain ⟨root, hroot, rfl⟩ := Option.map_eq_some_iff.mp h
  have hkey := dashManifest_streamKey fl directive streamKey maxDASHSegments root
  refine ⟨root, hroot, ?_⟩
  rw [← dashManifest_sameURL_iff fl directive streamKey]
  constructor
  · intro hidentity
    refine List.pairwise_of_forall_mem_list fun c hc c' hc' hseq => ?_
    by_contra hurl
    exact hidentity c hc c' hc' hurl (Prod.ext ((hkey c hc).trans (hkey c' hc').symm) hseq)
  · intro hsame c hc c' hc' hurl hpair
    have hall := hsame.forall_of_forall fun _ _ _ => rfl
    exact hurl (hall hc hc' (Prod.mk.inj hpair).2)

/- Two periods, the second counted from 101. -/
def twoPeriods : MpdRoot :=
  ⟨[], [⟨[⟨some videoTemplate, none⟩]⟩, ⟨[⟨some { videoTemplate with startNumber := 101 }, none⟩]⟩]⟩

theorem dash_chunk_identity_of_periods :
    ∃ m, parseDASHManifestWithConfig rational noDirectives (lit "live/dash1")
        (fun _ => some twoPeriods) (some 2) [] = some m ∧
      (m.chunks.map fun c => c.seqNum) = [1, 2, 101, 102] ∧
      ∀ c ∈ m.chunks, ∀ c' ∈ m.chunks,
        c.url ≠ c'.url → (c.streamKey, c.seqNum) ≠ (c'.streamKey, c'.seqNum) := by
  obtain ⟨root, hroot, hiff⟩ := dash_chunk_identity_iff rational noDirectives (lit "live/dash1")
    (fun _ => some twoPeriods) (some 2) [] _ rfl
  cases hroot
  have hsame : (dashManifest rational noDirectives (lit "live/dash1") (some 2)
      twoPeriods).chunks.Pairwise fun c c' => c.seqNum = c'.seqNum → c.url = c'.url := by
    decide +kernel
  exact ⟨_, rfl, by decide +kernel, hiff.mpr ((dashManifest_sameURL_iff ..).mp hsame)⟩

/- Video and audio in one period, both counted from 1. -/
def videoAndAudio : MpdRoot :=
  ⟨[], [⟨[⟨some videoTemplate, none⟩, ⟨some ⟨1000, 2000, 1, lit "audio_$Number$.m4s"⟩, none⟩]⟩]⟩

theorem video_and_audio_share_numbers :
    ((dashManifest rational noDirectives (lit "live/dash1") (some 1) videoAndAudio).chunks.map
        fun c => (c.streamKey, c.seqNum, c.url)) =
      [(lit "live/dash1", 1, lit "video_1.m4s%!(EXTRA int64=1)"),
        (lit "live/dash1", 1, lit "audio_1.m4s%!(EXTRA int64=1)")] := by
  decide +kernel

end EdgeDispatch.Streaming
