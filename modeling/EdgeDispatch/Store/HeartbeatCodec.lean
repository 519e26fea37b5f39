import EdgeDispatch.ContentIndex.Summaries
import EdgeDispatch.Lib.Gzip
import EdgeDispatch.Lib.JsonText
import Mathlib.Data.List.DropRight

/-! # Heartbeats as they are stored (internal/store/pg.go:686-732)

`marshalHB` writes a heartbeat as JSON and compresses what is not short; `unmarshalHB`
recognises compressed data by its first two bytes and reads at most 10 MiB of it. -/

namespace EdgeDispatch.Store.HeartbeatCodec
open Lib Lib.ByteString Lib.GoStrings
open Lib.JsonText (object array)
open ContentIndex.Summaries (ContentSummary)

/-! ### models.HeartbeatRequest; `F` is float64 -/

structure NodeRuntime (F : Type) where
  cpu : F
  memMB : ℤ
  diskFreeGB : ℤ
  conn : ℤ
  deriving DecidableEq

structure NodeTraffic (F : Type) where
  egressMbps : F
  ingressMbps : F
  err5xxRate : F
  deriving DecidableEq

structure NodeCache (F : Type) where
  hitRatio : F
  deriving DecidableEq

structure HeartbeatRequest (F : Type) where
  nodeID : String
  ts : ℤ
  runtime : NodeRuntime F
  traffic : NodeTraffic F
  cache : NodeCache F
  contentSummary : Option ContentSummary
  deriving DecidableEq

variable {F : Type}

/- Lists that are empty are left out of the JSON, as those that are nil are. -/
def dropEmpty {α : Type} (l : Option (List α)) : Option (List α) :=
  l.filter fun xs => !xs.isEmpty

def HeartbeatRequest.normal (hb : HeartbeatRequest F) : HeartbeatRequest F :=
  { hb with contentSummary := hb.contentSummary.map fun s =>
      { s with hotKeys := dropEmpty s.hotKeys, bloomFilter := dropEmpty s.bloomFilter } }

/-- The same heartbeat, up to empty and absent lists. -/
def Alike (a b : HeartbeatRequest F) : Prop := a.normal = b.normal

theorem dropEmpty_dropEmpty {α : Type} (l : Option (List α)) :
    dropEmpty (dropEmpty l) = dropEmpty l := by
  cases l with
  | none => rfl
  | some xs => cases xs <;> rfl

theorem HeartbeatRequest.alike_normal (hb : HeartbeatRequest F) : Alike hb.normal hb := by
  cases hs : hb.contentSummary <;> simp [Alike, normal, hs, dropEmpty_dropEmpty]

/-! ### The two formats inside -/

/-- `json.Marshal`, `json.Unmarshal` into a new heartbeat, a gzip writer that is written to
and closed, and `gzip.NewReader`; `none` is an error. -/
structure Codecs (F : Type) where
  marshal : HeartbeatRequest F → Option Bytes
  unmarshal : Bytes → Option (HeartbeatRequest F)
  compress : Bytes → Bytes
  expand : Bytes → Option Gzip.Stream

/-- Both formats give back what was put in; a JSON object starts with a brace, gzip data with
its two magic bytes. -/
structure Codecs.Lawful (c : Codecs F) : Prop where
  decode : ∀ hb raw, c.marshal hb = some raw → ∃ hb', c.unmarshal raw = some hb' ∧ Alike hb' hb
  brace : ∀ hb raw, c.marshal hb = some raw → ∃ rest, raw = 123 :: rest
  magic : ∀ raw, ∃ rest, c.compress raw = 0x1f :: 0x8b :: rest
  expand : ∀ raw, ∃ early, c.expand (c.compress raw) = some ⟨raw, false, early⟩

def hbCompressThreshold : ℕ := 256

def maxHBDecompressedSize : ℕ := 10 * 2 ^ 20

def marshalHB (c : Codecs F) (hb : HeartbeatRequest F) : Option Bytes :=
  (c.marshal hb).map fun raw => if raw.length < hbCompressThreshold then raw else c.compress raw

inductive HBError where
  | emptyData
  | gzipHeader
  | read
  | tooLarge (bytes : ℕ)
  | json
  deriving DecidableEq

def isGzip (data : Bytes) : Bool := data.take 2 = [0x1f, 0x8b]

/- What follows the reading. -/
def decodeRaw (c : Codecs F) (raw : Bytes) : Except HBError (HeartbeatRequest F) :=
  if maxHBDecompressedSize < raw.length then .error (.tooLarge raw.length)
  else match c.unmarshal raw with
    | none => .error .json
    | some hb => .ok hb

def unmarshalHB (c : Codecs F) (data : Bytes) : Except HBError (HeartbeatRequest F) :=
  if data = [] then .error .emptyData
  else if isGzip data then
    match c.expand data with
    | none => .error .gzipHeader
    | some s =>
      match s.readAllLimited maxHBDecompressedSize with
      | none => .error .read
      | some raw => decodeRaw c raw
  else decodeRaw c data

/-! ### Both ways -/

variable {raw : Bytes}

theorem decodeRaw_eq_ok {c : Codecs F} (h : raw.length ≤ maxHBDecompressedSize)
    {hb : HeartbeatRequest F} (hraw : c.unmarshal raw = some hb) : decodeRaw c raw = .ok hb := by
  rw [decodeRaw, if_neg (Nat.not_lt.mpr h), hraw]

theorem unmarshalHB_plain (c : Codecs F) {b : Byte} (hb : b ≠ 0x1f) (rest : Bytes) :
    unmarshalHB c (b :: rest) = decodeRaw c (b :: rest) := by
  have hgzip : isGzip (b :: rest) = false := by simp [isGzip, hb]
  simp [unmarshalHB, hgzip]

theorem unmarshalHB_gzip {c : Codecs F} {data : Bytes} (h : isGzip data = true) {s : Gzip.Stream}
    (hs : c.expand data = some s) (hraw : s.readAllLimited maxHBDecompressedSize = some raw) :
    unmarshalHB c data = decodeRaw c raw := by
  have hdata : data ≠ [] := by
    rintro rfl
    cases h
  simp [unmarshalHB, hdata, h, hs, hraw]

/-- A heartbeat whose JSON is at most 10 MiB is stored, short or compressed, and what is
stored is read back as the same heartbeat. -/
theorem unmarshalHB_marshalHB {c : Codecs F} (hc : c.Lawful) {hb : HeartbeatRequest F}
    {raw : Bytes} (hraw : c.marshal hb = some raw) (hsize : raw.length ≤ maxHBDecompressedSize) :
    ∃ data hb', marshalHB c hb = some data ∧ unmarshalHB c data = .ok hb' ∧ Alike hb' hb := by
  obtain ⟨hb', hdecode, halike⟩ := hc.decode hb raw hraw
  have hok : decodeRaw c raw = .ok hb' := decodeRaw_eq_ok hsize hdecode
  by_cases hshort : raw.length < hbCompressThreshold
  · refine ⟨raw, hb', by simp [marshalHB, hraw, hshort], ?_, halike⟩
    obtain ⟨rest, rfl⟩ := hc.brace hb raw hraw
    rw [unmarshalHB_plain c (by decide), hok]
  · refine ⟨c.compress raw, hb', by simp [marshalHB, hraw, hshort], ?_, halike⟩
    obtain ⟨rest, hmagic⟩ := hc.magic raw
    obtain ⟨early, hexpand⟩ := hc.expand raw
    have hgzip : isGzip (c.compress raw) = true := by simp [isGzip, hmagic]
    have hread := Gzip.Stream.readAllLimited_of_le (s := ⟨raw, false, early⟩) hsize rfl
    rw [unmarshalHB_gzip hgzip hexpand hread, hok]

/-! ### Two heartbeats, on either side of the threshold -/

def short : HeartbeatRequest ℚ :=
  { nodeID := "n1", ts := 1700000000, runtime := ⟨1 / 2, 512, 20, 3⟩, traffic := ⟨10, 2, 0⟩,
    cache := ⟨1 / 4⟩, contentSummary := none }

def long : HeartbeatRequest ℚ :=
  { short with
    contentSummary := some ⟨"n1", some [lit "videos/intro.mp4", lit "videos/outro.mp4"], some [], 0,
      2, 1700000000⟩ }

/- What `json.Marshal` writes for both. -/
def measured : List (String × Bytes) :=
  [("node_id", lit "\"n1\""), ("ts", lit "1700000000"),
    ("runtime", object [("cpu", lit "0.5"), ("mem_mb", lit "512"), ("disk_free_gb", lit "20"),
      ("conn", lit "3")]),
    ("traffic", object [("egress_mbps", lit "10"), ("ingress_mbps", lit "2"),
      ("err_5xx_rate", lit "0")]),
    ("cache", object [("hit_ratio", lit "0.25")])]

def shortText : Bytes := object measured

def longText : Bytes :=
  object (measured ++ [("content_summary", object [("node_id", lit "\"n1\""),
    ("hot_keys", array [lit "\"videos/intro.mp4\"", lit "\"videos/outro.mp4\""]),
    ("total_keys", lit "2"), ("updated_at", lit "1700000000")])])

def zero : HeartbeatRequest ℚ := ⟨"", 0, ⟨0, 0, 0, 0⟩, ⟨0, 0, 0⟩, ⟨0⟩, none⟩

/- JSON may be followed by white space. -/
def isSpace (b : Byte) : Bool := b = 32 ∨ b = 9 ∨ b = 13 ∨ b = 10

/-- What the two formats do to these heartbeats; the empty filter of `long` is left out. -/
def samples : Codecs ℚ where
  marshal hb := if hb = short then some shortText else if hb = long then some longText else none
  unmarshal raw :=
    let text := raw.rdropWhile isSpace
    if text = shortText then some short
    else if text = longText then some long.normal
    else if text = object [] then some zero
    else none
  compress := Gzip.compress
  expand := Gzip.expand

theorem samples_marshal {hb : HeartbeatRequest ℚ} (h : samples.marshal hb = some raw) :
    (hb = short ∧ raw = shortText) ∨ (hb = long ∧ raw = longText) := by
  unfold samples at h
  dsimp only at h
  split at h
  · exact Or.inl ⟨‹_›, (Option.some.inj h).symm⟩
  · split at h
    · exact Or.inr ⟨‹_›, (Option.some.inj h).symm⟩
    · cases h

theorem longText_ne_shortText : longText ≠ shortText := by decide +kernel

theorem object_rdropWhile (members : List (String × Bytes)) (n : ℕ) :
    (object members ++ List.replicate n 32).rdropWhile isSpace = object members := by
  induction n with
  | zero =>
    rw [List.replicate_zero, List.append_nil]
    exact List.rdropWhile_concat_neg _ _ _ (by decide)
  | succ n ih =>
    rw [List.replicate_succ', ← List.append_assoc, List.rdropWhile_concat_pos _ _ _ (by decide), ih]

theorem samples_unmarshal :
    samples.unmarshal shortText = some short ∧ samples.unmarshal longText = some long.normal := by
  have htext : ∀ members, (object members).rdropWhile isSpace = object members := fun members => by
    simpa using object_rdropWhile members 0
  have hshort : shortText.rdropWhile isSpace = shortText := htext _
  have hlong : longText.rdropWhile isSpace = longText := htext _
  constructor
  · simp only [samples, hshort, if_true]
  · simp only [samples, hlong, if_neg longText_ne_shortText, if_true]

theorem samples_lawful : samples.Lawful where
  decode hb raw h := by
    rcases samples_marshal h with ⟨rfl, rfl⟩ | ⟨rfl, rfl⟩
    · exact ⟨short, samples_unmarshal.1, rfl⟩
    · exact ⟨long.normal, samples_unmarshal.2, long.alike_normal⟩
  brace hb raw h := by
    rcases samples_marshal h with ⟨-, rfl⟩ | ⟨-, rfl⟩
    · exact ⟨_, rfl⟩
    · exact ⟨_, rfl⟩
  magic := Gzip.compress_magic
  expand raw := ⟨true, Gzip.expand_compress raw⟩

theorem samples_length : shortText.length = 184 ∧ longText.length = 309 := by decide +kernel

theorem unmarshalHB_marshalHB_samples :
    (shortText.length < hbCompressThreshold ∧
      ∃ data hb, marshalHB samples short = some data ∧ unmarshalHB samples data = .ok hb ∧
        Alike hb short) ∧
    (hbCompressThreshold ≤ longText.length ∧
      ∃ data hb, marshalHB samples long = some data ∧ unmarshalHB samples data = .ok hb ∧
        Alike hb long) := by
  have hne : long ≠ short := fun h => nomatch congrArg HeartbeatRequest.contentSummary h
  have hlong : samples.marshal long = some longText := (if_neg hne).trans (if_pos rfl)
  have hsizes : (184 < hbCompressThreshold ∧ 184 ≤ maxHBDecompressedSize) ∧
      hbCompressThreshold ≤ 309 ∧ 309 ≤ maxHBDecompressedSize := by decide
  obtain ⟨hs, hl⟩ := samples_length
  rw [hs, hl]
  exact ⟨⟨hsizes.1.1, unmarshalHB_marshalHB samples_lawful (if_pos rfl) (hs ▸ hsizes.1.2)⟩,
    ⟨hsizes.2.1, unmarshalHB_marshalHB samples_lawful hlong (hl ▸ hsizes.2.2)⟩⟩

/-! ### Data that expands too far -/

/-- Gzip data that expands to more than 10 MiB is rejected just if the first 10 MiB of it are
not a heartbeat on their own. -/
theorem oversized_rejected_iff {c : Codecs F} {data : Bytes} (h : isGzip data = true)
    {s : Gzip.Stream} (hs : c.expand data = some s)
    (hsize : maxHBDecompressedSize < s.out.length) :
    (∃ e, unmarshalHB c data = .error e) ↔
      c.unmarshal (s.out.take maxHBDecompressedSize) = none := by
  have hlen : (s.out.take maxHBDecompressedSize).length ≤ maxHBDecompressedSize :=
    List.length_take_le ..
  rw [unmarshalHB_gzip h hs (Gzip.Stream.readAllLimited_of_lt hsize), decodeRaw,
    if_neg (Nat.not_lt.mpr hlen)]
  cases c.unmarshal (s.out.take maxHBDecompressedSize) <;> simp

/- An empty object, padded with blanks past the limit, and a stray letter at the end. -/
def padded : Bytes := object [] ++ List.replicate maxHBDecompressedSize 32 ++ [120]

theorem padded_length : padded.length = maxHBDecompressedSize + 3 := by
  have hempty : (object []).length = 2 := rfl
  rw [padded, List.length_append, List.length_append, List.length_replicate, hempty,
    List.length_singleton]
  omega

theorem padded_take :
    padded.take maxHBDecompressedSize =
      object [] ++ List.replicate (maxHBDecompressedSize - 2) 32 := by
  have hempty : (object []).length = 2 := rfl
  have hle : maxHBDecompressedSize - 2 ≤ maxHBDecompressedSize := Nat.sub_le ..
  have htail : maxHBDecompressedSize - (object []).length ≤
      (List.replicate maxHBDecompressedSize (32 : Byte)).length := by
    rw [List.length_replicate, hempty]
    exact hle
  rw [padded, List.append_assoc, List.take_append, List.take_of_length_le (by rw [hempty]; decide),
    List.take_append_of_le_length htail, hempty, List.take_replicate, Nat.min_eq_left hle]

theorem isGzip_compress (raw : Bytes) : isGzip (Gzip.compress raw) = true := by
  obtain ⟨rest, hmagic⟩ := Gzip.compress_magic raw
  simp [isGzip, hmagic]

theorem padded_oversized : maxHBDecompressedSize < padded.length := by
  rw [padded_length]
  omega

/- A letter at the end is no white space. -/
theorem letter_unmarshal {bs : Bytes} (hlen : maxHBDecompressedSize ≤ (bs ++ [120]).length) :
    samples.unmarshal (bs ++ [120]) = none := by
  have hself : (bs ++ [120]).rdropWhile isSpace = bs ++ [120] :=
    List.rdropWhile_concat_neg _ _ _ (by decide)
  have hlong : ∀ text : Bytes, text.length < maxHBDecompressedSize → bs ++ [120] ≠ text :=
    fun text htext he => absurd (he ▸ hlen) (Nat.not_le.mpr htext)
  have hsizes : 184 < maxHBDecompressedSize ∧ 309 < maxHBDecompressedSize ∧
      2 < maxHBDecompressedSize := by decide
  obtain ⟨hs, hl⟩ := samples_length
  simp only [samples, hself, if_neg (hlong shortText (hs ▸ hsizes.1)),
    if_neg (hlong longText (hl ▸ hsizes.2.1)), if_neg (hlong (object []) hsizes.2.2)]

theorem padded_unmarshal : samples.unmarshal padded = none :=
  letter_unmarshal (Nat.le_of_lt padded_oversized)

/- Nothing but letters. -/
def letters : Bytes := List.replicate (maxHBDecompressedSize + 1) 120

theorem oversized_rejected_letters :
    samples.unmarshal (letters.take maxHBDecompressedSize) = none ∧
      ∃ e, unmarshalHB samples (Gzip.compress letters) = .error e := by
  have htake : letters.take maxHBDecompressedSize =
      List.replicate (maxHBDecompressedSize - 1) 120 ++ [120] := by
    rw [letters, List.take_replicate, ← List.replicate_succ']
    rfl
  have hbad : samples.unmarshal (letters.take maxHBDecompressedSize) = none := by
    rw [htake]
    refine letter_unmarshal ?_
    rw [List.length_append, List.length_replicate]
    exact Nat.le_refl _
  refine ⟨hbad, (oversized_rejected_iff (c := samples) (s := ⟨letters, false, true⟩)
    (isGzip_compress letters) (Gzip.expand_compress letters) ?_).mpr hbad⟩
  show maxHBDecompressedSize < letters.length
  rw [letters, List.length_replicate]
  exact Nat.lt_succ_self _

theorem blanks_unmarshal (n : ℕ) :
    samples.unmarshal (object [] ++ List.replicate n 32) = some zero := by
  have hempty : (object []).length = 2 := rfl
  obtain ⟨hs, hl⟩ := samples_length
  have hshort : object [] ≠ shortText := fun he => by
    rw [← he, hempty] at hs
    cases hs
  have hlong : object [] ≠ longText := fun he => by
    rw [← he, hempty] at hl
    cases hl
  simp only [samples, object_rdropWhile, if_neg hshort, if_neg hlong, if_true]

/-- The data expands to more than 10 MiB and is no JSON. The letter that makes it so lies
behind the limit, and a heartbeat without a node is returned. -/
theorem truncated_heartbeat_accepted :
    Gzip.expand (Gzip.compress padded) = some ⟨padded, false, true⟩ ∧
      maxHBDecompressedSize < padded.length ∧ samples.unmarshal padded = none ∧
      unmarshalHB samples (Gzip.compress padded) = .ok zero := by
  refine ⟨Gzip.expand_compress padded, padded_oversized, padded_unmarshal, ?_⟩
  have hread := Gzip.Stream.readAllLimited_of_lt (s := ⟨padded, false, true⟩) padded_oversized
  rw [unmarshalHB_gzip (isGzip_compress padded) (Gzip.expand_compress padded) hread]
  refine decodeRaw_eq_ok (List.length_take_le ..) ?_
  rw [padded_take]
  exact blanks_unmarshal _

end EdgeDispatch.Store.HeartbeatCodec
