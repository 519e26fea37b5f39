import EdgeDispatch.Lib.GoSlice
import EdgeDispatch.Lib.NetIP

/-! # DNS questions and responses (internal/dns/server.go)

`parseQuestion` reads the question of a query; `buildDNSResponse` and `buildNXDOMAIN`
assemble an answer in a buffer from `dnsBufPool`. A panic of the runtime is an error
value. -/

namespace EdgeDispatch.Dns.Response
open Lib.ByteString Lib.GoSlice Lib.NetIP

inductive ParseError where
  | queryTooShort
  | offsetOverflow
  | labelOverflow
  | noQtype
  deriving DecidableEq

def ParseError.message : ParseError → String
  | .queryTooShort => "query too short"
  | .offsetOverflow => "offset overflow"
  | .labelOverflow => "label overflow"
  | .noQtype => "no qtype/qclass"

/-- The loop over labels. Every turn moves the offset on, so the query's length is fuel
enough. -/
def labelLoop (query : Bytes) : ℕ → ℕ → List Bytes → Except ParseError (List Bytes × ℕ)
  | 0, _, _ => .error .offsetOverflow
  | fuel + 1, offset, parts =>
    match query[offset]? with
    | none => .error .offsetOverflow
    | some length =>
      if length = 0 then .ok (parts, offset + 1)
      else if query.length < offset + 1 + length.toNat then .error .labelOverflow
      else labelLoop query fuel (offset + 1 + length.toNat)
        (parts ++ [(query.drop (offset + 1)).take length.toNat])

/- The labels and the offset of qtype. -/
def parseName (query : Bytes) : Except ParseError (List Bytes × ℕ) :=
  if query.length < 16 then .error .queryTooShort
  else do
    let (parts, offset) ← labelLoop query query.length 12 []
    if query.length < offset + 4 then .error .noQtype else .ok (parts, offset)

def parseQuestion (query : Bytes) : Except ParseError (Bytes × UInt16) := do
  let (parts, offset) ← parseName query
  let qtype := (query.getD offset 0).toUInt16 <<< 8 ||| (query.getD (offset + 1) 0).toUInt16
  return (List.intercalate [46] parts, qtype)

structure Candidate where
  endpoint : String

section Build
variable (slack : ℕ → ℕ) (extractIP : String → Option Bytes)

def put (buf : Slice Byte) (xs : Bytes) : Slice Byte := buf.append 0 slack xs

def newDNSBuffer (b : Slice Byte) : Except Panic (Slice Byte) := b.upTo 0

def copySection (src : Bytes) (dst : Slice Byte) (srcStart : ℕ) (length : ℤ) :
    Except Panic (Slice Byte × ℕ) :=
  let length := if (src.length : ℤ) < srcStart + length then (src.length : ℤ) - srcStart else length
  if length ≤ 0 then .ok (dst, 0)
  else do
    let n := length.toNat
    let need := dst.len + n
    let big ← if dst.cap < need then (Slice.make 0 need).copyTo 0 need dst.toList else .ok dst
    let dst ← big.upTo need
    let dst ← dst.copyTo (need - n) need ((src.drop srcStart).take n)
    return (dst, n)

/- `byte(x >> k)` of an int64. -/
def byteAt (x : ℤ) (k : ℕ) : Byte := UInt8.ofNat ((x / 2 ^ k) % 256).toNat

/- One turn of the answer loop for an address. -/
def answer (buf : Slice Byte) (ttl : ℤ) (qtype : UInt16) (ip : Bytes) : Slice Byte :=
  let recordType : UInt16 := if qtype = 28 then 28 else 1
  let buf := put slack buf [0xC0, 0x0C]
  let buf := put slack buf [(recordType >>> 8).toUInt8, recordType.toUInt8]
  let buf := put slack buf [0x00, 0x01]
  let buf := put slack buf [byteAt ttl 24, byteAt ttl 16, byteAt ttl 8, byteAt ttl 0]
  if recordType = 1 then put slack (put slack buf [0x00, 0x04]) ((to4 ip).getD [])
  else put slack (put slack buf [0x00, 0x10]) ((to16 ip).getD [])

def answers (ttl : ℤ) (qtype : UInt16) : List Candidate → Slice Byte × UInt16 → Slice Byte × UInt16
  | [], acc => acc
  | c :: rest, (buf, ansCount) =>
    match extractIP c.endpoint with
    | none => answers ttl qtype rest (buf, ansCount)
    | some ip => answers ttl qtype rest (answer slack buf ttl qtype ip, ansCount + 1)

def buildDNSResponse (b : Slice Byte) (txID query : Bytes) (candidates : List Candidate) (ttl : ℤ)
    (qtype : UInt16) : Except Panic (Slice Byte) := do
  let buf ← newDNSBuffer b
  let buf ← buf.copyTo 0 2 txID
  let buf ← buf.set 2 0x81
  let buf ← buf.set 3 0x80
  let (buf, _) ← copySection query buf 12 ((query.length : ℤ) - 12)
  let buf ← buf.set 4 0x00
  let buf ← buf.set 5 0x01
  let (buf, ansCount) := answers slack extractIP ttl qtype candidates (buf, 0)
  let buf ← buf.set 6 (ansCount >>> 8).toUInt8
  buf.set 7 ansCount.toUInt8

def buildNXDOMAIN (b : Slice Byte) (txID query : Bytes) : Except Panic (Slice Byte) := do
  let buf ← newDNSBuffer b
  let buf ← buf.copyTo 0 2 txID
  let buf ← buf.set 2 0x81
  let buf ← buf.set 3 0x83
  let (buf, _) ← copySection query buf 12 ((query.length : ℤ) - 12)
  let buf ← buf.set 4 0x00
  let buf ← buf.set 5 0x01
  let buf ← buf.set 6 0x00
  buf.set 7 0x00

end Build

/-! ### The layout a response should have -/

/-- The question section: the name and the four bytes of type and class. -/
def question (query : Bytes) : Bytes :=
  match parseName query with
  | .ok (_, offset) => (query.take (offset + 4)).drop 12
  | .error _ => []

/-- A record whose name is the pointer to the question. -/
structure Record where
  rtype : ℕ
  rclass : ℕ
  ttl : ℕ
  rdata : Bytes
  deriving DecidableEq

def namePointer : Bytes := [0xC0, 0x0C]

def parseRecord (bs : Bytes) : Option (Record × Bytes) :=
  if bs.take 2 = namePointer ∧ 12 + beVal ((bs.drop 10).take 2) ≤ bs.length then
    some (⟨beVal ((bs.drop 2).take 2), beVal ((bs.drop 4).take 2), beVal ((bs.drop 6).take 4),
        (bs.drop 12).take (beVal ((bs.drop 10).take 2))⟩,
      bs.drop (12 + beVal ((bs.drop 10).take 2)))
  else none

/- One record after the other until nothing is left. -/
def parseRecordsWith : ℕ → Bytes → Option (List Record)
  | _, [] => some []
  | 0, _ :: _ => none
  | fuel + 1, b :: bs =>
    (parseRecord (b :: bs)).bind fun (r, rest) => (parseRecordsWith fuel rest).map (r :: ·)

/- Every record has at least one byte. -/
def parseRecords (bs : Bytes) : Option (List Record) := parseRecordsWith bs.length bs

structure Layout (query res : Bytes) : Prop where
  header : 12 ≤ res.length
  txID : res.take 2 = query.take 2
  qdCount : beVal ((res.drop 4).take 2) = 1
  question : ((res.drop 12).take (question query).length) = question query
  anCount : (parseRecords (res.drop (12 + (Response.question query).length))).map List.length =
    some (beVal ((res.drop 6).take 2))

def WellBuilt (query : Bytes) (r : Except Panic (Slice Byte)) : Prop :=
  ∃ buf, r = .ok buf ∧ Layout query buf.toList

/- A query for the name a of type A and class IN. -/
def exampleQuery : Bytes := [0xBE, 0xEF, 1, 0, 0, 1, 0, 0, 0, 0, 0, 0, 1, 97, 0, 0, 1, 0, 1]

-- the layout for one answer, 10.0.0.1 for 60 s
example : Layout exampleQuery ([0xBE, 0xEF, 0x81, 0x80, 0, 1, 0, 1, 0, 0, 0, 0, 1, 97, 0, 0, 1, 0, 1,
    0xC0, 0x0C, 0, 1, 0, 1, 0, 0, 0, 60, 0, 4, 10, 0, 0, 1]) := by
  constructor <;> decide

/-! ### No response is built -/

/- `newDNSBuffer` cuts the buffer to length 0 and the header bytes are then assigned by
   index, so the third one is out of range, whatever the pool hands out and whatever
   would come after. -/
theorem header_panics {β : Type} (b : Slice Byte) (txID : Bytes)
    (k : Slice Byte → Except Panic β) :
    (newDNSBuffer b >>= fun buf => buf.copyTo 0 2 txID >>= fun buf => buf.set 2 0x81 >>= k) =
      .error (if 2 ≤ b.cap then .indexOutOfRange 2 0 else .sliceOutOfRange 2 b.cap) := by
  have hnew : newDNSBuffer b = .ok ⟨b.backing, 0, Nat.zero_le _⟩ := by
    simp [newDNSBuffer, Slice.upTo]
  rw [hnew]
  by_cases hcap : 2 ≤ b.cap
  · have hcap' : 2 ≤ (⟨b.backing, 0, Nat.zero_le _⟩ : Slice Byte).cap := hcap
    show (Slice.copyTo ⟨b.backing, 0, Nat.zero_le _⟩ 0 2 txID >>= fun buf => buf.set 2 0x81 >>= k) = _
    rw [Slice.copyTo, if_pos hcap', if_pos hcap]
    rfl
  · have hcap' : ¬ 2 ≤ (⟨b.backing, 0, Nat.zero_le _⟩ : Slice Byte).cap := hcap
    show (Slice.copyTo ⟨b.backing, 0, Nat.zero_le _⟩ 0 2 txID >>= fun buf => buf.set 2 0x81 >>= k) = _
    rw [Slice.copyTo, if_neg hcap', if_neg hcap]
    rfl

theorem wellBuilt_error (query : Bytes) (p : Panic) : ¬ WellBuilt query (.error p) := by
  rintro ⟨buf, h, _⟩
  cases h

/-- Neither function returns, for any buffer, query, candidates, TTL and query type. -/
theorem no_response_well_built (slack : ℕ → ℕ) (extractIP : String → Option Bytes)
    (b : Slice Byte) (query : Bytes) (candidates : List Candidate) (ttl : ℤ) (qtype : UInt16) :
    ¬ WellBuilt query
      (buildDNSResponse slack extractIP b (query.take 2) query candidates ttl qtype) ∧
    ¬ WellBuilt query (buildNXDOMAIN b (query.take 2) query) := by
  constructor
  · unfold buildDNSResponse
    rw [header_panics]
    exact wellBuilt_error query _
  · unfold buildNXDOMAIN
    rw [header_panics]
    exact wellBuilt_error query _

theorem accepted_query_panics :
    parseQuestion exampleQuery = .ok ([97], 1) ∧
    buildDNSResponse id (fun _ => some [10, 0, 0, 1]) (Slice.make 0 512) (exampleQuery.take 2)
      exampleQuery [⟨"http://10.0.0.1:80"⟩] 60 1 = .error (.indexOutOfRange 2 0) ∧
    buildNXDOMAIN (Slice.make 0 512) (exampleQuery.take 2) exampleQuery =
      .error (.indexOutOfRange 2 0) := by
  refine ⟨rfl, ?_, ?_⟩
  · unfold buildDNSResponse
    rw [header_panics, if_pos (by rw [Slice.make_cap]; omega)]
  · unfold buildNXDOMAIN
    rw [header_panics, if_pos (by rw [Slice.make_cap]; omega)]

end EdgeDispatch.Dns.Response
