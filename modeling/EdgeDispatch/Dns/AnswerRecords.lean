import EdgeDispatch.Dns.Response
import EdgeDispatch.Lib.NetAddr

/-! # The records that the answer loop writes (internal/dns/server.go:315-354, 407-416)

The type of a record and its RDLENGTH follow the type of the query, the data follows the
address of the candidate. `ip.To4()` of an IPv6 address is nil, so an A record for it has
no data behind an RDLENGTH of 4. -/

namespace EdgeDispatch.Dns.AnswerRecords
open Lib.ByteString Lib.GoSlice Lib.NetIP
open Lib.NetAddr Lib.GoStrings Dns.Response

/- What is read of an endpoint that `url.Parse` accepts. -/
structure ParsedURL where
  host : Bytes
  hostname : Bytes

def extractIP (parseURL : String → Option ParsedURL) (endpoint : String) : Option Bytes :=
  match parseURL endpoint with
  | none => none
  | some u => if u.host = [] then none else parseIP (if u.hostname = [] then u.host else u.hostname)

/- The addresses that the loop does not pass over. -/
def addresses (parseURL : String → Option ParsedURL) (candidates : List Candidate) : List Bytes :=
  candidates.filterMap fun c => extractIP parseURL c.endpoint

/-! ### What a record should be -/

/-- An A record with an IPv4 address or an AAAA record with an IPv6 address. -/
structure Sound (ttl : ℤ) (r : Record) : Prop where
  rclass : r.rclass = 1
  ttl : (r.ttl : ℤ) = ttl
  address : (r.rtype = 1 ∧ r.rdata.length = 4) ∨
    (r.rtype = 28 ∧ r.rdata.length = 16 ∧ to4 r.rdata = none)

/-- The bytes are records one after the other, as many as were counted. -/
def SoundAnswers (ttl : ℤ) (added : Bytes) (ansCount : UInt16) : Prop :=
  ∃ records, parseRecords added = some records ∧ (∀ r ∈ records, Sound ttl r) ∧
    ansCount.toNat = records.length

/-! ### What the loop appends -/

def recordType (qtype : UInt16) : UInt16 := if qtype = 28 then 28 else 1

/- Everything before the data. -/
def answerHead (ttl : ℤ) (qtype : UInt16) : Bytes :=
  namePointer ++ [(recordType qtype >>> 8).toUInt8, (recordType qtype).toUInt8] ++ [0x00, 0x01] ++
    [byteAt ttl 24, byteAt ttl 16, byteAt ttl 8, byteAt ttl 0] ++
    if recordType qtype = 1 then [0x00, 0x04] else [0x00, 0x10]

def answerData (qtype : UInt16) (ip : Bytes) : Bytes :=
  if recordType qtype = 1 then (to4 ip).getD [] else (to16 ip).getD []

def answerBytes (ttl : ℤ) (qtype : UInt16) (ip : Bytes) : Bytes :=
  answerHead ttl qtype ++ answerData qtype ip

theorem answer_toList (slack : ℕ → ℕ) (buf : Slice Byte) (ttl : ℤ) (qtype : UInt16) (ip : Bytes) :
    (answer slack buf ttl qtype ip).toList = buf.toList ++ answerBytes ttl qtype ip := by
  unfold answer answerBytes answerHead answerData put
  rw [show (if qtype = 28 then 28 else 1 : UInt16) = recordType qtype from rfl]
  by_cases htype : recordType qtype = 1
  · simp only [if_pos htype, Slice.append_toList, namePointer, List.append_assoc]
  · simp only [if_neg htype, Slice.append_toList, namePointer, List.append_assoc]

theorem answers_toList (slack : ℕ → ℕ) (parseURL : String → Option ParsedURL) (ttl : ℤ)
    (qtype : UInt16) (candidates : List Candidate) (buf : Slice Byte) (ansCount : UInt16) :
    (answers slack (extractIP parseURL) ttl qtype candidates (buf, ansCount)).1.toList =
        buf.toList ++ (addresses parseURL candidates).flatMap (answerBytes ttl qtype) ∧
      (answers slack (extractIP parseURL) ttl qtype candidates (buf, ansCount)).2 =
        ansCount + UInt16.ofNat (addresses parseURL candidates).length := by
  induction candidates generalizing buf ansCount with
  | nil => simp [answers, addresses]
  | cons c candidates ih =>
    cases hip : extractIP parseURL c.endpoint with
    | none =>
      have hskip : addresses parseURL (c :: candidates) = addresses parseURL candidates := by
        simp [addresses, hip]
      simp only [answers, hip, hskip]
      exact ih buf ansCount
    | some ip =>
      have hadd : addresses parseURL (c :: candidates) = ip :: addresses parseURL candidates := by
        simp [addresses, hip]
      obtain ⟨hbytes, hcount⟩ := ih (answer slack buf ttl qtype ip) (ansCount + 1)
      simp only [answers, hip, hadd, hbytes, hcount, answer_toList, List.flatMap_cons,
        List.append_assoc, List.length_cons, UInt16.ofNat_add, true_and]
      rw [UInt16.add_assoc, UInt16.add_comm 1]
      rfl

variable {ip : Bytes} {qtype : UInt16} {ttl : ℤ}

theorem length_of_mem_addresses {parseURL : String → Option ParsedURL} {candidates : List Candidate}
    (h : ip ∈ addresses parseURL candidates) : ip.length = 16 := by
  obtain ⟨c, -, hip⟩ := List.mem_filterMap.mp h
  unfold extractIP at hip
  split at hip
  · cases hip
  · split at hip
    · cases hip
    · exact parseIP_length hip

/-! ### Records that are read back -/

def encode (r : Record) : Bytes :=
  namePointer ++ beBytes 2 r.rtype ++ beBytes 2 r.rclass ++ beBytes 4 r.ttl ++
    beBytes 2 r.rdata.length ++ r.rdata

/-- Every field fits in the bytes that it has. -/
structure Fits (r : Record) : Prop where
  rtype : r.rtype < 2 ^ 16
  rclass : r.rclass < 2 ^ 16
  ttl : r.ttl < 2 ^ 32
  rdata : r.rdata.length < 2 ^ 16

theorem beBytes_two (n : ℕ) : beBytes 2 n = [UInt8.ofNat (n / 256), UInt8.ofNat n] := rfl

theorem beBytes_four (n : ℕ) : beBytes 4 n =
    [UInt8.ofNat (n / 256 / 256 / 256), UInt8.ofNat (n / 256 / 256), UInt8.ofNat (n / 256),
      UInt8.ofNat n] := rfl

theorem parseRecord_encode {r : Record} (h : Fits r) (rest : Bytes) :
    parseRecord (encode r ++ rest) = some (r, rest) := by
  obtain ⟨rtype, rclass, ttl, rdata⟩ := r
  have hword : ∀ {n : ℕ}, n < 2 ^ 16 → beVal [UInt8.ofNat (n / 256), UInt8.ofNat n] = n :=
    fun hn => (beVal_beBytes 2 _).trans (Nat.mod_eq_of_lt hn)
  have httl : beVal [UInt8.ofNat (ttl / 256 / 256 / 256), UInt8.ofNat (ttl / 256 / 256),
      UInt8.ofNat (ttl / 256), UInt8.ofNat ttl] = ttl :=
    (beVal_beBytes 4 _).trans (Nat.mod_eq_of_lt h.ttl)
  unfold parseRecord encode
  simp only [namePointer, beBytes_two, beBytes_four, List.cons_append, List.nil_append,
    List.take_succ_cons, List.take_zero, List.drop_succ_cons, List.drop_zero, hword h.rtype,
    hword h.rclass, hword h.rdata, httl, List.length_cons, List.length_append, true_and]
  rw [if_pos (by omega), List.take_left, Nat.add_comm 12]
  simp only [List.drop_succ_cons, List.drop_left]

theorem encode_cons (r : Record) : ∃ tail, encode r = 0xC0 :: tail := ⟨_, rfl⟩

theorem parseRecordsWith_encode {records : List Record} (h : ∀ r ∈ records, Fits r) (rest : Bytes)
    (fuel : ℕ) :
    parseRecordsWith (records.length + fuel) (records.flatMap encode ++ rest) =
      (parseRecordsWith fuel rest).map (records ++ ·) := by
  induction records with
  | nil => simp
  | cons r records ih =>
    obtain ⟨tail, htail⟩ := encode_cons r
    have hhead := parseRecord_encode (h r List.mem_cons_self) (records.flatMap encode ++ rest)
    have hrest := ih fun r' hr' => h r' (List.mem_cons_of_mem r hr')
    rw [List.flatMap_cons, List.append_assoc]
    rw [htail, List.cons_append] at hhead ⊢
    rw [List.length_cons, Nat.add_right_comm, parseRecordsWith, hhead]
    simp only [Option.bind_some, hrest, Option.map_map]
    rfl

theorem length_le_encode (records : List Record) :
    records.length ≤ (records.flatMap encode).length := by
  induction records with
  | nil => exact Nat.zero_le _
  | cons r records ih =>
    obtain ⟨tail, htail⟩ := encode_cons r
    simp only [List.flatMap_cons, htail, List.length_append, List.length_cons]
    omega

theorem parseRecords_encode {records : List Record} (h : ∀ r ∈ records, Fits r) :
    parseRecords (records.flatMap encode) = some records := by
  obtain ⟨fuel, hfuel⟩ := Nat.exists_eq_add_of_le (length_le_encode records)
  have hparse := parseRecordsWith_encode h [] fuel
  have hdone : parseRecordsWith fuel [] = some [] := by
    unfold parseRecordsWith
    rfl
  rw [List.append_nil, hdone] at hparse
  rw [parseRecords, hfuel, hparse, Option.map_some, List.append_nil]

/-! ### What an answer is read as -/

/- The record for an address, if the data is as long as it should be. -/
def answerRecord (ttl : ℤ) (qtype : UInt16) (ip : Bytes) : Record :=
  ⟨(recordType qtype).toNat, 1, ttl.toNat, answerData qtype ip⟩

/-- The family of the address is the one that the query asks for. -/
def Wanted (qtype : UInt16) (ip : Bytes) : Prop := (to4 ip).isSome ↔ qtype ≠ 28

theorem recordType_aaaa : recordType 28 = 28 := rfl

theorem recordType_a (h : qtype ≠ 28) : recordType qtype = 1 := if_neg h

theorem answerData_aaaa (hlen : ip.length = 16) : answerData 28 ip = ip := by
  rw [answerData, recordType_aaaa, if_neg (by decide), to16_of_length hlen]
  rfl

theorem answerData_a (h : qtype ≠ 28) (ip : Bytes) : answerData qtype ip = (to4 ip).getD [] := by
  rw [answerData, recordType_a h, if_pos rfl]

theorem ttl_bytes (h : 0 ≤ ttl) :
    [byteAt ttl 24, byteAt ttl 16, byteAt ttl 8, byteAt ttl 0] = beBytes 4 ttl.toNat := by
  obtain ⟨n, rfl⟩ := Int.eq_ofNat_of_zero_le h
  have hbyte : ∀ k : ℕ, byteAt n k = UInt8.ofNat (n / 2 ^ k) := by
    intro k
    have hdiv : ((n : ℤ) / 2 ^ k % 256).toNat = n / 2 ^ k % 256 := by
      have hcast : (n : ℤ) / 2 ^ k % 256 = (n / 2 ^ k % 256 : ℕ) := by push_cast; rfl
      rw [hcast, Int.toNat_natCast]
    rw [byteAt, hdiv]
    apply UInt8.toNat_inj.mp
    simp
  simp only [hbyte, beBytes_four, Int.toNat_natCast, Nat.div_div_eq_div_mul, Nat.reducePow,
    Nat.reduceMul, Nat.div_one]

theorem answerBytes_eq_encode (httl : 0 ≤ ttl) (hlen : ip.length = 16)
    (h : qtype = 28 ∨ (to4 ip).isSome) :
    answerBytes ttl qtype ip = encode (answerRecord ttl qtype ip) := by
  unfold answerBytes answerHead answerRecord encode
  rw [ttl_bytes httl]
  by_cases hqtype : qtype = 28
  · subst hqtype
    have hdata : (answerData 28 ip).length = 16 := by rw [answerData_aaaa hlen, hlen]
    have htype : [((28 : UInt16) >>> 8).toUInt8, (28 : UInt16).toUInt8] = beBytes 2 28 := by decide
    rw [hdata, recordType_aaaa, htype, if_neg (by decide)]
    simp only [List.append_assoc]
    rfl
  · obtain ⟨v4, hv4⟩ := Option.isSome_iff_exists.mp (h.resolve_left hqtype)
    have hdata : (answerData qtype ip).length = 4 := by
      rw [answerData_a hqtype, hv4]
      exact to4_length hv4
    have htype : [((1 : UInt16) >>> 8).toUInt8, (1 : UInt16).toUInt8] = beBytes 2 1 := by decide
    rw [hdata, recordType_a hqtype, htype, if_pos rfl]
    simp only [List.append_assoc]
    rfl

theorem answerRecord_fits (httl : ttl < 2 ^ 31) (qtype : UInt16) (hlen : ip.length = 16) :
    Fits (answerRecord ttl qtype ip) := by
  refine ⟨(recordType qtype).toNat_lt, show 1 < 2 ^ 16 by decide, ?_, ?_⟩
  · show ttl.toNat < 2 ^ 32
    omega
  · show (answerData qtype ip).length < 2 ^ 16
    unfold answerData
    rw [to16_of_length hlen]
    split
    · cases hv4 : to4 ip with
      | none => decide
      | some v4 =>
        rw [Option.getD_some, to4_length hv4]
        decide
    · rw [Option.getD_some, hlen]
      decide

theorem answerRecord_sound_iff (httl : 0 ≤ ttl) (hlen : ip.length = 16)
    (h : qtype = 28 ∨ (to4 ip).isSome) :
    Sound ttl (answerRecord ttl qtype ip) ↔ Wanted qtype ip := by
  have httl' : (((answerRecord ttl qtype ip).ttl : ℕ) : ℤ) = ttl := Int.toNat_of_nonneg httl
  have hsound : Sound ttl (answerRecord ttl qtype ip) ↔
      ((answerRecord ttl qtype ip).rtype = 1 ∧ (answerRecord ttl qtype ip).rdata.length = 4) ∨
        ((answerRecord ttl qtype ip).rtype = 28 ∧ (answerRecord ttl qtype ip).rdata.length = 16 ∧
          to4 (answerRecord ttl qtype ip).rdata = none) :=
    ⟨fun hs => hs.address, fun ha => ⟨rfl, httl', ha⟩⟩
  rw [hsound, Wanted]
  by_cases hqtype : qtype = 28
  · subst hqtype
    simp [answerRecord, answerData_aaaa hlen, recordType_aaaa, hlen]
  · obtain ⟨v4, hv4⟩ := Option.isSome_iff_exists.mp (h.resolve_left hqtype)
    simp [answerRecord, answerData_a hqtype, recordType_a hqtype, to4_length hv4, hv4, hqtype]

/-! ### An A record without data -/

theorem answerHead_a (ttl : ℤ) (h : qtype ≠ 28) :
    answerHead ttl qtype = [0xC0, 0x0C, 0, 1, 0, 1, byteAt ttl 24, byteAt ttl 16, byteAt ttl 8,
      byteAt ttl 0, 0, 4] := by
  unfold answerHead
  rw [recordType_a h]
  rfl

theorem parseRecordsWith_no_pointer (fuel : ℕ) (bs : Bytes) :
    parseRecordsWith fuel (0 :: bs) = none := by
  cases fuel with
  | zero => rfl
  | succ fuel =>
    have hnone : parseRecord (0 :: bs) = none := by
      refine if_neg fun hrecord => ?_
      exact absurd (List.cons.inj hrecord.1).1 (by decide)
    rw [parseRecordsWith, hnone]
    rfl

/- The four bytes that are missing are taken from the next record, or are not there. -/
theorem parseRecordsWith_no_data (fuel : ℕ) (ttl : ℤ) (hqtype : qtype ≠ 28) (ips : List Bytes) :
    parseRecordsWith fuel (answerHead ttl qtype ++ ips.flatMap (answerBytes ttl qtype)) = none := by
  rw [answerHead_a ttl hqtype]
  cases fuel with
  | zero => rfl
  | succ fuel =>
    have hlength : beVal [0, 4] = 4 := by decide
    cases ips with
    | nil => rfl
    | cons ip ips =>
      simp only [List.flatMap_cons, answerBytes, answerHead_a ttl hqtype, List.cons_append,
        List.nil_append, parseRecordsWith, parseRecord, List.drop_succ_cons, List.drop_zero,
        List.take_succ_cons, List.take_zero, hlength, namePointer, List.length_cons, Nat.reduceAdd,
        true_and]
      rw [if_pos (by omega)]
      simp only [Option.bind_some, parseRecordsWith_no_pointer, Option.map_none]

theorem parseRecordsWith_unwanted (httl : 0 ≤ ttl ∧ ttl < 2 ^ 31) (hqtype : qtype ≠ 28)
    {ips : List Bytes} (hlen : ∀ ip ∈ ips, ip.length = 16) (h : ∃ ip ∈ ips, to4 ip = none)
    (fuel : ℕ) : parseRecordsWith fuel (ips.flatMap (answerBytes ttl qtype)) = none := by
  induction ips generalizing fuel with
  | nil => simp at h
  | cons ip ips ih =>
    rw [List.flatMap_cons]
    have hip := hlen ip List.mem_cons_self
    cases hv4 : to4 ip with
    | none =>
      have hbytes : answerBytes ttl qtype ip = answerHead ttl qtype := by
        rw [answerBytes, answerData_a hqtype, hv4]
        exact List.append_nil _
      rw [hbytes]
      exact parseRecordsWith_no_data fuel ttl hqtype ips
    | some v4 =>
      obtain ⟨bad, hbad, hnone⟩ := h
      have hrest : ∃ ip ∈ ips, to4 ip = none := by
        rcases List.mem_cons.mp hbad with rfl | hbad
        · rw [hv4] at hnone
          cases hnone
        · exact ⟨bad, hbad, hnone⟩
      have hencode : answerBytes ttl qtype ip = encode (answerRecord ttl qtype ip) :=
        answerBytes_eq_encode httl.1 hip (Or.inr (by rw [hv4]; rfl))
      have hhead := parseRecord_encode (answerRecord_fits httl.2 qtype hip)
        (ips.flatMap (answerBytes ttl qtype))
      obtain ⟨tail, htail⟩ := encode_cons (answerRecord ttl qtype ip)
      rw [hencode]
      rw [htail, List.cons_append] at hhead ⊢
      cases fuel with
      | zero => rfl
      | succ fuel =>
        rw [parseRecordsWith, hhead]
        simp only [Option.bind_some,
          ih (fun ip' hip' => hlen ip' (List.mem_cons_of_mem ip hip')) hrest fuel, Option.map_none]

/-! ### All answers -/

theorem ofNat_count (n : ℕ) : ((0 : UInt16) + UInt16.ofNat n).toNat = n ↔ n < 2 ^ 16 := by
  rw [UInt16.zero_add, UInt16.toNat_ofNat']
  omega

theorem soundAnswers_iff (httl : 0 ≤ ttl ∧ ttl < 2 ^ 31) (qtype : UInt16) {ips : List Bytes}
    (hlen : ∀ ip ∈ ips, ip.length = 16) :
    SoundAnswers ttl (ips.flatMap (answerBytes ttl qtype)) (0 + UInt16.ofNat ips.length) ↔
      (∀ ip ∈ ips, Wanted qtype ip) ∧ ips.length < 2 ^ 16 := by
  by_cases hdata : ∀ ip ∈ ips, qtype = 28 ∨ (to4 ip).isSome
  · -- every answer is a record, whatever its address
    have hbytes : ips.flatMap (answerBytes ttl qtype) =
        (ips.map (answerRecord ttl qtype)).flatMap encode := by
      rw [List.flatMap_map]
      exact List.flatMap_congr fun ip hip => answerBytes_eq_encode httl.1 (hlen ip hip) (hdata ip hip)
    have hparse : parseRecords (ips.flatMap (answerBytes ttl qtype)) =
        some (ips.map (answerRecord ttl qtype)) := by
      rw [hbytes]
      refine parseRecords_encode fun r hr => ?_
      obtain ⟨ip, hip, rfl⟩ := List.mem_map.mp hr
      exact answerRecord_fits httl.2 qtype (hlen ip hip)
    have hsound : (∀ r ∈ ips.map (answerRecord ttl qtype), Sound ttl r) ↔
        ∀ ip ∈ ips, Wanted qtype ip := by
      rw [List.forall_mem_map]
      exact forall₂_congr fun ip hip => answerRecord_sound_iff httl.1 (hlen ip hip) (hdata ip hip)
    rw [SoundAnswers, hparse, ← hsound, ← ofNat_count]
    simp
  · simp only [not_forall, not_or, Option.not_isSome_iff_eq_none] at hdata
    obtain ⟨ip, hip, hqtype, hnone⟩ := hdata
    refine iff_of_false ?_ ?_
    · rintro ⟨records, hparse, -⟩
      rw [parseRecords, parseRecordsWith_unwanted httl hqtype hlen ⟨ip, hip, hnone⟩] at hparse
      cases hparse
    · rintro ⟨hwanted, -⟩
      have hv4 := (hwanted ip hip).mpr hqtype
      rw [hnone] at hv4
      cases hv4

/-- The bytes that the loop appends are sound answers just if each candidate's address is of
the family that is asked for, and there are not too many to count. -/
theorem answer_records_sound_iff (slack : ℕ → ℕ) (parseURL : String → Option ParsedURL)
    (buf : Slice Byte) (candidates : List Candidate) (ttl : ℤ) (httl : 0 ≤ ttl ∧ ttl < 2 ^ 31)
    (qtype : UInt16) :
    ∃ added,
      (answers slack (extractIP parseURL) ttl qtype candidates (buf, 0)).1.toList =
        buf.toList ++ added ∧
      (SoundAnswers ttl added (answers slack (extractIP parseURL) ttl qtype candidates (buf, 0)).2 ↔
        (∀ ip ∈ addresses parseURL candidates, Wanted qtype ip) ∧
          (addresses parseURL candidates).length < 2 ^ 16) := by
  obtain ⟨hbytes, hcount⟩ := answers_toList slack parseURL ttl qtype candidates buf 0
  refine ⟨_, hbytes, ?_⟩
  rw [hcount]
  exact soundAnswers_iff httl qtype fun ip hip => length_of_mem_addresses hip

/- Three endpoints: an IPv4 host, an IPv6 host and a host name. -/
def edgeURL : String → Option ParsedURL
  | "http://10.0.0.1:80" => some ⟨lit "10.0.0.1:80", lit "10.0.0.1"⟩
  | "http://[2001:db8::1]:80" => some ⟨lit "[2001:db8::1]:80", lit "2001:db8::1"⟩
  | "http://edge:80" => some ⟨lit "edge:80", lit "edge"⟩
  | _ => none

theorem addresses_ipv4 : addresses edgeURL [⟨"http://10.0.0.1:80"⟩, ⟨"http://edge:80"⟩] =
    [v4InV6Prefix ++ [10, 0, 0, 1]] := by
  decide +kernel

theorem answer_records_sound_of_ipv4 :
    ∃ added, (answers id (extractIP edgeURL) 60 1 [⟨"http://10.0.0.1:80"⟩, ⟨"http://edge:80"⟩]
        (Slice.make 0 0, 0)).1.toList = (Slice.make 0 0).toList ++ added ∧
      SoundAnswers 60 added (answers id (extractIP edgeURL) 60 1
        [⟨"http://10.0.0.1:80"⟩, ⟨"http://edge:80"⟩] (Slice.make 0 0, 0)).2 := by
  obtain ⟨added, hadded, hiff⟩ := answer_records_sound_iff id edgeURL (Slice.make 0 0)
    [⟨"http://10.0.0.1:80"⟩, ⟨"http://edge:80"⟩] 60 (by decide) 1
  refine ⟨added, hadded, hiff.mpr ?_⟩
  rw [addresses_ipv4]
  refine ⟨fun ip hip => ?_, by decide⟩
  rw [List.mem_singleton.mp hip, Wanted]
  decide

/- An A query for an IPv6 host: RDLENGTH 4 and no data. And an AAAA query for an IPv4 host:
   the IPv4 address, embedded. -/
theorem family_mismatch_unsound :
    (answers id (extractIP edgeURL) 60 1 [⟨"http://[2001:db8::1]:80"⟩] (Slice.make 0 0, 0)).1.toList =
        [0xC0, 0x0C, 0, 1, 0, 1, 0, 0, 0, 60, 0, 4] ∧
      parseRecords [0xC0, 0x0C, 0, 1, 0, 1, 0, 0, 0, 60, 0, 4] = none ∧
      (answers id (extractIP edgeURL) 60 28 [⟨"http://10.0.0.1:80"⟩] (Slice.make 0 0, 0)).1.toList =
        [0xC0, 0x0C, 0, 28, 0, 1, 0, 0, 0, 60, 0, 16] ++ (v4InV6Prefix ++ [10, 0, 0, 1]) ∧
      to4 (v4InV6Prefix ++ [10, 0, 0, 1]) = some [10, 0, 0, 1] := by
  decide +kernel

end EdgeDispatch.Dns.AnswerRecords
