import EdgeDispatch.Lib.Digest

/-! # Bloom filters (internal/contentindex/bloom.go)

Words of 64 bits; `k` positions for each key, all from one FNV hash. -/

namespace EdgeDispatch.ContentIndex.Bloom
open Lib.ByteString Lib.Digest

structure BloomFilter where
  bits : List (BitVec 64)
  k : ℕ
  m : ℕ

/- `optimalM` and `optimalK`, which compute with floats: the results as uint32. -/
structure Sizing where
  optimalM : ℕ → ℚ → ℕ
  optimalK : ℕ → ℕ → ℕ

/- At least one word; `m` is the number of bits in all words, as uint32. -/
def newBloomFilter (sz : Sizing) (capacity : ℕ) (fpRate : ℚ) : BloomFilter :=
  let m := sz.optimalM capacity fpRate
  let w := (m + 63) % 2 ^ 32 / 64
  let words := if w = 0 then 1 else w
  ⟨List.replicate words 0, sz.optimalK capacity m, words * 64 % 2 ^ 32⟩

def newBloomFilterFromBytes (data : Bytes) (k : ℕ) : BloomFilter :=
  let w := (data.length + 7) / 8
  let words := if w = 0 then 1 else w
  ⟨(List.range words).map fun i => BitVec.ofNat 64 (leVal ((data.drop (i * 8)).take 8)),
    if k > 100 then 1 else k, words * 64 % 2 ^ 32⟩

def hash (key : Bytes) : ℕ × ℕ :=
  let sum := fnv128aSum key
  (leVal (sum.take 8), leVal (sum.drop 8))

def position (bf : BloomFilter) (key : Bytes) (i : ℕ) : ℕ :=
  let (h1, h2) := hash key
  (h1 + i * h2) % 2 ^ 64 % bf.m

def setBit (bits : List (BitVec 64)) (pos : ℕ) : List (BitVec 64) :=
  bits.modify (pos / 64) fun w => w ||| BitVec.twoPow 64 (pos % 64)

def getBit (bits : List (BitVec 64)) (pos : ℕ) : Bool := (bits.getD (pos / 64) 0).getLsbD (pos % 64)

def add (bf : BloomFilter) (key : Bytes) : BloomFilter :=
  { bf with bits := (List.range bf.k).foldl (fun bits i => setBit bits (position bf key i)) bf.bits }

def contains (bf : BloomFilter) (key : Bytes) : Bool :=
  (List.range bf.k).all fun i => getBit bf.bits (position bf key i)

/- `Contains` with its panics, which are `none`: the modulus may be zero and the index of the
   word out of range. -/
def containsOrPanic (bf : BloomFilter) (key : Bytes) : Option Bool :=
  loop (List.range bf.k)
where
  loop : List ℕ → Option Bool
    | [] => some true
    | i :: rest =>
      if bf.m = 0 then none
      else match bf.bits[position bf key i / 64]? with
        | none => none
        | some w => if w.getLsbD (position bf key i % 64) then loop rest else some false

/- `Bytes`: each word with its lowest byte first. -/
def bytes (bf : BloomFilter) : Bytes := bf.bits.flatMap fun w => leBytes 8 w.toNat

theorem bytes_length (bf : BloomFilter) : (bytes bf).length = 8 * bf.bits.length := by
  rw [bytes]
  induction bf.bits with
  | nil => rfl
  | cons w rest ih =>
    simp only [List.flatMap_cons, List.length_append, leBytes_length, List.length_cons, ih]
    omega

theorem add_length (bf : BloomFilter) (key : Bytes) : (add bf key).bits.length = bf.bits.length := by
  show ((List.range bf.k).foldl _ bf.bits).length = _
  generalize List.range bf.k = is
  generalize bf.bits = bits
  induction is generalizing bits with
  | nil => rfl
  | cons i is ih =>
    rw [List.foldl_cons, ih]
    exact List.length_modify _ _ _

theorem foldl_add_length (keys : List Bytes) (bf : BloomFilter) :
    (keys.foldl add bf).bits.length = bf.bits.length := by
  induction keys generalizing bf with
  | nil => rfl
  | cons key keys ih => rw [List.foldl_cons, ih, add_length]

theorem newBloomFilter_length (sz : Sizing) (capacity : ℕ) (fpRate : ℚ) :
    0 < (newBloomFilter sz capacity fpRate).bits.length := by
  simp only [newBloomFilter, List.length_replicate]
  split
  · exact Nat.one_pos
  · omega

/-! ### No index leaves the words -/

/-- Every position that `Add` and `Contains` compute is one of a bit of the filter. -/
structure InRange (bf : BloomFilter) : Prop where
  modulus : bf.m ≠ 0
  index : ∀ key i, position bf key i / 64 < bf.bits.length

variable {bf : BloomFilter} {bits : List (BitVec 64)} {key : Bytes}

theorem inRange_of_le (hm : bf.m ≠ 0) (hle : bf.m ≤ 64 * bf.bits.length) : InRange bf := by
  refine ⟨hm, fun key i => ?_⟩
  have hlt : position bf key i < bf.m := Nat.mod_lt _ (Nat.pos_of_ne_zero hm)
  omega

theorem InRange.containsOrPanic (h : InRange bf) (key : Bytes) :
    containsOrPanic bf key = some (contains bf key) := by
  show containsOrPanic.loop bf key (List.range bf.k) = some ((List.range bf.k).all _)
  induction List.range bf.k with
  | nil => rfl
  | cons i is ih =>
    obtain ⟨w, hw⟩ : ∃ w, bf.bits[position bf key i / 64]? = some w :=
      ⟨_, List.getElem?_eq_getElem (h.index key i)⟩
    have hget : getBit bf.bits (position bf key i) = w.getLsbD (position bf key i % 64) := by
      rw [getBit, List.getD_eq_getElem?_getD, hw, Option.getD_some]
    rw [containsOrPanic.loop, if_neg h.modulus, hw, List.all_cons, hget, ih]
    cases hbit : w.getLsbD (position bf key i % 64) <;> simp [hbit]

theorem containsOrPanic_zero (hk : 0 < bf.k) (hm : bf.m = 0) (key : Bytes) :
    containsOrPanic bf key = none := by
  obtain ⟨k, hk⟩ := Nat.exists_eq_succ_of_ne_zero (Nat.ne_of_gt hk)
  rw [containsOrPanic, hk, List.range_succ_eq_map, containsOrPanic.loop, if_pos hm]

/-! ### What is added stays -/

theorem getBit_setBit {pos : ℕ} (h : pos / 64 < bits.length) (q : ℕ) :
    getBit (setBit bits pos) q = (getBit bits q || decide (q = pos)) := by
  have hpos := Nat.div_add_mod pos 64
  have hq := Nat.div_add_mod q 64
  have hlt : pos % 64 < 64 := Nat.mod_lt _ (by decide)
  simp only [getBit, setBit, List.getD_eq_getElem?_getD, List.getElem?_modify]
  by_cases hword : pos / 64 = q / 64
  · have hsome := List.getElem?_eq_getElem (hword ▸ h)
    have hbit : pos % 64 = q % 64 ↔ q = pos := by omega
    simp [hword, hsome, BitVec.getLsbD_twoPow, hlt, hbit]
  · have hne : q ≠ pos := fun he => hword (by rw [he])
    simp [hword, hne]

theorem getBit_foldl {ps : List ℕ} (h : ∀ p ∈ ps, p / 64 < bits.length) (q : ℕ) :
    getBit (ps.foldl setBit bits) q = (getBit bits q || decide (q ∈ ps)) := by
  induction ps generalizing bits with
  | nil => simp
  | cons p ps ih =>
    have hlen : (setBit bits p).length = bits.length := List.length_modify _ _ _
    have hrest : ∀ p' ∈ ps, p' / 64 < (setBit bits p).length := fun p' hp' => by
      rw [hlen]
      exact h p' (List.mem_cons_of_mem p hp')
    rw [List.foldl_cons, ih hrest, getBit_setBit (h p List.mem_cons_self)]
    simp [Bool.or_assoc]

theorem InRange.add (h : InRange bf) (key : Bytes) : InRange (add bf key) :=
  ⟨h.modulus, fun key' i => by rw [add_length]; exact h.index key' i⟩

theorem getBit_add (h : InRange bf) (key : Bytes) (q : ℕ) :
    getBit (add bf key).bits q =
      (getBit bf.bits q || decide (q ∈ (List.range bf.k).map (position bf key))) := by
  have hbits : (add bf key).bits = ((List.range bf.k).map (position bf key)).foldl setBit bf.bits := by
    rw [add, List.foldl_map]
  rw [hbits, getBit_foldl]
  intro p hp
  obtain ⟨i, -, rfl⟩ := List.mem_map.mp hp
  exact h.index key i

theorem contains_iff :
    contains bf key = true ↔ ∀ i < bf.k, getBit bf.bits (position bf key i) = true := by
  simp [contains]

/- A filter keeps `k` and `m`, so the positions of a key never move. -/
theorem contains_add_self (h : InRange bf) (key : Bytes) : contains (add bf key) key = true := by
  rw [contains_iff]
  intro i hi
  have hmem : position bf key i ∈ (List.range bf.k).map (position bf key) :=
    List.mem_map_of_mem (List.mem_range.mpr hi)
  show getBit (add bf key).bits (position bf key i) = true
  rw [getBit_add h, decide_eq_true hmem, Bool.or_true]

theorem contains_foldl_add (h : InRange bf) (hkey : contains bf key = true) (more : List Bytes) :
    contains (more.foldl add bf) key = true := by
  induction more generalizing bf with
  | nil => exact hkey
  | cons other more ih =>
    refine ih (h.add other) (contains_iff.mpr fun i hi => ?_)
    show getBit (add bf other).bits (position bf key i) = true
    rw [getBit_add h, contains_iff.mp hkey i hi, Bool.true_or]

theorem contains_of_mem (h : InRange bf) {keys : List Bytes} (hkey : key ∈ keys) :
    contains (keys.foldl add bf) key = true := by
  induction keys generalizing bf with
  | nil => cases hkey
  | cons other keys ih =>
    rcases List.mem_cons.mp hkey with rfl | hkey
    · exact contains_foldl_add (h.add key) (contains_add_self h key) keys
    · exact ih (h.add other) hkey

theorem foldl_add_m (keys : List Bytes) (bf : BloomFilter) : (keys.foldl add bf).m = bf.m := by
  induction keys generalizing bf with
  | nil => rfl
  | cons key keys ih => exact ih (add bf key)

theorem foldl_add_k (keys : List Bytes) (bf : BloomFilter) : (keys.foldl add bf).k = bf.k := by
  induction keys generalizing bf with
  | nil => rfl
  | cons key keys ih => exact ih (add bf key)

/-! ### Filters as bytes -/

/- How many words hold `n` bytes: at least one. -/
def wordsFor (n : ℕ) : ℕ := if (n + 7) / 8 = 0 then 1 else (n + 7) / 8

theorem newBloomFilterFromBytes_length (data : Bytes) (k : ℕ) :
    (newBloomFilterFromBytes data k).bits.length = wordsFor data.length := by
  simp [newBloomFilterFromBytes, wordsFor]

theorem newBloomFilterFromBytes_m (data : Bytes) (k : ℕ) :
    (newBloomFilterFromBytes data k).m = wordsFor data.length * 64 % 2 ^ 32 := rfl

/-- The bytes of consecutive words, the last one filled up with zeros. -/
theorem flatMap_words (words : ℕ) (data : Bytes) (h : data.length ≤ 8 * words) :
    ((List.range words).flatMap fun i =>
        leBytes 8 (BitVec.ofNat 64 (leVal ((data.drop (i * 8)).take 8))).toNat) =
      data ++ List.replicate (8 * words - data.length) 0 := by
  induction words generalizing data with
  | zero =>
    have hnil : data = [] := List.length_eq_zero_iff.mp (Nat.le_zero.mp h)
    rw [hnil]
    rfl
  | succ words ih =>
    have hlen : (data.take 8).length ≤ 8 := List.length_take_le 8 data
    have hval : (BitVec.ofNat 64 (leVal (data.take 8))).toNat = leVal (data.take 8) := by
      have hlt := leVal_lt (data.take 8)
      have hpow : 256 ^ (data.take 8).length ≤ 2 ^ 64 :=
        (Nat.pow_le_pow_right (by decide) hlen).trans_eq (by decide)
      rw [BitVec.toNat_ofNat]
      exact Nat.mod_eq_of_lt (hlt.trans_le hpow)
    have hrest : ∀ i, data.drop ((i + 1) * 8) = (data.drop 8).drop (i * 8) := by
      intro i
      rw [List.drop_drop]
      congr 1
      omega
    have hdrop : (data.drop 8).length ≤ 8 * words := by
      rw [List.length_drop]
      omega
    rw [List.range_succ_eq_map, List.flatMap_cons, List.flatMap_map]
    simp only [Nat.zero_mul, List.drop_zero, hrest]
    rw [hval, leBytes_leVal hlen, ih _ hdrop, List.length_drop, List.length_take]
    rcases Nat.lt_or_ge data.length 8 with hshort | hlong
    · rw [List.take_of_length_le hshort.le, List.drop_of_length_le hshort.le, List.nil_append,
        List.append_assoc, List.replicate_append_replicate]
      congr 2
      omega
    · have hfull : 8 - min 8 data.length = 0 := by omega
      rw [hfull, List.replicate_zero, List.append_nil, ← List.append_assoc, List.take_append_drop]
      congr 2
      omega

/-- A decoded filter has the bytes it was decoded from, filled up to whole words. -/
theorem bytes_newBloomFilterFromBytes (data : Bytes) (k : ℕ) :
    bytes (newBloomFilterFromBytes data k) =
      data ++ List.replicate (8 * wordsFor data.length - data.length) 0 := by
  have hle : data.length ≤ 8 * wordsFor data.length := by
    unfold wordsFor
    split <;> omega
  rw [← flatMap_words _ data hle]
  simp [bytes, newBloomFilterFromBytes, wordsFor, List.flatMap_map]

/- The words of the bytes are the words that were written. -/
theorem words_bytes (bits : List (BitVec 64)) :
    (List.range bits.length).map (fun i => BitVec.ofNat 64
      (leVal (((bits.flatMap fun w => leBytes 8 w.toNat).drop (i * 8)).take 8))) = bits := by
  induction bits with
  | nil => rfl
  | cons w rest ih =>
    have hw : BitVec.ofNat 64 (leVal (leBytes 8 w.toNat)) = w := by
      have hlt : w.toNat % 256 ^ 8 = w.toNat := Nat.mod_eq_of_lt w.isLt
      rw [leVal_leBytes, hlt, BitVec.ofNat_toNat, BitVec.setWidth_eq]
    have htake : ∀ tail : Bytes, (leBytes 8 w.toNat ++ tail).take 8 = leBytes 8 w.toNat := by
      intro tail
      exact List.take_left' (leBytes_length 8 _)
    have hdrop : ∀ (tail : Bytes) (i : ℕ),
        (leBytes 8 w.toNat ++ tail).drop ((i + 1) * 8) = tail.drop (i * 8) := by
      intro tail i
      have hsplit : (i + 1) * 8 = (leBytes 8 w.toNat).length + i * 8 := by
        rw [leBytes_length]
        omega
      rw [hsplit, List.drop_append]
      simp
    rw [List.length_cons, List.range_succ_eq_map, List.map_cons, List.map_map, List.flatMap_cons]
    simp only [Nat.zero_mul, List.drop_zero, htake, hw, Function.comp_def, hdrop, ih]

/- `NewBloomFilterFromBytes(bf.Bytes(), bf.K())`. -/
def reread (bf : BloomFilter) : BloomFilter := newBloomFilterFromBytes (bytes bf) bf.k

/-- `m` counts the bits of the words, and a uint32 holds it. -/
structure Aligned (bf : BloomFilter) : Prop where
  words : 1 ≤ bf.bits.length
  m_eq : bf.m = 64 * bf.bits.length
  m_lt : bf.m < 2 ^ 32

theorem Aligned.inRange (h : Aligned bf) : InRange bf := by
  obtain ⟨hw, hm, -⟩ := h
  exact inRange_of_le (by omega) hm.le

theorem Aligned.foldl_add (h : Aligned bf) (keys : List Bytes) : Aligned (keys.foldl add bf) := by
  obtain ⟨hw, hm, hlt⟩ := h
  constructor
  · rwa [foldl_add_length]
  · rwa [foldl_add_length, foldl_add_m]
  · rwa [foldl_add_m]

theorem Aligned.reread (h : Aligned bf) :
    reread bf = { bf with k := if bf.k > 100 then 1 else bf.k } := by
  obtain ⟨hw, hm, hlt⟩ := h
  have hwords : wordsFor (bytes bf).length = bf.bits.length := by
    rw [bytes_length, wordsFor]
    split <;> omega
  have hbits : (Bloom.reread bf).bits = bf.bits := by
    have hlist : (Bloom.reread bf).bits = (List.range (wordsFor (bytes bf).length)).map fun i =>
      BitVec.ofNat 64 (leVal (((bytes bf).drop (i * 8)).take 8)) := rfl
    rw [hlist, hwords]
    exact words_bytes bf.bits
  have hm' : (Bloom.reread bf).m = bf.m := by
    rw [Bloom.reread, newBloomFilterFromBytes_m, hwords, hm, Nat.mul_comm]
    exact Nat.mod_eq_of_lt (hm ▸ hlt)
  calc Bloom.reread bf
      = ⟨(Bloom.reread bf).bits, (Bloom.reread bf).k, (Bloom.reread bf).m⟩ := rfl
    _ = ⟨bf.bits, if bf.k > 100 then 1 else bf.k, bf.m⟩ := by rw [hbits, hm']; rfl

/- One position is looked up where there were more than a hundred. -/
theorem contains_reread (h : Aligned bf) (hkey : contains bf key = true) :
    contains (reread bf) key = true := by
  rw [h.reread, contains_iff]
  intro i hi
  refine contains_iff.mp hkey i ?_
  simp only at hi
  split at hi <;> omega

theorem inRange_newBloomFilterFromBytes {data : Bytes} (h : data.length ≤ 2 ^ 29 - 8) (k : ℕ) :
    InRange (newBloomFilterFromBytes data k) := by
  have hwords : 1 ≤ wordsFor data.length ∧ wordsFor data.length * 64 < 2 ^ 32 := by
    unfold wordsFor
    split <;> omega
  have hm : (newBloomFilterFromBytes data k).m = wordsFor data.length * 64 := by
    rw [newBloomFilterFromBytes_m]
    exact Nat.mod_eq_of_lt hwords.2
  apply inRange_of_le
  · omega
  · rw [hm, newBloomFilterFromBytes_length]
    omega

/-- No false negatives, over any run of `Add` and over the wire. What is decoded from bytes
has these bytes in whole words, with every bit index in range as long as the number of bits
fits a uint32. -/
theorem bloomFilter_membership_and_codec {bf : BloomFilter} (ha : Aligned bf)
    (keys more : List Bytes) {key : Bytes} (hkey : key ∈ keys) (data : Bytes) (k : ℕ) :
    (InRange bf ∧ containsOrPanic (keys.foldl add bf) key = some true ∧
      containsOrPanic (more.foldl add (keys.foldl add bf)) key = some true ∧
      containsOrPanic (reread (more.foldl add (keys.foldl add bf))) key = some true) ∧
    (bf.k ≤ 100 → reread (keys.foldl add bf) = keys.foldl add bf) ∧
    bytes (newBloomFilterFromBytes data k) =
      data ++ List.replicate (8 * max 1 ((data.length + 7) / 8) - data.length) 0 ∧
    (data.length ≤ 2 ^ 29 - 8 → InRange (newBloomFilterFromBytes data k)) := by
  have hkeys := ha.foldl_add keys
  have hmore := hkeys.foldl_add more
  have hin := contains_of_mem ha.inRange hkey
  have hstay := contains_foldl_add hkeys.inRange hin more
  have hreread : InRange (reread (more.foldl add (keys.foldl add bf))) := by
    rw [hmore.reread]
    exact ⟨hmore.inRange.modulus, hmore.inRange.index⟩
  refine ⟨⟨ha.inRange, ?_, ?_, ?_⟩, fun hk => ?_, ?_,
    fun hdata => inRange_newBloomFilterFromBytes hdata k⟩
  · rw [hkeys.inRange.containsOrPanic, hin]
  · rw [hmore.inRange.containsOrPanic, hstay]
  · rw [hreread.containsOrPanic, contains_reread hmore hstay]
  · rw [hkeys.reread, if_neg (by rw [foldl_add_k]; omega)]
  · have hwords : wordsFor data.length = max 1 ((data.length + 7) / 8) := by
      unfold wordsFor
      split <;> omega
    rw [bytes_newBloomFilterFromBytes, hwords]

/- Two keys in a filter of one word, with a K that is not sent as it is. -/
theorem bloomFilter_membership_and_codec_of_one_word :
    let bf : BloomFilter := ⟨[0], 200, 64⟩
    Aligned bf ∧ containsOrPanic (reread ([[99]].foldl add ([[97], [98]].foldl add bf))) [97] =
        some true ∧
      bytes (newBloomFilterFromBytes [1, 2, 3] 7) = [1, 2, 3, 0, 0, 0, 0, 0] := by
  have ha : Aligned ⟨[0], 200, 64⟩ := ⟨by decide, rfl, by decide⟩
  have h := bloomFilter_membership_and_codec ha [[97], [98]] [[99]] List.mem_cons_self
    [1, 2, 3] 7
  exact ⟨ha, h.1.2.2.2, h.2.2.1⟩

/- One byte short of 2^29 the bits are 2^32 and `m` is zero: the first lookup divides by it. -/
theorem containsOrPanic_of_half_gib :
    ∃ data : Bytes, data.length < 2 ^ 29 ∧ ¬ InRange (newBloomFilterFromBytes data 1) ∧
      ∀ key, containsOrPanic (newBloomFilterFromBytes data 1) key = none := by
  have hm : (newBloomFilterFromBytes (List.replicate (2 ^ 29 - 1) 0) 1).m = 0 := by
    rw [newBloomFilterFromBytes_m, List.length_replicate]
    rfl
  refine ⟨List.replicate (2 ^ 29 - 1) 0, ?_, fun h => h.modulus hm,
    containsOrPanic_zero Nat.one_pos hm⟩
  rw [List.length_replicate]
  omega

end EdgeDispatch.ContentIndex.Bloom
