import EdgeDispatch.Lib.ByteString

/-! # Compressed streams, and gzip data made of stored blocks

What a reader of compressed data gives, whatever the format inside; and gzip data whose
blocks are all stored, which every gzip reader accepts. -/

namespace EdgeDispatch.Lib.Gzip
open Lib.ByteString

/-- The bytes that a reader gives and how it ends: with EOF, or if `bad` with an error. The
error may come with the last bytes (`early`) or in a Read of its own. -/
structure Stream where
  out : Bytes
  bad : Bool
  early : Bool
  deriving DecidableEq

/-- `io.ReadAll(io.LimitReader(r, limit))`. Once the limit is reached the reader is not asked
for more. -/
def Stream.readAllLimited (s : Stream) (limit : ℕ) : Option Bytes :=
  if limit < s.out.length then some (s.out.take limit)
  else if s.bad ∧ (s.out.length < limit ∨ s.early) then none
  else some s.out

theorem Stream.readAllLimited_of_lt {s : Stream} {limit : ℕ} (h : limit < s.out.length) :
    s.readAllLimited limit = some (s.out.take limit) := if_pos h

theorem Stream.readAllLimited_of_le {s : Stream} {limit : ℕ} (h : s.out.length ≤ limit)
    (hbad : s.bad = false) : s.readAllLimited limit = some s.out := by
  simp [readAllLimited, Nat.not_lt.mpr h, hbad]

/-! ### The checksum (CRC-32, bits in reverse) -/

def crcBit (c : UInt32) : UInt32 := if c &&& 1 = 1 then (c >>> 1) ^^^ 0xEDB88320 else c >>> 1

def crcByte (c : UInt32) (b : Byte) : UInt32 := Nat.iterate crcBit 8 (c ^^^ b.toUInt32)

def crc32 (bs : Bytes) : UInt32 := bs.foldl crcByte 0xFFFFFFFF ^^^ 0xFFFFFFFF

/- The check value of the nine digits. -/
example : crc32 [49, 50, 51, 52, 53, 54, 55, 56, 57] = 0xCBF43926 := by decide +kernel

/-! ### Stored blocks -/

/- Deflate, no flags, no time, no system. -/
def header : Bytes := [0x1f, 0x8b, 8, 0, 0, 0, 0, 0, 0, 255]

def maxStored : ℕ := 65535

def block (last : Bool) (data : Bytes) : Bytes :=
  (if last then 1 else 0) :: leBytes 2 data.length ++ leBytes 2 (maxStored - data.length) ++ data

/- `n` full blocks and a last one. -/
def blocks : ℕ → Bytes → Bytes
  | 0, raw => block true raw
  | n + 1, raw => block false (raw.take maxStored) ++ blocks n (raw.drop maxStored)

def trailer (raw : Bytes) : Bytes := leBytes 4 (crc32 raw).toNat ++ leBytes 4 raw.length

def compress (raw : Bytes) : Bytes := header ++ (blocks (raw.length / maxStored) raw ++ trailer raw)

/- The output, and what follows the last block; `none` if no block ends the data. `n` bounds
the number of blocks. -/
def readBlocks : ℕ → Bytes → Bytes × Option Bytes
  | n + 1, flag :: l0 :: l1 :: m0 :: m1 :: rest =>
    let len := leVal [l0, l1]
    if flag ≤ 1 ∧ leVal [m0, m1] = maxStored - len ∧ len ≤ rest.length then
      if flag = 1 then (rest.take len, some (rest.drop len))
      else
        let tail := readBlocks n (rest.drop len)
        (rest.take len ++ tail.1, tail.2)
    else ([], none)
  | _, _ => ([], none)

/-- Reads one member with this header and stored blocks. -/
def expand (data : Bytes) : Option Stream :=
  if data.take 10 = header then
    let r := readBlocks data.length (data.drop 10)
    some ⟨r.1, decide (r.2 ≠ some (trailer r.1)), true⟩
  else none

theorem leBytes_two (n : ℕ) : ∃ a b, leBytes 2 n = [a, b] := by
  have hlen : (leBytes 2 n).length = 2 := leBytes_length 2 n
  exact List.length_eq_two.mp hlen

/-- One block is read back, and the reading goes on behind it. -/
theorem readBlocks_block (n : ℕ) (last : Bool) {data : Bytes} (hdata : data.length ≤ maxStored)
    (rest : Bytes) :
    readBlocks (n + 1) (block last data ++ rest) =
      if last then (data, some rest)
      else (data ++ (readBlocks n rest).1, (readBlocks n rest).2) := by
  obtain ⟨a, b, hab⟩ := leBytes_two data.length
  obtain ⟨c, d, hcd⟩ := leBytes_two (maxStored - data.length)
  have hsmall : maxStored < 256 ^ 2 := by decide
  have hlen : leVal [a, b] = data.length := by
    rw [← hab, leVal_leBytes, Nat.mod_eq_of_lt (by omega)]
  have hneg : leVal [c, d] = maxStored - data.length := by
    rw [← hcd, leVal_leBytes, Nat.mod_eq_of_lt (by omega)]
  have hform : block last data ++ rest =
      (if last then 1 else 0) :: a :: b :: c :: d :: (data ++ rest) := by
    simp [block, hab, hcd]
  rw [hform]
  cases last <;> simp [readBlocks, hlen, hneg]

theorem readBlocks_blocks (n : ℕ) {raw : Bytes} (hraw : raw.length < maxStored * (n + 1))
    (rest : Bytes) {fuel : ℕ} (hfuel : n < fuel) :
    readBlocks fuel (blocks n raw ++ rest) = (raw, some rest) := by
  induction n generalizing raw fuel with
  | zero =>
    obtain ⟨k, rfl⟩ := Nat.exists_eq_succ_of_ne_zero (Nat.ne_of_gt hfuel)
    rw [blocks, readBlocks_block k true (by omega)]
    rfl
  | succ n ih =>
    obtain ⟨k, rfl⟩ := Nat.exists_eq_succ_of_ne_zero (Nat.ne_of_gt (Nat.zero_lt_of_lt hfuel))
    have hdrop : (raw.drop maxStored).length < maxStored * (n + 1) := by
      rw [List.length_drop]
      have hsucc := Nat.mul_add_one maxStored (n + 1)
      have hpos : 0 < maxStored * (n + 1) := Nat.mul_pos (by decide) (Nat.succ_pos n)
      omega
    rw [blocks, List.append_assoc, readBlocks_block k false (List.length_take_le ..),
      ih hdrop (by omega)]
    simp

theorem lt_blocks_length (n : ℕ) (raw : Bytes) : n < (blocks n raw).length := by
  induction n generalizing raw with
  | zero => simp [blocks, block]
  | succ n ih =>
    have hrest := ih (raw.drop maxStored)
    simp only [blocks, block, List.length_append, List.length_cons]
    omega

/-- What was written is read back, and the stream ends well. -/
theorem expand_compress (raw : Bytes) : expand (compress raw) = some ⟨raw, false, true⟩ := by
  have hheader : (compress raw).take 10 = header := rfl
  have hrest : (compress raw).drop 10 = blocks (raw.length / maxStored) raw ++ trailer raw := rfl
  have hraw : raw.length < maxStored * (raw.length / maxStored + 1) :=
    Nat.lt_mul_div_succ raw.length (by decide)
  have hfuel : raw.length / maxStored < (compress raw).length := by
    have hblocks := lt_blocks_length (raw.length / maxStored) raw
    simp only [compress, List.length_append]
    omega
  simp [expand, hheader, hrest, readBlocks_blocks _ hraw (trailer raw) hfuel]

theorem compress_magic (raw : Bytes) : ∃ rest, compress raw = 0x1f :: 0x8b :: rest := ⟨_, rfl⟩

end EdgeDispatch.Lib.Gzip
