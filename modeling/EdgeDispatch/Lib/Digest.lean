import EdgeDispatch.Lib.ByteString

/-! # Digests: MD5 and FNV-1a with 128 bits

Both as they are specified, on byte lists; what a program prints of a digest is its
lower-case hexadecimal digits. -/

namespace EdgeDispatch.Lib.Digest
open Lib.ByteString

def hexDigit (n : ℕ) : Byte := UInt8.ofNat (if n < 10 then 48 + n else 87 + n)
def hex (bs : Bytes) : Bytes := bs.flatMap fun b => [hexDigit (b.toNat / 16), hexDigit (b.toNat % 16)]

def hexVal (b : Byte) : Option ℕ :=
  let n := b.toNat
  if 48 ≤ n ∧ n ≤ 57 then some (n - 48)
  else if 97 ≤ n ∧ n ≤ 102 then some (n - 87)
  else if 65 ≤ n ∧ n ≤ 70 then some (n - 55)
  else none

/- Both cases of letters are read; an odd digit at the end is an error. -/
def decodeHex : Bytes → Option Bytes
  | [] => some []
  | [_] => none
  | a :: b :: rest => do
    let high ← hexVal a
    let low ← hexVal b
    let tail ← decodeHex rest
    return UInt8.ofNat (16 * high + low) :: tail

/-! ### MD5 -/

/- `⌊2 ^ 32 * |sin (i + 1)|⌋` for the 64 rounds. -/
def md5Consts : List UInt32 :=
  [0xd76aa478, 0xe8c7b756, 0x242070db, 0xc1bdceee, 0xf57c0faf, 0x4787c62a,
   0xa8304613, 0xfd469501, 0x698098d8, 0x8b44f7af, 0xffff5bb1, 0x895cd7be,
   0x6b901122, 0xfd987193, 0xa679438e, 0x49b40821, 0xf61e2562, 0xc040b340,
   0x265e5a51, 0xe9b6c7aa, 0xd62f105d, 0x02441453, 0xd8a1e681, 0xe7d3fbc8,
   0x21e1cde6, 0xc33707d6, 0xf4d50d87, 0x455a14ed, 0xa9e3e905, 0xfcefa3f8,
   0x676f02d9, 0x8d2a4c8a, 0xfffa3942, 0x8771f681, 0x6d9d6122, 0xfde5380c,
   0xa4beea44, 0x4bdecfa9, 0xf6bb4b60, 0xbebfbc70, 0x289b7ec6, 0xeaa127fa,
   0xd4ef3085, 0x04881d05, 0xd9d4d039, 0xe6db99e5, 0x1fa27cf8, 0xc4ac5665,
   0xf4292244, 0x432aff97, 0xab9423a7, 0xfc93a039, 0x655b59c3, 0x8f0ccc92,
   0xffeff47d, 0x85845dd1, 0x6fa87e4f, 0xfe2ce6e0, 0xa3014314, 0x4e0811a1,
   0xf7537e82, 0xbd3af235, 0x2ad7d2bb, 0xeb86d391]

def md5Shifts : List UInt32 := [7, 12, 17, 22, 5, 9, 14, 20, 4, 11, 16, 23, 6, 10, 15, 21]

structure Md5State where
  a : UInt32
  b : UInt32
  c : UInt32
  d : UInt32

def rotateLeft (x s : UInt32) : UInt32 := (x <<< s) ||| (x >>> (32 - s))

/- Round `i` with the sixteen words of a block. -/
def md5Round (words : List UInt32) (s : Md5State) (i : ℕ) : Md5State :=
  let (f, g) :=
    if i < 16 then ((s.b &&& s.c) ||| (~~~s.b &&& s.d), i)
    else if i < 32 then ((s.d &&& s.b) ||| (~~~s.d &&& s.c), (5 * i + 1) % 16)
    else if i < 48 then (s.b ^^^ s.c ^^^ s.d, (3 * i + 5) % 16)
    else (s.c ^^^ (s.b ||| ~~~s.d), (7 * i) % 16)
  let x := f + s.a + md5Consts.getD i 0 + words.getD g 0
  ⟨s.d, s.b + rotateLeft x (md5Shifts.getD (4 * (i / 16) + i % 4) 0), s.b, s.c⟩

def md5Words (block : Bytes) : List UInt32 :=
  (List.range 16).map fun i => UInt32.ofNat (leVal ((block.drop (4 * i)).take 4))

def md5Block (s : Md5State) (block : Bytes) : Md5State :=
  let t := (List.range 64).foldl (md5Round (md5Words block)) s
  ⟨s.a + t.a, s.b + t.b, s.c + t.c, s.d + t.d⟩

/- A bit, zeros and the length in bits, up to a whole number of blocks. -/
def md5Pad (m : Bytes) : Bytes :=
  m ++ 0x80 :: List.replicate ((119 - m.length % 64) % 64) 0 ++ leBytes 8 (8 * m.length)

def md5Blocks (s : Md5State) : ℕ → Bytes → Md5State
  | 0, _ => s
  | n + 1, m => md5Blocks (md5Block s (m.take 64)) n (m.drop 64)

def md5 (m : Bytes) : Bytes :=
  let p := md5Pad m
  let s := md5Blocks ⟨0x67452301, 0xefcdab89, 0x98badcfe, 0x10325476⟩ (p.length / 64) p
  leBytes 4 s.a.toNat ++ leBytes 4 s.b.toNat ++ leBytes 4 s.c.toNat ++ leBytes 4 s.d.toNat

/-! ### FNV-1a -/

def fnv128a (m : Bytes) : ℕ :=
  m.foldl (fun h b => (h ^^^ b.toNat) * 0x0000000001000000000000000000013b % 2 ^ 128)
    0x6c62272e07bb014262b821756295c58d

/- `Sum`: sixteen bytes, the highest first. -/
def fnv128aSum (m : Bytes) : Bytes := beBytes 16 (fnv128a m)

end EdgeDispatch.Lib.Digest
