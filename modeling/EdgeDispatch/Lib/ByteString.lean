import Mathlib.Data.List.Basic
import Mathlib.Data.List.Induction
import Mathlib.Tactic.Ring

/-! # Byte strings and fixed-width big-endian words -/

namespace EdgeDispatch.Lib.ByteString

abbrev Byte := UInt8
abbrev Bytes := List Byte

def slash : Byte := 47
def dot : Byte := 46

instance : LawfulBEq Bytes := List.instLawfulBEq

/- Big-endian digits of `n`, exactly `w` bytes. -/
def beBytes : ℕ → ℕ → Bytes
  | 0, _ => []
  | w + 1, n => beBytes w (n / 256) ++ [UInt8.ofNat n]

def beVal (bs : Bytes) : ℕ := bs.foldl (fun acc b => acc * 256 + b.toNat) 0

theorem beBytes_length (w n : ℕ) : (beBytes w n).length = w := by
  induction w generalizing n with
  | zero => rfl
  | succ w ih => simp only [beBytes, List.length_append, ih, List.length_singleton]

theorem beVal_concat (bs : Bytes) (b : Byte) : beVal (bs ++ [b]) = beVal bs * 256 + b.toNat := by
  simp only [beVal, List.foldl_append, List.foldl_cons, List.foldl_nil]

theorem beVal_beBytes (w n : ℕ) : beVal (beBytes w n) = n % 256 ^ w := by
  induction w generalizing n with
  | zero => simp [beBytes, beVal, Nat.mod_one]
  | succ w ih =>
    have hb : (UInt8.ofNat n).toNat = n % 256 := by simp
    rw [beBytes, beVal_concat, ih, hb, pow_succ', Nat.mod_mul]
    ring

theorem beVal_lt (bs : Bytes) : beVal bs < 256 ^ bs.length := by
  induction bs using List.reverseRecOn with
  | nil => simp [beVal]
  | append_singleton bs b ih =>
    have hb := b.toNat_lt
    rw [beVal_concat, List.length_append, List.length_singleton, pow_succ]
    omega

theorem beBytes_beVal (bs : Bytes) : beBytes bs.length (beVal bs) = bs := by
  induction bs using List.reverseRecOn with
  | nil => rfl
  | append_singleton bs b ih =>
    have hb := b.toNat_lt
    have hdiv : beVal (bs ++ [b]) / 256 = beVal bs := by
      rw [beVal_concat]
      omega
    have hlast : UInt8.ofNat (beVal (bs ++ [b])) = b := by
      apply UInt8.toNat_inj.mp
      rw [UInt8.toNat_ofNat', beVal_concat]
      omega
    rw [List.length_append, List.length_singleton, beBytes, hdiv, ih, hlast]

theorem beVal_zeros (k : ℕ) (bs : Bytes) : beVal (List.replicate k 0 ++ bs) = beVal bs := by
  induction k with
  | zero => rfl
  | succ k ih =>
    rw [List.replicate_succ, List.cons_append, ← ih]
    simp [beVal]

/- The same words, the lowest byte first. -/
def leBytes (w n : ℕ) : Bytes := (beBytes w n).reverse
def leVal (bs : Bytes) : ℕ := beVal bs.reverse

theorem leBytes_length (w n : ℕ) : (leBytes w n).length = w := by
  rw [leBytes, List.length_reverse, beBytes_length]

theorem leVal_leBytes (w n : ℕ) : leVal (leBytes w n) = n % 256 ^ w := by
  rw [leVal, leBytes, List.reverse_reverse, beVal_beBytes]

theorem leVal_lt (bs : Bytes) : leVal bs < 256 ^ bs.length := by
  have hlt := beVal_lt bs.reverse
  rwa [List.length_reverse] at hlt

/- A short word is read as if zeros followed it. -/
theorem leBytes_leVal {w : ℕ} {bs : Bytes} (h : bs.length ≤ w) :
    leBytes w (leVal bs) = bs ++ List.replicate (w - bs.length) 0 := by
  have hval : beVal bs.reverse = beVal (bs ++ List.replicate (w - bs.length) 0).reverse := by
    rw [List.reverse_append, List.reverse_replicate, beVal_zeros]
  have hlen : (bs ++ List.replicate (w - bs.length) 0).reverse.length = w := by
    rw [List.length_reverse, List.length_append, List.length_replicate]
    omega
  have hback := beBytes_beVal (bs ++ List.replicate (w - bs.length) 0).reverse
  rw [hlen, ← hval] at hback
  rw [leBytes, leVal, hback, List.reverse_reverse]

/- `binary.BigEndian.PutUint32` and `binary.BigEndian.Uint32`. -/
def putUint32 (x : UInt32) : Bytes := beBytes 4 x.toNat
def uint32 (bs : Bytes) : UInt32 := UInt32.ofNat (beVal bs)

theorem putUint32_length (x : UInt32) : (putUint32 x).length = 4 := beBytes_length 4 _

theorem uint32_putUint32 (x : UInt32) : uint32 (putUint32 x) = x := by
  have hx : x.toNat % 256 ^ 4 = x.toNat := Nat.mod_eq_of_lt x.toNat_lt
  rw [uint32, putUint32, beVal_beBytes, hx]
  simp

/- `io.ReadFull` on the bytes a peer has sent: all `n` of them, or an error. -/
def readFull (n : ℕ) (bs : Bytes) : Option (Bytes × Bytes) :=
  if n ≤ bs.length then some (bs.take n, bs.drop n) else none

theorem readFull_append (bs rest : Bytes) : readFull bs.length (bs ++ rest) = some (bs, rest) := by
  simp [readFull]

theorem readFull_short (n : ℕ) (bs : Bytes) (h : bs.length < n) : readFull n bs = none := by
  simp only [readFull]
  exact if_neg (by omega)

/-! ### Reading a file in pieces -/

/- What a read into a buffer of `q + 1` bytes adds to `got`; nothing at the end of the file,
   and nothing beyond `n`. -/
def readSome (file : Bytes) (n : ℕ) (got : Bytes) (q : ℕ) : Bytes :=
  (file.drop got.length).take (min (q + 1) (n - got.length))

theorem readSome_eq_nil_iff {file got : Bytes} {n q : ℕ} (hle : got.length ≤ n)
    (hn : n ≤ file.length) : readSome file n got q = [] ↔ got.length = n := by
  rw [readSome, List.take_eq_nil_iff, List.drop_eq_nil_iff]
  omega

theorem append_readSome_prefix {file got : Bytes} {n q : ℕ} (h : got <+: file) :
    got ++ readSome file n got q <+: file := by
  obtain ⟨rest, rfl⟩ := h
  rw [readSome, List.drop_left]
  exact (List.prefix_append_right_inj got).mpr (List.take_prefix _ rest)

end EdgeDispatch.Lib.ByteString
