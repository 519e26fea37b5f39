import EdgeDispatch.Lib.GoStrings

/-! # Addresses of Go's net package

An address is 4 bytes, or 16 with IPv4 embedded behind a fixed prefix. -/

namespace EdgeDispatch.Lib.NetIP
open Lib.ByteString

def v4InV6Prefix : Bytes := List.replicate 10 0 ++ [0xff, 0xff]

def to4 (ip : Bytes) : Option Bytes :=
  if ip.length = 4 then some ip
  else if ip.length = 16 ∧ ip.take 12 = v4InV6Prefix then some (ip.drop 12)
  else none

def to16 (ip : Bytes) : Option Bytes :=
  if ip.length = 4 then some (v4InV6Prefix ++ ip)
  else if ip.length = 16 then some ip
  else none

theorem to4_length {ip v4 : Bytes} (h : to4 ip = some v4) : v4.length = 4 := by
  unfold to4 at h
  split at h
  · cases h
    assumption
  · split at h
    · rename_i hsix
      cases h
      rw [List.length_drop, hsix.1]
    · cases h

theorem to16_of_length {ip : Bytes} (h : ip.length = 16) : to16 ip = some ip := by
  rw [to16, if_neg (by omega), if_pos h]

/- `net.CIDRMask` for a whole number of bytes. -/
def byteMask (ones total : ℕ) : Bytes := List.replicate ones 0xff ++ List.replicate (total - ones) 0

def andBytes (a b : Bytes) : Bytes := List.zipWith (· &&& ·) a b

theorem andBytes_ones (bs : Bytes) : andBytes bs (List.replicate bs.length 0xff) = bs := by
  have hand : ∀ b : Byte, b &&& 0xff = b := fun b => UInt8.toBitVec_inj.mp (BitVec.and_allOnes)
  induction bs with
  | nil => rfl
  | cons b bs ih =>
    rw [List.length_cons, List.replicate_succ]
    show (b &&& 0xff) :: andBytes bs (List.replicate bs.length 0xff) = b :: bs
    rw [ih, hand]

theorem andBytes_zeros (bs : Bytes) :
    andBytes bs (List.replicate bs.length 0) = List.replicate bs.length 0 := by
  induction bs with
  | nil => rfl
  | cons b bs ih =>
    rw [List.length_cons, List.replicate_succ]
    show (b &&& 0) :: andBytes bs (List.replicate bs.length 0) = 0 :: List.replicate bs.length 0
    rw [ih, UInt8.and_zero]

/- A mask of whole bytes keeps the first ones. -/
theorem andBytes_byteMask {ip : Bytes} {k n : ℕ} (hlen : ip.length = n) (hk : k ≤ n) :
    andBytes ip (byteMask k n) = ip.take k ++ List.replicate (n - k) 0 := by
  have hfront : (ip.take k).length = k := by rw [List.length_take]; omega
  have hback : (ip.drop k).length = n - k := by rw [List.length_drop, hlen]
  have hones := andBytes_ones (ip.take k)
  have hzeros := andBytes_zeros (ip.drop k)
  rw [hfront] at hones
  rw [hback] at hzeros
  calc andBytes ip (byteMask k n)
      = List.zipWith (· &&& ·) (ip.take k ++ ip.drop k)
          (List.replicate k 0xff ++ List.replicate (n - k) 0) := by
        rw [List.take_append_drop]
        rfl
    _ = andBytes (ip.take k) (List.replicate k 0xff) ++
          andBytes (ip.drop k) (List.replicate (n - k) 0) :=
        List.zipWith_append (by rw [hfront, List.length_replicate])
    _ = ip.take k ++ List.replicate (n - k) 0 := by rw [hones, hzeros]

/- `IP.Mask`; nil when the lengths do not fit. -/
def maskIP (ip mask : Bytes) : Option Bytes :=
  let mask' := if mask.length = 16 ∧ ip.length = 4 ∧ mask.take 12 = List.replicate 12 0xff
    then mask.drop 12 else mask
  let ip' := if mask'.length = 4 ∧ ip.length = 16 ∧ ip.take 12 = v4InV6Prefix
    then ip.drop 12 else ip
  if ip'.length = mask'.length then some (andBytes ip' mask') else none

structure IPNet where
  ip : Bytes
  mask : Bytes

def networkNumberAndMask (n : IPNet) : Option (Bytes × Bytes) :=
  let ip := (to4 n.ip).getD n.ip
  if ip.length ≠ 4 ∧ ip.length ≠ 16 then none
  else if n.mask.length = 4 then (if ip.length = 4 then some (ip, n.mask) else none)
  else if n.mask.length = 16 then
    some (ip, if ip.length = 4 then n.mask.drop 12 else n.mask)
  else none

def IPNet.contains (n : IPNet) (ip : Bytes) : Bool :=
  match networkNumberAndMask n with
  | none => false
  | some (nn, m) =>
    let ip := (to4 ip).getD ip
    decide (ip.length = nn.length) && andBytes nn m == andBytes ip m

/-! ### Host and port -/

open Lib.GoStrings (indexByte lastIndexByte)

def colon : Byte := 58
def openBracket : Byte := 91
def closeBracket : Byte := 93

/- The last lines of `SplitHostPort`: there may be no '[' from `j` on and no ']' from `k`. -/
def checkedHostPort (s : Bytes) (i j k : ℕ) (host : Bytes) : Option (Bytes × Bytes) :=
  if (indexByte openBracket (s.drop j)).isSome ∨ (indexByte closeBracket (s.drop k)).isSome then none
  else some (host, s.drop (i + 1))

def splitHostPort (s : Bytes) : Option (Bytes × Bytes) :=
  match lastIndexByte colon s with
  | none => none
  | some i =>
    if s.head? = some openBracket then
      match indexByte closeBracket s with
      | none => none
      | some e => if e + 1 = i then checkedHostPort s i 1 (e + 1) ((s.take e).drop 1) else none
    else if (indexByte colon (s.take i)).isSome then none
    else checkedHostPort s i 0 0 (s.take i)

/-- The two forms of an address with a port: the host has no colon, or brackets around. -/
structure HostPort where
  host : Bytes
  port : Bytes
  bracketed : Bool
  host_ok : ∀ b ∈ host, b ≠ openBracket ∧ b ≠ closeBracket ∧ (bracketed = false → b ≠ colon)
  port_ok : ∀ b ∈ port, b ≠ openBracket ∧ b ≠ closeBracket ∧ b ≠ colon

def HostPort.text (a : HostPort) : Bytes :=
  if a.bracketed then openBracket :: (a.host ++ closeBracket :: colon :: a.port)
  else a.host ++ colon :: a.port

theorem separators_ne : openBracket ≠ colon ∧ closeBracket ≠ colon ∧ openBracket ≠ closeBracket := by
  decide

namespace HostPort
variable (a : HostPort)

theorem notMem_host : openBracket ∉ a.host ∧ closeBracket ∉ a.host :=
  ⟨fun h => (a.host_ok _ h).1 rfl, fun h => (a.host_ok _ h).2.1 rfl⟩

theorem notMem_port : openBracket ∉ a.port ∧ closeBracket ∉ a.port ∧ colon ∉ a.port :=
  ⟨fun h => (a.port_ok _ h).1 rfl, fun h => (a.port_ok _ h).2.1 rfl,
    fun h => (a.port_ok _ h).2.2 rfl⟩

theorem text_plain (h : a.bracketed = false) :
    a.text = a.host ++ colon :: a.port ∧ colon ∉ a.host ∧ a.text.head? ≠ some openBracket := by
  have htext : a.text = a.host ++ colon :: a.port := by simp [text, h]
  refine ⟨htext, fun hc => (a.host_ok _ hc).2.2 h rfl, ?_⟩
  rw [htext]
  cases hh : a.host with
  | nil => simp [colon, openBracket]
  | cons b rest =>
    have hb := (a.host_ok b (by rw [hh]; exact List.mem_cons_self)).1
    simpa using hb

theorem text_bracketed (h : a.bracketed = true) :
    a.text = (openBracket :: a.host) ++ closeBracket :: colon :: a.port ∧
      lastIndexByte colon a.text = some (a.host.length + 2) ∧
      indexByte closeBracket a.text = some (a.host.length + 1) := by
  have htext : a.text = (openBracket :: a.host) ++ closeBracket :: colon :: a.port := by
    simp [text, h]
  have hassoc : (openBracket :: a.host) ++ closeBracket :: colon :: a.port =
      (openBracket :: a.host ++ [closeBracket]) ++ colon :: a.port := by simp
  have hclose : closeBracket ∉ openBracket :: a.host := by
    simp [separators_ne.2.2.symm, a.notMem_host.2]
  refine ⟨htext, ?_, ?_⟩
  · rw [htext, hassoc, GoStrings.lastIndexByte_append _ a.notMem_port.2.2]
    simp
  · rw [htext, GoStrings.indexByte_append hclose]
    rfl

theorem checkedHostPort_eq {s host : Bytes} {i j k : ℕ} (hopen : openBracket ∉ s.drop j)
    (hclose : closeBracket ∉ s.drop k) :
    checkedHostPort s i j k host = some (host, s.drop (i + 1)) := by
  unfold checkedHostPort
  rw [GoStrings.indexByte_eq_none.mpr hopen, GoStrings.indexByte_eq_none.mpr hclose]
  rfl

theorem splitHostPort_text : splitHostPort a.text = some (a.host, a.port) := by
  obtain ⟨hopen, hclose⟩ := a.notMem_host
  obtain ⟨popen, pclose, pcolon⟩ := a.notMem_port
  unfold splitHostPort
  cases hb : a.bracketed with
  | true =>
    obtain ⟨htext, hlast, hfirst⟩ := a.text_bracketed hb
    have hhead : a.text.head? = some openBracket := by rw [htext]; rfl
    have hdrop : a.text.drop (a.host.length + 2) = colon :: a.port := by
      rw [htext]
      simp
    have hport : a.text.drop (a.host.length + 2 + 1) = a.port := by
      rw [← List.drop_drop, hdrop]
      rfl
    have hhost : (a.text.take (a.host.length + 1)).drop 1 = a.host := by
      rw [htext]
      simp
    simp only [hlast, hfirst, if_pos hhead, if_true]
    rw [checkedHostPort_eq, hhost, hport]
    · rw [htext]
      simp [hopen, popen, separators_ne]
    · rw [hdrop]
      simp [pclose, separators_ne]
  | false =>
    obtain ⟨htext, hcolon, hhead⟩ := a.text_plain hb
    have hlast : lastIndexByte colon a.text = some a.host.length := by
      rw [htext]
      exact GoStrings.lastIndexByte_append _ pcolon
    have hhost : a.text.take a.host.length = a.host := by
      rw [htext]
      simp
    have hport : a.text.drop (a.host.length + 1) = a.port := by
      rw [htext]
      simp
    simp only [hlast, if_neg hhead, hhost, GoStrings.indexByte_eq_none.mpr hcolon]
    rw [if_neg (by decide), checkedHostPort_eq, hport]
    · rw [List.drop_zero, htext]
      simp [hopen, popen, separators_ne]
    · rw [List.drop_zero, htext]
      simp [hclose, pclose, separators_ne]

end HostPort

end EdgeDispatch.Lib.NetIP
