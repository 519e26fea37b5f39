import EdgeDispatch.Lib.Digest
import EdgeDispatch.Lib.GoStrconv
import EdgeDispatch.Lib.NetIP
import Mathlib.Data.List.TakeWhile

/-! # Addresses and networks as text (packages net and net/netip)

What `ParseIP` and `ParseCIDR` accept, and what `IP.String` and `IPNet.String` write. The
parser fills an array of 16 bytes from the left; `ip` is the part filled so far. -/

namespace EdgeDispatch.Lib.NetAddr
open Lib.ByteString Lib.GoStrings Lib.GoStrconv
open Lib.NetIP
open Lib.Digest (hex hexDigit hexVal)

def percent : Byte := 37

/-! ### Reading -/

/- The loop of `parseIPv4Fields`, with the fields before the current one. A dot stands
   between digits, so there is one before it iff the current field has no digit. -/
def parseIPv4Fields (fields : Bytes) (val digLen : ℕ) : Bytes → Option Bytes
  | [] => if fields.length < 3 then none else some (fields ++ [UInt8.ofNat val])
  | c :: rest =>
    match digitVal c with
    | some d =>
      if digLen = 1 ∧ val = 0 then none
      else if 255 < val * 10 + d then none
      else parseIPv4Fields fields (val * 10 + d) (digLen + 1) rest
    | none =>
      if c ≠ dot then none
      else if digLen = 0 ∨ rest = [] then none
      else if fields.length = 3 then none
      else parseIPv4Fields (fields ++ [UInt8.ofNat val]) 0 0 rest

/- The digits of a group: their number, their value and what follows them. -/
def hexField (off acc : ℕ) : Bytes → Option (ℕ × ℕ × Bytes)
  | [] => some (off, acc, [])
  | c :: rest =>
    match hexVal c with
    | none => some (off, acc, c :: rest)
    | some d =>
      if 3 < off then none
      else if 65535 < acc * 16 + d then none
      else hexField (off + 1) (acc * 16 + d) rest

def word (acc : ℕ) : Bytes := [UInt8.ofNat (acc / 256), UInt8.ofNat acc]

/- The loop of `parseIPv6`; the fuel is the number of groups that still fit. -/
def parseGroups : ℕ → Bytes → Option ℕ → Bytes → Option (Bytes × Option ℕ × Bytes)
  | 0, ip, ellipsis, s => some (ip, ellipsis, s)
  | fuel + 1, ip, ellipsis, s =>
    match hexField 0 0 s with
    | none => none
    | some (off, acc, rest) =>
      if off = 0 then none
      else if rest.head? = some dot then
        if ellipsis = none ∧ ip.length ≠ 12 then none
        else if 16 < ip.length + 4 then none
        else (parseIPv4Fields [] 0 0 s).map fun fields => (ip ++ fields, ellipsis, [])
      else match rest with
        | [] => some (ip ++ word acc, ellipsis, [])
        | c :: more =>
          if c ≠ colon ∨ more = [] then none
          else if more.head? = some colon then
            if ellipsis.isSome then none
            else if more.tail = [] then some (ip ++ word acc, some (ip ++ word acc).length, [])
            else parseGroups fuel (ip ++ word acc) (some (ip ++ word acc).length) more.tail
          else parseGroups fuel (ip ++ word acc) ellipsis more

/- The end of `parseIPv6`: nothing may be left, and the ellipsis stands for a zero group at
   least. -/
def expand : Bytes × Option ℕ × Bytes → Option Bytes
  | (ip, ellipsis, s) =>
    if s ≠ [] then none
    else if ip.length < 16 then
      match ellipsis with
      | none => none
      | some e => some (ip.take e ++ List.replicate (16 - ip.length) 0 ++ ip.drop e)
    else if ellipsis.isSome then none
    else some ip

def parseUnzoned (s : Bytes) : Option Bytes :=
  if hasPrefix s [colon, colon] then
    if s.drop 2 = [] then some (List.replicate 16 0)
    else (parseGroups 8 [] (some 0) (s.drop 2)).bind expand
  else (parseGroups 8 [] none s).bind expand

inductive Addr where
  | ip4 (ip : Bytes)
  | ip6 (ip zone : Bytes)
  deriving DecidableEq

def parseIPv6 (s : Bytes) : Option Addr :=
  match indexByte percent s with
  | none => (parseUnzoned s).map fun ip => .ip6 ip []
  | some i =>
    if s.drop (i + 1) = [] then none
    else (parseUnzoned (s.take i)).map fun ip => .ip6 ip (s.drop (i + 1))

/- `netip.ParseAddr`: the first of these three decides. -/
def parseAddr (s : Bytes) : Option Addr :=
  match s.find? fun c => c = dot ∨ c = colon ∨ c = percent with
  | none => none
  | some c =>
    if c = dot then (parseIPv4Fields [] 0 0 s).map .ip4
    else if c = colon then parseIPv6 s
    else none

def Addr.zone : Addr → Bytes
  | .ip4 _ => []
  | .ip6 _ zone => zone

def Addr.as16 : Addr → Bytes
  | .ip4 ip => v4InV6Prefix ++ ip
  | .ip6 ip _ => ip

def Addr.bitLen : Addr → ℕ
  | .ip4 _ => 32
  | .ip6 _ _ => 128

def parseIP (s : Bytes) : Option Bytes :=
  match parseAddr s with
  | none => none
  | some addr => if addr.zone ≠ [] then none else some addr.as16

/- The loop of `dtoi`: the digits at the front and the rest, unless they pass 0xFFFFFF. -/
def dtoiLoop (n : ℕ) : Bytes → Option (ℕ × Bytes)
  | [] => some (n, [])
  | c :: rest =>
    match digitVal c with
    | none => some (n, c :: rest)
    | some d => if 0xFFFFFF ≤ n * 10 + d then none else dtoiLoop (n * 10 + d) rest

def dtoi (s : Bytes) : Option (ℕ × Bytes) :=
  if s.head?.bind digitVal = none then none else dtoiLoop 0 s

/- A byte that starts with `n` ones. -/
def onesByte (n : ℕ) : Byte := ~~~((0xff : Byte) >>> UInt8.ofNat n)

/- `CIDRMask` of `l` bytes. -/
def cidrMask (ones : ℕ) : ℕ → Bytes
  | 0 => []
  | l + 1 => if 8 ≤ ones then 0xff :: cidrMask (ones - 8) l else onesByte ones :: cidrMask 0 l

def parseCIDR (s : Bytes) : Option IPNet :=
  match indexByte slash s with
  | none => none
  | some i =>
    match parseAddr (s.take i) with
    | none => none
    | some addr =>
      if addr.zone ≠ [] then none
      else match dtoi (s.drop (i + 1)) with
        | some (n, []) =>
          if addr.bitLen < n then none
          else
            let m := cidrMask n (addr.bitLen / 8)
            some ⟨(maskIP addr.as16 m).getD [], m⟩
        | _ => none

/-! ### Writing -/

def appendDecimal (x : ℕ) : Bytes :=
  (if 100 ≤ x then [digit (x / 100)] else []) ++ (if 10 ≤ x then [digit (x / 10 % 10)] else []) ++
    [digit (x % 10)]

def appendHex (x : ℕ) : Bytes :=
  (if 0x1000 ≤ x then [hexDigit (x / 0x1000)] else []) ++
    (if 0x100 ≤ x then [hexDigit (x / 0x100 % 16)] else []) ++
    (if 0x10 ≤ x then [hexDigit (x / 0x10 % 16)] else []) ++ [hexDigit (x % 16)]

def string4 (ip : Bytes) : Bytes := join dot (ip.map fun b => appendDecimal b.toNat)

/- The 16-bit groups of an address. -/
def groups : Bytes → List ℕ
  | a :: b :: rest => (a.toNat * 256 + b.toNat) :: groups rest
  | _ => []

def zerosAt (gs : List ℕ) (i : ℕ) : ℕ := ((gs.drop i).takeWhile fun g => g = 0).length

/- The length that a longer run has to pass: a single zero is written out. -/
def runLength : Option (ℕ × ℕ) → ℕ
  | none => 1
  | some (zeroStart, zeroEnd) => zeroEnd - zeroStart

/- The first of the longest runs of two zero groups or more, as its start and end. -/
def zeroRun (gs : List ℕ) : Option (ℕ × ℕ) :=
  (List.range 8).foldl (fun best i =>
    if runLength best < zerosAt gs i then some (i, i + zerosAt gs i) else best) none

def joinHex (gs : List ℕ) : Bytes := join colon (gs.map appendHex)

def string6 (ip : Bytes) : Bytes :=
  match zeroRun (groups ip) with
  | none => joinHex (groups ip)
  | some (zeroStart, zeroEnd) =>
    joinHex ((groups ip).take zeroStart) ++ colon :: colon :: joinHex ((groups ip).drop zeroEnd)

/- `IP.String`. -/
def ipString (ip : Bytes) : Bytes :=
  if ip = [] then lit "<nil>"
  else if ip.length ≠ 4 ∧ ip.length ≠ 16 then 63 :: hex ip
  else match to4 ip with
    | some p4 => string4 p4
    | none => string6 ip

def simpleMaskLength : Bytes → Option ℕ
  | [] => some 0
  | v :: rest =>
    if v = 0xff then (simpleMaskLength rest).map (8 + ·)
    else match (List.range 8).find? fun n => v = onesByte n with
      | some n => if rest.all (· = 0) then some n else none
      | none => none

/- `IPNet.String`. -/
def ipNetString (n : IPNet) : Bytes :=
  match networkNumberAndMask n with
  | none => lit "<nil>"
  | some (nn, m) =>
    match simpleMaskLength m with
    | some l => ipString nn ++ slash :: decimal l
    | none => ipString nn ++ slash :: hex m

/-! ### Digits and groups read back -/

variable {d : ℕ}

theorem hexVal_hexDigit (h : d < 16) : hexVal (hexDigit d) = some d := by
  have hall : ∀ e < 16, hexVal (hexDigit e) = some e := by decide
  exact hall d h

/-- A byte that separates nothing in the text of an address. -/
structure Plain (b : Byte) : Prop where
  ne_dot : b ≠ dot
  ne_colon : b ≠ colon
  ne_percent : b ≠ percent
  ne_slash : b ≠ slash
  ascii : b < 128

instance (b : Byte) : Decidable (Plain b) :=
  decidable_of_iff (b ≠ dot ∧ b ≠ colon ∧ b ≠ percent ∧ b ≠ slash ∧ b < 128)
    ⟨fun ⟨h1, h2, h3, h4, h5⟩ => ⟨h1, h2, h3, h4, h5⟩,
      fun h => ⟨h.ne_dot, h.ne_colon, h.ne_percent, h.ne_slash, h.ascii⟩⟩

theorem hexDigit_plain (h : d < 16) : Plain (hexDigit d) := by
  have hall : ∀ e < 16, Plain (hexDigit e) := by decide
  exact hall d h

theorem digit_plain (h : d < 10) : Plain (digit d) := by
  have hall : ∀ e < 10, Plain (digit e) := by decide
  exact hall d h

/- What ends a group. -/
def EndsGroup (rest : Bytes) : Prop := ∀ c ∈ rest.head?, hexVal c = none

variable {rest ip s : Bytes} {x fuel l : ℕ} {b : Byte} {gs : List ℕ}

theorem hexField_end {off acc : ℕ} (h : EndsGroup rest) :
    hexField off acc rest = some (off, acc, rest) := by
  cases rest with
  | nil => rfl
  | cons c rest => rw [hexField, h c rfl]

theorem hexField_digit {off acc : ℕ} (rest : Bytes) (hd : d < 16) (hoff : off ≤ 3)
    (hacc : acc < 16 ^ off) :
    hexField off acc (hexDigit d :: rest) = hexField (off + 1) (acc * 16 + d) rest := by
  have hle : 16 ^ off ≤ 16 ^ 3 := Nat.pow_le_pow_right (by decide) hoff
  rw [hexField, hexVal_hexDigit hd]
  simp only
  rw [if_neg (by omega), if_neg (by omega)]

/-- A group of at most four digits is read up to what ends it. -/
theorem hexField_appendHex (hx : x < 65536) (h : EndsGroup rest) :
    ∃ off, hexField 0 0 (appendHex x ++ rest) = some (off + 1, x, rest) := by
  have h3 : x / 0x1000 < 16 := by omega
  have h2 : x / 0x100 % 16 < 16 := by omega
  have h1 : x / 0x10 % 16 < 16 := by omega
  have h0 : x % 16 < 16 := by omega
  unfold appendHex
  by_cases c3 : 0x1000 ≤ x
  · refine ⟨3, ?_⟩
    have hval : (((0 * 16 + x / 0x1000) * 16 + x / 0x100 % 16) * 16 + x / 0x10 % 16) * 16 + x % 16 =
        x := by omega
    simp only [c3, show 0x100 ≤ x by omega, show 0x10 ≤ x by omega, if_true, List.cons_append,
      List.nil_append]
    rw [hexField_digit _ h3 (by decide) (by decide), hexField_digit _ h2 (by decide) (by omega),
      hexField_digit _ h1 (by decide) (by omega), hexField_digit _ h0 (by decide) (by omega), hval,
      hexField_end h]
  · by_cases c2 : 0x100 ≤ x
    · refine ⟨2, ?_⟩
      have hval : ((0 * 16 + x / 0x100 % 16) * 16 + x / 0x10 % 16) * 16 + x % 16 = x := by omega
      simp only [c3, c2, show 0x10 ≤ x by omega, if_true, if_false, List.cons_append,
        List.nil_append]
      rw [hexField_digit _ h2 (by decide) (by decide), hexField_digit _ h1 (by decide) (by omega),
        hexField_digit _ h0 (by decide) (by omega), hval, hexField_end h]
    · by_cases c1 : 0x10 ≤ x
      · refine ⟨1, ?_⟩
        have hval : (0 * 16 + x / 0x10 % 16) * 16 + x % 16 = x := by omega
        simp only [c3, c2, c1, if_true, if_false, List.cons_append, List.nil_append]
        rw [hexField_digit _ h1 (by decide) (by decide), hexField_digit _ h0 (by decide) (by omega),
          hval, hexField_end h]
      · refine ⟨0, ?_⟩
        have hval : 0 * 16 + x % 16 = x := by omega
        simp only [c3, c2, c1, if_false, List.cons_append, List.nil_append]
        rw [hexField_digit _ h0 (by decide) (by decide), hval, hexField_end h]

theorem mem_appendHex (hx : x < 65536) (h : b ∈ appendHex x) : Plain b := by
  have hcases : b = hexDigit (x / 0x1000) ∨ b = hexDigit (x / 0x100 % 16) ∨
      b = hexDigit (x / 0x10 % 16) ∨ b = hexDigit (x % 16) := by
    unfold appendHex at h
    simp only [List.mem_append, List.mem_singleton, List.mem_ite_nil_right] at h
    tauto
  rcases hcases with rfl | rfl | rfl | rfl
  · exact hexDigit_plain (by omega)
  · exact hexDigit_plain (by omega)
  · exact hexDigit_plain (by omega)
  · exact hexDigit_plain (by omega)

theorem appendHex_ne_nil (x : ℕ) : appendHex x ≠ [] := by simp [appendHex]

theorem endsGroup_colon (rest : Bytes) : EndsGroup (colon :: rest) := by
  intro c hc
  cases hc
  decide

/-- One group, as the loop of `parseIPv6` goes over it: the last one, and one before a colon. -/
theorem parseGroups_last (hx : x < 65536) (fuel : ℕ) (ip : Bytes) (ellipsis : Option ℕ) :
    parseGroups (fuel + 1) ip ellipsis (appendHex x) = some (ip ++ word x, ellipsis, []) := by
  have hend : EndsGroup [] := fun c hc => nomatch hc
  obtain ⟨off, hoff⟩ := hexField_appendHex hx hend
  rw [List.append_nil] at hoff
  rw [parseGroups, hoff]
  simp

theorem parseGroups_colon (hx : x < 65536) (fuel : ℕ) (ip : Bytes) (ellipsis : Option ℕ)
    {more : Bytes} (hmore : more ≠ []) :
    parseGroups (fuel + 1) ip ellipsis (appendHex x ++ colon :: more) =
      if more.head? = some colon then
        if ellipsis.isSome then none
        else if more.tail = [] then some (ip ++ word x, some (ip ++ word x).length, [])
        else parseGroups fuel (ip ++ word x) (some (ip ++ word x).length) more.tail
      else parseGroups fuel (ip ++ word x) ellipsis more := by
  obtain ⟨off, hoff⟩ := hexField_appendHex hx (endsGroup_colon more)
  have hdot : (colon :: more).head? ≠ some dot := by simp [colon, dot]
  rw [parseGroups, hoff]
  simp only
  rw [if_neg (Nat.succ_ne_zero off), if_neg hdot, if_neg (by simp [hmore])]

theorem head?_joinHex (hne : gs ≠ []) (hgs : ∀ g ∈ gs, g < 65536) (rest : Bytes) :
    joinHex gs ++ rest ≠ [] ∧ (joinHex gs ++ rest).head? ≠ some colon := by
  obtain ⟨g, gs, rfl⟩ := List.exists_cons_of_ne_nil hne
  obtain ⟨b, more, hb⟩ := List.exists_cons_of_ne_nil (appendHex_ne_nil g)
  have hplain : Plain b := mem_appendHex (hgs g List.mem_cons_self) (hb ▸ List.mem_cons_self)
  have hform : ∃ tail, joinHex (g :: gs) = b :: tail := by
    cases gs with
    | nil => exact ⟨more, by simp [joinHex, join_singleton, hb]⟩
    | cons g' gs => exact ⟨_, by rw [joinHex, List.map_cons, List.map_cons, join_cons_cons, hb]; rfl⟩
  obtain ⟨tail, htail⟩ := hform
  rw [htail]
  exact ⟨by simp, by simpa using hplain.ne_colon⟩

/-- Groups up to the end of the text. -/
theorem parseGroups_joinHex (hne : gs ≠ []) (hgs : ∀ g ∈ gs, g < 65536) (hfuel : gs.length ≤ fuel)
    (ip : Bytes) (ellipsis : Option ℕ) :
    parseGroups fuel ip ellipsis (joinHex gs) = some (ip ++ gs.flatMap word, ellipsis, []) := by
  induction gs generalizing fuel ip with
  | nil => exact absurd rfl hne
  | cons g gs ih =>
    obtain ⟨fuel, rfl⟩ : ∃ n, fuel = n + 1 := ⟨fuel - 1, by rw [List.length_cons] at hfuel; omega⟩
    have hg := hgs g List.mem_cons_self
    cases gs with
    | nil =>
      have htext : joinHex [g] = appendHex g := by simp [joinHex, join_singleton]
      rw [htext, parseGroups_last hg]
      simp
    | cons g' gs =>
      have hgs' := fun x hx => hgs x (List.mem_cons_of_mem g hx)
      have htext : joinHex (g :: g' :: gs) = appendHex g ++ colon :: joinHex (g' :: gs) := by
        simp only [joinHex, List.map_cons, join_cons_cons]
      obtain ⟨hnil, hhead⟩ := head?_joinHex (List.cons_ne_nil g' gs) hgs' []
      rw [List.append_nil] at hnil hhead
      rw [htext, parseGroups_colon hg fuel ip ellipsis hnil, if_neg hhead,
        ih (List.cons_ne_nil _ _) hgs' (by simpa using hfuel)]
      simp [List.flatMap_cons]

/-- Groups up to the ellipsis. -/
theorem parseGroups_ellipsis (hne : gs ≠ []) (hgs : ∀ g ∈ gs, g < 65536) (hfuel : gs.length ≤ fuel)
    (ip rest : Bytes) :
    parseGroups fuel ip none (joinHex gs ++ colon :: colon :: rest) =
      if rest = [] then
        some (ip ++ gs.flatMap word, some (ip ++ gs.flatMap word).length, [])
      else parseGroups (fuel - gs.length) (ip ++ gs.flatMap word)
        (some (ip ++ gs.flatMap word).length) rest := by
  induction gs generalizing fuel ip with
  | nil => exact absurd rfl hne
  | cons g gs ih =>
    obtain ⟨fuel, rfl⟩ : ∃ n, fuel = n + 1 := ⟨fuel - 1, by rw [List.length_cons] at hfuel; omega⟩
    have hg := hgs g List.mem_cons_self
    cases gs with
    | nil =>
      have htext : joinHex [g] = appendHex g := by simp [joinHex, join_singleton]
      rw [htext, parseGroups_colon hg fuel ip none (List.cons_ne_nil colon rest)]
      simp
    | cons g' gs =>
      have hgs' := fun x hx => hgs x (List.mem_cons_of_mem g hx)
      have htext : joinHex (g :: g' :: gs) ++ colon :: colon :: rest =
          appendHex g ++ colon :: (joinHex (g' :: gs) ++ colon :: colon :: rest) := by
        simp only [joinHex, List.map_cons, join_cons_cons, List.append_assoc, List.cons_append]
      obtain ⟨hnil, hhead⟩ := head?_joinHex (List.cons_ne_nil g' gs) hgs' (colon :: colon :: rest)
      rw [htext, parseGroups_colon hg fuel ip none hnil, if_neg hhead,
        ih (List.cons_ne_nil _ _) hgs' (by simpa using hfuel)]
      simp [List.flatMap_cons]

/-! ### The run of zeros that is left out -/

theorem zeroRun_spec {s e : ℕ} (h : zeroRun gs = some (s, e)) :
    s < e ∧ e ≤ gs.length ∧ gs = gs.take s ++ List.replicate (e - s) 0 ++ gs.drop e := by
  -- every run that was the best so far starts at `s` and ends where its zeros do
  have hbest : ∀ s e, zeroRun gs = some (s, e) → 1 < zerosAt gs s ∧ e = s + zerosAt gs s := by
    refine List.foldlRecOn (motive := fun best => ∀ s e, best = some (s, e) →
      1 < zerosAt gs s ∧ e = s + zerosAt gs s) (List.range 8) _ ?_ ?_
    · intro s e h
      cases h
    · intro best ih i _ s e h
      split at h
      · rename_i hlt
        cases h
        refine ⟨?_, rfl⟩
        cases best with
        | none => exact hlt
        | some b =>
          obtain ⟨hb, he⟩ := ih b.1 b.2 rfl
          simp only [runLength] at hlt
          omega
      · exact ih s e h
  obtain ⟨hlen, rfl⟩ := hbest s e h
  have hrun : (gs.drop s).takeWhile (fun g => decide (g = 0)) = List.replicate (zerosAt gs s) 0 := by
    refine List.eq_replicate_iff.mpr ⟨rfl, fun g hg => ?_⟩
    simpa using List.mem_takeWhile_imp hg
  have hprefix := List.takeWhile_append_dropWhile (p := fun g => decide (g = 0)) (l := gs.drop s)
  rw [hrun] at hprefix
  have hfit : zerosAt gs s ≤ (gs.drop s).length := by
    rw [← hprefix, List.length_append, List.length_replicate]
    omega
  have hrest : gs.drop (s + zerosAt gs s) = (gs.drop s).dropWhile fun g => decide (g = 0) := by
    rw [← List.drop_drop]
    conv_lhs => rw [← hprefix]
    exact List.drop_left' List.length_replicate
  rw [List.length_drop] at hfit
  refine ⟨by omega, by omega, ?_⟩
  rw [Nat.add_sub_cancel_left, List.append_assoc, hrest, hprefix, List.take_append_drop]

theorem groups_lt {g : ℕ} (h : g ∈ groups ip) : g < 65536 := by
  fun_induction groups ip with
  | case1 a b rest ih =>
    have ha := a.toNat_lt
    have hb := b.toNat_lt
    rcases List.mem_cons.mp h with rfl | h
    · omega
    · exact ih h
  | case2 => cases h

theorem word_group (a b : Byte) : word (a.toNat * 256 + b.toNat) = [a, b] := by
  have ha := a.toNat_lt
  have hb := b.toNat_lt
  have hhigh : UInt8.ofNat ((a.toNat * 256 + b.toNat) / 256) = a := by
    apply UInt8.toNat_inj.mp
    rw [UInt8.toNat_ofNat']
    omega
  have hlow : UInt8.ofNat (a.toNat * 256 + b.toNat) = b := by
    apply UInt8.toNat_inj.mp
    rw [UInt8.toNat_ofNat']
    omega
  rw [word, hhigh, hlow]

theorem flatMap_groups (h : ip.length % 2 = 0) : (groups ip).flatMap word = ip := by
  fun_induction groups ip with
  | case1 a b rest ih =>
    rw [List.flatMap_cons, word_group, ih (by simp only [List.length_cons] at h; omega)]
    rfl
  | case2 ip hshort =>
    match ip, h, hshort with
    | [], _, _ => rfl
    | [_], h, _ => simp at h
    | a :: b :: rest, _, hshort => exact absurd rfl (hshort a b rest)

theorem flatMap_word_length (gs : List ℕ) : (gs.flatMap word).length = 2 * gs.length := by
  induction gs with
  | nil => rfl
  | cons g gs ih =>
    rw [List.flatMap_cons, List.length_append, ih, List.length_cons]
    simp only [word, List.length_cons, List.length_nil]
    omega

theorem flatMap_word_zeros (n : ℕ) :
    (List.replicate n 0).flatMap word = List.replicate (2 * n) 0 := by
  induction n with
  | zero => rfl
  | succ n ih =>
    rw [List.replicate_succ, List.flatMap_cons, ih, Nat.mul_succ, Nat.add_comm,
      ← List.replicate_append_replicate]
    rfl

/-! ### Addresses read back -/

theorem parseAddr_of_colon (hmem : colon ∈ s) (h : ∀ c ∈ s, c ≠ dot ∧ c ≠ percent) :
    parseAddr s = parseIPv6 s := by
  unfold parseAddr
  split
  · rename_i hnone
    exact absurd (List.find?_eq_none.mp hnone colon hmem) (by simp)
  · rename_i c hc
    obtain ⟨hdot, hpercent⟩ := h c (List.mem_of_find?_eq_some hc)
    have hcolon : c = colon := by simpa [hdot, hpercent] using List.find?_some hc
    rw [if_neg hdot, if_pos hcolon]

theorem parseAddr_of_dot (hmem : dot ∈ s) (h : ∀ c ∈ s, c ≠ colon ∧ c ≠ percent) :
    parseAddr s = (parseIPv4Fields [] 0 0 s).map .ip4 := by
  unfold parseAddr
  split
  · rename_i hnone
    exact absurd (List.find?_eq_none.mp hnone dot hmem) (by simp)
  · rename_i c hc
    obtain ⟨hcolon, hpercent⟩ := h c (List.mem_of_find?_eq_some hc)
    have hdot : c = dot := by simpa [hcolon, hpercent] using List.find?_some hc
    rw [if_pos hdot]

/- The bytes of groups and colons. -/
theorem mem_joinHex (hgs : ∀ g ∈ gs, g < 65536) (h : b ∈ joinHex gs) : b = colon ∨ Plain b := by
  rcases mem_join h with rfl | ⟨p, hp, hb⟩
  · exact .inl rfl
  · obtain ⟨g, hg, rfl⟩ := List.mem_map.mp hp
    exact .inr (mem_appendHex (hgs g hg) hb)

theorem mem_string6 (h : b ∈ string6 ip) : b = colon ∨ Plain b := by
  have hlt : ∀ g ∈ groups ip, g < 65536 := fun g hg => groups_lt hg
  unfold string6 at h
  split at h
  · exact mem_joinHex hlt h
  · rcases List.mem_append.mp h with h | h
    · exact mem_joinHex (fun g hg => hlt g (List.mem_of_mem_take hg)) h
    · rcases List.mem_cons.mp h with h | h
      · exact .inl h
      · rcases List.mem_cons.mp h with h | h
        · exact .inl h
        · exact mem_joinHex (fun g hg => hlt g (List.mem_of_mem_drop hg)) h

theorem joinHex_eq_nil (hgs : ∀ g ∈ gs, g < 65536) : joinHex gs = [] ↔ gs = [] := by
  constructor
  · intro h
    by_contra hne
    have hhead := (head?_joinHex hne hgs []).1
    rw [List.append_nil] at hhead
    exact hhead h
  · rintro rfl
    rfl

/- What the groups before and after the ellipsis make of an address. -/
theorem expand_ellipsis (before after : List ℕ) (h : before.length + after.length < 8) :
    expand (before.flatMap word ++ after.flatMap word, some (before.flatMap word).length, []) =
      some ((before ++ List.replicate (8 - (before.length + after.length)) 0 ++
        after).flatMap word) := by
  have hlen : (before.flatMap word ++ after.flatMap word).length =
      2 * (before.length + after.length) := by
    rw [List.length_append, flatMap_word_length, flatMap_word_length]
    omega
  have hzeros : 16 - 2 * (before.length + after.length) =
      2 * (8 - (before.length + after.length)) := by omega
  simp only [expand, hlen]
  rw [if_neg (by simp), if_pos (by omega), hzeros, List.take_left, List.drop_left,
    List.flatMap_append, List.flatMap_append, flatMap_word_zeros]

theorem not_hasPrefix_colons (h : s.head? ≠ some colon) : ¬ hasPrefix s [colon, colon] = true := by
  intro hpre
  obtain ⟨rest, hrest⟩ := List.isPrefixOf_iff_prefix.mp hpre
  rw [← hrest] at h
  exact h rfl

theorem parseUnzoned_ellipsis {before after : List ℕ} (hb : ∀ g ∈ before, g < 65536)
    (ha : ∀ g ∈ after, g < 65536) (h : before.length + after.length < 8) :
    parseUnzoned (joinHex before ++ colon :: colon :: joinHex after) =
      some ((before ++ List.replicate (8 - (before.length + after.length)) 0 ++
        after).flatMap word) := by
  unfold parseUnzoned
  by_cases hnil : before = []
  · subst hnil
    have hpre : hasPrefix (joinHex [] ++ colon :: colon :: joinHex after) [colon, colon] = true := by
      simp [joinHex, join, hasPrefix]
    have hdrop : (joinHex [] ++ colon :: colon :: joinHex after).drop 2 = joinHex after := rfl
    rw [if_pos hpre, hdrop]
    by_cases hempty : after = []
    · subst hempty
      decide
    · rw [if_neg (mt (joinHex_eq_nil ha).mp hempty),
        parseGroups_joinHex hempty ha (by simp at h; omega)]
      exact expand_ellipsis [] after h
  · obtain ⟨-, hhead⟩ := head?_joinHex hnil hb (colon :: colon :: joinHex after)
    rw [if_neg (not_hasPrefix_colons hhead), parseGroups_ellipsis hnil hb (by omega)]
    by_cases hempty : after = []
    · subst hempty
      rw [if_pos ((joinHex_eq_nil ha).mpr rfl)]
      simpa using expand_ellipsis before [] h
    · rw [if_neg (mt (joinHex_eq_nil ha).mp hempty), parseGroups_joinHex hempty ha (by omega)]
      exact expand_ellipsis before after h

theorem parseUnzoned_groups (hgs : ∀ g ∈ gs, g < 65536) (h : gs.length = 8) :
    parseUnzoned (joinHex gs) = some (gs.flatMap word) := by
  have hne : gs ≠ [] := by
    rintro rfl
    simp at h
  obtain ⟨-, hhead⟩ := head?_joinHex hne hgs []
  rw [List.append_nil] at hhead
  have hlen : (gs.flatMap word).length = 16 := by
    rw [flatMap_word_length]
    omega
  unfold parseUnzoned
  rw [if_neg (not_hasPrefix_colons hhead), parseGroups_joinHex hne hgs h.le]
  simp [expand, hlen]

theorem groups_length_eq (h : ip.length = 16) : (groups ip).length = 8 := by
  have hbytes := congrArg List.length (flatMap_groups (by omega : ip.length % 2 = 0))
  rw [flatMap_word_length] at hbytes
  omega

/-- An IPv6 address reads back, whichever run of zeros was left out. -/
theorem parseAddr_string6 (h : ip.length = 16) : parseAddr (string6 ip) = some (.ip6 ip []) := by
  have hlt : ∀ g ∈ groups ip, g < 65536 := fun g hg => groups_lt hg
  have hlen := groups_length_eq h
  have hback := flatMap_groups (by omega : ip.length % 2 = 0)
  have hbytes : ∀ c ∈ string6 ip, c ≠ dot ∧ c ≠ percent := by
    intro c hc
    rcases mem_string6 hc with rfl | hplain
    · decide
    · exact ⟨hplain.ne_dot, hplain.ne_percent⟩
  have hread : colon ∈ string6 ip ∧ parseUnzoned (string6 ip) = some ip := by
    unfold string6
    split
    · refine ⟨?_, by rw [parseUnzoned_groups hlt hlen, hback]⟩
      match hgs : groups ip, hlen with
      | g :: g' :: gs, _ => simp [joinHex, join_cons_cons]
    · rename_i zeroStart zeroEnd hrun
      obtain ⟨hs, he, hsplit⟩ := zeroRun_spec hrun
      refine ⟨by simp, ?_⟩
      rw [parseUnzoned_ellipsis (fun g hg => hlt g (List.mem_of_mem_take hg))
        (fun g hg => hlt g (List.mem_of_mem_drop hg))]
      · have hzeros : 8 - (((groups ip).take zeroStart).length + ((groups ip).drop zeroEnd).length) =
            zeroEnd - zeroStart := by
          rw [List.length_take, List.length_drop]
          omega
        rw [hzeros, ← hsplit, hback]
      · rw [List.length_take, List.length_drop]
        omega
  have hzone : indexByte percent (string6 ip) = none :=
    indexByte_eq_none.mpr fun hc => (hbytes _ hc).2 rfl
  rw [parseAddr_of_colon hread.1 hbytes, parseIPv6, hzone, hread.2]
  rfl

variable {fields m : Bytes} {addr : Addr}

/- The digits of a field are read up to what follows them. -/
theorem parseIPv4Fields_digit {val digLen : ℕ} (hd : d < 10) (hzero : digLen = 1 → val ≠ 0)
    (hval : val * 10 + d ≤ 255) :
    parseIPv4Fields fields val digLen (digit d :: rest) =
      parseIPv4Fields fields (val * 10 + d) (digLen + 1) rest := by
  rw [parseIPv4Fields, digitVal_digit hd]
  simp only
  rw [if_neg (fun hz => hzero hz.1 hz.2), if_neg (by omega)]

theorem parseIPv4Fields_appendDecimal (hx : x < 256) (fields rest : Bytes) :
    ∃ digLen, parseIPv4Fields fields 0 0 (appendDecimal x ++ rest) =
      parseIPv4Fields fields x (digLen + 1) rest := by
  unfold appendDecimal
  by_cases h100 : 100 ≤ x
  · refine ⟨2, ?_⟩
    have hval : ((0 * 10 + x / 100) * 10 + x / 10 % 10) * 10 + x % 10 = x := by omega
    simp only [h100, show 10 ≤ x by omega, if_true, List.cons_append, List.nil_append]
    rw [parseIPv4Fields_digit (by omega) (by omega) (by omega),
      parseIPv4Fields_digit (by omega) (by omega) (by omega),
      parseIPv4Fields_digit (by omega) (by omega) (by omega), hval]
  · by_cases h10 : 10 ≤ x
    · refine ⟨1, ?_⟩
      have hval : (0 * 10 + x / 10 % 10) * 10 + x % 10 = x := by omega
      simp only [h100, h10, if_true, if_false, List.cons_append, List.nil_append]
      rw [parseIPv4Fields_digit (by omega) (by omega) (by omega),
        parseIPv4Fields_digit (by omega) (by omega) (by omega), hval]
    · refine ⟨0, ?_⟩
      have hval : 0 * 10 + x % 10 = x := by omega
      simp only [h100, h10, if_false, List.cons_append, List.nil_append]
      rw [parseIPv4Fields_digit (by omega) (by omega) (by omega), hval]

theorem appendDecimal_ne_nil (x : ℕ) : appendDecimal x ≠ [] := by simp [appendDecimal]

theorem parseIPv4Fields_dot {val digLen : ℕ} (hrest : rest ≠ []) (hfields : fields.length < 3) :
    parseIPv4Fields fields val (digLen + 1) (dot :: rest) =
      parseIPv4Fields (fields ++ [UInt8.ofNat val]) 0 0 rest := by
  have hdot : digitVal dot = none := by decide
  rw [parseIPv4Fields, hdot]
  simp only
  rw [if_neg (by simp), if_neg (by simp [hrest]), if_neg (by omega)]

/- The fields that are left, after those that were read. -/
theorem parseIPv4Fields_join {bs : Bytes} (hne : bs ≠ []) (fields : Bytes)
    (hlen : fields.length + bs.length = 4) :
    parseIPv4Fields fields 0 0 (string4 bs) = some (fields ++ bs) := by
  induction bs generalizing fields with
  | nil => exact absurd rfl hne
  | cons b bs ih =>
    have hb : UInt8.ofNat b.toNat = b := UInt8.ofNat_toNat
    cases bs with
    | nil =>
      obtain ⟨k, hk⟩ := parseIPv4Fields_appendDecimal b.toNat_lt fields []
      rw [List.append_nil] at hk
      have htext : string4 [b] = appendDecimal b.toNat := by simp [string4, join_singleton]
      rw [htext, hk, parseIPv4Fields, if_neg (by simp at hlen; omega), hb]
    | cons b' bs =>
      have htext : string4 (b :: b' :: bs) = appendDecimal b.toNat ++ dot :: string4 (b' :: bs) := by
        simp only [string4, List.map_cons, join_cons_cons]
      have hmore : string4 (b' :: bs) ≠ [] := by
        cases bs with
        | nil => simp [string4, join_singleton, appendDecimal_ne_nil]
        | cons c bs => simp [string4, join_cons_cons]
      obtain ⟨k, hk⟩ := parseIPv4Fields_appendDecimal b.toNat_lt fields (dot :: string4 (b' :: bs))
      rw [htext, hk, parseIPv4Fields_dot hmore (by simp at hlen; omega), hb,
        ih (List.cons_ne_nil _ _) (fields ++ [b]) (by simp at hlen ⊢; omega)]
      simp

theorem mem_appendDecimal (hx : x < 256) (h : b ∈ appendDecimal x) : Plain b := by
  have hcases : b = digit (x / 100) ∨ b = digit (x / 10 % 10) ∨ b = digit (x % 10) := by
    unfold appendDecimal at h
    simp only [List.mem_append, List.mem_singleton, List.mem_ite_nil_right] at h
    tauto
  rcases hcases with rfl | rfl | rfl
  · exact digit_plain (by omega)
  · exact digit_plain (by omega)
  · exact digit_plain (by omega)

theorem mem_string4 (h : b ∈ string4 ip) : b = dot ∨ Plain b := by
  rcases mem_join h with rfl | ⟨p, hp, hb⟩
  · exact .inl rfl
  · obtain ⟨x, -, rfl⟩ := List.mem_map.mp hp
    exact .inr (mem_appendDecimal x.toNat_lt hb)

theorem parseAddr_string4 (h : ip.length = 4) : parseAddr (string4 ip) = some (.ip4 ip) := by
  have hbytes : ∀ c ∈ string4 ip, c ≠ colon ∧ c ≠ percent := by
    intro c hc
    rcases mem_string4 hc with rfl | hplain
    · decide
    · exact ⟨hplain.ne_colon, hplain.ne_percent⟩
  have hdot : dot ∈ string4 ip := by
    match ip, h with
    | a :: b :: rest, _ => simp [string4, join_cons_cons]
  have hne : ip ≠ [] := by
    rintro rfl
    simp at h
  rw [parseAddr_of_dot hdot hbytes, parseIPv4Fields_join hne [] (by simpa using h)]
  rfl

/-! ### What is accepted has 16 bytes -/

theorem parseIPv4Fields_length {r : Bytes} {val digLen : ℕ} (hf : fields.length ≤ 3)
    (h : parseIPv4Fields fields val digLen s = some r) : r.length = 4 := by
  induction s generalizing fields val digLen with
  | nil =>
    rw [parseIPv4Fields] at h
    split at h
    · cases h
    · cases h
      rw [List.length_append, List.length_singleton]
      omega
  | cons c rest ih =>
    rw [parseIPv4Fields] at h
    split at h
    · split at h
      · cases h
      · split at h
        · cases h
        · exact ih hf h
    · split at h
      · cases h
      · split at h
        · cases h
        · split at h
          · cases h
          · refine ih ?_ h
            rw [List.length_append, List.length_singleton]
            omega

theorem parseGroups_length {ellipsis : Option ℕ} {r : Bytes × Option ℕ × Bytes}
    (hip : ip.length + 2 * fuel ≤ 16) (h : parseGroups fuel ip ellipsis s = some r) :
    r.1.length ≤ 16 := by
  induction fuel generalizing ip ellipsis s with
  | zero =>
    cases h
    exact hip
  | succ fuel ih =>
    have hword : ∀ acc, (ip ++ word acc).length + 2 * fuel ≤ 16 := by
      intro acc
      rw [List.length_append]
      simp only [word, List.length_cons, List.length_nil]
      omega
    have hdone : ∀ acc, (ip ++ word acc).length ≤ 16 := fun acc => by
      have hacc := hword acc
      omega
    rw [parseGroups] at h
    split at h
    · cases h
    · split at h
      · cases h
      · split at h
        · -- an embedded IPv4 address ends the loop
          split at h
          · cases h
          · split at h
            · cases h
            · obtain ⟨fields, hfields, rfl⟩ := Option.map_eq_some_iff.mp h
              have hlen := parseIPv4Fields_length (by simp) hfields
              simp only [List.length_append]
              omega
        · split at h
          · cases h
            exact hdone _
          · split at h
            · cases h
            · split at h
              · split at h
                · cases h
                · split at h
                  · cases h
                    exact hdone _
                  · exact ih (hword _) h
              · exact ih (hword _) h

theorem parseUnzoned_length (h : parseUnzoned s = some ip) : ip.length = 16 := by
  have hexpand : ∀ ell t, (parseGroups 8 [] ell t).bind expand = some ip → ip.length = 16 := by
    intro ell t hbind
    obtain ⟨⟨ip', ell', t'⟩, hgroups, hexp⟩ := Option.bind_eq_some_iff.mp hbind
    have hle : ip'.length ≤ 16 := parseGroups_length (by decide) hgroups
    simp only [expand] at hexp
    split at hexp
    · cases hexp
    · split at hexp
      · split at hexp
        · cases hexp
        · rename_i e
          cases hexp
          have hsplit := congrArg List.length (List.take_append_drop e ip')
          simp only [List.length_append, List.length_replicate] at hsplit ⊢
          omega
      · split at hexp
        · cases hexp
        · cases hexp
          omega
  unfold parseUnzoned at h
  split at h
  · split at h
    · cases h
      rfl
    · exact hexpand _ _ h
  · exact hexpand _ _ h

theorem parseIP_length (h : parseIP s = some ip) : ip.length = 16 := by
  have hsix : ∀ {t zone : Bytes} {addr : Addr},
      (parseUnzoned t).map (fun ip => Addr.ip6 ip zone) = some addr → addr.as16.length = 16 := by
    intro t zone addr hmap
    obtain ⟨ip, hip, rfl⟩ := Option.map_eq_some_iff.mp hmap
    exact parseUnzoned_length hip
  have haddr : ∀ addr, parseAddr s = some addr → addr.as16.length = 16 := by
    intro addr hs
    unfold parseAddr at hs
    split at hs
    · cases hs
    · split at hs
      · obtain ⟨fields, hfields, rfl⟩ := Option.map_eq_some_iff.mp hs
        have hlen := parseIPv4Fields_length (by simp) hfields
        rw [Addr.as16, List.length_append, hlen]
        rfl
      · split at hs
        · unfold parseIPv6 at hs
          split at hs
          · exact hsix hs
          · split at hs
            · cases hs
            · exact hsix hs
        · cases hs
  unfold parseIP at h
  split at h
  · cases h
  · rename_i addr hs
    split at h
    · cases h
    · cases h
      exact haddr addr hs

/-! ### Networks read back -/

theorem le_of_parseDigits {n v : ℕ} (h : parseDigits n s = some v) : n ≤ v := by
  induction s generalizing n with
  | nil => exact (Option.some.inj h).le
  | cons c rest ih =>
    obtain ⟨d, -, hrest⟩ := Option.bind_eq_some_iff.mp h
    have hle := ih hrest
    omega

theorem dtoiLoop_eq {n v : ℕ} (h : parseDigits n s = some v) (hv : v < 0xFFFFFF) :
    dtoiLoop n s = some (v, []) := by
  induction s generalizing n with
  | nil =>
    cases h
    rfl
  | cons c rest ih =>
    obtain ⟨d, hd, hrest⟩ := Option.bind_eq_some_iff.mp h
    have hle := le_of_parseDigits hrest
    rw [dtoiLoop, hd]
    simp only
    rw [if_neg (by omega), ih hrest]

theorem dtoi_decimal (hl : l < 0xFFFFFF) : dtoi (decimal l) = some (l, []) := by
  have hhead : (decimal l).head?.bind digitVal ≠ none := by
    obtain ⟨b, rest, hb⟩ := List.exists_cons_of_ne_nil (decimal_ne_nil l)
    obtain ⟨d, hd, rfl⟩ := decimal_digits l b (by rw [hb]; exact List.mem_cons_self)
    rw [hb, List.head?_cons, Option.bind_some, digitVal_digit hd]
    simp
  rw [dtoi, if_neg hhead, dtoiLoop_eq (parseDigits_decimal l) hl]

theorem parseCIDR_append (hslash : slash ∉ s) (haddr : parseAddr s = some addr)
    (hzone : addr.zone = []) (hl : l ≤ addr.bitLen) :
    parseCIDR (s ++ slash :: decimal l) =
      some ⟨(maskIP addr.as16 (cidrMask l (addr.bitLen / 8))).getD [],
        cidrMask l (addr.bitLen / 8)⟩ := by
  have hbits : addr.bitLen ≤ 128 := by cases addr <;> simp [Addr.bitLen]
  have hdrop : (s ++ slash :: decimal l).drop (s.length + 1) = decimal l := by simp
  rw [parseCIDR, indexByte_append hslash]
  simp only [List.take_left, haddr, hdrop, dtoi_decimal (show l < 0xFFFFFF by omega)]
  rw [if_neg (by simp [hzone]), if_neg (by omega)]

theorem ipString_four (h : ip.length = 4) : ipString ip = string4 ip := by
  have hne : ip ≠ [] := by
    rintro rfl
    simp at h
  rw [ipString, if_neg hne, if_neg (fun hlen => hlen.1 h), to4, if_pos h]

theorem ipString_six (h : ip.length = 16) (h4 : to4 ip = none) : ipString ip = string6 ip := by
  have hne : ip ≠ [] := by
    rintro rfl
    simp at h
  rw [ipString, if_neg hne, if_neg (fun hlen => hlen.2 h), h4]

/- Whatever the family, once the address of the network reads back. -/
theorem parseCIDR_ipNetString (hnn : networkNumberAndMask ⟨ip, m⟩ = some (ip, m))
    (hl : simpleMaskLength m = some l) (hslash : slash ∉ ipString ip)
    (haddr : parseAddr (ipString ip) = some addr) (hzone : addr.zone = []) (hle : l ≤ addr.bitLen)
    (hm : cidrMask l (addr.bitLen / 8) = m) (hmask : maskIP addr.as16 m = some ip) :
    parseCIDR (ipNetString ⟨ip, m⟩) = some ⟨ip, m⟩ := by
  have hparse := parseCIDR_append hslash haddr hzone hle
  rw [hm, hmask, Option.getD_some] at hparse
  rw [ipNetString, hnn]
  simp only [hl, hparse]

/-- A network of IPv4 addresses reads back, if its address has no bits beyond the mask. -/
theorem parseCIDR_ipNetString_four (hip : ip.length = 4) (hm : cidrMask l 4 = m)
    (hmlen : m.length = 4) (hl : simpleMaskLength m = some l) (hle : l ≤ 32)
    (hclear : andBytes ip m = ip) : parseCIDR (ipNetString ⟨ip, m⟩) = some ⟨ip, m⟩ := by
  have hnn : networkNumberAndMask ⟨ip, m⟩ = some (ip, m) := by
    simp [networkNumberAndMask, to4, hip, hmlen]
  have hmask : maskIP (v4InV6Prefix ++ ip) m = some ip := by
    have hfour : (v4InV6Prefix ++ ip).length = 16 := by simp [v4InV6Prefix, hip]
    have hpre : (v4InV6Prefix ++ ip).take 12 = v4InV6Prefix := List.take_left' rfl
    have hdrop : (v4InV6Prefix ++ ip).drop 12 = ip := List.drop_left' rfl
    simp [maskIP, hmlen, hfour, hpre, hdrop, hip, hclear]
  have haddr : parseAddr (ipString ip) = some (.ip4 ip) := by
    rw [ipString_four hip, parseAddr_string4 hip]
  refine parseCIDR_ipNetString hnn hl (fun hmem => ?_) haddr rfl hle ?_ hmask
  · rw [ipString_four hip] at hmem
    rcases mem_string4 hmem with hc | hplain
    · exact absurd hc (by decide)
    · exact hplain.ne_slash rfl
  · simpa only [Addr.bitLen, Nat.reduceDiv] using hm

theorem parseCIDR_ipNetString_six (hip : ip.length = 16) (h4 : to4 ip = none)
    (hm : cidrMask l 16 = m) (hmlen : m.length = 16) (hl : simpleMaskLength m = some l)
    (hle : l ≤ 128) (hclear : andBytes ip m = ip) :
    parseCIDR (ipNetString ⟨ip, m⟩) = some ⟨ip, m⟩ := by
  have hnn : networkNumberAndMask ⟨ip, m⟩ = some (ip, m) := by
    simp [networkNumberAndMask, h4, hip, hmlen]
  have hmask : maskIP ip m = some ip := by
    simp [maskIP, hmlen, hip, hclear]
  have haddr : parseAddr (ipString ip) = some (.ip6 ip []) := by
    rw [ipString_six hip h4, parseAddr_string6 hip]
  refine parseCIDR_ipNetString hnn hl (fun hmem => ?_) haddr rfl hle ?_ hmask
  · rw [ipString_six hip h4] at hmem
    rcases mem_string6 hmem with hc | hplain
    · exact absurd hc (by decide)
    · exact hplain.ne_slash rfl
  · simpa only [Addr.bitLen, Nat.reduceDiv] using hm

/-! ### The text is ASCII -/

theorem hex_ascii (bs : Bytes) : ∀ b ∈ hex bs, b < 128 := by
  intro b hb
  obtain ⟨x, -, hx⟩ := List.mem_flatMap.mp hb
  have hlt := x.toNat_lt
  rcases List.mem_cons.mp hx with rfl | hx
  · exact (hexDigit_plain (by omega)).ascii
  · rw [List.mem_singleton.mp hx]
    exact (hexDigit_plain (by omega)).ascii

theorem ipString_ascii (ip : Bytes) : ∀ b ∈ ipString ip, b < 128 := by
  unfold ipString
  split
  · decide +kernel
  · split
    · intro b hb
      rcases List.mem_cons.mp hb with rfl | hb
      · decide
      · exact hex_ascii ip b hb
    · split
      · intro b hb
        rcases mem_string4 hb with rfl | hplain
        · decide
        · exact hplain.ascii
      · intro b hb
        rcases mem_string6 hb with rfl | hplain
        · decide
        · exact hplain.ascii

theorem ipNetString_ascii (n : IPNet) : ∀ b ∈ ipNetString n, b < 128 := by
  have happend : ∀ {s t : Bytes}, (∀ b ∈ s, b < 128) → (∀ b ∈ t, b < 128) →
      ∀ b ∈ s ++ slash :: t, b < 128 := by
    intro s t hs ht b hb
    rcases List.mem_append.mp hb with hb | hb
    · exact hs b hb
    · rcases List.mem_cons.mp hb with rfl | hb
      · decide
      · exact ht b hb
  unfold ipNetString
  split
  · decide +kernel
  · split
    · refine happend (ipString_ascii _) fun b hb => ?_
      obtain ⟨d, hd, rfl⟩ := decimal_digits _ b hb
      exact (digit_plain hd).ascii
    · exact happend (ipString_ascii _) (hex_ascii _)

end EdgeDispatch.Lib.NetAddr
