import EdgeDispatch.Lib.ByteString
import Mathlib.Data.List.Infix

/-! # Functions of Go's strings package, on the bytes of a string -/

namespace EdgeDispatch.Lib.GoStrings
open Lib.ByteString

/- The bytes of an ASCII literal. -/
def lit (s : String) : Bytes := s.toList.map fun c => UInt8.ofNat c.toNat

/- A byte string as text, with one character a byte. -/
def text (s : Bytes) : String := String.ofList (s.map fun b => Char.ofNat b.toNat)

theorem lit_text (s : Bytes) : lit (text s) = s := by
  unfold lit text
  rw [String.toList_ofList, List.map_map]
  refine (List.map_congr_left fun b _ => ?_).trans (List.map_id s)
  show UInt8.ofNat (Char.ofNat b.toNat).toNat = b
  have hb : b.toNat < 256 := b.toNat_lt
  have hvalid : b.toNat.isValidChar := .inl (by omega)
  have hchar : (Char.ofNat b.toNat).toNat = b.toNat := by
    rw [Char.ofNat, dif_pos hvalid]
    rfl
  rw [hchar, UInt8.ofNat_toNat]

def hasPrefix (s p : Bytes) : Bool := p.isPrefixOf s
def trimPrefix (s p : Bytes) : Bytes := if hasPrefix s p then s.drop p.length else s
def contains (s sub : Bytes) : Bool := s.tails.any fun t => hasPrefix t sub
def hasSuffix (s p : Bytes) : Bool := p.isSuffixOf s
def trimSuffix (s p : Bytes) : Bytes := if hasSuffix s p then s.take (s.length - p.length) else s

/- `strings.ToLower` on ASCII letters; other bytes stay. -/
def lowerByte (b : Byte) : Byte := if 65 ≤ b ∧ b ≤ 90 then b + 32 else b

def toLower (s : Bytes) : Bytes := s.map lowerByte

theorem trimPrefix_append (p s : Bytes) : trimPrefix (p ++ s) p = s := by
  rw [trimPrefix, if_pos (by simp [hasPrefix]), List.drop_left]

variable {s : Bytes} {cut parts : List Bytes} {b c : Byte}

theorem hasSuffix_iff {p : Bytes} : hasSuffix s p = true ↔ p <:+ s := List.isSuffixOf_iff_suffix

theorem trimSuffix_nil (p : Bytes) : trimSuffix [] p = [] := by simp [trimSuffix]

theorem trimSuffix_append (s p : Bytes) : trimSuffix (s ++ p) p = s := by
  rw [trimSuffix, if_pos (hasSuffix_iff.mpr (List.suffix_append s p)), List.length_append,
    Nat.add_sub_cancel, List.take_left]

theorem trimSuffix_of_not_suffix {p : Bytes} (h : ¬ p <:+ s) : trimSuffix s p = s :=
  if_neg (hasSuffix_iff.not.mpr h)

/- The UTF-8 encodings of the characters that `unicode.IsSpace` accepts. -/
def spaces : List Bytes :=
  [[9], [10], [11], [12], [13], [32], [0xC2, 0x85], [0xC2, 0xA0], [0xE1, 0x9A, 0x80],
    [0xE2, 0x80, 0xA8], [0xE2, 0x80, 0xA9], [0xE2, 0x80, 0xAF], [0xE2, 0x81, 0x9F],
    [0xE3, 0x80, 0x80]] ++ (List.range 11).map fun i => [0xE2, 0x80, 0x80 + UInt8.ofNat i]

/- Strips members of `cut` from the front; each takes a byte at least. -/
def stripFront (cut : List Bytes) : ℕ → Bytes → Bytes
  | 0, s => s
  | fuel + 1, s =>
    match cut.find? fun c => hasPrefix s c with
    | some c => stripFront cut fuel (s.drop c.length)
    | none => s

def trimLeftSpace (s : Bytes) : Bytes := stripFront spaces s.length s
def trimRightSpace (s : Bytes) : Bytes :=
  (stripFront (spaces.map List.reverse) s.length s.reverse).reverse
def trimSpace (s : Bytes) : Bytes := trimRightSpace (trimLeftSpace s)

/-! ### What is not white space is not trimmed -/

theorem spaces_ne_nil : ∀ c ∈ spaces, c ≠ [] := by decide

theorem stripFront_cons (hcut : ∀ c ∈ cut, c ≠ [] ∧ b ∉ c) (fuel : ℕ) (s : Bytes) :
    stripFront cut fuel (b :: s) = b :: s := by
  cases fuel with
  | zero => rfl
  | succ fuel =>
    have hnone : (cut.find? fun c => hasPrefix (b :: s) c) = none := by
      rw [List.find?_eq_none]
      intro c hc
      cases c with
      | nil => exact absurd rfl (hcut [] hc).1
      | cons x xs =>
        have hx : x ≠ b := fun he => (hcut _ hc).2 (he ▸ List.mem_cons_self)
        simp [hasPrefix, hx]
    unfold stripFront
    rw [hnone]

/- A word without `b` that starts `s ++ b :: t` ends before `b`. -/
theorem prefix_of_prefix_append {c t : Bytes} (hb : b ∉ c) (h : c <+: s ++ b :: t) : c <+: s := by
  rcases Nat.lt_or_ge s.length c.length with hlt | hge
  · have hfront : s ++ [b] <+: s ++ b :: t := ⟨t, by simp⟩
    have hlen : (s ++ [b]).length ≤ c.length := by
      rw [List.length_append, List.length_singleton]
      exact hlt
    have hs := List.prefix_of_prefix_length_le hfront h hlen
    exact absurd (hs.subset (by simp)) hb
  · exact List.prefix_of_prefix_length_le h (List.prefix_append s _) hge

/- A byte that is in no word of `cut` stays, with all that follows it. -/
theorem stripFront_keeps (hcut : ∀ c ∈ cut, b ∉ c) (fuel : ℕ) (s rest : Bytes) :
    ∃ s', stripFront cut fuel (s ++ b :: rest) = s' ++ b :: rest := by
  induction fuel generalizing s with
  | zero => exact ⟨s, rfl⟩
  | succ fuel ih =>
    unfold stripFront
    split
    · rename_i c hc
      have hpre : c <+: s ++ b :: rest := by
        simpa [hasPrefix] using List.find?_some hc
      have hs : c <+: s := prefix_of_prefix_append (hcut c (List.mem_of_find?_eq_some hc)) hpre
      rw [List.drop_append_of_le_length hs.length_le]
      exact ih _
    · exact ⟨s, rfl⟩

theorem notMem_reversed (hb : ∀ c ∈ spaces, b ∉ c) : ∀ c ∈ spaces.map List.reverse, b ∉ c := by
  intro c hc
  obtain ⟨c', hc', rfl⟩ := List.mem_map.mp hc
  rw [List.mem_reverse]
  exact hb c' hc'

theorem trimSpace_cons_ne_nil (hb : ∀ c ∈ spaces, b ∉ c) (s : Bytes) : trimSpace (b :: s) ≠ [] := by
  have hleft : trimLeftSpace (b :: s) = b :: s :=
    stripFront_cons (fun c hc => ⟨spaces_ne_nil c hc, hb c hc⟩) _ s
  obtain ⟨s', hs'⟩ := stripFront_keeps (notMem_reversed hb) (b :: s).length s.reverse []
  unfold trimSpace trimRightSpace
  rw [hleft, List.reverse_cons, hs']
  simp

/-! ### Searching and splitting at one byte -/

def indexByte (c : Byte) : Bytes → Option ℕ
  | [] => none
  | b :: rest => if b = c then some 0 else (indexByte c rest).map (· + 1)

def lastIndexByte (c : Byte) : Bytes → Option ℕ
  | [] => none
  | b :: rest =>
    match lastIndexByte c rest with
    | some i => some (i + 1)
    | none => if b = c then some 0 else none

/- `strings.LastIndex`; the result -1 is `none`. -/
def lastIndex (sub : Bytes) : Bytes → Option ℕ
  | [] => if sub = [] then some 0 else none
  | b :: rest =>
    match lastIndex sub rest with
    | some i => some (i + 1)
    | none => if hasPrefix (b :: rest) sub then some 0 else none

def split (c : Byte) : Bytes → List Bytes
  | [] => [[]]
  | b :: rest =>
    if b = c then [] :: split c rest
    else match split c rest with
      | [] => [[b]]
      | part :: parts => (b :: part) :: parts

theorem indexByte_eq_none : indexByte c s = none ↔ c ∉ s := by
  induction s with
  | nil => simp [indexByte]
  | cons b rest ih =>
    by_cases hb : b = c
    · simp [indexByte, hb]
    · simp [indexByte, hb, ih, Ne.symm hb]

theorem indexByte_append (h : c ∉ s) (rest : Bytes) :
    indexByte c (s ++ c :: rest) = some s.length := by
  induction s with
  | nil => simp [indexByte]
  | cons b s ih =>
    obtain ⟨hb, hs⟩ : c ≠ b ∧ c ∉ s := by simpa using h
    simp [indexByte, Ne.symm hb, ih hs]

theorem lastIndexByte_eq_none : lastIndexByte c s = none ↔ c ∉ s := by
  induction s with
  | nil => simp [lastIndexByte]
  | cons b rest ih =>
    unfold lastIndexByte
    cases hr : lastIndexByte c rest with
    | some i =>
      have hmem : c ∈ rest := by
        by_contra hc
        rw [ih.mpr hc] at hr
        cases hr
      simp [hmem]
    | none => simp [ih.mp hr, eq_comm]

theorem lastIndexByte_append (s : Bytes) {rest : Bytes} (h : c ∉ rest) :
    lastIndexByte c (s ++ c :: rest) = some s.length := by
  induction s with
  | nil => simp [lastIndexByte, lastIndexByte_eq_none.mpr h]
  | cons b s ih => simp [lastIndexByte, ih]

theorem lastIndex_eq_none {w : Bytes} (h : c ∉ s) : lastIndex (c :: w) s = none := by
  induction s with
  | nil => simp [lastIndex]
  | cons b rest ih =>
    obtain ⟨hb, hrest⟩ : c ≠ b ∧ c ∉ rest := by simpa using h
    have hpre : hasPrefix (b :: rest) (c :: w) = false := by
      simp [hasPrefix, List.isPrefixOf, hb]
    rw [lastIndex, ih hrest]
    simp [hpre]

/- No later occurrence can start where the first byte does not stand. -/
theorem lastIndex_append (s : Bytes) {w rest : Bytes} (h : c ∉ w ++ rest) :
    lastIndex (c :: w) (s ++ c :: (w ++ rest)) = some s.length := by
  induction s with
  | nil =>
    have hpre : hasPrefix (c :: (w ++ rest)) (c :: w) = true := by simp [hasPrefix]
    rw [List.nil_append, lastIndex, lastIndex_eq_none h]
    simp [hpre]
  | cons b s ih => simp [lastIndex, ih]

/- The last separator splits a string in one way only. -/
theorem append_cons_inj {s' w w' : Bytes} (hw : c ∉ w) (hw' : c ∉ w')
    (h : s ++ c :: w = s' ++ c :: w') : s = s' ∧ w = w' := by
  have hlast := congrArg (lastIndexByte c) h
  rw [lastIndexByte_append s hw, lastIndexByte_append s' hw'] at hlast
  obtain ⟨hs, hcons⟩ := List.append_inj h (Option.some.inj hlast)
  exact ⟨hs, (List.cons.inj hcons).2⟩

theorem split_ne_nil (c : Byte) (s : Bytes) : split c s ≠ [] := by
  cases s with
  | nil => simp [split]
  | cons b rest =>
    unfold split
    split
    · simp
    · split <;> simp

theorem split_of_notMem (h : c ∉ s) : split c s = [s] := by
  induction s with
  | nil => rfl
  | cons b rest ih =>
    obtain ⟨hb, hrest⟩ : c ≠ b ∧ c ∉ rest := by simpa using h
    simp [split, Ne.symm hb, ih hrest]

theorem split_append (c : Byte) (s rest : Bytes) :
    split c (s ++ c :: rest) = split c s ++ split c rest := by
  induction s with
  | nil => simp [split]
  | cons b s ih =>
    by_cases hb : b = c
    · simp [split, hb, ih]
    · cases hs : split c s with
      | nil => exact absurd hs (split_ne_nil c s)
      | cons part parts => simp [split, hb, ih, hs]

theorem lastIndexByte_eq_some {i : ℕ} (h : lastIndexByte c s = some i) :
    ∃ before after, s = before ++ c :: after ∧ c ∉ after ∧ before.length = i := by
  induction s generalizing i with
  | nil => cases h
  | cons b rest ih =>
    unfold lastIndexByte at h
    cases hr : lastIndexByte c rest with
    | some k =>
      rw [hr] at h
      cases h
      obtain ⟨before, after, rfl, hafter, hlen⟩ := ih hr
      exact ⟨b :: before, after, rfl, hafter, by rw [List.length_cons, hlen]⟩
    | none =>
      rw [hr] at h
      simp only at h
      split at h
      · rename_i hb
        cases h
        exact ⟨[], rest, by rw [hb]; rfl, lastIndexByte_eq_none.mp hr, rfl⟩
      · cases h

/- The last part begins after the last separator. -/
theorem split_getLast? {i : ℕ} (h : lastIndexByte c s = some i) :
    (split c s).getLast? = some (s.drop (i + 1)) := by
  obtain ⟨before, after, rfl, hafter, rfl⟩ := lastIndexByte_eq_some h
  rw [split_append, split_of_notMem hafter]
  simp

/-! ### Trimming what is trimmed, and joining it -/

/-- No white space at either end. -/
structure Trimmed (s : Bytes) : Prop where
  front : ∀ c ∈ spaces, ¬ c <+: s
  back : ∀ c ∈ spaces, ¬ c <:+ s

theorem stripFront_suffix (cut : List Bytes) (fuel : ℕ) (s : Bytes) :
    stripFront cut fuel s <:+ s := by
  induction fuel generalizing s with
  | zero => exact List.suffix_refl s
  | succ fuel ih =>
    unfold stripFront
    split
    · exact (ih _).trans (List.drop_suffix _ s)
    · exact List.suffix_refl s

theorem find?_hasPrefix_none :
    (cut.find? fun c => hasPrefix s c) = none ↔ ∀ c ∈ cut, ¬ c <+: s := by
  simp [hasPrefix]

theorem stripFront_of_none (h : ∀ c ∈ cut, ¬ c <+: s) (fuel : ℕ) : stripFront cut fuel s = s := by
  cases fuel with
  | zero => rfl
  | succ fuel =>
    unfold stripFront
    rw [find?_hasPrefix_none.mpr h]

theorem stripFront_none (hcut : ∀ c ∈ cut, c ≠ []) {fuel : ℕ} (hfuel : s.length ≤ fuel) :
    ∀ c ∈ cut, ¬ c <+: stripFront cut fuel s := by
  induction fuel generalizing s with
  | zero =>
    intro c hc hpre
    have hs : s = [] := List.length_eq_zero_iff.mp (Nat.le_zero.mp hfuel)
    rw [stripFront, hs] at hpre
    exact hcut c hc (List.prefix_nil.mp hpre)
  | succ fuel ih =>
    unfold stripFront
    split
    · rename_i c hc
      have hpos := List.length_pos_iff.mpr (hcut c (List.mem_of_find?_eq_some hc))
      apply ih
      rw [List.length_drop]
      omega
    · rename_i hnone
      exact find?_hasPrefix_none.mp hnone

theorem trimRightSpace_isPrefix (s : Bytes) : trimRightSpace s <+: s := by
  have hsuf := stripFront_suffix (spaces.map List.reverse) s.length s.reverse
  simpa [trimRightSpace] using List.reverse_prefix.mpr hsuf

theorem trimSpace_trimmed (s : Bytes) : Trimmed (trimSpace s) where
  front c hc hpre := by
    have hleft := stripFront_none spaces_ne_nil (le_refl s.length) c hc
    exact hleft (hpre.trans (trimRightSpace_isPrefix _))
  back c hc hsuf := by
    have hcut : ∀ c ∈ spaces.map List.reverse, c ≠ [] := by
      intro c hc
      obtain ⟨c', hc', rfl⟩ := List.mem_map.mp hc
      simpa using spaces_ne_nil c' hc'
    have hright := stripFront_none hcut (le_of_eq (trimLeftSpace s).length_reverse) c.reverse
      (List.mem_map_of_mem hc)
    apply hright
    simpa [trimSpace, trimRightSpace] using List.reverse_prefix.mpr hsuf

theorem trimSpace_of_trimmed (h : Trimmed s) : trimSpace s = s := by
  have hleft : trimLeftSpace s = s := stripFront_of_none h.front _
  have hright : ∀ c ∈ spaces.map List.reverse, ¬ c <+: s.reverse := by
    intro c hc
    obtain ⟨c', hc', rfl⟩ := List.mem_map.mp hc
    rw [ List.reverse_prefix]
    exact h.back c' hc'
  rw [trimSpace, hleft, trimRightSpace, stripFront_of_none hright, List.reverse_reverse]

theorem trimSpace_isInfix (s : Bytes) : trimSpace s <:+: s :=
  (trimRightSpace_isPrefix _).isInfix.trans (stripFront_suffix _ _ s).isInfix

theorem mem_of_mem_trimSpace (h : b ∈ trimSpace s) : b ∈ s :=
  (trimSpace_isInfix s).subset h

/- What is stripped is made of members of `cut`. -/
theorem stripFront_split (cut : List Bytes) (fuel : ℕ) (s : Bytes) :
    ∃ l, s = l ++ stripFront cut fuel s ∧ ∀ b ∈ l, ∃ c ∈ cut, b ∈ c := by
  induction fuel generalizing s with
  | zero => exact ⟨[], rfl, fun b hb => absurd hb List.not_mem_nil⟩
  | succ fuel ih =>
    unfold stripFront
    split
    · rename_i c hc
      obtain ⟨l, hl, hbytes⟩ := ih (s.drop c.length)
      have hpre : c <+: s := by simpa [hasPrefix] using List.find?_some hc
      obtain ⟨rest, rfl⟩ := hpre
      rw [List.drop_left] at hl ⊢
      refine ⟨c ++ l, by rw [List.append_assoc, ← hl], fun b hb => ?_⟩
      rcases List.mem_append.mp hb with hb | hb
      · exact ⟨c, List.mem_of_find?_eq_some hc, hb⟩
      · exact hbytes b hb
    · exact ⟨[], rfl, fun b hb => absurd hb List.not_mem_nil⟩

theorem trimSpace_split (s : Bytes) :
    ∃ l r, s = l ++ trimSpace s ++ r ∧ ∀ b ∈ l ++ r, ∃ c ∈ spaces, b ∈ c := by
  obtain ⟨l, hl, hleft⟩ := stripFront_split spaces s.length s
  obtain ⟨r, hr, hright⟩ := stripFront_split (spaces.map List.reverse)
    (trimLeftSpace s).length (trimLeftSpace s).reverse
  have hr' : trimLeftSpace s = trimSpace s ++ r.reverse := by
    rw [← (trimLeftSpace s).reverse_reverse, hr, List.reverse_append]
    rfl
  refine ⟨l, r.reverse, ?_, fun b hb => ?_⟩
  · rw [List.append_assoc, ← hr']
    exact hl
  · rcases List.mem_append.mp hb with hb | hb
    · exact hleft b hb
    · obtain ⟨c, hc, hbc⟩ := hright b (List.mem_reverse.mp hb)
      obtain ⟨c', hc', rfl⟩ := List.mem_map.mp hc
      exact ⟨c', hc', List.mem_reverse.mp hbc⟩

/- `strings.Join` with a separator of one byte. -/
def join (c : Byte) (parts : List Bytes) : Bytes := [c].intercalate parts

theorem join_singleton (c : Byte) (p : Bytes) : join c [p] = p := by simp [join, List.intercalate]

theorem join_cons_cons (c : Byte) (p q : Bytes) (parts : List Bytes) :
    join c (p :: q :: parts) = p ++ c :: join c (q :: parts) := by
  simp [join, List.intercalate]

theorem join_append {elems more : List Bytes} (he : elems ≠ []) (hm : more ≠ []) :
    join c (elems ++ more) = join c elems ++ c :: join c more := by
  induction elems with
  | nil => exact absurd rfl he
  | cons e elems ih =>
    cases elems with
    | nil =>
      obtain ⟨m, more, rfl⟩ := List.exists_cons_of_ne_nil hm
      rw [List.cons_append, List.nil_append, join_cons_cons]
      simp [join, List.intercalate]
    | cons e' elems =>
      rw [List.cons_append, List.cons_append, join_cons_cons, join_cons_cons, ← List.cons_append,
        ih (List.cons_ne_nil _ _)]
      simp

theorem join_length (hne : parts ≠ []) :
    (join c parts).length + 1 = (parts.map fun p => p.length + 1).sum := by
  induction parts with
  | nil => exact absurd rfl hne
  | cons p parts ih =>
    cases parts with
    | nil => simp [join_singleton]
    | cons q parts =>
      have ih := ih (List.cons_ne_nil _ _)
      rw [join_cons_cons, List.map_cons, List.sum_cons, ← ih, List.length_append, List.length_cons]
      omega

/- The parts have the bytes of the string, less the separator. -/
theorem mem_split : ∀ p ∈ split c s, c ∉ p ∧ p ⊆ s := by
  induction s with
  | nil => simp [split]
  | cons b rest ih =>
    intro p hp
    unfold split at hp
    split at hp
    · rcases List.mem_cons.mp hp with rfl | hp
      · exact ⟨List.not_mem_nil, List.nil_subset _⟩
      · obtain ⟨hc, hsub⟩ := ih p hp
        exact ⟨hc, List.subset_cons_of_subset b hsub⟩
    · rename_i hb
      cases hs : split c rest with
      | nil => exact absurd hs (split_ne_nil c rest)
      | cons part parts =>
        rw [hs] at hp ih
        rcases List.mem_cons.mp hp with rfl | hp
        · obtain ⟨hc, hsub⟩ := ih part List.mem_cons_self
          exact ⟨by simpa [Ne.symm hb] using hc, List.cons_subset_cons b hsub⟩
        · obtain ⟨hc, hsub⟩ := ih p (List.mem_cons_of_mem part hp)
          exact ⟨hc, List.subset_cons_of_subset b hsub⟩

theorem split_join (hne : parts ≠ []) (h : ∀ p ∈ parts, c ∉ p) :
    split c (join c parts) = parts := by
  induction parts with
  | nil => exact absurd rfl hne
  | cons p parts ih =>
    have hp := split_of_notMem (h p List.mem_cons_self)
    cases parts with
    | nil => simpa [join, List.intercalate] using hp
    | cons q parts =>
      rw [join_cons_cons, split_append, hp,
        ih (List.cons_ne_nil q parts) fun r hr => h r (List.mem_cons_of_mem p hr)]
      rfl

theorem mem_join (h : b ∈ join c parts) : b = c ∨ ∃ p ∈ parts, b ∈ p := by
  induction parts with
  | nil => simp [join, List.intercalate] at h
  | cons p parts ih =>
    cases parts with
    | nil => exact .inr ⟨p, List.mem_cons_self, by simpa [join, List.intercalate] using h⟩
    | cons q parts =>
      rw [join_cons_cons] at h
      rcases List.mem_append.mp h with h | h
      · exact .inr ⟨p, List.mem_cons_self, h⟩
      · rcases List.mem_cons.mp h with rfl | h
        · exact .inl rfl
        · rcases ih h with rfl | ⟨r, hr, hbr⟩
          · exact .inl rfl
          · exact .inr ⟨r, List.mem_cons_of_mem p hr, hbr⟩

/- Trimmed parts around separators that are no white space make a trimmed string. -/
theorem Trimmed.join (hc : ∀ w ∈ spaces, c ∉ w) (h : ∀ p ∈ parts, Trimmed p) :
    Trimmed (join c parts) := by
  induction parts with
  | nil =>
    constructor
    · intro w hw hpre
      exact spaces_ne_nil w hw (List.prefix_nil.mp hpre)
    · intro w hw hsuf
      exact spaces_ne_nil w hw (List.suffix_nil.mp hsuf)
  | cons p parts ih =>
    have hp := h p List.mem_cons_self
    cases parts with
    | nil => simpa [GoStrings.join, List.intercalate] using hp
    | cons q parts =>
      have hrest := ih fun r hr => h r (List.mem_cons_of_mem p hr)
      rw [join_cons_cons]
      constructor
      · intro w hw hpre
        exact hp.front w hw (prefix_of_prefix_append (hc w hw) hpre)
      · intro w hw hsuf
        have hrev := List.reverse_prefix.mpr hsuf
        rw [List.reverse_append, List.reverse_cons, List.append_assoc, List.singleton_append]
          at hrev
        have hw' : c ∉ w.reverse := by simpa using hc w hw
        have hback := prefix_of_prefix_append hw' hrev
        rw [ List.reverse_prefix] at hback
        exact hrest.back w hw hback

/-! ### Strings inside strings -/

theorem contains_iff (s sub : Bytes) : contains s sub = true ↔ sub <:+: s := by
  rw [List.infix_iff_prefix_suffix]
  simp [contains, hasPrefix, List.mem_tails, and_comm]

/- Trimming takes nothing of what has no white space in it. -/
theorem infix_trimSpace_iff {sub : Bytes} (hne : sub ≠ []) (h : ∀ b ∈ sub, ∀ c ∈ spaces, b ∉ c)
    (s : Bytes) : sub <:+: trimSpace s ↔ sub <:+: s := by
  refine ⟨fun hsub => hsub.trans (trimSpace_isInfix s), ?_⟩
  rintro ⟨front, back, rfl⟩
  obtain ⟨b, mid, rfl⟩ := List.exists_cons_of_ne_nil hne
  obtain ⟨front', hfront⟩ : ∃ front', trimLeftSpace (front ++ b :: mid ++ back) =
      front' ++ (b :: mid ++ back) := by
    rw [List.append_assoc]
    exact stripFront_keeps (h b List.mem_cons_self) _ front (mid ++ back)
  -- the same from the other end, where the last byte of `sub` stops the trimming
  obtain ⟨init, last, hlast⟩ := List.eq_nil_or_concat (b :: mid) |>.resolve_left hne
  rw [List.concat_eq_append] at hlast
  obtain ⟨back', hback⟩ := stripFront_keeps
    (notMem_reversed (h last (by rw [hlast]; simp))) (front' ++ (b :: mid ++ back)).length
    back.reverse (init.reverse ++ front'.reverse)
  have hrev : (front' ++ (b :: mid ++ back)).reverse =
      back.reverse ++ last :: (init.reverse ++ front'.reverse) := by
    rw [hlast]
    simp
  refine ⟨front', back'.reverse, ?_⟩
  rw [trimSpace, hfront, trimRightSpace, hrev, hback, hlast]
  simp

theorem infix_of_infix_map {f : Byte → Byte} {sub : Bytes} (hf : ∀ b, f b ∈ sub → f b = b)
    (h : sub <:+: s.map f) : sub <:+: s := by
  obtain ⟨front, back, heq⟩ := h
  obtain ⟨s₁, s₃, rfl, hs₁, -⟩ := List.map_eq_append_iff.mp heq.symm
  obtain ⟨s₀, s₂, rfl, -, hs₂⟩ := List.map_eq_append_iff.mp hs₁
  have hsame : s₂.map f = s₂ := by
    refine (List.map_congr_left fun b hb => ?_).trans (List.map_id _)
    exact hf b (hs₂ ▸ List.mem_map_of_mem hb)
  exact ⟨s₀, s₃, by rw [← hs₂, hsame]⟩

theorem infix_append_cons {sub t : Bytes} (hc : c ∉ sub) (h : sub <:+: s ++ c :: t) :
    sub <:+: s ∨ sub <:+: t := by
  obtain ⟨x, y, hxy⟩ := h
  rw [List.append_assoc] at hxy
  -- where `sub` begins, and where it ends if it begins in `s`
  rcases List.append_eq_append_iff.mp hxy with ⟨a, rfl, ha⟩ | ⟨a, rfl, ha⟩
  · rcases List.append_eq_append_iff.mp ha with ⟨d, rfl, -⟩ | ⟨d, rfl, hd⟩
    · exact Or.inl ⟨x, d, by simp⟩
    · cases d with
      | nil => exact Or.inl ⟨x, [], by simp⟩
      | cons b d =>
        obtain ⟨rfl, -⟩ := List.cons.inj hd
        exact absurd (by simp) hc
  · cases a with
    | nil =>
      cases sub with
      | nil => exact Or.inl List.nil_infix
      | cons b sub =>
        obtain ⟨rfl, -⟩ := List.cons.inj ha
        exact absurd List.mem_cons_self hc
    | cons b a =>
      obtain ⟨-, rfl⟩ := List.cons.inj ha
      exact Or.inr ⟨a, y, by simp⟩

theorem infix_join_iff {sub : Bytes} (hne : sub ≠ []) (hc : c ∉ sub) (parts : List Bytes) :
    sub <:+: join c parts ↔ ∃ p ∈ parts, sub <:+: p := by
  induction parts with
  | nil => simp [join, List.intercalate, hne]
  | cons p parts ih =>
    cases parts with
    | nil => simp [join, List.intercalate]
    | cons q parts =>
      rw [join_cons_cons, List.exists_mem_cons_iff, ← ih]
      constructor
      · exact infix_append_cons hc
      · rintro (h | h)
        · exact h.trans (List.prefix_append _ _).isInfix
        · exact h.trans ((List.suffix_cons _ _).trans (List.suffix_append _ _)).isInfix

theorem join_split (c : Byte) (s : Bytes) : join c (split c s) = s := by
  induction s with
  | nil => rfl
  | cons b rest ih =>
    unfold split
    split
    · rename_i hb
      cases hs : split c rest with
      | nil => exact absurd hs (split_ne_nil c rest)
      | cons part parts =>
        rw [join_cons_cons, ← hs, ih, hb]
        rfl
    · cases hs : split c rest with
      | nil => exact absurd hs (split_ne_nil c rest)
      | cons part parts =>
        rw [hs] at ih
        rw [← ih]
        cases parts with
        | nil => simp [join, List.intercalate]
        | cons q parts => simp [join_cons_cons]

theorem notMem_of_split_singleton (h : (split c s).length = 1) : c ∉ s := by
  obtain ⟨p, hp⟩ := List.length_eq_one_iff.mp h
  have hs : s = p := by rw [← join_split c s, hp, join_singleton]
  have hnot := (mem_split (c := c) (s := s) p (hp ▸ List.mem_singleton_self p)).1
  rwa [hs]

theorem length_split_join_cons (c : Byte) (p q : Bytes) (parts : List Bytes) :
    (split c (join c (p :: q :: parts))).length =
      (split c p).length + (split c (join c (q :: parts))).length := by
  rw [join_cons_cons, split_append, List.length_append]

theorem length_le_split_join (c : Byte) (parts : List Bytes) :
    parts.length ≤ (split c (join c parts)).length := by
  induction parts with
  | nil => exact Nat.zero_le _
  | cons p parts ih =>
    have hp : 0 < (split c p).length := List.length_pos_of_ne_nil (split_ne_nil c p)
    cases parts with
    | nil => rwa [join_singleton]
    | cons q parts =>
      rw [length_split_join_cons, List.length_cons (a := p)]
      omega

/-- Parts that are split into no more than there were do not have the separator. -/
theorem notMem_of_split_join (h : (split c (join c parts)).length = parts.length) :
    ∀ p ∈ parts, c ∉ p := by
  induction parts with
  | nil => exact List.forall_mem_nil _
  | cons p parts ih =>
    cases parts with
    | nil =>
      rw [join_singleton] at h
      exact List.forall_mem_singleton.mpr (notMem_of_split_singleton h)
    | cons q parts =>
      have hp : 0 < (split c p).length := List.length_pos_of_ne_nil (split_ne_nil c p)
      have hrest := length_le_split_join c (q :: parts)
      rw [length_split_join_cons, List.length_cons (a := p)] at h
      have hfirst : (split c p).length = 1 := by omega
      exact List.forall_mem_cons.mpr ⟨notMem_of_split_singleton hfirst, ih (by omega)⟩

/-! ### Replacing -/

/- `strings.ReplaceAll` for an `old` that is not empty; every step takes a byte at least. -/
def replaceFrom (old new : Bytes) : ℕ → Bytes → Bytes
  | 0, s => s
  | _, [] => []
  | fuel + 1, b :: rest =>
    if hasPrefix (b :: rest) old then new ++ replaceFrom old new fuel ((b :: rest).drop old.length)
    else b :: replaceFrom old new fuel rest

def replaceAll (s old new : Bytes) : Bytes := replaceFrom old new s.length s

theorem notMem_replaceFrom {old new : Bytes} (hnew : b ∉ new) (fuel : ℕ) (hs : b ∉ s) :
    b ∉ replaceFrom old new fuel s := by
  fun_induction replaceFrom old new fuel s with
  | case1 s => exact hs
  | case2 fuel => exact List.not_mem_nil
  | case3 fuel c rest hpre ih =>
    have hdrop : b ∉ (c :: rest).drop old.length := fun hmem => hs (List.mem_of_mem_drop hmem)
    simp only [List.mem_append, not_or]
    exact ⟨hnew, ih hdrop⟩
  | case4 fuel c rest hpre ih =>
    simp only [List.mem_cons, not_or] at hs ⊢
    exact ⟨hs.1, ih hs.2⟩

theorem notMem_replaceAll {old new : Bytes} (hs : b ∉ s) (hnew : b ∉ new) :
    b ∉ replaceAll s old new :=
  notMem_replaceFrom hnew s.length hs

end EdgeDispatch.Lib.GoStrings
