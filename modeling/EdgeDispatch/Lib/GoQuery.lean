import EdgeDispatch.Lib.GoURL
import Mathlib.Data.List.Dedup
import Mathlib.Data.List.Sort

/-! # Query strings in Go's net/url

`ParseQuery`, `Values.Set` and `Values.Encode`; the values are the pairs in the order in which
they were added. -/

namespace EdgeDispatch.Lib.GoQuery
open Lib.ByteString Lib.GoStrings Lib.GoURL

abbrev Pair := Bytes × Bytes

/- `strings.Cut` at one byte. -/
def cut (c : Byte) (s : Bytes) : Bytes × Bytes :=
  (s.takeWhile (· ≠ c), (s.dropWhile (· ≠ c)).drop 1)

def unplus (b : Byte) : Byte := if b = 43 then 32 else b

/- Plus signs are no part of an escape, so they may be replaced first. -/
def queryUnescape (s : Bytes) : Option Bytes := pathUnescape (s.map unplus)

/- A semicolon is an error. -/
def parsePair (piece : Bytes) : Option Pair :=
  if 59 ∈ piece then none
  else (queryUnescape (cut 61 piece).1).bind fun key =>
    (queryUnescape (cut 61 piece).2).map fun value => (key, value)

def pieces (query : Bytes) : List Bytes := (split 38 query).filter (· ≠ [])

/-- The pairs that could be read, and whether all could. -/
def parseQuery (query : Bytes) : List Pair × Bool :=
  ((pieces query).filterMap parsePair, (pieces query).all fun p => (parsePair p).isSome)

def values (pairs : List Pair) (name : Bytes) : List Bytes :=
  (pairs.filter fun p => p.1 = name).map Prod.snd

def set (pairs : List Pair) (name value : Bytes) : List Pair :=
  (pairs.filter fun p => p.1 ≠ name) ++ [(name, value)]

def names (pairs : List Pair) : List Bytes :=
  (pairs.map Prod.fst).dedup.insertionSort (· ≤ ·)

/- In the order of the names. -/
def grouped (pairs : List Pair) : List Pair :=
  (names pairs).flatMap fun name => pairs.filter fun p => p.1 = name

def encodePair (p : Pair) : Bytes := queryEscape p.1 ++ 61 :: queryEscape p.2

def encode (pairs : List Pair) : Bytes := join 38 ((grouped pairs).map encodePair)

/-- The values of a parameter, as the receiver of a query string reads them. -/
def param (query name : Bytes) : List Bytes := values (parseQuery query).1 name

/-! ### Escaped texts -/

theorem unreserved_hexDigit : ∀ n < 16, unreserved (hexDigit n) = true := by decide

variable {b : Byte}

theorem mem_queryEscape {s : Bytes} (h : b ∈ queryEscape s) :
    unreserved b = true ∨ b = 43 ∨ b = 37 := by
  obtain ⟨c, -, hb⟩ := List.mem_flatMap.mp h
  have hc : c.toNat < 256 := c.toNat_lt
  split at hb
  · rename_i hplain
    rw [List.mem_singleton.mp hb]
    exact Or.inl hplain
  · split at hb
    · exact Or.inr (Or.inl (List.mem_singleton.mp hb))
    · simp only [percent, List.mem_cons, List.not_mem_nil, or_false] at hb
      rcases hb with rfl | rfl | rfl
      · exact Or.inr (Or.inr rfl)
      · exact Or.inl (unreserved_hexDigit _ (by omega))
      · exact Or.inl (unreserved_hexDigit _ (by omega))

theorem notMem_queryEscape (h : unreserved b = false) (hplus : b ≠ 43) (hpercent : b ≠ 37)
    (s : Bytes) : b ∉ queryEscape s := fun hb => by
  rcases mem_queryEscape hb with hmem | hmem | hmem
  · rw [h] at hmem
    cases hmem
  · exact hplus hmem
  · exact hpercent hmem

theorem unplus_of_unreserved (h : unreserved b = true) : unplus b = b := by
  refine if_neg fun he => ?_
  rw [he] at h
  cases h

theorem map_unplus_percent (b : Byte) : (percent b).map unplus = percent b := by
  have hb : b.toNat < 256 := b.toNat_lt
  have hhi := unplus_of_unreserved (unreserved_hexDigit (b.toNat / 16) (by omega))
  have hlo := unplus_of_unreserved (unreserved_hexDigit (b.toNat % 16) (by omega))
  simp only [percent, List.map_cons, List.map_nil, hhi, hlo]
  rfl

theorem queryUnescape_queryEscape (s : Bytes) : queryUnescape (queryEscape s) = some s := by
  induction s with
  | nil => rfl
  | cons b s ih =>
    rw [queryUnescape] at ih ⊢
    rw [queryEscape, List.flatMap_cons, List.map_append, ← queryEscape]
    split
    · rename_i hplain
      have hb : b ≠ 37 := by
        rintro rfl
        cases hplain
      rw [List.map_singleton, unplus_of_unreserved hplain, List.singleton_append,
        pathUnescape_cons hb, ih]
      rfl
    · split
      · rename_i hspace
        rw [hspace, List.map_singleton, List.singleton_append,
          pathUnescape_cons (by decide : unplus 43 ≠ 37), ih]
        rfl
      · rw [map_unplus_percent, pathUnescape_percent, ih]
        rfl

/-! ### The pairs of an encoded query -/

theorem cut_append {c : Byte} {s : Bytes} (h : c ∉ s) (rest : Bytes) :
    cut c (s ++ c :: rest) = (s, rest) := by
  have hs : ∀ b ∈ s, decide (b ≠ c) = true := fun b hb =>
    decide_eq_true fun he => h (he ▸ hb)
  rw [cut, List.takeWhile_append_of_pos hs, List.dropWhile_append_of_pos hs]
  simp

theorem cut_of_notMem {c : Byte} {s : Bytes} (h : c ∉ s) : cut c s = (s, []) := by
  have hs : ∀ b ∈ s, decide (b ≠ c) = true := fun b hb =>
    decide_eq_true fun he => h (he ▸ hb)
  have htake : (s ++ []).takeWhile (· ≠ c) = s ++ [] := List.takeWhile_append_of_pos hs
  have hdrop : (s ++ []).dropWhile (· ≠ c) = [] := List.dropWhile_append_of_pos hs
  rw [List.append_nil] at htake hdrop
  rw [cut, htake, hdrop]
  rfl

theorem notMem_encodePair (h : unreserved b = false) (hplus : b ≠ 43) (hpercent : b ≠ 37)
    (hequals : b ≠ 61) (p : Pair) : b ∉ encodePair p := by
  rw [encodePair, List.mem_append, List.mem_cons]
  rintro (hb | hb | hb)
  · exact notMem_queryEscape h hplus hpercent _ hb
  · exact hequals hb
  · exact notMem_queryEscape h hplus hpercent _ hb

theorem parsePair_encodePair (p : Pair) : parsePair (encodePair p) = some p := by
  have hcut : cut 61 (encodePair p) = (queryEscape p.1, queryEscape p.2) :=
    cut_append (notMem_queryEscape rfl (by decide) (by decide) _) _
  rw [parsePair, if_neg (notMem_encodePair rfl (by decide) (by decide) (by decide) p), hcut]
  simp only [queryUnescape_queryEscape]
  rfl

theorem encodePair_ne_nil (p : Pair) : encodePair p ≠ [] := by simp [encodePair]

theorem pieces_join (pairs : List Pair) :
    pieces (join 38 (pairs.map encodePair)) = pairs.map encodePair := by
  by_cases hnil : pairs = []
  · rw [hnil]
    rfl
  · have hsplit : split 38 (join 38 (pairs.map encodePair)) = pairs.map encodePair := by
      refine split_join (by simpa using hnil) fun p hp => ?_
      obtain ⟨q, -, rfl⟩ := List.mem_map.mp hp
      exact notMem_encodePair rfl (by decide) (by decide) (by decide) q
    rw [pieces, hsplit]
    refine List.filter_eq_self.mpr fun p hp => ?_
    obtain ⟨q, -, rfl⟩ := List.mem_map.mp hp
    simpa using encodePair_ne_nil q

theorem parseQuery_encode (pairs : List Pair) : parseQuery (encode pairs) = (grouped pairs, true) := by
  rw [parseQuery, encode, pieces_join, List.filterMap_map, List.all_map]
  have hparse : parsePair ∘ encodePair = some := funext parsePair_encodePair
  rw [hparse, List.filterMap_some]
  simp [parsePair_encodePair]

/-! ### The values of the parameters -/

theorem names_nodup (pairs : List Pair) : (names pairs).Nodup :=
  (List.perm_insertionSort _ _).nodup_iff.mpr (List.nodup_dedup _)

theorem mem_names {pairs : List Pair} {name : Bytes} :
    name ∈ names pairs ↔ ∃ p ∈ pairs, p.1 = name := by
  rw [names, List.mem_insertionSort, List.mem_dedup, List.mem_map]

/- Each name has its pairs in one group. -/
theorem filter_flatMap_groups (pairs : List Pair) (name : Bytes) {groups : List Bytes}
    (hnodup : groups.Nodup) :
    ((groups.flatMap fun g => pairs.filter fun p => p.1 = g).filter fun p => p.1 = name) =
      if name ∈ groups then pairs.filter fun p => p.1 = name else [] := by
  induction groups with
  | nil => rfl
  | cons g groups ih =>
    have hg := List.nodup_cons.mp hnodup
    rw [List.flatMap_cons, List.filter_append, ih hg.2, List.filter_filter]
    by_cases he : name = g
    · subst he
      rw [if_neg hg.1, if_pos List.mem_cons_self, List.append_nil]
      simp
    · have hnone : (pairs.filter fun p => decide (p.1 = name) && decide (p.1 = g)) = [] := by
        refine List.filter_eq_nil_iff.mpr fun p _ => ?_
        simp only [Bool.and_eq_true, decide_eq_true_eq, not_and]
        rintro rfl
        exact he
      rw [hnone, List.nil_append]
      simp only [List.mem_cons, he, false_or]

theorem values_grouped (pairs : List Pair) (name : Bytes) :
    values (grouped pairs) name = values pairs name := by
  rw [values, values, grouped, filter_flatMap_groups pairs name (names_nodup pairs)]
  split
  · rfl
  · rename_i hname
    rw [mem_names] at hname
    congr 1
    refine (List.filter_eq_nil_iff.mpr fun p hp he => hname ⟨p, hp, ?_⟩).symm
    exact of_decide_eq_true he

theorem values_set_of_ne {name other : Bytes} (h : other ≠ name) (pairs : List Pair)
    (value : Bytes) : values (set pairs name value) other = values pairs other := by
  have hlast : ([(name, value)].filter fun p : Pair => p.1 = other) = [] :=
    List.filter_eq_nil_iff.mpr fun p hp => by
      rw [List.mem_singleton.mp hp]
      simpa using Ne.symm h
  rw [values, values, set, List.filter_append, hlast, List.append_nil, List.filter_filter]
  congr 1
  refine List.filter_congr fun p _ => ?_
  by_cases hp : p.1 = other
  · simp [hp, h]
  · simp [hp]

theorem param_encode (pairs : List Pair) (name : Bytes) :
    param (encode pairs) name = values pairs name := by
  rw [param, parseQuery_encode, values_grouped]

theorem mem_encode {pairs : List Pair} (h : b ∈ encode pairs) :
    unreserved b = true ∨ b = 43 ∨ b = 37 ∨ b = 61 ∨ b = 38 := by
  rcases mem_join h with hb | ⟨p, hp, hb⟩
  · exact Or.inr (Or.inr (Or.inr (Or.inr hb)))
  · obtain ⟨q, -, rfl⟩ := List.mem_map.mp hp
    rw [encodePair, List.mem_append, List.mem_cons] at hb
    rcases hb with hb | hb | hb
    · rcases mem_queryEscape hb with h | h | h <;> simp [h]
    · simp [hb]
    · rcases mem_queryEscape hb with h | h | h <;> simp [h]

example : encode (set (parseQuery (lit "b=2&a=1&token=old")).1 (lit "token") (lit "new value")) =
    lit "a=1&b=2&token=new+value" := by decide +kernel

end EdgeDispatch.Lib.GoQuery
