import EdgeDispatch.ObjectKeys

/-! # What the filter for resource keys lets through (scheduler.go:379-400)

`sanitizeResourceKey` looks for forbidden bytes in the text that it is given and for
segments that lead elsewhere in the text that this decodes to. So a forbidden byte passes
in its escaped form, and so does an escaped escape, which a second pass decodes. -/

namespace EdgeDispatch.ObjectKeys
open Lib Lib.ByteString Lib.GoStrings
open ControlPlane.Ingress (sanitizeResourceKey)
open Streaming

/- NUL, carriage return, line feed and backslash. -/
def forbidden : List Byte := [0, 13, 10, 92]

/-- What the filter is for. -/
structure Filtered (key : Bytes) : Prop where
  no_forbidden : ∀ b ∈ forbidden, b ∉ key
  kept : ∀ p ∈ split slash key, keepSegment (trimSpace p) = true
  fixed : sanitizeResourceKey key = key

/- The segments of the key once it is decoded. -/
def resourceSegments (raw : Bytes) : List Bytes :=
  (split slash (trimPrefix (decoded raw) [slash])).map trimSpace

/-- There is nothing in the key, or something that the filter finds. -/
def Refused (raw : Bytes) : Prop :=
  trimSpace raw = [] ∨ (∃ b ∈ forbidden, b ∈ trimSpace raw) ∨
    ∃ p ∈ resourceSegments raw, keepSegment p = false

/-! ### What the filter returns -/

theorem sanitizeResourceKey_refused {raw : Bytes} (h : Refused raw) :
    sanitizeResourceKey raw = [] := by
  by_contra hne
  obtain ⟨parts, -, hparts⟩ := sanitizeResourceKey_ne_nil hne
  rcases h with hnil | ⟨b, hb, hmem⟩ | ⟨p, hp, hdrop⟩
  · simp [sanitizeResourceKey, hnil] at hne
  · have hany : [0, 13, 10, 92].any (trimSpace raw).contains = true :=
      List.any_eq_true.mpr ⟨b, hb, List.contains_iff_mem.mpr hmem⟩
    simp [sanitizeResourceKey, hany] at hne
  · rw [resourceSegments, ← hparts.parts_eq] at hp
    rw [hparts.kept p hp] at hdrop
    cases hdrop

theorem sanitizeResourceKey_accepted {raw : Bytes} (h : ¬ Refused raw) :
    sanitizeResourceKey raw = join slash (resourceSegments raw) ∧
      Accepted raw (resourceSegments raw) := by
  simp only [Refused, not_or] at h
  obtain ⟨hne, hplain, hkept⟩ := h
  have hkept' : ∀ p ∈ resourceSegments raw, keepSegment p = true := fun p hp =>
    Bool.of_not_eq_false fun hdrop => hkept ⟨p, hp, hdrop⟩
  refine ⟨?_, rfl, hkept'⟩
  have hchars : ¬ (trimSpace raw = [] ∨ [0, 13, 10, 92].any (trimSpace raw).contains = true) := by
    rintro (hnil | hany)
    · exact hne hnil
    · obtain ⟨b, hb, hmem⟩ := List.any_eq_true.mp hany
      exact hplain ⟨b, hb, List.contains_iff_mem.mp hmem⟩
  have hparts : ¬ ((resourceSegments raw).any
      fun p => p = [] ∨ p = lit "." ∨ p = lit "..") = true := by
    intro hany
    obtain ⟨p, hp, hdrop⟩ := List.any_eq_true.mp hany
    have hkeep := hkept' p hp
    simp only [keepSegment, decide_eq_true_eq] at hkeep hdrop
    rcases hdrop with hnil | hdot | hdots
    · exact hkeep.1 hnil
    · exact hkeep.2.1 hdot
    · exact hkeep.2.2 hdots
  unfold sanitizeResourceKey
  simp only
  rw [if_neg hchars]
  exact if_neg hparts

theorem sanitizeResourceKey_length_le (raw : Bytes) :
    (sanitizeResourceKey raw).length ≤ (decoded raw).length := by
  by_cases href : Refused raw
  · rw [sanitizeResourceKey_refused href]
    exact Nat.zero_le _
  · rw [(sanitizeResourceKey_accepted href).1]
    have htrim := join_trimmed_length_le slash (trimPrefix (decoded raw) [slash])
    have hprefix : (trimPrefix (decoded raw) [slash]).length ≤ (decoded raw).length := by
      unfold trimPrefix
      split
      · exact (List.drop_sublist _ _).length_le
      · exact le_refl _
    exact htrim.trans hprefix

/-! ### A second pass -/

section Accepted
variable {raw : Bytes} {parts : List Bytes}

/- What starts with a slash has an empty segment before it. -/
theorem Accepted.trimPrefix_eq (h : Accepted raw parts) :
    trimPrefix (join slash parts) [slash] = join slash parts := by
  refine if_neg fun hpre => ?_
  obtain ⟨rest, hrest⟩ : [slash] <+: join slash parts := by simpa [hasPrefix] using hpre
  have hsplit := h.split_eq
  rw [← hrest, show [slash] ++ rest = [] ++ slash :: rest from rfl, split_append] at hsplit
  have hnil : [] ∈ parts := by
    rw [← hsplit]
    exact List.mem_cons_self
  exact absurd (h.kept [] hnil) (by decide)

theorem Accepted.kept_segments (h : Accepted raw parts) :
    ∀ p ∈ split slash (join slash parts), keepSegment (trimSpace p) = true := by
  intro p hp
  rw [h.split_eq] at hp
  rw [trimSpace_of_trimmed (h.trimmed p hp).1]
  exact h.kept p hp

/- A key that decodes to itself passes as it is. -/
theorem Accepted.second_pass (h : Accepted raw parts)
    (hplain : ∀ b ∈ forbidden, b ∉ join slash parts)
    (hdecoded : decoded (join slash parts) = join slash parts) :
    sanitizeResourceKey (join slash parts) = join slash parts := by
  have hsegments : resourceSegments (join slash parts) = parts := by
    rw [resourceSegments, hdecoded, h.trimPrefix_eq, h.split_eq]
    refine (List.map_congr_left fun p hp => ?_).trans (List.map_id _)
    exact trimSpace_of_trimmed (h.trimmed p hp).1
  have haccepted : ¬ Refused (join slash parts) := by
    rintro (hnil | ⟨b, hb, hmem⟩ | ⟨p, hp, hdrop⟩)
    · rw [h.trimSpace_eq] at hnil
      exact h.join_ne_nil hnil
    · rw [h.trimSpace_eq] at hmem
      exact hplain b hb hmem
    · rw [hsegments] at hp
      rw [h.kept p hp] at hdrop
      cases hdrop
  rw [(sanitizeResourceKey_accepted haccepted).1, hsegments]

/-- What is accepted is filtered just if it has no forbidden byte and no escape, or a
percent sign that makes the decoder give up. -/
theorem Accepted.filtered_iff (h : Accepted raw parts) :
    Filtered (join slash parts) ↔
      (∀ b ∈ forbidden, b ∉ join slash parts) ∧
        (37 ∉ join slash parts ∨ GoURL.pathUnescape (join slash parts) = none) := by
  constructor
  · intro hfiltered
    refine ⟨hfiltered.no_forbidden, ?_⟩
    by_contra hescape
    simp only [not_or, not_not, ← ne_eq, Option.ne_none_iff_exists'] at hescape
    obtain ⟨hmem, t, ht⟩ := hescape
    -- the second pass decodes, and decoding shortens
    have hshort := (GoURL.pathUnescape_length ht).2 hmem
    have hlen := sanitizeResourceKey_length_le (join slash parts)
    have hdecoded : decoded (join slash parts) = t := by
      rw [decoded, h.trimSpace_eq, ht]
      rfl
    rw [hfiltered.fixed, hdecoded] at hlen
    omega
  · rintro ⟨hplain, hescape⟩
    refine ⟨hplain, h.kept_segments, h.second_pass hplain ?_⟩
    rw [decoded, h.trimSpace_eq]
    rcases hescape with hno | hnone
    · rw [GoURL.pathUnescape_of_notMem hno]
      rfl
    · rw [hnone]
      rfl

/-! ### The same of the decoded text -/

theorem space_no_escape : ∀ c ∈ spaces, ∀ b ∈ c, b ≠ 37 ∧ GoURL.unhex b = none := by
  decide +kernel

theorem pathUnescape_trimSpace (s : Bytes) :
    GoURL.pathUnescape (trimSpace s) = none ↔ GoURL.pathUnescape s = none := by
  obtain ⟨l, r, hs, hbytes⟩ := trimSpace_split s
  have hspace : ∀ b ∈ l ++ r, b ≠ 37 ∧ GoURL.unhex b = none := by
    intro b hb
    obtain ⟨c, hc, hbc⟩ := hbytes b hb
    exact space_no_escape c hc b hbc
  have hl : 37 ∉ l := fun hmem => (hspace 37 (List.mem_append_left r hmem)).1 rfl
  have hr : ∀ b ∈ r, b ≠ 37 ∧ GoURL.unhex b = none :=
    fun b hb => hspace b (List.mem_append_right l hb)
  conv_rhs => rw [hs]
  rw [GoURL.pathUnescape_surrounded hl hr, Option.map_eq_none_iff]

theorem pathUnescape_trimPrefix (s : Bytes) :
    GoURL.pathUnescape (trimPrefix s [slash]) = none ↔ GoURL.pathUnescape s = none := by
  unfold trimPrefix
  split
  · rename_i hpre
    obtain ⟨rest, rfl⟩ : [slash] <+: s := by simpa [hasPrefix] using hpre
    rw [List.singleton_append, GoURL.pathUnescape_cons (by decide), Option.map_eq_none_iff]
    rfl
  · rfl

theorem Accepted.pathUnescape_iff (h : Accepted raw parts) :
    GoURL.pathUnescape (join slash parts) = none ↔ GoURL.pathUnescape (decoded raw) = none := by
  have hslash : slash ≠ 37 ∧ GoURL.unhex slash = none := by decide
  have hd : GoURL.pathUnescape (decoded raw) = none ↔
      ∃ p ∈ split slash (trimPrefix (decoded raw) [slash]), GoURL.pathUnescape p = none := by
    rw [← GoURL.pathUnescape_join_eq_none hslash.1 hslash.2, join_split, pathUnescape_trimPrefix]
  rw [GoURL.pathUnescape_join_eq_none hslash.1 hslash.2, hd, h.parts_eq]
  simp only [List.mem_map, exists_exists_and_eq_and, pathUnescape_trimSpace]

theorem Accepted.percent_iff (h : Accepted raw parts) :
    37 ∈ join slash parts ↔ 37 ∈ decoded raw := by
  have hpercent : [37] <:+: join slash parts ↔ [37] <:+: decoded raw :=
    h.infix_iff (by decide) (by decide) (by decide +kernel)
  rwa [List.singleton_infix_iff, List.singleton_infix_iff] at hpercent

theorem forbidden_notMem_join (parts : List Bytes) :
    (∀ b ∈ forbidden, b ∉ join slash parts) ↔ ∀ p ∈ parts, ∀ b ∈ forbidden, b ∉ p := by
  have hslash : ∀ b ∈ forbidden, slash ≠ b := by decide +kernel
  have hmem : ∀ b ∈ forbidden, b ∈ join slash parts ↔ ∃ p ∈ parts, b ∈ p := by
    intro b hb
    have hnotMem : slash ∉ [b] := List.mem_singleton.not.mpr (hslash b hb)
    have hinfix := infix_join_iff (List.cons_ne_nil b []) hnotMem parts
    simpa only [List.singleton_infix_iff] using hinfix
  constructor
  · intro hall p hp b hb hbp
    exact hall b hb ((hmem b hb).mpr ⟨p, hp, hbp⟩)
  · intro hall b hb hmem'
    obtain ⟨p, hp, hbp⟩ := (hmem b hb).mp hmem'
    exact hall p hp b hb hbp

end Accepted

/-- The filter keeps its promise just if it refuses the key, or the decoded key has no
forbidden byte inside a segment and nothing more to decode. -/
theorem resource_filter_iff (raw : Bytes) :
    (sanitizeResourceKey raw ≠ [] → Filtered (sanitizeResourceKey raw)) ↔
      Refused raw ∨
        ((∀ p ∈ resourceSegments raw, ∀ b ∈ forbidden, b ∉ p) ∧
          (37 ∉ decoded raw ∨ GoURL.pathUnescape (decoded raw) = none)) := by
  by_cases href : Refused raw
  · simp [href, sanitizeResourceKey_refused href]
  · obtain ⟨hkey, haccepted⟩ := sanitizeResourceKey_accepted href
    have hne := haccepted.join_ne_nil
    simp only [href, false_or, hkey, ne_eq, hne, not_false_eq_true, forall_const]
    rw [haccepted.filtered_iff, haccepted.pathUnescape_iff, haccepted.percent_iff,
      forbidden_notMem_join]

/- An escaped backslash and an escaped line feed, and an escaped escape. -/
theorem escaped_bytes_pass :
    sanitizeResourceKey (lit "a%5Cb") = lit "a\\b" ∧ sanitizeResourceKey (lit "a\\b") = [] ∧
      sanitizeResourceKey (lit "a%0Ab") = lit "a\nb" ∧
      sanitizeResourceKey (lit "a%2525b") = lit "a%25b" ∧
      sanitizeResourceKey (lit "a%25b") = lit "a%b" := by
  decide +kernel

end EdgeDispatch.ObjectKeys
