import EdgeDispatch.ControlPlane.Ingress
import EdgeDispatch.Edge.Origin
import EdgeDispatch.Edge.TokenCheck

/-! # One object key from the control plane to the origin

The control plane accepts a key and redirects the client to an edge, the edge reads the
key from the path it is asked for, and its fetcher cleans the key once more for the URL
of the origin (scheduler.go:379-400, api.go:494-533, server.go:348-355,
fetcher.go:140-161). -/

namespace EdgeDispatch.ObjectKeys
open Lib Lib.ByteString Lib.GoStrings
open ControlPlane.Ingress (sanitizeResourceKey escapeResourcePath)
open Edge.Origin Edge.TokenCheck Streaming

/- The key as `sanitizeResourceKey` decodes it, after its look for backslashes and before
   its look at the segments. -/
def decoded (raw : Bytes) : Bytes := (GoURL.pathUnescape (trimSpace raw)).getD (trimSpace raw)

/-- What the edge's handler sees of the redirect: the path, unescaped. -/
def redirectPath (key : Bytes) : Option Bytes :=
  GoURL.pathUnescape (lit "/obj/" ++ escapeResourcePath key)

/-- The edge takes the key it is redirected to for `key`, and asks the origin, whose URL
has the path `base`, for the segments of `key`. -/
def Carried (base : Bytes) (r : Request) (key : Bytes) : Prop :=
  ∃ path, redirectPath key = some path ∧ objectKey { r with path } = some key ∧
    originPath base (sanitizeKey key) = originPath base [] ++ slash :: key

/-! ### What the control plane accepts -/

/-- The segments of an accepted key. -/
structure Accepted (raw : Bytes) (parts : List Bytes) : Prop where
  parts_eq : parts = (split slash (trimPrefix (decoded raw) [slash])).map trimSpace
  kept : ∀ p ∈ parts, keepSegment p = true

variable {raw : Bytes} {parts : List Bytes}

theorem sanitizeResourceKey_ne_nil (h : sanitizeResourceKey raw ≠ []) :
    ∃ parts, sanitizeResourceKey raw = join slash parts ∧ Accepted raw parts := by
  unfold sanitizeResourceKey at h ⊢
  simp only at h ⊢
  split at h
  · exact absurd rfl h
  · rename_i hraw
    rw [if_neg hraw]
    split at h
    · exact absurd rfl h
    · rename_i hparts
      rw [if_neg hparts]
      refine ⟨_, rfl, rfl, fun p hp => ?_⟩
      by_contra hdrop
      refine hparts (List.any_eq_true.mpr ⟨p, hp, ?_⟩)
      simp only [keepSegment, decide_eq_true_eq] at hdrop ⊢
      tauto

theorem Accepted.ne_nil (h : Accepted raw parts) : parts ≠ [] := by
  rw [h.parts_eq]
  simpa using split_ne_nil slash (trimPrefix (decoded raw) [slash])

theorem Accepted.trimmed (h : Accepted raw parts) : ∀ p ∈ parts, Trimmed p ∧ slash ∉ p := by
  intro p hp
  rw [h.parts_eq] at hp
  obtain ⟨q, hq, rfl⟩ := List.mem_map.mp hp
  exact ⟨trimSpace_trimmed q, fun hb => (mem_split q hq).1 (mem_of_mem_trimSpace hb)⟩

theorem Accepted.split_eq (h : Accepted raw parts) : split slash (join slash parts) = parts :=
  split_join h.ne_nil fun p hp => (h.trimmed p hp).2

theorem Accepted.trimSpace_eq (h : Accepted raw parts) :
    trimSpace (join slash parts) = join slash parts :=
  trimSpace_of_trimmed (Trimmed.join slash_notMem_spaces fun p hp => (h.trimmed p hp).1)

theorem Accepted.join_ne_nil (h : Accepted raw parts) : join slash parts ≠ [] := by
  intro hnil
  have hsplit := h.split_eq
  rw [hnil] at hsplit
  exact absurd (h.kept [] (by rw [← hsplit]; exact List.mem_singleton_self _)) (by decide)

/- Neither the trimming nor the slashes touch a string without white space or slash. -/
theorem Accepted.infix_iff {sub : Bytes} (h : Accepted raw parts) (hne : sub ≠ [])
    (hslash : slash ∉ sub) (hspace : ∀ b ∈ sub, ∀ c ∈ spaces, b ∉ c) :
    sub <:+: join slash parts ↔ sub <:+: decoded raw := by
  have htrim : sub <:+: join slash parts ↔ sub <:+: trimPrefix (decoded raw) [slash] := by
    rw [← join_split slash (trimPrefix (decoded raw) [slash]), infix_join_iff hne hslash,
      infix_join_iff hne hslash, h.parts_eq]
    simp only [List.mem_map, exists_exists_and_eq_and, infix_trimSpace_iff hne hspace]
  rw [htrim]
  unfold trimPrefix
  split
  · rename_i hpre
    obtain ⟨rest, hrest⟩ : [slash] <+: decoded raw := by simpa [hasPrefix] using hpre
    rw [← hrest]
    constructor
    · intro hsub
      exact hsub.trans (List.suffix_append _ _).isInfix
    · intro hsub
      rcases infix_append_cons (s := []) hslash hsub with hnil | hsub
      · exact absurd (List.infix_nil.mp hnil) hne
      · exact hsub
  · rfl

/-! ### What the edge and its fetcher make of it -/

theorem redirectPath_eq (key : Bytes) : redirectPath key = some (lit "/obj/" ++ key) := by
  have hkey : GoURL.pathUnescape (escapeResourcePath key) = some key := by
    refine (GoURL.pathUnescape_join (c := slash) (by decide) (split slash key)).trans ?_
    rw [join_split]
  have hobj : ∀ b ∈ lit "/obj/", b ≠ 37 := by decide +kernel
  rw [redirectPath]
  generalize lit "/obj/" = obj at hobj
  induction obj with
  | nil => simpa using hkey
  | cons b obj ih =>
    rw [List.cons_append, GoURL.pathUnescape_cons (hobj b List.mem_cons_self),
      ih fun b' hb' => hobj b' (List.mem_cons_of_mem b hb')]
    rfl

theorem Accepted.objectKey_iff (h : Accepted raw parts) (r : Request) :
    objectKey { r with path := lit "/obj/" ++ join slash parts } = some (join slash parts) ↔
      ¬ lit ".." <:+: join slash parts := by
  have htrim : trimSpace (trimPrefix (lit "/obj/" ++ join slash parts) (lit "/obj/")) =
      join slash parts := by
    rw [trimPrefix_append]
    exact h.trimSpace_eq
  have hne := h.join_ne_nil
  have hdot : join slash parts ≠ lit "." := by
    intro hdot
    have hsplit := h.split_eq
    rw [hdot] at hsplit
    exact absurd (h.kept (lit ".") (by rw [← hsplit]; decide)) (by decide)
  rw [← contains_iff]
  unfold objectKey
  simp only [htrim, hne, hdot, false_or]
  split
  · rename_i hdots
    simp [hdots]
  · rename_i hdots
    simp [hdots]

theorem Accepted.originPath_iff (h : Accepted raw parts) (base : Bytes) :
    originPath base (sanitizeKey (join slash parts)) = originPath base [] ++ slash :: join slash parts ↔
      backslash ∉ join slash parts := by
  constructor
  · intro heq hmem
    by_cases hnil : sanitizeKey (join slash parts) = []
    · rw [hnil] at heq
      simp at heq
    · rw [originPath_sanitizeKey base _ hnil] at heq
      have hsame := (List.cons.inj (List.append_cancel_left heq)).2
      rw [← hsame] at hmem
      exact backslash_notMem_sanitizeKey _ hmem
  · intro hno
    have hsegment : ∀ p ∈ parts, Segment p := by
      intro p hp
      refine ⟨h.kept p hp, (h.trimmed p hp).1, (h.trimmed p hp).2, fun hb => hno ?_⟩
      rw [← List.singleton_infix_iff, infix_join_iff (by decide) (by decide)]
      exact ⟨p, hp, (List.singleton_infix_iff _ _).mpr hb⟩
    rw [sanitizeKey, segments_join hsegment]
    exact originPath_join base h.ne_nil hsegment

theorem Accepted.carried_iff (h : Accepted raw parts) (base : Bytes) (r : Request) :
    Carried base r (join slash parts) ↔
      contains (decoded raw) (lit "..") = false ∧ backslash ∉ decoded raw := by
  have hdots : lit ".." <:+: join slash parts ↔ lit ".." <:+: decoded raw :=
    h.infix_iff (by decide) (by decide) dot_notMem_spaces
  have hback : [backslash] <:+: join slash parts ↔ [backslash] <:+: decoded raw :=
    h.infix_iff (by decide) (by decide) (by decide +kernel)
  rw [List.singleton_infix_iff, List.singleton_infix_iff] at hback
  rw [← Bool.not_eq_true, contains_iff, ← hdots, ← hback, ← h.objectKey_iff r,
    ← h.originPath_iff base]
  constructor
  · rintro ⟨path, hpath, hobj, horigin⟩
    rw [redirectPath_eq] at hpath
    cases hpath
    exact ⟨hobj, horigin⟩
  · rintro ⟨hobj, horigin⟩
    exact ⟨_, redirectPath_eq _, hobj, horigin⟩

/-- The key arrives as it was accepted just if, decoded, it has no backslash and no two
dots in a row. -/
theorem key_carried_iff (base raw : Bytes) (r : Request) :
    (∀ key, sanitizeResourceKey raw = key → key ≠ [] → Carried base r key) ↔
      (sanitizeResourceKey raw ≠ [] →
        contains (decoded raw) (lit "..") = false ∧ backslash ∉ decoded raw) := by
  by_cases hne : sanitizeResourceKey raw = []
  · simp [hne]
  · obtain ⟨parts, hkey, hparts⟩ := sanitizeResourceKey_ne_nil hne
    rw [hkey] at hne ⊢
    simp only [forall_eq', hne, not_false_eq_true, forall_const, ne_eq]
    exact hparts.carried_iff base r

/- A client that asks with the path of the redirect. -/
def redirected (path : Bytes) : Request := ⟨.get, [], [], [], path⟩

/- The edge refuses dots inside a segment; an escaped backslash ends up as a slash. -/
theorem accepted_key_changed :
    sanitizeResourceKey (lit "a..b") = lit "a..b" ∧
      (redirectPath (lit "a..b")).bind (fun path => objectKey (redirected path)) = none ∧
      sanitizeResourceKey (lit "a%5Cb") = lit "a\\b" ∧
      (redirectPath (lit "a\\b")).bind (fun path => objectKey (redirected path)) =
        some (lit "a\\b") ∧
      originPath [] (sanitizeKey (lit "a\\b")) = lit "obj/a/b" := by
  decide +kernel

end EdgeDispatch.ObjectKeys
