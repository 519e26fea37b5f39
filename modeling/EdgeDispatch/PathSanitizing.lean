import EdgeDispatch.Edge.Origin

/-! # Cleaning a key for a path

The edge's fetcher, the gateway and the streaming window each have a function that cleans
a key, and the text of the three is the same (fetcher.go:140-161, gateway.go:294-391,
window.go:186-198). -/

namespace EdgeDispatch.PathSanitizing
open Lib.ByteString Lib.GoStrings Lib.GoPath
open Edge.Origin Streaming

/- The gateway's; its body is that of `validateStreamKey`. -/
def sanitizeGatewayKey (key : Bytes) : Bytes := join slash (segments key)

/- The path that `proxyToPublic` asks an edge for, and the one that `proxyToTunnel` does. -/
def publicPath (key : Bytes) : Bytes := joinPath [lit "/obj/", sanitizeGatewayKey key]
def tunnelPath (key : Bytes) : Bytes := lit "/obj/" ++ sanitizeGatewayKey key

/-- The segments of a path; the empty path has none. -/
def pathSegments (path : Bytes) : List Bytes := if path = [] then [] else split slash path

/-- A path is below `dir` if it is `dir` itself or leads from there through segments that
do not lead back. -/
def Below (dir path : Bytes) : Prop :=
  ∃ rest, (∀ p ∈ rest, Proper p) ∧
    path = if rest = [] then dir else dir ++ slash :: join slash rest

/-! ### What is left of a key -/

theorem pathSegments_join {parts : List Bytes} (h : ∀ p ∈ parts, Segment p) :
    pathSegments (join slash parts) = parts := by
  have hproper : ∀ p ∈ parts, Proper p := fun p hp => segment_proper (h p hp)
  unfold pathSegments
  by_cases hnil : parts = []
  · rw [hnil]
    rfl
  · have hne : join slash parts ≠ [] := join_ne_nil hnil hproper
    rw [if_neg hne, split_join hnil fun p hp => (h p hp).no_slash]

theorem pathSegments_sanitizeKey (key : Bytes) : pathSegments (sanitizeKey key) = segments key :=
  pathSegments_join fun _ hp => segment_of_mem hp

theorem sanitizeKey_idem (key : Bytes) : sanitizeKey (sanitizeKey key) = sanitizeKey key :=
  validateStreamKey_idem key

theorem originPath_below (base key : Bytes) :
    Below (originPath base []) (originPath base (sanitizeKey key)) := by
  refine ⟨segments key, fun p hp => segment_proper (segment_of_mem hp), ?_⟩
  by_cases hnil : segments key = []
  · rw [if_pos hnil, sanitizeKey, hnil]
    rfl
  · rw [if_neg hnil]
    exact originPath_join base hnil fun p hp => segment_of_mem hp

/-- The three functions are one. What it leaves of a key has no backslash and no segment
that is empty or leads elsewhere, is left as it is by a second pass, and stays below `obj`
under whatever path the origin's URL has. -/
theorem sanitizers_agree (base key : Bytes) :
    (sanitizeGatewayKey key = sanitizeKey key ∧ validateStreamKey key = sanitizeKey key) ∧
      (backslash ∉ sanitizeKey key ∧
        ∀ p ∈ pathSegments (sanitizeKey key), p ≠ [] ∧ p ≠ lit "." ∧ p ≠ lit "..") ∧
      sanitizeKey (sanitizeKey key) = sanitizeKey key ∧
      Below (joinPath [base, lit "obj"]) (originPath base (sanitizeKey key)) := by
  refine ⟨⟨rfl, rfl⟩, ⟨backslash_notMem_sanitizeKey key, fun p hp => ?_⟩, sanitizeKey_idem key, ?_⟩
  · rw [pathSegments_sanitizeKey] at hp
    have hproper := segment_proper (segment_of_mem hp)
    exact ⟨hproper.ne_nil, hproper.ne_dot, hproper.ne_dots⟩
  · rw [← originPath_nil]
    exact originPath_below base key

example : sanitizeGatewayKey (lit " ..\\a/ ./../b /") = lit "a/b" := by decide +kernel

/-! ### The gateway's two ways to an edge -/

/- An edge is asked for the same object on both ways, except that the slash at the end of
   the path without a key is kept on one only. -/
theorem publicPath_eq (key : Bytes) :
    publicPath key = if sanitizeGatewayKey key = [] then lit "/obj" else tunnelPath key := by
  have hproper : ∀ p ∈ segments key, Proper p := fun p hp => segment_proper (segment_of_mem hp)
  by_cases hnil : segments key = []
  · have hkey : sanitizeGatewayKey key = [] := by
      rw [sanitizeGatewayKey, hnil]
      rfl
    rw [if_pos hkey, publicPath, hkey]
    decide
  · have hkey : sanitizeGatewayKey key ≠ [] := join_ne_nil hnil hproper
    have hjoin : join slash [lit "/obj/", sanitizeGatewayKey key] =
        lit "/obj/" ++ slash :: join slash (segments key) := by
      rw [join_cons_cons, join_singleton]
      rfl
    have hfilter : [lit "/obj/", sanitizeGatewayKey key].filter (· ≠ []) =
        [lit "/obj/", sanitizeGatewayKey key] := by
      simp [hkey, show lit "/obj/" ≠ [] by decide]
    rw [if_neg hkey, publicPath, joinPath, hfilter, if_neg (List.cons_ne_nil _ _), hjoin,
      clean_below (by decide) hnil hproper (by decide),
      show clean (lit "/obj/") = lit "/obj" by decide]
    rfl

end EdgeDispatch.PathSanitizing
