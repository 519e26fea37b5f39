import EdgeDispatch.Lib.GoPath
import EdgeDispatch.Streaming.ChunkKeys

/-! # What the edge asks of the origin (internal/edgeagent/fetcher.go)

The fetcher cleans the object key once more, puts it under `obj` in the path of the
origin's URL and sends the client's Range header along. -/

namespace EdgeDispatch.Edge.Origin
open Lib.ByteString Lib.GoStrings Lib.GoPath
open Streaming

/- The body of `sanitizeKey` is that of `validateStreamKey`. -/
def sanitizeKey (key : Bytes) : Bytes := join slash (segments key)

def validRangeHeader (rh : Bytes) : Bool :=
  if rh = [] then false
  else if contains rh (lit "\n") || contains rh (lit "\r") then false
  else hasPrefix rh (lit "bytes=")

/-- The object and the range that `executeFetchWithRetry` asks for, the range "" where it
sets no header; `none` where it refuses the header and asks for nothing. -/
def originRequest (key rangeHeader : Bytes) : Option (Bytes × Bytes) :=
  if rangeHeader ≠ [] ∧ validRangeHeader rangeHeader = false then none
  else some (sanitizeKey key, rangeHeader)

/- The path that `buildOriginURL` gives the URL of the origin, whose own path is `base`. -/
def originPath (base key : Bytes) : Bytes := joinPath [base, lit "obj", key]

/-! ### What is left of a key -/

theorem segment_proper {p : Bytes} (h : Segment p) : Proper p := by
  have hkept := h.kept
  simp only [keepSegment, decide_eq_true_eq] at hkept
  exact ⟨hkept.1, hkept.2.1, hkept.2.2, h.no_slash⟩

theorem originPath_nil (base : Bytes) : originPath base [] = joinPath [base, lit "obj"] := by
  have hfilter : [base, lit "obj", []].filter (· ≠ []) = [base, lit "obj"].filter (· ≠ []) := by
    simp [List.filter_cons]
  rw [originPath, joinPath, joinPath, hfilter]

/-- The origin's URL names the segments of the cleaned key, below the path of all objects. -/
theorem originPath_join (base : Bytes) {parts : List Bytes} (hne : parts ≠ [])
    (h : ∀ p ∈ parts, Segment p) :
    originPath base (join slash parts) = originPath base [] ++ slash :: join slash parts := by
  have hobj : Proper (lit "obj") := ⟨by decide, by decide, by decide, by decide⟩
  rw [originPath_nil]
  exact joinPath_below [base] hobj hne fun p hp => segment_proper (h p hp)

theorem originPath_sanitizeKey (base key : Bytes) (h : sanitizeKey key ≠ []) :
    originPath base (sanitizeKey key) = originPath base [] ++ slash :: sanitizeKey key := by
  refine originPath_join base (fun hnil => h ?_) fun p hp => segment_of_mem hp
  rw [sanitizeKey, hnil]
  rfl

theorem backslash_notMem_sanitizeKey (key : Bytes) : backslash ∉ sanitizeKey key := by
  intro hmem
  rcases mem_join hmem with hb | ⟨p, hp, hb⟩
  · exact absurd hb (by decide)
  · exact (segment_of_mem hp).no_backslash hb

theorem dot_notMem_spaces : ∀ b ∈ lit "..", ∀ c ∈ spaces, b ∉ c := by
  decide +kernel

theorem dots_infix_sanitizeKey {key : Bytes} (h : lit ".." <:+: sanitizeKey key) :
    lit ".." <:+: key := by
  obtain ⟨p, hp, hdots⟩ := (infix_join_iff (by decide) (by decide) _).mp h
  obtain ⟨hp, -⟩ := List.mem_filter.mp hp
  obtain ⟨q, hq, rfl⟩ := List.mem_map.mp hp
  have hq' : lit ".." <:+: (trimSpace key).map fun b => if b = backslash then slash else b := by
    rw [← join_split slash ((trimSpace key).map _), infix_join_iff (by decide) (by decide)]
    exact ⟨q, hq, hdots.trans (trimSpace_isInfix q)⟩
  have hplain : ∀ b, (if b = backslash then slash else b) ∈ lit ".." →
      (if b = backslash then slash else b) = b := by
    intro b hb
    split at hb
    · exact absurd hb (by decide)
    · rename_i hne
      exact if_neg hne
  exact (infix_of_infix_map hplain hq').trans (trimSpace_isInfix key)

end EdgeDispatch.Edge.Origin
