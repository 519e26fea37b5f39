import EdgeDispatch.Lib.GoStrings

/-! # Lexical paths (package path) -/

namespace EdgeDispatch.Lib.GoPath
open Lib.ByteString Lib.GoStrings

/- One element of the path, after those in `out`. -/
def cleanStep (rooted : Bool) (out : List Bytes) (elem : Bytes) : List Bytes :=
  if elem = [] ∨ elem = lit "." then out
  else if elem = lit ".." then
    match out.getLast? with
    | none => if rooted then out else out ++ [elem]
    | some last => if last = lit ".." then out ++ [elem] else out.dropLast
  else out ++ [elem]

def cleanElems (rooted : Bool) (elems : List Bytes) : List Bytes :=
  elems.foldl (cleanStep rooted) []

/- `path.Clean` -/
def clean (p : Bytes) : Bytes :=
  let rooted := hasPrefix p [slash]
  let elems := cleanElems rooted (split slash p)
  if rooted then slash :: join slash elems
  else if elems = [] then lit "."
  else join slash elems

/- `path.Join`, which skips empty elements. -/
def joinPath (elems : List Bytes) : Bytes :=
  let elems := elems.filter (· ≠ [])
  if elems = [] then [] else clean (join slash elems)

/-- An element that stays as it is. -/
structure Proper (elem : Bytes) : Prop where
  ne_nil : elem ≠ []
  ne_dot : elem ≠ lit "."
  ne_dots : elem ≠ lit ".."
  no_separator : slash ∉ elem

variable {more : List Bytes}

theorem cleanElems_append_proper (rooted : Bool) (elems : List Bytes) (h : ∀ e ∈ more, Proper e) :
    cleanElems rooted (elems ++ more) = cleanElems rooted elems ++ more := by
  unfold cleanElems
  rw [List.foldl_append]
  generalize elems.foldl (cleanStep rooted) [] = out
  induction more generalizing out with
  | nil => simp
  | cons e more ih =>
    have he := h e List.mem_cons_self
    have hstep : cleanStep rooted out e = out ++ [e] := by
      rw [cleanStep, if_neg (by simp [he.ne_nil, he.ne_dot]), if_neg he.ne_dots]
    rw [List.foldl_cons, hstep, ih (fun e' he' => h e' (List.mem_cons_of_mem e he'))]
    simp

theorem join_ne_nil (hm : more ≠ []) (h : ∀ e ∈ more, Proper e) : join slash more ≠ [] := by
  intro hnil
  have hsplit := split_join hm fun e he => (h e he).no_separator
  rw [hnil] at hsplit
  have hproper : Proper ([] : Bytes) := h [] (by rw [← hsplit]; exact List.mem_singleton_self _)
  exact hproper.ne_nil rfl

/- The elements of a path that ends in a proper one. -/
theorem cleanElems_last (rooted : Bool) (elems : List Bytes) {last : Bytes} (h : Proper last) :
    ∃ out, cleanElems rooted (split slash (join slash (elems ++ [last]))) =
      out ++ [last] := by
  have hlast : split slash last = [last] := split_of_notMem h.no_separator
  have hproper : ∀ e ∈ [last], Proper e := fun e he => List.mem_singleton.mp he ▸ h
  by_cases hnil : elems = []
  · subst hnil
    refine ⟨[], ?_⟩
    rw [List.nil_append, join_singleton, hlast]
    exact cleanElems_append_proper rooted [] hproper
  · rw [join_append hnil (List.cons_ne_nil _ _), join_singleton, split_append, hlast,
      cleanElems_append_proper rooted _ hproper]
    exact ⟨_, rfl⟩

theorem clean_below {p : Bytes} (hp : p ≠ []) (hm : more ≠ []) (h : ∀ e ∈ more, Proper e)
    (hne : cleanElems (hasPrefix p [slash]) (split slash p) ≠ []) :
    clean (p ++ slash :: join slash more) = clean p ++ slash :: join slash more := by
  have hrooted : hasPrefix (p ++ slash :: join slash more) [slash] =
      hasPrefix p [slash] := by
    obtain ⟨b, p, rfl⟩ := List.exists_cons_of_ne_nil hp
    rfl
  have helems : cleanElems (hasPrefix p [slash])
      (split slash (p ++ slash :: join slash more)) =
        cleanElems (hasPrefix p [slash]) (split slash p) ++ more := by
    rw [split_append, split_join hm fun e he => (h e he).no_separator,
      cleanElems_append_proper _ _ h]
  unfold clean
  simp only [hrooted, helems, join_append hne hm, hne, List.append_eq_nil_iff, false_and, if_false]
  split
  · rfl
  · rfl

/-- Proper elements joined to a path end up below that path, whatever it is. -/
theorem joinPath_below (elems : List Bytes) {last : Bytes} (hlast : Proper last) (hm : more ≠ [])
    (h : ∀ e ∈ more, Proper e) :
    joinPath (elems ++ [last, join slash more]) =
      joinPath (elems ++ [last]) ++ slash :: join slash more := by
  have hfilter : (elems ++ [last, join slash more]).filter (· ≠ []) =
      (elems.filter (· ≠ []) ++ [last]) ++ [join slash more] := by
    simp [hlast.ne_nil, join_ne_nil hm h]
  have hfilter' : (elems ++ [last]).filter (· ≠ []) = elems.filter (· ≠ []) ++ [last] := by
    simp [hlast.ne_nil]
  unfold joinPath
  rw [hfilter, hfilter', if_neg (by simp), if_neg (by simp),
    join_append (by simp) (List.cons_ne_nil _ _), join_singleton]
  have hlastElem := fun rooted => cleanElems_last rooted (elems.filter (· ≠ [])) hlast
  refine clean_below ?_ hm h ?_
  · intro hnil
    obtain ⟨out, hout⟩ := hlastElem false
    rw [hnil] at hout
    cases out <;> cases hout
  · obtain ⟨out, hout⟩ := hlastElem (hasPrefix _ [slash])
    rw [hout]
    simp

end EdgeDispatch.Lib.GoPath
