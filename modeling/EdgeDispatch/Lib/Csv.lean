import EdgeDispatch.Lib.ByteString

/-! # Comma-separated values

A file is a sequence of records, each ended by LF or CRLF. A record has one field or more, with
commas between them. A field in quotes holds any bytes, its quotes doubled; without quotes it
holds neither quote nor comma nor CR nor LF. -/

namespace EdgeDispatch.Lib.Csv
open Lib.ByteString

/- Quote, comma, CR and LF. -/
def special (b : Byte) : Bool := b = 34 || b = 44 || b = 13 || b = 10

def double (s : Bytes) : Bytes := s.flatMap fun b => if b = 34 then [34, 34] else [b]

/-- The text of a field, and what it holds. -/
inductive Field : Bytes → Bytes → Prop where
  | plain {s : Bytes} (h : ∀ b ∈ s, special b = false) : Field s s
  | quoted (s : Bytes) : Field (34 :: double s ++ [34]) s

inductive Record : Bytes → List Bytes → Prop where
  | last {text value : Bytes} (h : Field text value) : Record text [value]
  | cons {text value texts : Bytes} {values : List Bytes} (h : Field text value)
      (hr : Record texts values) : Record (text ++ 44 :: texts) (value :: values)

inductive File : Bytes → List (List Bytes) → Prop where
  | nil : File [] []
  | lf {text texts : Bytes} {values : List Bytes} {records : List (List Bytes)}
      (h : Record text values) (hf : File texts records) :
      File (text ++ 10 :: texts) (values :: records)
  | crlf {text texts : Bytes} {values : List Bytes} {records : List (List Bytes)}
      (h : Record text values) (hf : File texts records) :
      File (text ++ 13 :: 10 :: texts) (values :: records)

/-! ### Reading a file -/

/-- Where the reader is: at the beginning of a record or of a further field, in a field without
quotes, in a field in quotes, behind its second quote, or behind a CR. -/
inductive Mode where
  | line
  | field
  | plain
  | quoted
  | closed
  | cr

inductive Move where
  | fail
  | go (mode : Mode) (add : Bytes)
  | endField
  | endRecord

/- What may stand behind a field. -/
def delimiter (b : Byte) : Move :=
  if b = 44 then .endField else if b = 10 then .endRecord else if b = 13 then .go .cr [] else .fail

def move : Mode → Byte → Move
  | .line, b | .field, b =>
    if b = 34 then .go .quoted [] else if special b then delimiter b else .go .plain [b]
  | .plain, b => if special b then delimiter b else .go .plain [b]
  | .quoted, b => if b = 34 then .go .closed [] else .go .quoted [b]
  | .closed, b => if b = 34 then .go .quoted [34] else delimiter b
  | .cr, b => if b = 10 then .endRecord else .fail

/- `cur` is what the field at hand holds so far, and `fields` are those before it. -/
def scan : Mode → Bytes → List Bytes → Bytes → Option (List (List Bytes))
  | .line, _, _, [] => some []
  | _, _, _, [] => none
  | mode, cur, fields, b :: rest =>
    match move mode b with
    | .fail => none
    | .go mode' add => scan mode' (cur ++ add) fields rest
    | .endField => scan .field [] (fields ++ [cur]) rest
    | .endRecord => (scan .line [] [] rest).map ((fields ++ [cur]) :: ·)

def parse (text : Bytes) : Option (List (List Bytes)) := scan .line [] [] text

section Scan
variable {mode mode' : Mode} {cur add : Bytes} {fields : List Bytes} {b : Byte} {rest : Bytes}

theorem scan_fail (h : move mode b = .fail) : scan mode cur fields (b :: rest) = none := by
  cases mode <;> rw [scan, h]

theorem scan_go (h : move mode b = .go mode' add) :
    scan mode cur fields (b :: rest) = scan mode' (cur ++ add) fields rest := by
  cases mode <;> rw [scan, h]

theorem scan_endField (h : move mode b = .endField) :
    scan mode cur fields (b :: rest) = scan .field [] (fields ++ [cur]) rest := by
  cases mode <;> rw [scan, h]

theorem scan_endRecord (h : move mode b = .endRecord) :
    scan mode cur fields (b :: rest) = (scan .line [] [] rest).map ((fields ++ [cur]) :: ·) := by
  cases mode <;> rw [scan, h]

end Scan

/-! ### What is read is a file -/

theorem double_append (s t : Bytes) : double (s ++ t) = double s ++ double t := List.flatMap_append

theorem Record.concat {text value texts : Bytes} {values : List Bytes} (hr : Record texts values)
    (h : Field text value) : Record (texts ++ 44 :: text) (values ++ [value]) := by
  induction hr with
  | last hlast => exact .cons hlast (.last h)
  | cons hfirst _ ih =>
    rw [List.append_assoc, List.cons_append, List.cons_append]
    exact .cons hfirst ih

/- The text of a record up to the beginning of a field. -/
inductive Before : List Bytes → Bytes → Prop where
  | first : Before [] []
  | comma {fields : List Bytes} {text : Bytes} (h : Record text fields) :
      Before fields (text ++ [44])

theorem Before.record {fields : List Bytes} {before text value : Bytes} (hb : Before fields before)
    (h : Field text value) : Record (before ++ text) (fields ++ [value]) := by
  cases hb with
  | first => exact .last h
  | comma hr =>
    rw [List.append_assoc]
    exact hr.concat h

/-- The text of a record as far as it is read. -/
inductive Reading : Mode → Bytes → List Bytes → Bytes → Prop where
  | line : Reading .line [] [] []
  | field {fields : List Bytes} {text : Bytes} (h : Record text fields) :
      Reading .field [] fields (text ++ [44])
  | plain {fields : List Bytes} {before cur : Bytes} (h : Before fields before)
      (hs : ∀ b ∈ cur, special b = false) : Reading .plain cur fields (before ++ cur)
  | quoted {fields : List Bytes} {before : Bytes} (cur : Bytes) (h : Before fields before) :
      Reading .quoted cur fields (before ++ 34 :: double cur)
  | closed {fields : List Bytes} {before : Bytes} (cur : Bytes) (h : Before fields before) :
      Reading .closed cur fields (before ++ (34 :: double cur ++ [34]))
  | cr {fields : List Bytes} {text cur : Bytes} (h : Record text (fields ++ [cur])) :
      Reading .cr cur fields (text ++ [13])

section Sound
variable {mode mode' : Mode} {cur add text : Bytes} {fields : List Bytes} {b : Byte}

theorem Reading.start (h : Reading mode cur fields text) (hm : mode = .line ∨ mode = .field) :
    cur = [] ∧ Before fields text := by
  cases h with
  | line => exact ⟨rfl, .first⟩
  | field hr => exact ⟨rfl, .comma hr⟩
  | plain _ _ => rcases hm with hm | hm <;> cases hm
  | quoted _ _ => rcases hm with hm | hm <;> cases hm
  | closed _ _ => rcases hm with hm | hm <;> cases hm
  | cr _ => rcases hm with hm | hm <;> cases hm

/- A field ends where a delimiter may stand. -/
theorem Reading.record (h : Reading mode cur fields text) (hq : mode ≠ .quoted) (hc : mode ≠ .cr) :
    Record text (fields ++ [cur]) := by
  have hempty : Field [] [] := .plain fun _ hb => absurd hb List.not_mem_nil
  cases h with
  | line => exact .last hempty
  | field hr => exact hr.concat hempty
  | plain hb hs => exact hb.record (.plain hs)
  | quoted _ _ => exact absurd rfl hq
  | closed cur hb => exact hb.record (.quoted cur)
  | cr _ => exact absurd rfl hc

theorem delimiter_endField : delimiter b = .endField ↔ b = 44 := by
  unfold delimiter
  split
  · simp_all
  · split
    · simp_all
    · split <;> simp_all

theorem delimiter_endRecord : delimiter b = .endRecord ↔ b = 10 := by
  unfold delimiter
  split
  · simp_all
  · split
    · simp_all
    · split <;> simp_all

theorem delimiter_go : delimiter b = .go mode' add ↔ b = 13 ∧ mode' = .cr ∧ add = [] := by
  unfold delimiter
  split
  · simp_all
  · split
    · simp_all
    · split
      · simp_all [eq_comm]
      · simp_all

theorem Reading.cr_of_delimiter (h : Reading mode cur fields text) (hq : mode ≠ .quoted)
    (hc : mode ≠ .cr) (hm : delimiter b = .go mode' add) :
    Reading mode' (cur ++ add) fields (text ++ [b]) := by
  obtain ⟨rfl, rfl, rfl⟩ := delimiter_go.mp hm
  rw [List.append_nil]
  exact .cr (h.record hq hc)

/- The first byte of a field. -/
theorem Reading.begin (h : Reading mode cur fields text) (hstart : mode = .line ∨ mode = .field)
    (hm : (if b = 34 then Move.go .quoted [] else if special b then delimiter b
      else .go .plain [b]) = .go mode' add) :
    Reading mode' (cur ++ add) fields (text ++ [b]) := by
  obtain ⟨hcur, hb⟩ := h.start hstart
  split at hm
  · rename_i hquote
    cases hm
    rw [hcur, hquote]
    exact .quoted [] hb
  · split at hm
    · refine h.cr_of_delimiter ?_ ?_ hm <;> rcases hstart with rfl | rfl <;> simp
    · rename_i hplain
      cases hm
      rw [hcur]
      exact .plain hb (by simpa using hplain)

theorem Reading.go (h : Reading mode cur fields text) (hm : move mode b = .go mode' add) :
    Reading mode' (cur ++ add) fields (text ++ [b]) := by
  cases mode with
  | line => exact h.begin (Or.inl rfl) hm
  | field => exact h.begin (Or.inr rfl) hm
  | plain =>
    simp only [move] at hm
    split at hm
    · exact h.cr_of_delimiter nofun nofun hm
    · rename_i hplain
      cases hm
      cases h with
      | plain hb hs =>
        rw [List.append_assoc]
        refine .plain hb fun x hx => ?_
        rcases List.mem_append.mp hx with hx | hx
        · exact hs x hx
        · rw [List.mem_singleton.mp hx]
          simpa using hplain
  | quoted =>
    simp only [move] at hm
    cases h with
    | quoted cur hb =>
      rw [List.append_assoc]
      split at hm
      · rename_i hquote
        cases hm
        rw [List.append_nil, hquote]
        exact .closed cur hb
      · rename_i hother
        cases hm
        have hdouble : double (cur ++ [b]) = double cur ++ [b] := by
          rw [double_append]
          simp [double, hother]
        rw [List.cons_append, ← hdouble]
        exact .quoted _ hb
  | closed =>
    simp only [move] at hm
    split at hm
    · rename_i hquote
      cases hm
      cases h with
      | closed cur hb =>
        have hdouble : double (cur ++ [34]) = double cur ++ [34, 34] := double_append cur [34]
        rw [List.append_assoc, hquote, List.append_assoc, List.cons_append]
        show Reading .quoted _ fields (_ ++ 34 :: (double cur ++ [34, 34]))
        rw [← hdouble]
        exact .quoted _ hb
    · exact h.cr_of_delimiter nofun nofun hm
  | cr =>
    simp only [move] at hm
    split at hm <;> cases hm

/- A field or a record ends at a delimiter, or at the LF behind a CR. -/
theorem move_ends {m : Move} (hm : move mode b = m) (hend : m = .endField ∨ m = .endRecord) :
    (mode ≠ .quoted ∧ mode ≠ .cr ∧ delimiter b = m) ∨ (mode = .cr ∧ b = 10 ∧ m = .endRecord) := by
  have hgo {mode' : Mode} {add : Bytes} : Move.go mode' add ≠ m := by
    rcases hend with rfl | rfl <;> nofun
  cases mode with
  | line | field =>
    simp only [move] at hm
    split at hm
    · exact absurd hm hgo
    · split at hm
      · exact Or.inl ⟨nofun, nofun, hm⟩
      · exact absurd hm hgo
  | plain =>
    simp only [move] at hm
    split at hm
    · exact Or.inl ⟨nofun, nofun, hm⟩
    · exact absurd hm hgo
  | quoted =>
    simp only [move] at hm
    split at hm <;> exact absurd hm hgo
  | closed =>
    simp only [move] at hm
    split at hm
    · exact absurd hm hgo
    · exact Or.inl ⟨nofun, nofun, hm⟩
  | cr =>
    simp only [move] at hm
    split at hm
    · exact Or.inr ⟨rfl, by assumption, hm.symm⟩
    · rcases hend with rfl | rfl <;> cases hm

theorem Reading.endField (h : Reading mode cur fields text) (hm : move mode b = .endField) :
    b = 44 ∧ Record text (fields ++ [cur]) := by
  rcases move_ends hm (Or.inl rfl) with ⟨hq, hc, hd⟩ | ⟨-, -, hm'⟩
  · exact ⟨delimiter_endField.mp hd, h.record hq hc⟩
  · cases hm'

variable {records : List (List Bytes)}

theorem Reading.endRecord (h : Reading mode cur fields text) (hm : move mode b = .endRecord)
    {rest : Bytes} (hrest : File rest records) :
    File (text ++ b :: rest) ((fields ++ [cur]) :: records) := by
  rcases move_ends hm (Or.inr rfl) with ⟨hq, hc, hd⟩ | ⟨rfl, rfl, -⟩
  · rw [delimiter_endRecord.mp hd]
    exact .lf (h.record hq hc) hrest
  · cases h with
    | cr hr =>
      rw [List.append_assoc]
      exact .crlf hr hrest

theorem scan_sound {rest : Bytes} (h : scan mode cur fields rest = some records)
    (hr : Reading mode cur fields text) : File (text ++ rest) records := by
  induction rest generalizing mode cur fields text records with
  | nil =>
    cases hr with
    | line =>
      cases h
      exact .nil
    | field _ => cases h
    | plain _ _ => cases h
    | quoted _ _ => cases h
    | closed _ _ => cases h
    | cr _ => cases h
  | cons b rest ih =>
    cases hm : move mode b with
    | fail =>
      rw [scan_fail hm] at h
      cases h
    | go mode' add =>
      rw [scan_go hm] at h
      rw [List.append_cons]
      exact ih h (hr.go hm)
    | endField =>
      rw [scan_endField hm] at h
      obtain ⟨rfl, hrecord⟩ := hr.endField hm
      rw [List.append_cons]
      exact ih h (.field hrecord)
    | endRecord =>
      rw [scan_endRecord hm] at h
      obtain ⟨more, hmore, rfl⟩ := Option.map_eq_some_iff.mp h
      exact hr.endRecord hm (ih hmore .line)

end Sound

/-! ### A file is read -/

section Complete
variable {mode : Mode} {fields : List Bytes} {d : Byte}

theorem move_start (hmode : mode = .line ∨ mode = .field) (b : Byte) :
    move mode b =
      if b = 34 then .go .quoted [] else if special b then delimiter b else .go .plain [b] := by
  rcases hmode with rfl | rfl <;> rfl

theorem scan_plain (cur : Bytes) (fields : List Bytes) {s : Bytes}
    (hs : ∀ b ∈ s, special b = false) (hd : special d = true) (hd34 : d ≠ 34) (rest : Bytes) :
    scan .plain cur fields (s ++ d :: rest) = scan .closed (cur ++ s) fields (d :: rest) := by
  induction s generalizing cur with
  | nil =>
    have hplain : move .plain d = move .closed d := by simp [move, hd, hd34]
    rw [List.nil_append, List.append_nil, scan, scan, hplain]
  | cons b s ih =>
    have hb : move .plain b = .go .plain [b] := by simp [move, hs b List.mem_cons_self]
    rw [List.cons_append, scan_go hb, ih _ fun x hx => hs x (List.mem_cons_of_mem b hx),
      List.append_assoc, List.singleton_append]

theorem scan_quoted (cur : Bytes) (fields : List Bytes) (s rest : Bytes) :
    scan .quoted cur fields (double s ++ 34 :: rest) = scan .closed (cur ++ s) fields rest := by
  induction s generalizing cur with
  | nil =>
    have hclose : move .quoted 34 = .go .closed [] := rfl
    show scan .quoted cur fields (34 :: rest) = _
    rw [scan_go hclose]
  | cons b s ih =>
    have hsplit : double (b :: s) = (if b = 34 then [34, 34] else [b]) ++ double s := rfl
    rw [hsplit, List.append_assoc]
    have hnext := ih (cur ++ [b])
    rw [List.append_assoc, List.singleton_append] at hnext
    split
    · rename_i hb
      have hclose : move .quoted 34 = .go .closed [] := rfl
      have hopen : move .closed 34 = .go .quoted [34] := rfl
      show scan .quoted cur fields (34 :: 34 :: (double s ++ 34 :: rest)) = _
      rw [hb] at hnext ⊢
      rw [scan_go hclose, scan_go hopen, List.append_nil, hnext]
    · rename_i hb
      have hstay : move .quoted b = .go .quoted [b] := by simp [move, hb]
      rw [List.singleton_append, scan_go hstay, hnext]

/-- Behind a field the reader is where it is behind a field in quotes. -/
theorem scan_field (hmode : mode = .line ∨ mode = .field) {text value : Bytes}
    (h : Field text value) (hd : special d = true) (hd34 : d ≠ 34) (rest : Bytes) :
    scan mode [] fields (text ++ d :: rest) = scan .closed value fields (d :: rest) := by
  cases h with
  | plain hs =>
    cases text with
    | nil =>
      have hsame : move mode d = move .closed d := by
        rw [move_start hmode]
        simp [move, hd, hd34]
      rcases hmode with rfl | rfl <;> rw [List.nil_append, scan, scan, hsame]
    | cons b s =>
      have hb : special b = false := hs b List.mem_cons_self
      have hb34 : b ≠ 34 := fun he => by
        rw [he] at hb
        cases hb
      have hgo : move mode b = .go .plain [b] := by
        rw [move_start hmode]
        simp [hb34, hb]
      rw [List.cons_append, scan_go hgo,
        scan_plain _ _ (fun x hx => hs x (List.mem_cons_of_mem b hx)) hd hd34]
      rfl
  | quoted =>
    have hgo : move mode 34 = .go .quoted [] := by
      rw [move_start hmode]
      rfl
    rw [List.append_assoc, List.cons_append, scan_go hgo, List.singleton_append]
    exact scan_quoted [] fields value (d :: rest)

theorem scan_closed_comma (cur : Bytes) (fields : List Bytes) (rest : Bytes) :
    scan .closed cur fields (44 :: rest) = scan .field [] (fields ++ [cur]) rest :=
  scan_endField rfl

theorem scan_closed_lf (cur : Bytes) (fields : List Bytes) (rest : Bytes) :
    scan .closed cur fields (10 :: rest) = (scan .line [] [] rest).map ((fields ++ [cur]) :: ·) :=
  scan_endRecord rfl

theorem scan_closed_cr (cur : Bytes) (fields : List Bytes) (rest : Bytes) :
    scan .closed cur fields (13 :: rest) = scan .cr cur fields rest := by
  have hcr : move .closed 13 = .go .cr [] := rfl
  rw [scan_go hcr, List.append_nil]

theorem scan_cr_lf (cur : Bytes) (fields : List Bytes) (rest : Bytes) :
    scan .cr cur fields (10 :: rest) = (scan .line [] [] rest).map ((fields ++ [cur]) :: ·) :=
  scan_endRecord rfl

/- A record in front of what may end it. -/
theorem scan_record (fields : List Bytes) (hmode : mode = .line ∨ mode = .field) {text : Bytes}
    {values : List Bytes} (h : Record text values) (hd : special d = true) (hd34 : d ≠ 34) :
    ∃ init last, values = init ++ [last] ∧ ∀ rest,
      scan mode [] fields (text ++ d :: rest) = scan .closed last (fields ++ init) (d :: rest) := by
  induction h generalizing mode fields with
  | @last text value hfield =>
    refine ⟨[], value, rfl, fun rest => ?_⟩
    rw [List.append_nil]
    exact scan_field hmode hfield hd hd34 rest
  | @cons text value texts values hfield _ ih =>
    obtain ⟨init, last, rfl, hscan⟩ := ih (fields ++ [value]) (Or.inr rfl)
    refine ⟨value :: init, last, rfl, fun rest => ?_⟩
    have hcomma : special 44 = true := rfl
    rw [List.append_assoc, List.cons_append, scan_field hmode hfield hcomma (by decide),
      scan_closed_comma, hscan, List.append_assoc, List.singleton_append]

theorem scan_complete {text : Bytes} {records : List (List Bytes)} (h : File text records) :
    scan .line [] [] text = some records := by
  induction h with
  | nil => rfl
  | lf hr _ ih =>
    obtain ⟨init, last, rfl, hscan⟩ := scan_record [] (Or.inl rfl) hr
      (show special 10 = true from rfl) (by decide)
    rw [hscan, scan_closed_lf, ih]
    rfl
  | crlf hr _ ih =>
    obtain ⟨init, last, rfl, hscan⟩ := scan_record [] (Or.inl rfl) hr
      (show special 13 = true from rfl) (by decide)
    rw [hscan, scan_closed_cr, scan_cr_lf, ih]
    rfl

end Complete

/-- The reader accepts the files, and reads what they hold. -/
theorem parse_eq_some_iff {text : Bytes} {records : List (List Bytes)} :
    parse text = some records ↔ File text records :=
  ⟨fun h => scan_sound h .line, scan_complete⟩

end EdgeDispatch.Lib.Csv
