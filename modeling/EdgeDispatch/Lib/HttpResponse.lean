import EdgeDispatch.Lib.GoStrconv

/-! # Response writers of net/http

A response to a request other than HEAD. The first WriteHeader or Write fixes the status and
the header; with a Content-Length, a Write that would go beyond it is refused. -/

namespace EdgeDispatch.Lib.HttpResponse
open Lib.ByteString Lib.GoStrconv

/-- The fields that say how to read a body. A field that is missing is empty. -/
structure Header where
  contentType : Bytes
  contentLength : Bytes
  contentEncoding : Bytes
  deriving DecidableEq

inductive Field where
  | contentType
  | contentLength
  | contentEncoding
  deriving DecidableEq

/- Deleting a field is setting it to the empty string. -/
def Header.set (h : Header) (f : Field) (value : Bytes) : Header :=
  match f with
  | .contentType => { h with contentType := value }
  | .contentLength => { h with contentLength := value }
  | .contentEncoding => { h with contentEncoding := value }

/-- A status that is not informational. -/
structure Status where
  code : ℕ
  final : 200 ≤ code
  deriving DecidableEq

def Status.ok : Status := ⟨200, le_rfl⟩

/- `bodyAllowedForStatus` -/
def Status.bodyAllowed (s : Status) : Bool := s.code ≠ 204 ∧ s.code ≠ 304

/- A value that is no number, or a negative one, is dropped. -/
def declared (h : Header) : Option ℕ :=
  (parseInt h.contentLength).bind fun v => if 0 ≤ v then some v.toInt.toNat else none

structure Committed where
  status : Status
  header : Header
  deriving DecidableEq

/-- `written` counts what was asked to be written, refused or not. -/
structure Writer where
  header : Header
  committed : Option Committed
  written : ℕ
  sent : Bytes

/- A writer before anything is written. -/
def Writer.blank (h : Header) : Writer := ⟨h, none, 0, []⟩

def Writer.writeHeader (w : Writer) (s : Status) : Writer :=
  match w.committed with
  | some _ => w
  | none => { w with committed := some ⟨s, w.header⟩ }

def Writer.put (w : Writer) (c : Committed) (data : Bytes) : Writer :=
  if data = [] ∨ c.status.bodyAllowed = false then w
  else if (declared c.header).any (· < w.written + data.length) then
    { w with written := w.written + data.length }
  else { w with written := w.written + data.length, sent := w.sent ++ data }

def Writer.write (w : Writer) (data : Bytes) : Writer :=
  match w.committed with
  | some c => w.put c data
  | none => (w.writeHeader .ok).put ⟨.ok, w.header⟩ data

/-! ### What gets past a Content-Length -/

/-- The writes that are let through, after `written` bytes. -/
def accept (limit : Option ℕ) : ℕ → List Bytes → Bytes
  | _, [] => []
  | written, b :: rest =>
    if limit.any (· < written + b.length) then accept limit (written + b.length) rest
    else b ++ accept limit (written + b.length) rest

theorem accept_none (written : ℕ) (bs : List Bytes) : accept none written bs = bs.flatten := by
  induction bs generalizing written with
  | nil => rfl
  | cons b rest ih => simp [accept, ih]

theorem accept_append (limit : Option ℕ) (written : ℕ) (bs more : List Bytes) :
    accept limit written (bs ++ more) =
      accept limit written bs ++ accept limit (written + bs.flatten.length) more := by
  induction bs generalizing written with
  | nil => rfl
  | cons b rest ih =>
    have hsum : written + b.length + rest.flatten.length = written + (b :: rest).flatten.length := by
      rw [List.flatten_cons, List.length_append]
      omega
    simp only [List.cons_append, accept, ih, hsum]
    split
    · rfl
    · rw [List.append_assoc]

theorem accept_within {n : ℕ} (written : ℕ) (bs : List Bytes)
    (h : written + bs.flatten.length ≤ n) : accept (some n) written bs = bs.flatten := by
  induction bs generalizing written with
  | nil => rfl
  | cons b rest ih =>
    rw [List.flatten_cons, List.length_append] at h
    have hfits : ¬ (some n).any (· < written + b.length) = true := by
      simp only [Option.any_some, decide_eq_true_eq]
      omega
    rw [accept, if_neg hfits, ih (written + b.length) (by omega), List.flatten_cons]

theorem accept_full {n : ℕ} (written : ℕ) (bs : List Bytes) (h : n ≤ written) :
    accept (some n) written bs = [] := by
  induction bs generalizing written with
  | nil => rfl
  | cons b rest ih =>
    have hrest := ih (written + b.length) (by omega)
    cases b with
    | nil => simpa [accept] using hrest
    | cons x b =>
      have hover : (some n).any (· < written + (x :: b).length) = true := by
        simp only [Option.any_some, decide_eq_true_eq, List.length_cons]
        omega
      rw [accept, if_pos hover, hrest]

/- Once a write is refused, so are all others. -/
theorem accept_isPrefix (limit : Option ℕ) (written : ℕ) (bs : List Bytes) :
    accept limit written bs <+: bs.flatten := by
  induction bs generalizing written with
  | nil => exact List.prefix_rfl
  | cons b rest ih =>
    rw [accept, List.flatten_cons]
    split
    · rename_i hover
      cases limit with
      | none => cases hover
      | some n =>
        have hn : n < written + b.length := by simpa using hover
        rw [accept_full (written + b.length) rest hn.le]
        exact List.nil_prefix
    · exact (List.prefix_append_right_inj b).mpr (ih (written + b.length))

/-- All is sent, and is as long as declared, exactly if no length or the right one is
declared. -/
theorem accept_whole_iff (limit : Option ℕ) (bs : List Bytes) :
    (accept limit 0 bs = bs.flatten ∧ ∀ n, limit = some n → n = (accept limit 0 bs).length) ↔
      limit = none ∨ limit = some bs.flatten.length := by
  constructor
  · rintro ⟨hall, hlen⟩
    cases limit with
    | none => exact .inl rfl
    | some n => exact .inr (by rw [hlen n rfl, hall])
  · rintro (rfl | rfl)
    · exact ⟨accept_none 0 bs, nofun⟩
    · have hall := accept_within 0 bs (by omega : 0 + bs.flatten.length ≤ bs.flatten.length)
      exact ⟨hall, fun n hn => by rw [hall, Option.some.inj hn]⟩

/-! ### Writes after the header is fixed -/

/-- `w'` is `w` after the writes `bs`, under the header and status `c`. -/
structure Pushed (c : Committed) (bs : List Bytes) (w w' : Writer) : Prop where
  committed : w'.committed = some c
  written : c.status.bodyAllowed = true → w'.written = w.written + bs.flatten.length
  sent : c.status.bodyAllowed = true →
    w'.sent = w.sent ++ accept (declared c.header) w.written bs
  none_sent : c.status.bodyAllowed = false → w'.sent = w.sent

variable {c : Committed} {w : Writer}

/- A change of the header no longer matters. -/
theorem Pushed.header (h : w.committed = some c) (header : Header) :
    Pushed c [] w { w with header := header } :=
  ⟨h, fun _ => rfl, fun _ => (List.append_nil _).symm, fun _ => rfl⟩

theorem Pushed.refl (h : w.committed = some c) : Pushed c [] w w :=
  .header h w.header

theorem Pushed.trans {bs more : List Bytes} {w' w'' : Writer} (h : Pushed c bs w w')
    (h' : Pushed c more w' w'') : Pushed c (bs ++ more) w w'' := by
  refine ⟨h'.committed, fun hb => ?_, fun hb => ?_, fun hb => (h'.none_sent hb).trans (h.none_sent hb)⟩
  · rw [h'.written hb, h.written hb, List.flatten_append, List.length_append]
    omega
  · rw [h'.sent hb, h.sent hb, h.written hb, accept_append, List.append_assoc]

theorem writeHeader_of_committed (h : w.committed = some c) (s : Status) : w.writeHeader s = w := by
  rw [Writer.writeHeader, h]

theorem put_pushed (h : w.committed = some c) (data : Bytes) :
    Pushed c [data] w (w.put c data) := by
  unfold Writer.put
  split
  · rename_i hskip
    refine ⟨h, fun hb => ?_, fun hb => ?_, fun _ => rfl⟩ <;>
      obtain rfl : data = [] := hskip.resolve_right (by rw [hb]; nofun)
    · rfl
    · simp [accept]
  · rename_i hkeep
    have hallowed : ¬ c.status.bodyAllowed = false := fun hb => hkeep (.inr hb)
    split
    · rename_i hover
      exact ⟨h, fun _ => by simp, fun _ => by simp [accept, hover], fun _ => rfl⟩
    · rename_i hfits
      exact ⟨h, fun _ => by simp, fun _ => by simp [accept, hfits], fun hb => absurd hb hallowed⟩

theorem write_pushed (h : w.committed = some c) (data : Bytes) :
    Pushed c [data] w (w.write data) := by
  rw [Writer.write, h]
  exact put_pushed h data

theorem writes_pushed (h : w.committed = some c) (bs : List Bytes) :
    Pushed c bs w (bs.foldl Writer.write w) := by
  induction bs generalizing w with
  | nil => exact .refl h
  | cons b rest ih =>
    have hfirst := write_pushed h b
    exact hfirst.trans (ih hfirst.committed)

/- Fixing the header sends nothing. -/
theorem Pushed.of_writeHeader {bs : List Bytes} {h : Header} {s : Status}
    (hp : Pushed c bs ((Writer.blank h).writeHeader s) w) (h' : Header) :
    Pushed c bs (.blank h') w :=
  ⟨hp.committed, hp.written, hp.sent, hp.none_sent⟩

/- The first write of all fixes the header. -/
theorem writes_blank (h : Header) {bs : List Bytes} (hne : bs ≠ []) :
    Pushed ⟨.ok, h⟩ bs ((Writer.blank h).writeHeader .ok) (bs.foldl Writer.write (.blank h)) := by
  obtain ⟨b, rest, rfl⟩ := List.exists_cons_of_ne_nil hne
  have hfirst : Pushed ⟨.ok, h⟩ [b] ((Writer.blank h).writeHeader .ok) ((Writer.blank h).write b) :=
    put_pushed rfl b
  exact hfirst.trans (writes_pushed hfirst.committed rest)

end EdgeDispatch.Lib.HttpResponse
