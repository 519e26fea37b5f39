import EdgeDispatch.Lib.ByteString
import EdgeDispatch.Lib.Transition

/-! # Reading an object while it is overwritten
(internal/edgeagent/cache.go:114-140, 164-175, server.go:430-451)

Get opens the content file, asks for its size and returns both; the caller reads up to that
size. Put opens the same file with os.Create, which empties it, and io.Copy writes one piece
of the data after the other. Get takes no lock. -/

namespace EdgeDispatch.Edge.ReadDuringPut
open Lib.ByteString Lib.Transition

/-- `n` is the length that Get returned. -/
inductive Reader where
  | idle
  | opened
  | reading (n : ℕ) (got : Bytes)
  | finished (n : ℕ) (got : Bytes)
  deriving DecidableEq

inductive Writer where
  | idle
  | writing (left : List Bytes)
  deriving DecidableEq

structure State where
  file : Bytes
  reader : Reader
  writer : Writer
  deriving DecidableEq

def start (old : Bytes) : State := ⟨old, .idle, .idle⟩

inductive Act where
  | openFile
  | stat
  | read (q : ℕ)
  | create
  | write

def afterRead (file : Bytes) (n : ℕ) (got : Bytes) (q : ℕ) : Reader :=
  if readSome file n got q = [] then .finished n got
  else .reading n (got ++ readSome file n got q)

/- `pieces` is the new content as io.Copy writes it. -/
def step (pieces : List Bytes) (s : State) : Act → Option State
  | .openFile =>
    match s.reader with
    | .idle => some { s with reader := .opened }
    | _ => none
  | .stat =>
    match s.reader with
    | .opened => some { s with reader := .reading s.file.length [] }
    | _ => none
  | .read q =>
    match s.reader with
    | .reading n got => some { s with reader := afterRead s.file n got q }
    | _ => none
  | .create =>
    match s.writer with
    | .idle => some { s with file := [], writer := .writing pieces }
    | _ => none
  | .write =>
    match s.writer with
    | .writing (piece :: left) => some { s with file := s.file ++ piece, writer := .writing left }
    | _ => none

section
variable (old : Bytes) (pieces : List Bytes)

def IsVersion (bs : Bytes) : Prop := bs = old ∨ bs = pieces.flatten

/-- The bytes read are one version of the object, of the length that Get returned. -/
def Whole (s : State) : Prop :=
  ∀ n got, s.reader = .finished n got → got.length = n ∧ IsVersion old pieces got

/-- The size is not taken between os.Create and the last write, and os.Create does not come
between the size and the last read, if it makes a difference. -/
def Orderly (s : State) : Act → Prop
  | .stat => IsVersion old pieces s.file
  | .create => s.file = [] ∨ ∀ n got, s.reader ≠ .reading n got
  | _ => True

structure Consistent (s : State) : Prop where
  unwritten : s.writer = .idle → s.file = old
  written : ∀ left, s.writer = .writing left → ∃ done, pieces = done ++ left ∧ s.file = done.flatten
  reading : ∀ n got, s.reader = .reading n got →
    got = s.file.take got.length ∧ got.length ≤ n ∧ n ≤ s.file.length ∧
      IsVersion old pieces (s.file.take n)
  finished : Whole old pieces s

end

variable {old : Bytes} {pieces : List Bytes} {s t : State}

/-! ### One step -/

theorem append_readSome {file got : Bytes} {n q : ℕ} (hgot : got = file.take got.length) :
    got ++ readSome file n got q = file.take (got.length + min (q + 1) (n - got.length)) := by
  rw [List.take_add, ← hgot]
  rfl

theorem read_consistent (h : Consistent old pieces s) {n q : ℕ} {got : Bytes}
    (hreader : s.reader = .reading n got) :
    Consistent old pieces { s with reader := afterRead s.file n got q } := by
  obtain ⟨hgot, hle, hn, hversion⟩ := h.reading n got hreader
  have hempty := readSome_eq_nil_iff (q := q) hle hn
  refine ⟨h.unwritten, h.written, fun n' got' hread => ?_, fun n' got' hfinished => ?_⟩
  · unfold afterRead at hread
    split at hread
    · cases hread
    · rename_i hsome
      cases hread
      have happend := append_readSome (n := n) (q := q) hgot
      have hlength : (got ++ readSome s.file n got q).length =
          got.length + min (q + 1) (n - got.length) := by
        rw [happend, List.length_take]
        omega
      rw [hlength]
      exact ⟨happend, by omega, hn, hversion⟩
  · unfold afterRead at hfinished
    split at hfinished
    · rename_i hnone
      cases hfinished
      have hall := hempty.mp hnone
      refine ⟨hall, ?_⟩
      rw [hgot, hall]
      exact hversion
    · cases hfinished

theorem create_consistent (h : Consistent old pieces s)
    (horderly : Orderly old pieces s .create) :
    Consistent old pieces { s with file := [], writer := .writing pieces } := by
  refine ⟨nofun, fun left hleft => ?_, fun n got hreader => ?_, h.finished⟩
  · cases hleft
    exact ⟨[], rfl, rfl⟩
  · rcases horderly with hempty | hidle
    · have hreading := h.reading n got hreader
      rwa [hempty] at hreading
    · exact absurd hreader (hidle n got)

/- What has been read of a file stays what it was when more is written behind it. -/
theorem write_consistent (h : Consistent old pieces s) {piece : Bytes} {left : List Bytes}
    (hwriter : s.writer = .writing (piece :: left)) :
    Consistent old pieces { s with file := s.file ++ piece, writer := .writing left } := by
  obtain ⟨done, hpieces, hfile⟩ := h.written _ hwriter
  refine ⟨nofun, fun left' hleft => ?_, fun n got hreader => ?_, h.finished⟩
  · cases hleft
    refine ⟨done ++ [piece], by simp [hpieces], ?_⟩
    rw [List.flatten_append, ← hfile]
    simp
  · obtain ⟨hgot, hle, hn, hversion⟩ := h.reading n got hreader
    refine ⟨?_, hle, ?_, ?_⟩
    · rw [List.take_append_of_le_length (by omega)]
      exact hgot
    · rw [List.length_append]
      omega
    · rwa [List.take_append_of_le_length hn]

theorem step_consistent (s : State) (a : Act) (t : State) (h : Consistent old pieces s)
    (horderly : Orderly old pieces s a) (hstep : step pieces s a = some t) :
    Consistent old pieces t := by
  cases a with
  | openFile =>
    simp only [step] at hstep
    split at hstep
    · cases hstep
      exact ⟨h.unwritten, h.written, nofun, nofun⟩
    · cases hstep
  | stat =>
    simp only [step] at hstep
    split at hstep
    · cases hstep
      refine ⟨h.unwritten, h.written, fun n got hreader => ?_, nofun⟩
      cases hreader
      refine ⟨rfl, Nat.zero_le _, Nat.le_refl _, ?_⟩
      rw [List.take_length]
      exact horderly
    · cases hstep
  | read q =>
    simp only [step] at hstep
    split at hstep
    · rename_i hreader
      cases hstep
      exact read_consistent h hreader
    · cases hstep
  | create =>
    simp only [step] at hstep
    split at hstep
    · cases hstep
      exact create_consistent h horderly
    · cases hstep
  | write =>
    simp only [step] at hstep
    split at hstep
    · rename_i hwriter
      cases hstep
      exact write_consistent h hwriter
    · cases hstep

theorem start_consistent (old : Bytes) (pieces : List Bytes) : Consistent old pieces (start old) :=
  ⟨fun _ => rfl, nofun, nofun, nofun⟩

/-! ### Contents that no interleaving can mix -/

theorem one_write_iff :
    (pieces.filter fun piece => !piece.isEmpty).length ≤ 1 ↔
      ∀ done left, pieces = done ++ left → done.flatten = [] ∨ left.flatten = [] := by
  have hnil : ∀ ps : List Bytes, ps.flatten = [] ↔ (ps.filter fun p => !p.isEmpty).length = 0 := by
    intro ps
    simp [List.flatten_eq_nil_iff, List.filter_eq_nil_iff]
  constructor
  · rintro h done left rfl
    rw [List.filter_append, List.length_append] at h
    rw [hnil, hnil]
    omega
  · intro h
    induction pieces with
    | nil => exact Nat.zero_le 1
    | cons piece rest ih =>
      cases piece with
      | nil => exact ih fun done left hsplit => h ([] :: done) left (by rw [hsplit]; rfl)
      | cons b bs =>
        have hrest := (h [b :: bs] rest rfl).resolve_left (by simp)
        have hcons : ((b :: bs) :: rest).filter (fun p => !p.isEmpty) =
            (b :: bs) :: rest.filter fun p => !p.isEmpty := rfl
        rw [hcons, List.length_cons, (hnil rest).mp hrest]

theorem orderly_of_one_write (hpieces : (pieces.filter fun piece => !piece.isEmpty).length ≤ 1)
    (h : Consistent [] pieces s) {a : Act} (hstep : step pieces s a = some t) :
    Orderly [] pieces s a := by
  have hfile : IsVersion [] pieces s.file := by
    cases hwriter : s.writer with
    | idle => exact Or.inl (h.unwritten hwriter)
    | writing left =>
      obtain ⟨done, hsplit, hfile⟩ := h.written left hwriter
      rcases one_write_iff.mp hpieces done left hsplit with hdone | hleft
      · exact Or.inl (hfile.trans hdone)
      · refine Or.inr (hfile.trans ?_)
        rw [hsplit, List.flatten_append, hleft, List.append_nil]
  cases a with
  | stat => exact hfile
  | create =>
    simp only [step] at hstep
    split at hstep
    · rename_i hwriter
      exact Or.inl (h.unwritten hwriter)
    · cases hstep
  | openFile => trivial
  | read q => trivial
  | write => trivial

/-! ### Runs in which the reader gets something else -/

theorem exec_writes (pieces done left : List Bytes) (file : Bytes) (reader : Reader) :
    exec (step pieces) (done.map fun _ => .write) ⟨file, reader, .writing (done ++ left)⟩ =
      some ⟨file ++ done.flatten, reader, .writing left⟩ := by
  induction done generalizing file with
  | nil => simp [exec]
  | cons piece done ih =>
    rw [List.map_cons, exec]
    refine (ih (file ++ piece)).trans ?_
    rw [List.append_assoc]
    rfl

theorem reach_written (old : Bytes) (done left : List Bytes) :
    Reach (step (done ++ left)) Free (start old) ⟨done.flatten, .idle, .writing left⟩ :=
  (Reach.start.next .create trivial rfl).trans
    (reach_of_guarded _ (guarded_free _ _ _) (exec_writes (done ++ left) done left [] .idle))

/- A reader that nothing interrupts. -/
theorem reach_read_all {start : State} {file : Bytes} {writer : Writer} (hfile : file ≠ [])
    (h : Reach (step pieces) Free start ⟨file, .idle, writer⟩) :
    Reach (step pieces) Free start ⟨file, .finished file.length file, writer⟩ := by
  have hread : afterRead file file.length [] file.length = .reading file.length file := by
    simp [afterRead, readSome, hfile]
  have hend : afterRead file file.length file 0 = .finished file.length file := by
    simp [afterRead, readSome]
  have hfirst : step pieces ⟨file, .reading file.length [], writer⟩ (.read file.length) =
      some ⟨file, .reading file.length file, writer⟩ := by
    rw [← hread]
    rfl
  have hlast : step pieces ⟨file, .reading file.length file, writer⟩ (.read 0) =
      some ⟨file, .finished file.length file, writer⟩ := by
    rw [← hend]
    rfl
  have hstat : Reach (step pieces) Free start ⟨file, .reading file.length [], writer⟩ :=
    (h.next .openFile trivial rfl).next .stat trivial rfl
  exact (hstat.next _ trivial hfirst).next _ trivial hlast

/- The file is emptied after its size was taken. -/
theorem reach_truncated (old : Bytes) (pieces : List Bytes) :
    Reach (step pieces) Free (start old) ⟨[], .finished old.length [], .writing pieces⟩ := by
  have hread : step pieces ⟨[], .reading old.length [], .writing pieces⟩ (.read 0) =
      some ⟨[], .finished old.length [], .writing pieces⟩ := by
    simp [step, afterRead, readSome]
  have hcreate : Reach (step pieces) Free (start old)
      ⟨[], .reading old.length [], .writing pieces⟩ :=
    ((Reach.start.next .openFile trivial rfl).next .stat trivial rfl).next .create trivial rfl
  exact hcreate.next _ trivial hread

/-- Every interleaving gives a whole version just if the old content is empty and the new one
is written at once; for any contents, the orderly interleavings do. -/
theorem reads_whole_iff (old : Bytes) (pieces : List Bytes) :
    ((∀ s, Reach (step pieces) Free (start old) s → Whole old pieces s) ↔
      old = [] ∧ (pieces.filter fun piece => !piece.isEmpty).length ≤ 1) ∧
    ∀ s, Reach (step pieces) (Orderly old pieces) (start old) s → Whole old pieces s := by
  refine ⟨⟨fun h => ?_, ?_⟩, fun s hs => ?_⟩
  · have hold : old = [] := by
      have hlength := (h _ (reach_truncated old pieces) old.length [] rfl).1
      exact List.length_eq_zero_iff.mp hlength.symm
    refine ⟨hold, one_write_iff.mpr ?_⟩
    rintro done left rfl
    by_cases hdone : done.flatten = []
    · exact Or.inl hdone
    · -- the size is taken in the middle of the writes
      have hpartial := reach_read_all hdone (reach_written old done left)
      rcases (h _ hpartial _ _ rfl).2 with hnone | hall
      · exact absurd (hnone.trans hold) hdone
      · rw [List.flatten_append] at hall
        exact Or.inr (List.self_eq_append_right.mp hall)
  · rintro ⟨rfl, hpieces⟩ s hs
    refine (hs.invariant (Consistent [] pieces) (start_consistent [] pieces) ?_).finished
    intro s a t hinv _ hstep
    exact step_consistent s a t hinv (orderly_of_one_write hpieces hinv hstep) hstep
  · refine (hs.invariant (Consistent old pieces) (start_consistent old pieces) ?_).finished
    exact step_consistent

/- Two bytes are announced and none is there. -/
theorem truncated_read :
    (exec (step [[8, 8]]) [.openFile, .stat, .create, .read 31, .write] (start [7, 7])).map
      State.reader = some (.finished 2 []) := by
  decide +kernel

end EdgeDispatch.Edge.ReadDuringPut
