import EdgeDispatch.Tunnel.ServerStreams

/-! # A message loop that waits for no one (server.go:191-312, tunnel.go:130-161)

`messageLoop` looks the stream of a frame up and then sends to its channel, which has one
slot. The call that made the stream may have left in between. The client sends whatever
frames it likes: they are on the wire from the start. -/

namespace EdgeDispatch.Tunnel.ServerStreams
open Lib.Transition Lib.ByteString Tunnel.Wire
open Tunnel.SharedConn (Reply)

variable {ι : Type}

def receiving (frames : List Message) : State ι := { start with wire := frames }

/- The steps of the server. -/
def ServerSide (_ : State ι) : Act ι → Prop
  | .clientSend _ | .clientHeartbeat => False
  | _ => True

/- The frames that go to a stream's channel. -/
def isReply (m : Message) : Bool :=
  m.header.msgType = msgTypeResponse ∨ m.header.msgType = msgTypeData

def isEnd (m : Message) : Bool := m.header.msgType = msgTypeDataEnd

/-- Between two Response or Data frames of a stream there is a DataEnd frame of it. -/
def Ended (frames : List Message) : Prop :=
  ∀ before m between m' after, frames = before ++ m :: (between ++ m' :: after) →
    isReply m → isReply m' → m'.header.streamID = m.header.streamID →
    ∃ e ∈ between, isEnd e ∧ e.header.streamID = m.header.streamID

/- A Response or Data frame of the stream comes before any DataEnd frame of it. -/
def Owed (id : UInt32) (wire : List Message) : Prop :=
  ∃ between m after, wire = between ++ m :: after ∧ isReply m ∧ m.header.streamID = id ∧
    ∀ e ∈ between, isEnd e → e.header.streamID ≠ id

variable [DecidableEq ι]

/-- The loop has a message for a stream whose channel is full, and that is so for good: no
call and no reader receives from it again. -/
def Stalled (unmarshal : Bytes → Option ℤ) (reply : ι → Reply) (s : State ι) : Prop :=
  ∃ i m, ∀ t, Reach (step unmarshal reply) Free s t → t.loop = .sending i m ∧ t.response i ≠ none

/-! ### Frames -/

variable {m : Message}
variable {id : UInt32} {wire : List Message}

theorem owed_cons :
    Owed id (m :: wire) ↔ isReply m ∧ m.header.streamID = id ∨
      ¬ (isEnd m ∧ m.header.streamID = id) ∧ Owed id wire := by
  constructor
  · rintro ⟨between, m', after, hsplit, hreply, hid, hbetween⟩
    cases between with
    | nil =>
      obtain ⟨rfl, -⟩ := List.cons.inj hsplit
      exact Or.inl ⟨hreply, hid⟩
    | cons e between =>
      obtain ⟨rfl, hrest⟩ := List.cons.inj hsplit
      refine Or.inr ⟨fun hend => hbetween _ List.mem_cons_self hend.1 hend.2, ?_⟩
      exact ⟨between, m', after, hrest, hreply, hid,
        fun e he => hbetween e (List.mem_cons_of_mem _ he)⟩
  · rintro (⟨hreply, hid⟩ | ⟨hend, between, m', after, rfl, hreply, hid, hbetween⟩)
    · exact ⟨[], m, wire, rfl, hreply, hid, by simp⟩
    · refine ⟨m :: between, m', after, rfl, hreply, hid, fun e he => ?_⟩
      rcases List.mem_cons.mp he with rfl | he
      · exact fun hend' hid' => hend ⟨hend', hid'⟩
      · exact hbetween e he

theorem ended_iff {frames : List Message} :
    Ended frames ↔ ∀ before m after, frames = before ++ m :: after → isReply m →
      ¬ Owed m.header.streamID after := by
  constructor
  · rintro h before m after hsplit hreply ⟨between, m', rest, rfl, hreply', hid, hbetween⟩
    obtain ⟨e, he, hend, heid⟩ := h before m between m' rest hsplit hreply hreply' hid
    exact hbetween e he hend heid
  · intro h before m between m' after hsplit hreply hreply' hid
    by_contra hnone
    refine h before m _ hsplit hreply ⟨between, m', after, rfl, hreply', hid, ?_⟩
    exact fun e he hend heid => hnone ⟨e, he, hend, heid⟩

/- A frame that is not for the stream, or is neither a reply nor an end. -/
theorem owed_cons_other (h : m.header.streamID = id → isReply m = false ∧ isEnd m = false) :
    Owed id (m :: wire) ↔ Owed id wire := by
  rw [owed_cons]
  constructor
  · rintro (⟨hreply, hid⟩ | ⟨-, howed⟩)
    · rw [(h hid).1] at hreply
      cases hreply
    · exact howed
  · intro howed
    refine Or.inr ⟨fun hend => ?_, howed⟩
    rw [(h hend.2).2] at hend
    cases hend.1

/-! ### What `messageLoop` does with a frame -/

theorem dispatch_end {s : State ι} (h : isEnd m = true) :
    dispatch s m = removeStream s m.header.streamID := by
  have htype : m.header.msgType = msgTypeDataEnd := of_decide_eq_true h
  have hheartbeat : m.header.msgType ≠ msgTypeHeartbeat := by rw [htype]; decide
  have hreply : ¬ (m.header.msgType = msgTypeResponse ∨ m.header.msgType = msgTypeData) := by
    rw [htype]
    decide
  rw [dispatch, if_neg hheartbeat, if_neg hreply, if_pos htype]

theorem dispatch_else {s : State ι} (hreply : isReply m = false) (hend : isEnd m = false) :
    dispatch s m = s := by
  have hreply' := of_decide_eq_false hreply
  have hend' := of_decide_eq_false hend
  rw [dispatch, if_neg hreply', if_neg hend', ite_self]

/- Frames for streams that are not in the map are dropped. -/
theorem dispatch_unknown (s : State ι) (h : s.streams m.header.streamID = none) :
    dispatch s m = s := by
  have hremove : removeStream s m.header.streamID = s := by simp only [removeStream, h]
  simp only [dispatch, h, hremove, ite_self]

/-! ### Streams that get one frame each -/

/-- A stream in the map to which the loop has sent, or is sending, is owed no further frame;
and the slot for the message in the loop's hands is free. -/
structure Clear (frames : List Message) (s : State ι) : Prop where
  wire : ∃ before, frames = before ++ s.wire
  table : ∀ d i, s.streams d = some i → s.pc i ≠ .idle ∧ s.id i = d
  loop : ∀ i m, s.loop = .sending i m → s.pc i ≠ .idle ∧ s.response i = none
  used : ∀ d i, s.streams d = some i → (s.response i ≠ none ∨ ∃ m, s.loop = .sending i m) →
    ¬ Owed d s.wire

variable {unmarshal : Bytes → Option ℤ} {reply : ι → Reply} {frames : List Message} {s t : State ι}

omit [DecidableEq ι] in
theorem Clear.mono (h : Clear frames s) (hwire : t.wire = s.wire) (hid : t.id = s.id)
    (hpc : ∀ i, s.pc i ≠ .idle → t.pc i ≠ .idle)
    (hloop : ∀ i m, t.loop = .sending i m → s.loop = .sending i m)
    (htable : ∀ d i, t.streams d = some i → s.streams d = some i)
    (hresponse : ∀ i, t.response i = s.response i ∨ t.response i = none) : Clear frames t := by
  refine ⟨hwire ▸ h.wire, fun d i hd => ?_, fun i m hm => ?_, fun d i hd hused => ?_⟩
  · obtain ⟨hi, hdi⟩ := h.table d i (htable d i hd)
    exact ⟨hpc i hi, hid ▸ hdi⟩
  · obtain ⟨hi, hempty⟩ := h.loop i m (hloop i m hm)
    refine ⟨hpc i hi, ?_⟩
    rcases hresponse i with he | he
    · exact he.trans hempty
    · exact he
  · rw [hwire]
    refine h.used d i (htable d i hd) ?_
    rcases hused with hused | ⟨m, hm⟩
    · refine Or.inl fun hnone => hused ?_
      rcases hresponse i with he | he
      · exact he.trans hnone
      · exact he
    · exact Or.inr ⟨m, hloop i m hm⟩

theorem Clear.setPc (h : Clear frames s) (i : ι) {p : Pc} (hp : p ≠ .idle) :
    Clear frames (setPc s i p) := by
  refine h.mono rfl rfl (fun j hj => ?_) (fun _ _ hm => hm) (fun _ _ hd => hd) fun _ => Or.inl rfl
  show Function.update s.pc i p j ≠ .idle
  rw [Function.update_apply]
  split
  · exact hp
  · exact hj

theorem Clear.emptied (h : Clear frames s) (i : ι) :
    Clear frames { s with response := Function.update s.response i none } := by
  refine h.mono rfl rfl (fun _ hj => hj) (fun _ _ hm => hm) (fun _ _ hd => hd) fun j => ?_
  show Function.update s.response i none j = s.response j ∨ _
  by_cases hj : j = i
  · exact Or.inr (hj ▸ Function.update_self ..)
  · exact Or.inl (Function.update_of_ne hj ..)

theorem Clear.removeStream (h : Clear frames s) (d : UInt32) : Clear frames (removeStream s d) := by
  obtain ⟨dn, st, he, hst⟩ := removeStream_eq s d
  rw [he]
  exact h.mono rfl rfl (fun _ hj => hj) (fun _ _ hm => hm) hst fun _ => Or.inl rfl

theorem Clear.close (h : Clear frames s) : Clear frames (close s) := by
  obtain ⟨cl, dn, st, he, hst⟩ := close_eq s
  rw [he]
  exact h.mono rfl rfl (fun _ hj => hj) (fun _ _ hm => hm) hst fun _ => Or.inl rfl

variable {i : ι} {rest : List Message}

theorem createStream_clear (h : Clear frames s) (hi : s.pc i = .idle) :
    Clear frames (createStream reply s i) := by
  have hself := createStream_self reply s i
  have hfree : ∀ m, s.loop ≠ .sending i m := fun m hm => (h.loop i m hm).1 hi
  have hother : ∀ d j, d ≠ streamID (s.nextID + 1) →
      (createStream reply s i).streams d = some j → s.streams d = some j ∧ j ≠ i := by
    intro d j hd hj
    have hold : s.streams d = some j := by simpa [createStream, hd] using hj
    exact ⟨hold, fun he => (h.table d j hold).1 (he ▸ hi)⟩
  refine ⟨h.wire, fun d j hd => ?_, fun j m hm => ?_, fun d j hd hused => ?_⟩
  · by_cases hnew : d = streamID (s.nextID + 1)
    · obtain rfl : i = j := by simpa [createStream, hnew] using hd
      exact ⟨by simp [hself.1], by rw [hself.2, hnew]⟩
    · obtain ⟨hold, hne⟩ := hother d j hnew hd
      rw [(createStream_others reply s hne).1, (createStream_others reply s hne).2]
      exact h.table d j hold
  · have hne : j ≠ i := fun he => hfree m (he ▸ hm)
    rw [(createStream_others reply s hne).1]
    exact ⟨(h.loop j m hm).1, (Function.update_of_ne hne ..).trans (h.loop j m hm).2⟩
  · by_cases hnew : d = streamID (s.nextID + 1)
    · obtain rfl : i = j := by simpa [createStream, hnew] using hd
      rcases hused with hused | ⟨m, hm⟩
      · exact absurd (Function.update_self ..) hused
      · exact absurd hm (hfree m)
    · obtain ⟨hold, hne⟩ := hother d j hnew hd
      refine h.used d j hold (hused.imp_left fun hused hnone => hused ?_)
      exact (Function.update_of_ne hne ..).trans hnone

omit [DecidableEq ι] in
/- A frame is gone, which was not one that a stream still in the map waited for. -/
theorem Clear.dropped (h : Clear frames s) (hloop : s.loop = .reading) (hwire : s.wire = m :: rest)
    (dn : ι → Bool) {st : UInt32 → Option ι} (hst : ∀ d i, st d = some i → s.streams d = some i ∧
      (m.header.streamID = d → isReply m = false ∧ isEnd m = false)) :
    Clear frames { s with wire := rest, done := dn, streams := st } := by
  obtain ⟨before, hbefore⟩ := h.wire
  have hidle : ∀ i x, s.loop ≠ .sending i x := by
    intro i x hx
    rw [hloop] at hx
    cases hx
  refine ⟨⟨before ++ [m], by simp [hbefore, hwire]⟩, fun d i hd => h.table d i (hst d i hd).1,
    fun i x hx => absurd hx (hidle i x), fun d i hd hused => ?_⟩
  have hnot := h.used d i (hst d i hd).1 (hused.imp_right fun ⟨x, hx⟩ => absurd hx (hidle i x))
  rw [hwire, owed_cons_other (hst d i hd).2] at hnot
  exact hnot

omit [DecidableEq ι] in
/- The loop takes a frame for a stream, whose slot must be free, and which is owed no more. -/
theorem Clear.taken (h : Clear frames s) (hended : Ended frames) (hwire : s.wire = m :: rest)
    (hreply : isReply m = true) (hstream : s.streams m.header.streamID = some i) :
    Clear frames { s with wire := rest, loop := .sending i m } := by
  obtain ⟨before, hbefore⟩ := h.wire
  rw [hwire] at hbefore
  have hempty : s.response i = none := by
    by_contra hfull
    refine h.used _ i hstream (Or.inl hfull) ?_
    rw [hwire, owed_cons]
    exact Or.inl ⟨hreply, rfl⟩
  refine ⟨⟨before ++ [m], by simp [hbefore]⟩, h.table, fun j x hx => ?_, fun d j hd hused => ?_⟩
  · obtain ⟨rfl, -⟩ := Loop.sending.inj hx
    exact ⟨(h.table _ _ hstream).1, hempty⟩
  · by_cases hd' : m.header.streamID = d
    · rw [← hd']
      exact ended_iff.mp hended before m rest hbefore hreply
    · have hji : j ≠ i := by
        rintro rfl
        exact hd' ((h.table _ _ hstream).2.symm.trans (h.table d j hd).2)
      have hnot := h.used d j hd (hused.imp_right fun ⟨x, hx⟩ =>
        absurd (Loop.sending.inj hx).1.symm hji)
      rwa [hwire, owed_cons_other fun he => absurd he hd'] at hnot

theorem loopRead_clear (hended : Ended frames) (h : Clear frames s) (hloop : s.loop = .reading)
    (hwire : s.wire = m :: rest) : Clear frames (dispatch { s with wire := rest } m) := by
  cases hstream : s.streams m.header.streamID with
  | none =>
    rw [dispatch_unknown { s with wire := rest } hstream]
    refine h.dropped hloop hwire s.done fun d i hd => ⟨hd, fun he => ?_⟩
    rw [← he, hstream] at hd
    cases hd
  | some i =>
    by_cases hreply : isReply m = true
    · rw [dispatch_reply { s with wire := rest } (of_decide_eq_true hreply) hstream]
      exact h.taken hended hwire hreply hstream
    · have hreply' : isReply m = false := by simpa using hreply
      by_cases hend : isEnd m = true
      · rw [dispatch_end hend]
        simp only [ServerStreams.removeStream, hstream]
        refine h.dropped hloop hwire _ fun d j hd => ?_
        rw [Function.update_apply] at hd
        split at hd
        · cases hd
        · rename_i hne
          exact ⟨hd, fun he => absurd he.symm hne⟩
      · have hend' : isEnd m = false := by simpa using hend
        rw [dispatch_else hreply' hend']
        exact h.dropped hloop hwire s.done fun d i hd => ⟨hd, fun _ => ⟨hreply', hend'⟩⟩

theorem loopSend_clear (h : Clear frames s) (hloop : s.loop = .sending i m) :
    Clear frames { s with response := Function.update s.response i (some m), loop := .reading } := by
  refine ⟨h.wire, h.table, nofun, fun d j hd hused => ?_⟩
  refine h.used d j hd ?_
  by_cases hj : j = i
  · exact Or.inr ⟨m, hj ▸ hloop⟩
  · refine Or.inl ?_
    rcases hused with hused | ⟨x, hx⟩
    · intro hnone
      exact hused ((Function.update_of_ne hj ..).trans hnone)
    · cases hx

theorem step_clear (hended : Ended frames) (s : State ι) (a : Act ι) (t : State ι)
    (h : Clear frames s) (hserver : ServerSide s a) (hs : step unmarshal reply s a = some t) :
    Clear frames t := by
  cases step_effect hs with
  | created i hi => exact createStream_clear h hi
  | called i p asked _ hto =>
    have hasked : Clear frames { s with asked := asked } := ⟨h.wire, h.table, h.loop, h.used⟩
    refine hasked.setPc i ?_
    rcases hto with rfl | rfl | rfl <;> nofun
  | received i m _ _ => exact (h.emptied i).setPc i (by simp)
  | cleaned i r _ => exact (h.removeStream _).setPc i (by simp)
  | bodyRead i n pick r _ hread =>
    rcases read_cases hread with ⟨-, rfl⟩ | ⟨-, r', rfl | rfl⟩
    · exact h.setPc i (by simp)
    · exact h.setPc i (by simp)
    · exact (h.emptied i).setPc i (by simp)
  | clientSent i m rest _ => exact hserver.elim
  | heartbeatSent => exact hserver.elim
  | frameRead m rest hloop hwire => exact loopRead_clear hended h hloop hwire
  | delivered i m hloop _ => exact loopSend_clear h hloop
  | loopStopped _ =>
    exact h.mono rfl rfl (fun _ hj => hj) nofun (fun _ _ hd => hd) fun _ => Or.inl rfl
  | closed => exact h.close

omit [DecidableEq ι] in
theorem receiving_clear (frames : List Message) : Clear frames (receiving frames : State ι) :=
  ⟨⟨[], rfl⟩, nofun, nofun, nofun⟩

/-! ### A call that has left -/

/-- The call whose stream the loop sends to has failed. -/
structure Left (i : ι) (m : Message) (s : State ι) : Prop where
  loop : s.loop = .sending i m
  full : s.response i ≠ none
  gone : s.pc i = .returning none ∨ s.pc i = .returned none

variable {j : ι}

theorem Left.setPc (h : Left i m s) (hj : j ≠ i) (p : Pc) : Left i m (setPc s j p) := by
  refine ⟨h.loop, h.full, ?_⟩
  show Function.update s.pc j p i = _ ∨ Function.update s.pc j p i = _
  rw [Function.update_of_ne hj.symm]
  exact h.gone

omit [DecidableEq ι] in
theorem Left.ne_of_early (h : Left i m s) (hj : (s.pc j).early = true) : j ≠ i := by
  rintro rfl
  rcases h.gone with hpc | hpc <;> rw [hpc] at hj <;> cases hj

omit [DecidableEq ι] in
theorem Left.ne_of_reader (h : Left i m s) {r : Reader} (hj : (s.pc j).reader = some r) :
    j ≠ i := by
  rintro rfl
  rcases h.gone with hpc | hpc <;> rw [hpc] at hj <;> cases hj

theorem Left.emptied (h : Left i m s) (hj : j ≠ i) :
    Left i m { s with response := Function.update s.response j none } := by
  refine ⟨h.loop, ?_, h.gone⟩
  show Function.update s.response j none i ≠ none
  rw [Function.update_of_ne hj.symm]
  exact h.full

theorem createStream_left (h : Left i m s) (hj : s.pc j = .idle) :
    Left i m (createStream reply s j) := by
  have hne : i ≠ j := by
    rintro rfl
    rcases h.gone with hpc | hpc <;> cases hj.symm.trans hpc
  refine ⟨h.loop, ?_, ?_⟩
  · show Function.update s.response j none i ≠ none
    rw [Function.update_of_ne hne]
    exact h.full
  · rw [(createStream_others reply s hne).1]
    exact h.gone

/- The deferred RemoveStream, which may be that of the call itself. -/
theorem cleanup_left {r : Option Reader} (h : Left i m s) (hj : s.pc j = .returning r) :
    Left i m (setPc (removeStream s (s.id j)) j (.returned r)) := by
  obtain ⟨dn, st, he, -⟩ := removeStream_eq s (s.id j)
  rw [he]
  have hremoved : Left i m { s with done := dn, streams := st } := ⟨h.loop, h.full, h.gone⟩
  by_cases hji : j = i
  · subst hji
    obtain rfl : r = none := by
      rcases h.gone with hpc | hpc
      · exact Pc.returning.inj (hj.symm.trans hpc)
      · cases hj.symm.trans hpc
    exact ⟨h.loop, h.full, Or.inr (Function.update_self ..)⟩
  · exact hremoved.setPc hji _

theorem step_left (s : State ι) (a : Act ι) (t : State ι) (h : Left i m s)
    (hs : step unmarshal reply s a = some t) : Left i m t := by
  cases step_effect hs with
  | created j hj => exact createStream_left h hj
  | called j p asked hfrom _ =>
    have hasked : Left i m { s with asked := asked } := ⟨h.loop, h.full, h.gone⟩
    exact hasked.setPc (h.ne_of_early hfrom) p
  | received j x hj _ =>
    have hne : j ≠ i := h.ne_of_early (by rw [hj]; rfl)
    exact (h.emptied hne).setPc hne _
  | cleaned j r hj => exact cleanup_left h hj
  | bodyRead j n pick r hj hread =>
    have hne : j ≠ i := h.ne_of_reader (r := r) (by rw [hj]; rfl)
    rcases read_cases hread with ⟨-, rfl⟩ | ⟨-, r', rfl | rfl⟩
    · exact h.setPc hne _
    · exact h.setPc hne _
    · exact (h.emptied hne).setPc hne _
  | clientSent j x rest _ => exact ⟨h.loop, h.full, h.gone⟩
  | heartbeatSent => exact ⟨h.loop, h.full, h.gone⟩
  -- the loop itself cannot go on
  | frameRead x rest hloop _ => cases hloop.symm.trans h.loop
  | delivered j x hloop hempty =>
    obtain ⟨rfl, -⟩ := Loop.sending.inj (hloop.symm.trans h.loop)
    exact absurd hempty h.full
  | loopStopped hloop => cases hloop.symm.trans h.loop
  | closed =>
    obtain ⟨cl, dn, st, he, -⟩ := close_eq s
    rw [he]
    exact ⟨h.loop, h.full, h.gone⟩

theorem Left.stalled (h : Left i m s) : Stalled unmarshal reply s := by
  refine ⟨i, m, fun t ht => ?_⟩
  have hleft := ht.invariant (Left i m) h fun s a t hinv _ hs => step_left s a t hinv hs
  exact ⟨hleft.loop, hleft.full⟩

/-! ### A run into a full slot -/

section Runs
variable {unmarshal : Bytes → Option ℤ} {reply : ℕ → Reply} {s : State ℕ} {n : ℕ}
  {wire : List Message}

/-- The calls below `n` are over and no stream is left. -/
structure Quiet (n : ℕ) (wire : List Message) (s : State ℕ) : Prop where
  nextID : s.nextID = n
  wire : s.wire = wire
  loop : s.loop = .reading
  streams : s.streams = fun _ => none
  idle : ∀ k, n ≤ k → s.pc k = .idle

/-- Call `n` has made the only stream, which has a frame in its slot. -/
structure Holding (n : ℕ) (id : UInt32) (wire : List Message) (s : State ℕ) : Prop where
  wire : s.wire = wire
  loop : s.loop = .reading
  pc : s.pc n = .created
  stream : s.streams id = some n
  others : ∀ d, d ≠ id → s.streams d = none
  full : s.response n ≠ none

variable {m : Message}

theorem step_loopRead (unmarshal : Bytes → Option ℤ) (reply : ι → Reply) {s : State ι}
    {rest : List Message} (hloop : s.loop = .reading) (hwire : s.wire = m :: rest) :
    step unmarshal reply s .loopRead = some (dispatch { s with wire := rest } m) := by
  simp only [step, hloop, hwire]

theorem step_loopRead_reply (unmarshal : Bytes → Option ℤ) (reply : ι → Reply) {s : State ι}
    {rest : List Message} {i : ι} (hloop : s.loop = .reading) (hwire : s.wire = m :: rest)
    (hreply : isReply m = true) (hi : s.streams m.header.streamID = some i) :
    step unmarshal reply s .loopRead = some { s with wire := rest, loop := .sending i m } := by
  rw [step_loopRead unmarshal reply hloop hwire,
    dispatch_reply { s with wire := rest } (of_decide_eq_true hreply) hi]

theorem reach_skipped (before : List Message) (h : Quiet n (before ++ wire) s) :
    ∃ t, Reach (step unmarshal reply) ServerSide s t ∧ Quiet n wire t := by
  induction before generalizing s with
  | nil => exact ⟨s, .start, h⟩
  | cons m before ih =>
    have hwire : s.wire = m :: (before ++ wire) := h.wire
    have hread := step_loopRead unmarshal reply h.loop hwire
    rw [dispatch_unknown { s with wire := before ++ wire } (by rw [h.streams])] at hread
    have hnext : Quiet n (before ++ wire) { s with wire := before ++ wire } :=
      ⟨h.nextID, rfl, h.loop, h.streams, h.idle⟩
    obtain ⟨t, ht, hquiet⟩ := ih hnext
    exact ⟨t, (Reach.start.next _ trivial hread).trans ht, hquiet⟩

/- A call that fails at once. -/
theorem reach_failed_call (h : Quiet n wire s) :
    ∃ t, Reach (step unmarshal reply) ServerSide s t ∧ Quiet (n + 1) wire t := by
  have hcreate : step unmarshal reply s (.createStream n) = some (createStream reply s n) :=
    if_pos (h.idle n (Nat.le_refl n))
  have hwrite : step unmarshal reply (createStream reply s n) (.writeRequest n false) =
      some (setPc (createStream reply s n) n (.returning none)) :=
    if_pos (createStream_self reply s n).1
  have hclean : step unmarshal reply (setPc (createStream reply s n) n (.returning none))
      (.cleanup n) = some (setPc (removeStream (setPc (createStream reply s n) n (.returning none))
        (streamID (s.nextID + 1))) n (.returned none)) := by
    simp [step, setPc, createStream]
  have hstream : (setPc (createStream reply s n) n (.returning none)).streams
      (streamID (s.nextID + 1)) = some n := Function.update_self ..
  rw [removeStream, hstream] at hclean
  refine ⟨_, ((Reach.start.next _ trivial hcreate).next _ trivial hwrite).next (.cleanup n) trivial
    hclean, ?_, h.wire, h.loop, ?_, fun k hk => ?_⟩
  · exact congrArg (· + 1) h.nextID
  · simp [setPc, createStream, h.streams]
  · have hne : k ≠ n := by omega
    have hidle := h.idle k (by omega)
    simp [setPc, createStream, hne, hidle]

theorem reach_quiet (k : ℕ) (h : Quiet n wire s) :
    ∃ t, Reach (step unmarshal reply) ServerSide s t ∧ Quiet (n + k) wire t := by
  induction k with
  | zero => exact ⟨s, .start, h⟩
  | succ k ih =>
    obtain ⟨t, ht, hquiet⟩ := ih
    obtain ⟨u, hu, hnext⟩ := reach_failed_call hquiet
    exact ⟨u, ht.trans hu, hnext⟩

/- The next call makes its stream, and the loop puts the frame into its slot. -/
theorem reach_holding (h : Quiet n (m :: wire) s) (hreply : isReply m = true)
    (hid : streamID (n + 1) = m.header.streamID) :
    ∃ t, Reach (step unmarshal reply) ServerSide s t ∧ Holding n m.header.streamID wire t := by
  have hcreate : step unmarshal reply s (.createStream n) = some (createStream reply s n) :=
    if_pos (h.idle n (Nat.le_refl n))
  have hstream : (createStream reply s n).streams m.header.streamID = some n := by
    rw [← hid, ← h.nextID]
    exact Function.update_self ..
  have hread := step_loopRead_reply unmarshal reply (s := createStream reply s n) h.loop h.wire
    hreply hstream
  have hsend : step unmarshal reply
      { createStream reply s n with wire := wire, loop := .sending n m } .loopSend =
      some { createStream reply s n with
        wire := wire
        response := Function.update (createStream reply s n).response n (some m)
        loop := .reading } := by
    simp [step, createStream]
  refine ⟨_, ((Reach.start.next _ trivial hcreate).next .loopRead trivial hread).next .loopSend
    trivial hsend, rfl, rfl, (createStream_self reply s n).1, hstream, fun d hd => ?_, ?_⟩
  · have hd' : d ≠ streamID (s.nextID + 1) := by rwa [h.nextID, hid]
    show (createStream reply s n).streams d = none
    simp [createStream, hd', h.streams]
  · simp

/- The frames in between are for no stream; with the next one the loop waits, and the call
   fails while it sends its request. -/
theorem reach_stalled {id : UInt32} (h : Holding n id wire s) (howed : Owed id wire) :
    ∃ t, Reach (step unmarshal reply) ServerSide s t ∧ Stalled unmarshal reply t := by
  induction wire generalizing s with
  | nil =>
    obtain ⟨between, m, after, hsplit, -⟩ := howed
    cases between <;> cases hsplit
  | cons m wire ih =>
    by_cases hnext : isReply m = true ∧ m.header.streamID = id
    · obtain ⟨hreply, hm⟩ := hnext
      have hread := step_loopRead_reply unmarshal reply h.loop h.wire hreply (hm ▸ h.stream)
      have hwrite : step unmarshal reply { s with wire := wire, loop := .sending n m }
          (.writeRequest n false) = some (setPc { s with wire := wire, loop := .sending n m } n
            (.returning none)) := if_pos h.pc
      have hleft : Left n m (setPc { s with wire := wire, loop := .sending n m } n
          (.returning none)) := ⟨rfl, h.full, Or.inl (Function.update_self ..)⟩
      exact ⟨_, (Reach.start.next .loopRead trivial hread).next (.writeRequest n false) trivial hwrite,
        hleft.stalled⟩
    · obtain ⟨hend, hrest⟩ := (owed_cons.mp howed).resolve_left hnext
      have hsame : dispatch { s with wire := wire } m = { s with wire := wire } := by
        by_cases hm : m.header.streamID = id
        · refine dispatch_else ?_ ?_
          · simpa [hm] using hnext
          · simpa [hm] using hend
        · exact dispatch_unknown { s with wire := wire } (h.others _ hm)
      have hread := step_loopRead unmarshal reply h.loop h.wire
      rw [hsame] at hread
      have hholding : Holding n id wire { s with wire := wire } :=
        ⟨rfl, h.loop, h.pc, h.stream, h.others, h.full⟩
      obtain ⟨t, ht, hstalled⟩ := ih hholding hrest
      exact ⟨t, (Reach.start.next .loopRead trivial hread).trans ht, hstalled⟩

/- Every stream id is given out in the end. -/
theorem exists_streamID (id : UInt32) : ∃ n, streamID (n + 1) = id := by
  by_cases hid : id = 0
  · exact ⟨2 ^ 32 - 1, by rw [hid]; rfl⟩
  · have hpos : id.toNat ≠ 0 := fun h => hid (UInt32.toNat_inj.mp h)
    refine ⟨id.toNat - 1, ?_⟩
    rw [Nat.sub_add_cancel (Nat.one_le_iff_ne_zero.mpr hpos)]
    exact UInt32.ofNat_toNat

theorem receiving_quiet (frames : List Message) : Quiet 0 frames (receiving frames) :=
  ⟨rfl, rfl, rfl, rfl, fun _ _ => rfl⟩

end Runs

/-- Whatever the calls do, the loop is never stalled, just if the client ends every stream
before it sends another frame for it. -/
theorem loop_never_stalled_iff (unmarshal : Bytes → Option ℤ) (reply : ℕ → Reply)
    (frames : List Message) :
    (∀ s, Reach (step unmarshal reply) ServerSide (receiving frames) s →
      ¬ Stalled unmarshal reply s) ↔ Ended frames := by
  constructor
  · intro h
    rw [ended_iff]
    rintro before m after rfl hreply howed
    obtain ⟨n, hn⟩ := exists_streamID m.header.streamID
    obtain ⟨s₁, hs₁, hquiet⟩ := reach_skipped before (receiving_quiet (before ++ m :: after))
    obtain ⟨s₂, hs₂, hcalls⟩ := reach_quiet n hquiet
    rw [Nat.zero_add] at hcalls
    obtain ⟨s₃, hs₃, hholding⟩ := reach_holding hcalls hreply hn
    obtain ⟨t, ht, hstalled⟩ := reach_stalled hholding howed
    exact h t (((hs₁.trans hs₂).trans hs₃).trans ht) hstalled
  · rintro hended s hs ⟨i, m, hforever⟩
    have hclear := hs.invariant (Clear frames) (receiving_clear frames) (step_clear hended)
    obtain ⟨hloop, hfull⟩ := hforever s .start
    exact hfull (hclear.loop i m hloop).2

def Loop.held : Loop ι → Option (ι × Message)
  | .sending i m => some (i, m)
  | _ => none

omit [DecidableEq ι] in
theorem Loop.held_eq_some {l : Loop ι} (h : l.held = some (i, m)) : l = .sending i m := by
  cases l with
  | sending j x =>
    obtain ⟨rfl, rfl⟩ := Prod.mk.inj (Option.some.inj h)
    rfl
  | reading => cases h
  | stopped => cases h

/- The client answers before the request is written, in two frames; the write fails. -/
theorem failed_call_stalls_loop :
    ∃ s, exec (step (fun _ => none) fun _ : ℕ => .response [] [] true)
        [.createStream 0, .loopRead, .loopSend, .loopRead, .writeRequest 0 false, .cleanup 0]
        (receiving [newDataMessage msgTypeResponse 1 [], newDataMessage msgTypeData 1 [7]]) =
        some s ∧
      Stalled (fun _ => none) (fun _ => .response [] [] true) s := by
  have hend : (exec (step (fun _ => none) fun _ : ℕ => .response [] [] true)
      [.createStream 0, .loopRead, .loopSend, .loopRead, .writeRequest 0 false, .cleanup 0]
      (receiving [newDataMessage msgTypeResponse 1 [], newDataMessage msgTypeData 1 [7]])).map
      (fun s => (s.loop.held, s.response 0, s.pc 0)) =
      some (some (0, newDataMessage msgTypeData 1 [7]), some (newDataMessage msgTypeResponse 1 []),
        .returned none) := by
    decide +kernel
  obtain ⟨s, hs, hview⟩ := Option.map_eq_some_iff.mp hend
  obtain ⟨hheld, hrest⟩ := Prod.mk.inj hview
  obtain ⟨hfull, hpc⟩ := Prod.mk.inj hrest
  have hleft : Left 0 (newDataMessage msgTypeData 1 [7]) s :=
    ⟨Loop.held_eq_some hheld, by rw [hfull]; nofun, Or.inr hpc⟩
  exact ⟨s, hs, hleft.stalled⟩

end EdgeDispatch.Tunnel.ServerStreams
