import EdgeDispatch.Edge.Origin
import EdgeDispatch.Lib.Transition
import Mathlib.Data.Fintype.Basic

/-! # Fetches that are in flight together (internal/edgeagent/fetcher.go:112-134, 308-341)

The first call for a dedup key fetches and broadcasts; a call that finds its entry waits
for the broadcast on the entry's two channels, each with room for one value. -/

namespace EdgeDispatch.Edge.FetchDedup
open Lib.ByteString Lib.GoStrings Lib.Transition
open Edge.Origin

/- The arguments of `doFetch`. -/
structure Call where
  key : Bytes
  rangeHeader : Bytes
  deriving DecidableEq

def Call.dedupKey (c : Call) : Bytes :=
  if c.rangeHeader ≠ [] then c.key ++ lit "|" ++ c.rangeHeader else c.key

def Call.request (c : Call) : Option (Bytes × Bytes) := originRequest c.key c.rangeHeader

variable {ι ε : Type} [DecidableEq ι]

/-- Where a call of `doFetch` stands. An entry is named by the call that made it, and so
is the result of a fetch: a result stands for its Body. `none` is nil. -/
inductive Place (ι ε : Type) where
  | idle
  | fetching
  | fetched (result : Option ι) (err : Option ε)
  | sending (entry : ι) (result : Option ι) (err : Option ε)
  | sendingErr (entry : ι) (result : Option ι) (err : Option ε)
  | found (entry : ι)
  | waiting (entry : ι)
  | received (entry : ι) (result : Option ι)
  | returned (result : Option ι) (err : Option ε)
  deriving DecidableEq

structure State (ι ε : Type) where
  pending : Bytes → Option ι
  resultCh : ι → Option (Option ι)
  errCh : ι → Option (Option ε)
  place : ι → Place ι ε

def start : State ι ε := ⟨fun _ => none, fun _ => none, fun _ => none, fun _ => .idle⟩

/- A step of one call. `fetch` ends `executeFetch`, with its error or with a response. -/
inductive Act (ι ε : Type) where
  | lookup (i : ι)
  | fetch (i : ι) (err : Option ε)
  | broadcast (i : ι)
  | sendResult (i : ι)
  | sendErr (i : ι)
  | poll (i : ι)
  | receive (i : ι)
  | receiveErr (i : ι)

def State.move (s : State ι ε) (i : ι) (p : Place ι ε) : State ι ε :=
  { s with place := Function.update s.place i p }

def step (calls : ι → Call) (s : State ι ε) : Act ι ε → Option (State ι ε)
  -- Do, under the lock
  | .lookup i =>
    match s.place i with
    | .idle =>
      match s.pending (calls i).dedupKey with
      | some entry => some (s.move i (.found entry))
      | none => some { s.move i .fetching with
          pending := Function.update s.pending (calls i).dedupKey (some i) }
    | _ => none
  | .fetch i err =>
    match s.place i with
    | .fetching =>
      match err with
      | some e => some (s.move i (.fetched none (some e)))
      | none =>
        if (calls i).request = none then none else some (s.move i (.fetched (some i) none))
    | _ => none
  -- Broadcast, under the lock
  | .broadcast i =>
    match s.place i with
    | .fetched result err =>
      match s.pending (calls i).dedupKey with
      | some entry => some { s.move i (.sending entry result err) with
          pending := Function.update s.pending (calls i).dedupKey none }
      | none => some (s.move i (.returned result err))
    | _ => none
  | .sendResult i =>
    match s.place i with
    | .sending entry result err =>
      if s.resultCh entry = none then
        some { s.move i (.sendingErr entry result err) with
          resultCh := Function.update s.resultCh entry (some result) }
      else none
    | _ => none
  | .sendErr i =>
    match s.place i with
    | .sendingErr entry result err =>
      if s.errCh entry = none then
        some { s.move i (.returned result err) with
          errCh := Function.update s.errCh entry (some err) }
      else none
    | _ => none
  -- the select of Do; what it receives is dropped, and doFetch returns (nil, ctx.Err())
  | .poll i =>
    match s.place i with
    | .found entry =>
      match s.resultCh entry with
      | some _ => some { s.move i (.returned none none) with
          resultCh := Function.update s.resultCh entry none }
      | none => some (s.move i (.waiting entry))
    | _ => none
  | .receive i =>
    match s.place i with
    | .waiting entry =>
      match s.resultCh entry with
      | some result => some { s.move i (.received entry result) with
          resultCh := Function.update s.resultCh entry none }
      | none => none
    | _ => none
  | .receiveErr i =>
    match s.place i with
    | .received entry result =>
      match s.errCh entry with
      | some err => some { s.move i (.returned result err) with
          errCh := Function.update s.errCh entry none }
      | none => none
    | _ => none

/-- The branches of `step`, each with what it reads. -/
inductive Moves (calls : ι → Call) (s : State ι ε) : Act ι ε → State ι ε → Prop
  | finds {i entry} : s.place i = .idle → s.pending (calls i).dedupKey = some entry →
      Moves calls s (.lookup i) (s.move i (.found entry))
  | leads {i} : s.place i = .idle → s.pending (calls i).dedupKey = none →
      Moves calls s (.lookup i) { s.move i .fetching with
        pending := Function.update s.pending (calls i).dedupKey (some i) }
  | fails {i e} : s.place i = .fetching →
      Moves calls s (.fetch i (some e)) (s.move i (.fetched none (some e)))
  | succeeds {i} : s.place i = .fetching → (calls i).request ≠ none →
      Moves calls s (.fetch i none) (s.move i (.fetched (some i) none))
  | deletes {i entry result err} : s.place i = .fetched result err →
      s.pending (calls i).dedupKey = some entry →
      Moves calls s (.broadcast i) { s.move i (.sending entry result err) with
        pending := Function.update s.pending (calls i).dedupKey none }
  | skips {i result err} : s.place i = .fetched result err →
      s.pending (calls i).dedupKey = none →
      Moves calls s (.broadcast i) (s.move i (.returned result err))
  | sends {i entry result err} : s.place i = .sending entry result err →
      s.resultCh entry = none →
      Moves calls s (.sendResult i) { s.move i (.sendingErr entry result err) with
        resultCh := Function.update s.resultCh entry (some result) }
  | sendsErr {i entry result err} : s.place i = .sendingErr entry result err →
      s.errCh entry = none →
      Moves calls s (.sendErr i) { s.move i (.returned result err) with
        errCh := Function.update s.errCh entry (some err) }
  | takes {i entry result} : s.place i = .found entry → s.resultCh entry = some result →
      Moves calls s (.poll i) { s.move i (.returned none none) with
        resultCh := Function.update s.resultCh entry none }
  | waits {i entry} : s.place i = .found entry → s.resultCh entry = none →
      Moves calls s (.poll i) (s.move i (.waiting entry))
  | receives {i entry result} : s.place i = .waiting entry → s.resultCh entry = some result →
      Moves calls s (.receive i) { s.move i (.received entry result) with
        resultCh := Function.update s.resultCh entry none }
  | receivesErr {i entry result err} : s.place i = .received entry result →
      s.errCh entry = some err →
      Moves calls s (.receiveErr i) { s.move i (.returned result err) with
        errCh := Function.update s.errCh entry none }

variable {calls : ι → Call} {a : Act ι ε} {p : Place ι ε} {rc : Option (Option ι)}
  {ec : Option (Option ε)}

theorem moves_of_step {s t : State ι ε} (h : step calls s a = some t) : Moves calls s a t := by
  unfold step at h
  split at h
  all_goals
    split at h
    case h_2 => cases h
    rename_i hplace
  · split at h
    · rename_i hpending
      exact Option.some.inj h ▸ .finds hplace hpending
    · rename_i hpending
      exact Option.some.inj h ▸ .leads hplace hpending
  · split at h
    · exact Option.some.inj h ▸ .fails hplace
    · split at h
      · cases h
      · rename_i hreq
        exact Option.some.inj h ▸ .succeeds hplace hreq
  · split at h
    · rename_i hpending
      exact Option.some.inj h ▸ .deletes hplace hpending
    · rename_i hpending
      exact Option.some.inj h ▸ .skips hplace hpending
  · split at h
    · rename_i hfree
      exact Option.some.inj h ▸ .sends hplace hfree
    · cases h
  · split at h
    · rename_i hfree
      exact Option.some.inj h ▸ .sendsErr hplace hfree
    · cases h
  · split at h
    · rename_i hfull
      exact Option.some.inj h ▸ .takes hplace hfull
    · rename_i hfree
      exact Option.some.inj h ▸ .waits hplace hfree
  · split at h
    · rename_i hfull
      exact Option.some.inj h ▸ .receives hplace hfull
    · cases h
  · split at h
    · rename_i hfull
      exact Option.some.inj h ▸ .receivesErr hplace hfull
    · cases h

/-- The entry that a call shares without having made it. -/
def Place.sharedEntry : Place ι ε → Option ι
  | .found entry => some entry
  | .waiting entry => some entry
  | .received entry _ => some entry
  | _ => none

/- The entry of the call is in the map. -/
def Place.leading : Place ι ε → Bool
  | .fetching => true
  | .fetched _ _ => true
  | _ => false

/- The entry that the call sends into. -/
def Place.target : Place ι ε → Option ι
  | .sending entry _ _ => some entry
  | .sendingErr entry _ _ => some entry
  | _ => none

/-! ### Who makes an entry and who shares it -/

/-- The map names the leaders, a leader sends into its own entry, and an entry is shared
by calls of its key. -/
structure Keyed (calls : ι → Call) (pending : Bytes → Option ι) (place : ι → Place ι ε) :
    Prop where
  lead : ∀ k e, pending k = some e ↔ (calls e).dedupKey = k ∧ (place e).leading = true
  own : ∀ i e, (place i).target = some e → e = i
  same : ∀ j e, (place j).sharedEntry = some e → (calls j).dedupKey = (calls e).dedupKey

section Keys
variable {calls : ι → Call} {pending : Bytes → Option ι} {place : ι → Place ι ε}
variable {i : ι} {p : Place ι ε}

theorem Keyed.own_update (hk : Keyed calls pending place) (hown : ∀ e, p.target = some e → e = i) :
    ∀ j e, (Function.update place i p j).target = some e → e = j :=
  (Function.forall_update_iff place fun j q => ∀ e, q.target = some e → e = j).mpr
    ⟨hown, fun j _ => hk.own j⟩

theorem Keyed.same_update (hk : Keyed calls pending place)
    (hsame : ∀ e, p.sharedEntry = some e → (calls i).dedupKey = (calls e).dedupKey) :
    ∀ j e, (Function.update place i p j).sharedEntry = some e →
      (calls j).dedupKey = (calls e).dedupKey :=
  (Function.forall_update_iff place fun j q =>
    ∀ e, q.sharedEntry = some e → (calls j).dedupKey = (calls e).dedupKey).mpr
    ⟨hsame, fun j _ => hk.same j⟩

theorem Keyed.move (hk : Keyed calls pending place) (hlead : p.leading = (place i).leading)
    (hown : ∀ e, p.target = some e → e = i)
    (hsame : ∀ e, p.sharedEntry = some e → (calls i).dedupKey = (calls e).dedupKey) :
    Keyed calls pending (Function.update place i p) := by
  refine ⟨fun k => ?_, hk.own_update hown, hk.same_update hsame⟩
  refine (Function.forall_update_iff place fun e q =>
    pending k = some e ↔ (calls e).dedupKey = k ∧ q.leading = true).mpr ⟨?_, fun e _ => hk.lead k e⟩
  rw [hlead]
  exact hk.lead k i

/- The call becomes or stops being the leader of its key. -/
theorem Keyed.moveLead (hk : Keyed calls pending place)
    (hfree : ∀ e, e ≠ i → pending (calls i).dedupKey ≠ some e)
    (hown : ∀ e, p.target = some e → e = i) (hsame : p.sharedEntry = none) :
    Keyed calls
      (Function.update pending (calls i).dedupKey (if p.leading = true then some i else none))
      (Function.update place i p) := by
  have hshares : ∀ e, p.sharedEntry = some e → (calls i).dedupKey = (calls e).dedupKey :=
    fun e he => nomatch hsame.symm.trans he
  refine ⟨?_, hk.own_update hown, hk.same_update hshares⟩
  refine (Function.forall_update_iff pending fun k v => ∀ e, v = some e ↔
    (calls e).dedupKey = k ∧ (Function.update place i p e).leading = true).mpr ⟨?_, ?_⟩
  -- the key of the call
  · refine (Function.forall_update_iff place fun e q =>
      (if p.leading = true then some i else none) = some e ↔
        (calls e).dedupKey = (calls i).dedupKey ∧ q.leading = true).mpr ⟨by simp, ?_⟩
    intro e he
    rw [← hk.lead]
    refine iff_of_false (fun h => ?_) (hfree e he)
    split at h
    · exact he (Option.some.inj h).symm
    · cases h
  -- the other keys are led by other calls
  · intro k hk'
    refine (Function.forall_update_iff place fun e q =>
      pending k = some e ↔ (calls e).dedupKey = k ∧ q.leading = true).mpr
      ⟨iff_of_false (fun h => ?_) (fun h => hk' h.1.symm), fun e _ => hk.lead k e⟩
    exact hk' ((hk.lead k i).mp h).1.symm

end Keys

omit [DecidableEq ι] in
theorem start_keyed (calls : ι → Call) :
    Keyed calls (start : State ι ε).pending (start : State ι ε).place :=
  ⟨by simp [start, Place.leading], by simp [start, Place.target], by simp [start, Place.sharedEntry]⟩

theorem step_keyed {s t : State ι ε} (hi : Keyed calls s.pending s.place)
    (h : step calls s a = some t) : Keyed calls t.pending t.place := by
  cases moves_of_step h with
  | finds hp hk =>
    refine hi.move (by rw [hp]; rfl) nofun fun e he => ?_
    cases he
    exact ((hi.lead _ _).mp hk).1.symm
  | leads hp hk => exact hi.moveLead (p := .fetching) (by simp [hk]) nofun rfl
  | fails hp => exact hi.move (by rw [hp]; rfl) nofun nofun
  | succeeds hp hr => exact hi.move (by rw [hp]; rfl) nofun nofun
  | deletes hp hk =>
    rename_i i entry result err
    have hmine : s.pending (calls i).dedupKey = some i := (hi.lead _ _).mpr ⟨rfl, by rw [hp]; rfl⟩
    have hentry : entry = i := Option.some.inj (hk.symm.trans hmine)
    refine hi.moveLead (p := .sending entry result err) ?_ ?_ rfl
    · intro e he hpe
      exact he (Option.some.inj (hpe.symm.trans hmine))
    · intro e he
      exact (Option.some.inj he).symm.trans hentry
  | skips hp hk =>
    rename_i i result err
    have hmine : s.pending (calls i).dedupKey = some i := (hi.lead _ _).mpr ⟨rfl, by rw [hp]; rfl⟩
    cases hk.symm.trans hmine
  | sends hp hf =>
    rename_i i entry result err
    exact hi.move (by rw [hp]; rfl) (fun e he => hi.own i e (by rw [hp]; exact he)) nofun
  | sendsErr hp hf => exact hi.move (by rw [hp]; rfl) nofun nofun
  | takes hp hf => exact hi.move (by rw [hp]; rfl) nofun nofun
  | waits hp hf =>
    rename_i i entry
    exact hi.move (by rw [hp]; rfl) nofun fun e he => hi.same i e (by rw [hp]; exact he)
  | receives hp hf =>
    rename_i i entry result
    exact hi.move (by rw [hp]; rfl) nofun fun e he => hi.same i e (by rw [hp]; exact he)
  | receivesErr hp hf => exact hi.move (by rw [hp]; rfl) nofun nofun

/-! ### Only fetches for the same object and range share an entry -/

def bar : Byte := 124

/- What `dedupKey` adds to the key. -/
def suffixed : Bytes → Bytes
  | [] => []
  | b :: rest => bar :: b :: rest

/-- The key of `c` goes on where the key of `d` ends, and the range of `d` makes up for the
rest; one of the two at least is not refused for its range. -/
def Splits (c d : Call) : Prop :=
  ∃ rest, c.key = d.key ++ bar :: rest ∧ d.rangeHeader = rest ++ suffixed c.rangeHeader ∧
    d.rangeHeader ≠ [] ∧ (c.request ≠ none ∨ d.request ≠ none)

theorem suffixed_of_ne {r : Bytes} (h : r ≠ []) : suffixed r = bar :: r := by
  cases r with
  | nil => exact absurd rfl h
  | cons b rest => rfl

theorem suffixed_inj {r r' : Bytes} (h : suffixed r = suffixed r') : r = r' := by
  cases r with
  | nil =>
    cases r' with
    | nil => rfl
    | cons b rest => cases h
  | cons b rest =>
    cases r' with
    | nil => cases h
    | cons b' rest' => exact (List.cons.inj h).2

theorem dedupKey_eq (c : Call) : c.dedupKey = c.key ++ suffixed c.rangeHeader := by
  have hbar : lit "|" = [bar] := by decide
  by_cases h : c.rangeHeader = []
  · rw [Call.dedupKey, if_neg (not_not.mpr h), h]
    simp [suffixed]
  · rw [Call.dedupKey, if_pos h, suffixed_of_ne h, hbar]
    simp

theorem Splits.dedupKey {c d : Call} (h : Splits c d) : c.dedupKey = d.dedupKey := by
  obtain ⟨rest, hkey, hrange, hne, -⟩ := h
  rw [dedupKey_eq, dedupKey_eq, suffixed_of_ne hne, hkey, hrange]
  simp

theorem request_range {c : Call} {object range : Bytes} (h : c.request = some (object, range)) :
    range = c.rangeHeader := by
  unfold Call.request originRequest at h
  split at h
  · cases h
  · cases h
    rfl

theorem Splits.request_ne {c d : Call} (h : Splits c d) : c.request ≠ d.request := by
  obtain ⟨rest, -, hrange, hne, hasked⟩ := h
  intro heq
  -- both ask, since one of them does; but the range of `d` is longer
  obtain ⟨⟨object, range⟩, hc⟩ : ∃ q, c.request = some q := by
    rcases hasked with hc | hd
    · exact Option.ne_none_iff_exists'.mp hc
    · rw [heq]
      exact Option.ne_none_iff_exists'.mp hd
  have hsame : c.rangeHeader = d.rangeHeader :=
    (request_range hc).symm.trans (request_range (heq ▸ hc))
  rw [← hsame] at hrange hne
  rw [suffixed_of_ne hne] at hrange
  have hlen := congrArg List.length hrange
  rw [List.length_append, List.length_cons] at hlen
  omega

theorem splits_of_shorter {c d : Call} (hkey : c.dedupKey = d.dedupKey)
    (hreq : c.request ≠ d.request) (hlen : d.key.length ≤ c.key.length) : Splits c d := by
  rw [dedupKey_eq, dedupKey_eq] at hkey
  have hpre : d.key <+: c.key ++ suffixed c.rangeHeader := hkey ▸ List.prefix_append _ _
  obtain ⟨more, hc⟩ : d.key <+: c.key :=
    List.prefix_of_prefix_length_le hpre (List.prefix_append _ _) hlen
  rw [← hc, List.append_assoc] at hkey
  have htail := List.append_cancel_left hkey
  cases more with
  | nil =>
    -- one key, hence one range, and the two ask for the same
    exfalso
    apply hreq
    rw [Call.request, Call.request, suffixed_inj htail, ← hc, List.append_nil]
  | cons b rest =>
    have hrange : d.rangeHeader ≠ [] := by
      intro hnil
      rw [hnil] at htail
      cases htail
    rw [suffixed_of_ne hrange] at htail
    obtain ⟨rfl, hrest⟩ := List.cons.inj htail
    refine ⟨rest, hc.symm, hrest.symm, hrange, ?_⟩
    by_contra hnone
    rw [not_or, not_not, not_not] at hnone
    exact hreq (hnone.1.trans hnone.2.symm)

theorem splits_of_dedupKey {c d : Call} (hkey : c.dedupKey = d.dedupKey)
    (hreq : c.request ≠ d.request) : Splits c d ∨ Splits d c := by
  rcases Nat.le_total d.key.length c.key.length with hlen | hlen
  · exact Or.inl (splits_of_shorter hkey hreq hlen)
  · exact Or.inr (splits_of_shorter hkey.symm hreq.symm hlen)

/- The second call looks up while the first one is fetching. -/
theorem shares_reached {i j : ι} (hij : i ≠ j) (hkey : (calls i).dedupKey = (calls j).dedupKey) :
    ∃ s : State ι ε, Reach (step calls) Free start s ∧ (s.place j).sharedEntry = some i := by
  let s₁ : State ι ε := { (start : State ι ε).move i .fetching with
    pending := Function.update (start : State ι ε).pending (calls i).dedupKey (some i) }
  have hfirst : step calls start (.lookup i) = some s₁ := rfl
  have hidle : s₁.place j = .idle := Function.update_of_ne hij.symm ..
  have hfound : s₁.pending (calls j).dedupKey = some i := by
    rw [← hkey]
    exact Function.update_self ..
  have hsecond : step calls s₁ (.lookup j) = some (s₁.move j (.found i)) := by
    simp only [step, hidle, hfound]
  refine ⟨s₁.move j (.found i), ((Reach.start.next _ trivial hfirst).next _ trivial hsecond), ?_⟩
  have hplace : (s₁.move j (.found i)).place j = .found i := Function.update_self ..
  rw [hplace]
  rfl

/-- Calls that share an entry ask for the same object and range, whatever the
interleaving, just if no key is another call's key with the bar and the first part of
its range. -/
theorem shared_requests_iff (calls : ι → Call) :
    (∀ s : State ι ε, Reach (step calls) Free start s → ∀ j e,
        (s.place j).sharedEntry = some e → (calls j).request = (calls e).request) ↔
      ∀ i j, i ≠ j → ¬ Splits (calls i) (calls j) := by
  constructor
  · intro hsame i j hij hsplit
    obtain ⟨s, hreach, hshared⟩ := shares_reached (ε := ε) hij hsplit.dedupKey
    exact hsplit.request_ne (hsame s hreach j i hshared).symm
  · intro hnone s hreach j e hshared
    have hkeyed : Keyed calls s.pending s.place :=
      hreach.invariant (fun s => Keyed calls s.pending s.place) (start_keyed calls)
        fun s a t hi _ hs => step_keyed hi hs
    by_contra hreq
    have hje : j ≠ e := fun he => hreq (he ▸ rfl)
    rcases splits_of_dedupKey (hkeyed.same j e hshared) hreq with h | h
    · exact hnone j e hje h
    · exact hnone e j hje.symm h

/- An object whose name ends like a range, and the range of another object. -/
def barredKey : Fin 2 → Call
  | 0 => ⟨lit "a", lit "bytes=0-1"⟩
  | 1 => ⟨lit "a|bytes=0-1", []⟩

theorem range_shared_with_object :
    ∃ s : State (Fin 2) Unit, Reach (step barredKey) Free start s ∧
      (s.place 1).sharedEntry = some 0 ∧
      (barredKey 0).request = some (lit "a", lit "bytes=0-1") ∧
      (barredKey 1).request = some (lit "a|bytes=0-1", []) := by
  obtain ⟨s, hreach, hshared⟩ : ∃ s : State (Fin 2) Unit, Reach (step barredKey) Free start s ∧
      (s.place 1).sharedEntry = some 0 := shares_reached (by decide) (by decide +kernel)
  exact ⟨s, hreach, hshared, by decide +kernel, by decide +kernel⟩

/-! ### What the calls return -/

/- What the call has to return, once it knows. -/
def Place.outcome : Place ι ε → Option (Option ι × Option ε)
  | .fetched result err => some (result, err)
  | .sending _ result err => some (result, err)
  | .sendingErr _ result err => some (result, err)
  | .returned result err => some (result, err)
  | _ => none

/- The call is through with sending its result, and with sending its error. -/
def Place.sent : Place ι ε → Bool
  | .sendingErr _ _ _ => true
  | .returned _ _ => true
  | _ => false

def Place.done : Place ι ε → Bool
  | .returned _ _ => true
  | _ => false

/-- No call returns neither a result nor an error, no call stays blocked on a drained
channel of a leader that is through with its broadcast, and no two calls are handed one
Body. -/
structure Sound (s : State ι ε) : Prop where
  no_nil : ∀ i, s.place i ≠ .returned none none
  not_blocked : ∀ i e, (s.place e).done = true →
    (s.place i = .waiting e → s.resultCh e ≠ none) ∧
      ∀ r, s.place i = .received e r → s.errCh e ≠ none
  own_body : ∀ i j body, s.place i = .returned (some body) none →
    s.place j = .returned (some body) none → i = j

/-- A call that finds an entry is the only one and finds it before the fetch of the entry
has ended well; no fetch ends well while a call shares its entry; and a call looks at the
channel of an entry before a result is in it. -/
def Orderly (calls : ι → Call) (s : State ι ε) : Act ι ε → Prop
  | .lookup i => ∀ entry, s.pending (calls i).dedupKey = some entry →
      (∀ k, (s.place k).sharedEntry ≠ some entry) ∧ s.place entry ≠ .fetched (some entry) none
  | .fetch i none => ∀ k, (s.place k).sharedEntry ≠ some i
  | .poll i => ∀ entry, s.place i = .found entry → s.resultCh entry = none
  | _ => True

instance [Fintype ι] [DecidableEq ε] (calls : ι → Call) (s : State ι ε) (a : Act ι ε) :
    Decidable (Orderly calls s a) := by
  cases a with
  | fetch i err => cases err <;> unfold Orderly <;> infer_instance
  | lookup i => unfold Orderly; infer_instance
  | poll i => unfold Orderly; infer_instance
  | _ => exact isTrue trivial

/- Its own result and no error, or no result and an error. -/
def Settled (i : ι) (result : Option ι) (err : Option ε) : Prop :=
  result = some i ∧ err = none ∨ result = none ∧ ∃ x, err = some x

/- The fetch of an entry that is shared goes on or has failed. -/
def Place.failing (p : Place ι ε) : Prop := p = .fetching ∨ ∃ x, p.outcome = some (none, some x)

/- What stands in the channels of an entry is what its maker sent. -/
structure ChannelOk (maker : Place ι ε) (rc : Option (Option ι)) (ec : Option (Option ε)) :
    Prop where
  result : ∀ r, rc = some r → maker.sent = true ∧ ∃ err, maker.outcome = some (r, err)
  error : ∀ err, ec = some err → ∃ r, maker = .returned r err

/-- What a call that shares an entry can count on. -/
structure Fits (maker : Place ι ε) (rc : Option (Option ι)) (ec : Option (Option ε))
    (sharer : Place ι ε) : Prop where
  failing : maker.failing
  unread : ∀ e, sharer = .found e ∨ sharer = .waiting e → maker.sent = true → rc ≠ none
  read : ∀ e r, sharer = .received e r → r = none ∧ maker.sent = true
  error : maker.done = true → ec ≠ none

structure Shared (place : ι → Place ι ε) (rc : ι → Option (Option ι)) (ec : ι → Option (Option ε)) :
    Prop where
  settled : ∀ i r err, (place i).outcome = some (r, err) → Settled i r err
  channel : ∀ e, ChannelOk (place e) (rc e) (ec e)
  single : ∀ j k e, (place j).sharedEntry = some e → (place k).sharedEntry = some e → j = k
  fits : ∀ j e, (place j).sharedEntry = some e → Fits (place e) (rc e) (ec e) (place j)

section Sharing
variable {place : ι → Place ι ε} {rc : ι → Option (Option ι)} {ec : ι → Option (Option ε)}
variable {p : Place ι ε} {r : Option (Option ι)} {x : Option (Option ε)}

theorem Shared.settled_update (hs : Shared place rc ec) {i : ι}
    (hset : ∀ result err, p.outcome = some (result, err) → Settled i result err) :
    ∀ j r err, (Function.update place i p j).outcome = some (r, err) → Settled j r err :=
  (Function.forall_update_iff place fun j q =>
    ∀ r err, q.outcome = some (r, err) → Settled j r err).mpr ⟨hset, fun j _ => hs.settled j⟩

/- A leader moves on and writes its own channels. -/
theorem Shared.leader (hs : Shared place rc ec) {i : ι} (hnew : p.sharedEntry = none)
    (hset : ∀ result err, p.outcome = some (result, err) → Settled i result err)
    (hch : ChannelOk p r x) (hfits : ∀ j, (place j).sharedEntry = some i → Fits p r x (place j)) :
    Shared (Function.update place i p) (Function.update rc i r) (Function.update ec i x) := by
  have hold : ∀ j e, (Function.update place i p j).sharedEntry = some e →
      j ≠ i ∧ (place j).sharedEntry = some e := by
    intro j e h
    have hj : j ≠ i := by
      rintro rfl
      rw [Function.update_self, hnew] at h
      cases h
    rw [Function.update_of_ne hj] at h
    exact ⟨hj, h⟩
  refine ⟨hs.settled_update hset, fun e => ?_, fun j k e hj hk => ?_, fun j e hje => ?_⟩
  · by_cases he : e = i
    · rw [he, Function.update_self, Function.update_self, Function.update_self]
      exact hch
    · rw [Function.update_of_ne he, Function.update_of_ne he, Function.update_of_ne he]
      exact hs.channel e
  · exact hs.single j k e (hold j e hj).2 (hold k e hk).2
  · obtain ⟨hj, hshared⟩ := hold j e hje
    rw [Function.update_of_ne hj]
    by_cases he : e = i
    · subst he
      rw [Function.update_self, Function.update_self, Function.update_self]
      exact hfits j hshared
    · rw [Function.update_of_ne he, Function.update_of_ne he, Function.update_of_ne he]
      exact hs.fits j e hshared

/- The only call that shares an entry moves on and reads the entry's channels. -/
theorem Shared.sharer (hs : Shared place rc ec) {i e : ι} (hie : e ≠ i)
    (hnone : ∀ j, (place j).sharedEntry ≠ some i)
    (honly : ∀ j, j ≠ i → (place j).sharedEntry ≠ some e)
    (hnew : ∀ e', p.sharedEntry = some e' → e' = e)
    (hset : ∀ result err, p.outcome = some (result, err) → Settled i result err)
    (hch : ChannelOk p (rc i) (ec i)) (hentry : ChannelOk (place e) r x)
    (hfits : p.sharedEntry = some e → Fits (place e) r x p) :
    Shared (Function.update place i p) (Function.update rc e r) (Function.update ec e x) := by
  refine ⟨hs.settled_update hset, fun d => ?_, fun j k d hj hk => ?_, fun j d hjd => ?_⟩
  · by_cases hd : d = e
    · rw [hd, Function.update_of_ne hie, Function.update_self, Function.update_self]
      exact hentry
    · rw [Function.update_of_ne hd, Function.update_of_ne hd]
      by_cases hdi : d = i
      · rw [hdi, Function.update_self]
        exact hch
      · rw [Function.update_of_ne hdi]
        exact hs.channel d
  · by_cases hji : j = i
    · by_cases hki : k = i
      · exact hji.trans hki.symm
      · rw [hji, Function.update_self] at hj
        rw [Function.update_of_ne hki, hnew d hj] at hk
        exact absurd hk (honly k hki)
    · rw [Function.update_of_ne hji] at hj
      by_cases hki : k = i
      · rw [hki, Function.update_self] at hk
        rw [hnew d hk] at hj
        exact absurd hj (honly j hji)
      · rw [Function.update_of_ne hki] at hk
        exact hs.single j k d hj hk
  · by_cases hji : j = i
    · rw [hji, Function.update_self] at hjd ⊢
      obtain rfl := hnew d hjd
      rw [Function.update_of_ne hie, Function.update_self, Function.update_self]
      exact hfits hjd
    · rw [Function.update_of_ne hji] at hjd ⊢
      have hdi : d ≠ i := by
        rintro rfl
        exact hnone j hjd
      have hde : d ≠ e := by
        rintro rfl
        exact honly j hji hjd
      rw [Function.update_of_ne hdi, Function.update_of_ne hde, Function.update_of_ne hde]
      exact hs.fits j d hjd

end Sharing

omit [DecidableEq ι] in
theorem Place.failing.not_sharing (h : p.failing) : p.sharedEntry = none := by
  rcases h with rfl | ⟨x, hx⟩
  · rfl
  · cases p with
    | found e => cases hx
    | waiting e => cases hx
    | received e r => cases hx
    | _ => rfl

omit [DecidableEq ι] in
theorem start_shared : Shared (start : State ι ε).place (start : State ι ε).resultCh
    (start : State ι ε).errCh := by
  constructor
  · simp [start, Place.outcome]
  · intro e
    constructor
    · simp [start]
    · simp [start]
  · simp [start, Place.sharedEntry]
  · simp [start, Place.sharedEntry]

omit [DecidableEq ι] in
theorem Place.failing.outcome_eq (h : p.failing) {r : Option ι} {err : Option ε}
    (hout : p.outcome = some (r, err)) : r = none ∧ ∃ x, err = some x := by
  rcases h with rfl | ⟨x, hx⟩
  · cases hout
  · cases hx.symm.trans hout
    exact ⟨rfl, x, rfl⟩

omit [DecidableEq ι] in
theorem Place.sent_of_done (h : p.done = true) : p.sent = true := by
  cases p with
  | returned r err => rfl
  | _ => cases h

/- Before the sends the channels are empty, wherever the call moves to. -/
omit [DecidableEq ι] in
theorem ChannelOk.of_unsent {q : Place ι ε} (h : ChannelOk p rc ec) (hp : p.sent = false) :
    ChannelOk q rc ec := by
  constructor
  · intro r hr
    cases hp.symm.trans (h.result r hr).1
  · intro err herr
    obtain ⟨r, rfl⟩ := h.error err herr
    cases hp

omit [DecidableEq ι] in
theorem Fits.of_unsent {p' q : Place ι ε} (h : Fits p rc ec q) (hp : p.sent = false)
    (hp' : p'.sent = false) (hfail : p'.failing) :
    Fits p' rc ec q where
  failing := hfail
  unread _ _ hsent := by cases hp'.symm.trans hsent
  read e r hq := by cases hp.symm.trans (h.read e r hq).2
  error hdone := by cases hp'.symm.trans (Place.sent_of_done hdone)

section Moves
variable {calls : ι → Call} {s t : State ι ε} {i e : ι}

theorem finds_shared (hk : Keyed calls s.pending s.place)
    (hs : Shared s.place s.resultCh s.errCh) (hg : Orderly calls s (.lookup i))
    (hp : s.place i = .idle) (hentry : s.pending (calls i).dedupKey = some e)
    (hnone : ∀ j, (s.place j).sharedEntry ≠ some i) :
    Shared (Function.update s.place i (.found e)) s.resultCh s.errCh := by
  obtain ⟨honly, hfailed⟩ := hg e hentry
  have hlead := ((hk.lead _ _).mp hentry).2
  have hie : e ≠ i := by
    rintro rfl
    rw [hp] at hlead
    cases hlead
  have hunsent : (s.place e).sent = false := by
    cases hpe : s.place e with
    | sendingErr _ _ _ => simp [hpe, Place.leading] at hlead
    | returned _ _ => simp [hpe, Place.leading] at hlead
    | _ => rfl
  have hfail : (s.place e).failing := by
    cases hpe : s.place e with
    | fetching => exact Or.inl rfl
    | fetched r err =>
      rcases hs.settled e r err (by rw [hpe]; rfl) with ⟨rfl, rfl⟩ | ⟨rfl, x, rfl⟩
      · exact absurd hpe hfailed
      · exact Or.inr ⟨x, rfl⟩
    | _ => simp [hpe, Place.leading] at hlead
  have hmoved := hs.sharer (i := i) (e := e) (p := .found e) (r := s.resultCh e) (x := s.errCh e)
    hie hnone (fun j _ => honly j) (fun e' he => (Option.some.inj he).symm) nofun
    ((hs.channel i).of_unsent (by rw [hp]; rfl)) (hs.channel e)
    fun _ => ⟨hfail, fun _ _ hsent => (nomatch hunsent.symm.trans hsent), nofun,
      fun hdone => nomatch hunsent.symm.trans (Place.sent_of_done hdone)⟩
  rwa [Function.update_eq_self, Function.update_eq_self] at hmoved

/- Up to the sends a leader only moves on. -/
theorem leader_moves (hs : Shared s.place s.resultCh s.errCh) {p : Place ι ε}
    (hnew : p.sharedEntry = none) (hunsent : (s.place i).sent = false)
    (hset : ∀ result err, p.outcome = some (result, err) → Settled i result err)
    (hfits : ∀ j, (s.place j).sharedEntry = some i → p.sent = false ∧ p.failing) :
    Shared (Function.update s.place i p) s.resultCh s.errCh := by
  have hmoved := hs.leader (i := i) (p := p) (r := s.resultCh i) (x := s.errCh i) hnew hset
    ((hs.channel i).of_unsent hunsent)
    fun j hj => (hs.fits j i hj).of_unsent hunsent (hfits j hj).1 (hfits j hj).2
  rwa [Function.update_eq_self, Function.update_eq_self] at hmoved

theorem sends_shared (hs : Shared s.place s.resultCh s.errCh) {result : Option ι}
    {err : Option ε} (hp : s.place i = .sending i result err) :
    Shared (Function.update s.place i (.sendingErr i result err))
      (Function.update s.resultCh i (some result)) s.errCh := by
  have hunsent : (s.place i).sent = false := by rw [hp]; rfl
  have hout : (s.place i).outcome = some (result, err) := by rw [hp]; rfl
  have hch : ChannelOk (.sendingErr i result err) (some result) (s.errCh i) := by
    refine ⟨fun r hr => ⟨rfl, err, ?_⟩, ((hs.channel i).of_unsent hunsent).error⟩
    cases hr
    rfl
  have hmoved := hs.leader (i := i) (p := .sendingErr i result err) (r := some result)
    (x := s.errCh i) rfl
    (fun r e h => by cases h; exact hs.settled i result err hout) hch fun j hj => by
      have hf := hs.fits j i hj
      obtain ⟨rfl, x, rfl⟩ := hf.failing.outcome_eq hout
      exact ⟨Or.inr ⟨x, rfl⟩, nofun, fun e r hq =>
        (nomatch hunsent.symm.trans (hf.read e r hq).2), nofun⟩
  rwa [Function.update_eq_self] at hmoved

theorem sendsErr_shared (hs : Shared s.place s.resultCh s.errCh) {result : Option ι}
    {err : Option ε} (hp : s.place i = .sendingErr i result err) :
    Shared (Function.update s.place i (.returned result err)) s.resultCh
      (Function.update s.errCh i (some err)) := by
  have hout : (s.place i).outcome = some (result, err) := by rw [hp]; rfl
  have hch : ChannelOk (.returned result err) (s.resultCh i) (some err) := by
    refine ⟨fun r hr => ⟨rfl, ?_⟩, fun x hx => ⟨result, by rw [Option.some.inj hx]⟩⟩
    obtain ⟨-, err', hr'⟩ := (hs.channel i).result r hr
    cases hr'.symm.trans hout
    exact ⟨err, rfl⟩
  have hmoved := hs.leader (i := i) (p := .returned result err) (r := s.resultCh i)
    (x := some err) rfl
    (fun r e h => by cases h; exact hs.settled i result err hout) hch fun j hj => by
      have hf := hs.fits j i hj
      obtain ⟨rfl, x, rfl⟩ := hf.failing.outcome_eq hout
      exact ⟨Or.inr ⟨x, rfl⟩, fun e hq _ => hf.unread e hq (by rw [hp]; rfl),
        fun e r hq => ⟨(hf.read e r hq).1, rfl⟩, nofun⟩
  rwa [Function.update_eq_self] at hmoved

/- A call that shares an entry reads its channels. -/
theorem sharer_moves (hs : Shared s.place s.resultCh s.errCh) {p : Place ι ε}
    {r : Option (Option ι)} {x : Option (Option ε)} (hshared : (s.place i).sharedEntry = some e)
    (hnew : ∀ e', p.sharedEntry = some e' → e' = e)
    (hset : ∀ result err, p.outcome = some (result, err) → Settled i result err)
    (hentry : ChannelOk (s.place e) r x) (hfits : p.sharedEntry = some e → Fits (s.place e) r x p) :
    Shared (Function.update s.place i p) (Function.update s.resultCh e r)
      (Function.update s.errCh e x) := by
  have hunsent : (s.place i).sent = false := by
    cases hpi : s.place i with
    | sendingErr _ _ _ => simp [hpi, Place.sharedEntry] at hshared
    | returned _ _ => simp [hpi, Place.sharedEntry] at hshared
    | _ => rfl
  have hnone : ∀ j, (s.place j).sharedEntry ≠ some i := by
    intro j hj
    rw [(hs.fits j i hj).failing.not_sharing] at hshared
    cases hshared
  refine hs.sharer (fun he => hnone i (he ▸ hshared)) hnone ?_ hnew hset
    ((hs.channel i).of_unsent hunsent) hentry hfits
  intro j hj hje
  exact hj (hs.single j i e hje hshared)

end Moves

theorem step_shared {s t : State ι ε} (hk : Keyed calls s.pending s.place)
    (hs : Shared s.place s.resultCh s.errCh) (hg : Orderly calls s a) (h : step calls s a = some t) :
    
    Shared t.place t.resultCh t.errCh := by
  cases moves_of_step h with
  | finds hp hentry =>
    rename_i i entry
    refine finds_shared hk hs hg hp hentry fun j hj => ?_
    rcases (hs.fits j i hj).failing with hf | ⟨x, hx⟩
    · cases hp.symm.trans hf
    · rw [hp] at hx
      cases hx
  | leads hp hfree => exact leader_moves hs rfl (by rw [hp]; rfl) nofun fun _ _ => ⟨rfl, Or.inl rfl⟩
  | fails hp =>
    refine leader_moves hs rfl (by rw [hp]; rfl) (fun r err hr => ?_) fun _ _ => ⟨rfl, Or.inr ⟨_, rfl⟩⟩
    cases hr
    exact Or.inr ⟨rfl, _, rfl⟩
  | succeeds hp hreq =>
    refine leader_moves hs rfl (by rw [hp]; rfl) (fun r err hr => ?_) fun j hj => absurd hj (hg j)
    cases hr
    exact Or.inl ⟨rfl, rfl⟩
  | deletes hp hentry =>
    rename_i i entry result err
    have hout : (s.place i).outcome = some (result, err) := by rw [hp]; rfl
    refine leader_moves hs rfl (by rw [hp]; rfl) (fun r x hr => ?_) fun j hj => ⟨rfl, ?_⟩
    · cases hr
      exact hs.settled i result err hout
    · obtain ⟨rfl, x, rfl⟩ := (hs.fits j i hj).failing.outcome_eq hout
      exact Or.inr ⟨x, rfl⟩
  | skips hp hentry =>
    rename_i i result err
    have hmine : s.pending (calls i).dedupKey = some i := (hk.lead _ _).mpr ⟨rfl, by rw [hp]; rfl⟩
    cases hentry.symm.trans hmine
  | sends hp hfree =>
    rename_i i entry result err
    obtain rfl := hk.own i entry (by rw [hp]; rfl)
    exact sends_shared hs hp
  | sendsErr hp hfree =>
    rename_i i entry result err
    obtain rfl := hk.own i entry (by rw [hp]; rfl)
    exact sendsErr_shared hs hp
  | takes hp hfull => cases (hg _ hp).symm.trans hfull
  | waits hp hempty =>
    rename_i i entry
    have hshared : (s.place i).sharedEntry = some entry := by rw [hp]; rfl
    have hf := hs.fits i entry hshared
    have hmoved := sharer_moves hs (p := .waiting entry) hshared
      (fun e' he => (Option.some.inj he).symm) nofun (hs.channel entry)
      fun _ => ⟨hf.failing, fun e _ => hf.unread entry (Or.inl hp), nofun, hf.error⟩
    rwa [Function.update_eq_self, Function.update_eq_self] at hmoved
  | receives hp hfull =>
    rename_i i entry result
    have hshared : (s.place i).sharedEntry = some entry := by rw [hp]; rfl
    have hf := hs.fits i entry hshared
    obtain ⟨hsent, err, hout⟩ := (hs.channel entry).result result hfull
    obtain ⟨rfl, -⟩ := hf.failing.outcome_eq hout
    have hmoved := sharer_moves hs (p := .received entry none) (r := none) hshared
      (fun e' he => (Option.some.inj he).symm) nofun ⟨nofun, (hs.channel entry).error⟩
      fun _ => ⟨hf.failing, nofun, fun e r hr => by cases hr; exact ⟨rfl, hsent⟩, hf.error⟩
    rwa [Function.update_eq_self] at hmoved
  | receivesErr hp hfull =>
    rename_i i entry result err
    have hshared : (s.place i).sharedEntry = some entry := by rw [hp]; rfl
    have hf := hs.fits i entry hshared
    obtain ⟨r, hmaker⟩ := (hs.channel entry).error err hfull
    have hout : (s.place entry).outcome = some (r, err) := by rw [hmaker]; rfl
    obtain ⟨-, x, rfl⟩ := hf.failing.outcome_eq hout
    obtain ⟨rfl, -⟩ := hf.read entry result hp
    have hmoved := sharer_moves hs (p := .returned none (some x)) (x := none) hshared nofun
      (fun r err hr => by cases hr; exact Or.inr ⟨rfl, x, rfl⟩)
      ⟨(hs.channel entry).result, nofun⟩ nofun
    rwa [Function.update_eq_self] at hmoved

omit [DecidableEq ι] in
theorem Shared.sound {s : State ι ε} (hs : Shared s.place s.resultCh s.errCh) : Sound s where
  no_nil i hi := by
    rcases hs.settled i none none (by rw [hi]; rfl) with ⟨h, -⟩ | ⟨-, x, h⟩
    · cases h
    · cases h
  not_blocked i e hdone := by
    refine ⟨fun hi => ?_, fun r hi => ?_⟩
    · have hf := hs.fits i e (by rw [hi]; rfl)
      exact hf.unread e (Or.inr hi) (Place.sent_of_done hdone)
    · have hf := hs.fits i e (by rw [hi]; rfl)
      exact hf.error hdone
  own_body i j body hi hj := by
    have hbody : ∀ k, s.place k = .returned (some body) none → body = k := by
      intro k hk
      rcases hs.settled k (some body) none (by rw [hk]; rfl) with ⟨h, -⟩ | ⟨h, -⟩
      · exact Option.some.inj h
      · cases h
    exact (hbody i hi).symm.trans (hbody j hj)

/-- While the steps are orderly the calls return what they should: a fetch is shared by
one call at most, and only if it fails. -/
theorem coalesced_calls_sound (calls : ι → Call) (s : State ι ε)
    (h : Reach (step calls) (Orderly calls) start s) : Sound s := by
  have hinv : Keyed calls s.pending s.place ∧ Shared s.place s.resultCh s.errCh := by
    refine h.invariant (fun s => Keyed calls s.pending s.place ∧ Shared s.place s.resultCh s.errCh)
      ⟨start_keyed calls, start_shared⟩ fun s a t hi hg hst => ?_
    exact ⟨step_keyed hi.1 hst, step_shared hi.1 hi.2 hg hst⟩
  exact hinv.2.sound

/- Two calls for one object, and the fetch of the first fails. -/
theorem coalesced_calls_failing :
    ∃ s : State (Fin 2) Unit, Reach (step fun _ => ⟨lit "a", []⟩) (Orderly fun _ => ⟨lit "a", []⟩)
      start s ∧ s.place 0 = .returned none (some ()) ∧ s.place 1 = .returned none (some ()) ∧
      Sound s := by
  have hrun : (exec (step fun _ => ⟨lit "a", []⟩) [.lookup 0, .lookup 1, .poll 1,
      .fetch 0 (some ()), .broadcast 0, .sendResult 0, .receive 1, .sendErr 0, .receiveErr 1]
      (start : State (Fin 2) Unit)).map (fun s => (s.place 0, s.place 1)) =
        some (.returned none (some ()), .returned none (some ())) := by decide +kernel
  have hguard : Guarded (step fun _ => ⟨lit "a", []⟩) (Orderly fun _ => ⟨lit "a", []⟩)
      [.lookup 0, .lookup 1, .poll 1, .fetch 0 (some ()), .broadcast 0, .sendResult 0, .receive 1,
        .sendErr 0, .receiveErr 1] (start : State (Fin 2) Unit) := by decide +kernel
  obtain ⟨s, hr, hview⟩ := reach_of_guarded_view hguard _ hrun
  obtain ⟨h0, h1⟩ := Prod.mk.inj hview
  exact ⟨s, hr, h0, h1, coalesced_calls_sound _ s hr⟩

/- The second call looks at the channel when the result is in it; it reads the result
   that the first call returns as well; a third one is left without. -/
theorem coalesced_calls_wrong :
    (∃ s : State (Fin 2) Unit, Reach (step fun _ => ⟨lit "a", []⟩) Free start s ∧
      s.place 1 = .returned none none) ∧
    (∃ s : State (Fin 2) Unit, Reach (step fun _ => ⟨lit "a", []⟩) Free start s ∧
      s.place 0 = .returned (some 0) none ∧ s.place 1 = .returned (some 0) none) ∧
    ∃ s : State (Fin 3) Unit, Reach (step fun _ => ⟨lit "a", []⟩) Free start s ∧
      s.place 0 = .returned (some 0) none ∧ s.place 2 = .waiting 0 ∧
      s.resultCh 0 = none ∧ s.errCh 0 = none := by
  refine ⟨?_, ?_, ?_⟩
  · have hrun : (exec (step fun _ => ⟨lit "a", []⟩) [.lookup 0, .lookup 1, .fetch 0 none,
        .broadcast 0, .sendResult 0, .poll 1] (start : State (Fin 2) Unit)).map
          (fun s => s.place 1) = some (.returned none none) := by decide +kernel
    exact reach_of_view _ _ hrun
  · have hrun : (exec (step fun _ => ⟨lit "a", []⟩) [.lookup 0, .lookup 1, .poll 1, .fetch 0 none,
        .broadcast 0, .sendResult 0, .receive 1, .sendErr 0, .receiveErr 1]
        (start : State (Fin 2) Unit)).map (fun s => (s.place 0, s.place 1)) =
          some (.returned (some 0) none, .returned (some 0) none) := by decide +kernel
    obtain ⟨s, hr, hview⟩ := reach_of_view _ _ hrun
    exact ⟨s, hr, Prod.mk.inj hview⟩
  · have hrun : (exec (step fun _ => ⟨lit "a", []⟩) [.lookup 0, .lookup 1, .poll 1, .lookup 2,
        .poll 2, .fetch 0 none, .broadcast 0, .sendResult 0, .receive 1, .sendErr 0, .receiveErr 1]
        (start : State (Fin 3) Unit)).map
          (fun s => (s.place 0, s.place 2, s.resultCh 0, s.errCh 0)) =
          some (.returned (some 0) none, .waiting 0, none, none) := by decide +kernel
    obtain ⟨s, hr, hview⟩ := reach_of_view _ _ hrun
    simp only [Prod.mk.injEq] at hview
    exact ⟨s, hr, hview⟩

end EdgeDispatch.Edge.FetchDedup
