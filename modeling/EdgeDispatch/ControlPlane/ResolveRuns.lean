import EdgeDispatch.Lib.Transition
import EdgeDispatch.ControlPlane.Scoring

/-! # Concurrent Resolve calls

`filter` takes a buffer from `filteredPool`, fills it, puts it back and returns a slice
of it (scheduler.go:319-343). `filterForSmallBandwidth` then compacts that slice in
place and the scoring loop reads it node by node (scheduler.go:160-181), while other
calls may get the same buffer. -/

namespace EdgeDispatch.ControlPlane.ResolveRuns
open Lib.Transition ControlPlane.Scoring

/-- A backing array: its capacity and the cells written so far, from the first on. -/
structure Buffer where
  cap : ℕ
  cells : List Node

structure Call where
  nodes : List Node
  req : DispatchRequest

/-- Where a call is; its slice is the first `n` cells of buffer `b`. The heap comes from
a pool too, but is put back only when the call is through with it. -/
inductive Pc where
  | idle
  | filtered (b n : ℕ)
  | scoring (b n k : ℕ) (heap : List ScoredNode)
  | done (r : List Candidate)

structure State (ι : Type) where
  mem : ℕ → Buffer
  pool : List ℕ
  next : ℕ
  pc : ι → Pc

/- `filter` with the buffer that Get returned (none: a new one) and the capacity that
   append gives to a larger array, if it needs one. -/
inductive Act (ι : Type) where
  | filter (i : ι) (choice : Option ℕ) (grown : ℕ)
  | smallBandwidth (i : ι)
  | score (i : ι)

def start {ι : Type} : State ι := ⟨fun _ => ⟨0, []⟩, [], 0, fun _ => .idle⟩

variable {ι : Type} [DecidableEq ι]

/- `Get`: a new slice of capacity 128, or one that is in the pool. -/
def getBuffer (s : State ι) : Option ℕ → Option (State ι × ℕ)
  | none => some ({ s with
      mem := Function.update s.mem s.next ⟨128, []⟩
      next := s.next + 1 }, s.next)
  | some b => if b ∈ s.pool then some ({ s with pool := s.pool.erase b }, b) else none

/-- The appends of `filter` and its Put: in place as far as the capacity goes, then in a
larger array, which replaces the first one in the pool. -/
def fillBuffer (s : State ι) (b : ℕ) (kept : List Node) (grown : ℕ) : Option (State ι × ℕ) :=
  let buf := s.mem b
  if kept.length ≤ buf.cap then
    some ({ s with
      mem := Function.update s.mem b ⟨buf.cap, kept ++ buf.cells.drop kept.length⟩
      pool := b :: s.pool }, b)
  else if kept.length ≤ grown then
    some ({ s with
      mem := Function.update (Function.update s.mem b ⟨buf.cap, kept.take buf.cap⟩)
        s.next ⟨grown, kept⟩
      pool := s.next :: s.pool
      next := s.next + 1 }, s.next)
  else none

def setPc (s : State ι) (i : ι) (p : Pc) : State ι := { s with pc := Function.update s.pc i p }

section Step
variable (sch : Scheduler) (call : ι → Call)

def kept (i : ι) : List Node := (call i).nodes.filter (eligible sch)

def filterStep (s : State ι) (i : ι) (choice : Option ℕ) (grown : ℕ) : Option (State ι) :=
  (getBuffer s choice).bind fun r =>
    (fillBuffer r.1 r.2 (kept sch call i) grown).map fun t =>
      setPc t.1 i (if kept sch call i = [] then .done (noOriginFallback sch)
        else .filtered t.2 (kept sch call i).length)

def smallStep (s : State ι) (i : ι) (b n : ℕ) : State ι :=
  let r := filterForSmallBandwidth sch (call i).req.key n (s.mem b).cells
  setPc { s with mem := Function.update s.mem b ⟨(s.mem b).cap, r.1⟩ } i
    (if r.2 = 0 then .done (noOriginFallback sch) else .scoring b r.2 0 [])

/- One turn of the scoring loop, or what comes after the last. -/
def scoreStep (s : State ι) (i : ι) (b n k : ℕ) (heap : List ScoredNode) : Option (State ι) :=
  if k < n then
    (s.mem b).cells[k]?.map fun node => setPc s i
      (.scoring b n (k + 1) (heapPush sch.cfg.maxCandidates heap (scored sch (call i).req node)))
  else some (setPc s i (.done (candidates heap)))

def step (s : State ι) : Act ι → Option (State ι)
  | .filter i choice grown =>
    match s.pc i with
    | .idle => filterStep sch call s i choice grown
    | _ => none
  | .smallBandwidth i =>
    match s.pc i with
    | .filtered b n => some (smallStep sch call s i b n)
    | _ => none
  | .score i =>
    match s.pc i with
    | .scoring b n k heap => scoreStep sch call s i b n k heap
    | _ => none

def Act.caller : Act ι → ι
  | .filter i _ _ | .smallBandwidth i | .score i => i

/- Runs in which only call `i` moves. -/
def Only (i : ι) (_ : State ι) (a : Act ι) : Prop := a.caller = i

/-- Alone, the call can return `r` and nothing else. -/
def AloneReturns (i : ι) (r : List Candidate) : Prop :=
  (∃ s, Reach (step sch call) (Only i) start s ∧ s.pc i = .done r) ∧
    ∀ s, Reach (step sch call) (Only i) start s → ∀ r', s.pc i = .done r' → r' = r

def Isolated (s : State ι) : Prop := ∀ i r, s.pc i = .done r → AloneReturns sch call i r

/-! ### What a call computes from its own nodes -/

def narrowed (i : ι) : List Node :=
  if sch.cfg.smallBandwidthEnabled then (kept sch call i).filter (keepSmall sch (call i).req.key)
  else kept sch call i

def heapOf (i : ι) (nodes : List Node) : List ScoredNode :=
  nodes.foldl (fun h n => heapPush sch.cfg.maxCandidates h (scored sch (call i).req n)) []

def resolve (i : ι) : List Candidate :=
  if kept sch call i = [] then noOriginFallback sch
  else if narrowed sch call i = [] then noOriginFallback sch
  else candidates (heapOf sch call i (narrowed sch call i))

/-! ### Runs in which no buffer is shared -/

def Pc.buffer : Pc → Option ℕ
  | .filtered b _ | .scoring b _ _ _ => some b
  | _ => none

/-- Get never hands out a buffer that a call has still to read. -/
def Unshared (s : State ι) : Act ι → Prop
  | .filter i (some b) _ => ∀ j, j ≠ i → (s.pc j).buffer ≠ some b
  | _ => True

/-- The slice of a call holds what the call itself put there. -/
def Sound (mem : ℕ → Buffer) (i : ι) : Pc → Prop
  | .idle => True
  | .filtered b n => kept sch call i ≠ [] ∧ n = (kept sch call i).length ∧
      (mem b).cells.take n = kept sch call i
  | .scoring b n k heap => kept sch call i ≠ [] ∧ narrowed sch call i ≠ [] ∧
      n = (narrowed sch call i).length ∧ (mem b).cells.take n = narrowed sch call i ∧
      k ≤ n ∧ heap = heapOf sch call i ((narrowed sch call i).take k)
  | .done r => r = resolve sch call i

structure Inv (s : State ι) : Prop where
  sound : ∀ i, Sound sch call s.mem i (s.pc i)
  used : ∀ i b, (s.pc i).buffer = some b → b < s.next
  pooled : ∀ b ∈ s.pool, b < s.next
  apart : ∀ i j b, (s.pc i).buffer = some b → (s.pc j).buffer = some b → i = j

variable {sch : Scheduler} {call : ι → Call}

omit [DecidableEq ι] in
theorem inv_start : Inv sch call (start : State ι) where
  sound _ := trivial
  used _ _ h := nomatch h
  pooled _ h := nomatch h
  apart _ _ _ h _ := nomatch h

variable {i : ι} {s : State ι} {choice : Option ℕ} {nodes : List Node} {heap : List ScoredNode}

omit [DecidableEq ι] in
theorem Sound.frame {mem mem' : ℕ → Buffer} {p : Pc} (h : Sound sch call mem i p)
    (hmem : ∀ b, p.buffer = some b → mem' b = mem b) : Sound sch call mem' i p := by
  cases p with
  | idle => trivial
  | filtered b n =>
    show _ ∧ _ ∧ (mem' b).cells.take n = _
    rw [hmem b rfl]
    exact h
  | scoring b n k heap =>
    show _ ∧ _ ∧ _ ∧ (mem' b).cells.take n = _ ∧ _
    rw [hmem b rfl]
    exact h
  | done r => exact h

variable {r : State ι × ℕ} {b grown : ℕ} {t s' : State ι}

omit [DecidableEq ι] in
theorem getBuffer_pc (h : getBuffer s choice = some r) : r.1.pc = s.pc := by
  cases choice with
  | none =>
    cases h
    rfl
  | some b =>
    simp only [getBuffer] at h
    split at h
    · cases h
      rfl
    · cases h

omit [DecidableEq ι] in
theorem fillBuffer_pc (h : fillBuffer s b nodes grown = some r) : r.1.pc = s.pc := by
  simp only [fillBuffer] at h
  split at h
  · cases h
    rfl
  · split at h
    · cases h
      rfl
    · cases h

/- A step moves the call that takes it and no other. -/
theorem step_others {a : Act ι} (hs : step sch call s a = some t) {j : ι} (hj : j ≠ a.caller) :
    t.pc j = s.pc j := by
  cases a with
  | filter i choice grown =>
    simp only [step] at hs
    split at hs
    · obtain ⟨r, hget, hrest⟩ := Option.bind_eq_some_iff.mp hs
      obtain ⟨u, hfill, rfl⟩ := Option.map_eq_some_iff.mp hrest
      have hpc : u.1.pc = s.pc := (fillBuffer_pc hfill).trans (getBuffer_pc hget)
      exact (Function.update_of_ne hj _ _).trans (congrFun hpc j)
    · cases hs
  | smallBandwidth i =>
    simp only [step] at hs
    split at hs
    · cases hs
      exact Function.update_of_ne hj _ _
    · cases hs
  | score i =>
    simp only [step] at hs
    split at hs
    · unfold scoreStep at hs
      split at hs
      · obtain ⟨node, _, rfl⟩ := Option.map_eq_some_iff.mp hs
        exact Function.update_of_ne hj _ _
      · cases hs
        exact Function.update_of_ne hj _ _
    · cases hs

/- A call has a buffer to write to and to read from; nobody else's is touched. -/
structure Prepared (i : ι) (s s' : State ι) (b : ℕ) : Prop where
  pc : s'.pc = s.pc
  next : s.next ≤ s'.next
  lt : b < s'.next
  pooled : ∀ c ∈ s'.pool, c < s'.next
  unused : ∀ j, j ≠ i → (s.pc j).buffer ≠ some b
  mem : ∀ j, j ≠ i → ∀ c, (s.pc j).buffer = some c → s'.mem c = s.mem c

theorem Inv.move (h : Inv sch call s) (hp : Prepared i s s' b) (p : Pc)
    (hsound : Sound sch call s'.mem i p) (hb : ∀ c, p.buffer = some c → c = b) :
    Inv sch call (setPc s' i p) := by
  have hself : (setPc s' i p).pc i = p := by simp [setPc]
  have hother : ∀ j, j ≠ i → (setPc s' i p).pc j = s.pc j := by
    intro j hj
    simp [setPc, hj, hp.pc]
  refine ⟨?_, ?_, hp.pooled, ?_⟩
  · intro j
    by_cases hj : j = i
    · subst hj
      rw [hself]
      exact hsound
    · rw [hother j hj]
      exact (h.sound j).frame (hp.mem j hj)
  · intro j c hc
    by_cases hj : j = i
    · subst hj
      rw [hself] at hc
      rw [hb c hc]
      exact hp.lt
    · rw [hother j hj] at hc
      exact lt_of_lt_of_le (h.used j c hc) hp.next
  · -- two calls with one buffer: neither can be `i`, whose buffer no other call has
    intro j k c hj hk
    by_cases hji : j = i
    · by_cases hki : k = i
      · rw [hji, hki]
      · rw [hji, hself] at hj
        rw [hother k hki, hb c hj] at hk
        exact absurd hk (hp.unused k hki)
    · rw [hother j hji] at hj
      by_cases hki : k = i
      · rw [hki, hself] at hk
        rw [hb c hk] at hj
        exact absurd hj (hp.unused j hji)
      · rw [hother k hki] at hk
        exact h.apart j k c hj hk

omit [DecidableEq ι] in
theorem getBuffer_prepared (h : Inv sch call s) (hg : Unshared s (.filter i choice grown))
    (hget : getBuffer s choice = some (s', b)) : Prepared i s s' b := by
  cases choice with
  | none =>
    cases hget
    refine ⟨rfl, Nat.le_succ _, Nat.lt_succ_self _, ?_, ?_, ?_⟩
    · intro c hc
      exact Nat.lt_succ_of_lt (h.pooled c hc)
    · intro j _ hj
      exact absurd (h.used j _ hj) (Nat.lt_irrefl _)
    · intro j _ c hc
      exact Function.update_of_ne (Nat.ne_of_lt (h.used j c hc)) _ _
  | some b' =>
    simp only [getBuffer] at hget
    split at hget
    · rename_i hb
      cases hget
      refine ⟨rfl, le_refl _, h.pooled b hb, ?_, hg, fun _ _ _ _ => rfl⟩
      intro c hc
      exact h.pooled c (List.mem_of_mem_erase hc)
    · cases hget

omit [DecidableEq ι] in
/- After the appends the slice holds the kept nodes, in the old array or in a new one. -/
theorem fillBuffer_prepared {c : ℕ} (h : Inv sch call s) (hp : Prepared i s s' b)
    (hfill : fillBuffer s' b nodes grown = some (t, c)) :
    Prepared i s t c ∧ (t.mem c).cells.take nodes.length = nodes := by
  have hown : ∀ j, j ≠ i → ∀ d, (s.pc j).buffer = some d → d ≠ b := by
    intro j hj d hd he
    exact hp.unused j hj (he ▸ hd)
  have hnew : ∀ j d, (s.pc j).buffer = some d → d ≠ s'.next := by
    intro j d hd
    exact Nat.ne_of_lt (lt_of_lt_of_le (h.used j d hd) hp.next)
  simp only [fillBuffer] at hfill
  split at hfill
  · cases hfill
    refine ⟨⟨hp.pc, hp.next, hp.lt, ?_, hp.unused, ?_⟩, ?_⟩
    · intro d hd
      rcases List.mem_cons.mp hd with rfl | hd
      · exact hp.lt
      · exact hp.pooled d hd
    · intro j hj d hd
      exact (Function.update_of_ne (hown j hj d hd) _ _).trans (hp.mem j hj d hd)
    · simp
  · split at hfill
    · cases hfill
      refine ⟨⟨hp.pc, Nat.le_succ_of_le hp.next, Nat.lt_succ_self _, ?_, ?_, ?_⟩, ?_⟩
      · intro d hd
        rcases List.mem_cons.mp hd with rfl | hd
        · exact Nat.lt_succ_self _
        · exact Nat.lt_succ_of_lt (hp.pooled d hd)
      · intro j _ hj
        exact hnew j _ hj rfl
      · intro j hj d hd
        exact (Function.update_of_ne (hnew j d hd) _ _).trans
          ((Function.update_of_ne (hown j hj d hd) _ _).trans (hp.mem j hj d hd))
      · simp
    · cases hfill

theorem filterStep_inv (h : Inv sch call s) (hg : Unshared s (.filter i choice grown))
    (hs : filterStep sch call s i choice grown = some t) : Inv sch call t := by
  obtain ⟨⟨s', b⟩, hget, hrest⟩ := Option.bind_eq_some_iff.mp hs
  obtain ⟨⟨u, c⟩, hfill, rfl⟩ := Option.map_eq_some_iff.mp hrest
  obtain ⟨hp, htake⟩ := fillBuffer_prepared h (getBuffer_prepared h hg hget) hfill
  by_cases hk : kept sch call i = []
  · rw [if_pos hk]
    exact h.move hp _ (by simp [Sound, resolve, hk]) (fun _ hc => nomatch hc)
  · rw [if_neg hk]
    exact h.move hp _ ⟨hk, rfl, htake⟩ (fun _ hc => (Option.some.inj hc).symm)

omit [DecidableEq ι] in
/- A call that already has its buffer writes to no other one. -/
theorem prepared_of_own (h : Inv sch call s) (hb : (s.pc i).buffer = some b) (buf : Buffer) :
    
    Prepared i s { s with mem := Function.update s.mem b buf } b := by
  have hunused : ∀ j, j ≠ i → (s.pc j).buffer ≠ some b := by
    intro j hj hjb
    exact hj (h.apart j i b hjb hb)
  refine ⟨rfl, le_refl _, h.used i b hb, h.pooled, hunused, ?_⟩
  intro j hj c hc
  apply Function.update_of_ne
  rintro rfl
  exact hunused j hj hc

theorem smallStep_inv (h : Inv sch call s) {n : ℕ} (hi : s.pc i = .filtered b n) :
    Inv sch call (smallStep sch call s i b n) := by
  have hsound := h.sound i
  rw [hi] at hsound
  obtain ⟨hk, rfl, htake⟩ := hsound
  obtain ⟨hcount, hcells⟩ :=
    filterForSmallBandwidth_spec sch (call i).req.key (kept sch call i) (s.mem b).cells htake
  have hprep := prepared_of_own h (i := i) (b := b) (by rw [hi]; rfl)
  refine h.move (hprep _) _ ?_ ?_
  · by_cases hz : narrowed sch call i = []
    · have hzero : (filterForSmallBandwidth sch (call i).req.key (kept sch call i).length
          (s.mem b).cells).2 = 0 := by
        rw [hcount]
        exact congrArg List.length hz
      rw [if_pos hzero]
      simp [Sound, resolve, hk, hz]
    · have hlen : (filterForSmallBandwidth sch (call i).req.key (kept sch call i).length
          (s.mem b).cells).2 = (narrowed sch call i).length := hcount
      have hpos : (narrowed sch call i).length ≠ 0 := by
        simpa using hz
      rw [if_neg (by rw [hlen]; exact hpos), hlen]
      refine ⟨hk, hz, rfl, ?_, Nat.zero_le _, rfl⟩
      show (Function.update s.mem b _ b).cells.take _ = _
      rw [Function.update_self]
      exact hcells
  · intro c hc
    split at hc
    · cases hc
    · exact (Option.some.inj hc).symm

omit [DecidableEq ι] in
theorem heapOf_take_succ (i : ι) {k : ℕ} (hk : k < nodes.length) :
    heapOf sch call i (nodes.take (k + 1)) =
      heapPush sch.cfg.maxCandidates (heapOf sch call i (nodes.take k))
        (scored sch (call i).req nodes[k]) := by
  rw [List.take_succ_eq_append_getElem hk, heapOf, List.foldl_append]
  rfl

theorem scoreStep_inv (h : Inv sch call s) {n k : ℕ} (hi : s.pc i = .scoring b n k heap)
    (hs : scoreStep sch call s i b n k heap = some t) : Inv sch call t := by
  have hsound := h.sound i
  rw [hi] at hsound
  obtain ⟨hk, hz, rfl, htake, hle, rfl⟩ := hsound
  have hprep : Prepared i s s b := by
    have hown := prepared_of_own h (i := i) (b := b) (by rw [hi]; rfl) (s.mem b)
    rwa [Function.update_eq_self] at hown
  unfold scoreStep at hs
  split at hs
  · rename_i hlt
    obtain ⟨node, hnode, rfl⟩ := Option.map_eq_some_iff.mp hs
    have hread : (narrowed sch call i)[k] = node := by
      have hcell : ((s.mem b).cells.take (narrowed sch call i).length)[k]? = some node := by
        rw [List.getElem?_take_of_lt hlt]
        exact hnode
      rw [htake, List.getElem?_eq_getElem hlt] at hcell
      exact Option.some.inj hcell
    refine h.move hprep _ ⟨hk, hz, rfl, htake, hlt, ?_⟩ (fun _ hc => (Option.some.inj hc).symm)
    rw [heapOf_take_succ i hlt, hread]
  · rename_i hge
    cases hs
    refine h.move hprep _ ?_ (fun _ hc => nomatch hc)
    show candidates _ = resolve sch call i
    have hall : (narrowed sch call i).take k = narrowed sch call i :=
      List.take_of_length_le (Nat.le_of_not_lt hge)
    rw [hall, resolve, if_neg hk, if_neg hz]

theorem step_inv (s : State ι) (a : Act ι) (t : State ι) (h : Inv sch call s)
    (hg : Unshared s a) (hs : step sch call s a = some t) : Inv sch call t := by
  cases a with
  | filter i choice grown =>
    simp only [step] at hs
    split at hs
    · exact filterStep_inv h hg hs
    · cases hs
  | smallBandwidth i =>
    simp only [step] at hs
    split at hs
    · cases hs
      exact smallStep_inv h ‹_›
    · cases hs
  | score i =>
    simp only [step] at hs
    split at hs
    · exact scoreStep_inv h ‹_› hs
    · cases hs

theorem unshared_inv (h : Reach (step sch call) Unshared start s) : Inv sch call s :=
  h.invariant (Inv sch call) inv_start step_inv

/-! ### A call alone -/

/- Alone, a call meets nobody's buffer. -/
theorem alone_unshared (h : Reach (step sch call) (Only i) start s) :
    Reach (step sch call) Unshared start s ∧ ∀ j, j ≠ i → s.pc j = .idle := by
  induction h with
  | start => exact ⟨.start, fun _ _ => rfl⟩
  | @next s t a _ hg hs ih =>
    obtain ⟨hreach, hidle⟩ := ih
    have hunshared : Unshared s a := by
      cases a with
      | filter k choice grown =>
        cases choice with
        | none => trivial
        | some b =>
          intro j hj
          have hki : k = i := hg
          rw [hidle j (hki ▸ hj)]
          exact nofun
      | smallBandwidth k => trivial
      | score k => trivial
    refine ⟨hreach.next a hunshared hs, ?_⟩
    intro j hj
    rw [← hidle j hj]
    exact step_others hs (fun he => hj (he.trans hg))

theorem alone_inv (h : Reach (step sch call) (Only i) start s) : Inv sch call s :=
  unshared_inv (alone_unshared h).1

theorem alone_scoring (todo : ℕ) (h : Reach (step sch call) (Only i) start s) {n k : ℕ}
    (hi : s.pc i = .scoring b n k heap) (htodo : n - k = todo) :
    ∃ t r, Reach (step sch call) (Only i) start t ∧ t.pc i = .done r := by
  induction todo generalizing s k heap with
  | zero =>
    have hlast : step sch call s (.score i) = some (setPc s i (.done (candidates heap))) := by
      simp only [step, hi, scoreStep]
      rw [if_neg (by omega)]
    exact ⟨_, candidates heap, h.next (Act.score i) rfl hlast, Function.update_self ..⟩
  | succ todo ih =>
    have hsound := (alone_inv h).sound i
    rw [hi] at hsound
    obtain ⟨_, _, hn, htake, _, _⟩ := hsound
    have hlen : k < (s.mem b).cells.length := by
      have hl := congrArg List.length htake
      rw [List.length_take] at hl
      omega
    have hturn : step sch call s (.score i) = some (setPc s i (.scoring b n (k + 1)
        (heapPush sch.cfg.maxCandidates heap
          (scored sch (call i).req (s.mem b).cells[k])))) := by
      simp only [step, hi, scoreStep]
      rw [if_pos (by omega), List.getElem?_eq_getElem hlen]
      rfl
    exact ih (h.next (Act.score i) rfl hturn) (Function.update_self ..) (by omega)

theorem alone_filtered (h : Reach (step sch call) (Only i) start s) {n : ℕ}
    (hi : s.pc i = .filtered b n) :
    ∃ t r, Reach (step sch call) (Only i) start t ∧ t.pc i = .done r := by
  have hsmall : step sch call s (.smallBandwidth i) = some (smallStep sch call s i b n) := by
    simp only [step, hi]
  have hr := h.next (Act.smallBandwidth i) rfl hsmall
  have hpc : (smallStep sch call s i b n).pc i = _ := Function.update_self ..
  split at hpc
  · exact ⟨_, _, hr, hpc⟩
  · exact alone_scoring _ hr hpc rfl

omit [DecidableEq ι] in
theorem fillBuffer_grows (s : State ι) (b : ℕ) (nodes : List Node) :
    ∃ r, fillBuffer s b nodes nodes.length = some r := by
  by_cases hfits : nodes.length ≤ (s.mem b).cap
  · exact ⟨_, if_pos hfits⟩
  · exact ⟨_, (if_neg hfits).trans (if_pos (le_refl _))⟩

theorem filter_fresh (sch : Scheduler) (call : ι → Call) (i : ι) : ∃ t b, step sch call start
      (.filter i none (kept sch call i).length) = some t ∧
    t.pc i = if kept sch call i = [] then .done (noOriginFallback sch)
      else .filtered b (kept sch call i).length := by
  obtain ⟨r, hget⟩ : ∃ r, getBuffer (start : State ι) none = some r := ⟨_, rfl⟩
  obtain ⟨u, hfill⟩ := fillBuffer_grows r.1 r.2 (kept sch call i)
  let p : Pc := if kept sch call i = [] then .done (noOriginFallback sch)
    else .filtered u.2 (kept sch call i).length
  refine ⟨setPc u.1 i p, u.2, ?_, Function.update_self ..⟩
  show filterStep sch call start i none _ = _
  rw [filterStep, hget, Option.bind_some, hfill, Option.map_some]

theorem alone_returns (sch : Scheduler) (call : ι → Call) (i : ι) :
    AloneReturns sch call i (resolve sch call i) := by
  have hval : ∀ s, Reach (step sch call) (Only i) start s → ∀ r, s.pc i = .done r →
      r = resolve sch call i := by
    intro s hs r hr
    have hsound := (alone_inv hs).sound i
    rw [hr] at hsound
    exact hsound
  have hreturns : ∃ t r, Reach (step sch call) (Only i) start t ∧ t.pc i = .done r := by
    obtain ⟨t, b, hfilter, hpc⟩ := filter_fresh sch call i
    have hr : Reach (step sch call) (Only i) start t := 
      Reach.start.next (Act.filter i none (kept sch call i).length) rfl hfilter
    split at hpc
    · exact ⟨t, _, hr, hpc⟩
    · exact alone_filtered hr hpc
  obtain ⟨t, r, ht, hr⟩ := hreturns
  exact ⟨⟨t, ht, hval t ht r hr ▸ hr⟩, hval⟩

omit [DecidableEq ι] in
/- A call returns nodes of its own list, or the fallback. -/
theorem resolve_ids (sch : Scheduler) (call : ι → Call) (i : ι) :
    resolve sch call i = noOriginFallback sch ∨
      ∀ c ∈ resolve sch call i, ∃ n ∈ (call i).nodes, n.nodeID = c.id := by
  unfold resolve
  split
  · exact Or.inl rfl
  · split
    · exact Or.inl rfl
    · right
      intro c hc
      have hid := (candidates_ids _).mem_iff.mp (List.mem_map_of_mem hc)
      obtain ⟨sn, hsn, heq⟩ := List.mem_map.mp hid
      obtain ⟨n, hn, rfl⟩ := mem_foldl_heapPush hsn
      refine ⟨n, ?_, heq⟩
      unfold narrowed at hn
      split at hn
      · exact List.mem_of_mem_filter (List.mem_of_mem_filter hn)
      · exact List.mem_of_mem_filter hn

/-- While no buffer that a call has still to read is handed out again, every call
returns what it returns alone, whatever the others do. -/
theorem unshared_runs_isolate (sch : Scheduler) (call : ι → Call) (s : State ι)
    (h : Reach (step sch call) Unshared start s) : Isolated sch call s := by
  intro i r hr
  have hsound := (unshared_inv h).sound i
  rw [hr] at hsound
  have hres : r = resolve sch call i := hsound
  rw [hres]
  exact alone_returns sch call i

end Step

/-! ### Two calls that get one buffer -/

def plainScheduler : Scheduler :=
  { cfg := ⟨1, false, 0, 0, 0, true, ""⟩
    contentIndex := none
    tunnelMgr := none
    streamStrat := none
    inferStream := fun _ => "" }

def publicNode (id : String) : Node :=
  ⟨id, "", "", .active, [⟨"http", id, 80⟩], ⟨true, 0, false, 0, false⟩, ⟨100, 100, 0⟩⟩

/- Call 0 knows node "a" only, call 1 node "b" only. -/
def twoCalls (i : Fin 2) : Call :=
  ⟨[publicNode (if i = 0 then "a" else "b")], ⟨"", "", "k"⟩⟩

/- The first call's buffer is in the pool before its nodes are read. -/
def sharedBuffer : List (Act (Fin 2)) :=
  [.filter 0 none 0, .filter 1 (some 0) 0, .smallBandwidth 0, .score 0, .score 0]

def Pc.result : Pc → Option (List Candidate)
  | .done r => some r
  | _ => none

theorem result_done {p : Pc} {r : List Candidate} (h : p.result = some r) : p = .done r := by
  cases p with
  | done r' => exact congrArg Pc.done (Option.some.inj h)
  | _ => cases h

theorem first_call_returns_node_of_second :
    ∃ s, Reach (step plainScheduler twoCalls) Free start s ∧
      s.pc 0 = .done [⟨"b", "http://b:80", 50, "", "", "direct"⟩] ∧
      resolve plainScheduler twoCalls 0 = [⟨"a", "http://a:80", 50, "", "", "direct"⟩] ∧
      ¬ Isolated plainScheduler twoCalls s := by
  have hrun : (exec (step plainScheduler twoCalls) sharedBuffer start).map
      (fun s => (s.pc 0).result) = some (some [⟨"b", "http://b:80", 50, "", "", "direct"⟩]) := by
    decide +kernel
  have halone : resolve plainScheduler twoCalls 0 =
      [⟨"a", "http://a:80", 50, "", "", "direct"⟩] := by
    decide +kernel
  obtain ⟨s, hreach, hres⟩ := reach_of_view sharedBuffer _ hrun
  have hpc : s.pc 0 = .done [⟨"b", "http://b:80", 50, "", "", "direct"⟩] := result_done hres
  refine ⟨s, hreach, hpc, halone, ?_⟩
  intro hiso
  obtain ⟨t, ht, hr⟩ := (alone_returns plainScheduler twoCalls 0).1
  have heq := (hiso 0 _ hpc).2 t ht _ hr
  rw [halone] at heq
  exact absurd heq (by decide)

/- With a buffer each, the same two calls may take their steps in turn. -/
def ownBuffers : List (Act (Fin 2)) :=
  [.filter 0 none 0, .filter 1 none 0, .smallBandwidth 0, .smallBandwidth 1, .score 0, .score 1,
    .score 0, .score 1]

theorem own_buffers_isolate :
    ∃ s, Reach (step plainScheduler twoCalls) Unshared start s ∧
      s.pc 0 = .done [⟨"a", "http://a:80", 50, "", "", "direct"⟩] ∧
      s.pc 1 = .done [⟨"b", "http://b:80", 50, "", "", "direct"⟩] ∧
      Isolated plainScheduler twoCalls s := by
  have hrun : (exec (step plainScheduler twoCalls) ownBuffers start).map
      (fun s => ((s.pc 0).result, (s.pc 1).result)) =
      some (some [⟨"a", "http://a:80", 50, "", "", "direct"⟩],
        some [⟨"b", "http://b:80", 50, "", "", "direct"⟩]) := by
    decide +kernel
  have hguard : Guarded (step plainScheduler twoCalls) Unshared ownBuffers start := by
    simp [Guarded, Unshared, ownBuffers]
  obtain ⟨s, hr, hres⟩ := reach_of_guarded_view hguard _ hrun
  have hpair := Prod.mk.inj hres
  exact ⟨s, hr, result_done hpair.1, result_done hpair.2,
    unshared_runs_isolate plainScheduler twoCalls s hr⟩

end EdgeDispatch.ControlPlane.ResolveRuns
