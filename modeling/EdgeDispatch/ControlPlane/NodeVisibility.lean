import EdgeDispatch.ControlPlane.NodeRuns
import EdgeDispatch.ControlPlane.ResolveRuns

/-! # What Resolve sees of a node that was taken out of service

Resolve gets its nodes from NodeCache.GetActiveNodes (nodecache.go:28-60): the list that
was stored last if it is younger than the TTL, else that of a fill which concurrent
callers share. The list and its time are two atomics, loaded and stored one by one. -/

namespace EdgeDispatch.ControlPlane.NodeVisibility
open Lib.Transition Store.Nodes
open ControlPlane.Scoring
open ControlPlane.NodeRuns (Op Kind Instr Undisturbed)

/-- The function that singleflight runs. `check` and `stamp` look at the cache once more,
`put` and `stampPut` store what the query returned. -/
inductive Fill where
  | check
  | stamp (l : List Node)
  | query
  | put (l : List Node)
  | stampPut (l : List Node)
  | result (l : List Node)
  deriving DecidableEq

/-- GetActiveNodes up to its return; `enter` is at the call of `Do`. -/
inductive Pc where
  | idle
  | stamp (l : List Node)
  | enter
  | waiting
  | done (l : List Node)
  | failed
  deriving DecidableEq

/-- The wall clock at the start and the TTL, in nanoseconds. -/
structure Clock where
  epoch : ℤ
  ttl : ℤ

/- The last two fields only record: `gone` which nodes a handler of the instance has
   reported out of service, `barred` which of them were so when the call began. -/
structure State (ι κ ρ : Type) where
  base : NodeRuns.State ι κ
  nodes : κ → Option (List Node)
  cachedAt : κ → ℤ
  fill : κ → Option Fill
  pc : ρ → Pc
  gone : κ → String → Bool
  barred : ρ → String → Bool

inductive Act (ι κ ρ : Type) where
  | node (a : NodeRuns.Act ι)
  | call (c : ρ)
  | fill (k : κ) (r : Outcome)

def start {ι κ ρ : Type} (rows : List Node) : State ι κ ρ :=
  ⟨NodeRuns.start rows, fun _ => none, fun _ => 0, fun _ => none, fun _ => .idle,
    fun _ _ => false, fun _ _ => false⟩

/-- The handlers that take a node out of service. -/
def takesOut : Kind → Bool
  | .disable | .patchDisable | .revoke | .adminDisable | .adminRevoke => true
  | _ => false

section Step
variable {ι κ ρ : Type} [DecidableEq ι] [DecidableEq κ] [DecidableEq ρ]
variable (clock : Clock) (op : ι → Op κ) (inst : ρ → κ)

def now (s : State ι κ ρ) : ℤ := clock.epoch + s.base.tables.now

def fresh (s : State ι κ ρ) (k : κ) : Bool := decide (now clock s - s.cachedAt k < clock.ttl)

def State.goto (s : State ι κ ρ) (c : ρ) (p : Pc) : State ι κ ρ :=
  { s with pc := Function.update s.pc c p }

def State.setFill (s : State ι κ ρ) (k : κ) (f : Option Fill) : State ι κ ρ :=
  { s with fill := Function.update s.fill k f }

def State.setNodes (s : State ι κ ρ) (k : κ) (l : Option (List Node)) : State ι κ ρ :=
  { s with nodes := Function.update s.nodes k l }

def State.setStamp (s : State ι κ ρ) (k : κ) (t : ℤ) : State ι κ ρ :=
  { s with cachedAt := Function.update s.cachedAt k t }

/- What a step of a handler or of a probe does besides: the two stores of Invalidate, and
   the answer to the administrator. -/
def effect (s : State ι κ ρ) : NodeRuns.Act ι → State ι κ ρ
  | .run i _ =>
    match s.base.pc i with
    | .run (.clearNodes :: _) => s.setNodes (op i).inst none
    | .run (.clearStamp :: _) => s.setStamp (op i).inst 0
    | .run (.respond :: _) =>
      if takesOut (op i).kind = true ∧ s.base.out (op i).node = true then
        { s with gone := fun k n => s.gone k n || decide (k = (op i).inst ∧ n = (op i).node) }
      else s
    | _ => s
  | _ => s

/- A node that is enabled or registered again is not asked about any more. -/
def State.rebase (s : State ι κ ρ) (b : NodeRuns.State ι κ) : State ι κ ρ :=
  { s with
    base := b
    gone := fun k n => s.gone k n && b.out n
    barred := fun c n => s.barred c n && b.out n }

/- A call that begins is not to return what is gone by then. -/
def State.begin (s : State ι κ ρ) (k : κ) (c : ρ) : State ι κ ρ :=
  { s with barred := Function.update s.barred c (s.gone k) }

def callStep (s : State ι κ ρ) (c : ρ) : Option (State ι κ ρ) :=
  match s.pc c with
  | .idle =>
    some ((s.begin (inst c) c).goto c (match s.nodes (inst c) with
      | some l => .stamp l
      | none => .enter))
  | .stamp l => some (s.goto c (if fresh clock s (inst c) then .done l else .enter))
  | .enter =>
    match s.fill (inst c) with
    | some _ => some (s.goto c .waiting)
    | none => some ((s.setFill (inst c) (some .check)).goto c .waiting)
  | _ => none

/- The fill ends, and everybody who waits for it gets its result. -/
def deliver (s : State ι κ ρ) (k : κ) (p : Pc) : State ι κ ρ :=
  { s.setFill k none with
    pc := fun c => match s.pc c with
      | .waiting => if inst c = k then p else .waiting
      | q => q }

def fillStep (s : State ι κ ρ) (k : κ) (r : Outcome) : Option (State ι κ ρ) :=
  match s.fill k with
  | none => none
  | some .check => some (s.setFill k (some (match s.nodes k with
      | some l => .stamp l
      | none => .query)))
  | some (.stamp l) => some (s.setFill k (some (if fresh clock s k then .result l else .query)))
  | some .query =>
    if r = .ok then some (s.setFill k (some (.put s.base.tables.listActiveNodes)))
    else some (deliver inst s k .failed)
  | some (.put l) => some ((s.setNodes k (some l)).setFill k (some (.stampPut l)))
  | some (.stampPut l) =>
    some ((s.setStamp k (now clock s)).setFill k (some (.result l)))
  | some (.result l) => some (deliver inst s k (.done l))

def step (s : State ι κ ρ) : Act ι κ ρ → Option (State ι κ ρ)
  | .node a => (NodeRuns.step op s.base a).map fun b => (effect op s a).rebase b
  | .call c => callStep clock inst s c
  | .fill k r => fillStep clock inst s k r

end Step

/-! ### From the list to the candidates -/

def Pc.result : Pc → List Node
  | .done l => l
  | _ => []

/-- The rest of Resolve, for the calls whose GetActiveNodes has returned. -/
def calls {ι κ ρ : Type} (s : State ι κ ρ) (req : ρ → DispatchRequest) (c : ρ) : ResolveRuns.Call :=
  ⟨(s.pc c).result, req c⟩

/-- Whatever the calls make of their lists, none that began after the answer returns the
node. -/
def OutOfSight {ι κ ρ : Type} [DecidableEq ρ] (sch : Scheduler) (req : ρ → DispatchRequest)
    (s : State ι κ ρ) : Prop :=
  ∀ t, Reach (ResolveRuns.step sch (calls s req)) ResolveRuns.Unshared ResolveRuns.start t →
    ∀ c n r, s.barred c n = true → t.pc c = .done r →
      r = noOriginFallback sch ∨ ∀ cand ∈ r, cand.id ≠ n

/-! ### Runs in which no old list is left at the answer -/

def Lacks (l : List Node) (n : String) : Prop := ∀ x ∈ l, x.nodeID ≠ n

def Fill.list : Fill → List Node
  | .check | .query => []
  | .stamp l | .put l | .stampPut l | .result l => l

def Pc.list : Pc → List Node
  | .stamp l | .done l => l
  | _ => []

section Runs
variable {ι κ ρ : Type}

/-- Neither the cached list of the instance, expired or not, nor a fill under way has the
node. -/
structure Clean (s : State ι κ ρ) (k : κ) (n : String) : Prop where
  nodes : ∀ l, s.nodes k = some l → Lacks l n
  fill : ∀ f, s.fill k = some f → Lacks f.list n

def responds : NodeRuns.Pc → Bool
  | .run (.respond :: _) => true
  | _ => false

/-- A handler answers only when its instance has no old list with the node, and nobody
writes an old status back over what it did. -/
def Settled (op : ι → Op κ) (s : State ι κ ρ) : Act ι κ ρ → Prop
  | .node a => Undisturbed op s.base a ∧
      match a with
      | .run i _ => responds (s.base.pc i) = true → takesOut (op i).kind = true →
          s.base.out (op i).node = true → Clean s (op i).inst (op i).node
      | _ => True
  | _ => True

structure Inv (op : ι → Op κ) (inst : ρ → κ) (s : State ι κ ρ) : Prop where
  base : NodeRuns.Inv op s.base
  clean : ∀ k n, s.gone k n = true → s.base.out n = true ∧ Clean s k n
  call : ∀ c n, s.barred c n = true → s.gone (inst c) n = true ∧ Lacks (s.pc c).list n

variable {op : ι → Op κ} {inst : ρ → κ}

theorem lacks_nil (n : String) : Lacks [] n := fun _ hx => nomatch hx

variable {s : State ι κ ρ}

/- The table itself no longer shows a node that is held. -/
theorem Inv.active_lacks (h : Inv op inst s) {n : String} (hn : s.base.out n = true) :
    Lacks s.base.tables.listActiveNodes n := by
  intro x hx hid
  obtain ⟨hmem, hst⟩ := Tables.mem_listActiveNodes.mp hx
  have hdown := h.base.sticky n hn x hmem hid
  rw [hdown] at hst
  exact absurd hst (by decide)

variable [DecidableEq ι] [DecidableEq κ] [DecidableEq ρ]

omit [DecidableEq ι] [DecidableEq ρ] in
theorem Inv.setFill (h : Inv op inst s) (k : κ) (f : Option Fill)
    (hf : ∀ n, s.gone k n = true → ∀ g, f = some g → Lacks g.list n) :
    Inv op inst (s.setFill k f) := by
  refine ⟨h.base, fun k' n hn => ⟨(h.clean k' n hn).1, (h.clean k' n hn).2.nodes, ?_⟩, h.call⟩
  intro g hg
  by_cases hk : k' = k
  · subst hk
    simp only [State.setFill, Function.update_self] at hg
    exact hf n hn g hg
  · simp only [State.setFill, Function.update_of_ne hk] at hg
    exact (h.clean k' n hn).2.fill g hg

omit [DecidableEq ι] [DecidableEq ρ] in
theorem Inv.setNodes (h : Inv op inst s) (k : κ) (l : List Node)
    (hl : ∀ n, s.gone k n = true → Lacks l n) : Inv op inst (s.setNodes k (some l)) := by
  refine ⟨h.base, fun k' n hn => ⟨(h.clean k' n hn).1, ?_, (h.clean k' n hn).2.fill⟩, h.call⟩
  intro l' hl'
  by_cases hk : k' = k
  · subst hk
    simp only [State.setNodes, Function.update_self] at hl'
    cases hl'
    exact hl n hn
  · simp only [State.setNodes, Function.update_of_ne hk] at hl'
    exact (h.clean k' n hn).2.nodes l' hl'

omit [DecidableEq ι] [DecidableEq ρ] in
theorem Inv.setStamp (h : Inv op inst s) (k : κ) (t : ℤ) : Inv op inst (s.setStamp k t) :=
  ⟨h.base, fun k' n hn => ⟨(h.clean k' n hn).1, (h.clean k' n hn).2.nodes, (h.clean k' n hn).2.fill⟩,
    h.call⟩

omit [DecidableEq ι] [DecidableEq κ] in
theorem Inv.begin (h : Inv op inst s) {c : ρ} (hpc : s.pc c = .idle) :
    Inv op inst (s.begin (inst c) c) := by
  refine ⟨h.base, fun k n hn => ?_, fun d n hd => ?_⟩
  · obtain ⟨hout, hc⟩ := h.clean k n hn
    exact ⟨hout, hc.nodes, hc.fill⟩
  · by_cases hdc : d = c
    · subst hdc
      refine ⟨by simpa [State.begin] using hd, ?_⟩
      show Lacks (s.pc d).list n
      rw [hpc]
      exact lacks_nil n
    · simp only [State.begin, Function.update_of_ne hdc] at hd
      exact h.call d n hd

omit [DecidableEq ι] [DecidableEq κ] in
theorem Inv.goto (h : Inv op inst s) (c : ρ) (p : Pc)
    (hp : ∀ n, s.barred c n = true → Lacks p.list n) : Inv op inst (s.goto c p) := by
  refine ⟨h.base, fun k n hn => ?_, fun d n hd => ⟨(h.call d n hd).1, ?_⟩⟩
  · obtain ⟨hout, hc⟩ := h.clean k n hn
    exact ⟨hout, hc.nodes, hc.fill⟩
  show Lacks (Function.update s.pc c p d).list n
  by_cases hdc : d = c
  · subst hdc
    rw [Function.update_self]
    exact hp n hd
  · rw [Function.update_of_ne hdc]
    exact (h.call d n hd).2

/-! ### One step -/

variable {a : NodeRuns.Act ι} {clock : Clock}

omit [DecidableEq ι] [DecidableEq ρ] in
/- Invalidate takes a list away and an answer adds a node; nothing else changes. -/
theorem effect_clean (h : Inv op inst s) (hg : Settled op s (.node a)) (k : κ) (n : String)
    (hn : (effect op s a).gone k n = true) : Clean (effect op s a) k n := by
  cases a with
  | run i r =>
    simp only [effect] at hn ⊢
    split at hn
    · rename_i rest hpc
      have hc := (h.clean k n hn).2
      refine ⟨fun l hl => ?_, hc.fill⟩
      by_cases hk : k = (op i).inst
      · simp [State.setNodes, hk] at hl
      · simp only [State.setNodes, Function.update_of_ne hk] at hl
        exact hc.nodes l hl
    · have hc := (h.clean k n hn).2
      exact ⟨hc.nodes, hc.fill⟩
    · rename_i rest hpc
      split at hn
      · rename_i hout
        rw [if_pos hout]
        simp only [Bool.or_eq_true, decide_eq_true_eq] at hn
        have hc : Clean s k n := by
          rcases hn with hn | ⟨rfl, rfl⟩
          · exact (h.clean k n hn).2
          · exact hg.2 (by rw [hpc]; rfl) hout.1 hout.2
        exact ⟨hc.nodes, hc.fill⟩
      · rename_i hout
        rw [if_neg hout]
        exact (h.clean k n hn).2
    · exact (h.clean k n hn).2
  | start i | refuse i | register node | tick d => exact (h.clean k n hn).2

omit [DecidableEq ι] [DecidableEq ρ] in
theorem effect_gone {k : κ} {n : String} (hn : s.gone k n = true) :
    (effect op s a).gone k n = true := by
  cases a with
  | run i r =>
    simp only [effect]
    split
    · exact hn
    · exact hn
    · split
      · simp [hn]
      · exact hn
    · exact hn
  | start i | refuse i | register node | tick d => exact hn

omit [DecidableEq ι] [DecidableEq ρ] in
theorem effect_calls (op : ι → Op κ) (s : State ι κ ρ) (a : NodeRuns.Act ι) :
    (effect op s a).barred = s.barred ∧ (effect op s a).pc = s.pc := by
  cases a with
  | run i r =>
    simp only [effect]
    split
    · exact ⟨rfl, rfl⟩
    · exact ⟨rfl, rfl⟩
    · split <;> exact ⟨rfl, rfl⟩
    · exact ⟨rfl, rfl⟩
  | start i | refuse i | register node | tick d => exact ⟨rfl, rfl⟩

omit [DecidableEq ρ] in
theorem node_inv (h : Inv op inst s) (hg : Settled op s (.node a)) {b : NodeRuns.State ι κ}
    (hb : NodeRuns.step op s.base a = some b) : Inv op inst ((effect op s a).rebase b) := by
  obtain ⟨hbarred, hpc⟩ := effect_calls op s a
  refine ⟨NodeRuns.step_inv h.base hg.1 hb, ?_, ?_⟩
  · intro k n hn
    obtain ⟨hgone, hout⟩ := (Bool.and_eq_true _ _).mp hn
    have hc := effect_clean h hg k n hgone
    exact ⟨hout, hc.nodes, hc.fill⟩
  · intro c n hc
    obtain ⟨hbar, hout⟩ := (Bool.and_eq_true _ _).mp hc
    rw [hbarred] at hbar
    obtain ⟨hgone, hlacks⟩ := h.call c n hbar
    refine ⟨(Bool.and_eq_true _ _).mpr ⟨effect_gone hgone, hout⟩, ?_⟩
    show Lacks ((effect op s a).pc c).list n
    rw [hpc]
    exact hlacks

omit [DecidableEq ι] in
theorem callStep_inv {t : State ι κ ρ} (h : Inv op inst s) {c : ρ}
    (hs : callStep clock inst s c = some t) : Inv op inst t := by
  unfold callStep at hs
  split at hs
  · rename_i hpc
    cases hs
    have hbegin : Inv op inst (s.begin (inst c) c) := h.begin hpc
    apply hbegin.goto
    intro n hn
    split
    · rename_i l hl
      exact (h.clean (inst c) n (hbegin.call c n hn).1).2.nodes l hl
    · exact lacks_nil n
  · rename_i l hpc
    cases hs
    apply h.goto
    intro n hn
    split
    · have hl := (h.call c n hn).2
      rwa [hpc] at hl
    · exact lacks_nil n
  · split at hs
    · cases hs
      exact h.goto c _ (fun n _ => lacks_nil n)
    · cases hs
      have hfill : Inv op inst (s.setFill (inst c) (some .check)) := by
        apply h.setFill
        rintro n _ g ⟨⟩
        exact lacks_nil n
      exact hfill.goto c _ (fun n _ => lacks_nil n)
  · cases hs

omit [DecidableEq ι] [DecidableEq ρ] in
theorem deliver_inv (h : Inv op inst s) (k : κ) (p : Pc)
    (hp : ∀ n, s.gone k n = true → Lacks p.list n) : Inv op inst (deliver inst s k p) := by
  have hfill : Inv op inst (s.setFill k none) := h.setFill k none (fun _ _ _ hg => nomatch hg)
  refine ⟨hfill.base, fun k' n hn => ?_, fun c n hc => ?_⟩
  · obtain ⟨hout, hc⟩ := hfill.clean k' n hn
    exact ⟨hout, hc.nodes, hc.fill⟩
  · obtain ⟨hgone, hl⟩ := h.call c n hc
    refine ⟨hgone, ?_⟩
    simp only [deliver]
    split
    · split
      · rename_i hk
        exact hp n (hk ▸ hgone)
      · exact lacks_nil n
    · exact hl

omit [DecidableEq ι] [DecidableEq ρ] in
theorem fillStep_inv {t : State ι κ ρ} (h : Inv op inst s) {k : κ} {r : Outcome}
    (hs : fillStep clock inst s k r = some t) : Inv op inst t := by
  have hlist : ∀ f, s.fill k = some f → ∀ n, s.gone k n = true → Lacks f.list n :=
    fun f hf n hn => (h.clean k n hn).2.fill f hf
  unfold fillStep at hs
  split at hs
  · cases hs
  · cases hs
    apply h.setFill
    rintro n hn g ⟨⟩
    split
    · rename_i l hl
      exact (h.clean k n hn).2.nodes l hl
    · exact lacks_nil n
  · rename_i l hf
    cases hs
    apply h.setFill
    rintro n hn g ⟨⟩
    split
    · exact hlist _ hf n hn
    · exact lacks_nil n
  · split at hs
    · cases hs
      apply h.setFill
      rintro n hn g ⟨⟩
      exact h.active_lacks (h.clean k n hn).1
    · cases hs
      exact deliver_inv h k .failed (fun n _ => lacks_nil n)
  · rename_i l hf
    cases hs
    apply (h.setNodes k l (hlist _ hf)).setFill
    rintro n hn g ⟨⟩
    exact hlist _ hf n hn
  · rename_i l hf
    cases hs
    apply (h.setStamp k _).setFill
    rintro n hn g ⟨⟩
    exact hlist _ hf n hn
  · rename_i l hf
    cases hs
    exact deliver_inv h k (.done l) (hlist _ hf)

theorem step_inv {t : State ι κ ρ} (h : Inv op inst s) {a : Act ι κ ρ} (hg : Settled op s a)
    (hs : step clock op inst s a = some t) : Inv op inst t := by
  cases a with
  | node a =>
    obtain ⟨b, hb, rfl⟩ := Option.map_eq_some_iff.mp hs
    exact node_inv h hg hb
  | call c => exact callStep_inv h hs
  | fill k r => exact fillStep_inv h hs

omit [DecidableEq ι] [DecidableEq κ] [DecidableEq ρ] in
theorem inv_start (rows : List Node) : Inv op inst (start rows : State ι κ ρ) :=
  ⟨fun _ hn => absurd hn (by simp [start, NodeRuns.start]), fun _ _ hn => absurd hn (by simp [start]),
    fun _ _ hc => absurd hc (by simp [start])⟩

omit [DecidableEq ι] [DecidableEq κ] in
theorem Inv.outOfSight (h : Inv op inst s) (sch : Scheduler) (req : ρ → DispatchRequest) :
    OutOfSight sch req s := by
  intro t ht c n r hbar hr
  have hsound := (ResolveRuns.unshared_inv ht).sound c
  rw [hr] at hsound
  have hres : r = ResolveRuns.resolve sch (calls s req) c := hsound
  rw [hres]
  rcases ResolveRuns.resolve_ids sch (calls s req) c with hid | hid
  · exact Or.inl hid
  · right
    intro cand hcand he
    obtain ⟨x, hx, hxid⟩ := hid cand hcand
    have hl := (h.call c n hbar).2
    have hmem : x ∈ (s.pc c).list := by
      have hx' : x ∈ (s.pc c).result := hx
      cases hpc : s.pc c with
      | done l => rwa [hpc] at hx'
      | _ => rw [hpc] at hx'; cases hx'
    exact hl x hmem (hxid.trans he)

/-- In these runs a node that a handler reports disabled or revoked is not returned by
any Resolve of the instance that begins later, until it is enabled or registered. -/
theorem settled_nodes_out_of_sight (clock : Clock) {rows : List Node} {s : State ι κ ρ}
    (h : Reach (step clock op inst) (Settled op) (start rows) s) (sch : Scheduler)
    (req : ρ → DispatchRequest) : OutOfSight sch req s := by
  have hinv : Inv op inst s :=
    h.invariant (Inv op inst) (inv_start rows) (fun _ _ _ hi hg hs => step_inv hi hg hs)
  exact hinv.outOfSight sch req

end Runs

/-! ### The guard as a test -/

instance (l : List Node) (n : String) : Decidable (Lacks l n) :=
  inferInstanceAs (Decidable (∀ x ∈ l, x.nodeID ≠ n))

instance {ι κ ρ : Type} (s : State ι κ ρ) (k : κ) (n : String) : Decidable (Clean s k n) :=
  decidable_of_iff ((∀ l ∈ s.nodes k, Lacks l n) ∧ ∀ f ∈ s.fill k, Lacks f.list n)
    ⟨fun h => ⟨h.1, h.2⟩, fun h => ⟨h.nodes, h.fill⟩⟩

instance {ι κ ρ : Type} [Fintype ι] [Fintype κ] (op : ι → Op κ) (s : State ι κ ρ) :
    ∀ a, Decidable (Settled op s a)
  | .node (.run _ _) => inferInstanceAs (Decidable (_ ∧ (_ → _ → _ → Clean _ _ _)))
  | .node (.start _) | .node (.refuse _) | .node (.register _) | .node (.tick _) =>
    inferInstanceAs (Decidable (_ ∧ True))
  | .call _ | .fill _ _ => isTrue trivial

/-! ### A Resolve before the handler and one after it -/

def wallClock : Clock := ⟨10 ^ 18, 30 * 10 ^ 9⟩

def handler (kind : Kind) (_ : Fin 1) : Op Unit := ⟨kind, (), "a"⟩

def anyRequest (_ : Fin 2) : DispatchRequest := ⟨"", "", "k"⟩

def oneNode : State (Fin 1) Unit (Fin 2) := start [ResolveRuns.publicNode "a"]

/- The first call fills the cache. -/
def firstCall : List (Act (Fin 1) Unit (Fin 2)) :=
  [.call 0, .call 0, .fill () .ok, .fill () .ok, .fill () .ok, .fill () .ok, .fill () .ok]

def handlerRuns (steps : ℕ) : List (Act (Fin 1) Unit (Fin 2)) :=
  .node (.start 0) :: List.replicate steps (.node (.run 0 .ok))

/- Invalidate of the signed handler empties the cache again; the second call reads the
   table, and is answered with the fallback. -/
theorem signed_disable_out_of_sight :
    ∃ s, Reach (step wallClock (handler .adminDisable) (fun _ => ())) (Settled (handler .adminDisable))
        oneNode s ∧ s.barred 1 "a" = true ∧ s.pc 1 = .done [] ∧
      OutOfSight ResolveRuns.plainScheduler anyRequest s := by
  let acts := firstCall ++ handlerRuns 8 ++ [.call 1, .call 1, .fill () .ok, .fill () .ok,
    .fill () .ok, .fill () .ok, .fill () .ok]
  have hg : Guarded (step wallClock (handler .adminDisable) (fun _ => ()))
      (Settled (handler .adminDisable)) acts oneNode := by
    decide +kernel
  have hrun : (exec (step wallClock (handler .adminDisable) (fun _ => ())) acts oneNode).map
      (fun s => (s.barred 1 "a", s.pc 1)) = some (true, .done []) := by
    decide +kernel
  obtain ⟨s, hr, hview⟩ := reach_of_guarded_view hg _ hrun
  obtain ⟨hbar, hpc⟩ := Prod.mk.inj hview
  exact ⟨s, hr, hbar, hpc, settled_nodes_out_of_sight wallClock hr _ _⟩

theorem in_sight {s : State (Fin 1) Unit (Fin 2)} (hbar : s.barred 1 "a" = true)
    (hpc : s.pc 1 = .done [ResolveRuns.publicNode "a"]) :
    ¬ OutOfSight ResolveRuns.plainScheduler anyRequest s := by
  intro hout
  have hcall : calls s anyRequest 1 = ⟨[ResolveRuns.publicNode "a"], anyRequest 1⟩ := by
    simp only [calls, hpc, Pc.result]
  have hres : ResolveRuns.resolve ResolveRuns.plainScheduler (calls s anyRequest) 1 =
      [⟨"a", "http://a:80", 50, "", "", "direct"⟩] := by
    show ResolveRuns.resolve _ (fun _ : Fin 2 => calls s anyRequest 1) 1 = _
    rw [hcall]
    decide +kernel
  obtain ⟨t, ht, hr⟩ :=
    (ResolveRuns.alone_returns ResolveRuns.plainScheduler (calls s anyRequest) 1).1
  rw [hres] at hr
  rcases hout t (ResolveRuns.alone_unshared ht).1 1 "a" _ hbar hr with hfall | hids
  · exact absurd hfall (by decide)
  · exact hids _ List.mem_cons_self rfl

/- The handler with the token leaves the list in the cache. The signed handler clears it,
   but a fill that has read the table before stores its list afterwards. -/
theorem answered_nodes_stay_in_sight :
    (∃ s, Reach (step wallClock (handler .disable) (fun _ => ())) Free oneNode s ∧
      s.base.pc 0 = .run [] ∧ s.base.tables.status "a" = some .disabled ∧
      ¬ OutOfSight ResolveRuns.plainScheduler anyRequest s) ∧
    ∃ s, Reach (step wallClock (handler .adminDisable) (fun _ => ())) Free oneNode s ∧
      s.base.pc 0 = .run [] ∧ s.base.tables.status "a" = some .disabled ∧
      ¬ OutOfSight ResolveRuns.plainScheduler anyRequest s := by
  have hrun : ∀ kind (acts : List (Act (Fin 1) Unit (Fin 2))),
      (exec (step wallClock (handler kind) (fun _ => ())) acts oneNode).map (fun s =>
        (s.base.pc 0, s.base.tables.status "a", s.barred 1 "a", s.pc 1)) =
        some (.run [], some .disabled, true, .done [ResolveRuns.publicNode "a"]) →
      ∃ s, Reach (step wallClock (handler kind) (fun _ => ())) Free oneNode s ∧
        s.base.pc 0 = .run [] ∧ s.base.tables.status "a" = some .disabled ∧
        ¬ OutOfSight ResolveRuns.plainScheduler anyRequest s := by
    intro kind acts hview
    obtain ⟨s, hr, hv⟩ := reach_of_view acts _ hview
    simp only [Prod.mk.injEq] at hv
    obtain ⟨hdone, hst, hbar, hpc⟩ := hv
    exact ⟨s, hr, hdone, hst, in_sight hbar hpc⟩
  constructor
  · exact hrun .disable (firstCall ++ handlerRuns 3 ++ [.call 1, .call 1]) (by decide +kernel)
  · exact hrun .adminDisable ([.call 0, .call 0, .fill () .ok, .fill () .ok] ++ handlerRuns 8 ++
      [.fill () .ok, .fill () .ok, .fill () .ok, .call 1, .call 1]) (by decide +kernel)

end EdgeDispatch.ControlPlane.NodeVisibility
