import Mathlib.Data.Fintype.Basic
import EdgeDispatch.ControlPlane.NodeLifecycle

/-! # Concurrent operations on nodes

Heartbeats, health checks and the administrators' handlers run on any instance at any
time. Each is a sequence of single statements and accesses to the instance's node cache,
and the model interleaves these. -/

namespace EdgeDispatch.ControlPlane.NodeRuns
open Lib.Transition Store.Nodes
open ControlPlane.Scoring (Node NodeStatus)
open ControlPlane.NodeLifecycle (heartbeatWrite healthWrite exampleNode)

/-- `disable` to `patchEnable` are the handlers of AdminAPI (admin_api.go:752-880),
`revoke` also the DELETE route (api.go:440-454), `adminDisable` to `adminRevoke` the
signed internal handlers (admin_internal.go:238-292). `probe` is the end of `probeAll`. -/
inductive Kind where
  | heartbeat
  | checkNodeHealth
  | getNode
  | disable
  | enable
  | patchDisable
  | patchEnable
  | revoke
  | adminDisable
  | adminEnable
  | adminRevoke
  | probe
  deriving DecidableEq

structure Op (κ : Type) where
  kind : Kind
  inst : κ
  node : String

/-- `write` is the UpdateNodeStatus of a heartbeat or a health check. NodeDisable and
NodeEnable do not look at the number of rows they change, UpdateNodeStatus does
(`checked`). The last three concern the scheduler's node cache and the answer. -/
inductive Instr where
  | touch
  | load
  | write (st : NodeStatus)
  | disable (checked : Bool)
  | enable (checked : Bool)
  | patch
  | deleteRow
  | dropEntry
  | clearNodes
  | clearStamp
  | respond
  deriving DecidableEq

def program : Kind → List Instr
  | .heartbeat => [.touch, .dropEntry, .load]
  | .checkNodeHealth | .getNode | .adminDisable | .adminEnable => [.load]
  | .disable => [.disable false, .dropEntry, .respond]
  | .enable => [.enable false, .dropEntry, .respond]
  | .patchDisable => [.disable false, .dropEntry, .patch, .dropEntry, .respond]
  | .patchEnable => [.enable false, .dropEntry, .patch, .dropEntry, .respond]
  | .revoke => [.deleteRow, .dropEntry, .respond]
  | .adminRevoke => [.deleteRow, .dropEntry, .clearNodes, .clearStamp, .respond]
  | .probe => [.clearNodes, .clearStamp]

/-- What follows GetNode, by the status it returned. -/
def afterGet (kind : Kind) (st : NodeStatus) : List Instr :=
  match kind with
  | .heartbeat => (heartbeatWrite st).elim [] fun st' => [.write st', .dropEntry]
  | .checkNodeHealth => (healthWrite st).elim [] fun w => [.write w.1, .dropEntry]
  | .adminDisable => [.disable true, .dropEntry, .clearNodes, .clearStamp, .respond]
  | .adminEnable => [.enable true, .dropEntry, .clearNodes, .clearStamp, .respond]
  | _ => []

/-- `run []` is after the last step; `expired`, `select` and `fill` are inside GetNode. -/
inductive Pc where
  | idle
  | run (rest : List Instr)
  | expired
  | select
  | fill (node : Node)
  | failed
  deriving DecidableEq

/- `out` only records: the node was disabled or revoked, and not enabled since. -/
structure State (ι κ : Type) where
  tables : Tables κ
  pc : ι → Pc
  out : String → Bool

/- `refuse` is an operation that returns before its first statement: a request that is
   not valid, a revoked node's heartbeat, a health check of a node with a heartbeat. -/
inductive Act (ι : Type) where
  | start (i : ι)
  | refuse (i : ι)
  | run (i : ι) (r : Outcome)
  | register (node : Node)
  | tick (d : ℕ)

def start {ι κ : Type} (rows : List Node) : State ι κ :=
  ⟨⟨0, rows, fun _ _ => none⟩, fun _ => .idle, fun _ => false⟩

section Step
variable {ι κ : Type} [DecidableEq ι] [DecidableEq κ] (op : ι → Op κ)

def State.put (s : State ι κ) (i : ι) (t : Tables κ) (p : Pc) : State ι κ :=
  { s with tables := t, pc := Function.update s.pc i p }

def State.mark (s : State ι κ) (n : String) (b : Bool) : State ι κ :=
  { s with out := Function.update s.out n b }

/- The entry is looked at once; a second goroutine may have replaced an expired one. -/
def loaded (o : Op κ) (t : Tables κ) : Pc :=
  match t.cache o.inst o.node with
  | some e => if t.now < e.expiresAt then .run (afterGet o.kind e.node.status) else .expired
  | none => .select

/- A statement that changes a row, and goes on if it `hits` one. -/
def statement (s : State ι κ) (i : ι) (rest : List Instr) (t : Tables κ) (hits : Bool) :
    Outcome → State ι κ
  | .ok => s.put i t (if hits then .run rest else .failed)
  | .lost => s.put i t .failed
  | .refused => s.put i s.tables .failed

def hits (o : Op κ) (t : Tables κ) (checked : Bool) : Bool := !checked || (t.row o.node).isSome

def instr (s : State ι κ) (i : ι) (rest : List Instr) (r : Outcome) : Instr → State ι κ
  | .touch => s.put i s.tables (if r = .ok then .run rest else .failed)
  | .load => s.put i s.tables (loaded (op i) s.tables)
  | .write st =>
    statement s i rest (s.tables.setStatus (op i).node st) (hits (op i) s.tables true) r
  | .disable checked =>
    let t := statement s i rest (s.tables.setStatus (op i).node .disabled)
      (hits (op i) s.tables checked) r
    if r = .ok ∧ hits (op i) s.tables checked = true then t.mark (op i).node true else t
  | .enable checked =>
    let t := statement s i rest (s.tables.setStatus (op i).node .active)
      (hits (op i) s.tables checked) r
    if r ≠ .refused ∧ hits (op i) s.tables checked = true then t.mark (op i).node false else t
  | .patch => s.put i s.tables (.run (if r = .ok then rest else rest.drop 1))
  | .deleteRow =>
    let t := statement s i rest (s.tables.deleteRow (op i).node) (hits (op i) s.tables true) r
    if r = .ok ∧ hits (op i) s.tables true = true then t.mark (op i).node true else t
  | .dropEntry => s.put i (s.tables.invalidateNodeCache (op i).inst (op i).node) (.run rest)
  | .clearNodes | .clearStamp | .respond => s.put i s.tables (.run rest)

def runStep (s : State ι κ) (i : ι) (r : Outcome) : Option (State ι κ) :=
  match s.pc i with
  | .run (ins :: rest) => some (instr op s i rest r ins)
  | .expired =>
    some (s.put i (s.tables.invalidateNodeCache (op i).inst (op i).node) .select)
  | .select =>
    some (s.put i s.tables (match r, s.tables.row (op i).node with
      | .ok, some node => .fill node
      | _, _ => .failed))
  | .fill node =>
    some (s.put i (s.tables.remember (op i).inst (op i).node node)
      (.run (afterGet (op i).kind node.status)))
  | _ => none

def step (s : State ι κ) : Act ι → Option (State ι κ)
  | .start i =>
    if s.pc i = .idle then some (s.put i s.tables (.run (program (op i).kind))) else none
  | .refuse i => if s.pc i = .idle then some (s.put i s.tables .failed) else none
  | .run i r => runStep op s i r
  | .register node =>
    some { s with tables := s.tables.createNode node, out := Function.update s.out node.nodeID false }
  | .tick d => some { s with tables := { s.tables with now := s.tables.now + d } }

end Step

/-- A node that was disabled, and not enabled since, has no row with another status. -/
def Sticky {ι κ : Type} (s : State ι κ) : Prop :=
  ∀ n, s.out n = true → ∀ r ∈ s.tables.rows, r.nodeID = n → r.status = .disabled

/-! ### Runs in which nobody acts on an old status -/

/- The instructions that an operation is certain to come to. -/
def todo (kind : Kind) : Pc → List Instr
  | .run rest => rest
  | .fill node => afterGet kind node.status
  | _ => []

/-- The operation has no status in hand on which it is going to write another. -/
def Quiet (kind : Kind) (p : Pc) : Prop := ∀ st, Instr.write st ∉ todo kind p

def Pc.disables : Pc → Bool
  | .run (.disable _ :: _) => true
  | _ => false

def Pc.loads : Pc → Bool
  | .run (.load :: _) => true
  | _ => false

section Runs
variable {ι κ : Type} (op : ι → Op κ)

/-- A node is disabled only while no heartbeat or health check of it stands between its
read and its write, and none that comes later gets an older copy from the node cache. -/
def Undisturbed (s : State ι κ) : Act ι → Prop
  | .run i r =>
    ((s.pc i).disables = true → r = .ok →
      ∀ j, (op j).node = (op i).node → Quiet (op j).kind (s.pc j)) ∧
    ((s.pc i).loads = true → s.out (op i).node = true →
      Quiet (op i).kind (loaded (op i) s.tables))
  | _ => True

def Absent (t : Tables κ) (n : String) : Prop := ∀ r ∈ t.rows, r.nodeID ≠ n
def Down (t : Tables κ) (n : String) : Prop := ∀ r ∈ t.rows, r.nodeID = n → r.status = .disabled

/- Either there is no row left to write to, or nobody is about to. -/
def Held (s : State ι κ) (n : String) : Prop :=
  Absent s.tables n ∨
    (Down s.tables n ∧ ∀ j, (op j).node = n → Quiet (op j).kind (s.pc j))

def Inv (s : State ι κ) : Prop := ∀ n, s.out n = true → Held op s n

/-! ### Rows, and what is left of an operation -/

variable {t : Tables κ} {n : String} {ins : Instr} {rest : List Instr}

theorem absent_setStatus (h : Absent t n) (m : String) (st : NodeStatus) :
    Absent (t.setStatus m st) n := by
  intro r hr
  obtain ⟨r', hr', rfl⟩ := List.mem_map.mp hr
  have hne := h r' hr'
  split
  · exact hne
  · exact hne

theorem down_setStatus_ne {m : String} (h : Down t n) (hm : m ≠ n) (st : NodeStatus) :
    Down (t.setStatus m st) n := by
  intro r hr hn
  obtain ⟨r', hr', rfl⟩ := List.mem_map.mp hr
  by_cases hid : r'.nodeID = m
  · rw [if_pos hid] at hn
    exact absurd (hid.symm.trans hn) hm
  · rw [if_neg hid] at hn ⊢
    exact h r' hr' hn

theorem down_setStatus_self (t : Tables κ) (n : String) : Down (t.setStatus n .disabled) n := by
  intro r hr hn
  obtain ⟨r', hr', rfl⟩ := List.mem_map.mp hr
  by_cases hid : r'.nodeID = n
  · rw [if_pos hid]
  · rw [if_neg hid] at hn
    exact absurd hn hid

theorem down_disable (h : Down t n) (m : String) : Down (t.setStatus m .disabled) n := by
  by_cases hm : m = n
  · rw [hm]
    exact down_setStatus_self t n
  · exact down_setStatus_ne h hm .disabled

theorem absent_deleteRow (h : Absent t n) (m : String) : Absent (t.deleteRow m) n :=
  fun r hr => h r (List.mem_of_mem_filter hr)

theorem absent_deleteRow_self (t : Tables κ) (n : String) : Absent (t.deleteRow n) n := by
  intro r hr
  simpa using (List.mem_filter.mp hr).2

theorem down_deleteRow (h : Down t n) (m : String) : Down (t.deleteRow m) n :=
  fun r hr => h r (List.mem_of_mem_filter hr)

theorem Down.row_status (h : Down t n) {node : Node} (hrow : t.row n = some node) :
    node.status = .disabled := by
  obtain ⟨hmem, hid⟩ := Tables.row_nodeID hrow
  exact h node hmem hid

theorem absent_of_row (h : t.row n = none) : Absent t n := by
  intro r hr hid
  have := List.find?_eq_none.mp h r hr
  simp [hid] at this

theorem program_quiet (kind kind' : Kind) : Quiet kind (.run (program kind')) := by
  intro st
  cases kind' <;> simp [todo, program]

/- Nobody writes to a node that it reads as DISABLED. -/
theorem disabled_quiet (kind : Kind) {node : Node} (h : node.status = .disabled) :
    Quiet kind (.fill node) := by
  intro st
  cases kind <;> simp [todo, afterGet, h, heartbeatWrite, healthWrite]

theorem Quiet.tail {kind : Kind} (h : Quiet kind (.run (ins :: rest))) : Quiet kind (.run rest) :=
  fun st hmem => h st (List.mem_cons_of_mem _ hmem)

theorem quiet_nil (kind : Kind) {p : Pc} (h : todo kind p = []) : Quiet kind p := by
  intro st hmem
  rw [h] at hmem
  cases hmem

variable [DecidableEq ι] {op}
variable {s : State ι κ} {i : ι}

theorem Held.put (h : Held op s n) (i : ι) (t : Tables κ) (p : Pc)
    (habsent : Absent s.tables n → Absent t n)
    (hdown : Down s.tables n → ((op i).node = n → Quiet (op i).kind (s.pc i)) →
      Down t n ∧ ((op i).node = n → Quiet (op i).kind p)) : Held op (s.put i t p) n := by
  rcases h with ha | ⟨hd, hq⟩
  · exact Or.inl (habsent ha)
  · obtain ⟨hd', hp⟩ := hdown hd (hq i)
    refine Or.inr ⟨hd', ?_⟩
    intro j hj
    show Quiet (op j).kind (Function.update s.pc i p j)
    by_cases hji : j = i
    · subst hji
      rw [Function.update_self]
      exact hp hj
    · rw [Function.update_of_ne hji]
      exact hq j hj

/- An operation that leaves the rows alone. -/
theorem Held.goto (h : Held op s n) (i : ι) (ht : t.rows = s.tables.rows) (p : Pc)
    (hp : Down s.tables n → (op i).node = n → Quiet (op i).kind (s.pc i) → Quiet (op i).kind p) :
    Held op (s.put i t p) n := by
  apply h.put
  · intro ha r hr
    exact ha r (ht ▸ hr)
  · intro hd hq
    exact ⟨fun r hr => hd r (ht ▸ hr), fun hi => hp hd hi (hq hi)⟩

theorem Held.statement (h : Held op s n) (hpc : s.pc i = .run (ins :: rest)) (t : Tables κ)
    (hit : Bool) (r : Outcome) (habsent : Absent s.tables n → Absent t n)
    (hdown : Down s.tables n → ((op i).node = n → Quiet (op i).kind (.run (ins :: rest))) →
      Down t n) : Held op (statement s i rest t hit r) n := by
  have hgo : ∀ p, (Quiet (op i).kind (.run rest) → Quiet (op i).kind p) →
      Held op (s.put i t p) n := by
    intro p hp
    apply h.put i t p habsent
    intro hd hq
    rw [hpc] at hq
    exact ⟨hdown hd hq, fun hi => hp (hq hi).tail⟩
  cases r with
  | ok =>
    apply hgo
    intro hrest
    split
    · exact hrest
    · exact quiet_nil _ rfl
  | lost => exact hgo .failed (fun _ => quiet_nil _ rfl)
  | refused => exact h.goto i rfl .failed (fun _ _ _ => quiet_nil _ rfl)

/-! ### One step -/

theorem statement_out (s : State ι κ) (i : ι) (rest : List Instr) (t : Tables κ) (hit : Bool)
    (r : Outcome) : (statement s i rest t hit r).out = s.out := by
  cases r <;> rfl

omit [DecidableEq ι] in
/- A statement that, if `c`, also takes the node `m` out of service or brings it back. -/
theorem inv_mark {t : State ι κ} (hout : t.out = s.out) (m : String) (b : Bool) {c : Prop}
    [Decidable c] (hself : c → b = true → Held op t m)
    (hold : ∀ n, s.out n = true → (n = m → ¬ c) → Held op t n) :
    Inv op (if c then t.mark m b else t) := by
  intro n hn
  split at hn
  · rename_i hc
    rw [if_pos hc]
    by_cases hnm : n = m
    · subst hnm
      exact hself hc (by simpa [State.mark] using hn)
    · have hn' : t.out n = true := by
        simpa [State.mark, Function.update_of_ne hnm] using hn
      rw [hout] at hn'
      exact hold n hn' (fun he => absurd he hnm)
  · rename_i hc
    rw [if_neg hc]
    rw [hout] at hn
    exact hold n hn (fun _ => hc)

variable [DecidableEq κ]

theorem write_inv (h : Inv op s) {st : NodeStatus} (hpc : s.pc i = .run (.write st :: rest))
    (r : Outcome) : Inv op (instr op s i rest r (.write st)) := by
  intro n hn
  have hout : s.out n = true := by
    rw [← statement_out s i rest _ _ r]
    exact hn
  apply (h n hout).statement hpc _ _ r (fun ha => absent_setStatus ha _ _)
  intro hd hq
  -- an operation on a node that is held has no write left to do
  have hne : (op i).node ≠ n := fun hi => hq hi st List.mem_cons_self
  exact down_setStatus_ne hd hne st

theorem disable_inv (h : Inv op s) {checked : Bool} (hpc : s.pc i = .run (.disable checked :: rest))
    (r : Outcome) (hg : Undisturbed op s (.run i r)) :
    Inv op (instr op s i rest r (.disable checked)) := by
  apply inv_mark (statement_out ..)
  · rintro ⟨rfl, hhit⟩ -
    have hq := hg.1 (by rw [hpc]; rfl) rfl
    refine Or.inr ⟨down_setStatus_self _ _, ?_⟩
    intro j hj
    show Quiet (op j).kind (Function.update s.pc i _ j)
    by_cases hji : j = i
    · subst hji
      have hrest := hq j hj
      rw [hpc] at hrest
      rw [Function.update_self, if_pos hhit]
      exact hrest.tail
    · rw [Function.update_of_ne hji]
      exact hq j hj
  · intro n hout _
    apply (h n hout).statement hpc _ _ r (fun ha => absent_setStatus ha _ _)
    exact fun hd _ => down_disable hd _

theorem enable_inv (h : Inv op s) {checked : Bool} (hpc : s.pc i = .run (.enable checked :: rest))
    (r : Outcome) : Inv op (instr op s i rest r (.enable checked)) := by
  apply inv_mark (statement_out ..)
  · intro _ hb
    cases hb
  · intro n hout hc
    by_cases hn : n = (op i).node
    · subst hn
      cases r with
      | refused => exact (h _ hout).goto i rfl .failed (fun _ _ _ => quiet_nil _ rfl)
      | ok | lost =>
        -- the statement found no row
        have hmiss : s.tables.row (op i).node = none := by
          have hhit := not_and.mp (hc rfl) (by decide)
          simp only [hits, Bool.or_eq_true, not_or] at hhit
          simpa using hhit.2
        exact Or.inl (absent_setStatus (absent_of_row hmiss) _ _)
    · apply (h n hout).statement hpc _ _ r (fun ha => absent_setStatus ha _ _)
      exact fun hd _ => down_setStatus_ne hd (Ne.symm hn) .active

theorem deleteRow_inv (h : Inv op s) (hpc : s.pc i = .run (.deleteRow :: rest)) (r : Outcome) :
    Inv op (instr op s i rest r .deleteRow) := by
  apply inv_mark (statement_out ..)
  · rintro ⟨rfl, -⟩ -
    exact Or.inl (absent_deleteRow_self _ _)
  · intro n hout _
    apply (h n hout).statement hpc _ _ r (fun ha => absent_deleteRow ha _)
    exact fun hd _ => down_deleteRow hd _

theorem instr_inv (h : Inv op s) (hpc : s.pc i = .run (ins :: rest)) (r : Outcome)
    (hg : Undisturbed op s (.run i r)) : Inv op (instr op s i rest r ins) := by
  have htail : Quiet (op i).kind (s.pc i) → Quiet (op i).kind (.run rest) := by
    intro hq
    rw [hpc] at hq
    exact hq.tail
  cases ins with
  | write st => exact write_inv h hpc r
  | disable checked => exact disable_inv h hpc r hg
  | enable checked => exact enable_inv h hpc r
  | deleteRow => exact deleteRow_inv h hpc r
  | touch =>
    intro n hn
    apply (h n hn).goto i rfl
    intro _ _ hq
    split
    · exact htail hq
    · exact quiet_nil _ rfl
  | load =>
    intro n hn
    apply (h n hn).goto i rfl
    intro _ hi _
    exact hg.2 (by rw [hpc]; rfl) (hi ▸ hn)
  | patch =>
    intro n hn
    apply (h n hn).goto i rfl
    intro _ _ hq
    split
    · exact htail hq
    · exact fun st hmem => htail hq st (List.mem_of_mem_drop hmem)
  | dropEntry | clearNodes | clearStamp | respond =>
    intro n hn
    exact (h n hn).goto i rfl _ (fun _ _ hq => htail hq)

theorem runStep_inv {t : State ι κ} (h : Inv op s) {r : Outcome} (hg : Undisturbed op s (.run i r))
    (hs : runStep op s i r = some t) : Inv op t := by
  unfold runStep at hs
  split at hs
  · rename_i ins rest hpc
    cases hs
    exact instr_inv h hpc r hg
  · cases hs
    intro n hn
    exact (h n hn).goto i rfl _ (fun _ _ _ => quiet_nil _ rfl)
  · cases hs
    intro n hn
    apply (h n hn).goto i rfl
    intro hd hi _
    split
    · rename_i node hrow
      exact disabled_quiet _ (hd.row_status (hi ▸ hrow))
    · exact quiet_nil _ rfl
  · rename_i node hpc
    cases hs
    intro n hn
    apply (h n hn).goto i rfl
    intro _ _ hq
    rw [hpc] at hq
    exact hq
  · cases hs

theorem step_inv {t : State ι κ} (h : Inv op s) {a : Act ι} (hg : Undisturbed op s a)
    (hs : step op s a = some t) : Inv op t := by
  cases a with
  | start i =>
    simp only [step] at hs
    split at hs
    · cases hs
      intro n hn
      exact (h n hn).goto i rfl _ (fun _ _ _ => program_quiet _ _)
    · cases hs
  | refuse i =>
    simp only [step] at hs
    split at hs
    · cases hs
      intro n hn
      exact (h n hn).goto i rfl _ (fun _ _ _ => quiet_nil _ rfl)
    · cases hs
  | run i r => exact runStep_inv h hg hs
  | register node =>
    cases hs
    intro n hn
    by_cases hne : n = node.nodeID
    · simp [hne] at hn
    · have hout : s.out n = true := by simpa [Function.update_of_ne hne] using hn
      have hrow : ∀ r ∈ (s.tables.createNode node).rows, r.nodeID = n → r ∈ s.tables.rows := by
        intro r hr hid
        rcases List.mem_append.mp hr with hr | hr
        · exact hr
        · rw [List.mem_singleton.mp hr] at hid
          exact absurd hid.symm hne
      rcases h n hout with ha | ⟨hd, hq⟩
      · exact Or.inl fun r hr hid => ha r (hrow r hr hid) hid
      · exact Or.inr ⟨fun r hr hid => hd r (hrow r hr hid) hid, hq⟩
  | tick d =>
    cases hs
    exact h

omit [DecidableEq ι] [DecidableEq κ] in
theorem Inv.sticky (h : Inv op s) : Sticky s := by
  intro n hn r hr hid
  rcases h n hn with ha | ⟨hd, -⟩
  · exact absurd hid (ha r hr)
  · exact hd r hr hid

theorem undisturbed_inv {rows : List Node} (h : Reach (step op) (Undisturbed op) (start rows) s) :
    Inv op s :=
  h.invariant (Inv op) (fun _ hn => absurd hn (by simp [start]))
    (fun _ _ _ hi hg hs => step_inv hi hg hs)

/-- Any operations, on any nodes and instances, over any rows of the table. -/
theorem undisturbed_disable_sticks {rows : List Node} {s : State ι κ}
    (h : Reach (step op) (Undisturbed op) (start rows) s) : Sticky s :=
  (undisturbed_inv h).sticky

end Runs

/-! ### The guard as a test -/

def Instr.writes : Instr → Bool
  | .write _ => true
  | _ => false

theorem quiet_iff (kind : Kind) (p : Pc) :
    (∀ ins ∈ todo kind p, ins.writes = false) ↔ Quiet kind p := by
  constructor
  · intro h st hmem
    cases h _ hmem
  · intro h ins hmem
    cases ins with
    | write st => exact absurd hmem (h st)
    | _ => rfl

instance (kind : Kind) (p : Pc) : Decidable (Quiet kind p) := decidable_of_iff _ (quiet_iff kind p)

instance {ι κ : Type} [Fintype ι] (op : ι → Op κ) (s : State ι κ) :
    ∀ a, Decidable (Undisturbed op s a)
  | .run _ _ => inferInstanceAs (Decidable ((_ → _ → ∀ _, _ → Quiet _ _) ∧ (_ → _ → Quiet _ _)))
  | .start _ | .refuse _ | .register _ | .tick _ => isTrue trivial

/-! ### A heartbeat of a new node and the administrator who disables it -/

def racing : Fin 3 → Op Unit
  | 1 => ⟨.disable, (), "a"⟩
  | _ => ⟨.heartbeat, (), "a"⟩

/- The first heartbeat is complete before the node is disabled; the second comes after. -/
theorem disable_between_heartbeats_sticks :
    ∃ s, Reach (step racing) (Undisturbed racing) (start [exampleNode]) s ∧ s.out "a" = true ∧
      s.pc 2 = .run [] ∧ Sticky s := by
  let acts : List (Act (Fin 3)) := [.start 0, .run 0 .ok, .run 0 .ok, .run 0 .ok, .run 0 .ok,
    .run 0 .ok, .run 0 .ok, .run 0 .ok, .start 1, .run 1 .ok, .run 1 .ok, .run 1 .ok, .start 2,
    .run 2 .ok, .run 2 .ok, .run 2 .ok, .run 2 .ok, .run 2 .ok]
  have hg : Guarded (step racing) (Undisturbed racing) acts (start [exampleNode]) := by
    decide +kernel
  have hrun : (exec (step racing) acts (start [exampleNode])).map (fun s => (s.out "a", s.pc 2)) =
      some (true, .run []) := by decide +kernel
  obtain ⟨s, hr, hview⟩ := reach_of_guarded_view hg _ hrun
  obtain ⟨hout, hpc⟩ := Prod.mk.inj hview
  exact ⟨s, hr, hout, hpc, undisturbed_disable_sticks hr⟩

/- The heartbeat reads REGISTERED, NodeDisable runs to its end, the heartbeat writes. -/
theorem heartbeat_revives_disabled :
    ∃ s t, Reach (step racing) Free (start [exampleNode]) s ∧ Reach (step racing) Free s t ∧
      s.pc 1 = .run [] ∧ s.tables.status "a" = some .disabled ∧
      t.tables.status "a" = some .active ∧ ¬ Sticky t := by
  let before : List (Act (Fin 3)) := [.start 0, .run 0 .ok, .run 0 .ok, .run 0 .ok, .run 0 .ok,
    .run 0 .ok, .start 1, .run 1 .ok, .run 1 .ok, .run 1 .ok]
  have hrun : (exec (step racing) before (start [exampleNode])).map (fun s =>
      (s.pc 1, s.tables.status "a", (step racing s (.run 0 .ok)).map fun t =>
        (t.tables.rows, t.out "a"))) =
      some (.run [], some .disabled, some ([{ exampleNode with status := .active }], true)) := by
    decide +kernel
  obtain ⟨s, hr, hview⟩ := reach_of_view before _ hrun
  simp only [Prod.mk.injEq] at hview
  obtain ⟨hdone, hdisabled, hwrite⟩ := hview
  obtain ⟨t, ht, hafter⟩ := Option.map_eq_some_iff.mp hwrite
  obtain ⟨hrows, hout⟩ := Prod.mk.inj hafter
  refine ⟨s, t, hr, Reach.start.next _ trivial ht, hdone, hdisabled, ?_, ?_⟩
  · unfold Tables.status Tables.row
    rw [hrows]
    rfl
  · intro hsticky
    have := hsticky "a" hout { exampleNode with status := .active } (by rw [hrows]; simp) rfl
    cases this

end EdgeDispatch.ControlPlane.NodeRuns
