import EdgeDispatch.Lib.LoadStore
import EdgeDispatch.ControlPlane.Ingress

/-! # Concurrent changes of the block tables (internal/controlplane/policy.go:32-78)

`BlockIP`, `UnblockIP`, `BlockNode` and `UnblockNode` load the pointer to both tables, copy
the table they change and store a pointer to the new pair. A stored pair is never written
to, so a loaded pointer is the pair it points to. An entry of a table is `true` or missing. -/

namespace EdgeDispatch.ControlPlane.BlockTables
open Lib Lib.Transition Lib.ByteString
open Lib.GoStrings (lit)
open ControlPlane.Ingress (PolicyData)

def newPolicy : PolicyData := ⟨fun _ => false, fun _ => false⟩

def isBlocked (p : PolicyData) (ip : Bytes) : Bool := p.blockedIPs ip

def isNodeBlocked (p : PolicyData) (nodeID : String) : Bool := p.blockedNodes nodeID

inductive Call where
  | blockIP (ip : Bytes)
  | unblockIP (ip : Bytes)
  | blockNode (nodeID : String)
  | unblockNode (nodeID : String)
  deriving DecidableEq

/- What each call makes of the tables it has loaded. -/
def changed : Call → PolicyData → PolicyData
  | .blockIP ip, old => { old with blockedIPs := Function.update old.blockedIPs ip true }
  | .unblockIP ip, old => { old with blockedIPs := Function.update old.blockedIPs ip false }
  | .blockNode n, old => { old with blockedNodes := Function.update old.blockedNodes n true }
  | .unblockNode n, old => { old with blockedNodes := Function.update old.blockedNodes n false }

/- The address or the node that a call is about. -/
def Call.subject : Call → Bytes ⊕ String
  | .blockIP ip | .unblockIP ip => .inl ip
  | .blockNode n | .unblockNode n => .inr n

/-- The tables answer as the call asked. -/
def Reflects (c : Call) (p : PolicyData) : Prop :=
  match c with
  | .blockIP ip => isBlocked p ip = true
  | .unblockIP ip => isBlocked p ip = false
  | .blockNode n => isNodeBlocked p n = true
  | .unblockNode n => isNodeBlocked p n = false

instance (c : Call) (p : PolicyData) : Decidable (Reflects c p) := by
  cases c <;> exact inferInstanceAs (Decidable (_ = _))

theorem reflects_changed (c : Call) (p : PolicyData) : Reflects c (changed c p) := by
  cases c <;> exact Function.update_self ..

theorem reflects_changed_of_ne {c d : Call} (h : d.subject ≠ c.subject) (p : PolicyData) :
    Reflects d (changed c p) ↔ Reflects d p := by
  cases c <;> cases d <;>
    simp_all [Call.subject, Reflects, changed, isBlocked, isNodeBlocked, Function.update_of_ne]

variable {ι : Type} [DecidableEq ι]

/-- Calls about different addresses and nodes: after every interleaving of their loads and
stores the tables reflect all of them, just if there is one call at most or the tables
reflect all of them before. They also do after every interleaving in which each call stores
while the tables are still those that it loaded. -/
theorem tables_reflect_calls_iff [Fintype ι] (call : ι → Call)
    (hsubjects : Function.Injective fun i => (call i).subject) (p : PolicyData) :
    ((∀ s, Reach (LoadStore.step fun i => changed (call i)) Free (LoadStore.start p) s →
        LoadStore.Finished s → ∀ i, Reflects (call i) s.cell) ↔
      Subsingleton ι ∨ ∀ i, Reflects (call i) p) ∧
    ∀ s, Reach (LoadStore.step fun i => changed (call i)) LoadStore.Undisturbed
        (LoadStore.start p) s →
      LoadStore.Finished s → ∀ i, Reflects (call i) s.cell := by
  have hown : ∀ i b, Reflects (call i) (changed (call i) b) := fun i b =>
    reflects_changed (call i) b
  have hothers : ∀ i j b, j ≠ i →
      (Reflects (call j) (changed (call i) b) ↔ Reflects (call j) b) := fun i j b hji =>
    reflects_changed_of_ne (hsubjects.ne hji) b
  refine ⟨LoadStore.no_update_lost_iff hown hothers p, fun s hs hfin i => ?_⟩
  exact LoadStore.wants_of_undisturbed hown hothers hs i (hfin i)

/- An address and a node are blocked at the same time. -/
def blockBoth : Fin 2 → Call
  | 0 => .blockIP (lit "10.0.0.1")
  | 1 => .blockNode "edge-1"

theorem tables_reflect_block_both_fails :
    ¬ ∀ s, Reach (LoadStore.step fun i => changed (blockBoth i)) Free
        (LoadStore.start newPolicy) s →
      LoadStore.Finished s → ∀ i, Reflects (blockBoth i) s.cell := by
  intro h
  rcases (tables_reflect_calls_iff blockBoth (by decide) newPolicy).1.mp h with hone | hall
  · exact absurd (hone.elim 0 1) (by decide)
  · exact absurd (hall 0) (by decide)

/-- Both calls load the empty tables. The node is blocked, until the other call stores its
own pair, whose table of nodes is the one from before. -/
theorem blocked_node_lost :
    (exec (LoadStore.step fun i => changed (blockBoth i)) [.load 0, .load 1, .store 1, .store 0]
      (LoadStore.start newPolicy)).map
        (fun s => (isBlocked s.cell (lit "10.0.0.1"), isNodeBlocked s.cell "edge-1")) =
      some (true, false) := by
  decide

end EdgeDispatch.ControlPlane.BlockTables
