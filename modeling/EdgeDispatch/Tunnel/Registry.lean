import EdgeDispatch.Lib.ByteString
import EdgeDispatch.Lib.Transition
import Mathlib.Data.List.AList

/-! # The registry of tunnels (internal/tunnel/server.go:91-189, tunnel.go:54-117)

A connection's handler reads the registration, asks whether there is room, registers its
session and unregisters it when it returns. The map goes by node id. ActiveTunnels, Register,
Unregister and Close lock the manager one by one. -/

namespace EdgeDispatch.Tunnel.Registry
open Lib.ByteString Lib.Transition

/-- Where a handler is: `checked` is between ActiveTunnels and Register, `registered` means
that its deferred Unregister is still to come. -/
inductive Pc where
  | idle
  | reading
  | checked
  | registered
  | returned
  deriving DecidableEq

/-- The sessions are named by the handlers that made them. -/
structure State (ι : Type) where
  tunnels : AList fun _ : Bytes => ι
  closed : ι → Bool
  pc : ι → Pc
  stopped : Bool

def start {ι : Type} : State ι := ⟨∅, fun _ => false, fun _ => .idle, false⟩

inductive Act (ι : Type) where
  | accept (i : ι)
  | abort (i : ι)
  | check (i : ι)
  | register (i : ι)
  | unregister (i : ι)
  | close
  | stop

variable {ι : Type} [DecidableEq ι]

def goto (s : State ι) (i : ι) (p : Pc) : State ι := { s with pc := Function.update s.pc i p }

omit [DecidableEq ι] in
def activeTunnels (s : State ι) : ℕ := s.tunnels.entries.length

/- Closes the session that is found, whoever made it. -/
def unregister (s : State ι) (nodeID : Bytes) : State ι :=
  match s.tunnels.lookup nodeID with
  | some j =>
    { s with closed := Function.update s.closed j true, tunnels := s.tunnels.erase nodeID }
  | none => s

def close (s : State ι) : State ι :=
  { s with
    closed := fun j => s.closed j || s.tunnels.entries.any fun e => e.2 = j
    tunnels := ∅ }

/- `node` are the node ids that the connections register. A handler that cannot read a valid
   registration aborts. -/
def step (node : ι → Bytes) (maxTunnels : ℤ) (s : State ι) : Act ι → Option (State ι)
  | .accept i => if s.pc i = .idle ∧ s.stopped = false then some (goto s i .reading) else none
  | .abort i => if s.pc i = .reading then some (goto s i .returned) else none
  | .check i =>
    if s.pc i = .reading then
      if maxTunnels ≤ activeTunnels s then some (goto s i .returned) else some (goto s i .checked)
    else none
  | .register i =>
    if s.pc i = .checked then
      if node i ∈ s.tunnels then some (goto s i .returned)
      else some (goto { s with tunnels := s.tunnels.insert (node i) i } i .registered)
    else none
  | .unregister i =>
    if s.pc i = .registered then some (goto (unregister s (node i)) i .returned) else none
  | .close => some (close s)
  | .stop => some { close s with stopped := true }

/-! ### What a step does -/

section Step
variable {node : ι → Bytes} {maxTunnels : ℤ} {s t : State ι} {i : ι}

/-- What a step does to the map and to the handler that takes it. -/
inductive Effect (node : ι → Bytes) (maxTunnels : ℤ) (s : State ι) : Act ι → State ι → Prop
  | quiet {a : Act ι} {t : State ι} (i : ι) (p : Pc) (hp : p ≠ .registered)
      (hroom : p = .checked → activeTunnels s < maxTunnels)
      (hknown : ∀ j, a = .register j → node j ∈ s.tunnels)
      (hmap : t.tunnels = s.tunnels) (hpc : t.pc = Function.update s.pc i p) :
      Effect node maxTunnels s a t
  | registered {t : State ι} (i : ι) (hfrom : s.pc i = .checked) (hnew : node i ∉ s.tunnels)
      (hmap : t.tunnels = s.tunnels.insert (node i) i)
      (hpc : t.pc = Function.update s.pc i .registered) : Effect node maxTunnels s (.register i) t
  | unregistered {t : State ι} (i : ι) (hfrom : s.pc i = .registered)
      (hmap : t.tunnels = s.tunnels.erase (node i))
      (hpc : t.pc = Function.update s.pc i .returned) : Effect node maxTunnels s (.unregister i) t
  | emptied {a : Act ι} {t : State ι} (hact : ∀ j, a ≠ .register j) (hmap : t.tunnels = ∅)
      (hpc : t.pc = s.pc) : Effect node maxTunnels s a t

omit [DecidableEq ι] in
theorem erase_of_lookup_none {m : AList fun _ : Bytes => ι} {name : Bytes}
    (h : m.lookup name = none) : m.erase name = m := by
  refine AList.ext ?_
  exact List.kerase_of_notMem_keys (AList.lookup_eq_none.mp h)

theorem unregister_tunnels (s : State ι) (nodeID : Bytes) :
    (unregister s nodeID).tunnels = s.tunnels.erase nodeID := by
  unfold unregister
  split
  · rfl
  · rename_i hnone
    exact (erase_of_lookup_none hnone).symm

theorem unregister_pc (s : State ι) (nodeID : Bytes) : (unregister s nodeID).pc = s.pc := by
  unfold unregister
  split
  · rfl
  · rfl

theorem step_effect {a : Act ι} (h : step node maxTunnels s a = some t) :
    Effect node maxTunnels s a t := by
  cases a with
  | accept i =>
    simp only [step] at h
    split at h
    · cases h
      exact .quiet i .reading nofun nofun nofun rfl rfl
    · cases h
  | abort i =>
    simp only [step] at h
    split at h
    · cases h
      exact .quiet i .returned nofun nofun nofun rfl rfl
    · cases h
  | check i =>
    simp only [step] at h
    split at h
    · split at h
      · cases h
        exact .quiet i .returned nofun nofun nofun rfl rfl
      · rename_i hroom
        cases h
        exact .quiet i .checked nofun (fun _ => Int.not_le.mp hroom) nofun rfl rfl
    · cases h
  | register i =>
    simp only [step] at h
    split at h
    · rename_i hchecked
      split at h
      · rename_i hknown
        cases h
        refine .quiet i .returned nofun nofun (fun j hj => ?_) rfl rfl
        cases hj
        exact hknown
      · rename_i hnew
        cases h
        exact .registered i hchecked hnew rfl rfl
    · cases h
  | unregister i =>
    simp only [step] at h
    split at h
    · rename_i hregistered
      cases h
      refine .unregistered i hregistered (unregister_tunnels s (node i)) ?_
      rw [goto, unregister_pc]
    · cases h
  | close =>
    cases h
    exact .emptied nofun rfl rfl
  | stop =>
    cases h
    exact .emptied nofun rfl rfl

/-- Every session is under the node id of its handler. -/
def Named (node : ι → Bytes) (s : State ι) : Prop :=
  ∀ name j, s.tunnels.lookup name = some j → node j = name

theorem step_named (s : State ι) (a : Act ι) (t : State ι) (h : Named node s)
    (hstep : step node maxTunnels s a = some t) : Named node t := by
  intro name j hlookup
  cases step_effect hstep with
  | quiet i p _ _ _ hmap _ =>
    rw [hmap] at hlookup
    exact h name j hlookup
  | registered i _ _ hmap _ =>
    rw [hmap] at hlookup
    by_cases hname : name = node i
    · rw [hname, AList.lookup_insert] at hlookup
      rw [hname, Option.some.inj hlookup]
    · rw [AList.lookup_insert_ne hname] at hlookup
      exact h name j hlookup
  | unregistered i _ hmap _ =>
    rw [hmap] at hlookup
    by_cases hname : name = node i
    · rw [hname, AList.lookup_erase] at hlookup
      cases hlookup
    · rw [AList.lookup_erase_ne hname] at hlookup
      exact h name j hlookup
  | emptied _ hmap _ =>
    rw [hmap] at hlookup
    cases hlookup

omit [DecidableEq ι] in
theorem start_named : Named node (start : State ι) := nofun

theorem reach_named (hs : Reach (step node maxTunnels) Free start s) : Named node s :=
  hs.invariant (Named node) start_named fun s a t hinv _ hstep => step_named s a t hinv hstep

/-- With no room at all no handler gets beyond the check. -/
structure Barred (s : State ι) : Prop where
  none_checked : ∀ i, s.pc i ≠ .checked
  none_registered : ∀ i, s.pc i ≠ .registered
  tunnels : s.tunnels = ∅

theorem step_barred (hmax : maxTunnels ≤ 0) (s : State ι) (a : Act ι) (t : State ι) (h : Barred s)
    (hstep : step node maxTunnels s a = some t) : Barred t := by
  cases step_effect hstep with
  | quiet i p hp hroom _ hmap hpc =>
    have hchecked : p ≠ .checked := by
      intro hp'
      have hlt := hroom hp'
      omega
    refine ⟨?_, ?_, hmap.trans h.tunnels⟩
    · rw [hpc]
      exact (Function.forall_update_iff s.pc fun _ q => q ≠ .checked).mpr
        ⟨hchecked, fun j _ => h.none_checked j⟩
    · rw [hpc]
      exact (Function.forall_update_iff s.pc fun _ q => q ≠ .registered).mpr
        ⟨hp, fun j _ => h.none_registered j⟩
  | registered i hfrom _ _ _ => exact absurd hfrom (h.none_checked i)
  | unregistered i hfrom _ _ => exact absurd hfrom (h.none_registered i)
  | emptied _ hmap hpc =>
    exact ⟨hpc ▸ h.none_checked, hpc ▸ h.none_registered, hmap⟩

omit [DecidableEq ι] in
theorem start_barred : Barred (start : State ι) := ⟨nofun, nofun, rfl⟩

theorem reach_barred (hmax : maxTunnels ≤ 0) (hs : Reach (step node maxTunnels) Free start s) :
    Barred s :=
  hs.invariant Barred start_barred fun s a t hinv _ hstep => step_barred hmax s a t hinv hstep

end Step

/-! ### Handlers that have all passed the check -/

section Runs
variable {node : ι → Bytes} {maxTunnels : ℤ}

theorem reach_checked (node : ι → Bytes) (hmax : 0 < maxTunnels) {l : List ι} (hl : l.Nodup) :
    ∃ s, Reach (step node maxTunnels) Free start s ∧ s.tunnels = ∅ ∧ s.stopped = false ∧
      (∀ i ∈ l, s.pc i = .checked) ∧ ∀ i ∉ l, s.pc i = .idle := by
  induction l with
  | nil => exact ⟨start, .start, rfl, rfl, nofun, fun _ _ => rfl⟩
  | cons i l ih =>
    obtain ⟨hi, hl⟩ := List.nodup_cons.mp hl
    obtain ⟨s, hs, hempty, hopen, hchecked, hidle⟩ := ih hl
    have haccept : step node maxTunnels s (.accept i) = some (goto s i .reading) :=
      if_pos ⟨hidle i hi, hopen⟩
    have hroom : ¬ maxTunnels ≤ activeTunnels (goto s i .reading) := by
      have hzero : activeTunnels (goto s i .reading) = 0 := by
        show s.tunnels.entries.length = 0
        rw [hempty]
        rfl
      omega
    have hcheck : step node maxTunnels (goto s i .reading) (.check i) = some (goto s i .checked) := by
      have hreading : (goto s i .reading).pc i = .reading := Function.update_self ..
      rw [step, if_pos hreading, if_neg hroom]
      simp [goto]
    refine ⟨goto s i .checked, (hs.next _ trivial haccept).next _ trivial hcheck, hempty, hopen,
      fun j hj => ?_, fun j hj => ?_⟩
    · rcases List.mem_cons.mp hj with rfl | hj
      · exact Function.update_self ..
      · have hne : j ≠ i := fun he => hi (he ▸ hj)
        exact (Function.update_of_ne hne ..).trans (hchecked j hj)
    · rw [List.mem_cons, not_or] at hj
      exact (Function.update_of_ne hj.1 ..).trans (hidle j hj.2)

omit [DecidableEq ι] in
theorem length_insert {m : AList fun _ : Bytes => ι} {name : Bytes} (i : ι) (h : name ∉ m) :
    (m.insert name i).entries.length = m.entries.length + 1 := by
  rw [AList.entries_insert_of_notMem h, List.length_cons]

theorem step_register {s : State ι} {i : ι} (hchecked : s.pc i = .checked)
    (hnew : node i ∉ s.tunnels) :
    step node maxTunnels s (.register i) =
      some (goto { s with tunnels := s.tunnels.insert (node i) i } i .registered) := by
  rw [step, if_pos hchecked, if_neg hnew]

theorem reach_registered {l : List ι} (hnodes : (l.map node).Nodup) {s : State ι}
    (hchecked : ∀ i ∈ l, s.pc i = .checked) (hnew : ∀ i ∈ l, node i ∉ s.tunnels) :
    ∃ t, Reach (step node maxTunnels) Free s t ∧
      activeTunnels t = activeTunnels s + l.length := by
  induction l generalizing s with
  | nil => exact ⟨s, .start, rfl⟩
  | cons i l ih =>
    rw [List.map_cons, List.nodup_cons] at hnodes
    have hother : ∀ j ∈ l, node j ≠ node i := fun j hj he =>
      hnodes.1 (he ▸ List.mem_map_of_mem hj)
    have hregister : step node maxTunnels s (.register i) = some (goto { s with
        tunnels := s.tunnels.insert (node i) i } i .registered) :=
      step_register (hchecked i List.mem_cons_self) (hnew i List.mem_cons_self)
    have hone : activeTunnels (goto { s with tunnels := s.tunnels.insert (node i) i } i
        .registered) = activeTunnels s + 1 := length_insert i (hnew i List.mem_cons_self)
    have hchecked' : ∀ j ∈ l, Function.update s.pc i .registered j = .checked := by
      intro j hj
      have hne : j ≠ i := fun he => hother j hj (he ▸ rfl)
      exact (Function.update_of_ne hne ..).trans (hchecked j (List.mem_cons_of_mem i hj))
    have hnew' : ∀ j ∈ l, node j ∉ s.tunnels.insert (node i) i := by
      intro j hj hmem
      rcases (AList.mem_insert _).mp hmem with he | hmem
      · exact hother j hj he
      · exact hnew j (List.mem_cons_of_mem i hj) hmem
    obtain ⟨t, ht, hcount⟩ := ih (s := goto { s with tunnels := s.tunnels.insert (node i) i } i
      .registered) hnodes.2 hchecked' hnew'
    refine ⟨t, (Reach.start.next _ trivial hregister).trans ht, ?_⟩
    rw [hcount, hone, List.length_cons]
    omega

end Runs

/-! ### The limit -/

section Limit
variable {node : ι → Bytes} {maxTunnels : ℤ}

def Within (maxTunnels : ℤ) (s : State ι) : Prop := activeTunnels s ≤ maxTunnels

/-- There is still room when a handler registers a node that is not registered. -/
def Roomy (node : ι → Bytes) (maxTunnels : ℤ) (s : State ι) : Act ι → Prop
  | .register i => node i ∉ s.tunnels → activeTunnels s < maxTunnels
  | _ => True

theorem within_step_iff (s : State ι) (a : Act ι) (t : State ι) (h : Within maxTunnels s)
    (hstep : step node maxTunnels s a = some t) :
    Within maxTunnels t ↔ Roomy node maxTunnels s a := by
  unfold Within activeTunnels at *
  cases step_effect hstep with
  | quiet i p _ _ hknown hmap _ =>
    rw [hmap]
    refine iff_of_true h ?_
    cases a with
    | register j => exact fun hnew => absurd (hknown j rfl) hnew
    | _ => trivial
  | registered i _ hnew hmap _ =>
    rw [hmap, length_insert i hnew]
    constructor
    · intro hle _
      unfold activeTunnels
      omega
    · intro hroomy
      have hlt := hroomy hnew
      unfold activeTunnels at hlt
      omega
  | unregistered i _ hmap _ =>
    have hle : t.tunnels.entries.length ≤ s.tunnels.entries.length := by
      rw [hmap]
      exact (List.kerase_sublist (node i) s.tunnels.entries).length_le
    refine iff_of_true ?_ trivial
    omega
  | emptied hact hmap _ =>
    have hzero : t.tunnels.entries.length = 0 := by
      rw [hmap]
      rfl
    refine iff_of_true (by omega) ?_
    cases a with
    | register j => exact absurd rfl (hact j)
    | _ => trivial

omit [DecidableEq ι] in
/- The sessions belong to different nodes. -/
theorem Named.exists_handlers {s : State ι} (h : Named node s) :
    ∃ l : List ι, (l.map node).Nodup ∧ l.length = activeTunnels s := by
  refine ⟨s.tunnels.entries.map Sigma.snd, ?_, ?_⟩
  · have hkeys : (s.tunnels.entries.map Sigma.snd).map node = s.tunnels.keys := by
      rw [List.map_map]
      refine List.map_congr_left fun e he => ?_
      exact h e.1 e.2 (AList.mem_lookup_iff.mpr he)
    rw [hkeys]
    exact s.tunnels.keys_nodup
  · rw [activeTunnels, List.length_map]

/-- All interleavings stay within the limit just if it is zero or the connections have no
more node ids than that; a single one does, just if there is room whenever a new node is
registered. -/
theorem tunnel_limit_iff (node : ι → Bytes) (maxTunnels : ℤ) :
    ((∀ s, Reach (step node maxTunnels) Free start s → (activeTunnels s : ℤ) ≤ maxTunnels) ↔
      maxTunnels = 0 ∨ ∀ l : List ι, (l.map node).Nodup → (l.length : ℤ) ≤ maxTunnels) ∧
    ∀ acts s, exec (step node maxTunnels) acts start = some s →
      ((∀ t ∈ visited (step node maxTunnels) acts start, (activeTunnels t : ℤ) ≤ maxTunnels) ↔
        0 ≤ maxTunnels ∧ Guarded (step node maxTunnels) (Roomy node maxTunnels) acts start) := by
  refine ⟨⟨fun h => ?_, ?_⟩, fun acts s hrun => ?_⟩
  · by_cases hzero : maxTunnels = 0
    · exact Or.inl hzero
    · refine Or.inr fun l hl => ?_
      have hstart : (0 : ℤ) ≤ maxTunnels := h start .start
      obtain ⟨s, hs, hempty, -, hchecked, -⟩ :=
        reach_checked node (by omega : 0 < maxTunnels) hl.of_map
      have hnew : ∀ i ∈ l, node i ∉ s.tunnels := by
        intro i _
        rw [hempty]
        exact AList.notMem_empty _
      obtain ⟨t, ht, hcount⟩ := reach_registered hl hchecked hnew
      have hle := h t (hs.trans ht)
      omega
  · rintro (rfl | hnodes) s hs
    · rw [activeTunnels, (reach_barred (Int.le_refl 0) hs).tunnels]
      exact Int.le_refl 0
    · obtain ⟨l, hl, hlength⟩ := (reach_named hs).exists_handlers
      rw [← hlength]
      exact hnodes l hl
  · have hfirst : start ∈ visited (step node maxTunnels) acts start := start_mem_visited _ _ _
    by_cases hmax : 0 ≤ maxTunnels
    · have hstart : Within maxTunnels (start : State ι) := hmax
      rw [← forall_visited_iff_guarded hrun hstart within_step_iff]
      exact (and_iff_right hmax).symm
    · exact iff_of_false (fun h => hmax (h start hfirst)) fun h => hmax h.1

/- Two nodes, room for one: both connections are checked before one is registered. -/
theorem two_tunnels_for_one :
    (exec (step (fun i : Fin 2 => if i = 0 then [97] else [98]) 1)
      [.accept 0, .accept 1, .check 0, .check 1, .register 0, .register 1] start).map activeTunnels =
      some 2 := by
  decide +kernel

end Limit

/-! ### Whose session a handler unregisters -/

section Owner
variable {node : ι → Bytes} {maxTunnels : ℤ} {s t : State ι} {i : ι}

/-- From `s` to `t` no session of another handler is closed or removed. -/
def Spares (i : ι) (s t : State ι) : Prop :=
  ∀ j, j ≠ i → t.closed j = s.closed j ∧
    ∀ name, s.tunnels.lookup name = some j → t.tunnels.lookup name = some j

/-- No other handler for the node has its Unregister still to come. -/
def Alone (node : ι → Bytes) (s : State ι) : Act ι → Prop
  | .register j => ∀ i, i ≠ j → node i = node j → s.pc i ≠ .registered
  | _ => True

/-- What a handler finds under its node id, when it is about to unregister, is its own. -/
def Owned (node : ι → Bytes) (s : State ι) : Prop :=
  ∀ i j, s.pc i = .registered → s.tunnels.lookup (node i) = some j → j = i

theorem registered_of_unregister (hstep : step node maxTunnels s (.unregister i) = some t) :
    s.pc i = .registered := by
  simp only [step] at hstep
  split at hstep
  · assumption
  · cases hstep

theorem spares_unregister_iff (hstep : step node maxTunnels s (.unregister i) = some t) :
    Spares i s t ↔ ∀ j, s.tunnels.lookup (node i) = some j → j = i := by
  have hregistered := registered_of_unregister hstep
  rw [step, if_pos hregistered] at hstep
  cases hstep
  have hmap : (goto (unregister s (node i)) i .returned).tunnels = s.tunnels.erase (node i) :=
    unregister_tunnels s (node i)
  constructor
  · intro hspares j hj
    by_contra hne
    have hkept := (hspares j hne).2 (node i) hj
    rw [hmap, AList.lookup_erase] at hkept
    cases hkept
  · intro hown j hne
    refine ⟨?_, fun name hname => ?_⟩
    · show (unregister s (node i)).closed j = s.closed j
      unfold unregister
      split
      · rename_i k hk
        rw [hown k hk]
        exact Function.update_of_ne hne ..
      · rfl
    · have hother : name ≠ node i := by
        rintro rfl
        exact hne (hown j hname)
      rw [hmap, AList.lookup_erase_ne hother]
      exact hname

omit [DecidableEq ι] in
theorem start_owned : Owned node (start : State ι) := by
  intro i j hpc
  cases hpc

theorem step_owned (s : State ι) (a : Act ι) (t : State ι) (h : Owned node s)
    (halone : Alone node s a) (hstep : step node maxTunnels s a = some t) : Owned node t := by
  intro i j hpc hlookup
  cases step_effect hstep with
  | quiet k p hp _ _ hmap hpc' =>
    rw [hmap] at hlookup
    rw [hpc', Function.update_apply] at hpc
    split at hpc
    · exact absurd hpc hp
    · exact h i j hpc hlookup
  | registered k _ hnew hmap hpc' =>
    rw [hmap] at hlookup
    rw [hpc', Function.update_apply] at hpc
    by_cases hnode : node i = node k
    · rw [hnode, AList.lookup_insert] at hlookup
      obtain rfl := Option.some.inj hlookup
      split at hpc
      · rename_i hi
        exact hi.symm
      · rename_i hi
        exact absurd hpc (halone i hi hnode)
    · rw [AList.lookup_insert_ne hnode] at hlookup
      split at hpc
      · rename_i hi
        exact absurd (congrArg node hi) hnode
      · exact h i j hpc hlookup
  | unregistered k _ hmap hpc' =>
    rw [hmap] at hlookup
    rw [hpc', Function.update_apply] at hpc
    split at hpc
    · cases hpc
    · by_cases hnode : node i = node k
      · rw [hnode, AList.lookup_erase] at hlookup
        cases hlookup
      · rw [AList.lookup_erase_ne hnode] at hlookup
        exact h i j hpc hlookup
  | emptied _ hmap _ =>
    rw [hmap] at hlookup
    cases hlookup

/- The first handler registers, Close empties the map, the second registers the same node. -/
theorem reach_replaced (hmax : 0 < maxTunnels) {i j : ι} (hij : i ≠ j) (hnode : node i = node j) :
    ∃ s, Reach (step node maxTunnels) Free start s ∧ s.pc i = .registered ∧
      s.tunnels.lookup (node i) = some j := by
  have hpair : [i, j].Nodup := by simp [hij]
  obtain ⟨s, hs, hempty, -, hchecked, -⟩ := reach_checked node hmax hpair
  have hi : s.pc i = .checked := hchecked i List.mem_cons_self
  have hj : s.pc j = .checked := hchecked j (List.mem_cons_of_mem i (List.mem_singleton_self j))
  have hnew : node i ∉ s.tunnels := by
    rw [hempty]
    exact AList.notMem_empty _
  have hfirst := hs.next (.register i) trivial (step_register hi hnew)
  have hclosed := hfirst.next .close trivial rfl
  have hj' : (close (goto { s with tunnels := s.tunnels.insert (node i) i } i
      .registered)).pc j = .checked :=
    (Function.update_of_ne (Ne.symm hij) ..).trans hj
  have hsecond := hclosed.next (.register j) trivial (step_register hj' (AList.notMem_empty _))
  refine ⟨_, hsecond, ?_, ?_⟩
  · exact (Function.update_of_ne hij ..).trans (Function.update_self ..)
  · rw [hnode]
    exact AList.lookup_insert _

/-- In every interleaving a handler unregisters its own session only, just if no two
connections have the same node id or none can register; and in every interleaving in which
no handler registers while another one for the node is still to unregister. -/
theorem unregister_own_iff (node : ι → Bytes) (maxTunnels : ℤ) :
    ((∀ s, Reach (step node maxTunnels) Free start s →
      ∀ i t, step node maxTunnels s (.unregister i) = some t → Spares i s t) ↔
      maxTunnels ≤ 0 ∨ Function.Injective node) ∧
    ∀ s, Reach (step node maxTunnels) (Alone node) start s →
      ∀ i t, step node maxTunnels s (.unregister i) = some t → Spares i s t := by
  refine ⟨⟨fun h => ?_, fun h s hs i t hstep => ?_⟩, fun s hs i t hstep => ?_⟩
  · by_cases hmax : maxTunnels ≤ 0
    · exact Or.inl hmax
    · refine Or.inr fun i j hnode => ?_
      by_contra hij
      obtain ⟨s, hs, hpc, hlookup⟩ := reach_replaced (Int.not_le.mp hmax) hij hnode
      have hstep : step node maxTunnels s (.unregister i) =
          some (goto (unregister s (node i)) i .returned) := if_pos hpc
      have hown := (spares_unregister_iff hstep).mp (h s hs i _ hstep) j hlookup
      exact hij hown.symm
  · rw [spares_unregister_iff hstep]
    intro j hlookup
    rcases h with hmax | hinj
    · rw [(reach_barred hmax hs).tunnels] at hlookup
      cases hlookup
    · exact hinj (reach_named hs (node i) j hlookup)
  · rw [spares_unregister_iff hstep]
    have howned := hs.invariant (Owned node) start_owned step_owned
    exact fun j hlookup => howned i j (registered_of_unregister hstep) hlookup

/- The handlers 0 and 1 are for one node. After Stop the first one, which is returning, closes
and removes the session of the second. -/
theorem unregisters_other_session :
    (exec (step (fun _ : Fin 2 => [97]) 100) [.accept 0, .check 0, .accept 1, .check 1, .register 0,
      .stop, .register 1] start).map (fun s => (s.tunnels.lookup [97], s.closed 1)) =
        some (some 1, false) ∧
    (exec (step (fun _ : Fin 2 => [97]) 100) [.accept 0, .check 0, .accept 1, .check 1, .register 0,
      .stop, .register 1, .unregister 0] start).map
        (fun s => (s.tunnels.lookup [97], s.closed 1, s.pc 1)) =
        some (none, true, .registered) := by
  decide +kernel

end Owner

end EdgeDispatch.Tunnel.Registry
