import EdgeDispatch.Lib.GoStrings
import EdgeDispatch.Lib.Transition

/-! # Policies and their versions (internal/controlplane/admin_api.go:890-1050)

Creating and updating a policy makes a version of it, which goes into a history; a rollback
takes a version back out of it, with its number. The handlers do not look at whether a
version could be saved. Reads see the rows of the primary. -/

namespace EdgeDispatch.ControlPlane.PolicyHistory
open Lib.Transition Lib.ByteString Lib.GoStrings

/- The content is a JSON value that nothing here looks into. -/
structure AdminPolicy (C : Type) where
  policyID : Bytes
  tenantID : Bytes
  projectID : Bytes
  name : Bytes
  type : Bytes
  content : C
  version : ℤ
  isPublished : Bool
  description : Bytes

structure AdminPolicyVersion (C : Type) where
  policyID : Bytes
  version : ℤ
  content : C
  deriving DecidableEq

/- The body of a create or an update, as far as it is used; a missing content is `none`. -/
structure PolicyRequest (C : Type) where
  tenantID : Bytes
  projectID : Bytes
  name : Bytes
  type : Bytes
  content : Option C
  isPublished : Bool
  description : Bytes

/-- `versions` is the history table. What was made, and with which content, is also kept in
`made`, whether or not it could be saved. -/
structure State (C : Type) where
  policies : Bytes → Option (AdminPolicy C)
  versions : List (AdminPolicyVersion C)
  made : List (AdminPolicyVersion C)

/- `saved` is whether the version was read back and inserted. A rollback finds a row of the
version it asks for; if there are several, the database may return any of them first. -/
inductive Op (C : Type) where
  | create (policyID : Bytes) (req : PolicyRequest C) (saved : Bool)
  | update (policyID : Bytes) (req : PolicyRequest C) (saved : Bool)
  | rollback (policyID : Bytes) (version : ℤ) (target : AdminPolicyVersion C)

variable {C : Type}

def start : State C := ⟨fun _ => none, [], []⟩

def put (s : State C) (p : AdminPolicy C) : State C :=
  { s with policies := Function.update s.policies p.policyID (some p) }

/- A version is made of the policy as it is now, and `SavePolicyVersion`. -/
def makeVersion (s : State C) (p : AdminPolicy C) (saved : Bool) : State C :=
  let v := ⟨p.policyID, p.version, p.content⟩
  { s with versions := if saved then v :: s.versions else s.versions, made := v :: s.made }

/- A content that is missing is stored as null. -/
def created (null : C) (policyID : Bytes) (req : PolicyRequest C) : AdminPolicy C :=
  { policyID := policyID, tenantID := req.tenantID, projectID := req.projectID,
    name := trimSpace req.name, type := req.type, content := req.content.getD null, version := 1,
    isPublished := req.isPublished, description := req.description }

/-- The name must not be blank, and the insert fails if the id is taken. -/
def handleCreatePolicy (null : C) (s : State C) (policyID : Bytes) (req : PolicyRequest C)
    (saved : Bool) : Option (State C) :=
  if trimSpace req.name = [] then none
  else match s.policies policyID with
    | some _ => none
    | none =>
      let p := created null policyID req
      some (makeVersion (put s p) p saved)

/- What the request leaves empty stays; the version is one more. -/
def updated (existing : AdminPolicy C) (req : PolicyRequest C) : AdminPolicy C :=
  { existing with
    name := if req.name ≠ [] then req.name else existing.name
    type := if req.type ≠ [] then req.type else existing.type
    content := req.content.getD existing.content
    description := if req.description ≠ [] then req.description else existing.description
    version := existing.version + 1 }

def handleUpdatePolicy (s : State C) (policyID : Bytes) (req : PolicyRequest C) (saved : Bool) :
    Option (State C) :=
  match s.policies policyID with
  | none => none
  | some existing =>
    let p := updated existing req
    some (makeVersion (put s p) p saved)

/- `RollbackPolicy` -/
def rolledBack (p : AdminPolicy C) (version : ℤ) (content : C) : AdminPolicy C :=
  { p with content := content, version := version, isPublished := true }

def handleRollbackPolicy [DecidableEq C] (s : State C) (policyID : Bytes) (version : ℤ)
    (target : AdminPolicyVersion C) : Option (State C) :=
  if target ∈ s.versions ∧ target.policyID = policyID ∧ target.version = version then
    let row := (s.policies policyID).map fun p => rolledBack p version target.content
    some { s with policies := Function.update s.policies policyID row }
  else none

def step [DecidableEq C] (null : C) (s : State C) : Op C → Option (State C)
  | .create policyID req saved => handleCreatePolicy null s policyID req saved
  | .update policyID req saved => handleUpdatePolicy s policyID req saved
  | .rollback policyID version target => handleRollbackPolicy s policyID version target

/-! ### What is asked of the history -/

def Single (vs : List (AdminPolicyVersion C)) : Prop :=
  ∀ v ∈ vs, ∀ w ∈ vs, v.policyID = w.policyID → v.version = w.version → v.content = w.content

/- After a rollback the policy has the content that its version was made with. -/
def Restored (s s' : State C) : Op C → Prop
  | .rollback policyID version _ => ∀ v ∈ s.made, v.policyID = policyID → v.version = version →
      (s'.policies policyID).map AdminPolicy.content = some v.content
  | _ => True

def Kept [DecidableEq C] (null : C) (s : State C) (op : Op C) : Prop :=
  ∀ s', step null s op = some s' → Single s'.versions ∧ Restored s s' op

/-- Along a sequence of operations that all succeed, the saved versions have one content
each, and every rollback restores it. -/
def Unambiguous [DecidableEq C] (null : C) (ops : List (Op C)) : Prop :=
  Guarded (step null) (Kept null) ops start

/-- An update that makes a version number again makes it with the same content. -/
def Agrees (s : State C) : Op C → Prop
  | .update policyID req _ => ∀ p ∈ s.policies policyID,
      ∀ v ∈ s.made, v.policyID = policyID → v.version = p.version + 1 →
        v.content = req.content.getD p.content
  | _ => True

instance [DecidableEq C] (s : State C) : ∀ op, Decidable (Agrees s op)
  | .update policyID req _ => inferInstanceAs (Decidable (∀ p ∈ s.policies policyID,
      ∀ v ∈ s.made, v.policyID = policyID → v.version = p.version + 1 →
        v.content = req.content.getD p.content))
  | .create .. | .rollback .. => isTrue trivial

def Saved : Op C → Prop
  | .create _ _ saved => saved = true
  | .update _ _ saved => saved = true
  | .rollback _ _ _ => True

/-! ### Invariants -/

/- The history is part of what was made, for policies that are there. -/
structure Inv (s : State C) : Prop where
  saved : ∀ v ∈ s.versions, v ∈ s.made
  exist : ∀ v ∈ s.made, s.policies v.policyID ≠ none
  ids : ∀ id p, s.policies id = some p → p.policyID = id
  single : Single s.made

theorem start_inv : Inv (start : State C) := ⟨nofun, nofun, nofun, nofun⟩

/- A new version next to old ones that agree with it. -/
theorem Single.cons {vs : List (AdminPolicyVersion C)} (h : Single vs) {v : AdminPolicyVersion C}
    (hv : ∀ w ∈ vs, w.policyID = v.policyID → w.version = v.version → w.content = v.content) :
    Single (v :: vs) := by
  intro u hu w hw hid hver
  rcases List.mem_cons.mp hu with rfl | hu'
  · rcases List.mem_cons.mp hw with rfl | hw'
    · rfl
    · exact (hv w hw' hid.symm hver.symm).symm
  · rcases List.mem_cons.mp hw with rfl | hw'
    · exact hv u hu' hid hver
    · exact h u hu' w hw' hid hver

variable {s : State C}

theorem makeVersion_inv (h : Inv s) (p : AdminPolicy C) (saved : Bool)
    (hp : ∀ w ∈ s.made, w.policyID = p.policyID → w.version = p.version → w.content = p.content) :
    Inv (makeVersion (put s p) p saved) := by
  refine ⟨?_, ?_, ?_, h.single.cons hp⟩
  · intro v hv
    simp only [makeVersion, put] at hv
    split at hv
    · rcases List.mem_cons.mp hv with rfl | hold
      · exact List.mem_cons_self
      · exact List.mem_cons_of_mem _ (h.saved v hold)
    · exact List.mem_cons_of_mem _ (h.saved v hv)
  · intro v hv
    simp only [makeVersion, put, Function.update_apply]
    split
    · exact Option.some_ne_none p
    · rename_i hne
      rcases List.mem_cons.mp hv with rfl | hold
      · exact absurd rfl hne
      · exact h.exist v hold
  · intro id q hq
    simp only [makeVersion, put, Function.update_apply] at hq
    split at hq
    · rename_i hid
      rw [hid, Option.some.inj hq]
    · exact h.ids id q hq

variable [DecidableEq C] {null : C}
variable {op : Op C}

theorem step_inv {s' : State C} (h : Inv s) (ha : Agrees s op) (hstep : step null s op = some s') :
    Inv s' := by
  cases op with
  | create policyID req saved =>
    simp only [step, handleCreatePolicy] at hstep
    split at hstep
    · cases hstep
    · split at hstep
      · cases hstep
      · rename_i hfree
        -- nothing was made of a policy that is only created now
        refine Option.some.inj hstep ▸ makeVersion_inv h _ saved fun w hw hid _ => ?_
        exact absurd (hid ▸ hfree) (h.exist w hw)
  | update policyID req saved =>
    simp only [step, handleUpdatePolicy] at hstep
    split at hstep
    · cases hstep
    · rename_i existing hpolicy
      refine Option.some.inj hstep ▸ makeVersion_inv h _ saved fun w hw hid hver => ?_
      exact ha existing hpolicy w hw (hid.trans (h.ids policyID existing hpolicy)) hver
  | rollback policyID version target =>
    obtain ⟨-, hs⟩ := Option.ite_none_right_eq_some.mp hstep
    refine Option.some.inj hs ▸ ⟨h.saved, ?_, ?_, h.single⟩
    · intro v hv
      simp only [Function.update_apply]
      split
      · rename_i hid
        simpa [← hid] using h.exist v hv
      · exact h.exist v hv
    · intro id q hq
      simp only [Function.update_apply] at hq
      split at hq
      · obtain ⟨p, hp, hpq⟩ := Option.map_eq_some_iff.mp hq
        rename_i hid
        rw [← hpq, hid]
        exact h.ids policyID p hp
      · exact h.ids id q hq

theorem kept_of_agrees (h : Inv s) (ha : Agrees s op) : Kept null s op := by
  intro s' hstep
  have h' : Inv s' := step_inv h ha hstep
  refine ⟨fun v hv w hw => h'.single v (h'.saved v hv) w (h'.saved w hw), ?_⟩
  cases op with
  | create _ _ _ => trivial
  | update _ _ _ => trivial
  | rollback policyID version target =>
    obtain ⟨⟨hmem, hid, hver⟩, hs⟩ := Option.ite_none_right_eq_some.mp hstep
    intro v hv hvid hvver
    have hcontent : target.content = v.content :=
      h.single target (h.saved target hmem) v hv (hid.trans hvid.symm) (hver.trans hvver.symm)
    obtain ⟨p, hp⟩ := Option.ne_none_iff_exists'.mp (h.exist v hv)
    rw [hvid] at hp
    obtain rfl := Option.some.inj hs
    simp only [Function.update_self, hp, Option.map_some, ← hcontent, rolledBack]

/- When all versions are saved, an update that does not agree shows in the history. -/
theorem agrees_of_kept (h : Inv s) (hall : ∀ v ∈ s.made, v ∈ s.versions) (hsaved : Saved op)
    (hk : Kept null s op) : Agrees s op := by
  cases op with
  | create _ _ _ => trivial
  | rollback _ _ _ => trivial
  | update policyID req saved =>
    intro p hp v hv hid hver
    cases hsaved
    have hstep : step null s (.update policyID req true) =
        some (makeVersion (put s (updated p req)) (updated p req) true) := by
      simp only [step, handleUpdatePolicy, Option.mem_def.mp hp]
    have hsingle := (hk _ hstep).1
    exact hsingle v (List.mem_cons_of_mem _ (hall v hv))
      ⟨p.policyID, p.version + 1, req.content.getD p.content⟩ List.mem_cons_self
      (hid.trans (h.ids policyID p hp).symm) hver

theorem all_saved {s' : State C} (hall : ∀ v ∈ s.made, v ∈ s.versions) (hsaved : Saved op)
    (hstep : step null s op = some s') : ∀ v ∈ s'.made, v ∈ s'.versions := by
  have made : ∀ p : AdminPolicy C, ∀ v ∈ (makeVersion (put s p) p true).made,
      v ∈ (makeVersion (put s p) p true).versions := by
    intro p v hv
    rcases List.mem_cons.mp hv with rfl | hold
    · exact List.mem_cons_self
    · exact List.mem_cons_of_mem _ (hall v hold)
  cases op with
  | create policyID req saved =>
    cases hsaved
    simp only [step, handleCreatePolicy] at hstep
    split at hstep
    · cases hstep
    · split at hstep
      · cases hstep
      · exact Option.some.inj hstep ▸ made _
  | update policyID req saved =>
    cases hsaved
    simp only [step, handleUpdatePolicy] at hstep
    split at hstep
    · cases hstep
    · exact Option.some.inj hstep ▸ made _
  | rollback policyID version target =>
    obtain ⟨-, hs⟩ := Option.ite_none_right_eq_some.mp hstep
    exact Option.some.inj hs ▸ hall

/-- The history is unambiguous if every update that makes a version number again does so
with the same content; and when every version is saved, only then. -/
theorem policy_history_iff (null : C) (ops : List (Op C)) :
    (Guarded (step null) Agrees ops start → Unambiguous null ops) ∧
    ((∀ op ∈ ops, Saved op) → (Unambiguous null ops ↔ Guarded (step null) Agrees ops start)) := by
  have enough : Guarded (step null) Agrees ops start → Unambiguous null ops := by
    intro hg
    refine hg.imp Inv start_inv fun s op _ h ha => ⟨kept_of_agrees h ha, fun t ht => ?_⟩
    exact step_inv h ha ht
  refine ⟨enough, fun hsaved => ⟨fun hk => ?_, enough⟩⟩
  refine hk.imp (fun s => Inv s ∧ ∀ v ∈ s.made, v ∈ s.versions) ⟨start_inv, nofun⟩ ?_
  intro s op hop ⟨h, hall⟩ hkept
  have ha : Agrees s op := agrees_of_kept h hall (hsaved op hop) hkept
  exact ⟨ha, fun t ht => ⟨step_inv h ha ht, all_saved hall (hsaved op hop) ht⟩⟩

/- A request that only sets the content. -/
def contentRequest (content : ℕ) : PolicyRequest ℕ := ⟨[], [], [110], [], some content, false, []⟩

def rolledBackRun : List (Op ℕ) :=
  [.create [1] (contentRequest 10) true, .update [1] (contentRequest 20) true,
    .rollback [1] 1 ⟨[1], 1, 10⟩, .rollback [1] 2 ⟨[1], 2, 20⟩, .update [1] (contentRequest 30) true]

theorem rolled_back_and_forth : (∀ op ∈ rolledBackRun, Saved op) ∧
    (exec (step 0) rolledBackRun start).map State.versions =
      some [⟨[1], 3, 30⟩, ⟨[1], 2, 20⟩, ⟨[1], 1, 10⟩] ∧ Unambiguous 0 rolledBackRun := by
  have hsaved : ∀ op ∈ rolledBackRun, Saved op := by
    simp [rolledBackRun, Saved]
  have hguard : Guarded (step 0) Agrees rolledBackRun start := by decide +kernel
  exact ⟨hsaved, by decide +kernel, ((policy_history_iff 0 rolledBackRun).2 hsaved).mpr hguard⟩

/-- An update after a rollback makes a version number again that the history has with
another content, and a rollback to it may bring back either. -/
theorem version_made_twice :
    (exec (step 0) [.create [1] (contentRequest 10) true, .update [1] (contentRequest 20) true,
        .rollback [1] 1 ⟨[1], 1, 10⟩, .update [1] (contentRequest 30) true] start).map
        State.versions = some [⟨[1], 2, 30⟩, ⟨[1], 2, 20⟩, ⟨[1], 1, 10⟩] ∧
      ¬ Unambiguous 0 [.create [1] (contentRequest 10) true,
        .update [1] (contentRequest 20) true, .rollback [1] 1 ⟨[1], 1, 10⟩,
        .update [1] (contentRequest 30) true] := by
  refine ⟨by decide +kernel, ?_⟩
  rintro ⟨-, hcreate⟩
  obtain ⟨-, hupdate⟩ := hcreate _ rfl
  obtain ⟨-, hrollback⟩ := hupdate _ rfl
  obtain ⟨hkept, -⟩ := hrollback _ rfl
  have hsingle := (hkept _ rfl).1
  have htwice : (30 : ℕ) = 20 := hsingle ⟨[1], 2, 30⟩ List.mem_cons_self ⟨[1], 2, 20⟩
    (List.mem_cons_of_mem _ List.mem_cons_self) rfl rfl
  exact absurd htwice (by decide)

end EdgeDispatch.ControlPlane.PolicyHistory
