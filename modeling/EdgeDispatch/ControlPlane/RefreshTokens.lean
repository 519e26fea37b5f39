import EdgeDispatch.Lib.ByteString
import EdgeDispatch.Lib.Transition
import Mathlib.Data.List.Nodup

/-! # Refresh tokens of the admin console (internal/controlplane/admin_api.go:193-322)

Calls of `handleLogin`, `handleRefresh` and `handleLogout` for one user, interleaved
between the statements they send to the database. The user's row holds the hash of one
refresh token, or nothing; reads may go to a replica. A call whose update fails answers as
if it had not. -/

namespace EdgeDispatch.ControlPlane.RefreshTokens
open Lib.Transition Lib.ByteString

/-- Where a call is: before the store statement named. -/
inductive Pc where
  | idle
  | loginUpdate (new : Bytes)
  | refreshUser (token : Bytes)
  | refreshUpdate (token new : Bytes)
  | returned
  deriving DecidableEq

/-- What a client can tell: a token it was given, a token it exchanged for a new pair, a
logout that was answered. -/
inductive Event where
  | issued (token : Bytes)
  | exchanged (token : Bytes)
  | loggedOut
  deriving DecidableEq

/- `stored` is the column refresh_token_hash; the newest event of the log is the first. -/
structure State (ι : Type) where
  stored : Bytes
  replica : Bytes
  pc : ι → Pc
  log : List Event

/- Statements that may fail carry what they return, and calls that make a token the token. -/
inductive Act (ι : Type) where
  | getUserByEmail (i : ι) (new : Option Bytes)
  | updateLogin (i : ι) (ok : Bool)
  | getUserIDByRefreshToken (i : ι) (token : Bytes) (ok : Bool)
  | getUser (i : ι) (new : Option Bytes)
  | updateRefresh (i : ι) (ok : Bool)
  | updateLogout (i : ι) (ok : Bool)
  | replicate

def start {ι : Type} : State ι := { stored := [], replica := [], pc := fun _ => .idle, log := [] }

variable {ι : Type} [DecidableEq ι]

def goto (s : State ι) (i : ι) (p : Pc) : State ι := { s with pc := Function.update s.pc i p }

/- `UpdateUserRefreshToken` -/
def write (s : State ι) (ok : Bool) (refreshHash : Bytes) : State ι :=
  { s with stored := if ok then refreshHash else s.stored }

def record (s : State ι) (events : List Event) : State ι := { s with log := events ++ s.log }

/- `readPoolOrPrimary` -/
def read (readPool : Bool) (s : State ι) : Bytes := if readPool then s.replica else s.stored

def step (hash : Bytes → Bytes) (readPool : Bool) (s : State ι) : Act ι → Option (State ι)
  | .getUserByEmail i new =>
    if s.pc i = .idle then
      some (goto s i (match new with | some n => .loginUpdate n | none => .returned))
    else none
  | .updateLogin i ok =>
    match s.pc i with
    | .loginUpdate n => some (goto (record (write s ok (hash n)) [.issued n]) i .returned)
    | _ => none
  | .getUserIDByRefreshToken i token ok =>
    if s.pc i = .idle then
      some (goto s i (if token ≠ [] ∧ hash token ≠ [] ∧ ok ∧ read readPool s = hash token then
        .refreshUser token else .returned))
    else none
  | .getUser i new =>
    match s.pc i with
    | .refreshUser token =>
      some (goto s i (match new with | some n => .refreshUpdate token n | none => .returned))
    | _ => none
  | .updateRefresh i ok =>
    match s.pc i with
    | .refreshUpdate token n =>
      some (goto (record (write s ok (hash n)) [.issued n, .exchanged token]) i .returned)
    | _ => none
  | .updateLogout i ok =>
    if s.pc i = .idle then some (goto (record (write s ok []) [.loggedOut]) i .returned) else none
  | .replicate => some { s with replica := s.stored }

/-! ### What is asked of the log -/

def issued : List Event → List Bytes
  | [] => []
  | .issued t :: log => t :: issued log
  | _ :: log => issued log

def exchanged : List Event → List Bytes
  | [] => []
  | .exchanged t :: log => t :: exchanged log
  | _ :: log => exchanged log

/-- The tokens issued before a logout. -/
def revoked : List Event → List Bytes
  | [] => []
  | .loggedOut :: log => issued log
  | _ :: log => revoked log

def SingleUse (log : List Event) : Prop := ∀ t ∈ issued log, (exchanged log).count t ≤ 1

def NoneAfterLogout : List Event → Prop
  | [] => True
  | .exchanged t :: log => t ∉ revoked log ∧ NoneAfterLogout log
  | _ :: log => NoneAfterLogout log

instance (log : List Event) : Decidable (SingleUse log) :=
  inferInstanceAs (Decidable (∀ t ∈ issued log, (exchanged log).count t ≤ 1))

instance noneAfterLogoutDecidable : ∀ log, Decidable (NoneAfterLogout log)
  | [] => isTrue trivial
  | .exchanged t :: log =>
    have := noneAfterLogoutDecidable log
    inferInstanceAs (Decidable (t ∉ revoked log ∧ NoneAfterLogout log))
  | .issued _ :: log => noneAfterLogoutDecidable log
  | .loggedOut :: log => noneAfterLogoutDecidable log

/-- A token is exchanged twice if two refreshes look it up before either has replaced it,
or if the update of the first one fails. And one is exchanged after a logout if its
refresh looked it up before. -/
theorem refresh_token_reused :
    (∃ s : State (Fin 3), Reach (step id false) Free start s ∧
      s.log = [.issued [3], .exchanged [1], .issued [2], .exchanged [1], .issued [1]] ∧
      ¬ SingleUse s.log) ∧
    (∃ s : State (Fin 3), Reach (step id false) Free start s ∧
      s.log = [.issued [3], .exchanged [1], .issued [2], .exchanged [1], .issued [1]] ∧
      s.stored = [1] ∧ ¬ SingleUse s.log) ∧
    ∃ s : State (Fin 3), Reach (step id false) Free start s ∧
      s.log = [.issued [2], .exchanged [1], .loggedOut, .issued [1]] ∧ ¬ NoneAfterLogout s.log := by
  have twice : ¬ SingleUse
      [.issued [3], .exchanged [1], .issued [2], .exchanged [1], .issued [1]] := by decide
  refine ⟨?_, ?_, ?_⟩
  · let acts : List (Act (Fin 3)) := [.getUserByEmail 0 (some [1]), .updateLogin 0 true,
      .getUserIDByRefreshToken 1 [1] true, .getUserIDByRefreshToken 2 [1] true,
      .getUser 1 (some [2]), .getUser 2 (some [3]), .updateRefresh 1 true, .updateRefresh 2 true]
    obtain ⟨s, hr, hlog⟩ := reach_of_view acts State.log
      (show (exec (step id false) acts start).map State.log = some
        [.issued [3], .exchanged [1], .issued [2], .exchanged [1], .issued [1]] from rfl)
    exact ⟨s, hr, hlog, by rw [hlog]; exact twice⟩
  · -- one refresh after the other, and both updates fail
    let acts : List (Act (Fin 3)) := [.getUserByEmail 0 (some [1]), .updateLogin 0 true,
      .getUserIDByRefreshToken 1 [1] true, .getUser 1 (some [2]), .updateRefresh 1 false,
      .getUserIDByRefreshToken 2 [1] true, .getUser 2 (some [3]), .updateRefresh 2 false]
    obtain ⟨s, hr, hview⟩ := reach_of_view acts (fun s : State (Fin 3) => (s.log, s.stored))
      (show (exec (step id false) acts start).map (fun s => (s.log, s.stored)) = some
        ([.issued [3], .exchanged [1], .issued [2], .exchanged [1], .issued [1]], [1]) from rfl)
    obtain ⟨hlog, hstored⟩ := Prod.mk.inj hview
    exact ⟨s, hr, hlog, hstored, by rw [hlog]; exact twice⟩
  · let acts : List (Act (Fin 3)) := [.getUserByEmail 0 (some [1]), .updateLogin 0 true,
      .getUserIDByRefreshToken 1 [1] true, .getUser 1 (some [2]), .updateLogout 2 true,
      .updateRefresh 1 true]
    obtain ⟨s, hr, hlog⟩ := reach_of_view acts State.log
      (show (exec (step id false) acts start).map State.log = some
        [.issued [2], .exchanged [1], .loggedOut, .issued [1]] from rfl)
    exact ⟨s, hr, hlog, by rw [hlog]; decide⟩

/-! ### Updates that find what was looked up -/

/- The token a refresh has looked up. -/
def presented : Pc → Option Bytes
  | .refreshUser t => some t
  | .refreshUpdate t _ => some t
  | _ => none

/- The token a call has made and not yet given out. -/
def minted : Pc → Option Bytes
  | .loginUpdate n => some n
  | .refreshUpdate _ n => some n
  | _ => none

/-- A token from 32 random bytes: its hash is not that of another token. -/
def FreshToken (hash : Bytes → Bytes) (s : State ι) (n : Bytes) : Prop :=
  hash n ≠ [] ∧ hash n ∉ (issued s.log).map hash ∧
    ∀ j, ∀ m ∈ minted (s.pc j), hash m ≠ hash n

/-- The update of a refresh succeeds, and the row still holds the token that was presented;
that of a logout succeeds or has nothing to clear. -/
def Orderly (hash : Bytes → Bytes) (s : State ι) : Act ι → Prop
  | .getUserByEmail _ new => ∀ n ∈ new, FreshToken hash s n
  | .getUser _ new => ∀ n ∈ new, FreshToken hash s n
  | .updateRefresh i ok => ok = true ∧ ∀ t ∈ presented (s.pc i), s.stored = hash t
  | .updateLogout _ ok => ok = true ∨ s.stored = []
  | _ => True

instance {k : Nat} (hash : Bytes → Bytes) (s : State (Fin k)) (n : Bytes) :
    Decidable (FreshToken hash s n) :=
  inferInstanceAs (Decidable (hash n ≠ [] ∧ hash n ∉ (issued s.log).map hash ∧
    ∀ j, ∀ m ∈ minted (s.pc j), hash m ≠ hash n))

instance {k : Nat} (hash : Bytes → Bytes) (s : State (Fin k)) :
    ∀ a, Decidable (Orderly hash s a)
  | .getUserByEmail _ new | .getUser _ new =>
    inferInstanceAs (Decidable (∀ n ∈ new, FreshToken hash s n))
  | .updateRefresh i ok =>
    inferInstanceAs (Decidable (ok = true ∧ ∀ t ∈ presented (s.pc i), s.stored = hash t))
  | .updateLogout _ ok => inferInstanceAs (Decidable (ok = true ∨ s.stored = []))
  | .updateLogin .. | .getUserIDByRefreshToken .. | .replicate => isTrue trivial

structure Inv (hash : Bytes → Bytes) (s : State ι) : Prop where
  presented_ne : ∀ i t, presented (s.pc i) = some t → hash t ≠ []
  minted_ne : ∀ i n, minted (s.pc i) = some n → hash n ≠ []
  minted_new : ∀ i n, minted (s.pc i) = some n → hash n ∉ (issued s.log).map hash
  minted_apart : ∀ i j n m, minted (s.pc i) = some n → minted (s.pc j) = some m →
    hash n = hash m → i = j
  issued_ne : ∀ h ∈ (issued s.log).map hash, h ≠ []
  stored_issued : s.stored ≠ [] → s.stored ∈ (issued s.log).map hash
  spent : ∀ h ∈ (exchanged s.log).map hash, h ∈ (issued s.log).map hash ∧ h ≠ s.stored
  gone : ∀ h ∈ (revoked s.log).map hash, h ∈ (issued s.log).map hash ∧ h ≠ s.stored
  once : ((exchanged s.log).map hash).Nodup
  none_late : NoneAfterLogout s.log

omit [DecidableEq ι] in
theorem start_inv (hash : Bytes → Bytes) : Inv hash (start : State ι) :=
  ⟨nofun, nofun, nofun, nofun, nofun, nofun, nofun, nofun, List.nodup_nil, trivial⟩

variable {hash : Bytes → Bytes} {s : State ι}

/- A call moves on; what it holds then it held before, or it is a good token. -/
theorem Inv.goto (h : Inv hash s) (i : ι) {p : Pc}
    (hshown : ∀ t, presented p = some t → hash t ≠ [])
    (hnew : ∀ n, minted p = some n → FreshToken hash s n) : Inv hash (goto s i p) := by
  refine ⟨forall_held_update i h.presented_ne hshown,
    forall_held_update i h.minted_ne fun n hn => (hnew n hn).1,
    forall_held_update i h.minted_new fun n hn => (hnew n hn).2.1,
    held_apart_update i h.minted_apart fun n hn j m hm => ?_, h.issued_ne, h.stored_issued,
    h.spent, h.gone, h.once, h.none_late⟩
  have hapart : hash m ≠ hash n := (hnew n hn).2.2 j m hm
  exact ⟨hapart.symm, hapart⟩

/- A token that is given out, whether or not its hash was stored. -/
theorem Inv.issue (h : Inv hash s) {i : ι} {n : Bytes} (hn : minted (s.pc i) = some n) (ok : Bool) :
    Inv hash (RefreshTokens.goto (record (write s ok (hash n)) [.issued n]) i .returned) := by
  have ne_stored : ∀ g ∈ (issued s.log).map hash, g ≠ s.stored →
      g ≠ if ok then hash n else s.stored := by
    intro g hg hst
    split
    · exact fun he => h.minted_new i n hn (he ▸ hg)
    · exact hst
  have keep : ∀ g, g ∈ (issued s.log).map hash ∧ g ≠ s.stored →
      g ∈ hash n :: (issued s.log).map hash ∧ g ≠ if ok then hash n else s.stored :=
    fun g hg => ⟨List.mem_cons_of_mem _ hg.1, ne_stored g hg.1 hg.2⟩
  refine ⟨forall_held_update i h.presented_ne nofun, forall_held_update i h.minted_ne nofun,
    ?_, held_apart_update i h.minted_apart nofun, ?_, ?_, fun g hg => keep g (h.spent g hg),
    fun g hg => keep g (h.gone g hg), h.once, h.none_late⟩
  · intro j m hj hm
    simp only [RefreshTokens.goto, Function.update_apply] at hj
    split at hj
    · cases hj
    · rcases List.mem_cons.mp hm with he | hold
      · exact ‹¬ j = i› (h.minted_apart j i m n hj hn he)
      · exact h.minted_new j m hj hold
  · intro g hg
    rcases List.mem_cons.mp hg with rfl | hold
    · exact h.minted_ne i n hn
    · exact h.issued_ne g hold
  · intro hst
    simp only [RefreshTokens.goto, record, write] at hst ⊢
    split
    · exact List.mem_cons_self
    · rename_i hok
      rw [if_neg hok] at hst
      exact List.mem_cons_of_mem _ (h.stored_issued hst)

/- A token is exchanged while the row holds its hash, which then leaves the row. -/
omit [DecidableEq ι] in
theorem Inv.exchange (h : Inv hash s) {t : Bytes} (ht : hash t ≠ []) (hst : s.stored = hash t) :
    Inv hash (record (write s true []) [.exchanged t]) := by
  have hmem : hash t ∈ (issued s.log).map hash := hst ▸ h.stored_issued (hst ▸ ht)
  have hspent : hash t ∉ (exchanged s.log).map hash := fun hin => (h.spent _ hin).2 hst.symm
  have hgone : hash t ∉ (revoked s.log).map hash := fun hin => (h.gone _ hin).2 hst.symm
  refine ⟨h.presented_ne, h.minted_ne, h.minted_new, h.minted_apart, h.issued_ne,
    fun hne => absurd rfl hne, ?_, fun g hg => ⟨(h.gone g hg).1, h.issued_ne g (h.gone g hg).1⟩,
    List.nodup_cons.mpr ⟨hspent, h.once⟩,
    fun hin => hgone (List.mem_map_of_mem hin), h.none_late⟩
  intro g hg
  have hin : g ∈ (issued s.log).map hash := by
    rcases List.mem_cons.mp hg with rfl | hold
    · exact hmem
    · exact (h.spent g hold).1
  exact ⟨hin, h.issued_ne g hin⟩

/- Nothing is stored after a logout, so that no token can be presented. -/
omit [DecidableEq ι] in
theorem Inv.logout (h : Inv hash s) {ok : Bool} (hok : ok = true ∨ s.stored = []) :
    Inv hash (record (write s ok []) [.loggedOut]) := by
  have hnil : (write s ok []).stored = [] := by
    rcases hok with rfl | hst
    · rfl
    · simp [write, hst]
  have clear : ∀ g ∈ (issued s.log).map hash,
      g ∈ (issued s.log).map hash ∧ g ≠ (write s ok []).stored :=
    fun g hg => ⟨hg, fun he => h.issued_ne g hg (he.trans hnil)⟩
  exact ⟨h.presented_ne, h.minted_ne, h.minted_new, h.minted_apart, h.issued_ne,
    fun hne => absurd hnil hne, fun g hg => clear g (h.spent g hg).1, clear, h.once, h.none_late⟩

theorem step_inv {readPool : Bool} {s' : State ι} {a : Act ι} (h : Inv hash s)
    (ho : Orderly hash s a) (hstep : step hash readPool s a = some s') : Inv hash s' := by
  cases a with
  | getUserByEmail i new =>
    obtain ⟨-, hs⟩ := Option.ite_none_right_eq_some.mp hstep
    cases new with
    | none => exact Option.some.inj hs ▸ h.goto i nofun nofun
    | some n =>
      refine Option.some.inj hs ▸ h.goto i nofun fun m hm => ?_
      exact Option.some.inj hm ▸ ho n rfl
  | updateLogin i ok =>
    simp only [step] at hstep
    split at hstep
    · rename_i n hpc
      exact Option.some.inj hstep ▸ h.issue (by rw [hpc]; rfl) ok
    · cases hstep
  | getUserIDByRefreshToken i token ok =>
    obtain ⟨-, hs⟩ := Option.ite_none_right_eq_some.mp hstep
    refine Option.some.inj hs ▸ ?_
    split
    · rename_i hfound
      refine h.goto i (fun t ht => ?_) nofun
      exact Option.some.inj ht ▸ hfound.2.1
    · exact h.goto i nofun nofun
  | getUser i new =>
    simp only [step] at hstep
    split at hstep
    · rename_i token hpc
      have hne : hash token ≠ [] := h.presented_ne i token (by rw [hpc]; rfl)
      cases new with
      | none => exact Option.some.inj hstep ▸ h.goto i nofun nofun
      | some n =>
        refine Option.some.inj hstep ▸ h.goto i (fun t ht => ?_) fun m hm => ?_
        · exact Option.some.inj ht ▸ hne
        · exact Option.some.inj hm ▸ ho n rfl
    · cases hstep
  | updateRefresh i ok =>
    simp only [step] at hstep
    split at hstep
    · rename_i token n hpc
      obtain ⟨rfl, hst⟩ := ho
      have hshown : presented (s.pc i) = some token := by rw [hpc]; rfl
      have hnew : minted (s.pc i) = some n := by rw [hpc]; rfl
      have hex := h.exchange (h.presented_ne i token hshown) (hst token hshown)
      exact Option.some.inj hstep ▸ hex.issue hnew true
    · cases hstep
  | updateLogout i ok =>
    obtain ⟨-, hs⟩ := Option.ite_none_right_eq_some.mp hstep
    exact Option.some.inj hs ▸ (h.logout ho).goto i nofun nofun
  | replicate =>
    exact Option.some.inj hstep ▸ ⟨h.presented_ne, h.minted_ne, h.minted_new, h.minted_apart,
      h.issued_ne, h.stored_issued, h.spent, h.gone, h.once, h.none_late⟩

omit [DecidableEq ι] in
theorem Inv.singleUse (h : Inv hash s) : SingleUse s.log :=
  fun t _ => List.nodup_iff_count_le_one.mp h.once.of_map t

/-- In every run whose updates find what was looked up, each refresh token is exchanged at
most once, and none after a logout that came after it was issued. -/
theorem refresh_tokens_single_use (hash : Bytes → Bytes) (readPool : Bool) {s : State ι}
    (hr : Reach (step hash readPool) (Orderly hash) start s) :
    SingleUse s.log ∧ NoneAfterLogout s.log := by
  have h : Inv hash s := hr.invariant _ (start_inv hash) fun _ _ _ h ho hs => step_inv h ho hs
  exact ⟨h.singleUse, h.none_late⟩

theorem refresh_after_refresh : ∃ s : State (Fin 4),
    Reach (step id true) (Orderly id) start s ∧
    s.log = [.loggedOut, .issued [3], .exchanged [2], .issued [2], .exchanged [1], .issued [1]] ∧
    SingleUse s.log ∧ NoneAfterLogout s.log := by
  let acts : List (Act (Fin 4)) := [.getUserByEmail 0 (some [1]), .updateLogin 0 true, .replicate,
    .getUserIDByRefreshToken 1 [1] true, .getUser 1 (some [2]), .updateRefresh 1 true, .replicate,
    .getUserIDByRefreshToken 2 [2] true, .getUser 2 (some [3]), .updateRefresh 2 true,
    .updateLogout 3 true]
  have hguard : Guarded (step id true) (Orderly id) acts start := by decide
  obtain ⟨s, hr, hlog⟩ := reach_of_guarded_view hguard State.log
    (show (exec (step id true) acts start).map State.log = some
      [.loggedOut, .issued [3], .exchanged [2], .issued [2], .exchanged [1], .issued [1]] from rfl)
  exact ⟨s, hr, hlog, refresh_tokens_single_use id true hr⟩

end EdgeDispatch.ControlPlane.RefreshTokens
