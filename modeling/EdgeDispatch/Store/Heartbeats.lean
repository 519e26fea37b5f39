import EdgeDispatch.Lib.ExpiringKeys
import EdgeDispatch.Store.Nodes
import Mathlib.Data.List.Chain

/-! # Heartbeats in Redis (internal/store/pg.go:606-614, 734-833, 855-893)

The last heartbeat of a node is a hash that expires. A save sets the time to live, and so
does every read that finds the hash. Beside the calls the goroutine of NewRedisStore deletes
hashes with an old ts. -/

namespace EdgeDispatch.Store.Heartbeats
open Lib Store.Nodes
open ExpiringKeys (Keys second)

/-- What go-redis sends for a duration: whole seconds, and 1 for a part of the first. -/
def formatSec (d : ℤ) : ℤ := if 0 < d ∧ d < second then 1 else d.tdiv second

def hKey (nodeID : String) : String := "h:" ++ nodeID

/- The seconds that a read sets. -/
def readTTL : ℤ := 60

section Calls
variable {δ η : Type} (unmarshalHB : δ → Option η)

/-- The fields of the hash that are read back ("lseen" is not). -/
structure Hash (δ : Type) where
  d : δ
  ts : Int64

/- The pipeline HSET, EXPIRE. -/
def saveHeartbeat (s : Keys (Hash δ)) (n : String) (data : Hash δ) (ttl : ℤ) : Keys (Hash δ) :=
  ExpiringKeys.expire (ExpiringKeys.set s (hKey n) data) (hKey n) (formatSec ttl)

/- `heartbeatCheckScript`; its HSET of "lseen" leaves the deadline as it is. -/
def heartbeatCheck (s : Keys (Hash δ)) (n : String) : Keys (Hash δ) :=
  ExpiringKeys.expire s (hKey n) readTTL

def keyExists (s : Keys (Hash δ)) (n : String) : Bool := (ExpiringKeys.get s (hKey n)).isSome

/-- If the script gives an error the answer is that of EXISTS, and no if that fails too
(`existsOk` is whether it succeeds). -/
def hasHeartbeat (s : Keys (Hash δ)) (n : String) (script : Outcome) (existsOk : Bool) :
    Keys (Hash δ) × Bool :=
  match script with
  | .ok => (heartbeatCheck s n, keyExists s n)
  | .lost => (heartbeatCheck s n, existsOk && keyExists (heartbeatCheck s n) n)
  | .refused => (s, existsOk && keyExists s n)

inductive GetError where
  | failed
  | redisNil
  | unmarshal
  deriving DecidableEq

/- `expireOk`: whether the EXPIRE, whose error nobody looks at, is executed. -/
def getHeartbeat (s : Keys (Hash δ)) (n : String) (hgetOk expireOk : Bool) :
    Keys (Hash δ) × Except GetError η :=
  if hgetOk = false then (s, .error .failed)
  else match ExpiringKeys.get s (hKey n) with
    | none => (s, .error .redisNil)
    | some data =>
      match unmarshalHB data.d with
      | none => (s, .error .unmarshal)
      | some hb =>
        (if expireOk then ExpiringKeys.expire s (hKey n) readTTL else s, .ok hb)

/- One turn of the loop; `read` is what the pipeline returned for each node. -/
def refreshOne (read : String → Option η) (expireOk : String → Bool) (s : Keys (Hash δ))
    (n : String) : Keys (Hash δ) :=
  if (read n).isSome ∧ expireOk n = true then ExpiringKeys.expire s (hKey n) readTTL else s

def getAllHeartbeats (s : Keys (Hash δ)) (ids : List String) (pipeOk : Bool)
    (expireOk : String → Bool) : Keys (Hash δ) × Except GetError (String → Option η) :=
  if ids = [] then (s, .ok fun _ => none)
  else if pipeOk = false then (s, .error .failed)
  else
    let read n := (ExpiringKeys.get s (hKey n)).bind fun data => unmarshalHB data.d
    (ids.foldl (refreshOne read expireOk) s, .ok fun n => if n ∈ ids then read n else none)

/- What `cleanupStale` asks of a key that SCAN gave it; `unix` is time.Now().Unix(). -/
def isStale (s : Keys (Hash δ)) (n : String) (unix : Int64) (hgetOk : Bool) : Bool :=
  hgetOk && (ExpiringKeys.get s (hKey n)).any fun data => decide (300 < unix - data.ts)

/- The HGET and the DEL of `cleanupStale` are two commands, with others between them. -/
inductive Call (δ : Type) where
  | save (n : String) (data : Hash δ) (ttl : ℤ)
  | has (n : String) (script : Outcome) (existsOk : Bool)
  | get (n : String) (hgetOk expireOk : Bool)
  | getAll (ids : List String) (pipeOk : Bool) (expireOk : String → Bool)
  | hgetTS (n : String) (unix : Int64) (hgetOk : Bool)
  | del (i : ℕ) (delOk : Bool)

/-- A call and the time since the one before it. -/
structure Timed (δ : Type) where
  wait : ℕ
  call : Call δ

/-- Redis, and the nodes whose keys the control planes are about to delete. -/
structure Redis (δ : Type) where
  keys : Keys (Hash δ)
  stale : List String

def Redis.empty : Redis δ := ⟨ExpiringKeys.empty, []⟩

def Redis.wait (s : Redis δ) (w : ℕ) : Redis δ := { s with keys := ExpiringKeys.wait s.keys w }

def Redis.get (s : Redis δ) (n : String) : Option (Hash δ) := ExpiringKeys.get s.keys (hKey n)

def perform (s : Redis δ) : Call δ → Redis δ
  | .save n data ttl => { s with keys := saveHeartbeat s.keys n data ttl }
  | .has n script existsOk => { s with keys := (hasHeartbeat s.keys n script existsOk).1 }
  | .get n hgetOk expireOk =>
    { s with keys := (getHeartbeat unmarshalHB s.keys n hgetOk expireOk).1 }
  | .getAll ids pipeOk expireOk =>
    { s with keys := (getAllHeartbeats unmarshalHB s.keys ids pipeOk expireOk).1 }
  | .hgetTS n unix hgetOk =>
    if isStale s.keys n unix hgetOk then { s with stale := s.stale ++ [n] } else s
  | .del i delOk =>
    match s.stale[i]? with
    | none => s
    | some n => ⟨if delOk then ExpiringKeys.delete s.keys (hKey n) else s.keys, s.stale.eraseIdx i⟩

def next (s : Redis δ) (x : Timed δ) : Redis δ := perform unmarshalHB (s.wait x.wait) x.call

def run (s : Redis δ) (calls : List (Timed δ)) : Redis δ := calls.foldl (next unmarshalHB) s

/-! ### The times of a sequence of calls -/

/-- A save of a node, with the calls up to it and those after it. -/
structure Save (δ : Type) where
  before : List (Timed δ)
  data : Hash δ
  ttl : ℤ
  after : List (Timed δ)

def latestSave (n : String) : List (Timed δ) → Option (Save δ)
  | [] => none
  | x :: rest =>
    match latestSave n rest, x.call with
    | some r, _ => some { r with before := x :: r.before }
    | none, .save m data ttl => if m = n then some ⟨[x], data, ttl, rest⟩ else none
    | none, _ => none

def elapsed (calls : List (Timed δ)) : ℕ := (calls.map Timed.wait).sum

/- Whether a call sets the deadline anew if it finds the node's heartbeat, `data`. -/
def refreshes (n : String) (data : δ) : Call δ → Bool
  | .has m script _ => decide (m = n ∧ script ≠ .refused)
  | .get m hgetOk expireOk => decide (m = n) && hgetOk && expireOk && (unmarshalHB data).isSome
  | .getAll ids pipeOk expireOk =>
    decide (n ∈ ids) && pipeOk && expireOk n && (unmarshalHB data).isSome
  | _ => false

/-- The times of these calls, if the first of `calls` comes after `t`. -/
def refreshTimes (n : String) (data : δ) : ℕ → List (Timed δ) → List ℕ
  | _, [] => []
  | t, x :: rest =>
    if refreshes unmarshalHB n data x.call then
      (t + x.wait) :: refreshTimes n data (t + x.wait) rest
    else refreshTimes n data (t + x.wait) rest

def deletes (n : String) (s : Redis δ) : Call δ → Bool
  | .del i delOk => delOk && decide (s.stale[i]? = some n)
  | _ => false

/-- Whether a DEL of the node's key is executed in a sequence of calls. -/
def swept (n : String) : Redis δ → List (Timed δ) → Bool
  | _, [] => false
  | s, x :: rest => deletes n s x.call || swept n (next unmarshalHB s x) rest

/-- Reads at the times `reads` after the save keep the heartbeat until `t`: the first of
them comes within its `life`, each other one and `t` within 60 s of the one before. -/
def Lasts (life : ℕ) (reads : List ℕ) (t : ℕ) : Prop :=
  (∀ v ∈ (reads ++ [t]).head?, v < life) ∧
    (reads ++ [t]).IsChain fun a b => b < a + readTTL.toNat * second

instance (life : ℕ) (reads : List ℕ) (t : ℕ) : Decidable (Lasts life reads t) :=
  inferInstanceAs (Decidable (_ ∧ _))

theorem lasts_nil (life t : ℕ) : Lasts life [] t ↔ t < life := by
  simp [Lasts]

theorem lasts_append (life : ℕ) (reads : List ℕ) (v t : ℕ) :
    Lasts life (reads ++ [v]) t ↔ Lasts life reads v ∧ t < v + readTTL.toNat * second := by
  have hhead : ((reads ++ [v]) ++ [t]).head? = (reads ++ [v]).head? := by
    simp [List.head?_append]
  unfold Lasts
  rw [hhead, List.isChain_append]
  simp [and_assoc]

theorem hKey_inj {m n : String} (h : hKey m = hKey n) : m = n := by
  simpa [hKey] using h

/-! ### What a call does to the deadline of one node -/

theorem get_saveHeartbeat (s : Keys (Hash δ)) (n : String) (data : Hash δ) (ttl : ℤ) (w : ℕ) :
    ExpiringKeys.get (ExpiringKeys.wait (saveHeartbeat s n data ttl) w) (hKey n) =
      if w < (formatSec ttl).toNat * second then some data else none := by
  unfold saveHeartbeat
  rw [ExpiringKeys.get_wait_expire, ExpiringKeys.get_set]

/- A read of `m` as `n` sees it. -/
theorem get_read (s : Keys (Hash δ)) (m n : String) (w : ℕ) :
    ExpiringKeys.get (ExpiringKeys.wait (ExpiringKeys.expire s (hKey m) readTTL) w) (hKey n) =
      if m = n then if w < readTTL.toNat * second then ExpiringKeys.get s (hKey n) else none
      else ExpiringKeys.get (ExpiringKeys.wait s w) (hKey n) := by
  by_cases hmn : m = n
  · subst hmn
    rw [if_pos rfl, ExpiringKeys.get_wait_expire]
  · rw [if_neg hmn]
    exact ExpiringKeys.get_wait_expire_of_ne s (fun he => hmn (hKey_inj he).symm) _ w

/- A read that may have failed: `c` says whether the EXPIRE was executed. -/
theorem get_readIf (s : Keys (Hash δ)) (m n : String) (c : Prop) [Decidable c] (w : ℕ) :
    ExpiringKeys.get (ExpiringKeys.wait
        (if c then ExpiringKeys.expire s (hKey m) readTTL else s) w) (hKey n) =
      if m = n ∧ c then
        if w < readTTL.toNat * second then ExpiringKeys.get s (hKey n) else none
      else ExpiringKeys.get (ExpiringKeys.wait s w) (hKey n) := by
  by_cases hc : c
  · simp only [hc, if_true, and_true]
    exact get_read s m n w
  · simp only [hc, if_false, and_false]

theorem readTTL_pos : 0 < readTTL.toNat * second := by decide

theorem get_refreshAll (read : String → Option η) (expireOk : String → Bool) (ids : List String)
    (s : Keys (Hash δ)) (n : String) (w : ℕ) :
    ExpiringKeys.get (ExpiringKeys.wait (ids.foldl (refreshOne read expireOk) s) w) (hKey n) =
      if n ∈ ids ∧ (read n).isSome ∧ expireOk n = true then
        if w < readTTL.toNat * second then ExpiringKeys.get s (hKey n) else none
      else ExpiringKeys.get (ExpiringKeys.wait s w) (hKey n) := by
  induction ids generalizing s with
  | nil => simp
  | cons m rest ih =>
    have hone : ∀ w, ExpiringKeys.get (ExpiringKeys.wait (refreshOne read expireOk s m) w)
        (hKey n) = _ := fun w => get_readIf s m n _ w
    have hnow : ExpiringKeys.get (refreshOne read expireOk s m) (hKey n) =
        ExpiringKeys.get s (hKey n) := by
      have h0 := hone 0
      rw [if_pos readTTL_pos] at h0
      exact h0.trans (ite_self _)
    rw [List.foldl_cons, ih, hone, hnow]
    by_cases hmn : m = n
    · subst hmn
      by_cases hc : (read m).isSome ∧ expireOk m = true
      · simp [hc]
      · simp [hc]
    · simp [hmn, Ne.symm hmn]

theorem getHeartbeat_state (s : Keys (Hash δ)) (m : String) (hgetOk expireOk : Bool) :
    (getHeartbeat unmarshalHB s m hgetOk expireOk).1 =
      if hgetOk = true ∧ expireOk = true ∧
          ((ExpiringKeys.get s (hKey m)).bind fun data => unmarshalHB data.d).isSome then
        ExpiringKeys.expire s (hKey m) readTTL
      else s := by
  unfold getHeartbeat
  cases hgetOk with
  | false => simp
  | true =>
    cases ExpiringKeys.get s (hKey m) with
    | none => simp
    | some data =>
      cases hun : unmarshalHB data.d with
      | none => simp [hun]
      | some hb => cases expireOk <;> simp [hun]

theorem getAllHeartbeats_state (s : Keys (Hash δ)) (ids : List String) (pipeOk : Bool)
    (expireOk : String → Bool) :
    (getAllHeartbeats unmarshalHB s ids pipeOk expireOk).1 =
      if pipeOk then
        ids.foldl (refreshOne (fun n => (ExpiringKeys.get s (hKey n)).bind fun data =>
          unmarshalHB data.d) expireOk) s
      else s := by
  unfold getAllHeartbeats
  cases ids with
  | nil => simp
  | cons m rest => cases pipeOk <;> simp

/- A read that is not answered leaves an absent key absent. -/
theorem get_readIf_data {s : Keys (Hash δ)} {n : String} {data : Hash δ}
    (hdata : ∀ d, ExpiringKeys.get s (hKey n) = some d → d = data) (b : Bool) (w : ℕ) :
    (if b = true ∧
        ((ExpiringKeys.get s (hKey n)).bind fun data => unmarshalHB data.d).isSome then
      if w < readTTL.toNat * second then ExpiringKeys.get s (hKey n) else none
    else ExpiringKeys.get (ExpiringKeys.wait s w) (hKey n)) =
      if (b && (unmarshalHB data.d).isSome) = true then
        if w < readTTL.toNat * second then ExpiringKeys.get s (hKey n) else none
      else ExpiringKeys.get (ExpiringKeys.wait s w) (hKey n) := by
  cases hget : ExpiringKeys.get s (hKey n) with
  | none => simp [ExpiringKeys.get_wait_of_none hget]
  | some d =>
    rw [hdata d hget]
    simp

theorem get_del (s : Redis δ) (i : ℕ) (delOk : Bool) (n : String) (w : ℕ) :
    ((perform unmarshalHB s (.del i delOk)).wait w).get n =
      if deletes n s (.del i delOk) then none else (s.wait w).get n := by
  unfold Redis.wait Redis.get
  rcases Option.eq_none_or_eq_some s.stale[i]? with hi | ⟨m, hi⟩
  · simp [perform, deletes, hi]
  · simp only [perform, deletes, hi]
    cases delOk with
    | false => simp
    | true =>
      by_cases hmn : m = n
      · subst hmn
        simp [ExpiringKeys.get_wait_delete]
      · have hne : hKey n ≠ hKey m := fun he => hmn (hKey_inj he).symm
        simp only [if_true, ExpiringKeys.delete, ExpiringKeys.get_wait_write_of_ne _ hne]
        simp [hmn]

/-- Any call but a save of the node itself. If the heartbeat is there, it is `data`. -/
theorem get_perform (n : String) (data : Hash δ) (s : Redis δ) (c : Call δ)
    (hsave : ∀ d ttl, c ≠ .save n d ttl) (hdata : ∀ d, s.get n = some d → d = data) (w : ℕ) :
    ((perform unmarshalHB s c).wait w).get n =
      if deletes n s c then none
      else if refreshes unmarshalHB n data.d c then
        if w < readTTL.toNat * second then s.get n else none
      else (s.wait w).get n := by
  have hread := get_readIf_data unmarshalHB hdata
  unfold Redis.get Redis.wait
  cases c with
  | save m d ttl =>
    have hmn : hKey n ≠ hKey m := by
      intro he
      have := hKey_inj he
      subst this
      exact hsave d ttl rfl
    show ExpiringKeys.get (ExpiringKeys.wait (ExpiringKeys.expire _ _ _) w) _ = _
    rw [ExpiringKeys.get_wait_expire_of_ne _ hmn, ExpiringKeys.get_wait_set_of_ne _ hmn]
    rfl
  | has m script existsOk =>
    cases script with
    | ok | lost =>
      simp only [perform, hasHeartbeat, heartbeatCheck, get_read, refreshes, deletes]
      simp
    | refused =>
      simp only [perform, hasHeartbeat, refreshes, deletes]
      simp
  | get m hgetOk expireOk =>
    simp only [perform, getHeartbeat_state, get_readIf, refreshes, deletes]
    by_cases hmn : m = n
    · subst hmn
      have hb := hread (hgetOk && expireOk) w
      simpa [and_assoc] using hb
    · simp [hmn]
  | getAll ids pipeOk expireOk =>
    simp only [perform, getAllHeartbeats_state, refreshes, deletes]
    cases pipeOk with
    | false => simp
    | true =>
      simp only [if_true, get_refreshAll]
      by_cases hn : n ∈ ids
      · have hb := hread (expireOk n) w
        simpa [hn, and_comm] using hb
      · simp [hn]
  | hgetTS m unix hgetOk =>
    simp only [perform, refreshes, deletes]
    split <;> rfl
  | del i delOk => exact get_del unmarshalHB s i delOk n w

/-! ### Whole sequences of calls -/

theorem get_run_absent (n : String) (calls : List (Timed δ))
    (hno : ∀ x ∈ calls, ∀ d ttl, x.call ≠ .save n d ttl) {s : Redis δ} (h : s.get n = none)
    (w : ℕ) : ((run unmarshalHB s calls).wait w).get n = none := by
  induction calls generalizing s with
  | nil => exact ExpiringKeys.get_wait_of_none h w
  | cons x rest ih =>
    have hnow : (s.wait x.wait).get n = none := ExpiringKeys.get_wait_of_none h _
    refine ih (fun y hy => hno y (List.mem_cons_of_mem x hy)) ?_
    cases hget : (next unmarshalHB s x).get n with
    | none => rfl
    | some d =>
      have hcall := get_perform unmarshalHB n d (s.wait x.wait) x.call
        (hno x List.mem_cons_self) (by simp [hnow]) 0
      have hlater : ((s.wait x.wait).wait 0).get n = none :=
        ExpiringKeys.get_wait_of_none hnow 0
      rw [hnow, hlater, ite_self, ite_self, ite_self] at hcall
      exact absurd (hget.symm.trans hcall) (by simp)

theorem refreshTimes_cons (n : String) (data : δ) (t : ℕ) (x : Timed δ) (rest : List (Timed δ)) :
    refreshTimes unmarshalHB n data t (x :: rest) =
      refreshTimes unmarshalHB n data t [x] ++
        refreshTimes unmarshalHB n data (t + x.wait) rest := by
  simp only [refreshTimes]
  split <;> simp

section Step
variable {n : String} {data : Hash δ} {life : ℕ} {s : Redis δ} {reads : List ℕ} {t : ℕ}
  (h : ∀ w, (s.wait w).get n = if Lasts life reads (t + w) then some data else none)
include h

/- One call, which may be a read at `t + x.wait`. The fate of the heartbeat is said for any
   further wait `w`, so that the next call can use it. -/
theorem get_next {x : Timed δ} (hsave : ∀ d ttl, x.call ≠ .save n d ttl) (w : ℕ) :
    ((next unmarshalHB s x).wait w).get n =
      if deletes n s x.call then none
      else if Lasts life (reads ++ refreshTimes unmarshalHB n data.d t [x]) (t + x.wait + w) then
        some data
      else none := by
  have hdata : ∀ d, (s.wait x.wait).get n = some d → d = data := by
    intro d hd
    rw [h] at hd
    split at hd
    · exact (Option.some.inj hd).symm
    · cases hd
  have hdel : deletes n (s.wait x.wait) x.call = deletes n s x.call := by
    cases x.call <;> rfl
  have hwait : (s.wait x.wait).wait w = s.wait (x.wait + w) := by
    simp [Redis.wait, ExpiringKeys.wait_wait]
  rw [next, get_perform unmarshalHB n data (s.wait x.wait) x.call hsave hdata, hdel, hwait, h, h,
    ← Nat.add_assoc]
  by_cases hr : refreshes unmarshalHB n data.d x.call = true
  · simp only [refreshTimes, hr, if_true, lasts_append, Nat.add_lt_add_iff_left]
    grind
  · simp [refreshTimes, hr]

theorem get_run (calls : List (Timed δ)) (hno : ∀ x ∈ calls, ∀ d ttl, x.call ≠ .save n d ttl)
    (w : ℕ) :
    ((run unmarshalHB s calls).wait w).get n =
      if swept unmarshalHB n s calls = false ∧
        Lasts life (reads ++ refreshTimes unmarshalHB n data.d t calls) (t + elapsed calls + w)
      then some data else none := by
  induction calls generalizing s reads t with
  | nil => simpa [run, refreshTimes, elapsed, swept] using h w
  | cons x rest ih =>
    have hrest := fun y hy => hno y (List.mem_cons_of_mem x hy)
    have hnext := get_next unmarshalHB h (hno x List.mem_cons_self)
    have htime : t + elapsed (x :: rest) + w = t + x.wait + elapsed rest + w := by
      simp only [elapsed, List.map_cons, List.sum_cons]
      omega
    rw [htime, refreshTimes_cons, ← List.append_assoc]
    show ((run unmarshalHB (next unmarshalHB s x) rest).wait w).get n = _
    by_cases hd : deletes n s x.call = true
    · have hgone : (next unmarshalHB s x).get n = none := (hnext 0).trans (if_pos hd)
      rw [get_run_absent unmarshalHB n rest hrest hgone]
      simp [swept, hd]
    · simp only [hd] at hnext
      rw [ih hnext hrest]
      simp [swept, hd]

end Step

variable {calls : List (Timed δ)}

theorem latestSave_eq_none {n : String} (h : latestSave n calls = none) :
    ∀ x ∈ calls, ∀ d ttl, x.call ≠ .save n d ttl := by
  induction calls with
  | nil => exact fun x hx => nomatch hx
  | cons x rest ih =>
    unfold latestSave at h
    split at h
    · cases h
    · rename_i m data ttl hrest hx
      split at h
      · cases h
      · rename_i hmn
        intro y hy d ttl' hcall
        rcases List.mem_cons.mp hy with rfl | hy
        · rw [hx] at hcall
          cases hcall
          exact hmn rfl
        · exact ih hrest y hy d ttl' hcall
    · rename_i hrest hx
      intro y hy d ttl' hcall
      rcases List.mem_cons.mp hy with rfl | hy
      · exact hx n d ttl' hcall
      · exact ih hrest y hy d ttl' hcall

theorem latestSave_eq_some {n : String} {x : Save δ} (h : latestSave n calls = some x) :
    (∀ y ∈ x.after, ∀ d ttl, y.call ≠ .save n d ttl) ∧
      ∃ earlier g, x.before = earlier ++ [⟨g, .save n x.data x.ttl⟩] ∧
        calls = x.before ++ x.after := by
  induction calls generalizing x with
  | nil => cases h
  | cons y rest ih =>
    unfold latestSave at h
    split at h
    · rename_i r hrest
      cases h
      obtain ⟨hno, earlier, g, hbefore, hcalls⟩ := ih hrest
      refine ⟨hno, y :: earlier, g, ?_, ?_⟩
      · simp [hbefore]
      · simp [← hcalls]
    · rename_i m d ttl' hrest hy
      split at h
      · rename_i hmn
        cases h
        subst hmn
        refine ⟨latestSave_eq_none hrest, [], y.wait, ?_, rfl⟩
        rw [← hy]
        rfl
      · cases h
    · cases h

/-- The heartbeat of a node is there: it is read in time, and not deleted. -/
def Kept (n : String) (x : Save δ) (w : ℕ) : Prop :=
  swept unmarshalHB n (run unmarshalHB Redis.empty x.before) x.after = false ∧
    Lasts ((formatSec x.ttl).toNat * second) (refreshTimes unmarshalHB n x.data.d 0 x.after)
      (elapsed x.after + w)

instance (n : String) (x : Save δ) (w : ℕ) : Decidable (Kept unmarshalHB n x w) :=
  inferInstanceAs (Decidable (_ ∧ _))

/-- The heartbeat after any sequence of calls. -/
theorem get_run_latestSave (n : String) (calls : List (Timed δ)) (w : ℕ) :
    ((run unmarshalHB Redis.empty calls).wait w).get n =
      (latestSave n calls).bind fun x => if Kept unmarshalHB n x w then some x.data else none := by
  cases hl : latestSave n calls with
  | none => exact get_run_absent unmarshalHB n calls (latestSave_eq_none hl) rfl w
  | some x =>
    obtain ⟨hno, earlier, g, hbefore, hcalls⟩ := latestSave_eq_some hl
    have hsaved : ∀ w, ((run unmarshalHB Redis.empty x.before).wait w).get n =
        if Lasts ((formatSec x.ttl).toNat * second) [] (0 + w) then some x.data else none := by
      intro w
      simp only [lasts_nil, Nat.zero_add, hbefore, run, List.foldl_append]
      exact get_saveHeartbeat _ n x.data x.ttl w
    have hafter := get_run unmarshalHB hsaved x.after hno w
    rw [List.nil_append, Nat.zero_add, run, run, ← List.foldl_append, ← hcalls] at hafter
    exact hafter

theorem hasHeartbeat_answer (s : Keys (Hash δ)) (n : String) (script : Outcome) (existsOk : Bool) :
    (hasHeartbeat s n script existsOk).2 = true ↔
      (script = .ok ∨ existsOk = true) ∧ (ExpiringKeys.get s (hKey n)).isSome := by
  have hcheck : keyExists (heartbeatCheck s n) n = keyExists s n := by
    have hget := get_read s n n 0
    rw [if_pos rfl, if_pos readTTL_pos] at hget
    exact congrArg Option.isSome hget
  unfold keyExists at hcheck
  cases script <;> simp [hasHeartbeat, keyExists, hcheck]

/-- HasHeartbeat, `w` after the calls, is true exactly if the latest save is less than its
TTL ago. -/
def SaveDecides (calls : List (Timed δ)) (n : String) (w : ℕ) (script : Outcome)
    (existsOk : Bool) : Prop :=
  (hasHeartbeat ((run unmarshalHB Redis.empty calls).wait w).keys n script existsOk).2 = true ↔
    ∃ x, latestSave n calls = some x ∧ ((elapsed x.after + w : ℕ) : ℤ) < x.ttl

/-- That is so if and only if the reads since the save come at times that keep the
heartbeat just for the TTL, no DEL of `cleanupStale` comes in that time, and HasHeartbeat
itself gets an answer from Redis. -/
theorem save_decides_iff (calls : List (Timed δ)) (n : String) (w : ℕ) (script : Outcome)
    (existsOk : Bool) :
    SaveDecides unmarshalHB calls n w script existsOk ↔
      ∀ x, latestSave n calls = some x →
        (((script = .ok ∨ existsOk = true) ∧ Kept unmarshalHB n x w) ↔
          ((elapsed x.after + w : ℕ) : ℤ) < x.ttl) := by
  have hget := get_run_latestSave unmarshalHB n calls w
  unfold Redis.get at hget
  unfold SaveDecides
  rw [hasHeartbeat_answer, hget]
  cases hl : latestSave n calls with
  | none => simp
  | some x => simp

end Calls

/- A TTL of 20 min and a ts that is 10 min old when the heartbeats are swept. -/
example : (hasHeartbeat ((run some Redis.empty [⟨0, .save "a" ⟨(), 1000⟩ (1200 * second)⟩,
    ⟨600 * second, .hgetTS "a" 1600 true⟩, ⟨0, .del 0 true⟩]).wait (100 * second)).keys "a"
    .ok true).2 = false := by
  decide +kernel

/- A heartbeat with a TTL of 30 s is looked at after 20 s, and is there after 50 s. -/
theorem read_heartbeat_outlives_ttl :
    let calls : List (Timed Unit) :=
      [⟨0, .save "a" ⟨(), 1000⟩ (30 * second)⟩, ⟨20 * second, .has "a" .ok true⟩]
    (hasHeartbeat ((run some Redis.empty calls).wait (30 * second)).keys "a" .ok true).2 = true ∧
      ¬ SaveDecides some calls "a" (30 * second) .ok true := by
  intro calls
  have hthere : (hasHeartbeat ((run some Redis.empty calls).wait (30 * second)).keys "a"
      .ok true).2 = true := by
    decide +kernel
  refine ⟨hthere, fun hdec => ?_⟩
  obtain ⟨x, hl, hlt⟩ := hdec.mp hthere
  have hsave : latestSave "a" calls =
      some ⟨calls.take 1, ⟨(), 1000⟩, (30 * second : ℤ), calls.drop 1⟩ := rfl
  rw [hsave] at hl
  cases hl
  exact absurd hlt (by decide)

end EdgeDispatch.Store.Heartbeats
