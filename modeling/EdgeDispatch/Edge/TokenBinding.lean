import EdgeDispatch.Edge.TokenCheck
import EdgeDispatch.Lib.NetAddr

/-! # What a dispatch token binds (internal/auth/token.go)

A token stands for one payload, and the payload for the network of the client that asked.
The prefix is computed and written by the control plane (`ComputeIPPrefix`), goes through
the token as text and is parsed again at the edge (`MatchesIP`); the text forms are those
of Go's net package. -/

namespace EdgeDispatch.Edge.TokenBinding
open Lib.ByteString Lib.GoStrings Lib.NetIP
open Lib.NetAddr Auth.Token Edge.TokenCheck

/-! ### Payloads -/

/-- JSON gives the payload back. -/
def RoundTrips (C : Codecs) (p : TokenPayload) : Prop := C.unmarshal (C.marshal p) = some p

/- This is so where both texts are valid UTF-8. -/
theorem roundTrips_iff (C : Codecs) (p : TokenPayload) :
    RoundTrips C p ↔ C.clean p.key = p.key ∧ C.clean p.ipPrefix = p.ipPrefix := by
  rw [RoundTrips, C.unmarshal_marshal]
  cases p
  simp

/-- A signed payload verifies until it expires, and nothing verifies that is not a signed
payload, split from its signature at the first dot. -/
theorem verify_complete_and_sound (C : Codecs) (secret : Bytes) :
    (∀ issued now p, RoundTrips C p → p.exp ≠ 0 → unix now ≤ p.exp →
      verify C secret now (sign C secret issued p) = .ok p) ∧
    ∀ now token p, verify C secret now token = .ok p ↔ ∃ encoded payloadBytes,
      token = encoded ++ 46 :: signature C secret encoded ∧ 46 ∉ encoded ∧
      C.decode encoded = some payloadBytes ∧ C.unmarshal payloadBytes = some p ∧
      unix now ≤ p.exp := by
  refine ⟨fun issued now p hjson hexp hlive => ?_, verify_eq_ok_iff C secret⟩
  have hsame : withExpiry issued p = p := if_neg hexp
  refine (verify_eq_ok_iff C secret now _ p).mpr ⟨C.encode (C.marshal p), C.marshal p, ?_,
    C.encode_no_dot _, C.decode_encode _, hjson, hlive⟩
  simp only [sign, hsame]

theorem verify_complete_and_sound_of_unary :
    verify unaryCodecs [1] (10 ^ 9) (sign unaryCodecs [1] 0 ⟨lit "a", 60, []⟩) =
      .ok ⟨lit "a", 60, []⟩ :=
  (verify_complete_and_sound unaryCodecs [1]).1 0 (10 ^ 9) ⟨lit "a", 60, []⟩
    ((roundTrips_iff _ _).mpr ⟨rfl, rfl⟩) (by decide) (by decide)

/-! ### Networks -/

/- The text functions of the net package. -/
def goNet : NetText := ⟨parseIP, parseCIDR, ipNetString, ipNetString_ascii⟩

inductive Family where
  | ipv4
  | ipv6
  deriving DecidableEq

/- The family of an address and its leading 24 or 64 bits. An IPv4 address in IPv6 form is
   an IPv4 address. -/
def network (ip : Bytes) : Family × Bytes :=
  match to4 ip with
  | some v4 => (.ipv4, v4.take 3)
  | none => (.ipv6, ip.take 8)

/- The masked address, as `computeIPPrefix` writes it into the network. -/
def maskedTo (k n : ℕ) (ip : Bytes) : Bytes := ip.take k ++ List.replicate (n - k) 0

variable {ip : Bytes}

theorem maskedTo_length {k n : ℕ} (hlen : ip.length = n) (hk : k ≤ n) :
    (maskedTo k n ip).length = n := by
  rw [maskedTo, List.length_append, List.length_take, List.length_replicate]
  omega

theorem maskedTo_take {k n : ℕ} (hlen : ip.length = n) (hk : k ≤ n) :
    (maskedTo k n ip).take k = ip.take k :=
  List.take_left' (by rw [List.length_take]; omega)

theorem andBytes_maskedTo {k n : ℕ} (hlen : ip.length = n) (hk : k ≤ n) :
    andBytes (maskedTo k n ip) (byteMask k n) = maskedTo k n ip := by
  rw [andBytes_byteMask (maskedTo_length hlen hk) hk, maskedTo_take hlen hk, maskedTo]

/- Two addresses that agree under the mask have the same first bytes. -/
theorem andBytes_eq_iff {k n : ℕ} {ip' : Bytes} (hlen : ip.length = n) (hlen' : ip'.length = n)
    (hk : k ≤ n) :
    andBytes (maskedTo k n ip) (byteMask k n) = andBytes ip' (byteMask k n) ↔
      ip.take k = ip'.take k := by
  rw [andBytes_maskedTo hlen hk, maskedTo, andBytes_byteMask hlen' hk]
  exact List.append_left_inj _

theorem maskIP_of_length {mask : Bytes} (h : ip.length = mask.length) :
    maskIP ip mask = some (andBytes ip mask) := by
  unfold maskIP
  have hmask : ¬ (mask.length = 16 ∧ ip.length = 4 ∧ mask.take 12 = List.replicate 12 0xff) := by
    omega
  have hip : ¬ (mask.length = 4 ∧ ip.length = 16 ∧ ip.take 12 = v4InV6Prefix) := by
    omega
  simp only [if_neg hmask, if_neg hip, if_pos h]

/- Behind eight zero bytes there is no embedded IPv4 address. -/
theorem to4_maskedTo (h : ip.length = 16) : to4 (maskedTo 8 16 ip) = none := by
  have hlen := maskedTo_length h (by decide : 8 ≤ 16)
  have htake : (maskedTo 8 16 ip).take 12 = ip.take 8 ++ List.replicate 4 0 := by
    have hfront : (ip.take 8).length = 8 := by rw [List.length_take]; omega
    rw [maskedTo, List.take_append, List.take_of_length_le (by omega), hfront, List.take_replicate]
    rfl
  unfold to4
  rw [if_neg (by omega), if_neg]
  rintro ⟨-, hpre⟩
  have hlast := congrArg List.getLast? (htake.symm.trans hpre)
  simp [v4InV6Prefix] at hlast

/- The network that `ComputeIPPrefix` makes of an address. -/
def networkOf (ip : Bytes) : IPNet :=
  match to4 ip with
  | some v4 => ⟨maskedTo 3 4 v4, byteMask 3 4⟩
  | none => ⟨maskedTo 8 16 ip, byteMask 8 16⟩

theorem computeIPPrefix_eq {a : Bytes} (ha : parseIP a = some ip) :
    computeIPPrefix goNet a = ipNetString (networkOf ip) := by
  have hlen := parseIP_length ha
  have hparse : goNet.parseIP a = some ip := ha
  unfold computeIPPrefix networkOf
  rw [hparse]
  cases hto : to4 ip with
  | some v4 =>
    have h4 := to4_length hto
    have hmask : maskIP v4 (byteMask 3 4) = some (maskedTo 3 4 v4) := by
      rw [maskIP_of_length h4, andBytes_byteMask h4 (by decide), maskedTo]
    simp only [hto, hmask, Option.getD_some]
    rfl
  | none =>
    have hmask : maskIP ip (byteMask 8 16) = some (maskedTo 8 16 ip) := by
      rw [maskIP_of_length hlen, andBytes_byteMask hlen (by decide), maskedTo]
    simp only [hto, hmask, Option.getD_some]
    rfl

theorem parseCIDR_networkOf (hip : ip.length = 16) :
    parseCIDR (ipNetString (networkOf ip)) = some (networkOf ip) := by
  unfold networkOf
  cases hto : to4 ip with
  | some v4 =>
    have h4 := to4_length hto
    have hle : 3 ≤ 4 := by decide
    exact parseCIDR_ipNetString_four (l := 24) (maskedTo_length h4 hle) (by decide) (by decide)
      (by decide) (by decide) (andBytes_maskedTo h4 hle)
  | none =>
    have hle : 8 ≤ 16 := by decide
    exact parseCIDR_ipNetString_six (l := 64) (maskedTo_length hip hle) (to4_maskedTo hip) (by decide)
      (by decide) (by decide) (by decide) (andBytes_maskedTo hip hle)

/- A network of IPv4 addresses has no IPv6 address in it, and the other way around. -/
theorem contains_networkOf {ip' : Bytes} (hip : ip.length = 16) (hip' : ip'.length = 16) :
    (networkOf ip).contains ip' = true ↔ network ip = network ip' := by
  unfold networkOf network
  cases hto : to4 ip with
  | some v4 =>
    have h4 := to4_length hto
    have hle : 3 ≤ 4 := by decide
    have hmlen := maskedTo_length h4 hle
    have hnn : networkNumberAndMask ⟨maskedTo 3 4 v4, byteMask 3 4⟩ =
        some (maskedTo 3 4 v4, byteMask 3 4) := by
      simp [networkNumberAndMask, to4, hmlen, byteMask]
    simp only [IPNet.contains, hnn]
    cases hto' : to4 ip' with
    | some w =>
      have hw := to4_length hto'
      simp [hmlen, hw, andBytes_eq_iff h4 hw hle]
    | none => simp [hmlen, hip']
  | none =>
    have hle : 8 ≤ 16 := by decide
    have hmlen := maskedTo_length hip hle
    have hnn : networkNumberAndMask ⟨maskedTo 8 16 ip, byteMask 8 16⟩ =
        some (maskedTo 8 16 ip, byteMask 8 16) := by
      simp [networkNumberAndMask, to4_maskedTo hip, hmlen, byteMask]
    simp only [IPNet.contains, hnn]
    cases hto' : to4 ip' with
    | some w =>
      have hw := to4_length hto'
      simp [hmlen, hw]
    | none => simp [hmlen, hip', andBytes_eq_iff hip hip' hle]

/-- The prefix of an address at the check of another. -/
theorem matchesIP_eq {a : Bytes} (ha : parseIP a = some ip) {p : TokenPayload}
    (hp : p.ipPrefix = computeIPPrefix goNet a) (b : Bytes) :
    matchesIP goNet p b = match parseIP b with
      | none => .error .invalidClientIP
      | some ip' => .ok (decide (network ip = network ip')) := by
  have hlen := parseIP_length ha
  have hparse : goNet.parseCIDR p.ipPrefix = some (networkOf ip) := by
    rw [hp, computeIPPrefix_eq ha]
    exact parseCIDR_networkOf hlen
  have hne : p.ipPrefix ≠ [] := by
    intro hnil
    rw [hnil] at hparse
    cases hparse
  have hgo : goNet.parseIP b = parseIP b := rfl
  rw [matchesIP, if_neg hne, hparse, hgo]
  cases hb : parseIP b with
  | none => rfl
  | some ip' =>
    have hcontains : (networkOf ip).contains ip' = decide (network ip = network ip') := by
      rw [Bool.eq_iff_iff, contains_networkOf hlen (parseIP_length hb), decide_eq_true_iff]
    simp only [hcontains]

/-- The prefix of `a` matches the addresses of `a`'s network and no others, and the check of
a valid address never fails. -/
theorem matchesIP_computeIPPrefix_iff {a b ip ip' : Bytes} (ha : parseIP a = some ip)
    (hb : parseIP b = some ip') (key : Bytes) (exp : ℤ) :
    (matchesIP goNet ⟨key, exp, computeIPPrefix goNet a⟩ b = .ok true ↔ network ip = network ip') ∧
      ∃ answer, matchesIP goNet ⟨key, exp, computeIPPrefix goNet a⟩ b = .ok answer := by
  rw [matchesIP_eq ha rfl, hb]
  simp

theorem matchesIP_computeIPPrefix_iff_of_mapped :
    parseIP (lit "::ffff:10.20.30.40") = some (v4InV6Prefix ++ [10, 20, 30, 40]) ∧
      matchesIP goNet ⟨[], 0, computeIPPrefix goNet (lit "::ffff:10.20.30.40")⟩
        (lit "10.20.30.7") = .ok true := by
  have ha : parseIP (lit "::ffff:10.20.30.40") = some (v4InV6Prefix ++ [10, 20, 30, 40]) := by
    decide +kernel
  have hb : parseIP (lit "10.20.30.7") = some (v4InV6Prefix ++ [10, 20, 30, 7]) := by decide +kernel
  exact ⟨ha, (matchesIP_computeIPPrefix_iff ha hb [] 0).1.mpr (by decide)⟩

example : computeIPPrefix goNet (lit "2001:db8:85a3::8a2e:370:7334") = lit "2001:db8:85a3::/64" := by
  decide +kernel

/-! ### The client of a dispatch request -/

section
variable (C : Codecs) (secret : Bytes)

/-- Both are valid addresses, of one network. -/
def SameNetwork (a b : Bytes) : Prop :=
  ∃ ip ip', parseIP a = some ip ∧ parseIP b = some ip' ∧ network ip = network ip'

/- The token's expiry has passed at the check. -/
def Expired (issued ttlMs now : ℤ) (key clientIP : Bytes) : Prop :=
  (withExpiry issued (dispatchPayload goNet issued ttlMs key clientIP)).exp < unix now

instance (issued ttlMs now : ℤ) (key clientIP : Bytes) :
    Decidable (Expired issued ttlMs now key clientIP) := inferInstanceAs (Decidable (_ < _))

theorem verifyWithIP_eq_ok_iff (now : ℤ) (token b : Bytes) (p : TokenPayload) :
    verifyWithIP C goNet secret now token b = .ok p ↔
      verify C secret now token = .ok p ∧ matchesIP goNet p b = .ok true := by
  unfold verifyWithIP
  cases hv : verify C secret now token with
  | error e => simp [bind, Except.bind]
  | ok q =>
    cases hm : matchesIP goNet q b with
    | error e =>
      simp only [bind, Except.bind, hm, Except.ok.injEq, reduceCtorEq, false_iff, not_and]
      rintro rfl
      simp [hm]
    | ok answer =>
      cases answer with
      | true =>
        simp only [bind, Except.bind, hm, if_true, Except.ok.injEq]
        exact ⟨fun h => ⟨h, h ▸ hm⟩, fun h => h.1⟩
      | false =>
        simp only [bind, Except.bind, hm, Except.ok.injEq, Bool.false_eq_true, if_false,
          reduceCtorEq, false_iff, not_and]
        rintro rfl
        simp [hm]

/- Without an address to bind to, the token is good for everyone. -/
theorem accepts_unparsable {issued ttlMs now : ℤ} {key clientIP : Bytes}
    (hip : parseIP clientIP = none) (hlive : ¬ Expired issued ttlMs now key clientIP) (b : Bytes) :
    ∃ p, verifyWithIP C goNet secret now (dispatchToken C goNet secret issued ttlMs key clientIP) b =
      .ok p := by
  have hpre : (dispatchPayload goNet issued ttlMs key clientIP).ipPrefix = [] := by
    have hparse : goNet.parseIP clientIP = none := hip
    simp [dispatchPayload, computeIPPrefix, hparse]
  obtain ⟨p, hverify, hp⟩ := verify_dispatchToken C goNet secret issued ttlMs now key clientIP
    (not_lt.mp hlive)
  refine ⟨p, (verifyWithIP_eq_ok_iff C secret now _ b p).mpr ⟨hverify, ?_⟩⟩
  rw [matchesIP, if_pos (hp.trans hpre)]

/-- A token for a client that gave an address is accepted from that client's network only,
exactly if the address is a valid one or the token has expired. -/
theorem dispatchToken_bound_iff (issued ttlMs now : ℤ) (key : Bytes) {clientIP : Bytes}
    (hne : clientIP ≠ []) (b : Bytes) :
    ((∃ p, verifyWithIP C goNet secret now
        (dispatchToken C goNet secret issued ttlMs key clientIP) b = .ok p) →
      SameNetwork clientIP b) ↔
    (parseIP clientIP ≠ none ∨ Expired issued ttlMs now key clientIP) := by
  constructor
  · intro hbound
    by_contra hcon
    obtain ⟨hip, hlive⟩ := not_or.mp hcon
    rw [not_not] at hip
    obtain ⟨ip, -, hvalid, -⟩ := hbound (accepts_unparsable C secret hip hlive b)
    rw [hip] at hvalid
    cases hvalid
  · rintro hcond ⟨p, hok⟩
    obtain ⟨hverify, hmatch⟩ := (verifyWithIP_eq_ok_iff C secret now _ b p).mp hok
    have hlive : ¬ Expired issued ttlMs now key clientIP := by
      intro hexp
      rw [dispatchToken, verify_sign_expired C secret issued now _ hexp] at hverify
      cases hverify
    obtain ⟨ip, hip⟩ := Option.ne_none_iff_exists'.mp (hcond.resolve_right hlive)
    obtain ⟨q, hq, hpre⟩ := verify_dispatchToken C goNet secret issued ttlMs now key clientIP
      (not_lt.mp hlive)
    rw [hverify] at hq
    cases hq
    have hprefix : p.ipPrefix = computeIPPrefix goNet clientIP := by
      rw [hpre, dispatchPayload, if_pos hne]
    rw [matchesIP_eq hip hprefix] at hmatch
    cases hb : parseIP b with
    | none =>
      rw [hb] at hmatch
      cases hmatch
    | some ip' =>
      rw [hb] at hmatch
      exact ⟨ip, ip', hip, hb, of_decide_eq_true (Except.ok.inj hmatch)⟩

end

theorem dispatchToken_bound_iff_of_unknown :
    ((∃ p, verifyWithIP unaryCodecs goNet [1] (10 ^ 9)
        (dispatchToken unaryCodecs goNet [1] 0 60000 (lit "a") (lit "unknown"))
        (lit "10.0.0.1") = .ok p) →
      SameNetwork (lit "unknown") (lit "10.0.0.1")) ↔
    (parseIP (lit "unknown") ≠ none ∨ Expired 0 60000 (10 ^ 9) (lit "a") (lit "unknown")) :=
  dispatchToken_bound_iff unaryCodecs [1] 0 60000 (10 ^ 9) (lit "a") (by decide) (lit "10.0.0.1")

/-- A client whose address is not one for `ParseIP` gets a token that is accepted from
anywhere. -/
theorem unknown_client_token_accepted_elsewhere :
    lit "unknown" ≠ [] ∧
    (∃ p, verifyWithIP unaryCodecs goNet [1] (10 ^ 9)
      (dispatchToken unaryCodecs goNet [1] 0 60000 (lit "a") (lit "unknown"))
      (lit "10.0.0.1") = .ok p) ∧
    ¬ SameNetwork (lit "unknown") (lit "10.0.0.1") := by
  have hip : parseIP (lit "unknown") = none := by decide +kernel
  refine ⟨by decide, accepts_unparsable unaryCodecs [1] hip (by decide +kernel) _, ?_⟩
  rintro ⟨ip, -, hvalid, -⟩
  rw [hip] at hvalid
  cases hvalid

end EdgeDispatch.Edge.TokenBinding
