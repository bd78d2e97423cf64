/-
# The status of a user, as the kernel moves it

The lowest byte of a user's flags is the user's status.  Seen from the kernel module alone it
only ever moves forward: from unknown to requested, and from either of them to authenticated.
Whatever is above `AUTH_REQ`, be it one of the named values or not, stays; and the flags above
the byte are never touched.

`StatusMove` is that order, which is transitive, so that what one event does a whole run does
(`authStatus_run`).
-/
import Puppies.Ntrack.RuleCache

namespace Puppies

open ByteMem EventRun

/-! ## 1. The order of the status values -/

/-- How the kernel may move the status in a word of flags. -/
inductive StatusMove (f f' : BitVec 32) : Prop
  | stay (hhigh : highFlags f' = highFlags f) (hstatus : authStatus f' = authStatus f)
  | request (hhigh : highFlags f' = highFlags f) (hfrom : authStatus f = AUTH_UNKNOWN)
      (hto : authStatus f' = AUTH_REQ)
  | grant (hhigh : highFlags f' = highFlags f)
      (hfrom : authStatus f = AUTH_UNKNOWN ∨ authStatus f = AUTH_REQ)
      (hto : authStatus f' = AUTH_OK)

theorem StatusMove.refl (f : BitVec 32) : StatusMove f f := .stay rfl rfl

/-- The flags above the status are those of before. -/
theorem StatusMove.high {f f' : BitVec 32} (h : StatusMove f f') : highFlags f' = highFlags f := by
  cases h <;> assumption

/-- **A status above `AUTH_REQ` is absorbing.** -/
theorem StatusMove.absorbing {f f' : BitVec 32} (h : StatusMove f f')
    (habove : AUTH_REQ < authStatus f) : authStatus f' = authStatus f := by
  cases h with
  | stay hhigh hstatus => exact hstatus
  | request hhigh hfrom hto =>
    rw [hfrom] at habove
    exact absurd habove (by decide)
  | grant hhigh hfrom hto =>
    rcases hfrom with hfrom | hfrom
    · rw [hfrom] at habove
      exact absurd habove (by decide)
    · rw [hfrom] at habove
      exact absurd habove (by decide)

theorem StatusMove.trans {f g h : BitVec 32} (h1 : StatusMove f g) (h2 : StatusMove g h) :
    StatusMove f h := by
  have hhigh : highFlags h = highFlags f := h2.high.trans h1.high
  cases h1 with
  | stay _ hstay =>
    cases h2 with
    | stay _ hstay' => exact .stay hhigh (hstay'.trans hstay)
    | request _ hfrom hto => exact .request hhigh (hstay ▸ hfrom) hto
    | grant _ hfrom hto => exact .grant hhigh (hstay ▸ hfrom) hto
  | request _ hfrom hto =>
    cases h2 with
    | stay _ hstay' => exact .request hhigh hfrom (hstay'.trans hto)
    | request _ hfrom' hto' =>
      rw [hto] at hfrom'
      exact absurd hfrom' (by decide)
    | grant _ hfrom' hto' => exact .grant hhigh (Or.inl hfrom) hto'
  | grant _ hfrom hto =>
    have habove : AUTH_REQ < authStatus g := by
      rw [hto]
      decide
    exact .grant hhigh hfrom ((h2.absorbing habove).trans hto)

/-- A status that is open is one of two values. -/
theorem status_of_le_req {x : BitVec 32} (h : x ≤ AUTH_REQ) : x = AUTH_UNKNOWN ∨ x = AUTH_REQ := by
  have hle : x.toNat ≤ 1 := h
  rcases Nat.le_one_iff_eq_zero_or_eq_one.mp hle with h0 | h1
  · exact Or.inl (BitVec.eq_of_toNat_eq h0)
  · exact Or.inr (BitVec.eq_of_toNat_eq h1)

/-! ## 2. One packet -/

theorem CacheMove.flags_eq {gconf : Option AuthConf} {ui ui' : UserInfo} {m : Bool}
    (h : CacheMove gconf ui ui' m) : ui'.flags = ui.flags := by
  cases h <;> rfl

/-- Setting the status of a user whose status is open. -/
theorem statusMove_set {ui : UserInfo} {b : Prop} [Decidable b] (h : ntAuthStatus ui ≤ AUTH_REQ) :
    StatusMove ui.flags (ntAuthSetStatus ui (if b then AUTH_REQ else AUTH_OK)).2.flags := by
  have hhigh : ∀ status, highFlags (ntAuthSetStatus ui status).2.flags = highFlags ui.flags := by
    intro status
    show highFlags (orStatus (clearStatus ui.flags) status) = _
    rw [highFlags_orStatus, highFlags_clearStatus]
  have hopen := status_of_le_req h
  split
  · have hto : authStatus (ntAuthSetStatus ui AUTH_REQ).2.flags = AUTH_REQ :=
      ntAuthStatus_set ui AUTH_REQ
    rcases hopen with h0 | h1
    · exact .request (hhigh _) h0 hto
    · exact .stay (hhigh _) (hto.trans h1.symm)
  · exact .grant (hhigh _) hopen (ntAuthStatus_set ui AUTH_OK)

theorem RedirectMove.statusMove {gconf : Option AuthConf} {ui : UserInfo} {r : NeedRedirect}
    (h : RedirectMove gconf ui r) : StatusMove ui.flags r.ui.flags := by
  cases h with
  | pass hcache =>
    rw [hcache.flags_eq]
    exact .refl _
  | apply hcache hconf hget hrule hstatus =>
    rw [← hcache.flags_eq]
    exact statusMove_set hstatus

/-- What is the case after a packet was answered with a redirect. -/
structure Redirected (gconf : Option AuthConf) (ui : UserInfo) (pkt : Packet) (ui' : UserInfo) :
    Prop where
  /-- the user's status was open -/
  wasOpen : ntAuthStatus ui ≤ AUTH_REQ
  /-- the rule that the user's record selects asks for a log in -/
  rule : ∃ conf idx rule, gconf = some conf ∧ Selects conf ui' idx rule ∧ rule.flags ≠ 0
  /-- the packet is a web request -/
  http : authCheckHttp pkt.skb = true
  /-- and the user has been asked -/
  nowReq : ntAuthStatus ui' = AUTH_REQ

/-- The time of the last packet is not part of what a rule is selected by. -/
theorem selects_congr {conf : AuthConf} {ui ui' : UserInfo} (h : ui'.ruleIdx = ui.ruleIdx)
    {idx : Int} {rule : AuthRule} (hsel : Selects conf ui idx rule) : Selects conf ui' idx rule :=
  ⟨by rw [userGetRule, h]; exact hsel.get, hsel.deref⟩

/-- **One packet.** -/
theorem ntrackHookFw_status {hz jiffies : BitVec 32} {gconf : Option AuthConf} {ui : UserInfo}
    {pkt : Packet} {r : HookResult} (h : ntrackHookFw hz jiffies gconf ui pkt = .ok r) :
    StatusMove ui.flags r.ui.flags ∧ (r.redirected = true → Redirected gconf ui pkt r.ui) := by
  rcases ntrackHookFw_cases h with rfl | ⟨q, ts, message, hmove, rfl⟩
  · exact ⟨.refl _, fun hr => absurd hr Bool.false_ne_true⟩
  · refine ⟨hmove.statusMove, ?_⟩
    intro hr
    obtain ⟨hret, hhttp⟩ := (Bool.and_eq_true _ _).mp hr
    cases hmove with
    | pass hcache => exact absurd hret Bool.false_ne_true
    | @apply ui' m conf idx rule hcache hconf hget hrule hstatus =>
      have hflags : rule.flags ≠ 0 := bne_iff_ne.mp hret
      refine ⟨?_, ⟨conf, idx, rule, hconf, selects_congr rfl ⟨hget, hrule⟩, hflags⟩, hhttp, ?_⟩
      · rw [ntAuthStatus, ← hcache.flags_eq]
        exact hstatus
      · rw [if_pos hflags]
        exact ntAuthStatus_set ui' AUTH_REQ

/-! ## 3. Runs -/

/-- What one event may do to the status of the users, and when a packet is answered with a
redirect. -/
structure StatusStep (hz : BitVec 32) (s : NtState) (e : NtEvent) : Prop where
  moves : ∀ t, ntStep hz s e = some t → ∀ u, StatusMove (s.user u).flags (t.user u).flags
  redirect : ∀ u jiffies pkt r, e = .packet .tracked (some u) jiffies pkt →
    ntrackHookFw hz jiffies s.installed (s.user u) pkt = .ok r → r.redirected = true →
      Redirected s.installed (s.user u) pkt r.ui

theorem putUser_statusMove {s : NtState} {u : Nat} {ui : UserInfo} {m : Bool}
    (h : StatusMove (s.user u).flags ui.flags) (v : Nat) :
    StatusMove (s.user v).flags ((s.putUser u ui m).user v).flags := by
  rcases eq_or_ne v u with rfl | hne
  · simpa [NtState.putUser] using h
  · simp only [NtState.putUser, Function.update_of_ne hne]
    exact .refl _

theorem statusStep (hz : BitVec 32) (s : NtState) (e : NtEvent) : StatusStep hz s e := by
  refine ⟨?_, fun u jiffies pkt r _ hr => (ntrackHookFw_status hr).2⟩
  intro t h v
  cases e with
  | sync env confStr =>
    simp only [ntStep] at h
    split at h
    · obtain rfl := Option.some.inj h
      exact .refl _
    · exact absurd h (by simp)
  | packet ct nos jiffies pkt =>
    simp only [ntStep] at h
    split at h
    · split at h
      · rename_i r hr
        obtain rfl := Option.some.inj h
        exact putUser_statusMove (ntrackHookFw_status hr).1 v
      · exact absurd h (by simp)
    · obtain rfl := Option.some.inj h
      exact .refl _
  | identify u pkt =>
    obtain rfl := Option.some.inj h
    refine putUser_statusMove ?_ v
    rw [(ntrackUserMatch_move s.installed (s.user u) pkt).flags_eq]
    exact .refl _

/-- **The status under the kernel alone.**  From any state, with any flags in the records, in
every run of packets and configurations whose calls return: each event moves every user's
status forward or leaves it, and calls `ntrack_redirect` only as described by `Redirected`; and
so every state of the run is one that the first one may be moved to. -/
theorem authStatus_run (hz : BitVec 32) (s : NtState) (es : List NtEvent) :
    AllSteps (ntStep hz) (StatusStep hz) s es ∧
      AllStates (ntStep hz) (fun t => ∀ u, StatusMove (s.user u).flags (t.user u).flags) s es := by
  have hsteps : AllSteps (ntStep hz) (StatusStep hz) s es :=
    allSteps_of_forall (fun s e _ _ => statusStep hz s e) es s
  refine ⟨hsteps, ?_⟩
  refine allStates_of_allSteps ?_ es s (fun u => .refl _) hsteps
  intro t e t' ht hC h u
  exact (ht u).trans (hC.moves t' h u)

end Puppies
