/-
# Who is redirected (`ntrack_conf.c`, second half, and `ntrack_hooks.c`)

For every packet it forwards, the kernel module looks at the user who sent it.
`user_need_redirect` finds the rule the user falls under: the one that is CACHED in the user's
record, if it is from the configuration in use, and otherwise the first one with an IP set that
the packet is in (`ntrack_user_match`), which is then cached.  A user whose status is open gets
the status the rule asks for, and web requests of users who have to log in are answered with a
redirect.

The cache is an index into the table of rules and a magic number.  The index is compared with
the size of the table in use, the magic with that of the rule the index selects in it; and this
second test reads the rule BEFORE anybody has looked whether there is one.

This file embeds these functions and puts them into one machine with `ntrack_conf_sync`
(`ntStep`): configurations and packets of any users, in any order.  The machine remembers for
each user what the source does not, which configuration the cached match was made against.
-/
import Mathlib.Logic.Function.Basic
import Puppies.Lib.Runs
import Puppies.Ntrack.Auth
import Puppies.Ntrack.Conf

namespace Puppies

open ByteMem EventRun

/-! ## 1. Matching a user -/

/-- A packet, and the answers of `ip_set_test` about it. -/
structure Packet where
  skb : SkBuff
  ipSetTest : BitVec 16 → Nat

/-- The inner loop of `ntrack_user_match`: what the first set that the packet is in returns. -/
def firstHit (test : BitVec 16 → Nat) : List (BitVec 16) → Nat
  | [] => 0
  | idx :: idxs => if test idx ≠ 0 then test idx else firstHit test idxs

/-- The outer loop, from index `i` on: the index, the rule and the return value. -/
def firstRule (test : BitVec 16 → Nat) : Nat → List AuthRule → Option (Nat × AuthRule × Nat)
  | _, [] => none
  | i, rule :: rules =>
    if firstHit test rule.usetIdx ≠ 0 then some (i, rule, firstHit test rule.usetIdx)
    else firstRule test (i + 1) rules

/-- `ntrack_user_match`: the return value and the record. -/
def ntrackUserMatch (gconf : Option AuthConf) (ui : UserInfo) (pkt : Packet) : Nat × UserInfo :=
  match gconf with
  | none => (0, ui)
  | some conf =>
    if conf.numRules = 0 then (0, ui)
    else if l3filter pkt.skb then (0, ui)
    else match firstRule pkt.ipSetTest 0 conf.rules with
      | some (i, rule, ret) =>
        (ret, { ui with groupId := -1, ruleIdx := i, ruleMagic := rule.magic })
      | none => (0, ui)

/-! ## 2. The rule of a user -/

/-- The `int8_t` that the index is read through. -/
def int8Idx (idx : Int) : Int := (BitVec.ofInt 8 idx).toInt

/-- `user_get_rule`: the rule as its index, or `NULL`. -/
def userGetRule (ui : UserInfo) (conf : AuthConf) : Option Int :=
  let idx := int8Idx ui.ruleIdx
  if (conf.numRules : Int) ≤ idx then none else some idx

/-- A rule pointer that is read from, and should not be. -/
inductive RuleFault
  /-- the `NULL` pointer -/
  | null
  /-- in front of the table -/
  | outside
  deriving DecidableEq, Repr

/-- What a rule pointer points at. -/
def derefRule (conf : AuthConf) : Option Int → Except RuleFault AuthRule
  | none => .error .null
  | some idx =>
    if idx < 0 then .error .outside
    else match conf.rules[idx.toNat]? with
      | some rule => .ok rule
      | none => .error .outside

/-- What a call of `user_need_redirect` did. -/
structure NeedRedirect where
  ret : Bool
  ui : UserInfo
  /-- a call of `ntrack_user_match` found a rule -/
  matched : Bool
  deriving DecidableEq, Repr

/-- The end of `user_need_redirect`, from the test of the rule on. -/
def applyRule (conf : AuthConf) (ui : UserInfo) (matched : Bool) :
    Except RuleFault NeedRedirect :=
  match userGetRule ui conf with
  | none => .ok ⟨false, ui, matched⟩
  | some idx =>
    if ntAuthStatus ui ≤ AUTH_REQ then do
      let rule ← derefRule conf (some idx)
      if rule.flags ≠ 0 then return ⟨true, (ntAuthSetStatus ui AUTH_REQ).2, matched⟩
      -- auto auth
      else return ⟨false, (ntAuthSetStatus ui AUTH_OK).2, matched⟩
    else .ok ⟨false, ui, matched⟩

/-- The middle of it: the test of the magic. -/
def checkMagic (conf : AuthConf) (ui : UserInfo) (pkt : Packet) (matched : Bool) :
    Except RuleFault NeedRedirect := do
  let rule ← derefRule conf (userGetRule ui conf)
  if ui.ruleMagic ≠ rule.magic then
    let m := ntrackUserMatch (some conf) ui pkt
    if m.1 = 0 then return ⟨false, m.2, matched⟩ else applyRule conf m.2 true
  else applyRule conf ui matched

/-- `user_need_redirect` -/
def userNeedRedirect (gconf : Option AuthConf) (ui : UserInfo) (pkt : Packet) :
    Except RuleFault NeedRedirect :=
  match gconf with
  | none => .ok ⟨false, ui, false⟩
  | some conf =>
    if conf.numRules = 0 then .ok ⟨false, ui, false⟩
    else if ui.ruleMagic = 0 then
      let m := ntrackUserMatch gconf ui pkt
      if m.1 = 0 then .ok ⟨false, m.2, false⟩ else checkMagic conf m.2 pkt true
    else checkMagic conf ui pkt false

/-! ## 3. The hook -/

/-- What a call of `ntrack_hook_fw` did. -/
structure HookResult where
  ui : UserInfo
  matched : Bool
  /-- `ntrack_redirect` was called -/
  redirected : Bool
  /-- the message of type `en_MSG_t_AUTH`: the user's id and magic -/
  message : Option (BitVec 32 × BitVec 32)
  deriving DecidableEq, Repr

/-- The end of `ntrack_hook_fw`: the time of the last packet, and the message that the user is
online. -/
def hookTimeout (hz jiffies : BitVec 32) (ui : UserInfo) (matched redirected : Bool) :
    HookResult :=
  if userTimeout hz jiffies ui then
    let ui := userUpdateTimestamp jiffies ui
    ⟨ui, matched, redirected, if AUTH_OK ≤ ntAuthStatus ui then some (ui.id, ui.magic) else none⟩
  else ⟨ui, matched, redirected, none⟩

/-- `ntrack_hook_fw` on a packet of a connection that is tracked for the user with record `ui`.
It accepts the packet whatever it finds. -/
def ntrackHookFw (hz jiffies : BitVec 32) (gconf : Option AuthConf) (ui : UserInfo)
    (pkt : Packet) : Except RuleFault HookResult :=
  if l3filter pkt.skb then .ok ⟨ui, false, false, none⟩
  else do
    let r ← userNeedRedirect gconf ui pkt
    return hookTimeout hz jiffies r.ui r.matched (r.ret && authCheckHttp pkt.skb)

/-! ## 4. The machine -/

/-- The module and the users. -/
structure NtState where
  conf : ConfState
  user : Nat → UserInfo
  /-- the block and the index of the rule that the last successful match of a user found -/
  matchedTo : Nat → Option (Nat × Int)

/-- The configuration in use. -/
def NtState.installed (s : NtState) : Option AuthConf := s.conf.gAuthConf.map Prod.snd

/-- What happens to the module. -/
inductive NtEvent
  /-- a configuration arrives -/
  | sync (env : SyncEnv) (confStr : List Byte)
  /-- a packet is forwarded; `nos` is the user of its connection, if it has one -/
  | packet (ct : Conntrack) (nos : Option Nat) (jiffies : BitVec 32) (pkt : Packet)
  /-- the tracker asks for the group of a user (`nos_user_match_fn`) -/
  | identify (u : Nat) (pkt : Packet)

/-- Store back the record of user `u`, after a successful match or not. -/
def NtState.putUser (s : NtState) (u : Nat) (ui : UserInfo) (matched : Bool) : NtState :=
  { s with
    user := Function.update s.user u ui
    matchedTo := if matched then
        Function.update s.matchedTo u (s.conf.gAuthConf.map fun g => (g.1, ui.ruleIdx))
      else s.matchedTo }

/-- One event; `none` if a call of it faults. -/
def ntStep (hz : BitVec 32) (s : NtState) : NtEvent → Option NtState
  | .sync env confStr =>
    match ntrackConfSync env s.conf confStr with
    | .ok r => some { s with conf := r.state }
    | .error _ => none
  | .packet ct nos jiffies pkt =>
    match ct, nos with
    | .tracked, some u =>
      match ntrackHookFw hz jiffies s.installed (s.user u) pkt with
      | .ok r => some (s.putUser u r.ui r.matched)
      | .error _ => none
    | _, _ => some s
  | .identify u pkt =>
    let m := ntrackUserMatch s.installed (s.user u) pkt
    some (s.putUser u m.2 (m.1 != 0))

/-- The module after it was loaded, with the given records, of users who were not matched
yet. -/
def ntInit (user : Nat → UserInfo) : NtState where
  conf := .init
  user := fun u => { user u with ruleMagic := 0 }
  matchedTo := fun _ => none

/-! ## 5. What a call can do to a record -/

/-- Matching: the record is left alone, or it gets the index and the magic of a rule. -/
inductive CacheMove (gconf : Option AuthConf) (ui : UserInfo) : UserInfo → Bool → Prop
  | keep : CacheMove gconf ui ui false
  | hit {conf : AuthConf} {i : Nat} {rule : AuthRule} (hconf : gconf = some conf)
      (hrule : conf.rules[i]? = some rule) :
      CacheMove gconf ui { ui with groupId := -1, ruleIdx := i, ruleMagic := rule.magic } true

/-- `user_need_redirect`: after some matching the user passes, or the status is set as the rule
that the record then selects asks for. -/
inductive RedirectMove (gconf : Option AuthConf) (ui : UserInfo) : NeedRedirect → Prop
  | pass {ui' : UserInfo} {matched : Bool} (hcache : CacheMove gconf ui ui' matched) :
      RedirectMove gconf ui ⟨false, ui', matched⟩
  | apply {ui' : UserInfo} {matched : Bool} {conf : AuthConf} {idx : Int} {rule : AuthRule}
      (hcache : CacheMove gconf ui ui' matched) (hconf : gconf = some conf)
      (hget : userGetRule ui' conf = some idx) (hrule : derefRule conf (some idx) = .ok rule)
      (hstatus : ntAuthStatus ui' ≤ AUTH_REQ) :
      RedirectMove gconf ui ⟨rule.flags != 0,
        (ntAuthSetStatus ui' (if rule.flags ≠ 0 then AUTH_REQ else AUTH_OK)).2, matched⟩

/-- The rule that is found is one of the table, and a set of it contains the packet. -/
theorem firstRule_eq_some {test : BitVec 16 → Nat} {i k ret : Nat} {rules : List AuthRule}
    {rule : AuthRule} (h : firstRule test i rules = some (k, rule, ret)) :
    i ≤ k ∧ rules[k - i]? = some rule ∧ ret ≠ 0 ∧ ret = firstHit test rule.usetIdx := by
  induction rules generalizing i with
  | nil => exact absurd h (by simp [firstRule])
  | cons r rules ih =>
    rw [firstRule] at h
    split at h
    · rename_i hhit
      obtain ⟨rfl, rfl, rfl⟩ : i = k ∧ r = rule ∧ firstHit test r.usetIdx = ret := by
        simpa using h
      exact ⟨Nat.le_refl _, by simp, hhit, rfl⟩
    · obtain ⟨hle, hget, hret⟩ := ih h
      refine ⟨by omega, ?_, hret⟩
      rw [show k - i = k - (i + 1) + 1 by omega, List.getElem?_cons_succ]
      exact hget

/-- **A call of `ntrack_user_match`.** -/
theorem ntrackUserMatch_cases (gconf : Option AuthConf) (ui : UserInfo) (pkt : Packet) :
    ntrackUserMatch gconf ui pkt = (0, ui) ∨
      ∃ conf i rule ret, gconf = some conf ∧
        firstRule pkt.ipSetTest 0 conf.rules = some (i, rule, ret) ∧
        ntrackUserMatch gconf ui pkt =
          (ret, { ui with groupId := -1, ruleIdx := i, ruleMagic := rule.magic }) := by
  unfold ntrackUserMatch
  split
  · exact Or.inl rfl
  · rename_i conf
    split
    · exact Or.inl rfl
    · split
      · exact Or.inl rfl
      · split
        · rename_i i rule ret hfirst
          exact Or.inr ⟨conf, i, rule, ret, rfl, hfirst, rfl⟩
        · exact Or.inl rfl

theorem ntrackUserMatch_move (gconf : Option AuthConf) (ui : UserInfo) (pkt : Packet) :
    CacheMove gconf ui (ntrackUserMatch gconf ui pkt).2
      ((ntrackUserMatch gconf ui pkt).1 != 0) := by
  rcases ntrackUserMatch_cases gconf ui pkt with h | ⟨conf, i, rule, ret, hconf, hfirst, h⟩
  · rw [h]
    exact .keep
  · obtain ⟨-, hget, hret, -⟩ := firstRule_eq_some hfirst
    rw [h, bne_iff_ne.mpr hret]
    exact .hit hconf hget

/-- A second match replaces what the first one put into the record. -/
theorem CacheMove.trans {gconf : Option AuthConf} {ui ui' ui'' : UserInfo} {m m' : Bool}
    (h : CacheMove gconf ui ui' m) (h' : CacheMove gconf ui' ui'' m') :
    CacheMove gconf ui ui'' (m || m') := by
  cases h' with
  | keep => rwa [Bool.or_false]
  | hit hconf hrule =>
    rw [Bool.or_true]
    cases h with
    | keep => exact .hit hconf hrule
    | hit => exact .hit hconf hrule

/-- A computation that succeeds is a first part that does and a second that does. -/
theorem except_bind_eq_ok {ε α β : Type} {x : Except ε α} {f : α → Except ε β} {b : β} :
    x >>= f = .ok b ↔ ∃ a, x = .ok a ∧ f a = .ok b := by
  cases x with
  | error e => simp [bind, Except.bind]
  | ok a => simp [bind, Except.bind]

theorem applyRule_move {conf : AuthConf} {ui ui' : UserInfo} {matched : Bool} {r : NeedRedirect}
    (hcache : CacheMove (some conf) ui ui' matched) (h : applyRule conf ui' matched = .ok r) :
    RedirectMove (some conf) ui r := by
  unfold applyRule at h
  split at h
  · obtain rfl := Except.ok.inj h
    exact .pass hcache
  · rename_i idx hget
    split at h
    · rename_i hstatus
      obtain ⟨rule, hrule, h⟩ := except_bind_eq_ok.mp h
      have hmove := RedirectMove.apply hcache rfl hget hrule hstatus
      by_cases hflags : rule.flags = 0
      · rw [if_neg (not_not.mpr hflags)] at h hmove
        obtain rfl := Except.ok.inj h
        rwa [bne_eq_false_iff_eq.mpr hflags] at hmove
      · rw [if_pos hflags] at h hmove
        obtain rfl := Except.ok.inj h
        rwa [bne_iff_ne.mpr hflags] at hmove
    · obtain rfl := Except.ok.inj h
      exact .pass hcache

theorem checkMagic_move {conf : AuthConf} {ui ui' : UserInfo} {pkt : Packet} {matched : Bool}
    {r : NeedRedirect} (hcache : CacheMove (some conf) ui ui' matched)
    (h : checkMagic conf ui' pkt matched = .ok r) : RedirectMove (some conf) ui r := by
  unfold checkMagic at h
  obtain ⟨rule, -, h⟩ := except_bind_eq_ok.mp h
  split at h
  · have hm := hcache.trans (ntrackUserMatch_move (some conf) ui' pkt)
    dsimp only at h
    split at h
    · rename_i hzero
      obtain rfl := Except.ok.inj h
      rw [bne_eq_false_iff_eq.mpr hzero, Bool.or_false] at hm
      exact .pass hm
    · rename_i hret
      rw [bne_iff_ne.mpr hret, Bool.or_true] at hm
      exact applyRule_move hm h
  · exact applyRule_move hcache h

/-- **A call of `user_need_redirect`** that returns. -/
theorem userNeedRedirect_move {gconf : Option AuthConf} {ui : UserInfo} {pkt : Packet}
    {r : NeedRedirect} (h : userNeedRedirect gconf ui pkt = .ok r) : RedirectMove gconf ui r := by
  unfold userNeedRedirect at h
  split at h
  · obtain rfl := Except.ok.inj h
    exact .pass .keep
  · rename_i conf
    split at h
    · obtain rfl := Except.ok.inj h
      exact .pass .keep
    · split at h
      · have hm := ntrackUserMatch_move (some conf) ui pkt
        dsimp only at h
        split at h
        · rename_i hzero
          obtain rfl := Except.ok.inj h
          rw [bne_eq_false_iff_eq.mpr hzero] at hm
          exact .pass hm
        · rename_i hret
          rw [bne_iff_ne.mpr hret] at hm
          exact checkMagic_move hm h
      · exact checkMagic_move .keep h

/-- **A call of `ntrack_hook_fw`** that returns: the packet is filtered, or the record and the
redirect are those of `user_need_redirect`, up to the time of the last packet. -/
theorem ntrackHookFw_cases {hz jiffies : BitVec 32} {gconf : Option AuthConf} {ui : UserInfo}
    {pkt : Packet} {r : HookResult} (h : ntrackHookFw hz jiffies gconf ui pkt = .ok r) :
    r = ⟨ui, false, false, none⟩ ∨ ∃ q ts message, RedirectMove gconf ui q ∧
      r = ⟨{ q.ui with timeStamp := ts }, q.matched, q.ret && authCheckHttp pkt.skb, message⟩ := by
  unfold ntrackHookFw at h
  split at h
  · exact Or.inl (Except.ok.inj h).symm
  · obtain ⟨q, hq, hr⟩ := except_bind_eq_ok.mp h
    obtain rfl := Except.ok.inj hr
    have hmove := userNeedRedirect_move hq
    unfold hookTimeout
    split
    · exact Or.inr ⟨q, jiffies, _, hmove, rfl⟩
    · exact Or.inr ⟨q, q.ui.timeStamp, none, hmove, rfl⟩

end Puppies
