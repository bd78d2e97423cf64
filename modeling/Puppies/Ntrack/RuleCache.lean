/-
# The cached rule of a user

A user who was matched once keeps the index of the rule and the rule's magic number.  Both
outlive the configuration they were taken from, and nothing tells a user's record that the
configuration was replaced: the next packet finds out by comparing the magic with that of the
rule which the old index selects in the NEW table.

* If the new table is shorter there is no such rule, and `user_need_redirect` reads the magic
  through the `NULL` pointer that `user_get_rule` returns; the test of that pointer comes
  later.  `ntSafe_iff` says which replacements lead there.
* The magic of a rule is the value of `jiffies` when it was read.  If the rule at that index of
  the new table was read in the same tick as the old rule, or a whole turn of the counter later,
  the cached match is taken for one with the new table.  `cacheSound_iff` says which
  replacements lead there.
-/
import Puppies.Ntrack.RuleTable

namespace Puppies

open ByteMem EventRun

/-! ## 1. The steps of the machine -/

/-- What a step can do to the configuration and to the cached matches. -/
inductive NtMove (s : NtState) : NtEvent → NtState → Prop
  | refused {env : SyncEnv} {confStr : List Byte} {st : ConfState}
      (hconf : st.gAuthConf = s.conf.gAuthConf) (hnext : st.nextBlock = s.conf.nextBlock + 1)
      (helems : elements env confStr = []) :
      NtMove s (.sync env confStr) { s with conf := st }
  | installed {env : SyncEnv} {confStr : List Byte} {st : ConfState}
      (hconf : st.gAuthConf = some (s.conf.nextBlock, ⟨newRules env confStr⟩))
      (hnext : st.nextBlock = s.conf.nextBlock + 1) :
      NtMove s (.sync env confStr) { s with conf := st }
  | user {e : NtEvent} {u : Nat} {ui ui' : UserInfo} {matched : Bool}
      (he : ∀ env confStr, e ≠ .sync env confStr)
      (hcache : CacheMove s.installed (s.user u) ui matched) (hidx : ui'.ruleIdx = ui.ruleIdx)
      (hmagic : ui'.ruleMagic = ui.ruleMagic) : NtMove s e (s.putUser u ui' matched)
  | idle {e : NtEvent} (he : ∀ env confStr, e ≠ .sync env confStr) : NtMove s e s

/-- A packet changes the cached match as matching does, or not at all. -/
theorem ntrackHookFw_cache {hz jiffies : BitVec 32} {gconf : Option AuthConf} {ui : UserInfo}
    {pkt : Packet} {r : HookResult} (h : ntrackHookFw hz jiffies gconf ui pkt = .ok r) :
    ∃ ui', CacheMove gconf ui ui' r.matched ∧ r.ui.ruleIdx = ui'.ruleIdx ∧
      r.ui.ruleMagic = ui'.ruleMagic := by
  rcases ntrackHookFw_cases h with rfl | ⟨q, ts, message, hmove, rfl⟩
  · exact ⟨ui, .keep, rfl, rfl⟩
  · cases hmove with
    | pass hcache => exact ⟨_, hcache, rfl, rfl⟩
    | apply hcache => exact ⟨_, hcache, rfl, rfl⟩

theorem ntMove_of_step {hz : BitVec 32} {s t : NtState} {e : NtEvent}
    (h : ntStep hz s e = some t) : NtMove s e t := by
  cases e with
  | sync env confStr =>
    have hmove := ntrackConfSync_move env s.conf confStr
    simp only [ntStep] at h
    cases hres : ntrackConfSync env s.conf confStr with
    | error f =>
      rw [hres] at h
      exact absurd h (by simp)
    | ok r =>
      rw [hres] at h hmove
      obtain rfl := Option.some.inj h
      cases hmove with
      | refused hmem hconf hnext helems => exact .refused hconf hnext helems
      | installed hmem hconf hnext => exact .installed hconf hnext
  | packet ct nos jiffies pkt =>
    simp only [ntStep] at h
    split at h
    · rename_i u
      cases hres : ntrackHookFw hz jiffies s.installed (s.user u) pkt with
      | error f =>
        rw [hres] at h
        exact absurd h (by simp)
      | ok r =>
        rw [hres] at h
        obtain rfl := Option.some.inj h
        obtain ⟨ui, hcache, hidx, hmagic⟩ := ntrackHookFw_cache hres
        exact .user (by simp) hcache hidx hmagic
    · obtain rfl := Option.some.inj h
      exact .idle (by simp)
  | identify u pkt =>
    obtain rfl := Option.some.inj h
    exact .user (by simp) (ntrackUserMatch_move s.installed (s.user u) pkt) rfl rfl

/-! ## 2. What every run keeps -/

/-- Holds in every state of the machine. -/
structure CacheInv (s : NtState) : Prop where
  /-- a cached index is one that a table can have -/
  idx_ok : ∀ u, (s.user u).ruleMagic ≠ 0 →
    ∃ i : Nat, (s.user u).ruleIdx = (i : Int) ∧ i ≤ maxUrlRules
  size_ok : ∀ blk conf, s.conf.gAuthConf = some (blk, conf) → conf.numRules ≤ maxUrlRules + 1
  blk_lt : ∀ blk conf, s.conf.gAuthConf = some (blk, conf) → blk < s.conf.nextBlock
  /-- a match was made against a block that was there -/
  matched_lt : ∀ u blk idx, s.matchedTo u = some (blk, idx) → blk < s.conf.nextBlock

theorem ntInit_inv (user : Nat → UserInfo) : CacheInv (ntInit user) where
  idx_ok := fun u h => absurd rfl h
  size_ok := fun blk conf h => absurd h (by simp [ntInit, ConfState.init])
  blk_lt := fun blk conf h => absurd h (by simp [ntInit, ConfState.init])
  matched_lt := fun u blk idx h => absurd h (by simp [ntInit])

theorem installed_eq_some {s : NtState} {conf : AuthConf} :
    s.installed = some conf ↔ ∃ blk, s.conf.gAuthConf = some (blk, conf) := by
  simp [NtState.installed]

/-- The cached match of a record whose index and magic are those of `ui`. -/
theorem CacheInv.putUser {s : NtState} (h : CacheInv s) {u : Nat} {ui ui' : UserInfo} {m : Bool}
    (hcache : CacheMove s.installed (s.user u) ui m) (hidx : ui'.ruleIdx = ui.ruleIdx)
    (hmagic : ui'.ruleMagic = ui.ruleMagic) : CacheInv (s.putUser u ui' m) := by
  refine ⟨?_, h.size_ok, h.blk_lt, ?_⟩
  · intro v hv
    rcases eq_or_ne v u with rfl | hne
    · simp only [NtState.putUser, Function.update_self, hidx, hmagic] at hv ⊢
      cases hcache with
      | keep => exact h.idx_ok v hv
      | @hit conf i rule hconf hrule =>
        obtain ⟨blk, hg⟩ := installed_eq_some.mp hconf
        have hsize := h.size_ok blk conf hg
        have hi : i < conf.numRules := (List.getElem?_eq_some_iff.mp hrule).1
        exact ⟨i, rfl, by omega⟩
    · simp only [NtState.putUser, Function.update_of_ne hne] at hv ⊢
      exact h.idx_ok v hv
  · intro v blk idx hv
    cases hcache with
    | keep => exact h.matched_lt v blk idx hv
    | @hit conf i rule hconf hrule =>
      obtain ⟨b, hg⟩ := installed_eq_some.mp hconf
      rcases eq_or_ne v u with rfl | hne
      · simp only [NtState.putUser, if_true, Function.update_self, hg, Option.map_some,
          Option.some.injEq, Prod.mk.injEq] at hv
        exact hv.1 ▸ h.blk_lt b conf hg
      · simp only [NtState.putUser, if_true, Function.update_of_ne hne] at hv
        exact h.matched_lt v blk idx hv

/-- **One step.**  Whatever happens, the invariant is kept. -/
theorem ntMove_inv {s t : NtState} {e : NtEvent} (h : CacheInv s) (hm : NtMove s e t) :
    CacheInv t := by
  cases hm with
  | @refused env confStr st hconf hnext helems =>
    refine ⟨h.idx_ok, ?_, ?_, ?_⟩
    · intro blk conf hg
      exact h.size_ok blk conf (hconf ▸ hg)
    · intro blk conf hg
      have := h.blk_lt blk conf (hconf ▸ hg)
      show blk < st.nextBlock
      omega
    · intro u blk idx hu
      have := h.matched_lt u blk idx hu
      show blk < st.nextBlock
      omega
  | @installed env confStr st hconf hnext =>
    refine ⟨h.idx_ok, ?_, ?_, ?_⟩
    · intro blk conf hg
      obtain ⟨-, rfl⟩ := Prod.mk.inj (Option.some.inj (hconf.symm.trans hg))
      exact List.length_take_le _ _
    · intro blk conf hg
      obtain ⟨rfl, -⟩ := Prod.mk.inj (Option.some.inj (hconf.symm.trans hg))
      show s.conf.nextBlock < st.nextBlock
      omega
    · intro u blk idx hu
      have := h.matched_lt u blk idx hu
      show blk < st.nextBlock
      omega
  | user he hcache hidx hmagic => exact h.putUser hcache hidx hmagic
  | idle => exact h

/-! ## 3. Reading the rule -/

/-- The record selects a rule of the table. -/
structure Selects (conf : AuthConf) (ui : UserInfo) (idx : Int) (rule : AuthRule) : Prop where
  get : userGetRule ui conf = some idx
  deref : derefRule conf (some idx) = .ok rule

theorem selects_of_lt {conf : AuthConf} {ui : UserInfo} {i : Nat} (hidx : ui.ruleIdx = i)
    (hi : i < conf.numRules) (h128 : i < 128) : ∃ rule, Selects conf ui i rule :=
  ⟨_, userGetRule_of_lt hidx hi h128, derefRule_of_lt (List.getElem?_eq_getElem hi)⟩

/-- After a match, the record selects the rule that matched, with the magic it has. -/
theorem selects_match {conf : AuthConf} {ui : UserInfo} {pkt : Packet}
    (hnum : conf.numRules ≤ maxUrlRules + 1) (h : (ntrackUserMatch (some conf) ui pkt).1 ≠ 0) :
    ∃ idx rule, Selects conf (ntrackUserMatch (some conf) ui pkt).2 idx rule ∧
      (ntrackUserMatch (some conf) ui pkt).2.ruleMagic = rule.magic := by
  obtain ⟨i, rule, hfirst, hget, hderef, -⟩ := userGetRule_match hnum h
  refine ⟨i, rule, ⟨hget, hderef⟩, ?_⟩
  rcases ntrackUserMatch_cases (some conf) ui pkt with hz | ⟨c, j, rule', ret, hc, hfirst', hm⟩
  · rw [hz] at h
    exact absurd rfl h
  · obtain rfl := Option.some.inj hc
    rw [hfirst, Option.some.injEq, Prod.mk.injEq, Prod.mk.injEq] at hfirst'
    rw [hm, hfirst'.2.1]

theorem applyRule_ok {conf : AuthConf} {ui : UserInfo} {idx : Int} {rule : AuthRule}
    (h : Selects conf ui idx rule) (m : Bool) : ∃ r, applyRule conf ui m = .ok r := by
  unfold applyRule
  simp only [h.get, h.deref, bind, Except.bind, pure, Except.pure]
  split
  · split
    · exact ⟨_, rfl⟩
    · exact ⟨_, rfl⟩
  · exact ⟨_, rfl⟩

theorem checkMagic_ok {conf : AuthConf} {ui : UserInfo} {idx : Int} {rule : AuthRule}
    (hnum : conf.numRules ≤ maxUrlRules + 1) (h : Selects conf ui idx rule) (pkt : Packet)
    (m : Bool) : ∃ r, checkMagic conf ui pkt m = .ok r := by
  unfold checkMagic
  simp only [h.get, h.deref, bind, Except.bind, pure, Except.pure]
  split
  · split
    · exact ⟨_, rfl⟩
    · rename_i hret
      obtain ⟨idx', rule', hsel, -⟩ := selects_match hnum hret
      exact applyRule_ok hsel true
  · exact applyRule_ok h m

/-- **Exactly the records whose index is behind the table make the kernel read through a `NULL`
pointer**, and every packet does. -/
theorem userNeedRedirect_ok_iff {conf : AuthConf} {ui : UserInfo} (pkt : Packet)
    (hnum : conf.numRules ≤ maxUrlRules + 1)
    (hidx : ui.ruleMagic ≠ 0 → ∃ i : Nat, ui.ruleIdx = (i : Int) ∧ i ≤ maxUrlRules) :
    (∃ r, userNeedRedirect (some conf) ui pkt = .ok r) ↔
      conf.numRules = 0 ∨ (ui.ruleMagic ≠ 0 → ui.ruleIdx < conf.numRules) := by
  unfold userNeedRedirect
  by_cases hzero : conf.numRules = 0
  · simp [hzero]
  by_cases hmagic : ui.ruleMagic = 0
  · simp only [hzero, hmagic, if_false, if_true, ne_eq, not_true_eq_false, false_implies, or_true,
      iff_true]
    split
    · exact ⟨_, rfl⟩
    · rename_i hret
      obtain ⟨idx, rule, hsel, -⟩ := selects_match hnum hret
      exact checkMagic_ok hnum hsel pkt true
  · obtain ⟨i, hi, hle⟩ := hidx hmagic
    have h128 : i < 128 := by
      rw [maxUrlRules] at hle
      omega
    simp only [hzero, hmagic, if_false, ne_eq, not_false_eq_true, true_implies, false_or, hi,
      Int.ofNat_lt]
    constructor
    · rintro ⟨r, hr⟩
      by_contra hout
      -- the pointer is read before it is tested
      rw [checkMagic, userGetRule_of_le hi (Nat.le_of_not_lt hout) h128] at hr
      exact absurd hr (by simp [derefRule, bind, Except.bind])
    · intro hlt
      obtain ⟨rule, hsel⟩ := selects_of_lt hi hlt h128
      exact checkMagic_ok hnum hsel pkt false

/-! ## 4. Replacements that leave no cached index behind the table -/

/-- Whatever packet comes next, no rule is read that is not there. -/
def NtSafe (s : NtState) : Prop :=
  ∀ u pkt, ∃ r, userNeedRedirect s.installed (s.user u) pkt = .ok r

/-- The condition on a step: if it is a configuration, none of its elements qualifies for a
rule, or more of them do than the index says that any user has cached, with a magic that is not
zero. -/
def CoversCached (s : NtState) : NtEvent → Prop
  | .sync env confStr =>
    (newRules env confStr).length = 0 ∨ ∀ u, (s.user u).ruleMagic ≠ 0 →
      (s.user u).ruleIdx < (newRules env confStr).length
  | _ => True

theorem coversCached_of_ne_sync {s : NtState} {e : NtEvent}
    (he : ∀ env confStr, e ≠ .sync env confStr) : CoversCached s e := by
  cases e with
  | sync env confStr => exact absurd rfl (he env confStr)
  | _ => trivial

theorem ntSafe_eq {s : NtState} (h : CacheInv s) :
    NtSafe s ↔ ∀ conf, s.installed = some conf →
      conf.numRules = 0 ∨ ∀ u, (s.user u).ruleMagic ≠ 0 → (s.user u).ruleIdx < conf.numRules := by
  constructor
  · intro hs conf hconf
    obtain ⟨blk, hg⟩ := installed_eq_some.mp hconf
    by_contra hne
    push Not at hne
    obtain ⟨hzero, u, hmagic, hout⟩ := hne
    have hok := hs u ⟨⟨fun _ => 0, 0, fun _ => 0⟩, fun _ => 0⟩
    rw [hconf, userNeedRedirect_ok_iff _ (h.size_ok blk conf hg) (h.idx_ok u)] at hok
    rcases hok with hz | hlt
    · exact hzero hz
    · exact absurd (hlt hmagic) (by omega)
  · intro hs u pkt
    cases hconf : s.installed with
    | none => exact ⟨_, rfl⟩
    | some conf =>
      obtain ⟨blk, hg⟩ := installed_eq_some.mp hconf
      rw [userNeedRedirect_ok_iff pkt (h.size_ok blk conf hg) (h.idx_ok u)]
      exact (hs conf hconf).imp_right fun hall => hall u

/-- One step keeps the machine safe exactly when it meets the condition. -/
theorem ntMove_safe_iff {s t : NtState} {e : NtEvent} (hi : CacheInv s) (hs : NtSafe s)
    (hm : NtMove s e t) : NtSafe t ↔ CoversCached s e := by
  have ht := ntMove_inv hi hm
  rw [ntSafe_eq hi] at hs
  rw [ntSafe_eq ht]
  cases hm with
  | @refused env confStr st hconf hnext helems =>
    have hlen : (newRules env confStr).length = 0 := by
      rw [length_newRules, helems]
      rfl
    refine ⟨fun _ => Or.inl hlen, fun _ conf hc => hs conf ?_⟩
    rw [← hc]
    simp [NtState.installed, hconf]
  | @installed env confStr st hconf hnext =>
    have hinst : ({ s with conf := st } : NtState).installed = some ⟨newRules env confStr⟩ := by
      simp [NtState.installed, hconf]
    constructor
    · intro h
      exact h _ hinst
    · intro h conf hc
      obtain rfl := Option.some.inj (hinst.symm.trans hc)
      exact h
  | @user e u ui ui' m he hcache hidx hmagic =>
    refine ⟨fun _ => coversCached_of_ne_sync he, ?_⟩
    intro _ conf hc
    refine (hs conf hc).imp_right ?_
    intro hall v hv
    rcases eq_or_ne v u with rfl | hne
    · simp only [NtState.putUser, Function.update_self, hidx, hmagic] at hv ⊢
      cases hcache with
      | keep => exact hall v hv
      | @hit conf' i rule hconf hrule =>
        obtain rfl := Option.some.inj (hconf.symm.trans hc)
        exact Int.ofNat_lt.mpr (List.getElem?_eq_some_iff.mp hrule).1
    · simp only [NtState.putUser, Function.update_of_ne hne] at hv ⊢
      exact hall v hv
  | idle he => exact ⟨fun _ => coversCached_of_ne_sync he, fun _ => hs⟩

/-- **When no missing rule is read.**  In every run of configurations and packets of any users
from the loading of the module on, `user_need_redirect` finds a rule wherever it reads one, in
every state, exactly when every configuration has no rule or covers the indices that are
cached. -/
theorem ntSafe_iff (hz : BitVec 32) (user : Nat → UserInfo) (es : List NtEvent) :
    AllStates (ntStep hz) NtSafe (ntInit user) es ↔
      AllSteps (ntStep hz) CoversCached (ntInit user) es := by
  refine allStates_iff (J := CacheInv) ?_ ?_ es _ (ntInit_inv user) ?_
  · intro s e t hi _ _ h
    exact ntMove_inv hi (ntMove_of_step h)
  · intro s e t hi hs h
    exact ntMove_safe_iff hi hs (ntMove_of_step h)
  · intro u pkt
    exact ⟨_, rfl⟩

/-- A TCP segment of a client that is in the IP set `b` only. -/
def packetOfB : Packet := ⟨ipv4Packet IPPROTO_TCP [], fun idx => if idx = 0x62 then 1 else 0⟩

/-- A record with nothing in it. -/
def someUser : UserInfo := ⟨1, 1, 0, 0, 0, 0, 0⟩

/-- User 0 is matched to the second of two rules, and then there is only one. -/
def shrinkEvents : List NtEvent :=
  [.sync (plentyEnv 1) (confText [0x61, 0x62]), .packet .tracked (some 0) 0 packetOfB,
    .sync (plentyEnv 2) (confText [0x61])]

/-- The next packet of the user makes the kernel read through `NULL`. -/
theorem ntSafe_broken :
    ∃ s, run (ntStep 100) (ntInit fun _ => someUser) shrinkEvents = some s ∧
      userNeedRedirect s.installed (s.user 0) packetOfB = .error .null ∧ ¬ NtSafe s := by
  have h : ((run (ntStep 100) (ntInit fun _ => someUser) shrinkEvents).map fun s =>
      match userNeedRedirect s.installed (s.user 0) packetOfB with
      | .error f => some f
      | .ok _ => none) = some (some .null) := by
    decide +kernel
  obtain ⟨s, hs, herr⟩ := exists_run_of_map h
  cases hres : userNeedRedirect s.installed (s.user 0) packetOfB with
  | ok r =>
    rw [hres] at herr
    exact absurd herr (by simp)
  | error f =>
    rw [hres, Option.some.injEq] at herr
    refine ⟨s, hs, by rw [hres, herr], ?_⟩
    intro hsafe
    obtain ⟨r, hr⟩ := hsafe 0 packetOfB
    exact absurd (hr.symm.trans hres) (by simp)

/-! ## 5. Replacements that leave no cached magic valid -/

/-- The record makes `user_need_redirect` decide with the cached rule `idx`: its magic is not
zero and is that of the rule which its index selects. -/
def CacheHit (conf : AuthConf) (ui : UserInfo) (idx : Int) : Prop :=
  ui.ruleMagic ≠ 0 ∧ ∃ rule, Selects conf ui idx rule ∧ rule.magic = ui.ruleMagic

/-- A decision with a cached rule is a decision with the rule of the table in use that the user
was matched to. -/
def CacheSound (s : NtState) : Prop :=
  ∀ blk conf u idx, s.conf.gAuthConf = some (blk, conf) → CacheHit conf (s.user u) idx →
    s.matchedTo u = some (blk, idx)

/-- On a cache hit there is no match, and the rule of the cache decides. -/
theorem userNeedRedirect_of_hit {conf : AuthConf} {ui : UserInfo} {idx : Int} {pkt : Packet}
    (hnum : conf.numRules ≠ 0) (h : CacheHit conf ui idx) :
    userNeedRedirect (some conf) ui pkt = applyRule conf ui false := by
  obtain ⟨hmagic, rule, hsel, heq⟩ := h
  simp only [userNeedRedirect, hnum, hmagic, if_false, checkMagic, hsel.get, hsel.deref, bind,
    Except.bind, heq, ne_eq, not_true_eq_false]

/-- The condition on a step: if it is a configuration, the rule that the index cached by a user
selects among its rules, if any, was not read at the `jiffies` value that the user has cached
as a magic, unless that is zero. -/
def FreshMagic (s : NtState) : NtEvent → Prop
  | .sync env confStr => ∀ u, (s.user u).ruleMagic ≠ 0 →
      ∀ rule, (newRules env confStr)[(s.user u).ruleIdx.toNat]? = some rule →
        rule.magic ≠ (s.user u).ruleMagic
  | _ => True

theorem freshMagic_of_ne_sync {s : NtState} {e : NtEvent}
    (he : ∀ env confStr, e ≠ .sync env confStr) : FreshMagic s e := by
  cases e with
  | sync env confStr => exact absurd rfl (he env confStr)
  | _ => trivial

/-- Which rule a record with a cached magic selects. -/
theorem cacheHit_iff {conf : AuthConf} {ui : UserInfo} {idx : Int}
    (hidx : ui.ruleMagic ≠ 0 → ∃ i : Nat, ui.ruleIdx = (i : Int) ∧ i ≤ maxUrlRules) :
    CacheHit conf ui idx ↔ ui.ruleMagic ≠ 0 ∧ idx = ui.ruleIdx ∧
      ∃ rule, conf.rules[ui.ruleIdx.toNat]? = some rule ∧ rule.magic = ui.ruleMagic := by
  unfold CacheHit
  refine and_congr_right ?_
  intro hmagic
  obtain ⟨i, hi, hle⟩ := hidx hmagic
  have h128 : i < 128 := by
    rw [maxUrlRules] at hle
    omega
  rw [hi, Int.toNat_natCast]
  constructor
  · rintro ⟨rule, hsel, heq⟩
    rcases Nat.lt_or_ge i conf.numRules with hlt | hge
    · have hget := userGetRule_of_lt hi hlt h128
      obtain rfl := Option.some.inj (hget.symm.trans hsel.get)
      have hrule := List.getElem?_eq_getElem hlt
      obtain rfl := Except.ok.inj ((derefRule_of_lt hrule).symm.trans hsel.deref)
      exact ⟨rfl, _, hrule, heq⟩
    · have hget := userGetRule_of_le hi hge h128
      exact absurd (hget.symm.trans hsel.get) (by simp)
  · rintro ⟨rfl, rule, hrule, heq⟩
    have hlt : i < conf.numRules := (List.getElem?_eq_some_iff.mp hrule).1
    exact ⟨rule, ⟨userGetRule_of_lt hi hlt h128, derefRule_of_lt hrule⟩, heq⟩

/-- One step keeps the cache sound exactly when it meets the condition. -/
theorem ntMove_sound_iff {s t : NtState} {e : NtEvent} (hi : CacheInv s) (hs : CacheSound s)
    (hm : NtMove s e t) : CacheSound t ↔ FreshMagic s e := by
  cases hm with
  | @refused env confStr st hconf hnext helems =>
    have hnil : newRules env confStr = [] := by
      rw [newRules, helems]
      rfl
    refine ⟨?_, fun _ blk conf u idx hg => hs blk conf u idx (hconf ▸ hg)⟩
    intro _ u _ rule hrule
    rw [hnil] at hrule
    exact absurd hrule (by simp)
  | @installed env confStr st hconf hnext =>
    constructor
    · intro ht u hmagic rule hrule heq
      -- the block is new, so no user was matched to a rule of it
      have hhit : CacheHit ⟨newRules env confStr⟩ (s.user u) (s.user u).ruleIdx :=
        (cacheHit_iff (hi.idx_ok u)).mpr ⟨hmagic, rfl, rule, hrule, heq⟩
      have hmatched := ht _ _ u _ hconf hhit
      exact Nat.lt_irrefl _ (hi.matched_lt u _ _ hmatched)
    · intro hfresh blk conf u idx hg hhit
      obtain ⟨rfl, rfl⟩ := Prod.mk.inj (Option.some.inj (hconf.symm.trans hg))
      obtain ⟨hmagic, -, rule, hrule, heq⟩ := (cacheHit_iff (hi.idx_ok u)).mp hhit
      exact absurd heq (hfresh u hmagic rule hrule)
  | @user e u ui ui' m he hcache hidx hmagic =>
    refine ⟨fun _ => freshMagic_of_ne_sync he, ?_⟩
    intro _ blk conf v idx hg hhit
    have ht := (hi.putUser hcache hidx hmagic).idx_ok v
    rw [cacheHit_iff ht] at hhit
    obtain ⟨hne, rfl, rule, hrule, heq⟩ := hhit
    -- a hit of before was with the rule that the user was matched to
    have hold : (s.user v).ruleMagic ≠ 0 →
        conf.rules[(s.user v).ruleIdx.toNat]? = some rule → rule.magic = (s.user v).ruleMagic →
          s.matchedTo v = some (blk, (s.user v).ruleIdx) := fun hne hrule heq =>
      hs blk conf v _ hg ((cacheHit_iff (hi.idx_ok v)).mpr ⟨hne, rfl, rule, hrule, heq⟩)
    have hg' : s.conf.gAuthConf = some (blk, conf) := hg
    rcases eq_or_ne v u with rfl | hvu
    · simp only [NtState.putUser, Function.update_self, hidx, hmagic] at hne hrule heq ⊢
      cases hcache with
      | keep => exact hold hne hrule heq
      | hit => simp [hg']
    · simp only [NtState.putUser, Function.update_of_ne hvu] at hne hrule heq ⊢
      split
      · rw [Function.update_of_ne hvu]
        exact hold hne hrule heq
      · exact hold hne hrule heq
  | idle he => exact ⟨fun _ => freshMagic_of_ne_sync he, fun _ => hs⟩

/-- **When a cached rule is one of the table in use.**  In every run of configurations and
packets from the loading of the module on, with any values of the clock, a decision with a
cached rule is one with the rule that the user was matched to in the table in use, in every
state, exactly when no configuration has, at the index that a user has cached, a rule read at
the clock value that the user has cached. -/
theorem cacheSound_iff (hz : BitVec 32) (user : Nat → UserInfo) (es : List NtEvent) :
    AllStates (ntStep hz) CacheSound (ntInit user) es ↔
      AllSteps (ntStep hz) FreshMagic (ntInit user) es := by
  refine allStates_iff (J := CacheInv) ?_ ?_ es _ (ntInit_inv user) ?_
  · intro s e t hi _ _ h
    exact ntMove_inv hi (ntMove_of_step h)
  · intro s e t hi hs h
    exact ntMove_sound_iff hi hs (ntMove_of_step h)
  · intro blk conf u idx hg
    exact absurd hg (by simp [ntInit, ConfState.init])

/-- User 0 is matched to the set `b`, and in the same tick a rule for the set `a` takes the
place of its rule. -/
def sameTickEvents : List NtEvent :=
  [.sync (plentyEnv 1) (confText [0x62]), .packet .tracked (some 0) 0 packetOfB,
    .sync (plentyEnv 1) (confText [0x61])]

/-- The cached match is used with a table that the user was never matched against, and with
which it would not match. -/
theorem cacheSound_broken :
    ∃ s, run (ntStep 100) (ntInit fun _ => someUser) sameTickEvents = some s ∧
      (s.conf.gAuthConf.map Prod.fst) = some 1 ∧ s.matchedTo 0 = some (0, 0) ∧
      (ntrackUserMatch s.installed (s.user 0) packetOfB).1 = 0 ∧ ¬ CacheSound s := by
  have h : ((run (ntStep 100) (ntInit fun _ => someUser) sameTickEvents).map fun s =>
      (s.conf.gAuthConf.map fun g => (g.1, g.2.rules[0]?.map AuthRule.magic), s.matchedTo 0,
        (ntrackUserMatch s.installed (s.user 0) packetOfB).1, (s.user 0).ruleIdx,
        (s.user 0).ruleMagic))
      = some (some (1, some 1), some (0, 0), 0, 0, 1) := by
    decide +kernel
  obtain ⟨s, hs, heq⟩ := exists_run_of_map h
  simp only [Prod.mk.injEq, Option.map_eq_some_iff] at heq
  obtain ⟨⟨⟨blk, conf⟩, hg, hblk, rule, hrule, hrm⟩, hmatched, hret, hidx, hmagic⟩ := heq
  obtain rfl : blk = 1 := hblk
  refine ⟨s, hs, by rw [hg]; rfl, hmatched, hret, ?_⟩
  intro hsound
  have hok : (s.user 0).ruleMagic ≠ 0 →
      ∃ i : Nat, (s.user 0).ruleIdx = (i : Int) ∧ i ≤ maxUrlRules :=
    fun _ => ⟨0, hidx, Nat.zero_le _⟩
  have hhit : CacheHit conf (s.user 0) (s.user 0).ruleIdx := by
    refine (cacheHit_iff hok).mpr ⟨by rw [hmagic]; decide, rfl, rule, ?_, by rw [hrm, hmagic]⟩
    rw [hidx]
    exact hrule
  have := hsound 1 conf 0 _ hg hhit
  rw [hmatched] at this
  exact absurd this (by simp)

end Puppies
