/-
# What the captive portal is for

A list of rules is in use; each has some IP sets and may ask for a log in.  A user falls under the
first rule that has a set with the user's packet in it, and stays under it until the rules are
replaced.  As long as the user's status is open, a rule without log in grants access for good, and
one with log in makes every web request be answered with a redirect.  That is all:
`portalPolicy`, an instance of `FirstFit`, with no indices, no magic numbers and no faults.

`ntRun_portal` says that the kernel module is this machine: in every run of configurations and
packets of any users, with the same packets answered, and the same rule and status of every user
after it, as long as the configurations are ORDERLY, which is to say that none of them runs into
what `RuleCache` describes.  So what is proved about visitors in `FirstFit` is a fact about users:
`portal_decisions` says in closed form what becomes of the packets of each of them.
-/
import Puppies.Lib.FirstFit
import Puppies.Ntrack.AuthStatus
import Puppies.Ntrack.ConfLoad
import Puppies.Ntrack.FirstMatch

namespace Puppies

open ByteMem EventRun FirstFit

/-! ## 1. The portal -/

/-- What a rule says: for whom it is, and whether they have to log in. -/
structure PortalRule where
  sets : List (BitVec 16)
  login : Bool
  deriving DecidableEq, Repr

/-- The status of users as visitors; the answer is whether they are redirected. -/
def portalPolicy : Policy PortalRule Packet (BitVec 32) Bool where
  fits r pkt := r.sets.any fun idx => pkt.ipSetTest idx != 0
  act r pkt status :=
    if status ≤ AUTH_REQ then
      if r.login then (AUTH_REQ, authCheckHttp pkt.skb) else (AUTH_OK, false)
    else (status, false)
  pass := false

/-- The status that a rule leaves a user with. -/
def PortalRule.leaves (r : PortalRule) (status : BitVec 32) : BitVec 32 :=
  if status ≤ AUTH_REQ then if r.login then AUTH_REQ else AUTH_OK else status

/-- Whether it redirects a packet of the user. -/
def PortalRule.redirects (r : PortalRule) (status : BitVec 32) (pkt : Packet) : Bool :=
  decide (status ≤ AUTH_REQ) && r.login && authCheckHttp pkt.skb

theorem portalPolicy_act (r : PortalRule) (pkt : Packet) (status : BitVec 32) :
    portalPolicy.act r pkt status = (r.leaves status, r.redirects status pkt) := by
  simp only [portalPolicy, PortalRule.leaves, PortalRule.redirects]
  by_cases hopen : status ≤ AUTH_REQ
  · cases r.login <;> simp [hopen]
  · simp [hopen]

/-- A rule that has done something does the same again. -/
theorem PortalRule.leaves_leaves (r : PortalRule) (status : BitVec 32) :
    r.leaves (r.leaves status) = r.leaves status := by
  have hok : ¬ AUTH_OK ≤ AUTH_REQ := by decide
  unfold PortalRule.leaves
  by_cases hopen : status ≤ AUTH_REQ
  · cases r.login <;> simp [hopen, hok]
  · simp [hopen]

theorem PortalRule.redirects_leaves (r : PortalRule) (status : BitVec 32) (pkt : Packet) :
    r.redirects (r.leaves status) pkt = r.redirects status pkt := by
  have hok : ¬ AUTH_OK ≤ AUTH_REQ := by decide
  unfold PortalRule.redirects PortalRule.leaves
  by_cases hopen : status ≤ AUTH_REQ
  · cases r.login <;> simp [hopen, hok]
  · simp [hopen]

/-- **All packets under one rule.** -/
theorem portalPolicy_acts (r : PortalRule) (status : BitVec 32) (pkt : Packet)
    (pkts : List Packet) : portalPolicy.acts r status (pkt :: pkts) =
      (r.leaves status, (pkt :: pkts).map (r.redirects status)) := by
  induction pkts generalizing pkt status with
  | nil =>
    rw [Policy.acts_cons, portalPolicy_act]
    rfl
  | cons pkt' pkts ih =>
    have hsame : r.redirects (r.leaves status) = r.redirects status :=
      funext fun pkt => r.redirects_leaves status pkt
    rw [Policy.acts_cons, portalPolicy_act, ih, r.leaves_leaves, hsame]
    rfl

/-! ## 2. The portal in the kernel -/

/-- What a rule of the table says. -/
def AuthRule.portal (rule : AuthRule) : PortalRule := ⟨rule.usetIdx, rule.flags != 0⟩

/-- The rules in use. -/
def NtState.rules (s : NtState) : List AuthRule :=
  match s.installed with
  | some conf => conf.rules
  | none => []

/-- The rule that is cached in a record, if it is one of these. -/
def cachedRule (rules : List AuthRule) (ui : UserInfo) : Option AuthRule :=
  if ui.ruleMagic = 0 then none
  else rules[ui.ruleIdx.toNat]?.filter fun rule => rule.magic = ui.ruleMagic

/-- The user as a visitor. -/
def visitorOf (rules : List AuthRule) (ui : UserInfo) : Visitor PortalRule (BitVec 32) :=
  ⟨(cachedRule rules ui).map AuthRule.portal, ntAuthStatus ui⟩

/-- What is to be seen of the state of the kernel. -/
def NtState.portal (s : NtState) : Office Nat PortalRule (BitVec 32) where
  rules := s.rules.map AuthRule.portal
  visitor u := visitorOf s.rules (s.user u)

/-- The text is that of an array, so that a table is made of it. -/
def isConf (env : SyncEnv) (confStr : List Byte) : Bool :=
  (nxJsonParseUtf8 env.kzalloc confStr).any fun json => json.type = .array

/-- What an event is to the portal. -/
def NtEvent.portal : NtEvent → Event Nat PortalRule Packet
  | .sync env confStr =>
    if isConf env confStr then .replace ((newRules env confStr).map AuthRule.portal) else .idle
  | .packet ct nos _ pkt =>
    match ct, nos with
    | .tracked, some u => if l3filter pkt.skb then .idle else .visit u pkt
    | _, _ => .idle
  | .identify u pkt => if l3filter pkt.skb then .idle else .look u pkt

/-- `ntrack_redirect` is called in this step. -/
def ntRedirects (hz : BitVec 32) (s : NtState) : NtEvent → Bool
  | .packet .tracked (some u) jiffies pkt =>
    match ntrackHookFw hz jiffies s.installed (s.user u) pkt with
    | .ok r => r.redirected
    | .error _ => false
  | _ => false

/-- One event with its answer. -/
def ntAnswer (hz : BitVec 32) (s : NtState) (e : NtEvent) : Option (NtState × Bool) :=
  (ntStep hz s e).map fun t => (t, ntRedirects hz s e)

/-- The conditions on a configuration: it covers the indices that are cached, none of its rules
was read at the time of a cached magic, and none of them at the time 0. -/
structure Orderly (s : NtState) (e : NtEvent) : Prop where
  covers : CoversCached s e
  fresh : FreshMagic s e
  magics : ∀ env confStr, e = .sync env confStr → ∀ rule ∈ newRules env confStr, rule.magic ≠ 0

/-- What every run of orderly configurations keeps. -/
structure PortalInv (s : NtState) : Prop where
  cache : CacheInv s
  safe : NtSafe s
  magics : ∀ rule ∈ s.rules, rule.magic ≠ 0

theorem ntInit_portalInv (user : Nat → UserInfo) : PortalInv (ntInit user) where
  cache := ntInit_inv user
  safe := fun _ _ => ⟨_, rfl⟩
  magics := fun _ h => absurd h List.not_mem_nil

/-! ## 3. One packet -/

/-- The search of the kernel is that of the portal. -/
theorem find_portal (pkt : Packet) (i : Nat) (rules : List AuthRule) :
    portalPolicy.find (rules.map AuthRule.portal) pkt =
      (firstRule pkt.ipSetTest i rules).map fun found => found.2.1.portal := by
  induction rules generalizing i with
  | nil => rfl
  | cons rule rules ih =>
    have hfits : portalPolicy.fits rule.portal pkt = true ↔
        firstHit pkt.ipSetTest rule.usetIdx ≠ 0 := by
      rw [firstHit_ne_zero_iff]
      simp [portalPolicy, AuthRule.portal]
    rw [List.map_cons, Policy.find, List.find?_cons, firstRule]
    by_cases hhit : firstHit pkt.ipSetTest rule.usetIdx ≠ 0
    · rw [hfits.mpr hhit, if_pos hhit]
      rfl
    · rw [Bool.not_eq_true _ |>.mp (mt hfits.mp hhit), if_neg hhit]
      exact ih (i + 1)

/-- A record that was just matched. -/
theorem cachedRule_matched {rules : List AuthRule} {i : Nat} {rule : AuthRule}
    (hrule : rules[i]? = some rule) (hmagic : rule.magic ≠ 0) (ui : UserInfo) :
    cachedRule rules { ui with groupId := -1, ruleIdx := i, ruleMagic := rule.magic } =
      some rule := by
  rw [cachedRule, if_neg hmagic, Int.toNat_natCast, hrule]
  simp

theorem cachedRule_eq_some {rules : List AuthRule} {ui : UserInfo} {rule : AuthRule} :
    cachedRule rules ui = some rule ↔ ui.ruleMagic ≠ 0 ∧
      rules[ui.ruleIdx.toNat]? = some rule ∧ rule.magic = ui.ruleMagic := by
  unfold cachedRule
  by_cases hmagic : ui.ruleMagic = 0
  · simp [hmagic]
  · rw [if_neg hmagic, Option.filter_eq_some_iff, and_iff_right hmagic, decide_eq_true_eq]

/-- What a record shows of itself depends on these fields. -/
theorem visitorOf_congr {rules : List AuthRule} {ui ui' : UserInfo}
    (hidx : ui'.ruleIdx = ui.ruleIdx) (hmagic : ui'.ruleMagic = ui.ruleMagic)
    (hflags : ui'.flags = ui.flags) : visitorOf rules ui' = visitorOf rules ui := by
  simp only [visitorOf, cachedRule, ntAuthStatus, hidx, hmagic, hflags]

/-- What a call of `user_need_redirect` is to the portal. -/
structure Visited (rules : List AuthRule) (ui : UserInfo) (pkt : Packet) (r : NeedRedirect) :
    Prop where
  visitor : (portalPolicy.visit (rules.map AuthRule.portal) (visitorOf rules ui) pkt).1 =
    visitorOf rules r.ui
  answer : (portalPolicy.visit (rules.map AuthRule.portal) (visitorOf rules ui) pkt).2 =
    (r.ret && authCheckHttp pkt.skb)

/-- Neither a cached rule nor one that fits. -/
theorem Visited.pass {rules : List AuthRule} {ui : UserInfo} {pkt : Packet}
    (hcached : cachedRule rules ui = none)
    (hfind : portalPolicy.find (rules.map AuthRule.portal) pkt = none) (m : Bool) :
    Visited rules ui pkt ⟨false, ui, m⟩ := by
  have hv : (visitorOf rules ui).given = none := by rw [visitorOf, hcached, Option.map_none]
  constructor
  · rw [Policy.visit_of_not_find hv hfind]
  · rw [Policy.visit_of_not_find hv hfind, Bool.false_and]
    rfl

/-- The rule that is cached, or else the one that fits, was applied. -/
theorem Visited.rule {rules : List AuthRule} {ui : UserInfo} {pkt : Packet} {r : NeedRedirect}
    {rule : PortalRule}
    (hrule : ((cachedRule rules ui).map AuthRule.portal).or
      (portalPolicy.find (rules.map AuthRule.portal) pkt) = some rule)
    (hvisitor : visitorOf rules r.ui = ⟨some rule, rule.leaves (ntAuthStatus ui)⟩)
    (hanswer : (r.ret && authCheckHttp pkt.skb) = rule.redirects (ntAuthStatus ui) pkt) :
    Visited rules ui pkt r := by
  have hvisit : portalPolicy.visit (rules.map AuthRule.portal) (visitorOf rules ui) pkt =
      (⟨some rule, rule.leaves (ntAuthStatus ui)⟩, rule.redirects (ntAuthStatus ui) pkt) := by
    rw [Policy.visit, visitorOf]
    simp only [hrule, portalPolicy_act]
  constructor
  · rw [hvisit, hvisitor]
  · rw [hvisit, hanswer]

/-- Where there are no rules. -/
theorem Visited.nil (ui : UserInfo) (pkt : Packet) (m : Bool) :
    Visited [] ui pkt ⟨false, ui, m⟩ := .pass (by simp [cachedRule]) rfl m

/-- The end of the call, with the rule that the record selects. -/
theorem applyRule_portal {conf : AuthConf} {ui : UserInfo} {idx : Int} {rule : AuthRule}
    (hsel : Selects conf ui idx rule) (hcached : cachedRule conf.rules ui = some rule)
    (pkt : Packet) (m : Bool) : ∃ r, applyRule conf ui m = .ok r ∧
      visitorOf conf.rules r.ui = ⟨some rule.portal, rule.portal.leaves (ntAuthStatus ui)⟩ ∧
      (r.ret && authCheckHttp pkt.skb) = rule.portal.redirects (ntAuthStatus ui) pkt := by
  have hset : ∀ status, visitorOf conf.rules (ntAuthSetStatus ui status).2 =
      ⟨some rule.portal, authStatus status⟩ := by
    intro status
    rw [visitorOf, ntAuthStatus_set]
    have hsame : cachedRule conf.rules (ntAuthSetStatus ui status).2 =
        cachedRule conf.rules ui := rfl
    rw [hsame, hcached, Option.map_some]
  unfold applyRule
  rw [hsel.get]
  simp only [hsel.deref, bind, Except.bind, pure, Except.pure]
  unfold PortalRule.leaves PortalRule.redirects
  by_cases hopen : ntAuthStatus ui ≤ AUTH_REQ
  · by_cases hflags : rule.flags = 0
    · have hlogin : rule.portal.login = false := bne_eq_false_iff_eq.mpr hflags
      refine ⟨_, by rw [if_pos hopen, if_neg (not_not.mpr hflags)], ?_, ?_⟩
      · rw [hset, if_pos hopen, hlogin]
        rfl
      · rw [hlogin, Bool.and_false, Bool.false_and]
    · have hlogin : rule.portal.login = true := bne_iff_ne.mpr hflags
      refine ⟨_, by rw [if_pos hopen, if_pos hflags], ?_, ?_⟩
      · rw [hset, if_pos hopen, hlogin]
        rfl
      · rw [hlogin, decide_eq_true hopen, Bool.and_true]
  · refine ⟨_, by rw [if_neg hopen], ?_, ?_⟩
    · rw [visitorOf, hcached, Option.map_some, if_neg hopen]
    · rw [decide_eq_false hopen, Bool.false_and, Bool.false_and, Bool.false_and]

/-- A rule that was found, in a record that was matched to it. -/
theorem applyRule_matched {conf : AuthConf} {ui : UserInfo} {pkt : Packet}
    (hnum : conf.numRules ≤ maxUrlRules + 1) (hmagics : ∀ rule ∈ conf.rules, rule.magic ≠ 0)
    (h : (ntrackUserMatch (some conf) ui pkt).1 ≠ 0) :
    ∃ idx rule, Selects conf (ntrackUserMatch (some conf) ui pkt).2 idx rule ∧
      cachedRule conf.rules (ntrackUserMatch (some conf) ui pkt).2 = some rule ∧
      portalPolicy.find (conf.rules.map AuthRule.portal) pkt = some rule.portal ∧
      ntAuthStatus (ntrackUserMatch (some conf) ui pkt).2 = ntAuthStatus ui ∧
      (ntrackUserMatch (some conf) ui pkt).2.ruleMagic = rule.magic := by
  obtain ⟨idx, rule, hsel, hmagic⟩ := selects_match hnum h
  rcases ntrackUserMatch_cases (some conf) ui pkt with hz | ⟨c, i, rule', ret, hc, hfirst, hm⟩
  · rw [hz] at h
    exact absurd rfl h
  · obtain rfl := Option.some.inj hc
    obtain ⟨-, hget, -, -⟩ := firstRule_eq_some hfirst
    rw [Nat.sub_zero] at hget
    rw [hm] at hsel hmagic ⊢
    have hlt : i < conf.numRules := (List.getElem?_eq_some_iff.mp hget).1
    have h128 : i < 128 := by
      rw [maxUrlRules] at hnum
      omega
    obtain rfl := Option.some.inj ((userGetRule_of_lt rfl hlt h128).symm.trans hsel.get)
    obtain rfl := Except.ok.inj ((derefRule_of_lt hget).symm.trans hsel.deref)
    refine ⟨i, rule', hsel, cachedRule_matched hget (hmagics _ (List.mem_of_getElem? hget)) ui, ?_,
      rfl, rfl⟩
    rw [find_portal pkt 0, hfirst]
    rfl

/-- Without a match the record is as before, and no rule fits. -/
theorem ntrackUserMatch_miss {conf : AuthConf} {ui : UserInfo} {pkt : Packet}
    (hpass : l3filter pkt.skb = false) (h : (ntrackUserMatch (some conf) ui pkt).1 = 0) :
    (ntrackUserMatch (some conf) ui pkt).2 = ui ∧
      portalPolicy.find (conf.rules.map AuthRule.portal) pkt = none := by
  rw [find_portal pkt 0]
  rw [ntrackUserMatch_some, if_neg (by rw [hpass]; exact Bool.false_ne_true)] at h ⊢
  cases hfirst : firstRule pkt.ipSetTest 0 conf.rules with
  | none => exact ⟨rfl, rfl⟩
  | some found =>
    obtain ⟨i, rule, ret⟩ := found
    rw [hfirst] at h
    exact absurd h (firstRule_eq_some hfirst).2.2.1

/-- A call that looks for a rule anew. -/
theorem rematch_portal {conf : AuthConf} {ui : UserInfo} {pkt : Packet} {r : NeedRedirect}
    (hnum : conf.numRules ≤ maxUrlRules + 1) (hmagics : ∀ rule ∈ conf.rules, rule.magic ≠ 0)
    (hpass : l3filter pkt.skb = false) (hcached : cachedRule conf.rules ui = none)
    {f : UserInfo → Except RuleFault NeedRedirect} {m : Bool}
    (hf : ∀ ui' idx rule, Selects conf ui' idx rule → ui'.ruleMagic = rule.magic →
      f ui' = applyRule conf ui' true)
    (hr : (let m' := ntrackUserMatch (some conf) ui pkt
      if m'.1 = 0 then .ok ⟨false, m'.2, m⟩ else f m'.2) = .ok r) :
    Visited conf.rules ui pkt r := by
  dsimp only at hr
  split at hr
  · rename_i hmiss
    obtain ⟨hui, hfind⟩ := ntrackUserMatch_miss hpass hmiss
    obtain rfl := Except.ok.inj hr
    rw [hui]
    exact .pass hcached hfind m
  · rename_i hhit
    obtain ⟨idx, rule, hsel, hnew, hfind, hstatus, hmagic⟩ := applyRule_matched hnum hmagics hhit
    obtain ⟨r', hr', hvisitor, hanswer⟩ := applyRule_portal hsel hnew pkt true
    rw [hf _ idx rule hsel hmagic, hr'] at hr
    obtain rfl := Except.ok.inj hr
    rw [hstatus] at hvisitor hanswer
    refine .rule ?_ hvisitor hanswer
    rw [hcached, Option.map_none, Option.none_or, hfind]

/-- A record with a cached magic selects what its index says. -/
theorem selects_of_getElem? {conf : AuthConf} {ui : UserInfo} {rule : AuthRule}
    (hidx : ∃ i : Nat, ui.ruleIdx = (i : Int) ∧ i ≤ maxUrlRules)
    (hget : conf.rules[ui.ruleIdx.toNat]? = some rule) : Selects conf ui ui.ruleIdx rule := by
  obtain ⟨i, hi, hle⟩ := hidx
  rw [hi, Int.toNat_natCast] at hget
  have h128 : i < 128 := by
    rw [maxUrlRules] at hle
    omega
  rw [hi]
  exact ⟨userGetRule_of_lt hi (List.getElem?_eq_some_iff.mp hget).1 h128, derefRule_of_lt hget⟩

theorem checkMagic_of_eq {conf : AuthConf} {ui : UserInfo} {idx : Int} {rule : AuthRule}
    (hsel : Selects conf ui idx rule) (hmagic : ui.ruleMagic = rule.magic) (pkt : Packet)
    (m : Bool) : checkMagic conf ui pkt m = applyRule conf ui m := by
  simp only [checkMagic, hsel.get, hsel.deref, bind, Except.bind, hmagic, ne_eq,
    not_true_eq_false, if_false]

theorem checkMagic_of_ne {conf : AuthConf} {ui : UserInfo} {idx : Int} {rule : AuthRule}
    (hsel : Selects conf ui idx rule) (hmagic : ui.ruleMagic ≠ rule.magic) (pkt : Packet)
    (m : Bool) : checkMagic conf ui pkt m =
      (let m' := ntrackUserMatch (some conf) ui pkt
        if m'.1 = 0 then .ok ⟨false, m'.2, m⟩ else applyRule conf m'.2 true) := by
  simp only [checkMagic, hsel.get, hsel.deref, bind, Except.bind, pure, Except.pure, ne_eq, hmagic,
    not_false_eq_true, if_true]

/-- **One call of `user_need_redirect` is one visit.** -/
theorem userNeedRedirect_portal {s : NtState} (hs : PortalInv s) (u : Nat) {pkt : Packet}
    (hpass : l3filter pkt.skb = false) : ∃ r,
      userNeedRedirect s.installed (s.user u) pkt = .ok r ∧ Visited s.rules (s.user u) pkt r := by
  obtain ⟨r, hr⟩ := hs.safe u pkt
  refine ⟨r, hr, ?_⟩
  cases hinst : s.installed with
  | none =>
    rw [hinst, userNeedRedirect] at hr
    obtain rfl := Except.ok.inj hr
    rw [NtState.rules, hinst]
    exact .nil _ _ _
  | some conf =>
    obtain ⟨blk, hg⟩ := installed_eq_some.mp hinst
    have hnum := hs.cache.size_ok blk conf hg
    have hmagics := hs.magics
    rw [NtState.rules, hinst] at hmagics ⊢
    rw [hinst] at hr
    dsimp only at hmagics ⊢
    by_cases hzero : conf.numRules = 0
    · rw [userNeedRedirect, if_pos hzero] at hr
      obtain rfl := Except.ok.inj hr
      rw [List.eq_nil_of_length_eq_zero hzero]
      exact .nil _ _ _
    cases hcached : cachedRule conf.rules (s.user u) with
    | some rule =>
      -- the cached rule is one of the table, and decides
      obtain ⟨hmagic, hget, heq⟩ := cachedRule_eq_some.mp hcached
      have hsel := selects_of_getElem? (hs.cache.idx_ok u hmagic) hget
      obtain ⟨r', hr', hvisitor, hanswer⟩ := applyRule_portal hsel hcached pkt false
      rw [userNeedRedirect_of_hit hzero ⟨hmagic, rule, hsel, heq⟩, hr'] at hr
      obtain rfl := Except.ok.inj hr
      refine .rule ?_ hvisitor hanswer
      rw [hcached, Option.map_some, Option.some_or]
    | none =>
      by_cases hmagic : (s.user u).ruleMagic = 0
      · rw [userNeedRedirect, if_neg hzero, if_pos hmagic] at hr
        exact rematch_portal hnum hmagics hpass hcached
          (fun ui' idx rule hsel heq => checkMagic_of_eq hsel heq pkt true) hr
      · -- the index is one of the table, but the magic is that of another one
        have hlt := ((ntSafe_eq hs.cache).mp hs.safe conf hinst).resolve_left hzero u hmagic
        obtain ⟨i, hi, hle⟩ := hs.cache.idx_ok u hmagic
        have hlen : i < conf.rules.length := by
          rw [hi] at hlt
          exact Int.ofNat_lt.mp hlt
        obtain ⟨rule, hget⟩ : ∃ rule, conf.rules[(s.user u).ruleIdx.toNat]? = some rule :=
          ⟨_, by rw [hi, Int.toNat_natCast, List.getElem?_eq_getElem hlen]⟩
        have hsel := selects_of_getElem? ⟨i, hi, hle⟩ hget
        have hne : (s.user u).ruleMagic ≠ rule.magic := fun heq =>
          absurd (cachedRule_eq_some.mpr ⟨hmagic, hget, heq.symm⟩) (by rw [hcached]; simp)
        rw [userNeedRedirect, if_neg hzero, if_neg hmagic, checkMagic_of_ne hsel hne] at hr
        exact rematch_portal hnum hmagics hpass hcached (fun _ _ _ _ _ => rfl) hr

/-! ## 4. Runs -/

theorem visitorOf_hookTimeout (rules : List AuthRule) (hz jiffies : BitVec 32) (ui : UserInfo)
    (m redirected : Bool) :
    visitorOf rules (hookTimeout hz jiffies ui m redirected).ui = visitorOf rules ui ∧
      (hookTimeout hz jiffies ui m redirected).redirected = redirected := by
  unfold hookTimeout
  split
  · exact ⟨visitorOf_congr rfl rfl rfl, rfl⟩
  · exact ⟨rfl, rfl⟩

/-- **One call of `ntrack_hook_fw`.** -/
theorem ntrackHookFw_portal {s : NtState} (hs : PortalInv s) (hz jiffies : BitVec 32) (u : Nat)
    (pkt : Packet) : ∃ r, ntrackHookFw hz jiffies s.installed (s.user u) pkt = .ok r ∧
      if l3filter pkt.skb then r.ui = s.user u ∧ r.redirected = false
      else portalPolicy.visit s.portal.rules (s.portal.visitor u) pkt =
        (visitorOf s.rules r.ui, r.redirected) := by
  unfold ntrackHookFw
  cases hfilter : l3filter pkt.skb with
  | true => exact ⟨_, rfl, rfl, rfl⟩
  | false =>
    obtain ⟨r, hr, hvisited⟩ := userNeedRedirect_portal hs u hfilter
    obtain ⟨hvisitor, hredirected⟩ := visitorOf_hookTimeout s.rules hz jiffies r.ui r.matched
      (r.ret && authCheckHttp pkt.skb)
    refine ⟨_, by rw [if_neg Bool.false_ne_true, hr]; rfl, ?_⟩
    rw [if_neg Bool.false_ne_true, hvisitor, hredirected]
    exact Prod.ext hvisited.visitor hvisited.answer

/-- The record of one user is stored back. -/
theorem portal_putUser (s : NtState) (u : Nat) (ui : UserInfo) (m : Bool) :
    (s.putUser u ui m).portal =
      { s.portal with visitor := Function.update s.portal.visitor u (visitorOf s.rules ui) } := by
  have hrules : (s.putUser u ui m).rules = s.rules := rfl
  rw [NtState.portal, hrules]
  congr 1
  funext v
  by_cases hv : v = u
  · subst hv
    simp only [NtState.putUser, Function.update_self]
  · simp only [NtState.putUser, Function.update_of_ne hv, NtState.portal]

/-- A text that is no array leaves the table alone. -/
theorem gAuthConf_of_not_isConf {env : SyncEnv} {st : ConfState} {confStr : List Byte}
    {r : SyncResult} (h : isConf env confStr = false)
    (hr : ntrackConfSync env st confStr = .ok r) : r.state.gAuthConf = st.gAuthConf := by
  unfold ntrackConfSync at hr
  cases hmem : env.vmalloc with
  | false =>
    rw [hmem] at hr
    cases hr
  | true =>
    simp only [hmem, Bool.not_true, Bool.false_eq_true, if_false] at hr
    cases hjson : nxJsonParseUtf8 env.kzalloc confStr with
    | none =>
      simp only [hjson, Except.ok.injEq] at hr
      rw [← hr]
    | some json =>
      have htype : json.type ≠ .array := by
        rw [isConf, hjson, Option.any_some, decide_eq_false_iff_not] at h
        exact h
      simp only [hjson, if_pos htype, Except.ok.injEq] at hr
      rw [← hr]

theorem exists_json_of_isConf {env : SyncEnv} {confStr : List Byte} (h : isConf env confStr = true) :
    ∃ json, nxJsonParseUtf8 env.kzalloc confStr = some json ∧ json.type = .array := by
  obtain ⟨json, hjson, htype⟩ := (Option.any_eq_true _ _).mp h
  exact ⟨json, hjson, of_decide_eq_true htype⟩

/-- No record has a rule of a table that is fresh to all of them. -/
theorem cachedRule_of_fresh {s : NtState} {env : SyncEnv} {confStr : List Byte}
    (h : FreshMagic s (.sync env confStr)) (u : Nat) :
    cachedRule (newRules env confStr) (s.user u) = none := by
  rw [Option.eq_none_iff_forall_ne_some]
  intro rule hcached
  obtain ⟨hmagic, hget, heq⟩ := cachedRule_eq_some.mp hcached
  exact h u hmagic rule hget heq

/-- A configuration that arrives. -/
theorem sync_portal {hz : BitVec 32} {s t : NtState} {env : SyncEnv} {confStr : List Byte}
    (hfresh : FreshMagic s (.sync env confStr)) (h : ntStep hz s (.sync env confStr) = some t) :
    (portalPolicy.step s.portal (NtEvent.sync env confStr).portal).1 = t.portal := by
  simp only [ntStep] at h
  split at h
  · rename_i r hr
    obtain rfl := Option.some.inj h
    cases hconf : isConf env confStr with
    | false =>
      have hrules : ({ s with conf := r.state } : NtState).rules = s.rules := by
        simp only [NtState.rules, NtState.installed, gAuthConf_of_not_isConf hconf hr]
      rw [NtEvent.portal, hconf, if_neg Bool.false_ne_true, Policy.step, NtState.portal,
        NtState.portal, hrules]
    | true =>
      obtain ⟨json, hjson, harr⟩ := exists_json_of_isConf hconf
      have hmem : env.vmalloc = true := by
        by_contra hno
        rw [ntrackConfSync, Bool.not_eq_true _ |>.mp hno] at hr
        cases hr
      obtain ⟨r', hr', -, hg⟩ := ntrackConfSync_of_array s.conf hmem hjson harr
      obtain rfl := Except.ok.inj (hr.symm.trans hr')
      have hrules : ({ s with conf := r.state } : NtState).rules = newRules env confStr := by
        simp only [NtState.rules, NtState.installed, hg, Option.map_some]
      have hvisitor : ∀ u, visitorOf (newRules env confStr) (s.user u) =
          ⟨none, ntAuthStatus (s.user u)⟩ := by
        intro u
        rw [visitorOf, cachedRule_of_fresh hfresh, Option.map_none]
      rw [NtEvent.portal, hconf, if_pos rfl, Policy.step, NtState.portal, NtState.portal, hrules]
      simp only [hvisitor]
      rfl
  · cases h

/-- A call of `ntrack_user_match` on its own. -/
theorem ntrackUserMatch_portal {s : NtState} (hs : PortalInv s) (u : Nat) (pkt : Packet) :
    visitorOf s.rules (ntrackUserMatch s.installed (s.user u) pkt).2 =
      if l3filter pkt.skb then visitorOf s.rules (s.user u)
      else match portalPolicy.find s.portal.rules pkt with
        | none => visitorOf s.rules (s.user u)
        | some r => ⟨some r, ntAuthStatus (s.user u)⟩ := by
  have hmagics := hs.magics
  rw [NtState.portal]
  dsimp only
  cases hinst : s.installed with
  | none =>
    rw [NtState.rules, hinst, ntrackUserMatch]
    exact (ite_self _).symm
  | some conf =>
    obtain ⟨blk, hg⟩ := installed_eq_some.mp hinst
    have hnum := hs.cache.size_ok blk conf hg
    rw [NtState.rules, hinst] at hmagics ⊢
    dsimp only at hmagics ⊢
    cases hfilter : l3filter pkt.skb with
    | true => rw [ntrackUserMatch_some, hfilter, if_pos rfl, if_pos rfl]
    | false =>
      rw [if_neg Bool.false_ne_true]
      by_cases hmiss : (ntrackUserMatch (some conf) (s.user u) pkt).1 = 0
      · obtain ⟨hui, hfind⟩ := ntrackUserMatch_miss hfilter hmiss
        rw [hui, hfind]
      · obtain ⟨idx, rule, -, hnew, hfind, hstatus, -⟩ := applyRule_matched hnum hmagics hmiss
        rw [hfind, visitorOf, hnew, hstatus, Option.map_some]

/-- **One event.**  An orderly one keeps the invariant and is one of the portal, with the same
answer. -/
theorem ntStep_portal {hz : BitVec 32} {s t : NtState} {e : NtEvent} (hs : PortalInv s)
    (ho : Orderly s e) (h : ntStep hz s e = some t) :
    PortalInv t ∧ portalPolicy.step s.portal e.portal = (t.portal, ntRedirects hz s e) := by
  have hmove := ntMove_of_step h
  constructor
  · refine ⟨ntMove_inv hs.cache hmove, (ntMove_safe_iff hs.cache hs.safe hmove).mpr ho.covers, ?_⟩
    cases hmove with
    | refused hconf =>
      simp only [NtState.rules, NtState.installed, hconf]
      exact hs.magics
    | @installed env confStr st hconf =>
      simp only [NtState.rules, NtState.installed, hconf, Option.map_some]
      exact ho.magics env confStr rfl
    | user => exact hs.magics
    | idle => exact hs.magics
  · cases e with
    | sync env confStr =>
      refine Prod.ext (sync_portal ho.fresh h) ?_
      rw [NtEvent.portal]
      split
      · rfl
      · rfl
    | packet ct nos jiffies pkt =>
      rcases ct with - | - | - <;> rcases nos with - | u
      case tracked.some =>
        obtain ⟨r, hr, hvisit⟩ := ntrackHookFw_portal hs hz jiffies u pkt
        simp only [ntStep, hr, Option.some.injEq] at h
        subst h
        simp only [NtEvent.portal, ntRedirects, hr, portal_putUser]
        cases hfilter : l3filter pkt.skb with
        | true =>
          rw [hfilter, if_pos rfl] at hvisit
          have hsame : visitorOf s.rules (s.user u) = s.portal.visitor u := rfl
          rw [if_pos rfl, Policy.step, hvisit.1, hvisit.2, hsame, Function.update_eq_self]
          rfl
        | false =>
          rw [hfilter, if_neg Bool.false_ne_true] at hvisit
          rw [if_neg Bool.false_ne_true, Policy.step, hvisit]
      all_goals
        obtain rfl := Option.some.inj h
        rfl
    | identify u pkt =>
      obtain rfl := Option.some.inj h
      have hsame : visitorOf s.rules (s.user u) = s.portal.visitor u := rfl
      have hself : Function.update s.portal.visitor u (s.portal.visitor u) = s.portal.visitor :=
        Function.update_eq_self u s.portal.visitor
      rw [portal_putUser, ntrackUserMatch_portal hs, hsame, NtEvent.portal]
      cases hfilter : l3filter pkt.skb with
      | true =>
        rw [if_pos rfl, if_pos rfl, hself]
        rfl
      | false =>
        rw [if_neg Bool.false_ne_true, if_neg Bool.false_ne_true, Policy.step]
        cases hfind : portalPolicy.find s.portal.rules pkt with
        | none =>
          dsimp only
          rw [hself]
          rfl
        | some r => rfl

/-- There is memory for the tables of all configurations. -/
def TablesFit (es : List NtEvent) : Prop :=
  ∀ env confStr, NtEvent.sync env confStr ∈ es → env.vmalloc = true

/-- A call of the module returns. -/
theorem exists_ntAnswer {hz : BitVec 32} {s : NtState} {e : NtEvent} (hs : PortalInv s)
    (hmem : ∀ env confStr, e = .sync env confStr → env.vmalloc = true) :
    ∃ r, ntAnswer hz s e = some r := by
  suffices h : ∃ t, ntStep hz s e = some t by
    obtain ⟨t, ht⟩ := h
    exact ⟨_, by rw [ntAnswer, ht, Option.map_some]⟩
  cases e with
  | sync env confStr =>
    have hmove := ntrackConfSync_move env s.conf confStr
    cases hr : ntrackConfSync env s.conf confStr with
    | error f =>
      rw [hr] at hmove
      cases hmove with
      | fault hno => exact absurd (hmem env confStr rfl) (by rw [hno]; decide)
    | ok r => exact ⟨{ s with conf := r.state }, by simp only [ntStep, hr]⟩
  | packet ct nos jiffies pkt =>
    rcases ct with - | - | - <;> rcases nos with - | u
    case tracked.some =>
      obtain ⟨r, hr, -⟩ := ntrackHookFw_portal hs hz jiffies u pkt
      exact ⟨s.putUser u r.ui r.matched, by simp only [ntStep, hr]⟩
    all_goals exact ⟨s, rfl⟩
  | identify u pkt => exact ⟨_, rfl⟩

/-- Nobody has been given a rule. -/
def portalInit (user : Nat → UserInfo) : Office Nat PortalRule (BitVec 32) :=
  ⟨[], fun u => ⟨none, ntAuthStatus (user u)⟩⟩

theorem map_fst_ntAnswer (hz : BitVec 32) :
    (fun s e => (ntAnswer hz s e).map Prod.fst) = ntStep hz := by
  funext s e
  rw [ntAnswer, Option.map_map]
  exact Option.map_id'

/-- Any run from a state with the invariant. -/
theorem answers_portal {hz : BitVec 32} {s : NtState} {es : List NtEvent} (hs : PortalInv s)
    (hmem : TablesFit es) (h : AllSteps (ntStep hz) Orderly s es) :
    ∃ t ws, answers (ntAnswer hz) s es = some (t, ws) ∧ PortalInv t ∧
      answers (fun o e => some (portalPolicy.step o e)) s.portal (es.map NtEvent.portal) =
        some (t.portal, ws) := by
  rw [← map_fst_ntAnswer] at h
  refine answers_sim (ntAnswer hz) (C := Orderly)
    (A := fun e => ∀ env confStr, e = .sync env confStr → env.vmalloc = true)
    (fun s e hs hA => exists_ntAnswer hs hA) ?_ hs ?_ h
  · intro s e t w hs ho hstep
    rw [ntAnswer, Option.map_eq_some_iff] at hstep
    obtain ⟨t', ht, heq⟩ := hstep
    obtain ⟨rfl, rfl⟩ := Prod.mk.inj heq
    exact ntStep_portal hs ho ht
  · rintro e he env confStr rfl
    exact hmem env confStr he

/-- **The kernel module is the portal.**  For every run of orderly configurations and packets of
any users from the loading of the module on: no call faults, the packets that are answered with a
redirect are those of the portal, and after it the rules in use are those of the portal, as are the
rule and the status of every user. -/
theorem ntRun_portal (hz : BitVec 32) (user : Nat → UserInfo) (es : List NtEvent)
    (hmem : TablesFit es) (h : AllSteps (ntStep hz) Orderly (ntInit user) es) :
    ∃ t ws, answers (ntAnswer hz) (ntInit user) es = some (t, ws) ∧
      answers (fun o e => some (portalPolicy.step o e)) (portalInit user)
        (es.map NtEvent.portal) = some (t.portal, ws) := by
  obtain ⟨t, ws, hrun, -, hportal⟩ := answers_portal (ntInit_portalInv user) hmem h
  exact ⟨t, ws, hrun, hportal⟩

/-- Packets are orderly. -/
theorem orderly_packets {hz : BitVec 32} {es : List NtEvent}
    (h : ∀ e ∈ es, ∃ ct nos jiffies pkt, e = .packet ct nos jiffies pkt) (s : NtState) :
    AllSteps (ntStep hz) Orderly s es := by
  induction es generalizing s with
  | nil => trivial
  | cons e es ih =>
    intro t _
    obtain ⟨ct, nos, jiffies, pkt, rfl⟩ := h e List.mem_cons_self
    exact ⟨⟨trivial, trivial, fun _ _ heq => absurd heq (by simp)⟩,
      ih (fun e' he' => h e' (List.mem_cons_of_mem _ he')) t⟩

/-- A web request in the IP set `b`. -/
def getOfB : Packet :=
  ⟨ipv4Packet IPPROTO_TCP ([0, 80, 0, 80, 0, 0, 0, 0, 0, 0, 0, 0, 0x50, 0, 0, 0, 0, 0, 0, 0] ++
    [0x47, 0x45, 0x54, 0x20]), fun idx => if idx = 0x62 then 1 else 0⟩

/-- A rule with log in for the set `b`. -/
def loginConf : NtEvent := .sync (plentyEnv 1) (confText [0x62])

theorem orderly_loginConf (user : Nat → UserInfo) : Orderly (ntInit user) loginConf := by
  have hmagics : (newRules (plentyEnv 1) (confText [0x62])).all (fun rule => rule.magic != 0) := by
    decide +kernel
  refine ⟨Or.inr fun u hu => absurd rfl hu, fun u hu => absurd rfl hu, ?_⟩
  intro env confStr heq rule hrule
  obtain ⟨rfl, rfl⟩ := NtEvent.sync.inj heq
  exact bne_iff_ne.mp (List.all_eq_true.mp hmagics rule hrule)

theorem ntRun_portal_login :
    let es := [loginConf, .packet .tracked (some 0) 0 getOfB, .packet .tracked (some 1) 0 packetOfB]
    (∃ t ws, answers (ntAnswer 100) (ntInit fun _ => someUser) es = some (t, ws) ∧
      answers (fun o e => some (portalPolicy.step o e)) (portalInit fun _ => someUser)
        (es.map NtEvent.portal) = some (t.portal, ws)) ∧
      (answers (ntAnswer 100) (ntInit fun _ => someUser) es).map Prod.snd =
        some [false, true, false] := by
  intro es
  refine ⟨ntRun_portal 100 (fun _ => someUser) es ?_ ?_, by decide +kernel⟩
  · intro env confStr h
    have heq : NtEvent.sync env confStr = loginConf := by simpa [es] using h
    obtain ⟨rfl, rfl⟩ := NtEvent.sync.inj heq
    rfl
  · intro s hs
    refine ⟨orderly_loginConf _, orderly_packets ?_ s⟩
    simp

/-! ## 5. What becomes of the packets of a user -/

/-- What is decided about the packets of a user who has no rule, from the status that the user
has: the answers and the new status. -/
inductive Decided (rules : List PortalRule) (status : BitVec 32) :
    List Packet → List Bool → BitVec 32 → Prop
  /-- no packet is in a set of a rule -/
  | never {pkts : List Packet} (h : ∀ pkt ∈ pkts, portalPolicy.find rules pkt = none) :
      Decided rules status pkts (pkts.map fun _ => false) status
  /-- the first packet that is in a set of some rule decides which rule it is, for all packets that
  follow, whatever sets they are in -/
  | first {pkts : List Packet} {pkt : Packet} {pkts' : List Packet} {r : PortalRule}
      (hnone : ∀ pkt ∈ pkts, portalPolicy.find rules pkt = none)
      (hfind : portalPolicy.find rules pkt = some r) :
      Decided rules status (pkts ++ pkt :: pkts')
        (pkts.map (fun _ => false) ++ (pkt :: pkts').map (r.redirects status)) (r.leaves status)

theorem decided_alone (rules : List PortalRule) (status : BitVec 32) (pkts : List Packet) :
    Decided rules status pkts (portalPolicy.alone rules ⟨none, status⟩ pkts).2
      (portalPolicy.alone rules ⟨none, status⟩ pkts).1.status := by
  rcases Policy.alone_cases (p := portalPolicy) (v := ⟨none, status⟩) rules rfl pkts with
    ⟨hall, h⟩ | ⟨ys, x, zs, r, rfl, hys, hx, h⟩
  · rw [h]
    exact .never hall
  · rw [h, portalPolicy_acts]
    exact .first hys hx

/-- The packets of a user that the module looks at. -/
def packetsOf (u : Nat) (es : List NtEvent) : List Packet := broughtBy u (es.map NtEvent.portal)

/-- The answers to them. -/
def redirectsOf (u : Nat) (es : List NtEvent) (ws : List Bool) : List Bool :=
  answersOf u (es.map NtEvent.portal) ws

theorem isVisit_portal {e : NtEvent} (h : ∃ ct nos jiffies pkt, e = .packet ct nos jiffies pkt) :
    IsVisit e.portal := by
  obtain ⟨ct, nos, jiffies, pkt, rfl⟩ := h
  rcases ct with - | - | - <;> rcases nos with - | u
  case tracked.some =>
    rw [NtEvent.portal]
    split
    · exact .idle
    · exact .visit u pkt
  all_goals exact .idle

/-- **What becomes of the packets of each user.**  After any orderly run, and one more orderly
configuration: whatever packets of whatever users follow, no call faults, and what is decided about
the packets of a user is said by `Decided`, from the status of the user and the new rules alone. -/
theorem portal_decisions (hz : BitVec 32) (user : Nat → UserInfo) (es : List NtEvent)
    (env : SyncEnv) (confStr : List Byte) (s : NtState) (packets : List NtEvent)
    (h : AllSteps (ntStep hz) Orderly (ntInit user) (es ++ [.sync env confStr]))
    (hrun : run (ntStep hz) (ntInit user) (es ++ [.sync env confStr]) = some s)
    (hconf : isConf env confStr = true)
    (hpackets : ∀ e ∈ packets, ∃ ct nos jiffies pkt, e = .packet ct nos jiffies pkt) :
    ∃ t ws, answers (ntAnswer hz) s packets = some (t, ws) ∧ ∀ u,
      Decided ((newRules env confStr).map AuthRule.portal) (ntAuthStatus (s.user u))
        (packetsOf u packets) (redirectsOf u packets ws) (ntAuthStatus (t.user u)) := by
  have hinv := (allStates_of_allSteps (fun s e t hs ho ht => (ntStep_portal hs ho ht).1) _ _
    (ntInit_portalInv user) h).last hrun
  -- the last configuration takes the rules of all users away
  obtain ⟨s₀, hs₀, hlast⟩ : ∃ s₀, run (ntStep hz) (ntInit user) es = some s₀ ∧
      ntStep hz s₀ (.sync env confStr) = some s := by
    rw [run_append, Option.bind_eq_some_iff] at hrun
    simpa only [run_singleton] using hrun
  have hportal := sync_portal ((h.drop hs₀) s hlast).1.fresh hlast
  rw [NtEvent.portal, if_pos hconf, Policy.step] at hportal
  have hmem : TablesFit packets := by
    intro env' confStr' he
    obtain ⟨ct, nos, jiffies, pkt, heq⟩ := hpackets _ he
    cases heq
  obtain ⟨t, ws, hrun', -, hsim⟩ := answers_portal hinv hmem (orderly_packets hpackets s)
  refine ⟨t, ws, hrun', ?_⟩
  intro u
  have hvisits : ∀ e ∈ packets.map NtEvent.portal, IsVisit e := by
    intro e he
    obtain ⟨e', he', rfl⟩ := List.mem_map.mp he
    exact isVisit_portal (hpackets e' he')
  obtain ⟨-, halone⟩ := answersOf_visits u hvisits hsim
  have hrules : s.portal.rules = (newRules env confStr).map AuthRule.portal := by rw [← hportal]
  have hvisitor : s.portal.visitor u = ⟨none, ntAuthStatus (s.user u)⟩ := by
    have hstatus : (s.portal.visitor u).status = ntAuthStatus (s.user u) := rfl
    rw [← hstatus, ← hportal]
  rw [hrules, hvisitor] at halone
  have hdecided := decided_alone ((newRules env confStr).map AuthRule.portal)
    (ntAuthStatus (s.user u)) (packetsOf u packets)
  rw [packetsOf, ← halone] at hdecided
  exact hdecided

theorem portal_decisions_login : ∃ s,
    run (ntStep 100) (ntInit fun _ => someUser) ([] ++ [loginConf]) = some s ∧
      let packets := [NtEvent.packet .tracked (some 0) 0 packetOfB,
        .packet .tracked (some 1) 0 packetOfB, .packet .tracked (some 0) 0 getOfB]
      ∃ t ws, answers (ntAnswer 100) s packets = some (t, ws) ∧ ∀ u,
        Decided ((newRules (plentyEnv 1) (confText [0x62])).map AuthRule.portal)
          (ntAuthStatus (s.user u)) (packetsOf u packets) (redirectsOf u packets ws)
          (ntAuthStatus (t.user u)) := by
  obtain ⟨s, hs⟩ : ∃ s, run (ntStep 100) (ntInit fun _ => someUser) ([] ++ [loginConf]) = some s :=
    Option.isSome_iff_exists.mp (by decide +kernel)
  refine ⟨s, hs, portal_decisions 100 (fun _ => someUser) [] (plentyEnv 1) (confText [0x62]) s _ ?_
    hs (by decide +kernel) (by simp)⟩
  intro s' _
  exact ⟨orderly_loginConf _, trivial⟩

end Puppies
