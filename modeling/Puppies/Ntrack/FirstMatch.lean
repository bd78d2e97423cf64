/-
# The first rule that matches (`ntrack_user_match`)

`ntrack_user_match` walks over the rules and, in each one, over its sets, carries the answer of
the last test in `ret`, and leaves both loops by a `goto` when it is not 0.  The two loops are
given here as they stand (`userMatchLoops`); what they compute is the search of
`Ntrack/Redirect` (`userMatchLoops_eq`), and what that means is `firstMatch_loops`: the rule is
the first one that has a matching set, and nothing else of the user's record is touched.
-/
import Mathlib.Data.List.Forall2
import Puppies.Ntrack.Redirect

namespace Puppies

open BreakLoop

/-! ## 1. The loops -/

/-- `ret` and the record. -/
structure MatchLoop where
  ret : Nat
  ui : UserInfo

/-- The body of the inner loop: `goto __matched` is a `break` with `ret` set. -/
def testSet (pkt : Packet) (i : Nat) (rule : AuthRule) (_ : Nat) (idx : BitVec 16)
    (s : MatchLoop) : Ctl MatchLoop :=
  let ret := pkt.ipSetTest idx
  if ret ≠ 0 then
    .stop ⟨ret, { s.ui with groupId := -1, ruleIdx := i, ruleMagic := rule.magic }⟩
  else .next ⟨ret, s.ui⟩

/-- The body of the outer loop.  The inner one is left with `ret` set by the `goto` only, which
leaves the outer one too. -/
def testRule (pkt : Packet) (i : Nat) (rule : AuthRule) (s : MatchLoop) : Ctl MatchLoop :=
  let s := walk (testSet pkt i rule) 0 rule.usetIdx s
  if s.ret ≠ 0 then .stop s else .next s

/-- `ntrack_user_match`, with its loops. -/
def userMatchLoops (gconf : Option AuthConf) (ui : UserInfo) (pkt : Packet) : Nat × UserInfo :=
  match gconf with
  | none => (0, ui)
  | some conf =>
    if conf.numRules = 0 then (0, ui)
    else if l3filter pkt.skb then (0, ui)
    else
      let s := walk (testRule pkt) 0 conf.rules ⟨0, ui⟩
      (s.ret, s.ui)

/-- A record that was matched to rule `i`. -/
def UserInfo.matched (ui : UserInfo) (i : Nat) (rule : AuthRule) : UserInfo :=
  { ui with groupId := -1, ruleIdx := i, ruleMagic := rule.magic }

theorem walk_testSet (pkt : Packet) (i j : Nat) (rule : AuthRule) (idxs : List (BitVec 16))
    (ui : UserInfo) : walk (testSet pkt i rule) j idxs ⟨0, ui⟩ =
      if firstHit pkt.ipSetTest idxs ≠ 0 then ⟨firstHit pkt.ipSetTest idxs, ui.matched i rule⟩
      else ⟨0, ui⟩ := by
  induction idxs generalizing j with
  | nil => rfl
  | cons idx idxs ih =>
    by_cases hidx : pkt.ipSetTest idx ≠ 0
    · have hbody : testSet pkt i rule j idx ⟨0, ui⟩ =
          .stop ⟨pkt.ipSetTest idx, ui.matched i rule⟩ := by
        simp only [testSet, if_pos hidx, UserInfo.matched]
      rw [walk_cons_stop hbody, firstHit, if_pos hidx, if_pos hidx]
    · have hbody : testSet pkt i rule j idx ⟨0, ui⟩ = .next ⟨0, ui⟩ := by
        simp only [testSet, not_not.mp hidx, ne_eq, not_true_eq_false, if_false]
      rw [walk_cons_next hbody, firstHit, if_neg hidx]
      exact ih (j + 1)

/-- **The two loops are the search for the first rule.** -/
theorem walk_testRule (pkt : Packet) (i : Nat) (rules : List AuthRule) (ui : UserInfo) :
    walk (testRule pkt) i rules ⟨0, ui⟩ =
      match firstRule pkt.ipSetTest i rules with
      | some (k, rule, ret) => ⟨ret, ui.matched k rule⟩
      | none => ⟨0, ui⟩ := by
  induction rules generalizing i with
  | nil => rfl
  | cons rule rules ih =>
    have hsets := walk_testSet pkt i 0 rule rule.usetIdx ui
    by_cases hhit : firstHit pkt.ipSetTest rule.usetIdx ≠ 0
    · rw [if_pos hhit] at hsets
      have hbody : testRule pkt i rule ⟨0, ui⟩ =
          .stop ⟨firstHit pkt.ipSetTest rule.usetIdx, ui.matched i rule⟩ := by
        simp only [testRule, hsets, if_pos hhit]
      rw [walk_cons_stop hbody, firstRule, if_pos hhit]
    · rw [if_neg hhit] at hsets
      have hbody : testRule pkt i rule ⟨0, ui⟩ = .next ⟨0, ui⟩ := by
        simp only [testRule, hsets, ne_eq, not_true_eq_false, if_false]
      rw [walk_cons_next hbody, firstRule, if_neg hhit]
      exact ih (i + 1)

/-- An empty table is a table in which nothing is found. -/
theorem ntrackUserMatch_some (conf : AuthConf) (ui : UserInfo) (pkt : Packet) :
    ntrackUserMatch (some conf) ui pkt =
      if l3filter pkt.skb then (0, ui)
      else match firstRule pkt.ipSetTest 0 conf.rules with
        | some (i, rule, ret) => (ret, ui.matched i rule)
        | none => (0, ui) := by
  rw [ntrackUserMatch]
  by_cases hzero : conf.numRules = 0
  · have hnil : conf.rules = [] := List.eq_nil_of_length_eq_zero hzero
    simp [hnil, AuthConf.numRules, firstRule]
  · rw [if_neg hzero]
    rfl

theorem userMatchLoops_eq (gconf : Option AuthConf) (ui : UserInfo) (pkt : Packet) :
    userMatchLoops gconf ui pkt = ntrackUserMatch gconf ui pkt := by
  cases gconf with
  | none => rfl
  | some conf =>
    unfold userMatchLoops ntrackUserMatch
    simp only [walk_testRule]
    split
    · rfl
    · split
      · rfl
      · cases firstRule pkt.ipSetTest 0 conf.rules with
        | none => rfl
        | some found => rfl

/-! ## 2. The search -/

/-- Some set of the rule matches. -/
def RuleHits (test : BitVec 16 → Nat) (rule : AuthRule) : Prop :=
  ∃ idx ∈ rule.usetIdx, test idx ≠ 0

theorem firstHit_ne_zero_iff {test : BitVec 16 → Nat} {idxs : List (BitVec 16)} :
    firstHit test idxs ≠ 0 ↔ ∃ idx ∈ idxs, test idx ≠ 0 := by
  induction idxs with
  | nil => simp [firstHit]
  | cons idx idxs ih =>
    rw [firstHit]
    split
    · rename_i hidx
      exact iff_of_true hidx ⟨idx, List.mem_cons_self, hidx⟩
    · rename_i hidx
      rw [ih]
      simp [not_not.mp hidx]

theorem firstRule_eq_none_iff {test : BitVec 16 → Nat} {i : Nat} {rules : List AuthRule} :
    firstRule test i rules = none ↔ ∀ rule ∈ rules, ¬ RuleHits test rule := by
  induction rules generalizing i with
  | nil => simp [firstRule]
  | cons rule rules ih =>
    have hhead : firstHit test rule.usetIdx ≠ 0 ↔ RuleHits test rule := firstHit_ne_zero_iff
    rw [firstRule, List.forall_mem_cons]
    split
    · rename_i hhit
      exact iff_of_false (by simp) fun h => h.1 (hhead.mp hhit)
    · rename_i hhit
      rw [ih]
      exact (and_iff_right fun h => hhit (hhead.mpr h)).symm

/-- **No rule in front of the one that is found matches.** -/
theorem not_ruleHits_of_lt {test : BitVec 16 → Nat} {i k ret : Nat} {rules : List AuthRule}
    {rule : AuthRule} (h : firstRule test i rules = some (k, rule, ret)) {j : Nat}
    {rule' : AuthRule} (hj : rules[j]? = some rule') (hlt : i + j < k) :
    ¬ RuleHits test rule' := by
  induction rules generalizing i j with
  | nil => cases hj
  | cons r rules ih =>
    rw [firstRule] at h
    split at h
    · simp only [Option.some.injEq, Prod.mk.injEq] at h
      omega
    · rename_i hhit
      cases j with
      | zero =>
        obtain rfl : r = rule' := by simpa using hj
        exact fun hr => hhit (firstHit_ne_zero_iff.mpr hr)
      | succ j => exact ih h (by simpa using hj) (by omega)

/-- Two tables that differ in the order of the sets inside their rules only. -/
def SameSets (rules rules' : List AuthRule) : Prop :=
  List.Forall₂ (fun r r' => r.magic = r'.magic ∧ r.usetIdx.Perm r'.usetIdx) rules rules'

theorem ruleHits_perm (test : BitVec 16 → Nat) {r r' : AuthRule}
    (h : r.usetIdx.Perm r'.usetIdx) : RuleHits test r ↔ RuleHits test r' :=
  exists_congr fun _ => and_congr_left fun _ => h.mem_iff

/-- **The order of the sets inside a rule does not matter.** -/
theorem firstRule_sameSets (test : BitVec 16 → Nat) (i : Nat) {rules rules' : List AuthRule}
    (h : SameSets rules rules') :
    (firstRule test i rules = none ∧ firstRule test i rules' = none) ∨
      ∃ k rule rule' ret ret', firstRule test i rules = some (k, rule, ret) ∧
        firstRule test i rules' = some (k, rule', ret') ∧ rule.magic = rule'.magic ∧
        ret ≠ 0 ∧ ret' ≠ 0 := by
  induction h generalizing i with
  | nil => exact Or.inl ⟨rfl, rfl⟩
  | @cons r r' rules rules' hr hrest ih =>
    have hperm := ruleHits_perm test hr.2
    rw [firstRule, firstRule]
    by_cases hhit : firstHit test r.usetIdx ≠ 0
    · have hhit' : firstHit test r'.usetIdx ≠ 0 :=
        firstHit_ne_zero_iff.mpr (hperm.mp (firstHit_ne_zero_iff.mp hhit))
      rw [if_pos hhit, if_pos hhit']
      exact Or.inr ⟨i, r, r', _, _, rfl, rfl, hr.1, hhit, hhit'⟩
    · have hhit' : ¬ firstHit test r'.usetIdx ≠ 0 :=
        fun h => hhit (firstHit_ne_zero_iff.mpr (hperm.mpr (firstHit_ne_zero_iff.mp h)))
      rw [if_neg hhit, if_neg hhit']
      exact ih (i + 1)

/-! ## 3. What a call does -/

/-- **First match, and nothing else.** -/
structure FirstMatch (gconf : Option AuthConf) (ui : UserInfo) (pkt : Packet)
    (out : Nat × UserInfo) : Prop where
  /-- a packet that is not filtered, and some set of some rule -/
  found : out.1 ≠ 0 ↔ l3filter pkt.skb = false ∧
    ∃ conf, gconf = some conf ∧ ∃ rule ∈ conf.rules, RuleHits pkt.ipSetTest rule
  /-- the first rule, its magic, and the mark of a group; the other fields are those of before -/
  hit : out.1 ≠ 0 → ∃ (conf : AuthConf) (i : Nat) (rule : AuthRule), gconf = some conf ∧
    conf.rules[i]? = some rule ∧
    RuleHits pkt.ipSetTest rule ∧
    (∀ (j : Nat) (rule' : AuthRule), j < i → conf.rules[j]? = some rule' →
      ¬ RuleHits pkt.ipSetTest rule') ∧
    out.2 = { ui with groupId := -1, ruleIdx := i, ruleMagic := rule.magic }
  miss : out.1 = 0 → out.2 = ui
  /-- other orders of the sets inside the rules give the same -/
  order : ∀ conf conf', gconf = some conf → SameSets conf.rules conf'.rules →
    ((userMatchLoops (some conf') ui pkt).1 ≠ 0 ↔ out.1 ≠ 0) ∧
      (userMatchLoops (some conf') ui pkt).2 = out.2

theorem ntrackUserMatch_sameSets {conf conf' : AuthConf} (h : SameSets conf.rules conf'.rules)
    (ui : UserInfo) (pkt : Packet) :
    ((ntrackUserMatch (some conf') ui pkt).1 ≠ 0 ↔ (ntrackUserMatch (some conf) ui pkt).1 ≠ 0) ∧
      (ntrackUserMatch (some conf') ui pkt).2 = (ntrackUserMatch (some conf) ui pkt).2 := by
  rw [ntrackUserMatch_some, ntrackUserMatch_some]
  by_cases hfilter : l3filter pkt.skb = true
  · rw [if_pos hfilter, if_pos hfilter]
    exact ⟨Iff.rfl, rfl⟩
  · rw [if_neg hfilter, if_neg hfilter]
    rcases firstRule_sameSets pkt.ipSetTest 0 h with
      ⟨h1, h2⟩ | ⟨k, rule, rule', ret, ret', h1, h2, hmagic, hret, hret'⟩
    · simp only [h1, h2, and_self]
    · simp only [h1, h2, UserInfo.matched, hmagic, and_true]
      exact iff_of_true hret' hret

theorem userMatchLoops_sameSets {gconf : Option AuthConf} {ui : UserInfo} {pkt : Packet}
    {out : Nat × UserInfo} (hout : userMatchLoops gconf ui pkt = out) (conf conf' : AuthConf)
    (hconf : gconf = some conf) (hsame : SameSets conf.rules conf'.rules) :
    ((userMatchLoops (some conf') ui pkt).1 ≠ 0 ↔ out.1 ≠ 0) ∧
      (userMatchLoops (some conf') ui pkt).2 = out.2 := by
  subst hconf hout
  rw [userMatchLoops_eq, userMatchLoops_eq]
  exact ntrackUserMatch_sameSets hsame ui pkt

/-- A call that finds nothing. -/
theorem FirstMatch.of_miss {gconf : Option AuthConf} {ui : UserInfo} {pkt : Packet}
    (hno : l3filter pkt.skb = false → ∀ conf, gconf = some conf →
      ∀ rule ∈ conf.rules, ¬ RuleHits pkt.ipSetTest rule)
    (hout : userMatchLoops gconf ui pkt = (0, ui)) : FirstMatch gconf ui pkt (0, ui) := by
  refine ⟨iff_of_false (fun h => h rfl) ?_, fun h => absurd rfl h, fun _ => rfl,
    userMatchLoops_sameSets hout⟩
  rintro ⟨hfilter, conf, hconf, rule, hrule, hhit⟩
  exact hno hfilter conf hconf rule hrule hhit

/-- A call that finds rule `i`. -/
theorem FirstMatch.of_first {conf : AuthConf} {ui : UserInfo} {pkt : Packet} {i ret : Nat}
    {rule : AuthRule} (hfilter : l3filter pkt.skb = false)
    (hfirst : firstRule pkt.ipSetTest 0 conf.rules = some (i, rule, ret))
    (hout : userMatchLoops (some conf) ui pkt = (ret, ui.matched i rule)) :
    FirstMatch (some conf) ui pkt (ret, ui.matched i rule) := by
  obtain ⟨-, hget, hret, hhit⟩ := firstRule_eq_some hfirst
  have hhits : RuleHits pkt.ipSetTest rule := firstHit_ne_zero_iff.mp (hhit ▸ hret)
  have hmem : rule ∈ conf.rules := List.mem_of_getElem? hget
  refine ⟨iff_of_true hret ⟨hfilter, conf, rfl, rule, hmem, hhits⟩, ?_, fun h => absurd h hret,
    userMatchLoops_sameSets hout⟩
  intro _
  refine ⟨conf, i, rule, rfl, hget, hhits, ?_, rfl⟩
  intro j rule' hj hget'
  exact not_ruleHits_of_lt hfirst hget' (by omega)

/-- **`ntrack_user_match` finds the first matching rule**, for every table, record and packet. -/
theorem firstMatch_loops (gconf : Option AuthConf) (ui : UserInfo) (pkt : Packet) :
    FirstMatch gconf ui pkt (userMatchLoops gconf ui pkt) := by
  cases gconf with
  | none => exact FirstMatch.of_miss (fun _ conf hconf => by cases hconf) rfl
  | some conf =>
    have hcall := ntrackUserMatch_some conf ui pkt
    rw [← userMatchLoops_eq] at hcall
    by_cases hfilter : l3filter pkt.skb = true
    · rw [if_pos hfilter] at hcall
      rw [hcall]
      refine FirstMatch.of_miss ?_ hcall
      intro hpass
      rw [hfilter] at hpass
      cases hpass
    · rw [if_neg hfilter] at hcall
      cases hfirst : firstRule pkt.ipSetTest 0 conf.rules with
      | none =>
        rw [hfirst] at hcall
        rw [hcall]
        refine FirstMatch.of_miss ?_ hcall
        rintro - conf' hconf rule hrule
        obtain rfl := Option.some.inj hconf
        exact firstRule_eq_none_iff.mp hfirst rule hrule
      | some found =>
        rw [hfirst] at hcall
        rw [hcall]
        exact FirstMatch.of_first (Bool.eq_false_iff.mpr hfilter) hfirst hcall

end Puppies
