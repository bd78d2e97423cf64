/-
# The bounds of the rule table

The table of a configuration has `MAX_URL_RULES` entries.  `ntrack_conf_sync` fills it and
counts in `num_rules`; `ntrack_user_match` walks over `num_rules` entries and leaves the index
of one in a user's record; `user_get_rule` reads the index back through eight bits and compares
it with `num_rules`.  All of them work with one bound, and the bound is off by one: a text with
more than `MAX_URL_RULES` rules gets the first `MAX_URL_RULES + 1` of them stored
(`tableOk_iff`).
-/
import Puppies.Ntrack.Redirect

namespace Puppies

open ByteMem

/-! ## 1. Reading an index back -/

/-- Eight bits hold every index that can be stored. -/
theorem int8Idx_ofNat {i : Nat} (h : i < 128) : int8Idx i = i := by
  unfold int8Idx
  rw [BitVec.toInt_ofInt]
  exact Int.bmod_eq_of_le (by omega) (by omega)

/-- `user_get_rule` returns a rule of the table, if the index is one of it. -/
theorem userGetRule_of_lt {ui : UserInfo} {conf : AuthConf} {i : Nat} (hidx : ui.ruleIdx = i)
    (hi : i < conf.numRules) (h128 : i < 128) : userGetRule ui conf = some (i : Int) := by
  unfold userGetRule
  rw [hidx, int8Idx_ofNat h128]
  exact if_neg (by omega)

/-- And `NULL` otherwise. -/
theorem userGetRule_of_le {ui : UserInfo} {conf : AuthConf} {i : Nat} (hidx : ui.ruleIdx = i)
    (hi : conf.numRules ≤ i) (h128 : i < 128) : userGetRule ui conf = none := by
  unfold userGetRule
  rw [hidx, int8Idx_ofNat h128]
  exact if_pos (by omega)

theorem derefRule_of_lt {conf : AuthConf} {i : Nat} {rule : AuthRule}
    (h : conf.rules[i]? = some rule) : derefRule conf (some (i : Int)) = .ok rule := by
  have hneg : ¬ (i : Int) < 0 := by omega
  simp only [derefRule, if_neg hneg, Int.toNat_natCast, h]

/-! ## 2. Stores, table and matches -/

/-- What the table is relied on for, after a call of `ntrack_conf_sync` that returned. -/
structure TableOk (r : SyncResult) : Prop where
  /-- every store was inside the table -/
  stores : ∀ i ∈ r.stores, i < maxUrlRules
  /-- and after a call that installs one, … -/
  installed : r.ret = 0 → ∃ blk conf, r.state.gAuthConf = some (blk, conf) ∧
    -- the table has no more rules than entries,
    conf.numRules ≤ maxUrlRules ∧
    -- and whoever is matched is given back the rule that matched, which is in the table
    ∀ ui pkt, (ntrackUserMatch (some conf) ui pkt).1 ≠ 0 →
      ∃ i rule, firstRule pkt.ipSetTest 0 conf.rules =
          some (i, rule, (ntrackUserMatch (some conf) ui pkt).1) ∧
        userGetRule (ntrackUserMatch (some conf) ui pkt).2 conf = some (i : Int) ∧
        derefRule conf (some (i : Int)) = .ok rule ∧ i < maxUrlRules

/-- A table of at most `MAX_URL_RULES + 1` rules gives back the rule that matched. -/
theorem userGetRule_match {conf : AuthConf} {ui : UserInfo} {pkt : Packet}
    (hnum : conf.numRules ≤ maxUrlRules + 1) (h : (ntrackUserMatch (some conf) ui pkt).1 ≠ 0) :
    ∃ i rule, firstRule pkt.ipSetTest 0 conf.rules =
        some (i, rule, (ntrackUserMatch (some conf) ui pkt).1) ∧
      userGetRule (ntrackUserMatch (some conf) ui pkt).2 conf = some (i : Int) ∧
      derefRule conf (some (i : Int)) = .ok rule ∧ i < conf.numRules := by
  rcases ntrackUserMatch_cases (some conf) ui pkt with hz | ⟨c, i, rule, ret, hc, hfirst, hm⟩
  · rw [hz] at h
    exact absurd rfl h
  · obtain rfl := Option.some.inj hc
    obtain ⟨-, hget, -, -⟩ := firstRule_eq_some hfirst
    rw [Nat.sub_zero] at hget
    have hi : i < conf.numRules := (List.getElem?_eq_some_iff.mp hget).1
    have h128 : i < 128 := by
      rw [maxUrlRules] at hnum
      omega
    rw [hm]
    exact ⟨i, rule, hfirst, userGetRule_of_lt rfl hi h128, derefRule_of_lt hget, hi⟩

/-- **When the bounds hold.**  For every text and every outcome of the allocations, of the
search for the names and of the clock: the stores of `ntrack_conf_sync` are inside the table,
and the table and the matches made with it inside its bound, exactly when at most
`MAX_URL_RULES` elements of the text qualify for a rule. -/
theorem tableOk_iff (env : SyncEnv) (st : ConfState) (confStr : List Byte) :
    (∀ r, ntrackConfSync env st confStr = .ok r → TableOk r) ↔
      (env.vmalloc = true → (elements env confStr).countP (qualifies env) ≤ maxUrlRules) := by
  have hlen := length_newRules env confStr
  have hmove := ntrackConfSync_move env st confStr
  generalize ntrackConfSync env st confStr = res at hmove ⊢
  cases hmove with
  | fault hmem => simp [hmem]
  | @refused st' hmem hconf hnext helems =>
    refine ⟨fun _ _ => by simp [helems], ?_⟩
    intro _ r hr
    obtain rfl := Except.ok.inj hr
    exact ⟨by simp, fun h => absurd h (by simp)⟩
  | @installed st' hmem hconf hnext =>
    constructor
    · intro h _
      have hok := h _ rfl
      by_contra hmany
      -- the 65th rule was stored behind the table
      have hstore : maxUrlRules ∈ List.range (newRules env confStr).length := by
        rw [List.mem_range]
        omega
      exact Nat.lt_irrefl _ (hok.stores _ hstore)
    · intro h r hr
      obtain rfl := Except.ok.inj hr
      have hle : (newRules env confStr).length ≤ maxUrlRules := by
        have := h hmem
        omega
      refine ⟨?_, fun _ => ⟨_, _, hconf, hle, ?_⟩⟩
      · intro i hi
        exact Nat.lt_of_lt_of_le (List.mem_range.mp hi) hle
      · intro ui pkt hm
        obtain ⟨i, rule, hfirst, hget, hderef, hi⟩ :=
          userGetRule_match (Nat.le_succ_of_le hle) hm
        exact ⟨i, rule, hfirst, hget, hderef, Nat.lt_of_lt_of_le hi hle⟩

/-- Every name is that of an IP set, whose index is its first character, and there is memory. -/
def plentyEnv (jiffies : BitVec 32) : SyncEnv where
  bo := .little
  vmalloc := true
  kzalloc := fun _ => true
  ipSetGetByname := fun name => name.head?.map (BitVec.setWidth 16)
  jiffies := fun _ => jiffies

/-- `{"IPSets":["c"],"Flags":1},` with the character `c`. -/
def ruleText (c : Byte) : List Byte :=
  [0x7b, 0x22, 0x49, 0x50, 0x53, 0x65, 0x74, 0x73, 0x22, 0x3a, 0x5b, 0x22, c, 0x22, 0x5d, 0x2c,
    0x22, 0x46, 0x6c, 0x61, 0x67, 0x73, 0x22, 0x3a, 0x31, 0x7d, 0x2c]

/-- An array of such elements, one for each character. -/
def confText (cs : List Byte) : List Byte := [0x5b] ++ cs.flatMap ruleText ++ [0x5d]

/-- 65 elements with the set `a`. -/
def confText65 : List Byte := confText (List.replicate 65 0x61)

/-- The last one is stored behind the table, and all of them are counted. -/
theorem tableOk_broken :
    ∃ r, ntrackConfSync (plentyEnv 1) .init confText65 = .ok r ∧ r.ret = 0 ∧
      r.stores.getLast? = some 64 ∧ (r.state.gAuthConf.map fun g => g.2.numRules) = some 65 ∧
      ¬ TableOk r := by
  have h : ((ntrackConfSync (plentyEnv 1) .init confText65).toOption.map fun r =>
      (r.ret, r.stores.getLast?, r.state.gAuthConf.map fun g => g.2.numRules))
        = some (0, some 64, some 65) := by
    decide +kernel
  cases hr : ntrackConfSync (plentyEnv 1) .init confText65 with
  | error f =>
    rw [hr] at h
    exact absurd h (by simp [Except.toOption])
  | ok r =>
    rw [hr] at h
    simp only [Except.toOption, Option.map_some, Option.some.injEq, Prod.mk.injEq] at h
    obtain ⟨hret, hlast, hnum⟩ := h
    refine ⟨r, rfl, hret, hlast, hnum, ?_⟩
    intro hok
    exact absurd (hok.stores 64 (List.mem_of_getLast? hlast)) (by decide)

end Puppies
