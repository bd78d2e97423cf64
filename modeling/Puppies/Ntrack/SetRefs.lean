/-
# The references on IP sets (`ntrack_conf.c`, `ntrack_hooks.c`)

`ip_set_get_byname` takes a reference on the set that it finds, and a set on which there are
references cannot be destroyed.  `ntrack_conf_sync` calls it for every name of every rule.
`ntrack_conf_free` gives back the block of a configuration and nothing else, and
`ntrack_modules_exit` does not even do that: no reference is ever put back.

So the references are those of all configurations that were ever installed.  They are those of
the configuration in use only if no other one had a rule, and none is left at the end only if
there was no rule at all (`setRefs_iff`).
-/
import Puppies.Lib.Runs
import Puppies.Ntrack.RuleTable

namespace Puppies

open ByteMem BreakLoop EventRun

/-! ## 1. What a call takes -/

/-- The sets that occur in the rules of a configuration, once for each occurrence. -/
def AuthConf.sets (conf : AuthConf) : List (BitVec 16) := conf.rules.flatMap AuthRule.usetIdx

/-- The rules of the configuration in use. -/
def ConfState.rulesInUse (st : ConfState) : List AuthRule :=
  match st.gAuthConf with
  | some (_, conf) => conf.rules
  | none => []

/-- The sets that occur in them. -/
def ConfState.setsInUse (st : ConfState) : List (BitVec 16) :=
  st.rulesInUse.flatMap AuthRule.usetIdx

/-- The text makes `ntrack_conf_sync` install a configuration. -/
def installs (env : SyncEnv) (confStr : List Byte) : Bool :=
  match nxJsonParseUtf8 env.kzalloc confStr with
  | some json => json.type == .array
  | none => false

/-- The loop over the elements has taken one reference for each set of each rule it saved. -/
theorem walk_ruleBody_refs {env : SyncEnv} {nodes : List NxJson} {i : Nat} {s r : RuleLoop}
    {refs : List (BitVec 16)} (hs : s.refs = refs ++ s.conf.sets)
    (h : walk (ruleBody env) i nodes (some s) = some r) : r.refs = refs ++ r.conf.sets := by
  induction nodes generalizing i s with
  | nil =>
    rw [walk_nil, Option.some.injEq] at h
    exact h ▸ hs
  | cons node nodes ih =>
    have hbody : ruleBody env i node (some s) = _ := ruleStep_eq env i node s
    cases hq : qualifies env node with
    | true =>
      have hsave : ((s.takeRefs env node).save (ruleOf env i node)).refs
          = refs ++ ((s.takeRefs env node).save (ruleOf env i node)).conf.sets := by
        simp [RuleLoop.save, RuleLoop.takeRefs, refsOf, hq, hs, AuthConf.sets, usetIdx_ruleOf]
      rw [if_pos hq] at hbody
      split at hbody
      · rw [walk_cons_stop hbody, Option.some.injEq] at h
        exact h ▸ hsave
      · rw [walk_cons_next hbody] at h
        exact ih hsave h
    | false =>
      have hnone : (s.takeRefs env node).refs = refs ++ (s.takeRefs env node).conf.sets := by
        simpa [RuleLoop.takeRefs, refsOf, hq] using hs
      rw [if_neg (by rw [hq]; exact Bool.false_ne_true)] at hbody
      rw [walk_cons_next hbody] at h
      exact ih hnone h

/-- **The references of a call**: one for each set of each rule, if it installs a
configuration, and none if it is refused.  Those that were there before stay. -/
theorem ntrackConfSync_refs {env : SyncEnv} {st : ConfState} {confStr : List Byte}
    {r : SyncResult} (h : ntrackConfSync env st confStr = .ok r) :
    (installs env confStr = true ∧ r.state.rulesInUse = newRules env confStr ∧
      r.state.setRefs = st.setRefs ++ r.state.setsInUse) ∨
    (installs env confStr = false ∧ r.state.rulesInUse = st.rulesInUse ∧
      r.state.setRefs = st.setRefs) := by
  unfold ntrackConfSync at h
  unfold installs
  split at h
  · exact absurd h (by simp)
  · cases hparse : nxJsonParseUtf8 env.kzalloc confStr with
    | none =>
      simp only [hparse] at h
      obtain rfl := Except.ok.inj h
      exact Or.inr ⟨rfl, rfl, rfl⟩
    | some json =>
      simp only [hparse] at h
      by_cases harr : json.type = .array
      · left
        have helems : elements env confStr = items json := by
          simp only [elements, hparse, if_pos harr]
        obtain ⟨s, hs, hrules, -⟩ := walk_ruleBody env 0 (items json) ⟨⟨[]⟩, st.setRefs, []⟩
          (Nat.zero_le _) rfl
        have hrefs : s.refs = st.setRefs ++ s.conf.sets :=
          walk_ruleBody_refs (by simp [AuthConf.sets]) hs
        simp only [ne_eq, harr, not_true_eq_false, if_false, forItems_eq_walk, hs] at h
        obtain rfl := Except.ok.inj h
        rw [← helems, List.nil_append] at hrules
        exact ⟨by simp [harr], hrules, hrefs⟩
      · right
        simp only [ne_eq, harr, not_false_eq_true, if_true] at h
        obtain rfl := Except.ok.inj h
        exact ⟨by simp [harr], rfl, rfl⟩

/-- Every rule that a call installs has a set. -/
theorem usetIdx_ne_nil_of_mem {env : SyncEnv} {i : Nat} {nodes : List NxJson} {rule : AuthRule}
    (h : rule ∈ ruleList env i nodes) : rule.usetIdx ≠ [] := by
  induction nodes generalizing i with
  | nil => exact absurd h List.not_mem_nil
  | cons node nodes ih =>
    rw [ruleList] at h
    split at h
    · rename_i hq
      rcases List.mem_cons.mp h with rfl | h
      · rw [usetIdx_ruleOf]
        simp only [qualifies, Bool.and_eq_true, bne_iff_ne] at hq
        exact hq.2
      · exact ih h
    · exact ih h

/-! ## 2. Whole runs -/

/-- `ntrack_modules_exit`: the hooks, the workqueue and the socket go.  The configuration is
not freed, and no reference is put back. -/
def ntrackModulesExit (st : ConfState) : ConfState := st

/-- The module, from its loading to its removal. -/
structure RefState where
  conf : ConfState
  exited : Bool

/-- What happens to it. -/
inductive RefEvent
  | sync (env : SyncEnv) (confStr : List Byte)
  | exit

/-- One call; `none` if it faults, or the module is gone. -/
def refStep (s : RefState) : RefEvent → Option RefState
  | .sync env confStr =>
    if s.exited then none
    else match ntrackConfSync env s.conf confStr with
      | .ok r => some { s with conf := r.state }
      | .error _ => none
  | .exit => if s.exited then none else some ⟨ntrackModulesExit s.conf, true⟩

/-- The module was loaded. -/
def refInit : RefState := ⟨.init, false⟩

/-- **The balance**: on each set, one reference for each of its occurrences in the rules of the
configuration in use, and none once the module is gone. -/
def Balanced (s : RefState) : Prop :=
  ∀ set, s.conf.setRefs.count set = if s.exited then 0 else s.conf.setsInUse.count set

/-- The condition on a step: a configuration is installed, and the module is removed, only while
there is no rule in use. -/
def NoRuleInUse (s : RefState) : RefEvent → Prop
  | .sync env confStr => installs env confStr = true → s.conf.rulesInUse = []
  | .exit => s.conf.rulesInUse = []

/-- Every rule in use has a set. -/
def RulesHaveSets (s : RefState) : Prop := ∀ rule ∈ s.conf.rulesInUse, rule.usetIdx ≠ []

theorem refStep_rulesHaveSets {s t : RefState} {e : RefEvent} (hs : RulesHaveSets s)
    (h : refStep s e = some t) : RulesHaveSets t := by
  cases e with
  | sync env confStr =>
    simp only [refStep, Option.ite_none_left_eq_some] at h
    obtain ⟨-, h⟩ := h
    split at h
    · rename_i r hr
      obtain rfl := Option.some.inj h
      intro rule hrule
      rcases ntrackConfSync_refs hr with ⟨-, hrules, -⟩ | ⟨-, hrules, -⟩
      · rw [hrules] at hrule
        exact usetIdx_ne_nil_of_mem (List.mem_of_mem_take hrule)
      · rw [hrules] at hrule
        exact hs rule hrule
    · exact absurd h (by simp)
  | exit =>
    simp only [refStep, Option.ite_none_left_eq_some, Option.some.injEq] at h
    obtain ⟨-, rfl⟩ := h
    exact hs

/-- While every rule has a set, no set is in use only if no rule is. -/
theorem RulesHaveSets.setsInUse_eq_nil {s : RefState} (h : RulesHaveSets s) :
    s.conf.setsInUse = [] ↔ s.conf.rulesInUse = [] := by
  rw [ConfState.setsInUse, List.flatMap_eq_nil_iff]
  constructor
  · intro hnil
    rw [List.eq_nil_iff_forall_not_mem]
    intro rule hrule
    exact h rule hrule (hnil rule hrule)
  · intro hnil rule hrule
    rw [hnil] at hrule
    exact absurd hrule List.not_mem_nil

/-- Nothing is held exactly when no rule is in use. -/
theorem Balanced.count_eq_zero_iff {s : RefState} (hj : RulesHaveSets s) (hs : Balanced s)
    (hexited : s.exited = false) :
    (∀ set, s.conf.setRefs.count set = 0) ↔ s.conf.rulesInUse = [] := by
  have hcount : ∀ set, s.conf.setRefs.count set = s.conf.setsInUse.count set := by
    intro set
    rw [hs set, hexited]
    rfl
  rw [← hj.setsInUse_eq_nil]
  constructor
  · intro hzero
    rw [List.eq_nil_iff_forall_not_mem]
    intro set
    rw [← List.count_eq_zero, ← hcount set]
    exact hzero set
  · intro hnil set
    rw [hcount set, hnil, List.count_nil]

/-- One call keeps the balance exactly when it meets the condition. -/
theorem refStep_balanced_iff {s t : RefState} {e : RefEvent} (hj : RulesHaveSets s)
    (hs : Balanced s) (h : refStep s e = some t) : Balanced t ↔ NoRuleInUse s e := by
  cases e with
  | sync env confStr =>
    simp only [refStep, Option.ite_none_left_eq_some, Bool.not_eq_true] at h
    obtain ⟨hexited, h⟩ := h
    have hzero := hs.count_eq_zero_iff hj hexited
    split at h
    · rename_i r hr
      obtain rfl := Option.some.inj h
      rcases ntrackConfSync_refs hr with ⟨hinst, -, hrefs⟩ | ⟨hinst, hrules, hrefs⟩
      · -- the references of before stay, beside one for each set in use
        have hcount : ∀ set, r.state.setRefs.count set = r.state.setsInUse.count set ↔
            s.conf.setRefs.count set = 0 := by
          intro set
          rw [hrefs, List.count_append]
          omega
        simp only [Balanced, NoRuleInUse, hexited, Bool.false_eq_true, if_false, hcount, hzero,
          hinst, forall_const]
      · have hsets : r.state.setsInUse = s.conf.setsInUse := by
          rw [ConfState.setsInUse, hrules]
          rfl
        simp only [Balanced, NoRuleInUse, hinst, Bool.false_eq_true, false_imp_iff, iff_true]
        intro set
        rw [hrefs, hsets]
        exact hs set
    · exact absurd h (by simp)
  | exit =>
    simp only [refStep, Option.ite_none_left_eq_some, Bool.not_eq_true, Option.some.injEq] at h
    obtain ⟨hexited, rfl⟩ := h
    simp only [Balanced, NoRuleInUse, if_true]
    exact hs.count_eq_zero_iff hj hexited

/-- **When the references balance.**  In every run of `ntrack_conf_sync` calls, whatever their
texts and outcomes, and of a removal of the module, the references on each set are those of the
rules in use, and none after the removal, in every state, exactly when no configuration takes
the place of one with a rule and the module is not removed while there is one. -/
theorem setRefs_iff (es : List RefEvent) :
    AllStates refStep Balanced refInit es ↔ AllSteps refStep NoRuleInUse refInit es := by
  refine allStates_iff (J := RulesHaveSets) ?_ ?_ es _ ?_ ?_
  · intro s e t hj _ _ h
    exact refStep_rulesHaveSets hj h
  · intro s e t hj hs h
    exact refStep_balanced_iff hj hs h
  · intro rule hrule
    exact absurd hrule List.not_mem_nil
  · intro set
    rfl

/-- The same configuration, with one rule for the set `a`, is sent twice. -/
def reloadEvents : List RefEvent :=
  [.sync (plentyEnv 1) (confText [0x61]), .sync (plentyEnv 2) (confText [0x61])]

/-- The set occurs once in the rules in use, and two references are held on it; and removing
the module puts back none of them. -/
theorem setRefs_broken :
    (∃ s, run refStep refInit reloadEvents = some s ∧ s.conf.setRefs.count 0x61 = 2 ∧
      s.conf.setsInUse.count 0x61 = 1 ∧ ¬ Balanced s) ∧
    (∃ s, run refStep refInit (reloadEvents ++ [.exit]) = some s ∧ s.exited = true ∧
      s.conf.setRefs.count 0x61 = 2 ∧ ¬ Balanced s) := by
  have htwice : ((run refStep refInit reloadEvents).map fun s =>
      (s.exited, s.conf.setRefs.count 0x61, s.conf.setsInUse.count 0x61))
      = some (false, 2, 1) := by
    decide +kernel
  have hgone : ((run refStep refInit (reloadEvents ++ [.exit])).map fun s =>
      (s.exited, s.conf.setRefs.count 0x61)) = some (true, 2) := by
    decide +kernel
  constructor
  · obtain ⟨s, hs, heq⟩ := exists_run_of_map htwice
    simp only [Prod.mk.injEq] at heq
    obtain ⟨hexited, hrefs, huse⟩ := heq
    refine ⟨s, hs, hrefs, huse, ?_⟩
    intro hbal
    have := hbal 0x61
    rw [hrefs, huse, hexited] at this
    exact absurd this (by decide)
  · obtain ⟨s, hs, heq⟩ := exists_run_of_map hgone
    simp only [Prod.mk.injEq] at heq
    obtain ⟨hexited, hrefs⟩ := heq
    refine ⟨s, hs, hexited, hrefs, ?_⟩
    intro hbal
    have := hbal 0x61
    rw [hrefs, hexited, if_pos rfl] at this
    exact absurd this (by decide)

end Puppies
