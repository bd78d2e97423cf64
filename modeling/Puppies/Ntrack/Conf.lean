/-
# Installing a configuration (`drivers/nos_track/src/ntrack_conf.c`, first half)

A process sends the rules of the captive portal as a JSON array; `ntrack_conf_sync` reads them
into a new table and puts it in the place of the old one.  An element of the array becomes a
rule if it is an object with an array `IPSets` in which at least one name is that of a known IP
set; elements of other kinds are skipped, and a `null` ends the table.

Two tables have a fixed size, the `MAX_USR_SET` sets of a rule and the `MAX_URL_RULES` rules,
and both loops test for an overflow AFTER the store and against the number of entries stored.
So each of them stores one entry too many.  The fifth set of a rule goes into the first two
bytes of its name, which lie right behind; the 65th rule goes behind the table.

`ConfState` is all that `ntrack_conf_sync` leaves behind in the kernel: the installed table,
the blocks and the JSON trees that were not given back, and the references on IP sets.
-/
import Mathlib.Data.List.TakeWhile
import Puppies.Ntrack.Nxjson

namespace Puppies

open ByteMem BreakLoop

/-! ## 1. Rules -/

/-- `MAX_USR_SET` -/
def maxUsrSet : Nat := 4

/-- `RULE_NAME_SIZE` -/
def ruleNameSize : Nat := 64

/-- `MAX_URL_RULES` -/
def maxUrlRules : Nat := 64

/-- `auth_rule_t`. -/
structure AuthRule where
  flags : BitVec 32
  magic : BitVec 32
  /-- the first `num_idx` entries of `uset_idx`; one behind the fourth lies in `name` -/
  usetIdx : List (BitVec 16)
  name : List Byte
  deriving DecidableEq, Repr

/-- `num_idx` -/
def AuthRule.numIdx (rule : AuthRule) : Nat := rule.usetIdx.length

/-- A rule after `memset`. -/
def AuthRule.zero : AuthRule := ⟨0, 0, [], List.replicate ruleNameSize 0⟩

/-- `G_AUTHCONF_t`: the rules stored so far, the first `num_rules` ones. -/
structure AuthConf where
  rules : List AuthRule
  deriving DecidableEq, Repr

/-- `num_rules` -/
def AuthConf.numRules (conf : AuthConf) : Nat := conf.rules.length

/-- `strncpy(dst, src, n)`: what it makes of the `n` bytes at `dst`. -/
def strncpy (src : Text) (n : Nat) : List Byte := (src ++ List.replicate n 0).take n

/-- `rule.uset_idx[rule.num_idx] = idx; rule.num_idx ++`. -/
def AuthRule.addSet (bo : ByteOrder) (rule : AuthRule) (idx : BitVec 16) : AuthRule :=
  { rule with
    usetIdx := rule.usetIdx ++ [idx]
    name := if rule.numIdx < maxUsrSet then rule.name
      else
        let off := 2 * (rule.numIdx - maxUsrSet)
        rule.name.take off ++ bo.bytes16 idx ++ rule.name.drop (off + 2) }

/-! ## 2. The state of the module -/

/-- What `ntrack_conf_sync` leaves behind. -/
structure ConfState where
  /-- `G_AuthConf`: the block and what it holds -/
  gAuthConf : Option (Nat × AuthConf)
  /-- the number of the next block -/
  nextBlock : Nat
  /-- the blocks of configurations that were not freed -/
  liveBlocks : List Nat
  /-- how many JSON trees were not freed -/
  liveTrees : Nat
  /-- the references held on IP sets, one entry each -/
  setRefs : List (BitVec 16)

/-- After the module is loaded. -/
def ConfState.init : ConfState := ⟨none, 0, [], 0, []⟩

/-- What a call of `ntrack_conf_sync` is given besides the text: the allocations, the IP sets
that are known by name, and the time. -/
structure SyncEnv where
  bo : ByteOrder
  /-- `vmalloc` has a block -/
  vmalloc : Bool
  /-- the `n`-th node of the tree can be had -/
  kzalloc : Nat → Bool
  /-- `ip_set_get_byname`; `none` is `IPSET_INVALID_ID` -/
  ipSetGetByname : Text → Option (BitVec 16)
  /-- `jiffies` when element `i` of the array is read -/
  jiffies : Nat → BitVec 32

/-- How a call can fail to return. -/
inductive ConfFault
  /-- `memset` on the `NULL` that `vmalloc` returned -/
  | nullTable
  /-- a loop over a tree that does not end -/
  | endless
  deriving DecidableEq, Repr

/-- What a call did. -/
structure SyncResult where
  ret : Int
  state : ConfState
  /-- the indices of its stores into `conf_tmp->rules` -/
  stores : List Nat

/-! ## 3. The loops -/

/-- `"IPSets"` -/
def keyIPSets : Text := [0x49, 0x50, 0x53, 0x65, 0x74, 0x73]

/-- `"Name"` -/
def keyName : Text := [0x4e, 0x61, 0x6d, 0x65]

/-- `"Flags"` -/
def keyFlags : Text := [0x46, 0x6c, 0x61, 0x67, 0x73]

/-- `while((node = nx_json_item(json, i++)) != NULL) { if (node->type == NX_JSON_NULL) break; … }`,
the frame of both loops: one iteration, `i` being the index of the node. -/
def itemBody {σ : Type} (json : NxJson) (body : Nat → NxJson → σ → Ctl σ) (i : Nat) (s : σ) :
    Ctl σ :=
  let node := nxJsonItem json i
  if node.type = .null then .stop s else body i node s

/-- The loop itself.  `nx_json_item` never returns `NULL`; the bound is one iteration more than
there are items. -/
def forItems {σ : Type} (json : NxJson) (body : Nat → NxJson → σ → Ctl σ) (s : σ) : Option σ :=
  upto (itemBody json body) (json.child.length + 1) 0 s

/-- A rule and the references taken while it is made. -/
structure SetLoop where
  rule : AuthRule
  refs : List (BitVec 16)

/-- One name of `IPSets`. -/
def setBody (env : SyncEnv) (_ : Nat) (str : NxJson) (s : SetLoop) : Ctl SetLoop :=
  if str.type ≠ .string then .next s
  else match env.ipSetGetByname str.textValue with
    | none => .next s
    | some idx =>
      let s' : SetLoop := ⟨s.rule.addSet env.bo idx, s.refs ++ [idx]⟩
      if maxUsrSet < s'.rule.numIdx then .stop s' else .next s'

/-- The table that is being filled. -/
structure RuleLoop where
  conf : AuthConf
  refs : List (BitVec 16)
  stores : List Nat

/-- The rule with its name filled in. -/
def namedRule (node : NxJson) : AuthRule :=
  let str := nxJsonGet node keyName
  if str.type = .string then { AuthRule.zero with name := strncpy str.textValue ruleNameSize }
  else .zero

/-- The rule with its flags and magic filled in. -/
def flaggedRule (env : SyncEnv) (i : Nat) (node : NxJson) (rule : AuthRule) : AuthRule :=
  let flags := nxJsonGet node keyFlags
  { rule with
    flags := if flags.type = .integer then flags.intValue.setWidth 32 else rule.flags
    magic := env.jiffies i }

/-- `conf_tmp->rules[conf_tmp->num_rules] = rule; conf_tmp->num_rules ++`. -/
def RuleLoop.save (s : RuleLoop) (rule : AuthRule) : RuleLoop :=
  { s with
    conf := ⟨s.conf.rules ++ [rule]⟩
    stores := s.stores ++ [s.conf.numRules] }

/-- One element of the array; `none` if the loop over its names does not end. -/
def ruleStep (env : SyncEnv) (i : Nat) (node : NxJson) (s : RuleLoop) : Ctl (Option RuleLoop) :=
  if node.type ≠ .object then .next (some s)
  else
    let sets := nxJsonGet node keyIPSets
    if sets.type ≠ .array then .next (some s)
    else match forItems sets (setBody env) ⟨namedRule node, s.refs⟩ with
      | none => .stop none
      | some r =>
        let s := { s with refs := r.refs }
        if r.rule.numIdx = 0 then .next (some s)
        else
          let s' := s.save (flaggedRule env i node r.rule)
          if maxUrlRules < s'.conf.numRules then .stop (some s') else .next (some s')

/-- The body of the outer loop. -/
def ruleBody (env : SyncEnv) (i : Nat) (node : NxJson) : Option RuleLoop → Ctl (Option RuleLoop)
  | none => .stop none
  | some s => ruleStep env i node s

/-- Put the new table in the place of the old one, which is freed. -/
def ConfState.install (st : ConfState) (conf : AuthConf) : ConfState :=
  { st with
    gAuthConf := some (st.nextBlock, conf)
    nextBlock := st.nextBlock + 1
    liveBlocks := st.nextBlock :: (match st.gAuthConf with
      | some (old, _) => st.liveBlocks.erase old
      | none => st.liveBlocks) }

/-- `ntrack_conf_sync` -/
def ntrackConfSync (env : SyncEnv) (st : ConfState) (confStr : List Byte) :
    Except ConfFault SyncResult :=
  if !env.vmalloc then .error .nullTable
  else
    -- an early return keeps the block, and the tree if there is one
    let refused := { st with
      nextBlock := st.nextBlock + 1
      liveBlocks := st.nextBlock :: st.liveBlocks }
    match nxJsonParseUtf8 env.kzalloc confStr with
    | none => .ok ⟨-22, refused, []⟩
    | some json =>
      if json.type ≠ .array then
        .ok ⟨-22, { refused with liveTrees := refused.liveTrees + 1 }, []⟩
      else match forItems json (ruleBody env) (some ⟨⟨[]⟩, st.setRefs, []⟩) with
        | some (some s) => .ok ⟨0, { st with setRefs := s.refs }.install s.conf, s.stores⟩
        | _ => .error .endless

/-! ## 4. What the loops do -/

/-- The items that the loops look at: those in front of the first `null`. -/
def items (json : NxJson) : List NxJson := json.child.takeWhile fun js => js.type ≠ .null

theorem type_of_mem_items {json js : NxJson} (h : js ∈ items json) : js.type ≠ .null := by
  have := List.mem_takeWhile_imp h
  simpa using this

/-- Behind the last of them `nx_json_item` returns a `null` node. -/
theorem nxJsonItem_length_items (json : NxJson) :
    (nxJsonItem json (items json).length).type = .null := by
  unfold nxJsonItem items
  induction json.child with
  | nil => rfl
  | cons js rest ih =>
    by_cases hjs : js.type = .null
    · rw [List.takeWhile_cons_of_neg (by simpa using hjs)]
      exact hjs
    · rw [List.takeWhile_cons_of_pos (by simpa using hjs)]
      exact ih

theorem nxJsonItem_of_getElem? {json js : NxJson} {k : Nat} (h : (items json)[k]? = some js) :
    nxJsonItem json k = js := by
  obtain ⟨rest, hrest⟩ : items json <+: json.child := List.takeWhile_prefix _
  have hk : k < (items json).length := (List.getElem?_eq_some_iff.mp h).1
  have hchild : json.child[k]? = some js := by
    rw [← hrest, List.getElem?_append_left hk]
    exact h
  rw [nxJsonItem, hchild, Option.getD_some]

/-- **The loops end**, and look at every item in front of the first `null`, in order. -/
theorem forItems_eq_walk {σ : Type} (json : NxJson) (body : Nat → NxJson → σ → Ctl σ) (s : σ) :
    forItems json body s = some (walk body 0 (items json) s) := by
  refine upto_eq_walk ?_ ?_ ?_
  · exact Nat.lt_succ_of_le (List.takeWhile_prefix _).length_le
  · intro k js t hjs
    have hitem := nxJsonItem_of_getElem? hjs
    have htype := type_of_mem_items (List.mem_of_getElem? hjs)
    rw [Nat.zero_add]
    simp only [itemBody, hitem, if_neg htype]
  · intro t
    rw [Nat.zero_add]
    simp only [itemBody, nxJsonItem_length_items, if_true]

/-- The IP sets that the names of a list are found to be, in order. -/
def resolved (env : SyncEnv) (strs : List NxJson) : List (BitVec 16) :=
  strs.filterMap fun str => if str.type = .string then env.ipSetGetByname str.textValue else none

theorem setBody_of_none {env : SyncEnv} {i : Nat} {str : NxJson} {s : SetLoop}
    (h : (if str.type = .string then env.ipSetGetByname str.textValue else none) = none) :
    setBody env i str s = .next s := by
  unfold setBody
  split
  · rfl
  · rename_i htype
    rw [if_pos (not_not.mp htype)] at h
    rw [h]

theorem setBody_of_some {env : SyncEnv} {i : Nat} {str : NxJson} {s : SetLoop} {idx : BitVec 16}
    (h : (if str.type = .string then env.ipSetGetByname str.textValue else none) = some idx) :
    setBody env i str s =
      if maxUsrSet ≤ s.rule.numIdx then .stop ⟨s.rule.addSet env.bo idx, s.refs ++ [idx]⟩
      else .next ⟨s.rule.addSet env.bo idx, s.refs ++ [idx]⟩ := by
  have htype : str.type = .string := by
    by_contra hne
    rw [if_neg hne] at h
    exact absurd h (by simp)
  rw [if_pos htype] at h
  unfold setBody
  rw [if_neg (not_not.mpr htype), h]
  have hnum : (s.rule.addSet env.bo idx).numIdx = s.rule.numIdx + 1 := by
    simp [AuthRule.addSet, AuthRule.numIdx]
  simp only [hnum, Nat.lt_succ_iff]

@[simp] theorem numIdx_addSet (bo : ByteOrder) (rule : AuthRule) (idx : BitVec 16) :
    (rule.addSet bo idx).numIdx = rule.numIdx + 1 := by
  simp [AuthRule.addSet, AuthRule.numIdx]

/-- **The sets of a rule** are the first `MAX_USR_SET + 1` that are known, and one reference is
taken on each. -/
theorem walk_setBody (env : SyncEnv) (i : Nat) (strs : List NxJson) (rule : AuthRule)
    (refs : List (BitVec 16)) (hrule : rule.numIdx ≤ maxUsrSet) :
    walk (setBody env) i strs ⟨rule, refs⟩ =
      ⟨((resolved env strs).take (maxUsrSet + 1 - rule.numIdx)).foldl (AuthRule.addSet env.bo) rule,
        refs ++ (resolved env strs).take (maxUsrSet + 1 - rule.numIdx)⟩ := by
  induction strs generalizing i rule refs with
  | nil => simp [resolved]
  | cons str strs ih =>
    cases hres : (if str.type = .string then env.ipSetGetByname str.textValue else none) with
    | none =>
      have hnew : resolved env (str :: strs) = resolved env strs := List.filterMap_cons_none hres
      rw [walk_cons_next (setBody_of_none hres), hnew]
      exact ih (i + 1) rule refs hrule
    | some idx =>
      have hnew : resolved env (str :: strs) = idx :: resolved env strs :=
        List.filterMap_cons_some hres
      have hbody := setBody_of_some (i := i) (s := ⟨rule, refs⟩) hres
      rw [hnew]
      by_cases hfull : maxUsrSet ≤ rule.numIdx
      · -- the overflow: the store was made all the same
        rw [if_pos hfull] at hbody
        have hone : maxUsrSet + 1 - rule.numIdx = 1 := by omega
        rw [walk_cons_stop hbody, hone]
        rfl
      · rw [if_neg hfull] at hbody
        have hlt : rule.numIdx < maxUsrSet := Nat.lt_of_not_le hfull
        have hadd : (rule.addSet env.bo idx).numIdx ≤ maxUsrSet := by
          rw [numIdx_addSet]
          exact hlt
        have htake : maxUsrSet + 1 - rule.numIdx = maxUsrSet + 1 - (rule.numIdx + 1) + 1 := by
          omega
        rw [walk_cons_next hbody, ih (i + 1) _ _ hadd, htake,
          List.take_succ_cons, List.foldl_cons, numIdx_addSet, List.append_assoc,
          List.singleton_append]

theorem usetIdx_foldl_addSet (bo : ByteOrder) (idxs : List (BitVec 16)) (rule : AuthRule) :
    (idxs.foldl (AuthRule.addSet bo) rule).usetIdx = rule.usetIdx ++ idxs := by
  induction idxs generalizing rule with
  | nil => simp
  | cons idx idxs ih =>
    rw [List.foldl_cons, ih]
    simp [AuthRule.addSet]

/-- The sets of an element of the array that become those of its rule. -/
def ruleSets (env : SyncEnv) (node : NxJson) : List (BitVec 16) :=
  (resolved env (items (nxJsonGet node keyIPSets))).take (maxUsrSet + 1)

/-- An element that becomes a rule: an object with an array `IPSets` and a known name in it. -/
def qualifies (env : SyncEnv) (node : NxJson) : Bool :=
  node.type == .object && (nxJsonGet node keyIPSets).type == .array && ruleSets env node != []

/-- An element of the right shape becomes a rule if it has a set. -/
theorem qualifies_of_shape (env : SyncEnv) {node : NxJson}
    (h : node.type = .object ∧ (nxJsonGet node keyIPSets).type = .array) :
    qualifies env node = (ruleSets env node != []) := by
  simp [qualifies, h]

/-- An element of another shape becomes none. -/
theorem qualifies_of_not_shape (env : SyncEnv) {node : NxJson}
    (h : ¬ (node.type = .object ∧ (nxJsonGet node keyIPSets).type = .array)) :
    qualifies env node = false := by
  rw [qualifies, Bool.and_eq_false_iff]
  left
  rw [Bool.and_eq_false_iff, beq_eq_false_iff_ne, beq_eq_false_iff_ne]
  exact not_and_or.mp h

/-- The rule of an element that becomes one. -/
def ruleOf (env : SyncEnv) (i : Nat) (node : NxJson) : AuthRule :=
  flaggedRule env i node ((ruleSets env node).foldl (AuthRule.addSet env.bo) (namedRule node))

theorem numIdx_namedRule (node : NxJson) : (namedRule node).numIdx = 0 := by
  unfold namedRule
  dsimp only
  split
  · rfl
  · rfl

theorem usetIdx_ruleOf (env : SyncEnv) (i : Nat) (node : NxJson) :
    (ruleOf env i node).usetIdx = ruleSets env node := by
  have h0 : (namedRule node).usetIdx = [] := List.eq_nil_of_length_eq_zero (numIdx_namedRule node)
  show ((ruleSets env node).foldl (AuthRule.addSet env.bo) (namedRule node)).usetIdx = _
  rw [usetIdx_foldl_addSet, h0, List.nil_append]

/-- The references that are taken for an element. -/
def refsOf (env : SyncEnv) (node : NxJson) : List (BitVec 16) :=
  if qualifies env node then ruleSets env node else []

/-- The state after the references for an element were taken. -/
def RuleLoop.takeRefs (s : RuleLoop) (env : SyncEnv) (node : NxJson) : RuleLoop :=
  { s with refs := s.refs ++ refsOf env node }

/-- An element that is no object with an array `IPSets` is passed over. -/
theorem ruleStep_of_not_array (env : SyncEnv) (i : Nat) (node : NxJson) (s : RuleLoop)
    (h : ¬ (node.type = .object ∧ (nxJsonGet node keyIPSets).type = .array)) :
    ruleStep env i node s = .next (some s) := by
  unfold ruleStep
  split
  · rfl
  · rename_i hobj
    dsimp only
    rw [if_pos fun harr => h ⟨not_not.mp hobj, harr⟩]

/-- **One element of the array.**  It is passed over, or its rule is saved. -/
theorem ruleStep_eq (env : SyncEnv) (i : Nat) (node : NxJson) (s : RuleLoop) :
    ruleStep env i node s =
      if qualifies env node then
        if maxUrlRules ≤ s.conf.numRules then
          .stop (some ((s.takeRefs env node).save (ruleOf env i node)))
        else .next (some ((s.takeRefs env node).save (ruleOf env i node)))
      else .next (some (s.takeRefs env node)) := by
  by_cases hshape : node.type = .object ∧ (nxJsonGet node keyIPSets).type = .array
  · have hq := qualifies_of_shape env hshape
    have hloop : forItems (nxJsonGet node keyIPSets) (setBody env) ⟨namedRule node, s.refs⟩ =
        some ⟨(ruleSets env node).foldl (AuthRule.addSet env.bo) (namedRule node),
          s.refs ++ ruleSets env node⟩ := by
      rw [forItems_eq_walk,
        walk_setBody env 0 _ _ _ (by rw [numIdx_namedRule]; exact Nat.zero_le _), numIdx_namedRule]
      rfl
    have hnum : ((ruleSets env node).foldl (AuthRule.addSet env.bo) (namedRule node)).numIdx
        = (ruleSets env node).length := congrArg List.length (usetIdx_ruleOf env i node)
    unfold ruleStep
    rw [if_neg (not_not.mpr hshape.1)]
    simp only [ne_eq, hshape.2, not_true_eq_false, if_false, hloop, hnum, List.length_eq_zero_iff]
    cases hsets : ruleSets env node with
    | nil => simp [hq, hsets, RuleLoop.takeRefs, refsOf]
    | cons idx idxs =>
      have hfull : ∀ r : AuthRule, maxUrlRules < (s.conf.rules ++ [r]).length ↔
          maxUrlRules ≤ s.conf.rules.length := by
        intro r
        rw [List.length_append, List.length_singleton, Nat.lt_succ_iff]
      simp only [RuleLoop.save, AuthConf.numRules, hfull]
      simp [hq, hsets, RuleLoop.takeRefs, refsOf, ruleOf]
  · rw [ruleStep_of_not_array env i node s hshape]
    simp [qualifies_of_not_shape env hshape, RuleLoop.takeRefs, refsOf]

/-- The rules that a list of elements describes, the first element having index `i`. -/
def ruleList (env : SyncEnv) : Nat → List NxJson → List AuthRule
  | _, [] => []
  | i, node :: nodes =>
    if qualifies env node then ruleOf env i node :: ruleList env (i + 1) nodes
    else ruleList env (i + 1) nodes

theorem length_ruleList (env : SyncEnv) (i : Nat) (nodes : List NxJson) :
    (ruleList env i nodes).length = nodes.countP (qualifies env) := by
  induction nodes generalizing i with
  | nil => rfl
  | cons node nodes ih =>
    rw [ruleList, List.countP_cons]
    split
    · rw [List.length_cons, ih]
    · rw [ih, Nat.add_zero]

/-- **The rules of a table** are the first `MAX_URL_RULES + 1` that the elements describe, and
each was stored at the index it has. -/
theorem walk_ruleBody (env : SyncEnv) (i : Nat) (nodes : List NxJson) (s : RuleLoop)
    (hs : s.conf.numRules ≤ maxUrlRules) (hstores : s.stores = List.range s.conf.numRules) :
    ∃ r, walk (ruleBody env) i nodes (some s) = some r ∧
      r.conf.rules = s.conf.rules ++ (ruleList env i nodes).take
        (maxUrlRules + 1 - s.conf.numRules) ∧
      r.stores = List.range r.conf.numRules := by
  induction nodes generalizing i s with
  | nil => exact ⟨s, rfl, by simp [ruleList], hstores⟩
  | cons node nodes ih =>
    have hbody : ruleBody env i node (some s) = _ := ruleStep_eq env i node s
    cases hq : qualifies env node with
    | true =>
      have hlist : ruleList env i (node :: nodes) =
          ruleOf env i node :: ruleList env (i + 1) nodes := by
        rw [ruleList, if_pos hq]
      have hnum : ((s.takeRefs env node).save (ruleOf env i node)).conf.numRules
          = s.conf.numRules + 1 := by
        simp [RuleLoop.save, RuleLoop.takeRefs, AuthConf.numRules]
      have hsave : ((s.takeRefs env node).save (ruleOf env i node)).stores
          = List.range ((s.takeRefs env node).save (ruleOf env i node)).conf.numRules := by
        rw [hnum, List.range_succ, ← hstores]
        rfl
      rw [if_pos hq] at hbody
      by_cases hfull : maxUrlRules ≤ s.conf.numRules
      · rw [if_pos hfull] at hbody
        have hone : maxUrlRules + 1 - s.conf.numRules = 1 := by omega
        refine ⟨_, walk_cons_stop hbody nodes, ?_, hsave⟩
        rw [hlist, hone]
        rfl
      · rw [if_neg hfull] at hbody
        obtain ⟨r, hr, hrules, hst⟩ := ih (i + 1) _ (by rw [hnum]; omega) hsave
        have htake : maxUrlRules + 1 - s.conf.numRules
            = maxUrlRules + 1 - (s.conf.numRules + 1) + 1 := by omega
        refine ⟨r, (walk_cons_next hbody nodes).trans hr, ?_, hst⟩
        rw [hrules, hlist, htake, List.take_succ_cons, hnum]
        simp [RuleLoop.save, RuleLoop.takeRefs]
    | false =>
      have hlist : ruleList env i (node :: nodes) = ruleList env (i + 1) nodes := by
        rw [ruleList, if_neg (by rw [hq]; exact Bool.false_ne_true)]
      rw [if_neg (by rw [hq]; exact Bool.false_ne_true)] at hbody
      obtain ⟨r, hr, hrules, hst⟩ := ih (i + 1) (s.takeRefs env node) hs hstores
      exact ⟨r, (walk_cons_next hbody nodes).trans hr, by rw [hrules, hlist]; rfl, hst⟩

/-! ## 5. What a call does -/

/-- The elements that a text offers for the table: none, unless it is an array. -/
def elements (env : SyncEnv) (confStr : List Byte) : List NxJson :=
  match nxJsonParseUtf8 env.kzalloc confStr with
  | some json => if json.type = .array then items json else []
  | none => []

/-- The rules that a call installs, if it installs any. -/
def newRules (env : SyncEnv) (confStr : List Byte) : List AuthRule :=
  (ruleList env 0 (elements env confStr)).take (maxUrlRules + 1)

theorem length_newRules (env : SyncEnv) (confStr : List Byte) :
    (newRules env confStr).length =
      min (maxUrlRules + 1) ((elements env confStr).countP (qualifies env)) := by
  rw [newRules, List.length_take, length_ruleList]

/-- **A call of `ntrack_conf_sync`** faults, or is refused and changes nothing that the packet
path looks at, or installs a new table. -/
inductive SyncMove (env : SyncEnv) (st : ConfState) (confStr : List Byte) :
    Except ConfFault SyncResult → Prop
  | fault (hmem : env.vmalloc = false) : SyncMove env st confStr (.error .nullTable)
  | refused {st' : ConfState} (hmem : env.vmalloc = true) (hconf : st'.gAuthConf = st.gAuthConf)
      (hnext : st'.nextBlock = st.nextBlock + 1) (helems : elements env confStr = []) :
      SyncMove env st confStr (.ok ⟨-22, st', []⟩)
  | installed {st' : ConfState} (hmem : env.vmalloc = true)
      (hconf : st'.gAuthConf = some (st.nextBlock, ⟨newRules env confStr⟩))
      (hnext : st'.nextBlock = st.nextBlock + 1) :
      SyncMove env st confStr (.ok ⟨0, st', List.range (newRules env confStr).length⟩)

theorem ntrackConfSync_move (env : SyncEnv) (st : ConfState) (confStr : List Byte) :
    SyncMove env st confStr (ntrackConfSync env st confStr) := by
  unfold ntrackConfSync
  cases hmem : env.vmalloc with
  | false => exact .fault hmem
  | true =>
    simp only [Bool.not_true, Bool.false_eq_true, if_false]
    cases hparse : nxJsonParseUtf8 env.kzalloc confStr with
    | none => exact .refused hmem rfl rfl (by simp only [elements, hparse])
    | some json =>
      by_cases harr : json.type = .array
      · have helems : elements env confStr = items json := by
          simp only [elements, hparse, if_pos harr]
        obtain ⟨r, hr, hrules, hstores⟩ := walk_ruleBody env 0 (items json)
          ⟨⟨[]⟩, st.setRefs, []⟩ (Nat.zero_le _) rfl
        rw [← helems, List.nil_append] at hrules
        have hconf : r.conf = ⟨newRules env confStr⟩ := congrArg AuthConf.mk hrules
        simp only [ne_eq, harr, not_true_eq_false, if_false, forItems_eq_walk, hr]
        rw [hconf] at hstores ⊢
        rw [hstores]
        exact .installed hmem rfl rfl
      · simp only [ne_eq, harr, not_false_eq_true, if_true]
        exact .refused hmem rfl rfl (by simp only [elements, hparse, if_neg harr])

end Puppies
