/-
# The form of an installed rule

A rule has room for `MAX_USR_SET` sets, behind which its name lies, and for a name of
`RULE_NAME_SIZE` bytes.  The loop over the names of `IPSets` tests for an overflow behind the
store, so that a fifth set is stored into the name; and `strncpy` ends a name with a `NUL` only
if it is shorter than the room for it.  The same loop ends at a `null`, so that a rule can lack a
set whose name stands behind one.

`rulesWellFormed_iff` says for which texts none of this happens.  The stores are those of the
iterations that the two loops really make (`visits`), so that an element behind the last rule
that is stored does not count.
-/
import Puppies.Lib.CText
import Puppies.Ntrack.RuleTable

namespace Puppies

open ByteMem BreakLoop

/-! ## 1. Names -/

theorem strncpy_nil (n : Nat) : strncpy [] n = List.replicate n 0 := by
  simp [strncpy]

theorem strncpy_cons (c : Byte) (t : Text) (n : Nat) :
    strncpy (c :: t) (n + 1) = c :: strncpy t n := by
  have hpad : min (n - t.length) (n + 1) = n - t.length := by omega
  simp [strncpy, List.take_append, hpad]

theorem cString_cons_of_ne {c : Byte} (hc : c ≠ 0) (t : Text) :
    cString (c :: t) = c :: cString t :=
  List.takeWhile_cons_of_pos (by simpa using hc)

/-- **What `strncpy` leaves as a C string.**  It ends inside the buffer exactly when the text is
shorter than the buffer. -/
theorem strncpy_cString (t : Text) (n : Nat) :
    (0 ∈ strncpy t n ↔ (cString t).length < n) ∧
      ((cString t).length < n → cString (strncpy t n) = cString t) := by
  induction t generalizing n with
  | nil =>
    cases n with
    | zero => simp [strncpy, cString]
    | succ n => simp [strncpy_nil, cString, List.replicate_succ]
  | cons c t ih =>
    cases n with
    | zero => simp [strncpy]
    | succ n =>
      rw [strncpy_cons]
      by_cases hc : c = 0
      · simp [hc, cString]
      · obtain ⟨hmem, heq⟩ := ih n
        rw [cString_cons_of_ne hc, cString_cons_of_ne hc, List.length_cons,
          Nat.add_lt_add_iff_right, List.mem_cons]
        refine ⟨?_, fun h => congrArg (c :: ·) (heq h)⟩
        rw [or_iff_right fun h => hc h.symm, hmem]

/-- The text of the member `Name`; empty if it is no string. -/
def jsonName (node : NxJson) : Text :=
  let str := nxJsonGet node keyName
  if str.type = .string then str.textValue else []

theorem name_namedRule (node : NxJson) :
    (namedRule node).name = strncpy (jsonName node) ruleNameSize := by
  unfold namedRule jsonName
  dsimp only
  split
  · rfl
  · rfl

/-- Sets that have room do not touch the name. -/
theorem name_foldl_addSet {bo : ByteOrder} {idxs : List (BitVec 16)} {rule : AuthRule}
    (h : rule.numIdx + idxs.length ≤ maxUsrSet) :
    (idxs.foldl (AuthRule.addSet bo) rule).name = rule.name := by
  induction idxs generalizing rule with
  | nil => rfl
  | cons idx idxs ih =>
    rw [List.length_cons] at h
    have hroom : rule.numIdx < maxUsrSet := by omega
    rw [List.foldl_cons, ih (by rw [numIdx_addSet]; omega), AuthRule.addSet, if_pos hroom]

theorem name_ruleOf {env : SyncEnv} {i : Nat} {node : NxJson}
    (h : (ruleSets env node).length ≤ maxUsrSet) :
    (ruleOf env i node).name = strncpy (jsonName node) ruleNameSize := by
  rw [← name_namedRule]
  exact name_foldl_addSet (by rw [numIdx_namedRule]; omega)

/-! ## 2. The iterations of the loops -/

/-- The set that a name is found to be. -/
def resolve (env : SyncEnv) (str : NxJson) : Option (BitVec 16) :=
  if str.type = .string then env.ipSetGetByname str.textValue else none

/-- The indices of the stores into `uset_idx` that are made for an element: the loop over its
names stores at `num_idx` in each iteration that finds a set. -/
def usetStores (env : SyncEnv) (node : NxJson) (refs : List (BitVec 16)) : List Nat :=
  let sets := nxJsonGet node keyIPSets
  if node.type = .object ∧ sets.type = .array then
    (visits (setBody env) 0 (items sets) ⟨namedRule node, refs⟩).filterMap fun v =>
      (resolve env v.2.1).map fun _ => v.2.2.rule.numIdx
  else []

theorem visits_setBody (env : SyncEnv) (i : Nat) (strs : List NxJson) (rule : AuthRule)
    (refs : List (BitVec 16)) (hrule : rule.numIdx ≤ maxUsrSet) :
    ((visits (setBody env) i strs ⟨rule, refs⟩).filterMap fun v =>
      (resolve env v.2.1).map fun _ => v.2.2.rule.numIdx) =
      List.range' rule.numIdx ((resolved env strs).take (maxUsrSet + 1 - rule.numIdx)).length := by
  induction strs generalizing i rule refs with
  | nil => simp [visits, resolved]
  | cons str strs ih =>
    cases hres : resolve env str with
    | none =>
      have hnew : resolved env (str :: strs) = resolved env strs := List.filterMap_cons_none hres
      rw [visits_cons_next (setBody_of_none hres), hnew,
        List.filterMap_cons_none (by rw [hres]; rfl)]
      exact ih (i + 1) rule refs hrule
    | some idx =>
      have hnew : resolved env (str :: strs) = idx :: resolved env strs :=
        List.filterMap_cons_some hres
      have hbody := setBody_of_some (i := i) (s := ⟨rule, refs⟩) hres
      rw [hnew]
      by_cases hfull : maxUsrSet ≤ rule.numIdx
      · rw [if_pos hfull] at hbody
        have hone : maxUsrSet + 1 - rule.numIdx = 1 := by omega
        rw [visits_cons_stop hbody, hone]
        simp [hres]
      · rw [if_neg hfull] at hbody
        have htake : maxUsrSet + 1 - rule.numIdx = maxUsrSet + 1 - (rule.numIdx + 1) + 1 := by
          omega
        have htail := ih (i + 1) (rule.addSet env.bo idx) (refs ++ [idx])
          (by rw [numIdx_addSet]; omega)
        rw [numIdx_addSet] at htail
        rw [visits_cons_next hbody, htake, List.take_succ_cons, List.length_cons,
          List.range'_succ, ← htail]
        exact List.filterMap_cons_some (by rw [hres]; rfl)

/-- **The stores for an element** fill the indices from 0 on, one for each set of its rule. -/
theorem usetStores_eq (env : SyncEnv) (node : NxJson) (refs : List (BitVec 16)) :
    usetStores env node refs =
      if qualifies env node then List.range (ruleSets env node).length else [] := by
  by_cases hshape : node.type = .object ∧ (nxJsonGet node keyIPSets).type = .array
  · have hstores := visits_setBody env 0 (items (nxJsonGet node keyIPSets)) (namedRule node) refs
      (by rw [numIdx_namedRule]; exact Nat.zero_le _)
    rw [numIdx_namedRule, ← List.range_eq_range'] at hstores
    rw [usetStores, if_pos hshape, hstores]
    cases hsets : ruleSets env node with
    | nil =>
      rw [ruleSets] at hsets
      simp [hsets]
    | cons idx idxs =>
      have hq : qualifies env node = true := by simp [qualifies_of_shape env hshape, hsets]
      rw [if_pos hq, ← hsets]
      rfl
  · rw [usetStores, if_neg hshape, qualifies_of_not_shape env hshape]
    rfl

/-- The elements that become rules, of those that the outer loop looks at. -/
theorem visits_ruleBody (env : SyncEnv) (i : Nat) (nodes : List NxJson) (s : RuleLoop)
    (hs : s.conf.numRules ≤ maxUrlRules) :
    ((visits (ruleBody env) i nodes (some s)).map fun v => v.2.1).filter (qualifies env) =
      (nodes.filter (qualifies env)).take (maxUrlRules + 1 - s.conf.numRules) := by
  induction nodes generalizing i s with
  | nil => simp [visits]
  | cons node nodes ih =>
    have hbody : ruleBody env i node (some s) = _ := ruleStep_eq env i node s
    cases hq : qualifies env node with
    | true =>
      have hnum : ((s.takeRefs env node).save (ruleOf env i node)).conf.numRules
          = s.conf.numRules + 1 := by
        simp [RuleLoop.save, RuleLoop.takeRefs, AuthConf.numRules]
      rw [if_pos hq] at hbody
      rw [List.filter_cons_of_pos hq]
      by_cases hfull : maxUrlRules ≤ s.conf.numRules
      · rw [if_pos hfull] at hbody
        have hone : maxUrlRules + 1 - s.conf.numRules = 1 := by omega
        rw [visits_cons_stop hbody, hone]
        simp [hq]
      · rw [if_neg hfull] at hbody
        have htake : maxUrlRules + 1 - s.conf.numRules
            = maxUrlRules + 1 - (s.conf.numRules + 1) + 1 := by omega
        have htail := ih (i + 1) ((s.takeRefs env node).save (ruleOf env i node))
          (by rw [hnum]; omega)
        rw [hnum] at htail
        rw [visits_cons_next hbody, htake, List.take_succ_cons, List.map_cons,
          List.filter_cons_of_pos hq, htail]
    | false =>
      have hneg : ¬ (qualifies env node = true) := by rw [hq]; exact Bool.false_ne_true
      rw [if_neg hneg] at hbody
      rw [visits_cons_next hbody, List.map_cons, List.filter_cons_of_neg hneg,
        List.filter_cons_of_neg hneg]
      exact ih (i + 1) (s.takeRefs env node) hs

/-- The rules of a list of elements, by the elements that become one and their indices. -/
theorem ruleList_eq (env : SyncEnv) (i : Nat) (nodes : List NxJson) :
    ruleList env i nodes =
      ((nodes.zipIdx i).filter fun p => qualifies env p.1).map fun p => ruleOf env p.2 p.1 := by
  induction nodes generalizing i with
  | nil => rfl
  | cons node nodes ih =>
    rw [ruleList, List.zipIdx_cons, List.filter_cons, ih]
    split
    · rfl
    · rfl

theorem filter_zipIdx_fst {α : Type} (p : α → Bool) (i : Nat) (l : List α) :
    ((l.zipIdx i).filter fun x => p x.1).map Prod.fst = l.filter p := by
  induction l generalizing i with
  | nil => rfl
  | cons x l ih =>
    rw [List.zipIdx_cons, List.filter_cons, List.filter_cons]
    split
    · rw [List.map_cons, ih]
    · exact ih (i + 1)

/-- **The `k`-th rule** is that of the `k`-th element that becomes one. -/
theorem getElem?_ruleList {env : SyncEnv} {i k : Nat} {nodes : List NxJson} {node : NxJson}
    (h : (nodes.filter (qualifies env))[k]? = some node) :
    ∃ j, (ruleList env i nodes)[k]? = some (ruleOf env j node) := by
  rw [← filter_zipIdx_fst _ i, List.getElem?_map, Option.map_eq_some_iff] at h
  obtain ⟨⟨node', j⟩, hget, rfl⟩ := h
  exact ⟨j, by rw [ruleList_eq, List.getElem?_map, hget, Option.map_some]⟩

/-! ## 3. The form of a rule -/

/-- The elements that a call makes rules of. -/
def ruleElements (env : SyncEnv) (confStr : List Byte) : List NxJson :=
  ((elements env confStr).filter (qualifies env)).take (maxUrlRules + 1)

/-- The iterations of the outer loop. -/
def ruleVisits (env : SyncEnv) (st : ConfState) (confStr : List Byte) :
    List (Nat × NxJson × Option RuleLoop) :=
  visits (ruleBody env) 0 (elements env confStr) (some ⟨⟨[]⟩, st.setRefs, []⟩)

/-- The sets that the names of an element are found to be, wherever they stand in its list. -/
def validSets (env : SyncEnv) (node : NxJson) : List (BitVec 16) :=
  resolved env (nxJsonGet node keyIPSets).child

/-- The sets that the names in front of the first `null` are found to be. -/
def knownSets (env : SyncEnv) (node : NxJson) : List (BitVec 16) :=
  resolved env (items (nxJsonGet node keyIPSets))

/-- The rule has the form that the packet path relies on, and is the one that the element
describes. -/
structure RuleFits (env : SyncEnv) (node : NxJson) (rule : AuthRule) : Prop where
  sets_pos : 1 ≤ rule.numIdx
  sets_le : rule.numIdx ≤ maxUsrSet
  sets : rule.usetIdx = (validSets env node).take maxUsrSet
  nul : 0 ∈ rule.name
  name : cString rule.name = (cString (jsonName node)).take (ruleNameSize - 1)

/-- **Rules are well formed**: each store is inside `uset_idx`, and each rule has its form. -/
structure RulesWellFormed (env : SyncEnv) (st : ConfState) (confStr : List Byte) : Prop where
  stores : env.vmalloc = true → ∀ v ∈ ruleVisits env st confStr, ∀ refs,
    ∀ j ∈ usetStores env v.2.1 refs, j < maxUsrSet
  rules : ∀ r, ntrackConfSync env st confStr = .ok r → r.ret = 0 →
    ∃ blk conf, r.state.gAuthConf = some (blk, conf) ∧
      ∀ (k : Nat) (rule : AuthRule), conf.rules[k]? = some rule →
        ∃ node, (ruleElements env confStr)[k]? = some node ∧ RuleFits env node rule

/-- The element is taken whole: its sets and its name with the `NUL` have room in a rule, and no
known name stands behind a `null`, unless the rule is full by then. -/
structure TakenWhole (env : SyncEnv) (node : NxJson) : Prop where
  sets : (knownSets env node).length ≤ maxUsrSet
  nulls : (knownSets env node).length < maxUsrSet →
    let sets := nxJsonGet node keyIPSets
    ∀ str ∈ sets.child.drop (items sets).length, resolve env str = none
  name : (cString (jsonName node)).length < ruleNameSize

theorem items_append_drop (json : NxJson) :
    items json ++ json.child.drop (items json).length = json.child := by
  obtain ⟨rest, hrest⟩ : items json <+: json.child := List.takeWhile_prefix _
  rw [← hrest, List.drop_left]

theorem resolved_append (env : SyncEnv) (strs strs' : List NxJson) :
    resolved env (strs ++ strs') = resolved env strs ++ resolved env strs' :=
  List.filterMap_append ..

theorem resolved_eq_nil_iff {env : SyncEnv} {strs : List NxJson} :
    resolved env strs = [] ↔ ∀ str ∈ strs, resolve env str = none :=
  List.filterMap_eq_nil_iff

/-- The names that the loop looks at, and those behind the first `null`. -/
theorem validSets_eq (env : SyncEnv) (node : NxJson) :
    let sets := nxJsonGet node keyIPSets
    validSets env node =
      knownSets env node ++ resolved env (sets.child.drop (items sets).length) := by
  intro sets
  rw [knownSets, ← resolved_append, items_append_drop, validSets]

/-- Sets that have room are the first ones of the list exactly when there are enough of them, or
none is behind the `null`. -/
theorem knownSets_eq_take_iff {env : SyncEnv} {node : NxJson}
    (hroom : (knownSets env node).length ≤ maxUsrSet) :
    let sets := nxJsonGet node keyIPSets
    knownSets env node = (validSets env node).take maxUsrSet ↔
      ((knownSets env node).length < maxUsrSet →
        ∀ str ∈ sets.child.drop (items sets).length, resolve env str = none) := by
  intro sets
  rw [validSets_eq, List.take_append, List.take_of_length_le hroom, List.self_eq_append_right,
    List.take_eq_nil_iff, resolved_eq_nil_iff, Nat.sub_eq_zero_iff_le, or_iff_not_imp_left,
    Nat.not_le]

theorem length_ruleSets_le {env : SyncEnv} {node : NxJson} :
    (ruleSets env node).length ≤ maxUsrSet ↔ (knownSets env node).length ≤ maxUsrSet := by
  rw [ruleSets, List.length_take]
  simp only [knownSets]
  omega

/-- The rule of an element whose sets have room fits exactly when the element is taken whole. -/
theorem ruleFits_iff {env : SyncEnv} {node : NxJson} {i : Nat} (hq : qualifies env node = true)
    (hsets : (knownSets env node).length ≤ maxUsrSet) :
    RuleFits env node (ruleOf env i node) ↔ TakenWhole env node := by
  have hname := name_ruleOf (i := i) (length_ruleSets_le.mpr hsets)
  obtain ⟨hnul, hcut⟩ := strncpy_cString (jsonName node) ruleNameSize
  have hlist : (ruleOf env i node).usetIdx = knownSets env node := by
    rw [usetIdx_ruleOf]
    exact List.take_of_length_le (Nat.le_succ_of_le hsets)
  have hpos : 1 ≤ (ruleOf env i node).numIdx := by
    rw [AuthRule.numIdx, usetIdx_ruleOf]
    apply List.length_pos_of_ne_nil
    simp only [qualifies, Bool.and_eq_true, bne_iff_ne] at hq
    exact hq.2
  have hfirst := knownSets_eq_take_iff hsets
  rw [← hname] at hnul hcut
  rw [← hlist] at hfirst
  constructor
  · intro h
    exact ⟨hsets, hlist ▸ hfirst.mp h.sets, hnul.mp h.nul⟩
  · intro h
    refine ⟨hpos, ?_, hfirst.mpr (hlist ▸ h.nulls), hnul.mpr h.name, ?_⟩
    · rw [AuthRule.numIdx, hlist]
      exact hsets
    · rw [hcut h.name]
      exact (List.take_of_length_le (Nat.le_pred_of_lt h.name)).symm

/-- The stores are inside `uset_idx` exactly when no rule has more sets than it has room for. -/
theorem stores_iff (env : SyncEnv) (st : ConfState) (confStr : List Byte) :
    (∀ v ∈ ruleVisits env st confStr, ∀ refs, ∀ j ∈ usetStores env v.2.1 refs, j < maxUsrSet) ↔
      ∀ node ∈ ruleElements env confStr, (knownSets env node).length ≤ maxUsrSet := by
  have hvisits : ((ruleVisits env st confStr).map fun v => v.2.1).filter (qualifies env) =
      ruleElements env confStr := visits_ruleBody env 0 _ _ (Nat.zero_le _)
  rw [← hvisits]
  constructor
  · intro h node hnode
    obtain ⟨hmem, hq⟩ := List.mem_filter.mp hnode
    obtain ⟨v, hv, rfl⟩ := List.mem_map.mp hmem
    rw [← length_ruleSets_le]
    by_contra hmany
    have hstore : maxUsrSet ∈ usetStores env v.2.1 [] := by
      rw [usetStores_eq, if_pos hq, List.mem_range]
      omega
    exact Nat.lt_irrefl _ (h v hv [] maxUsrSet hstore)
  · intro h v hv refs j hj
    rw [usetStores_eq] at hj
    split at hj
    · rename_i hq
      have hlen := length_ruleSets_le.mpr
        (h v.2.1 (List.mem_filter.mpr ⟨List.mem_map_of_mem hv, hq⟩))
      have := List.mem_range.mp hj
      omega
    · cases hj

/-- The `k`-th rule that a call installs is that of the `k`-th element that it makes rules of. -/
theorem getElem?_newRules {env : SyncEnv} {confStr : List Byte} {k : Nat} {node : NxJson}
    (h : (ruleElements env confStr)[k]? = some node) :
    ∃ j, (newRules env confStr)[k]? = some (ruleOf env j node) := by
  rw [ruleElements, List.getElem?_take] at h
  rw [newRules, List.getElem?_take]
  split at h
  · rename_i hk
    rw [if_pos hk]
    exact getElem?_ruleList h
  · cases h

theorem exists_ruleElement {env : SyncEnv} {confStr : List Byte} {k : Nat} {rule : AuthRule}
    (h : (newRules env confStr)[k]? = some rule) :
    ∃ node j, (ruleElements env confStr)[k]? = some node ∧ rule = ruleOf env j node := by
  have hlen : (newRules env confStr).length = (ruleElements env confStr).length := by
    rw [length_newRules, ruleElements, List.length_take, List.countP_eq_length_filter]
  have hk : k < (ruleElements env confStr).length :=
    hlen ▸ (List.getElem?_eq_some_iff.mp h).1
  obtain ⟨j, hj⟩ := getElem?_newRules (List.getElem?_eq_getElem hk)
  rw [h, Option.some.injEq] at hj
  exact ⟨_, j, List.getElem?_eq_getElem hk, hj⟩

theorem qualifies_of_mem_ruleElements {env : SyncEnv} {confStr : List Byte} {node : NxJson}
    (h : node ∈ ruleElements env confStr) : qualifies env node = true :=
  (List.mem_filter.mp (List.mem_of_mem_take h)).2

/-- **When rules are well formed**: no more names of known sets than a rule has room for, none of
them lost behind a `null`, and a name that is shorter than the room for it, in every element that
is made a rule. -/
theorem rulesWellFormed_iff (env : SyncEnv) (st : ConfState) (confStr : List Byte) :
    RulesWellFormed env st confStr ↔
      (env.vmalloc = true → ∀ node ∈ ruleElements env confStr, TakenWhole env node) := by
  have hstores := stores_iff env st confStr
  have hmove := ntrackConfSync_move env st confStr
  constructor
  · intro h hmem node hnode
    have hsets := hstores.mp (h.stores hmem) node hnode
    obtain ⟨k, hk⟩ := List.mem_iff_getElem?.mp hnode
    obtain ⟨j, hj⟩ := getElem?_newRules hk
    have hrules := h.rules
    generalize ntrackConfSync env st confStr = res at hmove hrules
    cases hmove with
    | fault hno => exact absurd hmem (by rw [hno]; decide)
    | refused _ _ _ helems =>
      rw [ruleElements, helems] at hnode
      cases hnode
    | installed _ hconf _ =>
      obtain ⟨blk, conf, hinst, hfits⟩ := hrules _ rfl rfl
      rw [hconf, Option.some.injEq, Prod.mk.injEq] at hinst
      obtain ⟨-, rfl⟩ := hinst
      obtain ⟨node', hk', hfit⟩ := hfits k _ hj
      rw [hk, Option.some.injEq] at hk'
      subst hk'
      exact (ruleFits_iff (qualifies_of_mem_ruleElements hnode) hsets).mp hfit
  · intro h
    refine ⟨fun hmem => hstores.mpr fun node hnode => (h hmem node hnode).sets, ?_⟩
    intro r hr hret
    rw [hr] at hmove
    cases hmove with
    | refused => cases hret
    | installed hmem hconf _ =>
      refine ⟨_, _, hconf, ?_⟩
      intro k rule hrule
      obtain ⟨node, j, hnode, rfl⟩ := exists_ruleElement hrule
      have hwhole := h hmem node (List.mem_of_getElem? hnode)
      exact ⟨node, hnode, (ruleFits_iff (qualifies_of_mem_ruleElements
        (List.mem_of_getElem? hnode)) hwhole.sets).mpr hwhole⟩

/-- A call that installs a rule with no `NUL` in its name, or with a set that is not the one its
element asks for there. -/
theorem not_rulesWellFormed_of_run {env : SyncEnv} {confStr : List Byte} {rule : AuthRule}
    (hrun : ((ntrackConfSync env .init confStr).toOption.map fun r =>
      (r.ret, r.state.gAuthConf.map fun g => g.2.rules)) = some (0, some [rule]))
    (hbad : 0 ∉ rule.name ∨ ∀ node ∈ ruleElements env confStr,
      rule.usetIdx ≠ (validSets env node).take maxUsrSet) :
    ¬ RulesWellFormed env .init confStr := by
  intro h
  cases hr : ntrackConfSync env .init confStr with
  | error f =>
    rw [hr] at hrun
    exact absurd hrun (by simp [Except.toOption])
  | ok r =>
    rw [hr] at hrun
    simp only [Except.toOption, Option.map_some, Option.some.injEq, Prod.mk.injEq] at hrun
    obtain ⟨hret, hrules⟩ := hrun
    obtain ⟨blk, conf, hinst, hfits⟩ := h.rules r hr hret
    rw [hinst, Option.map_some, Option.some.injEq] at hrules
    obtain ⟨node, hnode, hfit⟩ := hfits 0 rule (by rw [hrules]; rfl)
    rcases hbad with hnul | hsets
    · exact hnul hfit.nul
    · exact hsets node (List.mem_of_getElem? hnode) hfit.sets

/-- A rule with five sets. -/
def fiveSets : List Byte :=
  CText.lit "[\x7b\"IPSets\":[\"a\",\"b\",\"c\",\"d\",\"e\"],\"Flags\":1\x7d]"

/-- A rule with a name of 64 characters. -/
def longName : List Byte :=
  CText.lit "[\x7b\"Name\":\"" ++ List.replicate 64 0x78 ++
    CText.lit "\",\"IPSets\":[\"a\"],\"Flags\":1\x7d]"

/-- A rule with a `null` between two sets. -/
def nullBetween : List Byte := CText.lit "[\x7b\"IPSets\":[\"a\",null,\"b\"],\"Flags\":1\x7d]"

/-- The fifth set is stored behind `uset_idx`; the long name has no `NUL`; the set behind the
`null` is missing. -/
theorem rulesWellFormed_broken :
    ¬ RulesWellFormed (plentyEnv 1) .init fiveSets ∧
      ¬ RulesWellFormed (plentyEnv 1) .init longName ∧
      ¬ RulesWellFormed (plentyEnv 1) .init nullBetween := by
  refine ⟨?_, ?_, ?_⟩
  · intro h
    have hmany : (ruleElements (plentyEnv 1) fiveSets).any
        (fun node => 4 < (knownSets (plentyEnv 1) node).length) = true := by decide +kernel
    obtain ⟨node, hnode, hlen⟩ := List.any_eq_true.mp hmany
    have hle := (stores_iff (plentyEnv 1) .init fiveSets).mp (h.stores rfl) node hnode
    exact absurd hle (Nat.not_le_of_lt (of_decide_eq_true hlen))
  · have hrun : ((ntrackConfSync (plentyEnv 1) .init longName).toOption.map fun r =>
        (r.ret, r.state.gAuthConf.map fun g => g.2.rules)) =
          some (0, some [⟨1, 1, [0x61], List.replicate 64 0x78⟩]) := by
      decide +kernel
    exact not_rulesWellFormed_of_run hrun (Or.inl (by decide))
  · have hrun : ((ntrackConfSync (plentyEnv 1) .init nullBetween).toOption.map fun r =>
        (r.ret, r.state.gAuthConf.map fun g => g.2.rules)) =
          some (0, some [⟨1, 1, [0x61], List.replicate 64 0⟩]) := by
      decide +kernel
    have hsets : (ruleElements (plentyEnv 1) nullBetween).all
        (fun node => (validSets (plentyEnv 1) node).take maxUsrSet = [0x61, 0x62]) = true := by
      decide +kernel
    refine not_rulesWellFormed_of_run hrun (Or.inr ?_)
    intro node hnode heq
    have hboth := of_decide_eq_true (List.all_eq_true.mp hsets node hnode)
    exact absurd (heq.trans hboth) (by decide)

end Puppies
