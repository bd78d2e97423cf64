/-
# Which rules are loaded, and what a failed call leaves behind

The accessors of the JSON tree have no way to say that a list has ended, other than a node of the
type `NX_JSON_NULL`, which is also the type of a `null` in the text.  Both loops of
`ntrack_conf_sync` break at such a node, so that a `null` hides what is behind it
(`keepsValidRules_iff`).

A call that cannot install anything fails half way: without memory for the table it goes on with
`NULL`, and when the text is refused it returns with the table, and the tree if there is one,
still allocated (`failsClean_iff`).
-/
import Puppies.Ntrack.RuleForm

namespace Puppies

open ByteMem BreakLoop

/-! ## 1. Valid rules -/

/-- The element is an object with an array `IPSets` that has a known name in it. -/
def wanted (env : SyncEnv) (node : NxJson) : Bool :=
  node.type == .object && (nxJsonGet node keyIPSets).type == .array && validSets env node != []

/-- The rule that such an element stands for. -/
def wantedRule (env : SyncEnv) (i : Nat) (node : NxJson) : AuthRule :=
  flaggedRule env i node { namedRule node with usetIdx := validSets env node }

/-- One rule for each such element, in the order of the array. -/
def wantedRules (env : SyncEnv) : Nat → List NxJson → List AuthRule
  | _, [] => []
  | i, node :: nodes =>
    if wanted env node then wantedRule env i node :: wantedRules env (i + 1) nodes
    else wantedRules env (i + 1) nodes

/-- **Every valid rule is kept**: the call installs exactly the rules of the array. -/
def KeepsValidRules (env : SyncEnv) (st : ConfState) (confStr : List Byte) (json : NxJson) : Prop :=
  ∃ r blk, ntrackConfSync env st confStr = .ok r ∧ r.ret = 0 ∧
    r.state.gAuthConf = some (blk, ⟨wantedRules env 0 json.child⟩)

/-- A `null` stands only where nothing that counts follows: no element with a rule in the array,
and no name of a known set in the list of an element with a rule. -/
structure NullsLast (env : SyncEnv) (json : NxJson) : Prop where
  elems : ∀ node ∈ json.child.drop (items json).length, wanted env node = false
  names : ∀ node ∈ items json, wanted env node = true →
    let sets := nxJsonGet node keyIPSets
    ∀ str ∈ sets.child.drop (items sets).length, resolve env str = none

/-- The loop finds all sets of an element, if it has room for them, exactly when no known name
is behind a `null`. -/
theorem ruleSets_eq_validSets_iff {env : SyncEnv} {node : NxJson}
    (hroom : (validSets env node).length ≤ maxUsrSet) :
    let sets := nxJsonGet node keyIPSets
    ruleSets env node = validSets env node ↔
      ∀ str ∈ sets.child.drop (items sets).length, resolve env str = none := by
  intro sets
  have hsplit := validSets_eq env node
  have hknown : (knownSets env node).length ≤ maxUsrSet := by
    rw [hsplit, List.length_append] at hroom
    omega
  have hall : ruleSets env node = knownSets env node :=
    List.take_of_length_le (Nat.le_succ_of_le hknown)
  rw [hall, hsplit, ← resolved_eq_nil_iff, List.self_eq_append_right]

/-- What the code makes a rule of has a rule. -/
theorem wanted_of_qualifies {env : SyncEnv} {node : NxJson} (h : qualifies env node = true) :
    wanted env node = true := by
  simp only [qualifies, wanted, Bool.and_eq_true, bne_iff_ne] at h ⊢
  refine ⟨h.1, ?_⟩
  intro hnil
  rw [validSets_eq, List.append_eq_nil_iff] at hnil
  exact h.2 (by rw [ruleSets, ← knownSets, hnil.1, List.take_nil])

theorem qualifies_of_wanted {env : SyncEnv} {node : NxJson} (h : wanted env node = true)
    (hsets : ruleSets env node = validSets env node) : qualifies env node = true := by
  simp only [qualifies, wanted, Bool.and_eq_true, bne_iff_ne] at h ⊢
  exact ⟨h.1, hsets ▸ h.2⟩

/-- Sets that have room are added behind each other. -/
theorem foldl_addSet_of_room {bo : ByteOrder} {idxs : List (BitVec 16)} {rule : AuthRule}
    (h : rule.numIdx + idxs.length ≤ maxUsrSet) :
    idxs.foldl (AuthRule.addSet bo) rule = { rule with usetIdx := rule.usetIdx ++ idxs } := by
  induction idxs generalizing rule with
  | nil => simp
  | cons idx idxs ih =>
    rw [List.length_cons] at h
    have hroom : rule.numIdx < maxUsrSet := by omega
    rw [List.foldl_cons, ih (by rw [numIdx_addSet]; omega), AuthRule.addSet, if_pos hroom,
      List.append_assoc, List.singleton_append]

theorem ruleOf_eq_wantedRule {env : SyncEnv} {i : Nat} {node : NxJson}
    (hroom : (validSets env node).length ≤ maxUsrSet)
    (hsets : ruleSets env node = validSets env node) :
    ruleOf env i node = wantedRule env i node := by
  have h0 : (namedRule node).usetIdx = [] := List.eq_nil_of_length_eq_zero (numIdx_namedRule node)
  have hadd : (validSets env node).foldl (AuthRule.addSet env.bo) (namedRule node) =
      { namedRule node with usetIdx := (namedRule node).usetIdx ++ validSets env node } :=
    foldl_addSet_of_room (by rw [numIdx_namedRule, Nat.zero_add]; exact hroom)
  rw [ruleOf, hsets, hadd, h0, List.nil_append, wantedRule]

theorem wantedRules_append (env : SyncEnv) (i : Nat) (nodes nodes' : List NxJson) :
    wantedRules env i (nodes ++ nodes') =
      wantedRules env i nodes ++ wantedRules env (i + nodes.length) nodes' := by
  induction nodes generalizing i with
  | nil => rfl
  | cons node nodes ih =>
    rw [List.cons_append, wantedRules, wantedRules, ih, List.length_cons, Nat.add_right_comm,
      Nat.add_assoc]
    split
    · rfl
    · rfl

theorem wantedRules_eq_nil_iff {env : SyncEnv} {i : Nat} {nodes : List NxJson} :
    wantedRules env i nodes = [] ↔ ∀ node ∈ nodes, wanted env node = false := by
  induction nodes generalizing i with
  | nil => simp [wantedRules]
  | cons node nodes ih =>
    rw [wantedRules]
    cases hw : wanted env node with
    | true => simp [hw]
    | false => simp [hw, ih]

theorem length_ruleList_le (env : SyncEnv) (i : Nat) (nodes : List NxJson) :
    (ruleList env i nodes).length ≤ (wantedRules env i nodes).length := by
  induction nodes generalizing i with
  | nil => exact Nat.le_refl _
  | cons node nodes ih =>
    have := ih (i + 1)
    rw [ruleList, wantedRules]
    by_cases hq : qualifies env node = true
    · rw [if_pos hq, if_pos (wanted_of_qualifies hq)]
      exact Nat.succ_le_succ this
    · rw [if_neg hq]
      split
      · exact Nat.le_succ_of_le this
      · exact this

/-- The rules that the loops find are all there are exactly when they find all sets of each. -/
theorem ruleList_eq_wantedRules_iff {env : SyncEnv} {i : Nat} {nodes : List NxJson}
    {more : List AuthRule}
    (hroom : ∀ node ∈ nodes, wanted env node = true → (validSets env node).length ≤ maxUsrSet) :
    ruleList env i nodes = wantedRules env i nodes ++ more ↔
      more = [] ∧ ∀ node ∈ nodes, wanted env node = true →
        ruleSets env node = validSets env node := by
  induction nodes generalizing i with
  | nil =>
    rw [ruleList, wantedRules, List.nil_append]
    exact ⟨fun h => ⟨h.symm, by simp⟩, fun h => h.1.symm⟩
  | cons node nodes ih =>
    have htail := ih (i := i + 1) fun n hn => hroom n (List.mem_cons_of_mem node hn)
    have hlen := length_ruleList_le env (i + 1) nodes
    rw [ruleList, wantedRules]
    by_cases hw : wanted env node = true
    · have hroomNode := hroom node List.mem_cons_self hw
      by_cases hq : qualifies env node = true
      · have hhead : ruleOf env i node = wantedRule env i node ↔
            ruleSets env node = validSets env node := by
          refine ⟨?_, ruleOf_eq_wantedRule hroomNode⟩
          intro h
          rw [← usetIdx_ruleOf env i node, h]
          rfl
        rw [if_pos hq, if_pos hw, List.cons_append, List.cons.injEq, hhead, htail]
        simp only [List.mem_cons, forall_eq_or_imp, hw, forall_true_left]
        tauto
      · -- the element is lost, and nothing makes good for it
        rw [if_neg hq, if_pos hw]
        constructor
        · intro h
          have := congrArg List.length h
          simp only [List.length_append, List.length_cons] at this
          omega
        · intro h
          exact absurd (qualifies_of_wanted hw (h.2 node List.mem_cons_self hw)) hq
    · have hq : ¬ qualifies env node = true := fun h => hw (wanted_of_qualifies h)
      rw [if_neg hq, if_neg hw, htail]
      simp [hw]

theorem length_wantedRules (env : SyncEnv) (i : Nat) (nodes : List NxJson) :
    (wantedRules env i nodes).length = nodes.countP (wanted env) := by
  induction nodes generalizing i with
  | nil => rfl
  | cons node nodes ih =>
    rw [wantedRules, List.countP_cons]
    split
    · rw [List.length_cons, ih]
    · rw [ih, Nat.add_zero]

/-- An array is installed, if there is memory for the table. -/
theorem ntrackConfSync_of_array {env : SyncEnv} (st : ConfState) {confStr : List Byte}
    {json : NxJson} (hmem : env.vmalloc = true)
    (hjson : nxJsonParseUtf8 env.kzalloc confStr = some json) (harr : json.type = .array) :
    ∃ r, ntrackConfSync env st confStr = .ok r ∧ r.ret = 0 ∧
      r.state.gAuthConf = some (st.nextBlock, ⟨newRules env confStr⟩) := by
  have helems : elements env confStr = items json := by
    simp only [elements, hjson, if_pos harr]
  obtain ⟨r, hr, hrules, -⟩ := walk_ruleBody env 0 (items json) ⟨⟨[]⟩, st.setRefs, []⟩
    (Nat.zero_le _) rfl
  rw [← helems, List.nil_append] at hrules
  have hconf : r.conf = ⟨newRules env confStr⟩ := congrArg AuthConf.mk hrules
  refine ⟨⟨0, { st with setRefs := r.refs }.install r.conf, r.stores⟩, ?_, rfl, ?_⟩
  · unfold ntrackConfSync
    simp only [hmem, Bool.not_true, Bool.false_eq_true, if_false, hjson, ne_eq, harr,
      not_true_eq_false, forItems_eq_walk, hr]
  · rw [ConfState.install, hconf]

/-- The rules that are found are those that are wanted when the nulls are last. -/
theorem newRules_eq_wantedRules_iff {env : SyncEnv} {confStr : List Byte} {json : NxJson}
    (hjson : nxJsonParseUtf8 env.kzalloc confStr = some json) (harr : json.type = .array)
    (hrules : json.child.countP (wanted env) ≤ maxUrlRules)
    (hsets : ∀ node ∈ json.child, wanted env node = true →
      (validSets env node).length ≤ maxUsrSet) :
    newRules env confStr = wantedRules env 0 json.child ↔ NullsLast env json := by
  have hsplit : wantedRules env 0 json.child = wantedRules env 0 (items json) ++
      wantedRules env (0 + (items json).length) (json.child.drop (items json).length) := by
    rw [← wantedRules_append, items_append_drop]
  have hitems : ∀ node ∈ items json, node ∈ json.child :=
    fun node hnode => (List.takeWhile_prefix _).subset hnode
  have hroom : ∀ node ∈ items json, wanted env node = true →
      (validSets env node).length ≤ maxUsrSet := fun node hnode => hsets node (hitems node hnode)
  -- the table has room for all rules
  have hnew : newRules env confStr = ruleList env 0 (items json) := by
    have helems : elements env confStr = items json := by
      simp only [elements, hjson, if_pos harr]
    rw [newRules, helems]
    apply List.take_of_length_le
    have hle := length_ruleList_le env 0 (items json)
    have hall := length_wantedRules env 0 json.child
    rw [hsplit, List.length_append] at hall
    omega
  rw [hnew, hsplit, ruleList_eq_wantedRules_iff hroom, wantedRules_eq_nil_iff]
  constructor
  · intro h
    exact ⟨h.1, fun node hnode hw => (ruleSets_eq_validSets_iff (hroom node hnode hw)).mp
      (h.2 node hnode hw)⟩
  · intro h
    exact ⟨h.elems, fun node hnode hw => (ruleSets_eq_validSets_iff (hroom node hnode hw)).mpr
      (h.names node hnode hw)⟩

/-- **When every valid rule is kept.**  For an array with room for its rules and their sets: the
table can be had, and a `null` stands only where nothing that counts follows. -/
theorem keepsValidRules_iff {env : SyncEnv} {st : ConfState} {confStr : List Byte} {json : NxJson}
    (hjson : nxJsonParseUtf8 env.kzalloc confStr = some json) (harr : json.type = .array)
    (hrules : json.child.countP (wanted env) ≤ maxUrlRules)
    (hsets : ∀ node ∈ json.child, wanted env node = true →
      (validSets env node).length ≤ maxUsrSet) :
    KeepsValidRules env st confStr json ↔ env.vmalloc = true ∧ NullsLast env json := by
  have hlast := newRules_eq_wantedRules_iff hjson harr hrules hsets
  constructor
  · rintro ⟨r, blk, hr, -, hconf⟩
    have hmem : env.vmalloc = true := by
      by_contra hno
      rw [Bool.not_eq_true] at hno
      rw [ntrackConfSync, hno] at hr
      cases hr
    obtain ⟨r', hr', -, hconf'⟩ := ntrackConfSync_of_array st hmem hjson harr
    rw [hr, Except.ok.injEq] at hr'
    subst hr'
    rw [hconf, Option.some.injEq, Prod.mk.injEq, AuthConf.mk.injEq] at hconf'
    exact ⟨hmem, hlast.mp hconf'.2.symm⟩
  · rintro ⟨hmem, hnulls⟩
    obtain ⟨r, hr, hret, hconf⟩ := ntrackConfSync_of_array st hmem hjson harr
    exact ⟨r, st.nextBlock, hr, hret, by rw [hconf, hlast.mpr hnulls]⟩

/-- An element that is no rule, one with a name that is no text, and a `null` behind them. -/
def mixedConf : List Byte :=
  CText.lit "[1,\x7b\"IPSets\":[2,\"a\"],\"Flags\":1\x7d,null]"

theorem keepsValidRules_iff_mixed : ∃ json,
    nxJsonParseUtf8 (plentyEnv 1).kzalloc mixedConf = some json ∧
      KeepsValidRules (plentyEnv 1) .init mixedConf json := by
  have h : ((nxJsonParseUtf8 (plentyEnv 1).kzalloc mixedConf).map fun json =>
      (json.type, json.child.countP (wanted (plentyEnv 1)),
        json.child.all (fun node => (validSets (plentyEnv 1) node).length ≤ 4),
        (json.child.drop (items json).length).all (fun node => !wanted (plentyEnv 1) node),
        (items json).all fun node => ((nxJsonGet node keyIPSets).child.drop
          (items (nxJsonGet node keyIPSets)).length).isEmpty)) =
      some (.array, 1, true, true, true) := by
    decide +kernel
  cases hjson : nxJsonParseUtf8 (plentyEnv 1).kzalloc mixedConf with
  | none =>
    rw [hjson] at h
    cases h
  | some json =>
    rw [hjson, Option.map_some, Option.some.injEq] at h
    simp only [Prod.mk.injEq, List.all_eq_true, decide_eq_true_eq, Bool.not_eq_true',
      List.isEmpty_iff] at h
    obtain ⟨harr, hcount, hroom, helems, hnames⟩ := h
    have hrules : json.child.countP (wanted (plentyEnv 1)) ≤ maxUrlRules := by
      rw [hcount]
      decide
    refine ⟨json, rfl, (keepsValidRules_iff hjson harr hrules
      fun node hnode _ => hroom node hnode).mpr ⟨rfl, helems, ?_⟩⟩
    intro node hnode _ sets str hstr
    exact absurd (hnames node hnode ▸ hstr) List.not_mem_nil

/-- A run that installs another number of rules than the array has. -/
theorem not_keepsValidRules_of_run {env : SyncEnv} {confStr : List Byte} {n k : Nat}
    (hjson : ((nxJsonParseUtf8 env.kzalloc confStr).map fun json =>
      (json.type, json.child.countP (wanted env),
        json.child.all fun node => (validSets env node).length ≤ maxUsrSet)) =
      some (.array, n, true))
    (hrun : ((ntrackConfSync env .init confStr).toOption.map fun r =>
      r.state.gAuthConf.map fun g => g.2.numRules) = some (some k))
    (hn : n ≤ maxUrlRules) (hne : k ≠ n) :
    ∃ json, nxJsonParseUtf8 env.kzalloc confStr = some json ∧ json.type = .array ∧
      json.child.countP (wanted env) ≤ maxUrlRules ∧
      (∀ node ∈ json.child, wanted env node = true → (validSets env node).length ≤ maxUsrSet) ∧
      ¬ KeepsValidRules env .init confStr json := by
  obtain ⟨json, hparse, heq⟩ := Option.map_eq_some_iff.mp hjson
  simp only [Prod.mk.injEq, List.all_eq_true, decide_eq_true_eq] at heq
  obtain ⟨harr, hcount, hroom⟩ := heq
  refine ⟨json, hparse, harr, by omega, fun node hnode _ => hroom node hnode, ?_⟩
  rintro ⟨r, blk, hr, -, hconf⟩
  have hlen := length_wantedRules env 0 json.child
  rw [hr] at hrun
  simp only [Except.toOption, Option.map_some, Option.some.injEq, hconf, AuthConf.numRules]
    at hrun
  omega

/-- A `null` in front of a rule, and one in front of the name of its set. -/
theorem keepsValidRules_broken :
    (∃ json, nxJsonParseUtf8 (plentyEnv 1).kzalloc
        (CText.lit "[null,\x7b\"IPSets\":[\"a\"],\"Flags\":1\x7d]") = some json ∧
      json.type = .array ∧ json.child.countP (wanted (plentyEnv 1)) ≤ maxUrlRules ∧
      (∀ node ∈ json.child, wanted (plentyEnv 1) node = true →
        (validSets (plentyEnv 1) node).length ≤ maxUsrSet) ∧
      ¬ KeepsValidRules (plentyEnv 1) .init
        (CText.lit "[null,\x7b\"IPSets\":[\"a\"],\"Flags\":1\x7d]") json) ∧
    ∃ json, nxJsonParseUtf8 (plentyEnv 1).kzalloc
        (CText.lit "[\x7b\"IPSets\":[null,\"a\"],\"Flags\":1\x7d]") = some json ∧
      json.type = .array ∧ json.child.countP (wanted (plentyEnv 1)) ≤ maxUrlRules ∧
      (∀ node ∈ json.child, wanted (plentyEnv 1) node = true →
        (validSets (plentyEnv 1) node).length ≤ maxUsrSet) ∧
      ¬ KeepsValidRules (plentyEnv 1) .init
        (CText.lit "[\x7b\"IPSets\":[null,\"a\"],\"Flags\":1\x7d]") json :=
  ⟨not_keepsValidRules_of_run (n := 1) (k := 0) (by decide +kernel) (by decide +kernel)
      (by decide) (by decide),
    not_keepsValidRules_of_run (n := 1) (k := 0) (by decide +kernel) (by decide +kernel)
      (by decide) (by decide)⟩

/-! ## 2. Failed calls -/

/-- The call cannot install anything: there is no memory for the table, the text is refused, or
it is no array. -/
def CannotInstall (env : SyncEnv) (confStr : List Byte) : Prop :=
  env.vmalloc = false ∨ ∀ json, nxJsonParseUtf8 env.kzalloc confStr = some json → json.type ≠ .array

/-- **A failed call changes nothing**: it returns an error, and the installed table, the blocks
and trees that are allocated and the references on IP sets are those of before. -/
def FailsClean (env : SyncEnv) (st : ConfState) (confStr : List Byte) : Prop :=
  CannotInstall env confStr → ∃ r, ntrackConfSync env st confStr = .ok r ∧ r.ret < 0 ∧
    r.state.gAuthConf = st.gAuthConf ∧ r.state.liveBlocks = st.liveBlocks ∧
    r.state.liveTrees = st.liveTrees ∧ r.state.setRefs = st.setRefs

/-- A call that fails without a fault has kept its table. -/
theorem liveBlocks_of_refused {env : SyncEnv} {st : ConfState} {confStr : List Byte}
    {r : SyncResult} (hfail : CannotInstall env confStr)
    (hr : ntrackConfSync env st confStr = .ok r) :
    r.state.liveBlocks = st.nextBlock :: st.liveBlocks := by
  unfold ntrackConfSync at hr
  cases hmem : env.vmalloc with
  | false =>
    rw [hmem] at hr
    cases hr
  | true =>
    simp only [hmem, Bool.not_true, Bool.false_eq_true, if_false] at hr
    have htext := hfail.resolve_left (by rw [hmem]; decide)
    cases hjson : nxJsonParseUtf8 env.kzalloc confStr with
    | none =>
      simp only [hjson, Except.ok.injEq] at hr
      rw [← hr]
    | some json =>
      simp only [hjson, if_pos (htext json hjson), Except.ok.injEq] at hr
      rw [← hr]

/-- **When a failed call changes nothing**: never, so exactly if the call does not fail. -/
theorem failsClean_iff (env : SyncEnv) (st : ConfState) (confStr : List Byte) :
    FailsClean env st confStr ↔ env.vmalloc = true ∧
      ∃ json, nxJsonParseUtf8 env.kzalloc confStr = some json ∧ json.type = .array := by
  constructor
  · intro h
    by_contra hno
    have hfail : CannotInstall env confStr := by
      rcases Bool.eq_false_or_eq_true env.vmalloc with hmem | hmem
      · exact Or.inr fun json hjson harr => hno ⟨hmem, json, hjson, harr⟩
      · exact Or.inl hmem
    obtain ⟨r, hr, -, -, hblocks, -⟩ := h hfail
    rw [liveBlocks_of_refused hfail hr] at hblocks
    exact List.cons_ne_self _ _ hblocks
  · rintro ⟨hmem, json, hjson, harr⟩ hfail
    rcases hfail with hno | hno
    · rw [hmem] at hno
      cases hno
    · exact absurd harr (hno json hjson)

/-- No memory for the table; a text that is no JSON; a text that is no array. -/
theorem failsClean_broken :
    ntrackConfSync { plentyEnv 1 with vmalloc := false } .init (CText.lit "[]") =
        .error .nullTable ∧
      ¬ FailsClean { plentyEnv 1 with vmalloc := false } .init (CText.lit "[]") ∧
      ¬ FailsClean (plentyEnv 1) .init (CText.lit "]") ∧
      ¬ FailsClean (plentyEnv 1) .init (CText.lit "7") := by
  have hleak : ∀ confStr : List Byte, CannotInstall (plentyEnv 1) confStr →
      ¬ FailsClean (plentyEnv 1) .init confStr := by
    intro confStr hfail h
    obtain ⟨r, hr, -, -, hblocks, -⟩ := h hfail
    rw [liveBlocks_of_refused hfail hr] at hblocks
    exact List.cons_ne_self _ _ hblocks
  have hrefused : ∀ confStr : List Byte,
      ((nxJsonParseUtf8 (plentyEnv 1).kzalloc confStr).any fun json =>
        json.type == .array) = false →
      CannotInstall (plentyEnv 1) confStr := by
    intro confStr h
    refine Or.inr ?_
    intro json hjson harr
    rw [hjson, Option.any_some, harr] at h
    cases h
  refine ⟨rfl, ?_, hleak _ (hrefused _ (by decide +kernel)),
    hleak _ (hrefused _ (by decide +kernel))⟩
  intro h
  obtain ⟨r, hr, -⟩ := h (Or.inl rfl)
  cases hr

end Puppies
