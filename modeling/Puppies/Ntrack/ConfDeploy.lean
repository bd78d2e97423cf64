/-
# From the text that `ntrackd` sends to the users

The configuration of the portal is a JSON document, an array of rules.  What it SAYS is in section
1: an object with an array `IPSets` is a rule, with the strings of the array as the names of its
sets, and it is in effect if one of the sets is known.  Nothing there knows of trees, of netlink or
of tables.

Between this and the users lie four pieces of code, each with lengths and loops of its own: `xmit`,
`nl_recv`, the JSON reader, and the loops of `ntrack_conf_sync`.  `site_portal` puts them together
with the run of the module: whatever white space and escapes a document is written with, as long as
it has at most 4096 bytes and as many rules and sets as there is room for, its arrival is the
arrival of the rules that it says, and it is nothing at all if it is lost on the way.
-/
import Puppies.Ntrack.ConfTransport
import Puppies.Ntrack.NxGrammar
import Puppies.Ntrack.Session

namespace Puppies

open ByteMem EventRun FirstFit

open JsonText (Value)

/-! ## 1. What a document says -/

/-- The first member of that name, and `null` if there is none. -/
def member (key : Text) : Value Int → Value Int
  | .obj ms => ((ms.find? fun m => cString m.1 == key).map Prod.snd).getD .null
  | _ => .null

/-- A string, up to its first `NUL`. -/
def stringOf : Value Int → Option Text
  | .str s => some (cString s)
  | _ => none

/-- An integer. -/
def integerOf : Value Int → Option Int
  | .num n => some n
  | _ => none

/-- A rule as it is written. -/
structure ConfRule where
  ipSets : List Text
  name : Text
  flags : Int
  deriving DecidableEq, Repr

/-- The rule that an element of the document is. -/
def confRule (v : Value Int) : Option ConfRule :=
  match member keyIPSets v with
  | .arr names => some ⟨names.filterMap stringOf, (stringOf (member keyName v)).getD [],
      (integerOf (member keyFlags v)).getD 0⟩
  | _ => none

/-- Its sets, those that are known. -/
def ConfRule.sets (env : SyncEnv) (c : ConfRule) : List (BitVec 16) :=
  c.ipSets.filterMap env.ipSetGetByname

/-- What it asks of the users in its sets. -/
def ConfRule.portal (env : SyncEnv) (c : ConfRule) : PortalRule :=
  ⟨c.sets env, BitVec.ofInt 32 c.flags != 0⟩

/-- Its entry in the table, read at time `jiffies i`. -/
def ConfRule.entry (env : SyncEnv) (i : Nat) (c : ConfRule) : AuthRule :=
  ⟨BitVec.ofInt 32 c.flags, env.jiffies i, c.sets env, strncpy c.name ruleNameSize⟩

/-- The rule of an element, if it is in effect. -/
def effective (env : SyncEnv) (v : Value Int) : Option ConfRule :=
  (confRule v).filter fun c => c.sets env != []

/-- The rules in effect, as the portal has them. -/
def portalRules (env : SyncEnv) (vs : List (Value Int)) : List PortalRule :=
  (vs.filterMap (effective env)).map (ConfRule.portal env)

/-- The table of a document, of which `i` elements are read. -/
def documentTable (env : SyncEnv) : Nat → List (Value Int) → List AuthRule
  | _, [] => []
  | i, v :: vs =>
    match effective env v with
    | some c => c.entry env i :: documentTable env (i + 1) vs
    | none => documentTable env (i + 1) vs

theorem map_portal_documentTable (env : SyncEnv) (i : Nat) (vs : List (Value Int)) :
    (documentTable env i vs).map AuthRule.portal = portalRules env vs := by
  unfold portalRules
  induction vs generalizing i with
  | nil => rfl
  | cons v vs ih =>
    rw [documentTable]
    cases h : effective env v with
    | none =>
      rw [List.filterMap_cons_none h]
      exact ih (i + 1)
    | some c =>
      rw [List.filterMap_cons_some h, List.map_cons, List.map_cons, ← ih (i + 1)]
      rfl

/-! ## 2. What is read of it -/

theorem nodesOfElems_eq_map (vs : List (Value Int)) : nodesOfElems vs = vs.map (nodeOf none) := by
  induction vs with
  | nil => rfl
  | cons v vs ih => rw [nodesOfElems, ih, List.map_cons]

theorem nodesOfMembers_eq_map (ms : List (Text × Value Int)) :
    nodesOfMembers ms = ms.map fun m => nodeOf (some (cString m.1)) m.2 := by
  induction ms with
  | nil => rfl
  | cons m ms ih => rw [nodesOfMembers, ih, List.map_cons]

theorem key_nodeOf (key : Option Text) (v : Value Int) : (nodeOf key v).key = key := by
  cases v <;> rfl

/-- **`nx_json_get` finds the first member of the name**, or a node like that of a `null`. -/
theorem nxJsonGet_nodeOf (key : Option Text) (v : Value Int) (name : Text) :
    ∃ key', nxJsonGet (nodeOf key v) name = nodeOf key' (member name v) := by
  cases v with
  | obj ms =>
    have hget : nxJsonGet (nodeOf key (.obj ms)) name =
        ((nodesOfMembers ms).find? fun js => js.key == some name).getD .dummy := rfl
    rw [hget, nodesOfMembers_eq_map, member, List.find?_map]
    have hkeys : ((fun js : NxJson => js.key == some name) ∘
        fun m : Text × Value Int => nodeOf (some (cString m.1)) m.2) =
        fun m => cString m.1 == name := by
      funext m
      rw [Function.comp_apply, key_nodeOf]
      rfl
    rw [hkeys]
    cases ms.find? fun m => cString m.1 == name with
    | none => exact ⟨none, rfl⟩
    | some m => exact ⟨some (cString m.1), rfl⟩
  | arr vs =>
    refine ⟨none, ?_⟩
    have hget : nxJsonGet (nodeOf key (.arr vs)) name =
        ((nodesOfElems vs).find? fun js => js.key == some name).getD .dummy := rfl
    have hnone : (nodesOfElems vs).find? (fun js => js.key == some name) = none := by
      rw [nodesOfElems_eq_map, List.find?_eq_none]
      intro js hjs
      obtain ⟨w, -, rfl⟩ := List.mem_map.mp hjs
      rw [key_nodeOf]
      simp
    rw [hget, hnone]
    rfl
  | null => exact ⟨none, rfl⟩
  | bool b => exact ⟨none, rfl⟩
  | num n => exact ⟨none, rfl⟩
  | str s => exact ⟨none, rfl⟩

/-- The name of a set, as the loop sees it. -/
theorem resolve_nodeOf (env : SyncEnv) (key : Option Text) (v : Value Int) :
    resolve env (nodeOf key v) = (stringOf v).bind env.ipSetGetByname := by
  cases v <;> rfl

theorem type_nodeOf_eq_null {key : Option Text} {v : Value Int} :
    (nodeOf key v).type = .null ↔ v = .null := by
  cases v <;> simp [nodeOf, NxJson.type]

/-- The sets of an element are those of its list. -/
theorem validSets_nodeOf (env : SyncEnv) (v : Value Int) {names : List (Value Int)}
    (h : member keyIPSets v = .arr names) :
    validSets env (nodeOf none v) = (names.filterMap stringOf).filterMap env.ipSetGetByname := by
  obtain ⟨key, hget⟩ := nxJsonGet_nodeOf none v keyIPSets
  have hchild : (nodeOf key (.arr names)).child = nodesOfElems names := rfl
  have hresolve : (fun name => resolve env (nodeOf none name)) =
      fun name => (stringOf name).bind env.ipSetGetByname :=
    funext fun name => resolve_nodeOf env none name
  rw [validSets, hget, h, hchild, nodesOfElems_eq_map, resolved, List.filterMap_map,
    List.filterMap_filterMap]
  exact congrArg (fun f => List.filterMap f names) hresolve

theorem object_of_member {key : Text} {v : Value Int} (h : member key v ≠ .null) :
    (nodeOf none v).type = .object := by
  cases v with
  | obj ms => rfl
  | _ => exact absurd rfl h

/-- **The name and the flags** of a rule. -/
theorem namedRule_nodeOf (v : Value Int) :
    namedRule (nodeOf none v) =
      ⟨0, 0, [], strncpy ((stringOf (member keyName v)).getD []) ruleNameSize⟩ := by
  obtain ⟨key, hget⟩ := nxJsonGet_nodeOf none v keyName
  unfold namedRule
  rw [hget]
  cases member keyName v <;> rfl

theorem flaggedRule_nodeOf (env : SyncEnv) (i : Nat) (v : Value Int) {rule : AuthRule}
    (h : rule.flags = 0) : flaggedRule env i (nodeOf none v) rule =
      { rule with
        flags := BitVec.ofInt 32 ((integerOf (member keyFlags v)).getD 0)
        magic := env.jiffies i } := by
  obtain ⟨key, hget⟩ := nxJsonGet_nodeOf none v keyFlags
  unfold flaggedRule
  rw [hget]
  cases member keyFlags v with
  | num n =>
    have htype : (nodeOf key (.num n)).type = .integer := rfl
    have hflags : (nodeOf key (.num n)).intValue.setWidth 32 = BitVec.ofInt 32 n := by
      have hint : (nodeOf key (.num n)).intValue = BitVec.ofInt 64 n := rfl
      apply BitVec.eq_of_toNat_eq
      rw [hint, BitVec.toNat_setWidth, BitVec.toNat_ofInt, BitVec.toNat_ofInt]
      omega
    simp only [htype, if_true, hflags]
    rfl
  | _ => simp [nodeOf, NxJson.type, h, integerOf]

theorem effective_eq_some {env : SyncEnv} {v : Value Int} {c : ConfRule} :
    effective env v = some c ↔ confRule v = some c ∧ c.sets env ≠ [] := by
  rw [effective, Option.filter_eq_some_iff, bne_iff_ne]

theorem confRule_eq_some {v : Value Int} {c : ConfRule} :
    confRule v = some c ↔ ∃ names, member keyIPSets v = .arr names ∧
      c = ⟨names.filterMap stringOf, (stringOf (member keyName v)).getD [],
        (integerOf (member keyFlags v)).getD 0⟩ := by
  unfold confRule
  cases member keyIPSets v with
  | arr names => simp [eq_comm]
  | _ => simp

/-- **An element that says a rule in effect** has it. -/
theorem wanted_of_effective {env : SyncEnv} {v : Value Int} {c : ConfRule}
    (h : effective env v = some c) (i : Nat) :
    wanted env (nodeOf none v) = true ∧ wantedRule env i (nodeOf none v) = c.entry env i := by
  obtain ⟨hrule, hsets⟩ := effective_eq_some.mp h
  obtain ⟨names, hnames, rfl⟩ := confRule_eq_some.mp hrule
  obtain ⟨key, hget⟩ := nxJsonGet_nodeOf none v keyIPSets
  have hmember : member keyIPSets v ≠ .null := by
    rw [hnames]
    simp
  have hobj := object_of_member hmember
  have hvalid := validSets_nodeOf env v hnames
  constructor
  · rw [wanted, hobj, hget, hnames, hvalid]
    simp only [Bool.and_eq_true, bne_iff_ne]
    exact ⟨⟨rfl, rfl⟩, hsets⟩
  · rw [wantedRule, flaggedRule_nodeOf, namedRule_nodeOf, hvalid]
    · rfl
    · rw [namedRule_nodeOf]

/-- **The others have none.** -/
theorem wanted_of_not_effective {env : SyncEnv} {v : Value Int} (h : effective env v = none) :
    wanted env (nodeOf none v) = false := by
  rw [← Bool.not_eq_true]
  intro hw
  simp only [wanted, Bool.and_eq_true, beq_iff_eq, bne_iff_ne] at hw
  obtain ⟨⟨hobj, harr⟩, hsets⟩ := hw
  obtain ⟨key, hget⟩ := nxJsonGet_nodeOf none v keyIPSets
  rw [hget] at harr
  obtain ⟨names, hnames⟩ : ∃ names, member keyIPSets v = .arr names := by
    cases hm : member keyIPSets v with
    | arr names => exact ⟨names, rfl⟩
    | _ =>
      rw [hm] at harr
      cases harr
  rw [validSets_nodeOf env v hnames] at hsets
  have hc : effective env v = some _ :=
    effective_eq_some.mpr ⟨confRule_eq_some.mpr ⟨names, hnames, rfl⟩, hsets⟩
  rw [h] at hc
  cases hc

/-- **The rules of the tree are those of the document.** -/
theorem wantedRules_nodesOf (env : SyncEnv) (i : Nat) (vs : List (Value Int)) :
    wantedRules env i (nodesOfElems vs) = documentTable env i vs := by
  induction vs generalizing i with
  | nil => rfl
  | cons v vs ih =>
    rw [nodesOfElems, wantedRules, documentTable, ih]
    cases h : effective env v with
    | none => rw [wanted_of_not_effective h, if_neg Bool.false_ne_true]
    | some c =>
      obtain ⟨hw, hrule⟩ := wanted_of_effective h i
      rw [if_pos hw, hrule]

/-! ## 3. What is installed -/

/-- There is room for the rules of a document and their sets, and a `null` stands only where no
rule in effect, or no known set of one, follows. -/
structure FitsTable (env : SyncEnv) (vs : List (Value Int)) : Prop where
  rules : (vs.filterMap (effective env)).length ≤ maxUrlRules
  sets : ∀ v ∈ vs, ∀ c ∈ effective env v, (c.sets env).length ≤ maxUsrSet
  nulls : ∀ before behind, vs = before ++ .null :: behind → behind.filterMap (effective env) = []
  names : ∀ v ∈ vs, ∀ c ∈ effective env v, ∀ before behind,
    member keyIPSets v = .arr (before ++ .null :: behind) →
    (behind.filterMap stringOf).filterMap env.ipSetGetByname = []

/-- What the loops do not look at: nothing, or a `null` and what is behind it. -/
theorem drop_items {json : NxJson} {vs : List (Value Int)} (h : json.child = nodesOfElems vs) :
    json.child.drop (items json).length = [] ∨ ∃ before behind, vs = before ++ .null :: behind ∧
      json.child.drop (items json).length = nodesOfElems (.null :: behind) := by
  rw [items, h]
  clear h
  induction vs with
  | nil => exact Or.inl rfl
  | cons v vs ih =>
    rw [nodesOfElems]
    by_cases hv : v = .null
    · subst hv
      right
      refine ⟨[], vs, rfl, ?_⟩
      rw [List.takeWhile_cons_of_neg (by simp [nodeOf, NxJson.type])]
      rfl
    · have htype : (nodeOf none v).type ≠ .null := fun h => hv (type_nodeOf_eq_null.mp h)
      rw [List.takeWhile_cons_of_pos (by simpa using htype), List.length_cons, List.drop_succ_cons]
      rcases ih with hnil | ⟨before, behind, hsplit, hdrop⟩
      · exact Or.inl hnil
      · exact Or.inr ⟨v :: before, behind, by rw [hsplit, List.cons_append], hdrop⟩

theorem FitsTable.nullsLast {env : SyncEnv} {vs : List (Value Int)} (h : FitsTable env vs) :
    NullsLast env (nodeOf none (.arr vs)) := by
  have hchild : (nodeOf none (.arr vs)).child = nodesOfElems vs := rfl
  constructor
  · intro node hnode
    rcases drop_items hchild with hnil | ⟨before, behind, hsplit, hdrop⟩
    · rw [hnil] at hnode
      exact absurd hnode List.not_mem_nil
    · rw [hdrop, nodesOfElems_eq_map] at hnode
      obtain ⟨v, hv, rfl⟩ := List.mem_map.mp hnode
      apply wanted_of_not_effective
      rcases List.mem_cons.mp hv with rfl | hv
      · rfl
      · exact List.filterMap_eq_nil_iff.mp (h.nulls before behind hsplit) v hv
  · intro node hnode hw sets str hstr
    have hmem : node ∈ nodesOfElems vs := (List.takeWhile_prefix _).subset hnode
    rw [nodesOfElems_eq_map] at hmem
    obtain ⟨v, hv, rfl⟩ := List.mem_map.mp hmem
    cases heff : effective env v with
    | none =>
      rw [wanted_of_not_effective heff] at hw
      cases hw
    | some c =>
      obtain ⟨names, hnames, -⟩ := confRule_eq_some.mp (effective_eq_some.mp heff).1
      obtain ⟨key, hget⟩ := nxJsonGet_nodeOf none v keyIPSets
      have hsets : sets.child = nodesOfElems names := by
        have heq : sets = nodeOf key (.arr names) := by rw [← hnames, ← hget]
        rw [heq]
        rfl
      rcases drop_items hsets with hnil | ⟨before, behind, hsplit, hdrop⟩
      · rw [hnil] at hstr
        exact absurd hstr List.not_mem_nil
      · rw [hdrop, nodesOfElems_eq_map] at hstr
        obtain ⟨name, hname, rfl⟩ := List.mem_map.mp hstr
        rw [resolve_nodeOf]
        rcases List.mem_cons.mp hname with rfl | hname
        · rfl
        · have hnone := h.names v hv c heff before behind (hsplit ▸ hnames)
          rw [List.filterMap_filterMap] at hnone
          exact List.filterMap_eq_nil_iff.mp hnone name hname

theorem length_documentTable (env : SyncEnv) (i : Nat) (vs : List (Value Int)) :
    (documentTable env i vs).length = (vs.filterMap (effective env)).length := by
  have h := congrArg List.length (map_portal_documentTable env i vs)
  simpa [portalRules] using h

/-- How a document is read. -/
theorem nxJsonParse_document {alloc : Nat → Bool} {v : Value Int} {text : Text}
    (h : Document v text) :
    nxJsonParse alloc text = .ok (some (nodeOf none v)) ↔
      Allocated alloc 0 (nodeOf none v).count := by
  obtain ⟨b, w, b', rfl, hb, hw, hb'⟩ := h
  have hend : ValueEnds b' := by
    rw [← List.append_nil b']
    exact ValueEnds.space hb' fun c hc => absurd hc (by simp)
  rw [nxJsonParse_iff]
  exact and_iff_right ⟨b, w, b', rfl, hb.valueFiller, hw.valueText hend⟩

/-- **The table of a document** is the one that it says. -/
theorem newRules_document {env : SyncEnv} {vs : List (Value Int)} {confStr : List Byte}
    (hdoc : Document (.arr vs) (cString confStr)) (hfits : FitsTable env vs)
    (hmem : Allocated env.kzalloc 0 (nodeOf none (.arr vs)).count) :
    nxJsonParseUtf8 env.kzalloc confStr = some (nodeOf none (.arr vs)) ∧
      newRules env confStr = documentTable env 0 vs := by
  have hjson : nxJsonParseUtf8 env.kzalloc confStr = some (nodeOf none (.arr vs)) := by
    rw [nxJsonParseUtf8, (nxJsonParse_document hdoc).mpr hmem]
  refine ⟨hjson, ?_⟩
  have hchild : (nodeOf none (.arr vs)).child = nodesOfElems vs := rfl
  have hrules : (nodeOf none (.arr vs)).child.countP (wanted env) ≤ maxUrlRules := by
    rw [← length_wantedRules env 0, hchild, wantedRules_nodesOf, length_documentTable]
    exact hfits.rules
  have hsets : ∀ node ∈ (nodeOf none (.arr vs)).child, wanted env node = true →
      (validSets env node).length ≤ maxUsrSet := by
    intro node hnode hw
    rw [hchild, nodesOfElems_eq_map] at hnode
    obtain ⟨v, hv, rfl⟩ := List.mem_map.mp hnode
    cases heff : effective env v with
    | none =>
      rw [wanted_of_not_effective heff] at hw
      cases hw
    | some c =>
      have hroom := hfits.sets v hv c heff
      obtain ⟨names, hnames, rfl⟩ := confRule_eq_some.mp (effective_eq_some.mp heff).1
      rw [validSets_nodeOf env v hnames]
      exact hroom
  rw [(newRules_eq_wantedRules_iff hjson rfl hrules hsets).mpr hfits.nullsLast, hchild,
    wantedRules_nodesOf]

/-- Without memory for all nodes nothing is read. -/
theorem nxJsonParseUtf8_document_none (env : SyncEnv) {v : Value Int} {confStr : List Byte}
    (hdoc : Document v (cString confStr))
    (hmem : ¬ Allocated env.kzalloc 0 (nodeOf none v).count) :
    nxJsonParseUtf8 env.kzalloc confStr = none := by
  rw [Option.eq_none_iff_forall_ne_some]
  intro js hjs
  have hparse : nxJsonParse env.kzalloc (cString confStr) = .ok (some js) := by
    unfold nxJsonParseUtf8 at hjs
    split at hjs
    · rename_i heq
      rw [heq, hjs]
    · cases hjs
  obtain ⟨htext, hcount⟩ := nxJsonParse_iff.mp hparse
  -- a text has one value, and memory for all of it is missing
  have hplenty : Allocated (fun _ => true) 0 js.count := fun _ _ _ => rfl
  have hall : nxJsonParse (fun _ => true) (cString confStr) = .ok (some (nodeOf none v)) :=
    (nxJsonParse_document hdoc).mpr fun _ _ _ => rfl
  have hsame := (nxJsonParse_iff.mpr ⟨htext, hplenty⟩).symm.trans hall
  obtain rfl := Option.some.inj (Except.ok.inj hsame)
  exact hmem hcount

/-! ## 4. The way into the kernel -/

/-- A document that `ntrackd` sends: its rules and its text, what `xmit` and `nl_recv` run in, and
the buffer in which a datagram arrives, if one was sent. -/
structure Deployment (bo : ByteOrder) where
  rules : List (Value Int)
  data : CStr
  printed : Document (.arr rules) data.bytes
  fits : data.strlen ≤ 4096
  env : XmitEnv
  skb : SkBuff
  carries : ∀ sent ∈ (xmit bo env (some data)).sent, Carries skb sent
  recv : NlRecvEnv
  sync : SyncEnv

namespace Deployment

variable {bo : ByteOrder}

/-- The block that `nl_recv` passes on. -/
def block (d : Deployment bo) : Option (List Byte) :=
  (xmit bo d.env (some d.data)).sent.bind fun _ => (nlRecv bo d.recv d.skb).passed

/-- It is sent, and the kernel has a block for it. -/
def arrives (d : Deployment bo) : Bool :=
  !(d.env.nlSock < 0) && d.env.sendto && d.recv.kzalloc.ok (d.data.strlen + 1)

/-- The kernel has memory for its tree. -/
def readable (d : Deployment bo) : Bool :=
  decide (∀ i < (nodeOf none (.arr d.rules)).count, d.sync.kzalloc i = true)

/-- **What arrives is the text**, if anything does. -/
theorem block_eq (d : Deployment bo) :
    d.block = if d.arrives then some (d.data.bytes ++ [0]) else none := by
  have hcarries := d.carries
  unfold block arrives
  by_cases hsock : d.env.nlSock < 0
  · rw [xmit, if_pos hsock, decide_eq_true hsock]
    rfl
  · obtain ⟨-, hsent⟩ := xmit_of_le bo d.env d.data hsock d.fits
    rw [hsent] at hcarries ⊢
    rw [decide_eq_false hsock]
    cases hsendto : d.env.sendto with
    | false => rfl
    | true =>
      rw [hsendto, if_pos rfl] at hcarries
      have hlen := d.fits
      rw [if_pos rfl, Option.bind_some, nlRecv_passed d.recv (hcarries _ rfl)
        (toNat_xmitHdr d.env d.fits) (by rw [CStr.strlen] at hlen; omega)]
      rfl

end Deployment

/-! ## 5. Runs -/

section Site

variable {bo : ByteOrder}

/-- What happens to the module: a document is sent to it, or something else. -/
inductive SiteEvent (bo : ByteOrder)
  | deploy (d : Deployment bo)
  | other (e : NtEvent)

/-- The call of the module that comes of it, if any. -/
def SiteEvent.call : SiteEvent bo → Option NtEvent
  | .deploy d => d.block.map (NtEvent.sync d.sync)
  | .other e => some e

/-- One event with its answer. -/
def siteAnswer (hz : BitVec 32) (s : NtState) (e : SiteEvent bo) : Option (NtState × Bool) :=
  match e.call with
  | some call => ntAnswer hz s call
  | none => some (s, false)

/-- One event. -/
def siteStep (hz : BitVec 32) (s : NtState) (e : SiteEvent bo) : Option NtState :=
  (siteAnswer hz s e).map Prod.fst

/-- What it is to the portal: the rules that a document says, in the place of the old ones. -/
def SiteEvent.portal : SiteEvent bo → Event Nat PortalRule Packet
  | .deploy d =>
    if d.arrives && d.readable then .replace (portalRules d.sync d.rules) else .idle
  | .other e => e.portal

/-- The conditions on a document, in a state of the module: it has room in a table, it has no rules
or they cover the cached indices, and none of them has the magic that is cached with its index, or
the magic 0. -/
structure DeployOrderly (s : NtState) (d : Deployment bo) : Prop where
  fits : FitsTable d.sync d.rules
  covers : portalRules d.sync d.rules = [] ∨ ∀ u, (s.user u).ruleMagic ≠ 0 →
    (s.user u).ruleIdx < (portalRules d.sync d.rules).length
  fresh : ∀ u, (s.user u).ruleMagic ≠ 0 →
    ∀ rule, (documentTable d.sync 0 d.rules)[(s.user u).ruleIdx.toNat]? = some rule →
      rule.magic ≠ (s.user u).ruleMagic
  magics : ∀ rule ∈ documentTable d.sync 0 d.rules, rule.magic ≠ 0

/-- The conditions on an event. -/
def SiteOrderly (s : NtState) : SiteEvent bo → Prop
  | .deploy d => DeployOrderly s d
  | .other e => Orderly s e

/-- There is memory for the table, if the event is a configuration. -/
def SiteEvent.TableFits : SiteEvent bo → Prop
  | .deploy d => d.sync.vmalloc = true
  | .other e => ∀ env confStr, e = .sync env confStr → env.vmalloc = true

theorem readable_iff {d : Deployment bo} : d.readable = true ↔
    Allocated d.sync.kzalloc 0 (nodeOf none (.arr d.rules)).count := by
  rw [Deployment.readable, decide_eq_true_eq]
  exact ⟨fun h i _ hi => h i hi, fun h i hi => h i (Nat.zero_le _) hi⟩

/-- The text in the block. -/
theorem document_block (d : Deployment bo) :
    Document (.arr d.rules) (cString (d.data.bytes ++ [0])) := by
  rw [(holdsString_append d.data).2]
  exact d.printed

/-- **A document that arrives** is orderly, and is the rules that it says. -/
theorem deploy_portal {s : NtState} {d : Deployment bo} (h : DeployOrderly s d) :
    Orderly s (.sync d.sync (d.data.bytes ++ [0])) ∧
      (NtEvent.sync d.sync (d.data.bytes ++ [0])).portal =
        if d.readable then .replace (portalRules d.sync d.rules) else .idle := by
  cases hread : d.readable with
  | true =>
    obtain ⟨hjson, hrules⟩ := newRules_document (document_block d) h.fits (readable_iff.mp hread)
    have hlen : (newRules d.sync (d.data.bytes ++ [0])).length =
        (portalRules d.sync d.rules).length := by
      rw [hrules, ← map_portal_documentTable d.sync 0, List.length_map]
    have hconf : isConf d.sync (d.data.bytes ++ [0]) = true := by
      rw [isConf, hjson]
      rfl
    refine ⟨⟨?_, ?_, ?_⟩, ?_⟩
    · rw [CoversCached, hlen, List.length_eq_zero_iff]
      exact h.covers
    · intro u hu rule hrule
      rw [hrules] at hrule
      exact h.fresh u hu rule hrule
    · intro env confStr heq rule hrule
      obtain ⟨rfl, rfl⟩ := NtEvent.sync.inj heq
      rw [hrules] at hrule
      exact h.magics rule hrule
    · rw [NtEvent.portal, hconf, hrules, map_portal_documentTable]
  | false =>
    have hjson := nxJsonParseUtf8_document_none d.sync (document_block d)
      fun hall => absurd (readable_iff.mpr hall) (by rw [hread]; exact Bool.false_ne_true)
    have hnil : newRules d.sync (d.data.bytes ++ [0]) = [] := by
      simp only [newRules, elements, hjson, List.take_nil, ruleList]
    have hconf : isConf d.sync (d.data.bytes ++ [0]) = false := by
      rw [isConf, hjson]
      rfl
    refine ⟨⟨Or.inl (by rw [hnil]; rfl), ?_, ?_⟩, ?_⟩
    · intro u _ rule hrule
      rw [hnil] at hrule
      cases hrule
    · intro env confStr heq rule hrule
      obtain ⟨rfl, rfl⟩ := NtEvent.sync.inj heq
      rw [hnil] at hrule
      exact absurd hrule List.not_mem_nil
    · rw [NtEvent.portal, hconf]
      rfl

/-- **One event**, as the module and as the portal sees it. -/
theorem siteAnswer_portal {hz : BitVec 32} {s t : NtState} {e : SiteEvent bo} {w : Bool}
    (hs : PortalInv s) (ho : SiteOrderly s e) (h : siteAnswer hz s e = some (t, w)) :
    PortalInv t ∧ portalPolicy.step s.portal e.portal = (t.portal, w) := by
  have hcall : ∀ {call : NtEvent}, Orderly s call → ntAnswer hz s call = some (t, w) →
      PortalInv t ∧ portalPolicy.step s.portal call.portal = (t.portal, w) := by
    intro call hcall hstep
    rw [ntAnswer, Option.map_eq_some_iff] at hstep
    obtain ⟨t', ht, heq⟩ := hstep
    obtain ⟨rfl, rfl⟩ := Prod.mk.inj heq
    exact ntStep_portal hs hcall ht
  cases e with
  | other e => exact hcall ho h
  | deploy d =>
    simp only [siteAnswer, SiteEvent.call, d.block_eq, SiteEvent.portal] at h ⊢
    cases harr : d.arrives with
    | false =>
      rw [harr] at h
      simp only [Bool.false_eq_true, if_false, Option.map_none, Option.some.injEq,
        Prod.mk.injEq] at h
      obtain ⟨rfl, rfl⟩ := h
      exact ⟨hs, rfl⟩
    | true =>
      rw [harr] at h
      simp only [if_true, Option.map_some] at h
      obtain ⟨horderly, hportal⟩ := deploy_portal ho
      have hstep := hcall horderly h
      rw [hportal] at hstep
      rw [Bool.true_and]
      exact hstep

/-- An event that finds memory for its table is answered. -/
theorem exists_siteAnswer {hz : BitVec 32} {s : NtState} {e : SiteEvent bo} (hs : PortalInv s)
    (hmem : e.TableFits) : ∃ r, siteAnswer hz s e = some r := by
  unfold siteAnswer
  split
  · rename_i call hcall
    apply exists_ntAnswer hs
    rintro env confStr rfl
    cases e with
    | other e =>
      obtain rfl := Option.some.inj hcall
      exact hmem env confStr rfl
    | deploy d =>
      obtain ⟨block, -, heq⟩ := Option.map_eq_some_iff.mp hcall
      obtain ⟨rfl, -⟩ := NtEvent.sync.inj heq
      exact hmem
  · exact ⟨_, rfl⟩

/-- **From the document to the users.**  In every run of documents that are sent to the module, of
other configurations and of packets of any users, in which each document has room in a table, each
of both kinds is orderly (it has no rules, or its rules cover the cached indices; none of them has
the magic that is cached with its index, or the magic 0), and there is memory for its table: no call
faults, and the same packets are redirected and the same rules are in use and given to each user as
if the portal itself were told what the documents say, of those that arrive and can be read. -/
theorem site_portal (hz : BitVec 32) (user : Nat → UserInfo) (es : List (SiteEvent bo))
    (hmem : ∀ e ∈ es, e.TableFits) (h : AllSteps (siteStep hz) SiteOrderly (ntInit user) es) :
    ∃ t ws, answers (siteAnswer hz) (ntInit user) es = some (t, ws) ∧
      answers (fun o e => some (portalPolicy.step o e)) (portalInit user)
        (es.map SiteEvent.portal) = some (t.portal, ws) := by
  obtain ⟨t, ws, hrun, -, hportal⟩ := answers_sim (siteAnswer hz) (C := SiteOrderly)
    (fun _ _ hs hA => exists_siteAnswer hs hA) (fun _ _ _ _ hs ho h => siteAnswer_portal hs ho h)
    (ntInit_portalInv user) hmem h
  exact ⟨t, ws, hrun, hportal⟩

end Site

/-! ## 6. The configuration of `ntrackd` -/

/-- Without any `null`, and with few rules and sets, a document fits whatever sets are known. -/
theorem fitsTable_of_few (env : SyncEnv) {vs : List (Value Int)} (hlen : vs.length ≤ maxUrlRules)
    (hnull : .null ∉ vs) (hnames : ∀ v ∈ vs, ∀ names, member keyIPSets v = .arr names →
      names.length ≤ maxUsrSet ∧ .null ∉ names) : FitsTable env vs where
  rules := (List.length_filterMap_le _ _).trans hlen
  sets := by
    intro v hv c hc
    obtain ⟨names, hmember, rfl⟩ := confRule_eq_some.mp (effective_eq_some.mp hc).1
    exact (List.length_filterMap_le _ _).trans
      ((List.length_filterMap_le _ _).trans (hnames v hv names hmember).1)
  nulls := by
    rintro before behind rfl
    exact absurd (List.mem_append_right before List.mem_cons_self) hnull
  names := by
    intro v hv c _ before behind hmember
    exact absurd (List.mem_append_right before List.mem_cons_self) (hnames v hv _ hmember).2

/-- `conf_str` -/
def confStr : Text :=
  CText.lit " \t[\x7b\t\t\"Name\": \"Web\", \t\t\"IPSets\": [\"WebAuth\", \"Default\"], " ++
  CText.lit "\t\t\"Flags\": 1 \t\x7d, \t\x7b \t\t\"Name\": \"Auto\", " ++
  CText.lit "\t\t\"IPSets\": [\"AutoAuth\"], \t\t\"Flags\": 0 \t\x7d]"

/-- The rules in it. -/
def confStrRules : List (Value Int) :=
  [.obj [(keyName, .str (CText.lit "Web")),
      (keyIPSets, .arr [.str (CText.lit "WebAuth"), .str (CText.lit "Default")]),
      (keyFlags, .num 1)],
    .obj [(keyName, .str (CText.lit "Auto")),
      (keyIPSets, .arr [.str (CText.lit "AutoAuth")]),
      (keyFlags, .num 0)]]

/-- A string without anything to escape. -/
theorem jsonString_plain {w : Text}
    (h : ∀ c ∈ w, 0x20 ≤ c ∧ c ≠ 0x22 ∧ c ≠ 0x5c) : JsonString w w := by
  induction w with
  | nil => exact .nil
  | cons c w ih =>
    obtain ⟨hcontrol, hquote, hslash⟩ := h c List.mem_cons_self
    exact .plain hcontrol hquote hslash (ih fun d hd => h d (List.mem_cons_of_mem _ hd))

instance (b : Text) : Decidable (Space b) :=
  inferInstanceAs (Decidable (∀ c ∈ b, c = 0x20 ∨ c = 0x09 ∨ c = 0x0a ∨ c = 0x0d))

theorem document_confStr : Document (.arr confStrRules) confStr := by
  have none : Space [] := by decide
  have blank : Space [0x20] := by decide
  have tabs : Space [0x09, 0x09] := by decide
  have line : Space [0x20, 0x09, 0x09] := by decide
  have close : Space [0x20, 0x09] := by decide
  have hname : JsonString keyName keyName := jsonString_plain (by decide)
  have hsets : JsonString keyIPSets keyIPSets := jsonString_plain (by decide)
  have hflags : JsonString keyFlags keyFlags := jsonString_plain (by decide)
  have hweb : JsonString (CText.lit "Web") (CText.lit "Web") := jsonString_plain (by decide)
  have hauto : JsonString (CText.lit "Auto") (CText.lit "Auto") := jsonString_plain (by decide)
  have hwebAuth : JsonString (CText.lit "WebAuth") (CText.lit "WebAuth") :=
    jsonString_plain (by decide)
  have hdefault : JsonString (CText.lit "Default") (CText.lit "Default") :=
    jsonString_plain (by decide)
  have hautoAuth : JsonString (CText.lit "AutoAuth") (CText.lit "AutoAuth") :=
    jsonString_plain (by decide)
  have hone : JsonInteger [0x31] (1 : Nat) :=
    .positive (.digits (w := []) (by decide) fun d hd => ⟨1, by
      rw [List.mem_singleton.mp hd]
      decide, by decide⟩)
  have hweb' := PrintedMembers.cons tabs hname none blank (.str hweb) none
    (.cons line hsets none blank
      (.arr (.cons none (.str hwebAuth) none (.one blank (.str hdefault) none))) none
      (.one line hflags none blank (.num hone) close))
  have hauto' := PrintedMembers.cons line hname none blank (.str hauto) none
    (.cons line hsets none blank (.arr (.one none (.str hautoAuth) none)) none
      (.one line hflags none blank (.num (.positive .zero)) close))
  exact ⟨_, _, _, by decide +kernel, close,
    .arr (.cons none (.obj hweb') none (.one close (.obj hauto') none)), none⟩

theorem nulFree_confStr : (0 : Byte) ∉ confStr := by decide +kernel

/-- A buffer in which a datagram arrived. -/
def skbOf (sent : List Byte) : SkBuff :=
  ⟨write (fun _ => 0) 0 sent, BitVec.ofNat 32 sent.length, fun _ => 0⟩

theorem carries_skbOf {sent : List Byte} (h : sent.length < 2 ^ 32) : Carries (skbOf sent) sent :=
  ⟨by rw [skbOf, BitVec.toNat_ofNat, Nat.mod_eq_of_lt h], read_write_self _ 0 sent⟩

/-- A socket, and a `sendto` that sends. -/
def openXmit : XmitEnv := ⟨3, 1, fun _ => 0, true⟩

/-- Blocks for all texts that fit into a message. -/
def plentyKzalloc : Kzalloc :=
  ⟨fun size => size ≤ 4097, fun _ h => Nat.lt_of_le_of_lt (of_decide_eq_true h) (by decide)⟩

theorem carries_openXmit (bo : ByteOrder) {data : CStr} (fits : data.strlen ≤ 4096) :
    ∀ sent ∈ (xmit bo openXmit (some data)).sent,
      Carries (skbOf ((xmitHdr openXmit data).bytes bo ++ data.bytes)) sent := by
  intro sent hsent
  rw [(xmit_of_le bo openXmit data (by decide) fits).2] at hsent
  obtain rfl := Option.some.inj hsent
  apply carries_skbOf
  rw [List.length_append, Nlmsghdr.length_bytes, nlmsgHdrlen]
  rw [CStr.strlen] at fits
  omega

/-- A document is sent with success, arrives, and is read. -/
def Deployment.direct (bo : ByteOrder) {vs : List (Value Int)} (data : CStr)
    (printed : Document (.arr vs) data.bytes) (fits : data.strlen ≤ 4096) (sync : SyncEnv) :
    Deployment bo where
  rules := vs
  data := data
  printed := printed
  fits := fits
  env := openXmit
  skb := skbOf ((xmitHdr openXmit data).bytes bo ++ data.bytes)
  carries := carries_openXmit bo fits
  recv := ⟨.lp64, plentyKzalloc⟩
  sync := sync

/-- The first thing that `ntrackd` does. -/
def ntrackdStart : Deployment .little :=
  .direct .little ⟨confStr, nulFree_confStr⟩ document_confStr (by decide +kernel) (plentyEnv 1)

/-- A web request of a user in the set whose name starts with the character. -/
def getIn (c : BitVec 16) : Packet :=
  { getOfB with ipSetTest := fun idx => if idx = c then 1 else 0 }

/-- It fits, whatever sets are known. -/
theorem fitsTable_confStr (env : SyncEnv) : FitsTable env confStrRules := by
  refine fitsTable_of_few env (by decide) (by simp [confStrRules]) ?_
  intro v hv names hnames
  simp only [confStrRules, List.mem_cons, List.not_mem_nil, or_false] at hv
  rcases hv with rfl | rfl
  · obtain rfl : [.str (CText.lit "WebAuth"), .str (CText.lit "Default")] = names :=
      Value.arr.inj hnames
    exact ⟨by decide, by simp⟩
  · obtain rfl : [.str (CText.lit "AutoAuth")] = names := Value.arr.inj hnames
    exact ⟨by decide, by simp⟩

theorem orderly_ntrackdStart (user : Nat → UserInfo) :
    SiteOrderly (ntInit user) (.deploy ntrackdStart) := by
  have hmagics : (documentTable (plentyEnv 1) 0 confStrRules).all
      (fun rule => rule.magic != 0) := by
    decide +kernel
  refine ⟨fitsTable_confStr _, Or.inr fun u hu => absurd rfl hu, fun u hu => absurd rfl hu, ?_⟩
  intro rule hrule
  exact bne_iff_ne.mp (List.all_eq_true.mp hmagics rule hrule)

/-- `ntrackd` starts; a user in `WebAuth` and one in `AutoAuth` ask for a page. -/
theorem site_portal_ntrackd :
    let es : List (SiteEvent .little) := [.deploy ntrackdStart,
      .other (.packet .tracked (some 0) 0 (getIn 0x57)),
      .other (.packet .tracked (some 1) 0 (getIn 0x41))]
    ∃ t, answers (siteAnswer 100) (ntInit fun _ => someUser) es = some (t, [false, true, false]) ∧
      answers (fun o e => some (portalPolicy.step o e)) (portalInit fun _ => someUser)
        (es.map SiteEvent.portal) = some (t.portal, [false, true, false]) := by
  intro es
  have hws : (answers (fun o e => some (portalPolicy.step o e)) (portalInit fun _ => someUser)
      (es.map SiteEvent.portal)).map Prod.snd = some [false, true, false] := by decide +kernel
  have hmem : ∀ e ∈ es, e.TableFits := by
    intro e he
    simp only [es, List.mem_cons, List.not_mem_nil, or_false] at he
    rcases he with rfl | rfl | rfl
    · rfl
    · rintro env confStr ⟨⟩
    · rintro env confStr ⟨⟩
  have hpacket : ∀ s u pkt, SiteOrderly s
      (.other (.packet .tracked (some u) 0 pkt) : SiteEvent .little) := fun _ _ _ =>
    ⟨trivial, trivial, fun _ _ heq => absurd heq (by simp)⟩
  obtain ⟨t, ws, hrun, hportal⟩ := site_portal 100 (fun _ => someUser) es hmem
    fun _ _ => ⟨orderly_ntrackdStart _,
      fun _ _ => ⟨hpacket _ _ _, fun _ _ => ⟨hpacket _ _ _, trivial⟩⟩⟩
  rw [hportal, Option.map_some, Option.some.injEq] at hws
  obtain rfl : ws = [false, true, false] := hws
  exact ⟨t, hrun, hportal⟩

end Puppies
