/-
# From the rules to the kernel module (`apps/tbqd/…/settc.lua`, `convert`)

`convert` reads what `save_file` has written and makes the table for the kernel module of it: a
rule for all traffic first, and then one for each rule that is enabled.  It asks whether `Enabled`
is true in the sense of Lua, where a text is true, also the text `false`; so that all depends on
`save_file` to turn these texts into booleans.

That it does.  But the substitution before, of `{}`, is made in the texts of the rules too, and an
address range with `{}` in it becomes another one (`enforced_iff`).  A rate with `{}` in it is none,
before and after.
-/
import Mathlib.Data.List.Forall2
import Puppies.Tbq.Iface
import Puppies.Tbq.SaveFile

namespace Puppies

open ByteMem JsonText Gsub

variable {ν : Type}

/-! ## 1. The table of the kernel module -/

/-- `{Shared = …, PerIp = …}` -/
structure TbqLimit where
  shared : Str
  perIp : Str
  deriving DecidableEq

/-- A rule of the table. -/
structure TbqRule (ν : Type) where
  name : Str
  ipIncluded : List (Value ν)
  ipExcluded : List (Value ν)
  appIncluded : List (Value ν)
  appExcluded : List (Value ν)
  uploadLimit : TbqLimit
  downloadLimit : TbqLimit

/-- The table. -/
structure TbqCfg (ν : Type) where
  maxBacklogPackets : ν
  rules : List (TbqRule ν)
  lan : Str
  wan : Str

def TbqLimit.table (limit : TbqLimit) : Value ν :=
  .obj [(ascii "Shared", .str limit.shared), (ascii "PerIp", .str limit.perIp)]

def TbqRule.table (rule : TbqRule ν) : Value ν :=
  .obj
    [(nameKey, .str rule.name), (ascii "IpIncluded", .arr rule.ipIncluded),
      (ascii "IpExcluded", .arr rule.ipExcluded), (ascii "AppIncluded", .arr rule.appIncluded),
      (ascii "AppExcluded", .arr rule.appExcluded),
      (ascii "UploadLimit", rule.uploadLimit.table),
      (ascii "DownloadLimit", rule.downloadLimit.table)]

def TbqCfg.table (cfg : TbqCfg ν) : Value ν :=
  .obj
    [(ascii "MaxBacklogPackets", .num cfg.maxBacklogPackets),
      (rulesKey, .arr (cfg.rules.map TbqRule.table)),
      (ascii "LAN", .str cfg.lan), (ascii "WAN", .str cfg.wan)]

/-! ## 2. The conversion -/

def ipKey : Str := ascii "Ip"
def sharedUploadKey : Str := ascii "SharedUpload"
def sharedDownloadKey : Str := ascii "SharedDownload"
def perIpUploadKey : Str := ascii "PerIpUpload"
def perIpDownloadKey : Str := ascii "PerIpDownload"
def globalSharedUploadKey : Str := ascii "GlobalSharedUpload"
def globalSharedDownloadKey : Str := ascii "GlobalSharedDownload"

/-- What is not given by the program: the number 9999, the text of a number, the order in which
`pairs` goes through a set, and what `ip ro` prints. -/
structure ConvertEnv (ν : Type) where
  backlog : ν
  tostring : ν → Str
  pairs : List Str → List Str
  ipRo : Str

/-- `new_rule` -/
def newRule : TbqRule ν where
  name := ascii "UI-GLOBAL"
  ipIncluded := []
  ipExcluded := []
  appIncluded := []
  appExcluded := []
  uploadLimit := ⟨[], []⟩
  downloadLimit := ⟨[], []⟩

/-- `rate:match`, which is an error unless `rate` is a string. -/
def rateArg : Option (Value ν) → Option Str
  | some (.str rate) => some rate
  | _ => none

/-- `setTCRate` -/
def setTCRate (rule : TbqRule ν)
    (sharedUpload sharedDownload perIpUpload perIpDownload : Option (Value ν)) :
    Option (TbqRule ν) := do
  let sharedUpload ← rateArg sharedUpload
  let perIpUpload ← rateArg perIpUpload
  let sharedDownload ← rateArg sharedDownload
  let perIpDownload ← rateArg perIpDownload
  return { rule with
    uploadLimit := ⟨tbqRateFromTCRate sharedUpload, tbqRateFromTCRate perIpUpload⟩
    downloadLimit := ⟨tbqRateFromTCRate sharedDownload, tbqRateFromTCRate perIpDownload⟩ }

/-- `%s` of `string.format`: a short text ends at its first `NUL`. -/
def formatStr (s : Str) : Str := if 100 ≤ s.length then s else s.takeWhile fun c => c ≠ 0

/-- `string.format("UI-<%s>", name)` -/
def uiName (tostring : ν → Str) : Option (Value ν) → Option Str
  | some (.str s) => some (ascii "UI-<" ++ formatStr s ++ ascii ">")
  | some (.num x) => some (ascii "UI-<" ++ formatStr (tostring x) ++ ascii ">")
  | _ => none

/-- Whether a condition holds: `nil` and `false` are false. -/
def luaTrue : Option (Value ν) → Bool
  | none => false
  | some (.bool b) => b
  | some _ => true

/-- The body of the loop over the rules, for one that is enabled. -/
def tbqRule (tostring : ν → Str) (rule : Value ν) : Option (TbqRule ν) := do
  let name ← uiName tostring (← luaIndex nameKey rule)
  let ip ← luaIndex ipKey rule
  setTCRate { newRule with name := name, ipIncluded := ip.toList }
    (← luaIndex sharedUploadKey rule) (← luaIndex sharedDownloadKey rule)
    (← luaIndex perIpUploadKey rule) (← luaIndex perIpDownloadKey rule)

/-- The loop: the rules that are added. -/
def convertRules (tostring : ν → Str) : List (Value ν) → Option (List (TbqRule ν))
  | [] => some []
  | rule :: rules => do
    if luaTrue (← luaIndex enabledKey rule) then
      let tbqrule ← tbqRule tostring rule
      let tbqrules ← convertRules tostring rules
      return tbqrule :: tbqrules
    else convertRules tostring rules

/-- `table.concat(toarr(map), "\\t") .. "\\t"` -/
def ifaceText (env : ConvertEnv ν) (map : List Str) : Str :=
  List.intercalate (ascii "\t") (env.pairs map) ++ ascii "\t"

/-- The table `tbqcfg` of `convert`. -/
def tbqcfg (env : ConvertEnv ν) (cj : Codec ν) (s : Str) : Option (TbqCfg ν) := do
  let (lan, wan) := getIface env.ipRo
  let tc ← cj.decode s
  let upload ← luaIndex globalSharedUploadKey tc
  let download ← luaIndex globalSharedDownloadKey tc
  let global ← setTCRate newRule upload download upload download
  let rules ← luaIndex rulesKey tc
  let rules ← rules
  let tbqrules ← convertRules env.tostring (← ipairs rules)
  return { maxBacklogPackets := env.backlog
           rules := global :: tbqrules
           lan := ifaceText env lan
           wan := ifaceText env wan }

/-- `convert` -/
def convert (env : ConvertEnv ν) (cj : Codec ν) (s : Str) : Option Str :=
  (tbqcfg env cj s).map fun cfg => gsub emptyObj emptyArr (cj.encode cfg.table)

/-! ## 3. What the web pages store -/

/-- The field `Enabled` of a rule. -/
inductive EnabledField
  | absent
  | text (b : Bool)
  | bool (b : Bool)
  deriving DecidableEq

def EnabledField.value : EnabledField → Option (Value ν)
  | .absent => none
  | .text b => some (.str (boolWord b))
  | .bool b => some (.bool b)

def EnabledField.enabled : EnabledField → Bool
  | .absent => false
  | .text b => b
  | .bool b => b

/-- A rule as the web pages know it. -/
structure WebRule where
  enabled : EnabledField
  name : Str
  ip : Str
  sharedUpload : Str
  sharedDownload : Str
  perIpUpload : Str
  perIpDownload : Str
  deriving DecidableEq

/-- The texts that `convert` reads of a rule. -/
structure HasTexts (r : WebRule) (ms : List (Str × Value ν)) : Prop where
  name : lookup nameKey ms = some (.str r.name)
  ip : lookup ipKey ms = some (.str r.ip)
  sharedUpload : lookup sharedUploadKey ms = some (.str r.sharedUpload)
  sharedDownload : lookup sharedDownloadKey ms = some (.str r.sharedDownload)
  perIpUpload : lookup perIpUploadKey ms = some (.str r.perIpUpload)
  perIpDownload : lookup perIpDownloadKey ms = some (.str r.perIpDownload)

/-- A table has the fields of the rule, and perhaps others.  Of a rule that is not enabled nothing
else is read, and it may be without its texts. -/
structure IsRule (r : WebRule) (ms : List (Str × Value ν)) : Prop where
  enabled : lookup enabledKey ms = r.enabled.value
  texts : r.enabled.enabled = true → HasTexts r ms

/-- A configuration: the limits for all traffic, and the rules. -/
structure WebConf where
  globalSharedUpload : Str
  globalSharedDownload : Str
  rules : List WebRule
  deriving DecidableEq

/-- A table has the fields of the configuration, and perhaps others.  No rules are a list without
entries or a table without entries. -/
structure IsConf (c : WebConf) (ms : List (Str × Value ν)) : Prop where
  globalSharedUpload : lookup globalSharedUploadKey ms = some (.str c.globalSharedUpload)
  globalSharedDownload : lookup globalSharedDownloadKey ms = some (.str c.globalSharedDownload)
  rules : ∃ mss, lookup rulesKey ms = some (.arr (mss.map Value.obj)) ∧
      List.Forall₂ IsRule c.rules mss ∨
    lookup rulesKey ms = some (.obj []) ∧ c.rules = []

/-- The rule of the table enforces the rule. -/
structure Enforces (r : WebRule) (t : TbqRule ν) : Prop where
  ipIncluded : t.ipIncluded = [.str r.ip]
  noOthers : t.ipExcluded = [] ∧ t.appIncluded = [] ∧ t.appExcluded = []
  sharedUpload : t.uploadLimit.shared = tbqRateFromTCRate r.sharedUpload
  perIpUpload : t.uploadLimit.perIp = tbqRateFromTCRate r.perIpUpload
  sharedDownload : t.downloadLimit.shared = tbqRateFromTCRate r.sharedDownload
  perIpDownload : t.downloadLimit.perIp = tbqRateFromTCRate r.perIpDownload

/-- The rule for all traffic. -/
structure EnforcesGlobal (c : WebConf) (t : TbqRule ν) : Prop where
  noOthers : t.ipIncluded = [] ∧ t.ipExcluded = [] ∧ t.appIncluded = [] ∧ t.appExcluded = []
  upload : t.uploadLimit =
    ⟨tbqRateFromTCRate c.globalSharedUpload, tbqRateFromTCRate c.globalSharedUpload⟩
  download : t.downloadLimit =
    ⟨tbqRateFromTCRate c.globalSharedDownload, tbqRateFromTCRate c.globalSharedDownload⟩

/-- **Exactly the enabled rules are enforced**, in order, behind the rule for all traffic. -/
def EnabledEnforced (c : WebConf) (cfg : Option (TbqCfg ν)) : Prop :=
  ∃ table global rules, cfg = some table ∧ table.rules = global :: rules ∧
    EnforcesGlobal c global ∧
    List.Forall₂ Enforces (c.rules.filter fun r => r.enabled.enabled) rules

/-! ## 4. What is read back -/

/-- `save_file` makes this table of that one, as far as it can be told from the places with plain
names. -/
def SavedAs (m v : Value ν) : Prop := ∀ p, p ≠ [] → (∀ k, Key.field k ∈ p → PlainName k) →
  v.tree p = (m.tree p).map (savedNode p)

theorem SavedAs.lookup {ms ns : List (Str × Value ν)} (h : SavedAs (.obj ms) (.obj ns)) {k : Str}
    (hk : PlainName k) :
    (lookup k ns).map Value.node = (lookup k ms).map fun x => savedNode [.field k] x.node := by
  have hat := h [.field k] (by simp) (by simp [hk])
  simp only [Value.tree_obj_field, Value.tree_nil] at hat
  have hbind : ∀ x : Option (Value ν), (x.bind fun v => some v.node) = x.map Value.node := by
    rintro (_ | x)
    · rfl
    · rfl
  rw [hbind, hbind, Option.map_map] at hat
  exact hat

theorem SavedAs.field {ms ns : List (Str × Value ν)} (h : SavedAs (.obj ms) (.obj ns)) {k : Str}
    (hk : PlainName k) {x y : Value ν} (hx : JsonText.lookup k ms = some x)
    (hy : JsonText.lookup k ns = some y) : SavedAs x y := by
  intro p hp hplain
  have hat := h (.field k :: p) (List.cons_ne_nil _ _) ?_
  · rw [Value.tree_obj_field, Value.tree_obj_field, hx, hy] at hat
    simp only [Option.bind_some] at hat
    rw [hat]
    cases x.tree p with
    | none => rfl
    | some n => cases n <;> simp [savedNode, lastField_field hp]
  · intro k' hk'
    rcases List.mem_cons.mp hk' with heq | hmem
    · obtain rfl := Key.field.inj heq
      exact hk
    · exact hplain k' hmem

theorem SavedAs.index {xs ys : List (Value ν)} (h : SavedAs (.arr xs) (.arr ys)) (i : Nat)
    {p : List Key} (hplain : ∀ k, Key.field k ∈ p → PlainName k) :
    (ys[i]?.bind fun y => y.tree p) = xs[i]?.bind fun x => (x.tree p).map (savedNode p) := by
  have hat := h (.index i :: p) (List.cons_ne_nil _ _) (by simpa using hplain)
  rw [Value.tree_arr_index, Value.tree_arr_index] at hat
  rw [hat, Option.map_bind]
  congr 1
  funext x
  cases hx : x.tree p with
  | none => simp [hx]
  | some n => cases n <;> simp [hx, savedNode]

/-- A value with something under a name is a table. -/
theorem obj_of_tree_field {v : Value ν} {k : Str} {p : List Key} {n : Node ν}
    (h : v.tree (.field k :: p) = some n) : ∃ ns, v = .obj ns := by
  cases v with
  | obj ns => exact ⟨ns, rfl⟩
  | arr vs => simp at h
  | _ => simp [Value.tree] at h

theorem eq_of_node {v : Value ν} :
    (∀ s, v.node = .str s → v = .str s) ∧ ∀ b, v.node = .bool b → v = .bool b := by
  cases v <;> simp [Value.node]

/-- A text that is read back. -/
theorem SavedAs.str {ms ns : List (Str × Value ν)} (h : SavedAs (.obj ms) (.obj ns)) {k s : Str}
    (hk : PlainName k) (hlooks : ¬ LooksEnabled k)
    (hs : JsonText.lookup k ms = some (.str s)) :
    JsonText.lookup k ns = some (.str (gsubBraces s)) := by
  have hat := h.lookup hk
  rw [hs, Option.map_some, Option.map_eq_some_iff] at hat
  obtain ⟨y, hy, hnode⟩ := hat
  have hstr : y.node = .str (gsubBraces s) := by
    rw [hnode]
    simp [Value.node, savedNode, lastField, hlooks]
  rw [hy, eq_of_node.1 _ hstr]

/-- The field `Enabled` that is read back, and the rule and the configuration. -/
def EnabledField.saved : EnabledField → EnabledField
  | .text b => .bool b
  | e => e

def WebRule.saved (r : WebRule) : WebRule where
  enabled := r.enabled.saved
  name := gsubBraces r.name
  ip := gsubBraces r.ip
  sharedUpload := gsubBraces r.sharedUpload
  sharedDownload := gsubBraces r.sharedDownload
  perIpUpload := gsubBraces r.perIpUpload
  perIpDownload := gsubBraces r.perIpDownload

/-- The test of the loop, on what is read back: no text is left. -/
theorem luaTrue_saved (e : EnabledField) :
    luaTrue (e.saved.value : Option (Value ν)) = e.enabled := by
  cases e <;> rfl

theorem EnabledField.saved_saved (e : EnabledField) : e.saved.saved = e.saved := by
  cases e <;> rfl

theorem EnabledField.enabled_saved (e : EnabledField) : e.saved.enabled = e.enabled := by
  cases e <;> rfl

theorem gsubBraces_boolWord (b : Bool) : gsubBraces (boolWord b) = boolWord b := by
  cases b <;> decide

theorem SavedAs.enabled {ms ns : List (Str × Value ν)} (h : SavedAs (.obj ms) (.obj ns))
    {e : EnabledField} (he : JsonText.lookup enabledKey ms = e.value) :
    JsonText.lookup enabledKey ns = e.saved.value := by
  have hat := h.lookup (k := enabledKey) (by decide)
  rw [he] at hat
  cases e with
  | absent =>
    rw [EnabledField.value, Option.map_none, Option.map_eq_none_iff] at hat
    exact hat
  | text b =>
    rw [EnabledField.value, Option.map_some, Option.map_eq_some_iff] at hat
    obtain ⟨y, hy, hnode⟩ := hat
    have hbool : y.node = .bool b := by
      have hlooks : lastField (fun k => LooksEnabled k) [.field enabledKey] = true := by decide
      rw [hnode, Value.node, savedNode, if_pos hlooks, gsubBraces_boolWord, toBool_boolWord]
    rw [hy, eq_of_node.2 _ hbool]
    rfl
  | bool b =>
    rw [EnabledField.value, Option.map_some, Option.map_eq_some_iff] at hat
    obtain ⟨y, hy, hnode⟩ := hat
    rw [hy, eq_of_node.2 b hnode]
    rfl

/-- What is read of a rule: the field `Enabled`, which is no text any more, and the texts if the
rule is enabled. -/
structure ReadBack (r : WebRule) (v : Value ν) : Prop where
  noText : r.enabled.saved = r.enabled
  enabled : luaIndex enabledKey v = some r.enabled.value
  texts : r.enabled.enabled = true → ∃ ns, v = .obj ns ∧ HasTexts r ns

theorem HasTexts.saved {r : WebRule} {ms ns : List (Str × Value ν)} (hr : HasTexts r ms)
    (h : SavedAs (.obj ms) (.obj ns)) : HasTexts r.saved ns := by
  have hstr : ∀ k s, PlainName k ∧ ¬ LooksEnabled k → JsonText.lookup k ms = some (.str s) →
      JsonText.lookup k ns = some (.str (gsubBraces s)) := fun k s hk hs => h.str hk.1 hk.2 hs
  exact
    { name := hstr _ _ (by decide) hr.name
      ip := hstr _ _ (by decide) hr.ip
      sharedUpload := hstr _ _ (by decide) hr.sharedUpload
      sharedDownload := hstr _ _ (by decide) hr.sharedDownload
      perIpUpload := hstr _ _ (by decide) hr.perIpUpload
      perIpDownload := hstr _ _ (by decide) hr.perIpDownload }

/-- **A rule that is read back** is the rule with the substitution made in its texts. -/
theorem IsRule.saved {r : WebRule} {ms : List (Str × Value ν)} {v : Value ν} (hr : IsRule r ms)
    (h : SavedAs (.obj ms) v) (hv : v.node = .table) : ReadBack r.saved v := by
  have hnoText := r.enabled.saved_saved
  cases v with
  | obj ns =>
    refine ⟨hnoText, congrArg some (h.enabled hr.enabled), ?_⟩
    intro henabled
    rw [WebRule.saved, EnabledField.enabled_saved] at henabled
    exact ⟨ns, rfl, (hr.texts henabled).saved h⟩
  | arr vs =>
    -- a list has no fields: the rule had no `Enabled`
    have hnone := h [.field enabledKey] (by simp) (by simp; decide)
    rw [Value.tree_arr_field, Value.tree_obj_field, hr.enabled] at hnone
    have habsent : r.saved.enabled = .absent := by
      rw [WebRule.saved]
      cases he : r.enabled with
      | absent => rfl
      | text b => simp [he, EnabledField.value] at hnone
      | bool b => simp [he, EnabledField.value] at hnone
    refine ⟨hnoText, by rw [habsent]; rfl, ?_⟩
    rw [habsent]
    intro henabled
    cases henabled
  | _ => cases hv

/-- The list of rules that is read back. -/
theorem rules_saved {rs : List WebRule} {mss : List (List (Str × Value ν))} {vs : List (Value ν)}
    (hrs : List.Forall₂ IsRule rs mss)
    (h : ∀ (i : Nat) (p : List Key), (∀ k, Key.field k ∈ p → PlainName k) →
      (vs[i]?.bind fun v => v.tree p) =
        (mss.map Value.obj)[i]?.bind fun m => (m.tree p).map (savedNode p)) :
    List.Forall₂ ReadBack (rs.map WebRule.saved) vs := by
  induction hrs generalizing vs with
  | nil =>
    cases vs with
    | nil => exact .nil
    | cons v vs => exact absurd (h 0 [] (by simp)) (by simp)
  | cons hr hrs ih =>
    cases vs with
    | nil => exact absurd (h 0 [] (by simp)) (by simp)
    | cons v vs =>
      have hv : SavedAs (.obj _) v := fun p _ hplain => h 0 p hplain
      have hnode : v.node = .table := by
        have hroot := h 0 [] (by simp)
        simpa [Value.node, savedNode] using hroot
      exact .cons (hr.saved hv hnode) (ih fun i p hplain => h (i + 1) p hplain)

/-- What `ipairs` goes through when it is read back. -/
theorem SavedAs.ipairs {rs : List WebRule} {mss : List (List (Str × Value ν))} {m v : Value ν}
    (hm : m = .arr (mss.map Value.obj) ∨ m = .obj [] ∧ mss = [])
    (hrs : List.Forall₂ IsRule rs mss) (h : SavedAs m v) (hv : v.node = .table) :
    ∃ vs, Puppies.ipairs v = some vs ∧ List.Forall₂ ReadBack (rs.map WebRule.saved) vs := by
  -- both kinds of an empty list have the same tree
  have htree : m.tree = (Value.arr (mss.map Value.obj)).tree := by
    rcases hm with rfl | ⟨rfl, rfl⟩
    · rfl
    · exact Value.tree_arr_nil.symm
  have h' : SavedAs (.arr (mss.map Value.obj)) v := by
    intro p hp hplain
    rw [h p hp hplain, htree]
  cases v with
  | arr vs => exact ⟨vs, rfl, rules_saved hrs fun i p hplain => h'.index i hplain⟩
  | obj ns =>
    have hnone := h' [.index 0] (by simp) (by simp)
    cases hrs with
    | nil => exact ⟨[], rfl, .nil⟩
    | cons hr hrs => simp at hnone
  | _ => cases hv

/-! ## 5. The conversion of what is read back -/

/-- What the loop makes of a rule. -/
def enforced (r : WebRule) : TbqRule ν where
  name := ascii "UI-<" ++ formatStr r.name ++ ascii ">"
  ipIncluded := [.str r.ip]
  ipExcluded := []
  appIncluded := []
  appExcluded := []
  uploadLimit := ⟨tbqRateFromTCRate r.sharedUpload, tbqRateFromTCRate r.perIpUpload⟩
  downloadLimit := ⟨tbqRateFromTCRate r.sharedDownload, tbqRateFromTCRate r.perIpDownload⟩

theorem tbqRule_eq (tostring : ν → Str) {r : WebRule} {ns : List (Str × Value ν)}
    (hr : HasTexts r ns) : tbqRule tostring (.obj ns) = some (enforced r) := by
  simp only [tbqRule, luaIndex, hr.name, hr.ip, hr.sharedUpload, hr.sharedDownload,
    hr.perIpUpload, hr.perIpDownload]
  rfl

/-- **The loop over the rules.** -/
theorem convertRules_eq (tostring : ν → Str) {rs : List WebRule} {vs : List (Value ν)}
    (h : List.Forall₂ ReadBack rs vs) :
    convertRules tostring vs = some ((rs.filter fun r => r.enabled.enabled).map enforced) := by
  induction h with
  | nil => rfl
  | @cons r v rs vs hr _ ih =>
    have htrue : luaTrue (r.enabled.value : Option (Value ν)) = r.enabled.enabled := by
      rw [← hr.noText, luaTrue_saved, EnabledField.enabled_saved]
    rw [convertRules, hr.enabled, List.filter_cons]
    cases he : r.enabled.enabled with
    | true =>
      obtain ⟨ns, rfl, htexts⟩ := hr.texts he
      simp [htrue, he, tbqRule_eq tostring htexts, ih]
    | false => simp [htrue, he, ih]

/-- A rate is what it was before the substitution. -/
theorem tbqRateFromTCRate_gsubBraces (s : Str) :
    tbqRateFromTCRate (gsubBraces s) = tbqRateFromTCRate s := by
  by_cases h : emptyObj <:+: s
  · -- there is a brace in it before, and a bracket after
    have hbrace : (0x7b : Byte) ∈ s := h.subset List.mem_cons_self
    have hbracket : (0x5b : Byte) ∈ gsubBraces s :=
      (infix_gsub emptyObj_ne_nil emptyArr h).subset List.mem_cons_self
    rw [tbqRateFromTCRate, tbqRateFromTCRate,
      parseRateDesc_of_mem hbrace (by decide) (by decide) (by decide),
      parseRateDesc_of_mem hbracket (by decide) (by decide) (by decide)]
  · rw [(gsubBraces_eq_self_iff s).mpr h]

/-- What is enforced is the rule, but for its addresses. -/
theorem enforces_enforced_iff (r : WebRule) :
    Enforces r (enforced r.saved : TbqRule ν) ↔ ¬ emptyObj <:+: r.ip := by
  rw [← gsubBraces_eq_self_iff]
  constructor
  · intro h
    have hip := h.ipIncluded
    simp only [enforced, WebRule.saved, List.cons.injEq, Value.str.injEq, and_true] at hip
    exact hip
  · intro h
    refine ⟨?_, ⟨rfl, rfl, rfl⟩, ?_, ?_, ?_, ?_⟩
    · rw [enforced, WebRule.saved, h]
    all_goals exact tbqRateFromTCRate_gsubBraces _

/-- The rule for all traffic, with these limits. -/
def globalRule (upload download : Str) : TbqRule ν :=
  { newRule with
    uploadLimit := ⟨tbqRateFromTCRate upload, tbqRateFromTCRate upload⟩
    downloadLimit := ⟨tbqRateFromTCRate download, tbqRateFromTCRate download⟩ }

theorem setTCRate_global (upload download : Str) :
    setTCRate newRule (some (.str upload : Value ν)) (some (.str download)) (some (.str upload))
      (some (.str download)) = some (globalRule upload download) := rfl

/-- **The table that is made** of what is read. -/
theorem tbqcfg_eq (env : ConvertEnv ν) (cj : Codec ν) {s upload download : Str}
    {ns : List (Str × Value ν)} {rules : Value ν} {vs : List (Value ν)} {rs : List WebRule}
    (hs : cj.decode s = some (.obj ns))
    (hupload : lookup globalSharedUploadKey ns = some (.str upload))
    (hdownload : lookup globalSharedDownloadKey ns = some (.str download))
    (hrules : lookup rulesKey ns = some rules) (hipairs : ipairs rules = some vs)
    (hvs : List.Forall₂ ReadBack rs vs) :
    tbqcfg env cj s = some
      ⟨env.backlog,
        globalRule upload download :: (rs.filter fun r => r.enabled.enabled).map enforced,
        ifaceText env (getIface env.ipRo).1, ifaceText env (getIface env.ipRo).2⟩ := by
  simp only [tbqcfg, hs, Option.bind_eq_bind, Option.bind_some, luaIndex, hupload, hdownload,
    hrules, hipairs, setTCRate_global, convertRules_eq env.tostring hvs]
  rfl

/-- Saving does not change which rules are enabled. -/
theorem filter_saved (rs : List WebRule) :
    (rs.map WebRule.saved).filter (fun r => r.enabled.enabled) =
      (rs.filter fun r => r.enabled.enabled).map WebRule.saved := by
  rw [List.filter_map]
  congr 1
  exact List.filter_congr fun r _ => r.enabled.enabled_saved

/-- The table that is made of a configuration that was saved. -/
theorem tbqcfg_saved (env : ConvertEnv ν) (cj : Codec ν) {c : WebConf}
    {ms : List (Str × Value ν)} (hc : IsConf c ms) :
    ∃ table global : _, tbqcfg env cj (saveText cj (.obj ms)) = some table ∧
      table.rules = global ::
        (c.rules.filter fun r => r.enabled.enabled).map (fun r => enforced r.saved) ∧
      EnforcesGlobal c global := by
  obtain ⟨v, hv, htree⟩ := decode_saveText_plain cj (.obj ms)
  have hsaved : SavedAs (.obj ms) v := fun p _ hplain => htree p hplain
  have hup := htree [.field globalSharedUploadKey] (by simp; decide)
  rw [Value.tree_obj_field, hc.globalSharedUpload] at hup
  obtain ⟨ns, rfl⟩ := obj_of_tree_field
    (n := savedNode [.field globalSharedUploadKey] (.str c.globalSharedUpload)) hup
  have hupload := hsaved.str (by decide) (by decide) hc.globalSharedUpload
  have hdownload := hsaved.str (by decide) (by decide) hc.globalSharedDownload
  obtain ⟨m, mss, hm, hmss, hrs⟩ : ∃ m mss, JsonText.lookup rulesKey ms = some m ∧
      (m = .arr (mss.map Value.obj) ∨ m = .obj [] ∧ mss = []) ∧
      List.Forall₂ IsRule c.rules mss := by
    obtain ⟨mss, ⟨hlist, hrs⟩ | ⟨hempty, hnil⟩⟩ := hc.rules
    · exact ⟨_, mss, hlist, Or.inl rfl, hrs⟩
    · exact ⟨_, [], hempty, Or.inr ⟨rfl, rfl⟩, hnil ▸ .nil⟩
  have htable : m.node = .table := by
    rcases hmss with rfl | ⟨rfl, -⟩
    · rfl
    · rfl
  have hrules := hsaved.lookup (k := rulesKey) (by decide)
  rw [hm, Option.map_some, htable, Option.map_eq_some_iff] at hrules
  obtain ⟨rules, hlookup, hnode⟩ := hrules
  obtain ⟨vs, hipairs, hvs⟩ :=
    SavedAs.ipairs hmss hrs (hsaved.field (by decide) hm hlookup) hnode
  refine ⟨_, globalRule (gsubBraces c.globalSharedUpload) (gsubBraces c.globalSharedDownload),
    tbqcfg_eq env cj hv hupload hdownload hlookup hipairs hvs, ?_,
    ⟨⟨rfl, rfl, rfl, rfl⟩, ?_, ?_⟩⟩
  · rw [filter_saved, List.map_map]
    rfl
  · simp only [globalRule, tbqRateFromTCRate_gsubBraces]
  · simp only [globalRule, tbqRateFromTCRate_gsubBraces]

/-- The text that `convert` makes of the table is read back as the table, when it has no `{}` in a
text: the substitution is the one of `save_file`. -/
theorem convert_decode (env : ConvertEnv ν) (cj : Codec ν) {s : Str} {cfg : TbqCfg ν}
    (hcfg : tbqcfg env cj s = some cfg) (hbraces : NoBraces cfg.table.tree) :
    ∃ t v, convert env cj s = some t ∧ cj.decode t = some v ∧ v.tree = cfg.table.tree := by
  obtain ⟨w, hw, htext⟩ := cj.encode_text cfg.table
  have hgsub := gsub_braces_text cj w []
  simp only [List.append_nil, gsub_nil] at hgsub
  obtain ⟨v, hv, hvt⟩ := cj.decode_text emptyArr (by decide) (substBraces w)
  rw [← hw] at hbraces
  refine ⟨_, v, ?_, hv, ?_⟩
  · rw [convert, hcfg, Option.map_some, htext, hgsub]
  · rw [hvt, tree_substBraces hbraces, hw]

/-- **Exactly the enabled rules are enforced** as they are exactly when none of them has `{}` in
its addresses. -/
theorem enforced_iff (env : ConvertEnv ν) (cj : Codec ν) (c : WebConf) (ms : List (Str × Value ν))
    (hc : IsConf c ms) :
    EnabledEnforced c (tbqcfg env cj (saveText cj (.obj ms))) ↔
      ∀ r ∈ c.rules, r.enabled.enabled = true → ¬ emptyObj <:+: r.ip := by
  obtain ⟨table, global, htable, hrules, hglobal⟩ := tbqcfg_saved env cj hc
  have hiff : List.Forall₂ Enforces (c.rules.filter fun r => r.enabled.enabled)
      ((c.rules.filter fun r => r.enabled.enabled).map fun r => (enforced r.saved : TbqRule ν)) ↔
      ∀ r ∈ c.rules, r.enabled.enabled = true → ¬ emptyObj <:+: r.ip := by
    rw [List.forall₂_map_right_iff, List.forall₂_same]
    simp only [enforces_enforced_iff, List.mem_filter, and_imp]
  rw [← hiff]
  constructor
  · rintro ⟨table', global', rules', htable', hrules', -, h⟩
    obtain rfl := Option.some.inj (htable.symm.trans htable')
    obtain ⟨-, rfl⟩ := List.cons.inj (hrules.symm.trans hrules')
    exact h
  · intro h
    exact ⟨table, global, _, htable, hrules, hglobal, h⟩

/-- The number 9999, `pairs` in the order in which a set was filled, no routes. -/
def plainEnv : ConvertEnv Digits where
  backlog := ⟨ascii "9999", by decide, by decide⟩
  tostring := Digits.digits
  pairs := id
  ipRo := []

/-- A rule with this field `Enabled` for these addresses, and its table. -/
def ruleFor (enabled : EnabledField) (ip : Str) : WebRule :=
  ⟨enabled, ascii "a", ip, ascii "8Kbps", ascii "8Kbps", ascii "8Kbps", ascii "8Kbps"⟩

def ruleTable (r : WebRule) : List (Str × Value Digits) :=
  (r.enabled.value.map fun v => (enabledKey, v)).toList ++
    [(nameKey, .str r.name), (ipKey, .str r.ip), (sharedUploadKey, .str r.sharedUpload),
      (sharedDownloadKey, .str r.sharedDownload), (perIpUploadKey, .str r.perIpUpload),
      (perIpDownloadKey, .str r.perIpDownload)]

def confTable (c : WebConf) : List (Str × Value Digits) :=
  [(globalSharedUploadKey, .str c.globalSharedUpload),
    (globalSharedDownloadKey, .str c.globalSharedDownload),
    (rulesKey, .arr ((c.rules.map ruleTable).map .obj))]

theorem isRule_ruleTable (r : WebRule) : IsRule r (ruleTable r) := by
  obtain ⟨enabled, name, ip, su, sd, pu, pd⟩ := r
  cases enabled <;> exact ⟨rfl, fun _ => ⟨rfl, rfl, rfl, rfl, rfl, rfl⟩⟩

theorem isConf_confTable (c : WebConf) : IsConf c (confTable c) := by
  refine ⟨rfl, rfl, c.rules.map ruleTable, Or.inl ⟨rfl, ?_⟩⟩
  rw [List.forall₂_map_right_iff, List.forall₂_same]
  exact fun r _ => isRule_ruleTable r

/-- Of four rules, the two that are enabled are enforced. -/
theorem enforced_iff_four :
    let c : WebConf := ⟨ascii "1Mbps", ascii "1Mbps",
      [ruleFor (.text true) (ascii "10.0.0.1"), ruleFor (.text false) (ascii "\x7b\x7d"),
        ruleFor .absent [], ruleFor (.bool true) (ascii "10.0.0.2")]⟩
    EnabledEnforced c (tbqcfg plainEnv compact (saveText compact (.obj (confTable c)))) := by
  intro c
  exact (enforced_iff plainEnv compact c (confTable c) (isConf_confTable c)).mpr (by decide)

/-- One rule, which is enabled, for the addresses `{}`: another one is enforced. -/
theorem not_enforced :
    let c : WebConf := ⟨ascii "1Mbps", ascii "1Mbps", [ruleFor (.text true) emptyObj]⟩
    ¬ EnabledEnforced c (tbqcfg plainEnv compact (saveText compact (.obj (confTable c)))) := by
  rintro c ⟨table, global, rules, htable, hrules, -, h⟩
  have hips : (tbqcfg plainEnv compact (saveText compact (.obj (confTable c)))).map
      (fun table => table.rules.map TbqRule.ipIncluded) = some [[], [.str emptyArr]] := by
    decide +kernel
  rw [htable, Option.map_some, hrules, List.map_cons, Option.some.injEq, List.cons.injEq] at hips
  have henabled : c.rules.filter (fun r => r.enabled.enabled) =
      [ruleFor (.text true) emptyObj] := rfl
  rw [henabled] at h
  cases h with
  | cons hrule hrest =>
    cases hrest
    have hip := hips.2
    rw [List.map_singleton, hrule.ipIncluded] at hip
    exact absurd hip (by decide)

end Puppies
