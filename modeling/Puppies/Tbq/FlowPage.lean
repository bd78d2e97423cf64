/-
# From the page to the kernel module (`flowctrl.js`, `flowctrl.lua`, `settc.lua`)

On the page a rule is a name, some addresses, a switch, and four rates; a rate is a number in one
field and a unit in another.  `combUnit` puts the two behind each other for the request, `fixUnit`
takes them apart again at the first `M`, or else the first `K`, of what comes back.

`PageConf` is what the user means, and `PageConf.step` what the user means by a click.  A page has
its own list of the rules, from when it last asked for it, and `saveTcRule` looks for the name of a
new rule there before there is a request at all: so each click comes with the names that its page
has, whichever these are.  Below lie the requests, the file with its substitutions, the patterns of
`settc.lua`, and its arithmetic.  `flowPage_enforced` puts them together: for every sequence of
clicks in which no name and no addresses have `{}` in them, each answer is the one that is meant,
what the page reads back is what was typed, and the table for the kernel module has the rules that
are switched on, in order, with their rates in bytes.
-/
import Puppies.Tbq.Convert
import Puppies.Tbq.Rate
import Puppies.Tbq.RuleStore

namespace Puppies

open ByteMem JsonText Gsub EventRun

variable {ν : Type}

/-! ## 1. Rates -/

/-- A number in a field. -/
structure PageNumber where
  digits : Str
  nonempty : digits ≠ []
  isDigits : ∀ c ∈ digits, luaDigit c = true

/-- The two options of the units. -/
inductive RateUnit
  | kBytes
  | mBytes
  deriving DecidableEq, Repr

/-- The letter in front of `Bytes`. -/
def RateUnit.letter : RateUnit → Byte
  | .kBytes => 0x4b
  | .mBytes => 0x4d

/-- The value of the option. -/
def RateUnit.text (u : RateUnit) : Str := u.letter :: bytesName

def RateUnit.factor : RateUnit → Nat
  | .kBytes => 10 ^ 3
  | .mBytes => 10 ^ 6

/-- A rate on the page. -/
structure PageRate where
  number : PageNumber
  unit : RateUnit

namespace PageRate

/-- `$('#' + k).val() + unit.val()`, in `combUnit`. -/
def text (r : PageRate) : Str := r.number.digits ++ r.unit.text

/-- What it is in bytes per second; from the limit on, 0. -/
def bytes (r : PageRate) : Nat :=
  let n := CText.valueOf 10 r.number.digits * r.unit.factor
  if n ≤ 2 * 10 ^ 9 then n else 0

end PageRate

/-- `upload + 'Mbps'` -/
def PageNumber.mbps (n : PageNumber) : Str := n.digits ++ ascii "Mbps"

/-- What this is in bytes per second. -/
def PageNumber.mbpsBytes (n : PageNumber) : Nat :=
  if CText.valueOf 10 n.digits ≤ 16000 then CText.valueOf 10 n.digits * 125000 else 0

/-- `fixUnit`, for one value: what it puts into the field and into the one of the unit, unless
there is neither letter. -/
def fixUnit (val : Str) : Option (Str × Str) :=
  ((val.findIdx? (· = 0x4d)).or (val.findIdx? (· = 0x4b))).map fun idx =>
    (val.take idx, val.drop idx)

theorem findIdx?_append_cons {c : Byte} {s : Str} (h : c ∉ s) (t : Str) :
    (s ++ c :: t).findIdx? (· = c) = some s.length := by
  induction s with
  | nil => simp [List.findIdx?_cons]
  | cons d s ih =>
    rw [List.mem_cons, not_or] at h
    have hd : decide (d = c) = false := decide_eq_false fun heq => h.1 heq.symm
    rw [List.cons_append, List.findIdx?_cons, hd, ih h.2]
    rfl

theorem findIdx?_of_not_mem {c : Byte} {s : Str} (h : c ∉ s) : s.findIdx? (· = c) = none := by
  rw [List.findIdx?_eq_none_iff]
  intro d hd
  exact decide_eq_false fun heq => h (heq ▸ hd)

theorem PageNumber.not_mem (n : PageNumber) {c : Byte} (hc : luaDigit c = false) :
    c ∉ n.digits := by
  intro h
  rw [n.isDigits c h] at hc
  cases hc

/-- **What `combUnit` puts together, `fixUnit` takes apart.** -/
theorem fixUnit_text (r : PageRate) : fixUnit r.text = some (r.number.digits, r.unit.text) := by
  have hM := r.number.not_mem (c := 0x4d) (by decide)
  have hK := r.number.not_mem (c := 0x4b) (by decide)
  unfold fixUnit PageRate.text RateUnit.text
  cases r.unit with
  | mBytes =>
    rw [RateUnit.letter, findIdx?_append_cons hM, Option.some_or, Option.map_some,
      List.take_left, List.drop_left]
  | kBytes =>
    have hnone : (0x4d : Byte) ∉ r.number.digits ++ 0x4b :: bytesName := by
      rw [List.mem_append, not_or]
      exact ⟨hM, by decide⟩
    rw [RateUnit.letter, findIdx?_of_not_mem hnone, findIdx?_append_cons hK, Option.none_or,
      Option.map_some, List.take_left, List.drop_left]

theorem fixUnit_mbps (n : PageNumber) : fixUnit n.mbps = some (n.digits, ascii "Mbps") := by
  have hM := n.not_mem (c := 0x4d) (by decide)
  have hsplit : n.mbps = n.digits ++ 0x4d :: ascii "bps" := rfl
  rw [fixUnit, hsplit, findIdx?_append_cons hM, Option.some_or, Option.map_some, List.take_left,
    List.drop_left]
  rfl

/-- A text of digits, a letter and the name of a unit. -/
theorem PageNumber.rateForm (n : PageNumber) {b : Byte} (hb : b ∈ ascii "KM") (name : Str) :
    RateForm (n.digits ++ b :: name) n.digits b name :=
  ⟨n.nonempty, n.isDigits, hb, [], [], [], [], by simp, by simp⟩

/-- **The rate for the kernel module** is the one that was typed, in bytes. -/
theorem tbqRateFromTCRate_text (r : PageRate) : tbqRateFromTCRate r.text = tbqRate r.bytes := by
  have hbytes : bytesName ≠ bpsName := by decide
  have hletter : r.unit.letter ∈ ascii "KM" := by cases r.unit <;> decide
  have hfactor : (if r.unit.letter = 0x4b then 10 ^ 3 else 10 ^ 6) = r.unit.factor := by
    cases r.unit <;> rfl
  have hform := r.number.rateForm hletter bytesName
  rw [tbqRateFromTCRate, PageRate.text, RateUnit.text, parseRateDesc_eq hform (by decide),
    rateBits, hfactor, if_neg hbytes, rateLimit, PageRate.bytes]
  congr 1
  split <;> split <;> omega

theorem tbqRateFromTCRate_mbps (n : PageNumber) :
    tbqRateFromTCRate n.mbps = tbqRate n.mbpsBytes := by
  have hM : (0x4d : Byte) ≠ 0x4b := by decide
  have hsplit : n.mbps = n.digits ++ 0x4d :: bpsName := rfl
  have hform := n.rateForm (b := 0x4d) (by decide) bpsName
  rw [tbqRateFromTCRate, hsplit, parseRateDesc_eq hform (by decide), rateBits, if_neg hM,
    if_pos rfl, rateLimit, PageNumber.mbpsBytes]
  congr 1
  split <;> split <;> omega

/-! ## 2. The page -/

/-- `oRule`, as it is on the page. -/
structure PageRule where
  enabled : Bool
  ip : Str
  name : Str
  perIpDownload : PageRate
  perIpUpload : PageRate
  sharedDownload : PageRate
  sharedUpload : PageRate

/-- `oConf` -/
structure PageConf where
  globalSharedDownload : PageNumber
  globalSharedUpload : PageNumber
  rules : List PageRule

/-- What the user does. -/
inductive PageAction
  /-- `saveTcRule`, with `opera_flag` being `add_new` and being `edit` -/
  | addNew (rule : PageRule)
  | edit (rule : PageRule)
  /-- `set_del` -/
  | setDel (name : Str)
  /-- `set_enable` -/
  | setEnable (name : Str) (en : Bool)
  /-- `on_save_conf` -/
  | saveConf (upload download : PageNumber)

/-- The fields of the request for a rule: what `combUnit` makes of `oRule`. -/
def PageRule.fields (rule : PageRule) : List (Str × Str) :=
  [(enabledKey, boolWord rule.enabled), (ipKey, rule.ip), (nameKey, rule.name),
    (perIpDownloadKey, rule.perIpDownload.text), (perIpUploadKey, rule.perIpUpload.text),
    (sharedDownloadKey, rule.sharedDownload.text), (sharedUploadKey, rule.sharedUpload.text)]

/-- The fields of the request for all traffic. -/
def globalFields (upload download : PageNumber) : List (Str × Str) :=
  [(globalSharedUploadKey, upload.mbps), (globalSharedDownloadKey, download.mbps)]

/-- The request.  `set_enable` is given what the switch is now. -/
def PageAction.request : PageAction → PageRequest
  | .addNew rule => ⟨.insRules ⟨rule.fields⟩, rule.name, rfl⟩
  | .edit rule => ⟨.updateRules ⟨rule.fields⟩, rule.name, rfl⟩
  | .setDel name => ⟨.deletRules ⟨[(nameKey, name)]⟩, name, rfl⟩
  | .setEnable name en =>
    ⟨.updateRules ⟨[(nameKey, name), (enabledKey, boolWord !en)]⟩, name, rfl⟩
  | .saveConf upload download => ⟨.setGlobalshare ⟨globalFields upload download⟩, rfl⟩

/-- A click on a page, with the names in `oConf.Rules` there: those of the file when the page last
called `initData`. -/
structure PageClick where
  shown : List Str
  action : PageAction

/-- There is a request.  `saveTcRule` looks for the name of a new rule on the page, and returns when
it is there. -/
def PageClick.sends (click : PageClick) : Bool :=
  match click.action with
  | .addNew rule => !click.shown.contains rule.name
  | _ => true

namespace PageConf

/-- The names of the rules. -/
def names (c : PageConf) : List Str := c.rules.map PageRule.name

/-- There is a rule of this name. -/
def Has (c : PageConf) (name : Str) : Prop := ∃ rule ∈ c.rules, rule.name = name

instance (c : PageConf) (name : Str) : Decidable (c.Has name) :=
  inferInstanceAs (Decidable (∃ rule ∈ c.rules, rule.name = name))

/-- What is meant: a new rule behind the others, another one under its name, none under it, the
other position of its switch, other limits.  `none` is a refusal. -/
def edited (c : PageConf) : PageAction → Option PageConf
  | .addNew rule =>
    if c.Has rule.name then none else some { c with rules := c.rules ++ [rule] }
  | .edit rule =>
    if c.Has rule.name then
      some { c with rules := c.rules.map fun r => if r.name = rule.name then rule else r }
    else none
  | .setDel name =>
    if c.Has name then some { c with rules := c.rules.filter fun r => r.name ≠ name }
    else none
  | .setEnable name en =>
    if c.Has name then
      some { c with
        rules := c.rules.map fun r => if r.name = name then { r with enabled := !en } else r }
    else none
  | .saveConf upload download =>
    some { c with globalSharedUpload := upload, globalSharedDownload := download }

/-- One click: what is on the page then, and the `state` of the answer. -/
def step (c : PageConf) (a : PageAction) : PageConf × Nat :=
  match c.edited a with
  | some c => (c, 0)
  | none => (c, 1)

/-- One click on a page; no answer when there is no request. -/
def click (c : PageConf) (click : PageClick) : PageConf × Option Nat :=
  if click.sends then ((c.step click.action).1, some (c.step click.action).2) else (c, none)

/-- On a page that has the names of the file, a new rule is never refused by the handler. -/
theorem click_fresh (c : PageConf) (rule : PageRule) :
    (c.click ⟨c.names, .addNew rule⟩).2 ≠ some 1 := by
  have hiff : rule.name ∈ c.names ↔ c.Has rule.name := List.mem_map
  rw [click]
  split
  · next hsends =>
    have hnew : ¬ c.Has rule.name := by
      rw [← hiff]
      simpa [PageClick.sends] using hsends
    rw [step, edited, if_neg hnew]
    simp
  · simp

end PageConf

/-! ## 3. What is in the file -/

/-- A rule in the file. -/
def PageRule.tree (rule : PageRule) : PathTree ν := turnedEnabled (override rule.fields noEntries)

/-- The file. -/
def PageConf.conf (c : PageConf) : RuleConf ν :=
  ⟨c.rules.map PageRule.tree,
    override (globalFields c.globalSharedUpload c.globalSharedDownload) noEntries⟩

/-- What is under a name. -/
theorem override_field (fields : List (Str × Str)) (D : PathTree ν) (k : Str) (p : List Key) :
    override fields D (.field k :: p) =
      match lookup k fields with
      | some s => (Value.str s : Value ν).tree p
      | none => D (.field k :: p) := rfl

theorem str_tree_eq_some {s : Str} {p : List Key} {n : Node ν} :
    (Value.str s : Value ν).tree p = some n ↔ p = [] ∧ n = .str s := by
  cases p with
  | nil => simp [Value.node, eq_comm]
  | cons key p => cases key <;> simp [Value.tree]

/-- Fields over fields, when the upper ones cover the lower ones. -/
theorem override_override {fields fields' : List (Str × Str)} (D : PathTree ν)
    (h : ∀ k, lookup k fields = none → lookup k fields' = none) :
    override fields (override fields' D) = override fields D := by
  funext p
  match p with
  | [] => rfl
  | .index i :: p => rfl
  | .field k :: p =>
    rw [override_field, override_field, override_field]
    cases hk : lookup k fields with
    | some s => rfl
    | none => rw [h k hk]

/-- What is read back of a path depends on this path only. -/
theorem turnedEnabled_congr {D E : PathTree ν} {p : List Key} (h : D p = E p) :
    turnedEnabled D p = turnedEnabled E p := by
  rw [turnedEnabled, turned, h]
  rfl

theorem turnedEnabled_turnedEnabled (D : PathTree ν) :
    turnedEnabled (turnedEnabled D) = turnedEnabled D := by
  funext p
  by_cases hstr : ∃ s, turnedEnabled D p = some (.str s)
  · obtain ⟨s, hs⟩ := hstr
    exact turnedEnabled_congr (hs.trans (str_of_turned hs).symm)
  · exact turned_of_not_str fun s hs => hstr ⟨s, hs⟩

/-- Fields over a rule that is in the file. -/
theorem turnedEnabled_override (fields : List (Str × Str)) (D : PathTree ν) :
    turnedEnabled (override fields (turnedEnabled D)) = turnedEnabled (override fields D) := by
  funext p
  match p with
  | [] => exact congrFun (turnedEnabled_turnedEnabled D) []
  | .index i :: p => exact congrFun (turnedEnabled_turnedEnabled D) (.index i :: p)
  | .field k :: p =>
    cases hk : lookup k fields with
    | some s =>
      apply turnedEnabled_congr
      rw [override_field, override_field, hk]
    | none =>
      have hleft : ∀ E : PathTree ν, override fields E (.field k :: p) = E (.field k :: p) := by
        intro E
        rw [override_field, hk]
      rw [turnedEnabled_congr (hleft _), turnedEnabled_congr (hleft _)]
      exact congrFun (turnedEnabled_turnedEnabled D) (.field k :: p)

/-- Where there is no `Enabled` there is nothing to turn. -/
theorem turnedEnabled_fields {fields : List (Str × Str)} (h : lookup enabledKey fields = none) :
    turnedEnabled (override fields (noEntries : PathTree ν)) = override fields noEntries := by
  funext p
  by_cases hstr : ∃ s, override fields (noEntries : PathTree ν) p = some (.str s)
  · obtain ⟨s, hs⟩ := hstr
    rw [turnedEnabled, turned_of_str hs, hs]
    rcases p with - | ⟨k | i, p⟩
    · cases hs
    · rw [override_field] at hs
      cases hk : lookup k fields with
      | none =>
        rw [hk] at hs
        cases hs
      | some t =>
        rw [hk] at hs
        obtain ⟨rfl, -⟩ := str_tree_eq_some.mp hs
        have hne : k ≠ enabledKey := by
          rintro rfl
          rw [h] at hk
          cases hk
        rw [lastField, decide_eq_false hne, if_neg Bool.false_ne_true]
    · cases hs
  · exact turned_of_not_str fun s hs => hstr ⟨s, hs⟩

@[simp] theorem ruleName_tree (rule : PageRule) :
    ruleName (rule.tree : PathTree ν) = some rule.name := by
  rw [PageRule.tree, ruleName_turnedEnabled]
  have hname : (Form.mk rule.fields).name = some rule.name := rfl
  exact ruleName_override hname noEntries

theorem turnedEnabled_tree (rule : PageRule) :
    turnedEnabled (rule.tree : PathTree ν) = rule.tree := turnedEnabled_turnedEnabled _

/-- All rules have the same fields. -/
theorem lookup_fields_eq_none {rule rule' : PageRule} {k : Str}
    (h : lookup k rule.fields = none) : lookup k rule'.fields = none := by
  simp only [PageRule.fields, lookup_cons, lookup_nil, Option.or_eq_none_iff,
    ite_eq_right_iff, reduceCtorEq, imp_false] at h ⊢
  simpa using h

/-- **A rule is edited.** -/
theorem tree_edited (rule rule' : PageRule) :
    turnedEnabled (override rule'.fields (rule.tree : PathTree ν)) = rule'.tree := by
  rw [PageRule.tree, turnedEnabled_override, override_override _ fun k hk =>
    lookup_fields_eq_none hk]
  rfl

/-- **Its switch is turned.** -/
theorem tree_switched (rule : PageRule) (b : Bool) :
    turnedEnabled (override [(nameKey, rule.name), (enabledKey, boolWord b)]
      (rule.tree : PathTree ν)) = { rule with enabled := b }.tree := by
  rw [PageRule.tree, turnedEnabled_override, PageRule.tree]
  congr 1
  funext p
  match p with
  | [] => rfl
  | .index i :: p => rfl
  | .field k :: p =>
    rw [override_field, override_field, override_field]
    by_cases henabled : k = enabledKey
    · subst henabled
      rfl
    · by_cases hname : k = nameKey
      · subst hname
        rfl
      · have hnone : lookup k [(nameKey, rule.name), (enabledKey, boolWord b)] = none := by
          simp [henabled, hname]
        have hsame : lookup k { rule with enabled := b }.fields = lookup k rule.fields := by
          simp [PageRule.fields, henabled]
        rw [hnone, hsame]

theorem hasName_conf (c : PageConf) {map : Form} {name : Str} (h : map.name = some name) :
    HasName map (c.conf : RuleConf ν).rules ↔ c.Has name := by
  simp [HasName, PageConf.conf, PageConf.Has, h]

/-- The rules in the file are not changed by turning them once more. -/
theorem turned_conf (c : PageConf) : (c.conf : RuleConf ν).turned = c.conf := by
  have hfields : lookup enabledKey (globalFields c.globalSharedUpload c.globalSharedDownload) =
      none := rfl
  rw [RuleConf.turned, PageConf.conf, turnedEnabled_fields hfields, List.map_map]
  congr 1
  exact List.map_congr_left fun rule _ => turnedEnabled_tree rule

/-- **What a request is for is what is meant by the click.** -/
theorem edit_conf (c : PageConf) (a : PageAction) :
    ((c.conf : RuleConf ν).edit a.request.1).map RuleConf.turned =
      (c.edited a).map PageConf.conf := by
  have hfields := congrArg RuleConf.fields (turned_conf (ν := ν) c)
  have hrules := congrArg RuleConf.rules (turned_conf (ν := ν) c)
  cases a with
  | addNew rule =>
    have hname : (Form.mk rule.fields).name = some rule.name := rfl
    simp only [PageAction.request, RuleConf.edit, PageConf.edited, hasName_conf c hname]
    by_cases hmem : c.Has rule.name
    · rw [if_pos hmem, if_pos hmem]
      rfl
    · rw [if_neg hmem, if_neg hmem, Option.map_some, Option.map_some, Option.some.injEq]
      refine congrArg₂ RuleConf.mk ?_ hfields
      rw [List.map_append, List.map_append]
      exact congrArg (· ++ _) hrules
  | edit rule =>
    have hname : (Form.mk rule.fields).name = some rule.name := rfl
    simp only [PageAction.request, RuleConf.edit, PageConf.edited, hasName_conf c hname]
    by_cases hmem : c.Has rule.name
    · rw [if_pos hmem, if_pos hmem, Option.map_some, Option.map_some, Option.some.injEq]
      refine congrArg₂ RuleConf.mk ?_ hfields
      simp only [PageConf.conf, List.map_map, hname]
      apply List.map_congr_left
      intro r _
      simp only [Function.comp_apply, ruleName_tree, Option.some.injEq]
      by_cases hr : r.name = rule.name
      · rw [if_pos hr, if_pos hr, tree_edited]
      · rw [if_neg hr, if_neg hr, turnedEnabled_tree]
    · rw [if_neg hmem, if_neg hmem]
      rfl
  | setDel name =>
    have hname : (Form.mk [(nameKey, name)]).name = some name := rfl
    simp only [PageAction.request, RuleConf.edit, PageConf.edited, hasName_conf c hname]
    by_cases hmem : c.Has name
    · rw [if_pos hmem, if_pos hmem, Option.map_some, Option.map_some, Option.some.injEq]
      refine congrArg₂ RuleConf.mk ?_ hfields
      simp only [PageConf.conf, List.filter_map, List.map_map, hname]
      have hsame : ((fun D : PathTree ν => decide (ruleName D ≠ some name)) ∘ PageRule.tree) =
          fun r => decide (r.name ≠ name) := by
        funext r
        simp
      rw [hsame]
      exact List.map_congr_left fun r _ => turnedEnabled_tree r
    · rw [if_neg hmem, if_neg hmem]
      rfl
  | setEnable name en =>
    have hname : (Form.mk [(nameKey, name), (enabledKey, boolWord !en)]).name = some name := rfl
    simp only [PageAction.request, RuleConf.edit, PageConf.edited, hasName_conf c hname]
    by_cases hmem : c.Has name
    · rw [if_pos hmem, if_pos hmem, Option.map_some, Option.map_some, Option.some.injEq]
      refine congrArg₂ RuleConf.mk ?_ hfields
      simp only [PageConf.conf, List.map_map, hname]
      apply List.map_congr_left
      intro r _
      simp only [Function.comp_apply, ruleName_tree, Option.some.injEq]
      by_cases hr : r.name = name
      · subst hr
        rw [if_pos rfl, if_pos rfl, tree_switched]
      · rw [if_neg hr, if_neg hr, turnedEnabled_tree]
    · rw [if_neg hmem, if_neg hmem]
      rfl
  | saveConf upload download =>
    refine congrArg some (congrArg₂ RuleConf.mk hrules ?_)
    have hcover : ∀ k, lookup k (globalFields upload download) = none →
        lookup k (globalFields c.globalSharedUpload c.globalSharedDownload) = none := by
      intro k hk
      simpa [globalFields] using hk
    have hover : override (globalFields upload download) (c.conf : RuleConf ν).fields =
        override (globalFields upload download) noEntries := override_override _ hcover
    rw [hover]
    exact turnedEnabled_fields rfl

theorem step_conf (c : PageConf) (a : PageAction) :
    (c.conf : RuleConf ν).step a.request.1 = ((c.step a).2, (c.step a).1.conf) := by
  have hedit := edit_conf (ν := ν) c a
  rw [RuleConf.step, PageConf.step]
  cases he : c.edited a with
  | none =>
    rw [he, Option.map_none, Option.map_eq_none_iff] at hedit
    rw [hedit]
  | some c' =>
    rw [he, Option.map_some, Option.map_eq_some_iff] at hedit
    obtain ⟨c'', hc'', hturned⟩ := hedit
    rw [hc'']
    exact congrArg (Prod.mk 0) hturned

/-! ## 4. Nothing is substituted -/

/-- There is no `{}` in the texts of a rule. -/
def PageRule.NoBraces (rule : PageRule) : Prop :=
  ¬ emptyObj <:+: rule.ip ∧ ¬ emptyObj <:+: rule.name

instance (rule : PageRule) : Decidable rule.NoBraces := inferInstanceAs (Decidable (_ ∧ _))

/-- In what the user types. -/
def PageAction.NoBraces : PageAction → Prop
  | .addNew rule => rule.NoBraces
  | .edit rule => rule.NoBraces
  | _ => True

/-- In the rules. -/
def PageConf.NoBraces (c : PageConf) : Prop := ∀ rule ∈ c.rules, rule.NoBraces

/-- Fields in which nothing is found that is not meant. -/
def CleanFields (fields : List (Str × Str)) : Prop :=
  ∀ k s, (k, s) ∈ fields →
    ¬ emptyObj <:+: k ∧ ¬ emptyObj <:+: s ∧ (LooksEnabled k → k = enabledKey)

theorem not_infix_of_not_mem {s : Str} (h : (0x7b : Byte) ∉ s) : ¬ emptyObj <:+: s :=
  fun hinf => h (hinf.subset List.mem_cons_self)

theorem PageRate.not_infix (r : PageRate) : ¬ emptyObj <:+: r.text := by
  apply not_infix_of_not_mem
  rw [PageRate.text, List.mem_append, not_or]
  refine ⟨r.number.not_mem (by decide), ?_⟩
  cases r.unit <;> decide

theorem PageNumber.not_infix (n : PageNumber) : ¬ emptyObj <:+: n.mbps := by
  apply not_infix_of_not_mem
  rw [PageNumber.mbps, List.mem_append, not_or]
  exact ⟨n.not_mem (by decide), by decide⟩

theorem PageRule.cleanFields {rule : PageRule} (h : rule.NoBraces) : CleanFields rule.fields := by
  have hbool : ∀ b, ¬ emptyObj <:+: boolWord b := by
    intro b
    cases b <;> decide
  intro k s hmem
  simp only [PageRule.fields, List.mem_cons, List.not_mem_nil, or_false, Prod.mk.injEq] at hmem
  rcases hmem with ⟨rfl, rfl⟩ | ⟨rfl, rfl⟩ | ⟨rfl, rfl⟩ | ⟨rfl, rfl⟩ | ⟨rfl, rfl⟩ | ⟨rfl, rfl⟩ |
    ⟨rfl, rfl⟩
  · exact ⟨by decide, hbool _, by decide⟩
  · exact ⟨by decide, h.1, by decide⟩
  · exact ⟨by decide, h.2, by decide⟩
  all_goals exact ⟨by decide, PageRate.not_infix _, by decide⟩

theorem cleanFields_global (upload download : PageNumber) :
    CleanFields (globalFields upload download) := by
  intro k s hmem
  simp only [globalFields, List.mem_cons, List.not_mem_nil, or_false, Prod.mk.injEq] at hmem
  rcases hmem with ⟨rfl, rfl⟩ | ⟨rfl, rfl⟩
  all_goals exact ⟨by decide, PageNumber.not_infix _, by decide⟩

theorem clean_noEntries : Clean (noEntries : PathTree ν) := by
  constructor
  · intro p n hn
    cases p with
    | nil =>
      obtain rfl := Option.some.inj hn
      exact ⟨by simp, by simp⟩
    | cons key p => cases hn
  · intro p s hs
    cases p <;> cases hs

theorem Clean.override {fields : List (Str × Str)} {D : PathTree ν} (hf : CleanFields fields)
    (hD : Clean D) : Clean (override fields D) := by
  constructor
  · intro p n hn
    match p with
    | [] => exact hD.noBraces [] n hn
    | .index i :: p => exact hD.noBraces (.index i :: p) n hn
    | .field k :: p =>
      rw [override_field] at hn
      cases hk : lookup k fields with
      | none =>
        rw [hk] at hn
        exact hD.noBraces (.field k :: p) n hn
      | some t =>
        rw [hk] at hn
        obtain ⟨rfl, rfl⟩ := str_tree_eq_some.mp hn
        obtain ⟨hkey, htext, -⟩ := hf k t (mem_of_lookup hk)
        exact ⟨by simpa using hkey, by simpa using htext⟩
  · intro p s hs hword hlast
    match p with
    | [] => exact hD.names [] s hs hword hlast
    | .index i :: p => exact hD.names (.index i :: p) s hs hword hlast
    | .field k :: p =>
      rw [override_field] at hs
      cases hk : lookup k fields with
      | none =>
        rw [hk] at hs
        exact hD.names (.field k :: p) s hs hword hlast
      | some t =>
        rw [hk] at hs
        obtain ⟨rfl, -⟩ := str_tree_eq_some.mp hs
        exact decide_eq_true ((hf k t (mem_of_lookup hk)).2.2 (of_decide_eq_true hlast))

theorem Clean.turnedEnabled {D : PathTree ν} (h : Clean D) : Clean (turnedEnabled D) := by
  constructor
  · intro p n hn
    obtain ⟨m, hm⟩ : ∃ m, D p = some m := by
      rw [← Option.ne_none_iff_exists']
      intro hnone
      rw [Puppies.turnedEnabled, turned_eq_none_iff.mpr hnone] at hn
      cases hn
    refine ⟨(h.noBraces p m hm).1, ?_⟩
    rintro s rfl
    exact (h.noBraces p _ (str_of_turned hn)).2 s rfl
  · intro p s hs
    exact h.names p s (str_of_turned hs)

/-- What is in a list of rules is in a rule. -/
theorem Clean.listTree {Ds : List (PathTree ν)} (h : ∀ D ∈ Ds, Clean D) : Clean (listTree Ds) := by
  constructor
  · intro p n hn
    match p with
    | [] =>
      obtain rfl := Option.some.inj hn
      exact ⟨by simp, by simp⟩
    | .field k :: p => cases hn
    | .index i :: p =>
      obtain ⟨D, hD, hp⟩ := Option.bind_eq_some_iff.mp hn
      simpa using (h D (List.mem_of_getElem? hD)).noBraces p n hp
  · intro p s hs hword hlast
    match p with
    | [] => cases hs
    | .field k :: p => cases hs
    | .index i :: p =>
      obtain ⟨D, hD, hp⟩ := Option.bind_eq_some_iff.mp hs
      rw [lastField_index] at hlast ⊢
      exact (h D (List.mem_of_getElem? hD)).names p s hp hword hlast

/-- A file is clean if its rules and its fields are. -/
theorem clean_confTree {c : RuleConf ν} (hrules : ∀ D ∈ c.rules, Clean D)
    (hfields : Clean c.fields) : Clean c.tree := by
  have hlist := Clean.listTree hrules
  constructor
  · intro p n hn
    rcases p with - | ⟨k | i, p⟩
    · obtain rfl := Option.some.inj hn
      exact ⟨by simp, by simp⟩
    · rw [RuleConf.tree] at hn
      split at hn
      · rename_i hk
        subst hk
        obtain ⟨hkeys, hstr⟩ := hlist.noBraces p n hn
        refine ⟨?_, hstr⟩
        intro k hmem
        rcases List.mem_cons.mp hmem with heq | hmem
        · obtain rfl := Key.field.inj heq
          decide
        · exact hkeys k hmem
      · exact hfields.noBraces _ n hn
    · cases hn
  · intro p s hs hword hlast
    rcases p with - | ⟨k | i, p⟩
    · cases hs
    · rw [RuleConf.tree] at hs
      split at hs
      · rename_i hk
        subst hk
        have hp : p ≠ [] := by
          rintro rfl
          cases hs
        rw [lastField_field hp] at hlast ⊢
        exact hlist.names p s hs hword hlast
      · exact hfields.names _ s hs hword hlast
    · cases hs

theorem PageRule.clean {rule : PageRule} (h : rule.NoBraces) : Clean (rule.tree : PathTree ν) :=
  (Clean.override (PageRule.cleanFields h) clean_noEntries).turnedEnabled

/-- **What a request saves is clean**, whatever it is. -/
theorem clean_edit {c : PageConf} (hc : c.NoBraces) {a : PageAction} (ha : a.NoBraces)
    {c' : RuleConf ν} (h : (c.conf : RuleConf ν).edit a.request.1 = some c') : Clean c'.tree := by
  have hrules : ∀ D ∈ (c.conf : RuleConf ν).rules, Clean D := by
    intro D hD
    obtain ⟨rule, hrule, rfl⟩ := List.mem_map.mp hD
    exact PageRule.clean (hc rule hrule)
  have hfields : Clean (c.conf : RuleConf ν).fields :=
    Clean.override (cleanFields_global _ _) clean_noEntries
  cases a with
  | addNew rule =>
    simp only [PageAction.request, RuleConf.edit, Option.ite_none_left_eq_some,
      Option.some.injEq] at h
    obtain ⟨-, rfl⟩ := h
    refine clean_confTree ?_ hfields
    intro D hD
    rcases List.mem_append.mp hD with hD | hD
    · exact hrules D hD
    · rw [List.mem_singleton.mp hD]
      exact Clean.override (PageRule.cleanFields ha) clean_noEntries
  | edit rule =>
    simp only [PageAction.request, RuleConf.edit, Option.ite_none_right_eq_some,
      Option.some.injEq] at h
    obtain ⟨-, rfl⟩ := h
    refine clean_confTree ?_ hfields
    intro D hD
    obtain ⟨E, hE, rfl⟩ := List.mem_map.mp hD
    split
    · exact Clean.override (PageRule.cleanFields ha) (hrules E hE)
    · exact hrules E hE
  | setDel name =>
    simp only [PageAction.request, RuleConf.edit, Option.ite_none_right_eq_some,
      Option.some.injEq] at h
    obtain ⟨-, rfl⟩ := h
    exact clean_confTree (fun D hD => hrules D (List.mem_of_mem_filter hD)) hfields
  | setEnable name en =>
    have hname : (Form.mk [(nameKey, name), (enabledKey, boolWord !en)]).name = some name := rfl
    simp only [PageAction.request, RuleConf.edit, Option.ite_none_right_eq_some,
      Option.some.injEq, hasName_conf c hname] at h
    obtain ⟨hmem, rfl⟩ := h
    -- the name is that of a rule
    obtain ⟨rule, hrule, rfl⟩ := hmem
    have hswitch : CleanFields [(nameKey, rule.name), (enabledKey, boolWord !en)] := by
      intro k s hks
      simp only [List.mem_cons, List.not_mem_nil, or_false, Prod.mk.injEq] at hks
      rcases hks with ⟨rfl, rfl⟩ | ⟨rfl, rfl⟩
      · exact ⟨by decide, (hc rule hrule).2, by decide⟩
      · exact ⟨by decide, by cases en <;> decide, by decide⟩
    refine clean_confTree ?_ hfields
    intro D hD
    obtain ⟨E, hE, rfl⟩ := List.mem_map.mp hD
    split
    · exact Clean.override hswitch (hrules E hE)
    · exact hrules E hE
  | saveConf upload download =>
    obtain rfl := Option.some.inj h
    exact clean_confTree hrules (Clean.override (cleanFields_global _ _) hfields)

/-- It stays so on the page. -/
theorem PageConf.NoBraces.step {c : PageConf} (hc : c.NoBraces) {a : PageAction}
    (ha : a.NoBraces) : (c.step a).1.NoBraces := by
  rw [PageConf.step]
  cases he : c.edited a with
  | none => exact hc
  | some c' =>
    cases a with
    | addNew rule =>
      simp only [PageConf.edited, Option.ite_none_left_eq_some, Option.some.injEq] at he
      obtain ⟨-, rfl⟩ := he
      intro r hr
      rcases List.mem_append.mp hr with hr | hr
      · exact hc r hr
      · rw [List.mem_singleton.mp hr]
        exact ha
    | edit rule =>
      simp only [PageConf.edited, Option.ite_none_right_eq_some, Option.some.injEq] at he
      obtain ⟨-, rfl⟩ := he
      intro r hr
      obtain ⟨q, hq, rfl⟩ := List.mem_map.mp hr
      split
      · exact ha
      · exact hc q hq
    | setDel name =>
      simp only [PageConf.edited, Option.ite_none_right_eq_some, Option.some.injEq] at he
      obtain ⟨-, rfl⟩ := he
      exact fun r hr => hc r (List.mem_of_mem_filter hr)
    | setEnable name en =>
      simp only [PageConf.edited, Option.ite_none_right_eq_some, Option.some.injEq] at he
      obtain ⟨-, rfl⟩ := he
      intro r hr
      obtain ⟨q, hq, rfl⟩ := List.mem_map.mp hr
      split
      · exact hc q hq
      · exact hc q hq
    | saveConf upload download =>
      obtain rfl := Option.some.inj he
      exact hc

/-! ## 5. What is read back -/

/-- An element of `Rules` has the fields of a rule. -/
structure IsPageRule (rule : PageRule) (ms : List (Str × Value ν)) : Prop where
  enabled : lookup enabledKey ms = some (.bool rule.enabled)
  texts : ∀ k s, k ≠ enabledKey → lookup k rule.fields = some s → lookup k ms = some (.str s)

theorem lookup_of_tree {ms : List (Str × Value ν)} {k : Str} {n : Node ν}
    (h : (Value.obj ms).tree [.field k] = some n) :
    ∃ v, lookup k ms = some v ∧ v.node = n := by
  rw [Value.tree_obj_field, Option.bind_eq_some_iff] at h
  obtain ⟨v, hv, hn⟩ := h
  exact ⟨v, hv, Option.some.inj hn⟩

/-- **An element with the tree of a rule** has its fields. -/
theorem isPageRule_of_tree {rule : PageRule} {v : Value ν} (h : v.tree = rule.tree) :
    ∃ ms, v = .obj ms ∧ IsPageRule rule ms := by
  obtain ⟨ms, rfl, -⟩ := obj_of_ruleName (v := v) (s := rule.name) (by rw [h, ruleName_tree])
  refine ⟨ms, rfl, ?_, ?_⟩
  · have hat : (rule.tree : PathTree ν) [.field enabledKey] = some (.bool rule.enabled) := by
      have hover : override rule.fields (noEntries : PathTree ν) [.field enabledKey] =
          some (.str (boolWord rule.enabled)) := rfl
      have hlast : lastField (fun k => k = enabledKey) [.field enabledKey] = true := rfl
      rw [PageRule.tree, turnedEnabled, turned_of_str hover, hlast, if_pos rfl, toBool_boolWord]
    obtain ⟨x, hx, hnode⟩ := lookup_of_tree (h ▸ hat)
    rw [hx, eq_of_node.2 _ hnode]
  · intro k s hk hs
    have hat : (rule.tree : PathTree ν) [.field k] = some (.str s) := by
      have hover : override rule.fields (noEntries : PathTree ν) [.field k] =
          some (.str s) := by
        rw [override_field, hs]
        rfl
      have hlast : lastField (fun k => k = enabledKey) [.field k] = false := decide_eq_false hk
      rw [PageRule.tree, turnedEnabled, turned_of_str hover, hlast, if_neg Bool.false_ne_true]
    obtain ⟨x, hx, hnode⟩ := lookup_of_tree (h ▸ hat)
    rw [hx, eq_of_node.1 _ hnode]

theorem isPageRules_of_trees {rules : List PageRule} {vs : List (Value ν)}
    (h : vs.map Value.tree = rules.map PageRule.tree) :
    ∃ mss, vs = mss.map Value.obj ∧ List.Forall₂ IsPageRule rules mss := by
  induction rules generalizing vs with
  | nil => exact ⟨[], List.map_eq_nil_iff.mp h, .nil⟩
  | cons rule rules ih =>
    obtain ⟨v, vs, rfl, hv, hvs⟩ := List.map_eq_cons_iff.mp h
    obtain ⟨ms, rfl, hms⟩ := isPageRule_of_tree hv
    obtain ⟨mss, rfl, hmss⟩ := ih hvs
    exact ⟨ms :: mss, rfl, .cons hms hmss⟩

/-- A table has the fields of the page. -/
structure IsPageConf (c : PageConf) (ms : List (Str × Value ν))
    (mss : List (List (Str × Value ν))) : Prop where
  globalSharedUpload : lookup globalSharedUploadKey ms = some (.str c.globalSharedUpload.mbps)
  globalSharedDownload :
    lookup globalSharedDownloadKey ms = some (.str c.globalSharedDownload.mbps)
  rules : ∃ r, lookup rulesKey ms = some r ∧ ipairs r = some (mss.map Value.obj)
  elems : List.Forall₂ IsPageRule c.rules mss

theorem isPageConf_of_tree {c : PageConf} {v : Value ν} (h : v.tree = (c.conf : RuleConf ν).tree) :
    ∃ ms mss, v = .obj ms ∧ IsPageConf c ms mss := by
  obtain ⟨ms, r, rfl, hr, hrtree⟩ := obj_of_tree h
  have hnamed : ∀ D ∈ (c.conf : RuleConf ν).rules, ∃ s, ruleName D = some s := by
    intro D hD
    obtain ⟨rule, -, rfl⟩ := List.mem_map.mp hD
    exact ⟨_, ruleName_tree rule⟩
  obtain ⟨vs, hvs, hmap⟩ := asList_of_tree hrtree hnamed
  obtain ⟨mss, rfl, helems⟩ := isPageRules_of_trees hmap
  have hat : ∀ k s, k ≠ rulesKey →
      lookup k (globalFields c.globalSharedUpload c.globalSharedDownload) = some s →
      lookup k ms = some (.str s) := by
    intro k s hk hs
    have hfields : (c.conf : RuleConf ν).fields [.field k] = some (.str s) := by
      have hover := override_field (globalFields c.globalSharedUpload c.globalSharedDownload)
        (noEntries : PathTree ν) k []
      rw [hs] at hover
      exact hover
    have htree : (Value.obj ms).tree [.field k] = some (.str s) := by
      rw [h, RuleConf.tree, if_neg hk, hfields]
    obtain ⟨x, hx, hnode⟩ := lookup_of_tree htree
    rw [hx, eq_of_node.1 _ hnode]
  exact ⟨ms, mss, rfl, hat _ _ (by decide) rfl, hat _ _ (by decide) rfl,
    ⟨r, hr, ipairs_of_asList hvs⟩, helems⟩

/-- A rule of a table that the page shows: the texts, and the rates with their units. -/
structure ShownRule where
  enabled : Bool
  ip : Str
  name : Str
  perIpDownload : Str × Str
  perIpUpload : Str × Str
  sharedDownload : Str × Str
  sharedUpload : Str × Str
  deriving DecidableEq

/-- What the page shows. -/
structure ShownConf where
  globalSharedDownload : Str × Str
  globalSharedUpload : Str × Str
  rules : List ShownRule
  deriving DecidableEq

/-- A text among the fields. -/
def shownText (k : Str) (v : Value ν) : Option Str := do rateArg (← luaIndex k v)

/-- A text that is taken apart. -/
def shownRate (k : Str) (v : Value ν) : Option (Str × Str) := do fixUnit (← shownText k v)

/-- `d.toString() == "true"` -/
def shownEnabled (v : Value ν) : Option Bool := do
  match ← luaIndex enabledKey v with
  | some (.bool b) => return b
  | some (.str s) => return decide (s = boolWord true)
  | _ => none

/-- `set_edit`, of an element of `oConf.Rules`. -/
def shownRule (v : Value ν) : Option ShownRule := do
  return {
    enabled := ← shownEnabled v
    ip := ← shownText ipKey v
    name := ← shownText nameKey v
    perIpDownload := ← shownRate perIpDownloadKey v
    perIpUpload := ← shownRate perIpUploadKey v
    sharedDownload := ← shownRate sharedDownloadKey v
    sharedUpload := ← shownRate sharedUploadKey v }

/-- `initData`, of what `get_flow` sends. -/
def shownConf (v : Value ν) : Option ShownConf := do
  let rules ← luaIndex rulesKey v
  let rules ← rules
  return {
    globalSharedDownload := ← shownRate globalSharedDownloadKey v
    globalSharedUpload := ← shownRate globalSharedUploadKey v
    rules := ← (← ipairs rules).mapM shownRule }

/-- How a rate is shown. -/
def PageRate.shown (r : PageRate) : Str × Str := (r.number.digits, r.unit.text)

/-- How a rule is shown. -/
def PageRule.shown (rule : PageRule) : ShownRule where
  enabled := rule.enabled
  ip := rule.ip
  name := rule.name
  perIpDownload := rule.perIpDownload.shown
  perIpUpload := rule.perIpUpload.shown
  sharedDownload := rule.sharedDownload.shown
  sharedUpload := rule.sharedUpload.shown

/-- How all of it is shown. -/
def PageConf.shown (c : PageConf) : ShownConf where
  globalSharedDownload := (c.globalSharedDownload.digits, ascii "Mbps")
  globalSharedUpload := (c.globalSharedUpload.digits, ascii "Mbps")
  rules := c.rules.map PageRule.shown

theorem IsPageRule.shown {rule : PageRule} {ms : List (Str × Value ν)} (h : IsPageRule rule ms) :
    shownRule (.obj ms) = some rule.shown := by
  have htext : ∀ k s, k ≠ enabledKey → lookup k rule.fields = some s →
      shownText k (.obj ms) = some s := by
    intro k s hk hs
    rw [shownText, luaIndex, h.texts k s hk hs]
    rfl
  have hrate : ∀ k (r : PageRate), k ≠ enabledKey → lookup k rule.fields = some r.text →
      shownRate k (.obj ms) = some r.shown := by
    intro k r hk hs
    rw [shownRate, htext k _ hk hs]
    exact fixUnit_text r
  have henabled : shownEnabled (.obj ms) = some rule.enabled := by
    rw [shownEnabled, luaIndex, h.enabled]
    rfl
  rw [shownRule, henabled, htext ipKey rule.ip (by decide) rfl,
    htext nameKey rule.name (by decide) rfl,
    hrate perIpDownloadKey rule.perIpDownload (by decide) rfl,
    hrate perIpUploadKey rule.perIpUpload (by decide) rfl,
    hrate sharedDownloadKey rule.sharedDownload (by decide) rfl,
    hrate sharedUploadKey rule.sharedUpload (by decide) rfl]
  rfl

theorem shownRules_eq {rules : List PageRule} {mss : List (List (Str × Value ν))}
    (h : List.Forall₂ IsPageRule rules mss) :
    (mss.map Value.obj).mapM shownRule = some (rules.map PageRule.shown) := by
  induction h with
  | nil => rfl
  | cons hr _ ih =>
    rw [List.map_cons, List.mapM_cons, hr.shown, ih]
    rfl

/-- **The page shows what was typed.** -/
theorem IsPageConf.shown {c : PageConf} {ms : List (Str × Value ν)}
    {mss : List (List (Str × Value ν))} (h : IsPageConf c ms mss) :
    shownConf (.obj ms) = some c.shown := by
  have hrate : ∀ k (n : PageNumber), lookup k ms = some (.str n.mbps) →
      shownRate k (.obj ms) = some (n.digits, ascii "Mbps") := by
    intro k n hs
    rw [shownRate, shownText, luaIndex, hs]
    exact fixUnit_mbps n
  obtain ⟨r, hr, hipairs⟩ := h.rules
  rw [shownConf, luaIndex, hr, hrate _ _ h.globalSharedDownload, hrate _ _ h.globalSharedUpload]
  simp only [Option.bind_eq_bind, Option.bind_some, hipairs, shownRules_eq h.elems]
  rfl

/-! ## 6. What is enforced -/

/-- The entry of a rule that is switched on. -/
def PageRule.entry (rule : PageRule) : TbqRule ν where
  name := ascii "UI-<" ++ formatStr rule.name ++ ascii ">"
  ipIncluded := [.str rule.ip]
  ipExcluded := []
  appIncluded := []
  appExcluded := []
  uploadLimit := ⟨tbqRate rule.sharedUpload.bytes, tbqRate rule.perIpUpload.bytes⟩
  downloadLimit := ⟨tbqRate rule.sharedDownload.bytes, tbqRate rule.perIpDownload.bytes⟩

/-- The entry for all traffic. -/
def PageConf.globalEntry (c : PageConf) : TbqRule ν where
  name := ascii "UI-GLOBAL"
  ipIncluded := []
  ipExcluded := []
  appIncluded := []
  appExcluded := []
  uploadLimit := ⟨tbqRate c.globalSharedUpload.mbpsBytes, tbqRate c.globalSharedUpload.mbpsBytes⟩
  downloadLimit :=
    ⟨tbqRate c.globalSharedDownload.mbpsBytes, tbqRate c.globalSharedDownload.mbpsBytes⟩

/-- The table for the kernel module. -/
def PageConf.table (env : ConvertEnv ν) (c : PageConf) : TbqCfg ν where
  maxBacklogPackets := env.backlog
  rules := c.globalEntry :: (c.rules.filter PageRule.enabled).map PageRule.entry
  lan := ifaceText env (getIface env.ipRo).1
  wan := ifaceText env (getIface env.ipRo).2

/-- A rule of the page, as one of the web pages. -/
def PageRule.web (rule : PageRule) : WebRule where
  enabled := .bool rule.enabled
  name := rule.name
  ip := rule.ip
  sharedUpload := rule.sharedUpload.text
  sharedDownload := rule.sharedDownload.text
  perIpUpload := rule.perIpUpload.text
  perIpDownload := rule.perIpDownload.text

theorem enforced_web (rule : PageRule) : (enforced rule.web : TbqRule ν) = rule.entry := by
  simp only [enforced, PageRule.web, tbqRateFromTCRate_text, PageRule.entry]

theorem IsPageRule.readBack {rule : PageRule} {ms : List (Str × Value ν)}
    (h : IsPageRule rule ms) : ReadBack rule.web (.obj ms) where
  noText := rfl
  enabled := congrArg some h.enabled
  texts := fun _ => ⟨ms, rfl,
    { name := h.texts nameKey rule.name (by decide) rfl
      ip := h.texts ipKey rule.ip (by decide) rfl
      sharedUpload := h.texts sharedUploadKey rule.sharedUpload.text (by decide) rfl
      sharedDownload := h.texts sharedDownloadKey rule.sharedDownload.text (by decide) rfl
      perIpUpload := h.texts perIpUploadKey rule.perIpUpload.text (by decide) rfl
      perIpDownload := h.texts perIpDownloadKey rule.perIpDownload.text (by decide) rfl }⟩

/-- **The table is the one that is meant.** -/
theorem tbqcfg_page (env : ConvertEnv ν) (cj : Codec ν) {s : Str} {c : PageConf}
    {ms : List (Str × Value ν)} {mss : List (List (Str × Value ν))}
    (hs : cj.decode s = some (.obj ms)) (h : IsPageConf c ms mss) :
    tbqcfg env cj s = some (c.table env) := by
  obtain ⟨r, hr, hipairs⟩ := h.rules
  have hread : List.Forall₂ ReadBack (c.rules.map PageRule.web) (mss.map Value.obj) := by
    rw [List.forall₂_map_left_iff, List.forall₂_map_right_iff]
    exact h.elems.imp fun _ _ hr => hr.readBack
  have hglobal : (globalRule c.globalSharedUpload.mbps c.globalSharedDownload.mbps : TbqRule ν) =
      c.globalEntry := by
    simp only [globalRule, tbqRateFromTCRate_mbps, PageConf.globalEntry]
    rfl
  have hentries : ((c.rules.map PageRule.web).filter fun r => r.enabled.enabled).map
      (enforced (ν := ν)) = (c.rules.filter PageRule.enabled).map PageRule.entry := by
    rw [List.filter_map, List.map_map]
    exact List.map_congr_left fun rule _ => enforced_web rule
  rw [tbqcfg_eq env cj hs h.globalSharedUpload h.globalSharedDownload hr hipairs hread, hglobal,
    hentries]
  rfl

/-! ## 7. The text for the kernel module -/

/-- What `{}` is across a border. -/
theorem infix_append_cases {s t : Str} (h : emptyObj <:+: s ++ t) :
    emptyObj <:+: s ∨ emptyObj <:+: t ∨ s.getLast? = some 0x7b ∧ t.head? = some 0x7d := by
  induction s with
  | nil => exact Or.inr (Or.inl h)
  | cons c s ih =>
    rw [List.cons_append, List.infix_cons_iff] at h
    rcases h with hpre | hinf
    · obtain ⟨rfl, htail⟩ := List.cons_prefix_cons.mp hpre
      cases s with
      | nil =>
        right
        right
        refine ⟨rfl, ?_⟩
        rw [List.nil_append] at htail
        cases t with
        | nil => exact absurd (List.prefix_nil.mp htail) (by simp)
        | cons d t => rw [List.head?_cons, ← (List.cons_prefix_cons.mp htail).1]
      | cons d s =>
        obtain ⟨rfl, -⟩ := List.cons_prefix_cons.mp htail
        exact Or.inl ⟨[], s, rfl⟩
    · rcases ih hinf with hs | ht | ⟨hlast, hhead⟩
      · exact Or.inl (List.infix_cons hs)
      · exact Or.inr (Or.inl ht)
      · refine Or.inr (Or.inr ⟨?_, hhead⟩)
        cases s with
        | nil => cases hlast
        | cons d s => rwa [List.getLast?_cons_cons]

/-- The name of an entry. -/
theorem not_infix_uiName {name : Str} (h : ¬ emptyObj <:+: name) :
    ¬ emptyObj <:+: ascii "UI-<" ++ formatStr name ++ ascii ">" := by
  have hformat : ¬ emptyObj <:+: formatStr name := by
    unfold formatStr
    split
    · exact h
    · exact fun hinf => h (hinf.trans (List.takeWhile_prefix _).isInfix)
  intro hinf
  rcases infix_append_cases hinf with hinf | hinf | ⟨-, hhead⟩
  · rcases infix_append_cases hinf with hinf | hinf | ⟨hlast, -⟩
    · revert hinf
      decide
    · exact hformat hinf
    · cases hlast
  · revert hinf
    decide
  · cases hhead

theorem not_infix_tbqRate (num : Nat) : ¬ emptyObj <:+: tbqRate num := by
  have hdigits : ∀ n, (0x7b : Byte) ∉ CText.numeral 10 n := by
    intro n hmem
    exact absurd (CText.digit_of_mem_numeral (by decide) (by decide) _ hmem) (by decide)
  have happend : ∀ n (t : Str), (0x7b : Byte) ∉ t →
      ¬ emptyObj <:+: CText.numeral 10 n ++ t := by
    intro n t ht
    apply not_infix_of_not_mem
    rw [List.mem_append, not_or]
    exact ⟨hdigits n, ht⟩
  unfold tbqRate
  split
  · exact happend _ _ (by decide)
  split
  · exact happend _ _ (by decide)
  split
  · exact happend _ _ (by decide)
  · exact not_infix_of_not_mem (hdigits num)

section Trees

theorem noBraces_str {s : Str} (h : ¬ emptyObj <:+: s) : NoBraces (Value.str s : Value ν).tree := by
  intro p n hn
  obtain ⟨rfl, rfl⟩ := str_tree_eq_some.mp hn
  exact ⟨by simp, by simpa using h⟩

theorem noBraces_arr {vs : List (Value ν)} (h : ∀ v ∈ vs, NoBraces v.tree) :
    NoBraces (Value.arr vs).tree := by
  intro p n hn
  match p with
  | [] =>
    obtain rfl := Option.some.inj hn
    exact ⟨by simp, by simp [Value.node]⟩
  | .field k :: p => simp at hn
  | .index i :: p =>
    rw [Value.tree_arr_index, Option.bind_eq_some_iff] at hn
    obtain ⟨v, hv, hp⟩ := hn
    simpa using h v (List.mem_of_getElem? hv) p n hp

theorem noBraces_obj {ms : List (Str × Value ν)}
    (h : ∀ k v, (k, v) ∈ ms → ¬ emptyObj <:+: k ∧ NoBraces v.tree) :
    NoBraces (Value.obj ms).tree := by
  intro p n hn
  match p with
  | [] =>
    obtain rfl := Option.some.inj hn
    exact ⟨by simp, by simp [Value.node]⟩
  | .index i :: p => simp at hn
  | .field k :: p =>
    rw [Value.tree_obj_field, Option.bind_eq_some_iff] at hn
    obtain ⟨v, hv, hp⟩ := hn
    obtain ⟨hk, hbelow⟩ := h k v (mem_of_lookup hv)
    obtain ⟨hkeys, hstr⟩ := hbelow p n hp
    refine ⟨?_, hstr⟩
    intro k' hk'
    rcases List.mem_cons.mp hk' with heq | hmem
    · obtain rfl := Key.field.inj heq
      exact hk
    · exact hkeys k' hmem

end Trees

theorem noBraces_num (x : ν) : NoBraces (Value.num x : Value ν).tree := by
  intro p n hn
  cases p with
  | nil =>
    obtain rfl := Option.some.inj hn
    exact ⟨by simp, by simp [Value.node]⟩
  | cons key p => cases key <;> simp [Value.tree] at hn

theorem noBraces_limit (limit : TbqLimit) (hs : ¬ emptyObj <:+: limit.shared)
    (hp : ¬ emptyObj <:+: limit.perIp) : NoBraces (limit.table : Value ν).tree := by
  apply noBraces_obj
  intro k v hmem
  simp only [List.mem_cons, List.not_mem_nil, or_false, Prod.mk.injEq] at hmem
  rcases hmem with ⟨rfl, rfl⟩ | ⟨rfl, rfl⟩
  · exact ⟨by decide, noBraces_str hs⟩
  · exact ⟨by decide, noBraces_str hp⟩

theorem noBraces_rule {rule : TbqRule ν} (hname : ¬ emptyObj <:+: rule.name)
    (hips : ∀ v ∈ rule.ipIncluded, NoBraces v.tree) (hothers : rule.ipExcluded = [] ∧
      rule.appIncluded = [] ∧ rule.appExcluded = [])
    (hup : NoBraces (rule.uploadLimit.table : Value ν).tree)
    (hdown : NoBraces (rule.downloadLimit.table : Value ν).tree) : NoBraces rule.table.tree := by
  have hnil : NoBraces (Value.arr [] : Value ν).tree := noBraces_arr (by simp)
  obtain ⟨h₁, h₂, h₃⟩ := hothers
  rw [TbqRule.table, h₁, h₂, h₃]
  apply noBraces_obj
  intro k v hmem
  simp only [List.mem_cons, List.not_mem_nil, or_false, Prod.mk.injEq] at hmem
  rcases hmem with ⟨rfl, rfl⟩ | ⟨rfl, rfl⟩ | ⟨rfl, rfl⟩ | ⟨rfl, rfl⟩ | ⟨rfl, rfl⟩ | ⟨rfl, rfl⟩ |
    ⟨rfl, rfl⟩
  · exact ⟨by decide, noBraces_str hname⟩
  · exact ⟨by decide, noBraces_arr hips⟩
  · exact ⟨by decide, hnil⟩
  · exact ⟨by decide, hnil⟩
  · exact ⟨by decide, hnil⟩
  · exact ⟨by decide, hup⟩
  · exact ⟨by decide, hdown⟩

/-- **Nothing in the table is substituted** either, if it is not the name of an interface. -/
theorem noBraces_table (env : ConvertEnv ν) {c : PageConf} (hc : c.NoBraces)
    (hlan : ¬ emptyObj <:+: ifaceText env (getIface env.ipRo).1)
    (hwan : ¬ emptyObj <:+: ifaceText env (getIface env.ipRo).2) :
    NoBraces (c.table env).table.tree := by
  have hlimit : ∀ shared perIp : Nat,
      NoBraces ((⟨tbqRate shared, tbqRate perIp⟩ : TbqLimit).table : Value ν).tree :=
    fun _ _ => noBraces_limit _ (not_infix_tbqRate _) (not_infix_tbqRate _)
  have hrules : ∀ v ∈ (c.table env).rules.map TbqRule.table, NoBraces v.tree := by
    intro v hv
    obtain ⟨entry, hentry, rfl⟩ := List.mem_map.mp hv
    rcases List.mem_cons.mp hentry with rfl | hentry
    · have hname : ¬ emptyObj <:+: ascii "UI-GLOBAL" := by decide
      exact noBraces_rule hname (by simp [PageConf.globalEntry]) ⟨rfl, rfl, rfl⟩
        (hlimit _ _) (hlimit _ _)
    · obtain ⟨rule, hrule, rfl⟩ := List.mem_map.mp hentry
      obtain ⟨hip, hname⟩ := hc rule (List.mem_of_mem_filter hrule)
      refine noBraces_rule (not_infix_uiName hname) ?_ ⟨rfl, rfl, rfl⟩ (hlimit _ _) (hlimit _ _)
      intro v hv
      rw [List.mem_singleton.mp hv]
      exact noBraces_str hip
  apply noBraces_obj
  intro k v hmem
  simp only [List.mem_cons, List.not_mem_nil, or_false, Prod.mk.injEq] at hmem
  rcases hmem with ⟨rfl, rfl⟩ | ⟨rfl, rfl⟩ | ⟨rfl, rfl⟩ | ⟨rfl, rfl⟩
  · exact ⟨by decide, noBraces_num _⟩
  · exact ⟨by decide, noBraces_arr hrules⟩
  · exact ⟨by decide, noBraces_str hlan⟩
  · exact ⟨by decide, noBraces_str hwan⟩

/-! ## 8. Sequences of clicks -/

/-- One click: the file, and the `state` of the answer if there was a request. -/
def pageHandle (cj : Codec ν) (file : Option Str) (click : PageClick) :
    Option (Option Str × Option (Option Nat)) :=
  if click.sends then
    let (answer, file) := ruleHandle cj click.action.request.1 file
    some (file, some answer)
  else some (file, none)

/-- What each click keeps. -/
structure PageInv (cj : Codec ν) (file : Option Str) (c : PageConf) : Prop where
  holds : Holds cj file (c.conf : RuleConf ν)
  distinct : NamesDistinct (c.conf : RuleConf ν)
  noBraces : c.NoBraces

/-- **One request.** -/
theorem ruleHandle_step {cj : Codec ν} {file : Option Str} {c : PageConf}
    (h : PageInv cj file c) {a : PageAction} (ha : a.NoBraces) :
    (ruleHandle cj a.request.1 file).1 = some (c.step a).2 ∧
      PageInv cj (ruleHandle cj a.request.1 file).2 (c.step a).1 := by
  have hstart : StoreOk cj ⟨file, none, c.conf, none⟩ := ⟨h.holds, rfl, h.distinct⟩
  obtain ⟨t, ht⟩ : ∃ t, storeStep cj ⟨file, none, c.conf, none⟩ a.request = some t := ⟨_, rfl⟩
  have hok := (storeStep_ok_iff hstart ht).mpr fun c' hc' => clean_edit h.noBraces ha hc'
  rw [storeStep, step_conf, Option.some.injEq] at ht
  obtain rfl := ht
  exact ⟨hok.answer, hok.holds, hok.distinct, h.noBraces.step ha⟩

/-- **One click.** -/
theorem pageHandle_step {cj : Codec ν} {file : Option Str} {c : PageConf}
    (h : PageInv cj file c) {click : PageClick} (hclick : click.action.NoBraces) :
    ∃ file', pageHandle cj file click = some (file', (c.click click).2.map some) ∧
      PageInv cj file' (c.click click).1 := by
  rw [pageHandle, PageConf.click]
  split
  · obtain ⟨hanswer, hinv⟩ := ruleHandle_step h hclick
    exact ⟨_, congrArg (fun answer => some (_, some answer)) hanswer, hinv⟩
  · exact ⟨file, rfl, h⟩

/-- **All clicks.** -/
theorem pageHandle_answers {cj : Codec ν} {clicks : List PageClick} {file : Option Str}
    {c : PageConf} (h : PageInv cj file c) (hclicks : ∀ click ∈ clicks, click.action.NoBraces) :
    ∃ file' c' ws, answers (pageHandle cj) file clicks = some (file', ws.map (Option.map some)) ∧
      answers (fun c click => some (PageConf.click c click)) c clicks = some (c', ws) ∧
      PageInv cj file' c' := by
  induction clicks generalizing file c with
  | nil => exact ⟨file, c, [], rfl, rfl, h⟩
  | cons click clicks ih =>
    obtain ⟨file₁, hhandle, h₁⟩ := pageHandle_step h (hclicks click List.mem_cons_self)
    obtain ⟨file', c', ws, hfile, hconf, h'⟩ :=
      ih h₁ fun other hother => hclicks other (List.mem_cons_of_mem _ hother)
    exact ⟨file', c', (c.click click).2 :: ws, answers_cons hhandle hfile,
      answers_cons rfl hconf, h'⟩

/-- The file as it is installed has what a page without rules shows. -/
theorem holds_of_decode {cj : Codec ν} {s : Str} (download upload : PageNumber)
    (h : cj.decode s = some (.obj [(globalSharedDownloadKey, .str download.mbps),
      (globalSharedUploadKey, .str upload.mbps), (rulesKey, .arr [])])) :
    Holds cj (some s) ((⟨download, upload, []⟩ : PageConf).conf : RuleConf ν) := by
  refine ⟨s, _, rfl, h, ?_⟩
  funext p
  match p with
  | [] => rfl
  | .index i :: p => rfl
  | .field k :: p =>
    have hempty : (Value.arr [] : Value ν).tree = listTree [] := tree_arr_eq []
    rw [RuleConf.tree, Value.tree_obj_field]
    by_cases hk : k = rulesKey
    · subst hk
      rw [if_pos rfl]
      exact congrFun hempty p
    · have hfields : ∀ q, (⟨download, upload, []⟩ : PageConf).conf.fields (.field k :: q) =
          override (globalFields upload download) (noEntries : PathTree ν) (.field k :: q) :=
        fun _ => rfl
      rw [if_neg hk, hfields, override_field]
      by_cases hdown : k = globalSharedDownloadKey
      · subst hdown
        rfl
      · by_cases hup : k = globalSharedUploadKey
        · subst hup
          rfl
        · have hnone : lookup k (globalFields upload download) = none := by
            simp [globalFields, hdown, hup]
          rw [hnone]
          simp [hdown, hup, hk, noEntries]

/-- `tc.json`, without the blanks. -/
def tcJson : Str :=
  ascii "\x7b\"GlobalSharedDownload\":\"0Mbps\",\"GlobalSharedUpload\":\"0Mbps\",\"Rules\":[]\x7d"

/-- A number of one digit or more. -/
def pageNumber (s : Str) (h : s ≠ [] ∧ s.all luaDigit = true) : PageNumber :=
  ⟨s, h.1, fun c hc => List.all_eq_true.mp h.2 c hc⟩

/-- `300 MBytes` -/
def page300 : PageRate := ⟨pageNumber (ascii "300") (by decide), .mBytes⟩

/-- The rule `a`, with this rate everywhere. -/
def pageRule (rate : PageRate) : PageRule :=
  ⟨true, ascii "10.0.0.1", ascii "a", rate, rate, rate, rate⟩

end Puppies
