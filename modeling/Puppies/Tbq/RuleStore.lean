/-
# The file as an ordered map of rules

What the web pages want of the file is a list of rules in some order, each under a name of its
own, and some fields besides: `RuleConf`.  A rule is a tree here, what is at each path in it.
`RuleConf.edit` is what the requests are for, on such a list.

`handle_iff` compares it with what the handlers and `save_file` do: the file is again the one of the
list, with nothing but `Enabled` changed, exactly when the list that is saved is CLEAN, that is,
when the substitutions of `save_file` find nothing that they are not meant for.  It is enough that
ONE rule has `{}` in a string: it is changed when ANY rule is saved.
-/
import Puppies.Lib.Runs
import Puppies.Tbq.SaveFile

namespace Puppies

open ByteMem JsonText EventRun

variable {ν : Type}

/-! ## 1. Lists of rules -/

/-- The rules in their order, and the other fields. -/
structure RuleConf (ν : Type) where
  rules : List (PathTree ν)
  fields : PathTree ν

/-- The name of a rule. -/
def ruleName (D : PathTree ν) : Option Str :=
  match D [.field nameKey] with
  | some (.str s) => some s
  | _ => none

/-- A list of things. -/
def listTree (Ds : List (PathTree ν)) : PathTree ν
  | [] => some .table
  | .index i :: p => Ds[i]?.bind fun D => D p
  | .field _ :: _ => none

/-- All of it, as it is in the file. -/
def RuleConf.tree (c : RuleConf ν) : PathTree ν
  | [] => some .table
  | .field k :: p => if k = rulesKey then listTree c.rules p else c.fields (.field k :: p)
  | .index _ :: _ => none

/-- Each rule has a name, and no two have the same. -/
structure NamesDistinct (c : RuleConf ν) : Prop where
  named : ∀ D ∈ c.rules, ∃ s, ruleName D = some s
  nodup : (c.rules.map ruleName).Nodup

/-- A table without entries. -/
def noEntries : PathTree ν
  | [] => some .table
  | _ :: _ => none

/-- With these texts in the fields of these names. -/
def override (fields : List (Str × Str)) (D : PathTree ν) : PathTree ν
  | .field k :: p =>
    match lookup k fields with
    | some s => (Value.str s : Value ν).tree p
    | none => D (.field k :: p)
  | p => D p

/-- There is a rule with the name of the request. -/
def HasName (map : Form) (Ds : List (PathTree ν)) : Prop := ∃ D ∈ Ds, ruleName D = map.name

instance (map : Form) (Ds : List (PathTree ν)) : Decidable (HasName map Ds) :=
  inferInstanceAs (Decidable (∃ D ∈ Ds, ruleName D = map.name))

theorem hasName_nil (map : Form) : ¬ HasName map ([] : List (PathTree ν)) := by
  simp [HasName]

theorem hasName_cons {map : Form} {D : PathTree ν} {Ds : List (PathTree ν)} :
    HasName map (D :: Ds) ↔ ruleName D = map.name ∨ HasName map Ds := by
  simp [HasName]

namespace RuleConf

/-- What the requests are for: a new rule behind the others, with exactly the fields of the
request; these fields in the rule with the name of the request; this rule taken out; these fields
in the file.  `none` is a request that is refused. -/
def edit (c : RuleConf ν) : RuleRequest → Option (RuleConf ν)
  | .insRules map =>
    if HasName map c.rules then none
    else some { c with rules := c.rules ++ [override map.fields noEntries] }
  | .updateRules map =>
    if HasName map c.rules then
      some { c with
        rules := c.rules.map fun D => if ruleName D = map.name then override map.fields D else D }
    else none
  | .deletRules map =>
    if HasName map c.rules then
      some { c with rules := c.rules.filter fun D => ruleName D ≠ map.name }
    else none
  | .setGlobalshare map => some { c with fields := override map.fields c.fields }

/-- With the texts under `Enabled` turned into booleans. -/
def turned (c : RuleConf ν) : RuleConf ν := ⟨c.rules.map turnedEnabled, turnedEnabled c.fields⟩

/-- A request: the answer and the list. -/
def step (c : RuleConf ν) (req : RuleRequest) : Nat × RuleConf ν :=
  match c.edit req with
  | none => (1, c)
  | some c => (0, c.turned)

end RuleConf

/-- The requests that the pages make: for a rule, with its name; and for the other fields. -/
def RuleRequest.Admissible : RuleRequest → Prop
  | .insRules map => ∃ s, map.name = some s
  | .updateRules map => ∃ s, map.name = some s
  | .deletRules map => ∃ s, map.name = some s
  | .setGlobalshare map => lookup rulesKey map.fields = none

/-! ## 2. Lists and their trees -/

theorem turned_field {C : Str → Bool} {D E : PathTree ν} {k : Str} {p q : List Key}
    (h : D (.field k :: p) = E q) (hlast : lastField C (.field k :: p) = lastField C q) :
    turned C D (.field k :: p) = turned C E q := by
  rw [turned, turned, h, hlast]

/-- A step into a list is not one into a field. -/
theorem turnedEnabled_listTree (Ds : List (PathTree ν)) :
    turnedEnabled (listTree Ds) = listTree (Ds.map turnedEnabled) := by
  funext p
  match p with
  | [] => rfl
  | .field k :: p => rfl
  | .index i :: p =>
    rw [turnedEnabled, turned, lastField_index, listTree, listTree, List.getElem?_map]
    cases Ds[i]? with
    | none => rfl
    | some D => rfl

theorem RuleConf.turned_tree (c : RuleConf ν) : c.turned.tree = turnedEnabled c.tree := by
  funext p
  match p with
  | [] => rfl
  | .index i :: p => rfl
  | .field k :: p =>
    by_cases hk : k = rulesKey
    · subst hk
      have hlist : c.turned.tree (.field rulesKey :: p) = turnedEnabled (listTree c.rules) p := by
        rw [turnedEnabled_listTree, RuleConf.tree, if_pos rfl, RuleConf.turned]
      rw [hlist]
      refine (turned_field (by rw [RuleConf.tree, if_pos rfl]) ?_).symm
      cases p with
      | nil => rfl
      | cons key p => rfl
    · rw [RuleConf.tree, if_neg hk, RuleConf.turned]
      exact (turned_field (by rw [RuleConf.tree, if_neg hk]) rfl).symm

theorem ruleName_turnedEnabled (D : PathTree ν) : ruleName (turnedEnabled D) = ruleName D := by
  have hlast : lastField (fun k => k = enabledKey) [.field nameKey] = false := rfl
  have hat : turnedEnabled D [.field nameKey] = D [.field nameKey] := by
    by_cases hstr : ∃ s, D [.field nameKey] = some (.str s)
    · obtain ⟨s, hs⟩ := hstr
      rw [turnedEnabled, turned_of_str hs, hlast, hs]
      rfl
    · exact turned_of_not_str fun s hs => hstr ⟨s, hs⟩
  rw [ruleName, ruleName, hat]

theorem NamesDistinct.turned {c : RuleConf ν} (h : NamesDistinct c) : NamesDistinct c.turned := by
  constructor
  · intro D hD
    obtain ⟨E, hE, rfl⟩ := List.mem_map.mp hD
    rw [ruleName_turnedEnabled]
    exact h.named E hE
  · have hnames : c.turned.rules.map ruleName = c.rules.map ruleName := by
      rw [RuleConf.turned, List.map_map]
      exact List.map_congr_left fun D _ => ruleName_turnedEnabled D
    rw [hnames]
    exact h.nodup

/-- A table that is taken for a list. -/
def asList : Value ν → Option (List (Value ν))
  | .arr vs => some vs
  | .obj [] => some []
  | _ => none

theorem tree_arr_eq (vs : List (Value ν)) : (Value.arr vs).tree = listTree (vs.map Value.tree) := by
  funext p
  match p with
  | [] => rfl
  | .field k :: p => simp [listTree]
  | .index i :: p =>
    rw [Value.tree_arr_index, listTree, List.getElem?_map, Value.bind_tree]

theorem eq_of_asList {v : Value ν} {vs : List (Value ν)} (h : asList v = some vs) :
    v = .arr vs ∨ v = .obj [] ∧ vs = [] := by
  unfold asList at h
  split at h
  · exact Or.inl (congrArg Value.arr (Option.some.inj h))
  · exact Or.inr ⟨rfl, (Option.some.inj h).symm⟩
  · exact absurd h (by simp)

theorem tree_of_asList {v : Value ν} {vs : List (Value ν)} (h : asList v = some vs) :
    v.tree = listTree (vs.map Value.tree) := by
  rcases eq_of_asList h with rfl | ⟨rfl, rfl⟩
  · exact tree_arr_eq vs
  · rw [← Value.tree_arr_nil, tree_arr_eq]

/-- A value with the tree of a list is this list. -/
theorem asList_of_tree {v : Value ν} {Ds : List (PathTree ν)} (h : v.tree = listTree Ds)
    (hnamed : ∀ D ∈ Ds, ∃ s, ruleName D = some s) :
    ∃ vs, asList v = some vs ∧ vs.map Value.tree = Ds := by
  -- something is there at the name of each rule, so that there are as many
  have hsome : ∀ i (D : PathTree ν), Ds[i]? = some D →
      ∃ n, v.tree [.index i, .field nameKey] = some n := by
    intro i D hD
    obtain ⟨s, hs⟩ := hnamed D (List.mem_of_getElem? hD)
    have hn : ∃ n, D [.field nameKey] = some n := by
      unfold ruleName at hs
      split at hs
      · rename_i hat
        exact ⟨_, hat⟩
      · exact absurd hs (by simp)
    rw [h, listTree, hD]
    exact hn
  cases v with
  | arr vs =>
    refine ⟨vs, rfl, List.ext_getElem? ?_⟩
    intro i
    have hat : ∀ p, (vs[i]?.bind fun v => v.tree p) = Ds[i]?.bind fun D => D p := fun p => by
      rw [← Value.tree_arr_index, h, listTree]
    rw [List.getElem?_map]
    cases hv : vs[i]? with
    | none =>
      cases hD : Ds[i]? with
      | none => rfl
      | some D =>
        obtain ⟨n, hn⟩ := hsome i D hD
        rw [Value.tree_arr_index, hv] at hn
        exact absurd hn (by simp)
    | some w =>
      cases hD : Ds[i]? with
      | none =>
        have hnil := hat []
        rw [hv, hD] at hnil
        exact absurd hnil (by simp)
      | some D =>
        rw [Option.map_some]
        congr 1
        funext p
        have hp := hat p
        rwa [hv, hD] at hp
  | obj ms =>
    cases ms with
    | nil =>
      refine ⟨[], rfl, ?_⟩
      cases Ds with
      | nil => rfl
      | cons D Ds =>
        obtain ⟨n, hn⟩ := hsome 0 D rfl
        exact absurd hn (by simp)
    | cons m ms =>
      have hmem : (m.1, m.2) ∈ m :: ms := List.mem_cons_self
      obtain ⟨w, hw⟩ := lookup_of_mem hmem
      have hat : (Value.obj (m :: ms)).tree [.field m.1] = none := by
        rw [h]
        rfl
      rw [Value.tree_obj_field, hw] at hat
      exact absurd hat (by simp)
  | _ =>
    have hnil : (listTree Ds) [] = some (Node.table : Node ν) := rfl
    rw [← h] at hnil
    exact absurd hnil (by simp [Value.node])

/-! ## 3. What the handlers do -/

/-- With another tree under one name. -/
def putTree (k : Str) (E D : PathTree ν) : PathTree ν
  | .field k' :: p => if k' = k then E p else D (.field k' :: p)
  | p => D p

theorem setField_obj (k : Str) (x : Value ν) (ms : List (Str × Value ν)) :
    ∃ ns, setField k x (.obj ms) = some (.obj ns) ∧
      (Value.obj ns).tree = putTree k x.tree (Value.obj ms).tree := by
  refine ⟨_, rfl, ?_⟩
  funext p
  match p with
  | [] => rfl
  | .index i :: p => simp [putTree]
  | .field k' :: p =>
    rw [Value.tree_obj_field, lookup_append, lookup_filter_ne, putTree, Value.tree_obj_field]
    by_cases hk : k' = k
    · simp [hk]
    · simp [hk]

/-- One field after the other. -/
theorem override_cons (k s : Str) (fields : List (Str × Str)) (D : PathTree ν) :
    override ((k, s) :: fields) D = override fields (putTree k (Value.str s).tree D) := by
  funext p
  match p with
  | [] => rfl
  | .index i :: p => rfl
  | .field k' :: p =>
    simp only [override, lookup_cons, putTree]
    cases lookup k' fields with
    | some t => rfl
    | none =>
      by_cases hk : k' = k
      · simp [hk]
      · simp [hk]

/-- `for k, v in pairs(map) do t[k] = v end` -/
theorem setAll_obj (fields : List (Str × Str)) (ms : List (Str × Value ν)) :
    ∃ ns, (Form.mk fields).setAll (.obj ms) = some (.obj ns) ∧
      (Value.obj ns).tree = override fields (Value.obj ms).tree := by
  induction fields generalizing ms with
  | nil =>
    refine ⟨ms, rfl, ?_⟩
    funext p
    match p with
    | [] => rfl
    | .index i :: p => rfl
    | .field k :: p => rfl
  | cons m fields ih =>
    obtain ⟨ns, hset, htree⟩ := setField_obj m.1 (.str m.2) ms
    obtain ⟨ns', hall, htree'⟩ := ih ns
    refine ⟨ns', ?_, ?_⟩
    · rw [Form.setAll, List.foldlM_cons, hset]
      exact hall
    · rw [htree', htree, override_cons]

/-- The table of a request has its fields and no others. -/
theorem tree_table (map : Form) : (map.table : Value ν).tree = override map.fields noEntries := by
  funext p
  match p with
  | [] => rfl
  | .index i :: p => rfl
  | .field k :: p =>
    rw [Form.table, Value.tree_obj_field, lookup_map fun _ => Value.str, override]
    cases lookup k map.fields <;> rfl

/-- A rule with a name is a table with it. -/
theorem obj_of_ruleName {v : Value ν} {s : Str} (h : ruleName v.tree = some s) :
    ∃ ms, v = .obj ms ∧ lookup nameKey ms = some (.str s) := by
  have hat : v.tree [.field nameKey] = some (.str s) := by
    unfold ruleName at h
    split at h
    · rename_i hs
      rw [hs, Option.some.inj h]
    · exact absurd h (by simp)
  cases v with
  | obj ms =>
    rw [Value.tree_obj_field, Option.bind_eq_some_iff] at hat
    obtain ⟨w, hw, hnode⟩ := hat
    refine ⟨ms, rfl, ?_⟩
    rw [hw]
    cases w with
    | str t =>
      simp only [Value.tree_nil, Value.node, Option.some.injEq, Node.str.injEq] at hnode
      rw [hnode]
    | _ => simp [Value.node] at hnode
  | arr vs => simp at hat
  | _ => simp [Value.tree] at hat

/-- The comparison of the loops, on a rule with a name. -/
theorem sameName_iff {map : Form} {n s : Str} (hn : map.name = some n) :
    sameName (some (.str s) : Option (Value ν)) map.name = true ↔ some s = map.name := by
  rw [hn]
  simp [sameName]

section Loops

variable {map : Form} {n : Str}

theorem findName_eq (hn : map.name = some n) {vs : List (Value ν)}
    (hnamed : ∀ D ∈ vs.map Value.tree, ∃ s, ruleName D = some s) :
    findName map vs = some (decide (HasName map (vs.map Value.tree))) := by
  induction vs with
  | nil => simp [findName, hasName_nil]
  | cons v vs ih =>
    obtain ⟨s, hs⟩ := hnamed v.tree List.mem_cons_self
    obtain ⟨ms, rfl, hname⟩ := obj_of_ruleName hs
    rw [findName, luaIndex, hname, Option.bind_eq_bind, Option.bind_some,
      ih fun D hD => hnamed D (List.mem_cons_of_mem _ hD)]
    by_cases h : some s = map.name
    · rw [if_pos ((sameName_iff hn).mpr h)]
      simp [hasName_cons, hs, h]
    · rw [if_neg fun hsame => h ((sameName_iff hn).mp hsame)]
      simp [hasName_cons, hs, h]

theorem updateLoop_eq (hn : map.name = some n) {vs : List (Value ν)}
    (hnamed : ∀ D ∈ vs.map Value.tree, ∃ s, ruleName D = some s) :
    ∃ ws, updateLoop map vs =
        some (ws, decide (HasName map (vs.map Value.tree))) ∧
      ws.map Value.tree = (vs.map Value.tree).map fun D =>
        if ruleName D = map.name then override map.fields D else D := by
  induction vs with
  | nil => exact ⟨[], by simp [updateLoop, hasName_nil], rfl⟩
  | cons v vs ih =>
    obtain ⟨s, hs⟩ := hnamed v.tree List.mem_cons_self
    obtain ⟨ws, hws, htree⟩ := ih fun D hD => hnamed D (List.mem_cons_of_mem _ hD)
    obtain ⟨ms, rfl, hname⟩ := obj_of_ruleName hs
    rw [updateLoop, luaIndex, hname, Option.bind_eq_bind, Option.bind_some]
    by_cases h : some s = map.name
    · obtain ⟨ns, hset, hns⟩ := setAll_obj map.fields ms
      refine ⟨.obj ns :: ws, ?_, ?_⟩
      · rw [if_pos ((sameName_iff hn).mpr h), hset, hws]
        simp [hasName_cons, hs, h]
      · rw [List.map_cons, List.map_cons, List.map_cons, hns, htree, if_pos (hs.trans h)]
    · refine ⟨.obj ms :: ws, ?_, ?_⟩
      · rw [if_neg fun hsame => h ((sameName_iff hn).mp hsame), hws]
        simp [hasName_cons, hs, h]
      · rw [List.map_cons, List.map_cons, List.map_cons, htree,
          if_neg fun heq => h (hs.symm.trans heq)]

theorem deletLoop_eq (hn : map.name = some n) {vs : List (Value ν)}
    (hnamed : ∀ D ∈ vs.map Value.tree, ∃ s, ruleName D = some s) :
    ∃ ws, deletLoop map vs =
        some (ws, decide (HasName map (vs.map Value.tree))) ∧
      ws.map Value.tree = (vs.map Value.tree).filter fun D => ruleName D ≠ map.name := by
  induction vs with
  | nil => exact ⟨[], by simp [deletLoop, hasName_nil], rfl⟩
  | cons v vs ih =>
    obtain ⟨s, hs⟩ := hnamed v.tree List.mem_cons_self
    obtain ⟨ws, hws, htree⟩ := ih fun D hD => hnamed D (List.mem_cons_of_mem _ hD)
    obtain ⟨ms, rfl, hname⟩ := obj_of_ruleName hs
    rw [deletLoop, luaIndex, hname, Option.bind_eq_bind, Option.bind_some, hws]
    by_cases h : some s = map.name
    · refine ⟨ws, ?_, ?_⟩
      · rw [Option.bind_eq_bind, Option.bind_some]
        dsimp only
        rw [if_pos ((sameName_iff hn).mpr h)]
        simp [hasName_cons, hs, h]
      · rw [htree, List.map_cons, List.filter_cons, if_neg (by simp [hs, h])]
    · refine ⟨.obj ms :: ws, ?_, ?_⟩
      · rw [Option.bind_eq_bind, Option.bind_some]
        dsimp only
        rw [if_neg fun hsame => h ((sameName_iff hn).mp hsame)]
        simp [hasName_cons, hs, h]
      · rw [List.map_cons, htree, List.map_cons, List.filter_cons, if_pos (by simp [hs, h])]

end Loops

/-- What a value with the tree of a list of rules is. -/
theorem obj_of_tree {v : Value ν} {c : RuleConf ν} (h : v.tree = c.tree) :
    ∃ ms r, v = .obj ms ∧ lookup rulesKey ms = some r ∧ r.tree = listTree c.rules := by
  have hat : ∀ p, v.tree (.field rulesKey :: p) = listTree c.rules p := fun p => by
    rw [h, RuleConf.tree, if_pos rfl]
  cases v with
  | obj ms =>
    cases hr : lookup rulesKey ms with
    | none =>
      have hnil := hat []
      rw [Value.tree_obj_field, hr] at hnil
      exact absurd hnil (by simp [listTree])
    | some r =>
      refine ⟨ms, r, rfl, hr, funext ?_⟩
      intro p
      have hp := hat p
      rwa [Value.tree_obj_field, hr] at hp
  | arr vs =>
    have hnil := hat []
    exact absurd hnil (by simp [listTree])
  | _ =>
    have hnil := hat []
    exact absurd hnil (by simp [listTree, Value.tree])

theorem ipairs_of_asList {v : Value ν} {vs : List (Value ν)} (h : asList v = some vs) :
    ipairs v = some vs := by
  rcases eq_of_asList h with rfl | ⟨rfl, rfl⟩
  · rfl
  · rfl

theorem tableInsert_of_asList {v : Value ν} {vs : List (Value ν)} (x : Value ν)
    (h : asList v = some vs) : tableInsert x v = some (.arr (vs ++ [x])) := by
  rcases eq_of_asList h with rfl | ⟨rfl, rfl⟩
  · rfl
  · rfl

theorem noRules_of_asList {v : Value ν} {vs : List (Value ν)} (h : asList v = some vs) :
    noRules (some v) = false := by
  rcases eq_of_asList h with rfl | ⟨rfl, rfl⟩
  · rfl
  · rfl

/-- With other rules. -/
theorem putTree_rules (c : RuleConf ν) (Ds : List (PathTree ν)) :
    putTree rulesKey (listTree Ds) c.tree = { c with rules := Ds }.tree := by
  funext p
  match p with
  | [] => rfl
  | .index i :: p => rfl
  | .field k :: p =>
    rw [putTree, RuleConf.tree, RuleConf.tree]
    by_cases hk : k = rulesKey
    · rw [if_pos hk, if_pos hk]
    · rw [if_neg hk, if_neg hk, if_neg hk]

/-- With other fields. -/
theorem override_fields (c : RuleConf ν) {fields : List (Str × Str)}
    (h : lookup rulesKey fields = none) :
    override fields c.tree = { c with fields := override fields c.fields }.tree := by
  funext p
  match p with
  | [] => rfl
  | .index i :: p => rfl
  | .field k :: p =>
    rw [RuleConf.tree]
    by_cases hk : k = rulesKey
    · rw [if_pos hk, override, hk, h, RuleConf.tree, if_pos rfl]
    · rw [if_neg hk]
      simp only [override, RuleConf.tree, if_neg hk]

/-- An object whose rules are these. -/
structure RulesOf (c : RuleConf ν) (ms : List (Str × Value ν)) (r : Value ν)
    (vs : List (Value ν)) : Prop where
  tree : (Value.obj ms).tree = c.tree
  rules : lookup rulesKey ms = some r
  list : asList r = some vs
  trees : vs.map Value.tree = c.rules

theorem exists_rulesOf {v : Value ν} {c : RuleConf ν} (h : v.tree = c.tree)
    (hc : NamesDistinct c) : ∃ ms r vs, v = .obj ms ∧ RulesOf c ms r vs := by
  obtain ⟨ms, r, rfl, hr, hrtree⟩ := obj_of_tree h
  obtain ⟨vs, hvs, hmap⟩ := asList_of_tree hrtree hc.named
  exact ⟨ms, r, vs, rfl, ⟨h, hr, hvs, hmap⟩⟩

/-- What is to be saved is what was meant, or the request is refused as it was meant. -/
def Meant (res : Option (Value ν)) (c' : Option (RuleConf ν)) : Prop :=
  Option.Rel (fun w c => w.tree = c.tree) res c'

section Handlers

variable {c : RuleConf ν} {ms : List (Str × Value ν)} {r : Value ν} {vs : List (Value ν)}

theorem insRules_eq {map : Form} {n : Str} (hn : map.name = some n) (h : RulesOf c ms r vs)
    (hc : NamesDistinct c) :
    ∃ res, insRules map (.obj ms) = some res ∧ Meant res (c.edit (.insRules map)) := by
  have hfind := findName_eq hn (h.trees ▸ hc.named)
  rw [h.trees] at hfind
  rw [RuleConf.edit]
  by_cases hhas : HasName map c.rules
  · refine ⟨none, ?_, ?_⟩
    · simp [insRules, luaIndex, h.rules, ipairs_of_asList h.list, hfind, hhas]
    · rw [if_pos hhas]
      exact .none
  · obtain ⟨ns, hset, hns⟩ := setField_obj rulesKey (.arr (vs ++ [map.table])) ms
    refine ⟨some (.obj ns), ?_, ?_⟩
    · simp [insRules, luaIndex, h.rules, ipairs_of_asList h.list, hfind, hhas,
        tableInsert_of_asList _ h.list, hset]
    · rw [if_neg hhas]
      refine .some ?_
      rw [hns, tree_arr_eq, h.tree, putTree_rules, List.map_append, h.trees, List.map_singleton,
        tree_table]

/-- The two loops, and what follows them. -/
theorem withLoop_eq {loop : List (Value ν) → Option (List (Value ν) × Bool)}
    {ws : List (Value ν)} {f : Bool} (h : RulesOf c ms r vs) (hloop : loop vs = some (ws, f)) :
    ∃ res, withLoop loop (.obj ms) = some res ∧
      Meant res (if f then some { c with rules := ws.map Value.tree } else none) := by
  obtain ⟨ns, hset, hns⟩ := setField_obj rulesKey (.arr ws) ms
  refine ⟨if f then some (.obj ns) else none, ?_, ?_⟩
  · rw [withLoop, luaIndex, h.rules, Option.bind_eq_bind, Option.bind_some,
      noRules_of_asList h.list, if_neg Bool.false_ne_true, Option.bind_eq_bind, Option.bind_some,
      ipairs_of_asList h.list, Option.bind_eq_bind, Option.bind_some, hloop]
    cases f <;> simp [hset]
  · cases f with
    | false => exact .none
    | true =>
      refine .some ?_
      rw [hns, tree_arr_eq, h.tree, putTree_rules]

theorem updateRules_eq {map : Form} {n : Str} (hn : map.name = some n) (h : RulesOf c ms r vs)
    (hc : NamesDistinct c) :
    ∃ res, updateRules map (.obj ms) = some res ∧ Meant res (c.edit (.updateRules map)) := by
  obtain ⟨ws, hloop, hws⟩ := updateLoop_eq hn (h.trees ▸ hc.named)
  have hres := withLoop_eq h hloop
  rw [hws, h.trees] at hres
  simpa only [updateRules, RuleConf.edit, decide_eq_true_eq] using hres

theorem deletRules_eq {map : Form} {n : Str} (hn : map.name = some n) (h : RulesOf c ms r vs)
    (hc : NamesDistinct c) :
    ∃ res, deletRules map (.obj ms) = some res ∧ Meant res (c.edit (.deletRules map)) := by
  obtain ⟨ws, hloop, hws⟩ := deletLoop_eq hn (h.trees ▸ hc.named)
  have hres := withLoop_eq h hloop
  rw [hws, h.trees] at hres
  simpa only [deletRules, RuleConf.edit, decide_eq_true_eq] using hres

theorem setGlobalshare_eq {map : Form} (hmap : lookup rulesKey map.fields = none)
    (h : RulesOf c ms r vs) :
    ∃ res, setGlobalshare map (.obj ms) = some res ∧
      Meant res (c.edit (.setGlobalshare map)) := by
  obtain ⟨ns, hset, hns⟩ := setAll_obj map.fields ms
  refine ⟨some (.obj ns), ?_, .some ?_⟩
  · exact congrArg (Option.map some) hset
  · rw [hns, h.tree, override_fields c hmap]

end Handlers

/-- **What a handler makes of the table** is what is meant by the request. -/
theorem ruleEdit_eq (cj : Codec ν) {req : RuleRequest} (hreq : req.Admissible) {s : Str}
    {v : Value ν} {c : RuleConf ν} (hv : cj.decode s = some v) (htree : v.tree = c.tree)
    (hc : NamesDistinct c) :
    ∃ res, ruleEdit cj req (some s) = some res ∧ Meant res (c.edit req) := by
  obtain ⟨ms, r, vs, rfl, h⟩ := exists_rulesOf htree hc
  cases req with
  | insRules map =>
    obtain ⟨n, hn⟩ := hreq
    simpa only [ruleEdit, Option.bind_some, hv] using insRules_eq hn h hc
  | updateRules map =>
    obtain ⟨n, hn⟩ := hreq
    simpa only [ruleEdit, Option.bind_some, hv] using updateRules_eq hn h hc
  | deletRules map =>
    obtain ⟨n, hn⟩ := hreq
    simpa only [ruleEdit, Option.bind_some, hv] using deletRules_eq hn h hc
  | setGlobalshare map =>
    simpa only [ruleEdit, Option.bind_some, hv] using setGlobalshare_eq hreq h

/-- A rule with the fields of a request has its name. -/
theorem ruleName_override {map : Form} {n : Str} (hn : map.name = some n) (D : PathTree ν) :
    ruleName (override map.fields D) = some n := by
  rw [Form.name] at hn
  have hat : override map.fields D [.field nameKey] = some (.str n) := by
    rw [override, hn]
    rfl
  rw [ruleName, hat]

/-- **The names stay distinct.** -/
theorem NamesDistinct.edit {c c' : RuleConf ν} {req : RuleRequest} (h : NamesDistinct c)
    (hreq : req.Admissible) (he : c.edit req = some c') : NamesDistinct c' := by
  cases req with
  | insRules map =>
    obtain ⟨n, hn⟩ := hreq
    simp only [RuleConf.edit, Option.ite_none_left_eq_some, Option.some.injEq] at he
    obtain ⟨hnew, rfl⟩ := he
    have hname := ruleName_override hn (noEntries : PathTree ν)
    refine ⟨?_, ?_⟩
    · intro D hD
      rcases List.mem_append.mp hD with hD | hD
      · exact h.named D hD
      · exact ⟨n, by rw [List.mem_singleton.mp hD, hname]⟩
    · rw [List.map_append, List.map_singleton, List.nodup_append]
      refine ⟨h.nodup, by simp, ?_⟩
      intro x hx y hy heq
      obtain ⟨D, hD, rfl⟩ := List.mem_map.mp hx
      rw [List.mem_singleton.mp hy, hname, ← hn] at heq
      exact hnew ⟨D, hD, heq⟩
  | updateRules map =>
    obtain ⟨n, hn⟩ := hreq
    simp only [RuleConf.edit, Option.ite_none_right_eq_some, Option.some.injEq] at he
    obtain ⟨-, rfl⟩ := he
    have hname : ∀ D : PathTree ν,
        ruleName (if ruleName D = map.name then override map.fields D else D) = ruleName D := by
      intro D
      by_cases hD : ruleName D = map.name
      · rw [if_pos hD, ruleName_override hn, hD, hn]
      · rw [if_neg hD]
    refine ⟨?_, ?_⟩
    · intro D hD
      obtain ⟨E, hE, rfl⟩ := List.mem_map.mp hD
      rw [hname]
      exact h.named E hE
    · rw [List.map_map]
      exact (List.map_congr_left fun D _ => hname D) ▸ h.nodup
  | deletRules map =>
    simp only [RuleConf.edit, Option.ite_none_right_eq_some, Option.some.injEq] at he
    obtain ⟨-, rfl⟩ := he
    exact ⟨fun D hD => h.named D (List.mem_of_mem_filter hD),
      h.nodup.sublist (List.filter_sublist.map ruleName)⟩
  | setGlobalshare map =>
    obtain rfl := Option.some.inj he
    exact ⟨h.named, h.nodup⟩

/-! ## 4. Sequences of requests -/

/-- The file and the last answer, and what they were meant to be. -/
structure StoreState (ν : Type) where
  file : Option Str
  answer : Option Nat
  conf : RuleConf ν
  meant : Option Nat

/-- The requests that the pages make. -/
abbrev PageRequest := { req : RuleRequest // req.Admissible }

/-- One request after the other. -/
def storeStep (cj : Codec ν) (s : StoreState ν) (req : PageRequest) : Option (StoreState ν) :=
  let (answer, file) := ruleHandle cj req.1 s.file
  let (meant, conf) := s.conf.step req.1
  some ⟨file, answer, conf, some meant⟩

/-- A file with a list of rules in it. -/
structure StartConf (cj : Codec ν) where
  file : Str
  ms : List (Str × Value ν)
  rules : List (Value ν)
  decodes : cj.decode file = some (.obj ms)
  hasRules : ∃ r, lookup rulesKey ms = some r ∧ asList r = some rules
  distinct : NamesDistinct ⟨rules.map Value.tree, (Value.obj ms).tree⟩

/-- Before the first request. -/
def StartConf.state {cj : Codec ν} (start : StartConf cj) : StoreState ν :=
  ⟨some start.file, none, ⟨start.rules.map Value.tree, (Value.obj start.ms).tree⟩, none⟩

/-- What is in the file is the list of rules. -/
def Holds (cj : Codec ν) (file : Option Str) (c : RuleConf ν) : Prop :=
  ∃ s v, file = some s ∧ cj.decode s = some v ∧ v.tree = c.tree

/-- The file, the answer and the names are what they are meant to be. -/
structure StoreOk (cj : Codec ν) (s : StoreState ν) : Prop where
  holds : Holds cj s.file s.conf
  answer : s.answer = s.meant
  distinct : NamesDistinct s.conf

/-- The condition on a request: what it leaves behind, before the texts under `Enabled` are turned
into booleans, is clean. -/
def SavesClean (s : StoreState ν) (req : PageRequest) : Prop :=
  ∀ c ∈ s.conf.edit req.1, Clean c.tree

theorem StartConf.ok {cj : Codec ν} (start : StartConf cj) : StoreOk cj start.state := by
  obtain ⟨r, hr, hlist⟩ := start.hasRules
  refine ⟨⟨start.file, .obj start.ms, rfl, start.decodes, ?_⟩, rfl, start.distinct⟩
  funext p
  match p with
  | [] => rfl
  | .index i :: p => simp [RuleConf.tree]
  | .field k :: p =>
    rw [RuleConf.tree]
    by_cases hk : k = rulesKey
    · rw [if_pos hk, hk, Value.tree_obj_field, hr, Option.bind_some, tree_of_asList hlist]
      rfl
    · rw [if_neg hk]
      rfl

/-- **One request** does what it is meant to do exactly when what it saves is clean. -/
theorem storeStep_ok_iff {cj : Codec ν} {s t : StoreState ν} {req : PageRequest}
    (hs : StoreOk cj s) (h : storeStep cj s req = some t) : StoreOk cj t ↔ SavesClean s req := by
  obtain ⟨text, v, hfile, hv, htree⟩ := hs.holds
  obtain ⟨res, hres, hmeant⟩ := ruleEdit_eq cj req.2 hv htree hs.distinct
  cases he : s.conf.edit req.1 with
  | none =>
    rw [he] at hmeant
    have hnone : res = none := by
      cases hmeant
      rfl
    have hconf : s.conf.step req.1 = (1, s.conf) := by rw [RuleConf.step, he]
    have hhandle : ruleHandle cj req.1 s.file = (some 1, s.file) := by
      rw [ruleHandle, hfile, hres, hnone]
    rw [storeStep, hconf, hhandle] at h
    obtain rfl := Option.some.inj h
    exact iff_of_true ⟨hs.holds, rfl, hs.distinct⟩ fun c' hc' => absurd (he ▸ hc') (by simp)
  | some c' =>
    rw [he] at hmeant
    obtain ⟨w, rfl, hw⟩ : ∃ w, res = some w ∧ w.tree = c'.tree := by
      cases hmeant with
      | some hw => exact ⟨_, rfl, hw⟩
    have hconf : s.conf.step req.1 = (0, c'.turned) := by rw [RuleConf.step, he]
    have hhandle : ruleHandle cj req.1 s.file = (some 0, some (saveText cj w)) := by
      rw [ruleHandle, hfile, hres]
    rw [storeStep, hconf, hhandle] at h
    obtain rfl := Option.some.inj h
    obtain ⟨u, hu, hiff⟩ := decode_saveText cj w
    rw [hw, ← RuleConf.turned_tree] at hiff
    have hclean : SavesClean s req ↔ Clean c'.tree := by
      rw [SavesClean, he]
      simp
    rw [hclean, ← hiff]
    constructor
    · rintro ⟨⟨text', u', htext', hu', hut⟩, -, -⟩
      obtain rfl := Option.some.inj htext'
      obtain rfl := Option.some.inj (hu.symm.trans hu')
      exact hut
    · intro hut
      exact ⟨⟨_, u, rfl, hu, hut⟩, rfl, (hs.distinct.edit req.2 he).turned⟩

/-- **When the file is the ordered map.**  For every file with a list of rules under distinct
names, every sequence of requests and every JSON library: after each request the file holds the
rules that are meant, in their order, with nothing but the texts under `Enabled` changed, the
answer is the one that is meant, and the names are distinct, exactly when what each request saves
is clean. -/
theorem ruleStore_iff (cj : Codec ν) (start : StartConf cj) (reqs : List PageRequest) :
    AllStates (storeStep cj) (StoreOk cj) start.state reqs ↔
      AllSteps (storeStep cj) SavesClean start.state reqs := by
  refine allStates_iff (J := fun _ => True) ?_ ?_ reqs _ trivial start.ok
  · intro s req t _ _ _ _
    trivial
  · intro s req t _ hs h
    exact storeStep_ok_iff hs h

/-- A rule with this name and nothing else. -/
def nameOnly (s : Str) : Value Digits := .obj [(nameKey, .str s)]

/-- A file with the one rule `a{}b`. -/
def bracesConf : StartConf compact where
  file := ascii "\x7b\"Rules\":[\x7b\"Name\":\"a\x7b\x7db\"\x7d]\x7d"
  ms := [(rulesKey, .arr [nameOnly (ascii "a\x7b\x7db")])]
  rules := [nameOnly (ascii "a\x7b\x7db")]
  decodes := by decide +kernel
  hasRules := ⟨_, rfl, rfl⟩
  distinct := by
    refine ⟨fun D hD => ⟨ascii "a\x7b\x7db", ?_⟩, by simp⟩
    rw [List.mem_singleton.mp hD]
    rfl

/-- `insRules` with the name `c` and nothing else. -/
def insertC : PageRequest := ⟨.insRules ⟨[(nameKey, ascii "c")]⟩, ascii "c", rfl⟩

/-- The rule `c` is inserted into the file with the rule `a{}b`: the answer is that all went well,
and the other rule is now `a[]b`. -/
theorem ruleStore_broken :
    ∃ s, run (storeStep compact) bracesConf.state [insertC] = some s ∧ s.answer = some 0 ∧
      s.file = some (ascii
        "\x7b\"Rules\":[\x7b\"Name\":\"a[]b\"\x7d,\x7b\"Name\":\"c\"\x7d]\x7d") ∧
      s.conf.rules.map ruleName = [some (ascii "a\x7b\x7db"), some (ascii "c")] ∧
      ¬ StoreOk compact s := by
  have hfile : ((run (storeStep compact) bracesConf.state [insertC]).map fun s =>
      (s.answer, s.file)) = some (some 0, some (ascii
        "\x7b\"Rules\":[\x7b\"Name\":\"a[]b\"\x7d,\x7b\"Name\":\"c\"\x7d]\x7d")) := by
    decide +kernel
  have hconf : ((run (storeStep compact) bracesConf.state [insertC]).map fun s =>
      (s.conf.rules.map ruleName, s.conf.tree [.field rulesKey, .index 0, .field nameKey])) =
      some ([some (ascii "a\x7b\x7db"), some (ascii "c")],
        some (.str (ascii "a\x7b\x7db"))) := by
    decide +kernel
  obtain ⟨s, hs, heq⟩ := exists_run_of_map hfile
  simp only [hs, Option.map_some, Option.some.injEq, Prod.mk.injEq] at heq hconf
  obtain ⟨hanswer, hfile⟩ := heq
  obtain ⟨hnames, hmeant⟩ := hconf
  refine ⟨s, hs, hanswer, hfile, hnames, ?_⟩
  intro hok
  obtain ⟨text, v, htext, hv, htree⟩ := hok.holds
  have hread : ((compact.decode (ascii
      "\x7b\"Rules\":[\x7b\"Name\":\"a[]b\"\x7d,\x7b\"Name\":\"c\"\x7d]\x7d")).map fun v =>
        v.tree [.field rulesKey, .index 0, .field nameKey]) =
      some (some (.str (ascii "a[]b"))) := by
    decide +kernel
  obtain rfl := Option.some.inj (hfile.symm.trans htext)
  rw [hv, Option.map_some, htree, hmeant] at hread
  exact absurd hread (by decide)

end Puppies
