/-
# The JSON reader on memory

The parser as the source has it: over one buffer (`NxText`) and over nodes that are allocated one
by one and linked to each other (`TreeHeap`).  The source's structure `nx_json` is a cell whose data
are its first four fields.  The blocks are numbered as they are allocated; address 0 is the
variable `js` of `nx_json_parse`, which is the parent of the outermost value and is gone when that
function returns.  An access to a block that is not allocated, a second `free` of one included,
has no result, as has an access outside the buffer.

**`nxJsonParseC_refines`**: on every buffer with a terminating zero, and whichever allocations
fail, the function has a result.  It is `NULL` where `nxJsonParseUtf8` of `Nxjson` reads nothing,
and then no node is left allocated; else it is a node from which the tree that `nxJsonParseUtf8`
returns can be read, all its strings in the buffer, and no other node is allocated.
`nx_json_free` then frees them all (`nxJsonFree_tree`).  The accessors find what those of `Nxjson`
find (`nxJsonGetC_spec`).
-/
import Puppies.Lib.TreeHeap
import Puppies.Ntrack.NxGrammar
import Puppies.Ntrack.NxText

namespace Puppies

open ByteMem TreeHeap

/-! ## 1. The functions -/

/-- The fields of `nx_json` that are no links. -/
structure NxData where
  type : NxJsonType
  key : Option Nat
  textValue : Option Nat
  intValue : BitVec 64
  deriving DecidableEq, Repr

/-- The memory that the parser works on. -/
structure NxMem where
  text : List Byte
  heap : Heap NxData
  /-- how many nodes have been allocated so far -/
  allocs : Nat

/-- `create_json` -/
def createJsonC (alloc : Nat → Bool) (st : NxMem) (type : NxJsonType) (key : Option Nat)
    (parent : Nat) : Option (NxMem × Option Nat) :=
  if alloc st.allocs then do
    let heap ← addChild st.heap (st.allocs + 1) parent ⟨type, key, none, 0⟩
    return (⟨st.text, heap, st.allocs + 1⟩, some (st.allocs + 1))
  else return (st, none)

/-- A store to the fields of a node. -/
def setData (st : NxMem) (js : Nat) (f : NxData → NxData) : Option NxMem := do
  let c ← st.heap js
  return { st with heap := Function.update st.heap js (some { c with data := f c.data }) }

mutual

/-- `nx_json_free` -/
def nxJsonFree : Nat → Heap NxData → Nat → Option (Heap NxData)
  | 0, _, _ => none
  | fuel + 1, heap, js => do
    let c ← heap js
    let heap ← nxJsonFreeLoop fuel heap c.child
    let _ ← heap js
    return Function.update heap js none

/-- The loop of `nx_json_free`. -/
def nxJsonFreeLoop : Nat → Heap NxData → Option Nat → Option (Heap NxData)
  | 0, _, _ => none
  | _ + 1, heap, none => some heap
  | fuel + 1, heap, some p => do
    let c ← heap p
    let heap ← nxJsonFree fuel heap p
    nxJsonFreeLoop fuel heap c.next

end

/-- `strncmp` with a word and its length, `true` for equal. -/
def strncmpC (m : List Byte) : Nat → Text → Option Bool
  | _, [] => some true
  | p, c :: w => do
    let d ← m[p]?
    if d = c then strncmpC m (p + 1) w else return false

/-- The C string at `p`, as the functions of the library take it. -/
def textAt (m : List Byte) (p : Nat) : Option Text :=
  if (m.drop p).contains 0 then some (cString (m.drop p)) else none

/-- The cases of the three words.  `null` has the value that `kzalloc` left. -/
def parseWordC (alloc : Nat → Bool) (st : NxMem) (parent : Nat) (key : Option Nat) (p : Nat)
    (word : Text) (type : NxJsonType) (value : BitVec 64) : Option (NxMem × Option Nat) := do
  if ← strncmpC st.text p word then
    match ← createJsonC alloc st type key parent with
    | (st, none) => return (st, none)
    | (st, some js) =>
      let st ← setData st js fun d => { d with intValue := value }
      return (st, some (p + word.length))
  else return (st, none)

mutual

/-- `parse_value` -/
def parseValueC (alloc : Nat → Bool) :
    Nat → NxMem → Nat → Option Nat → Nat → Option (NxMem × Option Nat)
  | 0, _, _, _, _ => none
  | fuel + 1, st, parent, key, p => do
    let c ← st.text[p]?
    if c = 0 then return (st, none)
    else if c = 0x20 ∨ c = 0x09 ∨ c = 0x0a ∨ c = 0x0d ∨ c = 0x2c then
      parseValueC alloc fuel st parent key (p + 1)
    else if c = 0x7b then
      match ← createJsonC alloc st .object key parent with
      | (st, none) => return (st, none)
      | (st, some js) => parseObjectC alloc fuel st js (p + 1)
    else if c = 0x5b then
      match ← createJsonC alloc st .array key parent with
      | (st, none) => return (st, none)
      | (st, some js) => parseArrayC alloc fuel st js (p + 1)
    else if c = 0x5d then return (st, some p)
    else if c = 0x22 then
      match ← createJsonC alloc st .string key parent with
      | (st, none) => return (st, none)
      | (st, some js) =>
        match ← unescapeStringC (st.text.length + 1) st.text (p + 1) (p + 1) with
        | (text, none) => return ({ st with text := text }, none)
        | (text, some q) =>
          let st ← setData { st with text := text } js fun d => { d with textValue := some (p + 1) }
          return (st, some q)
    else if c = 0x2d ∨ (0x30#8 ≤ c ∧ c ≤ 0x39#8) then
      match ← createJsonC alloc st .integer key parent with
      | (st, none) => return (st, none)
      | (st, some js) =>
        let s ← textAt st.text p
        let (v, pe) := simpleStrtol s
        let st ← setData st js fun d => { d with intValue := v }
        if pe = s then return (st, none) else return (st, some (p + (s.length - pe.length)))
    else if c = 0x74 then parseWordC alloc st parent key p [0x74, 0x72, 0x75, 0x65] .bool 1
    else if c = 0x66 then parseWordC alloc st parent key p [0x66, 0x61, 0x6c, 0x73, 0x65] .bool 0
    else if c = 0x6e then parseWordC alloc st parent key p [0x6e, 0x75, 0x6c, 0x6c] .null 0
    else if c = 0x2f then
      match ← skipCommentC st.text (p + 1) with
      | none => return (st, none)
      | some p => parseValueC alloc fuel st parent key p
    else return (st, none)

/-- The loop over the members of an object. -/
def parseObjectC (alloc : Nat → Bool) : Nat → NxMem → Nat → Nat → Option (NxMem × Option Nat)
  | 0, _, _, _ => none
  | fuel + 1, st, js, p => do
    match ← parseKeyC (st.text.length + 1) st.text p with
    | (text, none) => return ({ st with text := text }, none)
    | (text, some (key, p)) =>
      let st := { st with text := text }
      let c ← st.text[p]?
      if c = 0x7d then return (st, some (p + 1))
      else
        match ← parseValueC alloc fuel st js key p with
        | (st, none) => return (st, none)
        | (st, some p) => parseObjectC alloc fuel st js p

/-- The loop over the elements of an array. -/
def parseArrayC (alloc : Nat → Bool) : Nat → NxMem → Nat → Nat → Option (NxMem × Option Nat)
  | 0, _, _, _ => none
  | fuel + 1, st, js, p => do
    match ← parseValueC alloc fuel st js none p with
    | (st, none) => return (st, none)
    | (st, some p) =>
      let c ← st.text[p]?
      if c = 0x5d then return (st, some (p + 1))
      else parseArrayC alloc fuel st js p

end

/-- The variable `js` of `nx_json_parse` and no node. -/
def NxMem.start (buf : List Byte) : NxMem where
  text := buf
  heap := Function.update (fun _ => none) 0 (some ⟨⟨.null, none, none, 0⟩, 0, none, none, none⟩)
  allocs := 0

/-- Without the variable `js`. -/
def NxMem.leave (st : NxMem) : NxMem := { st with heap := Function.update st.heap 0 none }

/-- `nx_json_parse` with the encoder `unicode_to_utf8`. -/
def nxJsonParseC (alloc : Nat → Bool) (buf : List Byte) : Option (NxMem × Option Nat) := do
  let (st, p) ← parseValueC alloc (2 * (cString buf).length + 2) (.start buf) 0 none 0
  let js ← st.heap 0
  match p, js.child with
  | some _, child => return (st.leave, child)
  | none, none => return (st.leave, none)
  | none, some child =>
    let heap ← nxJsonFree (2 * st.allocs + 2) st.heap child
    return (NxMem.leave { st with heap := heap }, none)

/-- The loop of `nx_json_get`; in the result `none` is the address of `dummy`. -/
def nxJsonGetLoopC (st : NxMem) (key : Text) : Nat → Option Nat → Option (Option Nat)
  | 0, _ => none
  | _ + 1, none => some none
  | fuel + 1, some js => do
    let c ← st.heap js
    match c.data.key with
    | none => nxJsonGetLoopC st key fuel c.next
    | some k =>
      let s ← textAt st.text k
      if s = key then return some js else nxJsonGetLoopC st key fuel c.next

/-- `nx_json_get`, for `NULL` and `dummy` (`none`) or a node. -/
def nxJsonGetC (st : NxMem) (json : Option Nat) (key : Text) : Option (Option Nat) :=
  match json with
  | none => some none
  | some json => do
    let c ← st.heap json
    nxJsonGetLoopC st key (c.length + 1) c.child

/-- The loop of `nx_json_item`. -/
def nxJsonItemLoopC (st : NxMem) : Nat → Option Nat → Nat → Option (Option Nat)
  | 0, _, _ => none
  | _ + 1, none, _ => some none
  | _ + 1, some js, 0 => some (some js)
  | fuel + 1, some js, idx + 1 => do
    let c ← st.heap js
    nxJsonItemLoopC st fuel c.next idx

/-- `nx_json_item` -/
def nxJsonItemC (st : NxMem) (json : Option Nat) (idx : Nat) : Option (Option Nat) :=
  match json with
  | none => some none
  | some json => do
    let c ← st.heap json
    nxJsonItemLoopC st (c.length + 1) c.child idx

/-! ## 2. What a node stands for -/

/-- What a node says beside its children. -/
structure NxLabel where
  type : NxJsonType
  key : Option Text
  textValue : Text
  intValue : BitVec 64

mutual

/-- A value as a tree of labels. -/
def NxJson.tree : NxJson → RoseTree NxLabel
  | .node t k s i children => .node ⟨t, k, s, i⟩ (trees children)

def trees : List NxJson → List (RoseTree NxLabel)
  | [] => []
  | js :: jss => js.tree :: trees jss

end

theorem trees_append (jss jss' : List NxJson) : trees (jss ++ jss') = trees jss ++ trees jss' := by
  induction jss with
  | nil => rfl
  | cons js jss ih => rw [List.cons_append, trees, trees, ih, List.cons_append]

theorem length_trees (jss : List NxJson) : (trees jss).length = jss.length := by
  induction jss with
  | nil => rfl
  | cons js jss ih => rw [trees, List.length_cons, List.length_cons, ih]

mutual

theorem size_tree : ∀ js : NxJson, js.tree.size = js.count
  | .node t k s i children => by rw [NxJson.tree, RoseTree.size, NxJson.count, sizes_trees children]

theorem sizes_trees : ∀ jss : List NxJson, sizes (trees jss) = countAll jss
  | [] => by rw [trees, sizes_nil, countAll]
  | js :: jss => by rw [trees, sizes_cons, countAll, size_tree js, sizes_trees jss]

end

/-- The fields of a node say what the label says; its strings are in the buffer, in front of
`e`. -/
structure NodeHolds (m : List Byte) (e : Nat) (d : NxData) (x : NxLabel) : Prop where
  type : d.type = x.type
  key : KeyRef m e d.key x.key
  text : if x.type = .string then KeyRef m e d.textValue (some x.textValue)
    else d.textValue = none ∧ x.textValue = []
  int : d.intValue = x.intValue

theorem NodeHolds.kept {m m' : List Byte} {e e' : Nat} (hk : Kept m m' e) (hle : e ≤ e')
    (d : NxData) (x : NxLabel) (h : NodeHolds m e d x) : NodeHolds m' e' d x where
  type := h.type
  key := h.key.kept hk hle
  text := by
    have htext := h.text
    split at htext
    · rename_i hs
      rw [if_pos hs]
      exact htext.kept hk hle
    · rename_i hs
      rw [if_neg hs]
      exact htext
  int := h.int

/-- Any fields, where only the links count. -/
def AnyData (_ : NxData) (_ : NxLabel) : Prop := True

theorem NodeHolds.any {m : List Byte} {e : Nat} (d : NxData) (x : NxLabel) (_ : NodeHolds m e d x) :
    AnyData d x := trivial

/-- What `parse_value` leaves under its parent: the value as one more child; and where it fails,
nodes with links that are sound. -/
def ValueParsed (st : NxMem) (parent : Nat) (d : NxData) (ts : List (RoseTree NxLabel)) (p : Nat) :
    Except NxError Parsed → Option (NxMem × Option Nat) → Prop
  | .ok v, r => ∃ st' e, r = some (st', some e) ∧ Kept st.text st'.text p ∧ p ≤ e ∧
      AtText st'.text e v.rest ∧ st'.allocs = v.allocs ∧
      Open (NodeHolds st'.text e) st'.heap (st'.allocs + 1) parent d (ts ++ trees v.node.toList) ∧
      ∀ x, x < parent → st'.heap x = st.heap x
  | .error _, r => ∃ st' us, r = some (st', none) ∧ us.length ≤ 1 ∧
      Open AnyData st'.heap (st'.allocs + 1) parent d (ts ++ us) ∧
      ∀ x, x < parent → st'.heap x = st.heap x

/-- What the loops over members and elements leave. -/
def LoopParsed (st : NxMem) (js : Nat) (d : NxData) (ts : List (RoseTree NxLabel)) (p : Nat) :
    Except NxError (List NxJson × Text × Nat) → Option (NxMem × Option Nat) → Prop
  | .ok (jss, q, m), r => ∃ st' e, r = some (st', some e) ∧ Kept st.text st'.text p ∧ p ≤ e ∧
      AtText st'.text e q ∧ st'.allocs = m ∧
      Open (NodeHolds st'.text e) st'.heap (st'.allocs + 1) js d (ts ++ trees jss) ∧
      ∀ x, x < js → st'.heap x = st.heap x
  | .error _, r => ∃ st' us, r = some (st', none) ∧
      Open AnyData st'.heap (st'.allocs + 1) js d (ts ++ us) ∧
      ∀ x, x < js → st'.heap x = st.heap x

/-- A node is open under its parent, and nothing is stored to it yet. -/
structure Created (st st₁ : NxMem) (parent : Nat) (d : NxData) (ts : List (RoseTree NxLabel))
    (p : Nat) (type : NxJsonType) (key : Option Nat) : Prop where
  text : st₁.text = st.text
  allocs : st₁.allocs = st.allocs + 1
  pending : Pending (NodeHolds st.text p) st₁.heap parent d ts (st.allocs + 1)
  opened : Open (NodeHolds st.text p) st₁.heap (st₁.allocs + 1) (st.allocs + 1)
    ⟨type, key, none, 0⟩ []
  frame : ∀ x, x < parent → st₁.heap x = st.heap x

/-! ## 3. One node -/

section Nodes

variable {alloc : Nat → Bool} {st st₁ : NxMem} {parent p : Nat} {d d' : NxData}
  {ts : List (RoseTree NxLabel)} {R : NxData → NxLabel → Prop} {type : NxJsonType} {k : Option Nat}

theorem createJsonC_fails (halloc : alloc st.allocs ≠ true) (type : NxJsonType)
    (key : Option Nat) : createJsonC alloc st type key parent = some (st, none) := by
  rw [createJsonC, if_neg halloc]
  rfl

/-- A node is opened under its parent. -/
theorem createJsonC_spec (halloc : alloc st.allocs = true)
    (ho : Open (NodeHolds st.text p) st.heap (st.allocs + 1) parent d ts) (type : NxJsonType)
    (key : Option Nat) :
    ∃ st₁, createJsonC alloc st type key parent = some (st₁, some (st.allocs + 1)) ∧
      Created st st₁ parent d ts p type key := by
  obtain ⟨h', hadd, hpend, hopen, hframe⟩ := ho.addChild ⟨type, key, none, 0⟩
  refine ⟨⟨st.text, h', st.allocs + 1⟩, ?_, rfl, rfl, hpend, hopen, hframe⟩
  rw [createJsonC, if_pos halloc, hadd]
  rfl

/-- And its fields are stored to. -/
theorem setData_spec (st : NxMem) {a fresh : Nat} {ts' : List (RoseTree NxLabel)}
    (f : NxData → NxData)
    (ho : Open R st.heap fresh a d ts') : ∃ st₁, setData st a f = some st₁ ∧
      st₁.text = st.text ∧ st₁.allocs = st.allocs ∧ Open R st₁.heap fresh a (f d) ts' ∧
      ∀ x, x < a → st₁.heap x = st.heap x := by
  have hend := ho.end_eq
  have heq : setData st a f = some { st with heap := Function.update st.heap a (some
      ⟨f d, ts'.length, firstAt (a + 1) ts', none, lastAt (a + 1) ts'⟩) } := by
    rw [setData, ho.cell]
    rfl
  refine ⟨_, heq, rfl, rfl, ⟨?_, ?_, hend, ?_⟩, ?_⟩
  · exact Function.update_self _ _ _
  · exact ho.sibs.frame fun x hle _ => Function.update_of_ne (by omega) _ _
  · intro x hx
    rw [← ho.unused x hx]
    exact Function.update_of_ne (by omega) _ _
  · intro x hx
    exact Function.update_of_ne (by omega) _ _

/-- A node without children is complete. -/
theorem ValueParsed.leaf {st₂ : NxMem} {e n : Nat} {js : NxJson} {q : Text}
    (h : Created st st₁ parent d ts p type k)
    (hopen : Open R st₂.heap (st₂.allocs + 1) (st.allocs + 1) d' [])
    (hframe₂ : ∀ x, x < st.allocs + 1 → st₂.heap x = st₁.heap x) (hk : Kept st.text st₂.text p)
    (hle : p ≤ e) (htext : AtText st₂.text e q) (hn : st₂.allocs = n) {x : NxLabel}
    (hjs : js.tree = .node x []) (hx : NodeHolds st₂.text e d' x) :
    ValueParsed st parent d ts p (.ok ⟨some js, q, n⟩) (some (st₂, some e)) := by
  have haddr := h.pending.addr
  refine ⟨st₂, e, rfl, hk, hle, htext, hn, ?_, fun y hy => ?_⟩
  · have htrees : trees (Option.toList (some js)) = [.node x []] := by
      rw [Option.toList_some, trees, trees, hjs]
    rw [htrees]
    refine ((h.pending.frame hframe₂).mono (NodeHolds.kept hk hle)).close ?_ hx
    exact ⟨hopen.cell, by rw [SibsAt]; trivial, hopen.end_eq, hopen.unused⟩
  · rw [hframe₂ y (by omega), h.frame y hy]

/-- A node that is left incomplete. -/
theorem ValueParsed.fails (st₂ : NxMem) {us : List (RoseTree NxLabel)}
    (h : Created st st₁ parent d ts p type k)
    (hopen : Open AnyData st₂.heap (st₂.allocs + 1) (st.allocs + 1) d' us)
    (hframe₂ : ∀ x, x < st.allocs + 1 → st₂.heap x = st₁.heap x) (err : NxError) :
    ValueParsed st parent d ts p (.error err) (some (st₂, none)) := by
  have haddr := h.pending.addr
  refine ⟨st₂, [.node ⟨.null, none, [], 0⟩ us], rfl, Nat.le_refl 1, ?_, fun y hy => ?_⟩
  · exact ((h.pending.frame hframe₂).mono (S := AnyData) fun _ _ _ => trivial).close hopen trivial
  · rw [hframe₂ y (by omega), h.frame y hy]

/-- Nothing has happened. -/
theorem ValueParsed.nothing (ho : Open R st.heap (st.allocs + 1) parent d ts) (err : NxError) :
    ValueParsed st parent d ts p (.error err) (some (st, none)) :=
  ⟨st, [], rfl, Nat.zero_le 1, by
    rw [List.append_nil]
    exact ho.mono fun _ _ _ => trivial, fun _ _ => rfl⟩

/-- A node with children is complete when its loop is. -/
theorem ValueParsed.nested {p' : Nat} {key : Option Text}
    {x : Except NxError (List NxJson × Text × Nat)} {r : Option (NxMem × Option Nat)}
    (h : Created st st₁ parent d ts p type k) (hp : p ≤ p') (htype : type ≠ .string)
    (hkey : KeyRef st.text p k key)
    (hloop : LoopParsed st₁ (st.allocs + 1) ⟨type, k, none, 0⟩ [] p' x r) :
    ValueParsed st parent d ts p
      (do let (children, q, n) ← x; return ⟨some (.node type key [] 0 children), q, n⟩) r := by
  have haddr := h.pending.addr
  cases x with
  | error err =>
    obtain ⟨st₂, us, rfl, hopen, hframe₂⟩ := hloop
    exact .fails _ h hopen hframe₂ err
  | ok s =>
    obtain ⟨jss, q, n⟩ := s
    obtain ⟨st₂, e, rfl, hk, hle, htext, hn, hopen, hframe₂⟩ := hloop
    rw [h.text] at hk
    have hk' := hk.mono hp
    have hle' : p ≤ e := hp.trans hle
    refine ⟨st₂, e, rfl, hk', hle', htext, hn, ?_, fun y hy => ?_⟩
    · have hlabel : NodeHolds st₂.text e ⟨type, k, none, 0⟩ ⟨type, key, [], 0⟩ :=
        ⟨rfl, hkey.kept hk' hle', by rw [if_neg htype]; exact ⟨rfl, rfl⟩, rfl⟩
      have htrees : trees (Option.toList (some (NxJson.node type key [] 0 jss))) =
          [.node ⟨type, key, [], 0⟩ (trees jss)] := by
        rw [Option.toList_some, trees, trees, NxJson.tree]
      rw [htrees]
      exact ((h.pending.frame hframe₂).mono (NodeHolds.kept hk' hle')).close hopen hlabel
    · rw [hframe₂ y (by omega), h.frame y hy]

/-- A node is made, unless there is no memory for it. -/
theorem ValueParsed.create {x : Except NxError Parsed}
    {s : NxMem → Nat → Option (NxMem × Option Nat)}
    (ho : Open (NodeHolds st.text p) st.heap (st.allocs + 1) parent d ts)
    (hx : ∀ st₁, alloc st.allocs = true → Created st st₁ parent d ts p type k →
      ValueParsed st parent d ts p x (s st₁ (st.allocs + 1))) :
    ValueParsed st parent d ts p (if alloc st.allocs then x else .error .noMemory)
      ((createJsonC alloc st type k parent).bind fun
        | (st, none) => some (st, none)
        | (st, some js) => s st js) := by
  by_cases halloc : alloc st.allocs = true
  · obtain ⟨st₁, hcreate, h⟩ := createJsonC_spec halloc ho type k
    rw [if_pos halloc, hcreate]
    exact hx st₁ halloc h
  · rw [if_neg halloc, createJsonC_fails halloc]
    exact .nothing ho _

end Nodes

/-! ## 4. The parser -/

theorem textAt_spec {m : List Byte} {p : Nat} {q : Text} (h : AtText m p q) :
    textAt m p = some q := by
  obtain ⟨⟨junk, hdrop⟩, hzero⟩ := h
  have hcstr : cString (q ++ 0 :: junk) = q := by
    rw [cString, List.takeWhile_append_of_pos fun c hc => by
      simpa using fun h0 : c = 0 => hzero (h0 ▸ hc)]
    simp
  rw [textAt, hdrop, if_pos (by simp), hcstr]

theorem strncmpC_spec {m : List Byte} {p : Nat} {q w : Text} (h : AtText m p q) (hw : 0 ∉ w) :
    strncmpC m p w = some (w.isPrefixOf q) := by
  induction w generalizing p q with
  | nil => simp [strncmpC]
  | cons c w ih =>
    rw [List.mem_cons, not_or] at hw
    rw [strncmpC, h.get, Option.bind_eq_bind, Option.bind_some]
    cases q with
    | nil =>
      rw [List.headD_nil, if_neg hw.1]
      rfl
    | cons d q =>
      rw [List.headD_cons]
      by_cases hd : d = c
      · rw [if_pos hd, ih h.tail hw.2, hd]
        simp
      · rw [if_neg hd]
        have hne : (c == d) = false := by simpa using Ne.symm hd
        simp [List.isPrefixOf, hne]

section Parser

variable {alloc : Nat → Bool} {st : NxMem} {parent p fuel : Nat} {d : NxData}
  {ts : List (RoseTree NxLabel)} {k : Option Nat} {key : Option Text} {q : Text}

/-- The cases of the three words. -/
theorem parseWordC_spec (h : AtText st.text p q)
    (ho : Open (NodeHolds st.text p) st.heap (st.allocs + 1) parent d ts)
    (hkey : KeyRef st.text p k key) {word : Text} (hw : 0 ∉ word) {type : NxJsonType}
    (htype : type ≠ .string) (v : BitVec 64) :
    ValueParsed st parent d ts p
      (match afterWord word q with
        | some q => parseLeaf alloc st.allocs q (.node type key [] v [])
        | none => .error .unexpectedChars)
      (parseWordC alloc st parent k p word type v) := by
  rw [parseWordC, strncmpC_spec h hw]
  simp only [Option.bind_eq_bind, Option.bind_some]
  unfold afterWord
  by_cases hpre : word.isPrefixOf q = true
  · obtain ⟨rest, rfl⟩ := List.isPrefixOf_iff_prefix.mp hpre
    rw [if_pos hpre, if_pos hpre, List.drop_left]
    unfold parseLeaf
    dsimp only
    refine .create ho fun st₁ _ hst₁ => ?_
    obtain ⟨st₂, hset, htext₂, hallocs₂, hopen₂, hframe₂⟩ :=
      setData_spec st₁ (fun d => { d with intValue := v }) hst₁.opened
    have hk : Kept st.text st₂.text p := by
      rw [htext₂, hst₁.text]
      exact .refl _ _
    rw [hset]
    refine .leaf hst₁ (hallocs₂.symm ▸ hopen₂) hframe₂ hk (Nat.le_add_right p _) ?_
      (hallocs₂.trans hst₁.allocs) (x := ⟨type, key, [], v⟩) (by rw [NxJson.tree, trees]) ?_
    · rw [htext₂, hst₁.text]
      exact h.append
    · exact ⟨rfl, hkey.kept hk (Nat.le_add_right p _), by rw [if_neg htype]; exact ⟨rfl, rfl⟩, rfl⟩
  · rw [if_neg hpre, if_neg hpre]
    exact .nothing ho _

section Leaves

variable {st₁ : NxMem} {e : Nat}

/-- The case of a string, behind the node's allocation. -/
theorem parseStringC_spec (h : AtText st.text (p + 1) q) (hkey : KeyRef st.text p k key)
    (hfuel : unescapeString (q.length + 1) q ≠ .error .outOfFuel)
    (hst₁ : Created st st₁ parent d ts p .string k) :
    ValueParsed st parent d ts p
      (do
        let (s, p) ← unescapeString (q.length + 1) q
        return ⟨some (.node .string key (cString s) 0 []), p, st.allocs + 1⟩)
      ((unescapeStringC (st₁.text.length + 1) st₁.text (p + 1) (p + 1)).bind fun
        | (text, none) => some ({ st₁ with text := text }, none)
        | (text, some q) =>
          (setData { st₁ with text := text } (st.allocs + 1)
            fun d => { d with textValue := some (p + 1) }).bind fun st => some (st, some q)) := by
  have hlen := h.lt_length
  rw [hst₁.text]
  have hres := unescapeStringC_spec (st.text.length + 1) h (Nat.le_refl _) (by omega)
    hfuel
  cases hx : unescapeString (q.length + 1) q with
  | error err =>
    rw [hx] at hres
    obtain ⟨m', hC, hk⟩ := hres
    rw [hC]
    change ValueParsed st parent d ts p _ (some ({ st₁ with text := m' }, none))
    exact .fails { st₁ with text := m' } hst₁ (hst₁.opened.mono NodeHolds.any)
      (fun _ _ => rfl) err
  | ok r =>
    obtain ⟨s, q'⟩ := r
    rw [hx] at hres
    obtain ⟨m', e, junk, hC, hk, htext, hdrop, hlt, -⟩ := hres
    obtain ⟨st₂, hset, htext₂, hallocs₂, hopen₂, hframe₂⟩ :=
      setData_spec { st₁ with text := m' } (fun d => { d with textValue := some (p + 1) })
        hst₁.opened
    dsimp only at htext₂ hallocs₂
    have hk' : Kept st.text st₂.text p := by
      rw [htext₂]
      exact hk.mono (Nat.le_succ p)
    have hstr : KeyRef st₂.text e (some (p + 1)) (some (cString s)) := by
      rw [htext₂]
      exact ⟨atText_cString hdrop, by have := length_cString_le s; omega⟩
    rw [hC, Option.bind_some]
    dsimp only
    rw [hset]
    refine .leaf hst₁ (hallocs₂.symm ▸ hopen₂) hframe₂ hk' (by omega) (htext₂ ▸ htext)
      (hallocs₂.trans hst₁.allocs) (x := ⟨.string, key, cString s, 0⟩)
      (by rw [NxJson.tree, trees]) ?_
    exact ⟨rfl, hkey.kept hk' (by omega), by rw [if_pos rfl]; exact hstr, rfl⟩

/-- The case of a number, behind the node's allocation. -/
theorem parseNumberC_spec (h : AtText st.text p q) (hkey : KeyRef st.text p k key)
    (hst₁ : Created st st₁ parent d ts p .integer k) :
    ValueParsed st parent d ts p
      (let (v, pe) := simpleStrtol q
        if pe = q then .error .invalidNumber
        else .ok ⟨some (.node .integer key [] v []), pe, st.allocs + 1⟩)
      ((textAt st₁.text p).bind fun s =>
        (setData st₁ (st.allocs + 1) fun d => { d with intValue := (simpleStrtol s).1 }).bind
          fun st => if (simpleStrtol s).2 = s then some (st, none)
            else some (st, some (p + (s.length - (simpleStrtol s).2.length)))) := by
  obtain ⟨st₂, hset, htext₂, hallocs₂, hopen₂, hframe₂⟩ :=
    setData_spec st₁ (fun d => { d with intValue := (simpleStrtol q).1 }) hst₁.opened
  have hk : Kept st.text st₂.text p := by
    rw [htext₂, hst₁.text]
    exact .refl _ _
  rw [hst₁.text, textAt_spec h, Option.bind_some, hset, Option.bind_some]
  dsimp only
  by_cases hpe : (simpleStrtol q).2 = q
  · rw [if_pos hpe, if_pos hpe]
    exact .fails st₂ hst₁ (hallocs₂.symm ▸ hopen₂.mono NodeHolds.any) hframe₂ _
  · rw [if_neg hpe, if_neg hpe]
    obtain ⟨w, hw⟩ := simpleStrtol_suffix q
    have hlen : q.length - (simpleStrtol q).2.length = w.length := by
      have hlen := congrArg List.length hw
      rw [List.length_append] at hlen
      omega
    have htext : AtText st₂.text (p + w.length) (simpleStrtol q).2 := by
      rw [htext₂, hst₁.text]
      exact AtText.append (by rwa [hw])
    rw [hlen]
    refine .leaf hst₁ (hallocs₂.symm ▸ hopen₂) hframe₂ hk (Nat.le_add_right _ _) htext
      (hallocs₂.trans hst₁.allocs) (x := ⟨.integer, key, [], (simpleStrtol q).1⟩)
      (by rw [NxJson.tree, trees]) ?_
    exact ⟨rfl, hkey.kept hk (Nat.le_add_right _ _), by
      rw [if_neg (by simp)]
      exact ⟨rfl, rfl⟩, rfl⟩

end Leaves

/-- `parse_value` is as in `Nxjson`, with this fuel. -/
def ValueRefined (alloc : Nat → Bool) (fuel : Nat) : Prop :=
  ∀ st parent d ts k key p q, AtText st.text p q →
    Open (NodeHolds st.text p) st.heap (st.allocs + 1) parent d ts → KeyRef st.text p k key →
    parseValue alloc fuel st.allocs key q ≠ .error .outOfFuel →
    ValueParsed st parent d ts p (parseValue alloc fuel st.allocs key q)
      (parseValueC alloc fuel st parent k p)

/-- A loop is as in `Nxjson`. -/
def LoopRefined (loop : Nat → Text → Except NxError (List NxJson × Text × Nat))
    (loopC : NxMem → Nat → Nat → Option (NxMem × Option Nat)) : Prop :=
  ∀ st js d ts p q, AtText st.text p q →
    Open (NodeHolds st.text p) st.heap (st.allocs + 1) js d ts →
    loop st.allocs q ≠ .error .outOfFuel →
    LoopParsed st js d ts p (loop st.allocs q) (loopC st js p)

/-- Going on at a later place. -/
theorem ValueRefined.later (hvalue : ValueRefined alloc fuel) {e : Nat} (hle : p ≤ e)
    (h : AtText st.text e q) (ho : Open (NodeHolds st.text p) st.heap (st.allocs + 1) parent d ts)
    (hkey : KeyRef st.text p k key)
    (hfuel : parseValue alloc fuel st.allocs key q ≠ .error .outOfFuel) :
    ValueParsed st parent d ts p (parseValue alloc fuel st.allocs key q)
      (parseValueC alloc fuel st parent k e) := by
  have hres := hvalue _ _ _ _ _ _ _ _ h (ho.mono (NodeHolds.kept (.refl _ _) hle))
    (hkey.kept (.refl _ _) hle) hfuel
  cases hx : parseValue alloc fuel st.allocs key q with
  | error err =>
    rw [hx] at hres
    exact hres
  | ok v =>
    rw [hx] at hres
    obtain ⟨st', e', hr, hk, hpe, hrest⟩ := hres
    exact ⟨st', e', hr, hk.mono hle, hle.trans hpe, hrest⟩

/-- The case of a comment. -/
theorem parseValueC_comment (hvalue : ValueRefined alloc fuel) (h : AtText st.text (p + 1) q)
    (ho : Open (NodeHolds st.text p) st.heap (st.allocs + 1) parent d ts)
    (hkey : KeyRef st.text p k key)
    (hfuel : (do let q ← skipComment q; parseValue alloc fuel st.allocs key q) ≠
      .error .outOfFuel) :
    ValueParsed st parent d ts p (do let q ← skipComment q; parseValue alloc fuel st.allocs key q)
      ((skipCommentC st.text (p + 1)).bind fun
        | none => some (st, none)
        | some p => parseValueC alloc fuel st parent k p) := by
  have hskip := skipCommentC_spec h
  cases hx : skipComment q with
  | error e =>
    rw [hx] at hskip
    rw [show skipCommentC st.text (p + 1) = some none from hskip]
    exact .nothing ho _
  | ok q' =>
    rw [hx] at hskip hfuel
    obtain ⟨w, rfl, hw⟩ := hskip
    rw [hw]
    exact hvalue.later (by omega) h.append ho hkey hfuel

/-- The cases of an object and of an array. -/
theorem parseNestedC_spec {loop : Nat → Text → Except NxError (List NxJson × Text × Nat)}
    {loopC : NxMem → Nat → Nat → Option (NxMem × Option Nat)} (hloop : LoopRefined loop loopC)
    (h : AtText st.text (p + 1) q)
    (ho : Open (NodeHolds st.text p) st.heap (st.allocs + 1) parent d ts)
    (hkey : KeyRef st.text p k key) {type : NxJsonType} (htype : type ≠ .string)
    (hfuel : (if alloc st.allocs then do
        let (children, q, n) ← loop (st.allocs + 1) q
        return (⟨some (.node type key [] 0 children), q, n⟩ : Parsed)
      else .error .noMemory) ≠ .error .outOfFuel) :
    ValueParsed st parent d ts p
      (if alloc st.allocs then do
        let (children, q, n) ← loop (st.allocs + 1) q
        return (⟨some (.node type key [] 0 children), q, n⟩ : Parsed)
      else .error .noMemory)
      ((createJsonC alloc st type k parent).bind fun
        | (st, none) => some (st, none)
        | (st, some js) => loopC st js (p + 1)) := by
  refine .create ho fun st₁ halloc hst₁ => ?_
  have hres := hloop st₁ (st.allocs + 1) _ [] (p + 1) q (hst₁.text ▸ h)
    (hst₁.opened.mono (NodeHolds.kept (hst₁.text ▸ .refl _ _) (Nat.le_succ p)))
  rw [hst₁.allocs] at hres
  rw [if_pos halloc] at hfuel
  exact .nested hst₁ (Nat.le_succ p) htype hkey (hres (ne_outOfFuel_of_bind hfuel))

/-- `parse_value`, if what it calls is as in `Nxjson`. -/
theorem parseValueC_step (hvalue : ValueRefined alloc fuel)
    (hobject : LoopRefined (parseObject alloc fuel) (parseObjectC alloc fuel))
    (harray : LoopRefined (parseArray alloc fuel) (parseArrayC alloc fuel)) :
    ValueRefined alloc (fuel + 1) := by
  intro st parent d ts k key p q h ho hkey hfuel
  rw [parseValueC, h.get]
  simp only [Option.bind_eq_bind, Option.bind_some]
  cases q with
  | nil =>
    rw [List.headD_nil, if_pos rfl]
    exact .nothing ho _
  | cons c q =>
    rw [List.headD_cons, if_neg h.ne_zero]
    rw [parseValue] at hfuel ⊢
    by_cases hblank : c = 0x20 ∨ c = 0x09 ∨ c = 0x0a ∨ c = 0x0d ∨ c = 0x2c
    · rw [if_pos hblank] at hfuel ⊢
      rw [if_pos hblank]
      exact hvalue.later (Nat.le_succ p) h.tail ho hkey hfuel
    rw [if_neg hblank] at hfuel ⊢
    rw [if_neg hblank]
    by_cases hobj : c = 0x7b
    · rw [if_pos hobj] at hfuel ⊢
      rw [if_pos hobj]
      exact parseNestedC_spec hobject h.tail ho hkey (by decide) hfuel
    rw [if_neg hobj] at hfuel ⊢
    rw [if_neg hobj]
    by_cases harr : c = 0x5b
    · rw [if_pos harr] at hfuel ⊢
      rw [if_pos harr]
      exact parseNestedC_spec harray h.tail ho hkey (by decide) hfuel
    rw [if_neg harr] at hfuel ⊢
    rw [if_neg harr]
    by_cases hbracket : c = 0x5d
    · rw [if_pos hbracket, if_pos hbracket]
      exact ⟨st, p, rfl, .refl _ _, Nat.le_refl p, h, rfl, by simpa [trees] using ho,
        fun _ _ => rfl⟩
    rw [if_neg hbracket] at hfuel ⊢
    rw [if_neg hbracket]
    by_cases hquote : c = 0x22
    · rw [if_pos hquote] at hfuel ⊢
      rw [if_pos hquote]
      refine .create ho fun st₁ halloc hst₁ => ?_
      rw [if_pos halloc] at hfuel
      exact parseStringC_spec h.tail hkey (ne_outOfFuel_of_bind hfuel) hst₁
    rw [if_neg hquote] at hfuel ⊢
    rw [if_neg hquote]
    by_cases hdigit : c = 0x2d ∨ 0x30#8 ≤ c ∧ c ≤ 0x39#8
    · rw [if_pos hdigit, if_pos hdigit]
      exact .create ho fun st₁ _ hst₁ => parseNumberC_spec h hkey hst₁
    rw [if_neg hdigit] at hfuel ⊢
    rw [if_neg hdigit]
    by_cases htrue : c = 0x74
    · rw [if_pos htrue, if_pos htrue]
      exact parseWordC_spec h ho hkey (by decide) (by decide) 1
    rw [if_neg htrue] at hfuel ⊢
    rw [if_neg htrue]
    by_cases hfalse : c = 0x66
    · rw [if_pos hfalse, if_pos hfalse]
      exact parseWordC_spec h ho hkey (by decide) (by decide) 0
    rw [if_neg hfalse] at hfuel ⊢
    rw [if_neg hfalse]
    by_cases hnull : c = 0x6e
    · rw [if_pos hnull, if_pos hnull]
      exact parseWordC_spec h ho hkey (by decide) (by decide) 0
    rw [if_neg hnull] at hfuel ⊢
    rw [if_neg hnull]
    by_cases hslash : c = 0x2f
    · rw [if_pos hslash] at hfuel ⊢
      rw [if_pos hslash]
      exact parseValueC_comment hvalue h.tail ho hkey hfuel
    · rw [if_neg hslash, if_neg hslash]
      exact .nothing ho _

/-- The character at the pointer. -/
theorem headD_eq_iff {c : Byte} (hc : c ≠ 0) : q.headD 0 = c ↔ ∃ q', q = c :: q' := by
  cases q with
  | nil => simpa using Ne.symm hc
  | cons d q => simp

/-- One value and the rest of a loop. -/
theorem LoopParsed.value (st₁ : NxMem) {js e : Nat} {x : Except NxError Parsed}
    {y : Parsed → Except NxError (List NxJson × Text × Nat)} {r : Option (NxMem × Option Nat)}
    {s : NxMem → Nat → Option (NxMem × Option Nat)} (hk : Kept st.text st₁.text p) (hle : p ≤ e)
    (hframe : ∀ x, x < js → st₁.heap x = st.heap x) (hx : ValueParsed st₁ js d ts e x r)
    (hy : ∀ v st₂ e₂, x = .ok v → e ≤ e₂ → AtText st₂.text e₂ v.rest → st₂.allocs = v.allocs →
      Open (NodeHolds st₂.text e₂) st₂.heap (st₂.allocs + 1) js d (ts ++ trees v.node.toList) →
      LoopParsed st₂ js d (ts ++ trees v.node.toList) e₂ (y v) (s st₂ e₂)) :
    LoopParsed st js d ts p
      (do let v ← x; let (children, q, m) ← y v; return (v.node.toList ++ children, q, m))
      (r.bind fun
        | (st, none) => some (st, none)
        | (st, some p) => s st p) := by
  cases x with
  | error err =>
    obtain ⟨st₂, us, rfl, -, hopen, hframe₂⟩ := hx
    exact ⟨st₂, us, rfl, hopen, fun a ha => (hframe₂ a ha).trans (hframe a ha)⟩
  | ok v =>
    obtain ⟨st₂, e₂, rfl, hk₂, hle₂, htext₂, hallocs₂, hopen₂, hframe₂⟩ := hx
    have hrest := hy v st₂ e₂ rfl hle₂ htext₂ hallocs₂ hopen₂
    have hframe' : ∀ a, a < js → st₂.heap a = st.heap a :=
      fun a ha => (hframe₂ a ha).trans (hframe a ha)
    rw [Option.bind_some]
    dsimp only
    cases hv : y v with
    | error err =>
      rw [hv] at hrest
      obtain ⟨st₃, us, hr, hopen₃, hframe₃⟩ := hrest
      simp only [bind, Except.bind, hv]
      exact ⟨st₃, trees v.node.toList ++ us, hr, by rw [← List.append_assoc]; exact hopen₃,
        fun a ha => (hframe₃ a ha).trans (hframe' a ha)⟩
    | ok z =>
      obtain ⟨jss, q, m⟩ := z
      rw [hv] at hrest
      obtain ⟨st₃, e₃, hr, hk₃, hle₃, htext₃, hallocs₃, hopen₃, hframe₃⟩ := hrest
      simp only [bind, Except.bind, hv]
      refine ⟨st₃, e₃, hr, ?_, by omega, htext₃, hallocs₃, ?_,
        fun a ha => (hframe₃ a ha).trans (hframe' a ha)⟩
      · exact hk.trans ((hk₂.mono hle).trans (hk₃.mono (by omega)))
      · rw [trees_append, ← List.append_assoc]
        exact hopen₃

/-- The loop over the members, if what it calls is as in `Nxjson`. -/
theorem parseObjectC_step (hvalue : ValueRefined alloc fuel)
    (hobject : LoopRefined (parseObject alloc fuel) (parseObjectC alloc fuel)) :
    LoopRefined (parseObject alloc (fuel + 1)) (parseObjectC alloc (fuel + 1)) := by
  intro st js d ts p q h ho hfuel
  have hlen := h.lt_length
  have hkeyFuel : parseKey (q.length + 1) q ≠ .error .outOfFuel := by
    rw [parseObject] at hfuel
    exact ne_outOfFuel_of_bind hfuel
  have hkey := parseKeyC_spec (st.text.length + 1) h (by omega) hkeyFuel
  rw [parseObjectC]
  cases hx : parseKey (q.length + 1) q with
  | error e =>
    rw [hx] at hkey
    obtain ⟨m', hC, -⟩ := hkey
    rw [hC, parseObject, hx]
    exact ⟨_, [], rfl, by rw [List.append_nil]; exact ho.mono NodeHolds.any, fun _ _ => rfl⟩
  | ok r =>
    obtain ⟨key, q₁⟩ := r
    rw [hx] at hkey
    obtain ⟨m', k, e, hC, hk, href, htext, hle⟩ := hkey
    have ho₁ := ho.mono (NodeHolds.kept hk hle)
    rw [hC]
    simp only [Option.bind_eq_bind, Option.bind_some]
    rw [htext.get, Option.bind_some]
    by_cases hbrace : ∃ q₂, q₁ = 0x7d :: q₂
    · obtain ⟨q₂, rfl⟩ := hbrace
      rw [parseObject, hx, List.headD_cons, if_pos rfl]
      exact ⟨{ st with text := m' }, e + 1, rfl, hk, by omega, htext.tail, rfl, by
        rw [trees, List.append_nil]
        exact ho₁.mono (NodeHolds.kept (.refl _ _) (Nat.le_succ e)), fun _ _ => rfl⟩
    · have hne : ∀ q', q₁ ≠ 0x7d :: q' := fun q' heq => hbrace ⟨q', heq⟩
      rw [parseObject_member hx hne] at hfuel ⊢
      rw [if_neg fun hhead => hbrace ((headD_eq_iff (by decide)).mp hhead)]
      have hres := hvalue { st with text := m' } js d ts k key e q₁ htext ho₁ href
        (ne_outOfFuel_of_bind hfuel)
      refine LoopParsed.value { st with text := m' } hk hle (fun _ _ => rfl) hres ?_
      intro v st₂ e₂ hv _ htext₂ hallocs₂ hopen₂
      rw [← hallocs₂]
      refine hobject st₂ js d _ e₂ v.rest htext₂ hopen₂ ?_
      rw [hv] at hfuel
      rw [hallocs₂]
      exact ne_outOfFuel_of_bind (x := parseObject alloc fuel _ _) hfuel

/-- What follows a value in an array: its end, or the other elements. -/
def arrayRest (alloc : Nat → Bool) (fuel : Nat) (v : Parsed) :
    Except NxError (List NxJson × Text × Nat) :=
  match v.rest with
  | 0x5d :: q => .ok ([], q, v.allocs)
  | _ => parseArray alloc fuel v.allocs v.rest

theorem arrayRest_end {v : Parsed} {q : Text} (h : v.rest = 0x5d :: q) :
    arrayRest alloc fuel v = .ok ([], q, v.allocs) := by
  unfold arrayRest
  rw [h]
  rfl

theorem arrayRest_more {v : Parsed} (h : ∀ q, v.rest ≠ 0x5d :: q) :
    arrayRest alloc fuel v = parseArray alloc fuel v.allocs v.rest := by
  unfold arrayRest
  split
  · rename_i q heq
    exact absurd heq (h q)
  · rfl

theorem parseArray_eq (alloc : Nat → Bool) (fuel n : Nat) (p : Text) :
    parseArray alloc (fuel + 1) n p = (do
      let v ← parseValue alloc fuel n none p
      let (children, q, m) ← arrayRest alloc fuel v
      return (v.node.toList ++ children, q, m)) := by
  cases hv : parseValue alloc fuel n none p with
  | error e =>
    rw [parseArray, hv]
    rfl
  | ok v =>
    by_cases hbracket : ∃ q, v.rest = 0x5d :: q
    · obtain ⟨q, hq⟩ := hbracket
      rw [parseArray_end hv hq]
      simp [bind, Except.bind, arrayRest_end hq, pure, Except.pure]
    · have hne : ∀ q, v.rest ≠ 0x5d :: q := fun q h => hbracket ⟨q, h⟩
      rw [parseArray_element hv hne, ← arrayRest_more hne]
      rfl

/-- The loop over the elements, if what it calls is as in `Nxjson`. -/
theorem parseArrayC_step (hvalue : ValueRefined alloc fuel)
    (harray : LoopRefined (parseArray alloc fuel) (parseArrayC alloc fuel)) :
    LoopRefined (parseArray alloc (fuel + 1)) (parseArrayC alloc (fuel + 1)) := by
  intro st js d ts p q h ho hfuel
  rw [parseArray_eq] at hfuel ⊢
  rw [parseArrayC]
  have hres := hvalue st js d ts none none p q h ho trivial (ne_outOfFuel_of_bind hfuel)
  refine LoopParsed.value st (.refl _ _) (Nat.le_refl p) (fun _ _ => rfl) hres ?_
  intro v st₂ e₂ hv _ htext₂ hallocs₂ hopen₂
  have hrest : arrayRest alloc fuel v ≠ .error .outOfFuel := by
    rw [hv] at hfuel
    exact ne_outOfFuel_of_bind (x := arrayRest alloc fuel v) hfuel
  rw [htext₂.get, Option.bind_eq_bind, Option.bind_some]
  by_cases hbracket : ∃ q₂, v.rest = 0x5d :: q₂
  · obtain ⟨q₂, hq₂⟩ := hbracket
    rw [hq₂] at htext₂
    rw [arrayRest_end hq₂, hq₂, List.headD_cons, if_pos rfl]
    exact ⟨st₂, e₂ + 1, rfl, .refl _ _, Nat.le_succ e₂, htext₂.tail, hallocs₂, by
      rw [trees, List.append_nil]
      exact hopen₂.mono (NodeHolds.kept (.refl _ _) (Nat.le_succ e₂)), fun _ _ => rfl⟩
  · have hne : ∀ q', v.rest ≠ 0x5d :: q' := fun q' heq => hbracket ⟨q', heq⟩
    rw [arrayRest_more hne, ← hallocs₂] at hrest ⊢
    rw [if_neg fun hhead => hbracket ((headD_eq_iff (by decide)).mp hhead)]
    exact harray st₂ js d _ e₂ v.rest htext₂ hopen₂ hrest

end Parser

/-- **The parser on memory is the parser of `Nxjson`.** -/
theorem parseC_spec (alloc : Nat → Bool) (fuel : Nat) :
    ValueRefined alloc fuel ∧
      LoopRefined (parseObject alloc fuel) (parseObjectC alloc fuel) ∧
      LoopRefined (parseArray alloc fuel) (parseArrayC alloc fuel) := by
  induction fuel with
  | zero =>
    refine ⟨fun st parent d ts k key p q _ _ _ h => ?_, fun st js d ts p q _ _ h => ?_,
      fun st js d ts p q _ _ h => ?_⟩
    · exact absurd (by rw [parseValue]) h
    · exact absurd (by rw [parseObject]) h
    · exact absurd (by rw [parseArray]) h
  | succ fuel ih =>
    obtain ⟨hvalue, hobject, harray⟩ := ih
    exact ⟨parseValueC_step hvalue hobject harray, parseObjectC_step hvalue hobject,
      parseArrayC_step hvalue harray⟩

/-! ## 5. Freeing -/

mutual

/-- `nx_json_free` frees the nodes of the tree, each once, and no other. -/
theorem nxJsonFree_tree {R : NxData → NxLabel → Prop} {next : Option Nat} :
    ∀ {t : RoseTree NxLabel} (fuel : Nat) {a : Nat} {heap : Heap NxData}, TreeAt R heap a t next →
      2 * t.size ≤ fuel → ∃ heap', nxJsonFree fuel heap a = some heap' ∧
        ∀ x, heap' x = if a ≤ x ∧ x < a + t.size then none else heap x
  | .node x ts, 0, a, heap, _, hfuel => by
    rw [RoseTree.size] at hfuel
    omega
  | .node x ts, fuel + 1, a, heap, ht, hfuel => by
    rw [TreeAt] at ht
    rw [RoseTree.size] at hfuel
    obtain ⟨⟨d, -, hcell⟩, hts⟩ := ht
    obtain ⟨heap₁, hloop, heq⟩ := nxJsonFreeLoop_sibs fuel hts (by omega)
    have hcell₁ : heap₁ a = heap a := by rw [heq a, if_neg (by omega)]
    refine ⟨Function.update heap₁ a none, ?_, fun y => ?_⟩
    · rw [nxJsonFree, hcell, Option.bind_eq_bind, Option.bind_some, hloop, Option.bind_eq_bind,
        Option.bind_some, hcell₁, hcell]
      rfl
    · rw [RoseTree.size]
      by_cases hy : y = a
      · rw [hy, Function.update_self, if_pos (by omega)]
      · rw [Function.update_of_ne hy, heq y]
        by_cases hin : a + 1 ≤ y ∧ y < a + 1 + sizes ts
        · rw [if_pos hin, if_pos (by omega)]
        · rw [if_neg hin, if_neg (by omega)]

theorem nxJsonFreeLoop_sibs {R : NxData → NxLabel → Prop} :
    ∀ {ts : List (RoseTree NxLabel)} (fuel : Nat) {a : Nat} {heap : Heap NxData},
    SibsAt R heap a ts none →
      2 * sizes ts + 1 ≤ fuel → ∃ heap', nxJsonFreeLoop fuel heap (firstAt a ts) = some heap' ∧
        ∀ x, heap' x = if a ≤ x ∧ x < a + sizes ts then none else heap x
  | _, 0, a, heap, _, hfuel => by omega
  | [], fuel + 1, a, heap, _, _ =>
    ⟨heap, by rw [firstAt, nxJsonFreeLoop], fun x => by rw [sizes_nil, if_neg (by omega)]⟩
  | t :: ts, fuel + 1, a, heap, hts, hfuel => by
    rw [SibsAt] at hts
    rw [sizes_cons] at hfuel
    have hpos := t.size_pos
    obtain ⟨heap₁, hfree, heq₁⟩ := nxJsonFree_tree fuel hts.1 (by omega)
    have hts₁ : SibsAt R heap₁ (a + t.size) ts none :=
      hts.2.frame fun x hle _ => by rw [heq₁ x, if_neg (by omega)]
    obtain ⟨heap₂, hloop, heq₂⟩ := nxJsonFreeLoop_sibs fuel hts₁ (by omega)
    obtain ⟨x, us⟩ := t
    have ht := hts.1
    rw [TreeAt] at ht
    obtain ⟨⟨d, -, hcell⟩, -⟩ := ht
    refine ⟨heap₂, ?_, fun y => ?_⟩
    · rw [firstAt, nxJsonFreeLoop, hcell, Option.bind_eq_bind, Option.bind_some, hfree,
        Option.bind_eq_bind, Option.bind_some, Option.or_none]
      exact hloop
    · rw [heq₂ y, heq₁ y, sizes_cons]
      by_cases hin : a + (RoseTree.node x us).size ≤ y ∧
          y < a + (RoseTree.node x us).size + sizes ts
      · rw [if_pos hin, if_pos (by omega)]
      · rw [if_neg hin]
        by_cases hin₁ : a ≤ y ∧ y < a + (RoseTree.node x us).size
        · rw [if_pos hin₁, if_pos (by omega)]
        · rw [if_neg hin₁, if_neg (by omega)]

end

/-! ## 6. Loading -/

/-- The node `a` is the root of `js`, and no other nodes are allocated. -/
structure Loaded (st : NxMem) (a : Nat) (js : NxJson) : Prop where
  tree : TreeAt (NodeHolds st.text st.text.length) st.heap a js.tree none
  only : ∀ x, x < a ∨ a + js.count ≤ x → st.heap x = none

theorem atText_start {buf : List Byte} (h : 0 ∈ buf) : AtText buf 0 (cString buf) := by
  obtain ⟨u, r, rfl, hu⟩ := List.eq_append_cons_of_mem h
  have hcstr : cString (u ++ 0 :: r) = u := by
    rw [cString, List.takeWhile_append_of_pos fun c hc => by
      simpa using fun h0 : c = 0 => hu (h0 ▸ hc)]
    simp
  rw [hcstr]
  exact ⟨⟨r, rfl⟩, hu⟩

/-- The node that is not there yet. -/
theorem open_start (buf : List Byte) : Open (NodeHolds buf 0) (NxMem.start buf).heap 1 0
    ⟨.null, none, none, 0⟩ [] where
  cell := by
    simp only [NxMem.start]
    rw [Function.update_self]
    rfl
  sibs := by
    rw [SibsAt]
    trivial
  end_eq := by rw [sizes_nil]
  unused := fun x hx => by
    simp only [NxMem.start]
    rw [Function.update_of_ne (by omega)]

theorem heap_leave_zero (st : NxMem) : st.leave.heap 0 = none := by
  simp only [NxMem.leave]
  rw [Function.update_self]

theorem heap_leave {st : NxMem} {x : Nat} (hx : x ≠ 0) : st.leave.heap x = st.heap x := by
  simp only [NxMem.leave]
  rw [Function.update_of_ne hx]

/-- Nothing but the variable `js`, and then nothing. -/
theorem heap_leave_empty {st : NxMem} (h : ∀ x, 1 ≤ x → st.heap x = none) (x : Nat) :
    st.leave.heap x = none := by
  by_cases hx : x = 0
  · rw [hx, heap_leave_zero]
  · rw [heap_leave hx, h x (by omega)]

/-- **`nx_json_parse_utf8` on memory**: whichever allocations fail, no access is outside the
buffer or to a node that is not allocated; what it returns is the tree of `nxJsonParseUtf8`, and
where that is none, no node is left. -/
theorem nxJsonParseC_refines (alloc : Nat → Bool) {buf : List Byte} (hbuf : 0 ∈ buf) :
    match nxJsonParseUtf8 alloc buf with
    | none => ∃ st, nxJsonParseC alloc buf = some (st, none) ∧ ∀ x, st.heap x = none
    | some js => ∃ st a, nxJsonParseC alloc buf = some (st, some a) ∧ Loaded st a js := by
  have hfuel := ne_outOfFuel_of_bind (nxJsonParse_ne_outOfFuel alloc (cString buf))
  have h := (parseC_spec alloc (2 * (cString buf).length + 2)).1 (.start buf) 0 _ [] none none 0
    (cString buf) (atText_start hbuf) (open_start buf) trivial hfuel
  unfold nxJsonParseUtf8 nxJsonParse nxJsonParseC
  change ValueParsed _ _ _ _ _ (parseValue alloc _ 0 none (cString buf)) _ at h
  cases hx : parseValue alloc (2 * (cString buf).length + 2) 0 none (cString buf) with
  | error e =>
    rw [hx] at h
    obtain ⟨st, us, hC, hlen, ho, -⟩ := h
    rw [List.nil_append] at ho
    have hend := ho.end_eq
    simp only [bind, Except.bind, Option.bind, hC, ho.cell]
    cases us with
    | nil =>
      rw [sizes_nil] at hend
      exact ⟨st.leave, rfl, heap_leave_empty fun x hx => ho.unused x (by omega)⟩
    | cons t us =>
      obtain rfl : us = [] := List.eq_nil_of_length_eq_zero (by simpa using hlen)
      rw [sizes_cons, sizes_nil] at hend
      have ht := ho.sibs
      rw [SibsAt] at ht
      obtain ⟨heap, hfree, heq⟩ := nxJsonFree_tree (2 * st.allocs + 2) ht.1 (by omega)
      rw [firstAt]
      dsimp only
      rw [hfree]
      refine ⟨NxMem.leave { st with heap := heap }, rfl, heap_leave_empty fun x hx => ?_⟩
      change heap x = none
      rw [heq x]
      by_cases hin : 0 + 1 ≤ x ∧ x < 0 + 1 + t.size
      · rw [if_pos hin]
      · rw [if_neg hin, ho.unused x (by omega)]
  | ok v =>
    rw [hx] at h
    obtain ⟨st, e, hC, hk, -, htext, hallocs, ho, -⟩ := h
    rw [List.nil_append] at ho
    have hend := ho.end_eq
    have hlt := htext.lt_length
    simp only [bind, Except.bind, Option.bind, hC, ho.cell]
    cases hnode : v.node with
    | none =>
      rw [hnode] at ho hend
      rw [Option.toList_none, trees] at ho hend
      rw [sizes_nil] at hend
      exact ⟨st.leave, rfl, heap_leave_empty fun x hx => ho.unused x (by omega)⟩
    | some js =>
      rw [hnode] at ho hend
      rw [Option.toList_some, trees, trees] at ho hend
      rw [sizes_cons, sizes_nil, size_tree] at hend
      have ht := ho.sibs
      rw [SibsAt] at ht
      refine ⟨st.leave, 1, rfl, ?_, fun x hx => ?_⟩
      · have htree : TreeAt (NodeHolds st.text st.text.length) st.heap 1 js.tree none :=
          ht.1.mono (NodeHolds.kept (.refl st.text e) (by omega))
        exact htree.frame fun x hle _ => heap_leave (by omega)
      · by_cases hzero : x = 0
        · rw [hzero, heap_leave_zero]
        · rw [heap_leave hzero, ho.unused x (by omega)]

/-! ## 7. Reading, and the whole life of a tree -/

/-- What a pointer stands for: `dummy`, or the node of a tree. -/
def Denotes (st : NxMem) (o : Option Nat) (js : NxJson) : Prop :=
  match o with
  | none => js = .dummy
  | some a => ∃ next, TreeAt (NodeHolds st.text st.text.length) st.heap a js.tree next

/-- The key of a node, as its label has it. -/
theorem textAt_key {m : List Byte} {e : Nat} {k : Option Nat} {key : Option Text}
    (h : KeyRef m e k key) :
    (k = none ∧ key = none) ∨ ∃ p s, k = some p ∧ key = some s ∧ textAt m p = some s := by
  match k, key, h with
  | none, none, _ => exact Or.inl ⟨rfl, rfl⟩
  | some p, some s, h => exact Or.inr ⟨p, s, rfl, rfl, textAt_spec h.1⟩

theorem nxJsonGetLoopC_spec {st : NxMem} (key : Text) :
    ∀ {jss : List NxJson} (fuel : Nat) {a : Nat},
    SibsAt (NodeHolds st.text st.text.length) st.heap a (trees jss) none → jss.length < fuel →
    ∃ o, nxJsonGetLoopC st key fuel (firstAt a (trees jss)) = some o ∧
      Denotes st o ((jss.find? fun js => js.key == some key).getD .dummy)
  | _, 0, _, _, hfuel => absurd hfuel (Nat.not_lt_zero _)
  | [], fuel + 1, a, _, _ => ⟨none, by rw [trees, firstAt, nxJsonGetLoopC], rfl⟩
  | .node t k s i cs :: jss, fuel + 1, a, h, hfuel => by
    rw [trees, SibsAt] at h
    have hnode := h.1
    rw [NxJson.tree, TreeAt] at hnode
    obtain ⟨⟨d, hd, hcell⟩, -⟩ := hnode
    rw [List.length_cons] at hfuel
    obtain ⟨o, ho, hden⟩ := nxJsonGetLoopC_spec key fuel h.2 (by omega)
    -- what is found, by the key of this node
    have hfind : (NxJson.node t k s i cs :: jss).find? (fun js => js.key == some key) =
        if k = some key then some (.node t k s i cs)
        else jss.find? fun js => js.key == some key := by
      rw [List.find?_cons]
      by_cases hk : k = some key
      · simp [NxJson.key, hk]
      · have hbeq : (k == some key) = false := by simpa using hk
        simp [NxJson.key, hbeq, hk]
    rw [trees, firstAt, nxJsonGetLoopC, hcell, Option.bind_eq_bind, Option.bind_some, hfind,
      Option.or_none]
    rcases textAt_key hd.key with ⟨hnone, hkey⟩ | ⟨p, s', hp, hkey, htext⟩
    · have hne : k ≠ some key := by
        rw [show k = none from hkey]
        simp
      rw [hnone, if_neg hne]
      exact ⟨o, ho, hden⟩
    · rw [hp]
      dsimp only
      have hk : k = some s' := hkey
      subst hk
      rw [htext, Option.bind_eq_bind, Option.bind_some]
      by_cases hs : s' = key
      · rw [if_pos hs, if_pos (congrArg some hs)]
        exact ⟨some a, rfl, _, h.1⟩
      · rw [if_neg hs, if_neg fun heq => hs (Option.some.inj heq)]
        exact ⟨o, ho, hden⟩

theorem nxJsonItemLoopC_spec {st : NxMem} :
    ∀ {jss : List NxJson} (fuel : Nat) {a : Nat} (idx : Nat),
    SibsAt (NodeHolds st.text st.text.length) st.heap a (trees jss) none → jss.length < fuel →
    ∃ o, nxJsonItemLoopC st fuel (firstAt a (trees jss)) idx = some o ∧
      Denotes st o ((jss[idx]?).getD .dummy)
  | _, 0, _, _, _, hfuel => absurd hfuel (Nat.not_lt_zero _)
  | [], fuel + 1, a, idx, _, _ => ⟨none, by rw [trees, firstAt, nxJsonItemLoopC], rfl⟩
  | js :: jss, fuel + 1, a, 0, h, _ => by
    rw [trees, SibsAt] at h
    exact ⟨some a, by rw [trees, firstAt, nxJsonItemLoopC], _, h.1⟩
  | .node t k s i cs :: jss, fuel + 1, a, idx + 1, h, hfuel => by
    rw [trees, SibsAt] at h
    have hnode := h.1
    rw [NxJson.tree, TreeAt] at hnode
    obtain ⟨⟨d, hd, hcell⟩, -⟩ := hnode
    rw [List.length_cons] at hfuel
    obtain ⟨o, ho, hden⟩ := nxJsonItemLoopC_spec fuel idx h.2 (by omega)
    refine ⟨o, ?_, by rw [List.getElem?_cons_succ]; exact hden⟩
    rw [trees, firstAt, nxJsonItemLoopC, hcell, Option.bind_eq_bind, Option.bind_some,
      Option.or_none]
    exact ho

/-- A call of one of the accessors. -/
inductive NxAccess
  | get (key : Text)
  | item (idx : Nat)

/-- On the tree. -/
def NxAccess.read : NxAccess → NxJson → NxJson
  | get key, json => nxJsonGet json key
  | item idx, json => nxJsonItem json idx

/-- On memory. -/
def NxAccess.readC (st : NxMem) : NxAccess → Option Nat → Option (Option Nat)
  | get key, json => nxJsonGetC st json key
  | item idx, json => nxJsonItemC st json idx

/-- **An accessor on memory finds what it finds on the tree.** -/
theorem readC_spec {st : NxMem} {o : Option Nat} {js : NxJson} (h : Denotes st o js)
    (acc : NxAccess) : ∃ o', acc.readC st o = some o' ∧ Denotes st o' (acc.read js) := by
  cases o with
  | none =>
    obtain rfl : js = .dummy := h
    cases acc with
    | get key => exact ⟨none, rfl, rfl⟩
    | item idx => exact ⟨none, rfl, rfl⟩
  | some a =>
    obtain ⟨next, ht⟩ := h
    obtain ⟨t, k, s, i, cs⟩ := js
    rw [NxJson.tree, TreeAt] at ht
    obtain ⟨⟨d, -, hcell⟩, hcs⟩ := ht
    cases acc with
    | get key =>
      obtain ⟨o, ho, hden⟩ := nxJsonGetLoopC_spec key (cs.length + 1) hcs
        (Nat.lt_succ_self _)
      refine ⟨o, ?_, hden⟩
      rw [NxAccess.readC, nxJsonGetC, hcell, Option.bind_eq_bind, Option.bind_some, length_trees]
      exact ho
    | item idx =>
      obtain ⟨o, ho, hden⟩ := nxJsonItemLoopC_spec (cs.length + 1) idx hcs
        (Nat.lt_succ_self _)
      refine ⟨o, ?_, hden⟩
      rw [NxAccess.readC, nxJsonItemC, hcell, Option.bind_eq_bind, Option.bind_some, length_trees]
      exact ho

/-- And so do any number of them, one after the other. -/
theorem walkC_spec {st : NxMem} (path : List NxAccess) {o : Option Nat} {js : NxJson}
    (h : Denotes st o js) : ∃ o', path.foldlM (fun o acc => acc.readC st o) o = some o' ∧
      Denotes st o' (path.foldl (fun js acc => acc.read js) js) := by
  induction path generalizing o js with
  | nil => exact ⟨o, rfl, h⟩
  | cons acc path ih =>
    obtain ⟨o₁, ho₁, hden₁⟩ := readC_spec h acc
    obtain ⟨o', ho', hden'⟩ := ih hden₁
    refine ⟨o', ?_, hden'⟩
    rw [List.foldlM_cons, ho₁, Option.bind_eq_bind, Option.bind_some, ho']

/-- **From the text to the last `free`.**  On every buffer with a terminating zero, whichever
allocations fail: `nx_json_parse_utf8` returns `NULL` where the text is not read, and leaves no node
behind; else every sequence of `nx_json_get` and `nx_json_item` from its result on ends at the node,
or at `dummy`, that the tree has there, and `nx_json_free` frees all that was allocated.  No step
makes an access outside the buffer or to a block that is not allocated. -/
theorem nxJson_session (alloc : Nat → Bool) {buf : List Byte} (hbuf : 0 ∈ buf) :
    match nxJsonParseUtf8 alloc buf with
    | none => ∃ st, nxJsonParseC alloc buf = some (st, none) ∧ ∀ x, st.heap x = none
    | some js => ∃ st a, nxJsonParseC alloc buf = some (st, some a) ∧
        (∀ path : List NxAccess, ∃ o,
          path.foldlM (fun o acc => acc.readC st o) (some a) = some o ∧
          Denotes st o (path.foldl (fun js acc => acc.read js) js)) ∧
        ∃ heap, nxJsonFree (2 * js.count) st.heap a = some heap ∧ ∀ x, heap x = none := by
  have h := nxJsonParseC_refines alloc hbuf
  cases hjs : nxJsonParseUtf8 alloc buf with
  | none =>
    rw [hjs] at h
    exact h
  | some js =>
    rw [hjs] at h
    obtain ⟨st, a, hC, hload⟩ := h
    refine ⟨st, a, hC, fun path => walkC_spec path ⟨none, hload.tree⟩, ?_⟩
    obtain ⟨heap, hfree, heq⟩ := nxJsonFree_tree (2 * js.count) hload.tree
      (by rw [size_tree])
    refine ⟨heap, hfree, fun x => ?_⟩
    rw [heq x, size_tree]
    by_cases hin : a ≤ x ∧ x < a + js.count
    · rw [if_pos hin]
    · rw [if_neg hin, hload.only x (by omega)]

/-- The configuration `[{"a":1}]`. -/
theorem nxJson_session_array : ∃ st a, nxJsonParseC (fun _ => true)
      [0x5b, 0x7b, 0x22, 0x61, 0x22, 0x3a, 0x31, 0x7d, 0x5d, 0] = some (st, some a) ∧
    ∃ heap, nxJsonFree 6 st.heap a = some heap ∧ ∀ x, heap x = none := by
  have hbuf : (0 : Byte) ∈ [0x5b, 0x7b, 0x22, 0x61, 0x22, 0x3a, 0x31, 0x7d, 0x5d, (0 : Byte)] := by
    decide
  have h := nxJson_session (fun _ => true) hbuf
  have hjs : nxJsonParseUtf8 (fun _ => true)
      [0x5b, 0x7b, 0x22, 0x61, 0x22, 0x3a, 0x31, 0x7d, 0x5d, 0] =
      some (.node .array none [] 0 [.node .object none [] 0 [.node .integer (some [0x61]) [] 1 []]])
      := rfl
  rw [hjs] at h
  obtain ⟨st, a, hC, -, heap, hfree, hnone⟩ := h
  exact ⟨st, a, hC, heap, hfree, hnone⟩

end Puppies
