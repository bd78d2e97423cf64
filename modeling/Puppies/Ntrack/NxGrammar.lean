/-
# The language that the JSON reader accepts

`Nxjson` follows the parser character by character.  Here is what it reads, as a grammar over the
tokens of `NxTokens`: which texts are a value, and which one.  It is that of JSON, made wider:

* between values, and before a key, there may be blanks, commas and comments, in any number;
* the last member of an object may be a key alone;
* what stands behind the value is not read.

**`nxJsonParseUtf8_iff`**: a buffer is read as `js` exactly if it holds, behind fillers, a text of
`js`, and the first `js.count` allocations succeed.  So a text has at most one value
(`valueText_unique`), and what is JSON proper is read as what it means
(`nxJsonParseUtf8_document`).
-/
import Puppies.Lib.Json
import Puppies.Ntrack.NxTokens

namespace Puppies

open ByteMem

/-! ## 1. Values -/

mutual

/-- The number of nodes of a tree. -/
def NxJson.count : NxJson → Nat
  | .node _ _ _ _ children => countAll children + 1

/-- The number of nodes of some trees. -/
def countAll : List NxJson → Nat
  | [] => 0
  | js :: jss => js.count + countAll jss

end

mutual

/-- The text of a value, in front of `r`; the value belongs under the key `key`. -/
inductive ValueText : Option Text → Text → Text → NxJson → Prop
  | null {key : Option Text} {r : Text} :
      ValueText key [0x6e, 0x75, 0x6c, 0x6c] r (.node .null key [] 0 [])
  | true {key : Option Text} {r : Text} :
      ValueText key [0x74, 0x72, 0x75, 0x65] r (.node .bool key [] 1 [])
  | false {key : Option Text} {r : Text} :
      ValueText key [0x66, 0x61, 0x6c, 0x73, 0x65] r (.node .bool key [] 0 [])
  | integer {key : Option Text} {w r : Text} {v : BitVec 64} (hw : IntegerText w r v) :
      ValueText key w r (.node .integer key [] v [])
  | string {key : Option Text} {w r s : Text} (hw : StringText w s) :
      ValueText key (0x22 :: (w ++ [0x22])) r (.node .string key (cString s) 0 [])
  | object {key : Option Text} {w r : Text} {jss : List NxJson}
      (hw : MembersText w (0x7d :: r) jss) :
      ValueText key (0x7b :: (w ++ [0x7d])) r (.node .object key [] 0 jss)
  | array {key : Option Text} {w r : Text} {jss : List NxJson}
      (hw : ElementsText w (0x5d :: r) jss) :
      ValueText key (0x5b :: (w ++ [0x5d])) r (.node .array key [] 0 jss)

/-- The text of the members of an object, in front of `r`. -/
inductive MembersText : Text → Text → List NxJson → Prop
  | nil {f r : Text} (hf : Filler KeyBlank f) : MembersText f r []
  /-- a key without a value -/
  | key {k r s : Text} (hk : KeyText k s) : MembersText k r []
  | cons {k s g v w r : Text} {js : NxJson} {jss : List NxJson} (hk : KeyText k s)
      (hg : Filler ValueBlank g) (hv : ValueText (some s) v (w ++ r) js)
      (hw : MembersText w r jss) : MembersText (k ++ (g ++ (v ++ w))) r (js :: jss)

/-- The text of the elements of an array, in front of `r`. -/
inductive ElementsText : Text → Text → List NxJson → Prop
  | nil {g r : Text} (hg : Filler ValueBlank g) : ElementsText g r []
  | cons {g v w r : Text} {js : NxJson} {jss : List NxJson} (hg : Filler ValueBlank g)
      (hv : ValueText none v (w ++ r) js) (hw : ElementsText w r jss) :
      ElementsText (g ++ (v ++ w)) r (js :: jss)

end

/-- The allocations from the `n`-th up to the `m`-th succeed. -/
def Allocated (alloc : Nat → Bool) (n m : Nat) : Prop := ∀ i, n ≤ i → i < m → alloc i = true

theorem Allocated.self (alloc : Nat → Bool) (n : Nat) : Allocated alloc n n :=
  fun _ hle hlt => absurd hlt (Nat.not_lt.mpr hle)

theorem Allocated.one {alloc : Nat → Bool} {n : Nat} (h : alloc n = true) :
    Allocated alloc n (n + 1) := by
  intro i hle hlt
  rwa [show i = n by omega]

theorem Allocated.trans {alloc : Nat → Bool} {n m k : Nat} (h : Allocated alloc n m)
    (h' : Allocated alloc m k) : Allocated alloc n k := by
  intro i hle hlt
  rcases Nat.lt_or_ge i m with him | him
  · exact h i hle him
  · exact h' i him hlt

theorem Allocated.mono {alloc : Nat → Bool} {n m n' m' : Nat} (h : Allocated alloc n m)
    (hn : n ≤ n') (hm : m' ≤ m) : Allocated alloc n' m' :=
  fun i hle hlt => h i (by omega) (by omega)

/-! ## 2. The parser, by the first character -/

section FirstCharacter

variable {alloc : Nat → Bool} {fuel n : Nat} {key : Option Text} {p : Text}

theorem parseValue_blank {c : Byte} (hc : ValueBlank c) :
    parseValue alloc (fuel + 1) n key (c :: p) = parseValue alloc fuel n key p := by
  rw [parseValue, if_pos hc]

theorem parseValue_slash : parseValue alloc (fuel + 1) n key (0x2f :: p) =
    (do let p ← skipComment p; parseValue alloc fuel n key p) := by
  rw [parseValue, if_neg (by decide), if_neg (by decide), if_neg (by decide), if_neg (by decide),
    if_neg (by decide), if_neg (by decide), if_neg (by decide), if_neg (by decide),
    if_neg (by decide), if_pos rfl]

theorem parseValue_object (halloc : alloc n = true) :
    parseValue alloc (fuel + 1) n key (0x7b :: p) = (do
      let (children, p, n) ← parseObject alloc fuel (n + 1) p
      return ⟨some (.node .object key [] 0 children), p, n⟩) := by
  rw [parseValue, if_neg (by decide), if_pos rfl, if_pos halloc]

theorem parseValue_array (halloc : alloc n = true) :
    parseValue alloc (fuel + 1) n key (0x5b :: p) = (do
      let (children, p, n) ← parseArray alloc fuel (n + 1) p
      return ⟨some (.node .array key [] 0 children), p, n⟩) := by
  rw [parseValue, if_neg (by decide), if_neg (by decide), if_pos rfl, if_pos halloc]

theorem parseValue_bracket :
    parseValue alloc (fuel + 1) n key (0x5d :: p) = .ok ⟨none, 0x5d :: p, n⟩ := by
  rw [parseValue, if_neg (by decide), if_neg (by decide), if_neg (by decide), if_pos rfl]

theorem parseValue_quote (halloc : alloc n = true) :
    parseValue alloc (fuel + 1) n key (0x22 :: p) = (do
      let (s, p) ← unescapeString (p.length + 1) p
      return ⟨some (.node .string key (cString s) 0 []), p, n + 1⟩) := by
  rw [parseValue, if_neg (by decide), if_neg (by decide), if_neg (by decide), if_neg (by decide),
    if_pos rfl, if_pos halloc]

theorem parseValue_number {c : Byte} {v : BitVec 64} {q : Text} (halloc : alloc n = true)
    (hc : c = 0x2d ∨ 0x30#8 ≤ c ∧ c ≤ 0x39#8) (hv : simpleStrtol (c :: p) = (v, q))
    (hq : q ≠ c :: p) : parseValue alloc (fuel + 1) n key (c :: p) =
      .ok ⟨some (.node .integer key [] v []), q, n + 1⟩ := by
  have hall : ∀ c : Byte, c = 0x2d ∨ 0x30#8 ≤ c ∧ c ≤ 0x39#8 →
      ¬ ValueBlank c ∧ c ≠ 0x7b ∧ c ≠ 0x5b ∧ c ≠ 0x5d ∧ c ≠ 0x22 := by decide +kernel
  obtain ⟨h1, h2, h3, h4, h5⟩ := hall c hc
  rw [parseValue, if_neg h1, if_neg h2, if_neg h3, if_neg h4, if_neg h5, if_pos hc, if_pos halloc,
    hv]
  dsimp only
  rw [if_neg hq]

/-- A word of a value is followed by what follows it. -/
theorem afterWord_append (word q : Text) : afterWord word (word ++ q) = some q := by
  unfold afterWord
  rw [if_pos (List.isPrefixOf_iff_prefix.mpr (List.prefix_append word q)),
    List.drop_left]

theorem afterWord_split {word q : Text} (h : afterWord word p = some q) : p = word ++ q := by
  unfold afterWord at h
  split at h
  · rename_i hpre
    obtain ⟨rest, rfl⟩ := List.isPrefixOf_iff_prefix.mp hpre
    rw [Option.some.injEq, List.drop_left] at h
    rw [h]
  · exact absurd h (by simp)

theorem parseValue_true (halloc : alloc n = true) :
    parseValue alloc (fuel + 1) n key ([0x74, 0x72, 0x75, 0x65] ++ p) =
      .ok ⟨some (.node .bool key [] 1 []), p, n + 1⟩ := by
  have hword := afterWord_append [0x74, 0x72, 0x75, 0x65] p
  rw [List.cons_append] at hword ⊢
  rw [parseValue, if_neg (by decide), if_neg (by decide), if_neg (by decide), if_neg (by decide),
    if_neg (by decide), if_neg (by decide), if_pos rfl, hword]
  exact if_pos halloc

theorem parseValue_false (halloc : alloc n = true) :
    parseValue alloc (fuel + 1) n key ([0x66, 0x61, 0x6c, 0x73, 0x65] ++ p) =
      .ok ⟨some (.node .bool key [] 0 []), p, n + 1⟩ := by
  have hword := afterWord_append [0x66, 0x61, 0x6c, 0x73, 0x65] p
  rw [List.cons_append] at hword ⊢
  rw [parseValue, if_neg (by decide), if_neg (by decide), if_neg (by decide), if_neg (by decide),
    if_neg (by decide), if_neg (by decide), if_neg (by decide), if_pos rfl, hword]
  exact if_pos halloc

theorem parseValue_null (halloc : alloc n = true) :
    parseValue alloc (fuel + 1) n key ([0x6e, 0x75, 0x6c, 0x6c] ++ p) =
      .ok ⟨some (.node .null key [] 0 []), p, n + 1⟩ := by
  have hword := afterWord_append [0x6e, 0x75, 0x6c, 0x6c] p
  rw [List.cons_append] at hword ⊢
  rw [parseValue, if_neg (by decide), if_neg (by decide), if_neg (by decide), if_neg (by decide),
    if_neg (by decide), if_neg (by decide), if_neg (by decide), if_neg (by decide), if_pos rfl,
    hword]
  exact if_pos halloc

end FirstCharacter

/-! ## 3. What is read is of the grammar -/

theorem ok_of_bind {α β : Type} {x : Except NxError α} {f : α → Except NxError β} {b : β}
    (h : (x >>= f) = .ok b) : ∃ a, x = .ok a ∧ f a = .ok b := by
  cases x with
  | error e => exact absurd h (by simp [bind, Except.bind])
  | ok a => exact ⟨a, rfl, h⟩

/-- What `parse_value` has read: a value behind fillers, or fillers in front of a bracket. -/
structure ValueRead (alloc : Nat → Bool) (n : Nat) (key : Option Text) (p : Text) (v : Parsed)
    (f w : Text) : Prop where
  text : p = f ++ (w ++ v.rest)
  filler : Filler ValueBlank f
  allocated : Allocated alloc n v.allocs
  value : (∃ js, v.node = some js ∧ ValueText key w v.rest js ∧ v.allocs = n + js.count) ∨
    (v.node = none ∧ w = [] ∧ v.rest.head? = some 0x5d ∧ v.allocs = n)

section Reading

variable {alloc : Nat → Bool} {fuel n : Nat} {key : Option Text} {p : Text} {v : Parsed}

/-- A value without children, which takes one allocation. -/
theorem ValueRead.leaf {w : Text} {js : NxJson} (halloc : alloc n = true) (hp : p = w ++ v.rest)
    (hnode : v.node = some js) (hw : ValueText key w v.rest js) (hcount : js.count = 1)
    (hallocs : v.allocs = n + 1) : ValueRead alloc n key p v [] w where
  text := by rw [hp, List.nil_append]
  filler := .nil
  allocated := by
    rw [hallocs]
    exact .one halloc
  value := Or.inl ⟨js, hnode, hw, by rw [hallocs, hcount]⟩

/-- A word, if the text starts with it. -/
theorem word_sound {word : Text} {js : NxJson}
    (h : (match afterWord word p with
      | some q => parseLeaf alloc n q js
      | none => .error .unexpectedChars) = .ok v)
    (hw : ValueText key word v.rest js) (hcount : js.count = 1) :
    ∃ f w, ValueRead alloc n key p v f w := by
  split at h
  · rename_i q hq
    unfold parseLeaf at h
    split at h
    · rename_i halloc
      obtain rfl := Except.ok.inj h
      exact ⟨[], word, .leaf halloc (afterWord_split hq) rfl hw hcount rfl⟩
    · exact absurd h (by simp)
  · exact absurd h (by simp)

/-- Fillers in front of what is read. -/
theorem ValueRead.behind {u q f w : Text} (h : ValueRead alloc n key q v f w) (hp : p = u ++ q)
    (hu : ∀ f, Filler ValueBlank f → Filler ValueBlank (u ++ f)) :
    ValueRead alloc n key p v (u ++ f) w where
  text := by rw [hp, h.text, List.append_assoc]
  filler := hu f h.filler
  allocated := h.allocated
  value := h.value

/-- What `parse_value` reads, with this fuel, is of the grammar. -/
def ValueSound (alloc : Nat → Bool) (fuel : Nat) : Prop :=
  ∀ n key p v, parseValue alloc fuel n key p = .ok v → ∃ f w, ValueRead alloc n key p v f w

/-- What a loop reads, up to its closing bracket, is of this form. -/
def LoopSound (alloc : Nat → Bool) (close : Byte) (form : Text → Text → List NxJson → Prop)
    (loop : Nat → Text → Except NxError (List NxJson × Text × Nat)) : Prop :=
  ∀ n p jss q m, loop n p = .ok (jss, q, m) →
    ∃ w, p = w ++ close :: q ∧ form w (close :: q) jss ∧ m = n + countAll jss ∧ Allocated alloc n m

/-- A value with children, which takes one allocation more than they do. -/
theorem nested_sound {c close : Byte} {type : NxJsonType}
    {form : Text → Text → List NxJson → Prop}
    {loop : Nat → Text → Except NxError (List NxJson × Text × Nat)}
    (hloop : LoopSound alloc close form loop)
    (hform : ∀ w q jss, form w (close :: q) jss →
      ValueText key (c :: (w ++ [close])) q (.node type key [] 0 jss))
    (h : (if alloc n then do
        let (children, q, m) ← loop (n + 1) p
        return (⟨some (.node type key [] 0 children), q, m⟩ : Parsed)
      else .error .noMemory) = .ok v) :
    ∃ f w, ValueRead alloc n key (c :: p) v f w := by
  split at h
  · rename_i halloc
    obtain ⟨⟨jss, q, m⟩, hparse, hv⟩ := ok_of_bind h
    obtain rfl := Except.ok.inj hv
    obtain ⟨w, rfl, hw, rfl, hallocs⟩ := hloop _ _ _ _ _ hparse
    refine ⟨[], c :: (w ++ [close]), by simp, .nil, (Allocated.one halloc).trans hallocs,
      Or.inl ⟨_, rfl, hform _ _ _ hw, ?_⟩⟩
    rw [NxJson.count]
    dsimp only
    omega
  · exact absurd h (by simp)

/-- `parse_value`, if what it calls reads what is of the grammar. -/
theorem parseValue_sound_step (hvalue : ValueSound alloc fuel)
    (hobject : LoopSound alloc 0x7d MembersText (parseObject alloc fuel))
    (harray : LoopSound alloc 0x5d ElementsText (parseArray alloc fuel)) :
    ValueSound alloc (fuel + 1) := by
  intro n key p v h
  cases p with
  | nil => exact absurd h (by simp [parseValue])
  | cons c p =>
    rw [parseValue] at h
    by_cases hblank : ValueBlank c
    · rw [if_pos hblank] at h
      obtain ⟨f, w, hread⟩ := hvalue n key p v h
      exact ⟨[c] ++ f, w, hread.behind rfl fun f hf => .blank hblank hf⟩
    rw [if_neg hblank] at h
    by_cases hobj : c = 0x7b
    · rw [if_pos hobj] at h
      subst hobj
      exact nested_sound hobject (fun _ _ _ hw => .object hw) h
    rw [if_neg hobj] at h
    by_cases harr : c = 0x5b
    · rw [if_pos harr] at h
      subst harr
      exact nested_sound harray (fun _ _ _ hw => .array hw) h
    rw [if_neg harr] at h
    by_cases hbracket : c = 0x5d
    · rw [if_pos hbracket] at h
      obtain rfl := Except.ok.inj h
      exact ⟨[], [], rfl, .nil, .self alloc n, Or.inr ⟨rfl, rfl, by rw [hbracket]; rfl, rfl⟩⟩
    rw [if_neg hbracket] at h
    by_cases hquote : c = 0x22
    · rw [if_pos hquote] at h
      split at h
      · rename_i halloc
        obtain ⟨⟨s, q⟩, hparse, hv⟩ := ok_of_bind h
        obtain rfl := Except.ok.inj hv
        obtain ⟨w, rfl, hw⟩ := unescapeString_sound hparse
        exact ⟨[], _, .leaf halloc (by simp [hquote]) rfl (.string hw) rfl rfl⟩
      · exact absurd h (by simp)
    rw [if_neg hquote] at h
    by_cases hdigit : c = 0x2d ∨ 0x30#8 ≤ c ∧ c ≤ 0x39#8
    · rw [if_pos hdigit] at h
      split at h
      · rename_i halloc
        obtain ⟨w, r, x, hp, hw, hx⟩ := simpleStrtol_sound (p := p) hdigit
        rw [hx] at h
        dsimp only at h
        split at h
        · exact absurd h (by simp)
        · obtain rfl := Except.ok.inj h
          exact ⟨[], w, .leaf halloc hp rfl (.integer hw) rfl rfl⟩
      · exact absurd h (by simp)
    rw [if_neg hdigit] at h
    by_cases htrue : c = 0x74
    · rw [if_pos htrue] at h
      exact word_sound h .true rfl
    rw [if_neg htrue] at h
    by_cases hfalse : c = 0x66
    · rw [if_pos hfalse] at h
      exact word_sound h .false rfl
    rw [if_neg hfalse] at h
    by_cases hnull : c = 0x6e
    · rw [if_pos hnull] at h
      exact word_sound h .null rfl
    rw [if_neg hnull] at h
    by_cases hslash : c = 0x2f
    · rw [if_pos hslash] at h
      obtain ⟨q, hskip, hq⟩ := ok_of_bind h
      obtain ⟨u, hp, hu⟩ := skipComment_sound hskip
      obtain ⟨f, w, hread⟩ := hvalue n key q v hq
      exact ⟨u ++ f, w, hread.behind (by rw [hslash, hp]) fun f hf => .comment hu hf⟩
    · rw [if_neg hslash] at h
      exact absurd h (by simp)

/-- No member starts with a bracket. -/
theorem parseObject_bracket (alloc : Nat → Bool) (fuel n : Nat) (p : Text)
    (r : List NxJson × Text × Nat) : parseObject alloc fuel n (0x5d :: p) ≠ .ok r := by
  intro h
  cases fuel with
  | zero => exact absurd h (by simp [parseObject])
  | succ fuel =>
    rw [parseObject, parseKey, if_neg (by decide), if_neg (by decide), if_neg (by decide),
      if_neg (by decide)] at h
    exact absurd h (by simp [bind, Except.bind])

/-- The loop over the members. -/
theorem parseObject_sound_step (hvalue : ValueSound alloc fuel)
    (hobject : LoopSound alloc 0x7d MembersText (parseObject alloc fuel)) :
    LoopSound alloc 0x7d MembersText (parseObject alloc (fuel + 1)) := by
  intro n p jss q m h
  rw [parseObject] at h
  obtain ⟨⟨key, p₁⟩, hkey, hbody⟩ := ok_of_bind h
  have hparts := parseKey_sound hkey
  dsimp only at hbody
  split at hbody
  · -- the end, behind a filler or a key alone
    obtain ⟨rfl, rfl, rfl⟩ : [] = jss ∧ _ = q ∧ n = m := by
      simpa [pure, Except.pure] using hbody
    rcases hparts with ⟨-, -, f, rfl, hf⟩ | ⟨k, s, -, rfl, hk⟩
    · exact ⟨f, rfl, .nil hf, rfl, .self alloc n⟩
    · exact ⟨k, rfl, .key hk, rfl, .self alloc n⟩
  · rename_i hbrace
    obtain ⟨k, s, rfl, rfl, hk⟩ : ∃ k s, key = some s ∧ p = k ++ p₁ ∧ KeyText k s := by
      rcases hparts with ⟨-, hhead, -⟩ | hk
      · obtain ⟨rest, rfl⟩ := List.head?_eq_some_iff.mp hhead
        exact absurd rfl (hbrace rest)
      · exact hk
    obtain ⟨v, hv, hloop⟩ := ok_of_bind hbody
    obtain ⟨⟨jss', q', m'⟩, hrest, hend⟩ := ok_of_bind hloop
    obtain ⟨rfl, rfl, rfl⟩ : v.node.toList ++ jss' = jss ∧ q' = q ∧ m' = m := by
      simpa [pure, Except.pure] using hend
    obtain ⟨f, w, hread⟩ := hvalue _ _ _ _ hv
    rcases hread.value with ⟨js, hnode, hw, hcount⟩ | ⟨-, -, hhead, -⟩
    · obtain ⟨w', htext, hw', hm, hallocs⟩ := hobject _ _ _ _ _ hrest
      refine ⟨k ++ (f ++ (w ++ w')), ?_, ?_, ?_, hread.allocated.trans hallocs⟩
      · rw [hread.text, htext]
        simp
      · rw [hnode]
        exact .cons hk hread.filler (htext ▸ hw) hw'
      · rw [hm, hcount, hnode, Option.toList_some, List.singleton_append, countAll, Nat.add_assoc]
    · obtain ⟨rest, hrest'⟩ := List.head?_eq_some_iff.mp hhead
      rw [hrest'] at hrest
      exact absurd hrest (parseObject_bracket _ _ _ _ _)

/-- The loop over the elements. -/
theorem parseArray_sound_step (hvalue : ValueSound alloc fuel)
    (harray : LoopSound alloc 0x5d ElementsText (parseArray alloc fuel)) :
    LoopSound alloc 0x5d ElementsText (parseArray alloc (fuel + 1)) := by
  intro n p jss q m h
  rw [parseArray] at h
  obtain ⟨v, hv, hbody⟩ := ok_of_bind h
  obtain ⟨f, w, hread⟩ := hvalue _ _ _ _ hv
  dsimp only at hbody
  split at hbody
  · rename_i q' hrest
    obtain ⟨rfl, rfl, rfl⟩ : v.node.toList = jss ∧ q' = q ∧ v.allocs = m := by
      simpa [pure, Except.pure] using hbody
    have htext := hread.text
    rw [hrest] at htext
    rcases hread.value with ⟨js, hnode, hw, hcount⟩ | ⟨hnode, rfl, -, hcount⟩
    · refine ⟨f ++ (w ++ []), by rw [htext]; simp, ?_, ?_, hread.allocated⟩
      · rw [hnode]
        exact .cons hread.filler (hrest ▸ hw) (.nil .nil)
      · rw [hcount, hnode, Option.toList_some, countAll, countAll, Nat.add_zero]
    · refine ⟨f, by rw [htext]; simp, ?_, ?_, hread.allocated⟩
      · rw [hnode]
        exact .nil hread.filler
      · rw [hcount, hnode]
        rfl
  · rename_i hbracket
    obtain ⟨⟨jss', q', m'⟩, hrest, hend⟩ := ok_of_bind hbody
    obtain ⟨rfl, rfl, rfl⟩ : v.node.toList ++ jss' = jss ∧ q' = q ∧ m' = m := by
      simpa [pure, Except.pure] using hend
    rcases hread.value with ⟨js, hnode, hw, hcount⟩ | ⟨-, -, hhead, -⟩
    · obtain ⟨w', htext, hw', hm, hallocs⟩ := harray _ _ _ _ _ hrest
      refine ⟨f ++ (w ++ w'), ?_, ?_, ?_, hread.allocated.trans hallocs⟩
      · rw [hread.text, htext]
        simp
      · rw [hnode]
        exact .cons hread.filler (htext ▸ hw) hw'
      · rw [hm, hcount, hnode, Option.toList_some, List.singleton_append, countAll, Nat.add_assoc]
    · obtain ⟨rest, hrest'⟩ := List.head?_eq_some_iff.mp hhead
      exact absurd hrest' (hbracket rest)

end Reading

/-- **What is read is of the grammar**, and took its nodes one allocation after the other. -/
theorem parse_sound (alloc : Nat → Bool) (fuel : Nat) :
    ValueSound alloc fuel ∧ LoopSound alloc 0x7d MembersText (parseObject alloc fuel) ∧
      LoopSound alloc 0x5d ElementsText (parseArray alloc fuel) := by
  induction fuel with
  | zero =>
    refine ⟨fun n key p v h => ?_, fun n p jss q m h => ?_, fun n p jss q m h => ?_⟩
    · exact absurd h (by simp [parseValue])
    · exact absurd h (by simp [parseObject])
    · exact absurd h (by simp [parseArray])
  | succ fuel ih =>
    obtain ⟨hvalue, hobject, harray⟩ := ih
    exact ⟨parseValue_sound_step hvalue hobject harray, parseObject_sound_step hvalue hobject,
      parseArray_sound_step hvalue harray⟩

/-! ## 4. What is of the grammar is read -/

/-- A filler does not begin with a character that no filler has. -/
theorem Filler.head_ne {blank : Byte → Prop} {f : Text} (hf : Filler blank f) {c : Byte}
    (hc : ¬ blank c) (hslash : c ≠ 0x2f) : f.head? ≠ some c := by
  intro hhead
  cases hf with
  | nil => exact absurd hhead (by simp)
  | blank hd _ =>
    obtain rfl := Option.some.inj hhead
    exact hc hd
  | comment hu _ =>
    obtain ⟨u', rfl, -⟩ := skipComment_complete hu
    exact hslash (Option.some.inj hhead).symm

/-- No value begins with a closing bracket or brace. -/
theorem ValueText.head {key : Option Text} {w r : Text} {js : NxJson}
    (h : ValueText key w r js) : ∃ c w', w = c :: w' ∧ c ≠ 0x5d ∧ c ≠ 0x7d := by
  cases h with
  | integer hw =>
    obtain ⟨c, w', rfl, hc⟩ := hw.head
    have hall : ∀ c : Byte, c = 0x2d ∨ 0x30#8 ≤ c ∧ c ≤ 0x39#8 → c ≠ 0x5d ∧ c ≠ 0x7d := by
      decide +kernel
    exact ⟨c, w', rfl, hall c hc⟩
  | _ => exact ⟨_, _, rfl, by decide⟩

/-- Fillers and the value behind them begin as neither ends. -/
theorem head_ne_of_value {g v q : Text} {key : Option Text} {js : NxJson} {c : Byte}
    (hg : Filler ValueBlank g) (hv : ValueText key v q js) (hc : c = 0x5d ∨ c = 0x7d)
    (p q' : Text) : g ++ (v ++ p) ≠ c :: q' := by
  intro heq
  obtain ⟨d, v', rfl, h1, h2⟩ := hv.head
  cases g with
  | nil =>
    obtain ⟨rfl, -⟩ := List.cons.inj heq
    rcases hc with rfl | rfl
    · exact h1 rfl
    · exact h2 rfl
  | cons e g =>
    obtain ⟨rfl, -⟩ := List.cons.inj heq
    rcases hc with rfl | rfl
    · exact hg.head_ne (by decide) (by decide) rfl
    · exact hg.head_ne (by decide) (by decide) rfl

/-- A filler in front of a value is passed over. -/
theorem parseValue_filler {alloc : Nat → Bool} {f : Text} (hf : Filler ValueBlank f)
    {fuel n : Nat} {key : Option Text} {p : Text}
    (hfuel : parseValue alloc fuel n key (f ++ p) ≠ .error .outOfFuel) :
    ∃ fuel', parseValue alloc fuel n key (f ++ p) = parseValue alloc fuel' n key p := by
  induction hf generalizing fuel with
  | nil => exact ⟨fuel, rfl⟩
  | @blank c f hc _ ih =>
    cases fuel with
    | zero => exact absurd rfl hfuel
    | succ fuel =>
      rw [List.cons_append, parseValue_blank hc] at hfuel ⊢
      exact ih hfuel
  | @comment u f hu _ ih =>
    cases fuel with
    | zero => exact absurd rfl hfuel
    | succ fuel =>
      obtain ⟨u', rfl, hskip⟩ := skipComment_complete hu
      rw [List.append_assoc, List.cons_append, parseValue_slash, hskip] at hfuel ⊢
      exact ih hfuel

/-- A number is not empty. -/
theorem IntegerText.ne {w r : Text} {v : BitVec 64} (h : IntegerText w r v) : r ≠ w ++ r := by
  obtain ⟨c, w', rfl, -⟩ := h.head
  intro heq
  have hlen := congrArg List.length heq
  simp at hlen
  omega

/-- No element begins with the closing bracket. -/
theorem ElementsText.nil_of_bracket {w r q' : Text} {jss : List NxJson}
    (h : ElementsText w r jss) (hq : w ++ r = 0x5d :: q') :
    w = [] ∧ jss = [] := by
  cases h with
  | nil hg =>
    cases w with
    | nil => exact ⟨rfl, rfl⟩
    | cons c w =>
      obtain ⟨rfl, -⟩ := List.cons.inj hq
      exact absurd rfl (hg.head_ne (c := 0x5d) (by decide) (by decide))
  | cons hg hv _ =>
    refine absurd hq ?_
    simp only [List.append_assoc]
    exact head_ne_of_value hg hv (Or.inl rfl) _ _

/-- The loop over the members, where it does not end. -/
theorem parseObject_member {alloc : Nat → Bool} {fuel n : Nat} {p q : Text} {key : Option Text}
    (hkey : parseKey (p.length + 1) p = .ok (key, q)) (hq : ∀ q', q ≠ 0x7d :: q') :
    parseObject alloc (fuel + 1) n p = (do
      let v ← parseValue alloc fuel n key q
      let (children, q, m) ← parseObject alloc fuel v.allocs v.rest
      return (v.node.toList ++ children, q, m)) := by
  rw [parseObject, hkey]
  simp only [bind, Except.bind]
  split
  · rename_i q'
    exact absurd rfl (hq q')
  · rfl

/-- The loop over the elements, where it does not end. -/
theorem parseArray_element {alloc : Nat → Bool} {fuel n : Nat} {p : Text} {v : Parsed}
    (hv : parseValue alloc fuel n none p = .ok v) (hrest : ∀ q', v.rest ≠ 0x5d :: q') :
    parseArray alloc (fuel + 1) n p = (do
      let (children, q, m) ← parseArray alloc fuel v.allocs v.rest
      return (v.node.toList ++ children, q, m)) := by
  rw [parseArray, hv]
  simp only [bind, Except.bind]
  split
  · rename_i q' heq
    exact absurd heq (hrest q')
  · rfl

/-- And where it ends. -/
theorem parseArray_end {alloc : Nat → Bool} {fuel n : Nat} {p q : Text} {v : Parsed}
    (hv : parseValue alloc fuel n none p = .ok v) (hrest : v.rest = 0x5d :: q) :
    parseArray alloc (fuel + 1) n p = .ok (v.node.toList, q, v.allocs) := by
  rw [parseArray, hv]
  simp only [bind, Except.bind]
  rw [hrest]
  rfl

mutual

theorem valueText_complete {alloc : Nat → Bool} {key : Option Text} {w r : Text} {js : NxJson} :
    ValueText key w r js → ∀ {fuel n : Nat}, Allocated alloc n (n + js.count) →
    parseValue alloc fuel n key (w ++ r) ≠ .error .outOfFuel →
    parseValue alloc fuel n key (w ++ r) = .ok ⟨some js, r, n + js.count⟩
  | _, 0, _, _, hfuel => absurd rfl hfuel
  | .null, _ + 1, n, hall, _ => parseValue_null (hall n (Nat.le_refl n) (by simp [NxJson.count]))
  | .true, _ + 1, n, hall, _ => parseValue_true (hall n (Nat.le_refl n) (by simp [NxJson.count]))
  | .false, _ + 1, n, hall, _ => parseValue_false (hall n (Nat.le_refl n) (by simp [NxJson.count]))
  | .integer hw, _ + 1, n, hall, _ => by
    have halloc := hall n (Nat.le_refl n) (by simp [NxJson.count])
    have hne := hw.ne
    have hv := simpleStrtol_complete hw
    obtain ⟨c, w', rfl, hc⟩ := hw.head
    exact parseValue_number halloc hc hv hne
  | .string hw, fuel + 1, n, hall, hfuel => by
    have halloc := hall n (Nat.le_refl n) (by simp [NxJson.count])
    rw [List.cons_append, List.append_assoc, parseValue_quote halloc] at hfuel ⊢
    rw [List.singleton_append] at hfuel ⊢
    rw [unescapeString_complete hw (ne_outOfFuel_of_bind hfuel)]
    rfl
  | .object hw, fuel + 1, n, hall, hfuel => by
    rw [NxJson.count] at hall ⊢
    have halloc := hall n (Nat.le_refl n) (by omega)
    rw [List.cons_append, List.append_assoc, parseValue_object halloc] at hfuel ⊢
    rw [List.singleton_append] at hfuel ⊢
    rw [membersText_complete hw rfl (hall.mono (by omega) (by omega)) (ne_outOfFuel_of_bind hfuel),
      Nat.add_right_comm]
    rfl
  | .array hw, fuel + 1, n, hall, hfuel => by
    rw [NxJson.count] at hall ⊢
    have halloc := hall n (Nat.le_refl n) (by omega)
    rw [List.cons_append, List.append_assoc, parseValue_array halloc] at hfuel ⊢
    rw [List.singleton_append] at hfuel ⊢
    rw [elementsText_complete hw rfl (hall.mono (by omega) (by omega)) (ne_outOfFuel_of_bind hfuel),
      Nat.add_right_comm]
    rfl

theorem membersText_complete {alloc : Nat → Bool} {w r : Text} {jss : List NxJson} :
    MembersText w r jss → ∀ {fuel n : Nat} {q : Text}, r = 0x7d :: q →
    Allocated alloc n (n + countAll jss) → parseObject alloc fuel n (w ++ r) ≠ .error .outOfFuel →
    parseObject alloc fuel n (w ++ r) = .ok (jss, q, n + countAll jss)
  | _, 0, _, _, _, _, hfuel => absurd rfl hfuel
  | .nil hf, _ + 1, n, q, hr, _, hfuel => by
    subst hr
    rw [parseObject] at hfuel ⊢
    rw [parseKey_brace hf (ne_outOfFuel_of_bind hfuel)]
    rfl
  | .key hk, _ + 1, n, q, hr, _, hfuel => by
    subst hr
    rw [parseObject] at hfuel ⊢
    rw [parseKey_complete hk (ne_outOfFuel_of_bind hfuel)]
    rfl
  | @MembersText.cons k s g v w r js jss hk hg hv hw, fuel + 1, n, q, hr, hall, hfuel => by
    rw [countAll] at hall ⊢
    have htext : k ++ (g ++ (v ++ w)) ++ r = k ++ (g ++ (v ++ (w ++ r))) := by
      simp only [List.append_assoc]
    rw [htext] at hfuel ⊢
    have hkey : parseKey ((k ++ (g ++ (v ++ (w ++ r)))).length + 1) (k ++ (g ++ (v ++ (w ++ r)))) =
        .ok (some s, g ++ (v ++ (w ++ r))) := by
      rw [parseObject] at hfuel
      exact parseKey_complete hk (ne_outOfFuel_of_bind hfuel)
    rw [parseObject_member hkey fun q' => head_ne_of_value hg hv (Or.inr rfl) _ q'] at hfuel ⊢
    obtain ⟨fuel', hskip⟩ := parseValue_filler hg (ne_outOfFuel_of_bind hfuel)
    rw [hskip] at hfuel ⊢
    have hvalue := valueText_complete hv (hall.mono (Nat.le_refl n) (by omega))
      (ne_outOfFuel_of_bind hfuel)
    rw [hvalue] at hfuel ⊢
    have hrest := membersText_complete hw hr (hall.mono (Nat.le_add_right n js.count) (by omega))
      (ne_outOfFuel_of_bind (x := parseObject alloc fuel _ _) hfuel)
    simp only [bind, Except.bind, hrest, pure, Except.pure, Option.toList_some,
      List.singleton_append, Nat.add_assoc]

theorem elementsText_complete {alloc : Nat → Bool} {w r : Text} {jss : List NxJson} :
    ElementsText w r jss → ∀ {fuel n : Nat} {q : Text}, r = 0x5d :: q →
    Allocated alloc n (n + countAll jss) → parseArray alloc fuel n (w ++ r) ≠ .error .outOfFuel →
    parseArray alloc fuel n (w ++ r) = .ok (jss, q, n + countAll jss)
  | _, 0, _, _, _, _, hfuel => absurd rfl hfuel
  | @ElementsText.nil g r hg, fuel + 1, n, q, hr, _, hfuel => by
    subst hr
    have hvalue : parseValue alloc fuel n none (g ++ 0x5d :: q) = .ok ⟨none, 0x5d :: q, n⟩ := by
      rw [parseArray] at hfuel
      have hne := ne_outOfFuel_of_bind hfuel
      obtain ⟨fuel', hskip⟩ := parseValue_filler hg hne
      rw [hskip] at hne ⊢
      cases fuel' with
      | zero => exact absurd rfl hne
      | succ fuel' => exact parseValue_bracket
    exact parseArray_end hvalue rfl
  | @ElementsText.cons g v w r js jss hg hv hw, fuel + 1, n, q, hr, hall, hfuel => by
    rw [countAll] at hall ⊢
    have htext : g ++ (v ++ w) ++ r = g ++ (v ++ (w ++ r)) := by simp only [List.append_assoc]
    rw [htext] at hfuel ⊢
    have hvalue : parseValue alloc fuel n none (g ++ (v ++ (w ++ r))) =
        .ok ⟨some js, w ++ r, n + js.count⟩ := by
      rw [parseArray] at hfuel
      have hne := ne_outOfFuel_of_bind hfuel
      obtain ⟨fuel', hskip⟩ := parseValue_filler hg hne
      rw [hskip] at hne ⊢
      exact valueText_complete hv (hall.mono (Nat.le_refl n) (by omega)) hne
    by_cases hend : ∃ q', w ++ r = 0x5d :: q'
    · -- the bracket follows the last value
      obtain ⟨q', hq'⟩ := hend
      obtain ⟨rfl, rfl⟩ := hw.nil_of_bracket hq'
      obtain rfl : q' = q := by
        rw [List.nil_append, hr] at hq'
        exact (List.cons.inj hq').2.symm
      rw [parseArray_end hvalue hq']
      rfl
    · have hrest : ∀ q', w ++ r ≠ 0x5d :: q' := fun q' h => hend ⟨q', h⟩
      rw [parseArray_element hvalue hrest] at hfuel ⊢
      have hrest := elementsText_complete hw hr (hall.mono (Nat.le_add_right n js.count) (by omega))
        (ne_outOfFuel_of_bind (x := parseArray alloc fuel _ _) hfuel)
      simp only [bind, Except.bind, hrest, pure, Except.pure, Option.toList_some,
        List.singleton_append, Nat.add_assoc]

end

/-! ## 5. Exactly the grammar -/

/-- What `nx_json_parse` reads. -/
theorem nxJsonParse_iff {alloc : Nat → Bool} {text : Text} {js : NxJson} :
    nxJsonParse alloc text = .ok (some js) ↔
      (∃ f w r, text = f ++ (w ++ r) ∧ Filler ValueBlank f ∧ ValueText none w r js) ∧
        Allocated alloc 0 js.count := by
  constructor
  · intro h
    obtain ⟨v, hv, hnode⟩ := ok_of_bind h
    obtain ⟨f, w, hread⟩ := (parse_sound alloc _).1 _ _ _ _ hv
    have hjs : v.node = some js := Except.ok.inj hnode
    rcases hread.value with ⟨js', hnode', hw, hcount⟩ | ⟨hnone, -⟩
    · obtain rfl := Option.some.inj (hnode'.symm.trans hjs)
      refine ⟨⟨f, w, v.rest, hread.text, hread.filler, hw⟩, ?_⟩
      have hallocs := hread.allocated
      rwa [hcount, Nat.zero_add] at hallocs
    · exact absurd (hnone.symm.trans hjs) (by simp)
  · rintro ⟨⟨f, w, r, rfl, hf, hw⟩, halloc⟩
    have hfuel := ne_outOfFuel_of_bind (nxJsonParse_ne_outOfFuel alloc (f ++ (w ++ r)))
    unfold nxJsonParse
    obtain ⟨fuel', hskip⟩ := parseValue_filler hf hfuel
    rw [hskip] at hfuel ⊢
    rw [valueText_complete hw (by rwa [Nat.zero_add]) hfuel]
    rfl

/-- **What is accepted, and what it is read as.**  A buffer is read as `js` exactly if its C string
is a text of `js` behind fillers and in front of anything, and memory lasts for the nodes of
`js`. -/
theorem nxJsonParseUtf8_iff (alloc : Nat → Bool) (buf : List Byte) (js : NxJson) :
    nxJsonParseUtf8 alloc buf = some js ↔
      (∃ f w r, cString buf = f ++ (w ++ r) ∧ Filler ValueBlank f ∧ ValueText none w r js) ∧
        Allocated alloc 0 js.count := by
  rw [← nxJsonParse_iff]
  unfold nxJsonParseUtf8
  cases nxJsonParse alloc (cString buf) with
  | ok js' => simp
  | error e => simp

/-- A text has one value. -/
theorem valueText_unique {f w r f' w' r' : Text} {js js' : NxJson} (hf : Filler ValueBlank f)
    (hw : ValueText none w r js) (hf' : Filler ValueBlank f') (hw' : ValueText none w' r' js')
    (h : f ++ (w ++ r) = f' ++ (w' ++ r')) : js = js' := by
  have hparse : nxJsonParse (fun _ => true) (f ++ (w ++ r)) = .ok (some js) :=
    nxJsonParse_iff.mpr ⟨⟨f, w, r, rfl, hf, hw⟩, fun _ _ _ => rfl⟩
  have hparse' : nxJsonParse (fun _ => true) (f ++ (w ++ r)) = .ok (some js') :=
    nxJsonParse_iff.mpr ⟨⟨f', w', r', h, hf', hw'⟩, fun _ _ _ => rfl⟩
  exact Option.some.inj (Except.ok.inj (hparse.symm.trans hparse'))

/-! ## 6. JSON proper -/

section Document

open JsonText (Value)

/-- The white space of JSON. -/
def Space (b : Text) : Prop := ∀ c ∈ b, c = 0x20 ∨ c = 0x09 ∨ c = 0x0a ∨ c = 0x0d

/-- A string as JSON has it: no control characters, and each backslash starts an escape. -/
inductive JsonString : Text → List Byte → Prop
  | nil : JsonString [] []
  | plain {c : Byte} {w s : Text} (hcontrol : 0x20 ≤ c) (hquote : c ≠ 0x22) (hslash : c ≠ 0x5c)
      (hw : JsonString w s) : JsonString (c :: w) (c :: s)
  | escape {e b : Byte} {w s : Text} (he : escapedByte e = some b) (hw : JsonString w s) :
      JsonString (0x5c :: e :: w) (b :: s)
  | unicode {u w s : Text} {ch : Char} (hu : UnicodeText u ch) (hw : JsonString w s) :
      JsonString (0x5c :: 0x75 :: (u ++ w)) (utf8 ch ++ s)

/-- A number in decimal without leading zeros. -/
inductive JsonNatural : Text → Nat → Prop
  | zero : JsonNatural [0x30] 0
  | digits {c : Byte} {w : Text} (hc : c ≠ 0x30) (hw : ∀ d ∈ c :: w, IsDigit 10 d) :
      JsonNatural (c :: w) (number 10 0 (c :: w))

/-- An integer as JSON has it. -/
inductive JsonInteger : Text → Int → Prop
  | positive {w : Text} {n : Nat} (hw : JsonNatural w n) : JsonInteger w n
  | negative {w : Text} {n : Nat} (hw : JsonNatural w n) : JsonInteger (0x2d :: w) (-n)

mutual

/-- The text of a value, without space around it. -/
inductive Printed : Value Int → Text → Prop
  | null : Printed .null [0x6e, 0x75, 0x6c, 0x6c]
  | true : Printed (.bool true) [0x74, 0x72, 0x75, 0x65]
  | false : Printed (.bool false) [0x66, 0x61, 0x6c, 0x73, 0x65]
  | num {w : Text} {n : Int} (hw : JsonInteger w n) : Printed (.num n) w
  | str {w s : Text} (hw : JsonString w s) : Printed (.str s) (0x22 :: (w ++ [0x22]))
  | emptyArr {b : Text} (hb : Space b) : Printed (.arr []) (0x5b :: (b ++ [0x5d]))
  | arr {v : Value Int} {vs : List (Value Int)} {w : Text} (hw : PrintedElems (v :: vs) w) :
      Printed (.arr (v :: vs)) (0x5b :: (w ++ [0x5d]))
  | emptyObj {b : Text} (hb : Space b) : Printed (.obj []) (0x7b :: (b ++ [0x7d]))
  | obj {m : Text × Value Int} {ms : List (Text × Value Int)} {w : Text}
      (hw : PrintedMembers (m :: ms) w) : Printed (.obj (m :: ms)) (0x7b :: (w ++ [0x7d]))

/-- The elements of an array, with commas between them. -/
inductive PrintedElems : List (Value Int) → Text → Prop
  | one {v : Value Int} {b w b' : Text} (hb : Space b) (hw : Printed v w) (hb' : Space b') :
      PrintedElems [v] (b ++ (w ++ b'))
  | cons {v v' : Value Int} {vs : List (Value Int)} {b w b' t : Text} (hb : Space b)
      (hw : Printed v w) (hb' : Space b') (ht : PrintedElems (v' :: vs) t) :
      PrintedElems (v :: v' :: vs) (b ++ (w ++ (b' ++ 0x2c :: t)))

/-- The members of an object, with commas between them. -/
inductive PrintedMembers : List (Text × Value Int) → Text → Prop
  | one {s k b b₁ b₂ w b' : Text} {v : Value Int} (hb : Space b) (hk : JsonString k s)
      (hb₁ : Space b₁) (hb₂ : Space b₂) (hw : Printed v w) (hb' : Space b') :
      PrintedMembers [(s, v)]
        (b ++ 0x22 :: (k ++ 0x22 :: (b₁ ++ 0x3a :: (b₂ ++ (w ++ b')))))
  | cons {s k b b₁ b₂ w b' t : Text} {v : Value Int} {m : Text × Value Int}
      {ms : List (Text × Value Int)} (hb : Space b) (hk : JsonString k s)
      (hb₁ : Space b₁) (hb₂ : Space b₂) (hw : Printed v w) (hb' : Space b')
      (ht : PrintedMembers (m :: ms) t) :
      PrintedMembers ((s, v) :: m :: ms)
        (b ++ 0x22 :: (k ++ 0x22 :: (b₁ ++ 0x3a :: (b₂ ++ (w ++ (b' ++ 0x2c :: t))))))

end

/-- A JSON document. -/
def Document (v : Value Int) (text : Text) : Prop :=
  ∃ b w b', text = b ++ (w ++ b') ∧ Space b ∧ Printed v w ∧ Space b'

mutual

/-- The node that a value becomes.  Of a string the C string is taken, and of a number what fits
into a `long`. -/
def nodeOf (key : Option Text) : Value Int → NxJson
  | .null => .node .null key [] 0 []
  | .bool b => .node .bool key [] (if b then 1 else 0) []
  | .num n => .node .integer key [] (BitVec.ofInt 64 n) []
  | .str s => .node .string key (cString s) 0 []
  | .arr vs => .node .array key [] 0 (nodesOfElems vs)
  | .obj ms => .node .object key [] 0 (nodesOfMembers ms)

def nodesOfElems : List (Value Int) → List NxJson
  | [] => []
  | v :: vs => nodeOf none v :: nodesOfElems vs

def nodesOfMembers : List (Text × Value Int) → List NxJson
  | [] => []
  | (s, v) :: ms => nodeOf (some (cString s)) v :: nodesOfMembers ms

end

/-- What may follow a value in a document. -/
def ValueEnds (r : Text) : Prop :=
  ∀ c, r.head? = some c →
    c = 0x20 ∨ c = 0x09 ∨ c = 0x0a ∨ c = 0x0d ∨ c = 0x2c ∨ c = 0x5d ∨ c = 0x7d

theorem ValueEnds.cons {c : Byte} {r : Text} (hc : c = 0x2c ∨ c = 0x5d ∨ c = 0x7d) :
    ValueEnds (c :: r) := by
  intro d hd
  obtain rfl := Option.some.inj hd
  rcases hc with h | h | h <;> simp [h]

theorem ValueEnds.space {b r : Text} (hb : Space b) (hr : ValueEnds r) : ValueEnds (b ++ r) := by
  cases b with
  | nil => exact hr
  | cons d b =>
    intro c hc
    obtain rfl := Option.some.inj hc
    rcases hb d List.mem_cons_self with h | h | h | h <;> simp [h]

theorem ValueEnds.stops {base : Nat} {r : Text} (hr : ValueEnds r) : Stops base r := by
  have hall : ∀ c : Byte, (c = 0x20 ∨ c = 0x09 ∨ c = 0x0a ∨ c = 0x0d ∨ c = 0x2c ∨ c = 0x5d ∨
      c = 0x7d) → digitVal c = none := by decide +kernel
  rintro c hc ⟨val, hval, -⟩
  rw [hall c (hr c hc)] at hval
  exact absurd hval (by simp)

/-- White space is a filler, in front of a value as of a key. -/
theorem Space.filler {b : Text} (hb : Space b) {blank : Byte → Prop}
    (h : ∀ c, c = 0x20 ∨ c = 0x09 ∨ c = 0x0a ∨ c = 0x0d → blank c) : Filler blank b := by
  induction b with
  | nil => exact .nil
  | cons c b ih =>
    exact .blank (h c (hb c List.mem_cons_self)) (ih fun d hd => hb d (List.mem_cons_of_mem _ hd))

theorem Space.valueFiller {b : Text} (hb : Space b) : Filler ValueBlank b :=
  hb.filler fun c hc => by
    rcases hc with h | h | h | h <;> simp [ValueBlank, h]

theorem Space.keyFiller {b : Text} (hb : Space b) : Filler KeyBlank b :=
  hb.filler fun c hc => by
    rcases hc with rfl | rfl | rfl | rfl <;> decide

theorem Filler.append {blank : Byte → Prop} {f g : Text} (hf : Filler blank f)
    (hg : Filler blank g) : Filler blank (f ++ g) := by
  induction hf with
  | nil => exact hg
  | blank hc _ ih => exact .blank hc ih
  | comment hu _ ih =>
    rw [List.append_assoc]
    exact .comment hu ih

theorem JsonString.stringText {w s : Text} (h : JsonString w s) : StringText w s := by
  induction h with
  | nil => exact .nil
  | plain _ hquote hslash _ ih => exact .plain hquote hslash ih
  | escape he _ ih => exact .escape he ih
  | unicode hu _ ih => exact .unicode hu ih

theorem JsonNatural.unsignedText {w r : Text} {n : Nat} (h : JsonNatural w n) (hr : ValueEnds r) :
    UnsignedText w r n := by
  cases h with
  | zero =>
    have hall : ∀ c : Byte, (c = 0x20 ∨ c = 0x09 ∨ c = 0x0a ∨ c = 0x0d ∨ c = 0x2c ∨ c = 0x5d ∨
        c = 0x7d) → c ||| 0x20 ≠ 0x78 := by decide +kernel
    refine .octal (w := []) (by simp) hr.stops ?_
    rintro - x d r' rfl hx
    exact absurd hx (hall x (hr x rfl))
  | digits hc hw => exact .decimal hc hw hr.stops

theorem JsonInteger.integerText {w r : Text} {n : Int} (h : JsonInteger w n) (hr : ValueEnds r) :
    IntegerText w r (BitVec.ofInt 64 n) := by
  cases h with
  | positive hw =>
    rw [BitVec.ofInt_natCast]
    exact .positive (hw.unsignedText hr)
  | negative hw =>
    rw [BitVec.ofInt_neg, BitVec.ofInt_natCast]
    exact .negative (hw.unsignedText hr)

/-- A key as JSON has it. -/
theorem JsonString.keyText {s k b b₁ : Text} (hb : Space b) (hk : JsonString k s)
    (hb₁ : Space b₁) : KeyText (b ++ 0x22 :: (k ++ 0x22 :: (b₁ ++ [0x3a]))) (cString s) := by
  refine .mk hb.keyFiller hk.stringText fun c hc => ?_
  rcases hb₁ c hc with rfl | rfl | rfl | rfl <;> decide

/-- Blanks in front of the elements. -/
theorem ElementsText.behind {g w r : Text} {jss : List NxJson} (hg : Filler ValueBlank g)
    (h : ElementsText w r jss) : ElementsText (g ++ w) r jss := by
  cases h with
  | nil hg' => exact .nil (hg.append hg')
  | cons hg' hv hw =>
    rw [← List.append_assoc]
    exact .cons (hg.append hg') hv hw

theorem KeyText.behind {g k s : Text} (hg : Filler KeyBlank g) (h : KeyText k s) :
    KeyText (g ++ k) s := by
  obtain ⟨hf, hw, hb⟩ := h
  rw [← List.append_assoc]
  exact .mk (hg.append hf) hw hb

/-- Blanks in front of the members. -/
theorem MembersText.behind {g w r : Text} {jss : List NxJson} (hg : Filler KeyBlank g)
    (h : MembersText w r jss) : MembersText (g ++ w) r jss := by
  cases h with
  | nil hf => exact .nil (hg.append hf)
  | key hk => exact .key (hk.behind hg)
  | cons hk hg' hv hw =>
    rw [← List.append_assoc]
    exact .cons (hk.behind hg) hg' hv hw

mutual

theorem Printed.valueText {v : Value Int} {w : Text} : Printed v w → ∀ {key : Option Text}
    {r : Text}, ValueEnds r → ValueText key w r (nodeOf key v)
  | .null, _, _, _ => .null
  | .true, _, _, _ => .true
  | .false, _, _, _ => .false
  | .num hw, _, _, hr => .integer (hw.integerText hr)
  | .str hw, _, _, _ => .string hw.stringText
  | .emptyArr hb, _, _, _ => .array (.nil hb.valueFiller)
  | .arr hw, _, _, _ => .array (hw.elementsText (.cons (by simp)))
  | .emptyObj hb, _, _, _ => .object (.nil hb.keyFiller)
  | .obj hw, _, _, _ => .object (hw.membersText (.cons (by simp)))

theorem PrintedElems.elementsText {vs : List (Value Int)} {w : Text} : PrintedElems vs w →
    ∀ {r : Text}, ValueEnds r → ElementsText w r (nodesOfElems vs)
  | .one hb hw hb', _, hr =>
    .cons hb.valueFiller (hw.valueText (hr.space hb')) (.nil hb'.valueFiller)
  | .cons hb hw hb' ht, _, hr => by
    have hrest := (ht.elementsText hr).behind
      (hb'.valueFiller.append (.blank (c := 0x2c) (by decide) .nil))
    rw [List.append_assoc, List.singleton_append] at hrest
    refine .cons hb.valueFiller (hw.valueText ?_) hrest
    rw [List.append_assoc]
    exact ValueEnds.space hb' (.cons (by simp))

theorem PrintedMembers.membersText {ms : List (Text × Value Int)} {w : Text} :
    PrintedMembers ms w → ∀ {r : Text}, ValueEnds r → MembersText w r (nodesOfMembers ms)
  | .one hb hk hb₁ hb₂ hw hb', _, hr => by
    have hmember := MembersText.cons (JsonString.keyText hb hk hb₁) hb₂.valueFiller
      (hw.valueText (hr.space hb')) (.nil hb'.keyFiller)
    simpa [nodesOfMembers] using hmember
  | .cons hb hk hb₁ hb₂ hw hb' ht, _, hr => by
    have hrest := (ht.membersText hr).behind
      (hb'.keyFiller.append (.blank (c := 0x2c) (by decide) .nil))
    rw [List.append_assoc, List.singleton_append] at hrest
    have hmember := MembersText.cons (JsonString.keyText hb hk hb₁) hb₂.valueFiller
      (hw.valueText (by
        rw [List.append_assoc]
        exact ValueEnds.space hb' (.cons (by simp)))) hrest
    simpa [nodesOfMembers] using hmember

end

/-- **JSON proper is read as what it means**, whatever its white space and whatever escapes its
strings are written with, when memory lasts. -/
theorem nxJsonParseUtf8_document {alloc : Nat → Bool} {buf : List Byte} {v : Value Int}
    (h : Document v (cString buf)) (halloc : Allocated alloc 0 (nodeOf none v).count) :
    nxJsonParseUtf8 alloc buf = some (nodeOf none v) := by
  obtain ⟨b, w, b', htext, hb, hw, hb'⟩ := h
  have hend : ValueEnds b' := by
    rw [← List.append_nil b']
    exact ValueEnds.space hb' fun c hc => absurd hc (by simp)
  have hparse : nxJsonParse alloc (cString buf) = .ok (some (nodeOf none v)) :=
    nxJsonParse_iff.mpr ⟨⟨b, w, b', htext, hb.valueFiller, hw.valueText hend⟩, halloc⟩
  rw [nxJsonParseUtf8, hparse]

theorem nxJsonParseUtf8_document_array :
    nxJsonParseUtf8 (fun _ => true)
        [0x5b, 0x2d, 0x31, 0x32, 0x2c, 0x20, 0x22, 0x61, 0x22, 0x5d, 0] =
      some (.node .array none [] 0
        [.node .integer none [] (-12) [], .node .string none [0x61] 0 []]) := by
  have hspace : Space [] := fun c hc => absurd hc List.not_mem_nil
  have hblank : Space [0x20] := fun c hc => Or.inl (List.mem_singleton.mp hc)
  have hnum : JsonInteger [0x2d, 0x31, 0x32] (-(12 : Nat)) :=
    .negative (.digits (c := 0x31) (w := [0x32]) (by decide) fun d hd => by
      rcases List.mem_cons.mp hd with rfl | hd
      · exact ⟨1, by decide, by decide⟩
      · rw [List.mem_singleton.mp hd]
        exact ⟨2, by decide, by decide⟩)
  have hstr : JsonString [0x61] [0x61] := .plain (by decide) (by decide) (by decide) .nil
  exact nxJsonParseUtf8_document (v := .arr [.num (-(12 : Nat)), .str [0x61]])
    ⟨[], _, [], rfl, hspace, .arr (.cons hspace (.num hnum) hspace
      (.one hblank (.str hstr) hspace)), hspace⟩ fun _ _ _ => rfl

end Document

end Puppies
