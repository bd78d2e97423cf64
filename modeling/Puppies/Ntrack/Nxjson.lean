/-
# The JSON reader (`drivers/nos_track/src/nxjson.c`)

The configuration of the kernel module arrives as JSON text and is read by a copy of a small
parser.  This file embeds the part of it that the module uses: `nx_json_parse_utf8` and the two
accessors.

The parser walks along a C string.  A pointer into the text is here the list of the characters
from there on, the terminating zero being the end of the list.  Strings are unescaped in place,
behind the point that the parser has reached, so that what it has still to read is as it was;
and whoever uses an unescaped string takes it as a C string, so that it ends at the first zero
that an escape put into it.

What the parser accepts is more than JSON: comments, commas anywhere between values, a missing
value before a closing brace, numbers in the notations of C, and anything behind the first
value.

Each node is allocated on its own; `alloc n` says whether the `n`-th allocation succeeds.  The
recursion is over a bound on its depth and length, which `nxJsonParse` takes large enough
(`nxJsonParse_ne_outOfFuel`).
-/
import Puppies.Lib.Bytes
import Puppies.Lib.Loop

namespace Puppies

open ByteMem BreakLoop

/-- The characters from some pointer on to the end of a C string. -/
abbrev Text := List Byte

/-- A buffer as a C string. -/
def cString (bs : List Byte) : Text := bs.takeWhile (· ≠ 0)

/-! ## 1. Values -/

/-- `nx_json_type` -/
inductive NxJsonType
  | null
  | object
  | array
  | string
  | integer
  | double
  | bool
  deriving DecidableEq, Repr

/-- `nx_json`: the children in the order of their `next` links.  `int_value` is a `long`, of
which only the lower half is ever used. -/
inductive NxJson
  | node (type : NxJsonType) (key : Option Text) (textValue : Text) (intValue : BitVec 64)
      (child : List NxJson)

namespace NxJson

def type : NxJson → NxJsonType
  | node t _ _ _ _ => t
def key : NxJson → Option Text
  | node _ k _ _ _ => k
def textValue : NxJson → Text
  | node _ _ s _ _ => s
def intValue : NxJson → BitVec 64
  | node _ _ _ n _ => n
def child : NxJson → List NxJson
  | node _ _ _ _ c => c

/-- The node that the accessors return when there is none. -/
def dummy : NxJson := node .null none [] 0 []

end NxJson

/-- `nx_json_get` -/
def nxJsonGet (json : NxJson) (key : Text) : NxJson :=
  (json.child.find? fun js => js.key == some key).getD .dummy

/-- `nx_json_item` -/
def nxJsonItem (json : NxJson) (idx : Nat) : NxJson := (json.child[idx]?).getD .dummy

/-! ## 2. Strings -/

/-- Why a text is not read. -/
inductive NxError
  | noMemory
  | unexpectedEnd
  | unexpectedChars
  | noClosingQuote
  | invalidUnicodeEscape
  | invalidUnicodeSurrogate
  | invalidCodepoint
  | endlessComment
  | invalidNumber
  /-- the bound on the recursion was too small: never (`nxJsonParse_ne_outOfFuel`) -/
  | outOfFuel
  deriving DecidableEq, Repr

/-- `IS_WHITESPACE` -/
def isWhitespace (c : Byte) : Bool := c ≤ 0x20#8

/-- `hex_val` -/
def hexVal (c : Byte) : Option Nat :=
  if 0x30#8 ≤ c && c ≤ 0x39#8 then some (c.toNat - 0x30)
  else if 0x61#8 ≤ c && c ≤ 0x66#8 then some (c.toNat - 0x61 + 10)
  else if 0x41#8 ≤ c && c ≤ 0x46#8 then some (c.toNat - 0x41 + 10)
  else none

/-- The four digits of a unicode escape, and what follows them. -/
def hex4 : Text → Option (Nat × Text)
  | a :: b :: c :: d :: rest => do
    let h1 ← hexVal a
    let h2 ← hexVal b
    let h3 ← hexVal c
    let h4 ← hexVal d
    return (h1 * 4096 + h2 * 256 + h3 * 16 + h4, rest)
  | _ => none

/-- `unicode_to_utf8` -/
def unicodeToUtf8 (codepoint : Nat) : Option (List Byte) :=
  let b := BitVec.ofNat 8
  if codepoint < 0x80 then some [b codepoint]
  else if codepoint < 0x800 then some [b (192 + codepoint / 64), b (128 + codepoint % 64)]
  else if 0xd800 ≤ codepoint ∧ codepoint < 0xd800 + 0x800 then none
  else if codepoint < 0x10000 then
    some [b (224 + codepoint / 4096), b (128 + codepoint / 64 % 64), b (128 + codepoint % 64)]
  else if codepoint < 0x110000 then
    some [b (240 + codepoint / 262144), b (128 + codepoint / 4096 % 64),
      b (128 + codepoint / 64 % 64), b (128 + codepoint % 64)]
  else none

/-- The case `'u'` of `unescape_string`, behind the `u`: the bytes it stores and where it goes
on. -/
def unescapeUnicode (p : Text) : Except NxError (List Byte × Text) :=
  match hex4 p with
  | none => .error .invalidUnicodeEscape
  | some (codepoint, p) =>
    let encode (codepoint : Nat) (p : Text) : Except NxError (List Byte × Text) :=
      match unicodeToUtf8 codepoint with
      | some bs => .ok (bs, p)
      | none => .error .invalidCodepoint
    -- a high surrogate needs one more escape to succeed
    if codepoint / 1024 = 0xd800 / 1024 then
      match p with
      | 0x5c :: 0x75 :: p =>
        match hex4 p with
        | some (codepoint2, p) =>
          if codepoint2 / 1024 = 0xdc00 / 1024 then
            encode (0x10000 + (codepoint - 0xd800) * 1024 + (codepoint2 - 0xdc00)) p
          else .error .invalidUnicodeSurrogate
        | none => .error .invalidUnicodeSurrogate
      | _ => .error .invalidUnicodeSurrogate
    else encode codepoint p

/-- What the letter behind a backslash stands for, where it is one byte. -/
def escapedByte (c : Byte) : Option Byte :=
  if c = 0x5c ∨ c = 0x2f ∨ c = 0x22 then some c
  else if c = 0x62 then some 8
  else if c = 0x66 then some 12
  else if c = 0x6e then some 10
  else if c = 0x72 then some 13
  else if c = 0x74 then some 9
  else none

/-- `unescape_string`, behind the opening quote: the string and what follows the closing
quote. -/
def unescapeString : Nat → Text → Except NxError (List Byte × Text)
  | 0, _ => .error .outOfFuel
  | _ + 1, [] => .error .noClosingQuote
  | fuel + 1, c :: p =>
    if c = 0x22 then .ok ([], p)
    else do
      let (bs, p) ←
        if c = 0x5c then
          match p with
          | e :: q =>
            if e = 0x75 then unescapeUnicode q
            else match escapedByte e with
              | some b => .ok ([b], q)
              -- leave untouched
              | none => .ok ([c], p)
          | [] => .ok ([c], p)
        else .ok ([c], p)
      let (cs, p) ← unescapeString fuel p
      return (bs ++ cs, p)

/-! ## 3. Comments, keys and numbers -/

/-- `skip_block_comment`, from the character `prev` on: behind the first `/` that follows a
star and is not the first character of the comment. -/
def skipBlockComment : Byte → Text → Except NxError Text
  | _, [] => .error .endlessComment
  | prev, c :: p => if c = 0x2f ∧ prev = 0x2a then .ok p else skipBlockComment c p

/-- Behind the end of the line. -/
def skipLineComment : Text → Except NxError Text
  | [] => .error .endlessComment
  | c :: p => if c = 0x0a then .ok p else skipLineComment p

/-- A comment, behind its first `/`. -/
def skipComment : Text → Except NxError Text
  | 0x2f :: p => skipLineComment p
  | 0x2a :: [] => .error .endlessComment
  | 0x2a :: c :: p => skipBlockComment c p
  | _ => .error .unexpectedChars

/-- `parse_key`: the key, if there is one, and where the value starts, or the closing brace. -/
def parseKey : Nat → Text → Except NxError (Option Text × Text)
  | 0, _ => .error .outOfFuel
  | _ + 1, [] => .error .unexpectedChars
  | fuel + 1, c :: p =>
    if c = 0x22 then do
      let (key, p) ← unescapeString (p.length + 1) p
      match p.dropWhile isWhitespace with
      | 0x3a :: p => return (some (cString key), p)
      | _ => .error .unexpectedChars
    else if isWhitespace c || c == 0x2c then parseKey fuel p
    else if c = 0x7d then .ok (none, c :: p)
    else if c = 0x2f then do
      let p ← skipComment p
      parseKey fuel p
    else .error .unexpectedChars

/-- The value of a digit in any base up to 16. -/
def digitVal (c : Byte) : Option Nat :=
  let lc := c ||| 0x20
  if 0x30#8 ≤ c && c ≤ 0x39#8 then some (c.toNat - 0x30)
  else if 0x61#8 ≤ lc && lc ≤ 0x66#8 then some (lc.toNat - 0x61 + 10)
  else none

/-- `_parse_integer_fixup_radix`, for base 0. -/
def fixupRadix : Text → Nat × Text
  | 0x30 :: x :: d :: p =>
    if x ||| 0x20 = 0x78 ∧ (digitVal d).isSome = true then (16, d :: p) else (8, 0x30 :: x :: d :: p)
  | 0x30 :: p => (8, 0x30 :: p)
  | p => (10, p)

/-- `_parse_integer`: the digits that are below the base, in 64 bits. -/
def parseInteger (base : Nat) : BitVec 64 → Text → BitVec 64 × Text
  | res, [] => (res, [])
  | res, c :: p =>
    match digitVal c with
    | some val =>
      if val < base then parseInteger base (res * BitVec.ofNat 64 base + BitVec.ofNat 64 val) p
      else (res, c :: p)
    | none => (res, c :: p)

/-- `simple_strtoull` with base 0. -/
def simpleStrtoull (p : Text) : BitVec 64 × Text :=
  let (base, p) := fixupRadix p
  parseInteger base 0 p

/-- `simple_strtol` with base 0. -/
def simpleStrtol : Text → BitVec 64 × Text
  | 0x2d :: p => let (n, p) := simpleStrtoull p; (-n, p)
  | p => simpleStrtoull p

/-! ## 4. The parser -/

/-- What `parse_value` leaves: the node that it appended to its parent, if any, where it
stopped, and how many nodes were allocated so far. -/
structure Parsed where
  node : Option NxJson
  rest : Text
  allocs : Nat

/-- Behind the word `word`, if the text starts with it. -/
def afterWord (word p : Text) : Option Text :=
  if word.isPrefixOf p then some (p.drop word.length) else none

/-- A node without children. -/
def parseLeaf (alloc : Nat → Bool) (n : Nat) (p : Text) (js : NxJson) : Except NxError Parsed :=
  if alloc n then .ok ⟨some js, p, n + 1⟩ else .error .noMemory

mutual

/-- `parse_value` -/
def parseValue (alloc : Nat → Bool) : Nat → Nat → Option Text → Text → Except NxError Parsed
  | 0, _, _, _ => .error .outOfFuel
  | _ + 1, _, _, [] => .error .unexpectedEnd
  | fuel + 1, n, key, c :: p =>
    if c = 0x20 ∨ c = 0x09 ∨ c = 0x0a ∨ c = 0x0d ∨ c = 0x2c then parseValue alloc fuel n key p
    else if c = 0x7b then
      if alloc n then do
        let (children, p, n) ← parseObject alloc fuel (n + 1) p
        return ⟨some (.node .object key [] 0 children), p, n⟩
      else .error .noMemory
    else if c = 0x5b then
      if alloc n then do
        let (children, p, n) ← parseArray alloc fuel (n + 1) p
        return ⟨some (.node .array key [] 0 children), p, n⟩
      else .error .noMemory
    else if c = 0x5d then .ok ⟨none, c :: p, n⟩
    else if c = 0x22 then
      if alloc n then do
        let (s, p) ← unescapeString (p.length + 1) p
        return ⟨some (.node .string key (cString s) 0 []), p, n + 1⟩
      else .error .noMemory
    else if c = 0x2d ∨ (0x30#8 ≤ c ∧ c ≤ 0x39#8) then
      if alloc n then
        let (v, pe) := simpleStrtol (c :: p)
        if pe = c :: p then .error .invalidNumber
        else .ok ⟨some (.node .integer key [] v []), pe, n + 1⟩
      else .error .noMemory
    else if c = 0x74 then
      match afterWord [0x74, 0x72, 0x75, 0x65] (c :: p) with
      | some p => parseLeaf alloc n p (.node .bool key [] 1 [])
      | none => .error .unexpectedChars
    else if c = 0x66 then
      match afterWord [0x66, 0x61, 0x6c, 0x73, 0x65] (c :: p) with
      | some p => parseLeaf alloc n p (.node .bool key [] 0 [])
      | none => .error .unexpectedChars
    else if c = 0x6e then
      match afterWord [0x6e, 0x75, 0x6c, 0x6c] (c :: p) with
      | some p => parseLeaf alloc n p (.node .null key [] 0 [])
      | none => .error .unexpectedChars
    else if c = 0x2f then do
      let p ← skipComment p
      parseValue alloc fuel n key p
    else .error .unexpectedChars

/-- The loop over the members of an object, behind its brace. -/
def parseObject (alloc : Nat → Bool) : Nat → Nat → Text → Except NxError (List NxJson × Text × Nat)
  | 0, _, _ => .error .outOfFuel
  | fuel + 1, n, p => do
    let (key, p) ← parseKey (p.length + 1) p
    match p with
    | 0x7d :: q => return ([], q, n)
    | _ =>
      let v ← parseValue alloc fuel n key p
      let (children, q, m) ← parseObject alloc fuel v.allocs v.rest
      return (v.node.toList ++ children, q, m)

/-- The loop over the elements of an array, behind its bracket. -/
def parseArray (alloc : Nat → Bool) : Nat → Nat → Text → Except NxError (List NxJson × Text × Nat)
  | 0, _, _ => .error .outOfFuel
  | fuel + 1, n, p => do
    let v ← parseValue alloc fuel n none p
    match v.rest with
    | 0x5d :: q => return (v.node.toList, q, v.allocs)
    | _ =>
      let (children, q, m) ← parseArray alloc fuel v.allocs v.rest
      return (v.node.toList ++ children, q, m)

end

/-- `nx_json_parse`: the first value of the text.  A text that is not read leaves no node
behind, and so does one without a value. -/
def nxJsonParse (alloc : Nat → Bool) (text : Text) : Except NxError (Option NxJson) := do
  let v ← parseValue alloc (2 * text.length + 2) 0 none text
  return v.node

/-- `nx_json_parse_utf8`: `none` is the `NULL` pointer. -/
def nxJsonParseUtf8 (alloc : Nat → Bool) (buf : List Byte) : Option NxJson :=
  match nxJsonParse alloc (cString buf) with
  | .ok js => js
  | .error _ => none

/-! ## 5. The parser ends

Every part of the parser leaves a suffix of what it was given, and all of them but one have
consumed a character by then: `parse_value` stops IN FRONT of a closing bracket, and
`parse_key` in front of a closing brace, which their callers consume.  So a recursion of twice
the length of the text is deep enough. -/

/-- `q` is what is left of `p` after at least one character. -/
def Consumed (q p : Text) : Prop := ∃ c s, p = c :: s ∧ q <:+ s

theorem consumed_cons {c : Byte} {q p : Text} : Consumed q (c :: p) ↔ q <:+ p := by
  constructor
  · rintro ⟨d, s, heq, hq⟩
    obtain ⟨rfl, rfl⟩ := List.cons.inj heq
    exact hq
  · intro hq
    exact ⟨c, p, rfl, hq⟩

theorem Consumed.suffix {q p : Text} (h : Consumed q p) : q <:+ p := by
  obtain ⟨c, s, rfl, hq⟩ := h
  exact hq.trans (List.suffix_cons c s)

theorem Consumed.length_lt {q p : Text} (h : Consumed q p) : q.length < p.length := by
  obtain ⟨c, s, rfl, hq⟩ := h
  exact Nat.lt_succ_of_le hq.length_le

/-- A suffix of what is left. -/
theorem Consumed.trans_suffix {r q p : Text} (h : Consumed q p) (hr : r <:+ q) : Consumed r p := by
  obtain ⟨c, s, rfl, hq⟩ := h
  exact consumed_cons.mpr (hr.trans hq)

/-- The outcome of a part of the parser: the bound was large enough, and a result satisfies
`P`. -/
def Ends {α : Type} (P : α → Prop) : Except NxError α → Prop
  | .ok a => P a
  | .error e => e ≠ .outOfFuel

theorem Ends.mono {α : Type} {P Q : α → Prop} {x : Except NxError α} (h : Ends P x)
    (himp : ∀ a, P a → Q a) : Ends Q x := by
  cases x with
  | ok a => exact himp a h
  | error e => exact h

/-- One part after the other. -/
theorem Ends.bind {α β : Type} {P : α → Prop} {Q : β → Prop} {x : Except NxError α}
    {f : α → Except NxError β} (h : Ends P x) (hf : ∀ a, P a → Ends Q (f a)) :
    Ends Q (x >>= f) := by
  cases x with
  | ok a => exact hf a h
  | error e => exact h

theorem Ends.ite {α : Type} {P : α → Prop} {c : Prop} [Decidable c] {x y : Except NxError α}
    (hx : c → Ends P x) (hy : ¬ c → Ends P y) : Ends P (if c then x else y) := by
  split
  · rename_i hc
    exact hx hc
  · rename_i hc
    exact hy hc

theorem hex4_suffix {p q : Text} {n : Nat} (h : hex4 p = some (n, q)) : q <:+ p := by
  unfold hex4 at h
  split at h
  · rename_i a b c d rest
    simp only [bind, Option.bind_eq_some_iff, pure, Option.some.injEq, Prod.mk.injEq] at h
    obtain ⟨-, -, -, -, -, -, -, -, -, rfl⟩ := h
    exact List.suffix_append [a, b, c, d] rest
  · exact absurd h (by simp)

theorem unescapeUnicode_ends (p : Text) : Ends (fun r => r.2 <:+ p) (unescapeUnicode p) := by
  unfold unescapeUnicode
  split
  · exact NxError.noConfusion
  · rename_i codepoint q hhex
    have hq := hex4_suffix hhex
    dsimp only
    split
    · split
      · rename_i q₂
        split
        · rename_i codepoint₂ q₃ hhex₂
          have hq₂ : q₂ <:+ p := (List.suffix_append [0x5c, 0x75] q₂).trans hq
          have hq₃ : q₃ <:+ p := (hex4_suffix hhex₂).trans hq₂
          split
          · split
            · exact hq₃
            · exact NxError.noConfusion
          · exact NxError.noConfusion
        · exact NxError.noConfusion
      · exact NxError.noConfusion
    · split
      · exact hq
      · exact NxError.noConfusion

theorem unescapeString_ends {fuel : Nat} {p : Text} (h : p.length < fuel) :
    Ends (fun r => Consumed r.2 p) (unescapeString fuel p) := by
  induction fuel generalizing p with
  | zero => exact absurd h (Nat.not_lt_zero _)
  | succ fuel ih =>
    cases p with
    | nil => exact NxError.noConfusion
    | cons c p =>
      rw [unescapeString]
      split
      · exact consumed_cons.mpr (List.suffix_refl p)
      · -- the bytes of one character, and the rest of the string
        have hnext : ∀ (bs : List Byte) (q : Text), q <:+ p →
            Ends (fun r => Consumed r.2 (c :: p)) (do
              let (cs, q) ← unescapeString fuel q
              return (bs ++ cs, q)) := by
          intro bs q hq
          have hlen : q.length < fuel := by
            have := hq.length_le
            rw [List.length_cons] at h
            omega
          exact (ih hlen).bind fun r hr => consumed_cons.mpr (hr.suffix.trans hq)
        dsimp only
        split
        · split
          · rename_i e q
            have hq : q <:+ e :: q := List.suffix_cons e q
            split
            · exact (unescapeUnicode_ends q).bind fun r hr => hnext r.1 r.2 (hr.trans hq)
            · split
              · exact hnext _ q hq
              · exact hnext _ _ (List.suffix_refl _)
          · exact hnext _ _ (List.suffix_refl _)
        · exact hnext _ p (List.suffix_refl p)

theorem skipLineComment_ends (p : Text) : Ends (fun q => q <:+ p) (skipLineComment p) := by
  induction p with
  | nil => exact NxError.noConfusion
  | cons c p ih =>
    rw [skipLineComment]
    split
    · exact List.suffix_cons c p
    · exact ih.mono fun q hq => hq.trans (List.suffix_cons c p)

theorem skipBlockComment_ends (prev : Byte) (p : Text) :
    Ends (fun q => q <:+ p) (skipBlockComment prev p) := by
  induction p generalizing prev with
  | nil => exact NxError.noConfusion
  | cons c p ih =>
    rw [skipBlockComment]
    split
    · exact List.suffix_cons c p
    · exact (ih c).mono fun q hq => hq.trans (List.suffix_cons c p)

theorem skipComment_ends (p : Text) : Ends (fun q => q <:+ p) (skipComment p) := by
  unfold skipComment
  split
  · rename_i p
    exact (skipLineComment_ends p).mono fun q hq => hq.trans (List.suffix_cons _ p)
  · exact NxError.noConfusion
  · rename_i c p
    exact (skipBlockComment_ends c p).mono fun q hq => hq.trans (List.suffix_append [_, c] p)
  · exact NxError.noConfusion

/-- `parse_key` stops behind a colon, or in front of a closing brace. -/
theorem parseKey_ends {fuel : Nat} {p : Text} (h : p.length < fuel) :
    Ends (fun r => Consumed r.2 p ∨ r.2 = p ∧ p.head? = some 0x7d) (parseKey fuel p) := by
  induction fuel generalizing p with
  | zero => exact absurd h (Nat.not_lt_zero _)
  | succ fuel ih =>
    cases p with
    | nil => exact NxError.noConfusion
    | cons c p =>
      have hp : p.length < fuel := by simpa using h
      -- going on behind some more characters
      have hnext : ∀ q, q <:+ p →
          Ends (fun r => Consumed r.2 (c :: p) ∨ r.2 = c :: p ∧ (c :: p).head? = some 0x7d)
            (parseKey fuel q) := by
        intro q hq
        refine (ih (Nat.lt_of_le_of_lt hq.length_le hp)).mono fun r hr => Or.inl ?_
        rw [consumed_cons]
        rcases hr with hr | ⟨hr, -⟩
        · exact hr.suffix.trans hq
        · rwa [hr]
      rw [parseKey]
      split
      · refine (unescapeString_ends (Nat.lt_succ_self _)).bind ?_
        intro r hr
        dsimp only
        split
        · rename_i q hq
          refine Or.inl (consumed_cons.mpr ?_)
          have hdrop : r.2.dropWhile isWhitespace <:+ r.2 := List.dropWhile_suffix _
          rw [hq] at hdrop
          exact (List.suffix_cons _ q).trans (hdrop.trans hr.suffix)
        · exact NxError.noConfusion
      · split
        · exact hnext p (List.suffix_refl p)
        · split
          · rename_i hc
            exact Or.inr ⟨rfl, congrArg some hc⟩
          · split
            · exact (skipComment_ends p).bind fun q hq => hnext q hq
            · exact NxError.noConfusion

theorem parseInteger_suffix (base : Nat) (res : BitVec 64) (p : Text) :
    (parseInteger base res p).2 <:+ p := by
  induction p generalizing res with
  | nil => exact List.suffix_refl _
  | cons c p ih =>
    rw [parseInteger]
    split
    · split
      · exact (ih _).trans (List.suffix_cons c p)
      · exact List.suffix_refl _
    · exact List.suffix_refl _

theorem fixupRadix_suffix (p : Text) : (fixupRadix p).2 <:+ p := by
  unfold fixupRadix
  split
  · split
    · exact List.suffix_append [_, _] _
    · exact List.suffix_refl _
  · exact List.suffix_refl _
  · exact List.suffix_refl _

theorem simpleStrtol_suffix (p : Text) : (simpleStrtol p).2 <:+ p := by
  have hull : ∀ q, (simpleStrtoull q).2 <:+ q := fun q =>
    (parseInteger_suffix _ _ _).trans (fixupRadix_suffix q)
  unfold simpleStrtol
  split
  · rename_i q
    exact (hull q).trans (List.suffix_cons _ q)
  · exact hull _

theorem afterWord_suffix {word p q : Text} (h : afterWord word p = some q) (hword : word ≠ []) :
    Consumed q p := by
  unfold afterWord at h
  split at h
  · rename_i hpre
    obtain ⟨rest, rfl⟩ := List.isPrefixOf_iff_prefix.mp hpre
    obtain rfl := Option.some.inj h
    cases word with
    | nil => exact absurd rfl hword
    | cons c word => simp [consumed_cons]
  · exact absurd h (by simp)

/-- Where `parse_value` may stop: behind what it read, or in front of a closing bracket. -/
def ValueEnd (p : Text) (v : Parsed) : Prop :=
  Consumed v.rest p ∨ v.rest = p ∧ p.head? = some 0x5d

/-- The cases of the three words. -/
theorem parseWord_ends {alloc : Nat → Bool} {n : Nat} {word p : Text} {js : NxJson}
    (hword : word ≠ []) :
    Ends (ValueEnd p) (match afterWord word p with
      | some q => parseLeaf alloc n q js
      | none => .error .unexpectedChars) := by
  split
  · rename_i q hq
    exact Ends.ite (fun _ => Or.inl (afterWord_suffix hq hword)) fun _ => NxError.noConfusion
  · exact NxError.noConfusion

section Values

variable {alloc : Nat → Bool} {fuel : Nat}

/-- `parse_value` ends, with this bound. -/
def ValueTotal (alloc : Nat → Bool) (fuel : Nat) : Prop :=
  ∀ n key p, 2 * p.length + 1 ≤ fuel → Ends (ValueEnd p) (parseValue alloc fuel n key p)

/-- A loop ends, with this bound, and takes something from the text. -/
def LoopTotal (fuel : Nat) (loop : Nat → Text → Except NxError (List NxJson × Text × Nat)) : Prop :=
  ∀ n p, 2 * p.length + 2 ≤ fuel → Ends (fun r => Consumed r.2.1 p) (loop n p)

/-- `parse_value`, if what it calls ends. -/
theorem parseValue_step (hvalue : ValueTotal alloc fuel)
    (hobject : LoopTotal fuel (parseObject alloc fuel))
    (harray : LoopTotal fuel (parseArray alloc fuel)) : ValueTotal alloc (fuel + 1) := by
  intro n key p h
  cases p with
  | nil =>
    rw [parseValue]
    exact NxError.noConfusion
  | cons c p =>
    have hp : 2 * p.length + 2 ≤ fuel := by
      rw [List.length_cons] at h
      omega
    -- going on behind some more characters
    have hnext : ∀ q, q <:+ p → Ends (ValueEnd (c :: p)) (parseValue alloc fuel n key q) := by
      intro q hq
      have hlen := hq.length_le
      refine (hvalue n key q (by omega)).mono fun v hv => Or.inl ?_
      rw [consumed_cons]
      rcases hv with hv | ⟨hv, -⟩
      · exact hv.suffix.trans hq
      · rwa [hv]
    rw [parseValue]
    refine Ends.ite (fun _ => hnext p (List.suffix_refl p)) ?_
    intro _
    refine Ends.ite (fun _ => Ends.ite (fun _ => ?_) fun _ => NxError.noConfusion) fun _ => ?_
    · exact (hobject _ p hp).bind fun r hr => Or.inl (consumed_cons.mpr hr.suffix)
    refine Ends.ite (fun _ => Ends.ite (fun _ => ?_) fun _ => NxError.noConfusion) fun _ => ?_
    · exact (harray _ p hp).bind fun r hr => Or.inl (consumed_cons.mpr hr.suffix)
    refine Ends.ite (fun hc => Or.inr ⟨rfl, congrArg some hc⟩) ?_
    intro _
    refine Ends.ite (fun _ => Ends.ite (fun _ => ?_) fun _ => NxError.noConfusion) fun _ => ?_
    · exact (unescapeString_ends (Nat.lt_succ_self _)).bind fun r hr =>
        Or.inl (consumed_cons.mpr hr.suffix)
    refine Ends.ite (fun _ => Ends.ite (fun _ => Ends.ite (fun _ => NxError.noConfusion) ?_)
      fun _ => NxError.noConfusion) fun _ => ?_
    · -- a number that is not empty
      intro hpe
      obtain ⟨front, hfront⟩ := simpleStrtol_suffix (c :: p)
      cases front with
      | nil => exact absurd hfront hpe
      | cons d front =>
        obtain ⟨-, hrest⟩ := List.cons.inj hfront
        exact Or.inl (consumed_cons.mpr ⟨front, hrest⟩)
    refine Ends.ite (fun _ => parseWord_ends (by simp)) ?_
    intro _
    refine Ends.ite (fun _ => parseWord_ends (by simp)) ?_
    intro _
    refine Ends.ite (fun _ => parseWord_ends (by simp)) ?_
    intro _
    refine Ends.ite ?_ fun _ => NxError.noConfusion
    intro _
    exact (skipComment_ends p).bind fun q hq => hnext q hq

/-- The loop over the members of an object: each has a key. -/
theorem parseObject_step (hvalue : ValueTotal alloc fuel)
    (hobject : LoopTotal fuel (parseObject alloc fuel)) :
    LoopTotal (fuel + 1) (parseObject alloc (fuel + 1)) := by
  intro n p h
  rw [parseObject]
  refine (parseKey_ends (Nat.lt_succ_self _)).bind ?_
  rintro ⟨key, q⟩ hkey
  dsimp only at hkey ⊢
  split
  · rename_i q
    rcases hkey with hq | ⟨hq, -⟩
    · exact hq.trans_suffix (List.suffix_cons _ q)
    · exact hq ▸ consumed_cons.mpr (List.suffix_refl q)
  · rename_i hbrace
    have hq : Consumed q p := by
      rcases hkey with hq | ⟨rfl, hhead⟩
      · exact hq
      · obtain ⟨rest, rfl⟩ := List.head?_eq_some_iff.mp hhead
        exact absurd rfl (hbrace rest)
    have hlen := hq.length_lt
    refine (hvalue n key q (by omega)).bind ?_
    intro v hv
    have hrest : v.rest <:+ q := by
      rcases hv with hv | ⟨hv, -⟩
      · exact hv.suffix
      · exact ⟨[], hv⟩
    have hlen' := hrest.length_le
    refine (hobject v.allocs v.rest (by omega)).bind ?_
    intro r hr
    exact hq.trans_suffix (hr.suffix.trans hrest)

/-- The loop over the elements of an array: each is a value or the end. -/
theorem parseArray_step (hvalue : ValueTotal alloc fuel)
    (harray : LoopTotal fuel (parseArray alloc fuel)) :
    LoopTotal (fuel + 1) (parseArray alloc (fuel + 1)) := by
  intro n p h
  rw [parseArray]
  refine (hvalue n none p (by omega)).bind ?_
  intro v hv
  dsimp only
  split
  · rename_i q hrest
    rcases hv with hv | ⟨hv, -⟩
    · rw [hrest] at hv
      exact hv.trans_suffix (List.suffix_cons _ q)
    · rw [← hv, hrest]
      exact consumed_cons.mpr (List.suffix_refl q)
  · rename_i hbracket
    have hrest : Consumed v.rest p := by
      rcases hv with hv | ⟨hv, hhead⟩
      · exact hv
      · obtain ⟨rest, hp⟩ := List.head?_eq_some_iff.mp hhead
        exact absurd (hv.trans hp) (hbracket rest)
    have hlen := hrest.length_lt
    refine (harray v.allocs v.rest (by omega)).bind ?_
    intro r hr
    exact hrest.trans_suffix hr.suffix

end Values

/-- **The parser ends**, given a bound of twice the length of the text. -/
theorem parse_ends (alloc : Nat → Bool) (fuel : Nat) :
    ValueTotal alloc fuel ∧ LoopTotal fuel (parseObject alloc fuel) ∧
      LoopTotal fuel (parseArray alloc fuel) := by
  induction fuel with
  | zero =>
    refine ⟨?_, ?_, ?_⟩
    · intro n key p h
      exact absurd h (by omega)
    · intro n p h
      exact absurd h (by omega)
    · intro n p h
      exact absurd h (by omega)
  | succ fuel ih =>
    obtain ⟨hvalue, hobject, harray⟩ := ih
    exact ⟨parseValue_step hvalue hobject harray, parseObject_step hvalue hobject,
      parseArray_step hvalue harray⟩

/-- No text needs a larger bound than `nxJsonParse` gives. -/
theorem nxJsonParse_ne_outOfFuel (alloc : Nat → Bool) (text : Text) :
    nxJsonParse alloc text ≠ .error .outOfFuel := by
  have hends : Ends (fun _ => True) (nxJsonParse alloc text) :=
    ((parse_ends alloc (2 * text.length + 2)).1 0 none text (by omega)).bind fun _ _ => trivial
  intro herr
  rw [herr] at hends
  exact hends rfl

end Puppies
