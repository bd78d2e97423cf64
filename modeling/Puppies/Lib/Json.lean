/-
# JSON values and their texts

A value is given with its members in some order, and with an array or an object for a table
without entries.  What programs of a language with tables see of it is less: `tree` says what is
at each path, and two values with the same tree are the same table.

`text` is the text of a value without blanks.  An empty table is printed as the caller says, since
printers do not know whether it was an array.  `Codec` is what one may expect of a JSON library:
its `encode` prints SOME order of the members, and its `decode` reads every such text back, up to
what a tree does not show.  Section 4 has a codec, so that there is one.
-/
import Mathlib.Data.List.TakeWhile
import Puppies.Lib.Bytes

namespace JsonText

open ByteMem

/-- The bytes of a text in ASCII. -/
def ascii (s : String) : List Byte := s.toList.map fun c => BitVec.ofNat 8 c.toNat

/-- A string of bytes. -/
abbrev Str := List Byte

/-! ## 1. Values and trees -/

/-- A value, with numbers in `ν`. -/
inductive Value (ν : Type) where
  | null
  | bool (b : Bool)
  | num (x : ν)
  | str (s : Str)
  | arr (vs : List (Value ν))
  | obj (ms : List (Str × Value ν))

/-- What is at a path: a scalar, or the fact that there is a table. -/
inductive Node (ν : Type) where
  | null
  | bool (b : Bool)
  | num (x : ν)
  | str (s : Str)
  | table
  deriving DecidableEq

/-- A step into a table. -/
inductive Key where
  | field (k : Str)
  | index (i : Nat)
  deriving DecidableEq

/-- What is at each path. -/
abbrev PathTree (ν : Type) := List Key → Option (Node ν)

variable {ν : Type}

/-- The last entry under a key. -/
def lookup {κ β : Type} [DecidableEq κ] (k : κ) : List (κ × β) → Option β
  | [] => none
  | (k', x) :: ms => (lookup k ms).or (if k = k' then some x else none)

section Lookup

variable {κ β γ : Type} [DecidableEq κ]

@[simp] theorem lookup_nil (k : κ) : lookup k ([] : List (κ × β)) = none := rfl

@[simp] theorem lookup_cons (k k' : κ) (x : β) (ms : List (κ × β)) :
    lookup k ((k', x) :: ms) = (lookup k ms).or (if k = k' then some x else none) := rfl

theorem lookup_append (k : κ) (ms ns : List (κ × β)) :
    lookup k (ms ++ ns) = (lookup k ns).or (lookup k ms) := by
  induction ms with
  | nil => simp
  | cons m ms ih => rw [List.cons_append, lookup_cons, lookup_cons, ih, Option.or_assoc]

/-- A change of the entries that depends on their keys. -/
theorem lookup_map (f : κ → β → γ) (k : κ) (ms : List (κ × β)) :
    lookup k (ms.map fun m => (m.1, f m.1 m.2)) = (lookup k ms).map (f k) := by
  induction ms with
  | nil => rfl
  | cons m ms ih =>
    rw [List.map_cons, lookup_cons, lookup_cons, ih]
    by_cases h : k = m.1
    · subst h
      cases lookup m.1 ms <;> simp
    · simp [h]

theorem mem_of_lookup {k : κ} {x : β} {ms : List (κ × β)} (h : lookup k ms = some x) :
    (k, x) ∈ ms := by
  induction ms with
  | nil => exact absurd h (by simp)
  | cons m ms ih =>
    rw [lookup_cons, Option.or_eq_some_iff] at h
    rcases h with h | ⟨-, h⟩
    · exact List.mem_cons_of_mem _ (ih h)
    · obtain ⟨rfl, rfl⟩ := by simpa using h
      exact List.mem_cons_self

/-- A key that occurs is found. -/
theorem lookup_of_mem {k : κ} {x : β} {ms : List (κ × β)} (h : (k, x) ∈ ms) :
    ∃ y, lookup k ms = some y := by
  induction ms with
  | nil => exact absurd h List.not_mem_nil
  | cons m ms ih =>
    rw [lookup_cons]
    rcases List.mem_cons.mp h with rfl | h
    · cases lookup k ms <;> simp
    · obtain ⟨y, hy⟩ := ih h
      exact ⟨y, by rw [hy, Option.some_or]⟩

/-- What is left when the entries under one key are taken out. -/
theorem lookup_filter_ne (k k' : κ) (ms : List (κ × β)) :
    lookup k (ms.filter fun m => m.1 ≠ k') = if k = k' then none else lookup k ms := by
  induction ms with
  | nil => simp
  | cons m ms ih =>
    rw [List.filter_cons]
    by_cases hm : m.1 = k'
    · rw [if_neg (by simpa using hm), ih, lookup_cons]
      by_cases hk : k = k'
      · rw [if_pos hk, if_pos hk]
      · rw [if_neg hk, if_neg hk, if_neg fun h => hk (h.trans hm), Option.or_none]
    · rw [if_pos (by simpa using hm), lookup_cons, lookup_cons, ih]
      by_cases hk : k = k'
      · rw [if_pos hk, if_pos hk, if_neg fun h => hm (h.symm.trans hk), Option.or_none]
      · rw [if_neg hk, if_neg hk]

end Lookup

namespace Value

def node : Value ν → Node ν
  | .null => .null
  | .bool b => .bool b
  | .num x => .num x
  | .str s => .str s
  | .arr _ => .table
  | .obj _ => .table

/-- The tree of a value. -/
def tree : Value ν → PathTree ν
  | v, [] => some v.node
  | .arr vs, .index i :: p => vs[i]?.bind fun v => tree v p
  | .obj ms, .field k :: p => (lookup k ms).bind fun v => tree v p
  | _, _ :: _ => none

@[simp] theorem tree_nil (v : Value ν) : v.tree [] = some v.node := by
  unfold tree
  rfl

@[simp] theorem tree_arr_index (vs : List (Value ν)) (i : Nat) (p : List Key) :
    (arr vs).tree (.index i :: p) = vs[i]?.bind fun v => v.tree p := by
  rw [tree]

@[simp] theorem tree_arr_field (vs : List (Value ν)) (k : Str) (p : List Key) :
    (arr vs).tree (.field k :: p) = none := by
  rw [tree]
  all_goals simp

@[simp] theorem tree_obj_field (ms : List (Str × Value ν)) (k : Str) (p : List Key) :
    (obj ms).tree (.field k :: p) = (lookup k ms).bind fun v => v.tree p := by
  rw [tree]

@[simp] theorem tree_obj_index (ms : List (Str × Value ν)) (i : Nat) (p : List Key) :
    (obj ms).tree (.index i :: p) = none := by
  rw [tree]
  all_goals simp

/-- What is at a path of a value that may be there, by its tree. -/
theorem bind_tree (v : Option (Value ν)) (p : List Key) :
    (v.bind fun v => v.tree p) = (v.map tree).bind fun D => D p := by
  cases v with
  | none => rfl
  | some v => rfl

/-- The tree of an array is made of those of its elements. -/
theorem tree_arr_congr {vs ws : List (Value ν)} (h : vs.map tree = ws.map tree) :
    (arr vs).tree = (arr ws).tree := by
  funext p
  match p with
  | [] => rfl
  | .field k :: p => simp
  | .index i :: p =>
    have hi : (vs[i]?).map tree = (ws[i]?).map tree := by
      rw [← List.getElem?_map, ← List.getElem?_map, h]
    rw [tree_arr_index, tree_arr_index, bind_tree, hi, ← bind_tree]

/-- And that of an object of those of its members. -/
theorem tree_obj_congr {ms ns : List (Str × Value ν)}
    (h : (ms.map fun m => (m.1, m.2.tree)) = ns.map fun m => (m.1, m.2.tree)) :
    (obj ms).tree = (obj ns).tree := by
  funext p
  match p with
  | [] => rfl
  | .index i :: p => simp
  | .field k :: p =>
    have hk : (lookup k ms).map tree = (lookup k ns).map tree := by
      rw [← lookup_map (fun _ => tree) k ms, ← lookup_map (fun _ => tree) k ns, h]
    rw [tree_obj_field, tree_obj_field, bind_tree, hk, ← bind_tree]

/-- A table without entries is not known to be one or the other. -/
theorem tree_arr_nil : (arr [] : Value ν).tree = (obj []).tree := by
  funext p
  match p with
  | [] => rfl
  | .field k :: p => simp
  | .index i :: p => simp

end Value

mutual

/-- Equality of values. -/
def Value.beq [DecidableEq ν] : Value ν → Value ν → Bool
  | .null, .null => true
  | .bool b, .bool c => b = c
  | .num x, .num y => x = y
  | .str s, .str t => s = t
  | .arr vs, .arr ws => beqElems vs ws
  | .obj ms, .obj ns => beqMembers ms ns
  | _, _ => false

def beqElems [DecidableEq ν] : List (Value ν) → List (Value ν) → Bool
  | [], [] => true
  | v :: vs, w :: ws => Value.beq v w && beqElems vs ws
  | _, _ => false

def beqMembers [DecidableEq ν] : List (Str × Value ν) → List (Str × Value ν) → Bool
  | [], [] => true
  | (k, v) :: ms, (l, w) :: ns => k = l && Value.beq v w && beqMembers ms ns
  | _, _ => false

end

mutual

theorem Value.beq_iff [DecidableEq ν] : ∀ v w : Value ν, Value.beq v w = true ↔ v = w
  | .null, w => by cases w <;> simp [Value.beq]
  | .bool b, w => by cases w <;> simp [Value.beq]
  | .num x, w => by cases w <;> simp [Value.beq]
  | .str s, w => by cases w <;> simp [Value.beq]
  | .arr vs, w => by cases w <;> simp [Value.beq, beqElems_iff vs]
  | .obj ms, w => by cases w <;> simp [Value.beq, beqMembers_iff ms]

theorem beqElems_iff [DecidableEq ν] : ∀ vs ws : List (Value ν), beqElems vs ws = true ↔ vs = ws
  | [], ws => by cases ws <;> simp [beqElems]
  | v :: vs, ws => by cases ws <;> simp [beqElems, Value.beq_iff v, beqElems_iff vs]

theorem beqMembers_iff [DecidableEq ν] :
    ∀ ms ns : List (Str × Value ν), beqMembers ms ns = true ↔ ms = ns
  | [], ns => by cases ns <;> simp [beqMembers]
  | (k, v) :: ms, ns => by
    cases ns <;> simp [beqMembers, Value.beq_iff v, beqMembers_iff ms, Prod.ext_iff]

end

instance [DecidableEq ν] : DecidableEq (Value ν) :=
  fun v w => decidable_of_iff _ (Value.beq_iff v w)

/-! ## 2. Texts -/

/-- A digit of a number to the base 16. -/
def hexDigit (n : Nat) : Byte := (ascii "0123456789abcdef").getD n 0

/-- A byte that does not stand for itself in a string: a quotation mark, a backslash, a slash or
a control character. -/
def Special (c : Byte) : Prop := c = 0x22 ∨ c = 0x5c ∨ c = 0x2f ∨ c < 0x20 ∨ c = 0x7f

instance (c : Byte) : Decidable (Special c) := inferInstanceAs (Decidable (_ ∨ _))

/-- How a byte is written in a string. -/
def escapeByte (c : Byte) : Str :=
  if c = 0x22 ∨ c = 0x5c ∨ c = 0x2f then [0x5c, c]
  else if c = 0x08 then ascii "\\b"
  else if c = 0x09 then ascii "\\t"
  else if c = 0x0a then ascii "\\n"
  else if c = 0x0c then ascii "\\f"
  else if c = 0x0d then ascii "\\r"
  else if c < 0x20 ∨ c = 0x7f then
    ascii "\\u00" ++ [hexDigit (c.toNat / 16), hexDigit (c.toNat % 16)]
  else [c]

/-- What is between the quotation marks. -/
def escape (s : Str) : Str := s.flatMap escapeByte

/-- A string. -/
def quoted (s : Str) : Str := 0x22 :: (escape s ++ [0x22])

/-- The characters of numbers. -/
def numChars : Str := ascii "0123456789+-.eE"

section Text

variable (numText : ν → Str) (empty : Str)

mutual

/-- The text of a value, with `empty` for a table without entries. -/
def text : Value ν → Str
  | .null => ascii "null"
  | .bool true => ascii "true"
  | .bool false => ascii "false"
  | .num x => numText x
  | .str s => quoted s
  | .arr [] => empty
  | .arr (v :: vs) => 0x5b :: (text v ++ textElems vs)
  | .obj [] => empty
  | .obj ((k, v) :: ms) => 0x7b :: (quoted k ++ 0x3a :: (text v ++ textMembers ms))

/-- The rest of an array, behind its first element. -/
def textElems : List (Value ν) → Str
  | [] => [0x5d]
  | v :: vs => 0x2c :: (text v ++ textElems vs)

/-- The rest of an object, behind its first member. -/
def textMembers : List (Str × Value ν) → Str
  | [] => [0x7d]
  | (k, v) :: ms => 0x2c :: (quoted k ++ 0x3a :: (text v ++ textMembers ms))

end

end Text

/-- `{}` and `[]`. -/
def emptyObj : Str := [0x7b, 0x7d]
def emptyArr : Str := [0x5b, 0x5d]

/-- **What a JSON library does**, whatever its numbers are and in whatever order it takes the
members of an object. -/
structure Codec (ν : Type) where
  numText : ν → Str
  encode : Value ν → Str
  decode : Str → Option (Value ν)
  numText_chars : ∀ x, ∀ c ∈ numText x, c ∈ numChars
  /-- a table without entries is printed as an object -/
  encode_text : ∀ v, ∃ w, w.tree = v.tree ∧ encode v = text numText emptyObj w
  /-- and is read as an array and as an object; the last one of two members with one name counts -/
  decode_text : ∀ empty ∈ [emptyObj, emptyArr], ∀ v,
    ∃ w, decode (text numText empty v) = some w ∧ w.tree = v.tree

/-! ## 3. The bytes of a string -/

/-- The bytes with an escape of two characters, and the second of them. -/
def shortEscapes : List (Byte × Byte) :=
  [(0x22, 0x22), (0x5c, 0x5c), (0x2f, 0x2f), (0x08, 0x62), (0x09, 0x74), (0x0a, 0x6e),
    (0x0c, 0x66), (0x0d, 0x72)]

/-- How a byte is written: the only place where `escapeByte` is unfolded is `escaped`. -/
inductive Escaped (c : Byte) : Str → Prop
  | plain (h : ¬ Special c) : Escaped c [c]
  | short {d : Byte} (h : Special c) (hd : (c, d) ∈ shortEscapes) : Escaped c [0x5c, d]
  | hex (h : Special c) :
      Escaped c [0x5c, 0x75, 0x30, 0x30, hexDigit (c.toNat / 16), hexDigit (c.toNat % 16)]

theorem escaped (c : Byte) : Escaped c (escapeByte c) := by
  unfold escapeByte
  split
  · rename_i h
    rcases h with rfl | rfl | rfl
    · exact .short (by decide) (by decide)
    · exact .short (by decide) (by decide)
    · exact .short (by decide) (by decide)
  split
  · rename_i h
    exact h ▸ .short (by decide) (by decide)
  split
  · rename_i h
    exact h ▸ .short (by decide) (by decide)
  split
  · rename_i h
    exact h ▸ .short (by decide) (by decide)
  split
  · rename_i h
    exact h ▸ .short (by decide) (by decide)
  split
  · rename_i h
    exact h ▸ .short (by decide) (by decide)
  split
  · rename_i h
    exact .hex (Or.inr (Or.inr (Or.inr h)))
  · rename_i hself _ _ _ _ _ hctrl
    refine .plain ?_
    intro h
    rcases h with h | h | h | h
    · exact hself (Or.inl h)
    · exact hself (Or.inr (Or.inl h))
    · exact hself (Or.inr (Or.inr h))
    · exact hctrl h

theorem escapeByte_of_not_special {c : Byte} (h : ¬ Special c) : escapeByte c = [c] := by
  have hesc := escaped c
  generalize escapeByte c = e at hesc
  cases hesc with
  | plain _ => rfl
  | short hc _ => exact absurd hc h
  | hex hc => exact absurd hc h

theorem escapeByte_of_special {c : Byte} (h : Special c) : ∃ e, escapeByte c = 0x5c :: e := by
  have hesc := escaped c
  generalize escapeByte c = e at hesc
  cases hesc with
  | plain hc => exact absurd h hc
  | short _ _ => exact ⟨_, rfl⟩
  | hex _ => exact ⟨_, rfl⟩

/-- What is added by an escape. -/
def escapeChars : Str := ascii "\\btnfru0123456789abcdef"

theorem hexDigit_mem (n : Nat) (h : n < 16) : hexDigit n ∈ escapeChars := by
  revert n
  decide

theorem mem_escapeByte {b c : Byte} (h : b ∈ escapeByte c) : b = c ∨ b ∈ escapeChars := by
  have hesc := escaped c
  generalize escapeByte c = e at hesc h
  cases hesc with
  | plain _ => exact Or.inl (List.mem_singleton.mp h)
  | @short d _ hd =>
    have hshort : shortEscapes.all (fun m => m.2 = m.1 ∨ m.2 ∈ escapeChars) = true := by decide
    rcases List.mem_cons.mp h with rfl | h
    · exact Or.inr (by decide)
    · rw [List.mem_singleton.mp h]
      exact of_decide_eq_true (List.all_eq_true.mp hshort (c, d) hd)
  | hex _ =>
    have hdigits : ∀ d ∈ [hexDigit (c.toNat / 16), hexDigit (c.toNat % 16)], d ∈ escapeChars := by
      intro d hd
      rcases List.mem_cons.mp hd with rfl | hd
      · exact hexDigit_mem _ (by have := c.isLt; omega)
      · rw [List.mem_singleton.mp hd]
        exact hexDigit_mem _ (Nat.mod_lt _ (by decide))
    have hstart : ∀ d ∈ ascii "\\u00", d ∈ escapeChars := by decide
    rcases List.mem_append (s := ascii "\\u00").mp h with h | h
    · exact Or.inr (hstart b h)
    · exact Or.inr (hdigits b h)

@[simp] theorem escape_nil : escape [] = [] := rfl

@[simp] theorem escape_cons (c : Byte) (s : Str) : escape (c :: s) = escapeByte c ++ escape s := rfl

/-- **A string is read up to its quotation mark**: a word of letters, a quotation mark and some
text are at the front of a string's end exactly when the word is the string. -/
theorem prefix_escape_iff {w : Str} (hw : ∀ c ∈ w, ¬ Special c) (t s rest : Str) :
    w ++ 0x22 :: t <+: escape s ++ 0x22 :: rest ↔ s = w ∧ t <+: rest := by
  induction w generalizing s with
  | nil =>
    cases s with
    | nil => simp
    | cons c s =>
      refine iff_of_false ?_ (by simp)
      intro hpre
      by_cases hc : Special c
      · obtain ⟨e, he⟩ := escapeByte_of_special hc
        rw [escape_cons, he] at hpre
        exact absurd (List.cons_prefix_cons.mp hpre).1 (by decide)
      · rw [escape_cons, escapeByte_of_not_special hc] at hpre
        exact hc (Or.inl (List.cons_prefix_cons.mp hpre).1.symm)
  | cons a w ih =>
    have ha : ¬ Special a := hw a List.mem_cons_self
    have hw' : ∀ c ∈ w, ¬ Special c := fun c hc => hw c (List.mem_cons_of_mem _ hc)
    cases s with
    | nil =>
      refine iff_of_false ?_ (by simp)
      intro hpre
      exact ha (Or.inl (List.cons_prefix_cons.mp hpre).1)
    | cons c s =>
      by_cases hc : Special c
      · obtain ⟨e, he⟩ := escapeByte_of_special hc
        refine iff_of_false ?_ ?_
        · intro hpre
          rw [escape_cons, he] at hpre
          exact ha (Or.inr (Or.inl (List.cons_prefix_cons.mp hpre).1))
        · intro h
          exact ha ((List.cons.inj h.1).1 ▸ hc)
      · rw [escape_cons, escapeByte_of_not_special hc, List.cons_append, List.cons_append,
          List.cons_append, List.nil_append, List.cons_prefix_cons, ih hw', List.cons.injEq,
          and_assoc, eq_comm (a := a)]

/-! ## 4. A codec

Its numbers are sequences of digits, and what it decodes are the texts that it prints, with both
kinds of empty tables. -/

def isDigit (c : Byte) : Bool := c ∈ ascii "0123456789"

/-- A number. -/
structure Digits where
  digits : Str
  ne_nil : digits ≠ []
  all_digits : ∀ c ∈ digits, isDigit c = true
  deriving DecidableEq

/-- The value of a digit to the base 16. -/
def hexVal (c : Byte) : Nat := (ascii "0123456789abcdef").idxOf c

/-- What a backslash and this character stand for. -/
def unescape (c : Byte) : Byte :=
  if c = 0x62 then 0x08
  else if c = 0x74 then 0x09
  else if c = 0x6e then 0x0a
  else if c = 0x66 then 0x0c
  else if c = 0x72 then 0x0d
  else c

/-- The rest of a string, behind its first quotation mark, and what follows it. -/
def parseString : Str → Option (Str × Str)
  | [] => none
  | c :: s =>
    if c = 0x22 then some ([], s)
    else if c = 0x5c then
      match s with
      | [] => none
      | d :: s =>
        if d = 0x75 then
          match s with
          | _ :: _ :: a :: b :: s =>
            (parseString s).map fun r => (BitVec.ofNat 8 (16 * hexVal a + hexVal b) :: r.1, r.2)
          | _ => none
        else (parseString s).map fun r => (unescape d :: r.1, r.2)
    else (parseString s).map fun r => (c :: r.1, r.2)

theorem hexVal_hexDigit (n : Nat) (h : n < 16) : hexVal (hexDigit n) = n := by
  revert n
  decide

@[simp] theorem parseString_quote (s : Str) : parseString (0x22 :: s) = some ([], s) := by
  rw [parseString.eq_def]
  rfl

theorem parseString_plain {c : Byte} (h1 : c ≠ 0x22) (h2 : c ≠ 0x5c) (s : Str) :
    parseString (c :: s) = (parseString s).map fun r => (c :: r.1, r.2) := by
  rw [parseString.eq_def]
  dsimp only
  rw [if_neg h1, if_neg h2]

theorem parseString_unescape {d : Byte} (h : d ≠ 0x75) (s : Str) :
    parseString (0x5c :: d :: s) = (parseString s).map fun r => (unescape d :: r.1, r.2) := by
  rw [parseString.eq_def]
  dsimp only
  rw [if_neg (by decide), if_pos rfl, if_neg h]

theorem parseString_hex (x y a b : Byte) (s : Str) :
    parseString (0x5c :: 0x75 :: x :: y :: a :: b :: s) = (parseString s).map
      fun r => (BitVec.ofNat 8 (16 * hexVal a + hexVal b) :: r.1, r.2) := by
  rw [parseString.eq_def]
  dsimp only
  rw [if_neg (by decide), if_pos rfl, if_pos rfl]

theorem parseString_escapeByte (c : Byte) (t : Str) :
    parseString (escapeByte c ++ t) = (parseString t).map fun r => (c :: r.1, r.2) := by
  have hesc := escaped c
  generalize escapeByte c = e at hesc
  cases hesc with
  | plain hc =>
    simp only [Special, not_or] at hc
    exact parseString_plain hc.1 hc.2.1 t
  | @short d _ hd =>
    have hshort : shortEscapes.all (fun m => m.2 ≠ 0x75 ∧ unescape m.2 = m.1) = true := by decide
    obtain ⟨hne, hself⟩ := of_decide_eq_true (List.all_eq_true.mp hshort (c, d) hd)
    rw [List.cons_append, List.cons_append, List.nil_append, parseString_unescape hne, hself]
  | hex _ =>
    have hlt : c.toNat / 16 < 16 := by
      have := c.isLt
      omega
    have hval : BitVec.ofNat 8 (16 * hexVal (hexDigit (c.toNat / 16)) +
        hexVal (hexDigit (c.toNat % 16))) = c := by
      rw [hexVal_hexDigit _ hlt, hexVal_hexDigit _ (Nat.mod_lt _ (by decide)), Nat.div_add_mod]
      exact BitVec.ofNat_toNat 8 c
    have hhex := parseString_hex 0x30 0x30 (hexDigit (c.toNat / 16)) (hexDigit (c.toNat % 16)) t
    rw [hval] at hhex
    exact hhex

theorem parseString_escape (s t : Str) : parseString (escape s ++ 0x22 :: t) = some (s, t) := by
  induction s with
  | nil => exact parseString_quote t
  | cons c s ih =>
    rw [escape_cons, List.append_assoc, parseString_escapeByte, ih]
    rfl

mutual

/-- A value and what follows it, with a bound on the depth. -/
def parseValue : Nat → Str → Option (Value Digits × Str)
  | 0, _ => none
  | _, [] => none
  | n + 1, c :: s =>
    if c = 0x22 then (parseString s).map fun r => (.str r.1, r.2)
    else if c = 0x5b then
      if s.head? = some 0x5d then some (.arr [], s.tail)
      else do
        let (v, s) ← parseValue n s
        let (vs, s) ← parseElems n s
        return (.arr (v :: vs), s)
    else if c = 0x7b then
      if s.head? = some 0x7d then some (.obj [], s.tail)
      else do
        let (k, v, s) ← parseMember n s
        let (ms, s) ← parseMembers n s
        return (.obj ((k, v) :: ms), s)
    else if ascii "null" <+: c :: s then some (.null, s.drop 3)
    else if ascii "true" <+: c :: s then some (.bool true, s.drop 3)
    else if ascii "false" <+: c :: s then some (.bool false, s.drop 4)
    else
      let digits := (c :: s).takeWhile isDigit
      if h : digits ≠ [] then
        some (.num ⟨digits, h, fun _ hd => List.mem_takeWhile_imp hd⟩, (c :: s).dropWhile isDigit)
      else none

/-- The rest of an array. -/
def parseElems : Nat → Str → Option (List (Value Digits) × Str)
  | 0, _ => none
  | _, [] => none
  | n + 1, c :: s =>
    if c = 0x5d then some ([], s)
    else if c = 0x2c then do
      let (v, s) ← parseValue n s
      let (vs, s) ← parseElems n s
      return (v :: vs, s)
    else none

/-- One member. -/
def parseMember : Nat → Str → Option (Str × Value Digits × Str)
  | 0, _ => none
  | n + 1, s =>
    if s.head? = some 0x22 then do
      let (k, s) ← parseString s.tail
      if s.head? = some 0x3a then do
        let (v, s) ← parseValue n s.tail
        return (k, v, s)
      else none
    else none

/-- The rest of an object. -/
def parseMembers : Nat → Str → Option (List (Str × Value Digits) × Str)
  | 0, _ => none
  | _, [] => none
  | n + 1, c :: s =>
    if c = 0x7d then some ([], s)
    else if c = 0x2c then do
      let (k, v, s) ← parseMember n s
      let (ms, s) ← parseMembers n s
      return ((k, v) :: ms, s)
    else none

end

/-- The text does not go on with a digit. -/
def NoDigit (t : Str) : Prop := ∀ c ∈ t.head?, isDigit c = false

theorem parseValue_digits (n : Nat) (x : Digits) {t : Str} (ht : NoDigit t) :
    parseValue (n + 1) (x.digits ++ t) = some (.num x, t) := by
  obtain ⟨digits, hne, hall⟩ := x
  have htake : (digits ++ t).takeWhile isDigit = digits := by
    rw [List.takeWhile_append_of_pos hall]
    cases t with
    | nil => simp
    | cons c t => simp [ht c rfl]
  have hdrop : (digits ++ t).dropWhile isDigit = t := by
    rw [List.dropWhile_append_of_pos hall]
    cases t with
    | nil => rfl
    | cons c t => simp [ht c rfl]
  cases digits with
  | nil => exact absurd rfl hne
  | cons c cs =>
    have hc : isDigit c = true := hall c List.mem_cons_self
    have hnot : ∀ d : Byte, isDigit d = false → c ≠ d := by
      rintro d hd rfl
      rw [hc] at hd
      exact absurd hd (by decide)
    have hword : ∀ (d : Byte) (w : Str), isDigit d = false → ¬ d :: w <+: c :: (cs ++ t) :=
      fun d w hd hpre => hnot d hd (List.cons_prefix_cons.mp hpre).1.symm
    have hnull : ¬ ascii "null" <+: c :: (cs ++ t) := hword 0x6e (ascii "ull") (by decide)
    have htrue : ¬ ascii "true" <+: c :: (cs ++ t) := hword 0x74 (ascii "rue") (by decide)
    have hfalse : ¬ ascii "false" <+: c :: (cs ++ t) := hword 0x66 (ascii "alse") (by decide)
    rw [List.cons_append] at htake hdrop ⊢
    rw [parseValue, if_neg (hnot _ (by decide)), if_neg (hnot _ (by decide)),
      if_neg (hnot _ (by decide)), if_neg hnull, if_neg htrue, if_neg hfalse]
    simp only [htake, hdrop, dif_pos hne]

/-- What a value becomes when its text is read: the tables without entries are read as they are
printed. -/
theorem parseValue_empty {empty : Str} (he : empty ∈ [emptyObj, emptyArr]) (n : Nat) (t : Str) :
    ∃ w : Value Digits, parseValue (n + 1) (empty ++ t) = some (w, t) ∧
      w.tree = (Value.arr []).tree := by
  rcases List.mem_cons.mp he with rfl | he
  · exact ⟨.obj [], rfl, Value.tree_arr_nil.symm⟩
  · rw [List.mem_singleton.mp he]
    exact ⟨.arr [], rfl, rfl⟩

theorem parseMember_quoted {n : Nat} {s r : Str} {v : Value Digits} (k : Str)
    (h : parseValue n s = some (v, r)) :
    parseMember (n + 1) (quoted k ++ 0x3a :: s) = some (k, v, r) := by
  have hkey : parseString (escape k ++ 0x22 :: 0x3a :: s) = some (k, 0x3a :: s) :=
    parseString_escape k _
  rw [quoted, List.cons_append, List.append_assoc, List.singleton_append, parseMember,
    List.head?_cons, if_pos rfl, List.tail_cons, hkey]
  simp [h]

/-- A text is not empty, and does not begin as if it were the end of an array. -/
theorem text_eq_cons {empty : Str} (he : empty ∈ [emptyObj, emptyArr]) (v : Value Digits) :
    ∃ c s, text Digits.digits empty v = c :: s ∧ c ≠ 0x5d := by
  have hempty : ∃ c s, empty = c :: s ∧ c ≠ 0x5d := by
    rcases List.mem_cons.mp he with rfl | he
    · exact ⟨0x7b, [0x7d], rfl, by decide⟩
    · rw [List.mem_singleton.mp he]
      exact ⟨0x5b, [0x5d], rfl, by decide⟩
  match v with
  | .null => exact ⟨_, _, rfl, by decide⟩
  | .bool true => exact ⟨_, _, rfl, by decide⟩
  | .bool false => exact ⟨_, _, rfl, by decide⟩
  | .num ⟨[], hne, _⟩ => exact absurd rfl hne
  | .num ⟨c :: s, _, hall⟩ =>
    refine ⟨c, s, rfl, ?_⟩
    rintro rfl
    exact absurd (hall _ List.mem_cons_self) (by decide)
  | .str s => exact ⟨_, _, rfl, by decide⟩
  | .arr [] => exact hempty
  | .arr (v :: vs) => exact ⟨_, _, rfl, by decide⟩
  | .obj [] => exact hempty
  | .obj (m :: ms) => exact ⟨_, _, rfl, by decide⟩

theorem length_text_pos {empty : Str} (he : empty ∈ [emptyObj, emptyArr]) (v : Value Digits) :
    0 < (text Digits.digits empty v).length := by
  obtain ⟨c, s, hs, -⟩ := text_eq_cons he v
  rw [hs]
  exact Nat.succ_pos _

theorem length_quoted (k : Str) : (quoted k).length = (escape k).length + 2 := by
  simp [quoted]

theorem noDigit_textElems (empty : Str) (vs : List (Value Digits)) (t : Str) :
    NoDigit (textElems Digits.digits empty vs ++ t) := by
  cases vs with
  | nil => rintro c ⟨⟩; rfl
  | cons v vs => rintro c ⟨⟩; rfl

theorem noDigit_textMembers (empty : Str) (ms : List (Str × Value Digits)) (t : Str) :
    NoDigit (textMembers Digits.digits empty ms ++ t) := by
  cases ms with
  | nil => rintro c ⟨⟩; rfl
  | cons m ms => rintro c ⟨⟩; rfl

mutual

/-- **The text of a value is read back**, whatever follows it. -/
theorem parseValue_text {empty : Str} (he : empty ∈ [emptyObj, emptyArr]) :
    ∀ (v : Value Digits) (n : Nat) (t : Str), (text Digits.digits empty v).length ≤ n + 1 →
      NoDigit t → ∃ w, parseValue (n + 1) (text Digits.digits empty v ++ t) = some (w, t) ∧
        w.tree = v.tree
  | .null, n, t, _, _ => ⟨.null, rfl, rfl⟩
  | .bool true, n, t, _, _ => ⟨.bool true, rfl, rfl⟩
  | .bool false, n, t, _, _ => ⟨.bool false, rfl, rfl⟩
  | .num x, n, t, _, ht => ⟨.num x, by rw [text, parseValue_digits n x ht], rfl⟩
  | .str s, n, t, _, _ => by
    refine ⟨.str s, ?_, rfl⟩
    rw [text, quoted, List.cons_append, List.append_assoc, List.singleton_append, parseValue,
      if_pos rfl, parseString_escape]
    rfl
  | .arr [], n, t, _, _ => by
    rw [text]
    exact parseValue_empty he n t
  | .obj [], n, t, _, _ => by
    rw [text, ← Value.tree_arr_nil]
    exact parseValue_empty he n t
  | .arr (v :: vs), n, t, hn, _ => by
    have hv := length_text_pos he v
    rw [text, List.length_cons, List.length_append] at hn
    obtain ⟨m, rfl⟩ : ∃ m, n = m + 1 := ⟨n - 1, by omega⟩
    obtain ⟨w, hw, hwt⟩ := parseValue_text he v m (textElems Digits.digits empty vs ++ t)
      (by omega) (noDigit_textElems empty vs t)
    obtain ⟨ws, hws, hwst⟩ := parseElems_text he vs m t (by omega)
    refine ⟨.arr (w :: ws), ?_,
      Value.tree_arr_congr (by rw [List.map_cons, List.map_cons, hwt, hwst])⟩
    have hhead : (text Digits.digits empty v ++ (textElems Digits.digits empty vs ++ t)).head? ≠
        some 0x5d := by
      obtain ⟨c, s, hs, hc⟩ := text_eq_cons he v
      rw [hs]
      exact fun h => hc (Option.some.inj h)
    rw [text, List.cons_append, List.append_assoc, parseValue, if_neg (by decide), if_pos rfl,
      if_neg hhead]
    simp only [hw, hws, Option.bind_eq_bind, Option.bind_some]
    rfl
  | .obj ((k, v) :: ms), n, t, hn, _ => by
    have hv := length_text_pos he v
    rw [text, List.length_cons, List.length_append, List.length_cons, List.length_append,
      length_quoted] at hn
    obtain ⟨m, rfl⟩ : ∃ m, n = m + 2 := ⟨n - 2, by omega⟩
    obtain ⟨w, hw, hwt⟩ := parseValue_text he v m (textMembers Digits.digits empty ms ++ t)
      (by omega) (noDigit_textMembers empty ms t)
    obtain ⟨ns, hns, hnst⟩ := parseMembers_text he ms (m + 1) t (by omega)
    refine ⟨.obj ((k, w) :: ns), ?_,
      Value.tree_obj_congr (by rw [List.map_cons, List.map_cons, hwt, hnst])⟩
    have hmember := parseMember_quoted k hw
    rw [text, List.cons_append, List.append_assoc, List.cons_append, List.append_assoc, parseValue,
      if_neg (by decide), if_neg (by decide), if_pos rfl, if_neg (by simp [quoted])]
    simp only [hmember, hns, Option.bind_eq_bind, Option.bind_some]
    rfl

/-- The rest of an array is read back. -/
theorem parseElems_text {empty : Str} (he : empty ∈ [emptyObj, emptyArr]) :
    ∀ (vs : List (Value Digits)) (n : Nat) (t : Str),
      (textElems Digits.digits empty vs).length ≤ n + 1 →
      ∃ ws, parseElems (n + 1) (textElems Digits.digits empty vs ++ t) = some (ws, t) ∧
        ws.map Value.tree = vs.map Value.tree
  | [], n, t, _ => ⟨[], rfl, rfl⟩
  | v :: vs, n, t, hn => by
    have hv := length_text_pos he v
    rw [textElems, List.length_cons, List.length_append] at hn
    obtain ⟨m, rfl⟩ : ∃ m, n = m + 1 := ⟨n - 1, by omega⟩
    obtain ⟨w, hw, hwt⟩ := parseValue_text he v m (textElems Digits.digits empty vs ++ t)
      (by omega) (noDigit_textElems empty vs t)
    obtain ⟨ws, hws, hwst⟩ := parseElems_text he vs m t (by omega)
    refine ⟨w :: ws, ?_, by rw [List.map_cons, List.map_cons, hwt, hwst]⟩
    rw [textElems, List.cons_append, List.append_assoc, parseElems, if_neg (by decide), if_pos rfl]
    simp only [hw, hws, Option.bind_eq_bind, Option.bind_some]
    rfl

/-- The rest of an object is read back. -/
theorem parseMembers_text {empty : Str} (he : empty ∈ [emptyObj, emptyArr]) :
    ∀ (ms : List (Str × Value Digits)) (n : Nat) (t : Str),
      (textMembers Digits.digits empty ms).length ≤ n + 1 →
      ∃ ns, parseMembers (n + 1) (textMembers Digits.digits empty ms ++ t) = some (ns, t) ∧
        (ns.map fun m => (m.1, m.2.tree)) = ms.map fun m => (m.1, m.2.tree)
  | [], n, t, _ => ⟨[], rfl, rfl⟩
  | (k, v) :: ms, n, t, hn => by
    have hv := length_text_pos he v
    rw [textMembers, List.length_cons, List.length_append, List.length_cons, List.length_append,
      length_quoted] at hn
    obtain ⟨m, rfl⟩ : ∃ m, n = m + 2 := ⟨n - 2, by omega⟩
    obtain ⟨w, hw, hwt⟩ := parseValue_text he v m (textMembers Digits.digits empty ms ++ t)
      (by omega) (noDigit_textMembers empty ms t)
    obtain ⟨ns, hns, hnst⟩ := parseMembers_text he ms (m + 1) t (by omega)
    refine ⟨(k, w) :: ns, ?_, by rw [List.map_cons, List.map_cons, hwt, hnst]⟩
    have hmember := parseMember_quoted k hw
    rw [textMembers, List.cons_append, List.append_assoc, List.cons_append, List.append_assoc,
      parseMembers, if_neg (by decide), if_pos rfl]
    simp only [hmember, hns, Option.bind_eq_bind, Option.bind_some]
    rfl

end

/-- The whole of a text, as a value. -/
def parse (s : Str) : Option (Value Digits) :=
  match parseValue (s.length + 1) s with
  | some (v, []) => some v
  | _ => none

/-- **A codec.** -/
def compact : Codec Digits where
  numText := Digits.digits
  encode := text Digits.digits emptyObj
  decode := parse
  numText_chars x c hc := by
    have hdigit : ∀ d ∈ ascii "0123456789", d ∈ numChars := by decide
    exact hdigit c (of_decide_eq_true (x.all_digits c hc))
  encode_text v := ⟨v, rfl, rfl⟩
  decode_text empty he v := by
    obtain ⟨w, hw, hwt⟩ := parseValue_text he v (text Digits.digits empty v).length []
      (Nat.le_succ _) (by rintro c ⟨⟩)
    rw [List.append_nil] at hw
    exact ⟨w, by rw [parse, hw], hwt⟩

end JsonText
