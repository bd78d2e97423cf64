/-
# What `save_file` does to a table

The three substitutions of `save_file` see a text, in which a string of some rule, a name of a
field and the punctuation of JSON look alike.  This file says what they do to the TABLE that the
text is of.

The first one makes `[]` of every `{}`, which is meant for the tables without entries.  It does so
in every string as well (`gsub_braces_text`).  The other two take the quotation marks off the
`true` or `false` behind `"Enabled"`.  Quotation marks in a string are escaped, so that such a text
does not occur in the middle of one; but it does at the end of a name that ENDS in `"Enabled`,
because the quotation mark that is escaped is one, too (`gsub_enabled_text`).

`saved_tree_iff` says when nothing but the field `Enabled` is changed.
-/
import Puppies.Tbq.Flowctrl

namespace Puppies

open ByteMem JsonText Gsub

variable {ν : Type}

/-! ## 1. `{}` and `[]` -/

/-- The first substitution, in a string. -/
def gsubBraces (s : Str) : Str := gsub emptyObj emptyArr s

mutual

/-- The first substitution, in every string and every name. -/
def substBraces : Value ν → Value ν
  | .str s => .str (gsubBraces s)
  | .arr vs => .arr (substElems vs)
  | .obj ms => .obj (substMembers ms)
  | .null => .null
  | .bool b => .bool b
  | .num x => .num x

def substElems : List (Value ν) → List (Value ν)
  | [] => []
  | v :: vs => substBraces v :: substElems vs

def substMembers : List (Str × Value ν) → List (Str × Value ν)
  | [] => []
  | (k, v) :: ms => (gsubBraces k, substBraces v) :: substMembers ms

end

theorem emptyObj_ne_nil : emptyObj ≠ [] := List.cons_ne_nil _ _

/-- A byte that is not an opening brace. -/
theorem gsub_braces_cons {c : Byte} (hc : c ≠ 0x7b) (t : Str) :
    gsub emptyObj emptyArr (c :: t) = c :: gsub emptyObj emptyArr t :=
  gsub_cons _ fun hpre => hc (List.cons_prefix_cons.mp hpre).1.symm

theorem head?_escape_append (s t : Str) : (escape s ++ 0x22 :: t).head? ≠ some 0x7d ∨
    ∃ s', s = 0x7d :: s' := by
  cases s with
  | nil => exact Or.inl (by simp)
  | cons c s =>
    by_cases hc : Special c
    · obtain ⟨e, he⟩ := escapeByte_of_special hc
      exact Or.inl (by simp [he])
    · rw [escape_cons, escapeByte_of_not_special hc]
      rcases eq_or_ne c 0x7d with rfl | hne
      · exact Or.inr ⟨s, rfl⟩
      · exact Or.inl fun h => hne (Option.some.inj h)

/-- **In the text of a string**, what is substituted is in the string. -/
theorem gsub_braces_escape (s t : Str) :
    gsub emptyObj emptyArr (escape s ++ 0x22 :: t) =
      escape (gsubBraces s) ++ gsub emptyObj emptyArr (0x22 :: t) := by
  induction s using gsub_induction emptyObj_ne_nil with
  | nil => rfl
  | occurrence s ih =>
    have hbraces : ∀ u : Str, escape (emptyObj ++ u) = emptyObj ++ escape u ∧
        escape (emptyArr ++ u) = emptyArr ++ escape u := fun _ => ⟨rfl, rfl⟩
    have hself : gsubBraces (emptyObj ++ s) = emptyArr ++ gsubBraces s :=
      gsub_prefix_append emptyObj_ne_nil _ s
    rw [hself, (hbraces s).1, List.append_assoc, gsub_prefix_append emptyObj_ne_nil, ih,
      (hbraces _).2, List.append_assoc]
  | other c s hpre ih =>
    rw [gsubBraces, gsub_cons _ hpre, escape_cons, escape_cons, List.append_assoc,
      List.append_assoc]
    rcases eq_or_ne c 0x7b with rfl | hc
    · have hnot : ¬ emptyObj <+: 0x7b :: (escape s ++ 0x22 :: t) := by
        intro h
        have hhead := (List.cons_prefix_cons.mp h).2
        rw [List.singleton_prefix_iff_head?_eq_some] at hhead
        rcases head?_escape_append s t with hne | ⟨s', rfl⟩
        · exact hne hhead
        · exact hpre ⟨s', rfl⟩
      have hself : escapeByte 0x7b = [0x7b] := escapeByte_of_not_special (by decide)
      rw [hself, List.singleton_append, List.singleton_append, gsub_cons _ hnot, ih, gsubBraces]
    · have hmem : (0x7b : Byte) ∉ escapeByte c := fun h =>
        (mem_escapeByte h).elim (fun heq => hc heq.symm) fun hesc => absurd hesc (by decide)
      rw [emptyObj, gsub_append_of_not_mem _ _ hmem, ← emptyObj, ih, gsubBraces]

theorem gsub_braces_quoted (s t : Str) :
    gsub emptyObj emptyArr (quoted s ++ t) =
      quoted (gsubBraces s) ++ gsub emptyObj emptyArr t := by
  rw [quoted, List.cons_append, gsub_braces_cons (by decide), List.append_assoc,
    List.singleton_append, gsub_braces_escape, gsub_braces_cons (by decide), quoted]
  simp

/-- A stretch without an opening brace. -/
theorem gsub_braces_append {s : Str} (h : (0x7b : Byte) ∉ s) (t : Str) :
    gsub emptyObj emptyArr (s ++ t) = s ++ gsub emptyObj emptyArr t :=
  gsub_append_of_not_mem _ t h

mutual

/-- **The first substitution**, along the text of a value. -/
theorem gsub_braces_text (cj : Codec ν) : ∀ (v : Value ν) (t : Str),
    gsub emptyObj emptyArr (text cj.numText emptyObj v ++ t) =
      text cj.numText emptyArr (substBraces v) ++ gsub emptyObj emptyArr t
  | .null, t => gsub_braces_append (s := ascii "null") (by decide) t
  | .bool true, t => gsub_braces_append (s := ascii "true") (by decide) t
  | .bool false, t => gsub_braces_append (s := ascii "false") (by decide) t
  | .num x, t =>
    gsub_braces_append (fun h => absurd (cj.numText_chars x _ h) (by decide)) t
  | .str s, t => gsub_braces_quoted s t
  | .arr [], t => gsub_prefix_append emptyObj_ne_nil _ t
  | .obj [], t => gsub_prefix_append emptyObj_ne_nil _ t
  | .arr (v :: vs), t => by
    rw [text, List.cons_append, gsub_braces_cons (by decide), List.append_assoc,
      gsub_braces_text cj v, gsub_braces_elems cj vs, substBraces, substElems, text]
    simp
  | .obj ((k, v) :: ms), t => by
    have hnot : ¬ emptyObj <+: 0x7b :: (quoted k ++
        0x3a :: (text cj.numText emptyObj v ++ textMembers cj.numText emptyObj ms) ++ t) :=
      fun h => absurd (List.cons_prefix_cons.mp (List.cons_prefix_cons.mp h).2).1 (by decide)
    rw [text, List.cons_append, gsub_cons _ hnot, List.append_assoc, gsub_braces_quoted,
      List.cons_append, gsub_braces_cons (by decide), List.append_assoc, gsub_braces_text cj v,
      gsub_braces_members cj ms, substBraces, substMembers, text]
    simp

theorem gsub_braces_elems (cj : Codec ν) : ∀ (vs : List (Value ν)) (t : Str),
    gsub emptyObj emptyArr (textElems cj.numText emptyObj vs ++ t) =
      textElems cj.numText emptyArr (substElems vs) ++ gsub emptyObj emptyArr t
  | [], t => gsub_braces_cons (by decide) t
  | v :: vs, t => by
    rw [textElems, List.cons_append, gsub_braces_cons (by decide), List.append_assoc,
      gsub_braces_text cj v, gsub_braces_elems cj vs, substElems, textElems]
    simp

theorem gsub_braces_members (cj : Codec ν) : ∀ (ms : List (Str × Value ν)) (t : Str),
    gsub emptyObj emptyArr (textMembers cj.numText emptyObj ms ++ t) =
      textMembers cj.numText emptyArr (substMembers ms) ++ gsub emptyObj emptyArr t
  | [], t => gsub_braces_cons (by decide) t
  | (k, v) :: ms, t => by
    rw [textMembers, List.cons_append, gsub_braces_cons (by decide), List.append_assoc,
      gsub_braces_quoted, List.cons_append, gsub_braces_cons (by decide), List.append_assoc,
      gsub_braces_text cj v, gsub_braces_members cj ms, substMembers, textMembers]
    simp

end

/-! ## 2. `"Enabled"` -/

/-- A name whose text ends in `"Enabled"`, with an escaped quotation mark in front or the one
that it begins with. -/
def LooksEnabled (k : Str) : Prop := 0x22 :: enabledKey <:+ 0x22 :: k

instance (k : Str) : Decidable (LooksEnabled k) := inferInstanceAs (Decidable (_ <:+ _))

/-- The value is this string. -/
def isStr (w : Str) : Value ν → Bool
  | .str s => s = w
  | _ => false

theorem isStr_iff {w : Str} {v : Value ν} : isStr w v = true ↔ v = .str w := by
  cases v <;> simp [isStr]

mutual

/-- The second or the third substitution: the text `true` or `false` under such a name becomes a
boolean. -/
def enable (b : Bool) : Value ν → Value ν
  | .arr vs => .arr (enableElems b vs)
  | .obj ms => .obj (enableMembers b ms)
  | .null => .null
  | .bool b' => .bool b'
  | .num x => .num x
  | .str s => .str s

def enableElems (b : Bool) : List (Value ν) → List (Value ν)
  | [] => []
  | v :: vs => enable b v :: enableElems b vs

def enableMembers (b : Bool) : List (Str × Value ν) → List (Str × Value ν)
  | [] => []
  | (k, v) :: ms =>
    (k, if LooksEnabled k ∧ isStr (boolWord b) v = true then .bool b else enable b v) ::
      enableMembers b ms

end

theorem enabledText_eq (b : Bool) : enabledText b =
    0x22 :: (enabledKey ++ 0x22 :: (0x3a :: quoted (boolWord b))) := by
  cases b <;> rfl

theorem enabledKey_letters : ∀ c ∈ enabledKey, ¬ Special c := by decide

theorem boolWord_letters (b : Bool) : ∀ c ∈ boolWord b, ¬ Special c := by
  cases b <;> decide

theorem quoted_boolWord (b : Bool) : quoted (boolWord b) = 0x22 :: (boolWord b ++ [0x22]) := by
  cases b <;> rfl

/-- A byte that is not a quotation mark. -/
theorem gsub_enabled_cons (b : Bool) {c : Byte} (hc : c ≠ 0x22) (t : Str) :
    gsub (enabledText b) (enabledBool b) (c :: t) =
      c :: gsub (enabledText b) (enabledBool b) t :=
  gsub_cons _ fun hpre => hc (List.cons_prefix_cons.mp (enabledText_eq b ▸ hpre)).1.symm

/-- A stretch without a quotation mark. -/
theorem gsub_enabled_append (b : Bool) {s : Str} (h : (0x22 : Byte) ∉ s) (t : Str) :
    gsub (enabledText b) (enabledBool b) (s ++ t) =
      s ++ gsub (enabledText b) (enabledBool b) t := by
  rw [enabledText_eq]
  exact gsub_append_of_not_mem _ t h

/-- At a quotation mark in the text of a string, escaped or not, what is searched for begins
exactly when the rest of the string is `Enabled` and the value behind it the text. -/
theorem enabledText_prefix_iff (b : Bool) (s t : Str) :
    enabledText b <+: 0x22 :: (escape s ++ 0x22 :: t) ↔
      s = enabledKey ∧ 0x3a :: quoted (boolWord b) <+: t := by
  rw [enabledText_eq, List.cons_prefix_cons, and_iff_right rfl,
    prefix_escape_iff enabledKey_letters]

/-- The end of a string behind its first character. -/
theorem suffix_cons_iff {c : Byte} {s : Str} : 0x22 :: enabledKey <:+ c :: s ↔
    c = 0x22 ∧ s = enabledKey ∨ 0x22 :: enabledKey <:+ s := by
  rw [List.suffix_cons_iff, List.cons.injEq, eq_comm (a := (0x22 : Byte)),
    eq_comm (a := enabledKey)]

theorem escapeByte_quote : escapeByte 0x22 = [0x5c, 0x22] := rfl

theorem not_mem_escapeByte {c : Byte} (hc : c ≠ 0x22) : (0x22 : Byte) ∉ escapeByte c := fun h =>
  (mem_escapeByte h).elim (fun heq => hc heq.symm) fun hesc => absurd hesc (by decide)

/-- **Where nothing is found**, in a string. -/
theorem gsub_enabled_escape_of_not (b : Bool) {t : Str} (ht : t.head? ≠ some 0x45) (s : Str)
    (h : ¬ (0x22 :: enabledKey <:+ s ∧ 0x3a :: quoted (boolWord b) <+: t)) :
    gsub (enabledText b) (enabledBool b) (escape s ++ 0x22 :: t) =
      escape s ++ 0x22 :: gsub (enabledText b) (enabledBool b) t := by
  induction s with
  | nil =>
    refine gsub_cons _ fun hpre => ht ?_
    have hE := (List.cons_prefix_cons.mp (enabledText_eq b ▸ hpre)).2
    exact List.singleton_prefix_iff_head?_eq_some.mp ((List.prefix_append [0x45] _).trans hE)
  | cons c s ih =>
    have hs : ¬ (0x22 :: enabledKey <:+ s ∧ 0x3a :: quoted (boolWord b) <+: t) := fun hs =>
      h ⟨suffix_cons_iff.mpr (Or.inr hs.1), hs.2⟩
    rw [escape_cons, List.append_assoc, List.append_assoc]
    by_cases hc : c = 0x22
    · subst hc
      have hnot : ¬ enabledText b <+: 0x22 :: (escape s ++ 0x22 :: t) := by
        rw [enabledText_prefix_iff]
        exact fun hs => h ⟨suffix_cons_iff.mpr (Or.inl ⟨rfl, hs.1⟩), hs.2⟩
      rw [escapeByte_quote, List.cons_append, List.singleton_append,
        gsub_enabled_cons b (by decide), gsub_cons _ hnot, ih hs]
      rfl
    · rw [gsub_enabled_append b (not_mem_escapeByte hc), ih hs]

/-- **Where something is found**: at the end of a string that ends in `"Enabled`. -/
theorem gsub_enabled_escape (b : Bool) (t : Str) {s : Str} (h : 0x22 :: enabledKey <:+ s) :
    gsub (enabledText b) (enabledBool b) (escape s ++ 0x22 :: 0x3a :: (quoted (boolWord b) ++ t)) =
      escape s ++ 0x22 :: 0x3a ::
        (boolWord b ++ gsub (enabledText b) (enabledBool b) t) := by
  induction s with
  | nil => exact absurd h (by simp)
  | cons c s ih =>
    rw [escape_cons, List.append_assoc, List.append_assoc]
    by_cases hc : c = 0x22
    · subst hc
      rw [escapeByte_quote, List.cons_append, List.singleton_append,
        gsub_enabled_cons b (by decide)]
      by_cases hs : s = enabledKey
      · -- here it is
        subst hs
        have htext : 0x22 :: (escape enabledKey ++ 0x22 :: 0x3a :: (quoted (boolWord b) ++ t)) =
            enabledText b ++ t := by
          cases b <;> rfl
        rw [htext, gsub_prefix_append (by rw [enabledText_eq]; exact List.cons_ne_nil _ _)]
        cases b <;> rfl
      · have hnot : ¬ enabledText b <+:
            0x22 :: (escape s ++ 0x22 :: 0x3a :: (quoted (boolWord b) ++ t)) := by
          rw [enabledText_prefix_iff]
          exact fun h => hs h.1
        have hs' : 0x22 :: enabledKey <:+ s :=
          (suffix_cons_iff.mp h).resolve_left fun h => hs h.2
        rw [gsub_cons _ hnot, ih hs']
        rfl
    · have hs' : 0x22 :: enabledKey <:+ s :=
        (suffix_cons_iff.mp h).resolve_left fun h => hc h.1
      rw [gsub_enabled_append b (not_mem_escapeByte hc), ih hs']

/-- The quotation mark in front of a string is no other than an escaped one. -/
theorem escape_quote_append (k t : Str) :
    escape (0x22 :: k) ++ 0x22 :: t = 0x5c :: (quoted k ++ t) := by
  rw [escape_cons, escapeByte_quote, quoted]
  simp

/-- The same for a string with its quotation marks. -/
theorem gsub_enabled_quoted_of_not (b : Bool) {t : Str} (ht : t.head? ≠ some 0x45) (k : Str)
    (h : ¬ (LooksEnabled k ∧ 0x3a :: quoted (boolWord b) <+: t)) :
    gsub (enabledText b) (enabledBool b) (quoted k ++ t) =
      quoted k ++ gsub (enabledText b) (enabledBool b) t := by
  have hesc := gsub_enabled_escape_of_not b ht (0x22 :: k) h
  rw [escape_quote_append, escape_quote_append, gsub_enabled_cons b (by decide)] at hesc
  exact (List.cons.inj hesc).2

theorem gsub_enabled_quoted (b : Bool) (t : Str) {k : Str} (h : LooksEnabled k) :
    gsub (enabledText b) (enabledBool b) (quoted k ++ 0x3a :: (quoted (boolWord b) ++ t)) =
      quoted k ++ 0x3a :: (boolWord b ++ gsub (enabledText b) (enabledBool b) t) := by
  have hesc := gsub_enabled_escape b t h
  rw [escape_quote_append, escape_quote_append, gsub_enabled_cons b (by decide)] at hesc
  exact (List.cons.inj hesc).2

/-- What is behind a value: the end, a comma or a bracket. -/
def Follows (t : Str) : Prop := ∀ c ∈ t.head?, c ∈ [(0x2c : Byte), 0x5d, 0x7d]

theorem Follows.head?_ne {t : Str} (h : Follows t) {c : Byte}
    (hc : c ∉ [(0x2c : Byte), 0x5d, 0x7d]) : t.head? ≠ some c := fun ht => hc (h c ht)

theorem follows_textElems (numText : ν → Str) (empty : Str) (vs : List (Value ν)) (t : Str) :
    Follows (textElems numText empty vs ++ t) := by
  cases vs with
  | nil => rintro c ⟨⟩; decide
  | cons v vs => rintro c ⟨⟩; decide

theorem follows_textMembers (numText : ν → Str) (empty : Str) (ms : List (Str × Value ν))
    (t : Str) : Follows (textMembers numText empty ms ++ t) := by
  cases ms with
  | nil => rintro c ⟨⟩; decide
  | cons m ms => rintro c ⟨⟩; decide

/-- A value that begins with this word in quotation marks is the word. -/
theorem quoted_prefix_text (cj : Codec ν) (b : Bool) {v : Value ν} {t : Str} (ht : Follows t)
    (h : quoted (boolWord b) <+: text cj.numText emptyArr v ++ t) : v = .str (boolWord b) := by
  have hhead : (text cj.numText emptyArr v ++ t).head? = some 0x22 := by
    rw [quoted_boolWord] at h
    exact List.singleton_prefix_iff_head?_eq_some.mp
      ((List.prefix_append [(0x22 : Byte)] _).trans h)
  have hne : ∀ c s, c ≠ 0x22 → text cj.numText emptyArr v ++ t ≠ c :: s := by
    intro c s hc heq
    rw [heq] at hhead
    exact hc (Option.some.inj hhead)
  match v with
  | .null => exact absurd rfl (hne 0x6e _ (by decide))
  | .bool true => exact absurd rfl (hne 0x74 _ (by decide))
  | .bool false => exact absurd rfl (hne 0x66 _ (by decide))
  | .num x =>
    cases hx : cj.numText x with
    | nil =>
      rw [text, hx, List.nil_append] at hhead
      exact absurd hhead (ht.head?_ne (by decide))
    | cons c s =>
      rw [text, hx] at hhead
      obtain rfl := Option.some.inj hhead
      exact absurd (cj.numText_chars x 0x22 (by rw [hx]; exact List.mem_cons_self)) (by decide)
  | .str s =>
    rw [text, quoted_boolWord, quoted, List.cons_append, List.cons_prefix_cons, List.append_assoc,
      List.singleton_append] at h
    rw [((prefix_escape_iff (boolWord_letters b) [] s t).mp h.2).1]
  | .arr [] => exact absurd rfl (hne 0x5b _ (by decide))
  | .arr (v :: vs) => exact absurd rfl (hne 0x5b _ (by decide))
  | .obj [] => exact absurd rfl (hne 0x5b _ (by decide))
  | .obj (m :: ms) => exact absurd rfl (hne 0x7b _ (by decide))

mutual

/-- **The other two substitutions**, along the text of a value. -/
theorem gsub_enabled_text (cj : Codec ν) (b : Bool) : ∀ (v : Value ν) (t : Str), Follows t →
    gsub (enabledText b) (enabledBool b) (text cj.numText emptyArr v ++ t) =
      text cj.numText emptyArr (enable b v) ++ gsub (enabledText b) (enabledBool b) t
  | .null, t, _ => gsub_enabled_append b (s := ascii "null") (by decide) t
  | .bool true, t, _ => gsub_enabled_append b (s := ascii "true") (by decide) t
  | .bool false, t, _ => gsub_enabled_append b (s := ascii "false") (by decide) t
  | .num x, t, _ =>
    gsub_enabled_append b (fun h => absurd (cj.numText_chars x _ h) (by decide)) t
  | .str s, t, ht => by
    refine gsub_enabled_quoted_of_not b (ht.head?_ne (by decide)) s ?_
    intro h
    have hcolon := (List.prefix_append [(0x3a : Byte)] _).trans h.2
    exact ht.head?_ne (by decide) (List.singleton_prefix_iff_head?_eq_some.mp hcolon)
  | .arr [], t, _ => gsub_enabled_append b (s := emptyArr) (by decide) t
  | .obj [], t, _ => gsub_enabled_append b (s := emptyArr) (by decide) t
  | .arr (v :: vs), t, _ => by
    rw [text, List.cons_append, gsub_enabled_cons b (by decide), List.append_assoc,
      gsub_enabled_text cj b v _ (follows_textElems _ _ vs t), gsub_enabled_elems cj b vs, enable,
      enableElems, text]
    simp
  | .obj (m :: ms), t, _ => by
    rw [text, List.cons_append, gsub_enabled_cons b (by decide), List.append_assoc,
      List.cons_append, List.append_assoc, gsub_enabled_member cj b m _
      (follows_textMembers _ _ ms t), gsub_enabled_members cj b ms, enable,
      enableMembers, text]
    simp

/-- One member. -/
theorem gsub_enabled_member (cj : Codec ν) (b : Bool) : ∀ (m : Str × Value ν) (t : Str), Follows t →
    gsub (enabledText b) (enabledBool b)
        (quoted m.1 ++ 0x3a :: (text cj.numText emptyArr m.2 ++ t)) =
      quoted m.1 ++ 0x3a :: (text cj.numText emptyArr
        (if LooksEnabled m.1 ∧ isStr (boolWord b) m.2 = true then .bool b else enable b m.2) ++
          gsub (enabledText b) (enabledBool b) t)
  | (k, v), t, ht => by
    by_cases h : LooksEnabled k ∧ isStr (boolWord b) v = true
    · obtain ⟨hk, hv⟩ := h
      obtain rfl := isStr_iff.mp hv
      rw [if_pos ⟨hk, hv⟩]
      have hbool : text cj.numText emptyArr (.bool b) = boolWord b := by
        cases b <;> rw [text] <;> rfl
      rw [text, gsub_enabled_quoted b t hk, hbool]
    · have hnot : ¬ (LooksEnabled k ∧
          0x3a :: quoted (boolWord b) <+: 0x3a :: (text cj.numText emptyArr v ++ t)) := by
        rintro ⟨hk, hpre⟩
        exact h ⟨hk, isStr_iff.mpr (quoted_prefix_text cj b ht (List.cons_prefix_cons.mp hpre).2)⟩
      rw [if_neg h, gsub_enabled_quoted_of_not b (by simp) k hnot, gsub_enabled_cons b (by decide),
        gsub_enabled_text cj b v t ht]

theorem gsub_enabled_elems (cj : Codec ν) (b : Bool) : ∀ (vs : List (Value ν)) (t : Str),
    gsub (enabledText b) (enabledBool b) (textElems cj.numText emptyArr vs ++ t) =
      textElems cj.numText emptyArr (enableElems b vs) ++ gsub (enabledText b) (enabledBool b) t
  | [], t => gsub_enabled_cons b (by decide) t
  | v :: vs, t => by
    rw [textElems, List.cons_append, gsub_enabled_cons b (by decide), List.append_assoc,
      gsub_enabled_text cj b v _ (follows_textElems _ _ vs t), gsub_enabled_elems cj b vs,
      enableElems, textElems]
    simp

theorem gsub_enabled_members (cj : Codec ν) (b : Bool) : ∀ (ms : List (Str × Value ν)) (t : Str),
    gsub (enabledText b) (enabledBool b) (textMembers cj.numText emptyArr ms ++ t) =
      textMembers cj.numText emptyArr (enableMembers b ms) ++
        gsub (enabledText b) (enabledBool b) t
  | [], t => gsub_enabled_cons b (by decide) t
  | m :: ms, t => by
    rw [textMembers, List.cons_append, gsub_enabled_cons b (by decide), List.append_assoc,
      List.cons_append, List.append_assoc, gsub_enabled_member cj b m _
      (follows_textMembers _ _ ms t), gsub_enabled_members cj b ms, enableMembers, textMembers]
    simp

end

/-- **The text that `save_file` writes** is the text of the table with the substitutions made in
it, in some order of its members. -/
theorem saveText_eq (cj : Codec ν) (map : Value ν) : ∃ w, w.tree = map.tree ∧
    saveText cj map =
      text cj.numText emptyArr (enable false (enable true (substBraces w))) := by
  obtain ⟨w, hw, htext⟩ := cj.encode_text map
  have hend : Follows [] := by rintro c ⟨⟩
  have hbraces := gsub_braces_text cj w []
  have htrue := gsub_enabled_text cj true (substBraces w) [] hend
  have hfalse := gsub_enabled_text cj false (enable true (substBraces w)) [] hend
  simp only [List.append_nil, gsub_nil] at hbraces htrue hfalse
  exact ⟨w, hw, by rw [saveText, htext, hbraces, htrue, hfalse]⟩

/-! ## 3. The table that is saved -/

/-- Whether a path ends in a field with such a name. -/
def lastField (C : Str → Bool) : List Key → Bool
  | [] => false
  | [.field k] => C k
  | [.index _] => false
  | _ :: key :: p => lastField C (key :: p)

@[simp] theorem lastField_index (C : Str → Bool) (i : Nat) (p : List Key) :
    lastField C (.index i :: p) = lastField C p := by
  cases p <;> rfl

theorem lastField_field {C : Str → Bool} {k : Str} {p : List Key} (h : p ≠ []) :
    lastField C (.field k :: p) = lastField C p := by
  cases p with
  | nil => exact absurd rfl h
  | cons key p => rfl

/-- A text `true` or `false` as a boolean. -/
def toBool (s : Str) : Node ν :=
  if s = boolWord true then .bool true else if s = boolWord false then .bool false else .str s

/-- The texts `true` and `false` under such names become booleans. -/
def turned (C : Str → Bool) (D : PathTree ν) : PathTree ν := fun p =>
  match D p with
  | some (.str s) => some (if lastField C p then toBool s else .str s)
  | n => n

/-- One of the two words only. -/
def turnedTo (b : Bool) (C : Str → Bool) (D : PathTree ν) : PathTree ν := fun p =>
  match D p with
  | some (.str s) => some (if lastField C p ∧ s = boolWord b then .bool b else .str s)
  | n => n

theorem turnedTo_turnedTo (C : Str → Bool) (D : PathTree ν) :
    turnedTo false C (turnedTo true C D) = turned C D := by
  funext p
  unfold turnedTo turned toBool
  cases hD : D p with
  | none => rfl
  | some n =>
    cases n with
    | str s =>
      by_cases hlast : lastField C p = true
      · by_cases htrue : s = boolWord true
        · simp [hlast, htrue]
        · simp [hlast, htrue]
      · simp [hlast]
    | _ => rfl

theorem enableElems_eq (b : Bool) (vs : List (Value ν)) : enableElems b vs = vs.map (enable b) := by
  induction vs with
  | nil => rfl
  | cons v vs ih => rw [enableElems, ih, List.map_cons]

theorem enableMembers_eq (b : Bool) (ms : List (Str × Value ν)) :
    enableMembers b ms = ms.map fun m => (m.1,
      if LooksEnabled m.1 ∧ isStr (boolWord b) m.2 = true then .bool b else enable b m.2) := by
  induction ms with
  | nil => rfl
  | cons m ms ih => rw [enableMembers, ih, List.map_cons]

/-- The second or the third substitution, in the tree. -/
theorem tree_enable (b : Bool) (v : Value ν) :
    (enable b v).tree = turnedTo b (fun k => LooksEnabled k) v.tree := by
  funext p
  induction p generalizing v with
  | nil => cases v <;> simp [enable, turnedTo, Value.node, lastField]
  | cons key p ih =>
    cases v with
    | arr vs =>
      cases key with
      | field k => simp [enable, turnedTo]
      | index i =>
        rw [enable, enableElems_eq, Value.tree_arr_index, List.getElem?_map]
        simp only [turnedTo, Value.tree_arr_index, lastField_index]
        cases vs[i]? with
        | none => rfl
        | some v => exact ih v
    | obj ms =>
      cases key with
      | index i => simp [enable, turnedTo]
      | field k =>
        rw [enable, enableMembers_eq, Value.tree_obj_field, lookup_map fun k v =>
          if LooksEnabled k ∧ isStr (boolWord b) v = true then .bool b else enable b v]
        simp only [turnedTo, Value.tree_obj_field]
        cases lookup k ms with
        | none => rfl
        | some v =>
          rw [Option.map_some, Option.bind_some, Option.bind_some]
          by_cases h : LooksEnabled k ∧ isStr (boolWord b) v = true
          · rw [if_pos h, isStr_iff.mp h.2]
            cases p with
            | nil => simp [lastField, Value.node, h.1]
            | cons key p => simp [Value.tree]
          · rw [if_neg h, ih]
            cases p with
            | nil =>
              cases v with
              | str s =>
                have hs : ¬ (LooksEnabled k ∧ s = boolWord b) := by
                  simpa [isStr] using h
                simp [turnedTo, lastField, Value.node, hs]
              | _ => simp [turnedTo, Value.node]
            | cons key p => rw [lastField_field (List.cons_ne_nil key p), turnedTo]
    | _ => simp [enable, turnedTo, Value.tree]

/-- No string and no name has `{}` in it. -/
def NoBraces (D : PathTree ν) : Prop := ∀ p n, D p = some n →
  (∀ k, Key.field k ∈ p → ¬ emptyObj <:+: k) ∧ ∀ s, n = .str s → ¬ emptyObj <:+: s

/-- Below a key. -/
theorem NoBraces.below {D E : PathTree ν} {k : Key} (h : NoBraces D)
    (hE : ∀ p, D (k :: p) = E p) : NoBraces E := by
  intro p n hn
  obtain ⟨hkeys, hstr⟩ := h (k :: p) n (by rw [hE, hn])
  exact ⟨fun f hf => hkeys f (List.mem_cons_of_mem _ hf), hstr⟩

theorem gsubBraces_eq_self_iff (s : Str) : gsubBraces s = s ↔ ¬ emptyObj <:+: s :=
  gsub_pair_eq_self_iff (by decide) (by decide) (by decide) s

theorem not_infix_gsubBraces (s : Str) : ¬ emptyObj <:+: gsubBraces s :=
  not_infix_gsub_pair (by decide) (by decide) (by decide) s

theorem substElems_eq (vs : List (Value ν)) : substElems vs = vs.map substBraces := by
  induction vs with
  | nil => rfl
  | cons v vs ih => rw [substElems, ih, List.map_cons]

theorem substMembers_eq (ms : List (Str × Value ν)) :
    substMembers ms = ms.map fun m => (gsubBraces m.1, substBraces m.2) := by
  induction ms with
  | nil => rfl
  | cons m ms ih => rw [substMembers, ih, List.map_cons]

/-- Nothing is left of it after the first substitution. -/
theorem noBraces_substBraces (v : Value ν) : NoBraces (substBraces v).tree := by
  intro p
  induction p generalizing v with
  | nil =>
    intro n hn
    refine ⟨fun k hk => absurd hk List.not_mem_nil, ?_⟩
    rintro s rfl
    cases v with
    | str s' =>
      simp only [substBraces, Value.tree_nil, Value.node, Option.some.injEq, Node.str.injEq] at hn
      rw [← hn]
      exact not_infix_gsubBraces s'
    | _ => simp [substBraces, Value.node] at hn
  | cons key p ih =>
    intro n hn
    cases v with
    | arr vs =>
      cases key with
      | field k => simp [substBraces] at hn
      | index i =>
        rw [substBraces, substElems_eq, Value.tree_arr_index, List.getElem?_map,
          Option.bind_eq_some_iff] at hn
        obtain ⟨w, hw, hn⟩ := hn
        obtain ⟨v, -, rfl⟩ := Option.map_eq_some_iff.mp hw
        obtain ⟨hkeys, hstr⟩ := ih v n hn
        exact ⟨fun k hk => hkeys k (by simpa using hk), hstr⟩
    | obj ms =>
      cases key with
      | index i => simp [substBraces] at hn
      | field k =>
        rw [substBraces, substMembers_eq, Value.tree_obj_field, Option.bind_eq_some_iff] at hn
        obtain ⟨w, hw, hn⟩ := hn
        obtain ⟨m, -, hm⟩ := List.mem_map.mp (mem_of_lookup hw)
        obtain ⟨rfl, rfl⟩ := Prod.mk.inj hm
        obtain ⟨hkeys, hstr⟩ := ih m.2 n hn
        refine ⟨?_, hstr⟩
        intro k hk
        rcases List.mem_cons.mp hk with hk | hk
        · rw [Key.field.inj hk]
          exact not_infix_gsubBraces m.1
        · exact hkeys k hk
    | _ => simp [substBraces, Value.tree] at hn

/-- Without it, the first substitution changes nothing. -/
theorem tree_substBraces {v : Value ν} (h : NoBraces v.tree) : (substBraces v).tree = v.tree := by
  funext p
  induction p generalizing v with
  | nil =>
    cases v with
    | str s =>
      have hs := (h [] (.str s) rfl).2 s rfl
      simp [substBraces, Value.node, (gsubBraces_eq_self_iff s).mpr hs]
    | _ => simp [substBraces, Value.node]
  | cons key p ih =>
    cases v with
    | arr vs =>
      cases key with
      | field k => simp [substBraces]
      | index i =>
        rw [substBraces, substElems_eq, Value.tree_arr_index, Value.tree_arr_index,
          List.getElem?_map]
        cases hi : vs[i]? with
        | none => rfl
        | some w =>
          refine ih (h.below (k := .index i) ?_)
          intro q
          rw [Value.tree_arr_index, hi, Option.bind_some]
    | obj ms =>
      cases key with
      | index i => simp [substBraces]
      | field k =>
        -- every name can be looked up, so none is changed
        have hmembers : substMembers ms = ms.map fun m => (m.1, substBraces m.2) := by
          rw [substMembers_eq]
          refine List.map_congr_left ?_
          intro m hm
          obtain ⟨w, hw⟩ := lookup_of_mem (k := m.1) (x := m.2) hm
          have hname := (h [.field m.1] w.node (by simp [hw])).1 m.1 List.mem_cons_self
          rw [(gsubBraces_eq_self_iff m.1).mpr hname]
        rw [substBraces, hmembers, Value.tree_obj_field, Value.tree_obj_field,
          lookup_map fun _ => substBraces]
        cases hk : lookup k ms with
        | none => rfl
        | some w =>
          refine ih (h.below (k := .field k) ?_)
          intro q
          rw [Value.tree_obj_field, hk, Option.bind_some]
    | _ => simp [substBraces, Value.tree]

/-- What is meant to be changed: the text under the name `Enabled`. -/
def turnedEnabled (D : PathTree ν) : PathTree ν := turned (fun k => k = enabledKey) D

/-- A table that is saved as it is meant: no string or name has `{}` in it, and no name but
`Enabled` ends in `"Enabled` and is that of a text `true` or `false`. -/
structure Clean (D : PathTree ν) : Prop where
  noBraces : NoBraces D
  names : ∀ p s, D p = some (.str s) → (s = boolWord true ∨ s = boolWord false) →
    lastField (fun k => LooksEnabled k) p = true → lastField (fun k => k = enabledKey) p = true

theorem lastField_mono {C C' : Str → Bool} (h : ∀ k, C k = true → C' k = true) {p : List Key}
    (hp : lastField C p = true) : lastField C' p = true := by
  induction p with
  | nil => exact absurd hp Bool.false_ne_true
  | cons key p ih =>
    cases p with
    | nil =>
      cases key with
      | field k => exact h k hp
      | index i => exact absurd hp Bool.false_ne_true
    | cons key' p =>
      cases key with
      | field k => exact ih hp
      | index i => exact ih hp

theorem looksEnabled_enabledKey (k : Str) (h : decide (k = enabledKey) = true) :
    decide (LooksEnabled k) = true := by
  rw [of_decide_eq_true h]
  rfl

theorem turned_of_str {C : Str → Bool} {D : PathTree ν} {p : List Key} {s : Str}
    (h : D p = some (.str s)) :
    turned C D p = some (if lastField C p then toBool s else .str s) := by
  rw [turned, h]

theorem turned_of_not_str {C : Str → Bool} {D : PathTree ν} {p : List Key}
    (h : ∀ s, D p ≠ some (.str s)) : turned C D p = D p := by
  unfold turned
  split
  · rename_i s hs
    exact absurd hs (h s)
  · rfl

/-- A string that is still one was one before. -/
theorem str_of_turned {C : Str → Bool} {D : PathTree ν} {p : List Key} {s : Str}
    (h : turned C D p = some (.str s)) : D p = some (.str s) := by
  unfold turned at h
  split at h
  · rename_i s' hs
    simp only [toBool, Option.some.injEq] at h
    split at h
    · split at h
      · exact absurd h (by simp)
      · split at h
        · exact absurd h (by simp)
        · rw [hs, h]
    · rw [hs, h]
  · exact h

/-- Something else is at a path, or nothing, exactly where it was before. -/
theorem turned_eq_none_iff {C : Str → Bool} {D : PathTree ν} {p : List Key} :
    turned C D p = none ↔ D p = none := by
  by_cases hstr : ∃ s, D p = some (.str s)
  · obtain ⟨s, hs⟩ := hstr
    rw [turned_of_str hs, hs]
    simp
  · rw [turned_of_not_str fun s hs => hstr ⟨s, hs⟩]

theorem toBool_of_ne {s : Str} (htrue : s ≠ boolWord true) (hfalse : s ≠ boolWord false) :
    (toBool s : Node ν) = .str s := by
  rw [toBool, if_neg htrue, if_neg hfalse]

theorem toBool_boolWord (b : Bool) : (toBool (boolWord b) : Node ν) = .bool b := by
  cases b <;> rfl

/-- What the second and the third substitution do is what they are meant to do, as far as the
names allow. -/
theorem turned_looksEnabled {D : PathTree ν} (h : Clean D) :
    turned (fun k => LooksEnabled k) D = turnedEnabled D := by
  funext p
  by_cases hstr : ∃ s, D p = some (.str s)
  · obtain ⟨s, hs⟩ := hstr
    rw [turnedEnabled, turned_of_str hs, turned_of_str hs]
    by_cases hword : s = boolWord true ∨ s = boolWord false
    · have hiff : lastField (fun k => LooksEnabled k) p = lastField (fun k => k = enabledKey) p :=
        Bool.eq_iff_iff.mpr ⟨h.names p s hs hword, lastField_mono looksEnabled_enabledKey⟩
      rw [hiff]
    · rw [not_or] at hword
      rw [toBool_of_ne hword.1 hword.2, ite_self, ite_self]
  · have hne : ∀ s, D p ≠ some (.str s) := fun s hs => hstr ⟨s, hs⟩
    rw [turnedEnabled, turned_of_not_str hne, turned_of_not_str hne]

/-- What is left as it is, the first substitution has not found anything in. -/
theorem noBraces_of_saved {w : Value ν}
    (h : turned (fun k => LooksEnabled k) (substBraces w).tree = turnedEnabled w.tree) :
    NoBraces w.tree := by
  intro p n hn
  have hat : turned (fun k => LooksEnabled k) (substBraces w).tree p = turnedEnabled w.tree p := by
    rw [h]
  obtain ⟨m, hm⟩ : ∃ m, (substBraces w).tree p = some m := by
    refine Option.ne_none_iff_exists'.mp ?_
    intro hnone
    rw [turned_eq_none_iff.mpr hnone] at hat
    exact absurd (hn.symm.trans (turned_eq_none_iff.mp hat.symm)) (by simp)
  refine ⟨(noBraces_substBraces w p m hm).1, ?_⟩
  rintro s rfl hinf
  -- a string with braces is neither of the two words
  have hself : (toBool s : Node ν) = .str s := by
    refine toBool_of_ne ?_ ?_
    · rintro rfl
      exact absurd hinf (by decide)
    · rintro rfl
      exact absurd hinf (by decide)
  rw [turnedEnabled, turned_of_str hn, hself, ite_self] at hat
  exact (noBraces_substBraces w p _ (str_of_turned hat)).2 s rfl hinf

/-- And the other two have not turned a text under another name than `Enabled`. -/
theorem names_of_saved {D : PathTree ν} (h : turned (fun k => LooksEnabled k) D = turnedEnabled D)
    {p : List Key} {b : Bool} (hs : D p = some (.str (boolWord b)))
    (hlast : lastField (fun k => LooksEnabled k) p = true) :
    lastField (fun k => k = enabledKey) p = true := by
  have hat : turned (fun k => LooksEnabled k) D p = turnedEnabled D p := by
    rw [h]
  rw [turned_of_str hs, if_pos hlast, turnedEnabled, turned_of_str hs, toBool_boolWord] at hat
  by_contra hnot
  rw [if_neg hnot] at hat
  exact absurd hat (by simp)

/-- **When `save_file` saves what it is given**: what is in the file is the table, with nothing
but `Enabled` changed, exactly when the table is clean. -/
theorem saved_tree_iff (w : Value ν) :
    (enable false (enable true (substBraces w))).tree = turnedEnabled w.tree ↔ Clean w.tree := by
  rw [tree_enable, tree_enable, turnedTo_turnedTo]
  constructor
  · intro h
    have hbraces := noBraces_of_saved h
    rw [tree_substBraces hbraces] at h
    refine ⟨hbraces, ?_⟩
    rintro p s hs (rfl | rfl) hlast
    · exact names_of_saved h hs hlast
    · exact names_of_saved h hs hlast
  · intro h
    rw [tree_substBraces h.noBraces, turned_looksEnabled h]

/-- **`save_file` and the next reading of the file.** -/
theorem decode_saveText (cj : Codec ν) (map : Value ν) :
    ∃ v, cj.decode (saveText cj map) = some v ∧
      (v.tree = turnedEnabled map.tree ↔ Clean map.tree) := by
  obtain ⟨w, hw, htext⟩ := saveText_eq cj map
  obtain ⟨v, hv, hvt⟩ := cj.decode_text emptyArr (by decide)
    (enable false (enable true (substBraces w)))
  refine ⟨v, by rw [htext, hv], ?_⟩
  rw [hvt, ← hw]
  exact saved_tree_iff w

/-! ## 4. What is read at a given place

Under names that the first substitution neither changes nor makes, it can be said what is in the
file, whatever the rest of the table is. -/

def PlainName (k : Str) : Prop := ¬ emptyObj <:+: k ∧ ¬ emptyArr <:+: k

instance (k : Str) : Decidable (PlainName k) := inferInstanceAs (Decidable (_ ∧ _))

theorem gsubBraces_eq_plain_iff {k : Str} (hk : PlainName k) (k' : Str) :
    gsubBraces k' = k ↔ k' = k := by
  constructor
  · rintro rfl
    by_cases h : emptyObj <:+: k'
    · exact absurd (infix_gsub emptyObj_ne_nil emptyArr h) hk.2
    · exact ((gsubBraces_eq_self_iff k').mpr h).symm
  · rintro rfl
    exact (gsubBraces_eq_self_iff k').mpr hk.1

/-- The first substitution, at a leaf. -/
def substNode : Node ν → Node ν
  | .str s => .str (gsubBraces s)
  | n => n

theorem lookup_substMembers {k : Str} (hk : PlainName k) (ms : List (Str × Value ν)) :
    lookup k (substMembers ms) = (lookup k ms).map substBraces := by
  induction ms with
  | nil => rfl
  | cons m ms ih =>
    have hiff : k = gsubBraces m.1 ↔ k = m.1 := by
      rw [eq_comm, gsubBraces_eq_plain_iff hk, eq_comm]
    rw [substMembers, lookup_cons, lookup_cons, ih, Option.map_or,
      apply_ite (Option.map substBraces)]
    simp only [hiff, Option.map_some, Option.map_none]

theorem tree_substBraces_plain {p : List Key} (hp : ∀ k, Key.field k ∈ p → PlainName k)
    (v : Value ν) : (substBraces v).tree p = (v.tree p).map substNode := by
  induction p generalizing v with
  | nil => cases v <;> rfl
  | cons key p ih =>
    have hbelow : ∀ k, Key.field k ∈ p → PlainName k := fun k hk =>
      hp k (List.mem_cons_of_mem _ hk)
    cases v with
    | arr vs =>
      cases key with
      | field k => simp [substBraces]
      | index i =>
        rw [substBraces, substElems_eq, Value.tree_arr_index, Value.tree_arr_index,
          List.getElem?_map]
        cases vs[i]? with
        | none => rfl
        | some v => exact ih hbelow v
    | obj ms =>
      cases key with
      | index i => simp [substBraces]
      | field k =>
        rw [substBraces, Value.tree_obj_field, Value.tree_obj_field,
          lookup_substMembers (hp k List.mem_cons_self)]
        cases lookup k ms with
        | none => rfl
        | some v => exact ih hbelow v
    | _ => simp [substBraces, Value.tree]

/-- What `save_file` makes of a leaf. -/
def savedNode (p : List Key) : Node ν → Node ν
  | .str s =>
    if lastField (fun k => LooksEnabled k) p then toBool (gsubBraces s) else .str (gsubBraces s)
  | n => n

/-- **What is read at such a place.** -/
theorem decode_saveText_plain (cj : Codec ν) (map : Value ν) :
    ∃ v, cj.decode (saveText cj map) = some v ∧
      ∀ p, (∀ k, Key.field k ∈ p → PlainName k) → v.tree p = (map.tree p).map (savedNode p) := by
  obtain ⟨w, hw, htext⟩ := saveText_eq cj map
  obtain ⟨v, hv, hvt⟩ := cj.decode_text emptyArr (by decide)
    (enable false (enable true (substBraces w)))
  refine ⟨v, by rw [htext, hv], ?_⟩
  intro p hp
  rw [hvt, tree_enable, tree_enable, turnedTo_turnedTo, ← hw, turned, tree_substBraces_plain hp]
  cases w.tree p with
  | none => rfl
  | some n => cases n <;> rfl

end Puppies
