/-
# The tokens that the JSON reader accepts

Which texts are a string, an integer, a comment, a key for the parser of `Nxjson`, and what they
mean.  The grammar is that of JSON, made wider: a backslash that starts no escape stands for
itself, an integer is written as in C, in decimal, octal or hexadecimal, and `-` alone is zero.

For each token there are two lemmas: what the parser took is of the grammar (`_sound`), and what is
of the grammar is taken (`_complete`).  A bound that was too small is excluded in the second by
its result, which is not `outOfFuel`.
-/
import Mathlib.Data.List.Infix
import Mathlib.Data.List.TakeWhile
import Puppies.Ntrack.Nxjson

namespace Puppies

open ByteMem

/-! ## 1. Strings -/

/-- A character in UTF-8. -/
def utf8 (ch : Char) : List Byte := (String.utf8EncodeChar ch).map UInt8.toBitVec

/-- A unicode escape behind its `u`, and the character that it is. -/
inductive UnicodeText : Text → Char → Prop
  | one {u : Text} {ch : Char} (hu : hex4 u = some (ch.toNat, [])) : UnicodeText u ch
  | two {u u' : Text} {hi lo : Nat} {ch : Char} (hu : hex4 u = some (hi, []))
      (hu' : hex4 u' = some (lo, [])) (hhi : 0xd800 ≤ hi ∧ hi < 0xdc00)
      (hlo : 0xdc00 ≤ lo ∧ lo < 0xe000)
      (hch : ch.toNat = 0x10000 + (hi - 0xd800) * 1024 + (lo - 0xdc00)) :
      UnicodeText (u ++ 0x5c :: 0x75 :: u') ch

/-- The text of a string between its quotes, and the bytes that it stands for. -/
inductive StringText : Text → List Byte → Prop
  | nil : StringText [] []
  | plain {c : Byte} {w s : Text} (hquote : c ≠ 0x22) (hslash : c ≠ 0x5c) (hw : StringText w s) :
      StringText (c :: w) (c :: s)
  | escape {e b : Byte} {w s : Text} (he : escapedByte e = some b) (hw : StringText w s) :
      StringText (0x5c :: e :: w) (b :: s)
  | unicode {u w s : Text} {ch : Char} (hu : UnicodeText u ch) (hw : StringText w s) :
      StringText (0x5c :: 0x75 :: (u ++ w)) (utf8 ch ++ s)
  /-- a backslash that starts no escape -/
  | backslash {e : Byte} {w s : Text} (he : escapedByte e = none) (hu : e ≠ 0x75)
      (hw : StringText (e :: w) s) : StringText (0x5c :: e :: w) (0x5c :: s)

theorem hex4_append {u : Text} {n : Nat} (h : hex4 u = some (n, [])) (p : Text) :
    hex4 (u ++ p) = some (n, p) := by
  unfold hex4 at h
  split at h
  · rename_i a b c d rest
    simp only [bind, Option.bind_eq_some_iff, pure, Option.some.injEq, Prod.mk.injEq] at h
    obtain ⟨h1, e1, h2, e2, h3, e3, h4, e4, rfl, rfl⟩ := h
    simp [hex4, e1, e2, e3, e4]
  · exact absurd h (by simp)

/-- The four digits that `hex4` read. -/
theorem hex4_split {p q : Text} {n : Nat} (h : hex4 p = some (n, q)) :
    ∃ u, p = u ++ q ∧ hex4 u = some (n, []) := by
  unfold hex4 at h
  split at h
  · rename_i a b c d rest
    simp only [bind, Option.bind_eq_some_iff, pure, Option.some.injEq, Prod.mk.injEq] at h
    obtain ⟨h1, e1, h2, e2, h3, e3, h4, e4, rfl, rfl⟩ := h
    exact ⟨[a, b, c, d], rfl, by simp [hex4, e1, e2, e3, e4]⟩
  · exact absurd h (by simp)

/-- What `unicode_to_utf8` stores is the character in UTF-8. -/
theorem unicodeToUtf8_toNat (ch : Char) : unicodeToUtf8 ch.toNat = some (utf8 ch) := by
  have hval : ch.toNat < 0xd800 ∨ 0xdfff < ch.toNat ∧ ch.toNat < 0x110000 := ch.valid
  have hbyte : ∀ n, (UInt8.ofNat n).toBitVec = BitVec.ofNat 8 n := fun n => rfl
  have hnat : ch.val.toNat = ch.toNat := rfl
  unfold unicodeToUtf8 utf8 String.utf8EncodeChar
  simp only [hnat]
  generalize ch.toNat = n at hval ⊢
  by_cases h1 : n < 0x80
  · rw [if_pos h1, if_pos (by omega), List.map_singleton, hbyte]
  rw [if_neg h1, if_neg (c := n ≤ 0x7f) (by omega)]
  by_cases h2 : n < 0x800
  · rw [if_pos h2, if_pos (by omega)]
    have hlead : n / 64 % 32 + 192 = 192 + n / 64 := by omega
    simp only [List.map_cons, List.map_nil, hbyte, hlead, Nat.add_comm _ 128]
  rw [if_neg h2, if_neg (c := n ≤ 0x7ff) (by omega), if_neg (by omega)]
  by_cases h3 : n < 0x10000
  · rw [if_pos h3, if_pos (by omega)]
    have hlead : n / 4096 % 16 + 224 = 224 + n / 4096 := by omega
    simp only [List.map_cons, List.map_nil, hbyte, hlead, Nat.add_comm _ 128]
  · rw [if_neg h3, if_pos (by omega), if_neg (by omega)]
    have hlead : n / 262144 % 8 + 240 = 240 + n / 262144 := by omega
    simp only [List.map_cons, List.map_nil, hbyte, hlead, Nat.add_comm _ 128]

/-- And it stores characters only. -/
theorem unicodeToUtf8_some {n : Nat} {bs : List Byte} (h : unicodeToUtf8 n = some bs) :
    ∃ ch : Char, ch.toNat = n ∧ bs = utf8 ch := by
  have hvalid : n.isValidChar := by
    by_contra hn
    have hsurr : (0xd800 ≤ n ∧ n < 0xd800 + 0x800) ∨ 0x110000 ≤ n := by
      unfold Nat.isValidChar at hn
      omega
    unfold unicodeToUtf8 at h
    rw [if_neg (by omega), if_neg (by omega)] at h
    rcases hsurr with hs | hs
    · rw [if_pos hs] at h
      exact absurd h (by simp)
    · rw [if_neg (by omega), if_neg (by omega), if_neg (by omega)] at h
      exact absurd h (by simp)
  have hch : (Char.ofNatAux n hvalid).toNat = n := rfl
  refine ⟨Char.ofNatAux n hvalid, hch, ?_⟩
  rw [← Option.some_inj, ← h, ← unicodeToUtf8_toNat, hch]

theorem unescapeUnicode_sound {p q : Text} {bs : List Byte}
    (h : unescapeUnicode p = .ok (bs, q)) :
    ∃ u ch, p = u ++ q ∧ UnicodeText u ch ∧ bs = utf8 ch := by
  unfold unescapeUnicode at h
  split at h
  · exact absurd h (by simp)
  · rename_i hi p₁ hhex
    obtain ⟨u, rfl, hu⟩ := hex4_split hhex
    dsimp only at h
    split at h
    · rename_i hhi
      split at h
      · rename_i p₂
        split at h
        · rename_i lo p₃ hhex₂
          obtain ⟨u', rfl, hu'⟩ := hex4_split hhex₂
          split at h
          · rename_i hlo
            split at h
            · rename_i bs' hbs
              obtain ⟨rfl, rfl⟩ := Prod.mk.inj (Except.ok.inj h)
              obtain ⟨ch, hch, rfl⟩ := unicodeToUtf8_some hbs
              refine ⟨u ++ 0x5c :: 0x75 :: u', ch, by simp, ?_, rfl⟩
              exact .two hu hu' (by omega) (by omega) hch
            · exact absurd h (by simp)
          · exact absurd h (by simp)
        · exact absurd h (by simp)
      · exact absurd h (by simp)
    · split at h
      · rename_i bs' hbs
        obtain ⟨rfl, rfl⟩ := Prod.mk.inj (Except.ok.inj h)
        obtain ⟨ch, rfl, rfl⟩ := unicodeToUtf8_some hbs
        exact ⟨u, ch, rfl, .one hu, rfl⟩
      · exact absurd h (by simp)

theorem unescapeUnicode_complete {u : Text} {ch : Char} (h : UnicodeText u ch) (q : Text) :
    unescapeUnicode (u ++ q) = .ok (utf8 ch, q) := by
  cases h with
  | one hu =>
    -- a character is no surrogate
    have hval : ch.toNat < 0xd800 ∨ 0xdfff < ch.toNat ∧ ch.toNat < 0x110000 := ch.valid
    simp only [unescapeUnicode, hex4_append hu]
    rw [if_neg (by omega), unicodeToUtf8_toNat]
  | @two u u' hi lo _ hu hu' hhi hlo hch =>
    have hhi' : hi / 1024 = 0xd800 / 1024 := by omega
    have hlo' : lo / 1024 = 0xdc00 / 1024 := by omega
    simp [unescapeUnicode, hex4_append hu, hex4_append hu', hhi', hlo', ← hch,
      unicodeToUtf8_toNat]

/-- The bytes of one character of a string, and of those behind it. -/
theorem ok_of_bind_append {x : Except NxError (List Byte × Text)} {bs s : List Byte} {q : Text}
    (h : (do let (cs, p) ← x; return (bs ++ cs, p)) = Except.ok (s, q)) :
    ∃ cs, x = .ok (cs, q) ∧ s = bs ++ cs := by
  cases x with
  | error e => exact absurd h (by simp [bind, Except.bind])
  | ok r =>
    obtain ⟨rfl, rfl⟩ := Prod.mk.inj (Except.ok.inj h)
    exact ⟨r.1, rfl, rfl⟩

theorem unescapeString_sound {fuel : Nat} {p q : Text} {s : List Byte}
    (h : unescapeString fuel p = .ok (s, q)) : ∃ w, p = w ++ 0x22 :: q ∧ StringText w s := by
  induction fuel generalizing p s with
  | zero => exact absurd h (by simp [unescapeString])
  | succ fuel ih =>
    cases p with
    | nil => exact absurd h (by simp [unescapeString])
    | cons c p =>
      rw [unescapeString] at h
      by_cases hquote : c = 0x22
      · rw [if_pos hquote] at h
        obtain ⟨rfl, rfl⟩ := Prod.mk.inj (Except.ok.inj h)
        exact ⟨[], by rw [hquote, List.nil_append], .nil⟩
      rw [if_neg hquote] at h
      by_cases hslash : c = 0x5c
      · rw [if_pos hslash] at h
        subst hslash
        cases p with
        | nil =>
          obtain ⟨cs, hcs, -⟩ := ok_of_bind_append h
          obtain ⟨w, hw, -⟩ := ih hcs
          exact absurd hw (by simp)
        | cons e p =>
          dsimp only at h
          by_cases hu : e = 0x75
          · rw [if_pos hu] at h
            cases hx : unescapeUnicode p with
            | error err =>
              rw [hx] at h
              exact absurd h (by simp [bind, Except.bind])
            | ok r =>
              obtain ⟨bs, p₁⟩ := r
              rw [hx] at h
              obtain ⟨u, ch, rfl, hch, rfl⟩ := unescapeUnicode_sound hx
              obtain ⟨cs, hcs, rfl⟩ := ok_of_bind_append h
              obtain ⟨w, rfl, hw⟩ := ih hcs
              exact ⟨0x5c :: 0x75 :: (u ++ w), by simp [hu], .unicode hch hw⟩
          · rw [if_neg hu] at h
            cases he : escapedByte e with
            | some b =>
              rw [he] at h
              obtain ⟨cs, hcs, rfl⟩ := ok_of_bind_append h
              obtain ⟨w, rfl, hw⟩ := ih hcs
              exact ⟨0x5c :: e :: w, rfl, .escape he hw⟩
            | none =>
              rw [he] at h
              obtain ⟨cs, hcs, rfl⟩ := ok_of_bind_append h
              obtain ⟨w, hp, hw⟩ := ih hcs
              cases w with
              | nil =>
                -- a backslash before a quote is an escape
                obtain ⟨rfl, -⟩ := List.cons.inj hp
                exact absurd he (by decide)
              | cons d w =>
                obtain ⟨rfl, rfl⟩ := List.cons.inj hp
                exact ⟨0x5c :: e :: w, rfl, .backslash he hu hw⟩
      · rw [if_neg hslash] at h
        obtain ⟨cs, hcs, rfl⟩ := ok_of_bind_append h
        obtain ⟨w, rfl, hw⟩ := ih hcs
        exact ⟨c :: w, rfl, .plain hquote hslash hw⟩

theorem bind_append_of_ok {x : Except NxError (List Byte × Text)} (bs : List Byte) {s : List Byte}
    {q : Text} (h : x = .ok (s, q)) :
    (do let (cs, p) ← x; return (bs ++ cs, p)) = Except.ok (bs ++ s, q) := by
  rw [h]
  rfl

/-- A bound that is large enough for the whole is so for what it begins with. -/
theorem ne_outOfFuel_of_bind {α β : Type} {x : Except NxError α} {f : α → Except NxError β}
    (h : (x >>= f) ≠ .error .outOfFuel) : x ≠ .error .outOfFuel := by
  rintro rfl
  exact h rfl

theorem unescapeString_complete {w s : Text} (h : StringText w s) {fuel : Nat} {q : Text}
    (hfuel : unescapeString fuel (w ++ 0x22 :: q) ≠ .error .outOfFuel) :
    unescapeString fuel (w ++ 0x22 :: q) = .ok (s, q) := by
  induction h generalizing fuel with
  | nil =>
    cases fuel with
    | zero => exact absurd rfl hfuel
    | succ fuel => simp [unescapeString]
  | @plain c w s hquote hslash _ ih =>
    cases fuel with
    | zero => exact absurd rfl hfuel
    | succ fuel =>
      rw [List.cons_append, unescapeString, if_neg hquote, if_neg hslash] at hfuel ⊢
      exact bind_append_of_ok [c] (ih (ne_outOfFuel_of_bind hfuel))
  | @escape e b w s he _ ih =>
    cases fuel with
    | zero => exact absurd rfl hfuel
    | succ fuel =>
      have hu : e ≠ 0x75 := by
        rintro rfl
        have hnone : escapedByte 0x75 = none := by decide
        exact absurd (he.symm.trans hnone) (by simp)
      rw [List.cons_append, List.cons_append, unescapeString, if_neg (by decide), if_pos rfl]
        at hfuel ⊢
      dsimp only at hfuel ⊢
      rw [if_neg hu, he] at hfuel ⊢
      exact bind_append_of_ok [b] (ih (ne_outOfFuel_of_bind hfuel))
  | @unicode u w s ch hu _ ih =>
    cases fuel with
    | zero => exact absurd rfl hfuel
    | succ fuel =>
      rw [List.cons_append, List.cons_append, List.append_assoc, unescapeString,
        if_neg (by decide), if_pos rfl] at hfuel ⊢
      dsimp only at hfuel ⊢
      rw [if_pos rfl, unescapeUnicode_complete hu] at hfuel ⊢
      exact bind_append_of_ok _ (ih (ne_outOfFuel_of_bind hfuel))
  | @backslash e w s he hu _ ih =>
    cases fuel with
    | zero => exact absurd rfl hfuel
    | succ fuel =>
      rw [List.cons_append, List.cons_append, unescapeString, if_neg (by decide), if_pos rfl]
        at hfuel ⊢
      dsimp only at hfuel ⊢
      rw [if_neg hu, he] at hfuel ⊢
      exact bind_append_of_ok [0x5c] (ih (ne_outOfFuel_of_bind hfuel))

/-! ## 2. Integers -/

/-- A digit in the base `base`. -/
def IsDigit (base : Nat) (c : Byte) : Prop := ∃ val, digitVal c = some val ∧ val < base

/-- A text that goes on with no digit of this base. -/
def Stops (base : Nat) (r : Text) : Prop := ∀ c, r.head? = some c → ¬ IsDigit base c

/-- The number that the digits are, after the number `n`. -/
def number (base : Nat) : Nat → Text → Nat
  | n, [] => n
  | n, c :: w => number base (n * base + (digitVal c).getD 0) w

/-- The text of a number without its sign, in front of `r`: as long as there are digits. -/
inductive UnsignedText : Text → Text → Nat → Prop
  | decimal {c : Byte} {w r : Text} (hc : c ≠ 0x30) (hw : ∀ d ∈ c :: w, IsDigit 10 d)
      (hr : Stops 10 r) : UnsignedText (c :: w) r (number 10 0 (c :: w))
  | octal {w r : Text} (hw : ∀ d ∈ w, IsDigit 8 d) (hr : Stops 8 r)
      (hhex : w = [] → ∀ x d r', r = x :: d :: r' → x ||| 0x20 = 0x78 → ¬ IsDigit 16 d) :
      UnsignedText (0x30 :: w) r (number 8 0 w)
  | hexadecimal {x c : Byte} {w r : Text} (hx : x ||| 0x20 = 0x78)
      (hw : ∀ d ∈ c :: w, IsDigit 16 d) (hr : Stops 16 r) :
      UnsignedText (0x30 :: x :: c :: w) r (number 16 0 (c :: w))

/-- The text of an integer, in front of `r`. -/
inductive IntegerText : Text → Text → BitVec 64 → Prop
  | positive {w r : Text} {n : Nat} (hw : UnsignedText w r n) : IntegerText w r (BitVec.ofNat 64 n)
  | negative {w r : Text} {n : Nat} (hw : UnsignedText w r n) :
      IntegerText (0x2d :: w) r (-BitVec.ofNat 64 n)
  /-- a sign without a number -/
  | sign {r : Text} (hr : Stops 10 r) : IntegerText [0x2d] r 0

theorem Stops.of_cons {base : Nat} {c : Byte} {p : Text} (h : ¬ IsDigit base c) :
    Stops base (c :: p) := by
  intro d hd
  obtain rfl := Option.some.inj hd
  exact h

/-- `_parse_integer` takes the digits that there are. -/
theorem parseInteger_split (base n : Nat) (p : Text) : ∃ w r, p = w ++ r ∧
    (∀ d ∈ w, IsDigit base d) ∧ Stops base r ∧
    parseInteger base (BitVec.ofNat 64 n) p = (BitVec.ofNat 64 (number base n w), r) := by
  induction p generalizing n with
  | nil => exact ⟨[], [], rfl, by simp, by simp [Stops], rfl⟩
  | cons c p ih =>
    by_cases hc : IsDigit base c
    · obtain ⟨val, hval, hlt⟩ := hc
      obtain ⟨w, r, hp, hw, hr, hparse⟩ := ih (n * base + val)
      refine ⟨c :: w, r, by rw [hp, List.cons_append], ?_, hr, ?_⟩
      · simpa using ⟨⟨val, hval, hlt⟩, hw⟩
      · rw [parseInteger, hval]
        dsimp only
        rw [if_pos hlt, number, hval, Option.getD_some, ← hparse, BitVec.ofNat_add,
          BitVec.ofNat_mul]
    · refine ⟨[], c :: p, rfl, by simp, .of_cons hc, ?_⟩
      rw [parseInteger]
      split
      · rename_i val hval
        rw [if_neg fun hlt => hc ⟨val, hval, hlt⟩, number]
      · rfl

/-- There is one way to take all the digits. -/
theorem digits_unique {base : Nat} {w r w' r' : Text} (h : w ++ r = w' ++ r')
    (hw : ∀ d ∈ w, IsDigit base d) (hr : Stops base r) (hw' : ∀ d ∈ w', IsDigit base d)
    (hr' : Stops base r') : w = w' ∧ r = r' := by
  induction w generalizing w' with
  | nil =>
    cases w' with
    | nil => exact ⟨rfl, h⟩
    | cons d w' =>
      refine absurd (hw' d List.mem_cons_self) (hr d ?_)
      rw [List.nil_append] at h
      rw [h]
      rfl
  | cons d w ih =>
    cases w' with
    | nil =>
      refine absurd (hw d List.mem_cons_self) (hr' d ?_)
      rw [List.nil_append] at h
      rw [← h]
      rfl
    | cons e w' =>
      obtain ⟨rfl, hrest⟩ := List.cons.inj h
      obtain ⟨rfl, rfl⟩ := ih hrest (fun d hd => hw d (List.mem_cons_of_mem _ hd))
        fun d hd => hw' d (List.mem_cons_of_mem _ hd)
      exact ⟨rfl, rfl⟩

theorem parseInteger_complete (base : Nat) {w r : Text} (hw : ∀ d ∈ w, IsDigit base d)
    (hr : Stops base r) (n : Nat) : parseInteger base (BitVec.ofNat 64 n) (w ++ r) =
      (BitVec.ofNat 64 (number base n w), r) := by
  obtain ⟨w', r', hp, hw', hr', hparse⟩ := parseInteger_split base n (w ++ r)
  obtain ⟨rfl, rfl⟩ := digits_unique hp hw hr hw' hr'
  exact hparse

theorem digitVal_lt {c : Byte} {val : Nat} (h : digitVal c = some val) : val < 16 := by
  have hall : ∀ c : Byte, (digitVal c).all (· < 16) = true := by decide +kernel
  have hc := hall c
  rw [h] at hc
  simpa using hc

theorem isDigit_hex {c : Byte} : (digitVal c).isSome = true ↔ IsDigit 16 c := by
  rw [Option.isSome_iff_exists]
  exact exists_congr fun val => ⟨fun h => ⟨h, digitVal_lt h⟩, fun h => h.1⟩

/-- The letter of the prefix is no digit. -/
theorem not_isDigit_x {base : Nat} {x : Byte} (hx : x ||| 0x20 = 0x78) : ¬ IsDigit base x := by
  have hall : ∀ c : Byte, c ||| 0x20 = 0x78 → digitVal c = none := by decide +kernel
  rintro ⟨val, hval, -⟩
  rw [hall x hx] at hval
  exact absurd hval (by simp)

/-- What decides between the bases, for a number that begins with zero. -/
theorem fixupRadix_zero (x d : Byte) (p : Text) : fixupRadix (0x30 :: x :: d :: p) =
    if x ||| 0x20 = 0x78 ∧ (digitVal d).isSome = true then (16, d :: p)
    else (8, 0x30 :: x :: d :: p) := rfl

theorem fixupRadix_hexadecimal {x d : Byte} {p : Text} (hx : x ||| 0x20 = 0x78)
    (hd : IsDigit 16 d) : fixupRadix (0x30 :: x :: d :: p) = (16, d :: p) := by
  rw [fixupRadix_zero, if_pos ⟨hx, isDigit_hex.mpr hd⟩]

theorem fixupRadix_octal {p : Text}
    (h : ∀ x d p', p = x :: d :: p' → x ||| 0x20 = 0x78 → ¬ IsDigit 16 d) :
    fixupRadix (0x30 :: p) = (8, 0x30 :: p) := by
  match p with
  | [] => rfl
  | [x] => rfl
  | x :: d :: p' =>
    rw [fixupRadix_zero, if_neg]
    rintro ⟨hx, hd⟩
    exact h x d p' rfl hx (isDigit_hex.mp hd)

theorem fixupRadix_decimal {p : Text} (h : p.head? ≠ some 0x30) : fixupRadix p = (10, p) := by
  unfold fixupRadix
  split
  · exact absurd rfl h
  · exact absurd rfl h
  · rfl

theorem isDigit_zero {base : Nat} (h : 0 < base) : IsDigit base 0x30 := ⟨0, by decide, h⟩

theorem simpleStrtoull_sound (p : Text) :
    (∃ w r n, p = w ++ r ∧ UnsignedText w r n ∧ simpleStrtoull p = (BitVec.ofNat 64 n, r)) ∨
      (Stops 10 p ∧ simpleStrtoull p = (0, p)) := by
  unfold simpleStrtoull
  by_cases hzero : p.head? = some 0x30
  · obtain ⟨p, rfl⟩ := List.head?_eq_some_iff.mp hzero
    refine Or.inl ?_
    by_cases hhex : ∃ x d p', p = x :: d :: p' ∧ x ||| 0x20 = 0x78 ∧ IsDigit 16 d
    · obtain ⟨x, d, p', rfl, hx, hd⟩ := hhex
      rw [fixupRadix_hexadecimal hx hd]
      obtain ⟨w, r, hp, hw, hr, hparse⟩ := parseInteger_split 16 0 (d :: p')
      cases w with
      | nil => exact absurd hd (hr d (by rw [← List.nil_append r, ← hp]; rfl))
      | cons c w =>
        exact ⟨0x30 :: x :: c :: w, r, _, by rw [hp]; rfl, .hexadecimal hx hw hr, hparse⟩
    · have hno : ∀ x d p', p = x :: d :: p' → x ||| 0x20 = 0x78 → ¬ IsDigit 16 d :=
        fun x d p' hp hx hd => hhex ⟨x, d, p', hp, hx, hd⟩
      rw [fixupRadix_octal hno]
      obtain ⟨w, r, hp, hw, hr, hparse⟩ := parseInteger_split 8 0 (0x30 :: p)
      cases w with
      | nil =>
        exact absurd (isDigit_zero (by omega)) (hr 0x30 (by rw [← List.nil_append r, ← hp]; rfl))
      | cons c w =>
        obtain ⟨rfl, rfl⟩ := List.cons.inj hp
        refine ⟨0x30 :: w, r, _, rfl, .octal (fun d hd => hw d (List.mem_cons_of_mem _ hd)) hr ?_,
          hparse⟩
        rintro rfl x d r' rfl
        exact hno x d r' rfl
  · rw [fixupRadix_decimal hzero]
    obtain ⟨w, r, hp, hw, hr, hparse⟩ := parseInteger_split 10 0 p
    cases w with
    | nil =>
      obtain rfl : p = r := hp
      exact Or.inr ⟨hr, hparse⟩
    | cons c w =>
      refine Or.inl ⟨c :: w, r, _, hp, .decimal ?_ hw hr, hparse⟩
      rintro rfl
      exact hzero (by rw [hp]; rfl)

theorem simpleStrtoull_complete {w r : Text} {n : Nat} (h : UnsignedText w r n) :
    simpleStrtoull (w ++ r) = (BitVec.ofNat 64 n, r) := by
  unfold simpleStrtoull
  cases h with
  | decimal hc hw hr =>
    rw [fixupRadix_decimal (by simpa using hc)]
    exact parseInteger_complete 10 hw hr 0
  | @octal w r hw hr hhex =>
    rw [List.cons_append, fixupRadix_octal]
    · refine parseInteger_complete 8 (w := 0x30 :: w) ?_ hr 0
      simpa using ⟨isDigit_zero (by omega), hw⟩
    · intro x d p' hp hx
      cases w with
      | nil => exact hhex rfl x d p' hp hx
      | cons c w =>
        obtain ⟨rfl, -⟩ := List.cons.inj hp
        exact absurd (hw c List.mem_cons_self) (not_isDigit_x hx)
  | hexadecimal hx hw hr =>
    rw [List.cons_append, List.cons_append, List.cons_append,
      fixupRadix_hexadecimal hx (hw _ List.mem_cons_self)]
    exact parseInteger_complete 16 hw hr 0

theorem simpleStrtol_minus (p : Text) :
    simpleStrtol (0x2d :: p) = (-(simpleStrtoull p).1, (simpleStrtoull p).2) := rfl

theorem simpleStrtol_digit {c : Byte} {p : Text} (hc : c ≠ 0x2d) :
    simpleStrtol (c :: p) = simpleStrtoull (c :: p) := by
  unfold simpleStrtol
  split
  · rename_i heq
    exact absurd (List.cons.inj heq).1 hc
  · rfl

/-- A number begins with a digit. -/
theorem UnsignedText.head {w r : Text} {n : Nat} (h : UnsignedText w r n) :
    ∃ c w', w = c :: w' ∧ (0x30#8 ≤ c ∧ c ≤ 0x39#8) := by
  have hall : ∀ c : Byte, (∃ v < 10, digitVal c = some v) → 0x30#8 ≤ c ∧ c ≤ 0x39#8 := by
    decide +kernel
  cases h with
  | @decimal c w r hc hw hr =>
    obtain ⟨val, hval, hlt⟩ := hw c List.mem_cons_self
    exact ⟨c, w, rfl, hall c ⟨val, hlt, hval⟩⟩
  | octal => exact ⟨_, _, rfl, by decide⟩
  | hexadecimal => exact ⟨_, _, rfl, by decide⟩

/-- `simple_strtol`, where `parse_value` calls it. -/
theorem simpleStrtol_sound {c : Byte} {p : Text} (hc : c = 0x2d ∨ 0x30#8 ≤ c ∧ c ≤ 0x39#8) :
    ∃ w r v, c :: p = w ++ r ∧ IntegerText w r v ∧ simpleStrtol (c :: p) = (v, r) := by
  by_cases hminus : c = 0x2d
  · have hneg : -(0 : BitVec 64) = 0 := by decide
    subst hminus
    rw [simpleStrtol_minus]
    rcases simpleStrtoull_sound p with ⟨w, r, n, rfl, hw, heq⟩ | ⟨hstop, heq⟩
    · exact ⟨0x2d :: w, r, _, rfl, .negative hw, by rw [heq]⟩
    · exact ⟨[0x2d], p, _, rfl, .sign hstop, by rw [heq, hneg]⟩
  · rw [simpleStrtol_digit hminus]
    rcases simpleStrtoull_sound (c :: p) with ⟨w, r, n, hp, hw, heq⟩ | ⟨hstop, -⟩
    · exact ⟨w, r, _, hp, .positive hw, heq⟩
    · have hall : ∀ c : Byte, 0x30#8 ≤ c ∧ c ≤ 0x39#8 → ∃ v < 10, digitVal c = some v := by
        decide +kernel
      obtain ⟨val, hlt, hval⟩ := hall c (hc.resolve_left hminus)
      exact absurd ⟨val, hval, hlt⟩ (hstop c rfl)

theorem simpleStrtol_complete {w r : Text} {v : BitVec 64} (h : IntegerText w r v) :
    simpleStrtol (w ++ r) = (v, r) := by
  cases h with
  | positive hw =>
    rw [← simpleStrtoull_complete hw]
    obtain ⟨c, w', rfl, hc⟩ := hw.head
    refine simpleStrtol_digit (p := w' ++ r) ?_
    rintro rfl
    exact absurd hc (by decide)
  | negative hw => rw [List.cons_append, simpleStrtol_minus, simpleStrtoull_complete hw]
  | sign hr =>
    have hzero : r.head? ≠ some 0x30 := fun h => hr _ h (isDigit_zero (by omega))
    have hneg : -(0 : BitVec 64) = 0 := by decide
    have hparse : parseInteger 10 0 r = (0, r) :=
      parseInteger_complete 10 (w := []) (by simp) hr 0
    rw [List.singleton_append, simpleStrtol_minus]
    unfold simpleStrtoull
    rw [fixupRadix_decimal hzero]
    dsimp only
    rw [hparse, hneg]

/-- An integer begins with a digit or the sign. -/
theorem IntegerText.head {w r : Text} {v : BitVec 64} (h : IntegerText w r v) :
    ∃ c w', w = c :: w' ∧ (c = 0x2d ∨ 0x30#8 ≤ c ∧ c ≤ 0x39#8) := by
  cases h with
  | positive hw =>
    obtain ⟨c, w', rfl, hc⟩ := hw.head
    exact ⟨c, w', rfl, Or.inr hc⟩
  | negative => exact ⟨_, _, rfl, Or.inl rfl⟩
  | sign => exact ⟨_, _, rfl, Or.inl rfl⟩

/-! ## 3. Comments, fillers and keys -/

/-- The text of a comment: up to the end of the line, or up to the first star and slash. -/
inductive Comment : Text → Prop
  | line {w : Text} (hw : 0x0a ∉ w) : Comment (0x2f :: 0x2f :: (w ++ [0x0a]))
  | block {w : Text} (hw : ¬ [0x2a, 0x2f] <:+: w) :
      Comment (0x2f :: 0x2a :: (w ++ [0x2a, 0x2f]))

/-- What may stand in front of a value or a key: comments and the characters `blank`. -/
inductive Filler (blank : Byte → Prop) : Text → Prop
  | nil : Filler blank []
  | blank {c : Byte} {f : Text} (hc : blank c) (hf : Filler blank f) : Filler blank (c :: f)
  | comment {u f : Text} (hu : Comment u) (hf : Filler blank f) : Filler blank (u ++ f)

/-- What `parse_value` skips. -/
abbrev ValueBlank (c : Byte) : Prop := c = 0x20 ∨ c = 0x09 ∨ c = 0x0a ∨ c = 0x0d ∨ c = 0x2c

/-- What `parse_key` skips. -/
abbrev KeyBlank (c : Byte) : Prop := (isWhitespace c || c == 0x2c) = true

/-- The text of a key and its colon, and the key. -/
inductive KeyText : Text → Text → Prop
  | mk {f w s b : Text} (hf : Filler KeyBlank f) (hw : StringText w s)
      (hb : ∀ c ∈ b, isWhitespace c = true) :
      KeyText (f ++ 0x22 :: (w ++ 0x22 :: (b ++ [0x3a]))) (cString s)

theorem skipLineComment_sound {p q : Text} (h : skipLineComment p = .ok q) :
    ∃ w, p = w ++ 0x0a :: q ∧ 0x0a ∉ w := by
  induction p with
  | nil => exact absurd h (by simp [skipLineComment])
  | cons c p ih =>
    rw [skipLineComment] at h
    by_cases hc : c = 0x0a
    · rw [if_pos hc] at h
      obtain rfl := Except.ok.inj h
      exact ⟨[], by rw [hc, List.nil_append], List.not_mem_nil⟩
    · rw [if_neg hc] at h
      obtain ⟨w, rfl, hw⟩ := ih h
      exact ⟨c :: w, rfl, List.not_mem_cons_of_ne_of_not_mem (Ne.symm hc) hw⟩

theorem skipLineComment_complete {w : Text} (hw : 0x0a ∉ w) (q : Text) :
    skipLineComment (w ++ 0x0a :: q) = .ok q := by
  induction w with
  | nil => rfl
  | cons c w ih =>
    rw [List.mem_cons, not_or] at hw
    rw [List.cons_append, skipLineComment, if_neg (Ne.symm hw.1), ih hw.2]

/-- A pair that is in a list, not in its tail, is at its front. -/
theorem infix_pair_cons {a b c : Byte} {w : Text} :
    [a, b] <:+: c :: w ↔ a = c ∧ w.head? = some b ∨ [a, b] <:+: w := by
  rw [List.infix_cons_iff, List.cons_prefix_cons]
  cases w with
  | nil => simp
  | cons d w => simp [List.cons_prefix_cons, eq_comm]

theorem skipBlockComment_sound {prev : Byte} {p q : Text} (h : skipBlockComment prev p = .ok q) :
    ∃ w, prev :: p = w ++ 0x2a :: 0x2f :: q ∧ ¬ [0x2a, 0x2f] <:+: w := by
  induction p generalizing prev with
  | nil => exact absurd h (by simp [skipBlockComment])
  | cons c p ih =>
    rw [skipBlockComment] at h
    by_cases hc : c = 0x2f ∧ prev = 0x2a
    · rw [if_pos hc] at h
      obtain rfl := Except.ok.inj h
      exact ⟨[], by rw [hc.1, hc.2, List.nil_append], by simp⟩
    · rw [if_neg hc] at h
      obtain ⟨w, hp, hw⟩ := ih h
      refine ⟨prev :: w, by rw [hp, List.cons_append], ?_⟩
      rw [infix_pair_cons]
      rintro (⟨hprev, hhead⟩ | hinfix)
      · obtain ⟨w', rfl⟩ := List.head?_eq_some_iff.mp hhead
        exact hc ⟨(List.cons.inj hp).1, hprev.symm⟩
      · exact hw hinfix

theorem skipBlockComment_complete {w : Text} (hw : ¬ [0x2a, 0x2f] <:+: w) {prev : Byte} {p q : Text}
    (hp : prev :: p = w ++ 0x2a :: 0x2f :: q) : skipBlockComment prev p = .ok q := by
  induction w generalizing prev p with
  | nil =>
    obtain ⟨rfl, rfl⟩ := List.cons.inj hp
    rfl
  | cons d w ih =>
    obtain ⟨rfl, rfl⟩ := List.cons.inj hp
    rw [infix_pair_cons, not_or] at hw
    cases w with
    | nil =>
      change skipBlockComment prev (0x2a :: 0x2f :: q) = _
      rw [skipBlockComment, if_neg (by simp)]
      exact ih (by simp) rfl
    | cons c w =>
      change skipBlockComment prev (c :: (w ++ 0x2a :: 0x2f :: q)) = _
      rw [skipBlockComment, if_neg fun hc => hw.1 ⟨hc.2.symm, by rw [hc.1]; rfl⟩]
      exact ih hw.2 rfl

theorem skipComment_sound {p q : Text} (h : skipComment p = .ok q) :
    ∃ u, 0x2f :: p = u ++ q ∧ Comment u := by
  unfold skipComment at h
  split at h
  · obtain ⟨w, rfl, hw⟩ := skipLineComment_sound h
    exact ⟨_, by simp, .line hw⟩
  · exact absurd h (by simp)
  · obtain ⟨w, hp, hw⟩ := skipBlockComment_sound h
    exact ⟨_, by rw [hp]; simp, .block hw⟩
  · exact absurd h (by simp)

theorem skipComment_complete {u : Text} (h : Comment u) :
    ∃ u', u = 0x2f :: u' ∧ ∀ q, skipComment (u' ++ q) = .ok q := by
  cases h with
  | @line w hw =>
    refine ⟨_, rfl, fun q => ?_⟩
    have hline := skipLineComment_complete hw q
    simpa [skipComment] using hline
  | @block w hw =>
    refine ⟨_, rfl, fun q => ?_⟩
    cases hp : w ++ 0x2a :: 0x2f :: q with
    | nil => exact absurd hp (by simp)
    | cons c p =>
      have hblock := skipBlockComment_complete hw hp.symm
      have hq : 0x2a :: (w ++ [0x2a, 0x2f]) ++ q = 0x2a :: c :: p := by simp [← hp]
      rw [hq]
      exact hblock

/-! ### The key of a member -/

theorem parseKey_quote {fuel : Nat} {p q : Text} {s : List Byte}
    (h : unescapeString (p.length + 1) p = .ok (s, q)) :
    parseKey (fuel + 1) (0x22 :: p) = match q.dropWhile isWhitespace with
      | 0x3a :: p => .ok (some (cString s), p)
      | _ => .error .unexpectedChars := by
  rw [parseKey, if_pos rfl, h]
  rfl

theorem dropWhile_append_of_all {f : Byte → Bool} {b q : Text} (hb : ∀ c ∈ b, f c = true)
    (hq : ∀ c, q.head? = some c → f c = false) : (b ++ q).dropWhile f = q := by
  rw [List.dropWhile_append_of_pos hb]
  cases q with
  | nil => rfl
  | cons c q => rw [List.dropWhile_cons_of_neg (by simp [hq c rfl])]

theorem parseKey_sound {fuel : Nat} {p q : Text} {key : Option Text}
    (h : parseKey fuel p = .ok (key, q)) :
    (key = none ∧ q.head? = some 0x7d ∧ ∃ f, p = f ++ q ∧ Filler KeyBlank f) ∨
      ∃ k s, key = some s ∧ p = k ++ q ∧ KeyText k s := by
  induction fuel generalizing p with
  | zero => exact absurd h (by simp [parseKey])
  | succ fuel ih =>
    cases p with
    | nil => exact absurd h (by simp [parseKey])
    | cons c p =>
      -- going on behind a filler
      have hskip : ∀ u p', c :: p = u ++ p' → parseKey fuel p' = .ok (key, q) →
          (∀ f, Filler KeyBlank f → Filler KeyBlank (u ++ f)) →
          (key = none ∧ q.head? = some 0x7d ∧ ∃ f, c :: p = f ++ q ∧ Filler KeyBlank f) ∨
            ∃ k s, key = some s ∧ c :: p = k ++ q ∧ KeyText k s := by
        intro u p' hp hparse hu
        rcases ih hparse with ⟨hkey, hq, f, rfl, hf⟩ | ⟨k, s, hkey, rfl, hk⟩
        · exact Or.inl ⟨hkey, hq, u ++ f, by rw [hp, List.append_assoc], hu f hf⟩
        · obtain ⟨hf, hw, hb⟩ := hk
          refine Or.inr ⟨_, _, hkey, ?_, .mk (hu _ hf) hw hb⟩
          rw [hp]
          simp
      by_cases hquote : c = 0x22
      · subst hquote
        cases hx : unescapeString (p.length + 1) p with
        | error e =>
          rw [parseKey, if_pos rfl, hx] at h
          exact absurd h (by simp [bind, Except.bind])
        | ok r =>
          obtain ⟨s, p₁⟩ := r
          rw [parseKey_quote hx] at h
          split at h
          · rename_i p₂ hcolon
            obtain ⟨rfl, rfl⟩ := Prod.mk.inj (Except.ok.inj h)
            obtain ⟨w, rfl, hw⟩ := unescapeString_sound hx
            refine Or.inr ⟨_, _, rfl, ?_, .mk (f := []) (b := p₁.takeWhile isWhitespace) .nil hw
              fun c hc => List.mem_takeWhile_imp hc⟩
            have hp₁ := List.takeWhile_append_dropWhile (p := isWhitespace) (l := p₁)
            rw [hcolon] at hp₁
            simp [hp₁]
          · exact absurd h (by simp)
      rw [parseKey, if_neg hquote] at h
      by_cases hblank : (isWhitespace c || c == 0x2c) = true
      · rw [if_pos hblank] at h
        exact hskip [c] p rfl h fun f hf => .blank hblank hf
      rw [if_neg hblank] at h
      by_cases hbrace : c = 0x7d
      · rw [if_pos hbrace] at h
        obtain ⟨rfl, rfl⟩ := Prod.mk.inj (Except.ok.inj h)
        exact Or.inl ⟨rfl, by rw [hbrace]; rfl, [], rfl, .nil⟩
      rw [if_neg hbrace] at h
      by_cases hslash : c = 0x2f
      · subst hslash
        rw [if_pos rfl] at h
        cases hx : skipComment p with
        | error e =>
          rw [hx] at h
          exact absurd h (by simp [bind, Except.bind])
        | ok p' =>
          rw [hx] at h
          obtain ⟨u, hp, hu⟩ := skipComment_sound hx
          exact hskip u p' hp h fun f hf => .comment hu hf
      · rw [if_neg hslash] at h
        exact absurd h (by simp)

/-- A filler in front of a key is passed over. -/
theorem parseKey_filler {f : Text} (hf : Filler KeyBlank f) {fuel : Nat} {p : Text}
    (hfuel : parseKey fuel (f ++ p) ≠ .error .outOfFuel) :
    ∃ fuel', parseKey fuel (f ++ p) = parseKey fuel' p := by
  induction hf generalizing fuel with
  | nil => exact ⟨fuel, rfl⟩
  | @blank c f hc _ ih =>
    cases fuel with
    | zero => exact absurd rfl hfuel
    | succ fuel =>
      have hquote : c ≠ 0x22 := by
        rintro rfl
        exact absurd hc (by decide)
      rw [List.cons_append, parseKey, if_neg hquote, if_pos hc] at hfuel ⊢
      exact ih hfuel
  | @comment u f hu _ ih =>
    cases fuel with
    | zero => exact absurd rfl hfuel
    | succ fuel =>
      obtain ⟨u', rfl, hskip⟩ := skipComment_complete hu
      rw [List.append_assoc, List.cons_append, parseKey, if_neg (by decide), if_neg (by decide),
        if_neg (by decide), if_pos rfl, hskip] at hfuel ⊢
      exact ih hfuel

theorem parseKey_complete {k s : Text} (hk : KeyText k s) {fuel : Nat} {q : Text}
    (hfuel : parseKey fuel (k ++ q) ≠ .error .outOfFuel) :
    parseKey fuel (k ++ q) = .ok (some s, q) := by
  obtain @⟨f, w, s, b, hf, hw, hb⟩ := hk
  rw [List.append_assoc] at hfuel ⊢
  obtain ⟨fuel', heq⟩ := parseKey_filler hf hfuel
  rw [heq] at hfuel ⊢
  cases fuel' with
  | zero => exact absurd rfl hfuel
  | succ fuel =>
    have htext : 0x22 :: (w ++ 0x22 :: (b ++ [0x3a])) ++ q =
        0x22 :: (w ++ 0x22 :: (b ++ 0x3a :: q)) := by simp
    rw [htext] at hfuel ⊢
    have hstring := unescapeString_complete hw
      (ne_outOfFuel_of_bind (by rwa [parseKey, if_pos rfl] at hfuel))
    rw [parseKey_quote hstring, dropWhile_append_of_all hb]
    · rfl
    · intro c hc
      obtain rfl := Option.some.inj hc
      decide

theorem parseKey_brace {f : Text} (hf : Filler KeyBlank f) {fuel : Nat} {q : Text}
    (hfuel : parseKey fuel (f ++ 0x7d :: q) ≠ .error .outOfFuel) :
    parseKey fuel (f ++ 0x7d :: q) = .ok (none, 0x7d :: q) := by
  obtain ⟨fuel', heq⟩ := parseKey_filler hf hfuel
  rw [heq] at hfuel ⊢
  cases fuel' with
  | zero => exact absurd rfl hfuel
  | succ fuel => rw [parseKey, if_neg (by decide), if_neg (by decide), if_pos rfl]

end Puppies
