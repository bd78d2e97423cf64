/-
# Text in C: numerals, columns, conversions and buffers

Texts are lists of bytes, without the `NUL`.  `numeral b n` is what `%d`, `%u` (base 10) and `%x`
(base 16) print; `padLeft` and `padRight` are a field width without and with the flag `-`;
`sscanf` runs a format, given as a list of directives, over a text, and returns the conversions
that it completed, in the way the kernel's `vsscanf` does.  `snprintf` stores a formatted text
into a buffer.

What is printed can be read back: a numeral has its number (`valueOf_numeral`), a column that is
padded to its width ends where its text ends (`padRight_append_inj`), and a text that is put
together in the order of a format is taken apart by the conversions of the format
(`sscanf_space`, `sscanf_str`, `sscanf_hex`).
-/
import Mathlib.Data.List.TakeWhile
import Mathlib.Data.Nat.Digits.Defs
import Puppies.Lib.Bytes

namespace CText

open ByteMem

/-- A text, without the `NUL` at its end. -/
abbrev Text := List Byte

/-- The bytes of a text literal. -/
def lit (s : String) : Text := s.toList.map fun c => BitVec.ofNat 8 c.toNat

/-- `isspace` of the kernel, where 0xa0 is a blank. -/
def isSpace (c : Byte) : Bool := c.toNat = 32 || (9 ≤ c.toNat && c.toNat ≤ 13) || c.toNat = 160

/-- The value of a digit in bases up to 16; 16 for what is no digit. -/
def digitVal (c : Byte) : Nat :=
  if 48 ≤ c.toNat ∧ c.toNat ≤ 57 then c.toNat - 48
  else if 97 ≤ c.toNat ∧ c.toNat ≤ 102 then c.toNat - 87
  else if 65 ≤ c.toNat ∧ c.toNat ≤ 70 then c.toNat - 55
  else 16

/-! ## 1. Numerals -/

/-- The number in base `b`: `%u` and `%x`. -/
def numeral (b n : Nat) : Text := (Nat.toDigits b n).map fun c => BitVec.ofNat 8 c.toNat

/-- `%d` -/
def intNumeral (z : Int) : Text :=
  if z < 0 then 0x2d :: numeral 10 z.natAbs else numeral 10 z.natAbs

/-- The number of a text of digits. -/
def valueOf (b : Nat) (s : Text) : Nat := s.foldl (fun n c => n * b + digitVal c) 0

theorem digitVal_digitChar {d : Nat} (h : d < 16) :
    digitVal (BitVec.ofNat 8 (Nat.digitChar d).toNat) = d := by
  have hall : ∀ d < 16, digitVal (BitVec.ofNat 8 (Nat.digitChar d).toNat) = d := by decide
  exact hall d h

theorem numeral_of_lt {b n : Nat} (h : n < b) :
    numeral b n = [BitVec.ofNat 8 (Nat.digitChar n).toNat] := by
  rw [numeral, Nat.toDigits_of_lt_base h, List.map_singleton]

theorem numeral_of_le {b n : Nat} (hb : 1 < b) (h : b ≤ n) :
    numeral b n = numeral b (n / b) ++ [BitVec.ofNat 8 (Nat.digitChar (n % b)).toNat] := by
  rw [numeral, Nat.toDigits_of_base_le hb h, List.map_append, List.map_singleton, ← numeral]

theorem valueOf_concat (b : Nat) (s : Text) (c : Byte) :
    valueOf b (s ++ [c]) = valueOf b s * b + digitVal c := by
  rw [valueOf, List.foldl_append, List.foldl_cons, List.foldl_nil, ← valueOf]

/-- **A numeral has its number.** -/
theorem valueOf_numeral {b : Nat} (hb : 1 < b) (hb' : b ≤ 16) (n : Nat) :
    valueOf b (numeral b n) = n := by
  induction n using Nat.strongRecOn with
  | ind n ih =>
    rcases Nat.lt_or_ge n b with h | h
    · rw [numeral_of_lt h, ← List.nil_append [_], valueOf_concat, digitVal_digitChar (by omega)]
      simp [valueOf]
    · have hdiv : n / b < n := Nat.div_lt_self (by omega) hb
      have hmod : n % b < b := Nat.mod_lt n (by omega)
      rw [numeral_of_le hb h, valueOf_concat, ih _ hdiv, digitVal_digitChar (by omega)]
      exact Nat.div_add_mod' n b

theorem numeral_injective {b : Nat} (hb : 1 < b) (hb' : b ≤ 16) {n n' : Nat}
    (h : numeral b n = numeral b n') : n = n' := by
  rw [← valueOf_numeral hb hb' n, h, valueOf_numeral hb hb']

theorem numeral_ne_nil {b : Nat} (hb : 1 < b) (n : Nat) : numeral b n ≠ [] := by
  rcases Nat.lt_or_ge n b with h | h
  · simp [numeral_of_lt h]
  · simp [numeral_of_le hb h]

/-- A numeral is made of digits. -/
theorem digit_of_mem_numeral {b : Nat} (hb : 1 < b) (hb' : b ≤ 16) {n : Nat} :
    ∀ c ∈ numeral b n, digitVal c < b := by
  induction n using Nat.strongRecOn with
  | ind n ih =>
    intro c hc
    rcases Nat.lt_or_ge n b with h | h
    · rw [numeral_of_lt h, List.mem_singleton] at hc
      rw [hc, digitVal_digitChar (by omega)]
      exact h
    · have hmod : n % b < b := Nat.mod_lt n (by omega)
      rw [numeral_of_le hb h, List.mem_append, List.mem_singleton] at hc
      rcases hc with hc | hc
      · exact ih _ (Nat.div_lt_self (by omega) hb) c hc
      · rw [hc, digitVal_digitChar (by omega)]
        exact hmod

/-- A number below `b ^ k` has at most `k` digits. -/
theorem length_numeral_le {b n k : Nat} (hb : 1 < b) (hk : 0 < k) (h : n < b ^ k) :
    (numeral b n).length ≤ k := by
  induction k generalizing n with
  | zero => omega
  | succ k ih =>
    rcases Nat.lt_or_ge n b with hn | hn
    · rw [numeral_of_lt hn, List.length_singleton]
      omega
    · rcases Nat.eq_zero_or_pos k with rfl | hk'
      · rw [Nat.pow_one] at h
        omega
      · have hdiv : n / b < b ^ k := by
          rw [Nat.div_lt_iff_lt_mul (by omega), ← Nat.pow_succ]
          exact h
        have := ih hk' hdiv
        rw [numeral_of_le hb hn, List.length_append, List.length_singleton]
        omega

theorem not_isSpace_of_digit {c : Byte} (h : digitVal c < 16) : isSpace c = false := by
  have hall : ∀ c : BitVec 8, digitVal c < 16 → isSpace c = false := by decide
  exact hall c h

theorem not_isSpace_numeral {b : Nat} (hb : 1 < b) (hb' : b ≤ 16) {n : Nat} :
    ∀ c ∈ numeral b n, isSpace c = false := by
  intro c hc
  exact not_isSpace_of_digit (Nat.lt_of_lt_of_le (digit_of_mem_numeral hb hb' c hc) hb')

theorem not_isSpace_intNumeral {z : Int} : ∀ c ∈ intNumeral z, isSpace c = false := by
  intro c hc
  unfold intNumeral at hc
  split at hc
  · rcases List.mem_cons.mp hc with rfl | hc
    · decide
    · exact not_isSpace_numeral (by decide) (by decide) c hc
  · exact not_isSpace_numeral (by decide) (by decide) c hc

theorem intNumeral_injective {z z' : Int} (h : intNumeral z = intNumeral z') : z = z' := by
  -- a digit is no sign
  have hsign : ∀ n : Nat, ∀ s : Text, numeral 10 n ≠ 0x2d :: s := by
    intro n s hs
    have := digit_of_mem_numeral (by decide) (by decide) 0x2d (hs ▸ List.mem_cons_self)
    revert this
    decide
  have habs : z.natAbs = z'.natAbs ∧ (z < 0 ↔ z' < 0) := by
    unfold intNumeral at h
    by_cases hz : z < 0 <;> by_cases hz' : z' < 0
    · rw [if_pos hz, if_pos hz', List.cons.injEq] at h
      exact ⟨numeral_injective (by decide) (by decide) h.2, by simp [hz, hz']⟩
    · rw [if_pos hz, if_neg hz'] at h
      exact absurd h.symm (hsign _ _)
    · rw [if_neg hz, if_pos hz'] at h
      exact absurd h (hsign _ _)
    · rw [if_neg hz, if_neg hz'] at h
      exact ⟨numeral_injective (by decide) (by decide) h, by simp [hz, hz']⟩
  omega

/-! ## 2. Columns -/

/-- `%*s` -/
def padLeft (w : Nat) (s : Text) : Text := List.replicate (w - s.length) 0x20 ++ s

/-- `%-*s` -/
def padRight (w : Nat) (s : Text) : Text := s ++ List.replicate (w - s.length) 0x20

/-- A precision, or a field width with the flag `0`: digits `0` in front. -/
def padZero (w : Nat) (s : Text) : Text := List.replicate (w - s.length) 0x30 ++ s

theorem length_padZero (w : Nat) (s : Text) : (padZero w s).length = max w s.length := by
  rw [padZero, List.length_append, List.length_replicate]
  omega

/-- Digits `0` in front do not count. -/
theorem valueOf_padZero (b w : Nat) (s : Text) : valueOf b (padZero w s) = valueOf b s := by
  have hzero : ∀ n,
      (List.replicate n (0x30 : Byte)).foldl (fun n c => n * b + digitVal c) 0 = 0 := by
    intro n
    induction n with
    | zero => rfl
    | succ n ih =>
      have hdigit : digitVal 0x30 = 0 := by decide
      rw [List.replicate_succ, List.foldl_cons, hdigit, Nat.zero_mul]
      exact ih
  rw [valueOf, padZero, List.foldl_append, hzero, ← valueOf]

theorem takeWhile_token {s t : Text} (hs : ∀ c ∈ s, isSpace c = false)
    (ht : ∀ c, t.head? = some c → isSpace c = true) :
    (s ++ t).takeWhile (fun c => !isSpace c) = s := by
  rw [List.takeWhile_append_of_pos (by simpa using hs)]
  cases t with
  | nil => rw [List.takeWhile_nil, List.append_nil]
  | cons c t => rw [List.takeWhile_cons_of_neg (by simpa using ht c rfl), List.append_nil]

theorem dropWhile_token {s t : Text} (hs : ∀ c ∈ s, isSpace c = false)
    (ht : ∀ c, t.head? = some c → isSpace c = true) :
    (s ++ t).dropWhile (fun c => !isSpace c) = t := by
  rw [List.dropWhile_append_of_pos (by simpa using hs)]
  cases t with
  | nil => rfl
  | cons c t => rw [List.dropWhile_cons_of_neg (by simpa using ht c rfl)]

/-- What is behind the text of a column, up to a blank behind the column, starts with a blank. -/
theorem isSpace_behind {b : Byte} (hb : isSpace b = true) (n : Nat) (t : Text) (c : Byte)
    (h : (List.replicate n (0x20 : Byte) ++ b :: t).head? = some c) : isSpace c = true := by
  cases n with
  | zero =>
    obtain rfl : b = c := by simpa using h
    exact hb
  | succ n =>
    obtain rfl : (0x20 : Byte) = c := by simpa [List.replicate_succ] using h
    decide

/-- **A column is read back, and so is what is behind it.** -/
theorem padRight_append_inj {b : Byte} (hb : isSpace b = true) {w : Nat} {s s' t t' : Text}
    (hs : ∀ c ∈ s, isSpace c = false) (hs' : ∀ c ∈ s', isSpace c = false)
    (h : padRight w s ++ b :: t = padRight w s' ++ b :: t') : s = s' ∧ t = t' := by
  rw [padRight, padRight, List.append_assoc, List.append_assoc] at h
  have htoken : s = s' := by
    have := congrArg (List.takeWhile fun c => !isSpace c) h
    rwa [takeWhile_token hs (isSpace_behind hb _ t),
      takeWhile_token hs' (isSpace_behind hb _ t')] at this
  subst htoken
  have htail := List.append_cancel_left (List.append_cancel_left h)
  exact ⟨rfl, (List.cons.inj htail).2⟩

/-! ## 3. Conversions -/

/-- One directive of a format. -/
inductive Directive
  /-- a byte that has to be there -/
  | byte (c : Byte)
  /-- blanks, any number of them and also none -/
  | space
  /-- `%s` -/
  | str
  /-- `%x`, with any length modifier -/
  | hex
  deriving DecidableEq

/-- A completed conversion.  A number is cut to the width of its variable by the caller. -/
inductive Conversion
  | str (s : Text)
  | num (n : Nat)
  deriving DecidableEq

/-- `skip_spaces` -/
def skipSpaces (s : Text) : Text := s.dropWhile isSpace

/-- `strim` -/
def strim (s : Text) : Text := skipSpaces (s.reverse.dropWhile isSpace).reverse

/-- `_parse_integer_fixup_radix`: the `0x` in front of the digits is skipped. -/
def skipRadix : Text → Text
  | c :: x :: s => if c = 0x30 ∧ (x = 0x78 ∨ x = 0x58) then s else c :: x :: s
  | s => s

/-- `sscanf`: the conversions that are completed before the text or the format ends. -/
def sscanf : List Directive → Text → List Conversion
  | [], _ => []
  | .byte _ :: _, [] => []
  | .byte c :: fmt, x :: s => if x = c then sscanf fmt s else []
  | .space :: fmt, s => sscanf fmt (skipSpaces s)
  | .str :: fmt, s =>
    if s = [] then []
    else
      let s := skipSpaces s
      .str (s.takeWhile fun c => !isSpace c) :: sscanf fmt (s.dropWhile fun c => !isSpace c)
  | .hex :: fmt, s =>
    if s = [] then []
    else
      match skipSpaces s with
      | [] => []
      | c :: s =>
        if digitVal c < 16 then
          let digits := skipRadix (c :: s)
          .num (valueOf 16 (digits.takeWhile fun c => digitVal c < 16)) ::
            sscanf fmt (digits.dropWhile fun c => digitVal c < 16)
        else []

/-- The number in the text is `n`: hexadecimal digits, perhaps behind a `0x`. -/
def IsHex (s : Text) (n : Nat) : Prop :=
  ∃ radix digits, (radix = [] ∨ radix = [0x30, 0x78] ∨ radix = [0x30, 0x58]) ∧ digits ≠ [] ∧
    (∀ c ∈ digits, digitVal c < 16) ∧ s = radix ++ digits ∧ valueOf 16 digits = n

theorem isHex_numeral (n : Nat) : IsHex (numeral 16 n) n :=
  ⟨[], numeral 16 n, Or.inl rfl, numeral_ne_nil (by decide) n,
    digit_of_mem_numeral (by decide) (by decide), rfl, valueOf_numeral (by decide) (by decide) n⟩

/-- Blanks, and at least one of them. -/
def Blanks (w : Text) : Prop := w ≠ [] ∧ ∀ c ∈ w, isSpace c = true

/-- The text does not start with a blank. -/
def NoBlankFirst (s : Text) : Prop := ∀ c, s.head? = some c → isSpace c = false

theorem skipSpaces_append {w s : Text} (hw : ∀ c ∈ w, isSpace c = true) (hs : NoBlankFirst s) :
    skipSpaces (w ++ s) = s := by
  rw [skipSpaces, List.dropWhile_append_of_pos hw]
  cases s with
  | nil => rfl
  | cons c s => rw [List.dropWhile_cons_of_neg (by simp [hs c rfl])]

theorem skipSpaces_of_noBlankFirst {s : Text} (hs : NoBlankFirst s) : skipSpaces s = s :=
  skipSpaces_append (w := []) (by simp) hs

theorem noBlankFirst_append {s t : Text} (hne : s ≠ []) (hs : ∀ c ∈ s, isSpace c = false) :
    NoBlankFirst (s ++ t) := by
  intro c hc
  cases s with
  | nil => exact absurd rfl hne
  | cons d s =>
    obtain rfl : d = c := by simpa using hc
    exact hs d List.mem_cons_self

theorem Blanks.first {w : Text} (hw : Blanks w) (t : Text) (c : Byte)
    (hc : (w ++ t).head? = some c) : isSpace c = true := by
  obtain ⟨hne, hall⟩ := hw
  cases w with
  | nil => exact absurd rfl hne
  | cons d w =>
    obtain rfl : d = c := by simpa using hc
    exact hall d List.mem_cons_self

/-- The bytes of a number are no blanks and no `NUL`. -/
theorem IsHex.plain {x : Text} {n : Nat} (hx : IsHex x n) :
    x ≠ [] ∧ (∀ c ∈ x, isSpace c = false) ∧ ∀ c ∈ x, c ≠ 0 := by
  have hdigit : ∀ c : BitVec 8, digitVal c < 16 → c ≠ 0 := by decide
  have hmark : ∀ c ∈ ([0x30, 0x78, 0x58] : Text), isSpace c = false ∧ c ≠ 0 := by decide
  obtain ⟨radix, digits, hradix, hne, hd, rfl, -⟩ := hx
  have hall : ∀ c ∈ radix ++ digits, isSpace c = false ∧ c ≠ 0 := by
    intro c hc
    rcases List.mem_append.mp hc with hc | hc
    · apply hmark
      rcases hradix with rfl | rfl | rfl
      · cases hc
      · simp only [List.mem_cons, List.not_mem_nil, or_false] at hc ⊢
        exact hc.imp_right Or.inl
      · simp only [List.mem_cons, List.not_mem_nil, or_false] at hc ⊢
        exact hc.imp_right Or.inr
    · exact ⟨not_isSpace_of_digit (hd c hc), hdigit c (hd c hc)⟩
  exact ⟨by simp [hne], fun c hc => (hall c hc).1, fun c hc => (hall c hc).2⟩

/-- **Trimming** leaves what is between the blanks. -/
theorem strim_append {w w' s : Text} (hw : ∀ c ∈ w, isSpace c = true)
    (hw' : ∀ c ∈ w', isSpace c = true) (hs : NoBlankFirst s) (hs' : NoBlankFirst s.reverse) :
    strim (w ++ s ++ w') = s := by
  rcases eq_or_ne s [] with rfl | hne
  · have hall : ∀ c ∈ (w ++ [] ++ w').reverse, isSpace c = true := by
      intro c hc
      have hc' : c ∈ w' ∨ c ∈ w := by simpa using hc
      exact hc'.elim (hw' c) (hw c)
    rw [strim, List.dropWhile_eq_nil_iff.mpr hall]
    rfl
  · have hend : ((w ++ s ++ w').reverse.dropWhile isSpace).reverse = w ++ s := by
      have hfirst : NoBlankFirst (w ++ s).reverse := by
        intro c hc
        rw [List.reverse_append, List.head?_append_of_ne_nil _ (by simpa using hne)] at hc
        exact hs' c hc
      have hback : ∀ c ∈ w'.reverse, isSpace c = true := fun c hc => hw' c (by simpa using hc)
      rw [List.reverse_append]
      exact (congrArg List.reverse (skipSpaces_append hback hfirst)).trans (List.reverse_reverse _)
    rw [strim, hend, skipSpaces_append hw hs]

/-- The bytes of the format are there. -/
theorem sscanf_bytes (w : Text) (fmt : List Directive) (s : Text) :
    sscanf (w.map .byte ++ fmt) (w ++ s) = sscanf fmt s := by
  induction w with
  | nil => rfl
  | cons c w ih =>
    rw [List.map_cons, List.cons_append, List.cons_append, sscanf, if_pos rfl]
    exact ih

theorem sscanf_space {w s : Text} (hw : ∀ c ∈ w, isSpace c = true) (hs : NoBlankFirst s)
    (fmt : List Directive) : sscanf (.space :: fmt) (w ++ s) = sscanf fmt s := by
  rw [sscanf, skipSpaces_append hw hs]

theorem sscanf_str {name s : Text} (hne : name ≠ []) (hname : ∀ c ∈ name, isSpace c = false)
    (hs : ∀ c, s.head? = some c → isSpace c = true) (fmt : List Directive) :
    sscanf (.str :: fmt) (name ++ s) = .str name :: sscanf fmt s := by
  have hfirst : NoBlankFirst (name ++ s) := by
    intro c hc
    cases name with
    | nil => exact absurd rfl hne
    | cons d name =>
      obtain rfl : d = c := by simpa using hc
      exact hname d List.mem_cons_self
  have hnil : name ++ s ≠ [] := by simp [hne]
  rw [sscanf, if_neg hnil, skipSpaces_of_noBlankFirst hfirst]
  simp only [takeWhile_token hname hs, dropWhile_token hname hs]

theorem takeWhile_digits {s t : Text} (hs : ∀ c ∈ s, digitVal c < 16)
    (ht : ∀ c, t.head? = some c → isSpace c = true) :
    (s ++ t).takeWhile (fun c => digitVal c < 16) = s ∧
      (s ++ t).dropWhile (fun c => digitVal c < 16) = t := by
  have hstop : ∀ c, t.head? = some c → ¬ digitVal c < 16 := by
    intro c hc hd
    exact absurd ((not_isSpace_of_digit hd).symm.trans (ht c hc)) (by decide)
  rw [List.takeWhile_append_of_pos (by simpa using hs),
    List.dropWhile_append_of_pos (by simpa using hs)]
  cases t with
  | nil => simp
  | cons c t => simp [hstop c rfl]

/-- Digits are not taken for the mark of the base. -/
theorem skipRadix_digits {digits t : Text} (hd : ∀ c ∈ digits, digitVal c < 16)
    (ht : ∀ c, t.head? = some c → isSpace c = true) (hne : digits ≠ []) :
    skipRadix (digits ++ t) = digits ++ t := by
  have hmark : ∀ c : BitVec 8, c = 0x78 ∨ c = 0x58 → ¬ digitVal c < 16 ∧ isSpace c = false := by
    rintro c (rfl | rfl) <;> decide
  match digits, hne with
  | [c], _ =>
    cases t with
    | nil => rfl
    | cons y t =>
      have hy : ¬ (y = 0x78 ∨ y = 0x58) := by
        intro h
        exact absurd ((hmark y h).2.symm.trans (ht y rfl)) (by decide)
      exact if_neg fun h => hy h.2
  | c :: y :: digits, _ =>
    have hy : ¬ (y = 0x78 ∨ y = 0x58) := fun h => (hmark y h).1 (hd y (by simp))
    exact if_neg fun h => hy h.2

/-- The conversion of a number that starts with `c`. -/
theorem sscanf_hex_cons {c : Byte} {s : Text} (hc : digitVal c < 16) (fmt : List Directive) :
    sscanf (.hex :: fmt) (c :: s) =
      .num (valueOf 16 ((skipRadix (c :: s)).takeWhile fun c => digitVal c < 16)) ::
        sscanf fmt ((skipRadix (c :: s)).dropWhile fun c => digitVal c < 16) := by
  have hfirst : NoBlankFirst (c :: s) := by
    intro d hd
    obtain rfl : c = d := by simpa using hd
    exact not_isSpace_of_digit hc
  rw [sscanf, if_neg (List.cons_ne_nil c s), skipSpaces_of_noBlankFirst hfirst]
  simp only [hc, if_true]

theorem sscanf_hex {x s : Text} {n : Nat} (hx : IsHex x n)
    (hs : ∀ c, s.head? = some c → isSpace c = true) (fmt : List Directive) :
    sscanf (.hex :: fmt) (x ++ s) = .num n :: sscanf fmt s := by
  obtain ⟨radix, digits, hradix, hne, hd, rfl, rfl⟩ := hx
  obtain ⟨htake, hdrop⟩ := takeWhile_digits hd hs
  have hskip : skipRadix (radix ++ digits ++ s) = digits ++ s := by
    rcases hradix with rfl | rfl | rfl
    · exact skipRadix_digits hd hs hne
    · rfl
    · rfl
  -- the first byte is a digit, also where it belongs to the mark
  obtain ⟨c, t, heq, hc⟩ : ∃ c t, radix ++ digits ++ s = c :: t ∧ digitVal c < 16 := by
    rcases hradix with rfl | rfl | rfl
    · cases digits with
      | nil => exact absurd rfl hne
      | cons c digits => exact ⟨c, digits ++ s, rfl, hd c List.mem_cons_self⟩
    · exact ⟨0x30, 0x78 :: (digits ++ s), rfl, by decide⟩
    · exact ⟨0x30, 0x58 :: (digits ++ s), rfl, by decide⟩
  rw [heq, sscanf_hex_cons hc, ← heq, hskip, htake, hdrop]

/-! ## 4. Printing -/

/-- A format whose only conversion is `%s`, with its arguments. -/
def formatS : Text → List Text → Text
  | c :: d :: fmt, arg :: args =>
    if c = 0x25 ∧ d = 0x73 then arg ++ formatS fmt args else c :: formatS (d :: fmt) (arg :: args)
  | fmt, _ => fmt

theorem length_formatS_le (fmt : Text) (args : List Text) :
    (formatS fmt args).length ≤ fmt.length + (args.map List.length).sum := by
  fun_induction formatS fmt args with
  | case1 c d fmt arg args hconv ih =>
    simp only [List.length_append, List.length_cons, List.map_cons, List.sum_cons]
    omega
  | case2 c d fmt arg args hconv ih =>
    simp only [List.length_cons, List.map_cons, List.sum_cons] at ih ⊢
    omega
  | case3 => exact Nat.le_add_right _ _

/-- The string that `snprintf` leaves in a buffer of `size` bytes. -/
def bounded (size : Nat) (s : Text) : Text := s.take (size - 1)

theorem bounded_of_lt {size : Nat} {s : Text} (h : s.length < size) : bounded size s = s :=
  List.take_of_length_le (by omega)

/-! ## 5. Buffers -/

/-- `snprintf` of a formatted text: the memory, and the length of the whole text.  A size that is
negative as an `int` is one that the kernel's `snprintf` refuses. -/
def snprintf (m : Mem) (p : Nat) (size : Int) (s : Text) : Mem × Nat :=
  if size < 0 then (m, 0)
  else if size = 0 then (m, s.length)
  else (write m p (s.take (size.toNat - 1) ++ [0]), s.length)

/-- A text that fits is stored whole, with the `NUL`. -/
theorem snprintf_of_lt {m : Mem} {p : Nat} {size : Int} {s : Text} (h : (s.length : Int) < size) :
    snprintf m p size s = (write m p (s ++ [0]), s.length) := by
  rw [snprintf, if_neg (by omega), if_neg (by omega), List.take_of_length_le (by omega)]

/-- The text is in memory at `p`, with the `NUL`. -/
structure Printed (m : Mem) (p : Nat) (s : Text) : Prop where
  text : read m p s.length = s
  nul : m (p + s.length) = 0

theorem printed_write (m : Mem) (p : Nat) (s : Text) : Printed (write m p (s ++ [0])) p s := by
  have hself := read_write_self m p (s ++ [0])
  rw [List.length_append, read_add] at hself
  refine ⟨(List.append_inj hself (length_read ..)).1, ?_⟩
  exact (write_of_mem (by omega) (by simp)).trans (by simp)

/-- **Printing behind what was printed** adds to the text in the buffer. -/
theorem Printed.snprintf {m : Mem} {p : Nat} {size : Int} {s t : Text} (h : Printed m p s)
    (hsize : (t.length : Int) < size) :
    Printed (CText.snprintf m (p + s.length) size t).1 p (s ++ t) := by
  rw [snprintf_of_lt hsize]
  have hnew := printed_write m (p + s.length) t
  constructor
  · rw [List.length_append, read_add, hnew.text,
      read_write_of_disjoint (Or.inl (Nat.le_refl _)), h.text]
  · rw [List.length_append, ← Nat.add_assoc]
    exact hnew.nul

/-! ## 6. One text behind the other -/

/-- `len += snprintf(p + len, size - len, …)`: the memory, and `len`. -/
def printOn (p : Nat) (size : Int) (acc : Mem × Nat) (s : Text) : Mem × Nat :=
  let printed := snprintf acc.1 (p + acc.2) (size - acc.2) s
  (printed.1, acc.2 + printed.2)

/-- What was printed before is too long: nothing is printed any more. -/
theorem printOn_of_lt {p : Nat} {size : Int} {acc : Mem × Nat} (h : size < acc.2) (s : Text) :
    printOn p size acc s = acc := by
  rw [printOn, snprintf, if_pos (by omega)]
  rfl

theorem printOn_snd_of_le {p : Nat} {size : Int} {acc : Mem × Nat} (h : acc.2 ≤ size) (s : Text) :
    (printOn p size acc s).2 = acc.2 + s.length := by
  rw [printOn, snprintf, if_neg (by omega)]
  dsimp only
  split
  · rfl
  · rfl

theorem foldl_printOn_of_lt {p : Nat} {size : Int} {acc : Mem × Nat} (h : size < acc.2)
    (ss : List Text) : ss.foldl (printOn p size) acc = acc := by
  induction ss with
  | nil => rfl
  | cons s ss ih => rw [List.foldl_cons, printOn_of_lt h, ih]

/-- **The length that is added up** is that of all texts, unless it exceeds the size, as that of
all texts does then. -/
theorem foldl_printOn_snd (p : Nat) {size : Int} {acc : Mem × Nat} (h : acc.2 ≤ size)
    (ss : List Text) :
    (ss.foldl (printOn p size) acc).2 = acc.2 + ss.flatten.length ∨
      size < (ss.foldl (printOn p size) acc).2 ∧
        size < ((acc.2 + ss.flatten.length : Nat) : Int) := by
  induction ss generalizing acc with
  | nil => exact Or.inl rfl
  | cons s ss ih =>
    have hlen := printOn_snd_of_le (p := p) h s
    rw [List.foldl_cons, List.flatten_cons, List.length_append, ← Nat.add_assoc, ← hlen]
    by_cases hle : ((printOn p size acc s).2 : Int) ≤ size
    · exact ih hle
    · rw [foldl_printOn_of_lt (by omega)]
      exact Or.inr ⟨by omega, by omega⟩

/-- **All is stored inside the buffer.** -/
theorem snprintf_of_not_mem {m : Mem} {p i : Nat} {size : Int} (s : Text)
    (h : i < p ∨ (p : Int) + size ≤ i) : (snprintf m p size s).1 i = m i := by
  unfold snprintf
  split
  · rfl
  · split
    · rfl
    · refine write_of_not_mem ?_
      rw [List.length_append, List.length_take, List.length_singleton]
      omega

theorem foldl_printOn_of_not_mem {p i : Nat} {size : Int} (acc : Mem × Nat) (ss : List Text)
    (h : i < p ∨ (p : Int) + size ≤ i) : (ss.foldl (printOn p size) acc).1 i = acc.1 i := by
  induction ss generalizing acc with
  | nil => rfl
  | cons s ss ih =>
    rw [List.foldl_cons, ih]
    exact snprintf_of_not_mem s (by omega)

/-- **With room for all of it**, the texts are in the buffer. -/
theorem Printed.foldl_printOn {m : Mem} {p : Nat} {size : Int} {t : Text} (h : Printed m p t)
    (ss : List Text) (hsize : ((t ++ ss.flatten).length : Int) < size) :
    Printed (ss.foldl (printOn p size) (m, t.length)).1 p (t ++ ss.flatten) ∧
      (ss.foldl (printOn p size) (m, t.length)).2 = (t ++ ss.flatten).length := by
  induction ss generalizing m t with
  | nil => exact ⟨by simpa using h, by simp⟩
  | cons s ss ih =>
    rw [List.flatten_cons, ← List.append_assoc] at hsize ⊢
    have hfits : (s.length : Int) < size - t.length := by
      simp only [List.length_append] at hsize
      omega
    have hstep : printOn p size (m, t.length) s =
        ((CText.snprintf m (p + t.length) (size - t.length) s).1, (t ++ s).length) := by
      rw [printOn, List.length_append]
      simp only [snprintf_of_lt hfits]
    rw [List.foldl_cons, hstep]
    exact ih (h.snprintf hfits) hsize

/-- The same from the start of the buffer. -/
theorem printed_foldl_printOn (m : Mem) (p : Nat) {size : Int} {ss : List Text} (hss : ss ≠ [])
    (hsize : (ss.flatten.length : Int) < size) :
    Printed (ss.foldl (printOn p size) (m, 0)).1 p ss.flatten ∧
      (ss.foldl (printOn p size) (m, 0)).2 = ss.flatten.length := by
  obtain ⟨s, ss, rfl⟩ := List.exists_cons_of_ne_nil hss
  have hfits : (s.length : Int) < size := by
    rw [List.flatten_cons, List.length_append] at hsize
    omega
  have hfirst : printOn p size (m, 0) s = (write m p (s ++ [0]), s.length) := by
    simp [printOn, snprintf_of_lt hfits]
  rw [List.foldl_cons, hfirst]
  exact (printed_write m p s).foldl_printOn ss hsize

/-- **With room for all of it but the `NUL`**, the last byte is lost to the `NUL`. -/
theorem printOn_last {m : Mem} {p n : Nat} {size : Int} {s : Text} (hs : s ≠ [])
    (h : size = n + s.length) : (printOn p size (m, n) s).1 (p + size.toNat - 1) = 0 := by
  have hpos := List.length_pos_iff.mpr hs
  have hlen : (s.take (s.length - 1)).length = s.length - 1 := by
    rw [List.length_take]
    omega
  have hsize : (size - n).toNat = s.length := by omega
  have hat : p + size.toNat - 1 - (p + n) = s.length - 1 := by omega
  rw [printOn, snprintf, if_neg (by omega), if_neg (by omega), hsize]
  dsimp only
  rw [write_of_mem (by omega), hat, List.getD_eq_getElem?_getD,
    List.getElem?_append_right (Nat.le_of_eq hlen), hlen, Nat.sub_self]
  · rfl
  · rw [List.length_append, hlen, List.length_singleton]
    omega

end CText
