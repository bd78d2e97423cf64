/-
# Bytes in hexadecimal

A dump shows a byte as two digits, and blanks behind them.  `hexRow` is a row of such bytes, with
the digits of a byte and the blanks behind column `j` as parameters.  `decodeHex` reads pairs of
digits, whatever blanks are around them, so that a row is read back (`decodeHex_row`).
-/
import Puppies.Lib.CText

namespace HexText

open ByteMem CText

/-- A way to write bytes: two digits for each. -/
def IsPair (pair : Byte → Text) : Prop := ∀ b : Byte, ∃ c d, pair b = [c, d] ∧
  digitVal c = b.toNat / 16 ∧ digitVal d = b.toNat % 16

/-- The bytes of a text of pairs of digits. -/
def decodeHex : Text → List Byte
  | c :: d :: s =>
    if isSpace c then decodeHex (d :: s)
    else BitVec.ofNat 8 (digitVal c * 16 + digitVal d) :: decodeHex s
  | _ => []

/-- A row, from column `n` on. -/
def hexRow (pair : Byte → Text) (gap : Nat → Text) (n : Nat) (bs : List Byte) : Text :=
  (bs.zipIdx n).flatMap fun x => pair x.1 ++ gap x.2

/-- `%02x` -/
def hex02 (b : Byte) : Text := padZero 2 (numeral 16 b.toNat)

theorem isPair_hex02 : IsPair hex02 := by
  intro b
  have hb : b.toNat < 256 := b.isLt
  rcases Nat.lt_or_ge b.toNat 16 with hlt | hge
  · have hzero : b.toNat / 16 = 0 := Nat.div_eq_of_lt hlt
    have hmod : b.toNat % 16 = b.toNat := Nat.mod_eq_of_lt hlt
    rw [hex02, numeral_of_lt hlt]
    exact ⟨0x30, _, rfl, by rw [hzero]; rfl, by rw [hmod]; exact digitVal_digitChar hlt⟩
  · have hdiv : b.toNat / 16 < 16 := by omega
    have hmod : b.toNat % 16 < 16 := by omega
    rw [hex02, numeral_of_le (by decide) hge, numeral_of_lt hdiv]
    exact ⟨_, _, rfl, digitVal_digitChar hdiv, digitVal_digitChar hmod⟩

@[simp] theorem hexRow_nil (pair : Byte → Text) (gap : Nat → Text) (n : Nat) :
    hexRow pair gap n [] = [] := rfl

theorem hexRow_cons (pair : Byte → Text) (gap : Nat → Text) (n : Nat) (b : Byte)
    (bs : List Byte) :
    hexRow pair gap n (b :: bs) = pair b ++ (gap n ++ hexRow pair gap (n + 1) bs) := by
  simp [hexRow]

/-! ## 1. Reading a row -/

theorem decodeHex_space {c : Byte} (hc : isSpace c = true) (s : Text) :
    decodeHex (c :: s) = decodeHex s := by
  cases s with
  | nil => rfl
  | cons d s => rw [decodeHex, if_pos hc]

theorem decodeHex_spaces {w : Text} (hw : ∀ c ∈ w, isSpace c = true) (s : Text) :
    decodeHex (w ++ s) = decodeHex s := by
  induction w with
  | nil => rfl
  | cons c w ih =>
    rw [List.forall_mem_cons] at hw
    rw [List.cons_append, decodeHex_space hw.1, ih hw.2]

theorem decodeHex_pair {pair : Byte → Text} (hpair : IsPair pair) (b : Byte) (s : Text) :
    decodeHex (pair b ++ s) = b :: decodeHex s := by
  obtain ⟨c, d, hcd, hc, hd⟩ := hpair b
  have hb : b.toNat < 256 := b.isLt
  have hdigit : ¬ isSpace c = true := by
    rw [not_isSpace_of_digit (by omega)]
    exact Bool.false_ne_true
  rw [hcd, List.cons_append, List.singleton_append, decodeHex, if_neg hdigit, hc, hd,
    Nat.div_add_mod', BitVec.ofNat_toNat, BitVec.setWidth_eq]

/-- **A row is read back.** -/
theorem decodeHex_row {pair : Byte → Text} {gap : Nat → Text} (hpair : IsPair pair)
    (hgap : ∀ j, ∀ c ∈ gap j, isSpace c = true) (n : Nat) (bs : List Byte) (s : Text) :
    decodeHex (hexRow pair gap n bs ++ s) = bs ++ decodeHex s := by
  induction bs generalizing n with
  | nil => rfl
  | cons b bs ih =>
    rw [hexRow_cons, List.append_assoc, List.append_assoc, decodeHex_pair hpair,
      decodeHex_spaces (hgap n), ih, List.cons_append]

/-- A row with blanks behind it. -/
theorem decodeHex_row_blanks {pair : Byte → Text} {gap : Nat → Text} (hpair : IsPair pair)
    (hgap : ∀ j, ∀ c ∈ gap j, isSpace c = true) (bs : List Byte) (w : Nat) :
    decodeHex (hexRow pair gap 0 bs ++ List.replicate w 0x20) = bs := by
  have hblank : ∀ c ∈ List.replicate w (0x20 : Byte), isSpace c = true := by
    intro c hc
    rw [List.eq_of_mem_replicate hc]
    decide
  have hrest := decodeHex_spaces hblank []
  rw [List.append_nil] at hrest
  rw [decodeHex_row hpair hgap, hrest]
  exact List.append_nil bs

/-! ## 2. Writing a row -/

theorem hexRow_concat (pair : Byte → Text) (gap : Nat → Text) (bs : List Byte) (b : Byte) :
    hexRow pair gap 0 (bs ++ [b]) = hexRow pair gap 0 bs ++ (pair b ++ gap bs.length) := by
  simp [hexRow, List.zipIdx_append]

theorem of_mem_hexRow {pair : Byte → Text} {gap : Nat → Text} (hpair : IsPair pair) {n : Nat}
    {bs : List Byte} {c : Byte} (hc : c ∈ hexRow pair gap n bs) :
    digitVal c < 16 ∨ ∃ j, c ∈ gap j := by
  obtain ⟨x, -, hx⟩ := List.mem_flatMap.mp hc
  rcases List.mem_append.mp hx with hdigit | hgap
  · obtain ⟨d, d', hdd, hd, hd'⟩ := hpair x.1
    have hb : x.1.toNat < 256 := x.1.isLt
    rw [hdd, List.mem_cons, List.mem_singleton] at hdigit
    rcases hdigit with rfl | rfl
    · exact Or.inl (by omega)
    · exact Or.inl (by omega)
  · exact Or.inr ⟨x.2, hgap⟩

theorem length_pair {pair : Byte → Text} (hpair : IsPair pair) (b : Byte) :
    (pair b).length = 2 := by
  obtain ⟨c, d, hcd, -⟩ := hpair b
  rw [hcd]
  rfl

end HexText
