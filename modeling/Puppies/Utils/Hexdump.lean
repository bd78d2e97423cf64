/-
# `hexdump` (`libs/utils/src/utils.c`)

`hexdump` goes through an array byte by byte and builds a line in three strings: the address, the
digits and the characters.  A line is printed when it has 16 bytes, and what is left at the end.

The bytes can be read back from the digits, and no string is too short for what is put into it.
But the address is printed through `%4.4s`, which keeps the FIRST four digits: from the line at
0x10000 on, with five of them, it is that of another line (`hexdump_iff`).
-/
import Mathlib.Data.List.Induction
import Puppies.Lib.HexText

namespace Puppies

open ByteMem CText HexText

/-! ## 1. The loop -/

/-- The strings, the lines that have been printed, and what was put into the strings: the size of
the array, and how many bytes of it were needed. -/
structure DumpState where
  addrstr : CText.Text
  hexstr : CText.Text
  charstr : CText.Text
  lines : List CText.Text
  fills : List (Nat × Nat)

/-- `"[%4.4s]   %-50.50s  %s\n"` -/
def dumpLine (addrstr hexstr charstr : CText.Text) : CText.Text :=
  lit "[" ++ padLeft 4 (addrstr.take 4) ++ lit "]   " ++ padRight 50 (hexstr.take 50) ++ lit "  " ++
    charstr ++ lit "\n"

/-- The address of the byte at `i`, with `"%.4x"`. -/
def addrText (i : Nat) : CText.Text := padZero 4 (numeral 16 (i % 2 ^ 32))

/-- What is shown of a byte. -/
def shownChar (c : Byte) : Byte := if c < 0x21 ∨ 0x7d < c then 0x2e else c

/-- What was put into an array of this size. -/
def DumpState.note (st : DumpState) (size length : Nat) : DumpState :=
  { st with fills := (size, length + 1) :: st.fills }

/-- `snprintf(addrstr, sizeof(addrstr), "%.4x", …)` -/
def printAddr (i : Nat) (st : DumpState) : DumpState :=
  { st.note 10 (addrText i).length with addrstr := (addrText i).take 9 }

/-- `snprintf(bytestr, sizeof(bytestr), …)`: the string. -/
def bytestr (s : CText.Text) (st : DumpState) : CText.Text × DumpState :=
  (s.take 3, st.note 4 s.length)

/-- `strncat(hexstr, s, sizeof(hexstr)-strlen(hexstr)-1)` -/
def catHex (s : CText.Text) (st : DumpState) : DumpState :=
  { st.note 53 (st.hexstr.length + s.length) with
    hexstr := st.hexstr ++ s.take (53 - st.hexstr.length - 1) }

/-- `strncat(charstr, s, sizeof(charstr)-strlen(charstr)-1)` -/
def catChar (s : CText.Text) (st : DumpState) : DumpState :=
  { st.note 21 (st.charstr.length + s.length) with
    charstr := st.charstr ++ s.take (21 - st.charstr.length - 1) }

/-- `fprintf` -/
def printLine (st : DumpState) : DumpState :=
  { st with lines := st.lines ++ [dumpLine st.addrstr st.hexstr st.charstr] }

/-- The first half of a turn of the loop, with `n = i + 1`: the byte is added to the line. -/
def putByte (i : Nat) (p : Byte) (st : DumpState) : DumpState :=
  let st := if (i + 1) % 16 = 1 then printAddr i st else st
  let (s, st) := bytestr (hex02 p ++ lit " ") st
  let st := catHex s st
  let (s, st) := bytestr [shownChar p] st
  catChar s st

/-- One turn of the loop. -/
def dumpByte (i : Nat) (p : Byte) (st : DumpState) : DumpState :=
  let n := i + 1
  let st := putByte i p st
  if n % 16 = 0 then { printLine st with hexstr := [], charstr := [] }
  else if n % 8 = 0 then catChar (lit " ") (catHex (lit "  ") st)
  else st

/-- The loop, from offset `i` on. -/
def dumpBytes : Nat → List Byte → DumpState → DumpState
  | _, [], st => st
  | i, p :: ps, st => dumpBytes (i + 1) ps (dumpByte i p st)

/-- `hexdump`, with `size` the length of the array.  (It is an `int`.) -/
def hexdump (data : List Byte) : DumpState :=
  let st := dumpBytes 0 data ⟨[], [], [], [], []⟩
  if 0 < st.hexstr.length then printLine st else st

/-! ## 2. One byte -/

/-- The strings and the lines, and that everything that was put into an array had room in it. -/
structure DumpHas (st : DumpState) (addrstr hexstr charstr : CText.Text)
    (lines : List CText.Text) : Prop where
  addrstr : st.addrstr = addrstr
  hexstr : st.hexstr = hexstr
  charstr : st.charstr = charstr
  lines : st.lines = lines
  fits : ∀ f ∈ st.fills, f.2 ≤ f.1

section Has

variable {st : DumpState} {a h c : CText.Text} {ls : List CText.Text}

theorem DumpHas.note (hst : DumpHas st a h c ls) {size length : Nat} (hle : length + 1 ≤ size) :
    DumpHas (st.note size length) a h c ls :=
  ⟨hst.addrstr, hst.hexstr, hst.charstr, hst.lines, List.forall_mem_cons.mpr ⟨hle, hst.fits⟩⟩

theorem length_addrText_le (i : Nat) : (addrText i).length ≤ 8 := by
  have hdigits : (numeral 16 (i % 2 ^ 32)).length ≤ 8 :=
    length_numeral_le (by decide) (by decide) (Nat.mod_lt i (by decide))
  rw [addrText, length_padZero]
  omega

theorem DumpHas.printAddr (hst : DumpHas st a h c ls) (i : Nat) :
    DumpHas (printAddr i st) (addrText i) h c ls := by
  have hlen := length_addrText_le i
  have hnote := hst.note (Nat.le_trans (Nat.succ_le_succ hlen) (by decide : 9 ≤ 10))
  exact ⟨List.take_of_length_le (by omega), hnote.hexstr, hnote.charstr, hnote.lines, hnote.fits⟩

theorem DumpHas.catHex (hst : DumpHas st a h c ls) {s : CText.Text}
    (hle : h.length + s.length < 53) :
    DumpHas (catHex s st) a (h ++ s) c ls := by
  have hfits : st.hexstr.length + s.length + 1 ≤ 53 := by
    rw [hst.hexstr]
    exact hle
  have hnote := hst.note hfits
  refine ⟨hnote.addrstr, ?_, hnote.charstr, hnote.lines, hnote.fits⟩
  rw [Puppies.catHex, hst.hexstr]
  exact congrArg (h ++ ·) (List.take_of_length_le (by omega))

theorem DumpHas.catChar (hst : DumpHas st a h c ls) {s : CText.Text}
    (hle : c.length + s.length < 21) :
    DumpHas (catChar s st) a h (c ++ s) ls := by
  have hfits : st.charstr.length + s.length + 1 ≤ 21 := by
    rw [hst.charstr]
    exact hle
  have hnote := hst.note hfits
  refine ⟨hnote.addrstr, hnote.hexstr, ?_, hnote.lines, hnote.fits⟩
  rw [Puppies.catChar, hst.charstr]
  exact congrArg (c ++ ·) (List.take_of_length_le (by omega))

theorem DumpHas.printLine (hst : DumpHas st a h c ls) :
    DumpHas (printLine st) a h c (ls ++ [dumpLine a h c]) := by
  refine ⟨hst.addrstr, hst.hexstr, hst.charstr, ?_, hst.fits⟩
  rw [Puppies.printLine, hst.addrstr, hst.hexstr, hst.charstr, hst.lines]

/-- The next line is started. -/
theorem DumpHas.clear (hst : DumpHas st a h c ls) :
    DumpHas { st with hexstr := [], charstr := [] } a [] [] ls :=
  ⟨hst.addrstr, rfl, rfl, hst.lines, hst.fits⟩

/-- The byte is added, to a line that is short enough. -/
theorem DumpHas.putByte (hst : DumpHas st a h c ls) (hhex : h.length ≤ 47) (hchar : c.length ≤ 16)
    (i : Nat) (p : Byte) :
    DumpHas (putByte i p st) (if (i + 1) % 16 = 1 then addrText i else a)
      (h ++ (hex02 p ++ lit " ")) (c ++ [shownChar p]) ls := by
  have hbyte : (hex02 p ++ lit " ").length = 3 := by
    rw [List.length_append, length_pair isPair_hex02]
    rfl
  have hstart : DumpHas (if (i + 1) % 16 = 1 then Puppies.printAddr i st else st)
      (if (i + 1) % 16 = 1 then addrText i else a) h c ls := by
    split
    · exact hst.printAddr i
    · exact hst
  have hdigits := (hstart.note (by decide : 3 + 1 ≤ 4)).catHex
    (s := hex02 p ++ lit " ") (by omega)
  have hall := (hdigits.note (by decide : 1 + 1 ≤ 4)).catChar
    (s := [shownChar p]) (by rw [List.length_singleton]; omega)
  have htake : (hex02 p ++ lit " ").take 3 = hex02 p ++ lit " " :=
    List.take_of_length_le (Nat.le_of_eq hbyte)
  have hcell : bytestr (hex02 p ++ lit " ")
      (if (i + 1) % 16 = 1 then Puppies.printAddr i st else st) =
      (hex02 p ++ lit " ",
        (if (i + 1) % 16 = 1 then Puppies.printAddr i st else st).note 4 3) := by
    rw [bytestr, htake, hbyte]
  rw [Puppies.putByte]
  dsimp only
  rw [hcell]
  exact hall

end Has

/-! ## 3. The lines -/

/-- The blanks behind the digits in column `j`, and behind the characters. -/
def hexGap (j : Nat) : CText.Text := if j = 7 then lit "   " else lit " "
def charGap (j : Nat) : CText.Text := if j = 7 then lit " " else []

/-- The digits and the characters of a line. -/
def hexCells (row : List Byte) : CText.Text := hexRow hex02 hexGap 0 row
def charCells (row : List Byte) : CText.Text := hexRow (fun b => [shownChar b]) charGap 0 row

/-- Line `k`. -/
def rowLine (k : Nat) (row : List Byte) : CText.Text :=
  dumpLine (addrText (16 * k)) (hexCells row) (charCells row)

/-- The lines of an array that is cut into these rows. -/
def rowLines (rows : List (List Byte)) : List CText.Text := rows.zipIdx.map fun x => rowLine x.2 x.1

theorem rowLines_concat (rows : List (List Byte)) (row : List Byte) :
    rowLines (rows ++ [row]) = rowLines rows ++ [rowLine rows.length row] := by
  simp [rowLines, List.zipIdx_append]

theorem hexCells_concat (row : List Byte) (b : Byte) :
    hexCells (row ++ [b]) = hexCells row ++ (hex02 b ++ hexGap row.length) :=
  hexRow_concat _ _ row b

theorem charCells_concat (row : List Byte) (b : Byte) :
    charCells (row ++ [b]) = charCells row ++ (shownChar b :: charGap row.length) :=
  hexRow_concat _ _ row b

theorem length_hexCells (row : List Byte) :
    (hexCells row).length = 3 * row.length + if 7 < row.length then 2 else 0 := by
  induction row using List.reverseRecOn with
  | nil => rfl
  | append_singleton row b ih =>
    have hgap : (hexGap row.length).length = if row.length = 7 then 3 else 1 := by
      unfold hexGap
      split
      · rfl
      · rfl
    rw [hexCells_concat, List.length_append, List.length_append, length_pair isPair_hex02, ih,
      hgap, List.length_append, List.length_singleton]
    split <;> split <;> split <;> omega

theorem length_charCells (row : List Byte) :
    (charCells row).length = row.length + if 7 < row.length then 1 else 0 := by
  induction row using List.reverseRecOn with
  | nil => rfl
  | append_singleton row b ih =>
    have hgap : (charGap row.length).length = if row.length = 7 then 1 else 0 := by
      unfold charGap
      split
      · rfl
      · rfl
    rw [charCells_concat, List.length_append, List.length_cons, ih, hgap, List.length_append,
      List.length_singleton]
    split <;> split <;> split <;> omega

/-- **The invariant of the loop**: the lines that are complete, and the bytes `cur` of the one that
is not. -/
structure DumpInv (done : List (List Byte)) (cur : List Byte) (st : DumpState) : Prop where
  full : ∀ row ∈ done, row.length = 16
  short : cur.length < 16
  has : ∃ a, (cur ≠ [] → a = addrText (16 * done.length)) ∧
    DumpHas st a (hexCells cur) (charCells cur) (rowLines done)

/-- The digits and the characters of a byte that is not the eighth of its line. -/
theorem cells_concat {row : List Byte} (h7 : row.length ≠ 7) (b : Byte) :
    hexCells (row ++ [b]) = hexCells row ++ (hex02 b ++ lit " ") ∧
      charCells (row ++ [b]) = charCells row ++ [shownChar b] := by
  rw [hexCells_concat, charCells_concat, hexGap, charGap, if_neg h7, if_neg h7]
  exact ⟨rfl, rfl⟩

/-- The digits and the characters of the eighth. -/
theorem cells_half {row : List Byte} (h7 : row.length = 7) (b : Byte) :
    hexCells (row ++ [b]) = hexCells row ++ (hex02 b ++ lit " ") ++ lit "  " ∧
      charCells (row ++ [b]) = charCells row ++ [shownChar b] ++ lit " " := by
  rw [hexCells_concat, charCells_concat, hexGap, charGap, if_pos h7, if_pos h7]
  simp only [List.append_assoc]
  exact ⟨rfl, rfl⟩

/-- The byte is put at the end of its line, which has the address of the line. -/
theorem DumpInv.put {done : List (List Byte)} {cur : List Byte} {st : DumpState}
    (h : DumpInv done cur st) (b : Byte) :
    DumpHas (putByte (16 * done.length + cur.length) b st) (addrText (16 * done.length))
      (hexCells cur ++ (hex02 b ++ lit " ")) (charCells cur ++ [shownChar b]) (rowLines done) := by
  obtain ⟨a, ha, hhas⟩ := h.has
  have hshort := h.short
  have hhex := length_hexCells cur
  have hchar := length_charCells cur
  have hput := hhas.putByte (by split at hhex <;> omega) (by split at hchar <;> omega)
    (16 * done.length + cur.length) b
  have haddr : (if (16 * done.length + cur.length + 1) % 16 = 1 then
      addrText (16 * done.length + cur.length) else a) = addrText (16 * done.length) := by
    split
    · rename_i hfirst
      have hnil : cur.length = 0 := by omega
      rw [hnil, Nat.add_zero]
    · rename_i hfirst
      exact ha fun hnil => hfirst (by rw [hnil, List.length_nil]; omega)
  rw [haddr] at hput
  exact hput

/-- One turn of the loop. -/
theorem DumpInv.step {done : List (List Byte)} {cur : List Byte} {st : DumpState}
    (h : DumpInv done cur st) (b : Byte) :
    ∃ done' cur', 16 * done'.length + cur'.length = 16 * done.length + cur.length + 1 ∧
      done'.flatten ++ cur' = done.flatten ++ cur ++ [b] ∧
      DumpInv done' cur' (dumpByte (16 * done.length + cur.length) b st) := by
  have hput := h.put b
  have hshort := h.short
  have hlen : (cur ++ [b]).length = cur.length + 1 := List.length_append
  rw [dumpByte]
  dsimp only
  by_cases hfull : cur.length = 15
  · -- The line is complete.
    have h7 : cur.length ≠ 7 := by omega
    obtain ⟨hhexcells, hcharcells⟩ := cells_concat h7 b
    rw [if_pos (by omega)]
    refine ⟨done ++ [cur ++ [b]], [], ?_, ?_, ?_, by decide, addrText (16 * done.length),
      fun hnil => absurd rfl hnil, ?_⟩
    · rw [List.length_append, List.length_singleton, List.length_nil]
      omega
    · rw [List.flatten_append, List.flatten_singleton, List.append_nil, List.append_assoc]
    · intro row hrow
      rcases List.mem_append.mp hrow with hold | hnew
      · exact h.full row hold
      · rw [List.mem_singleton.mp hnew]
        omega
    · have hprint := hput.printLine.clear
      rw [← hhexcells, ← hcharcells] at hprint
      rw [rowLines_concat]
      exact hprint
  · refine ⟨done, cur ++ [b], by omega, (List.append_assoc _ _ _).symm, ?_⟩
    rw [if_neg (by omega)]
    by_cases hhalf : cur.length = 7
    · -- The gap in the middle of the line.
      obtain ⟨hhexcells, hcharcells⟩ := cells_half hhalf b
      have hcell : (hexCells cur ++ (hex02 b ++ lit " ")).length = 24 := by
        rw [List.length_append, List.length_append, length_pair isPair_hex02, length_hexCells,
          hhalf]
        rfl
      have hshown : (charCells cur ++ [shownChar b]).length = 8 := by
        rw [List.length_append, length_charCells, hhalf]
        rfl
      have hgap := (hput.catHex (s := lit "  ") (by rw [hcell]; decide)).catChar (s := lit " ")
        (by rw [hshown]; decide)
      rw [if_pos (by omega)]
      rw [← hhexcells, ← hcharcells] at hgap
      exact ⟨h.full, by omega, _, fun _ => rfl, hgap⟩
    · obtain ⟨hhexcells, hcharcells⟩ := cells_concat hhalf b
      rw [if_neg (by omega)]
      rw [← hhexcells, ← hcharcells] at hput
      exact ⟨h.full, by omega, _, fun _ => rfl, hput⟩

/-- The lines of an array of this length, and that nothing was cut. -/
theorem dumpBytes_inv (ps : List Byte) {done : List (List Byte)} {cur : List Byte}
    {st : DumpState} (h : DumpInv done cur st) :
    ∃ done' cur', done'.flatten ++ cur' = done.flatten ++ cur ++ ps ∧
      DumpInv done' cur' (dumpBytes (16 * done.length + cur.length) ps st) := by
  induction ps generalizing done cur st with
  | nil => exact ⟨done, cur, (List.append_nil _).symm, h⟩
  | cons p ps ih =>
    obtain ⟨done', cur', hoff, hbytes, hstep⟩ := h.step p
    obtain ⟨done'', cur'', hall, hrun⟩ := ih hstep
    rw [hbytes, List.append_assoc, List.singleton_append] at hall
    rw [hoff] at hrun
    exact ⟨done'', cur'', hall, hrun⟩

/-! ## 4. The dump -/

/-- The rows of an array: 16 bytes each, and the last one is not empty. -/
structure IsRows (rows : List (List Byte)) : Prop where
  full : ∀ row ∈ rows.dropLast, row.length = 16
  short : ∀ row ∈ rows, row ≠ [] ∧ row.length ≤ 16

/-- **`hexdump` prints a line for each row**, and nothing is cut on the way. -/
theorem hexdump_rows (data : List Byte) : ∃ rows, rows.flatten = data ∧ IsRows rows ∧
    (hexdump data).lines = rowLines rows ∧ ∀ f ∈ (hexdump data).fills, f.2 ≤ f.1 := by
  have hstart : DumpInv [] [] ⟨[], [], [], [], []⟩ :=
    ⟨by simp, by decide, [], fun hnil => absurd rfl hnil, rfl, rfl, rfl, rfl, by simp⟩
  obtain ⟨done, cur, hdata, hinv⟩ : ∃ done cur, done.flatten ++ cur = data ∧
      DumpInv done cur (dumpBytes 0 data ⟨[], [], [], [], []⟩) := dumpBytes_inv data hstart
  obtain ⟨a, ha, hhas⟩ := hinv.has
  have hfull : ∀ row ∈ done, row ≠ [] ∧ row.length ≤ 16 := by
    intro row hrow
    have hlen := hinv.full row hrow
    exact ⟨List.ne_nil_of_length_pos (by omega), by omega⟩
  have hhex := length_hexCells cur
  rw [hexdump]
  by_cases hnil : cur = []
  · have hlast : ∀ row ∈ done.dropLast, row.length = 16 := fun row hrow =>
      hinv.full row ((List.dropLast_sublist _).subset hrow)
    refine ⟨done, ?_, ⟨hlast, hfull⟩, ?_⟩
    · rw [hnil, List.append_nil] at hdata
      exact hdata
    · rw [hnil] at hhas
      rw [if_neg (by rw [hhas.hexstr]; decide)]
      exact ⟨hhas.lines, hhas.fits⟩
  · have hpos : 0 < cur.length := List.length_pos_of_ne_nil hnil
    have hprint := hhas.printLine
    rw [ha hnil] at hprint
    refine ⟨done ++ [cur], ?_, ⟨?_, ?_⟩, ?_⟩
    · rw [List.flatten_append, List.flatten_singleton]
      exact hdata
    · rw [List.dropLast_concat]
      exact hinv.full
    · intro row hrow
      rcases List.mem_append.mp hrow with hold | hnew
      · exact hfull row hold
      · rw [List.mem_singleton.mp hnew]
        exact ⟨hnil, Nat.le_of_lt hinv.short⟩
    · rw [if_pos (by rw [hhas.hexstr, hhex]; omega), rowLines_concat]
      exact ⟨hprint.lines, hprint.fits⟩

/-! ## 5. Reading a dump -/

/-- The address column of a line, and the columns of the digits. -/
def addrCol (line : CText.Text) : CText.Text := (line.drop 1).takeWhile (· ≠ 0x5d)
def hexCol (line : CText.Text) : CText.Text := (line.drop 9).take 50

/-- The bytes that a line shows. -/
def lineBytes (line : CText.Text) : List Byte := decodeHex (hexCol line)

/-- A number in hexadecimal, with any zeros in front. -/
structure IsHexNumber (s : CText.Text) (n : Nat) : Prop where
  ne_nil : s ≠ []
  digits : ∀ c ∈ s, CText.digitVal c < 16
  value : valueOf 16 s = n

/-- What a dump has to be: the bytes are the array's, a line has 16 of them if it is not the last,
nothing was cut, and a line starts with the offset of its first byte. -/
structure HexdumpOk (data : List Byte) (st : DumpState) : Prop where
  bytes : st.lines.flatMap lineBytes = data
  full : ∀ line ∈ st.lines.dropLast, (lineBytes line).length = 16
  fits : ∀ f ∈ st.fills, f.2 ≤ f.1
  address : ∀ k line, st.lines[k]? = some line →
    IsHexNumber (addrCol line) ((st.lines.take k).flatMap lineBytes).length

theorem le_length_addrText (i : Nat) : 4 ≤ (addrText i).length := by
  rw [addrText, length_padZero]
  omega

theorem digit_of_mem_addrText {i : Nat} {c : Byte} (hc : c ∈ addrText i) :
    CText.digitVal c < 16 := by
  rcases List.mem_append.mp hc with hzero | hnum
  · rw [List.eq_of_mem_replicate hzero]
    decide
  · exact digit_of_mem_numeral (by decide) (by decide) c hnum

/-- Where the columns of a line are. -/
theorem rowLine_eq (k : Nat) (row : List Byte) : rowLine k row =
    (0x5b :: ((addrText (16 * k)).take 4 ++ lit "]   ")) ++
      (padRight 50 ((hexCells row).take 50) ++ (lit "  " ++ charCells row ++ lit "\n")) := by
  have hlen : ((addrText (16 * k)).take 4).length = 4 :=
    List.length_take_of_le (le_length_addrText _)
  have hpad : padLeft 4 ((addrText (16 * k)).take 4) = (addrText (16 * k)).take 4 := by
    rw [padLeft, hlen]
    rfl
  rw [rowLine, dumpLine, hpad]
  simp only [List.append_assoc, List.cons_append]
  rfl

/-- The address has the first four digits. -/
theorem addrCol_rowLine (k : Nat) (row : List Byte) :
    addrCol (rowLine k row) = (addrText (16 * k)).take 4 := by
  have hplain : ∀ c ∈ (addrText (16 * k)).take 4, decide (c ≠ 0x5d) = true := by
    intro c hc
    have hdigit : ∀ c : BitVec 8, CText.digitVal c < 16 → decide (c ≠ 0x5d) = true := by decide
    exact hdigit c (digit_of_mem_addrText (List.mem_of_mem_take hc))
  rw [rowLine_eq, addrCol, List.cons_append, List.drop_one, List.tail_cons, List.append_assoc,
    List.takeWhile_append_of_pos hplain]
  exact List.append_nil _

/-- **The bytes of a line are those of its row.** -/
theorem lineBytes_rowLine {k : Nat} {row : List Byte} (hrow : row.length ≤ 16) :
    lineBytes (rowLine k row) = row := by
  have hlen : (0x5b :: ((addrText (16 * k)).take 4 ++ lit "]   ") : CText.Text).length = 9 := by
    rw [List.length_cons, List.length_append, List.length_take_of_le (le_length_addrText _)]
    rfl
  have hhex : (hexCells row).length ≤ 50 := by
    have hcells := length_hexCells row
    split at hcells <;> omega
  have hpad : (padRight 50 (hexCells row)).length = 50 := by
    rw [padRight, List.length_append, List.length_replicate]
    omega
  have hgap : ∀ j, ∀ c ∈ hexGap j, isSpace c = true := by
    intro j
    unfold hexGap
    split <;> decide
  rw [lineBytes, hexCol, rowLine_eq, List.drop_left' hlen, List.take_of_length_le hhex,
    List.take_left' hpad]
  exact decodeHex_row_blanks isPair_hex02 hgap row _

/-! ## 6. The whole dump -/

theorem lineBytes_rowLines {rows : List (List Byte)} (hrows : ∀ row ∈ rows, row.length ≤ 16) :
    (rowLines rows).map lineBytes = rows := by
  rw [rowLines, List.map_map]
  have hmap : rows.zipIdx.map (lineBytes ∘ fun x => rowLine x.2 x.1) =
      rows.zipIdx.map Prod.fst := by
    refine List.map_congr_left ?_
    intro x hx
    rw [Function.comp_apply, lineBytes_rowLine (hrows x.1 (List.fst_mem_of_mem_zipIdx hx))]
  rw [hmap, List.zipIdx_map_fst]

theorem length_flatten_full {rows : List (List Byte)} (h : ∀ row ∈ rows, row.length = 16) :
    rows.flatten.length = 16 * rows.length := by
  induction rows with
  | nil => rfl
  | cons row rows ih =>
    rw [List.forall_mem_cons] at h
    rw [List.flatten_cons, List.length_append, List.length_cons, h.1, ih h.2]
    omega

/-- The offset of a row is 16 times its number. -/
theorem IsRows.length_take {rows : List (List Byte)} (h : IsRows rows) {k : Nat}
    (hk : k < rows.length) : (rows.take k).flatten.length = 16 * k := by
  have hfull : ∀ row ∈ rows.take k, row.length = 16 := by
    intro row hrow
    rw [List.take_eq_take_min] at hrow
    refine h.full row ?_
    rw [List.dropLast_eq_take]
    exact (List.take_prefix_take_left (by omega)).subset hrow
  rw [length_flatten_full hfull, List.length_take_of_le (Nat.le_of_lt hk)]

/-- The address of a line is right when the offset has four digits. -/
theorem isHexNumber_addrText {i : Nat} (hi : i < 65536) :
    IsHexNumber ((addrText i).take 4) i := by
  have hmod : i % 2 ^ 32 = i := Nat.mod_eq_of_lt (Nat.lt_trans hi (by decide))
  have hdigits : (numeral 16 (i % 2 ^ 32)).length ≤ 4 :=
    length_numeral_le (by decide) (by decide) (by rw [hmod]; exact hi)
  have hlen : (addrText i).length = 4 := by
    rw [addrText, length_padZero, Nat.max_eq_left hdigits]
  rw [List.take_of_length_le (Nat.le_of_eq hlen)]
  refine ⟨List.ne_nil_of_length_pos (by omega), fun c hc => digit_of_mem_addrText hc, ?_⟩
  rw [addrText, valueOf_padZero, valueOf_numeral (by decide) (by decide), hmod]

/-- The address at 0x10000 has five. -/
theorem not_isHexNumber_addrText : ¬ IsHexNumber ((addrText 65536).take 4) 65536 := by
  intro h
  have hvalue := h.value
  have htake : valueOf 16 ((addrText 65536).take 4) = 4096 := by decide
  omega

theorem getElem?_rowLines (rows : List (List Byte)) (k : Nat) :
    (rowLines rows)[k]? = rows[k]?.map (rowLine k) := by
  simp [rowLines, List.getElem?_zipIdx, Function.comp_def]

/-- **A dump is right if its addresses are.** -/
theorem hexdump_rows_ok (data : List Byte) : ∃ rows, rows.flatten = data ∧ IsRows rows ∧
    (HexdumpOk data (hexdump data) ↔
      ∀ k < rows.length, IsHexNumber ((addrText (16 * k)).take 4) (16 * k)) := by
  obtain ⟨rows, hdata, hrows, hlines, hfits⟩ := hexdump_rows data
  have hmap : (rowLines rows).map lineBytes = rows :=
    lineBytes_rowLines fun row hrow => (hrows.short row hrow).2
  have hoffset : ∀ k < rows.length,
      (((rowLines rows).take k).flatMap lineBytes).length = 16 * k := by
    intro k hk
    rw [List.flatMap_def, List.map_take, hmap, hrows.length_take hk]
  refine ⟨rows, hdata, hrows, ?_, ?_⟩
  · intro hok k hk
    have hline : (hexdump data).lines[k]? = some (rowLine k rows[k]) := by
      rw [hlines, getElem?_rowLines, List.getElem?_eq_getElem hk, Option.map_some]
    have haddr := hok.address k _ hline
    rw [hlines, hoffset k hk, addrCol_rowLine] at haddr
    exact haddr
  · intro haddr
    refine ⟨?_, ?_, hfits, ?_⟩
    · rw [hlines, List.flatMap_def, hmap, hdata]
    · intro line hline
      rw [hlines] at hline
      refine hrows.full _ ?_
      rw [← hmap, ← List.map_dropLast]
      exact List.mem_map_of_mem hline
    · intro k line hline
      rw [hlines, getElem?_rowLines, Option.map_eq_some_iff] at hline
      obtain ⟨row, hrow, hrowline⟩ := hline
      have hk : k < rows.length := (List.getElem?_eq_some_iff.mp hrow).1
      rw [hlines, hoffset k hk, ← hrowline, addrCol_rowLine]
      exact haddr k hk

theorem IsRows.offset_lt {rows : List (List Byte)} (h : IsRows rows) {k : Nat}
    (hk : k < rows.length) : 16 * k < rows.flatten.length := by
  have hoffset := h.length_take hk
  have hpos := List.length_pos_of_ne_nil (h.short rows[k] (List.getElem_mem hk)).1
  have hsplit := List.take_append_drop k rows
  rw [List.drop_eq_getElem_cons hk] at hsplit
  rw [← hsplit, List.flatten_append, List.flatten_cons, List.length_append, List.length_append]
  omega

theorem length_flatten_le {rows : List (List Byte)} (h : ∀ row ∈ rows, row.length ≤ 16) :
    rows.flatten.length ≤ 16 * rows.length := by
  induction rows with
  | nil => exact Nat.le_refl 0
  | cons row rows ih =>
    rw [List.forall_mem_cons] at h
    have hrest := ih h.2
    rw [List.flatten_cons, List.length_append, List.length_cons]
    omega

/-- Behind 0x10000 bytes there is a line with the address of one before it. -/
theorem not_hexdumpOk_of_lt {data : List Byte} (hlong : 65536 < data.length) :
    ¬ HexdumpOk data (hexdump data) := by
  obtain ⟨rows, hdata, hrows, hok⟩ := hexdump_rows_ok data
  have hmore := length_flatten_le fun row hrow => (hrows.short row hrow).2
  rw [hdata] at hmore
  intro h
  exact not_isHexNumber_addrText (hok.mp h 4096 (by omega))

/-- **A dump is right up to 0x10000 bytes**, and not behind them. -/
theorem hexdump_iff (data : List Byte) : HexdumpOk data (hexdump data) ↔ data.length ≤ 65536 := by
  constructor
  · intro hok
    by_contra hlong
    exact not_hexdumpOk_of_lt (by omega) hok
  · intro hle
    obtain ⟨rows, hdata, hrows, hok⟩ := hexdump_rows_ok data
    refine hok.mpr ?_
    intro k hk
    have hlt := hrows.offset_lt hk
    rw [hdata] at hlt
    exact isHexNumber_addrText (by omega)

/-- The 65537 bytes that are needed for it. -/
theorem hexdump_broken :
    ¬ HexdumpOk (List.replicate 65537 0) (hexdump (List.replicate 65537 0)) := by
  refine not_hexdumpOk_of_lt ?_
  rw [List.length_replicate]
  decide

end Puppies
