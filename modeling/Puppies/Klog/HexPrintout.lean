/-
# `hex_printout` (`drivers/klog/src/klog_linux.c`)

`hex_printout` shows a buffer, 16 bytes a line.  A line is put together in `msgbuf`, with `dst` as
the place of the next byte of it, and `ptr` goes through the bytes of the line twice, for their
digits and for their characters.

Here a store outside `msgbuf` and a read outside the buffer fail, so that a run that does not fail
is one that stays inside both.  No run fails (`hexPrintout_faithful`), as long as `len + 0x0f`, from
which the number of lines is computed, is no more than 32 bits; with more of them nothing is
printed (`hexPrintout_wrapped`).
-/
import Puppies.Lib.HexText

namespace Puppies

open ByteMem CText HexText

/-! ## 1. A line -/

/-- The array `msgbuf`, and the pointers as offsets. -/
structure MsgLine where
  msgbuf : Mem
  dst : Nat
  ptr : Nat

/-- What is stored at `dst`, and `dst` behind it: in the 120 bytes of `msgbuf`. -/
def MsgLine.store (bs : List Byte) (l : MsgLine) : Option MsgLine :=
  if l.dst + bs.length ≤ 120 then
    some { l with msgbuf := write l.msgbuf l.dst bs, dst := l.dst + bs.length }
  else none

/-- `*dst ++ = b` -/
def MsgLine.put (b : Byte) : MsgLine → Option MsgLine := MsgLine.store [b]

/-- `memset(dst, 0x20, n); dst += n` -/
def MsgLine.blanks (n : Nat) : MsgLine → Option MsgLine := MsgLine.store (List.replicate n 0x20)

/-- `ptr -= n`, which stays inside the buffer. -/
def MsgLine.back (n : Nat) (l : MsgLine) : Option MsgLine :=
  if n ≤ l.ptr then some { l with ptr := l.ptr - n } else none

/-- `hex_char[i]` -/
def hexChar (i : Byte) : Byte := (lit "0123456789ABCDEF").getD i.toNat 0

/-- What is shown of a byte. -/
def printableChar (c : Byte) : Byte := if 0x20 ≤ c ∧ c ≤ 0x7e ∧ c ≠ 0x25 then c else 0x2e

/-- The loop over the digits. -/
def hexLoop (buf : List Byte) : Nat → MsgLine → Option MsgLine
  | 0, l => some l
  | n + 1, l => do
    let ival ← buf[l.ptr]?
    let l ← { l with ptr := l.ptr + 1 }.put (hexChar (ival >>> 4 &&& 0x0f))
    let l ← l.put (hexChar (ival &&& 0x0f))
    let l ← l.put 0x20
    hexLoop buf n l

/-- The loop over the characters. -/
def charLoop (buf : List Byte) : Nat → MsgLine → Option MsgLine
  | 0, l => some l
  | n + 1, l => do
    let c ← buf[l.ptr]?
    let l ← l.put (printableChar c)
    charLoop buf n { l with ptr := l.ptr + 1 }

/-- A line, up to its NUL. -/
def buildLine (buf : List Byte) (nbytes : Nat) (l : MsgLine) : Option MsgLine := do
  let l ← { l with dst := 0 }.blanks 4
  let l ← hexLoop buf nbytes l
  let l ← l.blanks (3 * (17 - nbytes))
  let l ← l.back nbytes
  let l ← charLoop buf nbytes l
  let l ← l.put 0x0a
  -- `*dst = 0`, behind which `dst` is not used
  l.put 0

/-- `printk("%s", msgbuf)`: what it prints, up to a NUL that is in the array. -/
def printMsg (msgbuf : Mem) : Option CText.Text :=
  let text := (read msgbuf 0 120).takeWhile (· ≠ 0)
  if text.length < 120 then some text else none

/-! ## 2. The lines -/

/-- The variables of the loop, and what has been printed. -/
structure Printout where
  len : BitVec 32
  line : MsgLine
  printed : List CText.Text

/-- One turn of the loop. -/
def printTurn (buf : List Byte) (st : Printout) : Option Printout := do
  let nbytes := if st.len < 16 then st.len else 16
  let line ← buildLine buf nbytes.toNat st.line
  let text ← printMsg line.msgbuf
  some { len := st.len - nbytes, line := line, printed := st.printed ++ [text] }

/-- So many turns. -/
def printTurns (buf : List Byte) : Nat → Printout → Option Printout
  | 0, st => some st
  | n + 1, st => do
    let st ← printTurn buf st
    printTurns buf n st

/-- `nlines` -/
def nlines (len : BitVec 32) : Nat := ((len + 0x0f) >>> 4).toNat

/-- What the loop starts with; `msgbuf` has no value. -/
def printStart (msgbuf : Mem) (len : BitVec 32) : Printout := ⟨len, ⟨msgbuf, 0, 0⟩, []⟩

/-- `hex_printout`, behind the line with `msg`. -/
def hexPrintout (msgbuf : Mem) (buf : List Byte) (len : BitVec 32) : Option Printout :=
  printTurns buf (nlines len) (printStart msgbuf len)

/-! ## 3. What a line has -/

/-- The bytes up to `dst`, and `ptr`. -/
structure LineHas (l : MsgLine) (text : CText.Text) (ptr : Nat) : Prop where
  dst : l.dst = text.length
  text : read l.msgbuf 0 text.length = text
  ptr : l.ptr = ptr

theorem LineHas.store {l : MsgLine} {text : CText.Text} {ptr : Nat} (h : LineHas l text ptr)
    {bs : List Byte} (hroom : text.length + bs.length ≤ 120) :
    ∃ l', l.store bs = some l' ∧ LineHas l' (text ++ bs) ptr := by
  rw [MsgLine.store, h.dst, if_pos hroom]
  refine ⟨_, rfl, List.length_append.symm, ?_, h.ptr⟩
  have hbehind := read_write_self l.msgbuf text.length bs
  have hbefore : read (write l.msgbuf text.length bs) 0 text.length =
      read l.msgbuf 0 text.length := read_write_of_disjoint (by omega)
  rw [List.length_append, read_add, Nat.zero_add, hbefore, h.text, hbehind]

theorem LineHas.put {l : MsgLine} {text : CText.Text} {ptr : Nat} (h : LineHas l text ptr)
    (hroom : text.length < 120) (b : Byte) :
    ∃ l', l.put b = some l' ∧ LineHas l' (text ++ [b]) ptr := h.store hroom

theorem LineHas.blanks {l : MsgLine} {text : CText.Text} {ptr n : Nat} (h : LineHas l text ptr)
    (hroom : text.length + n ≤ 120) :
    ∃ l', l.blanks n = some l' ∧ LineHas l' (text ++ List.replicate n 0x20) ptr :=
  h.store (by rw [List.length_replicate]; exact hroom)

/-- `ptr++` -/
theorem LineHas.advance {l : MsgLine} {text : CText.Text} {ptr : Nat} (h : LineHas l text ptr) :
    LineHas { l with ptr := l.ptr + 1 } text (ptr + 1) :=
  ⟨h.dst, h.text, congrArg (· + 1) h.ptr⟩

theorem LineHas.back {l : MsgLine} {text : CText.Text} {ptr n : Nat}
    (h : LineHas l text (ptr + n)) : ∃ l', l.back n = some l' ∧ LineHas l' text ptr := by
  rw [MsgLine.back, h.ptr, if_pos (Nat.le_add_left n ptr)]
  exact ⟨_, rfl, h.dst, h.text, Nat.add_sub_cancel ptr n⟩

/-- The two digits of a byte. -/
def hexPair (b : Byte) : CText.Text := [hexChar (b >>> 4 &&& 0x0f), hexChar (b &&& 0x0f)]

theorem isPair_hexPair : IsPair hexPair := by
  have hdigits : ∀ b : BitVec 8, CText.digitVal (hexChar (b >>> 4 &&& 0x0f)) = b.toNat / 16 ∧
      CText.digitVal (hexChar (b &&& 0x0f)) = b.toNat % 16 := by decide
  intro b
  exact ⟨_, _, rfl, (hdigits b).1, (hdigits b).2⟩

/-- The blank behind them. -/
def pairGap (_ : Nat) : CText.Text := [0x20]

/-- The first `n + 1` bytes from `ptr` on. -/
theorem take_drop_succ {buf : List Byte} {ptr n : Nat} (hptr : ptr < buf.length) :
    (buf.drop ptr).take (n + 1) = buf[ptr] :: (buf.drop (ptr + 1)).take n := by
  rw [List.drop_eq_getElem_cons hptr, List.take_succ_cons]

/-- **The loop over the digits** goes through the bytes of the line once. -/
theorem LineHas.hexLoop {buf : List Byte} {n : Nat} {l : MsgLine} {text : CText.Text} {ptr : Nat}
    (h : LineHas l text ptr) (hbuf : ptr + n ≤ buf.length) (hroom : text.length + 3 * n ≤ 120)
    (j : Nat) : ∃ l', Puppies.hexLoop buf n l = some l' ∧
      LineHas l' (text ++ hexRow hexPair pairGap j ((buf.drop ptr).take n)) (ptr + n) := by
  induction n generalizing l text ptr j with
  | zero =>
    rw [List.take_zero, hexRow_nil, List.append_nil]
    exact ⟨l, rfl, h⟩
  | succ n ih =>
    have hptr : ptr < buf.length := by omega
    have hget : buf[l.ptr]? = some buf[ptr] := by rw [h.ptr, List.getElem?_eq_getElem hptr]
    obtain ⟨l₁, hl₁, h₁⟩ := h.advance.put (by omega) (hexChar (buf[ptr] >>> 4 &&& 0x0f))
    obtain ⟨l₂, hl₂, h₂⟩ := h₁.put (by simp only [List.length_append, List.length_singleton]; omega)
      (hexChar (buf[ptr] &&& 0x0f))
    obtain ⟨l₃, hl₃, h₃⟩ := h₂.put (by simp only [List.length_append, List.length_singleton]; omega)
      0x20
    obtain ⟨l', hl', h'⟩ := ih h₃ (by omega)
      (by simp only [List.length_append, List.length_singleton]; omega) (j + 1)
    refine ⟨l', ?_, ?_⟩
    · simp only [Puppies.hexLoop, hget, Option.bind_eq_bind, Option.bind_some, hl₁, hl₂, hl₃]
      exact hl'
    · rw [take_drop_succ hptr, hexRow_cons]
      simp only [List.append_assoc, List.singleton_append, Nat.add_right_comm] at h'
      exact h'

/-- The loop over the characters goes through them once more. -/
theorem LineHas.charLoop {buf : List Byte} {n : Nat} {l : MsgLine} {text : CText.Text} {ptr : Nat}
    (h : LineHas l text ptr) (hbuf : ptr + n ≤ buf.length) (hroom : text.length + n ≤ 120) :
    ∃ l', Puppies.charLoop buf n l = some l' ∧
      LineHas l' (text ++ ((buf.drop ptr).take n).map printableChar) (ptr + n) := by
  induction n generalizing l text ptr with
  | zero =>
    rw [List.take_zero, List.map_nil, List.append_nil]
    exact ⟨l, rfl, h⟩
  | succ n ih =>
    have hptr : ptr < buf.length := by omega
    have hget : buf[l.ptr]? = some buf[ptr] := by rw [h.ptr, List.getElem?_eq_getElem hptr]
    obtain ⟨l₁, hl₁, h₁⟩ := h.put (by omega) (printableChar buf[ptr])
    obtain ⟨l', hl', h'⟩ := ih h₁.advance (by omega)
      (by simp only [List.length_append, List.length_singleton]; omega)
    refine ⟨l', ?_, ?_⟩
    · simp only [Puppies.charLoop, hget, Option.bind_eq_bind, Option.bind_some, hl₁]
      exact hl'
    · rw [take_drop_succ hptr, List.map_cons]
      simp only [List.append_assoc, List.singleton_append, Nat.add_right_comm] at h'
      exact h'

/-- The columns of the digits: 51 of them, for a line of any length. -/
def digitCols (row : List Byte) : CText.Text :=
  hexRow hexPair pairGap 0 row ++ List.replicate (3 * (17 - row.length)) 0x20

/-- The text of a line. -/
def msgText (row : List Byte) : CText.Text :=
  List.replicate 4 0x20 ++ digitCols row ++ row.map printableChar ++ [0x0a]

theorem length_hexRow_hexPair (j : Nat) (row : List Byte) :
    (hexRow hexPair pairGap j row).length = 3 * row.length := by
  induction row generalizing j with
  | nil => rfl
  | cons b row ih =>
    rw [hexRow_cons, List.length_append, List.length_append, ih, length_pair isPair_hexPair,
      List.length_cons, pairGap, List.length_singleton]
    omega

theorem length_digitCols {row : List Byte} (hrow : row.length ≤ 16) :
    (digitCols row).length = 51 := by
  rw [digitCols, List.length_append, length_hexRow_hexPair, List.length_replicate]
  omega

/-- **A line is built inside `msgbuf`**, its NUL included, and `ptr` is behind its bytes. -/
theorem buildLine_has {buf : List Byte} {n ptr : Nat} {l : MsgLine} (hptr : l.ptr = ptr)
    (hn : n ≤ 16) (hbuf : ptr + n ≤ buf.length) :
    ∃ l', buildLine buf n l = some l' ∧
      LineHas l' (msgText ((buf.drop ptr).take n) ++ [0]) (ptr + n) := by
  have hrow : ((buf.drop ptr).take n).length = n := by
    rw [List.length_take, List.length_drop]
    omega
  have hcols : (digitCols ((buf.drop ptr).take n)).length = 51 := length_digitCols (by omega)
  have hstart : LineHas { l with dst := 0 } [] ptr := ⟨rfl, rfl, hptr⟩
  obtain ⟨l₁, hl₁, h₁⟩ := hstart.blanks (n := 4) (by decide)
  rw [List.nil_append] at h₁
  obtain ⟨l₂, hl₂, h₂⟩ := h₁.hexLoop hbuf (by rw [List.length_replicate]; omega) 0
  obtain ⟨l₃, hl₃, h₃⟩ := h₂.blanks (n := 3 * (17 - n)) (by
    rw [List.length_append, List.length_replicate, length_hexRow_hexPair, hrow]
    omega)
  obtain ⟨l₄, hl₄, h₄⟩ := h₃.back
  have hdigits : List.replicate 4 (0x20 : Byte) ++
      hexRow hexPair pairGap 0 ((buf.drop ptr).take n) ++ List.replicate (3 * (17 - n)) 0x20 =
      List.replicate 4 0x20 ++ digitCols ((buf.drop ptr).take n) := by
    rw [digitCols, hrow, List.append_assoc]
  rw [hdigits] at h₄
  have hlen :
      (List.replicate 4 (0x20 : Byte) ++ digitCols ((buf.drop ptr).take n)).length = 55 := by
    rw [List.length_append, List.length_replicate, hcols]
  obtain ⟨l₅, hl₅, h₅⟩ := h₄.charLoop hbuf (by omega)
  obtain ⟨l₆, hl₆, h₆⟩ := h₅.put (by rw [List.length_append, hlen, List.length_map]; omega) 0x0a
  obtain ⟨l', hl', h'⟩ := h₆.put (by
    rw [List.length_append, List.length_append, hlen, List.length_map, List.length_singleton]
    omega) 0
  refine ⟨l', ?_, h'⟩
  simp only [buildLine, Option.bind_eq_bind, Option.bind_some, hl₁, hl₂, hl₃, hl₄, hl₅, hl₆]
  exact hl'

theorem length_msgText {row : List Byte} (hrow : row.length ≤ 16) :
    (msgText row).length = 56 + row.length := by
  rw [msgText, List.length_append, List.length_append, List.length_append, List.length_replicate,
    length_digitCols hrow, List.length_map, List.length_singleton]
  omega

/-- No byte of a line is its NUL. -/
theorem ne_zero_of_mem_msgText {row : List Byte} {c : Byte} (hc : c ∈ msgText row) : c ≠ 0 := by
  have hblank : ∀ n, c ∈ List.replicate n (0x20 : Byte) → c ≠ 0 := by
    intro n hc
    rw [List.eq_of_mem_replicate hc]
    decide
  have hdigit : ∀ c : BitVec 8, CText.digitVal c < 16 → c ≠ 0 := by decide
  have hshown : ∀ c : BitVec 8, printableChar c ≠ 0 := by decide
  simp only [msgText, digitCols, List.mem_append, List.mem_map, List.mem_singleton] at hc
  rcases hc with ((hfirst | hrow | hlast) | ⟨b, -, rfl⟩) | rfl
  · exact hblank 4 hfirst
  · rcases of_mem_hexRow isPair_hexPair hrow with hc | ⟨j, hj⟩
    · exact hdigit c hc
    · exact hblank 1 hj
  · exact hblank _ hlast
  · exact hshown b
  · decide

/-- The line is printed up to its NUL. -/
theorem LineHas.printMsg {l : MsgLine} {text : CText.Text} {ptr : Nat}
    (h : LineHas l (text ++ [0]) ptr) (hroom : text.length < 120) (htext : ∀ c ∈ text, c ≠ 0) :
    Puppies.printMsg l.msgbuf = some text := by
  have hlen : (text ++ [0] : CText.Text).length + (119 - text.length) = 120 := by
    rw [List.length_append, List.length_singleton]
    omega
  have hread := read_add l.msgbuf 0 (text ++ [0] : CText.Text).length (119 - text.length)
  rw [hlen, h.text, List.append_assoc] at hread
  have htake : (read l.msgbuf 0 120).takeWhile (· ≠ 0) = text := by
    rw [hread, List.takeWhile_append_of_pos (by simpa using htext)]
    exact List.append_nil text
  rw [Puppies.printMsg, htake]
  exact if_pos hroom

/-! ## 4. The turns -/

/-- Line `j` has the bytes from `16 * j` on. -/
def rowAt (buf : List Byte) (j : Nat) : List Byte := (buf.drop (16 * j)).take 16

/-- **The invariant**, after `k` turns: `ptr` and `len` are in step. -/
structure TurnInv (buf : List Byte) (k : Nat) (st : Printout) : Prop where
  len : st.len.toNat = buf.length - 16 * k
  ptr : st.line.ptr = min (16 * k) buf.length
  printed : st.printed = (List.range k).map fun j => msgText (rowAt buf j)

theorem length_rowAt (buf : List Byte) (j : Nat) :
    (rowAt buf j).length = min 16 (buf.length - 16 * j) := by
  rw [rowAt, List.length_take, List.length_drop]

/-- `nbytes` is how many bytes the line has: no more than `len`. -/
theorem TurnInv.nbytes {buf : List Byte} {k : Nat} {st : Printout} (h : TurnInv buf k st) :
    (if st.len < 16 then st.len else 16).toNat = (rowAt buf k).length := by
  have hlen := h.len
  rw [length_rowAt]
  split
  · rename_i hlt
    rw [BitVec.lt_def] at hlt
    change st.len.toNat < 16 at hlt
    omega
  · rename_i hge
    rw [BitVec.lt_def] at hge
    change ¬ st.len.toNat < 16 at hge
    change 16 = _
    omega

theorem TurnInv.turn {buf : List Byte} {k : Nat} {st : Printout} (h : TurnInv buf k st)
    (hk : 16 * k < buf.length) :
    ∃ st', printTurn buf st = some st' ∧ TurnInv buf (k + 1) st' := by
  have hnbytes := h.nbytes
  have hrow := length_rowAt buf k
  have hlen := h.len
  have hptr : st.line.ptr = 16 * k := by
    rw [h.ptr]
    omega
  have hshort : (rowAt buf k).length ≤ 16 := by omega
  have hbuf : 16 * k + (rowAt buf k).length ≤ buf.length := by omega
  obtain ⟨line, hline, hhas⟩ := buildLine_has hptr hshort hbuf
  have htake : (buf.drop (16 * k)).take (rowAt buf k).length = rowAt buf k := by
    rw [rowAt, List.length_take, ← List.take_eq_take_min]
  rw [htake] at hhas
  have htext := hhas.printMsg (by rw [length_msgText hshort]; omega)
    fun c hc => ne_zero_of_mem_msgText hc
  have hle : (if st.len < 16 then st.len else 16) ≤ st.len := by
    rw [BitVec.le_def, hnbytes]
    omega
  refine ⟨{ len := st.len - if st.len < 16 then st.len else 16
            line := line
            printed := st.printed ++ [msgText (rowAt buf k)] }, ?_, ?_, ?_, ?_⟩
  · simp only [printTurn, hnbytes, hline, htext, Option.bind_eq_bind, Option.bind_some]
  · rw [BitVec.toNat_sub_of_le hle, hnbytes]
    omega
  · rw [hhas.ptr]
    omega
  · rw [h.printed, List.range_succ, List.map_append]
    rfl

theorem TurnInv.turns {buf : List Byte} {n k : Nat} {st : Printout} (h : TurnInv buf k st)
    (hk : k + n ≤ (buf.length + 15) / 16) :
    ∃ st', printTurns buf n st = some st' ∧ TurnInv buf (k + n) st' := by
  induction n generalizing k st with
  | zero => exact ⟨st, rfl, h⟩
  | succ n ih =>
    obtain ⟨st₁, hst₁, h₁⟩ := h.turn (by omega)
    obtain ⟨st', hst', h'⟩ := ih h₁ (by omega)
    rw [Nat.add_right_comm] at h'
    refine ⟨st', ?_, h'⟩
    simp only [printTurns, Option.bind_eq_bind, Option.bind_some, hst₁]
    exact hst'

/-! ## 5. The printout -/

/-- The bytes that a line shows in the columns of the digits. -/
def msgBytes (line : CText.Text) : List Byte := decodeHex ((line.drop 4).take 51)

/-- The columns of the characters. -/
def charCols (line : CText.Text) : CText.Text := line.drop 55

/-- What a printout has to be: a line for each 16 bytes, with its NUL inside `msgbuf`, the bytes of
the buffer and their characters from column 55 on; and nothing is left of `len`. -/
structure PrintoutOk (buf : List Byte) (st : Printout) : Prop where
  count : st.printed.length = (buf.length + 15) / 16
  room : ∀ line ∈ st.printed, line.length + 1 ≤ 120
  bytes : st.printed.flatMap msgBytes = buf
  columns : ∀ line ∈ st.printed, charCols line = (msgBytes line).map printableChar ++ [0x0a]
  len : st.len = 0

/-- Where the columns of a line are. -/
theorem msgText_cols {row : List Byte} (hrow : row.length ≤ 16) :
    msgBytes (msgText row) = row ∧ charCols (msgText row) = row.map printableChar ++ [0x0a] := by
  have hcols := length_digitCols hrow
  have hgap : ∀ j, ∀ c ∈ pairGap j, isSpace c = true := by
    intro j c hc
    rw [List.mem_singleton.mp hc]
    decide
  have hfirst : (List.replicate 4 (0x20 : Byte)).length = 4 := List.length_replicate
  have hdigits : (List.replicate 4 (0x20 : Byte) ++ digitCols row).length = 55 := by
    rw [List.length_append, hcols, hfirst]
  constructor
  · rw [msgBytes, msgText, List.append_assoc, List.append_assoc, List.drop_left' hfirst,
      List.take_left' hcols]
    exact decodeHex_row_blanks isPair_hexPair hgap row _
  · rw [charCols, msgText, List.append_assoc, List.drop_left' hdigits]

/-- The rows of a buffer are its bytes. -/
theorem flatMap_rowAt (buf : List Byte) (k : Nat) :
    (List.range k).flatMap (rowAt buf) = buf.take (16 * k) := by
  induction k with
  | zero => rfl
  | succ k ih =>
    rw [List.range_succ, List.flatMap_append, ih, List.flatMap_singleton, rowAt, Nat.mul_succ,
      List.take_add]

theorem nlines_eq {n : Nat} (h : n ≤ 2 ^ 32 - 16) : nlines (BitVec.ofNat 32 n) = (n + 15) / 16 := by
  have hlen : (BitVec.ofNat 32 n).toNat = n :=
    (BitVec.toNat_ofNat n 32).trans (Nat.mod_eq_of_lt (by omega))
  have hadd : (BitVec.ofNat 32 n + 0x0f).toNat = n + 15 := by
    rw [BitVec.toNat_add, hlen]
    change (n + 15) % 2 ^ 32 = n + 15
    omega
  rw [nlines, BitVec.toNat_ushiftRight, hadd]
  exact Nat.shiftRight_eq_div_pow (n + 15) 4

/-- What the loop starts with is in step. -/
theorem turnInv_start (msgbuf : Mem) {buf : List Byte} (h : buf.length < 2 ^ 32) :
    TurnInv buf 0 (printStart msgbuf (BitVec.ofNat 32 buf.length)) := by
  refine ⟨?_, (Nat.zero_min _).symm, rfl⟩
  exact (BitVec.toNat_ofNat ..).trans (Nat.mod_eq_of_lt h)

theorem TurnInv.ok {buf : List Byte} {st : Printout}
    (h : TurnInv buf ((buf.length + 15) / 16) st) : PrintoutOk buf st := by
  have hrow : ∀ j, (rowAt buf j).length ≤ 16 := fun j => List.length_take_le ..
  have hline : ∀ line ∈ st.printed, ∃ j, msgText (rowAt buf j) = line := by
    intro line hline
    rw [h.printed] at hline
    obtain ⟨j, -, hj⟩ := List.mem_map.mp hline
    exact ⟨j, hj⟩
  have hlen := h.len
  refine ⟨?_, ?_, ?_, ?_, ?_⟩
  · rw [h.printed, List.length_map, List.length_range]
  · intro line hmem
    obtain ⟨j, rfl⟩ := hline line hmem
    have hj := hrow j
    rw [length_msgText hj]
    omega
  · have hread : ∀ j, msgBytes (msgText (rowAt buf j)) = rowAt buf j :=
      fun j => (msgText_cols (hrow j)).1
    rw [h.printed, List.flatMap_map]
    simp only [hread]
    rw [flatMap_rowAt, List.take_of_length_le (by omega)]
  · intro line hmem
    obtain ⟨j, rfl⟩ := hline line hmem
    rw [(msgText_cols (hrow j)).1, (msgText_cols (hrow j)).2]
  · exact BitVec.eq_of_toNat_eq (hlen.trans (by change _ = 0; omega))

/-- **`hex_printout` shows the buffer**, inside both arrays, and `len` is at every turn what is
left. -/
theorem hexPrintout_faithful (msgbuf : Mem) {buf : List Byte} (h : buf.length ≤ 2 ^ 32 - 16) :
    (∃ st, hexPrintout msgbuf buf (BitVec.ofNat 32 buf.length) = some st ∧ PrintoutOk buf st) ∧
      ∀ k ≤ (buf.length + 15) / 16, ∃ st,
        printTurns buf k (printStart msgbuf (BitVec.ofNat 32 buf.length)) = some st ∧
        st.len.toNat + min (16 * k) buf.length = buf.length := by
  have hturns : ∀ k ≤ (buf.length + 15) / 16, ∃ st,
      printTurns buf k (printStart msgbuf (BitVec.ofNat 32 buf.length)) = some st ∧
      TurnInv buf k st := by
    intro k hk
    have hlen : buf.length < 2 ^ 32 := by omega
    have hrun := (turnInv_start msgbuf hlen).turns (n := k) (by omega)
    rw [Nat.zero_add] at hrun
    exact hrun
  constructor
  · obtain ⟨st, hst, hinv⟩ := hturns _ (Nat.le_refl _)
    rw [hexPrintout, nlines_eq h]
    exact ⟨st, hst, hinv.ok⟩
  · intro k hk
    obtain ⟨st, hst, hinv⟩ := hturns k hk
    have hlen := hinv.len
    exact ⟨st, hst, by omega⟩

theorem hexPrintout_faithful_lines : ∃ st,
    hexPrintout (ofBytes []) (List.replicate 17 0x41) 17 = some st ∧
      PrintoutOk (List.replicate 17 0x41) st :=
  (hexPrintout_faithful (ofBytes [])
    (by decide : (List.replicate 17 (0x41 : Byte)).length ≤ 2 ^ 32 - 16)).1

/-- With a `len` above that, the number of lines is 0. -/
theorem hexPrintout_wrapped (msgbuf : Mem) (buf : List Byte) {len : BitVec 32}
    (h : 2 ^ 32 - 16 < len.toNat) :
    hexPrintout msgbuf buf len = some (printStart msgbuf len) := by
  have hlen := len.isLt
  have hadd : (len + 0x0f).toNat < 16 := by
    rw [BitVec.toNat_add]
    change (len.toNat + 15) % 2 ^ 32 < 16
    omega
  have hlines : nlines len = 0 := by
    rw [nlines, BitVec.toNat_ushiftRight, Nat.shiftRight_eq_div_pow]
    omega
  rw [hexPrintout, hlines, printTurns]

end Puppies
