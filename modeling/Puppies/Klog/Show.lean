/-
# What is set and what is shown (`drivers/klog/src/klog_linux.c`, `klog_ioctl.c`)

An item is set through its handle (`klog_set_verbose`, `klog_set_ratelimit`) or, for all items of
a name, by a text that is written to `/proc/klog` (`klog_write`).  `klog_show_list` prints one
row for each item.  A row can be read back (`KlogRow.text_injective`), so the question whether it
shows what was set is a question about the numbers in its columns.

There are two places where it does not (`shownAsGiven_iff`).  The column of `verbose` has the
lower 8 bits of a field of 16; and `klog_set_ratelimit_by_name` stores the interval in ticks
where `klog_set_ratelimit` and the column take seconds.
-/
import Puppies.Klog.Lifetime
import Puppies.Lib.CText

namespace Puppies

open ByteMem CText

/-! ## 1. Rows -/

/-- The columns of a row of `klog_show_list`. -/
structure KlogRow where
  name : Text
  verbose : Nat
  rate : Nat
  intv : Int
  burst : Int
  rstVb : Nat
  rstRl : Nat
  expir : Nat

/-- `"%*s 0x%-*x 0x%-*x %-*d %-*d 0x%-*x 0x%-*x %-*lu\n"` -/
def KlogRow.text (row : KlogRow) : Text :=
  padLeft 16 row.name ++ lit " 0x" ++ padRight 8 (numeral 16 row.verbose) ++ lit " 0x" ++
    padRight 8 (numeral 16 row.rate) ++ lit " " ++ padRight 8 (intNumeral row.intv) ++
    lit " " ++ padRight 8 (intNumeral row.burst) ++ lit " 0x" ++
    padRight 8 (numeral 16 row.rstVb) ++ lit " 0x" ++ padRight 8 (numeral 16 row.rstRl) ++
    lit " " ++ padRight 8 (numeral 10 row.expir) ++ lit "\n"

/-- **A row is read back**: two rows with one name and one text are one row. -/
theorem KlogRow.text_injective {row row' : KlogRow} (hname : row.name = row'.name)
    (h : row.text = row'.text) : row = row' := by
  have hx : ∀ n : Nat, ∀ c ∈ numeral 16 n, isSpace c = false :=
    fun n => not_isSpace_numeral (by decide) (by decide)
  have hmark : lit " 0x" = [0x20, 0x30, 0x78] := rfl
  have hblank : lit " " = [0x20] := rfl
  have hline : lit "\n" = [0x0a] := rfl
  simp only [text, hname, hmark, hblank, hline, List.append_assoc, List.cons_append,
    List.nil_append] at h
  have h := (List.cons.inj (List.cons.inj (List.cons.inj (List.append_cancel_left h)).2).2).2
  obtain ⟨hverbose, h⟩ := padRight_append_inj (by decide) (hx _) (hx _) h
  obtain ⟨hrate, h⟩ := padRight_append_inj (by decide) (hx _) (hx _)
    (List.cons.inj (List.cons.inj h).2).2
  obtain ⟨hintv, h⟩ :=
    padRight_append_inj (by decide) not_isSpace_intNumeral not_isSpace_intNumeral h
  obtain ⟨hburst, h⟩ :=
    padRight_append_inj (by decide) not_isSpace_intNumeral not_isSpace_intNumeral h
  obtain ⟨hrstVb, h⟩ := padRight_append_inj (by decide) (hx _) (hx _)
    (List.cons.inj (List.cons.inj h).2).2
  obtain ⟨hrstRl, h⟩ := padRight_append_inj (by decide) (hx _) (hx _)
    (List.cons.inj (List.cons.inj h).2).2
  obtain ⟨hexpir, -⟩ := padRight_append_inj (by decide)
    (not_isSpace_numeral (by decide) (by decide)) (not_isSpace_numeral (by decide) (by decide)) h
  have hhex : ∀ {n n' : Nat}, numeral 16 n = numeral 16 n' → n = n' :=
    numeral_injective (by decide) (by decide)
  cases row
  cases row'
  simp only [KlogRow.mk.injEq]
  exact ⟨hname, hhex hverbose, hhex hrate, intNumeral_injective hintv,
    intNumeral_injective hburst, hhex hrstVb, hhex hrstRl,
    numeral_injective (by decide) (by decide) hexpir⟩

/-- The columns that `klog_show_list` prints for an item. -/
def klogRow (hz jiffies : BitVec 32) (item : KlogItem) : KlogRow where
  name := item.name
  verbose := (item.verbose &&& 0xff).toNat
  rate := (item.verbose >>> 16).toNat
  intv := item.interval.toInt.tdiv hz.toInt
  burst := item.burst.toInt
  rstVb := (item.originalVerbose &&& 0xff).toNat
  rstRl := (item.originalVerbose >>> 16).toNat
  expir := (item.timer.expires - jiffies).toNat / hz.toNat

/-- `"klog list:\n"` and the row of the names of the columns -/
def klogHeader : Text :=
  lit "klog list:\n" ++ padLeft 16 (lit "name") ++ lit " " ++ padLeft 8 (lit "verbose") ++
    lit " " ++ padLeft 8 (lit "rate") ++ lit " " ++ padLeft 8 (lit "intv") ++ lit " " ++
    padLeft 8 (lit "burst") ++ lit " " ++ padLeft 8 (lit "rst_vb") ++ lit " " ++
    padLeft 8 (lit "rst_rl") ++ lit " " ++ padLeft 8 (lit "expir") ++ lit "\n"

/-- One turn of the loop of `klog_show_list`: the memory, and `len`. -/
def showItem (hz jiffies : BitVec 32) (mem : Nat → KlogItem) (kbuf : Nat) (size : Int)
    (acc : Mem × Nat) (i : Nat) : Mem × Nat :=
  let (m, n) := snprintf acc.1 (kbuf + acc.2) (size - acc.2) (klogRow hz jiffies (mem i)).text
  (m, acc.2 + n)

/-- `klog_show_list`: the memory with the text at `kbuf`, and the return value. -/
def klogShowList (hz jiffies : BitVec 32) (s : KlogHeap) (m : Mem) (kbuf : Nat) (size : Int) :
    Mem × Nat :=
  s.list.foldl (showItem hz jiffies s.mem kbuf size) (snprintf m kbuf size klogHeader)

/-- The rows of all items. -/
def klogRows (hz jiffies : BitVec 32) (mem : Nat → KlogItem) (is : List Nat) : Text :=
  is.flatMap fun i => (klogRow hz jiffies (mem i)).text

/-- The listing: the header, and a row for each item. -/
def klogListing (hz jiffies : BitVec 32) (s : KlogHeap) : Text :=
  klogHeader ++ klogRows hz jiffies s.mem s.list

/-- The texts that `klog_show_list` prints, one behind the other. -/
def klogTexts (hz jiffies : BitVec 32) (s : KlogHeap) : List Text :=
  klogHeader :: s.list.map fun i => (klogRow hz jiffies (s.mem i)).text

theorem flatten_klogTexts (hz jiffies : BitVec 32) (s : KlogHeap) :
    (klogTexts hz jiffies s).flatten = klogListing hz jiffies s := by
  rw [klogTexts, List.flatten_cons, klogListing, klogRows, List.flatMap_def]

theorem klogShowList_eq (hz jiffies : BitVec 32) (s : KlogHeap) (m : Mem) (kbuf : Nat)
    (size : Int) : klogShowList hz jiffies s m kbuf size =
      (klogTexts hz jiffies s).foldl (printOn kbuf size) (m, 0) := by
  have hheader : printOn kbuf size (m, 0) klogHeader = snprintf m kbuf size klogHeader := by
    simp [printOn]
  rw [klogTexts, List.foldl_cons, hheader, List.foldl_map]
  rfl

/-- **`klog_show_list` prints the listing** into a buffer with room for it. -/
theorem klogShowList_printed {hz jiffies : BitVec 32} {s : KlogHeap} {kbuf : Nat} {size : Int}
    (m : Mem) (hsize : ((klogListing hz jiffies s).length : Int) < size) :
    ∃ m', klogShowList hz jiffies s m kbuf size = (m', (klogListing hz jiffies s).length) ∧
      Printed m' kbuf (klogListing hz jiffies s) := by
  rw [← flatten_klogTexts] at hsize ⊢
  rw [klogShowList_eq]
  obtain ⟨hprinted, hlen⟩ := printed_foldl_printOn m kbuf (List.cons_ne_nil _ _) hsize
  exact ⟨_, Prod.ext rfl hlen, hprinted⟩

/-! ## 2. Setting -/

/-- `klog_set_ratelimit`: the return value and the item. -/
def klogSetRatelimit (hz : BitVec 32) (item : KlogItem) (interval burst : BitVec 32) :
    Int × KlogItem :=
  if item.magic ≠ KLOG_ITEM_MAGIC then (-1, item)
  else (0, { item with interval := interval * hz, burst := burst })

/-- The locked section of `klog_set_ratelimit_by_name`. -/
def setRatelimit (interval burst : BitVec 32) (item : KlogItem) : KlogItem :=
  { item with interval := interval, burst := burst }

/-- `klog_set_ratelimit_by_name` -/
def klogSetRatelimitByName (s : KlogHeap) (name : Text) (interval burst : BitVec 32) :
    Int × KlogHeap :=
  let (ret, mem) := s.list.foldl (forNamed name (setRatelimit interval burst)) (0, s.mem)
  (if ret = 0 then -1 else ret, { s with mem := mem })

theorem klogSetRatelimitByName_mem (s : KlogHeap) (name : Text) (interval burst : BitVec 32)
    (i : Nat) : (klogSetRatelimitByName s name interval burst).2.mem i =
      if i ∈ s.list ∧ (s.mem i).name = name then setRatelimit interval burst (s.mem i)
      else s.mem i :=
  forNamed_foldl (f := setRatelimit interval burst) (fun _ => rfl) (fun _ => rfl) s.list
    (0, s.mem) i

/-- What a call of `klog_write` leaves. -/
structure KlogWritten where
  ret : Int
  heap : KlogHeap
  /-- how many bytes were stored into `name`, the `NUL` included -/
  named : Nat

/-- `"%s %x %x"` behind the word of a command. -/
def commandFormat (word : Text) : List Directive :=
  word.map .byte ++ [.space, .str, .space, .hex, .space, .hex]

/-- The bytes that the conversions of a command stored into `name`. -/
def storedName : List Conversion → Nat
  | .str name :: _ => name.length + 1
  | _ => 0

/-- `klog_write` -/
def klogWrite (s : KlogHeap) (buf : Text) : KlogWritten :=
  -- `kbuf` has 1024 bytes, the last one of which stays `NUL`
  let ptr := strim ((buf.take 1023).takeWhile fun c => c ≠ 0)
  if (lit "set_verbose").isPrefixOf ptr then
    match sscanf (commandFormat (lit "set_verbose")) ptr with
    | [.str name, .num verbose, .num limit] =>
      ⟨buf.length, (klogSetVerboseByName s name (BitVec.ofNat 16 verbose)
        (BitVec.ofNat 16 limit)).2, name.length + 1⟩
    | converted => ⟨-22, s, storedName converted⟩
  else if (lit "set_ratelimit").isPrefixOf ptr then
    match sscanf (commandFormat (lit "set_ratelimit")) ptr with
    | [.str name, .num interval, .num burst] =>
      ⟨buf.length, (klogSetRatelimitByName s name (BitVec.ofNat 32 interval)
        (BitVec.ofNat 32 burst)).2, name.length + 1⟩
    | converted => ⟨-22, s, storedName converted⟩
  else ⟨buf.length, s, 0⟩

/-- A name that a command can have: at least one byte, and no blank. -/
structure IsName (name : Text) : Prop where
  ne_nil : name ≠ []
  length : name.length ≤ 31
  noBlank : ∀ c ∈ name, isSpace c = false
  noNul : ∀ c ∈ name, c ≠ 0

/-- A word. -/
structure IsWord (name : Text) : Prop where
  ne_nil : name ≠ []
  noBlank : ∀ c ∈ name, isSpace c = false
  noNul : ∀ c ∈ name, c ≠ 0

theorem IsName.isWord {name : Text} (h : IsName name) : IsWord name :=
  ⟨h.ne_nil, h.noBlank, h.noNul⟩

/-- The text is the command `word` with a name and two numbers, set apart by blanks. -/
def IsCommand (word name : Text) (a b : Nat) (buf : Text) : Prop :=
  ∃ w₀ w₁ w₂ w₃ w₄ x y, (∀ c ∈ w₀, isSpace c = true) ∧ Blanks w₁ ∧ Blanks w₂ ∧ Blanks w₃ ∧
    (∀ c ∈ w₄, isSpace c = true) ∧ IsHex x a ∧ IsHex y b ∧
    buf = w₀ ++ (word ++ (w₁ ++ (name ++ (w₂ ++ (x ++ (w₃ ++ y)))))) ++ w₄ ∧
    buf.length ≤ 1023

/-- **A command is parsed** into its name and its numbers. -/
theorem sscanf_command {word name w₁ w₂ w₃ x y : Text} {a b : Nat} (hname : IsWord name)
    (hw₁ : Blanks w₁) (hw₂ : Blanks w₂) (hw₃ : Blanks w₃) (hx : IsHex x a) (hy : IsHex y b) :
    sscanf (commandFormat word) (word ++ (w₁ ++ (name ++ (w₂ ++ (x ++ (w₃ ++ y)))))) =
      [.str name, .num a, .num b] := by
  obtain ⟨hxne, hxplain, -⟩ := hx.plain
  obtain ⟨hyne, hyplain, -⟩ := hy.plain
  have hlast := sscanf_hex hy (s := []) (by simp) []
  have hyfirst := noBlankFirst_append (t := []) hyne hyplain
  rw [List.append_nil] at hlast hyfirst
  rw [commandFormat, sscanf_bytes,
    sscanf_space hw₁.2 (noBlankFirst_append hname.ne_nil hname.noBlank),
    sscanf_str hname.ne_nil hname.noBlank (hw₂.first _),
    sscanf_space hw₂.2 (noBlankFirst_append hxne hxplain), sscanf_hex hx (hw₃.first _),
    sscanf_space hw₃.2 hyfirst, hlast, sscanf]

/-- What `klog_write` has in front of it, for a command. -/
theorem IsCommand.parsed {word name buf : Text} {a b : Nat} (h : IsCommand word name a b buf)
    (hname : IsWord name) (hne : word ≠ []) (hblank : ∀ c ∈ word, isSpace c = false)
    (hnul : ∀ c ∈ word, c ≠ 0) :
    ∃ rest, strim ((buf.take 1023).takeWhile fun c => c ≠ 0) = word ++ rest ∧
      sscanf (commandFormat word) (word ++ rest) = [.str name, .num a, .num b] := by
  obtain ⟨w₀, w₁, w₂, w₃, w₄, x, y, hw₀, hw₁, hw₂, hw₃, hw₄, hx, hy, rfl, hlen⟩ := h
  have hspace : ∀ c : BitVec 8, isSpace c = true → c ≠ 0 := by decide
  obtain ⟨hyne, hyplain, hynul⟩ := hy.plain
  refine ⟨_, ?_, sscanf_command hname hw₁ hw₂ hw₃ hx hy⟩
  rw [List.take_of_length_le hlen, List.takeWhile_eq_self_iff.mpr]
  · apply strim_append hw₀ hw₄ (noBlankFirst_append hne hblank)
    intro c hc
    have hc' : c ∈ y := by
      simp only [List.reverse_append, List.append_assoc] at hc
      rw [List.head?_append_of_ne_nil _ (by simpa using hyne)] at hc
      exact List.mem_reverse.mp (List.mem_of_mem_head? hc)
    exact hyplain c hc'
  · intro c hc
    simp only [List.mem_append] at hc
    simp only [ne_eq, decide_eq_true_eq]
    rcases hc with (hc | hc | hc | hc | hc | hc | hc | hc) | hc
    · exact hspace c (hw₀ c hc)
    · exact hnul c hc
    · exact hspace c (hw₁.2 c hc)
    · exact hname.noNul c hc
    · exact hspace c (hw₂.2 c hc)
    · exact hx.plain.2.2 c hc
    · exact hspace c (hw₃.2 c hc)
    · exact hynul c hc
    · exact hspace c (hw₄ c hc)

theorem klogWrite_verbose {s : KlogHeap} {name buf : Text} {a b : Nat}
    (h : IsCommand (lit "set_verbose") name a b buf) (hname : IsWord name) :
    klogWrite s buf = ⟨buf.length, (klogSetVerboseByName s name (BitVec.ofNat 16 a)
      (BitVec.ofNat 16 b)).2, name.length + 1⟩ := by
  obtain ⟨rest, hptr, hscan⟩ := h.parsed hname (by decide) (by decide) (by decide)
  have hword : (lit "set_verbose").isPrefixOf (lit "set_verbose" ++ rest) = true :=
    List.isPrefixOf_iff_prefix.mpr (List.prefix_append _ _)
  simp only [klogWrite, hptr, hword, if_true, hscan]

theorem klogWrite_ratelimit {s : KlogHeap} {name buf : Text} {a b : Nat}
    (h : IsCommand (lit "set_ratelimit") name a b buf) (hname : IsWord name) :
    klogWrite s buf = ⟨buf.length, (klogSetRatelimitByName s name (BitVec.ofNat 32 a)
      (BitVec.ofNat 32 b)).2, name.length + 1⟩ := by
  obtain ⟨rest, hptr, hscan⟩ := h.parsed hname (by decide) (by decide) (by decide)
  have hword : (lit "set_ratelimit").isPrefixOf (lit "set_ratelimit" ++ rest) = true :=
    List.isPrefixOf_iff_prefix.mpr (List.prefix_append _ _)
  have hother : (lit "set_verbose").isPrefixOf (lit "set_ratelimit" ++ rest) = false := rfl
  simp only [klogWrite, hptr, hother, hword, Bool.false_eq_true, if_false, if_true, hscan]

/-! ## 3. What is set is what is shown -/

/-- A call that sets something.  The two commands are texts that are written to `/proc/klog`. -/
inductive KlogSetter
  | setVerbose (i : Nat) (verbose limit : BitVec 16) (howLong : BitVec 32)
  | setRatelimit (i : Nat) (interval burst : Nat)
  | writeVerbose (buf name : Text) (verbose limit : BitVec 16)
  | writeRatelimit (buf name : Text) (interval burst : Nat)

/-- The call is one that sets a value: a handle is that of a registered item, a text is the
command, and interval and burst are not negative and can be kept in ticks. -/
def KlogSetter.Proper (hz : BitVec 32) (s : KlogHeap) : KlogSetter → Prop
  | .setVerbose i _ _ howLong => i ∈ s.list ∧ howLong ≠ 0
  | .setRatelimit i interval burst =>
    i ∈ s.list ∧ interval * hz.toNat < 2 ^ 31 ∧ burst < 2 ^ 31
  | .writeVerbose buf name verbose limit =>
    IsName name ∧ IsCommand (lit "set_verbose") name verbose.toNat limit.toNat buf
  | .writeRatelimit buf name interval burst =>
    IsName name ∧ IsCommand (lit "set_ratelimit") name interval burst buf ∧
      interval * hz.toNat < 2 ^ 31 ∧ burst < 2 ^ 31

/-- The items after the call. -/
def KlogSetter.run (hz jiffies : BitVec 32) (s : KlogHeap) : KlogSetter → KlogHeap
  | .setVerbose i verbose limit howLong =>
    { s with
      mem := Function.update s.mem i (klogSetVerbose hz jiffies (s.mem i) verbose limit howLong).2 }
  | .setRatelimit i interval burst =>
    { s with
      mem := Function.update s.mem i
        (klogSetRatelimit hz (s.mem i) (BitVec.ofNat 32 interval) (BitVec.ofNat 32 burst)).2 }
  | .writeVerbose buf _ _ _ => (klogWrite s buf).heap
  | .writeRatelimit buf _ _ _ => (klogWrite s buf).heap

/-- The items that the call is to set: the one of the handle, or all of the name. -/
def KlogSetter.Sets (s : KlogHeap) : KlogSetter → Nat → Prop
  | .setVerbose i _ _ _, j => j = i
  | .setRatelimit i _ _, j => j = i
  | .writeVerbose _ name _ _, j => (s.mem j).name = name
  | .writeRatelimit _ name _ _, j => (s.mem j).name = name

/-- The columns of the row have what the call gave. -/
def KlogSetter.Given : KlogSetter → KlogRow → Prop
  | .setVerbose _ verbose limit _, row => row.verbose = verbose.toNat ∧ row.rate = limit.toNat
  | .setRatelimit _ interval burst, row => row.intv = interval ∧ row.burst = burst
  | .writeVerbose _ _ verbose limit, row => row.verbose = verbose.toNat ∧ row.rate = limit.toNat
  | .writeRatelimit _ _ interval burst, row => row.intv = interval ∧ row.burst = burst

/-- **What is set is what is shown**: the buffer has the header and a row for each item, in which
the items that were set have what was given, and the others what they had. -/
structure ShownAsGiven (hz jiffies : BitVec 32) (s t : KlogHeap) (c : KlogSetter) : Prop where
  printed : ∀ m kbuf (size : Int), ((klogListing hz jiffies t).length : Int) < size →
    ∃ m', klogShowList hz jiffies t m kbuf size = (m', (klogListing hz jiffies t).length) ∧
      Printed m' kbuf (klogListing hz jiffies t)
  list : t.list = s.list
  given : ∀ i ∈ s.list, c.Sets s i → ∃ row : KlogRow, row.name = (s.mem i).name ∧ c.Given row ∧
    (klogRow hz jiffies (t.mem i)).text = row.text
  others : ∀ i ∈ s.list, ¬ c.Sets s i →
    (klogRow hz jiffies (t.mem i)).text = (klogRow hz jiffies (s.mem i)).text

/-- A verbose that has room in its column; an interval that is the same in ticks and seconds. -/
def KlogSetter.InColumn (hz : BitVec 32) (s : KlogHeap) : KlogSetter → Prop
  | .setVerbose _ verbose _ _ => verbose.toNat < 256
  | .setRatelimit _ _ _ => True
  | .writeVerbose _ name verbose _ =>
    (∃ i ∈ s.list, (s.mem i).name = name) → verbose.toNat < 256
  | .writeRatelimit _ name interval _ =>
    (∃ i ∈ s.list, (s.mem i).name = name) → interval = 0 ∨ hz = 1

theorem klogWord_toNat (verbose limit : BitVec 16) :
    (klogWord verbose limit).toNat = limit.toNat * 65536 + verbose.toNat := by
  have hl : limit.toNat < 2 ^ 16 := limit.isLt
  have hv : verbose.toNat < 2 ^ 16 := verbose.isLt
  have hshift : (limit.toNat % 2 ^ 32) <<< 16 % 2 ^ 32 = limit.toNat <<< 16 := by
    rw [Nat.shiftLeft_eq, Nat.shiftLeft_eq]
    omega
  rw [klogWord, BitVec.toNat_or, BitVec.toNat_shiftLeft, BitVec.toNat_setWidth,
    BitVec.toNat_setWidth, hshift, Nat.mod_eq_of_lt (a := verbose.toNat) (by omega),
    ← Nat.shiftLeft_add_eq_or_of_lt hv, Nat.shiftLeft_eq]

/-- The mask of the first column leaves 8 of the 16 bits. -/
theorem klogWord_verboseColumn (verbose limit : BitVec 16) :
    (klogWord verbose limit &&& 0xff).toNat = verbose.toNat % 256 := by
  have hmask : (0xff : BitVec 32).toNat = 2 ^ 8 - 1 := rfl
  rw [BitVec.toNat_and, hmask, Nat.and_two_pow_sub_one_eq_mod, klogWord_toNat]
  omega

theorem klogWord_rateColumn (verbose limit : BitVec 16) :
    (klogWord verbose limit >>> 16).toNat = limit.toNat := by
  have hv : verbose.toNat < 2 ^ 16 := verbose.isLt
  rw [BitVec.toNat_ushiftRight, Nat.shiftRight_eq_div_pow, klogWord_toNat]
  omega

/-- The row of an item whose word was set. -/
theorem given_verbose_iff {hz jiffies : BitVec 32} {item : KlogItem} {verbose limit : BitVec 16}
    (hword : item.verbose = klogWord verbose limit) :
    ((klogRow hz jiffies item).verbose = verbose.toNat ∧
      (klogRow hz jiffies item).rate = limit.toNat) ↔ verbose.toNat < 256 := by
  simp only [klogRow, hword, klogWord_verboseColumn, klogWord_rateColumn, and_true]
  omega

/-- The row of an item with `n` ticks for its interval. -/
theorem given_ratelimit_iff {hz jiffies : BitVec 32} {item : KlogItem} {n interval burst : Nat}
    (hhz : hz.toNat < 2 ^ 31) (hinterval : item.interval.toNat = n) (hn : n < 2 ^ 31)
    (hburst : item.burst = BitVec.ofNat 32 burst) (hb : burst < 2 ^ 31) :
    ((klogRow hz jiffies item).intv = interval ∧ (klogRow hz jiffies item).burst = burst) ↔
      n / hz.toNat = interval := by
  have hnat : ∀ x : BitVec 32, x.toNat < 2 ^ 31 → x.toInt = x.toNat :=
    fun x hx => BitVec.toInt_eq_toNat_of_lt (by omega)
  have hbn : (BitVec.ofNat 32 burst).toNat = burst := by
    rw [BitVec.toNat_ofNat, Nat.mod_eq_of_lt (by omega)]
  rw [klogRow, hburst, hnat hz hhz, hnat item.interval (by omega), hnat _ (by rwa [hbn]), hbn,
    hinterval]
  simp only [and_true]
  rw [← Int.ofNat_tdiv]
  exact Int.natCast_inj

/-- What the call does not touch is shown as before, and what it sets can be read off the row. -/
theorem shownAsGiven_iff_given {hz jiffies : BitVec 32} {s t : KlogHeap} {c : KlogSetter}
    (hlist : t.list = s.list) (hname : ∀ i ∈ s.list, (t.mem i).name = (s.mem i).name)
    (hothers : ∀ i ∈ s.list, ¬ c.Sets s i → t.mem i = s.mem i) :
    ShownAsGiven hz jiffies s t c ↔
      ∀ i ∈ s.list, c.Sets s i → c.Given (klogRow hz jiffies (t.mem i)) := by
  constructor
  · intro h i hi hset
    obtain ⟨row, hrow, hgiven, htext⟩ := h.given i hi hset
    have hsame : klogRow hz jiffies (t.mem i) = row :=
      KlogRow.text_injective ((hname i hi).trans hrow.symm) htext
    rwa [hsame]
  · intro h
    refine ⟨fun m kbuf size hsize => klogShowList_printed m hsize, hlist, ?_, ?_⟩
    · intro i hi hset
      exact ⟨_, hname i hi, h i hi hset, rfl⟩
    · intro i hi hset
      rw [hothers i hi hset]

/-- A call through a handle sets one item. -/
theorem shownAsGiven_handle {hz jiffies : BitVec 32} {s : KlogHeap} {c : KlogSetter} {i : Nat}
    {item : KlogItem} (hi : i ∈ s.list) (hname : item.name = (s.mem i).name)
    (hsets : ∀ j, c.Sets s j ↔ j = i) :
    ShownAsGiven hz jiffies s { s with mem := Function.update s.mem i item } c ↔
      c.Given (klogRow hz jiffies item) := by
  rw [shownAsGiven_iff_given]
  · constructor
    · intro h
      simpa using h i hi ((hsets i).mpr rfl)
    · intro h j _ hset
      obtain rfl := (hsets j).mp hset
      simpa using h
  · rfl
  · intro j _
    rcases eq_or_ne j i with rfl | hij
    · simpa using hname
    · simp [hij]
  · intro j _ hset
    have hij : j ≠ i := fun h => hset ((hsets j).mpr h)
    simp [hij]

/-- A command sets all items of a name, to the same. -/
theorem shownAsGiven_named {hz jiffies : BitVec 32} {s t : KlogHeap} {c : KlogSetter}
    {name : Text} {f : KlogItem → KlogItem} {Ok : Prop} (hf : ∀ item, (f item).name = item.name)
    (hlist : t.list = s.list)
    (hmem : ∀ i, t.mem i = if i ∈ s.list ∧ (s.mem i).name = name then f (s.mem i) else s.mem i)
    (hsets : ∀ j, c.Sets s j ↔ (s.mem j).name = name)
    (hgiven : ∀ item, c.Given (klogRow hz jiffies (f item)) ↔ Ok) :
    ShownAsGiven hz jiffies s t c ↔ ((∃ i ∈ s.list, (s.mem i).name = name) → Ok) := by
  rw [shownAsGiven_iff_given hlist]
  · constructor
    · rintro h ⟨i, hi, hin⟩
      have := h i hi ((hsets i).mpr hin)
      rwa [hmem, if_pos ⟨hi, hin⟩, hgiven] at this
    · intro h i hi hset
      have hin := (hsets i).mp hset
      rw [hmem, if_pos ⟨hi, hin⟩, hgiven]
      exact h ⟨i, hi, hin⟩
  · intro i _
    rw [hmem]
    split
    · exact hf _
    · rfl
  · intro i _ hset
    rw [hmem, if_neg fun h => hset ((hsets i).mpr h.2)]

theorem klogSetVerbose_set (hz jiffies : BitVec 32) {item : KlogItem}
    (hmagic : item.magic = KLOG_ITEM_MAGIC) (verbose limit : BitVec 16) {howLong : BitVec 32}
    (hlong : howLong ≠ 0) :
    (klogSetVerbose hz jiffies item verbose limit howLong).2.verbose = klogWord verbose limit ∧
      (klogSetVerbose hz jiffies item verbose limit howLong).2.name = item.name := by
  rw [klogSetVerbose_eq hmagic, settingOf, if_neg hlong]
  by_cases hgood : howLong ≠ forGood
  · rw [if_pos hgood]
    refine ⟨rfl, ?_⟩
    simp only [setForTime, setItemVerbose]
    split <;> rfl
  · rw [if_neg hgood]
    exact ⟨rfl, rfl⟩

theorem klogSetRatelimit_set (hz : BitVec 32) {item : KlogItem}
    (hmagic : item.magic = KLOG_ITEM_MAGIC) (interval burst : BitVec 32) :
    (klogSetRatelimit hz item interval burst).2 = setRatelimit (interval * hz) burst item := by
  rw [klogSetRatelimit, if_neg (not_not.mpr hmagic), setRatelimit]

/-- **What is set is what is shown, exactly when it has room in its column.** -/
theorem shownAsGiven_iff {hz jiffies jiffies' : BitVec 32} {s : KlogHeap} {c : KlogSetter}
    (hhz : 0 < hz.toNat) (hhz' : hz.toNat < 2 ^ 31)
    (hmagic : ∀ i ∈ s.list, (s.mem i).magic = KLOG_ITEM_MAGIC) (hc : c.Proper hz s) :
    ShownAsGiven hz jiffies' s (c.run hz jiffies s) c ↔ c.InColumn hz s := by
  have hticks : ∀ interval : Nat, interval * hz.toNat < 2 ^ 31 → interval < 2 ^ 31 :=
    fun interval h => Nat.lt_of_le_of_lt (Nat.le_mul_of_pos_right interval hhz) h
  cases c with
  | setVerbose i verbose limit howLong =>
    obtain ⟨hi, hlong⟩ := hc
    obtain ⟨hword, hname⟩ := klogSetVerbose_set hz jiffies (hmagic i hi)
      verbose limit hlong
    rw [KlogSetter.run, shownAsGiven_handle hi hname fun j => Iff.rfl]
    exact given_verbose_iff hword
  | setRatelimit i interval burst =>
    obtain ⟨hi, hinterval, hburst⟩ := hc
    have hset := klogSetRatelimit_set hz (hmagic i hi) (BitVec.ofNat 32 interval)
      (BitVec.ofNat 32 burst)
    have hstored : (BitVec.ofNat 32 interval * hz).toNat = interval * hz.toNat := by
      have := hticks interval hinterval
      rw [BitVec.toNat_mul, BitVec.toNat_ofNat, Nat.mod_eq_of_lt (a := interval) (by omega),
        Nat.mod_eq_of_lt (by omega)]
    have hname : (setRatelimit (BitVec.ofNat 32 interval * hz) (BitVec.ofNat 32 burst)
        (s.mem i)).name = (s.mem i).name := rfl
    rw [KlogSetter.run, hset, shownAsGiven_handle hi hname fun j => Iff.rfl]
    refine (given_ratelimit_iff hhz' hstored hinterval rfl hburst).trans ?_
    exact iff_of_true (Nat.mul_div_cancel interval hhz) trivial
  | writeVerbose buf name verbose limit =>
    obtain ⟨hname, hcommand⟩ := hc
    rw [KlogSetter.run, klogWrite_verbose hcommand hname.isWord, BitVec.ofNat_toNat,
      BitVec.ofNat_toNat, BitVec.setWidth_eq, BitVec.setWidth_eq]
    exact shownAsGiven_named (f := fun item => setForGood item verbose limit) (fun _ => rfl) rfl
      (klogSetVerboseByName_mem s name verbose limit) (fun j => Iff.rfl)
      (fun item => given_verbose_iff rfl)
  | writeRatelimit buf name interval burst =>
    obtain ⟨hname, hcommand, hinterval, hburst⟩ := hc
    have hsmall := hticks interval hinterval
    have hstored : (BitVec.ofNat 32 interval).toNat = interval := by
      rw [BitVec.toNat_ofNat, Nat.mod_eq_of_lt (by omega)]
    have hhzone : hz.toNat = 1 ↔ hz = 1 := by
      rw [BitVec.toNat_eq]
      rfl
    rw [KlogSetter.run, klogWrite_ratelimit hcommand hname.isWord]
    refine shownAsGiven_named (f := setRatelimit (BitVec.ofNat 32 interval)
      (BitVec.ofNat 32 burst)) (fun _ => rfl) rfl (klogSetRatelimitByName_mem s name _ _)
      (fun j => Iff.rfl) ?_
    intro item
    rw [← hhzone, ← Nat.div_eq_self]
    exact given_ratelimit_iff hhz' hstored hsmall rfl hburst

/-- One item, `nos`. -/
def oneItem : KlogHeap :=
  ⟨fun _ => klogInit 100 ⟨0, 0, 0, ⟨false, 0⟩, 0, 0, []⟩ (some (lit "nos")) 0xf 0, fun _ => 0,
    [0], 1⟩

theorem isName_nos : IsName (lit "nos") := ⟨by decide, by decide, by decide, by decide⟩

theorem blanks_one : Blanks (lit " ") := ⟨by decide, by decide⟩

/-- A command with one blank between its parts. -/
theorem isCommand_plain {word name : Text} {a b : Nat}
    (hlen : (word ++ (lit " " ++ (name ++ (lit " " ++ (numeral 16 a ++ (lit " " ++
      numeral 16 b)))))).length ≤ 1023) :
    IsCommand word name a b (word ++ (lit " " ++ (name ++ (lit " " ++ (numeral 16 a ++
      (lit " " ++ numeral 16 b)))))) :=
  ⟨[], lit " ", lit " ", lit " ", [], _, _, by simp, blanks_one, blanks_one, blanks_one, by simp,
    isHex_numeral a, isHex_numeral b, by simp, hlen⟩

/-- `set_verbose nos f 3` -/
theorem shownAsGiven_iff_command :
    let buf := lit "set_verbose nos f 3"
    let c := KlogSetter.writeVerbose buf (lit "nos") 0xf 3
    ShownAsGiven 100 7 oneItem (c.run 100 7 oneItem) c := by
  intro buf c
  have hc : c.Proper 100 oneItem := ⟨isName_nos, isCommand_plain (by decide)⟩
  exact (shownAsGiven_iff (by decide) (by decide) (by decide) hc).mpr fun _ => by decide

/-- A verbose of `0x100`, and an interval of 30 seconds that is given by name. -/
theorem shownAsGiven_broken :
    let verbose := KlogSetter.setVerbose 0 0x100 0 forGood
    let rate := KlogSetter.writeRatelimit (lit "set_ratelimit nos 1e 5") (lit "nos") 30 5
    (verbose.Proper 100 oneItem ∧
      ¬ ShownAsGiven 100 7 oneItem (verbose.run 100 7 oneItem) verbose) ∧
      rate.Proper 100 oneItem ∧ ¬ ShownAsGiven 100 7 oneItem (rate.run 100 7 oneItem) rate := by
  intro verbose rate
  have hcommand : IsCommand (lit "set_ratelimit") (lit "nos") 30 5
      (lit "set_ratelimit nos 1e 5") := isCommand_plain (by decide)
  refine ⟨⟨⟨by decide, by decide⟩, ?_⟩, ⟨isName_nos, hcommand, by decide, by decide⟩, ?_⟩
  · rw [KlogSetter.run, shownAsGiven_handle (by decide) (by decide) fun j => Iff.rfl]
    intro h
    exact absurd h.1 (by decide)
  · intro h
    obtain ⟨row, hname, ⟨hintv, -⟩, htext⟩ := h.given 0 (by decide) rfl
    rw [KlogSetter.run, klogWrite_ratelimit hcommand isName_nos.isWord] at htext
    have hrow := KlogRow.text_injective hname.symm htext
    rw [← hrow] at hintv
    exact absurd hintv (by decide)

end Puppies
