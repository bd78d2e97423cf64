/-
# Reading `/proc/klog` (`drivers/klog/src/klog_ioctl.c`, `klog_read`)

`klog_read` prints the listing and a help text straight into the buffer of the reader, and moves
the offset behind what it printed; a call that does not start at offset 0 returns 0.  So there is
one call that returns something, and it has to return everything.

With room for all of the text and a `NUL` it does.  With less, what is returned is the length that
`snprintf` reports, which is not what was stored: the last byte is a `NUL` if only that has no
room, and otherwise the length is more than the reader asked for (`klogRead_iff`).
-/
import Puppies.Klog.Show

namespace Puppies

open ByteMem CText

/-! ## 1. The call -/

/-- The text behind the listing. -/
def klogHelp : Text :=
  lit "\n" ++
  lit "Command: \n" ++
  lit "   set_verbose   name  verbose   ratelimit\n" ++
  lit "       --- set `verbose` with `ratelimit` on every bits\n" ++
  lit "           verbose(0~0xFF): 0x1->DEBUG, 0x2->INFO, 0x4->WARN, 0x8->ERROR, 0x10->DUMPBUF, " ++
  lit "0x40~0x8000->TRACE-1~TRACE-10\n" ++
  lit "           ratelimit(0~0xFF): open limit on `verbose`\n" ++
  lit "   set_ratelimit name  interval  burst\n" ++
  lit "       --- max `burst` in one `interval`\n"

def INT_MAX : Nat := 2147483647

/-- A read: the memory with the buffer at `buf`, `count`, and the time.  The kernel passes no
`count` on that is not an `int`. -/
structure ReadCall where
  mem : Mem
  buf : Nat
  count : Nat
  jiffies : BitVec 32
  count_pos : 0 < count
  count_le : count ≤ INT_MAX

/-- What it leaves. -/
structure ReadResult where
  ret : Nat
  off : Nat
  mem : Mem

/-- `klog_read` -/
def klogRead (hz : BitVec 32) (s : KlogHeap) (off : Nat) (c : ReadCall) : ReadResult :=
  if off ≠ 0 then ⟨0, off, c.mem⟩
  else
    let shown := klogShowList hz c.jiffies s c.mem c.buf c.count
    let printed := snprintf shown.1 (c.buf + shown.2) (c.count - shown.2) klogHelp
    let len := shown.2 + printed.2
    ⟨len, off + len, printed.1⟩

/-! ## 2. A sequence of calls -/

section Calls

variable (hz : BitVec 32) (s : KlogHeap) (calls : Nat → ReadCall)

/-- The offset in front of call `n`. -/
def readOff : Nat → Nat
  | 0 => 0
  | n + 1 => (klogRead hz s (readOff n) (calls n)).off

def readResult (n : Nat) : ReadResult := klogRead hz s (readOff hz s calls n) (calls n)

/-- What the first `n` calls return. -/
def delivered (n : Nat) : Text := (List.range n).flatMap fun i =>
  read (readResult hz s calls i).mem (calls i).buf (readResult hz s calls i).ret

/-- The full text: the listing, when it is read, and the help. -/
def klogText : Text := klogListing hz (calls 0).jiffies s ++ klogHelp

/-- **The contract of `read`.** -/
structure ReadContract : Prop where
  inside : ∀ n i, i < (calls n).buf ∨ (calls n).buf + (calls n).count ≤ i →
    (readResult hz s calls n).mem i = (calls n).mem i
  bounded : ∀ n, (readResult hz s calls n).ret ≤ (calls n).count
  complete : ∃ n, (readResult hz s calls n).ret = 0 ∧
    (∀ i < n, (readResult hz s calls i).ret ≠ 0) ∧
    delivered hz s calls n = klogText hz s calls

end Calls

/-! ## 3. The first call -/

/-- All that the first call prints. -/
def readTexts (hz jiffies : BitVec 32) (s : KlogHeap) : List Text :=
  klogTexts hz jiffies s ++ [klogHelp]

theorem flatten_readTexts (hz jiffies : BitVec 32) (s : KlogHeap) :
    (readTexts hz jiffies s).flatten = klogListing hz jiffies s ++ klogHelp := by
  rw [readTexts, List.flatten_append, flatten_klogTexts, List.flatten_singleton]

theorem klogRead_zero (hz : BitVec 32) (s : KlogHeap) (c : ReadCall) :
    klogRead hz s 0 c =
      let printed := (readTexts hz c.jiffies s).foldl (printOn c.buf c.count) (c.mem, 0)
      ⟨printed.2, printed.2, printed.1⟩ := by
  rw [klogRead, if_neg (by simp), klogShowList_eq, readTexts, List.foldl_append]
  simp [printOn]

theorem klogRead_of_pos (hz : BitVec 32) (s : KlogHeap) {off : Nat} (h : 0 < off) (c : ReadCall) :
    klogRead hz s off c = ⟨0, off, c.mem⟩ := if_pos (by omega)

theorem klogHelp_last : ∃ t, klogHelp = t ++ [0x0a] := by
  have hlast : ∃ t, lit "       --- max `burst` in one `interval`\n" = t ++ [0x0a] :=
    ⟨lit "       --- max `burst` in one `interval`", by decide⟩
  obtain ⟨t, ht⟩ := hlast
  exact ⟨_, by rw [klogHelp, ht, ← List.append_assoc]⟩

/-- What a call stores is inside the buffer. -/
theorem klogRead_inside (hz : BitVec 32) (s : KlogHeap) (off : Nat) (c : ReadCall) {i : Nat}
    (h : i < c.buf ∨ c.buf + c.count ≤ i) : (klogRead hz s off c).mem i = c.mem i := by
  rcases Nat.eq_zero_or_pos off with rfl | hpos
  · rw [klogRead_zero]
    exact foldl_printOn_of_not_mem (c.mem, 0) _ (by omega)
  · rw [klogRead_of_pos hz s hpos]

section Calls

variable (hz : BitVec 32) (s : KlogHeap) (calls : Nat → ReadCall)

theorem klogText_last : ∃ t, klogText hz s calls = t ++ [0x0a] := by
  obtain ⟨t, ht⟩ := klogHelp_last
  exact ⟨klogListing hz (calls 0).jiffies s ++ t, by rw [klogText, ht, List.append_assoc]⟩

/-- **What the first call returns**: the length of the text, or more than there is room for. -/
theorem readResult_zero_ret :
    (readResult hz s calls 0).ret = (klogText hz s calls).length ∨
      (calls 0).count < (readResult hz s calls 0).ret ∧
        (calls 0).count < (klogText hz s calls).length := by
  have hstart : ((((calls 0).mem, 0) : Mem × Nat).2 : Int) ≤ (calls 0).count :=
    Int.natCast_nonneg _
  have hsnd := foldl_printOn_snd (calls 0).buf hstart (readTexts hz (calls 0).jiffies s)
  rw [flatten_readTexts, Nat.zero_add] at hsnd
  rw [readResult, readOff, klogRead_zero, klogText]
  rcases hsnd with h | ⟨h, h'⟩
  · exact Or.inl h
  · exact Or.inr ⟨by exact_mod_cast h, by exact_mod_cast h'⟩

theorem readResult_zero_pos : 0 < (readResult hz s calls 0).ret := by
  obtain ⟨t, ht⟩ := klogText_last hz s calls
  rcases readResult_zero_ret hz s calls with h | ⟨h, -⟩
  · rw [h, ht, List.length_append, List.length_singleton]
    exact Nat.succ_pos _
  · exact Nat.lt_of_le_of_lt (Nat.zero_le _) h

/-- The calls behind the first one find the offset moved. -/
theorem readOff_succ (n : Nat) : readOff hz s calls (n + 1) = (readResult hz s calls 0).ret := by
  induction n with
  | zero => rw [readOff, readOff, readResult, readOff, klogRead_zero]
  | succ n ih =>
    rw [readOff, ih, klogRead_of_pos hz s (readResult_zero_pos hz s calls)]

theorem readResult_succ (n : Nat) : (readResult hz s calls (n + 1)).ret = 0 := by
  rw [readResult, readOff_succ, klogRead_of_pos hz s (readResult_zero_pos hz s calls)]

/-- So that what is delivered is what the first call returns. -/
theorem complete_iff : (∃ n, (readResult hz s calls n).ret = 0 ∧
      (∀ i < n, (readResult hz s calls i).ret ≠ 0) ∧
      delivered hz s calls n = klogText hz s calls) ↔
    read (readResult hz s calls 0).mem (calls 0).buf (readResult hz s calls 0).ret =
      klogText hz s calls := by
  have hpos := readResult_zero_pos hz s calls
  have hone : delivered hz s calls 1 =
      read (readResult hz s calls 0).mem (calls 0).buf (readResult hz s calls 0).ret :=
    List.append_nil _
  constructor
  · rintro ⟨n, hzero, hbefore, htext⟩
    match n with
    | 0 => omega
    | 1 => rw [← hone, htext]
    | n + 2 => exact absurd (readResult_succ hz s calls 0) (hbefore 1 (by omega))
  · intro htext
    refine ⟨1, readResult_succ hz s calls 0, ?_, hone.trans htext⟩
    intro i hi
    obtain rfl : i = 0 := by omega
    omega

/-- With room for the text but not for the `NUL`, the last byte of the buffer is the `NUL`. -/
theorem readResult_zero_nul (h : (klogText hz s calls).length = (calls 0).count) :
    (readResult hz s calls 0).mem ((calls 0).buf + (calls 0).count - 1) = 0 := by
  rw [klogText, List.length_append] at h
  have hstart : ((((calls 0).mem, 0) : Mem × Nat).2 : Int) ≤ (calls 0).count :=
    Int.natCast_nonneg _
  have hshown := foldl_printOn_snd (calls 0).buf hstart (klogTexts hz (calls 0).jiffies s)
  rw [flatten_klogTexts, Nat.zero_add] at hshown
  rw [readResult, readOff, klogRead_zero, readTexts, List.foldl_append]
  generalize (klogTexts hz (calls 0).jiffies s).foldl (printOn (calls 0).buf (calls 0).count)
    ((calls 0).mem, 0) = shown at hshown ⊢
  have hsum : ((calls 0).count : Int) = shown.2 + klogHelp.length := by omega
  obtain ⟨t, ht⟩ := klogHelp_last
  have hne : klogHelp ≠ [] := by
    rw [ht]
    simp
  exact printOn_last hne hsum

end Calls

/-! ## 4. The contract -/

/-- **Reads honour the contract** exactly when the first buffer has room for the whole text and one
byte more. -/
theorem klogRead_iff (hz : BitVec 32) (s : KlogHeap) (calls : Nat → ReadCall) :
    ReadContract hz s calls ↔ (klogText hz s calls).length < (calls 0).count := by
  constructor
  · rintro ⟨-, hbounded, hcomplete⟩
    rw [complete_iff] at hcomplete
    have hret : (readResult hz s calls 0).ret = (klogText hz s calls).length := by
      rw [← hcomplete, length_read]
    rcases Nat.lt_or_eq_of_le (hret ▸ hbounded 0) with hlt | heq
    · exact hlt
    · -- the `NUL` is in the place of the last byte
      obtain ⟨t, ht⟩ := klogText_last hz s calls
      have hnul := readResult_zero_nul hz s calls heq
      have hcount : (calls 0).count = t.length + 1 := by
        rw [← heq, ht, List.length_append, List.length_singleton]
      have hlast := congrArg (fun text => text[t.length]?) hcomplete
      rw [getElem?_read, hret, heq, hcount, if_pos (Nat.lt_succ_self _), ht,
        List.getElem?_concat_length, Option.some.injEq] at hlast
      have hat : (calls 0).buf + (calls 0).count - 1 = (calls 0).buf + t.length := by omega
      rw [hat, hlast] at hnul
      exact absurd hnul (by decide)
  · intro hroom
    have hne : readTexts hz (calls 0).jiffies s ≠ [] := by simp [readTexts]
    have hsize : ((readTexts hz (calls 0).jiffies s).flatten.length : Int) < (calls 0).count := by
      rw [flatten_readTexts]
      exact_mod_cast hroom
    obtain ⟨⟨htext, -⟩, hlen⟩ := printed_foldl_printOn (calls 0).mem (calls 0).buf hne hsize
    rw [flatten_readTexts] at htext hlen
    refine ⟨fun n i => klogRead_inside hz s _ (calls n), ?_, ?_⟩
    · intro n
      match n with
      | 0 =>
        rcases readResult_zero_ret hz s calls with h | ⟨-, h⟩
        · omega
        · omega
      | n + 1 =>
        rw [readResult_succ]
        exact Nat.zero_le _
    · rw [complete_iff, readResult, readOff, klogRead_zero]
      dsimp only
      rw [hlen]
      exact htext

/-- No items, and a reader that takes one byte at a time. -/
def noItems : KlogHeap := { oneItem with list := [] }

def oneByte : ReadCall := ⟨fun _ => 0, 4096, 1, 0, by decide, by decide⟩

/-- It is told that it has got more than the byte it asked for. -/
theorem klogRead_broken : 1 < (klogRead 100 noItems 0 oneByte).ret ∧
    ¬ ReadContract 100 noItems fun _ => oneByte := by
  have hret : 1 < (klogRead 100 noItems 0 oneByte).ret := by decide
  exact ⟨hret, fun h => absurd (h.bounded 0) (Nat.not_le.mpr hret)⟩

end Puppies
