/-
# Commands for `/proc/klog` (`drivers/klog/src/klog_ioctl.c`, `klog_write`)

`klog_write` keeps the first 1023 bytes of what is written, trims them, and lets `sscanf` take the
command apart.  The name goes into an array of 32 bytes with a `%s` that has no width: a word of
32 bytes or more goes past its end (`klogWrite_iff`), also when the command turns out to be none.

The rest is as it should be.  A command sets the items of its name and no others, and one that is
refused sets none.
-/
import Puppies.Klog.Show

namespace Puppies

open ByteMem CText

/-! ## 1. The word for the name -/

/-- `ptr`: what is left of the text that was written. -/
def klogCommand (buf : Text) : Text := strim ((buf.take 1023).takeWhile fun c => c ≠ 0)

/-- The first word of a text. -/
def firstWord (s : Text) : Text := (skipSpaces s).takeWhile fun c => !isSpace c

/-- The word behind that of the command. -/
def nameWord (buf : Text) : Text :=
  if (lit "set_verbose").isPrefixOf (klogCommand buf) then
    firstWord ((klogCommand buf).drop (lit "set_verbose").length)
  else if (lit "set_ratelimit").isPrefixOf (klogCommand buf) then
    firstWord ((klogCommand buf).drop (lit "set_ratelimit").length)
  else []

theorem noBlankFirst_skipSpaces (s : Text) : NoBlankFirst (skipSpaces s) := by
  intro c hc
  cases hs : skipSpaces s with
  | nil =>
    rw [hs] at hc
    cases hc
  | cons d t =>
    rw [hs] at hc
    obtain rfl := Option.some.inj hc
    have hhead := List.head?_dropWhile_not isSpace s
    rw [← skipSpaces, hs] at hhead
    simpa using hhead

/-- **What `sscanf` stores into the array**: the word, with its `NUL`. -/
theorem storedName_sscanf (word rest : Text) :
    storedName (sscanf (commandFormat word) (word ++ rest)) =
      if firstWord rest = [] then 0 else (firstWord rest).length + 1 := by
  rw [commandFormat, sscanf_bytes, sscanf, sscanf]
  cases hs : skipSpaces rest with
  | nil => simp [firstWord, hs, storedName]
  | cons c t =>
    have hc : isSpace c = false := noBlankFirst_skipSpaces rest c (by rw [hs]; rfl)
    have hself : skipSpaces (c :: t) = c :: t :=
      skipSpaces_of_noBlankFirst (by intro d hd; obtain rfl := Option.some.inj hd; exact hc)
    have hword : firstWord rest = (c :: t).takeWhile fun c => !isSpace c := by
      rw [firstWord, hs]
    have hne : firstWord rest ≠ [] := by
      simp [hword, hc]
    rw [if_neg (List.cons_ne_nil c t), hself, if_neg hne, hword]
    rfl

/-- A text behind the word of a command. -/
theorem drop_of_isPrefixOf {word s : Text} (h : word.isPrefixOf s = true) :
    s = word ++ s.drop word.length := by
  obtain ⟨t, rfl⟩ := List.isPrefixOf_iff_prefix.mp h
  rw [List.drop_left]

/-- **The bytes that are stored into the array.** -/
theorem klogWrite_named (s : KlogHeap) (buf : Text) : (klogWrite s buf).named =
    if nameWord buf = [] then 0 else (nameWord buf).length + 1 := by
  have hverbose := storedName_sscanf (lit "set_verbose")
    ((klogCommand buf).drop (lit "set_verbose").length)
  have hratelimit := storedName_sscanf (lit "set_ratelimit")
    ((klogCommand buf).drop (lit "set_ratelimit").length)
  rw [klogWrite, ← klogCommand, nameWord]
  by_cases hv : (lit "set_verbose").isPrefixOf (klogCommand buf) = true
  · rw [if_pos hv, if_pos hv, ← hverbose, ← drop_of_isPrefixOf hv]
    split
    · next h => rw [h]; rfl
    · rfl
  · rw [if_neg hv, if_neg hv]
    by_cases hr : (lit "set_ratelimit").isPrefixOf (klogCommand buf) = true
    · rw [if_pos hr, if_pos hr, ← hratelimit, ← drop_of_isPrefixOf hr]
      split
      · next h => rw [h]; rfl
      · rfl
    · rw [if_neg hr, if_neg hr]
      rfl

/-! ## 2. What a command does to the items -/

/-- A call returns the length of what was written, or changes nothing. -/
theorem klogWrite_ret (s : KlogHeap) (buf : Text) :
    (klogWrite s buf).ret = buf.length ∨ (klogWrite s buf).heap = s := by
  rw [klogWrite, ← klogCommand]
  by_cases hv : (lit "set_verbose").isPrefixOf (klogCommand buf) = true
  · rw [if_pos hv]
    split
    · exact Or.inl rfl
    · exact Or.inr rfl
  · rw [if_neg hv]
    by_cases hr : (lit "set_ratelimit").isPrefixOf (klogCommand buf) = true
    · rw [if_pos hr]
      split
      · exact Or.inl rfl
      · exact Or.inr rfl
    · rw [if_neg hr]
      exact Or.inl rfl

/-- Only the bytes that are kept count. -/
theorem klogWrite_take (s : KlogHeap) (buf : Text) :
    (klogWrite s (buf.take 1023)).heap = (klogWrite s buf).heap := by
  have hkept : klogCommand (buf.take 1023) = klogCommand buf := by
    rw [klogCommand, List.take_take, Nat.min_self, ← klogCommand]
  rw [klogWrite, klogWrite, ← klogCommand, ← klogCommand, hkept]
  by_cases hv : (lit "set_verbose").isPrefixOf (klogCommand buf) = true
  · rw [if_pos hv, if_pos hv]
    split
    · rfl
    · rfl
  · rw [if_neg hv, if_neg hv]
    by_cases hr : (lit "set_ratelimit").isPrefixOf (klogCommand buf) = true
    · rw [if_pos hr, if_pos hr]
      split
      · rfl
      · rfl
    · rw [if_neg hr, if_neg hr]

/-- The items of the name are changed by `f`, and nothing else. -/
def UpdatesNamed (name : Text) (f : KlogItem → KlogItem) (s t : KlogHeap) : Prop :=
  t = { s with mem := fun i => if i ∈ s.list ∧ (s.mem i).name = name then f (s.mem i) else s.mem i }

theorem updatesNamed_verbose (s : KlogHeap) (name : Text) (verbose limit : BitVec 16) :
    UpdatesNamed name (fun item => setForGood item verbose limit) s
      (klogSetVerboseByName s name verbose limit).2 := by
  have hmem := funext (klogSetVerboseByName_mem s name verbose limit)
  rw [UpdatesNamed, ← hmem]
  rfl

theorem updatesNamed_ratelimit (s : KlogHeap) (name : Text) (interval burst : BitVec 32) :
    UpdatesNamed name (setRatelimit interval burst) s
      (klogSetRatelimitByName s name interval burst).2 := by
  have hmem := funext (klogSetRatelimitByName_mem s name interval burst)
  rw [UpdatesNamed, ← hmem]
  rfl

/-! ## 3. Within bounds -/

/-- **Commands are parsed within bounds**: the array has 32 bytes.  What counts of a text is the
part that is kept. -/
structure CommandInBounds (s : KlogHeap) (buf : Text) : Prop where
  bounded : (klogWrite s buf).named ≤ 32
  verbose : ∀ name a b, IsWord name → IsCommand (lit "set_verbose") name a b (buf.take 1023) →
    UpdatesNamed name (fun item => setForGood item (BitVec.ofNat 16 a) (BitVec.ofNat 16 b)) s
      (klogWrite s buf).heap
  ratelimit : ∀ name a b, IsWord name →
    IsCommand (lit "set_ratelimit") name a b (buf.take 1023) →
    UpdatesNamed name (setRatelimit (BitVec.ofNat 32 a) (BitVec.ofNat 32 b)) s
      (klogWrite s buf).heap
  refused : (klogWrite s buf).ret = -22 → (klogWrite s buf).heap = s

/-- **A text is parsed within bounds** exactly when the word for the name has at most 31 bytes. -/
theorem klogWrite_iff (s : KlogHeap) (buf : Text) :
    CommandInBounds s buf ↔ (nameWord buf).length ≤ 31 := by
  have hnamed := klogWrite_named s buf
  constructor
  · rintro ⟨hbounded, -⟩
    by_cases hnil : nameWord buf = []
    · rw [hnil]
      exact Nat.zero_le _
    · rw [hnamed, if_neg hnil] at hbounded
      omega
  · intro hlen
    refine ⟨?_, ?_, ?_, ?_⟩
    · rw [hnamed]
      split
      · exact Nat.zero_le _
      · omega
    · intro name a b hname hcommand
      rw [← klogWrite_take, klogWrite_verbose hcommand hname]
      exact updatesNamed_verbose s name _ _
    · intro name a b hname hcommand
      rw [← klogWrite_take, klogWrite_ratelimit hcommand hname]
      exact updatesNamed_ratelimit s name _ _
    · intro hret
      refine (klogWrite_ret s buf).resolve_left ?_
      omega

/-- A name of 32 bytes, and nothing else: the command is refused, and 33 bytes were stored. -/
theorem klogWrite_broken :
    let buf := lit "set_verbose aaaaaaaaaaaaaaaabbbbbbbbbbbbbbbb"
    (klogWrite oneItem buf).ret = -22 ∧ (klogWrite oneItem buf).named = 33 ∧
      ¬ CommandInBounds oneItem buf := by
  intro buf
  have hnamed : (klogWrite oneItem buf).named = 33 := by decide
  refine ⟨by decide, hnamed, ?_⟩
  intro h
  have hbounded := h.bounded
  omega

end Puppies
