/-
# Sessions at `/proc/klog`

Commands are written to `/proc/klog`, and its text is read, in any order.  What is read has a row
for each item, and in this row the LAST command of each kind for the item's name: a command leaves
alone what the other kind set, and nothing is left of an earlier one of its own kind.  So what a
session leaves is told by its last commands (`settled`), not by its course.

Two things can go wrong.  The word behind a command may go past the end of its array
(`Puppies.Klog.Write`), and a reader may be told that it has got more than it asked for
(`Puppies.Klog.Read`).  A session goes as it is meant exactly when neither happens
(`klogSession_iff`).
-/
import Puppies.Klog.Read
import Puppies.Klog.Write
import Puppies.Lib.Runs

namespace Puppies

open ByteMem CText EventRun

/-! ## 1. What a command asks for -/

/-- A setting for the items of a name. -/
inductive KlogSetting
  | verbose (name : Text) (verbose limit : BitVec 16)
  | ratelimit (name : Text) (interval burst : BitVec 32)
  deriving DecidableEq, Repr

def KlogSetting.name : KlogSetting → Text
  | .verbose name _ _ => name
  | .ratelimit name _ _ => name

/-- Which of the two it sets. -/
def KlogSetting.isVerbose : KlogSetting → Bool
  | .verbose _ _ _ => true
  | .ratelimit _ _ _ => false

/-- What becomes of an item. -/
def KlogSetting.apply : KlogSetting → KlogItem → KlogItem
  | .verbose _ word limit, item => setForGood item word limit
  | .ratelimit _ interval burst, item => setRatelimit interval burst item

/-- What becomes of all. -/
def KlogSetting.set (c : KlogSetting) (s : KlogHeap) : KlogHeap :=
  { s with
    mem := fun i => if i ∈ s.list ∧ (s.mem i).name = c.name then c.apply (s.mem i) else s.mem i }

/-- The name and the two numbers that were converted, if they were. -/
def namedNumbers : List Conversion → Option (Text × Nat × Nat)
  | [.str name, .num a, .num b] => some (name, a, b)
  | _ => none

/-- What a text asks for, if it is a command. -/
def commandOf (buf : Text) : Option KlogSetting :=
  if (lit "set_verbose").isPrefixOf (klogCommand buf) then
    (namedNumbers (sscanf (commandFormat (lit "set_verbose")) (klogCommand buf))).map fun v =>
      .verbose v.1 (BitVec.ofNat 16 v.2.1) (BitVec.ofNat 16 v.2.2)
  else if (lit "set_ratelimit").isPrefixOf (klogCommand buf) then
    (namedNumbers (sscanf (commandFormat (lit "set_ratelimit")) (klogCommand buf))).map fun v =>
      .ratelimit v.1 (BitVec.ofNat 32 v.2.1) (BitVec.ofNat 32 v.2.2)
  else none

/-- A text that begins like a command and is none. -/
def refused (buf : Text) : Bool :=
  (commandOf buf).isNone && ((lit "set_verbose").isPrefixOf (klogCommand buf) ||
    (lit "set_ratelimit").isPrefixOf (klogCommand buf))

theorem namedNumbers_eq_some {converted : List Conversion} {v : Text × Nat × Nat}
    (h : namedNumbers converted = some v) : converted = [.str v.1, .num v.2.1, .num v.2.2] := by
  unfold namedNumbers at h
  split at h
  · obtain rfl := Option.some.inj h
    rfl
  · exact absurd h (by simp)

/-- **A text that is written** does what it asks for, and is refused if it is half a command. -/
theorem klogWrite_commandOf (s : KlogHeap) (buf : Text) :
    (klogWrite s buf).heap = (commandOf buf).toList.foldl (fun s c => c.set s) s ∧
      (klogWrite s buf).ret = if refused buf = true then -22 else (buf.length : Int) := by
  rw [klogWrite, ← klogCommand, refused, commandOf]
  by_cases hv : (lit "set_verbose").isPrefixOf (klogCommand buf) = true
  · rw [if_pos hv, if_pos hv, hv]
    generalize sscanf (commandFormat (lit "set_verbose")) (klogCommand buf) = converted
    cases hnum : namedNumbers converted with
    | some v =>
      obtain rfl := namedNumbers_eq_some hnum
      exact ⟨updatesNamed_verbose s v.1 _ _, rfl⟩
    | none =>
      split
      · exact absurd hnum (by simp [namedNumbers])
      · exact ⟨rfl, rfl⟩
  · rw [if_neg hv, if_neg hv, Bool.eq_false_of_not_eq_true hv]
    by_cases hr : (lit "set_ratelimit").isPrefixOf (klogCommand buf) = true
    · rw [if_pos hr, if_pos hr, hr]
      generalize sscanf (commandFormat (lit "set_ratelimit")) (klogCommand buf) = converted
      cases hnum : namedNumbers converted with
      | some v =>
        obtain rfl := namedNumbers_eq_some hnum
        exact ⟨updatesNamed_ratelimit s v.1 _ _, rfl⟩
      | none =>
        split
        · exact absurd hnum (by simp [namedNumbers])
        · exact ⟨rfl, rfl⟩
    · rw [if_neg hr, if_neg hr, Bool.eq_false_of_not_eq_true hr]
      exact ⟨rfl, rfl⟩

/-! ## 2. The last commands -/

/-- The last setting of a kind for the items of a name. -/
def lastSetting (cs : List KlogSetting) (verbose : Bool) (name : Text) : Option KlogSetting :=
  cs.reverse.find? fun c => c.isVerbose == verbose && c.name == name

/-- The item after a setting, if there is one. -/
def applyLast (last : Option KlogSetting) (item : KlogItem) : KlogItem :=
  last.elim item fun c => c.apply item

/-- The item after the last setting of each kind for its name. -/
def settledItem (cs : List KlogSetting) (item : KlogItem) : KlogItem :=
  applyLast (lastSetting cs false item.name) (applyLast (lastSetting cs true item.name) item)

/-- All items after these. -/
def KlogHeap.settled (s : KlogHeap) (cs : List KlogSetting) : KlogHeap :=
  { s with mem := fun i => if i ∈ s.list then settledItem cs (s.mem i) else s.mem i }

/-- Of two settings of one kind the last one counts. -/
theorem KlogSetting.apply_apply_of_eq {c d : KlogSetting} (h : c.isVerbose = d.isVerbose)
    (item : KlogItem) : c.apply (d.apply item) = c.apply item := by
  cases c with
  | verbose =>
    cases d with
    | verbose => rfl
    | ratelimit => exact absurd h.symm Bool.false_ne_true
  | ratelimit =>
    cases d with
    | verbose => exact absurd h Bool.false_ne_true
    | ratelimit => rfl

/-- Two of different kinds do not touch each other. -/
theorem KlogSetting.apply_comm {c d : KlogSetting} (h : c.isVerbose ≠ d.isVerbose)
    (item : KlogItem) : c.apply (d.apply item) = d.apply (c.apply item) := by
  cases c with
  | verbose =>
    cases d with
    | verbose => exact absurd rfl h
    | ratelimit => rfl
  | ratelimit =>
    cases d with
    | verbose => rfl
    | ratelimit => exact absurd rfl h

@[simp] theorem KlogSetting.name_apply (c : KlogSetting) (item : KlogItem) :
    (c.apply item).name = item.name := by
  cases c <;> rfl

@[simp] theorem name_applyLast (last : Option KlogSetting) (item : KlogItem) :
    (applyLast last item).name = item.name := by
  cases last with
  | none => rfl
  | some c => exact c.name_apply item

@[simp] theorem name_settledItem (cs : List KlogSetting) (item : KlogItem) :
    (settledItem cs item).name = item.name := by
  rw [settledItem, name_applyLast, name_applyLast]

theorem isVerbose_of_lastSetting {cs : List KlogSetting} {verbose : Bool} {name : Text}
    {c : KlogSetting} (h : lastSetting cs verbose name = some c) : c.isVerbose = verbose := by
  have hc := List.find?_some h
  rw [Bool.and_eq_true, beq_iff_eq] at hc
  exact hc.1

theorem lastSetting_concat (cs : List KlogSetting) (c : KlogSetting) (verbose : Bool)
    (name : Text) : lastSetting (cs ++ [c]) verbose name =
      if c.isVerbose = verbose ∧ c.name = name then some c else lastSetting cs verbose name := by
  rw [lastSetting, List.reverse_concat, List.find?_cons]
  by_cases h : c.isVerbose = verbose ∧ c.name = name
  · rw [if_pos h, h.1, h.2, beq_self_eq_true, beq_self_eq_true]
    rfl
  · have hno : (c.isVerbose == verbose && c.name == name) = false := by
      rw [← Bool.not_eq_true, Bool.and_eq_true, beq_iff_eq, beq_iff_eq]
      exact h
    rw [if_neg h, hno]
    rfl

/-- **One more setting.** -/
theorem settledItem_concat (cs : List KlogSetting) (c : KlogSetting) (item : KlogItem) :
    settledItem (cs ++ [c]) item =
      if item.name = c.name then c.apply (settledItem cs item) else settledItem cs item := by
  rw [settledItem, lastSetting_concat, lastSetting_concat, settledItem]
  by_cases hname : item.name = c.name
  · rw [if_pos hname]
    cases hc : c.isVerbose with
    | true =>
      rw [if_neg (by simp), if_pos ⟨rfl, hname.symm⟩]
      have hover : c.apply (applyLast (lastSetting cs true item.name) item) = c.apply item := by
        cases hlast : lastSetting cs true item.name with
        | none => rfl
        | some d =>
          exact c.apply_apply_of_eq (hc.trans (isVerbose_of_lastSetting hlast).symm) item
      -- the limit that was set is left alone
      cases hlast : lastSetting cs false item.name with
      | none => exact hover.symm
      | some d =>
        have hd := isVerbose_of_lastSetting hlast
        have hne : c.isVerbose ≠ d.isVerbose := by
          rw [hc, hd]
          decide
        calc d.apply (c.apply item)
            = d.apply (c.apply (applyLast (lastSetting cs true item.name) item)) := by rw [hover]
          _ = c.apply (d.apply (applyLast (lastSetting cs true item.name) item)) :=
              (KlogSetting.apply_comm hne _).symm
    | false =>
      rw [if_pos ⟨rfl, hname.symm⟩, if_neg (by simp)]
      cases hlast : lastSetting cs false item.name with
      | none => rfl
      | some d =>
        exact (c.apply_apply_of_eq (hc.trans (isVerbose_of_lastSetting hlast).symm) _).symm
  · have hother : ∀ verbose, ¬ (c.isVerbose = verbose ∧ c.name = item.name) :=
      fun _ h => hname h.2.symm
    rw [if_neg (hother false), if_neg (hother true), if_neg hname]

theorem KlogHeap.settled_nil (s : KlogHeap) : s.settled [] = s := by
  have hmem : (fun i => if i ∈ s.list then settledItem [] (s.mem i) else s.mem i) = s.mem := by
    funext i
    exact ite_self (s.mem i)
  rw [KlogHeap.settled, hmem]

theorem KlogHeap.settled_concat (s : KlogHeap) (cs : List KlogSetting) (c : KlogSetting) :
    s.settled (cs ++ [c]) = c.set (s.settled cs) := by
  have hmem : (fun i => if i ∈ s.list then settledItem (cs ++ [c]) (s.mem i) else s.mem i) =
      (c.set (s.settled cs)).mem := by
    funext i
    by_cases hi : i ∈ s.list
    · simp [KlogSetting.set, KlogHeap.settled, hi, settledItem_concat]
    · simp [KlogSetting.set, KlogHeap.settled, hi]
  rw [KlogHeap.settled, hmem]
  rfl

/-- **Any number of settings.**  The last ones decide. -/
theorem KlogHeap.foldl_set_settled (s : KlogHeap) (cs cs' : List KlogSetting) :
    cs'.foldl (fun s c => c.set s) (s.settled cs) = s.settled (cs ++ cs') := by
  induction cs' generalizing cs with
  | nil => rw [List.foldl_nil, List.append_nil]
  | cons c cs' ih =>
    rw [List.foldl_cons, ← KlogHeap.settled_concat, ih, List.append_assoc, List.singleton_append]

/-! ## 3. Sessions -/

/-- What is done at the file. -/
inductive ConsoleEvent
  /-- a text is written -/
  | echo (buf : Text)
  /-- the file is opened and read; a second call finds the end -/
  | cat (c : ReadCall)

/-- What comes back. -/
inductive ConsoleAnswer
  | returned (ret : Int)
  | shown (text : Text)

/-- One of these; `none` if the array, or the buffer of the reader, is left. -/
def consoleStep (hz : BitVec 32) (s : KlogHeap) : ConsoleEvent → Option (KlogHeap × ConsoleAnswer)
  | .echo buf =>
    let r := klogWrite s buf
    if r.named ≤ 32 then some (r.heap, .returned r.ret) else none
  | .cat c =>
    let r := klogRead hz s 0 c
    if r.ret ≤ c.count then some (s, .shown (read r.mem c.buf r.ret)) else none

/-- What it sets. -/
def ConsoleEvent.settings : ConsoleEvent → List KlogSetting
  | .echo buf => (commandOf buf).toList
  | .cat _ => []

/-- What is to come back. -/
def ConsoleEvent.answer (hz : BitVec 32) (s : KlogHeap) : ConsoleEvent → ConsoleAnswer
  | .echo buf => .returned (if refused buf = true then -22 else (buf.length : Int))
  | .cat c => .shown (klogListing hz c.jiffies s ++ klogHelp)

/-- The word has room in its array, the text and a `NUL` in the buffer. -/
def ConsoleEvent.Fits (hz : BitVec 32) (s : KlogHeap) : ConsoleEvent → Prop
  | .echo buf => (nameWord buf).length ≤ 31
  | .cat c => (klogListing hz c.jiffies s ++ klogHelp).length < c.count

/-- What is to come back, one after the other; `cs` is what was set before. -/
def consoleAnswers (hz : BitVec 32) (s : KlogHeap) :
    List KlogSetting → List ConsoleEvent → List ConsoleAnswer
  | _, [] => []
  | cs, e :: es => e.answer hz (s.settled cs) :: consoleAnswers hz s (cs ++ e.settings) es

/-- There is room each time. -/
def ConsoleFits (hz : BitVec 32) (s : KlogHeap) : List KlogSetting → List ConsoleEvent → Prop
  | _, [] => True
  | cs, e :: es => e.Fits hz (s.settled cs) ∧ ConsoleFits hz s (cs ++ e.settings) es

/-- The array has room for the word and its `NUL`. -/
theorem named_le_iff (s : KlogHeap) (buf : Text) :
    (klogWrite s buf).named ≤ 32 ↔ (nameWord buf).length ≤ 31 := by
  rw [klogWrite_named]
  split
  · next h => simp [h]
  · omega

/-- One reading. -/
theorem shown_iff (hz : BitVec 32) (s : KlogHeap) (c : ReadCall) :
    ((klogRead hz s 0 c).ret ≤ c.count ∧ read (klogRead hz s 0 c).mem c.buf
      (klogRead hz s 0 c).ret = klogListing hz c.jiffies s ++ klogHelp) ↔
        (klogListing hz c.jiffies s ++ klogHelp).length < c.count := by
  have hiff := klogRead_iff hz s fun _ => c
  have hcomplete := complete_iff hz s fun _ => c
  constructor
  · rintro ⟨hret, htext⟩
    refine hiff.mp ⟨fun n i => klogRead_inside hz s _ c, ?_, hcomplete.mpr htext⟩
    intro n
    cases n with
    | zero => exact hret
    | succ n =>
      rw [readResult_succ]
      exact Nat.zero_le _
  · intro hroom
    have hcontract := hiff.mpr hroom
    exact ⟨hcontract.bounded 0, hcomplete.mp hcontract.complete⟩

/-- **One step** is as it is meant to be exactly when there is room. -/
theorem consoleStep_iff {hz : BitVec 32} {s t : KlogHeap} {e : ConsoleEvent} :
    consoleStep hz s e = some (t, e.answer hz s) ↔
      e.Fits hz s ∧ t = e.settings.foldl (fun s c => c.set s) s := by
  cases e with
  | echo buf =>
    obtain ⟨hheap, hret⟩ := klogWrite_commandOf s buf
    rw [consoleStep, ConsoleEvent.Fits, ← named_le_iff s buf, ConsoleEvent.answer,
      ConsoleEvent.settings, ← hheap, ← hret]
    simp [eq_comm]
  | cat c =>
    rw [consoleStep, ConsoleEvent.Fits, ← shown_iff, ConsoleEvent.answer, ConsoleEvent.settings]
    simp [eq_comm, and_comm, and_assoc]

theorem answers_settled_iff (hz : BitVec 32) (s : KlogHeap) (es : List ConsoleEvent)
    (cs : List KlogSetting) :
    answers (consoleStep hz) (s.settled cs) es =
        some (s.settled (cs ++ es.flatMap ConsoleEvent.settings), consoleAnswers hz s cs es) ↔
      ConsoleFits hz s cs es := by
  induction es generalizing cs with
  | nil => simp [consoleAnswers, ConsoleFits]
  | cons e es ih =>
    rw [consoleAnswers, answers_cons_eq_some, List.flatMap_cons, ← List.append_assoc]
    constructor
    · rintro ⟨t, hstep, hrest⟩
      obtain ⟨hfits, rfl⟩ := consoleStep_iff.mp hstep
      rw [KlogHeap.foldl_set_settled] at hrest
      exact ⟨hfits, (ih _).mp hrest⟩
    · rintro ⟨hfits, hrest⟩
      refine ⟨_, consoleStep_iff.mpr ⟨hfits, rfl⟩, ?_⟩
      rw [KlogHeap.foldl_set_settled]
      exact (ih _).mpr hrest

/-- **Sessions.**  Whatever is written and read, in any order: each command sets the items of its
name, each text is answered, and each reading gets the whole listing, with the last commands in
it, exactly when there is room each time. -/
theorem klogSession_iff (hz : BitVec 32) (s : KlogHeap) (es : List ConsoleEvent) :
    answers (consoleStep hz) s es =
        some (s.settled (es.flatMap ConsoleEvent.settings), consoleAnswers hz s [] es) ↔
      ConsoleFits hz s [] es := by
  have h := answers_settled_iff hz s es []
  rwa [KlogHeap.settled_nil, List.nil_append] at h

/-- A verbose that is set twice, with an interval in between. -/
example :
    let texts := [lit "set_verbose nos ff 0", lit " set_ratelimit nos 64 5\n",
      lit "set_verbose nos 3 1", lit "set_verbose other 8 8"]
    let item := (oneItem.settled (texts.flatMap fun buf => (commandOf buf).toList)).mem 0
    item.verbose = 0x10003 ∧ item.interval = 100 ∧ item.burst = 5 := by decide +kernel

end Puppies
