/-
# Log items (`drivers/klog/src/klog_linux.c`)

A kernel module that wants to log asks for an item, which holds one word: which of its messages
are wanted, in the lower half, and which of these are to be limited in their rate, in the upper
half.  The word can be set for good, or for a time; then a timer puts back what was there, which
the item remembers in `original_verbose`.

`original_verbose` is also its own mark: 0 means that nothing is remembered.  And `klog_init`
does not write it, so that it holds what `kmalloc` returned.
-/
import Puppies.Lib.Bytes

namespace Puppies

open ByteMem

/-! ## 1. Items -/

/-- `struct timer_list`. -/
structure KTimer where
  /-- armed, and not fired -/
  pending : Bool
  expires : BitVec 32
  deriving DecidableEq, Repr

/-- `struct klog_item`, without the lock and the list links. -/
structure KlogItem where
  magic : BitVec 32
  verbose : BitVec 32
  originalVerbose : BitVec 32
  timer : KTimer
  /-- `ratelimit.interval` -/
  interval : BitVec 32
  /-- `ratelimit.burst` -/
  burst : BitVec 32
  /-- the characters in front of the `NUL` -/
  name : List Byte
  deriving DecidableEq, Repr

/-- `KLOG_ITEM_MAGIC` -/
def KLOG_ITEM_MAGIC : BitVec 32 := 0x2233abcd

/-- `(limit << 16) | verbose` -/
def klogWord (verbose limit : BitVec 16) : BitVec 32 :=
  limit.setWidth 32 <<< 16 ||| verbose.setWidth 32

/-- `(uint32_t) - 1`, for a setting that is to stay. -/
def forGood : BitVec 32 := -1

/-! ## 2. Timers -/

/-- `init_timer` -/
def initTimer (timer : KTimer) : KTimer := { timer with pending := false }

/-- `del_timer`: a timer that has fired is not touched by it. -/
def delTimer (timer : KTimer) : KTimer := { timer with pending := false }

/-- `mod_timer` -/
def modTimer (_ : KTimer) (expires : BitVec 32) : KTimer := ⟨true, expires⟩

/-! ## 3. The word -/

/-- `__set_item_verbose` -/
def setItemVerbose (item : KlogItem) (verbose limit : BitVec 16) : KlogItem :=
  { item with verbose := klogWord verbose limit }

/-- `__clear_item_timer` -/
def clearItemTimer (item : KlogItem) : KlogItem :=
  { item with timer := delTimer item.timer, originalVerbose := 0 }

/-- `restore_verbose`, the function of the timer. -/
def restoreVerbose (item : KlogItem) : KlogItem :=
  { item with verbose := item.originalVerbose, originalVerbose := 0 }

/-- The locked section of a setting for a time. -/
def setForTime (item : KlogItem) (verbose limit : BitVec 16) (expires : BitVec 32) : KlogItem :=
  let item := { item with timer := delTimer item.timer }
  let item :=
    if item.originalVerbose = 0 then { item with originalVerbose := item.verbose } else item
  let item := setItemVerbose item verbose limit
  { item with timer := modTimer item.timer expires }

/-- The locked section of a setting for good, which `klog_set_verbose` and
`klog_set_verbose_by_name` have in common. -/
def setForGood (item : KlogItem) (verbose limit : BitVec 16) : KlogItem :=
  setItemVerbose (clearItemTimer item) verbose limit

/-- `klog_set_verbose`: the return value and the item. -/
def klogSetVerbose (hz jiffies : BitVec 32) (item : KlogItem) (verbose ratelimit : BitVec 16)
    (howLong : BitVec 32) : Int × KlogItem :=
  if item.magic ≠ KLOG_ITEM_MAGIC then (-1, item)
  else if howLong = 0 then (0, item)
  else if howLong ≠ forGood then
    (0, setForTime item verbose ratelimit (jiffies + howLong * hz))
  else (0, setForGood item verbose ratelimit)

/-- `"undefined"` -/
def undefinedName : List Byte := [0x75, 0x6e, 0x64, 0x65, 0x66, 0x69, 0x6e, 0x65, 0x64]

/-- `klog_init`: the item in the block that `kmalloc` returned. -/
def klogInit (hz : BitVec 32) (block : KlogItem) (name : Option (List Byte))
    (verbose limitFlag : BitVec 16) : KlogItem :=
  let item := setItemVerbose { block with magic := KLOG_ITEM_MAGIC } verbose limitFlag
  { item with
    name := (name.getD undefinedName).take 31
    interval := 10 * hz
    burst := 5
    timer := initTimer item.timer }

/-! ## 4. What the settings do to the fields -/

section Fields

variable (hz jiffies : BitVec 32) (item : KlogItem) (verbose limit : BitVec 16)
variable (expires : BitVec 32)

@[simp] theorem setForTime_verbose :
    (setForTime item verbose limit expires).verbose = klogWord verbose limit := rfl
@[simp] theorem setForTime_pending : (setForTime item verbose limit expires).timer.pending = true :=
  rfl
@[simp] theorem setForTime_magic : (setForTime item verbose limit expires).magic = item.magic := by
  simp only [setForTime, setItemVerbose]; split <;> rfl
@[simp] theorem setForTime_original : (setForTime item verbose limit expires).originalVerbose =
    if item.originalVerbose = 0 then item.verbose else item.originalVerbose := by
  simp only [setForTime, setItemVerbose]; split <;> rfl

@[simp] theorem setForGood_verbose :
    (setForGood item verbose limit).verbose = klogWord verbose limit := rfl
@[simp] theorem setForGood_pending : (setForGood item verbose limit).timer.pending = false := rfl
@[simp] theorem setForGood_magic : (setForGood item verbose limit).magic = item.magic := rfl
@[simp] theorem setForGood_original : (setForGood item verbose limit).originalVerbose = 0 := rfl

@[simp] theorem restoreVerbose_verbose : (restoreVerbose item).verbose = item.originalVerbose := rfl
@[simp] theorem restoreVerbose_original : (restoreVerbose item).originalVerbose = 0 := rfl
@[simp] theorem restoreVerbose_timer : (restoreVerbose item).timer = item.timer := rfl
@[simp] theorem restoreVerbose_magic : (restoreVerbose item).magic = item.magic := rfl

end Fields

/-- What a call of `klog_set_verbose` asks for. -/
inductive Setting
  | nothing
  | forTime
  | forGood
  deriving DecidableEq, Repr

/-- The meaning of `how_long`. -/
def settingOf (howLong : BitVec 32) : Setting :=
  if howLong = 0 then .nothing else if howLong ≠ forGood then .forTime else .forGood

/-- **A call of `klog_set_verbose`** on an item does what it asks for. -/
theorem klogSetVerbose_eq {hz jiffies : BitVec 32} {item : KlogItem}
    (hmagic : item.magic = KLOG_ITEM_MAGIC) (verbose ratelimit : BitVec 16) (howLong : BitVec 32) :
    (klogSetVerbose hz jiffies item verbose ratelimit howLong).2 =
      match settingOf howLong with
      | .nothing => item
      | .forTime => setForTime item verbose ratelimit (jiffies + howLong * hz)
      | .forGood => setForGood item verbose ratelimit := by
  unfold klogSetVerbose settingOf
  rw [if_neg (not_not.mpr hmagic)]
  split
  · rfl
  · split
    · rfl
    · rfl

theorem klogSetVerbose_magic (hz jiffies : BitVec 32) (item : KlogItem)
    (verbose ratelimit : BitVec 16) (howLong : BitVec 32) :
    (klogSetVerbose hz jiffies item verbose ratelimit howLong).2.magic = item.magic := by
  unfold klogSetVerbose
  split
  · rfl
  · split
    · rfl
    · split
      · exact setForTime_magic ..
      · rfl

@[simp] theorem klogInit_magic (hz : BitVec 32) (block : KlogItem) (name : Option (List Byte))
    (verbose limitFlag : BitVec 16) :
    (klogInit hz block name verbose limitFlag).magic = KLOG_ITEM_MAGIC := rfl

end Puppies
