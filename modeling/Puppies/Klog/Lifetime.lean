/-
# Timers and their items

The items of all modules are in one list, `g_klog_list`.  `klog_fini` takes an item out of it
and frees it, but does not look at its timer: a setting for a time that still runs then has its
timer fire on a freed item, and `restore_verbose` writes into it.

Here the whole list is modelled, each item with its timer in the two halves of
`Klog/Override.lean`.  `timersLive_iff` says when no timer outlives its item, and
`heapRun_timerRun` that, while it is registered, each item is an item of that file.
-/
import Puppies.Klog.Override

namespace Puppies

open ByteMem EventRun

/-! ## 1. The list -/

/-- The items, each under the number of its `klog_init`, and what happened to their timers. -/
structure KlogHeap where
  mem : Nat → KlogItem
  /-- how many calls of `restore_verbose` for an item have started and wait for its lock -/
  waiting : Nat → Nat
  /-- `g_klog_list` -/
  list : List Nat
  /-- the number of the next item -/
  next : Nat

/-- What the module and its users do. -/
inductive KlogEvent
  /-- `klog_init`, with the block that `kmalloc` returns -/
  | init (block : Option KlogItem) (name : Option (List Byte)) (verbose limitFlag : BitVec 16)
  | set (i : Nat) (jiffies : BitVec 32) (verbose ratelimit : BitVec 16) (howLong : BitVec 32)
  | setByName (name : List Byte) (verbose ratelimit : BitVec 16)
  | fini (i : Nat)
  /-- the timer of an item fires -/
  | fire (i : Nat)
  /-- a call of `restore_verbose` that waits gets the lock -/
  | restore (i : Nat)

/-- `list_add` of the item that `klog_init` set up. -/
def KlogHeap.add (s : KlogHeap) (item : KlogItem) : KlogHeap :=
  { s with mem := Function.update s.mem s.next item, list := s.next :: s.list, next := s.next + 1 }

/-- The body of the loop of `klog_set_verbose_by_name`, on the number of items found and the
items. -/
def setNamed (name : List Byte) (verbose ratelimit : BitVec 16) (acc : Int × (Nat → KlogItem))
    (i : Nat) : Int × (Nat → KlogItem) :=
  if (acc.2 i).name = name then
    (acc.1 + 1, Function.update acc.2 i (setForGood (acc.2 i) verbose ratelimit))
  else acc

/-- `klog_set_verbose_by_name` -/
def klogSetVerboseByName (s : KlogHeap) (name : List Byte) (verbose ratelimit : BitVec 16) :
    Int × KlogHeap :=
  let (ret, mem) := s.list.foldl (setNamed name verbose ratelimit) (0, s.mem)
  (if ret = 0 then -1 else ret, { s with mem := mem })

/-- `klog_fini`.  The freed block keeps what was in it. -/
def klogFini (s : KlogHeap) (i : Nat) : Int × KlogHeap :=
  if (s.mem i).magic ≠ KLOG_ITEM_MAGIC then (-1, s) else (0, { s with list := s.list.erase i })

/-- One step.  A caller hands `klog_set_verbose` and `klog_fini` an item that it got from
`klog_init` and has not given back. -/
def heapStep (hz : BitVec 32) (s : KlogHeap) : KlogEvent → Option KlogHeap
  | .init none _ _ _ => some s
  | .init (some block) name verbose limitFlag =>
    some (s.add (klogInit hz block name verbose limitFlag))
  | .set i jiffies verbose ratelimit howLong =>
    if i ∈ s.list then
      some { s with
        mem := Function.update s.mem i
          (klogSetVerbose hz jiffies (s.mem i) verbose ratelimit howLong).2 }
    else none
  | .setByName name verbose ratelimit => some (klogSetVerboseByName s name verbose ratelimit).2
  | .fini i => if i ∈ s.list then some (klogFini s i).2 else none
  | .fire i =>
    if (s.mem i).timer.pending then
      some { s with
        mem := Function.update s.mem i { s.mem i with timer := delTimer (s.mem i).timer }
        waiting := Function.update s.waiting i (s.waiting i + 1) }
    else none
  | .restore i =>
    if 0 < s.waiting i then
      some { s with
        mem := Function.update s.mem i (restoreVerbose (s.mem i))
        waiting := Function.update s.waiting i (s.waiting i - 1) }
    else none

/-- The module was just loaded. -/
def klogEmpty : KlogHeap := ⟨fun _ => ⟨0, 0, 0, ⟨false, 0⟩, 0, 0, []⟩, fun _ => 0, [], 0⟩

/-- The body of a loop that does `f` to the items with a name. -/
def forNamed (name : List Byte) (f : KlogItem → KlogItem) (acc : Int × (Nat → KlogItem))
    (i : Nat) : Int × (Nat → KlogItem) :=
  if (acc.2 i).name = name then (acc.1 + 1, Function.update acc.2 i (f (acc.2 i))) else acc

/-- What a loop does that leaves the names alone, and does to an item that it meets again what it
has done to it. -/
theorem forNamed_foldl {name : List Byte} {f : KlogItem → KlogItem}
    (hname : ∀ item, (f item).name = item.name) (htwice : ∀ item, f (f item) = f item)
    (is : List Nat) (acc : Int × (Nat → KlogItem)) (i : Nat) :
    (is.foldl (forNamed name f) acc).2 i =
      if i ∈ is ∧ (acc.2 i).name = name then f (acc.2 i) else acc.2 i := by
  induction is generalizing acc with
  | nil => simp
  | cons j is ih =>
    rw [List.foldl_cons, ih]
    by_cases hj : (acc.2 j).name = name
    · rw [forNamed, if_pos hj]
      rcases eq_or_ne i j with rfl | hij
      · simp [hj, hname, htwice]
      · simp [hij]
    · rw [forNamed, if_neg hj]
      rcases eq_or_ne i j with rfl | hij
      · simp [hj]
      · simp [hij]

/-- What is behind the name of an item that the loop set. -/
theorem setNamed_foldl (name : List Byte) (verbose ratelimit : BitVec 16) (is : List Nat)
    (acc : Int × (Nat → KlogItem)) (i : Nat) :
    (is.foldl (setNamed name verbose ratelimit) acc).2 i =
      if i ∈ is ∧ (acc.2 i).name = name then setForGood (acc.2 i) verbose ratelimit
      else acc.2 i :=
  forNamed_foldl (f := fun item => setForGood item verbose ratelimit) (fun _ => rfl)
    (fun _ => rfl) is acc i

/-- **`klog_set_verbose_by_name`** sets the items with this name, and no others. -/
theorem klogSetVerboseByName_mem (s : KlogHeap) (name : List Byte) (verbose ratelimit : BitVec 16)
    (i : Nat) : (klogSetVerboseByName s name verbose ratelimit).2.mem i =
      if i ∈ s.list ∧ (s.mem i).name = name then setForGood (s.mem i) verbose ratelimit
      else s.mem i :=
  setNamed_foldl name verbose ratelimit s.list (0, s.mem) i

/-- What each step is: the only place where `heapStep` is unfolded. -/
inductive HeapMove (hz : BitVec 32) (s : KlogHeap) : KlogEvent → KlogHeap → Prop
  | noMemory {name : Option (List Byte)} {verbose limitFlag : BitVec 16} :
      HeapMove hz s (.init none name verbose limitFlag) s
  | init {block : KlogItem} {name : Option (List Byte)} {verbose limitFlag : BitVec 16} :
      HeapMove hz s (.init (some block) name verbose limitFlag)
        (s.add (klogInit hz block name verbose limitFlag))
  | set {i : Nat} {jiffies : BitVec 32} {verbose ratelimit : BitVec 16} {howLong : BitVec 32}
      (hi : i ∈ s.list) :
      HeapMove hz s (.set i jiffies verbose ratelimit howLong)
        { s with
          mem := Function.update s.mem i
            (klogSetVerbose hz jiffies (s.mem i) verbose ratelimit howLong).2 }
  | setByName {name : List Byte} {verbose ratelimit : BitVec 16} :
      HeapMove hz s (.setByName name verbose ratelimit)
        (klogSetVerboseByName s name verbose ratelimit).2
  | fini {i : Nat} (hi : i ∈ s.list) :
      HeapMove hz s (.fini i) { s with list := s.list.erase i }
  | fire {i : Nat} (hpending : (s.mem i).timer.pending = true) :
      HeapMove hz s (.fire i)
        { s with
          mem := Function.update s.mem i { s.mem i with timer := delTimer (s.mem i).timer }
          waiting := Function.update s.waiting i (s.waiting i + 1) }
  | restore {i : Nat} (hwaiting : 0 < s.waiting i) :
      HeapMove hz s (.restore i)
        { s with
          mem := Function.update s.mem i (restoreVerbose (s.mem i))
          waiting := Function.update s.waiting i (s.waiting i - 1) }

/-- What every run keeps of the list. -/
structure HeapInv (s : KlogHeap) : Prop where
  nodup : s.list.Nodup
  below : ∀ i ∈ s.list, i < s.next
  magic : ∀ i ∈ s.list, (s.mem i).magic = KLOG_ITEM_MAGIC

theorem heapMove_of_step {hz : BitVec 32} {s t : KlogHeap} {e : KlogEvent} (hs : HeapInv s)
    (h : heapStep hz s e = some t) : HeapMove hz s e t := by
  cases e with
  | init block name verbose limitFlag =>
    cases block with
    | none => exact Option.some.inj h ▸ .noMemory
    | some block => exact Option.some.inj h ▸ .init
  | set i jiffies verbose ratelimit howLong =>
    simp only [heapStep, Option.ite_none_right_eq_some, Option.some.injEq] at h
    exact h.2 ▸ .set h.1
  | setByName name verbose ratelimit => exact Option.some.inj h ▸ .setByName
  | fini i =>
    simp only [heapStep, Option.ite_none_right_eq_some, Option.some.injEq] at h
    obtain ⟨hi, rfl⟩ := h
    rw [klogFini, if_neg (not_not.mpr (hs.magic i hi))]
    exact .fini hi
  | fire i =>
    simp only [heapStep, Option.ite_none_right_eq_some, Option.some.injEq] at h
    exact h.2 ▸ .fire h.1
  | restore i =>
    simp only [heapStep, Option.ite_none_right_eq_some, Option.some.injEq] at h
    exact h.2 ▸ .restore h.1

/-- What is kept at each item is kept when one of them is changed. -/
theorem magic_update {mem : Nat → KlogItem} {is : List Nat} {i : Nat} {item : KlogItem}
    (h : ∀ j ∈ is, (mem j).magic = KLOG_ITEM_MAGIC) (hitem : item.magic = (mem i).magic) :
    ∀ j ∈ is, (Function.update mem i item j).magic = KLOG_ITEM_MAGIC := by
  intro j hj
  rcases eq_or_ne j i with rfl | hji
  · rw [Function.update_self, hitem, h j hj]
  · rw [Function.update_of_ne hji, h j hj]

theorem heapMove_inv {hz : BitVec 32} {s t : KlogHeap} {e : KlogEvent} (h : HeapInv s)
    (hm : HeapMove hz s e t) : HeapInv t := by
  cases hm with
  | noMemory => exact h
  | init =>
    have hnew : s.next ∉ s.list := fun hmem => Nat.lt_irrefl _ (h.below _ hmem)
    refine ⟨List.nodup_cons.mpr ⟨hnew, h.nodup⟩, ?_, ?_⟩
    · intro i hi
      rcases List.mem_cons.mp hi with rfl | hi
      · exact Nat.lt_succ_self _
      · exact Nat.lt_succ_of_lt (h.below i hi)
    · intro i hi
      rcases List.mem_cons.mp hi with rfl | hi
      · simp [KlogHeap.add]
      · simp [KlogHeap.add, Function.update_of_ne (Nat.ne_of_lt (h.below i hi)), h.magic i hi]
  | set => exact ⟨h.nodup, h.below, magic_update h.magic (klogSetVerbose_magic ..)⟩
  | setByName =>
    refine ⟨h.nodup, h.below, ?_⟩
    intro i hi
    rw [klogSetVerboseByName_mem]
    split
    · rw [setForGood_magic, h.magic i hi]
    · exact h.magic i hi
  | fini => exact ⟨h.nodup.erase _, fun i hi => h.below i (List.mem_of_mem_erase hi),
      fun i hi => h.magic i (List.mem_of_mem_erase hi)⟩
  | fire => exact ⟨h.nodup, h.below, magic_update h.magic rfl⟩
  | restore => exact ⟨h.nodup, h.below, magic_update h.magic rfl⟩

theorem klogEmpty_inv : HeapInv klogEmpty :=
  ⟨List.nodup_nil, fun _ hi => absurd hi List.not_mem_nil, fun _ hi => absurd hi List.not_mem_nil⟩

/-! ## 2. Timers that outlive their item -/

/-- The timer of an item is armed, or has fired and its function is not done. -/
def TimerActive (s : KlogHeap) (i : Nat) : Prop :=
  (s.mem i).timer.pending = true ∨ 0 < s.waiting i

/-- Every timer that is armed or has fired belongs to an item in the list. -/
def TimersLive (s : KlogHeap) : Prop := ∀ i, TimerActive s i → i ∈ s.list

/-- The condition on a step: an item is released when its timer is neither armed nor fired. -/
def FiniAtRest (s : KlogHeap) : KlogEvent → Prop
  | .fini i => ¬ TimerActive s i
  | _ => True

/-- `restore_verbose` does not run on a freed item. -/
def RestoresLive (s : KlogHeap) : KlogEvent → Prop
  | .restore i => i ∈ s.list
  | _ => True

/-- A step that takes nothing out of the list, and starts no timer elsewhere. -/
theorem TimersLive.mono {s t : KlogHeap} (h : TimersLive s) (hlist : ∀ i ∈ s.list, i ∈ t.list)
    (hactive : ∀ i, TimerActive t i → TimerActive s i ∨ i ∈ t.list) : TimersLive t := by
  intro i hi
  rcases hactive i hi with hi | hi
  · exact hlist i (h i hi)
  · exact hi

/-- A step that changes one item in the list, and its timer. -/
theorem TimersLive.update {s : KlogHeap} (h : TimersLive s) {i : Nat} (hi : i ∈ s.list)
    (item : KlogItem) (n : Nat) :
    TimersLive { s with
      mem := Function.update s.mem i item
      waiting := Function.update s.waiting i n } := by
  refine h.mono (fun _ hj => hj) ?_
  intro j hj
  rcases eq_or_ne j i with rfl | hji
  · exact Or.inr hi
  · simp only [TimerActive, Function.update_of_ne hji] at hj
    exact Or.inl hj

/-- **One step** leaves no timer without its item exactly when it meets the condition. -/
theorem heapMove_timersLive_iff {hz : BitVec 32} {s t : KlogHeap} {e : KlogEvent}
    (hi : HeapInv s) (hs : TimersLive s) (hm : HeapMove hz s e t) :
    TimersLive t ↔ FiniAtRest s e := by
  cases hm with
  | noMemory => exact iff_of_true hs trivial
  | init =>
    refine iff_of_true (hs.mono (fun _ hj => List.mem_cons_of_mem _ hj) ?_) trivial
    intro j hj
    rcases eq_or_ne j s.next with rfl | hj'
    · exact Or.inr List.mem_cons_self
    · simp only [TimerActive, KlogHeap.add, Function.update_of_ne hj'] at hj
      exact Or.inl hj
  | @set i jiffies verbose ratelimit howLong hmem =>
    refine iff_of_true ?_ trivial
    have hset := hs.update hmem (klogSetVerbose hz jiffies (s.mem i) verbose ratelimit howLong).2
      (s.waiting i)
    rwa [Function.update_eq_self] at hset
  | setByName =>
    refine iff_of_true (hs.mono (fun _ hj => hj) ?_) trivial
    intro j hj
    simp only [TimerActive, klogSetVerboseByName_mem] at hj
    split at hj
    · rename_i hset
      exact Or.inr hset.1
    · exact Or.inl hj
  | @fini i hmem =>
    constructor
    · intro hlive hactive
      exact absurd (hlive i hactive) hi.nodup.not_mem_erase
    · intro hrest j hj
      have hji : j ≠ i := fun heq => hrest (heq ▸ hj)
      exact (List.mem_erase_of_ne hji).mpr (hs j hj)
  | fire hpending => exact iff_of_true (hs.update (hs _ (Or.inl hpending)) _ _) trivial
  | restore hwaiting => exact iff_of_true (hs.update (hs _ (Or.inr hwaiting)) _ _) trivial

/-- **When timers do not outlive their items.**  For every run of the calls over any number of
items: every timer that is armed or has fired belongs to a registered item, in every state,
exactly when no item is released while its timer is armed or has fired.  `restore_verbose` is
then never run on a freed item. -/
theorem timersLive_iff (hz : BitVec 32) (es : List KlogEvent) :
    (AllStates (heapStep hz) TimersLive klogEmpty es ↔
      AllSteps (heapStep hz) FiniAtRest klogEmpty es) ∧
    (AllSteps (heapStep hz) FiniAtRest klogEmpty es →
      AllSteps (heapStep hz) RestoresLive klogEmpty es) := by
  have hempty : TimersLive klogEmpty := by
    intro i hi
    simp [TimerActive, klogEmpty] at hi
  have hiff : AllStates (heapStep hz) TimersLive klogEmpty es ↔
      AllSteps (heapStep hz) FiniAtRest klogEmpty es := by
    refine allStates_iff (J := HeapInv) ?_ ?_ es _ klogEmpty_inv hempty
    · intro s e t hj _ _ h
      exact heapMove_inv hj (heapMove_of_step hj h)
    · intro s e t hj hs h
      exact heapMove_timersLive_iff hj hs (heapMove_of_step hj h)
  refine ⟨hiff, fun hok => allSteps_of_allStates ?_ es _ (hiff.mpr hok)⟩
  intro s e t hs h
  cases e with
  | restore i =>
    simp only [heapStep, Option.ite_none_right_eq_some] at h
    exact hs i (Or.inr h.1)
  | _ => trivial

/-- An item is set for a time and released; then its timer fires, and `restore_verbose` writes
into the freed item. -/
theorem timersLive_broken :
    ∃ s, run (heapStep 100) klogEmpty
        [.init (some (blockWith 0)) none 2 0, .set 0 0 1 0 5, .fini 0, .fire 0] = some s ∧
      s.list = [] ∧ TimerActive s 0 ∧ ¬ TimersLive s ∧
      (heapStep 100 s (.restore 0)).isSome = true := by
  have h : ((run (heapStep 100) klogEmpty
      [.init (some (blockWith 0)) none 2 0, .set 0 0 1 0 5, .fini 0, .fire 0]).map fun s =>
        (s.list, s.waiting 0)) = some ([], 1) := by
    decide
  obtain ⟨s, hs, heq⟩ := exists_run_of_map h
  simp only [Prod.mk.injEq] at heq
  obtain ⟨hlist, hwaiting⟩ := heq
  have hactive : TimerActive s 0 := Or.inr (by rw [hwaiting]; exact Nat.one_pos)
  refine ⟨s, hs, hlist, hactive, ?_, ?_⟩
  · intro hlive
    have := hlive 0 hactive
    rw [hlist] at this
    exact List.not_mem_nil this
  · simp [heapStep, hwaiting]

/-! ## 3. One item of the list -/

/-- **One step** of the list is, for a registered item that it does not release, a step of the
item's own machine or none. -/
theorem heapMove_timerRun {hz : BitVec 32} {s t : KlogHeap} {e : KlogEvent} {i : Nat}
    {u : TimerState} (hs : HeapInv s) (hm : HeapMove hz s e t) (hi : i ∈ s.list)
    (he : e ≠ .fini i) (hitem : u.item = s.mem i) (hwaiting : u.waiting.length = s.waiting i) :
    i ∈ t.list ∧ ∃ fs v, run (timerStep hz) u fs = some v ∧ v.item = t.mem i ∧
      v.waiting.length = t.waiting i := by
  cases hm with
  | noMemory => exact ⟨hi, [], u, rfl, hitem, hwaiting⟩
  | init =>
    have hold : i ≠ s.next := Nat.ne_of_lt (hs.below i hi)
    exact ⟨List.mem_cons_of_mem _ hi, [], u, rfl, by simp [KlogHeap.add, hold, hitem], hwaiting⟩
  | @set j jiffies verbose ratelimit howLong =>
    refine ⟨hi, ?_⟩
    rcases eq_or_ne i j with rfl | hij
    · obtain ⟨v, hv, hvitem, hvwaiting⟩ := timerStep_set hz u jiffies verbose ratelimit howLong
      refine ⟨[.set jiffies verbose ratelimit howLong], v, ?_, ?_, ?_⟩
      · rw [run_singleton, hv]
      · simp [hvitem, hitem]
      · rw [hvwaiting, hwaiting]
    · exact ⟨[], u, rfl, by simp [hij, hitem], hwaiting⟩
  | @setByName name verbose ratelimit =>
    refine ⟨hi, ?_⟩
    rw [klogSetVerboseByName_mem]
    by_cases hname : (s.mem i).name = name
    · rw [if_pos ⟨hi, hname⟩, ← hitem]
      exact ⟨[.setByName verbose ratelimit], _, rfl, rfl, hwaiting⟩
    · rw [if_neg fun h => hname h.2]
      exact ⟨[], u, rfl, hitem, hwaiting⟩
  | @fini j =>
    have hij : i ≠ j := fun heq => he (heq ▸ rfl)
    exact ⟨(List.mem_erase_of_ne hij).mpr hi, [], u, rfl, hitem, hwaiting⟩
  | @fire j hpending =>
    refine ⟨hi, ?_⟩
    rcases eq_or_ne i j with rfl | hij
    · refine ⟨[.fire], { u with
        item := { u.item with timer := delTimer u.item.timer }
        waiting := u.waiting ++ [u.armedAt] }, ?_, ?_, ?_⟩
      · rw [run_singleton, timerStep, hitem, if_pos hpending]
      · simp [hitem]
      · simp [hwaiting]
    · exact ⟨[], u, rfl, by simp [hij, hitem], by simp [hij, hwaiting]⟩
  | @restore j hpos =>
    refine ⟨hi, ?_⟩
    rcases eq_or_ne i j with rfl | hij
    · rw [← hwaiting] at hpos
      refine ⟨[.restore 0], { u with
        item := restoreVerbose u.item
        waiting := u.waiting.eraseIdx 0 }, ?_, ?_, ?_⟩
      · rw [run_singleton, timerStep, if_pos hpos]
      · simp [hitem]
      · simp [hwaiting]
    · exact ⟨[], u, rfl, by simp [hij, hitem], by simp [hij, hwaiting]⟩

/-- **A registered item** does what the item of `timerStep` does: a run that does not release it
is one of its runs. -/
theorem heapRun_timerRun {hz : BitVec 32} {es : List KlogEvent} {s t : KlogHeap} {i : Nat}
    {u : TimerState} (hs : HeapInv s) (h : run (heapStep hz) s es = some t) (hi : i ∈ s.list)
    (hes : .fini i ∉ es) (hitem : u.item = s.mem i) (hwaiting : u.waiting.length = s.waiting i) :
    ∃ fs v, run (timerStep hz) u fs = some v ∧ v.item = t.mem i ∧
      v.waiting.length = t.waiting i := by
  induction es generalizing s u with
  | nil =>
    obtain rfl := Option.some.inj h
    exact ⟨[], u, rfl, hitem, hwaiting⟩
  | cons e es ih =>
    obtain ⟨s', h1, h2⟩ := run_cons_eq_some.mp h
    have hm := heapMove_of_step hs h1
    obtain ⟨hne, hes⟩ := List.ne_and_not_mem_of_not_mem_cons hes
    obtain ⟨hi', fs, v, hv, hvitem, hvwaiting⟩ :=
      heapMove_timerRun hs hm hi hne.symm hitem hwaiting
    obtain ⟨gs, w, hw, hwitem, hwwaiting⟩ := ih (heapMove_inv hs hm) h2 hi' hes hvitem hvwaiting
    exact ⟨fs ++ gs, w, run_append_of_eq hv hw, hwitem, hwwaiting⟩

end Puppies
