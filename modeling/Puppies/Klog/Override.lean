/-
# Settings for a time

A setting for a time is undone by a timer.  This file says when the word that comes back is the
last one that was set for good, and when such a word stays.

First with the expiry of the timer taken as one step, as if its function never had to wait
(`verboseStep`).  What is remembered is then wrong in two cases.  0 means that nothing is
remembered, so that a word 0 is not remembered through a second setting for a time, which
remembers the first one instead; and an item that is just created remembers whatever was in its
block.  `tempVerbose_iff` says that these are all cases.

Then with the two halves of an expiry apart: the timer FIRES, and `restore_verbose` waits for the
item's lock (`timerStep`).  `del_timer` does not stop a function that is waiting.  If a setting
for good takes the lock first, it also forgets what was remembered, and the function then writes
0 over the word that was just set, or ends a setting for a time that was made since
(`staleTimer_iff`).
-/
import Puppies.Klog.Item
import Puppies.Lib.Runs

namespace Puppies

open ByteMem EventRun

/-! ## 1. The expiry as one step -/

/-- An item, and the word that was last set for good, or at its creation. -/
structure VerboseState where
  item : KlogItem
  permanent : BitVec 32

/-- What happens to an item. -/
inductive VerboseEvent
  | set (jiffies : BitVec 32) (verbose ratelimit : BitVec 16) (howLong : BitVec 32)
  /-- `klog_set_verbose_by_name`, with the item's name -/
  | setByName (verbose ratelimit : BitVec 16)
  /-- the timer expires and its function runs -/
  | expire

/-- The word that is set for good after a call of `klog_set_verbose`. -/
def permanentAfter (permanent : BitVec 32) (verbose ratelimit : BitVec 16)
    (howLong : BitVec 32) : BitVec 32 :=
  match settingOf howLong with
  | .forGood => klogWord verbose ratelimit
  | _ => permanent

/-- One step. -/
def verboseStep (hz : BitVec 32) (s : VerboseState) : VerboseEvent → Option VerboseState
  | .set jiffies verbose ratelimit howLong =>
    some ⟨(klogSetVerbose hz jiffies s.item verbose ratelimit howLong).2,
      permanentAfter s.permanent verbose ratelimit howLong⟩
  | .setByName verbose ratelimit =>
    some ⟨setForGood s.item verbose ratelimit, klogWord verbose ratelimit⟩
  | .expire =>
    if s.item.timer.pending then
      some { s with item := restoreVerbose { s.item with timer := delTimer s.item.timer } }
    else none

/-- The item was just created, in the block `block`. -/
def verboseInit (hz : BitVec 32) (block : KlogItem) (name : Option (List Byte))
    (verbose limitFlag : BitVec 16) : VerboseState :=
  ⟨klogInit hz block name verbose limitFlag, klogWord verbose limitFlag⟩

/-- What each step is: the only place where `verboseStep` is unfolded. -/
inductive VerboseMove (s : VerboseState) : VerboseEvent → VerboseState → Prop
  | nothing {jiffies : BitVec 32} {verbose ratelimit : BitVec 16} {howLong : BitVec 32}
      (hset : settingOf howLong = .nothing) :
      VerboseMove s (.set jiffies verbose ratelimit howLong) s
  | forTime {jiffies expires : BitVec 32} {verbose ratelimit : BitVec 16} {howLong : BitVec 32}
      (hset : settingOf howLong = .forTime) :
      VerboseMove s (.set jiffies verbose ratelimit howLong)
        ⟨setForTime s.item verbose ratelimit expires, s.permanent⟩
  | forGood {e : VerboseEvent} {verbose ratelimit : BitVec 16}
      (he : e = .setByName verbose ratelimit ∨ ∃ jiffies howLong,
        settingOf howLong = .forGood ∧ e = .set jiffies verbose ratelimit howLong) :
      VerboseMove s e ⟨setForGood s.item verbose ratelimit, klogWord verbose ratelimit⟩
  | expire (hpending : s.item.timer.pending = true) :
      VerboseMove s .expire
        { s with item := restoreVerbose { s.item with timer := delTimer s.item.timer } }

theorem verboseMove_of_step {hz : BitVec 32} {s t : VerboseState} {e : VerboseEvent}
    (hmagic : s.item.magic = KLOG_ITEM_MAGIC) (h : verboseStep hz s e = some t) :
    VerboseMove s e t := by
  cases e with
  | set jiffies verbose ratelimit howLong =>
    simp only [verboseStep, klogSetVerbose_eq hmagic, Option.some.injEq] at h
    cases hset : settingOf howLong with
    | nothing =>
      simp only [permanentAfter, hset] at h
      exact h ▸ .nothing hset
    | forTime =>
      simp only [permanentAfter, hset] at h
      exact h ▸ .forTime hset
    | forGood =>
      simp only [permanentAfter, hset] at h
      exact h ▸ .forGood (Or.inr ⟨jiffies, howLong, hset, rfl⟩)
  | setByName verbose ratelimit =>
    obtain rfl := Option.some.inj h
    exact .forGood (Or.inl rfl)
  | expire =>
    simp only [verboseStep, Option.ite_none_right_eq_some, Option.some.injEq] at h
    exact h.2 ▸ .expire h.1

/-- When no timer is pending, the word is the one that was last set for good. -/
def PermanentAtRest (s : VerboseState) : Prop :=
  s.item.timer.pending = false → s.item.verbose = s.permanent

/-- So it is now, and so it will be after the timer that is pending expires. -/
def Undone (hz : BitVec 32) (s : VerboseState) : Prop :=
  PermanentAtRest s ∧ ∀ t, verboseStep hz s .expire = some t → PermanentAtRest t

/-- The condition on a step.  A setting for a time that is made while none is pending finds
nothing remembered, or the right word; one that is made over another one is not made over a word
0 that was set for good, unless the word is 0 just then. -/
def Remembers (s : VerboseState) : VerboseEvent → Prop
  | .set _ _ _ howLong => settingOf howLong = .forTime →
      if s.item.timer.pending then s.permanent ≠ 0 ∨ s.item.verbose = 0
      else s.item.originalVerbose = 0 ∨ s.item.originalVerbose = s.permanent
  | _ => True

/-- What is to come back while a timer is pending is what is remembered. -/
theorem undone_iff (hz : BitVec 32) (s : VerboseState) :
    Undone hz s ↔ if s.item.timer.pending then s.item.originalVerbose = s.permanent
      else s.item.verbose = s.permanent := by
  cases hpending : s.item.timer.pending with
  | true => simp [Undone, PermanentAtRest, verboseStep, hpending, delTimer]
  | false => simp [Undone, PermanentAtRest, verboseStep, hpending]

/-- **One step** keeps what is to come back exactly when it meets the condition. -/
theorem verboseMove_undone_iff {hz : BitVec 32} {s t : VerboseState} {e : VerboseEvent}
    (hs : Undone hz s) (hm : VerboseMove s e t) : Undone hz t ↔ Remembers s e := by
  rw [undone_iff] at hs ⊢
  cases hm with
  | nothing hset => simp [Remembers, hset, hs]
  | @forTime jiffies expires verbose ratelimit howLong hset =>
    simp only [setForTime_pending, setForTime_original, if_true, Remembers, hset, forall_const]
    cases hpending : s.item.timer.pending with
    | true =>
      rw [hpending, if_pos rfl] at hs
      rw [hs, if_pos rfl]
      by_cases hzero : s.permanent = 0
      · simp [hzero]
      · rw [if_neg hzero]
        exact iff_of_true rfl (Or.inl hzero)
    | false =>
      rw [hpending, if_neg Bool.false_ne_true] at hs
      rw [if_neg Bool.false_ne_true]
      by_cases hzero : s.item.originalVerbose = 0
      · rw [if_pos hzero]
        exact iff_of_true hs (Or.inl hzero)
      · rw [if_neg hzero]
        exact (or_iff_right hzero).symm
  | forGood he =>
    have hok : Remembers s e := by
      rcases he with rfl | ⟨jiffies, howLong, hset, rfl⟩
      · trivial
      · simp [Remembers, hset]
    simp [hok]
  | expire hpending =>
    rw [hpending, if_pos rfl] at hs
    simp [Remembers, delTimer, hs]

theorem verboseStep_magic {hz : BitVec 32} {s t : VerboseState} {e : VerboseEvent}
    (hs : s.item.magic = KLOG_ITEM_MAGIC) (h : verboseStep hz s e = some t) :
    t.item.magic = KLOG_ITEM_MAGIC := by
  cases verboseMove_of_step hs h with
  | nothing => exact hs
  | forTime => rw [setForTime_magic, hs]
  | forGood => rw [setForGood_magic, hs]
  | expire => rw [restoreVerbose_magic, hs]

/-- **When settings for a time are undone.**  For every item, created with any words in a block
with anything in it, and every run of settings for a time and for good and of expiries: in every
state the word is the last one set for good whenever no timer is pending, and will be after the
expiry of the one that is, exactly when every step meets the condition. -/
theorem tempVerbose_iff (hz : BitVec 32) (block : KlogItem) (name : Option (List Byte))
    (verbose limitFlag : BitVec 16) (es : List VerboseEvent) :
    AllStates (verboseStep hz) (Undone hz) (verboseInit hz block name verbose limitFlag) es ↔
      AllSteps (verboseStep hz) Remembers (verboseInit hz block name verbose limitFlag) es := by
  refine allStates_iff (J := fun s => s.item.magic = KLOG_ITEM_MAGIC) ?_ ?_ es _ ?_ ?_
  · intro s e t hj _ _ h
    exact verboseStep_magic hj h
  · intro s e t hj hs h
    exact verboseMove_undone_iff hs (verboseMove_of_step hj h)
  · exact klogInit_magic ..
  · rw [undone_iff, if_neg (by simp [verboseInit, klogInit, initTimer])]
    rfl

/-- A block of zeros, up to what is in the place of `original_verbose`. -/
def blockWith (original : BitVec 32) : KlogItem := ⟨0, 0, original, ⟨false, 0⟩, 0, 0, []⟩

/-- An item with the word 0 is set to 1 and then to 2 for a time: 1 comes back.  And an item with
the word 2, in a block with a 7 at the place of `original_verbose`, is set to 1 for a time: 7
comes back. -/
theorem tempVerbose_broken :
    (∃ s, run (verboseStep 100) (verboseInit 100 (blockWith 0) none 0 0)
        [.set 0 1 0 5, .set 0 2 0 5, .expire] = some s ∧ s.item.timer.pending = false ∧
      s.permanent = 0 ∧ s.item.verbose = 1) ∧
    (∃ s, run (verboseStep 100) (verboseInit 100 (blockWith 7) none 2 0)
        [.set 0 1 0 5, .expire] = some s ∧ s.item.timer.pending = false ∧
      s.permanent = 2 ∧ s.item.verbose = 7) := by
  have hzero : ((run (verboseStep 100) (verboseInit 100 (blockWith 0) none 0 0)
      [.set 0 1 0 5, .set 0 2 0 5, .expire]).map fun s =>
        (s.item.timer.pending, s.permanent, s.item.verbose)) = some (false, 0, 1) := by
    decide
  have hblock : ((run (verboseStep 100) (verboseInit 100 (blockWith 7) none 2 0)
      [.set 0 1 0 5, .expire]).map fun s =>
        (s.item.timer.pending, s.permanent, s.item.verbose)) = some (false, 2, 7) := by
    decide
  constructor
  · obtain ⟨s, hs, heq⟩ := exists_run_of_map hzero
    simp only [Prod.mk.injEq] at heq
    exact ⟨s, hs, heq⟩
  · obtain ⟨s, hs, heq⟩ := exists_run_of_map hblock
    simp only [Prod.mk.injEq] at heq
    exact ⟨s, hs, heq⟩

/-! ## 2. The expiry as two steps -/

/-- An item, the functions of its timer that have started, and what happened so far. -/
structure TimerState where
  item : KlogItem
  /-- how many settings for good there were -/
  goods : Nat
  /-- and how many when the timer was last armed -/
  armedAt : Nat
  /-- the calls of `restore_verbose` that wait for the lock, each with this number for the
  setting it belongs to -/
  waiting : List Nat
  /-- the word of the last call of a setting, if it was for good -/
  inForce : Option (BitVec 32)

/-- One step of one side.  A setting is the locked section of its call. -/
inductive TimerEvent
  | set (jiffies : BitVec 32) (verbose ratelimit : BitVec 16) (howLong : BitVec 32)
  | setByName (verbose ratelimit : BitVec 16)
  /-- the timer fires: `restore_verbose` starts, and waits for the lock -/
  | fire
  /-- the `i`-th call that waits gets it -/
  | restore (i : Nat)

/-- A setting for good. -/
def TimerState.good (s : TimerState) (verbose ratelimit : BitVec 16) : TimerState :=
  { s with
    item := setForGood s.item verbose ratelimit
    goods := s.goods + 1
    inForce := some (klogWord verbose ratelimit) }

/-- One step. -/
def timerStep (hz : BitVec 32) (s : TimerState) : TimerEvent → Option TimerState
  | .set jiffies verbose ratelimit howLong =>
    let item := (klogSetVerbose hz jiffies s.item verbose ratelimit howLong).2
    match settingOf howLong with
    | .nothing => some { s with item := item }
    | .forTime => some { s with item := item, armedAt := s.goods, inForce := none }
    | .forGood => some { s.good verbose ratelimit with item := item }
  | .setByName verbose ratelimit => some (s.good verbose ratelimit)
  | .fire =>
    if s.item.timer.pending then
      some { s with
        item := { s.item with timer := delTimer s.item.timer }
        waiting := s.waiting ++ [s.armedAt] }
    else none
  | .restore i =>
    if i < s.waiting.length then
      some { s with item := restoreVerbose s.item, waiting := s.waiting.eraseIdx i }
    else none

/-- The item was just created, in the block `block`. -/
def timerInit (hz : BitVec 32) (block : KlogItem) (name : Option (List Byte))
    (verbose limitFlag : BitVec 16) : TimerState :=
  ⟨klogInit hz block name verbose limitFlag, 0, 0, [], none⟩

/-- What each step is: the only place where `timerStep` is unfolded. -/
inductive TimerMove (s : TimerState) : TimerEvent → TimerState → Prop
  | nothing {jiffies : BitVec 32} {verbose ratelimit : BitVec 16} {howLong : BitVec 32}
      (hset : settingOf howLong = .nothing) :
      TimerMove s (.set jiffies verbose ratelimit howLong) s
  | forTime {jiffies expires : BitVec 32} {verbose ratelimit : BitVec 16} {howLong : BitVec 32}
      (hset : settingOf howLong = .forTime) :
      TimerMove s (.set jiffies verbose ratelimit howLong)
        { s with
          item := setForTime s.item verbose ratelimit expires
          armedAt := s.goods
          inForce := none }
  | forGood {e : TimerEvent} {verbose ratelimit : BitVec 16}
      (he : e = .setByName verbose ratelimit ∨ ∃ jiffies howLong,
        settingOf howLong = .forGood ∧ e = .set jiffies verbose ratelimit howLong) :
      TimerMove s e (s.good verbose ratelimit)
  | fire (hpending : s.item.timer.pending = true) :
      TimerMove s .fire
        { s with
          item := { s.item with timer := delTimer s.item.timer }
          waiting := s.waiting ++ [s.armedAt] }
  | restore {i : Nat} (hi : i < s.waiting.length) :
      TimerMove s (.restore i)
        { s with item := restoreVerbose s.item, waiting := s.waiting.eraseIdx i }

theorem timerMove_of_step {hz : BitVec 32} {s t : TimerState} {e : TimerEvent}
    (hmagic : s.item.magic = KLOG_ITEM_MAGIC) (h : timerStep hz s e = some t) :
    TimerMove s e t := by
  cases e with
  | set jiffies verbose ratelimit howLong =>
    simp only [timerStep, klogSetVerbose_eq hmagic] at h
    cases hset : settingOf howLong with
    | nothing =>
      simp only [hset, Option.some.injEq] at h
      exact h ▸ .nothing hset
    | forTime =>
      simp only [hset, Option.some.injEq] at h
      exact h ▸ .forTime hset
    | forGood =>
      simp only [hset, Option.some.injEq] at h
      exact h ▸ .forGood (Or.inr ⟨jiffies, howLong, hset, rfl⟩)
  | setByName verbose ratelimit =>
    obtain rfl := Option.some.inj h
    exact .forGood (Or.inl rfl)
  | fire =>
    simp only [timerStep, Option.ite_none_right_eq_some, Option.some.injEq] at h
    exact h.2 ▸ .fire h.1
  | restore i =>
    simp only [timerStep, Option.ite_none_right_eq_some, Option.some.injEq] at h
    exact h.2 ▸ .restore h.1

/-- What a call of `klog_set_verbose` does to the item, and not to the functions that wait. -/
theorem timerStep_set (hz : BitVec 32) (s : TimerState) (jiffies : BitVec 32)
    (verbose ratelimit : BitVec 16) (howLong : BitVec 32) :
    ∃ t, timerStep hz s (.set jiffies verbose ratelimit howLong) = some t ∧
      t.item = (klogSetVerbose hz jiffies s.item verbose ratelimit howLong).2 ∧
      t.waiting = s.waiting := by
  rw [timerStep]
  split
  · exact ⟨_, rfl, rfl, rfl⟩
  · exact ⟨_, rfl, rfl, rfl⟩
  · exact ⟨_, rfl, rfl, rfl⟩

/-- **The two halves of an expiry, one after the other**, are the expiry as one step: what a run
of the first machine does to an item, some run of the second one does. -/
theorem verboseRun_timerRun {hz : BitVec 32} {es : List VerboseEvent} {s t : VerboseState}
    {u : TimerState} (h : run (verboseStep hz) s es = some t) (hitem : u.item = s.item)
    (hwaiting : u.waiting = []) :
    ∃ fs v, run (timerStep hz) u fs = some v ∧ v.item = t.item ∧ v.waiting = [] := by
  induction es generalizing s u with
  | nil =>
    obtain rfl := Option.some.inj h
    exact ⟨[], u, rfl, hitem, hwaiting⟩
  | cons e es ih =>
    obtain ⟨s', h1, h2⟩ := run_cons_eq_some.mp h
    have hstep : ∃ fs v, run (timerStep hz) u fs = some v ∧ v.item = s'.item ∧ v.waiting = [] := by
      cases e with
      | set jiffies verbose ratelimit howLong =>
        obtain rfl := Option.some.inj h1
        obtain ⟨v, hv, hvitem, hvwaiting⟩ := timerStep_set hz u jiffies verbose ratelimit howLong
        refine ⟨[.set jiffies verbose ratelimit howLong], v, ?_, ?_, ?_⟩
        · rw [run_singleton, hv]
        · rw [hvitem, hitem]
        · rw [hvwaiting, hwaiting]
      | setByName verbose ratelimit =>
        obtain rfl := Option.some.inj h1
        exact ⟨[.setByName verbose ratelimit], _, rfl, by rw [TimerState.good, hitem], hwaiting⟩
      | expire =>
        simp only [verboseStep, Option.ite_none_right_eq_some, Option.some.injEq] at h1
        obtain ⟨hpending, rfl⟩ := h1
        refine ⟨[.fire, .restore 0], ⟨restoreVerbose { u.item with timer := delTimer u.item.timer },
          u.goods, u.armedAt, [], u.inForce⟩, ?_, ?_, rfl⟩
        · simp [run_cons, timerStep, hitem, hpending, hwaiting]
        · rw [hitem]
    obtain ⟨fs, v, hv, hvitem, hvwaiting⟩ := hstep
    obtain ⟨gs, w, hw, hwitem, hwwaiting⟩ := ih h2 hvitem hvwaiting
    exact ⟨fs ++ gs, w, run_append_of_eq hv hw, hwitem, hwwaiting⟩

/-! ## 3. When a setting for good stays -/

/-- If the last call of a setting was for good, the word is the one it set. -/
def InForce (s : TimerState) : Prop := ∀ w ∈ s.inForce, s.item.verbose = w

/-- A call of `restore_verbose` that belongs to a setting from before the last one for good does
not change the word when it gets the lock. -/
def StaleKeeps (s : TimerState) : TimerEvent → Prop
  | .restore i => ∀ n ∈ s.waiting[i]?, n < s.goods →
      (restoreVerbose s.item).verbose = s.item.verbose
  | _ => True

/-- The step is a setting for good. -/
def TimerEvent.ForGood : TimerEvent → Prop
  | .set _ _ _ howLong => settingOf howLong = .forGood
  | .setByName _ _ => True
  | _ => False

/-- **A setting for good stays**, and whatever happens up to the next one: until the next call of
a setting the word is the one it set, and no call of `restore_verbose` that belongs to an earlier
setting changes the word, whoever set it. -/
def StaysInForce (hz : BitVec 32) (s : TimerState) : Prop :=
  ∀ es, (∀ e ∈ es, ¬ e.ForGood) →
    AllStates (timerStep hz) InForce s es ∧ AllSteps (timerStep hz) StaleKeeps s es

/-- The condition on a step: a setting for good gets the lock while no call of `restore_verbose`
waits for it. -/
def NobodyWaits (s : TimerState) (e : TimerEvent) : Prop := e.ForGood → s.waiting = []

/-- No call of `restore_verbose` waits that belongs to a setting from before the last one for
good. -/
def NoStale (s : TimerState) : Prop := ∀ n ∈ s.waiting, n = s.goods

/-- What every run keeps.  A setting for good leaves no timer armed, and whoever waits then is
older than it. -/
structure TimerInv (s : TimerState) : Prop where
  magic : s.item.magic = KLOG_ITEM_MAGIC
  armed : s.item.timer.pending = true → s.armedAt = s.goods
  le : ∀ n ∈ s.waiting, n ≤ s.goods
  idle : s.inForce ≠ none → s.item.timer.pending = false
  lt : s.inForce ≠ none → ∀ n ∈ s.waiting, n < s.goods

theorem timerMove_inv {s t : TimerState} {e : TimerEvent} (h : TimerInv s)
    (hm : TimerMove s e t) : TimerInv t := by
  cases hm with
  | nothing => exact h
  | forTime =>
    exact ⟨by rw [setForTime_magic, h.magic], fun _ => rfl, h.le, fun hne => absurd rfl hne,
      fun hne => absurd rfl hne⟩
  | forGood =>
    have hlt : ∀ n ∈ s.waiting, n < s.goods + 1 := fun n hn => Nat.lt_succ_of_le (h.le n hn)
    exact ⟨h.magic, fun hpending => absurd hpending (by simp [TimerState.good]),
      fun n hn => Nat.le_of_lt (hlt n hn), fun _ => rfl, fun _ => hlt⟩
  | fire hpending =>
    refine ⟨h.magic, fun hp => absurd hp (by simp [delTimer]), ?_, fun _ => rfl, ?_⟩
    · intro n hn
      rcases List.mem_append.mp hn with hn | hn
      · exact h.le n hn
      · rw [List.mem_singleton.mp hn]
        exact Nat.le_of_eq (h.armed hpending)
    · intro hne
      rw [h.idle hne] at hpending
      exact absurd hpending Bool.false_ne_true
  | restore =>
    exact ⟨h.magic, h.armed, fun n hn => h.le n (List.mem_of_mem_eraseIdx hn), h.idle,
      fun hne n hn => h.lt hne n (List.mem_of_mem_eraseIdx hn)⟩

theorem timerInit_inv (hz : BitVec 32) (block : KlogItem) (name : Option (List Byte))
    (verbose limitFlag : BitVec 16) : TimerInv (timerInit hz block name verbose limitFlag) :=
  ⟨klogInit_magic .., fun hp => absurd hp (by simp [timerInit, klogInit, initTimer]),
    fun n hn => absurd hn List.not_mem_nil, fun hne => absurd rfl hne, fun hne => absurd rfl hne⟩

/-- While a word is in force and no old call waits, none waits at all. -/
theorem TimerInv.waiting_nil {s : TimerState} (hi : TimerInv s) (hstale : NoStale s)
    {w : BitVec 32} (hw : w ∈ s.inForce) : s.waiting = [] := by
  have hne : s.inForce ≠ none := Option.ne_none_iff_exists'.mpr ⟨w, hw⟩
  refine List.eq_nil_iff_forall_not_mem.mpr ?_
  intro n hn
  exact Nat.lt_irrefl _ (hstale n hn ▸ hi.lt hne n hn)

/-- **One step** from a state in which no old call waits leads to such a state, with the word in
force, exactly when it meets the condition. -/
theorem timerMove_noStale_iff {s t : TimerState} {e : TimerEvent} (hi : TimerInv s)
    (hforce : InForce s) (hstale : NoStale s) (hm : TimerMove s e t) :
    InForce t ∧ NoStale t ↔ NobodyWaits s e := by
  cases hm with
  | nothing hset =>
    refine iff_of_true ⟨hforce, hstale⟩ ?_
    simp [NobodyWaits, TimerEvent.ForGood, hset]
  | forTime hset =>
    refine iff_of_true ⟨fun w hw => absurd hw (by simp), hstale⟩ ?_
    simp [NobodyWaits, TimerEvent.ForGood, hset]
  | @forGood e verbose ratelimit he =>
    have hgood : e.ForGood := by
      rcases he with rfl | ⟨jiffies, howLong, hset, rfl⟩
      · trivial
      · exact hset
    have hword : InForce (s.good verbose ratelimit) := fun w hw => Option.some.inj hw
    rw [NobodyWaits, and_iff_right hword, forall_prop_of_true hgood]
    constructor
    · -- an old call that waits is no call of the new setting
      intro h
      refine List.eq_nil_iff_forall_not_mem.mpr ?_
      intro n hn
      have hnew : n = s.goods + 1 := h n hn
      have hold := hi.le n hn
      omega
    · intro hnil n hn
      rw [TimerState.good, hnil] at hn
      exact absurd hn List.not_mem_nil
  | fire hpending =>
    refine iff_of_true ⟨hforce, ?_⟩ (fun hgood => hgood.elim)
    intro n hn
    rcases List.mem_append.mp hn with hn | hn
    · exact hstale n hn
    · rw [List.mem_singleton.mp hn]
      exact hi.armed hpending
  | @restore i hi' =>
    refine iff_of_true ⟨?_, ?_⟩ (fun hgood => hgood.elim)
    · intro w hw
      rw [hi.waiting_nil hstale hw] at hi'
      exact absurd hi' (Nat.not_lt_zero i)
    · exact fun n hn => hstale n (List.mem_of_mem_eraseIdx hn)

/-- **An old call that waits can do harm**: with a word that is set for a time before it gets the
lock. -/
theorem exists_stale_changes (hz : BitVec 32) {s : TimerState} {i n : Nat} (hi : TimerInv s)
    (hn : n ∈ s.waiting[i]?) (hlt : n < s.goods) : ∃ verbose : BitVec 16,
      ¬ AllSteps (timerStep hz) StaleKeeps s [.set 0 verbose 0 5, .restore i] := by
  obtain ⟨verbose, hne⟩ : ∃ verbose : BitVec 16,
      (if s.item.originalVerbose = 0 then s.item.verbose else s.item.originalVerbose) ≠
        klogWord verbose 0 := by
    by_contra hno
    have hall := fun verbose => not_not.mp (not_exists.mp hno verbose)
    exact absurd ((hall 0).symm.trans (hall 1)) (by decide)
  refine ⟨verbose, ?_⟩
  intro h
  have hbound : i < s.waiting.length := (List.getElem?_eq_some_iff.mp hn).1
  have hset : timerStep hz s (.set 0 verbose 0 5) = some { s with
      item := setForTime s.item verbose 0 (0 + 5 * hz)
      armedAt := s.goods
      inForce := none } := by
    have hfive : settingOf 5 = .forTime := by decide
    simp only [timerStep, klogSetVerbose_eq hi.magic, hfive]
  have hkeeps := ((h _ hset).2 _ (if_pos hbound)).1 n hn hlt
  rw [restoreVerbose_verbose, setForTime_original, setForTime_verbose] at hkeeps
  exact hne hkeeps

/-- So a setting for good stays exactly when its word is in force and no old call waits. -/
theorem staysInForce_iff {hz : BitVec 32} {s : TimerState} (hi : TimerInv s) :
    StaysInForce hz s ↔ InForce s ∧ NoStale s := by
  constructor
  · intro h
    refine ⟨(h [] (by simp)).1, ?_⟩
    intro n hn
    by_contra hne
    obtain ⟨i, hget⟩ := List.mem_iff_getElem?.mp hn
    obtain ⟨verbose, hchange⟩ :=
      exists_stale_changes hz hi hget (Nat.lt_of_le_of_ne (hi.le n hn) hne)
    refine hchange (h [.set 0 verbose 0 5, .restore i] ?_).2
    have hfive : settingOf 5 ≠ .forGood := by decide
    simpa [TimerEvent.ForGood] using hfive
  · rintro ⟨hforce, hstale⟩ es hes
    have hfree : AllSteps (timerStep hz) NobodyWaits s es :=
      allSteps_of_mem (fun e he _ _ _ hgood => absurd hgood (hes e he)) s
    have hinv := allStates_of_allSteps (I := fun s => TimerInv s ∧ InForce s ∧ NoStale s)
      (fun s e t hs hok h =>
        ⟨timerMove_inv hs.1 (timerMove_of_step hs.1.magic h),
          (timerMove_noStale_iff hs.1 hs.2.1 hs.2.2 (timerMove_of_step hs.1.magic h)).mpr hok⟩)
      es s ⟨hi, hforce, hstale⟩ hfree
    refine ⟨hinv.mono fun _ hs => hs.2.1, allSteps_of_allStates ?_ es s hinv⟩
    intro s e t hs _
    cases e with
    | restore i =>
      intro n hn hlt
      exact absurd (hs.2.2 n (List.mem_of_getElem? hn)) (Nat.ne_of_lt hlt)
    | set => trivial
    | setByName => trivial
    | fire => trivial

/-- **When no old timer undoes a newer setting.**  For every item and every run of settings,
firings and calls of `restore_verbose`: in every state a setting for good stays until the next
call of a setting, and no call of `restore_verbose` that belongs to an earlier setting changes the
word after it, exactly when every setting for good gets the lock while nobody waits for it. -/
theorem staleTimer_iff (hz : BitVec 32) (block : KlogItem) (name : Option (List Byte))
    (verbose limitFlag : BitVec 16) (es : List TimerEvent) :
    AllStates (timerStep hz) (StaysInForce hz) (timerInit hz block name verbose limitFlag) es ↔
      AllSteps (timerStep hz) NobodyWaits (timerInit hz block name verbose limitFlag) es := by
  have hinit := timerInit_inv hz block name verbose limitFlag
  refine allStates_iff (J := TimerInv) ?_ ?_ es _ hinit ?_
  · intro s e t hj _ _ h
    exact timerMove_inv hj (timerMove_of_step hj.magic h)
  · intro s e t hj hs h
    have hm := timerMove_of_step hj.magic h
    obtain ⟨hforce, hstale⟩ := (staysInForce_iff hj).mp hs
    rw [staysInForce_iff (timerMove_inv hj hm)]
    exact timerMove_noStale_iff hj hforce hstale hm
  · rw [staysInForce_iff hinit]
    exact ⟨fun w hw => absurd hw (by simp [timerInit]), fun n hn => absurd hn List.not_mem_nil⟩

/-- A setting for a time, whose timer fires; then a setting for good gets the lock, and then the
function of the timer: 5 was to stay, and the word is 0.  And if the word that is set for good is
0, the function of the timer undoes what is set for a time after it: 3 becomes 0. -/
theorem staleTimer_broken :
    (∃ s, run (timerStep 100) (timerInit 100 (blockWith 0) none 2 0)
        [.set 0 1 0 5, .fire, .setByName 5 0, .restore 0] = some s ∧
      s.inForce = some 5 ∧ s.item.verbose = 0 ∧ ¬ InForce s) ∧
    ∃ s, run (timerStep 100) (timerInit 100 (blockWith 0) none 2 0)
        [.set 0 1 0 5, .fire, .setByName 0 0, .set 0 3 0 5] = some s ∧
      s.item.verbose = 3 ∧ (restoreVerbose s.item).verbose = 0 ∧ ¬ StaleKeeps s (.restore 0) := by
  have hgood : ((run (timerStep 100) (timerInit 100 (blockWith 0) none 2 0)
      [.set 0 1 0 5, .fire, .setByName 5 0, .restore 0]).map fun s =>
        (s.inForce, s.item.verbose)) = some (some 5, 0) := by
    decide
  have hzero : ((run (timerStep 100) (timerInit 100 (blockWith 0) none 2 0)
      [.set 0 1 0 5, .fire, .setByName 0 0, .set 0 3 0 5]).map fun s =>
        (s.waiting, s.goods, s.item.verbose, (restoreVerbose s.item).verbose)) =
      some ([0], 1, 3, 0) := by
    decide
  constructor
  · obtain ⟨s, hs, heq⟩ := exists_run_of_map hgood
    simp only [Prod.mk.injEq] at heq
    obtain ⟨hforce, hword⟩ := heq
    refine ⟨s, hs, hforce, hword, ?_⟩
    intro hin
    have := hin 5 hforce
    rw [hword] at this
    exact absurd this (by decide)
  · obtain ⟨s, hs, heq⟩ := exists_run_of_map hzero
    simp only [Prod.mk.injEq] at heq
    obtain ⟨hwaiting, hgoods, hword, hrestored⟩ := heq
    refine ⟨s, hs, hword, hrestored, ?_⟩
    intro hkeeps
    have hsame := hkeeps 0 (by rw [hwaiting]; rfl) (by rw [hgoods]; exact Nat.one_pos)
    rw [hrestored, hword] at hsame
    exact absurd hsame (by decide)

end Puppies
