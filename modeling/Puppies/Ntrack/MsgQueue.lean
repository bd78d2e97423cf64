/-
# The queue between a call and the worker

Two things that every run of the message queues keeps, whoever moves when.

A message is never STRANDED.  The worker tests the list without the lock, and a call raises the
work item only several steps after it has put its node on the list; so the list may well be
nonempty while nothing is pending.  But the item's pending mark is cleared before the worker
looks at the list for the first time, and every insertion is followed by a raise: when no call
is in between, the item is pending or the worker has still to look (`noStranded`).

The COUNT is the length of the list, and its bound is tested outside the lock.  A call that is
past the test will still insert its node whatever the others do, so the bound holds up to the
calls that are in progress (`msgCount`).
-/
import Mathlib.Data.Finset.Card
import Puppies.Ntrack.MsgInv

namespace Puppies

open EventRun

/-! ## 1. No message is stranded -/

/-- Between the insertion of the node and `queue_work_on`. -/
def EnqPc.toRaise : EnqPc → Bool
  | .listed | .sized | .headed | .filled => true
  | _ => false

/-- If the list is nonempty and no call is about to raise the work item, the item is pending, or
the worker is running and has not seen the list empty. -/
def NoStranded (s : MsgCpu) : Prop :=
  s.list ≠ [] → (∀ k, (s.pc k).toRaise = false) → s.pending = true ∨ s.worker ≠ .idle

/-- The three filling statements are between the insertion and the raise. -/
theorem fillNext_toRaise {bo : ByteMem.ByteOrder} {r : Request} {p q : EnqPc}
    {f : NmsgNode → NmsgNode} (h : fillNext bo r p = some (f, q)) : q.toRaise = true := by
  cases p with
  | listed =>
    simp only [fillNext, Option.some.injEq, Prod.mk.injEq] at h
    exact h.2 ▸ rfl
  | sized =>
    simp only [fillNext, Option.some.injEq, Prod.mk.injEq] at h
    exact h.2 ▸ rfl
  | headed =>
    simp only [fillNext, Option.some.injEq, Prod.mk.injEq] at h
    exact h.2 ▸ rfl
  | _ => simp [fillNext] at h

/-- A call that has no node on the list moves. -/
theorem NoStranded.goto {s : MsgCpu} {k : Nat} {p : EnqPc} (h : NoStranded s)
    (hk : (s.pc k).toRaise = false) : NoStranded (s.goto k p) := by
  intro hlist hquiet
  refine h hlist ?_
  intro j
  rcases eq_or_ne j k with rfl | hj
  · exact hk
  · have := hquiet j
    simpa [MsgCpu.goto, Function.update_of_ne hj] using this

/-- **One step.** -/
theorem msgMove_noStranded {cfg : MsgCfg} {core : Nat} {s t : MsgCpu} {e : MsgEvent}
    (h : NoStranded s) (hm : MsgMove cfg core s e t) : NoStranded t := by
  cases hm with
  | test hcore hpc => exact h.goto (by rw [hpc]; rfl)
  | refuse hpc hret => exact h.goto (by rw [hpc]; rfl)
  | allocate hpc hsize => exact h.goto (by rw [hpc]; rfl)
  | @insert k hpc =>
    intro _ hquiet
    have := hquiet k
    simp [MsgCpu.insert, MsgCpu.goto, EnqPc.toRaise] at this
  | @fill k f p hnext =>
    intro _ hquiet
    have := hquiet k
    rw [MsgCpu.fill_pc, Function.update_self, fillNext_toRaise hnext] at this
    exact absurd this (by decide)
  | raise hpc => exact fun _ _ => Or.inl rfl
  | workStart hpending hidle => exact fun _ _ => Or.inr (by simp)
  | workCheck hcheck =>
    intro hlist _
    right
    simp [show s.list ≠ [] from hlist]
  | takeNone hlock hlist => exact fun _ _ => Or.inr (by simp)
  | take hlock hlist hnode => exact fun _ _ => Or.inr (by simp [MsgCpu.take])
  | reader he hring => exact h

/-- **No message is stranded.**  In every state of every run of all CPUs, a CPU whose list is
nonempty, and on which no call is between its insertion and its `queue_work_on`, has its work
item pending or its worker running, on the way to another look at the list. -/
theorem noStranded (cfg : MsgCfg) (es : List (Nat × MsgEvent)) :
    AllStates (msgSystemStep cfg) (fun s => ∀ c, NoStranded (s c)) (msgSystemInit cfg) es := by
  refine allStates_prodStep_of_allSteps (C := fun _ _ _ => True) ?_ es _ ?_ ?_
  · intro c s e t h _ hs
    exact msgMove_noStranded h (msgMove_of_step hs)
  · intro c hlist
    exact absurd rfl hlist
  · exact allSteps_of_forall (fun _ _ _ _ => trivial) es _

/-! ## 2. The count -/

/-- Past the test of the count, and not returned. -/
def EnqPc.inProgress : EnqPc → Bool
  | .start | .returned _ => false
  | _ => true

/-- Past the test of the count, with the node not on the list yet. -/
def EnqPc.ahead : EnqPc → Bool
  | .counted | .allocated => true
  | _ => false

theorem EnqPc.inProgress_of_ahead {p : EnqPc} (h : p.ahead = true) : p.inProgress = true := by
  cases p with
  | counted => rfl
  | allocated => rfl
  | _ => exact absurd h (by simp [EnqPc.ahead])

theorem EnqPc.ahead_of_toRaise {p : EnqPc} (h : p.toRaise = true) : p.ahead = false := by
  cases p with
  | counted => exact absurd h (by decide)
  | allocated => exact absurd h (by decide)
  | _ => rfl

theorem EnqPc.inserted_of_toRaise {p : EnqPc} (h : p.toRaise = true) : p.inserted = true := by
  cases p with
  | listed => rfl
  | sized => rfl
  | headed => rfl
  | filled => rfl
  | _ => exact absurd h (by simp [EnqPc.toRaise])

/-- At most `n` calls are in progress. -/
def AtMost (n : Nat) (s : MsgCpu) : Prop :=
  ∀ calls : Finset Nat, (∀ k ∈ calls, (s.pc k).inProgress = true) → calls.card ≤ n

/-- The count is right, and bounded. -/
structure Counted (n : Nat) (s : MsgCpu) : Prop where
  count_eq : s.count = s.list.length
  nonneg : 0 ≤ s.count
  le : s.count ≤ ncapMaxCount + n

/-- Holds as long as at most `n` calls are in progress: there is room for the nodes of all
calls that are past the test. -/
structure CountInv (n : Nat) (s : MsgCpu) : Prop where
  count_eq : s.count = s.list.length
  room : ∀ calls : Finset Nat, (∀ k ∈ calls, (s.pc k).ahead = true) →
    s.count + calls.card ≤ ncapMaxCount + n

theorem CountInv.counted {n : Nat} {s : MsgCpu} (h : CountInv n s) : Counted n s := by
  have hroom := h.room ∅ (by simp)
  rw [Finset.card_empty] at hroom
  have hcount := h.count_eq
  exact ⟨hcount, by omega, by omega⟩

/-- Calls leave the room they had: nobody is newly past the test. -/
theorem CountInv.of_ahead {n : Nat} {s t : MsgCpu} (h : CountInv n s) (hcount : t.count = s.count)
    (hlist : t.list = s.list) (hahead : ∀ k, (t.pc k).ahead = true → (s.pc k).ahead = true) :
    CountInv n t := by
  constructor
  · rw [hcount, hlist]
    exact h.count_eq
  · intro calls hcalls
    rw [hcount]
    exact h.room calls fun k hk => hahead k (hcalls k hk)

/-- One call moves, to a place from which it will not insert, or from one from which it was
going to. -/
theorem CountInv.goto {n : Nat} {s t : MsgCpu} {k : Nat} {p : EnqPc} (h : CountInv n s)
    (hpc : t.pc = Function.update s.pc k p) (hcount : t.count = s.count) (hlist : t.list = s.list)
    (hp : p.ahead = true → (s.pc k).ahead = true) : CountInv n t := by
  refine h.of_ahead hcount hlist ?_
  intro j hj
  rw [hpc] at hj
  rcases eq_or_ne j k with rfl | hjk
  · rw [Function.update_self] at hj
    exact hp hj
  · rwa [Function.update_of_ne hjk] at hj

theorem CountInv.insert {n : Nat} {s : MsgCpu} {k : Nat} (h : CountInv n s)
    (hpc : s.pc k = .allocated) : CountInv n (s.insert k) := by
  constructor
  · have := h.count_eq
    simp [MsgCpu.insert, MsgCpu.goto, this]
  · intro calls hcalls
    have hk : k ∉ calls := by
      intro hmem
      have := hcalls k hmem
      simp [MsgCpu.insert, MsgCpu.goto, EnqPc.ahead] at this
    -- the call was one of those that there was room for
    have hroom := h.room (Insert.insert k calls) fun j hj => by
      rcases Finset.mem_insert.mp hj with rfl | hj
      · rw [hpc]
        rfl
      · have hne : j ≠ k := fun heq => hk (heq ▸ hj)
        simpa [MsgCpu.insert, MsgCpu.goto, hne] using hcalls j hj
    rw [Finset.card_insert_of_notMem hk] at hroom
    show s.count + 1 + calls.card ≤ ncapMaxCount + n
    omega

theorem msgInit_countInv (cfg : MsgCfg) (n : Nat) : CountInv n (msgInit cfg) := by
  refine ⟨rfl, ?_⟩
  intro calls hcalls
  have hempty : calls = ∅ := by
    rw [Finset.eq_empty_iff_forall_notMem]
    intro k hk
    exact absurd (hcalls k hk) (by simp [msgInit, EnqPc.ahead])
  rw [hempty]
  simp only [msgInit, ncapMaxCount, Finset.card_empty]
  omega

/-- **One step**, which leaves at most `n` calls in progress. -/
theorem msgMove_countInv {cfg : MsgCfg} {core n : Nat} {s t : MsgCpu} {e : MsgEvent}
    (h : CountInv n s) (hmost : AtMost n t) (hm : MsgMove cfg core s e t) : CountInv n t := by
  cases hm with
  | @test k hcore hpc =>
    split
    · exact h.goto rfl rfl rfl (by simp [EnqPc.ahead])
    · rename_i hle
      rw [if_neg hle] at hmost
      refine ⟨h.count_eq, ?_⟩
      intro calls hcalls
      have hcard := hmost calls fun j hj => EnqPc.inProgress_of_ahead (hcalls j hj)
      show s.count + calls.card ≤ ncapMaxCount + n
      omega
  | refuse hpc hret => exact h.goto rfl rfl rfl (by simp [EnqPc.ahead])
  | allocate hpc hsize =>
    refine h.goto rfl rfl rfl ?_
    intro _
    rw [hpc]
    rfl
  | insert hpc => exact h.insert hpc
  | @fill k f p hnext =>
    refine h.goto (MsgCpu.fill_pc ..) (MsgCpu.fill_count ..) (MsgCpu.fill_list ..) ?_
    intro hp
    rw [EnqPc.ahead_of_toRaise (fillNext_toRaise hnext)] at hp
    exact absurd hp Bool.false_ne_true
  | raise hpc => exact h.goto rfl rfl rfl (by simp [EnqPc.ahead])
  | @take k rest node hlock hlist hnode =>
    have hcount := h.count_eq
    rw [hlist, List.length_cons] at hcount
    constructor
    · show s.count - 1 = rest.length
      omega
    · intro calls hcalls
      have hroom := h.room calls hcalls
      show s.count - 1 + calls.card ≤ ncapMaxCount + n
      omega
  | workStart => exact { h with }
  | workCheck => exact { h with }
  | takeNone => exact { h with }
  | reader => exact { h with }

/-! ## 3. Calls that fail -/

/-- The call whose step an event is. -/
def MsgEvent.call? : MsgEvent → Option Nat
  | .test k | .kmalloc k _ | .insert k | .fill k | .raise k => some k
  | _ => none

/-- The event is a step of call `k`, and changes neither the count nor the list. -/
def LeavesQueue (cfg : MsgCfg) (core k : Nat) (s : MsgCpu) (e : MsgEvent) : Prop :=
  e.call? = some k → ∀ t, msgStep cfg core s e = some t → t.count = s.count ∧ t.list = s.list

/-- The insertion is the only step of a call that changes the count or the list. -/
theorem msgMove_leavesQueue {cfg : MsgCfg} {core k : Nat} {s t : MsgCpu} {e : MsgEvent}
    (hcall : e.call? = some k) (hm : MsgMove cfg core s e t) :
    (t.count = s.count ∧ t.list = s.list) ∨ t = s.insert k := by
  cases hm with
  | insert hpc =>
    obtain rfl := Option.some.inj hcall
    exact Or.inr rfl
  | fill hnext => exact Or.inl ⟨MsgCpu.fill_count .., MsgCpu.fill_list ..⟩
  | take => exact absurd hcall (by simp [MsgEvent.call?])
  | _ => exact Or.inl ⟨rfl, rfl⟩

/-- A call that has inserted its node has inserted it for good. -/
theorem msgMove_inserted {cfg : MsgCfg} {core k : Nat} {s t : MsgCpu} {e : MsgEvent}
    (h : (s.pc k).inserted = true) (hm : MsgMove cfg core s e t) : (t.pc k).inserted = true := by
  have hgoto : ∀ {j : Nat} {p : EnqPc}, ((s.pc j).inserted = true → p.inserted = true) →
      (Function.update s.pc j p k).inserted = true := by
    intro j p hp
    rcases eq_or_ne k j with rfl | hj
    · rw [Function.update_self]
      exact hp h
    · rwa [Function.update_of_ne hj]
  cases hm with
  | test hcore hpc => exact hgoto fun hins => absurd hins (by rw [hpc]; decide)
  | refuse hpc hret => exact hgoto fun hins => absurd hins (by rw [hpc]; decide)
  | allocate hpc hsize => exact hgoto fun hins => absurd hins (by rw [hpc]; decide)
  | insert hpc => exact hgoto fun _ => rfl
  | fill hnext =>
    rw [MsgCpu.fill_pc]
    exact hgoto fun _ => EnqPc.inserted_of_toRaise (fillNext_toRaise hnext)
  | raise hpc => exact hgoto fun _ => rfl
  | _ => exact h

/-- **The accounting of a queue.**  In every run of all CPUs in which at most `n` calls are in
progress on CPU `c` at any time: the CPU's count is the length of its list in every state, never
below zero and never above `NCAP_MAX_COUNT + n`.  And no step of a call that returns an error
changed the count or the list. -/
theorem msgCount (cfg : MsgCfg) (n c : Nat) (es : List (Nat × MsgEvent))
    (hmost : AllStates (msgSystemStep cfg) (fun s => AtMost n (s c)) (msgSystemInit cfg) es) :
    AllStates (msgSystemStep cfg) (fun s => Counted n (s c)) (msgSystemInit cfg) es ∧
    ∀ t k ret, run (msgSystemStep cfg) (msgSystemInit cfg) es = some t →
      (t c).pc k = .returned ret → ret ≠ 0 →
      AllSteps (msgSystemStep cfg) (fun s e => e.1 = c → LeavesQueue cfg c k (s c) e.2)
        (msgSystemInit cfg) es := by
  constructor
  · have hinv :
        AllStates (msgSystemStep cfg) (fun s => CountInv n (s c)) (msgSystemInit cfg) es := by
      refine allStates_prodStep_of_allStates ?_ es _ ?_ hmost
      · intro s e t h hq hs
        exact msgMove_countInv h hq (msgMove_of_step hs)
      · exact msgInit_countInv cfg n
    exact hinv.mono fun s h => h.counted
  · intro t k ret hrun hret hne
    refine allSteps_of_run_of_not (D := fun s => ((s c).pc k).inserted = true) ?_ ?_ hrun ?_
    · rintro s ⟨d, e⟩ s' hins hs
      obtain ⟨u, hu, rfl⟩ := prodStep_eq_some.mp hs
      rcases eq_or_ne c d with rfl | hcd
      · rw [Function.update_self]
        exact msgMove_inserted hins (msgMove_of_step hu)
      · rwa [Function.update_of_ne hcd]
    · rintro s ⟨d, e⟩ s' hmiss hs
      obtain ⟨u, hu, rfl⟩ := prodStep_eq_some.mp hs
      simp only [Classical.not_imp, LeavesQueue, not_forall] at hmiss
      obtain ⟨rfl, hcall, u', hu', hchange⟩ := hmiss
      obtain rfl := Option.some.inj (hu.symm.trans hu')
      rcases msgMove_leavesQueue hcall (msgMove_of_step hu) with hsame | rfl
      · exact absurd hsame hchange
      · simp [MsgCpu.insert, MsgCpu.goto, EnqPc.inserted]
    · rw [hret]
      simpa [EnqPc.inserted] using hne

/-- A call whose step it is not stays where it is. -/
theorem msgMove_pc_of_ne {cfg : MsgCfg} {core k : Nat} {s t : MsgCpu} {e : MsgEvent}
    (hcall : e.call? ≠ some k) (hm : MsgMove cfg core s e t) : t.pc k = s.pc k := by
  have hne : ∀ {j : Nat}, some j ≠ some k → k ≠ j := fun hj heq => hj (congrArg some heq.symm)
  cases hm with
  | test => exact Function.update_of_ne (hne hcall) _ _
  | refuse => exact Function.update_of_ne (hne hcall) _ _
  | allocate => exact Function.update_of_ne (hne hcall) _ _
  | insert => exact Function.update_of_ne (hne hcall) _ _
  | fill =>
    rw [MsgCpu.fill_pc]
    exact Function.update_of_ne (hne hcall) _ _
  | raise => exact Function.update_of_ne (hne hcall) _ _
  | _ => rfl

/-- Where only the calls below `n` take steps, at most `n` are in progress. -/
theorem allStates_atMost {cfg : MsgCfg} {n c : Nat} {es : List (Nat × MsgEvent)}
    (h : ∀ e ∈ es, ∀ k, e.2.call? = some k → k < n) :
    AllStates (msgSystemStep cfg) (fun s => AtMost n (s c)) (msgSystemInit cfg) es := by
  have hstart : AllStates (msgSystemStep cfg) (fun s => ∀ d k, n ≤ k → (s d).pc k = .start)
      (msgSystemInit cfg) es := by
    refine allStates_prodStep_of_allSteps (I := fun _ (s : MsgCpu) => ∀ k, n ≤ k → s.pc k = .start)
      (C := fun _ _ e => ∀ k, e.call? = some k → k < n) ?_ es _ (fun _ _ _ => rfl)
      (allSteps_of_mem (fun e he _ _ _ => h e he) _)
    intro d s e t hs hcall ht k hk
    rw [msgMove_pc_of_ne (fun heq => absurd (hcall k heq) (Nat.not_lt.mpr hk))
      (msgMove_of_step ht), hs k hk]
  refine hstart.mono ?_
  intro s hs calls hcalls
  have hsub : calls ⊆ Finset.range n := by
    intro k hk
    rw [Finset.mem_range]
    by_contra hle
    have hprogress := hcalls k hk
    rw [hs c k (Nat.not_lt.mp hle)] at hprogress
    exact absurd hprogress Bool.false_ne_true
  exact (Finset.card_le_card hsub).trans (Finset.card_range n).le

/-- Two calls are in progress; the node of one is on the list when the worker takes it, and there
is no memory for the other. -/
def refusedEvents : List (Nat × MsgEvent) :=
  [(0, .test 0), (0, .test 1), (0, .kmalloc 0 (some ⟨0, fun _ => 0⟩)), (0, .insert 0),
    (0, .fill 0), (0, .fill 0), (0, .fill 0), (0, .workStart), (0, .workCheck), (0, .workTake),
    (0, .kmalloc 1 none)]

theorem msgCount_refused :
    ∃ t, run (msgSystemStep authCfg) (msgSystemInit authCfg) refusedEvents = some t ∧
      (t 0).listed = [0] ∧ (t 0).list = [] ∧ (t 0).pc 1 = .returned (-ENOMEM) ∧
      AllStates (msgSystemStep authCfg) (fun s => Counted 2 (s 0)) (msgSystemInit authCfg)
        refusedEvents ∧
      AllSteps (msgSystemStep authCfg) (fun s e => e.1 = 0 → LeavesQueue authCfg 0 1 (s 0) e.2)
        (msgSystemInit authCfg) refusedEvents := by
  have h : ((run (msgSystemStep authCfg) (msgSystemInit authCfg) refusedEvents).map
      fun s => ((s 0).listed, (s 0).list, (s 0).pc 1)) =
        some ([0], [], .returned (-ENOMEM)) := by
    decide +kernel
  obtain ⟨t, hrun, heq⟩ := exists_run_of_map h
  simp only [Prod.mk.injEq] at heq
  obtain ⟨hlisted, hlist, hret⟩ := heq
  have hcalls : ∀ e ∈ refusedEvents, ∀ k, e.2.call? = some k → k < 2 := by
    simp [refusedEvents, MsgEvent.call?]
  obtain ⟨hcounted, hleaves⟩ := msgCount authCfg 2 0 refusedEvents (allStates_atMost hcalls)
  exact ⟨t, hrun, hlisted, hlist, hret, hcounted, hleaves t 1 _ hrun hret (by decide)⟩

end Puppies
