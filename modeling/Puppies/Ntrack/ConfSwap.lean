/-
# Replacing the configuration under the packets (`ntrack_conf.c`)

`ntrack_conf_sync` fills a new table and then exchanges it for the one in use: it copies the
pointer `G_AuthConf`, stores `NULL` into it, waits for a grace period, frees the old table and
stores the new one.  Packets go on meanwhile.  A call of `user_need_redirect` loads the pointer up
to three times, once itself and once in each of its calls of `ntrack_user_match`, and the
configuration may be another one each time, or none.

The steps here are those at which the pointer, a table or a user's record is looked at; any number
of calls of both kinds take them in any order.  What the kernel adds is that a call for a packet
is inside a read-side section from its beginning to its end, and that `synchronize_rcu` returns
only after all sections that were open when it was called.

* Packets never look at a freed table and no table is lost, as long as the exchanges of two
  configurations do not get between each other.  They can: nothing in `ntrack_conf_sync` keeps two
  senders apart.  `confSwap_iff` says which steps have to be undisturbed, exactly.
* If they come one after the other they do not (`confSwap_oneAtATime`).
-/
import Puppies.Lib.Rcu
import Puppies.Ntrack.Session

namespace Puppies

open ByteMem EventRun Rcu

/-! ## 1. A call for a packet -/

/-- Who calls: the forward hook, `user_need_redirect`, or the tracker, `ntrack_user_match`. -/
inductive PathCaller
  | hook
  | tracker
  deriving DecidableEq, Repr

/-- What is to be done after a call of `ntrack_user_match`.  `conf` is the table of the caller. -/
inductive AfterMatch
  /-- the rule was not cached: test its magic -/
  | check (conf : Nat)
  /-- the cached one was from another table: look at the status -/
  | apply (conf : Nat) (matched : Bool)
  /-- the tracker called -/
  | ret
  deriving DecidableEq, Repr

/-- Where a call is, with its tables.  `matched` is as in `NeedRedirect`. -/
inductive PathPc
  | start
  /-- inside the read-side section -/
  | called
  /-- `user_need_redirect` has loaded the pointer -/
  | loaded (conf : Option Nat)
  /-- `ntrack_user_match` is called -/
  | look (after : AfterMatch)
  /-- it has loaded the pointer -/
  | matching (conf : Option Nat) (after : AfterMatch)
  /-- at the test of the magic -/
  | check (conf : Nat) (matched : Bool)
  /-- behind it -/
  | apply (conf : Nat) (matched : Bool)
  | done (ret matched : Bool)
  /-- outside the section again -/
  | left
  deriving DecidableEq, Repr

/-- The table that the caller of `ntrack_user_match` has. -/
def AfterMatch.tables : AfterMatch → List Nat
  | .check conf => [conf]
  | .apply conf _ => [conf]
  | .ret => []

/-- The tables that a call has a pointer to. -/
def PathPc.tables : PathPc → List Nat
  | .loaded conf => conf.toList
  | .look after => after.tables
  | .matching conf after => conf.toList ++ after.tables
  | .check conf _ => [conf]
  | .apply conf _ => [conf]
  | _ => []

/-- The tables that its next step reads. -/
def PathPc.reads : PathPc → List Nat
  | .loaded conf => conf.toList
  | .matching conf _ => conf.toList
  | .check conf _ => [conf]
  | .apply conf _ => [conf]
  | _ => []

/-- Whether a call is inside its read-side section. -/
def PathPc.inside : PathPc → Bool
  | .start => false
  | .left => false
  | _ => true

/-- Back from `ntrack_user_match`, which found a rule or not. -/
def AfterMatch.next (hit : Bool) : AfterMatch → PathPc
  | .check conf => if hit then .check conf true else .done false false
  | .apply conf matched => if hit then .apply conf true else .done false matched
  | .ret => .done hit hit

/-- One step of a call, between the beginning and the end of its section, with what becomes of the
user's record; `none` if it faults. -/
def PathPc.next (table : Nat → AuthConf) (cell : Option Nat) (caller : PathCaller) (ui : UserInfo)
    (pkt : Packet) : PathPc → Option (PathPc × UserInfo)
  | .called =>
    match caller with
    | .hook => some (.loaded cell, ui)
    | .tracker => some (.look .ret, ui)
  | .loaded none => some (.done false false, ui)
  | .loaded (some conf) =>
    if (table conf).numRules = 0 then some (.done false false, ui)
    else if ui.ruleMagic = 0 then some (.look (.check conf), ui)
    else some (.check conf false, ui)
  | .look after => some (.matching cell after, ui)
  | .matching conf after =>
    let m := ntrackUserMatch (conf.map table) ui pkt
    some (after.next (m.1 != 0), m.2)
  | .check conf matched =>
    match derefRule (table conf) (userGetRule ui (table conf)) with
    | .ok rule =>
      if ui.ruleMagic ≠ rule.magic then some (.look (.apply conf matched), ui)
      else some (.apply conf matched, ui)
    | .error _ => none
  | .apply conf matched =>
    match applyRule (table conf) ui matched with
    | .ok r => some (.done r.ret r.matched, r.ui)
    | .error _ => none
  | _ => none

/-! ## 2. A call of `ntrack_conf_sync` -/

/-- Where a call is.  `blk` is `conf_tmp` and `tmp` the old table. -/
inductive SyncPc
  | start
  /-- the new table is filled -/
  | filled (blk : Nat)
  /-- `if(G_AuthConf)` -/
  | tested (blk : Nat)
  /-- `tmp = G_AuthConf` -/
  | taken (blk : Nat) (tmp : Option Nat)
  /-- `rcu_assign_pointer(G_AuthConf, NULL)` -/
  | unlinked (blk : Nat) (tmp : Option Nat)
  /-- in `synchronize_rcu`, which waits for these calls -/
  | waiting (blk : Nat) (tmp : Option Nat) (readers : Finset Nat)
  /-- the old table is freed, or there was none -/
  | replaced (blk : Nat)
  /-- returned 0 -/
  | done
  /-- returned `-EINVAL`; `conf_tmp` is not freed -/
  | refused (blk : Nat)
  deriving DecidableEq

/-- The new table, as long as it is not in use. -/
def SyncPc.fresh : SyncPc → Option Nat
  | .filled blk => some blk
  | .tested blk => some blk
  | .taken blk _ => some blk
  | .unlinked blk _ => some blk
  | .waiting blk _ _ => some blk
  | .replaced blk => some blk
  | _ => none

/-- The old table, from when it is not in use any more until it is freed. -/
def SyncPc.out : SyncPc → Option Nat
  | .unlinked _ tmp => tmp
  | .waiting _ tmp _ => tmp
  | _ => none

/-- The table of a call that was refused. -/
def SyncPc.dropped : SyncPc → Option Nat
  | .refused blk => some blk
  | _ => none

/-- The calls that it waits for. -/
def SyncPc.waits : SyncPc → Option (Finset Nat)
  | .waiting _ _ readers => some readers
  | _ => none

/-- A call for a packet leaves its section. -/
def SyncPc.leave (k : Nat) : SyncPc → SyncPc
  | .waiting blk tmp readers => .waiting blk tmp (readers.erase k)
  | pc => pc

/-! ## 3. The machine -/

/-- The calls that there are: for packets, and of `ntrack_conf_sync`. -/
structure SwapCfg where
  caller : Nat → PathCaller
  userOf : Nat → Nat
  pkt : Nat → Packet
  env : Nat → SyncEnv
  confStr : Nat → List Byte

/-- The module, its memory and the calls. -/
structure SwapState where
  gAuthConf : Option Nat
  /-- what is in a block -/
  table : Nat → AuthConf
  /-- the blocks that are allocated -/
  live : Nat → Bool
  nextBlock : Nat
  /-- a block was read, or freed, that was not allocated -/
  fault : Bool
  user : Nat → UserInfo
  /-- the calls that are inside a read-side section -/
  inside : Finset Nat
  path : Nat → PathPc
  sync : Nat → SyncPc

/-- Who moves. -/
inductive SwapEvent
  /-- call `k` for a packet begins -/
  | enter (k : Nat)
  /-- it takes a step -/
  | path (k : Nat)
  /-- it ends -/
  | leave (k : Nat)
  /-- call `w` of `ntrack_conf_sync` takes a step -/
  | sync (w : Nat)
  deriving DecidableEq, Repr

/-- Call `w` of `ntrack_conf_sync` gets to `pc`. -/
def SwapState.goto (s : SwapState) (w : Nat) (pc : SyncPc) : SwapState :=
  { s with sync := Function.update s.sync w pc }

/-- `conf_tmp = vmalloc(…)`. -/
def SwapState.vmalloc (s : SwapState) : SwapState :=
  { s with
    live := Function.update s.live s.nextBlock true
    nextBlock := s.nextBlock + 1 }

/-- `vfree(tmp)` -/
def SwapState.vfree (s : SwapState) : Option Nat → SwapState
  | none => s
  | some b => { s with
      live := Function.update s.live b false
      fault := s.fault || !s.live b }

/-- One step of call `w` of `ntrack_conf_sync`; `none` if it faults, waits or has returned. -/
def syncNext (cfg : SwapCfg) (s : SwapState) (w : Nat) : SyncPc → Option SwapState
  | .start =>
    if !(cfg.env w).vmalloc then none
    else if isConf (cfg.env w) (cfg.confStr w) then
      some ({ s.vmalloc with
        table := Function.update s.table s.nextBlock ⟨newRules (cfg.env w) (cfg.confStr w)⟩ }.goto w
          (.filled s.nextBlock))
    else some (s.vmalloc.goto w (.refused s.nextBlock))
  | .filled blk => some (s.goto w (if s.gAuthConf.isSome then .tested blk else .replaced blk))
  | .tested blk => some (s.goto w (.taken blk s.gAuthConf))
  | .taken blk tmp => some ({ s with gAuthConf := none }.goto w (.unlinked blk tmp))
  | .unlinked blk tmp => some (s.goto w (.waiting blk tmp s.inside))
  | .waiting blk tmp readers =>
    if readers = ∅ then some ((s.vfree tmp).goto w (.replaced blk)) else none
  | .replaced blk => some ({ s with gAuthConf := some blk }.goto w .done)
  | .done => none
  | .refused _ => none

/-- One step of one of the calls. -/
def swapStep (cfg : SwapCfg) (s : SwapState) : SwapEvent → Option SwapState
  | .enter k =>
    if s.path k = .start then
      some { s with inside := insert k s.inside, path := Function.update s.path k .called }
    else none
  | .path k =>
    let u := cfg.userOf k
    ((s.path k).next s.table s.gAuthConf (cfg.caller k) (s.user u) (cfg.pkt k)).map fun r =>
      { s with
        fault := s.fault || (s.path k).reads.any fun b => !s.live b
        user := Function.update s.user u r.2
        path := Function.update s.path k r.1 }
  | .leave k =>
    match s.path k with
    | .done _ _ => some { s with
        inside := s.inside.erase k
        path := Function.update s.path k .left
        sync := fun w => (s.sync w).leave k }
    | _ => none
  | .sync w => syncNext cfg s w (s.sync w)

/-- The module after it was loaded. -/
def swapInit (user : Nat → UserInfo) : SwapState where
  gAuthConf := none
  table := fun _ => ⟨[]⟩
  live := fun _ => false
  nextBlock := 0
  fault := false
  user := user
  inside := ∅
  path := fun _ => .start
  sync := fun _ => .start

/-! ## 4. Whose a table is -/

/-- Where a pointer to a table can be that has to be given back. -/
inductive Place
  /-- `G_AuthConf` -/
  | cell
  /-- `conf_tmp` of call `w` -/
  | fresh (w : Nat)
  /-- `tmp` of call `w`, when it is not in use any more -/
  | out (w : Nat)
  /-- nowhere, after call `w` was refused -/
  | dropped (w : Nat)
  deriving DecidableEq, Repr

/-- The table that is there. -/
def SwapState.own (s : SwapState) : Place → Option Nat
  | .cell => s.gAuthConf
  | .fresh w => (s.sync w).fresh
  | .out w => (s.sync w).out
  | .dropped w => (s.sync w).dropped

/-- The tables in memory are the one in use, those that calls of `ntrack_conf_sync` have, and those
that refused ones left behind, each once; and no call for a packet has one that was freed. -/
structure TablesSound (s : SwapState) : Prop where
  owned : Owned s.own fun b => s.live b = true
  packets : ∀ k b, b ∈ (s.path k).tables → s.live b = true
  fault : s.fault = false

/-- A call of `ntrack_conf_sync` that stores `NULL` into the pointer finds the table there that it
has copied, and one that stores the new table finds `NULL`. -/
def SyncPc.mayStore (cell : Option Nat) : SyncPc → Bool
  | .taken _ tmp => cell == tmp
  | .replaced _ => cell == none
  | _ => true

/-- The condition on a step: if it is one of `ntrack_conf_sync` that stores into the pointer, no
other call has done so since this one looked. -/
def Undisturbed (s : SwapState) : SwapEvent → Prop
  | .sync w => (s.sync w).mayStore s.gAuthConf = true
  | .enter _ => True
  | .path _ => True
  | .leave _ => True

instance decidableUndisturbed (s : SwapState) : ∀ e, Decidable (Undisturbed s e)
  | .sync w => inferInstanceAs (Decidable ((s.sync w).mayStore s.gAuthConf = true))
  | .enter _ => isTrue trivial
  | .path _ => isTrue trivial
  | .leave _ => isTrue trivial

/-- What the undisturbed steps keep besides. -/
structure SwapInv (s : SwapState) : Prop where
  guarded : Guarded s.gAuthConf (fun w => (s.sync w).out) (fun w => (s.sync w).waits)
    fun k b => b ∈ (s.path k).tables
  inside : ∀ k, (s.path k).inside = true → k ∈ s.inside
  fresh : ∀ b, s.live b = true → b < s.nextBlock

theorem swapInit_sound (user : Nat → UserInfo) : TablesSound (swapInit user) where
  owned := .empty (fun p => by cases p <;> rfl) fun _ => Bool.false_ne_true
  packets := fun _ _ hb => absurd hb List.not_mem_nil
  fault := rfl

theorem swapInit_inv (user : Nat → UserInfo) : SwapInv (swapInit user) where
  guarded := fun _ _ hb => absurd hb List.not_mem_nil
  inside := fun _ hk => absurd hk Bool.false_ne_true
  fresh := fun _ hb => absurd hb Bool.false_ne_true

/-! ## 5. Packets -/

/-- Only calls inside their section have tables. -/
theorem PathPc.inside_of_mem {pc : PathPc} {b : Nat} (h : b ∈ pc.tables) : pc.inside = true := by
  cases pc with
  | start => exact absurd h List.not_mem_nil
  | left => exact absurd h List.not_mem_nil
  | called | loaded | look | matching | check | apply | done => rfl

/-- What a step reads, the call has a pointer to. -/
theorem PathPc.tables_of_reads {pc : PathPc} {b : Nat} (h : b ∈ pc.reads) : b ∈ pc.tables := by
  cases pc with
  | start | called | look | done | left => exact absurd h List.not_mem_nil
  | loaded | check | apply => exact h
  | matching => exact List.mem_append_left _ h

theorem AfterMatch.tables_next {after : AfterMatch} {hit : Bool} {b : Nat}
    (h : b ∈ (after.next hit).tables) : b ∈ after.tables := by
  cases after with
  | check | apply =>
    cases hit with
    | false => exact absurd h List.not_mem_nil
    | true => exact h
  | ret => exact absurd h List.not_mem_nil

theorem AfterMatch.inside_next (after : AfterMatch) (hit : Bool) :
    (after.next hit).inside = true := by
  cases after <;> cases hit <;> rfl

/-- **One step of a call for a packet**: the tables it has are some of those it had and the one in
use, and it is inside its section before and after it. -/
structure PathMove (cell : Option Nat) (pc pc' : PathPc) : Prop where
  tables : ∀ b, b ∈ pc'.tables → b ∈ pc.tables ∨ cell = some b
  inside : pc.inside = true
  inside' : pc'.inside = true

theorem PathPc.next_move {table : Nat → AuthConf} {cell : Option Nat} {caller : PathCaller}
    {ui : UserInfo} {pkt : Packet} {pc : PathPc} {r : PathPc × UserInfo}
    (h : pc.next table cell caller ui pkt = some r) : PathMove cell pc r.1 := by
  cases pc with
  | start => exact absurd h (by simp [PathPc.next])
  | called =>
    cases caller with
    | hook =>
      obtain rfl := Option.some.inj h
      exact ⟨fun b hb => Or.inr (Option.mem_toList.mp hb), rfl, rfl⟩
    | tracker =>
      obtain rfl := Option.some.inj h
      exact ⟨fun b hb => absurd hb List.not_mem_nil, rfl, rfl⟩
  | loaded conf =>
    cases conf with
    | none =>
      obtain rfl := Option.some.inj h
      exact ⟨fun b hb => absurd hb List.not_mem_nil, rfl, rfl⟩
    | some conf =>
      simp only [PathPc.next] at h
      split at h
      · obtain rfl := Option.some.inj h
        exact ⟨fun b hb => absurd hb List.not_mem_nil, rfl, rfl⟩
      · split at h
        · obtain rfl := Option.some.inj h
          exact ⟨fun b hb => Or.inl hb, rfl, rfl⟩
        · obtain rfl := Option.some.inj h
          exact ⟨fun b hb => Or.inl hb, rfl, rfl⟩
  | look after =>
    obtain rfl := Option.some.inj h
    refine ⟨?_, rfl, rfl⟩
    intro b hb
    rcases List.mem_append.mp hb with hcell | hafter
    · exact Or.inr (Option.mem_toList.mp hcell)
    · exact Or.inl hafter
  | matching conf after =>
    obtain rfl := Option.some.inj h
    exact ⟨fun b hb => Or.inl (List.mem_append_right _ (AfterMatch.tables_next hb)), rfl,
      after.inside_next _⟩
  | check conf matched =>
    simp only [PathPc.next] at h
    split at h
    · split at h
      · obtain rfl := Option.some.inj h
        exact ⟨fun b hb => Or.inl hb, rfl, rfl⟩
      · obtain rfl := Option.some.inj h
        exact ⟨fun b hb => Or.inl hb, rfl, rfl⟩
    · exact absurd h (by simp)
  | apply conf matched =>
    simp only [PathPc.next] at h
    split at h
    · obtain rfl := Option.some.inj h
      exact ⟨fun b hb => absurd hb List.not_mem_nil, rfl, rfl⟩
    · exact absurd h (by simp)
  | done => exact absurd h (by simp [PathPc.next])
  | left => exact absurd h (by simp [PathPc.next])

/-- What a step keeps. -/
structure SwapKept (s : SwapState) : Prop where
  sound : TablesSound s
  inv : SwapInv s

theorem swapKept_enter {cfg : SwapCfg} {s t : SwapState} {k : Nat} (hs : SwapKept s)
    (h : swapStep cfg s (.enter k) = some t) : SwapKept t := by
  simp only [swapStep] at h
  split at h
  · rename_i hpc
    obtain rfl := Option.some.inj h
    have htables : ∀ j b, b ∈ (Function.update s.path k .called j).tables →
        b ∈ (s.path j).tables := by
      intro j b hb
      rcases eq_or_ne j k with rfl | hne
      · rw [Function.update_self] at hb
        exact absurd hb List.not_mem_nil
      · rwa [Function.update_of_ne hne] at hb
    refine ⟨⟨hs.sound.owned, ?_, hs.sound.fault⟩, ⟨?_, ?_, hs.inv.fresh⟩⟩
    · exact fun j b hb => hs.sound.packets j b (htables j b hb)
    · exact hs.inv.guarded.load fun j b hb => Or.inl (htables j b hb)
    · intro j hj
      rcases eq_or_ne j k with rfl | hne
      · exact Finset.mem_insert_self ..
      · simp only [Function.update_of_ne hne] at hj
        exact Finset.mem_insert_of_mem (hs.inv.inside j hj)
  · exact absurd h (by simp)

theorem swapKept_path {cfg : SwapCfg} {s t : SwapState} {k : Nat} (hs : SwapKept s)
    (h : swapStep cfg s (.path k) = some t) : SwapKept t := by
  obtain ⟨r, hr, rfl⟩ := Option.map_eq_some_iff.mp h
  have hmove := PathPc.next_move hr
  have htables : ∀ j b, b ∈ (Function.update s.path k r.1 j).tables →
      b ∈ (s.path j).tables ∨ s.gAuthConf = some b := by
    intro j b hb
    rcases eq_or_ne j k with rfl | hne
    · rw [Function.update_self] at hb
      exact hmove.tables b hb
    · rw [Function.update_of_ne hne] at hb
      exact Or.inl hb
  refine ⟨⟨hs.sound.owned, ?_, ?_⟩, ⟨?_, ?_, hs.inv.fresh⟩⟩
  · intro j b hb
    rcases htables j b hb with hold | hcell
    · exact hs.sound.packets j b hold
    · exact hs.sound.owned.live_of_own (o := .cell) hcell
  · have hreads : (s.path k).reads.any (fun b => !s.live b) = false := by
      rw [List.any_eq_false]
      intro b hb
      rw [hs.sound.packets k b (PathPc.tables_of_reads hb)]
      exact Bool.false_ne_true
    exact (Bool.or_eq_false_iff.mpr ⟨hs.sound.fault, hreads⟩ :)
  · exact hs.inv.guarded.load htables
  · intro j hj
    rcases eq_or_ne j k with rfl | hne
    · exact hs.inv.inside j hmove.inside
    · simp only [Function.update_of_ne hne] at hj
      exact hs.inv.inside j hj

@[simp] theorem SyncPc.fresh_leave (pc : SyncPc) (k : Nat) : (pc.leave k).fresh = pc.fresh := by
  cases pc <;> rfl

@[simp] theorem SyncPc.out_leave (pc : SyncPc) (k : Nat) : (pc.leave k).out = pc.out := by
  cases pc <;> rfl

@[simp] theorem SyncPc.dropped_leave (pc : SyncPc) (k : Nat) :
    (pc.leave k).dropped = pc.dropped := by
  cases pc <;> rfl

@[simp] theorem SyncPc.waits_leave (pc : SyncPc) (k : Nat) :
    (pc.leave k).waits = pc.waits.map fun f => f.erase k := by
  cases pc <;> rfl

theorem swapKept_leave {cfg : SwapCfg} {s t : SwapState} {k : Nat} (hs : SwapKept s)
    (h : swapStep cfg s (.leave k) = some t) : SwapKept t := by
  simp only [swapStep] at h
  split at h
  · obtain rfl := Option.some.inj h
    have htables : ∀ j b, b ∈ (Function.update s.path k .left j).tables →
        j ≠ k ∧ b ∈ (s.path j).tables := by
      intro j b hb
      rcases eq_or_ne j k with rfl | hne
      · rw [Function.update_self] at hb
        exact absurd hb List.not_mem_nil
      · rw [Function.update_of_ne hne] at hb
        exact ⟨hne, hb⟩
    refine ⟨⟨?_, ?_, hs.sound.fault⟩, ⟨?_, ?_, hs.inv.fresh⟩⟩
    · refine (congrArg (Owned · _) (funext fun p => ?_)).mpr hs.sound.owned
      cases p <;> simp [SwapState.own]
    · exact fun j b hb => hs.sound.packets j b (htables j b hb).2
    · have hleave := (hs.inv.guarded.leave k).load fun j b hb => Or.inl (htables j b hb)
      simpa only [SyncPc.out_leave, SyncPc.waits_leave] using hleave
    · intro j hj
      rcases eq_or_ne j k with rfl | hne
      · simp only [Function.update_self] at hj
        exact absurd hj Bool.false_ne_true
      · simp only [Function.update_of_ne hne] at hj
        exact Finset.mem_erase.mpr ⟨hne, hs.inv.inside j hj⟩
  · exact absurd h (by simp)

/-! ## 6. Configurations -/

section Goto

variable (s : SwapState) (w : Nat) (pc : SyncPc)

theorem own_goto : (s.goto w pc).own =
    Function.update (Function.update (Function.update s.own (.fresh w) pc.fresh)
      (.out w) pc.out) (.dropped w) pc.dropped := by
  funext p
  cases p with
  | cell => rfl
  | fresh v =>
    rcases eq_or_ne v w with rfl | hne
    · simp [SwapState.own, SwapState.goto]
    · simp [SwapState.own, SwapState.goto, hne]
  | out v =>
    rcases eq_or_ne v w with rfl | hne
    · simp [SwapState.own, SwapState.goto]
    · simp [SwapState.own, SwapState.goto, hne]
  | dropped v =>
    rcases eq_or_ne v w with rfl | hne
    · simp [SwapState.own, SwapState.goto]
    · simp [SwapState.own, SwapState.goto, hne]

theorem out_goto : (fun v => ((s.goto w pc).sync v).out) =
    Function.update (fun v => (s.sync v).out) w pc.out :=
  Function.comp_update SyncPc.out s.sync w pc

theorem waits_goto : (fun v => ((s.goto w pc).sync v).waits) =
    Function.update (fun v => (s.sync v).waits) w pc.waits :=
  Function.comp_update SyncPc.waits s.sync w pc

end Goto

section GotoOne

variable {s : SwapState} {w : Nat} {pc : SyncPc}

/-- A step that only changes what `conf_tmp` is. -/
theorem own_goto_fresh (hout : pc.out = (s.sync w).out)
    (hdropped : pc.dropped = (s.sync w).dropped) :
    (s.goto w pc).own = Function.update s.own (.fresh w) pc.fresh := by
  have h₁ : Function.update s.own (.fresh w) pc.fresh (.out w) = pc.out := by
    rw [Function.update_of_ne (by simp), hout]
    rfl
  have h₂ : Function.update s.own (.fresh w) pc.fresh (.dropped w) = pc.dropped := by
    rw [Function.update_of_ne (by simp), hdropped]
    rfl
  rw [own_goto, ← h₁, Function.update_eq_self, ← h₂, Function.update_eq_self]

/-- One that only changes what `tmp` is. -/
theorem own_goto_out (hfresh : pc.fresh = (s.sync w).fresh)
    (hdropped : pc.dropped = (s.sync w).dropped) :
    (s.goto w pc).own = Function.update s.own (.out w) pc.out := by
  have h₁ : pc.fresh = s.own (.fresh w) := hfresh
  have h₂ : Function.update s.own (.out w) pc.out (.dropped w) = pc.dropped := by
    rw [Function.update_of_ne (by simp), hdropped]
    rfl
  rw [own_goto, h₁, Function.update_eq_self, ← h₂, Function.update_eq_self]

/-- One that only leaves a table behind. -/
theorem own_goto_dropped (hfresh : pc.fresh = (s.sync w).fresh)
    (hout : pc.out = (s.sync w).out) :
    (s.goto w pc).own = Function.update s.own (.dropped w) pc.dropped := by
  have h₁ : pc.fresh = s.own (.fresh w) := hfresh
  have h₂ : pc.out = s.own (.out w) := hout
  rw [own_goto, h₁, Function.update_eq_self, h₂, Function.update_eq_self]

/-- One that leaves every table where it is. -/
theorem own_goto_same (hfresh : pc.fresh = (s.sync w).fresh) (hout : pc.out = (s.sync w).out)
    (hdropped : pc.dropped = (s.sync w).dropped) : (s.goto w pc).own = s.own := by
  have h₁ : pc.fresh = s.own (.fresh w) := hfresh
  rw [own_goto_fresh hout hdropped, h₁, Function.update_eq_self]

end GotoOne

/-- Nothing but where call `w` is changes, and no table changes hands. -/
theorem TablesSound.goto {s : SwapState} (hs : TablesSound s) {w : Nat} {pc : SyncPc}
    (hfresh : pc.fresh = (s.sync w).fresh) (hout : pc.out = (s.sync w).out)
    (hdropped : pc.dropped = (s.sync w).dropped) : TablesSound (s.goto w pc) where
  owned := (own_goto_same hfresh hout hdropped).symm ▸ hs.owned
  packets := hs.packets
  fault := hs.fault

theorem SwapInv.goto {s : SwapState} (hs : SwapInv s) {w : Nat} {pc : SyncPc}
    (hout : pc.out = (s.sync w).out) (hwaits : pc.waits = (s.sync w).waits) :
    SwapInv (s.goto w pc) := by
  refine ⟨?_, hs.inside, hs.fresh⟩
  rw [out_goto, waits_goto, hout, hwaits, Function.update_eq_self w (fun v => (s.sync v).out),
    Function.update_eq_self w (fun v => (s.sync v).waits)]
  exact hs.guarded

/-- The new table of a call. -/
theorem swapKept_vmalloc {s : SwapState} (hs : SwapKept s) {w : Nat} {pc : SyncPc} {o : Place}
    {table : Nat → AuthConf} (hout : pc.out = (s.sync w).out)
    (hwaits : pc.waits = (s.sync w).waits) (ho : s.own o = none)
    (hown : ({ s.vmalloc with table := table }.goto w pc).own =
      Function.update s.own o (some s.nextBlock)) :
    SwapKept ({ s.vmalloc with table := table }.goto w pc) := by
  have hnew : ¬ s.live s.nextBlock = true := fun h =>
    absurd (hs.inv.fresh s.nextBlock h) (Nat.lt_irrefl _)
  have hlive : ∀ b, Function.update s.live s.nextBlock true b = true ↔
      b = s.nextBlock ∨ s.live b = true := by
    intro b
    rcases eq_or_ne b s.nextBlock with rfl | hne
    · simp
    · simp [hne]
  refine ⟨⟨hown.symm ▸ hs.sound.owned.alloc ho hnew hlive, ?_, hs.sound.fault⟩, ?_⟩
  · exact fun k b hb => (hlive b).mpr (Or.inr (hs.sound.packets k b hb))
  · have hinv : SwapInv { s.vmalloc with table := table } := by
      refine ⟨hs.inv.guarded, hs.inv.inside, ?_⟩
      intro b hb
      rcases (hlive b).mp hb with rfl | hold
      · exact Nat.lt_succ_self _
      · exact Nat.lt_succ_of_lt (hs.inv.fresh b hold)
    exact hinv.goto hout hwaits

theorem swapKept_start {cfg : SwapCfg} {s t : SwapState} {w : Nat} (hs : SwapKept s)
    (hpc : s.sync w = .start) (h : syncNext cfg s w .start = some t) : SwapKept t := by
  have hfresh : s.own (.fresh w) = none := by rw [SwapState.own, hpc]; rfl
  have hdropped : s.own (.dropped w) = none := by rw [SwapState.own, hpc]; rfl
  simp only [syncNext] at h
  split at h
  · exact absurd h (by simp)
  · split at h
    · obtain rfl := Option.some.inj h
      refine swapKept_vmalloc hs (by rw [hpc]; rfl) (by rw [hpc]; rfl) hfresh ?_
      exact own_goto_fresh (s := { s.vmalloc with table := _ }) (congrArg SyncPc.out hpc).symm
        (congrArg SyncPc.dropped hpc).symm
    · obtain rfl := Option.some.inj h
      refine swapKept_vmalloc hs (by rw [hpc]; rfl) (by rw [hpc]; rfl) hdropped ?_
      exact own_goto_dropped (s := s.vmalloc) (congrArg SyncPc.fresh hpc).symm
        (congrArg SyncPc.out hpc).symm

/-- A store into the pointer. -/
theorem own_cell (s : SwapState) (c : Option Nat) :
    ({ s with gAuthConf := c } : SwapState).own = Function.update s.own .cell c := by
  funext p
  cases p <;> simp [SwapState.own]

/-- **The table is taken out of the pointer**: it has to be the one that was copied. -/
theorem sound_unlink_iff {s : SwapState} (hs : SwapKept s) {w blk : Nat} {tmp : Option Nat}
    (hpc : s.sync w = .taken blk tmp) :
    TablesSound ({ s with gAuthConf := none }.goto w (.unlinked blk tmp)) ↔
      s.gAuthConf = tmp := by
  have hout : s.own (.out w) = none := by rw [SwapState.own, hpc]; rfl
  have hfresh : SyncPc.fresh (.unlinked blk tmp) = (s.sync w).fresh := by rw [hpc]; rfl
  have hdropped : SyncPc.dropped (.unlinked blk tmp) = (s.sync w).dropped := by rw [hpc]; rfl
  have hown : ({ s with gAuthConf := none }.goto w (.unlinked blk tmp)).own =
      Function.update (Function.update s.own .cell none) (.out w) tmp := by
    rw [own_goto_out (s := { s with gAuthConf := none }) hfresh hdropped, own_cell]
    rfl
  have hiff := hs.sound.owned.take_iff (o := .cell) (by simp) hout (x := tmp)
  constructor
  · intro h
    exact hiff.mp (hown ▸ h.owned)
  · intro h
    exact ⟨hown.symm ▸ hiff.mpr h, hs.sound.packets, hs.sound.fault⟩

theorem inv_unlink {s : SwapState} (hs : SwapInv s) {w blk : Nat} {tmp : Option Nat}
    (hpc : s.sync w = .taken blk tmp) (hcell : s.gAuthConf = tmp) :
    SwapInv ({ s with gAuthConf := none }.goto w (.unlinked blk tmp)) := by
  refine ⟨?_, hs.inside, hs.fresh⟩
  have hwaits : SyncPc.waits (.unlinked blk tmp) = (s.sync w).waits := by rw [hpc]; rfl
  rw [out_goto, waits_goto, hwaits, Function.update_eq_self w (fun v => (s.sync v).waits), ← hcell]
  exact hs.guarded.unlink (by rw [hpc]; rfl) (by rw [hpc]; rfl)

/-- **The grace period begins**: it is for everybody who may have the table. -/
theorem swapKept_wait {s : SwapState} (hs : SwapKept s) {w blk : Nat} {tmp : Option Nat}
    (hpc : s.sync w = .unlinked blk tmp) : SwapKept (s.goto w (.waiting blk tmp s.inside)) := by
  have hout : SyncPc.out (.waiting blk tmp s.inside) = (s.sync w).out := by rw [hpc]; rfl
  refine ⟨hs.sound.goto (by rw [hpc]; rfl) hout (by rw [hpc]; rfl), ?_, hs.inv.inside,
    hs.inv.fresh⟩
  rw [out_goto, waits_goto, hout, Function.update_eq_self w (fun v => (s.sync v).out)]
  exact hs.inv.guarded.wait (fun k b hb => hs.inv.inside k (PathPc.inside_of_mem hb)) w

/-- **The table is freed**: at the end of the grace period nobody has it. -/
theorem swapKept_vfree {s : SwapState} (hs : SwapKept s) {w blk : Nat} {tmp : Option Nat}
    (hpc : s.sync w = .waiting blk tmp ∅) : SwapKept ((s.vfree tmp).goto w (.replaced blk)) := by
  have hfresh : SyncPc.fresh (.replaced blk) = (s.sync w).fresh := by rw [hpc]; rfl
  have hdropped : SyncPc.dropped (.replaced blk) = (s.sync w).dropped := by rw [hpc]; rfl
  have hnot : ∀ k b, s.own (.out w) = some b → b ∉ (s.path k).tables := by
    intro k b hb
    refine hs.inv.guarded.not_held (w := w) (by rw [hpc]; rfl) ?_ ?_ k
    · exact hs.sound.owned.own_ne hb (by simp : Place.cell ≠ .out w)
    · intro v hv
      by_contra hne
      exact hs.sound.owned.own_ne hb (by simpa using hne : Place.out v ≠ .out w) hv
  have hguarded : Guarded s.gAuthConf
      (fun v => (((s.vfree tmp).goto w (.replaced blk)).sync v).out)
      (fun v => (((s.vfree tmp).goto w (.replaced blk)).sync v).waits)
      fun k b => b ∈ (s.path k).tables := by
    rw [out_goto, waits_goto]
    have hsync : (s.vfree tmp).sync = s.sync := by cases tmp <;> rfl
    rw [hsync]
    exact hs.inv.guarded.reclaim fun k b hb => hnot k b hb
  cases tmp with
  | none =>
    refine ⟨hs.sound.goto hfresh ?_ hdropped, hguarded, hs.inv.inside, hs.inv.fresh⟩
    rw [hpc]
    rfl
  | some b =>
    have hb : s.own (.out w) = some b := by rw [SwapState.own, hpc]; rfl
    have hlive : ∀ c, Function.update s.live b false c = true ↔ c ≠ b ∧ s.live c = true := by
      intro c
      rcases eq_or_ne c b with rfl | hne
      · simp
      · simp [hne]
    refine ⟨⟨?_, ?_, ?_⟩, hguarded, hs.inv.inside, fun c hc => hs.inv.fresh c ((hlive c).mp hc).2⟩
    · have hown : ((s.vfree (some b)).goto w (.replaced blk)).own =
          Function.update s.own (.out w) none :=
        own_goto_out (s := s.vfree (some b)) hfresh hdropped
      exact hown.symm ▸ hs.sound.owned.free hb hlive
    · intro k c hc
      refine (hlive c).mpr ⟨?_, hs.sound.packets k c hc⟩
      rintro rfl
      exact hnot k c hb hc
    · have hfree : (!s.live b) = false := by rw [hs.sound.owned.live_of_own hb]; rfl
      exact (Bool.or_eq_false_iff.mpr ⟨hs.sound.fault, hfree⟩ :)

/-- **The new table is put into the pointer**, which has to be empty. -/
theorem sound_publish_iff {s : SwapState} (hs : SwapKept s) {w blk : Nat}
    (hpc : s.sync w = .replaced blk) :
    TablesSound ({ s with gAuthConf := some blk }.goto w .done) ↔ s.gAuthConf = none := by
  have hfresh : s.own (.fresh w) = some blk := by rw [SwapState.own, hpc]; rfl
  have hout : SyncPc.out .done = (s.sync w).out := by rw [hpc]; rfl
  have hdropped : SyncPc.dropped .done = (s.sync w).dropped := by rw [hpc]; rfl
  have hown : ({ s with gAuthConf := some blk }.goto w .done).own =
      Function.update (Function.update s.own (.fresh w) none) .cell (s.own (.fresh w)) := by
    rw [own_goto_fresh (s := { s with gAuthConf := some blk }) hout hdropped, own_cell, hfresh,
      Function.update_comm (by simp)]
    rfl
  have hiff := hs.sound.owned.put_iff (by simp : Place.fresh w ≠ .cell)
  constructor
  · intro h
    exact hiff.mp (hown ▸ h.owned)
  · intro h
    exact ⟨hown.symm ▸ hiff.mpr h, hs.sound.packets, hs.sound.fault⟩

theorem inv_publish {s : SwapState} (hs : SwapInv s) {w blk : Nat}
    (hpc : s.sync w = .replaced blk) (hcell : s.gAuthConf = none) :
    SwapInv ({ s with gAuthConf := some blk }.goto w .done) := by
  have hinv : SwapInv { s with gAuthConf := some blk } :=
    ⟨(hcell ▸ hs.guarded).publish blk, hs.inside, hs.fresh⟩
  exact hinv.goto (congrArg SyncPc.out hpc).symm (congrArg SyncPc.waits hpc).symm

/-! ## 7. Every step -/

/-- What a step does to the tables. -/
structure SwapStepped (s : SwapState) (e : SwapEvent) (t : SwapState) : Prop where
  sound_iff : TablesSound t ↔ Undisturbed s e
  inv : Undisturbed s e → SwapInv t

theorem SwapStepped.of_kept {s t : SwapState} {e : SwapEvent} (hC : Undisturbed s e)
    (h : SwapKept t) : SwapStepped s e t := ⟨⟨fun _ => hC, fun _ => h.sound⟩, fun _ => h.inv⟩

theorem syncNext_stepped {cfg : SwapCfg} {s t : SwapState} {w : Nat} (hs : SwapKept s)
    (h : syncNext cfg s w (s.sync w) = some t) : SwapStepped s (.sync w) t := by
  cases hpc : s.sync w with
  | start =>
    rw [hpc] at h
    exact .of_kept (by rw [Undisturbed, hpc]; rfl) (swapKept_start hs hpc h)
  | filled blk =>
    rw [hpc] at h
    obtain rfl := Option.some.inj h
    refine .of_kept (by rw [Undisturbed, hpc]; rfl) ?_
    cases s.gAuthConf.isSome with
    | true => exact ⟨hs.sound.goto (by rw [hpc]; rfl) (by rw [hpc]; rfl) (by rw [hpc]; rfl),
        hs.inv.goto (by rw [hpc]; rfl) (by rw [hpc]; rfl)⟩
    | false => exact ⟨hs.sound.goto (by rw [hpc]; rfl) (by rw [hpc]; rfl) (by rw [hpc]; rfl),
        hs.inv.goto (by rw [hpc]; rfl) (by rw [hpc]; rfl)⟩
  | tested blk =>
    rw [hpc] at h
    obtain rfl := Option.some.inj h
    exact .of_kept (by rw [Undisturbed, hpc]; rfl)
      ⟨hs.sound.goto (by rw [hpc]; rfl) (by rw [hpc]; rfl) (by rw [hpc]; rfl),
        hs.inv.goto (by rw [hpc]; rfl) (by rw [hpc]; rfl)⟩
  | taken blk tmp =>
    rw [hpc] at h
    obtain rfl := Option.some.inj h
    have hC : Undisturbed s (.sync w) ↔ s.gAuthConf = tmp := by
      rw [Undisturbed, hpc, SyncPc.mayStore, beq_iff_eq]
    exact ⟨(sound_unlink_iff hs hpc).trans hC.symm, fun hu => inv_unlink hs.inv hpc (hC.mp hu)⟩
  | unlinked blk tmp =>
    rw [hpc] at h
    obtain rfl := Option.some.inj h
    exact .of_kept (by rw [Undisturbed, hpc]; rfl) (swapKept_wait hs hpc)
  | waiting blk tmp readers =>
    rw [hpc] at h
    simp only [syncNext] at h
    split at h
    · rename_i hempty
      obtain rfl := Option.some.inj h
      exact .of_kept (by rw [Undisturbed, hpc]; rfl)
        (swapKept_vfree hs (hempty ▸ hpc))
    · exact absurd h (by simp)
  | replaced blk =>
    rw [hpc] at h
    obtain rfl := Option.some.inj h
    have hC : Undisturbed s (.sync w) ↔ s.gAuthConf = none := by
      rw [Undisturbed, hpc, SyncPc.mayStore, beq_iff_eq]
    exact ⟨(sound_publish_iff hs hpc).trans hC.symm, fun hu => inv_publish hs.inv hpc (hC.mp hu)⟩
  | done =>
    rw [hpc] at h
    exact absurd h (by simp [syncNext])
  | refused blk =>
    rw [hpc] at h
    exact absurd h (by simp [syncNext])

theorem swapStep_stepped {cfg : SwapCfg} {s t : SwapState} {e : SwapEvent} (hs : SwapKept s)
    (h : swapStep cfg s e = some t) : SwapStepped s e t := by
  cases e with
  | enter k => exact .of_kept trivial (swapKept_enter hs h)
  | path k => exact .of_kept trivial (swapKept_path hs h)
  | leave k => exact .of_kept trivial (swapKept_leave hs h)
  | sync w => exact syncNext_stepped hs h

/-- Undisturbed runs. -/
theorem allStates_swapKept {cfg : SwapCfg} {user : Nat → UserInfo} {es : List SwapEvent}
    (h : AllSteps (swapStep cfg) Undisturbed (swapInit user) es) :
    AllStates (swapStep cfg) SwapKept (swapInit user) es :=
  allStates_of_allSteps (fun _ _ _ hs hC hstep =>
    ⟨(swapStep_stepped hs hstep).sound_iff.mpr hC, (swapStep_stepped hs hstep).inv hC⟩) es _
    ⟨swapInit_sound user, swapInit_inv user⟩ h

/-- **When replacing the configuration is safe.**  In every interleaving of any number of calls for
packets and of `ntrack_conf_sync`: no call for a packet ever has a freed table and every table in
memory is in exactly one place, in all states, exactly when no exchange is disturbed by
another. -/
theorem confSwap_iff (cfg : SwapCfg) (user : Nat → UserInfo) (es : List SwapEvent) :
    AllStates (swapStep cfg) TablesSound (swapInit user) es ↔
      AllSteps (swapStep cfg) Undisturbed (swapInit user) es :=
  allStates_iff (J := SwapInv)
    (fun _ _ _ hj hp hC h => (swapStep_stepped ⟨hp, hj⟩ h).inv hC)
    (fun _ _ _ hj hp h => (swapStep_stepped ⟨hp, hj⟩ h).sound_iff) es (swapInit user)
    (swapInit_inv user) (swapInit_sound user)

/-- A web request of each user, and the same configuration from many senders. -/
def loginCfg : SwapCfg where
  caller := fun _ => .hook
  userOf := fun k => k
  pkt := fun _ => getOfB
  env := fun _ => plentyEnv 1
  confStr := fun _ => confText [0x62]

/-- Two calls copy the pointer to the same table, and both free it. -/
example : (run (swapStep loginCfg) (swapInit fun _ => someUser)
    ([0, 0, 0, 1, 1, 1, 2, 2, 2, 1, 1, 1, 1, 2, 2, 2].map SwapEvent.sync)).map
      SwapState.fault = some true := by decide +kernel

/-! ## 8. Configurations one after the other -/

/-- A call of `ntrack_conf_sync` has begun and has not returned. -/
def SyncPc.midway : SyncPc → Bool
  | .start => false
  | .done => false
  | .refused _ => false
  | _ => true

/-- The condition on a step of `ntrack_conf_sync`: no other call of it is under way. -/
def OneAtATime (s : SwapState) (e : SwapEvent) : Prop :=
  ∀ w, e = .sync w → ∀ v, v ≠ w → (s.sync v).midway = false

/-- What the pointer is while a call is under way. -/
def SyncPc.expects (cell : Option Nat) : SyncPc → Prop
  | .taken _ tmp => cell = tmp
  | .unlinked _ _ => cell = none
  | .waiting _ _ _ => cell = none
  | .replaced _ => cell = none
  | _ => True

theorem SyncPc.expects_of_not_midway {pc : SyncPc} (h : pc.midway = false) (cell : Option Nat) :
    pc.expects cell := by
  cases pc with
  | start | done | refused => trivial
  | filled | tested | taken | unlinked | waiting | replaced =>
    exact absurd h (Bool.false_ne_true ∘ Eq.symm)

theorem SyncPc.expects_leave {pc : SyncPc} {cell : Option Nat} (h : pc.expects cell) (k : Nat) :
    (pc.leave k).expects cell := by
  cases pc <;> exact h

theorem expects_goto {s : SwapState} {w : Nat} {pc : SyncPc} {cell : Option Nat}
    (hother : ∀ v, v ≠ w → (s.sync v).expects cell) (hpc : pc.expects cell) (v : Nat) :
    ((s.goto w pc).sync v).expects cell := by
  simp only [SwapState.goto]
  rcases eq_or_ne v w with rfl | hne
  · rwa [Function.update_self]
  · rw [Function.update_of_ne hne]
    exact hother v hne

theorem swapStep_expects {cfg : SwapCfg} {s t : SwapState} {e : SwapEvent}
    (hs : ∀ w, (s.sync w).expects s.gAuthConf) (hC : OneAtATime s e)
    (h : swapStep cfg s e = some t) : ∀ w, (t.sync w).expects t.gAuthConf := by
  cases e with
  | enter k =>
    simp only [swapStep] at h
    split at h
    · obtain rfl := Option.some.inj h
      exact hs
    · exact absurd h (by simp)
  | path k =>
    obtain ⟨r, -, rfl⟩ := Option.map_eq_some_iff.mp h
    exact hs
  | leave k =>
    simp only [swapStep] at h
    split at h
    · obtain rfl := Option.some.inj h
      exact fun w => SyncPc.expects_leave (hs w) k
    · exact absurd h (by simp)
  | sync w =>
    have hother : ∀ cell v, v ≠ w → (s.sync v).expects cell := fun cell v hne =>
      SyncPc.expects_of_not_midway (hC w rfl v hne) cell
    have hw := hs w
    simp only [swapStep] at h
    cases hpc : s.sync w with
    | start =>
      rw [hpc] at h
      simp only [syncNext] at h
      split at h
      · exact absurd h (by simp)
      · split at h
        · obtain rfl := Option.some.inj h
          exact expects_goto (hother _) trivial
        · obtain rfl := Option.some.inj h
          exact expects_goto (hother _) trivial
    | filled blk =>
      rw [hpc] at h
      obtain rfl := Option.some.inj h
      refine expects_goto (hother _) ?_
      cases hcell : s.gAuthConf with
      | none => exact hcell
      | some b => trivial
    | tested blk =>
      rw [hpc] at h
      obtain rfl := Option.some.inj h
      exact expects_goto (hother _) rfl
    | taken blk tmp =>
      rw [hpc] at h
      obtain rfl := Option.some.inj h
      exact expects_goto (hother _) rfl
    | unlinked blk tmp =>
      rw [hpc] at h hw
      obtain rfl := Option.some.inj h
      exact expects_goto (hother _) hw
    | waiting blk tmp readers =>
      rw [hpc] at h hw
      simp only [syncNext] at h
      split at h
      · obtain rfl := Option.some.inj h
        cases tmp with
        | none => exact expects_goto (hother _) hw
        | some b => exact expects_goto (hother _) hw
      · exact absurd h (by simp)
    | replaced blk =>
      rw [hpc] at h
      obtain rfl := Option.some.inj h
      exact expects_goto (hother _) trivial
    | done =>
      rw [hpc] at h
      exact absurd h (by simp [syncNext])
    | refused blk =>
      rw [hpc] at h
      exact absurd h (by simp [syncNext])

/-- Where the pointer is as every call expects it, no step is disturbed. -/
theorem undisturbed_of_expects {s : SwapState} (hs : ∀ w, (s.sync w).expects s.gAuthConf)
    (e : SwapEvent) : Undisturbed s e := by
  cases e with
  | sync w =>
    have hw := hs w
    rw [Undisturbed]
    cases hpc : s.sync w with
    | taken blk tmp =>
      rw [hpc] at hw
      exact beq_iff_eq.mpr hw
    | replaced blk =>
      rw [hpc] at hw
      exact beq_iff_eq.mpr hw
    | start | filled | tested | unlinked | waiting | done | refused => rfl
  | enter | path | leave => trivial

/-- **Configurations that come one after the other** are exchanged safely, whatever packets do. -/
theorem confSwap_oneAtATime (cfg : SwapCfg) (user : Nat → UserInfo) (es : List SwapEvent)
    (h : AllSteps (swapStep cfg) OneAtATime (swapInit user) es) :
    AllStates (swapStep cfg) TablesSound (swapInit user) es := by
  have hexpects := allStates_of_allSteps (I := fun s => ∀ w, (s.sync w).expects s.gAuthConf)
    (fun _ _ _ hs hC h => swapStep_expects hs hC h) es (swapInit user) (fun _ => trivial) h
  have hundisturbed : AllSteps (swapStep cfg) Undisturbed (swapInit user) es :=
    allSteps_of_allStates (fun _ e _ hs _ => undisturbed_of_expects hs e) es _ hexpects
  exact (allStates_swapKept hundisturbed).mono fun _ hs => hs.sound

end Puppies
