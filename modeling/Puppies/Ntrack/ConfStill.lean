/-
# Calls that see one configuration

`ConfSwap` takes the calls of `ntrack_conf_sync` and those for packets apart into steps.  Here they
are put together again, so that the machines of the other files, in which a configuration and a
packet are one event each, are this one seen from farther away.

* A call of `ntrack_conf_sync` that nobody gets between puts the same table into use as
  `ntrackConfSync` (`syncRun_ntrackConfSync`).
* A call for a packet during which the pointer stands still is `userNeedRedirect`, whatever else
  goes on (`confSwap_still`).  What is left of the call at each of its points (`PathPc.rest`) makes
  the same of the record as the whole call at its beginning.

Where the pointer moves during a call there is no such statement: the index of a rule in one table
may be used to look into the other.
-/
import Puppies.Ntrack.ConfSwap

namespace Puppies

open ByteMem EventRun Rcu

/-! ## 1. Calls of `ntrack_conf_sync` -/

/-- The next step of a call of `ntrack_conf_sync` that has just taken one. -/
theorem swapStep_goto (cfg : SwapCfg) (s : SwapState) (w : Nat) (pc : SyncPc) :
    swapStep cfg (s.goto w pc) (.sync w) = syncNext cfg (s.goto w pc) w pc := by
  simp only [swapStep, SwapState.goto, Function.update_self]

/-- Call `w` comes to its end by itself, with the table `blk` in use. -/
structure SyncEnds (cfg : SwapCfg) (w blk : Nat) (s t : SwapState) : Prop where
  run : ∃ n, run (swapStep cfg) s (List.replicate n (.sync w)) = some t
  done : t.sync w = .done
  gAuthConf : t.gAuthConf = some blk
  table : t.table = s.table

theorem SyncEnds.step {cfg : SwapCfg} {w blk : Nat} {s s' t : SwapState}
    (h : SyncEnds cfg w blk s' t) (hstep : swapStep cfg s (.sync w) = some s')
    (htable : s'.table = s.table) : SyncEnds cfg w blk s t := by
  obtain ⟨n, hrun⟩ := h.run
  exact ⟨⟨n + 1, run_cons_eq_some.mpr ⟨s', hstep, hrun⟩⟩, h.done, h.gAuthConf,
    h.table.trans htable⟩

section Ends

variable (cfg : SwapCfg) (s : SwapState) (w blk : Nat)

theorem syncEnds_replaced : ∃ t, SyncEnds cfg w blk (s.goto w (.replaced blk)) t := by
  refine ⟨_, ⟨1, (run_singleton ..).trans (swapStep_goto ..)⟩, ?_, rfl, rfl⟩
  simp only [SwapState.goto, Function.update_self]

theorem syncEnds_taken (tmp : Option Nat) (hin : s.inside = ∅) :
    ∃ t, SyncEnds cfg w blk (s.goto w (.taken blk tmp)) t := by
  have htable : ∀ x : SwapState, (x.vfree tmp).table = x.table := by
    intro x
    cases tmp <;> rfl
  -- nobody is inside, so the wait is over at once
  have hwait : ∀ x : SwapState, ∃ t, SyncEnds cfg w blk (x.goto w (.waiting blk tmp ∅)) t := by
    intro x
    obtain ⟨t, ht⟩ := syncEnds_replaced cfg ((x.goto w (.waiting blk tmp ∅)).vfree tmp) w blk
    exact ⟨t, ht.step (swapStep_goto ..) (htable _)⟩
  have hunlinked : ∀ x : SwapState, x.inside = ∅ →
      ∃ t, SyncEnds cfg w blk (x.goto w (.unlinked blk tmp)) t := by
    intro x hx
    obtain ⟨t, ht⟩ := hwait (x.goto w (.unlinked blk tmp))
    refine ⟨t, ht.step ?_ rfl⟩
    rw [swapStep_goto, ← hx]
    rfl
  obtain ⟨t, ht⟩ := hunlinked { s.goto w (.taken blk tmp) with gAuthConf := none } hin
  exact ⟨t, ht.step (swapStep_goto ..) rfl⟩

/-- From the test of the pointer on, with no call for a packet under way. -/
theorem syncEnds_filled (hin : s.inside = ∅) :
    ∃ t, SyncEnds cfg w blk (s.goto w (.filled blk)) t := by
  have htest : ∀ pc, (if s.gAuthConf.isSome then .tested blk else .replaced blk) = pc →
      swapStep cfg (s.goto w (.filled blk)) (.sync w) =
        some ((s.goto w (.filled blk)).goto w pc) := by
    rintro pc rfl
    exact swapStep_goto ..
  cases hcell : s.gAuthConf with
  | none =>
    obtain ⟨t, ht⟩ := syncEnds_replaced cfg (s.goto w (.filled blk)) w blk
    exact ⟨t, ht.step (htest _ (by rw [hcell]; rfl)) rfl⟩
  | some b =>
    obtain ⟨t, ht⟩ := syncEnds_taken cfg ((s.goto w (.filled blk)).goto w (.tested blk)) w blk
      s.gAuthConf hin
    have htaken : SyncEnds cfg w blk ((s.goto w (.filled blk)).goto w (.tested blk)) t :=
      ht.step (swapStep_goto cfg (s.goto w (.filled blk)) w (.tested blk)) rfl
    exact ⟨t, htaken.step (htest _ (by rw [hcell]; rfl)) rfl⟩

end Ends

/-- **A call of `ntrack_conf_sync` made in one go**, while no call for a packet is under way, is
the one that `Conf` embeds: the same table is in use afterwards. -/
theorem syncRun_ntrackConfSync {cfg : SwapCfg} {s : SwapState} {w : Nat} {st : ConfState}
    (hpc : s.sync w = .start) (hin : s.inside = ∅) (hmem : (cfg.env w).vmalloc = true)
    (hconf : isConf (cfg.env w) (cfg.confStr w) = true) (hnext : st.nextBlock = s.nextBlock) :
    ∃ n t r, run (swapStep cfg) s (List.replicate n (.sync w)) = some t ∧ t.sync w = .done ∧
      ntrackConfSync (cfg.env w) st (cfg.confStr w) = .ok r ∧ r.ret = 0 ∧
      r.state.gAuthConf = t.gAuthConf.map fun b => (b, t.table b) := by
  obtain ⟨json, hjson, harr⟩ := (Option.any_eq_true _ _).mp hconf
  obtain ⟨r, hr, hret, hinst⟩ := ntrackConfSync_of_array st hmem hjson (of_decide_eq_true harr)
  have hstart : swapStep cfg s (.sync w) = some ({ s.vmalloc with
      table := Function.update s.table s.nextBlock ⟨newRules (cfg.env w) (cfg.confStr w)⟩ }.goto w
        (.filled s.nextBlock)) := by
    simp only [swapStep, hpc, syncNext, hmem, hconf, Bool.not_true, Bool.false_eq_true, if_false,
      if_true]
  obtain ⟨t, ht⟩ := syncEnds_filled cfg { s.vmalloc with
    table := Function.update s.table s.nextBlock ⟨newRules (cfg.env w) (cfg.confStr w)⟩ } w
      s.nextBlock hin
  obtain ⟨n, hrun⟩ := ht.run
  refine ⟨n + 1, t, r, run_cons_eq_some.mpr ⟨_, hstart, hrun⟩, ht.done, hr, hret, ?_⟩
  have htable : t.table s.nextBlock = ⟨newRules (cfg.env w) (cfg.confStr w)⟩ :=
    (congrFun ht.table _).trans (Function.update_self ..)
  rw [hinst, hnext, ht.gAuthConf, Option.map_some, htable]

/-! ## 2. Calls that see one configuration -/

/-- What call `k` is, made in one go: the result is that of `user_need_redirect`, or of the
tracker's `ntrack_user_match`. -/
def wholeCall (cfg : SwapCfg) (k : Nat) (gconf : Option AuthConf) (ui : UserInfo) :
    Except RuleFault NeedRedirect :=
  match cfg.caller k with
  | .hook => userNeedRedirect gconf ui (cfg.pkt k)
  | .tracker =>
    let m := ntrackUserMatch gconf ui (cfg.pkt k)
    .ok ⟨m.1 != 0, m.2, m.1 != 0⟩

/-- What is left of it after `ntrack_user_match` returned `m`, with one configuration in use. -/
def AfterMatch.rest (gconf : Option AuthConf) (pkt : Packet) (m : Nat × UserInfo) :
    AfterMatch → Except RuleFault NeedRedirect
  | .check _ =>
    if m.1 = 0 then .ok ⟨false, m.2, false⟩ else checkMagic (gconf.getD ⟨[]⟩) m.2 pkt true
  | .apply _ matched =>
    if m.1 = 0 then .ok ⟨false, m.2, matched⟩ else applyRule (gconf.getD ⟨[]⟩) m.2 true
  | .ret => .ok ⟨m.1 != 0, m.2, m.1 != 0⟩

/-- What is left of it at a point of the call. -/
def PathPc.rest (cfg : SwapCfg) (k : Nat) (gconf : Option AuthConf) (ui : UserInfo) :
    PathPc → Except RuleFault NeedRedirect
  | .loaded _ => userNeedRedirect gconf ui (cfg.pkt k)
  | .look after => after.rest gconf (cfg.pkt k) (ntrackUserMatch gconf ui (cfg.pkt k))
  | .matching _ after => after.rest gconf (cfg.pkt k) (ntrackUserMatch gconf ui (cfg.pkt k))
  | .check _ matched => checkMagic (gconf.getD ⟨[]⟩) ui (cfg.pkt k) matched
  | .apply _ matched => applyRule (gconf.getD ⟨[]⟩) ui matched
  | .done ret matched => .ok ⟨ret, ui, matched⟩
  | _ => wholeCall cfg k gconf ui

/-- The call has seen nothing but `cell` in the pointer. -/
def AfterMatch.sees (cell : Option Nat) : AfterMatch → Prop
  | .check conf => cell = some conf
  | .apply conf _ => cell = some conf
  | .ret => True

def PathPc.sees (cell : Option Nat) : PathPc → Prop
  | .loaded conf => conf = cell
  | .look after => after.sees cell
  | .matching conf after => conf = cell ∧ after.sees cell
  | .check conf _ => cell = some conf
  | .apply conf _ => cell = some conf
  | _ => True

/-- How many steps it can take at most. -/
def AfterMatch.todo : AfterMatch → Nat
  | .check _ => 4
  | .apply _ _ => 1
  | .ret => 0

def PathPc.todo : PathPc → Nat
  | .start => 9
  | .called => 8
  | .loaded _ => 7
  | .look after => after.todo + 2
  | .matching _ after => after.todo + 1
  | .check _ _ => 4
  | .apply _ _ => 1
  | .done _ _ => 0
  | .left => 0

/-- One step with the same configuration in use as before: what is left is the same, and less. -/
structure SameRest (cfg : SwapCfg) (k : Nat) (cell : Option Nat) (gconf : Option AuthConf)
    (ui : UserInfo) (pc : PathPc) (r : PathPc × UserInfo) : Prop where
  sees : r.1.sees cell
  rest : r.1.rest cfg k gconf r.2 = pc.rest cfg k gconf ui
  todo : r.1.todo < pc.todo

/-- Back from `ntrack_user_match`. -/
theorem AfterMatch.sameRest (cfg : SwapCfg) (k : Nat) {cell : Option Nat}
    (gconf : Option AuthConf) {after : AfterMatch} (m : Nat × UserInfo) (h : after.sees cell) :
    (after.next (m.1 != 0)).sees cell ∧
      (after.next (m.1 != 0)).rest cfg k gconf m.2 = after.rest gconf (cfg.pkt k) m ∧
      (after.next (m.1 != 0)).todo ≤ after.todo := by
  by_cases hmiss : m.1 = 0
  · have hhit : (m.1 != 0) = false := bne_eq_false_iff_eq.mpr hmiss
    rw [hhit]
    cases after with
    | check conf => exact ⟨trivial, (if_pos hmiss).symm, Nat.zero_le _⟩
    | apply conf matched => exact ⟨trivial, (if_pos hmiss).symm, Nat.zero_le _⟩
    | ret => exact ⟨trivial, by rw [AfterMatch.rest, hhit]; rfl, Nat.le_refl _⟩
  · have hhit : (m.1 != 0) = true := bne_iff_ne.mpr hmiss
    rw [hhit]
    cases after with
    | check conf => exact ⟨h, (if_neg hmiss).symm, Nat.le_refl _⟩
    | apply conf matched => exact ⟨h, (if_neg hmiss).symm, Nat.le_refl _⟩
    | ret => exact ⟨trivial, by rw [AfterMatch.rest, hhit]; rfl, Nat.le_refl _⟩

section OneConfiguration

variable {cfg : SwapCfg} {k : Nat} {table : Nat → AuthConf} {cell : Option Nat} {ui : UserInfo}

/-- **One step of a call**, with one configuration in use: what is left stays the same. -/
theorem PathPc.next_sameRest {pc : PathPc} (hsees : pc.sees cell) {r : PathPc × UserInfo}
    (h : pc.next table cell (cfg.caller k) ui (cfg.pkt k) = some r) :
    SameRest cfg k cell (cell.map table) ui pc r := by
  cases pc with
  | start => exact absurd h (by simp [PathPc.next])
  | called =>
    simp only [PathPc.next] at h
    cases hcaller : cfg.caller k with
    | hook =>
      rw [hcaller] at h
      obtain rfl := Option.some.inj h
      exact ⟨rfl, by simp only [PathPc.rest, wholeCall, hcaller], (by decide : 7 < 8)⟩
    | tracker =>
      rw [hcaller] at h
      obtain rfl := Option.some.inj h
      refine ⟨trivial, ?_, (by decide : 2 < 8)⟩
      simp only [PathPc.rest, wholeCall, hcaller, AfterMatch.rest]
  | loaded conf =>
    obtain rfl : conf = cell := hsees
    cases conf with
    | none =>
      obtain rfl := Option.some.inj h
      exact ⟨trivial, rfl, Nat.succ_pos _⟩
    | some conf =>
      simp only [PathPc.next] at h
      simp only [Option.map_some]
      split at h
      · rename_i hzero
        obtain rfl := Option.some.inj h
        exact ⟨trivial, by simp only [PathPc.rest, userNeedRedirect, if_pos hzero],
          Nat.succ_pos _⟩
      · rename_i hzero
        split at h
        · rename_i hmagic
          obtain rfl := Option.some.inj h
          refine ⟨rfl, ?_, Nat.lt_succ_self _⟩
          simp only [PathPc.rest, AfterMatch.rest, userNeedRedirect, if_neg hzero, if_pos hmagic,
            Option.getD_some]
        · rename_i hmagic
          obtain rfl := Option.some.inj h
          refine ⟨rfl, ?_, (by decide : 4 < 7)⟩
          simp only [PathPc.rest, userNeedRedirect, if_neg hzero, if_neg hmagic, Option.getD_some]
  | look after =>
    obtain rfl := Option.some.inj h
    exact ⟨⟨rfl, hsees⟩, rfl, Nat.lt_succ_self _⟩
  | matching conf after =>
    obtain ⟨rfl, hafter⟩ := hsees
    obtain rfl := Option.some.inj h
    obtain ⟨h₁, h₂, h₃⟩ := AfterMatch.sameRest cfg k (conf.map table)
      (ntrackUserMatch (conf.map table) ui (cfg.pkt k)) hafter
    exact ⟨h₁, h₂, Nat.lt_succ_of_le h₃⟩
  | check conf matched =>
    obtain rfl : cell = some conf := hsees
    simp only [PathPc.next] at h
    simp only [Option.map_some]
    split at h
    · rename_i rule hrule
      split at h
      · rename_i hmagic
        obtain rfl := Option.some.inj h
        refine ⟨rfl, ?_, (by decide : 3 < 4)⟩
        simp only [PathPc.rest, AfterMatch.rest, checkMagic, Option.getD_some, hrule, bind,
          Except.bind, if_pos hmagic]
        rfl
      · rename_i hmagic
        obtain rfl := Option.some.inj h
        refine ⟨rfl, ?_, (by decide : 1 < 4)⟩
        simp only [PathPc.rest, checkMagic, Option.getD_some, hrule, bind, Except.bind,
          if_neg hmagic]
    · exact absurd h (by simp)
  | apply conf matched =>
    obtain rfl : cell = some conf := hsees
    simp only [PathPc.next] at h
    split at h
    · rename_i r' hr'
      obtain rfl := Option.some.inj h
      exact ⟨trivial, hr'.symm, Nat.zero_lt_one⟩
    · exact absurd h (by simp)
  | done => exact absurd h (by simp [PathPc.next])
  | left => exact absurd h (by simp [PathPc.next])

/-- A call that would return, made in one go, can take its next step. -/
theorem PathPc.next_of_rest {pc : PathPc} (hsees : pc.sees cell) (hin : pc.inside = true)
    (hdone : ∀ ret matched, pc ≠ .done ret matched) {q : NeedRedirect}
    (h : pc.rest cfg k (cell.map table) ui = .ok q) :
    ∃ r, pc.next table cell (cfg.caller k) ui (cfg.pkt k) = some r := by
  cases pc with
  | start => exact absurd hin Bool.false_ne_true
  | left => exact absurd hin Bool.false_ne_true
  | done ret matched => exact absurd rfl (hdone ret matched)
  | called =>
    simp only [PathPc.next]
    cases cfg.caller k with
    | hook => exact ⟨_, rfl⟩
    | tracker => exact ⟨_, rfl⟩
  | loaded conf =>
    cases conf with
    | none => exact ⟨_, rfl⟩
    | some conf =>
      simp only [PathPc.next]
      split
      · exact ⟨_, rfl⟩
      · split
        · exact ⟨_, rfl⟩
        · exact ⟨_, rfl⟩
  | look after => exact ⟨_, rfl⟩
  | matching conf after => exact ⟨_, rfl⟩
  | check conf matched =>
    obtain rfl : cell = some conf := hsees
    simp only [PathPc.rest, checkMagic, Option.map_some, Option.getD_some] at h
    obtain ⟨rule, hrule, -⟩ := except_bind_eq_ok.mp h
    simp only [PathPc.next, hrule]
    split
    · exact ⟨_, rfl⟩
    · exact ⟨_, rfl⟩
  | apply conf matched =>
    obtain rfl : cell = some conf := hsees
    have hrule : applyRule (table conf) ui matched = .ok q := h
    simp only [PathPc.next, hrule]
    exact ⟨_, rfl⟩

end OneConfiguration

/-- It stores into the pointer in its next step. -/
def SyncPc.stores : SyncPc → Bool
  | .taken _ _ => true
  | .replaced _ => true
  | _ => false

/-- The condition on a step: the pointer stands still, and no other call for a packet of the same
user moves. -/
def Still (cfg : SwapCfg) (k : Nat) (s : SwapState) : SwapEvent → Prop
  | .sync w => (s.sync w).stores = false
  | .path j => j = k ∨ cfg.userOf j ≠ cfg.userOf k
  | .enter _ => True
  | .leave _ => True

instance decidableStill (cfg : SwapCfg) (k : Nat) (s : SwapState) : ∀ e, Decidable (Still cfg k s e)
  | .sync w => inferInstanceAs (Decidable ((s.sync w).stores = false))
  | .path j => inferInstanceAs (Decidable (j = k ∨ cfg.userOf j ≠ cfg.userOf k))
  | .enter _ => isTrue trivial
  | .leave _ => isTrue trivial

/-- What a step of `ntrack_conf_sync` that does not store into the pointer leaves alone. -/
structure SyncFrame (s t : SwapState) : Prop where
  gAuthConf : t.gAuthConf = s.gAuthConf
  path : t.path = s.path
  user : t.user = s.user
  table : ∀ b, b < s.nextBlock → t.table b = s.table b

theorem syncNext_frame {cfg : SwapCfg} {s t : SwapState} {w : Nat} {pc : SyncPc}
    (hpc : pc.stores = false) (h : syncNext cfg s w pc = some t) : SyncFrame s t := by
  cases pc with
  | start =>
    simp only [syncNext] at h
    split at h
    · exact absurd h (by simp)
    · split at h
      · obtain rfl := Option.some.inj h
        refine ⟨rfl, rfl, rfl, ?_⟩
        intro b hb
        exact Function.update_of_ne (Nat.ne_of_lt hb) _ _
      · obtain rfl := Option.some.inj h
        exact ⟨rfl, rfl, rfl, fun _ _ => rfl⟩
  | filled | tested | unlinked =>
    obtain rfl := Option.some.inj h
    exact ⟨rfl, rfl, rfl, fun _ _ => rfl⟩
  | waiting blk tmp readers =>
    simp only [syncNext] at h
    split at h
    · obtain rfl := Option.some.inj h
      cases tmp with
      | none => exact ⟨rfl, rfl, rfl, fun _ _ => rfl⟩
      | some b => exact ⟨rfl, rfl, rfl, fun _ _ => rfl⟩
    · exact absurd h (by simp)
  | taken | replaced => exact absurd hpc.symm Bool.false_ne_true
  | done | refused => exact absurd h (by simp [syncNext])

/-- Where call `k` is, with configuration `gconf` in the pointer: what is left of it makes
`whole` of it. -/
structure CallAt (cfg : SwapCfg) (k : Nat) (cell : Option Nat) (gconf : Option AuthConf)
    (whole : Except RuleFault NeedRedirect) (s : SwapState) : Prop where
  kept : SwapKept s
  pointer : s.gAuthConf = cell
  content : cell.map s.table = gconf
  call : s.path k ≠ .left → (s.path k).sees cell ∧
    (s.path k).rest cfg k gconf (s.user (cfg.userOf k)) = whole

theorem CallAt.step {cfg : SwapCfg} {k : Nat} {cell : Option Nat} {gconf : Option AuthConf}
    {whole : Except RuleFault NeedRedirect} {s t : SwapState} {e : SwapEvent}
    (hs : CallAt cfg k cell gconf whole s) (hC : Undisturbed s e) (hstill : Still cfg k s e)
    (h : swapStep cfg s e = some t) : CallAt cfg k cell gconf whole t := by
  have hstepped := swapStep_stepped hs.kept h
  have hkept : SwapKept t := ⟨hstepped.sound_iff.mpr hC, hstepped.inv hC⟩
  cases e with
  | enter j =>
    simp only [swapStep] at h
    split at h
    · rename_i hpc
      obtain rfl := Option.some.inj h
      refine ⟨hkept, hs.pointer, hs.content, ?_⟩
      intro hleft
      rcases eq_or_ne k j with rfl | hne
      · have hcall := hs.call (by simp [hpc])
        rw [hpc] at hcall
        simp only [Function.update_self]
        exact hcall
      · simp only [Function.update_of_ne hne] at hleft ⊢
        exact hs.call hleft
    · exact absurd h (by simp)
  | path j =>
    obtain ⟨r, hr, rfl⟩ := Option.map_eq_some_iff.mp h
    refine ⟨hkept, hs.pointer, hs.content, ?_⟩
    intro hleft
    rcases eq_or_ne k j with rfl | hne
    · have hin := (PathPc.next_move hr).inside
      obtain ⟨hsees, hrest⟩ := hs.call (fun hl => by simp [hl, PathPc.inside] at hin)
      rw [hs.pointer] at hr
      have hsame := PathPc.next_sameRest hsees hr
      rw [hs.content] at hsame
      simp only [Function.update_self]
      exact ⟨hsame.sees, hsame.rest.trans hrest⟩
    · have huser : cfg.userOf k ≠ cfg.userOf j := by
        rcases hstill with rfl | hu
        · exact absurd rfl hne
        · exact hu.symm
      simp only [Function.update_of_ne hne, Function.update_of_ne huser] at hleft ⊢
      exact hs.call hleft
  | leave j =>
    simp only [swapStep] at h
    split at h
    · obtain rfl := Option.some.inj h
      refine ⟨hkept, hs.pointer, hs.content, ?_⟩
      intro hleft
      rcases eq_or_ne k j with rfl | hne
      · simp at hleft
      · simp only [Function.update_of_ne hne] at hleft ⊢
        exact hs.call hleft
    · exact absurd h (by simp)
  | sync w =>
    have hframe := syncNext_frame hstill h
    refine ⟨hkept, hframe.gAuthConf.trans hs.pointer, ?_, ?_⟩
    · rw [← hs.content]
      cases hcell : cell with
      | none => rfl
      | some b =>
        have hlive := hs.kept.sound.owned.live_of_own (o := .cell) (hs.pointer.trans hcell)
        rw [Option.map_some, Option.map_some, hframe.table b (hs.kept.inv.fresh b hlive)]
    · rw [hframe.path, hframe.user]
      exact hs.call

/-- What is known of call `k` in state `t`, of which `whole` would be made in one go. -/
structure CallAgrees (cfg : SwapCfg) (k : Nat) (whole : Except RuleFault NeedRedirect)
    (t : SwapState) : Prop where
  /-- when it has its result, it is that one -/
  result : ∀ ret matched, t.path k = .done ret matched →
    whole = .ok ⟨ret, t.user (cfg.userOf k), matched⟩
  /-- until then it can go on, and has less to do afterwards -/
  goes : (t.path k).inside = true → (∀ ret matched, t.path k ≠ .done ret matched) →
    ∀ r, whole = .ok r → ∃ t', swapStep cfg t (.path k) = some t' ∧
      (t'.path k).todo < (t.path k).todo

theorem CallAt.agrees {cfg : SwapCfg} {k : Nat} {cell : Option Nat} {gconf : Option AuthConf}
    {whole : Except RuleFault NeedRedirect} {t : SwapState}
    (h : CallAt cfg k cell gconf whole t) : CallAgrees cfg k whole t := by
  constructor
  · intro ret matched hpc
    obtain ⟨-, hrest⟩ := h.call (by simp [hpc])
    rw [hpc] at hrest
    exact hrest.symm
  · intro hin hdone r hwhole
    obtain ⟨hsees, hrest⟩ := h.call (fun hl => by simp [hl, PathPc.inside] at hin)
    have hr := hrest.trans hwhole
    rw [← h.content] at hr
    obtain ⟨q, hq⟩ := PathPc.next_of_rest hsees hin hdone hr
    have hsame := PathPc.next_sameRest hsees hq
    rw [← h.pointer] at hq
    refine ⟨_, by simp only [swapStep, hq, Option.map_some]; rfl, ?_⟩
    simp only [Function.update_self]
    exact hsame.todo

/-- **A call that sees one configuration is the call in one go.**  Let any undisturbed run lead to
a state in which call `k` has not begun, and go on with steps at which the pointer stands still and
no other call for the same user moves; calls for other users, and whatever else of
`ntrack_conf_sync`, go on meanwhile.  Then what comes out of call `k` is what
`user_need_redirect` (or `ntrack_user_match`) makes of the configuration and the record at the
beginning, and until it comes out the call is not held up, unless that is a fault. -/
theorem confSwap_still (cfg : SwapCfg) (user : Nat → UserInfo) (es fs : List SwapEvent)
    (s t : SwapState) (k : Nat)
    (hC : AllSteps (swapStep cfg) Undisturbed (swapInit user) (es ++ fs))
    (hs : run (swapStep cfg) (swapInit user) es = some s) (hk : s.path k = .start)
    (hstill : AllSteps (swapStep cfg) (Still cfg k) s fs)
    (ht : run (swapStep cfg) s fs = some t) :
    CallAgrees cfg k
      (wholeCall cfg k (s.gAuthConf.map s.table) (s.user (cfg.userOf k))) t := by
  have hkept : SwapKept s := (allStates_swapKept hC.take).last hs
  have hat : CallAt cfg k s.gAuthConf (s.gAuthConf.map s.table)
      (wholeCall cfg k (s.gAuthConf.map s.table) (s.user (cfg.userOf k))) s :=
    ⟨hkept, rfl, rfl, fun _ => by rw [hk]; exact ⟨trivial, rfl⟩⟩
  have hall := allStates_of_allSteps (fun _ _ _ hi hc h => CallAt.step hi hc.1 hc.2 h) fs s hat
    ((hC.drop hs).and hstill)
  exact (hall.last ht).agrees

/-- A configuration is installed. -/
def loginInstalled : SwapState :=
  (run (swapStep loginCfg) (swapInit fun _ => someUser)
    (List.replicate 3 (.sync 0))).getD (swapInit fun _ => someUser)

/-- A request of user 0 is on its way, while another configuration is read and a request of user 1
begins. -/
def loginSteps : List SwapEvent :=
  [.enter 0, .path 0, .sync 1, .path 0, .path 0, .enter 1, .path 1, .path 0, .sync 1, .path 0,
    .path 0]

/-- The request of user 0 is answered. -/
def loginAnswered : SwapState :=
  (run (swapStep loginCfg) loginInstalled loginSteps).getD loginInstalled

theorem confSwap_still_login : loginAnswered.path 0 = .done true true ∧
    CallAgrees loginCfg 0 (wholeCall loginCfg 0
      (loginInstalled.gAuthConf.map loginInstalled.table) (loginInstalled.user 0))
      loginAnswered := by
  have hs : run (swapStep loginCfg) (swapInit fun _ => someUser) (List.replicate 3 (.sync 0)) =
      some loginInstalled :=
    (Option.getD_of_ne_none (Option.isSome_iff_ne_none.mp (by decide +kernel)) _).symm
  have ht : run (swapStep loginCfg) loginInstalled loginSteps = some loginAnswered :=
    (Option.getD_of_ne_none (Option.isSome_iff_ne_none.mp (by decide +kernel)) _).symm
  refine ⟨by decide +kernel, ?_⟩
  exact confSwap_still loginCfg (fun _ => someUser) (List.replicate 3 (.sync 0)) loginSteps _ _ 0
    (by decide +kernel) hs (by decide +kernel) (by decide +kernel) ht

end Puppies
