/-
# An administrator beside the packet path

The word of flags in a user's record is shared: `user_need_redirect` changes the status byte for
every packet, and `set_user_status` of `apps/nquery` changes it from another process, through a
mapping of the same memory and with the same inline function.  Neither side locks anything.

The kernel TESTS the status, and then sets it in two statements that each read and write the
whole word; the administrator's program sets it in the same two statements.  This file is the
machine of any number of packets of one user and one such call, with each read of the status
and each of the two statements taken as one step (`raceStep`), together with the proofs that a
call which nobody interrupts is what the other files say it is.

A decision is lost if a packet that passed the test earlier clears the byte after it, and it is
mixed with another value if a packet's second statement comes after the administrator's first.
Packets that do neither YIELD; `adminRace_iff` says that the decision stands if all of them do,
and when it stands only then.
-/
import Puppies.Ntrack.AuthStatus

namespace Puppies

open ByteMem EventRun

/-! ## 1. The machine -/

/-- How far `user_need_redirect` is with a packet. -/
inductive CallPc
  | start
  /-- past the test of the status -/
  | tested
  /-- past the first statement of `nt_auth_set_status` -/
  | cleared
  | done
  deriving DecidableEq, Repr

/-- Past the test, with a statement still to come. -/
def CallPc.midway : CallPc → Bool
  | .tested | .cleared => true
  | _ => false

/-- How far `set_user_status` is. -/
inductive AdminPc
  | start
  /-- past the first statement of `nt_auth_set_status` -/
  | cleared
  | done
  deriving DecidableEq, Repr

/-- What does not change: the status that the administrator writes, and whether the rule that
packet `k` falls under asks for a log in. -/
structure RaceCfg where
  status : BitVec 32
  asks : Nat → Bool
  decided : status = AUTH_REJ ∨ status = AUTH_OK

/-- The status that a packet's rule sets. -/
def RaceCfg.wanted (cfg : RaceCfg) (k : Nat) : BitVec 32 :=
  if cfg.asks k then AUTH_REQ else AUTH_OK

/-- The word, and where everybody is. -/
structure RaceState where
  flags : BitVec 32
  call : Nat → CallPc
  admin : AdminPc

/-- One step of one side. -/
inductive RaceEvent
  /-- packet `k` is done before it comes to the test -/
  | pass (k : Nat)
  /-- packet `k` reads the status: `nt_auth_status(ui) <= AUTH_REQ` -/
  | test (k : Nat)
  | clear (k : Nat)
  | or (k : Nat)
  | adminClear
  | adminOr
  deriving DecidableEq, Repr

/-- Packet `k` is now at `p`. -/
def RaceState.goto (s : RaceState) (k : Nat) (p : CallPc) : RaceState :=
  { s with call := Function.update s.call k p }

/-- One step. -/
def raceStep (cfg : RaceCfg) (s : RaceState) : RaceEvent → Option RaceState
  | .pass k => if s.call k = .start then some (s.goto k .done) else none
  | .test k =>
    if s.call k = .start then
      some (s.goto k (if authStatus s.flags ≤ AUTH_REQ then .tested else .done))
    else none
  | .clear k =>
    if s.call k = .tested then some { s.goto k .cleared with flags := clearStatus s.flags }
    else none
  | .or k =>
    if s.call k = .cleared then some { s.goto k .done with flags := orStatus s.flags (cfg.wanted k) }
    else none
  | .adminClear =>
    if s.admin = .start then some { s with flags := clearStatus s.flags, admin := .cleared }
    else none
  | .adminOr =>
    if s.admin = .cleared then some { s with flags := orStatus s.flags cfg.status, admin := .done }
    else none

/-- What each step is, with what it needs: the only place where `raceStep` is unfolded. -/
inductive RaceMove (cfg : RaceCfg) (s : RaceState) : RaceEvent → RaceState → Prop
  /-- nothing is written -/
  | look {e : RaceEvent} {k : Nat} {p : CallPc} (he : e = .pass k ∨ e = .test k)
      (hcall : s.call k = .start) : RaceMove cfg s e (s.goto k p)
  | clear {k : Nat} (hcall : s.call k = .tested) :
      RaceMove cfg s (.clear k) { s.goto k .cleared with flags := clearStatus s.flags }
  | or {k : Nat} (hcall : s.call k = .cleared) :
      RaceMove cfg s (.or k) { s.goto k .done with flags := orStatus s.flags (cfg.wanted k) }
  | adminClear (hadmin : s.admin = .start) :
      RaceMove cfg s .adminClear { s with flags := clearStatus s.flags, admin := .cleared }
  | adminOr (hadmin : s.admin = .cleared) :
      RaceMove cfg s .adminOr { s with flags := orStatus s.flags cfg.status, admin := .done }

theorem raceMove_of_step {cfg : RaceCfg} {s t : RaceState} {e : RaceEvent}
    (h : raceStep cfg s e = some t) : RaceMove cfg s e t := by
  cases e with
  | pass k =>
    simp only [raceStep, Option.ite_none_right_eq_some, Option.some.injEq] at h
    exact h.2 ▸ .look (Or.inl rfl) h.1
  | test k =>
    simp only [raceStep, Option.ite_none_right_eq_some, Option.some.injEq] at h
    exact h.2 ▸ .look (Or.inr rfl) h.1
  | clear k =>
    simp only [raceStep, Option.ite_none_right_eq_some, Option.some.injEq] at h
    exact h.2 ▸ .clear h.1
  | or k =>
    simp only [raceStep, Option.ite_none_right_eq_some, Option.some.injEq] at h
    exact h.2 ▸ .or h.1
  | adminClear =>
    simp only [raceStep, Option.ite_none_right_eq_some, Option.some.injEq] at h
    exact h.2 ▸ .adminClear h.1
  | adminOr =>
    simp only [raceStep, Option.ite_none_right_eq_some, Option.some.injEq] at h
    exact h.2 ▸ .adminOr h.1

/-- Nobody has done anything. -/
def raceInit (flags : BitVec 32) : RaceState := ⟨flags, fun _ => .start, .start⟩

/-! ## 2. Calls that nobody interrupts -/

/-- The three steps of a packet whose test finds the status open. -/
theorem raceRun_open (cfg : RaceCfg) (k : Nat) {flags : BitVec 32}
    (hopen : authStatus flags ≤ AUTH_REQ) :
    ∃ t, run (raceStep cfg) (raceInit flags) [.test k, .clear k, .or k] = some t ∧
      t.call k = .done ∧ t.flags = orStatus (clearStatus flags) (cfg.wanted k) := by
  simp [run_cons, raceStep, raceInit, RaceState.goto, hopen]

/-- **A packet on its own** does to the flags what `user_need_redirect` does. -/
theorem raceRun_needRedirect {gconf : Option AuthConf} {ui : UserInfo} {pkt : Packet}
    {r : NeedRedirect} (h : userNeedRedirect gconf ui pkt = .ok r) (cfg : RaceCfg) (k : Nat) :
    ∃ asks es t, run (raceStep { cfg with asks := Function.update cfg.asks k asks })
        (raceInit ui.flags) es = some t ∧ t.call k = .done ∧ t.flags = r.ui.flags := by
  cases userNeedRedirect_move h with
  | pass hcache =>
    refine ⟨true, [.pass k], _, rfl, ?_, hcache.flags_eq.symm⟩
    simp [RaceState.goto]
  | @apply ui' m conf idx rule hcache hconf hget hrule hstatus =>
    have hopen : authStatus ui.flags ≤ AUTH_REQ := by
      rw [← hcache.flags_eq]
      exact hstatus
    obtain ⟨t, hrun, hdone, hflags⟩ := raceRun_open
      { cfg with asks := Function.update cfg.asks k (rule.flags != 0) } k hopen
    refine ⟨rule.flags != 0, _, t, hrun, hdone, ?_⟩
    rw [hflags, ← hcache.flags_eq]
    simp [RaceCfg.wanted, ntAuthSetStatus]

/-- **The administrator's program on its own** does what `nt_auth_set_status` does. -/
theorem raceRun_setStatus (cfg : RaceCfg) (ui : UserInfo) :
    ∃ t, run (raceStep cfg) (raceInit ui.flags) [.adminClear, .adminOr] = some t ∧
      t.admin = .done ∧ t.flags = (ntAuthSetStatus ui cfg.status).2.flags :=
  ⟨_, rfl, rfl, rfl⟩

/-! ## 3. When the decision stands -/

/-- Once everybody is done, the status is the one that the administrator wrote. -/
def AdminKept (cfg : RaceCfg) (s : RaceState) : Prop :=
  s.admin = .done → (∀ k, (s.call k).midway = false) → authStatus s.flags = cfg.status

/-- The condition on a step of a packet: its first statement does not come after the
administrator's last one, unless its rule sets the very status that the administrator wrote;
and its second one does not come after the administrator's first, unless the bits it sets are
among those of that status. -/
def Yields (cfg : RaceCfg) (s : RaceState) : RaceEvent → Prop
  | .clear k => s.admin = .done → cfg.wanted k = cfg.status
  | .or k => s.admin ≠ .start → cfg.wanted k ||| cfg.status = cfg.status
  | _ => True

/-- The values that are written lie in the status byte. -/
theorem RaceCfg.authStatus_status (cfg : RaceCfg) : authStatus cfg.status = cfg.status := by
  rcases cfg.decided with h | h
  · rw [h]
    decide
  · rw [h]
    decide

theorem RaceCfg.authStatus_wanted (cfg : RaceCfg) (k : Nat) :
    authStatus (cfg.wanted k) = cfg.wanted k := by
  unfold RaceCfg.wanted
  split
  · decide
  · decide

/-- A packet that is not past its first statement moves: those past it stay there. -/
theorem RaceState.cleared_goto {s : RaceState} {j k : Nat} {p : CallPc} (hj : s.call j = .cleared)
    (hk : s.call k ≠ .cleared) : (s.goto k p).call j = .cleared := by
  have hne : j ≠ k := fun h => hk (h ▸ hj)
  simpa [RaceState.goto, Function.update_of_ne hne] using hj

/-- What a run keeps whose packets yield. -/
structure KeptInv (cfg : RaceCfg) (s : RaceState) : Prop where
  /-- from the administrator's first statement on, the byte has no bit of its own -/
  within : s.admin ≠ .start → authStatus s.flags ||| cfg.status = cfg.status
  /-- and after the last one it has all of them, or is about to get them back -/
  kept : s.admin = .done → authStatus s.flags = cfg.status ∨
    ∃ k, s.call k = .cleared ∧ cfg.wanted k = cfg.status

theorem KeptInv.adminKept {cfg : RaceCfg} {s : RaceState} (h : KeptInv cfg s) :
    AdminKept cfg s := by
  intro hdone hquiet
  rcases h.kept hdone with hstatus | ⟨k, hk, -⟩
  · exact hstatus
  · have := hquiet k
    rw [hk] at this
    exact absurd this (by decide)

/-- A packet that is not past its first statement and changes no flag. -/
theorem KeptInv.goto {cfg : RaceCfg} {s : RaceState} {k : Nat} {p : CallPc} (h : KeptInv cfg s)
    (hk : s.call k ≠ .cleared) : KeptInv cfg (s.goto k p) :=
  ⟨h.within, fun hdone => (h.kept hdone).imp_right fun ⟨j, hj, hw⟩ => ⟨j, s.cleared_goto hj hk, hw⟩⟩

/-- **One step** of a packet that yields, or of the administrator. -/
theorem raceMove_keptInv {cfg : RaceCfg} {s t : RaceState} {e : RaceEvent} (hs : KeptInv cfg s)
    (hy : Yields cfg s e) (hm : RaceMove cfg s e t) : KeptInv cfg t := by
  cases hm with
  | look he hcall => exact hs.goto (by simp [hcall])
  | @clear k hcall =>
    refine ⟨?_, fun hdone => Or.inr ⟨k, by simp [RaceState.goto], hy hdone⟩⟩
    intro _
    rw [authStatus_clearStatus]
    exact BitVec.zero_or
  | @or k hcall =>
    refine ⟨?_, ?_⟩
    · intro hstart
      rw [authStatus_orStatus, cfg.authStatus_wanted, BitVec.or_assoc, hy hstart]
      exact hs.within hstart
    · intro hdone
      have hstart : s.admin ≠ .start := by
        rw [show s.admin = .done from hdone]
        decide
      rw [authStatus_orStatus, cfg.authStatus_wanted]
      rcases hs.kept hdone with hstatus | ⟨j, hj, hw⟩
      · left
        rw [hstatus, BitVec.or_comm]
        exact hy hstart
      · rcases eq_or_ne j k with rfl | hne
        · left
          rw [hw]
          exact hs.within hstart
        · right
          exact ⟨j, by simpa [RaceState.goto, Function.update_of_ne hne] using hj, hw⟩
  | adminClear hadmin =>
    refine ⟨?_, fun hdone => absurd hdone (by simp)⟩
    intro _
    rw [authStatus_clearStatus]
    exact BitVec.zero_or
  | adminOr hadmin =>
    have hstatus : authStatus (orStatus s.flags cfg.status) = cfg.status := by
      rw [authStatus_orStatus, cfg.authStatus_status]
      exact hs.within (by rw [hadmin]; decide)
    refine ⟨?_, fun _ => Or.inl hstatus⟩
    intro _
    rw [hstatus, BitVec.or_self]

/-! ## 4. And when it does not

If no packet's rule sets the status that the administrator wrote, nothing that the packets do
can make up for a step that does not yield.  After one, a user who was rejected has the lowest
bit, which every packet sets and `AUTH_REJ` does not have, or is about to get it; and a user who
was let in does not have the second one, which no packet sets and `AUTH_OK` has. -/

/-- The decision is lost for good. -/
inductive Lost (cfg : RaceCfg) (s : RaceState) : Prop
  | rejected (hstatus : cfg.status = AUTH_REJ) (hadmin : s.admin ≠ .start)
      (hbit : (authStatus s.flags).getLsbD 0 = true ∨ ∃ k, s.call k = .cleared)
  | letIn (hstatus : cfg.status = AUTH_OK) (hadmin : s.admin = .done)
      (hbit : (authStatus s.flags).getLsbD 1 = false)

/-- Every packet sets the lowest bit. -/
theorem RaceCfg.wanted_bit0 (cfg : RaceCfg) (k : Nat) : (cfg.wanted k).getLsbD 0 = true := by
  unfold RaceCfg.wanted
  split
  · decide
  · decide

/-- And a packet that does not let the user in sets no other. -/
theorem RaceCfg.wanted_bit1 {cfg : RaceCfg} {k : Nat} (h : cfg.wanted k ≠ AUTH_OK) :
    (cfg.wanted k).getLsbD 1 = false := by
  unfold RaceCfg.wanted at h ⊢
  split
  · decide
  · rename_i hasks
    rw [if_neg hasks] at h
    exact absurd rfl h

theorem Lost.goto {cfg : RaceCfg} {s : RaceState} {k : Nat} {p : CallPc} (h : Lost cfg s)
    (hk : s.call k ≠ .cleared) : Lost cfg (s.goto k p) := by
  cases h with
  | rejected hstatus hadmin hbit =>
    exact .rejected hstatus hadmin (hbit.imp_right fun ⟨j, hj⟩ => ⟨j, s.cleared_goto hj hk⟩)
  | letIn hstatus hadmin hbit => exact .letIn hstatus hadmin hbit

/-- After a packet's second statement, whatever was the case before. -/
theorem orStatus_wanted_bit0 (cfg : RaceCfg) (flags : BitVec 32) (k : Nat) :
    (authStatus (orStatus flags (cfg.wanted k))).getLsbD 0 = true := by
  rw [authStatus_orStatus, cfg.authStatus_wanted, BitVec.getLsbD_or, cfg.wanted_bit0,
    Bool.or_true]

theorem raceMove_lost {cfg : RaceCfg} (hw : ∀ k, cfg.wanted k ≠ cfg.status) {s t : RaceState}
    {e : RaceEvent} (hs : Lost cfg s) (hm : RaceMove cfg s e t) : Lost cfg t := by
  cases hm with
  | look he hcall => exact hs.goto (by simp [hcall])
  | @clear k hcall =>
    cases hs with
    | rejected hstatus hadmin hbit =>
      exact .rejected hstatus hadmin (Or.inr ⟨k, by simp [RaceState.goto]⟩)
    | letIn hstatus hadmin hbit => exact .letIn hstatus hadmin (by simp)
  | @or k hcall =>
    cases hs with
    | rejected hstatus hadmin hbit =>
      exact .rejected hstatus hadmin (Or.inl (orStatus_wanted_bit0 cfg s.flags k))
    | letIn hstatus hadmin hbit =>
      refine .letIn hstatus hadmin ?_
      rw [authStatus_orStatus, cfg.authStatus_wanted, BitVec.getLsbD_or, hbit, Bool.false_or]
      exact RaceCfg.wanted_bit1 (hstatus ▸ hw k)
  | adminClear hstart =>
    cases hs with
    | rejected hstatus hadmin hbit => exact absurd hstart hadmin
    | letIn hstatus hadmin hbit =>
      rw [hadmin] at hstart
      exact absurd hstart (by decide)
  | adminOr hcleared =>
    cases hs with
    | rejected hstatus hadmin hbit =>
      refine .rejected hstatus (by simp) (hbit.imp_left ?_)
      intro hb
      rw [authStatus_orStatus, BitVec.getLsbD_or, hb, Bool.true_or]
    | letIn hstatus hadmin hbit =>
      rw [hadmin] at hcleared
      exact absurd hcleared (by decide)

/-- A step that does not yield loses the decision. -/
theorem lost_of_not_yields {cfg : RaceCfg} {s t : RaceState} {e : RaceEvent}
    (hy : ¬ Yields cfg s e) (hm : RaceMove cfg s e t) : Lost cfg t := by
  cases hm with
  | look he hcall =>
    rcases he with rfl | rfl
    · exact absurd trivial hy
    · exact absurd trivial hy
  | @clear k hcall =>
    obtain ⟨hdone, -⟩ := Classical.not_imp.mp hy
    rcases cfg.decided with hstatus | hstatus
    · exact .rejected hstatus (by simp [RaceState.goto, hdone])
        (Or.inr ⟨k, by simp [RaceState.goto]⟩)
    · exact .letIn hstatus hdone (by simp)
  | @or k hcall =>
    obtain ⟨hstart, hbits⟩ := Classical.not_imp.mp hy
    rcases cfg.decided with hstatus | hstatus
    · exact .rejected hstatus hstart (Or.inl (orStatus_wanted_bit0 cfg s.flags k))
    · -- `AUTH_OK` has every bit that a packet sets
      refine absurd ?_ hbits
      rw [hstatus]
      unfold RaceCfg.wanted
      split
      · decide
      · decide
  | adminClear => exact absurd trivial hy
  | adminOr => exact absurd trivial hy

/-- A lost decision is not the status when everybody is done. -/
theorem Lost.status_ne {cfg : RaceCfg} {s : RaceState} (h : Lost cfg s)
    (hquiet : ∀ k, (s.call k).midway = false) : authStatus s.flags ≠ cfg.status := by
  intro heq
  cases h with
  | rejected hstatus hadmin hbit =>
    rcases hbit with hb | ⟨k, hk⟩
    · rw [heq, hstatus] at hb
      exact absurd hb (by decide)
    · have := hquiet k
      rw [hk] at this
      exact absurd this (by decide)
  | letIn hstatus hadmin hbit =>
    rw [heq, hstatus] at hbit
    exact absurd hbit (by decide)

/-- **When a decision is not overwritten.**  In every run of any number of packets of a user
and one call of `set_user_status`, from any flags: if every step of a packet yields, then
whenever everybody is done, the status is the one that was written.  And unless a packet's rule
sets that very status, this is exact: at the end of a run that leaves nobody midway, the status
is the one that was written only if every step yielded. -/
theorem adminRace_iff (cfg : RaceCfg) (flags : BitVec 32) (es : List RaceEvent) :
    (AllSteps (raceStep cfg) (Yields cfg) (raceInit flags) es →
      AllStates (raceStep cfg) (AdminKept cfg) (raceInit flags) es) ∧
    ((∀ k, cfg.wanted k ≠ cfg.status) → ∀ t, run (raceStep cfg) (raceInit flags) es = some t →
      t.admin = .done → (∀ k, (t.call k).midway = false) →
        (authStatus t.flags = cfg.status ↔
          AllSteps (raceStep cfg) (Yields cfg) (raceInit flags) es)) := by
  have hinit : KeptInv cfg (raceInit flags) :=
    ⟨fun h => absurd rfl h, fun h => absurd h (by simp [raceInit])⟩
  have hkept : AllSteps (raceStep cfg) (Yields cfg) (raceInit flags) es →
      AllStates (raceStep cfg) (AdminKept cfg) (raceInit flags) es := by
    intro hy
    have hinv := allStates_of_allSteps (fun s e t hs hy h =>
      raceMove_keptInv hs hy (raceMove_of_step h)) es _ hinit hy
    exact hinv.mono fun s => KeptInv.adminKept
  refine ⟨hkept, fun hw t hrun hdone hquiet => ⟨?_, ?_⟩⟩
  · intro hstatus
    exact allSteps_of_run_of_not (fun _ _ _ hs h => raceMove_lost hw hs (raceMove_of_step h))
      (fun _ _ _ hy h => lost_of_not_yields hy (raceMove_of_step h)) hrun
      fun hlost => hlost.status_ne hquiet hstatus
  · intro hy
    exact (hkept hy).last hrun hdone hquiet

/-- The administrator rejects a user while a packet of the user, whose rule asks for a log in,
is being looked at. -/
def rejectCfg : RaceCfg := ⟨AUTH_REJ, fun _ => true, Or.inl rfl⟩

/-- The packet passed the test before, and sets the status after: the decision is lost.  If the
packet's first statement comes before the administrator's and its second one after, the user is
authenticated, which neither side wrote. -/
theorem adminRace_broken :
    (∃ s, run (raceStep rejectCfg) (raceInit 0)
        [.test 0, .adminClear, .adminOr, .clear 0, .or 0] = some s ∧
      s.admin = .done ∧ s.call 0 = .done ∧ authStatus s.flags = AUTH_REQ) ∧
    (∃ s, run (raceStep rejectCfg) (raceInit 0)
        [.test 0, .clear 0, .adminClear, .adminOr, .or 0] = some s ∧
      s.admin = .done ∧ s.call 0 = .done ∧ authStatus s.flags = AUTH_OK) :=
  ⟨⟨_, rfl, rfl, rfl, by decide⟩, ⟨_, rfl, rfl, rfl, by decide⟩⟩

end Puppies
