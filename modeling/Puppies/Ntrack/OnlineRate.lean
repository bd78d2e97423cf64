/-
# How often a user is reported online (`ntrack_hooks.c`, the end of `ntrack_hook_fw`)

`ntrack_hook_fw` keeps a time stamp in the user's record, and renews it at a packet that arrives
more than `USR_TS_KEEP_ALIVE` after it; then it also reports the user, if the user is logged in.
Both times are 32 bits of a counter that wraps, and `time_after` looks at the sign of their
difference, so that the comparison means something only while the two are less than half the
range apart.

What keeps them together is the packets themselves: a stamp that a packet has left as it was is
at most `USR_TS_KEEP_ALIVE` old at that packet, so that at the next one it is not too old either
(`OnlineInv.fresh`).  The run has the time without end beside the 32 bits; everything else in the
record may change in any way between two packets.

Packets that `l3filter` turns away do not get as far as the user: they neither renew the stamp
nor count for this argument.
-/
import Mathlib.Algebra.Group.Nat.Defs
import Puppies.Lib.Runs
import Puppies.Ntrack.Redirect

namespace Puppies

open ByteMem EventRun

/-! ## 1. One packet -/

/-- Whether `ntrack_hook_fw` gets to `user_update_timestamp`. -/
def hookRefreshes (hz jiffies : BitVec 32) (gconf : Option AuthConf) (ui : UserInfo)
    (pkt : Packet) : Bool :=
  if l3filter pkt.skb then false
  else match userNeedRedirect gconf ui pkt with
    | .ok r => userTimeout hz jiffies r.ui
    | .error _ => false

/-- `user_need_redirect` does not touch the time stamp. -/
theorem RedirectMove.timeStamp {gconf : Option AuthConf} {ui : UserInfo} {r : NeedRedirect}
    (h : RedirectMove gconf ui r) : r.ui.timeStamp = ui.timeStamp := by
  have hcache : ∀ {ui' : UserInfo} {matched : Bool}, CacheMove gconf ui ui' matched →
      ui'.timeStamp = ui.timeStamp := by
    intro ui' matched hc
    cases hc <;> rfl
  cases h with
  | pass hc => exact hcache hc
  | apply hc => exact (hcache hc : _)

/-- **The end of `ntrack_hook_fw`**: the time stamp and the message. -/
structure HookEnd (hz jiffies : BitVec 32) (ui : UserInfo) (refreshes : Bool) (r : HookResult) :
    Prop where
  timeStamp : r.ui.timeStamp = if refreshes then jiffies else ui.timeStamp
  message : r.message = if refreshes then
      if AUTH_OK ≤ ntAuthStatus r.ui then some (r.ui.id, r.ui.magic) else none
    else none

theorem hookTimeout_end (hz jiffies : BitVec 32) (ui : UserInfo) (matched redirected : Bool) :
    HookEnd hz jiffies ui (userTimeout hz jiffies ui)
      (hookTimeout hz jiffies ui matched redirected) := by
  cases ht : userTimeout hz jiffies ui with
  | false => exact ⟨by simp [hookTimeout, ht], by simp [hookTimeout, ht]⟩
  | true => exact ⟨by simp [hookTimeout, ht, userUpdateTimestamp], by simp [hookTimeout, ht]⟩

theorem ntrackHookFw_end {hz jiffies : BitVec 32} {gconf : Option AuthConf} {ui : UserInfo}
    {pkt : Packet} {r : HookResult} (h : ntrackHookFw hz jiffies gconf ui pkt = .ok r) :
    HookEnd hz jiffies ui (hookRefreshes hz jiffies gconf ui pkt) r ∧
      hookRefreshes hz jiffies gconf ui pkt =
        (!l3filter pkt.skb && userTimeout hz jiffies ui) := by
  unfold ntrackHookFw at h
  unfold hookRefreshes
  by_cases hfilter : l3filter pkt.skb = true
  · rw [if_pos hfilter] at h
    obtain rfl := Except.ok.inj h
    rw [if_pos hfilter]
    exact ⟨⟨rfl, rfl⟩, by rw [hfilter]; rfl⟩
  · rw [if_neg hfilter] at h
    obtain ⟨q, hq, hr⟩ := except_bind_eq_ok.mp h
    obtain rfl := Except.ok.inj hr
    have hstamp := (userNeedRedirect_move hq).timeStamp
    have htimeout : userTimeout hz jiffies q.ui = userTimeout hz jiffies ui := by
      rw [userTimeout, userTimeout, hstamp]
    have hend := hookTimeout_end hz jiffies q.ui q.matched (q.ret && authCheckHttp pkt.skb)
    rw [if_neg hfilter, hq, Bool.eq_false_iff.mpr hfilter]
    dsimp only
    rw [htimeout] at hend ⊢
    exact ⟨⟨hstamp ▸ hend.timeStamp, hend.message⟩, rfl⟩

/-- **`time_after` on times less than half the range apart.** -/
theorem userTimeout_iff {hz : BitVec 32} {ui : UserInfo} {last now : Nat}
    (hstamp : ui.timeStamp = BitVec.ofNat 32 last) (hle : last ≤ now)
    (hnear : now - last < 2 ^ 31) (hkeep : 30 * hz.toNat < 2 ^ 31) :
    userTimeout hz (BitVec.ofNat 32 now) ui = true ↔ 30 * hz.toNat < now - last := by
  obtain ⟨d, rfl⟩ := Nat.exists_eq_add_of_le hle
  rw [userTimeout, timeAfter, hstamp, decide_eq_true_eq, BitVec.toInt_eq_toNat_cond]
  have hthirty : (30 : BitVec 32).toNat = 30 := rfl
  simp only [BitVec.toNat_sub, BitVec.toNat_add, BitVec.toNat_mul, BitVec.toNat_ofNat, hthirty]
  split <;> omega

/-! ## 2. A run of packets -/

/-- One packet of the user, as it is remembered. -/
structure OnlineEntry where
  /-- when it arrived -/
  time : Nat
  filtered : Bool
  refreshed : Bool
  /-- the time stamp when the packet has been dealt with -/
  stamp : BitVec 32
  /-- the status then -/
  status : BitVec 32
  /-- the message that was given to `nmsg_enqueue` -/
  message : Option (BitVec 32 × BitVec 32)
  deriving DecidableEq

/-- The record of a user, and what is remembered of the packets. -/
structure OnlineState where
  ui : UserInfo
  /-- when the last packet arrived -/
  now : Nat
  /-- when the last one arrived that was not filtered -/
  seen : Nat
  /-- the packets, the last one first -/
  log : List OnlineEntry

/-- What happens to the record: a packet, some time after the one before, and whatever else
leaves the time stamp alone. -/
inductive OnlineEvent
  | packet (gap : Nat) (gconf : Option AuthConf) (pkt : Packet)
  | other (ui : UserInfo)

/-- One event; `none` if the call faults. -/
def onlineStep (hz : BitVec 32) (s : OnlineState) : OnlineEvent → Option OnlineState
  | .packet gap gconf pkt =>
    let now := s.now + gap
    let jiffies := BitVec.ofNat 32 now
    match ntrackHookFw hz jiffies gconf s.ui pkt with
    | .error _ => none
    | .ok r =>
      some
        { ui := r.ui
          now := now
          seen := if l3filter pkt.skb then s.seen else now
          log := ⟨now, l3filter pkt.skb, hookRefreshes hz jiffies gconf s.ui pkt,
            r.ui.timeStamp, ntAuthStatus r.ui, r.message⟩ :: s.log }
  | .other ui => some { s with ui := { ui with timeStamp := s.ui.timeStamp } }

/-- When the time stamp was last renewed. -/
def lastRefresh : List OnlineEntry → Option Nat
  | [] => none
  | e :: es => if e.refreshed then some e.time else lastRefresh es

/-- **The rate**, with `keep` the time between two messages. -/
structure OnlineRate (keep : Nat) (log : List OnlineEntry) : Prop where
  /-- the stamp is renewed at the packets that arrive more than `keep` after the last renewal -/
  refreshed : ∀ e es last, e :: es <:+ log → lastRefresh es = some last →
    (e.refreshed = true ↔ e.filtered = false ∧ keep < e.time - last)
  /-- which is what the record has -/
  stamp : ∀ e es last, e :: es <:+ log → lastRefresh (e :: es) = some last →
    e.stamp = BitVec.ofNat 32 last
  message : ∀ e ∈ log, e.message ≠ none ↔ e.refreshed = true ∧ AUTH_OK ≤ e.status
  /-- any two messages are that far apart -/
  apart : log.Pairwise fun later earlier =>
    later.message ≠ none → earlier.message ≠ none → keep < later.time - earlier.time

/-- The packet is not filtered, and less than half the range of the counter, but for `keep`,
behind the last one that was not. -/
def CloseBehind (hz : BitVec 32) (s : OnlineState) : OnlineEvent → Prop
  | .packet gap _ pkt =>
    l3filter pkt.skb = false → s.now + gap - s.seen < 2 ^ 31 - 30 * hz.toNat
  | .other _ => True

instance (hz : BitVec 32) (s : OnlineState) (e : OnlineEvent) :
    Decidable (CloseBehind hz s e) :=
  match e with
  | .packet gap _ pkt =>
    inferInstanceAs (Decidable
      (l3filter pkt.skb = false → s.now + gap - s.seen < 2 ^ 31 - 30 * hz.toNat))
  | .other _ => isTrue trivial

theorem OnlineRate.cons {keep last last' : Nat} {log : List OnlineEntry} {e : OnlineEntry}
    (h : OnlineRate keep log) (hlast : lastRefresh log = some last)
    (hbefore : ∀ e ∈ log, e.refreshed = true → e.time ≤ last)
    (hrefreshed : e.refreshed = true ↔ e.filtered = false ∧ keep < e.time - last)
    (hlast' : lastRefresh (e :: log) = some last') (hstamp : e.stamp = BitVec.ofNat 32 last')
    (hmessage : e.message ≠ none ↔ e.refreshed = true ∧ AUTH_OK ≤ e.status) :
    OnlineRate keep (e :: log) := by
  refine ⟨?_, ?_, List.forall_mem_cons.mpr ⟨hmessage, h.message⟩,
    List.pairwise_cons.mpr ⟨?_, h.apart⟩⟩
  · intro e' es prev hsuffix hprev
    rcases List.suffix_cons_iff.mp hsuffix with heq | hsuffix
    · obtain ⟨rfl, rfl⟩ := List.cons.inj heq
      obtain rfl := Option.some.inj (hlast.symm.trans hprev)
      exact hrefreshed
    · exact h.refreshed e' es prev hsuffix hprev
  · intro e' es prev hsuffix hprev
    rcases List.suffix_cons_iff.mp hsuffix with heq | hsuffix
    · obtain ⟨rfl, rfl⟩ := List.cons.inj heq
      obtain rfl := Option.some.inj (hlast'.symm.trans hprev)
      exact hstamp
    · exact h.stamp e' es prev hsuffix hprev
  · intro earlier hmem hlater hearlier
    have hnear := (hrefreshed.mp (hmessage.mp hlater).1).2
    have hle := hbefore earlier hmem ((h.message earlier hmem).mp hearlier).1
    omega

/-- **The invariant.**  The stamp is that of the last renewal, and was not too old when the last
packet left it as it was. -/
structure OnlineInv (hz : BitVec 32) (s : OnlineState) (last : Nat) : Prop where
  renewed : lastRefresh s.log = some last
  stamp : s.ui.timeStamp = BitVec.ofNat 32 last
  seen : last ≤ s.seen ∧ s.seen ≤ s.now
  fresh : s.seen - last ≤ 30 * hz.toNat
  before : ∀ e ∈ s.log, e.refreshed = true → e.time ≤ last
  rate : OnlineRate (30 * hz.toNat) s.log

/-- What a packet adds to the log, by what `ntrack_hook_fw` does at its end. -/
theorem HookEnd.message_iff {hz jiffies : BitVec 32} {ui : UserInfo} {refreshes : Bool}
    {r : HookResult} (h : HookEnd hz jiffies ui refreshes r) :
    r.message ≠ none ↔ refreshes = true ∧ AUTH_OK ≤ ntAuthStatus r.ui := by
  rw [h.message]
  cases refreshes with
  | false => simp
  | true => simp

/-- What a packet does to the state, with `refreshes` for whether it renews the stamp. -/
theorem onlineStep_packet {hz : BitVec 32} {s s' : OnlineState} {gap : Nat}
    {gconf : Option AuthConf} {pkt : Packet}
    (hs : onlineStep hz s (.packet gap gconf pkt) = some s') :
    ∃ r refreshes,
      HookEnd hz (BitVec.ofNat 32 (s.now + gap)) s.ui refreshes r ∧
      refreshes = (!l3filter pkt.skb &&
        userTimeout hz (BitVec.ofNat 32 (s.now + gap)) s.ui) ∧
      s' =
        { ui := r.ui
          now := s.now + gap
          seen := if l3filter pkt.skb then s.seen else s.now + gap
          log := ⟨s.now + gap, l3filter pkt.skb, refreshes, r.ui.timeStamp, ntAuthStatus r.ui,
            r.message⟩ :: s.log } := by
  cases hr : ntrackHookFw hz (BitVec.ofNat 32 (s.now + gap)) gconf s.ui pkt with
  | error e => simp [onlineStep, hr] at hs
  | ok r =>
    simp only [onlineStep, hr, Option.some.injEq] at hs
    obtain ⟨hend, hrefreshes⟩ := ntrackHookFw_end hr
    exact ⟨r, _, hend, hrefreshes, hs.symm⟩

theorem OnlineInv.step {hz : BitVec 32} {s s' : OnlineState} {e : OnlineEvent} {last : Nat}
    (h : OnlineInv hz s last) (hclose : CloseBehind hz s e) (hs : onlineStep hz s e = some s') :
    ∃ last', OnlineInv hz s' last' := by
  cases e with
  | other ui =>
    obtain rfl := Option.some.inj hs
    exact ⟨last, h.renewed, h.stamp, h.seen, h.fresh, h.before, h.rate⟩
  | packet gap gconf pkt =>
    obtain ⟨r, refreshes, hend, hrefreshes, rfl⟩ := onlineStep_packet hs
    obtain ⟨hlast, hnow⟩ := h.seen
    have hfresh := h.fresh
    by_cases hfilter : l3filter pkt.skb = true
    · -- the packet is filtered
      obtain rfl : refreshes = false := by rw [hrefreshes, hfilter]; rfl
      have hstamp : r.ui.timeStamp = BitVec.ofNat 32 last := hend.timeStamp.trans h.stamp
      have hrate := h.rate.cons (e := ⟨s.now + gap, l3filter pkt.skb, false, r.ui.timeStamp,
        ntAuthStatus r.ui, r.message⟩) h.renewed h.before (by simp [hfilter]) h.renewed hstamp
        hend.message_iff
      refine ⟨last, h.renewed, hstamp, ?_, ?_, ?_, hrate⟩
      · simp only [hfilter, if_true]
        omega
      · simpa only [hfilter, if_true] using hfresh
      · exact List.forall_mem_cons.mpr ⟨fun hf => by simp at hf, h.before⟩
    · have hnear := hclose (Bool.eq_false_iff.mpr hfilter)
      rw [Bool.eq_false_iff.mpr hfilter, Bool.not_false, Bool.true_and] at hrefreshes
      have hiff : refreshes = true ↔ 30 * hz.toNat < s.now + gap - last := by
        rw [hrefreshes]
        exact userTimeout_iff h.stamp (by omega) (by omega) (by omega)
      cases refreshes with
      | true =>
        have hrate := h.rate.cons (e := ⟨s.now + gap, l3filter pkt.skb, true, r.ui.timeStamp,
          ntAuthStatus r.ui, r.message⟩) h.renewed h.before (by simpa [hfilter] using hiff) rfl
          hend.timeStamp hend.message_iff
        refine ⟨s.now + gap, rfl, hend.timeStamp, ?_, ?_, ?_, hrate⟩
        · simp [hfilter]
        · simp [hfilter]
        · refine List.forall_mem_cons.mpr ⟨fun _ => Nat.le_refl _, ?_⟩
          intro e he hrefreshed
          have := h.before e he hrefreshed
          omega
      | false =>
        -- the stamp is too young, and stays young enough for the next packet
        have hyoung : s.now + gap - last ≤ 30 * hz.toNat := by
          simpa using hiff
        have hstamp : r.ui.timeStamp = BitVec.ofNat 32 last := hend.timeStamp.trans h.stamp
        have hrate := h.rate.cons (e := ⟨s.now + gap, l3filter pkt.skb, false, r.ui.timeStamp,
          ntAuthStatus r.ui, r.message⟩) h.renewed h.before (by simpa [hfilter] using hiff)
          h.renewed hstamp hend.message_iff
        refine ⟨last, h.renewed, hstamp, ?_, ?_, ?_, hrate⟩
        · simp only [hfilter]
          exact ⟨by simp; omega, by simp⟩
        · simpa [hfilter] using hyoung
        · exact List.forall_mem_cons.mpr ⟨fun hf => by simp at hf, h.before⟩

/-- A packet that renews the stamp sets the invariant up, whatever the stamp was. -/
theorem OnlineInv.start {hz : BitVec 32} {s s' : OnlineState} {gap : Nat}
    {gconf : Option AuthConf} {pkt : Packet} {entry : OnlineEntry} (hlog : s.log = [])
    (hs : onlineStep hz s (.packet gap gconf pkt) = some s') (hentry : s'.log = [entry])
    (hrefreshed : entry.refreshed = true) : OnlineInv hz s' entry.time := by
  obtain ⟨r, refreshes, hend, hrefreshes, rfl⟩ := onlineStep_packet hs
  simp only [hlog, List.cons.injEq, and_true] at hentry
  subst hentry
  obtain rfl : refreshes = true := hrefreshed
  have hfilter : l3filter pkt.skb = false := by
    cases hf : l3filter pkt.skb with
    | false => rfl
    | true => simp [hf] at hrefreshes
  refine ⟨by rw [hlog]; rfl, hend.timeStamp, ?_, ?_, ?_, ?_⟩
  · simp [hfilter]
  · simp [hfilter]
  · simp [hlog]
  · rw [hlog]
    refine ⟨?_, ?_, ?_, by simp⟩
    · intro e es last hsuffix hlast
      rcases List.suffix_cons_iff.mp hsuffix with heq | hsuffix
      · obtain ⟨rfl, rfl⟩ := List.cons.inj heq
        cases hlast
      · simp at hsuffix
    · intro e es last hsuffix hlast
      rcases List.suffix_cons_iff.mp hsuffix with heq | hsuffix
      · obtain ⟨rfl, rfl⟩ := List.cons.inj heq
        obtain rfl := Option.some.inj hlast
        exact hend.timeStamp
      · simp at hsuffix
    · exact List.forall_mem_singleton.mpr hend.message_iff

/-! ## 3. The rate -/

/-- The first packet renews the stamp. -/
def StartsWithRefresh (hz : BitVec 32) (s₀ : OnlineState) (first : OnlineEvent)
    (s₁ : OnlineState) : Prop :=
  s₀.log = [] ∧ onlineStep hz s₀ first = some s₁ ∧
    ∃ entry, s₁.log = [entry] ∧ entry.refreshed = true

/-- **The rate.**  Over any run of packets of a user that starts with one that renews the time
stamp, and in which those that are not filtered follow close enough upon each other, the stamp is
renewed at exactly those of them that arrive more than `USR_TS_KEEP_ALIVE` after the last that
did; a message is attempted at these when the status is open; and so any two messages are more
than that apart.  The counter may wrap any number of times. -/
theorem onlineRate (hz : BitVec 32) (s₀ s₁ s : OnlineState) (first : OnlineEvent)
    (es : List OnlineEvent) (hstart : StartsWithRefresh hz s₀ first s₁)
    (hclose : AllSteps (onlineStep hz) (CloseBehind hz) s₁ es)
    (hrun : run (onlineStep hz) s₁ es = some s) : OnlineRate (30 * hz.toNat) s.log := by
  obtain ⟨hlog, hfirst, entry, hentry, hrefreshed⟩ := hstart
  have hinv : ∃ last, OnlineInv hz s₁ last := by
    cases first with
    | packet gap gconf pkt => exact ⟨_, OnlineInv.start hlog hfirst hentry hrefreshed⟩
    | other ui =>
      obtain rfl := Option.some.inj hfirst
      simp [hlog] at hentry
  have hall : AllStates (onlineStep hz) (fun s => ∃ last, OnlineInv hz s last) s₁ es := by
    refine allStates_of_allSteps ?_ es s₁ hinv hclose
    rintro s e s' ⟨last, h⟩ hc hs
    exact h.step hc hs
  obtain ⟨last, h⟩ := hall.last hrun
  exact h.rate

/-- A user who is logged in, long before the counter wraps. -/
def onlineUser : OnlineState where
  ui := ⟨7, 1, AUTH_OK, -1, 0, 0, 0⟩
  now := 0
  seen := 0
  log := []

def tcpPacket : Packet := ⟨ipv4Packet IPPROTO_TCP [], fun _ => 0⟩

/-- With 100 ticks in a second: a second packet 30 seconds after the first leaves the stamp, a
third one tick later renews it. -/
theorem onlineRate_hundred :
    OnlineRate 3000
      [⟨6002, false, true, 6002, AUTH_OK, some (7, 1)⟩, ⟨6001, false, false, 3001, AUTH_OK, none⟩,
        ⟨3001, false, true, 3001, AUTH_OK, some (7, 1)⟩] :=
  onlineRate 100 onlineUser
    { ui := { onlineUser.ui with timeStamp := 3001 }
      now := 3001
      seen := 3001
      log := [⟨3001, false, true, 3001, AUTH_OK, some (7, 1)⟩] }
    { ui := { onlineUser.ui with timeStamp := 6002 }
      now := 6002
      seen := 6002
      log := [⟨6002, false, true, 6002, AUTH_OK, some (7, 1)⟩,
        ⟨6001, false, false, 3001, AUTH_OK, none⟩,
        ⟨3001, false, true, 3001, AUTH_OK, some (7, 1)⟩] }
    (.packet 3001 none tcpPacket) [.packet 3000 none tcpPacket, .packet 1 none tcpPacket]
    ⟨rfl, rfl, _, rfl, rfl⟩ (by decide) rfl

/-- A packet of another protocol (here IGMP) does not renew the stamp, however late it comes. -/
theorem onlineRate_filtered :
    ¬ ∀ (hz : BitVec 32) (s₀ s₁ s : OnlineState) (first : OnlineEvent) (gap : Nat)
      (gconf : Option AuthConf) (pkt : Packet), StartsWithRefresh hz s₀ first s₁ →
      gap < 2 ^ 31 - 30 * hz.toNat → 30 * hz.toNat < gap →
      onlineStep hz s₁ (.packet gap gconf pkt) = some s →
      s.ui.timeStamp = BitVec.ofNat 32 (s₁.now + gap) := by
  intro h
  have hstamp := h 100 onlineUser
    { ui := { onlineUser.ui with timeStamp := 3001 }
      now := 3001
      seen := 3001
      log := [⟨3001, false, true, 3001, AUTH_OK, some (7, 1)⟩] }
    _ (.packet 3001 none tcpPacket) 3001 none ⟨ipv4Packet 2 [], fun _ => 0⟩
    ⟨rfl, rfl, _, rfl, rfl⟩ (by decide) (by decide) rfl
  exact absurd hstamp (by decide)

end Puppies
