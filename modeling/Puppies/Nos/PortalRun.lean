/-
# The captive portal from its start on

`nos_do` is written for a portal with a memory: each sender has a node with its address and the
time of its last packet, and a status that lets it through once it is 1.  But nothing in the
module ever stores a 1.  A node begins with 0 (`memset`), and the packets that follow store an
address and a time.

So over a whole run the table is a record of what was seen and nothing else (`lastOf`): whatever
the hash function, there is one node for each sender, with what its last packet said.  And what
becomes of a packet depends on this packet alone (`NosPacket.answer`), except that the first one
of a sender needs a block of memory, without which the kernel stops.  `nosPortal_run` says both.
-/
import Puppies.Lib.Runs
import Puppies.Nos.Portal

namespace Puppies

open ByteMem EventRun

/-! ## 1. The machine -/

/-- A packet that the forward hook is called for, and what the kernel gives it. -/
structure NosPacket where
  jiffies : BitVec 32
  /-- `kmalloc` has a block -/
  kmalloc : Bool
  ct : Conntrack
  /-- it is in one piece, or could be copied into one -/
  copied : Bool
  /-- its connection has a record of the tracker -/
  found : Bool
  skb : SkBuff
  dev : Devices

/-- The sender. -/
def NosPacket.mac (p : NosPacket) : Mac := macSource p.skb

/-- One packet with its answer; `none` if a `BUG_ON` is reached. -/
def portalStep (jhash : List Byte → BitVec 32) (users : Users) (p : NosPacket) :
    Option (Users × Verdict × Option String) :=
  match nosHookFw ⟨jhash, p.jiffies, p.kmalloc⟩ users p.ct p.copied p.found p.skb p.dev with
  | .ok r => some (r.users, r.verdict, r.redirect)
  | .error _ => none

/-- The table after `user_hash_init`. -/
def noUsers : Users := fun _ => []

/-! ## 2. What the portal is -/

/-- The packet gets to the table: it passes the filters, on its way from the LAN to the WAN. -/
def NosPacket.reaches (p : NosPacket) : Bool :=
  p.ct == .tracked && !protocolFiltered p.skb && !addressFiltered p.skb && p.copied && p.found &&
    checkDir p.dev.inName p.dev.outName

/-- What becomes of a packet. -/
def NosPacket.answer (p : NosPacket) : Verdict × Option String :=
  if p.reaches then ((nosFilter p.skb noUsers).verdict, (nosFilter p.skb noUsers).redirect)
  else (.accept, none)

/-- What a packet leaves in the table. -/
def NosPacket.node (p : NosPacket) : UserNode := ⟨p.skb.saddr, p.jiffies, 0, p.mac⟩

/-- The last of the packets that reached the table and came from `mac`. -/
def lastOf (ps : List NosPacket) (mac : Mac) : Option NosPacket :=
  ps.reverse.find? fun p => p.reaches && p.mac == mac

/-- The packet finds what it needs, after those of `before`: the first one of a sender needs a
block. -/
def NosPacket.Finds (p : NosPacket) (before : List NosPacket) : Prop :=
  p.reaches = true → lastOf before p.mac = none → p.kmalloc = true

/-- Each of the packets does. -/
def AllFind : List NosPacket → List NosPacket → Prop
  | _, [] => True
  | before, p :: ps => p.Finds before ∧ AllFind (before ++ [p]) ps

/-- The table is the record of the packets. -/
structure Recorded (jhash : List Byte → BitVec 32) (users : Users) (ps : List NosPacket) :
    Prop where
  wf : UsersWf jhash users
  find : ∀ mac, userHashFind jhash users mac = (lastOf ps mac).map NosPacket.node

theorem recorded_noUsers (jhash : List Byte → BitVec 32) : Recorded jhash noUsers [] where
  wf := ⟨fun _ _ h => absurd h List.not_mem_nil, fun _ => List.nodup_nil⟩
  find := fun _ => rfl

theorem lastOf_concat (ps : List NosPacket) (p : NosPacket) (mac : Mac) :
    lastOf (ps ++ [p]) mac =
      if (p.reaches && p.mac == mac) = true then some p else lastOf ps mac := by
  rw [lastOf, List.reverse_concat, List.find?_cons]
  cases p.reaches && p.mac == mac <;> rfl

/-- A packet that does not reach the table is not recorded. -/
theorem lastOf_concat_of_not_reaches {p : NosPacket} (h : p.reaches = false)
    (ps : List NosPacket) : lastOf (ps ++ [p]) = lastOf ps := by
  funext mac
  rw [lastOf_concat, h, Bool.false_and, if_neg Bool.false_ne_true]

/-- One that does is the last of its sender. -/
theorem lastOf_concat_of_reaches {p : NosPacket} (h : p.reaches = true) (ps : List NosPacket) :
    lastOf (ps ++ [p]) = Function.update (lastOf ps) p.mac (some p) := by
  funext mac
  rw [lastOf_concat, h, Bool.true_and]
  rcases eq_or_ne mac p.mac with rfl | hne
  · rw [if_pos (beq_self_eq_true _), Function.update_self]
  · have hbeq : (p.mac == mac) = false := beq_eq_false_iff_ne.mpr hne.symm
    rw [hbeq, if_neg Bool.false_ne_true, Function.update_of_ne hne]

/-! ## 3. The table -/

section Table

variable {jhash : List Byte → BitVec 32} {users : Users}

/-- What is found in a bucket in which the node for `mac` was stored to. -/
theorem find?_replaceF {mac mac' : Mac} {f : UserNode → UserNode} (hf : ∀ u, (f u).mac = u.mac)
    (l : List UserNode) :
    (l.replaceF fun u => if u.mac == mac then some (f u) else none).find?
        (fun u => u.mac == mac') =
      if mac' = mac then (l.find? fun u => u.mac == mac').map f
      else l.find? fun u => u.mac == mac' := by
  induction l with
  | nil => simp
  | cons u l ih =>
    rw [List.replaceF_cons, List.find?_cons]
    by_cases hu : u.mac = mac
    · have hfu : (f u).mac = mac := (hf u).trans hu
      rw [hu, beq_self_eq_true, if_pos rfl, List.find?_cons, hfu]
      rcases eq_or_ne mac' mac with rfl | hne
      · rw [beq_self_eq_true, if_pos rfl]
        rfl
      · rw [beq_eq_false_iff_ne.mpr hne.symm, if_neg hne]
    · rw [beq_eq_false_iff_ne.mpr hu, if_neg Bool.false_ne_true, List.find?_cons, ih]
      rcases eq_or_ne mac' mac with rfl | hne
      · rw [beq_eq_false_iff_ne.mpr hu, if_pos rfl]
      · rw [if_neg hne, if_neg hne]

/-- The stores through a node that was found change what is found for its address, and nothing
else. -/
theorem userHashFind_userUpdate {mac : Mac} {f : UserNode → UserNode}
    (hf : ∀ u, (f u).mac = u.mac) (mac' : Mac) :
    userHashFind jhash (userUpdate jhash users mac f) mac' =
      if mac' = mac then (userHashFind jhash users mac').map f
      else userHashFind jhash users mac' := by
  unfold userHashFind userUpdate
  rcases eq_or_ne (hashNum jhash mac') (hashNum jhash mac) with hb | hb
  · rw [hb, Function.update_self, find?_replaceF hf]
  · have hne : mac' ≠ mac := by
      rintro rfl
      exact hb rfl
    rw [Function.update_of_ne hb, if_neg hne]

/-- Another address is found as before an addition. -/
theorem userHashFind_userHashAdd_of_ne {n : UserNode} {mac : Mac}
    (h : userHashFind jhash users n.mac = none) (hne : mac ≠ n.mac) :
    userHashFind jhash (userHashAdd jhash users n).2 mac = userHashFind jhash users mac := by
  rw [userHashAdd, h]
  unfold userHashFind
  dsimp only
  rcases eq_or_ne (hashNum jhash mac) (hashNum jhash n.mac) with hb | hb
  · rw [hb, Function.update_self, List.find?_cons, beq_eq_false_iff_ne.mpr hne.symm]
  · rw [Function.update_of_ne hb]

end Table

/-! ## 4. One packet -/

section Step

variable {jhash : List Byte → BitVec 32} {users : Users}

/-- What `nosFilter` answers does not depend on the table. -/
theorem nosFilter_eq (skb : SkBuff) (users : Users) :
    nosFilter skb users =
      ⟨(nosFilter skb noUsers).verdict, users, (nosFilter skb noUsers).redirect⟩ := by
  unfold nosFilter
  split
  · split <;> rfl
  · split
    · rfl
    · split <;> rfl

theorem portalStep_of_not_reaches {p : NosPacket} (h : p.reaches = false) :
    portalStep jhash users p = some (users, p.answer) := by
  have hok : nosHookFw ⟨jhash, p.jiffies, p.kmalloc⟩ users p.ct p.copied p.found p.skb p.dev =
      .ok ⟨.accept, users, none⟩ := by
    unfold nosHookFw
    split
    · rfl
    · rename_i hct
      split
      · rfl
      · rename_i hproto
        split
        · rfl
        · rename_i haddr
          split
          · rfl
          · rename_i hcopied
            split
            · rfl
            · rename_i hfound
              have hdir : checkDir p.dev.inName p.dev.outName = false := by
                have hyes : p.copied = true ∧ p.found = true :=
                  ⟨by simpa using hcopied, by simpa using hfound⟩
                simpa [NosPacket.reaches, not_not.mp hct, hproto, haddr, hyes] using h
              rw [nosDo, hdir]
              rfl
  rw [portalStep, hok, NosPacket.answer, h]
  rfl

/-- The hook is `nos_do` where a packet reaches the table. -/
theorem nosHookFw_of_reaches (jhash : List Byte → BitVec 32) (users : Users) {p : NosPacket}
    (h : p.reaches = true) :
    nosHookFw ⟨jhash, p.jiffies, p.kmalloc⟩ users p.ct p.copied p.found p.skb p.dev =
        nosDo ⟨jhash, p.jiffies, p.kmalloc⟩ users p.skb p.dev ∧
      checkDir p.dev.inName p.dev.outName = true := by
  simp only [NosPacket.reaches, Bool.and_eq_true, beq_iff_eq, Bool.not_eq_true'] at h
  obtain ⟨⟨⟨⟨⟨hct, hproto⟩, haddr⟩, hcopied⟩, hfound⟩, hdir⟩ := h
  exact ⟨by simp [nosHookFw, hct, hproto, haddr, hcopied, hfound], hdir⟩

/-- A sender that was seen before. -/
theorem portalStep_known {p : NosPacket} (h : p.reaches = true) {u : UserNode}
    (hfind : userHashFind jhash users p.mac = some u) (hstatus : u.status = 0) :
    portalStep jhash users p = some (userUpdate jhash users p.mac
      (fun v => { v with jf := p.jiffies, ip := p.skb.saddr }), p.answer) := by
  obtain ⟨hhook, hdir⟩ := nosHookFw_of_reaches jhash users h
  have hne : ¬ u.status = 1 := by
    rw [hstatus]
    decide
  have hmac : userHashFind jhash users (macSource p.skb) = some u := hfind
  rw [portalStep, hhook, nosDo, hdir]
  simp only [Bool.not_true, Bool.false_eq_true, if_false, hmac, hne]
  rw [nosFilter_eq, NosPacket.answer, h]
  rfl

/-- One that was not. -/
theorem portalStep_new {p : NosPacket} (h : p.reaches = true)
    (hfind : userHashFind jhash users p.mac = none) :
    portalStep jhash users p =
      if p.kmalloc then some ((userHashAdd jhash users p.node).2, p.answer) else none := by
  obtain ⟨hhook, hdir⟩ := nosHookFw_of_reaches jhash users h
  have hmac : userHashFind jhash users (macSource p.skb) = none := hfind
  have hadd : (userHashAdd jhash users p.node).1 = 1 := userHashAdd_of_find_none hfind
  rw [portalStep, hhook, nosDo, hdir]
  simp only [Bool.not_true, Bool.false_eq_true, if_false, hmac]
  cases hk : p.kmalloc with
  | false => rfl
  | true =>
    have hnode : newNode ⟨jhash, p.jiffies, true⟩ p.skb = p.node := rfl
    simp only [Bool.not_true, Bool.false_eq_true, if_false, if_true, hnode, hadd, ne_eq,
      not_true_eq_false]
    rw [nosFilter_eq, NosPacket.answer, h]
    rfl

/-- **One packet.**  If it finds what it needs, it is answered as it is meant to be and recorded;
otherwise the kernel stops. -/
structure Answered (jhash : List Byte → BitVec 32) (users : Users) (ps : List NosPacket)
    (p : NosPacket) : Prop where
  step : p.Finds ps → ∃ t, portalStep jhash users p = some (t, p.answer) ∧
    Recorded jhash t (ps ++ [p])
  stop : ¬ p.Finds ps → portalStep jhash users p = none

theorem Recorded.answered {ps : List NosPacket} (h : Recorded jhash users ps) (p : NosPacket) :
    Answered jhash users ps p := by
  cases hreach : p.reaches with
  | false =>
    refine ⟨fun _ => ⟨users, portalStep_of_not_reaches hreach, h.wf, ?_⟩, ?_⟩
    · rw [lastOf_concat_of_not_reaches hreach]
      exact h.find
    · intro hno
      exact absurd (fun hr => absurd (hreach.symm.trans hr) Bool.false_ne_true) hno
  | true =>
    have hmac := h.find p.mac
    cases hlast : lastOf ps p.mac with
    | some q =>
      rw [hlast, Option.map_some] at hmac
      refine ⟨fun _ => ⟨_, portalStep_known hreach hmac rfl, ?_, ?_⟩, ?_⟩
      · exact h.wf.of_macs (macs_userUpdate fun _ => rfl)
      · intro mac
        have hmacs : ∀ v : UserNode,
            ({ v with jf := p.jiffies, ip := p.skb.saddr } : UserNode).mac = v.mac := fun _ => rfl
        rw [userHashFind_userUpdate hmacs, lastOf_concat_of_reaches hreach]
        rcases eq_or_ne mac p.mac with rfl | hne
        · rw [if_pos rfl, Function.update_self, hmac]
          have hq : q.mac = p.mac := mac_of_userHashFind hmac
          rw [Option.map_some, Option.map_some, NosPacket.node, NosPacket.node, hq]
        · rw [if_neg hne, Function.update_of_ne hne, h.find]
      · intro hno
        exact absurd (fun _ hnone => absurd (hlast.symm.trans hnone) (by simp)) hno
    | none =>
      rw [hlast, Option.map_none] at hmac
      have hstep := portalStep_new hreach hmac
      refine ⟨fun hfinds => ⟨(userHashAdd jhash users p.node).2, ?_, ?_, ?_⟩, ?_⟩
      · rw [hstep, if_pos (hfinds hreach hlast)]
      · exact h.wf.add hmac
      · intro mac
        rw [lastOf_concat_of_reaches hreach]
        rcases eq_or_ne mac p.mac with rfl | hne
        · rw [Function.update_self]
          exact userHashFind_userHashAdd (n := p.node) hmac
        · rw [Function.update_of_ne hne, ← h.find]
          exact userHashFind_userHashAdd_of_ne (n := p.node) hmac hne
      · intro hno
        rw [hstep, if_neg]
        exact fun hk => hno fun _ _ => hk

end Step

/-! ## 5. Any number of packets -/

section Run

variable {jhash : List Byte → BitVec 32} {users : Users} {before ps : List NosPacket}

/-- As long as the packets find what they need, they are answered one by one, and recorded. -/
theorem Recorded.answers (h : Recorded jhash users before) (hfind : AllFind before ps) :
    ∃ t, EventRun.answers (portalStep jhash) users ps = some (t, ps.map NosPacket.answer) ∧
      Recorded jhash t (before ++ ps) := by
  induction ps generalizing users before with
  | nil => exact ⟨users, rfl, (List.append_nil before).symm ▸ h⟩
  | cons p ps ih =>
    obtain ⟨hp, hps⟩ := hfind
    obtain ⟨s, hstep, hs⟩ := (h.answered p).step hp
    obtain ⟨t, hrun, ht⟩ := ih hs hps
    rw [List.append_assoc, List.singleton_append] at ht
    exact ⟨t, answers_cons hstep hrun, ht⟩

/-- The first packet that does not is the end. -/
theorem Recorded.answers_eq_none (h : Recorded jhash users before) (hno : ¬ AllFind before ps) :
    EventRun.answers (portalStep jhash) users ps = none := by
  induction ps generalizing users before with
  | nil => exact absurd trivial hno
  | cons p ps ih =>
    by_cases hp : p.Finds before
    · obtain ⟨s, hstep, hs⟩ := (h.answered p).step hp
      have hrest : EventRun.answers (portalStep jhash) s ps = none :=
        ih hs fun hps => hno ⟨hp, hps⟩
      rw [EventRun.answers, hstep, Option.bind_some, hrest, Option.map_none]
    · rw [EventRun.answers, (h.answered p).stop hp, Option.bind_none]

end Run

/-- A run that the kernel lives through. -/
theorem answers_recorded {jhash : List Byte → BitVec 32} {ps : List NosPacket} {t : Users}
    {ws : List (Verdict × Option String)}
    (h : answers (portalStep jhash) noUsers ps = some (t, ws)) :
    ws = ps.map NosPacket.answer ∧ Recorded jhash t ps := by
  have hstart := recorded_noUsers jhash
  by_cases hfind : AllFind [] ps
  · obtain ⟨t', hrun, hrec⟩ := hstart.answers hfind
    obtain ⟨rfl, rfl⟩ := Prod.mk.inj (Option.some.inj (hrun.symm.trans h))
    exact ⟨rfl, hrec⟩
  · exact absurd ((hstart.answers_eq_none hfind).symm.trans h) (by simp)

/-- **The portal, from its start on.**  For any hash function, the kernel lives through a run
exactly if the first packet of each sender finds a block.  Every packet was then answered by what
is in it alone, and the table has one node for each sender that got as far as the table, with
what its last packet said. -/
theorem nosPortal_run (jhash : List Byte → BitVec 32) (ps : List NosPacket) :
    ((answers (portalStep jhash) noUsers ps).isSome = true ↔ AllFind [] ps) ∧
      ∀ t ws, answers (portalStep jhash) noUsers ps = some (t, ws) →
        ws = ps.map NosPacket.answer ∧ UsersWf jhash t ∧
          ∀ mac, userHashFind jhash t mac = (lastOf ps mac).map NosPacket.node := by
  have hstart := recorded_noUsers jhash
  constructor
  · constructor
    · intro h
      by_contra hno
      rw [hstart.answers_eq_none hno] at h
      exact absurd h Bool.false_ne_true
    · intro hfind
      obtain ⟨t, hrun, -⟩ := hstart.answers hfind
      rw [hrun]
      rfl
  · intro t ws h
    obtain ⟨hws, hwf, hlast⟩ := answers_recorded h
    exact ⟨hws, hwf, hlast⟩

end Puppies
