/-
# The first packets of a client (`drivers/nos/src/nos_hooks.c`)

`nos_do` looks the sender of a packet up in the table of users, and if there is no node for it,
allocates one and adds it.  Nothing is locked in between, and packets are handled on several
CPUs at once.  `user_hash_add` looks the address up again and refuses to add it twice; but
`nos_do` takes that for impossible, and `BUG_ON(ret != 1)` brings the machine down.

This file is the machine of any number of packets in `nos_do`, with the look-up, the allocation
and the addition of each as separate steps (`nosStep`).  A look-up that fails is ALONE if no
other packet of the same sender is between its own failed look-up and its addition; the bug is
never reached, and every sender gets exactly one node, if every one is (`firstPacket_iff`).
-/
import Puppies.Lib.Runs
import Puppies.Nos.Portal

namespace Puppies

open ByteMem EventRun

/-! ## 1. The machine -/

/-- How far `nos_do` is with a packet. -/
inductive NosPc
  | start
  /-- the sender has a node -/
  | found
  /-- the sender has none -/
  | missed
  /-- and one was allocated, which nobody else knows -/
  | allocated
  /-- what is left to do does not touch the table -/
  | done
  /-- the packet does not go from the LAN to the WAN -/
  | passed
  /-- a `BUG_ON` was reached -/
  | bug (b : NosBug)
  deriving DecidableEq

/-- Between a look-up that failed and the addition. -/
def NosPc.midway : NosPc → Bool
  | .missed | .allocated => true
  | _ => false

/-- What does not change: the hash, and the packets and the devices that they pass. -/
structure NosCfg where
  jhash : List Byte → BitVec 32
  skb : Nat → SkBuff
  dev : Nat → Devices

/-- The sender of packet `k`. -/
def NosCfg.mac (cfg : NosCfg) (k : Nat) : Mac := macSource (cfg.skb k)

/-- `check_dir`, for packet `k`. -/
def NosCfg.toWan (cfg : NosCfg) (k : Nat) : Bool :=
  checkDir (cfg.dev k).inName (cfg.dev k).outName

/-- The table, and where everybody is. -/
structure NosState where
  users : Users
  pc : Nat → NosPc

/-- One step with one packet. -/
inductive NosEvent
  /-- `check_dir` and `user_hash_find` -/
  | look (k : Nat)
  /-- the stores through the pointer that was found -/
  | touch (k : Nat) (jiffies : BitVec 32)
  | kmalloc (k : Nat) (ok : Bool)
  /-- `user_hash_add`, and the test of what it returns -/
  | add (k : Nat) (jiffies : BitVec 32)

/-- Packet `k` is now at `p`. -/
def NosState.goto (s : NosState) (k : Nat) (p : NosPc) : NosState :=
  { s with pc := Function.update s.pc k p }

/-- The stores `user->jf = jiffies; user->ip = iph->saddr`. -/
def NosCfg.touched (cfg : NosCfg) (k : Nat) (jiffies : BitVec 32) (u : UserNode) : UserNode :=
  { u with jf := jiffies, ip := (cfg.skb k).saddr }

/-- The node that `nos_do` makes for the sender of packet `k`. -/
def NosCfg.node (cfg : NosCfg) (k : Nat) (jiffies : BitVec 32) : UserNode :=
  newNode ⟨cfg.jhash, jiffies, true⟩ (cfg.skb k)

/-- One step. -/
def nosStep (cfg : NosCfg) (s : NosState) : NosEvent → Option NosState
  | .look k =>
    if s.pc k = .start then
      if !cfg.toWan k then some (s.goto k .passed)
      else match userHashFind cfg.jhash s.users (cfg.mac k) with
        | some _ => some (s.goto k .found)
        | none => some (s.goto k .missed)
    else none
  | .touch k jiffies =>
    if s.pc k = .found then
      some { s.goto k .done with
        users := userUpdate cfg.jhash s.users (cfg.mac k) (cfg.touched k jiffies) }
    else none
  | .kmalloc k ok =>
    if s.pc k = .missed then some (s.goto k (if !ok then .bug .noNode else .allocated)) else none
  | .add k jiffies =>
    if s.pc k = .allocated then
      let r := userHashAdd cfg.jhash s.users (cfg.node k jiffies)
      some { s.goto k (if r.1 ≠ 1 then .bug .notAdded else .done) with users := r.2 }
    else none

/-- Nothing has been done with any packet. -/
def nosInit (users : Users) : NosState := ⟨users, fun _ => .start⟩

/-- What each step is, with what it needs: the only place where `nosStep` is unfolded. -/
inductive NosMove (cfg : NosCfg) (s : NosState) : NosEvent → NosState → Prop
  | pass {k : Nat} (hpc : s.pc k = .start) (hwan : cfg.toWan k = false) :
      NosMove cfg s (.look k) (s.goto k .passed)
  | found {k : Nat} (hpc : s.pc k = .start) (hknown : Known cfg.jhash s.users (cfg.mac k)) :
      NosMove cfg s (.look k) (s.goto k .found)
  | missed {k : Nat} (hpc : s.pc k = .start) (hwan : cfg.toWan k = true)
      (hnew : ¬ Known cfg.jhash s.users (cfg.mac k)) : NosMove cfg s (.look k) (s.goto k .missed)
  | touch {k : Nat} {jiffies : BitVec 32} (hpc : s.pc k = .found) :
      NosMove cfg s (.touch k jiffies) { s.goto k .done with
        users := userUpdate cfg.jhash s.users (cfg.mac k) (cfg.touched k jiffies) }
  | allocate {k : Nat} (hpc : s.pc k = .missed) :
      NosMove cfg s (.kmalloc k true) (s.goto k .allocated)
  | noNode {k : Nat} (hpc : s.pc k = .missed) :
      NosMove cfg s (.kmalloc k false) (s.goto k (.bug .noNode))
  | add {k : Nat} {jiffies : BitVec 32} (hpc : s.pc k = .allocated)
      (hnew : ¬ Known cfg.jhash s.users (cfg.mac k)) :
      NosMove cfg s (.add k jiffies) { s.goto k .done with
        users := (userHashAdd cfg.jhash s.users (cfg.node k jiffies)).2 }
  | notAdded {k : Nat} {jiffies : BitVec 32} (hpc : s.pc k = .allocated)
      (hknown : Known cfg.jhash s.users (cfg.mac k)) :
      NosMove cfg s (.add k jiffies) (s.goto k (.bug .notAdded))

/-- The node is not in the table yet: it is added. -/
theorem userHashAdd_node {cfg : NosCfg} {users : Users} {k : Nat} (jiffies : BitVec 32)
    (hnew : ¬ Known cfg.jhash users (cfg.mac k)) :
    userHashFind cfg.jhash users (cfg.node k jiffies).mac = none :=
  userHashFind_eq_none_iff.mpr hnew

theorem nosMove_of_step {cfg : NosCfg} {s t : NosState} {e : NosEvent}
    (h : nosStep cfg s e = some t) : NosMove cfg s e t := by
  cases e with
  | look k =>
    simp only [nosStep, Option.ite_none_right_eq_some] at h
    obtain ⟨hpc, h⟩ := h
    split at h
    · rename_i hwan
      rw [Option.some.injEq] at h
      exact h ▸ .pass hpc (by simpa using hwan)
    · rename_i hwan
      split at h
      · rename_i u hfind
        rw [Option.some.injEq] at h
        refine h ▸ .found hpc ?_
        by_contra hnew
        rw [userHashFind_eq_none_iff.mpr hnew] at hfind
        exact absurd hfind (by simp)
      · rename_i hfind
        rw [Option.some.injEq] at h
        exact h ▸ .missed hpc (by simpa using hwan) (userHashFind_eq_none_iff.mp hfind)
  | touch k jiffies =>
    simp only [nosStep, Option.ite_none_right_eq_some, Option.some.injEq] at h
    exact h.2 ▸ .touch h.1
  | kmalloc k ok =>
    simp only [nosStep, Option.ite_none_right_eq_some, Option.some.injEq] at h
    cases ok with
    | true => exact h.2 ▸ .allocate h.1
    | false => exact h.2 ▸ .noNode h.1
  | add k jiffies =>
    simp only [nosStep, Option.ite_none_right_eq_some, Option.some.injEq] at h
    obtain ⟨hpc, rfl⟩ := h
    by_cases hknown : Known cfg.jhash s.users (cfg.mac k)
    · have hadd : userHashAdd cfg.jhash s.users (cfg.node k jiffies) = (0, s.users) := by
        cases hfind : userHashFind cfg.jhash s.users (cfg.mac k) with
        | none => exact absurd hknown (userHashFind_eq_none_iff.mp hfind)
        | some u =>
          have hfind' : userHashFind cfg.jhash s.users (cfg.node k jiffies).mac = some u := hfind
          rw [userHashAdd, hfind']
      rw [hadd]
      exact .notAdded hpc hknown
    · rw [userHashAdd_of_find_none (userHashAdd_node _ hknown)]
      exact .add hpc hknown

/-! ## 2. A packet on its own -/

theorem nosFilter_users (skb : SkBuff) (users : Users) : (nosFilter skb users).users = users := by
  unfold nosFilter
  split
  · split
    · rfl
    · rfl
  · split
    · rfl
    · split
      · rfl
      · rfl

/-- **A packet that nobody interrupts** does to the table what `nos_do` does, and reaches the
same bug if it reaches one. -/
theorem nosRun_nosDo (cfg : NosCfg) (users : Users) (k : Nat) (jiffies : BitVec 32) (ok : Bool) :
    ∃ es t, run (nosStep cfg) (nosInit users) es = some t ∧
      match nosDo ⟨cfg.jhash, jiffies, ok⟩ users (cfg.skb k) (cfg.dev k) with
      | .ok r => (t.pc k = .done ∨ t.pc k = .passed) ∧ t.users = r.users
      | .error b => t.pc k = .bug b := by
  unfold nosDo
  by_cases hwan : cfg.toWan k = true
  · rw [if_neg (by simpa [NosCfg.toWan] using hwan)]
    dsimp only
    cases hfind : userHashFind cfg.jhash users (macSource (cfg.skb k)) with
    | some u =>
      refine ⟨[.look k, .touch k jiffies], _, by
        simp [run_cons, nosStep, nosInit, NosState.goto, hwan, NosCfg.mac, hfind]
        rfl, ?_⟩
      dsimp only
      split
      · rename_i r hr
        split at hr
        · obtain rfl := Except.ok.inj hr
          exact ⟨Or.inl (by simp), rfl⟩
        · obtain rfl := Except.ok.inj hr
          rw [nosFilter_users]
          exact ⟨Or.inl (by simp), rfl⟩
      · rename_i b hb
        split at hb
        · exact absurd hb (by simp)
        · exact absurd hb (by simp)
    | none =>
      cases ok with
      | false =>
        refine ⟨[.look k, .kmalloc k false], _, by
          simp [run_cons, nosStep, nosInit, NosState.goto, hwan, NosCfg.mac, hfind]
          rfl, ?_⟩
        simp
      | true =>
        have hadd := userHashAdd_of_find_none
          (n := newNode ⟨cfg.jhash, jiffies, true⟩ (cfg.skb k)) hfind
        refine ⟨[.look k, .kmalloc k true, .add k jiffies], _, by
          simp [run_cons, nosStep, nosInit, NosState.goto, hwan, NosCfg.mac, hfind]
          rfl, ?_⟩
        simp [hadd, NosCfg.node, nosFilter_users]
  · refine ⟨[.look k], (nosInit users).goto k .passed, ?_, ?_⟩
    · simp [nosStep, nosInit, hwan]
    · rw [if_pos (by simpa [NosCfg.toWan] using hwan)]
      exact ⟨Or.inr (by simp [NosState.goto]), rfl⟩

/-! ## 3. When every sender gets one node -/

/-- What the module relies on: the second `BUG_ON` is not reached, and the sender of a packet
that went through has exactly one node. -/
structure NosSafe (cfg : NosCfg) (s : NosState) : Prop where
  noBug : ∀ k, s.pc k ≠ .bug .notAdded
  oneNode : ∀ k, s.pc k = .done → OneNode cfg.jhash s.users (cfg.mac k)

/-- The condition on a step: a look-up that fails happens while no other packet of the same
sender is between its failed look-up and its addition. -/
def LooksAlone (cfg : NosCfg) (s : NosState) : NosEvent → Prop
  | .look k => cfg.toWan k = true → ¬ Known cfg.jhash s.users (cfg.mac k) →
      ∀ j, (s.pc j).midway = true → cfg.mac j ≠ cfg.mac k
  | _ => True

/-- What is known about the sender of a packet that is at the given place. -/
def CallOk (cfg : NosCfg) (users : Users) (k : Nat) : NosPc → Prop
  | .found | .done => Known cfg.jhash users (cfg.mac k)
  | .missed | .allocated => ¬ Known cfg.jhash users (cfg.mac k)
  | .bug b => b ≠ .notAdded
  | _ => True

/-- What a run keeps whose look-ups are alone. -/
structure FirstInv (cfg : NosCfg) (s : NosState) : Prop where
  wf : UsersWf cfg.jhash s.users
  call : ∀ k, CallOk cfg s.users k (s.pc k)
  apart : ∀ j k, (s.pc j).midway = true → (s.pc k).midway = true → cfg.mac j = cfg.mac k → j = k

theorem FirstInv.safe {cfg : NosCfg} {s : NosState} (h : FirstInv cfg s) : NosSafe cfg s := by
  constructor
  · intro k hk
    have := h.call k
    rw [hk] at this
    exact this rfl
  · intro k hk
    have := h.call k
    rw [hk] at this
    exact h.wf.oneNode this

theorem FirstInv.midway_new {cfg : NosCfg} {s : NosState} {k : Nat} (h : FirstInv cfg s)
    (hk : (s.pc k).midway = true) : ¬ Known cfg.jhash s.users (cfg.mac k) := by
  have := h.call k
  cases hpc : s.pc k with
  | missed => rwa [hpc] at this
  | allocated => rwa [hpc] at this
  | _ =>
    rw [hpc] at hk
    exact absurd hk (by simp [NosPc.midway])

/-- One packet moves, and the addresses in the table stay. -/
theorem FirstInv.of_macs {cfg : NosCfg} {s t : NosState} {k : Nat} {p : NosPc}
    (h : FirstInv cfg s) (hpc : t.pc = Function.update s.pc k p)
    (hmacs : macs t.users = macs s.users) (hp : CallOk cfg s.users k p)
    (hapart : p.midway = true → ∀ j, j ≠ k → (s.pc j).midway = true → cfg.mac j ≠ cfg.mac k) :
    FirstInv cfg t := by
  have hsame : ∀ j q, CallOk cfg s.users j q → CallOk cfg t.users j q := by
    intro j q hq
    cases q with
    | found => exact Known.of_macs hq hmacs
    | done => exact Known.of_macs hq hmacs
    | missed => exact fun hknown => hq (Known.of_macs hknown hmacs.symm)
    | allocated => exact fun hknown => hq (Known.of_macs hknown hmacs.symm)
    | _ => exact hq
  refine ⟨h.wf.of_macs hmacs, ?_, ?_⟩
  · intro j
    rw [hpc]
    rcases eq_or_ne j k with rfl | hj
    · rw [Function.update_self]
      exact hsame j p hp
    · rw [Function.update_of_ne hj]
      exact hsame j _ (h.call j)
  · intro i j hi hj heq
    rw [hpc] at hi hj
    rcases eq_or_ne i k with rfl | hik
    · rcases eq_or_ne j i with rfl | hji
      · rfl
      · rw [Function.update_self] at hi
        rw [Function.update_of_ne hji] at hj
        exact absurd heq.symm (hapart hi j hji hj)
    · rw [Function.update_of_ne hik] at hi
      rcases eq_or_ne j k with rfl | hjk
      · rw [Function.update_self] at hj
        exact absurd heq (hapart hj i hik hi)
      · rw [Function.update_of_ne hjk] at hj
        exact h.apart i j hi hj heq

/-- The addition: the other packets on the way are of other senders. -/
theorem FirstInv.add {cfg : NosCfg} {s : NosState} {k : Nat} {jiffies : BitVec 32}
    (h : FirstInv cfg s) (hpc : s.pc k = .allocated)
    (hnew : ¬ Known cfg.jhash s.users (cfg.mac k)) :
    FirstInv cfg { s.goto k .done with
      users := (userHashAdd cfg.jhash s.users (cfg.node k jiffies)).2 } := by
  have hfind := userHashAdd_node jiffies hnew
  have hknown : ∀ mac, Known cfg.jhash (userHashAdd cfg.jhash s.users (cfg.node k jiffies)).2 mac ↔
      mac = cfg.mac k ∨ Known cfg.jhash s.users mac := fun mac => known_userHashAdd hfind
  have hmid : (s.pc k).midway = true := by rw [hpc]; rfl
  refine ⟨h.wf.add hfind, ?_, ?_⟩
  · intro j
    rcases eq_or_ne j k with rfl | hj
    · simp [NosState.goto, CallOk, hknown]
    · simp only [NosState.goto, Function.update_of_ne hj]
      have hcall := h.call j
      have hapart := h.apart j k
      cases hq : s.pc j with
      | found =>
        rw [hq] at hcall
        exact (hknown _).mpr (Or.inr hcall)
      | done =>
        rw [hq] at hcall
        exact (hknown _).mpr (Or.inr hcall)
      | missed =>
        rw [hq] at hcall hapart
        exact fun hk => ((hknown _).mp hk).elim (fun heq => hj (hapart rfl hmid heq)) hcall
      | allocated =>
        rw [hq] at hcall hapart
        exact fun hk => ((hknown _).mp hk).elim (fun heq => hj (hapart rfl hmid heq)) hcall
      | start => trivial
      | passed => trivial
      | bug b =>
        rw [hq] at hcall
        exact hcall
  · intro i j hi hj heq
    have hne : ∀ j, ((s.goto k .done).pc j).midway = true → (s.pc j).midway = true := by
      intro j hj
      rcases eq_or_ne j k with rfl | hjk
      · exact hmid
      · simpa [NosState.goto, Function.update_of_ne hjk] using hj
    exact h.apart i j (hne i hi) (hne j hj) heq

/-- **One step** with a look-up that is alone, or any other. -/
theorem nosMove_firstInv {cfg : NosCfg} {s t : NosState} {e : NosEvent} (h : FirstInv cfg s)
    (hok : LooksAlone cfg s e) (hm : NosMove cfg s e t) : FirstInv cfg t := by
  cases hm with
  | pass hpc hwan => exact h.of_macs rfl rfl trivial (by simp [NosPc.midway])
  | found hpc hknown => exact h.of_macs rfl rfl hknown (by simp [NosPc.midway])
  | missed hpc hwan hnew =>
    exact h.of_macs rfl rfl hnew fun _ j _ hj => hok hwan hnew j hj
  | @touch k jiffies hpc =>
    have hcall := h.call k
    rw [hpc] at hcall
    exact h.of_macs rfl (macs_userUpdate fun _ => rfl) hcall (by simp [NosPc.midway])
  | @allocate k hpc =>
    have hmid : (s.pc k).midway = true := by rw [hpc]; rfl
    exact h.of_macs rfl rfl (h.midway_new hmid) fun _ j hjk hj heq =>
      hjk (h.apart j k hj hmid heq)
  | noNode hpc => exact h.of_macs rfl rfl (by simp [CallOk]) (by simp [NosPc.midway])
  | add hpc hnew => exact h.add hpc hnew
  | @notAdded k jiffies hpc hknown => exact absurd hknown (h.midway_new (by rw [hpc]; rfl))

/-! ## 4. And when one does not

After a look-up that is not alone, two packets of one sender are on the way to add it.  Whoever
comes second finds the first one's node. -/

/-- Somebody is going to reach a `BUG_ON`, or has. -/
inductive Doomed (cfg : NosCfg) (s : NosState) : Prop
  | both {j k : Nat} (hne : j ≠ k) (hj : (s.pc j).midway = true) (hk : (s.pc k).midway = true)
      (hmac : cfg.mac j = cfg.mac k)
  | late {k : Nat} (hk : (s.pc k).midway = true) (hknown : Known cfg.jhash s.users (cfg.mac k))
  | bug {k : Nat} {b : NosBug} (hk : s.pc k = .bug b)

/-- A packet that has nothing to add moves. -/
theorem Doomed.of_known {cfg : NosCfg} {s t : NosState} {k : Nat} {p : NosPc} (h : Doomed cfg s)
    (hpc : t.pc = Function.update s.pc k p) (hk : (s.pc k).midway = false)
    (hkb : ∀ b, s.pc k ≠ .bug b)
    (hknown : ∀ mac, Known cfg.jhash s.users mac → Known cfg.jhash t.users mac) : Doomed cfg t := by
  have hsame : ∀ j, j ≠ k → t.pc j = s.pc j := by
    intro j hj
    rw [hpc, Function.update_of_ne hj]
  have hmid : ∀ j, (s.pc j).midway = true → (t.pc j).midway = true := by
    intro j hj
    rwa [hsame j fun heq => by rw [heq, hk] at hj; exact absurd hj Bool.false_ne_true]
  cases h with
  | both hne hj hk' hmac => exact .both hne (hmid _ hj) (hmid _ hk') hmac
  | late hk' hkn => exact .late (hmid _ hk') (hknown _ hkn)
  | @bug j b hj =>
    refine .bug (k := j) (b := b) ?_
    rw [hsame j fun heq => hkb b (heq ▸ hj)]
    exact hj

/-- The packets that do not move. -/
theorem NosState.pc_goto_of_ne {s : NosState} {j k : Nat} {p : NosPc} (hjk : j ≠ k) :
    (s.goto k p).pc j = s.pc j := by
  simp [NosState.goto, Function.update_of_ne hjk]

theorem NosState.midway_goto {s : NosState} {j k : Nat} {p : NosPc} (hjk : j ≠ k)
    (hj : (s.pc j).midway = true) : ((s.goto k p).pc j).midway = true := by
  rwa [NosState.pc_goto_of_ne hjk]

/-- A packet that reached a `BUG_ON` does not move. -/
theorem Doomed.stays {cfg : NosCfg} {s t : NosState} {j k : Nat} {b : NosBug} {p : NosPc}
    (hj : s.pc j = .bug b) (hk : s.pc k = .allocated ∨ s.pc k = .missed)
    (ht : t.pc = (s.goto k p).pc) : Doomed cfg t := by
  have hjk : j ≠ k := by
    rintro rfl
    rw [hj] at hk
    simp at hk
  refine .bug (k := j) (b := b) ?_
  rw [ht, NosState.pc_goto_of_ne hjk, hj]

theorem nosMove_doomed {cfg : NosCfg} {s t : NosState} {e : NosEvent} (h : Doomed cfg s)
    (hm : NosMove cfg s e t) : Doomed cfg t := by
  cases hm with
  | pass hpc hwan => exact h.of_known rfl (by rw [hpc]; rfl) (by simp [hpc]) fun _ => id
  | found hpc hknown => exact h.of_known rfl (by rw [hpc]; rfl) (by simp [hpc]) fun _ => id
  | missed hpc hwan hnew => exact h.of_known rfl (by rw [hpc]; rfl) (by simp [hpc]) fun _ => id
  | touch hpc =>
    exact h.of_known rfl (by rw [hpc]; rfl) (by simp [hpc]) fun _ hk =>
      hk.of_macs (macs_userUpdate fun _ => rfl)
  | @allocate k hpc =>
    have hmid : ∀ j, (s.pc j).midway = true → ((s.goto k .allocated).pc j).midway = true := by
      intro j hj
      rcases eq_or_ne j k with rfl | hjk
      · simp [NosState.goto, NosPc.midway]
      · exact NosState.midway_goto hjk hj
    cases h with
    | both hne hj hk hmac => exact .both hne (hmid _ hj) (hmid _ hk) hmac
    | late hk hknown => exact .late (hmid _ hk) hknown
    | bug hj => exact .stays hj (Or.inr hpc) rfl
  | @noNode k hpc => exact .bug (k := k) (b := .noNode) (by simp [NosState.goto])
  | @notAdded k jiffies hpc hknown => exact .bug (k := k) (b := .notAdded) (by simp [NosState.goto])
  | @add k jiffies hpc hnew =>
    have hfind := userHashAdd_node jiffies hnew
    -- the other one of the two will find the node
    have hlate : ∀ j, j ≠ k → (s.pc j).midway = true → cfg.mac j = cfg.mac k →
        Doomed cfg { s.goto k .done with
          users := (userHashAdd cfg.jhash s.users (cfg.node k jiffies)).2 } := by
      intro j hjk hj hmac
      exact .late (k := j) (NosState.midway_goto hjk hj)
        ((known_userHashAdd hfind).mpr (Or.inl hmac))
    cases h with
    | @both i j hne hi hj hmac =>
      rcases eq_or_ne i k with rfl | hik
      · exact hlate j hne.symm hj hmac.symm
      · rcases eq_or_ne j k with rfl | hjk
        · exact hlate i hik hi hmac
        · exact .both hne (NosState.midway_goto hik hi) (NosState.midway_goto hjk hj) hmac
    | @late j hj hknown =>
      rcases eq_or_ne j k with rfl | hjk
      · exact absurd hknown hnew
      · exact .late (k := j) (NosState.midway_goto hjk hj)
          ((known_userHashAdd hfind).mpr (Or.inr hknown))
    | bug hj => exact .stays hj (Or.inl hpc) rfl

theorem doomed_of_not_looksAlone {cfg : NosCfg} {s t : NosState} {e : NosEvent}
    (hok : ¬ LooksAlone cfg s e) (hm : NosMove cfg s e t) : Doomed cfg t := by
  cases hm with
  | pass hpc hwan =>
    refine absurd ?_ hok
    intro h
    rw [hwan] at h
    exact absurd h Bool.false_ne_true
  | found hpc hknown => exact absurd (fun _ hnew => absurd hknown hnew) hok
  | @missed k hpc hwan hnew =>
    simp only [LooksAlone, Classical.not_imp, not_forall, not_not] at hok
    obtain ⟨-, -, j, hj, hmac⟩ := hok
    have hjk : j ≠ k := by
      rintro rfl
      rw [hpc] at hj
      exact absurd hj (by decide)
    refine .both hjk (NosState.midway_goto hjk hj) ?_ hmac
    simp [NosState.goto, NosPc.midway]
  | _ => exact absurd trivial hok

theorem Doomed.not_quiet {cfg : NosCfg} {s : NosState} (h : Doomed cfg s) (hs : NosSafe cfg s)
    (hquiet : ∀ k, (s.pc k).midway = false) (hmem : ∀ k, s.pc k ≠ .bug .noNode) : False := by
  cases h with
  | @both j k hne hj hk hmac =>
    rw [hquiet j] at hj
    exact Bool.false_ne_true hj
  | @late k hk hknown =>
    rw [hquiet k] at hk
    exact Bool.false_ne_true hk
  | @bug k b hk =>
    cases b with
    | noNode => exact hmem k hk
    | notAdded => exact hs.noBug k hk

/-- **When the first packets of a client are safe.**  From any table that is as it should be, in
every run of any number of packets from any senders: if every look-up that fails is alone, the
second `BUG_ON` is never reached, and whoever's packet went through has exactly one node.  And
this is exact for runs in which nobody is left on the way and no allocation failed. -/
theorem firstPacket_iff (cfg : NosCfg) (users : { u : Users // UsersWf cfg.jhash u })
    (es : List NosEvent) :
    (AllSteps (nosStep cfg) (LooksAlone cfg) (nosInit users) es →
      AllStates (nosStep cfg) (NosSafe cfg) (nosInit users) es) ∧
    (∀ t, run (nosStep cfg) (nosInit users) es = some t → (∀ k, (t.pc k).midway = false) →
      (∀ k, t.pc k ≠ .bug .noNode) →
        (AllStates (nosStep cfg) (NosSafe cfg) (nosInit users) es ↔
          AllSteps (nosStep cfg) (LooksAlone cfg) (nosInit users) es)) := by
  have hinit : FirstInv cfg (nosInit users) :=
    ⟨users.2, fun _ => trivial, fun _ _ hj => absurd hj (by simp [nosInit, NosPc.midway])⟩
  have hsafe : AllSteps (nosStep cfg) (LooksAlone cfg) (nosInit users) es →
      AllStates (nosStep cfg) (NosSafe cfg) (nosInit users) es := by
    intro hok
    have hinv := allStates_of_allSteps (fun s e t hs hok h =>
      nosMove_firstInv hs hok (nosMove_of_step h)) es _ hinit hok
    exact hinv.mono fun s => FirstInv.safe
  refine ⟨hsafe, fun t hrun hquiet hmem => ⟨?_, hsafe⟩⟩
  intro hall
  exact allSteps_of_run_of_not (fun _ _ _ hs h => nosMove_doomed hs (nosMove_of_step h))
    (fun _ _ _ hok h => doomed_of_not_looksAlone hok (nosMove_of_step h)) hrun
    fun hdoomed => hdoomed.not_quiet (hall.last hrun) hquiet hmem

/-- Every packet goes from the LAN to the WAN, and all are from one client. -/
def oneClient : NosCfg := ⟨fun _ => 0, fun _ => getSegment, fun _ => lanToWan⟩

/-- Two packets of a client that is not known yet are looked up before either adds it: the
second one reaches the `BUG_ON`. -/
theorem firstPacket_broken :
    ∃ s, run (nosStep oneClient) (nosInit fun _ => [])
        [.look 0, .look 1, .kmalloc 0 true, .kmalloc 1 true, .add 0 0, .add 1 0] = some s ∧
      s.pc 0 = .done ∧ s.pc 1 = .bug .notAdded ∧ ¬ NosSafe oneClient s := by
  have h : ((run (nosStep oneClient) (nosInit fun _ => [])
      [.look 0, .look 1, .kmalloc 0 true, .kmalloc 1 true, .add 0 0, .add 1 0]).map fun s =>
        (s.pc 0, s.pc 1)) = some (.done, .bug .notAdded) := by
    decide +kernel
  obtain ⟨s, hs, heq⟩ := exists_run_of_map h
  simp only [Prod.mk.injEq] at heq
  exact ⟨s, hs, heq.1, heq.2, fun hsafe => hsafe.noBug 1 heq.2⟩

end Puppies
