/-
# The captive portal (`drivers/nos/src/nos_hooks.c`)

The forward hook of the module `nos` lets a packet from the LAN to the WAN through if its
sender is online.  For everybody else `nos_do` is meant to pass name queries and the segments
that open and close TCP connections, to answer a web request with a redirect, and to drop the
rest.

The branches are taken in this order: UDP; then the TCP flags; then the payload.  The hook
admits ICMP as well, and an ICMP packet falls through to the two TCP branches, where its bytes
are read as a TCP header.  And the length of the payload is computed with the wrong sign, so
that the request is looked for behind the end of a packet that has no payload.
`portalVerdict_iff` says for which packets `nos_do` does what it is meant to do.
-/
import Puppies.Nos.Users

namespace Puppies

open ByteMem

/-! ## 1. The source -/

/-- `"br-lan"` -/
def brLan : List Byte := [0x62, 0x72, 0x2d, 0x6c, 0x61, 0x6e]

/-- `"eth0.5"` -/
def eth05 : List Byte := [0x65, 0x74, 0x68, 0x30, 0x2e, 0x35]

/-- `check_dir`: both names start as the LAN and the WAN device's do. -/
def checkDir (inname outname : Option (List Byte)) : Bool :=
  match inname, outname with
  | some i, some o => i.take 6 == brLan && o.take 6 == eth05
  | _, _ => false

/-- `NF_DROP` and `NF_ACCEPT`. -/
inductive Verdict
  | drop
  | accept
  deriving DecidableEq, Repr

/-- A `BUG_ON` of `nos_do` that is reached. -/
inductive NosBug
  /-- `BUG_ON(!n)` -/
  | noNode
  /-- `BUG_ON(ret != 1)` -/
  | notAdded
  deriving DecidableEq, Repr

/-- What `nos_do` is given by the kernel besides the packet. -/
structure NosEnv where
  jhash : List Byte → BitVec 32
  jiffies : BitVec 32
  /-- `kmalloc` has a block -/
  kmalloc : Bool

/-- The devices that a packet passes. -/
structure Devices where
  inName : Option (List Byte)
  outName : Option (List Byte)

/-- What a call of `nos_do` did. -/
structure NosResult where
  verdict : Verdict
  users : Users
  /-- the URL that `auth_redirect` was called with; it sends the redirect, and the reset -/
  redirect : Option String

/-- `%02x` -/
def hex2 (b : Byte) : String :=
  String.ofList [Nat.digitChar (b.toNat / 16), Nat.digitChar (b.toNat % 16)]

/-- `URLFMT` up to the place of the Ethernet address. -/
def urlFmtHead : String :=
  "HTTP/1.1 302 Moved Temporarily\r\nLocation: http://10.10.10.10/index.html?mac="

/-- From there to the place of the IP address. -/
def urlFmtIp : String := "&ip="

/-- And the rest. -/
def urlFmtTail : String :=
  "\r\nContent-Type: text/html;\r\nCache-Control: no-cache\r\nContent-Length: 0\r\n\r\n"

/-- `URLFMT`, filled in with the six bytes of the address and the four of `saddr`. -/
def redirectUrl (mac : Mac) (saddr : List Byte) : String :=
  urlFmtHead ++ ":".intercalate (mac.1.map hex2) ++ urlFmtIp ++
    ".".intercalate (saddr.map fun b => toString b.toNat) ++ urlFmtTail

/-- The node of a sender that was not seen before. -/
def newNode (env : NosEnv) (skb : SkBuff) : UserNode :=
  ⟨skb.saddr, env.jiffies, 0, macSource skb⟩

/-- `paylen`, as `nos_do` computes it: the length of the TCP header is ADDED. -/
def paylen (skb : SkBuff) : Int :=
  (skb.len - BitVec.ofNat 32 skb.ihl + BitVec.ofNat 32 skb.doff).toInt

/-- The part of `nos_do` that decides about the packet of a sender who is not online. -/
def nosFilter (skb : SkBuff) (users : Users) : NosResult :=
  if skb.protocol = IPPROTO_UDP then
    if skb.udpDest = 53 then ⟨.accept, users, none⟩ else ⟨.drop, users, none⟩
  else if skb.syn || skb.fin || skb.rst then ⟨.accept, users, none⟩
  else if paylen skb ≤ 0 || !startsNoCase skb.data skb.payloadOff GET then ⟨.drop, users, none⟩
  else ⟨.drop, users, some (redirectUrl (macSource skb) (read skb.data 12 4))⟩

/-- `nos_do` -/
def nosDo (env : NosEnv) (users : Users) (skb : SkBuff) (dev : Devices) :
    Except NosBug NosResult :=
  if !checkDir dev.inName dev.outName then .ok ⟨.accept, users, none⟩
  else
    let mac := macSource skb
    match userHashFind env.jhash users mac with
    | some user =>
      let users := userUpdate env.jhash users mac fun u =>
        { u with jf := env.jiffies, ip := skb.saddr }
      if user.status = 1 then .ok ⟨.accept, users, none⟩ else .ok (nosFilter skb users)
    | none =>
      if !env.kmalloc then .error .noNode
      else
        let r := userHashAdd env.jhash users (newNode env skb)
        if r.1 ≠ 1 then .error .notAdded else .ok (nosFilter skb r.2)

/-- `nos_hook_fw`: `copied` says whether the packet is in one piece, or could be copied into
one, and `found` whether its connection has a record of the tracker. -/
def nosHookFw (env : NosEnv) (users : Users) (ct : Conntrack) (copied found : Bool)
    (skb : SkBuff) (dev : Devices) : Except NosBug NosResult :=
  if ct ≠ .tracked then .ok ⟨.accept, users, none⟩
  else if protocolFiltered skb then .ok ⟨.accept, users, none⟩
  else if addressFiltered skb then .ok ⟨.accept, users, none⟩
  else if !copied then .ok ⟨.accept, users, none⟩
  else if !found then .ok ⟨.accept, users, none⟩
  else nosDo env users skb dev

/-! ## 2. What the portal is for -/

/-- A name query. -/
def DnsQuery (skb : SkBuff) : Prop := skb.protocol = IPPROTO_UDP ∧ skb.udpDest = 53

/-- A segment that opens or closes a connection. -/
def TcpControl (skb : SkBuff) : Prop :=
  skb.protocol = IPPROTO_TCP ∧ (skb.syn || skb.fin || skb.rst) = true

/-- A TCP segment with a payload that starts with `GET`, in any case. -/
def TcpGet (skb : SkBuff) : Prop :=
  skb.protocol = IPPROTO_TCP ∧ skb.payloadOff + GET.length ≤ skb.len.toNat ∧
    startsNoCase skb.data skb.payloadOff GET = true

/-- The verdict that a packet of a sender who is not online is to get. -/
structure PortalVerdict (skb : SkBuff) (r : NosResult) : Prop where
  accept_iff : r.verdict = .accept ↔ DnsQuery skb ∨ TcpControl skb
  redirect : r.redirect ≠ none → TcpGet skb

/-- The packets on which the branches of `nos_do` meet the purpose. -/
structure FilterCondition (skb : SkBuff) : Prop where
  /-- an ICMP packet has none of the three bits set where a TCP header has its flags -/
  icmp : skb.protocol = IPPROTO_ICMP → (skb.syn || skb.fin || skb.rst) = false
  /-- if the comparison with `GET` is reached and succeeds, then on bytes of a TCP segment -/
  get : skb.protocol ≠ IPPROTO_UDP → (skb.syn || skb.fin || skb.rst) = false →
    0 < paylen skb → startsNoCase skb.data skb.payloadOff GET = true →
      skb.protocol = IPPROTO_TCP ∧ skb.payloadOff + GET.length ≤ skb.len.toNat

/-- The packets, and the states of the table, on which all of `nos_do` does. -/
structure PortalCondition (env : NosEnv) (users : Users) (skb : SkBuff) : Prop
    extends FilterCondition skb where
  /-- a node can be had for a sender that was not seen before -/
  node : userHashFind env.jhash users (macSource skb) = none → env.kmalloc = true

/-! ## 3. When the portal keeps its purpose -/

/-- The filter of `nos_hook_fw` lets three protocols through. -/
theorem protocol_cases {skb : SkBuff} (h : protocolFiltered skb = false) :
    skb.protocol = IPPROTO_TCP ∨ skb.protocol = IPPROTO_UDP ∨ skb.protocol = IPPROTO_ICMP := by
  simp only [protocolFiltered, Bool.and_eq_false_iff, bne_eq_false_iff_eq, or_assoc] at h
  exact h

section Filter

variable {skb : SkBuff} {users : Users}

/-- A UDP packet gets the verdict it is meant to get. -/
theorem portalVerdict_of_udp (h : skb.protocol = IPPROTO_UDP) :
    PortalVerdict skb (nosFilter skb users) := by
  have hne : ¬ TcpControl skb := by
    rintro ⟨htcp, -⟩
    rw [h] at htcp
    exact absurd htcp (by decide)
  unfold nosFilter
  rw [if_pos h]
  split
  · rename_i hdns
    exact ⟨⟨fun _ => Or.inl ⟨h, hdns⟩, fun _ => rfl⟩, by simp⟩
  · rename_i hdns
    refine ⟨⟨by simp, ?_⟩, by simp⟩
    rintro (⟨-, hdns'⟩ | htcp)
    · exact absurd hdns' hdns
    · exact absurd htcp hne

/-- Everything else with one of the three bits set is accepted. -/
theorem portalVerdict_of_flags (h : skb.protocol ≠ IPPROTO_UDP)
    (hflags : (skb.syn || skb.fin || skb.rst) = true) :
    PortalVerdict skb (nosFilter skb users) ↔ skb.protocol = IPPROTO_TCP := by
  unfold nosFilter
  rw [if_neg h, if_pos hflags]
  constructor
  · intro hv
    rcases hv.accept_iff.mp rfl with hdns | htcp
    · exact absurd hdns.1 h
    · exact htcp.1
  · intro htcp
    exact ⟨⟨fun _ => Or.inr ⟨htcp, hflags⟩, fun _ => rfl⟩, by simp⟩

/-- And the rest is dropped, with or without a redirect. -/
theorem portalVerdict_of_no_flags (h : skb.protocol ≠ IPPROTO_UDP)
    (hflags : (skb.syn || skb.fin || skb.rst) = false) :
    PortalVerdict skb (nosFilter skb users) ↔
      (0 < paylen skb → startsNoCase skb.data skb.payloadOff GET = true → TcpGet skb) := by
  have hdrop : ¬ (DnsQuery skb ∨ TcpControl skb) := by
    rintro (⟨hudp, -⟩ | ⟨-, hctl⟩)
    · exact h hudp
    · rw [hflags] at hctl
      exact absurd hctl Bool.false_ne_true
  unfold nosFilter
  rw [if_neg h, if_neg (by simp [hflags])]
  split
  · rename_i hno
    refine ⟨?_, fun _ => ⟨⟨by simp, fun ha => absurd ha hdrop⟩, by simp⟩⟩
    intro _ hpos hget
    simp only [hget, Bool.not_true, Bool.or_false, decide_eq_true_eq] at hno
    omega
  · rename_i hyes
    simp only [Bool.or_eq_true, decide_eq_true_eq, Bool.not_eq_true', not_or, Int.not_le,
      Bool.not_eq_false] at hyes
    refine ⟨fun hv _ _ => hv.redirect (by simp), ?_⟩
    intro hget
    exact ⟨⟨by simp, fun ha => absurd ha hdrop⟩, fun _ => hget hyes.1 hyes.2⟩

/-- **The branches, exactly.** -/
theorem nosFilter_portalVerdict_iff (hproto : protocolFiltered skb = false) :
    PortalVerdict skb (nosFilter skb users) ↔ FilterCondition skb := by
  rcases protocol_cases hproto with htcp | hudp | hicmp
  · have hudp : skb.protocol ≠ IPPROTO_UDP := by rw [htcp]; decide
    have hicmp : skb.protocol ≠ IPPROTO_ICMP := by rw [htcp]; decide
    cases hflags : (skb.syn || skb.fin || skb.rst) with
    | true =>
      rw [portalVerdict_of_flags hudp hflags]
      exact ⟨fun _ => ⟨fun h => absurd h hicmp, by simp [hflags]⟩, fun _ => htcp⟩
    | false =>
      rw [portalVerdict_of_no_flags hudp hflags]
      constructor
      · intro h
        exact ⟨fun h => absurd h hicmp, fun _ _ hpos hget => ⟨htcp, (h hpos hget).2.1⟩⟩
      · intro h hpos hget
        exact ⟨htcp, (h.get hudp hflags hpos hget).2, hget⟩
  · refine ⟨fun _ => ⟨?_, fun h => absurd hudp h⟩, fun _ => portalVerdict_of_udp hudp⟩
    intro h
    rw [hudp] at h
    exact absurd h (by decide)
  · have hudp : skb.protocol ≠ IPPROTO_UDP := by rw [hicmp]; decide
    have htcp : skb.protocol ≠ IPPROTO_TCP := by rw [hicmp]; decide
    cases hflags : (skb.syn || skb.fin || skb.rst) with
    | true =>
      rw [portalVerdict_of_flags hudp hflags]
      refine ⟨fun h => absurd h htcp, ?_⟩
      intro h
      rw [h.icmp hicmp] at hflags
      exact absurd hflags Bool.false_ne_true
    | false =>
      rw [portalVerdict_of_no_flags hudp hflags]
      constructor
      · intro h
        exact ⟨fun _ => hflags, fun _ _ hpos hget => absurd (h hpos hget).1 htcp⟩
      · intro h hpos hget
        exact absurd (h.get hudp hflags hpos hget).1 htcp

end Filter

/-- What is left of `nos_do` once the direction is that of the portal and the sender is not
online. -/
theorem nosDo_offline {env : NosEnv} {users : Users} {skb : SkBuff} {dev : Devices}
    (hdir : checkDir dev.inName dev.outName = true)
    (hoffline : ∀ u, userHashFind env.jhash users (macSource skb) = some u → u.status ≠ 1) :
    (∃ users', nosDo env users skb dev = .ok (nosFilter skb users')) ∨
      (userHashFind env.jhash users (macSource skb) = none ∧ env.kmalloc = false ∧
        nosDo env users skb dev = .error .noNode) := by
  unfold nosDo
  rw [hdir]
  simp only [Bool.not_true, Bool.false_eq_true, if_false]
  cases hfind : userHashFind env.jhash users (macSource skb) with
  | some u => exact Or.inl ⟨_, if_neg (hoffline u hfind)⟩
  | none =>
    cases hk : env.kmalloc with
    | false => exact Or.inr ⟨rfl, rfl, rfl⟩
    | true =>
      have hadd : (userHashAdd env.jhash users (newNode env skb)).1 = 1 :=
        userHashAdd_of_find_none hfind
      exact Or.inl ⟨(userHashAdd env.jhash users (newNode env skb)).2, by simp [hadd]⟩

/-- **When the portal does what it is for.**  For a packet that passes the filter of
`nos_hook_fw`, from the LAN to the WAN, of a sender that is not online: `nos_do` returns, and
with the right verdict, exactly on the packets and states of `PortalCondition`. -/
theorem portalVerdict_iff {env : NosEnv} {users : Users} {skb : SkBuff} {dev : Devices}
    (hproto : protocolFiltered skb = false) (haddr : addressFiltered skb = false)
    (hdir : checkDir dev.inName dev.outName = true)
    (hoffline : ∀ u, userHashFind env.jhash users (macSource skb) = some u → u.status ≠ 1) :
    (∃ r, nosHookFw env users .tracked true true skb dev = .ok r ∧ PortalVerdict skb r) ↔
      PortalCondition env users skb := by
  have hhook : nosHookFw env users .tracked true true skb dev = nosDo env users skb dev := by
    simp [nosHookFw, hproto, haddr]
  rw [hhook]
  rcases nosDo_offline hdir hoffline with ⟨users', hok⟩ | ⟨hnone, hk, herr⟩
  · rw [hok]
    constructor
    · rintro ⟨r, hr, hv⟩
      obtain rfl := Except.ok.inj hr
      refine ⟨(nosFilter_portalVerdict_iff hproto).mp hv, ?_⟩
      intro hnone
      -- a missing node would have been a `BUG_ON`
      by_contra hk
      rw [Bool.not_eq_true] at hk
      simp [nosDo, hdir, hnone, hk] at hok
    · intro h
      exact ⟨_, rfl, (nosFilter_portalVerdict_iff hproto).mpr h.toFilterCondition⟩
  · rw [herr]
    constructor
    · rintro ⟨r, hr, -⟩
      exact absurd hr (by simp)
    · intro h
      have := h.node hnone
      rw [hk] at this
      exact absurd this Bool.false_ne_true

/-- From the LAN to the WAN. -/
def lanToWan : Devices := ⟨some brLan, some eth05⟩

/-- A kernel with memory, and any hash. -/
def someEnv : NosEnv := ⟨fun _ => 0, 0, true⟩

/-- A TCP segment without flags whose payload is `GET`. -/
def getSegment : SkBuff :=
  ipv4Packet IPPROTO_TCP ([0, 0, 0, 80, 0, 0, 0, 0, 0, 0, 0, 0, 0x50, 0x10, 0, 0, 0, 0, 0, 0] ++ GET)

theorem portalVerdict_getSegment :
    ∃ r, nosHookFw someEnv (fun _ => []) .tracked true true getSegment lanToWan = .ok r ∧
      PortalVerdict getSegment r :=
  (portalVerdict_iff (by decide) (by decide) (by decide)
    (fun _ h => absurd h (by simp [userHashFind]))).mpr ⟨⟨by decide, by decide⟩, fun _ => rfl⟩

/-- An echo request whose sixth byte of content is 2. -/
def echoRequest : SkBuff :=
  ipv4Packet IPPROTO_ICMP [8, 0, 0, 0, 0, 1, 0, 1, 0, 0, 0, 0, 0, 2, 0, 0]

/-- The sender is not online, and the packet is let through. -/
theorem portalVerdict_echoRequest :
    ∃ r, nosHookFw someEnv (fun _ => []) .tracked true true echoRequest lanToWan = .ok r ∧
      r.verdict = .accept ∧ ¬ PortalVerdict echoRequest r := by
  refine ⟨_, rfl, by decide, ?_⟩
  intro h
  rcases h.accept_iff.mp (by decide) with hdns | htcp
  · exact absurd hdns.1 (by decide)
  · exact absurd htcp.1 (by decide)

end Puppies
