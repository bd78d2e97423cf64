/-
# Where `nos_do` looks for a request (`drivers/nos/src/nos_hooks.c`)

`Portal.lean` asks what becomes of a packet.  This file asks which bytes were looked at.
`nos_do` compares the payload of a segment with `GET`, and `strncasecmp` reads byte by byte and
stops at the first difference.  The guard in front of it is meant to keep it inside the packet,
but it ADDS the length of the TCP header instead of subtracting it (`auth_check_http`, in the
other module, has it right), so that it says yes to every segment of a usual length, with a
payload or without.

How far the comparison then gets depends on the bytes: it leaves the packet exactly if the whole
payload is a beginning of the word that is looked for, such as no payload at all.

`nosDoReads` is `nosDo` with the offsets of the payload bytes that are compared.
-/
import Puppies.Net.Headers
import Puppies.Nos.Portal

namespace Puppies

open ByteMem

/-! ## 1. The comparison -/

/-- `strncasecmp` of the text at `off` and `word`, for the length of `word`: what it returns,
and the offsets at which it reads the text. -/
def strncasecmp (m : Mem) : Nat → List Byte → Int × List Nat
  | _, [] => (0, [])
  | off, w :: word =>
    let c := m off
    if c = 0 ∨ w = 0 then (c.toNat - w.toNat, [off])
    else if tolower c = tolower w then
      let (ret, offs) := strncasecmp m (off + 1) word
      (ret, off :: offs)
    else ((tolower c).toNat - (tolower w).toNat, [off])

theorem startsNoCase_cons (m : Mem) (off : Nat) (w : Byte) (word : List Byte) :
    startsNoCase m off (w :: word) = true ↔
      tolower (m off) = tolower w ∧ startsNoCase m (off + 1) word = true := by
  have hread : read m off (word.length + 1) = m off :: read m (off + 1) word.length := by
    rw [Nat.add_comm, read_add]
    rfl
  rw [startsNoCase, startsNoCase, List.length_cons, hread]
  simp only [List.map_cons, beq_iff_eq, List.cons.injEq]

/-- What starts with a word starts with the beginning of the word. -/
theorem startsNoCase_take {m : Mem} {off : Nat} {word : List Byte} (n : Nat)
    (h : startsNoCase m off word = true) : startsNoCase m off (word.take n) = true := by
  induction word generalizing off n with
  | nil => rwa [List.take_nil]
  | cons w word ih =>
    cases n with
    | zero => rfl
    | succ n =>
      obtain ⟨hw, hword⟩ := (startsNoCase_cons m off w word).mp h
      rw [List.take_succ_cons, startsNoCase_cons]
      exact ⟨hw, ih n hword⟩

/-- A byte that is equal to a letter, but for the case, is not the `NUL`. -/
theorem ne_zero_of_tolower {c w : Byte} (hw : w ≠ 0) (h : tolower c = tolower w) : c ≠ 0 := by
  have hzero : ∀ w : BitVec 8, tolower w = 0 → w = 0 := by decide
  rintro rfl
  exact hw (hzero w h.symm)

/-- The return value of `strncasecmp`. -/
theorem strncasecmp_eq_zero_iff {m : Mem} {off : Nat} {word : List Byte}
    (hword : (0 : Byte) ∉ word) :
    (strncasecmp m off word).1 = 0 ↔ startsNoCase m off word = true := by
  induction word generalizing off with
  | nil => exact ⟨fun _ => rfl, fun _ => rfl⟩
  | cons w word ih =>
    obtain ⟨hw, hword⟩ := not_or.mp (mt List.mem_cons.mpr hword)
    rw [startsNoCase_cons, strncasecmp]
    by_cases hc : tolower (m off) = tolower w
    · have hc0 := ne_zero_of_tolower (Ne.symm hw) hc
      rw [if_neg (not_or.mpr ⟨hc0, Ne.symm hw⟩), if_pos hc]
      simp only [hc, true_and]
      exact ih hword
    · simp only [hc, if_false, false_and, iff_false]
      split
      · rename_i hzero
        have hne : m off ≠ w := fun heq => hc (congrArg tolower heq)
        have : (m off).toNat ≠ w.toNat := fun heq => hne (BitVec.eq_of_toNat_eq heq)
        dsimp only
        omega
      · have : (tolower (m off)).toNat ≠ (tolower w).toNat := fun heq =>
          hc (BitVec.eq_of_toNat_eq heq)
        dsimp only
        omega

/-- **Where `strncasecmp` reads.**  It stays in front of `stop` unless all that lies before
`stop` is a beginning of the word, and a shorter one. -/
theorem strncasecmp_inside_iff {m : Mem} {off stop : Nat} {word : List Byte}
    (hword : (0 : Byte) ∉ word) (hoff : off ≤ stop) :
    (∀ a ∈ (strncasecmp m off word).2, a < stop) ↔
      ¬ (stop - off < word.length ∧ startsNoCase m off (word.take (stop - off)) = true) := by
  induction word generalizing off with
  | nil => simp [strncasecmp]
  | cons w word ih =>
    obtain ⟨hw, hword⟩ := not_or.mp (mt List.mem_cons.mpr hword)
    have hhead : ∃ offs, (strncasecmp m off (w :: word)).2 = off :: offs := by
      rw [strncasecmp]
      split
      · exact ⟨_, rfl⟩
      · split
        · exact ⟨_, rfl⟩
        · exact ⟨_, rfl⟩
    rcases Nat.eq_or_lt_of_le hoff with rfl | hlt
    · -- the first byte is behind already
      obtain ⟨offs, hoffs⟩ := hhead
      rw [hoffs, Nat.sub_self, List.take_zero]
      refine iff_of_false ?_ ?_
      · intro hall
        exact Nat.lt_irrefl _ (hall off List.mem_cons_self)
      · exact not_not.mpr ⟨Nat.succ_pos _, rfl⟩
    · obtain ⟨n, hn⟩ : ∃ n, stop - off = n + 1 := Nat.exists_eq_add_one.mpr (by omega)
      have hn' : stop - (off + 1) = n := by omega
      rw [hn, List.take_succ_cons, startsNoCase_cons, strncasecmp]
      by_cases hc : tolower (m off) = tolower w
      · have hc0 := ne_zero_of_tolower (Ne.symm hw) hc
        have ih := ih hword (Nat.succ_le_of_lt hlt)
        rw [hn'] at ih
        rw [if_neg (not_or.mpr ⟨hc0, Ne.symm hw⟩), if_pos hc]
        simp only [List.forall_mem_cons, hlt, true_and, ih, hc, List.length_cons,
          Nat.add_lt_add_iff_right]
      · simp only [hc, if_false, false_and, and_false, not_false_eq_true, iff_true]
        split <;> simpa using hlt

/-! ## 2. `nos_do`, with what it compares -/

/-- `nosFilter`, with the comparison of `strncasecmp`. -/
def nosFilterReads (skb : SkBuff) (users : Users) : NosResult × List Nat :=
  if skb.protocol = IPPROTO_UDP then
    if skb.udpDest = 53 then (⟨.accept, users, none⟩, []) else (⟨.drop, users, none⟩, [])
  else if skb.syn || skb.fin || skb.rst then (⟨.accept, users, none⟩, [])
  else if paylen skb ≤ 0 then (⟨.drop, users, none⟩, [])
  else
    let (ret, offs) := strncasecmp skb.data skb.payloadOff GET
    if ret ≠ 0 then (⟨.drop, users, none⟩, offs)
    else (⟨.drop, users, some (redirectUrl (macSource skb) (read skb.data 12 4))⟩, offs)

/-- `nosDo`, with the offsets of the payload bytes that it compares. -/
def nosDoReads (env : NosEnv) (users : Users) (skb : SkBuff) (dev : Devices) :
    Except NosBug (NosResult × List Nat) :=
  if !checkDir dev.inName dev.outName then .ok (⟨.accept, users, none⟩, [])
  else
    let mac := macSource skb
    match userHashFind env.jhash users mac with
    | some user =>
      let users := userUpdate env.jhash users mac fun u =>
        { u with jf := env.jiffies, ip := skb.saddr }
      if user.status = 1 then .ok (⟨.accept, users, none⟩, [])
      else .ok (nosFilterReads skb users)
    | none =>
      if !env.kmalloc then .error .noNode
      else
        let r := userHashAdd env.jhash users (newNode env skb)
        if r.1 ≠ 1 then .error .notAdded else .ok (nosFilterReads skb r.2)

theorem zero_not_mem_GET : (0 : Byte) ∉ GET := by decide

theorem nosFilterReads_fst (skb : SkBuff) (users : Users) :
    (nosFilterReads skb users).1 = nosFilter skb users := by
  have hcmp : (strncasecmp skb.data skb.payloadOff GET).1 = 0 ↔
      startsNoCase skb.data skb.payloadOff GET = true := strncasecmp_eq_zero_iff zero_not_mem_GET
  unfold nosFilterReads nosFilter
  by_cases hget : startsNoCase skb.data skb.payloadOff GET = true
  · have hret := hcmp.mpr hget
    simp only [hret, hget, ne_eq, not_true_eq_false, if_false, Bool.not_true, Bool.or_false,
      decide_eq_true_eq]
    split_ifs <;> rfl
  · have hret := mt hcmp.mp hget
    simp only [hret, hget, ne_eq, not_false_eq_true, if_true, Bool.not_false, Bool.or_true]
    split_ifs <;> rfl

/-- **It is the same function.** -/
theorem nosDoReads_fst (env : NosEnv) (users : Users) (skb : SkBuff) (dev : Devices) :
    (nosDoReads env users skb dev).map Prod.fst = nosDo env users skb dev := by
  unfold nosDoReads nosDo
  cases checkDir dev.inName dev.outName with
  | false => rfl
  | true =>
    simp only [Bool.not_true, Bool.false_eq_true, if_false]
    cases userHashFind env.jhash users (macSource skb) with
    | some user =>
      dsimp only
      split_ifs
      · rfl
      · exact congrArg Except.ok (nosFilterReads_fst skb _)
    | none =>
      dsimp only
      split_ifs
      · rfl
      · rfl
      · exact congrArg Except.ok (nosFilterReads_fst skb _)

/-! ## 3. When the comparison stays inside -/

/-- The payload is a beginning of `GET`, in any case, and not all of it. -/
def CutGet (payload : List Byte) : Prop :=
  ∃ k < GET.length, payload.map tolower = (GET.take k).map tolower

instance (payload : List Byte) : Decidable (CutGet payload) :=
  inferInstanceAs (Decidable (∃ k < GET.length, _))

/-- What `nos_do` does with a payload: it compares bytes of the packet only, and what it takes
for a request is one. -/
structure PayloadInside (skb : SkBuff) (r : NosResult) (offs : List Nat) : Prop where
  inside : ∀ off ∈ offs, off < skb.len.toNat
  request : r.redirect ≠ none → (skb.payload.take GET.length).map tolower = GET.map tolower

section Payload

variable {skb : SkBuff}

theorem length_payload (skb : SkBuff) :
    skb.payload.length = skb.len.toNat - skb.payloadOff := length_read _ _ _

/-- A payload is cut if it is shorter than the word and the word starts with it. -/
theorem cutGet_iff : CutGet skb.payload ↔
    skb.len.toNat - skb.payloadOff < GET.length ∧
      startsNoCase skb.data skb.payloadOff (GET.take (skb.len.toNat - skb.payloadOff)) = true := by
  have hstarts : ∀ n ≤ GET.length, startsNoCase skb.data skb.payloadOff (GET.take n) = true ↔
      (read skb.data skb.payloadOff n).map tolower = (GET.take n).map tolower := by
    intro n hn
    rw [startsNoCase, List.length_take_of_le hn, beq_iff_eq]
  constructor
  · rintro ⟨k, hk, heq⟩
    have hlen : skb.len.toNat - skb.payloadOff = k := by
      have := congrArg List.length heq
      rwa [List.length_map, List.length_map, length_payload,
        List.length_take_of_le (Nat.le_of_lt hk)] at this
    rw [SkBuff.payload, hlen] at heq
    rw [hlen]
    exact ⟨hk, (hstarts k (Nat.le_of_lt hk)).mpr heq⟩
  · rintro ⟨hk, heq⟩
    exact ⟨_, hk, (hstarts _ (Nat.le_of_lt hk)).mp heq⟩

/-- The guard of `nos_do` does not keep a cut payload out. -/
theorem paylen_pos_of_cut (hdoff : 0 < skb.doff) (hlen : skb.payloadOff ≤ skb.len.toNat)
    (hcut : CutGet skb.payload) : 0 < paylen skb := by
  have hshort := (cutGet_iff.mp hcut).1
  have hget : GET.length = 3 := rfl
  have hoff : skb.payloadOff = skb.ihl + skb.doff := rfl
  have hihl := ((skb.data 0).extractLsb' 0 4).isLt
  have hdoff' := ((skb.data (skb.ihl + 12)).extractLsb' 4 4).isLt
  have hihl_le : skb.ihl ≤ 60 := by
    unfold SkBuff.ihl
    omega
  have hdoff_le : skb.doff ≤ 60 := by
    unfold SkBuff.doff
    omega
  -- what is computed is twice the length of the TCP header and at most two bytes more
  have hval : (skb.len - BitVec.ofNat 32 skb.ihl + BitVec.ofNat 32 skb.doff).toNat =
      skb.len.toNat - skb.ihl + skb.doff := by
    simp only [BitVec.toNat_add, BitVec.toNat_sub, BitVec.toNat_ofNat]
    omega
  rw [paylen, BitVec.toInt_eq_toNat_of_lt (by omega), hval]
  omega

/-- A request that is not cut is one. -/
theorem get_of_not_cut (hcut : ¬ CutGet skb.payload)
    (hget : startsNoCase skb.data skb.payloadOff GET = true) :
    (skb.payload.take GET.length).map tolower = GET.map tolower := by
  have hlen : GET.length ≤ skb.len.toNat - skb.payloadOff := by
    by_contra hlt
    exact hcut (cutGet_iff.mpr ⟨Nat.lt_of_not_le hlt, startsNoCase_take _ hget⟩)
  rw [SkBuff.payload, take_read hlen]
  exact beq_iff_eq.mp hget

/-- **The branches, exactly.** -/
theorem nosFilterReads_inside_iff {users : Users} (htcp : skb.protocol = IPPROTO_TCP)
    (hdoff : 0 < skb.doff) (hlen : skb.payloadOff ≤ skb.len.toNat) :
    PayloadInside skb (nosFilterReads skb users).1 (nosFilterReads skb users).2 ↔
      ((skb.syn || skb.fin || skb.rst) = false → ¬ CutGet skb.payload) := by
  have hudp : skb.protocol ≠ IPPROTO_UDP := by
    rw [htcp]
    decide
  have hinside := strncasecmp_inside_iff (m := skb.data) zero_not_mem_GET hlen
  have hcmp : (strncasecmp skb.data skb.payloadOff GET).1 = 0 ↔
      startsNoCase skb.data skb.payloadOff GET = true := strncasecmp_eq_zero_iff zero_not_mem_GET
  rw [← cutGet_iff] at hinside
  rw [nosFilterReads, if_neg hudp]
  cases hflags : (skb.syn || skb.fin || skb.rst) with
  | true => exact iff_of_true ⟨by simp, by simp⟩ (by simp)
  | false =>
    rw [if_neg Bool.false_ne_true]
    by_cases hpay : paylen skb ≤ 0
    · rw [if_pos hpay]
      refine iff_of_true ⟨by simp, by simp⟩ ?_
      intro _ hcut
      have := paylen_pos_of_cut hdoff hlen hcut
      omega
    · rw [if_neg hpay]
      simp only [true_implies]
      rw [← hinside]
      by_cases hret : (strncasecmp skb.data skb.payloadOff GET).1 ≠ 0
      · rw [if_pos hret]
        exact ⟨fun h => h.inside, fun h => ⟨h, by simp⟩⟩
      · rw [if_neg hret]
        refine ⟨fun h => h.inside, fun h => ⟨h, ?_⟩⟩
        intro _
        exact get_of_not_cut (hinside.mp h) (hcmp.mp (not_not.mp hret))

end Payload

/-- What is left of `nos_do` once the sender is not online. -/
theorem nosDoReads_offline {env : NosEnv} {users : Users} {skb : SkBuff} {dev : Devices}
    (hdir : checkDir dev.inName dev.outName = true)
    (hoffline : ∀ u, userHashFind env.jhash users (macSource skb) = some u → u.status ≠ 1)
    {r : NosResult} {offs : List Nat} (hrun : nosDoReads env users skb dev = .ok (r, offs)) :
    ∃ users', nosFilterReads skb users' = (r, offs) := by
  unfold nosDoReads at hrun
  rw [hdir] at hrun
  simp only [Bool.not_true, Bool.false_eq_true, if_false] at hrun
  cases hfind : userHashFind env.jhash users (macSource skb) with
  | some u =>
    simp only [hfind, if_neg (hoffline u hfind)] at hrun
    exact ⟨_, Except.ok.inj hrun⟩
  | none =>
    simp only [hfind] at hrun
    split_ifs at hrun
    exact ⟨_, Except.ok.inj hrun⟩

/-- **When the comparison stays inside the packet.**  For a TCP packet with complete headers, of
a sender that is not online, on its way to the WAN and without any of the flags: exactly if its
payload is not a beginning of `GET`; and then what is taken for a request is one. -/
theorem payloadInside_iff {env : NosEnv} {users : Users} {skb : SkBuff} {dev : Devices}
    (htcp : skb.protocol = IPPROTO_TCP) (hdoff : 20 ≤ skb.doff)
    (hlen : skb.payloadOff ≤ skb.len.toNat)
    (hoffline : ∀ u, userHashFind env.jhash users (macSource skb) = some u → u.status ≠ 1)
    {r : NosResult} {offs : List Nat} (hrun : nosDoReads env users skb dev = .ok (r, offs)) :
    PayloadInside skb r offs ↔
      (checkDir dev.inName dev.outName = true → (skb.syn || skb.fin || skb.rst) = false →
        ¬ CutGet skb.payload) := by
  cases hdir : checkDir dev.inName dev.outName with
  | false =>
    rw [nosDoReads, hdir] at hrun
    obtain ⟨rfl, rfl⟩ := Prod.mk.inj (Except.ok.inj hrun)
    exact iff_of_true ⟨by simp, by simp⟩ (by simp)
  | true =>
    obtain ⟨users', heq⟩ := nosDoReads_offline hdir hoffline hrun
    have hiff : PayloadInside skb (nosFilterReads skb users').1 (nosFilterReads skb users').2 ↔
        ((skb.syn || skb.fin || skb.rst) = false → ¬ CutGet skb.payload) :=
      nosFilterReads_inside_iff htcp (Nat.lt_of_lt_of_le (by decide) hdoff) hlen
    rw [heq] at hiff
    rw [hiff]
    exact ⟨fun h _ => h, fun h => h rfl⟩

/-- The segment with the request is compared inside. -/
theorem payloadInside_iff_getSegment :
    ∃ r offs, nosDoReads someEnv (fun _ => []) getSegment lanToWan = .ok (r, offs) ∧
      PayloadInside getSegment r offs := by
  have hrun : ∃ r offs, nosDoReads someEnv (fun _ => []) getSegment lanToWan = .ok (r, offs) :=
    ⟨_, _, rfl⟩
  obtain ⟨r, offs, hrun⟩ := hrun
  refine ⟨r, offs, hrun, ?_⟩
  refine (payloadInside_iff (by decide) (by decide) (by decide) ?_ hrun).mpr (by decide)
  intro u hu
  simp [userHashFind] at hu

/-- An acknowledgement without payload; the memory behind it still has an old request. -/
def pureAck : SkBuff := { getSegment with len := 40 }

/-- **The request of another packet** is read, and answered. -/
theorem payloadInside_broken :
    ∃ r, nosDoReads someEnv (fun _ => []) pureAck lanToWan = .ok (r, [40, 41, 42]) ∧
      pureAck.protocol = IPPROTO_TCP ∧ pureAck.ihl = 20 ∧ pureAck.doff = 20 ∧
      pureAck.payload = [] ∧ r.redirect ≠ none ∧
      ¬ PayloadInside pureAck r [40, 41, 42] := by
  refine ⟨_, rfl, by decide, by decide, by decide, by decide, by simp, ?_⟩
  intro h
  exact absurd (h.inside 40 (by decide)) (by decide)

end Puppies
