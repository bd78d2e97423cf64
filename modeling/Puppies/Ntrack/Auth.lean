/-
# Users and their status (`include/src/ntrack_auth.h`, `drivers/nos_track/src/ntrack_auth.c`)

The record of a user lies in memory that the kernel shares with the programs around it.  Its
header has a word of flags whose lowest byte is the user's status; the index and the magic of
the rule that the user was matched to; and the time of the user's last packet.

`nt_auth_set_status` changes the flags in two statements, each of which reads and writes the
whole word.  They are two definitions here, because others may change the word in between.

The record itself is declared in a header that is not part of the repository.  The fields have
the types that the code at hand gives them; `rule_idx` is an integer of some width, which is
all that is needed, since what is stored into it is below 65 and it is read through an
`int8_t`.
-/
import Puppies.Net.Packet

namespace Puppies

open ByteMem

/-! ## 1. The record of a user -/

/-- `user_info_t`, as far as the module uses it. -/
structure UserInfo where
  id : BitVec 32
  magic : BitVec 32
  flags : BitVec 32
  groupId : Int
  ruleIdx : Int
  ruleMagic : BitVec 32
  timeStamp : BitVec 32
  deriving DecidableEq, Repr

/-! ## 2. The status -/

def AUTH_UNKNOWN : BitVec 32 := 0
def AUTH_REQ : BitVec 32 := 1
def AUTH_REJ : BitVec 32 := 2
def AUTH_OK : BitVec 32 := 3

/-- `AUTH_STATUS_MASK` -/
def AUTH_STATUS_MASK : BitVec 32 := 0x000000ff

/-- `AUTH_STATUS` -/
def authStatus (flags : BitVec 32) : BitVec 32 := flags &&& AUTH_STATUS_MASK

/-- The first statement of `nt_auth_set_status` that writes. -/
def clearStatus (flags : BitVec 32) : BitVec 32 := flags &&& ~~~AUTH_STATUS_MASK

/-- The second one. -/
def orStatus (flags status : BitVec 32) : BitVec 32 := flags ||| authStatus status

/-- `nt_auth_status` -/
def ntAuthStatus (ui : UserInfo) : BitVec 32 := authStatus ui.flags

/-- `nt_auth_set_status`: the previous status and the record. -/
def ntAuthSetStatus (ui : UserInfo) (status : BitVec 32) : BitVec 32 × UserInfo :=
  (authStatus ui.flags, { ui with flags := orStatus (clearStatus ui.flags) status })

/-- The flags above the status. -/
def highFlags (flags : BitVec 32) : BitVec 32 := flags &&& ~~~AUTH_STATUS_MASK

@[simp] theorem authStatus_clearStatus (flags : BitVec 32) :
    authStatus (clearStatus flags) = 0 := by
  unfold authStatus clearStatus
  rw [BitVec.and_assoc, BitVec.and_comm (~~~_), BitVec.and_not_self]
  exact BitVec.and_zero

/-- The two statements, one right after the other, write the status. -/
@[simp] theorem authStatus_orStatus (flags status : BitVec 32) :
    authStatus (orStatus flags status) = authStatus flags ||| authStatus status := by
  unfold orStatus authStatus
  rw [BitVec.and_or_distrib_right, BitVec.and_assoc, BitVec.and_self]

@[simp] theorem highFlags_clearStatus (flags : BitVec 32) :
    highFlags (clearStatus flags) = highFlags flags := by
  unfold highFlags clearStatus
  rw [BitVec.and_assoc, BitVec.and_self]

/-- Neither statement touches the flags above the status. -/
@[simp] theorem highFlags_orStatus (flags status : BitVec 32) :
    highFlags (orStatus flags status) = highFlags flags := by
  unfold highFlags orStatus authStatus
  have hstatus : status &&& AUTH_STATUS_MASK &&& ~~~AUTH_STATUS_MASK = 0#32 := by
    rw [BitVec.and_assoc, BitVec.and_not_self]
    exact BitVec.and_zero
  rw [BitVec.and_or_distrib_right, hstatus, BitVec.or_zero]

theorem ntAuthStatus_set (ui : UserInfo) (status : BitVec 32) :
    ntAuthStatus (ntAuthSetStatus ui status).2 = authStatus status := by
  show authStatus (orStatus (clearStatus ui.flags) status) = _
  rw [authStatus_orStatus, authStatus_clearStatus]
  exact BitVec.zero_or

/-! ## 3. The time of the last packet -/

/-- `time_after`, on 32 bits. -/
def timeAfter (a b : BitVec 32) : Bool := (b - a).toInt < 0

/-- `user_timeout`, at the time `jiffies`. -/
def userTimeout (hz jiffies : BitVec 32) (ui : UserInfo) : Bool :=
  timeAfter jiffies (ui.timeStamp + hz * 30)

/-- `user_update_timestamp` -/
def userUpdateTimestamp (jiffies : BitVec 32) (ui : UserInfo) : UserInfo :=
  { ui with timeStamp := jiffies }

/-! ## 4. Packets -/

/-- `l3filter` -/
def l3filter (skb : SkBuff) : Bool := protocolFiltered skb || addressFiltered skb

/-- `l4len` of `auth_check_http`. -/
def l4len (skb : SkBuff) : Int :=
  (skb.len - BitVec.ofNat 32 skb.ihl - BitVec.ofNat 32 skb.doff).toInt

/-- `auth_check_http` -/
def authCheckHttp (skb : SkBuff) : Bool :=
  if skb.protocol ≠ IPPROTO_TCP then false
  else (3 < l4len skb && startsNoCase skb.data skb.payloadOff GET) ||
    (4 < l4len skb && startsNoCase skb.data skb.payloadOff POST)

end Puppies
