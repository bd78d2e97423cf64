/-
# How the configuration gets into the kernel

`ntrackd` sends the text of the configuration as one netlink datagram (`xmit`), and `nl_recv` in
the kernel module copies it into a block of its own, puts a `NUL` behind it by having the block
cleared before, and hands it to `ntrack_conf_sync`.

The two sides compute lengths in different types.  The sender adds the header to a `size_t` and
stores 32 bits of the sum; the receiver subtracts it in 32 bits, takes the difference as an
`int`, adds one for the `NUL` and has both made a `size_t` again, which on a kernel of 64 bits
extends the sign.

`xmit` does not compare the length of the text with the size of its message, and it takes only
the result 0 of `sendto` for a failure, which is never the result of one.
-/
import Mathlib.Algebra.Group.Nat.Defs
import Puppies.Ntrack.Conf
import Puppies.Net.Packet

namespace Puppies

open ByteMem

/-! ## 1. Strings, headers and accesses -/

/-- A string of C, without its `NUL`. -/
structure CStr where
  bytes : List Byte
  nulFree : 0 ∉ bytes

theorem CStr.ne_zero {s : CStr} {b : Byte} (hb : b ∈ s.bytes) : b ≠ 0 := by
  rintro rfl
  exact s.nulFree hb

/-- `strlen` -/
def CStr.strlen (s : CStr) : Nat := s.bytes.length

/-- `struct nlmsghdr` -/
structure Nlmsghdr where
  nlmsgLen : BitVec 32
  nlmsgType : BitVec 16
  nlmsgFlags : BitVec 16
  nlmsgSeq : BitVec 32
  nlmsgPid : BitVec 32
  deriving DecidableEq, Repr

/-- `sizeof(struct nlmsghdr)` and, as it is a multiple of 4, `NLMSG_HDRLEN`. -/
def nlmsgHdrlen : Nat := 16

/-- `NLMSG_LENGTH` -/
def nlmsgLength (n : Nat) : Nat := n + nlmsgHdrlen

/-- `NLMSG_OK`, for a header with this `nlmsg_len` in `len` bytes. -/
def nlmsgOk (nlmsgLen len : BitVec 32) : Bool :=
  nlmsgHdrlen ≤ len.toNat ∧ nlmsgHdrlen ≤ nlmsgLen.toNat ∧ nlmsgLen ≤ len

/-- The header in memory. -/
def Nlmsghdr.bytes (bo : ByteOrder) (h : Nlmsghdr) : List Byte :=
  bo.bytes32 h.nlmsgLen ++ bo.bytes16 h.nlmsgType ++ bo.bytes16 h.nlmsgFlags ++
    bo.bytes32 h.nlmsgSeq ++ bo.bytes32 h.nlmsgPid

@[simp] theorem Nlmsghdr.length_bytes (bo : ByteOrder) (h : Nlmsghdr) :
    (h.bytes bo).length = nlmsgHdrlen := by
  simp [Nlmsghdr.bytes, nlmsgHdrlen]

/-- `len` bytes from `off` on, of some object. -/
structure Access where
  off : Nat
  len : Nat
  deriving DecidableEq, Repr

/-- They all belong to it, if it has `size` bytes. -/
def Access.Inside (size : Nat) (a : Access) : Prop := a.off + a.len ≤ size

/-! ## 2. The sender -/

/-- `sizeof(struct m2k)`: the header and 4096 bytes of data. -/
def sizeofM2k : Nat := nlmsgHdrlen + 4096

/-- What comes of a call of `xmit`. -/
structure XmitResult where
  ret : Int
  /-- where it stored into its message -/
  stores : List Access
  /-- the datagram that was sent -/
  sent : Option (List Byte)
  deriving DecidableEq, Repr

/-- What `xmit` runs in: the socket, the process, what lies on the stack, and whether `sendto`
sends the datagram or returns -1. -/
structure XmitEnv where
  nlSock : Int
  pid : BitVec 32
  stack : Mem
  sendto : Bool

/-- The header of the message for a text. -/
def xmitHdr (env : XmitEnv) (data : CStr) : Nlmsghdr :=
  ⟨BitVec.ofNat 32 (nlmsgLength data.strlen), 0, 0, 0, env.pid⟩

/-- The message, which was cleared before, and what lies behind it. -/
def xmitMessage (bo : ByteOrder) (env : XmitEnv) (data : CStr) : Mem :=
  let message := write env.stack 0 (List.replicate sizeofM2k 0)
  let message := write message 0 ((xmitHdr env data).bytes bo)
  write message nlmsgHdrlen data.bytes

/-- `xmit`; `none` is the `NULL` pointer. -/
def xmit (bo : ByteOrder) (env : XmitEnv) : Option CStr → XmitResult
  | none => ⟨-1, [], none⟩
  | some data =>
    if env.nlSock < 0 then ⟨-1, [], none⟩
    else
      let stores := [⟨0, sizeofM2k⟩, ⟨0, nlmsgHdrlen⟩, ⟨nlmsgHdrlen, data.strlen⟩]
      let nlmsgLen := (xmitHdr env data).nlmsgLen
      let sent :=
        if env.sendto then some (read (xmitMessage bo env data) 0 nlmsgLen.toNat) else none
      let ret : Int := if env.sendto then nlmsgLen.toInt else -1
      if ret = 0 then ⟨-1, stores, sent⟩ else ⟨0, stores, sent⟩

/-! ## 3. The receiver -/

/-- The sizes of the types in the kernel. -/
inductive DataModel
  | ilp32
  | lp64
  deriving DecidableEq, Repr

/-- An `int` as a `size_t`. -/
def DataModel.sizeT : DataModel → BitVec 32 → Nat
  | .ilp32, i => i.toNat
  | .lp64, i => (i.signExtend 64).toNat

/-- `kzalloc`: for which sizes there is a block.  `KMALLOC_MAX_SIZE` is less than 2 GiB
everywhere. -/
structure Kzalloc where
  ok : Nat → Bool
  limit : ∀ size, ok size = true → size < 2 ^ 31

/-- What comes of a call of `nl_recv`. -/
structure NlRecvResult where
  /-- what it read of the datagram -/
  reads : List Access
  /-- the block that it passed to `ntrack_conf_sync` -/
  passed : Option (List Byte)
  deriving DecidableEq, Repr

/-- What `nl_recv` runs in. -/
structure NlRecvEnv where
  model : DataModel
  kzalloc : Kzalloc

/-- `nl_recv`.  `skb` is what the socket got, of which `skb->len` bytes were sent. -/
def nlRecv (bo : ByteOrder) (env : NlRecvEnv) (skb : SkBuff) : NlRecvResult :=
  if nlmsgHdrlen ≤ skb.len.toNat then
    let nlmsgLen := bo.word32 skb.data 0
    if nlmsgOk nlmsgLen skb.len then
      let len := nlmsgLen - BitVec.ofNat 32 nlmsgHdrlen
      let size := env.model.sizeT (len + 1)
      if env.kzalloc.ok size then
        let count := env.model.sizeT len
        let jsonStr : Mem := fun _ => 0
        let jsonStr := write jsonStr 0 (read skb.data nlmsgHdrlen count)
        ⟨[⟨0, 4⟩, ⟨12, 4⟩, ⟨nlmsgHdrlen, count⟩], some (read jsonStr 0 size)⟩
      else ⟨[⟨0, 4⟩, ⟨12, 4⟩], none⟩
    else ⟨[⟨0, 4⟩], none⟩
  else ⟨[], none⟩

/-- The datagram arrived in this buffer. -/
def Carries (skb : SkBuff) (sent : List Byte) : Prop :=
  skb.len.toNat = sent.length ∧ read skb.data 0 sent.length = sent

/-- The block holds the string, and a `NUL` behind it. -/
def HoldsString (block : List Byte) (s : CStr) : Prop :=
  0 ∈ block ∧ cString block = s.bytes

/-! ## 4. The lengths of the receiver -/

theorem DataModel.sizeT_of_lt (model : DataModel) {i : BitVec 32} (h : i.toNat < 2 ^ 31) :
    model.sizeT i = i.toNat := by
  cases model with
  | ilp32 => rfl
  | lp64 =>
    rw [DataModel.sizeT, BitVec.toNat_signExtend, BitVec.msb_eq_false_iff_two_mul_lt.mpr (by omega)]
    simp
    omega

/-- The sign makes a `size_t` larger. -/
theorem DataModel.le_sizeT (model : DataModel) (i : BitVec 32) : i.toNat ≤ model.sizeT i := by
  cases model with
  | ilp32 => exact Nat.le_refl _
  | lp64 =>
    have hi := i.isLt
    rw [DataModel.sizeT, BitVec.toNat_signExtend, BitVec.toNat_setWidth]
    omega

theorem nlmsgOk_iff {nlmsgLen len : BitVec 32} : nlmsgOk nlmsgLen len = true ↔
    nlmsgHdrlen ≤ len.toNat ∧ nlmsgHdrlen ≤ nlmsgLen.toNat ∧ nlmsgLen.toNat ≤ len.toNat := by
  simp [nlmsgOk, BitVec.le_def]

/-- A block that there is has room for the text and the `NUL`: no sign, and no carry. -/
theorem sizeT_of_kzalloc {env : NlRecvEnv} {nlmsgLen : BitVec 32}
    (hlen : nlmsgHdrlen ≤ nlmsgLen.toNat)
    (hok : env.kzalloc.ok (env.model.sizeT (nlmsgLen - BitVec.ofNat 32 nlmsgHdrlen + 1)) = true) :
    env.model.sizeT (nlmsgLen - BitVec.ofNat 32 nlmsgHdrlen) = nlmsgLen.toNat - nlmsgHdrlen := by
  have hlimit := env.kzalloc.limit _ hok
  have hle := env.model.le_sizeT (nlmsgLen - BitVec.ofNat 32 nlmsgHdrlen + 1)
  have hsub : (nlmsgLen - BitVec.ofNat 32 nlmsgHdrlen).toNat = nlmsgLen.toNat - nlmsgHdrlen :=
    BitVec.toNat_sub_of_le hlen
  have hlt := nlmsgLen.isLt
  have hadd : (nlmsgLen - BitVec.ofNat 32 nlmsgHdrlen + 1).toNat =
      nlmsgLen.toNat - nlmsgHdrlen + 1 := by
    rw [BitVec.toNat_add, hsub, nlmsgHdrlen]
    simp
    omega
  rw [env.model.sizeT_of_lt (by omega), hsub]

/-- **`nl_recv` reads only what was sent.** -/
theorem nlRecv_inside (bo : ByteOrder) (env : NlRecvEnv) (skb : SkBuff) :
    ∀ a ∈ (nlRecv bo env skb).reads, a.Inside skb.len.toNat := by
  unfold nlRecv
  split
  · rename_i hlen
    have hword : (⟨0, 4⟩ : Access).Inside skb.len.toNat := by
      simp only [Access.Inside, nlmsgHdrlen] at *
      omega
    have hpid : (⟨12, 4⟩ : Access).Inside skb.len.toNat := by
      simp only [Access.Inside, nlmsgHdrlen] at *
      omega
    dsimp only
    split
    · rename_i hok
      obtain ⟨-, hge, hle⟩ := nlmsgOk_iff.mp hok
      split
      · rename_i halloc
        have htext : (⟨nlmsgHdrlen, env.model.sizeT (bo.word32 skb.data 0 -
            BitVec.ofNat 32 nlmsgHdrlen)⟩ : Access).Inside skb.len.toNat := by
          rw [Access.Inside, sizeT_of_kzalloc hge halloc]
          exact (Nat.add_sub_of_le hge).trans_le hle
        simp [hword, hpid, htext]
      · simp [hword, hpid]
    · simp [hword]
  · simp

/-! ## 5. What comes out of what is sent -/

/-- A header and a text behind it, as they lie in the buffer. -/
theorem Carries.parts {bo : ByteOrder} {skb : SkBuff} {hdr : Nlmsghdr} {data : List Byte}
    (h : Carries skb (hdr.bytes bo ++ data)) :
    skb.len.toNat = nlmsgHdrlen + data.length ∧ bo.word32 skb.data 0 = hdr.nlmsgLen ∧
      read skb.data nlmsgHdrlen data.length = data := by
  obtain ⟨hlen, hread⟩ := h
  rw [List.length_append, Nlmsghdr.length_bytes] at hlen hread
  rw [read_add, Nat.zero_add] at hread
  obtain ⟨hhdr, hdata⟩ := List.append_inj hread (by simp)
  refine ⟨hlen, ByteOrder.word32_of_read ?_, hdata⟩
  rw [← take_read (n := nlmsgHdrlen) (by decide), hhdr]
  simp [Nlmsghdr.bytes, List.append_assoc]

/-- **What `nl_recv` makes of a well-formed datagram**: a block with the text and a `NUL`, if there
is one. -/
theorem nlRecv_passed {bo : ByteOrder} (env : NlRecvEnv) {skb : SkBuff} {hdr : Nlmsghdr}
    {data : List Byte} (h : Carries skb (hdr.bytes bo ++ data))
    (hlen : hdr.nlmsgLen.toNat = nlmsgHdrlen + data.length) (hfits : data.length + 1 < 2 ^ 31) :
    (nlRecv bo env skb).passed =
      if env.kzalloc.ok (data.length + 1) then some (data ++ [0]) else none := by
  obtain ⟨hskb, hword, hdata⟩ := h.parts
  have hsub : hdr.nlmsgLen - BitVec.ofNat 32 nlmsgHdrlen = BitVec.ofNat 32 data.length := by
    apply BitVec.eq_of_toNat_eq
    rw [BitVec.toNat_sub_of_le (by rw [BitVec.le_def, hlen]; simp [nlmsgHdrlen]), hlen]
    simp [nlmsgHdrlen]
    omega
  have hcount : env.model.sizeT (BitVec.ofNat 32 data.length) = data.length := by
    rw [env.model.sizeT_of_lt (by rw [BitVec.toNat_ofNat]; omega), BitVec.toNat_ofNat]
    omega
  have hsize : env.model.sizeT (BitVec.ofNat 32 data.length + 1) = data.length + 1 := by
    have hadd : BitVec.ofNat 32 data.length + 1 = BitVec.ofNat 32 (data.length + 1) :=
      (BitVec.ofNat_add _ _).symm
    rw [hadd, env.model.sizeT_of_lt (by rw [BitVec.toNat_ofNat]; omega), BitVec.toNat_ofNat]
    omega
  have hok : nlmsgOk hdr.nlmsgLen skb.len = true :=
    nlmsgOk_iff.mpr ⟨by omega, by omega, by omega⟩
  unfold nlRecv
  rw [if_pos (by omega), hword]
  simp only [hok, if_true, hsub, hsize, hcount, hdata]
  split
  · -- the text, and behind it the block is still clear
    have hend : read (write (fun _ => 0) 0 data) data.length 1 = [0] := by
      rw [read_write_of_disjoint (by simp)]
      rfl
    have htext := read_write_self (fun _ => 0) 0 data
    rw [read_add, Nat.zero_add, hend, htext]
  · rfl

/-- The length in the header, as nothing is lost of the sum. -/
theorem toNat_xmitHdr (env : XmitEnv) {data : CStr} (hlen : data.strlen ≤ 4096) :
    (xmitHdr env data).nlmsgLen.toNat = nlmsgHdrlen + data.bytes.length := by
  simp only [xmitHdr, nlmsgLength, nlmsgHdrlen, BitVec.toNat_ofNat, CStr.strlen] at *
  omega

/-- **What `xmit` does** with a text that its message has room for. -/
theorem xmit_of_le (bo : ByteOrder) (env : XmitEnv) (data : CStr) (hsock : ¬ env.nlSock < 0)
    (hlen : data.strlen ≤ 4096) :
    (xmit bo env (some data)).ret = 0 ∧
    (xmit bo env (some data)).sent =
      if env.sendto then some ((xmitHdr env data).bytes bo ++ data.bytes) else none := by
  have hnat := toNat_xmitHdr env hlen
  have hret : (if env.sendto then (xmitHdr env data).nlmsgLen.toInt else -1) ≠ 0 := by
    split
    · rw [BitVec.toInt_eq_toNat_of_lt (by simp only [CStr.strlen, nlmsgHdrlen] at *; omega), hnat,
        nlmsgHdrlen]
      omega
    · decide
  have hread : read (xmitMessage bo env data) 0 (nlmsgHdrlen + data.bytes.length) =
      (xmitHdr env data).bytes bo ++ data.bytes := by
    have hhdr := read_write_self (write env.stack 0 (List.replicate sizeofM2k 0)) 0
      ((xmitHdr env data).bytes bo)
    rw [Nlmsghdr.length_bytes] at hhdr
    rw [xmitMessage, read_add, Nat.zero_add, read_write_self, read_write_of_disjoint (by simp),
      hhdr]
  simp only [xmit, if_neg hsock, if_neg hret, hnat, hread, and_self]

/-- The stores of `xmit`, if it comes that far. -/
theorem xmit_stores (bo : ByteOrder) (env : XmitEnv) (data : CStr) (hsock : ¬ env.nlSock < 0) :
    (∀ a ∈ (xmit bo env (some data)).stores, a.Inside sizeofM2k) ↔ data.strlen ≤ 4096 := by
  have hstores : (xmit bo env (some data)).stores =
      [⟨0, sizeofM2k⟩, ⟨0, nlmsgHdrlen⟩, ⟨nlmsgHdrlen, data.strlen⟩] := by
    rw [xmit, if_neg hsock, apply_ite XmitResult.stores, ite_self]
  have hclear : (⟨0, sizeofM2k⟩ : Access).Inside sizeofM2k := Nat.le_of_eq (Nat.zero_add _)
  have hhdr : (⟨0, nlmsgHdrlen⟩ : Access).Inside sizeofM2k :=
    (Nat.zero_add nlmsgHdrlen).trans_le (Nat.le_add_right _ _)
  have htext : (⟨nlmsgHdrlen, data.strlen⟩ : Access).Inside sizeofM2k ↔ data.strlen ≤ 4096 :=
    Nat.add_le_add_iff_left
  rw [hstores, ← htext]
  simp [hclear, hhdr]

/-- Every datagram has a buffer to arrive in. -/
theorem exists_carries (sent : List Byte) (h : sent.length < 2 ^ 32) : ∃ skb, Carries skb sent :=
  ⟨⟨write (fun _ => 0) 0 sent, BitVec.ofNat 32 sent.length, fun _ => 0⟩,
    by rw [BitVec.toNat_ofNat, Nat.mod_eq_of_lt h], read_write_self _ 0 sent⟩

theorem holdsString_append (data : CStr) : HoldsString (data.bytes ++ [0]) data := by
  refine ⟨by simp, ?_⟩
  rw [cString, List.takeWhile_append_of_pos fun b hb => decide_eq_true (CStr.ne_zero hb)]
  simp

/-! ## 6. From one side to the other -/

/-- `xmit` stores nothing outside its message, and returns 0 only if it sent a datagram out of
which `nl_recv` passes on the text, wherever it arrives. -/
def Transported (bo : ByteOrder) (env : XmitEnv) (recv : NlRecvEnv) (data : CStr) : Prop :=
  (∀ a ∈ (xmit bo env (some data)).stores, a.Inside sizeofM2k) ∧
  ((xmit bo env (some data)).ret = 0 → ∃ sent ∈ (xmit bo env (some data)).sent,
    ∀ skb, Carries skb sent → ∃ block ∈ (nlRecv bo recv skb).passed, HoldsString block data)

/-- **When a configuration is transported.**  For every text and every outcome of `sendto`: no
store is outside the message, and the result 0 means that the text arrives, exactly when the
socket is closed, or the text has at most 4096 characters, `sendto` does not fail and there is a
block for the text in the kernel.  And whatever datagram arrives, `nl_recv` reads only what is
inside it. -/
theorem transported_iff (bo : ByteOrder) (env : XmitEnv) (recv : NlRecvEnv) (data : CStr) :
    (Transported bo env recv data ↔ env.nlSock < 0 ∨
      data.strlen ≤ 4096 ∧ env.sendto = true ∧ recv.kzalloc.ok (data.strlen + 1) = true) ∧
    ∀ skb, ∀ a ∈ (nlRecv bo recv skb).reads, a.Inside skb.len.toNat := by
  refine ⟨?_, nlRecv_inside bo recv⟩
  by_cases hsock : env.nlSock < 0
  · refine iff_of_true ?_ (Or.inl hsock)
    simp [Transported, xmit, hsock]
  rw [or_iff_right hsock, Transported, xmit_stores bo env data hsock]
  refine and_congr_right ?_
  intro hlen
  obtain ⟨hret, hsent⟩ := xmit_of_le bo env data hsock hlen
  have hpassed : ∀ skb, Carries skb ((xmitHdr env data).bytes bo ++ data.bytes) →
      (nlRecv bo recv skb).passed =
        if recv.kzalloc.ok (data.strlen + 1) then some (data.bytes ++ [0]) else none := by
    intro skb hskb
    refine nlRecv_passed recv hskb (toNat_xmitHdr env hlen) ?_
    simp only [CStr.strlen] at hlen
    omega
  rw [hret, hsent]
  cases hsendto : env.sendto with
  | false => simp
  | true =>
    cases hok : recv.kzalloc.ok (data.strlen + 1) with
    | false =>
      rw [hok] at hpassed
      obtain ⟨skb, hskb⟩ := exists_carries
        ((xmitHdr env data).bytes bo ++ data.bytes) (by
          simp only [List.length_append, Nlmsghdr.length_bytes, nlmsgHdrlen, CStr.strlen] at *
          omega)
      simp only [if_true, Option.mem_some_iff, forall_const, exists_eq_left', Bool.false_eq_true,
        and_false, iff_false]
      intro h
      obtain ⟨block, hblock, -⟩ := h skb hskb
      rw [hpassed skb hskb] at hblock
      exact absurd hblock (by simp)
    | true =>
      rw [hok] at hpassed
      simp only [if_true, Option.mem_some_iff, forall_const, exists_eq_left', and_self, iff_true]
      intro skb hskb
      exact ⟨_, hpassed skb hskb, holdsString_append data⟩

/-- A text of `n` blanks. -/
def blanks (n : Nat) : CStr :=
  ⟨List.replicate n 0x20, fun h => absurd (List.eq_of_mem_replicate h) (by decide)⟩

@[simp] theorem strlen_blanks (n : Nat) : (blanks n).strlen = n := List.length_replicate

/-- A text of 4097 characters is stored past the end of the message; and one of a single
character is not sent, as `sendto` fails, and `xmit` returns 0. -/
theorem transported_broken :
    (∃ a ∈ (xmit .little ⟨3, 1, fun _ => 0, true⟩ (some (blanks 4097))).stores,
      ¬ a.Inside sizeofM2k) ∧
    (xmit .little ⟨3, 1, fun _ => 0, false⟩ (some (blanks 1))).ret = 0 ∧
    (xmit .little ⟨3, 1, fun _ => 0, false⟩ (some (blanks 1))).sent = none := by
  constructor
  · have hlong := (xmit_stores .little ⟨3, 1, fun _ => 0, true⟩ (blanks 4097)
      (by decide)).not.mpr (by rw [strlen_blanks]; decide)
    simpa using hlong
  · have hshort := xmit_of_le .little ⟨3, 1, fun _ => 0, false⟩ (blanks 1) (by decide)
      (by rw [strlen_blanks]; decide)
    exact ⟨hshort.1, by rw [hshort.2]; rfl⟩

end Puppies
