/-
# The checksums of the answers (`drivers/nos/src/nos_hooks.c`)

`auth_URL` and `auth_reset` put together the same frames as their copies in `redirect.c`
(`Ntrack/RedirectFrame`).  What is their own is the TCP checksum: `tcp_v4_check` lays out the
pseudo-header in a structure and has the kernel sum it up, on top of the sum of the segment.

The kernel's `csum_partial` returns 32 bits that stand for a sum modulo `2 ^ 16 - 1`; which ones
differs from one architecture to the other, and `csum_fold` does not see the difference.  So it
does not matter either that the words are added in the order of the host and verified in that of
the network, nor that the segment, which may have an odd length, is added before the
pseudo-header.
-/
import Puppies.Lib.OnesSum
import Puppies.Ntrack.RedirectFrame

namespace Puppies

open ByteMem OnesSum

/-! ## 1. The functions of the kernel -/

/-- The checksum functions that the module calls. -/
structure CsumLib where
  csumPartial : List Byte → BitVec 32 → BitVec 32
  csumFold : BitVec 32 → BitVec 16
  /-- what `ip_send_check` stores, for a header without checksum -/
  ipSendCheck : List Byte → BitVec 16

/-- What the first two compute: a sum of 32 bits for the words and what was there before; and the
complement of the 16 bits that are left when its halves are added. -/
structure CsumLib.Spec (lib : CsumLib) (bo : ByteOrder) : Prop where
  csumPartial : ∀ bs base,
    (lib.csumPartial bs base).toNat ≡ (words bo bs).sum + base.toNat [MOD 2 ^ 16 - 1]
  csumFold : ∀ csum, (lib.csumFold csum).toNat +
    addc (2 ^ 16) (csum.toNat / 2 ^ 16) (csum.toNat % 2 ^ 16) = 2 ^ 16 - 1

/-- `struct pse_hdr_st` -/
def pseHdr (bo : ByteOrder) (len : Int) (saddr daddr : BitVec 32) : List Byte :=
  bo.bytes32 saddr ++ (bo.bytes32 daddr ++ ([0, IPPROTO_TCP] ++
    bo.bytes16 (htons bo (BitVec.ofInt 16 len))))

/-- `tcp_v4_check` -/
def tcpV4Check (lib : CsumLib) (bo : ByteOrder) (len : Int) (saddr daddr base : BitVec 32) :
    BitVec 16 :=
  lib.csumFold (lib.csumPartial (pseHdr bo len saddr daddr) base)

/-- The checksums of a frame, with this `tcp_v4_check`. -/
def CsumLib.checksums (lib : CsumLib) (bo : ByteOrder) : Checksums :=
  ⟨lib.ipSendCheck, fun bs => lib.csumPartial bs 0, tcpV4Check lib bo⟩

/-- `auth_URL` -/
def authURL (lib : CsumLib) (bo : ByteOrder) (skbs : Bool) (url : List Byte) (skb : SkBuff) :
    Int × Option (List Byte) :=
  authHttp (lib.checksums bo) bo skbs url skb

/-- `auth_reset` -/
def nosAuthReset (lib : CsumLib) (bo : ByteOrder) (skbs : Bool) (skb : SkBuff) :
    Int × Option (List Byte) :=
  authReset (lib.checksums bo) bo skbs skb

/-! ## 2. Verification -/

namespace SkBuff

variable (skb : SkBuff)

/-- The length of the TCP segment, header and payload. -/
def tcpLen : Nat := skb.totLen.toNat - skb.ihl

/-- The TCP segment. -/
def tcpSegment : List Byte := read skb.data skb.ihl skb.tcpLen

/-- The pseudo-header of the receiver: source, destination, zero, protocol and length. -/
def pseudoHeader : List Byte :=
  ByteOrder.big.bytes32 skb.saddr ++ (ByteOrder.big.bytes32 skb.daddr ++ ([0, IPPROTO_TCP] ++
    ByteOrder.big.bytes16 (BitVec.ofNat 16 skb.tcpLen)))

end SkBuff

/-- **The segment passes the verification of its checksum**, and all of it is verified. -/
structure TcpVerifies (skb : SkBuff) (body : List Byte) : Prop where
  length : skb.tcpSegment.length = tcphdrSize + body.length
  payload : skb.payload = body
  sum : onesSum (2 ^ 16) (words .big (skb.pseudoHeader ++ skb.tcpSegment)) = 2 ^ 16 - 1

/-- The segment without its checksum, and with it. -/
theorem sum_words_tcphdr (bo : ByteOrder) (h : Tcphdr) (body : List Byte) (check : BitVec 16) :
    (words bo ({ h with check := check }.bytes bo ++ body)).sum =
      (words bo ({ h with check := 0 }.bytes bo ++ body)).sum + check.toNat := by
  have hzero : (0 : BitVec 16).toNat = 0 := rfl
  simp (disch := simp) only [Tcphdr.bytes, List.append_assoc, List.cons_append, List.nil_append,
    words, words_append, words_bytes16, List.sum_append, List.sum_cons, hzero]
  omega

/-- Adding the halves of a sum. -/
theorem addc_halves_modEq (n : Nat) :
    addc (2 ^ 16) (n / 2 ^ 16) (n % 2 ^ 16) ≡ n [MOD 2 ^ 16 - 1] := by
  have hsplit : n = n / 2 ^ 16 + n % 2 ^ 16 + (2 ^ 16 - 1) * (n / 2 ^ 16) := by omega
  calc addc (2 ^ 16) (n / 2 ^ 16) (n % 2 ^ 16)
      ≡ n / 2 ^ 16 + n % 2 ^ 16 [MOD 2 ^ 16 - 1] := addc_modEq _ _
    _ ≡ n / 2 ^ 16 + n % 2 ^ 16 + (2 ^ 16 - 1) * (n / 2 ^ 16) [MOD 2 ^ 16 - 1] :=
        (Nat.add_mul_mod_self_left _ _ _).symm
    _ = n := hsplit.symm

/-- **`tcp_v4_check` completes the sum** of pseudo-header and segment to zero. -/
theorem dvd_tcpV4Check {lib : CsumLib} {bo : ByteOrder} (hspec : lib.Spec bo) (len : Int)
    (saddr daddr : BitVec 32) (segment : List Byte) :
    2 ^ 16 - 1 ∣ (words bo (pseHdr bo len saddr daddr)).sum + ((words bo segment).sum +
      (tcpV4Check lib bo len saddr daddr (lib.csumPartial segment 0)).toNat) := by
  have hcheck := hspec.csumFold
    (lib.csumPartial (pseHdr bo len saddr daddr) (lib.csumPartial segment 0))
  have hfold := addc_halves_modEq
    (lib.csumPartial (pseHdr bo len saddr daddr) (lib.csumPartial segment 0)).toNat
  have hpseudo := hspec.csumPartial (pseHdr bo len saddr daddr) (lib.csumPartial segment 0)
  have hsegment : (lib.csumPartial segment 0).toNat ≡ (words bo segment).sum [MOD 2 ^ 16 - 1] :=
    hspec.csumPartial segment 0
  have hsum := hfold.trans (hpseudo.trans (hsegment.add_left _))
  rw [← Nat.modEq_zero_iff_dvd, ← Nat.add_assoc, tcpV4Check]
  calc _ ≡ _ [MOD 2 ^ 16 - 1] := hsum.symm.add_right _
    _ = 2 ^ 16 - 1 := by rw [Nat.add_comm]; exact hcheck
    _ ≡ 0 [MOD 2 ^ 16 - 1] := Nat.modEq_zero_iff_dvd.mpr (Nat.dvd_refl _)

/-- The checksum is that of the whole segment. -/
theorem withChecksums_tcp {lib : CsumLib} {bo : ByteOrder} {f : Frame} (hihl : f.ip.ihl = 5)
    (htot : (htons bo f.ip.totLen).toNat = iphdrSize + tcphdrSize + f.body.length) :
    (withChecksums (lib.checksums bo) bo f).tcp =
      { f.tcp with
        check := tcpV4Check lib bo (tcphdrSize + f.body.length : Nat) f.ip.saddr f.ip.daddr
          (lib.csumPartial (f.tcp.bytes bo ++ f.body) 0) } := by
  have hlen : ((htons bo f.ip.totLen).toNat : Int) - f.ip.ihl.toNat * 4 =
      (tcphdrSize + f.body.length : Nat) := by
    have hfive : (5 : BitVec 4).toNat = 5 := rfl
    rw [htot, hihl, hfive, iphdrSize]
    omega
  have hwhole : (f.tcp.bytes bo ++ f.body).take (tcphdrSize + f.body.length) =
      f.tcp.bytes bo ++ f.body :=
    List.take_of_length_le (by rw [List.length_append, Tcphdr.length_bytes])
  simp only [withChecksums, CsumLib.checksums, hlen, Int.toNat_natCast, hwhole]

/-- **A frame with its checksums is verified**, if its headers have no options and no checksum
yet and the length in its IP header is that of the packet. -/
theorem tcpVerifies_withChecksums {lib : CsumLib} {bo : ByteOrder} (hspec : lib.Spec bo)
    {f : Frame} (hihl : f.ip.ihl = 5) (hdoff : f.tcp.doff = 5) (hcheck : f.tcp.check = 0)
    (htot : (htons bo f.ip.totLen).toNat = iphdrSize + tcphdrSize + f.body.length) :
    TcpVerifies (received ((withChecksums (lib.checksums bo) bo f).bytes bo)) f.body := by
  have hbody : iphdrSize + tcphdrSize + f.body.length < 2 ^ 32 := by
    have := (htons bo f.ip.totLen).isLt
    omega
  have hread : ReadsAs bo _ (withChecksums (lib.checksums bo) bo f) :=
    received_readsAs hihl hdoff hbody
  have htcpLen : (received ((withChecksums (lib.checksums bo) bo f).bytes bo)).tcpLen =
      tcphdrSize + f.body.length := by
    have htotLen := hread.totLen
    rw [SkBuff.tcpLen, hread.ihl, htotLen]
    change (htons bo f.ip.totLen).toNat - iphdrSize = _
    rw [htot]
    omega
  -- the segment, as it is received
  have hsegment : (received ((withChecksums (lib.checksums bo) bo f).bytes bo)).tcpSegment =
      (withChecksums (lib.checksums bo) bo f).tcp.bytes bo ++ f.body := by
    have hall := read_ofBytes ((withChecksums (lib.checksums bo) bo f).ip.bytes bo)
      ((withChecksums (lib.checksums bo) bo f).tcp.bytes bo ++ f.body) []
    rw [List.append_nil, Iphdr.length_bytes, List.length_append, Tcphdr.length_bytes] at hall
    rw [SkBuff.tcpSegment, htcpLen, hread.ihl, received_data]
    exact hall
  refine ⟨?_, hread.payload, ?_⟩
  · rw [hsegment, List.length_append, Tcphdr.length_bytes]
  · -- the pseudo-header, as the module laid it out
    have hpseudo : (received ((withChecksums (lib.checksums bo) bo f).bytes bo)).pseudoHeader =
        pseHdr bo (tcphdrSize + f.body.length : Nat) f.ip.saddr f.ip.daddr := by
      rw [SkBuff.pseudoHeader, htcpLen, hread.saddr, hread.daddr, bytes32_htonl, bytes32_htonl,
        pseHdr, ← bytes16_htons bo, htons_htons, BitVec.ofInt_natCast]
      rfl
    rw [onesSum_eq_top_iff (by decide) (words_lt _ _), ← dvd_sum_words_iff bo,
      exists_words_ne_zero_iff, hpseudo, hsegment]
    constructor
    · have hself : { f.tcp with check := 0 } = f.tcp := by rw [← hcheck]
      rw [words_append (by simp [pseHdr]), List.sum_append, withChecksums_tcp hihl htot,
        sum_words_tcphdr, hself]
      exact dvd_tcpV4Check hspec _ _ _ _
    · exact ⟨IPPROTO_TCP, by simp [pseHdr], by decide⟩

/-- **A segment is sent that is verified**, if there is memory for it, and none otherwise.  What
is verified has the protocol TCP in the pseudo-header; the protocol in the IP header is that of
the packet. -/
def SendsVerified (skbs : Bool) (skb : SkBuff) (body : List Byte)
    (sent : Int × Option (List Byte)) : Prop :=
  if skbs then ∃ frame, sent = (0, some frame) ∧ TcpVerifies (received frame) body ∧
    (received frame).protocol = skb.protocol
  else sent = (-1, none)

section Segments

variable {lib : CsumLib} {bo : ByteOrder} {skb : SkBuff}

/-- The segment with the response. -/
theorem httpFrame_verifies (hspec : lib.Spec bo) {url : List Byte}
    (hlen : iphdrSize + tcphdrSize + url.length < 2 ^ 16) :
    TcpVerifies (received ((withChecksums (lib.checksums bo) bo (httpFrame bo url skb)).bytes bo))
      url := by
  refine tcpVerifies_withChecksums hspec rfl rfl rfl ?_
  change (htons bo (htons bo (BitVec.ofNat 16 (iphdrSize + tcphdrSize + url.length)))).toNat = _
  rw [htons_htons, BitVec.toNat_ofNat, Nat.mod_eq_of_lt hlen]
  rfl

/-- The one that resets. -/
theorem resetFrame_verifies (hspec : lib.Spec bo) :
    TcpVerifies (received ((withChecksums (lib.checksums bo) bo (resetFrame bo skb)).bytes bo))
      [] := by
  refine tcpVerifies_withChecksums hspec rfl rfl rfl ?_
  change (htons bo (htons bo (BitVec.ofNat 16 (iphdrSize + tcphdrSize)))).toNat = _
  rw [htons_htons]
  rfl

end Segments

/-- **Both calls send segments that are verified**, for every packet and every response that has
room in an IP packet. -/
theorem segmentsVerify {lib : CsumLib} {bo : ByteOrder} (hspec : lib.Spec bo) (skbs : Bool)
    (skb : SkBuff) :
    (∀ url, iphdrSize + tcphdrSize + url.length < 2 ^ 16 →
      SendsVerified skbs skb url (authURL lib bo skbs url skb)) ∧
      SendsVerified skbs skb [] (nosAuthReset lib bo skbs skb) := by
  cases skbs with
  | false => exact ⟨fun _ _ => rfl, rfl⟩
  | true =>
    constructor
    · intro url hlen
      have hread : ReadsAs bo _ (withChecksums (lib.checksums bo) bo (httpFrame bo url skb)) :=
        httpFrame_readsAs (Nat.lt_trans hlen (by decide))
      exact ⟨_, rfl, httpFrame_verifies hspec hlen, hread.protocol⟩
    · have hread : ReadsAs bo _ (withChecksums (lib.checksums bo) bo (resetFrame bo skb)) :=
        resetFrame_readsAs
      exact ⟨_, rfl, resetFrame_verifies hspec, hread.protocol⟩

/-- A kernel that adds the words to 32 bits with end-around carry. -/
def plainCsum (bo : ByteOrder) : CsumLib where
  csumPartial := fun bs base =>
    BitVec.ofNat 32 ((words bo bs).foldl (addc (2 ^ 32)) base.toNat)
  csumFold := fun csum =>
    BitVec.ofNat 16 (2 ^ 16 - 1 - addc (2 ^ 16) (csum.toNat / 2 ^ 16) (csum.toNat % 2 ^ 16))
  ipSendCheck := fun _ => 0

theorem plainCsum_spec (bo : ByteOrder) : (plainCsum bo).Spec bo := by
  constructor
  · intro bs base
    have hlt : (words bo bs).foldl (addc (2 ^ 32)) base.toNat < 2 ^ 32 :=
      foldl_addc_lt base.isLt fun w hw => Nat.lt_trans (words_lt bo bs w hw) (by decide)
    have hmod : (words bo bs).foldl (addc (2 ^ 32)) base.toNat ≡
        base.toNat + (words bo bs).sum [MOD 2 ^ 16 - 1] :=
      (foldl_addc_modEq (words bo bs) base.toNat).of_dvd (by decide)
    change (BitVec.ofNat 32 _).toNat ≡ _ [MOD _]
    rw [BitVec.toNat_ofNat, Nat.mod_eq_of_lt hlt, Nat.add_comm (words bo bs).sum]
    exact hmod
  · intro csum
    have hcsum := csum.isLt
    have hlt : addc (2 ^ 16) (csum.toNat / 2 ^ 16) (csum.toNat % 2 ^ 16) < 2 ^ 16 :=
      addc_lt (by omega) (by omega)
    change (BitVec.ofNat 16 _).toNat + _ = _
    rw [BitVec.toNat_ofNat]
    omega

/-- A response of three bytes, and the reset. -/
theorem segmentsVerify_odd :
    (∃ frame, authURL (plainCsum .little) .little true GET getRequest = (0, some frame) ∧
      TcpVerifies (received frame) GET) ∧
    ∃ frame, nosAuthReset (plainCsum .little) .little true getRequest = (0, some frame) ∧
      TcpVerifies (received frame) [] := by
  obtain ⟨hresponse, hreset⟩ := segmentsVerify (plainCsum_spec .little) true getRequest
  obtain ⟨frame, hsent, hverifies, -⟩ := hresponse GET (by decide)
  obtain ⟨frame', hsent', hverifies', -⟩ := hreset
  exact ⟨⟨frame, hsent, hverifies⟩, ⟨frame', hsent', hverifies'⟩⟩

end Puppies
