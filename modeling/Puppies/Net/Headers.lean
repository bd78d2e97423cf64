/-
# Frames that the modules send

`Packet.lean` is about what the hooks read.  Some packets they answer, and then they put a frame
together: an Ethernet, an IPv4 and a TCP header, each a C struct whose fields are words of the
HOST.  A field that is copied from one packet to another keeps its bytes; a number has to go
through `htons` or `htonl`; and a constant that does not is a different number in the frame on
hosts of different byte orders.

The headers are records of host words, and `bytes` is what they are in memory.  The other
direction is reading the frame as the receiver does, with the functions of `Packet.lean` and
those of section 3, all of which read in network order.
-/
import Mathlib.Algebra.Group.Nat.Defs
import Puppies.Net.Packet

namespace Puppies

open ByteMem

/-! ## 1. Network order -/

/-- `htons`, which is also `ntohs`. -/
def htons (bo : ByteOrder) (v : BitVec 16) : BitVec 16 :=
  match bo with
  | .little => v.extractLsb' 0 8 ++ v.extractLsb' 8 8
  | .big => v

/-- `htonl`, which is also `ntohl`. -/
def htonl (bo : ByteOrder) (v : BitVec 32) : BitVec 32 :=
  match bo with
  | .little =>
    (v.extractLsb' 0 8 ++ v.extractLsb' 8 8) ++ (v.extractLsb' 16 8 ++ v.extractLsb' 24 8)
  | .big => v

/-- A 16-bit word in memory, read in network order. -/
theorem be16_of_read {bo : ByteOrder} {m : Mem} {off : Nat} {v : BitVec 16}
    (h : read m off 2 = bo.bytes16 v) : be16 m off = htons bo v := by
  have hread : [m off, m (off + 1)] = bo.bytes16 v := h
  cases bo with
  | little =>
    simp only [ByteOrder.bytes16, List.cons.injEq, and_true] at hread
    rw [be16, hread.1, hread.2, htons]
  | big =>
    simp only [ByteOrder.bytes16, List.cons.injEq, and_true] at hread
    rw [be16, hread.1, hread.2, htons, append_extractLsb'16]

theorem be32_of_read {bo : ByteOrder} {m : Mem} {off : Nat} {v : BitVec 32}
    (h : read m off 4 = bo.bytes32 v) : be32 m off = htonl bo v := by
  have hread : [m off, m (off + 1), m (off + 2), m (off + 3)] = bo.bytes32 v := h
  cases bo with
  | little =>
    simp only [ByteOrder.bytes32, List.cons.injEq, and_true] at hread
    obtain ⟨h0, h1, h2, h3⟩ := hread
    rw [be32, be16, be16, h0, h1, h2, h3, htonl]
  | big =>
    simp only [ByteOrder.bytes32, List.cons.injEq, and_true] at hread
    obtain ⟨h0, h1, h2, h3⟩ := hread
    rw [be32, be16, be16, h0, h1, h2, h3, htonl]
    refine BitVec.eq_of_getLsbD_eq ?_
    intro i hi
    simp only [BitVec.getLsbD_append, BitVec.getLsbD_extractLsb']
    grind

/-- The last byte of some bytes in a row. -/
theorem extractLsb'_append_last {w : Nat} (x : BitVec w) (y : Byte) :
    (x ++ y).extractLsb' 0 8 = y := by
  refine BitVec.eq_of_getLsbD_eq ?_
  intro i hi
  simp only [BitVec.getLsbD_append, BitVec.getLsbD_extractLsb']
  grind

/-- The bytes in front of it. -/
theorem extractLsb'_append_front {w : Nat} (x : BitVec w) (y : Byte) (k : Nat) :
    (x ++ y).extractLsb' (k + 8) 8 = x.extractLsb' k 8 := by
  refine BitVec.eq_of_getLsbD_eq ?_
  intro i hi
  simp only [BitVec.getLsbD_append, BitVec.getLsbD_extractLsb']
  grind

/-- A word that is read and stored again keeps its bytes. -/
theorem bytes16_word16 (bo : ByteOrder) (m : Mem) (off : Nat) :
    bo.bytes16 (bo.word16 m off) = read m off 2 := by
  have hread : read m off 2 = [m off, m (off + 1)] := rfl
  cases bo <;>
    simp [ByteOrder.word16, ByteOrder.bytes16, hread, extractLsb'_append_last,
      extractLsb'_append_front]

theorem bytes32_word32 (bo : ByteOrder) (m : Mem) (off : Nat) :
    bo.bytes32 (bo.word32 m off) = read m off 4 := by
  have hread : read m off 4 = [m off, m (off + 1), m (off + 2), m (off + 3)] := rfl
  cases bo <;>
    simp [ByteOrder.word32, ByteOrder.bytes32, hread, extractLsb'_append_last,
      extractLsb'_append_front]

/-- `ntohs` of a word that is read is the number in network order. -/
@[simp] theorem htons_word16 (bo : ByteOrder) (m : Mem) (off : Nat) :
    htons bo (bo.word16 m off) = be16 m off := by
  exact (be16_of_read (bytes16_word16 bo m off).symm).symm

@[simp] theorem htonl_word32 (bo : ByteOrder) (m : Mem) (off : Nat) :
    htonl bo (bo.word32 m off) = be32 m off := by
  exact (be32_of_read (bytes32_word32 bo m off).symm).symm

@[simp] theorem htons_htons (bo : ByteOrder) (v : BitVec 16) : htons bo (htons bo v) = v := by
  cases bo with
  | little =>
    refine BitVec.eq_of_getLsbD_eq ?_
    intro i hi
    simp only [htons, BitVec.getLsbD_append, BitVec.getLsbD_extractLsb']
    grind
  | big => rfl

@[simp] theorem htonl_htonl (bo : ByteOrder) (v : BitVec 32) : htonl bo (htonl bo v) = v := by
  cases bo with
  | little =>
    refine BitVec.eq_of_getLsbD_eq ?_
    intro i hi
    simp only [htonl, BitVec.getLsbD_append, BitVec.getLsbD_extractLsb']
    grind
  | big => rfl

/-- A word of the host, as the receiver would have stored it. -/
theorem bytes16_htons (bo : ByteOrder) (v : BitVec 16) :
    ByteOrder.big.bytes16 (htons bo v) = bo.bytes16 v := by
  cases bo with
  | little =>
    simp [htons, ByteOrder.bytes16, extractLsb'_append_last, extractLsb'_append_front]
  | big => rfl

theorem bytes32_htonl (bo : ByteOrder) (v : BitVec 32) :
    ByteOrder.big.bytes32 (htonl bo v) = bo.bytes32 v := by
  cases bo with
  | little =>
    simp only [htonl, ByteOrder.bytes32, List.cons.injEq, and_true]
    refine ⟨?_, ?_, ?_, ?_⟩ <;>
    · refine BitVec.eq_of_getLsbD_eq ?_
      intro i hi
      simp only [BitVec.getLsbD_append, BitVec.getLsbD_extractLsb']
      grind
  | big => rfl

/-! ## 2. The headers -/

def ETH_P_IP : BitVec 16 := 0x0800

/-- `struct ethhdr` -/
structure Ethhdr where
  hDest : Mac
  hSource : Mac
  hProto : BitVec 16

/-- `struct iphdr`.  The two bit fields share the first byte. -/
structure Iphdr where
  version : BitVec 4
  ihl : BitVec 4
  tos : Byte
  totLen : BitVec 16
  id : BitVec 16
  fragOff : BitVec 16
  ttl : Byte
  protocol : Byte
  check : BitVec 16
  saddr : BitVec 32
  daddr : BitVec 32

/-- `struct tcphdr`.  The flags are the byte that they share. -/
structure Tcphdr where
  source : BitVec 16
  dest : BitVec 16
  seq : BitVec 32
  ackSeq : BitVec 32
  doff : BitVec 4
  flags : Byte
  window : BitVec 16
  check : BitVec 16
  urgPtr : BitVec 16

def ethhdrSize : Nat := 14
def iphdrSize : Nat := 20
def tcphdrSize : Nat := 20

def Ethhdr.bytes (bo : ByteOrder) (h : Ethhdr) : List Byte :=
  h.hDest.1 ++ (h.hSource.1 ++ bo.bytes16 h.hProto)

def Iphdr.bytes (bo : ByteOrder) (h : Iphdr) : List Byte :=
  [h.version ++ h.ihl, h.tos] ++ (bo.bytes16 h.totLen ++ (bo.bytes16 h.id ++
    (bo.bytes16 h.fragOff ++ ([h.ttl, h.protocol] ++ (bo.bytes16 h.check ++
      (bo.bytes32 h.saddr ++ bo.bytes32 h.daddr))))))

def Tcphdr.bytes (bo : ByteOrder) (h : Tcphdr) : List Byte :=
  bo.bytes16 h.source ++ (bo.bytes16 h.dest ++ (bo.bytes32 h.seq ++ (bo.bytes32 h.ackSeq ++
    ([h.doff ++ 0#4, h.flags] ++ (bo.bytes16 h.window ++ (bo.bytes16 h.check ++
      bo.bytes16 h.urgPtr))))))

@[simp] theorem Ethhdr.length_bytes (bo : ByteOrder) (h : Ethhdr) :
    (h.bytes bo).length = ethhdrSize := by
  simp [Ethhdr.bytes, h.hDest.2, h.hSource.2, ethAlen, ethhdrSize]

@[simp] theorem Iphdr.length_bytes (bo : ByteOrder) (h : Iphdr) :
    (h.bytes bo).length = iphdrSize := by
  simp [Iphdr.bytes, iphdrSize]

@[simp] theorem Tcphdr.length_bytes (bo : ByteOrder) (h : Tcphdr) :
    (h.bytes bo).length = tcphdrSize := by
  simp [Tcphdr.bytes, tcphdrSize]

/-- A TCP segment in an IPv4 packet in an Ethernet frame. -/
structure Frame where
  eth : Ethhdr
  ip : Iphdr
  tcp : Tcphdr
  body : List Byte

def Frame.bytes (bo : ByteOrder) (f : Frame) : List Byte :=
  f.eth.bytes bo ++ (f.ip.bytes bo ++ (f.tcp.bytes bo ++ f.body))

/-! ## 3. Reading a frame -/

namespace SkBuff

variable (skb : SkBuff)

def macDest : Mac := ⟨read skb.macHeader 0 ethAlen, length_read _ _ _⟩
def ethProto : BitVec 16 := be16 skb.macHeader 12
def version : BitVec 4 := (skb.data 0).extractLsb' 4 4
def totLen : BitVec 16 := be16 skb.data 2

/-- The offset of a fragment, in units of 8 bytes. -/
def fragOffset : BitVec 13 := (be16 skb.data 6).extractLsb' 0 13

def moreFragments : Bool := (be16 skb.data 6).getLsbD 13
def dontFragment : Bool := (be16 skb.data 6).getLsbD 14
def tcpSource : BitVec 16 := be16 skb.data skb.ihl
def tcpDest : BitVec 16 := be16 skb.data (skb.ihl + 2)
def seq : BitVec 32 := be32 skb.data (skb.ihl + 4)
def ackSeq : BitVec 32 := be32 skb.data (skb.ihl + 8)

/-- What is behind the headers, up to the end of the packet. -/
def payload : List Byte := read skb.data skb.payloadOff (skb.len.toNat - skb.payloadOff)

end SkBuff

/-- A frame, as the hooks of the receiver are given it. -/
def received (frame : List Byte) : SkBuff where
  data := fun i => ofBytes frame (ethhdrSize + i)
  len := BitVec.ofNat 32 (frame.length - ethhdrSize)
  macHeader := ofBytes frame

/-- **What the receiver of `f` reads.** -/
structure ReadsAs (bo : ByteOrder) (skb : SkBuff) (f : Frame) : Prop where
  macDest : skb.macDest = f.eth.hDest
  macSource : macSource skb = f.eth.hSource
  ethProto : skb.ethProto = htons bo f.eth.hProto
  version : skb.version = f.ip.version
  ihl : skb.ihl = iphdrSize
  totLen : skb.totLen = htons bo f.ip.totLen
  frag : be16 skb.data 6 = htons bo f.ip.fragOff
  protocol : skb.protocol = f.ip.protocol
  saddr : skb.saddr = htonl bo f.ip.saddr
  daddr : skb.daddr = htonl bo f.ip.daddr
  tcpSource : skb.tcpSource = htons bo f.tcp.source
  tcpDest : skb.tcpDest = htons bo f.tcp.dest
  seq : skb.seq = htonl bo f.tcp.seq
  ackSeq : skb.ackSeq = htonl bo f.tcp.ackSeq
  doff : skb.doff = tcphdrSize
  flags : skb.data (skb.ihl + 13) = f.tcp.flags
  payload : skb.payload = f.body

section Fields

variable {bo : ByteOrder} {m : Mem} {off : Nat}

theorem Ethhdr.fields {h : Ethhdr} (hm : read m off ethhdrSize = h.bytes bo) :
    read m off ethAlen = h.hDest.1 ∧ read m (off + ethAlen) ethAlen = h.hSource.1 ∧
      be16 m (off + 12) = htons bo h.hProto := by
  obtain ⟨h0, hm⟩ := read_append_inj (n := 8) h.hDest.2 hm
  obtain ⟨h1, hm⟩ := read_append_inj (n := 2) h.hSource.2 hm
  exact ⟨h0, h1, be16_of_read hm⟩

theorem Iphdr.fields {h : Iphdr} (hm : read m off iphdrSize = h.bytes bo) :
    m off = h.version ++ h.ihl ∧ be16 m (off + 2) = htons bo h.totLen ∧
      be16 m (off + 6) = htons bo h.fragOff ∧ m (off + 9) = h.protocol ∧
      be32 m (off + 12) = htonl bo h.saddr ∧ be32 m (off + 16) = htonl bo h.daddr := by
  obtain ⟨h0, hm⟩ := read_append_inj (k := 2) (n := 18) rfl hm
  obtain ⟨h2, hm⟩ := read_append_inj (k := 2) (n := 16) (bo.length_bytes16 _) hm
  obtain ⟨-, hm⟩ := read_append_inj (k := 2) (n := 14) (bo.length_bytes16 _) hm
  obtain ⟨h6, hm⟩ := read_append_inj (k := 2) (n := 12) (bo.length_bytes16 _) hm
  obtain ⟨h8, hm⟩ := read_append_inj (k := 2) (n := 10) rfl hm
  obtain ⟨-, hm⟩ := read_append_inj (k := 2) (n := 8) (bo.length_bytes16 _) hm
  obtain ⟨h12, h16⟩ := read_append_inj (k := 4) (n := 4) (bo.length_bytes32 _) hm
  have hfirst : [m off, m (off + 1)] = [h.version ++ h.ihl, h.tos] := h0
  have hproto : [m (off + 8), m (off + 9)] = [h.ttl, h.protocol] := h8
  simp only [List.cons.injEq, and_true] at hfirst hproto
  exact ⟨hfirst.1, be16_of_read h2, be16_of_read h6, hproto.2, be32_of_read h12, be32_of_read h16⟩

theorem Tcphdr.fields {h : Tcphdr} (hm : read m off tcphdrSize = h.bytes bo) :
    be16 m off = htons bo h.source ∧ be16 m (off + 2) = htons bo h.dest ∧
      be32 m (off + 4) = htonl bo h.seq ∧ be32 m (off + 8) = htonl bo h.ackSeq ∧
      m (off + 12) = h.doff ++ 0#4 ∧ m (off + 13) = h.flags := by
  obtain ⟨h0, hm⟩ := read_append_inj (k := 2) (n := 18) (bo.length_bytes16 _) hm
  obtain ⟨h2, hm⟩ := read_append_inj (k := 2) (n := 16) (bo.length_bytes16 _) hm
  obtain ⟨h4, hm⟩ := read_append_inj (k := 4) (n := 12) (bo.length_bytes32 _) hm
  obtain ⟨h8, hm⟩ := read_append_inj (k := 4) (n := 8) (bo.length_bytes32 _) hm
  obtain ⟨h12, -⟩ := read_append_inj (k := 2) (n := 6) rfl hm
  have hdoff : [m (off + 12), m (off + 13)] = [h.doff ++ 0#4, h.flags] := h12
  simp only [List.cons.injEq, and_true] at hdoff
  exact ⟨be16_of_read h0, be16_of_read h2, be32_of_read h4, be32_of_read h8, hdoff.1, hdoff.2⟩

end Fields

/-- The bit fields of a byte. -/
theorem extractLsb'_nibbles (x y : BitVec 4) :
    (x ++ y).extractLsb' 0 4 = y ∧ (x ++ y).extractLsb' 4 4 = x := by
  revert x y
  decide

/-- The memory behind the Ethernet header. -/
theorem received_data (bo : ByteOrder) (f : Frame) :
    (received (f.bytes bo)).data = ofBytes (f.ip.bytes bo ++ (f.tcp.bytes bo ++ f.body)) := by
  funext i
  have hlen : ethhdrSize = (f.eth.bytes bo).length := (f.eth.length_bytes bo).symm
  dsimp only [received, Frame.bytes]
  rw [hlen]
  exact ofBytes_append_add _ _ i

/-- **A frame with headers of the usual size is read as it was written.** -/
theorem received_readsAs {bo : ByteOrder} {f : Frame} (hihl : f.ip.ihl = 5) (hdoff : f.tcp.doff = 5)
    (hbody : iphdrSize + tcphdrSize + f.body.length < 2 ^ 32) :
    ReadsAs bo (received (f.bytes bo)) f := by
  have hdata := received_data bo f
  have heth : read (received (f.bytes bo)).macHeader 0 ethhdrSize = f.eth.bytes bo := by
    have hread := read_ofBytes [] (f.eth.bytes bo) (f.ip.bytes bo ++ (f.tcp.bytes bo ++ f.body))
    rwa [Ethhdr.length_bytes] at hread
  have hip : read (received (f.bytes bo)).data 0 iphdrSize = f.ip.bytes bo := by
    have hread := read_ofBytes [] (f.ip.bytes bo) (f.tcp.bytes bo ++ f.body)
    rwa [Iphdr.length_bytes, List.nil_append, ← hdata] at hread
  have htcp : read (received (f.bytes bo)).data iphdrSize tcphdrSize = f.tcp.bytes bo := by
    have hread := read_ofBytes (f.ip.bytes bo) (f.tcp.bytes bo) f.body
    rwa [Iphdr.length_bytes, Tcphdr.length_bytes, List.append_assoc, ← hdata] at hread
  have hpayload : read (received (f.bytes bo)).data (iphdrSize + tcphdrSize) f.body.length =
      f.body := by
    have hread := read_ofBytes (f.ip.bytes bo ++ f.tcp.bytes bo) f.body []
    rwa [List.length_append, Iphdr.length_bytes, Tcphdr.length_bytes, List.append_nil,
      List.append_assoc, ← hdata] at hread
  have hlen : (received (f.bytes bo)).len.toNat = iphdrSize + tcphdrSize + f.body.length := by
    have htotal : (f.bytes bo).length - ethhdrSize = iphdrSize + tcphdrSize + f.body.length := by
      simp only [Frame.bytes, List.length_append, Ethhdr.length_bytes, Iphdr.length_bytes,
        Tcphdr.length_bytes]
      omega
    rw [received, BitVec.toNat_ofNat, htotal, Nat.mod_eq_of_lt hbody]
  obtain ⟨e0, e6, e12⟩ := Ethhdr.fields heth
  obtain ⟨i0, i2, i6, i9, i12, i16⟩ := Iphdr.fields hip
  have hihl' : (received (f.bytes bo)).ihl = iphdrSize := by
    rw [SkBuff.ihl, i0, (extractLsb'_nibbles _ _).1, hihl]
    rfl
  obtain ⟨t0, t2, t4, t8, t12, t13⟩ := Tcphdr.fields htcp
  have hdoff' : (received (f.bytes bo)).doff = tcphdrSize := by
    rw [SkBuff.doff, hihl', t12, (extractLsb'_nibbles _ _).2, hdoff]
    rfl
  exact {
    macDest := Subtype.ext e0
    macSource := Subtype.ext e6
    ethProto := e12
    version := by rw [SkBuff.version, i0, (extractLsb'_nibbles _ _).2]
    ihl := hihl'
    totLen := i2
    frag := i6
    protocol := i9
    saddr := i12
    daddr := i16
    tcpSource := by rw [SkBuff.tcpSource, hihl', t0]
    tcpDest := by rw [SkBuff.tcpDest, hihl', t2]
    seq := by rw [SkBuff.seq, hihl', t4]
    ackSeq := by rw [SkBuff.ackSeq, hihl', t8]
    doff := hdoff'
    flags := by rw [hihl', t13]
    payload := by
      rw [SkBuff.payload, SkBuff.payloadOff, hihl', hdoff', hlen, Nat.add_sub_cancel_left]
      exact hpayload }

end Puppies
