/-
# Packets

What the netfilter hooks of both kernel modules read of a packet: the bytes from `skb->data`
on, which in the forward hook is the start of the IP header, the length, and the Ethernet
header.  The memory behind a packet is memory like any other (`Bytes.lean`): the hooks compare
bytes at offsets they compute from the packet, and nothing keeps these inside it.

Addresses and ports are read as numbers in network order, so that a comparison with
`htonl(c)` in the source is a comparison with `c` here, whatever the host is.  The bit fields of
`struct iphdr` and `struct tcphdr` are declared per byte order so that they name the same bits
on every host; these bits are read directly.
-/
import Puppies.Lib.Bytes

namespace Puppies

open ByteMem

/-! ## 1. The packet -/

/-- `struct sk_buff`, as far as the hooks look at it. -/
structure SkBuff where
  /-- the bytes from `skb->data` on -/
  data : Mem
  len : BitVec 32
  /-- the bytes from `skb_mac_header(skb)` on -/
  macHeader : Mem

/-- How the connection that a packet belongs to is tracked: `nf_ct_get` and
`nf_ct_is_untracked`. -/
inductive Conntrack
  | none
  | untracked
  | tracked
  deriving DecidableEq, Repr

/-- The 16-bit number at `off`, in network order. -/
def be16 (m : Mem) (off : Nat) : BitVec 16 := m off ++ m (off + 1)

/-- The 32-bit number at `off`, in network order. -/
def be32 (m : Mem) (off : Nat) : BitVec 32 := be16 m off ++ be16 m (off + 2)

namespace SkBuff

variable (skb : SkBuff)

/-- `iph->ihl << 2` -/
def ihl : Nat := ((skb.data 0).extractLsb' 0 4).toNat * 4

/-- `iph->protocol` -/
def protocol : Byte := skb.data 9

/-- `ntohl(iph->saddr)` -/
def saddr : BitVec 32 := be32 skb.data 12

/-- `ntohl(iph->daddr)` -/
def daddr : BitVec 32 := be32 skb.data 16

/-- `tcph->doff << 2`, with `tcph` right behind the IP header -/
def doff : Nat := ((skb.data (skb.ihl + 12)).extractLsb' 4 4).toNat * 4

/-- `tcph->fin` -/
def fin : Bool := (skb.data (skb.ihl + 13)).getLsbD 0

/-- `tcph->syn` -/
def syn : Bool := (skb.data (skb.ihl + 13)).getLsbD 1

/-- `tcph->rst` -/
def rst : Bool := (skb.data (skb.ihl + 13)).getLsbD 2

/-- `ntohs(udph->dest)`, with `udph` right behind the IP header -/
def udpDest : BitVec 16 := be16 skb.data (skb.ihl + 2)

/-- Where the source finds the TCP payload, from `skb->data` on. -/
def payloadOff : Nat := skb.ihl + skb.doff

end SkBuff

/-- `ETH_ALEN` -/
def ethAlen : Nat := 6

/-- An Ethernet address: six bytes. -/
abbrev Mac := { bs : List Byte // bs.length = ethAlen }

/-- `mac_source`: `h_source` is behind the six bytes of `h_dest`. -/
def macSource (skb : SkBuff) : Mac := ⟨read skb.macHeader ethAlen ethAlen, length_read _ _ _⟩

/-- An IPv4 packet of the given protocol from 192.168.1.2 to 8.8.8.8, with what follows its
header of 20 bytes. -/
def ipv4Packet (protocol : Byte) (rest : List Byte) : SkBuff where
  data := fun i => ([0x45, 0, 0, 0, 0, 0, 0, 0, 64, protocol, 0, 0, 192, 168, 1, 2, 8, 8, 8, 8] ++
    rest).getD i 0
  len := BitVec.ofNat 32 (20 + rest.length)
  macHeader := fun _ => 0

/-! ## 2. Protocols and addresses -/

def IPPROTO_ICMP : Byte := 1
def IPPROTO_TCP : Byte := 6
def IPPROTO_UDP : Byte := 17

def ipv4IsLbcast (addr : BitVec 32) : Bool := addr == 0xffffffff#32
def ipv4IsLoopback (addr : BitVec 32) : Bool := addr &&& 0xff000000#32 == 0x7f000000#32
def ipv4IsMulticast (addr : BitVec 32) : Bool := addr &&& 0xf0000000#32 == 0xe0000000#32
def ipv4IsZeronet (addr : BitVec 32) : Bool := addr &&& 0xff000000#32 == 0#32

/-- The protocols that the hooks of both modules let through to their work. -/
def protocolFiltered (skb : SkBuff) : Bool :=
  skb.protocol != IPPROTO_TCP && skb.protocol != IPPROTO_UDP && skb.protocol != IPPROTO_ICMP

/-- The addresses that the hooks of both modules leave alone. -/
def addressFiltered (skb : SkBuff) : Bool :=
  ipv4IsLbcast skb.saddr || ipv4IsLbcast skb.daddr ||
    ipv4IsLoopback skb.saddr || ipv4IsLoopback skb.daddr ||
    ipv4IsMulticast skb.saddr || ipv4IsMulticast skb.daddr ||
    ipv4IsZeronet skb.saddr || ipv4IsZeronet skb.daddr

/-! ## 3. Comparing text -/

/-- The kernel's `tolower`: ASCII, and the capitals of Latin-1. -/
def tolower (c : Byte) : Byte :=
  if (0x41#8 ≤ c && c ≤ 0x5a#8) || (0xc0#8 ≤ c && c ≤ 0xde#8 && c != 0xd7#8) then c + 0x20 else c

/-- `!strncasecmp(p, word, n)`, for a `word` of `n` characters, none of them zero, and `p` at
`off`. -/
def startsNoCase (m : Mem) (off : Nat) (word : List Byte) : Bool :=
  (read m off word.length).map tolower == word.map tolower

/-- `"GET"` -/
def GET : List Byte := [0x47, 0x45, 0x54]

/-- `"POST"` -/
def POST : List Byte := [0x50, 0x4f, 0x53, 0x54]

end Puppies
