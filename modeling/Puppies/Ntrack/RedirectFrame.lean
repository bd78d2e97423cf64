/-
# The answer to a web request (`drivers/nos_track/src/redirect.c`)

A user who has to log in sends a web request, and the kernel module answers in the server's
place: `ntrack_redirect` formats an HTTP response, `auth_http` puts it into a frame that goes on
with the user's connection, and `auth_reset` closes the connection towards the server.

The frame is assembled back to front, and most of its fields are copies of the request's with
the two ends exchanged.  Numbers go through `htons` and `htonl`.  The one constant that matters
and does not is `frag_off`: 0x0040 is the don't-fragment bit as a LITTLE-endian host sees it,
and on a big-endian host the frame says that it is the fragment at offset 512 of a packet.

The checksums are computed by functions of the kernel, which are parameters here.
-/
import Puppies.Lib.CText
import Puppies.Net.Headers
import Puppies.Ntrack.Auth

namespace Puppies

open ByteMem CText

/-! ## 1. The frames -/

/-- The checksum functions of the kernel. -/
structure Checksums where
  /-- what `ip_send_check` stores, for a header without checksum -/
  ipSendCheck : List Byte → BitVec 16
  csumPartial : List Byte → BitVec 32
  tcpV4Check : Int → BitVec 32 → BitVec 32 → BitVec 32 → BitVec 16

/-- The end of `auth_http` and of `auth_reset`: the two checksums.  That of TCP covers as many
bytes as the IP header announces. -/
def withChecksums (sums : Checksums) (bo : ByteOrder) (f : Frame) : Frame :=
  let ip := { f.ip with check := sums.ipSendCheck (f.ip.bytes bo) }
  let len : Int := (htons bo ip.totLen).toNat - ip.ihl.toNat * 4
  let csum := sums.csumPartial ((f.tcp.bytes bo ++ f.body).take len.toNat)
  { f with
    ip := ip
    tcp := { f.tcp with check := sums.tcpV4Check len ip.saddr ip.daddr csum } }

/-- The frame of `auth_http`, before the checksums. -/
def httpFrame (bo : ByteOrder) (url : List Byte) (skb : SkBuff) : Frame where
  eth :=
    { hDest := macSource skb
      hSource := skb.macDest
      hProto := htons bo ETH_P_IP }
  ip :=
    { version := (skb.data 0).extractLsb' 4 4
      ihl := 5
      tos := 0
      totLen := htons bo (BitVec.ofNat 16 (iphdrSize + tcphdrSize + url.length))
      id := 0x2658
      fragOff := 0x0040
      ttl := 0x80
      protocol := skb.data 9
      check := 0
      saddr := bo.word32 skb.data 16
      daddr := bo.word32 skb.data 12 }
  tcp :=
    { source := bo.word16 skb.data (skb.ihl + 2)
      dest := bo.word16 skb.data skb.ihl
      seq := bo.word32 skb.data (skb.ihl + 8)
      ackSeq := htonl bo (htonl bo (bo.word32 skb.data (skb.ihl + 4)) +
        (htons bo (bo.word16 skb.data 2)).setWidth 32 - BitVec.ofNat 32 skb.ihl -
          BitVec.ofNat 32 skb.doff)
      doff := 5
      -- ack, psh, fin
      flags := 0x19
      window := 65535
      check := 0
      urgPtr := 0 }
  body := url

/-- `auth_http`: what it returns and the frame it sends, `skbs` saying whether there is memory
for one. -/
def authHttp (sums : Checksums) (bo : ByteOrder) (skbs : Bool) (url : List Byte) (skb : SkBuff) :
    Int × Option (List Byte) :=
  if !skbs then (-1, none)
  else (0, some ((withChecksums sums bo (httpFrame bo url skb)).bytes bo))

/-- The frame of `auth_reset`, before the checksums. -/
def resetFrame (bo : ByteOrder) (skb : SkBuff) : Frame where
  eth :=
    { hDest := skb.macDest
      hSource := macSource skb
      hProto := bo.word16 skb.macHeader 12 }
  ip :=
    { version := (skb.data 0).extractLsb' 4 4
      ihl := 5
      tos := 0
      totLen := htons bo (BitVec.ofNat 16 (iphdrSize + tcphdrSize))
      id := 0
      fragOff := 0x0040
      ttl := 0x80
      protocol := skb.data 9
      check := 0
      saddr := bo.word32 skb.data 12
      daddr := bo.word32 skb.data 16 }
  tcp :=
    { source := bo.word16 skb.data skb.ihl
      dest := bo.word16 skb.data (skb.ihl + 2)
      seq := bo.word32 skb.data (skb.ihl + 4)
      ackSeq := bo.word32 skb.data (skb.ihl + 8)
      doff := 5
      -- rst, and the ack of the request
      flags := 0x04 ||| (skb.data (skb.ihl + 13) &&& 0x10)
      window := htons bo 0
      check := 0
      urgPtr := 0 }
  body := []

/-- `auth_reset` -/
def authReset (sums : Checksums) (bo : ByteOrder) (skbs : Bool) (skb : SkBuff) :
    Int × Option (List Byte) :=
  if !skbs then (-1, none)
  else (0, some ((withChecksums sums bo (resetFrame bo skb)).bytes bo))

/-! ## 2. The response -/

/-- `IFNAMSIZ` -/
def ifnamsiz : Nat := 16

/-- The name of an interface. -/
structure IfName where
  text : CText.Text
  length_lt : text.length < ifnamsiz
  no_nul : (0 : Byte) ∉ text

/-- `URL_STR_FMT` -/
def urlStrFmt : CText.Text := lit "http://1.0.0.8/webauth.cgi?ip=%s&mac=%s&in=%s&uid=%s&magic=%s"

/-- `http_redir_fmt` -/
def httpRedirFmt : CText.Text :=
  lit "HTTP/1.1 302 Moved Temporarily\r\n" ++ lit "Location: " ++ urlStrFmt ++ lit "\r\n" ++
    lit "Content-Type: text/html;\r\n" ++ lit "Connection: close\r\n" ++
    lit "Cache-Control: no-cache\r\n\r\n" ++
    lit "<html><meta http-equiv=\"refresh\" content=\"0;url=" ++ urlStrFmt ++ lit "\"></html>"

/-- `redirect_len`: room for the format and for the longest arguments, each counted with its
`NUL`. -/
def redirectLen : Nat :=
  (httpRedirFmt.length + 1) + 2 * ifnamsiz + 2 * 16 + 2 * 18 + 2 * 11 + 2 * 11

/-- The arguments of the format, which has everything twice. -/
def redirectArgs (name id magic : CText.Text) : List CText.Text :=
  [lit "1.2.3.4", lit "aa:bb:cc:dd:ee:ff", name, id, magic,
    lit "1.2.3.4", lit "aa:bb:cc:dd:ee:ff", name, id, magic]

/-- What `ntrack_redirect` gets from the kernel. -/
structure RedirectEnv where
  bo : ByteOrder
  sums : Checksums
  /-- `kmalloc`: a buffer, with anything in it -/
  kmalloc : Option Mem
  /-- there is memory for the frame of `auth_http` -/
  httpSkb : Bool
  /-- and for that of `auth_reset` -/
  resetSkb : Bool

/-- The frames that `ntrack_redirect` sends, on `in` and on `out`. -/
@[ext] structure RedirectSent where
  reply : Option (List Byte)
  reset : Option (List Byte)

/-- `ntrack_redirect`, which returns 0 in any case.  `none` is a failed assertion. -/
def ntrackRedirect (env : RedirectEnv) (ui : UserInfo) (skb : SkBuff) (name : IfName)
    (hasOut : Bool) : Option RedirectSent :=
  let strId := bounded 16 (numeral 10 ui.id.toNat)
  let strMagic := bounded 16 (numeral 10 ui.magic.toNat)
  match env.kmalloc with
  | none => some ⟨none, none⟩
  | some url =>
    let (url, len) := snprintf url 0 redirectLen
      (formatS httpRedirFmt (redirectArgs name.text strId strMagic))
    if 0 < len ∧ len ≤ redirectLen then
      let (ret, reply) := authHttp env.sums env.bo env.httpSkb (read url 0 len) skb
      if ret ≠ 0 then some ⟨none, none⟩
      else some ⟨reply, if hasOut then (authReset env.sums env.bo env.resetSkb skb).2 else none⟩
    else none

/-- **The response**, in full. -/
def httpResponse (ui : UserInfo) (name : IfName) : CText.Text :=
  formatS httpRedirFmt
    (redirectArgs name.text (numeral 10 ui.id.toNat) (numeral 10 ui.magic.toNat))

theorem length_numeral_toNat (v : BitVec 32) : (numeral 10 v.toNat).length ≤ 10 := by
  refine length_numeral_le (by decide) (by decide) ?_
  have := v.isLt
  omega

/-- The room that `redirect_len` leaves is enough for any format with these arguments. -/
theorem length_formatS_redirectArgs_lt (fmt : CText.Text) {name id magic : CText.Text}
    (hname : name.length < ifnamsiz) (hid : id.length ≤ 10) (hmagic : magic.length ≤ 10) :
    (formatS fmt (redirectArgs name id magic)).length <
      (fmt.length + 1) + 2 * ifnamsiz + 2 * 16 + 2 * 18 + 2 * 11 + 2 * 11 := by
  have hle := length_formatS_le fmt (redirectArgs name id magic)
  have hip : (lit "1.2.3.4").length = 7 := by decide
  have hmac : (lit "aa:bb:cc:dd:ee:ff").length = 17 := by decide
  have hsum : ((redirectArgs name id magic).map List.length).sum =
      2 * (7 + 17 + name.length + id.length + magic.length) := by
    simp only [redirectArgs, List.map_cons, List.map_nil, List.sum_cons, List.sum_nil, hip, hmac]
    omega
  unfold ifnamsiz at hname ⊢
  omega

/-- **The buffer is large enough.** -/
theorem length_httpResponse_lt (ui : UserInfo) (name : IfName) :
    (httpResponse ui name).length < redirectLen := by
  rw [httpResponse, redirectLen]
  exact length_formatS_redirectArgs_lt httpRedirFmt name.length_lt (length_numeral_toNat ui.id)
    (length_numeral_toNat ui.magic)

theorem length_httpResponse_pos (ui : UserInfo) (name : IfName) :
    0 < (httpResponse ui name).length := by
  have hfmt : ∃ fmt, httpRedirFmt = 0x48 :: 0x54 :: fmt := ⟨_, rfl⟩
  obtain ⟨fmt, hfmt⟩ := hfmt
  rw [httpResponse, hfmt, redirectArgs, formatS, if_neg (by decide)]
  exact Nat.succ_pos _

/-- The frame that carries the response. -/
def replyFrame (env : RedirectEnv) (ui : UserInfo) (skb : SkBuff) (name : IfName) : Frame :=
  withChecksums env.sums env.bo (httpFrame env.bo (httpResponse ui name) skb)

/-- **What `ntrack_redirect` does.**  Its assertion holds, and where there is memory it sends
the whole response. -/
theorem ntrackRedirect_eq (env : RedirectEnv) (ui : UserInfo) (skb : SkBuff) (name : IfName)
    (hasOut : Bool) :
    ntrackRedirect env ui skb name hasOut =
      some (if env.kmalloc.isSome && env.httpSkb then
          ⟨some ((replyFrame env ui skb name).bytes env.bo),
            if hasOut then (authReset env.sums env.bo env.resetSkb skb).2 else none⟩
        else ⟨none, none⟩) := by
  have hid : bounded 16 (numeral 10 ui.id.toNat) = numeral 10 ui.id.toNat :=
    bounded_of_lt (Nat.lt_of_le_of_lt (length_numeral_toNat ui.id) (by decide))
  have hmagic : bounded 16 (numeral 10 ui.magic.toNat) = numeral 10 ui.magic.toNat :=
    bounded_of_lt (Nat.lt_of_le_of_lt (length_numeral_toNat ui.magic) (by decide))
  have hfit := length_httpResponse_lt ui name
  have hpos := length_httpResponse_pos ui name
  unfold ntrackRedirect
  rw [hid, hmagic]
  cases env.kmalloc with
  | none => rfl
  | some url =>
    have hprint := snprintf_of_lt (m := url) (p := 0) (Int.ofNat_lt.mpr hfit)
    have htext := (printed_write url 0 (httpResponse ui name)).text
    dsimp only
    rw [← httpResponse, hprint]
    dsimp only
    rw [if_pos ⟨hpos, Nat.le_of_lt hfit⟩, htext]
    cases env.httpSkb <;> rfl

/-! ## 3. The reply -/

/-- **The reply goes on with the connection of the request.** -/
structure ReplyContinues (skb reply : SkBuff) (body : CText.Text) : Prop where
  ethProto : reply.ethProto = ETH_P_IP
  macDest : reply.macDest = macSource skb
  macSource : macSource reply = skb.macDest
  version : reply.version = skb.version
  ihl : reply.ihl = iphdrSize
  protocol : reply.protocol = IPPROTO_TCP
  doff : reply.doff = tcphdrSize
  saddr : reply.saddr = skb.daddr
  daddr : reply.daddr = skb.saddr
  tcpSource : reply.tcpSource = skb.tcpDest
  tcpDest : reply.tcpDest = skb.tcpSource
  seq : reply.seq = skb.ackSeq
  ackSeq : reply.ackSeq = skb.seq + BitVec.ofNat 32 skb.payload.length
  totLen : reply.totLen.toNat = 40 + body.length
  fragOffset : reply.fragOffset = 0
  moreFragments : reply.moreFragments = false
  dontFragment : reply.dontFragment = true
  payload : reply.payload = body

/-- A packet that is whole, and is to stay so. -/
theorem SkBuff.whole_of_frag {skb : SkBuff} (h : be16 skb.data 6 = 0x4000) :
    skb.fragOffset = 0 ∧ skb.moreFragments = false ∧ skb.dontFragment = true := by
  rw [SkBuff.fragOffset, SkBuff.moreFragments, SkBuff.dontFragment, h]
  decide

section Http

variable {sums : Checksums} {bo : ByteOrder} {body : List Byte} {skb : SkBuff}

/-- A frame with a response, as it is received. -/
theorem httpFrame_readsAs (hbody : iphdrSize + tcphdrSize + body.length < 2 ^ 32) :
    ReadsAs bo (received ((withChecksums sums bo (httpFrame bo body skb)).bytes bo))
      (withChecksums sums bo (httpFrame bo body skb)) := received_readsAs rfl rfl hbody

/-- The number that is acknowledged: all that the request has. -/
theorem ackSeq_httpFrame (body : List Byte) (htot : skb.totLen.toNat = skb.len.toNat)
    (hlen : skb.payloadOff ≤ skb.len.toNat) :
    htonl bo (httpFrame bo body skb).tcp.ackSeq =
      skb.seq + BitVec.ofNat 32 skb.payload.length := by
  have htotal : skb.totLen.setWidth 32 =
      BitVec.ofNat 32 (skb.payload.length + skb.ihl + skb.doff) := by
    refine BitVec.eq_of_toNat_eq ?_
    have hoff : skb.payloadOff = skb.ihl + skb.doff := rfl
    have hpayload : skb.payload.length = skb.len.toNat - skb.payloadOff := length_read _ _ _
    rw [BitVec.toNat_setWidth, BitVec.toNat_ofNat, htot, hpayload, Nat.add_assoc, ← hoff,
      Nat.sub_add_cancel hlen]
  simp only [httpFrame, htonl_htonl, htonl_word32, htons_word16]
  change skb.seq + skb.totLen.setWidth 32 - _ - _ = _
  rw [htotal, BitVec.ofNat_add, BitVec.ofNat_add]
  grind

/-- Everything but the fragment field is as it should be, on any host. -/
theorem httpFrame_continues (hproto : skb.protocol = IPPROTO_TCP)
    (htot : skb.totLen.toNat = skb.len.toNat) (hlen : skb.payloadOff ≤ skb.len.toNat)
    (hbody : iphdrSize + tcphdrSize + body.length < 2 ^ 16)
    (hfrag : htons bo 0x0040 = 0x4000) :
    ReplyContinues skb (received ((withChecksums sums bo (httpFrame bo body skb)).bytes bo))
      body := by
  have hread : ReadsAs bo _ (withChecksums sums bo (httpFrame bo body skb)) :=
    httpFrame_readsAs (Nat.lt_trans hbody (by decide))
  obtain ⟨hoffset, hmore, hdont⟩ := SkBuff.whole_of_frag (hread.frag.trans hfrag)
  exact {
    ethProto := hread.ethProto.trans (htons_htons bo ETH_P_IP)
    macDest := hread.macDest
    macSource := hread.macSource
    version := hread.version
    ihl := hread.ihl
    protocol := hread.protocol.trans hproto
    doff := hread.doff
    saddr := hread.saddr.trans (htonl_word32 bo skb.data 16)
    daddr := hread.daddr.trans (htonl_word32 bo skb.data 12)
    tcpSource := hread.tcpSource.trans (htons_word16 bo skb.data (skb.ihl + 2))
    tcpDest := hread.tcpDest.trans (htons_word16 bo skb.data skb.ihl)
    seq := hread.seq.trans (htonl_word32 bo skb.data (skb.ihl + 8))
    ackSeq := hread.ackSeq.trans (ackSeq_httpFrame body htot hlen)
    totLen := by
      have hnum : htons bo (httpFrame bo body skb).ip.totLen =
          BitVec.ofNat 16 (iphdrSize + tcphdrSize + body.length) := htons_htons bo _
      rw [hread.totLen]
      change (htons bo (httpFrame bo body skb).ip.totLen).toNat = _
      rw [hnum, BitVec.toNat_ofNat, Nat.mod_eq_of_lt hbody]
      rfl
    fragOffset := hoffset
    moreFragments := hmore
    dontFragment := hdont
    payload := hread.payload }

end Http

section Reply

variable {env : RedirectEnv} {ui : UserInfo} {skb : SkBuff} {name : IfName}

/-- The response makes no large packet. -/
theorem length_httpResponse_lt_1000 (ui : UserInfo) (name : IfName) :
    (httpResponse ui name).length < 1000 :=
  Nat.lt_trans (length_httpResponse_lt ui name) (by decide +kernel)

theorem replyFrame_readsAs (env : RedirectEnv) (ui : UserInfo) (skb : SkBuff) (name : IfName) :
    ReadsAs env.bo (received ((replyFrame env ui skb name).bytes env.bo))
      (replyFrame env ui skb name) := by
  refine httpFrame_readsAs ?_
  have hlt := length_httpResponse_lt_1000 ui name
  unfold iphdrSize tcphdrSize
  omega

/-- The fragment field of the reply, as the receiver reads it. -/
theorem replyFrame_frag (env : RedirectEnv) (ui : UserInfo) (skb : SkBuff) (name : IfName) :
    be16 (received ((replyFrame env ui skb name).bytes env.bo)).data 6 = htons env.bo 0x0040 :=
  (replyFrame_readsAs env ui skb name).frag

/-- The request is one of TCP, and the response is short. -/
theorem replyContinues_of_frag (hacc : authCheckHttp skb = true)
    (htot : skb.totLen.toNat = skb.len.toNat) (hlen : skb.payloadOff ≤ skb.len.toNat)
    (hfrag : htons env.bo 0x0040 = 0x4000) :
    ReplyContinues skb (received ((replyFrame env ui skb name).bytes env.bo))
      (httpResponse ui name) := by
  have hproto : skb.protocol = IPPROTO_TCP := by
    by_contra hne
    rw [authCheckHttp, if_pos hne] at hacc
    cases hacc
  refine httpFrame_continues hproto htot hlen ?_ hfrag
  have hlt := length_httpResponse_lt_1000 ui name
  unfold iphdrSize tcphdrSize
  omega

end Reply

/-! ## 4. The reset -/

/-- **The reset speaks for the client**: it has the addresses, the ports and the numbers of the
request. -/
structure ResetContinues (skb reset : SkBuff) : Prop where
  ethProto : reset.ethProto = skb.ethProto
  macDest : reset.macDest = skb.macDest
  macSource : macSource reset = macSource skb
  version : reset.version = skb.version
  ihl : reset.ihl = iphdrSize
  protocol : reset.protocol = IPPROTO_TCP
  doff : reset.doff = tcphdrSize
  saddr : reset.saddr = skb.saddr
  daddr : reset.daddr = skb.daddr
  tcpSource : reset.tcpSource = skb.tcpSource
  tcpDest : reset.tcpDest = skb.tcpDest
  seq : reset.seq = skb.seq
  ackSeq : reset.ackSeq = skb.ackSeq
  rst : reset.rst = true
  totLen : reset.totLen.toNat = 40
  fragOffset : reset.fragOffset = 0
  moreFragments : reset.moreFragments = false
  dontFragment : reset.dontFragment = true
  payload : reset.payload = []

section Reset

variable {sums : Checksums} {bo : ByteOrder} {skb : SkBuff}

theorem resetFrame_readsAs :
    ReadsAs bo (received ((withChecksums sums bo (resetFrame bo skb)).bytes bo))
      (withChecksums sums bo (resetFrame bo skb)) := by
  have hbody : (withChecksums sums bo (resetFrame bo skb)).body.length = 0 := rfl
  exact received_readsAs rfl rfl (by rw [hbody]; decide)

/-- The reset as a whole, on a host on which the fragment field is what was meant. -/
theorem resetFrame_continues (hproto : skb.protocol = IPPROTO_TCP)
    (hfrag : htons bo 0x0040 = 0x4000) :
    ResetContinues skb (received ((withChecksums sums bo (resetFrame bo skb)).bytes bo)) := by
  have hread : ReadsAs bo _ (withChecksums sums bo (resetFrame bo skb)) := resetFrame_readsAs
  obtain ⟨hoffset, hmore, hdont⟩ := SkBuff.whole_of_frag (hread.frag.trans hfrag)
  exact {
    ethProto := hread.ethProto.trans (htons_word16 bo skb.macHeader 12)
    macDest := hread.macDest
    macSource := hread.macSource
    version := hread.version
    ihl := hread.ihl
    protocol := hread.protocol.trans hproto
    doff := hread.doff
    saddr := hread.saddr.trans (htonl_word32 bo skb.data 12)
    daddr := hread.daddr.trans (htonl_word32 bo skb.data 16)
    tcpSource := hread.tcpSource.trans (htons_word16 bo skb.data skb.ihl)
    tcpDest := hread.tcpDest.trans (htons_word16 bo skb.data (skb.ihl + 2))
    seq := hread.seq.trans (htonl_word32 bo skb.data (skb.ihl + 4))
    ackSeq := hread.ackSeq.trans (htonl_word32 bo skb.data (skb.ihl + 8))
    rst := by
      have hflags : ∀ b : Byte, ((0x04 ||| (b &&& 0x10)) : Byte).getLsbD 2 = true := by decide
      rw [SkBuff.rst, hread.flags]
      exact hflags _
    totLen := by
      have hnum : htons bo (resetFrame bo skb).ip.totLen =
          BitVec.ofNat 16 (iphdrSize + tcphdrSize) := htons_htons bo _
      have htot : (received ((withChecksums sums bo (resetFrame bo skb)).bytes bo)).totLen =
          BitVec.ofNat 16 (iphdrSize + tcphdrSize) := hread.totLen.trans hnum
      rw [htot]
      rfl
    fragOffset := hoffset
    moreFragments := hmore
    dontFragment := hdont
    payload := hread.payload }

end Reset

/-! ## 5. When the reply goes on -/

/-- **When the reply goes on with the connection**: on a little-endian host, and only there.
On a big-endian one it is a fragment of some other packet, whatever the request was. -/
theorem replyContinues_iff {env : RedirectEnv} {ui : UserInfo} {skb : SkBuff} {name : IfName}
    {hasOut : Bool} {r : RedirectSent} {frame : List Byte} (hacc : authCheckHttp skb = true)
    (htot : skb.totLen.toNat = skb.len.toNat) (hlen : skb.payloadOff ≤ skb.len.toNat)
    (hrun : ntrackRedirect env ui skb name hasOut = some r) (hreply : r.reply = some frame) :
    ReplyContinues skb (received frame) (httpResponse ui name) ↔ env.bo = .little := by
  rw [ntrackRedirect_eq] at hrun
  obtain rfl : _ = r := Option.some.inj hrun
  split at hreply
  · obtain rfl : _ = frame := Option.some.inj hreply
    constructor
    · intro hcont
      have hdf := hcont.dontFragment
      rw [SkBuff.dontFragment, replyFrame_frag] at hdf
      cases hbo : env.bo with
      | little => rfl
      | big =>
        rw [hbo] at hdf
        exact absurd hdf (by decide)
    · intro hbo
      exact replyContinues_of_frag hacc htot hlen (by rw [hbo]; decide)
  · cases hreply

/-- A request of 192.168.1.2 for the page of 8.8.8.8. -/
def getRequest : SkBuff where
  data := ofBytes ([0x45, 0, 0, 44, 0, 0, 0, 0, 64, 6, 0, 0, 192, 168, 1, 2, 8, 8, 8, 8] ++
    [0x30, 0x39, 0, 80, 0, 0, 0, 1, 0, 0, 0, 2, 0x50, 0x18, 0, 0, 0, 0, 0, 0] ++
    [0x47, 0x45, 0x54, 0x20])
  len := 44
  macHeader := ofBytes [1, 1, 1, 1, 1, 1, 2, 2, 2, 2, 2, 2, 8, 0]

/-- A host with memory to spare. -/
def redirectEnv (bo : ByteOrder) : RedirectEnv where
  bo := bo
  sums := ⟨fun _ => 0, fun _ => 0, fun _ _ _ _ => 0⟩
  kmalloc := some fun _ => 0
  httpSkb := true
  resetSkb := true

def redirectUser : UserInfo := ⟨7, 9, 0, 0, 0, 0, 0⟩

def lanName : IfName := ⟨lit "br-lan", by decide, by decide⟩

theorem replyContinues_iff_little :
    ∃ r frame, ntrackRedirect (redirectEnv .little) redirectUser getRequest lanName false = some r ∧
      r.reply = some frame ∧
      ReplyContinues getRequest (received frame) (httpResponse redirectUser lanName) := by
  have hrun := ntrackRedirect_eq (redirectEnv .little) redirectUser getRequest lanName false
  refine ⟨_, _, hrun, rfl, ?_⟩
  exact (replyContinues_iff (by decide) (by decide) (by decide) hrun rfl).mpr rfl

/-- The same request on a big-endian host. -/
theorem replyContinues_broken :
    ∃ r frame, ntrackRedirect (redirectEnv .big) redirectUser getRequest lanName false = some r ∧
      r.reply = some frame ∧ authCheckHttp getRequest = true ∧
      getRequest.totLen.toNat = getRequest.len.toNat ∧
      getRequest.payloadOff ≤ getRequest.len.toNat ∧
      (received frame).fragOffset = 64 ∧ (received frame).dontFragment = false ∧
      ¬ ReplyContinues getRequest (received frame) (httpResponse redirectUser lanName) := by
  have hrun := ntrackRedirect_eq (redirectEnv .big) redirectUser getRequest lanName false
  have hfrag := replyFrame_frag (redirectEnv .big) redirectUser getRequest lanName
  have hoff : (received ((replyFrame (redirectEnv .big) redirectUser getRequest lanName).bytes
      (redirectEnv .big).bo)).fragOffset = 64 := by
    rw [SkBuff.fragOffset, hfrag]
    rfl
  refine ⟨_, _, hrun, rfl, by decide, by decide, by decide, hoff, ?_, ?_⟩
  · rw [SkBuff.dontFragment, hfrag]
    rfl
  · intro hcont
    exact absurd (hoff.symm.trans hcont.fragOffset) (by decide)

end Puppies
