/-
# What an offline client gets (`drivers/nos/src/nos_hooks.c`, `auth_redirect`)

A packet that the portal takes for a web request is answered twice.  `nos_do` fills the client's
addresses into an HTTP response, in an array of `URLFMT_SIZE` bytes; `auth_URL` sends it to the
client as the server's last segment, and `auth_reset` tells the server that the client is gone.

`PortalRun` says which packets these are, in a run, and `Checksum` that their receivers take the
segments for whole.  Put together (`nosPortal_clients`): the response has room in the array, and
both segments belong to the connection of the request.  As in `Ntrack/RedirectFrame` this needs a
little-endian host, whose `0x0040` is the don't-fragment bit.
-/
import Puppies.Nos.Checksum
import Puppies.Nos.PortalRun

namespace Puppies

open ByteMem CText EventRun

/-! ## 1. The array -/

/-- `URLFMT` -/
def urlFmt : CText.Text :=
  lit urlFmtHead ++ lit "%02x:%02x:%02x:%02x:%02x:%02x" ++ lit urlFmtIp ++ lit "%u.%u.%u.%u" ++
    lit urlFmtTail

/-- `URLFMT_SIZE`, where each literal has its `NUL`. -/
def urlFmtSize : Nat :=
  (urlFmt.length + 1) + ((lit "00:00:00:00:00:00").length + 1) +
    ((lit "255.255.255.255").length + 1) + 1

theorem length_lit (s : String) : (lit s).length = s.length := by
  rw [lit, List.length_map, String.length_toList]

/-- Short texts set apart by a short one. -/
theorem length_intercalate_le {s : String} {n : Nat} {as : List String}
    (h : ∀ a ∈ as, a.length ≤ n) : (s.intercalate as).length ≤ as.length * (s.length + n) := by
  induction as with
  | nil => exact Nat.zero_le _
  | cons a as ih =>
    have ha := h a List.mem_cons_self
    have hrest := ih fun b hb => h b (List.mem_cons_of_mem a hb)
    rw [List.length_cons, Nat.succ_mul]
    cases as with
    | nil =>
      rw [String.intercalate_singleton]
      omega
    | cons b as =>
      rw [String.intercalate_cons_cons, String.length_append, String.length_append]
      omega

theorem length_hex2 (b : Byte) : (hex2 b).length = 2 := by
  rw [hex2, String.length_ofList]
  rfl

/-- `%u` of a byte. -/
theorem length_toString_le (b : Byte) : (toString b.toNat).length ≤ 3 := by
  have hlt : b.toNat < 10 ^ 3 := by
    have := b.isLt
    omega
  exact (Nat.length_repr_le_iff (Nat.succ_pos 2)).mpr hlt

/-- **The array is large enough** for any response and its `NUL`. -/
theorem length_redirectUrl_lt (mac : Mac) {saddr : List Byte} (h : saddr.length = 4) :
    (lit (redirectUrl mac saddr)).length < urlFmtSize := by
  have hmac : (":".intercalate (mac.1.map hex2)).length ≤ 18 := by
    refine (length_intercalate_le (n := 2) ?_).trans ?_
    · intro a ha
      obtain ⟨b, -, rfl⟩ := List.mem_map.mp ha
      exact (length_hex2 b).le
    · rw [List.length_map, mac.2]
      decide
  have hip : (".".intercalate (saddr.map fun b => toString b.toNat)).length ≤ 16 := by
    refine (length_intercalate_le (n := 3) ?_).trans ?_
    · intro a ha
      obtain ⟨b, -, rfl⟩ := List.mem_map.mp ha
      exact length_toString_le b
    · rw [List.length_map, h]
      decide
  have hmac' : (lit "00:00:00:00:00:00").length = 17 := by decide
  have hip' : (lit "255.255.255.255").length = 15 := by decide
  unfold redirectUrl urlFmtSize urlFmt
  rw [length_lit, hmac', hip']
  simp only [String.length_append, List.length_append, length_lit]
  omega

/-! ## 2. The segments -/

/-- `auth_redirect`: what is sent to the client and to the server, `urlSkb` and `resetSkb` saying
whether there is memory for it. -/
def nosAuthRedirect (lib : CsumLib) (bo : ByteOrder) (urlSkb resetSkb : Bool) (url : List Byte)
    (skb : SkBuff) (hasOut : Bool) : RedirectSent :=
  let r := authURL lib bo urlSkb url skb
  if r.1 ≠ 0 then ⟨none, none⟩
  else ⟨r.2, if hasOut then (nosAuthReset lib bo resetSkb skb).2 else none⟩

/-- **The client is answered**: the response has room, and client and server get segments of their
connection that they take for whole, the server if there is memory for its one. -/
structure ClientAnswered (skb : SkBuff) (text : CText.Text) (resetSkb : Bool)
    (sent : RedirectSent) : Prop where
  fits : text.length < urlFmtSize
  reply : ∃ frame, sent.reply = some frame ∧ TcpVerifies (received frame) text ∧
    ReplyContinues skb (received frame) text
  reset : if resetSkb then ∃ frame, sent.reset = some frame ∧ TcpVerifies (received frame) [] ∧
      ResetContinues skb (received frame)
    else sent.reset = none

/-- **Both segments**, for a whole request on its way out. -/
theorem clientAnswered_iff {lib : CsumLib} {bo : ByteOrder} {skb : SkBuff} (hspec : lib.Spec bo)
    {text : CText.Text} (hfits : text.length < urlFmtSize) (hproto : skb.protocol = IPPROTO_TCP)
    (htot : skb.totLen.toNat = skb.len.toNat) (hlen : skb.payloadOff ≤ skb.len.toNat)
    (resetSkb : Bool) :
    ClientAnswered skb text resetSkb (nosAuthRedirect lib bo true resetSkb text skb true) ↔
      bo = .little := by
  have hshort : iphdrSize + tcphdrSize + text.length < 2 ^ 16 :=
    Nat.lt_trans (Nat.add_lt_add_left hfits _) (by decide +kernel)
  constructor
  · intro h
    obtain ⟨frame, hframe, -, hcont⟩ := h.reply
    obtain rfl : _ = frame := Option.some.inj hframe
    have hread : ReadsAs bo _ (withChecksums (lib.checksums bo) bo (httpFrame bo text skb)) :=
      httpFrame_readsAs (Nat.lt_trans hshort (by decide))
    have hfrag : be16 _ 6 = htons bo 0x0040 := hread.frag
    have hdf := hcont.dontFragment
    rw [SkBuff.dontFragment, hfrag] at hdf
    cases bo with
    | little => rfl
    | big => exact absurd hdf (by decide)
  · rintro rfl
    refine ⟨hfits, ⟨_, rfl, httpFrame_verifies hspec hshort,
      httpFrame_continues hproto htot hlen hshort (by decide)⟩, ?_⟩
    cases resetSkb with
    | false => exact rfl
    | true => exact ⟨_, rfl, resetFrame_verifies hspec, resetFrame_continues hproto (by decide)⟩

/-! ## 3. Runs -/

/-- What a packet for which `auth_redirect` is called gets; it is on its way out. -/
theorem redirect_of_answer {p : NosPacket} {v : Verdict} {url : String}
    (h : p.answer = (v, some url)) :
    v = .drop ∧ url = redirectUrl p.mac (read p.skb.data 12 4) ∧ p.dev.outName.isSome = true := by
  unfold NosPacket.answer at h
  split at h
  · rename_i hreach
    have hout : p.dev.outName.isSome = true := by
      have hdir : checkDir p.dev.inName p.dev.outName = true := (Bool.and_eq_true_iff.mp hreach).2
      cases hname : p.dev.outName with
      | some _ => rfl
      | none =>
        rw [hname] at hdir
        cases hin : p.dev.inName <;> rw [hin] at hdir <;> cases hdir
    unfold nosFilter at h
    split at h
    · split at h <;> cases h
    · split at h
      · cases h
      · split at h
        · cases h
        · cases h
          exact ⟨rfl, rfl, hout⟩
  · cases h

/-- **What offline clients get.**  In every run of the portal, whoever it takes to make a web
request in a whole TCP segment is answered as is meant, where there is memory for the answer, if
and only if the host is little-endian: the response is sent to the client, and the reset to the
server if there is memory for it too. -/
theorem nosPortal_clients {lib : CsumLib} {bo : ByteOrder} (hspec : lib.Spec bo)
    {jhash : List Byte → BitVec 32} {ps : List NosPacket} {t : Users}
    {ws : List (Verdict × Option String)}
    (hrun : answers (portalStep jhash) noUsers ps = some (t, ws)) {p : NosPacket} {v : Verdict}
    {url : String} {i : Nat} (hp : ps[i]? = some p) (hw : ws[i]? = some (v, some url))
    (hproto : p.skb.protocol = IPPROTO_TCP) (htot : p.skb.totLen.toNat = p.skb.len.toNat)
    (hlen : p.skb.payloadOff ≤ p.skb.len.toNat) (resetSkb : Bool) :
    v = .drop ∧ (ClientAnswered p.skb (lit url) resetSkb
      (nosAuthRedirect lib bo true resetSkb (lit url) p.skb p.dev.outName.isSome) ↔
        bo = .little) := by
  obtain ⟨rfl, -⟩ := answers_recorded hrun
  rw [List.getElem?_map, hp, Option.map_some] at hw
  obtain ⟨hv, rfl, hout⟩ := redirect_of_answer (Option.some.inj hw)
  rw [hout]
  refine ⟨hv, clientAnswered_iff hspec ?_ hproto htot hlen resetSkb⟩
  exact length_redirectUrl_lt p.mac (length_read _ _ _)

/-- The request of `Ntrack/RedirectFrame`, on its way out. -/
def webPacket : NosPacket := ⟨0, true, .tracked, true, true, getRequest, lanToWan⟩

theorem nosPortal_clients_request : ∃ t, ∃ url : String, ∃ reply reset : List Byte,
    answers (portalStep fun _ => 0) noUsers [webPacket] = some (t, [(.drop, some url)]) ∧
      nosAuthRedirect (plainCsum .little) .little true true (lit url) getRequest true =
        ⟨some reply, some reset⟩ ∧
      TcpVerifies (received reply) (lit url) ∧
      ReplyContinues getRequest (received reply) (lit url) ∧
      TcpVerifies (received reset) [] ∧ ResetContinues getRequest (received reset) := by
  have hfind : AllFind [] [webPacket] := ⟨fun _ _ => rfl, trivial⟩
  obtain ⟨t, hrun, -⟩ := (recorded_noUsers fun _ => 0).answers hfind
  have hreach : webPacket.reaches = true := by decide
  have hanswer : webPacket.answer =
      (.drop, some (redirectUrl webPacket.mac (read getRequest.data 12 4))) := by
    rw [NosPacket.answer, if_pos hreach]
    rfl
  rw [List.map_singleton, hanswer] at hrun
  have hp : [webPacket][0]? = some webPacket := rfl
  have hanswered := (nosPortal_clients (plainCsum_spec .little) hrun hp rfl (by decide) (by decide)
    (by decide) true).2.mpr rfl
  obtain ⟨reply, hreply, hverifies, hcont⟩ := hanswered.reply
  obtain ⟨reset, hreset, hverifies', hcont'⟩ := hanswered.reset
  refine ⟨t, _, reply, reset, hrun, ?_, hverifies, hcont, hverifies', hcont'⟩
  exact RedirectSent.ext hreply hreset

end Puppies
