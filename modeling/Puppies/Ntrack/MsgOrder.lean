/-
# What the queue between the callers and the ring does to the messages

A message passes through two containers on its way to user space, the list of its CPU and the
CPU's ring, and the worker carries it from the first into the second.  Two things about that
are not what the words "enqueue" and "dequeue" suggest.

* `list_add` puts a node at the FRONT of the list, and `nmsg_dequeue` takes the front one.  The
  list is a stack; the messages that are on it when the worker runs reach the ring in the
  opposite order (`deliveryOrder`).
* `nmsg_dequeue` does not look at what `nmsg_fill_buffer` returns.  A node whose frame found
  the ring full is taken off the list and freed all the same (`conserved_iff`).

Both results name the steps that do it, and say that there are no others.
-/
import Puppies.Ntrack.MsgInv

namespace Puppies

open ByteMem EventRun

/-! ## 1. The conditions on the worker's locked section -/

/-- If the worker takes a node, there is a slot for it in the ring. -/
def RoomToTake (s : MsgCpu) : MsgEvent → Prop
  | .workTake => s.list ≠ [] → (rbfGetBuff s.ring.rbf).isSome = true
  | _ => True

/-- If the worker takes a node, there is no other on the list. -/
def AloneOnList (s : MsgCpu) : MsgEvent → Prop
  | .workTake => s.list.length ≤ 1
  | _ => True

instance (s : MsgCpu) (e : MsgEvent) : Decidable (RoomToTake s e) := by
  cases e <;> unfold RoomToTake <;> infer_instance

instance (s : MsgCpu) (e : MsgEvent) : Decidable (AloneOnList s e) := by
  cases e <;> unfold AloneOnList <;> infer_instance

instance (s : MsgCpu) (e : MsgEvent) : Decidable (HeadFilled s e) := by
  cases e <;> unfold HeadFilled <;> infer_instance

/-- The calls whose messages were put into the ring, first to last. -/
def MsgCpu.publishedBy (s : MsgCpu) : List Nat := s.published.map Prod.fst

theorem publishedBy_take {s : MsgCpu} {k : Nat} {n : NmsgNode} {rest : List Nat}
    (hroom : (rbfGetBuff s.ring.rbf).isSome = true) :
    (s.take k n rest).publishedBy = s.publishedBy ++ [k] := by
  simp [MsgCpu.publishedBy, MsgCpu.take, hroom]

theorem publishedBy_take_full {s : MsgCpu} {k : Nat} {n : NmsgNode} {rest : List Nat}
    (hfull : (rbfGetBuff s.ring.rbf).isSome = false) :
    (s.take k n rest).publishedBy = s.publishedBy := by
  simp [MsgCpu.publishedBy, MsgCpu.take, hfull]

/-- Only the insertion and the worker's locked section touch the list, what was inserted or
what was published. -/
theorem msgMove_lists {cfg : MsgCfg} {core : Nat} {s t : MsgCpu} {e : MsgEvent}
    (hm : MsgMove cfg core s e t) :
    (t.list = s.list ∧ t.listed = s.listed ∧ t.publishedBy = s.publishedBy ∧
      (e = .workTake → s.list = [])) ∨
    (∃ k, e = .insert k ∧ t = s.insert k) ∨
    (∃ k n rest, e = .workTake ∧ s.list = k :: rest ∧ t = s.take k n rest) := by
  cases hm with
  | insert hpc => exact Or.inr (Or.inl ⟨_, rfl, rfl⟩)
  | take hlock hlist hnode => exact Or.inr (Or.inr ⟨_, _, _, rfl, hlist, rfl⟩)
  | fill hnext =>
    exact Or.inl ⟨MsgCpu.fill_list .., MsgCpu.fill_listed .., by simp [MsgCpu.publishedBy],
      by simp⟩
  | takeNone hlock hlist => exact Or.inl ⟨rfl, rfl, rfl, fun _ => hlist⟩
  | _ => exact Or.inl ⟨rfl, rfl, rfl, by simp⟩

/-! ## 2. Nothing is lost while the ring has room -/

/-- The calls that put their node on the list and have not returned yet. -/
def MsgCpu.inFlight (s : MsgCpu) : List Nat := s.listed.filter fun k => s.pc k ≠ .returned 0

/-- **Conservation.**  The messages of the calls that returned 0, and of those that have put
their node on the list and are about to, are those that were put into the ring and those still
on the list, each as often. -/
def Conserved (s : MsgCpu) : Prop :=
  (s.accepted ++ s.inFlight).Perm (s.publishedBy ++ s.list)

/-- The calls that returned 0 and those about to are the calls that inserted a node. -/
theorem MsgInv.accepted_perm {cfg : MsgCfg} {s : MsgCpu} (h : MsgInv cfg s) :
    (s.accepted ++ s.inFlight).Perm s.listed := by
  have hacc : s.accepted.Perm (s.listed.filter fun k => s.pc k = .returned 0) := by
    refine (List.perm_ext_iff_of_nodup h.accepted_nodup (h.listed_nodup.filter _)).mpr ?_
    intro k
    rw [List.mem_filter, h.accepted_iff, h.listed_iff, decide_eq_true_eq]
    constructor
    · intro hk
      exact ⟨by rw [hk]; rfl, hk⟩
    · exact And.right
  refine (hacc.append_right _).trans ?_
  have hsplit := List.filter_append_perm (fun k => decide (s.pc k = .returned 0)) s.listed
  simpa [MsgCpu.inFlight] using hsplit

theorem conserved_iff_listed {cfg : MsgCfg} {s : MsgCpu} (h : MsgInv cfg s) :
    Conserved s ↔ s.listed.Perm (s.publishedBy ++ s.list) :=
  ⟨h.accepted_perm.symm.trans, h.accepted_perm.trans⟩

/-- One step keeps every message exactly when it does not take a node that finds the ring
full. -/
theorem msgMove_conserved_iff {cfg : MsgCfg} {core : Nat} {s t : MsgCpu} {e : MsgEvent}
    (hi : MsgInv cfg s) (hc : Conserved s) (hm : MsgMove cfg core s e t) :
    Conserved t ↔ RoomToTake s e := by
  rw [conserved_iff_listed hi] at hc
  rw [conserved_iff_listed (msgMove_inv hi hm)]
  rcases msgMove_lists hm with ⟨hlist, hlisted, hpub, htake⟩ | ⟨k, rfl, rfl⟩ |
    ⟨k, n, rest, rfl, hlist, rfl⟩
  · rw [hlist, hlisted, hpub]
    refine ⟨?_, fun _ => hc⟩
    intro _
    cases e with
    | workTake => exact fun hne => absurd (htake rfl) hne
    | _ => trivial
  · refine ⟨fun _ => trivial, ?_⟩
    intro _
    show (s.listed ++ [k]).Perm (s.publishedBy ++ k :: s.list)
    exact (List.perm_append_singleton k s.listed).trans
      ((hc.cons k).trans List.perm_middle.symm)
  · cases hroom : (rbfGetBuff s.ring.rbf).isSome with
    | true =>
      refine ⟨fun _ _ => hroom, ?_⟩
      intro _
      rw [publishedBy_take hroom]
      show s.listed.Perm (s.publishedBy ++ [k] ++ rest)
      rwa [List.append_assoc, List.singleton_append, ← hlist]
    | false =>
      have hlen := hc.length_eq
      rw [hlist] at hlen
      constructor
      · intro ht
        have hlen' := ht.length_eq
        rw [publishedBy_take_full hroom] at hlen'
        simp only [MsgCpu.take, List.length_append, List.length_cons] at hlen hlen'
        omega
      · intro hok
        have := hok (by rw [hlist]; exact List.cons_ne_nil _ _)
        rw [hroom] at this
        exact absurd this Bool.false_ne_true

/-- A whole call on CPU 0. -/
def enqueueEvents (k : Nat) : List (Nat × MsgEvent) :=
  [(0, .test k), (0, .kmalloc k (some ⟨0, fun _ => 0⟩)), (0, .insert k), (0, .fill k),
    (0, .fill k), (0, .fill k), (0, .raise k)]

/-- A run of the worker of CPU 0 that finds `n` nodes. -/
def drainEvents (n : Nat) : List (Nat × MsgEvent) :=
  (0, .workStart) :: (List.replicate n [(0, .workCheck), (0, .workTake)]).flatten

/-- The list holds what was inserted and not yet published, last one first. -/
def Stacked (s : MsgCpu) : Prop := s.listed = s.publishedBy ++ s.list.reverse

/-- With room in the ring, a step keeps what is published in the order of the insertions
exactly when it does not take one of several nodes. -/
theorem msgMove_order_iff {cfg : MsgCfg} {core : Nat} {s t : MsgCpu} {e : MsgEvent}
    (hi : MsgInv cfg s) (hst : Stacked s) (hroom : RoomToTake s e)
    (hm : MsgMove cfg core s e t) : t.publishedBy <+: t.listed ↔ AloneOnList s e := by
  have hpre : s.publishedBy <+: s.listed := ⟨s.list.reverse, hst.symm⟩
  rcases msgMove_lists hm with ⟨hlist, hlisted, hpub, htake⟩ | ⟨k, rfl, rfl⟩ |
    ⟨k, n, rest, rfl, hlist, rfl⟩
  · rw [hlisted, hpub]
    refine ⟨?_, fun _ => hpre⟩
    intro _
    cases e with
    | workTake => simp [AloneOnList, htake rfl]
    | _ => trivial
  · exact ⟨fun _ => trivial, fun _ => hpre.trans (List.prefix_append _ _)⟩
  · have hk : k ∉ rest := (List.nodup_cons.mp (hlist ▸ hi.list_nodup)).1
    have hlisted : (s.take k n rest).listed = s.publishedBy ++ (rest.reverse ++ [k]) := by
      show s.listed = _
      rw [hst, hlist, List.reverse_cons]
    rw [publishedBy_take (hroom (by rw [hlist]; exact List.cons_ne_nil _ _)), hlisted,
      List.prefix_append_right_inj]
    have hlen : AloneOnList s .workTake ↔ rest = [] := by
      simp [AloneOnList, hlist]
    rw [hlen]
    constructor
    · intro h
      -- the first insertion that is left would be the one taken
      cases hrev : rest.reverse with
      | nil => exact List.reverse_eq_nil_iff.mp hrev
      | cons j js =>
        rw [hrev, List.cons_append, List.cons_prefix_cons] at h
        have hj : j ∈ rest.reverse := hrev ▸ List.mem_cons_self
        exact absurd (List.mem_reverse.mp (h.1 ▸ hj)) hk
    · rintro rfl
      exact List.prefix_refl _

theorem msgMove_stacked {cfg : MsgCfg} {core : Nat} {s t : MsgCpu} {e : MsgEvent}
    (hst : Stacked s) (hroom : RoomToTake s e) (halone : AloneOnList s e)
    (hm : MsgMove cfg core s e t) : Stacked t := by
  unfold Stacked at hst ⊢
  rcases msgMove_lists hm with ⟨hlist, hlisted, hpub, -⟩ | ⟨k, rfl, rfl⟩ |
    ⟨k, n, rest, rfl, hlist, rfl⟩
  · rw [hlist, hlisted, hpub, hst]
  · show s.listed ++ [k] = s.publishedBy ++ (k :: s.list).reverse
    rw [hst, List.reverse_cons, List.append_assoc]
  · have hrest : rest = [] := by simpa [AloneOnList, hlist] using halone
    subst hrest
    rw [publishedBy_take (hroom (by rw [hlist]; exact List.cons_ne_nil _ _))]
    show s.listed = s.publishedBy ++ [k] ++ []
    rw [hst, hlist, List.append_nil]
    rfl

/-! ## 4. From the ring to the callback -/

/-- `nmsg_fill_buffer` is the three steps of the ring's producer. -/
theorem Ring.run_fill (size : Nat) {s : Ring} {n : NmsgNode} (hprod : s.prod = none)
    (hroom : (rbfGetBuff s.rbf).isSome = true) (hlen : n.frame.length ≤ rbfNodeSize) :
    run (ringStep size) s [.getBuff, .store 0 n.frame, .releaseBuff] = some (s.fill n) := by
  obtain ⟨p, hp⟩ := Option.isSome_iff_exists.mp hroom
  have hfill : s.fill n = { s with
      rbf := rbfReleaseBuff (s.rbf.store p 0 n.frame)
      released := s.released ++ [slotBytes (s.rbf.store p 0 n.frame) p] } := by
    simp only [Ring.fill, nmsgFillBuffer, hp]
  rw [hfill]
  simp [run_cons, ringStep, hprod, hp, hlen]

theorem Ring.fill_prod (s : Ring) (n : NmsgNode) : (s.fill n).prod = s.prod := by
  unfold Ring.fill
  split
  · rfl
  · rfl

theorem Ring.fill_full {s : Ring} {n : NmsgNode} (hfull : (rbfGetBuff s.rbf).isSome = false) :
    s.fill n = s := by
  simp [Ring.fill, Option.not_isSome_iff_eq_none.mp (by rw [hfull]; exact Bool.false_ne_true)]

/-- What the slot of a published frame holds at the moment of its release. -/
theorem Ring.fill_released {s : Ring} {n : NmsgNode} (hroom : (rbfGetBuff s.rbf).isSome = true)
    (hlen : n.frame.length ≤ rbfNodeSize) :
    ∃ slot, (s.fill n).released = s.released ++ [slot] ∧
      slot.take n.frame.length = n.frame := by
  obtain ⟨p, hp⟩ := Option.isSome_iff_exists.mp hroom
  refine ⟨slotBytes (s.rbf.store p 0 n.frame) p, ?_, take_slotBytes_store s.rbf p hlen⟩
  simp only [Ring.fill, hp]

/-- The reader publishes nothing and holds no slot to fill. -/
theorem ringStep_ofReader {size : Nat} {s t : Ring} {e : RingEvent} (he : e.ofReader = true)
    (h : ringStep size s e = some t) (hprod : s.prod = none) :
    t.prod = none ∧ t.released = s.released := by
  cases ringMove_of_step h with
  | getBuff => exact absurd he (by decide)
  | store => exact absurd he (by simp [RingEvent.ofReader])
  | releaseBuff => exact absurd he (by decide)
  | getData => exact ⟨hprod, rfl⟩
  | look => exact ⟨hprod, rfl⟩
  | releaseData => exact ⟨hprod, rfl⟩
  | attach => exact ⟨by simp [hprod], rfl⟩

/-- The slot starts with the frame of call `k`. -/
def SlotHolds (cfg : MsgCfg) (k : Nat) (slot : List Byte) : Prop :=
  slot.take (cfg.frame k).length = cfg.frame k

/-- The ring of a CPU, as long as its worker takes only filled nodes. -/
structure RingHolds (cfg : MsgCfg) (s : MsgCpu) : Prop where
  inv : RingInv (ringCount cfg.size) s.ring
  prod_none : s.ring.prod = none
  consumed : s.ring.consumed <+: s.ring.released
  slots : List.Forall₂ (SlotHolds cfg) s.publishedBy s.ring.released

theorem msgInit_ringHolds {cfg : MsgCfg} (hcount : 1 ≤ ringCount cfg.size) :
    RingHolds cfg (msgInit cfg) :=
  ⟨ringInv_init hcount _, rfl, List.prefix_refl _, List.Forall₂.nil⟩

/-- The frame of a message that `nmsg_enqueue` accepts fits a slot. -/
theorem length_frame_le {cfg : MsgCfg} {k : Nat} (h : tooBig (cfg.req k) = false) :
    (cfg.frame k).length ≤ rbfNodeSize := by
  unfold tooBig at h
  have := of_decide_eq_false h
  rw [MsgCfg.frame, Request.length_frame]
  omega

theorem msgMove_ringHolds {cfg : MsgCfg} {core : Nat} {s t : MsgCpu} {e : MsgEvent}
    (hi : MsgInv cfg s) (hf : FillInv cfg s) (hr : RingHolds cfg s) (hok : HeadFilled s e)
    (hm : MsgMove cfg core s e t) : RingHolds cfg t := by
  cases hm with
  | @take k rest n hlock hlist hnode =>
    have hk : k ∈ s.list := hlist ▸ List.mem_cons_self
    have hins : (s.pc k).inserted = true := (hi.listed_iff k).mp (hi.list_sub k hk)
    have hfill : (s.pc k).unfilled = false := hok k (by rw [hlist]; rfl)
    have hframe : n.frame = cfg.frame k := (hf.node_ok k hk n hnode).frame_eq hins hfill
    have hlen : n.frame.length ≤ rbfNodeSize := hframe ▸ length_frame_le (hi.fits k (Or.inr hins))
    cases hroom : (rbfGetBuff s.ring.rbf).isSome with
    | true =>
      obtain ⟨slot, hslot, htake⟩ := Ring.fill_released hroom hlen
      have hrun := Ring.run_fill cfg.size hr.prod_none hroom hlen
      refine ⟨ringRun_inv hr.inv hrun, ?_, ringRun_consumed hr.inv hr.consumed hrun, ?_⟩
      · rw [← hr.prod_none]
        exact Ring.fill_prod s.ring n
      · show List.Forall₂ _ (s.take k n rest).publishedBy (s.ring.fill n).released
        rw [publishedBy_take hroom, hslot]
        refine List.rel_append hr.slots (List.Forall₂.cons ?_ List.Forall₂.nil)
        unfold SlotHolds
        rwa [← hframe]
    | false =>
      have hsame : (s.take k n rest).ring = s.ring := Ring.fill_full hroom
      exact ⟨hsame ▸ hr.inv, hsame ▸ hr.prod_none, hsame ▸ hr.consumed,
        by rw [hsame, publishedBy_take_full hroom]; exact hr.slots⟩
  | reader he hring =>
    obtain ⟨hprod, hrel⟩ := ringStep_ofReader he hring hr.prod_none
    refine ⟨ringStep_inv hr.inv hring, hprod, ringStep_consumed hr.inv hr.consumed hring, ?_⟩
    rw [hrel]
    exact hr.slots
  | @fill k f p hnext =>
    have hsame : (s.fill k f p).ring = s.ring := MsgCpu.fill_ring s k f p
    exact ⟨hsame ▸ hr.inv, hsame ▸ hr.prod_none, hsame ▸ hr.consumed,
      by rw [hsame, MsgCpu.publishedBy, MsgCpu.fill_published]; exact hr.slots⟩
  | _ => exact ⟨hr.inv, hr.prod_none, hr.consumed, hr.slots⟩

/-- **Delivery in order.**  The messages in the ring are the first ones that were enqueued, in
that order; each slot starts with the frame of its message; and the frames that the reader's
callback was given are those of the first slots, in that order. -/
structure Delivered (cfg : MsgCfg) (s : MsgCpu) : Prop where
  order : s.publishedBy <+: s.listed
  slots : List.Forall₂ (SlotHolds cfg) s.publishedBy s.ring.released
  consumed : s.ring.consumed <+: s.ring.released
  looks : ∀ n f, (n, f) ∈ s.ring.looks → s.ring.released[n]? = some f

/-- **When the messages arrive in order.**  In a run of all CPUs in which no ring is ever full
when a node is taken: the messages on every ring are in the order of their insertions in every
state exactly when no worker ever takes one of several nodes; and if besides it takes only
nodes that are filled, the messages are delivered in that order, up to the callback. -/
theorem deliveryOrder (cfg : MsgCfg) (hcount : 1 ≤ ringCount cfg.size)
    (es : List (Nat × MsgEvent))
    (hroom : AllSteps (msgSystemStep cfg) (fun s e => RoomToTake (s e.1) e.2)
      (msgSystemInit cfg) es) :
    (AllStates (msgSystemStep cfg) (fun s => ∀ c, (s c).publishedBy <+: (s c).listed)
        (msgSystemInit cfg) es ↔
      AllSteps (msgSystemStep cfg) (fun s e => AloneOnList (s e.1) e.2) (msgSystemInit cfg) es) ∧
    (AllSteps (msgSystemStep cfg)
        (fun s e => AloneOnList (s e.1) e.2 ∧ HeadFilled (s e.1) e.2) (msgSystemInit cfg) es →
      AllStates (msgSystemStep cfg) (fun s => ∀ c, Delivered cfg (s c)) (msgSystemInit cfg) es) := by
  constructor
  · refine allStates_prodStep_iff (J := fun _ s => MsgInv cfg s ∧ Stacked s)
      (P := fun _ s => s.publishedBy <+: s.listed) (C := fun _ s e => AloneOnList s e)
      (A := fun _ s e => RoomToTake s e) ?_ ?_ es _ ?_ ?_ hroom
    · rintro c s e t ⟨hi, hst⟩ - hr ha hs
      have hm := msgMove_of_step hs
      exact ⟨msgMove_inv hi hm, msgMove_stacked hst hr ha hm⟩
    · rintro c s e t ⟨hi, hst⟩ - hr hs
      exact msgMove_order_iff hi hst hr (msgMove_of_step hs)
    · intro _
      exact ⟨msgInit_inv cfg, rfl⟩
    · intro _
      exact List.prefix_refl _
  · intro hok
    have hall := allStates_prodStep_of_allSteps
      (I := fun _ s => MsgInv cfg s ∧ FillInv cfg s ∧ RingHolds cfg s ∧ Stacked s)
      (C := fun _ s e => RoomToTake s e ∧ AloneOnList s e ∧ HeadFilled s e) ?_ es _ ?_
      (hroom.and hok)
    · refine hall.mono ?_
      intro s hs c
      obtain ⟨-, -, hr, hst⟩ := hs c
      exact ⟨⟨_, hst.symm⟩, hr.slots, hr.consumed, hr.inv.looks_ok⟩
    · rintro c s e t ⟨hi, hf, hr, hst⟩ ⟨hroom, halone, hfill⟩ hs
      have hm := msgMove_of_step hs
      exact ⟨msgMove_inv hi hm, msgMove_fillInv hi hf hfill hm, msgMove_ringHolds hi hf hr hfill hm,
        msgMove_stacked hst hroom halone hm⟩
    · intro _
      exact ⟨msgInit_inv cfg, msgInit_fillInv cfg, msgInit_ringHolds hcount, rfl⟩

/-- Two messages, each taken before the next one is enqueued. -/
def alternatingEvents : List (Nat × MsgEvent) :=
  enqueueEvents 0 ++ drainEvents 1 ++ [(0, .workCheck)] ++ enqueueEvents 1 ++ drainEvents 1

theorem deliveryOrder_alternating :
    ∃ s, run (msgSystemStep authCfg) (msgSystemInit authCfg) alternatingEvents = some s ∧
      Delivered authCfg (s 0) ∧ (s 0).publishedBy = [0, 1] := by
  have h : ((run (msgSystemStep authCfg) (msgSystemInit authCfg) alternatingEvents).map
      fun s => (s 0).publishedBy) = some [0, 1] := by
    decide +kernel
  obtain ⟨s, hs, hpub⟩ := exists_run_of_map h
  have hall := (deliveryOrder authCfg (by decide) alternatingEvents (by decide +kernel)).2
    (by decide +kernel)
  exact ⟨s, hs, hall.last hs 0, hpub⟩

/-- Two messages are enqueued before the worker runs: the second one comes out first. -/
theorem deliveryOrder_broken :
    ∃ s, run (msgSystemStep authCfg) (msgSystemInit authCfg)
        (enqueueEvents 0 ++ enqueueEvents 1 ++ drainEvents 2) = some s ∧
      AllSteps (msgSystemStep authCfg) (fun s e => RoomToTake (s e.1) e.2)
        (msgSystemInit authCfg) (enqueueEvents 0 ++ enqueueEvents 1 ++ drainEvents 2) ∧
      (s 0).listed = [0, 1] ∧ (s 0).accepted = [0, 1] ∧ (s 0).publishedBy = [1, 0] := by
  have h : ((run (msgSystemStep authCfg) (msgSystemInit authCfg)
        (enqueueEvents 0 ++ enqueueEvents 1 ++ drainEvents 2)).map fun s =>
          ((s 0).listed, (s 0).accepted, (s 0).publishedBy)) = some ([0, 1], [0, 1], [1, 0]) := by
    decide +kernel
  obtain ⟨s, hs, heq⟩ := exists_run_of_map h
  simp only [Prod.mk.injEq] at heq
  exact ⟨s, hs, by decide +kernel, heq⟩

end Puppies
