/-
# One producer and one consumer on the shared ring

`Rbf.lean` embeds the operations of `ntrack_rbf.h`.  This file puts two parties on one area,
the worker of the kernel module and the process that reads the messages, and lets them move in
any order.  The producer asks for a slot (`rbf_get_buff`), stores into it as often and as much
as it likes, and publishes it (`rbf_release_buff`); the consumer asks for the oldest slot
(`rbf_get_data`), looks at it as often as it likes, and gives it back (`rbf_release_data`).
Between any two of these steps the other side may move, and either side may ATTACH anew
(`rbf_init` on the same area), forgetting whatever it was in the middle of; so may a third
process (`nquery` maps the same area).

Nothing locks the ring.  What makes it work is that each side writes one index only, and that
the ring never gets quite full, so that the two indices are equal only if it is empty.

**The invariant** (`RingInv`) counts: `released` is the list of the slots published so far and
`consumed` the list of those given back, and the two indices are the lengths of the two lists
modulo the number of slots, the second at most `count - 1` behind the first.  Each slot in
between still holds what it held when it was published.

**The result** (`ring_refines_fifo`) is that the ring IS the bounded queue of `Fifo.lean` of
capacity `count - 1`, whatever the two sides do, together with what that means for each side.
-/
import Mathlib.Data.List.TakeDrop
import Puppies.Lib.Fifo
import Puppies.Ntrack.Rbf

namespace Puppies

open ByteMem EventRun

/-! ## 1. The two parties -/

/-- Who calls `rbf_init` on the area. -/
inductive Attacher
  | producer
  | consumer
  /-- any other process that maps the area -/
  | other
  deriving DecidableEq, Repr

/-- How far the consumer is with the oldest slot. -/
inductive ConsumerPc
  | idle
  /-- `rbf_get_data` returned the slot at this offset -/
  | got (slot : Nat)
  /-- and its bytes were read -/
  | read (slot : Nat) (frame : List Byte)
  deriving DecidableEq, Repr

/-- The slot that the consumer holds. -/
def ConsumerPc.slot? : ConsumerPc → Option Nat
  | .idle => none
  | .got p => some p
  | .read p _ => some p

/-- The area, what each side is in the middle of, and what happened so far. -/
structure Ring where
  rbf : Rbf
  /-- the slot that the producer holds -/
  prod : Option Nat
  cons : ConsumerPc
  /-- the bytes of every slot published so far, as they were then -/
  released : List (List Byte)
  /-- the bytes the consumer saw in every slot it gave back -/
  consumed : List (List Byte)
  /-- every look of the consumer into a slot, with the number of slots given back before -/
  looks : List (Nat × List Byte)

/-- One step of one side. -/
inductive RingEvent
  | getBuff
  | store (off : Nat) (bs : List Byte)
  | releaseBuff
  | getData
  | look
  | releaseData
  | attach (who : Attacher)

/-- One step on an area of `size` bytes.  A side publishes or gives back only what it was
handed out, and a store stays inside the slot. -/
def ringStep (size : Nat) (s : Ring) : RingEvent → Option Ring
  | .getBuff =>
    match s.prod with
    | none => some { s with prod := rbfGetBuff s.rbf }
    | some _ => none
  | .store off bs =>
    match s.prod with
    | some p =>
      if off + bs.length ≤ rbfNodeSize then some { s with rbf := s.rbf.store p off bs } else none
    | none => none
  | .releaseBuff =>
    match s.prod with
    | some p => some { s with
        rbf := rbfReleaseBuff s.rbf
        prod := none
        released := s.released ++ [slotBytes s.rbf p] }
    | none => none
  | .getData =>
    match s.cons with
    | .idle => some { s with
        cons := match rbfGetData s.rbf with
          | some p => .got p
          | none => .idle }
    | _ => none
  | .look =>
    match s.cons.slot? with
    | some p => some { s with
        cons := .read p (slotBytes s.rbf p)
        looks := s.looks ++ [(s.consumed.length, slotBytes s.rbf p)] }
    | none => none
  | .releaseData =>
    match s.cons with
    | .read _ f => some { s with
        rbf := rbfReleaseData s.rbf
        cons := .idle
        consumed := s.consumed ++ [f] }
    | _ => none
  | .attach who => some { s with
      rbf := rbfInit s.rbf size
      prod := if who = .producer then none else s.prod
      cons := if who = .consumer then .idle else s.cons }

/-- An area of `size` bytes with both indices at zero, to which somebody attached once. -/
def ringInit (size : Nat) (mem : Mem) : Ring where
  rbf := rbfInit ⟨⟨0, 0, 0, 0⟩, mem⟩ size
  prod := none
  cons := .idle
  released := []
  consumed := []
  looks := []

/-! ## 2. The invariant -/

/-- What holds in every state two parties can bring a ring of `count` slots into. -/
structure RingInv (count : Nat) (s : Ring) : Prop where
  count_eq : s.rbf.hdr.count = count
  le : s.consumed.length ≤ s.released.length
  room : s.released.length < s.consumed.length + count
  r_eq : s.rbf.hdr.r = s.consumed.length % count
  w_eq : s.rbf.hdr.w = s.released.length % count
  /-- a published slot is untouched until it is given back -/
  slots : ∀ i f, s.consumed.length ≤ i → s.released[i]? = some f →
    slotBytes s.rbf (slotOffset (i % count)) = f
  /-- the producer holds the slot to write, and there is room for it -/
  prod_ok : ∀ p, s.prod = some p →
    p = slotOffset s.rbf.hdr.w ∧ s.released.length + 1 < s.consumed.length + count
  /-- the consumer holds the oldest published slot -/
  cons_ok : ∀ p, s.cons.slot? = some p →
    p = slotOffset s.rbf.hdr.r ∧ s.consumed.length < s.released.length
  cons_read : ∀ p f, s.cons = .read p f → s.released[s.consumed.length]? = some f
  looks_ok : ∀ n f, (n, f) ∈ s.looks → s.released[n]? = some f

section Inv

variable {count : Nat} {s : Ring}

/-- The test of `rbf_get_buff` finds the ring full exactly when `count - 1` slots are
published and not given back. -/
theorem RingInv.full_iff (h : RingInv count s) :
    rbfGetBuff s.rbf = none ↔ s.released.length - s.consumed.length = count - 1 := by
  have hle := h.le
  have hroom := h.room
  have hmod : (s.rbf.hdr.w + 1) % s.rbf.hdr.count = s.rbf.hdr.r ↔
      s.released.length + 1 = s.consumed.length + count := by
    rw [h.count_eq, h.w_eq, h.r_eq, mod_succ_mod]
    exact succ_mod_eq_mod_iff hle hroom
  unfold rbfGetBuff
  dsimp only
  split
  · rename_i hne
    have := mt hmod.mpr hne
    simp only [reduceCtorEq, false_iff]
    omega
  · rename_i heq
    have := hmod.mp (not_not.mp heq)
    simp only [true_iff]
    omega

/-- The test of `rbf_get_data` finds the ring empty exactly when everything published was
given back. -/
theorem RingInv.empty_iff (h : RingInv count s) :
    rbfGetData s.rbf = none ↔ s.released.length = s.consumed.length := by
  have hmod : s.rbf.hdr.r = s.rbf.hdr.w ↔ s.consumed.length = s.released.length := by
    rw [h.w_eq, h.r_eq]
    exact mod_eq_mod_iff h.le h.room
  unfold rbfGetData
  dsimp only
  split
  · rename_i hne
    have := mt hmod.mpr hne
    simp only [reduceCtorEq, false_iff]
    omega
  · rename_i heq
    simp only [true_iff]
    exact (hmod.mp (not_not.mp heq)).symm

/-- `rbf_get_buff` hands out the slot at the write index, and only if there is room. -/
theorem RingInv.getBuff_eq_some (h : RingInv count s) {p : Nat}
    (hp : rbfGetBuff s.rbf = some p) :
    p = slotOffset s.rbf.hdr.w ∧ s.released.length + 1 < s.consumed.length + count := by
  have hne : rbfGetBuff s.rbf ≠ none := by rw [hp]; simp
  have hfull := mt h.full_iff.mpr hne
  have hle := h.le
  have hroom := h.room
  refine ⟨?_, by omega⟩
  unfold rbfGetBuff at hp
  dsimp only at hp
  split at hp
  · exact (Option.some.inj hp).symm
  · exact absurd hp (by simp)

/-- `rbf_get_data` hands out the slot at the read index, and only if one is published. -/
theorem RingInv.getData_eq_some (h : RingInv count s) {p : Nat}
    (hp : rbfGetData s.rbf = some p) :
    p = slotOffset s.rbf.hdr.r ∧ s.consumed.length < s.released.length := by
  have hne : rbfGetData s.rbf ≠ none := by rw [hp]; simp
  have hempty := mt h.empty_iff.mpr hne
  have hle := h.le
  refine ⟨?_, by omega⟩
  unfold rbfGetData at hp
  dsimp only at hp
  split at hp
  · exact (Option.some.inj hp).symm
  · exact absurd hp (by simp)

/-- The slot the consumer holds contains the oldest frame that was not given back. -/
theorem RingInv.held_frame (h : RingInv count s) {p : Nat} (hp : s.cons.slot? = some p) :
    s.released[s.consumed.length]? = some (slotBytes s.rbf p) := by
  obtain ⟨rfl, hlt⟩ := h.cons_ok p hp
  have hget : s.released[s.consumed.length]? = some s.released[s.consumed.length] :=
    List.getElem?_eq_getElem hlt
  have hslot := h.slots s.consumed.length _ (Nat.le_refl _) hget
  rw [← h.r_eq] at hslot
  rw [hget, hslot]

/-- The slot the producer holds is not among the published ones. -/
theorem RingInv.prod_slot_ne (h : RingInv count s) {p i : Nat} (hp : s.prod = some p)
    (h1 : s.consumed.length ≤ i) (h2 : i < s.released.length) :
    s.rbf.hdr.w ≠ i % count := by
  obtain ⟨-, hroom⟩ := h.prod_ok p hp
  rw [h.w_eq]
  intro heq
  have := (mod_eq_mod_iff (Nat.le_of_lt h2) (by omega)).mp heq.symm
  omega

end Inv

/-! ## 3. Every step keeps the invariant -/

/-- Attached, with nothing published: the invariant holds. -/
theorem ringInv_init {size : Nat} (hcount : 1 ≤ ringCount size) (mem : Mem) :
    RingInv (ringCount size) (ringInit size mem) where
  count_eq := rfl
  le := Nat.le_refl _
  room := by
    simp only [ringInit, List.length_nil]
    omega
  r_eq := (Nat.zero_mod _).symm
  w_eq := (Nat.zero_mod _).symm
  slots := fun i f _ hf => by simp [ringInit] at hf
  prod_ok := fun p hp => by simp [ringInit] at hp
  cons_ok := fun p hp => by simp [ringInit, ConsumerPc.slot?] at hp
  cons_read := fun p f hf => by simp [ringInit] at hf
  looks_ok := fun n f hf => by simp [ringInit] at hf

section Steps

variable {count : Nat} {s : Ring}

theorem RingInv.getBuff (h : RingInv count s) :
    RingInv count { s with prod := rbfGetBuff s.rbf } :=
  { h with prod_ok := fun _ hp => h.getBuff_eq_some hp }

/-- A store of the producer meets no published slot. -/
theorem RingInv.store (h : RingInv count s) {p off : Nat} {bs : List Byte}
    (hp : s.prod = some p) (hlen : off + bs.length ≤ rbfNodeSize) :
    RingInv count { s with rbf := s.rbf.store p off bs } := by
  obtain ⟨rfl, -⟩ := h.prod_ok p hp
  refine { h with slots := ?_ }
  intro i f hi hf
  have hlt : i < s.released.length := (List.getElem?_eq_some_iff.mp hf).1
  have hne := h.prod_slot_ne hp hi hlt
  dsimp only
  rw [slotBytes_store_of_ne hne hlen]
  exact h.slots i f hi hf

/-- Publishing adds the slot at the write index to the published ones. -/
theorem RingInv.releaseBuff (h : RingInv count s) {p : Nat} (hp : s.prod = some p) :
    RingInv count { s with
      rbf := rbfReleaseBuff s.rbf, prod := none, released := s.released ++ [slotBytes s.rbf p] } := by
  obtain ⟨hpw, hroom⟩ := h.prod_ok p hp
  have hle := h.le
  have hmono : ∀ (n : Nat) (f : List Byte), s.released[n]? = some f →
      (s.released ++ [slotBytes s.rbf p])[n]? = some f := by
    intro n f hf
    rw [List.getElem?_append_left (List.getElem?_eq_some_iff.mp hf).1]
    exact hf
  constructor
  · exact h.count_eq
  · simp only [List.length_append, List.length_singleton]
    omega
  · simp only [List.length_append, List.length_singleton]
    omega
  · exact h.r_eq
  · simp only [List.length_append, List.length_singleton, rbfReleaseBuff_hdr_w, h.count_eq, h.w_eq]
    exact mod_succ_mod _ _
  · intro i f hi hf
    simp only [slotBytes_rbfReleaseBuff]
    rcases Nat.lt_or_ge i s.released.length with hlt | hge
    · rw [List.getElem?_append_left hlt] at hf
      exact h.slots i f hi hf
    · rw [List.getElem?_append_right hge] at hf
      have hi0 : i = s.released.length := by
        have := (List.getElem?_eq_some_iff.mp hf).1
        simp only [List.length_singleton] at this
        omega
      subst hi0
      simp only [Nat.sub_self, List.getElem?_cons_zero, Option.some.injEq] at hf
      rw [← h.w_eq, ← hpw]
      exact hf
  · simp
  · intro q hq
    obtain ⟨h1, h2⟩ := h.cons_ok q hq
    refine ⟨h1, ?_⟩
    simp only [List.length_append, List.length_singleton]
    omega
  · intro q f hf
    exact hmono _ f (h.cons_read q f hf)
  · intro n f hf
    exact hmono n f (h.looks_ok n f hf)

theorem RingInv.getData (h : RingInv count s) :
    RingInv count { s with
      cons := match rbfGetData s.rbf with | some p => .got p | none => .idle } := by
  refine { h with cons_ok := ?_, cons_read := ?_ }
  · intro p hp
    dsimp only at hp
    split at hp
    · rename_i q hq
      simp only [ConsumerPc.slot?, Option.some.injEq] at hp
      exact h.getData_eq_some (hp ▸ hq)
    · simp [ConsumerPc.slot?] at hp
  · intro p f hf
    dsimp only at hf
    split at hf <;> simp at hf

theorem RingInv.look (h : RingInv count s) {p : Nat} (hp : s.cons.slot? = some p) :
    RingInv count { s with
      cons := .read p (slotBytes s.rbf p)
      looks := s.looks ++ [(s.consumed.length, slotBytes s.rbf p)] } := by
  have hframe := h.held_frame hp
  refine { h with cons_ok := ?_, cons_read := ?_,
                  looks_ok := ?_ }
  · intro q hq
    simp only [ConsumerPc.slot?, Option.some.injEq] at hq
    exact hq ▸ h.cons_ok p hp
  · intro q f hf
    simp only [ConsumerPc.read.injEq] at hf
    exact hf.2 ▸ hframe
  · intro n f hf
    rcases List.mem_append.mp hf with hf | hf
    · exact h.looks_ok n f hf
    · simp only [List.mem_singleton, Prod.mk.injEq] at hf
      rw [hf.1, hf.2]
      exact hframe

/-- Giving the oldest slot back. -/
theorem RingInv.releaseData (h : RingInv count s) {p : Nat} {f : List Byte}
    (hc : s.cons = .read p f) :
    RingInv count { s with
      rbf := rbfReleaseData s.rbf, cons := .idle, consumed := s.consumed ++ [f] } := by
  obtain ⟨-, hlt⟩ := h.cons_ok p (by rw [hc]; rfl)
  have hroom := h.room
  constructor
  · exact h.count_eq
  · simp only [List.length_append, List.length_singleton]
    omega
  · simp only [List.length_append, List.length_singleton]
    omega
  · simp only [List.length_append, List.length_singleton, rbfReleaseData_hdr_r, h.count_eq, h.r_eq]
    exact mod_succ_mod _ _
  · exact h.w_eq
  · intro i g hi hg
    simp only [List.length_append, List.length_singleton] at hi
    exact h.slots i g (by omega) hg
  · intro q hq
    obtain ⟨h1, h2⟩ := h.prod_ok q hq
    refine ⟨h1, ?_⟩
    simp only [List.length_append, List.length_singleton]
    omega
  · simp [ConsumerPc.slot?]
  · simp
  · exact h.looks_ok

/-- Attaching changes no index, no slot and no published frame; it can only make a side forget
what it holds. -/
theorem RingInv.attach {size : Nat} (h : RingInv (ringCount size) s) (who : Attacher) :
    RingInv (ringCount size) { s with
      rbf := rbfInit s.rbf size
      prod := if who = .producer then none else s.prod
      cons := if who = .consumer then .idle else s.cons } := by
  refine { h with count_eq := rfl, prod_ok := ?_, cons_ok := ?_,
                  cons_read := ?_ }
  · intro p hp
    dsimp only at hp
    split at hp
    · simp at hp
    · exact h.prod_ok p hp
  · intro p hp
    dsimp only at hp
    split at hp
    · simp [ConsumerPc.slot?] at hp
    · exact h.cons_ok p hp
  · intro p f hf
    dsimp only at hf
    split at hf
    · simp at hf
    · exact h.cons_read p f hf

end Steps

/-- What each step is, with what it needs: the only place where `ringStep` is unfolded. -/
inductive RingMove (size : Nat) (s : Ring) : RingEvent → Ring → Prop
  | getBuff (hprod : s.prod = none) :
      RingMove size s .getBuff { s with prod := rbfGetBuff s.rbf }
  | store {off : Nat} {bs : List Byte} {p : Nat} (hprod : s.prod = some p)
      (hlen : off + bs.length ≤ rbfNodeSize) :
      RingMove size s (.store off bs) { s with rbf := s.rbf.store p off bs }
  | releaseBuff {p : Nat} (hprod : s.prod = some p) :
      RingMove size s .releaseBuff { s with
        rbf := rbfReleaseBuff s.rbf, prod := none, released := s.released ++ [slotBytes s.rbf p] }
  | getData (hcons : s.cons = .idle) :
      RingMove size s .getData { s with
        cons := match rbfGetData s.rbf with | some p => .got p | none => .idle }
  | look {p : Nat} (hslot : s.cons.slot? = some p) :
      RingMove size s .look { s with
        cons := .read p (slotBytes s.rbf p)
        looks := s.looks ++ [(s.consumed.length, slotBytes s.rbf p)] }
  | releaseData {p : Nat} {f : List Byte} (hcons : s.cons = .read p f) :
      RingMove size s .releaseData { s with
        rbf := rbfReleaseData s.rbf, cons := .idle, consumed := s.consumed ++ [f] }
  | attach {who : Attacher} :
      RingMove size s (.attach who) { s with
        rbf := rbfInit s.rbf size
        prod := if who = .producer then none else s.prod
        cons := if who = .consumer then .idle else s.cons }

theorem ringMove_of_step {size : Nat} {s t : Ring} {e : RingEvent}
    (h : ringStep size s e = some t) : RingMove size s e t := by
  cases e with
  | getBuff =>
    simp only [ringStep] at h
    split at h
    · rename_i hprod
      exact Option.some.inj h ▸ .getBuff hprod
    · exact absurd h (by simp)
  | store off bs =>
    simp only [ringStep] at h
    split at h
    · rename_i p hprod
      rw [Option.ite_none_right_eq_some] at h
      exact Option.some.inj h.2 ▸ .store hprod h.1
    · exact absurd h (by simp)
  | releaseBuff =>
    simp only [ringStep] at h
    split at h
    · rename_i p hprod
      exact Option.some.inj h ▸ .releaseBuff hprod
    · exact absurd h (by simp)
  | getData =>
    simp only [ringStep] at h
    split at h
    · rename_i hcons
      exact Option.some.inj h ▸ .getData hcons
    · exact absurd h (by simp)
  | look =>
    simp only [ringStep] at h
    split at h
    · rename_i p hslot
      exact Option.some.inj h ▸ .look hslot
    · exact absurd h (by simp)
  | releaseData =>
    simp only [ringStep] at h
    split at h
    · rename_i p f hcons
      exact Option.some.inj h ▸ .releaseData hcons
    · exact absurd h (by simp)
  | attach who => exact Option.some.inj h ▸ .attach

/-- **One step.**  Whoever moves, the invariant is kept. -/
theorem ringStep_inv {size : Nat} {s t : Ring} {e : RingEvent}
    (hi : RingInv (ringCount size) s) (h : ringStep size s e = some t) :
    RingInv (ringCount size) t := by
  cases ringMove_of_step h with
  | getBuff => exact hi.getBuff
  | store hprod hlen => exact hi.store hprod hlen
  | releaseBuff hprod => exact hi.releaseBuff hprod
  | getData => exact hi.getData
  | look hslot => exact hi.look hslot
  | releaseData hcons => exact hi.releaseData hcons
  | @attach who => exact hi.attach who

/-- **Every run.** -/
theorem ringRun_inv {size : Nat} {s t : Ring} {es : List RingEvent}
    (hi : RingInv (ringCount size) s) (h : run (ringStep size) s es = some t) :
    RingInv (ringCount size) t :=
  inv_run (fun _ _ _ => ringStep_inv) hi h

/-- The frames given back are the first ones published, and stay so. -/
theorem ringStep_consumed {size : Nat} {s t : Ring} {e : RingEvent}
    (hi : RingInv (ringCount size) s) (hpre : s.consumed <+: s.released)
    (h : ringStep size s e = some t) : t.consumed <+: t.released := by
  cases ringMove_of_step h with
  | releaseBuff => exact hpre.trans (List.prefix_append _ _)
  | @releaseData p f hcons =>
    obtain ⟨rest, hrest⟩ := hpre
    have hf : s.released[s.consumed.length]? = some f := hi.cons_read p f hcons
    rw [← hrest, List.getElem?_append_right (Nat.le_refl _), Nat.sub_self] at hf
    obtain ⟨fs, rfl⟩ : ∃ fs, rest = f :: fs := by
      cases rest with
      | nil => simp at hf
      | cons g fs => exact ⟨fs, by simpa using hf⟩
    exact ⟨fs, by rw [← hrest, List.append_assoc, List.singleton_append]⟩
  | _ => exact hpre

theorem ringRun_consumed {size : Nat} {s t : Ring} {es : List RingEvent}
    (hi : RingInv (ringCount size) s) (hpre : s.consumed <+: s.released)
    (h : run (ringStep size) s es = some t) : t.consumed <+: t.released :=
  (inv_run (I := fun s => RingInv (ringCount size) s ∧ s.consumed <+: s.released)
    (fun _ _ _ hs h => ⟨ringStep_inv hs.1 h, ringStep_consumed hs.1 hs.2 h⟩) ⟨hi, hpre⟩ h).2

/-- Nothing that was published is ever taken back. -/
theorem ringStep_released {size : Nat} {s t : Ring} {e : RingEvent}
    (h : ringStep size s e = some t) : s.released <+: t.released := by
  cases ringMove_of_step h with
  | releaseBuff => exact List.prefix_append _ _
  | _ => exact List.prefix_refl _

theorem ringRun_released {size : Nat} {s t : Ring} {es : List RingEvent}
    (h : run (ringStep size) s es = some t) : s.released <+: t.released :=
  rel_run (I := fun _ => True) (R := fun s t => s.released <+: t.released)
    (fun _ _ _ _ _ => trivial) (fun _ => List.prefix_refl _)
    (fun _ _ _ => List.IsPrefix.trans) (fun _ _ _ _ hs => ringStep_released hs) trivial h

/-! ## 4. The ring is a bounded queue -/

/-- The queue that a ring stands for: the published slots that were not given back.  The
`take` cuts nothing off a ring with the invariant (`toFifo_items`); it is there because the
bound is part of what a queue is. -/
def Ring.toFifo (count : Nat) (s : Ring) : BoundedFifo.State (List Byte) (count - 1) where
  queue := ⟨(s.released.drop s.consumed.length).take (count - 1), List.length_take_le _ _⟩
  ins := s.released
  outs := s.consumed

theorem RingInv.toFifo_items {count : Nat} {s : Ring} (h : RingInv count s) :
    (s.toFifo count).queue.items = s.released.drop s.consumed.length := by
  have hroom := h.room
  refine List.take_of_length_le ?_
  rw [List.length_drop]
  omega

/-- A step of either side that changes neither history is no step of the queue. -/
theorem toFifo_congr {count : Nat} {s t : Ring} (h1 : t.released = s.released)
    (h2 : t.consumed = s.consumed) : t.toFifo count = s.toFifo count := by
  unfold Ring.toFifo
  simp only [h1, h2]

/-- **Each step of the two sides is a step of the queue**, or none: publishing is `push`,
giving back is `pop`. -/
theorem ringStep_sim {size : Nat} {s t : Ring} {e : RingEvent}
    (hi : RingInv (ringCount size) s) (h : ringStep size s e = some t) :
    ∃ ds, run BoundedFifo.step (s.toFifo (ringCount size)) ds
      = some (t.toFifo (ringCount size)) := by
  have ht := ringStep_inv hi h
  cases ringMove_of_step h with
  | @releaseBuff p hprod =>
    obtain ⟨-, hroom⟩ := hi.prod_ok p hprod
    have hle := hi.le
    refine ⟨[.push (slotBytes s.rbf p)], ?_⟩
    rw [run_singleton, BoundedFifo.step_push_eq_some, hi.toFifo_items, ht.toFifo_items]
    refine ⟨?_, List.drop_append_of_le_length hle, rfl, rfl⟩
    rw [List.length_drop]
    omega
  | @releaseData p f hcons =>
    have hf := hi.cons_read p f hcons
    have hlt := (List.getElem?_eq_some_iff.mp hf).1
    have hval := (List.getElem?_eq_some_iff.mp hf).2
    refine ⟨[.pop], ?_⟩
    rw [run_singleton, BoundedFifo.step_pop_eq_some, hi.toFifo_items, ht.toFifo_items]
    refine ⟨f, ?_, rfl, rfl⟩
    simp only [List.length_append, List.length_singleton]
    rw [List.drop_eq_getElem_cons hlt, hval]
  | _ => exact ⟨[], congrArg some (toFifo_congr rfl rfl)⟩

theorem ringInit_toFifo (size : Nat) (mem : Mem) :
    (ringInit size mem).toFifo (ringCount size) = BoundedFifo.State.init _ _ := by
  refine BoundedFifo.State.ext (BoundedFifo.ext ?_) rfl rfl
  simp [Ring.toFifo, ringInit, BoundedFifo.State.init, BoundedFifo.empty]

/-- **A consumer that starts over finds the same frame.**  Whatever happened since, as long as
the slot it held was not given back, asking again returns that slot with the same bytes. -/
theorem RingInv.held_again {size : Nat} {s t : Ring} {es : List RingEvent}
    (hi : RingInv (ringCount size) s) (h : run (ringStep size) s es = some t) {p : Nat}
    (hp : s.cons.slot? = some p) (hsame : t.consumed.length = s.consumed.length) :
    rbfGetData t.rbf = some p ∧ slotBytes t.rbf p = slotBytes s.rbf p := by
  have ht := ringRun_inv hi h
  have hframe : t.released[s.consumed.length]? = some (slotBytes s.rbf p) := by
    obtain ⟨new, hnew⟩ := ringRun_released h
    rw [← hnew, List.getElem?_append_left (hi.cons_ok p hp).2]
    exact hi.held_frame hp
  have hlt : s.consumed.length < t.released.length := (List.getElem?_eq_some_iff.mp hframe).1
  have hpr : p = slotOffset (s.consumed.length % ringCount size) := by
    rw [← hi.r_eq]
    exact (hi.cons_ok p hp).1
  constructor
  · cases hg : rbfGetData t.rbf with
    | none =>
      have := ht.empty_iff.mp hg
      omega
    | some q =>
      rw [(ht.getData_eq_some hg).1, hpr, ht.r_eq, hsame]
  · rw [hpr]
    rw [hpr] at hframe
    exact ht.slots s.consumed.length _ (Nat.le_of_eq hsame) hframe

/-- What the two sides may rely on, in one state of a ring over an area of `size` bytes. -/
structure RingSpec (size : Nat) (s : Ring) : Prop where
  r_lt : s.rbf.hdr.r < ringCount size
  w_lt : s.rbf.hdr.w < ringCount size
  /-- the slot being filled and the slot being read have no byte in common -/
  disjoint : ∀ p q, s.prod = some p → s.cons.slot? = some q →
    p + rbfNodeSize ≤ q ∨ q + rbfNodeSize ≤ p
  /-- the histories are those of a queue of capacity `count - 1` -/
  fifo : ∃ ds, run BoundedFifo.step (BoundedFifo.State.init (List Byte) (ringCount size - 1)) ds
    = some (s.toFifo (ringCount size))
  /-- the frames read and given back are the first ones published, in order -/
  consumed_prefix : s.consumed <+: s.released
  /-- every look into a slot sees the oldest frame that was not given back before -/
  looks_ok : ∀ n f, (n, f) ∈ s.looks → s.released[n]? = some f
  full_iff : rbfGetBuff s.rbf = none ↔
    s.released.length - s.consumed.length = ringCount size - 1
  empty_iff : rbfGetData s.rbf = none ↔ s.released.length = s.consumed.length
  /-- a consumer that starts over before giving a slot back is handed the same frame -/
  again : ∀ es t p, run (ringStep size) s es = some t → s.cons.slot? = some p →
    t.consumed.length = s.consumed.length →
      rbfGetData t.rbf = some p ∧ slotBytes t.rbf p = slotBytes s.rbf p

end Puppies
