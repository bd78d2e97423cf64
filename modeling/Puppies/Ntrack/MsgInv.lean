/-
# What the message queues keep, and when the frames are whole

`nmsg_enqueue` puts its node on the list BEFORE it fills it.  From that moment the worker may
take the node, copy it into the ring and free it; what it copies is then whatever the block
held, and the call goes on to store into a block that is gone.

`MsgInv` is what no order of steps can break: who is on the list, in which state, that a node
on the list is allocated.  `FillInv` is what a run keeps as long as the worker takes only
nodes that are filled (`HeadFilled`).  `msgIntegrity_iff` says that this is exactly the
condition under which every frame in the ring is the frame of a call and no call stores into a
freed node.
-/
import Mathlib.Data.List.Nodup
import Puppies.Ntrack.Msg

namespace Puppies

open ByteMem EventRun

/-! ## 1. What every run keeps -/

/-- Holds in every state of the machine. -/
structure MsgInv (cfg : MsgCfg) (s : MsgCpu) : Prop where
  listed_iff : ∀ k, k ∈ s.listed ↔ (s.pc k).inserted = true
  listed_nodup : s.listed.Nodup
  list_sub : ∀ k ∈ s.list, k ∈ s.listed
  list_nodup : s.list.Nodup
  accepted_iff : ∀ k, k ∈ s.accepted ↔ s.pc k = .returned 0
  accepted_nodup : s.accepted.Nodup
  alloc_live : ∀ k, s.pc k = .allocated → ∃ n, s.node k = .live n
  list_live : ∀ k ∈ s.list, ∃ n, s.node k = .live n
  /-- a node that was allocated is for a message that fits a slot -/
  fits : ∀ k, s.pc k = .allocated ∨ (s.pc k).inserted = true → tooBig (cfg.req k) = false

theorem msgInit_inv (cfg : MsgCfg) : MsgInv cfg (msgInit cfg) where
  listed_iff := fun k => by simp [msgInit, EnqPc.inserted]
  listed_nodup := List.nodup_nil
  list_sub := fun k hk => absurd hk List.not_mem_nil
  list_nodup := List.nodup_nil
  accepted_iff := fun k => by simp [msgInit]
  accepted_nodup := List.nodup_nil
  alloc_live := fun k hk => by simp [msgInit] at hk
  list_live := fun k hk => absurd hk List.not_mem_nil
  fits := fun k hk => by simp [msgInit, EnqPc.inserted] at hk

section Calls

variable {cfg : MsgCfg} {s t : MsgCpu} {j k : Nat}

/-- Nothing that the invariants say about call `j` has changed. -/
structure SameCall (s t : MsgCpu) (j : Nat) : Prop where
  pc : t.pc j = s.pc j
  node : t.node j = s.node j
  listed : j ∈ t.listed ↔ j ∈ s.listed
  list : j ∈ t.list ↔ j ∈ s.list
  accepted : j ∈ t.accepted ↔ j ∈ s.accepted

theorem sameCall_goto (hj : j ≠ k) (p : EnqPc) : SameCall s (s.goto k p) j := by
  constructor <;> simp [MsgCpu.goto, hj]

theorem sameCall_allocate (hj : j ≠ k) (n : NmsgNode) : SameCall s (s.allocate k n) j := by
  constructor <;> simp [MsgCpu.allocate, MsgCpu.goto, hj]

theorem sameCall_insert (hj : j ≠ k) : SameCall s (s.insert k) j := by
  constructor <;> simp [MsgCpu.insert, MsgCpu.goto, hj]

theorem sameCall_fill (hj : j ≠ k) (f : NmsgNode → NmsgNode) (p : EnqPc) :
    SameCall s (s.fill k f p) j := by
  unfold MsgCpu.fill
  split
  · constructor <;> simp [MsgCpu.goto, hj]
  · constructor <;> simp [MsgCpu.goto, hj]

theorem sameCall_raise (hj : j ≠ k) : SameCall s (s.raise k) j := by
  constructor <;> simp [MsgCpu.raise, MsgCpu.goto, hj]

theorem sameCall_take (hj : j ≠ k) {n : NmsgNode} {rest : List Nat} (hlist : s.list = k :: rest) :
    SameCall s (s.take k n rest) j := by
  constructor <;> simp [MsgCpu.take, hj, hlist]

/-- What the invariant says about one call. -/
structure CallInv (cfg : MsgCfg) (s : MsgCpu) (k : Nat) : Prop where
  listed_iff : k ∈ s.listed ↔ (s.pc k).inserted = true
  list_sub : k ∈ s.list → k ∈ s.listed
  accepted_iff : k ∈ s.accepted ↔ s.pc k = .returned 0
  alloc_live : s.pc k = .allocated → ∃ n, s.node k = .live n
  list_live : k ∈ s.list → ∃ n, s.node k = .live n
  fits : s.pc k = .allocated ∨ (s.pc k).inserted = true → tooBig (cfg.req k) = false

theorem MsgInv.call (h : MsgInv cfg s) (k : Nat) : CallInv cfg s k :=
  ⟨h.listed_iff k, h.list_sub k, h.accepted_iff k, h.alloc_live k, h.list_live k, h.fits k⟩

theorem CallInv.same (h : CallInv cfg s j) (hsame : SameCall s t j) : CallInv cfg t j := by
  obtain ⟨hpc, hnode, hlisted, hlist, haccepted⟩ := hsame
  constructor
  · rw [hlisted, hpc]
    exact h.listed_iff
  · rw [hlisted, hlist]
    exact h.list_sub
  · rw [haccepted, hpc]
    exact h.accepted_iff
  · rw [hpc, hnode]
    exact h.alloc_live
  · rw [hlist, hnode]
    exact h.list_live
  · rw [hpc]
    exact h.fits

/-- A move of one call keeps the invariant if it keeps what is said about this call. -/
theorem MsgInv.of_call (h : MsgInv cfg s) (hothers : ∀ j, j ≠ k → SameCall s t j)
    (hown : CallInv cfg t k) (hlisted : t.listed.Nodup) (hlist : t.list.Nodup)
    (haccepted : t.accepted.Nodup) : MsgInv cfg t := by
  have hcall : ∀ j, CallInv cfg t j := by
    intro j
    rcases eq_or_ne j k with rfl | hj
    · exact hown
    · exact (h.call j).same (hothers j hj)
  exact {
    listed_iff := fun j => (hcall j).listed_iff
    listed_nodup := hlisted
    list_sub := fun j => (hcall j).list_sub
    list_nodup := hlist
    accepted_iff := fun j => (hcall j).accepted_iff
    accepted_nodup := haccepted
    alloc_live := fun j => (hcall j).alloc_live
    list_live := fun j => (hcall j).list_live
    fits := fun j => (hcall j).fits }

theorem MsgInv.not_mem_listed (h : MsgInv cfg s) (hpc : (s.pc k).inserted = false) :
    k ∉ s.listed := by
  rw [h.listed_iff, hpc]
  exact Bool.false_ne_true

theorem MsgInv.not_mem_list (h : MsgInv cfg s) (hpc : (s.pc k).inserted = false) :
    k ∉ s.list :=
  fun hk => h.not_mem_listed hpc (h.list_sub k hk)

end Calls

section Moves

variable {cfg : MsgCfg} {s : MsgCpu} {k : Nat}

/-- A call that has no node on the list moves to a place where it has none either. -/
theorem MsgInv.goto (h : MsgInv cfg s) {p : EnqPc} (hpc : (s.pc k).inserted = false)
    (hp : p.inserted = false) (hp' : p ≠ .allocated) : MsgInv cfg (s.goto k p) := by
  have hlisted := h.not_mem_listed hpc
  have hlist := h.not_mem_list hpc
  have hne : p ≠ .returned 0 := by
    rintro rfl
    exact absurd hp (by decide)
  have haccepted : k ∉ s.accepted := by
    rw [h.accepted_iff]
    intro hr
    rw [hr] at hpc
    exact absurd hpc (by decide)
  refine h.of_call (fun j hj => sameCall_goto hj p) ?_ h.listed_nodup h.list_nodup
    h.accepted_nodup
  constructor <;> simp [MsgCpu.goto, hlisted, hlist, haccepted, hp, hp', hne]

theorem MsgInv.allocate (h : MsgInv cfg s) {n : NmsgNode} (hpc : s.pc k = .counted)
    (hsize : tooBig (cfg.req k) = false) : MsgInv cfg (s.allocate k n) := by
  have hins : (s.pc k).inserted = false := by rw [hpc]; rfl
  have hlisted := h.not_mem_listed hins
  have hlist := h.not_mem_list hins
  have haccepted : k ∉ s.accepted := by
    rw [h.accepted_iff, hpc]
    simp
  refine h.of_call (fun j hj => sameCall_allocate hj n) ?_ h.listed_nodup h.list_nodup
    h.accepted_nodup
  constructor <;> simp [MsgCpu.allocate, MsgCpu.goto, EnqPc.inserted, hlisted, hlist, haccepted,
    hsize]

theorem MsgInv.insert (h : MsgInv cfg s) (hpc : s.pc k = .allocated) :
    MsgInv cfg (s.insert k) := by
  have hins : (s.pc k).inserted = false := by rw [hpc]; rfl
  have hlisted := h.not_mem_listed hins
  have haccepted : k ∉ s.accepted := by
    rw [h.accepted_iff, hpc]
    simp
  refine h.of_call (fun j hj => sameCall_insert hj) ?_ ?_ ?_ h.accepted_nodup
  · constructor
    · simp [MsgCpu.insert, MsgCpu.goto, EnqPc.inserted]
    · simp [MsgCpu.insert]
    · simp [MsgCpu.insert, MsgCpu.goto, haccepted]
    · simp [MsgCpu.insert, MsgCpu.goto]
    · intro _
      exact h.alloc_live k hpc
    · intro _
      exact h.fits k (Or.inl hpc)
  · exact h.listed_nodup.append (List.nodup_singleton k) (List.disjoint_singleton.mpr hlisted)
  · exact List.nodup_cons.mpr ⟨h.not_mem_list hins, h.list_nodup⟩

/-- Before and after each of the three filling statements the call is past the insertion. -/
theorem fillNext_pc {bo : ByteOrder} {r : Request} {p q : EnqPc} {f : NmsgNode → NmsgNode}
    (h : fillNext bo r p = some (f, q)) :
    p.unfilled = true ∧ p.inserted = true ∧ q.inserted = true ∧ q ≠ .allocated ∧
      p ≠ .returned 0 ∧ q ≠ .returned 0 := by
  cases p <;> simp only [fillNext, Option.some.injEq, Prod.mk.injEq, reduceCtorEq] at h
  all_goals
    obtain ⟨-, rfl⟩ := h
    decide

/-- A store of a call leaves its node allocated, if it was. -/
theorem live_fill {f : NmsgNode → NmsgNode} {p : EnqPc} (h : ∃ n, s.node k = .live n) :
    ∃ n, (s.fill k f p).node k = .live n := by
  obtain ⟨n, hn⟩ := h
  unfold MsgCpu.fill
  rw [hn]
  exact ⟨f n, Function.update_self ..⟩

theorem MsgInv.fill (h : MsgInv cfg s) {f : NmsgNode → NmsgNode} {p : EnqPc}
    (hnext : fillNext cfg.bo (cfg.req k) (s.pc k) = some (f, p)) : MsgInv cfg (s.fill k f p) := by
  obtain ⟨-, hins, hins', halloc, hret, hret'⟩ := fillNext_pc hnext
  refine h.of_call (fun j hj => sameCall_fill hj f p) ?_ ?_ ?_ ?_
  · constructor
    · simp [h.listed_iff, hins, hins']
    · rw [MsgCpu.fill_list, MsgCpu.fill_listed]
      exact h.list_sub k
    · simp [h.accepted_iff, hret, hret']
    · simp [halloc]
    · rw [MsgCpu.fill_list]
      intro hk
      exact live_fill (h.list_live k hk)
    · intro _
      exact h.fits k (Or.inr hins)
  · rw [MsgCpu.fill_listed]
    exact h.listed_nodup
  · rw [MsgCpu.fill_list]
    exact h.list_nodup
  · rw [MsgCpu.fill_accepted]
    exact h.accepted_nodup

theorem MsgInv.raise (h : MsgInv cfg s) (hpc : s.pc k = .filled) : MsgInv cfg (s.raise k) := by
  have hins : (s.pc k).inserted = true := by rw [hpc]; rfl
  have hlisted : k ∈ s.listed := (h.listed_iff k).mpr hins
  have haccepted : k ∉ s.accepted := by
    rw [h.accepted_iff, hpc]
    simp
  refine h.of_call (fun j hj => sameCall_raise hj) ?_ h.listed_nodup h.list_nodup ?_
  · constructor
    · simp [MsgCpu.raise, MsgCpu.goto, EnqPc.inserted, hlisted]
    · exact h.list_sub k
    · simp [MsgCpu.raise, MsgCpu.goto]
    · simp [MsgCpu.raise, MsgCpu.goto]
    · exact h.list_live k
    · intro _
      exact h.fits k (Or.inr hins)
  · exact h.accepted_nodup.append (List.nodup_singleton k) (List.disjoint_singleton.mpr haccepted)

theorem MsgInv.take (h : MsgInv cfg s) {n : NmsgNode} {rest : List Nat}
    (hlist : s.list = k :: rest) : MsgInv cfg (s.take k n rest) := by
  have hnodup : k ∉ rest ∧ rest.Nodup := List.nodup_cons.mp (hlist ▸ h.list_nodup)
  have hins : (s.pc k).inserted = true :=
    (h.listed_iff k).mp (h.list_sub k (hlist ▸ List.mem_cons_self))
  refine h.of_call (fun j hj => sameCall_take hj hlist) ?_ h.listed_nodup hnodup.2
    h.accepted_nodup
  constructor
  · exact h.listed_iff k
  · intro hk
    exact absurd hk hnodup.1
  · exact h.accepted_iff k
  · intro hpc
    rw [show s.pc k = .allocated from hpc] at hins
    exact absurd hins (by decide)
  · intro hk
    exact absurd hk hnodup.1
  · exact h.fits k

end Moves

/-- **One step.**  Whoever moves, the invariant is kept. -/
theorem msgMove_inv {cfg : MsgCfg} {core : Nat} {s t : MsgCpu} {e : MsgEvent} (h : MsgInv cfg s)
    (hm : MsgMove cfg core s e t) : MsgInv cfg t := by
  cases hm with
  | @test k hcore hpc =>
    have hins : (s.pc k).inserted = false := by rw [hpc]; rfl
    split
    · exact h.goto hins (by decide) (by simp)
    · exact h.goto hins (by decide) (by simp)
  | @refuse k block ret hpc hret =>
    exact h.goto (by rw [hpc]; rfl) (by simpa [EnqPc.inserted] using hret) (by simp)
  | allocate hpc hsize => exact h.allocate hpc hsize
  | insert hpc => exact h.insert hpc
  | fill hnext => exact h.fill hnext
  | raise hpc => exact h.raise hpc
  | take hlock hlist hnode => exact h.take hlist
  | workStart => exact { h with }
  | workCheck => exact { h with }
  | takeNone => exact { h with }
  | reader => exact { h with }

/-! ## 2. What a run keeps that takes only filled nodes -/

/-- What the node of call `k` holds when the call is at the given place. -/
def NodeOk (cfg : MsgCfg) (k : Nat) : EnqPc → NmsgNode → Prop
  | .sized, n => n.buffSize = (cfg.req k).hdr.dataLen.toNat + nmsgHdrSize
  | .headed, n => n.buffSize = (cfg.req k).hdr.dataLen.toNat + nmsgHdrSize ∧
      read n.buff 0 nmsgHdrSize = (cfg.req k).hdr.bytes cfg.bo
  | .filled, n | .returned _, n => n.frame = cfg.frame k
  | _, _ => True

/-- **The three filling statements make the frame.** -/
theorem NodeOk.fill {cfg : MsgCfg} {k : Nat} {p q : EnqPc} {f : NmsgNode → NmsgNode}
    {n : NmsgNode} (h : NodeOk cfg k p n)
    (hnext : fillNext cfg.bo (cfg.req k) p = some (f, q)) : NodeOk cfg k q (f n) := by
  cases p with
  | listed =>
    simp only [fillNext, Option.some.injEq, Prod.mk.injEq] at hnext
    obtain ⟨rfl, rfl⟩ := hnext
    rfl
  | sized =>
    simp only [fillNext, Option.some.injEq, Prod.mk.injEq] at hnext
    obtain ⟨rfl, rfl⟩ := hnext
    refine ⟨h, ?_⟩
    have := read_write_self n.buff 0 ((cfg.req k).hdr.bytes cfg.bo)
    rwa [NmsgHdr.length_bytes] at this
  | headed =>
    simp only [fillNext, Option.some.injEq, Prod.mk.injEq] at hnext
    obtain ⟨rfl, rfl⟩ := hnext
    obtain ⟨hsize, hhdr⟩ := h
    have hdata : read (write n.buff nmsgHdrSize (cfg.req k).buf) nmsgHdrSize
        (cfg.req k).hdr.dataLen.toNat = (cfg.req k).buf := by
      rw [← (cfg.req k).buf_length]
      exact read_write_self _ _ _
    have hkeep : read (write n.buff nmsgHdrSize (cfg.req k).buf) 0 nmsgHdrSize
        = (cfg.req k).hdr.bytes cfg.bo := by
      rw [read_write_of_disjoint (Or.inl (by omega)), hhdr]
    show read _ 0 n.buffSize = cfg.frame k
    rw [hsize, Nat.add_comm, read_add, hkeep, Nat.zero_add, hdata]
    rfl
  | start => simp [fillNext] at hnext
  | counted => simp [fillNext] at hnext
  | allocated => simp [fillNext] at hnext
  | filled => simp [fillNext] at hnext
  | returned ret => simp [fillNext] at hnext

/-- Past the insertion and the filling, the node holds the frame. -/
theorem NodeOk.frame_eq {cfg : MsgCfg} {k : Nat} {p : EnqPc} {n : NmsgNode}
    (h : NodeOk cfg k p n) (hins : p.inserted = true) (hfill : p.unfilled = false) :
    n.frame = cfg.frame k := by
  cases p with
  | filled => exact h
  | returned ret => exact h
  | start => exact absurd hins (by decide)
  | counted => exact absurd hins (by decide)
  | allocated => exact absurd hins (by decide)
  | listed => exact absurd hfill (by decide)
  | sized => exact absurd hfill (by decide)
  | headed => exact absurd hfill (by decide)

/-- Holds as long as the worker takes only filled nodes. -/
structure FillInv (cfg : MsgCfg) (s : MsgCpu) : Prop where
  node_ok : ∀ k ∈ s.list, ∀ n, s.node k = .live n → NodeOk cfg k (s.pc k) n
  unfilled_mem : ∀ k, (s.pc k).unfilled = true → k ∈ s.list
  published_ok : ∀ p ∈ s.published, p.2 = cfg.frame p.1
  wild_nil : s.wild = []

/-- The condition on a step: if it is the worker's locked section, the call that put the first
node on the list is done filling it. -/
def HeadFilled (s : MsgCpu) : MsgEvent → Prop
  | .workTake => ∀ k ∈ s.list.head?, (s.pc k).unfilled = false
  | _ => True

theorem msgInit_fillInv (cfg : MsgCfg) : FillInv cfg (msgInit cfg) where
  node_ok := fun k hk => absurd hk List.not_mem_nil
  unfilled_mem := fun k hk => absurd hk (by simp [msgInit, EnqPc.unfilled])
  published_ok := fun p hp => absurd hp List.not_mem_nil
  wild_nil := rfl

section FillMoves

variable {cfg : MsgCfg} {s t : MsgCpu} {k : Nat}

/-- A move of one call keeps the invariant if it keeps what is said about this call. -/
theorem FillInv.of_call (hf : FillInv cfg s) (hothers : ∀ j, j ≠ k → SameCall s t j)
    (hnode : k ∈ t.list → ∀ n, t.node k = .live n → NodeOk cfg k (t.pc k) n)
    (hmem : (t.pc k).unfilled = true → k ∈ t.list)
    (hpublished : ∀ p ∈ t.published, p.2 = cfg.frame p.1) (hwild : t.wild = []) :
    FillInv cfg t := by
  refine ⟨?_, ?_, hpublished, hwild⟩
  · intro j hj n hn
    rcases eq_or_ne j k with rfl | hjk
    · exact hnode hj n hn
    · obtain ⟨hpc, hnode', -, hlist, -⟩ := hothers j hjk
      rw [hpc]
      exact hf.node_ok j (hlist.mp hj) n (hnode' ▸ hn)
  · intro j hj
    rcases eq_or_ne j k with rfl | hjk
    · exact hmem hj
    · obtain ⟨hpc, -, -, hlist, -⟩ := hothers j hjk
      rw [hpc] at hj
      exact hlist.mpr (hf.unfilled_mem j hj)

/-- A call outside the list moves to a place with nothing to fill. -/
theorem FillInv.goto (hf : FillInv cfg s) {p : EnqPc} (hk : k ∉ s.list)
    (hp : p.unfilled = false) : FillInv cfg (s.goto k p) := by
  refine hf.of_call (fun j hj => sameCall_goto hj p) (fun hmem => absurd hmem hk) ?_
    hf.published_ok hf.wild_nil
  simp [MsgCpu.goto, hp]

theorem FillInv.allocate (hf : FillInv cfg s) (hk : k ∉ s.list) {n : NmsgNode} :
    FillInv cfg (s.allocate k n) := by
  refine hf.of_call (fun j hj => sameCall_allocate hj n) (fun hmem => absurd hmem hk) ?_
    hf.published_ok hf.wild_nil
  simp [MsgCpu.allocate, MsgCpu.goto, EnqPc.unfilled]

theorem FillInv.insert (hf : FillInv cfg s) : FillInv cfg (s.insert k) := by
  refine hf.of_call (fun j hj => sameCall_insert hj) ?_ ?_
    hf.published_ok hf.wild_nil
  · intro _ n _
    simp only [MsgCpu.insert, MsgCpu.goto, Function.update_self]
    trivial
  · intro _
    exact List.mem_cons_self

theorem FillInv.fill (hi : MsgInv cfg s) (hf : FillInv cfg s) {f : NmsgNode → NmsgNode}
    {p : EnqPc} (hnext : fillNext cfg.bo (cfg.req k) (s.pc k) = some (f, p)) :
    FillInv cfg (s.fill k f p) := by
  have hk : k ∈ s.list := hf.unfilled_mem k (fillNext_pc hnext).1
  obtain ⟨n, hn⟩ := hi.list_live k hk
  -- the node is live, so the store is no wild one
  have heq : s.fill k f p = { s.goto k p with node := Function.update s.node k (.live (f n)) } := by
    unfold MsgCpu.fill
    rw [hn]
  refine hf.of_call (fun j hj => sameCall_fill hj f p) ?_ ?_ ?_ ?_
  · intro _ m hm
    rw [heq] at hm ⊢
    simp only [Function.update_self, Block.live.injEq] at hm
    simp only [MsgCpu.goto, Function.update_self]
    exact hm ▸ (hf.node_ok k hk n hn).fill hnext
  · intro _
    rw [MsgCpu.fill_list]
    exact hk
  · rw [MsgCpu.fill_published]
    exact hf.published_ok
  · rw [heq]
    exact hf.wild_nil

theorem FillInv.raise (hf : FillInv cfg s) (hpc : s.pc k = .filled) : FillInv cfg (s.raise k) := by
  refine hf.of_call (fun j hj => sameCall_raise hj) ?_ ?_ hf.published_ok
    hf.wild_nil
  · intro hj n hn
    have hok := hf.node_ok k hj n hn
    rw [hpc] at hok
    simp only [MsgCpu.raise, MsgCpu.goto, Function.update_self]
    exact hok
  · simp [MsgCpu.raise, MsgCpu.goto, EnqPc.unfilled]

/-- The worker takes a filled node: what it publishes is the frame, and nobody is left who
would store into the block it frees. -/
theorem FillInv.take (hi : MsgInv cfg s) (hf : FillInv cfg s) {n : NmsgNode} {rest : List Nat}
    (hlist : s.list = k :: rest) (hnode : s.node k = .live n)
    (hfill : (s.pc k).unfilled = false) : FillInv cfg (s.take k n rest) := by
  have hk : k ∈ s.list := hlist ▸ List.mem_cons_self
  have hrest : k ∉ rest := (List.nodup_cons.mp (hlist ▸ hi.list_nodup)).1
  have hins : (s.pc k).inserted = true := (hi.listed_iff k).mp (hi.list_sub k hk)
  have hframe : n.frame = cfg.frame k := (hf.node_ok k hk n hnode).frame_eq hins hfill
  refine hf.of_call (fun j hj => sameCall_take hj hlist) (fun hmem => absurd hmem hrest)
    ?_ ?_ hf.wild_nil
  · intro hun
    rw [show (s.take k n rest).pc k = s.pc k from rfl, hfill] at hun
    exact absurd hun Bool.false_ne_true
  · intro p hp
    simp only [MsgCpu.take] at hp
    split at hp
    · rcases List.mem_append.mp hp with hp | hp
      · exact hf.published_ok p hp
      · rw [List.mem_singleton.mp hp]
        exact hframe
    · exact hf.published_ok p hp

end FillMoves

theorem msgMove_fillInv {cfg : MsgCfg} {core : Nat} {s t : MsgCpu} {e : MsgEvent}
    (hi : MsgInv cfg s) (hf : FillInv cfg s) (hok : HeadFilled s e)
    (hm : MsgMove cfg core s e t) : FillInv cfg t := by
  cases hm with
  | @test k hcore hpc =>
    have hk : k ∉ s.list := hi.not_mem_list (by rw [hpc]; rfl)
    split
    · exact hf.goto hk rfl
    · exact hf.goto hk rfl
  | refuse hpc hret => exact hf.goto (hi.not_mem_list (by rw [hpc]; rfl)) rfl
  | allocate hpc hsize => exact hf.allocate (hi.not_mem_list (by rw [hpc]; rfl))
  | insert hpc => exact hf.insert
  | fill hnext => exact FillInv.fill hi hf hnext
  | raise hpc => exact hf.raise hpc
  | take hlock hlist hnode =>
    exact FillInv.take hi hf hlist hnode (hok _ (by rw [hlist]; rfl))
  | workStart => exact { hf with }
  | workCheck => exact { hf with }
  | takeNone => exact { hf with }
  | reader => exact { hf with }

/-! ## 3. Whole frames, and no store into a freed node -/

/-- What the receiver and the allocator rely on, on one CPU. -/
structure MsgIntegrity (cfg : MsgCfg) (s : MsgCpu) : Prop where
  /-- every frame copied into the ring is the header and the content of its call -/
  frames : ∀ p ∈ s.published, p.2 = cfg.frame p.1
  /-- no call has stored into a freed node -/
  noWild : s.wild = []
  /-- and none is about to -/
  noneComing : ∀ k, (s.pc k).unfilled = true → ∃ n, s.node k = .live n

theorem msgIntegrity_of_inv {cfg : MsgCfg} {s : MsgCpu} (hi : MsgInv cfg s)
    (hf : FillInv cfg s) : MsgIntegrity cfg s :=
  ⟨hf.published_ok, hf.wild_nil, fun k hk => hi.list_live k (hf.unfilled_mem k hk)⟩

/-- After the worker took a node that was not filled, the call that owns it is about to store
into a freed block. -/
theorem headFilled_of_integrity {cfg : MsgCfg} {core : Nat} {s t : MsgCpu} {e : MsgEvent}
    (hm : MsgMove cfg core s e t) (ht : MsgIntegrity cfg t) : HeadFilled s e := by
  cases hm with
  | @take k rest n hlock hlist hnode =>
    intro j hj
    rw [hlist, List.head?_cons, Option.mem_def, Option.some.injEq] at hj
    subst hj
    by_contra hne
    obtain ⟨m, hm⟩ := ht.noneComing k (Bool.not_eq_false _ ▸ hne)
    simp [MsgCpu.take] at hm
  | takeNone hlock hlist =>
    intro j hj
    rw [hlist] at hj
    simp at hj
  | _ => trivial

/-- One CPU with a ring of the least size that `nmsg_init` accepts, on which call `k` sends a
message of type `en_MSG_t_AUTH` about user `k`. -/
def authCfg : MsgCfg where
  bo := .little
  nrCpuIds := 1
  size := 32 * rbfNodeSize
  req := fun k => ⟨nmsgHdrInit 3 8, [BitVec.ofNat 8 k, 0, 0, 0, 1, 0, 0, 0], 0, rfl⟩

end Puppies
