/-
# The area of the rings (`drivers/nos_track/src/ntrack_msg.c`)

One area of memory carries the rings of all CPUs.  `nmsg_init` cuts it into one block for each
CPU, all of the same size, and makes each block a ring; what is left over at the end is unused.
`Ring.lean` takes one ring and says what its two sides may rely on.  This file is about where
the rings lie, on the bytes of the area.

* `rbfAt` is the `rbf_t` that a pointer into the area points at, and `rbfInitAt` the stores of
  `rbf_init` through that pointer.  The latter IS `rbfInit` on the former (`rbfAt_rbfInitAt`).
* The offset of a block is the product of two 32-bit numbers.
* `nmsg_init` bounds the size of a block from below only.  The number of slots is cut to 16
  bits when it is stored, which changes nothing for blocks of less than `2 ^ 27 + 12` bytes.
-/
import Puppies.Lib.Loop
import Puppies.Ntrack.Msg

namespace Puppies

open ByteMem EventRun

/-! ## 1. A ring in memory -/

/-- The `rbf_hdr_t` at `base`. -/
def rbfHdrAt (bo : ByteOrder) (m : Mem) (base : Nat) : RbfHdr where
  r := (bo.word16 m base).toNat
  w := (bo.word16 m (base + 2)).toNat
  size := (bo.word32 m (base + 4)).toNat
  count := (bo.word16 m (base + 8)).toNat

/-- The `rbf_t` at `base`. -/
def rbfAt (bo : ByteOrder) (m : Mem) (base : Nat) : Rbf where
  hdr := rbfHdrAt bo m base
  buffer := fun off => m (base + rbfHdrSize + off)

/-- `rbf_init` on the area of `size` bytes at `base`. -/
def rbfInitAt (bo : ByteOrder) (m : Mem) (base size : Nat) : Mem :=
  let m := write m (base + 4) (bo.bytes32 (BitVec.ofNat 32 (ringSize size)))
  write m (base + 8) (bo.bytes16 (BitVec.ofNat 16 (ringSize size / rbfNodeSize)))

/-- `rbf_init` stores into six bytes. -/
theorem rbfInitAt_frame {bo : ByteOrder} {m : Mem} {base size a : Nat}
    (h : a < base + 4 ∨ base + 10 ≤ a) : rbfInitAt bo m base size a = m a := by
  unfold rbfInitAt
  rw [write_of_not_mem (by simp only [ByteOrder.length_bytes16]; omega),
    write_of_not_mem (by simp only [ByteOrder.length_bytes32]; omega)]

theorem read_rbfInitAt_of_disjoint {bo : ByteOrder} {m : Mem} {base size off n : Nat}
    (h : off + n ≤ base + 4 ∨ base + 10 ≤ off) :
    read (rbfInitAt bo m base size) off n = read m off n :=
  read_congr fun _ h1 h2 => rbfInitAt_frame (by omega)

/-- **`rbf_init` in memory is `rbf_init`.** -/
theorem rbfAt_rbfInitAt (bo : ByteOrder) (m : Mem) (base size : Nat) :
    rbfAt bo (rbfInitAt bo m base size) base = rbfInit (rbfAt bo m base) size := by
  have hr : bo.word16 (rbfInitAt bo m base size) base = bo.word16 m base :=
    bo.word16_congr (read_rbfInitAt_of_disjoint (by omega))
  have hw : bo.word16 (rbfInitAt bo m base size) (base + 2) = bo.word16 m (base + 2) :=
    bo.word16_congr (read_rbfInitAt_of_disjoint (by omega))
  have hsize : bo.word32 (rbfInitAt bo m base size) (base + 4) =
      BitVec.ofNat 32 (ringSize size) := by
    unfold rbfInitAt
    rw [bo.word32_congr (read_write_of_disjoint (by omega))]
    exact bo.word32_write_self m (base + 4) _
  have hcount : bo.word16 (rbfInitAt bo m base size) (base + 8) =
      BitVec.ofNat 16 (ringSize size / rbfNodeSize) := bo.word16_write_self _ (base + 8) _
  have hlt : ringSize size < 2 ^ 32 := Nat.mod_lt _ (by decide)
  have hbuf : (rbfAt bo (rbfInitAt bo m base size) base).buffer = (rbfAt bo m base).buffer := by
    funext off
    exact rbfInitAt_frame (by unfold rbfHdrSize; omega)
  unfold rbfInit
  rw [← hbuf]
  simp only [rbfAt, rbfHdrAt, hr, hw, hsize, hcount, BitVec.toNat_ofNat, Nat.mod_eq_of_lt hlt,
    ringCount]

/-- What `rbf_init` makes of the header. -/
def RbfHdr.init (hdr : RbfHdr) (size : Nat) : RbfHdr :=
  { hdr with size := ringSize size, count := ringCount size }

theorem rbfHdrAt_rbfInitAt (bo : ByteOrder) (m : Mem) (base size : Nat) :
    rbfHdrAt bo (rbfInitAt bo m base size) base = (rbfHdrAt bo m base).init size :=
  congrArg Rbf.hdr (rbfAt_rbfInitAt bo m base size)

/-- A header elsewhere is left alone. -/
theorem rbfHdrAt_rbfInitAt_of_disjoint {bo : ByteOrder} {m : Mem} {base base' size : Nat}
    (h : base + rbfHdrSize ≤ base' ∨ base' + rbfHdrSize ≤ base) :
    rbfHdrAt bo (rbfInitAt bo m base size) base' = rbfHdrAt bo m base' := by
  unfold rbfHdrSize at h
  unfold rbfHdrAt
  rw [bo.word16_congr (read_rbfInitAt_of_disjoint (by omega)),
    bo.word16_congr (read_rbfInitAt_of_disjoint (by omega)),
    bo.word32_congr (read_rbfInitAt_of_disjoint (by omega)),
    bo.word16_congr (read_rbfInitAt_of_disjoint (by omega))]

/-- A header of zero bytes is zero. -/
theorem rbfHdrAt_of_zero {bo : ByteOrder} {m : Mem} {base : Nat}
    (h : ∀ a, base ≤ a → a < base + rbfHdrSize → m a = 0) :
    rbfHdrAt bo m base = ⟨0, 0, 0, 0⟩ := by
  have h16 : ∀ k, k ≤ 8 → bo.word16 m (base + k) = 0 := by
    intro k hk
    have h0 := h (base + k) (by omega) (by unfold rbfHdrSize; omega)
    have h1 := h (base + k + 1) (by omega) (by unfold rbfHdrSize; omega)
    cases bo <;> simp only [ByteOrder.word16, h0, h1] <;> rfl
  have h32 : bo.word32 m (base + 4) = 0 := by
    have h0 := h (base + 4) (by omega) (by unfold rbfHdrSize; omega)
    have h1 := h (base + 4 + 1) (by omega) (by unfold rbfHdrSize; omega)
    have h2 := h (base + 4 + 2) (by omega) (by unfold rbfHdrSize; omega)
    have h3 := h (base + 4 + 3) (by omega) (by unfold rbfHdrSize; omega)
    cases bo <;> simp only [ByteOrder.word32, h0, h1, h2, h3] <;> rfl
  have hr : bo.word16 m base = 0 := h16 0 (by omega)
  simp only [rbfHdrAt, hr, h16 2 (by omega), h16 8 (by omega), h32]
  rfl

/-! ## 2. `nmsg_init` -/

/-- What `nmsg_init` is given: the area that was set aside at boot, the CPUs, and whether there
is a workqueue to be had. -/
structure CapEnv where
  bo : ByteOrder
  /-- `nos_track_cap_base`; 0 is the `NULL` pointer -/
  capBase : Nat
  /-- `nos_track_cap_size` -/
  capSize : BitVec 32
  /-- `nr_cpu_ids` -/
  nrCpuIds : Nat
  /-- `alloc_workqueue` succeeds -/
  hasWq : Bool

/-- `nmsg_cpu_t`, without the lock.  The ring is an offset from the start of the area. -/
structure NmsgCpu where
  list : List Nat
  count : Nat
  /-- the work item is queued -/
  pending : Bool
  rbfp : Nat

/-- The area and the statics. -/
structure NmsgState where
  /-- what lies at `nos_track_cap_base` -/
  area : Mem
  /-- `nmsg_cpus` -/
  cpus : Nat → NmsgCpu
  /-- `nt_cap_block_sz` -/
  capBlockSz : Nat

/-- The offset of block `i`, a product of two 32-bit numbers. -/
def blockOffset (size i : Nat) : Nat := size * i % 2 ^ 32

/-- The size of a block. -/
def CapEnv.blockSize (env : CapEnv) : Nat := env.capSize.toNat / env.nrCpuIds

/-- The body of the loop of `nmsg_init`. -/
def nmsgInitCpu (bo : ByteOrder) (size : Nat) (s : NmsgState) (i : Nat) : NmsgState :=
  { s with
    area := rbfInitAt bo s.area (blockOffset size i) size
    cpus := Function.update s.cpus i
      { list := [], count := 0, pending := true, rbfp := blockOffset size i } }

/-- `nmsg_init`: what it returns and leaves behind.  `none` is a failed assertion. -/
def nmsgInit (env : CapEnv) (s : NmsgState) : Option (Int × NmsgState) :=
  if env.capBase = 0 then none
  else if env.capSize.toNat / env.nrCpuIds < rbfNodeSize * 32 then none
  else if !env.hasWq then some (-ENOMEM, s)
  else
    let s := { s with area := write s.area 0 (List.replicate env.capSize.toNat 0) }
    let size := env.capSize.toNat / env.nrCpuIds
    let s := (List.range env.nrCpuIds).foldl (nmsgInitCpu env.bo size) s
    some (0, { s with capBlockSz := size })

/-- The number of slots of the ring of CPU `i`, as its header has it. -/
def NmsgState.slots (bo : ByteOrder) (s : NmsgState) (i : Nat) : Nat :=
  (rbfHdrAt bo s.area (s.cpus i).rbfp).count

/-- Where slot `idx` of the ring of CPU `i` lies in the area. -/
def NmsgState.slotAt (s : NmsgState) (i idx : Nat) : Nat :=
  (s.cpus i).rbfp + rbfHdrSize + slotOffset idx

/-- The ring of CPU `i`, nobody being in the middle of anything. -/
def NmsgState.ring (bo : ByteOrder) (s : NmsgState) (i : Nat) : Ring where
  rbf := rbfAt bo s.area (s.cpus i).rbfp
  prod := none
  cons := .idle
  released := []
  consumed := []
  looks := []

/-! ## 3. The geometry -/

/-- **The rings of an area of `total` bytes for `n` CPUs.** -/
structure RingGeometry (bo : ByteOrder) (total n : Nat) (s : NmsgState) : Prop where
  count_eq : ∀ i < n, s.slots bo i = (total / n - rbfHdrSize) / rbfNodeSize
  two_le : ∀ i < n, 2 ≤ s.slots bo i
  /-- whatever was done to a ring, what the next operation divides by is not zero -/
  divisor : ∀ i < n, ∀ es t, run (ringStep (total / n)) (s.ring bo i) es = some t →
    t.rbf.hdr.count ≠ 0
  /-- a slot lies in the block of its CPU -/
  inside : ∀ i < n, ∀ idx < s.slots bo i,
    total / n * i ≤ s.slotAt i idx ∧ s.slotAt i idx + rbfNodeSize ≤ total / n * (i + 1)
  /-- and in the area -/
  in_area : ∀ i < n, ∀ idx < s.slots bo i, s.slotAt i idx + rbfNodeSize ≤ total
  disjoint : ∀ i < n, ∀ j < n, ∀ idx < s.slots bo i, ∀ jdx < s.slots bo j,
    (i, idx) ≠ (j, jdx) →
      s.slotAt i idx + rbfNodeSize ≤ s.slotAt j jdx ∨ s.slotAt j jdx + rbfNodeSize ≤ s.slotAt i idx

/-- What the assertions of `nmsg_init` admit. -/
structure CapEnv.Admitted (env : CapEnv) : Prop where
  size_ge : rbfNodeSize * 32 ≤ env.blockSize
  cpus_pos : 0 < env.nrCpuIds
  fits : env.blockSize * env.nrCpuIds ≤ env.capSize.toNat

/-- `nmsg_init` succeeds where its assertions hold, and then its loop has run. -/
theorem nmsgInit_eq_zero {env : CapEnv} {s t : NmsgState} (h : nmsgInit env s = some (0, t)) :
    env.Admitted ∧ t = { (List.range env.nrCpuIds).foldl (nmsgInitCpu env.bo env.blockSize)
        { s with area := write s.area 0 (List.replicate env.capSize.toNat 0) } with
      capBlockSz := env.blockSize } := by
  unfold nmsgInit at h
  split at h
  · cases h
  · split at h
    · cases h
    · rename_i hsize
      split at h
      · simp [ENOMEM] at h
      · simp only [Option.some.injEq, Prod.mk.injEq, true_and] at h
        have hsize : rbfNodeSize * 32 ≤ env.blockSize := Nat.le_of_not_lt hsize
        refine ⟨⟨hsize, ?_, Nat.div_mul_le_self _ _⟩, h.symm⟩
        refine Nat.pos_of_ne_zero ?_
        intro h0
        rw [CapEnv.blockSize, h0, Nat.div_zero] at hsize
        exact absurd hsize (by decide)

section Blocks

variable {env : CapEnv}

/-- The product that is the offset of a block does not wrap. -/
theorem CapEnv.Admitted.blockOffset_eq (h : env.Admitted) {i : Nat} (hi : i < env.nrCpuIds) :
    blockOffset env.blockSize i = env.blockSize * i := by
  refine Nat.mod_eq_of_lt ?_
  have hin := block_inside h.fits hi
  have hsize := h.size_ge
  have hlt := env.capSize.isLt
  unfold rbfNodeSize at hsize
  omega

/-- What the loop leaves of the statics of each CPU. -/
theorem nmsgInit_cpus (env : CapEnv) (s : NmsgState) (j : Nat) :
    ((List.range env.nrCpuIds).foldl (nmsgInitCpu env.bo env.blockSize) s).cpus j =
      if j < env.nrCpuIds then ⟨[], 0, true, blockOffset env.blockSize j⟩ else s.cpus j := by
  refine BreakLoop.foldl_range_view (v := fun (s : NmsgState) j => s.cpus j)
    (g := fun j _ => ⟨[], 0, true, blockOffset env.blockSize j⟩) ?_ ?_ s j
  · intro s i _
    exact Function.update_self _ _ _
  · intro s i j _ hij
    exact Function.update_of_ne hij.symm _ _

/-- What the loop leaves of the header of each block. -/
theorem CapEnv.Admitted.hdr_eq (h : env.Admitted) (s : NmsgState) (j : Nat) :
    rbfHdrAt env.bo ((List.range env.nrCpuIds).foldl (nmsgInitCpu env.bo env.blockSize) s).area
        (env.blockSize * j) =
      if j < env.nrCpuIds then (rbfHdrAt env.bo s.area (env.blockSize * j)).init env.blockSize
      else rbfHdrAt env.bo s.area (env.blockSize * j) := by
  refine BreakLoop.foldl_range_view
    (v := fun (s : NmsgState) j => rbfHdrAt env.bo s.area (env.blockSize * j))
    (g := fun _ hdr => hdr.init env.blockSize) ?_ ?_ s j
  · intro s i hi
    dsimp only [nmsgInitCpu]
    rw [h.blockOffset_eq hi, rbfHdrAt_rbfInitAt]
  · intro s i j hi hij
    dsimp only [nmsgInitCpu]
    rw [h.blockOffset_eq hi]
    refine rbfHdrAt_rbfInitAt_of_disjoint ?_
    have hdisj : env.blockSize * i + env.blockSize ≤ env.blockSize * j ∨
        env.blockSize * j + env.blockSize ≤ env.blockSize * i := block_disjoint hij
    have hsize := h.size_ge
    unfold rbfNodeSize at hsize
    unfold rbfHdrSize
    omega

theorem CapEnv.Admitted.ringSize_eq (h : env.Admitted) :
    ringSize env.blockSize = env.blockSize - rbfHdrSize := by
  have hsize := h.size_ge
  have hlt : env.blockSize < 2 ^ 32 :=
    Nat.lt_of_le_of_lt (Nat.div_le_self _ _) env.capSize.isLt
  unfold rbfNodeSize at hsize
  unfold ringSize rbfHdrSize
  omega

/-- The number of slots survives the store into 16 bits exactly when the block is small enough. -/
theorem CapEnv.Admitted.ringCount_iff (h : env.Admitted) :
    ringCount env.blockSize = (env.blockSize - rbfHdrSize) / rbfNodeSize ↔
      env.blockSize < 2 ^ 27 + rbfHdrSize := by
  unfold ringCount
  rw [h.ringSize_eq]
  unfold rbfNodeSize rbfHdrSize
  omega

/-- What `nmsg_init` leaves of the ring of each CPU: an empty one at the start of its block. -/
theorem nmsgInit_ring {s t : NmsgState} (h : nmsgInit env s = some (0, t)) {i : Nat}
    (hi : i < env.nrCpuIds) :
    (t.cpus i).rbfp = env.blockSize * i ∧
      rbfHdrAt env.bo t.area (t.cpus i).rbfp =
        ⟨0, 0, ringSize env.blockSize, ringCount env.blockSize⟩ := by
  obtain ⟨hadm, rfl⟩ := nmsgInit_eq_zero h
  have hbase : blockOffset env.blockSize i = env.blockSize * i := hadm.blockOffset_eq hi
  dsimp only
  rw [nmsgInit_cpus, if_pos hi, hbase, hadm.hdr_eq, if_pos hi, rbfHdrAt_of_zero]
  · exact ⟨rfl, rfl⟩
  · intro a _ ha
    have hin := block_inside hadm.fits hi
    have hsize := hadm.size_ge
    unfold rbfNodeSize at hsize
    unfold rbfHdrSize at ha
    exact write_replicate (Nat.zero_le a) (by omega)

theorem nmsgInit_slots {s t : NmsgState} (h : nmsgInit env s = some (0, t)) {i : Nat}
    (hi : i < env.nrCpuIds) : t.slots env.bo i = ringCount env.blockSize := by
  rw [NmsgState.slots, (nmsgInit_ring h hi).2]

/-- Each ring is one that `Ring.lean` speaks of. -/
theorem nmsgInit_ringInit {s t : NmsgState} (h : nmsgInit env s = some (0, t)) {i : Nat}
    (hi : i < env.nrCpuIds) :
    ∃ mem, t.ring env.bo i = ringInit env.blockSize mem := by
  refine ⟨(rbfAt env.bo t.area (t.cpus i).rbfp).buffer, ?_⟩
  have hhdr : (rbfAt env.bo t.area (t.cpus i).rbfp).hdr =
      ⟨0, 0, ringSize env.blockSize, ringCount env.blockSize⟩ := (nmsgInit_ring h hi).2
  simp only [NmsgState.ring, ringInit, rbfInit, ← hhdr]

/-- A small block has at least two slots. -/
theorem CapEnv.Admitted.two_le_ringCount (h : env.Admitted)
    (hsmall : env.blockSize < 2 ^ 27 + rbfHdrSize) : 2 ≤ ringCount env.blockSize := by
  have hsize := h.size_ge
  rw [h.ringCount_iff.mpr hsmall]
  unfold rbfNodeSize at hsize
  unfold rbfNodeSize rbfHdrSize
  omega

/-- Every slot of a small block ends in the block. -/
theorem CapEnv.Admitted.slot_fits (h : env.Admitted)
    (hsmall : env.blockSize < 2 ^ 27 + rbfHdrSize) {idx : Nat}
    (hidx : idx < ringCount env.blockSize) :
    rbfHdrSize + slotOffset idx + rbfNodeSize ≤ env.blockSize := by
  have hsize := h.size_ge
  rw [h.ringCount_iff.mpr hsmall] at hidx
  have hin := block_inside (Nat.mul_div_le (env.blockSize - rbfHdrSize) rbfNodeSize) hidx
  unfold rbfNodeSize at hsize hin
  unfold rbfHdrSize at hin ⊢
  unfold slotOffset rbfNodeSize
  omega

theorem nmsgInit_slotAt {s t : NmsgState} (h : nmsgInit env s = some (0, t)) {i : Nat}
    (hi : i < env.nrCpuIds) (idx : Nat) :
    t.slotAt i idx = env.blockSize * i + rbfHdrSize + slotOffset idx := by
  rw [NmsgState.slotAt, (nmsgInit_ring h hi).1]

/-- A slot lies in the block of its CPU. -/
theorem nmsgInit_slot_inside {s t : NmsgState} (h : nmsgInit env s = some (0, t))
    (hsmall : env.blockSize < 2 ^ 27 + rbfHdrSize) {i : Nat} (hi : i < env.nrCpuIds) {idx : Nat}
    (hidx : idx < t.slots env.bo i) :
    env.blockSize * i ≤ t.slotAt i idx ∧
      t.slotAt i idx + rbfNodeSize ≤ env.blockSize * i + env.blockSize := by
  rw [nmsgInit_slots h hi] at hidx
  have hend := (nmsgInit_eq_zero h).1.slot_fits hsmall hidx
  rw [nmsgInit_slotAt h hi]
  omega

/-- Different slots have no byte in common, those of one ring and those of different ones. -/
theorem nmsgInit_slots_disjoint {s t : NmsgState} (h : nmsgInit env s = some (0, t))
    (hsmall : env.blockSize < 2 ^ 27 + rbfHdrSize) {i j : Nat} (hi : i < env.nrCpuIds)
    (hj : j < env.nrCpuIds) {idx jdx : Nat} (hidx : idx < t.slots env.bo i)
    (hjdx : jdx < t.slots env.bo j) (hne : (i, idx) ≠ (j, jdx)) :
    t.slotAt i idx + rbfNodeSize ≤ t.slotAt j jdx ∨
      t.slotAt j jdx + rbfNodeSize ≤ t.slotAt i idx := by
  rcases Decidable.eq_or_ne i j with rfl | hij
  · have hidx_ne : idx ≠ jdx := fun heq => hne (heq ▸ rfl)
    have hdisj := slotOffset_disjoint hidx_ne
    rw [nmsgInit_slotAt h hi, nmsgInit_slotAt h hi]
    omega
  · have hdisj : env.blockSize * i + env.blockSize ≤ env.blockSize * j ∨
        env.blockSize * j + env.blockSize ≤ env.blockSize * i := block_disjoint hij
    have hi' := nmsgInit_slot_inside h hsmall hi hidx
    have hj' := nmsgInit_slot_inside h hsmall hj hjdx
    omega

end Blocks

/-- **When the rings lie as they should.**  `nmsg_init` admits every block of 64 KiB or more;
below `2 ^ 27 + 12` bytes, where the number of slots reaches `2 ^ 16`, the rings have the
number of slots that fits, no operation ever divides by zero, and the slots lie apart, each in
the block of its CPU. -/
theorem ringGeometry_iff {env : CapEnv} {s t : NmsgState} (h : nmsgInit env s = some (0, t)) :
    RingGeometry env.bo env.capSize.toNat env.nrCpuIds t ↔
      env.capSize.toNat / env.nrCpuIds < 2 ^ 27 + rbfHdrSize := by
  have hadm := (nmsgInit_eq_zero h).1
  have hslots : ∀ i < env.nrCpuIds, t.slots env.bo i = ringCount env.blockSize :=
    fun i hi => nmsgInit_slots h hi
  constructor
  · intro hgeo
    refine hadm.ringCount_iff.mp ?_
    rw [← hslots 0 hadm.cpus_pos]
    exact hgeo.count_eq 0 hadm.cpus_pos
  · intro hsmall
    have htwo := hadm.two_le_ringCount hsmall
    refine ⟨?_, ?_, ?_, fun i hi idx hidx => nmsgInit_slot_inside h hsmall hi hidx, ?_,
      fun i hi j hj idx hidx jdx hjdx => nmsgInit_slots_disjoint h hsmall hi hj hidx hjdx⟩
    · intro i hi
      rw [hslots i hi, hadm.ringCount_iff.mpr hsmall, CapEnv.blockSize]
    · intro i hi
      rw [hslots i hi]
      exact htwo
    · intro i hi es t' hrun
      obtain ⟨mem, hmem⟩ := nmsgInit_ringInit h hi
      rw [hmem] at hrun
      have hinv := ringRun_inv (ringInv_init (Nat.le_of_succ_le htwo) mem) hrun
      rw [hinv.count_eq]
      exact Nat.ne_of_gt (Nat.lt_of_succ_lt htwo)
    · intro i hi idx hidx
      have hend := (nmsgInit_slot_inside h hsmall hi hidx).2
      have hin := block_inside hadm.fits hi
      omega

/-- Four CPUs share 4 MiB. -/
def capEnv : CapEnv := ⟨.little, 0x1000, 4194304#32, 4, true⟩

/-- Before `nmsg_init`. -/
def nmsgState : NmsgState := ⟨fun _ => 0xff, fun _ => ⟨[], 0, false, 0⟩, 0⟩

theorem ringGeometry_iff_four :
    ∃ t, nmsgInit capEnv nmsgState = some (0, t) ∧ RingGeometry .little 4194304 4 t := by
  have h : ∃ t, nmsgInit capEnv nmsgState = some (0, t) := ⟨_, rfl⟩
  obtain ⟨t, ht⟩ := h
  exact ⟨t, ht, (ringGeometry_iff ht).mpr (by decide)⟩

/-- One CPU has `2 ^ 27 + 12` bytes for itself: the ring has no slot. -/
theorem ringGeometry_broken :
    ∃ t, nmsgInit { capEnv with capSize := 134217740#32, nrCpuIds := 1 } nmsgState = some (0, t) ∧
      rbfNodeSize * 32 ≤ 134217740 / 1 ∧ (134217740 / 1 - rbfHdrSize) / rbfNodeSize = 65536 ∧
      t.slots .little 0 = 0 ∧ ¬ RingGeometry .little 134217740 1 t := by
  have h : ∃ t, nmsgInit { capEnv with capSize := 134217740#32, nrCpuIds := 1 } nmsgState =
      some (0, t) := ⟨_, rfl⟩
  obtain ⟨t, ht⟩ := h
  have hslots : t.slots .little 0 = 0 := nmsgInit_slots ht Nat.one_pos
  refine ⟨t, ht, by decide, by decide, hslots, ?_⟩
  intro hgeo
  have htwo := hgeo.two_le 0 Nat.one_pos
  rw [hslots] at htwo
  exact absurd htwo (by decide)

end Puppies
