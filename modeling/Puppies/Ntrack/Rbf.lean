/-
# The shared ring (`include/src/ntrack_rbf.h`)

The kernel hands messages to user space through a ring in a memory area that both sides map.
The area starts with a header of four fields, the read index `r`, the write index `w`, the
size and the number of slots, and the slots of `RBF_NODE_SIZE` bytes follow.  This file is the
embedding of the five operations on it.

* A slot is handed out as a pointer; here it is the offset of the slot in `buffer`, and `none`
  is the `NULL` pointer.
* The indices and the count are 16 bits wide.  `(w + 1) % count` is computed in `int`, where
  it cannot wrap, and is smaller than the count, so that it fits back.  The count itself is
  TRUNCATED to 16 bits when `rbf_init` stores it, and the size is a 32-bit subtraction.
* `rbf_init` leaves `r`, `w` and the slots alone: it is how each side ATTACHES to an area
  that the other side may already be using.

Section 3 has the arithmetic of the indices: a ring holds the entries number `a, …, b - 1` of
an unbounded sequence, and what `r` and `w` are is `a` and `b` modulo the count.
-/
import Mathlib.Data.Nat.ModEq
import Puppies.Lib.Bytes

namespace Puppies

open ByteMem

/-! ## 1. The area -/

/-- `RBF_NODE_SIZE`: the size of a slot. -/
def rbfNodeSize : Nat := 1024 * 2

/-- `sizeof(rbf_hdr_t)`: two 16-bit indices, a 32-bit size, a 16-bit count, 16 bits of pad. -/
def rbfHdrSize : Nat := 12

/-- `rbf_hdr_t`, without the pad. -/
structure RbfHdr where
  r : Nat
  w : Nat
  size : Nat
  count : Nat
  deriving DecidableEq, Repr

/-- `rbf_t`: the header and the bytes behind it. -/
structure Rbf where
  hdr : RbfHdr
  buffer : Mem

/-- Where slot `idx` starts in the buffer. -/
def slotOffset (idx : Nat) : Nat := rbfNodeSize * idx

/-- All bytes of the slot at `off`. -/
def slotBytes (rbp : Rbf) (off : Nat) : List Byte := read rbp.buffer off rbfNodeSize

/-! ## 2. The operations -/

/-- The size that `rbf_init` stores for an area of `size` bytes (32-bit subtraction). -/
def ringSize (size : Nat) : Nat := (2 ^ 32 - rbfHdrSize + size) % 2 ^ 32

/-- The number of slots that `rbf_init` stores for an area of `size` bytes. -/
def ringCount (size : Nat) : Nat := ringSize size / rbfNodeSize % 2 ^ 16

/-- `rbf_init`: attach to an area of `size` bytes. -/
def rbfInit (rbp : Rbf) (size : Nat) : Rbf :=
  { rbp with hdr := { rbp.hdr with size := ringSize size, count := ringCount size } }

/-- `rbf_get_buff`: the slot to fill next, unless the ring is full. -/
def rbfGetBuff (rbp : Rbf) : Option Nat :=
  let idx := (rbp.hdr.w + 1) % rbp.hdr.count
  if idx ≠ rbp.hdr.r then some (slotOffset rbp.hdr.w) else none

/-- `rbf_release_buff`: publish the slot that was filled. -/
def rbfReleaseBuff (rbp : Rbf) : Rbf :=
  { rbp with hdr := { rbp.hdr with w := (rbp.hdr.w + 1) % rbp.hdr.count } }

/-- `rbf_get_data`: the oldest published slot, unless the ring is empty. -/
def rbfGetData (rbp : Rbf) : Option Nat :=
  let idx := rbp.hdr.r
  if idx ≠ rbp.hdr.w then some (slotOffset idx) else none

/-- `rbf_release_data`: give the oldest published slot back. -/
def rbfReleaseData (rbp : Rbf) : Rbf :=
  { rbp with hdr := { rbp.hdr with r := (rbp.hdr.r + 1) % rbp.hdr.count } }

/-- A store of the party that holds the slot at `slot`, `off` bytes into it. -/
def Rbf.store (rbp : Rbf) (slot off : Nat) (bs : List Byte) : Rbf :=
  { rbp with buffer := write rbp.buffer (slot + off) bs }

/-- Attaching to a ring of the same size again changes nothing. -/
theorem rbfInit_of_hdr {rbp : Rbf} {size : Nat} (hsize : rbp.hdr.size = ringSize size)
    (hcount : rbp.hdr.count = ringCount size) : rbfInit rbp size = rbp := by
  rw [rbfInit, ← hsize, ← hcount]

@[simp] theorem rbfInit_hdr_r (rbp : Rbf) (size : Nat) : (rbfInit rbp size).hdr.r = rbp.hdr.r :=
  rfl
@[simp] theorem rbfInit_hdr_w (rbp : Rbf) (size : Nat) : (rbfInit rbp size).hdr.w = rbp.hdr.w :=
  rfl
@[simp] theorem rbfInit_hdr_count (rbp : Rbf) (size : Nat) :
    (rbfInit rbp size).hdr.count = ringCount size := rfl
@[simp] theorem slotBytes_rbfInit (rbp : Rbf) (size off : Nat) :
    slotBytes (rbfInit rbp size) off = slotBytes rbp off := rfl
@[simp] theorem rbfReleaseBuff_hdr_r (rbp : Rbf) : (rbfReleaseBuff rbp).hdr.r = rbp.hdr.r := rfl
@[simp] theorem rbfReleaseBuff_hdr_w (rbp : Rbf) :
    (rbfReleaseBuff rbp).hdr.w = (rbp.hdr.w + 1) % rbp.hdr.count := rfl
@[simp] theorem rbfReleaseBuff_hdr_count (rbp : Rbf) :
    (rbfReleaseBuff rbp).hdr.count = rbp.hdr.count := rfl
@[simp] theorem slotBytes_rbfReleaseBuff (rbp : Rbf) (off : Nat) :
    slotBytes (rbfReleaseBuff rbp) off = slotBytes rbp off := rfl
@[simp] theorem rbfReleaseData_hdr_r (rbp : Rbf) :
    (rbfReleaseData rbp).hdr.r = (rbp.hdr.r + 1) % rbp.hdr.count := rfl
@[simp] theorem rbfReleaseData_hdr_w (rbp : Rbf) : (rbfReleaseData rbp).hdr.w = rbp.hdr.w := rfl
@[simp] theorem rbfReleaseData_hdr_count (rbp : Rbf) :
    (rbfReleaseData rbp).hdr.count = rbp.hdr.count := rfl
@[simp] theorem slotBytes_rbfReleaseData (rbp : Rbf) (off : Nat) :
    slotBytes (rbfReleaseData rbp) off = slotBytes rbp off := rfl
@[simp] theorem Rbf.store_hdr (rbp : Rbf) (slot off : Nat) (bs : List Byte) :
    (rbp.store slot off bs).hdr = rbp.hdr := rfl

/-! ## 3. Indices modulo the count -/

/-- Two entries less than a whole turn apart have the same index only if they are the same. -/
theorem mod_eq_mod_iff {a b n : Nat} (h1 : a ≤ b) (h2 : b < a + n) : a % n = b % n ↔ a = b := by
  constructor
  · intro h
    have hd : n ∣ b - a := (Nat.modEq_iff_dvd' h1).mp h
    have h0 : b - a = 0 := Nat.eq_zero_of_dvd_of_lt hd (by omega)
    omega
  · rintro rfl
    rfl

/-- Moving an index on is the index of the next entry. -/
theorem mod_succ_mod (a n : Nat) : (a % n + 1) % n = (a + 1) % n := Nat.mod_add_mod a n 1

/-- The test of `rbf_get_buff`: with `b - a < n` entries inside, the next index to write is
the index to read exactly when only one slot is free. -/
theorem succ_mod_eq_mod_iff {a b n : Nat} (h1 : a ≤ b) (h2 : b < a + n) :
    (b + 1) % n = a % n ↔ b + 1 = a + n := by
  constructor
  · intro h
    by_contra hne
    have := (mod_eq_mod_iff (by omega) (by omega)).mp h.symm
    omega
  · intro h
    rw [h, Nat.add_mod_right]

/-! ## 4. Slots do not overlap -/

/-- Different slots are disjoint ranges of the buffer. -/
theorem slotOffset_disjoint {i j : Nat} (h : i ≠ j) :
    slotOffset i + rbfNodeSize ≤ slotOffset j ∨ slotOffset j + rbfNodeSize ≤ slotOffset i :=
  block_disjoint h

/-- **A store into one slot leaves every other slot alone.** -/
theorem slotBytes_store_of_ne {rbp : Rbf} {i j off : Nat} {bs : List Byte} (h : i ≠ j)
    (hlen : off + bs.length ≤ rbfNodeSize) :
    slotBytes (rbp.store (slotOffset i) off bs) (slotOffset j) = slotBytes rbp (slotOffset j) := by
  refine read_write_of_disjoint ?_
  have := slotOffset_disjoint h
  omega

/-- Bytes stored at the start of a slot are the first bytes of the slot. -/
theorem take_slotBytes_store (rbp : Rbf) (slot : Nat) {bs : List Byte}
    (hlen : bs.length ≤ rbfNodeSize) :
    (slotBytes (rbp.store slot 0 bs) slot).take bs.length = bs := by
  unfold slotBytes
  rw [take_read hlen]
  exact read_write_self rbp.buffer slot bs

end Puppies
