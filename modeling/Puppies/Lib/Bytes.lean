/-
# Byte memory

A memory is a function from offsets to bytes.  It has no end: what lies behind an object is
memory too, so that a read or a store past the end of one is something that can be said.
`read m off n` are the `n` bytes from `off` on, `write m off bs` puts `bs` there.

The lemmas are the ones a proof about copies between buffers needs: what a read returns right
after a store to the same place (`read_write_self`), that a store elsewhere does not change it
(`read_write_of_disjoint`), and how a read splits (`read_add`, `take_read`).

`ByteOrder` is the order in which the host stores the bytes of a word.
-/
import Mathlib.Data.List.Basic

namespace ByteMem

/-- One byte. -/
abbrev Byte := BitVec 8

/-- A memory, from the start of an object on. -/
abbrev Mem := Nat → Byte

/-! ## 1. Reading and writing -/

/-- The `n` bytes at `off`. -/
def read (m : Mem) (off n : Nat) : List Byte := (List.range n).map fun i => m (off + i)

/-- Store `bs` at `off`. -/
def write (m : Mem) (off : Nat) (bs : List Byte) : Mem :=
  fun a => if off ≤ a ∧ a < off + bs.length then bs.getD (a - off) 0 else m a

@[simp] theorem length_read (m : Mem) (off n : Nat) : (read m off n).length = n := by
  simp [read]

theorem getElem?_read (m : Mem) (off n i : Nat) :
    (read m off n)[i]? = if i < n then some (m (off + i)) else none := by
  unfold read
  rw [List.getElem?_map]
  split
  · rename_i h
    rw [List.getElem?_range h, Option.map_some]
  · rename_i h
    rw [List.getElem?_eq_none (by simpa using h), Option.map_none]

/-- Two memories that agree on a range read the same there. -/
theorem read_congr {m m' : Mem} {off n : Nat}
    (h : ∀ a, off ≤ a → a < off + n → m a = m' a) : read m off n = read m' off n := by
  refine List.map_congr_left ?_
  intro i hi
  have hi' : i < n := List.mem_range.mp hi
  exact h (off + i) (by omega) (by omega)

theorem write_of_mem {m : Mem} {off a : Nat} {bs : List Byte} (h1 : off ≤ a)
    (h2 : a < off + bs.length) : write m off bs a = bs.getD (a - off) 0 := by
  simp [write, h1, h2]

theorem write_of_not_mem {m : Mem} {off a : Nat} {bs : List Byte}
    (h : a < off ∨ off + bs.length ≤ a) : write m off bs a = m a := by
  unfold write
  rw [if_neg (by omega)]

/-- **A read right after a store to the same place returns what was stored.** -/
theorem read_write_self (m : Mem) (off : Nat) (bs : List Byte) :
    read (write m off bs) off bs.length = bs := by
  refine List.ext_getElem? ?_
  intro i
  rw [getElem?_read]
  split
  · rename_i h
    rw [write_of_mem (by omega) (by omega), Nat.add_sub_cancel_left, List.getD_eq_getElem?_getD,
      List.getElem?_eq_getElem h, Option.getD_some]
  · rename_i h
    rw [List.getElem?_eq_none (by omega)]

/-- **A store elsewhere does not change a read.** -/
theorem read_write_of_disjoint {m : Mem} {off off' n : Nat} {bs : List Byte}
    (h : off + n ≤ off' ∨ off' + bs.length ≤ off) :
    read (write m off' bs) off n = read m off n :=
  read_congr fun _ h1 h2 => write_of_not_mem (by omega)

/-- A read is a shorter read and the rest. -/
theorem read_add (m : Mem) (off k n : Nat) :
    read m off (k + n) = read m off k ++ read m (off + k) n := by
  unfold read
  rw [List.range_add, List.map_append, List.map_map]
  congr 1
  refine List.map_congr_left ?_
  intro i _
  simp only [Function.comp, Nat.add_assoc]

/-- The first bytes of a read are a shorter read. -/
theorem take_read {m : Mem} {off k n : Nat} (h : k ≤ n) :
    (read m off n).take k = read m off k := by
  obtain ⟨d, rfl⟩ := Nat.exists_eq_add_of_le h
  have hlen : (read m off k).length = k := length_read m off k
  rw [read_add, List.take_append_of_le_length (Nat.le_of_eq hlen.symm),
    List.take_of_length_le (Nat.le_of_eq hlen)]

/-- A memory that is filled with one byte reads that byte. -/
theorem write_replicate {m : Mem} {off n a : Nat} {b : Byte} (h1 : off ≤ a) (h2 : a < off + n) :
    write m off (List.replicate n b) a = b := by
  have hlt : a - off < n := by omega
  rw [write_of_mem h1 (by rw [List.length_replicate]; exact h2), List.getD_eq_getElem?_getD,
    List.getElem?_replicate_of_lt hlt, Option.getD_some]

/-- A read that is known to be two pieces is a read of each of them. -/
theorem read_append_inj {m : Mem} {off k n : Nat} {as bs : List Byte} (hlen : as.length = k)
    (h : read m off (k + n) = as ++ bs) : read m off k = as ∧ read m (off + k) n = bs := by
  rw [read_add] at h
  exact List.append_inj h (by rw [length_read, hlen])

/-- The memory that starts with the bytes `bs`. -/
def ofBytes (bs : List Byte) : Mem := fun i => bs.getD i 0

/-- A read of some of the bytes. -/
theorem read_ofBytes (as bs cs : List Byte) :
    read (ofBytes (as ++ bs ++ cs)) as.length bs.length = bs := by
  refine List.ext_getElem? ?_
  intro i
  rw [getElem?_read]
  split
  · rename_i h
    rw [ofBytes, List.getD_eq_getElem?_getD, List.append_assoc,
      List.getElem?_append_right (by omega), Nat.add_sub_cancel_left,
      List.getElem?_append_left h, List.getElem?_eq_getElem h, Option.getD_some]
  · rename_i h
    rw [List.getElem?_eq_none (by omega)]

/-- What lies behind the first bytes. -/
theorem ofBytes_append_add (as bs : List Byte) (i : Nat) :
    ofBytes (as ++ bs) (as.length + i) = ofBytes bs i := by
  unfold ofBytes
  rw [List.getD_eq_getElem?_getD, List.getD_eq_getElem?_getD,
    List.getElem?_append_right (by omega), Nat.add_sub_cancel_left]

/-! ## 2. Equal blocks -/

/-- Memory cut into blocks of equal size: different blocks have no byte in common. -/
theorem block_disjoint {size i j : Nat} (h : i ≠ j) :
    size * i + size ≤ size * j ∨ size * j + size ≤ size * i := by
  rcases Nat.lt_or_gt_of_ne h with h | h
  · exact Or.inl (Nat.mul_le_mul_left size h)
  · exact Or.inr (Nat.mul_le_mul_left size h)

/-- As many blocks as the division says lie inside. -/
theorem block_inside {total size n i : Nat} (h : size * n ≤ total) (hi : i < n) :
    size * i + size ≤ total :=
  Nat.le_trans (Nat.mul_le_mul_left size hi) h

/-! ## 3. Words in memory -/

/-- The order in which the host stores the bytes of a word. -/
inductive ByteOrder
  | little
  | big
  deriving DecidableEq, Repr

/-- The two bytes of a 16-bit word, as the host stores them. -/
def ByteOrder.bytes16 : ByteOrder → BitVec 16 → List Byte
  | .little, v => [v.extractLsb' 0 8, v.extractLsb' 8 8]
  | .big, v => [v.extractLsb' 8 8, v.extractLsb' 0 8]

@[simp] theorem ByteOrder.length_bytes16 (bo : ByteOrder) (v : BitVec 16) :
    (bo.bytes16 v).length = 2 := by
  cases bo <;> rfl

/-- The 16-bit word at `off`, as the host reads it. -/
def ByteOrder.word16 (bo : ByteOrder) (m : Mem) (off : Nat) : BitVec 16 :=
  match bo with
  | .little => m (off + 1) ++ m off
  | .big => m off ++ m (off + 1)

/-- The bytes of a 16-bit word, put together again. -/
theorem append_extractLsb'16 (v : BitVec 16) : v.extractLsb' 8 8 ++ v.extractLsb' 0 8 = v := by
  refine BitVec.eq_of_getLsbD_eq ?_
  intro i hi
  simp only [BitVec.getLsbD_append, BitVec.getLsbD_extractLsb']
  grind

/-- **A 16-bit word is read as it was stored.** -/
theorem ByteOrder.word16_of_read {bo : ByteOrder} {m : Mem} {off : Nat} {v : BitVec 16}
    (h : read m off 2 = bo.bytes16 v) : bo.word16 m off = v := by
  have hread : read m off 2 = [m off, m (off + 1)] := rfl
  cases bo with
  | little =>
    simp only [hread, ByteOrder.bytes16, List.cons.injEq, and_true] at h
    rw [ByteOrder.word16, h.1, h.2]
    exact append_extractLsb'16 v
  | big =>
    simp only [hread, ByteOrder.bytes16, List.cons.injEq, and_true] at h
    rw [ByteOrder.word16, h.1, h.2]
    exact append_extractLsb'16 v

/-- The four bytes of a 32-bit word, as the host stores them. -/
def ByteOrder.bytes32 : ByteOrder → BitVec 32 → List Byte
  | .little, v => [v.extractLsb' 0 8, v.extractLsb' 8 8, v.extractLsb' 16 8, v.extractLsb' 24 8]
  | .big, v => [v.extractLsb' 24 8, v.extractLsb' 16 8, v.extractLsb' 8 8, v.extractLsb' 0 8]

/-- The 32-bit word at `off`, as the host reads it. -/
def ByteOrder.word32 (bo : ByteOrder) (m : Mem) (off : Nat) : BitVec 32 :=
  match bo with
  | .little => m (off + 3) ++ m (off + 2) ++ m (off + 1) ++ m off
  | .big => m off ++ m (off + 1) ++ m (off + 2) ++ m (off + 3)

@[simp] theorem ByteOrder.length_bytes32 (bo : ByteOrder) (v : BitVec 32) :
    (bo.bytes32 v).length = 4 := by
  cases bo <;> rfl

/-- The bytes of a word, put together again. -/
theorem append_extractLsb' (v : BitVec 32) :
    v.extractLsb' 24 8 ++ v.extractLsb' 16 8 ++ v.extractLsb' 8 8 ++ v.extractLsb' 0 8 = v := by
  refine BitVec.eq_of_getLsbD_eq ?_
  intro i hi
  simp only [BitVec.getLsbD_append, BitVec.getLsbD_extractLsb']
  grind

/-- **A word is read as it was stored.** -/
theorem ByteOrder.word32_of_read {bo : ByteOrder} {m : Mem} {off : Nat} {v : BitVec 32}
    (h : read m off 4 = bo.bytes32 v) : bo.word32 m off = v := by
  have hread : read m off 4 = [m off, m (off + 1), m (off + 2), m (off + 3)] := rfl
  cases bo with
  | little =>
    simp only [hread, ByteOrder.bytes32, List.cons.injEq, and_true] at h
    obtain ⟨h0, h1, h2, h3⟩ := h
    rw [ByteOrder.word32, h0, h1, h2, h3]
    exact append_extractLsb' v
  | big =>
    simp only [hread, ByteOrder.bytes32, List.cons.injEq, and_true] at h
    obtain ⟨h0, h1, h2, h3⟩ := h
    rw [ByteOrder.word32, h0, h1, h2, h3]
    exact append_extractLsb' v

/-- A word is read as before where the bytes are as before. -/
theorem ByteOrder.word16_congr (bo : ByteOrder) {m m' : Mem} {off : Nat}
    (h : read m off 2 = read m' off 2) : bo.word16 m off = bo.word16 m' off := by
  have hbytes : [m off, m (off + 1)] = [m' off, m' (off + 1)] := h
  simp only [List.cons.injEq, and_true] at hbytes
  simp only [ByteOrder.word16, hbytes]

theorem ByteOrder.word32_congr (bo : ByteOrder) {m m' : Mem} {off : Nat}
    (h : read m off 4 = read m' off 4) : bo.word32 m off = bo.word32 m' off := by
  have hbytes : [m off, m (off + 1), m (off + 2), m (off + 3)] =
      [m' off, m' (off + 1), m' (off + 2), m' (off + 3)] := h
  simp only [List.cons.injEq, and_true] at hbytes
  simp only [ByteOrder.word32, hbytes]

/-- A word that was just stored is read back. -/
theorem ByteOrder.word16_write_self (bo : ByteOrder) (m : Mem) (off : Nat) (v : BitVec 16) :
    bo.word16 (write m off (bo.bytes16 v)) off = v := by
  refine ByteOrder.word16_of_read ?_
  have hread := read_write_self m off (bo.bytes16 v)
  rwa [ByteOrder.length_bytes16] at hread

theorem ByteOrder.word32_write_self (bo : ByteOrder) (m : Mem) (off : Nat) (v : BitVec 32) :
    bo.word32 (write m off (bo.bytes32 v)) off = v := by
  refine ByteOrder.word32_of_read ?_
  have hread := read_write_self m off (bo.bytes32 v)
  rwa [ByteOrder.length_bytes32] at hread

end ByteMem
