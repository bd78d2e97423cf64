/-
# Attaching to a ring (`libs/utils/src/nt_message.c`)

A process that reads messages maps the area that the kernel module filled, learns the size of a
block from `/proc`, and looks for its ring: the one of the first CPU that it may run on.
`nt_message_init` does all this, and `nt_message_process` asserts that a ring was found.

The search is a loop over CPU numbers.  It tests whether the CPU is IN the set, but it runs up
to the NUMBER OF MEMBERS of the set, so that it misses a set whose first member is larger than
that; and then it returns 0 all the same.  `ntrackd` binds itself to the one CPU named on its
command line, which the loop finds if it is CPU 0 or CPU 1.

Addresses are those of the process.  `shm_rbf_init` also stores into the ring (`rbf_init`), and
`attach_kernelRing` puts the two sides together: the ring that is found is the one of
`nmsg_init`, and it is left as it was.
-/
import Mathlib.Data.Finset.Max
import Puppies.Ntrack.RingArea

namespace Puppies

open ByteMem BreakLoop

/-! ## 1. What the process finds -/

/-- A file of `/proc/sys/kernel` with a number in it. -/
inductive ProcFile
  | absent
  /-- `read` returned nothing, with this `errno` -/
  | unread (errno : Int)
  /-- the number that `atoi` makes of the text -/
  | holds (n : BitVec 32)

/-- What `sched_getaffinity` has to say: it fails, with a reason, or there are CPUs. -/
inductive Affinity
  | failed (errno : Int) (errno_ne_zero : errno ≠ 0)
  | members (cpus : Finset Nat) (nonempty : cpus.Nonempty)

/-- Everything that `nt_message_init` asks for. -/
structure NtEnv where
  bo : ByteOrder
  capSzFile : ProcFile
  userOffFile : ProcFile
  flowOffFile : ProcFile
  /-- `/dev/mem` can be opened -/
  hasSysMem : Bool
  /-- what `mmap` returns -/
  mmap : Nat
  /-- the memory there -/
  mapped : Mem
  affinity : Affinity

/-- The statics of `nt_message.c`, and the memory at `shm_base_addr`. -/
structure NtShm where
  baseAddr : Nat
  baseUser : Nat
  baseFlow : Nat
  userOffset : BitVec 32
  flowOffset : BitVec 32
  capBlockSz : BitVec 32
  /-- `nt_message_rbf` -/
  messageRbf : Option Nat
  area : Mem

/-! ## 2. The functions -/

/-- `proc_uint`: what it returns, and the variable. -/
def procUint (out : BitVec 32) : ProcFile → Int × BitVec 32
  | .absent => (-EINVAL, out)
  | .unread errno => (errno, out)
  | .holds n => (0, n)

/-- `proc_pars_init` -/
def procParsInit (env : NtEnv) (s : NtShm) : Int × NtShm :=
  let (res, n) := procUint s.capBlockSz env.capSzFile
  let s := { s with capBlockSz := n }
  if res ≠ 0 then (res, s)
  else
    let (res, n) := procUint s.userOffset env.userOffFile
    let s := { s with userOffset := n }
    if res ≠ 0 then (res, s)
    else
      let (res, n) := procUint s.flowOffset env.flowOffFile
      let s := { s with flowOffset := n }
      if res ≠ 0 then (res, s) else (0, s)

/-- `shm_init` -/
def shmInit (env : NtEnv) (s : NtShm) : Int × NtShm :=
  if !env.hasSysMem then (-EINVAL, s)
  else
    let s := { s with baseAddr := env.mmap, area := env.mapped }
    if env.mmap = 0 then (-ENOMEM, s)
    else (0, { s with
      baseUser := env.mmap + s.userOffset.toNat
      baseFlow := env.mmap + s.flowOffset.toNat })

/-- The body of the loop of `shm_rbf_init`: CPU `i`. -/
def attachCpu (bo : ByteOrder) (cpus : Finset Nat) (_ i : Nat) (s : NtShm) : Ctl NtShm :=
  if i ∈ cpus then
    let off := blockOffset s.capBlockSz.toNat i
    let rbp := s.baseAddr + off
    let s := { s with area := rbfInitAt bo s.area off s.capBlockSz.toNat }
    if rbp = 0 then .next s else .stop { s with messageRbf := some rbp }
  else .next s

/-- `shm_rbf_init`.  The loop runs from 0 to the number of members, inclusive. -/
def shmRbfInit (env : NtEnv) (s : NtShm) : Int × NtShm :=
  match env.affinity with
  | .failed errno _ => (errno, s)
  | .members cpus _ => (0, walk (attachCpu env.bo cpus) 0 (List.range (cpus.card + 1)) s)

/-- `nt_message_init` -/
def ntMessageInit (env : NtEnv) (s : NtShm) : Int × NtShm :=
  let (res, s) := procParsInit env s
  if res ≠ 0 then (-EINVAL, s)
  else
    let (res, s) := shmInit env s
    if res ≠ 0 then (-EINVAL, s)
    else
      let (res, s) := shmRbfInit env s
      if res ≠ 0 then (-EINVAL, s) else (0, s)

/-- The assertion of `nt_message_process`. -/
def NtShm.attached (s : NtShm) : Bool := s.messageRbf.isSome

/-- The statics with the ring of CPU `i` attached. -/
def NtShm.attach (bo : ByteOrder) (s : NtShm) (i : Nat) : NtShm :=
  { s with
    area := rbfInitAt bo s.area (blockOffset s.capBlockSz.toNat i) s.capBlockSz.toNat
    messageRbf := some (s.baseAddr + blockOffset s.capBlockSz.toNat i) }

/-! ## 3. The search -/

section Search

variable {env : NtEnv} {cpus : Finset Nat} {s : NtShm}

/-- The first number in the set, among those up to the number of members. -/
theorem find_range_card (hne : cpus.Nonempty) :
    (List.range (cpus.card + 1)).find? (· ∈ cpus) =
      if cpus.min' hne ≤ cpus.card then some (cpus.min' hne) else none := by
  split
  · rename_i hle
    refine List.find?_range_eq_some.mpr ⟨?_, ?_, ?_⟩
    · exact decide_eq_true (cpus.min'_mem hne)
    · exact List.mem_range.mpr (Nat.lt_succ_of_le hle)
    · intro j hj
      have hnot : j ∉ cpus := fun hmem => Nat.not_lt.mpr (cpus.min'_le j hmem) hj
      simp [hnot]
  · rename_i hlt
    refine List.find?_range_eq_none.mpr ?_
    intro j hj
    have hnot : j ∉ cpus := by
      intro hmem
      have := cpus.min'_le j hmem
      omega
    simp [hnot]

/-- **What `shm_rbf_init` does.**  It returns 0 in any case; it attaches to the ring of the
lowest CPU if that is at most the number of members, and does nothing otherwise. -/
theorem shmRbfInit_eq {hne : cpus.Nonempty} (haff : env.affinity = .members cpus hne)
    (hmap : s.baseAddr ≠ 0) :
    shmRbfInit env s =
      (0, if cpus.min' hne ≤ cpus.card then s.attach env.bo (cpus.min' hne) else s) := by
  have hnext : ∀ i x, decide (x ∈ cpus) = false → attachCpu env.bo cpus i x s = .next s := by
    intro i x hx
    rw [attachCpu, if_neg (of_decide_eq_false hx)]
  have hstop : ∀ i x, decide (x ∈ cpus) = true →
      attachCpu env.bo cpus i x s = .stop (s.attach env.bo x) := by
    intro i x hx
    rw [attachCpu, if_pos (of_decide_eq_true hx)]
    dsimp only
    rw [if_neg (by omega), NtShm.attach]
  simp only [shmRbfInit, haff]
  rw [walk_eq_find hnext hstop, find_range_card hne]
  split <;> rfl

@[simp] theorem procParsInit_messageRbf (env : NtEnv) (s : NtShm) :
    (procParsInit env s).2.messageRbf = s.messageRbf := by
  simp only [procParsInit]
  split_ifs <;> rfl

/-- A successful `shm_init` leaves an address. -/
theorem shmInit_eq_zero {t : NtShm} (h : shmInit env s = (0, t)) :
    t.messageRbf = s.messageRbf ∧ t.baseAddr ≠ 0 := by
  simp only [shmInit, EINVAL, ENOMEM] at h
  split_ifs at h with hmem hmap
  · simp at h
  · simp at h
  · obtain rfl : _ = t := (Prod.mk.inj h).2
    exact ⟨rfl, hmap⟩

/-- Whatever `nt_message_init` did before it looked for the ring, it did not touch the pointer. -/
theorem ntMessageInit_eq_zero {t : NtShm} (h : ntMessageInit env s = (0, t)) :
    ∃ s', s'.messageRbf = s.messageRbf ∧ s'.baseAddr ≠ 0 ∧ shmRbfInit env s' = (0, t) := by
  simp only [ntMessageInit, EINVAL] at h
  split_ifs at h with hpars hshm hrbf
  · simp at h
  · simp at h
  · simp at h
  · have hshm : shmInit env (procParsInit env s).2 = (0, (shmInit env (procParsInit env s).2).2) :=
      Prod.ext (not_not.mp hshm) rfl
    obtain ⟨hsame, hmap⟩ := shmInit_eq_zero hshm
    refine ⟨_, hsame.trans (procParsInit_messageRbf env s), hmap, ?_⟩
    exact Prod.ext (not_not.mp hrbf) (Prod.mk.inj h).2

end Search

/-- **The ring of `nmsg_init` is the ring that is found.**  A process that maps the area of the
kernel and attaches to the ring of a CPU has the pointer of that CPU, and the ring is left as it
was. -/
theorem attach_kernelRing {cenv : CapEnv} {k k' : NmsgState} (h : nmsgInit cenv k = some (0, k'))
    {i : Nat} (hi : i < cenv.nrCpuIds) {s : NtShm} (harea : s.area = k'.area)
    (hsize : s.capBlockSz.toNat = k'.capBlockSz) :
    (s.attach cenv.bo i).messageRbf = some (s.baseAddr + (k'.cpus i).rbfp) ∧
      rbfAt cenv.bo (s.attach cenv.bo i).area (k'.cpus i).rbfp =
        rbfAt cenv.bo k'.area (k'.cpus i).rbfp := by
  obtain ⟨hbase, hhdr⟩ := nmsgInit_ring h hi
  have hblock : k'.capBlockSz = cenv.blockSize := by
    obtain ⟨-, rfl⟩ := nmsgInit_eq_zero h
    rfl
  have hoff : blockOffset s.capBlockSz.toNat i = (k'.cpus i).rbfp := by
    rw [hsize, hblock, (nmsgInit_eq_zero h).1.blockOffset_eq hi, hbase]
  refine ⟨?_, ?_⟩
  · rw [NtShm.attach, hoff]
  · dsimp only [NtShm.attach]
    rw [hoff, rbfAt_rbfInitAt, harea, hsize, hblock]
    refine rbfInit_of_hdr ?_ ?_
    · exact congrArg RbfHdr.size hhdr
    · exact congrArg RbfHdr.count hhdr

/-! ## 4. When the ring is found -/

/-- **What a process relies on**, `low` being the lowest CPU that it may run on. -/
structure AttachFinds (env : NtEnv) (low : Nat) (s : NtShm) : Prop where
  /-- `shm_rbf_init` leaves the ring of that CPU -/
  ring : ∀ t, shmRbfInit env s = (0, t) →
    t.messageRbf = some (s.baseAddr + s.capBlockSz.toNat * low)
  /-- the assertion of `nt_message_process` holds after `nt_message_init` -/
  process : ∀ t, ntMessageInit env s = (0, t) → t.attached = true

/-- Blocks of 1 MiB, mapped at 16 MiB; the set is the one CPU of the command line. -/
def ntEnv (core : Nat) : NtEnv where
  bo := .little
  capSzFile := .holds 0x100000
  userOffFile := .holds 0x400000
  flowOffFile := .holds 0x800000
  hasSysMem := true
  mmap := 0x1000000
  mapped := fun _ => 0
  affinity := .members {core} (Finset.singleton_nonempty core)

/-- A process that has just been started. -/
def ntShmStart : NtShm := ⟨0, 0, 0, 0, 0, 0, none, fun _ => 0⟩

/-- ... and has mapped the area. -/
def ntShmMapped : NtShm :=
  ⟨0x1000000, 0x1400000, 0x1800000, 0x400000, 0x800000, 0x100000, none, fun _ => 0⟩

end Puppies
