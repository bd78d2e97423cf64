/-
# The message queues (`drivers/nos_track/src/ntrack_msg.c`)

The kernel module sends messages to user space through one queue for each CPU.
`nmsg_enqueue` may be called by any number of contexts at once: it picks the queue by its key,
tests the count, allocates a node, puts the node on the queue's list under the queue's lock,
fills the node, and raises the queue's work item.  The work item runs `nmsg_wq_dequeue_func`
on that CPU, which takes nodes off the list, one locked section each, copies each into the
CPU's ring and frees it.  A process at the other end of the ring reads the frames
(`nt_message_process`).

This file is the machine of all of these together, for one CPU (`msgStep`); the CPUs share
nothing, and `msgSystemStep` puts one machine for each CPU side by side.  An event is one step
of one party, and everything that the source does in one locked section, or that touches
shared state once, is one event.

* Calls are numbered, and `cfg.req k` are the arguments of call `k`.  A call allocates at most
  one node, so the node of call `k` is simply node `k`: a block is never mistaken for a later
  one at the same address, and a store into a block that was freed is seen as one (`wild`).
* `kmalloc` returns what it likes: no block, or a block with any bytes in it.
* The worker obeys the contract of the kernel's workqueues: it starts only when the item is
  pending, which is cleared as it starts, and it does not run twice at once.
-/
import Mathlib.Data.List.Perm.Basic
import Puppies.Ntrack.Ring

namespace Puppies

open ByteMem EventRun

/-! ## 1. Messages -/

/-- `nmsg_hdr_t`. -/
structure NmsgHdr where
  type : BitVec 16
  prio : BitVec 16
  dataLen : BitVec 16
  crc : BitVec 16
  deriving DecidableEq, Repr

/-- `sizeof(nmsg_hdr_t)`. -/
def nmsgHdrSize : Nat := 8

/-- The header as it lies in memory. -/
def NmsgHdr.bytes (bo : ByteOrder) (h : NmsgHdr) : List Byte :=
  bo.bytes16 h.type ++ bo.bytes16 h.prio ++ bo.bytes16 h.dataLen ++ bo.bytes16 h.crc

@[simp] theorem NmsgHdr.length_bytes (bo : ByteOrder) (h : NmsgHdr) :
    (h.bytes bo).length = nmsgHdrSize := by
  simp [NmsgHdr.bytes, nmsgHdrSize]

/-- `nmsg_hdr_init`: everything but the type and the length is zero. -/
def nmsgHdrInit (type dataLen : BitVec 16) : NmsgHdr := ⟨type, 0, dataLen, 0⟩

/-- The arguments of one `nmsg_enqueue` call.  The caller has put the length of the content
into the header. -/
structure Request where
  hdr : NmsgHdr
  buf : List Byte
  key : Nat
  buf_length : buf.length = hdr.dataLen.toNat

/-- What the receiver is to get: the header, then the content. -/
def Request.frame (bo : ByteOrder) (r : Request) : List Byte := r.hdr.bytes bo ++ r.buf

@[simp] theorem Request.length_frame (bo : ByteOrder) (r : Request) :
    (r.frame bo).length = nmsgHdrSize + r.hdr.dataLen.toNat := by
  simp [Request.frame, r.buf_length]

/-- `nmsg_node_t`, without the list links. -/
structure NmsgNode where
  buffSize : Nat
  buff : Mem

/-- The bytes that are copied out of a node. -/
def NmsgNode.frame (n : NmsgNode) : List Byte := read n.buff 0 n.buffSize

/-! ## 2. The parties -/

/-- `NCAP_MAX_COUNT`. -/
def ncapMaxCount : Int := 2048

def ENOMEM : Int := 12
def EINVAL : Int := 22

/-- `KEY_TO_CORE`. -/
def keyToCore (nrCpuIds key : Nat) : Nat := key % nrCpuIds

/-- How far a call of `nmsg_enqueue` is. -/
inductive EnqPc
  | start
  /-- past the test of the count -/
  | counted
  /-- with a node, which nobody else knows -/
  | allocated
  /-- with the node on the list -/
  | listed
  /-- `node->buff_size` is written -/
  | sized
  /-- and the header copied -/
  | headed
  /-- and the content copied -/
  | filled
  | returned (ret : Int)
  deriving DecidableEq, Repr

/-- The call has put its node on the list. -/
def EnqPc.inserted : EnqPc → Bool
  | .listed | .sized | .headed | .filled => true
  | .returned ret => ret == 0
  | _ => false

/-- The node is on the list, or was, and the call has still to store into it. -/
def EnqPc.unfilled : EnqPc → Bool
  | .listed | .sized | .headed => true
  | _ => false

/-- What became of the node of a call. -/
inductive Block
  | none
  | live (n : NmsgNode)
  | freed

/-- Where the worker is in the loop of `nmsg_wq_dequeue_func`. -/
inductive WorkerPc
  | idle
  /-- about to test the list, without the lock -/
  | check
  /-- saw a nonempty list, about to take the lock -/
  | lock
  deriving DecidableEq, Repr

/-- `nmsg_cpu_t`, the calls and the reader that use it, and what happened so far. -/
structure MsgCpu where
  /-- `list`, first entry first -/
  list : List Nat
  count : Int
  /-- the work item is queued -/
  pending : Bool
  worker : WorkerPc
  ring : Ring
  pc : Nat → EnqPc
  node : Nat → Block
  /-- the calls in the order in which they put their nodes on the list -/
  listed : List Nat
  /-- the calls that returned 0 -/
  accepted : List Nat
  /-- the frames copied into the ring, with the call each came from -/
  published : List (Nat × List Byte)
  /-- the calls that stored into a freed node -/
  wild : List Nat

/-- What does not change in a run: the host, the CPUs, the size of each ring's area, and the
arguments of all calls. -/
structure MsgCfg where
  bo : ByteOrder
  nrCpuIds : Nat
  size : Nat
  req : Nat → Request

/-- The frame of call `k`. -/
def MsgCfg.frame (cfg : MsgCfg) (k : Nat) : List Byte := (cfg.req k).frame cfg.bo

/-- The queue that call `k` uses. -/
def MsgCfg.core (cfg : MsgCfg) (k : Nat) : Nat := keyToCore cfg.nrCpuIds (cfg.req k).key

/-! ## 3. The pieces of the source -/

/-- The test `size + sizeof(*hdr) > RBF_NODE_SIZE` of `nmsg_enqueue`. -/
def tooBig (r : Request) : Bool := rbfNodeSize < r.hdr.dataLen.toNat + nmsgHdrSize

/-- The three statements of `nmsg_enqueue` that fill the node: what the next one does to the
node, and where it leaves the call. -/
def fillNext (bo : ByteOrder) (r : Request) : EnqPc → Option ((NmsgNode → NmsgNode) × EnqPc)
  | .listed => some (fun n => { n with buffSize := r.hdr.dataLen.toNat + nmsgHdrSize }, .sized)
  | .sized => some (fun n => { n with buff := write n.buff 0 (r.hdr.bytes bo) }, .headed)
  | .headed => some (fun n => { n with buff := write n.buff nmsgHdrSize r.buf }, .filled)
  | _ => none

/-- `nmsg_fill_buffer`: the return value and the ring. -/
def nmsgFillBuffer (rbfp : Rbf) (n : NmsgNode) : Int × Rbf :=
  match rbfGetBuff rbfp with
  | some p => (0, rbfReleaseBuff (rbfp.store p 0 n.frame))
  | none => (-ENOMEM, rbfp)

/-- The ring with its histories after `nmsg_fill_buffer`. -/
def Ring.fill (s : Ring) (n : NmsgNode) : Ring :=
  match rbfGetBuff s.rbf with
  | some p => { s with
      rbf := (nmsgFillBuffer s.rbf n).2
      released := s.released ++ [slotBytes (s.rbf.store p 0 n.frame) p] }
  | none => s

/-- The steps of the process that reads the ring, or of any process that attaches to it. -/
def RingEvent.ofReader : RingEvent → Bool
  | .getData | .look | .releaseData | .attach _ => true
  | _ => false

/-! ## 4. The machine of one CPU -/

/-- One step of one party. -/
inductive MsgEvent
  /-- call `k` tests the count -/
  | test (k : Nat)
  /-- call `k` tests the size and asks for a node -/
  | kmalloc (k : Nat) (block : Option NmsgNode)
  /-- the locked section of call `k` -/
  | insert (k : Nat)
  /-- the next of the three statements of call `k` that fill the node -/
  | fill (k : Nat)
  /-- call `k` queues the work item and returns 0 -/
  | raise (k : Nat)
  | workStart
  | workCheck
  /-- the locked section of `nmsg_dequeue` -/
  | workTake
  | reader (e : RingEvent)

/-- Call `k` is now at `p`. -/
def MsgCpu.goto (s : MsgCpu) (k : Nat) (p : EnqPc) : MsgCpu :=
  { s with pc := Function.update s.pc k p }

/-- `kmalloc` gave call `k` the block `n`. -/
def MsgCpu.allocate (s : MsgCpu) (k : Nat) (n : NmsgNode) : MsgCpu :=
  { s.goto k .allocated with node := Function.update s.node k (.live n) }

/-- The locked section of `nmsg_enqueue`: `list_add` puts the node FIRST. -/
def MsgCpu.insert (s : MsgCpu) (k : Nat) : MsgCpu :=
  { s.goto k .listed with
    count := s.count + 1
    list := k :: s.list
    listed := s.listed ++ [k] }

/-- One store of call `k` into its node. -/
def MsgCpu.fill (s : MsgCpu) (k : Nat) (f : NmsgNode → NmsgNode) (p : EnqPc) : MsgCpu :=
  match s.node k with
  | .live n => { s.goto k p with node := Function.update s.node k (.live (f n)) }
  | _ => { s.goto k p with wild := s.wild ++ [k] }

/-- `queue_work_on`, and the return. -/
def MsgCpu.raise (s : MsgCpu) (k : Nat) : MsgCpu :=
  { s.goto k (.returned 0) with pending := true, accepted := s.accepted ++ [k] }

/-- The locked section of `nmsg_dequeue` when the first entry is the node of call `k`.  What
`nmsg_fill_buffer` returns is not looked at. -/
def MsgCpu.take (s : MsgCpu) (k : Nat) (n : NmsgNode) (rest : List Nat) : MsgCpu :=
  { s with
    ring := s.ring.fill n
    count := s.count - 1
    list := rest
    node := Function.update s.node k .freed
    published := if (rbfGetBuff s.ring.rbf).isSome then s.published ++ [(k, n.frame)]
      else s.published
    worker := .check }

section Fields

variable (s : MsgCpu) (k : Nat) (f : NmsgNode → NmsgNode) (p : EnqPc)

@[simp] theorem MsgCpu.fill_list : (s.fill k f p).list = s.list := by
  unfold MsgCpu.fill; split <;> rfl
@[simp] theorem MsgCpu.fill_count : (s.fill k f p).count = s.count := by
  unfold MsgCpu.fill; split <;> rfl
@[simp] theorem MsgCpu.fill_ring : (s.fill k f p).ring = s.ring := by
  unfold MsgCpu.fill; split <;> rfl
@[simp] theorem MsgCpu.fill_pc : (s.fill k f p).pc = Function.update s.pc k p := by
  unfold MsgCpu.fill; split <;> rfl
@[simp] theorem MsgCpu.fill_listed : (s.fill k f p).listed = s.listed := by
  unfold MsgCpu.fill; split <;> rfl
@[simp] theorem MsgCpu.fill_accepted : (s.fill k f p).accepted = s.accepted := by
  unfold MsgCpu.fill; split <;> rfl
@[simp] theorem MsgCpu.fill_published : (s.fill k f p).published = s.published := by
  unfold MsgCpu.fill; split <;> rfl

end Fields

/-- One step on CPU `core`. -/
def msgStep (cfg : MsgCfg) (core : Nat) (s : MsgCpu) : MsgEvent → Option MsgCpu
  | .test k =>
    if cfg.core k = core ∧ s.pc k = .start then
      some (s.goto k (if ncapMaxCount < s.count then .returned (-ENOMEM) else .counted))
    else none
  | .kmalloc k block =>
    if s.pc k = .counted then
      if tooBig (cfg.req k) then some (s.goto k (.returned (-EINVAL)))
      else match block with
        | some n => some (s.allocate k n)
        | none => some (s.goto k (.returned (-ENOMEM)))
    else none
  | .insert k => if s.pc k = .allocated then some (s.insert k) else none
  | .fill k => (fillNext cfg.bo (cfg.req k) (s.pc k)).map fun fp => s.fill k fp.1 fp.2
  | .raise k => if s.pc k = .filled then some (s.raise k) else none
  | .workStart =>
    if s.pending = true ∧ s.worker = .idle then
      some { s with pending := false, worker := .check }
    else none
  | .workCheck =>
    if s.worker = .check then
      some { s with worker := if s.list = [] then .idle else .lock }
    else none
  | .workTake =>
    if s.worker = .lock then
      match s.list with
      | [] => some { s with worker := .check }
      | k :: rest =>
        match s.node k with
        | .live n => some (s.take k n rest)
        | _ => none
    else none
  | .reader e =>
    if e.ofReader then (ringStep cfg.size s.ring e).map fun r => { s with ring := r } else none

/-- What each step is, with what it needs: the only place where `msgStep` is unfolded. -/
inductive MsgMove (cfg : MsgCfg) (core : Nat) (s : MsgCpu) : MsgEvent → MsgCpu → Prop
  | test {k : Nat} (hcore : cfg.core k = core) (hpc : s.pc k = .start) :
      MsgMove cfg core s (.test k)
        (s.goto k (if ncapMaxCount < s.count then .returned (-ENOMEM) else .counted))
  | refuse {k : Nat} {block : Option NmsgNode} {ret : Int} (hpc : s.pc k = .counted)
      (hret : ret ≠ 0) : MsgMove cfg core s (.kmalloc k block) (s.goto k (.returned ret))
  | allocate {k : Nat} {n : NmsgNode} (hpc : s.pc k = .counted)
      (hsize : tooBig (cfg.req k) = false) :
      MsgMove cfg core s (.kmalloc k (some n)) (s.allocate k n)
  | insert {k : Nat} (hpc : s.pc k = .allocated) : MsgMove cfg core s (.insert k) (s.insert k)
  | fill {k : Nat} {f : NmsgNode → NmsgNode} {p : EnqPc}
      (hnext : fillNext cfg.bo (cfg.req k) (s.pc k) = some (f, p)) :
      MsgMove cfg core s (.fill k) (s.fill k f p)
  | raise {k : Nat} (hpc : s.pc k = .filled) : MsgMove cfg core s (.raise k) (s.raise k)
  | workStart (hpending : s.pending = true) (hidle : s.worker = .idle) :
      MsgMove cfg core s .workStart { s with pending := false, worker := .check }
  | workCheck (hcheck : s.worker = .check) :
      MsgMove cfg core s .workCheck { s with worker := if s.list = [] then .idle else .lock }
  | takeNone (hlock : s.worker = .lock) (hlist : s.list = []) :
      MsgMove cfg core s .workTake { s with worker := .check }
  | take {k : Nat} {rest : List Nat} {n : NmsgNode} (hlock : s.worker = .lock)
      (hlist : s.list = k :: rest) (hnode : s.node k = .live n) :
      MsgMove cfg core s .workTake (s.take k n rest)
  | reader {e : RingEvent} {r : Ring} (he : e.ofReader = true)
      (hring : ringStep cfg.size s.ring e = some r) :
      MsgMove cfg core s (.reader e) { s with ring := r }

theorem msgMove_of_step {cfg : MsgCfg} {core : Nat} {s t : MsgCpu} {e : MsgEvent}
    (h : msgStep cfg core s e = some t) : MsgMove cfg core s e t := by
  cases e with
  | test k =>
    simp only [msgStep, Option.ite_none_right_eq_some, Option.some.injEq] at h
    obtain ⟨⟨hcore, hpc⟩, rfl⟩ := h
    exact .test hcore hpc
  | kmalloc k block =>
    simp only [msgStep, Option.ite_none_right_eq_some] at h
    obtain ⟨hpc, h⟩ := h
    split at h
    · rw [Option.some.injEq] at h
      exact h ▸ .refuse hpc (by decide)
    · rename_i hsize
      split at h
      · rw [Option.some.injEq] at h
        exact h ▸ .allocate hpc (Bool.not_eq_true _ ▸ hsize)
      · rw [Option.some.injEq] at h
        exact h ▸ .refuse hpc (by decide)
  | insert k =>
    simp only [msgStep, Option.ite_none_right_eq_some, Option.some.injEq] at h
    exact h.2 ▸ .insert h.1
  | fill k =>
    simp only [msgStep, Option.map_eq_some_iff] at h
    obtain ⟨⟨f, p⟩, hnext, rfl⟩ := h
    exact .fill hnext
  | raise k =>
    simp only [msgStep, Option.ite_none_right_eq_some, Option.some.injEq] at h
    exact h.2 ▸ .raise h.1
  | workStart =>
    simp only [msgStep, Option.ite_none_right_eq_some, Option.some.injEq] at h
    exact h.2 ▸ .workStart h.1.1 h.1.2
  | workCheck =>
    simp only [msgStep, Option.ite_none_right_eq_some, Option.some.injEq] at h
    exact h.2 ▸ .workCheck h.1
  | workTake =>
    simp only [msgStep, Option.ite_none_right_eq_some] at h
    obtain ⟨hlock, h⟩ := h
    split at h
    · rename_i hlist
      rw [Option.some.injEq] at h
      exact h ▸ .takeNone hlock hlist
    · rename_i k rest hlist
      split at h
      · rename_i n hnode
        rw [Option.some.injEq] at h
        exact h ▸ .take hlock hlist hnode
      · exact absurd h (by simp)
  | reader e =>
    simp only [msgStep, Option.ite_none_right_eq_some, Option.map_eq_some_iff] at h
    obtain ⟨he, r, hring, rfl⟩ := h
    exact .reader he hring

/-- A CPU after `nmsg_init`: nothing queued, an empty ring over a zeroed area, and the work
item raised once. -/
def msgInit (cfg : MsgCfg) : MsgCpu where
  list := []
  count := 0
  pending := true
  worker := .idle
  ring := ringInit cfg.size fun _ => 0
  pc := fun _ => .start
  node := fun _ => .none
  listed := []
  accepted := []
  published := []
  wild := []

/-- All CPUs: an event is a CPU and a step on it. -/
def msgSystemStep (cfg : MsgCfg) : (Nat → MsgCpu) → Nat × MsgEvent → Option (Nat → MsgCpu) :=
  prodStep (msgStep cfg)

/-- All CPUs after `nmsg_init`. -/
def msgSystemInit (cfg : MsgCfg) : Nat → MsgCpu := fun _ => msgInit cfg

end Puppies
