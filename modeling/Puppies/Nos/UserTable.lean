/-
# The table of users over whole runs (`drivers/nos/src/nos_config.c`)

`Nos/Users` has the table as lists of records, which is how the hooks see it.  Here the nodes are
in memory, a bucket links their addresses, and `user_hash_del` and `user_hash_fini` give memory
back, so that an access to a freed node, or the `BUG_ON` at the end of `user_hash_del`, would be a
FAULT of the model.  On the records the two levels agree (`nodes_userHashAdd`,
`find_nodes_eq`).

The calls are made one after another and in any order, between them the callers allocate the
nodes that they add (`userStep`).  The log of a run says which node was added last for an
address and not deleted since (`addedLast`); the main result (`userTable_run`) is that the table
is that finite map in every state of every run, for every hash, and that no call faults.
-/
import Puppies.Lib.Chain
import Puppies.Lib.Runs
import Puppies.Nos.Users

namespace Puppies

open ByteMem ChainTable ChainTable.Chains

/-- What stops the kernel: an access to memory that is not allocated, or a `BUG_ON`. -/
inductive UserFault
  | badAccess
  | bugOn
  deriving DecidableEq

/-- The nodes in memory under their addresses, and `g_nos.users`. -/
abbrev UserMem := Chains Nat Nat UserNode

namespace UserMem

/-- The indices of `g_nos.users`. -/
@[irreducible] def bucketIndices : List Nat := List.range nosMaxUser

@[simp] theorem mem_bucketIndices {b : Nat} : b ∈ bucketIndices ↔ b < nosMaxUser := by
  unfold bucketIndices
  exact List.mem_range

theorem nodup_bucketIndices : bucketIndices.Nodup := by
  unfold bucketIndices
  exact List.nodup_range

section Code

variable (jhash : List Byte → BitVec 32) (m : UserMem)

/-- `user_hash_init` -/
def userHashInit : UserMem :=
  { m with chain := fun i => if i < nosMaxUser then [] else m.chain i }

/-- The loop of `user_hash_find` over the rest of a bucket. -/
def findFrom (mac : Mac) : List Nat → Except UserFault (Option Nat)
  | [] => .ok none
  | p :: ps =>
    match m.node p with
    | none => .error .badAccess
    | some u => if u.mac = mac then .ok (some p) else findFrom mac ps

/-- `user_hash_find` -/
def userHashFind (mac : Mac) : Except UserFault (Option Nat) :=
  findFrom m mac (m.chain (hashNum jhash mac))

/-- `user_hash_add`: the return value and the table. -/
def userHashAdd (n : Nat) : Except UserFault (Int × UserMem) :=
  match m.node n with
  | none => .error .badAccess
  | some u =>
    match userHashFind jhash m u.mac with
    | .error e => .error e
    | .ok (some _) => .ok (0, m)
    | .ok none => .ok (1, m.link (hashNum jhash u.mac) n)

/-- `hlist_del(p); kfree(p)`, with `p` in bucket `b`. -/
def delFree (b p : Nat) : Except UserFault UserMem :=
  match m.node p with
  | none => .error .badAccess
  | some _ => .ok ((m.unlink b p).free p)

/-- The loop of `user_hash_del` over the rest of a bucket, and the `BUG_ON` behind it. -/
def delFrom (b : Nat) (mac : Mac) : List Nat → Except UserFault (Int × UserMem)
  | [] => .error .bugOn
  | p :: ps =>
    match m.node p with
    | none => .error .badAccess
    | some u => if u.mac = mac then (delFree m b p).map fun m' => (1, m') else delFrom b mac ps

/-- `user_hash_del`: the return value and the table. -/
def userHashDel (mac : Mac) : Except UserFault (Int × UserMem) :=
  match userHashFind jhash m mac with
  | .error e => .error e
  | .ok none => .ok (0, m)
  | .ok (some _) =>
    let bkt := hashNum jhash mac
    delFrom m bkt mac (m.chain bkt)

/-- The inner loop of `user_hash_fini`: the entry behind `p` is read before `p` is freed. -/
def finiFrom (b : Nat) : UserMem → List Nat → Except UserFault UserMem
  | m, [] => .ok m
  | m, p :: ps => (delFree m b p).bind fun m' => finiFrom b m' ps

/-- `user_hash_fini` -/
def userHashFini : Except UserFault UserMem :=
  bucketIndices.foldlM (fun m i => finiFrom i m (m.chain i)) m

end Code

/-! ## 1. One call on a table that is as it should be -/

variable {jhash : List Byte → BitVec 32} {m : UserMem}

/-- The table is as it should be: what is linked is allocated and in its bucket, and no address
occurs twice. -/
abbrev TableWf (jhash : List Byte → BitVec 32) (m : UserMem) : Prop :=
  m.Wf (hashNum jhash) UserNode.mac

/-- `n` is in the table, for the address `mac`. -/
abbrev Entry (m : UserMem) (mac : Mac) (n : Nat) : Prop := m.Linked UserNode.mac mac n

theorem hashNum_lt (mac : Mac) : hashNum jhash mac < nosMaxUser :=
  Nat.mod_lt _ (by decide)

/-- The walk of a bucket whose nodes are all allocated. -/
theorem findFrom_eq {mac : Mac} {ps : List Nat} (hlive : ∀ p ∈ ps, ∃ u, m.node p = some u) :
    findFrom m mac ps = .ok (ps.find? fun p => m.keyAt UserNode.mac p = some mac) := by
  induction ps with
  | nil => rfl
  | cons p ps ih =>
    obtain ⟨u, hu⟩ := hlive p List.mem_cons_self
    have htail := ih fun q hq => hlive q (List.mem_cons_of_mem p hq)
    by_cases hmac : u.mac = mac
    · simp [findFrom, keyAt, hu, hmac]
    · simp [findFrom, keyAt, hu, hmac, htail]

theorem live_chain (h : TableWf jhash m) (b : Nat) : ∀ p ∈ m.chain b, ∃ u, m.node p = some u := by
  intro p hp
  obtain ⟨u, hu, -⟩ := h.bucket b p hp
  exact ⟨u, hu⟩

theorem userHashFind_eq (h : TableWf jhash m) (mac : Mac) : userHashFind jhash m mac =
    .ok ((m.chain (hashNum jhash mac)).find? fun p => m.keyAt UserNode.mac p = some mac) :=
  findFrom_eq (live_chain h _)

/-- **What is found is what is in the table.** -/
theorem userHashFind_eq_ok_iff (h : TableWf jhash m) {mac : Mac} {r : Option Nat} :
    userHashFind jhash m mac = .ok r ↔ ∀ n, r = some n ↔ Entry m mac n := by
  rw [userHashFind_eq h, Except.ok.injEq]
  constructor
  · rintro rfl n
    exact h.find_eq_some_iff
  · intro hr
    apply Option.ext
    intro n
    rw [h.find_eq_some_iff, hr]

/-- Two tables with the same entries for an address find the same. -/
theorem userHashFind_congr {m' : UserMem} (h : TableWf jhash m) (h' : TableWf jhash m') {mac : Mac}
    (hsame : ∀ n, Entry m' mac n ↔ Entry m mac n) :
    userHashFind jhash m' mac = userHashFind jhash m mac := by
  rw [userHashFind_eq h, userHashFind_eq_ok_iff h']
  intro n
  rw [h.find_eq_some_iff, hsame]

/-- `user_hash_add` of an address that is in the table. -/
theorem userHashAdd_of_entry (h : TableWf jhash m) {n : Nat} {u : UserNode}
    (hu : m.node n = some u) {n' : Nat} (hin : Entry m u.mac n') :
    userHashAdd jhash m n = .ok (0, m) := by
  have hfind : userHashFind jhash m u.mac = .ok (some n') := by
    rw [userHashFind_eq h, h.find_eq_some_iff.mpr hin]
  simp only [userHashAdd, hu, hfind]

/-- `user_hash_add` of an address that is not. -/
theorem userHashAdd_of_absent (h : TableWf jhash m) {n : Nat} {u : UserNode}
    (hu : m.node n = some u) (hout : ∀ n', ¬ Entry m u.mac n') :
    userHashAdd jhash m n = .ok (1, m.link (hashNum jhash u.mac) n) := by
  have hfind : userHashFind jhash m u.mac = .ok none := by
    rw [userHashFind_eq h, h.find_eq_none_iff.mpr hout]
  simp only [userHashAdd, hu, hfind]

theorem delFree_of_mem (h : TableWf jhash m) {b p : Nat} (hp : p ∈ m.chain b) :
    delFree m b p = .ok ((m.unlink b p).free p) := by
  obtain ⟨u, hu, -⟩ := h.bucket b p hp
  simp only [delFree, hu]

/-- The second walk of `user_hash_del` meets the node that the first one found. -/
theorem delFrom_of_find (h : TableWf jhash m) {b n : Nat} {mac : Mac} {ps : List Nat}
    (hsub : ∀ p ∈ ps, p ∈ m.chain b)
    (hfind : (ps.find? fun p => m.keyAt UserNode.mac p = some mac) = some n) :
    delFrom m b mac ps = .ok (1, (m.unlink b n).free n) := by
  induction ps with
  | nil => cases hfind
  | cons p ps ih =>
    obtain ⟨u, hu, -⟩ := h.bucket b p (hsub p List.mem_cons_self)
    by_cases hmac : u.mac = mac
    · have hpn : p = n := by simpa [keyAt, hu, hmac] using hfind
      subst hpn
      simp [delFrom, hu, hmac, delFree, Except.map]
    · have hrest : (ps.find? fun p => m.keyAt UserNode.mac p = some mac) = some n := by
        simpa [keyAt, hu, hmac] using hfind
      have htail := ih (fun q hq => hsub q (List.mem_cons_of_mem p hq)) hrest
      simpa [delFrom, hu, hmac] using htail

/-- `user_hash_del` of an address that is in the table. -/
theorem userHashDel_of_entry (h : TableWf jhash m) {mac : Mac} {n : Nat} (hin : Entry m mac n) :
    userHashDel jhash m mac = .ok (1, (m.unlink (hashNum jhash mac) n).free n) := by
  have hfound := h.find_eq_some_iff.mpr hin
  have hfind : userHashFind jhash m mac = .ok (some n) := by rw [userHashFind_eq h, hfound]
  simp only [userHashDel, hfind]
  exact delFrom_of_find h (fun p hp => hp) hfound

/-- `user_hash_del` of an address that is not. -/
theorem userHashDel_of_absent (h : TableWf jhash m) {mac : Mac} (hout : ∀ n, ¬ Entry m mac n) :
    userHashDel jhash m mac = .ok (0, m) := by
  have hfind : userHashFind jhash m mac = .ok none := by
    rw [userHashFind_eq h, h.find_eq_none_iff.mpr hout]
  simp only [userHashDel, hfind]

/-- `user_hash_init` empties the whole table: there is nothing behind the last bucket. -/
theorem userHashInit_eq (h : TableWf jhash m) : userHashInit m = m.emptied := by
  have hchain : (fun i => if i < nosMaxUser then [] else m.chain i) = fun _ => ([] : List Nat) := by
    funext i
    split
    · rfl
    · rename_i hi
      apply List.eq_nil_iff_forall_not_mem.mpr
      intro p hp
      obtain ⟨u, -, rfl⟩ := h.bucket i p hp
      exact hi (hashNum_lt u.mac)
  rw [userHashInit, hchain, emptied]

/-- The buckets of `bs` are emptied and their nodes are free; nothing else has changed. -/
structure Freed (bs : List Nat) (m m' : UserMem) : Prop where
  chain : ∀ b, m'.chain b = if b ∈ bs then [] else m.chain b
  node : ∀ p, m'.node p = if ∃ b ∈ bs, p ∈ m.chain b then none else m.node p

/-- The inner loop of `user_hash_fini` frees one bucket. -/
theorem finiFrom_chain {b : Nat} {ps : List Nat} (h : TableWf jhash m) (hps : m.chain b = ps) :
    ∃ m', finiFrom b m ps = .ok m' ∧ TableWf jhash m' ∧ Freed [b] m m' := by
  induction ps generalizing m with
  | nil =>
    refine ⟨m, rfl, h, ?_, ?_⟩
    · intro b'
      by_cases hb : b' = b
      · simp [hb, hps]
      · simp [hb]
    · intro p
      simp [hps]
  | cons p ps ih =>
    have hp : p ∈ m.chain b := hps ▸ List.mem_cons_self
    have hrest : ((m.unlink b p).free p).chain b = ps := by simp [unlink, free, hps]
    obtain ⟨m', hrun, hwf, hfreed⟩ := ih (h.release hp) hrest
    refine ⟨m', ?_, hwf, ?_, ?_⟩
    · rw [finiFrom, delFree_of_mem h hp]
      exact hrun
    · intro b'
      rw [hfreed.chain]
      by_cases hb : b' = b
      · simp [hb]
      · simp [hb, unlink, free]
    · intro q
      rw [hfreed.node]
      by_cases hq : q = p
      · simp [hq, hps, free]
      · simp [hq, hps, free, unlink]

/-- The outer loop of `user_hash_fini`. -/
theorem finiBuckets {bs : List Nat} (hnodup : bs.Nodup) (h : TableWf jhash m) :
    ∃ m', bs.foldlM (fun m i => finiFrom i m (m.chain i)) m = .ok m' ∧ TableWf jhash m' ∧
      Freed bs m m' := by
  induction bs generalizing m with
  | nil => exact ⟨m, rfl, h, fun b => by simp, fun p => by simp⟩
  | cons b bs ih =>
    obtain ⟨hb, hbs⟩ := List.nodup_cons.mp hnodup
    obtain ⟨m₁, hrun₁, hwf₁, hfreed₁⟩ := finiFrom_chain h rfl
    obtain ⟨m', hrun, hwf, hfreed⟩ := ih hbs hwf₁
    have hchain₁ : ∀ b' ∈ bs, m₁.chain b' = m.chain b' := by
      intro b' hb'
      have hne : b' ≠ b := fun heq => hb (heq ▸ hb')
      rw [hfreed₁.chain, if_neg (by simpa using hne)]
    refine ⟨m', ?_, hwf, ?_, ?_⟩
    · rw [List.foldlM_cons, hrun₁]
      exact hrun
    · intro b'
      rw [hfreed.chain, hfreed₁.chain]
      by_cases hb' : b' ∈ bs <;> simp [hb']
    · intro p
      have hsame : (∃ b' ∈ bs, p ∈ m₁.chain b') ↔ ∃ b' ∈ bs, p ∈ m.chain b' := by
        apply exists_congr
        intro b'
        apply and_congr_right
        intro hb'
        rw [hchain₁ b' hb']
      rw [hfreed.node, hfreed₁.node]
      by_cases hp : ∃ b' ∈ bs, p ∈ m.chain b'
      · simp [hsame, hp]
      · by_cases hpb : p ∈ m.chain b <;> simp [hsame, hp, hpb]

/-- **`user_hash_fini` frees what is in the table, all of it and nothing else.** -/
theorem userHashFini_eq (h : TableWf jhash m) : ∃ m', userHashFini m = .ok m' ∧
    TableWf jhash m' ∧ (∀ b, m'.chain b = []) ∧
    ∀ p u, m'.node p = some u ↔ m.node p = some u ∧ ∀ mac, ¬ Entry m mac p := by
  obtain ⟨m', hrun, hwf, hfreed⟩ := finiBuckets nodup_bucketIndices h
  refine ⟨m', hrun, hwf, ?_, ?_⟩
  · intro b
    rw [hfreed.chain]
    split
    · rfl
    · rename_i hb
      apply List.eq_nil_iff_forall_not_mem.mpr
      intro p hp
      obtain ⟨u, -, rfl⟩ := h.bucket b p hp
      exact hb (mem_bucketIndices.mpr (hashNum_lt u.mac))
  · intro p u
    have hsame : (∃ b ∈ bucketIndices, p ∈ m.chain b) ↔ ∃ mac, Entry m mac p := by
      constructor
      · rintro ⟨b, -, hp⟩
        obtain ⟨mac, hmac, -⟩ := h.keyAt_ne_none hp
        exact ⟨mac, b, hp, hmac⟩
      · rintro ⟨mac, hin⟩
        exact ⟨hashNum jhash mac, mem_bucketIndices.mpr (hashNum_lt mac), (h.linked_iff.mp hin).1⟩
    rw [hfreed.node, ← not_exists, ← hsame]
    by_cases hp : ∃ b ∈ bucketIndices, p ∈ m.chain b
    · rw [if_pos hp]
      exact ⟨fun hnone => (Option.some_ne_none u hnone.symm).elim, fun h => absurd hp h.2⟩
    · rw [if_neg hp]
      exact (and_iff_left hp).symm

/-! ## 2. The records of `Nos/Users` -/

/-- The table of records is as it should be. -/
theorem usersWf_nodes (h : TableWf jhash m) : UsersWf jhash m.nodes := by
  have hmacs : ∀ b, (macs m.nodes b).map some = (m.chain b).map (m.keyAt UserNode.mac) :=
    fun b => (h.map_keyAt b).symm
  constructor
  · intro b mac hmem
    obtain ⟨p, hp, hk⟩ := List.mem_map.mp (hmacs b ▸ List.mem_map_of_mem (f := some) hmem)
    obtain ⟨mac', hk', hb⟩ := h.keyAt_ne_none hp
    rw [hk, Option.some.injEq] at hk'
    rw [hk', hb]
  · intro b
    exact List.Nodup.of_map some (hmacs b ▸ h.nodup b)

/-- What is found in the records is the record of the node that is found in memory. -/
theorem find_nodes_eq (h : TableWf jhash m) (mac : Mac) : (userHashFind jhash m mac).map
    (fun r => r.bind m.node) = .ok (Puppies.userHashFind jhash m.nodes mac) := by
  have hlist : ∀ ps : List Nat, (∀ p ∈ ps, ∃ u, m.node p = some u) →
      (ps.find? fun p => m.keyAt UserNode.mac p = some mac).bind m.node =
        (ps.filterMap m.node).find? fun u => u.mac == mac := by
    intro ps hlive
    induction ps with
    | nil => rfl
    | cons p ps ih =>
      obtain ⟨u, hu⟩ := hlive p List.mem_cons_self
      have htail := ih fun q hq => hlive q (List.mem_cons_of_mem p hq)
      rw [List.filterMap_cons_some hu]
      by_cases hmac : u.mac = mac
      · simp [keyAt, hu, hmac]
      · have hkey : ¬ (m.keyAt UserNode.mac p = some mac) := by simp [keyAt, hu, hmac]
        have hrec : (u.mac == mac) = false := beq_eq_false_iff_ne.mpr hmac
        rw [List.find?_cons_of_neg (by simpa using hkey), htail, List.find?_cons, hrec]
  rw [userHashFind_eq h]
  exact congrArg Except.ok (hlist _ (live_chain h _))

/-- Adding a node in memory adds its record. -/
theorem nodes_userHashAdd (h : TableWf jhash m) {n : Nat} {u : UserNode}
    (hu : m.node n = some u) : (userHashAdd jhash m n).map (fun r => (r.1, r.2.nodes)) =
      .ok (Puppies.userHashAdd jhash m.nodes u) := by
  have hfind := find_nodes_eq h u.mac
  by_cases hin : ∃ n', Entry m u.mac n'
  · obtain ⟨n', hin⟩ := hin
    obtain ⟨v, hv, -⟩ := keyAt_eq_some.mp (h.linked_iff.mp hin).2
    rw [userHashFind_eq h, h.find_eq_some_iff.mpr hin, Except.map, Option.bind_some, hv,
      Except.ok.injEq] at hfind
    rw [userHashAdd_of_entry h hu hin, Puppies.userHashAdd, ← hfind]
    rfl
  · have hout := not_exists.mp hin
    rw [userHashFind_eq h, h.find_eq_none_iff.mpr hout, Except.map, Option.bind_none,
      Except.ok.injEq] at hfind
    have hnodes : (m.link (hashNum jhash u.mac) n).nodes = Function.update m.nodes
        (hashNum jhash u.mac) (u :: m.nodes (hashNum jhash u.mac)) := by
      funext b
      rcases eq_or_ne b (hashNum jhash u.mac) with rfl | hb
      · rw [Function.update_self, nodes, chain_link_self]
        exact List.filterMap_cons_some hu
      · rw [Function.update_of_ne hb, nodes, chain_link_of_ne hb]
        rfl
    rw [userHashAdd_of_absent h hu hout, Puppies.userHashAdd, ← hfind, Except.map, hnodes]

/-! ## 3. Whole runs -/

/-- A call of the table, or a caller's `kmalloc` of a node together with the stores that fill it
before it is added. -/
inductive UserCall
  | kmalloc (n : Nat) (u : UserNode)
  | init
  | add (n : Nat)
  | find (mac : Mac)
  | del (mac : Mac)
  | fini

/-- What a call has done to the map: the newest entry of the log first. -/
inductive UserLog
  | added (mac : Mac) (n : Nat)
  | deleted (mac : Mac)
  | emptied

/-- The node that was added last for the address and has not been deleted since. -/
def addedLast (mac : Mac) : List UserLog → Option Nat
  | [] => none
  | .added mac' n :: log => if mac' = mac then some n else addedLast mac log
  | .deleted mac' :: log => if mac' = mac then none else addedLast mac log
  | .emptied :: _ => none

/-- The table and the log of what was done to it. -/
structure UserRun where
  mem : UserMem
  log : List UserLog

/-- Before the first call: no node, and the zeroed buckets of `g_nos`. -/
def userStart : UserRun := ⟨⟨fun _ => none, fun _ => []⟩, []⟩

/-- One call; `none` when it faults.  An allocation takes an address that is not in use, and a
caller adds a node that it has. -/
def userStep (jhash : List Byte → BitVec 32) (s : UserRun) : UserCall → Option UserRun
  | .kmalloc n u =>
    if s.mem.node n = none then some ⟨s.mem.alloc n u, s.log⟩ else none
  | .init => some ⟨userHashInit s.mem, .emptied :: s.log⟩
  | .add n =>
    match s.mem.node n, userHashAdd jhash s.mem n with
    | some u, .ok (ret, mem) =>
      some ⟨mem, if ret = 1 then .added u.mac n :: s.log else s.log⟩
    | _, _ => none
  | .find mac =>
    match userHashFind jhash s.mem mac with
    | .ok _ => some s
    | .error _ => none
  | .del mac =>
    match userHashDel jhash s.mem mac with
    | .ok (_, mem) => some ⟨mem, .deleted mac :: s.log⟩
    | .error _ => none
  | .fini =>
    match userHashFini s.mem with
    | .ok mem => some ⟨mem, .emptied :: s.log⟩
    | .error _ => none

/-- The table is as it should be and is the map that the log tells. -/
structure UserInv (jhash : List Byte → BitVec 32) (s : UserRun) : Prop where
  wf : TableWf jhash s.mem
  entry : ∀ mac n, Entry s.mem mac n ↔ addedLast mac s.log = some n

theorem userInv_start : UserInv jhash userStart :=
  ⟨Wf.emptied _ _ ⟨fun _ => none, fun _ => []⟩, fun mac n =>
    ⟨fun h => absurd h.choose_spec.1 List.not_mem_nil, fun h => by cases h⟩⟩

/-- A table with nothing in it is the map of a log that ends in `emptied`. -/
theorem userInv_emptied {log : List UserLog} (h : TableWf jhash m) (hnil : ∀ b, m.chain b = []) :
    UserInv jhash ⟨m, .emptied :: log⟩ := by
  refine ⟨h, ?_⟩
  intro mac n
  constructor
  · rintro ⟨b, hn, -⟩
    rw [hnil] at hn
    exact absurd hn List.not_mem_nil
  · intro hlast
    cases hlast

/-- A node that is added is the entry of its address. -/
theorem UserInv.added {s : UserRun} (h : UserInv jhash s) {n : Nat} {u : UserNode}
    (hu : s.mem.node n = some u) (hout : ∀ n', ¬ Entry s.mem u.mac n') :
    UserInv jhash ⟨s.mem.link (hashNum jhash u.mac) n, .added u.mac n :: s.log⟩ := by
  refine ⟨h.wf.link hu hout, ?_⟩
  intro mac n'
  rw [Entry, linked_link hu]
  by_cases hmac : u.mac = mac
  · subst hmac
    simp [addedLast, hout, eq_comm]
  · have hne : mac ≠ u.mac := fun heq => hmac heq.symm
    simp [addedLast, hmac, hne, h.entry]

/-- After the node of an address is deleted, the address has no entry. -/
theorem UserInv.deleted {s : UserRun} (h : UserInv jhash s) {mac : Mac} {n : Nat}
    (hin : Entry s.mem mac n) :
    UserInv jhash ⟨(s.mem.unlink (hashNum jhash mac) n).free n, .deleted mac :: s.log⟩ := by
  have hmem := (h.wf.linked_iff.mp hin).1
  refine ⟨h.wf.release hmem, ?_⟩
  intro mac' n'
  rw [Entry, h.wf.linked_release hmem]
  by_cases hmac : mac = mac'
  · subst hmac
    have hgone : ¬ (n' ≠ n ∧ Entry s.mem mac n') :=
      fun hn' => hn'.1 (hn'.2.unique h.wf hin)
    simp [addedLast, hgone]
  · have hother : Entry s.mem mac' n' → n' ≠ n := by
      rintro hin' rfl
      have hkey := (h.wf.linked_iff.mp hin).2
      rw [(h.wf.linked_iff.mp hin').2, Option.some.injEq] at hkey
      exact hmac hkey.symm
    simp only [addedLast, if_neg hmac, ← h.entry]
    exact and_iff_right_of_imp hother

/-- The log may say that an address was deleted which had no entry. -/
theorem UserInv.deleted_absent {s : UserRun} (h : UserInv jhash s) {mac : Mac}
    (hout : ∀ n, ¬ Entry s.mem mac n) : UserInv jhash ⟨s.mem, .deleted mac :: s.log⟩ := by
  refine ⟨h.wf, ?_⟩
  intro mac' n'
  by_cases hmac : mac = mac'
  · subst hmac
    simp [addedLast, hout]
  · simp [addedLast, hmac, h.entry]

/-- **Every call keeps the table the map that the log tells.** -/
theorem userInv_step {s s' : UserRun} {c : UserCall} (h : UserInv jhash s)
    (hs : userStep jhash s c = some s') : UserInv jhash s' := by
  cases c with
  | kmalloc n u =>
    rw [userStep, Option.ite_none_right_eq_some, Option.some.injEq] at hs
    obtain ⟨hfree, rfl⟩ := hs
    exact ⟨h.wf.alloc u hfree, fun mac n' => (h.wf.linked_alloc u hfree).trans (h.entry mac n')⟩
  | init =>
    simp only [userStep, Option.some.injEq] at hs
    obtain rfl := hs
    rw [userHashInit_eq h.wf]
    exact userInv_emptied (Wf.emptied _ _ _) fun b => rfl
  | add n =>
    cases hu : s.mem.node n with
    | none => simp [userStep, hu] at hs
    | some u =>
      by_cases hin : ∃ n', Entry s.mem u.mac n'
      · obtain ⟨n', hin⟩ := hin
        simp only [userStep, hu, userHashAdd_of_entry h.wf hu hin, Option.some.injEq] at hs
        exact hs ▸ h
      · have hout := not_exists.mp hin
        simp only [userStep, hu, userHashAdd_of_absent h.wf hu hout, Option.some.injEq] at hs
        obtain rfl := hs
        exact h.added hu hout
  | find mac =>
    simp only [userStep, userHashFind_eq h.wf, Option.some.injEq] at hs
    exact hs ▸ h
  | del mac =>
    by_cases hin : ∃ n, Entry s.mem mac n
    · obtain ⟨n, hin⟩ := hin
      simp only [userStep, userHashDel_of_entry h.wf hin, Option.some.injEq] at hs
      obtain rfl := hs
      exact h.deleted hin
    · have hout := not_exists.mp hin
      simp only [userStep, userHashDel_of_absent h.wf hout, Option.some.injEq] at hs
      obtain rfl := hs
      exact h.deleted_absent hout
  | fini =>
    obtain ⟨m', hrun, hwf, hnil, -⟩ := userHashFini_eq h.wf
    simp only [userStep, hrun, Option.some.injEq] at hs
    obtain rfl := hs
    exact userInv_emptied hwf hnil

/-- **The table of users is a finite map.**  What each clause says of the next call, it says
without a fault: no access to a freed node, and no `BUG_ON`. -/
structure IsUserMap (jhash : List Byte → BitVec 32) (s : UserRun) : Prop where
  bucket : ∀ b, ∀ n ∈ s.mem.chain b, ∃ u, s.mem.node n = some u ∧ hashNum jhash u.mac = b
  once : ∀ {b i b' i' n n' : Nat} {u u' : UserNode},
    (s.mem.chain b)[i]? = some n → (s.mem.chain b')[i']? = some n' →
      s.mem.node n = some u → s.mem.node n' = some u' → u.mac = u'.mac → b = b' ∧ i = i'
  find : ∀ mac, userHashFind jhash s.mem mac = .ok (addedLast mac s.log)
  add : ∀ {n u}, s.mem.node n = some u → ∃ ret mem, userHashAdd jhash s.mem n = .ok (ret, mem) ∧
    (ret = 1 ↔ ∀ n', ¬ Entry s.mem u.mac n') ∧ mem.node = s.mem.node ∧
    ∀ mac, mac ≠ u.mac → userHashFind jhash mem mac = userHashFind jhash s.mem mac
  del : ∀ mac, ∃ ret mem, userHashDel jhash s.mem mac = .ok (ret, mem) ∧
    (ret = 1 ↔ ∃ n, Entry s.mem mac n) ∧
    (∀ p u, mem.node p = some u ↔ s.mem.node p = some u ∧ ¬ Entry s.mem mac p) ∧
    ∀ mac', mac' ≠ mac → userHashFind jhash mem mac' = userHashFind jhash s.mem mac'
  fini : ∃ mem, userHashFini s.mem = .ok mem ∧
    ∀ p u, mem.node p = some u ↔ s.mem.node p = some u ∧ ∀ mac, ¬ Entry s.mem mac p

/-- Two places of the table with one address are the same place. -/
theorem place_unique (h : TableWf jhash m) {b i b' i' n n' : Nat} {u u' : UserNode}
    (hn : (m.chain b)[i]? = some n) (hn' : (m.chain b')[i']? = some n')
    (hu : m.node n = some u) (hu' : m.node n' = some u') (hmac : u.mac = u'.mac) :
    b = b' ∧ i = i' := by
  have hentry : Entry m u.mac n :=
    ⟨b, List.mem_of_getElem? hn, keyAt_eq_some.mpr ⟨u, hu, rfl⟩⟩
  have hentry' : Entry m u.mac n' :=
    ⟨b', List.mem_of_getElem? hn', keyAt_eq_some.mpr ⟨u', hu', hmac.symm⟩⟩
  obtain rfl : n = n' := hentry.unique h hentry'
  obtain rfl : b = b' := h.bucket_unique (List.mem_of_getElem? hn) (List.mem_of_getElem? hn')
  obtain ⟨hi, -⟩ := List.getElem?_eq_some_iff.mp hn
  exact ⟨rfl, (List.getElem?_inj hi (h.chain_nodup b)).mp (hn.trans hn'.symm)⟩

/-- `user_hash_add` says whether the address was absent, and changes what is found for it only. -/
theorem userHashAdd_spec (h : TableWf jhash m) {n : Nat} {u : UserNode} (hu : m.node n = some u) :
    ∃ ret mem, userHashAdd jhash m n = .ok (ret, mem) ∧ (ret = 1 ↔ ∀ n', ¬ Entry m u.mac n') ∧
      mem.node = m.node ∧
      ∀ mac, mac ≠ u.mac → userHashFind jhash mem mac = userHashFind jhash m mac := by
  by_cases hin : ∃ n', Entry m u.mac n'
  · obtain ⟨n', hin⟩ := hin
    exact ⟨0, m, userHashAdd_of_entry h hu hin,
      iff_of_false (by decide) fun hout => hout n' hin, rfl, fun _ _ => rfl⟩
  · have hout := not_exists.mp hin
    refine ⟨1, _, userHashAdd_of_absent h hu hout, iff_of_true rfl hout, rfl, ?_⟩
    intro mac hne
    apply userHashFind_congr h (h.link hu hout)
    intro n'
    rw [Entry, linked_link hu]
    exact or_iff_right fun hmac => hne hmac.1

/-- `user_hash_del` says whether the address was present, frees its node and no other, and
changes what is found for it only. -/
theorem userHashDel_spec (h : TableWf jhash m) (mac : Mac) :
    ∃ ret mem, userHashDel jhash m mac = .ok (ret, mem) ∧ (ret = 1 ↔ ∃ n, Entry m mac n) ∧
      (∀ p u, mem.node p = some u ↔ m.node p = some u ∧ ¬ Entry m mac p) ∧
      ∀ mac', mac' ≠ mac → userHashFind jhash mem mac' = userHashFind jhash m mac' := by
  by_cases hin : ∃ n, Entry m mac n
  · obtain ⟨n, hin⟩ := hin
    have hmem := (h.linked_iff.mp hin).1
    refine ⟨1, _, userHashDel_of_entry h hin, iff_of_true rfl ⟨n, hin⟩, ?_, ?_⟩
    · intro p u
      have hp : Entry m mac p ↔ p = n := ⟨fun hp => hp.unique h hin, fun hp => hp ▸ hin⟩
      rw [hp]
      by_cases hpn : p = n
      · simp [hpn, unlink, free]
      · simp [hpn, unlink, free]
    · intro mac' hne
      apply userHashFind_congr h (h.release hmem)
      intro p
      rw [Entry, h.linked_release hmem]
      apply and_iff_right_of_imp
      rintro hp rfl
      have hkey := (h.linked_iff.mp hin).2
      rw [(h.linked_iff.mp hp).2, Option.some.injEq] at hkey
      exact hne hkey
  · have hout := not_exists.mp hin
    exact ⟨0, m, userHashDel_of_absent h hout, iff_of_false (by decide) hin,
      fun p u => (and_iff_left (hout p)).symm, fun _ _ => rfl⟩

theorem UserInv.isUserMap {s : UserRun} (h : UserInv jhash s) : IsUserMap jhash s where
  bucket := h.wf.bucket
  once := place_unique h.wf
  find := fun mac => (userHashFind_eq_ok_iff h.wf).mpr fun n => (h.entry mac n).symm
  add := userHashAdd_spec h.wf
  del := userHashDel_spec h.wf
  fini := by
    obtain ⟨m', hrun, -, -, hnode⟩ := userHashFini_eq h.wf
    exact ⟨m', hrun, hnode⟩

/-- **In every state of every run, the table is the finite map that the log tells.** -/
theorem userTable_run {cs : List UserCall} {s : UserRun}
    (h : EventRun.run (userStep jhash) userStart cs = some s) : IsUserMap jhash s :=
  (EventRun.inv_run (fun _ _ _ hs => userInv_step hs) userInv_start h).isUserMap

/-- Two addresses, and the calls that add them and take the first one out again. -/
def collidingCalls : List UserCall :=
  let first : Mac := ⟨[1, 0, 0, 0, 0, 0], rfl⟩
  let second : Mac := ⟨[2, 0, 0, 0, 0, 0], rfl⟩
  [.init, .kmalloc 16 ⟨1, 0, 0, first⟩, .kmalloc 32 ⟨2, 0, 0, second⟩, .add 16, .add 32,
    .find first, .del first]

/-- With a constant hash, both addresses are in one bucket. -/
theorem userTable_run_collision :
    ∃ s, EventRun.run (userStep fun _ => 7) userStart collidingCalls = some s ∧
      s.mem.chain 7 = [32] ∧ IsUserMap (fun _ => 7) s := by
  have h : (EventRun.run (userStep fun _ => 7) userStart collidingCalls).map
      (fun s => s.mem.chain 7) = some [32] := by rfl
  obtain ⟨s, hrun, hchain⟩ := EventRun.exists_run_of_map h
  exact ⟨s, hrun, hchain, userTable_run hrun⟩

end UserMem

end Puppies
