/-
# The users of the captive portal (`drivers/nos/src/nos_config.c`)

The module `nos` keeps one node for each MAC address it has seen, in a hash table of
`NOS_MAX_USER` lists.  A node is added at the front of the list its address hashes to and is
found by walking that list.

The hash is the kernel's `jhash`, which is not part of the repository: it is a parameter, and
nothing is assumed about it.
-/
import Mathlib.Data.List.Nodup
import Mathlib.Logic.Function.Basic
import Puppies.Net.Packet

namespace Puppies

open ByteMem

/-- `struct user_node`, without the list links. -/
structure UserNode where
  ip : BitVec 32
  jf : BitVec 32
  status : BitVec 32
  mac : Mac
  deriving DecidableEq

/-- `NOS_MAX_USER` -/
def nosMaxUser : Nat := 1 <<< 15

/-- `g_nos.users`: what is in each bucket, first entry first. -/
abbrev Users := Nat → List UserNode

section Table

variable (jhash : List Byte → BitVec 32) (users : Users)

/-- `hash_num` -/
def hashNum (mac : Mac) : Nat := (jhash mac.1).toNat % nosMaxUser

/-- `user_hash_find` -/
def userHashFind (mac : Mac) : Option UserNode :=
  (users (hashNum jhash mac)).find? fun p => p.mac == mac

/-- `user_hash_add`: the return value and the table. -/
def userHashAdd (n : UserNode) : Int × Users :=
  match userHashFind jhash users n.mac with
  | some _ => (0, users)
  | none =>
    let b := hashNum jhash n.mac
    (1, Function.update users b (n :: users b))

/-- The stores of a caller through the pointer that `user_hash_find` returned. -/
def userUpdate (mac : Mac) (f : UserNode → UserNode) : Users :=
  let b := hashNum jhash mac
  Function.update users b
    ((users b).replaceF fun p => if p.mac == mac then some (f p) else none)

end Table

variable {jhash : List Byte → BitVec 32} {users : Users}

/-- The addresses in a bucket. -/
def macs (users : Users) (b : Nat) : List Mac := (users b).map UserNode.mac

/-- There is a node for the address in its bucket. -/
def Known (jhash : List Byte → BitVec 32) (users : Users) (mac : Mac) : Prop :=
  mac ∈ macs users (hashNum jhash mac)

/-- Every node is in the bucket that its address hashes to, and no address occurs twice. -/
structure UsersWf (jhash : List Byte → BitVec 32) (users : Users) : Prop where
  bucket : ∀ b, ∀ mac ∈ macs users b, hashNum jhash mac = b
  nodup : ∀ b, (macs users b).Nodup

/-- The whole table has exactly one node for the address, and it is in the address's bucket. -/
structure OneNode (jhash : List Byte → BitVec 32) (users : Users) (mac : Mac) : Prop where
  one : (macs users (hashNum jhash mac)).count mac = 1
  other : ∀ b, b ≠ hashNum jhash mac → mac ∉ macs users b

/-- The addresses in the table are `mac` and those of before, and `mac` was not there. -/
theorem macs_userHashAdd {n : UserNode} (h : userHashFind jhash users n.mac = none) :
    macs (userHashAdd jhash users n).2 = Function.update (macs users) (hashNum jhash n.mac)
      (n.mac :: macs users (hashNum jhash n.mac)) := by
  funext b
  rw [userHashAdd, h]
  rcases eq_or_ne b (hashNum jhash n.mac) with rfl | hb
  · simp [macs]
  · simp [macs, hb]

/-- A store that leaves the address alone does not change the addresses in the table. -/
theorem macs_userUpdate {mac : Mac} {f : UserNode → UserNode} (hf : ∀ u, (f u).mac = u.mac) :
    macs (userUpdate jhash users mac f) = macs users := by
  have hlist : ∀ l : List UserNode, (l.replaceF fun p =>
      if p.mac == mac then some (f p) else none).map UserNode.mac = l.map UserNode.mac := by
    intro l
    induction l with
    | nil => rfl
    | cons u l ih =>
      rw [List.replaceF_cons]
      by_cases hu : u.mac == mac
      · simp [hu, hf]
      · rw [if_neg hu, List.map_cons, List.map_cons, ih]
  funext b
  unfold macs userUpdate
  rcases eq_or_ne b (hashNum jhash mac) with rfl | hb
  · rw [Function.update_self, hlist]
  · rw [Function.update_of_ne hb]

theorem userHashFind_eq_none_iff {mac : Mac} :
    userHashFind jhash users mac = none ↔ ¬ Known jhash users mac := by
  simp [userHashFind, Known, macs, List.find?_eq_none, Subtype.ext_iff]

/-- In a table that is as it should be, an address with a node has exactly one. -/
theorem UsersWf.oneNode (h : UsersWf jhash users) {mac : Mac} (hknown : Known jhash users mac) :
    OneNode jhash users mac :=
  ⟨List.count_eq_one_of_mem (h.nodup _) hknown, fun b hb hmem => hb (h.bucket b mac hmem).symm⟩

theorem UsersWf.of_macs {users' : Users} (h : UsersWf jhash users)
    (heq : macs users' = macs users) : UsersWf jhash users' := by
  constructor
  · rw [heq]
    exact h.bucket
  · rw [heq]
    exact h.nodup

theorem Known.of_macs {users' : Users} {mac : Mac} (h : Known jhash users mac)
    (heq : macs users' = macs users) : Known jhash users' mac := by
  rwa [Known, heq]

/-- Adding an address that is not there keeps the table as it should be. -/
theorem UsersWf.add (h : UsersWf jhash users) {n : UserNode}
    (hnone : userHashFind jhash users n.mac = none) :
    UsersWf jhash (userHashAdd jhash users n).2 := by
  have hnew : n.mac ∉ macs users (hashNum jhash n.mac) := userHashFind_eq_none_iff.mp hnone
  constructor
  · intro b mac hmem
    rw [macs_userHashAdd hnone] at hmem
    rcases eq_or_ne b (hashNum jhash n.mac) with rfl | hb
    · rw [Function.update_self] at hmem
      rcases List.mem_cons.mp hmem with rfl | hmem
      · rfl
      · exact h.bucket _ mac hmem
    · rw [Function.update_of_ne hb] at hmem
      exact h.bucket b mac hmem
  · intro b
    rw [macs_userHashAdd hnone]
    rcases eq_or_ne b (hashNum jhash n.mac) with rfl | hb
    · rw [Function.update_self]
      exact List.nodup_cons.mpr ⟨hnew, h.nodup _⟩
    · rw [Function.update_of_ne hb]
      exact h.nodup b

/-- After adding an address, those that are known are this one and those of before. -/
theorem known_userHashAdd {n : UserNode} {mac : Mac}
    (hnone : userHashFind jhash users n.mac = none) :
    Known jhash (userHashAdd jhash users n).2 mac ↔ mac = n.mac ∨ Known jhash users mac := by
  unfold Known
  rw [macs_userHashAdd hnone]
  rcases eq_or_ne (hashNum jhash mac) (hashNum jhash n.mac) with hb | hb
  · rw [hb, Function.update_self, List.mem_cons]
  · rw [Function.update_of_ne hb]
    have hne : mac ≠ n.mac := fun heq => hb (heq ▸ rfl)
    simp [hne]

/-- The node that is found is one for the address. -/
theorem mac_of_userHashFind {mac : Mac} {u : UserNode}
    (h : userHashFind jhash users mac = some u) : u.mac = mac := by
  have := List.find?_some h
  exact eq_of_beq this

/-- An address that is not in the table can be added. -/
theorem userHashAdd_of_find_none {n : UserNode} (h : userHashFind jhash users n.mac = none) :
    (userHashAdd jhash users n).1 = 1 := by
  simp [userHashAdd, h]

/-- What was added is found. -/
theorem userHashFind_userHashAdd {n : UserNode} (h : userHashFind jhash users n.mac = none) :
    userHashFind jhash (userHashAdd jhash users n).2 n.mac = some n := by
  rw [userHashAdd, h]
  simp [userHashFind]

end Puppies
