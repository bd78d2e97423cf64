/-
# Hash tables with chaining, over memory

The nodes of the table are in memory, each under an address; a bucket is the list of the
addresses that are linked into it, first one first.  A node has a key, and the hash of the key
names the bucket the node belongs to.  Nothing is assumed about the hash: any number of keys
may share a bucket.

`Wf` is the invariant: what is linked is allocated and in its own bucket, and no bucket has two
nodes of one key.  Then an address is LINKED UNDER a key in at most one way (`Linked.unique`),
so the table is a partial map from keys to addresses, the one that the search of one bucket
computes (`Wf.find_eq_some_iff`).  Linking a node whose key is not there (`Wf.link`) and
unlinking and freeing one (`Wf.release`) keep the invariant and change the map at one key.
-/
import Mathlib.Data.List.Nodup
import Mathlib.Logic.Function.Basic

namespace ChainTable

variable {α β ν κ : Type*}

/-- Memory and table: the allocated nodes, and what is linked into each bucket. -/
structure Chains (α β ν : Type*) where
  node : α → Option ν
  chain : β → List α

namespace Chains

/-- The key of the node at an address. -/
def keyAt (key : ν → κ) (c : Chains α β ν) (a : α) : Option κ := (c.node a).map key

/-- The node at `a` is in the table, and its key is `k`. -/
def Linked (key : ν → κ) (c : Chains α β ν) (k : κ) (a : α) : Prop :=
  ∃ b, a ∈ c.chain b ∧ c.keyAt key a = some k

/-- The nodes in each bucket. -/
def nodes (c : Chains α β ν) (b : β) : List ν := (c.chain b).filterMap c.node

/-- Every linked node is allocated and in the bucket of its key, and no bucket has a key twice. -/
structure Wf (hash : κ → β) (key : ν → κ) (c : Chains α β ν) : Prop where
  bucket : ∀ b, ∀ a ∈ c.chain b, ∃ u, c.node a = some u ∧ hash (key u) = b
  nodup : ∀ b, ((c.chain b).map (c.keyAt key)).Nodup

variable {hash : κ → β} {key : ν → κ} {c : Chains α β ν}

theorem keyAt_eq_some {a : α} {k : κ} :
    c.keyAt key a = some k ↔ ∃ u, c.node a = some u ∧ key u = k :=
  Option.map_eq_some_iff

theorem Wf.keyAt_ne_none (h : c.Wf hash key) {b : β} {a : α} (ha : a ∈ c.chain b) :
    ∃ k, c.keyAt key a = some k ∧ hash k = b := by
  obtain ⟨u, hu, hb⟩ := h.bucket b a ha
  exact ⟨key u, keyAt_eq_some.mpr ⟨u, hu, rfl⟩, hb⟩

/-- What is linked under a key is in the bucket of the key. -/
theorem Wf.linked_iff (h : c.Wf hash key) {k : κ} {a : α} :
    c.Linked key k a ↔ a ∈ c.chain (hash k) ∧ c.keyAt key a = some k := by
  constructor
  · rintro ⟨b, ha, hk⟩
    obtain ⟨k', hk', rfl⟩ := h.keyAt_ne_none ha
    rw [hk, Option.some.injEq] at hk'
    exact ⟨hk' ▸ ha, hk⟩
  · exact fun hl => ⟨hash k, hl⟩

/-- **A key has at most one node in the whole table.** -/
theorem Linked.unique (h : c.Wf hash key) {k : κ} {a a' : α} (hl : c.Linked key k a)
    (hl' : c.Linked key k a') : a = a' := by
  obtain ⟨ha, hk⟩ := h.linked_iff.mp hl
  obtain ⟨ha', hk'⟩ := h.linked_iff.mp hl'
  exact List.inj_on_of_nodup_map (h.nodup _) ha ha' (hk.trans hk'.symm)

theorem Wf.chain_nodup (h : c.Wf hash key) (b : β) : (c.chain b).Nodup :=
  List.Nodup.of_map _ (h.nodup b)

/-- The buckets have no address in common. -/
theorem Wf.bucket_unique (h : c.Wf hash key) {b b' : β} {a : α} (ha : a ∈ c.chain b)
    (ha' : a ∈ c.chain b') : b = b' := by
  obtain ⟨u, hu, rfl⟩ := h.bucket b a ha
  obtain ⟨u', hu', rfl⟩ := h.bucket b' a ha'
  rw [hu, Option.some.injEq] at hu'
  rw [hu']

/-- **The search of one bucket finds what is linked under the key.** -/
theorem Wf.find_eq_some_iff [DecidableEq κ] (h : c.Wf hash key) {k : κ} {a : α} :
    (c.chain (hash k)).find? (fun a => c.keyAt key a = some k) = some a ↔ c.Linked key k a := by
  rw [h.linked_iff]
  constructor
  · intro hf
    exact ⟨List.mem_of_find?_eq_some hf, by simpa using List.find?_some hf⟩
  · rintro ⟨ha, hk⟩
    have hfound : ((c.chain (hash k)).find? fun a => c.keyAt key a = some k).isSome :=
      List.find?_isSome.mpr ⟨a, ha, by simpa using hk⟩
    obtain ⟨a', ha'⟩ := Option.isSome_iff_exists.mp hfound
    have hl' : c.Linked key k a' :=
      ⟨hash k, List.mem_of_find?_eq_some ha', by simpa using List.find?_some ha'⟩
    rw [ha', hl'.unique h ⟨hash k, ha, hk⟩]

theorem Wf.find_eq_none_iff [DecidableEq κ] (h : c.Wf hash key) {k : κ} :
    (c.chain (hash k)).find? (fun a => c.keyAt key a = some k) = none ↔
      ∀ a, ¬ c.Linked key k a := by
  rw [Option.eq_none_iff_forall_ne_some]
  exact forall_congr' fun a => not_congr h.find_eq_some_iff

/-- The keys in a bucket, from its nodes. -/
theorem Wf.map_keyAt (h : c.Wf hash key) (b : β) :
    (c.chain b).map (c.keyAt key) = ((c.nodes b).map key).map some := by
  have hlive : ∀ l : List α, (∀ a ∈ l, ∃ u, c.node a = some u ∧ hash (key u) = b) →
      l.map (c.keyAt key) = ((l.filterMap c.node).map key).map some := by
    intro l hl
    induction l with
    | nil => rfl
    | cons a l ih =>
      obtain ⟨u, hu, -⟩ := hl a List.mem_cons_self
      have htail := ih fun a' ha' => hl a' (List.mem_cons_of_mem a ha')
      simp [keyAt, hu] at htail ⊢
      exact htail
  exact hlive (c.chain b) (h.bucket b)

/-! ## 1. The operations -/

/-- The table with nothing in any bucket. -/
def emptied (c : Chains α β ν) : Chains α β ν := { c with chain := fun _ => [] }

theorem Wf.emptied (hash : κ → β) (key : ν → κ) (c : Chains α β ν) : c.emptied.Wf hash key :=
  ⟨fun _ _ ha => absurd ha List.not_mem_nil, fun _ => List.nodup_nil⟩

/-- A new allocation. -/
def alloc [DecidableEq α] (c : Chains α β ν) (a : α) (u : ν) : Chains α β ν :=
  { c with node := Function.update c.node a (some u) }

/-- `a` at the front of bucket `b`. -/
def link [DecidableEq β] (c : Chains α β ν) (b : β) (a : α) : Chains α β ν :=
  { c with chain := Function.update c.chain b (a :: c.chain b) }

/-- `a` out of bucket `b`. -/
def unlink [DecidableEq α] [DecidableEq β] (c : Chains α β ν) (b : β) (a : α) :
    Chains α β ν :=
  { c with chain := Function.update c.chain b ((c.chain b).erase a) }

/-- The memory of `a` given back. -/
def free [DecidableEq α] (c : Chains α β ν) (a : α) : Chains α β ν :=
  { c with node := Function.update c.node a none }

section Keep

variable [DecidableEq α]

/-- An allocation touches no node that is linked. -/
theorem Wf.keyAt_alloc (h : c.Wf hash key) {a : α} (u : ν) (hfree : c.node a = none) {b : β}
    {a' : α} (ha' : a' ∈ c.chain b) : (c.alloc a u).keyAt key a' = c.keyAt key a' := by
  have hne : a' ≠ a := by
    rintro rfl
    obtain ⟨v, hv, -⟩ := h.bucket b a' ha'
    rw [hfree] at hv
    cases hv
  simp [keyAt, alloc, hne]

theorem Wf.alloc (h : c.Wf hash key) {a : α} (u : ν) (hfree : c.node a = none) :
    (c.alloc a u).Wf hash key := by
  constructor
  · intro b a' ha'
    obtain ⟨v, hv, hb⟩ := h.bucket b a' ha'
    have hne : a' ≠ a := by
      rintro rfl
      rw [hfree] at hv
      cases hv
    exact ⟨v, by simpa [Chains.alloc, hne] using hv, hb⟩
  · intro b
    have hsame : ((c.alloc a u).chain b).map ((c.alloc a u).keyAt key) =
        (c.chain b).map (c.keyAt key) :=
      List.map_congr_left fun a' ha' => h.keyAt_alloc u hfree ha'
    rw [hsame]
    exact h.nodup b

theorem Wf.linked_alloc (h : c.Wf hash key) {a : α} (u : ν) (hfree : c.node a = none) {k : κ}
    {a' : α} : (c.alloc a u).Linked key k a' ↔ c.Linked key k a' := by
  constructor
  · rintro ⟨b, ha', hk⟩
    exact ⟨b, ha', by rwa [h.keyAt_alloc u hfree ha'] at hk⟩
  · rintro ⟨b, ha', hk⟩
    exact ⟨b, ha', by rwa [h.keyAt_alloc u hfree ha']⟩

variable [DecidableEq β]

omit [DecidableEq α] in
@[simp] theorem chain_link_self {b : β} {a : α} : (c.link b a).chain b = a :: c.chain b :=
  Function.update_self ..

omit [DecidableEq α] in
theorem chain_link_of_ne {b b' : β} {a : α} (hb : b' ≠ b) :
    (c.link b a).chain b' = c.chain b' :=
  Function.update_of_ne hb ..

omit [DecidableEq α] in
theorem keyAt_link {b : β} {a : α} : (c.link b a).keyAt key = c.keyAt key := rfl

omit [DecidableEq α] in
theorem mem_chain_link {b b' : β} {a a' : α} :
    a' ∈ (c.link b a).chain b' ↔ (b' = b ∧ a' = a) ∨ a' ∈ c.chain b' := by
  rcases eq_or_ne b' b with rfl | hb
  · simp
  · simp [chain_link_of_ne hb, hb]

omit [DecidableEq α] in
/-- **Linking a node whose key is not there.** -/
theorem Wf.link (h : c.Wf hash key) {a : α} {u : ν} (hu : c.node a = some u)
    (hnew : ∀ a', ¬ c.Linked key (key u) a') : (c.link (hash (key u)) a).Wf hash key := by
  constructor
  · intro b a' ha'
    rcases mem_chain_link.mp ha' with ⟨rfl, rfl⟩ | ha'
    · exact ⟨u, hu, rfl⟩
    · exact h.bucket b a' ha'
  · intro b
    rcases eq_or_ne b (hash (key u)) with rfl | hb
    · have hfresh : some (key u) ∉ (c.chain (hash (key u))).map (c.keyAt key) := by
        intro hmem
        obtain ⟨a', ha', hk⟩ := List.mem_map.mp hmem
        exact hnew a' ⟨_, ha', hk⟩
      have hkey : c.keyAt key a = some (key u) := keyAt_eq_some.mpr ⟨u, hu, rfl⟩
      rw [chain_link_self, keyAt_link, List.map_cons, hkey]
      exact List.nodup_cons.mpr ⟨hfresh, h.nodup (hash (key u))⟩
    · rw [chain_link_of_ne hb, keyAt_link]
      exact h.nodup b

omit [DecidableEq α] in
theorem linked_link {a a' : α} {u : ν} {b : β} {k : κ} (hu : c.node a = some u) :
    (c.link b a).Linked key k a' ↔ (k = key u ∧ a' = a) ∨ c.Linked key k a' := by
  have hkey : c.keyAt key a = some (key u) := keyAt_eq_some.mpr ⟨u, hu, rfl⟩
  constructor
  · rintro ⟨b', ha', hk⟩
    rcases mem_chain_link.mp ha' with ⟨rfl, rfl⟩ | ha'
    · exact Or.inl ⟨Option.some.inj (hk.symm.trans hkey), rfl⟩
    · exact Or.inr ⟨b', ha', hk⟩
  · rintro (⟨rfl, rfl⟩ | ⟨b', ha', hk⟩)
    · exact ⟨b, mem_chain_link.mpr (Or.inl ⟨rfl, rfl⟩), hkey⟩
    · exact ⟨b', mem_chain_link.mpr (Or.inr ha'), hk⟩

/-- What is still linked when `a` has been unlinked and freed is what was linked apart from `a`. -/
theorem Wf.mem_chain_release (h : c.Wf hash key) {b b' : β} {a a' : α} (ha : a ∈ c.chain b) :
    a' ∈ ((c.unlink b a).free a).chain b' ↔ a' ≠ a ∧ a' ∈ c.chain b' := by
  rcases eq_or_ne b' b with rfl | hb
  · simp [unlink, free, (h.chain_nodup b').mem_erase_iff]
  · simp only [unlink, free, Function.update_of_ne hb]
    constructor
    · intro ha'
      refine ⟨?_, ha'⟩
      rintro rfl
      exact hb (h.bucket_unique ha' ha)
    · exact And.right

/-- **Unlinking and freeing a node.** -/
theorem Wf.release (h : c.Wf hash key) {b : β} {a : α} (ha : a ∈ c.chain b) :
    ((c.unlink b a).free a).Wf hash key := by
  have hnode : ∀ a', a' ≠ a → ((c.unlink b a).free a).node a' = c.node a' := by
    intro a' hne
    simp [Chains.unlink, Chains.free, hne]
  constructor
  · intro b' a' ha'
    obtain ⟨hne, ha'⟩ := (h.mem_chain_release ha).mp ha'
    obtain ⟨u, hu, hb⟩ := h.bucket b' a' ha'
    exact ⟨u, (hnode a' hne).trans hu, hb⟩
  · intro b'
    have hkeys : (((c.unlink b a).free a).chain b').map (((c.unlink b a).free a).keyAt key) =
        (((c.unlink b a).free a).chain b').map (c.keyAt key) := by
      apply List.map_congr_left
      intro a' ha'
      rw [keyAt, keyAt, hnode a' ((h.mem_chain_release ha).mp ha').1]
    have hsub : (((c.unlink b a).free a).chain b').Sublist (c.chain b') := by
      rcases eq_or_ne b' b with rfl | hb
      · simpa [Chains.unlink, Chains.free] using List.erase_sublist
      · simp [Chains.unlink, Chains.free, hb]
    rw [hkeys]
    exact (hsub.map _).nodup (h.nodup b')

theorem Wf.linked_release (h : c.Wf hash key) {b : β} {a a' : α} {k : κ} (ha : a ∈ c.chain b) :
    ((c.unlink b a).free a).Linked key k a' ↔ a' ≠ a ∧ c.Linked key k a' := by
  have hkey : a' ≠ a → ((c.unlink b a).free a).keyAt key a' = c.keyAt key a' := by
    intro hne
    simp [keyAt, unlink, free, hne]
  constructor
  · rintro ⟨b', ha', hk⟩
    obtain ⟨hne, ha'⟩ := (h.mem_chain_release ha).mp ha'
    exact ⟨hne, b', ha', by rwa [hkey hne] at hk⟩
  · rintro ⟨hne, b', ha', hk⟩
    exact ⟨b', (h.mem_chain_release ha).mpr ⟨hne, ha'⟩, by rwa [hkey hne]⟩

end Keep

end Chains

end ChainTable
