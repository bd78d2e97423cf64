/-
# Ordered trees in memory, by child and sibling links

Each node of a tree is a cell under an address: it points to its first child, to its last child
and to its next sibling.  Cells are given out one address after the other, and the tree grows at
its right border only, so that a tree with `n` nodes takes `n` addresses, in preorder: `TreeAt R
h a t` says that the heap `h` holds the tree `t` from `a` on, with data that is in the relation
`R` to its labels, and `SibsAt` the same of siblings.

`addChild` links a new cell behind the last child of a node.  `Open` is a node with its children so
far, at the border of the heap, and `Pending` a node whose last child is still open: a child is
opened (`Open.addChild`), the rest of the heap in front of it is left alone, and it is closed
again (`Pending.close`).
-/
import Mathlib.Data.List.Induction
import Mathlib.Logic.Function.Basic

namespace TreeHeap

variable {α β : Type*}

/-- The memory of one node. -/
structure Cell (β : Type*) where
  data : β
  length : Nat
  child : Option Nat
  next : Option Nat
  last : Option Nat

/-- The cells that are allocated. -/
abbrev Heap (β : Type*) := Nat → Option (Cell β)

inductive RoseTree (α : Type*)
  | node (label : α) (children : List (RoseTree α))

/-! ## 1. Trees in the heap -/

mutual

/-- The number of nodes. -/
def RoseTree.size : RoseTree α → Nat
  | .node _ ts => sizes ts + 1

def sizes : List (RoseTree α) → Nat
  | [] => 0
  | t :: ts => t.size + sizes ts

end

/-- The first of some siblings from `a` on. -/
def firstAt (a : Nat) : List (RoseTree α) → Option Nat
  | [] => none
  | _ :: _ => some a

/-- The last of them. -/
def lastAt (a : Nat) : List (RoseTree α) → Option Nat
  | [] => none
  | [_] => some a
  | t :: t' :: ts => lastAt (a + t.size) (t' :: ts)

mutual

/-- The heap holds this tree from `a` on, and what follows its root is `next`. -/
def TreeAt (R : β → α → Prop) (h : Heap β) : Nat → RoseTree α → Option Nat → Prop
  | a, .node x ts, next => (∃ d, R d x ∧
      h a = some ⟨d, ts.length, firstAt (a + 1) ts, next, lastAt (a + 1) ts⟩) ∧
      SibsAt R h (a + 1) ts none

/-- The heap holds these siblings from `a` on, and what follows the last one is `next`. -/
def SibsAt (R : β → α → Prop) (h : Heap β) : Nat → List (RoseTree α) → Option Nat → Prop
  | _, [], _ => True
  | a, t :: ts, next =>
    TreeAt R h a t ((firstAt (a + t.size) ts).or next) ∧ SibsAt R h (a + t.size) ts next

end

theorem RoseTree.size_pos (t : RoseTree α) : 0 < t.size := by
  cases t with
  | node x ts =>
    rw [RoseTree.size]
    omega

@[simp] theorem sizes_nil : sizes ([] : List (RoseTree α)) = 0 := by rw [sizes]

@[simp] theorem sizes_cons (t : RoseTree α) (ts : List (RoseTree α)) :
    sizes (t :: ts) = t.size + sizes ts := by rw [sizes]

theorem sizes_append (ts us : List (RoseTree α)) : sizes (ts ++ us) = sizes ts + sizes us := by
  induction ts with
  | nil => simp
  | cons t ts ih => rw [List.cons_append, sizes_cons, sizes_cons, ih, Nat.add_assoc]

theorem firstAt_concat (a : Nat) (ts : List (RoseTree α)) (t : RoseTree α) :
    firstAt a (ts ++ [t]) = some a := by
  cases ts <;> rfl

theorem lastAt_concat (a : Nat) (ts : List (RoseTree α)) (t : RoseTree α) :
    lastAt a (ts ++ [t]) = some (a + sizes ts) := by
  induction ts generalizing a with
  | nil => simp [lastAt]
  | cons u ts ih =>
    cases ts with
    | nil => simp [lastAt]
    | cons u' ts =>
      rw [List.cons_append, List.cons_append, lastAt, ← List.cons_append, ih]
      simp only [sizes_cons, Nat.add_assoc]

variable {R S : β → α → Prop} {h h' : Heap β}

mutual

/-- **The frame rule**: a tree depends on its own addresses only. -/
theorem TreeAt.frame {a : Nat} {next : Option Nat} : ∀ {t : RoseTree α}, TreeAt R h a t next →
    (∀ x, a ≤ x → x < a + t.size → h' x = h x) → TreeAt R h' a t next
  | .node x ts, ht, heq => by
    rw [TreeAt] at ht ⊢
    rw [RoseTree.size] at heq
    obtain ⟨⟨d, hd, hcell⟩, hts⟩ := ht
    refine ⟨⟨d, hd, ?_⟩, SibsAt.frame hts fun x hle hlt => heq x (by omega) (by omega)⟩
    rw [heq a (Nat.le_refl a) (by omega), hcell]

theorem SibsAt.frame {a : Nat} {next : Option Nat} : ∀ {ts : List (RoseTree α)},
    SibsAt R h a ts next → (∀ x, a ≤ x → x < a + sizes ts → h' x = h x) → SibsAt R h' a ts next
  | [], _, _ => by
    rw [SibsAt]
    trivial
  | t :: ts, hts, heq => by
    rw [SibsAt] at hts ⊢
    rw [sizes_cons] at heq
    exact ⟨TreeAt.frame hts.1 fun x hle hlt => heq x hle (by omega),
      SibsAt.frame hts.2 fun x hle hlt => heq x (by omega) (by omega)⟩

end

mutual

theorem TreeAt.mono (himp : ∀ d x, R d x → S d x) {a : Nat} {next : Option Nat} :
    ∀ {t : RoseTree α}, TreeAt R h a t next → TreeAt S h a t next
  | .node x ts, ht => by
    rw [TreeAt] at ht ⊢
    obtain ⟨⟨d, hd, hcell⟩, hts⟩ := ht
    exact ⟨⟨d, himp d x hd, hcell⟩, SibsAt.mono himp hts⟩

theorem SibsAt.mono (himp : ∀ d x, R d x → S d x) {a : Nat} {next : Option Nat} :
    ∀ {ts : List (RoseTree α)}, SibsAt R h a ts next → SibsAt S h a ts next
  | [], _ => by
    rw [SibsAt]
    trivial
  | t :: ts, hts => by
    rw [SibsAt] at hts ⊢
    exact ⟨TreeAt.mono himp hts.1, SibsAt.mono himp hts.2⟩

end

/-- One more sibling. -/
theorem sibsAt_concat {a : Nat} {ts : List (RoseTree α)} {t : RoseTree α} {next : Option Nat} :
    SibsAt R h a (ts ++ [t]) next ↔
      SibsAt R h a ts (some (a + sizes ts)) ∧ TreeAt R h (a + sizes ts) t next := by
  induction ts generalizing a with
  | nil => simp [SibsAt, firstAt]
  | cons u ts ih =>
    have hnext : (firstAt (a + u.size) (ts ++ [t])).or next =
        (firstAt (a + u.size) ts).or (some (a + (u.size + sizes ts))) := by
      rw [firstAt_concat]
      cases ts <;> simp [firstAt]
    rw [List.cons_append, SibsAt, SibsAt, ih, sizes_cons, hnext, Nat.add_assoc, and_assoc]

/-! ## 2. One more child -/

/-- Link a new cell at `fresh` behind the children of `parent`. -/
def addChild (h : Heap β) (fresh parent : Nat) (d : β) : Option (Heap β) := do
  let h := Function.update h fresh (some ⟨d, 0, none, none, none⟩)
  let p ← h parent
  match p.last with
  | none =>
    return Function.update h parent
      (some { p with child := some fresh, last := some fresh, length := p.length + 1 })
  | some l => do
    let c ← h l
    let h := Function.update h l (some { c with next := some fresh })
    let p ← h parent
    return Function.update h parent (some { p with last := some fresh, length := p.length + 1 })

/-- What follows the last of some siblings is changed. -/
theorem sibsAt_relink {a : Nat} {ts : List (RoseTree α)} {next : Option Nat}
    (hts : SibsAt R h a ts next) (hne : ts ≠ []) (next' : Option Nat) :
    ∃ l c, lastAt a ts = some l ∧ a ≤ l ∧ l < a + sizes ts ∧ h l = some c ∧
      SibsAt R (Function.update h l (some { c with next := next' })) a ts next' := by
  obtain ⟨us, t, rfl⟩ := (List.eq_nil_or_concat ts).resolve_left hne
  rw [List.concat_eq_append] at hts ⊢
  rw [sibsAt_concat] at hts
  obtain ⟨hus, ht⟩ := hts
  obtain ⟨x, vs⟩ := t
  rw [TreeAt] at ht
  obtain ⟨⟨d, hd, hcell⟩, hvs⟩ := ht
  refine ⟨a + sizes us, _, lastAt_concat a us _, Nat.le_add_right _ _, ?_, hcell, ?_⟩
  · rw [sizes_append, sizes_cons, RoseTree.size]
    omega
  · rw [sibsAt_concat, TreeAt]
    refine ⟨hus.frame fun y _ hlt => ?_, ⟨d, hd, Function.update_self _ _ _⟩,
      hvs.frame fun y hle _ => ?_⟩
    · exact Function.update_of_ne (by omega) _ _
    · exact Function.update_of_ne (by omega) _ _

/-- The node `parent` has the data `d` and, so far, the children `ts`, which end where the heap
ends. -/
structure Open (R : β → α → Prop) (h : Heap β) (fresh parent : Nat) (d : β)
    (ts : List (RoseTree α)) : Prop where
  cell : h parent = some ⟨d, ts.length, firstAt (parent + 1) ts, none, lastAt (parent + 1) ts⟩
  sibs : SibsAt R h (parent + 1) ts none
  end_eq : fresh = parent + 1 + sizes ts
  unused : ∀ x, fresh ≤ x → h x = none

/-- The node `parent` has, behind the children `ts`, one more, at `a`, which is not complete. -/
structure Pending (R : β → α → Prop) (h : Heap β) (parent : Nat) (d : β) (ts : List (RoseTree α))
    (a : Nat) : Prop where
  cell : h parent = some ⟨d, ts.length + 1, some (parent + 1), none, some a⟩
  sibs : SibsAt R h (parent + 1) ts (some a)
  addr : a = parent + 1 + sizes ts

theorem Open.mono (himp : ∀ d x, R d x → S d x) {fresh parent : Nat} {d : β}
    {ts : List (RoseTree α)} (ho : Open R h fresh parent d ts) : Open S h fresh parent d ts where
  cell := ho.cell
  sibs := ho.sibs.mono himp
  end_eq := ho.end_eq
  unused := ho.unused

/-- What happens behind a pending node's siblings does not change it. -/
theorem Pending.frame {parent a : Nat} {d : β} {ts : List (RoseTree α)}
    (hp : Pending R h parent d ts a) (heq : ∀ x, x < a → h' x = h x) :
    Pending R h' parent d ts a where
  cell := by rw [heq parent (by have := hp.addr; omega), hp.cell]
  sibs := hp.sibs.frame fun x _ hlt => heq x (by have := hp.addr; omega)
  addr := hp.addr

theorem Pending.mono (himp : ∀ d x, R d x → S d x) {parent a : Nat} {d : β}
    {ts : List (RoseTree α)} (hp : Pending R h parent d ts a) : Pending S h parent d ts a where
  cell := hp.cell
  sibs := hp.sibs.mono himp
  addr := hp.addr

/-- **A child is opened**: the node becomes pending, and the child has no children. -/
theorem Open.addChild {fresh parent : Nat} {d : β} {ts : List (RoseTree α)}
    (ho : Open R h fresh parent d ts) (d' : β) : ∃ h', addChild h fresh parent d' = some h' ∧
      Pending R h' parent d ts fresh ∧ Open R h' (fresh + 1) fresh d' [] ∧
      ∀ x, x < parent → h' x = h x := by
  have hend := ho.end_eq
  have hnew : ∀ x, x ≠ fresh →
      Function.update h fresh (some ⟨d', 0, none, none, none⟩) x = h x :=
    fun x hx => Function.update_of_ne hx _ _
  have hcell := ho.cell
  rw [← hnew parent (by omega)] at hcell
  -- the heap afterwards, where it is not changed
  have hopen : ∀ h' : Heap β, h' fresh = some ⟨d', 0, none, none, none⟩ →
      (∀ x, fresh < x → h' x = h x) → Open R h' (fresh + 1) fresh d' ([] : List (RoseTree α)) := by
    intro h' hfresh hrest
    refine ⟨hfresh, by rw [SibsAt]; trivial, by rw [sizes_nil], fun x hx => ?_⟩
    rw [hrest x hx, ho.unused x (by omega)]
  unfold TreeHeap.addChild
  simp only [Option.bind_eq_bind]
  rw [hcell, Option.bind_some]
  by_cases hts : ts = []
  · subst hts
    rw [sizes_nil] at hend
    refine ⟨_, rfl, ⟨?_, by rw [SibsAt]; trivial, by rw [sizes_nil]; exact hend⟩, hopen _ ?_ ?_, ?_⟩
    · rw [Function.update_self, hend]
    · rw [Function.update_of_ne (by omega), Function.update_self]
    · intro x hx
      rw [Function.update_of_ne (by omega), hnew x (by omega)]
    · intro x hx
      rw [Function.update_of_ne (by omega), hnew x (by omega)]
  · have hsibs : SibsAt R (Function.update h fresh (some ⟨d', 0, none, none, none⟩)) (parent + 1)
        ts none := ho.sibs.frame fun x _ hlt => hnew x (by omega)
    obtain ⟨l, c, hlast, hle, hlt, hl, hrelink⟩ := sibsAt_relink hsibs hts (some fresh)
    have hfirst : firstAt (parent + 1) ts = some (parent + 1) := by
      cases ts with
      | nil => exact absurd rfl hts
      | cons t ts => rfl
    dsimp only
    rw [hlast]
    dsimp only
    rw [hl, Option.bind_some, Function.update_of_ne (by omega), hcell, Option.bind_some]
    refine ⟨_, rfl, ⟨?_, ?_, hend⟩, hopen _ ?_ ?_, ?_⟩
    · rw [Function.update_self, hfirst]
    · exact hrelink.frame fun x hle' hlt' => Function.update_of_ne (by omega) _ _
    · rw [Function.update_of_ne (by omega), Function.update_of_ne (by omega),
        Function.update_self]
    · intro x hx
      rw [Function.update_of_ne (by omega), Function.update_of_ne (by omega), hnew x (by omega)]
    · intro x hx
      rw [Function.update_of_ne (by omega), Function.update_of_ne (by omega), hnew x (by omega)]

/-- **And closed**: it has become the last child. -/
theorem Pending.close {fresh parent a : Nat} {d d' : β} {x : α} {ts ts' : List (RoseTree α)}
    (hp : Pending R h parent d ts a) (ho : Open R h fresh a d' ts') (hd : R d' x) :
    Open R h fresh parent d (ts ++ [.node x ts']) where
  cell := by
    rw [hp.cell, firstAt_concat, lastAt_concat, hp.addr, List.length_append]
    rfl
  sibs := by
    rw [sibsAt_concat, ← hp.addr, TreeAt]
    exact ⟨hp.sibs, ⟨d', hd, ho.cell⟩, ho.sibs⟩
  end_eq := by
    rw [ho.end_eq, hp.addr, sizes_append, sizes_cons, sizes_nil, RoseTree.size]
    omega
  unused := ho.unused

end TreeHeap
