/-
# Blocks that are replaced under their readers

A block of memory is reached through one shared pointer.  Readers load the pointer and use what it
points at.  A writer who replaces the block takes the old one out of the pointer, WAITS until every
reader has left who was there when the wait began, and only then gives the block back.

Two things have to be right, and they are independent of each other.

* Every block belongs to exactly one place: the pointer, or one of the hands it passes through
  (`Owned`).  A block that two places have is given back twice, one that none has never.  Moving a
  block keeps this; storing over a place keeps it exactly when the place is empty
  (`Owned.put_iff`), and taking out what was seen before exactly when it is still there
  (`Owned.take_iff`).
* What a reader has is in the pointer, or in the hands of a writer who waits for this reader or
  has not begun to wait (`Guarded`).  So when the wait is over, nobody has the block any more
  (`Guarded.not_held`).
-/
import Mathlib.Data.Finset.Basic
import Mathlib.Logic.Function.Basic

namespace Rcu

variable {ρ κ ι ω : Type*}

/-! ## 1. Who has a block -/

/-- The blocks in memory are those that some place has, and no block is in two places. -/
structure Owned (own : ρ → Option κ) (live : κ → Prop) : Prop where
  live_iff : ∀ b, live b ↔ ∃ o, own o = some b
  unique : ∀ o o' b, own o = some b → own o' = some b → o = o'

namespace Owned

variable {own : ρ → Option κ} {live : κ → Prop}

theorem live_of_own (h : Owned own live) {o : ρ} {b : κ} (ho : own o = some b) : live b :=
  (h.live_iff b).mpr ⟨o, ho⟩

theorem own_ne (h : Owned own live) {o o' : ρ} {b : κ} (ho : own o = some b) (hne : o' ≠ o) :
    own o' ≠ some b := fun ho' => hne (h.unique o' o b ho' ho)

/-- Nobody has anything, and nothing is in memory. -/
theorem empty (hown : ∀ o, own o = none) (hlive : ∀ b, ¬ live b) : Owned own live := by
  constructor
  · intro b
    refine ⟨fun hb => absurd hb (hlive b), ?_⟩
    rintro ⟨o, ho⟩
    rw [hown] at ho
    exact absurd ho (by simp)
  · intro o o' b ho
    rw [hown] at ho
    exact absurd ho (by simp)

variable [DecidableEq ρ]

/-- A new block, for a place that has none. -/
theorem alloc (h : Owned own live) {o : ρ} {b : κ} (ho : own o = none) (hb : ¬ live b)
    {live' : κ → Prop} (hlive : ∀ c, live' c ↔ c = b ∨ live c) :
    Owned (Function.update own o (some b)) live' := by
  have hother : ∀ o', own o' ≠ some b := fun o' ho' => hb (h.live_of_own ho')
  constructor
  · intro c
    rw [hlive, h.live_iff]
    constructor
    · rintro (rfl | ⟨o', ho'⟩)
      · exact ⟨o, Function.update_self ..⟩
      · have hne : o' ≠ o := by
          rintro rfl
          rw [ho] at ho'
          exact absurd ho' (by simp)
        exact ⟨o', by rw [Function.update_of_ne hne, ho']⟩
    · rintro ⟨o', ho'⟩
      rcases eq_or_ne o' o with rfl | hne
      · rw [Function.update_self] at ho'
        exact Or.inl (Option.some.inj ho').symm
      · rw [Function.update_of_ne hne] at ho'
        exact Or.inr ⟨o', ho'⟩
  · intro o₁ o₂ c h₁ h₂
    rcases eq_or_ne o₁ o with rfl | hne₁
    · rcases eq_or_ne o₂ o₁ with rfl | hne₂
      · rfl
      · rw [Function.update_self] at h₁
        rw [Function.update_of_ne hne₂, ← Option.some.inj h₁] at h₂
        exact absurd h₂ (hother o₂)
    · rw [Function.update_of_ne hne₁] at h₁
      rcases eq_or_ne o₂ o with rfl | hne₂
      · rw [Function.update_self] at h₂
        rw [← Option.some.inj h₂] at h₁
        exact absurd h₁ (hother o₁)
      · rw [Function.update_of_ne hne₂] at h₂
        exact h.unique o₁ o₂ c h₁ h₂

/-- A place gives its block back. -/
theorem free (h : Owned own live) {o : ρ} {b : κ} (ho : own o = some b) {live' : κ → Prop}
    (hlive : ∀ c, live' c ↔ c ≠ b ∧ live c) : Owned (Function.update own o none) live' := by
  have hown : ∀ o' c, Function.update own o none o' = some c ↔ o' ≠ o ∧ own o' = some c := by
    intro o' c
    rcases eq_or_ne o' o with rfl | hne
    · simp
    · simp [hne]
  constructor
  · intro c
    rw [hlive, h.live_iff]
    constructor
    · rintro ⟨hcb, o', ho'⟩
      have hne : o' ≠ o := by
        rintro rfl
        exact hcb (Option.some.inj (ho'.symm.trans ho))
      exact ⟨o', (hown o' c).mpr ⟨hne, ho'⟩⟩
    · rintro ⟨o', ho'⟩
      obtain ⟨hne, ho'⟩ := (hown o' c).mp ho'
      refine ⟨?_, o', ho'⟩
      rintro rfl
      exact h.own_ne ho hne ho'
  · intro o₁ o₂ c h₁ h₂
    exact h.unique o₁ o₂ c ((hown o₁ c).mp h₁).2 ((hown o₂ c).mp h₂).2

/-- A block changes hands. -/
theorem move (h : Owned own live) {o o' : ρ} (hne : o ≠ o') (ho' : own o' = none) :
    Owned (Function.update (Function.update own o none) o' (own o)) live := by
  have hown : ∀ p c, Function.update (Function.update own o none) o' (own o) p = some c ↔
      own (Equiv.swap o o' p) = some c := by
    intro p c
    rcases eq_or_ne p o' with rfl | hp'
    · rw [Function.update_self, Equiv.swap_apply_right]
    · rw [Function.update_of_ne hp']
      rcases eq_or_ne p o with rfl | hp
      · rw [Function.update_self, Equiv.swap_apply_left, ho']
      · rw [Function.update_of_ne hp, Equiv.swap_apply_of_ne_of_ne hp hp']
  constructor
  · intro c
    rw [h.live_iff]
    constructor
    · rintro ⟨p, hp⟩
      exact ⟨Equiv.swap o o' p, (hown _ c).mpr (by rwa [Equiv.swap_apply_self])⟩
    · rintro ⟨p, hp⟩
      exact ⟨_, (hown p c).mp hp⟩
  · intro p q c hp hq
    exact (Equiv.swap o o').injective
      (h.unique _ _ c ((hown p c).mp hp) ((hown q c).mp hq))

/-- **Taking out what was seen.**  A place is emptied, and another one, which has nothing, gets what
was seen there before. -/
theorem take_iff (h : Owned own live) {o o' : ρ} (hne : o ≠ o') (ho' : own o' = none)
    {x : Option κ} :
    Owned (Function.update (Function.update own o none) o' x) live ↔ own o = x := by
  constructor
  · intro h'
    have hget : ∀ p c, Function.update (Function.update own o none) o' x p = some c →
        p = o' ∨ own p = some c := by
      intro p c hp
      rcases eq_or_ne p o' with rfl | hp'
      · exact Or.inl rfl
      · rw [Function.update_of_ne hp'] at hp
        rcases eq_or_ne p o with rfl | hpo
        · rw [Function.update_self] at hp
          exact absurd hp (by simp)
        · rw [Function.update_of_ne hpo] at hp
          exact Or.inr hp
    cases ho : own o with
    | some b =>
      -- the block is in memory, so somebody has it: only the other place can
      obtain ⟨p, hp⟩ := (h'.live_iff b).mp (h.live_of_own ho)
      rcases hget p b hp with rfl | hpb
      · rw [← hp, Function.update_self]
      · have hpo : p = o := h.unique p o b hpb ho
        rw [hpo, Function.update_of_ne hne, Function.update_self] at hp
        exact absurd hp (by simp)
    | none =>
      cases x with
      | none => rfl
      | some b =>
        -- nobody had the block, or somebody else still has it
        obtain ⟨p, hp⟩ := (h.live_iff b).mp (h'.live_of_own (Function.update_self ..))
        have hpo' : p ≠ o' := by
          rintro rfl
          rw [ho'] at hp
          exact absurd hp (by simp)
        have hpo : p ≠ o := by
          rintro rfl
          rw [ho] at hp
          exact absurd hp (by simp)
        refine absurd (h'.unique p o' b ?_ (Function.update_self ..)) hpo'
        rw [Function.update_of_ne hpo', Function.update_of_ne hpo, hp]
  · rintro rfl
    exact h.move hne ho'

/-- **Storing over a place.**  A place gives what it has to another one. -/
theorem put_iff (h : Owned own live) {o o' : ρ} (hne : o ≠ o') :
    Owned (Function.update (Function.update own o none) o' (own o)) live ↔ own o' = none := by
  constructor
  · intro h'
    cases ho' : own o' with
    | none => rfl
    | some b =>
      -- what was there is in memory, and nobody has it
      obtain ⟨p, hp⟩ := (h'.live_iff b).mp (h.live_of_own ho')
      have hpb : own p = some b ∧ p ≠ o' ∨ own o = some b := by
        rcases eq_or_ne p o' with rfl | hp'
        · rw [Function.update_self] at hp
          exact Or.inr hp
        · rw [Function.update_of_ne hp'] at hp
          rcases eq_or_ne p o with rfl | hpo
          · rw [Function.update_self] at hp
            exact absurd hp (by simp)
          · rw [Function.update_of_ne hpo] at hp
            exact Or.inl ⟨hp, hp'⟩
      rcases hpb with ⟨hp', hne'⟩ | ho
      · exact absurd hp' (h.own_ne ho' hne')
      · exact absurd ho (h.own_ne ho' hne)
  · exact h.move hne

end Owned

/-! ## 2. Who may still look at it -/

/-- What a reader has is in the pointer, or a writer took it out who has not begun to wait or waits
for this reader.  `waits w` is who the writer `w` waits for. -/
def Guarded (cell : Option κ) (out : ω → Option κ) (waits : ω → Option (Finset ι))
    (held : ι → κ → Prop) : Prop :=
  ∀ i b, held i b → cell = some b ∨ ∃ w, out w = some b ∧ ∀ f, waits w = some f → i ∈ f

namespace Guarded

variable {cell : Option κ} {out : ω → Option κ} {waits : ω → Option (Finset ι)}
  {held held' : ι → κ → Prop}

/-- Readers load the pointer, and forget. -/
theorem load (h : Guarded cell out waits held)
    (hheld : ∀ i b, held' i b → held i b ∨ cell = some b) : Guarded cell out waits held' := by
  intro i b hb
  rcases hheld i b hb with hold | hcell
  · exact h i b hold
  · exact Or.inl hcell

/-- **When the wait is over, nobody has the block**, if it is in no other hands. -/
theorem not_held (h : Guarded cell out waits held) {w : ω} {b : κ}
    (hw : waits w = some ∅) (hcell : cell ≠ some b) (hout : ∀ w', out w' = some b → w' = w)
    (i : ι) : ¬ held i b := by
  intro hb
  rcases h i b hb with hc | ⟨w', hw', hf⟩
  · exact hcell hc
  · obtain rfl := hout w' hw'
    exact absurd (hf ∅ hw) (Finset.notMem_empty i)

/-- A writer puts a block into the pointer, which is empty. -/
theorem publish (h : Guarded none out waits held) (b : κ) :
    Guarded (some b) out waits held := by
  intro i c hc
  rcases h i c hc with hn | hw
  · exact absurd hn (by simp)
  · exact Or.inr hw

/-- A reader leaves: it has nothing any more, and nobody waits for it. -/
theorem leave [DecidableEq ι] (h : Guarded cell out waits held) (i : ι) :
    Guarded cell out (fun w => (waits w).map fun f => f.erase i)
      (fun j b => j ≠ i ∧ held j b) := by
  rintro j b ⟨hne, hb⟩
  rcases h j b hb with hc | ⟨w, hw, hf⟩
  · exact Or.inl hc
  · refine Or.inr ⟨w, hw, ?_⟩
    intro f hf'
    obtain ⟨f', hf'', rfl⟩ := Option.map_eq_some_iff.mp hf'
    exact Finset.mem_erase.mpr ⟨hne, hf f' hf''⟩

variable [DecidableEq ω]

/-- A writer who does not wait takes the block out. -/
theorem unlink (h : Guarded cell out waits held) {w : ω} (hout : out w = none)
    (hw : waits w = none) : Guarded none (Function.update out w cell) waits held := by
  intro i b hb
  right
  rcases h i b hb with hc | ⟨w', hw', hf⟩
  · refine ⟨w, by rw [Function.update_self, hc], ?_⟩
    intro f hf
    rw [hw] at hf
    exact absurd hf (by simp)
  · have hne : w' ≠ w := by
      rintro rfl
      rw [hout] at hw'
      exact absurd hw' (by simp)
    exact ⟨w', by rw [Function.update_of_ne hne, hw'], hf⟩

/-- A writer begins to wait, for everybody who is there. -/
theorem wait (h : Guarded cell out waits held) {inside : Finset ι}
    (hin : ∀ i b, held i b → i ∈ inside) (w : ω) :
    Guarded cell out (Function.update waits w (some inside)) held := by
  intro i b hb
  rcases h i b hb with hc | ⟨w', hw', hf⟩
  · exact Or.inl hc
  · refine Or.inr ⟨w', hw', ?_⟩
    intro f hf'
    rcases eq_or_ne w' w with rfl | hne
    · rw [Function.update_self] at hf'
      exact Option.some.inj hf' ▸ hin i b hb
    · rw [Function.update_of_ne hne] at hf'
      exact hf f hf'

/-- The wait is over and the block is given back: nobody had it. -/
theorem reclaim (h : Guarded cell out waits held) {w : ω}
    (hnot : ∀ i b, out w = some b → ¬ held i b) :
    Guarded cell (Function.update out w none) (Function.update waits w none) held := by
  intro i b hb
  rcases h i b hb with hc | ⟨w', hw', hf⟩
  · exact Or.inl hc
  · have hne : w' ≠ w := by
      rintro rfl
      exact hnot i b hw' hb
    exact Or.inr ⟨w', by rw [Function.update_of_ne hne, hw'],
      by rw [Function.update_of_ne hne]; exact hf⟩

end Guarded

end Rcu
