/-
# Substitution in a text

Replacing every occurrence of a plain text `p` by `r`, from left to right, each one found behind
the one before: `string.gsub` with a pattern and a replacement without magic characters.

The rules say how it goes along a text: an occurrence in front is replaced (`gsub_prefix_append`),
a character that starts none is kept (`gsub_cons`), and so is a stretch without the first
character of `p` (`gsub_append_of_not_mem`).  `gsub_induction` is induction along these steps.
-/
import Mathlib.Data.List.Infix
import Mathlib.Tactic.Cases

namespace Gsub

variable {α : Type*} [DecidableEq α]

/-- With `n` characters of an occurrence still to pass over. -/
def gsubFrom (p r : List α) : Nat → List α → List α
  | _, [] => []
  | n + 1, _ :: s => gsubFrom p r n s
  | 0, c :: s =>
    if p <+: c :: s then r ++ gsubFrom p r (p.length - 1) s else c :: gsubFrom p r 0 s

/-- Replace the occurrences of `p`, which is not empty, by `r`. -/
def gsub (p r s : List α) : List α := gsubFrom p r 0 s

/-! ## 1. Along a text -/

@[simp] theorem gsub_nil (p r : List α) : gsub p r [] = [] := rfl

theorem gsubFrom_append (p r s t : List α) : gsubFrom p r s.length (s ++ t) = gsub p r t := by
  induction s with
  | nil => rfl
  | cons c s ih => exact ih

theorem gsub_cons {p : List α} (r : List α) {c : α} {s : List α} (h : ¬ p <+: c :: s) :
    gsub p r (c :: s) = c :: gsub p r s := by
  rw [gsub, gsubFrom, if_neg h, gsub]

theorem gsub_prefix_append {p : List α} (hp : p ≠ []) (r s : List α) :
    gsub p r (p ++ s) = r ++ gsub p r s := by
  cases p with
  | nil => exact absurd rfl hp
  | cons c p =>
    have hpre : c :: p <+: c :: (p ++ s) := List.prefix_append (c :: p) s
    rw [List.cons_append, gsub, gsubFrom, if_pos hpre, List.length_cons, Nat.add_sub_cancel,
      gsubFrom_append]

/-- What a text is, where a pattern is searched: at its end, at an occurrence, or at a character
that starts none. -/
theorem gsub_induction {p : List α} (hp : p ≠ []) {motive : List α → Prop} (nil : motive [])
    (occurrence : ∀ s, motive s → motive (p ++ s))
    (other : ∀ c s, ¬ p <+: c :: s → motive s → motive (c :: s)) (s : List α) : motive s := by
  induction hn : s.length using Nat.strong_induction_on generalizing s with
  | _ n ih =>
    cases s with
    | nil => exact nil
    | cons c s =>
      by_cases hpre : p <+: c :: s
      · obtain ⟨t, ht⟩ := hpre
        have hlt : t.length < n := by
          rw [← hn, ← ht, List.length_append]
          have := List.length_pos_iff.mpr hp
          omega
        rw [← ht]
        exact occurrence t (ih _ hlt t rfl)
      · exact other c s hpre (ih s.length (by rw [← hn]; exact Nat.lt_succ_self _) s rfl)

/-- A stretch that does not have the first character of the pattern is kept. -/
theorem gsub_append_of_not_mem {a : α} {p : List α} (r : List α) {s : List α} (t : List α)
    (h : a ∉ s) : gsub (a :: p) r (s ++ t) = s ++ gsub (a :: p) r t := by
  induction s with
  | nil => rfl
  | cons c s ih =>
    obtain ⟨hc, hs⟩ := List.ne_and_not_mem_of_not_mem_cons h
    rw [List.cons_append, gsub_cons r fun hpre => hc (List.cons_prefix_cons.mp hpre).1, ih hs]
    rfl

/-- A text without an occurrence is kept. -/
theorem gsub_of_not_infix {p : List α} (hp : p ≠ []) (r : List α) {s : List α} (h : ¬ p <:+: s) :
    gsub p r s = s := by
  induction s using gsub_induction hp with
  | nil => rfl
  | occurrence s => exact absurd (List.prefix_append p s).isInfix h
  | other c s hpre ih =>
    rw [gsub_cons r hpre, ih fun hinf => h (List.infix_cons hinf)]

/-- A text with an occurrence has a replacement in it afterwards. -/
theorem infix_gsub {p : List α} (hp : p ≠ []) (r : List α) {s : List α} (h : p <:+: s) :
    r <:+: gsub p r s := by
  induction s using gsub_induction hp with
  | nil => exact absurd (List.infix_nil.mp h) hp
  | occurrence s =>
    rw [gsub_prefix_append hp]
    exact (List.prefix_append r _).isInfix
  | other c s hpre ih =>
    rw [gsub_cons r hpre]
    exact List.infix_cons (ih ((List.infix_cons_iff.mp h).resolve_left hpre))

/-! ## 2. Two characters by two others -/

section Pair

variable {a b c d : α}

/-- The first character of a text stays, or is the first of a replacement. -/
theorem head_gsub_pair (s : List α) :
    (gsub [a, b] [c, d] s).head? = s.head? ∨ (gsub [a, b] [c, d] s).head? = some c := by
  induction s using gsub_induction (List.cons_ne_nil a [b]) with
  | nil => exact Or.inl rfl
  | occurrence s =>
    rw [gsub_prefix_append (List.cons_ne_nil a [b])]
    exact Or.inr rfl
  | other x s hpre =>
    rw [gsub_cons _ hpre]
    exact Or.inl rfl

/-- **Nothing is left to replace**, if a replacement does not end as an occurrence begins or
begin as one ends. -/
theorem not_infix_gsub_pair (hda : d ≠ a) (hcb : c ≠ b) (hca : c ≠ a) (s : List α) :
    ¬ [a, b] <:+: gsub [a, b] [c, d] s := by
  induction s using gsub_induction (List.cons_ne_nil a [b]) with
  | nil => simp
  | occurrence s ih =>
    rw [gsub_prefix_append (List.cons_ne_nil a [b])]
    simp only [List.cons_append, List.nil_append, List.infix_cons_iff, List.cons_prefix_cons,
      not_or]
    exact ⟨fun h => hca h.1.symm, fun h => hda h.1.symm, ih⟩
  | other x s hpre ih =>
    rw [gsub_cons _ hpre, List.infix_cons_iff, not_or]
    refine ⟨?_, ih⟩
    intro h
    obtain ⟨rfl, hb⟩ := List.cons_prefix_cons.mp h
    rw [List.singleton_prefix_iff_head?_eq_some] at hb
    rcases head_gsub_pair (a := a) (b := b) (c := c) (d := d) s with hkeep | hrepl
    · -- then the occurrence was there before
      refine hpre (List.cons_prefix_cons.mpr ⟨rfl, ?_⟩)
      rw [List.singleton_prefix_iff_head?_eq_some, ← hkeep, hb]
    · rw [hrepl] at hb
      exact hcb (Option.some.inj hb)

/-- So a text stays as it is exactly when it has no occurrence. -/
theorem gsub_pair_eq_self_iff (hda : d ≠ a) (hcb : c ≠ b) (hca : c ≠ a) (s : List α) :
    gsub [a, b] [c, d] s = s ↔ ¬ [a, b] <:+: s := by
  constructor
  · intro h
    rw [← h]
    exact not_infix_gsub_pair hda hcb hca s
  · exact gsub_of_not_infix (List.cons_ne_nil a [b]) _

end Pair

end Gsub
