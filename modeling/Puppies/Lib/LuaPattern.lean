/-
# Patterns of Lua

A pattern is a list of items: a class of characters, alone or repeated (`*`, `+` and the lazy `-`),
the two ends of a capture, and `$`.  `matchAt` is the matcher of the library, which backtracks: a
repetition tries the most it can take first (`maxExpand`) or, if it is lazy, the least
(`minExpand`), and what comes behind it decides.  `search` tries one place after the other, and
`gmatch` goes on behind each match.

What is found is a match (`matches_of_matchAt`), with `Matches` the meaning of a pattern without
any order of trials.  The other way round, which of several matches is found: where what is behind
a repetition takes none of its characters there is nothing to choose (`maxExpand_of_disjoint`);
otherwise the most wins if it leads on (`maxExpand_of_some`), or the least (`minExpand_append`).
-/
import Mathlib.Data.List.Infix

namespace LuaPattern

variable {α β : Type*}

/-! ## 1. The matcher -/

/-- An item of a pattern.  A class is given as a test. -/
inductive Item (α : Type*) where
  | one (p : α → Bool)
  /-- `*` -/
  | rep (p : α → Bool)
  /-- `+` -/
  | rep1 (p : α → Bool)
  /-- `-` -/
  | lazy (p : α → Bool)
  | openCap
  | closeCap
  /-- `$` -/
  | atEnd

/-- As many characters as there are, then as many as let `k` go on. -/
def maxExpand (p : α → Bool) (k : List α → Option β) : List α → Option β
  | [] => k []
  | c :: s => if p c then (maxExpand p k s).or (k (c :: s)) else k (c :: s)

/-- As few as let `k` go on. -/
def minExpand (p : α → Bool) (k : List α → Option β) : List α → Option β
  | [] => k []
  | c :: s => (k (c :: s)).or (if p c then minExpand p k s else none)

/-- Match at the start of a text.  `o` is the text from the capture on that was opened last,
`caps` are the captures that are closed.  The result is the captures, and what is left. -/
def matchAt : List (Item α) → List α → List (List α) → List α → Option (List (List α) × List α)
  | [], _, caps, s => some (caps, s)
  | .one p :: is, o, caps, s =>
    match s with
    | [] => none
    | c :: s => if p c then matchAt is o caps s else none
  | .rep p :: is, o, caps, s => maxExpand p (fun t => matchAt is o caps t) s
  | .rep1 p :: is, o, caps, s =>
    match s with
    | [] => none
    | c :: s => if p c then maxExpand p (fun t => matchAt is o caps t) s else none
  | .lazy p :: is, o, caps, s => minExpand p (fun t => matchAt is o caps t) s
  | .openCap :: is, _, caps, s => matchAt is s caps s
  | .closeCap :: is, o, caps, s => matchAt is o (caps ++ [o.take (o.length - s.length)]) s
  | .atEnd :: is, o, caps, s => if s.isEmpty then matchAt is o caps s else none

/-- The pattern with `^`. -/
def anchored (is : List (Item α)) (s : List α) : Option (List (List α) × List α) :=
  matchAt is s [] s

/-- The first place where the pattern matches. -/
def search (is : List (Item α)) : List α → Option (List (List α) × List α)
  | [] => anchored is []
  | c :: s => (anchored is (c :: s)).or (search is s)

/-- `string.gmatch`, with `n` places to try.  Behind an empty match it goes on one place further. -/
def gmatchFrom (is : List (Item α)) : Nat → List α → List (List (List α))
  | 0, _ => []
  | n + 1, s =>
    match anchored is s with
    | some (caps, rest) =>
      caps :: if rest.length < s.length then gmatchFrom is n rest
        else match s with
          | [] => []
          | _ :: s => gmatchFrom is n s
    | none =>
      match s with
      | [] => []
      | _ :: s => gmatchFrom is n s

/-- The captures of the matches, from left to right. -/
def gmatch (is : List (Item α)) (s : List α) : List (List (List α)) :=
  gmatchFrom is (s.length + 1) s

/-! ## 2. What is found is a match -/

/-- The meaning of a pattern: `r` is the captures and what is left. -/
def Matches : List (Item α) → List α → List (List α) → List α → List (List α) × List α → Prop
  | [], _, caps, s, r => r = (caps, s)
  | .one p :: is, o, caps, s, r => ∃ c t, s = c :: t ∧ p c = true ∧ Matches is o caps t r
  | .rep p :: is, o, caps, s, r =>
    ∃ w t, s = w ++ t ∧ (∀ c ∈ w, p c = true) ∧ Matches is o caps t r
  | .rep1 p :: is, o, caps, s, r =>
    ∃ w t, s = w ++ t ∧ w ≠ [] ∧ (∀ c ∈ w, p c = true) ∧ Matches is o caps t r
  | .lazy p :: is, o, caps, s, r =>
    ∃ w t, s = w ++ t ∧ (∀ c ∈ w, p c = true) ∧ Matches is o caps t r
  | .openCap :: is, _, caps, s, r => Matches is s caps s r
  | .closeCap :: is, o, caps, s, r =>
    Matches is o (caps ++ [o.take (o.length - s.length)]) s r
  | .atEnd :: is, o, caps, s, r => s = [] ∧ Matches is o caps s r

/-- What `maxExpand` takes. -/
theorem maxExpand_eq_some {p : α → Bool} {k : List α → Option β} {s : List α} {r : β}
    (h : maxExpand p k s = some r) :
    ∃ w t, s = w ++ t ∧ (∀ c ∈ w, p c = true) ∧ k t = some r := by
  induction s with
  | nil => exact ⟨[], [], rfl, by simp, h⟩
  | cons c s ih =>
    rw [maxExpand] at h
    by_cases hc : p c = true
    · rw [if_pos hc, Option.or_eq_some_iff] at h
      rcases h with h | ⟨-, h⟩
      · obtain ⟨w, t, rfl, hw, ht⟩ := ih h
        exact ⟨c :: w, t, rfl, List.forall_mem_cons.mpr ⟨hc, hw⟩, ht⟩
      · exact ⟨[], c :: s, rfl, by simp, h⟩
    · rw [if_neg hc] at h
      exact ⟨[], c :: s, rfl, by simp, h⟩

/-- What `minExpand` takes. -/
theorem minExpand_eq_some {p : α → Bool} {k : List α → Option β} {s : List α} {r : β}
    (h : minExpand p k s = some r) :
    ∃ w t, s = w ++ t ∧ (∀ c ∈ w, p c = true) ∧ k t = some r := by
  induction s with
  | nil => exact ⟨[], [], rfl, by simp, h⟩
  | cons c s ih =>
    rw [minExpand, Option.or_eq_some_iff] at h
    rcases h with h | ⟨-, h⟩
    · exact ⟨[], c :: s, rfl, by simp, h⟩
    · by_cases hc : p c = true
      · rw [if_pos hc] at h
        obtain ⟨w, t, rfl, hw, ht⟩ := ih h
        exact ⟨c :: w, t, rfl, List.forall_mem_cons.mpr ⟨hc, hw⟩, ht⟩
      · rw [if_neg hc] at h
        cases h

/-- **What is found is a match.** -/
theorem matches_of_matchAt {is : List (Item α)} {o : List α} {caps : List (List α)} {s : List α}
    {r : List (List α) × List α} (h : matchAt is o caps s = some r) : Matches is o caps s r := by
  induction is generalizing o caps s with
  | nil => exact (Option.some.inj h).symm
  | cons i is ih =>
    cases i with
    | one p =>
      cases s with
      | nil => cases h
      | cons c s =>
        obtain ⟨hc, h⟩ := Option.ite_none_right_eq_some.mp h
        exact ⟨c, s, rfl, hc, ih h⟩
    | rep p =>
      obtain ⟨w, t, hs, hw, h⟩ := maxExpand_eq_some h
      exact ⟨w, t, hs, hw, ih h⟩
    | rep1 p =>
      cases s with
      | nil => cases h
      | cons c s =>
        obtain ⟨hc, h⟩ := Option.ite_none_right_eq_some.mp h
        obtain ⟨w, t, rfl, hw, h⟩ := maxExpand_eq_some h
        exact ⟨c :: w, t, rfl, by simp, List.forall_mem_cons.mpr ⟨hc, hw⟩, ih h⟩
    | lazy p =>
      obtain ⟨w, t, hs, hw, h⟩ := minExpand_eq_some h
      exact ⟨w, t, hs, hw, ih h⟩
    | openCap => exact ih h
    | closeCap => exact ih h
    | atEnd =>
      obtain ⟨hs, h⟩ := Option.ite_none_right_eq_some.mp h
      exact ⟨List.isEmpty_iff.mp hs, ih h⟩

/-- What a search finds, it finds somewhere. -/
theorem suffix_of_search {is : List (Item α)} {s : List α} {r : List (List α) × List α}
    (h : search is s = some r) : ∃ t, t <:+ s ∧ anchored is t = some r := by
  induction s with
  | nil => exact ⟨[], List.suffix_rfl, h⟩
  | cons c s ih =>
    rw [search, Option.or_eq_some_iff] at h
    rcases h with h | ⟨-, h⟩
    · exact ⟨c :: s, List.suffix_rfl, h⟩
    · obtain ⟨t, ht, h⟩ := ih h
      exact ⟨t, ht.trans (List.suffix_cons c s), h⟩

/-! ## 3. Which match is found -/

/-- **Nothing to choose**: what is behind the repetition takes none of its characters. -/
theorem maxExpand_of_disjoint {p : α → Bool} {k : List α → Option β}
    (h : ∀ c t, p c = true → k (c :: t) = none) (s : List α) :
    maxExpand p k s = k (s.dropWhile p) := by
  induction s with
  | nil => rfl
  | cons c s ih =>
    rw [maxExpand, List.dropWhile_cons]
    by_cases hc : p c = true
    · rw [if_pos hc, if_pos hc, ih, h c s hc, Option.or_none]
    · rw [if_neg hc, if_neg hc]

/-- **The most**, if it leads on. -/
theorem maxExpand_of_some {p : α → Bool} {k : List α → Option β} {s : List α} {r : β}
    (h : k (s.dropWhile p) = some r) : maxExpand p k s = some r := by
  induction s with
  | nil => exact h
  | cons c s ih =>
    rw [List.dropWhile_cons] at h
    rw [maxExpand]
    by_cases hc : p c = true
    · rw [if_pos hc] at h ⊢
      rw [ih h, Option.some_or]
    · rw [if_neg hc] at h ⊢
      exact h

/-- **The least**: it passes over what leads on at no character. -/
theorem minExpand_append {p : α → Bool} {k : List α → Option β} {w t : List α}
    (hw : ∀ c ∈ w, p c = true) (h : ∀ c ∈ w, ∀ u, k (c :: u) = none) :
    minExpand p k (w ++ t) = minExpand p k t := by
  induction w with
  | nil => rfl
  | cons c w ih =>
    rw [List.forall_mem_cons] at hw h
    rw [List.cons_append, minExpand, h.1, Option.none_or, if_pos hw.1, ih hw.2 h.2]

/-- It stops where `k` leads on. -/
theorem minExpand_of_some {p : α → Bool} {k : List α → Option β} {s : List α} {r : β}
    (h : k s = some r) : minExpand p k s = some r := by
  cases s with
  | nil => exact h
  | cons c s => rw [minExpand, h, Option.some_or]

/-- A repetition takes `w`, if what is behind it matches there and at none of its characters. -/
theorem matchAt_rep_append {p : α → Bool} {is : List (Item α)} {o : List α} {caps : List (List α)}
    {w t : List α} {r : List (List α) × List α} (hw : ∀ c ∈ w, p c = true)
    (hdisj : ∀ c u, p c = true → matchAt is o caps (c :: u) = none)
    (h : matchAt is o caps t = some r) : matchAt (.rep p :: is) o caps (w ++ t) = some r := by
  rw [matchAt, maxExpand_of_disjoint hdisj, List.dropWhile_append_of_pos hw]
  cases t with
  | nil => exact h
  | cons c t =>
    have hc : ¬ p c = true := fun hc => Option.some_ne_none r (h ▸ hdisj c t hc)
    rw [List.dropWhile_cons_of_neg hc, h]

theorem matchAt_rep1_append {p : α → Bool} {is : List (Item α)} {o : List α}
    {caps : List (List α)} {w t : List α} {r : List (List α) × List α} (hne : w ≠ [])
    (hw : ∀ c ∈ w, p c = true) (hdisj : ∀ c u, p c = true → matchAt is o caps (c :: u) = none)
    (h : matchAt is o caps t = some r) : matchAt (.rep1 p :: is) o caps (w ++ t) = some r := by
  cases w with
  | nil => exact absurd rfl hne
  | cons c w =>
    rw [List.forall_mem_cons] at hw
    rw [List.cons_append, matchAt, if_pos hw.1]
    exact matchAt_rep_append hw.2 hdisj h

/-- The items of a plain text. -/
def literal [DecidableEq α] (s : List α) : List (Item α) := s.map fun c => .one (· = c)

theorem matchAt_literal_append [DecidableEq α] (s : List α) (is : List (Item α)) (o : List α)
    (caps : List (List α)) (t : List α) :
    matchAt (literal s ++ is) o caps (s ++ t) = matchAt is o caps t := by
  induction s with
  | nil => rfl
  | cons c s ih =>
    rw [← ih]
    exact if_pos (decide_eq_true rfl)

theorem matches_literal_append [DecidableEq α] {s : List α} {is : List (Item α)} {o : List α}
    {caps : List (List α)} {t : List α} {r : List (List α) × List α}
    (h : Matches (literal s ++ is) o caps t r) : ∃ u, t = s ++ u ∧ Matches is o caps u r := by
  induction s generalizing t with
  | nil => exact ⟨t, rfl, h⟩
  | cons c s ih =>
    obtain ⟨c', t', rfl, hc, h⟩ := h
    obtain rfl := of_decide_eq_true hc
    obtain ⟨u, hu, hrest⟩ := ih h
    exact ⟨u, by rw [hu, List.cons_append], hrest⟩

/-- A search passes over what no match begins in. -/
theorem search_append {is : List (Item α)} {w t : List α}
    (h : ∀ u, u <:+ w → u ≠ [] → anchored is (u ++ t) = none) :
    search is (w ++ t) = search is t := by
  induction w with
  | nil => rfl
  | cons c w ih =>
    have hw : anchored is (c :: (w ++ t)) = none := h (c :: w) List.suffix_rfl (by simp)
    rw [List.cons_append, search, hw, Option.none_or]
    exact ih fun u hu hne => h u (hu.trans (List.suffix_cons c w)) hne

theorem search_of_anchored {is : List (Item α)} {s : List α} {r : List (List α) × List α}
    (h : anchored is s = some r) : search is s = some r := by
  cases s with
  | nil => exact h
  | cons c s => rw [search, h, Option.some_or]

/-- It goes on behind a match. -/
theorem gmatchFrom_of_anchored {is : List (Item α)} {n : Nat} {s rest : List α}
    {caps : List (List α)} (h : anchored is s = some (caps, rest))
    (hlt : rest.length < s.length) :
    gmatchFrom is (n + 1) s = caps :: gmatchFrom is n rest := by
  cases s with
  | nil => cases hlt
  | cons c s =>
    simp only [gmatchFrom, h]
    rw [if_pos hlt]

/-- At the end there may be no match left. -/
theorem gmatchFrom_nil {is : List (Item α)} (h : anchored is [] = none) (n : Nat) :
    gmatchFrom is n [] = [] := by
  cases n with
  | zero => rfl
  | succ n => simp only [gmatchFrom, h]

/-- The text of a capture that is closed behind `w`. -/
@[simp] theorem take_capture (w t : List α) : (w ++ t).take ((w ++ t).length - t.length) = w := by
  rw [List.length_append, Nat.add_sub_cancel, List.take_left]

end LuaPattern
