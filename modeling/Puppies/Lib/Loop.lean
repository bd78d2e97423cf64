/-
# Loops that may break

A `for` loop over a list whose body decides, element by element, whether to go on or to break
(`walk`, with its iterations in `visits`), and the loop over an index that fetches its elements
one by one and does not know how many there are (`upto`).  The second one may never end, and is
given a bound on the number of its iterations; `upto_eq_walk` says when it is the first one, so
that the bound is enough.
-/
import Mathlib.Data.List.Basic

namespace BreakLoop

variable {σ α : Type*}

/-- How an iteration ends: with the next one, or with a `break`. -/
inductive Ctl (σ : Type*)
  | next (s : σ)
  | stop (s : σ)

/-- Over the elements of a list, the first one having index `i`. -/
def walk (body : Nat → α → σ → Ctl σ) : Nat → List α → σ → σ
  | _, [], s => s
  | i, x :: xs, s =>
    match body i x s with
    | .next s' => walk body (i + 1) xs s'
    | .stop s' => s'

/-- What the iterations of `walk` are given: index, element and state of each one that is made. -/
def visits (body : Nat → α → σ → Ctl σ) : Nat → List α → σ → List (Nat × α × σ)
  | _, [], _ => []
  | i, x :: xs, s =>
    (i, x, s) ::
      match body i x s with
      | .next s' => visits body (i + 1) xs s'
      | .stop _ => []

/-- Over the indices from `i` on, at most `fuel` of them; `none` if there was no `break`. -/
def upto (body : Nat → σ → Ctl σ) : Nat → Nat → σ → Option σ
  | 0, _, _ => none
  | fuel + 1, i, s =>
    match body i s with
    | .next s' => upto body fuel (i + 1) s'
    | .stop s' => some s'

@[simp] theorem walk_nil (body : Nat → α → σ → Ctl σ) (i : Nat) (s : σ) :
    walk body i [] s = s := rfl

theorem walk_cons_next {body : Nat → α → σ → Ctl σ} {i : Nat} {x : α} {s s' : σ}
    (h : body i x s = .next s') (xs : List α) :
    walk body i (x :: xs) s = walk body (i + 1) xs s' := by
  simp only [walk, h]

theorem walk_cons_stop {body : Nat → α → σ → Ctl σ} {i : Nat} {x : α} {s s' : σ}
    (h : body i x s = .stop s') (xs : List α) : walk body i (x :: xs) s = s' := by
  simp only [walk, h]

theorem visits_cons_next {body : Nat → α → σ → Ctl σ} {i : Nat} {x : α} {s s' : σ}
    (h : body i x s = .next s') (xs : List α) :
    visits body i (x :: xs) s = (i, x, s) :: visits body (i + 1) xs s' := by
  simp only [visits, h]

theorem visits_cons_stop {body : Nat → α → σ → Ctl σ} {i : Nat} {x : α} {s s' : σ}
    (h : body i x s = .stop s') (xs : List α) : visits body i (x :: xs) s = [(i, x, s)] := by
  simp only [visits, h]

/-- **The loop over an index is the loop over a list** when the list has the elements that the
index fetches and the loop breaks right behind them; then one iteration more than the list is
long is enough. -/
theorem upto_eq_walk {ibody : Nat → σ → Ctl σ} {body : Nat → α → σ → Ctl σ} {xs : List α}
    {i fuel : Nat} {s : σ} (hfuel : xs.length < fuel)
    (helem : ∀ k x s, xs[k]? = some x → ibody (i + k) s = body (i + k) x s)
    (hend : ∀ s, ibody (i + xs.length) s = .stop s) :
    upto ibody fuel i s = some (walk body i xs s) := by
  induction xs generalizing i fuel s with
  | nil =>
    obtain ⟨fuel, rfl⟩ := Nat.exists_eq_add_one.mpr hfuel
    have : ibody i s = .stop s := hend s
    simp only [upto, this, walk_nil]
  | cons x xs ih =>
    obtain ⟨fuel, rfl⟩ := Nat.exists_eq_add_one.mpr (Nat.zero_lt_of_lt hfuel)
    have hx : ibody i s = body i x s := helem 0 x s rfl
    cases hb : body i x s with
    | stop s' =>
      rw [walk_cons_stop hb]
      simp only [upto, hx, hb]
    | next s' =>
      rw [walk_cons_next hb]
      simp only [upto, hx, hb]
      refine ih (Nat.lt_of_succ_lt_succ hfuel) ?_ ?_
      · intro k y t hy
        have := helem (k + 1) y t hy
        rwa [← Nat.add_assoc, Nat.add_right_comm] at this
      · intro t
        have := hend t
        rwa [List.length_cons, ← Nat.add_assoc, Nat.add_right_comm] at this

/-- **A loop that breaks at the first element that passes a test is the search for it.** -/
theorem walk_eq_find {body : Nat → α → σ → Ctl σ} {p : α → Bool} {g : α → σ} {s : σ}
    (hnext : ∀ i x, p x = false → body i x s = .next s)
    (hstop : ∀ i x, p x = true → body i x s = .stop (g x)) (i : Nat) (xs : List α) :
    walk body i xs s = (xs.find? p).elim s g := by
  induction xs generalizing i with
  | nil => rfl
  | cons x xs ih =>
    cases hp : p x with
    | true => rw [walk_cons_stop (hstop i x hp), List.find?_cons_of_pos hp, Option.elim_some]
    | false =>
      rw [walk_cons_next (hnext i x hp), List.find?_cons_of_neg (by simp [hp])]
      exact ih (i + 1)

/-- **A loop whose iteration `i` changes part `i` only.**  After the loop over the first `n`
indices, those parts are changed, once each, and the others are as before. -/
theorem foldl_range_view {β : Type*} {f : σ → Nat → σ} {v : σ → Nat → β} {g : Nat → β → β}
    {n : Nat} (hself : ∀ s i, i < n → v (f s i) i = g i (v s i))
    (hframe : ∀ s i j, i < n → i ≠ j → v (f s i) j = v s j) (s : σ) (j : Nat) :
    v ((List.range n).foldl f s) j = if j < n then g j (v s j) else v s j := by
  induction n with
  | zero => rfl
  | succ n ih =>
    have ih := ih (fun s i hi => hself s i (Nat.lt_succ_of_lt hi))
      (fun s i j hi => hframe s i j (Nat.lt_succ_of_lt hi))
    rw [List.range_succ, List.foldl_append, List.foldl_cons, List.foldl_nil]
    rcases Nat.lt_trichotomy j n with h | rfl | h
    · rw [hframe _ n j n.lt_succ_self (Nat.ne_of_gt h), ih, if_pos h, if_pos (by omega)]
    · rw [hself _ j j.lt_succ_self, ih, if_neg (Nat.lt_irrefl j), if_pos j.lt_succ_self]
    · rw [hframe _ n j n.lt_succ_self (Nat.ne_of_lt h), ih, if_neg (by omega), if_neg (by omega)]

end BreakLoop
