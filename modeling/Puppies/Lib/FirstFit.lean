/-
# Visitors and the first rule that fits

A list of rules is in use.  Whoever comes is given the FIRST rule that fits what he brings, and
keeps that rule, whatever he brings later, until the list is replaced; what a rule does may depend
on the status of the visitor and may change it.  `Policy.visit` is one visit, and `Policy.step` an
event of any visitor.

Visitors do not notice each other (`answersOf_visits`): what one of them is answered, and what
becomes of him, is what it would be if he were alone (`Policy.alone`).  And for one who is alone
there are two cases (`Policy.alone_cases`): no rule ever fits; or from the first visit on at which
one does, everything is done by that one rule.
-/
import Mathlib.Logic.Function.Basic
import Puppies.Lib.Runs

namespace FirstFit

open EventRun

variable {ι ρ π σ ω : Type*}

/-! ## 1. The machine -/

/-- Which rules fit, and what they do. -/
structure Policy (ρ π σ ω : Type*) where
  fits : ρ → π → Bool
  /-- the new status, and the answer -/
  act : ρ → π → σ → σ × ω
  /-- the answer when there is no rule -/
  pass : ω

/-- A visitor. -/
structure Visitor (ρ σ : Type*) where
  /-- the rule that he was given -/
  given : Option ρ
  status : σ

/-- The rules in use, and the visitors. -/
structure Office (ι ρ σ : Type*) where
  rules : List ρ
  visitor : ι → Visitor ρ σ

/-- What happens. -/
inductive Event (ι ρ π : Type*)
  /-- other rules are used from now on -/
  | replace (rules : List ρ)
  /-- a visitor is given a rule anew, if one fits -/
  | look (i : ι) (x : π)
  | visit (i : ι) (x : π)
  | idle

namespace Policy

variable (p : Policy ρ π σ ω)

/-- The first rule that fits. -/
def find (rules : List ρ) (x : π) : Option ρ := rules.find? fun r => p.fits r x

/-- One visit. -/
def visit (rules : List ρ) (v : Visitor ρ σ) (x : π) : Visitor ρ σ × ω :=
  match v.given.or (p.find rules x) with
  | none => (v, p.pass)
  | some r => (⟨some r, (p.act r x v.status).1⟩, (p.act r x v.status).2)

/-- One event, with its answer. -/
def step [DecidableEq ι] (o : Office ι ρ σ) : Event ι ρ π → Office ι ρ σ × ω
  | .replace rules => (⟨rules, fun i => ⟨none, (o.visitor i).status⟩⟩, p.pass)
  | .look i x =>
    match p.find o.rules x with
    | none => (o, p.pass)
    | some r =>
      ({ o with visitor := Function.update o.visitor i ⟨some r, (o.visitor i).status⟩ }, p.pass)
  | .visit i x =>
    let (v, answer) := p.visit o.rules (o.visitor i) x
    ({ o with visitor := Function.update o.visitor i v }, answer)
  | .idle => (o, p.pass)

/-- The visits of one who is alone. -/
def alone (rules : List ρ) : Visitor ρ σ → List π → Visitor ρ σ × List ω
  | v, [] => (v, [])
  | v, x :: xs =>
    let (v, answer) := p.visit rules v x
    let (v, answers) := alone rules v xs
    (v, answer :: answers)

/-- What one rule does at all these visits. -/
def acts (r : ρ) : σ → List π → σ × List ω
  | s, [] => (s, [])
  | s, x :: xs =>
    let (s, answer) := p.act r x s
    let (s, answers) := acts r s xs
    (s, answer :: answers)

end Policy

/-! ## 2. One visitor -/

namespace Policy

variable {p : Policy ρ π σ ω} {rules : List ρ}

@[simp] theorem visit_given (r : ρ) (s : σ) (x : π) :
    p.visit rules ⟨some r, s⟩ x = (⟨some r, (p.act r x s).1⟩, (p.act r x s).2) := rfl

theorem visit_of_find {v : Visitor ρ σ} {x : π} {r : ρ} (hv : v.given = none)
    (h : p.find rules x = some r) :
    p.visit rules v x = (⟨some r, (p.act r x v.status).1⟩, (p.act r x v.status).2) := by
  rw [visit, hv, Option.none_or, h]

theorem visit_of_not_find {v : Visitor ρ σ} {x : π} (hv : v.given = none)
    (h : p.find rules x = none) : p.visit rules v x = (v, p.pass) := by
  rw [visit, hv, Option.none_or, h]

@[simp] theorem alone_nil (v : Visitor ρ σ) : p.alone rules v [] = (v, []) := rfl

theorem alone_cons (v : Visitor ρ σ) (x : π) (xs : List π) :
    p.alone rules v (x :: xs) =
      ((p.alone rules (p.visit rules v x).1 xs).1,
        (p.visit rules v x).2 :: (p.alone rules (p.visit rules v x).1 xs).2) := rfl

theorem acts_cons (r : ρ) (s : σ) (x : π) (xs : List π) :
    p.acts r s (x :: xs) = ((p.acts r (p.act r x s).1 xs).1,
      (p.act r x s).2 :: (p.acts r (p.act r x s).1 xs).2) := rfl

/-- **A rule that was given is kept.** -/
theorem alone_given (r : ρ) (s : σ) (xs : List π) :
    p.alone rules ⟨some r, s⟩ xs = (⟨some r, (p.acts r s xs).1⟩, (p.acts r s xs).2) := by
  induction xs generalizing s with
  | nil => rfl
  | cons x xs ih => rw [alone_cons, visit_given, ih, acts_cons]

/-- While no rule fits, nothing happens. -/
theorem alone_append_of_not_find {v : Visitor ρ σ} (hv : v.given = none) {ys : List π}
    (h : ∀ y ∈ ys, p.find rules y = none) (xs : List π) :
    p.alone rules v (ys ++ xs) =
      ((p.alone rules v xs).1, ys.map (fun _ => p.pass) ++ (p.alone rules v xs).2) := by
  induction ys with
  | nil => rfl
  | cons y ys ih =>
    have hy := visit_of_not_find hv (h y List.mem_cons_self)
    rw [List.cons_append, alone_cons, hy, ih fun z hz => h z (List.mem_cons_of_mem y hz),
      List.map_cons, List.cons_append]

/-- Where a list has an element of some kind, it has a first one. -/
theorem exists_first (rules : List ρ) (xs : List π) : (∀ x ∈ xs, p.find rules x = none) ∨
    ∃ ys x zs r, xs = ys ++ x :: zs ∧ (∀ y ∈ ys, p.find rules y = none) ∧
      p.find rules x = some r := by
  induction xs with
  | nil => exact Or.inl fun x hx => absurd hx List.not_mem_nil
  | cons x xs ih =>
    cases hx : p.find rules x with
    | some r => exact Or.inr ⟨[], x, xs, r, rfl, fun y hy => absurd hy List.not_mem_nil, hx⟩
    | none =>
      rcases ih with hall | ⟨ys, y, zs, r, rfl, hys, hy⟩
      · exact Or.inl (List.forall_mem_cons.mpr ⟨hx, hall⟩)
      · exact Or.inr ⟨x :: ys, y, zs, r, rfl, List.forall_mem_cons.mpr ⟨hx, hys⟩, hy⟩

/-- **One visitor without a rule.**  No rule ever fits and nothing happens; or all is done by the
rule that is the first to fit at the first visit at which one does. -/
theorem alone_cases (rules : List ρ) {v : Visitor ρ σ} (hv : v.given = none) (xs : List π) :
    (∀ x ∈ xs, p.find rules x = none) ∧
        p.alone rules v xs = (v, xs.map fun _ => p.pass) ∨
      ∃ ys x zs r, xs = ys ++ x :: zs ∧ (∀ y ∈ ys, p.find rules y = none) ∧
        p.find rules x = some r ∧
        p.alone rules v xs = (⟨some r, (p.acts r v.status (x :: zs)).1⟩,
          ys.map (fun _ => p.pass) ++ (p.acts r v.status (x :: zs)).2) := by
  rcases exists_first (p := p) rules xs with hall | ⟨ys, x, zs, r, rfl, hys, hx⟩
  · left
    have h := alone_append_of_not_find hv hall []
    rw [List.append_nil, alone_nil, List.append_nil] at h
    exact ⟨hall, h⟩
  · right
    refine ⟨ys, x, zs, r, rfl, hys, hx, ?_⟩
    rw [alone_append_of_not_find hv hys, alone_cons, visit_of_find hv hx, alone_given, acts_cons]

end Policy

/-! ## 3. Many visitors -/

section Many

variable [DecidableEq ι] (p : Policy ρ π σ ω)

/-- What visitor `i` brings at his visits. -/
def broughtBy (i : ι) : List (Event ι ρ π) → List π
  | [] => []
  | .visit j x :: es => if j = i then x :: broughtBy i es else broughtBy i es
  | _ :: es => broughtBy i es

/-- The answers to visitor `i`. -/
def answersOf (i : ι) : List (Event ι ρ π) → List ω → List ω
  | .visit j _ :: es, w :: ws => if j = i then w :: answersOf i es ws else answersOf i es ws
  | _ :: es, _ :: ws => answersOf i es ws
  | _, _ => []

/-- The event is a visit, or nothing. -/
inductive IsVisit : Event ι ρ π → Prop
  | visit (i : ι) (x : π) : IsVisit (.visit i x)
  | idle : IsVisit .idle

variable {p}

/-- **Visitors do not notice each other.**  As long as the rules stay, what becomes of visitor `i`
and what he is answered is what it would be if he were alone. -/
theorem answersOf_visits (i : ι) {es : List (Event ι ρ π)} (hes : ∀ e ∈ es, IsVisit e)
    {o t : Office ι ρ σ} {ws : List ω}
    (h : answers (fun o e => some (p.step o e)) o es = some (t, ws)) :
    t.rules = o.rules ∧ (t.visitor i, answersOf i es ws) =
      p.alone o.rules (o.visitor i) (broughtBy i es) := by
  induction es generalizing o ws with
  | nil =>
    obtain ⟨rfl, rfl⟩ := Prod.mk.inj (Option.some.inj h)
    exact ⟨rfl, rfl⟩
  | cons e es ih =>
    rw [answers, Option.bind_some, Option.map_eq_some_iff] at h
    obtain ⟨⟨t', ws'⟩, hrest, heq⟩ := h
    obtain ⟨rfl, rfl⟩ := Prod.mk.inj heq
    obtain ⟨hrules, halone⟩ := ih (fun e' he' => hes e' (List.mem_cons_of_mem e he')) hrest
    cases hes e List.mem_cons_self with
    | idle => exact ⟨hrules, halone⟩
    | visit j x =>
      refine ⟨hrules, ?_⟩
      have hstep : (p.step o (.visit j x)).1.visitor i =
          if j = i then (p.visit o.rules (o.visitor i) x).1 else o.visitor i := by
        by_cases hj : j = i
        · subst hj
          simp only [Policy.step, Function.update_self, if_pos]
        · simp only [Policy.step, if_neg hj, Function.update_of_ne (Ne.symm hj)]
      rw [hstep] at halone
      rw [answersOf, broughtBy]
      by_cases hj : j = i
      · subst hj
        rw [if_pos rfl] at halone
        rw [if_pos rfl, if_pos rfl, Policy.alone_cons]
        exact congrArg (fun y => (y.1, (p.visit o.rules (o.visitor j) x).2 :: y.2)) halone
      · rw [if_neg hj] at halone
        rw [if_neg hj, if_neg hj]
        exact halone

end Many

end FirstFit
