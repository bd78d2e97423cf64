/-
# Runs of a partial step function

Several parts of the modelled system are state machines whose steps are taken by different
parties in any order: the two ends of a ring, many callers of a queue and its worker, packets
and configuration messages.  All of them are given the same way here, as a PARTIAL function
`step : σ → ε → Option σ`: an event is a choice of who moves and how, and `none` says that
this move is not possible (or does not complete) in this state.  An interleaving is then just
a list of events, and a statement about every interleaving is a statement about every list.

The file has the rules the machines are verified with:

* an invariant that every step preserves holds at the end of every run (`inv_run`), and one that
  only the steps that meet a side condition preserve holds in every state of a run whose steps
  all meet it (`allStates_of_allSteps`);
* a property that a step keeps EXACTLY when it meets a side condition holds in every state a
  run visits exactly when every step of the run meets it (`allStates_iff_allSteps`); and where
  only the end of a run counts, a step that misses the condition shows there if nothing makes
  good what it did (`allSteps_of_run_of_inv`);
* a machine whose steps are matched by runs of a second machine is matched by it on whole
  runs (`sim_run`), and one whose steps answer by one that gives the same answers
  (`answers_sim`).

`prodStep` puts independent copies of one machine side by side.
-/
import Mathlib.Logic.Function.Basic
import Mathlib.Data.List.Basic

namespace EventRun

variable {σ τ ε δ ι ω : Type*}

/-! ## 1. Runs -/

/-- Perform the events of a list in order; `none` as soon as one of them is not possible. -/
def run (step : σ → ε → Option σ) : σ → List ε → Option σ
  | s, [] => some s
  | s, e :: es => (step s e).bind fun s' => run step s' es

@[simp] theorem run_nil (step : σ → ε → Option σ) (s : σ) : run step s [] = some s := rfl

theorem run_cons (step : σ → ε → Option σ) (s : σ) (e : ε) (es : List ε) :
    run step s (e :: es) = (step s e).bind fun s' => run step s' es := rfl

@[simp] theorem run_singleton (step : σ → ε → Option σ) (s : σ) (e : ε) :
    run step s [e] = step s e := by
  rw [run_cons]
  cases step s e <;> rfl

/-- A nonempty run is a first step and a run from where it leads. -/
theorem run_cons_eq_some {step : σ → ε → Option σ} {s t : σ} {e : ε} {es : List ε} :
    run step s (e :: es) = some t ↔ ∃ s', step s e = some s' ∧ run step s' es = some t := by
  rw [run_cons, Option.bind_eq_some_iff]

theorem run_append (step : σ → ε → Option σ) (es fs : List ε) (s : σ) :
    run step s (es ++ fs) = (run step s es).bind fun s' => run step s' fs := by
  induction es generalizing s with
  | nil => rfl
  | cons e es ih =>
    rw [List.cons_append, run_cons, run_cons, Option.bind_assoc]
    congr 1
    funext s'
    exact ih s'

/-- Two runs, one after the other. -/
theorem run_append_of_eq {step : σ → ε → Option σ} {s s' t : σ} {es fs : List ε}
    (h₁ : run step s es = some s') (h₂ : run step s' fs = some t) :
    run step s (es ++ fs) = some t := by
  rw [run_append, h₁, Option.bind_some, h₂]

/-- A run to evaluate: what is computed from its last state is computed from a state that the
run reaches. -/
theorem exists_run_of_map {step : σ → ε → Option σ} {s : σ} {es : List ε} {f : σ → τ} {v : τ}
    (h : (run step s es).map f = some v) : ∃ t, run step s es = some t ∧ f t = v :=
  Option.map_eq_some_iff.mp h

/-! ## 2. Invariants -/

/-- **The invariant rule.**  What every step preserves, every run preserves. -/
theorem inv_run {step : σ → ε → Option σ} {I : σ → Prop}
    (hstep : ∀ s e s', I s → step s e = some s' → I s') {es : List ε} {s t : σ} (hs : I s)
    (h : run step s es = some t) : I t := by
  induction es generalizing s with
  | nil =>
    rw [run_nil, Option.some.injEq] at h
    exact h ▸ hs
  | cons e es ih =>
    obtain ⟨s', h1, h2⟩ := run_cons_eq_some.mp h
    exact ih (hstep s e s' hs h1) h2

/-- A reflexive and transitive relation that holds across every step from a state with the
invariant holds across every run. -/
theorem rel_run {step : σ → ε → Option σ} {I : σ → Prop} {R : σ → σ → Prop}
    (hinv : ∀ s e s', I s → step s e = some s' → I s')
    (hrefl : ∀ s, R s s) (htrans : ∀ s t u, R s t → R t u → R s u)
    (hstep : ∀ s e s', I s → step s e = some s' → R s s') {es : List ε} {s t : σ} (hs : I s)
    (h : run step s es = some t) : R s t := by
  induction es generalizing s with
  | nil =>
    rw [run_nil, Option.some.injEq] at h
    exact h ▸ hrefl s
  | cons e es ih =>
    obtain ⟨s', h1, h2⟩ := run_cons_eq_some.mp h
    exact htrans s s' t (hstep s e s' hs h1) (ih (hinv s e s' hs h1) h2)

/-! ## 3. Side conditions on the steps of a run -/

/-- Every step that the run takes meets `ok` in the state it is taken from. -/
def AllSteps (step : σ → ε → Option σ) (ok : σ → ε → Prop) : σ → List ε → Prop
  | _, [] => True
  | s, e :: es => ∀ s', step s e = some s' → ok s e ∧ AllSteps step ok s' es

/-- Every state that the run visits, the first one included, satisfies `P`. -/
def AllStates (step : σ → ε → Option σ) (P : σ → Prop) : σ → List ε → Prop
  | s, [] => P s
  | s, e :: es => P s ∧ ∀ s', step s e = some s' → AllStates step P s' es

theorem AllStates.head {step : σ → ε → Option σ} {P : σ → Prop} {s : σ} {es : List ε}
    (h : AllStates step P s es) : P s := by
  cases es with
  | nil => exact h
  | cons e es => exact h.1

/-- The state at the end of a run is one of the states it visits. -/
theorem AllStates.last {step : σ → ε → Option σ} {P : σ → Prop} {es : List ε} {s t : σ}
    (h : AllStates step P s es) (hr : run step s es = some t) : P t := by
  induction es generalizing s with
  | nil =>
    rw [run_nil, Option.some.injEq] at hr
    exact hr ▸ h
  | cons e es ih =>
    obtain ⟨s', h1, h2⟩ := run_cons_eq_some.mp hr
    exact ih (h.2 s' h1) h2

/-- The first part of a run. -/
theorem AllSteps.take {step : σ → ε → Option σ} {C : σ → ε → Prop} {es fs : List ε} {s : σ}
    (h : AllSteps step C s (es ++ fs)) : AllSteps step C s es := by
  induction es generalizing s with
  | nil => trivial
  | cons e es ih =>
    intro s' hs
    exact ⟨(h s' hs).1, ih (h s' hs).2⟩

/-- The second part of a run. -/
theorem AllSteps.drop {step : σ → ε → Option σ} {C : σ → ε → Prop} {es fs : List ε} {s t : σ}
    (h : AllSteps step C s (es ++ fs)) (hr : run step s es = some t) : AllSteps step C t fs := by
  induction es generalizing s with
  | nil =>
    rw [run_nil, Option.some.injEq] at hr
    exact hr ▸ h
  | cons e es ih =>
    obtain ⟨s', h1, h2⟩ := run_cons_eq_some.mp hr
    exact ih (h s' h1).2 h2

/-- Two conditions that every step meets. -/
theorem AllSteps.and {step : σ → ε → Option σ} {C D : σ → ε → Prop} {es : List ε} {s : σ}
    (h : AllSteps step C s es) (h' : AllSteps step D s es) :
    AllSteps step (fun s e => C s e ∧ D s e) s es := by
  induction es generalizing s with
  | nil => trivial
  | cons e es ih =>
    intro s' hs
    obtain ⟨hC, hCs⟩ := h s' hs
    obtain ⟨hD, hDs⟩ := h' s' hs
    exact ⟨⟨hC, hD⟩, ih hCs hDs⟩

/-- A condition that no step with an event of the list can miss is met by the run. -/
theorem allSteps_of_mem {step : σ → ε → Option σ} {ok : σ → ε → Prop} {es : List ε}
    (h : ∀ e ∈ es, ∀ s s', step s e = some s' → ok s e) (s : σ) : AllSteps step ok s es := by
  induction es generalizing s with
  | nil => trivial
  | cons e es ih =>
    intro s' hs
    exact ⟨h e List.mem_cons_self s s' hs, ih (fun e' he' => h e' (List.mem_cons_of_mem e he')) s'⟩

/-- A condition that no step can miss is met by every run. -/
theorem allSteps_of_forall {step : σ → ε → Option σ} {ok : σ → ε → Prop}
    (h : ∀ s e s', step s e = some s' → ok s e) (es : List ε) (s : σ) :
    AllSteps step ok s es :=
  allSteps_of_mem (fun e _ s s' => h s e s') s

theorem AllStates.mono {step : σ → ε → Option σ} {P Q : σ → Prop} (himp : ∀ s, P s → Q s)
    {es : List ε} {s : σ} (h : AllStates step P s es) : AllStates step Q s es := by
  induction es generalizing s with
  | nil => exact himp s h
  | cons e es ih => exact ⟨himp s h.1, fun s' hs => ih (h.2 s' hs)⟩

/-- The invariant rule under a side condition on the steps. -/
theorem allStates_of_allSteps {step : σ → ε → Option σ} {C : σ → ε → Prop} {I : σ → Prop}
    (hstep : ∀ s e s', I s → C s e → step s e = some s' → I s') (es : List ε) (s : σ)
    (hs : I s) (hC : AllSteps step C s es) : AllStates step I s es := by
  induction es generalizing s with
  | nil => exact hs
  | cons e es ih =>
    refine ⟨hs, ?_⟩
    intro s' h
    obtain ⟨hCe, hCes⟩ := hC s' h
    exact ih s' (hstep s e s' hs hCe h) hCes

/-- The invariant rule under a condition on the states of the run. -/
theorem allStates_of_allStates {step : σ → ε → Option σ} {Q I : σ → Prop}
    (hstep : ∀ s e s', I s → Q s' → step s e = some s' → I s') (es : List ε) (s : σ)
    (hs : I s) (hQ : AllStates step Q s es) : AllStates step I s es := by
  induction es generalizing s with
  | nil => exact hs
  | cons e es ih =>
    refine ⟨hs, ?_⟩
    intro s' h
    have hQs : AllStates step Q s' es := hQ.2 s' h
    exact ih s' (hstep s e s' hs hQs.head h) hQs

/-- What holds of every step from a state with `P` holds of every step of a run whose states all
have it. -/
theorem allSteps_of_allStates {step : σ → ε → Option σ} {C : σ → ε → Prop} {P : σ → Prop}
    (h : ∀ s e s', P s → step s e = some s' → C s e) (es : List ε) (s : σ)
    (hP : AllStates step P s es) : AllSteps step C s es := by
  induction es generalizing s with
  | nil => trivial
  | cons e es ih =>
    intro s' hs
    exact ⟨h s e s' hP.1 hs, ih s' (hP.2 s' hs)⟩

/-- **The exact rule.**  Suppose that, from a state with the invariant `J` in which `P`
holds, a step that meets the assumption `A` leads to a state in which `P` holds exactly when
it meets `C`.  Then, in a run whose steps meet the assumption, `P` holds in every state
exactly when every step meets `C`. -/
theorem allStates_iff_allSteps {step : σ → ε → Option σ} {A C : σ → ε → Prop}
    {J P : σ → Prop}
    (hJ : ∀ s e s', J s → P s → A s e → C s e → step s e = some s' → J s')
    (hP : ∀ s e s', J s → P s → A s e → step s e = some s' → (P s' ↔ C s e)) (es : List ε)
    (s : σ) (hj : J s) (hp : P s) (hasm : AllSteps step A s es) :
    AllStates step P s es ↔ AllSteps step C s es := by
  induction es generalizing s with
  | nil => exact ⟨fun _ => trivial, fun _ => hp⟩
  | cons e es ih =>
    constructor
    · rintro ⟨-, h⟩ s' hs
      obtain ⟨ha, has⟩ := hasm s' hs
      have hp' : P s' := (h s' hs).head
      have hok : C s e := (hP s e s' hj hp ha hs).mp hp'
      exact ⟨hok, (ih s' (hJ s e s' hj hp ha hok hs) hp' has).mp (h s' hs)⟩
    · intro h
      refine ⟨hp, ?_⟩
      intro s' hs
      obtain ⟨ha, has⟩ := hasm s' hs
      obtain ⟨hok, hrest⟩ := h s' hs
      have hp' : P s' := (hP s e s' hj hp ha hs).mpr hok
      exact (ih s' (hJ s e s' hj hp ha hok hs) hp' has).mpr hrest

/-- The exact rule without an assumption on the steps. -/
theorem allStates_iff {step : σ → ε → Option σ} {C : σ → ε → Prop} {J P : σ → Prop}
    (hJ : ∀ s e s', J s → P s → C s e → step s e = some s' → J s')
    (hP : ∀ s e s', J s → P s → step s e = some s' → (P s' ↔ C s e)) (es : List ε) (s : σ)
    (hj : J s) (hp : P s) : AllStates step P s es ↔ AllSteps step C s es :=
  allStates_iff_allSteps (A := fun _ _ => True) (fun s e s' hj hp _ => hJ s e s' hj hp)
    (fun s e s' hj hp _ => hP s e s' hj hp) es s hj hp
    (allSteps_of_forall (fun _ _ _ _ => trivial) es s)

/-- **What is not made good again.**  If the FIRST step that misses the condition leaves `D` behind,
and no step removes it, then a run that ends without `D` meets the condition at every step.  Up to
that step there is an invariant. -/
theorem allSteps_of_run_of_inv {step : σ → ε → Option σ} {C : σ → ε → Prop} {J D : σ → Prop}
    (hJ : ∀ s e s', J s → C s e → step s e = some s' → J s')
    (hkeep : ∀ s e s', D s → step s e = some s' → D s')
    (hmiss : ∀ s e s', J s → ¬ C s e → step s e = some s' → D s') {es : List ε} {s t : σ}
    (hj : J s) (h : run step s es = some t) (hD : ¬ D t) : AllSteps step C s es := by
  induction es generalizing s with
  | nil => trivial
  | cons e es ih =>
    intro s' hs
    obtain ⟨u, h1, h2⟩ := run_cons_eq_some.mp h
    obtain rfl := Option.some.inj (h1.symm.trans hs)
    have hC : C s e := by
      by_contra hC
      exact hD (inv_run hkeep (hmiss s e u hj hC h1) h2)
    exact ⟨hC, ih (hJ s e u hj hC h1) h2⟩

/-- The same where every step that misses the condition leaves `D` behind. -/
theorem allSteps_of_run_of_not {step : σ → ε → Option σ} {C : σ → ε → Prop} {D : σ → Prop}
    (hkeep : ∀ s e s', D s → step s e = some s' → D s')
    (hmiss : ∀ s e s', ¬ C s e → step s e = some s' → D s') {es : List ε} {s t : σ}
    (h : run step s es = some t) (hD : ¬ D t) : AllSteps step C s es :=
  allSteps_of_run_of_inv (J := fun _ => True) (fun _ _ _ _ _ _ => trivial) hkeep
    (fun s e s' _ => hmiss s e s') trivial h hD

/-- A condition on the steps that can be decided is decided on a run by performing it. -/
instance decidableAllSteps (step : σ → ε → Option σ) (ok : σ → ε → Prop)
    [∀ s e, Decidable (ok s e)] : ∀ (s : σ) (es : List ε), Decidable (AllSteps step ok s es)
  | _, [] => isTrue trivial
  | s, e :: es =>
    match h : step s e with
    | none => isTrue fun s' hs => absurd (h.symm.trans hs) (by simp)
    | some t =>
      match inferInstanceAs (Decidable (ok s e)), decidableAllSteps step ok t es with
      | isTrue h1, isTrue h2 =>
        isTrue fun s' hs => (Option.some.inj (h.symm.trans hs)) ▸ ⟨h1, h2⟩
      | isFalse h1, _ => isFalse fun hall => h1 (hall t h).1
      | _, isFalse h2 => isFalse fun hall => h2 (hall t h).2

/-! ## 4. Simulation -/

/-- **Forward simulation.**  If every step from a state with the invariant is matched by a
run of the second machine between the abstractions of its two states, then so is every
run. -/
theorem sim_run {step : σ → ε → Option σ} {step₂ : τ → δ → Option τ} {I : σ → Prop}
    {abs : σ → τ} (hinv : ∀ s e s', I s → step s e = some s' → I s')
    (hsim : ∀ s e s', I s → step s e = some s' → ∃ ds, run step₂ (abs s) ds = some (abs s'))
    {es : List ε} {s t : σ} (hs : I s) (h : run step s es = some t) :
    ∃ ds, run step₂ (abs s) ds = some (abs t) := by
  induction es generalizing s with
  | nil =>
    rw [run_nil, Option.some.injEq] at h
    exact ⟨[], by rw [run_nil, h]⟩
  | cons e es ih =>
    obtain ⟨s', h1, h2⟩ := run_cons_eq_some.mp h
    obtain ⟨ds, hds⟩ := hsim s e s' hs h1
    obtain ⟨ds', hds'⟩ := ih (hinv s e s' hs h1) h2
    exact ⟨ds ++ ds', run_append_of_eq hds hds'⟩

/-! ## 5. Independent machines side by side -/

variable [DecidableEq ι]

/-- One machine for each index; an event carries the index it is for. -/
def prodStep (step : ι → σ → ε → Option σ) (s : ι → σ) (e : ι × ε) : Option (ι → σ) :=
  (step e.1 (s e.1) e.2).map (Function.update s e.1)

theorem prodStep_eq_some {step : ι → σ → ε → Option σ} {s t : ι → σ} {i : ι} {e : ε} :
    prodStep step s (i, e) = some t ↔
      ∃ s', step i (s i) e = some s' ∧ t = Function.update s i s' := by
  simp only [prodStep, Option.map_eq_some_iff, eq_comm (b := t)]

/-- What holds of every machine holds of every machine after one of them moved exactly when it
holds of that one. -/
theorem forall_update_iff {Q : ι → σ → Prop} {s : ι → σ} {i : ι} {u : σ}
    (hs : ∀ j, Q j (s j)) : (∀ j, Q j (Function.update s i u j)) ↔ Q i u := by
  rw [Function.forall_update_iff s Q]
  exact and_iff_left fun j _ => hs j

/-- **The exact rule for the product.**  If, under an assumption on the steps, each machine
keeps its property exactly when its steps meet its condition, then all of them do exactly when
all steps do. -/
theorem allStates_prodStep_iff {step : ι → σ → ε → Option σ} {A C : ι → σ → ε → Prop}
    {J P : ι → σ → Prop}
    (hJ : ∀ i s e s', J i s → P i s → A i s e → C i s e → step i s e = some s' → J i s')
    (hP : ∀ i s e s', J i s → P i s → A i s e → step i s e = some s' → (P i s' ↔ C i s e))
    (es : List (ι × ε)) (s : ι → σ) (hjs : ∀ i, J i (s i)) (hps : ∀ i, P i (s i))
    (hasm : AllSteps (prodStep step) (fun s e => A e.1 (s e.1) e.2) s es) :
    AllStates (prodStep step) (fun s => ∀ i, P i (s i)) s es ↔
      AllSteps (prodStep step) (fun s e => C e.1 (s e.1) e.2) s es := by
  refine allStates_iff_allSteps (J := fun s => ∀ i, J i (s i)) ?_ ?_ es s hjs hps hasm
  · rintro s ⟨i, e⟩ s' hj hp ha hok hs
    obtain ⟨u, hu, rfl⟩ := prodStep_eq_some.mp hs
    exact (forall_update_iff hj).mpr (hJ i (s i) e u (hj i) (hp i) ha hok hu)
  · rintro s ⟨i, e⟩ s' hj hp ha hs
    obtain ⟨u, hu, rfl⟩ := prodStep_eq_some.mp hs
    rw [forall_update_iff hp]
    exact hP i (s i) e u (hj i) (hp i) ha hu

/-- The same without an assumption on the steps. -/
theorem allStates_prod_iff {step : ι → σ → ε → Option σ} {C : ι → σ → ε → Prop}
    {J P : ι → σ → Prop}
    (hJ : ∀ i s e s', J i s → P i s → C i s e → step i s e = some s' → J i s')
    (hP : ∀ i s e s', J i s → P i s → step i s e = some s' → (P i s' ↔ C i s e))
    (es : List (ι × ε)) (s : ι → σ) (hjs : ∀ i, J i (s i)) (hps : ∀ i, P i (s i)) :
    AllStates (prodStep step) (fun s => ∀ i, P i (s i)) s es ↔
      AllSteps (prodStep step) (fun s e => C e.1 (s e.1) e.2) s es :=
  allStates_prodStep_iff (A := fun _ _ _ => True) (fun i s e s' hj hp _ => hJ i s e s' hj hp)
    (fun i s e s' hj hp _ => hP i s e s' hj hp) es s hjs hps
    (allSteps_of_forall (fun _ _ _ _ => trivial) es s)

/-- The invariant rule for the product, under a side condition on the steps. -/
theorem allStates_prodStep_of_allSteps {step : ι → σ → ε → Option σ} {C : ι → σ → ε → Prop}
    {I : ι → σ → Prop} (hstep : ∀ i s e s', I i s → C i s e → step i s e = some s' → I i s')
    (es : List (ι × ε)) (s : ι → σ) (hs : ∀ i, I i (s i))
    (hC : AllSteps (prodStep step) (fun s e => C e.1 (s e.1) e.2) s es) :
    AllStates (prodStep step) (fun s => ∀ i, I i (s i)) s es := by
  refine allStates_of_allSteps ?_ es s hs hC
  rintro s ⟨i, e⟩ s' hi hc h
  obtain ⟨u, hu, rfl⟩ := prodStep_eq_some.mp h
  exact (forall_update_iff hi).mpr (hstep i (s i) e u (hi i) hc hu)

/-- One of the machines, under a condition on its own states. -/
theorem allStates_prodStep_of_allStates {step : ι → σ → ε → Option σ} {Q I : σ → Prop} {i : ι}
    (hstep : ∀ s e s', I s → Q s' → step i s e = some s' → I s') (es : List (ι × ε)) (s : ι → σ)
    (hs : I (s i)) (hQ : AllStates (prodStep step) (fun s => Q (s i)) s es) :
    AllStates (prodStep step) (fun s => I (s i)) s es := by
  refine allStates_of_allStates ?_ es s hs hQ
  rintro s ⟨j, e⟩ s' hi hq h
  obtain ⟨u, hu, rfl⟩ := prodStep_eq_some.mp h
  rcases eq_or_ne i j with rfl | hij
  · rw [Function.update_self] at hq ⊢
    exact hstep (s i) e u hi hq hu
  · rwa [Function.update_of_ne hij]

/-! ## 6. Machines that answer -/

/-- A run whose steps answer: where it leads, and the answers. -/
def answers (step : σ → ε → Option (σ × ω)) : σ → List ε → Option (σ × List ω)
  | s, [] => some (s, [])
  | s, e :: es =>
    (step s e).bind fun r => (answers step r.1 es).map fun q => (q.1, r.2 :: q.2)

@[simp] theorem answers_nil (step : σ → ε → Option (σ × ω)) (s : σ) :
    answers step s [] = some (s, []) := rfl

theorem answers_cons {step : σ → ε → Option (σ × ω)} {s s' t : σ} {e : ε} {es : List ε} {w : ω}
    {ws : List ω} (h₁ : step s e = some (s', w)) (h₂ : answers step s' es = some (t, ws)) :
    answers step s (e :: es) = some (t, w :: ws) := by
  rw [answers, h₁, Option.bind_some, h₂, Option.map_some]

theorem answers_cons_eq_some {step : σ → ε → Option (σ × ω)} {s t : σ} {e : ε} {es : List ε} {w : ω}
    {ws : List ω} : answers step s (e :: es) = some (t, w :: ws) ↔
      ∃ s', step s e = some (s', w) ∧ answers step s' es = some (t, ws) := by
  constructor
  · intro h
    obtain ⟨⟨s', w'⟩, h₁, hrest⟩ := Option.bind_eq_some_iff.mp h
    obtain ⟨⟨t', ws'⟩, h₂, heq⟩ := Option.map_eq_some_iff.mp hrest
    obtain ⟨rfl, hcons⟩ := Prod.mk.inj heq
    obtain ⟨rfl, rfl⟩ := List.cons.inj hcons
    exact ⟨s', h₁, h₂⟩
  · rintro ⟨s', h₁, h₂⟩
    exact answers_cons h₁ h₂

/-- **Simulation with the same answers.**  `C` is a condition on the steps, and `A` one on the
events under which a step is possible.  If each step that meets the condition is matched by a step
of a second machine, with the same answer, then each run whose steps do is possible and is matched
by a run of the second machine, with the same answers. -/
theorem answers_sim (step : σ → ε → Option (σ × ω)) {step₂ : τ → δ → τ × ω} {I : σ → Prop}
    {C : σ → ε → Prop} {A : ε → Prop} {abs : σ → τ} {ev : ε → δ}
    (hok : ∀ s e, I s → A e → ∃ r, step s e = some r)
    (hsim : ∀ s e s' w, I s → C s e → step s e = some (s', w) →
      I s' ∧ step₂ (abs s) (ev e) = (abs s', w)) {es : List ε} {s : σ} (hs : I s)
    (hA : ∀ e ∈ es, A e) (hC : AllSteps (fun s e => (step s e).map Prod.fst) C s es) :
    ∃ t ws, answers step s es = some (t, ws) ∧ I t ∧
      answers (fun o d => some (step₂ o d)) (abs s) (es.map ev) = some (abs t, ws) := by
  induction es generalizing s with
  | nil => exact ⟨s, [], rfl, hs, rfl⟩
  | cons e es ih =>
    obtain ⟨⟨s', w⟩, h₁⟩ := hok s e hs (hA e List.mem_cons_self)
    obtain ⟨hCe, hCes⟩ := hC s' (congrArg (Option.map Prod.fst) h₁)
    obtain ⟨hs', hstep⟩ := hsim s e s' w hs hCe h₁
    obtain ⟨t, ws, h₂, ht, hrun⟩ := ih hs' (fun e' he' => hA e' (List.mem_cons_of_mem e he')) hCes
    exact ⟨t, w :: ws, answers_cons h₁ h₂, ht, answers_cons (by rw [hstep]) hrun⟩

end EventRun
