/-
# The bounded queue

What a queue of fixed capacity IS: at most `cap` items, put in at one end and taken out at the
other, in the order in which they were put in.  The bound is a field of the structure, so a
queue that holds too much cannot be built, and an operation on a full or an empty queue is
refused (`none`).

Together with the items the queue keeps its two histories, everything ever put in and
everything ever taken out, and `step_history` says how they fit together: at every moment
what was taken out, followed by what is still inside, is what was put in.  So no item is lost,
none is duplicated, and the order is kept (`out_prefix`).
-/
import Mathlib.Data.List.Basic
import Puppies.Lib.Runs

/-- A queue of at most `cap` items, oldest first. -/
structure BoundedFifo (α : Type*) (cap : Nat) where
  items : List α
  le_cap : items.length ≤ cap

namespace BoundedFifo

variable {α : Type*} {cap : Nat}

@[ext] theorem ext {q q' : BoundedFifo α cap} (h : q.items = q'.items) : q = q' := by
  cases q
  cases q'
  congr

/-! ## 1. The operations -/

/-- The queue with nothing in it. -/
def empty (α : Type*) (cap : Nat) : BoundedFifo α cap := ⟨[], Nat.zero_le cap⟩

/-- Put an item in behind all others; refused by a full queue. -/
def push (q : BoundedFifo α cap) (x : α) : Option (BoundedFifo α cap) :=
  if h : q.items.length < cap then
    some ⟨q.items ++ [x], by rw [List.length_append]; exact h⟩
  else none

/-- Take the oldest item out; refused by an empty queue. -/
def pop (q : BoundedFifo α cap) : Option (α × BoundedFifo α cap) :=
  match h : q.items with
  | [] => none
  | x :: rest => some (x, ⟨rest, by
      have := q.le_cap
      rw [h, List.length_cons] at this
      omega⟩)

/-- `push` succeeds exactly below capacity, and appends. -/
theorem push_eq_some {q q' : BoundedFifo α cap} {x : α} :
    q.push x = some q' ↔ q.items.length < cap ∧ q'.items = q.items ++ [x] := by
  unfold push
  split
  · rename_i h
    rw [Option.some.injEq]
    exact ⟨fun he => ⟨h, by rw [← he]⟩, fun he => BoundedFifo.ext he.2.symm⟩
  · rename_i h
    exact ⟨fun he => absurd he (by simp), fun he => absurd he.1 h⟩

/-- `pop` succeeds exactly on a nonempty queue, and takes the head off. -/
theorem pop_eq_some {q q' : BoundedFifo α cap} {x : α} :
    q.pop = some (x, q') ↔ q.items = x :: q'.items := by
  unfold pop
  split
  · rename_i h
    exact ⟨fun he => absurd he (by simp), fun he => absurd (h ▸ he) (by simp)⟩
  · rename_i y rest h
    rw [Option.some.injEq, Prod.mk.injEq]
    constructor
    · rintro ⟨rfl, rfl⟩
      exact h
    · intro he
      rw [h, List.cons.injEq] at he
      exact ⟨he.1, BoundedFifo.ext he.2⟩

/-! ## 2. The queue as a machine -/

/-- What a user of the queue does. -/
inductive Event (α : Type*)
  | push (x : α)
  | pop

/-- The queue and its two histories. -/
structure State (α : Type*) (cap : Nat) where
  queue : BoundedFifo α cap
  /-- every item put in so far, first to last -/
  ins : List α
  /-- every item taken out so far, first to last -/
  outs : List α

@[ext] theorem State.ext {s s' : State α cap} (h1 : s.queue = s'.queue) (h2 : s.ins = s'.ins)
    (h3 : s.outs = s'.outs) : s = s' := by
  cases s
  cases s'
  congr

/-- The machine before anything happened. -/
def State.init (α : Type*) (cap : Nat) : State α cap := ⟨empty α cap, [], []⟩

/-- One operation, written into the history it belongs to. -/
def step (s : State α cap) : Event α → Option (State α cap)
  | .push x => (s.queue.push x).map fun q => { s with queue := q, ins := s.ins ++ [x] }
  | .pop => s.queue.pop.map fun p => { s with queue := p.2, outs := s.outs ++ [p.1] }

theorem step_push_eq_some {s s' : State α cap} {x : α} :
    step s (.push x) = some s' ↔ s.queue.items.length < cap ∧
      s'.queue.items = s.queue.items ++ [x] ∧ s'.ins = s.ins ++ [x] ∧ s'.outs = s.outs := by
  simp only [step, Option.map_eq_some_iff, push_eq_some]
  constructor
  · rintro ⟨q, ⟨h1, h2⟩, rfl⟩
    exact ⟨h1, h2, rfl, rfl⟩
  · rintro ⟨h1, h2, h3, h4⟩
    exact ⟨s'.queue, ⟨h1, h2⟩, State.ext rfl h3.symm h4.symm⟩

theorem step_pop_eq_some {s s' : State α cap} :
    step s .pop = some s' ↔ ∃ x, s.queue.items = x :: s'.queue.items ∧ s'.ins = s.ins ∧
      s'.outs = s.outs ++ [x] := by
  simp only [step, Option.map_eq_some_iff]
  constructor
  · rintro ⟨⟨x, q⟩, h1, rfl⟩
    exact ⟨x, pop_eq_some.mp h1, rfl, rfl⟩
  · rintro ⟨x, h1, h2, h3⟩
    exact ⟨(x, s'.queue), pop_eq_some.mpr h1, State.ext rfl h2.symm h3.symm⟩

/-! ## 3. What went in comes out, once and in order -/

/-- What was taken out, followed by what is still inside, is what was put in. -/
def History (s : State α cap) : Prop := s.outs ++ s.queue.items = s.ins

theorem history_init : History (State.init α cap) := rfl

theorem step_history {s s' : State α cap} {e : Event α} (h : History s)
    (hs : step s e = some s') : History s' := by
  unfold History at h ⊢
  cases e with
  | push x =>
    obtain ⟨-, hq, hin, hout⟩ := step_push_eq_some.mp hs
    rw [hq, hin, hout, ← List.append_assoc, h]
  | pop =>
    obtain ⟨x, hq, hin, hout⟩ := step_pop_eq_some.mp hs
    rw [hin, hout, List.append_assoc, List.singleton_append, ← hq, h]

/-- **The history law of every run.** -/
theorem run_history {es : List (Event α)} {s : State α cap}
    (h : EventRun.run step (State.init α cap) es = some s) : History s :=
  EventRun.inv_run (fun _ _ _ => step_history) history_init h

/-- What was taken out is a prefix of what was put in. -/
theorem out_prefix {s : State α cap} (h : History s) : s.outs <+: s.ins :=
  ⟨s.queue.items, h⟩

end BoundedFifo
