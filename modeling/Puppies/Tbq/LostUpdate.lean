/-
# Two web requests at once

The pages are served by one process a request, and a handler reads `tc.json` in one step, writes
`tc.json.tmp` in a second and moves it into place in a third: nothing is locked, and the temporary
file has the same name for everybody.  This file is the machine of the requests of any number of
clients that take these steps in any order (`webStep`), with the proof that a client nobody
interrupts does what `ruleHandle` says.

If nobody reads while another client is between its read and its move, the file is that of the
requests one after the other.  If two clients BOTH read the file before one of them has moved, then
what ends in place is what the last one to write made of that file: the other's request is lost,
and it is answered with 0 as well.
-/
import Puppies.Tbq.RuleStore

namespace Puppies

open JsonText EventRun

variable {ν ι : Type}

/-! ## 1. The machine -/

/-- How far a request is. -/
inductive WebPc (ν : Type)
  | start
  /-- past `read`, with the table to save -/
  | edited (map : Value ν)
  /-- past the writing of the temporary file -/
  | written
  /-- the `state` of the answer, or an error of the server -/
  | answered (state : Option Nat)
  deriving DecidableEq

/-- Between the read and the move. -/
def WebPc.midway : WebPc ν → Bool
  | .edited _ | .written => true
  | _ => false

/-- `tc.json`, `tc.json.tmp`, and where everybody is. -/
structure WebState (ι ν : Type) where
  path : Option Str
  tmp : Option Str
  client : ι → WebPc ν

/-- Nobody has done anything. -/
def webInit (file tmp : Option Str) : WebState ι ν := ⟨file, tmp, fun _ => .start⟩

variable [DecidableEq ι]

/-- Client `i` is now at `p`. -/
def WebState.goto (s : WebState ι ν) (i : ι) (p : WebPc ν) : WebState ι ν :=
  { s with client := Function.update s.client i p }

/-- The next step of a client. -/
def webStep (cj : Codec ν) (req : ι → RuleRequest) (s : WebState ι ν) (i : ι) :
    Option (WebState ι ν) :=
  match s.client i with
  | .start =>
    match ruleEdit cj (req i) s.path with
    | none => some (s.goto i (.answered none))
    | some none => some (s.goto i (.answered (some 1)))
    | some (some map) => some (s.goto i (.edited map))
  | .edited map => some { s.goto i .written with tmp := some (saveText cj map) }
  | .written =>
    match s.tmp with
    | some text => some { s.goto i (.answered (some 0)) with path := some text, tmp := none }
    -- `mv` finds no file, and nobody looks at what it returns
    | none => some (s.goto i (.answered (some 0)))
  | .answered _ => none

/-- What each step is, with what it needs. -/
inductive WebMove (cj : Codec ν) (req : ι → RuleRequest) (s : WebState ι ν) (i : ι) :
    WebState ι ν → Prop
  /-- the request is refused, or ends in an error -/
  | refuse {a : Option Nat} (hpc : s.client i = .start)
      (hedit : ∀ map, ruleEdit cj (req i) s.path ≠ some (some map)) (hzero : a ≠ some 0) :
      WebMove cj req s i (s.goto i (.answered a))
  | read {map : Value ν} (hpc : s.client i = .start)
      (hedit : ruleEdit cj (req i) s.path = some (some map)) :
      WebMove cj req s i (s.goto i (.edited map))
  | write {map : Value ν} (hpc : s.client i = .edited map) :
      WebMove cj req s i { s.goto i .written with tmp := some (saveText cj map) }
  | move {text : Str} (hpc : s.client i = .written) (htmp : s.tmp = some text) :
      WebMove cj req s i { s.goto i (.answered (some 0)) with path := some text, tmp := none }
  /-- the temporary file is gone -/
  | lose (hpc : s.client i = .written) (htmp : s.tmp = none) :
      WebMove cj req s i (s.goto i (.answered (some 0)))

theorem webMove_of_step {cj : Codec ν} {req : ι → RuleRequest} {s t : WebState ι ν} {i : ι}
    (h : webStep cj req s i = some t) : WebMove cj req s i t := by
  unfold webStep at h
  split at h
  · rename_i hpc
    split at h
    · rename_i hedit
      exact Option.some.inj h ▸ .refuse hpc (by simp [hedit]) (by simp)
    · rename_i hedit
      exact Option.some.inj h ▸ .refuse hpc (by simp [hedit]) (by simp)
    · rename_i hedit
      exact Option.some.inj h ▸ .read hpc hedit
  · rename_i hpc
    exact Option.some.inj h ▸ .write hpc
  · rename_i hpc
    split at h
    · rename_i htmp
      exact Option.some.inj h ▸ .move hpc htmp
    · rename_i htmp
      exact Option.some.inj h ▸ .lose hpc htmp
  · exact absurd h (by simp)

/-! ## 2. One request after the other -/

/-- The file after a request on its own. -/
def fileAfter (cj : Codec ν) (req : RuleRequest) (file : Option Str) : Option Str :=
  (ruleHandle cj req file).2

theorem fileAfter_of_edit {cj : Codec ν} {req : RuleRequest} {file : Option Str} {map : Value ν}
    (h : ruleEdit cj req file = some (some map)) :
    fileAfter cj req file = some (saveText cj map) := by
  rw [fileAfter, ruleHandle, h]

/-- **A client on its own** does what `ruleHandle` does. -/
theorem webRun_handle (cj : Codec ν) (req : ι → RuleRequest) (s : WebState ι ν) (i : ι)
    (hpc : s.client i = .start) :
    ∃ es t, run (webStep cj req) s es = some t ∧ (∀ e ∈ es, e = i) ∧
      t.client i = .answered (ruleHandle cj (req i) s.path).1 ∧
      t.path = fileAfter cj (req i) s.path := by
  rw [fileAfter, ruleHandle]
  cases hedit : ruleEdit cj (req i) s.path with
  | none =>
    refine ⟨[i], s.goto i (.answered none), ?_, by simp, by simp [WebState.goto], rfl⟩
    simp [webStep, hpc, hedit]
  | some res =>
    cases res with
    | none =>
      refine ⟨[i], s.goto i (.answered (some 1)), ?_, by simp, by simp [WebState.goto], rfl⟩
      simp [webStep, hpc, hedit]
    | some map =>
      refine ⟨[i, i, i], ⟨some (saveText cj map), none, Function.update s.client i
        (.answered (some 0))⟩, ?_, by simp, by simp, rfl⟩
      simp [run_cons, webStep, hpc, hedit, WebState.goto]

/-- The requests of these clients in this order. -/
def serialFile (cj : Codec ν) (req : ι → RuleRequest) (order : List ι) (file : Option Str) :
    Option Str :=
  order.foldl (fun f i => fileAfter cj (req i) f) file

omit [DecidableEq ι] in
theorem serialFile_concat (cj : Codec ν) (req : ι → RuleRequest) (order : List ι) (i : ι)
    (file : Option Str) :
    serialFile cj req (order ++ [i]) file =
      fileAfter cj (req i) (serialFile cj req order file) := by
  simp [serialFile]

/-- The condition on a step: a client whose request will be saved does not read while another one
is between its read and its move. -/
def Apart (cj : Codec ν) (req : ι → RuleRequest) (s : WebState ι ν) (i : ι) : Prop :=
  s.client i = .start → (∃ map, ruleEdit cj (req i) s.path = some (some map)) →
    ∀ j, (s.client j).midway = false

/-- What a client that is midway has made of the file that is there. -/
def WebPc.InHand (cj : Codec ν) (req : RuleRequest) (path tmp : Option Str) : WebPc ν → Prop
  | .edited map => ruleEdit cj req path = some (some map)
  | .written => ∃ map, ruleEdit cj req path = some (some map) ∧ tmp = some (saveText cj map)
  | _ => True

theorem WebPc.inHand_of_not_midway {cj : Codec ν} {req : RuleRequest} {path tmp : Option Str}
    {p : WebPc ν} (h : p.midway = false) : p.InHand cj req path tmp := by
  cases p with
  | start => trivial
  | edited map => exact absurd h (by simp [WebPc.midway])
  | written => exact absurd h (by simp [WebPc.midway])
  | answered a => trivial

theorem WebPc.exists_of_midway {cj : Codec ν} {req : RuleRequest} {path tmp : Option Str}
    {p : WebPc ν} (hp : p.midway = true) (h : p.InHand cj req path tmp) :
    ∃ map, ruleEdit cj req path = some (some map) ∧
      (p = .edited map ∨ p = .written ∧ tmp = some (saveText cj map)) := by
  cases p with
  | start => exact absurd hp (by simp [WebPc.midway])
  | edited map => exact ⟨map, h, Or.inl rfl⟩
  | written =>
    obtain ⟨map, hedit, htmp⟩ := h
    exact ⟨map, hedit, Or.inr ⟨rfl, htmp⟩⟩
  | answered a => exact absurd hp (by simp [WebPc.midway])

/-- What a run keeps in which everybody is apart. -/
structure SerialInv (cj : Codec ν) (req : ι → RuleRequest) (file : Option Str)
    (s : WebState ι ν) : Prop where
  /-- the file is that of the clients that were served, in some order -/
  served : ∃ order : List ι, order.Nodup ∧ (∀ i, i ∈ order ↔ s.client i = .answered (some 0)) ∧
    s.path = serialFile cj req order file
  inHand : ∀ i, (s.client i).InHand cj (req i) s.path s.tmp
  alone : ∀ i, (s.client i).midway = true → ∀ j, j ≠ i → (s.client j).midway = false

omit [DecidableEq ι] in
theorem serialInv_init (cj : Codec ν) (req : ι → RuleRequest) (file tmp : Option Str) :
    SerialInv cj req file (webInit file tmp) where
  served := ⟨[], List.nodup_nil, by simp [webInit], rfl⟩
  inHand i := trivial
  alone i h := absurd h (by simp [webInit, WebPc.midway])

/-- At most client `i` is midway, and it is at `p` now. -/
theorem alone_update {client : ι → WebPc ν} {i : ι} {p : WebPc ν}
    (hothers : ∀ j, j ≠ i → (client j).midway = false) :
    ∀ j, (Function.update client i p j).midway = true →
      ∀ k, k ≠ j → (Function.update client i p k).midway = false := by
  intro j hj k hkj
  have hji : j = i := by
    by_contra hji
    rw [Function.update_of_ne hji, hothers j hji] at hj
    exact absurd hj Bool.false_ne_true
  subst hji
  rw [Function.update_of_ne hkj]
  exact hothers k hkj

/-- A client that is not midway after its step. -/
theorem alone_update_idle {client : ι → WebPc ν} {i : ι} {p : WebPc ν} (hp : p.midway = false)
    (halone : ∀ j, (client j).midway = true → ∀ k, k ≠ j → (client k).midway = false) :
    ∀ j, (Function.update client i p j).midway = true →
      ∀ k, k ≠ j → (Function.update client i p k).midway = false := by
  intro j hj k hkj
  have hji : j ≠ i := by
    rintro rfl
    rw [Function.update_self, hp] at hj
    exact absurd hj Bool.false_ne_true
  rw [Function.update_of_ne hji] at hj
  by_cases hki : k = i
  · rw [hki, Function.update_self, hp]
  · rw [Function.update_of_ne hki]
    exact halone j hj k hkj

/-- A client moves that was not served and is not served by that. -/
theorem served_update {client : ι → WebPc ν} {i : ι} {p : WebPc ν} {order : List ι}
    (hmem : ∀ j, j ∈ order ↔ client j = .answered (some 0)) (hi : client i ≠ .answered (some 0))
    (hp : p ≠ .answered (some 0)) (j : ι) :
    j ∈ order ↔ Function.update client i p j = .answered (some 0) := by
  rw [hmem]
  by_cases hji : j = i
  · rw [hji, Function.update_self]
    exact iff_of_false hi hp
  · rw [Function.update_of_ne hji]

/-- **One step**, of a client that is apart. -/
theorem webMove_serialInv {cj : Codec ν} {req : ι → RuleRequest} {file : Option Str}
    {s t : WebState ι ν} {i : ι} (hs : SerialInv cj req file s) (ha : Apart cj req s i)
    (hm : WebMove cj req s i t) : SerialInv cj req file t := by
  obtain ⟨order, hnodup, hmem, hpath⟩ := hs.served
  cases hm with
  | @refuse a hpc _ hzero =>
    refine ⟨⟨order, hnodup, served_update hmem (by simp [hpc]) (by simpa using hzero), hpath⟩,
      ?_, ?_⟩
    · exact (forall_update_iff hs.inHand).mpr trivial
    · exact alone_update_idle rfl hs.alone
  | @read map hpc hedit =>
    have hquiet := ha hpc ⟨map, hedit⟩
    refine ⟨⟨order, hnodup, served_update hmem (by simp [hpc]) (by simp), hpath⟩, ?_, ?_⟩
    · exact (forall_update_iff hs.inHand).mpr hedit
    · exact alone_update fun j _ => hquiet j
  | @write map hpc =>
    have hothers := hs.alone i (by rw [hpc]; rfl)
    have hedit := hs.inHand i
    rw [hpc] at hedit
    refine ⟨⟨order, hnodup, served_update hmem (by simp [hpc]) (by simp), hpath⟩, ?_, ?_⟩
    · exact (Function.forall_update_iff _ _).mpr
        ⟨⟨map, hedit, rfl⟩, fun j hj => WebPc.inHand_of_not_midway (hothers j hj)⟩
    · exact alone_update hothers
  | @move text hpc htmp =>
    have hothers := hs.alone i (by rw [hpc]; rfl)
    have hwritten := hs.inHand i
    rw [hpc] at hwritten
    obtain ⟨map, hedit, htext⟩ := hwritten
    have hnew : i ∉ order := fun hi => by simpa [hpc] using (hmem i).mp hi
    refine ⟨⟨order ++ [i], ?_, ?_, ?_⟩, ?_, ?_⟩
    · refine List.nodup_append.mpr ⟨hnodup, by simp, ?_⟩
      intro j hj k hk
      rw [List.mem_singleton.mp hk]
      exact fun hji => hnew (hji ▸ hj)
    · intro j
      rw [List.mem_append, List.mem_singleton, hmem]
      by_cases hji : j = i
      · simp [hji, WebState.goto]
      · simp [hji, WebState.goto]
    · rw [serialFile_concat, ← hpath, fileAfter_of_edit hedit, ← htext, htmp]
    · exact (Function.forall_update_iff _ _).mpr
        ⟨trivial, fun j hj => WebPc.inHand_of_not_midway (hothers j hj)⟩
    · exact alone_update hothers
  | lose hpc htmp =>
    have hwritten := hs.inHand i
    rw [hpc] at hwritten
    obtain ⟨map, -, htext⟩ := hwritten
    rw [htmp] at htext
    exact absurd htext (by simp)

/-- **Any number of requests.**  In every run in which everybody is apart, the file is at all times
that of the clients that were served so far, one after the other. -/
theorem webRun_serial (cj : Codec ν) (req : ι → RuleRequest) (file tmp : Option Str)
    (es : List ι) (h : AllSteps (webStep cj req) (Apart cj req) (webInit file tmp) es) :
    AllStates (webStep cj req) (SerialInv cj req file) (webInit file tmp) es := by
  refine allStates_of_allSteps ?_ es _ (serialInv_init cj req file tmp) h
  intro s i t hs ha ht
  exact webMove_serialInv hs ha (webMove_of_step ht)

/-! ## 3. Two requests -/

section TwoClients

variable (cj : Codec ν) (req : Bool → RuleRequest)

/-- The file is that of the two requests in one of the two orders. -/
def OneAfterTheOther (file result : Option Str) : Prop :=
  ∃ i, result = fileAfter cj (req !i) (fileAfter cj (req i) file)

/-- Once both are answered with 0, the file has the effect of both. -/
def NoneLost (file : Option Str) (s : WebState Bool ν) : Prop :=
  (∀ i, s.client i = .answered (some 0)) → OneAfterTheOther cj req file s.path

/-- Each of the two leaves something else behind than both do. -/
def BothCount (file : Option Str) : Prop :=
  ∀ k, ¬ OneAfterTheOther cj req file (fileAfter cj (req k) file)

variable {cj req} {file : Option Str} {s t : WebState Bool ν}

/-- The orders of two clients. -/
theorem order_of_two {order : List Bool} (hnodup : order.Nodup) (hmem : ∀ i, i ∈ order) :
    ∃ i, order = [i, !i] := by
  match order with
  | [] => exact absurd (hmem true) (by simp)
  | [i] => exact absurd (hmem !i) (by simp)
  | [i, j] =>
    refine ⟨i, ?_⟩
    have hij : i ≠ j := by
      simpa using hnodup
    rw [← Bool.eq_not.mpr hij.symm]
  | i :: j :: k :: rest =>
    simp only [List.nodup_cons, List.mem_cons, not_or] at hnodup
    obtain ⟨⟨hij, hik, -⟩, ⟨hjk, -⟩, -⟩ := hnodup
    have hj : j = !i := Bool.eq_not.mpr (Ne.symm hij)
    have hk : k = !i := Bool.eq_not.mpr (Ne.symm hik)
    exact absurd (hj.trans hk.symm) hjk

theorem SerialInv.noneLost (h : SerialInv cj req file s) : NoneLost cj req file s := by
  intro hall
  obtain ⟨order, hnodup, hmem, hpath⟩ := h.served
  obtain ⟨i, rfl⟩ := order_of_two hnodup fun i => (hmem i).mpr (hall i)
  exact ⟨i, hpath⟩

/-- Client `k` was the last to write, and what it wrote is still to be moved, or is in place. -/
inductive LastWriter (cj : Codec ν) (maps : Bool → Value ν) (s : WebState Bool ν) (k : Bool) : Prop
  | waiting (hpc : s.client k = .written) (htmp : s.tmp = some (saveText cj (maps k)))
  | moved (htmp : s.tmp = none) (hpath : s.path = some (saveText cj (maps k)))

/-- Past the read, on the way to the answer 0. -/
def WebPc.PastRead (map : Value ν) (p : WebPc ν) : Prop :=
  p = .edited map ∨ p = .written ∨ p = .answered (some 0)

/-- Both have made a table of the same file. -/
structure Overlapped (cj : Codec ν) (req : Bool → RuleRequest) (file : Option Str)
    (maps : Bool → Value ν) (s : WebState Bool ν) : Prop where
  saves : ∀ i, ruleEdit cj (req i) file = some (some (maps i))
  past : ∀ i, (s.client i).PastRead (maps i)
  last : (∀ i, s.client i = .edited (maps i)) ∨ ∃ k, LastWriter cj maps s k

theorem webMove_overlapped {maps : Bool → Value ν} {i : Bool}
    (hs : Overlapped cj req file maps s) (hm : WebMove cj req s i t) :
    Overlapped cj req file maps t := by
  have hpast := hs.past i
  cases hm with
  | refuse hpc _ _ => exact absurd hpast (by simp [WebPc.PastRead, hpc])
  | read hpc hedit => exact absurd hpast (by simp [WebPc.PastRead, hpc])
  | @write map hpc =>
    have hmap : map = maps i := by simpa [WebPc.PastRead, hpc] using hpast
    refine ⟨hs.saves, ?_, Or.inr ⟨i, .waiting (by simp [WebState.goto]) (by rw [hmap])⟩⟩
    exact (forall_update_iff hs.past).mpr (Or.inr (Or.inl rfl))
  | @move text hpc htmp =>
    refine ⟨hs.saves, ?_, ?_⟩
    · exact (forall_update_iff hs.past).mpr (Or.inr (Or.inr rfl))
    · rcases hs.last with hnone | ⟨k, hk⟩
      · exact absurd (hnone i) (by simp [hpc])
      · -- whoever moves it, it is the text of the last writer
        cases hk with
        | waiting hwritten htext =>
          exact Or.inr ⟨k, .moved rfl (htmp.symm.trans htext)⟩
        | moved hgone hpath => exact absurd (htmp.symm.trans hgone) (by simp)
  | lose hpc hgone =>
    refine ⟨hs.saves, ?_, ?_⟩
    · exact (forall_update_iff hs.past).mpr (Or.inr (Or.inr rfl))
    · rcases hs.last with hnone | ⟨k, hk⟩
      · exact absurd (hnone i) (by simp [hpc])
      · cases hk with
        | waiting hwritten htext => exact absurd (hgone.symm.trans htext) (by simp)
        | moved _ hpath => exact Or.inr ⟨k, .moved hgone hpath⟩

/-- **What is left in the end** is what one of them made of the file that both have read. -/
theorem Overlapped.path_eq {maps : Bool → Value ν} (h : Overlapped cj req file maps s)
    (hall : ∀ i, s.client i = .answered (some 0)) :
    ∃ k, s.path = fileAfter cj (req k) file := by
  rcases h.last with hnone | ⟨k, hk⟩
  · have hfirst := hnone true
    rw [hall] at hfirst
    exact absurd hfirst (by simp)
  · refine ⟨k, ?_⟩
    rw [fileAfter_of_edit (h.saves k)]
    cases hk with
    | waiting hwritten _ =>
      rw [hall] at hwritten
      exact absurd hwritten (by simp)
    | moved _ hpath => exact hpath

/-- The first step that is not apart. -/
theorem overlapped_of_not_apart {i : Bool} (hs : SerialInv cj req file s)
    (ha : ¬ Apart cj req s i) (hm : WebMove cj req s i t) :
    ∃ maps, Overlapped cj req file maps t := by
  simp only [Apart, not_forall] at ha
  obtain ⟨hstart, ⟨map, hedit⟩, j, hj⟩ := ha
  rw [Bool.not_eq_false] at hj
  have hji : j = !i := by
    refine Bool.eq_not.mpr ?_
    rintro rfl
    simp [hstart, WebPc.midway] at hj
  subst hji
  -- nobody was served, so that what is there is the file of the beginning
  have hpath : s.path = file := by
    obtain ⟨order, -, hmem, hpath⟩ := hs.served
    have hnil : order = [] := by
      refine List.eq_nil_iff_forall_not_mem.mpr ?_
      intro k hk
      rw [hmem] at hk
      by_cases hki : k = i
      · simp [hki, hstart] at hk
      · rw [Bool.eq_not.mpr hki] at hk
        simp [hk, WebPc.midway] at hj
    rw [hpath, hnil]
    rfl
  obtain ⟨m, hedit', hother⟩ := WebPc.exists_of_midway hj (hs.inHand !i)
  rw [hpath] at hedit hedit'
  cases hm with
  | refuse _ hnot _ => exact absurd hedit (hpath ▸ hnot map)
  | @read map' _ hread =>
    obtain rfl : map = map' := by
      rw [hpath, hedit] at hread
      exact Option.some.inj (Option.some.inj hread)
    refine ⟨Function.update (fun _ => m) i map, (Bool.forall_bool' i).mpr ⟨?_, ?_⟩,
      (Bool.forall_bool' i).mpr ⟨?_, ?_⟩, ?_⟩
    · simpa using hedit
    · simpa using hedit'
    · simp [WebState.goto, WebPc.PastRead]
    · rcases hother with hpc | ⟨hpc, -⟩
      · simp [WebState.goto, WebPc.PastRead, hpc]
      · simp [WebState.goto, WebPc.PastRead, hpc]
    · rcases hother with hpc | ⟨hpc, htmp⟩
      · refine Or.inl ((Bool.forall_bool' i).mpr ⟨?_, ?_⟩)
        · simp [WebState.goto]
        · simp [WebState.goto, hpc]
      · refine Or.inr ⟨!i, .waiting ?_ ?_⟩
        · simp [WebState.goto, hpc]
        · simpa [WebState.goto] using htmp
  | write hpc => simp [hpc] at hstart
  | move hpc _ => simp [hpc] at hstart
  | lose hpc _ => simp [hpc] at hstart

end TwoClients

/-- **When no update is lost.**  In every run of two requests of any kinds, from any file and with
any temporary file left behind: if every step is apart, then whenever both are answered with 0 the
file is that of the two one after the other.  And unless one request leaves the same file behind as
both do, this is exact: a run that ends with both answered with 0 ends with that file only if every
step was apart. -/
theorem noneLost_iff (cj : Codec ν) (req : Bool → RuleRequest) (file tmp : Option Str)
    (es : List Bool) :
    (AllSteps (webStep cj req) (Apart cj req) (webInit file tmp) es →
      AllStates (webStep cj req) (NoneLost cj req file) (webInit file tmp) es) ∧
    (BothCount cj req file → ∀ t, run (webStep cj req) (webInit file tmp) es = some t →
      (∀ i, t.client i = .answered (some 0)) →
        (OneAfterTheOther cj req file t.path ↔
          AllSteps (webStep cj req) (Apart cj req) (webInit file tmp) es)) := by
  have hserial : AllSteps (webStep cj req) (Apart cj req) (webInit file tmp) es →
      AllStates (webStep cj req) (NoneLost cj req file) (webInit file tmp) es := fun h =>
    (webRun_serial cj req file tmp es h).mono fun s => SerialInv.noneLost
  refine ⟨hserial, fun hcount t hrun hall => ⟨?_, ?_⟩⟩
  · intro hone
    refine allSteps_of_run_of_inv (J := SerialInv cj req file)
      (D := fun s => ∃ maps, Overlapped cj req file maps s) ?_ ?_ ?_
      (serialInv_init cj req file tmp) hrun ?_
    · intro s i u hs ha hu
      exact webMove_serialInv hs ha (webMove_of_step hu)
    · rintro s i u ⟨maps, hs⟩ hu
      exact ⟨maps, webMove_overlapped hs (webMove_of_step hu)⟩
    · intro s i u hs ha hu
      exact overlapped_of_not_apart hs ha (webMove_of_step hu)
    · rintro ⟨maps, ht⟩
      obtain ⟨k, hk⟩ := ht.path_eq hall
      exact hcount k (hk ▸ hone)
  · intro h
    exact (hserial h).last hrun hall

/-! ## 4. Two new rules

A pair of requests for which the condition is exact, on every file that is in order. -/

/-- A file has one list of rules. -/
theorem rules_eq_of_holds {cj : Codec ν} {file : Option Str} {c c' : RuleConf ν}
    (h : Holds cj file c) (h' : Holds cj file c') (hc : NamesDistinct c)
    (hc' : NamesDistinct c') : c.rules = c'.rules := by
  obtain ⟨s, v, rfl, hv, htree⟩ := h
  obtain ⟨s', v', hs', hv', htree'⟩ := h'
  obtain rfl := Option.some.inj hs'
  obtain rfl := Option.some.inj (hv.symm.trans hv')
  obtain ⟨ms, r, vs, rfl, hr⟩ := exists_rulesOf htree hc
  obtain ⟨ms', r', vs', hobj, hr'⟩ := exists_rulesOf htree' hc'
  obtain rfl := Value.obj.inj hobj
  obtain rfl := Option.some.inj (hr.rules.symm.trans hr'.rules)
  obtain rfl := Option.some.inj (hr.list.symm.trans hr'.list)
  rw [← hr.trees, hr'.trees]

theorem hasName_turned {map : Form} {c : RuleConf ν} :
    HasName map c.turned.rules ↔ HasName map c.rules := by
  simp [HasName, RuleConf.turned, ruleName_turnedEnabled]

/-- A new rule is saved. -/
theorem storeStep_insRules {cj : Codec ν} {s : StoreState ν} {map : Form} {n : Str}
    (hs : StoreOk cj s) (hn : map.name = some n) (hnew : ¬ HasName map s.conf.rules)
    (hclean : SavesClean s ⟨.insRules map, n, hn⟩) :
    ∃ t, storeStep cj s ⟨.insRules map, n, hn⟩ = some t ∧ StoreOk cj t ∧
      t.file = fileAfter cj (.insRules map) s.file ∧
      t.conf.rules.length = s.conf.rules.length + 1 ∧
      ∀ map' : Form, map'.name ≠ some n →
        (HasName map' t.conf.rules ↔ HasName map' s.conf.rules) := by
  have hconf : s.conf.step (.insRules map) = (0, RuleConf.turned
      { s.conf with rules := s.conf.rules ++ [override map.fields noEntries] }) := by
    rw [RuleConf.step, RuleConf.edit, if_neg hnew]
  have hstep : storeStep cj s ⟨.insRules map, n, hn⟩ =
      some ⟨fileAfter cj (.insRules map) s.file, (ruleHandle cj (.insRules map) s.file).1,
        RuleConf.turned { s.conf with rules := s.conf.rules ++ [override map.fields noEntries] },
        some 0⟩ := by
    rw [storeStep, hconf]
    rfl
  refine ⟨_, hstep, (storeStep_ok_iff hs hstep).mpr hclean, rfl, ?_, ?_⟩
  · simp [RuleConf.turned]
  · intro map' hmap'
    rw [hasName_turned]
    have hother : ruleName (override map.fields (noEntries : PathTree ν)) ≠ map'.name := by
      rw [ruleName_override hn]
      exact Ne.symm hmap'
    simp [HasName, or_and_right, exists_or, hother]

/-- **Both of two new rules count**, so that one of them is lost whenever both requests read the
same file. -/
theorem bothCount_insRules {cj : Codec ν} {s : StoreState ν} {map : Bool → Form} {n : Bool → Str}
    (hs : StoreOk cj s) (hn : ∀ i, (map i).name = some (n i)) (hne : n false ≠ n true)
    (hnew : ∀ i, ¬ HasName (map i) s.conf.rules)
    (hclean : ∀ i, AllSteps (storeStep cj) SavesClean s
      [⟨.insRules (map i), n i, hn i⟩, ⟨.insRules (map !i), n !i, hn !i⟩]) :
    BothCount cj (fun i => .insRules (map i)) s.file := by
  have hone : ∀ i, ∃ t, storeStep cj s ⟨.insRules (map i), n i, hn i⟩ = some t ∧ StoreOk cj t ∧
      t.file = fileAfter cj (.insRules (map i)) s.file ∧
      t.conf.rules.length = s.conf.rules.length + 1 ∧
      ∀ map' : Form, map'.name ≠ some (n i) →
        (HasName map' t.conf.rules ↔ HasName map' s.conf.rules) := fun i =>
    storeStep_insRules hs (hn i) (hnew i) ((hclean i) _ rfl).1
  rintro k ⟨i, hfile⟩
  obtain ⟨tk, -, hk, hkfile, hklen, -⟩ := hone k
  obtain ⟨ti, histep, hi, hifile, hilen, hinames⟩ := hone i
  have hother : n (!i) ≠ n i := by
    cases i with
    | false => exact Ne.symm hne
    | true => exact hne
  have hnew' : ¬ HasName (map !i) ti.conf.rules := by
    rw [hinames (map !i) (by rw [hn]; simpa using hother)]
    exact hnew !i
  have hclean' : SavesClean ti ⟨.insRules (map !i), n !i, hn !i⟩ :=
    ((hclean i ti histep).2 _ rfl).1
  obtain ⟨t, -, ht, htfile, htlen, -⟩ := storeStep_insRules hi (hn !i) hnew' hclean'
  -- one file with two lists of rules, of different lengths
  have hsame : tk.file = t.file := by
    rw [hkfile, htfile, hifile, hfile]
  have hrules := rules_eq_of_holds hk.holds (hsame ▸ ht.holds) hk.distinct ht.distinct
  rw [hrules] at hklen
  omega

/-- A file without rules. -/
def emptyFile : Str := ascii "\x7b\"Rules\":[]\x7d"

/-- `insRules`, with the name `a` and with the name `b`. -/
def insertTwo (i : Bool) : RuleRequest :=
  .insRules ⟨[(nameKey, ascii (if i then "b" else "a"))]⟩

/-- Both read the file, and one of them is done before the other one writes: both are answered with
0, and the file has only the second rule. -/
theorem noneLost_broken :
    ∃ s, run (webStep compact insertTwo) (webInit (some emptyFile) none)
        [false, true, false, false, true, true] = some s ∧
      (∀ i, s.client i = .answered (some 0)) ∧
      s.path = some (ascii "\x7b\"Rules\":[\x7b\"Name\":\"b\"\x7d]\x7d") ∧
      ¬ OneAfterTheOther compact insertTwo (some emptyFile) s.path := by
  have hrun : ((run (webStep compact insertTwo) (webInit (some emptyFile) none)
        [false, true, false, false, true, true]).map fun s =>
      (s.client false, s.client true, s.path)) = some (.answered (some 0), .answered (some 0),
        some (ascii "\x7b\"Rules\":[\x7b\"Name\":\"b\"\x7d]\x7d")) := by
    decide +kernel
  have hserial : ∀ i, some (ascii "\x7b\"Rules\":[\x7b\"Name\":\"b\"\x7d]\x7d") ≠
      fileAfter compact (insertTwo !i) (fileAfter compact (insertTwo i) (some emptyFile)) := by
    decide +kernel
  obtain ⟨s, hs, heq⟩ := exists_run_of_map hrun
  simp only [Prod.mk.injEq] at heq
  obtain ⟨hfalse, htrue, hpath⟩ := heq
  refine ⟨s, hs, ?_, hpath, ?_⟩
  · exact Bool.forall_bool.mpr ⟨hfalse, htrue⟩
  · rintro ⟨i, hi⟩
    exact hserial i (hpath ▸ hi)

end Puppies
