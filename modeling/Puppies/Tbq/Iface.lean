/-
# The interfaces (`apps/tbqd/…/settc.lua`, `get_iface`)

`settc.lua` takes the interfaces from the routes that `ip ro` prints, one a line: the word behind
`dev` is an interface, and it is on the side of the WAN if a route that begins with `default` names
it.  All the others are the LAN.

The loop looks at an interface only until it is known to be a WAN one, so that what a line does
depends on the lines before it; what the loop ends with does not (`ifaceLoop_mem`).
-/
import Puppies.Tbq.Rate

namespace Puppies

open ByteMem JsonText LuaPattern

/-! ## 1. The lines -/

/-- `"(.-)\n"` -/
def lineText : List (Item Byte) :=
  [.openCap, .lazy fun _ => true, .closeCap, .one fun c => c = 0x0a]

def devWord : Str := ascii "dev"
def defaultWord : Str := ascii "default"

/-- `"dev%s+(.-)%s"` -/
def devName : List (Item Byte) :=
  literal devWord ++ [.rep1 luaSpace, .openCap, .lazy fun _ => true, .closeCap, .one luaSpace]

/-- `part:match("dev%s+(.-)%s")` -/
def ifnameOf (part : Str) : Option Str :=
  match search devName part with
  | some ([ifname], _) => some ifname
  | _ => none

/-- `part:find("^default")` -/
def isDefault (part : Str) : Bool := (anchored (literal defaultWord) part).isSome

/-! ## 2. The sets

A set is a table with the entry 1 under each of its members. -/

/-- `t[k] = 1` -/
def setKey (t : List Str) (k : Str) : List Str := if k ∈ t then t else t ++ [k]

/-- The sets that the loop over the lines fills. -/
structure IfaceSets where
  wan : List Str
  all : List Str
  deriving DecidableEq

/-- One line. -/
def ifaceLine (sets : IfaceSets) (part : Str) : IfaceSets :=
  match ifnameOf part with
  | none => sets
  | some ifname =>
    if ifname ∈ sets.wan then sets
    else
      { all := setKey sets.all ifname
        wan := if isDefault part then setKey sets.wan ifname else sets.wan }

/-- The loop. -/
def ifaceLoop (sets : IfaceSets) (parts : List Str) : IfaceSets := parts.foldl ifaceLine sets

/-- `get_iface`, when `ip ro` prints `s`: the sets `lan` and `wan`. -/
def getIface (s : Str) : List Str × List Str :=
  let parts := (gmatch lineText (s ++ ascii "\n")).filterMap List.head?
  let sets := ifaceLoop ⟨[], []⟩ parts
  (sets.all.filter fun ifname => ifname ∉ sets.wan, sets.wan)

/-! ## 3. What the lines say -/

/-- `dev`, with a blank behind it, is nowhere in the text. -/
def NoDev (s : Str) : Prop := ∀ c, luaSpace c = true → ¬ devWord ++ [c] <:+: s

/-- A line of a routing table: it names no interface, or the one behind `dev`. -/
inductive RouteLine : Str → Option Str → Prop
  | plain {line : Str} : NoDev line → RouteLine line none
  | dev {front blanks name : Str} {c : Byte} (rest : Str) : NoDev (front ++ devWord) →
      blanks ≠ [] → (∀ b ∈ blanks, luaSpace b = true) →
      name ≠ [] → (∀ b ∈ name, luaSpace b = false) → luaSpace c = true →
      RouteLine (front ++ (devWord ++ (blanks ++ (name ++ c :: rest)))) (some name)

/-- The lines of a text. -/
def textLines (s : Str) : List Str := s.splitOn 0x0a

/-- A line of the text names the interface. -/
def NamedIn (s ifname : Str) : Prop := ∃ line ∈ textLines s, RouteLine line (some ifname)

/-- And one that begins with `default` does. -/
def DefaultIn (s ifname : Str) : Prop :=
  ∃ line ∈ textLines s, RouteLine line (some ifname) ∧ defaultWord <+: line

/-! ## 4. The patterns on such lines -/

theorem anchored_lineText {line : Str} (h : (0x0a : Byte) ∉ line) (t : Str) :
    anchored lineText (line ++ 0x0a :: t) = some ([line], t) := by
  have hnone : ∀ c ∈ line, ∀ u, matchAt [.closeCap, .one fun c : Byte => c = 0x0a]
      (line ++ 0x0a :: t) [] (c :: u) = none := by
    intro c hc u
    have hne : ¬ decide (c = 0x0a) = true := fun heq => h (of_decide_eq_true heq ▸ hc)
    exact if_neg hne
  rw [anchored, lineText, matchAt, matchAt, minExpand_append (fun _ _ => rfl) hnone]
  refine minExpand_of_some ?_
  rw [matchAt, take_capture]
  rfl

/-- **The parts are the lines**, the last one included. -/
theorem gmatchFrom_lineText {n : Nat} {s : Str} (h : s.length + 2 ≤ n) :
    gmatchFrom lineText n (s ++ [0x0a]) = (textLines s).map fun line => [line] := by
  induction hlen : s.length using Nat.strong_induction_on generalizing n s with
  | _ len ih =>
    obtain ⟨n, rfl⟩ : ∃ m, n = m + 1 := ⟨n - 1, by omega⟩
    by_cases hs : (0x0a : Byte) ∈ s
    · obtain ⟨line, t, rfl, hline⟩ := List.eq_append_cons_of_mem hs
      rw [List.length_append, List.length_cons] at h hlen
      have hrest := ih t.length (by omega) (n := n) (s := t) (by omega) rfl
      have hlt : (t ++ [(0x0a : Byte)]).length < (line ++ 0x0a :: (t ++ [0x0a])).length := by
        simp only [List.length_append, List.length_cons]
        omega
      rw [List.append_assoc, List.cons_append,
        gmatchFrom_of_anchored (anchored_lineText hline _) hlt, hrest, textLines, textLines,
        List.splitOn_append_cons_self_of_not_mem hline, List.map_cons]
    · rw [gmatchFrom_of_anchored (anchored_lineText hs []) (by simp), gmatchFrom_nil rfl,
        textLines, List.splitOn_eq_singleton hs, List.map_singleton]

/-- A match of the pattern begins with `dev` and a blank. -/
theorem devWord_prefix_of_anchored {s : Str} {r : List Str × Str}
    (h : anchored devName s = some r) : ∃ c, luaSpace c = true ∧ devWord ++ [c] <+: s := by
  obtain ⟨t, rfl, w, u, rfl, hne, hw, -⟩ := matches_literal_append (matches_of_matchAt h)
  obtain ⟨c, w, rfl⟩ := List.exists_cons_of_ne_nil hne
  refine ⟨c, hw c List.mem_cons_self, ⟨w ++ u, ?_⟩⟩
  simp

theorem ifnameOf_plain {line : Str} (h : NoDev line) : ifnameOf line = none := by
  have hnone : search devName line = none := by
    rw [Option.eq_none_iff_forall_ne_some]
    intro r hr
    obtain ⟨t, ht, hr⟩ := suffix_of_search hr
    obtain ⟨c, hc, hpre⟩ := devWord_prefix_of_anchored hr
    exact h c hc (hpre.isInfix.trans ht.isInfix)
  rw [ifnameOf, hnone]

theorem anchored_devName {blanks name : Str} {c : Byte} (rest : Str) (hne : blanks ≠ [])
    (hblanks : ∀ b ∈ blanks, luaSpace b = true) (hname : name ≠ [])
    (hword : ∀ b ∈ name, luaSpace b = false) (hc : luaSpace c = true) :
    anchored devName (devWord ++ (blanks ++ (name ++ c :: rest))) = some ([name], rest) := by
  obtain ⟨b, blanks, rfl⟩ := List.exists_cons_of_ne_nil hne
  obtain ⟨x, name, rfl⟩ := List.exists_cons_of_ne_nil hname
  rw [List.forall_mem_cons] at hblanks
  have hx : ¬ luaSpace x = true := by
    rw [hword x List.mem_cons_self]
    exact Bool.false_ne_true
  rw [anchored, devName, matchAt_literal_append, List.cons_append, matchAt, if_pos hblanks.1]
  refine maxExpand_of_some ?_
  have hnone : ∀ b ∈ x :: name, ∀ u, matchAt [.closeCap, .one luaSpace]
      ((x :: name) ++ c :: rest) [] (b :: u) = none := by
    intro b hb u
    exact if_neg (by rw [hword b hb]; exact Bool.false_ne_true)
  have hfirst : ((x :: name) ++ c :: rest).dropWhile luaSpace = (x :: name) ++ c :: rest :=
    List.dropWhile_cons_of_neg hx
  rw [List.dropWhile_append_of_pos hblanks.2, hfirst, matchAt, matchAt,
    minExpand_append (fun _ _ => rfl) hnone]
  refine minExpand_of_some ?_
  rw [matchAt, take_capture]
  exact if_pos hc

theorem ifnameOf_dev {front blanks name : Str} {c : Byte} (rest : Str)
    (hfront : NoDev (front ++ devWord)) (hne : blanks ≠ [])
    (hblanks : ∀ b ∈ blanks, luaSpace b = true) (hname : name ≠ [])
    (hword : ∀ b ∈ name, luaSpace b = false) (hc : luaSpace c = true) :
    ifnameOf (front ++ (devWord ++ (blanks ++ (name ++ c :: rest)))) = some name := by
  have hnone : ∀ u, u <:+ front → u ≠ [] →
      anchored devName (u ++ (devWord ++ (blanks ++ (name ++ c :: rest)))) = none := by
    intro u hu hne
    rw [Option.eq_none_iff_forall_ne_some]
    intro r hr
    obtain ⟨b, hb, hpre⟩ := devWord_prefix_of_anchored hr
    -- `dev` and a blank are not longer than `u` and `dev`
    have hlen : (devWord ++ [b]).length ≤ (u ++ devWord).length := by
      have := List.length_pos_iff.mpr hne
      simp only [List.length_append, List.length_singleton]
      omega
    rw [← List.append_assoc] at hpre
    have hshort := List.prefix_of_prefix_length_le hpre (List.prefix_append _ _) hlen
    obtain ⟨v, rfl⟩ := hu
    refine hfront b hb (hshort.isInfix.trans ?_)
    rw [List.append_assoc]
    exact (List.suffix_append v _).isInfix
  rw [ifnameOf, search_append hnone,
    search_of_anchored (anchored_devName rest hne hblanks hname hword hc)]

/-- **What is found on a line of a routing table.** -/
theorem RouteLine.ifnameOf {line : Str} {name : Option Str} (h : RouteLine line name) :
    ifnameOf line = name := by
  cases h with
  | plain h => exact ifnameOf_plain h
  | dev rest hfront hne hblanks hname hword hc =>
    exact ifnameOf_dev rest hfront hne hblanks hname hword hc

theorem isDefault_iff (line : Str) : isDefault line = true ↔ defaultWord <+: line := by
  rw [isDefault, Option.isSome_iff_exists]
  constructor
  · rintro ⟨r, hr⟩
    rw [← List.append_nil (literal defaultWord)] at hr
    obtain ⟨u, rfl, -⟩ := matches_literal_append (matches_of_matchAt hr)
    exact List.prefix_append _ u
  · rintro ⟨u, rfl⟩
    have hmatch := matchAt_literal_append defaultWord [] (defaultWord ++ u) [] u
    rw [List.append_nil] at hmatch
    exact ⟨_, hmatch⟩

/-! ## 5. The loop -/

@[simp] theorem mem_setKey {t : List Str} {k i : Str} : i ∈ setKey t k ↔ i ∈ t ∨ i = k := by
  unfold setKey
  split
  · next h => exact ⟨Or.inl, fun hi => hi.elim id fun heq => heq ▸ h⟩
  · simp

/-- A line on which an interface is named, or one that is named on a default route. -/
def NamesOn (i part : Str) : Prop := ifnameOf part = some i
def DefaultOn (i part : Str) : Prop := ifnameOf part = some i ∧ isDefault part = true

/-- **One line**: it adds the interface it names, and to the WAN if it begins with `default`. -/
theorem ifaceLine_mem (sets : IfaceSets) (part i : Str) :
    (i ∈ (ifaceLine sets part).wan ↔ i ∈ sets.wan ∨ DefaultOn i part) ∧
    (i ∈ (ifaceLine sets part).all ∨ i ∈ (ifaceLine sets part).wan ↔
      (i ∈ sets.all ∨ i ∈ sets.wan) ∨ NamesOn i part) := by
  unfold ifaceLine NamesOn DefaultOn
  cases hname : ifnameOf part with
  | none => simp
  | some ifname =>
    dsimp only
    by_cases hwan : ifname ∈ sets.wan
    · -- it is known to be a WAN interface
      rw [if_pos hwan]
      constructor
      · refine ⟨Or.inl, ?_⟩
        rintro (h | ⟨h, -⟩)
        · exact h
        · exact Option.some.inj h ▸ hwan
      · refine ⟨Or.inl, ?_⟩
        rintro (h | h)
        · exact h
        · exact Or.inr (Option.some.inj h ▸ hwan)
    · rw [if_neg hwan]
      cases isDefault part with
      | false => simp; grind
      | true => simp; grind

/-- **The loop**, whatever the order of the lines. -/
theorem ifaceLoop_mem (sets : IfaceSets) (parts : List Str) (i : Str) :
    (i ∈ (ifaceLoop sets parts).wan ↔ i ∈ sets.wan ∨ ∃ part ∈ parts, DefaultOn i part) ∧
    (i ∈ (ifaceLoop sets parts).all ∨ i ∈ (ifaceLoop sets parts).wan ↔
      (i ∈ sets.all ∨ i ∈ sets.wan) ∨ ∃ part ∈ parts, NamesOn i part) := by
  induction parts generalizing sets with
  | nil => simp [ifaceLoop]
  | cons part parts ih =>
    obtain ⟨hwan, hall⟩ := ih (ifaceLine sets part)
    obtain ⟨hwan', hall'⟩ := ifaceLine_mem sets part i
    rw [hwan', or_assoc] at hwan
    rw [hall', or_assoc] at hall
    exact ⟨by simpa [ifaceLoop] using hwan, by simpa [ifaceLoop] using hall⟩

theorem parts_eq (s : Str) :
    (gmatch lineText (s ++ ascii "\n")).filterMap List.head? = textLines s := by
  have hnl : ascii "\n" = [0x0a] := rfl
  have hfuel : s.length + 2 ≤ (s ++ [(0x0a : Byte)]).length + 1 := by simp
  rw [gmatch, hnl, gmatchFrom_lineText hfuel, List.filterMap_map]
  exact List.filterMap_some

/-- The two sets, for any text. -/
theorem getIface_mem (s i : Str) :
    (i ∈ (getIface s).2 ↔ ∃ line ∈ textLines s, DefaultOn i line) ∧
    (i ∈ (getIface s).1 ↔ (∃ line ∈ textLines s, NamesOn i line) ∧ i ∉ (getIface s).2) := by
  obtain ⟨hwan, hall⟩ := ifaceLoop_mem ⟨[], []⟩ (textLines s) i
  simp only [List.not_mem_nil, false_or] at hwan hall
  simp only [getIface, parts_eq]
  refine ⟨hwan, ?_⟩
  rw [List.mem_filter, decide_eq_true_eq, ← hall]
  exact ⟨fun h => ⟨Or.inl h.1, h.2⟩, fun h => ⟨h.1.resolve_right h.2, h.2⟩⟩

/-! ## 6. The classification -/

/-- A routing table: `dev` stands in front of every name of an interface, and a blank behind it. -/
def RoutingTable (s : Str) : Prop := ∀ line ∈ textLines s, ∃ name, RouteLine line name

theorem RoutingTable.namesOn_iff {s : Str} (h : RoutingTable s) {line i : Str}
    (hline : line ∈ textLines s) : NamesOn i line ↔ RouteLine line (some i) := by
  obtain ⟨name, hroute⟩ := h line hline
  rw [NamesOn, hroute.ifnameOf]
  refine ⟨?_, fun hi => hroute.ifnameOf.symm.trans hi.ifnameOf⟩
  rintro rfl
  exact hroute

/-- **The interfaces of a routing table.**  The WAN is the interfaces of the default routes, the
LAN the other ones that are named, and both depend on nothing but which lines there are. -/
theorem getIface_classifies (s : Str) (h : RoutingTable s) :
    (∀ i, i ∈ (getIface s).2 ↔ DefaultIn s i) ∧
    (∀ i, i ∈ (getIface s).1 ↔ NamedIn s i ∧ ¬ DefaultIn s i) ∧
    (∀ i ∈ (getIface s).1, i ∉ (getIface s).2) ∧
    ∀ s', (∀ line, line ∈ textLines s' ↔ line ∈ textLines s) →
      ∀ i, (i ∈ (getIface s').1 ↔ i ∈ (getIface s).1) ∧
        (i ∈ (getIface s').2 ↔ i ∈ (getIface s).2) := by
  have hwan : ∀ i, i ∈ (getIface s).2 ↔ DefaultIn s i := by
    intro i
    rw [(getIface_mem s i).1]
    refine exists_congr fun line => and_congr_right fun hline => ?_
    rw [DefaultOn, isDefault_iff]
    exact and_congr_left fun _ => h.namesOn_iff hline
  refine ⟨hwan, ?_, fun i hi => ((getIface_mem s i).2.mp hi).2, ?_⟩
  · intro i
    rw [(getIface_mem s i).2, hwan]
    refine and_congr_left fun _ => exists_congr fun line => and_congr_right fun hline => ?_
    exact h.namesOn_iff hline
  · intro s' hlines i
    have hwan' : i ∈ (getIface s').2 ↔ i ∈ (getIface s).2 := by
      simp only [(getIface_mem _ i).1, hlines]
    refine ⟨?_, hwan'⟩
    rw [(getIface_mem s' i).2, (getIface_mem s i).2, hwan']
    simp only [hlines]

instance (s : Str) : Decidable (NoDev s) :=
  inferInstanceAs (Decidable (∀ c, luaSpace c = true → ¬ devWord ++ [c] <:+: s))

/-- `a` is on an ordinary route before it is on the default one. -/
def routes : Str := ascii "b/8 dev a x\nc dev d x\ndefault dev a x"

theorem routingTable_routes : RoutingTable routes := by
  have hlines : textLines routes =
      [ascii "b/8 dev a x", ascii "c dev d x", ascii "default dev a x"] := by decide
  have hroute : ∀ front name, NoDev (front ++ devWord) → name ≠ [] →
      (∀ b ∈ name, luaSpace b = false) →
      RouteLine (front ++ (devWord ++ (ascii " " ++ (name ++ 0x20 :: ascii "x")))) (some name) :=
    fun front name hfront hne hname =>
      .dev _ hfront (by decide) (by decide) hne hname (by decide)
  rw [RoutingTable, hlines]
  simp only [List.forall_mem_cons, List.not_mem_nil, false_implies, implies_true, and_true]
  exact ⟨⟨_, hroute (ascii "b/8 ") (ascii "a") (by decide) (by decide) (by decide)⟩,
    ⟨_, hroute (ascii "c ") (ascii "d") (by decide) (by decide) (by decide)⟩,
    ⟨_, hroute (ascii "default ") (ascii "a") (by decide) (by decide) (by decide)⟩⟩

theorem getIface_classifies_routes :
    getIface routes = ([ascii "d"], [ascii "a"]) ∧ DefaultIn routes (ascii "a") ∧
      NamedIn routes (ascii "d") ∧ ¬ DefaultIn routes (ascii "d") := by
  have hget : getIface routes = ([ascii "d"], [ascii "a"]) := by decide
  obtain ⟨hwan, hlan, -⟩ := getIface_classifies routes routingTable_routes
  rw [hget] at hwan hlan
  exact ⟨hget, (hwan _).mp List.mem_cons_self, (hlan _).mp List.mem_cons_self⟩

end Puppies
