/-
# Rates (`apps/tbqd/…/settc.lua`, `parseRateDesc` and `tbqRateFromTCRate`)

The web pages write a rate as a number of thousands or millions of bits or bytes per second, the
kernel module reads a number of bytes per second with an optional `K`, `M` or `G`.  `settc.lua`
converts the one into the other: it takes the text apart with a pattern, refuses what is above a
limit, in the units of the text, and prints the number of bytes with the largest suffix that
divides it.

Numbers of Lua are doubles.  `tonumber` rounds the digits to the nearest one, so that a text of
many digits may become another number, or infinite; but not one that would be below the limit
(`le_roundDouble`).  All that is computed afterwards is whole and below 2^53, where doubles are
exact: there the arithmetic is that of `Nat`.
-/
import Mathlib.Algebra.Group.Nat.Defs
import Puppies.Lib.CText
import Puppies.Lib.Json
import Puppies.Lib.LuaPattern

namespace Puppies

open ByteMem JsonText LuaPattern

/-! ## 1. Numbers and classes of Lua -/

/-- The double next to `n`, and the even one of two that are as near. -/
def roundDouble (n : Nat) : Nat :=
  let unit := 2 ^ (n.log2 - 52)
  let q := n / unit
  let r := n % unit
  if unit < 2 * r ∨ unit = 2 * r ∧ q % 2 = 1 then (q + 1) * unit else q * unit

/-- `tonumber`, of a text of digits; from `2 ^ 1024` on, infinity, which is `none`. -/
def tonumber (s : Str) : Option Nat :=
  let n := roundDouble (CText.valueOf 10 s)
  if n.log2 < 1024 then some n else none

/-- `%s` -/
def luaSpace (c : Byte) : Bool := c = 0x20 || (9 ≤ c.toNat && c.toNat ≤ 13)

/-- `%d` -/
def luaDigit (c : Byte) : Bool := CText.digitVal c < 10

/-- `s:match(p)`, for a pattern with `^`. -/
def strMatch (is : List (Item Byte)) (s : Str) : Option (List Str) :=
  (anchored is s).map Prod.fst

/-! ## 2. The conversion -/

def bpsName : Str := ascii "bps"
def bytesName : Str := ascii "Bytes"

/-- `"^%s*(%d+)%s*([KM])%s*(name)%s*$"` -/
def rateDesc (name : Str) : List (Item Byte) :=
  .rep luaSpace :: .openCap :: .rep1 luaDigit :: .closeCap ::
    .rep luaSpace :: .openCap :: .one (ascii "KM").contains :: .closeCap ::
    .rep luaSpace :: .openCap :: (literal name ++ [.closeCap, .rep luaSpace, .atEnd])

/-- `parseRateDesc` -/
def parseRateDesc (rate : Str) : Nat :=
  match (strMatch (rateDesc bpsName) rate).or (strMatch (rateDesc bytesName) rate) with
  | some [a, b, c] =>
    let factor := if b = ascii "K" then 1000 else 1000 * 1000
    let bps := c = bpsName
    let maxRate := 2 * 1000 * 1000 * 1000
    let maxRate := if bps then maxRate * 8 else maxRate
    match tonumber a with
    | none => 0
    | some num =>
      if maxRate / factor < num then 0
      else
        let num := num * factor
        if bps then num / 8 else num
  | _ => 0

/-- The end of `tbqRateFromTCRate`. -/
def tbqRate (num : Nat) : Str :=
  if num % 1000000000 = 0 then CText.numeral 10 (num / 1000000000) ++ ascii "G"
  else if num % 1000000 = 0 then CText.numeral 10 (num / 1000000) ++ ascii "M"
  else if num % 1000 = 0 then CText.numeral 10 (num / 1000) ++ ascii "K"
  else CText.numeral 10 num

/-- `tbqRateFromTCRate`.  `parseRateDesc` always returns a number. -/
def tbqRateFromTCRate (rate : Str) : Str := tbqRate (parseRateDesc rate)

/-! ## 3. What the texts denote -/

/-- The text of a rate in its parts: blanks, digits, blanks, `K` or `M`, blanks, the name of the
unit, blanks. -/
structure RateForm (s digits : Str) (b : Byte) (name : Str) : Prop where
  nonempty : digits ≠ []
  isDigits : ∀ c ∈ digits, luaDigit c = true
  isMultiplier : b ∈ ascii "KM"
  parts : ∃ w₁ w₂ w₃ w₄ : Str, (∀ c ∈ w₁ ++ w₂ ++ w₃ ++ w₄, luaSpace c = true) ∧
    s = w₁ ++ (digits ++ (w₂ ++ b :: (w₃ ++ (name ++ w₄))))

/-- The bits per second of such a text. -/
def rateBits (digits : Str) (b : Byte) (name : Str) : Nat :=
  CText.valueOf 10 digits * (if b = 0x4b then 10 ^ 3 else 10 ^ 6) *
    (if name = bpsName then 1 else 8)

/-- The text denotes this many bits per second. -/
def SaysRate (s : Str) (bits : Nat) : Prop :=
  ∃ digits b name, name ∈ [bpsName, bytesName] ∧ RateForm s digits b name ∧
    bits = rateBits digits b name

/-- The limit, in bits per second. -/
def rateLimit : Nat := 16 * 10 ^ 9

/-- What `K`, `M` and `G` stand for, and no letter at all. -/
def multiplier : Str → Option Nat
  | [] => some 1
  | [c] =>
    if c = 0x4b then some (10 ^ 3)
    else if c = 0x4d then some (10 ^ 6)
    else if c = 0x47 then some (10 ^ 9)
    else none
  | _ => none

/-- The number that a text denotes: a decimal one, with an optional multiplier. -/
def rateValue (s : Str) : Option Nat :=
  if s.takeWhile luaDigit = [] then none
  else (multiplier (s.dropWhile luaDigit)).map (CText.valueOf 10 (s.takeWhile luaDigit) * ·)

/-! ## 4. Taking the text apart -/

theorem luaDigit_of_luaSpace {c : Byte} (h : luaSpace c = true) : luaDigit c = false := by
  have hall : ∀ c : BitVec 8, luaSpace c = true → luaDigit c = false := by decide
  exact hall c h

/-- A byte that is neither a blank nor a digit, like the letters of the text. -/
theorem letter_of_mem {c : Byte} (h : c ∈ ascii "KMbB") :
    luaSpace c = false ∧ luaDigit c = false := by
  have hall : ∀ c ∈ ascii "KMbB", luaSpace c = false ∧ luaDigit c = false := by decide
  exact hall c h

/-- The name of the unit and what is behind it. -/
theorem matchAt_name {name w : Str} (hw : ∀ c ∈ w, luaSpace c = true) (o : Str)
    (caps : List Str) :
    matchAt (.openCap :: (literal name ++ [.closeCap, .rep luaSpace, .atEnd])) o caps (name ++ w) =
      some (caps ++ [name], []) := by
  have hend : ∀ o caps, matchAt [.rep luaSpace, .atEnd] o caps w = some (caps, []) := by
    intro o caps
    rw [← List.append_nil w]
    exact matchAt_rep_append hw (fun c u _ => rfl) rfl
  rw [matchAt, matchAt_literal_append, matchAt, hend, take_capture]

theorem matchAt_name_space {name : Str} (hname : name ∈ [bpsName, bytesName])
    (is : List (Item Byte)) (o : Str) (caps : List Str) {c : Byte} (hc : luaSpace c = true)
    (u : Str) : matchAt (.openCap :: (literal name ++ is)) o caps (c :: u) = none := by
  have hfirst : ∀ x ∈ ascii "bB", c ≠ x := by
    rintro x hx rfl
    have hspace := (letter_of_mem (List.mem_append_right (ascii "KM") hx)).1
    exact Bool.false_ne_true (hspace.symm.trans hc)
  simp only [List.mem_cons, List.not_mem_nil, or_false] at hname
  rcases hname with rfl | rfl
  · exact if_neg fun hb => hfirst 0x62 (by decide) (of_decide_eq_true hb)
  · exact if_neg fun hb => hfirst 0x42 (by decide) (of_decide_eq_true hb)

/-- **What has the form is taken apart.** -/
theorem strMatch_of_rateForm {s digits name : Str} {b : Byte} (h : RateForm s digits b name)
    (hname : name ∈ [bpsName, bytesName]) :
    strMatch (rateDesc name) s = some [digits, [b], name] := by
  obtain ⟨w₁, w₂, w₃, w₄, hw, rfl⟩ := h.parts
  simp only [List.forall_mem_append] at hw
  obtain ⟨⟨⟨hw₁, hw₂⟩, hw₃⟩, hw₄⟩ := hw
  have hmult : ∀ c, luaSpace c = true ∨ luaDigit c = true → c ∉ ascii "KM" := by
    intro c hc hmem
    obtain ⟨hspace, hdigit⟩ := letter_of_mem (List.mem_append_left (ascii "bB") hmem)
    rcases hc with hc | hc
    · exact Bool.false_ne_true (hspace.symm.trans hc)
    · exact Bool.false_ne_true (hdigit.symm.trans hc)
  -- a class is never followed by something that begins with one of its characters
  have hall : anchored (rateDesc name) (w₁ ++ (digits ++ (w₂ ++ b :: (w₃ ++ (name ++ w₄))))) =
      some ([digits, [b], name], []) := by
    refine matchAt_rep_append hw₁ ?_ ?_
    · intro c u hc
      exact if_neg (by simp [luaDigit_of_luaSpace hc])
    rw [matchAt]
    refine matchAt_rep1_append h.nonempty h.isDigits ?_ ?_
    · intro c u hc
      have hspace : ¬ luaSpace c = true := fun hs => by simp [luaDigit_of_luaSpace hs] at hc
      rw [matchAt, matchAt, maxExpand, if_neg hspace]
      exact if_neg fun hmem => hmult c (Or.inr hc) (List.contains_iff_mem.mp hmem)
    rw [matchAt, take_capture]
    refine matchAt_rep_append hw₂ ?_ ?_
    · intro c u hc
      exact if_neg fun hmem => hmult c (Or.inl hc) (List.contains_iff_mem.mp hmem)
    rw [matchAt, matchAt, if_pos (List.contains_iff_mem.mpr h.isMultiplier), matchAt]
    refine matchAt_rep_append hw₃ ?_ ?_
    · intro c u hc
      exact matchAt_name_space hname _ _ _ hc u
    have hcap := take_capture [b] (w₃ ++ (name ++ w₄))
    rw [List.singleton_append] at hcap
    rw [hcap]
    exact matchAt_name hw₄ _ [digits, [b]]
  exact congrArg (Option.map Prod.fst) hall

/-- **What is taken apart has the form.** -/
theorem rateForm_of_strMatch {s name : Str} {caps : List Str}
    (h : strMatch (rateDesc name) s = some caps) :
    ∃ digits b, RateForm s digits b name ∧ caps = [digits, [b], name] := by
  obtain ⟨⟨caps', rest⟩, hmatch, rfl⟩ := Option.map_eq_some_iff.mp h
  obtain ⟨w₁, t₁, rfl, hw₁, digits, t₂, rfl, hne, hdigits, w₂, t₃, rfl, hw₂, b, t₄, rfl, hb, w₃,
    t₅, rfl, hw₃, hname⟩ := matches_of_matchAt hmatch
  obtain ⟨t₆, rfl, w₄, t₇, rfl, hw₄, rfl, hcaps⟩ := matches_literal_append hname
  refine ⟨digits, b, ⟨hne, hdigits, List.contains_iff_mem.mp hb, w₁, w₂, w₃, w₄, ?_, by simp⟩, ?_⟩
  · simp only [List.forall_mem_append]
    exact ⟨⟨⟨hw₁, hw₂⟩, hw₃⟩, hw₄⟩
  · obtain ⟨rfl, -⟩ := Prod.mk.inj hcaps
    simp

/-! ## 5. The number -/

theorem roundDouble_of_lt {n : Nat} (h : n < 2 ^ 53) : roundDouble n = n := by
  have hlog : n.log2 - 52 = 0 := by
    rcases Nat.eq_zero_or_pos n with rfl | hpos
    · rfl
    · have := (Nat.log2_lt (by omega)).mpr h
      omega
  rw [roundDouble, hlog]
  simp [Nat.mod_one]

/-- A number that is not exact stays above all that are. -/
theorem le_roundDouble {n : Nat} (h : 2 ^ 53 ≤ n) : 2 ^ 53 ≤ roundDouble n := by
  have hlog : 53 ≤ n.log2 := (Nat.le_log2 (by omega)).mpr h
  obtain ⟨e, he⟩ : ∃ e, n.log2 = 53 + e := Nat.exists_eq_add_of_le hlog
  have hunit : n.log2 - 52 = e + 1 := by omega
  have hq : 2 ^ 52 ≤ n / 2 ^ (e + 1) := by
    rw [Nat.le_div_iff_mul_le (Nat.two_pow_pos _), ← Nat.pow_add]
    have hlow := Nat.log2_self_le (n := n) (by omega)
    have hexp : 53 + e = 52 + (e + 1) := by omega
    rwa [he, hexp] at hlow
  have hfloor : 2 ^ 53 ≤ n / 2 ^ (e + 1) * 2 ^ (e + 1) :=
    calc 2 ^ 53 = 2 ^ 52 * 2 ^ 1 := by rw [← Nat.pow_add]
      _ ≤ n / 2 ^ (e + 1) * 2 ^ (e + 1) :=
        Nat.mul_le_mul hq (Nat.pow_le_pow_right (by decide) (by omega))
  rw [roundDouble, hunit]
  split
  · exact Nat.le_trans hfloor (Nat.mul_le_mul_right _ (Nat.le_succ _))
  · exact hfloor

/-- **A number is compared with a limit as if it were exact**, and is exact below it. -/
theorem tonumber_limit {limit : Nat} (hlimit : limit < 2 ^ 53) (s : Str) :
    CText.valueOf 10 s ≤ limit ∧ tonumber s = some (CText.valueOf 10 s) ∨
      limit < CText.valueOf 10 s ∧ ∀ n, tonumber s = some n → limit < n := by
  rcases Nat.lt_or_ge limit (CText.valueOf 10 s) with hlt | hle
  · refine Or.inr ⟨hlt, ?_⟩
    intro n hn
    obtain rfl := Option.some.inj (Option.ite_none_right_eq_some.mp hn).2
    rcases Nat.lt_or_ge (CText.valueOf 10 s) (2 ^ 53) with hexact | hbig
    · rw [roundDouble_of_lt hexact]
      exact hlt
    · exact Nat.lt_of_lt_of_le hlimit (le_roundDouble hbig)
  · refine Or.inl ⟨hle, ?_⟩
    have hexact : CText.valueOf 10 s < 2 ^ 53 := Nat.lt_of_le_of_lt hle hlimit
    have hlog : (CText.valueOf 10 s).log2 < 1024 := by
      rcases Nat.eq_zero_or_pos (CText.valueOf 10 s) with hzero | hpos
      · rw [hzero]
        decide
      · have := (Nat.log2_lt (by omega)).mpr hexact
        omega
    rw [tonumber, roundDouble_of_lt hexact, if_pos hlog]

theorem tonumber_capped {limit : Nat} (hlimit : limit < 2 ^ 53) (s : Str) (f : Nat → Nat) :
    (match tonumber s with
      | none => 0
      | some num => if limit < num then 0 else f num) =
      if CText.valueOf 10 s ≤ limit then f (CText.valueOf 10 s) else 0 := by
  rcases tonumber_limit hlimit s with ⟨hle, hs⟩ | ⟨hlt, hs⟩
  · simp [hs, hle, Nat.not_lt.mpr hle]
  · rw [if_neg (Nat.not_le.mpr hlt)]
    cases hn : tonumber s with
    | none => rfl
    | some n => exact if_pos (hs n hn)

/-- What is done with the parts of a text.  The limit in the units of the text is the limit in
bits. -/
theorem parseRateDesc_of_parts {s digits name : Str} {b : Byte} (hb : b ∈ ascii "KM")
    (hname : name ∈ [bpsName, bytesName])
    (h : (strMatch (rateDesc bpsName) s).or (strMatch (rateDesc bytesName) s) =
      some [digits, [b], name]) :
    parseRateDesc s =
      if rateBits digits b name ≤ rateLimit then rateBits digits b name / 8 else 0 := by
  have hparts : ∀ (limit : Nat) (f : Nat → Nat), limit < 2 ^ 53 →
      (CText.valueOf 10 digits ≤ limit ↔ rateBits digits b name ≤ rateLimit) →
      f (CText.valueOf 10 digits) = rateBits digits b name / 8 →
      (match tonumber digits with
        | none => 0
        | some num => if limit < num then 0 else f num) =
        if rateBits digits b name ≤ rateLimit then rateBits digits b name / 8 else 0 := by
    intro limit f hlimit hiff hf
    rw [tonumber_capped hlimit, hf, if_congr hiff rfl rfl]
  simp only [List.mem_cons, List.not_mem_nil, or_false] at hname
  have hletters : ∀ b ∈ ascii "KM", b = 0x4b ∨ b = 0x4d := by decide
  have hbytes : bytesName ≠ bpsName := by decide
  have hK : ([0x4b] : Str) = ascii "K" := rfl
  have hM : ([0x4d] : Str) ≠ ascii "K" := by decide
  have hM' : (0x4d : Byte) ≠ 0x4b := by decide
  rw [parseRateDesc, h]
  dsimp only
  rcases hletters b hb with rfl | rfl <;> rcases hname with rfl | rfl
  · rw [if_pos hK]
    simp only [if_true]
    refine hparts (2 * 1000 * 1000 * 1000 * 8 / 1000) (fun num => num * 1000 / 8) (by decide) ?_
      (by simp [rateBits])
    simp only [rateBits, rateLimit, if_true]
    omega
  · rw [if_pos hK]
    simp only [if_neg hbytes]
    refine hparts (2 * 1000 * 1000 * 1000 / 1000) (fun num => num * 1000) (by decide) ?_
      (by simp [rateBits, hbytes])
    simp only [rateBits, rateLimit, if_true, if_neg hbytes]
    omega
  · rw [if_neg hM]
    simp only [if_true]
    refine hparts (2 * 1000 * 1000 * 1000 * 8 / (1000 * 1000))
      (fun num => num * (1000 * 1000) / 8) (by decide) ?_ (by simp [rateBits])
    simp only [rateBits, rateLimit, if_true, if_neg hM']
    omega
  · rw [if_neg hM]
    simp only [if_neg hbytes]
    refine hparts (2 * 1000 * 1000 * 1000 / (1000 * 1000)) (fun num => num * (1000 * 1000))
      (by decide) ?_ (by simp [rateBits, hbytes])
    simp only [rateBits, rateLimit, if_neg hM', if_neg hbytes]
    omega

/-- The name of the unit can be read off the end of the text. -/
theorem RateForm.ending {s digits name : Str} {b : Byte} (h : RateForm s digits b name)
    (hname : name ∈ [bpsName, bytesName]) :
    name.reverse <+: s.reverse.dropWhile luaSpace := by
  obtain ⟨w₁, w₂, w₃, w₄, hw, rfl⟩ := h.parts
  have hw₄ : ∀ c ∈ w₄.reverse, luaSpace c = true := by
    intro c hc
    exact hw c (List.mem_append_right _ (List.mem_reverse.mp hc))
  have hfirst : ∀ t, (name.reverse ++ t).dropWhile luaSpace = name.reverse ++ t := by
    intro t
    simp only [List.mem_cons, List.not_mem_nil, or_false] at hname
    rcases hname with rfl | rfl <;> rfl
  simp only [List.reverse_append, List.reverse_cons, List.append_assoc]
  rw [List.dropWhile_append_of_pos hw₄, hfirst]
  exact List.prefix_append _ _

theorem parseRateDesc_eq {s digits name : Str} {b : Byte} (h : RateForm s digits b name)
    (hname : name ∈ [bpsName, bytesName]) :
    parseRateDesc s =
      if rateBits digits b name ≤ rateLimit then rateBits digits b name / 8 else 0 := by
  have hname' := hname
  simp only [List.mem_cons, List.not_mem_nil, or_false] at hname'
  refine parseRateDesc_of_parts h.isMultiplier hname ?_
  rcases hname' with rfl | rfl
  · rw [strMatch_of_rateForm h (by decide), Option.some_or]
  · cases hbps : strMatch (rateDesc bpsName) s with
    | none => rw [strMatch_of_rateForm h (by decide), Option.none_or]
    | some caps =>
      -- the text would end in both names
      obtain ⟨digits', b', h', -⟩ := rateForm_of_strMatch hbps
      have hlen : bpsName.reverse.length ≤ bytesName.reverse.length := by decide
      have hpre := List.prefix_of_prefix_length_le (h'.ending (by decide)) (h.ending (by decide))
        hlen
      exact absurd hpre (by decide)

theorem parseRateDesc_of_not {s : Str} (h : ∀ bits, ¬ SaysRate s bits) : parseRateDesc s = 0 := by
  have hnone : ∀ name ∈ [bpsName, bytesName], strMatch (rateDesc name) s = none := by
    intro name hname
    rw [Option.eq_none_iff_forall_ne_some]
    intro caps hcaps
    obtain ⟨digits, b, hform, -⟩ := rateForm_of_strMatch hcaps
    exact h _ ⟨digits, b, name, hname, hform, rfl⟩
  rw [parseRateDesc, hnone bpsName (by decide), hnone bytesName (by decide)]
  rfl

/-- What no rate has in it. -/
theorem parseRateDesc_of_mem {s : Str} {c : Byte} (hc : c ∈ s) (hspace : luaSpace c = false)
    (hdigit : luaDigit c = false) (hletter : c ∉ ascii "KMbpsBytes") : parseRateDesc s = 0 := by
  refine parseRateDesc_of_not ?_
  rintro bits ⟨digits, b, name, hname, hform, -⟩
  obtain ⟨w₁, w₂, w₃, w₄, hw, rfl⟩ := hform.parts
  have hblank : c ∉ w₁ ++ w₂ ++ w₃ ++ w₄ := fun h =>
    Bool.false_ne_true (hspace.symm.trans (hw c h))
  have hdigits : c ∉ digits := fun h =>
    Bool.false_ne_true (hdigit.symm.trans (hform.isDigits c h))
  have hletters : ∀ c ∈ ascii "KM", c ∈ ascii "KMbpsBytes" := by decide
  have hb : c ≠ b := by
    rintro rfl
    exact hletter (hletters c hform.isMultiplier)
  have hnames : ∀ name ∈ [bpsName, bytesName], ∀ c ∈ name, c ∈ ascii "KMbpsBytes" := by decide
  have hn : c ∉ name := fun h => hletter (hnames name hname c h)
  simp only [List.mem_append, List.mem_cons, not_or] at hc hblank
  rcases hc with h | h | h | h | h | h | h
  · exact hblank.1.1.1 h
  · exact hdigits h
  · exact hblank.1.1.2 h
  · exact hb h
  · exact hblank.1.2 h
  · exact hn h
  · exact hblank.2 h

/-! ## 6. The text that is printed -/

/-- A numeral with a multiplier behind it. -/
theorem rateValue_numeral_append {n m : Nat} {suffix : Str} (hm : multiplier suffix = some m) :
    rateValue (CText.numeral 10 n ++ suffix) = some (n * m) := by
  have hdigits : ∀ c ∈ CText.numeral 10 n, luaDigit c = true := by
    intro c hc
    exact decide_eq_true (CText.digit_of_mem_numeral (by decide) (by decide) c hc)
  have hsuffix : suffix.takeWhile luaDigit = [] ∧ suffix.dropWhile luaDigit = suffix := by
    match suffix with
    | [] => exact ⟨rfl, rfl⟩
    | [c] =>
      have hc : luaDigit c = false := by
        by_contra hc
        have hall : ∀ c : BitVec 8, luaDigit c ≠ false → multiplier [c] = none := by decide
        rw [hall c hc] at hm
        cases hm
      simp [hc]
    | _ :: _ :: _ => cases hm
  rw [rateValue, List.takeWhile_append_of_pos hdigits, List.dropWhile_append_of_pos hdigits,
    hsuffix.1, hsuffix.2, List.append_nil, if_neg (CText.numeral_ne_nil (by decide) n), hm,
    Option.map_some, CText.valueOf_numeral (by decide) (by decide)]

/-- **What is printed denotes the number.** -/
theorem rateValue_tbqRate (num : Nat) : rateValue (tbqRate num) = some num := by
  have hdiv : ∀ k, num % k = 0 → num / k * k = num := fun k h =>
    Nat.div_mul_cancel (Nat.dvd_of_mod_eq_zero h)
  unfold tbqRate
  split
  · next h =>
    rw [rateValue_numeral_append rfl]
    exact congrArg some (hdiv _ h)
  split
  · next h =>
    rw [rateValue_numeral_append rfl]
    exact congrArg some (hdiv _ h)
  split
  · next h =>
    rw [rateValue_numeral_append rfl]
    exact congrArg some (hdiv _ h)
  · have hplain : rateValue (CText.numeral 10 num ++ []) = some (num * 1) :=
      rateValue_numeral_append rfl
    rwa [List.append_nil, Nat.mul_one] at hplain

/-- **The conversion of rates.**  A text that denotes a rate of at most the limit becomes one that
denotes this rate in whole bytes; every other text becomes one that denotes 0. -/
theorem rateConversion (s : Str) :
    (∀ bits, SaysRate s bits → bits ≤ rateLimit →
      rateValue (tbqRateFromTCRate s) = some (bits / 8)) ∧
    ((¬ ∃ bits, SaysRate s bits ∧ bits ≤ rateLimit) →
      rateValue (tbqRateFromTCRate s) = some 0) := by
  rw [tbqRateFromTCRate, rateValue_tbqRate]
  constructor
  · rintro bits ⟨digits, b, name, hname, hform, rfl⟩ hle
    rw [parseRateDesc_eq hform hname, if_pos hle]
  · intro hnot
    by_cases hsays : ∃ bits, SaysRate s bits
    · obtain ⟨bits, digits, b, name, hname, hform, rfl⟩ := hsays
      rw [parseRateDesc_eq hform hname,
        if_neg fun hle => hnot ⟨_, ⟨digits, b, name, hname, hform, rfl⟩, hle⟩]
    · rw [parseRateDesc_of_not fun bits h => hsays ⟨bits, h⟩]

example : tbqRateFromTCRate (ascii " 12 Mbps") = ascii "1500K" := by decide
example : tbqRateFromTCRate (ascii "1M Byte") = ascii "0G" := by decide

end Puppies
