/-
# The JSON reader's text, in place

`Nxjson` has the parser over the list of the characters that it has still to read.  The source has
ONE buffer, through which it moves a pointer, and into which it writes the strings that it
unescapes.  Here are the functions that read and write this buffer: `unescape_string`, `parse_key`
and those that skip comments.  A pointer is an offset; an access outside the buffer has no result
(`none`), and neither has a loop whose bound was too small.

`AtText m p q` says that the C string at `p` is `q`.  Each function is compared with the one of
`Nxjson`: when the C string at its pointer is what that one is given, there is a result, it is the
same one, nothing in front of the pointer has changed, and **what is unescaped ends in front of
what is still to be read** (`unescapeStringC_spec`): so a string stays as it is for the rest of
the run.
-/
import Mathlib.Data.List.TakeDrop
import Puppies.Ntrack.NxTokens

namespace Puppies

open ByteMem

/-! ## 1. The buffer -/

/-- Store one byte. -/
def store (m : List Byte) (i : Nat) (b : Byte) : Option (List Byte) :=
  if i < m.length then some (m.set i b) else none

/-- Store some bytes. -/
def storeAll : List Byte → Nat → List Byte → Option (List Byte)
  | m, _, [] => some m
  | m, i, b :: bs => do
    let m ← store m i b
    storeAll m (i + 1) bs

/-- The C string at `p`. -/
def AtText (m : List Byte) (p : Nat) (q : Text) : Prop :=
  (∃ junk, m.drop p = q ++ 0 :: junk) ∧ (0 : Byte) ∉ q

theorem getElem?_of_drop {m r : List Byte} {p : Nat} {c : Byte} (h : m.drop p = c :: r) :
    m[p]? = some c := by
  rw [← List.head?_drop, h, List.head?_cons]

theorem drop_succ_of_drop {m r : List Byte} {p : Nat} {c : Byte} (h : m.drop p = c :: r) :
    m.drop (p + 1) = r := by
  rw [← List.drop_drop, h, List.drop_one, List.tail_cons]

section AtText

variable {m m' : List Byte} {p : Nat} {c : Byte} {q : Text}

theorem AtText.get_nil (h : AtText m p []) : m[p]? = some 0 := by
  obtain ⟨⟨junk, hdrop⟩, -⟩ := h
  exact getElem?_of_drop hdrop

theorem AtText.get_cons (h : AtText m p (c :: q)) : m[p]? = some c := by
  obtain ⟨⟨junk, hdrop⟩, -⟩ := h
  exact getElem?_of_drop hdrop

theorem AtText.ne_zero (h : AtText m p (c :: q)) : c ≠ 0 := by
  rintro rfl
  exact h.2 List.mem_cons_self

theorem AtText.tail (h : AtText m p (c :: q)) : AtText m (p + 1) q := by
  obtain ⟨⟨junk, hdrop⟩, hzero⟩ := h
  exact ⟨⟨junk, drop_succ_of_drop hdrop⟩, fun hmem => hzero (List.mem_cons_of_mem c hmem)⟩

/-- Reading on behind some characters. -/
theorem AtText.append {w : Text} (h : AtText m p (w ++ q)) : AtText m (p + w.length) q := by
  induction w generalizing p with
  | nil => exact h
  | cons c w ih =>
    rw [List.length_cons, Nat.add_comm w.length, ← Nat.add_assoc]
    exact ih h.tail

theorem AtText.congr (h : AtText m p q) (heq : m'.drop p = m.drop p) : AtText m' p q := by
  obtain ⟨⟨junk, hdrop⟩, hzero⟩ := h
  exact ⟨⟨junk, heq.trans hdrop⟩, hzero⟩

theorem AtText.lt_length (h : AtText m p q) : p + q.length < m.length := by
  obtain ⟨⟨junk, hdrop⟩, -⟩ := h
  have hlen := congrArg List.length hdrop
  rw [List.length_drop, List.length_append, List.length_cons] at hlen
  omega

/-- What is read at the pointer: the next character, or the terminating zero. -/
theorem AtText.get (h : AtText m p q) : m[p]? = some (q.headD 0) := by
  cases q with
  | nil => exact h.get_nil
  | cons c q => exact h.get_cons

/-- A buffer that has changed behind its first `d` bytes only. -/
structure Kept (m m' : List Byte) (d : Nat) : Prop where
  length : m'.length = m.length
  front : m'.take d = m.take d

theorem Kept.refl (m : List Byte) (d : Nat) : Kept m m d := ⟨rfl, rfl⟩

theorem Kept.mono {d d' : Nat} (h : Kept m m' d) (hle : d' ≤ d) : Kept m m' d' where
  length := h.length
  front := by
    rw [← Nat.min_eq_left hle, ← List.take_take, ← List.take_take, h.front]

theorem Kept.trans {m'' : List Byte} {d : Nat} (h : Kept m m' d) (h' : Kept m' m'' d) :
    Kept m m'' d :=
  ⟨h'.length.trans h.length, h'.front.trans h.front⟩

theorem Kept.get {d i : Nat} (h : Kept m m' d) (hi : i < d) : m'[i]? = m[i]? := by
  rw [← List.getElem?_take_of_lt hi, h.front, List.getElem?_take_of_lt hi]

/-- A string that ends in front of what has changed is still there. -/
theorem AtText.kept {d : Nat} (h : AtText m p q) (hk : Kept m m' d) (hlt : p + q.length < d) :
    AtText m' p q := by
  obtain ⟨⟨junk, hdrop⟩, hzero⟩ := h
  refine ⟨⟨(m'.drop p).drop (q.length + 1), ?_⟩, hzero⟩
  have htake : (m'.drop p).take (q.length + 1) = q ++ [0] := by
    have hfront : (m'.drop p).take (q.length + 1) = (m.drop p).take (q.length + 1) := by
      have hk' : Kept m m' (p + (q.length + 1)) := hk.mono (by omega)
      rw [List.take_drop, List.take_drop, hk'.front]
    rw [hfront, hdrop]
    simp [List.take_append]
  calc m'.drop p
      = (m'.drop p).take (q.length + 1) ++ (m'.drop p).drop (q.length + 1) :=
        (List.take_append_drop _ _).symm
    _ = q ++ 0 :: (m'.drop p).drop (q.length + 1) := by rw [htake]; simp

end AtText

/-- Some bytes that fit are stored, and nothing else changes. -/
theorem storeAll_of_le {m : List Byte} {d : Nat} (bs : List Byte) (h : d + bs.length ≤ m.length) :
    ∃ m', storeAll m d bs = some m' ∧ Kept m m' d ∧
      m'.drop d = bs ++ m.drop (d + bs.length) := by
  induction bs generalizing m d with
  | nil => exact ⟨m, rfl, .refl m d, rfl⟩
  | cons b bs ih =>
    rw [List.length_cons] at h
    have hlt : d < m.length := by omega
    have hone : (m.set d b).drop d = b :: m.drop (d + 1) := by
      rw [List.drop_eq_getElem_cons (by rwa [List.length_set]), List.getElem_set_self,
        List.drop_set_of_lt (Nat.lt_succ_self d)]
    obtain ⟨m', hstore, hkept, hdrop⟩ := ih (m := m.set d b) (d := d + 1)
      (by rw [List.length_set]; omega)
    refine ⟨m', ?_, ?_, ?_⟩
    · rw [storeAll, store, if_pos hlt]
      exact hstore
    · refine ⟨hkept.length.trans List.length_set, ?_⟩
      rw [(hkept.mono (Nat.le_succ d)).front, List.take_set_of_le (Nat.le_refl d)]
    · have hd : m'[d]? = some b := by
        rw [hkept.get (Nat.lt_succ_self d), List.getElem?_set_self hlt]
      obtain ⟨hlt', hget⟩ := List.getElem?_eq_some_iff.mp hd
      rw [List.drop_eq_getElem_cons hlt', hget, hdrop, List.drop_set_of_lt (by omega),
        List.length_cons, List.cons_append, Nat.add_assoc, Nat.add_comm 1]

theorem store_eq_storeAll (m : List Byte) (d : Nat) (b : Byte) :
    store m d b = storeAll m d [b] := by
  rw [storeAll]
  cases store m d b <;> rfl

/-! ## 2. Strings -/

/-- The four digits behind `p`, each read only if the one before it is a digit. -/
def hex4C (m : List Byte) (p : Nat) : Option (Option Nat) := do
  let c1 ← m[p + 1]?
  match hexVal c1 with
  | none => return none
  | some h1 =>
    let c2 ← m[p + 2]?
    match hexVal c2 with
    | none => return none
    | some h2 =>
      let c3 ← m[p + 3]?
      match hexVal c3 with
      | none => return none
      | some h3 =>
        let c4 ← m[p + 4]?
        match hexVal c4 with
        | none => return none
        | some h4 => return some (h1 * 4096 + h2 * 256 + h3 * 16 + h4)

/-- The case `'u'` of `unescape_string`, `p` being at the `u`: the bytes it stores and where it
goes on. -/
def unescapeUnicodeC (m : List Byte) (p : Nat) : Option (Option (List Byte × Nat)) := do
  match ← hex4C m p with
  | none => return none
  | some codepoint =>
    if codepoint / 1024 = 0xd800 / 1024 then
      let c ← m[p + 5]?
      if c ≠ 0x5c then return none
      else
        let u ← m[p + 6]?
        if u ≠ 0x75 then return none
        else
          match ← hex4C m (p + 6) with
          | none => return none
          | some codepoint2 =>
            if codepoint2 / 1024 = 0xdc00 / 1024 then
              let codepoint := 0x10000 + (codepoint - 0xd800) * 1024 + (codepoint2 - 0xdc00)
              return (unicodeToUtf8 codepoint).map fun bs => (bs, p + 11)
            else return none
    else return (unicodeToUtf8 codepoint).map fun bs => (bs, p + 5)

/-- `unescape_string`, reading at `p` and writing at `d`: the buffer, and the pointer behind the
closing quote, if there is one. -/
def unescapeStringC : Nat → List Byte → Nat → Nat → Option (List Byte × Option Nat)
  | 0, _, _, _ => none
  | fuel + 1, m, p, d => do
    let c ← m[p]?
    if c = 0 then return (m, none)
    else if c = 0x22 then
      let m ← store m d 0
      return (m, some (p + 1))
    else if c = 0x5c then
      let e ← m[p + 1]?
      if e = 0x75 then
        match ← unescapeUnicodeC m (p + 1) with
        | none => return (m, none)
        | some (bs, p) =>
          let m ← storeAll m d bs
          unescapeStringC fuel m p (d + bs.length)
      else match escapedByte e with
        | some b =>
          let m ← store m d b
          unescapeStringC fuel m (p + 2) (d + 1)
        -- leave untouched
        | none =>
          let m ← store m d c
          unescapeStringC fuel m (p + 1) (d + 1)
    else
      let m ← store m d c
      unescapeStringC fuel m (p + 1) (d + 1)

section Strings

variable {m : List Byte} {p : Nat} {q : Text}

theorem hex4C_spec (h : AtText m (p + 1) q) : hex4C m p = some ((hex4 q).map Prod.fst) := by
  have hzero : hexVal 0#8 = none := by decide
  match q, h with
  | [], h => simp [hex4C, h.get_nil, hzero, hex4]
  | [a], h =>
    have h2 : AtText m (p + 2) [] := h.tail
    cases ha : hexVal a <;> simp [hex4C, h.get_cons, h2.get_nil, ha, hzero, hex4]
  | [a, b], h =>
    have h2 : AtText m (p + 2) [b] := h.tail
    have h3 : AtText m (p + 3) [] := h2.tail
    cases ha : hexVal a <;> cases hb : hexVal b <;>
      simp [hex4C, h.get_cons, h2.get_cons, h3.get_nil, ha, hb, hzero, hex4]
  | [a, b, c], h =>
    have h2 : AtText m (p + 2) [b, c] := h.tail
    have h3 : AtText m (p + 3) [c] := h2.tail
    have h4 : AtText m (p + 4) [] := h3.tail
    cases ha : hexVal a <;> cases hb : hexVal b <;> cases hc : hexVal c <;>
      simp [hex4C, h.get_cons, h2.get_cons, h3.get_cons, h4.get_nil, ha, hb, hc, hzero, hex4]
  | a :: b :: c :: d :: r, h =>
    have h2 : AtText m (p + 2) (b :: c :: d :: r) := h.tail
    have h3 : AtText m (p + 3) (c :: d :: r) := h2.tail
    have h4 : AtText m (p + 4) (d :: r) := h3.tail
    cases ha : hexVal a <;> cases hb : hexVal b <;> cases hc : hexVal c <;>
      cases hd : hexVal d <;>
      simp [hex4C, h.get_cons, h2.get_cons, h3.get_cons, h4.get_cons, ha, hb, hc, hd, hex4]

theorem length_of_hex4 {u : Text} {n : Nat} (h : hex4 u = some (n, [])) : u.length = 4 := by
  unfold hex4 at h
  split at h
  · simp only [bind, Option.bind_eq_some_iff, pure, Option.some.injEq, Prod.mk.injEq] at h
    obtain ⟨-, -, -, -, -, -, -, -, -, hrest⟩ := h
    simp [hrest]
  · exact absurd h (by simp)

theorem length_utf8_le (ch : Char) : (utf8 ch).length ≤ 4 := by
  rw [utf8, List.length_map, String.length_utf8EncodeChar]
  exact ch.utf8Size_le_four

/-- The same bytes, and the pointer behind the escape. -/
theorem unescapeUnicodeC_ok {bs : List Byte} {q' : Text} (h : AtText m (p + 1) q)
    (hq : unescapeUnicode q = .ok (bs, q')) : ∃ u, q = u ++ q' ∧ bs.length ≤ u.length ∧
      unescapeUnicodeC m p = some (some (bs, p + 1 + u.length)) := by
  obtain ⟨u, ch, rfl, hu, rfl⟩ := unescapeUnicode_sound hq
  cases hu with
  | one hu =>
    have hlen := length_of_hex4 hu
    have hval : ch.toNat < 0xd800 ∨ 0xdfff < ch.toNat ∧ ch.toNat < 0x110000 := ch.valid
    have hhex : hex4C m p = some (some ch.toNat) := by
      rw [hex4C_spec h, hex4_append hu]
      rfl
    refine ⟨u, rfl, hlen ▸ length_utf8_le ch, ?_⟩
    rw [unescapeUnicodeC, hhex, hlen]
    simp only [Option.bind_eq_bind, Option.bind_some]
    rw [if_neg (by omega), unicodeToUtf8_toNat]
    rfl
  | @two u u' hi lo _ hu hu' hhi hlo hch =>
    have hlen := length_of_hex4 hu
    have hlen' := length_of_hex4 hu'
    have hmid : AtText m (p + 5) (0x5c :: 0x75 :: (u' ++ q')) := by
      have happ := AtText.append (w := u) (q := 0x5c :: 0x75 :: (u' ++ q')) (by simpa using h)
      rwa [hlen, Nat.add_assoc] at happ
    have hhex : hex4C m p = some (some hi) := by
      rw [hex4C_spec h, List.append_assoc, hex4_append hu]
      rfl
    have hhex' : hex4C m (p + 6) = some (some lo) := by
      rw [hex4C_spec hmid.tail.tail, hex4_append hu']
      rfl
    have htotal : (u ++ 0x5c :: 0x75 :: u').length = 10 := by simp [hlen, hlen']
    refine ⟨_, rfl, by rw [htotal]; exact (length_utf8_le ch).trans (by omega), ?_⟩
    rw [unescapeUnicodeC, hhex, htotal]
    simp only [Option.bind_eq_bind, Option.bind_some]
    rw [if_pos (by omega), hmid.get_cons, Option.bind_some, if_neg (by simp),
      hmid.tail.get_cons, Option.bind_some, if_neg (by simp), hhex', Option.bind_some]
    dsimp only
    rw [if_pos (by omega), ← hch, unicodeToUtf8_toNat]
    rfl

/-- And no result where there is none. -/
theorem unescapeUnicodeC_error {e : NxError} (h : AtText m (p + 1) q)
    (hq : unescapeUnicode q = .error e) : unescapeUnicodeC m p = some none := by
  have hno : ∀ u ch q', q = u ++ q' → ¬ UnicodeText u ch := by
    rintro u ch q' rfl hu
    rw [unescapeUnicode_complete hu] at hq
    exact absurd hq (by simp)
  have hbytes : ∀ n u q', q = u ++ q' → (∀ ch : Char, ch.toNat = n → UnicodeText u ch) →
      unicodeToUtf8 n = none := by
    intro n u q' hu hch
    cases hbs : unicodeToUtf8 n with
    | none => rfl
    | some bs =>
      obtain ⟨ch, hn, -⟩ := unicodeToUtf8_some hbs
      exact absurd (hch ch hn) (hno u ch q' hu)
  rw [unescapeUnicodeC, hex4C_spec h]
  cases hx : hex4 q with
  | none => rfl
  | some r =>
    obtain ⟨hi, q₁⟩ := r
    simp only [Option.map_some, Option.bind_eq_bind, Option.bind_some]
    obtain ⟨u, rfl, hu⟩ := hex4_split hx
    have hmid : AtText m (p + 5) q₁ := by
      have happ := h.append
      rwa [length_of_hex4 hu, Nat.add_assoc] at happ
    by_cases hhi : hi / 1024 = 0xd800 / 1024
    · rw [if_pos hhi, hmid.get, Option.bind_some]
      by_cases hslash : q₁.headD 0 = 0x5c
      · rw [if_neg (by simpa using hslash)]
        cases q₁ with
        | nil => exact absurd hslash (by decide)
        | cons c q₂ =>
          obtain rfl : c = 0x5c := hslash
          rw [hmid.tail.get, Option.bind_some]
          by_cases hletter : q₂.headD 0 = 0x75
          · rw [if_neg (by simpa using hletter)]
            cases q₂ with
            | nil => exact absurd hletter (by decide)
            | cons c q₃ =>
              obtain rfl : c = 0x75 := hletter
              rw [hex4C_spec hmid.tail.tail, Option.bind_some]
              cases hx' : hex4 q₃ with
              | none => rfl
              | some r' =>
                obtain ⟨lo, q₄⟩ := r'
                obtain ⟨u', rfl, hu'⟩ := hex4_split hx'
                simp only [Option.map_some]
                by_cases hlo : lo / 1024 = 0xdc00 / 1024
                · rw [if_pos hlo, hbytes _ (u ++ 0x5c :: 0x75 :: u') q₄ (by simp) fun ch hch =>
                    .two hu hu' (by omega) (by omega) hch]
                  rfl
                · rw [if_neg hlo]
                  rfl
          · rw [if_pos (by simpa using hletter)]
            rfl
      · rw [if_pos (by simpa using hslash)]
        rfl
    · rw [if_neg hhi, hbytes hi u q₁ rfl fun ch hch => .one (hch ▸ hu)]
      rfl

/-- **In place.**  What `unescape_string` leaves, from `d` on: the bytes of the string and a zero,
in front of what is still to be read. -/
def Unescaped (m : List Byte) (d p : Nat) (q : Text) :
    Except NxError (List Byte × Text) → Option (List Byte × Option Nat) → Prop
  | .ok (bs, q'), r => ∃ m' e junk, r = some (m', some e) ∧ Kept m m' d ∧ AtText m' e q' ∧
      m'.drop d = bs ++ 0 :: junk ∧ d + bs.length < e ∧ ∃ w, q = w ++ q' ∧ e = p + w.length
  | .error _, r => ∃ m', r = some (m', none) ∧ Kept m m' d

/-- Some bytes first, and the rest behind them. -/
theorem Unescaped.prepend {m₁ : List Byte} {d p₁ : Nat} {w q₁ bs : Text}
    {x : Except NxError (List Byte × Text)} {r : Option (List Byte × Option Nat)}
    (hk : Kept m m₁ d) (hd : (m₁.drop d).take bs.length = bs) (hp : p₁ = p + w.length)
    (h : Unescaped m₁ (d + bs.length) p₁ q₁ x r) :
    Unescaped m d p (w ++ q₁) (do let (cs, q) ← x; return (bs ++ cs, q)) r := by
  cases x with
  | error e =>
    obtain ⟨m', rfl, hk'⟩ := h
    exact ⟨m', rfl, hk.trans (hk'.mono (Nat.le_add_right _ _))⟩
  | ok s =>
    obtain ⟨cs, q'⟩ := s
    obtain ⟨m', e, junk, rfl, hk', htext, hdrop, hlt, v, rfl, he⟩ := h
    refine ⟨m', e, junk, rfl, hk.trans (hk'.mono (Nat.le_add_right _ _)), htext, ?_, ?_,
      w ++ v, by rw [List.append_assoc], ?_⟩
    · have hfront : (m'.drop d).take bs.length = bs := by
        rw [← hd, List.length_take_of_le (by
          have hlen := congrArg List.length hd
          rw [List.length_take] at hlen
          omega), List.take_drop, List.take_drop, hk'.front]
      calc m'.drop d = (m'.drop d).take bs.length ++ (m'.drop d).drop bs.length :=
            (List.take_append_drop _ _).symm
        _ = bs ++ cs ++ 0 :: junk := by rw [hfront, List.drop_drop, hdrop, List.append_assoc]
    · rw [List.length_append]
      omega
    · rw [List.length_append]
      omega

/-- `unescape_string` is as in `Nxjson`, with these bounds for the turns of its loop. -/
def StringRefined (fuel fuel' : Nat) : Prop :=
  ∀ m p d q, AtText m p q → d ≤ p → q.length < fuel' →
    unescapeString fuel q ≠ .error .outOfFuel →
    Unescaped m d p q (unescapeString fuel q) (unescapeStringC fuel' m p d)

section Turns

variable {d fuel fuel' : Nat}

/-- The closing quote. -/
theorem unescaped_quote (h : AtText m p (0x22 :: q)) (hd : d ≤ p) :
    Unescaped m d p (0x22 :: q) (.ok ([], q))
      ((store m d 0).bind fun m => some (m, some (p + 1))) := by
  have hend := h.lt_length
  rw [List.length_cons] at hend
  obtain ⟨m₁, hstore, hkept, hdrop⟩ :=
    storeAll_of_le (m := m) (d := d) [0] (by rw [List.length_singleton]; omega)
  rw [store_eq_storeAll, hstore]
  refine ⟨m₁, p + 1, m.drop (d + 1), rfl, hkept, ?_, hdrop, by simp; omega, [0x22], rfl, rfl⟩
  refine h.tail.congr ?_
  have hsplit : p + 1 = d + (1 + (p - d)) := by omega
  rw [hsplit, ← List.drop_drop, hdrop, ← List.drop_drop]
  simp only [List.length_singleton, List.singleton_append, List.drop_one, List.tail_cons,
    List.drop_drop, Nat.add_assoc]

/-- One turn of the loop: some bytes are stored where text has been read, and the rest follows. -/
theorem StringRefined.turn (hrest : StringRefined fuel fuel') (w bs : Text)
    (h : AtText m p (w ++ q)) (hd : d ≤ p) (hlen : bs.length ≤ w.length) (hq : q.length < fuel')
    (hfuel : unescapeString fuel q ≠ .error .outOfFuel) :
    Unescaped m d p (w ++ q) (do let (cs, q) ← unescapeString fuel q; return (bs ++ cs, q))
      ((storeAll m d bs).bind fun m =>
        unescapeStringC fuel' m (p + w.length) (d + bs.length)) := by
  have hend := h.lt_length
  rw [List.length_append] at hend
  obtain ⟨m₁, hstore, hkept, hdrop⟩ := storeAll_of_le (m := m) (d := d) bs (by omega)
  have htext : AtText m₁ (p + w.length) q := by
    refine h.append.congr ?_
    have hsplit : p + w.length = d + (bs.length + (p + w.length - d - bs.length)) := by omega
    rw [hsplit, ← List.drop_drop, hdrop, ← List.drop_drop, List.drop_left, List.drop_drop]
    congr 1
    omega
  rw [hstore, Option.bind_some]
  exact .prepend hkept (by rw [hdrop, List.take_left]) rfl
    (hrest m₁ _ _ q htext (by omega) hq hfuel)

/-- One byte is stored. -/
theorem StringRefined.turn_one (hrest : StringRefined fuel fuel') (w : Text) (b : Byte)
    (h : AtText m p (w ++ q)) (hd : d ≤ p) (hw : 1 ≤ w.length) (hq : q.length < fuel')
    (hfuel : unescapeString fuel q ≠ .error .outOfFuel) :
    Unescaped m d p (w ++ q) (do let (cs, q) ← unescapeString fuel q; return ([b] ++ cs, q))
      ((store m d b).bind fun m => unescapeStringC fuel' m (p + w.length) (d + 1)) := by
  rw [store_eq_storeAll]
  exact hrest.turn w [b] h hd hw hq hfuel

/-- The escape of a code point. -/
theorem StringRefined.turn_unicode (hrest : StringRefined fuel fuel')
    (h : AtText m p (0x5c :: 0x75 :: q)) (hd : d ≤ p) (hq : q.length < fuel')
    (hfuel : (do
      let (bs, q) ← unescapeUnicode q
      let (cs, q) ← unescapeString fuel q
      return (bs ++ cs, q)) ≠ .error .outOfFuel) :
    Unescaped m d p (0x5c :: 0x75 :: q)
      (do
        let (bs, q) ← unescapeUnicode q
        let (cs, q) ← unescapeString fuel q
        return (bs ++ cs, q))
      ((unescapeUnicodeC m (p + 1)).bind fun
        | none => some (m, none)
        | some (bs, p) =>
          (storeAll m d bs).bind fun m => unescapeStringC fuel' m p (d + bs.length)) := by
  cases hx : unescapeUnicode q with
  | error err =>
    rw [unescapeUnicodeC_error h.tail.tail hx]
    exact ⟨m, rfl, .refl m d⟩
  | ok r =>
    obtain ⟨bs, q'⟩ := r
    obtain ⟨u, rfl, hlen, hC⟩ := unescapeUnicodeC_ok h.tail.tail hx
    rw [hx] at hfuel
    rw [List.length_append] at hq
    have hp : p + (0x5c :: 0x75 :: u).length = p + 1 + 1 + u.length := by
      simp only [List.length_cons]
      omega
    have hturn := hrest.turn (0x5c :: 0x75 :: u) bs h hd (by simp; omega) (by omega)
      (ne_outOfFuel_of_bind hfuel)
    rw [hp] at hturn
    rw [hC]
    exact hturn

end Turns

/-- **`unescape_string`** on the buffer. -/
theorem unescapeStringC_spec {fuel d : Nat} (fuel' : Nat) (h : AtText m p q) (hd : d ≤ p)
    (hfuel' : q.length < fuel') (hfuel : unescapeString fuel q ≠ .error .outOfFuel) :
    Unescaped m d p q (unescapeString fuel q) (unescapeStringC fuel' m p d) := by
  induction fuel generalizing fuel' m p d q with
  | zero => exact absurd rfl hfuel
  | succ fuel ih =>
    obtain ⟨fuel', rfl⟩ : ∃ k, fuel' = k + 1 := ⟨fuel' - 1, by omega⟩
    have hrest : StringRefined fuel fuel' := fun m p d q h hd hq => ih fuel' h hd hq
    rw [unescapeStringC, h.get]
    simp only [Option.bind_eq_bind, Option.bind_some]
    cases q with
    | nil => exact ⟨m, by rw [List.headD_nil, if_pos rfl]; rfl, .refl m d⟩
    | cons c q =>
      rw [List.length_cons] at hfuel'
      rw [List.headD_cons, if_neg h.ne_zero]
      rw [unescapeString] at hfuel ⊢
      by_cases hquote : c = 0x22
      · subst hquote
        rw [if_pos rfl, if_pos rfl]
        exact unescaped_quote h hd
      rw [if_neg hquote] at hfuel ⊢
      rw [if_neg hquote]
      by_cases hslash : c = 0x5c
      · subst hslash
        rw [if_pos rfl] at hfuel ⊢
        rw [if_pos rfl, h.tail.get, Option.bind_some]
        cases q with
        | nil =>
          have hnone : escapedByte 0 = none := by decide
          rw [List.headD_nil, if_neg (by decide), hnone]
          exact hrest.turn_one [0x5c] 0x5c h hd (Nat.le_refl 1) (by simpa using hfuel')
            (ne_outOfFuel_of_bind hfuel)
        | cons e q =>
          rw [List.length_cons] at hfuel'
          rw [List.headD_cons]
          dsimp only at hfuel ⊢
          by_cases hu : e = 0x75
          · subst hu
            rw [if_pos rfl] at hfuel ⊢
            rw [if_pos rfl]
            exact hrest.turn_unicode h hd (by omega) hfuel
          · rw [if_neg hu] at hfuel ⊢
            rw [if_neg hu]
            cases he : escapedByte e with
            | some b =>
              rw [he] at hfuel
              exact hrest.turn_one [0x5c, e] b h hd (by simp) (by omega)
                (ne_outOfFuel_of_bind hfuel)
            | none =>
              rw [he] at hfuel
              exact hrest.turn_one [0x5c] 0x5c h hd (Nat.le_refl 1) (by simp; omega)
                (ne_outOfFuel_of_bind hfuel)
      · rw [if_neg hslash] at hfuel ⊢
        rw [if_neg hslash]
        exact hrest.turn_one [c] c h hd (Nat.le_refl 1) (by omega) (ne_outOfFuel_of_bind hfuel)

end Strings

/-! ## 3. Comments and keys -/

/-- `strchr`, for a character that is not the terminating zero. -/
def strchrC : Nat → List Byte → Nat → Byte → Option (Option Nat)
  | 0, _, _, _ => none
  | fuel + 1, m, p, ch => do
    let c ← m[p]?
    if c = ch then return some p
    else if c = 0 then return none
    else strchrC fuel m (p + 1) ch

/-- The loop of `skip_block_comment`. -/
def skipBlockLoopC : Nat → List Byte → Nat → Option (Option Nat)
  | 0, _, _ => none
  | fuel + 1, m, p => do
    match ← strchrC (m.length + 1) m (p + 1) 0x2f with
    | none => return none
    | some p =>
      let prev ← m[p - 1]?
      if prev ≠ 0x2a then skipBlockLoopC fuel m p
      else return some (p + 1)

/-- `skip_block_comment` -/
def skipBlockCommentC (m : List Byte) (p : Nat) : Option (Option Nat) := do
  let c ← m[p]?
  if c = 0 then return none
  else skipBlockLoopC (m.length + 1) m p

/-- A comment, `p` being behind its first `/`. -/
def skipCommentC (m : List Byte) (p : Nat) : Option (Option Nat) := do
  let c ← m[p]?
  if c = 0x2f then
    match ← strchrC (m.length + 1) m (p + 1) 0x0a with
    | none => return none
    | some p => return some (p + 1)
  else if c = 0x2a then skipBlockCommentC m (p + 1)
  else return none

/-- Behind the blanks. -/
def skipSpaceC : Nat → List Byte → Nat → Option Nat
  | 0, _, _ => none
  | fuel + 1, m, p => do
    let c ← m[p]?
    if c ≠ 0 ∧ isWhitespace c = true then skipSpaceC fuel m (p + 1) else return p

/-- `parse_key`: the buffer, the key as a pointer, and where the value starts, or the closing
brace. -/
def parseKeyC : Nat → List Byte → Nat → Option (List Byte × Option (Option Nat × Nat))
  | 0, _, _ => none
  | fuel + 1, m, p => do
    let c ← m[p]?
    if c = 0 then return (m, none)
    else if c = 0x22 then
      match ← unescapeStringC (m.length + 1) m (p + 1) (p + 1) with
      | (m, none) => return (m, none)
      | (m, some q) =>
        let q ← skipSpaceC (m.length + 1) m q
        let d ← m[q]?
        if d = 0x3a then return (m, some (some (p + 1), q + 1)) else return (m, none)
    else if isWhitespace c || c == 0x2c then parseKeyC fuel m (p + 1)
    else if c = 0x7d then return (m, some (none, p))
    else if c = 0x2f then
      match ← skipCommentC m (p + 1) with
      | none => return (m, none)
      | some p => parseKeyC fuel m p
    else return (m, none)

section Comments

variable {m : List Byte} {p : Nat} {q : Text}

theorem strchrC_absent {fuel : Nat} {ch : Byte} (h : AtText m p q) (hfuel : q.length < fuel)
    (hch : ch ∉ q) (hzero : ch ≠ 0) : strchrC fuel m p ch = some none := by
  induction q generalizing fuel p with
  | nil =>
    obtain ⟨fuel, rfl⟩ : ∃ k, fuel = k + 1 := ⟨fuel - 1, by omega⟩
    rw [strchrC, h.get_nil]
    simp only [Option.bind_eq_bind, Option.bind_some]
    rw [if_neg (Ne.symm hzero), if_pos trivial]
    rfl
  | cons c q ih =>
    obtain ⟨fuel, rfl⟩ : ∃ k, fuel = k + 1 := ⟨fuel - 1, by omega⟩
    rw [List.mem_cons, not_or] at hch
    rw [List.length_cons] at hfuel
    rw [strchrC, h.get_cons]
    simp only [Option.bind_eq_bind, Option.bind_some]
    rw [if_neg (Ne.symm hch.1), if_neg h.ne_zero]
    exact ih h.tail (by omega) hch.2

theorem strchrC_first {fuel : Nat} {ch : Byte} {u r : Text} (h : AtText m p (u ++ ch :: r))
    (hfuel : (u ++ ch :: r).length < fuel) (hch : ch ∉ u) :
    strchrC fuel m p ch = some (some (p + u.length)) := by
  induction u generalizing fuel p with
  | nil =>
    obtain ⟨fuel, rfl⟩ : ∃ k, fuel = k + 1 := ⟨fuel - 1, by omega⟩
    rw [strchrC, h.get_cons]
    simp only [Option.bind_eq_bind, Option.bind_some]
    rw [if_pos trivial]
    rfl
  | cons c u ih =>
    obtain ⟨fuel, rfl⟩ : ∃ k, fuel = k + 1 := ⟨fuel - 1, by omega⟩
    rw [List.mem_cons, not_or] at hch
    rw [List.cons_append, List.length_cons] at hfuel
    rw [List.cons_append] at h
    rw [strchrC, h.get_cons]
    simp only [Option.bind_eq_bind, Option.bind_some]
    rw [if_neg (Ne.symm hch.1), if_neg h.ne_zero, ih h.tail (by omega) hch.2, List.length_cons,
      Nat.add_assoc, Nat.add_comm 1]

/-- The last of some characters, the first of which is at `p`. -/
theorem getElem?_getLast {prev : Byte} {u : Text} (hprev : m[p]? = some prev)
    (h : AtText m (p + 1) (u ++ q)) :
    m[p + u.length]? = some ((prev :: u).getLast (List.cons_ne_nil _ _)) := by
  induction u generalizing p prev with
  | nil => exact hprev
  | cons c u ih =>
    rw [List.cons_append] at h
    rw [List.length_cons, Nat.add_comm u.length, ← Nat.add_assoc,
      List.getLast_cons (List.cons_ne_nil c u)]
    exact ih h.get_cons h.tail

/-- What a function that skips something returns: the pointer behind what is skipped. -/
def Skipped (p : Nat) (q : Text) : Except NxError Text → Option (Option Nat) → Prop
  | .ok q', r => ∃ w, q = w ++ q' ∧ r = some (some (p + w.length))
  | .error _, r => r = some none

theorem skipBlockComment_absent {prev : Byte} (h : 0x2f ∉ q) :
    skipBlockComment prev q = .error .endlessComment := by
  induction q generalizing prev with
  | nil => rfl
  | cons c q ih =>
    rw [List.mem_cons, not_or] at h
    rw [skipBlockComment, if_neg fun hc => h.1 hc.1.symm]
    exact ih h.2

/-- Up to the first slash, only the character in front of it matters. -/
theorem skipBlockComment_slash {prev : Byte} {u r : Text} (hu : 0x2f ∉ u) :
    skipBlockComment prev (u ++ 0x2f :: r) =
      if (prev :: u).getLast (List.cons_ne_nil _ _) = 0x2a then .ok r
      else skipBlockComment 0x2f r := by
  induction u generalizing prev with
  | nil =>
    rw [List.nil_append, skipBlockComment, List.getLast_singleton]
    by_cases hprev : prev = 0x2a
    · rw [if_pos ⟨rfl, hprev⟩, if_pos hprev]
    · rw [if_neg fun h => hprev h.2, if_neg hprev]
  | cons c u ih =>
    rw [List.mem_cons, not_or] at hu
    rw [List.cons_append, skipBlockComment, if_neg fun h => hu.1 h.1.symm, ih hu.2,
      List.getLast_cons (List.cons_ne_nil c u)]

theorem skipBlockLoopC_spec (fuel : Nat) {prev : Byte} (hprev : m[p]? = some prev)
    (h : AtText m (p + 1) q) (hfuel : q.length < fuel) :
    Skipped (p + 1) q (skipBlockComment prev q) (skipBlockLoopC fuel m p) := by
  induction fuel generalizing p q prev with
  | zero => exact absurd hfuel (Nat.not_lt_zero _)
  | succ fuel ih =>
    have hlen := h.lt_length
    rw [skipBlockLoopC]
    by_cases hq : 0x2f ∈ q
    · obtain ⟨u, r, rfl, hu⟩ := List.eq_append_cons_of_mem hq
      rw [List.length_append, List.length_cons] at hfuel hlen
      have hlast : m[p + 1 + u.length - 1]? =
          some ((prev :: u).getLast (List.cons_ne_nil _ _)) := by
        rw [Nat.add_right_comm, Nat.add_sub_cancel]
        exact getElem?_getLast hprev h
      rw [strchrC_first h (by rw [List.length_append, List.length_cons]; omega) hu,
        skipBlockComment_slash hu]
      simp only [Option.bind_eq_bind, Option.bind_some]
      rw [hlast, Option.bind_some]
      by_cases hstar : (prev :: u).getLast (List.cons_ne_nil _ _) = 0x2a
      · rw [if_pos hstar, if_neg (by simpa using hstar)]
        exact ⟨u ++ [0x2f], by simp, by simp [Nat.add_assoc]⟩
      · rw [if_neg hstar, if_pos hstar]
        have hslash := h.append
        have hrest := ih hslash.get_cons hslash.tail (by omega)
        cases hx : skipBlockComment 0x2f r with
        | error e =>
          rw [hx] at hrest
          exact hrest
        | ok q' =>
          rw [hx] at hrest
          obtain ⟨w, rfl, hw⟩ := hrest
          exact ⟨u ++ 0x2f :: w, by simp, by rw [hw]; simp; omega⟩
    · rw [skipBlockComment_absent hq, strchrC_absent h (by omega) hq (by decide)]
      rfl

/-- **A comment is skipped.** -/
theorem skipCommentC_spec (h : AtText m p q) :
    Skipped p q (skipComment q) (skipCommentC m p) := by
  have hlen := h.lt_length
  rw [skipCommentC, h.get]
  simp only [Option.bind_eq_bind, Option.bind_some]
  cases q with
  | nil =>
    rw [List.headD_nil, if_neg (by decide), if_neg (by decide)]
    rfl
  | cons c q =>
    rw [List.length_cons] at hlen
    rw [List.headD_cons]
    by_cases hline : c = 0x2f
    · subst hline
      rw [if_pos rfl]
      by_cases hq : 0x0a ∈ q
      · obtain ⟨u, r, rfl, hu⟩ := List.eq_append_cons_of_mem hq
        rw [strchrC_first h.tail (by omega) hu]
        have hskip : skipComment (0x2f :: (u ++ 0x0a :: r)) = .ok r := skipLineComment_complete hu r
        rw [hskip]
        refine ⟨0x2f :: (u ++ [0x0a]), by simp, ?_⟩
        simp only [Option.bind_some, List.length_cons, List.length_append, List.length_nil]
        rw [show p + 1 + u.length + 1 = p + (u.length + (0 + 1) + 1) by omega]
        rfl
      · rw [strchrC_absent h.tail (by omega) hq (by decide)]
        have hskip : ∀ q : Text, 0x0a ∉ q → skipLineComment q = .error .endlessComment := by
          intro q hq
          induction q with
          | nil => rfl
          | cons c q ih =>
            rw [List.mem_cons, not_or] at hq
            rw [skipLineComment, if_neg (Ne.symm hq.1), ih hq.2]
        have hcomment : skipComment (0x2f :: q) = .error .endlessComment := hskip q hq
        rw [hcomment]
        rfl
    · rw [if_neg hline]
      by_cases hblock : c = 0x2a
      · subst hblock
        rw [if_pos rfl, skipBlockCommentC, h.tail.get]
        simp only [Option.bind_eq_bind, Option.bind_some]
        cases q with
        | nil =>
          rw [List.headD_nil, if_pos rfl]
          rfl
        | cons c q =>
          rw [List.headD_cons, if_neg h.tail.ne_zero]
          have hloop := skipBlockLoopC_spec (m.length + 1) h.tail.get_cons h.tail.tail
            (by rw [List.length_cons] at hlen; omega)
          have hcomment : skipComment (0x2a :: c :: q) = skipBlockComment c q := rfl
          rw [hcomment]
          cases hx : skipBlockComment c q with
          | error e =>
            rw [hx] at hloop
            exact hloop
          | ok q' =>
            rw [hx] at hloop
            obtain ⟨w, rfl, hw⟩ := hloop
            exact ⟨0x2a :: c :: w, rfl, by rw [hw]; simp; omega⟩
      · rw [if_neg hblock]
        have hcomment : skipComment (c :: q) = .error .unexpectedChars := by
          unfold skipComment
          split
          · rename_i heq
            exact absurd (List.cons.inj heq).1 hline
          · rename_i heq
            exact absurd (List.cons.inj heq).1 hblock
          · rename_i heq
            exact absurd (List.cons.inj heq).1 hblock
          · rfl
        rw [hcomment]
        rfl

end Comments

section Keys

variable {m m' : List Byte} {p : Nat} {q : Text}

/-- Bytes in front of a zero, as a C string. -/
theorem atText_cString {d : Nat} {bs junk : List Byte} (h : m.drop d = bs ++ 0 :: junk) :
    AtText m d (cString bs) := by
  refine ⟨?_, fun hmem => absurd (List.mem_takeWhile_imp hmem) (by simp)⟩
  have hsplit : cString bs ++ bs.dropWhile (· ≠ 0) = bs := List.takeWhile_append_dropWhile
  cases hrest : bs.dropWhile (· ≠ 0) with
  | nil =>
    rw [hrest, List.append_nil] at hsplit
    exact ⟨junk, by rw [h, hsplit]⟩
  | cons c rest =>
    have hc : c = 0 := by
      have hhead := List.head?_dropWhile_not (fun c : Byte => decide (c ≠ 0)) bs
      rw [hrest] at hhead
      simpa using hhead
    rw [hrest, hc] at hsplit
    refine ⟨rest ++ 0 :: junk, ?_⟩
    calc m.drop d = (cString bs ++ 0 :: rest) ++ 0 :: junk := by rw [h, hsplit]
      _ = cString bs ++ 0 :: (rest ++ 0 :: junk) := by simp

theorem length_cString_le (bs : List Byte) : (cString bs).length ≤ bs.length :=
  (List.takeWhile_prefix _).length_le

/-- A key as a pointer, and as a text: a string that ends in front of `e`, or none. -/
def KeyRef (m : List Byte) (e : Nat) : Option Nat → Option Text → Prop
  | none, none => True
  | some k, some s => AtText m k s ∧ k + s.length < e
  | _, _ => False

theorem KeyRef.kept {e e' : Nat} {k : Option Nat} {key : Option Text} (h : KeyRef m e k key)
    (hk : Kept m m' e) (hle : e ≤ e') : KeyRef m' e' k key := by
  match k, key, h with
  | none, none, _ => trivial
  | some k, some s, h => exact ⟨h.1.kept hk h.2, Nat.lt_of_lt_of_le h.2 hle⟩

theorem skipSpaceC_spec (fuel : Nat) (h : AtText m p q) (hfuel : q.length < fuel) :
    ∃ e, skipSpaceC fuel m p = some e ∧ p ≤ e ∧ AtText m e (q.dropWhile isWhitespace) := by
  induction q generalizing fuel p with
  | nil =>
    obtain ⟨fuel, rfl⟩ : ∃ k, fuel = k + 1 := ⟨fuel - 1, by omega⟩
    rw [skipSpaceC, h.get_nil]
    exact ⟨p, rfl, Nat.le_refl p, h⟩
  | cons c q ih =>
    obtain ⟨fuel, rfl⟩ : ∃ k, fuel = k + 1 := ⟨fuel - 1, by omega⟩
    rw [List.length_cons] at hfuel
    rw [skipSpaceC, h.get_cons]
    simp only [Option.bind_eq_bind, Option.bind_some]
    by_cases hc : isWhitespace c = true
    · obtain ⟨e, he, hle, htext⟩ := ih fuel h.tail (by omega)
      rw [if_pos ⟨h.ne_zero, hc⟩, List.dropWhile_cons_of_pos hc]
      exact ⟨e, he, by omega, htext⟩
    · rw [if_neg fun hh => hc hh.2, List.dropWhile_cons_of_neg hc]
      exact ⟨p, rfl, Nat.le_refl p, h⟩

/-- What `parse_key` leaves. -/
def KeyParsed (m : List Byte) (p : Nat) : Except NxError (Option Text × Text) →
    Option (List Byte × Option (Option Nat × Nat)) → Prop
  | .ok (key, q'), r => ∃ m' k e, r = some (m', some (k, e)) ∧ Kept m m' p ∧ KeyRef m' e k key ∧
      AtText m' e q' ∧ p ≤ e
  | .error _, r => ∃ m', r = some (m', none) ∧ Kept m m' p

/-- Going on at a later place. -/
theorem KeyParsed.later {p' : Nat} {x : Except NxError (Option Text × Text)}
    {r : Option (List Byte × Option (Option Nat × Nat))} (h : KeyParsed m p' x r) (hle : p ≤ p') :
    KeyParsed m p x r := by
  cases x with
  | error e =>
    obtain ⟨m', hr, hk⟩ := h
    exact ⟨m', hr, hk.mono hle⟩
  | ok s =>
    obtain ⟨m', k, e, hr, hk, hkey, htext, hpe⟩ := h
    exact ⟨m', k, e, hr, hk.mono hle, hkey, htext, hle.trans hpe⟩

/-- A key in its quotes, and the colon behind it. -/
theorem parseKeyC_quote (h : AtText m p (0x22 :: q))
    (hfuel : unescapeString (q.length + 1) q ≠ .error .outOfFuel) :
    KeyParsed m p
      (do
        let (key, p) ← unescapeString (q.length + 1) q
        match p.dropWhile isWhitespace with
        | 0x3a :: p => return (some (cString key), p)
        | _ => .error .unexpectedChars)
      ((unescapeStringC (m.length + 1) m (p + 1) (p + 1)).bind fun
        | (m, none) => some (m, none)
        | (m, some q) => (skipSpaceC (m.length + 1) m q).bind fun q => m[q]?.bind fun d =>
            if d = 0x3a then some (m, some (some (p + 1), q + 1)) else some (m, none)) := by
  have hlen := h.lt_length
  rw [List.length_cons] at hlen
  have hres := unescapeStringC_spec (m.length + 1) h.tail (Nat.le_refl _) (by omega) hfuel
  cases hx : unescapeString (q.length + 1) q with
  | error e =>
    rw [hx] at hres
    obtain ⟨m', hC, hk⟩ := hres
    rw [hC]
    exact ⟨m', rfl, hk.mono (Nat.le_succ p)⟩
  | ok r =>
    obtain ⟨s, q₁⟩ := r
    rw [hx] at hres
    obtain ⟨m', e, junk, hC, hk, htext, hdrop, hlt, -⟩ := hres
    have hlen₁ := htext.lt_length
    obtain ⟨e₁, hC₁, hle₁, htext₁⟩ := skipSpaceC_spec (m'.length + 1) htext (by omega)
    have hkey : KeyRef m' (e₁ + 1) (some (p + 1)) (some (cString s)) :=
      ⟨atText_cString hdrop, by have := length_cString_le s; omega⟩
    simp only [hC, Option.bind_some, hC₁, htext₁.get, bind, Except.bind]
    cases hcolon : q₁.dropWhile isWhitespace with
    | nil =>
      rw [List.headD_nil, if_neg (by decide)]
      exact ⟨m', rfl, hk.mono (Nat.le_succ p)⟩
    | cons d q' =>
      rw [hcolon] at htext₁
      rw [List.headD_cons]
      by_cases hd : d = 0x3a
      · subst hd
        rw [if_pos rfl]
        exact ⟨m', some (p + 1), e₁ + 1, rfl, hk.mono (Nat.le_succ p), hkey, htext₁.tail, by omega⟩
      · rw [if_neg hd]
        split
        · rename_i heq
          exact absurd (List.cons.inj heq).1 hd
        · exact ⟨m', rfl, hk.mono (Nat.le_succ p)⟩

/-- A comment in front of a key. -/
theorem parseKeyC_comment {fuel fuel' : Nat}
    (hrest : ∀ p' q', AtText m p' q' → q'.length < fuel' → parseKey fuel q' ≠ .error .outOfFuel →
      KeyParsed m p' (parseKey fuel q') (parseKeyC fuel' m p'))
    (h : AtText m (p + 1) q) (hfuel' : q.length < fuel')
    (hfuel : (do let q ← skipComment q; parseKey fuel q) ≠ .error .outOfFuel) :
    KeyParsed m p (do let q ← skipComment q; parseKey fuel q)
      ((skipCommentC m (p + 1)).bind fun
        | none => some (m, none)
        | some p => parseKeyC fuel' m p) := by
  have hskip := skipCommentC_spec h
  cases hx : skipComment q with
  | error e =>
    rw [hx] at hskip
    rw [show skipCommentC m (p + 1) = some none from hskip]
    exact ⟨m, rfl, .refl m p⟩
  | ok q' =>
    rw [hx] at hskip hfuel
    obtain ⟨w, rfl, hw⟩ := hskip
    rw [List.length_append] at hfuel'
    rw [hw]
    exact (hrest _ _ h.append (by omega) hfuel).later (by omega)

/-- **`parse_key`** on the buffer. -/
theorem parseKeyC_spec {fuel : Nat} (fuel' : Nat) (h : AtText m p q) (hfuel' : q.length < fuel')
    (hfuel : parseKey fuel q ≠ .error .outOfFuel) :
    KeyParsed m p (parseKey fuel q) (parseKeyC fuel' m p) := by
  induction fuel generalizing fuel' p q with
  | zero => exact absurd rfl hfuel
  | succ fuel ih =>
    obtain ⟨fuel', rfl⟩ : ∃ k, fuel' = k + 1 := ⟨fuel' - 1, by omega⟩
    rw [parseKeyC, h.get]
    simp only [Option.bind_eq_bind, Option.bind_some]
    cases q with
    | nil =>
      rw [List.headD_nil, if_pos rfl]
      exact ⟨m, rfl, .refl m p⟩
    | cons c q =>
      rw [List.length_cons] at hfuel'
      rw [List.headD_cons, if_neg h.ne_zero]
      rw [parseKey] at hfuel ⊢
      by_cases hquote : c = 0x22
      · subst hquote
        rw [if_pos rfl] at hfuel ⊢
        rw [if_pos rfl]
        exact parseKeyC_quote h (ne_outOfFuel_of_bind hfuel)
      rw [if_neg hquote] at hfuel ⊢
      rw [if_neg hquote]
      by_cases hblank : (isWhitespace c || c == 0x2c) = true
      · rw [if_pos hblank] at hfuel ⊢
        rw [if_pos hblank]
        exact (ih fuel' h.tail (by omega) hfuel).later (Nat.le_succ p)
      rw [if_neg hblank] at hfuel ⊢
      rw [if_neg hblank]
      by_cases hbrace : c = 0x7d
      · rw [if_pos hbrace, if_pos hbrace]
        exact ⟨m, none, p, rfl, .refl m p, trivial, h, Nat.le_refl p⟩
      rw [if_neg hbrace] at hfuel ⊢
      rw [if_neg hbrace]
      by_cases hslash : c = 0x2f
      · rw [if_pos hslash] at hfuel ⊢
        rw [if_pos hslash]
        exact parseKeyC_comment (fun _ _ => ih fuel') h.tail (by omega) hfuel
      · rw [if_neg hslash, if_neg hslash]
        exact ⟨m, rfl, .refl m p⟩

end Keys

end Puppies
