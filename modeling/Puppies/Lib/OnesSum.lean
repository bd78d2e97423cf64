/-
# One's-complement sums

The Internet checksum adds 16-bit words and puts the carry out of the top back in at the bottom.
Numbers below `M` with this addition are numbers modulo `M - 1`, except that there are two that
stand for zero: 0, which only a sum of zeros is, and `M - 1` (`onesSum_eq_top_iff`).  So a sum
may be folded, accumulated in wider words, or taken in the other byte order, as long as it is
the same modulo `M - 1`.

`words` cuts bytes into 16-bit words, with a zero behind an odd last byte.  A host that reads
them in the wrong order has 256 times the sum (`sum_words_little`).
-/
import Mathlib.Data.Nat.ModEq
import Mathlib.Tactic.Ring
import Puppies.Lib.Bytes

namespace OnesSum

open ByteMem

/-! ## 1. End-around carry -/

/-- Addition with end-around carry, of numbers below `M`. -/
def addc (M a b : Nat) : Nat := if a + b < M then a + b else a + b - (M - 1)

/-- The sum of a list of such numbers. -/
def onesSum (M : Nat) (ws : List Nat) : Nat := ws.foldl (addc M) 0

variable {M : Nat}

theorem addc_lt {a b : Nat} (ha : a < M) (hb : b < M) : addc M a b < M := by
  unfold addc
  split <;> omega

theorem addc_modEq (a b : Nat) : addc M a b ≡ a + b [MOD M - 1] := by
  unfold addc
  split
  · exact Nat.ModEq.refl _
  · rename_i hcarry
    have hsplit : a + b = a + b - (M - 1) + (M - 1) := by omega
    calc a + b - (M - 1) ≡ a + b - (M - 1) + (M - 1) [MOD M - 1] := Nat.ModEq.symm (by simp)
      _ = a + b := hsplit.symm

/-- Only zeros add up to zero. -/
theorem addc_eq_zero_iff (hM : 0 < M) {a b : Nat} : addc M a b = 0 ↔ a = 0 ∧ b = 0 := by
  unfold addc
  split <;> omega

theorem foldl_addc_lt {ws : List Nat} {a : Nat} (ha : a < M) (hws : ∀ w ∈ ws, w < M) :
    ws.foldl (addc M) a < M := by
  induction ws generalizing a with
  | nil => exact ha
  | cons w ws ih =>
    exact ih (addc_lt ha (hws w List.mem_cons_self)) fun v hv => hws v (List.mem_cons_of_mem w hv)

theorem foldl_addc_modEq (ws : List Nat) (a : Nat) :
    ws.foldl (addc M) a ≡ a + ws.sum [MOD M - 1] := by
  induction ws generalizing a with
  | nil => exact Nat.ModEq.refl _
  | cons w ws ih =>
    rw [List.foldl_cons, List.sum_cons, ← Nat.add_assoc]
    exact (ih _).trans ((addc_modEq a w).add_right _)

theorem foldl_addc_eq_zero_iff (hM : 0 < M) (ws : List Nat) (a : Nat) :
    ws.foldl (addc M) a = 0 ↔ a = 0 ∧ ∀ w ∈ ws, w = 0 := by
  induction ws generalizing a with
  | nil => simp
  | cons w ws ih =>
    rw [List.foldl_cons, ih, addc_eq_zero_iff hM, List.forall_mem_cons, and_assoc]

/-- **A sum is `M - 1`** when it is zero modulo `M - 1` and not a sum of zeros. -/
theorem onesSum_eq_top_iff (hM : 1 < M) {ws : List Nat} (hws : ∀ w ∈ ws, w < M) :
    onesSum M ws = M - 1 ↔ M - 1 ∣ ws.sum ∧ ∃ w ∈ ws, w ≠ 0 := by
  have hlt : onesSum M ws < M := foldl_addc_lt (by omega) hws
  have hmod : onesSum M ws ≡ ws.sum [MOD M - 1] := by
    have := foldl_addc_modEq (M := M) ws 0
    rwa [Nat.zero_add] at this
  have hzero : onesSum M ws = 0 ↔ ∀ w ∈ ws, w = 0 :=
    (foldl_addc_eq_zero_iff (by omega) ws 0).trans (and_iff_right rfl)
  have hpos : onesSum M ws ≠ 0 ↔ ∃ w ∈ ws, w ≠ 0 := by
    rw [ne_eq, hzero]
    push Not
    rfl
  rw [← hpos, ← hmod.dvd_iff (Nat.dvd_refl _)]
  constructor
  · intro h
    rw [h]
    exact ⟨Nat.dvd_refl _, by omega⟩
  · rintro ⟨hdvd, hne⟩
    have hle := Nat.le_of_dvd (Nat.pos_of_ne_zero hne) hdvd
    omega

/-! ## 2. Words -/

/-- Two bytes as a word. -/
def pair : ByteOrder → Byte → Byte → Nat
  | .little, a, b => b.toNat * 256 + a.toNat
  | .big, a, b => a.toNat * 256 + b.toNat

/-- The 16-bit words of some bytes. -/
def words (bo : ByteOrder) : List Byte → List Nat
  | [] => []
  | [a] => [pair bo a 0]
  | a :: b :: bs => pair bo a b :: words bo bs

theorem pair_lt (bo : ByteOrder) (a b : Byte) : pair bo a b < 2 ^ 16 := by
  have ha := a.isLt
  have hb := b.isLt
  cases bo <;> simp only [pair] <;> omega

theorem words_lt (bo : ByteOrder) (bs : List Byte) : ∀ w ∈ words bo bs, w < 2 ^ 16 := by
  fun_induction words bo bs with
  | case1 => exact fun w hw => absurd hw List.not_mem_nil
  | case2 a => exact List.forall_mem_singleton.mpr (pair_lt bo a 0)
  | case3 a b bs ih => exact List.forall_mem_cons.mpr ⟨pair_lt bo a b, ih⟩

/-- An even number of bytes in front. -/
theorem words_append {bo : ByteOrder} {as : List Byte} (h : 2 ∣ as.length) (bs : List Byte) :
    words bo (as ++ bs) = words bo as ++ words bo bs := by
  fun_induction words bo as with
  | case1 => rfl
  | case2 a => exact absurd h (by simp)
  | case3 a b as ih =>
    have heven : 2 ∣ as.length := by
      simp only [List.length_cons] at h
      omega
    rw [List.cons_append, List.cons_append, words, ih heven, List.cons_append]

/-- A word that the host has stored. -/
theorem words_bytes16 (bo : ByteOrder) (v : BitVec 16) : words bo (bo.bytes16 v) = [v.toNat] := by
  have hv : v.extractLsb' 8 8 ++ v.extractLsb' 0 8 = v := append_extractLsb'16 v
  have hnat : (v.extractLsb' 8 8).toNat * 256 + (v.extractLsb' 0 8).toNat = v.toNat := by
    simp only [BitVec.extractLsb'_toNat]
    have := v.isLt
    omega
  cases bo <;> simp only [ByteOrder.bytes16, words, pair, hnat]

theorem exists_words_ne_zero_iff (bo : ByteOrder) (bs : List Byte) :
    (∃ w ∈ words bo bs, w ≠ 0) ↔ ∃ b ∈ bs, b ≠ 0 := by
  have hbyte : ∀ b : Byte, b.toNat = 0 ↔ b = 0 := fun b => BitVec.toNat_inj (y := 0#8)
  have hpair : ∀ a b : Byte, pair bo a b ≠ 0 ↔ a ≠ 0 ∨ b ≠ 0 := by
    intro a b
    rw [← not_and_or, not_iff_not, ← hbyte a, ← hbyte b]
    cases bo <;> simp only [pair] <;> omega
  fun_induction words bo bs with
  | case1 => simp
  | case2 a => simp [hpair]
  | case3 a b bs ih => simp [ih, hpair, or_assoc]

/-- **The other byte order.** -/
theorem sum_words_little (bs : List Byte) :
    (words .little bs).sum ≡ 256 * (words .big bs).sum [MOD 2 ^ 16 - 1] := by
  have hpair : ∀ a b : Byte, pair .little a b ≡ 256 * pair .big a b [MOD 2 ^ 16 - 1] := by
    intro a b
    have hsplit : 256 * pair .big a b = pair .little a b + (2 ^ 16 - 1) * a.toNat := by
      simp only [pair]
      ring
    rw [hsplit]
    exact (Nat.add_mul_mod_self_left _ _ _).symm
  fun_induction words .big bs with
  | case1 => exact Nat.ModEq.refl _
  | case2 a => simpa only [words, List.sum_singleton] using hpair a 0
  | case3 a b bs ih =>
    rw [words, List.sum_cons, List.sum_cons, Nat.mul_add]
    exact (hpair a b).add ih

/-- **It does not matter in which order a checksum is verified.** -/
theorem dvd_sum_words_iff (bo : ByteOrder) (bs : List Byte) :
    2 ^ 16 - 1 ∣ (words bo bs).sum ↔ 2 ^ 16 - 1 ∣ (words .big bs).sum := by
  cases bo with
  | big => exact Iff.rfl
  | little =>
    rw [(sum_words_little bs).dvd_iff (Nat.dvd_refl _)]
    exact Nat.Coprime.dvd_mul_left (by decide)

end OnesSum
