import Mathlib.Tactic.Ring
import Mathlib.Data.Nat.ModEq

/-!
# Rounding machine words with a power-of-two mask

`x &&& ~~~(a - 1)` on a `w`-bit word, with `a` a power of two, is `x` rounded down to a multiple
of `a`. This file states it as an equation of natural numbers, with the bounds, divisibility and
monotonicity that follow. Rounding up is rounding down after adding `a - 1`, and is exact as long
as that addition does not wrap.
-/

namespace Doost.AlignedWord

variable {w : ℕ}

/-- `x` with the bits below `a` cleared. -/
def roundDown (x a : BitVec w) : BitVec w := x &&& ~~~(a - 1)

/-- The least multiple of `a` that is at least `n`. -/
def ceilTo (n a : ℕ) : ℕ := (n + (a - 1)) / a * a

/-! ## Clearing a mask -/

theorem toNat_sub_one {a : BitVec w} (ha : 0 < a.toNat) : (a - 1).toNat = a.toNat - 1 := by
  have hw : 0 < w := by
    rcases Nat.eq_zero_or_pos w with rfl | h
    · have := a.isLt
      omega
    · exact h
  have h1 : (1 : BitVec w).toNat = 1 := by
    rw [show (1 : BitVec w) = 1#w from rfl, BitVec.toNat_ofNat]
    exact Nat.mod_eq_of_lt (Nat.one_lt_two_pow hw.ne')
  rw [BitVec.toNat_sub_of_le (by rw [BitVec.le_def, h1]; exact ha), h1]

theorem getElem_sub_one {a : BitVec w} {k : ℕ} (hk : a.toNat = 2 ^ k) {i : ℕ} (hi : i < w) :
    (a - 1)[i] = decide (i < k) := by
  have hpos : 0 < a.toNat := hk ▸ Nat.two_pow_pos k
  rw [BitVec.getElem_eq_testBit_toNat, toNat_sub_one hpos, hk, Nat.testBit_two_pow_sub_one]

/-- Clearing the low `k` bits is shifting them out and zeros back in. -/
theorem roundDown_eq_shift (x : BitVec w) {a : BitVec w} {k : ℕ} (hk : a.toNat = 2 ^ k) :
    roundDown x a = x >>> k <<< k := by
  ext i hi
  rw [roundDown, BitVec.getElem_and, BitVec.getElem_not, getElem_sub_one hk,
    BitVec.getElem_shiftLeft]
  by_cases hik : i < k
  · simp [hik]
  · simp [hik, Nat.add_sub_cancel' (Nat.not_lt.mp hik), BitVec.getLsbD_eq_getElem hi]

/-! ## Rounding down -/

section RoundDown

variable {a : BitVec w} (ha : a.toNat.isPowerOfTwo)

include ha

theorem toNat_roundDown (x : BitVec w) : (roundDown x a).toNat = x.toNat - x.toNat % a.toNat := by
  obtain ⟨k, hk⟩ := ha
  have hle : x.toNat / 2 ^ k * 2 ^ k ≤ x.toNat := Nat.div_mul_le_self _ _
  rw [roundDown_eq_shift x hk, BitVec.toNat_shiftLeft, BitVec.toNat_ushiftRight,
    Nat.shiftRight_eq_div_pow, Nat.shiftLeft_eq, Nat.mod_eq_of_lt (hle.trans_lt x.isLt), hk]
  have := Nat.div_add_mod x.toNat (2 ^ k)
  rw [Nat.mul_comm] at this
  omega

theorem dvd_roundDown (x : BitVec w) : a.toNat ∣ (roundDown x a).toNat := by
  rw [toNat_roundDown ha]
  exact Nat.dvd_sub_mod _

theorem roundDown_le (x : BitVec w) : (roundDown x a).toNat ≤ x.toNat := by
  rw [toNat_roundDown ha]
  exact Nat.sub_le _ _

theorem lt_roundDown_add (x : BitVec w) : x.toNat < (roundDown x a).toNat + a.toNat := by
  have := Nat.mod_lt x.toNat (Nat.pos_of_isPowerOfTwo ha)
  have := Nat.mod_le x.toNat a.toNat
  rw [toNat_roundDown ha]
  omega

/-- A multiple of `a` is below the rounded word exactly when it is below the word. -/
theorem le_roundDown_iff {m : ℕ} (hm : a.toNat ∣ m) (x : BitVec w) :
    m ≤ (roundDown x a).toNat ↔ m ≤ x.toNat := by
  refine ⟨fun h => h.trans (roundDown_le ha x), fun h => ?_⟩
  by_contra hlt
  obtain ⟨c, hc⟩ := hm
  obtain ⟨d, hd⟩ := dvd_roundDown ha x
  have hx := lt_roundDown_add ha x
  -- no multiple of `a` fits strictly between the rounded word and the next multiple
  have hdc : d + 1 ≤ c := by
    by_contra hcd
    have : a.toNat * c ≤ a.toNat * d := Nat.mul_le_mul_left _ (by omega)
    omega
  have : a.toNat * (d + 1) ≤ a.toNat * c := Nat.mul_le_mul_left _ hdc
  rw [Nat.mul_add, Nat.mul_one] at this
  omega

end RoundDown

/-! ## Rounding up -/

theorem dvd_ceilTo (n a : ℕ) : a ∣ ceilTo n a := Nat.dvd_mul_left _ _

theorem le_ceilTo {a : ℕ} (ha : 0 < a) (n : ℕ) : n ≤ ceilTo n a := by
  have h := Nat.div_add_mod (n + (a - 1)) a
  have := Nat.mod_lt (n + (a - 1)) ha
  rw [Nat.mul_comm] at h
  unfold ceilTo
  omega

theorem ceilTo_lt_add {a : ℕ} (ha : 0 < a) (n : ℕ) : ceilTo n a < n + a := by
  have := Nat.div_mul_le_self (n + (a - 1)) a
  unfold ceilTo
  omega

/-- `ceilTo n a` is the least multiple of `a` above `n`. -/
theorem ceilTo_le {a : ℕ} {n m : ℕ} (hm : a ∣ m) (hn : n ≤ m) : ceilTo n a ≤ m := by
  rcases Nat.eq_zero_or_pos a with rfl | ha
  · simp [ceilTo]
  obtain ⟨c, rfl⟩ := hm
  have hdiv : (n + (a - 1)) / a ≤ c := by
    rw [Nat.div_le_iff_le_mul_add_pred ha]
    omega
  calc ceilTo n a = a * ((n + (a - 1)) / a) := Nat.mul_comm _ _
    _ ≤ a * c := Nat.mul_le_mul_left _ hdiv

/-- Adding `a - 1` and rounding down is rounding up, as long as the addition does not wrap. -/
theorem toNat_roundDown_add {n k a : BitVec w} (ha : a.toNat.isPowerOfTwo)
    (hk : k.toNat = a.toNat - 1) (hn : n.toNat + (a.toNat - 1) < 2 ^ w) :
    (roundDown (n + k) a).toNat = ceilTo n.toNat a.toNat := by
  have hadd : (n + k).toNat = n.toNat + (a.toNat - 1) := by
    rw [BitVec.toNat_add, hk, Nat.mod_eq_of_lt hn]
  have h := Nat.div_add_mod (n.toNat + (a.toNat - 1)) a.toNat
  rw [toNat_roundDown ha, hadd, ceilTo, Nat.mul_comm]
  omega

/-! ## Divisibility between powers of two -/

/-- Of two powers of two, the smaller divides the larger. -/
theorem dvd_of_isPowerOfTwo_of_le {a b : ℕ} (ha : a.isPowerOfTwo) (hb : b.isPowerOfTwo)
    (h : a ≤ b) : a ∣ b := by
  obtain ⟨i, rfl⟩ := ha
  obtain ⟨j, rfl⟩ := hb
  exact Nat.pow_dvd_pow 2 ((Nat.pow_le_pow_iff_right (by decide)).mp h)

end Doost.AlignedWord
