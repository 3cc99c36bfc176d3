import Mathlib.Data.Nat.Bitwise

/-!
Numbers put side by side in a 64-bit word: what the places of a word hold, what `|||`
does where two numbers meet, and what the conversion of a signed number writes into the
places above it.
-/

namespace Words

/-- The places of a word from `lo` on, as a number. -/
def bits (x : UInt64) (lo width : Nat) : Nat := x.toNat / 2 ^ lo % 2 ^ width

/-- A signed 32-bit number as an unsigned 64-bit one. -/
def widen (x : Int32) : UInt64 := x.toInt64.toUInt64

section Or

/-- A number above the place `k` meets only the part of the other one that lies there. -/
theorem two_pow_mul_or (k a b : Nat) :
    2 ^ k * a ||| b = 2 ^ k * (a ||| b / 2 ^ k) + b % 2 ^ k := by
  have hlow : b % 2 ^ k < 2 ^ k := Nat.mod_lt b (Nat.two_pow_pos k)
  have hparts : 2 ^ k * (b / 2 ^ k) ||| b % 2 ^ k = b := by
    rw [← Nat.two_pow_add_eq_or_of_lt hlow, Nat.div_add_mod]
  have hhigh : 2 ^ k * a ||| 2 ^ k * (b / 2 ^ k) = 2 ^ k * (a ||| b / 2 ^ k) := by
    simp only [Nat.mul_comm (2 ^ k), ← Nat.shiftLeft_eq, Nat.shiftLeft_or_distrib]
  calc
    2 ^ k * a ||| b = 2 ^ k * a ||| (2 ^ k * (b / 2 ^ k) ||| b % 2 ^ k) := by rw [hparts]
    _ = 2 ^ k * (a ||| b / 2 ^ k) ||| b % 2 ^ k := by rw [← Nat.or_assoc, hhigh]
    _ = 2 ^ k * (a ||| b / 2 ^ k) + b % 2 ^ k := (Nat.two_pow_add_eq_or_of_lt hlow _).symm

/-- What stands above the place `k` and below it can be read off the sum. -/
theorem place_inj {k a b a' b' : Nat} (hb : b < 2 ^ k) (hb' : b' < 2 ^ k) :
    2 ^ k * a + b = 2 ^ k * a' + b' ↔ a = a' ∧ b = b' := by
  constructor
  · intro h
    have hhigh := congrArg (· / 2 ^ k) h
    have hlow := congrArg (· % 2 ^ k) h
    simp only [Nat.mul_add_div (Nat.two_pow_pos k), Nat.div_eq_of_lt hb, Nat.div_eq_of_lt hb',
      Nat.add_zero] at hhigh
    simp only [Nat.mul_add_mod, Nat.mod_eq_of_lt hb, Nat.mod_eq_of_lt hb'] at hlow
    exact ⟨hhigh, hlow⟩
  · rintro ⟨rfl, rfl⟩
    rfl

/-- Where all places are set, nothing else is seen. -/
theorem or_ones {k a : Nat} (h : a < 2 ^ k) : a ||| (2 ^ k - 1) = 2 ^ k - 1 := by
  apply Nat.eq_of_testBit_eq
  intro i
  rw [Nat.testBit_or, Nat.testBit_two_pow_sub_one]
  by_cases hi : i < k
  · rw [decide_eq_true hi, Bool.or_true]
  · have hsmall : a < 2 ^ i := h.trans_le (Nat.pow_le_pow_right (by omega) (by omega))
    rw [Nat.testBit_lt_two_pow hsmall, Bool.false_or]

theorem eq_iff_half {a b : Nat} : a = b ↔ a / 2 = b / 2 ∧ (a % 2 = 1 ↔ b % 2 = 1) := by
  omega

/-- One bit changes only the lowest place. -/
theorem or_bit (a : Nat) {c : Nat} (hc : c < 2) :
    (a ||| c) / 2 = a / 2 ∧ ((a ||| c) % 2 = 1 ↔ a % 2 = 1 ∨ c = 1) := by
  constructor
  · rw [Nat.or_div_two, Nat.div_eq_of_lt hc, Nat.or_zero]
  · rw [Nat.or_mod_two_eq_one, Nat.mod_eq_of_lt hc]

end Or

section Convert

variable {x : Int32}

theorem toNat_shiftLeft {y s : UInt64} {k : Nat} (hs : s.toNat = k) (hk : k < 64)
    (h : 2 ^ k * y.toNat < 2 ^ 64) : (y <<< s).toNat = 2 ^ k * y.toNat := by
  rw [UInt64.toNat_shiftLeft, hs, Nat.mod_eq_of_lt hk, Nat.shiftLeft_eq, Nat.mul_comm,
    Nat.mod_eq_of_lt h]

theorem toInt_eq_pattern (x : Int32) :
    x.toInt = if x.toBitVec.msb = true then (x.toUInt32.toNat : Int) - 2 ^ 32
      else (x.toUInt32.toNat : Int) := BitVec.toInt_eq_msb_cond x.toBitVec

theorem msb_iff (x : Int32) : x.toBitVec.msb = true ↔ x.toInt < 0 := by
  have hint := toInt_eq_pattern x
  have hlt : x.toUInt32.toNat < 2 ^ 32 := x.toUInt32.toNat_lt
  constructor
  · intro hmsb
    rw [if_pos hmsb] at hint
    omega
  · intro hneg
    by_contra hmsb
    rw [if_neg hmsb] at hint
    omega

theorem toNat_widen (x : Int32) : (widen x).toNat =
    x.toUInt32.toNat + if x.toBitVec.msb = true then 2 ^ 64 - 2 ^ 32 else 0 := by
  have hlt : x.toUInt32.toNat < 2 ^ 64 := x.toUInt32.toNat_lt.trans (by decide)
  have hpattern : (x.toBitVec.setWidth 64).toNat = x.toUInt32.toNat := by
    rw [BitVec.toNat_setWidth]
    exact Nat.mod_eq_of_lt hlt
  rw [← hpattern]
  exact BitVec.toNat_signExtend x.toBitVec

theorem toNat_widen_of_nonneg (h : 0 ≤ x.toInt) : (widen x).toNat = x.toInt.toNat := by
  have hmsb : ¬ x.toBitVec.msb = true := fun hmsb => absurd ((msb_iff x).mp hmsb) (by omega)
  have hint := toInt_eq_pattern x
  rw [if_neg hmsb] at hint
  rw [toNat_widen, if_neg hmsb]
  omega

/-- A negative number sets every place above its own. -/
theorem toNat_widen_of_neg (h : x.toInt < 0) :
    (widen x).toNat = 2 ^ 32 * (2 ^ 32 - 1) + x.toUInt32.toNat := by
  rw [toNat_widen, if_pos ((msb_iff x).mpr h)]
  omega

end Convert

end Words
