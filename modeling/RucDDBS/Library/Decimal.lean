import Mathlib.Data.Rat.Floor
import Mathlib.Tactic.Linarith
import Mathlib.Tactic.Positivity
import RucDDBS.Library.Text

/-!
Numbers in plain decimal notation: a sign, digits, and perhaps a point with more
digits behind it. A reader of integers stops at the point, and what it has read by
then is the value of the text rounded towards zero.
-/

section TowardZero

/-- A rational number rounded towards zero. -/
def towardZero (q : ℚ) : ℤ := if 0 ≤ q then ⌊q⌋ else ⌈q⌉

theorem towardZero_neg (q : ℚ) : towardZero (-q) = -towardZero q := by
  unfold towardZero
  rcases lt_trichotomy q 0 with hneg | rfl | hpos
  · rw [if_pos (by linarith), if_neg (by linarith), Int.floor_neg]
  · simp
  · rw [if_neg (by linarith), if_pos hpos.le, Int.ceil_neg]

theorem towardZero_of_nonneg {q : ℚ} (h : 0 ≤ q) : towardZero q = ⌊q⌋ := if_pos h

theorem towardZero_mono {p q : ℚ} (h : p ≤ q) : towardZero p ≤ towardZero q := by
  unfold towardZero
  split
  next hp =>
    rw [if_pos (hp.trans h)]
    exact Int.floor_mono h
  next hp =>
    split
    next hq =>
      have hceil : ⌈p⌉ ≤ 0 := Int.ceil_le.mpr (by simpa using (not_le.mp hp).le)
      exact hceil.trans (Int.floor_nonneg.mpr hq)
    next hq => exact Int.ceil_mono h

theorem towardZero_lt_iff {q : ℚ} {b : ℤ} (hb : 0 < b) : towardZero q < b ↔ q < b := by
  have hcast : (0 : ℚ) < b := by exact_mod_cast hb
  unfold towardZero
  split
  next => exact Int.floor_lt
  next hq =>
    have hneg : q < 0 := not_le.mp hq
    have hceil : ⌈q⌉ ≤ 0 := Int.ceil_le.mpr (by simpa using hneg.le)
    exact iff_of_true (hceil.trans_lt hb) (hneg.trans hcast)

theorem le_towardZero_iff {q : ℚ} {a : ℤ} (ha : a ≤ 0) : a ≤ towardZero q ↔ (a : ℚ) - 1 < q := by
  have hflip := towardZero_lt_iff (q := -q) (b := 1 - a) (by omega)
  rw [towardZero_neg] at hflip
  constructor
  · intro hle
    have hlt := hflip.mp (by omega)
    push_cast at hlt
    linarith
  · intro hlt
    have hle := hflip.mpr (by push_cast; linarith)
    omega

end TowardZero

namespace Text

/-- The number that digits stand for. -/
def number (digits : Text) : Nat := Nat.ofDigitChars 10 digits 0

/-- Nothing but decimal digits. -/
def Digits (t : Text) : Prop := ∀ c ∈ t, c.isDigit = true

theorem Digits.cons {c : Char} {t : Text} (h : Digits (c :: t)) : c.isDigit = true ∧ Digits t :=
  List.forall_mem_cons.mp h

theorem number_cons (c : Char) (t : Text) :
    number (c :: t) = 10 ^ t.length * (c.toNat - '0'.toNat) + number t := by
  rw [number, Nat.ofDigitChars_cons, Nat.ofDigitChars_eq_ofDigitChars_zero]
  simp [number]

theorem number_lt {t : Text} (h : Digits t) : number t < 10 ^ t.length := by
  induction t with
  | nil => simp [number]
  | cons c t ih =>
      obtain ⟨hdigit, hrest⟩ := h.cons
      have hlt := ih hrest
      have hnine : c.toNat - '0'.toNat ≤ 9 := by
        simp only [Char.isDigit, Bool.and_eq_true, decide_eq_true_eq] at hdigit
        have hle : c.toNat ≤ '9'.toNat := hdigit.2
        have hnine : '9'.toNat = 57 := rfl
        have hzero : '0'.toNat = 48 := rfl
        omega
      have hmul : 10 ^ t.length * (c.toNat - '0'.toNat) ≤ 10 ^ t.length * 9 :=
        Nat.mul_le_mul_left _ hnine
      rw [number_cons, List.length_cons, pow_succ]
      omega

inductive Sign where
  | none | plus | minus
  deriving DecidableEq, Repr

def Sign.text : Sign → Text
  | .none => []
  | .plus => ['+']
  | .minus => ['-']

def Sign.factor : Sign → Int
  | .minus => -1
  | _ => 1

/-- A number in plain decimal notation with an integer part. -/
structure Decimal where
  sign : Sign
  whole : Text
  fraction : Option Text
  whole_ne_nil : whole ≠ []
  whole_digits : Digits whole
  fraction_digits : ∀ t ∈ fraction, Digits t

namespace Decimal

variable (d : Decimal)

/-- The point and what stands behind it. -/
def tail : Text := (d.fraction.map fun t => '.' :: t).getD []

def text : Text := d.sign.text ++ (d.whole ++ d.tail)

/-- The part before the point, with the sign. -/
def integer : Int := d.sign.factor * number d.whole

/-- The part behind the point. -/
def part : ℚ := (d.fraction.map fun t => (number t : ℚ) / 10 ^ t.length).getD 0

def value : ℚ := d.sign.factor * (number d.whole + d.part)

theorem part_nonneg : 0 ≤ d.part := by
  unfold part
  cases d.fraction with
  | none => simp
  | some t =>
      simp only [Option.map_some, Option.getD_some]
      positivity

theorem part_lt_one : d.part < 1 := by
  unfold part
  cases hfraction : d.fraction with
  | none => simp
  | some t =>
      have hlt := number_lt (d.fraction_digits t hfraction)
      have hcast : (number t : ℚ) < 10 ^ t.length := by exact_mod_cast hlt
      simp only [Option.map_some, Option.getD_some]
      rw [div_lt_one (by positivity)]
      exact hcast

/-- What stands before the point is the value rounded towards zero. -/
theorem towardZero_value : towardZero d.value = d.integer := by
  have hnonneg : 0 ≤ (number d.whole : ℚ) + d.part := by
    have hpart := d.part_nonneg
    positivity
  have hfloor : towardZero ((number d.whole : ℚ) + d.part) = number d.whole := by
    rw [towardZero_of_nonneg hnonneg, Int.floor_eq_iff]
    have hpart := d.part_nonneg
    have hone := d.part_lt_one
    constructor
    · push_cast
      linarith
    · push_cast
      linarith
  unfold value integer
  cases d.sign with
  | none => simpa [Sign.factor] using hfloor
  | plus => simpa [Sign.factor] using hfloor
  | minus =>
      simp only [Sign.factor, Int.cast_neg, Int.cast_one, neg_mul, one_mul]
      rw [towardZero_neg, hfloor]

theorem noDigit_tail : NoDigit d.tail := by
  unfold tail
  cases d.fraction with
  | none => simp [NoDigit]
  | some t =>
      simp only [Option.map_some, Option.getD_some, noDigit_cons]
      decide

theorem readNat_whole : readNat (d.whole ++ d.tail) = some (number d.whole, d.tail) := by
  obtain ⟨htake, hdrop⟩ := cut d.whole_digits d.noDigit_tail
  simp only [readNat, htake, hdrop, d.whole_ne_nil, if_false, number]

/-- A reader of integers stops at the point. -/
theorem readNumber_text : readNumber d.text = some (d.integer, d.tail) := by
  obtain ⟨c, digits, hwhole⟩ := List.exists_cons_of_ne_nil d.whole_ne_nil
  have hdigit : c.isDigit = true := d.whole_digits c (by simp [hwhole])
  have hread := d.readNat_whole
  have hskip : skipBlanks d.text = d.text := by
    cases hsign : d.sign with
    | none =>
        have hblank : c.isWhitespace = false := by
          by_contra hcon
          rw [Bool.not_eq_false] at hcon
          rw [isDigit_of_blank hcon] at hdigit
          cases hdigit
        simp [text, hsign, Sign.text, hwhole, skipBlanks, hblank]
    | plus =>
        have hblank : '+'.isWhitespace = false := by decide
        simp [text, hsign, Sign.text, skipBlanks, hblank]
    | minus =>
        have hblank : '-'.isWhitespace = false := by decide
        simp [text, hsign, Sign.text, skipBlanks, hblank]
  rw [readNumber, hskip]
  cases hsign : d.sign with
  | none =>
      have hint : readInt d.text = (readNat (d.whole ++ d.tail)).map fun r => ((r.1 : Int), r.2) := by
        simp only [text, hsign, Sign.text, List.nil_append, hwhole, List.cons_append]
        exact readInt_of_digit hdigit
      rw [hint, hread]
      simp [integer, hsign, Sign.factor]
  | plus => simp [text, hsign, Sign.text, readInt, hread, integer, Sign.factor]
  | minus => simp [text, hsign, Sign.text, readInt, hread, integer, Sign.factor]

end Decimal

end Text
