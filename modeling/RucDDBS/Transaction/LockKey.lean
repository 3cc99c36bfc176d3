import RucDDBS.Library.Words
import RucDDBS.Transaction.Types

/-!
The number under which the lock table hashes a lock id. Its comment gives every field of
the id places of its own. The table is shifted by one place too few, so that its lowest
bit meets the highest one of the partition, and a negative row covers all other fields.
-/

namespace RucDDBS

/-- The enumerator as a number. -/
def LockDataType.toSize : LockDataType → UInt64
  | .table => 0
  | .partition => 1
  | .row => 2

namespace LockDataId

open Words

/-- `Get`, the argument of `hash<size_t>` in the hash of a lock id. -/
def get (l : LockDataId) : UInt64 :=
  l.type.toSize <<< 62 ||| widen l.oid <<< 47 ||| widen l.pId <<< 32 ||| widen l.rowId

/-- The ids whose table and partition have the width that the comment gives them. -/
structure InRange (l : LockDataId) : Prop where
  oid : 0 ≤ l.oid.toInt ∧ l.oid.toInt < 2 ^ 14
  pId : 0 ≤ l.pId.toInt ∧ l.pId.toInt < 2 ^ 16

instance (l : LockDataId) : Decidable l.InRange :=
  decidable_of_iff ((0 ≤ l.oid.toInt ∧ l.oid.toInt < 2 ^ 14) ∧ 0 ≤ l.pId.toInt ∧
    l.pId.toInt < 2 ^ 16) ⟨fun h => ⟨h.1, h.2⟩, fun h => ⟨h.oid, h.pId⟩⟩

/-- The bit structure of the comment: 2 bits of type, 14 of table, 16 of partition and 32
of row. -/
structure Documented (l : LockDataId) : Prop where
  type : bits l.get 62 2 = l.type.toSize.toNat
  oid : (bits l.get 48 14 : Int) = l.oid.toInt
  pId : (bits l.get 32 16 : Int) = l.pId.toInt
  rowId : bits l.get 0 32 = l.rowId.toUInt32.toNat

/-- The place that the table shares with the partition is set. -/
def sharedBit (l : LockDataId) : Prop := l.oid.toInt % 2 = 1 ∨ 2 ^ 15 ≤ l.pId.toInt

/-- What tells two ids apart by their numbers: the row, and behind a row that is not
negative every other field, the two that share a place as far as it lets them. -/
def Apart (a b : LockDataId) : Prop :=
  a.rowId ≠ b.rowId ∨ (0 ≤ a.rowId.toInt ∧ (a.type ≠ b.type ∨
    a.oid.toInt / 2 ≠ b.oid.toInt / 2 ∨ a.pId.toInt % 2 ^ 15 ≠ b.pId.toInt % 2 ^ 15 ∨
    ¬ (a.sharedBit ↔ b.sharedBit)))

section Number

variable {l a b : LockDataId}

theorem toSize_lt (type : LockDataType) : type.toSize.toNat < 3 := by
  cases type <;> decide

theorem toSize_inj {type type' : LockDataType} (h : type.toSize.toNat = type'.toSize.toNat) :
    type = type' := by
  cases type <;> cases type' <;> first | rfl | exact absurd h (by decide)

theorem InRange.half_lt (h : l.InRange) : l.oid.toInt.toNat / 2 < 2 ^ 14 := by
  have hoid := h.oid
  omega

/-- The fields above the row. The highest bit of the partition falls on the lowest one of
the table. -/
theorem upper_eq (h : l.InRange) :
    ∃ upper, (l.type.toSize <<< 62 ||| widen l.oid <<< 47 ||| widen l.pId <<< 32).toNat =
        2 ^ 32 * (2 ^ 15 * upper + l.pId.toInt.toNat % 2 ^ 15) ∧
      upper / 2 = 2 ^ 14 * l.type.toSize.toNat + l.oid.toInt.toNat / 2 ∧
      (upper % 2 = 1 ↔ l.sharedBit) := by
  obtain ⟨hoidPos, hoidLt⟩ := h.oid
  obtain ⟨hpIdPos, hpIdLt⟩ := h.pId
  have htype := toSize_lt l.type
  have hoid := toNat_widen_of_nonneg hoidPos
  have hpId := toNat_widen_of_nonneg hpIdPos
  have htypeAt : (l.type.toSize <<< 62).toNat = 2 ^ 62 * l.type.toSize.toNat :=
    toNat_shiftLeft rfl (by decide) (by omega)
  have hoidAt : (widen l.oid <<< 47).toNat = 2 ^ 47 * l.oid.toInt.toNat := by
    rw [← hoid]
    exact toNat_shiftLeft rfl (by decide) (by omega)
  have hpIdAt : (widen l.pId <<< 32).toNat = 2 ^ 32 * l.pId.toInt.toNat := by
    rw [← hpId]
    exact toNat_shiftLeft rfl (by decide) (by omega)
  have hfirst : 2 ^ 62 * l.type.toSize.toNat ||| 2 ^ 47 * l.oid.toInt.toNat =
      2 ^ 47 * (2 ^ 15 * l.type.toSize.toNat + l.oid.toInt.toNat) := by
    rw [← Nat.two_pow_add_eq_or_of_lt (by omega)]
    omega
  obtain ⟨hhigh, hlow⟩ := or_bit (2 ^ 15 * l.type.toSize.toNat + l.oid.toInt.toNat)
    (show 2 ^ 32 * l.pId.toInt.toNat / 2 ^ 47 < 2 by omega)
  refine ⟨_, ?_, hhigh.trans (by omega), hlow.trans ?_⟩
  · rw [UInt64.toNat_or, UInt64.toNat_or, htypeAt, hoidAt, hpIdAt, hfirst, two_pow_mul_or]
    omega
  · rw [sharedBit]
    omega

/-- With a row that is not negative every field has its places, and one is shared. -/
theorem get_of_nonneg (h : l.InRange) (hrow : 0 ≤ l.rowId.toInt) :
    ∃ upper, l.get.toNat = 2 ^ 32 * (2 ^ 15 * upper + l.pId.toInt.toNat % 2 ^ 15) +
        l.rowId.toInt.toNat ∧
      upper / 2 = 2 ^ 14 * l.type.toSize.toNat + l.oid.toInt.toNat / 2 ∧
      (upper % 2 = 1 ↔ l.sharedBit) := by
  obtain ⟨upper, hupper, hhigh, hlow⟩ := upper_eq h
  have hrowLt := l.rowId.toInt_lt
  refine ⟨upper, ?_, hhigh, hlow⟩
  rw [get, UInt64.toNat_or, hupper, toNat_widen_of_nonneg hrow,
    ← Nat.two_pow_add_eq_or_of_lt (by omega)]

/-- A negative row sets all the places above it. -/
theorem get_of_neg (h : l.InRange) (hrow : l.rowId.toInt < 0) :
    l.get.toNat = 2 ^ 32 * (2 ^ 32 - 1) + l.rowId.toUInt32.toNat := by
  obtain ⟨upper, hupper, _, _⟩ := upper_eq h
  have hrowLt : l.rowId.toUInt32.toNat < 2 ^ 32 := l.rowId.toUInt32.toNat_lt
  have hlt := UInt64.toNat_lt
    (l.type.toSize <<< 62 ||| widen l.oid <<< 47 ||| widen l.pId <<< 32)
  rw [hupper] at hlt
  have hdiv : (2 ^ 32 * (2 ^ 32 - 1) + l.rowId.toUInt32.toNat) / 2 ^ 32 = 2 ^ 32 - 1 := by omega
  have hmod : (2 ^ 32 * (2 ^ 32 - 1) + l.rowId.toUInt32.toNat) % 2 ^ 32 =
      l.rowId.toUInt32.toNat := by omega
  rw [get, UInt64.toNat_or, hupper, toNat_widen_of_neg hrow, two_pow_mul_or, hdiv, hmod,
    or_ones (by omega)]

theorem pattern_of_nonneg (hrow : 0 ≤ l.rowId.toInt) :
    l.rowId.toUInt32.toNat = l.rowId.toInt.toNat := by
  have hint := toInt_eq_pattern l.rowId
  have hlt : l.rowId.toUInt32.toNat < 2 ^ 32 := l.rowId.toUInt32.toNat_lt
  split at hint <;> omega

/-- The row has its places under every id. -/
theorem rowId_bits (h : l.InRange) : bits l.get 0 32 = l.rowId.toUInt32.toNat := by
  have hlt : l.rowId.toUInt32.toNat < 2 ^ 32 := l.rowId.toUInt32.toNat_lt
  rw [bits]
  by_cases hrow : 0 ≤ l.rowId.toInt
  · obtain ⟨upper, hget, _, _⟩ := get_of_nonneg h hrow
    have hpattern := pattern_of_nonneg hrow
    omega
  · have hget := get_of_neg h (by omega)
    omega

theorem documented_iff (h : l.InRange) :
    l.Documented ↔ l.oid.toInt = 0 ∧ 0 ≤ l.rowId.toInt := by
  obtain ⟨hoidPos, hoidLt⟩ := h.oid
  obtain ⟨hpIdPos, hpIdLt⟩ := h.pId
  have htype := toSize_lt l.type
  by_cases hrow : 0 ≤ l.rowId.toInt
  · obtain ⟨upper, hget, hhigh, hlow⟩ := get_of_nonneg h hrow
    have hrowLt := l.rowId.toInt_lt
    rw [sharedBit] at hlow
    constructor
    · rintro ⟨-, hoid, -, -⟩
      rw [bits] at hoid
      -- the places of the table hold its half
      exact ⟨by omega, hrow⟩
    · rintro ⟨hoid, -⟩
      refine ⟨?_, ?_, ?_, rowId_bits h⟩
      · rw [bits]
        omega
      · rw [bits]
        omega
      · rw [bits]
        omega
  · have hget := get_of_neg h (by omega)
    have hlt : l.rowId.toUInt32.toNat < 2 ^ 32 := l.rowId.toUInt32.toNat_lt
    constructor
    · rintro ⟨hbits, -, -, -⟩
      rw [bits] at hbits
      -- the two places of the type are both set
      omega
    · rintro ⟨-, hpos⟩
      exact absurd hpos hrow

theorem rowId_eq_of_get_eq (ha : a.InRange) (hb : b.InRange) (h : a.get = b.get) :
    a.rowId = b.rowId := by
  have hpattern : a.rowId.toUInt32.toNat = b.rowId.toUInt32.toNat := by
    rw [← rowId_bits ha, ← rowId_bits hb, h]
  exact Int32.toBitVec_inj.mp (BitVec.eq_of_toNat_eq hpattern)

theorem toNat_half_iff {x y : Int} (hx : 0 ≤ x) (hy : 0 ≤ y) :
    x.toNat / 2 = y.toNat / 2 ↔ x / 2 = y / 2 := by
  omega

theorem toNat_mod_iff {x y : Int} (hx : 0 ≤ x) (hy : 0 ≤ y) :
    x.toNat % 2 ^ 15 = y.toNat % 2 ^ 15 ↔ x % 2 ^ 15 = y % 2 ^ 15 := by
  omega

/-- Behind a row that is not negative the number says what its fields are, but for the
shared place. -/
theorem get_eq_iff_of_nonneg (ha : a.InRange) (hb : b.InRange) (hrow : a.rowId = b.rowId)
    (hpos : 0 ≤ a.rowId.toInt) :
    a.get = b.get ↔ a.type = b.type ∧ a.oid.toInt / 2 = b.oid.toInt / 2 ∧
      a.pId.toInt % 2 ^ 15 = b.pId.toInt % 2 ^ 15 ∧ (a.sharedBit ↔ b.sharedBit) := by
  have hrowLt : a.rowId.toInt.toNat < 2 ^ 32 := by
    have hlt := a.rowId.toInt_lt
    omega
  obtain ⟨upper, hget, hhigh, hlow⟩ := get_of_nonneg ha hpos
  obtain ⟨upper', hget', hhigh', hlow'⟩ := get_of_nonneg hb (hrow ▸ hpos)
  rw [← hrow] at hget'
  have hrest (p : Nat) : p % 2 ^ 15 < 2 ^ 15 := Nat.mod_lt p (by decide)
  have hsum : a.get = b.get ↔
      upper = upper' ∧ a.pId.toInt.toNat % 2 ^ 15 = b.pId.toInt.toNat % 2 ^ 15 := by
    rw [← UInt64.toNat_inj, hget, hget', place_inj hrowLt hrowLt, place_inj (hrest _) (hrest _)]
    exact and_iff_left rfl
  have hsplit : upper = upper' ↔ upper / 2 = upper' / 2 ∧ (a.sharedBit ↔ b.sharedBit) := by
    rw [← hlow, ← hlow']
    exact eq_iff_half
  have hupper : upper / 2 = upper' / 2 ↔
      a.type = b.type ∧ a.oid.toInt.toNat / 2 = b.oid.toInt.toNat / 2 := by
    rw [hhigh, hhigh', place_inj ha.half_lt hb.half_lt]
    exact and_congr_left fun _ => ⟨toSize_inj, fun htype => by rw [htype]⟩
  rw [hsum, hsplit, hupper, toNat_half_iff ha.oid.1 hb.oid.1, toNat_mod_iff ha.pId.1 hb.pId.1]
  constructor
  · rintro ⟨⟨⟨htype, hoid⟩, hshared⟩, hpId⟩
    exact ⟨htype, hoid, hpId, hshared⟩
  · rintro ⟨htype, hoid, hpId, hshared⟩
    exact ⟨⟨⟨htype, hoid⟩, hshared⟩, hpId⟩

/-- Two ids have the same number if nothing of them tells it apart. -/
theorem get_eq_iff (ha : a.InRange) (hb : b.InRange) : a.get = b.get ↔ ¬ a.Apart b := by
  by_cases hrow : a.rowId = b.rowId
  · by_cases hpos : 0 ≤ a.rowId.toInt
    · rw [get_eq_iff_of_nonneg ha hb hrow hpos]
      simp only [Apart, ne_eq, hrow, hrow ▸ hpos, not_true, true_and, false_or, not_or, not_not]
    · have hget := get_of_neg ha (by omega)
      have hget' := get_of_neg hb (hrow ▸ by omega)
      rw [← hrow, ← hget] at hget'
      have hsame : a.get = b.get := UInt64.toNat_inj.mp hget'.symm
      have hnot : ¬ a.Apart b := by
        rintro (hne | ⟨hpos', -⟩)
        · exact hne hrow
        · exact hpos hpos'
      exact ⟨fun _ => hnot, fun _ => hsame⟩
  · have hapart : a.Apart b := .inl hrow
    exact ⟨fun h => absurd (rowId_eq_of_get_eq ha hb h) hrow, fun h => absurd hapart h⟩

end Number

/-- A number has the bit structure of the comment exactly for the table 0 and a row that is
not negative, and two different ids have different numbers exactly if something that is
not lost tells them apart. -/
theorem documented_and_get_inj_iff (a b : LockDataId) (ha : a.InRange) (hb : b.InRange) :
    (a.Documented ↔ a.oid.toInt = 0 ∧ 0 ≤ a.rowId.toInt) ∧
      ((a.get = b.get → a = b) ↔ a = b ∨ a.Apart b) := by
  refine ⟨documented_iff ha, ?_⟩
  rw [get_eq_iff ha hb]
  exact or_iff_not_imp_right.symm

theorem documented_and_get_inj_iff_partitions :
    ((ofPartition 0 5).Documented ↔
        (ofPartition 0 5).oid.toInt = 0 ∧ 0 ≤ (ofPartition 0 5).rowId.toInt) ∧
      (((ofPartition 0 5).get = (ofRow 0 5 7).get → ofPartition 0 5 = ofRow 0 5 7) ↔
        ofPartition 0 5 = ofRow 0 5 7 ∨ (ofPartition 0 5).Apart (ofRow 0 5 7)) :=
  documented_and_get_inj_iff (ofPartition 0 5) (ofRow 0 5 7) (by decide) (by decide)

/-- The partition 0 of the table 1 has the number of the partition 2¹⁵ of the table 0, rows
with the same negative id have the same number in every table, and the number of the
table 1 has nothing in the places of the table. -/
theorem get_not_documented :
    ¬ (∀ a b : LockDataId, a.InRange → b.InRange → a.Documented ∧ (a.get = b.get → a = b)) ∧
      (ofPartition 1 0).get = (ofPartition 0 32768).get ∧
      (ofRow 1 2 (-1)).get = (ofRow 3 4 (-1)).get ∧ bits (ofTable 1).get 48 14 = 0 := by
  refine ⟨?_, by decide, by decide, by decide⟩
  intro h
  obtain ⟨_, hinj⟩ := h (ofPartition 1 0) (ofPartition 0 32768) (by decide) (by decide)
  exact absurd (hinj (by decide)) (by decide)

end LockDataId

end RucDDBS
