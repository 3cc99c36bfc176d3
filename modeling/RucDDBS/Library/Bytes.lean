import Mathlib.Data.List.Lex
import Mathlib.Data.List.Basic
import Mathlib.Algebra.Group.Int.Defs
import Mathlib.Algebra.Group.Nat.Defs
import Mathlib.Algebra.GroupWithZero.Nat

/-!
Byte strings with the operations that binary formats are written in: the
unsigned lexicographic order, fixed-width little-endian numbers, and reads at an
offset. Reads are partial. They return `none` where a program would leave the
buffer, so a result of the form `some _` also says that every access was in
bounds.
-/

abbrev Bytes := List UInt8

instance UInt8.linearOrder : LinearOrder UInt8 where
  le_refl := UInt8.le_refl
  le_trans _ _ _ := UInt8.le_trans
  le_antisymm _ _ := UInt8.le_antisymm
  le_total := UInt8.le_total
  lt_iff_le_not_ge a b := by
    rw [UInt8.not_le]
    constructor
    · intro hlt
      exact ⟨UInt8.le_of_lt hlt, hlt⟩
    · exact And.right
  toDecidableLE := inferInstance
  toDecidableEq := inferInstance
  toDecidableLT := inferInstance

namespace Bytes

/-- The `width` low bytes of a number, least significant first. -/
def toLE : Nat → Nat → Bytes
  | 0, _ => []
  | width + 1, n => UInt8.ofNat n :: toLE width (n / 256)

def ofLE : Bytes → Nat
  | [] => 0
  | byte :: rest => byte.toNat + 256 * ofLE rest

@[simp] theorem toLE_length (width n : Nat) : (toLE width n).length = width := by
  induction width generalizing n with
  | zero => rfl
  | succ width ih => simp [toLE, ih]

theorem ofLE_toLE (width n : Nat) :
    ofLE (toLE width n) = n % 256 ^ width := by
  induction width generalizing n with
  | zero => simp [toLE, ofLE, Nat.mod_one]
  | succ width ih =>
      have hbyte : (UInt8.ofNat n).toNat = n % 256 := UInt8.toNat_ofNat'
      rw [toLE, ofLE, hbyte, ih (n / 256), Nat.pow_succ', Nat.mod_mul]

/-- The higher bytes do not matter. -/
theorem toLE_mod (width n : Nat) : toLE width (n % 256 ^ width) = toLE width n := by
  induction width generalizing n with
  | zero => rfl
  | succ width ih =>
      have hlow : UInt8.ofNat (n % 256 ^ (width + 1)) = UInt8.ofNat n := by
        apply UInt8.toNat_inj.mp
        rw [UInt8.toNat_ofNat', UInt8.toNat_ofNat', Nat.pow_succ']
        exact Nat.mod_mul_right_mod n 256 _
      rw [toLE, toLE, hlow, Nat.pow_succ', Nat.mod_mul_right_div_self, ih]

theorem ofLE_lt (bytes : Bytes) : ofLE bytes < 256 ^ bytes.length := by
  induction bytes with
  | nil => decide
  | cons byte bytes ih =>
      have hbyte : byte.toNat < 256 := byte.toNat_lt
      rw [ofLE, List.length_cons, Nat.pow_succ]
      omega

/-- The `width` bytes at offset `pos`, as a number. -/
def readLE (width : Nat) (bytes : Bytes) (pos : Nat) : Option Nat :=
  if pos + width ≤ bytes.length then some (ofLE ((bytes.drop pos).take width)) else none

/-- `std::string::substr`: past the end it throws, at the end it is cut off. -/
def substr (bytes : Bytes) (pos n : Nat) : Option Bytes :=
  if pos ≤ bytes.length then some ((bytes.drop pos).take n) else none

/-- `n` bytes at offset `pos`, all of them present. -/
def slice (bytes : Bytes) (pos n : Nat) : Option Bytes :=
  if pos + n ≤ bytes.length then some ((bytes.drop pos).take n) else none

/-- The first `n` bytes, with zeros where there are not enough. -/
def padTo (n : Nat) (bytes : Bytes) : Bytes :=
  bytes.take n ++ List.replicate (n - bytes.length) 0

/-- `memcpy` into a buffer at `pos`, inside of the buffer. -/
def writeAt (buffer : Bytes) (pos : Nat) (data : Bytes) : Option Bytes :=
  if pos + data.length ≤ buffer.length then
    some (buffer.take pos ++ data ++ buffer.drop (pos + data.length))
  else none

/-- Pieces written one behind the other, with the position behind the last. -/
def writeAll (buffer : Bytes) (pos : Nat) : List Bytes → Option (Bytes × Nat)
  | [] => some (buffer, pos)
  | data :: rest => do
      let buffer ← writeAt buffer pos data
      writeAll buffer (pos + data.length) rest

theorem writeAt_of_le {buffer data : Bytes} {pos : Nat}
    (h : pos + data.length ≤ buffer.length) :
    ∃ buffer', writeAt buffer pos data = some buffer' ∧ buffer'.length = buffer.length ∧
      buffer'.take (pos + data.length) = buffer.take pos ++ data := by
  refine ⟨_, if_pos h, ?_, ?_⟩
  · simp only [List.length_append, List.length_take, List.length_drop]
    omega
  · have hpos : pos ≤ buffer.length := by omega
    have hlen : (buffer.take pos ++ data).length = pos + data.length := by
      rw [List.length_append, List.length_take_of_le hpos]
    rw [← hlen, List.take_left]

/-- Pieces that fit are written as their concatenation. -/
theorem writeAll_of_le {buffer : Bytes} {pos : Nat} (pieces : List Bytes)
    (h : pos + pieces.flatten.length ≤ buffer.length) :
    ∃ buffer', writeAll buffer pos pieces = some (buffer', pos + pieces.flatten.length) ∧
      buffer'.length = buffer.length ∧
      buffer'.take (pos + pieces.flatten.length) = buffer.take pos ++ pieces.flatten := by
  induction pieces generalizing buffer pos with
  | nil => exact ⟨buffer, by simp [writeAll]⟩
  | cons data rest ih =>
      simp only [List.flatten_cons, List.length_append] at h ⊢
      have hfirst : pos + data.length ≤ buffer.length := by omega
      obtain ⟨mid, hmid, hlen, htake⟩ := writeAt_of_le hfirst
      have hrest : pos + data.length + rest.flatten.length ≤ mid.length := by omega
      obtain ⟨last, hlast, hlen', htake'⟩ := ih hrest
      rw [← Nat.add_assoc]
      refine ⟨last, ?_, hlen'.trans hlen, ?_⟩
      · rw [writeAll, hmid]
        exact hlast
      · rw [htake', htake, List.append_assoc]

section Concatenation

variable {bytes before middle after : Bytes} {pos n width : Nat}

/-- Offsets into a concatenation are given by the parts before them. -/
theorem slice_append (h : bytes = before ++ middle ++ after)
    (hpos : pos = before.length) (hn : n = middle.length) :
    slice bytes pos n = some middle := by
  subst h hpos hn
  have hle : before.length + middle.length ≤ (before ++ middle ++ after).length := by
    simp only [List.length_append]
    omega
  rw [slice, if_pos hle]
  simp [List.append_assoc]

theorem substr_append (h : bytes = before ++ middle ++ after)
    (hpos : pos = before.length) (hn : n = middle.length) :
    substr bytes pos n = some middle := by
  subst h hpos hn
  have hle : before.length ≤ (before ++ middle ++ after).length := by
    simp only [List.length_append]
    omega
  rw [substr, if_pos hle]
  simp [List.append_assoc]

theorem readLE_append (h : bytes = before ++ toLE width n ++ after)
    (hpos : pos = before.length) : readLE width bytes pos = some (n % 256 ^ width) := by
  subst h hpos
  have hle : before.length + width ≤ (before ++ toLE width n ++ after).length := by
    simp only [List.length_append, toLE_length]
    omega
  rw [readLE, if_pos hle]
  simp [List.append_assoc, ofLE_toLE]

theorem padTo_length (n : Nat) (bytes : Bytes) : (padTo n bytes).length = n := by
  simp only [padTo, List.length_append, List.length_take, List.length_replicate]
  omega

theorem padTo_append (h : before.length ≤ n) :
    padTo n (before ++ after) = before ++ padTo (n - before.length) after := by
  simp only [padTo, List.take_append, List.take_of_length_le h, List.length_append,
    List.append_assoc, Nat.sub_sub]

end Concatenation

end Bytes
