import Mathlib.Order.Basic
import Mathlib.Data.List.Basic
import Mathlib.Data.List.Pairwise
import Mathlib.Order.Lattice

/-!
A line cut at a list of bounds: the half-open ranges between consecutive bounds.
Whatever the order of the bounds, a point between the first of them and some
later one lies in a range; it lies in a single one if no bound beyond it comes
before one that is not. Where the bounds are in order, no bound lies inside a
range.
-/

namespace Ranges

variable {α : Type*}

/-- The pairs of consecutive bounds. -/
def cuts (bounds : List α) : List (α × α) := bounds.zip bounds.tail

@[simp] theorem cuts_cons_cons (a b : α) (bounds : List α) :
    cuts (a :: b :: bounds) = (a, b) :: cuts (b :: bounds) := rfl

theorem cuts_map {β : Type*} (f : α → β) (bounds : List α) :
    cuts (bounds.map f) = (cuts bounds).map (Prod.map f f) := by
  rw [cuts, cuts, ← List.map_tail, List.zip_map]

theorem mem_of_mem_cuts {bounds : List α} {r : α × α} (h : r ∈ cuts bounds) :
    r.1 ∈ bounds ∧ r.2 ∈ bounds := by
  have hmem := List.of_mem_zip (a := r.1) (b := r.2) h
  exact ⟨hmem.1, List.mem_of_mem_tail hmem.2⟩

variable [LinearOrder α] {bounds : List α}

/-- The point lies in the half-open range. -/
def In (x : α) (r : α × α) : Prop := r.1 ≤ x ∧ x < r.2

/-- No point is missed between the first bound and any later one. -/
theorem exists_cut {a x : α} (hlow : a ≤ x) (hhigh : ∃ b ∈ bounds, x < b) :
    ∃ r ∈ cuts (a :: bounds), In x r := by
  induction bounds generalizing a with
  | nil =>
      obtain ⟨b, hmem, _⟩ := hhigh
      cases hmem
  | cons b rest ih =>
      by_cases hb : x < b
      · exact ⟨(a, b), by simp, hlow, hb⟩
      · obtain ⟨z, hmem, hz⟩ := hhigh
        have hne : z ≠ b := by
          rintro rfl
          exact hb hz
        have hrest : z ∈ rest := (List.mem_cons.mp hmem).resolve_left hne
        obtain ⟨r, hr, hin⟩ := ih (not_lt.mp hb) ⟨z, hrest, hz⟩
        exact ⟨r, by simp [hr], hin⟩

/-- Every bound lies on one side of a range, if the bounds are in order. -/
theorem apart_of_mem (hsorted : bounds.Pairwise (· ≤ ·)) {r : α × α} (hr : r ∈ cuts bounds)
    {b : α} (hb : b ∈ bounds) : b ≤ r.1 ∨ r.2 ≤ b := by
  induction bounds with
  | nil => cases hr
  | cons a rest ih =>
      obtain ⟨hfirst, hrest⟩ := List.pairwise_cons.mp hsorted
      cases rest with
      | nil => cases hr
      | cons c rest =>
          rw [cuts_cons_cons] at hr
          rcases List.mem_cons.mp hr with rfl | hlater
          · rcases List.mem_cons.mp hb with rfl | hb
            · exact .inl le_rfl
            · right
              rcases List.mem_cons.mp hb with rfl | hb
              · exact le_rfl
              · exact List.rel_of_pairwise_cons hrest hb
          · rcases List.mem_cons.mp hb with rfl | hb
            · exact .inl (hfirst _ (mem_of_mem_cuts hlater).1)
            · exact ih hrest hlater hb

/-- The range that a bound opens, where a point lies in it. -/
theorem fst_eq_of_in (hsorted : bounds.Pairwise (· ≤ ·)) {r : α × α} (hr : r ∈ cuts bounds)
    {b : α} (hb : b ∈ bounds) (hin : In b r) : r.1 = b := by
  rcases apart_of_mem hsorted hr hb with hle | hle
  · exact le_antisymm hin.1 hle
  · exact absurd hin.2 (not_lt.mpr hle)

/-- A range meets the closed interval from `a` to `b` if it holds one of the two
ends, or if it lies between them and is not empty. -/
theorem meets_iff {a b : α} (hab : a ≤ b) (r : α × α) :
    (∃ x, a ≤ x ∧ x ≤ b ∧ In x r) ↔ In a r ∨ In b r ∨ (a < r.1 ∧ r.1 < r.2 ∧ r.2 ≤ b) := by
  constructor
  · rintro ⟨x, hax, hxb, hlow, hhigh⟩
    rcases le_or_gt r.1 a with hstart | hstart
    · exact .inl ⟨hstart, hax.trans_lt hhigh⟩
    · rcases lt_or_ge b r.2 with hend | hend
      · exact .inr (.inl ⟨hlow.trans hxb, hend⟩)
      · exact .inr (.inr ⟨hstart, hlow.trans_lt hhigh, hend⟩)
  · rintro (hin | hin | ⟨hstart, hne, hend⟩)
    · exact ⟨a, le_rfl, hab, hin⟩
    · exact ⟨b, hab, le_rfl, hin⟩
    · exact ⟨r.1, hstart.le, hne.le.trans hend, le_rfl, hne⟩

section Count

instance (x : α) (r : α × α) : Decidable (In x r) :=
  inferInstanceAs (Decidable (r.1 ≤ x ∧ x < r.2))

/-- The number of ranges that hold the point. -/
def count (x : α) (bounds : List α) : Nat := (cuts bounds).countP fun r => In x r

variable {a x z : α}

theorem count_cons_cons (x a b : α) (bounds : List α) :
    count x (a :: b :: bounds) = count x (b :: bounds) + if In x (a, b) then 1 else 0 := by
  simp [count, List.countP_cons]

/-- A range counts if the point has passed its first bound and not its second. -/
theorem count_beyond (x : α) {a b : α} (bounds : List α) (h : x < a ∨ b ≤ x) :
    count x (a :: b :: bounds) = count x (b :: bounds) := by
  have hout : ¬ In x (a, b) := by
    rintro ⟨hlow, hhigh⟩
    rcases h with h | h
    · exact absurd h (not_lt.mpr hlow)
    · exact absurd hhigh (not_lt.mpr h)
  rw [count_cons_cons, if_neg hout, Nat.add_zero]

theorem count_between (x : α) {a b : α} (bounds : List α) (ha : a ≤ x) (hb : x < b) :
    count x (a :: b :: bounds) = count x (b :: bounds) + 1 := by
  rw [count_cons_cons, if_pos ⟨ha, hb⟩]

/-- The point lies in some range, if it is not before the first bound and before the
last. -/
theorem count_pos (bounds : List α) (ha : a ≤ x) (hz : x < z) :
    0 < count x (a :: (bounds ++ [z])) := by
  obtain ⟨r, hr, hin⟩ := exists_cut ha ⟨z, List.mem_append_right bounds (List.mem_singleton_self z), hz⟩
  rw [count, List.countP_pos_iff]
  exact ⟨r, hr, by simpa using hin⟩

/-- From a bound beyond the point on, no range holds it if no bound goes back. -/
theorem count_eq_zero_iff (ha : x < a) (hz : x < z) :
    count x (a :: (bounds ++ [z])) = 0 ↔ ∀ b ∈ bounds, x < b := by
  induction bounds generalizing a with
  | nil =>
      rw [List.nil_append, count_beyond x [] (.inl ha)]
      simp [count, cuts]
  | cons b bounds ih =>
      rw [List.cons_append, count_beyond x _ (.inl ha), List.forall_mem_cons]
      rcases lt_or_ge x b with hb | hb
      · rw [ih hb]
        simp [hb]
      · have hpos := count_pos bounds hb hz
        constructor
        · omega
        · rintro ⟨hlt, _⟩
          exact absurd hlt (not_lt.mpr hb)

/-- The point lies in one range only if and only if every bound behind one that is
beyond the point is beyond it too. -/
theorem count_eq_one_iff (ha : a ≤ x) (hz : x < z) :
    count x (a :: (bounds ++ [z])) = 1 ↔ bounds.Pairwise fun b b' => x < b → x < b' := by
  induction bounds generalizing a with
  | nil =>
      rw [List.nil_append, count_between x [] ha hz]
      simp [count, cuts]
  | cons b bounds ih =>
      rw [List.cons_append, List.pairwise_cons]
      rcases lt_or_ge x b with hb | hb
      · rw [count_between x _ ha hb, Nat.add_eq_right, count_eq_zero_iff hb hz]
        constructor
        · intro hall
          exact ⟨fun b' hb' _ => hall b' hb',
            List.pairwise_of_forall_mem_list fun _ _ b' hb' _ => hall b' hb'⟩
        · intro h b' hb'
          exact h.1 b' hb' hb
      · rw [count_beyond x _ (.inr hb), ih hb]
        simp [not_lt.mpr hb]

end Count

end Ranges
