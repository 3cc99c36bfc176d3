import Mathlib.Algebra.BigOperators.Group.Finset.Piecewise
import Mathlib.Algebra.Order.Group.Int
import Mathlib.Data.Set.Basic
import Mathlib.Tactic.Ring

/-!
Counters that are raised one at a time, each time one that is least among some of
them. However ties are broken, counters that differ by at most one stay so; their sum
grows by one with every turn.
-/

namespace Balance

variable {ι : Type*} {s : Set ι} {count : ι → ℤ} {i : ι} {turns : List ι}

/-- No counter is more than one above another. -/
def Level (s : Set ι) (count : ι → ℤ) : Prop := ∀ i ∈ s, ∀ j ∈ s, count i ≤ count j + 1

/-- No counter is below this one. -/
structure Least (s : Set ι) (count : ι → ℤ) (i : ι) : Prop where
  mem : i ∈ s
  le : ∀ j ∈ s, count i ≤ count j

variable [DecidableEq ι]

def raise (count : ι → ℤ) (i : ι) : ι → ℤ := Function.update count i (count i + 1)

theorem raise_apply (count : ι → ℤ) (i j : ι) :
    raise count i j = count j + if j = i then 1 else 0 := by
  rw [raise, Function.update_apply]
  split
  next h => rw [h]
  next => ring

/-- Each counter is a least one when its turn comes. -/
def Turns (s : Set ι) : (ι → ℤ) → List ι → Prop
  | _, [] => True
  | count, i :: turns => Least s count i ∧ Turns s (raise count i) turns

def raiseAll (count : ι → ℤ) (turns : List ι) : ι → ℤ := turns.foldl raise count

@[simp] theorem raiseAll_nil (count : ι → ℤ) : raiseAll count [] = count := rfl

@[simp] theorem raiseAll_cons (count : ι → ℤ) (i : ι) (turns : List ι) :
    raiseAll count (i :: turns) = raiseAll (raise count i) turns := rfl

theorem raiseAll_append (count : ι → ℤ) (turns later : List ι) :
    raiseAll count (turns ++ later) = raiseAll (raiseAll count turns) later := List.foldl_append

theorem Turns.append {later : List ι} (h : Turns s count turns)
    (hlater : Turns s (raiseAll count turns) later) : Turns s count (turns ++ later) := by
  induction turns generalizing count with
  | nil => exact hlater
  | cons i turns ih => exact ⟨h.1, ih h.2 hlater⟩

theorem Turns.mem (h : Turns s count turns) : ∀ i ∈ turns, i ∈ s := by
  induction turns generalizing count with
  | nil => simp
  | cons i turns ih => exact List.forall_mem_cons.mpr ⟨h.1.mem, ih h.2⟩

/-- A counter is raised as often as it has its turn. -/
theorem raiseAll_apply (count : ι → ℤ) (turns : List ι) (j : ι) :
    raiseAll count turns j = count j + turns.countP fun i => decide (j = i) := by
  induction turns generalizing count with
  | nil => simp
  | cons i turns ih =>
      rw [raiseAll_cons, ih, raise_apply, List.countP_cons]
      split
      next h =>
        simp only [h, decide_true, if_true]
        push_cast
        ring
      next h => simp [h]

theorem Level.raise (h : Level s count) (hleast : Least s count i) : Level s (raise count i) := by
  intro j hj k hk
  have hjk := h j hj k hk
  have hik := hleast.le k hk
  rw [raise_apply, raise_apply]
  split
  next heq =>
    subst heq
    split <;> omega
  next => split <;> omega

theorem Level.raiseAll (h : Level s count) (hturns : Turns s count turns) :
    Level s (raiseAll count turns) := by
  induction turns generalizing count with
  | nil => exact h
  | cons i turns ih => exact ih (h.raise hturns.1) hturns.2

theorem sum_raise {all : Finset ι} (h : i ∈ all) :
    ∑ j ∈ all, raise count i j = (∑ j ∈ all, count j) + 1 := by
  simp only [raise_apply, Finset.sum_add_distrib, Finset.sum_ite_eq', h, if_true]

theorem sum_raiseAll {all : Finset ι} (h : ∀ i ∈ turns, i ∈ all) :
    ∑ j ∈ all, raiseAll count turns j = (∑ j ∈ all, count j) + turns.length := by
  induction turns generalizing count with
  | nil => simp
  | cons i turns ih =>
      obtain ⟨hfirst, hrest⟩ := List.forall_mem_cons.mp h
      rw [raiseAll_cons, ih hrest, sum_raise hfirst, List.length_cons]
      push_cast
      ring

end Balance
