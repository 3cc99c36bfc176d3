import Mathlib.Logic.Relation
import Mathlib.Data.Finset.Card

/-!
Following a partial function from element to element. What is met from a given
start is a single chain, which either ends or runs into a circle. It ends if and
only if no element is met twice, and then after no more steps than there are
elements on it.
-/

namespace Follow

open Relation

variable {α : Type*} {next : α → Option α} {a b c : α}

/-- `next` leads from `a` to `b`. -/
def Leads (next : α → Option α) (a b : α) : Prop := next a = some b

/-- The chain from `a` leads to `b`, possibly without a step. -/
def Meets (next : α → Option α) (a b : α) : Prop := ReflTransGen (Leads next) a b

/-- `a` is met again behind itself. -/
def Circle (next : α → Option α) (a : α) : Prop := TransGen (Leads next) a a

/-- The element at which the chain ends, if it does so within `steps` elements. -/
def last (next : α → Option α) : Nat → α → Option α
  | 0, _ => none
  | steps + 1, a =>
      match next a with
      | none => some a
      | some b => last next steps b

theorem last_end (steps : Nat) (h : next a = none) : last next (steps + 1) a = some a := by
  simp only [last, h]

theorem last_next (steps : Nat) (h : next a = some b) :
    last next (steps + 1) a = last next steps b := by
  simp only [last, h]

/-- The chain has one way to go. -/
theorem Meets.of_leads (hb : next a = some b) (hc : Meets next a c) : a = c ∨ Meets next b c := by
  rcases ReflTransGen.cases_head hc with heq | ⟨d, hd, hrest⟩
  · exact .inl heq
  · have hsame : d = b := Option.some.inj (hd.symm.trans hb)
    rw [hsame] at hrest
    exact .inr hrest

theorem Circle.first (h : Circle next a) : ∃ b, next a = some b ∧ Meets next b a :=
  TransGen.head'_iff.mp h

/-- More steps change nothing. -/
theorem last_mono {steps more : Nat} (h : last next steps a = some c) (hle : steps ≤ more) :
    last next more a = some c := by
  induction steps generalizing a more with
  | zero => cases h
  | succ steps ih =>
      obtain ⟨more, rfl⟩ := Nat.exists_eq_succ_of_ne_zero (by omega : more ≠ 0)
      cases hnext : next a with
      | none =>
          rw [last_end _ hnext] at h ⊢
          exact h
      | some b =>
          rw [last_next _ hnext] at h ⊢
          exact ih h (by omega)

/-- The end of the chain lies on it and leads nowhere. -/
theorem last_spec {steps : Nat} (h : last next steps a = some c) :
    Meets next a c ∧ next c = none := by
  induction steps generalizing a with
  | zero => cases h
  | succ steps ih =>
      cases hnext : next a with
      | none =>
          rw [last_end _ hnext] at h
          cases h
          exact ⟨.refl, hnext⟩
      | some b =>
          rw [last_next _ hnext] at h
          obtain ⟨hmeets, hend⟩ := ih h
          exact ⟨ReflTransGen.head hnext hmeets, hend⟩

/-- There is only one end. -/
theorem Meets.last_eq {steps : Nat} (hmeets : Meets next a b) (hend : next b = none)
    (h : last next steps a = some c) : b = c := by
  induction steps generalizing a with
  | zero => cases h
  | succ steps ih =>
      cases hnext : next a with
      | none =>
          rw [last_end _ hnext] at h
          cases h
          rcases ReflTransGen.cases_head hmeets with heq | ⟨d, hd, _⟩
          · exact heq.symm
          · exact absurd (hnext.symm.trans hd) (by simp)
      | some d =>
          rw [last_next _ hnext] at h
          rcases hmeets.of_leads hnext with heq | hrest
          · rw [heq, hend] at hnext
            cases hnext
          · exact ih hrest h

/-- A chain that ends has no circle on it. -/
theorem no_circle {steps : Nat} (h : last next steps a = some c) (hmeets : Meets next a b) :
    ¬ Circle next b := by
  induction steps generalizing a b with
  | zero => cases h
  | succ steps ih =>
      intro hcircle
      cases hnext : next a with
      | none =>
          obtain ⟨d, hd, _⟩ := hcircle.first
          rcases ReflTransGen.cases_head hmeets with heq | ⟨e, he, _⟩
          · rw [← heq, hnext] at hd
            cases hd
          · exact absurd (hnext.symm.trans he) (by simp)
      | some d =>
          rw [last_next _ hnext] at h
          rcases hmeets.of_leads hnext with heq | hrest
          · subst heq
            obtain ⟨e, he, hback⟩ := hcircle.first
            have hsame : e = d := Option.some.inj (he.symm.trans hnext)
            rw [hsame] at hback
            exact ih h hback hcircle
          · exact ih h hrest hcircle

/-- A chain without a circle that stays in a finite set ends. -/
theorem last_isSome [DecidableEq α] {elements : Finset α}
    (hin : ∀ b, Meets next a b → b ∈ elements) (hfree : ∀ b, Meets next a b → ¬ Circle next b) :
    ∃ c, last next (elements.card + 1) a = some c := by
  induction hcard : elements.card generalizing elements a with
  | zero =>
      have hempty := Finset.card_eq_zero.mp hcard
      have ha := hin a .refl
      rw [hempty] at ha
      exact absurd ha (Finset.notMem_empty a)
  | succ n ih =>
      cases hnext : next a with
      | none => exact ⟨a, last_end _ hnext⟩
      | some b =>
          have hlater {d : α} (hd : Meets next b d) : Meets next a d := ReflTransGen.head hnext hd
          have hrest : ∀ d, Meets next b d → d ∈ elements.erase a := by
            intro d hd
            rw [Finset.mem_erase]
            refine ⟨?_, hin d (hlater hd)⟩
            rintro rfl
            exact hfree d .refl (TransGen.head'_iff.mpr ⟨b, hnext, hd⟩)
          have hless : (elements.erase a).card = n := by
            rw [Finset.card_erase_of_mem (hin a .refl), hcard]
            rfl
          obtain ⟨c, hc⟩ := ih hrest (fun d hd => hfree d (hlater hd)) hless
          exact ⟨c, (last_next _ hnext).trans hc⟩

end Follow
