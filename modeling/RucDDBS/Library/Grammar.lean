import Mathlib.Computability.Language

/-!
Context-free grammars whose symbols carry values. A production computes the value of
its left-hand side from the values of its right-hand side, as the actions of a parser
generator do; a derivation says that a list of symbols with their values stands for a
word of tokens.
-/

namespace Grammar

variable {T N : Type} {Val : Symbol T N → Type}

/-- A symbol with its value. -/
abbrev Valued (Val : Symbol T N → Type) := Σ X, Val X

/-- A terminal with its value. -/
abbrev Token (Val : Symbol T N → Type) := Σ t, Val (.terminal t)

/-- One value for each symbol of a list. -/
@[reducible] def Vals (Val : Symbol T N → Type) : List (Symbol T N) → Type
  | [] => Unit
  | X :: Xs => Val X × Vals Val Xs

namespace Vals

def toList : {Xs : List (Symbol T N)} → Vals Val Xs → List (Valued Val)
  | [], _ => []
  | X :: _, vs => ⟨X, vs.1⟩ :: toList vs.2

theorem map_fst_toList : {Xs : List (Symbol T N)} → (vs : Vals Val Xs) →
    vs.toList.map Sigma.fst = Xs
  | [], _ => rfl
  | X :: _, vs => congrArg (X :: ·) (map_fst_toList vs.2)

theorem length_toList {Xs : List (Symbol T N)} (vs : Vals Val Xs) :
    vs.toList.length = Xs.length := by
  rw [← List.length_map Sigma.fst, map_fst_toList]

/-- Values that stand at the symbols of `Xs` are values for `Xs`. -/
theorem exists_toList_eq (l : List (Valued Val)) :
    ∃ vs : Vals Val (l.map Sigma.fst), vs.toList = l := by
  induction l with
  | nil => exact ⟨(), rfl⟩
  | cons x l ih =>
      obtain ⟨vs, hvs⟩ := ih
      exact ⟨(x.2, vs), congrArg (x :: ·) hvs⟩

variable [DecidableEq T] [DecidableEq N]

/-- The values of `l`, if they stand at the symbols of `Xs`. -/
def ofList? : (Xs : List (Symbol T N)) → List (Valued Val) → Option (Vals Val Xs)
  | [], [] => some ()
  | X :: Xs, ⟨Y, v⟩ :: l =>
      if h : Y = X then (ofList? Xs l).map fun vs => (h ▸ v, vs) else none
  | _, _ => none

@[simp] theorem ofList?_toList : {Xs : List (Symbol T N)} → (vs : Vals Val Xs) →
    ofList? Xs vs.toList = some vs
  | [], _ => rfl
  | X :: Xs, vs => by
      simp only [toList, ofList?, ↓reduceDIte, ofList?_toList vs.2, Option.map_some]

theorem exists_ofList? {Xs : List (Symbol T N)} {l : List (Valued Val)}
    (h : l.map Sigma.fst = Xs) : ∃ vs, ofList? Xs l = some vs ∧ vs.toList = l := by
  subst h
  obtain ⟨vs, hvs⟩ := exists_toList_eq l
  have hof := ofList?_toList vs
  rw [hvs] at hof
  exact ⟨vs, hof, hvs⟩

end Vals

structure Production (Val : Symbol T N → Type) where
  lhs : N
  rhs : List (Symbol T N)
  action : Vals Val rhs → Val (.nonterminal lhs)

/-- `Derives rule l w`: the symbols of `l`, with these values, stand for the word `w`.
The productions have numbers. -/
inductive Derives (rule : Nat → Option (Production Val)) :
    List (Valued Val) → List (Token Val) → Prop
  | nil : Derives rule [] []
  | terminal {l : List (Valued Val)} {w : List (Token Val)} (t : T) (v : Val (.terminal t)) :
      Derives rule l w → Derives rule (⟨.terminal t, v⟩ :: l) (⟨t, v⟩ :: w)
  | rule {l : List (Valued Val)} {u w : List (Token Val)} {r : Nat} {p : Production Val}
      (vs : Vals Val p.rhs) : rule r = some p → Derives rule vs.toList u →
      Derives rule l w → Derives rule (⟨.nonterminal p.lhs, p.action vs⟩ :: l) (u ++ w)

namespace Derives

variable {rule : Nat → Option (Production Val)} {l l' : List (Valued Val)}
  {w w' : List (Token Val)}

theorem append (h : Derives rule l w) (h' : Derives rule l' w') :
    Derives rule (l ++ l') (w ++ w') := by
  induction h with
  | nil => exact h'
  | terminal t v _ ih => exact .terminal t v ih
  | rule vs hrule hvs _ _ ih =>
      rw [List.append_assoc]
      exact .rule vs hrule hvs ih

theorem split (h : Derives rule (l ++ l') w) :
    ∃ u u', w = u ++ u' ∧ Derives rule l u ∧ Derives rule l' u' := by
  induction l generalizing w with
  | nil => exact ⟨[], w, rfl, .nil, h⟩
  | cons x l ih =>
      cases h with
      | terminal t v hrest =>
          obtain ⟨u, u', rfl, hu, hu'⟩ := ih hrest
          exact ⟨_ :: u, u', rfl, .terminal t v hu, hu'⟩
      | @rule _ v w r p vs hrule hvs hrest =>
          obtain ⟨u, u', rfl, hu, hu'⟩ := ih hrest
          exact ⟨v ++ u, u', (List.append_assoc ..).symm, .rule vs hrule hvs hu, hu'⟩

/-- A token read behind `l`. -/
theorem snoc_terminal (h : Derives rule l w) (t : T) (v : Val (.terminal t)) :
    Derives rule (l ++ [⟨.terminal t, v⟩]) (w ++ [⟨t, v⟩]) :=
  h.append (.terminal t v .nil)

/-- Right-hand sides may be replaced by their left-hand sides. -/
theorem reduce {r : Nat} {p : Production Val} {vs : Vals Val p.rhs}
    (h : Derives rule (l ++ vs.toList) w) (hrule : rule r = some p) :
    Derives rule (l ++ [⟨.nonterminal p.lhs, p.action vs⟩]) w := by
  obtain ⟨u, u', rfl, hu, hu'⟩ := h.split
  have hlast := Derives.rule vs hrule hu' .nil
  rw [List.append_nil] at hlast
  exact hu.append hlast

/-- What a single nonterminal stands for, one of its productions stands for. -/
theorem of_nonterminal {A : N} {v : Val (.nonterminal A)}
    (h : Derives rule [⟨.nonterminal A, v⟩] w) :
    ∃ (r : Nat) (p : Production Val) (vs : Vals Val p.rhs), rule r = some p ∧
      (⟨.nonterminal p.lhs, p.action vs⟩ : Valued Val) = ⟨.nonterminal A, v⟩ ∧
      Derives rule vs.toList w := by
  generalize hl : [(⟨.nonterminal A, v⟩ : Valued Val)] = l at h
  cases h with
  | nil => cases hl
  | terminal t _ _ => exact nomatch congrArg Sigma.fst (List.cons.inj hl).1
  | @rule l u w r p vs hrule hvs hrest =>
      obtain ⟨heq, rfl⟩ := List.cons.inj hl
      cases hrest
      rw [List.append_nil]
      exact ⟨r, p, vs, hrule, heq.symm, hvs⟩

/-- What holds of the tokens of a word and is kept by every production, holds of all values. -/
theorem forall_values {P : (X : Symbol T N) → Val X → Prop}
    (hrules : ∀ r p, rule r = some p → ∀ vs : Vals Val p.rhs, (∀ x ∈ vs.toList, P x.1 x.2) →
      P (.nonterminal p.lhs) (p.action vs))
    (h : Derives rule l w) (hw : ∀ tok ∈ w, P (.terminal tok.1) tok.2) :
    ∀ x ∈ l, P x.1 x.2 := by
  induction h with
  | nil => exact fun _ hx => absurd hx List.not_mem_nil
  | terminal t v _ ih =>
      intro x hx
      rcases List.mem_cons.mp hx with rfl | hx
      · exact hw _ List.mem_cons_self
      · exact ih (fun tok htok => hw tok (List.mem_cons_of_mem _ htok)) x hx
  | rule vs hrule _ _ ihu ihl =>
      intro x hx
      rcases List.mem_cons.mp hx with rfl | hx
      · exact hrules _ _ hrule vs (ihu fun tok htok => hw tok (List.mem_append_left _ htok))
      · exact ihl (fun tok htok => hw tok (List.mem_append_right _ htok)) x hx

/-- One symbol before others. -/
theorem cons {x : Valued Val} {u : List (Token Val)} (hx : Derives rule [x] u)
    (h : Derives rule l w) : Derives rule (x :: l) (u ++ w) :=
  hx.append h

/-- A single left-hand side. -/
theorem single {r : Nat} {p : Production Val} (vs : Vals Val p.rhs) (hrule : rule r = some p)
    (h : Derives rule vs.toList w) :
    Derives rule [⟨.nonterminal p.lhs, p.action vs⟩] w := by
  have hone := Derives.rule vs hrule h .nil
  rwa [List.append_nil] at hone

end Derives

end Grammar
