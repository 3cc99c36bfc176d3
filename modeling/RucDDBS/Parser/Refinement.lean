import RucDDBS.Parser.Certificate
import RucDDBS.Parser.Yyparse

/-!
`yyparse` does what the driver does on the values of the grammar. The record of a symbol
keeps its value in the field of its type. What popped records still hold shows up only
where an empty right-hand side is reduced: then no condition list and no partitioning has
been on the stack, and the record is as good as a new one.
-/

namespace RucDDBS

namespace Sql

open Ast Grammar

section Values

/-- The field of its record in which a symbol keeps its value. -/
def Holds : (X : Symbol Token Nonterminal) → SemValue → Val X → Prop
  | .terminal .IDENTIFIER, s, v => s.svStr = v
  | .terminal .VALUE_STRING, s, v => s.svStr = v
  | .terminal .VALUE_INT, s, v => s.svInt = v
  | .terminal .VALUE_FLOAT, s, v => s.svFloat = v
  | .terminal _, _, _ => True
  | .nonterminal .start, _, _ => False
  | .nonterminal .stmt, s, v => s.svNode = some v
  | .nonterminal .txnStmt, s, v => s.svNode = some v
  | .nonterminal .dbStmt, s, v => s.svNode = some v
  | .nonterminal .ddl, s, v => s.svNode = some v
  | .nonterminal .paropt, s, v => s.svParopt = v
  | .nonterminal .parlist, s, v => s.svParts = v
  | .nonterminal .part, s, v => s.svPart = some v
  | .nonterminal .dml, s, v => s.svNode = some v
  | .nonterminal .fieldList, s, v => s.svFields = v
  | .nonterminal .field, s, v => s.svField = some v
  | .nonterminal .type, s, v => s.svTypeLen = some v
  | .nonterminal .valueList, s, v => s.svVals = v
  | .nonterminal .value, s, v => s.svVal = some v
  | .nonterminal .condition, s, v => s.svCond = some v
  | .nonterminal .optWhereClause, s, v => s.svConds = v
  | .nonterminal .whereClause, s, v => s.svConds = v
  | .nonterminal .col, s, v => s.svCol = some v
  | .nonterminal .colList, s, v => s.svCols = v
  | .nonterminal .op, s, v => s.svCompOp = v
  | .nonterminal .expr, s, v => s.svExpr = some v
  | .nonterminal .setClauses, s, v => s.svSetClauses = v
  | .nonterminal .setClause, s, v => s.svSetClause = some v
  | .nonterminal .selector, s, v => s.svCols = v
  | .nonterminal .tableList, s, v => s.svStrs = v
  | .nonterminal .tbName, s, v => s.svStr = v
  | .nonterminal .colName, s, v => s.svStr = v

/-- `yyvsp (k - 1)` to `yyvsp 0`, the records of a right-hand side. -/
def rhsValues (yyvsp : Nat → SemValue) : Nat → List SemValue
  | 0 => []
  | k + 1 => yyvsp k :: rhsValues yyvsp k

def HoldsAll : List SemValue → List (Valued Val) → Prop
  | [], [] => True
  | s :: ss, x :: xs => Holds x.1 s x.2 ∧ HoldsAll ss xs
  | _, _ => False

/-- The fields that a rule may leave as they are. -/
def Clean (s : SemValue) : Prop := s.svConds = [] ∧ s.svParopt = none

/-- The symbols whose records need not be clean, and those above them in a tree. -/
def marked : Symbol Token Nonterminal → Bool
  | .nonterminal .whereClause => true
  | .nonterminal .optWhereClause => true
  | .nonterminal .paropt => true
  | .nonterminal .ddl => true
  | .nonterminal .dml => true
  | .nonterminal .stmt => true
  | _ => false

/-- The action on `yyval` gives `A` its value. -/
def Gives (yyval : SemValue) (e : Effect) : (A : Nonterminal) → Val (.nonterminal A) → Prop
  | .start, tree => e = .accept tree
  | A, v => ∃ s, e = .value s ∧ Holds (.nonterminal A) s v ∧
      (marked (.nonterminal A) = false → s.svConds = yyval.svConds ∧ s.svParopt = yyval.svParopt)

theorem child_some {α : Type} {pointer : Option α} {object : α} (h : pointer = some object)
    (effect : α → Effect) : child pointer effect = effect object := by
  rw [h]
  rfl

theorem congr₃ {α β γ δ : Type} (f : α → β → γ → δ) {a a' : α} {b b' : β} {c c' : γ}
    (ha : a = a') (hb : b = b') (hc : c = c') : f a b c = f a' b' c' := by
  rw [ha, hb, hc]

/-- The action of the rule `r` computes the value that the grammar gives to its left-hand
side. -/
def Faithful (r : Nat) (p : Production Val) : Prop :=
  ∀ (us : Vals Val p.rhs) (yyvsp : Nat → SemValue) (stale : SemValue), Clean stale →
    HoldsAll (rhsValues yyvsp p.rhs.length) us.toList →
    let yyval := (rhsValues yyvsp p.rhs.length).headD stale
    Gives yyval (semanticAction r yyval yyvsp) p.lhs (p.action us)

/-- `P` holds of the rules, which are numbered from `r` on. -/
def RulesFrom (P : Nat → Production Val → Prop) : Nat → List (Production Val) → Prop
  | _, [] => True
  | r, p :: ps => P r p ∧ RulesFrom P (r + 1) ps

theorem RulesFrom.get {P : Nat → Production Val → Prop} {ps : List (Production Val)} {r i : Nat}
    {p : Production Val} (h : RulesFrom P r ps) (hi : ps[i]? = some p) : P (r + i) p := by
  induction ps generalizing r i with
  | nil => cases hi
  | cons q ps ih =>
      cases i with
      | zero =>
          cases hi
          exact h.1
      | succ i =>
          have hrest := ih h.2 hi
          rwa [Nat.add_right_comm] at hrest

theorem rules_faithful : RulesFrom Faithful 2 rules := by
  refine ⟨?_, ?_, ?_, ?_, ?_, ?_, ?_, ?_, ?_, ?_, ?_, ?_, ?_, ?_, ?_, ?_, ?_, ?_, ?_, ?_, ?_, ?_,
    ?_, ?_, ?_, ?_, ?_, ?_, ?_, ?_, ?_, ?_, ?_, ?_, ?_, ?_, ?_, ?_, ?_, ?_, ?_, ?_, ?_, ?_, ?_,
    ?_, ?_, ?_, ?_, ?_, ?_, ?_, ?_, ?_, ?_, ?_, ?_, ?_, ?_, ?_, ?_, ?_, ?_, ?_, ?_, ?_, ?_,
    trivial⟩
  · intro _ _ _ _ h
    obtain ⟨hstmt, _, _⟩ := h
    exact congrArg Effect.accept hstmt
  · intro _ _ _ _ h
    obtain ⟨_, hstmt, _, _⟩ := h
    exact child_some hstmt _
  · intro _ _ _ _ h
    obtain ⟨_, _⟩ := h
    exact rfl
  · intro _ _ _ _ h
    obtain ⟨_, _⟩ := h
    exact rfl
  · intro _ _ _ _ h
    obtain ⟨_, _⟩ := h
    exact rfl
  · intro _ _ _ _ h
    obtain ⟨h, _⟩ := h
    exact ⟨_, rfl, h, nofun⟩
  · intro _ _ _ _ h
    obtain ⟨h, _⟩ := h
    exact ⟨_, rfl, h, nofun⟩
  · intro _ _ _ _ h
    obtain ⟨h, _⟩ := h
    exact ⟨_, rfl, h, nofun⟩
  · intro _ _ _ _ h
    obtain ⟨h, _⟩ := h
    exact ⟨_, rfl, h, nofun⟩
  · intro _ _ _ _ h
    obtain ⟨_, _⟩ := h
    exact ⟨_, rfl, rfl, fun _ => ⟨rfl, rfl⟩⟩
  · intro _ _ _ _ h
    obtain ⟨_, _⟩ := h
    exact ⟨_, rfl, rfl, fun _ => ⟨rfl, rfl⟩⟩
  · intro _ _ _ _ h
    obtain ⟨_, _⟩ := h
    exact ⟨_, rfl, rfl, fun _ => ⟨rfl, rfl⟩⟩
  · intro _ _ _ _ h
    obtain ⟨_, _⟩ := h
    exact ⟨_, rfl, rfl, fun _ => ⟨rfl, rfl⟩⟩
  · intro _ _ _ _ h
    obtain ⟨_, _, _⟩ := h
    exact ⟨_, rfl, rfl, fun _ => ⟨rfl, rfl⟩⟩
  · intro _ _ _ _ h
    obtain ⟨_, _, _⟩ := h
    exact ⟨_, rfl, rfl, fun _ => ⟨rfl, rfl⟩⟩
  · intro _ _ _ _ h
    obtain ⟨_, _, htab, _, hfields, _, hpar, _⟩ := h
    exact ⟨_, rfl, congr₃ (fun a b c => some (TreeNode.createTable a b c)) htab hfields hpar, nofun⟩
  · intro _ _ _ _ h
    obtain ⟨_, _, h, _⟩ := h
    exact ⟨_, rfl, congrArg (fun a => some (TreeNode.dropTable a)) h, nofun⟩
  · intro _ _ _ _ h
    obtain ⟨_, h, _⟩ := h
    exact ⟨_, rfl, congrArg (fun a => some (TreeNode.descTable a)) h, nofun⟩
  · intro _ _ _ _ h
    obtain ⟨_, _, h, _, h', _, _⟩ := h
    exact ⟨_, rfl, congrArg₂ (fun a b => some (TreeNode.createIndex a b)) h h', nofun⟩
  · intro _ _ _ _ h
    obtain ⟨_, _, h, _, h', _, _⟩ := h
    exact ⟨_, rfl, congrArg₂ (fun a b => some (TreeNode.dropIndex a b)) h h', nofun⟩
  · intro _ _ _ hclean _
    exact ⟨_, rfl, hclean.2, nofun⟩
  · intro _ _ _ _ h
    obtain ⟨_, _, _, _, h, _, _, h', _, _⟩ := h
    exact ⟨_, rfl, congrArg₂ (fun a b => some (ParOpt.mk a b)) h h', nofun⟩
  · intro _ _ _ _ h
    obtain ⟨h, _⟩ := h
    exact ⟨_, child_some h _, rfl, fun _ => ⟨rfl, rfl⟩⟩
  · intro _ _ _ _ h
    obtain ⟨h, _, h', _⟩ := h
    exact ⟨_, child_some h' _, congrArg (· ++ [_]) h, fun _ => ⟨rfl, rfl⟩⟩
  · intro _ _ _ _ h
    obtain ⟨_, _, _, _, h, _, _⟩ := h
    exact ⟨_, rfl, congrArg (fun a => some (Ast.Part.mk a)) h, fun _ => ⟨rfl, rfl⟩⟩
  · intro _ _ _ _ h
    obtain ⟨_, _, h, _, _, h', _, _⟩ := h
    exact ⟨_, rfl, congrArg₂ (fun a b => some (TreeNode.insert ⟨a, b⟩)) h h', nofun⟩
  · intro _ _ _ _ h
    obtain ⟨_, _, h, h', _⟩ := h
    exact ⟨_, rfl, congrArg₂ (fun a b => some (TreeNode.delete ⟨a, b⟩)) h h', nofun⟩
  · intro _ _ _ _ h
    obtain ⟨_, htab, _, hclauses, hconds, _⟩ := h
    exact ⟨_, rfl, congr₃ (fun a b c => some (TreeNode.update ⟨a, b, c⟩)) htab hclauses hconds,
      nofun⟩
  · intro _ _ _ _ h
    obtain ⟨_, hcols, _, htabs, hconds, _⟩ := h
    exact ⟨_, rfl, congr₃ (fun a b c => some (TreeNode.select ⟨a, b, c⟩)) hcols htabs hconds, nofun⟩
  · intro _ _ _ _ h
    obtain ⟨h, _⟩ := h
    exact ⟨_, child_some h _, rfl, fun _ => ⟨rfl, rfl⟩⟩
  · intro _ _ _ _ h
    obtain ⟨h, _, h', _⟩ := h
    exact ⟨_, child_some h' _, congrArg (· ++ [_]) h, fun _ => ⟨rfl, rfl⟩⟩
  · intro _ _ _ _ h
    obtain ⟨h, h', _⟩ := h
    exact ⟨_, child_some h' _, congrArg (fun a => some (Ast.Field.mk a _)) h, fun _ => ⟨rfl, rfl⟩⟩
  · intro _ _ _ _ h
    obtain ⟨_, _⟩ := h
    exact ⟨_, rfl, rfl, fun _ => ⟨rfl, rfl⟩⟩
  · intro _ _ _ _ h
    obtain ⟨_, _, h, _, _⟩ := h
    exact ⟨_, rfl, congrArg (fun a => some (TypeLen.mk .string a)) h, fun _ => ⟨rfl, rfl⟩⟩
  · intro _ _ _ _ h
    obtain ⟨_, _⟩ := h
    exact ⟨_, rfl, rfl, fun _ => ⟨rfl, rfl⟩⟩
  · intro _ _ _ _ h
    obtain ⟨h, _⟩ := h
    exact ⟨_, child_some h _, rfl, fun _ => ⟨rfl, rfl⟩⟩
  · intro _ _ _ _ h
    obtain ⟨h, _, h', _⟩ := h
    exact ⟨_, child_some h' _, congrArg (· ++ [_]) h, fun _ => ⟨rfl, rfl⟩⟩
  · intro _ _ _ _ h
    obtain ⟨h, _⟩ := h
    exact ⟨_, rfl, congrArg (fun a => some (Ast.Value.intLit a)) h, fun _ => ⟨rfl, rfl⟩⟩
  · intro _ _ _ _ h
    obtain ⟨h, _⟩ := h
    exact ⟨_, rfl, congrArg (fun a => some (Ast.Value.floatLit a)) h, fun _ => ⟨rfl, rfl⟩⟩
  · intro _ _ _ _ h
    obtain ⟨h, _⟩ := h
    exact ⟨_, rfl, congrArg (fun a => some (Ast.Value.stringLit a)) h, fun _ => ⟨rfl, rfl⟩⟩
  · intro _ _ _ _ h
    obtain ⟨hlhs, hop, hrhs, _⟩ := h
    exact ⟨_, (child_some hlhs _).trans (child_some hrhs _),
      congrArg (fun a => some (BinaryExpr.mk _ a _)) hop, fun _ => ⟨rfl, rfl⟩⟩
  · intro _ _ _ hclean _
    exact ⟨_, rfl, hclean.1, nofun⟩
  · intro _ _ _ _ h
    obtain ⟨_, h, _⟩ := h
    exact ⟨_, rfl, h, nofun⟩
  · intro _ _ _ _ h
    obtain ⟨h, _⟩ := h
    exact ⟨_, child_some h _, rfl, nofun⟩
  · intro _ _ _ _ h
    obtain ⟨h, _, h', _⟩ := h
    exact ⟨_, child_some h' _, congrArg (· ++ [_]) h, nofun⟩
  · intro _ _ _ _ h
    obtain ⟨h, _, h', _⟩ := h
    exact ⟨_, rfl, congrArg₂ (fun a b => some (Col.mk a b)) h h', fun _ => ⟨rfl, rfl⟩⟩
  · intro _ _ _ _ h
    obtain ⟨h, _⟩ := h
    exact ⟨_, rfl, congrArg (fun a => some (Col.mk [] a)) h, fun _ => ⟨rfl, rfl⟩⟩
  · intro _ _ _ _ h
    obtain ⟨h, _⟩ := h
    exact ⟨_, child_some h _, rfl, fun _ => ⟨rfl, rfl⟩⟩
  · intro _ _ _ _ h
    obtain ⟨h, _, h', _⟩ := h
    exact ⟨_, child_some h' _, congrArg (· ++ [_]) h, fun _ => ⟨rfl, rfl⟩⟩
  · intro _ _ _ _ h
    obtain ⟨_, _⟩ := h
    exact ⟨_, rfl, rfl, fun _ => ⟨rfl, rfl⟩⟩
  · intro _ _ _ _ h
    obtain ⟨_, _⟩ := h
    exact ⟨_, rfl, rfl, fun _ => ⟨rfl, rfl⟩⟩
  · intro _ _ _ _ h
    obtain ⟨_, _⟩ := h
    exact ⟨_, rfl, rfl, fun _ => ⟨rfl, rfl⟩⟩
  · intro _ _ _ _ h
    obtain ⟨_, _⟩ := h
    exact ⟨_, rfl, rfl, fun _ => ⟨rfl, rfl⟩⟩
  · intro _ _ _ _ h
    obtain ⟨_, _⟩ := h
    exact ⟨_, rfl, rfl, fun _ => ⟨rfl, rfl⟩⟩
  · intro _ _ _ _ h
    obtain ⟨_, _⟩ := h
    exact ⟨_, rfl, rfl, fun _ => ⟨rfl, rfl⟩⟩
  · intro _ _ _ _ h
    obtain ⟨h, _⟩ := h
    exact ⟨_, child_some h _, rfl, fun _ => ⟨rfl, rfl⟩⟩
  · intro _ _ _ _ h
    obtain ⟨h, _⟩ := h
    exact ⟨_, child_some h _, rfl, fun _ => ⟨rfl, rfl⟩⟩
  · intro _ _ _ _ h
    obtain ⟨h, _⟩ := h
    exact ⟨_, child_some h _, rfl, fun _ => ⟨rfl, rfl⟩⟩
  · intro _ _ _ _ h
    obtain ⟨h, _, h', _⟩ := h
    exact ⟨_, child_some h' _, congrArg (· ++ [_]) h, fun _ => ⟨rfl, rfl⟩⟩
  · intro _ _ _ _ h
    obtain ⟨h, _, h', _⟩ := h
    exact ⟨_, child_some h' _, congrArg (fun a => some (SetClause.mk a _)) h, fun _ => ⟨rfl, rfl⟩⟩
  · intro _ _ _ _ h
    obtain ⟨_, _⟩ := h
    exact ⟨_, rfl, rfl, fun _ => ⟨rfl, rfl⟩⟩
  · intro _ _ _ _ h
    obtain ⟨h, _⟩ := h
    exact ⟨_, rfl, h, fun _ => ⟨rfl, rfl⟩⟩
  · intro _ _ _ _ h
    obtain ⟨h, _⟩ := h
    exact ⟨_, rfl, congrArg (fun a => [a]) h, fun _ => ⟨rfl, rfl⟩⟩
  · intro _ _ _ _ h
    obtain ⟨h, _, h', _⟩ := h
    exact ⟨_, rfl, congrArg₂ (fun a b => a ++ [b]) h h', fun _ => ⟨rfl, rfl⟩⟩
  · intro _ _ _ _ h
    obtain ⟨h, _, h', _⟩ := h
    exact ⟨_, rfl, congrArg₂ (fun a b => a ++ [b]) h h', fun _ => ⟨rfl, rfl⟩⟩
  · intro _ _ _ _ h
    obtain ⟨h, _⟩ := h
    exact ⟨_, rfl, h, fun _ => ⟨rfl, rfl⟩⟩
  · intro _ _ _ _ h
    obtain ⟨h, _⟩ := h
    exact ⟨_, rfl, h, fun _ => ⟨rfl, rfl⟩⟩

theorem faithful_of_rule {r : Nat} {p : Production Val} (h : rule r = some p) : Faithful r p := by
  match r, h with
  | r + 2, h =>
    rw [Nat.add_comm]
    exact rules_faithful.get h

end Values

section Stacks

variable {yyss : Nat → Nat} {yyvs : Nat → SemValue} {frames popped rest : List (LR.Frame Val)}

/-- The arrays hold the stack of the driver: the states, and the values in their records. -/
def StackHolds (yyss : Nat → Nat) (yyvs : Nat → SemValue) : List (LR.Frame Val) → Prop
  | [] => yyss 0 = 0
  | f :: rest => yyss (rest.length + 1) = f.state ∧
      Holds f.sym.1 (yyvs (rest.length + 1)) f.sym.2 ∧ StackHolds yyss yyvs rest

theorem StackHolds.top (h : StackHolds yyss yyvs frames) :
    yyss frames.length = LR.top frames := by
  cases frames with
  | nil => exact h
  | cons f rest => exact h.1

/-- Writing above the stack does not change it. -/
theorem StackHolds.update (h : StackHolds yyss yyvs frames) {i : Nat} (hi : frames.length < i)
    (q : Nat) (s : SemValue) :
    StackHolds (Function.update yyss i q) (Function.update yyvs i s) frames := by
  induction frames with
  | nil =>
      have hne : 0 ≠ i := Nat.ne_of_lt hi
      rw [StackHolds, Function.update_of_ne hne]
      exact h
  | cons f rest ih =>
      have hne : rest.length + 1 ≠ i := Nat.ne_of_lt hi
      obtain ⟨hstate, hvalue, hrest⟩ := h
      refine ⟨?_, ?_, ih hrest (Nat.lt_of_succ_lt hi)⟩
      · rw [Function.update_of_ne hne]
        exact hstate
      · rw [Function.update_of_ne hne]
        exact hvalue

theorem StackHolds.push (h : StackHolds yyss yyvs frames) (q : Nat) {x : Valued Val} {s : SemValue}
    (hs : Holds x.1 s x.2) :
    StackHolds (Function.update yyss (frames.length + 1) q)
      (Function.update yyvs (frames.length + 1) s) (⟨q, x⟩ :: frames) := by
  refine ⟨Function.update_self .., ?_, h.update (Nat.lt_succ_self _) q s⟩
  rw [Function.update_self]
  exact hs

theorem StackHolds.drop (h : StackHolds yyss yyvs (popped ++ rest)) :
    StackHolds yyss yyvs rest := by
  induction popped with
  | nil => exact h
  | cons f popped ih => exact ih h.2.2

theorem rhsValues_succ (yyvsp : Nat → SemValue) (k : Nat) :
    rhsValues yyvsp (k + 1) = rhsValues (fun i => yyvsp (i + 1)) k ++ [yyvsp 0] := by
  induction k with
  | zero => rfl
  | succ k ih => exact congrArg (yyvsp (k + 1) :: ·) ih

theorem HoldsAll.snoc {ss : List SemValue} {xs : List (Valued Val)} {s : SemValue}
    {x : Valued Val} (h : HoldsAll ss xs) (hs : Holds x.1 s x.2) :
    HoldsAll (ss ++ [s]) (xs ++ [x]) := by
  induction ss generalizing xs with
  | nil =>
      cases xs with
      | nil => exact ⟨hs, trivial⟩
      | cons _ _ => exact h.elim
  | cons _ ss ih =>
      cases xs with
      | nil => exact h.elim
      | cons _ xs => exact ⟨h.1, ih h.2⟩

/-- The records of the popped symbols, from the bottom. -/
theorem StackHolds.rhs (h : StackHolds yyss yyvs (popped ++ rest)) :
    HoldsAll (rhsValues (fun k => yyvs ((popped ++ rest).length - k)) popped.length)
      (LR.symbols popped) := by
  induction popped with
  | nil => trivial
  | cons f popped ih =>
      rw [LR.symbols_cons, List.length_cons, rhsValues_succ]
      refine HoldsAll.snoc ?_ h.2.1
      have hshift : (fun i => yyvs ((f :: popped ++ rest).length - (i + 1))) =
          fun i => yyvs ((popped ++ rest).length - i) := by
        funext i
        rw [List.cons_append, List.length_cons, Nat.add_sub_add_right]
      rw [hshift]
      exact ih h.2.2

end Stacks

section Tables

/-- The states below which no marked symbol stands. -/
def calm : List Nat := [0, 2, 6, 7, 8, 15, 25, 32, 33, 38, 44, 49, 50, 52, 55, 62, 66, 69, 84]

theorem calm_preds : ∀ q ∈ calm, ∀ e ∈ certificate.predsOf q,
    e.1 ∈ calm ∧ marked e.2 = false := by
  decide +kernel

theorem calm_of_default : ∀ q < 139, (rule (yydefault q)).any (fun p => p.rhs.isEmpty) = true →
    q ∈ calm := by
  decide +kernel

theorem marked_lhs : ∀ r < 69, (rule r).all (fun p => decide (p.lhs = .start) ||
    !p.rhs.any marked || marked (.nonterminal p.lhs)) = true := by
  decide +kernel

theorem rule_sizes : ∀ r < 69, (rule r).all (fun p => yyr2[r]?.getD 0 == p.rhs.length &&
    yyr1[r]?.getD 0 - 53 == p.lhs.yylhs) = true := by
  decide +kernel

/-- The reductions that `yytable` itself names. -/
theorem yytable_reductions : ∀ yyn ∈ yytable, yyn ≤ 0 →
    (rule (-yyn).toNat).all (fun p => !p.rhs.isEmpty) = true := by
  decide +kernel

theorem rule_lt {r : Nat} {p : Production Val} (h : rule r = some p) : r < 69 := by
  match r, h with
  | r + 2, h =>
    have hlt : r < 67 := (List.getElem?_eq_some_iff.mp h).1
    omega

end Tables

section Simulation

variable {σ : Type} {cy : Parser σ} {c c' : LR.Config Val σ} {frames : List (LR.Frame Val)}

theorem checked : LR.Certificate.Checked certificate rule .start tables .T_EOF :=
  LR.Certificate.checked_of_check certificate_check

theorem safe : LR.Safe rule .start tables certificate.edge certificate.weight
    certificate.extra :=
  checked.safe mem_tokens

theorem live_lt {q : Nat} (h : LR.Live certificate.edge q) : q < 139 := by
  rcases h with rfl | ⟨p, X, hedge⟩
  · decide
  · exact LR.Certificate.lt_of_edge certificate hedge

theorem depth_le (q : Nat) : certificate.depth q ≤ 22 := by
  have hall : ∀ d ∈ depths, d ≤ 22 := by decide +kernel
  rw [LR.Certificate.depth]
  cases h : certificate.depths[q]? with
  | none => exact Nat.zero_le _
  | some d => exact hall d (List.mem_of_getElem? h)

theorem length_le (h : LR.Path certificate.edge frames) : frames.length ≤ 22 :=
  (LR.Path.length_le checked.deep h).trans (depth_le _)

theorem ne_final {p q : Nat} {X : Symbol Token Nonterminal} (h : certificate.edge p X q) :
    q ≠ YYFINAL := by
  rintro rfl
  cases h

/-- Below a calm state there is no marked symbol. -/
theorem unmarked_of_calm (h : LR.Path certificate.edge frames) (htop : LR.top frames ∈ calm) :
    ∀ f ∈ frames, marked f.sym.1 = false := by
  induction frames with
  | nil => exact fun _ hf => absurd hf List.not_mem_nil
  | cons f rest ih =>
      obtain ⟨hcalm, hunmarked⟩ := calm_preds _ htop _ h.1
      intro g hg
      rcases List.mem_cons.mp hg with rfl | hg
      · exact hunmarked
      · exact ih h.2 hcalm g hg

/-- A reduction is the default of its state, or `yytable` names it. -/
theorem eq_default_of_reduces {q r : Nat} (h : LR.Reduces tables q r) :
    r = yydefault q ∨ ∃ yyn ∈ yytable, yyn ≤ 0 ∧ r = (-yyn).toNat := by
  rcases h with hquick | ⟨_, tok, haction⟩
  · left
    change quick q = _ at hquick
    rw [quick] at hquick
    split at hquick
    · split at hquick
      · cases hquick
      · next hr => exact (LR.Quick.reduce.inj hquick).symm
    · cases hquick
  · change action q tok = _ at haction
    rw [action] at haction
    split at haction
    · left
      split at haction
      · cases haction
      · next hr => exact (LR.Action.reduce.inj haction).symm
    · next yyn hlookup =>
      right
      split at haction
      · next hle =>
        refine ⟨yyn, ?_, hle, (LR.Action.reduce.inj haction).symm⟩
        unfold lookup at hlookup
        split at hlookup
        · split at hlookup
          · exact List.mem_of_getElem? hlookup
          · cases hlookup
        · cases hlookup
      · cases haction

/-- Empty right-hand sides are reduced in calm states only. -/
theorem calm_of_reduces {q r : Nat} {p : Production Val} (hq : q < 139)
    (hreduces : LR.Reduces tables q r) (hrule : rule r = some p) (hrhs : p.rhs = []) :
    q ∈ calm := by
  rcases eq_default_of_reduces hreduces with rfl | ⟨yyn, hmem, hle, rfl⟩
  · apply calm_of_default q hq
    rw [hrule, Option.any_some, hrhs]
    rfl
  · have hnonempty := yytable_reductions yyn hmem hle
    rw [hrule, Option.all_some, hrhs] at hnonempty
    cases hnonempty

/-- The token ahead, which has been read into `yychar` and `yylval`. -/
def AheadHolds (yychar : Option Token) (yylval : SemValue) : Option (Grammar.Token Val) → Prop
  | none => yychar = none
  | some tok => yychar = some tok.1 ∧ Holds (.terminal tok.1) yylval tok.2

/-- `yyparse` has come as far as the driver. A record that is not clean is there only as long
as a marked symbol stands on the stack. -/
structure Refines (cy : Parser σ) (c : LR.Config Val σ) : Prop where
  height : cy.yyssp = c.frames.length
  stack : StackHolds cy.yyss cy.yyvs c.frames
  source : cy.source = c.source
  ahead : AheadHolds cy.yychar cy.yylval c.ahead
  scanned : Clean cy.yylval
  clean : (∀ i, Clean (cy.yyvs i)) ∨ ∃ f ∈ c.frames, marked f.sym.1 = true

theorem clean_scanned {s : SemValue} (h : Clean s) (tok : Token) (v : Val (.terminal tok)) :
    Clean (s.scanned tok v) := by
  cases tok <;> exact h

theorem holds_scanned (s : SemValue) (tok : Token) (v : Val (.terminal tok)) :
    Holds (.terminal tok) (s.scanned tok v) v := by
  cases tok <;> first | rfl | trivial

theorem clean_update {yyvs : Nat → SemValue} (h : ∀ i, Clean (yyvs i)) (i : Nat) {s : SemValue}
    (hs : Clean s) : ∀ j, Clean (Function.update yyvs i s j) := by
  intro j
  by_cases hj : j = i
  · rw [hj, Function.update_self]
    exact hs
  · rw [Function.update_of_ne hj]
    exact h j

/-- A new state on the stack of the driver is a new state for `yyparse`: it is not the final
one, and there is room for it. -/
theorem yynewstate_refines {q : Nat} {x : Valued Val} {s : SemValue}
    (hheight : cy.yyssp = frames.length) (hstack : StackHolds cy.yyss cy.yyvs frames)
    (hpath : LR.Path certificate.edge (⟨q, x⟩ :: frames)) (hs : Holds x.1 s x.2)
    (hahead : AheadHolds cy.yychar cy.yylval c.ahead) (hsource : cy.source = c.source)
    (hscanned : Clean cy.yylval)
    (hclean : ((∀ i, Clean (cy.yyvs i)) ∧ Clean s) ∨
      ∃ f ∈ (⟨q, x⟩ : LR.Frame Val) :: frames, marked f.sym.1 = true) :
    ∃ cy', yynewstate cy q s = .next cy' ∧ Refines cy' { c with frames := ⟨q, x⟩ :: frames } ∧
      cy'.parseTree = cy.parseTree ∧ cy'.errors = cy.errors := by
  have hroom : ¬ YYINITDEPTH - 1 ≤ cy.yyssp + 1 := by
    have hle := length_le hpath
    rw [List.length_cons] at hle
    rw [hheight]
    exact Nat.not_le_of_gt (Nat.lt_of_le_of_lt hle (by decide))
  have hfinal : q ≠ YYFINAL := ne_final hpath.1
  rw [yynewstate]
  simp only [hroom, hfinal, ↓reduceIte]
  refine ⟨_, rfl, ⟨?_, ?_, hsource, hahead, hscanned, ?_⟩, rfl, rfl⟩
  · exact congrArg (· + 1) hheight
  · rw [hheight]
    exact hstack.push q hs
  · rcases hclean with ⟨hall, hnew⟩ | hmarked
    · exact .inl (clean_update hall _ hnew)
    · exact .inr hmarked

/-- What `yyparse` returns where the driver goes on, accepts or rejects. -/
def Agrees (cy : Parser σ) : LR.Outcome Val .start σ → Step σ → Prop
  | .next c, out => ∃ cy', out = .next cy' ∧ Refines cy' c ∧ cy'.parseTree = cy.parseTree ∧
      cy'.errors = cy.errors
  | .halt (.accept tree) c, out => ∃ cy', out = .done 0 cy' ∧ Refines cy' c ∧
      cy'.parseTree = tree ∧ cy'.errors = cy.errors
  | .halt .reject c, out => ∃ cy', out = .done 1 cy' ∧ Refines cy' c ∧
      cy'.parseTree = cy.parseTree ∧
      cy'.errors = cy.errors ++ [yysyntax_error (LR.top c.frames) (c.ahead.map Sigma.fst)]
  | .halt .stuck _, _ => False

theorem sizes_of_rule {r : Nat} {p : Production Val} (h : rule r = some p) :
    yyr2[r]?.getD 0 = p.rhs.length ∧ yyr1[r]?.getD 0 - 53 = p.lhs.yylhs := by
  have hsizes := rule_sizes r (rule_lt h)
  rw [h, Option.all_some, Bool.and_eq_true, beq_iff_eq, beq_iff_eq] at hsizes
  exact hsizes

theorem marked_of_rule {r : Nat} {p : Production Val} (h : rule r = some p)
    (hstart : p.lhs ≠ .start) {X : Symbol Token Nonterminal} (hX : X ∈ p.rhs)
    (hmarked : marked X = true) : marked (.nonterminal p.lhs) = true := by
  have hall := marked_lhs r (rule_lt h)
  rw [h, Option.all_some, Bool.or_eq_true, Bool.or_eq_true] at hall
  rcases hall with (hlhs | hnone) | hlhs
  · exact absurd (of_decide_eq_true hlhs) hstart
  · rw [List.any_eq_true.mpr ⟨X, hX, hmarked⟩] at hnone
    cases hnone
  · exact hlhs

theorem headD_rhsValues (yyvsp : Nat → SemValue) {k : Nat} (hk : k ≠ 0) (stale : SemValue) :
    (rhsValues yyvsp k).headD stale = yyvsp (k - 1) := by
  cases k with
  | zero => exact absurd rfl hk
  | succ k => rfl

/-- The record `$$` before the action: the first one of the right-hand side, or the one above
the stack, which is clean then. -/
theorem yyval_eq (href : Refines cy c) (hpath : LR.Path certificate.edge c.frames) {r : Nat}
    {p : Production Val} (hreduces : LR.Reduces tables (LR.top c.frames) r)
    (hrule : rule r = some p) : ∃ stale, Clean stale ∧ cy.yyvs (cy.yyssp + 1 - p.rhs.length) =
      (rhsValues (fun k => cy.yyvs (cy.yyssp - k)) p.rhs.length).headD stale := by
  by_cases hrhs : p.rhs = []
  · refine ⟨cy.yyvs (cy.yyssp + 1), ?_, ?_⟩
    · have hcalm := calm_of_reduces (live_lt (LR.live_top hpath)) hreduces hrule hrhs
      rcases href.clean with hall | ⟨f, hf, hmarked⟩
      · exact hall _
      · rw [unmarked_of_calm hpath hcalm f hf] at hmarked
        cases hmarked
    · rw [hrhs]
      rfl
  · have hpos := List.length_pos_iff.mpr hrhs
    refine ⟨.fresh ⟨0, 0, .eq⟩, ⟨rfl, rfl⟩, ?_⟩
    rw [headD_rhsValues _ (Nat.ne_of_gt hpos)]
    congr 1
    omega

theorem accept_of_gives {yyval : SemValue} {e : Effect} {A : Nonterminal}
    {v : Val (.nonterminal A)} {tree : Option TreeNode} (h : Gives yyval e A v)
    (heq : (⟨.nonterminal A, v⟩ : Valued Val) = ⟨.nonterminal .start, tree⟩) :
    e = .accept tree := by
  cases heq
  exact h

theorem value_of_gives {yyval : SemValue} {e : Effect} {A : Nonterminal}
    {v : Val (.nonterminal A)} (h : Gives yyval e A v) (hstart : A ≠ .start) :
    ∃ s, e = .value s ∧ Holds (.nonterminal A) s v ∧
      (marked (.nonterminal A) = false → s.svConds = yyval.svConds ∧
        s.svParopt = yyval.svParopt) := by
  cases A <;> first | exact absurd rfl hstart | exact h

theorem mem_rhs_of_popped {p : Production Val} {popped : List (LR.Frame Val)}
    {vs : Vals Val p.rhs} (hvs : LR.symbols popped = vs.toList) {f : LR.Frame Val}
    (hf : f ∈ popped) : f.sym.1 ∈ p.rhs := by
  rw [← Vals.map_fst_toList vs, ← hvs]
  exact List.mem_map_of_mem (List.mem_map_of_mem (List.mem_reverse.mpr hf))

theorem yyreduce_agrees (href : Refines cy c) (hpath : LR.Path certificate.edge c.frames) {r : Nat}
    (hreduces : LR.Reduces tables (LR.top c.frames) r) :
    Agrees cy (LR.reduce rule .start tables c r) (yyreduce cy r) := by
  obtain ⟨p, popped, rest, vs, hrule, hcut, hvs, hrest, hnil, hlands⟩ :=
    safe.handle hpath hreduces
  obtain ⟨hyyr2, hyyr1⟩ := sizes_of_rule hrule
  obtain ⟨stale, hstale, hyyval⟩ := yyval_eq href hpath hreduces hrule
  have hlength : popped.length = p.rhs.length := by
    have h := congrArg List.length hvs
    rwa [LR.symbols, List.length_map, List.length_reverse, Vals.length_toList] at h
  have hstack := href.stack
  rw [hcut] at hstack
  have hrhs := hstack.rhs
  rw [← hcut, ← href.height, hlength, hvs] at hrhs
  have hgives := faithful_of_rule hrule vs _ stale hstale hrhs
  dsimp only at hgives
  rw [← hyyval] at hgives
  rw [yyreduce, hyyr2, hyyr1]
  by_cases hstart : p.lhs = .start
  · obtain ⟨tree, htree, heq⟩ := LR.reduce_start tables hrule hstart hcut hvs
    rw [heq]
    dsimp only
    rw [accept_of_gives hgives htree]
    exact ⟨_, rfl, ⟨href.height, href.stack, href.source, href.ahead, href.scanned, href.clean⟩,
      rfl, rfl⟩
  · obtain ⟨s, hs, hholds, hclean⟩ := value_of_gives hgives hstart
    obtain ⟨hedge, _⟩ := hlands hstart
    rw [LR.reduce_next tables hrule hstart hcut hvs]
    dsimp only
    rw [hs]
    have htop : cy.yyssp - p.rhs.length = rest.length := by
      rw [href.height, hcut, List.length_append, hlength]
      omega
    dsimp only
    rw [htop, hstack.drop.top]
    refine yynewstate_refines (c := c) rfl hstack.drop ⟨hedge, hrest⟩ hholds href.ahead
      href.source href.scanned ?_
    by_cases hmarked : marked (.nonterminal p.lhs) = true
    · exact .inr ⟨_, List.mem_cons_self, hmarked⟩
    · rw [Bool.not_eq_true] at hmarked
      obtain ⟨hconds, hparopt⟩ := hclean hmarked
      rcases href.clean with hall | ⟨f, hf, hfm⟩
      · obtain ⟨hconds', hparopt'⟩ := hall (cy.yyssp + 1 - p.rhs.length)
        exact .inl ⟨hall, hconds.trans hconds', hparopt.trans hparopt'⟩
      · rw [hcut] at hf
        rcases List.mem_append.mp hf with hf | hf
        · rw [marked_of_rule hrule hstart (mem_rhs_of_popped hvs hf) hfm] at hmarked
          cases hmarked
        · exact .inr ⟨f, List.mem_cons_of_mem _ hf, hfm⟩

theorem not_shiftsError : ∀ q < 139, shiftsError q = false := by
  decide +kernel

/-- No state on the stack takes the token `error`. -/
theorem not_recovers {yyss : Nat → Nat} {yyvs : Nat → SemValue}
    (h : StackHolds yyss yyvs frames) (hpath : LR.Path certificate.edge frames) :
    recovers yyss frames.length = false := by
  induction frames with
  | nil =>
      rw [List.length_nil, recovers, show yyss 0 = 0 from h]
      exact not_shiftsError 0 (by decide)
  | cons f rest ih =>
      rw [List.length_cons, recovers, h.1, Bool.or_eq_false_iff]
      exact ⟨not_shiftsError _ (live_lt (LR.live_top hpath)), ih h.2.2 hpath.2⟩

theorem yyerrlab_agrees (href : Refines cy c) (hpath : LR.Path certificate.edge c.frames) :
    Agrees cy (.halt .reject c) (yyerrlab cy) := by
  have htop : cy.yyss cy.yyssp = LR.top c.frames := by
    rw [href.height]
    exact href.stack.top
  have hchar : cy.yychar = c.ahead.map Sigma.fst := by
    have h := href.ahead
    cases hahead : c.ahead with
    | none =>
        rw [hahead] at h
        exact h
    | some tok =>
        rw [hahead] at h
        exact h.1
  have hrecovers : recovers cy.yyss cy.yyssp = false := by
    rw [href.height]
    exact not_recovers href.stack hpath
  rw [yyerrlab, hrecovers, htop]
  refine ⟨_, rfl, ⟨href.height, href.stack, href.source, href.ahead, href.scanned, href.clean⟩,
    rfl, ?_⟩
  rw [← hchar]

variable (yylex : σ → Grammar.Token Val × σ)

theorem readToken_refines (href : Refines cy c) : ∃ cy',
    readToken yylex cy = ((LR.peek yylex c).1.1, cy') ∧
      Refines cy' ⟨c.frames, some (LR.peek yylex c).1, (LR.peek yylex c).2⟩ ∧
      cy'.parseTree = cy.parseTree ∧ cy'.errors = cy.errors := by
  have hahead := href.ahead
  cases hc : c.ahead with
  | none =>
      rw [hc] at hahead
      rw [readToken, show cy.yychar = none from hahead, LR.peek, hc, href.source]
      refine ⟨_, rfl, ⟨href.height, href.stack, rfl, ⟨rfl, holds_scanned _ _ _⟩,
        clean_scanned href.scanned _ _, href.clean⟩, rfl, rfl⟩
  | some tok =>
      rw [hc] at hahead
      rw [readToken, hahead.1, LR.peek, hc]
      exact ⟨cy, rfl, ⟨href.height, href.stack, href.source, hahead, href.scanned, href.clean⟩,
        rfl, rfl⟩

theorem Agrees.of_eq {cy' : Parser σ} {outcome : LR.Outcome Val .start σ} {out : Step σ}
    (h : Agrees cy' outcome out) (htree : cy'.parseTree = cy.parseTree)
    (herrors : cy'.errors = cy.errors) : Agrees cy outcome out := by
  cases outcome with
  | next c => rwa [Agrees, ← htree, ← herrors]
  | halt halt c =>
      cases halt with
      | accept tree => rwa [Agrees, ← herrors]
      | reject => rwa [Agrees, ← htree, ← herrors]
      | stuck => exact h

/-- From one `yybackup` to the next, `yyparse` makes the step of the driver. -/
theorem yybackup_agrees (href : Refines cy c) (hpath : LR.Path certificate.edge c.frames) :
    Agrees cy (LR.step rule .start tables yylex c) (yybackup yylex cy) := by
  have htop : cy.yyss cy.yyssp = LR.top c.frames := by
    rw [href.height]
    exact href.stack.top
  rw [LR.step, yybackup, htop]
  dsimp only [tables]
  cases hquick : quick (LR.top c.frames) with
  | reduce r => exact yyreduce_agrees href hpath (.inl hquick)
  | error => exact yyerrlab_agrees href hpath
  | look =>
      obtain ⟨cy', hread, href', htree, herrors⟩ := readToken_refines yylex href
      rw [hread]
      dsimp only
      cases haction : action (LR.top c.frames) (LR.peek yylex c).1.1 with
      | shift q =>
          have hedge := safe.shift _ _ _ (LR.live_top hpath) hquick haction
          obtain ⟨cy₂, heq, href₂, htree₂, herrors₂⟩ : ∃ cy₂,
              yynewstate { cy' with yychar := none } q cy'.yylval = .next cy₂ ∧ _ :=
            yynewstate_refines (c := ⟨c.frames, none, (LR.peek yylex c).2⟩)
            (x := ⟨.terminal (LR.peek yylex c).1.1, (LR.peek yylex c).1.2⟩) (s := cy'.yylval)
            href'.height href'.stack ⟨hedge, hpath⟩ href'.ahead.2 rfl href'.source href'.scanned (by
              rcases href'.clean with hall | ⟨f, hf, hmarked⟩
              · exact .inl ⟨hall, href'.scanned⟩
              · exact .inr ⟨f, List.mem_cons_of_mem _ hf, hmarked⟩)
          exact ⟨cy₂, heq, href₂, htree₂.trans htree, herrors₂.trans herrors⟩
      | reduce r =>
          exact (yyreduce_agrees href' hpath (.inr ⟨hquick, _, haction⟩)).of_eq htree herrors
      | error => exact (yyerrlab_agrees href' hpath).of_eq htree herrors

end Simulation

end Sql

end RucDDBS
