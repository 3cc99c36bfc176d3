import RucDDBS.Parser.Correctness

/-!
The trees that the parser can build, and how a tree is written down again. A list that a
rule begins with a first element is never empty, a condition list may be, and an empty
column list stands for `*`. What is said of names and literals depends on the scanner.
-/

namespace RucDDBS

namespace Sql

open Ast Grammar

/-- What the scanner allows for the names, the strings and the floats. -/
structure Lexicon where
  name : Text → Prop
  string : Text → Prop
  float : UInt32 → Prop

namespace Lexicon

variable (lex : Lexicon)

section WellFormed

def ValueOk : Ast.Value → Prop
  | .intLit _ => True
  | .floatLit val => lex.float val
  | .stringLit val => lex.string val

def ColOk (col : Col) : Prop := (col.tabName = [] ∨ lex.name col.tabName) ∧ lex.name col.colName

def ExprOk : Expr → Prop
  | .val val => lex.ValueOk val
  | .col col => lex.ColOk col

def CondOk (cond : BinaryExpr) : Prop := lex.ColOk cond.lhs ∧ lex.ExprOk cond.rhs

def ClauseOk (clause : SetClause) : Prop := lex.name clause.colName ∧ lex.ValueOk clause.val

/-- An INT and a FLOAT take four bytes. -/
def TypeOk (type : TypeLen) : Prop := type.type = .string ∨ type.len = 4

def FieldOk (field : Ast.Field) : Prop := lex.name field.colName ∧ TypeOk field.typeLen

def ParOptOk (par : ParOpt) : Prop := lex.name par.parKey ∧ par.parts ≠ []

def StmtOk : TreeNode → Prop
  | .help => False
  | .explain _ => False
  | .createTable tab fields par => lex.name tab ∧ fields ≠ [] ∧
      (∀ field ∈ fields, lex.FieldOk field) ∧ ∀ p ∈ par, lex.ParOptOk p
  | .dropTable tab => lex.name tab
  | .descTable tab => lex.name tab
  | .createIndex tab col => lex.name tab ∧ lex.name col
  | .dropIndex tab col => lex.name tab ∧ lex.name col
  | .insert x => lex.name x.tabName ∧ x.vals ≠ [] ∧ ∀ val ∈ x.vals, lex.ValueOk val
  | .delete x => lex.name x.tabName ∧ ∀ cond ∈ x.conds, lex.CondOk cond
  | .update x => lex.name x.tabName ∧ x.setClauses ≠ [] ∧
      (∀ clause ∈ x.setClauses, lex.ClauseOk clause) ∧ ∀ cond ∈ x.conds, lex.CondOk cond
  | .select x => (∀ col ∈ x.cols, lex.ColOk col) ∧ x.tabs ≠ [] ∧ (∀ tab ∈ x.tabs, lex.name tab) ∧
      ∀ cond ∈ x.conds, lex.CondOk cond
  | _ => True

def TreeOk : TreeNode → Prop
  | .help => True
  | .explain stmt => lex.StmtOk stmt
  | tree => lex.StmtOk tree

/-- The same for the value of every symbol. -/
def Ok : (X : Symbol Token Nonterminal) → Val X → Prop
  | .terminal .IDENTIFIER, v => lex.name v
  | .terminal .VALUE_STRING, v => lex.string v
  | .terminal .VALUE_FLOAT, v => lex.float v
  | .terminal _, _ => True
  | .nonterminal .start, v => ∀ tree ∈ v, lex.TreeOk tree
  | .nonterminal .stmt, v => lex.StmtOk v
  | .nonterminal .txnStmt, v => lex.StmtOk v
  | .nonterminal .dbStmt, v => lex.StmtOk v
  | .nonterminal .ddl, v => lex.StmtOk v
  | .nonterminal .paropt, v => ∀ p ∈ v, lex.ParOptOk p
  | .nonterminal .parlist, v => v ≠ []
  | .nonterminal .part, _ => True
  | .nonterminal .dml, v => lex.StmtOk v
  | .nonterminal .fieldList, v => v ≠ [] ∧ ∀ field ∈ v, lex.FieldOk field
  | .nonterminal .field, v => lex.FieldOk v
  | .nonterminal .type, v => TypeOk v
  | .nonterminal .valueList, v => v ≠ [] ∧ ∀ val ∈ v, lex.ValueOk val
  | .nonterminal .value, v => lex.ValueOk v
  | .nonterminal .condition, v => lex.CondOk v
  | .nonterminal .optWhereClause, v => ∀ cond ∈ v, lex.CondOk cond
  | .nonterminal .whereClause, v => ∀ cond ∈ v, lex.CondOk cond
  | .nonterminal .col, v => lex.ColOk v
  | .nonterminal .colList, v => ∀ col ∈ v, lex.ColOk col
  | .nonterminal .op, _ => True
  | .nonterminal .expr, v => lex.ExprOk v
  | .nonterminal .setClauses, v => v ≠ [] ∧ ∀ clause ∈ v, lex.ClauseOk clause
  | .nonterminal .setClause, v => lex.ClauseOk v
  | .nonterminal .selector, v => ∀ col ∈ v, lex.ColOk col
  | .nonterminal .tableList, v => v ≠ [] ∧ ∀ tab ∈ v, lex.name tab
  | .nonterminal .tbName, v => lex.name v
  | .nonterminal .colName, v => lex.name v

end WellFormed

section Rules

theorem ok_some {α : Type} {P : α → Prop} {a : α} (h : P a) : ∀ b ∈ some a, P b := by
  intro b hb
  cases hb
  exact h

theorem all_single {α : Type} {P : α → Prop} {a : α} (h : P a) : ∀ b ∈ [a], P b := by
  intro b hb
  rw [List.mem_singleton.mp hb]
  exact h

theorem snoc_ne_nil {α : Type} (l : List α) (a : α) : l ++ [a] ≠ [] :=
  List.append_ne_nil_of_right_ne_nil l (List.cons_ne_nil a [])

theorem all_snoc {α : Type} {P : α → Prop} {l : List α} {a : α} (h : ∀ b ∈ l, P b) (ha : P a) :
    ∀ b ∈ l ++ [a], P b := by
  intro b hb
  rcases List.mem_append.mp hb with hb | hb
  · exact h b hb
  · exact all_single ha b hb

theorem treeOk_of_stmtOk {tree : TreeNode} (h : lex.StmtOk tree) : lex.TreeOk tree := by
  cases tree with
  | help => trivial
  | explain _ => exact h.elim
  | _ => exact h

def AllOk : List (Valued Val) → Prop
  | [] => True
  | x :: l => lex.Ok x.1 x.2 ∧ AllOk l

theorem allOk_of_forall {l : List (Valued Val)} (h : ∀ x ∈ l, lex.Ok x.1 x.2) : lex.AllOk l := by
  induction l with
  | nil => trivial
  | cons x l ih =>
      exact ⟨h x List.mem_cons_self, ih fun y hy => h y (List.mem_cons_of_mem _ hy)⟩

/-- The action of a rule makes a well-formed value out of well-formed values. -/
theorem rules_ok : RulesFrom (fun _ p => ∀ us : Vals Val p.rhs, lex.AllOk us.toList →
    lex.Ok (.nonterminal p.lhs) (p.action us)) 2 rules := by
  refine ⟨?_, ?_, ?_, ?_, ?_, ?_, ?_, ?_, ?_, ?_, ?_, ?_, ?_, ?_, ?_, ?_, ?_, ?_, ?_, ?_, ?_, ?_,
    ?_, ?_, ?_, ?_, ?_, ?_, ?_, ?_, ?_, ?_, ?_, ?_, ?_, ?_, ?_, ?_, ?_, ?_, ?_, ?_, ?_, ?_, ?_,
    ?_, ?_, ?_, ?_, ?_, ?_, ?_, ?_, ?_, ?_, ?_, ?_, ?_, ?_, ?_, ?_, ?_, ?_, ?_, ?_, ?_, ?_,
    trivial⟩
  · intro _ h
    obtain ⟨hstmt, _, _⟩ := h
    exact ok_some (lex.treeOk_of_stmtOk hstmt)
  · intro _ h
    obtain ⟨_, hstmt, _, _⟩ := h
    exact ok_some hstmt
  · intro _ _
    exact ok_some trivial
  · intro _ _
    exact nofun
  · intro _ _
    exact nofun
  · intro _ h
    obtain ⟨h, _⟩ := h
    exact h
  · intro _ h
    obtain ⟨h, _⟩ := h
    exact h
  · intro _ h
    obtain ⟨h, _⟩ := h
    exact h
  · intro _ h
    obtain ⟨h, _⟩ := h
    exact h
  · intro _ _
    exact trivial
  · intro _ _
    exact trivial
  · intro _ _
    exact trivial
  · intro _ _
    exact trivial
  · intro _ _
    exact trivial
  · intro _ _
    exact trivial
  · intro _ h
    obtain ⟨_, _, htab, _, hfields, _, hpar, _⟩ := h
    exact ⟨htab, hfields.1, hfields.2, hpar⟩
  · intro _ h
    obtain ⟨_, _, htab, _⟩ := h
    exact htab
  · intro _ h
    obtain ⟨_, htab, _⟩ := h
    exact htab
  · intro _ h
    obtain ⟨_, _, htab, _, hcol, _, _⟩ := h
    exact ⟨htab, hcol⟩
  · intro _ h
    obtain ⟨_, _, htab, _, hcol, _, _⟩ := h
    exact ⟨htab, hcol⟩
  · intro _ _
    exact nofun
  · intro _ h
    obtain ⟨_, _, _, _, hcol, _, _, hparts, _, _⟩ := h
    exact ok_some ⟨hcol, hparts⟩
  · intro _ _
    exact List.cons_ne_nil _ _
  · intro _ _
    exact snoc_ne_nil _ _
  · intro _ _
    exact trivial
  · intro _ h
    obtain ⟨_, _, htab, _, _, hvals, _, _⟩ := h
    exact ⟨htab, hvals.1, hvals.2⟩
  · intro _ h
    obtain ⟨_, _, htab, hconds, _⟩ := h
    exact ⟨htab, hconds⟩
  · intro _ h
    obtain ⟨_, htab, _, hclauses, hconds, _⟩ := h
    exact ⟨htab, hclauses.1, hclauses.2, hconds⟩
  · intro _ h
    obtain ⟨_, hcols, _, htabs, hconds, _⟩ := h
    exact ⟨hcols, htabs.1, htabs.2, hconds⟩
  · intro _ h
    obtain ⟨h, _⟩ := h
    exact ⟨List.cons_ne_nil _ _, all_single h⟩
  · intro _ h
    obtain ⟨h, _, h', _⟩ := h
    exact ⟨snoc_ne_nil _ _, all_snoc h.2 h'⟩
  · intro _ h
    obtain ⟨h, h', _⟩ := h
    exact ⟨h, h'⟩
  · intro _ _
    exact .inr rfl
  · intro _ _
    exact .inl rfl
  · intro _ _
    exact .inr rfl
  · intro _ h
    obtain ⟨h, _⟩ := h
    exact ⟨List.cons_ne_nil _ _, all_single h⟩
  · intro _ h
    obtain ⟨h, _, h', _⟩ := h
    exact ⟨snoc_ne_nil _ _, all_snoc h.2 h'⟩
  · intro _ _
    exact trivial
  · intro _ h
    obtain ⟨h, _⟩ := h
    exact h
  · intro _ h
    obtain ⟨h, _⟩ := h
    exact h
  · intro _ h
    obtain ⟨h, _, h', _⟩ := h
    exact ⟨h, h'⟩
  · intro _ _
    exact nofun
  · intro _ h
    obtain ⟨_, h, _⟩ := h
    exact h
  · intro _ h
    obtain ⟨h, _⟩ := h
    exact all_single h
  · intro _ h
    obtain ⟨h, _, h', _⟩ := h
    exact all_snoc h h'
  · intro _ h
    obtain ⟨h, _, h', _⟩ := h
    exact ⟨.inr h, h'⟩
  · intro _ h
    obtain ⟨h, _⟩ := h
    exact ⟨.inl rfl, h⟩
  · intro _ h
    obtain ⟨h, _⟩ := h
    exact all_single h
  · intro _ h
    obtain ⟨h, _, h', _⟩ := h
    exact all_snoc h h'
  · intro _ _
    exact trivial
  · intro _ _
    exact trivial
  · intro _ _
    exact trivial
  · intro _ _
    exact trivial
  · intro _ _
    exact trivial
  · intro _ _
    exact trivial
  · intro _ h
    obtain ⟨h, _⟩ := h
    exact h
  · intro _ h
    obtain ⟨h, _⟩ := h
    exact h
  · intro _ h
    obtain ⟨h, _⟩ := h
    exact ⟨List.cons_ne_nil _ _, all_single h⟩
  · intro _ h
    obtain ⟨h, _, h', _⟩ := h
    exact ⟨snoc_ne_nil _ _, all_snoc h.2 h'⟩
  · intro _ h
    obtain ⟨h, _, h', _⟩ := h
    exact ⟨h, h'⟩
  · intro _ _
    exact nofun
  · intro _ h
    obtain ⟨h, _⟩ := h
    exact h
  · intro _ h
    obtain ⟨h, _⟩ := h
    exact ⟨List.cons_ne_nil _ _, all_single h⟩
  · intro _ h
    obtain ⟨h, _, h', _⟩ := h
    exact ⟨snoc_ne_nil _ _, all_snoc h.2 h'⟩
  · intro _ h
    obtain ⟨h, _, h', _⟩ := h
    exact ⟨snoc_ne_nil _ _, all_snoc h.2 h'⟩
  · intro _ h
    obtain ⟨h, _⟩ := h
    exact h
  · intro _ h
    obtain ⟨h, _⟩ := h
    exact h

variable {lex}

/-- What the tokens of a text allow, its tree keeps. -/
theorem ok_of_derives {X : Symbol Token Nonterminal} {v : Val X} {w : List (Grammar.Token Val)}
    (h : Derives rule [⟨X, v⟩] w) (hw : ∀ tok ∈ w, lex.Ok (.terminal tok.1) tok.2) :
    lex.Ok X v := by
  refine Derives.forall_values (P := lex.Ok) ?_ h hw ⟨X, v⟩ List.mem_cons_self
  intro r p hrule us hus
  match r, hrule with
  | r + 2, hrule => exact lex.rules_ok.get hrule us (lex.allOk_of_forall hus)

end Rules

end Lexicon

end Sql

end RucDDBS
