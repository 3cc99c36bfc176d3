import RucDDBS.Parser.Trees

/-!
Statements written down as tokens. The grammar reads every well-formed tree back from its
tokens, so the trees that the parser can build are exactly the well-formed ones. A word has
one tree at most, since the parser can only end in one way.
-/

namespace RucDDBS

namespace Sql

open Ast Grammar

section Tokens

abbrev Word := List (Grammar.Token Val)

/-- The items with `sep` between them. -/
def sepBy {α : Type} (sep : Grammar.Token Val) (f : α → Word) : List α → Word
  | [] => []
  | x :: xs => f x ++ xs.flatMap fun y => sep :: f y

def name (text : Text) : Word := [⟨.IDENTIFIER, text⟩]

def valueTokens : Ast.Value → Word
  | .intLit val => [⟨.VALUE_INT, val⟩]
  | .floatLit val => [⟨.VALUE_FLOAT, val⟩]
  | .stringLit val => [⟨.VALUE_STRING, val⟩]

def colTokens (col : Col) : Word :=
  if col.tabName = [] then name col.colName
  else name col.tabName ++ ⟨.dot, ()⟩ :: name col.colName

def opTokens : SvCompOp → Word
  | .eq => [⟨.eq, ()⟩]
  | .ne => [⟨.NEQ, ()⟩]
  | .lt => [⟨.lt, ()⟩]
  | .gt => [⟨.gt, ()⟩]
  | .le => [⟨.LEQ, ()⟩]
  | .ge => [⟨.GEQ, ()⟩]

def exprTokens : Expr → Word
  | .val val => valueTokens val
  | .col col => colTokens col

def condTokens (cond : BinaryExpr) : Word :=
  colTokens cond.lhs ++ (opTokens cond.op ++ exprTokens cond.rhs)

def whereTokens (conds : List BinaryExpr) : Word :=
  if conds = [] then [] else ⟨.WHERE, ()⟩ :: sepBy ⟨.AND, ()⟩ condTokens conds

def clauseTokens (clause : SetClause) : Word :=
  name clause.colName ++ ⟨.eq, ()⟩ :: valueTokens clause.val

def typeTokens (type : TypeLen) : Word :=
  match type.type with
  | .int => [⟨.INT, ()⟩]
  | .float => [⟨.FLOAT, ()⟩]
  | .string => [⟨.CHAR, ()⟩, ⟨.lparen, ()⟩, ⟨.VALUE_INT, type.len⟩, ⟨.rparen, ()⟩]

def fieldTokens (field : Ast.Field) : Word := name field.colName ++ typeTokens field.typeLen

def partTokens (part : Ast.Part) : Word :=
  [⟨.PARTITION, ()⟩, ⟨.LESS, ()⟩, ⟨.THAN, ()⟩, ⟨.lparen, ()⟩, ⟨.VALUE_INT, part.val⟩,
    ⟨.rparen, ()⟩]

/-- A list in parentheses. -/
def inParens (w : Word) : Word := ⟨.lparen, ()⟩ :: (w ++ [⟨.rparen, ()⟩])

def parTokens : Option ParOpt → Word
  | none => []
  | some par => ⟨.PARTITION, ()⟩ :: ⟨.BY, ()⟩ :: ⟨.RANGE, ()⟩ ::
      (inParens (name par.parKey) ++ inParens (sepBy ⟨.comma, ()⟩ partTokens par.parts))

def selectorTokens (cols : List Col) : Word :=
  if cols = [] then [⟨.star, ()⟩] else sepBy ⟨.comma, ()⟩ colTokens cols

def stmtTokens : TreeNode → Word
  | .help => []
  | .explain _ => []
  | .showTables => [⟨.SHOW, ()⟩, ⟨.TABLES, ()⟩]
  | .showPartitions => [⟨.SHOW, ()⟩, ⟨.PARTITION, ()⟩]
  | .txnBegin => [⟨.TXN_BEGIN, ()⟩]
  | .txnCommit => [⟨.TXN_COMMIT, ()⟩]
  | .txnAbort => [⟨.TXN_ABORT, ()⟩]
  | .txnRollback => [⟨.TXN_ROLLBACK, ()⟩]
  | .createTable tab fields par => ⟨.CREATE, ()⟩ :: ⟨.TABLE, ()⟩ :: (name tab ++
      (inParens (sepBy ⟨.comma, ()⟩ fieldTokens fields) ++ parTokens par))
  | .dropTable tab => ⟨.DROP, ()⟩ :: ⟨.TABLE, ()⟩ :: name tab
  | .descTable tab => ⟨.DESC, ()⟩ :: name tab
  | .createIndex tab col => ⟨.CREATE, ()⟩ :: ⟨.INDEX, ()⟩ :: (name tab ++ inParens (name col))
  | .dropIndex tab col => ⟨.DROP, ()⟩ :: ⟨.INDEX, ()⟩ :: (name tab ++ inParens (name col))
  | .insert x => ⟨.INSERT, ()⟩ :: ⟨.INTO, ()⟩ :: (name x.tabName ++
      ⟨.VALUES, ()⟩ :: inParens (sepBy ⟨.comma, ()⟩ valueTokens x.vals))
  | .delete x => ⟨.DELETE, ()⟩ :: ⟨.FROM, ()⟩ :: (name x.tabName ++ whereTokens x.conds)
  | .update x => ⟨.UPDATE, ()⟩ :: (name x.tabName ++ ⟨.SET, ()⟩ ::
      (sepBy ⟨.comma, ()⟩ clauseTokens x.setClauses ++ whereTokens x.conds))
  | .select x => ⟨.SELECT, ()⟩ :: (selectorTokens x.cols ++ ⟨.FROM, ()⟩ ::
      (sepBy ⟨.comma, ()⟩ name x.tabs ++ whereTokens x.conds))

def treeTokens : TreeNode → Word
  | .help => [⟨.HELP, ()⟩]
  | .explain stmt => ⟨.EXPLAIN, ()⟩ :: (stmtTokens stmt ++ [⟨.semicolon, ()⟩])
  | tree => stmtTokens tree ++ [⟨.semicolon, ()⟩]

end Tokens

section Derivations

/-- A nonterminal with its value stands for a word. -/
abbrev Reads (A : Nonterminal) (v : Val (.nonterminal A)) (w : Word) : Prop :=
  Derives rule [⟨.nonterminal A, v⟩] w

/-- A rule of the grammar, with the values of its right-hand side. -/
theorem reads_rule {r : Nat} {p : Production Val} (hrule : rule r = some p) (vs : Vals Val p.rhs)
    {w : Word} {x : Valued Val} (h : Derives rule vs.toList w)
    (hx : (⟨.nonterminal p.lhs, p.action vs⟩ : Valued Val) = x) : Derives rule [x] w :=
  hx ▸ Derives.single vs hrule h

theorem reads_tbName (text : Text) : Reads .tbName text (name text) :=
  reads_rule (r := 67) rfl (text, ()) (reads_token ⟨.IDENTIFIER, text⟩ .nil) rfl

theorem reads_colName (text : Text) : Reads .colName text (name text) :=
  reads_rule (r := 68) rfl (text, ()) (reads_token ⟨.IDENTIFIER, text⟩ .nil) rfl

theorem reads_value : (val : Ast.Value) → Reads .value val (valueTokens val)
  | .intLit val =>
      reads_rule (r := 39) rfl (val, ()) (reads_token ⟨.VALUE_INT, val⟩ .nil) rfl
  | .floatLit val =>
      reads_rule (r := 40) rfl (val, ()) (reads_token ⟨.VALUE_FLOAT, val⟩ .nil) rfl
  | .stringLit val =>
      reads_rule (r := 41) rfl (val, ()) (reads_token ⟨.VALUE_STRING, val⟩ .nil) rfl

theorem reads_col (col : Col) : Reads .col col (colTokens col) := by
  obtain ⟨tab, col⟩ := col
  rw [colTokens]
  split
  next hempty =>
    have hempty : tab = [] := hempty
    subst hempty
    exact reads_rule (r := 48) rfl (col, ()) (reads_colName col) rfl
  next =>
    exact reads_rule (r := 47) rfl (tab, (), col, ())
      ((reads_tbName tab).cons (reads_token ⟨.dot, ()⟩ (reads_colName col))) rfl

theorem reads_op (op : SvCompOp) : Reads .op op (opTokens op) := by
  cases op with
  | eq => exact reads_rule (r := 51) rfl ((), ()) (reads_token ⟨.eq, ()⟩ .nil) rfl
  | lt => exact reads_rule (r := 52) rfl ((), ()) (reads_token ⟨.lt, ()⟩ .nil) rfl
  | gt => exact reads_rule (r := 53) rfl ((), ()) (reads_token ⟨.gt, ()⟩ .nil) rfl
  | ne => exact reads_rule (r := 54) rfl ((), ()) (reads_token ⟨.NEQ, ()⟩ .nil) rfl
  | le => exact reads_rule (r := 55) rfl ((), ()) (reads_token ⟨.LEQ, ()⟩ .nil) rfl
  | ge => exact reads_rule (r := 56) rfl ((), ()) (reads_token ⟨.GEQ, ()⟩ .nil) rfl

theorem reads_expr : (expr : Expr) → Reads .expr expr (exprTokens expr)
  | .val val => reads_rule (r := 57) rfl (val, ()) (reads_value val) rfl
  | .col col => reads_rule (r := 58) rfl (col, ()) (reads_col col) rfl

theorem reads_condition (cond : BinaryExpr) : Reads .condition cond (condTokens cond) :=
  reads_rule (r := 42) rfl (cond.lhs, cond.op, cond.rhs, ())
    ((reads_col cond.lhs).cons ((reads_op cond.op).cons (reads_expr cond.rhs))) rfl

/-- A list that is read element by element from the left. -/
theorem reads_sepBy {α : Type} {L : List α → Valued Val} {sep : Grammar.Token Val}
    {f : α → Word} {xs : List α} (hone : ∀ x ∈ xs, Derives rule [L [x]] (f x))
    (hsnoc : ∀ ys, ∀ x ∈ xs, ∀ w, Derives rule [L ys] w →
      Derives rule [L (ys ++ [x])] (w ++ sep :: f x))
    (hne : xs ≠ []) : Derives rule [L xs] (sepBy sep f xs) := by
  cases xs with
  | nil => exact absurd rfl hne
  | cons x xs =>
      rw [sepBy]
      induction xs using List.reverseRecOn with
      | nil =>
          rw [List.flatMap_nil, List.append_nil]
          exact hone x List.mem_cons_self
      | append_singleton xs y ih =>
          have hsub : ∀ z ∈ x :: xs, z ∈ x :: (xs ++ [y]) := fun z hz =>
            List.mem_append_left [y] hz
          have hinit := ih (fun z hz => hone z (hsub z hz))
            (fun ys z hz => hsnoc ys z (hsub z hz)) (List.cons_ne_nil x xs)
          have hlast := hsnoc (x :: xs) y (List.mem_append_right (x :: xs) List.mem_cons_self) _
            hinit
          rw [List.flatMap_append, List.flatMap_singleton, ← List.append_assoc]
          exact hlast

theorem reads_values {vals : List Ast.Value} (hne : vals ≠ []) :
    Reads .valueList vals (sepBy ⟨.comma, ()⟩ valueTokens vals) :=
  reads_sepBy (L := fun vals => ⟨.nonterminal .valueList, vals⟩)
    (fun val _ => reads_rule (r := 37) rfl (val, ()) (reads_value val) rfl)
    (fun vals val _ _ h => reads_rule (r := 38) rfl (vals, (), val, ())
      (h.cons (reads_token ⟨.comma, ()⟩ (reads_value val))) rfl) hne

theorem reads_conds {conds : List BinaryExpr} (hne : conds ≠ []) :
    Reads .whereClause conds (sepBy ⟨.AND, ()⟩ condTokens conds) :=
  reads_sepBy (L := fun conds => ⟨.nonterminal .whereClause, conds⟩)
    (fun cond _ => reads_rule (r := 45) rfl (cond, ()) (reads_condition cond) rfl)
    (fun conds cond _ _ h => reads_rule (r := 46) rfl (conds, (), cond, ())
      (h.cons (reads_token ⟨.AND, ()⟩ (reads_condition cond))) rfl) hne

theorem reads_where (conds : List BinaryExpr) :
    Reads .optWhereClause conds (whereTokens conds) := by
  rw [whereTokens]
  split
  next hempty =>
    subst hempty
    exact reads_rule (r := 43) rfl () .nil rfl
  next hne =>
    exact reads_rule (r := 44) rfl ((), conds, ()) (reads_token ⟨.WHERE, ()⟩ (reads_conds hne)) rfl

theorem reads_cols {cols : List Col} (hne : cols ≠ []) :
    Reads .colList cols (sepBy ⟨.comma, ()⟩ colTokens cols) :=
  reads_sepBy (L := fun cols => ⟨.nonterminal .colList, cols⟩)
    (fun col _ => reads_rule (r := 49) rfl (col, ()) (reads_col col) rfl)
    (fun cols col _ _ h => reads_rule (r := 50) rfl (cols, (), col, ())
      (h.cons (reads_token ⟨.comma, ()⟩ (reads_col col))) rfl) hne

theorem reads_selector (cols : List Col) : Reads .selector cols (selectorTokens cols) := by
  rw [selectorTokens]
  split
  next hempty =>
    subst hempty
    exact reads_rule (r := 62) rfl ((), ()) (reads_token ⟨.star, ()⟩ .nil) rfl
  next hne => exact reads_rule (r := 63) rfl (cols, ()) (reads_cols hne) rfl

theorem reads_clause (clause : SetClause) : Reads .setClause clause (clauseTokens clause) :=
  reads_rule (r := 61) rfl (clause.colName, (), clause.val, ())
    ((reads_colName clause.colName).cons (reads_token ⟨.eq, ()⟩ (reads_value clause.val))) rfl

theorem reads_clauses {clauses : List SetClause} (hne : clauses ≠ []) :
    Reads .setClauses clauses (sepBy ⟨.comma, ()⟩ clauseTokens clauses) :=
  reads_sepBy (L := fun clauses => ⟨.nonterminal .setClauses, clauses⟩)
    (fun clause _ => reads_rule (r := 59) rfl (clause, ()) (reads_clause clause) rfl)
    (fun clauses clause _ _ h => reads_rule (r := 60) rfl (clauses, (), clause, ())
      (h.cons (reads_token ⟨.comma, ()⟩ (reads_clause clause))) rfl) hne

theorem reads_tables {tabs : List Text} (hne : tabs ≠ []) :
    Reads .tableList tabs (sepBy ⟨.comma, ()⟩ name tabs) :=
  reads_sepBy (L := fun tabs => ⟨.nonterminal .tableList, tabs⟩)
    (fun tab _ => reads_rule (r := 64) rfl (tab, ()) (reads_tbName tab) rfl)
    (fun tabs tab _ _ h => reads_rule (r := 65) rfl (tabs, (), tab, ())
      (h.cons (reads_token ⟨.comma, ()⟩ (reads_tbName tab))) rfl) hne

theorem reads_type {type : TypeLen} (hok : Lexicon.TypeOk type) :
    Reads .type type (typeTokens type) := by
  obtain ⟨type, len⟩ := type
  cases type with
  | int =>
      obtain rfl : len = 4 := hok.resolve_left nofun
      exact reads_rule (r := 34) rfl ((), ()) (reads_token ⟨.INT, ()⟩ .nil) rfl
  | float =>
      obtain rfl : len = 4 := hok.resolve_left nofun
      exact reads_rule (r := 36) rfl ((), ()) (reads_token ⟨.FLOAT, ()⟩ .nil) rfl
  | string =>
      exact reads_rule (r := 35) rfl ((), (), len, (), ())
        (reads_token ⟨.CHAR, ()⟩ (reads_token ⟨.lparen, ()⟩ (reads_token ⟨.VALUE_INT, len⟩
          (reads_token ⟨.rparen, ()⟩ .nil)))) rfl

theorem reads_field {field : Ast.Field} (hok : Lexicon.TypeOk field.typeLen) :
    Reads .field field (fieldTokens field) :=
  reads_rule (r := 33) rfl (field.colName, field.typeLen, ())
    ((reads_colName field.colName).cons (reads_type hok)) rfl

theorem reads_fields {fields : List Ast.Field} (hne : fields ≠ [])
    (hok : ∀ field ∈ fields, Lexicon.TypeOk field.typeLen) :
    Reads .fieldList fields (sepBy ⟨.comma, ()⟩ fieldTokens fields) :=
  reads_sepBy (L := fun fields => ⟨.nonterminal .fieldList, fields⟩)
    (fun field hmem => reads_rule (r := 31) rfl (field, ()) (reads_field (hok field hmem)) rfl)
    (fun fields field hmem _ h => reads_rule (r := 32) rfl (fields, (), field, ())
      (h.cons (reads_token ⟨.comma, ()⟩ (reads_field (hok field hmem)))) rfl) hne

theorem reads_part (part : Ast.Part) : Reads .part part (partTokens part) :=
  reads_rule (r := 26) rfl ((), (), (), (), part.val, (), ())
    (reads_token ⟨.PARTITION, ()⟩ (reads_token ⟨.LESS, ()⟩ (reads_token ⟨.THAN, ()⟩
      (reads_token ⟨.lparen, ()⟩ (reads_token ⟨.VALUE_INT, part.val⟩
        (reads_token ⟨.rparen, ()⟩ .nil)))))) rfl

theorem reads_parts {parts : List Ast.Part} (hne : parts ≠ []) :
    Reads .parlist parts (sepBy ⟨.comma, ()⟩ partTokens parts) :=
  reads_sepBy (L := fun parts => ⟨.nonterminal .parlist, parts⟩)
    (fun part _ => reads_rule (r := 24) rfl (part, ()) (reads_part part) rfl)
    (fun parts part _ _ h => reads_rule (r := 25) rfl (parts, (), part, ())
      (h.cons (reads_token ⟨.comma, ()⟩ (reads_part part))) rfl) hne

theorem reads_inParens {x : Valued Val} {w : Word} (h : Derives rule [x] w) :
    Derives rule [⟨.terminal .lparen, ()⟩, x, ⟨.terminal .rparen, ()⟩] (inParens w) :=
  reads_token ⟨.lparen, ()⟩ (h.cons (reads_token ⟨.rparen, ()⟩ .nil))

theorem reads_par {par : Option ParOpt} (hok : ∀ p ∈ par, p.parts ≠ []) :
    Reads .paropt par (parTokens par) := by
  cases par with
  | none => exact reads_rule (r := 22) rfl () .nil rfl
  | some par =>
      exact reads_rule (r := 23) rfl ((), (), (), (), par.parKey, (), (), par.parts, (), ())
        (reads_token ⟨.PARTITION, ()⟩ (reads_token ⟨.BY, ()⟩ (reads_token ⟨.RANGE, ()⟩
          ((reads_inParens (reads_colName par.parKey)).append
            (reads_inParens (reads_parts (hok par rfl))))))) rfl

variable {lex : Lexicon}

theorem reads_txnStmt {tree : TreeNode} {w : Word} (h : Reads .txnStmt tree w) :
    Reads .stmt tree w :=
  reads_rule (r := 10) rfl (tree, ()) h rfl

theorem reads_dbStmt {tree : TreeNode} {w : Word} (h : Reads .dbStmt tree w) :
    Reads .stmt tree w :=
  reads_rule (r := 7) rfl (tree, ()) h rfl

theorem reads_ddl {tree : TreeNode} {w : Word} (h : Reads .ddl tree w) : Reads .stmt tree w :=
  reads_rule (r := 8) rfl (tree, ()) h rfl

theorem reads_dml {tree : TreeNode} {w : Word} (h : Reads .dml tree w) : Reads .stmt tree w :=
  reads_rule (r := 9) rfl (tree, ()) h rfl

theorem reads_createTable {tab : Text} {fields : List Ast.Field} {par : Option ParOpt}
    (hok : lex.StmtOk (.createTable tab fields par)) :
    Reads .stmt (.createTable tab fields par) (stmtTokens (.createTable tab fields par)) := by
  obtain ⟨_, hne, hfields, hpar⟩ := hok
  have hread := reads_fields hne fun field hmem => (hfields field hmem).2
  have htail := (reads_inParens hread).append (reads_par fun p hp => (hpar p hp).2)
  exact reads_ddl (reads_rule (r := 17) rfl ((), (), tab, (), fields, (), par, ())
    (reads_token ⟨.CREATE, ()⟩ (reads_token ⟨.TABLE, ()⟩ ((reads_tbName tab).cons htail))) rfl)

theorem reads_stmt {tree : TreeNode} (hok : lex.StmtOk tree) :
    Reads .stmt tree (stmtTokens tree) := by
  cases tree with
  | help => exact hok.elim
  | explain _ => exact hok.elim
  | showTables =>
      exact reads_dbStmt (reads_rule (r := 15) rfl ((), (), ())
        (reads_token ⟨.SHOW, ()⟩ (reads_token ⟨.TABLES, ()⟩ .nil)) rfl)
  | showPartitions =>
      exact reads_dbStmt (reads_rule (r := 16) rfl ((), (), ())
        (reads_token ⟨.SHOW, ()⟩ (reads_token ⟨.PARTITION, ()⟩ .nil)) rfl)
  | txnBegin =>
      exact reads_txnStmt (reads_rule (r := 11) rfl ((), ()) (reads_token ⟨.TXN_BEGIN, ()⟩ .nil) rfl)
  | txnCommit =>
      exact reads_txnStmt
        (reads_rule (r := 12) rfl ((), ()) (reads_token ⟨.TXN_COMMIT, ()⟩ .nil) rfl)
  | txnAbort =>
      exact reads_txnStmt (reads_rule (r := 13) rfl ((), ()) (reads_token ⟨.TXN_ABORT, ()⟩ .nil) rfl)
  | txnRollback =>
      exact reads_txnStmt
        (reads_rule (r := 14) rfl ((), ()) (reads_token ⟨.TXN_ROLLBACK, ()⟩ .nil) rfl)
  | createTable tab fields par => exact reads_createTable hok
  | dropTable tab =>
      exact reads_ddl (reads_rule (r := 18) rfl ((), (), tab, ())
        (reads_token ⟨.DROP, ()⟩ (reads_token ⟨.TABLE, ()⟩ (reads_tbName tab))) rfl)
  | descTable tab =>
      exact reads_ddl (reads_rule (r := 19) rfl ((), tab, ())
        (reads_token ⟨.DESC, ()⟩ (reads_tbName tab)) rfl)
  | createIndex tab col =>
      exact reads_ddl (reads_rule (r := 20) rfl ((), (), tab, (), col, (), ())
        (reads_token ⟨.CREATE, ()⟩ (reads_token ⟨.INDEX, ()⟩
          ((reads_tbName tab).cons (reads_inParens (reads_colName col))))) rfl)
  | dropIndex tab col =>
      exact reads_ddl (reads_rule (r := 21) rfl ((), (), tab, (), col, (), ())
        (reads_token ⟨.DROP, ()⟩ (reads_token ⟨.INDEX, ()⟩
          ((reads_tbName tab).cons (reads_inParens (reads_colName col))))) rfl)
  | insert x =>
      exact reads_dml (reads_rule (r := 27) rfl ((), (), x.tabName, (), (), x.vals, (), ())
        (reads_token ⟨.INSERT, ()⟩ (reads_token ⟨.INTO, ()⟩ ((reads_tbName x.tabName).cons
          (reads_token ⟨.VALUES, ()⟩ (reads_inParens (reads_values hok.2.1)))))) rfl)
  | delete x =>
      exact reads_dml (reads_rule (r := 28) rfl ((), (), x.tabName, x.conds, ())
        (reads_token ⟨.DELETE, ()⟩ (reads_token ⟨.FROM, ()⟩
          ((reads_tbName x.tabName).cons (reads_where x.conds)))) rfl)
  | update x =>
      exact reads_dml (reads_rule (r := 29) rfl ((), x.tabName, (), x.setClauses, x.conds, ())
        (reads_token ⟨.UPDATE, ()⟩ ((reads_tbName x.tabName).cons (reads_token ⟨.SET, ()⟩
          ((reads_clauses hok.2.1).cons (reads_where x.conds))))) rfl)
  | select x =>
      exact reads_dml (reads_rule (r := 30) rfl ((), x.cols, (), x.tabs, x.conds, ())
        (reads_token ⟨.SELECT, ()⟩ ((reads_selector x.cols).cons (reads_token ⟨.FROM, ()⟩
          ((reads_tables hok.2.1).cons (reads_where x.conds))))) rfl)

/-- A well-formed tree is read back from its tokens. -/
theorem reads_tree {tree : TreeNode} (hok : lex.TreeOk tree) :
    Reads .start (some tree) (treeTokens tree) := by
  have hstmt {stmt : TreeNode} (h : lex.StmtOk stmt) :
      Reads .start (some stmt) (stmtTokens stmt ++ [⟨.semicolon, ()⟩]) :=
    reads_rule (r := 2) rfl (stmt, (), ())
      ((reads_stmt h).cons (reads_token ⟨.semicolon, ()⟩ .nil)) rfl
  cases tree with
  | help => exact reads_rule (r := 4) rfl ((), ()) (reads_token ⟨.HELP, ()⟩ .nil) rfl
  | explain stmt =>
      exact reads_rule (r := 3) rfl ((), stmt, (), ()) (reads_token ⟨.EXPLAIN, ()⟩
        ((reads_stmt hok).cons (reads_token ⟨.semicolon, ()⟩ .nil))) rfl
  | _ => exact hstmt hok

end Derivations

section Unambiguous

/-- The grammar of `yacc.y` gives no text two trees, and no statement begins with another
one. -/
theorem statement_unique {tree tree' : Option TreeNode} {w rest : List (Grammar.Token Val)}
    (h : Derives rule [⟨.nonterminal .start, tree⟩] w)
    (h' : Derives rule [⟨.nonterminal .start, tree'⟩] (w ++ rest)) : rest = [] ∧ tree = tree' := by
  have hall := reads_fromList (w ++ rest) []
  rw [List.append_nil] at hall
  have hshort : Parses fromList (w ++ rest) tree rest := ⟨w, h, reads_fromList w rest⟩
  have hlong : Parses fromList (w ++ rest) tree' [] := ⟨w ++ rest, h', hall⟩
  obtain ⟨htree, hrest⟩ := parses_unique hshort hlong
  exact ⟨hrest, htree⟩

theorem statement_unique_create :
    Reads .start (some createTree) (treeTokens createTree) ∧
      ([] : Word) = [] ∧ some createTree = some createTree := by
  have hok : (Lexicon.mk (fun _ => True) (fun _ => True) fun _ => True).TreeOk createTree := by
    simp [Lexicon.TreeOk, Lexicon.StmtOk, Lexicon.FieldOk, Lexicon.TypeOk, Lexicon.ParOptOk,
      createTree]
  have hreads : Reads .start (some createTree) (treeTokens createTree) := reads_tree hok
  have hlong : Reads .start (some createTree) (treeTokens createTree ++ []) := by
    rw [List.append_nil]
    exact hreads
  exact ⟨hreads, statement_unique hreads hlong⟩

end Unambiguous

section Tokens

variable {lex : Lexicon}

/-- The scanner allows every token of the word. -/
def Lexicon.WordOk (lex : Lexicon) (w : Word) : Prop := ∀ tok ∈ w, lex.Ok (.terminal tok.1) tok.2

theorem wordOk_nil : lex.WordOk [] := fun _ htok => absurd htok List.not_mem_nil

theorem wordOk_cons {tok : Grammar.Token Val} {w : Word} (htok : lex.Ok (.terminal tok.1) tok.2)
    (h : lex.WordOk w) : lex.WordOk (tok :: w) := by
  intro x hx
  rcases List.mem_cons.mp hx with rfl | hx
  · exact htok
  · exact h x hx

theorem wordOk_append {u w : Word} (hu : lex.WordOk u) (hw : lex.WordOk w) :
    lex.WordOk (u ++ w) := by
  intro x hx
  rcases List.mem_append.mp hx with hx | hx
  · exact hu x hx
  · exact hw x hx

theorem wordOk_sepBy {α : Type} {sep : Grammar.Token Val} {f : α → Word} {xs : List α}
    (hsep : lex.Ok (.terminal sep.1) sep.2) (hf : ∀ x ∈ xs, lex.WordOk (f x)) :
    lex.WordOk (sepBy sep f xs) := by
  cases xs with
  | nil => exact wordOk_nil
  | cons x xs =>
      rw [sepBy]
      apply wordOk_append (hf x List.mem_cons_self)
      intro tok htok
      obtain ⟨y, hy, htok⟩ := List.mem_flatMap.mp htok
      exact wordOk_cons hsep (hf y (List.mem_cons_of_mem x hy)) tok htok

theorem wordOk_inParens {w : Word} (h : lex.WordOk w) : lex.WordOk (inParens w) :=
  wordOk_cons trivial (wordOk_append h (wordOk_cons trivial wordOk_nil))

theorem wordOk_name {text : Text} (h : lex.name text) : lex.WordOk (name text) :=
  wordOk_cons h wordOk_nil

theorem wordOk_value {val : Ast.Value} (h : lex.ValueOk val) : lex.WordOk (valueTokens val) := by
  cases val with
  | intLit val => exact wordOk_cons trivial wordOk_nil
  | floatLit val => exact wordOk_cons h wordOk_nil
  | stringLit val => exact wordOk_cons h wordOk_nil

theorem wordOk_col {col : Col} (h : lex.ColOk col) : lex.WordOk (colTokens col) := by
  rw [colTokens]
  split
  next => exact wordOk_name h.2
  next hne =>
    exact wordOk_append (wordOk_name (h.1.resolve_left hne))
      (wordOk_cons trivial (wordOk_name h.2))

theorem wordOk_cond {cond : BinaryExpr} (h : lex.CondOk cond) : lex.WordOk (condTokens cond) := by
  apply wordOk_append (wordOk_col h.1)
  apply wordOk_append
  · cases cond.op with
    | _ => exact wordOk_cons trivial wordOk_nil
  · have hrhs := h.2
    cases hexpr : cond.rhs with
    | val val =>
        rw [hexpr] at hrhs
        exact wordOk_value hrhs
    | col col =>
        rw [hexpr] at hrhs
        exact wordOk_col hrhs

theorem wordOk_where {conds : List BinaryExpr} (h : ∀ cond ∈ conds, lex.CondOk cond) :
    lex.WordOk (whereTokens conds) := by
  rw [whereTokens]
  split
  next => exact wordOk_nil
  next => exact wordOk_cons trivial (wordOk_sepBy trivial fun cond hmem => wordOk_cond (h cond hmem))

theorem wordOk_field {field : Ast.Field} (h : lex.FieldOk field) :
    lex.WordOk (fieldTokens field) := by
  apply wordOk_append (wordOk_name h.1)
  rw [typeTokens]
  cases field.typeLen.type with
  | int => exact wordOk_cons trivial wordOk_nil
  | float => exact wordOk_cons trivial wordOk_nil
  | string =>
      exact wordOk_cons trivial (wordOk_cons trivial (wordOk_cons trivial
        (wordOk_cons trivial wordOk_nil)))

theorem wordOk_part (part : Ast.Part) : lex.WordOk (partTokens part) :=
  wordOk_cons trivial (wordOk_cons trivial (wordOk_cons trivial (wordOk_cons trivial
    (wordOk_cons trivial (wordOk_cons trivial wordOk_nil)))))

theorem wordOk_par {par : Option ParOpt} (h : ∀ p ∈ par, lex.ParOptOk p) :
    lex.WordOk (parTokens par) := by
  cases par with
  | none => exact wordOk_nil
  | some par =>
      refine wordOk_cons trivial ?_
      refine wordOk_cons trivial ?_
      refine wordOk_cons trivial ?_
      apply wordOk_append (wordOk_inParens (wordOk_name (h par rfl).1))
      exact wordOk_inParens (wordOk_sepBy trivial fun part _ => wordOk_part part)

theorem wordOk_selector {cols : List Col} (h : ∀ col ∈ cols, lex.ColOk col) :
    lex.WordOk (selectorTokens cols) := by
  rw [selectorTokens]
  split
  next => exact wordOk_cons trivial wordOk_nil
  next => exact wordOk_sepBy trivial fun col hmem => wordOk_col (h col hmem)

theorem wordOk_stmt {tree : TreeNode} (h : lex.StmtOk tree) : lex.WordOk (stmtTokens tree) := by
  cases tree with
  | help => exact wordOk_nil
  | explain _ => exact wordOk_nil
  | showTables => exact wordOk_cons trivial (wordOk_cons trivial wordOk_nil)
  | showPartitions => exact wordOk_cons trivial (wordOk_cons trivial wordOk_nil)
  | txnBegin => exact wordOk_cons trivial wordOk_nil
  | txnCommit => exact wordOk_cons trivial wordOk_nil
  | txnAbort => exact wordOk_cons trivial wordOk_nil
  | txnRollback => exact wordOk_cons trivial wordOk_nil
  | createTable tab fields par =>
      obtain ⟨htab, _, hfields, hpar⟩ := h
      refine wordOk_cons trivial ?_
      refine wordOk_cons trivial ?_
      apply wordOk_append (wordOk_name htab)
      apply wordOk_append _ (wordOk_par hpar)
      exact wordOk_inParens (wordOk_sepBy trivial fun field hmem => wordOk_field (hfields field hmem))
  | dropTable tab => exact wordOk_cons trivial (wordOk_cons trivial (wordOk_name h))
  | descTable tab => exact wordOk_cons trivial (wordOk_name h)
  | createIndex tab col =>
      exact wordOk_cons trivial (wordOk_cons trivial
        (wordOk_append (wordOk_name h.1) (wordOk_inParens (wordOk_name h.2))))
  | dropIndex tab col =>
      exact wordOk_cons trivial (wordOk_cons trivial
        (wordOk_append (wordOk_name h.1) (wordOk_inParens (wordOk_name h.2))))
  | insert x =>
      obtain ⟨htab, _, hvals⟩ := h
      refine wordOk_cons trivial ?_
      refine wordOk_cons trivial ?_
      apply wordOk_append (wordOk_name htab)
      refine wordOk_cons trivial ?_
      exact wordOk_inParens (wordOk_sepBy trivial fun val hmem => wordOk_value (hvals val hmem))
  | delete x =>
      exact wordOk_cons trivial (wordOk_cons trivial
        (wordOk_append (wordOk_name h.1) (wordOk_where h.2)))
  | update x =>
      obtain ⟨htab, _, hclauses, hconds⟩ := h
      refine wordOk_cons trivial ?_
      apply wordOk_append (wordOk_name htab)
      refine wordOk_cons trivial ?_
      apply wordOk_append _ (wordOk_where hconds)
      refine wordOk_sepBy trivial ?_
      intro clause hmem
      obtain ⟨hname, hval⟩ := hclauses clause hmem
      exact wordOk_append (wordOk_name hname) (wordOk_cons trivial (wordOk_value hval))
  | select x =>
      obtain ⟨hcols, _, htabs, hconds⟩ := h
      refine wordOk_cons trivial ?_
      apply wordOk_append (wordOk_selector hcols)
      refine wordOk_cons trivial ?_
      apply wordOk_append _ (wordOk_where hconds)
      exact wordOk_sepBy trivial fun tab hmem => wordOk_name (htabs tab hmem)

theorem wordOk_treeTokens {tree : TreeNode} (h : lex.TreeOk tree) : lex.WordOk (treeTokens tree) := by
  have hend : lex.WordOk [⟨.semicolon, ()⟩] := wordOk_cons trivial wordOk_nil
  cases tree with
  | help => exact wordOk_cons trivial wordOk_nil
  | explain stmt => exact wordOk_cons trivial (wordOk_append (wordOk_stmt h) hend)
  | _ => exact wordOk_append (wordOk_stmt h) hend

/-- The trees of words that the scanner allows are the well-formed trees. -/
theorem treeOk_iff (tree : TreeNode) :
    lex.TreeOk tree ↔ ∃ w, lex.WordOk w ∧ Reads .start (some tree) w := by
  constructor
  · intro h
    exact ⟨treeTokens tree, wordOk_treeTokens h, reads_tree h⟩
  · rintro ⟨w, hw, hreads⟩
    exact Lexicon.ok_of_derives hreads hw tree rfl

end Tokens

end Sql

end RucDDBS
