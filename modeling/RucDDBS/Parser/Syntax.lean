import RucDDBS.Library.Grammar
import RucDDBS.Parser.Ast

/-!
The grammar of `yacc.y`. Every symbol has the type of its `%type` declaration, and the
productions stand in the order of the file with the values that their actions give them.
The actions of `start` also end the parse.
-/

namespace RucDDBS

namespace Sql

open Ast Grammar

/-- The tokens of `yylex`. -/
inductive Token where
  | SHOW | TABLES | CREATE | TABLE | DROP | DESC | INSERT | INTO | VALUES | DELETE | FROM | WHERE
  | UPDATE | SET | SELECT | INT | CHAR | FLOAT | INDEX | AND | JOIN | EXIT | HELP | TXN_BEGIN
  | TXN_COMMIT | TXN_ABORT | TXN_ROLLBACK | PARTITION | BY | RANGE | LESS | THAN | EXPLAIN | LEQ
  | NEQ | GEQ | T_EOF | IDENTIFIER | VALUE_STRING | VALUE_INT | VALUE_FLOAT | semicolon | lparen
  | rparen | comma | dot | eq | lt | gt | star
  deriving DecidableEq, Repr

def tokens : List Token := [
  .SHOW, .TABLES, .CREATE, .TABLE, .DROP, .DESC, .INSERT, .INTO, .VALUES, .DELETE, .FROM, .WHERE,
  .UPDATE, .SET, .SELECT, .INT, .CHAR, .FLOAT, .INDEX, .AND, .JOIN, .EXIT, .HELP, .TXN_BEGIN,
  .TXN_COMMIT, .TXN_ABORT, .TXN_ROLLBACK, .PARTITION, .BY, .RANGE, .LESS, .THAN, .EXPLAIN, .LEQ,
  .NEQ, .GEQ, .T_EOF, .IDENTIFIER, .VALUE_STRING, .VALUE_INT, .VALUE_FLOAT, .semicolon, .lparen,
  .rparen, .comma, .dot, .eq, .lt, .gt, .star]

theorem mem_tokens (tok : Token) : tok ∈ tokens := by
  cases tok <;> decide

inductive Nonterminal where
  | start | stmt | txnStmt | dbStmt | ddl | paropt | parlist | part | dml | fieldList | field | type
  | valueList | value | condition | optWhereClause | whereClause | col | colList | op | expr
  | setClauses | setClause | selector | tableList | tbName | colName
  deriving DecidableEq, Repr

/-- What a symbol carries. A float is its 32 bits; `start` has the tree that is left in
`parse_tree`, which may be a null pointer. -/
@[reducible] def Val : Symbol Token Nonterminal → Type
  | .terminal .IDENTIFIER => Text
  | .terminal .VALUE_STRING => Text
  | .terminal .VALUE_INT => Int32
  | .terminal .VALUE_FLOAT => UInt32
  | .terminal _ => Unit
  | .nonterminal .start => Option TreeNode
  | .nonterminal .stmt => TreeNode
  | .nonterminal .txnStmt => TreeNode
  | .nonterminal .dbStmt => TreeNode
  | .nonterminal .ddl => TreeNode
  | .nonterminal .paropt => Option ParOpt
  | .nonterminal .parlist => List Ast.Part
  | .nonterminal .part => Ast.Part
  | .nonterminal .dml => TreeNode
  | .nonterminal .fieldList => List Ast.Field
  | .nonterminal .field => Ast.Field
  | .nonterminal .type => TypeLen
  | .nonterminal .valueList => List Ast.Value
  | .nonterminal .value => Ast.Value
  | .nonterminal .condition => BinaryExpr
  | .nonterminal .optWhereClause => List BinaryExpr
  | .nonterminal .whereClause => List BinaryExpr
  | .nonterminal .col => Col
  | .nonterminal .colList => List Col
  | .nonterminal .op => SvCompOp
  | .nonterminal .expr => Expr
  | .nonterminal .setClauses => List SetClause
  | .nonterminal .setClause => SetClause
  | .nonterminal .selector => List Col
  | .nonterminal .tableList => List Text
  | .nonterminal .tbName => Text
  | .nonterminal .colName => Text

section Rules

abbrev t (tok : Token) : Symbol Token Nonterminal := .terminal tok

abbrev n (A : Nonterminal) : Symbol Token Nonterminal := .nonterminal A

def rules : List (Production Val) := [
  ⟨.start, [n .stmt, t .semicolon], fun (stmt, _, ()) => some stmt⟩,
  ⟨.start, [t .EXPLAIN, n .stmt, t .semicolon], fun (_, stmt, _, ()) => some (.explain stmt)⟩,
  ⟨.start, [t .HELP], fun (_, ()) => some .help⟩,
  ⟨.start, [t .EXIT], fun (_, ()) => none⟩,
  ⟨.start, [t .T_EOF], fun (_, ()) => none⟩,
  ⟨.stmt, [n .dbStmt], fun (stmt, ()) => stmt⟩,
  ⟨.stmt, [n .ddl], fun (stmt, ()) => stmt⟩,
  ⟨.stmt, [n .dml], fun (stmt, ()) => stmt⟩,
  ⟨.stmt, [n .txnStmt], fun (stmt, ()) => stmt⟩,
  ⟨.txnStmt, [t .TXN_BEGIN], fun (_, ()) => .txnBegin⟩,
  ⟨.txnStmt, [t .TXN_COMMIT], fun (_, ()) => .txnCommit⟩,
  ⟨.txnStmt, [t .TXN_ABORT], fun (_, ()) => .txnAbort⟩,
  ⟨.txnStmt, [t .TXN_ROLLBACK], fun (_, ()) => .txnRollback⟩,
  ⟨.dbStmt, [t .SHOW, t .TABLES], fun (_, _, ()) => .showTables⟩,
  ⟨.dbStmt, [t .SHOW, t .PARTITION], fun (_, _, ()) => .showPartitions⟩,
  ⟨.ddl, [t .CREATE, t .TABLE, n .tbName, t .lparen, n .fieldList, t .rparen, n .paropt],
    fun (_, _, tab, _, fields, _, par, ()) => .createTable tab fields par⟩,
  ⟨.ddl, [t .DROP, t .TABLE, n .tbName], fun (_, _, tab, ()) => .dropTable tab⟩,
  ⟨.ddl, [t .DESC, n .tbName], fun (_, tab, ()) => .descTable tab⟩,
  ⟨.ddl, [t .CREATE, t .INDEX, n .tbName, t .lparen, n .colName, t .rparen],
    fun (_, _, tab, _, col, _, ()) => .createIndex tab col⟩,
  ⟨.ddl, [t .DROP, t .INDEX, n .tbName, t .lparen, n .colName, t .rparen],
    fun (_, _, tab, _, col, _, ()) => .dropIndex tab col⟩,
  ⟨.paropt, [], fun () => none⟩,
  ⟨.paropt, [t .PARTITION, t .BY, t .RANGE, t .lparen, n .colName, t .rparen, t .lparen, n .parlist,
    t .rparen],
    fun (_, _, _, _, col, _, _, parts, _, ()) => some ⟨col, parts⟩⟩,
  ⟨.parlist, [n .part], fun (part, ()) => [part]⟩,
  ⟨.parlist, [n .parlist, t .comma, n .part], fun (parts, _, part, ()) => parts ++ [part]⟩,
  ⟨.part, [t .PARTITION, t .LESS, t .THAN, t .lparen, t .VALUE_INT, t .rparen],
    fun (_, _, _, _, val, _, ()) => ⟨val⟩⟩,
  ⟨.dml, [t .INSERT, t .INTO, n .tbName, t .VALUES, t .lparen, n .valueList, t .rparen],
    fun (_, _, tab, _, _, vals, _, ()) => .insert ⟨tab, vals⟩⟩,
  ⟨.dml, [t .DELETE, t .FROM, n .tbName, n .optWhereClause],
    fun (_, _, tab, conds, ()) => .delete ⟨tab, conds⟩⟩,
  ⟨.dml, [t .UPDATE, n .tbName, t .SET, n .setClauses, n .optWhereClause],
    fun (_, tab, _, clauses, conds, ()) => .update ⟨tab, clauses, conds⟩⟩,
  ⟨.dml, [t .SELECT, n .selector, t .FROM, n .tableList, n .optWhereClause],
    fun (_, cols, _, tabs, conds, ()) => .select ⟨cols, tabs, conds⟩⟩,
  ⟨.fieldList, [n .field], fun (field, ()) => [field]⟩,
  ⟨.fieldList, [n .fieldList, t .comma, n .field],
    fun (fields, _, field, ()) => fields ++ [field]⟩,
  ⟨.field, [n .colName, n .type], fun (col, type, ()) => ⟨col, type⟩⟩,
  ⟨.type, [t .INT], fun (_, ()) => ⟨.int, 4⟩⟩,
  ⟨.type, [t .CHAR, t .lparen, t .VALUE_INT, t .rparen],
    fun (_, _, len, _, ()) => ⟨.string, len⟩⟩,
  ⟨.type, [t .FLOAT], fun (_, ()) => ⟨.float, 4⟩⟩,
  ⟨.valueList, [n .value], fun (val, ()) => [val]⟩,
  ⟨.valueList, [n .valueList, t .comma, n .value], fun (vals, _, val, ()) => vals ++ [val]⟩,
  ⟨.value, [t .VALUE_INT], fun (val, ()) => .intLit val⟩,
  ⟨.value, [t .VALUE_FLOAT], fun (val, ()) => .floatLit val⟩,
  ⟨.value, [t .VALUE_STRING], fun (val, ()) => .stringLit val⟩,
  ⟨.condition, [n .col, n .op, n .expr], fun (col, op, expr, ()) => ⟨col, op, expr⟩⟩,
  ⟨.optWhereClause, [], fun () => []⟩,
  ⟨.optWhereClause, [t .WHERE, n .whereClause], fun (_, conds, ()) => conds⟩,
  ⟨.whereClause, [n .condition], fun (cond, ()) => [cond]⟩,
  ⟨.whereClause, [n .whereClause, t .AND, n .condition],
    fun (conds, _, cond, ()) => conds ++ [cond]⟩,
  ⟨.col, [n .tbName, t .dot, n .colName], fun (tab, _, col, ()) => ⟨tab, col⟩⟩,
  ⟨.col, [n .colName], fun (col, ()) => ⟨[], col⟩⟩,
  ⟨.colList, [n .col], fun (col, ()) => [col]⟩,
  ⟨.colList, [n .colList, t .comma, n .col], fun (cols, _, col, ()) => cols ++ [col]⟩,
  ⟨.op, [t .eq], fun (_, ()) => .eq⟩,
  ⟨.op, [t .lt], fun (_, ()) => .lt⟩,
  ⟨.op, [t .gt], fun (_, ()) => .gt⟩,
  ⟨.op, [t .NEQ], fun (_, ()) => .ne⟩,
  ⟨.op, [t .LEQ], fun (_, ()) => .le⟩,
  ⟨.op, [t .GEQ], fun (_, ()) => .ge⟩,
  ⟨.expr, [n .value], fun (val, ()) => .val val⟩,
  ⟨.expr, [n .col], fun (col, ()) => .col col⟩,
  ⟨.setClauses, [n .setClause], fun (clause, ()) => [clause]⟩,
  ⟨.setClauses, [n .setClauses, t .comma, n .setClause],
    fun (clauses, _, clause, ()) => clauses ++ [clause]⟩,
  ⟨.setClause, [n .colName, t .eq, n .value], fun (col, _, val, ()) => ⟨col, val⟩⟩,
  ⟨.selector, [t .star], fun (_, ()) => []⟩,
  ⟨.selector, [n .colList], fun (cols, ()) => cols⟩,
  ⟨.tableList, [n .tbName], fun (tab, ()) => [tab]⟩,
  ⟨.tableList, [n .tableList, t .comma, n .tbName], fun (tabs, _, tab, ()) => tabs ++ [tab]⟩,
  ⟨.tableList, [n .tableList, t .JOIN, n .tbName], fun (tabs, _, tab, ()) => tabs ++ [tab]⟩,
  ⟨.tbName, [t .IDENTIFIER], fun (name, ()) => name⟩,
  ⟨.colName, [t .IDENTIFIER], fun (name, ()) => name⟩
]

/-- The number 1 belongs to the rule that the generator adds. -/
def rule : Nat → Option (Production Val)
  | 0 => none
  | 1 => none
  | r + 2 => rules[r]?

end Rules

end Sql

end RucDDBS
