import RucDDBS.Library.Text

/-!
Statements as the parser hands them over, records, and the operators of an
execution plan. Of the syntax tree only what the plan builders read is here.
-/

namespace RucDDBS

namespace Ast

inductive SvType where
  | int | float | string
  deriving DecidableEq, Repr

inductive SvCompOp where
  | eq | ne | lt | gt | le | ge
  deriving DecidableEq, Repr

/-- A literal. Of a float only its 32 bits matter here. -/
inductive Value where
  | intLit (val : Int32)
  | floatLit (val : UInt32)
  | stringLit (val : Text)
  deriving DecidableEq

structure Col where
  tabName : Text
  colName : Text
  deriving DecidableEq

inductive Expr where
  | val (val : Value)
  | col (col : Col)
  deriving DecidableEq

structure BinaryExpr where
  lhs : Col
  op : SvCompOp
  rhs : Expr
  deriving DecidableEq

structure SetClause where
  colName : Text
  val : Value
  deriving DecidableEq

structure ColDef where
  colName : Text
  type : SvType
  deriving DecidableEq

/-- `parOpt` holds the bounds of the `PARTITION LESS THAN` list, if there is
one. -/
structure CreateTable where
  tabName : Text
  fields : List ColDef
  parOpt : Option (List Int32)
  deriving DecidableEq

structure InsertStmt where
  tabName : Text
  vals : List Value
  deriving DecidableEq

structure DeleteStmt where
  tabName : Text
  conds : List BinaryExpr
  deriving DecidableEq

structure UpdateStmt where
  tabName : Text
  setClauses : List SetClause
  conds : List BinaryExpr
  deriving DecidableEq

structure SelectStmt where
  cols : List Col
  tabs : List Text
  conds : List BinaryExpr
  deriving DecidableEq

end Ast

/-- One cell of a record. Only `str` is stored; a scan fills the names in. -/
structure Value where
  colName : Text := []
  tabName : Text := []
  str : Int32
  deriving DecidableEq

abbrev Record := List Value

/-- The operators that run on a node. -/
inductive Operator where
  | tablescan (tabs : Text) (par : Nat)
  | selection (conds : Ast.BinaryExpr)
  | insert (tabName : Text) (par : Nat) (record : Record)
  | delete (tabName : Text) (par : Nat)
  | update (tabName : Text) (par : Nat) (setColIndex : List Nat) (setVal : List Value)
  deriving DecidableEq

/-- Operators linked by `next_node`. -/
abbrev Chain := List Operator

/-- `op_distribution`: for each partition, in order, its plan and the address of
its node. -/
structure Distribution where
  nodesPlan : List Chain
  targetAddress : List Text
  deriving DecidableEq

/-- The operators that stay on the node that received the statement. -/
inductive RootOperator where
  | projection (cols : List Ast.Col)
  | selection (conds : Ast.BinaryExpr)
  | join (tablesGet : List Distribution)
  | distribution (plan : Distribution)
  deriving DecidableEq

/-- `interp_value`. For a literal that is not an integer the code sets nothing,
and the cell keeps what the allocated object happens to hold, `fresh`. -/
def interpValue (fresh : Int32) : Ast.Value → Value
  | .intLit val => { str := val }
  | .floatLit _ => { str := fresh }
  | .stringLit _ => { str := fresh }

/-- The chains that the plan builders place in a distribution: an insert, a scan,
or a delete or update over any number of selections and a scan. A scan stands
alone where a statement selects. -/
inductive NodePlan : Chain → Prop
  | scan (tab : Text) (par : Nat) : NodePlan [.tablescan tab par]
  | insert {tab : Text} (par : Nat) {record : Record} :
      (∀ cell ∈ record, cell.tabName = tab) → NodePlan [.insert tab par record]
  | delete (tab : Text) (par : Nat) (conds : List Ast.BinaryExpr) :
      NodePlan (.delete tab par :: conds.map .selection ++ [.tablescan tab par])
  | update (tab : Text) (par : Nat) {cols : List Nat} {vals : List Value}
      (conds : List Ast.BinaryExpr) :
      cols.length = vals.length → (∀ cell ∈ vals, cell = { str := cell.str }) →
      NodePlan (.update tab par cols vals :: conds.map .selection ++ [.tablescan tab par])

end RucDDBS
