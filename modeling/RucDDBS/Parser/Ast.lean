import RucDDBS.Engine.Plan

/-!
The syntax trees of statements as the parser builds them, with all that `ast.h` keeps. The
plan builders read less of a CREATE TABLE than the tree holds.
-/

namespace RucDDBS

namespace Ast

structure TypeLen where
  type : SvType
  len : Int32
  deriving DecidableEq

/-- A `ColDef`, the only kind of `Field`. -/
structure Field where
  colName : Text
  typeLen : TypeLen
  deriving DecidableEq

structure Part where
  val : Int32
  deriving DecidableEq

structure ParOpt where
  parKey : Text
  parts : List Part
  deriving DecidableEq

inductive TreeNode where
  | help
  | showTables
  | showPartitions
  | explain (stmt : TreeNode)
  | txnBegin
  | txnCommit
  | txnAbort
  | txnRollback
  | createTable (tabName : Text) (fields : List Field) (parOpt : Option ParOpt)
  | dropTable (tabName : Text)
  | descTable (tabName : Text)
  | createIndex (tabName colName : Text)
  | dropIndex (tabName colName : Text)
  | insert (x : InsertStmt)
  | delete (x : DeleteStmt)
  | update (x : UpdateStmt)
  | select (x : SelectStmt)
  deriving DecidableEq

/-- Of a field `create_table` reads the name and the type. -/
def Field.colDef (f : Field) : ColDef := ⟨f.colName, f.typeLen.type⟩

/-- The CREATE TABLE that `create_table` reads: no lengths and no partition key. -/
def createTableOf (tabName : Text) (fields : List Field) (parOpt : Option ParOpt) : CreateTable :=
  ⟨tabName, fields.map Field.colDef, parOpt.map fun p => p.parts.map Part.val⟩

end Ast

end RucDDBS
