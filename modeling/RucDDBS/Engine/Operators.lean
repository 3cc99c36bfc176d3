import RucDDBS.Engine.PlanBuild
import RucDDBS.Engine.RemotePlan
import RucDDBS.Library.Run

/-!
What the operators do to the rows in etcd. A statement is planned on the node that
receives it, its node plans are sent out and executed one after the other, and
all nodes keep their rows in one etcd. The lock calls of the operators change no
row and their results are not read, so they have no part here. `none` marks what
is undefined in the source: a cell beyond the end of a row, a missing operator.
-/

namespace RucDDBS

open Text

section Rows

def storeData : Text := "/store_data/".toList

/-- What precedes the keys of a partition's rows. -/
def parKeyPrefix (tabName : Text) (par : Nat) : Text :=
  storeData ++ (tabName ++ '/' :: (ofInt par ++ ['/']))

/-- The key that the operators build for a row of a partition. -/
def rowKey (tabName : Text) (par : Nat) (key : Int32) : Text :=
  parKeyPrefix tabName par ++ ofInt key.toInt

def Record.recToString (row : Record) : Text :=
  ofInt row.length ++ spread (row.map fun cell => ofInt cell.str.toInt)

/-- A number that is missing or out of range fails the stream, and what the cells behind it hold is
undefined. -/
def readCell (stream : Text) : Option (Value × Text) := do
  let (out, stream) ← readInt32 stream
  pure ({ str := out }, stream)

/-- `string_to_rec`. -/
def stringToRec (inStr : Text) : Option Record := do
  let (size, stream) ← readNumber inStr
  let (row, _) ← readMany readCell size.toNat stream
  pure row

/-- The entries of a partition, in the order of their keys. -/
def etcdPar (etcd : Etcd) (key : Text) : SortedMap Text Text := etcd.filterKeys key.isPrefixOf

/-- `kv_store::get_par`. -/
def getPar (etcd : Etcd) (tabName : Text) (par : Nat) : Option (List Record) :=
  (etcdPar etcd (parKeyPrefix tabName par)).entries.mapM fun entry => stringToRec entry.2

end Rows

section Read

/-- The names that a scan fills in, cell by cell. -/
def nameCells (tabs : Text) : Record → List Text → Option Record
  | [], _ => some []
  | _ :: _, [] => none
  | cell :: row, colName :: names => do
      let row ← nameCells tabs row names
      pure ({ cell with colName, tabName := tabs } :: row)

/-- `op_tablescan::exec_op`. -/
def execTablescan (etcd : Etcd) (tabs : Text) (par : Nat) : Option (List Record) := do
  let res ← getPar etcd tabs par
  let cols ← getColInfo etcd tabs
  res.mapM fun row => nameCells tabs row cols.columnName

/-- The last cell with the names of a column. -/
def columnIndex (row : Record) (col : Ast.Col) : Option Nat :=
  ((row.zipIdx.filter fun cell =>
    cell.1.tabName = col.tabName ∧ cell.1.colName = col.colName).getLast?).map Prod.snd

/-- The row passes the selection; the operator of the condition is not read. An
unknown column stands for the first one if the right side is a column, and for
the cell before the first one if it is an integer. -/
def selects (conds : Ast.BinaryExpr) (first row : Record) : Option Bool :=
  match conds.rhs with
  | .col x => do
      let left ← row[(columnIndex first conds.lhs).getD 0]?
      let right ← row[(columnIndex first x).getD 0]?
      pure (left.str = right.str)
  | .val (.intLit n) => do
      let index ← columnIndex first conds.lhs
      let left ← row[index]?
      pure (left.str = n)
  | .val _ => some false

/-- `op_selection::exec_op`. The columns are looked up in the first row. -/
def execSelection (conds : Ast.BinaryExpr) (ret : List Record) : Option (List Record) := do
  let kept ← ret.mapM fun row => selects conds (ret.headD []) row
  pure ((ret.zip kept).filter Prod.snd |>.map Prod.fst)

end Read

section Rows

theorem exists_of_mapM {α β : Type} {f : α → Option β} {items : List α} {results : List β}
    (h : items.mapM f = some results) : ∀ b ∈ results, ∃ a ∈ items, f a = some b := by
  induction items generalizing results with
  | nil =>
      simp only [List.mapM_nil, Option.pure_def, Option.some.injEq] at h
      subst h
      simp
  | cons a items ih =>
      simp only [List.mapM_cons, Option.bind_eq_bind, Option.bind_eq_some_iff, Option.pure_def,
        Option.some.injEq] at h
      obtain ⟨first, hfirst, rest, hrest, rfl⟩ := h
      intro b hb
      rcases List.mem_cons.mp hb with rfl | hmem
      · exact ⟨a, List.mem_cons_self, hfirst⟩
      · obtain ⟨a', ha', heq⟩ := ih hrest b hmem
        exact ⟨a', List.mem_cons_of_mem _ ha', heq⟩

theorem mapM_eq_map {α β γ : Type} {f : α → Option β} {g : α → Option γ} {φ : β → γ}
    (hfg : ∀ a b, f a = some b → g a = some (φ b)) {items : List α} {results : List β}
    (h : items.mapM f = some results) : items.mapM g = some (results.map φ) := by
  induction items generalizing results with
  | nil =>
      simp only [List.mapM_nil, Option.pure_def, Option.some.injEq] at h
      subst h
      rfl
  | cons a items ih =>
      simp only [List.mapM_cons, Option.bind_eq_bind, Option.bind_eq_some_iff, Option.pure_def,
        Option.some.injEq] at h
      obtain ⟨first, hfirst, rest, hrest, rfl⟩ := h
      simp [hfg a first hfirst, ih hrest]

end Rows

section Write

/-- The key of a row, rebuilt from its first cell. -/
def keyOf (tabName : Text) (par : Nat) (row : Record) : Option Text :=
  row.head?.map fun cell => rowKey tabName par cell.str

/-- One set clause after the other. -/
def setCells : Record → List (Nat × Value) → Option Record
  | row, [] => some row
  | row, (col, val) :: sets =>
      match row[col]? with
      | none => none
      | some cell => setCells (row.set col { cell with str := val.str }) sets

/-- The key of a row, built before the set clauses change it, and the changed row. -/
def updateRow (tabName : Text) (par : Nat) (sets : List (Nat × Value)) (row : Record) :
    Option (Text × Record) := do
  let key ← keyOf tabName par row
  let row ← setCells row sets
  pure (key, row)

/-- `exec_op` of a chain of operators: the rows in etcd afterwards and the records that
the first operator returns. -/
def execOp : Chain → Etcd → Option (Etcd × List Record)
  | [], _ => none
  | .tablescan tabs par :: _, etcd => do
      let res ← execTablescan etcd tabs par
      pure (etcd, res)
  | .selection conds :: next, etcd => do
      let (etcd, ret) ← execOp next etcd
      let res ← execSelection conds ret
      pure (etcd, res)
  | .insert tabName par record :: _, etcd => do
      let key ← keyOf tabName par record
      pure (etcd.put key record.recToString, [record])
  | .delete tabName par :: next, etcd => do
      let (etcd, res) ← execOp next etcd
      let keys ← res.mapM (keyOf tabName par)
      pure (etcd.delAll keys, res)
  | .update tabName par setColIndex setVal :: next, etcd => do
      let (etcd, res) ← execOp next etcd
      if setColIndex.length ≤ setVal.length then do
        let rows ← res.mapM (updateRow tabName par (setColIndex.zip setVal))
        pure (etcd.putAll (rows.map fun row => (row.1, row.2.recToString)), rows.map Prod.snd)
      else none

end Write

section Statements

/-- `send_plan` to a node that converts the message and executes it. -/
def execNode (fresh : Nat → Int32) (chain : Chain) (etcd : Etcd) : Option (Etcd × List Record) := do
  let plan ← convertIntoPlan (sendPlan fresh chain)
  execOp plan etcd

/-- `op_distribution::exec_op`: the node plans in order. -/
def execNodes : (Nat → Nat → Int32) → List Chain → Etcd → Option (Etcd × List Record)
  | _, [], etcd => some (etcd, [])
  | fresh, chain :: nodes, etcd => do
      let (etcd, ret) ← execNode (fresh 0) chain etcd
      let (etcd, res) ← execNodes (fresh ∘ Nat.succ) nodes etcd
      pure (etcd, ret ++ res)

inductive Statement where
  | insert (insertTree : Ast.InsertStmt)
  | delete (deleteTree : Ast.DeleteStmt)
  | update (updateTree : Ast.UpdateStmt)
  deriving DecidableEq

def Statement.tabName : Statement → Text
  | .insert insertTree => insertTree.tabName
  | .delete deleteTree => deleteTree.tabName
  | .update updateTree => updateTree.tabName

/-- A statement, and what the cells that are left unset hold while it is planned and
while its plans are sent. -/
structure Command where
  statement : Statement
  fresh : Nat → Nat → Nat → Int32
  sent : Nat → Nat → Int32

/-- The plan builder of the statement. -/
def Command.build (command : Command) (etcd : Etcd) : Option (List RootOperator) :=
  match command.statement with
  | .insert insertTree => buildInsertPlan (command.fresh 0 0) etcd insertTree
  | .delete deleteTree => buildDeletePlan etcd deleteTree
  | .update updateTree => buildUpdatePlan command.fresh etcd updateTree

/-- `Sql_execute_client` for the three statements that write. -/
def execStatement (etcd : Etcd) (command : Command) : Option (Etcd × List Record) := do
  let plan ← command.build etcd
  execNodes command.sent (nodePlans plan) etcd

end Statements

end RucDDBS
