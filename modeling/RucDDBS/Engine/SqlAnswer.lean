import RucDDBS.Engine.ParRange
import RucDDBS.Engine.PartitionScan
import RucDDBS.Engine.SelectOperators
import RucDDBS.Parser.Ast
import RucDDBS.Transaction.Types

/-!
What a client is answered: the branches of `Sql_execute_client` on the metadata and the rows in
etcd, and the text that is made of their result. Of transactions and locks there is only the
pointer that the lock calls at the nodes get. `none` is what is undefined in the source.
-/

namespace RucDDBS

namespace Sql

open Text

section Select

/-- `exec_op` of the tables of a join, one after the other. -/
def execTables : (Nat → Nat → Nat → Int32) → List Distribution → Etcd →
    Option (Etcd × List (List Record))
  | _, [], etcd => some (etcd, [])
  | sent, plan :: tables, etcd => do
      let (etcd, ret) ← execNodes (sent 0) plan.nodesPlan etcd
      let (etcd, rest) ← execTables (sent ∘ Nat.succ) tables etcd
      pure (etcd, ret :: rest)

/-- `exec_op` of the operators below `op_executor`. -/
def execRoot (sent : Nat → Nat → Nat → Int32) : List RootOperator → Etcd →
    Option (Etcd × List Record)
  | [], _ => none
  | .projection cols :: next, etcd => do
      let (etcd, ret) ← execRoot sent next etcd
      pure (etcd, execProjection cols ret)
  | .selection conds :: next, etcd => do
      let (etcd, ret) ← execRoot sent next etcd
      let res ← execSelection conds ret
      pure (etcd, res)
  | .join tablesGet :: _, etcd => do
      let (etcd, ret) ← execTables sent tablesGet etcd
      let res ← execJoin ret
      pure (etcd, res)
  | .distribution plan :: _, etcd => execNodes (sent 0) plan.nodesPlan etcd

end Select

section Show

def ipAddress : Text := "/meta_data/ip_address/".toList

def etcdGetKey (etcd : Etcd) (pre : Text) : List Text :=
  (etcd.filterKeys pre.isPrefixOf).keys.map fun key => key.drop pre.length

def getTables (etcd : Etcd) : List (List Text) := (etcdGetKey etcd ipAddress).map ([·])

def showTables (etcd : Etcd) : List (List Text) := ["Tables".toList] :: getTables etcd

/-- The loop over the partitions that the query found. To read the address of another one
puts an empty address into the map, so that the loop goes on. -/
def partitionRows (table column : Text) :
    List (Int × Int) → Nat → SortedMap Nat Text → Option (List (List Text))
  | [], i, mp => if i < mp.size then none else some []
  | range :: ranges, i, mp =>
      if i < mp.size then do
        let addr := (mp.get i).getD []
        let row := [table, column, ofInt i, addr, ofInt range.1 ++ ',' :: ofInt range.2]
        let rows ← partitionRows table column ranges (i + 1) (mp.put i addr)
        pure (row :: rows)
      else some []

def tablePartitions (etcd : Etcd) (table : Text) : Option (List (List Text)) := do
  let col ← getColInfo etcd table
  let column ← col.columnName.head?
  let mp ← getTableIpDefault etcd table
  let ranges ← getParRange etcd table
  partitionRows table column ranges 0 (SortedMap.empty.putAll mp)

/-- `GetPartitions`. -/
def getPartitions (etcd : Etcd) : Option (List (List Text)) := do
  let rows ← (etcdGetKey etcd ipAddress).mapM (tablePartitions etcd)
  pure rows.flatten

def showPartitions (etcd : Etcd) : Option (List (List Text)) := do
  let rows ← getPartitions etcd
  pure (["Table_Name".toList, "Partition_Key".toList, "Partition_Num".toList, "Ip_address".toList,
    "Range".toList] :: rows)

end Show

section Explain

inductive OpType where
  | op_executor
  | op_projection
  | op_selection
  | op_join
  | op_distribution
  | op_tablescan
  | op_insert
  | op_delete
  | op_update

def Operator.opType : Operator → OpType
  | .tablescan _ _ => .op_tablescan
  | .selection _ => .op_selection
  | .insert _ _ _ => .op_insert
  | .delete _ _ => .op_delete
  | .update _ _ _ _ => .op_update

def nodesName (address : Text) : Text :=
  if address = "0.0.0.0:8005".toList then "server1".toList
  else if address = "0.0.0.0:8006".toList then "server2".toList
  else []

-- the name that the compiler gives to a class
variable (typeName : OpType → Text)

def prtRow (type : OpType) (offset node : Text) : List Text := [offset ++ typeName type, node]

def prtChain : Chain → Text → Text → List (List Text)
  | [], _, _ => []
  | op :: next, offset, node =>
      prtRow typeName (Operator.opType op) offset node :: prtChain next (offset ++ [' ', ' ']) node

def prtDistribution (plan : Distribution) (offset node : Text) : List (List Text) :=
  prtRow typeName .op_distribution offset node ::
    (plan.nodesPlan.zip plan.targetAddress).flatMap fun target =>
      prtChain typeName target.1 (offset ++ [' ', ' ']) (nodesName target.2)

def prtRoot : List RootOperator → Text → Text → List (List Text)
  | [], _, _ => []
  | .projection _ :: next, offset, node =>
      prtRow typeName .op_projection offset node :: prtRoot next (offset ++ [' ', ' ']) node
  | .selection _ :: next, offset, node =>
      prtRow typeName .op_selection offset node :: prtRoot next (offset ++ [' ', ' ']) node
  | .join tablesGet :: _, offset, node =>
      prtRow typeName .op_join offset node ::
        tablesGet.flatMap fun plan => prtDistribution typeName plan (offset ++ [' ', ' ']) node
  | .distribution plan :: _, offset, node => prtDistribution typeName plan offset node

/-- `prt_plan` of the plan below `op_executor`. -/
def prtPlan (plan : List RootOperator) : List (List Text) :=
  prtRow typeName .op_executor [] "server1".toList ::
    prtRoot typeName plan [' ', ' '] "server1".toList

/-- Other statements have no plan. -/
def explained (etcd : Etcd) (fresh : Nat → Nat → Nat → Int32) :
    Ast.TreeNode → Option (List RootOperator)
  | .select x => buildSelectPlan etcd x
  | .insert x => buildInsertPlan (fresh 0 0) etcd x
  | .delete x => buildDeletePlan etcd x
  | .update x => buildUpdatePlan fresh etcd x
  | _ => some []

def showPlan (etcd : Etcd) (fresh : Nat → Nat → Nat → Int32) (stmt : Ast.TreeNode) :
    Option (List (List Text)) := do
  let plan ← explained etcd fresh stmt
  pure (["Operators".toList, "Node".toList] :: prtPlan typeName plan)

end Explain

section Branches

/-- The variables that the branches fill in. -/
structure Output where
  okTxt : Text := []
  res : List Record := []
  resTxt : List (List Text) := []

/-- What unset cells hold while a statement is planned and while its plans are sent. -/
structure Unset where
  fresh : Nat → Nat → Nat → Int32
  sent : Nat → Nat → Nat → Int32

def execWrite (etcd : Etcd) (unset : Unset) (statement : Statement) : Option (Etcd × Output) := do
  let (etcd, res) ← execStatement etcd ⟨statement, unset.fresh, unset.sent 0⟩
  pure (etcd, { okTxt := "OK".toList, res })

/-- The branch of `Sql_execute_client` for a tree. -/
def execTree (typeName : OpType → Text) (etcd : Etcd) (unset : Unset) :
    Option Ast.TreeNode → Option (Etcd × Output)
  | some .showTables => some (etcd, { resTxt := showTables etcd })
  | some .showPartitions => do
      let resTxt ← showPartitions etcd
      pure (etcd, { resTxt })
  | some (.explain stmt) => do
      let resTxt ← showPlan typeName etcd unset.fresh stmt
      pure (etcd, { resTxt })
  | some (.select x) => do
      let plan ← buildSelectPlan etcd x
      let (etcd, res) ← execRoot unset.sent plan etcd
      pure (etcd, { res })
  | some (.createTable tabName fields parOpt) =>
      let (etcd, created) := createTable etcd (Ast.createTableOf tabName fields parOpt)
      some (etcd, { okTxt := if created then "OK".toList else "error".toList })
  | some (.insert x) => execWrite etcd unset (.insert x)
  | some (.delete x) => execWrite etcd unset (.delete x)
  | some (.update x) => execWrite etcd unset (.update x)
  | some .txnBegin | some .txnCommit | some .txnAbort => some (etcd, { okTxt := "OK".toList })
  | _ => some (etcd, {})

end Branches

section Texts

def formStream (valLen colNums : Nat) : Text :=
  (List.replicate colNums ('+' :: List.replicate (valLen - 1) '-')).flatten ++ ['+', '\n']

/-- `setw` with `ios::left`. -/
def setw (valLen : Nat) (tmp : Text) : Text := tmp ++ List.replicate (valLen - tmp.length) ' '

/-- One line of a table. -/
def printLine (valLen : Nat) (cells : List Text) : Text :=
  cells.flatMap (fun cell => setw valLen ('|' :: ' ' :: cell)) ++ ['|', '\n']

/-- The first row has as many cells as are printed of every row. -/
def rowCells (colNums : Nat) (row : Record) : Option (List Text) :=
  if colNums ≤ row.length then
    some ((row.take colNums).map fun cell => ofInt cell.str.toInt)
  else none

/-- The last loop copies the lines of the stream. -/
def tableToString (table : List Record) : Option Text := do
  let first ← table.head?
  let rows ← table.mapM (rowCells first.length)
  let form := formStream 20 first.length
  pure (form ++ (printLine 20 (first.map Value.colName) ++ (form ++
    (rows.flatMap (printLine 20) ++ form))))

def txtToString (resTxt : List (List Text)) : Option Text := do
  let first ← resTxt.head?
  let form := formStream 25 first.length
  pure (form ++ (printLine 25 first ++ (form ++ (resTxt.tail.flatMap (printLine 25) ++ form))))

/-- The text for the client. -/
def cliStr (output : Output) : Option Text :=
  if output.okTxt ≠ [] then some output.okTxt
  else if output.res.length ≠ 0 then tableToString output.res
  else if 1 < output.resTxt.length then txtToString output.resTxt
  else some "empty set \n".toList

/-- From the tree of a statement to the text of its answer. -/
def sqlAnswer (typeName : OpType → Text) (etcd : Etcd) (unset : Unset)
    (tree : Option Ast.TreeNode) : Option (Etcd × Text) := do
  let (etcd, output) ← execTree typeName etcd unset tree
  let text ← cliStr output
  pure (etcd, text)

end Texts

section Nodes

/-- The operators that read or write rows call `LockTable` before that. -/
def Operator.locks : Operator → Bool
  | .selection _ => false
  | _ => true

/-- The plans that are sent to nodes for a tree. -/
def sentPlans (etcd : Etcd) (fresh : Nat → Nat → Nat → Int32) :
    Option Ast.TreeNode → Option (List Chain)
  | some tree => (explained etcd fresh tree).map nodePlans
  | none => some []

/-- The lock calls of these plans. `LockTable` starts with the state of the transaction, and to
read it through a null pointer is undefined. -/
def lockNodes (txn : Option Transaction) (plans : List Chain) : Option Unit :=
  if plans.any (fun chain => chain.any Operator.locks) = true then txn.map fun _ => () else some ()

/-- From the tree to the text, where `txn` is the transaction of the operators at the nodes. They
are made by `ConvertIntoPlan`, which leaves it null. -/
def lockedAnswer (txn : Option Transaction) (typeName : OpType → Text) (etcd : Etcd)
    (unset : Unset) (tree : Option Ast.TreeNode) : Option (Etcd × Text) := do
  let plans ← sentPlans etcd unset.fresh tree
  let _ ← lockNodes txn plans
  sqlAnswer typeName etcd unset tree

end Nodes

end Sql

end RucDDBS
