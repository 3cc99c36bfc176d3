import RucDDBS.Engine.SqlReads
import RucDDBS.Library.Run

/-!
The engine is a database for the statements that it treats as written, as far as it gets. Started
without tables, it answers any such statements, one after the other, with the texts of the replies
that the database gives, and what is in etcd afterwards is what the database has become, exactly
if no lock call at a node reads a transaction through a null pointer. In the operators that come
from a message the pointer is null: there the statements that touch rows are undefined.
-/

namespace RucDDBS

namespace Relational

open Text

section Replies

inductive Reply where
  | ok
  | error
  | rows (names : List Text) (res : List (List Int32))
  | tables (names : List Text)
  | nothing

/-- A table as it is printed. -/
def tableText (valLen : Nat) (header : List Text) (lines : List (List Text)) : Text :=
  let form := Sql.formStream valLen header.length
  form ++ (Sql.printLine valLen header ++
    (form ++ (lines.flatMap (Sql.printLine valLen) ++ form)))

def cells (row : List Int32) : List Text := row.map fun n => ofInt n.toInt

def emptySet : Text := "empty set \n".toList

def Reply.text : Reply → Text
  | .ok => "OK".toList
  | .error => "error".toList
  | .rows names res => if res = [] then emptySet else tableText 20 names (res.map cells)
  | .tables names =>
      if names = [] then emptySet else tableText 25 ["Tables".toList] (names.map ([·]))
  | .nothing => emptySet

/-- What a statement is to be answered. The rows of a SELECT may come in any order. -/
def Answers (db : Database) : Ast.TreeNode → Reply → Prop
  | .createTable tabName _ _, reply => reply = if db tabName = none then .ok else .error
  | .insert _, reply | .delete _, reply | .update _, reply => reply = .ok
  | .txnBegin, reply | .txnCommit, reply => reply = .ok
  | .select x, reply => ∃ names res, Selected db x names res ∧ reply = .rows names res
  | .showTables, reply => ∃ names : List Text, names.Pairwise (· < ·) ∧
      (∀ name, name ∈ names ↔ db name ≠ none) ∧ reply = .tables names
  | _, reply => reply = .nothing

/-- The statements that are treated as they are written. ABORT is not one of them: it leaves
in etcd what the transaction has written. -/
def Supported (db : Database) : Ast.TreeNode → Prop
  | .createTable tabName fields parOpt => isIdentifier tabName = true ∧ (db tabName = none →
      (Ast.createTableOf tabName fields parOpt).Readable ∧
        OneSplit ((Ast.createTableOf tabName fields parOpt).parOpt.getD []))
  | .insert x => ∃ t key rest, db x.tabName = some t ∧
      x.vals = (key :: rest).map .intLit ∧ (key :: rest).length = t.columns.length ∧
        key.toInt < parMax.toInt
  | .delete x => ∃ t, db x.tabName = some t ∧ Remote (t.schema x.tabName) x.conds
  | .update x => ∃ t, db x.tabName = some t ∧ Remote (t.schema x.tabName) x.conds ∧
      Assigns t.columns x.setClauses
  | .select x => Readable db x
  | .help | .showTables | .txnBegin | .txnCommit => True
  | _ => False

end Replies

section Texts

variable {names : List Text} {records : List Record} {res : List (List Int32)}

theorem rowCells_shows {record : Record} {row : List Int32} (h : Shows names record row) :
    Sql.rowCells names.length record = some (cells row) := by
  obtain ⟨rfl, rfl⟩ := h
  rw [List.length_map, Sql.rowCells, if_pos (Nat.le_refl _), List.take_length, cells,
    Record.integers, List.map_map]
  rfl

theorem tableToString_shows (h : List.Forall₂ (Shows names) records res) (hne : records ≠ []) :
    Sql.tableToString records = some (tableText 20 names (res.map cells)) := by
  have hrows : records.mapM (Sql.rowCells names.length) = some (res.map cells) := by
    clear hne
    induction h with
    | nil => rfl
    | cons hshows _ ih =>
        rw [List.mapM_cons, rowCells_shows hshows, ih]
        rfl
  cases h with
  | nil => exact absurd rfl hne
  | @cons first _ records res hfirst hrest =>
      have hlength : first.length = names.length := by
        rw [← hfirst.1, List.length_map]
      rw [Sql.tableToString, List.head?_cons]
      dsimp only [Option.bind_eq_bind, Option.bind_some]
      rw [hlength, hrows, hfirst.1]
      rfl

theorem cliStr_shows (h : List.Forall₂ (Shows names) records res) :
    Sql.cliStr { res := records } = some (Reply.rows names res).text := by
  cases h with
  | nil => rfl
  | cons hfirst hrest =>
      have htable := tableToString_shows (.cons hfirst hrest) (List.cons_ne_nil _ _)
      exact htable

theorem cliStr_tables (names : List Text) :
    Sql.cliStr { resTxt := ["Tables".toList] :: names.map ([·]) } =
      some (Reply.tables names).text := by
  cases names with
  | nil => rfl
  | cons name names => rfl

end Texts

section Steps

variable {typeName : Sql.OpType → Text} {etcd etcd' : Etcd} {rows : RowStore} {db : Database}
  {tree : Ast.TreeNode} {unset : Sql.Unset}

/-- A statement is answered as the database answers it, and does what it does to the database. -/
def Simulates (typeName : Sql.OpType → Text) (etcd : Etcd) (unset : Sql.Unset) (db : Database)
    (tree : Ast.TreeNode) : Prop :=
  ∃ etcd' rows' reply, Sql.sqlAnswer typeName etcd unset (some tree) =
      some (etcd', Reply.text reply) ∧ Answers db tree reply ∧
    Represents etcd' rows' (apply db tree)

theorem sqlAnswer_of_exec {output : Sql.Output} {reply : Reply}
    (hexec : Sql.execTree typeName etcd unset (some tree) = some (etcd', output))
    (htext : Sql.cliStr output = some reply.text) :
    Sql.sqlAnswer typeName etcd unset (some tree) = some (etcd', reply.text) := by
  rw [Sql.sqlAnswer, hexec]
  exact congrArg (Option.bind · fun text => some (etcd', text)) htext

theorem simulates_write {statement : Statement} {res : List Record} {rows' : RowStore}
    (htree : Sql.execTree typeName etcd unset (some tree) = Sql.execWrite etcd unset statement)
    (hexec : execStatement etcd ⟨statement, unset.fresh, unset.sent 0⟩ = some (etcd', res))
    (hreply : Answers db tree .ok) (h : Represents etcd' rows' (apply db tree)) :
    Simulates typeName etcd unset db tree := by
  have houtput : Sql.execTree typeName etcd unset (some tree) =
      some (etcd', { okTxt := "OK".toList, res }) := by
    rw [htree, Sql.execWrite, hexec]
    rfl
  exact ⟨etcd', rows', .ok, sqlAnswer_of_exec houtput rfl, hreply, h⟩

theorem Represents.createTable (h : Represents etcd rows db) {tabName : Text}
    {fields : List Ast.Field} {parOpt : Option Ast.ParOpt}
    (hsupported : Supported db (.createTable tabName fields parOpt)) :
    Simulates typeName etcd unset db (.createTable tabName fields parOpt) := by
  obtain ⟨hidentifier, hnew⟩ := hsupported
  let tab : TableName := ⟨tabName, hidentifier⟩
  have hname : (Ast.createTableOf tabName fields parOpt).tabName = tab.name := rfl
  by_cases hnone : db tabName = none
  · obtain ⟨hread, hsplit⟩ := hnew hnone
    obtain ⟨etcd', hexec, hadded⟩ := h.added hnone hname hread hsplit
    have houtput : Sql.execTree typeName etcd unset (some (.createTable tabName fields parOpt)) =
        some (etcd', { okTxt := "OK".toList }) := by
      rw [Sql.execTree, hexec]
      rfl
    refine ⟨etcd', rows, .ok, sqlAnswer_of_exec houtput rfl, (if_pos hnone).symm, ?_⟩
    · have hcolumns : (Ast.createTableOf tabName fields parOpt).fields.map Ast.ColDef.colName =
          fields.map Ast.Field.colName := List.map_map
      rw [hcolumns] at hadded
      rw [apply_createTable hnone]
      exact hadded
  · have hexec : RucDDBS.createTable etcd (Ast.createTableOf tabName fields parOpt) =
        (etcd, false) := h.refused hnone hname
    have houtput : Sql.execTree typeName etcd unset (some (.createTable tabName fields parOpt)) =
        some (etcd, { okTxt := "error".toList }) := by
      rw [Sql.execTree, hexec]
      rfl
    refine ⟨etcd, rows, .error, sqlAnswer_of_exec houtput rfl, (if_neg hnone).symm, ?_⟩
    · have hdb : apply db (.createTable tabName fields parOpt) = db := if_neg hnone
      rw [hdb]
      exact h

def treeOf : Statement → Ast.TreeNode
  | .insert x => .insert x
  | .delete x => .delete x
  | .update x => .update x

/-- One statement that writes. -/
theorem Represents.written (h : Represents etcd rows db) (unset : Sql.Unset)
    (statement : Statement) (hsupported : Supported db (treeOf statement)) :
    ∃ etcd' rows' res, execStatement etcd ⟨statement, unset.fresh, unset.sent 0⟩ =
        some (etcd', res) ∧ Represents etcd' rows' (apply db (treeOf statement)) := by
  cases statement with
  | insert x =>
      obtain ⟨tabName, vals⟩ := x
      obtain ⟨t, key, rest, ht, hvals, hrow, hkey⟩ := hsupported
      dsimp only at ht hvals
      subst hvals
      obtain ⟨tab, create, rfl, hplaced⟩ := h.table ht
      rw [treeOf, apply_insert ht hrow]
      exact h.insert hplaced hkey hrow unset.fresh (unset.sent 0)
  | delete x =>
      obtain ⟨tabName, conds⟩ := x
      obtain ⟨t, ht, hconds⟩ := hsupported
      dsimp only at ht hconds
      obtain ⟨tab, create, rfl, hplaced⟩ := h.table ht
      rw [treeOf, apply_delete ht conds]
      exact h.delete hplaced hconds unset.fresh (unset.sent 0)
  | update x =>
      obtain ⟨tabName, clauses, conds⟩ := x
      obtain ⟨t, ht, hconds, hclauses⟩ := hsupported
      dsimp only at ht hconds hclauses
      obtain ⟨tab, create, rfl, hplaced⟩ := h.table ht
      have hfirst : ∀ clause ∈ clauses, t.columns.head? ≠ some clause.colName :=
        fun clause hclause => (hclauses clause hclause).1
      rw [treeOf, apply_update ht hfirst conds]
      exact h.update hplaced hconds hclauses unset.fresh (unset.sent 0)

/-- One statement. -/
theorem Represents.step (h : Represents etcd rows db) (typeName : Sql.OpType → Text)
    (unset : Sql.Unset) (hsupported : Supported db tree) :
    Simulates typeName etcd unset db tree := by
  cases tree with
  | createTable tabName fields parOpt => exact h.createTable hsupported
  | insert x =>
      obtain ⟨etcd', rows', res, hexec, hnew⟩ := h.written unset (.insert x) hsupported
      exact simulates_write rfl hexec rfl hnew
  | delete x =>
      obtain ⟨etcd', rows', res, hexec, hnew⟩ := h.written unset (.delete x) hsupported
      exact simulates_write rfl hexec rfl hnew
  | update x =>
      obtain ⟨etcd', rows', res, hexec, hnew⟩ := h.written unset (.update x) hsupported
      exact simulates_write rfl hexec rfl hnew
  | select x =>
      obtain ⟨plan, records, names, res, hplan, hexec, hselected, hshows⟩ :=
        h.select hsupported unset.sent
      refine ⟨etcd, rows, .rows names res, sqlAnswer_of_exec ?_ (cliStr_shows hshows),
        ⟨names, res, hselected, rfl⟩, h⟩
      rw [Sql.execTree, hplan]
      exact congrArg (Option.bind · fun last => some (last.1, ({ res := last.2 } : Sql.Output))) hexec
  | showTables =>
      obtain ⟨names, hsorted, hmem, htables⟩ := h.tables
      refine ⟨etcd, rows, .tables names, sqlAnswer_of_exec ?_ (cliStr_tables names),
        ⟨names, hsorted, hmem, rfl⟩, h⟩
      rw [Sql.execTree, htables]
  | txnBegin => exact ⟨etcd, rows, .ok, rfl, rfl, h⟩
  | txnCommit => exact ⟨etcd, rows, .ok, rfl, rfl, h⟩
  | help => exact ⟨etcd, rows, .nothing, rfl, rfl, h⟩
  | showPartitions | explain | txnAbort | txnRollback | dropTable | descTable | createIndex | dropIndex =>
      exact hsupported.elim

end Steps

section Nodes

/-- The statements that are executed at nodes. -/
def onRows : Ast.TreeNode → Bool
  | .select _ | .insert _ | .delete _ | .update _ => true
  | _ => false

variable {etcd : Etcd} {rows : RowStore} {db : Database} {tree : Ast.TreeNode}
  {plan : List RootOperator}

theorem any_locks {chain : Chain} (h : NodePlan chain) :
    chain.any Sql.Operator.locks = true := by
  cases h with
  | scan tab par => rfl
  | insert par hcells => rfl
  | delete tab par conds => rfl
  | update tab par conds hlength hvals => rfl

theorem lockNodes_of_nodePlan {plans : List Chain} (h : ∀ chain ∈ plans, NodePlan chain)
    (hne : plans ≠ []) (txn : Option Transaction) :
    Sql.lockNodes txn plans = txn.map fun _ => () := by
  obtain ⟨first, rest, rfl⟩ := List.exists_cons_of_ne_nil hne
  have hfirst : first.any Sql.Operator.locks = true := any_locks (h first List.mem_cons_self)
  rw [Sql.lockNodes, List.any_cons, hfirst]
  rfl

theorem nodePlans_ne_nil_of_distribute {parIps : List (Nat × Text)} (h : parIps ≠ [])
    (nodePlan : Nat → Chain) : nodePlans [.distribution (distribute parIps nodePlan)] ≠ [] := by
  rw [nodePlans_distribute]
  simpa using h

/-- A statement that writes is planned. -/
theorem Represents.planned (h : Represents etcd rows db) (unset : Sql.Unset)
    (statement : Statement) (hsupported : Supported db (treeOf statement)) :
    ∃ plan, Command.build ⟨statement, unset.fresh, unset.sent 0⟩ etcd = some plan := by
  obtain ⟨_, _, _, hexec, _⟩ := h.written unset statement hsupported
  obtain ⟨plan, hbuild, _⟩ := Option.bind_eq_some_iff.mp hexec
  exact ⟨plan, hbuild⟩

/-- A statement on rows is sent to some node. -/
theorem Represents.sent (h : Represents etcd rows db) (unset : Sql.Unset)
    (hsupported : Supported db tree) (hrows : onRows tree = true) :
    ∃ plan, Sql.explained etcd unset.fresh tree = some plan ∧ nodePlans plan ≠ [] ∧
      ∀ chain ∈ nodePlans plan, NodePlan chain := by
  cases tree with
  | insert x =>
      obtain ⟨plan, hbuild⟩ := h.planned unset (.insert x) hsupported
      refine ⟨plan, hbuild, ?_, nodePlan_of_insert hbuild⟩
      obtain ⟨_, _, par, ipAddress, _, _, _, rfl⟩ := buildInsertPlan_some hbuild
      exact List.cons_ne_nil _ _
  | delete x =>
      obtain ⟨plan, hbuild⟩ := h.planned unset (.delete x) hsupported
      refine ⟨plan, hbuild, ?_, nodePlan_of_delete hbuild⟩
      obtain ⟨parIps, hips, rfl⟩ := buildDeletePlan_some hbuild
      obtain ⟨t, ht, _⟩ := hsupported
      obtain ⟨tab, create, hname, hplaced⟩ := h.table ht
      rw [← hname] at hips
      exact nodePlans_ne_nil_of_distribute (hplaced.pars_ne_nil.1 hips) _
  | update x =>
      obtain ⟨plan, hbuild⟩ := h.planned unset (.update x) hsupported
      refine ⟨plan, hbuild, ?_, nodePlan_of_update hbuild⟩
      obtain ⟨parIps, sets, hips, _, rfl⟩ := buildUpdatePlan_some hbuild
      obtain ⟨t, ht, _⟩ := hsupported
      obtain ⟨tab, create, hname, hplaced⟩ := h.table ht
      rw [← hname] at hips
      exact nodePlans_ne_nil_of_distribute (hplaced.pars_ne_nil.2 hips) _
  | select x =>
      obtain ⟨plan, _, _, _, hbuild, _⟩ := h.select hsupported unset.sent
      refine ⟨plan, hbuild, ?_, nodePlan_of_select hbuild⟩
      obtain ⟨above, tables, htables, habove, rfl⟩ := buildSelectPlan_some hbuild
      obtain ⟨schema, res, scans, reads, hread⟩ := h.read hsupported.known unset.sent
      rw [hread.planned, Option.some.injEq] at htables
      subst htables
      rw [nodePlans_select _ habove]
      -- the first table has a partition
      have hname : x.tabs.head hsupported.tabs.1 ∈ x.tabs := List.head_mem _
      obtain ⟨t, ht⟩ := Option.ne_none_iff_exists'.mp (hsupported.known _ hname)
      obtain ⟨parIps, hips, hscan⟩ := (scanTables_some hread.planned).2 _ hname
      obtain ⟨tab, create, htab, hplaced⟩ := h.table ht
      rw [← htab] at hips
      have hne : (scanTable parIps (x.tabs.head hsupported.tabs.1)).nodesPlan ≠ [] := by
        simpa [scanTable, distribute] using hplaced.pars_ne_nil.2 hips
      obtain ⟨chain, hchain⟩ := List.exists_mem_of_ne_nil _ hne
      exact List.ne_nil_of_mem (List.mem_flatMap.mpr ⟨_, hscan, hchain⟩)
  | _ => cases hrows

/-- The lock calls are all that stands between a statement on rows and its answer. -/
theorem Represents.locked (h : Represents etcd rows db) (txn : Option Transaction)
    (typeName : Sql.OpType → Text) (unset : Sql.Unset) (hsupported : Supported db tree) :
    Sql.lockedAnswer txn typeName etcd unset (some tree) =
      if onRows tree = true ∧ txn = none then none
      else Sql.sqlAnswer typeName etcd unset (some tree) := by
  cases hrows : onRows tree with
  | true =>
      obtain ⟨plan, hplan, hne, hnodes⟩ := h.sent unset hsupported hrows
      have hlock := lockNodes_of_nodePlan hnodes hne txn
      rw [Sql.lockedAnswer, Sql.sentPlans, hplan]
      cases txn with
      | none => exact congrArg (Option.bind · _) hlock
      | some txn => exact congrArg (Option.bind · _) hlock
  | false =>
      cases tree with
      | select | insert | delete | update => cases hrows
      | _ => rfl

end Nodes

section Runs

/-- The database is asked a statement, and what unset cells hold does not matter to it. -/
def Asks (db : Database) (asked : Sql.Unset × Ast.TreeNode) (db' : Database) : Prop :=
  Supported db asked.2 ∧ db' = apply db asked.2

/-- The engine on a statement. -/
def answer (txn : Option Transaction) (typeName : Sql.OpType → Text) (etcd : Etcd)
    (asked : Sql.Unset × Ast.TreeNode) : Option (Etcd × Text) :=
  Sql.lockedAnswer txn typeName etcd asked.1 (some asked.2)

/-- The database answers the statements one after the other. -/
abbrev AnswersRun := Lts.Run fun db (x : (Sql.Unset × Ast.TreeNode) × Reply) db' =>
  Asks db x.1 db' ∧ Answers db x.1.2 x.2

variable {etcd : Etcd} {rows : RowStore} {db db' : Database}
  {statements : List (Sql.Unset × Ast.TreeNode)}

theorem Represents.run (h : Represents etcd rows db) (txn : Option Transaction)
    (typeName : Sql.OpType → Text) (hrun : Lts.Run Asks db statements db') :
    (∃ etcd' answered, Lts.exec (answer txn typeName) etcd statements =
        some (etcd', answered.map fun x => x.2.text) ∧
      answered.map Prod.fst = statements ∧ AnswersRun db answered db' ∧
      ∃ rows', Represents etcd' rows' db') ↔
      ∀ asked ∈ statements, onRows asked.2 = true → txn ≠ none := by
  have hstep (etcd : Etcd) (db : Database) (asked : Sql.Unset × Ast.TreeNode) (db' : Database)
      (h : ∃ rows, Represents etcd rows db) (hasks : Asks db asked db')
      (hok : onRows asked.2 = true → txn ≠ none) :
      ∃ etcd' reply, answer txn typeName etcd asked = some (etcd', Reply.text reply) ∧
        Answers db asked.2 reply ∧ ∃ rows', Represents etcd' rows' db' := by
    obtain ⟨rows, h⟩ := h
    obtain ⟨hsupported, rfl⟩ := hasks
    obtain ⟨etcd', rows', reply, hanswer, hreply, hnew⟩ := h.step typeName asked.1 hsupported
    refine ⟨etcd', reply, ?_, hreply, rows', hnew⟩
    rw [answer, h.locked txn typeName asked.1 hsupported, if_neg (not_and.mpr hok)]
    exact hanswer
  have hstuck (etcd : Etcd) (db : Database) (asked : Sql.Unset × Ast.TreeNode) (db' : Database)
      (h : ∃ rows, Represents etcd rows db) (hasks : Asks db asked db')
      (hnot : ¬ (onRows asked.2 = true → txn ≠ none)) :
      answer txn typeName etcd asked = none := by
    obtain ⟨rows, h⟩ := h
    rw [answer, h.locked txn typeName asked.1 hasks.1, if_pos (by simpa using hnot)]
  exact Lts.exec_iff_of_run _ _ hstep hstuck hrun ⟨rows, h⟩

/-- Started without tables and rows, the engine answers all that it treats as written like the
database, and keeps what the database has become, exactly if statements on rows have a transaction
at their nodes. -/
theorem sql_refines (txn : Option Transaction) (typeName : Sql.OpType → Text)
    (hrows : NoStoreData etcd) (htables : ∀ name, etcd.get (ipKey name) = none)
    (hrun : Lts.Run Asks (fun _ => none) statements db) :
    (∃ etcd' answered, Lts.exec (answer txn typeName) etcd statements =
        some (etcd', answered.map fun x => x.2.text) ∧
      answered.map Prod.fst = statements ∧ AnswersRun (fun _ => none) answered db ∧
      ∃ rows, Represents etcd' rows db) ↔
      ∀ asked ∈ statements, onRows asked.2 = true → txn ≠ none :=
  (represents_empty hrows htables).run txn typeName hrun

/-- `create table t(a int, b int) partition by range(a)(partition less than(100));` and then
`insert into t values(5, 1);`, `insert into t values(200, 2);`,
`update t set b = 7 where t.b = 1;`, `delete from t where t.b = 2;`,
`select t.b from t where t.a = 5;` and `show tables;` -/
def tableStatements : List Ast.TreeNode :=
  [.createTable ['t'] [⟨['a'], ⟨.int, 4⟩⟩, ⟨['b'], ⟨.int, 4⟩⟩] (some ⟨['a'], [⟨100⟩]⟩),
    .insert ⟨['t'], [5, 1].map .intLit⟩, .insert ⟨['t'], [200, 2].map .intLit⟩,
    .update ⟨['t'], [⟨['b'], .intLit 7⟩], [⟨⟨['t'], ['b']⟩, .eq, .val (.intLit 1)⟩]⟩,
    .delete ⟨['t'], [⟨⟨['t'], ['b']⟩, .eq, .val (.intLit 2)⟩]⟩,
    .select ⟨[⟨['t'], ['b']⟩], [['t']], [⟨⟨['t'], ['a']⟩, .eq, .val (.intLit 5)⟩]⟩,
    .showTables]

def tableAsked : List (Sql.Unset × Ast.TreeNode) :=
  tableStatements.map fun tree => (⟨fun _ _ _ => 0, fun _ _ _ => 0⟩, tree)

theorem equates_int {schema : List Ast.Col} {col : Ast.Col} (hsingle : col.Single schema)
    (htab : col.tabName ≠ []) (n : Int32) : Equates schema ⟨col, .eq, .val (.intLit n)⟩ :=
  ⟨rfl, ⟨hsingle, htab⟩, .inl ⟨n, rfl⟩⟩

theorem tableAsked_run : ∃ db, Lts.Run Asks (fun _ => none) tableAsked db := by
  refine ⟨_, .cons ⟨?_, rfl⟩ (.cons ⟨?_, rfl⟩ (.cons ⟨?_, rfl⟩ (.cons ⟨?_, rfl⟩
    (.cons ⟨?_, rfl⟩ (.cons ⟨?_, rfl⟩ (.cons ⟨?_, rfl⟩ (.nil _)))))))⟩
  · have hname {c : Char} (hblank : c.isWhitespace = false) (hcomma : c ≠ ',') :
        IsName [c] := by
      refine ⟨⟨List.cons_ne_nil _ _, ?_⟩, ?_, by simp⟩
      · exact List.forall_mem_singleton.mpr hblank
      · exact List.forall_mem_singleton.mpr hcomma
    refine ⟨rfl, fun _ => ⟨⟨List.cons_ne_nil _ _, ?_⟩, 100, by decide, by decide, ?_⟩⟩
    · simp only [Ast.createTableOf, List.map_cons, List.map_nil, List.forall_mem_cons]
      exact ⟨hname rfl (by decide), hname rfl (by decide), nofun⟩
    · exact List.forall_mem_singleton.mpr (.inr (.inl rfl))
  · exact ⟨_, 5, [1], rfl, rfl, rfl, by decide⟩
  · exact ⟨_, 200, [2], rfl, rfl, rfl, by decide⟩
  · refine ⟨_, rfl, ?_, ?_⟩
    · exact List.forall_mem_singleton.mpr ⟨equates_int (by rfl) (by decide) 1, 1, rfl⟩
    · exact List.forall_mem_singleton.mpr ⟨by decide, 7, rfl⟩
  · refine ⟨_, rfl, ?_⟩
    exact List.forall_mem_singleton.mpr ⟨equates_int (by rfl) (by decide) 2, 2, rfl⟩
  · constructor
    · exact ⟨List.cons_ne_nil _ _, by decide⟩
    · exact List.forall_mem_singleton.mpr nofun
    · exact List.forall_mem_singleton.mpr (equates_int (by rfl) (by decide) 5)
    · exact List.forall_mem_singleton.mpr rfl
    · exact List.pairwise_singleton _ _
  · trivial

end Runs

end Relational

end RucDDBS
