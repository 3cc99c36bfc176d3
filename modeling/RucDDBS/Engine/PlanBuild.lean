import RucDDBS.Engine.MetaData

/-!
The plan builders: from a statement and the metadata of its table to the operators
below `op_executor`. The first column is the partition key. An insert goes to the
partition of its key; the other statements ask for the partitions of two fixed
numbers, 0 and 10000000 for a delete, -10000 and 10000 for an update or a select.
-/

namespace RucDDBS

open Text

/-- The cells of the row to insert. `none` if there are more values than columns.
`fresh` is what the cells that `interp_value` allocates hold. -/
def insertRow (tabName : Text) : (Nat → Int32) → List Ast.Value → List Text → Option Record
  | _, [], _ => some []
  | _, _ :: _, [] => none
  | fresh, val :: vals, colName :: names => do
      let row ← insertRow tabName (fresh ∘ Nat.succ) vals names
      pure ({ colName, tabName, str := (interpValue (fresh 0) val).str } :: row)

/-- `build_insert_plan`. Of the partitions found the first is taken; it is
undefined in the source to take it where there is none. -/
def buildInsertPlan (fresh : Nat → Int32) (etcd : Etcd) (insertTree : Ast.InsertStmt) :
    Option (List RootOperator) := do
  let tabName := insertTree.tabName
  let colInfo ← getColInfo etcd tabName
  let row ← insertRow tabName fresh insertTree.vals colInfo.columnName
  let _ ← colInfo.columnName.head?
  let key ← row.head?
  let parIps ← getTableIp etcd tabName (ofInt key.str.toInt) (ofInt key.str.toInt)
  let (par, ipAddress) ← parIps.head?
  pure [.distribution ⟨[[.insert tabName par row]], [ipAddress]⟩]

/-- The selections of a statement over a scan of one partition. -/
def filteredScan (conds : List Ast.BinaryExpr) (tabName : Text) (par : Nat) : Chain :=
  conds.map .selection ++ [.tablescan tabName par]

/-- One node plan for each partition. -/
def distribute (parIps : List (Nat × Text)) (nodePlan : Nat → Chain) : Distribution :=
  ⟨parIps.map fun iter => nodePlan iter.1, parIps.map Prod.snd⟩

/-- `build_delete_plan`. -/
def buildDeletePlan (etcd : Etcd) (deleteTree : Ast.DeleteStmt) : Option (List RootOperator) := do
  let tabName := deleteTree.tabName
  let colInfo ← getColInfo etcd tabName
  let _ ← colInfo.columnName.head?
  let parIps ← getTableIp etcd tabName (ofInt 0) (ofInt 10000000)
  pure [.distribution (distribute parIps fun par =>
    .delete tabName par :: filteredScan deleteTree.conds tabName par)]

/-- The range for which `GetTableIp` is asked where nothing else is given. -/
def getTableIpDefault (etcd : Etcd) (tabName : Text) : Option (List (Nat × Text)) :=
  getTableIp etcd tabName (ofInt (-10000)) (ofInt 10000)

/-- The indices and values of the set clauses, one pair for each column that has the
name of the clause. -/
def setColumns (fresh : Nat → Nat → Int32) (setClauses : List Ast.SetClause)
    (columnName : List Text) : List (Nat × Value) :=
  setClauses.zipIdx.flatMap fun setCol =>
    (columnName.zipIdx.filter fun col => setCol.1.colName = col.1).map fun col =>
      (col.2, interpValue (fresh setCol.2 col.2) setCol.1.val)

/-- `build_update_plan`. The values of the set clauses are interpreted anew for each
partition. -/
def buildUpdatePlan (fresh : Nat → Nat → Nat → Int32) (etcd : Etcd) (updateTree : Ast.UpdateStmt) :
    Option (List RootOperator) := do
  let tabName := updateTree.tabName
  let colInfo ← getColInfo etcd tabName
  let _ ← colInfo.columnName.head?
  let parIps ← getTableIpDefault etcd tabName
  pure [.distribution (distribute parIps fun par =>
    let sets := setColumns (fresh par) updateTree.setClauses colInfo.columnName
    .update tabName par (sets.map Prod.fst) (sets.map Prod.snd) ::
      filteredScan updateTree.conds tabName par)]

/-- A scan of each partition of a table. -/
def scanTable (parIps : List (Nat × Text)) (tabName : Text) : Distribution :=
  distribute parIps fun par => [.tablescan tabName par]

/-- The distributions of the tables of a select, table by table; `some none` if a
table has no partition, where the builder logs an error and leaves the plan as it
is. -/
def scanTables (etcd : Etcd) : List Text → Option (Option (List Distribution))
  | [] => some (some [])
  | tab :: tabs => do
      let colInfo ← getColInfo etcd tab
      let _ ← colInfo.columnName.head?
      let parIps ← getTableIpDefault etcd tab
      if parIps = [] then pure none
      else do
        let tables ← scanTables etcd tabs
        pure (tables.map (scanTable parIps tab :: ·))

/-- One table is read as it is, several are joined. -/
def readTables : List Distribution → List RootOperator
  | [table] => [.distribution table]
  | tables => [.join tables]

/-- `build_select_plan`: projection and selections stay on this node. The message
about a statement without a table reads its first table. -/
def buildSelectPlan (etcd : Etcd) (selectTree : Ast.SelectStmt) : Option (List RootOperator) := do
  let projection := if selectTree.cols = [] then [] else [RootOperator.projection selectTree.cols]
  let above := projection ++ selectTree.conds.map .selection
  if selectTree.tabs = [] then none
  else do
    let tables ← scanTables etcd selectTree.tabs
    pure (above ++ (tables.map readTables).getD [])

def RootOperator.distributions : RootOperator → List Distribution
  | .join tablesGet => tablesGet
  | .distribution plan => [plan]
  | _ => []

/-- Every plan that some node is sent. -/
def nodePlans (plan : List RootOperator) : List Chain :=
  (plan.flatMap RootOperator.distributions).flatMap Distribution.nodesPlan

section Inversion

variable {etcd : Etcd} {plan : List RootOperator}

theorem insertRow_tabName {tabName : Text} {fresh : Nat → Int32} {vals : List Ast.Value}
    {names : List Text} {row : Record} (h : insertRow tabName fresh vals names = some row) :
    ∀ cell ∈ row, cell.tabName = tabName := by
  induction vals generalizing fresh names row with
  | nil =>
      simp only [insertRow, Option.some.injEq] at h
      subst h
      simp
  | cons val vals ih =>
      cases names with
      | nil => cases h
      | cons colName names =>
          simp only [insertRow, Option.bind_eq_bind, Option.bind_eq_some_iff, Option.pure_def,
            Option.some.injEq] at h
          obtain ⟨rest, hrest, rfl⟩ := h
          intro cell hcell
          rcases List.mem_cons.mp hcell with rfl | hmem
          · rfl
          · exact ih hrest cell hmem

/-- An insert that could be planned goes to the first partition that was found for
its first value. -/
theorem buildInsertPlan_some {fresh : Nat → Int32} {insertTree : Ast.InsertStmt}
    (h : buildInsertPlan fresh etcd insertTree = some plan) :
    ∃ key row par ipAddress rest,
      getTableIp etcd insertTree.tabName (ofInt key.str.toInt) (ofInt key.str.toInt) =
        some ((par, ipAddress) :: rest) ∧
      (∀ cell ∈ key :: row, cell.tabName = insertTree.tabName) ∧
      plan = [.distribution ⟨[[.insert insertTree.tabName par (key :: row)]], [ipAddress]⟩] := by
  simp only [buildInsertPlan, Option.bind_eq_bind, Option.bind_eq_some_iff, Option.pure_def,
    Option.some.injEq, Prod.exists] at h
  obtain ⟨_, _, row, hrow, _, _, key, hkey, parIps, hips, par, ipAddress, hfirst, rfl⟩ := h
  obtain ⟨tail, rfl⟩ := List.head?_eq_some_iff.mp hkey
  obtain ⟨rest, rfl⟩ := List.head?_eq_some_iff.mp hfirst
  exact ⟨key, tail, par, ipAddress, rest, hips, insertRow_tabName hrow, rfl⟩

theorem buildDeletePlan_some {deleteTree : Ast.DeleteStmt}
    (h : buildDeletePlan etcd deleteTree = some plan) :
    ∃ parIps, getTableIp etcd deleteTree.tabName (ofInt 0) (ofInt 10000000) = some parIps ∧
      plan = [.distribution (distribute parIps fun par => .delete deleteTree.tabName par ::
        filteredScan deleteTree.conds deleteTree.tabName par)] := by
  simp only [buildDeletePlan, Option.bind_eq_bind, Option.bind_eq_some_iff, Option.pure_def,
    Option.some.injEq] at h
  obtain ⟨_, _, _, _, parIps, hips, rfl⟩ := h
  exact ⟨parIps, hips, rfl⟩

/-- The indices and values of an update come in pairs, and no value has names. -/
theorem setColumns_plain (fresh : Nat → Nat → Int32) (setClauses : List Ast.SetClause)
    (columnName : List Text) :
    ∀ cell ∈ (setColumns fresh setClauses columnName).map Prod.snd, cell = { str := cell.str } := by
  intro cell hcell
  obtain ⟨pair, hpair, rfl⟩ := List.mem_map.mp hcell
  obtain ⟨setCol, _, hset⟩ := List.mem_flatMap.mp hpair
  obtain ⟨col, _, rfl⟩ := List.mem_map.mp hset
  cases setCol.1.val <;> rfl

theorem buildUpdatePlan_some {fresh : Nat → Nat → Nat → Int32} {updateTree : Ast.UpdateStmt}
    (h : buildUpdatePlan fresh etcd updateTree = some plan) :
    ∃ parIps, ∃ sets : Nat → List (Nat × Value),
      getTableIpDefault etcd updateTree.tabName = some parIps ∧
      (∀ par, ∀ cell ∈ (sets par).map Prod.snd, cell = { str := cell.str }) ∧
      plan = [.distribution (distribute parIps fun par =>
        .update updateTree.tabName par ((sets par).map Prod.fst) ((sets par).map Prod.snd) ::
          filteredScan updateTree.conds updateTree.tabName par)] := by
  simp only [buildUpdatePlan, Option.bind_eq_bind, Option.bind_eq_some_iff, Option.pure_def,
    Option.some.injEq] at h
  obtain ⟨colInfo, _, _, _, parIps, hips, rfl⟩ := h
  exact ⟨parIps, fun par => setColumns (fresh par) updateTree.setClauses colInfo.columnName, hips,
    fun par => setColumns_plain _ _ _, rfl⟩

/-- The tables of a select are scanned one by one. -/
theorem scanTables_some {tabs : List Text} {tables : List Distribution}
    (h : scanTables etcd tabs = some (some tables)) :
    (∀ table ∈ tables, ∃ tab parIps, table = scanTable parIps tab) ∧
      ∀ tab ∈ tabs, ∃ parIps, getTableIpDefault etcd tab = some parIps ∧
        scanTable parIps tab ∈ tables := by
  induction tabs generalizing tables with
  | nil =>
      simp only [scanTables, Option.some.injEq] at h
      subst h
      simp
  | cons tab tabs ih =>
      simp only [scanTables, Option.bind_eq_bind, Option.bind_eq_some_iff, Option.pure_def] at h
      obtain ⟨_, _, _, _, parIps, hips, h⟩ := h
      split at h
      · simp at h
      · obtain ⟨rest, hrest, htables⟩ := Option.bind_eq_some_iff.mp h
        simp only [Option.some.injEq, Option.map_eq_some_iff] at htables
        obtain ⟨tail, rfl, rfl⟩ := htables
        obtain ⟨hscan, hfound⟩ := ih hrest
        constructor
        · intro table htable
          rcases List.mem_cons.mp htable with rfl | hmem
          · exact ⟨tab, parIps, rfl⟩
          · exact hscan table hmem
        · intro tab' htab
          rcases List.mem_cons.mp htab with rfl | hmem
          · exact ⟨parIps, hips, List.mem_cons_self⟩
          · obtain ⟨parIps', hips', htable⟩ := hfound tab' hmem
            exact ⟨parIps', hips', List.mem_cons_of_mem _ htable⟩

@[simp] theorem distributions_readTables (tables : List Distribution) :
    (readTables tables).flatMap RootOperator.distributions = tables := by
  unfold readTables
  split
  · rfl
  · simp [RootOperator.distributions]

/-- The tables of a select stand below its projection and its selections. -/
theorem buildSelectPlan_some {selectTree : Ast.SelectStmt}
    (h : buildSelectPlan etcd selectTree = some plan) :
    ∃ above tables, scanTables etcd selectTree.tabs = some tables ∧
      (∀ op ∈ above, (∃ cols, op = .projection cols) ∨ ∃ cond, op = .selection cond) ∧
      plan = above ++ (tables.map readTables).getD [] := by
  simp only [buildSelectPlan, Option.bind_eq_bind, Option.pure_def] at h
  split at h
  · cases h
  · obtain ⟨tables, htables, heq⟩ := Option.bind_eq_some_iff.mp h
    refine ⟨_, tables, htables, ?_, (Option.some.inj heq).symm⟩
    intro op hop
    rcases List.mem_append.mp hop with hproj | hsel
    · split at hproj
      · cases hproj
      · exact .inl ⟨_, List.mem_singleton.mp hproj⟩
    · obtain ⟨cond, _, rfl⟩ := List.mem_map.mp hsel
      exact .inr ⟨cond, rfl⟩

/-- Projection and selections are not sent anywhere. -/
theorem nodePlans_select {above : List RootOperator} (tables : Option (List Distribution))
    (h : ∀ op ∈ above, (∃ cols, op = .projection cols) ∨ ∃ cond, op = .selection cond) :
    nodePlans (above ++ (tables.map readTables).getD []) =
      (tables.getD []).flatMap Distribution.nodesPlan := by
  have habove : above.flatMap RootOperator.distributions = [] := by
    rw [List.flatMap_eq_nil_iff]
    intro op hop
    rcases h op hop with ⟨cols, rfl⟩ | ⟨cond, rfl⟩
    · rfl
    · rfl
  rw [nodePlans, List.flatMap_append, habove, List.nil_append]
  cases tables with
  | none => rfl
  | some tables => exact congrArg _ (distributions_readTables tables)

end Inversion

section NodePlans

variable {etcd : Etcd} {plan : List RootOperator}

theorem nodePlans_distribute (parIps : List (Nat × Text)) (nodePlan : Nat → Chain) :
    nodePlans [.distribution (distribute parIps nodePlan)] =
      (parIps.map Prod.fst).map nodePlan := by
  simp [nodePlans, RootOperator.distributions, distribute]

theorem nodePlan_of_insert {fresh : Nat → Int32} {insertTree : Ast.InsertStmt}
    (h : buildInsertPlan fresh etcd insertTree = some plan) :
    ∀ chain ∈ nodePlans plan, NodePlan chain := by
  obtain ⟨key, row, par, ipAddress, rest, _, hrow, rfl⟩ := buildInsertPlan_some h
  intro chain hchain
  have heq : chain = [.insert insertTree.tabName par (key :: row)] := by
    simpa [nodePlans, RootOperator.distributions] using hchain
  rw [heq]
  exact .insert par hrow

theorem nodePlan_of_delete {deleteTree : Ast.DeleteStmt}
    (h : buildDeletePlan etcd deleteTree = some plan) : ∀ chain ∈ nodePlans plan, NodePlan chain := by
  obtain ⟨parIps, _, rfl⟩ := buildDeletePlan_some h
  intro chain hchain
  rw [nodePlans_distribute] at hchain
  obtain ⟨par, _, rfl⟩ := List.mem_map.mp hchain
  exact .delete deleteTree.tabName par deleteTree.conds

theorem nodePlan_of_update {fresh : Nat → Nat → Nat → Int32} {updateTree : Ast.UpdateStmt}
    (h : buildUpdatePlan fresh etcd updateTree = some plan) :
    ∀ chain ∈ nodePlans plan, NodePlan chain := by
  obtain ⟨parIps, sets, _, hplain, rfl⟩ := buildUpdatePlan_some h
  intro chain hchain
  rw [nodePlans_distribute] at hchain
  obtain ⟨par, _, rfl⟩ := List.mem_map.mp hchain
  exact .update updateTree.tabName par updateTree.conds (by simp) (hplain par)

theorem nodePlan_of_select {selectTree : Ast.SelectStmt}
    (h : buildSelectPlan etcd selectTree = some plan) : ∀ chain ∈ nodePlans plan, NodePlan chain := by
  obtain ⟨above, tables, htables, habove, rfl⟩ := buildSelectPlan_some h
  intro chain hchain
  rw [nodePlans_select tables habove] at hchain
  obtain ⟨table, htable, hmem⟩ := List.mem_flatMap.mp hchain
  cases tables with
  | none => cases htable
  | some tables =>
      obtain ⟨tab, parIps, rfl⟩ := (scanTables_some htables).1 table htable
      obtain ⟨iter, _, rfl⟩ := List.mem_map.mp hmem
      exact .scan tab iter.1

end NodePlans

end RucDDBS
