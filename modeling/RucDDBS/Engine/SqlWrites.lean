import RucDDBS.Engine.PartitionRows
import RucDDBS.Engine.Routing

/-!
How a database is kept in etcd: a table is the metadata that CREATE TABLE wrote and the rows of
its partitions, each row in the partition that its key was routed to. The statements that write
keep this correspondence, if every partition of a table is one that they visit.
-/

namespace RucDDBS

namespace Relational

open Text Sharding

section Homes

/-- The partition that an INSERT of the key goes to. -/
def home (create : Ast.CreateTable) (key : Int32) : Option Nat :=
  (hitPartitions create.parVals key.toInt key.toInt).head?.map Prod.fst

def deletePars (create : Ast.CreateTable) : List Nat :=
  (hitPartitions create.parVals 0 10000000).map Prod.fst

/-- The partitions that an UPDATE or a SELECT visits. -/
def readPars (create : Ast.CreateTable) : List Nat :=
  (hitPartitions create.parVals (-10000) 10000).map Prod.fst

variable {create : Ast.CreateTable} {key : Int32} {par : Nat}

/-- Where the bounds split the keys once, every statement visits the home of a key. -/
theorem home_visited (hsplit : OneSplit (create.parOpt.getD [])) (h : home create key = some par) :
    par ∈ deletePars create ∧ par ∈ readPars create := by
  obtain ⟨⟨_, ipAddress⟩, hfirst, rfl⟩ := Option.map_eq_some_iff.mp h
  obtain ⟨r, hr, hin⟩ := (mem_hitPartitions.mp (List.mem_of_head? hfirst)).1
  obtain ⟨hread, hdelete⟩ := hit_of_oneSplit hsplit (List.mem_of_getElem? hr)
    ((or_self_iff).mp hin)
  exact ⟨List.mem_map.mpr ⟨(_, ip _), mem_hitPartitions.mpr ⟨⟨r, hr, hdelete⟩, rfl⟩, rfl⟩,
    List.mem_map.mpr ⟨(_, ip _), mem_hitPartitions.mpr ⟨⟨r, hr, hread⟩, rfl⟩, rfl⟩⟩

/-- Every key but the greatest has a home. -/
theorem exists_home (hkey : key.toInt < parMax.toInt) : ∃ par, home create key = some par := by
  obtain ⟨r, hr, hin⟩ := exists_range create key.minValue_le_toInt hkey
  obtain ⟨i, hi⟩ := List.mem_iff_getElem?.mp hr
  have hmem : (i, ip i) ∈ hitPartitions create.parVals key.toInt key.toInt :=
    mem_hitPartitions.mpr ⟨⟨r, hi, .inl hin⟩, rfl⟩
  obtain ⟨⟨par, ipAddress⟩, rest, hhit⟩ := List.exists_cons_of_ne_nil (List.ne_nil_of_mem hmem)
  exact ⟨par, by rw [home, hhit]; rfl⟩

theorem deletePars_ne_nil (hsplit : OneSplit (create.parOpt.getD [])) : deletePars create ≠ [] := by
  obtain ⟨par, hhome⟩ : ∃ par, home create 0 = some par := exists_home (by decide)
  exact List.ne_nil_of_mem (home_visited hsplit hhome).1

theorem readPars_ne_nil (create : Ast.CreateTable) : readPars create ≠ [] := by
  obtain ⟨r, hr, hin⟩ : ∃ r ∈ Ranges.cuts (boundInts create.parVals), Ranges.In 10000 r :=
    exists_range create (by decide) (by decide)
  obtain ⟨i, hi⟩ := List.mem_iff_getElem?.mp hr
  exact List.ne_nil_of_mem
    (List.mem_map.mpr ⟨(i, ip i), mem_hitPartitions.mpr ⟨⟨r, hi, .inr hin⟩, rfl⟩, rfl⟩)

end Homes

section Correspondence

/-- A table of the database, as it is kept in etcd. -/
structure Placed (etcd : Etcd) (rows : RowStore) (tab : TableName) (t : Table)
    (create : Ast.CreateTable) : Prop where
  name : create.tabName = tab.name
  created : Created etcd create
  readable : create.Readable
  split : OneSplit (create.parOpt.getD [])
  columns : t.columns = create.fields.map Ast.ColDef.colName
  homed : Homed (home create) (rows.shard tab)
  rows : t.rows = whole (home create) (rows.shard tab)

/-- The database as it is kept in etcd. -/
structure Represents (etcd : Etcd) (rows : RowStore) (db : Database) : Prop where
  stored : Stores etcd rows
  names : ∀ name, db name ≠ none → isIdentifier name = true
  missing : ∀ name, db name = none → etcd.get (ipKey name) = none
  unused : ∀ tab : TableName, db tab.name = none → rows.shard tab = fun _ _ => none
  placed : ∀ (tab : TableName) (t : Table), db tab.name = some t →
    ∃ create, Placed etcd rows tab t create

variable {etcd etcd' : Etcd} {rows rows' : RowStore} {tab : TableName} {t t' : Table}
  {create : Ast.CreateTable} {db : Database}

theorem meta_not_storeData (name : Text) : storeData.isPrefixOf (ipKey name) = false ∧
    storeData.isPrefixOf (parKey name) = false ∧ storeData.isPrefixOf (colKey name) = false := by
  have hne {key : Text} (h : storeData.isPrefixOf key = true) := meta_ne_of_storeData h name
  refine ⟨?_, ?_, ?_⟩
  · rw [← Bool.not_eq_true]
    exact fun h => (hne h).1 rfl
  · rw [← Bool.not_eq_true]
    exact fun h => (hne h).2.1 rfl
  · rw [← Bool.not_eq_true]
    exact fun h => (hne h).2.2 rfl

theorem created_of_sameMeta (h : Created etcd create) (hmeta : SameMeta etcd etcd') :
    Created etcd' create := by
  obtain ⟨hip, hpar, hcol⟩ := meta_not_storeData create.tabName
  refine ⟨?_, ?_, ?_⟩
  · rw [etcdGet, hmeta _ hip]
    exact h.ipAddress
  · rw [etcdGet, hmeta _ hpar]
    exact h.parInfo
  · rw [etcdGet, hmeta _ hcol]
    exact h.colInfo

theorem Placed.getColInfo (h : Placed etcd rows tab t create) :
    ∃ info, getColInfo etcd tab.name = some info ∧ info.columnName = t.columns := by
  refine ⟨_, h.name ▸ getColInfo_created h.created h.readable, ?_⟩
  rw [h.columns, Ast.CreateTable.columns, List.map_map]
  rfl

theorem Placed.kept (h : Placed etcd rows tab t create) (hstored : Stores etcd rows) :
    Kept tab t.columns etcd rows where
  stored := hstored
  info := h.getColInfo
  keyed := by
    intro par key row hrow
    apply t.keyed
    rw [h.rows, h.homed.whole_eq_some_iff]
    exact ⟨par, hrow⟩

/-- The first column of a table is found. -/
theorem Placed.first (h : Placed etcd rows tab t create) : ∃ name, t.columns.head? = some name := by
  obtain ⟨field, fields, hfields⟩ := List.exists_cons_of_ne_nil h.readable.fields
  exact ⟨field.colName, by rw [h.columns, hfields]; rfl⟩

theorem Placed.getTableIp (h : Placed etcd rows tab t create) (min max : Int) :
    getTableIp etcd tab.name (ofInt min) (ofInt max) =
      some (hitPartitions create.parVals min max) := by
  rw [← h.name]
  exact getTableIp_created h.created min max

/-- What is said of a table does not depend on the others. -/
theorem Placed.congr (h : Placed etcd rows tab t create) (hcreated : Created etcd' create)
    (hshard : rows'.shard tab = rows.shard tab) : Placed etcd' rows' tab t create where
  name := h.name
  created := hcreated
  readable := h.readable
  split := h.split
  columns := h.columns
  homed := by
    rw [hshard]
    exact h.homed
  rows := by
    rw [hshard]
    exact h.rows

/-- Every table of the database is in etcd. -/
theorem Represents.table (h : Represents etcd rows db) {name : Text} (ht : db name = some t) :
    ∃ tab : TableName, ∃ create, tab.name = name ∧ Placed etcd rows tab t create := by
  have hne : db name ≠ none := by
    rw [ht]
    exact Option.some_ne_none t
  obtain ⟨create, hplaced⟩ := h.placed ⟨name, h.names name hne⟩ t ht
  exact ⟨_, create, rfl, hplaced⟩

/-- Statements that are not about one key find a partition. -/
theorem Placed.pars_ne_nil (h : Placed etcd rows tab t create) {parIps : List (Nat × Text)} :
    (RucDDBS.getTableIp etcd tab.name (ofInt 0) (ofInt 10000000) = some parIps → parIps ≠ []) ∧
      (getTableIpDefault etcd tab.name = some parIps → parIps ≠ []) := by
  constructor
  · intro hips heq
    rw [h.getTableIp, Option.some.injEq] at hips
    rw [heq] at hips
    exact deletePars_ne_nil h.split (congrArg (List.map Prod.fst) hips)
  · intro hips heq
    rw [getTableIpDefault, h.getTableIp, Option.some.injEq] at hips
    rw [heq] at hips
    exact readPars_ne_nil create (congrArg (List.map Prod.fst) hips)

theorem setTable_of_ne {db : Database} {tab' : TableName} (hne : tab' ≠ tab) (t : Table) :
    setTable db tab.name t tab'.name = db tab'.name :=
  Function.update_of_ne (fun heq => hne (TableName.ext heq)) _ _

/-- One table is changed and nothing else. -/
theorem Represents.replace (h : Represents etcd rows db) (hstored : Stores etcd' rows')
    (hmissing : ∀ name, name ≠ tab.name → etcd'.get (ipKey name) = etcd.get (ipKey name))
    (hcreated : ∀ create, create.tabName ≠ tab.name → Created etcd create → Created etcd' create)
    (hother : ∀ tab' ≠ tab, rows'.shard tab' = rows.shard tab')
    (hplaced : Placed etcd' rows' tab t' create) :
    Represents etcd' rows' (setTable db tab.name t') where
  stored := hstored
  names := by
    intro name hname
    by_cases heq : name = tab.name
    · subst heq
      exact tab.identifier
    · rw [setTable, Function.update_of_ne heq] at hname
      exact h.names name hname
  missing := by
    intro name hnone
    by_cases heq : name = tab.name
    · subst heq
      rw [setTable, Function.update_self] at hnone
      cases hnone
    · rw [setTable, Function.update_of_ne heq] at hnone
      exact (hmissing name heq).trans (h.missing name hnone)
  unused := by
    intro tab' hnone
    by_cases heq : tab' = tab
    · subst heq
      rw [setTable, Function.update_self] at hnone
      cases hnone
    · rw [setTable_of_ne heq] at hnone
      exact (hother tab' heq).trans (h.unused tab' hnone)
  placed := by
    intro tab' t₁ hsome
    by_cases heq : tab' = tab
    · subst heq
      rw [setTable, Function.update_self, Option.some.injEq] at hsome
      subst hsome
      exact ⟨create, hplaced⟩
    · rw [setTable_of_ne heq] at hsome
      obtain ⟨create', h'⟩ := h.placed tab' t₁ hsome
      have hne : create'.tabName ≠ tab.name := by
        rw [h'.name]
        exact fun hname => heq (TableName.ext hname)
      exact ⟨create', h'.congr (hcreated create' hne h'.created) (hother tab' heq)⟩

/-- The rows of one table are changed. -/
theorem Represents.write (h : Represents etcd rows db) (hmeta : SameMeta etcd etcd')
    (hstored : Stores etcd' rows') (hother : ∀ tab' ≠ tab, rows'.shard tab' = rows.shard tab')
    (hplaced : Placed etcd' rows' tab t' create) :
    Represents etcd' rows' (setTable db tab.name t') :=
  h.replace hstored (fun name _ => hmeta _ (meta_not_storeData name).1)
    (fun _ _ hcreated => created_of_sameMeta hcreated hmeta) hother hplaced

/-- The partitions of a table are visited and changed. -/
theorem Placed.visit (h : Placed etcd rows tab t create) (hmeta : SameMeta etcd etcd')
    {pars : List Nat} (hall : ∀ par key, home create key = some par → par ∈ pars)
    {f : List Int32 → Option (List Int32)} (hcolumns : t'.columns = t.columns)
    (hrows : t'.rows = fun key => (t.rows key).bind f) :
    Placed etcd' (rows.visit tab pars f) tab t' create where
  name := h.name
  created := created_of_sameMeta h.created hmeta
  readable := h.readable
  split := h.split
  columns := hcolumns.trans h.columns
  homed := by
    rw [shard_visit]
    exact h.homed.visit pars f
  rows := by
    rw [hrows, h.rows, shard_visit]
    funext key
    exact (Homed.whole_visit hall f key).symm

end Correspondence

section Writes

variable {etcd : Etcd} {rows : RowStore} {tab : TableName} {t : Table}
  {create : Ast.CreateTable} {db : Database}

/-- The conditions that node plans test as they are written. -/
def Remote (schema : List Ast.Col) (conds : List Ast.BinaryExpr) : Prop :=
  ∀ cond ∈ conds, Equates schema cond ∧ cond.OnInt

theorem nodup_pars (create : Ast.CreateTable) (min max : Int) :
    ((hitPartitions create.parVals min max).map Prod.fst).Nodup := nodup_hitPartitions _ _ _

/-- A statement that is sent to partitions. -/
theorem execStatement_distribute {command : Command} {parIps : List (Nat × Text)}
    {nodePlan : Nat → Chain}
    (hbuild : command.build etcd = some [.distribution (distribute parIps nodePlan)]) :
    execStatement etcd command =
      execNodes command.sent ((parIps.map Prod.fst).map nodePlan) etcd := by
  rw [execStatement, hbuild]
  exact congrArg (fun nodes => execNodes command.sent nodes etcd) (nodePlans_distribute _ _)

theorem Represents.delete (h : Represents etcd rows db) (hplaced : Placed etcd rows tab t create)
    {conds : List Ast.BinaryExpr} (hconds : Remote (t.schema tab.name) conds)
    (fresh : Nat → Nat → Nat → Int32) (sent : Nat → Nat → Int32) :
    ∃ etcd' rows' res, execStatement etcd ⟨.delete ⟨tab.name, conds⟩, fresh, sent⟩ =
        some (etcd', res) ∧
      Represents etcd' rows' (setTable db tab.name
        (t.delete fun row => meets (t.schema tab.name) row conds)) := by
  obtain ⟨info, hinfo, hcolumns⟩ := hplaced.getColInfo
  obtain ⟨first, hfirst⟩ := hplaced.first
  rw [← hcolumns] at hfirst
  have hips := hplaced.getTableIp 0 10000000
  have hbuild : Command.build ⟨.delete ⟨tab.name, conds⟩, fresh, sent⟩ etcd =
      some [.distribution (distribute (hitPartitions create.parVals 0 10000000) fun par =>
        .delete tab.name par :: filteredScan conds tab.name par)] := by
    simp only [Command.build, buildDeletePlan, hinfo, hfirst, hips, Option.bind_eq_bind, Option.bind_some, Option.pure_def]
  obtain ⟨etcd', res, hexec, hmeta, hkept⟩ :=
    (hplaced.kept h.stored).deleteNodes hconds (nodup_pars create 0 10000000) sent
  have hnew : Placed etcd' (rows.visit tab (deletePars create) (deleted (schemaOf tab t.columns) conds))
      tab (t.delete fun row => meets (t.schema tab.name) row conds) create :=
    hplaced.visit hmeta (fun par key hhome => (home_visited hplaced.split hhome).1) rfl rfl
  refine ⟨etcd', _, res, ?_, h.write hmeta hkept.stored (fun tab' hne => ?_) hnew⟩
  · exact (execStatement_distribute hbuild).trans hexec
  · exact shard_visit_of_ne hne _ _ _

theorem Represents.update (h : Represents etcd rows db) (hplaced : Placed etcd rows tab t create)
    {conds : List Ast.BinaryExpr} (hconds : Remote (t.schema tab.name) conds)
    {clauses : List Ast.SetClause} (hclauses : Assigns t.columns clauses)
    (fresh : Nat → Nat → Nat → Int32) (sent : Nat → Nat → Int32) :
    ∃ etcd' rows' res, execStatement etcd ⟨.update ⟨tab.name, clauses, conds⟩, fresh, sent⟩ =
        some (etcd', res) ∧
      Represents etcd' rows' (setTable db tab.name
        (t.update (fun row => meets (t.schema tab.name) row conds) clauses
          fun clause hclause => (hclauses clause hclause).1)) := by
  obtain ⟨info, hinfo, hcolumns⟩ := hplaced.getColInfo
  obtain ⟨first, hfirst⟩ := hplaced.first
  have hips : getTableIpDefault etcd tab.name = some (hitPartitions create.parVals (-10000) 10000) :=
    hplaced.getTableIp (-10000) 10000
  have hbuild : Command.build ⟨.update ⟨tab.name, clauses, conds⟩, fresh, sent⟩ etcd =
      some [.distribution (distribute (hitPartitions create.parVals (-10000) 10000) fun par =>
        .update tab.name par ((setColumns (fresh par) clauses t.columns).map Prod.fst)
            ((setColumns (fresh par) clauses t.columns).map Prod.snd) ::
          filteredScan conds tab.name par)] := by
    simp only [Command.build, buildUpdatePlan, hinfo, hcolumns, hfirst, hips, Option.bind_eq_bind, Option.bind_some,
      Option.pure_def]
  obtain ⟨etcd', res, hexec, hmeta, hkept⟩ := (hplaced.kept h.stored).updateNodes hconds hclauses
    (nodup_pars create (-10000) 10000) fresh sent
  have hnew : Placed etcd' (rows.visit tab (readPars create)
      (updated (schemaOf tab t.columns) t.columns conds clauses)) tab
        (t.update (fun row => meets (t.schema tab.name) row conds) clauses
          fun clause hclause => (hclauses clause hclause).1) create :=
    hplaced.visit hmeta (fun par key hhome => (home_visited hplaced.split hhome).2) rfl rfl
  refine ⟨etcd', _, res, ?_, h.write hmeta hkept.stored (fun tab' hne => ?_) hnew⟩
  · exact (execStatement_distribute hbuild).trans hexec
  · exact shard_visit_of_ne hne _ _ _

theorem insertRow_integers (tabName : Text) {columns : List Text} {row : List Int32}
    (hrow : row.length = columns.length) (fresh : Nat → Int32) :
    insertRow tabName fresh (row.map .intLit) columns =
      some (named (columns.map fun name => ⟨tabName, name⟩) row) := by
  induction row generalizing columns fresh with
  | nil =>
      cases List.eq_nil_of_length_eq_zero hrow.symm
      rfl
  | cons n row ih =>
      cases columns with
      | nil => cases hrow
      | cons name columns =>
          rw [List.map_cons, insertRow, ih (Nat.succ.inj hrow)]
          rfl

/-- A row is put where its key has its home. -/
theorem Placed.insert (h : Placed etcd rows tab t create) {etcd' : Etcd}
    (hmeta : SameMeta etcd etcd') {key : Int32} {rest : List Int32} {par : Nat}
    (hhome : home create key = some par) (hrow : (key :: rest).length = t.columns.length) :
    Placed etcd' (Function.update rows ⟨tab, par, key⟩ (some (key :: rest))) tab
      (t.insert key rest hrow) create where
  name := h.name
  created := created_of_sameMeta h.created hmeta
  readable := h.readable
  split := h.split
  columns := h.columns
  homed := by
    intro par' key' hne
    by_cases heq : (⟨tab, par', key'⟩ : RowName) = ⟨tab, par, key⟩
    · cases heq
      exact hhome
    · rw [RowStore.shard, Function.update_of_ne heq] at hne
      exact h.homed par' key' hne
  rows := by
    funext key'
    by_cases heq : key' = key
    · subst heq
      rw [whole, hhome, Option.bind_some, RowStore.shard, Function.update_self]
      exact Function.update_self ..
    · have hother (par' : Nat) : (⟨tab, par', key'⟩ : RowName) ≠ ⟨tab, par, key⟩ :=
        fun hname => heq (congrArg RowName.key hname)
      have hsame : (t.insert key rest hrow).rows key' = t.rows key' := Function.update_of_ne heq ..
      rw [hsame, h.rows, whole, whole]
      congr 1
      funext par'
      rw [RowStore.shard, RowStore.shard, Function.update_of_ne (hother par')]

theorem Represents.insert (h : Represents etcd rows db) (hplaced : Placed etcd rows tab t create)
    {key : Int32} {rest : List Int32} (hkey : key.toInt < parMax.toInt)
    (hrow : (key :: rest).length = t.columns.length) (fresh : Nat → Nat → Nat → Int32)
    (sent : Nat → Nat → Int32) :
    ∃ etcd' rows' res, execStatement etcd
        ⟨.insert ⟨tab.name, (key :: rest).map .intLit⟩, fresh, sent⟩ = some (etcd', res) ∧
      Represents etcd' rows' (setTable db tab.name (t.insert key rest hrow)) := by
  obtain ⟨info, hinfo, hcolumns⟩ := hplaced.getColInfo
  obtain ⟨first, hfirst⟩ := hplaced.first
  have hips := hplaced.getTableIp key.toInt key.toInt
  obtain ⟨par, hhome⟩ : ∃ par, home create key = some par := exists_home hkey
  obtain ⟨⟨par, ipAddress⟩, hhead, rfl⟩ := Option.map_eq_some_iff.mp hhome
  let record := named (schemaOf tab t.columns) (key :: rest)
  have hrecord : insertRow tab.name (fresh 0 0) ((key :: rest).map .intLit) t.columns =
      some record := insertRow_integers tab.name hrow (fresh 0 0)
  have hwidth : (key :: rest).length = (schemaOf tab t.columns).length := by
    rw [schemaOf, List.length_map, hrow]
  have hcells : ∀ cell ∈ record, cell.tabName = tab.name := insertRow_tabName hrecord
  have hstr : record.head?.map Value.str = some key := by
    rw [← List.head?_map]
    exact congrArg List.head? (named_parts hwidth).1
  obtain ⟨cell, hcell, rfl⟩ := Option.map_eq_some_iff.mp hstr
  have hbuild : Command.build ⟨.insert ⟨tab.name, (cell.str :: rest).map .intLit⟩, fresh, sent⟩ etcd =
      some [.distribution ⟨[[.insert tab.name par record]], [ipAddress]⟩] := by
    simp only [Command.build, buildInsertPlan, hinfo, hcolumns, hfirst, hrecord, hcell, hips, hhead,
      Option.bind_eq_bind, Option.bind_some, Option.pure_def]
  let name : RowName := ⟨tab, par, cell.str⟩
  let etcd' := StoreCall.exec etcd (.put name (plain (cell.str :: rest)))
  have hexec : execOp [.insert tab.name par record] etcd = some (etcd', [record]) := by
    have hkey : keyOf tab.name par record = some (rowKey tab.name par cell.str) :=
      keyOf_named hwidth rfl
    have htext : record.recToString = (plain (cell.str :: rest)).recToString :=
      recToString_named hwidth
    rw [execOp, hkey, htext]
    rfl
  have hnode : execNode (sent 0) [.insert tab.name par record] etcd = some (etcd', [record]) :=
    (execNode_eq (.insert par hcells) (by simp) (sent 0) etcd).trans hexec
  have hmeta : SameMeta etcd etcd' :=
    sameMeta_storeCalls etcd [.put name (plain (cell.str :: rest))]
  have hstored : Stores etcd' (Function.update rows name (some (cell.str :: rest))) := by
    have hcall := h.stored.exec (.put name (plain (cell.str :: rest)))
    rw [Stores]
    convert hcall using 1
    funext name'
    rw [Function.update_apply, StoreCall.apply, Function.update_apply]
    split
    · rfl
    · rfl
  have hother : ∀ tab' ≠ tab, RowStore.shard (Function.update rows name (some (cell.str :: rest)))
      tab' = rows.shard tab' := by
    intro tab' hne
    funext par' key'
    apply Function.update_of_ne
    intro heq
    exact hne (congrArg RowName.tab heq)
  refine ⟨etcd', _, [record], ?_, h.write hmeta hstored hother (hplaced.insert hmeta hhome hrow)⟩
  have hnodes : execNodes sent [[.insert tab.name par record]] etcd = some (etcd', [record]) := by
    rw [execNodes, hnode]
    rfl
  rw [execStatement, hbuild]
  exact hnodes

end Writes

section Creation

variable {etcd : Etcd} {rows : RowStore} {tab : TableName} {db : Database}
  {create : Ast.CreateTable}

theorem keys_ne_of_ne {name name' : Text} (h : name ≠ name') :
    ipKey name ≠ ipKey name' ∧ parKey name ≠ parKey name' ∧ colKey name ≠ colKey name' :=
  ⟨fun heq => h (List.append_cancel_left heq), fun heq => h (List.append_cancel_left heq),
    fun heq => h (List.append_cancel_left heq)⟩

/-- CREATE TABLE writes three keys. -/
theorem createTable_get_of_ne {key : Text} (hip : key ≠ ipKey create.tabName)
    (hpar : key ≠ parKey create.tabName) (hcol : key ≠ colKey create.tabName) :
    (createTable etcd create).1.get key = etcd.get key := by
  rw [createTable, createParTable]
  split
  · rfl
  · rw [SortedMap.get_put, if_neg hcol, SortedMap.get_put, if_neg hpar, SortedMap.get_put,
      if_neg hip]

/-- The metadata of another table stay. -/
theorem createTable_keeps {other : Text} (h : other ≠ create.tabName) (etcd : Etcd) :
    (createTable etcd create).1.get (ipKey other) = etcd.get (ipKey other) ∧
      (createTable etcd create).1.get (parKey other) = etcd.get (parKey other) ∧
      (createTable etcd create).1.get (colKey other) = etcd.get (colKey other) := by
  obtain ⟨hip, hpar, hcol⟩ := keys_ne_of_ne h
  refine ⟨?_, ?_, ?_⟩
  · exact createTable_get_of_ne hip (ipKey_ne_parKey _ _) (ipKey_ne_colKey _ _)
  · exact createTable_get_of_ne (ipKey_ne_parKey _ _).symm hpar (parKey_ne_colKey _ _)
  · exact createTable_get_of_ne (ipKey_ne_colKey _ _).symm (parKey_ne_colKey _ _).symm hcol

theorem Represents.added (h : Represents etcd rows db) (hnone : db tab.name = none)
    (hname : create.tabName = tab.name) (hread : create.Readable)
    (hsplit : OneSplit (create.parOpt.getD [])) :
    ∃ etcd', createTable etcd create = (etcd', true) ∧
      Represents etcd' rows
        (setTable db tab.name (.empty (create.fields.map Ast.ColDef.colName))) := by
  have hfresh : etcdGet etcd (ipKey create.tabName) = [] := by
    rw [etcdGet, hname, h.missing tab.name hnone]
    rfl
  have htrue : (createTable etcd create).2 = true := by
    rw [createTable, createParTable, if_neg (not_not.mpr hfresh)]
  have hshard := h.unused tab hnone
  have hnew : Placed (createTable etcd create).1 rows tab
      (.empty (create.fields.map Ast.ColDef.colName)) create := by
    refine ⟨hname, createTable_created htrue, hread, hsplit, rfl, ?_, ?_⟩
    · rw [hshard]
      exact fun _ _ hne => absurd rfl hne
    · rw [hshard]
      funext key
      exact (Option.bind_fun_none _).symm
  refine ⟨_, Prod.ext rfl htrue, h.replace ?_ ?_ ?_ (fun _ _ => rfl) hnew⟩
  · intro key hkey value
    rw [createTable_get hkey]
    exact h.stored key hkey value
  · intro name hne
    rw [← hname] at hne
    exact (createTable_keeps hne etcd).1
  · intro other hne hcreated
    rw [← hname] at hne
    obtain ⟨hip, hpar, hcol⟩ := createTable_keeps hne etcd
    refine ⟨?_, ?_, ?_⟩
    · rw [etcdGet, hip]
      exact hcreated.ipAddress
    · rw [etcdGet, hpar]
      exact hcreated.parInfo
    · rw [etcdGet, hcol]
      exact hcreated.colInfo

/-- A table that exists is not created again. -/
theorem Represents.refused (h : Represents etcd rows db) (hsome : db tab.name ≠ none)
    (hname : create.tabName = tab.name) : createTable etcd create = (etcd, false) := by
  obtain ⟨t, ht⟩ := Option.ne_none_iff_exists'.mp hsome
  obtain ⟨create', hplaced⟩ := h.placed tab t ht
  have hne : etcdGet etcd (ipKey create.tabName) ≠ [] := by
    rw [hname, ← hplaced.name, hplaced.created.ipAddress]
    exact List.append_ne_nil_of_left_ne_nil (ofInt_ne_nil _) _
  rw [createTable, createParTable, if_pos hne]

/-- Without tables and rows there is the empty database. -/
theorem represents_empty (hrows : NoStoreData etcd) (htables : ∀ name, etcd.get (ipKey name) = none) :
    Represents etcd (fun _ => none) fun _ => none where
  stored := refines_empty hrows
  names := fun _ hne => absurd rfl hne
  missing := fun name _ => htables name
  unused := fun _ _ => rfl
  placed := nofun

end Creation

end Relational

end RucDDBS
