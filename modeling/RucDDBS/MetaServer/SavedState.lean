import RucDDBS.MetaServer.MetaStream
import RucDDBS.MetaServer.Placement

/-!
Which states of the meta server survive saving and loading. A run of requests keeps
the state readable as long as no table without partitions is created, and as long as
what stands behind the number of columns of a partitioned table is no digit.
-/

namespace RucDDBS

open Text

namespace MetaServer

inductive Request where
  | createDataBase (dbName : Text)
  | createTable (r : CreateTableRequest)
  /-- `order` is the order in which the nodes are iterated -/
  | createPartitionTable (order : List Text) (r : CreatePartitonTableRequest)
  | nodeRegister (remoteIp : Text) (r : RegisterRequest)

/-- The new state and the `success` of the answer. -/
def handle (m : MetaServer) : Request → Option (MetaServer × Bool)
  | .createDataBase dbName => some (m.createDataBase dbName)
  | .createTable r => (m.createTable r).map fun (m, oid) => (m, oid.isSome)
  | .createPartitionTable order r => (m.createPartitionTable order r).map fun (m, oid) => (m, oid.isSome)
  | .nodeRegister remoteIp r => some (m.nodeRegister remoteIp r, true)

/-- Column names are words; a repeated field counts its items with an `int`. -/
structure PlainNames (colName : List Text) : Prop where
  words : ∀ name ∈ colName, IsWord name
  count : colName.length < 2 ^ 31

theorem plainNames_of_all {colName : List Text}
    (h : colName.all (fun name => !name.isEmpty && name.all fun c => !c.isWhitespace) = true)
    (hcount : colName.length < 2 ^ 31) : PlainNames colName where
  words := by
    intro name hname
    have hword := List.all_eq_true.mp h name hname
    simp only [Bool.and_eq_true, Bool.not_eq_true', List.isEmpty_eq_false_iff] at hword
    exact isWord_of_all hword.1 hword.2
  count := hcount

/-- No text of the request is empty or has a blank in it. -/
def Request.Plain : Request → Prop
  | .createDataBase dbName => IsWord dbName
  | .createTable r => IsWord r.tabName ∧ PlainNames r.colName
  | .createPartitionTable _ r => IsWord r.tabName ∧ PlainNames r.colName ∧
      IsWord r.partitionKeyName ∧ ∀ range ∈ r.range, IsWord range.1 ∧ IsWord range.2
  | .nodeRegister remoteIp r => IsWord remoteIp ∧ IsWord r.serverName

/-- What will stand behind the number of columns starts with no digit: the first
column or, without columns, the first partition, which there has to be. -/
def CreatePartitonTableRequest.CountEnds (r : CreatePartitonTableRequest) : Prop :=
  match r.colName with
  | [] => 0 < r.partitionCnt
  | name :: _ => NoDigit name

/-- A request with its answer that leaves a state which can be saved. -/
def Saveable : Request × Bool → Prop
  | (.createTable r, success) => (Request.createTable r).Plain ∧ success = false
  | (.createPartitionTable order r, success) =>
      (Request.createPartitionTable order r).Plain ∧ (success = true → r.CountEnds)
  | (r, _) => r.Plain

section Nodes

variable {nodes nodes' : SortedMap Text Node} {order used : List Text}

/-- Names and addresses of all nodes are words. -/
def NodesNamed (nodes : SortedMap Text Node) : Prop :=
  ∀ serverName node, nodes.get serverName = some node → IsWord serverName ∧ IsWord node.ipAddr

theorem NodesNamed.put (h : NodesNamed nodes) {name : Text} {node : Node} (hname : IsWord name)
    (hip : IsWord node.ipAddr) : NodesNamed (nodes.put name node) := by
  intro other node' hget
  rw [SortedMap.get_put] at hget
  split at hget
  · rename_i heq
    cases hget
    exact ⟨heq ▸ hname, hip⟩
  · exact h other node' hget

theorem NodesNamed.placeReplica (h : NodesNamed nodes) {role : ReplicaRole} {eligible : Node → Bool}
    {count : Node → Int32} {counted : Node → Node} (hcounted : ∀ node, (counted node).ipAddr = node.ipAddr)
    {loc : ReplicaLocation}
    (hplace : placeReplica role eligible count counted order nodes = some (loc, nodes')) :
    IsWord loc.ipAddr ∧ NodesNamed nodes' := by
  obtain ⟨name, node, hleast, rfl, rfl⟩ := placeReplica_some hplace
  obtain ⟨hname, hip⟩ := h name node (SortedMap.mem_entriesIn (leastNode_mem hleast))
  exact ⟨hip, h.put hname (by rwa [hcounted])⟩

theorem NodesNamed.placeFollowers {rounds : Nat} (h : NodesNamed nodes) {locs : List ReplicaLocation}
    (hplace : placeFollowers order rounds used nodes = some (locs, nodes')) :
    (∀ loc ∈ locs, IsWord loc.ipAddr) ∧ NodesNamed nodes' := by
  induction rounds generalizing used nodes locs with
  | zero =>
      cases hplace
      exact ⟨by simp, h⟩
  | succ rounds ih =>
      obtain ⟨loc, next, rest, hfirst, hrest, rfl⟩ := placeFollowers_succ hplace
      rw [MetaServer.placeFollower] at hfirst
      obtain ⟨hip, hnext⟩ := h.placeReplica (by simp) hfirst
      obtain ⟨hips, hlast⟩ := ih hnext hrest
      exact ⟨by simpa using ⟨hip, hips⟩, hlast⟩

theorem NodesNamed.placePartition (h : NodesNamed nodes) {replicaCnt : Int32}
    {locs : List ReplicaLocation}
    (hplace : placePartition order replicaCnt nodes = some (locs, nodes')) :
    (∀ loc ∈ locs, IsWord loc.ipAddr) ∧ NodesNamed nodes' := by
  obtain ⟨leader, next, followers, hleader, hfollowers, rfl⟩ := placePartition_some hplace
  rw [MetaServer.placeLeader] at hleader
  obtain ⟨hip, hnext⟩ := h.placeReplica (by simp) hleader
  obtain ⟨hips, hlast⟩ := hnext.placeFollowers hfollowers
  exact ⟨by simpa using ⟨hip, hips⟩, hlast⟩

theorem NodesNamed.placePartitions (h : NodesNamed nodes) {oid : TableOid} {replicaCnt : Int32}
    {pars : List ParMeta} {locs : List PhyPartitionLocation}
    (hplace : placePartitions order oid replicaCnt pars nodes = some (locs, nodes')) :
    (∀ p ∈ locs, ∀ loc ∈ p.repliacaLocation, IsWord loc.ipAddr) ∧ NodesNamed nodes' := by
  induction pars generalizing nodes locs with
  | nil =>
      cases hplace
      exact ⟨by simp, h⟩
  | cons par pars ih =>
      obtain ⟨replicas, next, rest, hfirst, hrest, rfl⟩ := placePartitions_cons hplace
      obtain ⟨hips, hnext⟩ := h.placePartition hfirst
      obtain ⟨hall, hlast⟩ := ih hnext hrest
      exact ⟨by simpa using ⟨hips, hall⟩, hlast⟩

end Nodes

section Readable

variable {m m' : MetaServer}

theorem readable_new : Readable new where
  dbs := by
    intro dbName ptr hget
    cases hget
  nodes := by
    intro serverName node hget
    cases hget

theorem DbMetaServer.readable_new {dbName : Text} (hname : IsWord dbName) :
    (DbMetaServer.new dbName).Readable where
  name := hname
  tabs := by
    intro tabName ptr hget
    cases hget

theorem DbMetaServer.Readable.addTable {db : DbMetaServer} (h : db.Readable) {tab : TabMetaServer}
    (htab : tab.Readable) : (db.addTable tab).Readable where
  name := h.name
  tabs := by
    intro tabName ptr hget
    rw [DbMetaServer.addTable, SortedMap.get_put] at hget
    split at hget
    · rename_i heq
      cases hget
      exact ⟨tab, rfl, heq.symm, htab⟩
    · exact h.tabs tabName ptr hget

/-- Storing a readable database under its name. -/
theorem Readable.of_stored (h : m.Readable) {db : DbMetaServer} (hdb : db.Readable)
    (hstored : m'.dbMap = m.dbMap.put db.name (some db)) (hnodes : NodesNamed m'.ipNodeMap) :
    m'.Readable where
  dbs := by
    intro dbName ptr hget
    rw [hstored, SortedMap.get_put] at hget
    split at hget
    · rename_i heq
      cases hget
      exact ⟨db, rfl, heq.symm, hdb⟩
    · exact h.dbs dbName ptr hget
  nodes := hnodes

theorem Readable.createDataBase (h : m.Readable) {dbName : Text} (hname : IsWord dbName) :
    (m.createDataBase dbName).1.Readable := by
  rw [MetaServer.createDataBase]
  split
  · exact h
  · exact h.of_stored (DbMetaServer.readable_new hname) rfl h.nodes

theorem Readable.nodeRegister (h : m.Readable) {remoteIp : Text} {r : RegisterRequest}
    (hip : IsWord remoteIp) (hname : IsWord r.serverName) : (m.nodeRegister remoteIp r).Readable := by
  have hnamed : NodesNamed m.ipNodeMap := h.nodes
  rw [MetaServer.nodeRegister]
  split
  · rename_i node hget
    exact ⟨h.dbs, hnamed.put hname (h.nodes r.serverName node hget).2⟩
  · exact ⟨h.dbs, hnamed.put hname hip⟩

/-- A table that is not created changes nothing. -/
theorem createTable_refused {r : CreateTableRequest} (h : m.createTable r = some (m', none)) : m' = m := by
  unfold createTable at h
  split at h
  · cases h
    rfl
  · cases h
  · split at h
    · cases h
      rfl
    · simp [Option.bind_eq_some_iff] at h

theorem columns_plain {colName : List Text} {colType : List Int32} {colInfo : ColumnInfo}
    (h : columns colName colType = some colInfo) (hplain : PlainNames colName) :
    (∀ col ∈ colInfo, IsWord col.1) ∧ colInfo.length < 2 ^ 31 := by
  obtain ⟨-, heq⟩ := Option.ite_none_right_eq_some.mp h
  cases heq
  constructor
  · intro col hcol
    exact hplain.words col.1 (List.of_mem_zip hcol).1
  · have hcount := hplain.count
    rw [List.length_zip]
    omega

theorem isWord_partitionName (i : Nat) : IsWord ('p' :: ofInt i) where
  ne_nil := by simp
  no_blank := by
    intro c hc
    rcases List.mem_cons.mp hc with rfl | hdigits
    · decide
    · exact (isWord_ofInt i).no_blank c hdigits

theorem partitionsOf_plain {partitionCnt : Int32} {range : List (Text × Text)} {pars : List ParMeta}
    (h : partitionsOf partitionCnt range = some pars)
    (hplain : ∀ bounds ∈ range, IsWord bounds.1 ∧ IsWord bounds.2) :
    ∀ par ∈ pars, IsWord par.name ∧ IsWord par.minRange ∧ IsWord par.maxRange := by
  obtain ⟨-, heq⟩ := Option.ite_none_right_eq_some.mp h
  cases heq
  intro par hpar
  obtain ⟨e, he, rfl⟩ := List.mem_map.mp hpar
  exact ⟨isWord_partitionName e.1, hplain e.2 (List.of_mem_zip he).2⟩

/-- Without columns there is a partition, and its name starts with no digit. -/
theorem countEnds_noDigit {r : CreatePartitonTableRequest} (h : r.CountEnds)
    {colInfo : ColumnInfo} (hcols : columns r.colName r.colType = some colInfo)
    {pars : List ParMeta} (hpars : partitionsOf r.partitionCnt r.range = some pars)
    (hplain : PlainNames r.colName) (rest : Text) :
    NoDigit (colInfo.flatMap writeColumn ++ (pars.flatMap ParMeta.write ++ rest)) := by
  obtain ⟨htypes, heq⟩ := Option.ite_none_right_eq_some.mp hcols
  cases heq
  unfold CreatePartitonTableRequest.CountEnds at h
  cases hnames : r.colName with
  | nil =>
      rw [hnames] at h
      obtain ⟨hranges, heq⟩ := Option.ite_none_right_eq_some.mp hpars
      cases heq
      have hcnt : 0 < r.partitionCnt.toInt.toNat := by
        have hpos : (0 : Int32).toInt < r.partitionCnt.toInt := Int32.lt_iff_toInt_lt.mp h
        have hzero : (0 : Int32).toInt = 0 := rfl
        omega
      obtain ⟨n, hn⟩ := Nat.exists_eq_succ_of_ne_zero hcnt.ne'
      obtain ⟨bounds, ranges, hrange⟩ := List.exists_cons_of_length_pos (lt_of_lt_of_le hcnt hranges)
      have hp : 'p'.isDigit = false := by decide
      simp [hn, hrange, List.range_succ_eq_map, parMeta, ParMeta.write, hp]
  | cons name names =>
      rw [hnames] at h htypes
      obtain ⟨type, types, htype⟩ := List.exists_cons_of_length_pos
        (lt_of_lt_of_le (by simp : 0 < (name :: names).length) htypes)
      have hword := hplain.words name (by simp [hnames])
      obtain ⟨c, tail, hname⟩ := List.exists_cons_of_ne_nil hword.ne_nil
      have hc : c.isDigit = false := by simpa [hname] using h
      simp [htype, writeColumn, hname, hc]

/-- A partitioned table that is created is readable, and so is what its server keeps. -/
theorem Readable.createPartitionTable (h : m.Readable) {order : List Text}
    {r : CreatePartitonTableRequest} {oid : Option TableOid}
    (hcreate : m.createPartitionTable order r = some (m', oid))
    (hplain : (Request.createPartitionTable order r).Plain)
    (hends : oid.isSome = true → r.CountEnds) : m'.Readable := by
  obtain ⟨htab, hnames, hkey, hranges⟩ := hplain
  cases oid with
  | none =>
      obtain ⟨-, rfl⟩ := refuses_of_failure hcreate
      exact h
  | some oid =>
      obtain ⟨db, tms, -, hcreated⟩ := created_of_success hcreate
      obtain ⟨db', hptr, hname, hreadable⟩ := h.dbs r.dbName (some db) hcreated.found
      cases hptr
      obtain ⟨haddressed, hnodes⟩ := NodesNamed.placePartitions h.nodes hcreated.placed
      obtain ⟨hcolumns, hcount⟩ := columns_plain hcreated.columns hnames
      have htable : tms.Readable := {
        name := by
          rw [hcreated.tabName]
          exact htab
        partitionKeyName := by
          rw [hcreated.table]
          exact hkey
        columns := hcolumns
        columnCount := hcount
        countEnds := countEnds_noDigit (hends rfl) hcreated.columns hcreated.partitions hnames
        partitions := partitionsOf_plain hcreated.partitions hranges
        addressed := haddressed }
      apply h.of_stored (hreadable.addTable htable) _ hnodes
      rw [hcreated.stored, ← hname]
      rfl

theorem Readable.step (h : m.Readable) {label : Request × Bool} (hok : Saveable label)
    (hstep : Lts.Steps handle m label m') : m'.Readable := by
  obtain ⟨r, success⟩ := label
  cases r with
  | createDataBase dbName =>
      have hcreate : m.createDataBase dbName = (m', success) := Option.some.inj hstep
      have hnext := h.createDataBase hok
      rwa [hcreate] at hnext
  | createTable r =>
      obtain ⟨-, rfl⟩ := hok
      obtain ⟨⟨m'', oid⟩, hcreate, heq⟩ := Option.map_eq_some_iff.mp hstep
      simp only [Prod.mk.injEq, Option.isSome_eq_false_iff, Option.isNone_iff_eq_none] at heq
      obtain ⟨rfl, rfl⟩ := heq
      rwa [createTable_refused hcreate]
  | createPartitionTable order r =>
      obtain ⟨⟨m'', oid⟩, hcreate, heq⟩ := Option.map_eq_some_iff.mp hstep
      simp only [Prod.mk.injEq] at heq
      obtain ⟨rfl, hsuccess⟩ := heq
      exact h.createPartitionTable hcreate hok.1 fun hsome => hok.2 (hsuccess.symm.trans hsome)
  | nodeRegister remoteIp r =>
      cases hstep
      exact h.nodeRegister hok.1 hok.2

end Readable

/-- In a run of saveable requests, every state that is reached is written, in any
order of the hash maps, to a text from which a new server reads the same databases and
tables and the same nodes, switched off. -/
theorem saved_state_is_loaded {m : MetaServer} {trace : List (Request × Bool)}
    {orders : IterationOrders} (hrun : Lts.Run (Lts.Steps handle) new trace m)
    (hok : ∀ label ∈ trace, Saveable label) (horders : orders.Of m) :
    ∃ text, m.write orders = some text ∧ ∃ left m', read new text = some (m', left) ∧
      m'.dbMap = m.dbMap ∧ ∀ name, m'.ipNodeMap.get name = (m.ipNodeMap.get name).map switchedOff := by
  have hreadable : m.Readable :=
    hrun.preserves_labels Readable Saveable (fun _ _ _ hstep hlabel h => h.step hlabel hstep) hok
      readable_new
  obtain ⟨text, hwrite, hback⟩ := hreadable.read_write horders
  obtain ⟨left, m', -, hread, hsame⟩ := hback []
  rw [List.append_nil] at hread
  exact ⟨text, hwrite, _, m', hread, hsame⟩

/-- A database, a node and a table on it in one partition, without columns. -/
def partitioned : List (Request × Bool) :=
  [(.createDataBase ['d'], true), (.nodeRegister ['1'] ⟨['n'], 8005⟩, true),
    (.createPartitionTable [['n']] ⟨['d'], ['t'], .rangePartition, ['k'], .typeInt, 1,
      [(['0'], ['9'])], false, 1, [], []⟩, true)]

theorem partitioned_is_loaded :
    ∃ m, Lts.Run (Lts.Steps handle) new partitioned m ∧
      ∃ text, m.write ⟨[['d']], fun _ => [['t']], [['n']]⟩ = some text ∧
        ∃ left m', read new text = some (m', left) ∧ m'.dbMap = m.dbMap ∧
          ∀ name, m'.ipNodeMap.get name = (m.ipNodeMap.get name).map switchedOff := by
  have hcomputed : (Lts.exec handle new (partitioned.map Prod.fst)).map (fun last =>
      (last.2, decide ((⟨[['d']], fun _ => [['t']], [['n']]⟩ : IterationOrders).Of last.1))) =
      some (partitioned.map Prod.snd, true) := by
    decide +kernel
  obtain ⟨⟨m, events⟩, hexec, hlast⟩ := Option.map_eq_some_iff.mp hcomputed
  simp only [Prod.mk.injEq, decide_eq_true_eq] at hlast
  obtain ⟨rfl, horders⟩ := hlast
  have hrun : Lts.Run (Lts.Steps handle) new partitioned m := Lts.run_of_exec _ _ hexec
  have hnames : PlainNames [] := plainNames_of_all rfl (by decide)
  have hok : ∀ label ∈ partitioned, Saveable label := by
    simp [partitioned, Saveable, Request.Plain, isWord_of_all, CreatePartitonTableRequest.CountEnds,
      hnames]
  exact ⟨m, hrun, saved_state_is_loaded hrun hok horders⟩

/-- A database with a table that is not partitioned. -/
def unpartitioned : List (Request × Bool) :=
  [(.createDataBase ['d'], true), (.createTable ⟨['d'], ['t'], [['i', 'd']], [0]⟩, true)]

/-- The text of the table has a blank where the partition key should be, and the reader
takes the number of its columns for the number of its partitions. -/
theorem unpartitioned_is_lost :
    ∃ m, Lts.Run (Lts.Steps handle) new unpartitioned m ∧ (∀ label ∈ unpartitioned, label.1.Plain) ∧
      (⟨[['d']], fun _ => [['t']], []⟩ : IterationOrders).Of m ∧
      ∃ text, m.write ⟨[['d']], fun _ => [['t']], []⟩ = some text ∧ read new text = none := by
  have hcomputed : (Lts.exec handle new (unpartitioned.map Prod.fst)).map (fun last =>
      (last.2, decide ((⟨[['d']], fun _ => [['t']], []⟩ : IterationOrders).Of last.1),
        (last.1.write ⟨[['d']], fun _ => [['t']], []⟩).map fun text => (read new text).isNone)) =
      some (unpartitioned.map Prod.snd, true, some true) := by
    decide +kernel
  obtain ⟨⟨m, events⟩, hexec, hlast⟩ := Option.map_eq_some_iff.mp hcomputed
  simp only [Prod.mk.injEq, decide_eq_true_eq, Option.map_eq_some_iff, Option.isNone_iff_eq_none] at hlast
  obtain ⟨rfl, horders, hlost⟩ := hlast
  have hplain : ∀ label ∈ unpartitioned, label.1.Plain := by
    simp [unpartitioned, Request.Plain, isWord_of_all, plainNames_of_all]
  exact ⟨m, Lts.run_of_exec _ _ hexec, hplain, horders, hlost⟩

end MetaServer

end RucDDBS
