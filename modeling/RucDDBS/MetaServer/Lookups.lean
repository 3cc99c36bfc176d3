import RucDDBS.MetaServer.MetaStore

/-!
The lookups of the meta server. All four find their table in the same way, through
`operator[]` of two maps, and then work on the table alone. `operator[]` inserts a
null pointer under a key that it does not find; so a lookup leaves both maps as
they were exactly if the names it looks for are keys.

A lookup returns a value or throws; a division by zero is `none`.
-/

namespace RucDDBS

open Text

namespace MetaServer

/-- The exceptions of the lookups, the last two of them from `stoi`. -/
inductive LookupError where
  | noDatabase | noTable | partitionKeyNotTrue | noPartitionOrReplica
  | invalidArgument | outOfRange
  deriving DecidableEq, Repr

abbrev Replicas := SortedMap Int ReplicaLocation

/-- `std::hash`, reduced modulo `2^64`. -/
structure StdHash where
  ofInt : Int → UInt64
  ofText : Text → UInt64

def stoi (s : Text) : Except LookupError Int :=
  match readNumber s with
  | none => .error .invalidArgument
  | some (z, _) => if -2 ^ 31 ≤ z ∧ z < 2 ^ 31 then .ok z else .error .outOfRange

namespace TabMetaServer

variable (tms : TabMetaServer)

def addReplica (res : Replicas) (pId : PartitionId) : Except LookupError Replicas :=
  match tms.tableLocation.getReplicaLocation pId with
  | none => .error .noPartitionOrReplica
  | some rep => .ok (res.put pId.toInt rep)

/-- The replicas of the partitions that `chosen` admits. -/
def replicasOf (chosen : ParMeta → Except LookupError Bool) : Except LookupError Replicas :=
  tms.partitions.foldlM (fun res par => do
    if ← chosen par then tms.addReplica res par.pId else pure res) .empty

/-- The test of a range against `[minRange, maxRange]`, as integers or as texts. -/
def rangeMeets (minRange maxRange : Text) (par : ParMeta) : Except LookupError Bool :=
  match tms.partitionKeyType with
  | .typeInt | .typeFloat => do
      let low ← stoi par.minRange
      let max ← stoi maxRange
      if low ≤ max then
        let high ← stoi par.maxRange
        let min ← stoi minRange
        pure (decide (min ≤ high))
      else pure false
  | .typeString => pure (decide (par.minRange ≤ maxRange ∧ minRange ≤ par.maxRange))

def getReplicaLocationListByRange (minRange maxRange : Text) : Except LookupError Replicas :=
  tms.replicasOf (tms.rangeMeets minRange maxRange)

/-- `HashPartition`; the count is a divisor of type `size_t`. -/
def hashPartition (hash : UInt64) : Option PartitionId :=
  let cnt := (tms.partitionCnt.toInt % 2 ^ 64).toNat
  if cnt = 0 then none else some (Int32.ofNat (hash.toNat % cnt))

/-- One partition for a single key, and all of them for a range. -/
def replicasByHash (isPoint : Bool) (hash : UInt64) : Option (Except LookupError Replicas) :=
  if isPoint = true then (tms.hashPartition hash).map (tms.addReplica .empty)
  else some (tms.replicasOf fun _ => .ok true)

def getReplicaLocationListByHash (hash : StdHash) (minRange maxRange : Text) :
    Option (Except LookupError Replicas) :=
  match tms.partitionKeyType with
  | .typeInt | .typeFloat =>
      match stoi minRange, stoi maxRange with
      | .error e, _ => some (.error e)
      | .ok _, .error e => some (.error e)
      | .ok min, .ok max => tms.replicasByHash (decide (max = min)) (hash.ofInt min)
  | .typeString => tms.replicasByHash (decide (maxRange = minRange)) (hash.ofText minRange)

/-- `getReplicaLocationList` behind its search for the table. -/
def replicaLocationList (hash : StdHash) (partitionKeyName minRange maxRange : Text) :
    Option (Except LookupError Replicas) :=
  if partitionKeyName ≠ tms.partitionKeyName then some (.error .partitionKeyNotTrue)
  else
    match tms.partitionType with
    | .rangePartition => some (tms.getReplicaLocationListByRange minRange maxRange)
    | .hashPartition => tms.getReplicaLocationListByHash hash minRange maxRange
    | .nonePartition => some (tms.replicasOf fun _ => .ok true)

/-- The copy of the location that `UpdatePartitionLeader` works on, once the roles in
it are set. -/
def locationWithLeader (pId : PartitionId) (ipAddr : Text) : Option PhyTableLocation := do
  if tms.tableLocation.duplicateType ≠ .duplicate then none
  let i ← tms.tableLocation.partitonList.findIdx? fun p => p.pId = pId
  pure { tms.tableLocation with
    partitonList := tms.tableLocation.partitonList.modify i fun p =>
      { p with repliacaLocation := p.repliacaLocation.map fun r =>
        { r with role := if r.ipAddr = ipAddr then .leader else .follower } } }

/-- `UpdatePartitionLeader` behind its search for the table. The copy is dropped. -/
def leaderUpdated (pId : PartitionId) (ipAddr : Text) : Bool :=
  (tms.locationWithLeader pId ipAddr).isSome

end TabMetaServer

/-- `db_map_[db_name]`. -/
def indexDb (m : MetaServer) (dbName : Text) : Option DbMetaServer × MetaServer :=
  match m.dbMap.get dbName with
  | some db => (db, m)
  | none => (none, m.setDb dbName none)

/-- `gettablemap()[table_name]`. -/
def DbMetaServer.indexTab (db : DbMetaServer) (tableName : Text) :
    Option TabMetaServer × DbMetaServer :=
  match db.tabs.get tableName with
  | some tms => (tms, db)
  | none => (none, { db with tabs := db.tabs.put tableName none })

/-- What the lookups begin with. -/
def findTable (m : MetaServer) (dbName tableName : Text) :
    Except LookupError TabMetaServer × MetaServer :=
  match m.indexDb dbName with
  | (none, m) => (.error .noDatabase, m)
  | (some db, m) =>
      match db.indexTab tableName with
      | (none, db) => (.error .noTable, m.setDb dbName (some db))
      | (some tms, db) => (.ok tms, m.setDb dbName (some db))

/-- A lookup that goes on with the table it has found. -/
def onTable {α : Type} (m : MetaServer) (dbName tableName : Text)
    (next : TabMetaServer → Option (Except LookupError α)) :
    Option (Except LookupError α × MetaServer) :=
  match m.findTable dbName tableName with
  | (.error e, m) => some (.error e, m)
  | (.ok tms, m) => (next tms).map fun res => (res, m)

section Calls

variable (m : MetaServer) (dbName tableName : Text)

def getPartitionKey : Option (Except LookupError Text × MetaServer) :=
  m.onTable dbName tableName fun tms => some (.ok tms.partitionKeyName)

def getColInfor : Option (Except LookupError ColumnInfo × MetaServer) :=
  m.onTable dbName tableName fun tms => some (.ok tms.colInfo)

def getReplicaLocationList (hash : StdHash) (partitionKeyName minRange maxRange : Text) :
    Option (Except LookupError Replicas × MetaServer) :=
  m.onTable dbName tableName fun tms =>
    tms.replicaLocationList hash partitionKeyName minRange maxRange

def updatePartitionLeader (pId : PartitionId) (ipAddr : Text) :
    Option (Except LookupError Bool × MetaServer) :=
  m.onTable dbName tableName fun tms => some (.ok (tms.leaderUpdated pId ipAddr))

end Calls

/-- The four lookups, by what they return. -/
inductive Lookup : Type → Type
  | getPartitionKey : Lookup Text
  | getColInfor : Lookup ColumnInfo
  | getReplicaLocationList (partitionKeyName minRange maxRange : Text) : Lookup Replicas
  | updatePartitionLeader (pId : PartitionId) (ipAddr : Text) : Lookup Bool

def Lookup.run {α : Type} (hash : StdHash) (m : MetaServer) (dbName tableName : Text) :
    Lookup α → Option (Except LookupError α × MetaServer)
  | .getPartitionKey => m.getPartitionKey dbName tableName
  | .getColInfor => m.getColInfor dbName tableName
  | .getReplicaLocationList partitionKeyName minRange maxRange =>
      m.getReplicaLocationList dbName tableName hash partitionKeyName minRange maxRange
  | .updatePartitionLeader pId ipAddr => m.updatePartitionLeader dbName tableName pId ipAddr

variable {m m' : MetaServer} {dbName tableName : Text}

/-- No lookup has left a null pointer, so saving follows none. -/
def NoNull (m : MetaServer) : Prop :=
  ∀ dbName ptr, m.dbMap.get dbName = some ptr →
    ∃ db, ptr = some db ∧ ∀ tabName tms, db.tabs.get tabName = some tms → tms ≠ none

/-- The names that a lookup hands to `operator[]` are keys. -/
def Named (m : MetaServer) (dbName tableName : Text) : Prop :=
  m.dbMap.contains dbName = true ∧
    ∀ db, m.dbMap.get dbName = some (some db) → db.tabs.contains tableName = true

/-- Nothing has changed, neither for the requests that create something nor for
saving. -/
structure Unchanged (m m' : MetaServer) : Prop where
  same : m' = m
  createDataBase : ∀ dbName, m'.createDataBase dbName = m.createDataBase dbName
  createTable : ∀ r, m'.createTable r = m.createTable r
  noNull : m.NoNull → m'.NoNull

theorem unchanged_iff : Unchanged m m' ↔ m' = m := by
  constructor
  · exact fun h => h.same
  · rintro rfl
    exact ⟨rfl, fun _ => rfl, fun _ => rfl, fun h => h⟩

theorem setDb_get {db : Option DbMetaServer} (h : m.dbMap.get dbName = some db) :
    m.setDb dbName db = m := by
  have hput : m.dbMap.put dbName db = m.dbMap := by
    apply SortedMap.ext_get
    intro name
    rw [SortedMap.get_put]
    split
    · rename_i heq
      rw [heq, h]
    · rfl
  rw [setDb, hput]

theorem get_setDb (db : Option DbMetaServer) : (m.setDb dbName db).dbMap.get dbName = some db :=
  SortedMap.get_put_self _ _ _

/-- The search leaves the server as it was exactly if it only asks for keys. -/
theorem findTable_eq_iff (m : MetaServer) (dbName tableName : Text) :
    (m.findTable dbName tableName).2 = m ↔ m.Named dbName tableName := by
  cases hdb : m.dbMap.get dbName with
  | none =>
      have hstate : (m.findTable dbName tableName).2 = m.setDb dbName none := by
        simp [findTable, indexDb, hdb]
      rw [hstate]
      constructor
      · intro heq
        rw [← heq, get_setDb] at hdb
        cases hdb
      · intro hnamed
        have hcontains := hnamed.1
        rw [SortedMap.contains, hdb] at hcontains
        cases hcontains
  | some ptr =>
      have hcontains : m.dbMap.contains dbName = true := by rw [SortedMap.contains, hdb]; rfl
      cases ptr with
      | none =>
          have hstate : (m.findTable dbName tableName).2 = m := by simp [findTable, indexDb, hdb]
          rw [hstate]
          refine iff_of_true rfl ⟨hcontains, ?_⟩
          intro db hget
          rw [hdb] at hget
          cases hget
      | some db =>
          cases htab : db.tabs.get tableName with
          | none =>
              have hstate : (m.findTable dbName tableName).2 =
                  m.setDb dbName (some { db with tabs := db.tabs.put tableName none }) := by
                simp [findTable, indexDb, hdb, DbMetaServer.indexTab, htab]
              rw [hstate]
              constructor
              · intro heq
                rw [← heq, get_setDb, Option.some.injEq, Option.some.injEq] at hdb
                rw [← hdb, SortedMap.get_put_self] at htab
                cases htab
              · intro hnamed
                have htable := hnamed.2 db hdb
                rw [SortedMap.contains, htab] at htable
                cases htable
          | some tms =>
              have hstate : (m.findTable dbName tableName).2 = m.setDb dbName (some db) := by
                cases tms <;> simp [findTable, indexDb, hdb, DbMetaServer.indexTab, htab]
              rw [hstate, setDb_get hdb]
              refine iff_of_true rfl ⟨hcontains, ?_⟩
              intro db' hget
              rw [hdb, Option.some.injEq, Option.some.injEq] at hget
              rw [← hget, SortedMap.contains, htab]
              rfl

theorem onTable_state {α : Type} {next : TabMetaServer → Option (Except LookupError α)}
    {res : Except LookupError α} (h : m.onTable dbName tableName next = some (res, m')) :
    m' = (m.findTable dbName tableName).2 := by
  unfold onTable at h
  cases hfind : m.findTable dbName tableName with
  | mk found after =>
      cases found with
      | error e =>
          simp only [hfind, Option.some.injEq, Prod.mk.injEq] at h
          exact h.2.symm
      | ok tms =>
          simp only [hfind, Option.map_eq_some_iff, Prod.mk.injEq] at h
          obtain ⟨_, _, _, heq⟩ := h
          exact heq.symm

theorem Lookup.run_state {α : Type} {hash : StdHash} {lookup : Lookup α}
    {res : Except LookupError α} (h : lookup.run hash m dbName tableName = some (res, m')) :
    m' = (m.findTable dbName tableName).2 := by
  cases lookup <;> exact onTable_state h

/-- After a lookup in a database that does not exist it can no longer be created, a
table in it makes the server follow a null pointer, and so does saving. -/
theorem Lookup.spoils_database {α : Type} {hash : StdHash} {lookup : Lookup α}
    {res : Except LookupError α} (h : lookup.run hash m dbName tableName = some (res, m'))
    (hnew : m.dbMap.get dbName = none) :
    m.createDataBase dbName = (m.setDb dbName (some (.new dbName)), true) ∧
      m'.createDataBase dbName = (m', false) ∧
      (∀ r : CreateTableRequest, r.dbName = dbName → m'.createTable r = none) ∧ ¬ m'.NoNull := by
  have hstate : m' = m.setDb dbName none := by
    rw [lookup.run_state h, findTable, indexDb, hnew]
  have hget : m'.dbMap.get dbName = some none := by rw [hstate, get_setDb]
  refine ⟨?_, ?_, ?_, ?_⟩
  · simp [MetaServer.createDataBase, SortedMap.contains, hnew]
  · simp [MetaServer.createDataBase, SortedMap.contains, hget]
  · rintro r rfl
    rw [MetaServer.createTable, hget]
  · intro hnull
    obtain ⟨db, hptr, -⟩ := hnull dbName none hget
    cases hptr

/-- A lookup that throws leaves no trace exactly if its database is a key of the
server and, where that database has not a null pointer, its table is a key of the
database. -/
theorem failed_lookup_unchanged_iff {α : Type} {hash : StdHash} {lookup : Lookup α} {e : LookupError}
    (h : lookup.run hash m dbName tableName = some (.error e, m')) :
    Unchanged m m' ↔ m.Named dbName tableName := by
  rw [unchanged_iff, lookup.run_state h, findTable_eq_iff]

/-- A server with the table `t` of the database `d`, which is not partitioned. -/
def oneTable : MetaServer :=
  new.setDb ['d'] (some ((DbMetaServer.new ['d']).addTable { TabMetaServer.new with name := ['t'] }))

/-- A lookup with the wrong partition key. -/
theorem wrong_key_unchanged :
    Unchanged oneTable oneTable ↔ oneTable.Named ['d'] ['t'] := by
  have hthrow : (Lookup.getReplicaLocationList ['k'] ['1'] ['2']).run ⟨fun _ => 0, fun _ => 0⟩
      oneTable ['d'] ['t'] = some (.error .partitionKeyNotTrue, oneTable) := by decide +kernel
  exact failed_lookup_unchanged_iff hthrow

/-- Asking an empty server for the key of a table keeps its database from being
created. -/
theorem lookup_spoils_new_server :
    (Lookup.getPartitionKey).run ⟨fun _ => 0, fun _ => 0⟩ new ['d'] ['t'] =
        some (.error .noDatabase, new.setDb ['d'] none) ∧
      new.setDb ['d'] none ≠ new ∧
      ((new.setDb ['d'] none).createDataBase ['d']).2 = false ∧
      (new.createDataBase ['d']).2 = true := by
  have hthrow : (Lookup.getPartitionKey).run ⟨fun _ => 0, fun _ => 0⟩ new ['d'] ['t'] =
      some (.error .noDatabase, new.setDb ['d'] none) := rfl
  obtain ⟨hbefore, hafter, -, -⟩ := Lookup.spoils_database hthrow rfl
  refine ⟨hthrow, by decide, ?_, ?_⟩
  · rw [hafter]
  · rw [hbefore]

end MetaServer

end RucDDBS
