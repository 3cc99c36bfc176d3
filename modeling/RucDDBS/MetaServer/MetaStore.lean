import Mathlib.Data.List.Lex
import Mathlib.Data.Char
import RucDDBS.Library.SortedMap
import RucDDBS.MetaServer.TableLocation

/-!
What the meta server keeps, and the requests that change it: databases, their
tables with the places of their partitions, and the registered nodes.

The two hash maps of pointers are maps whose values may be null. Their iteration
order is given to an operation that depends on it. What is undefined in the source
is `none`: a null pointer that is followed, a repeated field read behind its end,
and a node pointer that no round of the search has set.
-/

namespace RucDDBS

open Text

namespace MetaServer

inductive ColType where
  | typeInt | typeFloat | typeString
  deriving DecidableEq, Repr

instance : StreamEnum ColType where
  number
    | .typeInt => 0
    | .typeFloat => 1
    | .typeString => 2
  ofNumber n :=
    if n = 0 then some .typeInt
    else if n = 1 then some .typeFloat
    else if n = 2 then some .typeString
    else none
  ofNumber_number := by
    intro type
    cases type <;> decide

inductive PartitionType where
  | nonePartition | rangePartition | hashPartition
  deriving DecidableEq, Repr

instance : StreamEnum PartitionType where
  number
    | .nonePartition => 0
    | .rangePartition => 1
    | .hashPartition => 2
  ofNumber n :=
    if n = 0 then some .nonePartition
    else if n = 1 then some .rangePartition
    else if n = 2 then some .hashPartition
    else none
  ofNumber_number := by
    intro type
    cases type <;> decide

/-- `Column_info`; its two vectors grow together. A type is kept as its number,
which the cast to `ColType` does not check. -/
abbrev ColumnInfo := List (Text × Int32)

structure ParMeta where
  name : Text
  pId : PartitionId
  minRange : Text
  maxRange : Text
  deriving DecidableEq, Repr

structure TabMetaServer where
  oid : TableOid
  name : Text
  colInfo : ColumnInfo
  partitionType : PartitionType
  partitionKeyName : Text
  partitionKeyType : ColType
  partitionCnt : Int32
  partitions : List ParMeta
  tableLocation : PhyTableLocation
  deriving DecidableEq, Repr

/-- `new TabMetaServer()` sets all to zero. -/
def TabMetaServer.new : TabMetaServer :=
  ⟨0, [], [], .nonePartition, [], .typeInt, 0, [], ⟨0, .notDuplicate, []⟩⟩

structure DbMetaServer where
  nextOid : TableOid
  name : Text
  tabs : SortedMap Text (Option TabMetaServer)
  deriving DecidableEq

def DbMetaServer.new (name : Text) : DbMetaServer := ⟨0, name, .empty⟩

structure Node where
  ipAddr : Text
  port : Int32
  activate : Bool
  leaderParCnt : Int32
  followerParCnt : Int32
  deriving DecidableEq, Repr

def Node.new (ipAddr : Text) (port : Int32) (activate : Bool) : Node := ⟨ipAddr, port, activate, 0, 0⟩

end MetaServer

open MetaServer in
structure MetaServer where
  dbMap : SortedMap Text (Option DbMetaServer)
  ipNodeMap : SortedMap Text Node
  deriving DecidableEq

namespace MetaServer

def new : MetaServer := ⟨.empty, .empty⟩

def setDb (m : MetaServer) (dbName : Text) (db : Option DbMetaServer) : MetaServer :=
  { m with dbMap := m.dbMap.put dbName db }

@[simp] theorem setDb_dbMap (m : MetaServer) (dbName : Text) (db : Option DbMetaServer) :
    (m.setDb dbName db).dbMap = m.dbMap.put dbName db := rfl

def createDataBase (m : MetaServer) (dbName : Text) : MetaServer × Bool :=
  if m.dbMap.contains dbName then (m, false)
  else (m.setDb dbName (some (.new dbName)), true)

/-- The loop over `col_name`, which reads `col_type` beside it. -/
def columns (colName : List Text) (colType : List Int32) : Option ColumnInfo :=
  if colName.length ≤ colType.length then some (colName.zip colType) else none

/-- A new table takes the next number of its database. -/
def DbMetaServer.addTable (db : DbMetaServer) (tms : TabMetaServer) : DbMetaServer :=
  { db with nextOid := db.nextOid + 1, tabs := db.tabs.put tms.name (some tms) }

structure CreateTableRequest where
  dbName : Text
  tabName : Text
  colName : List Text
  colType : List Int32
  deriving DecidableEq, Repr

/-- The answer is the number of the table, and nothing if the request fails. -/
def createTable (m : MetaServer) (r : CreateTableRequest) :
    Option (MetaServer × Option TableOid) :=
  match m.dbMap.get r.dbName with
  | none => some (m, none)
  | some none => none
  | some (some db) =>
      if db.tabs.contains r.tabName then some (m, none)
      else do
        let colInfo ← columns r.colName r.colType
        let tms := { TabMetaServer.new with oid := db.nextOid, name := r.tabName, colInfo := colInfo }
        pure (m.setDb r.dbName (some (db.addTable tms)), some db.nextOid)

section Placement

/-- The search for a node with the least count, in the order of the iteration. A
count of `INT32_MAX` is not found. -/
def leastNode (eligible : Node → Bool) (count : Node → Int32) (nodes : List (Text × Node)) :
    Option (Text × Node) :=
  (nodes.foldl (fun best entry =>
    if eligible entry.2 = true ∧ count entry.2 < best.1 then (count entry.2, some entry) else best)
    (Int32.maxValue, none)).2

/-- The search for a node, and the replica that is placed on it and counted there. -/
def placeReplica (role : ReplicaRole) (eligible : Node → Bool) (count : Node → Int32)
    (counted : Node → Node) (order : List Text) (nodes : SortedMap Text Node) :
    Option (ReplicaLocation × SortedMap Text Node) := do
  let (name, node) ← leastNode eligible count (nodes.entriesIn order)
  pure (⟨node.ipAddr, node.port, role⟩, nodes.put name (counted node))

def placeLeader : List Text → SortedMap Text Node → Option (ReplicaLocation × SortedMap Text Node) :=
  placeReplica .leader (fun node => node.activate) (fun node => node.leaderParCnt)
    fun node => { node with leaderParCnt := node.leaderParCnt + 1 }

/-- `used` are the addresses that have a replica of the partition. -/
def placeFollower (used : List Text) :
    List Text → SortedMap Text Node → Option (ReplicaLocation × SortedMap Text Node) :=
  placeReplica .follower (fun node => node.activate && !used.contains node.ipAddr)
    (fun node => node.followerParCnt)
    fun node => { node with followerParCnt := node.followerParCnt + 1 }

/-- The followers of a partition. -/
def placeFollowers (order : List Text) :
    Nat → List Text → SortedMap Text Node → Option (List ReplicaLocation × SortedMap Text Node)
  | 0, _, nodes => some ([], nodes)
  | rounds + 1, used, nodes => do
      let (loc, nodes) ← placeFollower used order nodes
      let (locs, nodes) ← placeFollowers order rounds (loc.ipAddr :: used) nodes
      pure (loc :: locs, nodes)

def placePartition (order : List Text) (replicaCnt : Int32) (nodes : SortedMap Text Node) :
    Option (List ReplicaLocation × SortedMap Text Node) := do
  let (leader, nodes) ← placeLeader order nodes
  let (followers, nodes) ← placeFollowers order (replicaCnt.toInt - 1).toNat [leader.ipAddr] nodes
  pure (leader :: followers, nodes)

def placePartitions (order : List Text) (oid : TableOid) (replicaCnt : Int32) :
    List ParMeta → SortedMap Text Node →
      Option (List PhyPartitionLocation × SortedMap Text Node)
  | [], nodes => some ([], nodes)
  | par :: pars, nodes => do
      let (replicas, nodes) ← placePartition order replicaCnt nodes
      let (locs, nodes) ← placePartitions order oid replicaCnt pars nodes
      pure (⟨oid, par.pId, replicaCnt, replicas⟩ :: locs, nodes)

end Placement

structure CreatePartitonTableRequest where
  dbName : Text
  tabName : Text
  partitionType : PartitionType
  partitionKeyName : Text
  partitionKeyType : ColType
  partitionCnt : Int32
  range : List (Text × Text)
  hasReplica : Bool
  replicaCnt : Int32
  colName : List Text
  colType : List Int32
  deriving DecidableEq, Repr

/-- The switch that sets the type of the partition looks at the type of the key,
against the numbers of the partition types. -/
def partitionTypeOf (keyType : ColType) : PartitionType :=
  match keyType with
  | .typeFloat => .rangePartition
  | .typeString => .hashPartition
  | .typeInt => .nonePartition

/-- Partition `i` is named `p` and its number. -/
def parMeta (i : Nat) (range : Text × Text) : ParMeta :=
  ⟨'p' :: ofInt i, Int32.ofNat i, range.1, range.2⟩

/-- The loop over the partitions, which reads the `i`-th range. -/
def partitionsOf (partitionCnt : Int32) (range : List (Text × Text)) : Option (List ParMeta) :=
  let cnt := partitionCnt.toInt.toNat
  if cnt ≤ range.length then some (((List.range cnt).zip range).map fun e => parMeta e.1 e.2) else none

/-- `size_t(replica_cnt) < ip_node_map.size()`. -/
def fewerReplicas (replicaCnt : Int32) (nodes : SortedMap Text Node) : Bool :=
  decide (replicaCnt.toInt % 2 ^ 64 < nodes.size)

def createPartitionTable (m : MetaServer) (order : List Text) (r : CreatePartitonTableRequest) :
    Option (MetaServer × Option TableOid) :=
  match m.dbMap.get r.dbName with
  | none => some (m, none)
  | some none => none
  | some (some db) =>
      if db.tabs.contains r.tabName = true ∨ r.partitionType = .nonePartition ∨
          fewerReplicas r.replicaCnt m.ipNodeMap = true then some (m, none)
      else do
        let colInfo ← columns r.colName r.colType
        let partitions ← partitionsOf r.partitionCnt r.range
        let (locs, nodes) ← placePartitions order db.nextOid r.replicaCnt partitions m.ipNodeMap
        let tms : TabMetaServer := {
          oid := db.nextOid
          name := r.tabName
          colInfo := colInfo
          partitionType := partitionTypeOf r.partitionKeyType
          partitionKeyName := r.partitionKeyName
          partitionKeyType := r.partitionKeyType
          partitionCnt := r.partitionCnt
          partitions := partitions
          tableLocation := ⟨db.nextOid, if r.hasReplica then .duplicate else .notDuplicate, locs⟩ }
        pure ({ m.setDb r.dbName (some (db.addTable tms)) with ipNodeMap := nodes },
          some db.nextOid)

structure RegisterRequest where
  serverName : Text
  serverListenPort : UInt32
  deriving DecidableEq, Repr

/-- A node that is known already is made active and keeps its address. -/
def nodeRegister (m : MetaServer) (remoteIp : Text) (r : RegisterRequest) : MetaServer :=
  match m.ipNodeMap.get r.serverName with
  | some node =>
      { m with ipNodeMap := m.ipNodeMap.put r.serverName { node with activate := true } }
  | none =>
      { m with
        ipNodeMap := m.ipNodeMap.put r.serverName (.new remoteIp r.serverListenPort.toInt32 true) }

end MetaServer

end RucDDBS
