import RucDDBS.MetaServer.MetaStore

/-!
What a request for a partitioned table does: which nodes the searches choose, what
they leave of the nodes, and which table they are for. A search finds a node exactly if
some eligible one has a count below `INT32_MAX`.
-/

namespace RucDDBS

open Text

namespace MetaServer

section Search

variable {eligible : Node → Bool} {count : Node → Int32} {entries : List (Text × Node)}

/-- One round of the search. -/
def closer (eligible : Node → Bool) (count : Node → Int32) (best : Int32 × Option (Text × Node))
    (entry : Text × Node) : Int32 × Option (Text × Node) :=
  if eligible entry.2 = true ∧ count entry.2 < best.1 then (count entry.2, some entry) else best

/-- The search ends with what it had, if nothing is less, or with a least entry. -/
theorem foldl_closer (eligible : Node → Bool) (count : Node → Int32)
    (best : Int32 × Option (Text × Node)) (entries : List (Text × Node)) :
    (entries.foldl (closer eligible count) best = best ∧
      ∀ e ∈ entries, eligible e.2 = true → best.1.toInt ≤ (count e.2).toInt) ∨
    ∃ e ∈ entries, entries.foldl (closer eligible count) best = (count e.2, some e) ∧
      eligible e.2 = true ∧ (count e.2).toInt < best.1.toInt ∧
      ∀ e' ∈ entries, eligible e'.2 = true → (count e.2).toInt ≤ (count e'.2).toInt := by
  induction entries generalizing best with
  | nil => exact .inl ⟨rfl, by simp⟩
  | cons e entries ih =>
      rw [List.foldl_cons]
      by_cases hcloser : eligible e.2 = true ∧ count e.2 < best.1
      · have hstep : closer eligible count best e = (count e.2, some e) := if_pos hcloser
        have hless : (count e.2).toInt < best.1.toInt := Int32.lt_iff_toInt_lt.mp hcloser.2
        right
        rw [hstep]
        rcases ih (count e.2, some e) with ⟨hend, hall⟩ | ⟨e', he', hend, heligible, hlt, hall⟩
        · refine ⟨e, List.mem_cons_self, hend, hcloser.1, hless, ?_⟩
          intro e' he' heligible
          rcases List.mem_cons.mp he' with rfl | he'
          · exact le_rfl
          · exact hall e' he' heligible
        · dsimp only at hlt
          refine ⟨e', List.mem_cons_of_mem _ he', hend, heligible, by omega, ?_⟩
          intro e'' he'' heligible'
          rcases List.mem_cons.mp he'' with rfl | he''
          · omega
          · exact hall e'' he'' heligible'
      · have hstep : closer eligible count best e = best := if_neg hcloser
        have hless : eligible e.2 = true → best.1.toInt ≤ (count e.2).toInt := by
          intro heligible
          rw [not_and, Int32.lt_iff_toInt_lt, not_lt] at hcloser
          exact hcloser heligible
        rw [hstep]
        rcases ih best with ⟨hend, hall⟩ | ⟨e', he', hend, heligible, hlt, hall⟩
        · left
          refine ⟨hend, ?_⟩
          intro e' he' heligible
          rcases List.mem_cons.mp he' with rfl | he'
          · exact hless heligible
          · exact hall e' he' heligible
        · right
          refine ⟨e', List.mem_cons_of_mem _ he', hend, heligible, hlt, ?_⟩
          intro e'' he'' heligible'
          rcases List.mem_cons.mp he'' with rfl | he''
          · have hbest := hless heligible'
            omega
          · exact hall e'' he'' heligible'

theorem leastNode_eq (eligible : Node → Bool) (count : Node → Int32) (entries : List (Text × Node)) :
    leastNode eligible count entries =
      (entries.foldl (closer eligible count) (Int32.maxValue, none)).2 := rfl

theorem leastNode_mem {entry : Text × Node} (h : leastNode eligible count entries = some entry) :
    entry ∈ entries := by
  rw [leastNode_eq] at h
  rcases foldl_closer eligible count (Int32.maxValue, none) entries with ⟨hend, -⟩ | ⟨e, he, hend, -⟩
  · rw [hend] at h
    cases h
  · rw [hend] at h
    cases h
    exact he

theorem toInt_maxValue : Int32.maxValue.toInt = 2 ^ 31 - 1 := rfl

/-- The node has the least count of the eligible ones, and it can be raised. -/
structure Chosen (eligible : Node → Bool) (count : Node → Int32) (nodes : SortedMap Text Node)
    (name : Text) (node : Node) : Prop where
  registered : nodes.get name = some node
  able : eligible node = true
  room : (count node).toInt < 2 ^ 31 - 1
  least : ∀ name' node', nodes.get name' = some node' → eligible node' = true →
    (count node).toInt ≤ (count node').toInt

variable {nodes : SortedMap Text Node} {order : List Text} {name : Text} {node : Node}

theorem mem_entriesIn_of_get (horder : nodes.Orders order) (h : nodes.get name = some node) :
    (name, node) ∈ nodes.entriesIn order :=
  (SortedMap.entriesIn_perm horder).mem_iff.mpr ((nodes.get_eq_some_iff name node).mp h)

theorem chosen_of_leastNode (horder : nodes.Orders order)
    (h : leastNode eligible count (nodes.entriesIn order) = some (name, node)) :
    Chosen eligible count nodes name node := by
  rw [leastNode_eq] at h
  rcases foldl_closer eligible count (Int32.maxValue, none) (nodes.entriesIn order) with ⟨hend, -⟩ | ⟨e, he, hend, heligible, hlt, hall⟩
  · rw [hend] at h
    cases h
  · rw [hend] at h
    cases h
    rw [toInt_maxValue] at hlt
    refine ⟨SortedMap.mem_entriesIn he, heligible, hlt, ?_⟩
    intro name' node' hget heligible'
    exact hall (name', node') (mem_entriesIn_of_get horder hget) heligible'

/-- A search that finds nothing has passed no eligible node with room. -/
theorem leastNode_isSome (horder : nodes.Orders order) (hget : nodes.get name = some node)
    (heligible : eligible node = true) (hroom : (count node).toInt < 2 ^ 31 - 1) :
    ∃ e, leastNode eligible count (nodes.entriesIn order) = some e := by
  rw [leastNode_eq]
  rcases foldl_closer eligible count (Int32.maxValue, none) (nodes.entriesIn order) with ⟨-, hall⟩ | ⟨e, -, hend, -⟩
  · have hle := hall (name, node) (mem_entriesIn_of_get horder hget) heligible
    rw [toInt_maxValue] at hle
    dsimp only at hle
    omega
  · exact ⟨e, by rw [hend]⟩

end Search

section Places

variable {nodes nodes' nodes'' : SortedMap Text Node} {order : List Text} {name : Text}
  {node node' : Node}

/-- All of a node but its counts. -/
def Node.place (node : Node) : Text × Int32 × Bool := (node.ipAddr, node.port, node.activate)

/-- The same nodes, perhaps with other counts. -/
def SamePlaces (nodes nodes' : SortedMap Text Node) : Prop :=
  ∀ name, (nodes'.get name).map Node.place = (nodes.get name).map Node.place

theorem SamePlaces.refl (nodes : SortedMap Text Node) : SamePlaces nodes nodes := fun _ => rfl

theorem SamePlaces.symm (h : SamePlaces nodes nodes') : SamePlaces nodes' nodes :=
  fun name => (h name).symm

theorem SamePlaces.trans (h : SamePlaces nodes nodes') (h' : SamePlaces nodes' nodes'') :
    SamePlaces nodes nodes'' := fun name => (h' name).trans (h name)

theorem SamePlaces.get (h : SamePlaces nodes nodes') (hget : nodes.get name = some node) :
    ∃ node', nodes'.get name = some node' ∧ node'.place = node.place := by
  have hsame := h name
  rw [hget, Option.map_some, Option.map_eq_some_iff] at hsame
  exact hsame

theorem SamePlaces.keys (h : SamePlaces nodes nodes') : nodes'.keys = nodes.keys := by
  apply SortedMap.keys_eq_of_mem
  intro name
  rw [SortedMap.mem_keys_iff, SortedMap.mem_keys_iff]
  constructor
  · rintro ⟨node', hget⟩
    obtain ⟨node, hnode, -⟩ := h.symm.get hget
    exact ⟨node, hnode⟩
  · rintro ⟨node, hget⟩
    obtain ⟨node', hnode', -⟩ := h.get hget
    exact ⟨node', hnode'⟩

theorem SamePlaces.orders (h : SamePlaces nodes nodes') (horder : nodes.Orders order) :
    nodes'.Orders order := by
  rw [SortedMap.Orders, h.keys]
  exact horder

theorem samePlaces_put (hget : nodes.get name = some node) (hplace : node'.place = node.place) :
    SamePlaces nodes (nodes.put name node') := by
  intro other
  rw [SortedMap.get_put]
  split
  next heq => rw [heq, hget, Option.map_some, Option.map_some, hplace]
  next => rfl

/-- The count of leaders of the node that is registered under a name. -/
def leaderCount (nodes : SortedMap Text Node) (name : Text) : Int :=
  ((nodes.get name).map fun node => node.leaderParCnt.toInt).getD 0

theorem leaderCount_of_get (h : nodes.get name = some node) :
    leaderCount nodes name = node.leaderParCnt.toInt := by
  rw [leaderCount, h]
  rfl

theorem leaderCount_put (nodes : SortedMap Text Node) (name : Text) (node : Node) (other : Text) :
    leaderCount (nodes.put name node) other =
      if other = name then node.leaderParCnt.toInt else leaderCount nodes other := by
  rw [leaderCount, SortedMap.get_put]
  split
  · rfl
  · rfl

/-- A count with room does not wrap. -/
theorem toInt_add_one {cnt : Int32} (h : cnt.toInt < 2 ^ 31 - 1) : (cnt + 1).toInt = cnt.toInt + 1 := by
  have hlow := cnt.le_toInt
  have hone : (1 : Int32).toInt = 1 := rfl
  rw [Int32.toInt_add, hone, Int.bmod_eq_of_le_mul_two (by omega) (by omega)]

end Places

section Place

variable {nodes nodes' : SortedMap Text Node} {order used : List Text} {role : ReplicaRole}
  {eligible : Node → Bool} {count : Node → Int32} {counted : Node → Node} {loc : ReplicaLocation}

theorem placeReplica_some
    (h : placeReplica role eligible count counted order nodes = some (loc, nodes')) :
    ∃ name node, leastNode eligible count (nodes.entriesIn order) = some (name, node) ∧
      loc = ⟨node.ipAddr, node.port, role⟩ ∧ nodes' = nodes.put name (counted node) := by
  simp only [placeReplica, Option.bind_eq_bind, Option.bind_eq_some_iff, Prod.exists,
    Option.pure_def, Option.some.injEq, Prod.mk.injEq] at h
  obtain ⟨name, node, hleast, rfl, rfl⟩ := h
  exact ⟨name, node, hleast, rfl, rfl⟩

theorem placeLeader_some (horder : nodes.Orders order)
    (h : placeLeader order nodes = some (loc, nodes')) :
    ∃ name node, Chosen (fun node => node.activate) (fun node => node.leaderParCnt) nodes name node ∧
      loc = ⟨node.ipAddr, node.port, .leader⟩ ∧
      nodes' = nodes.put name { node with leaderParCnt := node.leaderParCnt + 1 } ∧
      SamePlaces nodes nodes' := by
  obtain ⟨name, node, hleast, hloc, rfl⟩ := placeReplica_some h
  have hchosen := chosen_of_leastNode horder hleast
  exact ⟨name, node, hchosen, hloc, rfl, samePlaces_put hchosen.registered rfl⟩

theorem placeFollower_some (horder : nodes.Orders order)
    (h : placeFollower used order nodes = some (loc, nodes')) :
    ∃ name node, Chosen (fun node => node.activate && !used.contains node.ipAddr)
        (fun node => node.followerParCnt) nodes name node ∧
      loc = ⟨node.ipAddr, node.port, .follower⟩ ∧
      nodes' = nodes.put name { node with followerParCnt := node.followerParCnt + 1 } ∧
      SamePlaces nodes nodes' := by
  obtain ⟨name, node, hleast, hloc, rfl⟩ := placeReplica_some h
  have hchosen := chosen_of_leastNode horder hleast
  exact ⟨name, node, hchosen, hloc, rfl, samePlaces_put hchosen.registered rfl⟩

theorem placeFollowers_succ {rounds : Nat} {locs : List ReplicaLocation}
    (h : placeFollowers order (rounds + 1) used nodes = some (locs, nodes')) :
    ∃ loc next rest, placeFollower used order nodes = some (loc, next) ∧
      placeFollowers order rounds (loc.ipAddr :: used) next = some (rest, nodes') ∧
      locs = loc :: rest := by
  simp only [placeFollowers, Option.bind_eq_bind, Option.bind_eq_some_iff, Prod.exists,
    Option.pure_def, Option.some.injEq, Prod.mk.injEq] at h
  obtain ⟨loc, next, hfirst, rest, last, hrest, rfl, rfl⟩ := h
  exact ⟨loc, next, rest, hfirst, hrest, rfl⟩

/-- Followers are counted as such and leave everything else of the nodes. -/
theorem placeFollowers_frame {rounds : Nat} {locs : List ReplicaLocation}
    (horder : nodes.Orders order)
    (h : placeFollowers order rounds used nodes = some (locs, nodes')) :
    SamePlaces nodes nodes' ∧ leaderCount nodes' = leaderCount nodes ∧ locs.length = rounds ∧
      ∀ loc ∈ locs, loc.role = .follower := by
  induction rounds generalizing used nodes locs with
  | zero =>
      cases h
      exact ⟨.refl _, rfl, rfl, by simp⟩
  | succ rounds ih =>
      obtain ⟨loc, next, rest, hfirst, hrest, rfl⟩ := placeFollowers_succ h
      obtain ⟨name, node, hchosen, rfl, rfl, hsame⟩ := placeFollower_some horder hfirst
      obtain ⟨hplaces, hcount, hlength, hroles⟩ := ih (hsame.orders horder) hrest
      refine ⟨hsame.trans hplaces, ?_, by rw [List.length_cons, hlength], ?_⟩
      · rw [hcount]
        funext other
        rw [leaderCount_put]
        split
        next heq => rw [heq, leaderCount_of_get hchosen.registered]
        next => rfl
      · exact List.forall_mem_cons.mpr ⟨rfl, hroles⟩

theorem placePartition_some {replicaCnt : Int32} {replicas : List ReplicaLocation}
    (h : placePartition order replicaCnt nodes = some (replicas, nodes')) :
    ∃ leader next followers, placeLeader order nodes = some (leader, next) ∧
      placeFollowers order (replicaCnt.toInt - 1).toNat [leader.ipAddr] next =
        some (followers, nodes') ∧ replicas = leader :: followers := by
  simp only [placePartition, Option.bind_eq_bind, Option.bind_eq_some_iff, Prod.exists,
    Option.pure_def, Option.some.injEq, Prod.mk.injEq] at h
  obtain ⟨leader, next, hleader, followers, last, hfollowers, rfl, rfl⟩ := h
  exact ⟨leader, next, followers, hleader, hfollowers, rfl⟩

theorem placePartition_samePlaces (horder : nodes.Orders order) {replicaCnt : Int32}
    {replicas : List ReplicaLocation}
    (h : placePartition order replicaCnt nodes = some (replicas, nodes')) :
    SamePlaces nodes nodes' := by
  obtain ⟨leader, next, followers, hleader, hfollowers, -⟩ := placePartition_some h
  obtain ⟨name, node, hchosen, -, rfl, hsame⟩ := placeLeader_some horder hleader
  exact hsame.trans (placeFollowers_frame (hsame.orders horder) hfollowers).1

theorem placePartitions_cons {oid : TableOid} {replicaCnt : Int32} {par : ParMeta}
    {pars : List ParMeta} {locs : List PhyPartitionLocation}
    (h : placePartitions order oid replicaCnt (par :: pars) nodes = some (locs, nodes')) :
    ∃ replicas next rest, placePartition order replicaCnt nodes = some (replicas, next) ∧
      placePartitions order oid replicaCnt pars next = some (rest, nodes') ∧
      locs = ⟨oid, par.pId, replicaCnt, replicas⟩ :: rest := by
  simp only [placePartitions, Option.bind_eq_bind, Option.bind_eq_some_iff, Prod.exists,
    Option.pure_def, Option.some.injEq, Prod.mk.injEq] at h
  obtain ⟨replicas, next, hfirst, rest, last, hrest, rfl, rfl⟩ := h
  exact ⟨replicas, next, rest, hfirst, hrest, rfl⟩

/-- The places of a table are those of its partitions, in order. -/
theorem placePartitions_pIds {oid : TableOid} {replicaCnt : Int32} {pars : List ParMeta}
    {locs : List PhyPartitionLocation}
    (h : placePartitions order oid replicaCnt pars nodes = some (locs, nodes')) :
    locs.map PhyPartitionLocation.pId = pars.map ParMeta.pId := by
  induction pars generalizing nodes locs with
  | nil =>
      cases h
      rfl
  | cons par pars ih =>
      obtain ⟨replicas, next, rest, -, hrest, rfl⟩ := placePartitions_cons h
      rw [List.map_cons, List.map_cons, ih hrest]

end Place

section Tables

variable {m m' : MetaServer} {order : List Text} {r : CreatePartitonTableRequest}

/-- A check answers the request without success. -/
def Refuses (m : MetaServer) (r : CreatePartitonTableRequest) : Prop :=
  m.dbMap.get r.dbName = none ∨ ∃ db, m.dbMap.get r.dbName = some (some db) ∧
    (db.tabs.contains r.tabName = true ∨ r.partitionType = .nonePartition ∨
      fewerReplicas r.replicaCnt m.ipNodeMap = true)

/-- The table that a request asks for, with its columns, partitions and places. -/
def tableOf (r : CreatePartitonTableRequest) (oid : TableOid) (colInfo : ColumnInfo)
    (partitions : List ParMeta) (locs : List PhyPartitionLocation) : TabMetaServer where
  oid := oid
  name := r.tabName
  colInfo := colInfo
  partitionType := partitionTypeOf r.partitionKeyType
  partitionKeyName := r.partitionKeyName
  partitionKeyType := r.partitionKeyType
  partitionCnt := r.partitionCnt
  partitions := partitions
  tableLocation := ⟨oid, if r.hasReplica then .duplicate else .notDuplicate, locs⟩

/-- The request has made this table in this database. -/
structure Created (m : MetaServer) (order : List Text) (r : CreatePartitonTableRequest)
    (m' : MetaServer) (db : DbMetaServer) (tms : TabMetaServer) : Prop where
  found : m.dbMap.get r.dbName = some (some db)
  admitted : ¬ m.Refuses r
  columns : columns r.colName r.colType = some tms.colInfo
  partitions : partitionsOf r.partitionCnt r.range = some tms.partitions
  placed : placePartitions order db.nextOid r.replicaCnt tms.partitions m.ipNodeMap =
    some (tms.tableLocation.partitonList, m'.ipNodeMap)
  table : tms = tableOf r db.nextOid tms.colInfo tms.partitions tms.tableLocation.partitonList
  stored : m'.dbMap = m.dbMap.put r.dbName (some (db.addTable tms))

/-- There are as many partitions as are asked for. -/
theorem length_partitionsOf {partitionCnt : Int32} {range : List (Text × Text)}
    {pars : List ParMeta} (h : partitionsOf partitionCnt range = some pars) :
    pars.length = partitionCnt.toInt.toNat := by
  obtain ⟨hranges, heq⟩ := Option.ite_none_right_eq_some.mp h
  rw [Option.some.injEq] at heq
  rw [← heq, List.length_map, List.length_zip, List.length_range, min_eq_left hranges]

theorem not_refuses_iff {db : DbMetaServer} (hdb : m.dbMap.get r.dbName = some (some db)) :
    ¬ m.Refuses r ↔ ¬ (db.tabs.contains r.tabName = true ∨ r.partitionType = .nonePartition ∨
      fewerReplicas r.replicaCnt m.ipNodeMap = true) := by
  simp [Refuses, hdb]

theorem createPartitionTable_refused (h : m.Refuses r) :
    m.createPartitionTable order r = some (m, none) := by
  rcases h with hnone | ⟨db, hdb, hcheck⟩
  · rw [createPartitionTable, hnone]
  · rw [createPartitionTable, hdb]
    exact if_pos hcheck

/-- A request that is answered with success has made its table. -/
theorem created_of_success {oid : TableOid}
    (h : m.createPartitionTable order r = some (m', some oid)) :
    ∃ db tms, oid = db.nextOid ∧ Created m order r m' db tms := by
  unfold createPartitionTable at h
  split at h
  · cases h
  · cases h
  · rename_i db hdb
    split at h
    · cases h
    next hadmitted =>
      simp only [Option.bind_eq_bind, Option.bind_eq_some_iff, Prod.exists, Option.pure_def,
        Option.some.injEq, Prod.mk.injEq] at h
      obtain ⟨colInfo, hcols, pars, hpars, locs, nodes, hplace, rfl, rfl⟩ := h
      exact ⟨db, tableOf r db.nextOid colInfo pars locs, rfl, {
        found := hdb
        admitted := (not_refuses_iff hdb).mpr hadmitted
        columns := hcols
        partitions := hpars
        placed := hplace
        table := rfl
        stored := rfl }⟩

/-- An answer without success comes from a check, and nothing has changed. -/
theorem refuses_of_failure (h : m.createPartitionTable order r = some (m', none)) :
    m.Refuses r ∧ m' = m := by
  unfold createPartitionTable at h
  split at h
  next hnone =>
    cases h
    exact ⟨.inl hnone, rfl⟩
  · cases h
  · rename_i db hdb
    split at h
    next hcheck =>
      cases h
      exact ⟨.inr ⟨db, hdb, hcheck⟩, rfl⟩
    next => simp [Option.bind_eq_some_iff] at h

/-- A request that no check refuses succeeds if it can be placed. -/
theorem success_of_placed {db : DbMetaServer} {colInfo : ColumnInfo} {pars : List ParMeta}
    {locs : List PhyPartitionLocation} {nodes : SortedMap Text Node}
    (hdb : m.dbMap.get r.dbName = some (some db)) (hadmitted : ¬ m.Refuses r)
    (hcols : MetaServer.columns r.colName r.colType = some colInfo)
    (hpars : partitionsOf r.partitionCnt r.range = some pars)
    (hplace : placePartitions order db.nextOid r.replicaCnt pars m.ipNodeMap = some (locs, nodes)) :
    ∃ m', m.createPartitionTable order r = some (m', some db.nextOid) := by
  rw [not_refuses_iff hdb] at hadmitted
  rw [createPartitionTable, hdb]
  dsimp only
  rw [if_neg hadmitted, hcols, hpars]
  simp only [Option.bind_eq_bind, Option.bind_some, hplace]
  exact ⟨_, rfl⟩

namespace Created

variable {db : DbMetaServer} {tms : TabMetaServer}

theorem database (h : Created m order r m' db tms) :
    m'.dbMap.get r.dbName = some (some (db.addTable tms)) := by
  rw [h.stored, SortedMap.get_put_self]

theorem tabName (h : Created m order r m' db tms) : tms.name = r.tabName := by
  rw [h.table]
  rfl

theorem lookup (h : Created m order r m' db tms) :
    (db.addTable tms).tabs.get r.tabName = some (some tms) := by
  rw [← h.tabName]
  exact SortedMap.get_put_self _ _ _

theorem pIds (h : Created m order r m' db tms) :
    tms.tableLocation.partitonList.map PhyPartitionLocation.pId = tms.partitions.map ParMeta.pId :=
  placePartitions_pIds h.placed

theorem length_partitions (h : Created m order r m' db tms) :
    tms.partitions.length = r.partitionCnt.toInt.toNat := length_partitionsOf h.partitions

theorem length_locations (h : Created m order r m' db tms) :
    tms.tableLocation.partitonList.length = r.partitionCnt.toInt.toNat := by
  have hlength := congrArg List.length h.pIds
  simpa [h.length_partitions] using hlength

end Created

/-- Two nodes that have registered, and a database. -/
def twoNodes : MetaServer :=
  ((new.createDataBase ['d']).1.nodeRegister ['1'] ⟨['a'], 8001⟩).nodeRegister ['2'] ⟨['b'], 8002⟩

/-- A table in three partitions, each on both nodes. -/
def threePartitions : CreatePartitonTableRequest where
  dbName := ['d']
  tabName := ['t']
  partitionType := .rangePartition
  partitionKeyName := ['k']
  partitionKeyType := .typeFloat
  partitionCnt := 3
  range := [(['0'], ['1']), (['1'], ['2']), (['2'], ['3'])]
  hasReplica := true
  replicaCnt := 2
  colName := [['k']]
  colType := [1]

end Tables

end MetaServer

end RucDDBS
