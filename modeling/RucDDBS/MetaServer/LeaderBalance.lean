import Mathlib.Algebra.BigOperators.Group.Finset.Basic
import RucDDBS.Library.Balance
import RucDDBS.MetaServer.Placement

/-!
The leaders of new partitions spread over the active nodes. A partition is a turn in
which a least count of leaders is raised, so counts that differ by at most one stay
so however the map of nodes is iterated, over any number of tables.
-/

namespace RucDDBS

open Text

namespace MetaServer

section Counts

variable {nodes nodes' : SortedMap Text Node} {name : Text} {node : Node}

def activeNames (nodes : SortedMap Text Node) : Set Text :=
  {name | ∃ node, nodes.get name = some node ∧ node.activate = true}

/-- The counts of leaders of the active nodes differ by at most one. -/
def LevelLeaders (nodes : SortedMap Text Node) : Prop :=
  ∀ name node name' node', nodes.get name = some node → node.activate = true →
    nodes.get name' = some node' → node'.activate = true →
      node.leaderParCnt.toInt ≤ node'.leaderParCnt.toInt + 1

theorem levelLeaders_iff :
    LevelLeaders nodes ↔ Balance.Level (activeNames nodes) (leaderCount nodes) := by
  constructor
  · rintro h name ⟨node, hget, hactive⟩ name' ⟨node', hget', hactive'⟩
    rw [leaderCount_of_get hget, leaderCount_of_get hget']
    exact h name node name' node' hget hactive hget' hactive'
  · intro h name node name' node' hget hactive hget' hactive'
    have hle := h name ⟨node, hget, hactive⟩ name' ⟨node', hget', hactive'⟩
    rwa [leaderCount_of_get hget, leaderCount_of_get hget'] at hle

/-- The sum of the counts of leaders of all nodes. -/
def leaderSum (nodes : SortedMap Text Node) : Int :=
  (nodes.entries.map fun e => e.2.leaderParCnt.toInt).sum

theorem leaderSum_eq (nodes : SortedMap Text Node) :
    leaderSum nodes = ∑ name ∈ nodes.keys.toFinset, leaderCount nodes name := by
  have hsum := List.sum_toFinset (leaderCount nodes) nodes.sorted.nodup_keys
  rw [SortedMap.keys, hsum, leaderSum, List.map_map]
  apply congrArg List.sum
  apply List.map_congr_left
  rintro ⟨name, node⟩ hmem
  exact (leaderCount_of_get ((nodes.get_eq_some_iff name node).mpr hmem)).symm

theorem SamePlaces.activeNames (h : SamePlaces nodes nodes') :
    activeNames nodes' = activeNames nodes := by
  have hsub (first second : SortedMap Text Node) (h : SamePlaces first second) (name : Text)
      (hmem : name ∈ MetaServer.activeNames first) : name ∈ MetaServer.activeNames second := by
    obtain ⟨node, hget, hactive⟩ := hmem
    obtain ⟨node', hget', hplace⟩ := h.get hget
    have hflag : node'.activate = node.activate := congrArg (fun place => place.2.2) hplace
    exact ⟨node', hget', by rw [hflag, hactive]⟩
  ext name
  exact ⟨hsub _ _ h.symm name, hsub _ _ h name⟩

/-- The leader of the partition carries the address and the port of the node. -/
def ledAt (node : Node) (loc : PhyPartitionLocation) : Bool :=
  (loc.getReplicaLocation .leader).any fun rep =>
    decide (rep.ipAddr = node.ipAddr ∧ rep.port = node.port)

/-- The partition is led by the node that is registered under the name. -/
def LedBy (nodes : SortedMap Text Node) (name : Text) (loc : PhyPartitionLocation) : Prop :=
  ∃ node, nodes.get name = some node ∧
    loc.getReplicaLocation .leader = some ⟨node.ipAddr, node.port, .leader⟩

theorem LedBy.of_samePlaces (hsame : SamePlaces nodes' nodes) {loc : PhyPartitionLocation}
    (h : LedBy nodes' name loc) : LedBy nodes name loc := by
  obtain ⟨node', hget', hloc⟩ := h
  obtain ⟨node, hget, hplace⟩ := hsame.get hget'
  have haddr : node.ipAddr = node'.ipAddr := congrArg (fun place => place.1) hplace
  have hport : node.port = node'.port := congrArg (fun place => place.2.1) hplace
  exact ⟨node, hget, by rw [haddr, hport, hloc]⟩

/-- No two nodes share their address and port. -/
def DistinctPlaces (nodes : SortedMap Text Node) : Prop :=
  ∀ name node name' node', nodes.get name = some node → nodes.get name' = some node' →
    node.ipAddr = node'.ipAddr → node.port = node'.port → name = name'

/-- Where places are distinct, the leaders at a node are those of its turns. -/
theorem countP_turns (hdistinct : DistinctPlaces nodes) (hget : nodes.get name = some node)
    {leaders : List Text} {locs : List PhyPartitionLocation}
    (h : List.Forall₂ (LedBy nodes) leaders locs) :
    (leaders.countP fun leader => decide (name = leader)) = locs.countP (ledAt node) := by
  induction h with
  | nil => rfl
  | @cons leader loc leaders locs hfirst _ ih =>
      obtain ⟨node', hget', hloc⟩ := hfirst
      have hiff : name = leader ↔ ledAt node loc = true := by
        rw [ledAt, hloc, Option.any_some, decide_eq_true_eq]
        constructor
        · rintro rfl
          rw [hget, Option.some.injEq] at hget'
          rw [hget']
          exact ⟨rfl, rfl⟩
        · rintro ⟨haddr, hport⟩
          exact (hdistinct leader node' name node hget' hget haddr hport).symm
      rw [List.countP_cons, List.countP_cons, ih]
      simp only [hiff, decide_eq_true_eq]

end Counts

section Turns

variable {nodes nodes' nodes'' : SortedMap Text Node} {order : List Text}

/-- What turns have come to between two states of the nodes: whose turns they were, and
which partitions came of them. -/
structure Turned (nodes nodes' : SortedMap Text Node) (leaders : List Text)
    (locs : List PhyPartitionLocation) : Prop where
  turns : Balance.Turns (activeNames nodes) (leaderCount nodes) leaders
  leds : List.Forall₂ (LedBy nodes) leaders locs
  places : SamePlaces nodes nodes'
  counts : leaderCount nodes' = Balance.raiseAll (leaderCount nodes) leaders

theorem Turned.nil (nodes : SortedMap Text Node) : Turned nodes nodes [] [] where
  turns := trivial
  leds := .nil
  places := .refl nodes
  counts := rfl

theorem Turned.append {leaders leaders' : List Text} {locs locs' : List PhyPartitionLocation}
    (h : Turned nodes nodes' leaders locs) (h' : Turned nodes' nodes'' leaders' locs') :
    Turned nodes nodes'' (leaders ++ leaders') (locs ++ locs') where
  turns := by
    have hlater := h'.turns
    rw [h.places.activeNames, h.counts] at hlater
    exact h.turns.append hlater
  leds := List.rel_append h.leds (h'.leds.imp fun _ _ hled => hled.of_samePlaces h.places.symm)
  places := h.places.trans h'.places
  counts := by rw [h'.counts, h.counts, Balance.raiseAll_append]

/-- A partition is a turn of the node that leads it. -/
theorem placePartition_turned (horder : nodes.Orders order) {replicaCnt : Int32}
    {replicas : List ReplicaLocation}
    (h : placePartition order replicaCnt nodes = some (replicas, nodes')) (oid : TableOid)
    (pId : PartitionId) :
    ∃ name, Turned nodes nodes' [name] [⟨oid, pId, replicaCnt, replicas⟩] := by
  obtain ⟨leader, next, followers, hleader, hfollowers, rfl⟩ := placePartition_some h
  obtain ⟨name, node, hchosen, rfl, rfl, hsame⟩ := placeLeader_some horder hleader
  obtain ⟨hplaces, hcount, -, -⟩ := placeFollowers_frame (hsame.orders horder) hfollowers
  have hleast : Balance.Least (activeNames nodes) (leaderCount nodes) name := by
    refine ⟨⟨node, hchosen.registered, hchosen.able⟩, ?_⟩
    rintro name' ⟨node', hget', hactive'⟩
    rw [leaderCount_of_get hchosen.registered, leaderCount_of_get hget']
    exact hchosen.least name' node' hget' hactive'
  have hled : LedBy nodes name ⟨oid, pId, replicaCnt,
      ⟨node.ipAddr, node.port, .leader⟩ :: followers⟩ := ⟨node, hchosen.registered, rfl⟩
  refine ⟨name, ⟨hleast, trivial⟩, .cons hled .nil, hsame.trans hplaces, ?_⟩
  rw [hcount, Balance.raiseAll_cons, Balance.raiseAll_nil]
  funext other
  rw [leaderCount_put, Balance.raise_apply, toInt_add_one hchosen.room]
  split
  next heq => rw [heq, leaderCount_of_get hchosen.registered]
  next => rw [add_zero]

/-- The partitions of a table are turns of the nodes that lead them. -/
theorem placePartitions_turned (horder : nodes.Orders order) {oid : TableOid} {replicaCnt : Int32}
    {pars : List ParMeta} {locs : List PhyPartitionLocation}
    (h : placePartitions order oid replicaCnt pars nodes = some (locs, nodes')) :
    ∃ leaders, Turned nodes nodes' leaders locs := by
  induction pars generalizing nodes locs with
  | nil =>
      cases h
      exact ⟨[], .nil _⟩
  | cons par pars ih =>
      obtain ⟨replicas, next, rest, hfirst, hrest, rfl⟩ := placePartitions_cons h
      obtain ⟨name, hturned⟩ := placePartition_turned horder hfirst oid par.pId
      obtain ⟨leaders, hrestTurned⟩ := ih (hturned.places.orders horder) hrest
      exact ⟨name :: leaders, hturned.append hrestTurned⟩

end Turns

section Requests

variable {m m' : MetaServer}

/-- Requests for partitioned tables that all succeed, each with its own order of the
nodes, and the places of the partitions they have made. -/
inductive CreatesInTurn (m : MetaServer) :
    List CreatePartitonTableRequest → List PhyPartitionLocation → MetaServer → Prop
  | nil : CreatesInTurn m [] [] m
  | snoc {requests : List CreatePartitonTableRequest} {locs : List PhyPartitionLocation}
      {m' m'' : MetaServer} {order : List Text} {r : CreatePartitonTableRequest}
      {oid : TableOid} {db : DbMetaServer} {tms : TabMetaServer}
      (before : CreatesInTurn m requests locs m') (horder : m'.ipNodeMap.Orders order)
      (success : m'.createPartitionTable order r = some (m'', some oid))
      (database : m''.dbMap.get r.dbName = some (some db))
      (table : db.tabs.get r.tabName = some (some tms)) :
      CreatesInTurn m (requests ++ [r]) (locs ++ tms.tableLocation.partitonList) m''

/-- The number of partitions that the requests ask for. -/
def partitionsAsked (requests : List CreatePartitonTableRequest) : Nat :=
  (requests.map fun r => r.partitionCnt.toInt.toNat).sum

theorem CreatesInTurn.turned {requests : List CreatePartitonTableRequest}
    {locs : List PhyPartitionLocation} (h : CreatesInTurn m requests locs m') :
    locs.length = partitionsAsked requests ∧
      ∃ leaders, Turned m.ipNodeMap m'.ipNodeMap leaders locs := by
  induction h with
  | nil => exact ⟨rfl, [], .nil _⟩
  | snoc before horder success database table ih =>
      obtain ⟨hlength, leaders, hturned⟩ := ih
      obtain ⟨db', tms', -, hcreated⟩ := created_of_success success
      -- the table that is found is the one that was made
      rw [hcreated.database, Option.some.injEq, Option.some.injEq] at database
      subst database
      rw [hcreated.lookup, Option.some.injEq, Option.some.injEq] at table
      subst table
      obtain ⟨leaders', hnext⟩ := placePartitions_turned horder hcreated.placed
      refine ⟨?_, leaders ++ leaders', hturned.append hnext⟩
      rw [List.length_append, hlength, hcreated.length_locations]
      simp [partitionsAsked]

/-- Over any run of requests that succeed, the counts of leaders of the active nodes
keep within one of each other, their sum grows by the number of partitions, and
where places are distinct every node is counted for the partitions it leads. -/
theorem leaders_balanced {requests : List CreatePartitonTableRequest}
    {locs : List PhyPartitionLocation} (hrun : CreatesInTurn m requests locs m')
    (hlevel : LevelLeaders m.ipNodeMap) :
    LevelLeaders m'.ipNodeMap ∧ SamePlaces m.ipNodeMap m'.ipNodeMap ∧
      locs.length = partitionsAsked requests ∧
      leaderSum m'.ipNodeMap = leaderSum m.ipNodeMap + partitionsAsked requests ∧
      (DistinctPlaces m.ipNodeMap → ∀ name node node', m.ipNodeMap.get name = some node →
        m'.ipNodeMap.get name = some node' →
          node'.leaderParCnt.toInt = node.leaderParCnt.toInt + locs.countP (ledAt node)) := by
  obtain ⟨hlength, leaders, hturned⟩ := hrun.turned
  have hleaders : leaders.length = locs.length := hturned.leds.length_eq
  refine ⟨?_, hturned.places, hlength, ?_, ?_⟩
  · rw [levelLeaders_iff, hturned.places.activeNames, hturned.counts]
    exact (levelLeaders_iff.mp hlevel).raiseAll hturned.turns
  · have hregistered : ∀ name ∈ leaders, name ∈ m.ipNodeMap.keys.toFinset := by
      intro name hmem
      obtain ⟨node, hget, -⟩ := hturned.turns.mem name hmem
      rw [List.mem_toFinset, SortedMap.mem_keys_iff]
      exact ⟨node, hget⟩
    rw [leaderSum_eq, leaderSum_eq, hturned.places.keys, hturned.counts,
      Balance.sum_raiseAll hregistered, hleaders, hlength]
  · intro hdistinct name node node' hget hget'
    have hcount := congrFun hturned.counts name
    rw [Balance.raiseAll_apply, leaderCount_of_get hget, leaderCount_of_get hget',
      countP_turns hdistinct hget hturned.leds] at hcount
    exact hcount

/-- One of them has got two leaders and the other one. -/
theorem twoNodes_balanced :
    ∃ locs m', twoNodes.CreatesInTurn [threePartitions] locs m' ∧
      LevelLeaders m'.ipNodeMap ∧ leaderSum m'.ipNodeMap = 3 := by
  have hanswer : (twoNodes.createPartitionTable [['b'], ['a']] threePartitions).map Prod.snd =
      some (some 0) := by decide +kernel
  obtain ⟨⟨m', oid⟩, hsuccess, rfl⟩ := Option.map_eq_some_iff.mp hanswer
  obtain ⟨db, tms, -, hcreated⟩ := created_of_success hsuccess
  have horder : twoNodes.ipNodeMap.Orders [['b'], ['a']] := by decide +kernel
  have hrun := CreatesInTurn.nil.snoc horder hsuccess hcreated.database hcreated.lookup
  have hnodes : ∀ name node, twoNodes.ipNodeMap.get name = some node →
      node.leaderParCnt.toInt = 0 := by
    intro name node hget
    have hmem := (twoNodes.ipNodeMap.get_eq_some_iff name node).mp hget
    have hall : ∀ e ∈ twoNodes.ipNodeMap.entries, e.2.leaderParCnt.toInt = 0 := by decide +kernel
    exact hall (name, node) hmem
  have hlevel : LevelLeaders twoNodes.ipNodeMap := by
    intro name node name' node' hget _ hget' _
    rw [hnodes name node hget, hnodes name' node' hget']
    decide
  obtain ⟨hlevel', -, -, hsum, -⟩ := leaders_balanced hrun hlevel
  have hbefore : leaderSum twoNodes.ipNodeMap = 0 := by decide +kernel
  refine ⟨_, m', hrun, hlevel', ?_⟩
  rw [hsum, hbefore]
  decide

end Requests

end MetaServer

end RucDDBS
