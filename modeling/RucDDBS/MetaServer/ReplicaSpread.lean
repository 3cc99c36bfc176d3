import Mathlib.Data.List.Perm.Subperm
import RucDDBS.MetaServer.Placement

/-!
Where the replicas of a new partition go. The only check compares the number of
replicas with the number of registered nodes, and it refuses a request that asks for
fewer. What it lets through is placed as it should be only if every registered node
gets a replica of every partition.
-/

namespace RucDDBS

open Text

namespace MetaServer

section Spec

/-- The replica is on this active node. -/
def OnNode (nodes : SortedMap Text Node) (name : Text) (rep : ReplicaLocation) : Prop :=
  ∃ node, nodes.get name = some node ∧ node.activate = true ∧
    rep.ipAddr = node.ipAddr ∧ rep.port = node.port

/-- The partition has as many replicas as it should, one of them the leader, on active
nodes that are all different. -/
structure Spread (nodes : SortedMap Text Node) (replicaCnt : Int32) (loc : PhyPartitionLocation) :
    Prop where
  count : (loc.repliacaLocation.length : Int) = replicaCnt.toInt
  leader : (loc.repliacaLocation.countP fun rep => decide (rep.role = .leader)) = 1
  placed : ∀ rep ∈ loc.repliacaLocation, ∃ name, OnNode nodes name rep
  apart : loc.repliacaLocation.Pairwise fun rep rep' =>
    ∀ name, OnNode nodes name rep → ¬ OnNode nodes name rep'

def activeCount (nodes : SortedMap Text Node) : Nat := nodes.entries.countP fun e => e.2.activate

/-- The request is handled: a table that it makes is spread as it should be, and it
is refused if it asks for more replicas than there are active nodes. -/
def PlacesReplicas (m : MetaServer) (order : List Text) (r : CreatePartitonTableRequest) : Prop :=
  ∃ m' answer, m.createPartitionTable order r = some (m', answer) ∧
    (∀ oid, answer = some oid → ∃ db tms, m'.dbMap.get r.dbName = some (some db) ∧
      db.tabs.get r.tabName = some (some tms) ∧
      tms.tableLocation.partitonList.map PhyPartitionLocation.pId =
        tms.partitions.map ParMeta.pId ∧
      ∀ loc ∈ tms.tableLocation.partitonList, Spread m.ipNodeMap r.replicaCnt loc) ∧
    ((activeCount m.ipNodeMap : Int) < r.replicaCnt.toInt → answer = none ∧ m' = m)

/-- The counts after a partition on all nodes, of which one leads. -/
def recount (name : Text) (nodes : SortedMap Text Node) : SortedMap Text Node :=
  nodes.mapWithKey fun other node =>
    if other = name then { node with leaderParCnt := node.leaderParCnt + 1 }
    else { node with followerParCnt := node.followerParCnt + 1 }

/-- No count has to grow beyond `INT32_MAX` when so many partitions are placed on all
nodes, each led by the first node with the least count. -/
def Room (order : List Text) : Nat → SortedMap Text Node → Prop
  | 0, _ => True
  | pars + 1, nodes => ∃ name node,
      leastNode (fun node => node.activate) (fun node => node.leaderParCnt)
        (nodes.entriesIn order) = some (name, node) ∧
      (∀ name' node', nodes.get name' = some node' → name' ≠ name →
        node'.followerParCnt.toInt < 2 ^ 31 - 1) ∧
      Room order pars (recount name nodes)

/-- All nodes are active, no two of them have one address, and there is one for every
replica. -/
structure OneForEach (nodes : SortedMap Text Node) (replicaCnt : Int32) : Prop where
  count : replicaCnt.toInt = nodes.size
  active : ∀ name node, nodes.get name = some node → node.activate = true
  distinct : ∀ name node name' node', nodes.get name = some node → nodes.get name' = some node' →
    node.ipAddr = node'.ipAddr → name = name'

/-- What a request that no check refuses has to be like. -/
structure Placeable (m : MetaServer) (order : List Text) (r : CreatePartitonTableRequest) :
    Prop where
  database : ∃ db, m.dbMap.get r.dbName = some (some db)
  columns : r.colName.length ≤ r.colType.length
  ranges : r.partitionCnt.toInt.toNat ≤ r.range.length
  nodes : r.partitionCnt.toInt ≤ 0 ∧ r.replicaCnt.toInt ≤ activeCount m.ipNodeMap ∨
    OneForEach m.ipNodeMap r.replicaCnt ∧ Room order r.partitionCnt.toInt.toNat m.ipNodeMap

end Spec

section Follow

variable {nodes nodes' : SortedMap Text Node} {order used : List Text} {rounds : Nat}
  {locs : List ReplicaLocation}

theorem OnNode.of_samePlaces (hsame : SamePlaces nodes' nodes) {name : Text} {rep : ReplicaLocation}
    (h : OnNode nodes' name rep) : OnNode nodes name rep := by
  obtain ⟨node', hget', hactive, haddr, hport⟩ := h
  obtain ⟨node, hget, hplace⟩ := hsame.get hget'
  simp only [Node.place, Prod.mk.injEq] at hplace
  exact ⟨node, hget, by rw [hplace.2.2, hactive], by rw [hplace.1, haddr], by rw [hplace.2.1, hport]⟩

/-- Followers are on active nodes, and no address has two replicas. -/
theorem placeFollowers_apart (horder : nodes.Orders order)
    (h : placeFollowers order rounds used nodes = some (locs, nodes')) :
    (locs.map ReplicaLocation.ipAddr).Nodup ∧
      ∀ loc ∈ locs, loc.ipAddr ∉ used ∧ ∃ name, OnNode nodes name loc := by
  induction rounds generalizing used nodes locs with
  | zero =>
      cases h
      exact ⟨List.nodup_nil, by simp⟩
  | succ rounds ih =>
      obtain ⟨loc, next, rest, hfirst, hrest, rfl⟩ := placeFollowers_succ h
      obtain ⟨name, node, hchosen, rfl, rfl, hsame⟩ := placeFollower_some horder hfirst
      obtain ⟨hnodup, hall⟩ := ih (hsame.orders horder) hrest
      have hable := hchosen.able
      simp only [Bool.and_eq_true, Bool.not_eq_true', List.contains_eq_mem,
        decide_eq_false_iff_not] at hable
      constructor
      · rw [List.map_cons, List.nodup_cons]
        refine ⟨?_, hnodup⟩
        intro hmem
        obtain ⟨loc, hloc, heq⟩ := List.mem_map.mp hmem
        apply (hall loc hloc).1
        rw [heq]
        exact List.mem_cons_self
      · intro loc hloc
        rcases List.mem_cons.mp hloc with rfl | hloc
        · exact ⟨hable.2, name, node, hchosen.registered, hable.1, rfl, rfl⟩
        · obtain ⟨hnot, name', hon⟩ := hall loc hloc
          exact ⟨fun hmem => hnot (List.mem_cons_of_mem _ hmem), name', hon.of_samePlaces hsame.symm⟩

/-- Replicas with different addresses are on different nodes. -/
theorem apart_of_nodup (hnodup : (locs.map ReplicaLocation.ipAddr).Nodup) :
    locs.Pairwise fun rep rep' => ∀ name, OnNode nodes name rep → ¬ OnNode nodes name rep' := by
  have hne := List.pairwise_map.mp hnodup
  refine hne.imp ?_
  rintro rep rep' hdiff name ⟨node, hget, -, haddr, -⟩ ⟨node', hget', -, haddr', -⟩
  rw [hget, Option.some.injEq] at hget'
  apply hdiff
  rw [haddr, haddr', hget']

end Follow

section Addresses

variable {nodes nodes' : SortedMap Text Node} {name : Text} {node : Node}

def places (nodes : SortedMap Text Node) : List (Text × Int32 × Bool) :=
  nodes.entries.map fun e => e.2.place

def ipAddrs (nodes : SortedMap Text Node) : List Text := (places nodes).map Prod.fst

theorem places_eq (nodes : SortedMap Text Node) :
    places nodes = nodes.keys.filterMap fun name => (nodes.get name).map Node.place := by
  have hentries : nodes.entriesIn nodes.keys = nodes.entries :=
    SortedMap.entriesIn_of_perm (List.Perm.refl _)
  rw [places, ← hentries, SortedMap.entriesIn, List.map_filterMap]
  simp only [Option.map_map, Function.comp_def]

theorem SamePlaces.places (h : SamePlaces nodes nodes') :
    MetaServer.places nodes' = MetaServer.places nodes := by
  rw [places_eq, places_eq, h.keys]
  congr 1
  funext name
  exact h name

theorem SamePlaces.ipAddrs (h : SamePlaces nodes nodes') :
    MetaServer.ipAddrs nodes' = MetaServer.ipAddrs nodes := by
  rw [MetaServer.ipAddrs, MetaServer.ipAddrs, h.places]

theorem length_ipAddrs (nodes : SortedMap Text Node) : (ipAddrs nodes).length = nodes.size := by
  simp [ipAddrs, places, SortedMap.size]

theorem SamePlaces.size (h : SamePlaces nodes nodes') : nodes'.size = nodes.size := by
  rw [← length_ipAddrs, ← length_ipAddrs, h.ipAddrs]

theorem mem_ipAddrs (h : nodes.get name = some node) : node.ipAddr ∈ ipAddrs nodes := by
  have hmem := (nodes.get_eq_some_iff name node).mp h
  rw [ipAddrs, places, List.map_map]
  exact List.mem_map.mpr ⟨(name, node), hmem, rfl⟩

theorem exists_of_mem_ipAddrs {addr : Text} (h : addr ∈ ipAddrs nodes) :
    ∃ name node, nodes.get name = some node ∧ node.ipAddr = addr := by
  rw [ipAddrs, places, List.map_map] at h
  obtain ⟨⟨name, node⟩, hmem, heq⟩ := List.mem_map.mp h
  exact ⟨name, node, (nodes.get_eq_some_iff name node).mpr hmem, heq⟩

/-- One node an address, as a statement about names. -/
theorem nodup_ipAddrs_iff :
    (ipAddrs nodes).Nodup ↔ ∀ name node name' node', nodes.get name = some node →
      nodes.get name' = some node' → node.ipAddr = node'.ipAddr → name = name' := by
  rw [ipAddrs, places, List.map_map]
  constructor
  · intro hnodup name node name' node' hget hget' heq
    have hmem := (nodes.get_eq_some_iff name node).mp hget
    have hmem' := (nodes.get_eq_some_iff name' node').mp hget'
    exact congrArg Prod.fst (List.inj_on_of_nodup_map hnodup hmem hmem' heq)
  · intro hdistinct
    apply List.Nodup.map_on _ nodes.sorted.nodup
    rintro ⟨name, node⟩ hmem ⟨name', node'⟩ hmem' heq
    have hget := (nodes.get_eq_some_iff name node).mpr hmem
    have hget' := (nodes.get_eq_some_iff name' node').mpr hmem'
    obtain rfl := hdistinct name node name' node' hget hget' heq
    rw [hget, Option.some.injEq] at hget'
    rw [hget']

theorem OnNode.mem_ipAddrs {rep : ReplicaLocation} (h : OnNode nodes name rep) :
    rep.ipAddr ∈ ipAddrs nodes := by
  obtain ⟨node, hget, -, haddr, -⟩ := h
  rw [haddr]
  exact MetaServer.mem_ipAddrs hget

theorem activeCount_le (nodes : SortedMap Text Node) : activeCount nodes ≤ nodes.size :=
  List.countP_le_length

theorem activeCount_eq_size_iff :
    activeCount nodes = nodes.size ↔
      ∀ name node, nodes.get name = some node → node.activate = true := by
  rw [activeCount, SortedMap.size, List.countP_eq_length]
  constructor
  · intro hall name node hget
    exact hall (name, node) ((nodes.get_eq_some_iff name node).mp hget)
  · rintro hall ⟨name, node⟩ hmem
    exact hall name node ((nodes.get_eq_some_iff name node).mpr hmem)

theorem OneForEach.of_samePlaces {replicaCnt : Int32} (h : OneForEach nodes replicaCnt)
    (hsame : SamePlaces nodes nodes') : OneForEach nodes' replicaCnt where
  count := by rw [h.count, hsame.size]
  active := by
    intro name node' hget'
    obtain ⟨node, hget, hplace⟩ := hsame.symm.get hget'
    have hflag : node.activate = node'.activate := congrArg (fun place => place.2.2) hplace
    rw [← hflag, h.active name node hget]
  distinct := by
    apply nodup_ipAddrs_iff.mp
    rw [hsame.ipAddrs]
    exact nodup_ipAddrs_iff.mpr h.distinct

theorem samePlaces_recount (name : Text) (nodes : SortedMap Text Node) :
    SamePlaces nodes (recount name nodes) := by
  intro other
  rw [recount, SortedMap.get_mapWithKey, Option.map_map]
  congr 1
  funext node
  dsimp only [Function.comp_apply]
  split
  · rfl
  · rfl

end Addresses

section Full

variable {nodes nodes' : SortedMap Text Node} {order used : List Text} {rounds : Nat}
  {locs : List ReplicaLocation}

/-- While fewer addresses are used than there are, one of them is free. -/
theorem exists_free (hnodup : (ipAddrs nodes).Nodup) (hused : used.length < nodes.size) :
    ∃ name node, nodes.get name = some node ∧ node.ipAddr ∉ used := by
  by_contra hcon
  simp only [not_exists, not_and, not_not] at hcon
  have hsub : ipAddrs nodes ⊆ used := by
    intro addr hmem
    obtain ⟨name, node, hget, rfl⟩ := exists_of_mem_ipAddrs hmem
    exact hcon name node hget
  have hle := (List.subperm_of_subset hnodup hsub).length_le
  rw [length_ipAddrs] at hle
  omega

/-- Followers are found as long as addresses are free and the counts there have room. -/
theorem exists_placeFollowers (horder : nodes.Orders order) (hnodup : (ipAddrs nodes).Nodup)
    (hactive : ∀ name node, nodes.get name = some node → node.activate = true)
    (hfree : used.length + rounds ≤ nodes.size)
    (hroom : ∀ name node, nodes.get name = some node → node.ipAddr ∉ used →
      node.followerParCnt.toInt < 2 ^ 31 - 1) :
    ∃ locs nodes', placeFollowers order rounds used nodes = some (locs, nodes') := by
  induction rounds generalizing used nodes with
  | zero => exact ⟨[], nodes, rfl⟩
  | succ rounds ih =>
      have hused : used.length < nodes.size := by omega
      obtain ⟨name, node, hget, hnot⟩ := exists_free hnodup hused
      have hable : (node.activate && !used.contains node.ipAddr) = true := by
        simp [hactive name node hget, hnot]
      obtain ⟨⟨name', node'⟩, hleast⟩ :
          ∃ e, leastNode (fun node => node.activate && !used.contains node.ipAddr)
            (fun node => node.followerParCnt) (nodes.entriesIn order) = some e :=
        leastNode_isSome horder hget hable (hroom name node hget hnot)
      have hchosen := chosen_of_leastNode horder hleast
      have hsame : SamePlaces nodes
          (nodes.put name' { node' with followerParCnt := node'.followerParCnt + 1 }) :=
        samePlaces_put hchosen.registered rfl
      have hfirst : placeFollower used order nodes = some (⟨node'.ipAddr, node'.port, .follower⟩,
          nodes.put name' { node' with followerParCnt := node'.followerParCnt + 1 }) := by
        rw [placeFollower, placeReplica, hleast]
        rfl
      have hrest : ∃ locs nodes'', placeFollowers order rounds (node'.ipAddr :: used)
          (nodes.put name' { node' with followerParCnt := node'.followerParCnt + 1 }) =
            some (locs, nodes'') := by
        apply ih (hsame.orders horder)
        · rw [hsame.ipAddrs]
          exact hnodup
        · intro other otherNode hother
          obtain ⟨before, hbefore, hplace⟩ := hsame.symm.get hother
          have hflag : before.activate = otherNode.activate :=
            congrArg (fun place => place.2.2) hplace
          rw [← hflag, hactive other before hbefore]
        · rw [hsame.size, List.length_cons]
          omega
        · intro other otherNode hother hfreeAddr
          rw [List.mem_cons, not_or] at hfreeAddr
          rw [SortedMap.get_put] at hother
          split at hother
          next =>
            cases hother
            exact absurd rfl hfreeAddr.1
          next => exact hroom other otherNode hother hfreeAddr.2
      obtain ⟨locs, nodes'', hlocs⟩ := hrest
      refine ⟨⟨node'.ipAddr, node'.port, .follower⟩ :: locs, nodes'', ?_⟩
      rw [placeFollowers, hfirst]
      simp only [Option.bind_eq_bind, Option.bind_some, hlocs, Option.pure_def]

/-- With one node an address, a follower raises the count of the node that has its
address, which had room, and leaves all others. -/
theorem placeFollowers_get (horder : nodes.Orders order) (hnodup : (ipAddrs nodes).Nodup)
    (h : placeFollowers order rounds used nodes = some (locs, nodes')) {name : Text} {node : Node}
    (hget : nodes.get name = some node) :
    (node.ipAddr ∈ locs.map ReplicaLocation.ipAddr → node.followerParCnt.toInt < 2 ^ 31 - 1 ∧
      nodes'.get name = some { node with followerParCnt := node.followerParCnt + 1 }) ∧
    (node.ipAddr ∉ locs.map ReplicaLocation.ipAddr → nodes'.get name = some node) := by
  induction rounds generalizing used nodes locs name node with
  | zero =>
      cases h
      exact ⟨by simp, fun _ => hget⟩
  | succ rounds ih =>
      obtain ⟨loc, next, rest, hfirst, hrest, rfl⟩ := placeFollowers_succ h
      obtain ⟨name', node', hchosen, rfl, rfl, hsame⟩ := placeFollower_some horder hfirst
      have hnext := SortedMap.get_put nodes name' name
        { node' with followerParCnt := node'.followerParCnt + 1 }
      have hapart := placeFollowers_apart (hsame.orders horder) hrest
      have hrestNodup := hnodup
      rw [← hsame.ipAddrs] at hrestNodup
      rw [List.map_cons, List.mem_cons, not_or]
      split at hnext
      next heq =>
        -- the node that was chosen is not chosen again
        subst heq
        rw [hchosen.registered, Option.some.injEq] at hget
        subst hget
        obtain ⟨-, hafter⟩ := ih (hsame.orders horder) hrestNodup hrest hnext
        have hnot : node'.ipAddr ∉ rest.map ReplicaLocation.ipAddr := by
          intro hmem
          obtain ⟨loc, hloc, heq⟩ := List.mem_map.mp hmem
          apply (hapart.2 loc hloc).1
          rw [heq]
          exact List.mem_cons_self
        exact ⟨fun _ => ⟨hchosen.room, hafter hnot⟩, fun hdiff => absurd rfl hdiff.1⟩
      next hne =>
        rw [hget] at hnext
        obtain ⟨hraised, hkept⟩ := ih (hsame.orders horder) hrestNodup hrest hnext
        have hdiff : node.ipAddr ≠ node'.ipAddr :=
          fun heq => hne (nodup_ipAddrs_iff.mp hnodup name node name' node' hget
            hchosen.registered heq)
        exact ⟨fun hmem => hraised (hmem.resolve_left hdiff), fun hnot => hkept hnot.2⟩

end Full

section Partition

variable {nodes nodes' : SortedMap Text Node} {order : List Text} {replicaCnt : Int32}
  {replicas : List ReplicaLocation}

/-- The replicas of a partition have different addresses, and the first leads. -/
theorem placePartition_apart (horder : nodes.Orders order)
    (h : placePartition order replicaCnt nodes = some (replicas, nodes')) :
    (replicas.map ReplicaLocation.ipAddr).Nodup ∧
      (∀ rep ∈ replicas, ∃ name, OnNode nodes name rep) ∧
      (replicas.countP fun rep => decide (rep.role = .leader)) = 1 ∧
      replicas.length = (replicaCnt.toInt - 1).toNat + 1 := by
  obtain ⟨leader, next, followers, hleader, hfollowers, rfl⟩ := placePartition_some h
  obtain ⟨name, node, hchosen, rfl, rfl, hsame⟩ := placeLeader_some horder hleader
  obtain ⟨-, -, hlength, hroles⟩ := placeFollowers_frame (hsame.orders horder) hfollowers
  obtain ⟨hnodup, hall⟩ := placeFollowers_apart (hsame.orders horder) hfollowers
  have hnone : (followers.countP fun rep => decide (rep.role = .leader)) = 0 := by
    rw [List.countP_eq_zero]
    intro rep hrep
    rw [hroles rep hrep]
    decide
  refine ⟨?_, ?_, ?_, by rw [List.length_cons, hlength]⟩
  · rw [List.map_cons, List.nodup_cons]
    refine ⟨?_, hnodup⟩
    intro hmem
    obtain ⟨rep, hrep, heq⟩ := List.mem_map.mp hmem
    exact (hall rep hrep).1 (List.mem_singleton.mpr heq)
  · intro rep hrep
    rcases List.mem_cons.mp hrep with rfl | hrep
    · exact ⟨name, node, hchosen.registered, hchosen.able, rfl, rfl⟩
    · obtain ⟨-, name', hon⟩ := hall rep hrep
      exact ⟨name', hon.of_samePlaces hsame.symm⟩
  · rw [List.countP_cons, hnone]
    rfl

theorem one_le_size {name : Text} {node : Node} (h : nodes.get name = some node) : 1 ≤ nodes.size := by
  have hpos := List.length_pos_of_mem (mem_ipAddrs h)
  rw [length_ipAddrs] at hpos
  exact hpos

/-- A node has been found, so there is one. -/
theorem one_le_replicaCnt (horder : nodes.Orders order) (hcount : replicaCnt.toInt = nodes.size)
    (h : placePartition order replicaCnt nodes = some (replicas, nodes')) :
    1 ≤ replicaCnt.toInt := by
  obtain ⟨leader, next, followers, hleader, -, -⟩ := placePartition_some h
  obtain ⟨name, node, hchosen, -⟩ := placeLeader_some horder hleader
  have hsize := one_le_size hchosen.registered
  omega

theorem spread_of_placePartition (horder : nodes.Orders order) (hpos : 1 ≤ replicaCnt.toInt)
    (h : placePartition order replicaCnt nodes = some (replicas, nodes')) (oid : TableOid)
    (pId : PartitionId) : Spread nodes replicaCnt ⟨oid, pId, replicaCnt, replicas⟩ := by
  obtain ⟨hnodup, hplaced, hleader, hlength⟩ := placePartition_apart horder h
  exact {
    count := by
      dsimp only
      omega
    leader := hleader
    placed := hplaced
    apart := apart_of_nodup hnodup }

/-- As many replicas as there are nodes use every address. -/
theorem ipAddrs_perm (horder : nodes.Orders order) (hcount : replicaCnt.toInt = nodes.size)
    (h : placePartition order replicaCnt nodes = some (replicas, nodes')) :
    (replicas.map ReplicaLocation.ipAddr).Perm (ipAddrs nodes) := by
  obtain ⟨hnodup, hplaced, -, hlength⟩ := placePartition_apart horder h
  have hpos := one_le_replicaCnt horder hcount h
  have hsub : replicas.map ReplicaLocation.ipAddr ⊆ ipAddrs nodes := by
    intro addr hmem
    obtain ⟨rep, hrep, rfl⟩ := List.mem_map.mp hmem
    obtain ⟨name, hon⟩ := hplaced rep hrep
    exact hon.mem_ipAddrs
  apply (List.subperm_of_subset hnodup hsub).perm_of_length_le
  rw [length_ipAddrs, List.length_map]
  omega

/-- A partition on all nodes counts its leader and raises all other followers. -/
theorem placePartition_recount (horder : nodes.Orders order) (hone : OneForEach nodes replicaCnt)
    (h : placePartition order replicaCnt nodes = some (replicas, nodes')) :
    ∃ name node, leastNode (fun node => node.activate) (fun node => node.leaderParCnt)
        (nodes.entriesIn order) = some (name, node) ∧
      (∀ name' node', nodes.get name' = some node' → name' ≠ name →
        node'.followerParCnt.toInt < 2 ^ 31 - 1) ∧ nodes' = recount name nodes := by
  have hperm := ipAddrs_perm horder hone.count h
  obtain ⟨leader, next, followers, hleader, hfollowers, rfl⟩ := placePartition_some h
  obtain ⟨name, node, hleast, rfl, rfl⟩ := placeReplica_some hleader
  have hchosen := chosen_of_leastNode horder hleast
  have hsame : SamePlaces nodes
      (nodes.put name { node with leaderParCnt := node.leaderParCnt + 1 }) :=
    samePlaces_put hchosen.registered rfl
  have hnodup : (ipAddrs (nodes.put name
      { node with leaderParCnt := node.leaderParCnt + 1 })).Nodup := by
    rw [hsame.ipAddrs]
    exact nodup_ipAddrs_iff.mpr hone.distinct
  obtain ⟨-, hunused⟩ := placeFollowers_apart (hsame.orders horder) hfollowers
  have hothers : ∀ name' node', nodes.get name' = some node' → name' ≠ name →
      node'.followerParCnt.toInt < 2 ^ 31 - 1 ∧
        nodes'.get name' = some { node' with followerParCnt := node'.followerParCnt + 1 } := by
    intro name' node' hget' hne
    have hnext : (nodes.put name { node with leaderParCnt := node.leaderParCnt + 1 }).get name' =
        some node' := by rw [SortedMap.get_put, if_neg hne, hget']
    have hmem := hperm.mem_iff.mpr (mem_ipAddrs hget')
    rw [List.map_cons, List.mem_cons] at hmem
    have hdiff : node'.ipAddr ≠ node.ipAddr :=
      fun heq => hne (hone.distinct name' node' name node hget' hchosen.registered heq)
    exact (placeFollowers_get (hsame.orders horder) hnodup hfollowers hnext).1
      (hmem.resolve_left hdiff)
  have hself : nodes'.get name = some { node with leaderParCnt := node.leaderParCnt + 1 } := by
    have hnext := SortedMap.get_put_self nodes name
      { node with leaderParCnt := node.leaderParCnt + 1 }
    apply (placeFollowers_get (hsame.orders horder) hnodup hfollowers hnext).2
    intro hmem
    obtain ⟨rep, hrep, heq⟩ := List.mem_map.mp hmem
    exact (hunused rep hrep).1 (List.mem_singleton.mpr heq)
  refine ⟨name, node, hleast, fun name' node' hget' hne => (hothers name' node' hget' hne).1, ?_⟩
  apply SortedMap.ext_get
  intro other
  rw [recount, SortedMap.get_mapWithKey]
  by_cases heq : other = name
  · rw [heq, hself, hchosen.registered, Option.map_some, if_pos rfl]
  · cases hget : nodes.get other with
    | some node' => rw [(hothers other node' hget heq).2, Option.map_some, if_neg heq]
    | none =>
        have hplaces := placePartition_samePlaces horder h other
        rw [hget, Option.map_none, Option.map_eq_none_iff] at hplaces
        rw [hplaces, Option.map_none]

/-- A partition finds its nodes where one of them can lead it and all others have
room for a follower. -/
theorem exists_placePartition (horder : nodes.Orders order) (hone : OneForEach nodes replicaCnt)
    {name : Text} {node : Node}
    (hleast : leastNode (fun node => node.activate) (fun node => node.leaderParCnt)
      (nodes.entriesIn order) = some (name, node))
    (hroom : ∀ name' node', nodes.get name' = some node' → name' ≠ name →
      node'.followerParCnt.toInt < 2 ^ 31 - 1) :
    ∃ replicas nodes', placePartition order replicaCnt nodes = some (replicas, nodes') := by
  have hchosen := chosen_of_leastNode horder hleast
  have hsame : SamePlaces nodes
      (nodes.put name { node with leaderParCnt := node.leaderParCnt + 1 }) :=
    samePlaces_put hchosen.registered rfl
  have hnext := hone.of_samePlaces hsame
  have hleader : placeLeader order nodes = some (⟨node.ipAddr, node.port, .leader⟩,
      nodes.put name { node with leaderParCnt := node.leaderParCnt + 1 }) := by
    rw [placeLeader, placeReplica, hleast]
    rfl
  have hfollowers : ∃ followers nodes', placeFollowers order (replicaCnt.toInt - 1).toNat
      [node.ipAddr] (nodes.put name { node with leaderParCnt := node.leaderParCnt + 1 }) =
        some (followers, nodes') := by
    apply exists_placeFollowers (hsame.orders horder) (nodup_ipAddrs_iff.mpr hnext.distinct)
      hnext.active
    · have hsize := one_le_size hchosen.registered
      have hcount := hone.count
      rw [hsame.size, List.length_singleton]
      omega
    · intro other otherNode hother hfree
      rw [SortedMap.get_put] at hother
      split at hother
      next =>
        cases hother
        exact absurd (List.mem_singleton_self _) hfree
      next hne => exact hroom other otherNode hother hne
  obtain ⟨followers, nodes', hplaced⟩ := hfollowers
  refine ⟨⟨node.ipAddr, node.port, .leader⟩ :: followers, nodes', ?_⟩
  rw [placePartition, hleader]
  simp only [Option.bind_eq_bind, Option.bind_some, hplaced, Option.pure_def]

end Partition

section Table

variable {nodes nodes' : SortedMap Text Node} {order : List Text} {replicaCnt : Int32}
  {oid : TableOid} {pars : List ParMeta} {locs : List PhyPartitionLocation}

theorem spread_of_placePartitions (horder : nodes.Orders order) (hpos : 1 ≤ replicaCnt.toInt)
    (h : placePartitions order oid replicaCnt pars nodes = some (locs, nodes')) :
    ∀ loc ∈ locs, Spread nodes replicaCnt loc := by
  induction pars generalizing nodes locs with
  | nil =>
      cases h
      simp
  | cons par pars ih =>
      obtain ⟨replicas, next, rest, hfirst, hrest, rfl⟩ := placePartitions_cons h
      have hsame := placePartition_samePlaces horder hfirst
      intro loc hloc
      rcases List.mem_cons.mp hloc with rfl | hloc
      · exact spread_of_placePartition horder hpos hfirst oid par.pId
      · have hspread := ih (hsame.orders horder) hrest loc hloc
        exact {
          count := hspread.count
          leader := hspread.leader
          placed := by
            intro rep hrep
            obtain ⟨name, hon⟩ := hspread.placed rep hrep
            exact ⟨name, hon.of_samePlaces hsame.symm⟩
          apart := by
            refine hspread.apart.imp ?_
            intro rep rep' happart name hon hon'
            exact happart name (hon.of_samePlaces hsame) (hon'.of_samePlaces hsame) }

/-- On one node for each replica, partitions can be placed exactly as long as there is
room. -/
theorem placePartitions_iff_room (horder : nodes.Orders order) (hone : OneForEach nodes replicaCnt) :
    (∃ locs nodes', placePartitions order oid replicaCnt pars nodes = some (locs, nodes')) ↔
      Room order pars.length nodes := by
  induction pars generalizing nodes with
  | nil => exact iff_of_true ⟨[], nodes, rfl⟩ trivial
  | cons par pars ih =>
      constructor
      · rintro ⟨locs, last, h⟩
        obtain ⟨replicas, next, rest, hfirst, hrest, rfl⟩ := placePartitions_cons h
        obtain ⟨name, node, hleast, hroom, rfl⟩ := placePartition_recount horder hone hfirst
        have hsame := samePlaces_recount name nodes
        have hlater := (ih (hsame.orders horder) (hone.of_samePlaces hsame)).mp ⟨rest, last, hrest⟩
        exact ⟨name, node, hleast, hroom, hlater⟩
      · rintro ⟨name, node, hleast, hroom, hlater⟩
        obtain ⟨replicas, next, hfirst⟩ := exists_placePartition horder hone hleast hroom
        obtain ⟨name', node', hleast', -, rfl⟩ := placePartition_recount horder hone hfirst
        rw [hleast, Option.some.injEq, Prod.mk.injEq] at hleast'
        obtain ⟨rfl, -⟩ := hleast'
        have hsame := samePlaces_recount name nodes
        obtain ⟨rest, last, hrest⟩ :=
          (ih (hsame.orders horder) (hone.of_samePlaces hsame)).mpr hlater
        refine ⟨⟨oid, par.pId, replicaCnt, replicas⟩ :: rest, last, ?_⟩
        rw [placePartitions, hfirst]
        simp only [Option.bind_eq_bind, Option.bind_some, hrest, Option.pure_def]

/-- With one node for each replica every partition is spread. -/
theorem spread_of_oneForEach (horder : nodes.Orders order) (hone : OneForEach nodes replicaCnt)
    (h : placePartitions order oid replicaCnt pars nodes = some (locs, nodes')) :
    ∀ loc ∈ locs, Spread nodes replicaCnt loc := by
  cases pars with
  | nil =>
      cases h
      simp
  | cons par pars =>
      obtain ⟨replicas, next, rest, hfirst, -, -⟩ := placePartitions_cons h
      exact spread_of_placePartitions horder (one_le_replicaCnt horder hone.count hfirst) h

end Table

section Requests

variable {m m' : MetaServer} {order : List Text} {r : CreatePartitonTableRequest}

/-- A request that is let through asks for a replica on every node or, with a negative
number, for none. -/
theorem size_le_of_admitted {db : DbMetaServer} (hdb : m.dbMap.get r.dbName = some (some db))
    (h : ¬ m.Refuses r) (hpos : 0 ≤ r.replicaCnt.toInt) :
    (m.ipNodeMap.size : Int) ≤ r.replicaCnt.toInt := by
  rw [not_refuses_iff hdb, not_or, not_or, fewerReplicas, decide_eq_true_eq, not_lt] at h
  have hlt := r.replicaCnt.toInt_lt
  have hmod : r.replicaCnt.toInt % 2 ^ 64 = r.replicaCnt.toInt :=
    Int.emod_eq_of_lt hpos (by omega)
  rw [hmod] at h
  exact h.2.2

/-- The nodes of a request that is handled as it should be. -/
theorem nodes_of_placed (horder : m.ipNodeMap.Orders order) {db : DbMetaServer}
    {tms : TabMetaServer} (hcreated : Created m order r m' db tms)
    (hspread : ∀ loc ∈ tms.tableLocation.partitonList, Spread m.ipNodeMap r.replicaCnt loc)
    (hactive : r.replicaCnt.toInt ≤ activeCount m.ipNodeMap) (hsome : 0 < r.partitionCnt.toInt) :
    OneForEach m.ipNodeMap r.replicaCnt ∧ Room order r.partitionCnt.toInt.toNat m.ipNodeMap := by
  have hplaced := hcreated.placed
  have hlength := hcreated.length_partitions
  cases hpars : tms.partitions with
  | nil =>
      rw [hpars, List.length_nil] at hlength
      omega
  | cons par pars =>
      rw [hpars] at hplaced
      obtain ⟨replicas, next, rest, hfirst, -, hlocs⟩ := placePartitions_cons hplaced
      have hcount := (hspread _ (hlocs ▸ List.mem_cons_self)).count
      obtain ⟨-, -, -, hreplicas⟩ := placePartition_apart horder hfirst
      dsimp only at hcount
      have hle := size_le_of_admitted hcreated.found hcreated.admitted (by omega)
      have hactiveLe := activeCount_le m.ipNodeMap
      have hsize : r.replicaCnt.toInt = m.ipNodeMap.size := by omega
      have hnodup : (ipAddrs m.ipNodeMap).Nodup :=
        (ipAddrs_perm horder hsize hfirst).nodup_iff.mp (placePartition_apart horder hfirst).1
      have hone : OneForEach m.ipNodeMap r.replicaCnt := {
        count := hsize
        active := activeCount_eq_size_iff.mp (by omega)
        distinct := nodup_ipAddrs_iff.mp hnodup }
      refine ⟨hone, ?_⟩
      rw [← hlength, ← placePartitions_iff_room horder hone]
      exact ⟨_, _, hcreated.placed⟩

/-- A request of this kind that no check refuses succeeds. -/
theorem Placeable.success (h : m.Placeable order r) (horder : m.ipNodeMap.Orders order)
    (hadmitted : ¬ m.Refuses r) :
    ∃ m' oid, m.createPartitionTable order r = some (m', some oid) := by
  obtain ⟨db, hdb⟩ := h.database
  have hcols : MetaServer.columns r.colName r.colType = some (r.colName.zip r.colType) :=
    if_pos h.columns
  obtain ⟨pars, hpars⟩ : ∃ pars, partitionsOf r.partitionCnt r.range = some pars :=
    ⟨_, if_pos h.ranges⟩
  have hlength := length_partitionsOf hpars
  obtain ⟨locs, nodes, hplaced⟩ : ∃ locs nodes,
      placePartitions order db.nextOid r.replicaCnt pars m.ipNodeMap = some (locs, nodes) := by
    rcases h.nodes with ⟨hnone, -⟩ | ⟨hone, hroom⟩
    · have hnil : pars = [] := List.length_eq_zero_iff.mp (by omega)
      rw [hnil]
      exact ⟨[], m.ipNodeMap, rfl⟩
    · rw [placePartitions_iff_room horder hone, hlength]
      exact hroom
  obtain ⟨m', hrun⟩ := success_of_placed hdb hadmitted hcols hpars hplaced
  exact ⟨m', _, hrun⟩

/-- A request is handled as it should be exactly if a check refuses it or if it is like
this: the database is there, every column has a type and every partition a range, and
either there is no partition and no more replicas are asked for than nodes are active,
or every registered node can hold a replica of each partition. -/
theorem places_replicas_iff (horder : m.ipNodeMap.Orders order) :
    m.PlacesReplicas order r ↔ m.Refuses r ∨ m.Placeable order r := by
  constructor
  · rintro ⟨m', answer, hrun, hmade, hmany⟩
    cases answer with
    | none => exact .inl (refuses_of_failure hrun).1
    | some oid =>
        right
        obtain ⟨db, tms, -, hcreated⟩ := created_of_success hrun
        obtain ⟨db', tms', hdb', htms', -, hspread⟩ := hmade oid rfl
        rw [hcreated.database, Option.some.injEq, Option.some.injEq] at hdb'
        subst hdb'
        rw [hcreated.lookup, Option.some.injEq, Option.some.injEq] at htms'
        subst htms'
        have hactive : r.replicaCnt.toInt ≤ activeCount m.ipNodeMap := by
          by_contra hcon
          cases (hmany (by omega)).1
        refine ⟨⟨db, hcreated.found⟩, (Option.ite_none_right_eq_some.mp hcreated.columns).1,
          (Option.ite_none_right_eq_some.mp hcreated.partitions).1, ?_⟩
        rcases le_or_gt r.partitionCnt.toInt 0 with hnone | hsome
        · exact .inl ⟨hnone, hactive⟩
        · exact .inr (nodes_of_placed horder hcreated hspread hactive hsome)
  · intro h
    by_cases hrefuses : m.Refuses r
    · exact ⟨m, none, createPartitionTable_refused hrefuses, nofun, fun _ => ⟨rfl, rfl⟩⟩
    have hplaceable := h.resolve_left hrefuses
    obtain ⟨m', oid, hrun⟩ := hplaceable.success horder hrefuses
    obtain ⟨db, tms, -, hcreated⟩ := created_of_success hrun
    refine ⟨m', _, hrun, ?_, ?_⟩
    · rintro oid -
      refine ⟨_, tms, hcreated.database, hcreated.lookup, hcreated.pIds, ?_⟩
      rcases hplaceable.nodes with ⟨hnone, -⟩ | ⟨hone, -⟩
      · have hnil : tms.tableLocation.partitonList = [] := by
          apply List.length_eq_zero_iff.mp
          rw [hcreated.length_locations]
          omega
        simp [hnil]
      · exact spread_of_oneForEach horder hone hcreated.placed
    · intro hmany
      rcases hplaceable.nodes with ⟨-, hactive⟩ | ⟨hone, -⟩
      · omega
      · have hall := activeCount_eq_size_iff.mpr hone.active
        have hcount := hone.count
        omega

/-- A table on both of two nodes. -/
theorem twoNodes_places_replicas : twoNodes.PlacesReplicas [['b'], ['a']] threePartitions := by
  have horder : twoNodes.ipNodeMap.Orders [['b'], ['a']] := by decide +kernel
  have hone : OneForEach twoNodes.ipNodeMap 2 := {
    count := by decide +kernel
    active := activeCount_eq_size_iff.mp (by decide +kernel)
    distinct := nodup_ipAddrs_iff.mp (by decide +kernel) }
  obtain ⟨pars, hpars, hlength⟩ :
      ∃ pars, partitionsOf 3 threePartitions.range = some pars ∧ pars.length = 3 := ⟨_, rfl, rfl⟩
  have hroom : Room [['b'], ['a']] 3 twoNodes.ipNodeMap := by
    have hplaced : (placePartitions [['b'], ['a']] 0 2 pars twoNodes.ipNodeMap).isSome = true := by
      cases hpars
      decide +kernel
    obtain ⟨⟨locs, nodes⟩, hrun⟩ := Option.isSome_iff_exists.mp hplaced
    rw [← hlength]
    exact (placePartitions_iff_room horder hone).mp ⟨locs, nodes, hrun⟩
  apply (places_replicas_iff horder).mpr
  exact .inr ⟨⟨.new ['d'], by decide +kernel⟩, by decide, by decide, .inr ⟨hone, hroom⟩⟩

/-- One node that has registered, and a database. -/
def oneNode : MetaServer := (new.createDataBase ['d']).1.nodeRegister ['1'] ⟨['a'], 8001⟩

/-- Two replicas on one node: without partitions the request succeeds, and with a
partition the node of the follower is never set. -/
theorem oneNode_two_replicas :
    activeCount oneNode.ipNodeMap = 1 ∧
      (oneNode.createPartitionTable [['a']] { threePartitions with partitionCnt := 0 }).map
        Prod.snd = some (some 0) ∧
      ¬ oneNode.PlacesReplicas [['a']] { threePartitions with partitionCnt := 0 } ∧
      oneNode.createPartitionTable [['a']] { threePartitions with partitionCnt := 1 } = none ∧
      ¬ oneNode.PlacesReplicas [['a']] { threePartitions with partitionCnt := 1 } := by
  have hcount : activeCount oneNode.ipNodeMap = 1 := by decide +kernel
  have hempty : (oneNode.createPartitionTable [['a']] { threePartitions with partitionCnt := 0 }).map
      Prod.snd = some (some 0) := by decide +kernel
  have hundefined : oneNode.createPartitionTable [['a']]
      { threePartitions with partitionCnt := 1 } = none := by decide +kernel
  refine ⟨hcount, hempty, ?_, hundefined, ?_⟩
  · rintro ⟨m', answer, hrun, -, hmany⟩
    rw [hrun, Option.map_some, Option.some.injEq] at hempty
    have htwo : (activeCount oneNode.ipNodeMap : Int) < threePartitions.replicaCnt.toInt := by
      rw [hcount]
      decide
    have hnone := (hmany htwo).1
    dsimp only at hempty
    rw [hempty] at hnone
    cases hnone
  · rintro ⟨m', answer, hrun, -, -⟩
    rw [hundefined] at hrun
    cases hrun

end Requests

end MetaServer

end RucDDBS
