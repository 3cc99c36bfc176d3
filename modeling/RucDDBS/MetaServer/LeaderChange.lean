import RucDDBS.MetaServer.CreatedTables

/-!
The change of a leader. The roles are set in a copy of the places of the table, and the
copy is dropped: the server is the one it was before, so the change has taken effect
only where there was nothing to change.
-/

namespace RucDDBS

open Text

/-- The first place that has the number of the partition. -/
def PhyTableLocation.placeOf (loc : PhyTableLocation) (pId : PartitionId) :
    Option PhyPartitionLocation := loc.partitonList.find? fun p => p.pId = pId

namespace MetaServer

variable {m m' : MetaServer} {dbName tableName ipAddr : Text} {pId : PartitionId}
  {tms : TabMetaServer} {place : PhyPartitionLocation}

section Spec

def replicasAt (ipAddr : Text) (place : PhyPartitionLocation) : Nat :=
  place.repliacaLocation.countP fun rep => decide (rep.ipAddr = ipAddr)

def leadersOf (place : PhyPartitionLocation) : Nat :=
  place.repliacaLocation.countP fun rep => decide (rep.role = .leader)

/-- The replica that was at the address is the one leader of the partition. -/
def TakesEffect (m' : MetaServer) (dbName tableName : Text) (pId : PartitionId) (ipAddr : Text)
    (place : PhyPartitionLocation) : Prop :=
  ∃ tms' place' rep, m'.HasTable dbName tableName tms' ∧
    tms'.tableLocation.placeOf pId = some place' ∧
    tms'.tableLocation.getReplicaLocation pId = some rep ∧ rep.ipAddr = ipAddr ∧
    (∃ old ∈ place.repliacaLocation, old.ipAddr = ipAddr ∧ old.port = rep.port) ∧
    leadersOf place' = 1

/-- All other tables, and the other partitions of this one, are what they were. -/
structure OthersKept (m m' : MetaServer) (dbName tableName : Text) (pId : PartitionId)
    (tms : TabMetaServer) : Prop where
  tables : ∀ other otherTable tms', (other, otherTable) ≠ (dbName, tableName) →
    (m'.HasTable other otherTable tms' ↔ m.HasTable other otherTable tms')
  partitions : ∀ tms', m'.HasTable dbName tableName tms' → ∀ pId', pId' ≠ pId →
    tms'.tableLocation.placeOf pId' = tms.tableLocation.placeOf pId'

/-- What the change of a leader is for. -/
def LeaderChanged (m m' : MetaServer) (dbName tableName : Text) (pId : PartitionId)
    (ipAddr : Text) : Prop :=
  ∀ tms place, m.HasTable dbName tableName tms → tms.tableLocation.placeOf pId = some place →
    (replicasAt ipAddr place = 1 → TakesEffect m' dbName tableName pId ipAddr place ∧
      OthersKept m m' dbName tableName pId tms) ∧
    (replicasAt ipAddr place = 0 → ∃ tms', m'.HasTable dbName tableName tms' ∧
      tms'.tableLocation.getReplicaLocation pId = tms.tableLocation.getReplicaLocation pId)

/-- If one replica of the partition is at the address, it is its one leader already. -/
def LeadsAlready (m : MetaServer) (dbName tableName : Text) (pId : PartitionId)
    (ipAddr : Text) : Prop :=
  ∀ tms place, m.HasTable dbName tableName tms → tms.tableLocation.placeOf pId = some place →
    replicasAt ipAddr place = 1 →
      ∀ rep ∈ place.repliacaLocation, rep.role = .leader ↔ rep.ipAddr = ipAddr

end Spec

theorem getReplicaLocation_eq (h : tms.tableLocation.placeOf pId = some place) :
    tms.tableLocation.getReplicaLocation pId = place.getReplicaLocation .leader := by
  rw [PhyTableLocation.getReplicaLocation, ← PhyTableLocation.placeOf, h]
  rfl

/-- Where one item passes a test, any two that pass are the same. -/
theorem eq_of_countP_eq_one {α : Type} {test : α → Bool} {l : List α} (h : l.countP test = 1)
    {a b : α} (ha : a ∈ l) (hb : b ∈ l) (hta : test a = true) (htb : test b = true) : a = b := by
  rw [List.countP_eq_length_filter, List.length_eq_one_iff] at h
  obtain ⟨c, hc⟩ := h
  have hmem (d : α) (hd : d ∈ l) (htd : test d = true) : d = c := by
    have hfilter := List.mem_filter.mpr ⟨hd, htd⟩
    rw [hc] at hfilter
    exact List.mem_singleton.mp hfilter
  rw [hmem a ha hta, hmem b hb htb]

/-- An update that returns has found its table and changes nothing. -/
theorem updatePartitionLeader_state (h : m.HasTable dbName tableName tms)
    {res : Except LookupError Bool}
    (hrun : m.updatePartitionLeader dbName tableName pId ipAddr = some (res, m')) : m' = m := by
  rw [onTable_state hrun, h.findTable]

/-- A change that is answered with true has taken effect exactly if there was nothing to
change: if one replica of the partition is at the address, it was its leader already
and the only one. -/
theorem leader_changed_iff
    (hrun : m.updatePartitionLeader dbName tableName pId ipAddr = some (.ok true, m')) :
    LeaderChanged m m' dbName tableName pId ipAddr ↔
      LeadsAlready m dbName tableName pId ipAddr := by
  constructor
  · intro hchanged tms place htable hplace hone
    obtain ⟨⟨tms', place', rep, htable', hplace', hrep, haddr, -, hleaders⟩, -⟩ :=
      (hchanged tms place htable hplace).1 hone
    rw [updatePartitionLeader_state htable hrun] at htable'
    obtain rfl := htable.unique htable'
    rw [hplace, Option.some.injEq] at hplace'
    subst hplace'
    rw [getReplicaLocation_eq hplace] at hrep
    have hmem := List.mem_of_find?_eq_some hrep
    have hrole := List.find?_some hrep
    intro other hother
    constructor
    · intro hleader
      rw [eq_of_countP_eq_one hleaders hother hmem (by simpa using hleader) hrole, haddr]
    · intro hat
      rw [eq_of_countP_eq_one hone hother hmem (by simpa using hat) (by simpa using haddr)]
      simpa using hrole
  · intro halready tms place htable hplace
    have hsame := updatePartitionLeader_state htable hrun
    subst hsame
    refine ⟨?_, fun _ => ⟨tms, htable, rfl⟩⟩
    intro hone
    have hiff := halready tms place htable hplace hone
    have hleaders : leadersOf place = 1 := by
      rw [← hone]
      apply List.countP_congr
      intro rep hrep
      simpa using hiff rep hrep
    have hsome : (place.getReplicaLocation .leader).isSome = true := by
      have hpos : 0 < leadersOf place := by omega
      obtain ⟨rep, hrep, hrole⟩ := List.countP_pos_iff.mp hpos
      rw [PhyPartitionLocation.getReplicaLocation, List.find?_isSome]
      exact ⟨rep, hrep, hrole⟩
    obtain ⟨rep, hrep⟩ := Option.isSome_iff_exists.mp hsome
    have hmem := List.mem_of_find?_eq_some hrep
    have haddr : rep.ipAddr = ipAddr := by
      apply (hiff rep hmem).mp
      simpa using List.find?_some hrep
    refine ⟨⟨tms, place, rep, htable, hplace, ?_, haddr, ⟨rep, hmem, haddr, rfl⟩, hleaders⟩, ?_⟩
    · rw [getReplicaLocation_eq hplace, hrep]
    · refine ⟨fun _ _ _ _ => Iff.rfl, ?_⟩
      intro tms' htable' pId' _
      rw [htable.unique htable']

/-- A server with one table of one partition, which is led from one of two addresses. -/
def ledServer : MetaServer :=
  new.setDb ['d'] (some ((DbMetaServer.new ['d']).addTable { TabMetaServer.new with
    name := ['t']
    tableLocation := ⟨0, .duplicate,
      [⟨0, 0, 2, [⟨['a'], 8001, .leader⟩, ⟨['b'], 8002, .follower⟩]⟩]⟩ }))

theorem ledServer_table : ∃ tms, ledServer.HasTable ['d'] ['t'] tms ∧
    tms.tableLocation.placeOf 0 =
      some ⟨0, 0, 2, [⟨['a'], 8001, .leader⟩, ⟨['b'], 8002, .follower⟩]⟩ :=
  ⟨_, ⟨_, rfl, rfl⟩, rfl⟩

/-- Naming the leader that is there changes nothing. -/
theorem ledServer_same_leader : LeaderChanged ledServer ledServer ['d'] ['t'] 0 ['a'] := by
  have hrun : ledServer.updatePartitionLeader ['d'] ['t'] 0 ['a'] = some (.ok true, ledServer) := by
    decide +kernel
  apply (leader_changed_iff hrun).mpr
  intro tms place htable hplace _
  obtain ⟨tms', htable', hplace'⟩ := ledServer_table
  obtain rfl := htable.unique htable'
  rw [hplace, Option.some.injEq] at hplace'
  subst hplace'
  decide

/-- The change to the other address is answered with true, and the leader is still where
it was. -/
theorem ledServer_other_leader :
    ledServer.updatePartitionLeader ['d'] ['t'] 0 ['b'] = some (.ok true, ledServer) ∧
      (∃ tms, ledServer.HasTable ['d'] ['t'] tms ∧
        tms.tableLocation.getReplicaLocation 0 = some ⟨['a'], 8001, .leader⟩) ∧
      ¬ LeaderChanged ledServer ledServer ['d'] ['t'] 0 ['b'] := by
  have hrun : ledServer.updatePartitionLeader ['d'] ['t'] 0 ['b'] = some (.ok true, ledServer) := by
    decide +kernel
  obtain ⟨tms, htable, hplace⟩ := ledServer_table
  have hleader : tms.tableLocation.getReplicaLocation 0 = some ⟨['a'], 8001, .leader⟩ := by
    rw [getReplicaLocation_eq hplace]
    rfl
  refine ⟨hrun, ⟨tms, htable, hleader⟩, ?_⟩
  intro hchanged
  obtain ⟨⟨tms', place', rep, htable', -, hrep, haddr, -⟩, -⟩ :=
    (hchanged tms _ htable hplace).1 (by decide)
  obtain rfl := htable.unique htable'
  rw [hleader, Option.some.injEq] at hrep
  subst hrep
  exact absurd haddr (by decide)

end MetaServer

end RucDDBS
