import RucDDBS.MetaServer.Placement
import RucDDBS.MetaServer.SavedState
import RucDDBS.MetaServer.TableReplicas

/-!
What the lookups find of a table that a request has made. The table stays as it was
made whatever the server is asked later, and each of its partitions has a leader.
-/

namespace RucDDBS

open Text

namespace MetaServer

variable {m m' : MetaServer} {dbName tableName : Text} {tms : TabMetaServer}

/-- The table is stored under these names. -/
def HasTable (m : MetaServer) (dbName tableName : Text) (tms : TabMetaServer) : Prop :=
  ∃ db, m.dbMap.get dbName = some (some db) ∧ db.tabs.get tableName = some (some tms)

theorem HasTable.unique {dbName tableName : Text} {tms' : TabMetaServer}
    (h : m.HasTable dbName tableName tms) (h' : m.HasTable dbName tableName tms') : tms = tms' := by
  obtain ⟨db, hdb, htab⟩ := h
  obtain ⟨db', hdb', htab'⟩ := h'
  rw [hdb, Option.some.injEq, Option.some.injEq] at hdb'
  subst hdb'
  rw [htab, Option.some.injEq, Option.some.injEq] at htab'
  exact htab'

section Later

/-- A call that the server answers: a request or one of the lookups. -/
inductive Serves : MetaServer → MetaServer → Prop
  | request {m m' : MetaServer} {r : Request} {success : Bool}
      (h : handle m r = some (m', success)) : Serves m m'
  | lookup {m m' : MetaServer} {α : Type} {lookup : Lookup α} {hash : StdHash}
      {dbName tableName : Text} {res : Except LookupError α}
      (h : lookup.run hash m dbName tableName = some (res, m')) : Serves m m'

/-- The server after any number of calls. -/
def Later : MetaServer → MetaServer → Prop := Relation.ReflTransGen Serves

/-- A table stays where a database is replaced by one that keeps its tables. -/
theorem HasTable.setDb (h : m.HasTable dbName tableName tms) {other : Text} {db : DbMetaServer}
    (hkeep : other = dbName → ∀ db', m.dbMap.get dbName = some (some db') →
      db'.tabs.get tableName = some (some tms) → db.tabs.get tableName = some (some tms))
    (hm' : m'.dbMap = m.dbMap.put other (some db)) : m'.HasTable dbName tableName tms := by
  obtain ⟨db', hdb, htab⟩ := h
  rw [HasTable, hm']
  by_cases heq : dbName = other
  · subst heq
    exact ⟨db, SortedMap.get_put_self _ _ _, hkeep rfl db' hdb htab⟩
  · exact ⟨db', by rw [SortedMap.get_put, if_neg heq, hdb], htab⟩

/-- A new table takes no name that is taken. -/
theorem addTable_get {db : DbMetaServer} {added : TabMetaServer}
    (hnew : db.tabs.contains added.name = false) (htab : db.tabs.get tableName = some (some tms)) :
    (db.addTable added).tabs.get tableName = some (some tms) := by
  have hne : tableName ≠ added.name := by
    rintro rfl
    rw [SortedMap.contains, htab] at hnew
    cases hnew
  rw [DbMetaServer.addTable, SortedMap.get_put, if_neg hne, htab]

theorem HasTable.createDataBase (h : m.HasTable dbName tableName tms) (other : Text) :
    (m.createDataBase other).1.HasTable dbName tableName tms := by
  rw [MetaServer.createDataBase]
  split
  next => exact h
  next hnew =>
    refine h.setDb ?_ rfl
    rintro rfl db' hdb -
    rw [SortedMap.contains, hdb] at hnew
    exact absurd rfl hnew

theorem HasTable.createTable (h : m.HasTable dbName tableName tms) {r : CreateTableRequest}
    {answer : Option TableOid} (hrun : m.createTable r = some (m', answer)) :
    m'.HasTable dbName tableName tms := by
  unfold MetaServer.createTable at hrun
  split at hrun
  · cases hrun
    exact h
  · cases hrun
  · rename_i db hdb
    split at hrun
    next =>
      cases hrun
      exact h
    next hnew =>
      simp only [Option.bind_eq_bind, Option.bind_eq_some_iff, Option.pure_def, Option.some.injEq,
        Prod.mk.injEq] at hrun
      obtain ⟨colInfo, -, rfl, -⟩ := hrun
      refine h.setDb ?_ rfl
      rintro rfl db' hdb' htab
      rw [hdb, Option.some.injEq, Option.some.injEq] at hdb'
      subst hdb'
      exact addTable_get (by simpa using hnew) htab

theorem HasTable.createPartitionTable (h : m.HasTable dbName tableName tms) {order : List Text}
    {r : CreatePartitonTableRequest} {answer : Option TableOid}
    (hrun : m.createPartitionTable order r = some (m', answer)) :
    m'.HasTable dbName tableName tms := by
  cases answer with
  | none =>
      rw [(refuses_of_failure hrun).2]
      exact h
  | some oid =>
      obtain ⟨db, added, -, hcreated⟩ := created_of_success hrun
      refine h.setDb ?_ hcreated.stored
      rintro rfl db' hdb' htab
      rw [hcreated.found, Option.some.injEq, Option.some.injEq] at hdb'
      subst hdb'
      have hnew := hcreated.admitted
      rw [not_refuses_iff hcreated.found, not_or, ← hcreated.tabName, Bool.not_eq_true] at hnew
      exact addTable_get hnew.1 htab

/-- The search for a table that is there finds it and changes nothing. -/
theorem HasTable.findTable (h : m.HasTable dbName tableName tms) :
    m.findTable dbName tableName = (.ok tms, m) := by
  obtain ⟨db, hdb, htab⟩ := h
  simp only [MetaServer.findTable, indexDb, hdb, DbMetaServer.indexTab, htab, setDb_get hdb]

/-- A lookup that finds nothing puts null pointers, and no table in their place. -/
theorem HasTable.afterFind (h : m.HasTable dbName tableName tms) (other otherTable : Text) :
    (m.findTable other otherTable).2.HasTable dbName tableName tms := by
  obtain ⟨db, hdb, htab⟩ := h
  cases hother : m.dbMap.get other with
  | none =>
      have hstate : (m.findTable other otherTable).2 = m.setDb other none := by
        simp [MetaServer.findTable, indexDb, hother]
      have hne : dbName ≠ other := by
        rintro rfl
        rw [hdb] at hother
        cases hother
      rw [hstate]
      exact ⟨db, by rw [setDb_dbMap, SortedMap.get_put, if_neg hne, hdb], htab⟩
  | some ptr =>
      cases ptr with
      | none =>
          have hstate : (m.findTable other otherTable).2 = m := by
            simp [MetaServer.findTable, indexDb, hother]
          rw [hstate]
          exact ⟨db, hdb, htab⟩
      | some db' =>
          have hstate : (m.findTable other otherTable).2.dbMap =
              m.dbMap.put other (some (db'.indexTab otherTable).2) := by
            simp only [MetaServer.findTable, indexDb, hother]
            split
            next heq => rw [heq, setDb_dbMap]
            next heq => rw [heq, setDb_dbMap]
          refine HasTable.setDb ⟨db, hdb, htab⟩ ?_ hstate
          rintro rfl first hfirst htabFirst
          rw [hother, Option.some.injEq, Option.some.injEq] at hfirst
          subst hfirst
          rw [DbMetaServer.indexTab]
          split
          next => exact htabFirst
          next hnone =>
            have hne : tableName ≠ otherTable := by
              rintro rfl
              rw [htabFirst] at hnone
              cases hnone
            rw [SortedMap.get_put, if_neg hne, htabFirst]

/-- One call keeps every table. -/
theorem HasTable.serves (h : m.HasTable dbName tableName tms) (hserves : Serves m m') :
    m'.HasTable dbName tableName tms := by
  cases hserves with
  | lookup hrun =>
      rw [Lookup.run_state hrun]
      exact h.afterFind _ _
  | @request r success hrun =>
      cases r with
      | createDataBase other =>
          have hstate : (m.createDataBase other).1 = m' := congrArg Prod.fst (Option.some.inj hrun)
          rw [← hstate]
          exact h.createDataBase other
      | createTable r =>
          obtain ⟨⟨_, answer⟩, hanswer, heq⟩ := Option.map_eq_some_iff.mp hrun
          cases heq
          exact h.createTable hanswer
      | createPartitionTable order r =>
          obtain ⟨⟨_, answer⟩, hanswer, heq⟩ := Option.map_eq_some_iff.mp hrun
          cases heq
          exact h.createPartitionTable hanswer
      | nodeRegister remoteIp r =>
          cases hrun
          obtain ⟨db, hdb, htab⟩ := h
          refine ⟨db, ?_, htab⟩
          rw [MetaServer.nodeRegister]
          split
          · exact hdb
          · exact hdb

theorem HasTable.later (h : m.HasTable dbName tableName tms) (hlater : Later m m') :
    m'.HasTable dbName tableName tms := by
  induction hlater with
  | refl => exact h
  | tail _ hserves ih => exact ih.serves hserves

theorem HasTable.getReplicaLocationList (h : m.HasTable dbName tableName tms) (hash : StdHash)
    (partitionKeyName minRange maxRange : Text) :
    m.getReplicaLocationList dbName tableName hash partitionKeyName minRange maxRange =
      (tms.replicaLocationList hash partitionKeyName minRange maxRange).map fun res => (res, m) := by
  rw [MetaServer.getReplicaLocationList, onTable, h.findTable]

end Later

section Made

variable {order : List Text} {r : CreatePartitonTableRequest} {db : DbMetaServer}

theorem Created.hasTable (h : Created m order r m' db tms) : m'.HasTable r.dbName r.tabName tms :=
  ⟨_, h.database, h.lookup⟩

theorem Created.partitionType (h : Created m order r m' db tms) :
    tms.partitionType = partitionTypeOf r.partitionKeyType := by
  rw [h.table]
  rfl

theorem Created.partitionKeyType (h : Created m order r m' db tms) :
    tms.partitionKeyType = r.partitionKeyType := by
  rw [h.table]
  rfl

theorem Created.partitionKeyName (h : Created m order r m' db tms) :
    tms.partitionKeyName = r.partitionKeyName := by
  rw [h.table]
  rfl

theorem Created.partitionCnt (h : Created m order r m' db tms) :
    tms.partitionCnt = r.partitionCnt := by
  rw [h.table]
  rfl

/-- The partitions have the numbers from zero on. -/
theorem Created.partition_numbers (h : Created m order r m' db tms) :
    tms.partitions.map ParMeta.pId = (List.range r.partitionCnt.toInt.toNat).map Int32.ofNat := by
  obtain ⟨hranges, heq⟩ := Option.ite_none_right_eq_some.mp h.partitions
  rw [Option.some.injEq] at heq
  have hfst : ((List.range r.partitionCnt.toInt.toNat).zip r.range).map Prod.fst =
      List.range r.partitionCnt.toInt.toNat := by
    rw [List.map_fst_zip]
    simpa using hranges
  conv_rhs => rw [← hfst]
  rw [← heq, List.map_map, List.map_map]
  rfl

/-- A leader is the first replica that is placed. -/
theorem placePartitions_leader {oid : TableOid} {replicaCnt : Int32} {pars : List ParMeta}
    {nodes nodes' : SortedMap Text Node} {locs : List PhyPartitionLocation}
    (h : placePartitions order oid replicaCnt pars nodes = some (locs, nodes')) :
    ∀ loc ∈ locs, ∃ rep ∈ loc.repliacaLocation, rep.role = .leader := by
  induction pars generalizing nodes locs with
  | nil =>
      cases h
      simp
  | cons par pars ih =>
      obtain ⟨replicas, next, rest, hfirst, hrest, rfl⟩ := placePartitions_cons h
      obtain ⟨leader, _, followers, hleader, -, rfl⟩ := placePartition_some hfirst
      obtain ⟨name, node, -, rfl, -⟩ := placeReplica_some hleader
      intro loc hloc
      rcases List.mem_cons.mp hloc with rfl | hloc
      · exact ⟨_, List.mem_cons_self, rfl⟩
      · exact ih hrest loc hloc

/-- Every partition of a table that was made has a leader. -/
theorem Created.led (h : Created m order r m' db tms) : tms.Led := by
  intro par hpar
  have hid : par.pId ∈ tms.tableLocation.partitonList.map PhyPartitionLocation.pId := by
    rw [h.pIds]
    exact List.mem_map_of_mem hpar
  obtain ⟨p, hp, heq⟩ := List.mem_map.mp hid
  have hsome : (tms.tableLocation.partitonList.find? fun p => p.pId = par.pId).isSome = true := by
    rw [List.find?_isSome]
    exact ⟨p, hp, by simpa using heq⟩
  obtain ⟨first, hfirst⟩ := Option.isSome_iff_exists.mp hsome
  obtain ⟨rep, hrep, hrole⟩ :=
    placePartitions_leader h.placed first (List.mem_of_find?_eq_some hfirst)
  exact ⟨rep, first, hfirst, hrep, hrole⟩

end Made

end MetaServer

end RucDDBS
