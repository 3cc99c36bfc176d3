import RucDDBS.MetaServer.CreatedTables
import RucDDBS.MetaServer.RangeRouting

/-!
How a table that was made is searched. The type of the partition is taken from the type
of the key, so only two combinations of the two are searched as the request asks for.
And a table by hash serves its keys as long as it has partitions, which no check asks
for.
-/

namespace RucDDBS

open Text

namespace MetaServer

variable {m m' : MetaServer} {order : List Text} {r : CreatePartitonTableRequest}
  {oid : TableOid} {db : DbMetaServer} {tms : TabMetaServer}

section Points

namespace TabMetaServer

/-- A lookup of one key finds one partition, which every lookup of a range finds. -/
def PointsServed (tms : TabMetaServer) : Prop :=
  ∀ hash key, ∃ pId rep,
    tms.getReplicaLocationListByHash hash key key = some (.ok (SortedMap.empty.put pId rep)) ∧
    ∀ lo hi, lo ≠ hi → ∃ res,
      tms.getReplicaLocationListByHash hash lo hi = some (.ok res) ∧ res.get pId = some rep

/-- All partitions are found. -/
theorem replicasOf_all (hled : tms.Led) :
    ∃ res, tms.replicasOf (fun _ => .ok true) = .ok res ∧
      ∀ id rep, res.get id = some rep ↔ ∃ par ∈ tms.partitions, par.pId.toInt = id ∧
        tms.tableLocation.getReplicaLocation par.pId = some rep := by
  obtain ⟨res, hrun, hget⟩ := @replicasOf_ok tms (fun _ => .ok true) (fun _ => true) hled
    fun _ _ => rfl
  refine ⟨res, hrun, ?_⟩
  intro id rep
  rw [hget]
  simp [Found]

theorem hashPartition_of_pos (h : 0 < tms.partitionCnt.toInt) (hash : UInt64) :
    ∃ i < tms.partitionCnt.toInt.toNat, tms.hashPartition hash = some (Int32.ofNat i) := by
  have hlt := tms.partitionCnt.toInt_lt
  have hmod : tms.partitionCnt.toInt % 2 ^ 64 = tms.partitionCnt.toInt :=
    Int.emod_eq_of_lt h.le (by omega)
  have hpos : tms.partitionCnt.toInt.toNat ≠ 0 := by omega
  refine ⟨hash.toNat % tms.partitionCnt.toInt.toNat, Nat.mod_lt _ (by omega), ?_⟩
  rw [hashPartition, hmod]
  exact if_neg hpos

/-- A single text is hashed. -/
theorem byHash_point (hkey : tms.partitionKeyType = .typeString) (hash : StdHash) (key : Text) :
    tms.getReplicaLocationListByHash hash key key =
      (tms.hashPartition (hash.ofText key)).map (tms.addReplica .empty) := by
  rw [getReplicaLocationListByHash, hkey]
  exact if_pos (decide_eq_true rfl)

/-- A range of texts is in all partitions. -/
theorem byHash_range (hkey : tms.partitionKeyType = .typeString) (hash : StdHash) {lo hi : Text}
    (hne : lo ≠ hi) :
    tms.getReplicaLocationListByHash hash lo hi = some (tms.replicasOf fun _ => .ok true) := by
  have hrange : decide (hi = lo) = false := decide_eq_false hne.symm
  rw [getReplicaLocationListByHash, hkey]
  dsimp only
  rw [replicasByHash, hrange]
  rfl

end TabMetaServer

/-- Where no partition was asked for, a point divides by zero or finds nothing. -/
theorem Created.no_point (h : Created m order r m' db tms) (hnone : r.partitionCnt.toInt ≤ 0)
    (hkey : tms.partitionKeyType = .typeString) (hash : StdHash) (key : Text) (res : Replicas) :
    tms.getReplicaLocationListByHash hash key key ≠ some (.ok res) := by
  intro hrun
  rw [TabMetaServer.byHash_point hkey] at hrun
  obtain ⟨found, -, hadd⟩ := Option.map_eq_some_iff.mp hrun
  have hempty : tms.tableLocation.partitonList = [] := by
    apply List.length_eq_zero_iff.mp
    rw [h.length_locations]
    omega
  have hmissing : tms.tableLocation.getReplicaLocation found = none := by
    rw [PhyTableLocation.getReplicaLocation, hempty]
    rfl
  rw [TabMetaServer.addReplica, hmissing] at hadd
  cases hadd

/-- A table by hash serves its keys exactly if the request asks for a partition. -/
theorem hash_points_iff (h : m.createPartitionTable order r = some (m', some oid))
    (htable : m'.HasTable r.dbName r.tabName tms) (hhash : tms.partitionType = .hashPartition) :
    tms.PointsServed ↔ 0 < r.partitionCnt.toInt := by
  obtain ⟨db, made, -, hcreated⟩ := created_of_success h
  obtain rfl := htable.unique hcreated.hasTable
  have hkey : tms.partitionKeyType = .typeString := by
    rw [hcreated.partitionType] at hhash
    rw [hcreated.partitionKeyType]
    cases hkeyType : r.partitionKeyType with
    | typeString => rfl
    | typeInt =>
        rw [hkeyType] at hhash
        cases hhash
    | typeFloat =>
        rw [hkeyType] at hhash
        cases hhash
  constructor
  · intro hserved
    by_contra hnone
    obtain ⟨pId, rep, hrun, -⟩ := hserved ⟨fun _ => 0, fun _ => 0⟩ []
    exact hcreated.no_point (by omega) hkey _ _ _ hrun
  · intro hpos hash key
    rw [← hcreated.partitionCnt] at hpos
    obtain ⟨i, hi, hnumber⟩ := TabMetaServer.hashPartition_of_pos hpos (hash.ofText key)
    have hmem : Int32.ofNat i ∈ tms.partitions.map ParMeta.pId := by
      rw [hcreated.partition_numbers, ← hcreated.partitionCnt]
      exact List.mem_map_of_mem (List.mem_range.mpr hi)
    obtain ⟨par, hpar, hid⟩ := List.mem_map.mp hmem
    obtain ⟨leader, hleader⟩ := hcreated.led par hpar
    obtain ⟨rep, hrep⟩ := hleader.exists_get
    refine ⟨par.pId.toInt, rep, ?_, ?_⟩
    · rw [TabMetaServer.byHash_point hkey, hnumber, Option.map_some, ← hid,
        TabMetaServer.addReplica, hrep]
    · intro lo hi hne
      obtain ⟨res, hrun, hget⟩ := TabMetaServer.replicasOf_all hcreated.led
      refine ⟨res, ?_, (hget _ _).mpr ⟨par, hpar, rfl, hrep⟩⟩
      rw [TabMetaServer.byHash_range hkey hash hne, hrun]

/-- A table by hash over a text, of so many partitions. -/
def hashTable (partitionCnt : Int32) : CreatePartitonTableRequest :=
  { threePartitions with
    partitionType := .hashPartition
    partitionKeyType := .typeString
    partitionCnt := partitionCnt }

theorem hashTable_points :
    ∃ m' tms, twoNodes.createPartitionTable [['b'], ['a']] (hashTable 3) = some (m', some 0) ∧
      m'.HasTable ['d'] ['t'] tms ∧ tms.PointsServed := by
  have hanswer : (twoNodes.createPartitionTable [['b'], ['a']] (hashTable 3)).map Prod.snd =
      some (some 0) := by decide +kernel
  obtain ⟨⟨m', oid⟩, hsuccess, rfl⟩ := Option.map_eq_some_iff.mp hanswer
  obtain ⟨db, tms, -, hcreated⟩ := created_of_success hsuccess
  refine ⟨m', tms, hsuccess, hcreated.hasTable, ?_⟩
  exact (hash_points_iff hsuccess hcreated.hasTable hcreated.partitionType).mpr (by decide)

/-- Without partitions every point divides by zero, and with a negative number of them
every point throws. -/
theorem hashTable_no_points :
    (∃ m' tms, twoNodes.createPartitionTable [['b'], ['a']] (hashTable 0) = some (m', some 0) ∧
      m'.HasTable ['d'] ['t'] tms ∧ tms.partitionType = .hashPartition ∧
      (∀ hash key, tms.getReplicaLocationListByHash hash key key = none) ∧ ¬ tms.PointsServed) ∧
    ∃ m' tms, twoNodes.createPartitionTable [['b'], ['a']] (hashTable (-1)) = some (m', some 0) ∧
      m'.HasTable ['d'] ['t'] tms ∧ tms.partitionType = .hashPartition ∧ ¬ tms.PointsServed := by
  constructor
  · have hanswer : (twoNodes.createPartitionTable [['b'], ['a']] (hashTable 0)).map Prod.snd =
        some (some 0) := by decide +kernel
    obtain ⟨⟨m', oid⟩, hsuccess, rfl⟩ := Option.map_eq_some_iff.mp hanswer
    obtain ⟨db, tms, -, hcreated⟩ := created_of_success hsuccess
    have hzero (hash : StdHash) (key : Text) :
        tms.getReplicaLocationListByHash hash key key = none := by
      rw [TabMetaServer.byHash_point hcreated.partitionKeyType, TabMetaServer.hashPartition,
        hcreated.partitionCnt]
      rfl
    refine ⟨m', tms, hsuccess, hcreated.hasTable, hcreated.partitionType, hzero, ?_⟩
    intro hserved
    obtain ⟨pId, rep, hrun, -⟩ := hserved ⟨fun _ => 0, fun _ => 0⟩ []
    rw [hzero] at hrun
    cases hrun
  · have hanswer : (twoNodes.createPartitionTable [['b'], ['a']] (hashTable (-1))).map Prod.snd =
        some (some 0) := by decide +kernel
    obtain ⟨⟨m', oid⟩, hsuccess, rfl⟩ := Option.map_eq_some_iff.mp hanswer
    obtain ⟨db, tms, -, hcreated⟩ := created_of_success hsuccess
    refine ⟨m', tms, hsuccess, hcreated.hasTable, hcreated.partitionType, ?_⟩
    intro hserved
    obtain ⟨pId, rep, hrun, -⟩ := hserved ⟨fun _ => 0, fun _ => 0⟩ []
    exact hcreated.no_point (by decide) hcreated.partitionKeyType _ _ _ hrun

end Points

section Search

/-- The search of the table that the request asks for, with its type of key. -/
def askedSearch (r : CreatePartitonTableRequest) (tms : TabMetaServer) (hash : StdHash)
    (minRange maxRange : Text) : Option (Except LookupError Replicas) :=
  let asked := { tms with partitionKeyType := r.partitionKeyType }
  match r.partitionType with
  | .rangePartition => some (asked.getReplicaLocationListByRange minRange maxRange)
  | .hashPartition => asked.getReplicaLocationListByHash hash minRange maxRange
  | .nonePartition => some (asked.replicasOf fun _ => .ok true)

/-- Whatever the server is asked in between, every lookup of the key of the table
answers as the search that was asked for. -/
def RoutesAsAsked (m' : MetaServer) (r : CreatePartitonTableRequest) : Prop :=
  ∀ tms, m'.HasTable r.dbName r.tabName tms → ∀ m'', Later m' m'' → ∀ hash minRange maxRange,
    m''.getReplicaLocationList r.dbName r.tabName hash r.partitionKeyName minRange maxRange =
      (askedSearch r tms hash minRange maxRange).map fun res => (res, m'')

/-- The combinations that are searched as they are asked for. -/
def SearchFits (r : CreatePartitonTableRequest) : Prop :=
  r.partitionType = .rangePartition ∧ r.partitionKeyType = .typeFloat ∨
    r.partitionType = .hashPartition ∧ r.partitionKeyType = .typeString ∨
    r.partitionType = .rangePartition ∧ r.partitionKeyType = .typeInt ∧ r.partitionCnt.toInt ≤ 0

theorem exists_above (texts : List Text) : ∃ t : Text, ∀ s ∈ texts, s < t := by
  have hlonger (s : Text) : s < s ++ ['a'] := by
    induction s with
    | nil => exact List.nil_lt_cons _ _
    | cons c s ih =>
        rw [List.cons_append, List.cons_lt_cons_iff]
        exact .inr ⟨rfl, ih⟩
  induction texts with
  | nil => exact ⟨[], by simp⟩
  | cons s texts ih =>
      obtain ⟨t, ht⟩ := ih
      refine ⟨max t (s ++ ['a']), ?_⟩
      intro s' hs'
      rcases List.mem_cons.mp hs' with rfl | hs'
      · exact lt_max_of_lt_right (hlonger s')
      · exact lt_max_of_lt_left (ht s' hs')

/-- The search that the lookups run on a table that was made. -/
theorem Created.search (h : Created m order r m' db tms) (hash : StdHash)
    (minRange maxRange : Text) :
    tms.replicaLocationList hash r.partitionKeyName minRange maxRange =
      match partitionTypeOf r.partitionKeyType with
      | .rangePartition => some (tms.getReplicaLocationListByRange minRange maxRange)
      | .hashPartition => tms.getReplicaLocationListByHash hash minRange maxRange
      | .nonePartition => some (tms.replicasOf fun _ => .ok true) := by
  cases hkind : partitionTypeOf r.partitionKeyType <;>
    simp [TabMetaServer.replicaLocationList, h.partitionKeyName, h.partitionType, hkind]

theorem Created.askedSearch (h : Created m order r m' db tms) (hash : StdHash)
    (minRange maxRange : Text) :
    MetaServer.askedSearch r tms hash minRange maxRange =
      match r.partitionType with
      | .rangePartition => some (tms.getReplicaLocationListByRange minRange maxRange)
      | .hashPartition => tms.getReplicaLocationListByHash hash minRange maxRange
      | .nonePartition => some (tms.replicasOf fun _ => .ok true) := by
  have hsame : { tms with partitionKeyType := r.partitionKeyType } = tms := by
    rw [← h.partitionKeyType]
  rw [MetaServer.askedSearch, hsame]

/-- A table routes as asked if and only if the two searches agree on every query. -/
theorem routesAsAsked_iff_search (h : Created m order r m' db tms) :
    RoutesAsAsked m' r ↔ ∀ hash minRange maxRange,
      tms.replicaLocationList hash r.partitionKeyName minRange maxRange =
        MetaServer.askedSearch r tms hash minRange maxRange := by
  constructor
  · intro hroutes hash minRange maxRange
    have hlookup := hroutes tms h.hasTable m' .refl hash minRange maxRange
    rw [h.hasTable.getReplicaLocationList] at hlookup
    have hinj : Function.Injective fun res : Except LookupError Replicas => (res, m') :=
      fun _ _ heq => congrArg Prod.fst heq
    exact Option.map_injective hinj hlookup
  · intro hsearch tms' htable m'' hlater hash minRange maxRange
    obtain rfl := htable.unique h.hasTable
    rw [(htable.later hlater).getReplicaLocationList, hsearch]

theorem stoi_nil : stoi [] = .error .invalidArgument := rfl

/-- A query without numbers throws where a range is compared, or where a key is hashed. -/
theorem not_ok_of_number (hkey : tms.partitionKeyType ≠ .typeString) {par : ParMeta}
    (hpar : par ∈ tms.partitions) (res : Replicas) :
    tms.getReplicaLocationListByRange [] [] ≠ .ok res := by
  intro hrun
  obtain ⟨choice, hmeets⟩ := TabMetaServer.choices_of_replicasOf hrun par hpar
  obtain ⟨_, hi, -, hstoi, -⟩ := TabMetaServer.stoi_of_rangeMeets hkey hmeets
  rw [stoi_nil] at hstoi
  cases hstoi

theorem byHash_nil (hkey : tms.partitionKeyType ≠ .typeString) (hash : StdHash) (maxRange : Text) :
    tms.getReplicaLocationListByHash hash [] maxRange = some (.error .invalidArgument) := by
  cases htype : tms.partitionKeyType with
  | typeString => exact absurd htype hkey
  | typeInt =>
      rw [TabMetaServer.getReplicaLocationListByHash, htype]
      rfl
  | typeFloat =>
      rw [TabMetaServer.getReplicaLocationListByHash, htype]
      rfl

/-- The first partition decides which error a search by ranges throws. -/
theorem byRange_error {par : ParMeta} {pars : List ParMeta} (hpars : tms.partitions = par :: pars)
    {minRange maxRange : Text} {e : LookupError}
    (h : tms.rangeMeets minRange maxRange par = .error e) :
    tms.getReplicaLocationListByRange minRange maxRange = .error e := by
  rw [TabMetaServer.getReplicaLocationListByRange, TabMetaServer.replicasOf_eq, hpars,
    List.foldlM_cons, TabMetaServer.collect, h]
  rfl

theorem exists_partition (h : Created m order r m' db tms) (hpos : 0 < r.partitionCnt.toInt) :
    ∃ par pars, tms.partitions = par :: pars := by
  cases hpars : tms.partitions with
  | nil =>
      have hlength := h.length_partitions
      rw [hpars, List.length_nil] at hlength
      omega
  | cons par pars => exact ⟨par, pars, rfl⟩

theorem no_partitions (h : Created m order r m' db tms) (hnone : r.partitionCnt.toInt ≤ 0) :
    tms.partitions = [] := by
  apply List.length_eq_zero_iff.mp
  rw [h.length_partitions]
  omega

/-- Ranges over integers are not searched at all, so without partitions only. -/
theorem range_int_search (h : Created m order r m' db tms) (htype : r.partitionType = .rangePartition)
    (hkey : r.partitionKeyType = .typeInt)
    (hsearch : ∀ hash minRange maxRange,
      tms.replicaLocationList hash r.partitionKeyName minRange maxRange =
        MetaServer.askedSearch r tms hash minRange maxRange) : r.partitionCnt.toInt ≤ 0 := by
  by_contra hcon
  obtain ⟨par, pars, hpars⟩ := exists_partition h (by omega)
  have hquery := hsearch ⟨fun _ => 0, fun _ => 0⟩ [] []
  rw [h.search, h.askedSearch, htype, hkey] at hquery
  obtain ⟨res, hall, -⟩ := TabMetaServer.replicasOf_all h.led
  have hran : tms.replicasOf (fun _ => .ok true) = tms.getReplicaLocationListByRange [] [] :=
    Option.some.inj hquery
  rw [hall] at hran
  exact not_ok_of_number (by rw [h.partitionKeyType, hkey]; decide)
    (by rw [hpars]; exact List.mem_cons_self) res hran.symm

/-- Ranges over texts are hashed, and a query beyond all of them finds every partition. -/
theorem range_string_search (h : Created m order r m' db tms)
    (htype : r.partitionType = .rangePartition) (hkey : r.partitionKeyType = .typeString) :
    ∃ hash minRange maxRange, tms.replicaLocationList hash r.partitionKeyName minRange maxRange ≠
      MetaServer.askedSearch r tms hash minRange maxRange := by
  have hkeyType : tms.partitionKeyType = .typeString := by rw [h.partitionKeyType, hkey]
  refine ⟨⟨fun _ => 0, fun _ => 0⟩, ?_⟩
  rcases le_or_gt r.partitionCnt.toInt 0 with hnone | hsome
  · -- without partitions a point throws or divides by zero
    refine ⟨[], [], ?_⟩
    rw [h.search, h.askedSearch, htype, hkey]
    intro hquery
    have hempty : tms.getReplicaLocationListByRange [] [] = .ok .empty := by
      rw [TabMetaServer.getReplicaLocationListByRange, TabMetaServer.replicasOf_eq,
        no_partitions h hnone]
      rfl
    dsimp only [partitionTypeOf] at hquery
    rw [hempty] at hquery
    exact h.no_point hnone hkeyType _ _ _ hquery
  · obtain ⟨par, pars, hpars⟩ := exists_partition h hsome
    obtain ⟨above, habove⟩ := exists_above (tms.partitions.map ParMeta.maxRange)
    have hmem : par ∈ tms.partitions := by
      rw [hpars]
      exact List.mem_cons_self
    have hne : above ≠ [] := by
      rintro rfl
      exact absurd (habove _ (List.mem_map_of_mem hmem)) (List.not_lt_nil _)
    refine ⟨above, [], ?_⟩
    rw [h.search, h.askedSearch, htype, hkey]
    intro hquery
    obtain ⟨res, hall, hget⟩ := TabMetaServer.replicasOf_all h.led
    dsimp only [partitionTypeOf] at hquery
    rw [TabMetaServer.byHash_range hkeyType _ hne, hall, Option.some.injEq] at hquery
    -- no range reaches up to the query
    have hnone : ∀ p ∈ tms.partitions, tms.rangeMeets above [] p = .ok ((fun _ => false) p) := by
      intro p hp
      rw [TabMetaServer.rangeMeets_string hkeyType, Except.ok.injEq, decide_eq_false_iff_not]
      intro hmeets
      exact absurd hmeets.2 (not_le.mpr (habove _ (List.mem_map_of_mem hp)))
    obtain ⟨res', hrun, hget'⟩ := TabMetaServer.replicasOf_ok h.led hnone
    have hsame : tms.getReplicaLocationListByRange above [] = .ok res' := hrun
    rw [hsame, Except.ok.injEq] at hquery
    subst hquery
    obtain ⟨leader, hleader⟩ := h.led par hmem
    obtain ⟨rep, hrep⟩ := hleader.exists_get
    have hfound := (hget par.pId.toInt rep).mpr ⟨par, hmem, rfl, hrep⟩
    obtain ⟨p, -, hsel, -⟩ := (hget' _ _).mp hfound
    cases hsel

/-- Integers that should be hashed are not looked at. -/
theorem hash_int_search (h : Created m order r m' db tms) (htype : r.partitionType = .hashPartition)
    (hkey : r.partitionKeyType = .typeInt) :
    ∃ hash minRange maxRange, tms.replicaLocationList hash r.partitionKeyName minRange maxRange ≠
      MetaServer.askedSearch r tms hash minRange maxRange := by
  refine ⟨⟨fun _ => 0, fun _ => 0⟩, [], [], ?_⟩
  rw [h.search, h.askedSearch, htype, hkey]
  dsimp only [partitionTypeOf]
  obtain ⟨res, hall, -⟩ := TabMetaServer.replicasOf_all h.led
  rw [hall, byHash_nil (by rw [h.partitionKeyType, hkey]; decide)]
  simp

/-- Decimal numbers that should be hashed are compared with ranges. -/
theorem hash_float_search (h : Created m order r m' db tms) (htype : r.partitionType = .hashPartition)
    (hkey : r.partitionKeyType = .typeFloat) :
    ∃ hash minRange maxRange, tms.replicaLocationList hash r.partitionKeyName minRange maxRange ≠
      MetaServer.askedSearch r tms hash minRange maxRange := by
  have hnumber : tms.partitionKeyType ≠ .typeString := by
    rw [h.partitionKeyType, hkey]
    decide
  cases hpars : tms.partitions with
  | nil =>
      refine ⟨⟨fun _ => 0, fun _ => 0⟩, [], [], ?_⟩
      rw [h.search, h.askedSearch, htype, hkey]
      dsimp only [partitionTypeOf]
      have hempty : tms.getReplicaLocationListByRange [] [] = .ok .empty := by
        rw [TabMetaServer.getReplicaLocationListByRange, TabMetaServer.replicasOf_eq, hpars]
        rfl
      rw [hempty, byHash_nil hnumber]
      simp
  | cons par pars =>
      cases hmin : stoi par.minRange with
      | ok min =>
          -- the upper bound of the query is read first by one and last by the other
          refine ⟨⟨fun _ => 0, fun _ => 0⟩, [], "99999999999".toList, ?_⟩
          have hlarge : stoi "99999999999".toList = .error .outOfRange := by decide +kernel
          have hthrow : tms.rangeMeets [] "99999999999".toList par = .error .outOfRange := by
            rw [TabMetaServer.rangeMeets_number hnumber, hmin, hlarge]
            rfl
          rw [h.search, h.askedSearch, htype, hkey]
          dsimp only [partitionTypeOf]
          rw [byRange_error hpars hthrow, byHash_nil hnumber]
          simp
      | error e =>
          refine ⟨⟨fun _ => 0, fun _ => 0⟩, ['1'], ['2'], ?_⟩
          have hthrow : tms.rangeMeets ['1'] ['2'] par = .error e := by
            rw [TabMetaServer.rangeMeets_number hnumber, hmin]
            rfl
          have hkeyType : tms.partitionKeyType = .typeFloat := by rw [h.partitionKeyType, hkey]
          obtain ⟨res, hall, -⟩ := TabMetaServer.replicasOf_all h.led
          have hone : stoi ['1'] = .ok 1 := by decide +kernel
          have htwo : stoi ['2'] = .ok 2 := by decide +kernel
          have hrange : tms.getReplicaLocationListByHash ⟨fun _ => 0, fun _ => 0⟩ ['1'] ['2'] =
              some (.ok res) := by
            rw [TabMetaServer.getReplicaLocationListByHash, hkeyType, hone, htwo]
            dsimp only
            rw [TabMetaServer.replicasByHash, if_neg (by decide), hall]
          rw [h.search, h.askedSearch, htype, hkey]
          dsimp only [partitionTypeOf]
          rw [byRange_error hpars hthrow, hrange]
          simp

/-- A table that a request has made routes as it was asked for exactly if it is by
ranges over a decimal key, by hash over a text, or by ranges over an integer and
without partitions. -/
theorem routes_as_asked_iff (h : m.createPartitionTable order r = some (m', some oid)) :
    RoutesAsAsked m' r ↔ SearchFits r := by
  obtain ⟨db, tms, -, hcreated⟩ := created_of_success h
  rw [routesAsAsked_iff_search hcreated]
  have hadmitted := hcreated.admitted
  rw [not_refuses_iff hcreated.found, not_or, not_or] at hadmitted
  constructor
  · intro hsearch
    cases htype : r.partitionType with
    | nonePartition => exact absurd htype hadmitted.2.1
    | rangePartition =>
        cases hkey : r.partitionKeyType with
        | typeFloat => exact .inl ⟨htype, hkey⟩
        | typeInt => exact .inr (.inr ⟨htype, hkey, range_int_search hcreated htype hkey hsearch⟩)
        | typeString =>
            obtain ⟨hash, minRange, maxRange, hne⟩ := range_string_search hcreated htype hkey
            exact absurd (hsearch hash minRange maxRange) hne
    | hashPartition =>
        cases hkey : r.partitionKeyType with
        | typeString => exact .inr (.inl ⟨htype, hkey⟩)
        | typeInt =>
            obtain ⟨hash, minRange, maxRange, hne⟩ := hash_int_search hcreated htype hkey
            exact absurd (hsearch hash minRange maxRange) hne
        | typeFloat =>
            obtain ⟨hash, minRange, maxRange, hne⟩ := hash_float_search hcreated htype hkey
            exact absurd (hsearch hash minRange maxRange) hne
  · intro hfits hash minRange maxRange
    rw [hcreated.search, hcreated.askedSearch]
    rcases hfits with ⟨htype, hkey⟩ | ⟨htype, hkey⟩ | ⟨htype, hkey, hnone⟩
    · rw [htype, hkey]
      rfl
    · rw [htype, hkey]
      rfl
    · rw [htype, hkey]
      dsimp only [partitionTypeOf]
      rw [TabMetaServer.getReplicaLocationListByRange, TabMetaServer.replicasOf_eq,
        TabMetaServer.replicasOf_eq, no_partitions hcreated hnone]
      rfl

theorem decimal_ranges_route :
    ∃ m', twoNodes.createPartitionTable [['b'], ['a']] threePartitions = some (m', some 0) ∧
      RoutesAsAsked m' threePartitions := by
  have hanswer : (twoNodes.createPartitionTable [['b'], ['a']] threePartitions).map Prod.snd =
      some (some 0) := by decide +kernel
  obtain ⟨⟨m', oid⟩, hsuccess, rfl⟩ := Option.map_eq_some_iff.mp hanswer
  exact ⟨m', hsuccess, (routes_as_asked_iff hsuccess).mpr (.inl ⟨rfl, rfl⟩)⟩

/-- Ranges over an integer: a lookup beyond all of them returns all three partitions. -/
theorem integer_ranges_not_searched :
    ∃ m', twoNodes.createPartitionTable [['b'], ['a']]
        { threePartitions with partitionKeyType := .typeInt } = some (m', some 0) ∧
      ((m'.getReplicaLocationList ['d'] ['t'] ⟨fun _ => 0, fun _ => 0⟩ ['k'] ['7'] ['9']).map
        fun answer => answer.1.toOption.map SortedMap.keys) = some (some [0, 1, 2]) ∧
      ¬ RoutesAsAsked m' { threePartitions with partitionKeyType := .typeInt } := by
  have hlookup : ((twoNodes.createPartitionTable [['b'], ['a']]
      { threePartitions with partitionKeyType := .typeInt }).map fun answer =>
        (answer.2, (answer.1.getReplicaLocationList ['d'] ['t'] ⟨fun _ => 0, fun _ => 0⟩ ['k'] ['7']
          ['9']).map fun answer => answer.1.toOption.map SortedMap.keys)) =
      some (some 0, some (some [0, 1, 2])) := by decide +kernel
  obtain ⟨⟨m', oid⟩, hsuccess, heq⟩ := Option.map_eq_some_iff.mp hlookup
  obtain ⟨rfl, hall⟩ := Prod.mk.inj heq
  refine ⟨m', hsuccess, hall, ?_⟩
  intro hroutes
  obtain ⟨db, tms, -, hcreated⟩ := created_of_success hsuccess
  have hnone := range_int_search hcreated rfl rfl ((routesAsAsked_iff_search hcreated).mp hroutes)
  exact absurd hnone (by decide)

end Search

end MetaServer

end RucDDBS
