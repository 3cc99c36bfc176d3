import RucDDBS.Engine.Routing

/-!
The two ways in which `GetTableIp` is asked: with the two ends of a range of keys,
and with one key twice. A partition is listed if it holds one of the two numbers,
so a partition that lies between the ends of a range and holds neither of them is
left out. For a single key the list has an entry for every range that the key
lies in. The bounds are taken as they come, and with bounds that go back several
ranges may hold the key; the greatest key lies in none.
-/

namespace RucDDBS

open Text

/-- The range of the partition has a number from `a` to `b` in it. -/
def Overlaps (parVals : List Int32) (a b : Int32) (par : Nat) : Prop :=
  ∃ range, (parRanges parVals)[par]? = some range ∧
    ∃ x : Int, a.toInt ≤ x ∧ x ≤ b.toInt ∧ Ranges.In x (rangeInt range)

/-- The partition is listed for the range from `a` to `b`. -/
def Listed (etcd : Etcd) (tabName : Text) (a b : Int32) (par : Nat) : Prop :=
  ∃ res, getTableIp etcd tabName (ofInt a.toInt) (ofInt b.toInt) = some res ∧
    par ∈ res.map Prod.fst

variable {etcd : Etcd} {tabName : Text} {parVals : List Int32} {a b key : Int32}

section Range

/-- A partition is listed if its range holds one of the two ends. -/
theorem listed_iff (h : Partitioned etcd tabName parVals) (a b : Int32) (par : Nat) :
    Listed etcd tabName a b par ↔ ∃ range, (parRanges parVals)[par]? = some range ∧
      (Ranges.In a.toInt (rangeInt range) ∨ Ranges.In b.toInt (rangeInt range)) := by
  have hhit : par ∈ (hitPartitions parVals a.toInt b.toInt).map Prod.fst ↔
      Hit parVals a.toInt b.toInt par := by
    rw [List.mem_map]
    constructor
    · rintro ⟨iter, hiter, rfl⟩
      exact (mem_hitPartitions.mp hiter).1
    · intro hhit
      exact ⟨(par, ip par), mem_hitPartitions.mpr ⟨hhit, rfl⟩, rfl⟩
  have hfound := getTableIp_partitioned h a.toInt b.toInt
  rw [Hit, ← parRanges_rangeInt, List.getElem?_map] at hhit
  constructor
  · rintro ⟨res, hres, hmem⟩
    rw [hfound, Option.some.injEq] at hres
    rw [← hres, hhit] at hmem
    obtain ⟨_, hget, hin⟩ := hmem
    obtain ⟨range, hrange, rfl⟩ := Option.map_eq_some_iff.mp hget
    exact ⟨range, hrange, hin⟩
  · rintro ⟨range, hrange, hin⟩
    refine ⟨_, hfound, hhit.mpr ⟨rangeInt range, ?_, hin⟩⟩
    rw [hrange, Option.map_some]

/-- A partition is listed exactly if its range meets the range of keys, unless it lies
within that range and holds neither of its ends. -/
theorem listed_iff_overlaps (h : Partitioned etcd tabName parVals) (hab : a ≤ b) {par : Nat}
    {range : Int32 × Int32} (hrange : (parRanges parVals)[par]? = some range) :
    (Listed etcd tabName a b par ↔ Overlaps parVals a b par) ↔
      ¬ (a < range.1 ∧ range.1 < range.2 ∧ range.2 ≤ b) := by
  have hmeets := Ranges.meets_iff (Int32.le_iff_toInt_le.mp hab) (rangeInt range)
  have hinside : (a.toInt < (rangeInt range).1 ∧ (rangeInt range).1 < (rangeInt range).2 ∧
      (rangeInt range).2 ≤ b.toInt) ↔ (a < range.1 ∧ range.1 < range.2 ∧ range.2 ≤ b) := by
    rw [Int32.lt_iff_toInt_lt, Int32.lt_iff_toInt_lt, Int32.le_iff_toInt_le]
    rfl
  have hlisted := listed_iff h a b par
  simp only [hrange, Option.some.injEq, exists_eq_left'] at hlisted
  simp only [hlisted, Overlaps, hrange, Option.some.injEq, exists_eq_left', hmeets, hinside]
  constructor
  · rintro hiff ⟨hlow, hne, hhigh⟩
    -- a range between the ends holds neither of them
    rw [Int32.lt_iff_toInt_lt] at hlow
    rw [Int32.le_iff_toInt_le] at hhigh
    rcases hiff.mpr (.inr (.inr (hinside.mp ⟨hlow, Int32.lt_iff_toInt_lt.mp hne, hhigh⟩)))
      with hin | hin
    · exact absurd hlow (not_lt.mpr hin.1)
    · exact absurd hin.2 (not_lt.mpr hhigh)
  · intro hout
    rw [← or_assoc, or_iff_left hout]

/-- The lookup for a range of keys finds all partitions that the range meets if and
only if no partition that has keys lies behind its lower end and ends up to its
upper end. -/
theorem range_lookup_iff (h : Partitioned etcd tabName parVals) (hab : a ≤ b) :
    (∃ res, getTableIp etcd tabName (ofInt a.toInt) (ofInt b.toInt) = some res ∧
      ∀ par, par ∈ res.map Prod.fst ↔ Overlaps parVals a b par) ↔
    ∀ range ∈ parRanges parVals, ¬ (a < range.1 ∧ range.1 < range.2 ∧ range.2 ≤ b) := by
  have hfound := getTableIp_partitioned h a.toInt b.toInt
  have hmem (par : Nat) : par ∈ (hitPartitions parVals a.toInt b.toInt).map Prod.fst ↔
      Listed etcd tabName a b par := by
    constructor
    · intro hmem
      exact ⟨_, hfound, hmem⟩
    · rintro ⟨res, hres, hmem⟩
      rw [hfound, Option.some.injEq] at hres
      rw [hres]
      exact hmem
  constructor
  · rintro ⟨res, hres, hall⟩ range hrange
    rw [hfound, Option.some.injEq] at hres
    obtain ⟨par, hpar⟩ := List.mem_iff_getElem?.mp hrange
    rw [← listed_iff_overlaps h hab hpar, ← hmem, hres]
    exact hall par
  · intro hout
    refine ⟨_, hfound, ?_⟩
    intro par
    rw [hmem]
    cases hpar : (parRanges parVals)[par]? with
    | none =>
        rw [listed_iff h, Overlaps]
        simp [hpar]
    | some range => exact (listed_iff_overlaps h hab hpar).mpr (hout range (List.mem_of_getElem? hpar))

/-- A table with these bounds. -/
def boundsTable (parVals : List Int32) : Etcd := (createParTable .empty ['t'] {} parVals).1

theorem boundsTable_partitioned (parVals : List Int32) :
    Partitioned (boundsTable parVals) ['t'] parVals := createParTable_partitioned rfl

theorem range_lookup_of_two :
    ∃ res, getTableIp (boundsTable [parMin, 10, parMax]) ['t'] (ofInt (5 : Int32).toInt)
        (ofInt (25 : Int32).toInt) = some res ∧
      ∀ par, par ∈ res.map Prod.fst ↔ Overlaps [parMin, 10, parMax] 5 25 par := by
  apply (range_lookup_iff (boundsTable_partitioned [parMin, 10, parMax]) (by decide)).mpr
  have hranges : parRanges [parMin, 10, parMax] = [(parMin, 10), (10, parMax)] := rfl
  rw [hranges, List.forall_mem_cons, List.forall_mem_cons]
  exact ⟨by decide, by decide, List.forall_mem_nil _⟩

/-- Of three partitions that a range of keys meets, the middle one is not listed. -/
theorem middle_not_listed : [parMin, 10, 20, parMax].Pairwise (· < ·) ∧
    Overlaps [parMin, 10, 20, parMax] 5 25 1 ∧
    ¬ Listed (boundsTable [parMin, 10, 20, parMax]) ['t'] 5 25 1 := by
  refine ⟨by decide, ⟨(10, 20), rfl, 10, by decide, by decide, by decide⟩, ?_⟩
  rw [listed_iff (boundsTable_partitioned _)]
  rintro ⟨range, hrange, hin⟩
  cases hrange
  exact absurd hin (by decide)

end Range

section Key

/-- The list for one key has an entry for each range that holds it. -/
theorem length_hitPartitions (parVals : List Int32) (z : Int) :
    (hitPartitions parVals z z).length = Ranges.count z (boundInts parVals) := by
  have hfst : (((parRanges parVals).map rangeInt).zipIdx.filter fun r =>
      inRange z r.1 || inRange z r.1).length = (((parRanges parVals).map rangeInt).filter fun r =>
        inRange z r).length := by
    have hmap := List.zipIdx_map_fst 0 ((parRanges parVals).map rangeInt)
    nth_rewrite 2 [← hmap]
    rw [List.filter_map, List.length_map]
    simp only [Bool.or_self]
    rfl
  rw [hitPartitions, List.length_map, hfst, parRanges_rangeInt, Ranges.count,
    List.countP_eq_length_filter]
  congr 2
  funext r
  rw [Bool.eq_iff_iff, inRange_iff, decide_eq_true_eq]

/-- A key lies in a single range if and only if it is not the greatest, and every bound
behind one that is beyond the key is beyond it too. -/
theorem one_home_iff {create : Ast.CreateTable} (h : Created etcd create) (key : Int32) :
    (∃ iter, getTableIp etcd create.tabName (ofInt key.toInt) (ofInt key.toInt) = some [iter]) ↔
      key ≠ parMax ∧ (create.parOpt.getD []).Pairwise fun b b' => key < b → key < b' := by
  have hbounds : boundInts create.parVals =
      parMin.toInt :: ((create.parOpt.getD []).map Int32.toInt ++ [parMax.toInt]) := by
    simp [boundInts, Ast.CreateTable.parVals]
  have hone : (∃ iter, getTableIp etcd create.tabName (ofInt key.toInt) (ofInt key.toInt) =
      some [iter]) ↔ Ranges.count key.toInt (boundInts create.parVals) = 1 := by
    rw [getTableIp_created h, ← length_hitPartitions, List.length_eq_one_iff]
    simp only [Option.some.injEq]
  rw [hone, hbounds]
  by_cases hmax : key = parMax
  · -- every bound is up to the greatest key
    have hnone : Ranges.count key.toInt
        (parMin.toInt :: ((create.parOpt.getD []).map Int32.toInt ++ [parMax.toInt])) = 0 := by
      rw [Ranges.count, List.countP_eq_zero]
      intro r hr
      have hsecond := (Ranges.mem_of_mem_cuts hr).2
      rw [← hbounds] at hsecond
      obtain ⟨b, _, hb⟩ := List.mem_map.mp hsecond
      have hle := b.toInt_le
      rw [hb] at hle
      rw [decide_eq_true_eq, hmax]
      intro hin
      exact absurd hin.2 (not_lt.mpr hle)
    rw [hnone]
    simp [hmax]
  · have hlt : key.toInt < parMax.toInt := by
      refine lt_of_le_of_ne key.toInt_le ?_
      intro heq
      exact hmax (Int32.toInt_inj.mp heq)
    have hlow : parMin.toInt ≤ key.toInt := key.minValue_le_toInt
    rw [Ranges.count_eq_one_iff hlow hlt, List.pairwise_map]
    simp only [← Int32.lt_iff_toInt_lt, ne_eq, hmax, not_false_eq_true, true_and]

theorem one_home_of_split :
    ∃ iter, getTableIp (createTable .empty (splitTable 100)).1 ['t'] (ofInt (5 : Int32).toInt)
      (ofInt (5 : Int32).toInt) = some [iter] := by
  have hcreated : Created (createTable .empty (splitTable 100)).1 (splitTable 100) :=
    createTable_created rfl
  apply (one_home_iff hcreated 5).mpr
  exact ⟨by decide, List.pairwise_singleton _ _⟩

/-- A table with two bounds that go back. -/
def backTable : Ast.CreateTable := ⟨['t'], [⟨['a'], .int⟩], some [100, 50]⟩

/-- The greatest key has no home, and with bounds that go back a key has two. -/
theorem homes_of_greatest_and_back :
    getTableIp (createTable .empty (splitTable 100)).1 ['t'] (ofInt parMax.toInt)
      (ofInt parMax.toInt) = some [] ∧
    getTableIp (createTable .empty backTable).1 ['t'] (ofInt (75 : Int32).toInt)
      (ofInt (75 : Int32).toInt) = some [(0, ip 0), (2, ip 2)] := by
  constructor
  · have hcreated : Created (createTable .empty (splitTable 100)).1 (splitTable 100) :=
      createTable_created rfl
    exact (getTableIp_created hcreated _ _).trans (congrArg some (by decide))
  · have hcreated : Created (createTable .empty backTable).1 backTable := createTable_created rfl
    exact (getTableIp_created hcreated _ _).trans (congrArg some (by decide))

end Key

end RucDDBS
