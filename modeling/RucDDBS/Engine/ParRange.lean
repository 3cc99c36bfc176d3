import RucDDBS.Engine.MetaData

/-!
What a table was cut into, read back from etcd: `GetParRange` returns the ranges
between the bounds, and `GetTableIp` never pairs a partition with the address of
another, whatever the two texts of a query are.
-/

namespace RucDDBS

open Text

/-- `GetParRange`. Without the table no number is read, which is undefined. -/
def getParRange (etcd : Etcd) (tabName : Text) : Option (List (Int × Int)) := do
  let (ranges, _) ← readVec readRange (etcdGet etcd (parKey tabName))
  pure ranges

section Read

variable {etcd : Etcd} {tabName : Text} {parVals : List Int32}

theorem getParRange_partitioned (h : Partitioned etcd tabName parVals) :
    getParRange etcd tabName = some ((parRanges parVals).map rangeInt) := by
  have hranges := readVec_vecToString writeRange rangeInt (parRanges parVals)
    fun range _ => ⟨writeRange_word range, readRange_writeRange range⟩
  rw [getParRange, h.parInfo, hranges]
  rfl

/-- The range of a partition begins at its own bound and ends at the next. -/
theorem parRanges_getElem? (parVals : List Int32) {i : Nat} (h : i + 1 < parVals.length) :
    (parRanges parVals)[i]? = some (parVals[i], parVals[i + 1]) := by
  have hfirst : parVals[i]? = some parVals[i] := List.getElem?_eq_getElem (by omega)
  have hnext : parVals.tail[i]? = some parVals[i + 1] := by
    rw [List.getElem?_tail, List.getElem?_eq_getElem h]
  have hpair : (parVals.zip parVals.tail)[i]? = some (parVals[i], parVals[i + 1]) :=
    List.getElem?_zip_eq_some.mpr ⟨hfirst, hnext⟩
  exact hpair

theorem length_parRanges (parVals : List Int32) :
    (parRanges parVals).length = parVals.length - 1 := by
  simp [parRanges, Ranges.cuts]

/-- A partition that is hit is one of the table, with its own address. -/
theorem lt_of_mem_hitPartitions {min max : Int} {i : Nat} {addr : Text}
    (h : (i, addr) ∈ hitPartitions parVals min max) : i < parVals.length - 1 ∧ addr = ip i := by
  obtain ⟨r, hhit, heq⟩ := List.mem_map.mp h
  obtain ⟨rfl, rfl⟩ := Prod.mk.inj heq
  have hlt := (List.mem_zipIdx' (List.mem_filter.mp hhit).1).1
  rw [List.length_map, length_parRanges] at hlt
  exact ⟨hlt, rfl⟩

end Read

/-- After a table was created its ranges are the pairs of consecutive bounds in
order, and every partition that a query finds has the address it was given. -/
theorem par_table_read_back {etcd : Etcd} {tabName : Text} {colsInfo : ColumnInfo}
    {parVals : List Int32} (h : (createParTable etcd tabName colsInfo parVals).2 = true) :
    (∃ ranges, getParRange (createParTable etcd tabName colsInfo parVals).1 tabName = some ranges ∧
      ranges.length = parVals.length - 1 ∧
      ∀ i, (hi : i + 1 < parVals.length) →
        ranges[i]? = some (parVals[i].toInt, parVals[i + 1].toInt)) ∧
      ∀ minRange maxRange, ∃ res,
        getTableIp (createParTable etcd tabName colsInfo parVals).1 tabName minRange maxRange =
            some res ∧
          ∀ i addr, (i, addr) ∈ res → i < parVals.length - 1 ∧ addr = ip i := by
  have hpartitioned := createParTable_partitioned h
  constructor
  · refine ⟨_, getParRange_partitioned hpartitioned, ?_, ?_⟩
    · rw [List.length_map, length_parRanges]
    · intro i hi
      rw [List.getElem?_map, parRanges_getElem? parVals hi]
      rfl
  · intro minRange maxRange
    refine ⟨_, getTableIp_texts hpartitioned minRange maxRange, ?_⟩
    intro i addr hmem
    exact lt_of_mem_hitPartitions hmem

/-- Two partitions between the extreme bounds. -/
theorem par_table_read_back_extremes :
    (∃ ranges, getParRange (createParTable .empty ['t'] {} [parMin, -5, parMax]).1 ['t'] =
        some ranges ∧
      ranges.length = 2 ∧
      ∀ i, (hi : i + 1 < [parMin, -5, parMax].length) →
        ranges[i]? = some ([parMin, -5, parMax][i].toInt, [parMin, -5, parMax][i + 1].toInt)) ∧
      ∀ minRange maxRange, ∃ res,
        getTableIp (createParTable .empty ['t'] {} [parMin, -5, parMax]).1 ['t'] minRange maxRange =
            some res ∧
          ∀ i addr, (i, addr) ∈ res → i < 2 ∧ addr = ip i := by
  have hcreated : (createParTable .empty ['t'] {} [parMin, -5, parMax]).2 = true := rfl
  exact par_table_read_back hcreated

end RucDDBS
