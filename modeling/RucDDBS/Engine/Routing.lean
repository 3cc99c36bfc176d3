import RucDDBS.Engine.PlanBuild

/-!
Which partitions the statements of a table reach. An insert goes to the partition
whose range holds its key; the other statements go to the partitions whose ranges
hold one of two fixed numbers. A partition that holds keys and none of these
numbers is reached by inserts only. All of them are reached exactly if the bounds
split the keys at most once, at a number from 1 to 10000.
-/

namespace RucDDBS

open Text

/-- The plan has a node plan for a partition: its operators stand over a scan of the
partition. -/
def Visits (plan : List RootOperator) (tabName : Text) (par : Nat) : Prop :=
  ∃ chain ∈ nodePlans plan, chain.getLast? = some (.tablescan tabName par)

/-- Some insert with this key is planned for the partition. -/
def Routes (etcd : Etcd) (tabName : Text) (key : Int32) (par : Nat) : Prop :=
  ∃ fresh insertTree row ipAddress, insertTree.tabName = tabName ∧
    buildInsertPlan fresh etcd insertTree =
      some [.distribution ⟨[[.insert tabName par row]], [ipAddress]⟩] ∧
    row.head?.map Value.str = some key

/-- Every statement that reads the table gets a plan with a node plan for the
partition. A select over several tables is planned only if all of them have
partitions. -/
structure Reached (etcd : Etcd) (tabName : Text) (par : Nat) : Prop where
  select : ∀ cols conds, ∃ plan, buildSelectPlan etcd ⟨cols, [tabName], conds⟩ = some plan ∧
    Visits plan tabName par
  join : ∀ selectTree plan, tabName ∈ selectTree.tabs → buildSelectPlan etcd selectTree = some plan →
    (∃ tables, .join tables ∈ plan) → Visits plan tabName par
  update : ∀ fresh updateTree, updateTree.tabName = tabName →
    ∃ plan, buildUpdatePlan fresh etcd updateTree = some plan ∧ Visits plan tabName par
  delete : ∀ deleteTree, deleteTree.tabName = tabName →
    ∃ plan, buildDeletePlan etcd deleteTree = some plan ∧ Visits plan tabName par

/-- The bounds split the keys at most once, at a number from 1 to 10000. A bound at
the least or the greatest value splits off no keys. -/
def OneSplit (bounds : List Int32) : Prop :=
  ∃ s : Int, 0 < s ∧ s ≤ 10000 ∧ ∀ b ∈ bounds, b = parMin ∨ b.toInt = s ∨ b = parMax

section Hits

/-- The bounds as numbers. -/
def boundInts (parVals : List Int32) : List Int := parVals.map Int32.toInt

/-- The range of the partition holds one of the two numbers. -/
def Hit (parVals : List Int32) (min max : Int) (par : Nat) : Prop :=
  ∃ r, (Ranges.cuts (boundInts parVals))[par]? = some r ∧ (Ranges.In min r ∨ Ranges.In max r)

theorem parRanges_rangeInt (parVals : List Int32) :
    (parRanges parVals).map rangeInt = Ranges.cuts (boundInts parVals) :=
  (Ranges.cuts_map Int32.toInt parVals).symm

theorem inRange_iff (z : Int) (r : Int × Int) : inRange z r = true ↔ Ranges.In z r := by
  simp [inRange, Ranges.In]

theorem mem_hitPartitions {parVals : List Int32} {min max : Int} {iter : Nat × Text} :
    iter ∈ hitPartitions parVals min max ↔ Hit parVals min max iter.1 ∧ iter.2 = ip iter.1 := by
  obtain ⟨par, ipAddress⟩ := iter
  simp only [hitPartitions, parRanges_rangeInt, List.mem_map, List.mem_filter, Bool.or_eq_true,
    inRange_iff, Hit]
  constructor
  · rintro ⟨⟨r, i⟩, ⟨hmem, hin⟩, heq⟩
    simp only [Prod.mk.injEq] at heq
    obtain ⟨rfl, rfl⟩ := heq
    exact ⟨⟨r, List.mk_mem_zipIdx_iff_getElem?.mp hmem, hin⟩, rfl⟩
  · rintro ⟨⟨r, hr, hin⟩, rfl⟩
    exact ⟨(r, par), ⟨List.mk_mem_zipIdx_iff_getElem?.mpr hr, hin⟩, rfl⟩

theorem visits_distribute_iff {parVals : List Int32} {min max : Int} {tabName : Text}
    {nodePlan : Nat → Chain}
    (hlast : ∀ par, (nodePlan par).getLast? = some (.tablescan tabName par)) (par : Nat) :
    Visits [.distribution (distribute (hitPartitions parVals min max) nodePlan)] tabName par ↔
      Hit parVals min max par := by
  rw [Visits, nodePlans_distribute]
  constructor
  · rintro ⟨chain, hchain, hscan⟩
    obtain ⟨_, hpar, rfl⟩ := List.mem_map.mp hchain
    obtain ⟨iter, hiter, rfl⟩ := List.mem_map.mp hpar
    rw [hlast, Option.some.injEq, Operator.tablescan.injEq] at hscan
    rw [← hscan.2]
    exact (mem_hitPartitions.mp hiter).1
  · intro hhit
    have hmem : (par, ip par) ∈ hitPartitions parVals min max :=
      mem_hitPartitions.mpr ⟨hhit, rfl⟩
    exact ⟨nodePlan par, List.mem_map_of_mem (List.mem_map_of_mem hmem), hlast par⟩

@[simp] theorem getLast_filteredScan (conds : List Ast.BinaryExpr) (tabName : Text) (par : Nat) :
    (filteredScan conds tabName par).getLast? = some (.tablescan tabName par) := by
  simp [filteredScan]

end Hits

section Plans

variable {etcd : Etcd} {create : Ast.CreateTable} (hcreated : Created etcd create)
  (hread : create.Readable)

include hcreated hread

theorem columnName_created :
    ∃ colInfo first, getColInfo etcd create.tabName = some colInfo ∧
      colInfo.columnName.head? = some first := by
  obtain ⟨field, fields, hfields⟩ := List.exists_cons_of_ne_nil hread.fields
  refine ⟨_, field.colName, getColInfo_created hcreated hread, ?_⟩
  simp [Ast.CreateTable.columns, hfields]

theorem delete_visits_iff (deleteTree : Ast.DeleteStmt) (htab : deleteTree.tabName = create.tabName) :
    ∃ plan, buildDeletePlan etcd deleteTree = some plan ∧
      ∀ par, Visits plan create.tabName par ↔ Hit create.parVals 0 10000000 par := by
  obtain ⟨colInfo, first, hcol, hfirst⟩ := columnName_created hcreated hread
  have hips := getTableIp_created hcreated 0 10000000
  let nodePlan (par : Nat) : Chain :=
    .delete create.tabName par :: filteredScan deleteTree.conds create.tabName par
  have hlast (par : Nat) : (nodePlan par).getLast? = some (.tablescan create.tabName par) := by
    simp [nodePlan, List.getLast?_cons]
  refine ⟨_, ?_, visits_distribute_iff hlast⟩
  simp [buildDeletePlan, htab, hcol, hfirst, hips, nodePlan]

theorem update_visits_iff (fresh : Nat → Nat → Nat → Int32) (updateTree : Ast.UpdateStmt)
    (htab : updateTree.tabName = create.tabName) :
    ∃ plan, buildUpdatePlan fresh etcd updateTree = some plan ∧
      ∀ par, Visits plan create.tabName par ↔ Hit create.parVals (-10000) 10000 par := by
  obtain ⟨colInfo, first, hcol, hfirst⟩ := columnName_created hcreated hread
  have hips : getTableIpDefault etcd create.tabName = _ := getTableIp_created hcreated (-10000) 10000
  let nodePlan (par : Nat) : Chain :=
    let sets := setColumns (fresh par) updateTree.setClauses colInfo.columnName
    .update create.tabName par (sets.map Prod.fst) (sets.map Prod.snd) ::
      filteredScan updateTree.conds create.tabName par
  have hlast (par : Nat) : (nodePlan par).getLast? = some (.tablescan create.tabName par) := by
    simp [nodePlan, List.getLast?_cons]
  refine ⟨_, ?_, visits_distribute_iff hlast⟩
  simp [buildUpdatePlan, htab, hcol, hfirst, hips, nodePlan]

omit hread in
/-- Once the table is among the tables of a planned select, its hit partitions are
visited. -/
theorem visits_of_scanTables {tabs : List Text} {tables : List Distribution}
    (hscan : scanTables etcd tabs = some (some tables)) (htab : create.tabName ∈ tabs)
    {above : List RootOperator}
    (habove : ∀ op ∈ above, (∃ cols, op = .projection cols) ∨ ∃ cond, op = .selection cond)
    {par : Nat} (hhit : Hit create.parVals (-10000) 10000 par) :
    Visits (above ++ readTables tables) create.tabName par := by
  obtain ⟨parIps, hips, hmem⟩ := (scanTables_some hscan).2 create.tabName htab
  have heq : parIps = hitPartitions create.parVals (-10000) 10000 := by
    have hfound : getTableIpDefault etcd create.tabName = _ :=
      getTableIp_created hcreated (-10000) 10000
    exact Option.some.inj (hips.symm.trans hfound)
  have hnodes := nodePlans_select (some tables) habove
  refine ⟨[.tablescan create.tabName par], ?_, rfl⟩
  simp only [Option.map_some, Option.getD_some] at hnodes
  rw [hnodes]
  refine List.mem_flatMap.mpr ⟨_, hmem, List.mem_map.mpr ⟨(par, ip par), ?_, rfl⟩⟩
  rw [heq]
  exact mem_hitPartitions.mpr ⟨hhit, rfl⟩

theorem select_visits (cols : List Ast.Col) (conds : List Ast.BinaryExpr) {par : Nat}
    (hhit : Hit create.parVals (-10000) 10000 par) :
    ∃ plan, buildSelectPlan etcd ⟨cols, [create.tabName], conds⟩ = some plan ∧
      Visits plan create.tabName par := by
  obtain ⟨colInfo, first, hcol, hfirst⟩ := columnName_created hcreated hread
  have hips : getTableIpDefault etcd create.tabName = _ := getTableIp_created hcreated (-10000) 10000
  have hne : hitPartitions create.parVals (-10000) 10000 ≠ [] :=
    List.ne_nil_of_mem (mem_hitPartitions.mpr ⟨hhit, (rfl : (par, ip par).2 = ip par)⟩)
  have hscan : scanTables etcd [create.tabName] =
      some (some [scanTable (hitPartitions create.parVals (-10000) 10000) create.tabName]) := by
    simp [scanTables, hcol, hfirst, hips, hne]
  have hplanned : ∃ plan, buildSelectPlan etcd ⟨cols, [create.tabName], conds⟩ = some plan :=
    ⟨_, by simp only [buildSelectPlan, hscan]; rfl⟩
  obtain ⟨plan, hplan⟩ := hplanned
  refine ⟨plan, hplan, ?_⟩
  obtain ⟨above, tables, htables, habove, heq⟩ := buildSelectPlan_some hplan
  rw [hscan, Option.some.injEq] at htables
  subst htables
  rw [heq]
  exact visits_of_scanTables hcreated hscan (by simp) habove hhit

omit hread in
theorem join_visits {selectTree : Ast.SelectStmt} {plan : List RootOperator}
    (htab : create.tabName ∈ selectTree.tabs) (hplan : buildSelectPlan etcd selectTree = some plan)
    (hjoin : ∃ tables, .join tables ∈ plan) {par : Nat}
    (hhit : Hit create.parVals (-10000) 10000 par) : Visits plan create.tabName par := by
  obtain ⟨above, tables, hscan, habove, rfl⟩ := buildSelectPlan_some hplan
  cases tables with
  | none =>
      obtain ⟨tables, hmem⟩ := hjoin
      rcases habove _ (by simpa using hmem) with ⟨cols, heq⟩ | ⟨cond, heq⟩
      · cases heq
      · cases heq
  | some tables => exact visits_of_scanTables hcreated hscan htab habove hhit

/-- A partition is reached by every statement exactly if its range holds a number that
each of them asks for. -/
theorem reached_iff_hit (par : Nat) :
    Reached etcd create.tabName par ↔
      Hit create.parVals (-10000) 10000 par ∧ Hit create.parVals 0 10000000 par := by
  constructor
  · intro h
    constructor
    · obtain ⟨plan, hplan, hvisit⟩ :=
        update_visits_iff hcreated hread (fun _ _ _ => 0) ⟨create.tabName, [], []⟩ rfl
      obtain ⟨plan', hplan', hreach⟩ := h.update (fun _ _ _ => 0) ⟨create.tabName, [], []⟩ rfl
      rw [hplan, Option.some.injEq] at hplan'
      subst hplan'
      exact (hvisit par).mp hreach
    · obtain ⟨plan, hplan, hvisit⟩ := delete_visits_iff hcreated hread ⟨create.tabName, []⟩ rfl
      obtain ⟨plan', hplan', hreach⟩ := h.delete ⟨create.tabName, []⟩ rfl
      rw [hplan, Option.some.injEq] at hplan'
      subst hplan'
      exact (hvisit par).mp hreach
  · rintro ⟨hdefault, hdelete⟩
    refine ⟨?_, ?_, ?_, ?_⟩
    · intro cols conds
      exact select_visits hcreated hread cols conds hdefault
    · intro selectTree plan htab hplan hjoin
      exact join_visits hcreated htab hplan hjoin hdefault
    · intro fresh updateTree htab
      obtain ⟨plan, hplan, hvisit⟩ := update_visits_iff hcreated hread fresh updateTree htab
      exact ⟨plan, hplan, (hvisit par).mpr hdefault⟩
    · intro deleteTree htab
      obtain ⟨plan, hplan, hvisit⟩ := delete_visits_iff hcreated hread deleteTree htab
      exact ⟨plan, hplan, (hvisit par).mpr hdelete⟩

omit hread in
/-- A key is routed to a partition whose range holds it. -/
theorem hit_of_routes {key : Int32} {par : Nat} (h : Routes etcd create.tabName key par) :
    ∃ r, (Ranges.cuts (boundInts create.parVals))[par]? = some r ∧ Ranges.In key.toInt r := by
  obtain ⟨fresh, insertTree, row, ipAddress, htab, hplan, hkey⟩ := h
  obtain ⟨first, tail, par', ipAddress', rest, hips, _, heq⟩ := buildInsertPlan_some hplan
  simp only [List.cons.injEq, RootOperator.distribution.injEq, Distribution.mk.injEq,
    Operator.insert.injEq, and_true] at heq
  obtain ⟨⟨_, rfl, rfl⟩, rfl⟩ := heq
  have hstr : first.str = key := by simpa using hkey
  rw [htab, hstr, getTableIp_created hcreated, Option.some.injEq] at hips
  have hmem : (par, ipAddress) ∈ hitPartitions create.parVals key.toInt key.toInt := by
    rw [hips]
    exact List.mem_cons_self
  obtain ⟨⟨r, hr, hin⟩, _⟩ := mem_hitPartitions.mp hmem
  exact ⟨r, hr, (or_self_iff).mp hin⟩

omit hcreated hread in
variable (create) in
/-- The ranges leave out no key but the greatest. -/
theorem exists_range {key : Int} (hlow : parMin.toInt ≤ key) (hhigh : key < parMax.toInt) :
    ∃ r ∈ Ranges.cuts (boundInts create.parVals), Ranges.In key r := by
  have hbounds : boundInts create.parVals =
      parMin.toInt :: ((create.parOpt.getD []).map Int32.toInt ++ [parMax.toInt]) := by
    simp [boundInts, Ast.CreateTable.parVals]
  rw [hbounds]
  exact Ranges.exists_cut hlow ⟨parMax.toInt, by simp, hhigh⟩

/-- Every key below the greatest value is routed somewhere. -/
theorem exists_route {key : Int32} (hkey : key.toInt < parMax.toInt) :
    ∃ par, Routes etcd create.tabName key par := by
  obtain ⟨r, hr, hin⟩ := exists_range create key.minValue_le_toInt hkey
  obtain ⟨i, hi⟩ := List.mem_iff_getElem?.mp hr
  -- the partitions found for the key are not none, so the first of them is taken
  have hmem : (i, ip i) ∈ hitPartitions create.parVals key.toInt key.toInt :=
    mem_hitPartitions.mpr ⟨⟨r, hi, .inl hin⟩, rfl⟩
  obtain ⟨⟨par, ipAddress⟩, rest, hips⟩ := List.exists_cons_of_ne_nil (List.ne_nil_of_mem hmem)
  obtain ⟨colInfo, first, hcol, hfirst⟩ := columnName_created hcreated hread
  obtain ⟨names, hnames⟩ := List.head?_eq_some_iff.mp hfirst
  have hfound := getTableIp_created hcreated key.toInt key.toInt
  refine ⟨par, fun _ => 0, ⟨create.tabName, [.intLit key]⟩, [⟨first, create.tabName, key⟩],
    ipAddress, rfl, ?_, rfl⟩
  simp [buildInsertPlan, hcol, hnames, insertRow, interpValue, hfound, hips]

end Plans

section Split

variable {bounds : List Int32}

/-- Every range that holds keys holds one of the numbers each statement asks for. -/
def AllHit (cuts : List (Int × Int)) : Prop :=
  ∀ key : Int, parMin.toInt ≤ key → key < parMax.toInt → ∃ r ∈ cuts, Ranges.In key r ∧
    (Ranges.In (-10000) r ∨ Ranges.In 10000 r) ∧ (Ranges.In 0 r ∨ Ranges.In 10000000 r)

/-- A bound that splits the keys lies from 1 to 10000, and the next bound beyond all
numbers that are asked for. -/
theorem split_of_allHit {points : List Int} (hsorted : points.Pairwise (· ≤ ·))
    (hall : AllHit (Ranges.cuts points)) {b : Int} (hb : b ∈ points) (hlow : parMin.toInt < b)
    (hhigh : b < parMax.toInt) :
    0 < b ∧ b ≤ 10000 ∧ ∀ b' ∈ points, b < b' → 10000000 < b' := by
  -- the range that the bound opens and the range that it closes
  obtain ⟨right, hright, hin, hdefault, hdelete⟩ := hall b hlow.le hhigh
  have hopen := Ranges.fst_eq_of_in hsorted hright hb hin
  obtain ⟨left, hleft, hin', hdefault', hdelete'⟩ := hall (b - 1) (by omega) (by omega)
  have hclose : left.2 = b := by
    have hapart := Ranges.apart_of_mem hsorted hleft hb
    simp only [Ranges.In] at hin'
    omega
  simp only [Ranges.In] at hdefault hdelete hdefault' hdelete' hin hin'
  refine ⟨by omega, by omega, ?_⟩
  intro b' hb' hlt
  have hapart := Ranges.apart_of_mem hsorted hright hb'
  omega

theorem sorted_boundInts {create : Ast.CreateTable}
    (hsorted : (create.parOpt.getD []).Pairwise (· ≤ ·)) :
    (boundInts create.parVals).Pairwise (· ≤ ·) := by
  have hparVals : create.parVals.Pairwise (· ≤ ·) := by
    refine List.pairwise_append.mpr ⟨List.pairwise_cons.mpr ⟨?_, hsorted⟩, by simp, ?_⟩
    · intro b _
      exact Int32.le_iff_toInt_le.mpr b.minValue_le_toInt
    · intro b _ max hmax
      rw [List.mem_singleton.mp hmax]
      exact Int32.le_iff_toInt_le.mpr b.toInt_le
  exact List.pairwise_map.mpr (hparVals.imp fun h => Int32.le_iff_toInt_le.mp h)

theorem mem_boundInts {create : Ast.CreateTable} {z : Int} (h : z ∈ boundInts create.parVals) :
    z = parMin.toInt ∨ (∃ b ∈ create.parOpt.getD [], b.toInt = z) ∨ z = parMax.toInt := by
  obtain ⟨b, hb, rfl⟩ := List.mem_map.mp h
  rcases List.mem_append.mp hb with hlow | hmax
  · rcases List.mem_cons.mp hlow with rfl | hmem
    · exact .inl rfl
    · exact .inr (.inl ⟨b, hmem, rfl⟩)
  · rw [List.mem_singleton.mp hmax]
    exact .inr (.inr rfl)

theorem oneSplit_of_allHit {create : Ast.CreateTable}
    (hsorted : (create.parOpt.getD []).Pairwise (· ≤ ·))
    (hall : AllHit (Ranges.cuts (boundInts create.parVals))) :
    OneSplit (create.parOpt.getD []) := by
  have hpoints := sorted_boundInts hsorted
  have hmem (b : Int32) (hb : b ∈ create.parOpt.getD []) : b.toInt ∈ boundInts create.parVals :=
    List.mem_map.mpr ⟨b, by simp [Ast.CreateTable.parVals, hb], rfl⟩
  have hinner (b : Int32) (hmin : b ≠ parMin) (hmax : b ≠ parMax) :
      parMin.toInt < b.toInt ∧ b.toInt < parMax.toInt := by
    have hlow : parMin.toInt ≠ b.toInt := fun heq => hmin (Int32.toInt_inj.mp heq.symm)
    have hhigh : b.toInt ≠ parMax.toInt := fun heq => hmax (Int32.toInt_inj.mp heq)
    exact ⟨lt_of_le_of_ne b.minValue_le_toInt hlow, lt_of_le_of_ne b.toInt_le hhigh⟩
  by_cases hsplit : ∃ b ∈ create.parOpt.getD [], b ≠ parMin ∧ b ≠ parMax
  · obtain ⟨b, hb, hmin, hmax⟩ := hsplit
    obtain ⟨hpos, hle, hnext⟩ := split_of_allHit hpoints hall (hmem b hb) (hinner b hmin hmax).1
      (hinner b hmin hmax).2
    refine ⟨b.toInt, hpos, hle, ?_⟩
    intro b' hb'
    by_cases hmin' : b' = parMin
    · exact .inl hmin'
    · by_cases hmax' : b' = parMax
      · exact .inr (.inr hmax')
      · -- a second bound would lie beyond 10000000 or leave the first one there
        obtain ⟨hpos', hle', hnext'⟩ := split_of_allHit hpoints hall (hmem b' hb')
          (hinner b' hmin' hmax').1 (hinner b' hmin' hmax').2
        have hgt := hnext b'.toInt (hmem b' hb')
        have hlt := hnext' b.toInt (hmem b hb)
        right
        left
        omega
  · refine ⟨1, by omega, by omega, ?_⟩
    intro b hb
    by_cases hmin : b = parMin
    · exact .inl hmin
    · exact .inr (.inr (by_contra fun hmax => hsplit ⟨b, hb, hmin, hmax⟩))

/-- A range between the least value, one split and the greatest value that holds a key
holds the numbers that are asked for. -/
theorem hit_of_oneSplit {create : Ast.CreateTable} (hsplit : OneSplit (create.parOpt.getD []))
    {r : Int × Int} (hr : r ∈ Ranges.cuts (boundInts create.parVals)) {key : Int}
    (hin : Ranges.In key r) :
    (Ranges.In (-10000) r ∨ Ranges.In 10000 r) ∧ (Ranges.In 0 r ∨ Ranges.In 10000000 r) := by
  obtain ⟨s, hpos, hle, hbounds⟩ := hsplit
  have hpoint (z : Int) (hz : z ∈ boundInts create.parVals) :
      z = -2147483648 ∨ z = s ∨ z = 2147483647 := by
    rcases mem_boundInts hz with hmin | ⟨b, hb, rfl⟩ | hmax
    · exact .inl hmin
    · rcases hbounds b hb with rfl | hs | rfl
      · exact .inl rfl
      · exact .inr (.inl hs)
      · exact .inr (.inr rfl)
    · exact .inr (.inr hmax)
  have hfirst := hpoint r.1 (Ranges.mem_of_mem_cuts hr).1
  have hsecond := hpoint r.2 (Ranges.mem_of_mem_cuts hr).2
  simp only [Ranges.In] at hin ⊢
  omega

end Split

/-- Every partition that an insert fills is reached by every other statement exactly
if the bounds split the keys at most once, at a number from 1 to 10000. -/
theorem statements_reach_iff {etcd : Etcd} {create : Ast.CreateTable}
    (hcreated : Created etcd create) (hread : create.Readable)
    (hsorted : (create.parOpt.getD []).Pairwise (· ≤ ·)) :
    (∀ key par, Routes etcd create.tabName key par → Reached etcd create.tabName par) ↔
      OneSplit (create.parOpt.getD []) := by
  constructor
  · intro hreach
    apply oneSplit_of_allHit hsorted
    intro key hlow hhigh
    have htoInt : (Int32.ofInt key).toInt = key :=
      Int32.toInt_ofInt_of_le hlow (lt_trans hhigh (by decide))
    have hkey : (Int32.ofInt key).toInt < parMax.toInt := by rwa [htoInt]
    obtain ⟨par, hroute⟩ := exists_route hcreated hread hkey
    obtain ⟨⟨r, hr, hdefault⟩, ⟨r', hr', hdelete⟩⟩ :=
      (reached_iff_hit hcreated hread par).mp (hreach _ par hroute)
    obtain ⟨r'', hr'', hin⟩ := hit_of_routes hcreated hroute
    rw [hr, Option.some.injEq] at hr' hr''
    subst hr' hr''
    rw [htoInt] at hin
    exact ⟨r, List.mem_of_getElem? hr, hin, hdefault, hdelete⟩
  · intro hsplit key par hroute
    obtain ⟨r, hr, hin⟩ := hit_of_routes hcreated hroute
    obtain ⟨hdefault, hdelete⟩ := hit_of_oneSplit hsplit (List.mem_of_getElem? hr) hin
    exact (reached_iff_hit hcreated hread par).mpr ⟨⟨r, hr, hdefault⟩, ⟨r, hr, hdelete⟩⟩

/-- `CREATE TABLE t (a INT)` with one bound. -/
def splitTable (bound : Int32) : Ast.CreateTable := ⟨['t'], [⟨['a'], .int⟩], some [bound]⟩

theorem splitTable_readable (bound : Int32) : (splitTable bound).Readable where
  fields := by simp [splitTable]
  names := by
    intro field hfield
    rw [List.mem_singleton.mp hfield]
    exact ⟨isWord_of_all (by decide) (by decide), by simp, by decide⟩

theorem statements_reach_split_at_100 :
    (∀ key par, Routes (createTable .empty (splitTable 100)).1 ['t'] key par →
      Reached (createTable .empty (splitTable 100)).1 ['t'] par) ↔ OneSplit [100] := by
  apply statements_reach_iff (createTable_created rfl) (splitTable_readable 100)
  simp [splitTable]

/-- The rows of a table that is split at -100 and 100 with keys from -100 to 99 are not
reached. -/
theorem middle_not_reached :
    ¬ ∀ etcd create, Created etcd create → create.Readable →
      (create.parOpt.getD []).Pairwise (· ≤ ·) →
      ∀ key par, Routes etcd create.tabName key par → Reached etcd create.tabName par := by
  intro hall
  let create : Ast.CreateTable := ⟨['t'], [⟨['a'], .int⟩], some [-100, 100]⟩
  have hcreated : Created (createTable .empty create).1 create := createTable_created rfl
  have hread : create.Readable := ⟨(splitTable_readable 100).fields, (splitTable_readable 100).names⟩
  have hzero : (0 : Int32).toInt < parMax.toInt := by decide
  obtain ⟨par, hroute⟩ := exists_route hcreated hread hzero
  have hreach := hall _ create hcreated hread (by decide) 0 par hroute
  obtain ⟨r, hr, hhit⟩ := ((reached_iff_hit hcreated hread par).mp hreach).1
  obtain ⟨r', hr', hin⟩ := hit_of_routes hcreated hroute
  rw [hr, Option.some.injEq] at hr'
  subst hr'
  have hcuts : Ranges.cuts (boundInts create.parVals) =
      [(-2147483648, -100), (-100, 100), (100, 2147483647)] := by decide
  have hmem := List.mem_of_getElem? hr
  rw [hcuts] at hmem
  simp only [List.mem_cons, List.not_mem_nil, or_false] at hmem
  simp only [Ranges.In] at hhit hin
  rcases hmem with rfl | rfl | rfl
  · exact absurd hin (by decide)
  · exact absurd hhit (by decide)
  · exact absurd hin (by decide)

end RucDDBS
