import RucDDBS.Engine.Operators
import RucDDBS.Engine.Routing

/-!
Rows and their keys. A row is stored under its partition and its first column, and
every operator that changes it rebuilds this key from the row. One invariant ties
the routing of inserts, the keys and the records together; an update breaks it
exactly where it gives a row another first column, for it puts the changed row
back under the key of the old one.
-/

namespace RucDDBS

open Text

section Keys

theorem rowKey_eq (tabName : Text) (par : Nat) (key : Int32) :
    rowKey tabName par key =
      storeData ++ (tabName ++ '/' :: (ofInt par ++ '/' :: ofInt key.toInt)) := by
  simp [rowKey, parKeyPrefix]

theorem slash_notMem (z : Int) : '/' ∉ ofInt z := notMem_ofInt (by decide) (by decide) z

/-- The keys below a partition's prefix are those of its rows. -/
theorem eq_of_isPrefixOf {tabName tabName' : Text} {par par' : Nat} {key : Int32}
    (htab : '/' ∉ tabName) (htab' : '/' ∉ tabName')
    (h : (parKeyPrefix tabName par).isPrefixOf (rowKey tabName' par' key) = true) :
    tabName = tabName' ∧ par = par' := by
  obtain ⟨rest, heq⟩ := List.isPrefixOf_iff_prefix.mp h
  rw [rowKey_eq, parKeyPrefix, List.append_assoc] at heq
  have hbelow := List.append_cancel_left heq
  rw [List.append_assoc, List.cons_append] at hbelow
  obtain ⟨rfl, hpar⟩ := append_sep_inj htab htab' hbelow
  rw [List.append_assoc, List.singleton_append] at hpar
  obtain ⟨hnumber, _⟩ := append_sep_inj (slash_notMem par) (slash_notMem par') hpar
  exact ⟨rfl, Int.ofNat.inj (ofInt_injective hnumber)⟩

theorem isPrefixOf_rowKey (tabName : Text) (par : Nat) (key : Int32) :
    (parKeyPrefix tabName par).isPrefixOf (rowKey tabName par key) = true :=
  List.isPrefixOf_iff_prefix.mpr (List.prefix_append _ _)

theorem rowKey_inj {tabName : Text} {par par' : Nat} {key key' : Int32} (htab : '/' ∉ tabName)
    (h : rowKey tabName par key = rowKey tabName par' key') : par = par' ∧ key = key' := by
  have hprefix := isPrefixOf_rowKey tabName par key
  rw [h] at hprefix
  obtain ⟨_, rfl⟩ := eq_of_isPrefixOf htab htab hprefix
  have hkey := ofInt_injective (List.append_cancel_left h)
  exact ⟨rfl, Int32.toInt_inj.mp hkey⟩

theorem isPrefixOf_of_parKeyPrefix {tabName key : Text} {par : Nat}
    (h : (parKeyPrefix tabName par).isPrefixOf key = true) : storeData.isPrefixOf key = true := by
  obtain ⟨rest, rfl⟩ := List.isPrefixOf_iff_prefix.mp h
  rw [parKeyPrefix, List.append_assoc]
  exact List.isPrefixOf_iff_prefix.mpr (List.prefix_append _ _)

/-- What is stored below the prefix of the rows is none of the metadata. -/
theorem meta_ne_of_storeData {key : Text} (h : storeData.isPrefixOf key = true) (name : Text) :
    ipKey name ≠ key ∧ parKey name ≠ key ∧ colKey name ≠ key := by
  obtain ⟨rest, rfl⟩ := List.isPrefixOf_iff_prefix.mp h
  exact ⟨append_ne 2 (by decide) (by decide) (by decide) _ _,
    append_ne 2 (by decide) (by decide) (by decide) _ _,
    append_ne 2 (by decide) (by decide) (by decide) _ _⟩

/-- Creating a table writes nothing where rows are stored. -/
theorem createTable_get {key : Text} (h : storeData.isPrefixOf key = true) (etcd : Etcd)
    (create : Ast.CreateTable) : (createTable etcd create).1.get key = etcd.get key := by
  unfold createTable createParTable
  split
  · rfl
  · obtain ⟨hip, hpar, hcol⟩ := meta_ne_of_storeData h create.tabName
    rw [SortedMap.get_put, if_neg hcol.symm, SortedMap.get_put, if_neg hpar.symm,
      SortedMap.get_put, if_neg hip.symm]

theorem meta_ne_of_isPrefixOf {tabName key : Text} {par : Nat}
    (h : (parKeyPrefix tabName par).isPrefixOf key = true) (name : Text) :
    ipKey name ≠ key ∧ parKey name ≠ key ∧ colKey name ≠ key :=
  meta_ne_of_storeData (isPrefixOf_of_parKeyPrefix h) name

end Keys

section Records

theorem readCell_spread (cell : Value) {rest : Text} (hrest : AtBlank rest) :
    readCell (' ' :: (ofInt cell.str.toInt ++ rest)) = some ({ str := cell.str }, rest) := by
  simp [readCell, hrest.noDigit]

/-- A record is read back without the names. -/
theorem stringToRec_recToString (row : Record) :
    stringToRec row.recToString = some (row.map fun cell => { str := cell.str }) := by
  have hsize := readNumber_ofInt row.length
    (atBlank_spread (row.map fun cell => ofInt cell.str.toInt)).noDigit
  have hcells := readMany_spread (fun cell : Value => ofInt cell.str.toInt)
    (fun cell => ({ str := cell.str } : Value)) row fun cell _ rest hrest =>
      readCell_spread cell hrest
  rw [stringToRec, Record.recToString, hsize]
  simp [hcells]

/-- The first column of a record. -/
def firstColumn (row : Record) : Option Int32 := row.head?.map Value.str

theorem firstColumn_written (row : Record) :
    firstColumn (row.map fun cell => { str := cell.str }) = firstColumn row := by
  cases row <;> rfl

theorem firstColumn_nameCells {tabs : Text} {row row' : Record} {names : List Text}
    (h : nameCells tabs row names = some row') : firstColumn row' = firstColumn row := by
  cases row with
  | nil =>
      simp only [nameCells, Option.some.injEq] at h
      subst h
      rfl
  | cons cell row =>
      cases names with
      | nil => cases h
      | cons colName names =>
          simp only [nameCells, Option.bind_eq_bind, Option.bind_eq_some_iff, Option.pure_def,
            Option.some.injEq] at h
          obtain ⟨rest, _, rfl⟩ := h
          rfl

theorem keyOf_eq_some_iff {tabName : Text} {par : Nat} {row : Record} {key : Text} :
    keyOf tabName par row = some key ↔ ∃ k, firstColumn row = some k ∧ key = rowKey tabName par k := by
  cases row with
  | nil => simp [keyOf, firstColumn]
  | cons cell row => simp [keyOf, firstColumn, eq_comm]

/-- A key that belongs to no row of the partition is not the key of one. -/
theorem keyOf_ne {tabName : Text} {par : Nat} {row : Record} {key key' : Text}
    (h : keyOf tabName par row = some key) (hne : ∀ k, key' ≠ rowKey tabName par k) : key' ≠ key := by
  obtain ⟨k, _, rfl⟩ := keyOf_eq_some_iff.mp h
  exact hne k

/-- What an update writes comes from a row below. -/
theorem exists_of_updateRows {tabName : Text} {par : Nat} {sets : List (Nat × Value)}
    {rows : List Record} {written : List (Text × Record)}
    (h : rows.mapM (updateRow tabName par sets) = some written) {pair : Text × Record}
    (hpair : pair ∈ written) :
    ∃ row ∈ rows, keyOf tabName par row = some pair.1 ∧ setCells row sets = some pair.2 := by
  obtain ⟨row, hrow, hupdate⟩ := exists_of_mapM h pair hpair
  simp only [updateRow, Option.bind_eq_bind, Option.bind_eq_some_iff, Option.pure_def,
    Option.some.injEq] at hupdate
  obtain ⟨key, hkey, row', hset, rfl⟩ := hupdate
  exact ⟨row, hrow, hkey, hset⟩

end Records

section Chains

/-- The operators only read one partition of a table. -/
inductive Reads (tabName : Text) (par : Nat) : Chain → Prop
  | scan : Reads tabName par [.tablescan tabName par]
  | selection (conds : Ast.BinaryExpr) {next : Chain} :
      Reads tabName par next → Reads tabName par (.selection conds :: next)

/-- The operators write rows of one partition of a table. -/
inductive Writes (tabName : Text) (par : Nat) : Chain → Prop
  | insert (record : Record) : Writes tabName par [.insert tabName par record]
  | delete {next : Chain} : Reads tabName par next → Writes tabName par (.delete tabName par :: next)
  | update (setColIndex : List Nat) (setVal : List Value) {next : Chain} :
      Reads tabName par next → Writes tabName par (.update tabName par setColIndex setVal :: next)

theorem reads_filteredScan (conds : List Ast.BinaryExpr) (tabName : Text) (par : Nat) :
    Reads tabName par (filteredScan conds tabName par) := by
  induction conds with
  | nil => exact .scan
  | cons cond conds ih => exact .selection cond ih

variable {tabName : Text} {par : Nat} {chain : Chain}

/-- Sending a chain changes its conditions only. -/
theorem Reads.arriving (h : Reads tabName par chain) (fresh : Nat → Int32) :
    Reads tabName par (arrivingChain fresh chain) := by
  induction h generalizing fresh with
  | scan => exact .scan
  | selection conds _ ih => exact .selection _ (ih _)

theorem Writes.arriving (h : Writes tabName par chain) (fresh : Nat → Int32) :
    Writes tabName par (arrivingChain fresh chain) := by
  cases h with
  | insert record => exact .insert record
  | delete h => exact .delete (h.arriving _)
  | update cols vals h => exact .update cols vals (h.arriving _)

end Chains

section Effects

variable {etcd etcd' : Etcd} {tabName : Text} {par : Nat} {plan : Chain} {res : List Record}

/-- The records that the operators below return. -/
def rowsBelow (next : Chain) (etcd : Etcd) : List Record :=
  ((execOp next etcd).map Prod.snd).getD []

/-- The first operator of the plan puts `row'` under the key of `row`. -/
def Puts (etcd : Etcd) : Chain → Record → Record → Prop
  | .insert _ _ record :: _, row, row' => row = record ∧ row' = record
  | .update _ _ setColIndex setVal :: next, row, row' =>
      row ∈ rowsBelow next etcd ∧ setCells row (setColIndex.zip setVal) = some row'
  | _, _, _ => False

theorem execSelection_mem {conds : Ast.BinaryExpr} {ret : List Record}
    (h : execSelection conds ret = some res) : ∀ row ∈ res, row ∈ ret := by
  simp only [execSelection, Option.bind_eq_bind, Option.bind_eq_some_iff, Option.pure_def,
    Option.some.injEq] at h
  obtain ⟨kept, _, rfl⟩ := h
  intro row hrow
  obtain ⟨pair, hpair, rfl⟩ := List.mem_map.mp hrow
  exact (List.of_mem_zip (List.mem_filter.mp hpair).1).1

/-- Reading changes nothing, and what it returns was scanned. -/
theorem execOp_reads (h : Reads tabName par plan) (hexec : execOp plan etcd = some (etcd', res)) :
    etcd' = etcd ∧ ∀ row ∈ res, ∃ rows, execTablescan etcd tabName par = some rows ∧ row ∈ rows := by
  induction h generalizing etcd' res with
  | scan =>
      simp only [execOp, Option.bind_eq_bind, Option.bind_eq_some_iff, Option.pure_def,
        Option.some.injEq, Prod.mk.injEq] at hexec
      obtain ⟨rows, hrows, rfl, rfl⟩ := hexec
      exact ⟨rfl, fun row hrow => ⟨rows, hrows, hrow⟩⟩
  | selection conds _ ih =>
      simp only [execOp, Option.bind_eq_bind, Option.bind_eq_some_iff, Option.pure_def,
        Option.some.injEq, Prod.mk.injEq, Prod.exists] at hexec
      obtain ⟨etcd'', ret, hret, kept, hkept, rfl, rfl⟩ := hexec
      obtain ⟨rfl, hrows⟩ := ih hret
      exact ⟨rfl, fun row hrow => hrows row (execSelection_mem hkept row hrow)⟩

/-- What a plan that writes leaves in etcd: what was there before, or a record that it
puts. Nothing changes but the rows of its partition. -/
theorem execOp_writes (h : Writes tabName par plan)
    (hexec : execOp plan etcd = some (etcd', res)) :
    (∀ key value, etcd'.get key = some value → etcd.get key = some value ∨
      ∃ row row', Puts etcd plan row row' ∧ keyOf tabName par row = some key ∧
        value = row'.recToString) ∧
      ∀ key, (∀ k, key ≠ rowKey tabName par k) → etcd'.get key = etcd.get key := by
  cases h with
  | insert record =>
      simp only [execOp, Option.bind_eq_bind, Option.bind_eq_some_iff, Option.pure_def,
        Option.some.injEq, Prod.mk.injEq] at hexec
      obtain ⟨key, hkey, rfl, rfl⟩ := hexec
      constructor
      · intro key' value hget
        rw [SortedMap.get_put] at hget
        split at hget
        next heq =>
          right
          refine ⟨record, record, ⟨rfl, rfl⟩, ?_, (Option.some.inj hget).symm⟩
          rw [heq, hkey]
        next => exact .inl hget
      · intro key' hne
        rw [SortedMap.get_put, if_neg (keyOf_ne hkey hne)]
  | delete hreads =>
      simp only [execOp, Option.bind_eq_bind, Option.bind_eq_some_iff, Option.pure_def,
        Option.some.injEq, Prod.mk.injEq, Prod.exists] at hexec
      obtain ⟨etcd'', rows, hrows, keys, hkeys, rfl, rfl⟩ := hexec
      obtain ⟨rfl, _⟩ := execOp_reads hreads hrows
      constructor
      · intro key value hget
        rw [SortedMap.get_delAll] at hget
        split at hget
        · cases hget
        · exact .inl hget
      · intro key hne
        have hnot : key ∉ keys := by
          intro hmem
          obtain ⟨row, _, hkey⟩ := exists_of_mapM hkeys key hmem
          exact keyOf_ne hkey hne rfl
        rw [SortedMap.get_delAll, if_neg hnot]
  | @update cols vals next hreads =>
      simp only [execOp, Option.bind_eq_bind, Option.bind_eq_some_iff, Option.pure_def,
        Prod.exists] at hexec
      obtain ⟨etcd'', rows, hrows, hexec⟩ := hexec
      obtain ⟨rfl, _⟩ := execOp_reads hreads hrows
      split at hexec
      next =>
        simp only [Option.bind_eq_some_iff, Option.some.injEq, Prod.mk.injEq] at hexec
        obtain ⟨written, hwritten, rfl, rfl⟩ := hexec
        have hbelow : rowsBelow next etcd'' = rows := by simp [rowsBelow, hrows]
        constructor
        · intro key value hget
          rcases SortedMap.mem_or_get_of_get_putAll _ _ _ hget with hmem | ⟨_, hold⟩
          · obtain ⟨pair, hpair, heq⟩ := List.mem_map.mp hmem
            obtain ⟨row, hrow, hkey, hset⟩ := exists_of_updateRows hwritten hpair
            simp only [Prod.mk.injEq] at heq
            obtain ⟨rfl, rfl⟩ := heq
            right
            exact ⟨row, pair.2, ⟨by rwa [hbelow], hset⟩, hkey, rfl⟩
          · exact .inl hold
        · intro key hne
          apply SortedMap.get_putAll_of_notMem
          intro hmem
          obtain ⟨entry, hentry, rfl⟩ := List.mem_map.mp hmem
          obtain ⟨pair, hpair, rfl⟩ := List.mem_map.mp hentry
          obtain ⟨row, _, hkey, _⟩ := exists_of_updateRows hwritten hpair
          exact keyOf_ne hkey hne rfl
      next => cases hexec

/-- Reading a partition depends on its rows and the columns of its table only. -/
theorem rowsBelow_congr (h : Reads tabName par plan)
    (hrows : etcdPar etcd' (parKeyPrefix tabName par) = etcdPar etcd (parKeyPrefix tabName par))
    (hcols : getColInfo etcd' tabName = getColInfo etcd tabName) :
    rowsBelow plan etcd' = rowsBelow plan etcd := by
  have hread : (execOp plan etcd').map Prod.snd = (execOp plan etcd).map Prod.snd := by
    induction h with
    | scan =>
        have hscan (etcd : Etcd) : (execOp [.tablescan tabName par] etcd).map Prod.snd =
            execTablescan etcd tabName par := by
          simp only [execOp]
          cases execTablescan etcd tabName par <;> rfl
        rw [hscan, hscan, execTablescan, execTablescan, getPar, getPar, hrows, hcols]
    | @selection conds next _ ih =>
        have hbelow (etcd : Etcd) : (execOp (.selection conds :: next) etcd).map Prod.snd =
            ((execOp next etcd).map Prod.snd).bind (execSelection conds) := by
          simp only [execOp]
          cases execOp next etcd with
          | none => rfl
          | some pair =>
              simp only [Option.bind_eq_bind, Option.bind_some, Option.map_some]
              cases execSelection conds pair.2 <;> rfl
        rw [hbelow, hbelow, ih]
  rw [rowsBelow, rowsBelow, hread]

theorem puts_congr (h : Writes tabName par plan)
    (hrows : etcdPar etcd' (parKeyPrefix tabName par) = etcdPar etcd (parKeyPrefix tabName par))
    (hcols : getColInfo etcd' tabName = getColInfo etcd tabName) (row row' : Record) :
    Puts etcd' plan row row' ↔ Puts etcd plan row row' := by
  cases h with
  | insert record => exact Iff.rfl
  | delete hreads => exact Iff.rfl
  | update cols vals hreads => simp only [Puts, rowsBelow_congr hreads hrows hcols]

end Effects

section Invariant

variable {create : Ast.CreateTable} {etcd etcd' : Etcd}

/-- The key belongs to the partition. -/
def InPartition (create : Ast.CreateTable) (par : Nat) (key : Int32) : Prop :=
  ∃ r, (Ranges.cuts (boundInts create.parVals))[par]? = some r ∧ Ranges.In key.toInt r

/-- An entry that agrees with its key: a record whose first column is the last part of
the key and belongs to the partition. -/
def Agrees (create : Ast.CreateTable) (par : Nat) (key value : Text) : Prop :=
  ∃ k row, key = rowKey create.tabName par k ∧ stringToRec value = some row ∧
    firstColumn row = some k ∧ InPartition create par k

/-- The metadata of the table are in place and all its rows agree with their keys. -/
structure TableInv (etcd : Etcd) (create : Ast.CreateTable) : Prop where
  created : Created etcd create
  rows : ∀ par key value, (parKeyPrefix create.tabName par).isPrefixOf key = true →
    etcd.get key = some value → Agrees create par key value

theorem TableInv.scan (h : TableInv etcd create) {par : Nat} {rows : List Record}
    (hscan : execTablescan etcd create.tabName par = some rows) :
    ∀ row ∈ rows, ∀ k, firstColumn row = some k → InPartition create par k := by
  simp only [execTablescan, Option.bind_eq_bind, Option.bind_eq_some_iff] at hscan
  obtain ⟨res, hres, cols, _, hnamed⟩ := hscan
  intro row hrow k hk
  obtain ⟨raw, hraw, hname⟩ := exists_of_mapM hnamed row hrow
  obtain ⟨entry, hentry, hrec⟩ := exists_of_mapM hres raw hraw
  have hget := (SortedMap.get_eq_some_iff _ entry.1 entry.2).mpr hentry
  rw [etcdPar, SortedMap.get_filterKeys] at hget
  split at hget
  next hprefix =>
    obtain ⟨k', row', _, hread, hfirst, hpar⟩ := h.rows par entry.1 entry.2 hprefix hget
    rw [hrec, Option.some.injEq] at hread
    subst hread
    rw [firstColumn_nameCells hname, hfirst, Option.some.injEq] at hk
    rwa [← hk]
  next => cases hget

theorem TableInv.rowsBelow (h : TableInv etcd create) {tabName : Text} {par : Nat} {next : Chain}
    (hreads : Reads tabName par next) (htab : tabName = create.tabName) :
    ∀ row ∈ rowsBelow next etcd, ∀ k, firstColumn row = some k → InPartition create par k := by
  intro row hrow
  rw [RucDDBS.rowsBelow] at hrow
  cases hexec : execOp next etcd with
  | none => simp [hexec] at hrow
  | some result =>
      have hres : row ∈ result.2 := by simpa [hexec] using hrow
      obtain ⟨rows, hscan, hmem⟩ := (execOp_reads hreads hexec).2 row hres
      rw [htab] at hscan
      exact h.scan hscan row hmem

/-- Where nothing but rows changes, the metadata stay. -/
theorem Created.of_rows (h : Created etcd create) {tabName : Text} {par : Nat}
    (hsame : ∀ key, (∀ k, key ≠ rowKey tabName par k) → etcd'.get key = etcd.get key) :
    Created etcd' create := by
  have hmeta (k : Int32) :=
    meta_ne_of_isPrefixOf (isPrefixOf_rowKey tabName par k) create.tabName
  refine ⟨?_, ?_, ?_⟩
  · rw [etcdGet, hsame _ fun k => (hmeta k).1]
    exact h.ipAddress
  · rw [etcdGet, hsame _ fun k => (hmeta k).2.1]
    exact h.parInfo
  · rw [etcdGet, hsame _ fun k => (hmeta k).2.2]
    exact h.colInfo

theorem Created.getColInfo_eq (h : Created etcd create) (h' : Created etcd' create) :
    getColInfo etcd' create.tabName = getColInfo etcd create.tabName := by
  rw [getColInfo, getColInfo, h.colInfo, h'.colInfo]

/-- A plan keeps the invariant if the rows that it puts into the table keep their first
column, and new rows belong to the partition. -/
theorem TableInv.execOp (h : TableInv etcd create) {tabName : Text} {par : Nat} {plan : Chain}
    {res : List Record} (hname : '/' ∉ create.tabName) (htab : '/' ∉ tabName)
    (hwrites : Writes tabName par plan) (hexec : execOp plan etcd = some (etcd', res))
    (hgood : tabName = create.tabName → ∀ row row', Puts etcd plan row row' →
      firstColumn row' = firstColumn row ∧ ∀ k, firstColumn row = some k → InPartition create par k) :
    TableInv etcd' create := by
  obtain ⟨hvalues, hsame⟩ := execOp_writes hwrites hexec
  refine ⟨h.created.of_rows hsame, ?_⟩
  intro par' key value hprefix hget
  rcases hvalues key value hget with hold | ⟨row, row', hputs, hkey, rfl⟩
  · exact h.rows par' key value hprefix hold
  · obtain ⟨k, hk, rfl⟩ := keyOf_eq_some_iff.mp hkey
    obtain ⟨htabName, rfl⟩ := eq_of_isPrefixOf hname htab hprefix
    obtain ⟨hfirst, hpar⟩ := hgood htabName.symm row row' hputs
    refine ⟨k, _, by rw [htabName], stringToRec_recToString row', ?_, hpar k hk⟩
    rw [firstColumn_written, hfirst, hk]

/-- The rows of another partition of the table are not touched. -/
theorem etcdPar_of_ne {tabName : Text} {par par' : Nat} (htab : '/' ∉ tabName) (hne : par' ≠ par)
    (hsame : ∀ key, (∀ k, key ≠ rowKey tabName par k) → etcd'.get key = etcd.get key) :
    etcdPar etcd' (parKeyPrefix tabName par') = etcdPar etcd (parKeyPrefix tabName par') := by
  apply SortedMap.ext_get
  intro key
  rw [etcdPar, etcdPar, SortedMap.get_filterKeys, SortedMap.get_filterKeys]
  split
  next hprefix =>
    apply hsame
    rintro k rfl
    exact hne (eq_of_isPrefixOf htab htab hprefix).2
  next => rfl

/-- The node plans of a statement, executed one after the other. What they put is
determined by the state before the statement, for each has its own partition. -/
theorem TableInv.execNodes (h : TableInv etcd create) {tabName : Text}
    (hname : '/' ∉ create.tabName) (htab : '/' ∉ tabName) (nodePlan : Nat → Chain)
    (pars : List Nat) (hwrites : ∀ par, Writes tabName par (nodePlan par))
    (hplain : ∀ par, ∀ op ∈ nodePlan par, op.Plain) {fresh : Nat → Nat → Int32} {res : List Record}
    (hexec : execNodes fresh (pars.map nodePlan) etcd = some (etcd', res))
    (hgood : tabName = create.tabName → pars.Nodup ∧ ∀ i par, pars[i]? = some par → ∀ row row',
      Puts etcd (arrivingChain (fresh i) (nodePlan par)) row row' →
      firstColumn row' = firstColumn row ∧
        ∀ k, firstColumn row = some k → InPartition create par k) :
    TableInv etcd' create := by
  induction pars generalizing fresh etcd res with
  | nil =>
      simp only [List.map_nil, RucDDBS.execNodes, Option.some.injEq, Prod.mk.injEq] at hexec
      obtain ⟨rfl, _⟩ := hexec
      exact h
  | cons par pars ih =>
      simp only [List.map_cons, RucDDBS.execNodes, execNode, Option.bind_eq_bind,
        convertIntoPlan_sendPlan _ (hplain par), Option.bind_some, Option.bind_eq_some_iff,
        Option.pure_def, Option.some.injEq, Prod.mk.injEq, Prod.exists] at hexec
      obtain ⟨mid, ret, hfirst, last, rest, hrest, rfl, _⟩ := hexec
      have harrives := (hwrites par).arriving (fresh 0)
      have hmid := h.execOp hname htab harrives hfirst fun heq =>
        (hgood heq).2 0 par rfl
      apply ih hmid hrest
      intro heq
      obtain ⟨hnodup, hputs⟩ := hgood heq
      obtain ⟨hnot, hnodup⟩ := List.nodup_cons.mp hnodup
      refine ⟨hnodup, ?_⟩
      intro i par' hi row row' hput
      apply hputs (i + 1) par' hi row row'
      have hne : par' ≠ par := ne_of_mem_of_not_mem (List.mem_of_getElem? hi) hnot
      subst heq
      have hrows := etcdPar_of_ne htab hne (execOp_writes harrives hfirst).2
      exact (puts_congr ((hwrites par').arriving _) hrows
        (h.created.getColInfo_eq hmid.created) row row').mp hput

end Invariant

section Runs

variable {create : Ast.CreateTable} {etcd etcd' : Etcd}

/-- If the plan is an update, no row that it selects gets another first column. -/
def KeepsFirst (etcd : Etcd) : Chain → Prop
  | .update _ _ setColIndex setVal :: next => ∀ row ∈ rowsBelow next etcd,
      ∀ row' ∈ setCells row (setColIndex.zip setVal), firstColumn row' = firstColumn row
  | _ => True

/-- No row that the statement selects from the state before it gets another first
column. -/
def KeepsKeys (etcd : Etcd) (command : Command) : Prop :=
  ∀ plan ∈ command.build etcd, ∀ node ∈ (nodePlans plan).zipIdx,
    ∀ arrived ∈ convertIntoPlan (sendPlan (command.sent node.2) node.1), KeepsFirst etcd arrived

instance (etcd : Etcd) (plan : Chain) : Decidable (KeepsFirst etcd plan) := by
  unfold KeepsFirst
  split
  · infer_instance
  · infer_instance

instance (etcd : Etcd) (command : Command) : Decidable (KeepsKeys etcd command) := by
  unfold KeepsKeys
  infer_instance

theorem nodup_hitPartitions (parVals : List Int32) (min max : Int) :
    ((hitPartitions parVals min max).map Prod.fst).Nodup := by
  have hsub : List.Sublist ((hitPartitions parVals min max).map Prod.fst)
      ((((parRanges parVals).map rangeInt).zipIdx).map Prod.snd) := by
    simp only [hitPartitions, List.map_map]
    exact List.filter_sublist.map _
  apply hsub.nodup
  rw [List.zipIdx_map_snd]
  exact List.nodup_range'

/-- The partitions that a statement of the table is planned for are all different. -/
theorem nodup_getTableIp (h : Created etcd create) {min max : Int} {parIps : List (Nat × Text)}
    (hips : getTableIp etcd create.tabName (ofInt min) (ofInt max) = some parIps) :
    (parIps.map Prod.fst).Nodup := by
  rw [getTableIp_created h, Option.some.injEq] at hips
  rw [← hips]
  exact nodup_hitPartitions _ _ _

/-- A row is routed to the partition that its key belongs to. -/
theorem inPartition_of_getTableIp (h : Created etcd create) {key : Int32} {par : Nat}
    {ipAddress : Text} {rest : List (Nat × Text)}
    (hips : getTableIp etcd create.tabName (ofInt key.toInt) (ofInt key.toInt) =
      some ((par, ipAddress) :: rest)) :
    InPartition create par key := by
  rw [getTableIp_created h, Option.some.injEq] at hips
  have hmem : (par, ipAddress) ∈ hitPartitions create.parVals key.toInt key.toInt := by
    rw [hips]
    exact List.mem_cons_self
  obtain ⟨r, hr, hin⟩ := (mem_hitPartitions.mp hmem).1
  exact ⟨r, hr, or_self_iff.mp hin⟩

/-- A statement keeps the invariant if no row that it selects gets another first
column. -/
theorem TableInv.execStatement (h : TableInv etcd create) (hname : '/' ∉ create.tabName)
    {command : Command} (htab : '/' ∉ command.statement.tabName) {res : List Record}
    (hkeeps : KeepsKeys etcd command) (hexec : execStatement etcd command = some (etcd', res)) :
    TableInv etcd' create := by
  simp only [RucDDBS.execStatement, Option.bind_eq_bind, Option.bind_eq_some_iff] at hexec
  obtain ⟨plan, hplan, hnodes⟩ := hexec
  have hfirst := hkeeps plan hplan
  obtain ⟨statement, fresh, sent⟩ := command
  cases statement with
  | insert insertTree =>
      obtain ⟨key, row, par, ipAddress, rest, hips, hcells, rfl⟩ := buildInsertPlan_some hplan
      let nodePlan (par : Nat) : Chain := [.insert insertTree.tabName par (key :: row)]
      apply h.execNodes hname htab nodePlan [par]
        (fun par => .insert _) (fun par => (NodePlan.insert par hcells).plain) hnodes
      intro heq
      refine ⟨List.nodup_singleton par, ?_⟩
      rintro i par' hi row₁ row₂ ⟨rfl, rfl⟩
      obtain ⟨rfl, _⟩ : par' = par ∧ i = 0 := by
        cases i with
        | zero => simpa using hi.symm
        | succ i => cases hi
      -- the insert was routed by its first column
      refine ⟨rfl, ?_⟩
      intro k hk
      have hstr : key.str = k := by simpa [firstColumn] using hk
      have htable : insertTree.tabName = create.tabName := heq
      rw [htable, hstr] at hips
      exact inPartition_of_getTableIp h.created hips
  | delete deleteTree =>
      obtain ⟨parIps, hips, rfl⟩ := buildDeletePlan_some hplan
      let nodePlan (par : Nat) : Chain := .delete deleteTree.tabName par ::
        filteredScan deleteTree.conds deleteTree.tabName par
      rw [nodePlans_distribute] at hnodes
      apply h.execNodes hname htab nodePlan (parIps.map Prod.fst)
        (fun par => .delete (reads_filteredScan _ _ _))
        (fun par => (NodePlan.delete _ par deleteTree.conds).plain)
      · exact hnodes
      · intro heq
        have htable : deleteTree.tabName = create.tabName := heq
        rw [htable] at hips
        refine ⟨nodup_getTableIp h.created hips, ?_⟩
        rintro i par _ row row' ⟨⟩
  | update updateTree =>
      obtain ⟨parIps, sets, hips, hcells, rfl⟩ := buildUpdatePlan_some hplan
      let nodePlan (par : Nat) : Chain :=
        .update updateTree.tabName par ((sets par).map Prod.fst) ((sets par).map Prod.snd) ::
          filteredScan updateTree.conds updateTree.tabName par
      have hreads (par : Nat) := reads_filteredScan updateTree.conds updateTree.tabName par
      have hplain (par : Nat) : ∀ op ∈ nodePlan par, op.Plain :=
        (NodePlan.update _ par updateTree.conds (by simp) (hcells par)).plain
      rw [nodePlans_distribute] at hnodes hfirst
      apply h.execNodes hname htab nodePlan (parIps.map Prod.fst)
        (fun par => .update _ _ (hreads par)) hplain
      · exact hnodes
      · intro heq
        have htable : updateTree.tabName = create.tabName := heq
        rw [htable] at hips
        refine ⟨nodup_getTableIp h.created hips, ?_⟩
        rintro i par hi row row' ⟨hrow, hset⟩
        have hnode : (nodePlan par, i) ∈ ((parIps.map Prod.fst).map nodePlan).zipIdx := by
          rw [List.mk_mem_zipIdx_iff_getElem?, List.getElem?_map, hi]
          rfl
        constructor
        · exact hfirst _ hnode _ (convertIntoPlan_sendPlan (sent i) (hplain par)) row hrow row' hset
        · intro k hk
          exact h.rowsBelow ((hreads par).arriving _) htable row hrow k hk

/-- Every row in etcd agrees with its key: its first column is the last part of the key
and belongs to the partition, so the key that is rebuilt from the row is its own. -/
def RowsAgree (etcd : Etcd) (create : Ast.CreateTable) : Prop :=
  ∀ par key value, etcd.get (rowKey create.tabName par key) = some value →
    ∃ row, stringToRec value = some row ∧ firstColumn row = some key ∧
      InPartition create par key ∧
      keyOf create.tabName par row = some (rowKey create.tabName par key)

theorem TableInv.rowsAgree (h : TableInv etcd create) (hname : '/' ∉ create.tabName) :
    RowsAgree etcd create := by
  intro par key value hget
  obtain ⟨k, row, heq, hread, hfirst, hpar⟩ :=
    h.rows par _ value (isPrefixOf_rowKey create.tabName par key) hget
  obtain ⟨_, rfl⟩ := rowKey_inj hname heq
  exact ⟨row, hread, hfirst, hpar, keyOf_eq_some_iff.mpr ⟨key, hfirst, rfl⟩⟩

/-- No rows of the table are in etcd. -/
def NoRows (etcd : Etcd) (tabName : Text) : Prop :=
  ∀ par key, (parKeyPrefix tabName par).isPrefixOf key = true → etcd.get key = none

/-- Creating a table puts no rows into etcd. -/
theorem noRows_createTable {tabName : Text} (h : NoRows etcd tabName) (create : Ast.CreateTable) :
    NoRows (createTable etcd create).1 tabName := by
  intro par key hprefix
  rw [createTable_get (isPrefixOf_of_parKeyPrefix hprefix)]
  exact h par key hprefix

/-- After any statements of which none gives a row it selects another first column,
every row of a table agrees with its key. Names of tables have no slashes. -/
theorem stored_rows_agree (hcreated : Created etcd create) (hname : '/' ∉ create.tabName)
    (hempty : NoRows etcd create.tabName) {trace : List (Command × List Record)}
    (hnames : ∀ label ∈ trace, '/' ∉ label.1.statement.tabName)
    (hrun : Lts.Run (fun s label t => KeepsKeys s label.1 ∧ Lts.Steps execStatement s label t)
      etcd trace etcd') : RowsAgree etcd' create := by
  have hstart : TableInv etcd create := by
    refine ⟨hcreated, ?_⟩
    intro par key value hprefix hget
    rw [hempty par key hprefix] at hget
    cases hget
  have hinv := hrun.preserves_labels (fun s => TableInv s create)
    (fun label => '/' ∉ label.1.statement.tabName)
    (fun s label t hstep htab h => h.execStatement hname htab hstep.1 hstep.2) hnames hstart
  exact hinv.rowsAgree hname

end Runs

section Examples

/-- `CREATE TABLE t (a INT, b INT)`. -/
def pairTable : Ast.CreateTable := ⟨['t'], [⟨['a'], .int⟩, ⟨['b'], .int⟩], none⟩

def pairEtcd : Etcd := (createTable .empty pairTable).1

theorem pairEtcd_created : Created pairEtcd pairTable := createTable_created rfl

theorem pairEtcd_noRows : NoRows pairEtcd ['t'] := by
  apply noRows_createTable
  intro par key _
  rfl

/-- A statement whose unset cells all hold 0. -/
def command (statement : Statement) : Command := ⟨statement, fun _ _ _ => 0, fun _ _ => 0⟩

def pairRow (a b : Int32) : Record := [⟨['a'], ['t'], a⟩, ⟨['b'], ['t'], b⟩]

/-- `INSERT INTO t VALUES (1, 2)`. -/
def insertPair : Command := command (.insert ⟨['t'], [.intLit 1, .intLit 2]⟩)

/-- `UPDATE t SET col = n`. -/
def updatePair (col : Text) (n : Int32) : Command := command (.update ⟨['t'], [⟨col, .intLit n⟩], []⟩)

/-- The second column of the row is updated. -/
def otherColumn : List (Command × List Record) :=
  [(insertPair, [pairRow 1 2]), (updatePair ['b'] 7, [pairRow 1 7])]

theorem otherColumn_agrees : ∃ etcd,
    Lts.Run (fun s label t => KeepsKeys s label.1 ∧ Lts.Steps execStatement s label t)
      pairEtcd otherColumn etcd ∧ RowsAgree etcd pairTable := by
  have hcomputed : (Lts.exec (fun s command => if KeepsKeys s command then execStatement s command
      else none) pairEtcd (otherColumn.map Prod.fst)).map Prod.snd =
        some (otherColumn.map Prod.snd) := by decide +kernel
  obtain ⟨etcd, hrun⟩ := Lts.run_of_exec_when otherColumn hcomputed
  have hnames : ∀ label ∈ otherColumn, '/' ∉ label.1.statement.tabName := by
    simp [otherColumn, insertPair, updatePair, command, Statement.tabName]
  have hname : '/' ∉ pairTable.tabName := by simp [pairTable]
  exact ⟨etcd, hrun, stored_rows_agree pairEtcd_created hname pairEtcd_noRows hnames hrun⟩

/-- The first column of the row is updated, and the row stays where it was. -/
theorem firstColumn_updated_disagrees :
    ¬ ∀ create etcd trace etcd', Created etcd create → '/' ∉ create.tabName →
      NoRows etcd create.tabName → (∀ label ∈ trace, '/' ∉ label.1.statement.tabName) →
      Lts.Run (Lts.Steps execStatement) etcd trace etcd' → RowsAgree etcd' create := by
  intro hall
  have hcomputed : (Lts.exec execStatement pairEtcd [insertPair, updatePair ['a'] 2]).map
      (fun last => (last.1.get (rowKey ['t'] 0 1)).bind fun value =>
        (stringToRec value).bind firstColumn) = some (some 2) := by decide +kernel
  obtain ⟨⟨etcd, events⟩, hexec, hlast⟩ := Option.map_eq_some_iff.mp hcomputed
  have hrun := Lts.run_of_exec _ _ hexec
  have hnames : ∀ label ∈ [insertPair, updatePair ['a'] 2].zip events,
      '/' ∉ label.1.statement.tabName := by
    intro label hlabel
    have hmem := (List.of_mem_zip (a := label.1) (b := label.2) hlabel).1
    simp only [List.mem_cons, List.not_mem_nil, or_false] at hmem
    rcases hmem with heq | heq
    · simp [heq, insertPair, command, Statement.tabName]
    · simp [heq, updatePair, command, Statement.tabName]
  have hagree := hall pairTable pairEtcd _ etcd pairEtcd_created (by simp [pairTable])
    pairEtcd_noRows hnames hrun
  obtain ⟨value, hget, hvalue⟩ := Option.bind_eq_some_iff.mp hlast
  obtain ⟨row, hread, hfirst, _⟩ := hagree 0 1 value hget
  rw [hread, Option.bind_some, hfirst] at hvalue
  cases hvalue

end Examples

end RucDDBS
