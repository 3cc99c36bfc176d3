import RucDDBS.Engine.SqlWrites

/-!
What a client reads of a database in etcd. The operators above the partitions combine the rows
of one or two tables, keep those that meet the conditions and cut them to the select list, if
it has the order of the columns; SHOW TABLES lists the names. Nothing in etcd is changed.
-/

namespace RucDDBS

namespace Relational

open Text Sharding

section Tables

variable {etcd : Etcd} {rows : RowStore} {tab : TableName} {t : Table}
  {create : Ast.CreateTable} {db : Database}

theorem named_append {schema schema' : List Ast.Col} {row : List Int32}
    (h : row.length = schema.length) (row' : List Int32) :
    named (schema ++ schema') (row ++ row') = named schema row ++ named schema' row' :=
  List.zipWith_append h.symm

/-- The scans of a table return its rows. -/
theorem Placed.read (h : Placed etcd rows tab t create) (hstored : Stores etcd rows)
    (fresh : Nat → Nat → Int32) :
    ∃ l, Listing t.rows l ∧
      execNodes fresh
          (scanTable (hitPartitions create.parVals (-10000) 10000) tab.name).nodesPlan etcd =
        some (etcd, l.map fun e => named (t.schema tab.name) e.2) := by
  obtain ⟨list, hlist, hexec⟩ := (h.kept hstored).scanNodes (readPars create) fresh
  refine ⟨(readPars create).flatMap list, ?_, ?_⟩
  · rw [h.rows]
    exact h.homed.listing (nodup_pars create (-10000) 10000)
      (fun par key hhome => (home_visited h.split hhome).2) hlist
  · rw [readPars, List.map_map] at hexec
    exact hexec

theorem Table.width (t : Table) {l : List (Int32 × List Int32)} (hl : Listing t.rows l) {name : Text}
    {e : Int32 × List Int32} (he : e ∈ l) : e.2.length = (t.schema name).length := by
  rw [Table.schema, List.length_map]
  exact (t.keyed e.1 e.2 ((hl.mem_iff _ _).mp he)).2

/-- What several tables return. -/
structure Read (etcd : Etcd) (db : Database) (tabs : List Text) (sent : Nat → Nat → Nat → Int32)
    (schema : List Ast.Col) (res : List (List Int32)) (tables : List Distribution)
    (reads : List (List Record)) : Prop where
  planned : scanTables etcd tabs = some (some tables)
  executed : Sql.execTables sent tables etcd = some (etcd, reads)
  scanned : Scanned db tabs schema res
  width : ∀ row ∈ res, row.length = schema.length
  combined : combinations reads = res.map (named schema)
  size : tables.length = tabs.length ∧ reads.length = tabs.length

theorem Represents.read (h : Represents etcd rows db) {tabs : List Text}
    (htabs : ∀ name ∈ tabs, db name ≠ none) (sent : Nat → Nat → Nat → Int32) :
    ∃ schema res tables reads, Read etcd db tabs sent schema res tables reads := by
  induction tabs generalizing sent with
  | nil => exact ⟨[], [[]], [], [], rfl, rfl, .nil, by simp, rfl, rfl, rfl⟩
  | cons name tabs ih =>
      obtain ⟨hname, hrest⟩ := List.forall_mem_cons.mp htabs
      obtain ⟨schema, res, tables, reads, hread⟩ := ih hrest (sent ∘ Nat.succ)
      obtain ⟨t, ht⟩ := Option.ne_none_iff_exists'.mp hname
      obtain ⟨tab, create, rfl, hplaced⟩ := h.table ht
      obtain ⟨l, hl, hexec⟩ := hplaced.read h.stored (sent 0)
      obtain ⟨info, hinfo, hcolumns⟩ := hplaced.getColInfo
      obtain ⟨first, hfirst⟩ := hplaced.first
      have hips : getTableIpDefault etcd tab.name =
          some (hitPartitions create.parVals (-10000) 10000) := hplaced.getTableIp (-10000) 10000
      have hne : hitPartitions create.parVals (-10000) 10000 ≠ [] := hplaced.pars_ne_nil.2 hips
      have hwidth (e : Int32 × List Int32) (he : e ∈ l) :
          e.2.length = (t.schema tab.name).length :=
        t.width hl he
      refine ⟨t.schema tab.name ++ schema, l.flatMap fun e => res.map (e.2 ++ ·),
        scanTable (hitPartitions create.parVals (-10000) 10000) tab.name :: tables,
        (l.map fun e => named (t.schema tab.name) e.2) :: reads, ?_, ?_,
        .cons ht hl hread.scanned, ?_, ?_, ?_⟩
      · simp only [scanTables, hinfo, hcolumns, hfirst, hips, hne, hread.planned, if_false,
          Option.bind_eq_bind, Option.bind_some, Option.pure_def, Option.map_some]
      · rw [Sql.execTables, hexec]
        exact congrArg (Option.bind · fun rest => some (rest.1, _ :: rest.2)) hread.executed
      · intro row hrow
        obtain ⟨e, he, hrow⟩ := List.mem_flatMap.mp hrow
        obtain ⟨row', hrow', rfl⟩ := List.mem_map.mp hrow
        rw [List.length_append, List.length_append, hwidth e he, hread.width row' hrow']
      · rw [combinations, hread.combined, List.flatMap_map, List.map_flatMap]
        apply List.flatMap_congr
        intro e he
        rw [List.map_map, List.map_map]
        apply List.map_congr_left
        intro row' _
        exact (named_append (hwidth e he) row').symm
      · rw [List.length_cons, List.length_cons, List.length_cons, hread.size.1, hread.size.2]
        exact ⟨rfl, rfl⟩

end Tables

section Roots

variable {etcd : Etcd} {db : Database} {tabs : List Text} {sent : Nat → Nat → Nat → Int32}
  {schema : List Ast.Col} {res : List (List Int32)} {tables : List Distribution}
  {reads : List (List Record)} {conds : List Ast.BinaryExpr} {cols : List Ast.Col}
  {below : List RootOperator}

/-- One table is read as it is; of two, every row of the first is followed by those of the
second. -/
theorem Read.root (h : Read etcd db tabs sent schema res tables reads) (hone : tabs ≠ [])
    (htwo : tabs.length ≤ 2) :
    Sql.execRoot sent (readTables tables) etcd = some (etcd, res.map (named schema)) := by
  obtain ⟨htables, hreads⟩ := h.size
  have hexec := h.executed
  rw [← h.combined]
  match tabs, tables, reads with
  | [], _, _ => exact absurd rfl hone
  | [_], [table], [first] =>
      have hnodes : execNodes (sent 0) table.nodesPlan etcd = some (etcd, first) := by
        simp only [Sql.execTables, Option.bind_eq_bind, Option.bind_eq_some_iff, Option.pure_def,
          Option.some.injEq, Prod.mk.injEq, List.cons.injEq] at hexec
        obtain ⟨⟨etcd', ret⟩, hnodes, _, ⟨rfl, rfl⟩, rfl, rfl, _⟩ := hexec
        exact hnodes
      have hone : combinations [first] = first := by simp [combinations]
      rw [hone]
      exact hnodes
  | [_, _], [table, table'], [first, second] =>
      have hjoin : joinRounds [] first [second] = combinations [first, second] := by
        simp [joinRounds, combinations, pairUp]
      rw [← hjoin, readTables, Sql.execRoot, hexec]
      · rfl
      · intro table heq
        cases heq
  | _ :: _ :: _ :: _, _, _ => simp at htwo

/-- The selections keep the rows that meet the conditions. -/
theorem execRoot_selections (hwidth : ∀ row ∈ res, row.length = schema.length)
    (hbelow : Sql.execRoot sent below etcd = some (etcd, res.map (named schema)))
    (hconds : ∀ cond ∈ conds, Equates schema cond) :
    Sql.execRoot sent (conds.map .selection ++ below) etcd =
      some (etcd, (res.filter fun row => meets schema row conds).map (named schema)) := by
  induction conds with
  | nil =>
      have hall : res.filter (fun row => meets schema row []) = res :=
        List.filter_eq_self.mpr fun _ _ => rfl
      rw [hall]
      exact hbelow
  | cons cond conds ih =>
      obtain ⟨hcond, hrest⟩ := List.forall_mem_cons.mp hconds
      have hkept : ∀ row ∈ res.filter fun row => meets schema row conds,
          row.length = schema.length := fun row hrow => hwidth row (List.mem_filter.mp hrow).1
      have hselect := hcond.selection hkept
      rw [List.filter_filter] at hselect
      rw [List.map_cons, List.cons_append, Sql.execRoot, ih hrest]
      exact congrArg (Option.bind · fun res => some (etcd, res)) hselect

/-- The value of a column is in the cell that it means. -/
theorem valueOf_named {row : List Int32} (hrow : row.length = schema.length) {col : Ast.Col}
    (hsingle : col.Single schema) {cell : Value} (hcell : cell ∈ named schema row)
    (hmeans : col.means cell.field) : valueOf schema row col = some cell.str := by
  induction schema generalizing row with
  | nil => cases hcell
  | cons field schema ih =>
      cases row with
      | nil => cases hrow
      | cons n row =>
          rw [valueOf, List.findIdx_cons]
          rw [named_cons, List.mem_cons] at hcell
          by_cases hfield : col.means field
          · rw [hfield, cond_true]
            rcases hcell with rfl | hcell
            · rfl
            · -- another cell with this name would be a second field
              have hnone : schema.countP col.means = 0 := by
                rw [Ast.Col.Single, List.countP_cons_of_pos hfield] at hsingle
                omega
              have hfields := (named_parts (Nat.succ.inj hrow)).2
              have hmem : cell.field ∈ schema := by
                rw [← hfields]
                exact List.mem_map_of_mem hcell
              exact absurd hmeans (List.countP_eq_zero.mp hnone _ hmem)
          · have hfalse : col.means field = false := Bool.eq_false_iff.mpr hfield
            rcases hcell with rfl | hcell
            · exact absurd hmeans hfield
            · rw [hfalse, cond_false, List.getElem?_cons_succ]
              rw [Ast.Col.Single, List.countP_cons_of_neg hfield] at hsingle
              exact ih (Nat.succ.inj hrow) hsingle hcell

/-- A record shows these columns with these values. -/
def Shows (names : List Text) (record : Record) (row : List Int32) : Prop :=
  record.map Value.colName = names ∧ record.integers = row

theorem shows_named {row : List Int32} (hrow : row.length = schema.length) :
    Shows (schema.map Ast.Col.colName) (named schema row) row := by
  obtain ⟨hints, hfields⟩ := named_parts hrow
  refine ⟨?_, hints⟩
  have hnames := congrArg (List.map Ast.Col.colName) hfields
  rw [Record.fields, List.map_map] at hnames
  exact hnames

/-- A select list in the order of the columns is followed. -/
theorem shows_project {row : List Int32} (hrow : row.length = schema.length)
    (hcols : ∀ col ∈ cols, col.Single schema) (horder : InOrder schema cols) (hne : cols ≠ []) :
    Shows (cols.map Ast.Col.colName) (project cols (named schema row)) (chosen schema row cols) := by
  have hfields := (named_parts hrow).2
  have hsingle : ∀ col ∈ cols, col.Single (named schema row).fields := by
    rw [hfields]
    exact hcols
  have hinOrder : InOrder (named schema row).fields cols := by
    rw [hfields]
    exact horder
  have hprojected := (project_in_order_iff (named schema row) hsingle).mpr hinOrder
  generalize project cols (named schema row) = out at hprojected
  rw [chosen, if_neg hne]
  clear horder hinOrder hsingle hne
  induction hprojected with
  | nil => exact ⟨rfl, rfl⟩
  | @cons col cell cols out hcell _ ih =>
      obtain ⟨hcol, hrest⟩ := List.forall_mem_cons.mp hcols
      obtain ⟨hnames, hints⟩ := ih hrest
      obtain ⟨hmem, hmeans⟩ := hcell
      have hname : cell.colName = col.colName := by
        simp only [Ast.Col.means, Bool.and_eq_true, decide_eq_true_eq] at hmeans
        exact hmeans.1
      refine ⟨?_, ?_⟩
      · rw [List.map_cons, List.map_cons, hname, hnames]
      · rw [List.filterMap_cons_some (valueOf_named hrow hcol hmem hmeans), ← hints]
        rfl

/-- The columns of some tables. -/
def tablesSchema (db : Database) (tabs : List Text) : List Ast.Col :=
  tabs.flatMap fun name => ((db name).map fun t => t.schema name).getD []

theorem Scanned.schema_eq (h : Scanned db tabs schema res) : schema = tablesSchema db tabs := by
  induction h with
  | nil => rfl
  | cons htable _ _ ih =>
      rw [ih, tablesSchema, tablesSchema, List.flatMap_cons, htable]
      rfl

/-- A SELECT that is answered as it is written: over one or two tables, with conditions that
selections test, and with a select list in the order of the columns. -/
structure Readable (db : Database) (x : Ast.SelectStmt) : Prop where
  tabs : x.tabs ≠ [] ∧ x.tabs.length ≤ 2
  known : ∀ name ∈ x.tabs, db name ≠ none
  conds : ∀ cond ∈ x.conds, Equates (tablesSchema db x.tabs) cond
  cols : ∀ col ∈ x.cols, col.Single (tablesSchema db x.tabs)
  order : InOrder (tablesSchema db x.tabs) x.cols

theorem Represents.select {rows : RowStore} (h : Represents etcd rows db) {x : Ast.SelectStmt}
    (hx : Readable db x) (sent : Nat → Nat → Nat → Int32) :
    ∃ plan records names res, buildSelectPlan etcd x = some plan ∧
      Sql.execRoot sent plan etcd = some (etcd, records) ∧ Selected db x names res ∧
      List.Forall₂ (Shows names) records res := by
  obtain ⟨schema, res, tables, reads, hread⟩ := h.read hx.known sent
  have hschema := hread.scanned.schema_eq
  have hconds := hx.conds
  have hcols := hx.cols
  have horder := hx.order
  rw [← hschema] at hconds hcols horder
  have hbelow := execRoot_selections hread.width (hread.root hx.tabs.1 hx.tabs.2) hconds
  let kept := res.filter fun row => meets schema row x.conds
  have hkept : ∀ row ∈ kept, row.length = schema.length :=
    fun row hrow => hread.width row (List.mem_filter.mp hrow).1
  have hplan : buildSelectPlan etcd x =
      some ((if x.cols = [] then [] else [.projection x.cols]) ++ x.conds.map .selection ++
        readTables tables) := by
    rw [buildSelectPlan, if_neg hx.tabs.1, hread.planned]
    rfl
  by_cases hall : x.cols = []
  · rw [if_pos hall, List.nil_append] at hplan
    refine ⟨_, _, schema.map Ast.Col.colName, kept, hplan, hbelow,
      ⟨schema, res, hread.scanned, by rw [if_pos hall], ?_⟩, ?_⟩
    · have hrows : (fun row => chosen schema row x.cols) = id := by
        funext row
        exact if_pos hall
      rw [hrows, List.map_id]
    · apply List.forall₂_map_left_iff.mpr
      apply List.forall₂_same.mpr
      exact fun row hrow => shows_named (hkept row hrow)
  · rw [if_neg hall, List.singleton_append, List.cons_append] at hplan
    refine ⟨_, execProjection x.cols (kept.map (named schema)), x.cols.map Ast.Col.colName,
      kept.map fun row => chosen schema row x.cols, hplan, ?_,
      ⟨schema, res, hread.scanned, by rw [if_neg hall], rfl⟩, ?_⟩
    · rw [Sql.execRoot, hbelow]
      rfl
    · rw [execProjection, List.map_map]
      apply List.forall₂_map_left_iff.mpr
      apply List.forall₂_map_right_iff.mpr
      apply List.forall₂_same.mpr
      exact fun row hrow => shows_project (hkept row hrow) hcols horder hall

end Roots

section Lists

variable {etcd : Etcd} {rows : RowStore} {db : Database}

theorem lt_of_append_lt {front a b : Text} (h : front ++ a < front ++ b) : a < b := by
  induction front with
  | nil => exact h
  | cons c front ih =>
      rcases List.cons_lt_cons_iff.mp h with hlt | ⟨_, hlt⟩
      · exact absurd hlt (lt_irrefl c)
      · exact ih hlt

/-- The names below a prefix, in their order. -/
theorem etcdGetKey_spec (etcd : Etcd) (front : Text) :
    (Sql.etcdGetKey etcd front).Pairwise (· < ·) ∧
      ∀ name, name ∈ Sql.etcdGetKey etcd front ↔ etcd.get (front ++ name) ≠ none := by
  have hfront : ∀ key ∈ (etcd.filterKeys front.isPrefixOf).keys, ∃ name, key = front ++ name := by
    intro key hkey
    obtain ⟨value, hvalue⟩ := (SortedMap.mem_keys_iff _ _).mp hkey
    rw [SortedMap.get_filterKeys] at hvalue
    split at hvalue
    · next hprefix =>
        obtain ⟨name, rfl⟩ := List.isPrefixOf_iff_prefix.mp hprefix
        exact ⟨name, rfl⟩
    · cases hvalue
  constructor
  · rw [Sql.etcdGetKey, List.pairwise_map]
    have hsorted : (etcd.filterKeys front.isPrefixOf).keys.Pairwise (· < ·) := by
      rw [SortedMap.keys, List.pairwise_map]
      exact (etcd.filterKeys front.isPrefixOf).sorted
    apply hsorted.imp_of_mem
    intro a b ha hb hlt
    obtain ⟨name, rfl⟩ := hfront a ha
    obtain ⟨name', rfl⟩ := hfront b hb
    rw [List.drop_left, List.drop_left]
    exact lt_of_append_lt hlt
  · intro name
    have hkey : front ++ name ∈ (etcd.filterKeys front.isPrefixOf).keys ↔
        etcd.get (front ++ name) ≠ none := by
      rw [SortedMap.mem_keys_iff, SortedMap.get_filterKeys,
        if_pos (List.isPrefixOf_iff_prefix.mpr (List.prefix_append _ _)), Option.ne_none_iff_exists']
    rw [← hkey, Sql.etcdGetKey, List.mem_map]
    constructor
    · rintro ⟨key, hmem, rfl⟩
      obtain ⟨name, rfl⟩ := hfront key hmem
      rw [List.drop_left]
      exact hmem
    · intro hmem
      exact ⟨_, hmem, List.drop_left ..⟩

/-- SHOW TABLES lists the tables of the database. -/
theorem Represents.tables (h : Represents etcd rows db) :
    ∃ names : List Text, names.Pairwise (· < ·) ∧ (∀ name, name ∈ names ↔ db name ≠ none) ∧
      Sql.showTables etcd = ["Tables".toList] :: names.map ([·]) := by
  obtain ⟨hsorted, hmem⟩ := etcdGetKey_spec etcd Sql.ipAddress
  refine ⟨_, hsorted, ?_, rfl⟩
  intro name
  refine (hmem name).trans ?_
  constructor
  · intro hne hnone
    exact hne (h.missing name hnone)
  · intro hne
    obtain ⟨t, ht⟩ := Option.ne_none_iff_exists'.mp hne
    obtain ⟨tab, create, rfl, hplaced⟩ := h.table ht
    intro hnone
    have hcreated := hplaced.created.ipAddress
    have hget : etcd.get (ipKey create.tabName) = none := by
      rw [hplaced.name]
      exact hnone
    rw [etcdGet, hget] at hcreated
    exact List.append_ne_nil_of_left_ne_nil (ofInt_ne_nil _) _ hcreated.symm

end Lists

end Relational

end RucDDBS
