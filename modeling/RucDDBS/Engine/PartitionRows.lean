import RucDDBS.Engine.Relational
import RucDDBS.Engine.SqlAnswer

/-!
What the node plans of a statement do to rows of integers. A scan of a partition lists its
rows, selections that compare for equality keep the rows that meet their conditions, and the
plans of a DELETE or an UPDATE change every row of their partition in the same way. One plan
after the other, all visited partitions are changed.
-/

namespace RucDDBS

namespace Relational

open Text Sharding

section Cells

/-- A record without the names, as it is stored. -/
def plain (row : List Int32) : Record := row.map fun n => { str := n }

/-- A record with the names of a schema. -/
def named (schema : List Ast.Col) (row : List Int32) : Record :=
  schema.zipWith (fun col n => ⟨col.colName, col.tabName, n⟩) row

variable {schema : List Ast.Col} {row : List Int32}

@[simp] theorem integers_plain (row : List Int32) : (plain row).integers = row := by
  rw [Record.integers, plain, List.map_map]
  exact List.map_id row

theorem named_cons (col : Ast.Col) (n : Int32) :
    named (col :: schema) (n :: row) = ⟨col.colName, col.tabName, n⟩ :: named schema row := rfl

/-- What is true of the names and the values of a record. -/
theorem named_parts (h : row.length = schema.length) :
    (named schema row).integers = row ∧ (named schema row).fields = schema := by
  induction schema generalizing row with
  | nil =>
      cases List.eq_nil_of_length_eq_zero h
      exact ⟨rfl, rfl⟩
  | cons col schema ih =>
      cases row with
      | nil => cases h
      | cons n row =>
          obtain ⟨hints, hfields⟩ := ih (Nat.succ.inj h)
          rw [named_cons]
          exact ⟨congrArg (n :: ·) hints, congrArg (col :: ·) hfields⟩

theorem valueAt_named (h : row.length = schema.length) {index : Nat} (hindex : index < schema.length) :
    row[index]? = some ((named schema row).valueAt index) := by
  have hints := (named_parts h).1
  have hlt : index < row.length := h ▸ hindex
  have hcell : (named schema row)[index]?.map Value.str = row[index]? := by
    rw [← List.getElem?_map]
    exact congrArg (·[index]?) hints
  rw [Record.valueAt, hcell, List.getElem?_eq_getElem hlt, Option.getD_some]

/-- A scan gives a record the names of its columns. -/
theorem nameCells_plain {columns : List Text} (tabs : Text) (h : row.length = columns.length) :
    nameCells tabs (plain row) columns =
      some (named (columns.map fun name => ⟨tabs, name⟩) row) := by
  induction columns generalizing row with
  | nil =>
      cases List.eq_nil_of_length_eq_zero h
      rfl
  | cons name columns ih =>
      cases row with
      | nil => cases h
      | cons n row =>
          have hrest := ih (Nat.succ.inj h)
          rw [plain, List.map_cons, nameCells, ← plain, hrest]
          rfl

theorem recToString_eq (record : Record) : record.recToString =
    ofInt record.integers.length ++ spread (record.integers.map fun n => ofInt n.toInt) := by
  rw [Record.recToString, Record.integers, List.length_map, List.map_map]
  rfl

theorem recToString_named (h : row.length = schema.length) :
    (named schema row).recToString = (plain row).recToString := by
  rw [recToString_eq, recToString_eq, (named_parts h).1, integers_plain]

theorem keyOf_named {tabName : Text} {par : Nat} {key : Int32} (h : row.length = schema.length)
    (hkey : row.head? = some key) :
    keyOf tabName par (named schema row) = some (rowKey tabName par key) := by
  apply keyOf_eq_some_iff.mpr
  refine ⟨key, ?_, rfl⟩
  have hints := congrArg List.head? (named_parts h).1
  rw [Record.integers, List.head?_map] at hints
  exact hints.trans hkey

end Cells

section Conditions

variable {schema : List Ast.Col} {row : List Int32} {cond : Ast.BinaryExpr}

/-- Where one element of a list passes a test, it is found at its place. -/
theorem filter_zipIdx_of_countP {α : Type} {p : α → Bool} {l : List α} (h : l.countP p = 1)
    (k : Nat) : ∃ a, (l.zipIdx k).filter (fun e => p e.1) = [(a, k + l.findIdx p)] := by
  induction l generalizing k with
  | nil => cases h
  | cons a l ih =>
      rw [List.zipIdx_cons, List.findIdx_cons]
      cases hp : p a with
      | true =>
          rw [List.countP_cons_of_pos hp, Nat.add_eq_right, List.countP_eq_zero] at h
          refine ⟨a, ?_⟩
          rw [List.filter_cons_of_pos (p := fun e : α × Nat => p e.1) hp,
            List.filter_eq_nil_iff.mpr]
          · rfl
          · rintro ⟨b, i⟩ hb
            exact h b (List.fst_mem_of_mem_zipIdx hb)
      | false =>
          have hfalse : ¬ p a = true := by
            rw [hp]
            exact Bool.false_ne_true
          rw [List.countP_cons_of_neg hfalse] at h
          obtain ⟨b, hb⟩ := ih h (k + 1)
          refine ⟨b, ?_⟩
          rw [List.filter_cons_of_neg (p := fun e : α × Nat => p e.1) hfalse, hb, cond_false, Nat.add_assoc, Nat.add_comm 1]

/-- A qualified column means the field with its names. -/
theorem found_of_single {col : Ast.Col} (hsingle : col.Single schema) (htab : col.tabName ≠ []) :
    found schema col = some (schema.findIdx col.means) := by
  have hsame : (fun field : Ast.Col × Nat => decide (field.1 = col)) =
      fun field => col.means field.1 := by
    funext field
    obtain ⟨⟨tabName, colName⟩, i⟩ := field
    obtain ⟨tab, name⟩ := col
    dsimp only at htab
    rw [Bool.eq_iff_iff]
    simp only [Ast.Col.means, htab, decide_false, Bool.false_or, Bool.and_eq_true,
      decide_eq_true_eq, Ast.Col.mk.injEq]
    exact ⟨fun h => ⟨h.2, h.1.symm⟩, fun h => ⟨h.2.symm, h.1⟩⟩
  obtain ⟨a, ha⟩ := filter_zipIdx_of_countP hsingle 0
  rw [found, hsame, ha, Nat.zero_add]
  rfl

theorem findIdx_lt_of_single {col : Ast.Col} (hsingle : col.Single schema) :
    schema.findIdx col.means < schema.length := by
  apply List.findIdx_lt_length.mpr
  apply List.countP_pos_iff.mp
  rw [hsingle]
  exact Nat.one_pos

/-- A condition that selections test as it is written: an equality of a column and an integer, or
of two columns, all of them qualified. -/
structure Equates (schema : List Ast.Col) (cond : Ast.BinaryExpr) : Prop where
  op : cond.op = .eq
  lhs : cond.lhs.Single schema ∧ cond.lhs.tabName ≠ []
  rhs : cond.OnInt ∨ ∃ col, cond.rhs = .col col ∧ col.Single schema ∧ col.tabName ≠ []

/-- Such a selection keeps the rows in which its condition holds. -/
theorem Equates.selection (h : Equates schema cond) {l : List (List Int32)}
    (hl : ∀ row ∈ l, row.length = schema.length) :
    execSelection cond (l.map (named schema)) =
      some ((l.filter fun row => holds schema row cond).map (named schema)) := by
  have hret : OfSchema schema (l.map (named schema)) := by
    intro record hrecord
    obtain ⟨row, hrow, rfl⟩ := List.mem_map.mp hrecord
    exact (named_parts (hl row hrow)).2
  have hleft := findIdx_lt_of_single h.lhs.1
  have hschema : schema ≠ [] := List.ne_nil_of_length_pos (Nat.zero_lt_of_lt hleft)
  have hfound := found_of_single h.lhs.1 h.lhs.2
  have htested : ∃ right pair, Denotes schema cond.rhs right ∧ compared schema cond = some pair ∧
      ∀ row ∈ l, equalIn pair (named schema row) = holds schema row cond := by
    obtain ⟨lhs, op, rhs⟩ := cond
    obtain ⟨rfl, _, hright⟩ := h
    rcases hright with ⟨n, rfl⟩ | ⟨col, rfl, hsingle, htab⟩
    · refine ⟨.literal n, (schema.findIdx lhs.means, .literal n), .int n, ?_, ?_⟩
      · rw [compared, hfound]
        rfl
      · intro row hrow
        rw [holds, valueOf, valueAt_named (hl row hrow) hleft]
        rfl
    · have hindex := findIdx_lt_of_single hsingle
      refine ⟨.field (schema.findIdx col.means),
        (schema.findIdx lhs.means, .field (schema.findIdx col.means)), .col ?_, ?_, ?_⟩
      · exact ⟨_, List.getElem?_eq_getElem hindex, List.findIdx_getElem⟩
      · have hcol := found_of_single hsingle htab
        dsimp only [compared]
        rw [hfound, hcol]
        rfl
      · intro row hrow
        rw [holds, operand, valueOf, valueOf, valueAt_named (hl row hrow) hleft,
          valueAt_named (hl row hrow) hindex]
        rfl
  obtain ⟨right, pair, hdenotes, hpair, hsame⟩ := htested
  rw [execSelection_eq hret hschema hdenotes hpair, List.filter_map]
  congr 2
  exact List.filter_congr hsame

end Conditions

section Stores

/-- The rows of a database, with the partitions they lie in. -/
abbrev RowStore := RowName → Option (List Int32)

/-- The partitions of a table. -/
def RowStore.shard (rows : RowStore) (tab : TableName) (par : Nat) (key : Int32) :
    Option (List Int32) := rows ⟨tab, par, key⟩

/-- The rows of some partitions of a table are changed. -/
def RowStore.visit (rows : RowStore) (tab : TableName) (pars : List Nat)
    (f : List Int32 → Option (List Int32)) : RowStore := fun name =>
  if name.tab = tab then Sharding.visit pars f (rows.shard tab) name.par name.key else rows name

/-- etcd holds these rows and no others. -/
def Stores (etcd : Etcd) (rows : RowStore) : Prop := Refines etcd fun name => (rows name).map plain

/-- All but the rows is as it was. -/
def SameMeta (etcd etcd' : Etcd) : Prop :=
  ∀ key, storeData.isPrefixOf key = false → etcd'.get key = etcd.get key

theorem SameMeta.trans {etcd etcd' etcd'' : Etcd} (h : SameMeta etcd etcd')
    (h' : SameMeta etcd' etcd'') : SameMeta etcd etcd'' :=
  fun key hkey => (h' key hkey).trans (h key hkey)

variable {rows : RowStore} {tab tab' : TableName} {pars : List Nat} {par : Nat}
  {f : List Int32 → Option (List Int32)} {etcd : Etcd}

theorem shard_visit (rows : RowStore) (tab : TableName) (pars : List Nat)
    (f : List Int32 → Option (List Int32)) :
    (rows.visit tab pars f).shard tab = Sharding.visit pars f (rows.shard tab) := by
  funext par key
  exact if_pos rfl

theorem shard_visit_of_ne (hne : tab' ≠ tab) (rows : RowStore) (pars : List Nat)
    (f : List Int32 → Option (List Int32)) : (rows.visit tab pars f).shard tab' = rows.shard tab' := by
  funext par key
  exact if_neg hne

theorem RowStore.visit_nil (rows : RowStore) (tab : TableName)
    (f : List Int32 → Option (List Int32)) : rows.visit tab [] f = rows := by
  funext name
  rw [RowStore.visit, Sharding.visit_nil]
  split
  next heq =>
    subst heq
    rfl
  next => rfl

theorem RowStore.visit_cons (hpar : par ∉ pars) :
    (rows.visit tab [par] f).visit tab pars f = rows.visit tab (par :: pars) f := by
  funext name
  by_cases htab : name.tab = tab
  · rw [RowStore.visit, if_pos htab, shard_visit, Sharding.visit_cons hpar, RowStore.visit,
      if_pos htab]
  · rw [RowStore.visit, if_neg htab, RowStore.visit, if_neg htab, RowStore.visit, if_neg htab]

/-- The calls that give rows new values. -/
def storeCall (name : RowName) : Option (List Int32) → StoreCall
  | none => .del name
  | some row => .put name (plain row)

theorem apply_storeCall (stored : Stored) (name : RowName) (row? : Option (List Int32)) :
    (storeCall name row?).apply stored = Function.update stored name (row?.map plain) := by
  cases row? with
  | none => rfl
  | some row => rfl

theorem foldl_storeCalls {calls : List (RowName × Option (List Int32))}
    (hnodup : (calls.map Prod.fst).Nodup) (stored : Stored) (name : RowName) :
    (∀ row?, (name, row?) ∈ calls →
      (calls.foldl (fun s c => (storeCall c.1 c.2).apply s) stored) name = row?.map plain) ∧
    (name ∉ calls.map Prod.fst →
      (calls.foldl (fun s c => (storeCall c.1 c.2).apply s) stored) name = stored name) := by
  induction calls generalizing stored with
  | nil => exact ⟨nofun, fun _ => rfl⟩
  | cons call calls ih =>
      obtain ⟨hnot, hnodup⟩ := List.nodup_cons.mp hnodup
      obtain ⟨hmem, hother⟩ := ih hnodup ((storeCall call.1 call.2).apply stored)
      constructor
      · intro row? hrow
        rcases List.mem_cons.mp hrow with rfl | hrest
        · rw [List.foldl_cons, hother hnot, apply_storeCall, Function.update_self]
        · exact hmem row? hrest
      · intro hname
        rw [List.map_cons, List.mem_cons, not_or] at hname
        rw [List.foldl_cons, hother hname.2, apply_storeCall, Function.update_of_ne hname.1]

theorem sameMeta_storeCalls (etcd : Etcd) (calls : List StoreCall) :
    SameMeta etcd (calls.foldl StoreCall.exec etcd) := by
  induction calls generalizing etcd with
  | nil => exact fun _ _ => rfl
  | cons call calls ih =>
      apply SameMeta.trans _ (ih _)
      intro key hkey
      have hne (name : RowName) : key ≠ name.storeKey := by
        rintro rfl
        rw [isPrefixOf_storeKey] at hkey
        cases hkey
      cases call with
      | put name val => exact (SortedMap.get_put ..).trans (if_neg (hne name))
      | del name => exact (SortedMap.get_del ..).trans (if_neg (hne name))

/-- What is written when the rows of a partition that pass a test are changed. -/
def partitionCalls (tab : TableName) (par : Nat) (g : List Int32 → Option (List Int32))
    (l : List (Int32 × List Int32)) : List StoreCall :=
  l.map fun e => storeCall ⟨tab, par, e.1⟩ (g e.2)

theorem Stores.write (h : Stores etcd rows) {l : List (Int32 × List Int32)}
    (hl : Listing (rows.shard tab par) l) (p : List Int32 → Bool)
    (g : List Int32 → Option (List Int32)) :
    Stores ((partitionCalls tab par g (l.filter fun e => p e.2)).foldl StoreCall.exec etcd)
      (rows.visit tab [par] fun row => if p row then g row else some row) := by
  have hwritten := h.execAll (partitionCalls tab par g (l.filter fun e => p e.2))
  -- the calls one by one, each with the row that it is about
  let calls := (l.filter fun e => p e.2).map fun e =>
    ((⟨tab, par, e.1⟩ : RowName), g e.2)
  have hcalls : partitionCalls tab par g (l.filter fun e => p e.2) =
      calls.map fun c => storeCall c.1 c.2 := by
    rw [List.map_map]
    rfl
  have hnodup : (calls.map Prod.fst).Nodup := by
    have hkeys := (hl.filter p).nodup.map (f := fun key => (⟨tab, par, key⟩ : RowName))
      fun key key' heq => congrArg RowName.key heq
    rw [List.map_map] at hkeys ⊢
    exact hkeys
  have hname {name : RowName} (hmem : name ∈ calls.map Prod.fst) :
      name.tab = tab ∧ name.par = par ∧ ∃ row, rows name = some row ∧ p row = true := by
    rw [List.map_map] at hmem
    obtain ⟨⟨key, row⟩, hrow, rfl⟩ := List.mem_map.mp hmem
    obtain ⟨hrow, hp⟩ := List.mem_filter.mp hrow
    exact ⟨rfl, rfl, row, (hl.mem_iff key row).mp hrow, hp⟩
  rw [Stores]
  convert hwritten using 2 with name
  rw [hcalls, List.foldl_map]
  obtain ⟨hhere, hother⟩ := foldl_storeCalls hnodup (fun name => (rows name).map plain) name
  by_cases hpartition : name.tab = tab ∧ name.par = par
  · obtain ⟨tab', par', key⟩ := name
    obtain ⟨rfl, rfl⟩ := hpartition
    rw [RowStore.visit, if_pos rfl, Sharding.visit, if_pos List.mem_cons_self, RowStore.shard]
    cases hrow : rows ⟨tab', par', key⟩ with
    | none =>
        rw [hother, hrow]
        · rfl
        · intro hmem
          obtain ⟨_, _, row, hsome, _⟩ := hname hmem
          rw [hrow] at hsome
          cases hsome
    | some row =>
        rw [Option.bind_some]
        by_cases hp : p row = true
        · have hmem : (key, row) ∈ l.filter fun e => p e.2 :=
            List.mem_filter.mpr ⟨(hl.mem_iff key row).mpr hrow, hp⟩
          rw [if_pos hp, hhere (g row) (List.mem_map.mpr ⟨_, hmem, rfl⟩)]
        · rw [if_neg hp, hother, hrow]
          intro hmem
          obtain ⟨_, _, row', hsome, hp'⟩ := hname hmem
          rw [hrow, Option.some.injEq] at hsome
          exact hp (hsome ▸ hp')
  · rw [hother fun hmem => hpartition ⟨(hname hmem).1, (hname hmem).2.1⟩, RowStore.visit]
    split
    next htab =>
      have hpar : name.par ∉ [par] := fun hmem => hpartition ⟨htab, List.mem_singleton.mp hmem⟩
      subst htab
      rw [Sharding.visit, if_neg hpar]
      rfl
    next => rfl

end Stores

section Plans

/-- The rows are in etcd, those of one table under their keys and as wide as its columns. -/
structure Kept (tab : TableName) (columns : List Text) (etcd : Etcd) (rows : RowStore) : Prop where
  stored : Stores etcd rows
  info : ∃ info, getColInfo etcd tab.name = some info ∧ info.columnName = columns
  keyed : ∀ par key row, rows.shard tab par key = some row →
    row.head? = some key ∧ row.length = columns.length

def schemaOf (tab : TableName) (columns : List Text) : List Ast.Col :=
  columns.map fun name => ⟨tab.name, name⟩

variable {tab : TableName} {columns : List Text} {etcd : Etcd} {rows : RowStore} {par : Nat}
  {conds : List Ast.BinaryExpr}

theorem mapM_of_forall {α β : Type} {f : α → Option β} {g : α → β} {l : List α}
    (h : ∀ a ∈ l, f a = some (g a)) : l.mapM f = some (l.map g) := by
  induction l with
  | nil => rfl
  | cons a l ih =>
      obtain ⟨ha, hl⟩ := List.forall_mem_cons.mp h
      rw [List.mapM_cons, ha, ih hl]
      rfl

theorem Kept.of_listing (h : Kept tab columns etcd rows) {l : List (Int32 × List Int32)}
    (hl : Listing (rows.shard tab par) l) :
    ∀ e ∈ l, e.2.head? = some e.1 ∧ e.2.length = (schemaOf tab columns).length := by
  rintro ⟨key, row⟩ he
  rw [schemaOf, List.length_map]
  exact h.keyed par key row ((hl.mem_iff key row).mp he)

/-- A scan lists the rows of its partition. -/
theorem Kept.scan (h : Kept tab columns etcd rows) (par : Nat) :
    ∃ l, Listing (rows.shard tab par) l ∧ execTablescan etcd tab.name par =
      some (l.map fun e => named (schemaOf tab columns) e.2) := by
  obtain ⟨records, hlists, hentries⟩ := h.stored.entries tab par
  let l := records.map fun e => (e.1, e.2.integers)
  have hplain : ∀ e ∈ records, e.2 = plain e.2.integers := by
    rintro ⟨key, record⟩ he
    obtain ⟨row, _, rfl⟩ := Option.map_eq_some_iff.mp ((hlists.mem_iff key record).mp he)
    exact congrArg plain (integers_plain row).symm
  have hl : Listing (rows.shard tab par) l := by
    constructor
    · rw [List.map_map]
      exact hlists.nodup
    · intro key row
      constructor
      · intro hmem
        obtain ⟨⟨_, record⟩, he, heq⟩ := List.mem_map.mp hmem
        obtain ⟨rfl, rfl⟩ := Prod.mk.inj heq
        obtain ⟨row, hrow, rfl⟩ := Option.map_eq_some_iff.mp ((hlists.mem_iff _ record).mp he)
        rw [integers_plain]
        exact hrow
      · intro hrow
        have he := (hlists.mem_iff key (plain row)).mpr (congrArg (Option.map plain) hrow)
        exact List.mem_map.mpr ⟨_, he, Prod.ext rfl (integers_plain row)⟩
  obtain ⟨info, hinfo, hcolumns⟩ := h.info
  refine ⟨l, hl, ?_⟩
  have hread : getPar etcd tab.name par = some (l.map fun e => plain e.2) := by
    rw [getPar_of_entries hentries, List.map_map]
    congr 1
    apply List.map_congr_left
    intro e _
    rw [Function.comp_apply, plain, Record.integers, List.map_map]
    rfl
  rw [execTablescan, hread, hinfo]
  have hnamed : ∀ record ∈ l.map (fun e => plain e.2), nameCells tab.name record info.columnName =
      some (named (schemaOf tab columns) record.integers) := by
    intro record hrecord
    obtain ⟨e, he, rfl⟩ := List.mem_map.mp hrecord
    have hlength := (h.of_listing hl e he).2
    rw [schemaOf, List.length_map] at hlength
    rw [hcolumns, nameCells_plain tab.name hlength, integers_plain]
    rfl
  exact (mapM_of_forall hnamed).trans (by rw [List.map_map]; simp [Function.comp_def])

/-- The selections of a node plan keep the rows that meet the conditions. -/
theorem Kept.filteredScan (h : Kept tab columns etcd rows) {l : List (Int32 × List Int32)}
    (hl : Listing (rows.shard tab par) l)
    (hscan : execTablescan etcd tab.name par =
      some (l.map fun e => named (schemaOf tab columns) e.2))
    (hconds : ∀ cond ∈ conds, Equates (schemaOf tab columns) cond) :
    execOp (filteredScan conds tab.name par) etcd =
      some (etcd, (l.filter fun e => meets (schemaOf tab columns) e.2 conds).map fun e =>
        named (schemaOf tab columns) e.2) := by
  induction conds with
  | nil =>
      have hall : l.filter (fun e => meets (schemaOf tab columns) e.2 []) = l :=
        List.filter_eq_self.mpr fun _ _ => rfl
      rw [hall, RucDDBS.filteredScan, List.map_nil, List.nil_append, execOp, hscan]
      rfl
  | cons cond conds ih =>
      obtain ⟨hcond, hrest⟩ := List.forall_mem_cons.mp hconds
      have hbelow := ih hrest
      rw [RucDDBS.filteredScan] at hbelow
      rw [RucDDBS.filteredScan, List.map_cons, List.cons_append, execOp, hbelow]
      let kept := (l.filter fun e => meets (schemaOf tab columns) e.2 conds).map Prod.snd
      have hkept : ∀ row ∈ kept, row.length = (schemaOf tab columns).length := by
        intro row hrow
        obtain ⟨e, he, rfl⟩ := List.mem_map.mp hrow
        exact (h.of_listing hl e (List.mem_filter.mp he).1).2
      have hselect := hcond.selection hkept
      rw [List.map_map, List.filter_map, List.map_map, List.filter_filter] at hselect
      have hfilter : (fun e : Int32 × List Int32 =>
          ((fun row => holds (schemaOf tab columns) row cond) ∘ Prod.snd) e &&
            meets (schemaOf tab columns) e.2 conds) =
          fun e => meets (schemaOf tab columns) e.2 (cond :: conds) := rfl
      rw [hfilter] at hselect
      exact congrArg (Option.bind · fun res => some (etcd, res)) hselect

/-- The metadata and the shape of the rows stay. -/
theorem Kept.visit (h : Kept tab columns etcd rows) {etcd' : Etcd} (hmeta : SameMeta etcd etcd')
    {pars : List Nat} {f : List Int32 → Option (List Int32)}
    (hf : ∀ row row', row.length = columns.length → f row = some row' →
      row'.head? = row.head? ∧ row'.length = columns.length)
    (hstored : Stores etcd' (rows.visit tab pars f)) :
    Kept tab columns etcd' (rows.visit tab pars f) where
  stored := hstored
  info := by
    have hcol : storeData.isPrefixOf (colKey tab.name) = false := by
      by_contra hprefix
      rw [Bool.not_eq_false] at hprefix
      exact (meta_ne_of_storeData hprefix tab.name).2.2 rfl
    obtain ⟨info, hinfo, hcolumns⟩ := h.info
    refine ⟨info, ?_, hcolumns⟩
    rw [← hinfo, getColInfo, getColInfo, etcdGet, etcdGet, hmeta _ hcol]
  keyed := by
    intro par key row hrow
    rw [shard_visit, Sharding.visit] at hrow
    split at hrow
    · obtain ⟨row', hrow', hchanged⟩ := Option.bind_eq_some_iff.mp hrow
      obtain ⟨hkey, hlength⟩ := h.keyed par key row' hrow'
      obtain ⟨hsame, hwidth⟩ := hf row' row hlength hchanged
      exact ⟨hsame.trans hkey, hwidth⟩
    · exact h.keyed par key row hrow

/-- What a DELETE does to a row. -/
def deleted (schema : List Ast.Col) (conds : List Ast.BinaryExpr) (row : List Int32) :
    Option (List Int32) := if meets schema row conds then none else some row

/-- What an UPDATE does to a row. -/
def updated (schema : List Ast.Col) (columns : List Text) (conds : List Ast.BinaryExpr)
    (clauses : List Ast.SetClause) (row : List Int32) : Option (List Int32) :=
  some (if meets schema row conds then assignAll columns clauses row else row)

theorem deleted_keeps {schema : List Ast.Col} {row row' : List Int32}
    (hlength : row.length = columns.length) (hrow : deleted schema conds row = some row') :
    row'.head? = row.head? ∧ row'.length = columns.length := by
  rw [deleted] at hrow
  split at hrow
  · cases hrow
  · rw [Option.some.injEq] at hrow
    subst hrow
    exact ⟨rfl, hlength⟩

theorem Kept.execDelete (h : Kept tab columns etcd rows)
    (hconds : ∀ cond ∈ conds, Equates (schemaOf tab columns) cond) (par : Nat) :
    ∃ etcd' res, execOp (.delete tab.name par :: RucDDBS.filteredScan conds tab.name par) etcd =
        some (etcd', res) ∧ SameMeta etcd etcd' ∧
      Kept tab columns etcd' (rows.visit tab [par] (deleted (schemaOf tab columns) conds)) := by
  obtain ⟨l, hl, hscan⟩ := h.scan par
  have hbelow := h.filteredScan hl hscan hconds
  let kept := l.filter fun e => meets (schemaOf tab columns) e.2 conds
  have hkeys : (kept.map fun e => named (schemaOf tab columns) e.2).mapM (keyOf tab.name par) =
      some (kept.map fun e => rowKey tab.name par e.1) := by
    rw [List.mapM_map]
    apply mapM_of_forall
    intro e he
    obtain ⟨hhead, hlength⟩ := h.of_listing hl e (List.mem_filter.mp he).1
    exact keyOf_named hlength hhead
  have hwritten := h.stored.write hl (fun row => meets (schemaOf tab columns) row conds)
    fun _ => none
  have hmeta := sameMeta_storeCalls etcd (partitionCalls tab par (fun _ => none) kept)
  have hcalls : etcd.delAll (kept.map fun e => rowKey tab.name par e.1) =
      (partitionCalls tab par (fun _ => none) kept).foldl StoreCall.exec etcd := by
    rw [SortedMap.delAll, partitionCalls, List.foldl_map, List.foldl_map]
    rfl
  rw [execOp, hbelow]
  refine ⟨_, _, congrArg (Option.bind · fun keys => some (etcd.delAll keys, _)) hkeys, ?_, ?_⟩
  · rw [hcalls]
    exact hmeta
  · rw [hcalls]
    exact h.visit hmeta (fun _ _ => deleted_keeps) hwritten

/-- The clauses set integers, and none of them the first column. -/
def Assigns (columns : List Text) (clauses : List Ast.SetClause) : Prop :=
  ∀ clause ∈ clauses, columns.head? ≠ some clause.colName ∧ ∃ n, clause.val = .intLit n

theorem updated_keeps {schema : List Ast.Col} {clauses : List Ast.SetClause}
    (hclauses : Assigns columns clauses) {row row' : List Int32}
    (hlength : row.length = columns.length)
    (hrow : updated schema columns conds clauses row = some row') :
    row'.head? = row.head? ∧ row'.length = columns.length := by
  rw [updated, Option.some.injEq] at hrow
  subst hrow
  split
  · exact assignAll_keeps (fun clause hclause => (hclauses clause hclause).1) hlength
  · exact ⟨rfl, hlength⟩

theorem setCells_append (row : Record) (sets sets' : List (Nat × Value)) :
    setCells row (sets ++ sets') = (setCells row sets).bind (setCells · sets') := by
  induction sets generalizing row with
  | nil => rfl
  | cons set sets ih =>
      rw [List.cons_append, setCells, setCells]
      cases row[set.1]? with
      | none => rfl
      | some cell => exact ih _

/-- A clause sets the cells of all columns with its name. -/
theorem setCells_clause (tabName name : Text) (n : Int32) {row : List Int32}
    (hrow : row.length = columns.length) (front : Record) :
    setCells (front ++ named (columns.map fun c => ⟨tabName, c⟩) row)
        (((columns.zipIdx front.length).filter fun c => name = c.1).map fun c =>
          (c.2, { str := n })) =
      some (front ++ named (columns.map fun c => ⟨tabName, c⟩)
        (columns.zipWith (fun c v => if c = name then n else v) row)) := by
  induction columns generalizing row front with
  | nil =>
      cases List.eq_nil_of_length_eq_zero hrow
      rfl
  | cons c columns ih =>
      cases row with
      | nil => cases hrow
      | cons v row =>
          have hnext (cell : Value) := ih (Nat.succ.inj hrow) (front ++ [cell])
          simp only [List.length_append, List.length_singleton, List.append_assoc,
            List.singleton_append] at hnext
          rw [List.zipIdx_cons, List.map_cons, named_cons, List.zipWith_cons_cons, named_cons]
          by_cases hname : c = name
          · rw [if_pos hname, List.filter_cons_of_pos (by simpa using hname.symm), List.map_cons,
              setCells]
            have hcell : (front ++ (⟨c, tabName, v⟩ : Value) ::
                named (columns.map fun c => ⟨tabName, c⟩) row)[front.length]? =
                  some ⟨c, tabName, v⟩ := by
              rw [List.getElem?_append_right (Nat.le_refl _), Nat.sub_self]
              rfl
            rw [hcell]
            dsimp only
            rw [List.set_append_right _ _ (Nat.le_refl _), Nat.sub_self, List.set_cons_zero]
            exact hnext _
          · rw [if_neg hname, List.filter_cons_of_neg (by simpa using Ne.symm hname)]
            exact hnext _

theorem setCells_setColumns (tabName : Text) {clauses : List Ast.SetClause}
    (hclauses : Assigns columns clauses) (fresh : Nat → Nat → Int32) {row : List Int32}
    (hrow : row.length = columns.length) :
    setCells (named (columns.map fun c => ⟨tabName, c⟩) row) (setColumns fresh clauses columns) =
      some (named (columns.map fun c => ⟨tabName, c⟩) (assignAll columns clauses row)) := by
  have hsets (clauses : List Ast.SetClause) (k : Nat) (row : List Int32)
      (hrow : row.length = columns.length) (hclauses : Assigns columns clauses) :
      setCells (named (columns.map fun c => ⟨tabName, c⟩) row)
          ((clauses.zipIdx k).flatMap fun setCol =>
            (columns.zipIdx.filter fun col => setCol.1.colName = col.1).map fun col =>
              (col.2, interpValue (fresh setCol.2 col.2) setCol.1.val)) =
        some (named (columns.map fun c => ⟨tabName, c⟩) (assignAll columns clauses row)) := by
    induction clauses generalizing k row with
    | nil => rfl
    | cons clause clauses ih =>
        obtain ⟨⟨_, n, hn⟩, hrest⟩ := List.forall_mem_cons.mp hclauses
        have hassign : assign columns row clause =
            columns.zipWith (fun c v => if c = clause.colName then n else v) row := by
          rw [assign, hn]
        have hfirst := setCells_clause tabName clause.colName n hrow []
        rw [List.length_nil, List.nil_append, List.nil_append, ← hassign] at hfirst
        have hvals : ((columns.zipIdx.filter fun col => clause.colName = col.1).map fun col =>
            (col.2, interpValue (fresh k col.2) clause.val)) =
              (columns.zipIdx.filter fun col => clause.colName = col.1).map fun col =>
                (col.2, { str := n }) := by
          rw [hn]
          rfl
        rw [List.zipIdx_cons, List.flatMap_cons, setCells_append, hvals, hfirst, Option.bind_some]
        exact ih (k + 1) _ (assign_length clause hrow) hrest
  exact hsets clauses 0 row hrow hclauses

theorem Kept.execUpdate (h : Kept tab columns etcd rows)
    (hconds : ∀ cond ∈ conds, Equates (schemaOf tab columns) cond) {clauses : List Ast.SetClause}
    (hclauses : Assigns columns clauses) (fresh : Nat → Nat → Int32) (par : Nat) :
    ∃ etcd' res, execOp (.update tab.name par ((setColumns fresh clauses columns).map Prod.fst)
          ((setColumns fresh clauses columns).map Prod.snd) ::
            RucDDBS.filteredScan conds tab.name par) etcd =
        some (etcd', res) ∧ SameMeta etcd etcd' ∧
      Kept tab columns etcd'
        (rows.visit tab [par] (updated (schemaOf tab columns) columns conds clauses)) := by
  obtain ⟨l, hl, hscan⟩ := h.scan par
  have hbelow := h.filteredScan hl hscan hconds
  let kept := l.filter fun e => meets (schemaOf tab columns) e.2 conds
  have hrows : (kept.map fun e => named (schemaOf tab columns) e.2).mapM
        (updateRow tab.name par (setColumns fresh clauses columns)) =
      some (kept.map fun e => (rowKey tab.name par e.1,
        named (schemaOf tab columns) (assignAll columns clauses e.2))) := by
    rw [List.mapM_map]
    apply mapM_of_forall
    intro e he
    obtain ⟨hhead, hlength⟩ := h.of_listing hl e (List.mem_filter.mp he).1
    have hkey : keyOf tab.name par (named (schemaOf tab columns) e.2) =
        some (rowKey tab.name par e.1) := keyOf_named hlength hhead
    rw [schemaOf, List.length_map] at hlength
    have hcells := setCells_setColumns tab.name hclauses fresh hlength
    rw [Function.comp_apply, updateRow, hkey]
    exact congrArg (Option.bind · fun row => some (rowKey tab.name par e.1, row)) hcells
  have hvisit : (fun row => if meets (schemaOf tab columns) row conds then
        some (assignAll columns clauses row) else some row) =
      updated (schemaOf tab columns) columns conds clauses := by
    funext row
    rw [updated]
    split
    · rfl
    · rfl
  have hwritten := h.stored.write hl (fun row => meets (schemaOf tab columns) row conds)
    fun row => some (assignAll columns clauses row)
  rw [hvisit] at hwritten
  have hmeta := sameMeta_storeCalls etcd
    (partitionCalls tab par (fun row => some (assignAll columns clauses row)) kept)
  have hcalls : etcd.putAll ((kept.map fun e => (rowKey tab.name par e.1,
        named (schemaOf tab columns) (assignAll columns clauses e.2))).map fun row =>
          (row.1, row.2.recToString)) =
      (partitionCalls tab par (fun row => some (assignAll columns clauses row)) kept).foldl
        StoreCall.exec etcd := by
    have hentries : (kept.map fun e => (rowKey tab.name par e.1,
          named (schemaOf tab columns) (assignAll columns clauses e.2))).map (fun row =>
            (row.1, row.2.recToString)) =
        kept.map fun e => (rowKey tab.name par e.1,
          (plain (assignAll columns clauses e.2)).recToString) := by
      rw [List.map_map]
      apply List.map_congr_left
      intro e he
      have hlength := (h.of_listing hl e (List.mem_filter.mp he).1).2
      rw [schemaOf, List.length_map] at hlength
      have hwidth := (assignAll_keeps (fun clause hc => (hclauses clause hc).1) hlength).2
      rw [Function.comp_apply, recToString_named (by rw [schemaOf, List.length_map, hwidth])]
    rw [hentries, SortedMap.putAll, partitionCalls, List.foldl_map, List.foldl_map]
    rfl
  have hfits : ((setColumns fresh clauses columns).map Prod.fst).length ≤
      ((setColumns fresh clauses columns).map Prod.snd).length := by
    rw [List.length_map, List.length_map]
  have hzip : ((setColumns fresh clauses columns).map Prod.fst).zip
      ((setColumns fresh clauses columns).map Prod.snd) = setColumns fresh clauses columns := by
    simpa using List.zip_unzip (setColumns fresh clauses columns)
  have hexec : execOp (.update tab.name par ((setColumns fresh clauses columns).map Prod.fst)
      ((setColumns fresh clauses columns).map Prod.snd) ::
        RucDDBS.filteredScan conds tab.name par) etcd =
      some (etcd.putAll ((kept.map fun e => (rowKey tab.name par e.1,
        named (schemaOf tab columns) (assignAll columns clauses e.2))).map fun row =>
          (row.1, row.2.recToString)), (kept.map fun e => (rowKey tab.name par e.1,
        named (schemaOf tab columns) (assignAll columns clauses e.2))).map Prod.snd) := by
    rw [execOp, hbelow]
    refine (if_pos hfits).trans ?_
    rw [hzip, hrows]
    rfl
  refine ⟨_, _, hexec, ?_, ?_⟩
  · rw [hcalls]
    exact hmeta
  · rw [hcalls]
    exact h.visit hmeta (fun _ _ => updated_keeps hclauses) hwritten

end Plans

section Nodes

variable {tab : TableName} {columns : List Text} {etcd : Etcd} {rows : RowStore} {pars : List Nat}
  {conds : List Ast.BinaryExpr} {f : List Int32 → Option (List Int32)}

/-- A plan whose conditions compare with integers is executed as it was sent. -/
theorem execNode_eq {plan : Chain} (hplan : NodePlan plan)
    (hconds : ∀ cond, .selection cond ∈ plan → cond.OnInt) (fresh : Nat → Int32) (etcd : Etcd) :
    execNode fresh plan etcd = execOp plan etcd := by
  rw [execNode, convertIntoPlan_sendPlan fresh hplan.plain,
    (arrivingChain_eq_iff fresh plan).mpr hconds]
  rfl

/-- The node plans of a statement, one after the other. -/
theorem Kept.execNodes {nodePlan : Nat → Chain}
    (hnode : ∀ (etcd : Etcd) (rows : RowStore) (par : Nat) (fresh : Nat → Int32),
      Kept tab columns etcd rows → ∃ etcd' res, execNode fresh (nodePlan par) etcd =
        some (etcd', res) ∧ SameMeta etcd etcd' ∧ Kept tab columns etcd' (rows.visit tab [par] f))
    (hpars : pars.Nodup) (h : Kept tab columns etcd rows) (fresh : Nat → Nat → Int32) :
    ∃ etcd' res, RucDDBS.execNodes fresh (pars.map nodePlan) etcd = some (etcd', res) ∧
      SameMeta etcd etcd' ∧ Kept tab columns etcd' (rows.visit tab pars f) := by
  induction pars generalizing etcd rows fresh with
  | nil =>
      refine ⟨etcd, [], rfl, fun _ _ => rfl, ?_⟩
      rw [RowStore.visit_nil]
      exact h
  | cons par pars ih =>
      obtain ⟨hpar, hpars⟩ := List.nodup_cons.mp hpars
      obtain ⟨mid, ret, hfirst, hmeta, hmid⟩ := hnode etcd rows par (fresh 0) h
      obtain ⟨etcd', res, hrest, hmeta', hlast⟩ := ih hpars hmid (fresh ∘ Nat.succ)
      rw [RowStore.visit_cons hpar] at hlast
      refine ⟨etcd', ret ++ res, ?_, hmeta.trans hmeta', hlast⟩
      rw [List.map_cons, RucDDBS.execNodes, hfirst]
      exact congrArg (Option.bind · fun last => some (last.1, ret ++ last.2)) hrest

theorem onInt_of_mem {plan : Chain} {cond : Ast.BinaryExpr} (hconds : ∀ cond ∈ conds, cond.OnInt)
    (hplan : plan = RucDDBS.filteredScan conds tab.name par) (hmem : .selection cond ∈ plan) :
    cond.OnInt := by
  rw [hplan, RucDDBS.filteredScan, List.mem_append] at hmem
  rcases hmem with hmem | hmem
  · obtain ⟨cond', hcond, heq⟩ := List.mem_map.mp hmem
    cases heq
    exact hconds cond hcond
  · cases List.mem_singleton.mp hmem

theorem Kept.deleteNodes (h : Kept tab columns etcd rows)
    (hconds : ∀ cond ∈ conds, Equates (schemaOf tab columns) cond ∧ cond.OnInt)
    (hpars : pars.Nodup) (fresh : Nat → Nat → Int32) :
    ∃ etcd' res, RucDDBS.execNodes fresh (pars.map fun par =>
        .delete tab.name par :: RucDDBS.filteredScan conds tab.name par) etcd = some (etcd', res) ∧
      SameMeta etcd etcd' ∧
        Kept tab columns etcd' (rows.visit tab pars (deleted (schemaOf tab columns) conds)) := by
  apply Kept.execNodes _ hpars h
  intro etcd rows par fresh h
  have hplan : NodePlan (.delete tab.name par :: RucDDBS.filteredScan conds tab.name par) :=
    .delete tab.name par conds
  rw [execNode_eq hplan]
  · exact h.execDelete (fun cond hcond => (hconds cond hcond).1) par
  · intro cond hmem
    rcases List.mem_cons.mp hmem with heq | hmem
    · cases heq
    · exact onInt_of_mem (fun cond hcond => (hconds cond hcond).2) rfl hmem

theorem Kept.updateNodes (h : Kept tab columns etcd rows)
    (hconds : ∀ cond ∈ conds, Equates (schemaOf tab columns) cond ∧ cond.OnInt)
    {clauses : List Ast.SetClause} (hclauses : Assigns columns clauses) (hpars : pars.Nodup)
    (unset : Nat → Nat → Nat → Int32) (fresh : Nat → Nat → Int32) :
    ∃ etcd' res, RucDDBS.execNodes fresh (pars.map fun par =>
        .update tab.name par ((setColumns (unset par) clauses columns).map Prod.fst)
            ((setColumns (unset par) clauses columns).map Prod.snd) ::
          RucDDBS.filteredScan conds tab.name par) etcd = some (etcd', res) ∧
      SameMeta etcd etcd' ∧ Kept tab columns etcd'
        (rows.visit tab pars (updated (schemaOf tab columns) columns conds clauses)) := by
  apply Kept.execNodes _ hpars h
  intro etcd rows par fresh h
  have hplan : NodePlan (.update tab.name par ((setColumns (unset par) clauses columns).map Prod.fst)
      ((setColumns (unset par) clauses columns).map Prod.snd) ::
        RucDDBS.filteredScan conds tab.name par) :=
    .update tab.name par conds (by rw [List.length_map, List.length_map])
      (setColumns_plain (unset par) clauses columns)
  rw [execNode_eq hplan]
  · exact h.execUpdate (fun cond hcond => (hconds cond hcond).1) hclauses (unset par) par
  · intro cond hmem
    rcases List.mem_cons.mp hmem with heq | hmem
    · cases heq
    · exact onInt_of_mem (fun cond hcond => (hconds cond hcond).2) rfl hmem

/-- Scans of some partitions return their rows, partition by partition. -/
theorem Kept.scanNodes (h : Kept tab columns etcd rows) (pars : List Nat)
    (fresh : Nat → Nat → Int32) :
    ∃ list : Nat → List (Int32 × List Int32),
      (∀ par ∈ pars, Listing (rows.shard tab par) (list par)) ∧
      RucDDBS.execNodes fresh (pars.map fun par => [.tablescan tab.name par]) etcd =
        some (etcd, (pars.flatMap list).map fun e => named (schemaOf tab columns) e.2) := by
  have hscans (par : Nat) := h.scan par
  choose list hlist hscan using hscans
  refine ⟨list, fun par _ => hlist par, ?_⟩
  induction pars generalizing fresh with
  | nil => rfl
  | cons par pars ih =>
      have hnode : execNode (fresh 0) [.tablescan tab.name par] etcd =
          some (etcd, (list par).map fun e => named (schemaOf tab columns) e.2) := by
        rw [execNode_eq (.scan tab.name par) (fun cond hmem => by cases List.mem_singleton.mp hmem),
          execOp, hscan par]
        rfl
      rw [List.map_cons, RucDDBS.execNodes, hnode]
      refine (congrArg (Option.bind · fun last => some (last.1, _ ++ last.2)) (ih _)).trans ?_
      rw [Option.bind_some, List.flatMap_cons, List.map_append]

end Nodes

end Relational

end RucDDBS
