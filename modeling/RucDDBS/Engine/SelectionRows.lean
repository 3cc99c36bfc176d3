import RucDDBS.Engine.SelectOperators

/-!
What a selection keeps, beside what its condition says. A condition names one field
of the rows, and on its right side a second one or an integer. The selection looks
both columns up by the names as they are written, the table included, takes the
first field where the right side is a column and the name is not found, and keeps
the rows in which the two values are equal, whichever operator was written. With an
integer on the right a name that is not found is the cell before the first one.
-/

namespace RucDDBS

section Meaning

/-- The comparison that an operator stands for. -/
def Ast.SvCompOp.holds : SvCompOp → Int32 → Int32 → Bool
  | .eq, x, y => x = y
  | .ne, x, y => x ≠ y
  | .lt, x, y => x < y
  | .gt, x, y => y < x
  | .le, x, y => x ≤ y
  | .ge, x, y => y ≤ x

/-- What stands on the right of a comparison, for the rows of one schema. -/
inductive Operand where
  | field (index : Nat)
  | literal (n : Int32)
  deriving DecidableEq

/-- The value of a cell. The indices are always those of fields. -/
def Record.valueAt (row : Record) (index : Nat) : Int32 := (row[index]?.map Value.str).getD 0

def Operand.value (row : Record) : Operand → Int32
  | .field index => row.valueAt index
  | .literal n => n

/-- A qualified column names the fields of its table, another one those of any table. -/
def Names (schema : List Ast.Col) (col : Ast.Col) (index : Nat) : Prop :=
  ∃ field, schema[index]? = some field ∧ col.means field

/-- The right side is a column of the schema, or an integer. -/
inductive Denotes (schema : List Ast.Col) : Ast.Expr → Operand → Prop
  | col {x : Ast.Col} {index : Nat} : Names schema x index → Denotes schema (.col x) (.field index)
  | int (n : Int32) : Denotes schema (.val (.intLit n)) (.literal n)

/-- What the condition says of a row. -/
def satisfies (op : Ast.SvCompOp) (left : Nat) (right : Operand) (row : Record) : Bool :=
  op.holds (row.valueAt left) (right.value row)

def OfSchema (schema : List Ast.Col) (ret : List Record) : Prop := ∀ row ∈ ret, row.fields = schema

/-- The selection returns, in order, the rows of which its condition is true. -/
def SelectsExactly (conds : Ast.BinaryExpr) (left : Nat) (right : Operand) (ret : List Record) :
    Prop :=
  execSelection conds ret = some (ret.filter (satisfies conds.op left right))

end Meaning

section Lookup

/-- The last field that has exactly the names of the column. -/
def found (schema : List Ast.Col) (col : Ast.Col) : Option Nat :=
  ((schema.zipIdx.filter fun field => field.1 = col).getLast?).map Prod.snd

/-- The two values that the selection compares; `none` is the cell before the first
one. -/
def compared (schema : List Ast.Col) (conds : Ast.BinaryExpr) : Option (Nat × Operand) :=
  match conds.rhs with
  | .col x => some ((found schema conds.lhs).getD 0, .field ((found schema x).getD 0))
  | .val (.intLit n) => (found schema conds.lhs).map (·, .literal n)
  | .val _ => none

/-- The test of the selection for a row. -/
def equalIn (pair : Nat × Operand) (row : Record) : Bool :=
  row.valueAt pair.1 = pair.2.value row

variable {schema : List Ast.Col} {conds : Ast.BinaryExpr} {left : Nat} {right : Operand}
  {first row : Record} {ret : List Record}

theorem columnIndex_eq_found (row : Record) (col : Ast.Col) :
    columnIndex row col = found row.fields col := by
  have hsame : (fun cell : Value × Nat =>
      decide (cell.1.tabName = col.tabName ∧ cell.1.colName = col.colName)) =
      (fun field : Ast.Col × Nat => decide (field.1 = col)) ∘ Prod.map Value.field id := by
    funext cell
    obtain ⟨tabName, colName⟩ := col
    simp [Value.field]
  rw [columnIndex, found, Record.fields, List.zipIdx_map, List.filter_map, List.getLast?_map, hsame,
    Option.map_map]
  rfl

theorem exists_field_of_found {col : Ast.Col} {index : Nat} (h : found schema col = some index) :
    schema[index]? = some col := by
  obtain ⟨⟨field, i⟩, hlast, rfl⟩ := Option.map_eq_some_iff.mp h
  obtain ⟨hmem, hfield⟩ := List.mem_filter.mp (List.mem_of_getLast? hlast)
  have heq : field = col := by simpa using hfield
  rw [← heq]
  exact List.mem_zipIdx_iff_getElem?.mp hmem

theorem found_lt {col : Ast.Col} {index : Nat} (h : found schema col = some index) :
    index < schema.length := (List.getElem?_eq_some_iff.mp (exists_field_of_found h)).1

/-- A column without a table is not found in rows that name theirs. -/
theorem found_unqualified (hschema : ∀ field ∈ schema, field.tabName ≠ []) {col : Ast.Col}
    (hcol : col.tabName = []) : found schema col = none := by
  cases hfound : found schema col with
  | none => rfl
  | some index =>
      have hmem := List.mem_of_getElem? (exists_field_of_found hfound)
      exact absurd hcol (hschema col hmem)

theorem getD_found_lt (hschema : schema ≠ []) (col : Ast.Col) :
    (found schema col).getD 0 < schema.length := by
  cases hfound : found schema col with
  | none => exact List.length_pos_of_ne_nil hschema
  | some index => exact found_lt hfound

theorem getElem?_of_lt (hrow : row.fields = schema) {index : Nat} (h : index < schema.length) :
    ∃ cell, row[index]? = some cell ∧ row.valueAt index = cell.str := by
  have hlength : index < row.length := by
    rwa [← hrow, Record.fields, List.length_map] at h
  exact ⟨row[index], List.getElem?_eq_getElem hlength, by simp [Record.valueAt, hlength]⟩

theorem Names.lt {col : Ast.Col} {index : Nat} (h : Names schema col index) :
    index < schema.length := by
  obtain ⟨field, hfield, _⟩ := h
  exact (List.getElem?_eq_some_iff.mp hfield).1

theorem Names.ne_nil {col : Ast.Col} {index : Nat} (h : Names schema col index) : schema ≠ [] :=
  List.ne_nil_of_length_pos (Nat.zero_lt_of_lt h.lt)

/-- One row of the selection. No cell beyond the end of a row is read. -/
theorem selects_eq (hfirst : first.fields = schema) (hrow : row.fields = schema)
    (hschema : schema ≠ []) (hright : Denotes schema conds.rhs right) :
    selects conds first row = (compared schema conds).map (equalIn · row) := by
  obtain ⟨lhs, op, rhs⟩ := conds
  cases hright with
  | @col x index _ =>
      obtain ⟨cell, hcell, hvalue⟩ := getElem?_of_lt hrow (getD_found_lt hschema lhs)
      obtain ⟨cell', hcell', hvalue'⟩ := getElem?_of_lt hrow (getD_found_lt hschema x)
      simp [selects, compared, columnIndex_eq_found, hfirst, hcell, hcell', equalIn, hvalue,
        Operand.value, hvalue']
  | int n =>
      cases hfound : found schema lhs with
      | none => simp [selects, compared, columnIndex_eq_found, hfirst, hfound]
      | some index =>
          obtain ⟨cell, hcell, hvalue⟩ := getElem?_of_lt hrow (found_lt hfound)
          simp [selects, compared, columnIndex_eq_found, hfirst, hfound, hcell, equalIn, hvalue,
            Operand.value]

/-- The loop over the rows, if each of them has a verdict. -/
theorem exists_kept {test : Record → Option Bool} {keep : Record → Bool}
    (h : ∀ row ∈ ret, test row = some (keep row)) :
    ∃ kept, ret.mapM test = some kept ∧
      ((ret.zip kept).filter Prod.snd).map Prod.fst = ret.filter keep := by
  induction ret with
  | nil => exact ⟨[], rfl, rfl⟩
  | cons row ret ih =>
      obtain ⟨kept, hkept, hfilter⟩ := ih fun other hmem => h other (List.mem_cons_of_mem _ hmem)
      refine ⟨keep row :: kept, by simp [h row List.mem_cons_self, hkept], ?_⟩
      cases hkeep : keep row <;> simp [hkeep, hfilter]

theorem execSelection_eq (hret : OfSchema schema ret) (hschema : schema ≠ [])
    (hright : Denotes schema conds.rhs right) {pair : Nat × Operand}
    (hpair : compared schema conds = some pair) :
    execSelection conds ret = some (ret.filter (equalIn pair)) := by
  have htest : ∀ row ∈ ret, selects conds (ret.headD []) row = some (equalIn pair row) := by
    intro row hrow
    have hfirst : (ret.headD []).fields = schema := by
      cases ret with
      | nil => cases hrow
      | cons first _ => exact hret first List.mem_cons_self
    rw [selects_eq hfirst (hret row hrow) hschema hright, hpair, Option.map_some]
  obtain ⟨kept, hkept, hfilter⟩ := exists_kept htest
  rw [execSelection, hkept]
  exact congrArg some hfilter

/-- With no column found and an integer on the right a row is read before its
beginning. -/
theorem execSelection_none (hret : OfSchema schema ret) (hne : ret ≠ []) (hschema : schema ≠ [])
    (hright : Denotes schema conds.rhs right) (hpair : compared schema conds = none) :
    execSelection conds ret = none := by
  cases ret with
  | nil => exact absurd rfl hne
  | cons row rest =>
      have hrow := hret row List.mem_cons_self
      have hselects : selects conds row row = none := by
        rw [selects_eq hrow hrow hschema hright, hpair, Option.map_none]
      simp [execSelection, hselects]

/-- For given rows: there are none, or the equality that is tested agrees with the
condition in each of them. -/
theorem selectsExactly_iff (hret : OfSchema schema ret) (hschema : schema ≠ [])
    (hright : Denotes schema conds.rhs right) :
    SelectsExactly conds left right ret ↔ ret = [] ∨ ∃ pair, compared schema conds = some pair ∧
      ∀ row ∈ ret, equalIn pair row = satisfies conds.op left right row := by
  constructor
  · intro h
    by_cases hne : ret = []
    · exact .inl hne
    right
    cases hpair : compared schema conds with
    | none =>
        rw [SelectsExactly, execSelection_none hret hne hschema hright hpair] at h
        cases h
    | some pair =>
        rw [SelectsExactly, execSelection_eq hret hschema hright hpair, Option.some.injEq] at h
        refine ⟨pair, rfl, ?_⟩
        intro row hrow
        rw [Bool.eq_iff_iff]
        have hmem : row ∈ ret.filter (equalIn pair) ↔
            row ∈ ret.filter (satisfies conds.op left right) := by rw [h]
        simpa [List.mem_filter, hrow] using hmem
  · rintro (rfl | ⟨pair, hpair, hsame⟩)
    · rfl
    · rw [SelectsExactly, execSelection_eq hret hschema hright hpair, List.filter_congr hsame]

end Lookup

section Schemas

/-- A row of the schema with the given values. -/
def rowOf (schema : List Ast.Col) (values : Nat → Int32) : Record :=
  schema.zipIdx.map fun field => ⟨field.1.colName, field.1.tabName, values field.2⟩

variable {schema : List Ast.Col} {conds : Ast.BinaryExpr} {left : Nat} {right : Operand}

theorem rowOf_fields (schema : List Ast.Col) (values : Nat → Int32) :
    (rowOf schema values).fields = schema := by
  rw [Record.fields, rowOf, List.map_map]
  exact List.zipIdx_map_fst 0 schema

theorem rowOf_valueAt {values : Nat → Int32} {index : Nat} (h : index < schema.length) :
    (rowOf schema values).valueAt index = values index := by
  simp [Record.valueAt, rowOf, h]

/-- The conditions for which testing the equality of two values is right for all rows of a
schema: an equality of just these two values, one that no row or every row fulfils
in the same way, and a comparison with the end of the range. -/
inductive Tested : Ast.SvCompOp → Nat → Operand → Nat × Operand → Prop
  | same (left : Nat) (right : Operand) : Tested .eq left right (left, right)
  | swapped (left right : Nat) : Tested .eq left (.field right) (right, .field left)
  | reflexive {op : Ast.SvCompOp} (index other : Nat) :
      op = .eq ∨ op = .le ∨ op = .ge → Tested op index (.field index) (other, .field other)
  | least (left : Nat) : Tested .le left (.literal Int32.minValue) (left, .literal Int32.minValue)
  | greatest (left : Nat) :
      Tested .ge left (.literal Int32.maxValue) (left, .literal Int32.maxValue)

/-- An operator that lets equal values pass is =, <= or >=. -/
theorem Ast.SvCompOp.reflexive_of_holds {op : SvCompOp} {n : Int32} (h : op.holds n n = true) :
    op = .eq ∨ op = .le ∨ op = .ge := by
  cases op with
  | eq => exact .inl rfl
  | le => exact .inr (.inl rfl)
  | ge => exact .inr (.inr rfl)
  | ne => simp [holds] at h
  | lt => simp [holds] at h
  | gt => simp [holds] at h

theorem Ast.SvCompOp.holds_self {op : SvCompOp} (h : op = .eq ∨ op = .le ∨ op = .ge) (n : Int32) :
    op.holds n n = true := by
  rcases h with rfl | rfl | rfl <;> simp [holds]

/-- Of these three only = sets 0 and 1 apart in both directions. -/
theorem Ast.SvCompOp.eq_of_holds {op : SvCompOp} (h : op = .eq ∨ op = .le ∨ op = .ge)
    (hless : op.holds 0 1 = false) (hgreater : op.holds 1 0 = false) : op = .eq := by
  rcases h with rfl | rfl | rfl
  · rfl
  · cases hless
  · cases hgreater

/-- Each of the three sets them apart in one direction. -/
theorem Ast.SvCompOp.not_holds_both {op : SvCompOp} (h : op = .eq ∨ op = .le ∨ op = .ge)
    (hless : op.holds 0 1 = true) (hgreater : op.holds 1 0 = true) : False := by
  rcases h with rfl | rfl | rfl
  · cases hless
  · cases hgreater
  · cases hless

/-- One value differs from the rest. -/
def valuesBut (index : Nat) (one rest : Int32) (i : Nat) : Int32 := if i = index then one else rest

@[simp] theorem valuesBut_self (index : Nat) (one rest : Int32) :
    valuesBut index one rest index = one := if_pos rfl

theorem valuesBut_of_ne {index i : Nat} (h : i ≠ index) (one rest : Int32) :
    valuesBut index one rest i = rest := if_neg h

/-- Two values are compared with an operator in place of being tested for equality. -/
def Agree (op : Ast.SvCompOp) (left right index other : Nat) : Prop :=
  ∀ values : Nat → Int32,
    decide (values index = values other) = op.holds (values left) (values right)

variable {op : Ast.SvCompOp} {index other l r : Nat}

theorem Agree.reflexive (h : Agree op l r index other) : op = .eq ∨ op = .le ∨ op = .ge := by
  have hequal := h fun _ => 0
  rw [decide_eq_true rfl] at hequal
  exact Ast.SvCompOp.reflexive_of_holds hequal.symm

/-- Where the condition compares two different fields, each of them is tested. -/
theorem Agree.covers (h : Agree op l r index other) (hlr : l ≠ r) {i : Nat} (hi : i = l ∨ i = r) :
    index ≠ other ∧ (i = index ∨ i = other) := by
  by_contra hnot
  have htest (one rest : Int32) :
      op.holds (valuesBut i one rest l) (valuesBut i one rest r) = true := by
    rw [← h, decide_eq_true_eq]
    by_cases hsame : index = other
    · rw [hsame]
    · have houtside : index ≠ i ∧ other ≠ i := by tauto
      rw [valuesBut_of_ne houtside.1, valuesBut_of_ne houtside.2]
  have hone := htest 1 0
  have hzero := htest 0 1
  rcases hi with rfl | rfl
  · rw [valuesBut_self, valuesBut_of_ne hlr.symm] at hone hzero
    exact Ast.SvCompOp.not_holds_both h.reflexive hzero hone
  · rw [valuesBut_self, valuesBut_of_ne hlr] at hone hzero
    exact Ast.SvCompOp.not_holds_both h.reflexive hone hzero

theorem Agree.eq (h : Agree op l r index other) (hlr : l ≠ r) : op = .eq := by
  obtain ⟨hdiffer, hleft⟩ := h.covers hlr (.inl rfl)
  have htest (one rest : Int32) (hne : one ≠ rest) : op.holds one rest = false := by
    have hvalues := h (valuesBut l one rest)
    rw [valuesBut_self, valuesBut_of_ne hlr.symm] at hvalues
    rw [← hvalues, decide_eq_false_iff_not]
    rcases hleft with rfl | rfl
    · rwa [valuesBut_self, valuesBut_of_ne hdiffer.symm]
    · rw [valuesBut_self, valuesBut_of_ne hdiffer]
      exact hne.symm
  exact Ast.SvCompOp.eq_of_holds h.reflexive (htest 0 1 (by decide)) (htest 1 0 (by decide))

theorem agree_iff : Agree op l r index other ↔ Tested op l (.field r) (index, .field other) := by
  constructor
  · intro h
    by_cases hlr : l = r
    · subst hlr
      have hself := h (valuesBut index 1 0)
      rw [Ast.SvCompOp.holds_self h.reflexive, decide_eq_true_eq] at hself
      by_cases hsame : other = index
      · subst hsame
        exact .reflexive l other h.reflexive
      · rw [valuesBut_self, valuesBut_of_ne hsame] at hself
        cases hself
    · obtain ⟨_, hleft⟩ := h.covers hlr (.inl rfl)
      obtain ⟨_, hright⟩ := h.covers hlr (.inr rfl)
      rw [h.eq hlr]
      rcases hleft with rfl | rfl
      · rcases hright with rfl | rfl
        · exact absurd rfl hlr
        · exact .same l (.field r)
      · rcases hright with rfl | rfl
        · exact .swapped l r
        · exact absurd rfl hlr
  · intro h values
    cases h with
    | same => rfl
    | swapped => simp [Ast.SvCompOp.holds, eq_comm]
    | reflexive _ _ hop =>
        rw [Ast.SvCompOp.holds_self hop]
        simp

/-- The same with an integer on the right. -/
theorem agree_int_iff {n : Int32} :
    (∀ values : Nat → Int32, decide (values index = n) = op.holds (values l) n) ↔
      Tested op l (.literal n) (index, .literal n) := by
  constructor
  · intro h
    have hequal := h fun _ => n
    rw [decide_eq_true rfl] at hequal
    have hindex : index = l := by
      by_contra hne
      have hother : ∃ m : Int32, m ≠ n := by
        by_cases hzero : n = 0
        · exact ⟨1, by rw [hzero]; decide⟩
        · exact ⟨0, Ne.symm hzero⟩
      obtain ⟨m, hm⟩ := hother
      have hvalues := h (valuesBut l n m)
      rw [valuesBut_self, valuesBut_of_ne hne, ← hequal, decide_eq_true_eq] at hvalues
      exact hm hvalues
    rw [hindex]
    rcases Ast.SvCompOp.reflexive_of_holds hequal.symm with rfl | rfl | rfl
    · exact .same l (.literal n)
    · have hleast : Int32.minValue = n := by simpa [Ast.SvCompOp.holds] using h fun _ => .minValue
      rw [← hleast]
      exact .least l
    · have hgreatest : Int32.maxValue = n := by
        simpa [Ast.SvCompOp.holds] using h fun _ => .maxValue
      rw [← hgreatest]
      exact .greatest l
  · intro h values
    cases h with
    | same => rfl
    | least =>
        rw [Ast.SvCompOp.holds, decide_eq_decide, Int32.le_antisymm_iff]
        exact and_iff_left (Int32.minValue_le _)
    | greatest =>
        rw [Ast.SvCompOp.holds, decide_eq_decide, Int32.le_antisymm_iff]
        exact and_iff_right (Int32.le_maxValue _)

/-- The cells that are compared for all rows of a schema. -/
theorem equalIn_iff_tested (hl : l < schema.length) (hright : Denotes schema conds.rhs right)
    {pair : Nat × Operand} (hpair : compared schema conds = some pair) :
    (∀ row : Record, row.fields = schema → equalIn pair row = satisfies conds.op l right row) ↔
      Tested conds.op l right pair := by
  have hschema : schema ≠ [] := List.ne_nil_of_length_pos (Nat.zero_lt_of_lt hl)
  obtain ⟨lhs, op, rhs⟩ := conds
  cases hright with
  | @col x r hx =>
      have hr : r < schema.length := hx.lt
      cases hpair
      rw [← agree_iff]
      constructor
      · intro h values
        have hrow := h (rowOf schema values) (rowOf_fields schema values)
        simpa [equalIn, satisfies, Operand.value, rowOf_valueAt, hl, hr,
          getD_found_lt hschema] using hrow
      · intro h row _
        exact h row.valueAt
  | int n =>
      obtain ⟨index, hindex, rfl⟩ := Option.map_eq_some_iff.mp hpair
      have hlt := found_lt hindex
      rw [← agree_int_iff]
      constructor
      · intro h values
        have hrow := h (rowOf schema values) (rowOf_fields schema values)
        simpa [equalIn, satisfies, Operand.value, rowOf_valueAt, hl, hlt] using hrow
      · intro h row _
        exact h row.valueAt

/-- A row is read before its beginning where a condition without a table compares a
scanned column with an integer. -/
theorem unqualified_int_reads_outside {ret : List Record} {op : Ast.SvCompOp} {col : Ast.Col}
    {n : Int32} (hret : OfSchema schema ret) (hne : ret ≠ [])
    (hschema : ∀ field ∈ schema, field.tabName ≠ []) (hcol : col.tabName = [])
    (hnames : Names schema col l) : execSelection ⟨col, op, .val (.intLit n)⟩ ret = none := by
  apply execSelection_none hret hne hnames.ne_nil (.int n)
  have hnone := found_unqualified hschema hcol
  exact congrArg (Option.map fun index => (index, Operand.literal n)) hnone

/-- Of given rows the selection keeps those of which the condition is true if and only if
there are none or the equality that it tests agrees with the condition in each. It
does so for all rows of a schema if and only if it tests what the condition says. -/
theorem selection_exact_iff (hleft : Names schema conds.lhs l)
    (hright : Denotes schema conds.rhs right) :
    (∀ ret, OfSchema schema ret → (SelectsExactly conds l right ret ↔
      ret = [] ∨ ∃ pair, compared schema conds = some pair ∧
        ∀ row ∈ ret, equalIn pair row = satisfies conds.op l right row)) ∧
    ((∀ ret, OfSchema schema ret → SelectsExactly conds l right ret) ↔
      ∃ pair, compared schema conds = some pair ∧ Tested conds.op l right pair) := by
  have hschema : schema ≠ [] := hleft.ne_nil
  have hl : l < schema.length := hleft.lt
  refine ⟨fun ret hret => selectsExactly_iff hret hschema hright, ?_⟩
  constructor
  · intro h
    have hrow (row : Record) (hfields : row.fields = schema) :
        ∃ pair, compared schema conds = some pair ∧
          equalIn pair row = satisfies conds.op l right row := by
      have hret : OfSchema schema [row] := by
        intro other hmem
        rwa [List.mem_singleton.mp hmem]
      rcases (selectsExactly_iff hret hschema hright).mp (h [row] hret) with hnil | hsame
      · cases hnil
      · obtain ⟨pair, hpair, hall⟩ := hsame
        exact ⟨pair, hpair, hall row List.mem_cons_self⟩
    obtain ⟨pair, hpair, _⟩ := hrow _ (rowOf_fields schema fun _ => 0)
    refine ⟨pair, hpair, (equalIn_iff_tested hl hright hpair).mp ?_⟩
    intro row hfields
    obtain ⟨pair', hpair', hsame⟩ := hrow row hfields
    rw [hpair] at hpair'
    cases hpair'
    exact hsame
  · rintro ⟨pair, hpair, htested⟩ ret hret
    apply (selectsExactly_iff hret hschema hright).mpr
    right
    refine ⟨pair, hpair, ?_⟩
    intro row hrow
    exact (equalIn_iff_tested hl hright hpair).mpr htested row (hret row hrow)

def threeRows : List Record := [abRow 3 0, abRow 1 3, abRow 3 3]

theorem threeRows_abFields : OfSchema abFields threeRows := by
  unfold OfSchema
  decide

theorem abFields_names_a (tabName : Text) (h : tabName = [] ∨ tabName = ['t']) :
    Names abFields ⟨tabName, ['a']⟩ 0 := by
  rcases h with rfl | rfl <;> exact ⟨_, rfl, by decide⟩

/-- `WHERE t.a = 3` keeps the first and the last of three rows. -/
theorem where_qualified_eq_exact :
    SelectsExactly ⟨⟨['t'], ['a']⟩, .eq, .val (.intLit 3)⟩ 0 (.literal 3) threeRows := by
  have hleft := abFields_names_a ['t'] (.inr rfl)
  apply (selection_exact_iff hleft (.int 3)).2.mpr _ threeRows threeRows_abFields
  exact ⟨(0, .literal 3), by decide, .same 0 (.literal 3)⟩

/-- `WHERE t.a < 3` keeps the rows in which a is 3, and `WHERE a = 3` reads the cell before
the first one. -/
theorem where_less_keeps_equal :
    OfSchema abFields threeRows ∧ Names abFields ⟨['t'], ['a']⟩ 0 ∧ Names abFields ⟨[], ['a']⟩ 0 ∧
      execSelection ⟨⟨['t'], ['a']⟩, .lt, .val (.intLit 3)⟩ threeRows =
        some [abRow 3 0, abRow 3 3] ∧
      ¬ SelectsExactly ⟨⟨['t'], ['a']⟩, .lt, .val (.intLit 3)⟩ 0 (.literal 3) threeRows ∧
      execSelection ⟨⟨[], ['a']⟩, .eq, .val (.intLit 3)⟩ threeRows = none := by
  refine ⟨threeRows_abFields, abFields_names_a _ (.inr rfl), abFields_names_a _ (.inl rfl), ?_⟩
  unfold SelectsExactly
  decide

end Schemas

end RucDDBS
