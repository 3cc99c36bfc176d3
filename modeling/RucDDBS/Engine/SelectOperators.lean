import Mathlib.Algebra.BigOperators.Group.List.Basic
import Mathlib.Data.List.Forall2
import RucDDBS.Engine.Operators

/-!
The operators that stay on the node that received a select: the join of what the
tables return and the projection of the rows to the select list.

The join multiplies one table after the other. Its list of new rows is not
emptied between the rounds, so that from the third table on the rows of the
earlier rounds stay in the result. The projection goes through the cells of a row
and, for each of them, through the select list, so that its output is in the
order of the row.
-/

namespace RucDDBS

section Join

/-- Every row of `res` with every row of `tab` behind it. -/
def pairUp (res tab : List Record) : List Record :=
  res.flatMap fun row => tab.map fun row' => row ++ row'

/-- The loop of `op_join::exec_op` over the tables behind the first one. -/
def joinRounds (tmp res : List Record) : List (List Record) → List Record
  | [] => res
  | tab :: ret => joinRounds (tmp ++ pairUp res tab) (tmp ++ pairUp res tab) ret

/-- `op_join::exec_op`, given what the tables return. -/
def execJoin : List (List Record) → Option (List Record)
  | [] => none
  | first :: ret => some (joinRounds [] first ret)

/-- One row of each table, in every combination. -/
def combinations : List (List Record) → List Record
  | [] => [[]]
  | tab :: ret => tab.flatMap fun row => (combinations ret).map fun rest => row ++ rest

/-- All rows of each table have the width that is given for it. -/
def Widths (tables : List (List Record)) (widths : List Nat) : Prop :=
  List.Forall₂ (fun tab width => ∀ row ∈ tab, row.length = width) tables widths

/-- The result of a join: one row for each combination, and what follows from it for
the number of the rows and their width. -/
structure Joined (tables : List (List Record)) (res : List Record) : Prop where
  rows : res.Perm (combinations tables)
  size : res.length = (tables.map List.length).prod
  width : ∀ widths, Widths tables widths → ∀ row ∈ res, row.length = widths.sum

variable {first res tab : List Record} {tables ret : List (List Record)}

theorem pairUp_length (res tab : List Record) :
    (pairUp res tab).length = res.length * tab.length := by
  simp [pairUp, List.length_flatMap]

theorem combinations_length (tables : List (List Record)) :
    (combinations tables).length = (tables.map List.length).prod := by
  induction tables with
  | nil => rfl
  | cons tab ret ih => simp [combinations, List.length_flatMap, ih]

theorem combinations_width {widths : List Nat} (h : Widths tables widths) :
    ∀ row ∈ combinations tables, row.length = widths.sum := by
  induction h with
  | nil => simp [combinations]
  | @cons tab width ret widths htab _ ih =>
      intro row hrow
      obtain ⟨left, hleft, hrest⟩ := List.mem_flatMap.mp hrow
      obtain ⟨right, hright, rfl⟩ := List.mem_map.mp hrest
      rw [List.length_append, htab left hleft, ih right hright, List.sum_cons]

theorem joined_of_perm (h : res.Perm (combinations tables)) : Joined tables res where
  rows := h
  size := h.length_eq.trans (combinations_length tables)
  width := by
    intro widths hwidths row hrow
    exact combinations_width hwidths row (h.mem_iff.mp hrow)

/-- From the second round on, each table adds its rows to those that are there. -/
theorem joinRounds_length (res : List Record) (ret : List (List Record)) :
    (joinRounds res res ret).length = res.length * (ret.map fun tab => tab.length + 1).prod := by
  induction ret generalizing res with
  | nil => simp [joinRounds]
  | cons tab ret ih =>
      have hround : (res ++ pairUp res tab).length = res.length * (tab.length + 1) := by
        rw [List.length_append, pairUp_length, Nat.mul_add, Nat.mul_one, Nat.add_comm]
      rw [joinRounds, ih, hround, List.map_cons, List.prod_cons, Nat.mul_assoc]

theorem prod_lt_prod (tab : List Record) (ret : List (List Record)) :
    ((tab :: ret).map List.length).prod < ((tab :: ret).map fun tab => tab.length + 1).prod := by
  induction ret generalizing tab with
  | nil => simp
  | cons tab' ret ih =>
      have hrest := ih tab'
      have hpos : 0 < ((tab' :: ret).map fun tab => tab.length + 1).prod := by omega
      calc tab.length * ((tab' :: ret).map List.length).prod
          ≤ tab.length * ((tab' :: ret).map fun tab => tab.length + 1).prod :=
            Nat.mul_le_mul_left _ hrest.le
        _ < (tab.length + 1) * ((tab' :: ret).map fun tab => tab.length + 1).prod :=
            Nat.mul_lt_mul_of_pos_right (Nat.lt_succ_self _) hpos

/-- Without rows nothing is added. -/
theorem joinRounds_nil (ret : List (List Record)) : joinRounds [] [] ret = [] := by
  induction ret with
  | nil => rfl
  | cons tab ret ih => exact ih

/-- With three or more tables, rows of the earlier rounds are left over. -/
theorem joinRounds_not_perm {second third : List Record} (hfirst : first ≠ [])
    (hsecond : second ≠ []) :
    ¬ (joinRounds [] first (second :: third :: ret)).Perm
      (combinations (first :: second :: third :: ret)) := by
  intro h
  have hleft : (joinRounds [] first (second :: third :: ret)).length =
      first.length * second.length * ((third :: ret).map fun tab => tab.length + 1).prod := by
    rw [joinRounds, List.nil_append, joinRounds_length, pairUp_length]
  have hright : (combinations (first :: second :: third :: ret)).length =
      first.length * second.length * ((third :: ret).map List.length).prod := by
    rw [combinations_length, List.map_cons, List.prod_cons, List.map_cons, List.prod_cons,
      Nat.mul_assoc]
  have hlength := h.length_eq
  have hpos : 0 < first.length * second.length :=
    Nat.mul_pos (List.length_pos_of_ne_nil hfirst) (List.length_pos_of_ne_nil hsecond)
  have hless := Nat.mul_lt_mul_of_pos_left (prod_lt_prod third ret) hpos
  omega

/-- The join of one or more tables is their product if and only if there are at most
two of them, or one of the first two is empty. -/
theorem join_product_iff (first : List Record) (ret : List (List Record)) :
    (∃ res, execJoin (first :: ret) = some res ∧ Joined (first :: ret) res) ↔
      ret.length ≤ 1 ∨ first = [] ∨ ret.head? = some [] := by
  constructor
  · rintro ⟨res, hres, hjoined⟩
    cases hres
    match ret with
    | [] => exact .inl (Nat.zero_le 1)
    | [_] => exact .inl (Nat.le_refl 1)
    | second :: third :: rest =>
        right
        by_contra hnot
        rw [not_or] at hnot
        have hsecond : second ≠ [] := by
          rintro rfl
          exact hnot.2 rfl
        exact joinRounds_not_perm hnot.1 hsecond hjoined.rows
  · intro h
    refine ⟨_, rfl, joined_of_perm ?_⟩
    rcases h with hfew | rfl | hempty
    · match ret with
      | [] => simp [joinRounds, combinations]
      | [second] => simp [joinRounds, combinations, pairUp]
      | _ :: _ :: _ => simp at hfew
    · have hnone : joinRounds [] [] ret = [] := joinRounds_nil ret
      rw [hnone]
      exact .refl _
    · obtain ⟨rest, rfl⟩ := List.head?_eq_some_iff.mp hempty
      have hpair : pairUp first [] = [] := by simp [pairUp]
      rw [joinRounds, hpair, List.append_nil, joinRounds_nil]
      simp [combinations]

def oneRow (tabName : Text) : List Record := [[⟨['a'], tabName, 1⟩]]

/-- Of three tables with one row each the join makes two rows, the first of them
without a cell of the third table. -/
theorem join_of_three_keeps_pairs :
    execJoin [oneRow ['r'], oneRow ['s'], oneRow ['t']] =
        some [[⟨['a'], ['r'], 1⟩, ⟨['a'], ['s'], 1⟩],
          [⟨['a'], ['r'], 1⟩, ⟨['a'], ['s'], 1⟩, ⟨['a'], ['t'], 1⟩]] ∧
      ¬ ∃ res, execJoin [oneRow ['r'], oneRow ['s'], oneRow ['t']] = some res ∧
        Joined [oneRow ['r'], oneRow ['s'], oneRow ['t']] res := by
  refine ⟨rfl, ?_⟩
  rintro ⟨res, hres, hjoined⟩
  cases hres
  exact absurd hjoined.size (by decide)

end Join

section Projection

/-- The names of a cell, as a qualified column. -/
def Value.field (cell : Value) : Ast.Col := ⟨cell.tabName, cell.colName⟩

def Record.fields (row : Record) : List Ast.Col := row.map Value.field

/-- The test of the inner loop. A column without a table stands for that of any table. -/
def Ast.Col.means (col field : Ast.Col) : Bool :=
  field.colName = col.colName && (col.tabName = [] || col.tabName = field.tabName)

/-- The column of the select list is one field of the schema. -/
def Ast.Col.Single (col : Ast.Col) (schema : List Ast.Col) : Prop := schema.countP col.means = 1

/-- The row that the two nested loops of the projection build from one row. -/
def project (cols : List Ast.Col) (row : Record) : Record :=
  row.flatMap fun cell => (cols.filter fun col => col.means cell.field).map fun _ => cell

/-- `op_projection::exec_op`, given what the operator below it returns. -/
def execProjection (cols : List Ast.Col) (ret : List Record) : List Record := ret.map (project cols)

/-- One value for each entry of the select list, in its order. -/
def Projected (cols : List Ast.Col) (row out : Record) : Prop :=
  List.Forall₂ (fun col cell => cell ∈ row ∧ col.means cell.field) cols out

/-- No column of the select list comes before one that stands further to the left in the
schema. -/
def InOrder (schema cols : List Ast.Col) : Prop :=
  cols.Pairwise fun col col' => schema.findIdx col.means ≤ schema.findIdx col'.means

/-- A select list that asks for one cell at first and no more afterwards. -/
structure Parted (cell : Value) (front back : List Ast.Col) : Prop where
  front : ∀ col ∈ front, col.means cell.field
  back : ∀ col ∈ back, ¬ col.means cell.field

variable {cols front back : List Ast.Col} {cell : Value} {row out : Record}

theorem none_left_of_single {col : Ast.Col} (h : col.Single (Record.fields (cell :: row)))
    (hmeans : col.means cell.field) : ∀ other ∈ row, ¬ col.means other.field := by
  rw [Ast.Col.Single, Record.fields, List.map_cons, List.countP_cons_of_pos hmeans] at h
  have hnone : (row.map Value.field).countP col.means = 0 := by omega
  intro other hother
  exact List.countP_eq_zero.mp hnone _ (List.mem_map_of_mem hother)

theorem single_of_not_means {col : Ast.Col} (h : col.Single (Record.fields (cell :: row)))
    (hmeans : ¬ col.means cell.field) : col.Single (Record.fields row) := by
  rwa [Ast.Col.Single, Record.fields, List.map_cons, List.countP_cons_of_neg hmeans] at h

/-- The outer loop copies the cell once for each entry in front. -/
theorem Parted.project (h : Parted cell front back)
    (hsingle : ∀ col ∈ front, col.Single (Record.fields (cell :: row))) :
    project (front ++ back) (cell :: row) = front.map (fun _ => cell) ++ project back row := by
  have hcell : (front ++ back).filter (fun col => col.means cell.field) = front := by
    rw [List.filter_append, List.filter_eq_self.mpr h.front, List.filter_eq_nil_iff.mpr h.back,
      List.append_nil]
  have hrow : RucDDBS.project (front ++ back) row = RucDDBS.project back row := by
    apply List.flatMap_congr
    intro other hother
    have hfront : front.filter (fun col => col.means other.field) = [] := by
      apply List.filter_eq_nil_iff.mpr
      intro col hcol
      exact none_left_of_single (hsingle col hcol) (h.front col hcol) other hother
    rw [List.filter_append, hfront, List.nil_append]
  rw [RucDDBS.project, List.flatMap_cons, hcell]
  exact congrArg _ hrow

theorem Parted.projected (h : Parted cell front back) :
    Projected (front ++ back) (cell :: row) (front.map (fun _ => cell) ++ out) ↔
      Projected back row out := by
  constructor
  · intro hall
    have hdrop := List.forall₂_drop_append _ _ _ hall
    rw [List.length_map, List.drop_left] at hdrop
    have hback := (List.forall₂_and_left _ _).mpr ⟨h.back, hdrop⟩
    apply hback.imp
    rintro col other ⟨hnot, hmem, hmeans⟩
    rcases List.mem_cons.mp hmem with rfl | hrow
    · exact absurd hmeans hnot
    · exact ⟨hrow, hmeans⟩
  · intro hback
    apply List.rel_append
    · apply List.forall₂_map_right_iff.mpr
      apply List.forall₂_same.mpr
      intro col hcol
      exact ⟨List.mem_cons_self, h.front col hcol⟩
    · apply List.Forall₂.imp _ hback
      rintro col other ⟨hmem, hmeans⟩
      exact ⟨List.mem_cons_of_mem _ hmem, hmeans⟩

theorem Parted.inOrder (h : Parted cell front back) :
    InOrder (Record.fields (cell :: row)) (front ++ back) ↔ InOrder (Record.fields row) back := by
  have hzero {col : Ast.Col} (hcol : col ∈ front) :
      (Record.fields (cell :: row)).findIdx col.means = 0 := by
    simp [Record.fields, List.findIdx_cons, h.front col hcol]
  have hsucc {col : Ast.Col} (hcol : col ∈ back) :
      (Record.fields (cell :: row)).findIdx col.means =
        (Record.fields row).findIdx col.means + 1 := by
    simp [Record.fields, List.findIdx_cons, h.back col hcol]
  constructor
  · intro hall
    have hback := (List.pairwise_append.mp hall).2.1
    apply hback.imp_of_mem
    intro col col' hcol hcol' hle
    rw [hsucc hcol, hsucc hcol'] at hle
    omega
  · intro hback
    apply List.pairwise_append.mpr
    refine ⟨?_, ?_, ?_⟩
    · apply List.pairwise_of_forall_mem_list
      intro col hcol col' _
      rw [hzero hcol]
      exact Nat.zero_le _
    · apply hback.imp_of_mem
      intro col col' hcol hcol' hle
      rw [hsucc hcol, hsucc hcol']
      omega
    · intro col hcol col' _
      rw [hzero hcol]
      exact Nat.zero_le _

/-- What the projection returns begins with the copies of the first cell, so that a select
list it answers in order begins with the entries for that cell. -/
theorem parted_of_projected (h : Projected cols (cell :: row) (project cols (cell :: row))) :
    ∃ front back, cols = front ++ back ∧ Parted cell front back := by
  let copies := (cols.filter fun col => col.means cell.field).map fun _ => cell
  have hcopies : Projected cols (cell :: row) (copies ++ project cols row) := h
  have htake := List.forall₂_take_append _ _ _ hcopies
  have hfront : ∀ col ∈ cols.take copies.length, col.means cell.field := by
    have hmeans := List.forall₂_map_right_iff.mp htake
    have hall : List.Forall₂ (fun (col _ : Ast.Col) => col.means cell.field ∧ True)
        (cols.take copies.length) (cols.filter fun col => col.means cell.field) :=
      hmeans.imp fun _ _ hpair => ⟨hpair.2, trivial⟩
    exact ((List.forall₂_and_left _ _).mp hall).1
  refine ⟨cols.take copies.length, cols.drop copies.length, (List.take_append_drop _ _).symm,
    hfront, ?_⟩
  -- the entries in front are as many as there are entries for the cell
  apply List.countP_eq_zero.mp
  have hall := List.countP_eq_length.mpr hfront
  have hlength := htake.length_eq
  have hcount : cols.countP (fun col => col.means cell.field) = copies.length := by
    rw [List.length_map, List.countP_eq_length_filter]
  rw [← List.take_append_drop copies.length cols, List.countP_append, hall, hlength] at hcount
  omega

theorem parted_of_inOrder (h : InOrder (Record.fields (cell :: row)) cols) :
    ∃ front back, cols = front ++ back ∧ Parted cell front back := by
  refine ⟨cols.takeWhile fun col => col.means cell.field,
    cols.dropWhile fun col => col.means cell.field, List.takeWhile_append_dropWhile.symm, ?_, ?_⟩
  · intro col hcol
    exact List.mem_takeWhile_imp (p := fun col : Ast.Col => col.means cell.field) hcol
  · have hfirst := List.head?_dropWhile_not (fun col : Ast.Col => col.means cell.field) cols
    have hparts : cols.takeWhile (fun col => col.means cell.field) ++
        cols.dropWhile (fun col => col.means cell.field) = cols := List.takeWhile_append_dropWhile
    rw [InOrder, ← hparts] at h
    have hback := (List.pairwise_append.mp h).2.1
    generalize cols.dropWhile (fun col => col.means cell.field) = back at hfirst hback
    intro col hcol hmeans
    cases back with
    | nil => cases hcol
    | cons first back =>
        have hnot : first.means cell.field = false := by simpa using hfirst
        rcases List.mem_cons.mp hcol with rfl | hlater
        · rw [hnot] at hmeans
          cases hmeans
        · have hle := List.rel_of_pairwise_cons hback hlater
          simp [Record.fields, List.findIdx_cons, hnot, hmeans] at hle

/-- A row comes out in the order of the select list if that is the order of the schema. -/
theorem project_in_order_iff (row : Record) (hcols : ∀ col ∈ cols, col.Single row.fields) :
    Projected cols row (project cols row) ↔ InOrder row.fields cols := by
  induction row generalizing cols with
  | nil =>
      cases cols with
      | nil => exact iff_of_true .nil .nil
      | cons col _ => cases hcols col List.mem_cons_self
  | cons cell row ih =>
      have hparts (front back : List Ast.Col) (hsplit : cols = front ++ back)
          (hparted : Parted cell front back) : Projected cols (cell :: row)
            (project cols (cell :: row)) ↔ InOrder (Record.fields (cell :: row)) cols := by
        subst hsplit
        have hback : ∀ col ∈ back, col.Single (Record.fields row) := by
          intro col hcol
          have hsingle := hcols col (List.mem_append_right _ hcol)
          exact single_of_not_means hsingle (hparted.back col hcol)
        have hfront : ∀ col ∈ front, col.Single (Record.fields (cell :: row)) := by
          intro col hcol
          exact hcols col (List.mem_append_left _ hcol)
        rw [hparted.project hfront, hparted.projected, hparted.inOrder]
        exact ih hback
      constructor
      · intro h
        obtain ⟨front, back, hsplit, hparted⟩ := parted_of_projected h
        exact (hparts front back hsplit hparted).mp h
      · intro h
        obtain ⟨front, back, hsplit, hparted⟩ := parted_of_inOrder h
        exact (hparts front back hsplit hparted).mpr h

/-- For rows of one schema and a select list of which each entry is one field of it, the
projection follows the select list if and only if there are no rows or the select list
has the order of the schema. -/
theorem projection_in_order_iff {schema : List Ast.Col} {ret : List Record}
    (hrows : ∀ row ∈ ret, row.fields = schema) (hcols : ∀ col ∈ cols, col.Single schema) :
    List.Forall₂ (Projected cols) ret (execProjection cols ret) ↔
      ret = [] ∨ InOrder schema cols := by
  rw [execProjection, List.forall₂_map_right_iff, List.forall₂_same]
  constructor
  · intro h
    cases ret with
    | nil => exact .inl rfl
    | cons row _ =>
        right
        have hrow := hrows row List.mem_cons_self
        rw [← hrow] at hcols ⊢
        exact (project_in_order_iff row hcols).mp (h row List.mem_cons_self)
  · rintro (rfl | h) row hmem
    · cases hmem
    · have hrow := hrows row hmem
      rw [← hrow] at hcols h
      exact (project_in_order_iff row hcols).mpr h

def abRow (a b : Int32) : Record := [⟨['a'], ['t'], a⟩, ⟨['b'], ['t'], b⟩]

def abFields : List Ast.Col := [⟨['t'], ['a']⟩, ⟨['t'], ['b']⟩]

/-- `SELECT a, a, t.b` of a table with the columns a and b. -/
theorem select_a_a_b_in_order :
    List.Forall₂ (Projected [⟨[], ['a']⟩, ⟨[], ['a']⟩, ⟨['t'], ['b']⟩]) [abRow 1 2]
      (execProjection [⟨[], ['a']⟩, ⟨[], ['a']⟩, ⟨['t'], ['b']⟩] [abRow 1 2]) := by
  have hrows : ∀ row ∈ [abRow 1 2], row.fields = abFields := by decide
  apply (projection_in_order_iff hrows _).mpr
  · right
    unfold InOrder
    decide
  · unfold Ast.Col.Single
    decide

/-- `SELECT b, a` of the same table returns a before b. -/
theorem select_b_a_returns_a_b :
    (∀ row ∈ [abRow 1 2], row.fields = abFields) ∧
      (∀ col ∈ [⟨[], ['b']⟩, ⟨[], ['a']⟩], Ast.Col.Single col abFields) ∧
      execProjection [⟨[], ['b']⟩, ⟨[], ['a']⟩] [abRow 1 2] = [abRow 1 2] ∧
      ¬ List.Forall₂ (Projected [⟨[], ['b']⟩, ⟨[], ['a']⟩]) [abRow 1 2]
        (execProjection [⟨[], ['b']⟩, ⟨[], ['a']⟩] [abRow 1 2]) := by
  refine ⟨by decide, ?_, by decide, ?_⟩
  · unfold Ast.Col.Single
    decide
  · intro h
    have hrow := (List.forall₂_cons.mp h).1
    have hcell := (List.forall₂_cons.mp hrow).1
    exact absurd hcell.2 (by decide)

end Projection

end RucDDBS
