import Mathlib.Logic.Function.Basic
import RucDDBS.Engine.SelectionRows
import RucDDBS.Library.Sharding
import RucDDBS.Parser.Ast

/-!
What the SQL statements are for: a database has tables, a table has rows of integers, each
under the value of its first column, and a statement changes the rows of a table or asks for
rows that meet conditions. There are no partitions here, no nodes and no texts. An UPDATE of
the first column and an INSERT of another width have no meaning here.
-/

namespace RucDDBS

namespace Relational

open Sharding

section Rows

variable (schema : List Ast.Col) (row : List Int32)

def valueOf (col : Ast.Col) : Option Int32 := row[schema.findIdx col.means]?

def operand : Ast.Expr → Option Int32
  | .col col => valueOf schema row col
  | .val (.intLit n) => some n
  | .val _ => none

/-- A comparison with something that has no value is not true. -/
def holds (cond : Ast.BinaryExpr) : Bool :=
  match valueOf schema row cond.lhs, operand schema row cond.rhs with
  | some x, some y => cond.op.holds x y
  | _, _ => false

def meets (conds : List Ast.BinaryExpr) : Bool := conds.all (holds schema row)

/-- The values of a select list; the empty one stands for all columns. -/
def chosen (cols : List Ast.Col) : List Int32 :=
  if cols = [] then row else cols.filterMap (valueOf schema row)

end Rows

section Clauses

variable (columns : List Text)

def assign (row : List Int32) (clause : Ast.SetClause) : List Int32 :=
  match clause.val with
  | .intLit n => columns.zipWith (fun name v => if name = clause.colName then n else v) row
  | _ => row

/-- One clause after the other. -/
def assignAll (clauses : List Ast.SetClause) (row : List Int32) : List Int32 :=
  clauses.foldl (assign columns) row

variable {columns} {row : List Int32}

theorem assign_length (clause : Ast.SetClause) (hrow : row.length = columns.length) :
    (assign columns row clause).length = columns.length := by
  rw [assign]
  split
  · rw [List.length_zipWith, hrow, Nat.min_self]
  · exact hrow

theorem assign_head {clause : Ast.SetClause} (hclause : columns.head? ≠ some clause.colName)
    (hrow : row.length = columns.length) : (assign columns row clause).head? = row.head? := by
  rw [assign]
  split
  · cases columns with
    | nil => rw [List.eq_nil_of_length_eq_zero hrow, List.zipWith_nil_left]
    | cons name columns =>
        cases row with
        | nil => rfl
        | cons v row =>
            have hne : name ≠ clause.colName := fun heq => hclause (congrArg some heq)
            rw [List.zipWith_cons_cons, if_neg hne, List.head?_cons, List.head?_cons]
  · rfl

theorem assignAll_keeps {clauses : List Ast.SetClause}
    (hclauses : ∀ clause ∈ clauses, columns.head? ≠ some clause.colName)
    (hrow : row.length = columns.length) :
    (assignAll columns clauses row).head? = row.head? ∧
      (assignAll columns clauses row).length = columns.length := by
  induction clauses generalizing row with
  | nil => exact ⟨rfl, hrow⟩
  | cons clause clauses ih =>
      obtain ⟨hclause, hrest⟩ := List.forall_mem_cons.mp hclauses
      obtain ⟨hhead, hlength⟩ := ih hrest (assign_length clause hrow)
      rw [assign_head hclause hrow] at hhead
      exact ⟨hhead, hlength⟩

end Clauses

section Tables

/-- Every row is kept under its first value. -/
structure Table where
  columns : List Text
  rows : Int32 → Option (List Int32)
  keyed : ∀ key row, rows key = some row → row.head? = some key ∧ row.length = columns.length

namespace Table

def empty (columns : List Text) : Table := ⟨columns, fun _ => none, nofun⟩

variable (t : Table)

/-- The columns, as they are called in a statement about several tables. -/
def schema (tabName : Text) : List Ast.Col := t.columns.map fun name => ⟨tabName, name⟩

/-- The row replaces the one with its key. -/
def insert (key : Int32) (rest : List Int32) (h : (key :: rest).length = t.columns.length) :
    Table where
  columns := t.columns
  rows := Function.update t.rows key (some (key :: rest))
  keyed := by
    intro key' row hrow
    by_cases heq : key' = key
    · subst heq
      rw [Function.update_self, Option.some.injEq] at hrow
      subst hrow
      exact ⟨rfl, h⟩
    · rw [Function.update_of_ne heq] at hrow
      exact t.keyed key' row hrow

def delete (p : List Int32 → Bool) : Table where
  columns := t.columns
  rows key := (t.rows key).bind fun row => if p row then none else some row
  keyed := by
    intro key row hrow
    obtain ⟨row', hrow', hkept⟩ := Option.bind_eq_some_iff.mp hrow
    split at hkept
    · cases hkept
    · rw [Option.some.injEq] at hkept
      subst hkept
      exact t.keyed key row' hrow'

def update (p : List Int32 → Bool) (clauses : List Ast.SetClause)
    (h : ∀ clause ∈ clauses, t.columns.head? ≠ some clause.colName) : Table where
  columns := t.columns
  rows key := (t.rows key).bind fun row =>
    some (if p row then assignAll t.columns clauses row else row)
  keyed := by
    intro key row hrow
    obtain ⟨row', hrow', hchanged⟩ := Option.bind_eq_some_iff.mp hrow
    obtain ⟨hhead, hlength⟩ := t.keyed key row' hrow'
    rw [Option.some.injEq] at hchanged
    subst hchanged
    split
    · obtain ⟨hsame, hwidth⟩ := assignAll_keeps h hlength
      exact ⟨hsame.trans hhead, hwidth⟩
    · exact ⟨hhead, hlength⟩

end Table

end Tables

section Databases

abbrev Database := Text → Option Table

/-- The values of an INSERT, if all of them are integers. -/
def integers (vals : List Ast.Value) : Option (List Int32) :=
  vals.mapM fun
    | .intLit n => some n
    | _ => none

def setTable (db : Database) (tabName : Text) (t : Table) : Database :=
  Function.update db tabName (some t)

def apply (db : Database) : Ast.TreeNode → Database
  | .createTable tabName fields _ =>
      if db tabName = none then setTable db tabName (.empty (fields.map Ast.Field.colName)) else db
  | .insert x =>
      match db x.tabName, integers x.vals with
      | some t, some (key :: rest) =>
          if h : (key :: rest).length = t.columns.length then
            setTable db x.tabName (t.insert key rest h)
          else db
      | _, _ => db
  | .delete x =>
      match db x.tabName with
      | some t => setTable db x.tabName (t.delete fun row => meets (t.schema x.tabName) row x.conds)
      | none => db
  | .update x =>
      match db x.tabName with
      | some t =>
          if h : ∀ clause ∈ x.setClauses, t.columns.head? ≠ some clause.colName then
            setTable db x.tabName
              (t.update (fun row => meets (t.schema x.tabName) row x.conds) x.setClauses h)
          else db
      | none => db
  | _ => db

section Applied

variable {db : Database} {tabName : Text} {t : Table}

theorem apply_createTable (h : db tabName = none) (fields : List Ast.Field)
    (parOpt : Option Ast.ParOpt) :
    apply db (.createTable tabName fields parOpt) =
      setTable db tabName (.empty (fields.map Ast.Field.colName)) :=
  if_pos h

theorem integers_intLit (row : List Int32) : integers (row.map .intLit) = some row := by
  induction row with
  | nil => rfl
  | cons n row ih =>
      rw [integers] at ih
      rw [integers, List.map_cons, List.mapM_cons, ih]
      rfl

theorem apply_insert (h : db tabName = some t) {key : Int32} {rest : List Int32}
    (hrow : (key :: rest).length = t.columns.length) :
    apply db (.insert ⟨tabName, (key :: rest).map .intLit⟩) =
      setTable db tabName (t.insert key rest hrow) := by
  rw [apply, h, integers_intLit]
  exact dif_pos hrow

theorem apply_delete (h : db tabName = some t) (conds : List Ast.BinaryExpr) :
    apply db (.delete ⟨tabName, conds⟩) =
      setTable db tabName (t.delete fun row => meets (t.schema tabName) row conds) := by
  rw [apply, h]

theorem apply_update (h : db tabName = some t) {clauses : List Ast.SetClause}
    (hfirst : ∀ clause ∈ clauses, t.columns.head? ≠ some clause.colName)
    (conds : List Ast.BinaryExpr) :
    apply db (.update ⟨tabName, clauses, conds⟩) = setTable db tabName
      (t.update (fun row => meets (t.schema tabName) row conds) clauses hfirst) := by
  rw [apply, h]
  exact dif_pos hfirst

end Applied

/-- The rows of some tables in all combinations, with their schema. -/
inductive Scanned (db : Database) : List Text → List Ast.Col → List (List Int32) → Prop
  | nil : Scanned db [] [] [[]]
  | cons {tab : Text} {t : Table} {l : List (Int32 × List Int32)} {tabs : List Text}
      {schema : List Ast.Col} {rows : List (List Int32)} : db tab = some t → Listing t.rows l →
      Scanned db tabs schema rows →
      Scanned db (tab :: tabs) (t.schema tab ++ schema) (l.flatMap fun e => rows.map (e.2 ++ ·))

/-- What a SELECT asks for, with the names of its columns. -/
def Selected (db : Database) (x : Ast.SelectStmt) (names : List Text) (res : List (List Int32)) :
    Prop :=
  ∃ schema rows, Scanned db x.tabs schema rows ∧
    names = (if x.cols = [] then schema else x.cols).map Ast.Col.colName ∧
    res = (rows.filter fun row => meets schema row x.conds).map fun row => chosen schema row x.cols

variable {db : Database} {tabs : List Text} {schema schema' : List Ast.Col}
  {rows rows' res res' : List (List Int32)} {x : Ast.SelectStmt} {names names' : List Text}

theorem Scanned.unique (h : Scanned db tabs schema rows) (h' : Scanned db tabs schema' rows') :
    schema = schema' ∧ rows.Perm rows' := by
  induction h generalizing schema' rows' with
  | nil =>
      cases h'
      exact ⟨rfl, .refl _⟩
  | cons htable hlist _ ih =>
      cases h' with
      | cons htable' hlist' hrest' =>
          rw [htable, Option.some.injEq] at htable'
          subst htable'
          obtain ⟨rfl, hperm⟩ := ih hrest'
          refine ⟨rfl, ?_⟩
          exact ((hlist.perm hlist').flatMap_right _).trans
            (List.Perm.flatMap_left _ fun e _ => hperm.map _)

/-- Two answers to a SELECT have the same names and the same rows, each as often. -/
theorem Selected.perm (h : Selected db x names res) (h' : Selected db x names' res') :
    names = names' ∧ res.Perm res' := by
  obtain ⟨schema, rows, hscan, rfl, rfl⟩ := h
  obtain ⟨schema', rows', hscan', rfl, rfl⟩ := h'
  obtain ⟨rfl, hperm⟩ := hscan.unique hscan'
  exact ⟨rfl, (hperm.filter _).map _⟩

end Databases

end Relational

end RucDDBS
