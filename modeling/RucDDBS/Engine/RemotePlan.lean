import RucDDBS.Engine.Plan

/-!
The message that carries a plan to another node: `send_plan` builds it from a
chain of operators and `ConvertIntoPlan` builds a chain from it. A column on the
right of a condition is sent as a column, but the case that reads it back runs on
into the case for values and overwrites the condition with a comparison to the
value of a message that has none. A literal that is not an integer is sent as
whatever the allocated cell holds. A plan arrives unchanged exactly if all its
conditions compare with integer literals.
-/

namespace RucDDBS

namespace Session

/-- `Expr`: one of its two fields is set. -/
inductive Expr where
  | val (value : Int32)
  | col (tabName colName : Text)
  deriving DecidableEq

structure BinaryMessage where
  tabName : Text
  colName : Text
  op : Nat
  exp : Expr
  deriving DecidableEq

/-- The children are repeated fields of which the sender adds exactly one. -/
inductive ChildPlan where
  | notSet
  | seqScan (dbName tabName : Text) (parId : Nat) (child : ChildPlan)
  | filter (conds : BinaryMessage) (child : ChildPlan)
  | insert (dbName tabName : Text) (parId : Nat) (colName : List Text) (val : List Int32)
      (child : ChildPlan)
  | delete (dbName tabName : Text) (parId : Nat) (child : ChildPlan)
  | update (dbName tabName : Text) (parId : Nat) (setColIndex : List Nat) (setVal : List Int32)
      (child : ChildPlan)
  deriving DecidableEq

end Session

def dbName : Text := "RucDDBS".toList

namespace Ast.SvCompOp

/-- The number of an enumerator. -/
def number : SvCompOp → Nat
  | .eq => 0
  | .ne => 1
  | .lt => 2
  | .gt => 3
  | .le => 4
  | .ge => 5

def ofNumber : Nat → Option SvCompOp
  | 0 => some .eq
  | 1 => some .ne
  | 2 => some .lt
  | 3 => some .gt
  | 4 => some .le
  | 5 => some .ge
  | _ => none

@[simp] theorem ofNumber_number (op : SvCompOp) : ofNumber op.number = some op := by
  cases op <;> rfl

end Ast.SvCompOp

open Session

/-- The right side of a condition, as `send_plan` fills it in. -/
def sendExpr (fresh : Int32) : Ast.Expr → Session.Expr
  | .col x => .col x.tabName x.colName
  | .val x => .val (interpValue fresh x).str

def sendConds (fresh : Int32) (conds : Ast.BinaryExpr) : BinaryMessage where
  tabName := conds.lhs.tabName
  colName := conds.lhs.colName
  op := conds.op.number
  exp := sendExpr fresh conds.rhs

/-- `send_plan`. `fresh` is what the cells that `interp_value` allocates on the way
down the chain hold. -/
def sendPlan (fresh : Nat → Int32) : Chain → ChildPlan
  | [] => .notSet
  | .tablescan tabs par :: next => .seqScan dbName tabs par (sendPlan (fresh ∘ Nat.succ) next)
  | .insert tabName par record :: next =>
      .insert dbName tabName par (record.map Value.colName) (record.map Value.str)
        (sendPlan (fresh ∘ Nat.succ) next)
  | .update tabName par setColIndex setVal :: next =>
      .update dbName tabName par setColIndex (setVal.map Value.str)
        (sendPlan (fresh ∘ Nat.succ) next)
  | .delete tabName par :: next => .delete dbName tabName par (sendPlan (fresh ∘ Nat.succ) next)
  | .selection conds :: next =>
      .filter (sendConds (fresh 0) conds) (sendPlan (fresh ∘ Nat.succ) next)

/-- The right side as `ConvertIntoPlan` reads it. The case for a column has no
`break`, and the value of a message without one is 0. -/
def convertExpr : Session.Expr → Ast.Expr
  | .col _ _ => .val (.intLit 0)
  | .val value => .val (.intLit value)

def convertConds (exp : BinaryMessage) : Option Ast.BinaryExpr := do
  let op ← Ast.SvCompOp.ofNumber exp.op
  pure { lhs := ⟨exp.tabName, exp.colName⟩, op, rhs := convertExpr exp.exp }

/-- `ConvertIntoPlan`; `none` where it reads past the end of a repeated field. -/
def convertIntoPlan : ChildPlan → Option Chain
  | .notSet => some []
  | .seqScan _ tabName parId child => do
      let next ← convertIntoPlan child
      pure (.tablescan tabName parId :: next)
  | .filter conds child => do
      let conds ← convertConds conds
      let next ← convertIntoPlan child
      pure (.selection conds :: next)
  | .insert _ tabName parId colName val child =>
      if colName.length ≤ val.length then do
        let next ← convertIntoPlan child
        pure (.insert tabName parId (colName.zipWith (⟨·, tabName, ·⟩) val) :: next)
      else none
  | .delete _ tabName parId child => do
      let next ← convertIntoPlan child
      pure (.delete tabName parId :: next)
  | .update _ tabName parId setColIndex setVal child =>
      if setColIndex.length ≤ setVal.length then do
        let next ← convertIntoPlan child
        pure (.update tabName parId setColIndex
          ((setVal.take setColIndex.length).map ({ str := · })) :: next)
      else none

/-- The comparison is with an integer literal. -/
def Ast.BinaryExpr.OnInt (conds : Ast.BinaryExpr) : Prop := ∃ n, conds.rhs = .val (.intLit n)

/-- The condition that arrives at the other node. -/
def arriving (fresh : Int32) (conds : Ast.BinaryExpr) : Ast.BinaryExpr :=
  { conds with rhs := convertExpr (sendExpr fresh conds.rhs) }

/-- The operator that arrives at the other node. -/
def Operator.arriving (fresh : Int32) : Operator → Operator
  | .selection conds => .selection (RucDDBS.arriving fresh conds)
  | op => op

/-- The chain that arrives at the other node. -/
def arrivingChain (fresh : Nat → Int32) : Chain → Chain
  | [] => []
  | op :: next => op.arriving (fresh 0) :: arrivingChain (fresh ∘ Nat.succ) next

/-- The names that the message leaves out can be told from the rest. -/
def Operator.Plain : Operator → Prop
  | .insert tab _ record => ∀ cell ∈ record, cell.tabName = tab
  | .update _ _ cols vals => cols.length = vals.length ∧ ∀ cell ∈ vals, cell = { str := cell.str }
  | _ => True

theorem NodePlan.plain {plan : Chain} (h : NodePlan plan) : ∀ op ∈ plan, op.Plain := by
  have hbelow (tab : Text) (par : Nat) (conds : List Ast.BinaryExpr) :
      ∀ op ∈ conds.map Operator.selection ++ [.tablescan tab par], op.Plain := by
    intro op hop
    rcases List.mem_append.mp hop with hsel | hscan
    · obtain ⟨cond, _, rfl⟩ := List.mem_map.mp hsel
      trivial
    · rw [List.mem_singleton.mp hscan]
      trivial
  cases h with
  | scan tab par => exact hbelow tab par []
  | insert par hrow =>
      intro op hop
      rw [List.mem_singleton.mp hop]
      exact hrow
  | delete tab par conds =>
      intro op hop
      rcases List.mem_cons.mp hop with rfl | hrest
      · trivial
      · exact hbelow tab par conds op hrest
  | update tab par conds hlen hvals =>
      intro op hop
      rcases List.mem_cons.mp hop with rfl | hrest
      · exact ⟨hlen, hvals⟩
      · exact hbelow tab par conds op hrest

@[simp] theorem convertConds_sendConds (fresh : Int32) (conds : Ast.BinaryExpr) :
    convertConds (sendConds fresh conds) = some (arriving fresh conds) := by
  simp [convertConds, sendConds, arriving]

/-- A row is read back cell by cell. -/
theorem zipWith_names {tab : Text} {record : Record} (h : ∀ cell ∈ record, cell.tabName = tab) :
    (record.map Value.colName).zipWith (⟨·, tab, ·⟩) (record.map Value.str) = record := by
  induction record with
  | nil => rfl
  | cons cell rest ih =>
      have hcell := h cell List.mem_cons_self
      have hrest := ih fun cell hmem => h cell (List.mem_cons_of_mem _ hmem)
      rw [List.map_cons, List.map_cons, List.zipWith_cons_cons, hrest, ← hcell]

/-- What is sent is read back without error, and only the conditions may differ. -/
theorem convertIntoPlan_sendPlan (fresh : Nat → Int32) {plan : Chain}
    (h : ∀ op ∈ plan, op.Plain) :
    convertIntoPlan (sendPlan fresh plan) = some (arrivingChain fresh plan) := by
  induction plan generalizing fresh with
  | nil => rfl
  | cons op next ih =>
      have hnext := ih (fresh ∘ Nat.succ) fun op hop => h op (List.mem_cons_of_mem _ hop)
      have hplain := h op List.mem_cons_self
      cases op with
      | tablescan tab par => simp [sendPlan, convertIntoPlan, hnext, arrivingChain, Operator.arriving]
      | selection conds => simp [sendPlan, convertIntoPlan, hnext, arrivingChain, Operator.arriving]
      | delete tab par => simp [sendPlan, convertIntoPlan, hnext, arrivingChain, Operator.arriving]
      | insert tab par record =>
          have hrow := zipWith_names hplain
          simp [sendPlan, convertIntoPlan, hnext, arrivingChain, Operator.arriving, hrow]
      | update tab par cols vals =>
          obtain ⟨hlen, hvals⟩ := hplain
          have hcells : vals.map ((fun str => ({ str } : Value)) ∘ Value.str) = vals :=
            (List.map_congr_left fun cell hmem => (hvals cell hmem).symm).trans (List.map_id' vals)
          simp [sendPlan, convertIntoPlan, hnext, arrivingChain, Operator.arriving, hlen, hcells]

/-- What arrives always compares with an integer, so it is the condition that was
sent only if that one did. -/
theorem arriving_eq_iff (fresh : Int32) (conds : Ast.BinaryExpr) :
    arriving fresh conds = conds ↔ conds.OnInt := by
  obtain ⟨lhs, op, rhs⟩ := conds
  simp only [arriving, Ast.BinaryExpr.OnInt, Ast.BinaryExpr.mk.injEq, true_and]
  cases rhs with
  | col x => simp [sendExpr, convertExpr]
  | val x => cases x <;> simp [sendExpr, convertExpr, interpValue]

theorem arrivingChain_eq_iff (fresh : Nat → Int32) (plan : Chain) :
    arrivingChain fresh plan = plan ↔ ∀ conds, .selection conds ∈ plan → conds.OnInt := by
  induction plan generalizing fresh with
  | nil => simp [arrivingChain]
  | cons op next ih =>
      rw [arrivingChain, List.cons.injEq, ih]
      cases op with
      | selection conds => simp [Operator.arriving, arriving_eq_iff]
      | _ => simp [Operator.arriving]

/-- A node plan arrives unchanged exactly if all its conditions compare with
integer literals. -/
theorem arrives_unchanged_iff (fresh : Nat → Int32) {plan : Chain} (h : NodePlan plan) :
    convertIntoPlan (sendPlan fresh plan) = some plan ↔
      ∀ conds, .selection conds ∈ plan → conds.OnInt := by
  rw [convertIntoPlan_sendPlan fresh h.plain, Option.some.injEq, arrivingChain_eq_iff]

/-- `DELETE FROM t WHERE a = 5`, as it stands in a node plan. -/
theorem delete_where_int_arrives :
    let cond : Ast.BinaryExpr := ⟨⟨[], ['a']⟩, .eq, .val (.intLit 5)⟩
    convertIntoPlan (sendPlan (fun _ => 0)
      [.delete ['t'] 0, .selection cond, .tablescan ['t'] 0]) =
      some [.delete ['t'] 0, .selection cond, .tablescan ['t'] 0] := by
  intro cond
  apply (arrives_unchanged_iff (fun _ => 0) (.delete ['t'] 0 [cond])).mpr
  intro conds hmem
  have heq : conds = cond := by simpa using hmem
  exact ⟨5, by rw [heq]⟩

/-- `DELETE FROM t WHERE a = b` arrives as `DELETE FROM t WHERE a = 0`. -/
theorem delete_where_columns_differs :
    ¬ ∀ (fresh : Nat → Int32) (plan : Chain), NodePlan plan →
      convertIntoPlan (sendPlan fresh plan) = some plan := by
  intro hall
  let cond : Ast.BinaryExpr := ⟨⟨[], ['a']⟩, .eq, .col ⟨[], ['b']⟩⟩
  have hsent := hall (fun _ => 0) _ (.delete ['t'] 0 [cond])
  revert hsent
  decide

end RucDDBS
