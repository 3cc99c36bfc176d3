import RucDDBS.Engine.RemotePlan

/-!
The plan messages that can arrive over the network, which are more than those that
`send_plan` builds: a plan has one of ten cases or none, any number of children,
and no part of it has to be there. The loop of `ConvertIntoPlan` follows the first
child. In five of the cases it takes that child without asking whether there is
one, and in the other five it leaves the switch without advancing.
-/

namespace RucDDBS

namespace Wire

/-- `Expr`; nothing may be set. -/
inductive Expr where
  | notSet
  | val (value : Int32)
  | col (tabName colName : Text)
  deriving DecidableEq

/-- A message that is not there reads as one without any of its fields. -/
structure BinaryMessage where
  tabName : Text := []
  colName : Text := []
  op : Int32 := 0
  exp : Expr := .notSet
  deriving DecidableEq

/-- `ChildPlan`, with the plan of the case that is set. The child of a `RemotePlan` that has
none reads as a plan without a case. -/
inductive ChildPlan where
  | notSet
  | seqScan (dbName tabName : Text) (parId : Int32) (child : List ChildPlan)
  | filter (conds : BinaryMessage) (child : List ChildPlan)
  | project (tabName : Text) (colName : List Text) (child : List ChildPlan)
  | insert (dbName tabName : Text) (parId : Int32) (colName : List Text) (val : List Int32)
      (child : List ChildPlan)
  | delete (dbName tabName : Text) (parId : Int32) (child : List ChildPlan)
  | update (dbName tabName : Text) (parId : Int32) (setColIndex setVal : List Int32)
      (child : List ChildPlan)
  | nestedLoopJoin (joinType : Int32) (child : List ChildPlan)
  | value (value : List Text)
  | tableGet (dbName tabName : Text) (parId : Int32) (key : Text) (child : List ChildPlan)
  | distributed (nodes : List (Text × Int32)) (plans : List ChildPlan)

namespace ChildPlan

mutual

/-- The plans that a message contains, those without a case left out. -/
def nodes : ChildPlan → Nat
  | .notSet => 0
  | .seqScan _ _ _ child => nodesOf child + 1
  | .filter _ child => nodesOf child + 1
  | .project _ _ child => nodesOf child + 1
  | .insert _ _ _ _ _ child => nodesOf child + 1
  | .delete _ _ _ child => nodesOf child + 1
  | .update _ _ _ _ _ child => nodesOf child + 1
  | .nestedLoopJoin _ child => nodesOf child + 1
  | .value _ => 1
  | .tableGet _ _ _ _ child => nodesOf child + 1
  | .distributed _ plans => nodesOf plans + 1

def nodesOf : List ChildPlan → Nat
  | [] => 0
  | plan :: plans => nodes plan + nodesOf plans

end

/-- The case is one of those that the switch has. -/
def known : ChildPlan → Bool
  | .seqScan .. | .filter .. | .insert .. | .delete .. | .update .. => true
  | _ => false

/-- The children of a plan whose case the switch has. -/
def child : ChildPlan → List ChildPlan
  | .seqScan _ _ _ child => child
  | .filter _ child => child
  | .insert _ _ _ _ _ child => child
  | .delete _ _ _ child => child
  | .update _ _ _ _ _ child => child
  | _ => []

/-- From the first plan on, each plan is of a case that the switch has and has a child,
until one has no case. -/
inductive Followable : ChildPlan → Prop
  | notSet : Followable .notSet
  | child {plan next : ChildPlan} :
      plan.known → plan.child.head? = some next → Followable next → Followable plan

end ChildPlan

end Wire

/-- A condition as it is read from a message, with the number of its operator. -/
structure ReceivedConds where
  lhs : Ast.Col
  op : Int32
  rhs : Ast.Expr
  deriving DecidableEq

/-- An operator as it is built from a message; a selection may lack its condition. -/
inductive Received where
  | tablescan (tabs : Text) (par : Int32)
  | selection (conds : Option ReceivedConds)
  | insert (tabName : Text) (par : Int32) (record : Record)
  | delete (tabName : Text) (par : Int32)
  | update (tabName : Text) (par : Int32) (setColIndex : List Int32) (setVal : List Value)
  deriving DecidableEq

open Wire (ChildPlan)

section Decoding

/-- The right side of a condition. The case for a column runs on into the one for a
value, and the value of a message without one is 0. -/
def decodeExpr : Wire.Expr → Option Ast.Expr
  | .notSet => none
  | .val value => some (.val (.intLit value))
  | .col _ _ => some (.val (.intLit 0))

def decodeConds (exp : Wire.BinaryMessage) : Option ReceivedConds :=
  (decodeExpr exp.exp).map fun rhs => { lhs := ⟨exp.tabName, exp.colName⟩, op := exp.op, rhs }

/-- An element of a repeated field; behind its end lies `beyond`. -/
def valueOf (beyond : Nat → Int32) (vals : List Int32) (i : Nat) : Int32 := vals[i]?.getD (beyond i)

/-- The operator that the switch builds for a plan. -/
def decode (beyond : Nat → Int32) : ChildPlan → Option Received
  | .seqScan _ tabName parId _ => some (.tablescan tabName parId)
  | .filter conds _ => some (.selection (decodeConds conds))
  | .insert _ tabName parId colName val _ =>
      some (.insert tabName parId
        (colName.mapIdx fun i colName => ⟨colName, tabName, valueOf beyond val i⟩))
  | .delete _ tabName parId _ => some (.delete tabName parId)
  | .update _ tabName parId setColIndex setVal _ =>
      some (.update tabName parId setColIndex
        (setColIndex.mapIdx fun i _ => { str := valueOf beyond setVal i }))
  | _ => none

/-- Where the loop is after some rounds. -/
inductive Outcome where
  | done (operators : List Received)
  | missingChild
  | running
  deriving DecidableEq

/-- `ConvertIntoPlan`, for at most the given number of rounds. -/
def convertLoop (beyond : Nat → Nat → Int32) : Nat → ChildPlan → List Received → Outcome
  | _, .notSet, operators => .done operators
  | 0, _, _ => .running
  | rounds + 1, plan, operators =>
      match decode (beyond operators.length) plan with
      | none => convertLoop beyond rounds plan operators
      | some op =>
          match plan.child with
          | [] => .missingChild
          | next :: _ => convertLoop beyond rounds next (operators ++ [op])

/-- The loop ends after as many rounds as the message has plans, at the latest, and
takes no child that is not there. -/
def Converts (beyond : Nat → Nat → Int32) (plan : ChildPlan) : Prop :=
  ∃ rounds operators, rounds ≤ plan.nodes ∧ convertLoop beyond rounds plan [] = .done operators

variable {beyond : Nat → Nat → Int32} {plan next : ChildPlan} {operators : List Received}

theorem Wire.ChildPlan.nodes_le_nodesOf {plans : List ChildPlan} (h : plans.head? = some next) :
    next.nodes ≤ nodesOf plans := by
  obtain ⟨rest, rfl⟩ := List.head?_eq_some_iff.mp h
  rw [nodesOf]
  exact Nat.le_add_right _ _

/-- Each plan is one more than its first child contains. -/
theorem Wire.ChildPlan.nodes_child_lt (h : plan.child.head? = some next) :
    next.nodes < plan.nodes := by
  cases plan with
  | seqScan _ _ _ child => exact Nat.lt_succ_of_le (nodes_le_nodesOf h)
  | filter _ child => exact Nat.lt_succ_of_le (nodes_le_nodesOf h)
  | insert _ _ _ _ _ child => exact Nat.lt_succ_of_le (nodes_le_nodesOf h)
  | delete _ _ _ child => exact Nat.lt_succ_of_le (nodes_le_nodesOf h)
  | update _ _ _ _ _ child => exact Nat.lt_succ_of_le (nodes_le_nodesOf h)
  | notSet => cases h
  | project _ _ _ => cases h
  | nestedLoopJoin _ _ => cases h
  | value _ => cases h
  | tableGet _ _ _ _ _ => cases h
  | distributed _ _ => cases h

theorem decode_isSome (beyond : Nat → Int32) (plan : ChildPlan) :
    (decode beyond plan).isSome = plan.known := by
  cases plan <;> rfl

/-- A case that the switch does not have is met again and again. -/
theorem convertLoop_unknown (hunknown : plan.known = false) (hset : plan ≠ .notSet) (rounds : Nat) :
    convertLoop beyond rounds plan operators = .running := by
  have hdecode : decode (beyond operators.length) plan = none := by
    apply Option.not_isSome_iff_eq_none.mp
    rw [decode_isSome, hunknown]
    exact Bool.false_ne_true
  induction rounds with
  | zero => rw [convertLoop]; exact hset
  | succ rounds ih =>
      rw [convertLoop, hdecode]
      · exact ih
      · exact hset

/-- In the five cases of the switch the loop advances to the first child. -/
theorem convertLoop_of_decode {op : Received}
    (hop : decode (beyond operators.length) plan = some op) (rounds : Nat) :
    convertLoop beyond (rounds + 1) plan operators =
      match plan.child with
      | [] => .missingChild
      | next :: _ => convertLoop beyond rounds next (operators ++ [op]) := by
  rw [convertLoop, hop]
  rintro rfl
  cases hop

theorem exists_decode (hknown : plan.known) (beyond : Nat → Int32) :
    ∃ op, decode beyond plan = some op := by
  rw [← decode_isSome beyond] at hknown
  exact Option.isSome_iff_exists.mp hknown

/-- What can be followed is decoded in at most one round for each plan. -/
theorem Wire.ChildPlan.Followable.converts (h : plan.Followable) (operators : List Received) :
    ∃ rounds operators', rounds ≤ plan.nodes ∧
      convertLoop beyond rounds plan operators = .done operators' := by
  induction h generalizing operators with
  | notSet => exact ⟨0, operators, Nat.zero_le _, rfl⟩
  | @child plan next hknown hnext _ ih =>
      obtain ⟨op, hop⟩ := exists_decode hknown (beyond operators.length)
      obtain ⟨rounds, operators', hbound, hdone⟩ := ih (operators ++ [op])
      have hless := nodes_child_lt hnext
      refine ⟨rounds + 1, operators', by omega, ?_⟩
      obtain ⟨rest, hchild⟩ := List.head?_eq_some_iff.mp hnext
      rw [convertLoop_of_decode hop, hchild]
      exact hdone

theorem followable_of_done {rounds : Nat} {operators' : List Received}
    (h : convertLoop beyond rounds plan operators = .done operators') : plan.Followable := by
  induction rounds generalizing plan operators with
  | zero =>
      cases plan with
      | notSet => exact .notSet
      | _ => cases h
  | succ rounds ih =>
      cases hknown : plan.known with
      | true =>
          obtain ⟨op, hop⟩ := exists_decode hknown (beyond operators.length)
          rw [convertLoop_of_decode hop] at h
          cases hchild : plan.child with
          | nil =>
              rw [hchild] at h
              cases h
          | cons next rest =>
              rw [hchild] at h
              apply Wire.ChildPlan.Followable.child hknown _ (ih h)
              rw [hchild, List.head?_cons]
      | false =>
          by_cases hset : plan = .notSet
          · rw [hset]
            exact .notSet
          · rw [convertLoop_unknown hknown hset] at h
            cases h

/-- A message that cannot be followed leads to a child that is not there, or the loop never
ends. -/
theorem convertLoop_cases (plan : ChildPlan) (operators : List Received) : plan.Followable ∨
    (∃ limit, ∀ rounds, limit ≤ rounds →
      convertLoop beyond rounds plan operators = .missingChild) ∨
    ∀ rounds, convertLoop beyond rounds plan operators = .running := by
  induction hsize : plan.nodes using Nat.strong_induction_on generalizing plan operators with
  | _ size ih =>
      cases hknown : plan.known with
      | false =>
          by_cases hset : plan = .notSet
          · rw [hset]
            exact .inl .notSet
          · exact .inr (.inr (convertLoop_unknown hknown hset))
      | true =>
          obtain ⟨op, hop⟩ := exists_decode hknown (beyond operators.length)
          have hround := convertLoop_of_decode hop
          cases hchild : plan.child with
          | nil =>
              right; left
              refine ⟨1, ?_⟩
              intro rounds hle
              obtain ⟨rounds, rfl⟩ := Nat.exists_eq_add_of_le' hle
              rw [hround, hchild]
          | cons next rest =>
              have hnext : plan.child.head? = some next := by rw [hchild, List.head?_cons]
              have hless := Wire.ChildPlan.nodes_child_lt hnext
              rw [hsize] at hless
              simp only [hchild] at hround
              rcases ih next.nodes hless next (operators ++ [op]) rfl with hfollow | hmiss | hrun
              · exact .inl (.child hknown hnext hfollow)
              · obtain ⟨limit, hmiss⟩ := hmiss
                right; left
                refine ⟨limit + 1, ?_⟩
                intro rounds hle
                have hpos : 1 ≤ rounds := Nat.le_trans (Nat.le_add_left 1 limit) hle
                obtain ⟨rounds, rfl⟩ := Nat.exists_eq_add_of_le' hpos
                rw [hround]
                exact hmiss rounds (Nat.le_of_succ_le_succ hle)
              · right; right
                intro rounds
                cases rounds with
                | zero =>
                    cases plan with
                    | notSet => cases hknown
                    | _ => rfl
                | succ rounds =>
                    rw [hround]
                    exact hrun rounds

/-- The loop ends in time on exactly the messages whose first children can be followed. -/
theorem converts_iff_followable (beyond : Nat → Nat → Int32) (plan : ChildPlan) :
    Converts beyond plan ↔ plan.Followable := by
  constructor
  · rintro ⟨rounds, operators, _, hdone⟩
    exact followable_of_done hdone
  · intro h
    exact h.converts []

/-- A plan with values is met for ever, and a delete without a child reads one. -/
theorem value_plan_never_ends :
    (∀ rounds, convertLoop (fun _ _ => 0) rounds (.value []) [] = .running) ∧
      convertLoop (fun _ _ => 0) 1 (.delete [] ['t'] 0 []) [] = .missingChild ∧
      ¬ (Converts (fun _ _ => 0) (.value []) ∨ Converts (fun _ _ => 0) (.delete [] ['t'] 0 [])) := by
  refine ⟨?_, rfl, ?_⟩
  · intro rounds
    exact convertLoop_unknown rfl (by rintro ⟨⟩) rounds
  · rintro (⟨rounds, operators, _, hdone⟩ | ⟨rounds, operators, _, hdone⟩)
    · cases followable_of_done hdone with
      | child hknown => cases hknown
    · cases followable_of_done hdone with
      | child _ hnext => cases hnext

end Decoding

section Sent

def Session.Expr.message : Session.Expr → Wire.Expr
  | .val value => .val value
  | .col tabName colName => .col tabName colName

def Session.BinaryMessage.message (conds : Session.BinaryMessage) : Wire.BinaryMessage where
  tabName := conds.tabName
  colName := conds.colName
  op := Int32.ofNat conds.op
  exp := conds.exp.message

/-- A message of the kind that `send_plan` builds, with exactly one child in each plan. -/
def Session.ChildPlan.message : Session.ChildPlan → Wire.ChildPlan
  | .notSet => .notSet
  | .seqScan dbName tabName parId child =>
      .seqScan dbName tabName (Int32.ofNat parId) [child.message]
  | .filter conds child => .filter conds.message [child.message]
  | .insert dbName tabName parId colName val child =>
      .insert dbName tabName (Int32.ofNat parId) colName val [child.message]
  | .delete dbName tabName parId child =>
      .delete dbName tabName (Int32.ofNat parId) [child.message]
  | .update dbName tabName parId setColIndex setVal child =>
      .update dbName tabName (Int32.ofNat parId) (setColIndex.map Int32.ofNat) setVal
        [child.message]

def receivedConds (conds : Ast.BinaryExpr) : ReceivedConds where
  lhs := conds.lhs
  op := Int32.ofNat conds.op.number
  rhs := conds.rhs

/-- An operator with its numbers as they are in a message. -/
def Operator.received : Operator → Received
  | .tablescan tabs par => .tablescan tabs (Int32.ofNat par)
  | .selection conds => .selection (some (receivedConds conds))
  | .insert tabName par record => .insert tabName (Int32.ofNat par) record
  | .delete tabName par => .delete tabName (Int32.ofNat par)
  | .update tabName par setColIndex setVal =>
      .update tabName (Int32.ofNat par) (setColIndex.map Int32.ofNat) setVal

variable {beyond : Nat → Nat → Int32}

theorem message_followable (plan : Session.ChildPlan) : plan.message.Followable := by
  induction plan with
  | notSet => exact .notSet
  | seqScan _ _ _ _ ih => exact .child rfl rfl ih
  | filter _ _ ih => exact .child rfl rfl ih
  | insert _ _ _ _ _ _ ih => exact .child rfl rfl ih
  | delete _ _ _ _ ih => exact .child rfl rfl ih
  | update _ _ _ _ _ _ ih => exact .child rfl rfl ih

theorem Ast.SvCompOp.number_of_ofNumber {n : Nat} {op : SvCompOp} (h : ofNumber n = some op) :
    op.number = n := by
  unfold ofNumber at h
  split at h <;> cases h <;> rfl

theorem decodeExpr_message (exp : Session.Expr) :
    decodeExpr exp.message = some (convertExpr exp) := by
  cases exp <;> rfl

theorem decodeConds_message {conds : Session.BinaryMessage} {read : Ast.BinaryExpr}
    (h : convertConds conds = some read) :
    decodeConds conds.message = some (receivedConds read) := by
  simp only [convertConds, Option.bind_eq_bind, Option.bind_eq_some_iff, Option.pure_def,
    Option.some.injEq] at h
  obtain ⟨op, hop, rfl⟩ := h
  rw [decodeConds, Session.BinaryMessage.message, decodeExpr_message, receivedConds,
    Ast.SvCompOp.number_of_ofNumber hop, Option.map_some]

/-- Values are found before the end of their field. -/
theorem valueOf_of_lt {vals : List Int32} {i : Nat} (h : i < vals.length) (beyond : Nat → Int32) :
    valueOf beyond vals i = vals[i] := by
  simp [valueOf, h]

theorem inserted_cells {colName : List Text} {val : List Int32} (h : colName.length ≤ val.length)
    (beyond : Nat → Int32) (tabName : Text) :
    colName.mapIdx (fun i colName => (⟨colName, tabName, valueOf beyond val i⟩ : Value)) =
      colName.zipWith (⟨·, tabName, ·⟩) val := by
  apply List.ext_getElem
  · rw [List.length_mapIdx, List.length_zipWith, Nat.min_eq_left h]
  · intro i hleft _
    have hi : i < val.length := by
      rw [List.length_mapIdx] at hleft
      omega
    rw [List.getElem_mapIdx, List.getElem_zipWith, valueOf_of_lt hi]

theorem updated_cells {setColIndex : List Nat} {setVal : List Int32}
    (h : setColIndex.length ≤ setVal.length) (beyond : Nat → Int32) :
    (setColIndex.map Int32.ofNat).mapIdx (fun i _ => ({ str := valueOf beyond setVal i } : Value)) =
      (setVal.take setColIndex.length).map ({ str := · }) := by
  apply List.ext_getElem
  · rw [List.length_mapIdx, List.length_map, List.length_map, List.length_take, Nat.min_eq_left h]
  · intro i hleft _
    have hi : i < setVal.length := by
      rw [List.length_mapIdx, List.length_map] at hleft
      omega
    rw [List.getElem_mapIdx, List.getElem_map, List.getElem_take, valueOf_of_lt hi]

/-- What `send_plan` builds is decoded in time. -/
theorem sent_converts (plan : Session.ChildPlan) : Converts beyond plan.message :=
  (message_followable plan).converts []

/-- The loop builds from such a message the chain that is read back from it. -/
theorem convertLoop_message {plan : Session.ChildPlan} {chain : Chain}
    (h : convertIntoPlan plan = some chain) (operators : List Received) :
    ∃ rounds, convertLoop beyond rounds plan.message operators =
      .done (operators ++ chain.map Operator.received) := by
  have hround {plan next : Session.ChildPlan} {op : Operator} {tail : Chain}
      {operators : List Received}
      (hop : decode (beyond operators.length) plan.message = some op.received)
      (hchild : plan.message.child = [next.message])
      (hrest : ∃ rounds, convertLoop beyond rounds next.message (operators ++ [op.received]) =
        .done (operators ++ [op.received] ++ tail.map Operator.received)) :
      ∃ rounds, convertLoop beyond rounds plan.message operators =
        .done (operators ++ (op :: tail).map Operator.received) := by
    obtain ⟨rounds, hdone⟩ := hrest
    refine ⟨rounds + 1, ?_⟩
    rw [convertLoop_of_decode hop, hchild, List.map_cons]
    rw [List.append_assoc] at hdone
    exact hdone
  induction plan generalizing chain operators with
  | notSet =>
      cases h
      refine ⟨0, ?_⟩
      rw [List.map_nil, List.append_nil]
      rfl
  | seqScan dbName tabName parId child ih =>
      simp only [convertIntoPlan, Option.bind_eq_bind, Option.bind_eq_some_iff, Option.pure_def,
        Option.some.injEq] at h
      obtain ⟨tail, htail, rfl⟩ := h
      exact hround rfl rfl (ih htail _)
  | filter conds child ih =>
      simp only [convertIntoPlan, Option.bind_eq_bind, Option.bind_eq_some_iff, Option.pure_def,
        Option.some.injEq] at h
      obtain ⟨read, hread, tail, htail, rfl⟩ := h
      apply hround _ rfl (ih htail _)
      exact congrArg (fun conds => some (Received.selection conds)) (decodeConds_message hread)
  | insert dbName tabName parId colName val child ih =>
      simp only [convertIntoPlan, Option.ite_none_right_eq_some, Option.bind_eq_bind,
        Option.bind_eq_some_iff, Option.pure_def, Option.some.injEq] at h
      obtain ⟨hlength, tail, htail, rfl⟩ := h
      apply hround _ rfl (ih htail _)
      rw [Session.ChildPlan.message, decode, inserted_cells hlength]
      rfl
  | delete dbName tabName parId child ih =>
      simp only [convertIntoPlan, Option.bind_eq_bind, Option.bind_eq_some_iff, Option.pure_def,
        Option.some.injEq] at h
      obtain ⟨tail, htail, rfl⟩ := h
      exact hround rfl rfl (ih htail _)
  | update dbName tabName parId setColIndex setVal child ih =>
      simp only [convertIntoPlan, Option.ite_none_right_eq_some, Option.bind_eq_bind,
        Option.bind_eq_some_iff, Option.pure_def, Option.some.injEq] at h
      obtain ⟨hlength, tail, htail, rfl⟩ := h
      apply hround _ rfl (ih htail _)
      rw [Session.ChildPlan.message, decode, updated_cells hlength]
      rfl

end Sent

end RucDDBS
