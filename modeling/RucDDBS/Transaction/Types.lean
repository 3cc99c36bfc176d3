import Mathlib.Data.Finset.Basic

/-!
The data that the lock manager and the transaction manager share: lock
identifiers and modes, the transaction state and the twelve lock sets of a
transaction. Field and constructor names follow `txn.h` and `Transaction.h`,
including the spelling `EXLUCSIVE`.
-/

namespace RucDDBS

abbrev TableOid := Int32
abbrev PartitionId := Int32
abbrev RowId := Int32
abbrev TxnId := UInt64

inductive LockDataType where
  | table | partition | row
  deriving DecidableEq, Repr

inductive LockMode where
  | shared | exlucsive | intentionShared | intentionExclusive | sIx
  deriving DecidableEq, Repr

/-- `Lock_data_id`. Its equality compares all four fields, as `operator==`
does. -/
structure LockDataId where
  oid : TableOid
  pId : PartitionId
  rowId : RowId
  type : LockDataType
  deriving DecidableEq, Repr

namespace LockDataId

/-- The three constructors leave the finer coordinates at their default 0. -/
def ofTable (oid : TableOid) : LockDataId := ⟨oid, 0, 0, .table⟩

def ofPartition (oid : TableOid) (pId : PartitionId) : LockDataId :=
  ⟨oid, pId, 0, .partition⟩

def ofRow (oid : TableOid) (pId : PartitionId) (rowId : RowId) : LockDataId :=
  ⟨oid, pId, rowId, .row⟩

/-- The identifier that the unlock calls rebuild from the coordinates of `l`. -/
def canonical (l : LockDataId) : LockDataId :=
  match l.type with
  | .table => ofTable l.oid
  | .partition => ofPartition l.oid l.pId
  | .row => ofRow l.oid l.pId l.rowId

end LockDataId

inductive TransactionState where
  | default | growing | shrinking | committed | aborted | prepared
  deriving DecidableEq, Repr

/-- The reasons for which a lock or unlock call throws. -/
inductive AbortReason where
  | lockOnShrinking
  | upgradeConflict
  | attemptedIntentionLockOnRow
  | incompatibleUpgrade
  | attemptedUnlockButNoLockHeld
  | deadLockPreventNoWait
  deriving DecidableEq, Repr

/-- The twelve `..._lock_set_` members of `Transaction`. -/
inductive LockSetName where
  | tableS | tableX | tableIS | tableIX | tableSIX
  | partitionS | partitionX | partitionIS | partitionIX | partitionSIX
  | rowS | rowX
  deriving DecidableEq, Repr

/-- The common switch of `add_lock_set` and `get_lock_set`. There is no set for
an intention mode on a row: the first function then does nothing and the second
returns `nullptr`. -/
def lockSetName : LockDataType → LockMode → Option LockSetName
  | .table, .shared => some .tableS
  | .table, .exlucsive => some .tableX
  | .table, .intentionShared => some .tableIS
  | .table, .intentionExclusive => some .tableIX
  | .table, .sIx => some .tableSIX
  | .partition, .shared => some .partitionS
  | .partition, .exlucsive => some .partitionX
  | .partition, .intentionShared => some .partitionIS
  | .partition, .intentionExclusive => some .partitionIX
  | .partition, .sIx => some .partitionSIX
  | .row, .shared => some .rowS
  | .row, .exlucsive => some .rowX
  | .row, _ => none

/-- The kind of item that a lock set holds. -/
def LockSetName.type : LockSetName → LockDataType
  | .tableS | .tableX | .tableIS | .tableIX | .tableSIX => .table
  | .partitionS | .partitionX | .partitionIS | .partitionIX | .partitionSIX => .partition
  | .rowS | .rowX => .row

theorem lockSetName_type {type : LockDataType} {mode : LockMode} {name : LockSetName}
    (h : lockSetName type mode = some name) : name.type = type := by
  cases type <;> cases mode <;> simp [lockSetName] at h <;> subst h <;> rfl

/-- The part of `Transaction` that locking reads and writes. -/
structure Transaction where
  state : TransactionState
  lockSet : LockSetName → Finset LockDataId

namespace Transaction

/-- A transaction as its constructor leaves it. -/
def new : Transaction := ⟨.default, fun _ => ∅⟩

def setTransactionState (txn : Transaction) (state : TransactionState) : Transaction :=
  { txn with state := state }

def addLockSet (txn : Transaction) (mode : LockMode) (l : LockDataId) : Transaction :=
  match lockSetName l.type mode with
  | some name =>
      { txn with lockSet := Function.update txn.lockSet name (insert l (txn.lockSet name)) }
  | none => txn

/-- The erasures at the end of `UnLockTable`, `UnLockPartition` and
`UnLockRow`: `l` leaves every set of its own kind. -/
def eraseLockSets (txn : Transaction) (l : LockDataId) : Transaction :=
  { txn with
    lockSet := fun name =>
      if name.type = l.type then (txn.lockSet name).erase l else txn.lockSet name }

@[simp] theorem setTransactionState_state (txn : Transaction) (state : TransactionState) :
    (txn.setTransactionState state).state = state := rfl

@[simp] theorem setTransactionState_lockSet (txn : Transaction) (state : TransactionState) :
    (txn.setTransactionState state).lockSet = txn.lockSet := rfl

@[simp] theorem addLockSet_state (txn : Transaction) (mode : LockMode) (l : LockDataId) :
    (txn.addLockSet mode l).state = txn.state := by
  unfold addLockSet
  split <;> rfl

@[simp] theorem eraseLockSets_state (txn : Transaction) (l : LockDataId) :
    (txn.eraseLockSets l).state = txn.state := rfl

theorem mem_addLockSet_self {txn : Transaction} {mode : LockMode} {l : LockDataId}
    {name : LockSetName} (h : lockSetName l.type mode = some name) :
    l ∈ (txn.addLockSet mode l).lockSet name := by
  simp [addLockSet, h]

theorem mem_addLockSet {txn : Transaction} {mode : LockMode} {l l' : LockDataId}
    {name : LockSetName} (h : l' ∈ txn.lockSet name) :
    l' ∈ (txn.addLockSet mode l).lockSet name := by
  unfold addLockSet
  split
  next name' _ =>
    by_cases heq : name = name'
    · subst heq
      simp [h]
    · simpa [Function.update_of_ne heq] using h
  next => exact h

theorem mem_addLockSet_iff {txn : Transaction} {mode : LockMode} {l l' : LockDataId}
    {name : LockSetName} :
    l' ∈ (txn.addLockSet mode l).lockSet name ↔
      l' ∈ txn.lockSet name ∨ (l' = l ∧ lockSetName l.type mode = some name) := by
  unfold addLockSet
  split
  next name' hname =>
    by_cases heq : name = name'
    · subst heq
      simp [hname, or_comm]
    · simp [Function.update_of_ne heq, hname, Ne.symm heq]
  next hnone => simp [hnone]

theorem mem_eraseLockSets_iff {txn : Transaction} {l l' : LockDataId}
    {name : LockSetName} :
    l' ∈ (txn.eraseLockSets l).lockSet name ↔
      l' ∈ txn.lockSet name ∧ (name.type = l.type → l' ≠ l) := by
  simp only [eraseLockSets]
  split
  next h => simp [h, and_comm]
  next h => simp [h]

end Transaction

end RucDDBS
