import RucDDBS.Library.Run
import RucDDBS.Transaction.LockQueue
import Mathlib.Logic.Relation

/-!
`Lock_manager` as a transition system. A call is run by a thread and proceeds
in steps; a step is a section that the source runs under the queue latch, or
the code between two such sections. A `cv_.wait` evaluates its predicate once
before it parks the thread, and a parked thread may re-check it at any later
moment, so neither the order nor the origin of notifications matters.

Nothing forces the calls of one transaction to be sequential: two threads may
lock, unlock or release for the same transaction at the same time. Results that
need sequential calls say so.
-/

namespace RucDDBS

/-- Where in the source a call waits: on the request it has just appended, on
an earlier ungranted request of the same transaction, or on an upgrade. -/
inductive WaitPath where
  | new | same | upgrade
  deriving DecidableEq, Repr

inductive LockPc where
  | enter
  | waiting (path : WaitPath) (request : Nat)
  deriving DecidableEq, Repr

inductive UnlockPc where
  | latch | eraseSets
  deriving DecidableEq, Repr

/-- A call in progress. A release remembers the loops of `ReleaseLocks` still to
start, the items that the iterator of the running loop has still to reach, and
the unlock call it is in. -/
inductive Call where
  | lock (txn : TxnId) (mode : LockMode) (item : LockDataId) (pc : LockPc)
  | unlock (txn : TxnId) (item : LockDataId) (pc : UnlockPc)
  | release (txn : TxnId) (loops : List LockSetName) (ahead : List LockDataId)
      (current : Option (LockDataId × UnlockPc))
  deriving DecidableEq, Repr

def Call.txn : Call → TxnId
  | .lock txn _ _ _ | .unlock txn _ _ | .release txn _ _ _ => txn

inductive Op where
  | lockTable (mode : LockMode) (oid : TableOid)
  | lockPartition (mode : LockMode) (oid : TableOid) (pId : PartitionId)
  | lockRow (mode : LockMode) (oid : TableOid) (pId : PartitionId) (rowId : RowId)
  | unLockTable (oid : TableOid)
  | unLockPartition (oid : TableOid) (pId : PartitionId)
  | unLockRow (oid : TableOid) (pId : PartitionId) (rowId : RowId)
  | releaseLocks
  deriving DecidableEq, Repr

/-- The calls that ask for a lock. -/
def Op.isLock : Op → Bool
  | .lockTable _ _ | .lockPartition _ _ _ | .lockRow _ _ _ _ => true
  | .unLockTable _ | .unLockPartition _ _ | .unLockRow _ _ _ | .releaseLocks => false

/-- The writes of `state_` made by the transaction manager, outside the lock
manager and under no queue latch. -/
inductive StateWrite where
  | prepareCommit | commitSingle | abort
  deriving DecidableEq, Repr

inductive Action where
  | invoke (thread : Nat) (txn : TxnId) (op : Op)
  | resume (thread : Nat)
  | walk (thread : Nat) (order : List LockDataId)
  | manager (txn : TxnId) (write : StateWrite)
  deriving DecidableEq, Repr

/-- What a step shows: `granted` and `refused` are a lock call returning true
and false, `unlocked` is the section of `Unlock` with the request it removed. -/
inductive Event where
  | progress (txn : TxnId)
  | granted (txn : TxnId) (mode : LockMode) (item : LockDataId)
  | refused (txn : TxnId) (mode : LockMode) (item : LockDataId)
      (reason : Option AbortReason)
  | unlockCalled (txn : TxnId) (item : LockDataId)
  | unlocked (txn : TxnId) (item : LockDataId) (request : Option Nat)
  | unlockReturned (txn : TxnId) (item : LockDataId)
  | releaseCalled (txn : TxnId)
  | releaseReturned (txn : TxnId)
  deriving DecidableEq, Repr

def Event.txn : Event → TxnId
  | .progress txn | .granted txn _ _ | .refused txn _ _ _ | .unlockCalled txn _
  | .unlocked txn _ _ | .unlockReturned txn _ | .releaseCalled txn
  | .releaseReturned txn => txn

/-- Transactions are known by their ids, which are pairwise distinct. -/
structure LockManager where
  lockMap : LockDataId → LockRequestQueue
  txns : TxnId → Transaction
  calls : Nat → Option Call

namespace LockManager

def init : LockManager where
  lockMap := fun _ => .empty
  txns := fun _ => .new
  calls := fun _ => none

def setQueue (σ : LockManager) (item : LockDataId) (q : LockRequestQueue) : LockManager :=
  { σ with lockMap := Function.update σ.lockMap item q }

def setTxn (σ : LockManager) (id : TxnId) (txn : Transaction) : LockManager :=
  { σ with txns := Function.update σ.txns id txn }

def setCall (σ : LockManager) (thread : Nat) (call : Option Call) : LockManager :=
  { σ with calls := Function.update σ.calls thread call }

/-- The throwing paths: the handler sets `ABORTED` and the call returns false. -/
def refuse (σ : LockManager) (thread : Nat) (txn : TxnId) (mode : LockMode)
    (item : LockDataId) (reason : Option AbortReason) : LockManager × Event :=
  ((σ.setTxn txn ((σ.txns txn).setTransactionState .aborted)).setCall thread none,
    .refused txn mode item reason)

/-- The returning paths: the lock is recorded in the transaction's lock set and
the call returns true. -/
def acquire (σ : LockManager) (thread : Nat) (txn : TxnId) (mode : LockMode)
    (item : LockDataId) : LockManager × Event :=
  ((σ.setTxn txn ((σ.txns txn).addLockSet mode item)).setCall thread none,
    .granted txn mode item)

/-- One evaluation of the wait predicate and, when it lets the thread through,
the code after the wait. -/
def waitSection (noWait : Bool) (σ : LockManager) (thread : Nat) (txn : TxnId)
    (mode : LockMode) (item : LockDataId) (path : WaitPath) (request : Nat) :
    LockManager × Event :=
  let q := σ.lockMap item
  let compatible := q.checkQueueCompatible request
  if noWait = false ∧ compatible = false ∧ (σ.txns txn).state ≠ .aborted then
    (σ.setCall thread (some (.lock txn mode item (.waiting path request))), .progress txn)
  else if compatible = false ∨ (σ.txns txn).state = .aborted then
    -- in no-wait mode the predicate itself has set `ABORTED`
    σ.refuse thread txn mode item (some .deadLockPreventNoWait)
  else
    let q := if path = .upgrade then q.endUpgrade else q
    (σ.setQueue item (q.grant request)).acquire thread txn mode item

/-- The first latch section of a lock call: `checkSameTxnLockRequest`, and the
new request when the transaction has none in this queue. -/
def enterSection (noWait : Bool) (σ : LockManager) (thread : Nat) (txn : TxnId)
    (mode : LockMode) (item : LockDataId) : LockManager × Event :=
  let q := σ.lockMap item
  match q.findTxn txn with
  | none =>
      (σ.setQueue item (q.emplaceBack txn mode)).waitSection noWait thread txn mode item
        .new q.fresh
  | some p =>
      let iter := q.requests p
      if iter.lockMode = mode ∧ iter.granted = true then
        if (σ.txns txn).state = .aborted then σ.refuse thread txn mode item none
        else σ.acquire thread txn mode item
      else if iter.lockMode = mode then
        σ.waitSection noWait thread txn mode item .same p
      else if q.upgrading = true then
        σ.refuse thread txn mode item (some .upgradeConflict)
      else if isUpdateCompatible iter mode = false then
        σ.refuse thread txn mode item (some .incompatibleUpgrade)
      else
        (σ.setQueue item (q.startUpgrade p mode)).waitSection noWait thread txn mode item
          .upgrade p

/-- The checks that the lock functions make before they take a latch. -/
def beginLock (txn : Transaction) (mode : LockMode) (type : LockDataType) :
    Except AbortReason Transaction :=
  let txn := if txn.state = .default then txn.setTransactionState .growing else txn
  if txn.state ≠ .growing then .error .lockOnShrinking
  else if type = .row ∧ mode ≠ .shared ∧ mode ≠ .exlucsive then
    .error .attemptedIntentionLockOnRow
  else .ok txn

def invokeLock (σ : LockManager) (thread : Nat) (txn : TxnId) (mode : LockMode)
    (item : LockDataId) : LockManager × Event :=
  match beginLock (σ.txns txn) mode item.type with
  | .error reason => σ.refuse thread txn mode item (some reason)
  | .ok txn' =>
      ((σ.setTxn txn txn').setCall thread (some (.lock txn mode item .enter)),
        .progress txn)

def invokeUnlock (σ : LockManager) (thread : Nat) (txn : TxnId) (item : LockDataId) :
    LockManager × Event :=
  (σ.setCall thread (some (.unlock txn item .latch)), .unlockCalled txn item)

/-- The private `Unlock`: the state moves to `SHRINKING` before the queue is
searched, and to `ABORTED` when no granted request is found. -/
def unlockSection (σ : LockManager) (txn : TxnId) (item : LockDataId) :
    LockManager × Event :=
  let q := σ.lockMap item
  let t := σ.txns txn
  let t := if t.state = .growing then t.setTransactionState .shrinking else t
  match q.findGranted txn with
  | none => (σ.setTxn txn (t.setTransactionState .aborted), .unlocked txn item none)
  | some p => ((σ.setQueue item (q.erase p)).setTxn txn t, .unlocked txn item (some p))

/-- The order in which `ReleaseLocks` walks the twelve sets. -/
def releaseOrder : List LockSetName :=
  [.rowS, .rowX, .partitionS, .partitionIS, .partitionIX, .partitionSIX, .partitionX,
    .tableS, .tableIS, .tableIX, .tableSIX, .tableX]

def invoke (σ : LockManager) (thread : Nat) (txn : TxnId) : Op → LockManager × Event
  | .lockTable mode oid => σ.invokeLock thread txn mode (.ofTable oid)
  | .lockPartition mode oid pId => σ.invokeLock thread txn mode (.ofPartition oid pId)
  | .lockRow mode oid pId rowId => σ.invokeLock thread txn mode (.ofRow oid pId rowId)
  | .unLockTable oid => σ.invokeUnlock thread txn (.ofTable oid)
  | .unLockPartition oid pId => σ.invokeUnlock thread txn (.ofPartition oid pId)
  | .unLockRow oid pId rowId => σ.invokeUnlock thread txn (.ofRow oid pId rowId)
  | .releaseLocks =>
      (σ.setCall thread (some (.release txn releaseOrder [] none)), .releaseCalled txn)

/-- The next section of the call that `thread` is in. -/
def resume (noWait : Bool) (σ : LockManager) (thread : Nat) :
    Call → Option (LockManager × Event)
  | .lock txn mode item .enter => some (σ.enterSection noWait thread txn mode item)
  | .lock txn mode item (.waiting path request) =>
      some (σ.waitSection noWait thread txn mode item path request)
  | .unlock txn item .latch =>
      let (σ', event) := σ.unlockSection txn item
      some (σ'.setCall thread (some (.unlock txn item .eraseSets)), event)
  | .unlock txn item .eraseSets =>
      some ((σ.setTxn txn ((σ.txns txn).eraseLockSets item)).setCall thread none,
        .unlockReturned txn item)
  | .release txn loops ahead (some (item, .latch)) =>
      let (σ', event) := σ.unlockSection txn item
      some (σ'.setCall thread (some (.release txn loops ahead (some (item, .eraseSets)))),
        event)
  | .release txn loops ahead (some (item, .eraseSets)) =>
      some ((σ.setTxn txn ((σ.txns txn).eraseLockSets item)).setCall thread
        (some (.release txn loops ahead none)), .progress txn)
  | .release txn loops (item :: ahead) none =>
      -- the coordinates are copied and the iterator moves on before the unlock
      some (σ.setCall thread
        (some (.release txn loops ahead (some (item.canonical, .latch)))),
        .unlockCalled txn item.canonical)
  | .release _ (_ :: _) [] none => none
  | .release txn [] [] none => some (σ.setCall thread none, .releaseReturned txn)

/-- A loop of `ReleaseLocks` starts: its iterator will meet the elements of the
set in an order that the hash set chooses. Erasing an element that the iterator
has passed leaves the rest of the walk as it is. -/
def walk (σ : LockManager) (thread : Nat) (order : List LockDataId) :
    Call → Option (LockManager × Event)
  | .release txn (name :: loops) [] none =>
      if order.Nodup ∧ order.toFinset = (σ.txns txn).lockSet name then
        some (σ.setCall thread (some (.release txn loops order none)), .progress txn)
      else none
  | _ => none

def stateWrite (txn : Transaction) : StateWrite → Transaction
  | .prepareCommit =>
      if txn.state = .aborted then txn else txn.setTransactionState .prepared
  | .commitSingle => txn.setTransactionState .committed
  | .abort => txn.setTransactionState .aborted

/-- One step of the system. A thread runs one call at a time. -/
def step (noWait : Bool) (σ : LockManager) : Action → Option (LockManager × Event)
  | .invoke thread txn op =>
      if σ.calls thread = none then some (σ.invoke thread txn op) else none
  | .resume thread => (σ.calls thread).bind (σ.resume noWait thread)
  | .walk thread order => (σ.calls thread).bind (σ.walk thread order)
  | .manager txn write =>
      some (σ.setTxn txn (stateWrite (σ.txns txn) write), .progress txn)

abbrev Step (noWait : Bool) := Lts.Steps (step noWait)

abbrev Run (noWait : Bool) := Lts.Run (Step noWait)

/-- The state that a list of actions leads to from the initial one, for the
concrete runs below. -/
def after (noWait : Bool) (actions : List Action) : LockManager :=
  ((Lts.exec (step noWait) init actions).map Prod.fst).getD init

/-- Only the events have to be computed to see that it is reached. -/
theorem run_after {noWait : Bool} (actions : List Action) {events : List Event}
    (h : (Lts.exec (step noWait) init actions).map Prod.snd = some events) :
    Run noWait init (actions.zip events) (after noWait actions) := by
  obtain ⟨⟨σ, events⟩, hexec, rfl⟩ := Option.map_eq_some_iff.mp h
  have hafter : after noWait actions = σ := by simp [after, hexec]
  rw [hafter]
  exact Lts.run_of_exec _ _ hexec

end LockManager

end RucDDBS
