import RucDDBS.Transaction.TxnStore
import RucDDBS.Transaction.VoteBinding

/-!
A participant node with its threads. `SendOperator` looks its transaction up
once and then works through the pointer: each operation is a lock call and,
when that returned true, a `put` or `del` of the store. The handlers
`AbortTransaction` and `CommitTransaction` look the transaction up as well,
leave the mutex of `txn_map` and run `AbortSingle` or `CommitSingle`, which
erase the transaction from the map at their end. All of these run side by side,
in the sections of the lock manager.

The store is a finite map here, and the log is left out.
-/

namespace RucDDBS

/-- What a thread is doing. An abort goes through the write set before it
releases the locks; a commit looks at the state before, and sets it afterwards. -/
inductive Task where
  | idle
  | holding (txn : TxnId)
  | locking (txn : TxnId) (write : TxnOp)
  | writing (txn : TxnId) (write : TxnOp)
  | undoing (txn : TxnId)
  | checking (txn : TxnId)
  | releasing (txn : TxnId) (commit : Bool)
  | released (txn : TxnId) (commit : Bool)
  deriving DecidableEq, Repr

structure OperationServer where
  locks : LockManager
  kv : SortedMap Bytes Bytes
  writeSet : TxnId → List WriteRecord
  txnMap : TxnId → Bool
  tasks : Nat → Task

namespace OperationServer

inductive Action where
  | sendOperator (thread : Nat) (txn : TxnId)
  | operate (thread : Nat) (op : Op) (write : TxnOp)
  | prepareTransaction (txn : TxnId)
  | abortTransaction (thread : Nat) (txn : TxnId)
  | commitTransaction (thread : Nat) (txn : TxnId)
  | next (thread : Nat)
  | walk (thread : Nat) (order : List LockDataId)
  deriving DecidableEq, Repr

/-- What a step shows. `stored` is a store operation of `SendOperator`, `undone` one
of `AbortSingle`, and `completed` is the erasure from `txn_map`. -/
inductive Event where
  | found (txn : TxnId)
  | lock (event : RucDDBS.Event)
  | stored (txn : TxnId) (write : TxnOp)
  | prepared (txn : TxnId)
  | undone (txn : TxnId)
  | committed (txn : TxnId)
  | completed (txn : TxnId)
  | answered (ok : Bool)
  deriving DecidableEq, Repr

/-- A node over an empty store, with the transactions of `txnMap` begun. -/
def init (txnMap : TxnId → Bool) : OperationServer where
  locks := .init
  kv := .empty
  writeSet := fun _ => []
  txnMap := txnMap
  tasks := fun _ => .idle

def setLocks (s : OperationServer) (locks : LockManager) : OperationServer :=
  { s with locks := locks }

def setTask (s : OperationServer) (thread : Nat) (task : Task) : OperationServer :=
  { s with tasks := Function.update s.tasks thread task }

def setWriteSet (s : OperationServer) (txn : TxnId) (records : List WriteRecord) :
    OperationServer :=
  { s with writeSet := Function.update s.writeSet txn records }

/-- `put` and `del` with the write set. A key that is not there is not deleted. -/
def store (s : OperationServer) (txn : TxnId) : TxnOp → OperationServer
  | .put key value =>
      { s with kv := s.kv.put key value }.setWriteSet txn (s.writeSet txn ++ [WriteRecord.ofInsert key])
  | .del key =>
      match s.kv.get key with
      | some value =>
          { s with kv := s.kv.del key }.setWriteSet txn (s.writeSet txn ++ [WriteRecord.ofDelete key value])
      | none => s

/-- One round of the loop in `AbortSingle`. -/
def undo (s : OperationServer) (txn : TxnId) (item : WriteRecord) : OperationServer :=
  { s with
    kv := match item.wtype with
      | .deleteTuple => s.kv.put item.key item.value
      | .insertTuple => s.kv.del item.key }.setWriteSet txn (s.writeSet txn).dropLast

def writeState (s : OperationServer) (txn : TxnId) (write : StateWrite) : OperationServer :=
  s.setLocks (s.locks.setTxn txn (LockManager.stateWrite (s.locks.txns txn) write))

def eraseTxn (s : OperationServer) (txn : TxnId) : OperationServer :=
  { s with txnMap := Function.update s.txnMap txn false }

/-- `SendOperator` after a section of its lock call. A refused lock ends it. -/
def afterLock (txn : TxnId) (write : TxnOp) : RucDDBS.Event → Task
  | .granted _ _ _ => .writing txn write
  | .refused _ _ _ _ => .idle
  | _ => .locking txn write

def afterRelease (txn : TxnId) (commit : Bool) : RucDDBS.Event → Task
  | .releaseReturned _ => .released txn commit
  | _ => .releasing txn commit

/-- A section of the lock manager, run by `thread`, and the task it leads to. -/
def lockStep (noWait : Bool) (s : OperationServer) (thread : Nat) (action : RucDDBS.Action)
    (after : RucDDBS.Event → Task) : Option (OperationServer × Event) :=
  (LockManager.step noWait s.locks action).map fun r =>
    ((s.setLocks r.1).setTask thread (after r.2), .lock r.2)

/-- The next step of a thread. -/
def next (noWait : Bool) (s : OperationServer) (thread : Nat) :
    Task → Option (OperationServer × Event)
  | .idle => none
  | .holding _ => some (s.setTask thread .idle, .answered true)
  | .locking txn write => s.lockStep noWait thread (.resume thread) (afterLock txn write)
  | .writing txn write =>
      some ((s.store txn write).setTask thread (.holding txn), .stored txn write)
  | .undoing txn =>
      match (s.writeSet txn).getLast? with
      | some item => some (s.undo txn item, .undone txn)
      | none =>
          s.lockStep noWait thread (.invoke thread txn .releaseLocks) (afterRelease txn false)
  | .checking txn =>
      if (s.locks.txns txn).commitSingleReturns = true then
        s.lockStep noWait thread (.invoke thread txn .releaseLocks) (afterRelease txn true)
      else some (s.setTask thread .idle, .answered false)
  | .releasing txn commit => s.lockStep noWait thread (.resume thread) (afterRelease txn commit)
  | .released txn true =>
      some ((s.writeState txn .commitSingle).setTask thread (.released txn false), .committed txn)
  | .released txn false => some ((s.eraseTxn txn).setTask thread .idle, .completed txn)

/-- A handler for a transaction that is not in the map answers false. -/
def handler (s : OperationServer) (thread : Nat) (txn : TxnId) (task : Task) :
    Option (OperationServer × Event) :=
  if s.tasks thread ≠ .idle then none
  else if s.txnMap txn = true then some (s.setTask thread task, .found txn)
  else some (s, .answered false)

def step (noWait : Bool) (s : OperationServer) : Action → Option (OperationServer × Event)
  | .sendOperator thread txn =>
      -- the pointer is used without a check, so it has to be there
      if s.tasks thread = .idle ∧ s.txnMap txn = true then
        some (s.setTask thread (.holding txn), .found txn)
      else none
  | .operate thread op write =>
      match s.tasks thread with
      | .holding txn =>
          if op.isLock = true then
            s.lockStep noWait thread (.invoke thread txn op) (afterLock txn write)
          else none
      | _ => none
  | .prepareTransaction txn => some (s.writeState txn .prepareCommit, .prepared txn)
  | .abortTransaction thread txn => s.handler thread txn (.undoing txn)
  | .commitTransaction thread txn => s.handler thread txn (.checking txn)
  | .next thread => s.next noWait thread (s.tasks thread)
  | .walk thread order =>
      match s.tasks thread with
      | .releasing txn commit =>
          s.lockStep noWait thread (.walk thread order) (afterRelease txn commit)
      | _ => none

abbrev Step (noWait : Bool) := Lts.Steps (step noWait)

end OperationServer

end RucDDBS
