import RucDDBS.Engine.Operators
import RucDDBS.Transaction.LockRefusal
import RucDDBS.Transaction.LockRetention

/-!
The lock calls of the operators that write, beside everything that other
transactions do with the lock manager meanwhile. An operator makes its lock calls
one after the other, reads none of their results, and then writes its rows. It
writes nothing after a refused call exactly if no call is refused or there is
nothing to write, and only then is every row written under an exclusive lock.
The locks of the scan below are not part of it.
-/

namespace RucDDBS

open LockManager LockRequestQueue

/-- A put, or without a value a delete, and the row under whose lock it belongs. -/
structure RowWrite where
  item : LockDataId
  key : Text
  value : Option Record
  deriving DecidableEq

/-- What an operator still has to do: its lock calls, then its writes. -/
structure Job where
  locks : List Op
  writes : List RowWrite
  deriving DecidableEq

section Jobs

variable (tableId : Text → TableOid)

/-- The row that an operator locks and writes by its first cell. -/
def rowWrite (oid : TableOid) (tabName : Text) (par : Nat) (row : Record) (value : Option Record) :
    Option RowWrite :=
  row.head?.map fun cell =>
    ⟨.ofRow oid (Int32.ofNat par) cell.str, rowKey tabName par cell.str, value⟩

/-- The row as it is before the set clauses, with the value that they give it. -/
def updateWrite (oid : TableOid) (tabName : Text) (par : Nat) (sets : List (Nat × Value))
    (row : Record) : Option RowWrite := do
  let row' ← setCells row sets
  rowWrite oid tabName par row (some row')

/-- `LockRow` in mode X for a row. -/
def rowLock (item : LockDataId) : Op := .lockRow .exlucsive item.oid item.pId item.rowId

/-- The lock calls on the table, the partition and the rows. -/
def lockCalls (mode : LockMode) (oid : TableOid) (par : Nat) (writes : List RowWrite) : Job where
  locks := .lockTable mode oid :: .lockPartition mode oid (Int32.ofNat par) ::
    writes.map fun write => rowLock write.item
  writes := writes

/-- The lock calls and writes of `exec_op`, for the records that the operators below have
returned. `tableId` is `table_name_id_map`. The other operators write nothing. -/
def Operator.job (res : List Record) : Operator → Option Job
  | .insert tabName par record => do
      let write ← rowWrite (tableId tabName) tabName par record (some record)
      pure (lockCalls .intentionExclusive (tableId tabName) par [write])
  | .delete tabName par => do
      let writes ← res.mapM fun row => rowWrite (tableId tabName) tabName par row none
      pure (lockCalls .sIx (tableId tabName) par writes)
  | .update tabName par setColIndex setVal =>
      if setColIndex.length ≤ setVal.length then do
        let writes ← res.mapM
          (updateWrite (tableId tabName) tabName par (setColIndex.zip setVal))
        pure (lockCalls .sIx (tableId tabName) par writes)
      else none
  | _ => none

/-- What a write does to etcd. -/
def RowWrite.apply (etcd : Etcd) (write : RowWrite) : Etcd :=
  match write.value with
  | some row => etcd.put write.key row.recToString
  | none => etcd.del write.key

/-- What an operator starts from: etcd and the records after the operators below. -/
def execBelow (next : Chain) (etcd : Etcd) : Operator → Option (Etcd × List Record)
  | .insert _ _ _ => some (etcd, [])
  | _ => execOp next etcd

variable {tableId} {oid : TableOid} {tabName : Text} {par : Nat} {row : Record} {op : Operator}
  {res : List Record} {job : Job} {write : RowWrite} {value : Option Record}

theorem rowWrite_eq_some_iff :
    rowWrite oid tabName par row value = some write ↔ ∃ cell, row.head? = some cell ∧
      write = ⟨.ofRow oid (Int32.ofNat par) cell.str, rowKey tabName par cell.str, value⟩ := by
  simp [rowWrite, eq_comm]

theorem updateWrite_eq_some_iff {sets : List (Nat × Value)} :
    updateWrite oid tabName par sets row = some write ↔ ∃ cell row', row.head? = some cell ∧
      setCells row sets = some row' ∧
      write = ⟨.ofRow oid (Int32.ofNat par) cell.str, rowKey tabName par cell.str, some row'⟩ := by
  simp only [updateWrite, Option.bind_eq_bind, Option.bind_eq_some_iff, rowWrite_eq_some_iff]
  constructor
  · rintro ⟨row', hset, cell, hcell, rfl⟩
    exact ⟨cell, row', hcell, hset, rfl⟩
  · rintro ⟨cell, row', hcell, hset, rfl⟩
    exact ⟨row', hset, cell, hcell, rfl⟩

theorem job_insert {record : Record}
    (h : (Operator.insert tabName par record).job tableId res = some job) :
    ∃ write, rowWrite (tableId tabName) tabName par record (some record) = some write ∧
      job = lockCalls .intentionExclusive (tableId tabName) par [write] := by
  simp only [Operator.job, Option.bind_eq_bind, Option.bind_eq_some_iff, Option.pure_def,
    Option.some.injEq] at h
  obtain ⟨write, hwrite, rfl⟩ := h
  exact ⟨write, hwrite, rfl⟩

theorem job_delete (h : (Operator.delete tabName par).job tableId res = some job) :
    ∃ writes, res.mapM (fun row => rowWrite (tableId tabName) tabName par row none) = some writes ∧
      job = lockCalls .sIx (tableId tabName) par writes := by
  simp only [Operator.job, Option.bind_eq_bind, Option.bind_eq_some_iff, Option.pure_def,
    Option.some.injEq] at h
  obtain ⟨writes, hwrites, rfl⟩ := h
  exact ⟨writes, hwrites, rfl⟩

theorem job_update {setColIndex : List Nat} {setVal : List Value}
    (h : (Operator.update tabName par setColIndex setVal).job tableId res = some job) :
    setColIndex.length ≤ setVal.length ∧ ∃ writes,
      res.mapM (updateWrite (tableId tabName) tabName par (setColIndex.zip setVal)) = some writes ∧
        job = lockCalls .sIx (tableId tabName) par writes := by
  simp only [Operator.job] at h
  split at h
  case isTrue hlength =>
    simp only [Option.bind_eq_bind, Option.bind_eq_some_iff, Option.pure_def,
      Option.some.injEq] at h
    obtain ⟨writes, hwrites, rfl⟩ := h
    exact ⟨hlength, writes, hwrites, rfl⟩
  case isFalse => cases h

/-- The writes of the job are what `exec_op` does to etcd. -/
theorem execOp_eq_writes {next : Chain} {etcd below : Etcd}
    (hbelow : execBelow next etcd op = some (below, res)) (hjob : op.job tableId res = some job) :
    (execOp (op :: next) etcd).map Prod.fst = some (job.writes.foldl RowWrite.apply below) := by
  cases op with
  | tablescan tabs par => cases hjob
  | selection conds => cases hjob
  | insert tabName par record =>
      obtain ⟨write, hwrite, rfl⟩ := job_insert hjob
      obtain ⟨cell, hcell, rfl⟩ := rowWrite_eq_some_iff.mp hwrite
      simp only [execBelow, Option.some.injEq, Prod.mk.injEq] at hbelow
      obtain ⟨rfl, -⟩ := hbelow
      simp [execOp, keyOf, hcell, lockCalls, RowWrite.apply]
  | delete tabName par =>
      obtain ⟨writes, hwrites, rfl⟩ := job_delete hjob
      have hkeys : res.mapM (keyOf tabName par) = some (writes.map RowWrite.key) := by
        refine mapM_eq_map ?_ hwrites
        intro row write hwrite
        obtain ⟨cell, hcell, rfl⟩ := rowWrite_eq_some_iff.mp hwrite
        simp [keyOf, hcell]
      have hdel : below.delAll (writes.map RowWrite.key) = writes.foldl RowWrite.apply below := by
        rw [SortedMap.delAll, List.foldl_map]
        apply List.foldl_ext
        intro etcd write hmem
        obtain ⟨row, -, hwrite⟩ := exists_of_mapM hwrites write hmem
        obtain ⟨cell, -, rfl⟩ := rowWrite_eq_some_iff.mp hwrite
        rfl
      simp only [execBelow] at hbelow
      simp [execOp, hbelow, hkeys, hdel, lockCalls]
  | update tabName par setColIndex setVal =>
      obtain ⟨hlength, writes, hwrites, rfl⟩ := job_update hjob
      have hrows : res.mapM (updateRow tabName par (setColIndex.zip setVal)) =
          some (writes.map fun write => (write.key, write.value.getD [])) := by
        refine mapM_eq_map ?_ hwrites
        intro row write hwrite
        obtain ⟨cell, row', hcell, hset, rfl⟩ := updateWrite_eq_some_iff.mp hwrite
        simp [updateRow, keyOf, hcell, hset]
      have hput : below.putAll ((writes.map fun write => (write.key, write.value.getD [])).map
          fun row => (row.1, row.2.recToString)) = writes.foldl RowWrite.apply below := by
        rw [SortedMap.putAll, List.foldl_map, List.foldl_map]
        apply List.foldl_ext
        intro etcd write hmem
        obtain ⟨row, -, hwrite⟩ := exists_of_mapM hwrites write hmem
        obtain ⟨cell, row', -, -, rfl⟩ := updateWrite_eq_some_iff.mp hwrite
        rfl
      simp only [execBelow] at hbelow
      simp only [execOp, hbelow, hrows, hlength, Option.bind_eq_bind, Option.bind_some, if_true,
        Option.pure_def, Option.map_some, hput, lockCalls]

/-- The locks and the writes of a job are on the same rows. -/
theorem job_locks (h : op.job tableId res = some job) :
    ∃ mode oid par, job = lockCalls mode oid par job.writes ∧
      ∀ write ∈ job.writes, ∃ rowId, write.item = .ofRow oid (Int32.ofNat par) rowId := by
  cases op with
  | tablescan tabs par => cases h
  | selection conds => cases h
  | insert tabName par record =>
      obtain ⟨write, hwrite, rfl⟩ := job_insert h
      obtain ⟨cell, -, rfl⟩ := rowWrite_eq_some_iff.mp hwrite
      exact ⟨_, _, par, rfl, by simp [lockCalls]⟩
  | delete tabName par =>
      obtain ⟨writes, hwrites, rfl⟩ := job_delete h
      refine ⟨_, _, par, rfl, ?_⟩
      intro write hmem
      obtain ⟨row, -, hwrite⟩ := exists_of_mapM hwrites write hmem
      obtain ⟨cell, -, rfl⟩ := rowWrite_eq_some_iff.mp hwrite
      exact ⟨_, rfl⟩
  | update tabName par setColIndex setVal =>
      obtain ⟨-, writes, hwrites, rfl⟩ := job_update h
      refine ⟨_, _, par, rfl, ?_⟩
      intro write hmem
      obtain ⟨row, -, hwrite⟩ := exists_of_mapM hwrites write hmem
      obtain ⟨cell, row', -, -, rfl⟩ := updateWrite_eq_some_iff.mp hwrite
      exact ⟨_, rfl⟩

end Jobs

/-- The transaction has a granted request in mode X. -/
def LockRequestQueue.holdsExclusive (q : LockRequestQueue) (txn : TxnId) : Bool :=
  q.requestQueue.any fun p => (q.requests p).txnId == txn &&
    (q.requests p).lockMode == .exlucsive && (q.requests p).granted

theorem LockRequestQueue.Protects.holdsExclusive {q : LockRequestQueue} {txn : TxnId}
    (h : q.Protects txn .exlucsive) : q.holdsExclusive txn = true := by
  obtain ⟨p, ⟨hmem, htxn, hcovers⟩, hgranted⟩ := h
  apply List.any_eq_true.mpr
  exact ⟨p, hmem, by simp [htxn, covers_exlucsive hcovers, hgranted]⟩

/-- A lock call as the operators make them: rows are locked in mode X only. -/
def Op.OfOperator (op : Op) : Prop :=
  ∃ mode item, op.lockTarget = some (mode, item) ∧ (item.type = .row → mode = .exlucsive)

/-- The thread that acts. -/
def Action.actor : Action → Option Nat
  | .invoke thread _ _ | .resume thread | .walk thread _ => some thread
  | .manager _ _ => none

namespace LockManager

variable {noWait : Bool} {σ σ' : LockManager} {thread : Nat} {txn : TxnId} {mode : LockMode}
  {item : LockDataId}

/-- The checks before the latch let a row lock in mode X and every lock on a table or a
partition pass, unless a lock may no longer be taken. -/
theorem invokeLock_refused_iff {event : Event} (hmode : item.type = .row → mode = .exlucsive)
    (h : σ.invokeLock thread txn mode item = (σ', event)) :
    event.isRefused = false ↔
      (σ.txns txn).state = .default ∨ (σ.txns txn).state = .growing := by
  have hevent : (σ.invokeLock thread txn mode item).2 = event := congrArg Prod.snd h
  have hrow : ¬ (item.type = .row ∧ mode ≠ .shared ∧ mode ≠ .exlucsive) :=
    fun hboth => hboth.2.2 (hmode hboth.1)
  rw [← hevent]
  simp only [invokeLock, beginLock, hrow]
  cases hstate : (σ.txns txn).state <;> simp [hstate, Transaction.setTransactionState]

/-- A lock call as it begins leaves the queues alone, and it goes on unless it is refused. -/
theorem invokeLock_begun {event : Event} (h : σ.invokeLock thread txn mode item = (σ', event)) :
    σ'.lockMap = σ.lockMap ∧ ((event.isRefused = true ∧ σ'.calls thread = none) ∨
      σ'.calls thread = some (.lock txn mode item .enter)) := by
  simp only [invokeLock] at h
  cases hbegin : beginLock (σ.txns txn) mode item.type with
  | error reason =>
      simp only [hbegin, refuse] at h
      cases h
      exact ⟨rfl, .inl ⟨rfl, by simp⟩⟩
  | ok txn' =>
      simp only [hbegin] at h
      cases h
      exact ⟨rfl, .inr (by simp)⟩

/-- How the next section of a lock call ends. It takes no exclusive lock of its transaction
away. A call that still waits has a listed request, and one that has returned true protects
its item. -/
theorem Effect.lock_resumed {pc : LockPc} {event : Event}
    (hcall : σ.calls thread = some (.lock txn mode item pc))
    (hwaiting : ∀ path p, pc = .waiting path p → (σ.lockMap item).Listed txn mode p)
    (h : Effect noWait σ (.resume thread) event σ') :
    (∀ row, (σ.lockMap row).Protects txn .exlucsive → (σ'.lockMap row).Protects txn .exlucsive) ∧
      ((event.isRefused = true ∧ σ'.calls thread = none) ∨
        (∃ path p, σ'.calls thread = some (.lock txn mode item (.waiting path p)) ∧
          (σ'.lockMap item).Listed txn mode p) ∨
        (σ'.calls thread = none ∧ (σ'.lockMap item).Protects txn mode)) := by
  have hset {q : LockRequestQueue} (hmap : σ'.lockMap = Function.update σ.lockMap item q)
      (hq : (σ.lockMap item).Protects txn .exlucsive → q.Protects txn .exlucsive) (row : LockDataId)
      (hrow : (σ.lockMap row).Protects txn .exlucsive) :
      (σ'.lockMap row).Protects txn .exlucsive := by
    rw [hmap, Function.update_apply]
    split
    case isTrue heq =>
      rw [heq] at hrow
      exact hq hrow
    case isFalse => exact hrow
  rcases h.lock_call_cases hcall with
    ⟨rfl, path, p, q, hprepare, hmap, hwait⟩ |
    ⟨reason, rfl, hnone, hsame | ⟨path, p, q, hprepare, hmap⟩⟩ |
    ⟨rfl, hnone, ⟨p, ⟨hmem, htxn, hgranted⟩, hmode, hsame⟩ | ⟨path, p, q, hprepare, hmap⟩⟩
  · refine ⟨hset hmap hprepare.protects_exclusive, .inr (.inl ⟨path, p, hwait, ?_⟩)⟩
    simpa [hmap] using hprepare.listed hwaiting
  · exact ⟨by simp [hsame], .inl ⟨rfl, hnone⟩⟩
  · exact ⟨hset hmap hprepare.protects_exclusive, .inl ⟨rfl, hnone⟩⟩
  · have hprotects : (σ.lockMap item).Protects txn mode :=
      ⟨p, ⟨hmem, htxn, hmode ▸ Covers.refl _⟩, hgranted⟩
    exact ⟨by simp [hsame], .inr (.inr ⟨hnone, by rwa [hsame]⟩)⟩
  · have hprotects : (granting q path p).Protects txn mode :=
      (hprepare.listed hwaiting).protects_granting
    refine ⟨hset hmap hprepare.protects_granting, .inr (.inr ⟨hnone, ?_⟩)⟩
    simpa [hmap] using hprotects

/-- A step leaves the calls of the other threads alone. -/
theorem Effect.calls_of_actor_ne {action : Action} {event : Event}
    (h : Effect noWait σ action event σ') (hactor : action.actor ≠ some thread) :
    σ'.calls thread = σ.calls thread := by
  have hset {actor : Nat} (call : Option Call) (hne : some actor ≠ some thread) :
      Function.update σ.calls actor call thread = σ.calls thread := by
    apply Function.update_of_ne
    rintro rfl
    exact hne rfl
  cases h with
  | managerWrote => rfl
  | _ => exact hset _ hactor

end LockManager

/-- The lock manager and the job of one operator. -/
structure Running where
  manager : LockManager
  job : Job

inductive OperatorAction where
  | own
  | other (action : Action)

/-- A write shows whether the row was locked in mode X. -/
inductive OperatorEvent where
  | lock (event : Event)
  | wrote (write : RowWrite) (held : Bool)
  | other (event : Event)

def OperatorEvent.isRefused : OperatorEvent → Bool
  | .lock event => event.isRefused
  | _ => false

def OperatorEvent.written : OperatorEvent → Option RowWrite
  | .wrote write _ => some write
  | _ => none

/-- A write of a row that is not locked in mode X. -/
def OperatorEvent.isUnlockedWrite : OperatorEvent → Bool
  | .wrote _ held => !held
  | _ => false

theorem OperatorEvent.isUnlockedWrite_of_written {event : OperatorEvent}
    (h : event.written = none) : event.isUnlockedWrite = false := by
  cases event with
  | wrote write held => cases h
  | _ => rfl

/-- An operator writes nothing if one of its lock calls is refused, and it writes a row only
under an exclusive lock on it. -/
def LockedWrites (trace : List (OperatorAction × OperatorEvent)) : Prop :=
  ((∃ label ∈ trace, label.2.isRefused = true) → ∀ label ∈ trace, label.2.written = none) ∧
    ∀ label ∈ trace, label.2.isUnlockedWrite = false

instance (trace : List (OperatorAction × OperatorEvent)) : Decidable (LockedWrites trace) :=
  inferInstanceAs (Decidable (_ ∧ _))

namespace Running

variable (noWait : Bool) (thread : Nat) (txn : TxnId)

/-- One step: of the operator, which `thread` runs for `txn`, or of another thread for
another transaction. -/
def step (s : Running) : OperatorAction → Option (Running × OperatorEvent)
  | .own =>
      match s.manager.calls thread, s.job.locks, s.job.writes with
      | some _, _, _ =>
          (LockManager.step noWait s.manager (.resume thread)).map fun next =>
            (⟨next.1, s.job⟩, .lock next.2)
      | none, op :: locks, writes =>
          (LockManager.step noWait s.manager (.invoke thread txn op)).map fun next =>
            (⟨next.1, ⟨locks, writes⟩⟩, .lock next.2)
      | none, [], write :: writes =>
          some (⟨s.manager, ⟨[], writes⟩⟩,
            .wrote write ((s.manager.lockMap write.item).holdsExclusive txn))
      | none, [], [] => none
  | .other action => do
      let next ← LockManager.step noWait s.manager action
      if action.actor ≠ some thread ∧ next.2.txn ≠ txn then
        some (⟨next.1, s.job⟩, .other next.2)
      else none

/-- The operator has returned. -/
def Done (s : Running) : Prop :=
  s.manager.calls thread = none ∧ s.job.locks = [] ∧ s.job.writes = []

/-- The outcomes of one step. -/
inductive Outcome (s : Running) : OperatorAction → OperatorEvent → Running → Prop
  | invoked (op : Op) (locks : List Op) (event : Event) (manager : LockManager)
      (hidle : s.manager.calls thread = none) (hlocks : s.job.locks = op :: locks)
      (hstep : LockManager.step noWait s.manager (.invoke thread txn op) = some (manager, event)) :
      Outcome s .own (.lock event) ⟨manager, ⟨locks, s.job.writes⟩⟩
  | resumed (call : Call) (event : Event) (manager : LockManager)
      (hcall : s.manager.calls thread = some call)
      (hstep : LockManager.step noWait s.manager (.resume thread) = some (manager, event)) :
      Outcome s .own (.lock event) ⟨manager, s.job⟩
  | wrote (write : RowWrite) (writes : List RowWrite) (hidle : s.manager.calls thread = none)
      (hlocks : s.job.locks = []) (hwrites : s.job.writes = write :: writes) :
      Outcome s .own (.wrote write ((s.manager.lockMap write.item).holdsExclusive txn))
        ⟨s.manager, ⟨[], writes⟩⟩
  | passed (action : Action) (event : Event) (manager : LockManager)
      (hactor : action.actor ≠ some thread) (hother : event.txn ≠ txn)
      (hstep : LockManager.step noWait s.manager action = some (manager, event)) :
      Outcome s (.other action) (.other event) ⟨manager, s.job⟩

variable {noWait : Bool} {thread : Nat} {txn : TxnId} {s s' : Running}

theorem step_outcome {action : OperatorAction} {event : OperatorEvent}
    (h : s.step noWait thread txn action = some (s', event)) :
    Outcome noWait thread txn s action event s' := by
  obtain ⟨manager, locks, writes⟩ := s
  cases action with
  | own =>
      simp only [step] at h
      cases hcall : manager.calls thread with
      | some call =>
          simp only [hcall] at h
          obtain ⟨⟨manager', event⟩, hstep, heq⟩ := Option.map_eq_some_iff.mp h
          cases heq
          exact .resumed call event manager' hcall hstep
      | none =>
          cases locks with
          | cons op locks =>
              simp only [hcall] at h
              obtain ⟨⟨manager', event⟩, hstep, heq⟩ := Option.map_eq_some_iff.mp h
              cases heq
              exact .invoked op locks event manager' hcall rfl hstep
          | nil =>
              cases writes with
              | nil => simp [hcall] at h
              | cons write writes =>
                  simp only [hcall, Option.some.injEq, Prod.mk.injEq] at h
                  obtain ⟨rfl, rfl⟩ := h
                  exact .wrote write writes hcall rfl rfl
  | other action =>
      obtain ⟨⟨manager', event⟩, hstep, hnext⟩ := Option.bind_eq_some_iff.mp h
      split at hnext
      next hcond =>
        cases hnext
        exact .passed action event manager' hcond.1 hcond.2 hstep
      next => cases hnext

/-- The condition on the state before a step: the lock manager does not refuse the operator's
next lock call, or the next section of the one it is in. -/
def Grants (noWait : Bool) (thread : Nat) (txn : TxnId) (s : Running) : OperatorAction → Prop
  | .other _ => True
  | .own =>
      match s.manager.calls thread with
      | some (.lock txn mode item pc) => Admits noWait s.manager txn mode item pc
      | some _ => True
      | none => s.job.locks = [] ∨ (s.manager.txns txn).state = .default ∨
          (s.manager.txns txn).state = .growing

/-- What every step keeps: the operator is in no call but the lock calls it makes for its
transaction, and while one of them waits its request is in the queue. -/
structure Calling (thread : Nat) (txn : TxnId) (s : Running) : Prop where
  waiters : WaitersOwn s.manager
  ahead : ∀ op ∈ s.job.locks, op.OfOperator
  current : ∀ call, s.manager.calls thread = some call → ∃ mode item pc,
    call = .lock txn mode item pc ∧
      ∀ path p, pc = .waiting path p → (s.manager.lockMap item).Listed txn mode p

/-- The row of a write is locked in mode X, or the call that locks it is under way or still
to be made. -/
def Guarded (thread : Nat) (txn : TxnId) (s : Running) (write : RowWrite) : Prop :=
  (s.manager.lockMap write.item).Protects txn .exlucsive ∨
    (∃ pc, s.manager.calls thread = some (.lock txn .exlucsive write.item pc)) ∨
    ∃ op ∈ s.job.locks, op.lockTarget = some (.exlucsive, write.item)

theorem Outcome.calling {action : OperatorAction} {event : OperatorEvent}
    (h : Outcome noWait thread txn s action event s') (hs : Calling thread txn s) :
    Calling thread txn s' := by
  cases h with
  | invoked op locks event manager hidle hlocks hstep =>
      obtain ⟨mode, item, htarget, -⟩ := hs.ahead op (by simp [hlocks])
      have hown := (step_effect hstep).waitersOwn hs.waiters
      rw [step_invoke_eq htarget hidle] at hstep
      obtain ⟨-, hcalls⟩ := invokeLock_begun (Option.some.inj hstep)
      refine ⟨hown, ?_, ?_⟩
      · intro op' hop'
        exact hs.ahead op' (by simp [hlocks, hop'])
      · intro call hcall
        rcases hcalls with ⟨-, hnone⟩ | henter
        · simp [hnone] at hcall
        · simp only [henter, Option.some.injEq] at hcall
          exact ⟨mode, item, .enter, hcall.symm, by simp⟩
  | resumed call event manager hcall hstep =>
      obtain ⟨mode, item, pc, rfl, hwaiting⟩ := hs.current call hcall
      have heffect := step_effect hstep
      refine ⟨heffect.waitersOwn hs.waiters, hs.ahead, ?_⟩
      intro call hcall'
      obtain ⟨-, ⟨-, hnone⟩ | ⟨path, p, hwait, hlisted⟩ | ⟨hnone, -⟩⟩ :=
        heffect.lock_resumed hcall hwaiting
      · simp [hnone] at hcall'
      · simp only [hwait, Option.some.injEq] at hcall'
        refine ⟨mode, item, _, hcall'.symm, ?_⟩
        rintro path' p' heq
        cases heq
        exact hlisted
      · simp [hnone] at hcall'
  | wrote write writes hidle hlocks hwrites =>
      exact ⟨hs.waiters, by simp, hs.current⟩
  | passed action event manager hactor hother hstep =>
      have heffect := step_effect hstep
      refine ⟨heffect.waitersOwn hs.waiters, hs.ahead, ?_⟩
      intro call hcall
      rw [heffect.calls_of_actor_ne hactor] at hcall
      obtain ⟨mode, item, pc, rfl, hwaiting⟩ := hs.current call hcall
      refine ⟨mode, item, pc, rfl, ?_⟩
      intro path p hpc
      exact (hwaiting path p hpc).moves_of_ne (heffect.moves hs.waiters item) hother

/-- Until a lock call is refused, every row to be written stays guarded. -/
theorem Outcome.guarded {action : OperatorAction} {event : OperatorEvent} {write : RowWrite}
    (h : Outcome noWait thread txn s action event s') (hs : Calling thread txn s)
    (hevent : event.isRefused = false) (hwrite : Guarded thread txn s write) :
    Guarded thread txn s' write := by
  cases h with
  | invoked op locks event manager hidle hlocks hstep =>
      obtain ⟨mode, item, htarget, -⟩ := hs.ahead op (by simp [hlocks])
      rw [step_invoke_eq htarget hidle] at hstep
      obtain ⟨hmap, ⟨hrefused, -⟩ | henter⟩ := invokeLock_begun (Option.some.inj hstep)
      · simp [OperatorEvent.isRefused, hrefused] at hevent
      · rcases hwrite with hprotects | ⟨pc, hcall⟩ | ⟨op', hop', htarget'⟩
        · exact .inl (by rwa [hmap])
        · simp [hidle] at hcall
        · rw [hlocks, List.mem_cons] at hop'
          rcases hop' with rfl | hahead
          · -- the call that locks the row begins
            rw [htarget] at htarget'
            cases htarget'
            exact .inr (.inl ⟨.enter, henter⟩)
          · exact .inr (.inr ⟨op', hahead, htarget'⟩)
  | resumed call event manager hcall hstep =>
      obtain ⟨mode, item, pc, rfl, hwaiting⟩ := hs.current call hcall
      obtain ⟨hkeeps, hcalls⟩ := (step_effect hstep).lock_resumed hcall hwaiting
      rcases hwrite with hprotects | ⟨pc', hcall'⟩ | hahead
      · exact .inl (hkeeps _ hprotects)
      · rw [hcall] at hcall'
        cases hcall'
        rcases hcalls with ⟨hrefused, -⟩ | ⟨path, p, hwait, -⟩ | ⟨-, hprotects⟩
        · simp [OperatorEvent.isRefused, hrefused] at hevent
        · exact .inr (.inl ⟨_, hwait⟩)
        · exact .inl hprotects
      · exact .inr (.inr hahead)
  | wrote write' writes hidle hlocks hwrites =>
      rcases hwrite with hprotects | hcall | ⟨op, hop, -⟩
      · exact .inl hprotects
      · exact .inr (.inl hcall)
      · simp [hlocks] at hop
  | passed action event manager hactor hother hstep =>
      have heffect := step_effect hstep
      rcases hwrite with hprotects | ⟨pc, hcall⟩ | hahead
      · exact .inl (hprotects.moves_of_ne (heffect.moves hs.waiters _) hother)
      · refine .inr (.inl ⟨pc, ?_⟩)
        rw [← hcall]
        exact heffect.calls_of_actor_ne hactor
      · exact .inr (.inr hahead)

theorem Outcome.grants_iff {action : OperatorAction} {event : OperatorEvent}
    (h : Outcome noWait thread txn s action event s') (hs : Calling thread txn s) :
    Grants noWait thread txn s action ↔ event.isRefused = false := by
  cases h with
  | invoked op locks event manager hidle hlocks hstep =>
      obtain ⟨mode, item, htarget, hrow⟩ := hs.ahead op (by simp [hlocks])
      rw [step_invoke_eq htarget hidle] at hstep
      have hiff := invokeLock_refused_iff hrow (Option.some.inj hstep)
      simp [Grants, hidle, hlocks, OperatorEvent.isRefused, hiff]
  | resumed call event manager hcall hstep =>
      obtain ⟨mode, item, pc, rfl, -⟩ := hs.current call hcall
      simp only [LockManager.step, hcall, Option.bind_some] at hstep
      simp [Grants, hcall, OperatorEvent.isRefused, resume_refused_iff hstep]
  | wrote write writes hidle hlocks hwrites =>
      simp [Grants, hidle, hlocks, OperatorEvent.isRefused]
  | passed action event manager hactor hother hstep =>
      simp [Grants, OperatorEvent.isRefused]

theorem Outcome.written {action : OperatorAction} {event : OperatorEvent}
    (h : Outcome noWait thread txn s action event s') :
    s.job.writes = event.written.toList ++ s'.job.writes := by
  cases h with
  | wrote write writes hidle hlocks hwrites => simpa [OperatorEvent.written] using hwrites
  | _ => simp [OperatorEvent.written]

theorem Outcome.not_unlocked {action : OperatorAction} {event : OperatorEvent}
    (h : Outcome noWait thread txn s action event s')
    (hwrites : ∀ write ∈ s.job.writes, Guarded thread txn s write) :
    event.isUnlockedWrite = false := by
  cases h with
  | wrote write writes hidle hlocks hwrites' =>
      have hheld : (s.manager.lockMap write.item).holdsExclusive txn = true := by
        rcases hwrites write (by simp [hwrites']) with hprotects | ⟨pc, hcall⟩ | ⟨op, hop, -⟩
        · exact hprotects.holdsExclusive
        · simp [hidle] at hcall
        · simp [hlocks] at hop
      simp [OperatorEvent.isUnlockedWrite, hheld]
  | _ => rfl

section Runs

variable {trace : List (OperatorAction × OperatorEvent)}

/-- An operator that has returned has made all its writes, whatever its lock calls returned. -/
theorem run_writes (hrun : Lts.Run (Lts.Steps (step noWait thread txn)) s trace s')
    (hdone : s'.Done thread) : trace.filterMap (fun label => label.2.written) = s.job.writes := by
  have hmade := hrun.preserves_past
    (fun past t => s.job.writes = past.filterMap (fun label => label.2.written) ++ t.job.writes) (by
      intro past t label u hstep hpast
      rw [hpast, (step_outcome hstep).written]
      cases hwritten : label.2.written <;> simp [hwritten]) (by simp)
  rw [hmade, hdone.2.2, List.append_nil]

/-- A step whose lock call is not refused. -/
def GrantedStep (noWait : Bool) (thread : Nat) (txn : TxnId) (s : Running)
    (label : OperatorAction × OperatorEvent) (s' : Running) : Prop :=
  Grants noWait thread txn s label.1 ∧ Lts.Steps (step noWait thread txn) s label s'

theorem run_granted_iff (hrun : Lts.Run (Lts.Steps (step noWait thread txn)) s trace s')
    (hs : Calling thread txn s) :
    (∀ label ∈ trace, label.2.isRefused = false) ↔
      Lts.Run (GrantedStep noWait thread txn) s trace s' := by
  apply hrun.labels_iff (Calling thread txn) (fun label => label.2.isRefused = false)
  · intro t label u hstep ht
    exact (step_outcome hstep).calling ht
  · intro t label u ht hstep
    exact (step_outcome hstep).grants_iff ht
  · exact hs

/-- While no lock call is refused, no row is written without its lock. -/
theorem granted_run_locked (hrun : Lts.Run (GrantedStep noWait thread txn) s trace s')
    (hs : Calling thread txn s) (hwrites : ∀ write ∈ s.job.writes, Guarded thread txn s write) :
    ∀ label ∈ trace, label.2.isUnlockedWrite = false := by
  have hall := hrun.preserves_past
    (fun past t => (Calling thread txn t ∧ ∀ write ∈ t.job.writes, Guarded thread txn t write) ∧
      ∀ label ∈ past, label.2.isUnlockedWrite = false) (by
      rintro past t label u ⟨hgrants, hstep⟩ ⟨⟨ht, hguarded⟩, hpast⟩
      have houtcome := step_outcome hstep
      have hevent := (houtcome.grants_iff ht).mp hgrants
      refine ⟨⟨houtcome.calling ht, ?_⟩, ?_⟩
      · intro write hwrite
        apply houtcome.guarded ht hevent
        apply hguarded
        rw [houtcome.written]
        exact List.mem_append_right _ hwrite
      · intro label' hmem
        rcases List.mem_append.mp hmem with hold | hnew
        · exact hpast label' hold
        · rw [List.mem_singleton.mp hnew]
          exact houtcome.not_unlocked hguarded) ⟨⟨hs, hwrites⟩, by simp⟩
  exact hall.2

variable {σ : LockManager} {tableId : Text → TableOid} {op : Operator} {res : List Record}
  {job : Job}

theorem job_calling (hown : WaitersOwn σ) (hidle : σ.calls thread = none)
    (hjob : op.job tableId res = some job) : Calling thread txn ⟨σ, job⟩ := by
  obtain ⟨mode, oid, par, heq, hrows⟩ := job_locks hjob
  refine ⟨hown, ?_, by simp [hidle]⟩
  intro op hop
  simp only at hop
  rw [heq] at hop
  simp only [lockCalls, List.mem_cons, List.mem_map] at hop
  rcases hop with rfl | rfl | ⟨write, hwrite, rfl⟩
  · exact ⟨mode, _, rfl, by simp [LockDataId.ofTable]⟩
  · exact ⟨mode, _, rfl, by simp [LockDataId.ofPartition]⟩
  · exact ⟨.exlucsive, _, rfl, by simp⟩

theorem job_guarded (hjob : op.job tableId res = some job) :
    ∀ write ∈ job.writes, Guarded thread txn ⟨σ, job⟩ write := by
  obtain ⟨mode, oid, par, heq, hrows⟩ := job_locks hjob
  intro write hwrite
  obtain ⟨rowId, hitem⟩ := hrows write hwrite
  refine .inr (.inr ⟨rowLock write.item, ?_, ?_⟩)
  · simp only
    rw [heq]
    simp only [lockCalls, List.mem_cons, List.mem_map]
    exact .inr (.inr ⟨write, hwrite, rfl⟩)
  · rw [hitem]
    rfl

/-- Whatever other transactions do meanwhile, an operator writes under its locks and writes
nothing after a refused lock call exactly if it has nothing to write or every step finds its
lock call granted. -/
theorem writes_locked_iff (hown : WaitersOwn σ) (hidle : σ.calls thread = none)
    (hjob : op.job tableId res = some job)
    (hrun : Lts.Run (Lts.Steps (step noWait thread txn)) ⟨σ, job⟩ trace s')
    (hdone : s'.Done thread) :
    LockedWrites trace ↔
      job.writes = [] ∨ Lts.Run (GrantedStep noWait thread txn) ⟨σ, job⟩ trace s' := by
  have hcalling : Calling thread txn ⟨σ, job⟩ := job_calling hown hidle hjob
  have hmade : trace.filterMap (fun label => label.2.written) = job.writes :=
    run_writes hrun hdone
  have hnothing : job.writes = [] ↔ ∀ label ∈ trace, label.2.written = none := by
    rw [← hmade, List.filterMap_eq_nil_iff]
  rw [← run_granted_iff hrun hcalling, hnothing]
  constructor
  · rintro ⟨hstop, -⟩
    by_cases hrefused : ∃ label ∈ trace, label.2.isRefused = true
    · exact .inl (hstop hrefused)
    · exact .inr (by simpa using hrefused)
  · rintro (hnone | hgranted)
    · refine ⟨fun _ => hnone, ?_⟩
      intro label hmem
      exact OperatorEvent.isUnlockedWrite_of_written (hnone label hmem)
    · refine ⟨?_, ?_⟩
      · rintro ⟨label, hmem, hrefused⟩
        simp [hgranted label hmem] at hrefused
      · have hlocked := (run_granted_iff hrun hcalling).mp hgranted
        exact granted_run_locked hlocked hcalling (job_guarded hjob)

end Runs

section Examples

/-- Inserts a row with the key `n` into partition 0 of a table. -/
def insertRow (n : Int32) : Operator := .insert ['t'] 0 [⟨['a'], ['t'], n⟩]

/-- The job of that insert, where the table has the id 5. -/
def insertJob (n : Int32) : Job :=
  lockCalls .intentionExclusive 5 0
    [⟨.ofRow 5 0 n, rowKey ['t'] 0 n, some [⟨['a'], ['t'], n⟩]⟩]

theorem insertRow_job (n : Int32) : (insertRow n).job (fun _ => 5) [] = some (insertJob n) := rfl

/-- Thread 1 makes the lock calls of the insert of row 1 for transaction 2. Then the operator
of thread 0 runs to its end. -/
def besideOther : List OperatorAction :=
  ((insertJob 1).locks.flatMap fun op => [.other (.invoke 1 2 op), .other (.resume 1)]) ++
    List.replicate 7 .own

theorem besideOther_run (n : Int32) (locked : Bool)
    (h : (Lts.exec (step true 0 1) ⟨init, insertJob n⟩ besideOther).map (fun last =>
      (decide (LockedWrites (besideOther.zip last.2)), last.1.manager.calls 0, last.1.job)) =
        some (locked, none, ⟨[], []⟩)) :
    ∃ trace s', Lts.Run (Lts.Steps (step true 0 1)) ⟨init, insertJob n⟩ trace s' ∧
      s'.Done 0 ∧ decide (LockedWrites trace) = locked := by
  obtain ⟨⟨s', events⟩, hexec, hlast⟩ := Option.map_eq_some_iff.mp h
  simp only [Prod.mk.injEq] at hlast
  obtain ⟨hlocked, hcalls, hjob⟩ := hlast
  exact ⟨_, s', Lts.run_of_exec _ _ hexec, ⟨hcalls, by simp [hjob], by simp [hjob]⟩, hlocked⟩

/-- Row 2 is free, and it is locked when it is written. -/
theorem freeRow_locked : ∃ trace s',
    Lts.Run (Lts.Steps (step true 0 1)) ⟨init, insertJob 2⟩ trace s' ∧ s'.Done 0 ∧
      LockedWrites trace ∧ Lts.Run (GrantedStep true 0 1) ⟨init, insertJob 2⟩ trace s' := by
  obtain ⟨trace, s', hrun, hdone, hlocked⟩ := besideOther_run 2 true (by decide +kernel)
  have hiff := writes_locked_iff waitersOwn_init rfl (insertRow_job 2) hrun hdone
  have hwrites : (insertJob 2).writes ≠ [] := by simp [insertJob, lockCalls]
  have hholds := of_decide_eq_true hlocked
  exact ⟨trace, s', hrun, hdone, hholds, (hiff.mp hholds).resolve_left hwrites⟩

/-- The lock on row 1 is refused, and the operator writes the row all the same. -/
theorem heldRow_written :
    ¬ ∀ (noWait : Bool) (thread : Nat) (txn : TxnId) (σ : LockManager)
      (tableId : Text → TableOid) (op : Operator) (res : List Record) (job : Job)
      (trace : List (OperatorAction × OperatorEvent)) (s' : Running),
      WaitersOwn σ → σ.calls thread = none → op.job tableId res = some job →
      Lts.Run (Lts.Steps (step noWait thread txn)) ⟨σ, job⟩ trace s' → s'.Done thread →
      LockedWrites trace := by
  intro hall
  obtain ⟨trace, s', hrun, hdone, hlocked⟩ :=
    besideOther_run 1 false (by decide +kernel)
  have hclaim := hall true 0 1 init _ _ [] _ trace s' waitersOwn_init rfl (insertRow_job 1) hrun
    hdone
  exact of_decide_eq_false hlocked hclaim

end Examples

end Running

end RucDDBS
