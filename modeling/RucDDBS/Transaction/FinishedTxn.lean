import RucDDBS.Transaction.OperationServer
import RucDDBS.Transaction.ReleasedLocks

/-!
What happens for a transaction that has been aborted or committed. Neither
handler keeps the operations away: `AbortSingle` does not set the state, so that
a transaction without locks can still be locked for after its abort, and a lock
call that is past its check, or a store operation whose lock has been granted,
goes on beside both handlers and after them.

Under three conditions nothing happens: when a handler starts to release the
locks, no lock call of the transaction is under way unless it is `ABORTED`; from
then on no lock call begins in one of the first two states; and at the erasure
no store operation is still to come.
-/

namespace RucDDBS

namespace Task

/-- The task has begun to release the locks of `txn`. -/
def releases (txn : TxnId) : Task → Bool
  | .releasing owner _ | .released owner _ => owner = txn
  | _ => false

/-- It is going to set `COMMITTED` afterwards. -/
def commits (txn : TxnId) : Task → Bool
  | .releasing owner commit | .released owner commit => owner = txn && commit
  | _ => false

def hasReleased (txn : TxnId) : Task → Bool
  | .released owner _ => owner = txn
  | _ => false

/-- It has still to change the store for `txn`. -/
def writes (txn : TxnId) : Task → Bool
  | .writing owner _ | .undoing owner => owner = txn
  | _ => false

theorem releases_of_commits {txn : TxnId} {task : Task} (h : task.commits txn = true) :
    task.releases txn = true := by
  cases task <;> simp_all [commits, releases]

theorem releases_of_hasReleased {txn : TxnId} {task : Task} (h : task.hasReleased txn = true) :
    task.releases txn = true := by
  cases task <;> simp_all [hasReleased, releases]

end Task

/-- The call of the lock manager that a task is in. -/
def Task.Fits : Task → Option Call → Prop
  | .locking txn _, call => ∃ mode item pc, call = some (.lock txn mode item pc)
  | .releasing txn _, call => ∃ loops ahead current, call = some (.release txn loops ahead current)
  | _, call => call = none

namespace OperationServer

open LockManager

variable {noWait : Bool} {s s' : OperationServer} {action : Action} {event : Event} {txn : TxnId}

/-- Which section of the lock manager a thread runs, and the task it goes on
with. -/
inductive Uses (s : OperationServer) (thread : Nat) :
    Action → RucDDBS.Action → (RucDDBS.Event → Task) → Prop
  | operate (txn : TxnId) (op : Op) (write : TxnOp) (htask : s.tasks thread = .holding txn)
      (hop : op.isLock = true) :
      Uses s thread (.operate thread op write) (.invoke thread txn op) (afterLock txn write)
  | locking (txn : TxnId) (write : TxnOp) (htask : s.tasks thread = .locking txn write) :
      Uses s thread (.next thread) (.resume thread) (afterLock txn write)
  | abort (txn : TxnId) (htask : s.tasks thread = .undoing txn) (hempty : s.writeSet txn = []) :
      Uses s thread (.next thread) (.invoke thread txn .releaseLocks) (afterRelease txn false)
  | commit (txn : TxnId) (htask : s.tasks thread = .checking txn)
      (hlive : (s.locks.txns txn).state ≠ .aborted) :
      Uses s thread (.next thread) (.invoke thread txn .releaseLocks) (afterRelease txn true)
  | releasing (txn : TxnId) (commit : Bool) (htask : s.tasks thread = .releasing txn commit) :
      Uses s thread (.next thread) (.resume thread) (afterRelease txn commit)
  | walking (txn : TxnId) (commit : Bool) (order : List LockDataId)
      (htask : s.tasks thread = .releasing txn commit) :
      Uses s thread (.walk thread order) (.walk thread order) (afterRelease txn commit)

/-- The outcomes of one step. -/
inductive Effect (noWait : Bool) (s : OperationServer) : Action → Event → OperationServer → Prop
  | found (action : Action) (thread : Nat) (txn : TxnId) (task : Task)
      (hidle : s.tasks thread = .idle) (hmap : s.txnMap txn = true)
      (htask : task = .holding txn ∨ task = .undoing txn ∨ task = .checking txn) :
      Effect noWait s action (.found txn) (s.setTask thread task)
  | unknown (action : Action) : Effect noWait s action (.answered false) s
  | answered (thread : Nat) (txn : TxnId) (ok : Bool)
      (htask : s.tasks thread = .holding txn ∨ s.tasks thread = .checking txn) :
      Effect noWait s (.next thread) (.answered ok) (s.setTask thread .idle)
  | locked (action : Action) (thread : Nat) (lockAction : RucDDBS.Action)
      (after : RucDDBS.Event → Task) (locks : LockManager) (event : RucDDBS.Event)
      (huses : s.Uses thread action lockAction after)
      (hstep : LockManager.step noWait s.locks lockAction = some (locks, event)) :
      Effect noWait s action (.lock event) ((s.setLocks locks).setTask thread (after event))
  | stored (thread : Nat) (txn : TxnId) (write : TxnOp)
      (htask : s.tasks thread = .writing txn write) :
      Effect noWait s (.next thread) (.stored txn write)
        ((s.store txn write).setTask thread (.holding txn))
  | undone (thread : Nat) (txn : TxnId) (item : WriteRecord)
      (htask : s.tasks thread = .undoing txn) :
      Effect noWait s (.next thread) (.undone txn) (s.undo txn item)
  | prepared (txn : TxnId) :
      Effect noWait s (.prepareTransaction txn) (.prepared txn) (s.writeState txn .prepareCommit)
  | committed (thread : Nat) (txn : TxnId) (htask : s.tasks thread = .released txn true) :
      Effect noWait s (.next thread) (.committed txn)
        ((s.writeState txn .commitSingle).setTask thread (.released txn false))
  | completed (thread : Nat) (txn : TxnId) (htask : s.tasks thread = .released txn false) :
      Effect noWait s (.next thread) (.completed txn) ((s.eraseTxn txn).setTask thread .idle)

section Completeness

theorem lockStep_effect {thread : Nat} {lockAction : RucDDBS.Action} {after : RucDDBS.Event → Task}
    (huses : s.Uses thread action lockAction after)
    (h : s.lockStep noWait thread lockAction after = some (s', event)) :
    Effect noWait s action event s' := by
  simp only [lockStep, Option.map_eq_some_iff, Prod.exists, Prod.mk.injEq] at h
  obtain ⟨locks, lockEvent, hstep, rfl, rfl⟩ := h
  exact .locked action thread lockAction after locks lockEvent huses hstep

theorem handler_effect {thread : Nat} {task : Task}
    (htask : task = .undoing txn ∨ task = .checking txn)
    (h : s.handler thread txn task = some (s', event)) : Effect noWait s action event s' := by
  unfold handler at h
  split at h
  · cases h
  next hidle =>
    split at h
    next hmap =>
      cases h
      exact .found action thread txn task (by simpa using hidle) hmap (.inr htask)
    next =>
      cases h
      exact .unknown action

theorem next_effect {thread : Nat} (h : s.next noWait thread (s.tasks thread) = some (s', event)) :
    Effect noWait s (.next thread) event s' := by
  cases htask : s.tasks thread with
  | idle =>
      rw [htask] at h
      cases h
  | holding txn =>
      rw [htask] at h
      cases h
      exact .answered thread txn true (.inl htask)
  | locking txn write =>
      rw [htask] at h
      exact lockStep_effect (.locking txn write htask) h
  | writing txn write =>
      rw [htask] at h
      cases h
      exact .stored thread txn write htask
  | undoing txn =>
      rw [htask] at h
      simp only [next] at h
      split at h
      next item _ =>
        cases h
        exact .undone thread txn item htask
      next hempty =>
        exact lockStep_effect (.abort txn htask (List.getLast?_eq_none_iff.mp hempty)) h
  | checking txn =>
      rw [htask] at h
      simp only [next] at h
      split at h
      next hlive =>
        exact lockStep_effect
          (.commit txn htask (by simpa [Transaction.commitSingleReturns] using hlive)) h
      next =>
        cases h
        exact .answered thread txn false (.inr htask)
  | releasing txn commit =>
      rw [htask] at h
      exact lockStep_effect (.releasing txn commit htask) h
  | released txn commit =>
      rw [htask] at h
      cases commit with
      | true =>
          cases h
          exact .committed thread txn htask
      | false =>
          cases h
          exact .completed thread txn htask

/-- Every step has one of the listed effects. -/
theorem step_effect (h : step noWait s action = some (s', event)) :
    Effect noWait s action event s' := by
  cases action with
  | sendOperator thread txn =>
      simp only [step] at h
      split at h
      next hfound =>
        cases h
        exact .found _ thread txn _ hfound.1 hfound.2 (.inl rfl)
      next => cases h
  | operate thread op write =>
      simp only [step] at h
      split at h
      next txn htask =>
        split at h
        next hop => exact lockStep_effect (.operate txn op write htask hop) h
        next => cases h
      next => cases h
  | prepareTransaction txn =>
      cases h
      exact .prepared txn
  | abortTransaction thread txn => exact handler_effect (.inl rfl) h
  | commitTransaction thread txn => exact handler_effect (.inr rfl) h
  | next thread => exact next_effect h
  | walk thread order =>
      simp only [step] at h
      split at h
      next txn commit htask => exact lockStep_effect (.walking txn commit order htask) h
      next => cases h

end Completeness

section Matching

variable {thread : Nat} {lockAction : RucDDBS.Action} {after : RucDDBS.Event → Task}
  {locks : LockManager} {lockEvent : RucDDBS.Event}

theorem fits_release {task : Task} {loops : List LockSetName} {ahead : List LockDataId}
    {current : Option (LockDataId × UnlockPc)}
    (h : task.Fits (some (.release txn loops ahead current))) : task.releases txn = true := by
  cases task <;> simp_all [Task.Fits, Task.releases]

theorem Uses.runBy (h : s.Uses thread action lockAction after) : RunBy thread lockAction := by
  cases h <;> exact rfl

theorem Uses.unsettled (h : s.Uses thread action lockAction after) : Unsettled txn lockAction := by
  cases h <;> exact ⟨by simp, by simp⟩

theorem Uses.ops (h : s.Uses thread action lockAction after) :
    ∀ actor op, lockAction = .invoke actor txn op → op.isLock = true ∨ op = .releaseLocks := by
  rintro actor op rfl
  cases h with
  | operate _ _ _ _ hop => exact .inl hop
  | abort => exact .inr rfl
  | commit => exact .inr rfl

theorem fits_begin_release {txn' : TxnId} {commit : Bool}
    (hstep : LockManager.step noWait s.locks (.invoke thread txn' .releaseLocks) =
      some (locks, lockEvent)) :
    (afterRelease txn' commit lockEvent).Fits (locks.calls thread) := by
  cases LockManager.step_effect hstep with
  | begun _ _ _ _ _ _ _ _ _ _ hop => cases hop
  | rejected _ _ _ _ _ _ _ hop => cases hop
  | unlockBegun _ _ _ _ _ _ _ hcall => exact absurd rfl hcall
  | releaseBegun => exact ⟨releaseOrder, [], none, by simp⟩

theorem fits_lock {txn' : TxnId} {write : TxnOp} {mode : LockMode} {item : LockDataId}
    {pc : LockPc} (hcall : s.locks.calls thread = some (.lock txn' mode item pc))
    (h : LockManager.Effect noWait s.locks (.resume thread) lockEvent locks) :
    (afterLock txn' write lockEvent).Fits (locks.calls thread) := by
  rcases h.lock_call_cases hcall with
    ⟨rfl, path, p, _, -, -, hwait⟩ | ⟨reason, rfl, hnone, -⟩ | ⟨rfl, hnone, -⟩
  · exact ⟨mode, item, .waiting path p, hwait⟩
  · simp [afterLock, Task.Fits, hnone]
  · simp [afterLock, Task.Fits, hnone]

theorem fits_release_step {txn' : TxnId} {commit : Bool} {loops : List LockSetName}
    {ahead : List LockDataId} {current : Option (LockDataId × UnlockPc)}
    (hcall : s.locks.calls thread = some (.release txn' loops ahead current))
    (h : LockManager.Effect noWait s.locks (.resume thread) lockEvent locks) :
    (afterRelease txn' commit lockEvent).Fits (locks.calls thread) := by
  have hother {owner : TxnId} {mode : LockMode} {item : LockDataId} {pc : LockPc} :
      s.locks.calls thread ≠ some (.lock owner mode item pc) := by simp [hcall]
  cases h with
  | parked _ _ _ _ _ _ _ _ hcall' => exact absurd hcall' hother
  | refused _ _ _ _ _ _ _ _ hcall' => exact absurd hcall' hother
  | refusedEarly _ _ _ _ _ hcall' => exact absurd hcall' hother
  | held _ _ _ _ _ hcall' => exact absurd hcall' hother
  | acquired _ _ _ _ _ _ _ _ hcall' => exact absurd hcall' hother
  | unlockHit _ _ _ _ _ _ _ hcall' hunlocking =>
      rw [hcall] at hcall'
      cases hcall'
      cases hunlocking
      exact ⟨_, _, _, Function.update_self thread _ _⟩
  | unlockMiss _ _ _ _ _ hcall' hunlocking =>
      rw [hcall] at hcall'
      cases hcall'
      cases hunlocking
      exact ⟨_, _, _, Function.update_self thread _ _⟩
  | erased _ _ _ _ _ _ hcall' herasing =>
      rw [hcall] at hcall'
      cases hcall'
      cases herasing
      exact ⟨_, _, _, Function.update_self thread _ _⟩
  | releaseVisited _ _ _ _ _ hcall' =>
      rw [hcall] at hcall'
      cases hcall'
      exact ⟨_, _, _, Function.update_self thread _ _⟩
  | releaseReturned => simp [afterRelease, Task.Fits]

/-- The task that a thread goes on with fits the call it is then in. -/
theorem Uses.fits (h : s.Uses thread action lockAction after)
    (hfits : (s.tasks thread).Fits (s.locks.calls thread))
    (hstep : LockManager.step noWait s.locks lockAction = some (locks, lockEvent)) :
    (after lockEvent).Fits (locks.calls thread) := by
  cases h with
  | operate txn op write htask hop =>
      cases LockManager.step_effect hstep with
      | begun _ _ _ mode item => exact ⟨mode, item, .enter, by simp⟩
      | rejected => simp [afterLock, Task.Fits]
      | unlockBegun _ _ _ _ _ _ hnot =>
          rw [hop] at hnot
          cases hnot
      | releaseBegun _ _ _ _ hrelease =>
          rw [hrelease] at hop
          cases hop
  | locking txn write htask =>
      rw [htask] at hfits
      obtain ⟨mode, item, pc, hcall⟩ := hfits
      exact fits_lock hcall (LockManager.step_effect hstep)
  | abort txn htask hempty => exact fits_begin_release hstep
  | commit txn htask hlive => exact fits_begin_release hstep
  | releasing txn commit htask =>
      rw [htask] at hfits
      obtain ⟨loops, ahead, current, hcall⟩ := hfits
      exact fits_release_step hcall (LockManager.step_effect hstep)
  | walking txn commit order htask =>
      rw [htask] at hfits
      obtain ⟨loops, ahead, current, hcall⟩ := hfits
      cases LockManager.step_effect hstep with
      | releaseWalked _ _ _ _ _ hcall' =>
          rw [hcall] at hcall'
          cases hcall'
          exact ⟨_, _, _, Function.update_self thread _ _⟩

theorem afterLock_writes {txn' : TxnId} {write : TxnOp} {lockEvent : RucDDBS.Event}
    (h : (afterLock txn' write lockEvent).writes txn = true) :
    txn' = txn ∧ ∃ owner mode item, lockEvent = .granted owner mode item := by
  cases lockEvent <;> simp_all [afterLock, Task.writes]

theorem afterRelease_writes (txn' : TxnId) (commit : Bool) (lockEvent : RucDDBS.Event) :
    (afterRelease txn' commit lockEvent).writes txn = false := by
  cases lockEvent <;> rfl

/-- Only a granted lock leads to a store operation. -/
theorem Uses.writes (h : s.Uses thread action lockAction after)
    (hfits : (s.tasks thread).Fits (s.locks.calls thread))
    (hstep : LockManager.step noWait s.locks lockAction = some (locks, lockEvent))
    (hwrites : (after lockEvent).writes txn = true) :
    ∃ mode item, lockEvent = .granted txn mode item := by
  cases h with
  | operate owner op write htask hop =>
      obtain ⟨rfl, granted, mode, item, rfl⟩ := afterLock_writes hwrites
      have howner : granted = owner := (LockManager.step_effect hstep).invoke_txn
      exact ⟨mode, item, by rw [howner]⟩
  | locking owner write htask =>
      obtain ⟨rfl, granted, mode, item, rfl⟩ := afterLock_writes hwrites
      rw [htask] at hfits
      obtain ⟨mode', item', pc, hcall⟩ := hfits
      have howner : granted = owner := (LockManager.step_effect hstep).resume_txn hcall
      exact ⟨mode, item, by rw [howner]⟩
  | abort =>
      rw [afterRelease_writes] at hwrites
      cases hwrites
  | commit =>
      rw [afterRelease_writes] at hwrites
      cases hwrites
  | releasing =>
      rw [afterRelease_writes] at hwrites
      cases hwrites
  | walking =>
      rw [afterRelease_writes] at hwrites
      cases hwrites

theorem afterLock_releases (owner : TxnId) (write : TxnOp) (lockEvent : RucDDBS.Event) :
    (afterLock owner write lockEvent).releases txn = false := by
  cases lockEvent <;> rfl

theorem afterRelease_releases (owner : TxnId) (commit : Bool) (lockEvent : RucDDBS.Event) :
    (afterRelease owner commit lockEvent).releases txn = decide (owner = txn) := by
  cases lockEvent <;> rfl

theorem afterRelease_commits (owner : TxnId) (commit : Bool) (lockEvent : RucDDBS.Event) :
    (afterRelease owner commit lockEvent).commits txn = (decide (owner = txn) && commit) := by
  cases lockEvent <;> rfl

theorem afterRelease_hasReleased {owner : TxnId} {commit : Bool} {lockEvent : RucDDBS.Event}
    (h : (afterRelease owner commit lockEvent).hasReleased txn = true) :
    owner = txn ∧ ∃ caller, lockEvent = .releaseReturned caller := by
  cases lockEvent <;> simp_all [afterRelease, Task.hasReleased]

theorem Uses.releases (h : s.Uses thread action lockAction after)
    (hreleases : (after lockEvent).releases txn = true) :
    (s.tasks thread).releases txn = true ∨ lockAction = .invoke thread txn .releaseLocks := by
  cases h with
  | operate => simp [afterLock_releases] at hreleases
  | locking => simp [afterLock_releases] at hreleases
  | abort owner =>
      rw [afterRelease_releases, decide_eq_true_eq] at hreleases
      exact .inr (by rw [hreleases])
  | commit owner =>
      rw [afterRelease_releases, decide_eq_true_eq] at hreleases
      exact .inr (by rw [hreleases])
  | releasing owner commit htask =>
      rw [afterRelease_releases] at hreleases
      exact .inl (by rw [htask]; exact hreleases)
  | walking owner commit order htask =>
      rw [afterRelease_releases] at hreleases
      exact .inl (by rw [htask]; exact hreleases)

/-- A commit begins to release the locks only if the transaction is not aborted. -/
theorem Uses.commits (h : s.Uses thread action lockAction after)
    (hcommits : (after lockEvent).commits txn = true) :
    (s.tasks thread).commits txn = true ∨
      lockAction = .invoke thread txn .releaseLocks ∧ (s.locks.txns txn).state ≠ .aborted := by
  have hreleases := Task.releases_of_commits hcommits
  cases h with
  | operate => simp [afterLock_releases] at hreleases
  | locking => simp [afterLock_releases] at hreleases
  | abort owner => simp [afterRelease_commits] at hcommits
  | commit owner htask hlive =>
      rw [afterRelease_releases, decide_eq_true_eq] at hreleases
      exact .inr ⟨by rw [hreleases], by rwa [← hreleases]⟩
  | releasing owner commit htask =>
      rw [afterRelease_commits] at hcommits
      exact .inl (by rw [htask]; exact hcommits)
  | walking owner commit order htask =>
      rw [afterRelease_commits] at hcommits
      exact .inl (by rw [htask]; exact hcommits)

/-- The locks count as released when `ReleaseLocks` has come to its end. -/
theorem Uses.hasReleased (h : s.Uses thread action lockAction after)
    (hfits : (s.tasks thread).Fits (s.locks.calls thread))
    (hstep : LockManager.step noWait s.locks lockAction = some (locks, lockEvent))
    (hreleased : (after lockEvent).hasReleased txn = true) :
    s.locks.calls thread = some (.release txn [] [] none) := by
  have hreleases := Task.releases_of_hasReleased hreleased
  have heffect := LockManager.step_effect hstep
  cases h with
  | operate => simp [afterLock_releases] at hreleases
  | locking => simp [afterLock_releases] at hreleases
  | abort owner =>
      obtain ⟨rfl, caller, rfl⟩ := afterRelease_hasReleased hreleased
      cases heffect
  | commit owner =>
      obtain ⟨rfl, caller, rfl⟩ := afterRelease_hasReleased hreleased
      cases heffect
  | releasing owner commit htask =>
      obtain ⟨rfl, caller, rfl⟩ := afterRelease_hasReleased hreleased
      rw [htask] at hfits
      obtain ⟨loops, ahead, current, hcall⟩ := hfits
      cases heffect with
      | erased _ _ _ _ _ _ _ herasing => cases herasing
      | releaseReturned _ _ hcall' =>
          rw [hcall] at hcall'
          cases hcall'
          exact hcall
  | walking owner commit order htask =>
      obtain ⟨rfl, caller, rfl⟩ := afterRelease_hasReleased hreleased
      cases heffect

end Matching

/-- A handler has begun to release the locks of `txn`, or has finished. -/
def Finishing (s : OperationServer) (txn : TxnId) : Prop :=
  (∃ thread, (s.tasks thread).releases txn = true) ∨ s.txnMap txn = false

/-- The order of steps in which nothing goes wrong for `txn`. -/
def Orderly (txn : TxnId) (s : OperationServer) : Action → Prop
  | .operate thread _ _ =>
      s.tasks thread = .holding txn → s.Finishing txn →
        (s.locks.txns txn).state ≠ .default ∧ (s.locks.txns txn).state ≠ .growing
  | .next thread =>
      match s.tasks thread with
      | .undoing owner => owner = txn → s.writeSet txn = [] → s.locks.Quiet txn
      | .checking owner => owner = txn → s.locks.Quiet txn
      | .released owner false => owner = txn → ∀ other, (s.tasks other).writes txn = false
      | _ => True
  | _ => True

def OrderlyStep (noWait : Bool) (txn : TxnId) (s : OperationServer) (label : Action × Event)
    (s' : OperationServer) : Prop :=
  Orderly txn s label.1 ∧ Step noWait s label s'

/-- What holds of `txn` in every run in that order. -/
structure Inv (s : OperationServer) (txn : TxnId) : Prop where
  own : WaitersOwn s.locks
  unique : ∀ item, (s.locks.lockMap item).OnePerTxn
  tally : s.locks.Tally txn
  matched : ∀ thread, (s.tasks thread).Fits (s.locks.calls thread)
  quiet : s.Finishing txn → s.locks.Quiet txn
  commits : ∀ thread, (s.tasks thread).commits txn = true → s.locks.NoLockCalls txn
  empty : (∃ thread, (s.tasks thread).hasReleased txn = true) ∨ s.txnMap txn = false →
    ∀ item p, ¬ (s.locks.lockMap item).Holds txn p
  gone : s.txnMap txn = false → ∀ thread, (s.tasks thread).writes txn = false

section Steps

variable {thread : Nat}

theorem inv_init (txnMap : TxnId → Bool) : (init txnMap).Inv txn where
  own := waitersOwn_init
  unique := fun _ => LockRequestQueue.onePerTxn_empty
  tally := tally_init
  matched := fun _ => rfl
  quiet := by
    intro _
    exact .inr (fun _ _ _ _ => nofun)
  commits := nofun
  empty := by
    rintro _ item p ⟨hp, _⟩
    simp [init, LockManager.init, LockRequestQueue.empty] at hp
  gone := fun _ _ => rfl

/-- The store and the write sets are not in the invariant. -/
theorem Inv.of_eq (h : s.Inv txn) (hlocks : s'.locks = s.locks) (htasks : s'.tasks = s.tasks)
    (hmap : s'.txnMap = s.txnMap) : s'.Inv txn := by
  obtain ⟨locks, kv, writeSet, txnMap, tasks⟩ := s
  obtain ⟨locks', kv', writeSet', txnMap', tasks'⟩ := s'
  cases hlocks
  cases htasks
  cases hmap
  exact ⟨h.own, h.unique, h.tally, h.matched, h.quiet, h.commits, h.empty, h.gone⟩

theorem task_update {f : Task → Bool} {other : Nat} {task : Task}
    (h : f ((s.setTask thread task).tasks other) = true) :
    f task = true ∨ f (s.tasks other) = true := by
  simp only [OperationServer.setTask, Function.update_apply] at h
  split at h
  · exact .inl h
  · exact .inr h

/-- A thread goes on to a task that is no nearer to the end of a handler. -/
theorem Inv.setTask (h : s.Inv txn) {task : Task} (hfits : task.Fits (s.locks.calls thread))
    (hreleases : task.releases txn = true → (s.tasks thread).releases txn = true)
    (hcommits : task.commits txn = true → (s.tasks thread).commits txn = true)
    (hreleased : task.hasReleased txn = true → (s.tasks thread).hasReleased txn = true)
    (hwrites : task.writes txn = true → s.txnMap txn = true) :
    (s.setTask thread task).Inv txn where
  own := h.own
  unique := h.unique
  tally := h.tally
  matched := by
    intro other
    simp only [OperationServer.setTask, Function.update_apply]
    split
    case isTrue heq => exact heq ▸ hfits
    case isFalse => exact h.matched other
  quiet := by
    intro hfinishing
    apply h.quiet
    rcases hfinishing with ⟨other, hother⟩ | hmap
    · rcases task_update hother with hnew | hold
      · exact .inl ⟨thread, hreleases hnew⟩
      · exact .inl ⟨other, hold⟩
    · exact .inr hmap
  commits := by
    intro other hother
    rcases task_update hother with hnew | hold
    · exact h.commits thread (hcommits hnew)
    · exact h.commits other hold
  empty := by
    intro hdone
    apply h.empty
    rcases hdone with ⟨other, hother⟩ | hmap
    · rcases task_update hother with hnew | hold
      · exact .inl ⟨thread, hreleased hnew⟩
      · exact .inl ⟨other, hold⟩
    · exact .inr hmap
  gone := by
    intro hmap other
    by_contra hnot
    rcases task_update (Bool.eq_true_of_not_eq_false hnot) with hnew | hold
    · rw [show s.txnMap txn = false from hmap] at hwrites
      cases hwrites hnew
    · cases hold.symm.trans (h.gone hmap other)

/-- The releases of `txn` in the lock manager are those of its handlers. -/
theorem Inv.quiet_release (h : s.Inv txn) {loops : List LockSetName} {ahead : List LockDataId}
    {current : Option (LockDataId × UnlockPc)}
    (hcall : s.locks.calls thread = some (.release txn loops ahead current)) :
    s.locks.Quiet txn := by
  apply h.quiet
  have hfits := h.matched thread
  rw [hcall] at hfits
  exact .inl ⟨thread, fits_release hfits⟩

/-- A state written by a handler. `COMMITTED` is written when no lock call is left. -/
theorem Inv.writeState (h : s.Inv txn) {owner : TxnId} {write : StateWrite}
    (hwrite : owner = txn → write = .prepareCommit ∨ s.locks.NoLockCalls txn) :
    (s.writeState owner write).Inv txn := by
  have heffect : LockManager.Effect false s.locks (.manager owner write) (.progress owner)
      (s.writeState owner write).locks := .managerWrote owner write
  refine ⟨heffect.waitersOwn h.own, h.unique, ?_, h.matched, ?_, h.commits, h.empty, h.gone⟩
  · exact heffect.tally h.own h.unique h.tally (fun _ _ _ _ => h.quiet_release) nofun
  · intro hfinishing
    rcases h.quiet hfinishing with haborted | hnone
    · rcases ne_or_eq owner txn with hne | rfl
      · left
        rw [heffect.txns_of_ne (Ne.symm hne)]
        exact haborted
      · rcases hwrite rfl with rfl | hnone
        · exact .inl (heffect.aborted_stays ⟨nofun, nofun⟩ haborted)
        · exact .inr hnone
    · exact .inr hnone

/-- In this order, a lock call is late once a handler has begun to release. -/
theorem Uses.late {lockAction : RucDDBS.Action} {after : RucDDBS.Event → Task}
    (huses : s.Uses thread action lockAction after) (horderly : Orderly txn s action)
    (hfinishing : s.Finishing txn) : ∀ actor op, lockAction = .invoke actor txn op →
      op.isLock = true →
      (s.locks.txns txn).state ≠ .default ∧ (s.locks.txns txn).state ≠ .growing := by
  rintro actor op rfl hop
  cases huses with
  | operate _ _ _ htask => exact horderly htask hfinishing
  | abort => cases hop
  | commit => cases hop

theorem Uses.finishing {lockAction : RucDDBS.Action} {after : RucDDBS.Event → Task}
    {locks : LockManager} {lockEvent : RucDDBS.Event}
    (huses : s.Uses thread action lockAction after)
    (h : ((s.setLocks locks).setTask thread (after lockEvent)).Finishing txn) :
    s.Finishing txn ∨ lockAction = .invoke thread txn .releaseLocks := by
  rcases h with ⟨other, hother⟩ | hmap
  · rcases task_update hother with hnew | hold
    · rcases huses.releases hnew with hbefore | hstart
      · exact .inl (.inl ⟨thread, hbefore⟩)
      · exact .inr hstart
    · exact .inl (.inl ⟨other, hold⟩)
  · exact .inl (.inr hmap)

theorem Uses.quiet_start {lockAction : RucDDBS.Action} {after : RucDDBS.Event → Task}
    (huses : s.Uses thread action lockAction after) (horderly : Orderly txn s action)
    (hsection : lockAction = .invoke thread txn .releaseLocks) : s.locks.Quiet txn := by
  cases huses with
  | operate _ _ _ _ hop =>
      cases hsection
      cases hop
  | abort _ htask hempty =>
      cases hsection
      simp only [Orderly, htask] at horderly
      exact horderly trivial hempty
  | commit _ htask =>
      cases hsection
      simp only [Orderly, htask] at horderly
      exact horderly trivial
  | locking => cases hsection
  | releasing => cases hsection
  | walking => cases hsection

/-- The steps inside the lock manager. -/
theorem Inv.locked (h : s.Inv txn) {lockAction : RucDDBS.Action} {after : RucDDBS.Event → Task}
    {locks : LockManager} {lockEvent : RucDDBS.Event}
    (huses : s.Uses thread action lockAction after) (horderly : Orderly txn s action)
    (hstep : LockManager.step noWait s.locks lockAction = some (locks, lockEvent)) :
    ((s.setLocks locks).setTask thread (after lockEvent)).Inv txn := by
  have heffect := LockManager.step_effect hstep
  have hfits := h.matched thread
  have hnone (hfinishing : s.Finishing txn) (hcalls : s.locks.NoLockCalls txn) :
      locks.NoLockCalls txn := heffect.noLockCalls hcalls (huses.late horderly hfinishing)
  have hstarted (hsection : lockAction = .invoke thread txn .releaseLocks) :
      ∀ actor op, lockAction = .invoke actor txn op → op.isLock = true →
        (s.locks.txns txn).state ≠ .default ∧ (s.locks.txns txn).state ≠ .growing := by
    rintro actor op hinvoke hop
    cases hsection.symm.trans hinvoke
    cases hop
  refine ⟨heffect.waitersOwn h.own, ?_, ?_, ?_, ?_, ?_, ?_, ?_⟩
  case refine_1 =>
    intro item
    exact moves_preserve (fun _ _ _ hmove => hmove.onePerTxn) (heffect.moves h.own item)
      (h.unique item)
  case refine_2 =>
    exact heffect.tally h.own h.unique h.tally (fun _ _ _ _ => h.quiet_release) huses.ops
  case refine_3 =>
    intro other
    simp only [OperationServer.setTask, setLocks, Function.update_apply]
    split
    case isTrue heq => exact heq ▸ huses.fits hfits hstep
    case isFalse hne =>
      rw [heffect.calls_other huses.runBy hne]
      exact h.matched other
  case refine_4 =>
    intro hfinishing
    rcases huses.finishing hfinishing with hbefore | hstart
    · exact heffect.quiet (h.quiet hbefore) huses.unsettled (huses.late horderly hbefore)
    · exact heffect.quiet (huses.quiet_start horderly hstart) huses.unsettled (hstarted hstart)
  case refine_5 =>
    intro other hother
    rcases task_update hother with hnew | hold
    · rcases huses.commits hnew with hbefore | ⟨hstart, hlive⟩
      · exact hnone (.inl ⟨thread, Task.releases_of_commits hbefore⟩) (h.commits thread hbefore)
      · apply heffect.noLockCalls _ (hstarted hstart)
        exact (huses.quiet_start horderly hstart).resolve_left hlive
    · exact hnone (.inl ⟨other, Task.releases_of_commits hold⟩) (h.commits other hold)
  case refine_6 =>
    intro hdone item p hholds
    have hbefore : s.Finishing txn ∧ ¬ (s.locks.lockMap item).Holds txn p := by
      rcases hdone with ⟨other, hother⟩ | hmap
      · rcases task_update hother with hnew | hold
        · have hcall := huses.hasReleased hfits hstep hnew
          rw [hcall] at hfits
          exact ⟨.inl ⟨thread, fits_release hfits⟩, h.tally.released hcall item p⟩
        · exact ⟨.inl ⟨other, Task.releases_of_hasReleased hold⟩, h.empty (.inl ⟨other, hold⟩) item p⟩
      · exact ⟨.inr hmap, h.empty (.inr hmap) item p⟩
    exact hbefore.2 (heffect.quiet_holds h.own (h.quiet hbefore.1) hholds)
  case refine_7 =>
    intro hmap other
    by_contra hnot
    rcases task_update (Bool.eq_true_of_not_eq_false hnot) with hnew | hold
    · obtain ⟨mode, item, rfl⟩ := huses.writes hfits hstep hnew
      exact heffect.quiet_not_granted (h.quiet (.inr hmap)) mode item rfl
    · cases hold.symm.trans (h.gone hmap other)

theorem eraseTxn_txnMap {owner : TxnId} (h : (s.eraseTxn owner).txnMap txn = false) :
    owner = txn ∨ s.txnMap txn = false := by
  simp only [eraseTxn, Function.update_apply] at h
  split at h
  case isTrue heq => exact .inl heq.symm
  case isFalse => exact .inr h

theorem Inv.eraseTxn (h : s.Inv txn) {owner : TxnId}
    (hreleased : owner = txn → (s.tasks thread).hasReleased txn = true)
    (hwrites : owner = txn → ∀ other, (s.tasks other).writes txn = false) :
    (s.eraseTxn owner).Inv txn := by
  refine ⟨h.own, h.unique, h.tally, h.matched, ?_, h.commits, ?_, ?_⟩
  · rintro (hsome | hmap)
    · exact h.quiet (.inl hsome)
    · rcases eraseTxn_txnMap hmap with heq | hbefore
      · exact h.quiet (.inl ⟨thread, Task.releases_of_hasReleased (hreleased heq)⟩)
      · exact h.quiet (.inr hbefore)
  · rintro (hsome | hmap)
    · exact h.empty (.inl hsome)
    · rcases eraseTxn_txnMap hmap with heq | hbefore
      · exact h.empty (.inl ⟨thread, hreleased heq⟩)
      · exact h.empty (.inr hbefore)
  · intro hmap
    rcases eraseTxn_txnMap hmap with heq | hbefore
    · exact hwrites heq
    · exact h.gone hbefore

theorem store_frame (owner : TxnId) (write : TxnOp) :
    (s.store owner write).locks = s.locks ∧ (s.store owner write).txnMap = s.txnMap := by
  cases write with
  | put key value => exact ⟨rfl, rfl⟩
  | del key =>
      simp only [store]
      split <;> exact ⟨rfl, rfl⟩

theorem Inv.store (h : s.Inv txn) (owner : TxnId) (write : TxnOp) :
    (s.store owner write).Inv txn := by
  cases write with
  | put key value => exact h.of_eq rfl rfl rfl
  | del key =>
      simp only [OperationServer.store]
      split
      · exact h.of_eq rfl rfl rfl
      · exact h

/-- A thread that is in no call goes on to a task outside the handlers' ends. -/
theorem Inv.setTask_of_none (h : s.Inv txn) {task : Task} (hcall : s.locks.calls thread = none)
    (hfits : task.Fits none) (hreleases : task.releases txn = false)
    (hwrites : task.writes txn = true → s.txnMap txn = true) :
    (s.setTask thread task).Inv txn := by
  apply h.setTask (hcall ▸ hfits) _ _ _ hwrites
  · intro hyes
    rw [hreleases] at hyes
    cases hyes
  · intro hyes
    rw [Task.releases_of_commits hyes] at hreleases
    cases hreleases
  · intro hyes
    rw [Task.releases_of_hasReleased hyes] at hreleases
    cases hreleases

/-- Every step in this order keeps the invariant. -/
theorem inv_step (h : s.Inv txn) (horderly : Orderly txn s action)
    (heffect : Effect noWait s action event s') : s'.Inv txn := by
  have hcall {thread : Nat} {task : Task} (htask : s.tasks thread = task)
      (hfits : task.Fits (s.locks.calls thread) → s.locks.calls thread = none) :
      s.locks.calls thread = none := by
    apply hfits
    rw [← htask]
    exact h.matched thread
  cases heffect with
  | found _ thread owner task hidle hmap htask =>
      have hnone := hcall hidle id
      rcases htask with rfl | rfl | rfl
      · exact h.setTask_of_none hnone rfl rfl nofun
      · refine h.setTask_of_none hnone rfl rfl ?_
        intro hwrites
        rw [← of_decide_eq_true hwrites]
        exact hmap
      · exact h.setTask_of_none hnone rfl rfl nofun
  | unknown => exact h
  | answered thread owner ok htask =>
      have hnone : s.locks.calls thread = none := by
        rcases htask with htask | htask
        · exact hcall htask id
        · exact hcall htask id
      exact h.setTask_of_none hnone rfl rfl nofun
  | locked _ thread lockAction after locks lockEvent huses hlocks =>
      exact h.locked huses horderly hlocks
  | stored thread owner write htask =>
      have hnone : (s.store owner write).locks.calls thread = none := by
        rw [(store_frame owner write).1]
        exact hcall htask id
      exact (h.store owner write).setTask_of_none hnone rfl rfl nofun
  | undone thread owner item htask => exact h.of_eq rfl rfl rfl
  | prepared owner => exact h.writeState (fun _ => .inl rfl)
  | committed thread owner htask =>
      have hwritten : (s.writeState owner .commitSingle).Inv txn := by
        apply h.writeState
        rintro rfl
        exact .inr (h.commits thread (by simp [htask, Task.commits]))
      have hsame : (s.writeState owner .commitSingle).tasks thread = .released owner true := htask
      apply hwritten.setTask
      · exact hcall htask id
      · rw [hsame]
        exact id
      · simp [Task.commits]
      · rw [hsame]
        exact id
      · nofun
  | completed thread owner htask =>
      have herased : (s.eraseTxn owner).Inv txn := by
        apply h.eraseTxn
        · rintro rfl
          show (s.tasks thread).hasReleased owner = true
          simp [htask, Task.hasReleased]
        · intro heq
          simp only [Orderly, htask] at horderly
          exact horderly heq
      exact herased.setTask_of_none (hcall htask id) rfl rfl nofun

end Steps

/-- A lock is granted to `txn`, or the store is changed for it. -/
def Event.actsFor (txn : TxnId) : Event → Bool
  | .lock (.granted owner _ _) => owner = txn
  | .stored owner _ | .undone owner => owner = txn
  | _ => false

section Runs

theorem Effect.finished (h : s.Inv txn) (hmap : s.txnMap txn = false)
    (heffect : Effect noWait s action event s') :
    event.actsFor txn = false ∧ s'.txnMap txn = false := by
  have hgone := h.gone hmap
  cases heffect with
  | locked _ thread lockAction after locks lockEvent huses hlocks =>
      refine ⟨?_, hmap⟩
      have hgranted := (LockManager.step_effect hlocks).quiet_not_granted (h.quiet (.inr hmap))
      cases lockEvent with
      | granted owner mode item =>
          apply decide_eq_false
          rintro rfl
          exact hgranted mode item rfl
      | _ => rfl
  | stored thread owner write htask =>
      have hother := hgone thread
      rw [htask] at hother
      exact ⟨hother, (congrFun (store_frame owner write).2 txn).trans hmap⟩
  | undone thread owner item htask =>
      have hother := hgone thread
      rw [htask] at hother
      exact ⟨hother, hmap⟩
  | completed thread owner htask =>
      refine ⟨rfl, ?_⟩
      simp only [eraseTxn, setTask, Function.update_apply]
      split
      · rfl
      · exact hmap
  | _ => exact ⟨rfl, hmap⟩

theorem Effect.completed_erases (heffect : Effect noWait s action (.completed txn) s') :
    s'.txnMap txn = false := by
  cases heffect with
  | completed thread owner htask => simp [eraseTxn, setTask]

theorem run_inv {trace : List (Action × Event)} (h : Lts.Run (OrderlyStep noWait txn) s trace s')
    (hs : s.Inv txn) : s'.Inv txn := by
  refine h.preserves (fun s => s.Inv txn) ?_ hs
  intro s label s' hstep hs
  exact inv_step hs hstep.1 (step_effect hstep.2)

theorem run_finished {trace : List (Action × Event)}
    (h : Lts.Run (OrderlyStep noWait txn) s trace s') (hs : s.Inv txn)
    (hmap : s.txnMap txn = false) :
    (∀ label ∈ trace, label.2.actsFor txn = false) ∧ s'.txnMap txn = false := by
  induction h with
  | nil => exact ⟨by simp, hmap⟩
  | cons hstep _ ih =>
      have heffect := step_effect hstep.2
      obtain ⟨hevent, hnext⟩ := heffect.finished hs hmap
      obtain ⟨hlater, hlast⟩ := ih (inv_step hs hstep.1 heffect) hnext
      refine ⟨?_, hlast⟩
      intro label hlabel
      rcases List.mem_cons.mp hlabel with rfl | hrest
      · exact hevent
      · exact hlater label hrest

end Runs

/-- After the erasure of a transaction, nothing is done for it and it has no
lock, provided that every step before and after is orderly. -/
theorem nothing_for_finished {noWait : Bool} {txnMap : TxnId → Bool} {txn : TxnId}
    {before after : List (Action × Event)} {action : Action} {s : OperationServer}
    (hrun : Lts.Run (OrderlyStep noWait txn) (init txnMap)
      (before ++ (action, .completed txn) :: after) s) :
    (∀ label ∈ after, label.2.actsFor txn = false) ∧ s.txnMap txn = false ∧
      ∀ item p, ¬ (s.locks.lockMap item).Holds txn p := by
  have hlast := run_inv hrun (inv_init txnMap)
  obtain ⟨s₁, hbefore, hrest⟩ := hrun.split
  have hinv := run_inv hbefore (inv_init txnMap)
  cases hrest with
  | @cons _ s₂ _ _ _ hstep hafter =>
      have hmap : s₂.txnMap txn = false := (step_effect hstep.2).completed_erases
      have hnext := inv_step hinv hstep.1 (step_effect hstep.2)
      obtain ⟨hquiet, hgone⟩ := run_finished hafter hnext hmap
      exact ⟨hquiet, hgone, hlast.empty (.inr hgone)⟩

/-- A node with transaction 1. -/
def oneTxn : OperationServer := init (fun txn => txn == 1)

/-- The state that a list of actions leads to, for the concrete runs below. -/
def after (actions : List (Action × Event)) : OperationServer :=
  ((Lts.exec (step false) oneTxn (actions.map Prod.fst)).map Prod.fst).getD oneTxn

/-- Row 5, locked to put `key5`. -/
def row5 : LockDataId := .ofRow 0 0 5

def lockRow5 : Op := .lockRow .exlucsive 0 0 5

def putKey5 : TxnOp := .put [107, 101, 121, 53] [118]

/-- Thread 1 goes through `n` lock sets of transaction 1 that are empty. -/
def emptyWalks (n : Nat) : List (Action × Event) :=
  List.replicate n (.walk 1 [], .lock (.progress 1))

/-- Thread 0 locks row 5 for transaction 1, puts the key and ends; thread 1
commits, up to the erasure. -/
def lockThenCommit : List (Action × Event) :=
  [(.sendOperator 0 1, .found 1), (.operate 0 lockRow5 putKey5, .lock (.progress 1)),
    (.next 0, .lock (.granted 1 .exlucsive row5)), (.next 0, .stored 1 putKey5),
    (.next 0, .answered true), (.commitTransaction 1 1, .found 1),
    (.next 1, .lock (.releaseCalled 1)), (.walk 1 [], .lock (.progress 1)),
    (.walk 1 [row5], .lock (.progress 1)), (.next 1, .lock (.unlockCalled 1 row5)),
    (.next 1, .lock (.unlocked 1 row5 (some 0))), (.next 1, .lock (.progress 1))] ++
  emptyWalks 10 ++
  [(.next 1, .lock (.releaseReturned 1)), (.next 1, .committed 1)]

theorem lockThenCommit_not_finishing : ¬ (after (lockThenCommit.take 1)).Finishing 1 := by
  rintro (⟨_ | _ | thread, hreleases⟩ | hmap)
  · cases hreleases
  · cases hreleases
  · cases hreleases
  · cases hmap

theorem lockThenCommit_noLockCalls : (after (lockThenCommit.take 6)).locks.NoLockCalls 1 := by
  rintro (_ | _ | thread) mode item pc hcall
  · cases hcall
  · cases hcall
  · cases hcall

theorem lockThenCommit_no_writes (other : Nat) :
    ((after lockThenCommit).tasks other).writes 1 = false := by
  rcases other with _ | _ | other
  · rfl
  · rfl
  · rfl

/-- A second request to commit is answered with no, and the lock is gone. -/
theorem lockThenCommit_nothing_left : ∃ s : OperationServer,
    Lts.Run (OrderlyStep false 1) oneTxn (lockThenCommit ++ (.next 1, .completed 1) ::
      [(.commitTransaction 0 1, .answered false)]) s ∧
    s.txnMap 1 = false ∧ ∀ item p, ¬ (s.locks.lockMap item).Holds 1 p := by
  have hrun : Lts.Run (OrderlyStep false 1) oneTxn (lockThenCommit ++ (.next 1, .completed 1) ::
      [(.commitTransaction 0 1, .answered false)])
      (after (lockThenCommit ++ [(.next 1, .completed 1)])) := by
    refine .cons ⟨trivial, rfl⟩ ?_
    refine .cons ⟨fun _ hfinishing => absurd hfinishing lockThenCommit_not_finishing, rfl⟩ ?_
    iterate 4 refine .cons ⟨trivial, rfl⟩ ?_
    refine .cons ⟨fun _ => .inr lockThenCommit_noLockCalls, rfl⟩ ?_
    iterate 17 refine .cons ⟨trivial, rfl⟩ ?_
    refine .cons ⟨fun _ => lockThenCommit_no_writes, rfl⟩ ?_
    exact .single ⟨trivial, rfl⟩
  exact ⟨_, hrun, (nothing_for_finished hrun).2⟩

/-- Thread 0 holds the pointer to transaction 1 when thread 1 aborts it, up to the
erasure. The transaction has no lock yet and stays in the state `DEFAULT`. -/
def abortWhileHeld : List (Action × Event) :=
  [(.sendOperator 0 1, .found 1), (.abortTransaction 1 1, .found 1),
    (.next 1, .lock (.releaseCalled 1))] ++
  emptyWalks 12 ++ [(.next 1, .lock (.releaseReturned 1))]

/-- Thread 0 goes on with its operation. -/
def lateOperation : List (Action × Event) :=
  [(.operate 0 lockRow5 putKey5, .lock (.progress 1)),
    (.next 0, .lock (.granted 1 .exlucsive row5)), (.next 0, .stored 1 putKey5)]

/-- The lock is granted and the key is put for the aborted transaction, and the
lock stays. -/
theorem lateOperation_acts : ∃ s : OperationServer,
    Lts.Run (Step false) oneTxn (abortWhileHeld ++ (.next 1, .completed 1) :: lateOperation) s ∧
    (∃ label ∈ lateOperation, label.2 = .lock (.granted 1 .exlucsive row5)) ∧
    (∃ label ∈ lateOperation, label.2 = .stored 1 putKey5) ∧
    s.txnMap 1 = false ∧ (s.locks.lockMap row5).Holds 1 0 :=
  ⟨after (abortWhileHeld ++ (.next 1, .completed 1) :: lateOperation),
    Lts.run_of_exec ((abortWhileHeld ++ (.next 1, .completed 1) :: lateOperation).map Prod.fst)
      ((abortWhileHeld ++ (.next 1, .completed 1) :: lateOperation).map Prod.snd) rfl,
    ⟨_, .tail _ (.head _), rfl⟩, ⟨_, .tail _ (.tail _ (.head _)), rfl⟩, rfl, by
      unfold LockRequestQueue.Holds
      decide⟩

end OperationServer

end RucDDBS
