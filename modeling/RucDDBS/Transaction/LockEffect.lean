import RucDDBS.Transaction.LockManager

/-!
What one step of the lock manager can do, said once. `Effect` lists the
outcomes of a step with the guards under which the source reaches them, and
`step_effect` shows that the list is complete. The invariants of the following
modules are proved case by case over it and never unfold the step function.
-/

namespace RucDDBS.LockManager

open LockRequestQueue

section Projections

variable (σ : LockManager) (item : LockDataId) (q : LockRequestQueue)
  (id : TxnId) (txn : Transaction) (thread : Nat) (call : Option Call)

@[simp] theorem setQueue_lockMap :
    (σ.setQueue item q).lockMap = Function.update σ.lockMap item q := rfl

@[simp] theorem setQueue_txns : (σ.setQueue item q).txns = σ.txns := rfl

@[simp] theorem setQueue_calls : (σ.setQueue item q).calls = σ.calls := rfl

@[simp] theorem setTxn_lockMap : (σ.setTxn id txn).lockMap = σ.lockMap := rfl

@[simp] theorem setTxn_txns :
    (σ.setTxn id txn).txns = Function.update σ.txns id txn := rfl

@[simp] theorem setTxn_calls : (σ.setTxn id txn).calls = σ.calls := rfl

@[simp] theorem setCall_lockMap : (σ.setCall thread call).lockMap = σ.lockMap := rfl

@[simp] theorem setCall_txns : (σ.setCall thread call).txns = σ.txns := rfl

@[simp] theorem setCall_calls :
    (σ.setCall thread call).calls = Function.update σ.calls thread call := rfl

/-- A call in progress after a step was so before it, or it is the one that the step has set. -/
theorem calls_of_update {σ σ' : LockManager} {thread actor : Nat} {next : Option Call} {call : Call}
    (hcalls : σ'.calls = Function.update σ.calls actor next)
    (hcall : σ'.calls thread = some call) :
    (thread = actor ∧ next = some call) ∨ σ.calls thread = some call := by
  rw [hcalls, Function.update_apply] at hcall
  split at hcall
  case isTrue heq => exact .inl ⟨heq, hcall⟩
  case isFalse => exact .inr hcall

end Projections

/-- How a lock call comes to stand before its wait predicate: the queue it has
left behind and the request it waits for. -/
inductive Prepare (txn : TxnId) (mode : LockMode) (q : LockRequestQueue) :
    LockPc → WaitPath → Nat → LockRequestQueue → Prop
  | new (hnew : ∀ p ∈ q.requestQueue, (q.requests p).txnId ≠ txn) :
      Prepare txn mode q .enter .new q.fresh (q.emplaceBack txn mode)
  | same (p : Nat) (hmem : p ∈ q.requestQueue) (htxn : (q.requests p).txnId = txn)
      (hmode : (q.requests p).lockMode = mode) (hwait : (q.requests p).granted = false) :
      Prepare txn mode q .enter .same p q
  | upgrade (p : Nat) (hmem : p ∈ q.requestQueue) (htxn : (q.requests p).txnId = txn)
      (hmode : (q.requests p).lockMode ≠ mode) (hfree : q.upgrading = false)
      (hlegal : isUpdateCompatible (q.requests p) mode = true) :
      Prepare txn mode q .enter .upgrade p (q.startUpgrade p mode)
  | recheck (path : WaitPath) (p : Nat) :
      Prepare txn mode q (.waiting path p) path p q

/-- The queue after the wait has let the call through. -/
def granting (q : LockRequestQueue) (path : WaitPath) (p : Nat) : LockRequestQueue :=
  (if path = .upgrade then q.endUpgrade else q).grant p

section Granting

variable (q : LockRequestQueue) (path : WaitPath) (p : Nat)

@[simp] theorem granting_requestQueue : (granting q path p).requestQueue = q.requestQueue := by
  unfold granting
  split <;> rfl

@[simp] theorem granting_requests : (granting q path p).requests =
    Function.update q.requests p { q.requests p with granted := true } := by
  unfold granting
  split <;> rfl

theorem granting_upgrading :
    (granting q path p).upgrading = if path = .upgrade then false else q.upgrading := by
  unfold granting
  split <;> rfl

theorem granting_mode (r : Nat) :
    ((granting q path p).requests r).lockMode = (q.requests r).lockMode := by
  rw [granting_requests, Function.update_apply]
  split
  case isTrue heq => rw [heq]
  case isFalse => rfl

end Granting

/-- A call that stands before the latch of `Unlock`, and the same call after
that section. -/
inductive Unlocking (txn : TxnId) (item : LockDataId) : Call → Call → Prop
  | call : Unlocking txn item (.unlock txn item .latch) (.unlock txn item .eraseSets)
  | loop (loops : List LockSetName) (ahead : List LockDataId) :
      Unlocking txn item (.release txn loops ahead (some (item, .latch)))
        (.release txn loops ahead (some (item, .eraseSets)))

/-- A call that erases `item` from the lock sets, and what it does next. -/
inductive Erasing (txn : TxnId) (item : LockDataId) : Call → Option Call → Event → Prop
  | call : Erasing txn item (.unlock txn item .eraseSets) none (.unlockReturned txn item)
  | loop (loops : List LockSetName) (ahead : List LockDataId) :
      Erasing txn item (.release txn loops ahead (some (item, .eraseSets)))
        (some (.release txn loops ahead none)) (.progress txn)

theorem Unlocking.txn_eq {txn : TxnId} {item : LockDataId} {call call' : Call}
    (h : Unlocking txn item call call') : call.txn = txn ∧ call'.txn = txn := by
  cases h with
  | call => exact ⟨rfl, rfl⟩
  | loop loops ahead => exact ⟨rfl, rfl⟩

theorem Unlocking.ne_lock {txn txn' : TxnId} {item item' : LockDataId} {call call' : Call}
    {mode : LockMode} {pc : LockPc} (h : Unlocking txn item call call') :
    call' ≠ .lock txn' mode item' pc := by
  cases h with
  | call => simp
  | loop loops ahead => simp

theorem Erasing.txn_eq {txn : TxnId} {item : LockDataId} {call : Call} {call' : Option Call}
    {event : Event} (h : Erasing txn item call call' event) :
    call.txn = txn ∧ event.txn = txn ∧ ∀ next, call' = some next → next.txn = txn := by
  cases h with
  | call => exact ⟨rfl, rfl, by simp⟩
  | loop loops ahead => exact ⟨rfl, rfl, by simp [Call.txn]⟩

theorem Erasing.ne_lock {txn txn' : TxnId} {item item' : LockDataId} {call : Call}
    {call' : Option Call} {event : Event} {mode : LockMode} {pc : LockPc}
    (h : Erasing txn item call call' event) : call' ≠ some (.lock txn' mode item' pc) := by
  cases h with
  | call => simp
  | loop loops ahead => simp

/-- The outcomes of one step. -/
inductive Effect (noWait : Bool) (σ : LockManager) :
    Action → Event → LockManager → Prop
  | begun (thread : Nat) (txn : TxnId) (op : Op) (mode : LockMode) (item : LockDataId)
      (name : LockSetName) (hidle : σ.calls thread = none)
      (hstate : (σ.txns txn).state = .default ∨ (σ.txns txn).state = .growing)
      (hname : lockSetName item.type mode = some name) (hitem : item.canonical = item)
      (hop : op.isLock = true) :
      Effect noWait σ (.invoke thread txn op) (.progress txn)
        ((σ.setTxn txn ((σ.txns txn).setTransactionState .growing)).setCall thread
          (some (.lock txn mode item .enter)))
  | rejected (thread : Nat) (txn : TxnId) (op : Op) (mode : LockMode) (item : LockDataId)
      (reason : AbortReason) (hidle : σ.calls thread = none) (hop : op.isLock = true) :
      Effect noWait σ (.invoke thread txn op) (.refused txn mode item (some reason))
        ((σ.setTxn txn ((σ.txns txn).setTransactionState .aborted)).setCall thread none)
  | parked (thread : Nat) (txn : TxnId) (mode : LockMode) (item : LockDataId)
      (pc : LockPc) (path : WaitPath) (p : Nat) (q : LockRequestQueue)
      (hcall : σ.calls thread = some (.lock txn mode item pc))
      (hprepare : Prepare txn mode (σ.lockMap item) pc path p q)
      (hwait : noWait = false) (hcompat : q.checkQueueCompatible p = false)
      (hstate : (σ.txns txn).state ≠ .aborted) :
      Effect noWait σ (.resume thread) (.progress txn)
        ((σ.setQueue item q).setCall thread
          (some (.lock txn mode item (.waiting path p))))
  | refused (thread : Nat) (txn : TxnId) (mode : LockMode) (item : LockDataId)
      (pc : LockPc) (path : WaitPath) (p : Nat) (q : LockRequestQueue)
      (hcall : σ.calls thread = some (.lock txn mode item pc))
      (hprepare : Prepare txn mode (σ.lockMap item) pc path p q)
      (hbad : q.checkQueueCompatible p = false ∨ (σ.txns txn).state = .aborted) :
      Effect noWait σ (.resume thread) (.refused txn mode item (some .deadLockPreventNoWait))
        (((σ.setQueue item q).setTxn txn
          ((σ.txns txn).setTransactionState .aborted)).setCall thread none)
  | refusedEarly (thread : Nat) (txn : TxnId) (mode : LockMode) (item : LockDataId)
      (reason : Option AbortReason)
      (hcall : σ.calls thread = some (.lock txn mode item .enter)) :
      Effect noWait σ (.resume thread) (.refused txn mode item reason)
        ((σ.setTxn txn ((σ.txns txn).setTransactionState .aborted)).setCall thread none)
  | held (thread : Nat) (txn : TxnId) (mode : LockMode) (item : LockDataId) (p : Nat)
      (hcall : σ.calls thread = some (.lock txn mode item .enter))
      (hholds : (σ.lockMap item).Holds txn p)
      (hmode : ((σ.lockMap item).requests p).lockMode = mode)
      (hstate : (σ.txns txn).state ≠ .aborted) :
      Effect noWait σ (.resume thread) (.granted txn mode item)
        ((σ.setTxn txn ((σ.txns txn).addLockSet mode item)).setCall thread none)
  | acquired (thread : Nat) (txn : TxnId) (mode : LockMode) (item : LockDataId)
      (pc : LockPc) (path : WaitPath) (p : Nat) (q : LockRequestQueue)
      (hcall : σ.calls thread = some (.lock txn mode item pc))
      (hprepare : Prepare txn mode (σ.lockMap item) pc path p q)
      (hcompat : q.checkQueueCompatible p = true)
      (hstate : (σ.txns txn).state ≠ .aborted) :
      Effect noWait σ (.resume thread) (.granted txn mode item)
        (((σ.setQueue item (granting q path p)).setTxn txn
          ((σ.txns txn).addLockSet mode item)).setCall thread none)
  | unlockBegun (thread : Nat) (txn : TxnId) (op : Op) (item : LockDataId)
      (hidle : σ.calls thread = none) (hitem : item.canonical = item)
      (hop : op.isLock = false) (hcall : op ≠ .releaseLocks) :
      Effect noWait σ (.invoke thread txn op) (.unlockCalled txn item)
        (σ.setCall thread (some (.unlock txn item .latch)))
  | unlockHit (thread : Nat) (txn : TxnId) (item : LockDataId) (call call' : Call)
      (p : Nat) (txn' : Transaction) (hcall : σ.calls thread = some call)
      (hunlocking : Unlocking txn item call call')
      (hfind : (σ.lockMap item).findGranted txn = some p)
      (htxn' : txn' = if (σ.txns txn).state = .growing then
        (σ.txns txn).setTransactionState .shrinking else σ.txns txn) :
      Effect noWait σ (.resume thread) (.unlocked txn item (some p))
        (((σ.setQueue item ((σ.lockMap item).erase p)).setTxn txn txn').setCall thread
          (some call'))
  | unlockMiss (thread : Nat) (txn : TxnId) (item : LockDataId) (call call' : Call)
      (hcall : σ.calls thread = some call) (hunlocking : Unlocking txn item call call')
      (hfind : (σ.lockMap item).findGranted txn = none) :
      Effect noWait σ (.resume thread) (.unlocked txn item none)
        ((σ.setTxn txn ((σ.txns txn).setTransactionState .aborted)).setCall thread
          (some call'))
  | erased (thread : Nat) (txn : TxnId) (item : LockDataId) (call : Call)
      (call' : Option Call) (event : Event) (hcall : σ.calls thread = some call)
      (herasing : Erasing txn item call call' event) :
      Effect noWait σ (.resume thread) event
        ((σ.setTxn txn ((σ.txns txn).eraseLockSets item)).setCall thread call')
  | releaseBegun (thread : Nat) (txn : TxnId) (op : Op) (hidle : σ.calls thread = none)
      (hop : op = .releaseLocks) :
      Effect noWait σ (.invoke thread txn op) (.releaseCalled txn)
        (σ.setCall thread (some (.release txn releaseOrder [] none)))
  | releaseWalked (thread : Nat) (txn : TxnId) (name : LockSetName)
      (loops : List LockSetName) (order : List LockDataId)
      (hcall : σ.calls thread = some (.release txn (name :: loops) [] none))
      (horder : order.toFinset = (σ.txns txn).lockSet name) :
      Effect noWait σ (.walk thread order) (.progress txn)
        (σ.setCall thread (some (.release txn loops order none)))
  | releaseVisited (thread : Nat) (txn : TxnId) (loops : List LockSetName)
      (item : LockDataId) (ahead : List LockDataId)
      (hcall : σ.calls thread = some (.release txn loops (item :: ahead) none)) :
      Effect noWait σ (.resume thread) (.unlockCalled txn item.canonical)
        (σ.setCall thread
          (some (.release txn loops ahead (some (item.canonical, .latch)))))
  | releaseReturned (thread : Nat) (txn : TxnId)
      (hcall : σ.calls thread = some (.release txn [] [] none)) :
      Effect noWait σ (.resume thread) (.releaseReturned txn) (σ.setCall thread none)
  | managerWrote (txn : TxnId) (write : StateWrite) :
      Effect noWait σ (.manager txn write) (.progress txn) (σ.setTxn txn (stateWrite (σ.txns txn) write))

/-- A lock call that passes the checks before the latch is `GROWING` from then
on and asks for a mode that the item's kind has a lock set for. -/
theorem beginLock_ok {txn txn' : Transaction} {mode : LockMode} {type : LockDataType}
    (h : beginLock txn mode type = .ok txn') :
    (txn.state = .default ∨ txn.state = .growing) ∧
      txn' = txn.setTransactionState .growing ∧
      ∃ name, lockSetName type mode = some name := by
  have hname (hrow : ¬ (type = .row ∧ mode ≠ .shared ∧ mode ≠ .exlucsive)) :
      ∃ name, lockSetName type mode = some name := by
    cases type <;> cases mode <;> simp_all [lockSetName]
  rcases txn with ⟨state, lockSet⟩
  by_cases hrow : type = .row ∧ mode ≠ .shared ∧ mode ≠ .exlucsive
  · cases state <;> simp [beginLock, hrow] at h
  · cases state <;> simp [beginLock, hrow, Transaction.setTransactionState] at h
    · exact ⟨.inl rfl, h.symm, hname hrow⟩
    · exact ⟨.inr rfl, h.symm, hname hrow⟩

section Completeness

variable {noWait : Bool} {σ σ' : LockManager} {event : Event}

theorem waitSection_effect {thread : Nat} {txn : TxnId} {mode : LockMode}
    {item : LockDataId} {pc : LockPc} {path : WaitPath} {p : Nat} {q : LockRequestQueue}
    (hcall : σ.calls thread = some (.lock txn mode item pc))
    (hprepare : Prepare txn mode (σ.lockMap item) pc path p q)
    (h : (σ.setQueue item q).waitSection noWait thread txn mode item path p = (σ', event)) :
    Effect noWait σ (.resume thread) event σ' := by
  simp only [waitSection, setQueue_lockMap, Function.update_self, setQueue_txns] at h
  split at h
  next hpark =>
    cases h
    exact .parked thread txn mode item pc path p q hcall hprepare hpark.1 hpark.2.1 hpark.2.2
  next =>
    split at h
    next hbad =>
      cases h
      exact .refused thread txn mode item pc path p q hcall hprepare hbad
    next hgood =>
      rw [not_or] at hgood
      have hq : (σ.setQueue item q).setQueue item (granting q path p) =
          σ.setQueue item (granting q path p) := by
        simp [setQueue]
      have hcompat : q.checkQueueCompatible p = true := by simpa using hgood.1
      simp only [acquire] at h
      change ((((σ.setQueue item q).setQueue item (granting q path p)).setTxn txn _).setCall
        thread none, _) = _ at h
      rw [hq] at h
      cases h
      exact .acquired thread txn mode item pc path p q hcall hprepare hcompat hgood.2

theorem setQueue_self (σ : LockManager) (item : LockDataId) :
    σ.setQueue item (σ.lockMap item) = σ := by
  simp [setQueue]

theorem enterSection_effect {thread : Nat} {txn : TxnId} {mode : LockMode}
    {item : LockDataId} (hcall : σ.calls thread = some (.lock txn mode item .enter))
    (h : σ.enterSection noWait thread txn mode item = (σ', event)) :
    Effect noWait σ (.resume thread) event σ' := by
  simp only [enterSection] at h
  split at h
  next hnone => exact waitSection_effect hcall (.new (findTxn_none hnone)) h
  next p hsome =>
    obtain ⟨hmem, htxn⟩ := findTxn_some hsome
    split at h
    next hheld =>
      split at h
      · cases h
        exact .refusedEarly thread txn mode item none hcall
      next hlive =>
        cases h
        exact .held thread txn mode item p hcall ⟨hmem, htxn, hheld.2⟩ hheld.1 hlive
    next hnot =>
      split at h
      next hmode =>
        have hwait : ((σ.lockMap item).requests p).granted = false := by
          simpa [hmode] using hnot
        rw [← setQueue_self σ item] at h
        exact waitSection_effect hcall (.same p hmem htxn hmode hwait) h
      next hmode =>
        split at h
        · cases h
          exact .refusedEarly thread txn mode item _ hcall
        next hfree =>
          split at h
          · cases h
            exact .refusedEarly thread txn mode item _ hcall
          next hlegal =>
            exact waitSection_effect hcall
              (.upgrade p hmem htxn hmode (by simpa using hfree) (by simpa using hlegal)) h

theorem unlockSection_effect {thread : Nat} {txn : TxnId} {item : LockDataId}
    {call call' : Call} (hcall : σ.calls thread = some call)
    (hunlocking : Unlocking txn item call call') :
    Effect noWait σ (.resume thread) (σ.unlockSection txn item).2
      ((σ.unlockSection txn item).1.setCall thread (some call')) := by
  simp only [unlockSection]
  split
  next hnone =>
    have habort : (if (σ.txns txn).state = .growing then
        (σ.txns txn).setTransactionState .shrinking else σ.txns txn).setTransactionState
          .aborted = (σ.txns txn).setTransactionState .aborted := by
      split <;> rfl
    rw [habort]
    exact .unlockMiss thread txn item call call' hcall hunlocking hnone
  next p hsome =>
    exact .unlockHit thread txn item call call' p _ hcall hunlocking hsome rfl

theorem invoke_effect {thread : Nat} {txn : TxnId} {op : Op}
    (hidle : σ.calls thread = none) (h : σ.invoke thread txn op = (σ', event)) :
    Effect noWait σ (.invoke thread txn op) event σ' := by
  have hlock (mode : LockMode) (item : LockDataId) (hitem : item.canonical = item)
      (hop : op.isLock = true) (h : σ.invokeLock thread txn mode item = (σ', event)) :
      Effect noWait σ (.invoke thread txn op) event σ' := by
    simp only [invokeLock] at h
    split at h
    next reason _ =>
      cases h
      exact .rejected thread txn op mode item reason hidle hop
    next txn' hok =>
      obtain ⟨hstate, rfl, name, hname⟩ := beginLock_ok hok
      cases h
      exact .begun thread txn op mode item name hidle hstate hname hitem hop
  cases op with
  | lockTable mode oid => exact hlock mode _ rfl rfl h
  | lockPartition mode oid pId => exact hlock mode _ rfl rfl h
  | lockRow mode oid pId rowId => exact hlock mode _ rfl rfl h
  | unLockTable oid =>
      cases h
      exact .unlockBegun thread txn _ _ hidle rfl rfl (by simp)
  | unLockPartition oid pId =>
      cases h
      exact .unlockBegun thread txn _ _ hidle rfl rfl (by simp)
  | unLockRow oid pId rowId =>
      cases h
      exact .unlockBegun thread txn _ _ hidle rfl rfl (by simp)
  | releaseLocks =>
      cases h
      exact .releaseBegun thread txn _ hidle rfl

theorem resume_effect {thread : Nat} {call : Call} (hcall : σ.calls thread = some call)
    (h : σ.resume noWait thread call = some (σ', event)) :
    Effect noWait σ (.resume thread) event σ' := by
  cases call with
  | lock txn mode item pc =>
      cases pc with
      | enter => exact enterSection_effect hcall (Option.some.inj h)
      | waiting path p =>
          have hwait := Option.some.inj h
          rw [← setQueue_self σ item] at hwait
          exact waitSection_effect hcall (.recheck path p) hwait
  | unlock txn item pc =>
      cases pc with
      | latch =>
          cases h
          exact unlockSection_effect hcall .call
      | eraseSets =>
          cases h
          exact .erased thread txn item _ _ _ hcall .call
  | release txn loops ahead current =>
      rcases current with _ | ⟨item, _ | _⟩
      · cases ahead with
        | cons item ahead =>
            cases h
            exact .releaseVisited thread txn loops item ahead hcall
        | nil =>
            cases loops with
            | nil =>
                cases h
                exact .releaseReturned thread txn hcall
            | cons name loops => cases h
      · cases h
        exact unlockSection_effect hcall (.loop loops ahead)
      · cases h
        exact .erased thread txn item _ _ _ hcall (.loop loops ahead)

theorem walk_effect {thread : Nat} {order : List LockDataId} {call : Call}
    (hcall : σ.calls thread = some call)
    (h : σ.walk thread order call = some (σ', event)) :
    Effect noWait σ (.walk thread order) event σ' := by
  unfold walk at h
  split at h
  next txn name loops =>
    split at h
    next horder =>
      cases h
      exact .releaseWalked thread txn name loops order hcall horder.2
    next => cases h
  next => cases h

/-- Every step has one of the listed effects. -/
theorem step_effect {action : Action} (h : step noWait σ action = some (σ', event)) :
    Effect noWait σ action event σ' := by
  cases action with
  | invoke thread txn op =>
      simp only [step] at h
      split at h
      next hidle => exact invoke_effect hidle (Option.some.inj h)
      next => cases h
  | resume thread =>
      obtain ⟨call, hcall, hresume⟩ := Option.bind_eq_some_iff.mp h
      exact resume_effect hcall hresume
  | walk thread order =>
      obtain ⟨call, hcall, hwalk⟩ := Option.bind_eq_some_iff.mp h
      exact walk_effect hcall hwalk
  | manager txn write =>
      cases h
      exact .managerWrote txn write

/-- The sections of a lock call: it waits, it is refused, or it returns true. -/
theorem Effect.lock_call_cases {thread : Nat} {txn : TxnId} {mode : LockMode} {item : LockDataId}
    {pc : LockPc} (hcall : σ.calls thread = some (.lock txn mode item pc))
    (h : Effect noWait σ (.resume thread) event σ') :
    (event = .progress txn ∧ ∃ path p q, Prepare txn mode (σ.lockMap item) pc path p q ∧
        σ'.lockMap = Function.update σ.lockMap item q ∧
        σ'.calls thread = some (.lock txn mode item (.waiting path p))) ∨
      (∃ reason, event = .refused txn mode item reason ∧ σ'.calls thread = none ∧
        (σ'.lockMap = σ.lockMap ∨ ∃ path p q, Prepare txn mode (σ.lockMap item) pc path p q ∧
          σ'.lockMap = Function.update σ.lockMap item q)) ∨
      (event = .granted txn mode item ∧ σ'.calls thread = none ∧
        ((∃ p, (σ.lockMap item).Holds txn p ∧ ((σ.lockMap item).requests p).lockMode = mode ∧
          σ'.lockMap = σ.lockMap) ∨
        ∃ path p q, Prepare txn mode (σ.lockMap item) pc path p q ∧
          σ'.lockMap = Function.update σ.lockMap item (granting q path p))) := by
  cases h with
  | parked _ _ _ _ _ path p q hcall' hprepare =>
      rw [hcall] at hcall'
      cases hcall'
      exact .inl ⟨rfl, path, p, q, hprepare, rfl, by simp⟩
  | refused _ _ _ _ _ path p q hcall' hprepare =>
      rw [hcall] at hcall'
      cases hcall'
      exact .inr (.inl ⟨_, rfl, by simp, .inr ⟨path, p, q, hprepare, rfl⟩⟩)
  | refusedEarly _ _ _ _ reason hcall' =>
      rw [hcall] at hcall'
      cases hcall'
      exact .inr (.inl ⟨reason, rfl, by simp, .inl rfl⟩)
  | held _ _ _ _ p hcall' hholds hmode =>
      rw [hcall] at hcall'
      cases hcall'
      exact .inr (.inr ⟨rfl, by simp, .inl ⟨p, hholds, hmode, rfl⟩⟩)
  | acquired _ _ _ _ _ path p q hcall' hprepare =>
      rw [hcall] at hcall'
      cases hcall'
      exact .inr (.inr ⟨rfl, by simp, .inr ⟨path, p, q, hprepare, rfl⟩⟩)
  -- the thread is in a lock call, so none of the other sections is its next one
  | unlockHit _ _ _ _ _ _ _ hcall' hunlocking =>
      rw [hcall] at hcall'
      cases hcall'
      cases hunlocking
  | unlockMiss _ _ _ _ _ hcall' hunlocking =>
      rw [hcall] at hcall'
      cases hcall'
      cases hunlocking
  | erased _ _ _ _ _ _ hcall' herasing =>
      rw [hcall] at hcall'
      cases hcall'
      cases herasing
  | releaseVisited _ _ _ _ _ hcall' =>
      rw [hcall] at hcall'
      cases hcall'
  | releaseReturned _ _ hcall' =>
      rw [hcall] at hcall'
      cases hcall'

end Completeness

end RucDDBS.LockManager
