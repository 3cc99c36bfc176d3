import RucDDBS.Transaction.TwoPhase

/-!
What becomes of a vote. `PrepareCommit` leaves nothing behind but the state
`PREPARED`, and the error paths of the lock manager overwrite the state without
looking at it: a lock call after the vote is refused because the transaction is
not growing, an unlock call for an item without a granted request fails, and a
lock call that was under way at the vote may still conflict. Each of them sets
`ABORTED`, which nothing but the transaction manager takes back, and
`CommitSingle` then answers no. All other steps keep the vote.
-/

namespace RucDDBS

namespace Transaction

/-- What `PrepareCommit` answers when its log record is appended. -/
def prepareCommitReturns (txn : Transaction) : Bool := txn.state ≠ .aborted

/-- What `CommitSingle` answers: the check at its beginning. -/
def commitSingleReturns (txn : Transaction) : Bool := txn.state ≠ .aborted

end Transaction

namespace LockManager

open LockRequestQueue

/-- The next section of a lock call throws, its transaction not being aborted. -/
def throws (noWait : Bool) (q : LockRequestQueue) (txn : TxnId) (mode : LockMode) :
    LockPc → Bool
  | .waiting _ request => noWait && !q.checkQueueCompatible request
  | .enter =>
      match q.findTxn txn with
      | none => noWait && !(q.emplaceBack txn mode).checkQueueCompatible q.fresh
      | some p =>
          if (q.requests p).lockMode = mode then
            !(q.requests p).granted && (noWait && !q.checkQueueCompatible p)
          else
            q.upgrading || (!isUpdateCompatible (q.requests p) mode ||
              (noWait && !(q.startUpgrade p mode).checkQueueCompatible p))

/-- The step takes back the vote of `txn`: a lock call begins, a section of one
throws, or an unlock finds nothing granted. -/
def overturns (noWait : Bool) (σ : LockManager) (txn : TxnId) : Action → Bool
  | .invoke _ txn' op => txn' = txn && op.isLock
  | .resume thread =>
      match σ.calls thread with
      | some (.lock txn' mode item pc) =>
          txn' = txn && throws noWait (σ.lockMap item) txn mode pc
      | some (.unlock txn' item .latch) =>
          txn' = txn && ((σ.lockMap item).findGranted txn).isNone
      | some (.release txn' _ _ (some (item, .latch))) =>
          txn' = txn && ((σ.lockMap item).findGranted txn).isNone
      | _ => false
  | .walk _ _ | .manager _ _ => false

/-- Neither `CommitSingle` nor an abort of the transaction manager writes the
state of `txn`. -/
def Unsettled (txn : TxnId) (action : Action) : Prop :=
  action ≠ .manager txn .commitSingle ∧ action ≠ .manager txn .abort

def KeepingStep (noWait : Bool) (txn : TxnId) (σ : LockManager) (label : Action × Event)
    (σ' : LockManager) : Prop :=
  overturns noWait σ txn label.1 = false ∧ Step noWait σ label σ'

section Sections

variable {noWait : Bool} {σ : LockManager} {thread : Nat} {txn : TxnId} {mode : LockMode}
  {item : LockDataId}

theorem waitSection_state {path : WaitPath} {p : Nat} (hstate : (σ.txns txn).state ≠ .aborted) :
    ((σ.waitSection noWait thread txn mode item path p).1.txns txn).state =
      if (noWait && !(σ.lockMap item).checkQueueCompatible p) = true then .aborted
      else (σ.txns txn).state := by
  unfold waitSection
  cases hcompat : (σ.lockMap item).checkQueueCompatible p with
  | true => simp [hcompat, hstate, acquire]
  | false =>
      cases noWait with
      | true => simp [hcompat, refuse]
      | false => simp [hcompat, hstate]

theorem enterSection_state (hstate : (σ.txns txn).state ≠ .aborted) :
    ((σ.enterSection noWait thread txn mode item).1.txns txn).state =
      if throws noWait (σ.lockMap item) txn mode .enter = true then .aborted
      else (σ.txns txn).state := by
  cases hfind : (σ.lockMap item).findTxn txn with
  | none =>
      have hthrows : throws noWait (σ.lockMap item) txn mode .enter = (noWait &&
          !((σ.lockMap item).emplaceBack txn mode).checkQueueCompatible (σ.lockMap item).fresh) := by
        simp [throws, hfind]
      simp only [enterSection, hfind, hthrows]
      rw [waitSection_state (by simpa using hstate)]
      simp
  | some p =>
      by_cases hmode : ((σ.lockMap item).requests p).lockMode = mode
      · by_cases hgranted : ((σ.lockMap item).requests p).granted = true
        · simp [enterSection, throws, hfind, hmode, hgranted, hstate, acquire]
        · have hthrows : throws noWait (σ.lockMap item) txn mode .enter =
              (noWait && !(σ.lockMap item).checkQueueCompatible p) := by
            simp [throws, hfind, hmode, hgranted]
          have hwait : σ.enterSection noWait thread txn mode item =
              σ.waitSection noWait thread txn mode item .same p := by
            simp [enterSection, hfind, hmode, hgranted]
          rw [hthrows, hwait, waitSection_state hstate]
      · by_cases hupgrading : (σ.lockMap item).upgrading = true
        · simp [enterSection, throws, hfind, hmode, hupgrading, refuse]
        · by_cases hlegal : isUpdateCompatible ((σ.lockMap item).requests p) mode = false
          · simp [enterSection, throws, hfind, hmode, hupgrading, hlegal, refuse]
          · have hthrows : throws noWait (σ.lockMap item) txn mode .enter = (noWait &&
                !((σ.lockMap item).startUpgrade p mode).checkQueueCompatible p) := by
              simp [throws, hfind, hmode, hupgrading, hlegal]
            have hwait : σ.enterSection noWait thread txn mode item =
                (σ.setQueue item ((σ.lockMap item).startUpgrade p mode)).waitSection noWait thread
                  txn mode item .upgrade p := by
              simp [enterSection, hfind, hmode, hupgrading, hlegal]
            rw [hthrows, hwait, waitSection_state (by simpa using hstate)]
            simp

theorem unlockSection_state (hstate : (σ.txns txn).state = .prepared) :
    ((σ.unlockSection txn item).1.txns txn).state =
      if ((σ.lockMap item).findGranted txn).isNone = true then .aborted else .prepared := by
  unfold unlockSection
  cases hfind : (σ.lockMap item).findGranted txn with
  | none => simp [hfind]
  | some p => simp [hfind, hstate]

/-- After the vote every lock call is refused. -/
theorem invokeLock_state (hstate : (σ.txns txn).state = .prepared) :
    ((σ.invokeLock thread txn mode item).1.txns txn).state = .aborted := by
  simp [invokeLock, beginLock, hstate, refuse]

end Sections

section Steps

variable {noWait : Bool} {σ σ' : LockManager} {txn : TxnId} {action : Action} {event : Event}

theorem resume_state {thread : Nat} {call : Call} (hcall : σ.calls thread = some call)
    (h : σ.resume noWait thread call = some (σ', event)) (htxn : call.txn = txn)
    (hstate : (σ.txns txn).state = .prepared) :
    (σ'.txns txn).state =
      if overturns noWait σ txn (.resume thread) = true then .aborted else .prepared := by
  have hlive : (σ.txns txn).state ≠ .aborted := by simp [hstate]
  subst htxn
  cases call with
  | lock txn mode item pc =>
      simp only [overturns, hcall, Call.txn, decide_true, Bool.true_and] at hstate hlive ⊢
      cases pc with
      | enter =>
          have heq := congrArg (fun r => (r.1.txns txn).state) (Option.some.inj h)
          simp only at heq
          rw [← heq, enterSection_state hlive, hstate]
      | waiting path p =>
          have heq := congrArg (fun r => (r.1.txns txn).state) (Option.some.inj h)
          simp only at heq
          rw [← heq, waitSection_state hlive, hstate]
          rfl
  | unlock txn item pc =>
      cases pc with
      | latch =>
          simp only [overturns, hcall, Call.txn, decide_true, Bool.true_and] at hstate ⊢
          cases h
          exact unlockSection_state hstate
      | eraseSets =>
          simp only [overturns, hcall, Call.txn] at hstate ⊢
          cases h
          simp [hstate]
  | release txn loops ahead current =>
      rcases current with _ | ⟨item, _ | _⟩
      · simp only [overturns, hcall, Call.txn] at hstate ⊢
        cases ahead with
        | cons item ahead =>
            cases h
            simp [hstate]
        | nil =>
            cases loops with
            | nil =>
                cases h
                simp [hstate]
            | cons name loops => cases h
      · simp only [overturns, hcall, Call.txn, decide_true, Bool.true_and] at hstate ⊢
        cases h
        exact unlockSection_state hstate
      · simp only [overturns, hcall, Call.txn] at hstate ⊢
        cases h
        simp [hstate]

/-- A resumed step belongs to the transaction of the call. -/
theorem Effect.resume_txn {thread : Nat} {call : Call}
    (h : Effect noWait σ (.resume thread) event σ') (hcall : σ.calls thread = some call) :
    event.txn = call.txn := by
  have hown : ∃ call', σ.calls thread = some call' ∧ call'.txn = event.txn := by
    clear hcall
    cases h with
    | unlockHit _ _ _ _ _ _ _ hcall hunlocking => exact ⟨_, hcall, hunlocking.txn_eq.1⟩
    | unlockMiss _ _ _ _ _ hcall hunlocking => exact ⟨_, hcall, hunlocking.txn_eq.1⟩
    | erased _ _ _ _ _ _ hcall herasing =>
        exact ⟨_, hcall, by rw [herasing.txn_eq.1, herasing.txn_eq.2.1]⟩
    | _ => exact ⟨_, by assumption, rfl⟩
  obtain ⟨call', hcall', htxn⟩ := hown
  rw [hcall] at hcall'
  cases hcall'
  exact htxn.symm

theorem Effect.invoke_txn {thread : Nat} {txn : TxnId} {op : Op}
    (h : Effect noWait σ (.invoke thread txn op) event σ') : event.txn = txn := by
  cases h <;> rfl

theorem invoke_state (thread : Nat) (op : Op) (hstate : (σ.txns txn).state = .prepared) :
    ((σ.invoke thread txn op).1.txns txn).state =
      if op.isLock = true then .aborted else .prepared := by
  cases op with
  | lockTable mode oid => exact invokeLock_state hstate
  | lockPartition mode oid pId => exact invokeLock_state hstate
  | lockRow mode oid pId rowId => exact invokeLock_state hstate
  | unLockTable oid => exact hstate
  | unLockPartition oid pId => exact hstate
  | unLockRow oid pId rowId => exact hstate
  | releaseLocks => exact hstate

/-- Steps of other transactions do not touch the vote. -/
theorem overturns_of_ne (h : step noWait σ action = some (σ', event)) (hne : txn ≠ event.txn) :
    overturns noWait σ txn action = false := by
  cases action with
  | walk thread order => rfl
  | manager txn' write => rfl
  | invoke thread txn' op =>
      rw [(step_effect h).invoke_txn] at hne
      simp [overturns, Ne.symm hne]
  | resume thread =>
      obtain ⟨call, hcall, _⟩ := Option.bind_eq_some_iff.mp h
      rw [(step_effect h).resume_txn hcall] at hne
      have howner : ¬ call.txn = txn := Ne.symm hne
      simp only [overturns, hcall]
      cases call with
      | lock txn' mode item pc =>
          have hother : ¬ txn' = txn := howner
          simp [hother]
      | unlock txn' item pc =>
          cases pc with
          | latch =>
              have hother : ¬ txn' = txn := howner
              simp [hother]
          | eraseSets => rfl
      | release txn' loops ahead current =>
          rcases current with _ | ⟨item, _ | _⟩
          · rfl
          · have hother : ¬ txn' = txn := howner
            simp [hother]
          · rfl

/-- A step after the vote overturns it or keeps it. -/
theorem step_vote (h : step noWait σ action = some (σ', event)) (hunsettled : Unsettled txn action)
    (hstate : (σ.txns txn).state = .prepared) :
    (σ'.txns txn).state =
      if overturns noWait σ txn action = true then .aborted else .prepared := by
  rcases ne_or_eq txn event.txn with hne | htxn
  · rw [(step_effect h).txns_of_ne hne, overturns_of_ne h hne, hstate]
    rfl
  cases action with
  | invoke thread txn' op =>
      have hsame : txn' = txn := by rw [htxn, (step_effect h).invoke_txn]
      subst hsame
      simp only [step] at h
      split at h
      case isFalse => cases h
      case isTrue =>
        have hinvoke := invoke_state thread op hstate
        rw [Option.some.inj h] at hinvoke
        simpa [overturns] using hinvoke
  | resume thread =>
      obtain ⟨call, hcall, hresume⟩ := Option.bind_eq_some_iff.mp h
      exact resume_state hcall hresume (by rw [htxn, (step_effect h).resume_txn hcall]) hstate
  | walk thread order =>
      have hkept : σ'.txns = σ.txns := by
        cases step_effect h with
        | releaseWalked => rfl
      simp [overturns, hkept, hstate]
  | manager txn' write =>
      cases h
      simp only [Event.txn] at htxn
      subst htxn
      cases write with
      | prepareCommit => simp [stateWrite, hstate, overturns]
      | commitSingle => exact absurd rfl hunsettled.1
      | abort => exact absurd rfl hunsettled.2

/-- Only the transaction manager takes back an abort. -/
theorem Effect.aborted_stays (h : Effect noWait σ action event σ')
    (hunsettled : Unsettled txn action) (hstate : (σ.txns txn).state = .aborted) :
    (σ'.txns txn).state = .aborted := by
  rcases ne_or_eq txn event.txn with hne | rfl
  · rw [h.txns_of_ne hne, hstate]
  cases h with
  | begun thread txn op mode item name hidle hearly =>
      simp only [Event.txn] at hstate
      simp [hstate] at hearly
  | unlockHit thread txn item call call' p txn' hcall hunlocking hfind htxn' =>
      simp only [Event.txn] at hstate ⊢
      simp [htxn', hstate]
  | erased thread txn item call call' event hcall herasing =>
      rw [herasing.txn_eq.2.1] at hstate ⊢
      simp [hstate]
  | managerWrote txn write =>
      simp only [Event.txn] at hstate hunsettled ⊢
      cases write with
      | prepareCommit => simp [stateWrite, hstate]
      | commitSingle => exact absurd rfl hunsettled.1
      | abort => exact absurd rfl hunsettled.2
  | _ => simp_all [Event.txn]

end Steps

section Runs

variable {noWait : Bool} {σ σ' : LockManager} {txn : TxnId} {trace : List (Action × Event)}

/-- The vote stands after a run exactly when every step of it kept it. -/
theorem run_vote_iff (h : Run noWait σ trace σ') (hcalls : ∀ label ∈ trace, Unsettled txn label.1)
    (hstate : (σ.txns txn).state = .prepared) :
    (σ'.txns txn).state ≠ .aborted ↔ Lts.Run (KeepingStep noWait txn) σ trace σ' := by
  have hunsettled := h.with_labels (fun label => Unsettled txn label.1) hcalls
  rw [hunsettled.holds_iff
    (fun _ σ => (σ.txns txn).state = .prepared ∨ (σ.txns txn).state = .aborted)
    (fun _ σ => (σ.txns txn).state ≠ .aborted)
    (fun σ label => overturns noWait σ txn label.1 = false) ?hinv ?hgood ?hbad
    (.inl hstate) (by simp [hstate])]
  case hinv =>
    rintro past σ label σ' ⟨hlabel, hstep⟩ (hprepared | haborted)
    · rw [step_vote hstep hlabel hprepared]
      cases overturns noWait σ txn label.1 <;> simp
    · exact .inr ((step_effect hstep).aborted_stays hlabel haborted)
  case hgood =>
    rintro past σ label σ' ⟨hlabel, hstep⟩ hvoted hlive
    rw [step_vote hstep hlabel (hvoted.resolve_right hlive)]
    cases overturns noWait σ txn label.1 <;> simp
  case hbad =>
    rintro past σ label σ' ⟨hlabel, hstep⟩ - hlive haborted
    exact hlive ((step_effect hstep).aborted_stays hlabel haborted)
  constructor
  · intro hrun
    exact hrun.mono fun _ _ _ hstep => ⟨hstep.1, hstep.2.2⟩
  · intro hrun
    refine (hrun.with_labels _ hcalls).mono ?_
    rintro σ label σ' ⟨hlabel, hkept, hstep⟩
    exact ⟨hkept, hlabel, hstep⟩

end Runs

/-- A vote and what follows it, up to the request to commit: `CommitSingle`
answers yes if and only if no step in between has overturned the vote. -/
theorem vote_binding_iff {noWait : Bool} {txn : TxnId} {σ₁ σ₂ σ₃ : LockManager} {event : Event}
    {trace : List (Action × Event)}
    (hvote : (σ₁.txns txn).prepareCommitReturns = true)
    (hprepare : Step noWait σ₁ (.manager txn .prepareCommit, event) σ₂)
    (hrun : Run noWait σ₂ trace σ₃) (hcalls : ∀ label ∈ trace, Unsettled txn label.1) :
    (σ₃.txns txn).commitSingleReturns = true ↔ Lts.Run (KeepingStep noWait txn) σ₂ trace σ₃ := by
  have hlive : (σ₁.txns txn).state ≠ .aborted := by
    simpa [Transaction.prepareCommitReturns] using hvote
  have hprepared : (σ₂.txns txn).state = .prepared := by
    cases hprepare
    simp [stateWrite, hlive]
  rw [← run_vote_iff hrun hcalls hprepared]
  simp [Transaction.commitSingleReturns]

/-- Transaction 1 votes with a lock on table 0 and gives the lock back. -/
def voteAndUnlock : List Action :=
  [.invoke 0 1 (.lockTable .shared 0), .resume 0, .manager 1 .prepareCommit,
    .manager 1 .prepareCommit, .invoke 0 1 (.unLockTable 0), .resume 0, .resume 0]

theorem voteAndUnlock_commits :
    ((after false voteAndUnlock).txns 1).commitSingleReturns = true := by
  have hprepare : Step false (after false (voteAndUnlock.take 2))
      (.manager 1 .prepareCommit, .progress 1) (after false (voteAndUnlock.take 3)) := rfl
  have hrun : Run false (after false (voteAndUnlock.take 3)) _ (after false voteAndUnlock) :=
    Lts.run_of_exec (voteAndUnlock.drop 3) [.progress 1, .unlockCalled 1 (.ofTable 0),
      .unlocked 1 (.ofTable 0) (some 0), .unlockReturned 1 (.ofTable 0)] rfl
  refine (vote_binding_iff (by decide) hprepare hrun (by simp [voteAndUnlock, Unsettled])).mpr ?_
  exact .cons ⟨rfl, rfl⟩ (.cons ⟨rfl, rfl⟩ (.cons ⟨rfl, rfl⟩ (.cons ⟨rfl, rfl⟩ (.nil _))))

/-- Transaction 1 votes with a lock on table 0; a lock call for table 1 comes too
late. -/
def voteAndLock : List Action :=
  [.invoke 0 1 (.lockTable .shared 0), .resume 0, .manager 1 .prepareCommit,
    .invoke 0 1 (.lockTable .shared 1)]

/-- The vote was yes, and the answer to the request to commit is no. -/
theorem voteAndLock_overturned : ∃ σ₁ σ₂ σ₃ : LockManager,
    Run false init ((voteAndLock.take 2).zip
      [.progress 1, .granted 1 .shared (.ofTable 0)]) σ₁ ∧
    (σ₁.txns 1).prepareCommitReturns = true ∧
    Step false σ₁ (.manager 1 .prepareCommit, .progress 1) σ₂ ∧
    Run false σ₂ [(.invoke 0 1 (.lockTable .shared 1),
      .refused 1 .shared (.ofTable 1) (some .lockOnShrinking))] σ₃ ∧
    (σ₃.txns 1).commitSingleReturns = false :=
  ⟨after false (voteAndLock.take 2), after false (voteAndLock.take 3), after false voteAndLock,
    run_after (voteAndLock.take 2) rfl, rfl, rfl, .single rfl, rfl⟩

end LockManager

end RucDDBS
