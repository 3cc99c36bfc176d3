import RucDDBS.Transaction.LockEffect

/-!
When a lock call is refused. The effects of a step say what a refusal does; here the
state before the step tells whether the next section of a call refuses it.
-/

namespace RucDDBS

/-- The mode and the item of a call that asks for a lock. -/
def Op.lockTarget : Op → Option (LockMode × LockDataId)
  | .lockTable mode oid => some (mode, .ofTable oid)
  | .lockPartition mode oid pId => some (mode, .ofPartition oid pId)
  | .lockRow mode oid pId rowId => some (mode, .ofRow oid pId rowId)
  | _ => none

def Event.isRefused : Event → Bool
  | .refused _ _ _ _ => true
  | _ => false

namespace LockManager

variable {noWait : Bool} {σ σ' : LockManager} {thread : Nat} {txn : TxnId} {mode : LockMode}
  {item : LockDataId}

/-- The wait predicate lets the call pass or keeps it waiting: the transaction has not
been aborted, and in no-wait mode the request is compatible with the granted ones. -/
def WaitAdmits (noWait : Bool) (σ : LockManager) (txn : TxnId) (q : LockRequestQueue)
    (request : Nat) : Prop :=
  (σ.txns txn).state ≠ .aborted ∧ (noWait = false ∨ q.checkQueueCompatible request = true)

/-- The first section of a lock call changes the queue before it waits: it appends a request,
or rewrites the request that it upgrades. -/
inductive Opens (q : LockRequestQueue) (txn : TxnId) (mode : LockMode) :
    WaitPath → Nat → LockRequestQueue → Prop
  | new (hnone : q.findTxn txn = none) : Opens q txn mode .new q.fresh (q.emplaceBack txn mode)
  | upgrade (p : Nat) (hfind : q.findTxn txn = some p) (hmode : (q.requests p).lockMode ≠ mode)
      (hfree : q.upgrading = false) (hlegal : isUpdateCompatible (q.requests p) mode = true) :
      Opens q txn mode .upgrade p (q.startUpgrade p mode)

/-- The next section of a lock call does not refuse it. -/
def Admits (noWait : Bool) (σ : LockManager) (txn : TxnId) (mode : LockMode) (item : LockDataId) :
    LockPc → Prop
  | .waiting _ request => WaitAdmits noWait σ txn (σ.lockMap item) request
  | .enter =>
      let q := σ.lockMap item
      match q.findTxn txn with
      | none => WaitAdmits noWait σ txn (q.emplaceBack txn mode) q.fresh
      | some p =>
          if (q.requests p).lockMode = mode then
            if (q.requests p).granted = true then (σ.txns txn).state ≠ .aborted
            else WaitAdmits noWait σ txn q p
          else q.upgrading = false ∧ isUpdateCompatible (q.requests p) mode = true ∧
            WaitAdmits noWait σ txn (q.startUpgrade p mode) p

instance (σ : LockManager) (q : LockRequestQueue) (request : Nat) :
    Decidable (WaitAdmits noWait σ txn q request) :=
  inferInstanceAs (Decidable (_ ∧ _))

@[simp] theorem progress_isRefused : (Event.progress txn).isRefused = false := rfl

@[simp] theorem refuse_isRefused (reason : Option AbortReason) :
    (σ.refuse thread txn mode item reason).2.isRefused = true := rfl

@[simp] theorem acquire_isRefused : (σ.acquire thread txn mode item).2.isRefused = false := rfl

theorem waitSection_refused_iff (σ : LockManager) (path : WaitPath) (request : Nat) :
    (σ.waitSection noWait thread txn mode item path request).2.isRefused = false ↔
      WaitAdmits noWait σ txn (σ.lockMap item) request := by
  simp only [waitSection, WaitAdmits]
  cases hcompat : (σ.lockMap item).checkQueueCompatible request <;> cases noWait <;>
    by_cases hstate : (σ.txns txn).state = .aborted <;>
    simp [hstate]

/-- The same in front of a queue that the call has just changed. -/
theorem waitSection_setQueue_refused_iff (path : WaitPath) (request : Nat)
    (q : LockRequestQueue) :
    ((σ.setQueue item q).waitSection noWait thread txn mode item path request).2.isRefused = false ↔
      WaitAdmits noWait σ txn q request := by
  rw [waitSection_refused_iff]
  simp [WaitAdmits]

/-- How a wait goes on: it refuses the call, parks it, or lets it through. -/
theorem waitSection_outcome (σ : LockManager) (thread : Nat) (mode : LockMode) (path : WaitPath)
    (request : Nat) (q : LockRequestQueue) {event : Event}
    (h : (σ.setQueue item q).waitSection noWait thread txn mode item path request = (σ', event)) :
    (¬ WaitAdmits noWait σ txn q request ∧ σ'.lockMap = Function.update σ.lockMap item q ∧
        σ'.calls = Function.update σ.calls thread none) ∨
      (WaitAdmits noWait σ txn q request ∧ σ'.lockMap = Function.update σ.lockMap item q ∧
        σ'.calls = Function.update σ.calls thread
          (some (.lock txn mode item (.waiting path request)))) ∨
      (WaitAdmits noWait σ txn q request ∧
        σ'.lockMap = Function.update σ.lockMap item (granting q path request) ∧
        σ'.calls = Function.update σ.calls thread none) := by
  simp only [waitSection, setQueue_lockMap, Function.update_self, setQueue_txns] at h
  split at h
  next hpark =>
    cases h
    exact .inr (.inl ⟨⟨hpark.2.2, .inl hpark.1⟩, rfl, rfl⟩)
  next hnot =>
    split at h
    next hbad =>
      cases h
      refine .inl ⟨?_, rfl, rfl⟩
      rintro ⟨hstate, hadmits⟩
      rcases hbad with hcompat | haborted
      · rcases hadmits with hwait | hcompat'
        · exact hnot ⟨hwait, hcompat, hstate⟩
        · rw [hcompat] at hcompat'
          cases hcompat'
      · exact hstate haborted
    next hgood =>
      cases h
      rw [not_or, Bool.not_eq_false] at hgood
      refine .inr (.inr ⟨⟨hgood.2, .inr hgood.1⟩, ?_, rfl⟩)
      simp [granting, setQueue]

/-- A wait that refuses the call leaves the queue as it found it. -/
theorem waitSection_refused {path : WaitPath} {request : Nat} {q : LockRequestQueue}
    {event : Event} (hrefused : event.isRefused = true)
    (h : (σ.setQueue item q).waitSection noWait thread txn mode item path request = (σ', event)) :
    σ'.lockMap = Function.update σ.lockMap item q := by
  have hbad : ¬ WaitAdmits noWait σ txn q request := by
    intro hadmits
    have hpassed : ((σ.setQueue item q).waitSection noWait thread txn mode item path
        request).2.isRefused = false :=
      (waitSection_setQueue_refused_iff path request q).mpr hadmits
    rw [h, hrefused] at hpassed
    cases hpassed
  rcases waitSection_outcome σ thread mode path request q h with
    ⟨_, hmap, _⟩ | ⟨hgood, _⟩ | ⟨hgood, _⟩
  · exact hmap
  · exact absurd hgood hbad
  · exact absurd hgood hbad

/-- The first section of a lock call ends at once, without a look at the other requests, or
it waits: for an earlier request of its own that asks for the same, or after a change. -/
theorem enterSection_cases {event : Event}
    (h : σ.enterSection noWait thread txn mode item = (σ', event)) :
    ((∀ path p q, ¬ Opens (σ.lockMap item) txn mode path p q) ∧ σ'.lockMap = σ.lockMap ∧
        σ'.calls = Function.update σ.calls thread none ∧
        ((∃ reason, event = .refused txn mode item reason) ∨ event = .granted txn mode item)) ∨
      (∃ p, (σ.lockMap item).findTxn txn = some p ∧ ((σ.lockMap item).requests p).lockMode = mode ∧
        ((σ.lockMap item).requests p).granted = false ∧
        (σ.setQueue item (σ.lockMap item)).waitSection noWait thread txn mode item .same p =
          (σ', event)) ∨
      ∃ path p q, Opens (σ.lockMap item) txn mode path p q ∧
        (σ.setQueue item q).waitSection noWait thread txn mode item path p = (σ', event) := by
  simp only [enterSection] at h
  cases hfind : (σ.lockMap item).findTxn txn with
  | none =>
      simp only [hfind] at h
      exact .inr (.inr ⟨_, _, _, .new hfind, h⟩)
  | some p =>
      simp only [hfind] at h
      have hnot (hclosed : ((σ.lockMap item).requests p).lockMode = mode ∨
          (σ.lockMap item).upgrading = true ∨
          isUpdateCompatible ((σ.lockMap item).requests p) mode = false) :
          ∀ path p q, ¬ Opens (σ.lockMap item) txn mode path p q := by
        intro path r q hopens
        cases hopens with
        | new hnone =>
            rw [hfind] at hnone
            cases hnone
        | upgrade p' hfind' hmode hfree hlegal =>
            rw [hfind, Option.some.injEq] at hfind'
            subst hfind'
            rcases hclosed with hsame | hset | hillegal
            · exact hmode hsame
            · rw [hset] at hfree
              cases hfree
            · rw [hillegal] at hlegal
              cases hlegal
      by_cases hmode : ((σ.lockMap item).requests p).lockMode = mode
      · simp only [hmode, true_and, if_true] at h
        split at h
        next hgranted =>
          split at h
          · cases h
            exact .inl ⟨hnot (.inl hmode), rfl, rfl, .inl ⟨_, rfl⟩⟩
          · cases h
            exact .inl ⟨hnot (.inl hmode), rfl, rfl, .inr rfl⟩
        next hwait =>
          rw [Bool.not_eq_true] at hwait
          rw [← setQueue_self σ item] at h
          exact .inr (.inl ⟨p, rfl, hmode, hwait, h⟩)
      · simp only [hmode, false_and, if_false] at h
        split at h
        next hset =>
          cases h
          exact .inl ⟨hnot (.inr (.inl hset)), rfl, rfl, .inl ⟨_, rfl⟩⟩
        next hfree =>
          rw [Bool.not_eq_true] at hfree
          split at h
          next hillegal =>
            cases h
            exact .inl ⟨hnot (.inr (.inr hillegal)), rfl, rfl, .inl ⟨_, rfl⟩⟩
          next hlegal =>
            rw [Bool.not_eq_false] at hlegal
            exact .inr (.inr ⟨_, _, _, .upgrade p hfind hmode hfree hlegal, h⟩)

theorem enterSection_refused_iff :
    (σ.enterSection noWait thread txn mode item).2.isRefused = false ↔
      Admits noWait σ txn mode item .enter := by
  simp only [enterSection, Admits]
  cases hfind : (σ.lockMap item).findTxn txn with
  | none => exact waitSection_setQueue_refused_iff _ _ _
  | some p =>
      by_cases hmode : ((σ.lockMap item).requests p).lockMode = mode
      · cases hgranted : ((σ.lockMap item).requests p).granted with
        | true =>
            by_cases hstate : (σ.txns txn).state = .aborted <;>
              simp [hmode, hgranted, hstate]
        | false => simpa [hmode, hgranted] using waitSection_refused_iff σ .same p
      · cases hfree : (σ.lockMap item).upgrading with
        | true => simp [hmode]
        | false =>
            cases hlegal : isUpdateCompatible ((σ.lockMap item).requests p) mode with
            | false => simp [hmode, hlegal]
            | true =>
                simpa [hmode, hlegal] using waitSection_setQueue_refused_iff .upgrade p
                  ((σ.lockMap item).startUpgrade p mode)

instance : DecidablePred (Admits noWait σ txn mode item)
  | .waiting _ request => inferInstanceAs (Decidable (WaitAdmits noWait σ txn _ request))
  | .enter =>
      decidable_of_iff ((σ.enterSection noWait 0 txn mode item).2.isRefused = false)
        enterSection_refused_iff

theorem resume_refused_iff {pc : LockPc} {event : Event}
    (h : σ.resume noWait thread (.lock txn mode item pc) = some (σ', event)) :
    event.isRefused = false ↔ Admits noWait σ txn mode item pc := by
  cases pc with
  | enter =>
      have hevent : (σ.enterSection noWait thread txn mode item).2 = event :=
        congrArg Prod.snd (Option.some.inj h)
      rw [← hevent]
      exact enterSection_refused_iff
  | waiting path request =>
      have hevent : (σ.waitSection noWait thread txn mode item path request).2 = event :=
        congrArg Prod.snd (Option.some.inj h)
      rw [← hevent]
      exact waitSection_refused_iff σ path request

theorem step_invoke_eq {op : Op} (htarget : op.lockTarget = some (mode, item))
    (hidle : σ.calls thread = none) :
    step noWait σ (.invoke thread txn op) = some (σ.invokeLock thread txn mode item) := by
  cases op <;> cases htarget <;> simp [step, hidle, invoke]

end LockManager

end RucDDBS
