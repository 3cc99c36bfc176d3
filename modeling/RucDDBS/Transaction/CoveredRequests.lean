import RucDDBS.Transaction.LockBookkeeping
import RucDDBS.Transaction.LockRefusal

/-!
A request for less than the transaction already holds. `checkSameTxnLockRequest` lets the
same mode pass at once and takes every other mode for an upgrade. A mode that the held one
covers is no legal upgrade of it, so the call is refused and the transaction aborted; the
queue is not touched either way.
-/

namespace RucDDBS

variable {held mode : LockMode}

/-- A mode covers itself and the modes that may be upgraded to it. -/
theorem covers_iff {iter : LockRequest} :
    Covers held iter.lockMode ↔ iter.lockMode = held ∨ isUpdateCompatible iter held = true := by
  constructor
  · intro h
    have hshared := h ⟨0, .intentionShared, true⟩
    have hexclusive := h ⟨0, .intentionExclusive, true⟩
    have hread := h ⟨0, .shared, true⟩
    cases hiter : iter.lockMode <;> cases held <;>
      simp_all [isLockCompatible, isUpdateCompatible]
  · rintro (rfl | hlegal)
    · exact Covers.refl _
    · exact isUpdateCompatible_covers hlegal

/-- There is no way down: the mode that covers another one may not be upgraded to it. -/
theorem Covers.illegal {iter : LockRequest} (h : Covers iter.lockMode mode)
    (hne : mode ≠ iter.lockMode) : isUpdateCompatible iter mode = false := by
  have hcovers : Covers iter.lockMode (LockRequest.mk iter.txnId mode true).lockMode := h
  rcases covers_iff.mp hcovers with hsame | hup
  · exact absurd hsame hne
  · cases mode <;> cases hiter : iter.lockMode <;> simp_all [isUpdateCompatible]

/-- Rows are locked in the modes S and X only. -/
def LockDataId.Fits (item : LockDataId) (mode : LockMode) : Prop :=
  ∃ name, lockSetName item.type mode = some name

namespace LockRequestQueue

/-- The queue has one request of the transaction, so it is the one that the call finds. -/
theorem OnePerTxn.findTxn_of_holds {q : LockRequestQueue} {txn : TxnId} {p : Nat} (hunique : q.OnePerTxn)
    (hholds : q.Holds txn p) : q.findTxn txn = some p := by
  cases hfind : q.findTxn txn with
  | none => exact absurd hholds.2.1 (findTxn_none hfind p hholds.1)
  | some r =>
      obtain ⟨hmem, htxn⟩ := findTxn_some hfind
      rw [hunique r p hmem hholds.1 (htxn.trans hholds.2.1.symm)]

end LockRequestQueue

namespace LockManager

open LockRequestQueue

variable {noWait : Bool} {σ σ' : LockManager} {action : Action} {event : Event} {txn : TxnId}
  {item : LockDataId} {thread : Nat} {op : Op}

/-- All requests, listed or on their way, ask for modes that their items are locked in. -/
structure ModesFit (σ : LockManager) : Prop where
  listed : ∀ item p, p ∈ (σ.lockMap item).requestQueue →
    item.Fits ((σ.lockMap item).requests p).lockMode
  called : ∀ thread txn mode item pc, σ.calls thread = some (.lock txn mode item pc) →
    item.Fits mode

theorem modesFit_init : init.ModesFit where
  listed := by
    intro item p hp
    simp [init, LockRequestQueue.empty] at hp
  called := by
    intro thread txn mode item pc hcall
    simp [init] at hcall

/-- A section of a lock call changes no mode but to the one it asks for. -/
theorem Prepare.modes {q q' : LockRequestQueue} {pc : LockPc} {path : WaitPath} {p r : Nat}
    (h : Prepare txn mode q pc path p q') (hr : r ∈ q'.requestQueue) :
    (r ∈ q.requestQueue ∧ (q'.requests r).lockMode = (q.requests r).lockMode) ∨
      (q'.requests r).lockMode = mode := by
  cases h with
  | new hnew =>
      rw [emplaceBack_requestQueue, List.mem_append, List.mem_singleton] at hr
      rcases hr with hold | rfl
      · have hfresh : r ≠ q.fresh := Nat.ne_of_lt (q.allocated r hold)
        exact .inl ⟨hold, by simp [Function.update_of_ne hfresh]⟩
      · exact .inr (by simp)
  | same => exact .inl ⟨hr, rfl⟩
  | upgrade =>
      by_cases heq : r = p
      · subst heq
        exact .inr (by simp)
      · exact .inl ⟨hr, by simp [Function.update_of_ne heq]⟩
  | recheck => exact .inl ⟨hr, rfl⟩

theorem Effect.modesFit (hfit : σ.ModesFit) (h : Effect noWait σ action event σ') :
    σ'.ModesFit := by
  have hlisted {item : LockDataId} {q : LockRequestQueue}
      (hmap : σ'.lockMap = Function.update σ.lockMap item q)
      (hq : ∀ r ∈ q.requestQueue, item.Fits (q.requests r).lockMode) :
      ∀ item p, p ∈ (σ'.lockMap item).requestQueue →
        item.Fits ((σ'.lockMap item).requests p).lockMode := by
    intro item' p hp
    rw [hmap] at hp ⊢
    by_cases heq : item' = item
    · subst heq
      rw [Function.update_self] at hp ⊢
      exact hq p hp
    · rw [Function.update_of_ne heq] at hp ⊢
      exact hfit.listed item' p hp
  have hcalled {actor : Nat} {next : Option Call}
      (hcalls : σ'.calls = Function.update σ.calls actor next)
      (hnext : ∀ txn mode item pc, next = some (.lock txn mode item pc) → item.Fits mode) :
      ∀ thread txn mode item pc, σ'.calls thread = some (.lock txn mode item pc) →
        item.Fits mode := by
    intro thread txn mode item pc hcall
    rcases calls_of_update hcalls hcall with ⟨_, hset⟩ | hold
    · exact hnext txn mode item pc hset
    · exact hfit.called thread txn mode item pc hold
  have hprepared {txn : TxnId} {mode : LockMode} {item : LockDataId} {pc : LockPc}
      {path : WaitPath} {p : Nat} {q : LockRequestQueue} (hmode : item.Fits mode)
      (hprepare : Prepare txn mode (σ.lockMap item) pc path p q) (r : Nat)
      (hr : r ∈ q.requestQueue) : item.Fits (q.requests r).lockMode := by
    rcases hprepare.modes hr with ⟨hold, hsame⟩ | hsame
    · rw [hsame]
      exact hfit.listed item r hold
    · rw [hsame]
      exact hmode
  cases h with
  | begun _ _ _ _ _ name _ _ hname =>
      refine ⟨hfit.listed, hcalled rfl ?_⟩
      rintro _ _ _ _ ⟨⟩
      exact ⟨name, hname⟩
  | parked thread txn mode item pc path p q hcall hprepare =>
      have hmode := hfit.called thread txn mode item pc hcall
      refine ⟨hlisted rfl (hprepared hmode hprepare), hcalled rfl ?_⟩
      rintro _ _ _ _ ⟨⟩
      exact hmode
  | refused thread txn mode item pc path p q hcall hprepare =>
      have hmode := hfit.called thread txn mode item pc hcall
      exact ⟨hlisted rfl (hprepared hmode hprepare), hcalled rfl (by simp)⟩
  | acquired thread txn mode item pc path p q hcall hprepare =>
      have hmode := hfit.called thread txn mode item pc hcall
      refine ⟨hlisted rfl ?_, hcalled rfl (by simp)⟩
      intro r hr
      rw [granting_requestQueue] at hr
      rw [granting_mode]
      exact hprepared hmode hprepare r hr
  | unlockHit thread txn item _ _ p _ _ hunlocking =>
      refine ⟨hlisted rfl ?_, hcalled rfl ?_⟩
      · intro r hr
        exact hfit.listed item r (List.mem_of_mem_erase hr)
      · intro _ _ _ _ hnext
        exact absurd (Option.some.inj hnext) hunlocking.ne_lock
  | unlockMiss _ _ _ _ _ _ hunlocking =>
      refine ⟨hfit.listed, hcalled rfl ?_⟩
      intro _ _ _ _ hnext
      exact absurd (Option.some.inj hnext) hunlocking.ne_lock
  | erased _ _ _ _ _ _ _ herasing =>
      refine ⟨hfit.listed, hcalled rfl ?_⟩
      intro _ _ _ _ hnext
      exact absurd hnext herasing.ne_lock
  | managerWrote => exact ⟨hfit.listed, hfit.called⟩
  | _ => exact ⟨hfit.listed, hcalled rfl (by simp)⟩

theorem run_modesFit {trace : List (Action × Event)} (h : Run noWait init trace σ) :
    σ.ModesFit :=
  h.preserves ModesFit (fun _ _ _ hstep hfit => (step_effect hstep).modesFit hfit) modesFit_init

section Calls

/-- A lock call that no other thread interrupts: the checks in front of the latch, and if
these let it pass, its first latch section. -/
def lockCall (noWait : Bool) (σ : LockManager) (thread : Nat) (txn : TxnId) (op : Op) :
    Option (LockManager × Event) := do
  let (σ', event) ← step noWait σ (.invoke thread txn op)
  if event.isRefused = true then pure (σ', event) else step noWait σ' (.resume thread)

/-- Why a mode that the held one covers is refused. -/
def weakerReason (q : LockRequestQueue) (item : LockDataId) (mode : LockMode) : AbortReason :=
  if item.type = .row ∧ mode ≠ .shared ∧ mode ≠ .exlucsive then .attemptedIntentionLockOnRow
  else if q.upgrading = true then .upgradeConflict
  else .incompatibleUpgrade

/-- The first section of a call for a mode that the transaction holds. -/
theorem enterSection_held {p : Nat} (hfind : (σ.lockMap item).findTxn txn = some p)
    (hgranted : ((σ.lockMap item).requests p).granted = true)
    (hmode : ((σ.lockMap item).requests p).lockMode = mode)
    (hgrowing : (σ.txns txn).state = .growing) :
    σ.enterSection noWait thread txn mode item = σ.acquire thread txn mode item := by
  simp [enterSection, hfind, hgranted, hmode, hgrowing]

/-- The first section of a call for a mode to which there is no upgrade. -/
theorem enterSection_illegal {p : Nat} (hfind : (σ.lockMap item).findTxn txn = some p)
    (hmode : ((σ.lockMap item).requests p).lockMode ≠ mode)
    (hillegal : isUpdateCompatible ((σ.lockMap item).requests p) mode = false) :
    σ.enterSection noWait thread txn mode item = σ.refuse thread txn mode item
      (some (if (σ.lockMap item).upgrading = true then .upgradeConflict
        else .incompatibleUpgrade)) := by
  simp only [enterSection, hfind, hmode, hillegal, false_and, if_false, if_true]
  split <;> rfl

/-- The call of a growing transaction up to its first section. -/
theorem lockCall_growing (htarget : op.lockTarget = some (mode, item))
    (hidle : σ.calls thread = none) (hgrowing : (σ.txns txn).state = .growing) :
    σ.lockCall noWait thread txn op =
      if item.type = .row ∧ mode ≠ .shared ∧ mode ≠ .exlucsive then
        some (σ.refuse thread txn mode item (some .attemptedIntentionLockOnRow))
      else some ((σ.setCall thread (some (.lock txn mode item .enter))).enterSection noWait thread
        txn mode item) := by
  have htxn : σ.setTxn txn (σ.txns txn) = σ := by
    simp [setTxn]
  rw [lockCall, step_invoke_eq htarget hidle]
  by_cases hrow : item.type = .row ∧ mode ≠ .shared ∧ mode ≠ .exlucsive
  · simp [invokeLock, beginLock, hgrowing, hrow]
  · simp [invokeLock, beginLock, hgrowing, hrow, htxn, step, resume]

/-- A growing transaction that holds a lock asks for a mode that the lock covers. The queues
stay as they are. For the mode that it holds the call returns true and it is growing still; for
a weaker one the call returns false and it is aborted. -/
theorem covered_request {trace : List (Action × Event)} {p : Nat} (hrun : Run noWait init trace σ)
    (hholds : (σ.lockMap item).Holds txn p) (hgrowing : (σ.txns txn).state = .growing)
    (hcovers : Covers ((σ.lockMap item).requests p).lockMode mode)
    (htarget : op.lockTarget = some (mode, item)) (hidle : σ.calls thread = none) :
    ∃ σ' event, σ.lockCall noWait thread txn op = some (σ', event) ∧ σ'.lockMap = σ.lockMap ∧
      (mode = ((σ.lockMap item).requests p).lockMode →
        event = .granted txn mode item ∧ (σ'.txns txn).state = .growing) ∧
      (mode ≠ ((σ.lockMap item).requests p).lockMode →
        event = .refused txn mode item (some (weakerReason (σ.lockMap item) item mode)) ∧
          (σ'.txns txn).state = .aborted) := by
  have hunique : (σ.lockMap item).OnePerTxn := run_onePerTxn hrun item
  have hfind : ((σ.setCall thread (some (.lock txn mode item .enter))).lockMap item).findTxn txn =
      some p := hunique.findTxn_of_holds hholds
  rw [lockCall_growing htarget hidle hgrowing]
  rcases eq_or_ne mode ((σ.lockMap item).requests p).lockMode with hmode | hmode
  · obtain ⟨name, hname⟩ := (run_modesFit hrun).listed item p hholds.1
    have hrow : ¬ (item.type = .row ∧ mode ≠ .shared ∧ mode ≠ .exlucsive) := by
      rintro ⟨htype, hshared, hexclusive⟩
      rw [htype, ← hmode] at hname
      cases hmode' : mode <;> simp_all [lockSetName]
    rw [if_neg hrow, enterSection_held hfind hholds.2.2 hmode.symm hgrowing]
    refine ⟨_, _, rfl, rfl, ?_, fun hne => absurd hmode hne⟩
    intro _
    exact ⟨rfl, by simpa using hgrowing⟩
  · have hillegal := hcovers.illegal hmode
    by_cases hrow : item.type = .row ∧ mode ≠ .shared ∧ mode ≠ .exlucsive
    · rw [if_pos hrow]
      refine ⟨_, _, rfl, rfl, fun heq => absurd heq hmode, ?_⟩
      intro _
      exact ⟨by rw [weakerReason, if_pos hrow], by simp⟩
    · rw [if_neg hrow, enterSection_illegal hfind hmode.symm hillegal]
      refine ⟨_, _, rfl, rfl, fun heq => absurd heq hmode, ?_⟩
      intro _
      exact ⟨by rw [weakerReason, if_neg hrow]; rfl, by simp⟩

/-- Transaction 1 has inserted into partition 2 of table 0 under a lock in mode IX. -/
def insertedInto : List Action :=
  [.invoke 0 1 (.lockPartition .intentionExclusive 0 2), .resume 0]

theorem insertedInto_locks_again :
    ∃ σ' event, (after true insertedInto).lockCall true 0 1
        (.lockPartition .intentionExclusive 0 2) = some (σ', event) ∧
      event = .granted 1 .intentionExclusive (.ofPartition 0 2) ∧
      (σ'.txns 1).state = .growing := by
  have hholds : ((after true insertedInto).lockMap (.ofPartition 0 2)).Holds 1 0 :=
    ⟨by decide, by decide, by decide⟩
  have htarget : (Op.lockPartition .intentionExclusive 0 2).lockTarget =
      some (.intentionExclusive, .ofPartition 0 2) := rfl
  have hidle : (after true insertedInto).calls 0 = none := by decide
  obtain ⟨σ', event, hcall, _, hsame, _⟩ := covered_request (run_after insertedInto rfl) hholds
    (by decide) (Covers.refl .intentionExclusive) htarget hidle
  exact ⟨σ', event, hcall, hsame rfl⟩

/-- It locks the partition in mode IS, which IX covers: the call returns false and the
transaction is aborted. -/
theorem insertedInto_read_refused :
    Covers .intentionExclusive .intentionShared ∧
      (∃ trace, Run true init trace (after true insertedInto)) ∧
      ((after true insertedInto).txns 1).state = .growing ∧
      ((after true insertedInto).lockMap (.ofPartition 0 2)).Holds 1 0 ∧
      (((after true insertedInto).lockMap (.ofPartition 0 2)).requests 0).lockMode =
        .intentionExclusive ∧
      ((after true insertedInto).lockCall true 0 1 (.lockPartition .intentionShared 0 2)).map
          (fun last => (last.2, (last.1.txns 1).state)) =
        some (.refused 1 .intentionShared (.ofPartition 0 2) (some .incompatibleUpgrade),
          .aborted) := by
  have hlegal : isUpdateCompatible ⟨1, .intentionShared, true⟩ .intentionExclusive = true := rfl
  refine ⟨isUpdateCompatible_covers hlegal, ⟨_, run_after insertedInto rfl⟩, by decide,
    ⟨by decide, by decide, by decide⟩, by decide, by decide⟩

end Calls

end LockManager

end RucDDBS
