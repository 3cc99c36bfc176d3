import RucDDBS.Transaction.Types

/-!
One `LockRequestQueue`: the requests for a single table, partition or row. The
source keeps a `std::list<LockRequest *>`, so a request is known by its
address. It can leave the list while a waiting call still holds its address,
and the object itself is never freed. The model therefore separates the
objects (`requests`, indexed by address) from the list of addresses.

The moves at the end of the module are everything that any section run under
the queue latch does to a queue. Every invariant of the lock table is proved
move by move.
-/

namespace RucDDBS

structure LockRequest where
  txnId : TxnId
  lockMode : LockMode
  granted : Bool := false
  deriving DecidableEq, Repr

/-- `isLockCompatible`: may `target` be granted beside the request `iter`? -/
def isLockCompatible (iter : LockRequest) (target : LockMode) : Bool :=
  match target with
  | .intentionShared => !(iter.lockMode == .exlucsive)
  | .intentionExclusive =>
      !(iter.lockMode != .intentionShared && iter.lockMode != .intentionExclusive)
  | .shared => !(iter.lockMode != .intentionShared && iter.lockMode != .shared)
  | .sIx => !(iter.lockMode != .intentionShared)
  | .exlucsive => false

/-- `isUpdateCompatible`: may the request `iter` be upgraded to `upgrade`? -/
def isUpdateCompatible (iter : LockRequest) (upgrade : LockMode) : Bool :=
  match iter.lockMode with
  | .intentionShared => !(upgrade == .intentionShared)
  | .shared => !(upgrade != .exlucsive && upgrade != .sIx)
  | .intentionExclusive => !(upgrade != .exlucsive && upgrade != .sIx)
  | .sIx => !(upgrade != .exlucsive)
  | .exlucsive => false

/-- Compatibility does not depend on which of the two locks came first. -/
theorem isLockCompatible_symm (a b : LockRequest) :
    isLockCompatible a b.lockMode = isLockCompatible b a.lockMode := by
  rcases a with ⟨_, ma, _⟩
  rcases b with ⟨_, mb, _⟩
  cases ma <;> cases mb <;> rfl

/-- `Covers held m`: a lock in mode `held` excludes everything that a lock in
mode `m` excludes. -/
def Covers (held m : LockMode) : Prop :=
  ∀ other : LockRequest, isLockCompatible other held = true →
    isLockCompatible other m = true

theorem Covers.refl (m : LockMode) : Covers m m := fun _ h => h

theorem Covers.trans {a b c : LockMode} (hab : Covers a b) (hbc : Covers b c) :
    Covers a c := fun other h => hbc other (hab other h)

/-- A legal upgrade only ever excludes more. -/
theorem isUpdateCompatible_covers {iter : LockRequest} {upgrade : LockMode}
    (h : isUpdateCompatible iter upgrade = true) : Covers upgrade iter.lockMode := by
  rcases iter with ⟨_, mode, _⟩
  rintro ⟨_, other, _⟩ hother
  cases mode <;> cases upgrade <;> cases other <;>
    simp_all [isUpdateCompatible, isLockCompatible]

/-- Only X excludes what X excludes: every other mode admits an IS lock. -/
theorem covers_exlucsive {held : LockMode} (h : Covers held .exlucsive) : held = .exlucsive := by
  have hshared := h ⟨0, .intentionShared, true⟩
  cases held <;> simp_all [isLockCompatible]

/-- A queue carries its own well-formedness: listed addresses are distinct and
have been allocated. -/
structure LockRequestQueue where
  requests : Nat → LockRequest
  requestQueue : List Nat
  fresh : Nat
  upgrading : Bool
  nodup : requestQueue.Nodup
  allocated : ∀ p ∈ requestQueue, p < fresh

namespace LockRequestQueue

/-- The queue that `lock_map_[l_id]` creates on first use. -/
def empty : LockRequestQueue where
  requests := fun _ => ⟨0, .shared, false⟩
  requestQueue := []
  fresh := 0
  upgrading := false
  nodup := List.nodup_nil
  allocated := by simp

/-- `checkQueueCompatible(request_queue, request)` -/
def checkQueueCompatible (q : LockRequestQueue) (request : Nat) : Bool :=
  q.requestQueue.all fun iter =>
    if iter ≠ request ∧ (q.requests iter).granted = true then
      isLockCompatible (q.requests iter) (q.requests request).lockMode
    else true

/-- The first request of a transaction in list order, on which
`checkSameTxnLockRequest` acts. -/
def findTxn (q : LockRequestQueue) (txn : TxnId) : Option Nat :=
  q.requestQueue.find? fun iter => (q.requests iter).txnId == txn

/-- The first granted request of a transaction, for which `Unlock` looks. -/
def findGranted (q : LockRequestQueue) (txn : TxnId) : Option Nat :=
  q.requestQueue.find? fun iter =>
    (q.requests iter).txnId == txn && (q.requests iter).granted

/-- `new LockRequest(...)` followed by `emplace_back`. -/
def emplaceBack (q : LockRequestQueue) (txn : TxnId) (mode : LockMode) :
    LockRequestQueue where
  requests := Function.update q.requests q.fresh ⟨txn, mode, false⟩
  requestQueue := q.requestQueue ++ [q.fresh]
  fresh := q.fresh + 1
  upgrading := q.upgrading
  nodup := by
    refine List.nodup_append.mpr ⟨q.nodup, List.nodup_singleton _, ?_⟩
    intro a ha b hb
    have hlt := q.allocated a ha
    simp only [List.mem_singleton] at hb
    omega
  allocated := by
    intro p hp
    simp only [List.mem_append, List.mem_singleton] at hp
    rcases hp with hp | hp
    · exact Nat.lt_succ_of_lt (q.allocated p hp)
    · omega

/-- `iter->granted_ = true` -/
def grant (q : LockRequestQueue) (p : Nat) : LockRequestQueue :=
  { q with requests := Function.update q.requests p { q.requests p with granted := true } }

/-- The three assignments that open an upgrade: the flag is raised, the mode is
rewritten and the old lock is no longer marked as granted. -/
def startUpgrade (q : LockRequestQueue) (p : Nat) (mode : LockMode) : LockRequestQueue :=
  { q with
    upgrading := true
    requests := Function.update q.requests p
      { q.requests p with lockMode := mode, granted := false } }

/-- `request_queue->upgrading_ = false` -/
def endUpgrade (q : LockRequestQueue) : LockRequestQueue :=
  { q with upgrading := false }

/-- `request_queue_.erase(iter)`; the request object stays allocated. -/
def erase (q : LockRequestQueue) (p : Nat) : LockRequestQueue where
  requests := q.requests
  requestQueue := q.requestQueue.erase p
  fresh := q.fresh
  upgrading := q.upgrading
  nodup := q.nodup.erase p
  allocated := fun r hr => q.allocated r (List.mem_of_mem_erase hr)

section Projections

variable (q : LockRequestQueue) (txn : TxnId) (mode : LockMode) (p : Nat)

@[simp] theorem emplaceBack_requests : (q.emplaceBack txn mode).requests =
    Function.update q.requests q.fresh ⟨txn, mode, false⟩ := rfl

@[simp] theorem emplaceBack_requestQueue :
    (q.emplaceBack txn mode).requestQueue = q.requestQueue ++ [q.fresh] := rfl

@[simp] theorem emplaceBack_fresh : (q.emplaceBack txn mode).fresh = q.fresh + 1 := rfl

@[simp] theorem grant_requests : (q.grant p).requests =
    Function.update q.requests p { q.requests p with granted := true } := rfl

@[simp] theorem grant_requestQueue : (q.grant p).requestQueue = q.requestQueue := rfl

@[simp] theorem startUpgrade_requests : (q.startUpgrade p mode).requests =
    Function.update q.requests p
      { q.requests p with lockMode := mode, granted := false } := rfl

@[simp] theorem startUpgrade_requestQueue :
    (q.startUpgrade p mode).requestQueue = q.requestQueue := rfl

@[simp] theorem endUpgrade_requests : q.endUpgrade.requests = q.requests := rfl

@[simp] theorem endUpgrade_requestQueue : q.endUpgrade.requestQueue = q.requestQueue := rfl

@[simp] theorem erase_requests : (q.erase p).requests = q.requests := rfl

@[simp] theorem erase_requestQueue :
    (q.erase p).requestQueue = q.requestQueue.erase p := rfl

end Projections

/-- The address `p` is listed, belongs to `txn` and is granted. -/
def Holds (q : LockRequestQueue) (txn : TxnId) (p : Nat) : Prop :=
  p ∈ q.requestQueue ∧ (q.requests p).txnId = txn ∧ (q.requests p).granted = true

theorem checkQueueCompatible_iff (q : LockRequestQueue) (p : Nat) :
    q.checkQueueCompatible p = true ↔
      ∀ r ∈ q.requestQueue, r ≠ p → (q.requests r).granted = true →
        isLockCompatible (q.requests r) (q.requests p).lockMode = true := by
  simp only [checkQueueCompatible, List.all_eq_true]
  constructor
  · intro h r hr hne hgranted
    have hcheck := h r hr
    rwa [if_pos ⟨hne, hgranted⟩] at hcheck
  · intro h r hr
    split
    next hcond => exact h r hr hcond.1 hcond.2
    next => rfl

theorem findTxn_some {q : LockRequestQueue} {txn : TxnId} {p : Nat}
    (h : q.findTxn txn = some p) :
    p ∈ q.requestQueue ∧ (q.requests p).txnId = txn := by
  refine ⟨List.mem_of_find?_eq_some h, ?_⟩
  simpa using List.find?_some h

theorem findTxn_none {q : LockRequestQueue} {txn : TxnId}
    (h : q.findTxn txn = none) :
    ∀ p ∈ q.requestQueue, (q.requests p).txnId ≠ txn := by
  simpa [findTxn] using h

theorem findGranted_some {q : LockRequestQueue} {txn : TxnId} {p : Nat}
    (h : q.findGranted txn = some p) : q.Holds txn p := by
  have hp := List.find?_some h
  simp only [Bool.and_eq_true, beq_iff_eq] at hp
  exact ⟨List.mem_of_find?_eq_some h, hp.1, hp.2⟩

theorem findGranted_none {q : LockRequestQueue} {txn : TxnId}
    (h : q.findGranted txn = none) (p : Nat) : ¬ q.Holds txn p := by
  rintro ⟨hmem, htxn, hgranted⟩
  have hnone := List.find?_eq_none.mp h p hmem
  simp [htxn, hgranted] at hnone

/-- Everything a section of a lock call of transaction `txn` may do to a queue,
one assignment group at a time. -/
inductive LockMove (txn : TxnId) : LockRequestQueue → LockRequestQueue → Prop
  | emplaceBack (q : LockRequestQueue) (mode : LockMode)
      (hnew : ∀ p ∈ q.requestQueue, (q.requests p).txnId ≠ txn) :
      LockMove txn q (q.emplaceBack txn mode)
  | startUpgrade (q : LockRequestQueue) (p : Nat) (mode : LockMode)
      (hmem : p ∈ q.requestQueue) (htxn : (q.requests p).txnId = txn)
      (hmode : isUpdateCompatible (q.requests p) mode = true) :
      LockMove txn q (q.startUpgrade p mode)
  | grant (q : LockRequestQueue) (p : Nat)
      (halloc : p < q.fresh) (htxn : (q.requests p).txnId = txn)
      (hcompat : q.checkQueueCompatible p = true) :
      LockMove txn q (q.grant p)
  | endUpgrade (q : LockRequestQueue) : LockMove txn q q.endUpgrade

/-- The moves of lock calls together with the one move of `Unlock`. -/
inductive Move (txn : TxnId) : LockRequestQueue → LockRequestQueue → Prop
  | lock {q q' : LockRequestQueue} (h : LockMove txn q q') : Move txn q q'
  | erase (q : LockRequestQueue) (p : Nat) (hholds : q.Holds txn p) :
      Move txn q (q.erase p)

end LockRequestQueue

end RucDDBS
