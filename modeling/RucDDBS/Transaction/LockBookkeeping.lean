import RucDDBS.Transaction.TwoPhase
import Mathlib.Algebra.Order.BigOperators.Group.List
import Mathlib.Algebra.Order.Group.Nat
import Mathlib.Data.Finset.Card
import Mathlib.Algebra.GroupWithZero.Nat

/-!
The lock sets of a transaction against the lock table. The two are not equal:
an upgrade leaves its item in several sets at once, and a failed upgrade leaves
it in a set although nothing is granted. What holds is one inclusion. Every
granted request is recorded under its present mode, and it is this inclusion
that lets `ReleaseLocks` find all of them.

The inclusion is broken inside an unlock call, between the latch section and
the erasures, unless the latch section has removed the only request that the
transaction has in the queue. The invariant therefore also says what each call
in progress relies on.
-/

namespace RucDDBS

namespace LockRequestQueue

variable {txn : TxnId} {q q' : LockRequestQueue} {p r : Nat}

/-- No transaction has two requests in the queue. -/
def OnePerTxn (q : LockRequestQueue) : Prop :=
  ∀ p r, p ∈ q.requestQueue → r ∈ q.requestQueue →
    (q.requests p).txnId = (q.requests r).txnId → p = r

theorem onePerTxn_empty : OnePerTxn empty := by
  intro p r hp
  simp [empty] at hp

theorem OnePerTxn.emplaceBack {mode : LockMode} (hq : q.OnePerTxn)
    (hnew : ∀ p ∈ q.requestQueue, (q.requests p).txnId ≠ txn) :
    (q.emplaceBack txn mode).OnePerTxn := by
  have hold {a : Nat} (ha : a ∈ q.requestQueue) :
      ((q.emplaceBack txn mode).requests a).txnId = (q.requests a).txnId := by
    have hfresh : a ≠ q.fresh := Nat.ne_of_lt (q.allocated a ha)
    simp [Function.update_of_ne hfresh]
  have hlast : ((q.emplaceBack txn mode).requests q.fresh).txnId = txn := by simp
  intro a b ha hb hsame
  simp only [emplaceBack_requestQueue, List.mem_append, List.mem_singleton] at ha hb
  rcases ha with ha | rfl
  · rcases hb with hb | rfl
    · rw [hold ha, hold hb] at hsame
      exact hq a b ha hb hsame
    · rw [hold ha, hlast] at hsame
      exact absurd hsame (hnew a ha)
  · rcases hb with hb | rfl
    · rw [hlast, hold hb] at hsame
      exact absurd hsame.symm (hnew b hb)
    · rfl

theorem Move.onePerTxn (h : Move txn q q') (hq : q.OnePerTxn) : q'.OnePerTxn := by
  -- all moves but `emplaceBack` list no new address and keep the owners
  have hkeep (hlist : ∀ a ∈ q'.requestQueue, a ∈ q.requestQueue) : q'.OnePerTxn := by
    intro a b ha hb hsame
    have ha' := hlist a ha
    have hb' := hlist b hb
    rw [(h.owner (q.allocated a ha')).2, (h.owner (q.allocated b hb')).2] at hsame
    exact hq a b ha' hb' hsame
  cases h with
  | lock h =>
      cases h with
      | emplaceBack mode hnew => exact hq.emplaceBack hnew
      | startUpgrade p mode hmem htxn hmode => exact hkeep fun a ha => ha
      | grant p halloc htxn hcompat => exact hkeep fun a ha => ha
      | endUpgrade => exact hkeep fun a ha => ha
  | erase p hholds => exact hkeep fun a ha => List.mem_of_mem_erase ha

theorem moves_others (h : Relation.ReflTransGen (Move txn) q q') (hp : p < q.fresh)
    (hother : (q.requests p).txnId ≠ txn) : q'.requests p = q.requests p := by
  induction h with
  | refl => rfl
  | tail hmoves hmove ih =>
      have howner := LockManager.moves_owner hmoves hp
      rw [← ih]
      apply (hmove.others howner.1 _).1
      rw [howner.2]
      exact hother

/-- Removing a transaction's granted request leaves it none. -/
theorem OnePerTxn.erase_not_holds (hq : q.OnePerTxn) (hp : q.Holds txn p) :
    ¬ (q.erase p).Holds txn r := by
  rintro ⟨hr, htxn, _⟩
  simp only [erase_requestQueue] at hr
  have hrp : r = p := by
    apply hq r p (List.mem_of_mem_erase hr) hp.1
    rw [hp.2.1]
    exact htxn
  subst hrp
  exact absurd hr q.nodup.not_mem_erase

end LockRequestQueue

namespace LockManager

open LockRequestQueue Relation

variable {noWait : Bool} {σ σ' : LockManager} {action : Action} {event : Event}
  {txn : TxnId}

theorem run_onePerTxn {trace : List (Action × Event)} (h : Run noWait init trace σ)
    (item : LockDataId) : (σ.lockMap item).OnePerTxn :=
  run_queue_invariant onePerTxn_empty (fun _ _ _ hmove => hmove.onePerTxn) h item

/-- Every granted request is in a lock set that fits its item and its mode. -/
def RecordedAs (Fits : LockDataId → LockMode → LockSetName → Prop) (σ : LockManager)
    (txn : TxnId) : Prop :=
  ∀ item p, (σ.lockMap item).Holds txn p →
    ∃ name, Fits item ((σ.lockMap item).requests p).lockMode name ∧
      item ∈ (σ.txns txn).lockSet name

/-- Every granted request is in the lock set of its item's kind and its mode. -/
def Recorded (σ : LockManager) (txn : TxnId) : Prop :=
  ∀ item p, (σ.lockMap item).Holds txn p →
    ∃ name, lockSetName item.type ((σ.lockMap item).requests p).lockMode = some name ∧
      item ∈ (σ.txns txn).lockSet name

/-- The lock sets hold items of their own kind, as the lock calls built them. -/
def SetsTyped (σ : LockManager) (txn : TxnId) : Prop :=
  ∀ name item, item ∈ (σ.txns txn).lockSet name → item.type = name.type ∧ item.canonical = item

/-- What a call of `txn` in progress relies on. -/
def CallOk (σ : LockManager) (txn : TxnId) : Call → Prop
  | .lock _ mode item pc =>
      (∃ name, lockSetName item.type mode = some name) ∧ item.canonical = item ∧
        ∀ path p, pc = .waiting path p → ((σ.lockMap item).requests p).lockMode = mode
  | .unlock _ item pc => pc = .eraseSets → ∀ p, ¬ (σ.lockMap item).Holds txn p
  | .release _ loops ahead current =>
      (∀ item ∈ ahead, item.canonical = item) ∧
        (∀ name ∉ loops, ∀ item ∈ (σ.txns txn).lockSet name,
          item ∈ ahead ∨ ∃ pc, current = some (item, pc)) ∧
        ∀ item, current = some (item, .eraseSets) → ∀ p, ¬ (σ.lockMap item).Holds txn p

structure Books (σ : LockManager) (txn : TxnId) : Prop where
  recorded : σ.Recorded txn
  typed : σ.SetsTyped txn
  calls : ∀ thread call, σ.calls thread = some call → call.txn = txn → σ.CallOk txn call

section OtherTransactions

/-- The calls of `txn` found after a step of another transaction were there
before. -/
theorem Effect.call_before {thread : Nat} {call : Call}
    (h : Effect noWait σ action event σ') (hne : event.txn ≠ txn)
    (hcall : σ'.calls thread = some call) (htxn : call.txn = txn) :
    σ.calls thread = some call := by
  rcases h.call_txn with hsame | ⟨actor, next, hcalls, _, hnext⟩
  · rw [← hsame]
    exact hcall
  · rw [hcalls] at hcall
    by_cases hactor : thread = actor
    · subst hactor
      rw [Function.update_self] at hcall
      exact absurd ((hnext call hcall).symm.trans htxn) hne
    · rwa [Function.update_of_ne hactor] at hcall

theorem Effect.callOk_of_ne {thread : Nat} {call : Call} (hown : WaitersOwn σ)
    (h : Effect noWait σ action event σ') (hne : event.txn ≠ txn)
    (hcall : σ.calls thread = some call) (htxn : call.txn = txn)
    (hok : σ.CallOk txn call) : σ'.CallOk txn call := by
  have hnot {item : LockDataId} (hnone : ∀ p, ¬ (σ.lockMap item).Holds txn p) (p : Nat) :
      ¬ (σ'.lockMap item).Holds txn p := by
    intro hholds
    exact hnone p (Holds.before (h.moves hown item) hne hholds).1
  cases call with
  | lock owner mode item pc =>
      obtain ⟨hname, hitem, hmode⟩ := hok
      refine ⟨hname, hitem, ?_⟩
      rintro path p rfl
      obtain ⟨hlt, howner⟩ := hown thread owner mode item path p hcall
      have hother : ((σ.lockMap item).requests p).txnId ≠ event.txn := by
        rw [howner]
        exact fun heq => hne (heq.symm.trans htxn)
      rw [moves_others (h.moves hown item) hlt hother]
      exact hmode path p rfl
  | unlock owner item pc => exact fun hpc => hnot (hok hpc)
  | release owner loops ahead current =>
      obtain ⟨hahead, hleft, herase⟩ := hok
      refine ⟨hahead, ?_, fun item hcurrent => hnot (herase item hcurrent)⟩
      rw [h.txns_of_ne (Ne.symm hne)]
      exact hleft

theorem Effect.books_of_ne (hown : WaitersOwn σ) (h : Effect noWait σ action event σ')
    (hne : event.txn ≠ txn) (hbooks : σ.Books txn) : σ'.Books txn where
  recorded := by
    intro item p hholds
    obtain ⟨hbefore, hsame⟩ := Holds.before (h.moves hown item) hne hholds
    rw [hsame, h.txns_of_ne (Ne.symm hne)]
    exact hbooks.recorded item p hbefore
  typed := by
    unfold SetsTyped
    rw [h.txns_of_ne (Ne.symm hne)]
    exact hbooks.typed
  calls := by
    intro thread call hcall htxn
    have hbefore := h.call_before hne hcall htxn
    exact h.callOk_of_ne hown hne hbefore htxn (hbooks.calls thread call hbefore htxn)

end OtherTransactions

section OwnSteps

/-- A call that stands before its wait has granted nothing yet. -/
theorem Prepare.holds_before {mode : LockMode} {q q' : LockRequestQueue} {pc : LockPc}
    {path : WaitPath} {p r : Nat} (h : Prepare txn mode q pc path p q')
    (hholds : q'.Holds txn r) : q.Holds txn r ∧ q'.requests r = q.requests r := by
  cases h with
  | new hnew =>
      obtain ⟨hmem, howner, hgranted⟩ := hholds
      have hfresh : r ≠ q.fresh := by
        rintro rfl
        simp at hgranted
      simp only [emplaceBack_requestQueue, List.mem_append, List.mem_singleton, hfresh,
        or_false] at hmem
      rw [emplaceBack_requests, Function.update_of_ne hfresh] at howner hgranted
      exact ⟨⟨hmem, howner, hgranted⟩, by simp [Function.update_of_ne hfresh]⟩
  | same _ hmem htxn hmode hwait => exact ⟨hholds, rfl⟩
  | upgrade _ hmem htxn hmode hfree hlegal =>
      obtain ⟨hmem, howner, hgranted⟩ := hholds
      have hne : r ≠ p := by
        rintro rfl
        simp at hgranted
      rw [startUpgrade_requests, Function.update_of_ne hne] at howner hgranted
      exact ⟨⟨hmem, howner, hgranted⟩, by simp [Function.update_of_ne hne]⟩
  | recheck => exact ⟨hholds, rfl⟩

/-- The request that a lock call waits for asks for the mode of the call. -/
theorem Prepare.mode {mode : LockMode} {item : LockDataId} {pc : LockPc} {path : WaitPath}
    {p : Nat} {q : LockRequestQueue} (h : Prepare txn mode (σ.lockMap item) pc path p q)
    (hok : σ.CallOk txn (.lock txn mode item pc)) : (q.requests p).lockMode = mode := by
  cases h with
  | new hnew => simp
  | same _ hmem htxn hmode hwait => exact hmode
  | upgrade _ hmem htxn hmode hfree hlegal => simp
  | recheck => exact hok.2.2 path p rfl

theorem granting_holds_before {q : LockRequestQueue} {path : WaitPath} {p r : Nat}
    (hholds : (granting q path p).Holds txn r) (hne : r ≠ p) :
    q.Holds txn r ∧ (granting q path p).requests r = q.requests r := by
  have hrequest : (granting q path p).requests r = q.requests r := by
    rw [granting_requests, Function.update_of_ne hne]
  obtain ⟨hmem, howner, hgranted⟩ := hholds
  rw [granting_requestQueue] at hmem
  rw [hrequest] at howner hgranted
  exact ⟨⟨hmem, howner, hgranted⟩, hrequest⟩

/-- Recording is kept when one queue is replaced and the lock sets only grow,
as long as the new queue's granted requests are recorded. -/
theorem RecordedAs.setQueue {Fits : LockDataId → LockMode → LockSetName → Prop}
    {item : LockDataId} {q : LockRequestQueue} (h : σ.RecordedAs Fits txn)
    (hmap : σ'.lockMap = Function.update σ.lockMap item q)
    (hsets : ∀ name l, l ∈ (σ.txns txn).lockSet name → l ∈ (σ'.txns txn).lockSet name)
    (hq : ∀ p, q.Holds txn p → ((σ.lockMap item).Holds txn p ∧
        q.requests p = (σ.lockMap item).requests p) ∨
      ∃ name, Fits item (q.requests p).lockMode name ∧ item ∈ (σ'.txns txn).lockSet name) :
    σ'.RecordedAs Fits txn := by
  intro item' p hholds
  rw [hmap] at hholds ⊢
  by_cases heq : item' = item
  · subst heq
    rw [Function.update_self] at hholds ⊢
    rcases hq p hholds with ⟨hbefore, hsame⟩ | hnew
    · obtain ⟨name, hname, hmem⟩ := h item' p hbefore
      rw [hsame]
      exact ⟨name, hname, hsets name item' hmem⟩
    · exact hnew
  · rw [Function.update_of_ne heq] at hholds ⊢
    obtain ⟨name, hname, hmem⟩ := h item' p hholds
    exact ⟨name, hname, hsets name item' hmem⟩

/-- A lock that is recorded keeps the sets typed. -/
theorem SetsTyped.addLockSet (mode : LockMode) {item : LockDataId} (h : σ.SetsTyped txn)
    (hitem : item.canonical = item)
    (hsets : (σ'.txns txn).lockSet = ((σ.txns txn).addLockSet mode item).lockSet) :
    σ'.SetsTyped txn := by
  intro name l hl
  rw [hsets, Transaction.mem_addLockSet_iff] at hl
  rcases hl with hold | ⟨rfl, hname⟩
  · exact h name l hold
  · exact ⟨(lockSetName_type hname).symm, hitem⟩

@[simp] theorem stateWrite_lockSet (t : Transaction) (write : StateWrite) :
    (stateWrite t write).lockSet = t.lockSet := by
  cases write with
  | prepareCommit =>
      simp only [stateWrite]
      split <;> rfl
  | commitSingle => rfl
  | abort => rfl

/-- Recording is kept by the steps of the transaction itself, if a lock that is
granted gets into a fitting set and an item leaves the sets without a granted
request. -/
theorem Effect.recordedAs (Fits : LockDataId → LockMode → LockSetName → Prop)
    (hrecorded : σ.RecordedAs Fits event.txn) (hunique : ∀ item, (σ.lockMap item).OnePerTxn)
    (hfits : ∀ thread mode item pc path p q,
      σ.calls thread = some (.lock event.txn mode item pc) →
      Prepare event.txn mode (σ.lockMap item) pc path p q →
      ∃ name, lockSetName item.type mode = some name ∧ Fits item (q.requests p).lockMode name)
    (hgone : ∀ thread item call call' erased, σ.calls thread = some call →
      Erasing event.txn item call call' erased → ∀ p, ¬ (σ.lockMap item).Holds event.txn p)
    (h : Effect noWait σ action event σ') : σ'.RecordedAs Fits event.txn := by
  have hsame (hmap : σ'.lockMap = σ.lockMap)
      (hsets : (σ'.txns event.txn).lockSet = (σ.txns event.txn).lockSet) :
      σ'.RecordedAs Fits event.txn := by
    intro item p
    rw [hmap, hsets]
    exact hrecorded item p
  cases h with
  | parked thread txn mode item pc path p q hcall hprepare =>
      apply hrecorded.setQueue rfl (by simp)
      exact fun r hr => .inl (hprepare.holds_before hr)
  | refused thread txn mode item pc path p q hcall hprepare =>
      apply hrecorded.setQueue rfl (by simp [Event.txn])
      exact fun r hr => .inl (hprepare.holds_before hr)
  | held thread txn mode item p hcall =>
      intro item' r hr
      obtain ⟨name, hname, hmem⟩ := hrecorded item' r hr
      refine ⟨name, hname, ?_⟩
      simpa [Event.txn] using Transaction.mem_addLockSet hmem
  | acquired thread txn mode item pc path p q hcall hprepare =>
      apply hrecorded.setQueue rfl
      · intro name l hl
        simpa [Event.txn] using Transaction.mem_addLockSet hl
      · intro r hr
        by_cases hrp : r = p
        · obtain ⟨name, hname, hfit⟩ := hfits thread mode item pc path p q hcall hprepare
          refine .inr ⟨name, ?_, ?_⟩
          · rw [hrp, granting_mode]
            exact hfit
          · simpa [Event.txn] using Transaction.mem_addLockSet_self hname
        · obtain ⟨hq, hrequest⟩ := granting_holds_before hr hrp
          obtain ⟨hbefore, hrequest'⟩ := hprepare.holds_before hq
          exact .inl ⟨hbefore, hrequest.trans hrequest'⟩
  | unlockHit thread txn item call call' p txn' hcall hunlocking hfind htxn' =>
      apply hrecorded.setQueue rfl
      · subst htxn'
        intro name l hl
        simp only [setCall_txns, setTxn_txns, Event.txn, Function.update_self]
        split <;> exact hl
      · intro r hr
        exact absurd hr ((hunique item).erase_not_holds (findGranted_some hfind))
  | erased thread txn item call call' event hcall herasing =>
      -- the item has no granted request left, the other items keep their records
      have htxn : event.txn = txn := herasing.txn_eq.2.1
      subst htxn
      intro item' r hr
      obtain ⟨name, hname, hmem⟩ := hrecorded item' r hr
      refine ⟨name, hname, ?_⟩
      simp only [setCall_txns, setTxn_txns, Function.update_self]
      rw [Transaction.mem_eraseLockSets_iff]
      refine ⟨hmem, ?_⟩
      rintro _ rfl
      exact hgone thread item' call call' event hcall herasing r hr
  | _ => exact hsame rfl (by simp [Event.txn])

theorem Effect.recorded (hbooks : σ.Books event.txn)
    (hunique : ∀ item, (σ.lockMap item).OnePerTxn)
    (h : Effect noWait σ action event σ') : σ'.Recorded event.txn := by
  apply h.recordedAs (fun item mode name => lockSetName item.type mode = some name)
    hbooks.recorded hunique
  · intro thread mode item pc path p q hcall hprepare
    have hok := hbooks.calls thread _ hcall rfl
    obtain ⟨name, hname⟩ := hok.1
    refine ⟨name, hname, ?_⟩
    rw [hprepare.mode hok]
    exact hname
  · intro thread item call call' erased hcall herasing
    have hok := hbooks.calls thread call hcall herasing.txn_eq.1
    cases herasing with
    | call => exact hok rfl
    | loop loops ahead => exact hok.2.2 item rfl

theorem Effect.typed (htyped : σ.SetsTyped event.txn)
    (hlocks : ∀ thread mode item pc, σ.calls thread = some (.lock event.txn mode item pc) →
      item.canonical = item) (h : Effect noWait σ action event σ') :
    σ'.SetsTyped event.txn := by
  have hless (hsets : ∀ name, (σ'.txns event.txn).lockSet name ⊆
      (σ.txns event.txn).lockSet name) : σ'.SetsTyped event.txn :=
    fun name item hitem => htyped name item (hsets name hitem)
  cases h with
  | held thread txn mode item p hcall =>
      exact htyped.addLockSet mode (hlocks thread mode item _ hcall) (by simp [Event.txn])
  | acquired thread txn mode item pc path p q hcall =>
      exact htyped.addLockSet mode (hlocks thread mode item pc hcall) (by simp [Event.txn])
  | unlockHit thread txn item call call' p txn' hcall hunlocking hfind htxn' =>
      apply hless
      subst htxn'
      intro name
      simp only [setCall_txns, setTxn_txns, Event.txn, Function.update_self]
      split <;> exact fun l hl => hl
  | erased thread txn item call call' event hcall herasing =>
      have htxn : event.txn = txn := herasing.txn_eq.2.1
      apply hless
      intro name l hl
      simp only [setCall_txns, setTxn_txns, htxn, Function.update_self] at hl ⊢
      exact (Transaction.mem_eraseLockSets_iff.mp hl).1
  | _ => exact hless (by simp [Event.txn])

/-- A call keeps what it relies on when neither the queues nor the lock sets
change. -/
theorem CallOk.of_eq {call : Call} (h : σ.CallOk txn call)
    (hmap : σ'.lockMap = σ.lockMap)
    (hsets : (σ'.txns txn).lockSet = (σ.txns txn).lockSet) : σ'.CallOk txn call := by
  cases call <;> simpa only [CallOk, hmap, hsets] using h

/-- The latch section of an unlock call ends with no granted request left. -/
theorem Unlocking.callOk {item : LockDataId} {call call' : Call}
    (h : Unlocking txn item call call') (hok : σ.CallOk txn call)
    (hsets : (σ'.txns txn).lockSet = (σ.txns txn).lockSet)
    (hnone : ∀ p, ¬ (σ'.lockMap item).Holds txn p) : σ'.CallOk txn call' := by
  cases h with
  | call => exact fun _ => hnone
  | loop loops ahead =>
      obtain ⟨hahead, hleft, -⟩ := hok
      refine ⟨hahead, ?_, ?_⟩
      · intro name hname l hl
        rw [hsets] at hl
        rcases hleft name hname l hl with hl | ⟨pc, hpc⟩
        · exact .inl hl
        · cases hpc
          exact .inr ⟨_, rfl⟩
      · rintro item' ⟨⟩
        exact hnone

theorem Erasing.callOk {item : LockDataId} {call : Call} {call' : Option Call}
    (h : Erasing txn item call call' event) (htyped : σ.SetsTyped txn)
    (hok : σ.CallOk txn call)
    (hsets : (σ'.txns txn).lockSet = ((σ.txns txn).eraseLockSets item).lockSet)
    {next : Call} (hnext : call' = some next) : σ'.CallOk txn next := by
  cases h with
  | call => cases hnext
  | loop loops ahead =>
      cases hnext
      obtain ⟨hahead, hleft, -⟩ := hok
      refine ⟨hahead, ?_, by simp⟩
      intro name hname l hl
      rw [hsets, Transaction.mem_eraseLockSets_iff] at hl
      obtain ⟨hold, hkept⟩ := hl
      rcases hleft name hname l hold with hl | ⟨pc, hpc⟩
      · exact .inl hl
      · cases hpc
        exact absurd rfl (hkept (htyped name item hold).1.symm)

/-- The iterator of a new loop is ahead of the whole set, and the sets whose
loops are over are empty. -/
theorem CallOk.walk {name : LockSetName} {loops : List LockSetName}
    {order : List LockDataId} (htyped : σ.SetsTyped txn)
    (hok : σ.CallOk txn (.release txn (name :: loops) [] none))
    (horder : order.toFinset = (σ.txns txn).lockSet name) :
    σ.CallOk txn (.release txn loops order none) := by
  have hmem (l : LockDataId) : l ∈ order ↔ l ∈ (σ.txns txn).lockSet name := by
    rw [← horder, List.mem_toFinset]
  refine ⟨?_, ?_, by simp⟩
  · intro l hl
    exact (htyped name l ((hmem l).mp hl)).2
  · intro name' hname' l hl
    by_cases heq : name' = name
    · subst heq
      exact .inl ((hmem l).mpr hl)
    · have hover : name' ∉ name :: loops := by simp [heq, hname']
      rcases hok.2.1 name' hover l hl with hnil | ⟨pc, hpc⟩
      · cases hnil
      · cases hpc

theorem CallOk.visit {loops : List LockSetName} {item : LockDataId}
    {ahead : List LockDataId}
    (hok : σ.CallOk txn (.release txn loops (item :: ahead) none)) :
    σ.CallOk txn (.release txn loops ahead (some (item.canonical, .latch))) := by
  obtain ⟨hahead, hleft, -⟩ := hok
  have hitem : item.canonical = item := hahead item (by simp)
  refine ⟨fun l hl => hahead l (by simp [hl]), ?_, by simp⟩
  intro name hname l hl
  rcases hleft name hname l hl with hl | ⟨pc, hpc⟩
  · rcases List.mem_cons.mp hl with rfl | hl
    · exact .inr ⟨_, by rw [hitem]⟩
    · exact .inl hl
  · cases hpc

/-- Erasing the granted request leaves the lock sets alone and no other request granted. -/
theorem unlockHit_leaves {thread : Nat} {item : LockDataId} {p : Nat} {txn' : Transaction}
    {call : Option Call} (hunique : (σ.lockMap item).OnePerTxn)
    (hfind : (σ.lockMap item).findGranted txn = some p)
    (htxn' : txn' = if (σ.txns txn).state = .growing then
      (σ.txns txn).setTransactionState .shrinking else σ.txns txn) :
    ((((σ.setQueue item ((σ.lockMap item).erase p)).setTxn txn txn').setCall thread call).txns
        txn).lockSet = (σ.txns txn).lockSet ∧
      ∀ r, ¬ ((((σ.setQueue item ((σ.lockMap item).erase p)).setTxn txn txn').setCall thread
        call).lockMap item).Holds txn r := by
  constructor
  · subst htxn'
    simp only [setCall_txns, setTxn_txns, Function.update_self]
    split <;> rfl
  · intro r hr
    simp only [setCall_lockMap, setTxn_lockMap, setQueue_lockMap, Function.update_self] at hr
    exact hunique.erase_not_holds (findGranted_some hfind) hr

/-- All lock sets are still to be walked through. -/
theorem callOk_release (σ : LockManager) (txn : TxnId) :
    σ.CallOk txn (.release txn releaseOrder [] none) := by
  refine ⟨by simp, ?_, by simp⟩
  intro name hname
  exact absurd (by cases name <;> decide) hname

/-- After a step of its own transaction, the call of the acting thread relies
only on what holds. -/
theorem Effect.callOk (hbooks : σ.Books event.txn)
    (hunique : ∀ item, (σ.lockMap item).OnePerTxn)
    (h : Effect noWait σ action event σ') :
    (σ'.calls = σ.calls ∧ ∀ call, σ.CallOk event.txn call → σ'.CallOk event.txn call) ∨
      ∃ actor next, σ'.calls = Function.update σ.calls actor next ∧
        ((∃ op, action = .invoke actor event.txn op) ∨
          ∃ call, σ.calls actor = some call ∧ call.txn = event.txn) ∧
        ∀ call, next = some call → σ'.CallOk event.txn call := by
  cases h with
  | begun thread txn op mode item name hidle hstate hname hitem =>
      refine .inr ⟨thread, _, rfl, .inl ⟨op, rfl⟩, ?_⟩
      rintro call ⟨⟩
      exact ⟨⟨name, hname⟩, hitem, by simp⟩
  | rejected thread txn op mode item reason hidle =>
      exact .inr ⟨thread, _, rfl, .inl ⟨op, rfl⟩, by simp⟩
  | parked thread txn mode item pc path p q hcall hprepare =>
      have hok := hbooks.calls thread _ hcall rfl
      refine .inr ⟨thread, _, rfl, .inr ⟨_, hcall, rfl⟩, ?_⟩
      rintro call ⟨⟩
      refine ⟨hok.1, hok.2.1, ?_⟩
      rintro path' p' ⟨⟩
      simpa using hprepare.mode hok
  | unlockBegun thread txn op item hidle hitem =>
      refine .inr ⟨thread, _, rfl, .inl ⟨op, rfl⟩, ?_⟩
      rintro call ⟨⟩ ⟨⟩
  | unlockHit thread txn item call call' p txn' hcall hunlocking hfind htxn' =>
      have htxn : call.txn = txn := hunlocking.txn_eq.1
      refine .inr ⟨thread, _, rfl, .inr ⟨_, hcall, htxn⟩, ?_⟩
      rintro next ⟨⟩
      obtain ⟨hsets, hnone⟩ := unlockHit_leaves (hunique item) hfind htxn'
      exact hunlocking.callOk (hbooks.calls thread call hcall htxn) hsets hnone
  | unlockMiss thread txn item call call' hcall hunlocking hfind =>
      have htxn : call.txn = txn := hunlocking.txn_eq.1
      refine .inr ⟨thread, _, rfl, .inr ⟨_, hcall, htxn⟩, ?_⟩
      rintro next ⟨⟩
      apply hunlocking.callOk (hbooks.calls thread call hcall htxn)
      · simp
      · exact findGranted_none hfind
  | erased thread txn item call call' event hcall herasing =>
      obtain ⟨hcaller, htxn, _⟩ := herasing.txn_eq
      rw [htxn] at hbooks ⊢
      refine .inr ⟨thread, _, rfl, .inr ⟨_, hcall, hcaller⟩, ?_⟩
      intro next hnext
      exact herasing.callOk hbooks.typed (hbooks.calls thread call hcall hcaller)
        (by simp) hnext
  | releaseBegun thread txn op hidle =>
      refine .inr ⟨thread, _, rfl, .inl ⟨op, rfl⟩, ?_⟩
      rintro call ⟨⟩
      exact callOk_release _ txn
  | releaseWalked thread txn name loops order hcall horder =>
      refine .inr ⟨thread, _, rfl, .inr ⟨_, hcall, rfl⟩, ?_⟩
      rintro call ⟨⟩
      exact ((hbooks.calls thread _ hcall rfl).walk hbooks.typed horder).of_eq rfl rfl
  | releaseVisited thread txn loops item ahead hcall =>
      refine .inr ⟨thread, _, rfl, .inr ⟨_, hcall, rfl⟩, ?_⟩
      rintro call ⟨⟩
      exact (hbooks.calls thread _ hcall rfl).visit.of_eq rfl rfl
  | managerWrote txn write =>
      exact .inl ⟨rfl, fun call hok => hok.of_eq rfl (by simp [Event.txn])⟩
  | _ => exact .inr ⟨_, _, rfl, .inr ⟨_, by assumption, rfl⟩, by simp⟩

end OwnSteps

section Runs

variable {trace : List (Action × Event)}

theorem SequentialStep.books {label : Action × Event} (hinv : σ.SequentialInv txn)
    (hunique : ∀ item, (σ.lockMap item).OnePerTxn) (hbooks : σ.Books txn)
    (h : SequentialStep noWait txn σ label σ') : σ'.Books txn := by
  have heffect := h.effect
  rcases ne_or_eq label.2.txn txn with hne | rfl
  · exact heffect.books_of_ne hinv.own hne hbooks
  refine ⟨heffect.recorded hbooks hunique, heffect.typed hbooks.typed ?_, ?_⟩
  · intro thread mode item pc hcall
    exact (hbooks.calls thread _ hcall rfl).2.1
  intro thread call hcall htxn
  rcases heffect.callOk hbooks hunique with ⟨hsame, hkeep⟩ | ⟨actor, next, hcalls, horigin, hok⟩
  · rw [hsame] at hcall
    exact hkeep call (hbooks.calls thread call hcall htxn)
  · rw [hcalls] at hcall
    by_cases hactor : thread = actor
    · subst hactor
      rw [Function.update_self] at hcall
      exact hok call hcall
    -- a second call of the transaction would contradict its sequential calls
    · rw [Function.update_of_ne hactor] at hcall
      rcases horigin with ⟨op, hinvoke⟩ | ⟨old, hold, hold'⟩
      · exact absurd ⟨thread, call, hcall, htxn⟩ (h.1 actor op hinvoke)
      · exact absurd (hinv.oneCall thread actor call old hcall hold htxn hold') hactor

theorem books_init : init.Books txn where
  recorded := by
    rintro item p ⟨hp, _⟩
    simp [init, LockRequestQueue.empty] at hp
  typed := by
    intro name item hitem
    simp [init, Transaction.new] at hitem
  calls := by
    intro thread call hcall
    simp [init] at hcall

theorem sequentialRun_books (h : Lts.Run (SequentialStep noWait txn) init trace σ) :
    σ.Books txn := by
  have hall : σ.SequentialInv txn ∧ (∀ item, (σ.lockMap item).OnePerTxn) ∧ σ.Books txn := by
    refine Lts.Run.preserves (fun σ => σ.SequentialInv txn ∧
      (∀ item, (σ.lockMap item).OnePerTxn) ∧ σ.Books txn) ?_ h
      ⟨sequentialInv_init, fun _ => onePerTxn_empty, books_init⟩
    rintro s label t hstep ⟨hinv, hunique, hbooks⟩
    refine ⟨hstep.inv hinv, ?_, hstep.books hinv hunique hbooks⟩
    intro item
    exact moves_preserve (fun _ _ _ hmove => hmove.onePerTxn)
      (hstep.effect.moves hinv.own item) (hunique item)
  exact hall.2.2

end Runs

section Termination

/-- An upper bound for the steps that a release call has still to take. -/
def releaseWork (t : Transaction) (loops : List LockSetName) (ahead : List LockDataId)
    (current : Option (LockDataId × UnlockPc)) : Nat :=
  (loops.map fun name => 3 * (t.lockSet name).card + 1).sum + 3 * ahead.length +
    match current with
    | none => 0
    | some (_, .latch) => 2
    | some (_, .eraseSets) => 1

theorem releaseWork_eraseLockSets (t : Transaction) (item : LockDataId)
    (loops : List LockSetName) (ahead : List LockDataId) :
    releaseWork (t.eraseLockSets item) loops ahead none ≤ releaseWork t loops ahead none := by
  have hcard (name : LockSetName) :
      ((t.eraseLockSets item).lockSet name).card ≤ (t.lockSet name).card := by
    apply Finset.card_le_card
    intro l hl
    exact (Transaction.mem_eraseLockSets_iff.mp hl).1
  have hsum : (loops.map fun name => 3 * ((t.eraseLockSets item).lockSet name).card + 1).sum ≤
      (loops.map fun name => 3 * (t.lockSet name).card + 1).sum := by
    apply List.sum_le_sum
    intro name _
    have := hcard name
    omega
  simp only [releaseWork]
  omega

/-- A release call that has not reached its end can go on, and with each step
there is less left to do. -/
theorem release_advances (noWait : Bool) {thread : Nat} {loops : List LockSetName}
    {ahead : List LockDataId} {current : Option (LockDataId × UnlockPc)}
    (hcall : σ.calls thread = some (.release txn loops ahead current))
    (hmore : (loops, ahead, current) ≠ ([], [], none)) :
    ∃ action event σ' loops' ahead' current',
      (∀ actor op, action ≠ .invoke actor txn op) ∧
      step noWait σ action = some (σ', event) ∧
      σ'.calls thread = some (.release txn loops' ahead' current') ∧
      releaseWork (σ'.txns txn) loops' ahead' current' <
        releaseWork (σ.txns txn) loops ahead current := by
  rcases current with _ | ⟨item, _ | _⟩
  · cases ahead with
    | cons item ahead =>
        have hstep : step noWait σ (.resume thread) = some (σ.setCall thread
            (some (.release txn loops ahead (some (item.canonical, .latch)))),
            .unlockCalled txn item.canonical) := by
          simp only [step, hcall, Option.bind_some, resume]
        refine ⟨_, _, _, loops, ahead, some (item.canonical, .latch), by simp, hstep,
          by simp, ?_⟩
        simp only [releaseWork, setCall_txns, List.length_cons]
        omega
    | nil =>
        cases loops with
        | nil => exact absurd rfl hmore
        | cons name loops =>
            have horder : ((σ.txns txn).lockSet name).toList.Nodup ∧
                ((σ.txns txn).lockSet name).toList.toFinset = (σ.txns txn).lockSet name :=
              ⟨Finset.nodup_toList _, Finset.toList_toFinset _⟩
            have hstep : step noWait σ (.walk thread ((σ.txns txn).lockSet name).toList) =
                some (σ.setCall thread (some (.release txn loops
                  ((σ.txns txn).lockSet name).toList none)), .progress txn) := by
              simp only [step, hcall, Option.bind_some, walk, if_pos horder]
            refine ⟨_, _, _, loops, ((σ.txns txn).lockSet name).toList, none, by simp, hstep,
              by simp, ?_⟩
            simp only [releaseWork, setCall_txns, List.map_cons, List.sum_cons,
              List.length_nil, Finset.length_toList]
            omega
  · have hstep : step noWait σ (.resume thread) = some ((σ.unlockSection txn item).1.setCall
        thread (some (.release txn loops ahead (some (item, .eraseSets)))),
        (σ.unlockSection txn item).2) := by
      simp only [step, hcall, Option.bind_some, resume]
    have hsets : ((σ.unlockSection txn item).1.txns txn).lockSet = (σ.txns txn).lockSet := by
      simp only [unlockSection]
      split <;> simp only [setTxn_txns, Function.update_self,
        Transaction.setTransactionState_lockSet] <;> split <;> rfl
    refine ⟨_, _, _, loops, ahead, some (item, .eraseSets), by simp, hstep, by simp, ?_⟩
    simp only [releaseWork, setCall_txns, hsets]
    omega
  · have hstep : step noWait σ (.resume thread) = some ((σ.setTxn txn
        ((σ.txns txn).eraseLockSets item)).setCall thread
        (some (.release txn loops ahead none)), .progress txn) := by
      simp only [step, hcall, Option.bind_some, resume]
    have hless := releaseWork_eraseLockSets (σ.txns txn) item loops ahead
    refine ⟨_, _, _, loops, ahead, none, by simp, hstep, by simp, ?_⟩
    simp only [releaseWork, setCall_txns, setTxn_txns, Function.update_self] at hless ⊢
    omega

/-- From any state, a release call in progress can be run to its return by its
own steps alone. -/
theorem release_returns (noWait : Bool) {thread : Nat} {loops : List LockSetName}
    {ahead : List LockDataId} {current : Option (LockDataId × UnlockPc)}
    (hcall : σ.calls thread = some (.release txn loops ahead current)) :
    ∃ trace action σ₁ σ₂, Lts.Run (SequentialStep noWait txn) σ trace σ₁ ∧
      SequentialStep noWait txn σ₁ (action, .releaseReturned txn) σ₂ := by
  induction hwork : releaseWork (σ.txns txn) loops ahead current using Nat.strong_induction_on
    generalizing σ loops ahead current with
  | h work ih =>
      by_cases hend : (loops, ahead, current) = ([], [], none)
      · cases hend
        refine ⟨[], .resume thread, σ, σ.setCall thread none, .nil σ, by simp, ?_⟩
        simp [Lts.Steps, step, hcall, resume]
      · obtain ⟨action, event, σ', loops', ahead', current', hown, hstep, hcall', hless⟩ :=
          release_advances noWait hcall hend
        rw [hwork] at hless
        obtain ⟨trace, last, σ₁, σ₂, hrun, hlast⟩ := ih _ hless hcall' rfl
        refine ⟨(action, event) :: trace, last, σ₁, σ₂, .cons ⟨?_, hstep⟩ hrun, hlast⟩
        intro actor op heq
        exact absurd heq (hown actor op)

end Termination

/-- When a release returns, all its loops are over and have left nothing. -/
theorem Books.returned (hbooks : σ.Books txn)
    (h : SequentialStep noWait txn σ (action, .releaseReturned txn) σ') :
    σ'.lockMap = σ.lockMap ∧ (∀ item p, ¬ (σ'.lockMap item).Holds txn p) ∧
      ∀ name, (σ'.txns txn).lockSet name = ∅ := by
  cases h.effect with
  | erased _ _ _ _ _ _ _ herasing => cases herasing
  | releaseReturned thread _ hcall =>
      have hleft := (hbooks.calls thread _ hcall rfl).2.1
      have hempty (name : LockSetName) : (σ.txns txn).lockSet name = ∅ := by
        apply Finset.eq_empty_of_forall_notMem
        intro item hitem
        rcases hleft name (by simp) item hitem with hnil | ⟨pc, hpc⟩
        · cases hnil
        · cases hpc
      refine ⟨rfl, ?_, hempty⟩
      intro item p hholds
      obtain ⟨name, _, hmem⟩ := hbooks.recorded item p hholds
      rw [hempty name] at hmem
      simp at hmem

/-- Transaction 1 takes IS on table 0, upgrades it to IX and releases its locks.
Both sets hold the item; the second loop that meets it is already empty. -/
def upgradeRelease : List Action :=
  [.invoke 0 1 (.lockTable .intentionShared 0), .resume 0,
    .invoke 0 1 (.lockTable .intentionExclusive 0), .resume 0,
    .invoke 0 1 .releaseLocks,
    .walk 0 [], .walk 0 [], .walk 0 [], .walk 0 [], .walk 0 [], .walk 0 [], .walk 0 [],
    .walk 0 [], .walk 0 [.ofTable 0], .resume 0, .resume 0, .resume 0,
    .walk 0 [], .walk 0 [], .walk 0 [], .resume 0]

end LockManager

end RucDDBS
