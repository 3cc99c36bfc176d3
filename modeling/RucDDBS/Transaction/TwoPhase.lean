import RucDDBS.Transaction.LockCompatibility

/-!
The two-phase rule. The state of a transaction never returns to `DEFAULT`, and
it is set to `GROWING` only from `DEFAULT` or `GROWING`. A transaction that has
a request anywhere is past `DEFAULT`, so the first unlock call that removes a
granted request leaves it outside the growing phase for good. From then on each
of its lock calls is refused before it reaches a latch.
-/

namespace RucDDBS

namespace LockRequestQueue

open Relation

variable {txn txn' : TxnId} {q q' : LockRequestQueue} {p : Nat}

/-- A listed request of another transaction was listed, as it is, before the
move. -/
theorem Move.others_before (h : Move txn q q') (hp : p ∈ q'.requestQueue)
    (hother : (q'.requests p).txnId ≠ txn) :
    p ∈ q.requestQueue ∧ q'.requests p = q.requests p := by
  have hlisted : p ∈ q.requestQueue := by
    cases h with
    | lock h =>
        cases h with
        | emplaceBack mode hnew =>
            simp only [emplaceBack_requestQueue, List.mem_append, List.mem_singleton] at hp
            rcases hp with hold | rfl
            · exact hold
            · simp at hother
        | startUpgrade r mode hmem htxn hmode => exact hp
        | grant r halloc htxn hcompat => exact hp
        | endUpgrade => exact hp
    | erase r hholds => exact List.mem_of_mem_erase hp
  have hlt := q.allocated p hlisted
  have howner : (q.requests p).txnId ≠ txn := by
    rw [← (h.owner hlt).2]
    exact hother
  exact ⟨hlisted, (h.others hlt howner).1⟩

theorem moves_others_before (h : ReflTransGen (Move txn) q q')
    (hp : p ∈ q'.requestQueue) (hother : (q'.requests p).txnId ≠ txn) :
    p ∈ q.requestQueue ∧ q'.requests p = q.requests p := by
  induction h with
  | refl => exact ⟨hp, rfl⟩
  | tail _ hmove ih =>
      obtain ⟨hmid, hsame⟩ := hmove.others_before hp hother
      rw [hsame] at hother
      obtain ⟨hfirst, hsame'⟩ := ih hmid hother
      exact ⟨hfirst, hsame.trans hsame'⟩

/-- The moves of one transaction keep the listed requests of the others. -/
theorem moves_others_after (h : ReflTransGen (Move txn) q q') (hp : p ∈ q.requestQueue)
    (hother : (q.requests p).txnId ≠ txn) :
    p ∈ q'.requestQueue ∧ q'.requests p = q.requests p := by
  induction h with
  | refl => exact ⟨hp, rfl⟩
  | tail _ hmove ih =>
      obtain ⟨hmid, hsame⟩ := ih
      rw [← hsame] at hother
      obtain ⟨hsame', hlisted⟩ := hmove.others (LockRequestQueue.allocated _ p hmid) hother
      exact ⟨hlisted.mpr hmid, hsame'.trans hsame⟩

/-- No move of one transaction grants a request of another. -/
theorem Holds.before (h : ReflTransGen (Move txn') q q') (hne : txn' ≠ txn)
    (hholds : q'.Holds txn p) : q.Holds txn p ∧ q'.requests p = q.requests p := by
  obtain ⟨hmem, howner, hgranted⟩ := hholds
  have hother : (q'.requests p).txnId ≠ txn' := by
    rw [howner]
    exact hne.symm
  obtain ⟨hmem', hsame⟩ := moves_others_before h hmem hother
  rw [hsame] at howner hgranted
  exact ⟨⟨hmem', howner, hgranted⟩, hsame⟩

end LockRequestQueue

namespace LockManager

open LockRequestQueue Relation

variable {noWait : Bool} {σ σ' : LockManager} {action : Action} {event : Event}
  {txn : TxnId}

def InProgress (σ : LockManager) (txn : TxnId) : Prop :=
  ∃ thread call, σ.calls thread = some call ∧ call.txn = txn

/-- A step in which `txn` begins a call only when it has none in progress. The
other transactions are unrestricted. -/
def SequentialStep (noWait : Bool) (txn : TxnId) (σ : LockManager)
    (label : Action × Event) (σ' : LockManager) : Prop :=
  (∀ thread op, label.1 = .invoke thread txn op → ¬ σ.InProgress txn) ∧
    Step noWait σ label σ'

theorem SequentialStep.effect {label : Action × Event}
    (h : SequentialStep noWait txn σ label σ') :
    Effect noWait σ label.1 label.2 σ' := step_effect h.2

def OneCall (σ : LockManager) (txn : TxnId) : Prop :=
  ∀ thread thread' call call', σ.calls thread = some call → σ.calls thread' = some call' →
    call.txn = txn → call'.txn = txn → thread = thread'

theorem Unlocking.goes_on {txn : TxnId} {item : LockDataId} {call call' : Call}
    (h : Unlocking txn item call call') {thread : Nat} (hcall : σ.calls thread = some call) :
    (∃ call, σ.calls thread = some call ∧ call.txn = txn) ∧
      ∀ next, some call' = some next → next.txn = txn := by
  obtain ⟨hbefore, hafter⟩ := h.txn_eq
  refine ⟨⟨call, hcall, hbefore⟩, ?_⟩
  intro next hnext
  rw [← Option.some.inj hnext]
  exact hafter

/-- What happens to the call of the acting thread: it is opened by an
invocation, or it goes on, or it ends, always for the same transaction. -/
theorem Effect.call_txn (h : Effect noWait σ action event σ') :
    σ'.calls = σ.calls ∨
      ∃ thread next, σ'.calls = Function.update σ.calls thread next ∧
        ((∃ op, action = .invoke thread event.txn op) ∨
          ∃ call, σ.calls thread = some call ∧ call.txn = event.txn) ∧
        ∀ call, next = some call → call.txn = event.txn := by
  cases h with
  | managerWrote txn write => exact .inl rfl
  | begun thread txn op mode item name hidle hstate hname hitem =>
      exact .inr ⟨thread, _, rfl, .inl ⟨op, rfl⟩, by simp [Call.txn, Event.txn]⟩
  | rejected thread txn op mode item reason hidle =>
      exact .inr ⟨thread, _, rfl, .inl ⟨op, rfl⟩, by simp⟩
  | unlockBegun thread txn op item hidle hitem =>
      exact .inr ⟨thread, _, rfl, .inl ⟨op, rfl⟩, by simp [Call.txn, Event.txn]⟩
  | releaseBegun thread txn op hidle =>
      exact .inr ⟨thread, _, rfl, .inl ⟨op, rfl⟩, by simp [Call.txn, Event.txn]⟩
  | unlockHit thread txn item call call' p txn' hcall hunlocking hfind htxn' =>
      obtain ⟨hbefore, hafter⟩ := hunlocking.goes_on hcall
      exact .inr ⟨thread, _, rfl, .inr hbefore, hafter⟩
  | unlockMiss thread txn item call call' hcall hunlocking hfind =>
      obtain ⟨hbefore, hafter⟩ := hunlocking.goes_on hcall
      exact .inr ⟨thread, _, rfl, .inr hbefore, hafter⟩
  | erased thread txn item call call' event hcall herasing =>
      obtain ⟨hbefore, hevent, hafter⟩ := herasing.txn_eq
      rw [hevent]
      exact .inr ⟨thread, _, rfl, .inr ⟨call, hcall, hbefore⟩, hafter⟩
  | _ => exact .inr ⟨_, _, rfl, .inr ⟨_, by assumption, rfl⟩, by simp [Call.txn, Event.txn]⟩

theorem SequentialStep.oneCall {label : Action × Event}
    (h : SequentialStep noWait txn σ label σ') (hone : σ.OneCall txn) :
    σ'.OneCall txn := by
  rcases h.effect.call_txn with hsame | ⟨actor, next, hcalls, horigin, hnext⟩
  · intro thread thread' call call' hcall hcall'
    rw [hsame] at hcall hcall'
    exact hone thread thread' call call' hcall hcall'
  -- if the actor's next call is of `txn`, no other thread has one
  have halone {other : Nat} {call call' : Call} (hne : other ≠ actor)
      (hcall : σ.calls other = some call) (htxn : call.txn = txn)
      (hlast : next = some call') (htxn' : call'.txn = txn) : False := by
    have hevent : label.2.txn = txn := (hnext call' hlast).symm.trans htxn'
    rcases horigin with ⟨op, haction⟩ | ⟨old, hold, hold'⟩
    · rw [hevent] at haction
      exact h.1 actor op haction ⟨other, call, hcall, htxn⟩
    · exact hne (hone other actor call old hcall hold htxn (hold'.trans hevent))
  intro thread thread' call call' hcall hcall' htxn htxn'
  rw [hcalls] at hcall hcall'
  by_cases hthread : thread = actor
  · by_cases hthread' : thread' = actor
    · exact hthread.trans hthread'.symm
    · subst hthread
      rw [Function.update_self] at hcall
      rw [Function.update_of_ne hthread'] at hcall'
      exact absurd (halone hthread' hcall' htxn' hcall htxn) id
  · rw [Function.update_of_ne hthread] at hcall
    by_cases hthread' : thread' = actor
    · subst hthread'
      rw [Function.update_self] at hcall'
      exact absurd (halone hthread hcall htxn hcall' htxn') id
    · rw [Function.update_of_ne hthread'] at hcall'
      exact hone thread thread' call call' hcall hcall' htxn htxn'

theorem Effect.txns_of_ne (h : Effect noWait σ action event σ') (hne : txn ≠ event.txn) :
    σ'.txns txn = σ.txns txn := by
  cases h with
  | erased thread txn' item call call' event hcall herasing =>
      rw [herasing.txn_eq.2.1] at hne
      simp [Function.update_of_ne hne]
  | _ => simp_all [Event.txn]

/-- How a step changes a transaction's state: not at all, into `GROWING` from
one of the first two states, or to a state after the growing phase. -/
theorem Effect.state (h : Effect noWait σ action event σ') (txn : TxnId) :
    (σ'.txns txn).state = (σ.txns txn).state ∨
      ((σ'.txns txn).state = .growing ∧
        ((σ.txns txn).state = .default ∨ (σ.txns txn).state = .growing)) ∨
      ((σ'.txns txn).state ≠ .default ∧ (σ'.txns txn).state ≠ .growing) := by
  rcases ne_or_eq txn event.txn with hne | rfl
  · exact .inl (congrArg Transaction.state (h.txns_of_ne hne))
  cases h with
  | begun thread txn op mode item name hidle hstate hname hitem =>
      exact .inr (.inl ⟨by simp [Event.txn], hstate⟩)
  | unlockHit thread txn item call call' p txn' hcall hunlocking hfind htxn' =>
      subst htxn'
      simp only [setCall_txns, setTxn_txns, Event.txn, Function.update_self]
      split
      · exact .inr (.inr ⟨by simp, by simp⟩)
      · exact .inl rfl
  | erased thread txn item call call' event hcall herasing =>
      exact .inl (by simp [herasing.txn_eq.2.1])
  | managerWrote txn write =>
      cases write <;> simp only [setTxn_txns, Event.txn, Function.update_self, stateWrite]
      · split
        · exact .inl rfl
        · exact .inr (.inr ⟨by simp, by simp⟩)
      · exact .inr (.inr ⟨by simp, by simp⟩)
      · exact .inr (.inr ⟨by simp, by simp⟩)
  | _ => simp [Event.txn]

/-- A transaction with a lock call in progress or a request in some queue is
past `DEFAULT`. -/
def Started (σ : LockManager) : Prop :=
  ∀ txn, ((∃ thread mode item pc, σ.calls thread = some (.lock txn mode item pc)) ∨
      ∃ item p, p ∈ (σ.lockMap item).requestQueue ∧
        ((σ.lockMap item).requests p).txnId = txn) →
    (σ.txns txn).state ≠ .default

/-- A lock call found after a step was there before, or the step was its
invocation, which has found the transaction in one of the first two states. -/
theorem Effect.lock_call {thread : Nat} {mode : LockMode} {item : LockDataId}
    {pc : LockPc} (h : Effect noWait σ action event σ')
    (hcall : σ'.calls thread = some (.lock txn mode item pc)) :
    (∃ pc', σ.calls thread = some (.lock txn mode item pc')) ∨
      (∃ actor op, action = .invoke actor txn op ∧ op.isLock = true) ∧
        ((σ.txns txn).state = .default ∨ (σ.txns txn).state = .growing) ∧
        (σ'.txns txn).state = .growing := by
  have hset {actor : Nat} {next : Option Call}
      (hcalls : σ'.calls = Function.update σ.calls actor next)
      (hnext : next = some (.lock txn mode item pc) →
        (∃ pc', σ.calls actor = some (.lock txn mode item pc')) ∨
          (∃ actor op, action = .invoke actor txn op ∧ op.isLock = true) ∧
            ((σ.txns txn).state = .default ∨ (σ.txns txn).state = .growing) ∧
            (σ'.txns txn).state = .growing) :
      (∃ pc', σ.calls thread = some (.lock txn mode item pc')) ∨
        (∃ actor op, action = .invoke actor txn op ∧ op.isLock = true) ∧
          ((σ.txns txn).state = .default ∨ (σ.txns txn).state = .growing) ∧
          (σ'.txns txn).state = .growing := by
    rcases calls_of_update hcalls hcall with ⟨rfl, hset⟩ | hold
    · exact hnext hset
    · exact .inl ⟨pc, hold⟩
  cases h with
  | managerWrote txn' write => exact .inl ⟨pc, hcall⟩
  | begun actor txn' op mode' item' name hidle hstate hname hitem hop =>
      apply hset rfl
      intro hnext
      cases hnext
      exact .inr ⟨⟨actor, op, rfl, hop⟩, hstate, by simp⟩
  | parked actor txn' mode' item' pc' path p q hactor hprepare =>
      apply hset rfl
      intro hnext
      cases hnext
      exact .inl ⟨pc', hactor⟩
  | unlockHit actor txn' item' call call' p t hactor hunlocking =>
      apply hset rfl
      intro hnext
      exact absurd (Option.some.inj hnext) hunlocking.ne_lock
  | unlockMiss actor txn' item' call call' hactor hunlocking =>
      apply hset rfl
      intro hnext
      exact absurd (Option.some.inj hnext) hunlocking.ne_lock
  | erased actor txn' item' call call' event hactor herasing =>
      apply hset rfl
      intro hnext
      exact absurd hnext herasing.ne_lock
  | _ =>
      apply hset rfl
      intro hnext
      cases hnext

/-- An erasure lists nothing new and rewrites no request. -/
theorem erase_before (σ : LockManager) {item item' : LockDataId} {p r : Nat}
    (hp : p ∈ ((σ.setQueue item' ((σ.lockMap item').erase r)).lockMap item).requestQueue) :
    p ∈ (σ.lockMap item).requestQueue ∧
      ((σ.setQueue item' ((σ.lockMap item').erase r)).lockMap item).requests =
        (σ.lockMap item).requests := by
  rw [setQueue_lockMap] at hp ⊢
  by_cases heq : item = item'
  · subst heq
    rw [Function.update_self] at hp ⊢
    exact ⟨List.mem_of_mem_erase hp, rfl⟩
  · rw [Function.update_of_ne heq] at hp ⊢
    exact ⟨hp, rfl⟩

theorem erase_holds_before (σ : LockManager) {item item' : LockDataId} {p r : Nat}
    (hholds : ((σ.setQueue item' ((σ.lockMap item').erase r)).lockMap item).Holds txn p) :
    (σ.lockMap item).Holds txn p := by
  obtain ⟨hmem, howner, hgranted⟩ := hholds
  obtain ⟨hbefore, hsame⟩ := erase_before σ hmem
  rw [hsame] at howner hgranted
  exact ⟨hbefore, howner, hgranted⟩

/-- A request found in a queue after a step was there before, or the step was a
section of a lock call of the same transaction. -/
theorem Effect.listed_before (hown : WaitersOwn σ) {item : LockDataId} {p : Nat}
    (h : Effect noWait σ action event σ') (hp : p ∈ (σ'.lockMap item).requestQueue)
    (htxn : ((σ'.lockMap item).requests p).txnId = txn) :
    (p ∈ (σ.lockMap item).requestQueue ∧ ((σ.lockMap item).requests p).txnId = txn) ∨
      ∃ thread mode item' pc, σ.calls thread = some (.lock txn mode item' pc) := by
  rcases ne_or_eq event.txn txn with hne | rfl
  · have hother : ((σ'.lockMap item).requests p).txnId ≠ event.txn := by
      rw [htxn]
      exact hne.symm
    obtain ⟨hmem, hsame⟩ := moves_others_before (h.moves hown item) hp hother
    exact .inl ⟨hmem, hsame ▸ htxn⟩
  cases h with
  | parked thread _ mode item' pc path r q hcall =>
      exact .inr ⟨thread, mode, item', pc, hcall⟩
  | refused thread _ mode item' pc path r q hcall =>
      exact .inr ⟨thread, mode, item', pc, hcall⟩
  | acquired thread _ mode item' pc path r q hcall =>
      exact .inr ⟨thread, mode, item', pc, hcall⟩
  | unlockHit thread _ item' call call' r t hcall hunlocking hfind =>
      simp only [setCall_lockMap, setTxn_lockMap] at hp htxn
      obtain ⟨hmem, hsame⟩ := erase_before σ hp
      rw [hsame] at htxn
      exact .inl ⟨hmem, htxn⟩
  | _ => exact .inl ⟨hp, htxn⟩

theorem Effect.started (hown : WaitersOwn σ) (hstarted : Started σ)
    (h : Effect noWait σ action event σ') : Started σ' := by
  have hkeep (txn : TxnId) (hs : (σ.txns txn).state ≠ .default) :
      (σ'.txns txn).state ≠ .default := by
    rcases h.state txn with hsame | ⟨hgrowing, _⟩ | ⟨hne, _⟩
    · rw [hsame]
      exact hs
    · rw [hgrowing]
      decide
    · exact hne
  rintro txn (⟨thread, mode, item, pc, hcall⟩ | ⟨item, p, hp, htxn⟩)
  · rcases h.lock_call hcall with ⟨pc', hcall'⟩ | ⟨-, -, hgrowing⟩
    · exact hkeep txn (hstarted txn (.inl ⟨thread, mode, item, pc', hcall'⟩))
    · rw [hgrowing]
      decide
  · apply hkeep txn
    apply hstarted txn
    rcases h.listed_before hown hp htxn with ⟨hp', htxn'⟩ | hcall
    · exact .inr ⟨item, p, hp', htxn'⟩
    · exact .inl hcall

/-- Outside the growing phase and with no lock call in progress. -/
def Retired (σ : LockManager) (txn : TxnId) : Prop :=
  (σ.txns txn).state ≠ .default ∧ (σ.txns txn).state ≠ .growing ∧
    ∀ thread mode item pc, σ.calls thread ≠ some (.lock txn mode item pc)

/-- Retirement is final. -/
theorem Effect.retired (h : Effect noWait σ action event σ') (hret : σ.Retired txn) :
    σ'.Retired txn := by
  obtain ⟨hdefault, hgrowing, hcalls⟩ := hret
  have hstate : (σ'.txns txn).state ≠ .default ∧ (σ'.txns txn).state ≠ .growing := by
    rcases h.state txn with hsame | ⟨_, hearly⟩ | hlate
    · rw [hsame]
      exact ⟨hdefault, hgrowing⟩
    · rcases hearly with hd | hg
      · exact absurd hd hdefault
      · exact absurd hg hgrowing
    · exact hlate
  refine ⟨hstate.1, hstate.2, ?_⟩
  intro thread mode item pc hcall
  rcases h.lock_call hcall with ⟨pc', hcall'⟩ | ⟨-, -, hgrow⟩
  · exact hcalls thread mode item pc' hcall'
  · exact hstate.2 hgrow

/-- A retired transaction gets no lock. -/
theorem Effect.retired_no_grant (hown : WaitersOwn σ) (hret : σ.Retired txn)
    (h : Effect noWait σ action event σ') :
    (∀ mode item, event ≠ .granted txn mode item) ∧
      ∀ item p, (σ'.lockMap item).Holds txn p → (σ.lockMap item).Holds txn p := by
  obtain ⟨_, _, hcalls⟩ := hret
  constructor
  · rintro mode item rfl
    cases h with
    | held thread _ _ _ p hcall => exact hcalls thread mode item _ hcall
    | acquired thread _ _ _ pc path p q hcall => exact hcalls thread mode item _ hcall
    | erased _ _ _ _ _ _ _ herasing => cases herasing
  intro item p hholds
  rcases ne_or_eq event.txn txn with hne | rfl
  · exact (Holds.before (h.moves hown item) hne hholds).1
  cases h with
  | parked thread _ mode item' pc path r q hcall =>
      exact absurd hcall (hcalls thread mode item' pc)
  | refused thread _ mode item' pc path r q hcall =>
      exact absurd hcall (hcalls thread mode item' pc)
  | acquired thread _ mode item' pc path r q hcall =>
      exact absurd hcall (hcalls thread mode item' pc)
  | unlockHit thread _ item' call call' r t hcall hunlocking hfind =>
      simp only [setCall_lockMap, setTxn_lockMap] at hholds
      exact erase_holds_before σ hholds
  | _ => exact hholds

/-- An `Unlock` section that removes a granted request retires its transaction,
when that transaction runs no other call beside it. -/
theorem Effect.unlocked_retired {item : LockDataId} {p : Nat}
    (hstarted : Started σ) (hone : σ.OneCall txn)
    (h : Effect noWait σ action (.unlocked txn item (some p)) σ') : σ'.Retired txn := by
  cases h with
  | erased _ _ _ _ _ _ _ herasing => cases herasing
  | unlockHit thread _ _ call call' _ t hcall hunlocking hfind ht =>
      obtain ⟨hmem, howner, _⟩ := findGranted_some hfind
      have hdefault := hstarted txn (.inr ⟨item, p, hmem, howner⟩)
      have hstate : t.state ≠ .default ∧ t.state ≠ .growing := by
        subst ht
        split
        · exact ⟨by simp, by simp⟩
        next hgrowing => exact ⟨hdefault, hgrowing⟩
      refine ⟨by simpa using hstate.1, by simpa using hstate.2, ?_⟩
      intro other mode item' pc hother
      have hactor := hunlocking.txn_eq.1
      by_cases heq : other = thread
      · subst heq
        simp only [setCall_calls, Function.update_self, Option.some.injEq] at hother
        exact hunlocking.ne_lock hother
      · simp only [setCall_calls, Function.update_of_ne heq, setTxn_calls,
          setQueue_calls] at hother
        exact heq (hone other thread _ call hother hcall rfl hactor)

section Runs

variable {trace : List (Action × Event)}

/-- What the sequential runs of a transaction maintain. -/
structure SequentialInv (σ : LockManager) (txn : TxnId) : Prop where
  own : WaitersOwn σ
  started : Started σ
  oneCall : σ.OneCall txn

theorem SequentialStep.inv {label : Action × Event}
    (h : SequentialStep noWait txn σ label σ') (hinv : σ.SequentialInv txn) :
    σ'.SequentialInv txn where
  own := h.effect.waitersOwn hinv.own
  started := h.effect.started hinv.own hinv.started
  oneCall := h.oneCall hinv.oneCall

theorem sequentialInv_init : init.SequentialInv txn where
  own := waitersOwn_init
  started := by
    rintro txn (⟨thread, mode, item, pc, hcall⟩ | ⟨item, p, hp, _⟩)
    · simp [init] at hcall
    · simp [init, LockRequestQueue.empty] at hp
  oneCall := by
    intro thread thread' call call' hcall
    simp [init] at hcall

theorem sequentialRun_inv (h : Lts.Run (SequentialStep noWait txn) init trace σ) :
    σ.SequentialInv txn :=
  Lts.Run.preserves (fun σ => σ.SequentialInv txn) (fun _ _ _ hstep => hstep.inv) h
    sequentialInv_init

end Runs

section OneThread

def RunBy (thread : Nat) : Action → Prop
  | .invoke actor _ _ | .resume actor | .walk actor _ => actor = thread
  | .manager _ _ => True

theorem Effect.others_idle {thread other : Nat} (h : Effect noWait σ action event σ')
    (hby : RunBy thread action) (hne : other ≠ thread) (hidle : σ.calls other = none) :
    σ'.calls other = none := by
  cases h <;> simp only [RunBy] at hby <;> simp_all

/-- A run of a single thread is sequential for every transaction. -/
theorem sequential_of_one_thread (thread : Nat) {trace : List (Action × Event)}
    (h : Run noWait σ trace σ') (hby : ∀ label ∈ trace, RunBy thread label.1)
    (hidle : ∀ other, other ≠ thread → σ.calls other = none) :
    Lts.Run (SequentialStep noWait txn) σ trace σ' := by
  induction h with
  | nil s => exact .nil s
  | @cons s t u label trace step rest ih =>
      have hthread := hby label (by simp)
      refine .cons ⟨?_, step⟩ (ih (fun l hl => hby l (by simp [hl])) ?_)
      · rintro actor op hact ⟨other, call, hcall, -⟩
        rcases label with ⟨_, event⟩
        subst hact
        by_cases heq : other = thread
        · subst heq
          simp only [RunBy] at hthread
          simp [Lts.Steps, LockManager.step, hthread, hcall] at step
        · simp [hidle other heq] at hcall
      · intro other hne
        exact (step_effect step).others_idle hthread hne (hidle other hne)

end OneThread

/-- Transaction 1 locks table 0, unlocks it and asks for it again. -/
def lockUnlockLock : List Action :=
  [.invoke 0 1 (.lockTable .shared 0), .resume 0, .invoke 0 1 (.unLockTable 0), .resume 0,
    .resume 0, .invoke 0 1 (.lockTable .shared 0)]

end LockManager

end RucDDBS
