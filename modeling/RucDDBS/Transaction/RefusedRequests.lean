import RucDDBS.Transaction.LockBookkeeping
import RucDDBS.Transaction.LockRefusal

/-!
What a refused lock call leaves in the queue. A call that is refused by a check leaves
nothing; one that is refused by its wait has already appended its request, or turned the
granted request of its transaction into the ungranted one of an upgrade. Nothing removes an
ungranted request again: `ReleaseLocks` looks for granted ones only.
-/

namespace RucDDBS

/-- The requests of a queue, in order. -/
def LockRequestQueue.entries (q : LockRequestQueue) : List LockRequest :=
  q.requestQueue.map q.requests

namespace LockManager

open LockRequestQueue

variable {noWait : Bool} {σ σ' : LockManager} {thread : Nat} {txn : TxnId} {mode : LockMode}
  {item : LockDataId} {action : Action} {event : Event}

section Refusals

variable {q q' : LockRequestQueue} {path : WaitPath} {p : Nat}

/-- The step is not the section of a lock call that changes the queue before it waits. -/
def LeavesQueue (σ : LockManager) : Action → Prop
  | .resume thread =>
      ∀ txn mode item, σ.calls thread = some (.lock txn mode item .enter) →
        ∀ path p q, ¬ Opens (σ.lockMap item) txn mode path p q
  | .invoke _ _ _ | .walk _ _ | .manager _ _ => True

theorem Opens.entries_ne (h : Opens q txn mode path p q') : q'.entries ≠ q.entries := by
  cases h with
  | new hnone =>
      intro heq
      have hlength := congrArg List.length heq
      simp [entries] at hlength
  | upgrade _ hfind hmode hfree hlegal =>
      intro heq
      have hsame := List.map_inj_left.mp heq p (findTxn_some hfind).1
      rw [startUpgrade_requests, Function.update_self] at hsame
      exact hmode (congrArg LockRequest.lockMode hsame).symm

/-- The request that the call waits for is listed and not granted. -/
theorem Opens.ungranted (h : Opens q txn mode path p q') :
    p ∈ q'.requestQueue ∧ (q'.requests p).txnId = txn ∧ (q'.requests p).granted = false := by
  cases h with
  | new hnone => simp
  | upgrade _ hfind hmode hfree hlegal =>
      obtain ⟨hmem, htxn⟩ := findTxn_some hfind
      exact ⟨hmem, by simp [htxn], by simp⟩

theorem leavesQueue_iff (hcall : σ.calls thread = some (.lock txn mode item .enter)) :
    σ.LeavesQueue (.resume thread) ↔ ∀ path p q, ¬ Opens (σ.lockMap item) txn mode path p q := by
  constructor
  · intro h
    exact h txn mode item hcall
  · intro h txn' mode' item' hcall'
    rw [hcall] at hcall'
    cases hcall'
    exact h

/-- What a refusal by the first section of a call leaves. -/
theorem enterSection_refused {reason : Option AbortReason}
    (h : σ.enterSection noWait thread txn mode item = (σ', .refused txn mode item reason)) :
    ((∀ path p q, ¬ Opens (σ.lockMap item) txn mode path p q) ∧ σ'.lockMap = σ.lockMap) ∨
      ∃ path p q, Opens (σ.lockMap item) txn mode path p q ∧
        σ'.lockMap = Function.update σ.lockMap item q := by
  rcases enterSection_cases h with
    ⟨hclosed, hmap, _⟩ | ⟨p, hfind, hmode, _, hwait⟩ | ⟨path, p, q, hopens, hwait⟩
  · exact .inl ⟨hclosed, hmap⟩
  · refine .inl ⟨?_, ?_⟩
    · intro path r q hopens
      cases hopens with
      | new hnone =>
          rw [hfind] at hnone
          cases hnone
      | upgrade _ hfind' hmode' =>
          rw [hfind, Option.some.injEq] at hfind'
          subst hfind'
          exact hmode' hmode
    · rw [waitSection_refused rfl hwait, Function.update_eq_self]
  · exact .inr ⟨path, p, q, hopens, waitSection_refused rfl hwait⟩

/-- Either the refusal leaves all queues alone, or it leaves what the call has opened. -/
theorem refused_cases {reason : Option AbortReason}
    (h : step noWait σ action = some (σ', .refused txn mode item reason)) :
    (σ.LeavesQueue action ∧ σ'.lockMap = σ.lockMap) ∨
      ∃ thread path p q, action = .resume thread ∧
        σ.calls thread = some (.lock txn mode item .enter) ∧
        Opens (σ.lockMap item) txn mode path p q ∧
        σ'.lockMap = Function.update σ.lockMap item q := by
  have henter {thread : Nat} (hcall : σ.calls thread = some (.lock txn mode item .enter))
      (h : step noWait σ (.resume thread) = some (σ', .refused txn mode item reason)) :
      (σ.LeavesQueue (.resume thread) ∧ σ'.lockMap = σ.lockMap) ∨
        ∃ actor path p q, Action.resume thread = .resume actor ∧
          σ.calls actor = some (.lock txn mode item .enter) ∧
          Opens (σ.lockMap item) txn mode path p q ∧
          σ'.lockMap = Function.update σ.lockMap item q := by
    rw [step, hcall, Option.bind_some, resume, Option.some.injEq] at h
    rcases enterSection_refused h with ⟨hclosed, hmap⟩ | ⟨path, p, q, hopens, hmap⟩
    · exact .inl ⟨(leavesQueue_iff hcall).mpr hclosed, hmap⟩
    · exact .inr ⟨thread, path, p, q, rfl, hcall, hopens, hmap⟩
  cases step_effect h with
  | rejected thread txn op mode item reason hidle => exact .inl ⟨trivial, rfl⟩
  | refusedEarly thread txn mode item reason hcall => exact henter hcall h
  | refused thread txn mode item pc path p q hcall hprepare =>
      cases pc with
      | enter => exact henter hcall h
      | waiting path' p' =>
          cases hprepare with
          | recheck =>
              refine .inl ⟨?_, by simp⟩
              intro txn' mode' item' hcall'
              rw [hcall] at hcall'
              cases hcall'
  | erased _ _ _ _ _ _ _ herasing => cases herasing

/-- A refused call leaves the requests of its item as they were exactly if it is refused in
front of the change. -/
theorem refused_entries_iff {reason : Option AbortReason}
    (h : step noWait σ action = some (σ', .refused txn mode item reason)) :
    (σ'.lockMap item).entries = (σ.lockMap item).entries ↔ σ.LeavesQueue action := by
  rcases refused_cases h with ⟨hleaves, hmap⟩ | ⟨thread, path, p, q, rfl, hcall, hopens, hmap⟩
  · exact iff_of_true (by rw [hmap]) hleaves
  · refine iff_of_false ?_ ?_
    · rw [hmap, Function.update_self]
      exact hopens.entries_ne
    · rw [leavesQueue_iff hcall]
      exact fun hclosed => hclosed path p q hopens

end Refusals

section Leftovers

variable {trace : List (Action × Event)}

/-- Every request of the transaction is granted. -/
def AllGranted (σ : LockManager) (txn : TxnId) : Prop :=
  ∀ item p, p ∈ (σ.lockMap item).requestQueue → ((σ.lockMap item).requests p).txnId = txn →
    ((σ.lockMap item).requests p).granted = true

/-- If the step refuses a lock call of the transaction, it does so in front of the change. -/
def RefusesInFront (txn : TxnId) (σ : LockManager) (label : Action × Event) : Prop :=
  ∀ mode item reason, label.2 = .refused txn mode item reason → σ.LeavesQueue label.1

/-- If the step is the section of a lock call of the transaction that changes the queue, the call
is not refused there. -/
def OpenedAdmitted (txn : TxnId) (σ : LockManager) : Action → Prop
  | .resume thread =>
      ∀ mode item, σ.calls thread = some (.lock txn mode item .enter) →
        ∀ path p q, Opens (σ.lockMap item) txn mode path p q → Admits true σ txn mode item .enter
  | .invoke _ _ _ | .walk _ _ | .manager _ _ => True

/-- What holds in no-wait mode when the calls of the transaction are sequential: no lock call
waits, and a transaction with an ungranted request is over. -/
structure NoWaitInv (σ : LockManager) (txn : TxnId) : Prop where
  sequential : σ.SequentialInv txn
  entering : ∀ thread mode item pc, σ.calls thread = some (.lock txn mode item pc) → pc = .enter
  retired : ¬ σ.AllGranted txn → σ.Retired txn

/-- The request of a transaction that is over stays in its queue. -/
theorem Effect.leftover (hown : WaitersOwn σ) (hret : σ.Retired txn)
    (h : Effect noWait σ action event σ') {item : LockDataId} {p : Nat}
    (hmem : p ∈ (σ.lockMap item).requestQueue) (htxn : ((σ.lockMap item).requests p).txnId = txn)
    (hungranted : ((σ.lockMap item).requests p).granted = false) :
    p ∈ (σ'.lockMap item).requestQueue ∧
      (σ'.lockMap item).requests p = (σ.lockMap item).requests p := by
  rcases ne_or_eq event.txn txn with hne | rfl
  · exact moves_others_after (h.moves hown item) hmem (by rw [htxn]; exact hne.symm)
  obtain ⟨_, _, hcalls⟩ := hret
  cases h with
  | parked thread _ mode item' pc path r q hcall => exact absurd hcall (hcalls thread mode item' pc)
  | refused thread _ mode item' pc path r q hcall => exact absurd hcall (hcalls thread mode item' pc)
  | acquired thread _ mode item' pc path r q hcall =>
      exact absurd hcall (hcalls thread mode item' pc)
  | unlockHit thread _ item' call call' r t hcall hunlocking hfind =>
      simp only [setCall_lockMap, setTxn_lockMap, setQueue_lockMap]
      by_cases heq : item = item'
      · subst heq
        rw [Function.update_self]
        have hne : p ≠ r := by
          rintro rfl
          rw [(findGranted_some hfind).2.2] at hungranted
          cases hungranted
        exact ⟨(List.mem_erase_of_ne hne).mpr hmem, rfl⟩
      · rw [Function.update_of_ne heq]
        exact ⟨hmem, rfl⟩
  | _ => exact ⟨hmem, rfl⟩

/-- In no-wait mode no call comes to wait. -/
theorem Effect.waiting_before {path : WaitPath} {p : Nat} (h : Effect true σ action event σ')
    (hcall : σ'.calls thread = some (.lock txn mode item (.waiting path p))) :
    σ.calls thread = some (.lock txn mode item (.waiting path p)) := by
  have hset {actor : Nat} {next : Option Call}
      (hcalls : σ'.calls = Function.update σ.calls actor next)
      (hnext : next ≠ some (.lock txn mode item (.waiting path p))) :
      σ.calls thread = some (.lock txn mode item (.waiting path p)) := by
    rcases calls_of_update hcalls hcall with ⟨_, hset⟩ | hold
    · exact absurd hset hnext
    · exact hold
  cases h with
  | parked _ _ _ _ _ _ _ _ _ _ hwait => cases hwait
  | unlockHit _ _ _ _ _ _ _ _ hunlocking =>
      exact hset rfl fun heq => hunlocking.ne_lock (Option.some.inj heq)
  | unlockMiss _ _ _ _ _ _ hunlocking =>
      exact hset rfl fun heq => hunlocking.ne_lock (Option.some.inj heq)
  | erased _ _ _ _ _ _ _ herasing => exact hset rfl herasing.ne_lock
  | managerWrote => exact hcall
  | _ => exact hset rfl (by simp)

/-- A granted lock leaves its transaction no ungranted request in the queue. -/
theorem allGranted_granting {pc : LockPc} {path : WaitPath} {p r : Nat} {q : LockRequestQueue}
    (hall : σ.AllGranted txn) (henter : pc = .enter)
    (hprepare : Prepare txn mode (σ.lockMap item) pc path p q)
    (hmem : r ∈ (granting q path p).requestQueue)
    (htxn : ((granting q path p).requests r).txnId = txn) :
    ((granting q path p).requests r).granted = true := by
  by_cases hrp : r = p
  · subst hrp
    simp
  rw [granting_requests, Function.update_of_ne hrp] at htxn ⊢
  rw [granting_requestQueue] at hmem
  cases hprepare with
  | new hnew =>
      rw [emplaceBack_requestQueue, List.mem_append, List.mem_singleton] at hmem
      rcases hmem with hold | hfresh
      · rw [emplaceBack_requests, Function.update_of_ne hrp] at htxn ⊢
        exact hall item r hold htxn
      · exact absurd hfresh hrp
  | same => exact hall item r hmem htxn
  | upgrade =>
      rw [startUpgrade_requests, Function.update_of_ne hrp] at htxn ⊢
      exact hall item r hmem htxn
  | recheck => cases henter

/-- A step that refuses nothing leaves no ungranted request of its transaction. -/
theorem Effect.allGranted (hinv : σ.NoWaitInv event.txn) (hall : σ.AllGranted event.txn)
    (h : Effect true σ action event σ') (hnot : event.isRefused = false) :
    σ'.AllGranted event.txn := by
  cases h with
  | parked _ _ _ _ _ _ _ _ _ _ hwait => cases hwait
  | rejected => cases hnot
  | refused => cases hnot
  | refusedEarly => cases hnot
  | acquired thread txn mode item pc path p q hcall hprepare =>
      have henter := hinv.entering thread mode item pc hcall
      intro item' r hmem htxn
      simp only [setCall_lockMap, setTxn_lockMap, setQueue_lockMap] at hmem htxn ⊢
      by_cases heq : item' = item
      · subst heq
        rw [Function.update_self] at hmem htxn ⊢
        exact allGranted_granting hall henter hprepare hmem htxn
      · rw [Function.update_of_ne heq] at hmem htxn ⊢
        exact hall item' r hmem htxn
  | unlockHit thread txn item call call' p t hcall hunlocking hfind =>
      intro item' r hmem htxn
      simp only [setCall_lockMap, setTxn_lockMap] at hmem htxn ⊢
      obtain ⟨hbefore, hsame⟩ := erase_before σ hmem
      rw [hsame] at htxn ⊢
      exact hall item' r hbefore htxn
  | _ => exact hall

/-- A transaction without ungranted requests gets one exactly by a refusal behind the change. -/
theorem allGranted_iff {label : Action × Event} (hinv : σ.NoWaitInv txn) (hall : σ.AllGranted txn)
    (h : Step true σ label σ') : σ'.AllGranted txn ↔ RefusesInFront txn σ label := by
  have heffect := step_effect h
  rcases ne_or_eq label.2.txn txn with hne | rfl
  · refine iff_of_true ?_ ?_
    · intro item p hmem htxn
      have hother : ((σ'.lockMap item).requests p).txnId ≠ label.2.txn := by
        rw [htxn]
        exact hne.symm
      obtain ⟨hbefore, hsame⟩ :=
        moves_others_before (heffect.moves hinv.sequential.own item) hmem hother
      rw [hsame] at htxn ⊢
      exact hall item p hbefore htxn
    · rintro mode item reason hrefused
      rw [hrefused] at hne
      exact absurd rfl hne
  obtain ⟨action, event⟩ := label
  cases hrefused : event.isRefused with
  | false =>
      refine iff_of_true (heffect.allGranted hinv hall hrefused) ?_
      intro mode item reason hevent
      change event = _ at hevent
      rw [hevent] at hrefused
      cases hrefused
  | true =>
      cases event with
      | refused txn mode item reason =>
          rcases refused_cases h with
            ⟨hleaves, hmap⟩ | ⟨thread, path, p, q, rfl, hcall, hopens, hmap⟩
          · refine iff_of_true ?_ fun _ _ _ _ => hleaves
            intro item' p
            rw [hmap]
            exact hall item' p
          · refine iff_of_false ?_ ?_
            · intro hall'
              obtain ⟨hmem, htxn, hungranted⟩ := hopens.ungranted
              have hgranted := hall' item p
              rw [hmap, Function.update_self] at hgranted
              rw [hgranted hmem htxn] at hungranted
              cases hungranted
            · intro hfront
              exact (leavesQueue_iff hcall).mp (hfront mode item reason rfl) path p q hopens
      | _ => cases hrefused

theorem Effect.refused_aborted {reason : Option AbortReason}
    (h : Effect noWait σ action (.refused txn mode item reason) σ') :
    (σ'.txns txn).state = .aborted := by
  cases h with
  | erased _ _ _ _ _ _ _ herasing => cases herasing
  | _ => simp

/-- The state before the step tells whether it refuses a call behind the change. -/
theorem refusesInFront_iff {label : Action × Event} (h : Step true σ label σ') :
    RefusesInFront txn σ label ↔ OpenedAdmitted txn σ label.1 := by
  obtain ⟨action, event⟩ := label
  constructor
  · intro hfront
    cases action with
    | resume thread =>
        intro mode item hcall path p q hopens
        by_contra hnot
        have hresume := h
        simp only [Lts.Steps, step, hcall, Option.bind_some] at hresume
        have heffect : Effect true σ (.resume thread) event σ' := step_effect h
        rcases heffect.lock_call_cases hcall with
          ⟨hevent, _⟩ | ⟨reason, hevent, _⟩ | ⟨hevent, _⟩
        · exact hnot ((resume_refused_iff hresume).mp (by rw [hevent]; rfl))
        · exact (leavesQueue_iff hcall).mp (hfront mode item reason hevent) path p q hopens
        · exact hnot ((resume_refused_iff hresume).mp (by rw [hevent]; rfl))
    | _ => trivial
  · rintro hadmitted mode item reason rfl
    rcases refused_cases h with ⟨hleaves, _⟩ | ⟨thread, path, p, q, rfl, hcall, hopens, _⟩
    · exact hleaves
    · have hresume := h
      simp only [Lts.Steps, step, hcall, Option.bind_some] at hresume
      have hadmits := hadmitted mode item hcall path p q hopens
      have hgranted := (resume_refused_iff hresume).mpr hadmits
      cases hgranted

/-- A refusal behind the change is the last thing that a lock call of the transaction does. -/
theorem refused_retired {label : Action × Event} (hinv : σ.NoWaitInv txn)
    (h : SequentialStep true txn σ label σ') (hnot : ¬ RefusesInFront txn σ label) :
    σ'.Retired txn := by
  obtain ⟨action, event⟩ := label
  simp only [RefusesInFront, not_forall] at hnot
  obtain ⟨mode, item, reason, rfl, hchanged⟩ := hnot
  have hstate := h.effect.refused_aborted
  refine ⟨by simp [hstate], by simp [hstate], ?_⟩
  rcases refused_cases h.2 with ⟨hleaves, _⟩ | ⟨thread, path, p, q, rfl, hcall, _⟩
  · exact absurd hleaves hchanged
  intro other mode' item' pc hother
  have hended : σ'.calls thread = none := by
    rcases h.effect.lock_call_cases hcall with ⟨hevent, _⟩ | ⟨_, _, hnone, _⟩ | ⟨hevent, _⟩
    · cases hevent
    · exact hnone
    · cases hevent
  -- a lock call that goes on was in progress beside the refused one
  rcases h.effect.lock_call hother with ⟨pc', hbefore⟩ | ⟨⟨actor, op, hinvoke, _⟩, _⟩
  · have hthread := hinv.sequential.oneCall other thread _ _ hbefore hcall rfl rfl
    rw [hthread, hended] at hother
    cases hother
  · cases hinvoke

theorem NoWaitInv.step {label : Action × Event} (hinv : σ.NoWaitInv txn)
    (h : SequentialStep true txn σ label σ') : σ'.NoWaitInv txn where
  sequential := h.inv hinv.sequential
  entering := by
    intro thread mode item pc hcall
    cases pc with
    | enter => rfl
    | waiting path p =>
        have hbefore := h.effect.waiting_before hcall
        have henter := hinv.entering thread mode item _ hbefore
        cases henter
  retired := by
    intro hleft
    by_cases hall : σ.AllGranted txn
    · exact refused_retired hinv h (mt (allGranted_iff hinv hall h.2).mpr hleft)
    · exact h.effect.retired (hinv.retired hall)

theorem allGranted_init : init.AllGranted txn := by
  intro item p hmem
  simp [init, LockRequestQueue.empty] at hmem

theorem noWaitInv_init : init.NoWaitInv txn where
  sequential := sequentialInv_init
  entering := by
    intro thread mode item pc hcall
    simp [init] at hcall
  retired := fun hleft => absurd allGranted_init hleft

/-- An ungranted request is never granted and never removed. -/
theorem NoWaitInv.allGranted_before {label : Action × Event} (hinv : σ.NoWaitInv txn)
    (h : Step true σ label σ') (hall : σ'.AllGranted txn) : σ.AllGranted txn := by
  by_contra hleft
  have hret := hinv.retired hleft
  simp only [AllGranted, not_forall] at hleft
  obtain ⟨item, p, hmem, htxn, hungranted⟩ := hleft
  rw [Bool.not_eq_true] at hungranted
  obtain ⟨hmem', hsame⟩ :=
    (step_effect h).leftover hinv.sequential.own hret hmem htxn hungranted
  rw [← hsame] at htxn hungranted
  rw [hall item p hmem' htxn] at hungranted
  cases hungranted

/-- In no-wait mode all requests of a transaction with sequential calls are granted exactly if
none was refused after it had changed the queue. -/
theorem allGranted_run_iff (hrun : Lts.Run (SequentialStep true txn) init trace σ) :
    σ.AllGranted txn ↔
      Lts.Run
        (fun s label t => OpenedAdmitted txn s label.1 ∧ SequentialStep true txn s label t)
        init trace σ := by
  apply hrun.holds_iff (fun _ s => s.NoWaitInv txn) (fun _ s => s.AllGranted txn)
    (fun s label => OpenedAdmitted txn s label.1)
  · intro past s label t hstep hinv
    exact hinv.step hstep
  · intro past s label t hstep hinv hall
    exact (allGranted_iff hinv hall hstep.2).trans (refusesInFront_iff hstep.2)
  · intro past s label t hstep hinv hall
    exact hinv.allGranted_before hstep.2 hall
  · exact noWaitInv_init
  · exact allGranted_init

end Leftovers

/-- A lock call that is refused leaves the requests of its item as they were exactly if the
refusal comes in front of the change of the queue. When in no-wait mode `ReleaseLocks` returns
at the end of the abort of a transaction, no queue has a request of it exactly if each of its
calls that changed a queue was granted. -/
theorem refused_leaves_queue_iff {trace : List (Action × Event)}
    (hrun : Lts.Run (SequentialStep true txn) init trace σ)
    (hreturn : SequentialStep true txn σ (action, .releaseReturned txn) σ') :
    (∀ s s' action txn' mode item reason, Step true s (action, .refused txn' mode item reason) s' →
        ((s'.lockMap item).entries = (s.lockMap item).entries ↔ s.LeavesQueue action)) ∧
      ((∀ item p, p ∈ (σ'.lockMap item).requestQueue →
          ((σ'.lockMap item).requests p).txnId ≠ txn) ↔
        Lts.Run
          (fun s label t => OpenedAdmitted txn s label.1 ∧ SequentialStep true txn s label t)
          init trace σ) := by
  refine ⟨?_, ?_⟩
  · intro s s' action txn' mode item reason hstep
    exact refused_entries_iff hstep
  obtain ⟨hmap, hnone, _⟩ := (sequentialRun_books hrun).returned hreturn
  rw [← allGranted_run_iff hrun]
  simp only [LockRequestQueue.Holds, hmap] at hnone ⊢
  constructor
  · intro hgone item p hmem htxn
    exact absurd htxn (hgone item p hmem)
  · intro hall item p hmem htxn
    exact hnone item p ⟨hmem, htxn, hall item p hmem htxn⟩

/-- Transaction 1 locks table 0 and aborts: its release finds the item in the last set. -/
def lockAbort : List Action :=
  [.invoke 0 1 (.lockTable .exlucsive 0), .resume 0, .manager 1 .abort, .invoke 0 1 .releaseLocks] ++
    List.replicate 11 (.walk 0 []) ++
    [.walk 0 [.ofTable 0], .resume 0, .resume 0, .resume 0, .resume 0]

theorem lockAbort_leaves_nothing :
    ¬ ∃ item p, p ∈ ((after true lockAbort).lockMap item).requestQueue ∧
      (((after true lockAbort).lockMap item).requests p).txnId = 1 := by
  obtain ⟨events, hevents, hall⟩ : ∃ events,
      (Lts.exec (step true) init (lockAbort.take 19)).map Prod.snd = some events ∧
        events.all (fun event => !event.isRefused) = true :=
    (Option.any_eq_true _ _).mp (by decide +kernel)
  have hlabel {action : Action} {event : Event}
      (hmem : (action, event) ∈ (lockAbort.take 19).zip events) :
      RunBy 0 action ∧ event.isRefused = false := by
    obtain ⟨haction, hevent⟩ := List.of_mem_zip hmem
    refine ⟨?_, ?_⟩
    · have hby : ∀ a ∈ lockAbort.take 19, RunBy 0 a := by simp [lockAbort, RunBy]
      exact hby action haction
    · have hgood := List.all_eq_true.mp hall event hevent
      rwa [Bool.not_eq_true'] at hgood
  have hrun : Lts.Run (SequentialStep true 1) init ((lockAbort.take 19).zip events)
      (after true (lockAbort.take 19)) :=
    sequential_of_one_thread 0 (run_after _ hevents) (fun label hmem => (hlabel hmem).1)
      (fun _ _ => rfl)
  have hreturn : SequentialStep true 1 (after true (lockAbort.take 19))
      (.resume 0, .releaseReturned 1) (after true lockAbort) := ⟨by simp, rfl⟩
  rintro ⟨item, p, hmem, htxn⟩
  revert htxn
  apply (refused_leaves_queue_iff hrun hreturn).2.mpr _ item p hmem
  -- nothing is refused in this run
  apply (hrun.with_labels (fun label => label.2.isRefused = false)
    (fun label hmem => (hlabel hmem).2)).mono
  rintro s label t ⟨hgood, hstep⟩
  refine ⟨(refusesInFront_iff hstep.2).mp ?_, hstep⟩
  intro mode item reason hevent
  rw [hevent] at hgood
  cases hgood

/-- Transaction 1 is refused the lock that transaction 2 holds, and aborts. -/
def refusedAbort : List Action :=
  [.invoke 1 2 (.lockTable .exlucsive 0), .resume 1, .invoke 0 1 (.lockTable .shared 0),
    .resume 0, .manager 1 .abort, .invoke 0 1 .releaseLocks] ++
    List.replicate 12 (.walk 0 []) ++ [.resume 0]

/-- The request that the refused call has appended is there at once and after the abort. -/
theorem refusedAbort_leaves_request :
    (∃ trace, Run true init trace (after true refusedAbort)) ∧
      ((after true (refusedAbort.take 3)).lockMap (.ofTable 0)).entries =
        [⟨2, .exlucsive, true⟩] ∧
      ((step true (after true (refusedAbort.take 3)) (.resume 0)).map Prod.snd) =
        some (.refused 1 .shared (.ofTable 0) (some .deadLockPreventNoWait)) ∧
      ((after true (refusedAbort.take 4)).lockMap (.ofTable 0)).entries =
        [⟨2, .exlucsive, true⟩, ⟨1, .shared, false⟩] ∧
      (after true refusedAbort).calls 0 = none ∧
      ((after true refusedAbort).lockMap (.ofTable 0)).entries =
        [⟨2, .exlucsive, true⟩, ⟨1, .shared, false⟩] := by
  refine ⟨?_, by decide, by decide, by decide, ?_, ?_⟩
  · obtain ⟨events, hevents⟩ : ∃ events,
        (Lts.exec (step true) init refusedAbort).map Prod.snd = some events :=
      Option.isSome_iff_exists.mp (by decide +kernel)
    exact ⟨_, run_after refusedAbort hevents⟩
  · decide +kernel
  · decide +kernel

end LockManager

end RucDDBS
