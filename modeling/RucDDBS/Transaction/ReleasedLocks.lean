import RucDDBS.Transaction.LockBookkeeping
import RucDDBS.Transaction.VoteBinding

/-!
The locks of a transaction whose locks are being released. While no lock call of
it can be granted any more, `ReleaseLocks` leaves nothing behind, whatever other
calls run beside it. The lock sets must then name every granted request, though
not in the set that the mode belongs to.
-/

namespace RucDDBS

namespace LockManager

open LockRequestQueue

variable {noWait : Bool} {σ σ' : LockManager} {action : Action} {event : Event} {txn : TxnId}

def NoLockCalls (σ : LockManager) (txn : TxnId) : Prop :=
  ∀ thread mode item pc, σ.calls thread ≠ some (.lock txn mode item pc)

/-- No lock call of `txn` can be granted, unless a new one begins. -/
def Quiet (σ : LockManager) (txn : TxnId) : Prop :=
  (σ.txns txn).state = .aborted ∨ σ.NoLockCalls txn

section Quiet

theorem Quiet.not_live {thread : Nat} {mode : LockMode} {item : LockDataId} {pc : LockPc}
    (h : σ.Quiet txn) (hcall : σ.calls thread = some (.lock txn mode item pc)) :
    (σ.txns txn).state = .aborted := by
  rcases h with haborted | hnone
  · exact haborted
  · exact absurd hcall (hnone thread mode item pc)

theorem Effect.quiet_not_granted (h : Effect noWait σ action event σ') (hquiet : σ.Quiet txn) :
    ∀ mode item, event ≠ .granted txn mode item := by
  rintro mode item rfl
  cases h with
  | held thread _ _ _ p hcall hholds hmode hlive => exact hlive (hquiet.not_live hcall)
  | acquired thread _ _ _ pc path p q hcall hprepare hcompat hlive =>
      exact hlive (hquiet.not_live hcall)
  | erased _ _ _ _ _ _ _ herasing => cases herasing

theorem Effect.quiet_holds (hown : WaitersOwn σ) (h : Effect noWait σ action event σ')
    (hquiet : σ.Quiet txn) {item : LockDataId} {p : Nat} (hholds : (σ'.lockMap item).Holds txn p) :
    (σ.lockMap item).Holds txn p := by
  rcases ne_or_eq event.txn txn with hne | rfl
  · exact (Holds.before (h.moves hown item) hne hholds).1
  have hprepared {item' : LockDataId} {mode : LockMode} {pc : LockPc} {path : WaitPath} {r : Nat}
      {q : LockRequestQueue} (hprepare : Prepare event.txn mode (σ.lockMap item') pc path r q)
      (hholds : ((σ.setQueue item' q).lockMap item).Holds event.txn p) :
      (σ.lockMap item).Holds event.txn p := by
    rw [setQueue_lockMap] at hholds
    by_cases heq : item = item'
    · subst heq
      rw [Function.update_self] at hholds
      exact (hprepare.holds_before hholds).1
    · rwa [Function.update_of_ne heq] at hholds
  cases h with
  | parked thread _ mode item' pc path r q hcall hprepare => exact hprepared hprepare hholds
  | refused thread _ mode item' pc path r q hcall hprepare => exact hprepared hprepare hholds
  | acquired thread _ mode item' pc path r q hcall hprepare hcompat hlive =>
      exact absurd (hquiet.not_live hcall) hlive
  | unlockHit thread _ item' call call' r t hcall hunlocking hfind =>
      simp only [setCall_lockMap, setTxn_lockMap] at hholds
      exact erase_holds_before σ hholds
  | _ => exact hholds

theorem Effect.quiet_lockSet (h : Effect noWait σ action event σ') (hquiet : σ.Quiet txn)
    (name : LockSetName) : (σ'.txns txn).lockSet name ⊆ (σ.txns txn).lockSet name := by
  rcases ne_or_eq txn event.txn with hne | rfl
  · rw [h.txns_of_ne hne]
  cases h with
  | held thread txn mode item p hcall hholds hmode hlive =>
      exact absurd (hquiet.not_live hcall) hlive
  | acquired thread txn mode item pc path p q hcall hprepare hcompat hlive =>
      exact absurd (hquiet.not_live hcall) hlive
  | unlockHit thread txn item call call' p txn' hcall hunlocking hfind htxn' =>
      subst htxn'
      simp only [setCall_txns, setTxn_txns, Event.txn, Function.update_self]
      split <;> exact fun l hl => hl
  | erased thread txn item call call' event hcall herasing =>
      rw [herasing.txn_eq.2.1]
      intro l hl
      simp only [setCall_txns, setTxn_txns, Function.update_self] at hl
      exact (Transaction.mem_eraseLockSets_iff.mp hl).1
  | _ => simp [Event.txn]

/-- A transaction stays without lock calls if none begins in the growing phase. -/
theorem Effect.noLockCalls (h : Effect noWait σ action event σ') (hnone : σ.NoLockCalls txn)
    (hlate : ∀ thread op, action = .invoke thread txn op → op.isLock = true →
      (σ.txns txn).state ≠ .default ∧ (σ.txns txn).state ≠ .growing) : σ'.NoLockCalls txn := by
  intro thread mode item pc hcall
  rcases h.lock_call hcall with ⟨pc', hcall'⟩ | ⟨⟨actor, op, haction, hop⟩, hearly, _⟩
  · exact hnone thread mode item pc' hcall'
  · obtain ⟨hdefault, hgrowing⟩ := hlate actor op haction hop
    rcases hearly with hearly | hearly
    · exact hdefault hearly
    · exact hgrowing hearly

theorem Effect.quiet (h : Effect noWait σ action event σ') (hquiet : σ.Quiet txn)
    (hunsettled : Unsettled txn action)
    (hlate : ∀ thread op, action = .invoke thread txn op → op.isLock = true →
      (σ.txns txn).state ≠ .default ∧ (σ.txns txn).state ≠ .growing) : σ'.Quiet txn := by
  rcases hquiet with haborted | hnone
  · exact .inl (h.aborted_stays hunsettled haborted)
  · exact .inr (h.noLockCalls hnone hlate)

end Quiet

/-- What a call of `txn` relies on while other calls of it may run beside it. It
has no unlock calls but those of `ReleaseLocks`. -/
def TallyCall (σ : LockManager) (txn : TxnId) : Call → Prop
  | .lock _ mode item _ =>
      (∃ name, lockSetName item.type mode = some name) ∧ item.canonical = item
  | .unlock _ _ _ => False
  | .release _ loops ahead current => σ.CallOk txn (.release txn loops ahead current)

/-- The lock sets of `txn` have all its granted requests, in whatever set. -/
structure Tally (σ : LockManager) (txn : TxnId) : Prop where
  recorded : ∀ item p, (σ.lockMap item).Holds txn p → ∃ name, item ∈ (σ.txns txn).lockSet name
  typed : σ.SetsTyped txn
  calls : ∀ thread call, σ.calls thread = some call → call.txn = txn → σ.TallyCall txn call

section Tally

/-- A call keeps what it relies on when locks and lock sets only get fewer. -/
theorem TallyCall.mono {call : Call} (h : σ.TallyCall txn call)
    (hless : ∀ loops ahead current, call = .release txn loops ahead current →
      (∀ name, (σ'.txns txn).lockSet name ⊆ (σ.txns txn).lockSet name) ∧
        ∀ item p, (σ'.lockMap item).Holds txn p → (σ.lockMap item).Holds txn p)
    (htxn : call.txn = txn) : σ'.TallyCall txn call := by
  cases call with
  | lock txn' mode item pc => exact h
  | unlock txn' item pc => exact h
  | release txn' loops ahead current =>
      cases htxn
      obtain ⟨hsets, hholds⟩ := hless loops ahead current rfl
      obtain ⟨hahead, hleft, herase⟩ := h
      refine ⟨hahead, ?_, ?_⟩
      · intro name hname item hitem
        exact hleft name hname item (hsets name hitem)
      · intro item hcurrent p hp
        exact herase item hcurrent p (hholds item p hp)

theorem Unlocking.tallyCall {item : LockDataId} {call call' : Call}
    (h : Unlocking txn item call call') (hcall : σ.TallyCall txn call)
    (hsets : (σ'.txns txn).lockSet = (σ.txns txn).lockSet)
    (hnone : ∀ p, ¬ (σ'.lockMap item).Holds txn p) : σ'.TallyCall txn call' := by
  cases h with
  | call => exact absurd hcall id
  | loop loops ahead => exact Unlocking.callOk (.loop loops ahead) hcall hsets hnone

theorem Erasing.tallyCall {item : LockDataId} {call : Call} {call' : Option Call}
    (h : Erasing txn item call call' event) (htyped : σ.SetsTyped txn)
    (hcall : σ.TallyCall txn call)
    (hsets : (σ'.txns txn).lockSet = ((σ.txns txn).eraseLockSets item).lockSet) {next : Call}
    (hnext : call' = some next) : σ'.TallyCall txn next := by
  cases h with
  | call => cases hnext
  | loop loops ahead =>
      cases hnext
      exact Erasing.callOk (.loop loops ahead) htyped hcall hsets rfl

/-- After a step of its own transaction, the call of the acting thread relies
only on what holds. -/
theorem Effect.tallyCall (htally : σ.Tally event.txn)
    (hunique : ∀ item, (σ.lockMap item).OnePerTxn) (h : Effect noWait σ action event σ')
    (hops : ∀ thread op, action = .invoke thread event.txn op →
      op.isLock = true ∨ op = .releaseLocks) :
    σ'.calls = σ.calls ∨ ∃ actor next, σ'.calls = Function.update σ.calls actor next ∧
      ∀ call, next = some call → σ'.TallyCall event.txn call := by
  cases h with
  | begun thread txn op mode item name hidle hstate hname hitem =>
      refine .inr ⟨thread, _, rfl, ?_⟩
      rintro call ⟨⟩
      exact ⟨⟨name, hname⟩, hitem⟩
  | parked thread txn mode item pc path p q hcall hprepare =>
      refine .inr ⟨thread, _, rfl, ?_⟩
      rintro call ⟨⟩
      exact htally.calls thread _ hcall rfl
  | unlockBegun thread txn op item hidle hitem hop hcall =>
      rcases hops thread op rfl with hlock | hrelease
      · rw [hop] at hlock
        cases hlock
      · exact absurd hrelease hcall
  | unlockHit thread txn item call call' p txn' hcall hunlocking hfind htxn' =>
      have htxn : call.txn = txn := hunlocking.txn_eq.1
      refine .inr ⟨thread, _, rfl, ?_⟩
      rintro next ⟨⟩
      obtain ⟨hsets, hnone⟩ := unlockHit_leaves (hunique item) hfind htxn'
      exact hunlocking.tallyCall (htally.calls thread call hcall htxn) hsets hnone
  | unlockMiss thread txn item call call' hcall hunlocking hfind =>
      have htxn : call.txn = txn := hunlocking.txn_eq.1
      refine .inr ⟨thread, _, rfl, ?_⟩
      rintro next ⟨⟩
      apply hunlocking.tallyCall (htally.calls thread call hcall htxn)
      · simp
      · exact findGranted_none hfind
  | erased thread txn item call call' event hcall herasing =>
      obtain ⟨hcaller, htxn, _⟩ := herasing.txn_eq
      rw [htxn] at htally ⊢
      refine .inr ⟨thread, _, rfl, ?_⟩
      intro next hnext
      exact herasing.tallyCall htally.typed (htally.calls thread call hcall hcaller)
        (by simp) hnext
  | releaseBegun thread txn op hidle =>
      refine .inr ⟨thread, _, rfl, ?_⟩
      rintro call ⟨⟩
      exact callOk_release _ txn
  | releaseWalked thread txn name loops order hcall horder =>
      have hok : σ.CallOk txn (.release txn (name :: loops) [] none) :=
        htally.calls thread _ hcall rfl
      refine .inr ⟨thread, _, rfl, ?_⟩
      rintro call ⟨⟩
      exact (hok.walk htally.typed horder).of_eq rfl rfl
  | releaseVisited thread txn loops item ahead hcall =>
      have hok : σ.CallOk txn (.release txn loops (item :: ahead) none) :=
        htally.calls thread _ hcall rfl
      refine .inr ⟨thread, _, rfl, ?_⟩
      rintro call ⟨⟩
      exact hok.visit.of_eq rfl rfl
  | managerWrote txn write => exact .inl rfl
  | _ => exact .inr ⟨_, _, rfl, by simp⟩

/-- The tally is kept, provided that the releases of the transaction run only when
none of its locks can be granted. -/
theorem Effect.tally (hown : WaitersOwn σ) (hunique : ∀ item, (σ.lockMap item).OnePerTxn)
    (htally : σ.Tally txn)
    (hquiet : ∀ thread loops ahead current,
      σ.calls thread = some (.release txn loops ahead current) → σ.Quiet txn)
    (h : Effect noWait σ action event σ')
    (hops : ∀ thread op, action = .invoke thread txn op → op.isLock = true ∨ op = .releaseLocks) :
    σ'.Tally txn := by
  have hkept {thread : Nat} {call : Call} (hcall : σ.calls thread = some call)
      (htxn : call.txn = txn) : σ'.TallyCall txn call := by
    apply (htally.calls thread call hcall htxn).mono _ htxn
    rintro loops ahead current rfl
    have hq := hquiet thread loops ahead current hcall
    exact ⟨h.quiet_lockSet hq, fun item p => h.quiet_holds hown hq⟩
  rcases ne_or_eq event.txn txn with hne | rfl
  · refine ⟨?_, ?_, ?_⟩
    · intro item p hholds
      rw [h.txns_of_ne (Ne.symm hne)]
      exact htally.recorded item p (Holds.before (h.moves hown item) hne hholds).1
    · unfold SetsTyped
      rw [h.txns_of_ne (Ne.symm hne)]
      exact htally.typed
    · intro thread call hcall htxn
      exact hkept (h.call_before hne hcall htxn) htxn
  · have hrecorded : σ'.RecordedAs (fun _ _ _ => True) event.txn := by
      apply h.recordedAs (fun _ _ _ => True) _ hunique
      · intro thread mode item pc path p q hcall _
        obtain ⟨⟨name, hname⟩, _⟩ := htally.calls thread _ hcall rfl
        exact ⟨name, hname, trivial⟩
      · intro thread item call call' erased hcall herasing
        have hok := htally.calls thread call hcall herasing.txn_eq.1
        cases herasing with
        | call => exact absurd hok id
        | loop loops ahead => exact hok.2.2 item rfl
      · intro item p hholds
        obtain ⟨name, hmem⟩ := htally.recorded item p hholds
        exact ⟨name, trivial, hmem⟩
    refine ⟨?_, ?_, ?_⟩
    · intro item p hholds
      obtain ⟨name, _, hmem⟩ := hrecorded item p hholds
      exact ⟨name, hmem⟩
    · apply h.typed htally.typed
      intro thread mode item pc hcall
      exact (htally.calls thread _ hcall rfl).2
    · intro thread call hcall htxn
      rcases h.tallyCall htally hunique hops with hsame | ⟨actor, next, hcalls, hnext⟩
      · rw [hsame] at hcall
        exact hkept hcall htxn
      · rcases calls_of_update hcalls hcall with ⟨_, hset⟩ | hold
        · exact hnext call hset
        · exact hkept hold htxn

theorem tally_init : init.Tally txn where
  recorded := by
    rintro item p ⟨hp, _⟩
    simp [init, LockRequestQueue.empty] at hp
  typed := by
    intro name item hitem
    simp [init, Transaction.new] at hitem
  calls := by
    intro thread call hcall
    simp [init] at hcall

/-- A finished release leaves no lock behind. -/
theorem Tally.released {thread : Nat} (h : σ.Tally txn)
    (hcall : σ.calls thread = some (.release txn [] [] none)) (item : LockDataId) (p : Nat) :
    ¬ (σ.lockMap item).Holds txn p := by
  intro hholds
  obtain ⟨name, hmem⟩ := h.recorded item p hholds
  have hok : σ.CallOk txn (.release txn [] [] none) := h.calls thread _ hcall rfl
  rcases hok.2.1 name (by simp) item hmem with hnil | ⟨pc, hpc⟩
  · cases hnil
  · cases hpc

end Tally

section Threads

/-- A step changes the call of no other thread. -/
theorem Effect.calls_other {thread other : Nat} (h : Effect noWait σ action event σ')
    (hby : RunBy thread action) (hne : other ≠ thread) : σ'.calls other = σ.calls other := by
  cases h <;> simp only [RunBy] at hby <;> simp_all

end Threads

end LockManager

end RucDDBS
