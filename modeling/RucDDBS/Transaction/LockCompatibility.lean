import RucDDBS.Transaction.LockEffect

/-!
Granted locks of different transactions on one item are compatible in every
reachable state. The argument has two layers. On a single queue, each move
keeps the property, because a grant is made only behind a successful
`checkQueueCompatible` and an upgrade withdraws the old grant before it waits.
Over whole runs, every step changes the queues by moves of its own transaction,
provided that parked calls wait for requests that are really theirs.
-/

namespace RucDDBS

namespace LockRequestQueue

variable {txn : TxnId} {q q' : LockRequestQueue} {p r : Nat}

/-- Any two granted requests of different transactions are compatible. The
order of `p` and `r` is arbitrary, so this says both directions. -/
def GrantedCompatible (q : LockRequestQueue) : Prop :=
  ∀ p r, p ∈ q.requestQueue → r ∈ q.requestQueue →
    (q.requests p).granted = true → (q.requests r).granted = true →
    (q.requests p).txnId ≠ (q.requests r).txnId →
    isLockCompatible (q.requests p) (q.requests r).lockMode = true

theorem grantedCompatible_empty : GrantedCompatible empty := by
  intro p r hp
  simp [empty] at hp

/-- An address that is allocated stays allocated, and the request at it keeps
its owner. -/
theorem Move.owner (h : Move txn q q') (hp : p < q.fresh) :
    p < q'.fresh ∧ (q'.requests p).txnId = (q.requests p).txnId := by
  have hupdate (r : Nat) (request : LockRequest)
      (hsame : request.txnId = (q.requests r).txnId) :
      (Function.update q.requests r request p).txnId = (q.requests p).txnId := by
    by_cases hpr : p = r
    · subst hpr
      simpa using hsame
    · rw [Function.update_of_ne hpr]
  cases h with
  | lock h =>
      cases h with
      | emplaceBack mode hnew =>
          have hne : p ≠ q.fresh := by omega
          exact ⟨Nat.lt_succ_of_lt hp, by simp [Function.update_of_ne hne]⟩
      | startUpgrade r mode hmem htxn hmode => exact ⟨hp, hupdate r _ rfl⟩
      | grant r halloc htxn hcompat => exact ⟨hp, hupdate r _ rfl⟩
      | endUpgrade => exact ⟨hp, rfl⟩
  | erase r hholds => exact ⟨hp, rfl⟩

/-- The requests of other transactions are not touched, in the list or out of
it. -/
theorem Move.others (h : Move txn q q') (hp : p < q.fresh)
    (hother : (q.requests p).txnId ≠ txn) :
    q'.requests p = q.requests p ∧
      (p ∈ q'.requestQueue ↔ p ∈ q.requestQueue) := by
  have hne {r : Nat} (htxn : (q.requests r).txnId = txn) : p ≠ r := by
    rintro rfl
    exact hother htxn
  cases h with
  | lock h =>
      cases h with
      | emplaceBack mode hnew =>
          have hfresh : p ≠ q.fresh := by omega
          simp [hfresh]
      | startUpgrade r mode hmem htxn hmode => simp [Function.update_of_ne (hne htxn)]
      | grant r halloc htxn hcompat => simp [Function.update_of_ne (hne htxn)]
      | endUpgrade => exact ⟨rfl, Iff.rfl⟩
  | erase r hholds => exact ⟨rfl, List.mem_erase_of_ne (hne hholds.2.1)⟩

/-- The flag `granted_` alone does not enter the compatibility check. -/
theorem isLockCompatible_granted (a : LockRequest) (g : Bool) (mode : LockMode) :
    isLockCompatible { a with granted := g } mode = isLockCompatible a mode := rfl

theorem grantedCompatible_grant (h : q.GrantedCompatible)
    (hcompat : q.checkQueueCompatible p = true) : (q.grant p).GrantedCompatible := by
  have hcheck := (checkQueueCompatible_iff q p).mp hcompat
  have hmode (r : Nat) : ((q.grant p).requests r).lockMode = (q.requests r).lockMode := by
    by_cases hr : r = p
    · subst hr
      simp
    · simp [Function.update_of_ne hr]
  have hiter (a : Nat) (mode : LockMode) :
      isLockCompatible ((q.grant p).requests a) mode = isLockCompatible (q.requests a) mode := by
    by_cases ha : a = p
    · subst ha
      simp [isLockCompatible_granted]
    · simp [Function.update_of_ne ha]
  intro a b ha hb hga hgb hne
  rw [hmode, hiter]
  by_cases hap : a = p
  · subst hap
    have hba : b ≠ a := by
      rintro rfl
      exact hne rfl
    have hgb' : (q.requests b).granted = true := by
      simpa [Function.update_of_ne hba] using hgb
    rw [isLockCompatible_symm]
    exact hcheck b hb hba hgb'
  · have hga' : (q.requests a).granted = true := by
      simpa [Function.update_of_ne hap] using hga
    by_cases hbp : b = p
    · subst hbp
      exact hcheck a ha hap hga'
    · apply h a b ha hb hga'
      · simpa [Function.update_of_ne hbp] using hgb
      · simpa [Function.update_of_ne hap, Function.update_of_ne hbp] using hne

/-- A queue all of whose granted requests were granted before, with the same
mode and owner, inherits compatibility. -/
theorem GrantedCompatible.of_granted (h : q.GrantedCompatible)
    (hsub : ∀ p ∈ q'.requestQueue, (q'.requests p).granted = true →
      p ∈ q.requestQueue ∧ q'.requests p = q.requests p) : q'.GrantedCompatible := by
  intro a b ha hb hga hgb hne
  obtain ⟨ha', hra⟩ := hsub a ha hga
  obtain ⟨hb', hrb⟩ := hsub b hb hgb
  rw [hra] at hga hne
  rw [hrb] at hgb hne
  rw [hra, hrb]
  exact h a b ha' hb' hga hgb hne

theorem Move.grantedCompatible (h : Move txn q q') (hq : q.GrantedCompatible) :
    q'.GrantedCompatible := by
  cases h with
  | lock h =>
      cases h with
      | emplaceBack mode hnew =>
          apply hq.of_granted
          intro a ha hga
          by_cases hfresh : a = q.fresh
          · subst hfresh
            simp at hga
          · simp only [emplaceBack_requestQueue, List.mem_append, List.mem_singleton,
              hfresh, or_false] at ha
            exact ⟨ha, by simp [Function.update_of_ne hfresh]⟩
      | startUpgrade r mode hmem htxn hmode =>
          apply hq.of_granted
          intro a ha hga
          by_cases har : a = r
          · subst har
            simp at hga
          · exact ⟨ha, by simp [Function.update_of_ne har]⟩
      | grant r halloc htxn hcompat => exact grantedCompatible_grant hq hcompat
      | endUpgrade => exact hq
  | erase r hholds =>
      apply hq.of_granted
      intro a ha hga
      exact ⟨List.mem_of_mem_erase ha, rfl⟩

end LockRequestQueue

namespace LockManager

open LockRequestQueue Relation

variable {noWait : Bool} {σ σ' : LockManager} {action : Action} {event : Event}

/-- A parked call waits for an allocated request of its own transaction. -/
def WaitersOwn (σ : LockManager) : Prop :=
  ∀ thread txn mode item path p,
    σ.calls thread = some (.lock txn mode item (.waiting path p)) →
      p < (σ.lockMap item).fresh ∧ ((σ.lockMap item).requests p).txnId = txn

theorem Prepare.moves {txn : TxnId} {mode : LockMode} {q q' : LockRequestQueue}
    {pc : LockPc} {path : WaitPath} {p : Nat} (h : Prepare txn mode q pc path p q') :
    ReflTransGen (LockMove txn) q q' := by
  cases h with
  | new hnew => exact .single (.emplaceBack q mode hnew)
  | same _ hmem htxn hmode hwait => exact .refl
  | upgrade _ hmem htxn hmode hfree hlegal =>
      exact .single (.startUpgrade q p mode hmem htxn hlegal)
  | recheck => exact .refl

theorem Prepare.owner {txn : TxnId} {mode : LockMode} {item : LockDataId}
    {q : LockRequestQueue} {thread : Nat} {pc : LockPc} {path : WaitPath} {p : Nat}
    (hown : WaitersOwn σ) (hcall : σ.calls thread = some (.lock txn mode item pc))
    (h : Prepare txn mode (σ.lockMap item) pc path p q) :
    p < q.fresh ∧ (q.requests p).txnId = txn := by
  cases h with
  | new hnew => exact ⟨by simp, by simp⟩
  | same _ hmem htxn hmode hwait => exact ⟨(σ.lockMap item).allocated p hmem, htxn⟩
  | upgrade _ hmem htxn hmode hfree hlegal =>
      exact ⟨(σ.lockMap item).allocated p hmem, by simpa using htxn⟩
  | recheck => exact hown thread txn mode item path p hcall

theorem granting_moves {txn : TxnId} {q : LockRequestQueue} {path : WaitPath} {p : Nat}
    (halloc : p < q.fresh) (htxn : (q.requests p).txnId = txn)
    (hcompat : q.checkQueueCompatible p = true) :
    ReflTransGen (LockMove txn) q (granting q path p) := by
  unfold granting
  split
  · exact (ReflTransGen.single (.endUpgrade q)).tail (.grant _ p halloc htxn hcompat)
  · exact .single (.grant q p halloc htxn hcompat)

/-- A step changes the queues either by the moves of a lock call or by the one
erasure of an `Unlock` section. -/
theorem Effect.lockMap (hown : WaitersOwn σ) (h : Effect noWait σ action event σ') :
    (∀ item, ReflTransGen (LockMove event.txn) (σ.lockMap item) (σ'.lockMap item)) ∨
      ∃ thread call call' item p, σ.calls thread = some call ∧
        Unlocking event.txn item call call' ∧ (σ.lockMap item).Holds event.txn p ∧
        σ'.lockMap = Function.update σ.lockMap item ((σ.lockMap item).erase p) := by
  have hset {txn : TxnId} (item' : LockDataId) (q : LockRequestQueue)
      (hq : ReflTransGen (LockMove txn) (σ.lockMap item') q) :
      ∀ item, ReflTransGen (LockMove txn) (σ.lockMap item)
        (Function.update σ.lockMap item' q item) := by
    apply (Function.forall_update_iff σ.lockMap
      (fun item q => ReflTransGen (LockMove txn) (σ.lockMap item) q)).mpr
    exact ⟨hq, fun _ _ => .refl⟩
  cases h with
  | parked thread txn mode item' pc path p q hcall hprepare =>
      exact .inl (hset item' q hprepare.moves)
  | refused thread txn mode item' pc path p q hcall hprepare =>
      exact .inl (hset item' q hprepare.moves)
  | acquired thread txn mode item' pc path p q hcall hprepare hcompat =>
      obtain ⟨halloc, htxn⟩ := hprepare.owner hown hcall
      exact .inl (hset item' _ (hprepare.moves.trans (granting_moves halloc htxn hcompat)))
  | unlockHit thread txn item' call call' p txn' hcall hunlocking hfind =>
      exact .inr ⟨thread, call, call', item', p, hcall, hunlocking,
        findGranted_some hfind, rfl⟩
  | _ => exact .inl fun _ => .refl

/-- Every step changes every queue by moves of the transaction it acts for. -/
theorem Effect.moves (hown : WaitersOwn σ) (h : Effect noWait σ action event σ')
    (item : LockDataId) :
    ReflTransGen (Move event.txn) (σ.lockMap item) (σ'.lockMap item) := by
  rcases h.lockMap hown with hlock | ⟨_, _, _, item', p, _, _, hholds, hmap⟩
  · exact ReflTransGen.mono (fun _ _ hmove => Move.lock hmove) _ _ (hlock item)
  · rw [hmap]
    by_cases heq : item = item'
    · subst heq
      rw [Function.update_self]
      exact .single (.erase _ p hholds)
    · rw [Function.update_of_ne heq]

theorem moves_owner {txn : TxnId} {q q' : LockRequestQueue} {p : Nat}
    (h : ReflTransGen (Move txn) q q') (hp : p < q.fresh) :
    p < q'.fresh ∧ (q'.requests p).txnId = (q.requests p).txnId := by
  induction h with
  | refl => exact ⟨hp, rfl⟩
  | tail _ hmove ih =>
      obtain ⟨hlt, htxn⟩ := ih
      obtain ⟨hlt', htxn'⟩ := hmove.owner hlt
      exact ⟨hlt', htxn'.trans htxn⟩

/-- Only the acting thread's call changes, and it parks only where `Prepare`
left it. -/
theorem Effect.calls (h : Effect noWait σ action event σ') :
    σ'.calls = σ.calls ∨
      ∃ thread call, σ'.calls = Function.update σ.calls thread call ∧
        ∀ txn mode item path p, call = some (.lock txn mode item (.waiting path p)) →
          ∃ pc, σ.calls thread = some (.lock txn mode item pc) ∧
            Prepare txn mode (σ.lockMap item) pc path p (σ'.lockMap item) := by
  cases h with
  | parked thread txn mode item pc path p q hcall hprepare =>
      refine .inr ⟨thread, _, rfl, ?_⟩
      intro txn' mode' item' path' p' heq
      cases heq
      exact ⟨pc, hcall, by simpa using hprepare⟩
  | managerWrote txn write => exact .inl rfl
  | unlockHit thread txn item call call' p txn' hcall hunlocking =>
      refine .inr ⟨thread, _, rfl, ?_⟩
      intro txn mode item path p heq
      exact absurd (Option.some.inj heq) hunlocking.ne_lock
  | unlockMiss thread txn item call call' hcall hunlocking =>
      refine .inr ⟨thread, _, rfl, ?_⟩
      intro txn mode item path p heq
      exact absurd (Option.some.inj heq) hunlocking.ne_lock
  | erased thread txn item call call' event hcall herasing =>
      refine .inr ⟨thread, _, rfl, ?_⟩
      intro txn mode item path p heq
      exact absurd heq herasing.ne_lock
  | _ => exact .inr ⟨_, _, rfl, by simp⟩

/-- A call found parked after a step was parked there before, or has just come
to stand before its wait. -/
theorem Effect.parked_before {thread : Nat} {txn : TxnId} {mode : LockMode}
    {item : LockDataId} {path : WaitPath} {p : Nat} (h : Effect noWait σ action event σ')
    (hcall : σ'.calls thread = some (.lock txn mode item (.waiting path p))) :
    σ.calls thread = some (.lock txn mode item (.waiting path p)) ∨
      ∃ pc, σ.calls thread = some (.lock txn mode item pc) ∧
        Prepare txn mode (σ.lockMap item) pc path p (σ'.lockMap item) := by
  rcases h.calls with hsame | ⟨actor, call, hcalls, hprepared⟩
  · rw [hsame] at hcall
    exact .inl hcall
  · rcases calls_of_update hcalls hcall with ⟨rfl, hset⟩ | hold
    · exact .inr (hprepared txn mode item path p hset)
    · exact .inl hold

theorem Effect.waitersOwn (hown : WaitersOwn σ) (h : Effect noWait σ action event σ') :
    WaitersOwn σ' := by
  intro thread txn mode item path p hcall
  rcases h.parked_before hcall with hold | ⟨pc, hcall', hprepare⟩
  · obtain ⟨hlt, htxn⟩ := hown thread txn mode item path p hold
    obtain ⟨hlt', htxn'⟩ := moves_owner (h.moves hown item) hlt
    exact ⟨hlt', htxn'.trans htxn⟩
  · exact hprepare.owner hown hcall'

theorem waitersOwn_init : WaitersOwn init := by
  intro thread txn mode item path p hcall
  simp [init] at hcall

theorem moves_preserve {Inv : LockRequestQueue → Prop}
    (hmove : ∀ txn q q', Move txn q q' → Inv q → Inv q')
    {txn : TxnId} {q q' : LockRequestQueue} (h : ReflTransGen (Move txn) q q')
    (hq : Inv q) : Inv q' := by
  induction h with
  | refl => exact hq
  | tail _ hlast ih => exact hmove _ _ _ hlast ih

/-- An invariant of queues that every move keeps holds of every queue in every
reachable state. -/
theorem run_queue_invariant {Inv : LockRequestQueue → Prop} (hempty : Inv .empty)
    (hmove : ∀ txn q q', Move txn q q' → Inv q → Inv q')
    {trace : List (Action × Event)} (h : Run noWait init trace σ) (item : LockDataId) :
    Inv (σ.lockMap item) := by
  have hboth : WaitersOwn σ ∧ ∀ item, Inv (σ.lockMap item) := by
    refine Lts.Run.preserves (fun σ => WaitersOwn σ ∧ ∀ item, Inv (σ.lockMap item))
      ?_ h ⟨waitersOwn_init, fun _ => hempty⟩
    rintro s label t hstep ⟨hown, hinv⟩
    have heffect := step_effect hstep
    refine ⟨heffect.waitersOwn hown, ?_⟩
    intro item
    exact moves_preserve hmove (heffect.moves hown item) (hinv item)
  exact hboth.2 item

theorem run_grantedCompatible {trace : List (Action × Event)}
    (h : Run noWait init trace σ) (item : LockDataId) :
    (σ.lockMap item).GrantedCompatible :=
  run_queue_invariant grantedCompatible_empty (fun _ _ _ hmove => hmove.grantedCompatible)
    h item

/-- An intention-shared and an intention-exclusive lock on table 0. -/
def intentionPair : List Action :=
  [.invoke 0 1 (.lockTable .intentionShared 0), .resume 0,
    .invoke 1 2 (.lockTable .intentionExclusive 0), .resume 1]

end LockManager

end RucDDBS
