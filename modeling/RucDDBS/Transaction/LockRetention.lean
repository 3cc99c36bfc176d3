import RucDDBS.Transaction.LockCompatibility
import Mathlib.Tactic.IntervalCases

/-!
How long a returned lock protects its item. An upgrade rewrites the request and
withdraws its grant before it waits, so while the upgrade waits, and for good
after it has failed, other transactions see nothing of the old lock. The module
shows that this is the only way to lose a lock that was not unlocked, as long
as the lock and unlock calls of one transaction on one item do not overlap.
-/

namespace RucDDBS

namespace LockRequestQueue

variable {txn txn' : TxnId} {q q' : LockRequestQueue} {mode : LockMode} {p : Nat}

/-- The request at `p` is listed, belongs to `txn` and excludes at least what a
lock in `mode` excludes. -/
def Listed (q : LockRequestQueue) (txn : TxnId) (mode : LockMode) (p : Nat) : Prop :=
  p ∈ q.requestQueue ∧ (q.requests p).txnId = txn ∧ Covers (q.requests p).lockMode mode

/-- A granted request of `txn` excludes at least what a lock in `mode` does. -/
def Protects (q : LockRequestQueue) (txn : TxnId) (mode : LockMode) : Prop :=
  ∃ p, q.Listed txn mode p ∧ (q.requests p).granted = true

theorem Listed.move_of_ne (h : Move txn' q q') (hne : txn' ≠ txn)
    (hp : q.Listed txn mode p) :
    q'.Listed txn mode p ∧ q'.requests p = q.requests p := by
  obtain ⟨hmem, htxn, hcovers⟩ := hp
  have hother : (q.requests p).txnId ≠ txn' := by
    rw [htxn]
    exact hne.symm
  obtain ⟨hsame, hlist⟩ := h.others (q.allocated p hmem) hother
  refine ⟨⟨hlist.mpr hmem, ?_, ?_⟩, hsame⟩
  · rw [hsame]
    exact htxn
  · rw [hsame]
    exact hcovers

theorem Listed.lockMove (h : LockMove txn' q q') (hp : q.Listed txn mode p) :
    q'.Listed txn mode p := by
  obtain ⟨hmem, htxn, hcovers⟩ := hp
  cases h with
  | emplaceBack mode' hnew =>
      have hfresh : p ≠ q.fresh := Nat.ne_of_lt (q.allocated p hmem)
      refine ⟨by simp [hmem], ?_, ?_⟩ <;> simpa [Function.update_of_ne hfresh]
  | startUpgrade r mode' hr hrtxn hlegal =>
      by_cases hpr : p = r
      · subst hpr
        refine ⟨hmem, by simpa using htxn, ?_⟩
        simpa using (isUpdateCompatible_covers hlegal).trans hcovers
      · refine ⟨hmem, ?_, ?_⟩ <;> simpa [Function.update_of_ne hpr]
  | grant r halloc hrtxn hcompat =>
      by_cases hpr : p = r
      · subst hpr
        exact ⟨hmem, by simpa using htxn, by simpa using hcovers⟩
      · refine ⟨hmem, ?_, ?_⟩ <;> simpa [Function.update_of_ne hpr]
  | endUpgrade => exact ⟨hmem, htxn, hcovers⟩

theorem Listed.lockMoves (h : Relation.ReflTransGen (LockMove txn') q q')
    (hp : q.Listed txn mode p) : q'.Listed txn mode p := by
  induction h with
  | refl => exact hp
  | tail _ hmove ih => exact ih.lockMove hmove

theorem Listed.moves_of_ne (h : Relation.ReflTransGen (Move txn') q q') (hne : txn' ≠ txn)
    (hp : q.Listed txn mode p) : q'.Listed txn mode p := by
  induction h with
  | refl => exact hp
  | tail _ hmove ih => exact (ih.move_of_ne hmove hne).1

theorem Protects.moves_of_ne (h : Relation.ReflTransGen (Move txn') q q')
    (hne : txn' ≠ txn) (hq : q.Protects txn mode) : q'.Protects txn mode := by
  induction h with
  | refl => exact hq
  | tail _ hmove ih =>
      obtain ⟨p, hlisted, hgranted⟩ := ih
      obtain ⟨hlisted', hsame⟩ := hlisted.move_of_ne hmove hne
      exact ⟨p, hlisted', by rwa [hsame]⟩

/-- Granting a listed request, whether or not an upgrade ends with it, makes it
protect its item and takes nothing from other requests. -/
theorem Listed.protects_granting {path : WaitPath} (hp : q.Listed txn mode p) :
    (LockManager.granting q path p).Protects txn mode := by
  obtain ⟨hmem, htxn, hcovers⟩ := hp
  refine ⟨p, ⟨?_, ?_, ?_⟩, ?_⟩ <;> simp [hmem, htxn, hcovers]

theorem Protects.granting {path : WaitPath} {r : Nat} (hq : q.Protects txn mode) :
    (LockManager.granting q path r).Protects txn mode := by
  obtain ⟨p, hlisted, hgranted⟩ := hq
  by_cases hpr : p = r
  · subst hpr
    exact hlisted.protects_granting
  · obtain ⟨hmem, htxn, hcovers⟩ := hlisted
    refine ⟨p, ⟨?_, ?_, ?_⟩, ?_⟩ <;> simpa [Function.update_of_ne hpr]

/-- Two modes that protect one item for different transactions are compatible. -/
theorem Protects.compatible {mode' : LockMode} (hq : q.GrantedCompatible) (h : q.Protects txn mode)
    (h' : q.Protects txn' mode') (hne : txn ≠ txn') :
    isLockCompatible ⟨txn, mode, true⟩ mode' = true := by
  obtain ⟨p, ⟨hmem, htxn, hcovers⟩, hgranted⟩ := h
  obtain ⟨r, ⟨hmem', htxn', hcovers'⟩, hgranted'⟩ := h'
  have hpr : isLockCompatible (q.requests p) (q.requests r).lockMode = true := by
    apply hq p r hmem hmem' hgranted hgranted'
    rw [htxn, htxn']
    exact hne
  have hmode' : isLockCompatible (q.requests p) mode' = true := hcovers' _ hpr
  rw [isLockCompatible_symm (q.requests p) ⟨txn', mode', true⟩] at hmode'
  rw [isLockCompatible_symm ⟨txn, mode, true⟩ ⟨txn', mode', true⟩]
  exact hcovers _ hmode'

end LockRequestQueue

namespace LockManager

open LockRequestQueue Relation

variable {noWait : Bool} {σ σ' : LockManager} {action : Action} {event : Event}

def LocksOn (σ : LockManager) (txn : TxnId) (item : LockDataId) : Prop :=
  ∃ thread mode pc, σ.calls thread = some (.lock txn mode item pc)

/-- An unlock call on the item is in progress, or a `ReleaseLocks`, which may
reach any item. -/
def UnlocksOn (σ : LockManager) (txn : TxnId) (item : LockDataId) : Prop :=
  (∃ thread pc, σ.calls thread = some (.unlock txn item pc)) ∨
    ∃ thread loops ahead current, σ.calls thread = some (.release txn loops ahead current)

def NoOverlap (σ : LockManager) : Prop :=
  ∀ txn item, ¬ (σ.LocksOn txn item ∧ σ.UnlocksOn txn item)

/-- A lock call that is about to open an upgrade gets it in the same latch
section: the new mode is compatible with the other granted requests and the
transaction has not been aborted. -/
def UpgradesAtOnce (σ : LockManager) (action : Action) : Prop :=
  ∀ thread txn mode item p, action = .resume thread →
    σ.calls thread = some (.lock txn mode item .enter) →
    p ∈ (σ.lockMap item).requestQueue →
    ((σ.lockMap item).requests p).txnId = txn →
    ((σ.lockMap item).requests p).lockMode ≠ mode →
    (σ.lockMap item).upgrading = false →
    isUpdateCompatible ((σ.lockMap item).requests p) mode = true →
    ((σ.lockMap item).startUpgrade p mode).checkQueueCompatible p = true ∧
      (σ.txns txn).state ≠ .aborted

/-- The condition on the state before a step under which locks are kept. -/
def Careful (σ : LockManager) (action : Action) : Prop :=
  σ.NoOverlap ∧ σ.UpgradesAtOnce action

def CarefulStep (noWait : Bool) (σ : LockManager) (label : Action × Event)
    (σ' : LockManager) : Prop :=
  σ.Careful label.1 ∧ Step noWait σ label σ'

/-- A parked call waits for a listed request of its own transaction that covers
the mode it asked for. -/
def WaitersListed (σ : LockManager) : Prop :=
  ∀ thread txn mode item path p,
    σ.calls thread = some (.lock txn mode item (.waiting path p)) →
      (σ.lockMap item).Listed txn mode p

/-- No call of `txn` stands before the latch of `Unlock` for `item`. -/
def NotUnlocking (σ : LockManager) (txn : TxnId) (item : LockDataId) : Prop :=
  ∀ thread call call', σ.calls thread = some call → ¬ Unlocking txn item call call'

theorem Unlocking.unlocksOn {thread : Nat} {txn : TxnId} {item : LockDataId}
    {call call' : Call} (hcall : σ.calls thread = some call)
    (h : Unlocking txn item call call') : σ.UnlocksOn txn item := by
  cases h with
  | call => exact .inl ⟨thread, .latch, hcall⟩
  | loop loops ahead => exact .inr ⟨thread, loops, ahead, _, hcall⟩

section OwnLockCalls

variable {txn : TxnId} {mode held : LockMode} {q q' : LockRequestQueue} {pc : LockPc}
  {path : WaitPath} {p : Nat}

/-- A call of the same transaction that gets its lock leaves the item at least
as well protected as before. -/
theorem Prepare.protects_granting (h : Prepare txn mode q pc path p q')
    (hq : q.Protects txn held) : (granting q' path p).Protects txn held := by
  cases h with
  | new hnew =>
      obtain ⟨r, hlisted, _⟩ := hq
      exact absurd hlisted.2.1 (hnew r hlisted.1)
  | same _ hmem htxn hmode hwait => exact hq.granting
  | recheck => exact hq.granting
  | upgrade _ hmem htxn hmode hfree hlegal =>
      obtain ⟨r, hlisted, hgranted⟩ := hq
      have hlisted' := hlisted.lockMove (.startUpgrade q p mode hmem htxn hlegal)
      by_cases hrp : r = p
      · subst hrp
        exact hlisted'.protects_granting
      · apply Protects.granting
        exact ⟨r, hlisted', by simpa [Function.update_of_ne hrp] using hgranted⟩

/-- Apart from an upgrade, standing before the wait predicate takes no lock
away. -/
theorem Prepare.protects (h : Prepare txn mode q pc path p q')
    (hpath : ¬ (pc = .enter ∧ path = .upgrade)) (hq : q.Protects txn held) :
    q'.Protects txn held := by
  cases h with
  | new hnew =>
      obtain ⟨r, hlisted, _⟩ := hq
      exact absurd hlisted.2.1 (hnew r hlisted.1)
  | same _ hmem htxn hmode hwait => exact hq
  | recheck => exact hq
  | upgrade _ hmem htxn hmode hfree hlegal => exact absurd ⟨rfl, rfl⟩ hpath

/-- X cannot be upgraded, so an exclusive lock survives even the opening of an upgrade. -/
theorem Prepare.protects_exclusive (h : Prepare txn mode q pc path p q')
    (hq : q.Protects txn .exlucsive) : q'.Protects txn .exlucsive := by
  cases h with
  | new hnew => exact Prepare.protects (.new hnew) (by simp) hq
  | same _ hmem htxn hmode hwait => exact hq
  | recheck => exact hq
  | upgrade _ hmem htxn hmode hfree hlegal =>
      obtain ⟨r, hlisted, hgranted⟩ := hq
      have hrp : r ≠ p := by
        rintro rfl
        have hmode' := covers_exlucsive hlisted.2.2
        simp [isUpdateCompatible, hmode'] at hlegal
      refine ⟨r, hlisted.lockMove (.startUpgrade q p mode hmem htxn hlegal), ?_⟩
      simpa [Function.update_of_ne hrp] using hgranted

theorem Prepare.listed (h : Prepare txn mode q pc path p q')
    (hwaiting : ∀ path p, pc = .waiting path p → q.Listed txn mode p) :
    q'.Listed txn mode p := by
  cases h with
  | new hnew => exact ⟨by simp, by simp, by simpa using Covers.refl mode⟩
  | same _ hmem htxn hmode hwait => exact ⟨hmem, htxn, hmode ▸ Covers.refl _⟩
  | upgrade _ hmem htxn hmode hfree hlegal =>
      exact ⟨hmem, by simpa using htxn, by simpa using Covers.refl mode⟩
  | recheck => exact hwaiting path p rfl

theorem WaitersListed.waiting {thread : Nat} {item : LockDataId} (hlisted : WaitersListed σ)
    (hcall : σ.calls thread = some (.lock txn mode item pc)) (path : WaitPath) (p : Nat)
    (hpc : pc = .waiting path p) : (σ.lockMap item).Listed txn mode p := by
  subst hpc
  exact hlisted thread txn mode item path p hcall

end OwnLockCalls

/-- The upgrade branch, entered under the condition, neither parks nor fails. -/
theorem UpgradesAtOnce.upgrade {thread : Nat} {txn : TxnId} {mode : LockMode}
    {item : LockDataId} {pc : LockPc} {path : WaitPath} {p : Nat} {q : LockRequestQueue}
    (hcond : σ.UpgradesAtOnce (.resume thread))
    (hcall : σ.calls thread = some (.lock txn mode item pc))
    (hprepare : Prepare txn mode (σ.lockMap item) pc path p q)
    (hpath : pc = .enter ∧ path = .upgrade) :
    q.checkQueueCompatible p = true ∧ (σ.txns txn).state ≠ .aborted := by
  obtain ⟨rfl, rfl⟩ := hpath
  cases hprepare with
  | upgrade _ hmem htxn hmode hfree hlegal =>
      exact hcond thread txn mode item p rfl hcall hmem htxn hmode hfree hlegal

theorem Effect.protects {txn : TxnId} {item : LockDataId} {held : LockMode}
    (hown : WaitersOwn σ) (hcond : σ.Careful action) (hnot : σ.NotUnlocking txn item)
    (h : Effect noWait σ action event σ') (hq : (σ.lockMap item).Protects txn held) :
    (σ'.lockMap item).Protects txn held := by
  rcases ne_or_eq event.txn txn with hne | heq
  · exact hq.moves_of_ne (h.moves hown item) hne
  have hset {item' : LockDataId} {q : LockRequestQueue}
      (hq' : item = item' → q.Protects txn held) :
      (Function.update σ.lockMap item' q item).Protects txn held := by
    rw [Function.update_apply]
    split
    case isTrue heq => exact hq' heq
    case isFalse => exact hq
  -- the step acts for `txn` itself: only its own sections can change the queue
  cases h with
  | parked thread txn' mode item' pc path p q hcall hprepare hwait hcompat =>
      cases heq
      apply hset
      rintro rfl
      apply hprepare.protects _ hq
      intro hpath
      have hgood := (hcond.2.upgrade hcall hprepare hpath).1
      simp [hgood] at hcompat
  | refused thread txn' mode item' pc path p q hcall hprepare hbad =>
      cases heq
      apply hset
      rintro rfl
      apply hprepare.protects _ hq
      intro hpath
      obtain ⟨hgood, hstate⟩ := hcond.2.upgrade hcall hprepare hpath
      simp [hgood, hstate] at hbad
  | acquired thread txn' mode item' pc path p q hcall hprepare =>
      cases heq
      apply hset
      rintro rfl
      exact hprepare.protects_granting hq
  | unlockHit thread txn' item' call call' p t hcall hunlocking =>
      cases heq
      apply hset
      rintro rfl
      exact absurd hunlocking (hnot thread call call' hcall)
  | _ => exact hq

theorem Effect.waitersListed (hown : WaitersOwn σ) (hlisted : WaitersListed σ)
    (hcond : σ.NoOverlap) (h : Effect noWait σ action event σ') : WaitersListed σ' := by
  intro thread txn mode item path p hcall
  rcases h.parked_before hcall with hold | ⟨pc, hcall', hprepare⟩
  · have hp := hlisted thread txn mode item path p hold
    rcases h.lockMap hown with hlock | ⟨actor, call, call', item', r, hactor, hunlocking, hholds, hmap⟩
    · exact hp.lockMoves (hlock item)
    · rw [hmap, Function.update_apply]
      split
      case isTrue heq =>
        -- an unlock of the same transaction would overlap with the parked call
        subst heq
        have hne : event.txn ≠ txn := by
          intro htxn
          rw [htxn] at hunlocking
          exact hcond txn item ⟨⟨thread, mode, _, hold⟩, hunlocking.unlocksOn hactor⟩
        exact (hp.move_of_ne (.erase _ r hholds) hne).1
      case isFalse => exact hp
  · exact hprepare.listed (hlisted.waiting hcall')

/-- A call comes to stand before the latch of `Unlock` only by an event that
says so. -/
theorem Effect.notUnlocking {txn : TxnId} {item : LockDataId}
    (hnot : σ.NotUnlocking txn item) (hevent : event ≠ .unlockCalled txn item)
    (h : Effect noWait σ action event σ') : σ'.NotUnlocking txn item := by
  have hset {actor : Nat} {next : Option Call}
      (hnext : ∀ call call', next = some call → ¬ Unlocking txn item call call') :
      ∀ thread call call', Function.update σ.calls actor next thread = some call →
        ¬ Unlocking txn item call call' := by
    apply (Function.forall_update_iff σ.calls (fun _ current => ∀ call call',
      current = some call → ¬ Unlocking txn item call call')).mpr
    exact ⟨hnext, fun thread _ => hnot thread⟩
  cases h with
  | unlockBegun thread txn' op item' hidle hitem =>
      apply hset
      intro call call' hcall hunlocking
      cases hcall
      cases hunlocking
      exact hevent rfl
  | releaseVisited thread txn' loops item' ahead hcall =>
      apply hset
      intro call call' hcall hunlocking
      cases hcall
      cases hunlocking
      exact hevent rfl
  | unlockHit thread txn' item' call call' p t hcall hunlocking =>
      apply hset
      intro after after' heq hafter
      cases heq
      cases hunlocking <;> cases hafter
  | unlockMiss thread txn' item' call call' hcall hunlocking =>
      apply hset
      intro after after' heq hafter
      cases heq
      cases hunlocking <;> cases hafter
  | erased thread txn' item' call call' event hcall herasing =>
      apply hset
      intro after after' heq hafter
      cases herasing <;> cases heq
      cases hafter
  | managerWrote txn' write => exact hnot
  | _ =>
      apply hset
      intro after after' heq hafter
      cases heq <;> cases hafter

/-- When a lock call returns true its mode is protected, and no unlock call of
the transaction on the item is under way. -/
theorem Effect.granted_protects {txn : TxnId} {mode : LockMode} {item : LockDataId}
    (hlisted : WaitersListed σ) (hcond : σ.NoOverlap)
    (h : Effect noWait σ action (.granted txn mode item) σ') :
    (σ'.lockMap item).Protects txn mode ∧ σ'.NotUnlocking txn item := by
  have hquiet {thread : Nat} {pc : LockPc}
      (hcall : σ.calls thread = some (.lock txn mode item pc)) :
      σ'.NotUnlocking txn item := by
    refine Effect.notUnlocking ?_ (by simp) h
    intro actor call call' hactor hunlocking
    exact hcond txn item ⟨⟨thread, mode, pc, hcall⟩, hunlocking.unlocksOn hactor⟩
  cases h with
  | held thread _ _ _ p hcall hholds hmode =>
      obtain ⟨hmem, htxn, hgranted⟩ := hholds
      exact ⟨⟨p, ⟨hmem, htxn, hmode ▸ Covers.refl _⟩, hgranted⟩, hquiet hcall⟩
  | acquired thread _ _ _ pc path p q hcall hprepare hcompat hstate =>
      refine ⟨?_, hquiet hcall⟩
      have hprotects : (granting q path p).Protects txn mode :=
        (hprepare.listed (hlisted.waiting hcall)).protects_granting
      simpa using hprotects
  | erased _ _ _ _ _ _ _ herasing => cases herasing

/-- What careful runs maintain about parked calls. -/
def WaitersOk (σ : LockManager) : Prop := WaitersOwn σ ∧ WaitersListed σ

theorem CarefulStep.waitersOk {label : Action × Event}
    (h : CarefulStep noWait σ label σ') (hok : σ.WaitersOk) : σ'.WaitersOk := by
  obtain ⟨hcond, hstep⟩ := h
  have heffect := step_effect hstep
  exact ⟨heffect.waitersOwn hok.1, heffect.waitersListed hok.1 hok.2 hcond.1⟩

theorem carefulRun_waitersOk {trace : List (Action × Event)}
    (h : Lts.Run (CarefulStep noWait) init trace σ) : σ.WaitersOk := by
  refine Lts.Run.preserves WaitersOk ?_ h ⟨waitersOwn_init, ?_⟩
  · intro s label t hstep hok
    exact hstep.waitersOk hok
  · intro thread txn mode item path p hcall
    simp [init] at hcall

theorem carefulRun_protects {trace : List (Action × Event)} {txn : TxnId}
    {mode : LockMode} {item : LockDataId}
    (h : Lts.Run (CarefulStep noWait) σ trace σ')
    (hnone : ∀ label ∈ trace, label.2 ≠ .unlockCalled txn item) (hok : σ.WaitersOk)
    (hprotects : (σ.lockMap item).Protects txn mode) (hnot : σ.NotUnlocking txn item) :
    σ'.WaitersOk ∧ (σ'.lockMap item).Protects txn mode ∧ σ'.NotUnlocking txn item := by
  refine Lts.Run.preserves_labels
    (fun σ => σ.WaitersOk ∧ (σ.lockMap item).Protects txn mode ∧ σ.NotUnlocking txn item)
    (fun label => label.2 ≠ .unlockCalled txn item) ?_ h hnone ⟨hok, hprotects, hnot⟩
  rintro s label t hstep hevent ⟨hok, hprotects, hnot⟩
  have heffect := step_effect hstep.2
  exact ⟨hstep.waitersOk hok, heffect.protects hok.1 hstep.1 hnot hprotects,
    heffect.notUnlocking hnot hevent⟩

/-- A returned lock is kept until its owner calls unlock, in every run whose
steps all meet the condition `Careful`. -/
theorem held_lock_is_kept {σ₁ σ₂ σ₃ σ₄ : LockManager}
    {before during : List (Action × Event)} {action action' : Action}
    {txn txn' : TxnId} {mode mode' : LockMode} {item : LockDataId}
    (hbefore : Lts.Run (CarefulStep noWait) init before σ₁)
    (hreturn : CarefulStep noWait σ₁ (action, .granted txn mode item) σ₂)
    (hduring : Lts.Run (CarefulStep noWait) σ₂ during σ₃)
    (hnone : ∀ label ∈ during, label.2 ≠ .unlockCalled txn item)
    (hother : CarefulStep noWait σ₃ (action', .granted txn' mode' item) σ₄)
    (hne : txn' ≠ txn) :
    isLockCompatible ⟨txn, mode, true⟩ mode' = true ∧
      isLockCompatible ⟨txn', mode', true⟩ mode = true := by
  have hok₁ := carefulRun_waitersOk hbefore
  obtain ⟨hprotects₂, hnot₂⟩ := (step_effect hreturn.2).granted_protects hok₁.2 hreturn.1.1
  obtain ⟨hok₃, hprotects₃, hnot₃⟩ := carefulRun_protects hduring hnone
    (hreturn.waitersOk hok₁) hprotects₂ hnot₂
  have heffect := step_effect hother.2
  have hprotects₄ := heffect.protects hok₃.1 hother.1 hnot₃ hprotects₃
  have hprotects₄' := (heffect.granted_protects hok₃.2 hother.1.1).1
  have hrun : Run noWait init _ σ₄ :=
    Lts.Run.mono (fun _ _ _ h => h.2)
      (hbefore.append (.cons hreturn (hduring.append (.single hother))))
  have hcompat := run_grantedCompatible hrun item
  exact ⟨hprotects₄.compatible hcompat hprotects₄' hne.symm,
    hprotects₄'.compatible hcompat hprotects₄ hne⟩

theorem noOverlap_of_lock_calls
    (h : ∀ thread call, σ.calls thread = some call →
      ∃ txn mode item pc, call = .lock txn mode item pc) : σ.NoOverlap := by
  rintro txn item ⟨-, ⟨thread, pc, hcall⟩ | ⟨thread, loops, ahead, current, hcall⟩⟩
  · obtain ⟨_, _, _, _, hlock⟩ := h thread _ hcall
    cases hlock
  · obtain ⟨_, _, _, _, hlock⟩ := h thread _ hcall
    cases hlock

/-- Transaction 1 takes IS on table 0 and upgrades it to IX while it is alone.
Transaction 2 then takes IS. -/
def loneUpgrade : List Action :=
  [.invoke 0 1 (.lockTable .intentionShared 0), .resume 0,
    .invoke 0 1 (.lockTable .intentionExclusive 0), .resume 0,
    .invoke 1 2 (.lockTable .intentionShared 0), .resume 1]

theorem loneUpgrade_keeps_lock :
    isLockCompatible ⟨1, .intentionShared, true⟩ .intentionShared = true ∧
      isLockCompatible ⟨2, .intentionShared, true⟩ .intentionShared = true := by
  have hoverlap (n : Nat) (hn : n < 6) : (after false (loneUpgrade.take n)).NoOverlap := by
    apply noOverlap_of_lock_calls
    interval_cases n <;> rintro (_ | _ | thread) call hcall <;> cases hcall <;>
      exact ⟨_, _, _, _, rfl⟩
  have hinvoke (σ : LockManager) (thread : Nat) (txn : TxnId) (op : Op) :
      σ.UpgradesAtOnce (.invoke thread txn op) := by
    intro _ _ _ _ _ heq
    cases heq
  -- the first and the last section append a new request, the second upgrades
  have hfirst : (after false (loneUpgrade.take 1)).UpgradesAtOnce (.resume 0) := by
    rintro thread txn mode item p heq hcall hmem
    cases heq
    cases hcall
    exact absurd (show p ∈ [] from hmem) (by simp)
  have hsecond : (after false (loneUpgrade.take 3)).UpgradesAtOnce (.resume 0) := by
    rintro thread txn mode item p heq hcall hmem htxn hmode hfree hlegal
    cases heq
    cases hcall
    have hp : p = 0 := by simpa using (show p ∈ [0] from hmem)
    subst hp
    exact ⟨rfl, by decide⟩
  have hlast : (after false (loneUpgrade.take 5)).UpgradesAtOnce (.resume 1) := by
    rintro thread txn mode item p heq hcall hmem htxn
    cases heq
    cases hcall
    have hp : p = 0 := by simpa using (show p ∈ [0] from hmem)
    subst hp
    exact absurd htxn (by decide)
  have hbefore : Lts.Run (CarefulStep false) init
      [(.invoke 0 1 (.lockTable .intentionShared 0), .progress 1)]
      (after false (loneUpgrade.take 1)) :=
    .single ⟨⟨hoverlap 0 (by omega), hinvoke _ _ _ _⟩, rfl⟩
  have hreturn : CarefulStep false (after false (loneUpgrade.take 1))
      (.resume 0, .granted 1 .intentionShared (.ofTable 0))
      (after false (loneUpgrade.take 2)) := ⟨⟨hoverlap 1 (by omega), hfirst⟩, rfl⟩
  have hduring : Lts.Run (CarefulStep false) (after false (loneUpgrade.take 2))
      [(.invoke 0 1 (.lockTable .intentionExclusive 0), .progress 1),
        (.resume 0, .granted 1 .intentionExclusive (.ofTable 0)),
        (.invoke 1 2 (.lockTable .intentionShared 0), .progress 2)]
      (after false (loneUpgrade.take 5)) :=
    .cons (t := after false (loneUpgrade.take 3))
      ⟨⟨hoverlap 2 (by omega), hinvoke _ _ _ _⟩, rfl⟩
      (.cons (t := after false (loneUpgrade.take 4)) ⟨⟨hoverlap 3 (by omega), hsecond⟩, rfl⟩
        (.single ⟨⟨hoverlap 4 (by omega), hinvoke _ _ _ _⟩, rfl⟩))
  have hother : CarefulStep false (after false (loneUpgrade.take 5))
      (.resume 1, .granted 2 .intentionShared (.ofTable 0)) (after false loneUpgrade) :=
    ⟨⟨hoverlap 5 (by omega), hlast⟩, rfl⟩
  exact held_lock_is_kept hbefore hreturn hduring (by decide) hother (by decide)

/-- Transaction 1 holds S and transaction 2 holds IS on table 0. Transaction 1
asks for X and waits. Transaction 3 then gets IX at once. -/
def lostByUpgrade : List Action :=
  [.invoke 0 1 (.lockTable .shared 0), .resume 0,
    .invoke 1 2 (.lockTable .intentionShared 0), .resume 1,
    .invoke 0 1 (.lockTable .exlucsive 0), .resume 0,
    .invoke 2 3 (.lockTable .intentionExclusive 0), .resume 2]

theorem held_lock_lost_by_upgrade :
    ¬ ∀ (noWait : Bool) (σ₁ σ₂ σ₃ σ₄ : LockManager)
      (before during : List (Action × Event)) (action action' : Action)
      (txn txn' : TxnId) (mode mode' : LockMode) (item : LockDataId),
      Run noWait init before σ₁ →
      Step noWait σ₁ (action, .granted txn mode item) σ₂ →
      Run noWait σ₂ during σ₃ →
      (∀ label ∈ during, label.2 ≠ .unlockCalled txn item) →
      Step noWait σ₃ (action', .granted txn' mode' item) σ₄ → txn' ≠ txn →
      isLockCompatible ⟨txn, mode, true⟩ mode' = true := by
  intro hclaim
  have hbefore : Run false init _ (after false (lostByUpgrade.take 1)) :=
    run_after (lostByUpgrade.take 1) rfl
  have hduring : Run false (after false (lostByUpgrade.take 2)) _
      (after false (lostByUpgrade.take 7)) :=
    Lts.run_of_exec ((lostByUpgrade.take 7).drop 2)
      [.progress 2, .granted 2 .intentionShared (.ofTable 0), .progress 1,
        .progress 1, .progress 3] rfl
  have hlost := hclaim false _ (after false (lostByUpgrade.take 2)) _
    (after false lostByUpgrade) _ _ (.resume 0) (.resume 2) 1 3 .shared
    .intentionExclusive (.ofTable 0) hbefore rfl hduring (by decide) rfl (by decide)
  exact absurd hlost (by decide)

end LockManager

end RucDDBS
