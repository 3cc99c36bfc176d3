import RucDDBS.Transaction.LockRefusal

/-!
The flag of a queue that an upgrade is under way. It is set before the upgrade waits and
cleared where the wait ends in a grant. An upgrade that is refused leaves it set, and then
nothing clears it any more: a further upgrade is refused before it reaches the wait.
-/

namespace RucDDBS.LockManager

open LockRequestQueue

variable {noWait : Bool} {σ σ' : LockManager} {thread : Nat} {txn : TxnId} {mode : LockMode}
  {item : LockDataId} {action : Action} {event : Event}

/-- The thread is inside the wait of an upgrade. -/
def UpgradeWait (σ : LockManager) (thread : Nat) (item : LockDataId) : Prop :=
  ∃ txn mode p, σ.calls thread = some (.lock txn mode item (.waiting .upgrade p))

/-- A lock call for the item is in progress. -/
def LockCalled (σ : LockManager) (item : LockDataId) : Prop :=
  ∃ thread txn mode pc, σ.calls thread = some (.lock txn mode item pc)

/-- The next section of the call sets the flag, or the call waits with the flag set. -/
def Upgrades (σ : LockManager) (txn : TxnId) (mode : LockMode) (item : LockDataId) : LockPc → Prop
  | .waiting path _ => path = .upgrade
  | .enter =>
      ∃ p, (σ.lockMap item).findTxn txn = some p ∧ ((σ.lockMap item).requests p).lockMode ≠ mode ∧
        (σ.lockMap item).upgrading = false ∧
        isUpdateCompatible ((σ.lockMap item).requests p) mode = true

/-- If the step is a section of an upgrade, it does not refuse it. -/
def UpgradeAdmitted (noWait : Bool) (σ : LockManager) : Action → Prop
  | .resume thread =>
      ∀ txn mode item pc, σ.calls thread = some (.lock txn mode item pc) →
        σ.Upgrades txn mode item pc → Admits noWait σ txn mode item pc
  | .invoke _ _ _ | .walk _ _ | .manager _ _ => True

/-- A set flag belongs to an upgrade that waits. So it is not set once all lock calls for
the item have returned, and no later one meets an upgrade conflict. -/
structure FlagSound (noWait : Bool) (σ : LockManager) : Prop where
  waiting : ∀ item, (σ.lockMap item).upgrading = true → ∃ thread, σ.UpgradeWait thread item
  returned : ∀ item, ¬ σ.LockCalled item → (σ.lockMap item).upgrading = false
  noConflict : ∀ item, ¬ σ.LockCalled item → ∀ thread txn mode,
    (σ.enterSection noWait thread txn mode item).2 ≠ .refused txn mode item (some .upgradeConflict)

section Sections

theorem waitSection_noConflict (σ : LockManager) (path : WaitPath) (p : Nat) :
    (σ.waitSection noWait thread txn mode item path p).2 ≠
      .refused txn mode item (some .upgradeConflict) := by
  simp only [waitSection]
  split
  · simp
  · split
    · simp [refuse]
    · simp [acquire]

/-- Only a set flag makes a lock call meet an upgrade conflict. -/
theorem enterSection_noConflict (h : (σ.lockMap item).upgrading = false) :
    (σ.enterSection noWait thread txn mode item).2 ≠
      .refused txn mode item (some .upgradeConflict) := by
  simp only [enterSection, h]
  split
  · exact waitSection_noConflict _ _ _
  · split
    · split
      · simp [refuse]
      · simp [acquire]
    · split
      · exact waitSection_noConflict _ _ _
      · split
        next hset => simp at hset
        next =>
          split
          · simp [refuse]
          · exact waitSection_noConflict _ _ _

theorem flagSound_of_waiting
    (h : ∀ item, (σ.lockMap item).upgrading = true → ∃ thread, σ.UpgradeWait thread item) :
    FlagSound noWait σ := by
  have hreturned (item : LockDataId) (hnone : ¬ σ.LockCalled item) :
      (σ.lockMap item).upgrading = false := by
    rw [Bool.eq_false_iff]
    intro hset
    obtain ⟨thread, txn, mode, p, hcall⟩ := h item hset
    exact hnone ⟨thread, txn, mode, _, hcall⟩
  exact ⟨h, hreturned, fun item hnone thread txn mode =>
    enterSection_noConflict (hreturned item hnone)⟩

/-- What a step does to the flags and to the waiting upgrades. -/
inductive FlagEffect (noWait : Bool) (σ : LockManager) (action : Action) (σ' : LockManager) : Prop
  | kept (hok : UpgradeAdmitted noWait σ action)
      (hflags : ∀ i, (σ'.lockMap i).upgrading = (σ.lockMap i).upgrading)
      (hwaits : ∀ t i, σ'.UpgradeWait t i ↔ σ.UpgradeWait t i)
  | opened (thread : Nat) (item : LockDataId) (hok : UpgradeAdmitted noWait σ action)
      (hfree : (σ.lockMap item).upgrading = false)
      (hflags : ∀ i, (σ'.lockMap i).upgrading = if i = item then true else (σ.lockMap i).upgrading)
      (hwaits : ∀ t i, σ'.UpgradeWait t i ↔ (t = thread ∧ i = item) ∨ σ.UpgradeWait t i)
  | closed (thread : Nat) (item : LockDataId) (hok : UpgradeAdmitted noWait σ action)
      (hwait : σ.UpgradeWait thread item)
      (hflags : ∀ i, (σ'.lockMap i).upgrading = if i = item then false else (σ.lockMap i).upgrading)
      (hwaits : ∀ t i, σ'.UpgradeWait t i ↔ t ≠ thread ∧ σ.UpgradeWait t i)
  | leaked (thread : Nat) (item : LockDataId) (hbad : ¬ UpgradeAdmitted noWait σ action)
      (hbefore : σ.UpgradeWait thread item ∨ (σ.lockMap item).upgrading = false)
      (hflags : ∀ i, (σ'.lockMap i).upgrading = if i = item then true else (σ.lockMap i).upgrading)
      (hwaits : ∀ t i, σ'.UpgradeWait t i ↔ t ≠ thread ∧ σ.UpgradeWait t i)

theorem flags_of_update {q : LockRequestQueue}
    (hmap : σ'.lockMap = Function.update σ.lockMap item q) (i : LockDataId) :
    (σ'.lockMap i).upgrading = if i = item then q.upgrading else (σ.lockMap i).upgrading := by
  rw [hmap]
  split
  next heq => rw [heq, Function.update_self]
  next hne => rw [Function.update_of_ne hne]

theorem flags_kept {q : LockRequestQueue} (hmap : σ'.lockMap = Function.update σ.lockMap item q)
    (hq : q.upgrading = (σ.lockMap item).upgrading) (i : LockDataId) :
    (σ'.lockMap i).upgrading = (σ.lockMap i).upgrading := by
  rw [flags_of_update hmap]
  split
  next heq => rw [heq, hq]
  next => rfl

theorem waits_of_update {next : Option Call}
    (hcalls : σ'.calls = Function.update σ.calls thread next) (t : Nat) (i : LockDataId) :
    σ'.UpgradeWait t i ↔
      (t = thread ∧ ∃ txn mode p, next = some (.lock txn mode i (.waiting .upgrade p))) ∨
        (t ≠ thread ∧ σ.UpgradeWait t i) := by
  rw [UpgradeWait, hcalls]
  by_cases ht : t = thread
  · subst ht
    simp
  · simp [ht, UpgradeWait]

theorem waits_ended (hcalls : σ'.calls = Function.update σ.calls thread none) (t : Nat)
    (i : LockDataId) : σ'.UpgradeWait t i ↔ t ≠ thread ∧ σ.UpgradeWait t i := by
  rw [waits_of_update hcalls]
  simp

/-- The section of a lock call ends inside the wait of an upgrade. -/
theorem waits_parked {pc : LockPc} {p : Nat} (hcall : σ.calls thread = some (.lock txn mode item pc))
    (hcalls : σ'.calls =
      Function.update σ.calls thread (some (.lock txn mode item (.waiting .upgrade p)))) (t : Nat)
    (i : LockDataId) :
    σ'.UpgradeWait t i ↔ (t = thread ∧ i = item) ∨ σ.UpgradeWait t i := by
  rw [waits_of_update hcalls]
  constructor
  · rintro (⟨rfl, txn', mode', p', hnext⟩ | ⟨_, hold⟩)
    · cases hnext
      exact .inl ⟨rfl, rfl⟩
    · exact .inr hold
  · rintro (⟨rfl, rfl⟩ | hold)
    · exact .inl ⟨rfl, txn, mode, p, rfl⟩
    · by_cases ht : t = thread
      · subst ht
        obtain ⟨txn', mode', p', hcall'⟩ := hold
        rw [hcall] at hcall'
        cases hcall'
        exact .inl ⟨rfl, txn, mode, p, rfl⟩
      · exact .inr ⟨ht, hold⟩

/-- A call that is not inside the wait of an upgrade is replaced by another such one. -/
theorem waits_kept {call next : Option Call} (hcall : σ.calls thread = call)
    (hcalls : σ'.calls = Function.update σ.calls thread next)
    (hbefore : ∀ txn mode i p, call ≠ some (.lock txn mode i (.waiting .upgrade p)))
    (hafter : ∀ txn mode i p, next ≠ some (.lock txn mode i (.waiting .upgrade p))) (t : Nat)
    (i : LockDataId) : σ'.UpgradeWait t i ↔ σ.UpgradeWait t i := by
  rw [waits_of_update hcalls]
  constructor
  · rintro (⟨rfl, txn, mode, p, hnext⟩ | ⟨_, hwait⟩)
    · exact absurd hnext (hafter txn mode i p)
    · exact hwait
  · rintro ⟨txn, mode, p, hwait⟩
    refine .inr ⟨?_, txn, mode, p, hwait⟩
    rintro rfl
    exact hbefore txn mode i p (hcall.symm.trans hwait)

theorem upgradeAdmitted_iff {pc : LockPc} (hcall : σ.calls thread = some (.lock txn mode item pc)) :
    UpgradeAdmitted noWait σ (.resume thread) ↔
      (σ.Upgrades txn mode item pc → Admits noWait σ txn mode item pc) := by
  constructor
  · intro h
    exact h txn mode item pc hcall
  · intro h txn' mode' item' pc' hcall'
    rw [hcall] at hcall'
    cases hcall'
    exact h

instance : DecidablePred (σ.Upgrades txn mode item)
  | .waiting path _ => inferInstanceAs (Decidable (path = .upgrade))
  | .enter =>
      decidable_of_iff
        (∃ p ∈ (σ.lockMap item).findTxn txn, ((σ.lockMap item).requests p).lockMode ≠ mode ∧
          (σ.lockMap item).upgrading = false ∧
          isUpdateCompatible ((σ.lockMap item).requests p) mode = true) Iff.rfl

instance : DecidablePred (UpgradeAdmitted noWait σ)
  | .resume thread =>
      match hcall : σ.calls thread with
      | some (.lock _ _ _ _) => decidable_of_iff _ (upgradeAdmitted_iff hcall).symm
      | some (.unlock _ _ _) | some (.release _ _ _ _) | none =>
          .isTrue fun _ _ _ _ hlock => by simp [hcall] at hlock
  | .invoke _ _ _ | .walk _ _ | .manager _ _ => .isTrue trivial

/-- A wait that is not for an upgrade has nothing to do with the flags. -/
theorem wait_keeps_flags (path : WaitPath) {p : Nat} {q : LockRequestQueue} {call : Option Call}
    (hok : UpgradeAdmitted noWait σ (.resume thread)) (hcall : σ.calls thread = call)
    (hbefore : ∀ txn mode i p, call ≠ some (.lock txn mode i (.waiting .upgrade p)))
    (hpath : path ≠ .upgrade) (hq : q.upgrading = (σ.lockMap item).upgrading)
    (h : (σ.setQueue item q).waitSection noWait thread txn mode item path p = (σ', event)) :
    FlagEffect noWait σ (.resume thread) σ' := by
  rcases waitSection_outcome σ thread mode path p q h with
    ⟨_, hmap, hcalls⟩ | ⟨_, hmap, hcalls⟩ | ⟨_, hmap, hcalls⟩
  · exact .kept hok (flags_kept hmap hq) (waits_kept hcall hcalls hbefore (by simp))
  · exact .kept hok (flags_kept hmap hq) (waits_kept hcall hcalls hbefore (by simp [hpath]))
  · have hgranting : (granting q path p).upgrading = (σ.lockMap item).upgrading := by
      rw [granting_upgrading, if_neg hpath, hq]
    exact .kept hok (flags_kept hmap hgranting) (waits_kept hcall hcalls hbefore (by simp))

/-- The wait of an upgrade, as it begins or is gone on with. -/
theorem wait_moves_flag {pc : LockPc} {p : Nat} {q : LockRequestQueue}
    (hcall : σ.calls thread = some (.lock txn mode item pc))
    (hpc : (pc = .enter ∧ (σ.lockMap item).upgrading = false) ∨
      (pc = .waiting .upgrade p ∧ (σ.lockMap item).upgrading = true))
    (hupgrades : σ.Upgrades txn mode item pc) (hset : q.upgrading = true)
    (hadmits : Admits noWait σ txn mode item pc ↔ WaitAdmits noWait σ txn q p)
    (h : (σ.setQueue item q).waitSection noWait thread txn mode item .upgrade p = (σ', event)) :
    FlagEffect noWait σ (.resume thread) σ' := by
  have hwaiting (hwait : pc = .waiting .upgrade p) : σ.UpgradeWait thread item :=
    ⟨txn, mode, p, hwait ▸ hcall⟩
  have hadmitted : UpgradeAdmitted noWait σ (.resume thread) ↔ WaitAdmits noWait σ txn q p := by
    rw [upgradeAdmitted_iff hcall, ← hadmits]
    exact forall_prop_of_true hupgrades
  rcases waitSection_outcome σ thread mode .upgrade p q h with
    ⟨hbad, hmap, hcalls⟩ | ⟨hgood, hmap, hcalls⟩ | ⟨hgood, hmap, hcalls⟩
  · -- refused: the flag stays, nobody waits
    apply FlagEffect.leaked thread item (mt hadmitted.mp hbad) _
      (fun i => by rw [flags_of_update hmap, hset]) (waits_ended hcalls)
    rcases hpc with ⟨_, hfree⟩ | ⟨hwait, _⟩
    · exact .inr hfree
    · exact .inl (hwaiting hwait)
  · have hok := hadmitted.mpr hgood
    have hwaits := waits_parked hcall hcalls
    rcases hpc with ⟨_, hfree⟩ | ⟨hwait, hheld⟩
    · exact .opened thread item hok hfree (fun i => by rw [flags_of_update hmap, hset]) hwaits
    · apply FlagEffect.kept hok (flags_kept hmap (hset.trans hheld.symm))
      intro t i
      rw [hwaits]
      apply or_iff_right_of_imp
      rintro ⟨rfl, rfl⟩
      exact hwaiting hwait
  · have hok := hadmitted.mpr hgood
    rcases hpc with ⟨henter, hfree⟩ | ⟨hwait, _⟩
    · exact .kept hok (flags_kept hmap hfree.symm)
        (waits_kept hcall hcalls (by simp [henter]) (by simp))
    · exact .closed thread item hok (hwaiting hwait) (flags_of_update hmap) (waits_ended hcalls)

/-- A section that changes no queue and ends the call, or goes on outside of the wait of an
upgrade. -/
theorem still_flags {call next : Option Call} (hok : UpgradeAdmitted noWait σ action)
    (hmap : ∀ i, (σ'.lockMap i).upgrading = (σ.lockMap i).upgrading)
    (hcall : σ.calls thread = call) (hcalls : σ'.calls = Function.update σ.calls thread next)
    (hbefore : ∀ txn mode i p, call ≠ some (.lock txn mode i (.waiting .upgrade p)))
    (hafter : ∀ txn mode i p, next ≠ some (.lock txn mode i (.waiting .upgrade p))) :
    FlagEffect noWait σ action σ' :=
  .kept hok hmap (waits_kept hcall hcalls hbefore hafter)

theorem enterSection_flag (hcall : σ.calls thread = some (.lock txn mode item .enter))
    (h : σ.enterSection noWait thread txn mode item = (σ', event)) :
    FlagEffect noWait σ (.resume thread) σ' := by
  have hbefore : ∀ txn' mode' i p, some (Call.lock txn mode item .enter) ≠
      some (.lock txn' mode' i (.waiting .upgrade p)) := by simp
  have hrest (hnot : ¬ σ.Upgrades txn mode item .enter) :
      UpgradeAdmitted noWait σ (.resume thread) :=
    (upgradeAdmitted_iff hcall).mpr fun hupgrades => absurd hupgrades hnot
  rcases enterSection_cases h with
    ⟨hclosed, hmap, hcalls, _⟩ | ⟨p, hfind, hmode, _, hwait⟩ | ⟨path, p, q, hopens, hwait⟩
  · have hnot : ¬ σ.Upgrades txn mode item .enter := by
      rintro ⟨p, hfind, hmode, hfree, hlegal⟩
      exact hclosed _ _ _ (.upgrade p hfind hmode hfree hlegal)
    exact still_flags (hrest hnot) (fun i => by rw [hmap]) hcall hcalls hbefore (by simp)
  · have hnot : ¬ σ.Upgrades txn mode item .enter := by simp [Upgrades, hfind, hmode]
    exact wait_keeps_flags .same (q := σ.lockMap item) (hrest hnot) hcall hbefore (by simp) rfl hwait
  · cases hopens with
    | new hnone =>
        have hnot : ¬ σ.Upgrades txn mode item .enter := by simp [Upgrades, hnone]
        exact wait_keeps_flags .new (q := (σ.lockMap item).emplaceBack txn mode) (hrest hnot) hcall
          hbefore (by simp) rfl hwait
    | upgrade p hfind hmode hfree hlegal =>
        have hupgrades : σ.Upgrades txn mode item .enter := ⟨p, hfind, hmode, hfree, hlegal⟩
        apply wait_moves_flag hcall (.inl ⟨rfl, hfree⟩) hupgrades rfl _ hwait
        simp [Admits, hfind, hmode, hfree, hlegal]

theorem lockSection_flag {pc : LockPc} (hcall : σ.calls thread = some (.lock txn mode item pc))
    (hheld : ∀ t i, σ.UpgradeWait t i → (σ.lockMap i).upgrading = true)
    (h : σ.resume noWait thread (.lock txn mode item pc) = some (σ', event)) :
    FlagEffect noWait σ (.resume thread) σ' := by
  cases pc with
  | enter => exact enterSection_flag hcall (Option.some.inj h)
  | waiting path p =>
      have hwait := Option.some.inj h
      rw [← setQueue_self σ item] at hwait
      by_cases hpath : path = .upgrade
      · subst hpath
        have hset := hheld thread item ⟨txn, mode, p, hcall⟩
        exact wait_moves_flag hcall (.inr ⟨rfl, hset⟩) rfl hset Iff.rfl hwait
      · have hok : UpgradeAdmitted noWait σ (.resume thread) :=
          (upgradeAdmitted_iff hcall).mpr fun hupgrades => absurd hupgrades hpath
        exact wait_keeps_flags path hok hcall (by simp [hpath]) hpath rfl hwait

/-- No other section touches a flag, or begins or ends the wait of an upgrade. -/
theorem otherStep_flag (h : Effect noWait σ action event σ')
    (hnot : ∀ thread txn mode item pc, action = .resume thread →
      σ.calls thread ≠ some (.lock txn mode item pc)) : FlagEffect noWait σ action σ' := by
  have hok : UpgradeAdmitted noWait σ action := by
    cases action with
    | resume thread => exact fun txn mode item pc hcall => absurd hcall (hnot thread txn mode item pc rfl)
    | _ => trivial
  have hcallNot {thread : Nat} {call : Option Call} (haction : action = .resume thread)
      (hcall : σ.calls thread = call) (txn : TxnId) (mode : LockMode) (i : LockDataId) (p : Nat) :
      call ≠ some (.lock txn mode i (.waiting .upgrade p)) :=
    hcall ▸ hnot thread txn mode i _ haction
  cases h with
  | parked thread txn mode item pc path p q hcall => exact absurd hcall (hnot thread _ _ _ _ rfl)
  | refused thread txn mode item pc path p q hcall => exact absurd hcall (hnot thread _ _ _ _ rfl)
  | refusedEarly thread txn mode item reason hcall => exact absurd hcall (hnot thread _ _ _ _ rfl)
  | held thread txn mode item p hcall => exact absurd hcall (hnot thread _ _ _ _ rfl)
  | acquired thread txn mode item pc path p q hcall =>
      exact absurd hcall (hnot thread _ _ _ _ rfl)
  | begun thread txn op mode item name hidle =>
      exact still_flags hok (fun _ => rfl) hidle rfl (by simp) (by simp)
  | rejected thread txn op mode item reason hidle =>
      exact still_flags hok (fun _ => rfl) hidle rfl (by simp) (by simp)
  | unlockBegun thread txn op item hidle =>
      exact still_flags hok (fun _ => rfl) hidle rfl (by simp) (by simp)
  | releaseBegun thread txn op hidle =>
      exact still_flags hok (fun _ => rfl) hidle rfl (by simp) (by simp)
  | unlockHit thread txn item call call' p txn' hcall hunlocking =>
      apply still_flags hok _ hcall rfl (hcallNot rfl hcall)
      · intro txn mode i p heq
        exact hunlocking.ne_lock (Option.some.inj heq)
      · exact flags_kept (q := (σ.lockMap item).erase p) rfl rfl
  | unlockMiss thread txn item call call' hcall hunlocking =>
      have hafter (txn : TxnId) (mode : LockMode) (i : LockDataId) (p : Nat) :
          some call' ≠ some (.lock txn mode i (.waiting .upgrade p)) :=
        fun heq => hunlocking.ne_lock (Option.some.inj heq)
      exact still_flags hok (fun _ => rfl) hcall rfl (hcallNot rfl hcall) hafter
  | erased thread txn item call call' event hcall herasing =>
      exact still_flags hok (fun _ => rfl) hcall rfl (hcallNot rfl hcall)
        fun txn mode i p => herasing.ne_lock
  | releaseWalked thread txn name loops order hcall =>
      exact still_flags hok (fun _ => rfl) hcall rfl (by simp) (by simp)
  | releaseVisited thread txn loops item ahead hcall =>
      exact still_flags hok (fun _ => rfl) hcall rfl (hcallNot rfl hcall) (by simp)
  | releaseReturned thread txn hcall =>
      exact still_flags hok (fun _ => rfl) hcall rfl (hcallNot rfl hcall) (by simp)
  | managerWrote txn write => exact .kept hok (fun _ => rfl) fun _ _ => Iff.rfl

/-- What every step does to the flags. -/
theorem step_flag (hheld : ∀ t i, σ.UpgradeWait t i → (σ.lockMap i).upgrading = true)
    (h : step noWait σ action = some (σ', event)) : FlagEffect noWait σ action σ' := by
  by_cases hlock : ∃ thread txn mode item pc, action = .resume thread ∧
      σ.calls thread = some (.lock txn mode item pc)
  · obtain ⟨thread, txn, mode, item, pc, rfl, hcall⟩ := hlock
    have hresume : σ.resume noWait thread (.lock txn mode item pc) = some (σ', event) := by
      rw [← h, step, hcall, Option.bind_some]
    exact lockSection_flag hcall hheld hresume
  · apply otherStep_flag (step_effect h)
    intro thread txn mode item pc haction hcall
    exact hlock ⟨thread, txn, mode, item, pc, haction, hcall⟩

end Sections

section Runs

variable {trace : List (Action × Event)}

/-- An upgrade that waits keeps the flag of its queue set, and is the only one there. -/
structure WaitsHoldFlag (σ : LockManager) : Prop where
  held : ∀ t i, σ.UpgradeWait t i → (σ.lockMap i).upgrading = true
  alone : ∀ t t' i, σ.UpgradeWait t i → σ.UpgradeWait t' i → t = t'

theorem waitsHoldFlag_init : init.WaitsHoldFlag where
  held := by
    rintro t i ⟨txn, mode, p, hcall⟩
    simp [init] at hcall
  alone := by
    rintro t t' i ⟨txn, mode, p, hcall⟩
    simp [init] at hcall

theorem WaitsHoldFlag.step (h : σ.WaitsHoldFlag) (heffect : FlagEffect noWait σ action σ') :
    σ'.WaitsHoldFlag := by
  cases heffect with
  | kept hok hflags hwaits =>
      constructor
      · intro t i hwait
        rw [hflags]
        exact h.held t i ((hwaits t i).mp hwait)
      · intro t t' i hwait hwait'
        exact h.alone t t' i ((hwaits t i).mp hwait) ((hwaits t' i).mp hwait')
  | opened thread item hok hfree hflags hwaits =>
      -- where the flag was free nobody waits yet
      have hnobody (t : Nat) : ¬ σ.UpgradeWait t item := by
        intro hwait
        rw [h.held t item hwait] at hfree
        cases hfree
      constructor
      · intro t i hwait
        rw [hflags]
        split
        · rfl
        next hne =>
          rcases (hwaits t i).mp hwait with ⟨_, rfl⟩ | hold
          · exact absurd rfl hne
          · exact h.held t i hold
      · intro t t' i hwait hwait'
        rcases (hwaits t i).mp hwait with ⟨rfl, rfl⟩ | hold
        · rcases (hwaits t' i).mp hwait' with ⟨rfl, _⟩ | hold'
          · rfl
          · exact absurd hold' (hnobody t')
        · rcases (hwaits t' i).mp hwait' with ⟨_, rfl⟩ | hold'
          · exact absurd hold (hnobody t)
          · exact h.alone t t' i hold hold'
  | closed thread item hok hwait hflags hwaits =>
      constructor
      · intro t i hwait'
        obtain ⟨hne, hold⟩ := (hwaits t i).mp hwait'
        rw [hflags]
        split
        next heq =>
          rw [heq] at hold
          exact absurd (h.alone t thread item hold hwait) hne
        next => exact h.held t i hold
      · intro t t' i hwait' hwait''
        exact h.alone t t' i ((hwaits t i).mp hwait').2 ((hwaits t' i).mp hwait'').2
  | leaked thread item hbad hbefore hflags hwaits =>
      constructor
      · intro t i hwait'
        rw [hflags]
        split
        · rfl
        next => exact h.held t i ((hwaits t i).mp hwait').2
      · intro t t' i hwait' hwait''
        exact h.alone t t' i ((hwaits t i).mp hwait').2 ((hwaits t' i).mp hwait'').2

/-- As long as the flags are sound, a step keeps them so exactly if it refuses no upgrade. -/
theorem FlagEffect.sound_iff (hinv : σ.WaitsHoldFlag) (hsound : FlagSound noWait σ)
    (h : FlagEffect noWait σ action σ') :
    FlagSound noWait σ' ↔ UpgradeAdmitted noWait σ action := by
  cases h with
  | kept hok hflags hwaits =>
      refine iff_of_true (flagSound_of_waiting ?_) hok
      intro i hset
      rw [hflags] at hset
      obtain ⟨t, hwait⟩ := hsound.waiting i hset
      exact ⟨t, (hwaits t i).mpr hwait⟩
  | opened thread item hok hfree hflags hwaits =>
      refine iff_of_true (flagSound_of_waiting ?_) hok
      intro i hset
      rw [hflags] at hset
      split at hset
      next heq => exact ⟨thread, (hwaits thread i).mpr (.inl ⟨rfl, heq⟩)⟩
      next =>
        obtain ⟨t, hwait⟩ := hsound.waiting i hset
        exact ⟨t, (hwaits t i).mpr (.inr hwait)⟩
  | closed thread item hok hwait hflags hwaits =>
      refine iff_of_true (flagSound_of_waiting ?_) hok
      intro i hset
      rw [hflags] at hset
      split at hset
      next => cases hset
      next hne =>
        obtain ⟨t, hold⟩ := hsound.waiting i hset
        refine ⟨t, (hwaits t i).mpr ⟨?_, hold⟩⟩
        rintro rfl
        obtain ⟨_, _, _, hcall⟩ := hold
        obtain ⟨_, _, _, hcall'⟩ := hwait
        rw [hcall] at hcall'
        cases hcall'
        exact hne rfl
  | leaked thread item hbad hbefore hflags hwaits =>
      refine iff_of_false ?_ hbad
      intro hsound'
      have hset : (σ'.lockMap item).upgrading = true := by rw [hflags, if_pos rfl]
      obtain ⟨t, hwait⟩ := hsound'.waiting item hset
      obtain ⟨hne, hold⟩ := (hwaits t item).mp hwait
      rcases hbefore with hmine | hfree
      · exact hne (hinv.alone t thread item hold hmine)
      · rw [hinv.held t item hold] at hfree
        cases hfree

/-- A flag that nobody will clear stays so. -/
theorem FlagEffect.sound_before (h : FlagEffect noWait σ action σ') (hsound : FlagSound noWait σ') :
    FlagSound noWait σ := by
  apply flagSound_of_waiting
  intro i hset
  cases h with
  | kept hok hflags hwaits =>
      rw [← hflags] at hset
      obtain ⟨t, hwait⟩ := hsound.waiting i hset
      exact ⟨t, (hwaits t i).mp hwait⟩
  | opened thread item hok hfree hflags hwaits =>
      have hne : i ≠ item := by
        rintro rfl
        rw [hfree] at hset
        cases hset
      have hset' : (σ'.lockMap i).upgrading = true := by
        rw [hflags, if_neg hne]
        exact hset
      obtain ⟨t, hwait⟩ := hsound.waiting i hset'
      rcases (hwaits t i).mp hwait with ⟨_, heq⟩ | hold
      · exact absurd heq hne
      · exact ⟨t, hold⟩
  | closed thread item hok hwait hflags hwaits =>
      by_cases heq : i = item
      · subst heq
        exact ⟨thread, hwait⟩
      · have hset' : (σ'.lockMap i).upgrading = true := by
          rw [hflags, if_neg heq]
          exact hset
        obtain ⟨t, hwait'⟩ := hsound.waiting i hset'
        exact ⟨t, ((hwaits t i).mp hwait').2⟩
  | leaked thread item hbad hbefore hflags hwaits =>
      have hset' : (σ'.lockMap i).upgrading = true := by
        rw [hflags]
        split
        · rfl
        · exact hset
      obtain ⟨t, hwait⟩ := hsound.waiting i hset'
      exact ⟨t, ((hwaits t i).mp hwait).2⟩

theorem flagSound_init : FlagSound noWait init :=
  flagSound_of_waiting fun item hset => by simp [init, LockRequestQueue.empty] at hset

/-- In a run the flags are sound at the end if and only if no section of an upgrade has
refused it. -/
theorem upgrade_flag_sound_iff (hrun : Run noWait init trace σ) :
    FlagSound noWait σ ↔
      Lts.Run (fun σ label σ' => UpgradeAdmitted noWait σ label.1 ∧ Step noWait σ label σ')
        init trace σ := by
  apply hrun.holds_iff (fun _ σ => σ.WaitsHoldFlag) (fun _ σ => FlagSound noWait σ)
    (fun σ label => UpgradeAdmitted noWait σ label.1) ?_ ?_ ?_ waitsHoldFlag_init flagSound_init
  · intro past s label t hstep hinv
    exact hinv.step (step_flag hinv.held hstep)
  · intro past s label t hstep hinv hsound
    exact (step_flag hinv.held hstep).sound_iff hinv hsound
  · intro past s label t hstep hinv hsound
    exact (step_flag hinv.held hstep).sound_before hsound

/-- Transaction 1 waits for transaction 2 with its upgrade and is granted it. -/
def waitedUpgrade : List (Action × Event) :=
  [(.invoke 0 1 (.lockTable .shared 0), .progress 1),
    (.resume 0, .granted 1 .shared (.ofTable 0)),
    (.invoke 1 2 (.lockTable .shared 0), .progress 2),
    (.resume 1, .granted 2 .shared (.ofTable 0)),
    (.invoke 0 1 (.lockTable .exlucsive 0), .progress 1),
    (.resume 0, .progress 1),
    (.invoke 1 2 (.unLockTable 0), .unlockCalled 2 (.ofTable 0)),
    (.resume 1, .unlocked 2 (.ofTable 0) (some 1)),
    (.resume 0, .granted 1 .exlucsive (.ofTable 0))]

theorem waitedUpgrade_flag_sound :
    ∃ σ, Run false init waitedUpgrade σ ∧ FlagSound false σ := by
  obtain ⟨σ, hrun⟩ : ∃ σ, Lts.Run (fun σ label σ' =>
      UpgradeAdmitted false σ label.1 ∧ Step false σ label σ') init waitedUpgrade σ :=
    Lts.run_of_exec_when waitedUpgrade (by decide +kernel)
  have hsteps : Run false init waitedUpgrade σ := hrun.mono fun _ _ _ h => h.2
  exact ⟨σ, hsteps, (upgrade_flag_sound_iff hsteps).mpr hrun⟩

/-- The upgrade of transaction 1 meets the lock of transaction 2. -/
def refusedUpgrade : List Action :=
  [.invoke 0 1 (.lockTable .shared 0), .resume 0, .invoke 1 2 (.lockTable .shared 0), .resume 1,
    .invoke 0 1 (.lockTable .exlucsive 0), .resume 0]

/-- All calls have returned, the flag is set, and the upgrade of transaction 2 is refused. -/
theorem refusedUpgrade_leaves_flag :
    (∃ trace, Run true init trace (after true refusedUpgrade)) ∧
      (∀ thread, (after true refusedUpgrade).calls thread = none) ∧
      ((after true refusedUpgrade).lockMap (.ofTable 0)).upgrading = true ∧
      ((after true refusedUpgrade).enterSection true 1 2 .exlucsive (.ofTable 0)).2 =
        .refused 2 .exlucsive (.ofTable 0) (some .upgradeConflict) := by
  refine ⟨⟨_, run_after refusedUpgrade rfl⟩, ?_, by decide, by decide⟩
  rintro (_ | _ | thread) <;> rfl

end Runs

end RucDDBS.LockManager
