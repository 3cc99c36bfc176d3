import RucDDBS.Transaction.CommitCleanup

/-!
The nodes at which `Abort` runs `AbortSingle`, against those at which `Commit` runs
`CommitSingle`. For a distributed transaction both send to every node of the set. For
the others `Commit` looks at the address of the node, and `Abort` does not: it always
works on the coordinator.
-/

namespace RucDDBS.CommitRun

/-- `TransactionManager::Abort`, up to its first wait. The result with which a run from
here ends is the one of a `Commit` that has called `Abort`. -/
def callAbort (setup : CommitSetup) (participants : IpPort → Participant) : CommitRun × Event :=
  if setup.isDistributed = false then
    let self : Participant := { participants setup.listen with state := .aborted }
    ({ init participants with
        pc := .returned true
        participants := Function.update participants setup.listen self.abortSingle },
      .abortSingle setup.listen)
  else ((init participants).startAbort setup, .silent)

section Spec

/-- The function of the transaction manager that has run, and where. -/
def Event.ran : Event → Option (RequestKind × IpPort)
  | .prepareCommit node _ => some (.prepare, node)
  | .commitSingle node _ => some (.commit, node)
  | .abortSingle node => some (.abort, node)
  | .silent | .notFound _ => none

def RanAt (kind : RequestKind) (trace : List (CallAction × Event)) (node : IpPort) : Prop :=
  ∃ label ∈ trace, label.2.ran = some (kind, node)

instance (kind : RequestKind) (trace : List (CallAction × Event)) (node : IpPort) :
    Decidable (RanAt kind trace node) :=
  inferInstanceAs (Decidable (∃ label ∈ trace, label.2.ran = some (kind, node)))

/-- Every request that was sent has been handled at its node. -/
def AllHandled (σ : CommitRun) : Prop := ∀ rpc ∈ σ.sent, ∃ ok, (rpc, ok) ∈ σ.answers

/-- A whole call of `Commit` that has been voted for. -/
def CommitEnds (setup : CommitSetup) (participants : IpPort → Participant)
    (trace : List (CallAction × Event)) (σ : CommitRun) : Prop :=
  Lts.Run (MapStep setup) (init participants) trace σ ∧ σ.pc = .returned true ∧ σ.AllHandled

/-- A whole call of `Abort`. -/
def AbortEnds (setup : CommitSetup) (participants : IpPort → Participant)
    (trace : List (CallAction × Event)) (σ : CommitRun) : Prop :=
  ∃ rest, trace = (.run .advance, (callAbort setup participants).2) :: rest ∧
    Lts.Run (MapStep setup) (callAbort setup participants).1 rest σ ∧
    (∃ result, σ.pc = .returned result) ∧ σ.AllHandled

/-- `Abort` runs `AbortSingle` at the nodes at which `Commit` would run `CommitSingle`,
and leaves the transaction at none of them. -/
def AbortReachesCommit (setup : CommitSetup) : Prop :=
  ∀ participants committing σ aborting σ',
    (∀ node ∈ setup.nodes, (participants node).inMap = true) →
    CommitEnds setup participants committing σ → AbortEnds setup participants aborting σ' →
      (∀ node, RanAt .abort aborting node ↔ RanAt .commit committing node) ∧
      ∀ node, RanAt .commit committing node → (σ'.participants node).inMap = false

end Spec

variable {setup : CommitSetup} {σ σ' : CommitRun} {action : CallAction} {event : Event}
  {past trace : List (CallAction × Event)} {participants : IpPort → Participant}
  {kind : RequestKind} {node : IpPort}

theorem ranAt_append_iff : RanAt kind (past ++ [(action, event)]) node ↔
    RanAt kind past node ∨ event.ran = some (kind, node) := by
  simp only [RanAt, List.mem_append, List.mem_singleton]
  constructor
  · rintro ⟨label, hold | rfl, hran⟩
    · exact .inl ⟨label, hold, hran⟩
    · exact .inr hran
  · rintro (⟨label, hold, hran⟩ | hran)
    · exact ⟨label, .inl hold, hran⟩
    · exact ⟨_, .inr rfl, hran⟩

theorem Event.ran_of_finishes (h : event.finishes = some node) :
    event.ran = some (.commit, node) ∨ event.ran = some (.abort, node) := by
  cases event with
  | commitSingle _ ok => cases ok <;> simp_all [Event.finishes, Event.ran]
  | abortSingle _ => simp_all [Event.finishes, Event.ran]
  | silent | prepareCommit _ _ | notFound _ => simp [Event.finishes] at h

/-- A handler runs the function of its request where the transaction is listed. -/
theorem handle_ran (setup : CommitSetup) (appended : Bool) (node : IpPort) (p : Participant)
    (kind : RequestKind) : (handle setup appended node p kind).2.2.ran =
      if p.inMap = true then some (kind, node) else none := by
  cases hmap : p.inMap with
  | false => cases kind <;> simp [handle, hmap, Event.ran]
  | true => cases kind <;> simp [handle, hmap, Event.ran]

/-- What runs somewhere has been asked for by a request, unless it is the coordinator's
own part of a transaction on one node. -/
theorem Transition.ran (htransition : Transition setup σ action event σ')
    (hran : event.ran = some (kind, node)) :
    (∃ i, ⟨kind, i⟩ ∈ σ.sent ∧ setup.nodes[i]? = some node) ∨
      (IsLocal setup ∨ σ.pc = .localAbort) ∧ node = setup.listen := by
  cases htransition with
  | handled rpc appended target hsent hnode =>
      rw [handle_ran] at hran
      split at hran
      case isTrue =>
        cases hran
        exact .inl ⟨rpc.index, hsent, hnode⟩
      case isFalse => cases hran
  | localCommit _ hlocal =>
      cases hran
      exact .inr ⟨.inl hlocal, rfl⟩
  | localAbort hpc =>
      cases hran
      exact .inr ⟨.inr hpc, rfl⟩
  | changed _ _ | remoteSend _ _ | remoteYes _ _ | remoteNo _ | remoteDone _ _ | initFails _ _
  | decided _ _ _ _ _ _ _ _ => cases hran

/-- No request is taken back. -/
theorem Transition.keeps_sent (htransition : Transition setup σ action event σ') {rpc : Rpc}
    (hsent : rpc ∈ σ.sent) : rpc ∈ σ'.sent := by
  cases htransition with
  | remoteSend _ _ | remoteNo _ => exact List.mem_cons_of_mem _ hsent
  | decided _ _ _ _ _ _ _ _ => exact List.mem_append_right _ hsent
  | handled _ _ _ _ _ | changed _ _ | localCommit _ _ | localAbort _ | remoteYes _ _
  | remoteDone _ _ | initFails _ _ => exact hsent

/-- The accounts of the nodes: a node without the transaction has run `CommitSingle` or
`AbortSingle`, and a request that was handled has been carried out there. -/
structure Accounts (setup : CommitSetup) (past : List (CallAction × Event)) (σ : CommitRun) :
    Prop where
  gone : ∀ node ∈ setup.nodes, (σ.participants node).inMap = false →
    RanAt .commit past node ∨ RanAt .abort past node
  answered : ∀ kind i ok node, (⟨kind, i⟩, ok) ∈ σ.answers → setup.nodes[i]? = some node →
    (σ.participants node).inMap = false ∨ RanAt kind past node
  cleared : ∀ i ok node, (⟨.abort, i⟩, ok) ∈ σ.answers → setup.nodes[i]? = some node →
    (σ.participants node).inMap = false
  asked : ∀ kind node, RanAt kind past node →
    (∃ i, ⟨kind, i⟩ ∈ σ.sent ∧ setup.nodes[i]? = some node) ∨
      setup.isDistributed = false ∧ node = setup.listen
  single : σ.pc = .localAbort → setup.isDistributed = false

theorem Accounts.step (h : Accounts setup past σ)
    (htransition : Transition setup σ action event σ') (hkeeps : σ.KeepsMap action) :
    Accounts setup (past ++ [(action, event)]) σ' := by
  have hmap (node : IpPort) := htransition.inMap hkeeps node
  constructor
  · intro node hnode hout
    simp only [ranAt_append_iff]
    by_cases hfinishes : event.finishes = some node
    · rcases Event.ran_of_finishes hfinishes with hran | hran
      · exact .inl (.inr hran)
      · exact .inr (.inr hran)
    · have hbefore : (σ.participants node).inMap = false := by
        simpa [hfinishes] using (hmap node).symm.trans hout
      rcases h.gone node hnode hbefore with hran | hran
      · exact .inl (.inl hran)
      · exact .inr (.inl hran)
  · intro kind i ok node hanswer hnode
    rw [ranAt_append_iff]
    rcases htransition.answered hanswer with hold | ⟨appended, target, htarget, _, hevent, _⟩
    · rcases h.answered kind i ok node hold hnode with hout | hran
      · exact .inl (htransition.stays_out hkeeps hout)
      · exact .inr (.inl hran)
    · obtain rfl : target = node := Option.some.inj (htarget.symm.trans hnode)
      cases hin : (σ.participants target).inMap with
      | false => exact .inl (htransition.stays_out hkeeps hin)
      | true =>
          right
          right
          rw [hevent, handle_ran, if_pos hin]
  · intro i ok node hanswer hnode
    rcases htransition.answered hanswer with hold | ⟨appended, target, htarget, _, _, hleft⟩
    · exact htransition.stays_out hkeeps (h.cleared i ok node hold hnode)
    · obtain rfl : target = node := Option.some.inj (htarget.symm.trans hnode)
      rw [hleft]
      exact handle_leaves (by simp) (by simp)
  · intro kind node hran
    rcases ranAt_append_iff.mp hran with hold | hnew
    · rcases h.asked kind node hold with ⟨i, hi, hnode⟩ | hlisten
      · exact .inl ⟨i, htransition.keeps_sent hi, hnode⟩
      · exact .inr hlisten
    · rcases htransition.ran hnew with ⟨i, hi, hnode⟩ | ⟨hlocal | hpc, hlisten⟩
      · exact .inl ⟨i, htransition.keeps_sent hi, hnode⟩
      · exact .inr ⟨hlocal.1, hlisten⟩
      · exact .inr ⟨h.single hpc, hlisten⟩
  · intro hpc
    cases htransition with
    | handled _ _ _ _ _ | changed _ _ => exact h.single hpc
    | localCommit _ hlocal => exact hlocal.1
    | decided _ _ _ _ hdecides _ _ _ => exact absurd hpc hdecides.target.2
    | localAbort _ | remoteSend _ _ | remoteYes _ _ | remoteNo _ | remoteDone _ _
    | initFails _ _ => cases hpc

/-- The accounts go on from any state in which they are right. -/
theorem Accounts.run {begun : List (CallAction × Event)} (h : Accounts setup begun σ)
    (hrun : Lts.Run (MapStep setup) σ trace σ') : Accounts setup (begun ++ trace) σ' := by
  refine hrun.preserves_past (fun past σ => Accounts setup (begun ++ past) σ) ?_ ?_
  · rintro past σ ⟨action, event⟩ σ' ⟨hkeeps, hstep⟩ h
    rw [← List.append_assoc]
    exact h.step (call_transition hstep) hkeeps
  · simpa using h

theorem accounts_init (hlisted : ∀ node ∈ setup.nodes, (participants node).inMap = true) :
    Accounts setup [] (init participants) := by
  constructor
  · intro node hnode hout
    rw [init, hlisted node hnode] at hout
    cases hout
  · simp [init]
  · simp [init]
  · simp [RanAt]
  · simp [init]

theorem accounts_callAbort (hlisted : ∀ node ∈ setup.nodes, (participants node).inMap = true) :
    Accounts setup [(.run .advance, (callAbort setup participants).2)]
      (callAbort setup participants).1 := by
  unfold callAbort
  split
  case isTrue hsingle =>
    constructor
    · intro node hnode hout
      right
      by_cases hlisten : node = setup.listen
      · simp [RanAt, Event.ran, hlisten]
      · simp [Function.update_of_ne hlisten, hlisted node hnode] at hout
    · simp [init]
    · simp [init]
    · intro kind node hran
      right
      simp only [RanAt, List.mem_singleton, exists_eq_left, Event.ran, Option.some.injEq,
        Prod.mk.injEq] at hran
      exact ⟨hsingle, hran.2.symm⟩
    · simp
  case isFalse =>
    constructor
    · intro node hnode hout
      rw [startAbort_inMap, init, hlisted node hnode] at hout
      cases hout
    · simp [init, startAbort]
    · simp [init, startAbort]
    · simp [RanAt, Event.ran]
    · simp [startAbort]

/-- Once `Abort` has sent its requests, nothing more is sent. -/
theorem Transition.abort_sends (htransition : Transition setup σ action event σ')
    (hpc : Aborting σ.pc ∨ σ.pc = .returned true) :
    (Aborting σ'.pc ∨ σ'.pc = .returned true) ∧ σ'.sent = σ.sent := by
  cases htransition with
  | handled _ _ _ _ _ | changed _ _ => exact ⟨hpc, rfl⟩
  | localCommit h _ | localAbort h | remoteSend h _ | remoteYes h _ | remoteNo h
  | remoteDone _ h | initFails h _ => simp [Aborting, h] at hpc
  | decided _ pc added _ hdecides _ _ _ =>
      generalize σ.pc = before at hdecides hpc
      cases hdecides with
      | aborting i => exact ⟨.inl (.inl ⟨_, rfl⟩), rfl⟩
      | aborted i => exact ⟨.inl (.inr rfl), rfl⟩
      | prepareAll | yes _ _ | no _ | commitAll _ _ | committing _ | committed _ =>
          simp [Aborting] at hpc

theorem abort_sends_once (hrun : Lts.Run (MapStep setup) (callAbort setup participants).1 trace σ) :
    σ.sent = (callAbort setup participants).1.sent := by
  refine (hrun.preserves (fun σ => (Aborting σ.pc ∨ σ.pc = .returned true) ∧
    σ.sent = (callAbort setup participants).1.sent) ?_ ⟨?_, rfl⟩).2
  · rintro σ ⟨action, event⟩ σ' ⟨_, hstep⟩ ⟨hpc, hsent⟩
    obtain ⟨hpc', hsent'⟩ := (call_transition hstep).abort_sends hpc
    exact ⟨hpc', hsent'.trans hsent⟩
  · unfold callAbort
    split
    · exact .inr rfl
    · exact .inl (.inl ⟨0, rfl⟩)

/-- The requests of two-phase commit go to every node, and only to those. -/
theorem Accounts.reaches (h : Accounts setup trace σ) (hdist : setup.isDistributed = true)
    (hsent : ∀ i < setup.nodes.length, ⟨kind, i⟩ ∈ σ.sent) (hhandled : σ.AllHandled)
    (hgone : ∀ node ∈ setup.nodes, (σ.participants node).inMap = false → RanAt kind trace node) :
    RanAt kind trace node ↔ node ∈ setup.nodes := by
  constructor
  · intro hran
    rcases h.asked kind node hran with ⟨i, _, hget⟩ | ⟨hsingle, _⟩
    · exact List.mem_of_getElem? hget
    · rw [hdist] at hsingle
      cases hsingle
  · intro hnode
    obtain ⟨i, hi, hget⟩ := List.mem_iff_getElem.mp hnode
    obtain ⟨ok, hok⟩ := hhandled _ (hsent i hi)
    have hget : setup.nodes[i]? = some node := List.getElem?_eq_some_iff.mpr ⟨hi, hget⟩
    rcases h.answered kind i ok node hok hget with hout | hran
    · exact hgone node hnode hout
    · exact hran

theorem distributed_commits (hdist : setup.isDistributed = true)
    (hlisted : ∀ node ∈ setup.nodes, (participants node).inMap = true)
    (hends : CommitEnds setup participants trace σ) :
    RanAt .commit trace node ↔ node ∈ setup.nodes := by
  obtain ⟨hrun, hpc, hhandled⟩ := hends
  have haccounts : Accounts setup trace σ := (accounts_init hlisted).run hrun
  have hdirected : Directed setup σ := by
    refine hrun.preserves (Directed setup) ?_ (directed_init participants)
    rintro σ ⟨action, event⟩ σ' ⟨_, hstep⟩ h
    exact h.step hdist (call_transition hstep)
  obtain ⟨⟨_, _, hagreement⟩, _⟩ := distributed_truthful hdist (hrun.mono fun _ _ _ h => h.2)
  apply haccounts.reaches hdist (hdirected.commits (.inr hpc)) hhandled
  intro node hnode hout
  rcases haccounts.gone node hnode hout with hran | hran
  · exact hran
  · rcases haccounts.asked .abort node hran with ⟨i, hi, _⟩ | ⟨hsingle, _⟩
    · exact absurd (hagreement.aborts i hi) (not_committing_aborting (.inr hpc))
    · rw [hdist] at hsingle
      cases hsingle

theorem distributed_aborts (hdist : setup.isDistributed = true)
    (hlisted : ∀ node ∈ setup.nodes, (participants node).inMap = true)
    (hends : AbortEnds setup participants trace σ) :
    (RanAt .abort trace node ↔ node ∈ setup.nodes) ∧
      (node ∈ setup.nodes → (σ.participants node).inMap = false) := by
  obtain ⟨rest, rfl, hrun, _, hhandled⟩ := hends
  have haccounts := (accounts_callAbort hlisted).run hrun
  have hsent : σ.sent = requests setup .abort := by
    rw [abort_sends_once hrun, callAbort, if_neg (by simp [hdist])]
    simp [startAbort, init]
  have hall : ∀ i < setup.nodes.length, ⟨.abort, i⟩ ∈ σ.sent := by
    intro i hi
    simp [hsent, requests, hi]
  constructor
  · apply haccounts.reaches hdist hall hhandled
    intro node hnode hout
    rcases haccounts.gone node hnode hout with hran | hran
    · rcases haccounts.asked .commit node hran with ⟨i, hi, _⟩ | ⟨hsingle, _⟩
      · rw [hsent] at hi
        cases mem_requests hi
      · rw [hdist] at hsingle
        cases hsingle
    · exact hran
  · intro hnode
    obtain ⟨i, hi, hget⟩ := List.mem_iff_getElem.mp hnode
    obtain ⟨ok, hok⟩ := hhandled _ (hall i hi)
    exact haccounts.cleared i ok node hok (List.getElem?_eq_some_iff.mpr ⟨hi, hget⟩)

/-- A transaction at the coordinator alone needs no request. -/
structure Alone (setup : CommitSetup) (past : List (CallAction × Event)) (σ : CommitRun) :
    Prop where
  branch : InSingleBranch σ.pc
  notRemote : σ.pc ≠ .remoteCommit ∧ σ.pc ≠ .remoteAbort
  sent : σ.sent = []
  ran : σ.pc ≠ .start → RanAt .commit past setup.listen

theorem Alone.step (hlocal : IsLocal setup) (h : Alone setup past σ)
    (htransition : Transition setup σ action event σ') :
    Alone setup (past ++ [(action, event)]) σ' := by
  have hnot : ¬ IsRemote setup := by
    rintro ⟨_, hother⟩
    exact hother _ hlocal.2 rfl
  have hran (hpc : σ.pc ≠ .start) : RanAt .commit (past ++ [(action, event)]) setup.listen :=
    ranAt_append_iff.mpr (.inl (h.ran hpc))
  cases htransition with
  | handled rpc _ _ hsent _ =>
      rw [h.sent] at hsent
      cases hsent
  | changed _ _ => exact ⟨h.branch, h.notRemote, h.sent, hran⟩
  | localCommit hstart _ =>
      refine ⟨?_, ?_, h.sent, fun _ => ranAt_append_iff.mpr (.inr rfl)⟩
      · dsimp only
        split <;> simp [InSingleBranch]
      · dsimp only
        split <;> simp
  | localAbort hpc =>
      exact ⟨by simp [InSingleBranch], by simp, h.sent, fun _ => hran (by simp [hpc])⟩
  | remoteSend _ hremote | initFails _ hremote => exact absurd hremote hnot
  | remoteYes hpc _ | remoteNo hpc => exact absurd hpc h.notRemote.1
  | remoteDone _ hpc => exact absurd hpc h.notRemote.2
  | decided _ _ _ _ hdecides hstart _ _ =>
      have hdist := hstart (hdecides.not_single h.branch)
      simp [hlocal.1] at hdist

theorem local_commits (hlocal : IsLocal setup)
    (hlisted : ∀ node ∈ setup.nodes, (participants node).inMap = true)
    (hends : CommitEnds setup participants trace σ) :
    RanAt .commit trace node ↔ node = setup.listen := by
  obtain ⟨hrun, hpc, _⟩ := hends
  have haccounts : Accounts setup trace σ := (accounts_init hlisted).run hrun
  have halone : Alone setup trace σ := by
    refine hrun.preserves_past (Alone setup) ?_ ?_
    · rintro past σ ⟨action, event⟩ σ' ⟨_, hstep⟩ h
      exact h.step hlocal (call_transition hstep)
    · constructor <;> simp [init, InSingleBranch]
  constructor
  · intro hran
    rcases haccounts.asked .commit node hran with ⟨i, hi, _⟩ | ⟨_, hlisten⟩
    · rw [halone.sent] at hi
      cases hi
    · exact hlisten
  · rintro rfl
    exact halone.ran (by simp [hpc])

/-- Outside of two-phase commit `Abort` works on the coordinator, wherever the node is. -/
theorem single_aborts (hsingle : setup.isDistributed = false)
    (hlisted : ∀ node ∈ setup.nodes, (participants node).inMap = true)
    (hends : AbortEnds setup participants trace σ) :
    (∀ node, RanAt .abort trace node ↔ node = setup.listen) ∧
      (σ.participants setup.listen).inMap = false := by
  obtain ⟨rest, rfl, hrun, _, _⟩ := hends
  have haccounts := (accounts_callAbort hlisted).run hrun
  have hsent : σ.sent = [] := by
    rw [abort_sends_once hrun, callAbort, if_pos hsingle]
    rfl
  constructor
  · intro node
    constructor
    · intro hran
      rcases haccounts.asked .abort node hran with ⟨i, hi, _⟩ | ⟨_, hlisten⟩
      · rw [hsent] at hi
        cases hi
      · exact hlisten
    · rintro rfl
      exact ⟨_, List.mem_cons_self, by rw [callAbort, if_pos hsingle]; rfl⟩
  · refine hrun.preserves (fun σ => (σ.participants setup.listen).inMap = false) ?_ ?_
    · rintro σ ⟨action, event⟩ σ' ⟨hkeeps, hstep⟩ hout
      exact (call_transition hstep).stays_out hkeeps hout
    · simp [callAbort, hsingle, Participant.abortSingle]

/-- A single other node that has the transaction can commit it without any failure. -/
theorem remote_commit_ends (hremote : IsRemote setup) (hnode : setup.nodes.head? = some node) :
    ∃ trace σ, CommitEnds setup (fun _ => ⟨.growing, true⟩) trace σ ∧
      RanAt .commit trace node := by
  obtain ⟨hsingle, hother⟩ := hremote
  have hne : node ≠ setup.listen := hother node hnode
  obtain ⟨listen, isDistributed, nodes, enableLogging⟩ := setup
  obtain ⟨rest, rfl⟩ : ∃ rest, nodes = node :: rest := List.head?_eq_some_iff.mp hnode
  have hrun : Lts.Run (MapStep ⟨listen, isDistributed, node :: rest, enableLogging⟩)
      (init fun _ => ⟨.growing, true⟩)
      [(.run .advance, .silent), (.run (.deliver ⟨.commit, 0⟩ true), .commitSingle node true),
        (.run (.receive true), .silent)]
      ⟨.returned true, Function.update (fun _ => ⟨.growing, true⟩) node ⟨.committed, false⟩,
        [⟨.commit, 0⟩], [(⟨.commit, 0⟩, true)]⟩ := by
    apply Lts.Run.cons (t := ⟨.remoteCommit, fun _ => ⟨.growing, true⟩, [⟨.commit, 0⟩], []⟩)
    · refine ⟨trivial, ?_⟩
      simp_all [Lts.Steps, callStep, step, advance, init]
    apply Lts.Run.cons (t := ⟨.remoteCommit,
      Function.update (fun _ => ⟨.growing, true⟩) node ⟨.committed, false⟩,
      [⟨.commit, 0⟩], [(⟨.commit, 0⟩, true)]⟩)
    · refine ⟨trivial, ?_⟩
      simp [Lts.Steps, callStep, step, handle, Participant.commitSingle]
    apply Lts.Run.single
    refine ⟨trivial, ?_⟩
    simp [Lts.Steps, callStep, step, awaited, collect]
  refine ⟨_, _, ⟨hrun, rfl, ?_⟩, ?_⟩
  · simp [AllHandled]
  · simp [RanAt, Event.ran]

/-- For a node set that is not empty: `Abort` reaches the nodes that `Commit` reaches
exactly if the transaction is distributed or its node is the coordinator. -/
theorem abort_reaches_commit_iff (hnodes : setup.nodes ≠ []) :
    AbortReachesCommit setup ↔
      setup.isDistributed = true ∨ setup.nodes.head? = some setup.listen := by
  constructor
  · intro hreaches
    by_contra hnot
    obtain ⟨hsingle, hother⟩ := not_or.mp hnot
    obtain ⟨node, hnode⟩ := Option.isSome_iff_exists.mp (List.isSome_head?.mpr hnodes)
    have hne : node ≠ setup.listen := by
      rintro rfl
      exact hother hnode
    have hsingle : setup.isDistributed = false := by simpa using hsingle
    have hremote : IsRemote setup := ⟨hsingle, by simpa [hnode] using hne⟩
    obtain ⟨committing, σ, hcommit, hran⟩ := remote_commit_ends hremote hnode
    have habort : AbortEnds setup (fun _ => ⟨.growing, true⟩)
        [(.run .advance, (callAbort setup fun _ => ⟨.growing, true⟩).2)]
        (callAbort setup fun _ => ⟨.growing, true⟩).1 := by
      refine ⟨[], rfl, .nil _, ⟨true, ?_⟩, ?_⟩
      · simp [callAbort, hsingle]
      · simp [callAbort, hsingle, AllHandled, init]
    obtain ⟨hsame, _⟩ := hreaches _ _ _ _ _ (fun _ _ => rfl) hcommit habort
    obtain ⟨haborts, _⟩ := single_aborts hsingle (fun _ _ => rfl) habort
    exact hne ((haborts node).mp ((hsame node).mpr hran))
  · intro hcond participants committing σ aborting σ' hlisted hcommit habort
    cases hdist : setup.isDistributed with
    | true =>
        constructor
        · intro node
          rw [(distributed_aborts hdist hlisted habort).1,
            distributed_commits hdist hlisted hcommit]
        · intro node hran
          exact (distributed_aborts hdist hlisted habort).2
            ((distributed_commits hdist hlisted hcommit).mp hran)
    | false =>
        have hlocal : IsLocal setup := ⟨hdist, hcond.resolve_left (by simp [hdist])⟩
        constructor
        · intro node
          rw [(single_aborts hdist hlisted habort).1 node, local_commits hlocal hlisted hcommit]
        · intro node hran
          rw [(local_commits hlocal hlisted hcommit).mp hran]
          exact (single_aborts hdist hlisted habort).2

/-- Both nodes of `withListen` are told to abort. -/
def bothAbort : List (CallAction × Event) :=
  [(.run .advance, .silent),
    (.run (.deliver ⟨.abort, 1⟩ true), .abortSingle ⟨"10.0.0.2", 8000⟩),
    (.run (.deliver ⟨.abort, 0⟩ true), .abortSingle ⟨"10.0.0.1", 8000⟩),
    (.run (.receive true), .silent), (.run (.receive true), .silent), (.run .advance, .silent)]

theorem withListen_abort_reaches :
    AbortReachesCommit withListen ∧
      (∃ σ, CommitEnds withListen (fun _ => ⟨.growing, true⟩) bothCommit σ) ∧
      (∃ σ, AbortEnds withListen (fun _ => ⟨.growing, true⟩) bothAbort σ) ∧
      ∀ node ∈ withListen.nodes, RanAt .commit bothCommit node ∧ RanAt .abort bothAbort node := by
  refine ⟨(abort_reaches_commit_iff (by decide)).mpr (.inl rfl), ?_, ?_, by decide⟩
  · obtain ⟨σ, hrun, hview⟩ : ∃ σ, Lts.Run (MapStep withListen)
        (init fun _ => ⟨.growing, true⟩) bothCommit σ ∧
        decide (σ.pc = .returned true ∧ ∀ rpc ∈ σ.sent, rpc ∈ σ.answers.map Prod.fst) = true :=
      Lts.run_of_exec_view (fun σ : CommitRun => decide (σ.pc = .returned true ∧
        ∀ rpc ∈ σ.sent, rpc ∈ σ.answers.map Prod.fst)) bothCommit (by decide +kernel)
    obtain ⟨hpc, hsent⟩ := of_decide_eq_true hview
    exact ⟨σ, hrun, hpc, by simpa [AllHandled] using hsent⟩
  · obtain ⟨σ, hrun, hview⟩ : ∃ σ, Lts.Run (MapStep withListen)
        (callAbort withListen fun _ => ⟨.growing, true⟩).1 bothAbort.tail σ ∧
        decide (σ.pc = .returned false ∧ ∀ rpc ∈ σ.sent, rpc ∈ σ.answers.map Prod.fst) = true :=
      Lts.run_of_exec_view (fun σ : CommitRun => decide (σ.pc = .returned false ∧
        ∀ rpc ∈ σ.sent, rpc ∈ σ.answers.map Prod.fst)) bothAbort.tail (by decide +kernel)
    obtain ⟨hpc, hsent⟩ := of_decide_eq_true hview
    exact ⟨σ, bothAbort.tail, rfl, hrun, ⟨false, hpc⟩, by simpa [AllHandled] using hsent⟩

/-- `Commit` commits at the other node; `Abort` works on the coordinator, and the other
node keeps the transaction. -/
theorem oneRemote_abort_misses :
    (∃ committing σ aborting σ',
      CommitEnds oneRemote (fun _ => ⟨.growing, true⟩) committing σ ∧
      AbortEnds oneRemote (fun _ => ⟨.growing, true⟩) aborting σ' ∧
      RanAt .commit committing ⟨"10.0.0.2", 8000⟩ ∧
      ¬ RanAt .abort aborting ⟨"10.0.0.2", 8000⟩ ∧
      RanAt .abort aborting ⟨"10.0.0.1", 8000⟩ ∧
      (σ'.participants ⟨"10.0.0.2", 8000⟩).inMap = true) ∧
      ¬ AbortReachesCommit oneRemote := by
  obtain ⟨committing, σ, hcommit, hran⟩ : ∃ trace σ,
      CommitEnds oneRemote (fun _ => ⟨.growing, true⟩) trace σ ∧
        RanAt .commit trace ⟨"10.0.0.2", 8000⟩ := remote_commit_ends (by decide) rfl
  have habort : AbortEnds oneRemote (fun _ => ⟨.growing, true⟩)
      [(.run .advance, (callAbort oneRemote fun _ => ⟨.growing, true⟩).2)]
      (callAbort oneRemote fun _ => ⟨.growing, true⟩).1 :=
    ⟨[], rfl, .nil _, ⟨true, rfl⟩, by simp [AllHandled, callAbort, oneRemote, init]⟩
  refine ⟨⟨committing, σ, _, _, hcommit, habort, hran, by decide, by decide, by decide⟩, ?_⟩
  intro hreaches
  obtain ⟨hsame, _⟩ := hreaches _ _ _ _ _ (fun _ _ => rfl) hcommit habort
  exact absurd ((hsame ⟨"10.0.0.2", 8000⟩).mpr hran) (by decide)

end RucDDBS.CommitRun
