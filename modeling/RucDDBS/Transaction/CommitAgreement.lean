import RucDDBS.Transaction.CommitProtocol

/-!
Agreement of the two-phase commit. The coordinator sends Commit requests only
after it has collected a true answer from every Prepare call, and Abort
requests only after it has given up collecting; it never does both. Handlers
run only for requests that were sent, however late and however often, so the
two outcomes cannot meet. Late votes, lost responses and participants that have
already forgotten the transaction do not matter for this.
-/

namespace RucDDBS.CommitRun

variable {setup : CommitSetup} {σ σ' : CommitRun} {action : Action} {event : Event}

/-- A handler execution: the request kind, its answer and what is seen of it. -/
inductive Handled (node : IpPort) : RequestKind → Bool → Event → Prop
  | prepared (ok : Bool) : Handled node .prepare ok (.prepareCommit node ok)
  | committed (ok : Bool) : Handled node .commit ok (.commitSingle node ok)
  | aborted : Handled node .abort true (.abortSingle node)
  | missed (kind : RequestKind) : Handled node kind false (.notFound node)

theorem handle_handled (setup : CommitSetup) (appended : Bool) (node : IpPort)
    (p : Participant) (kind : RequestKind) :
    Handled node kind (handle setup appended node p kind).2.1
      (handle setup appended node p kind).2.2 := by
  cases kind with
  | prepare =>
      simp only [handle]
      split
      · exact .missed _
      · exact .prepared _
  | commit =>
      simp only [handle]
      split
      · exact .missed _
      · exact .committed _
  | abort =>
      simp only [handle]
      split
      · exact .missed _
      · exact .aborted

theorem startAbort_inMap (node : IpPort) :
    ((σ.startAbort setup).participants node).inMap = (σ.participants node).inMap := by
  simp only [startAbort, Function.update_apply]
  split
  case isTrue heq => rw [heq]
  case isFalse => rfl

/-- The coordinator on a distributed transaction: what it has collected decides
where it goes and which requests it adds. -/
inductive Decides (setup : CommitSetup) (answers : List (Rpc × Bool)) :
    CommitPc → CommitPc → List Rpc → Prop
  | prepareAll : Decides setup answers .start (.prepare 0) (requests setup .prepare)
  | yes (i : Nat) (hyes : (⟨.prepare, i⟩, true) ∈ answers) :
      Decides setup answers (.prepare i) (.prepare (i + 1)) []
  | no (i : Nat) : Decides setup answers (.prepare i) (.abort 0) (requests setup .abort)
  | commitAll (i : Nat) (hall : setup.nodes.length ≤ i) :
      Decides setup answers (.prepare i) (.commit 0) (requests setup .commit)
  | aborting (i : Nat) : Decides setup answers (.abort i) (.abort (i + 1)) []
  | aborted (i : Nat) : Decides setup answers (.abort i) (.returned false) []
  | committing (i : Nat) : Decides setup answers (.commit i) (.commit (i + 1)) []
  | committed (i : Nat) : Decides setup answers (.commit i) (.returned true) []

/-- Everything that a step can do while a distributed transaction commits. -/
inductive Effect (setup : CommitSetup) (σ : CommitRun) : Event → CommitRun → Prop
  | handled (rpc : Rpc) (node : IpPort) (ok : Bool) (event : Event)
      (participants : IpPort → Participant) (hsent : rpc ∈ σ.sent)
      (hnode : setup.nodes[rpc.index]? = some node)
      (hhandled : Handled node rpc.kind ok event) :
      Effect setup σ event
        { σ with participants := participants, answers := (rpc, ok) :: σ.answers }
  | changed (participants : IpPort → Participant) :
      Effect setup σ .silent { σ with participants := participants }
  | decided (pc : CommitPc) (requests : List Rpc) (participants : IpPort → Participant)
      (hdecides : Decides setup σ.answers σ.pc pc requests) :
      Effect setup σ .silent
        { σ with pc := pc, participants := participants, sent := requests ++ σ.sent }

/-- The program points of the distributed branch. -/
def InDistributedBranch (pc : CommitPc) : Prop :=
  pc ≠ .localAbort ∧ pc ≠ .remoteCommit ∧ pc ≠ .remoteAbort

theorem advance_effect (hdist : setup.isDistributed = true)
    (hpc : InDistributedBranch σ.pc) (h : σ.advance setup = some (σ', event)) :
    Effect setup σ event σ' := by
  have hdecided (pc : CommitPc) (requests : List Rpc)
      (hdecides : Decides setup σ.answers σ.pc pc requests)
      (h : some ({ σ with pc := pc, sent := requests ++ σ.sent }, Event.silent) =
        some (σ', event)) : Effect setup σ event σ' := by
    cases h
    exact .decided pc requests σ.participants hdecides
  unfold advance at h
  split at h
  next hstart =>
    rw [if_neg (by simp [hdist])] at h
    exact hdecided _ _ (hstart ▸ .prepareAll) h
  next hlocal => exact absurd hlocal hpc.1
  next i hprepare =>
    split at h
    · cases h
    next hall => exact hdecided _ _ (hprepare ▸ .commitAll i (by omega)) h
  next i habort =>
    split at h
    · cases h
    · exact hdecided _ [] (habort ▸ .aborted i) h
  next i hcommit =>
    split at h
    · cases h
    · exact hdecided _ [] (hcommit ▸ .committed i) h
  all_goals cases h

/-- A vote that is read as yes has been answered with yes. -/
theorem awaited_prepare {rpc : Rpc} {ok : Bool} (hrpc : σ.awaited setup = some rpc)
    (hok : ok = false ∨ (rpc, true) ∈ σ.answers) (i : Nat) (hprepare : σ.pc = .prepare i)
    (htrue : ok = true) : (⟨.prepare, i⟩, true) ∈ σ.answers := by
  simp only [awaited, hprepare, Option.ite_none_right_eq_some, Option.some.injEq] at hrpc
  rw [hrpc.2]
  exact hok.resolve_left (by simp [htrue])

theorem collect_effect {rpc : Rpc} {ok : Bool} (hpc : InDistributedBranch σ.pc)
    (hrpc : σ.awaited setup = some rpc) (hok : ok = false ∨ (rpc, true) ∈ σ.answers) :
    Effect setup σ .silent (σ.collect setup ok) := by
  have hstay (pc : CommitPc) (hdecides : Decides setup σ.answers σ.pc pc []) :
      Effect setup σ .silent { σ with pc := pc } :=
    .decided pc [] σ.participants hdecides
  have hyes := awaited_prepare hrpc hok
  unfold awaited at hrpc
  unfold collect
  split
  next hremote => exact absurd hremote hpc.2.1
  next hremote => exact absurd hremote hpc.2.2
  next i hprepare =>
    split
    next htrue => exact hstay _ (hprepare ▸ .yes i (hyes i hprepare htrue))
    next => exact .decided _ _ _ (hprepare ▸ .no i)
  next i habort =>
    split
    · exact hstay _ (habort ▸ .aborting i)
    · exact hstay _ (habort ▸ .aborted i)
  next i hcommit => exact hstay _ (hcommit ▸ .committing i)
  next hpc => simp [hpc] at hrpc
  next hpc => simp [hpc] at hrpc
  next hpc => simp [hpc] at hrpc

theorem step_effect (hdist : setup.isDistributed = true) (hpc : InDistributedBranch σ.pc)
    (h : step setup σ action = some (σ', event)) : Effect setup σ event σ' := by
  cases action with
  | advance => exact advance_effect hdist hpc h
  | receive ok =>
      obtain ⟨rpc, hrpc, hrest⟩ := Option.bind_eq_some_iff.mp h
      split at hrest
      next hok =>
        cases hrest
        exact collect_effect hpc hrpc hok
      next => cases hrest
  | deliver rpc appended =>
      obtain ⟨node, hnode, hrest⟩ := Option.bind_eq_some_iff.mp h
      split at hrest
      next hsent =>
        cases hrest
        exact .handled rpc node _ _ _ hsent hnode (handle_handled _ _ _ _ _)
      next => cases hrest
  | change node participant =>
      cases h
      exact .changed _

def Committing (pc : CommitPc) : Prop := (∃ i, pc = .commit i) ∨ pc = .returned true

def Aborting (pc : CommitPc) : Prop := (∃ i, pc = .abort i) ∨ pc = .returned false

theorem not_committing_aborting {pc : CommitPc} (hc : Committing pc) : ¬ Aborting pc := by
  rcases hc with ⟨i, rfl⟩ | rfl
  · rintro (⟨j, h⟩ | h) <;> cases h
  · rintro (⟨j, h⟩ | h) <;> cases h

/-- Every Prepare call has been answered with true. -/
def AllVoted (setup : CommitSetup) (answers : List (Rpc × Bool)) : Prop :=
  ∀ i < setup.nodes.length, (⟨.prepare, i⟩, true) ∈ answers

/-- The protocol invariant, over the labels so far and the present state. -/
structure Agreement (setup : CommitSetup) (past : List (Action × Event)) (σ : CommitRun) :
    Prop where
  branch : InDistributedBranch σ.pc
  collected : ∀ i, σ.pc = .prepare i → ∀ j < i, (⟨.prepare, j⟩, true) ∈ σ.answers
  commits : ∀ i, ⟨.commit, i⟩ ∈ σ.sent → Committing σ.pc ∧ AllVoted setup σ.answers
  aborts : ∀ i, ⟨.abort, i⟩ ∈ σ.sent → Aborting σ.pc
  votes : ∀ i node, (⟨.prepare, i⟩, true) ∈ σ.answers → setup.nodes[i]? = some node →
    ∃ action, (action, .prepareCommit node true) ∈ past
  committed : ∀ action node ok, (action, .commitSingle node ok) ∈ past →
    ∃ i, ⟨.commit, i⟩ ∈ σ.sent
  aborted : ∀ action node, (action, .abortSingle node) ∈ past → ∃ i, ⟨.abort, i⟩ ∈ σ.sent

theorem agreement_init (setup : CommitSetup) (participants : IpPort → Participant) :
    Agreement setup [] (init participants) := by
  constructor <;> simp [init, InDistributedBranch]

theorem mem_requests {kind kind' : RequestKind} {i : Nat}
    (h : ⟨kind, i⟩ ∈ requests setup kind') : kind = kind' := by
  simp only [requests, List.mem_map, Rpc.mk.injEq] at h
  obtain ⟨_, _, hkind, _⟩ := h
  exact hkind.symm

/-- Among requests of another kind, a request was there before. -/
theorem old_request {kind kind' : RequestKind} {i : Nat} {sent : List Rpc} (hne : kind ≠ kind')
    (h : ⟨kind, i⟩ ∈ requests setup kind' ++ sent) : ⟨kind, i⟩ ∈ sent := by
  rcases List.mem_append.mp h with hnew | hold
  · exact absurd (mem_requests hnew) hne
  · exact hold

section Steps

variable {past : List (Action × Event)}

/-- A handler adds an answer and an event, for a request that was sent. -/
theorem Agreement.handled {rpc : Rpc} {node : IpPort} {ok : Bool}
    {participants : IpPort → Participant} (h : Agreement setup past σ)
    (hsent : rpc ∈ σ.sent) (hnode : setup.nodes[rpc.index]? = some node)
    (hhandled : Handled node rpc.kind ok event) :
    Agreement setup (past ++ [(action, event)])
      { σ with participants := participants, answers := (rpc, ok) :: σ.answers } where
  branch := h.branch
  collected := by
    intro i hi j hj
    exact List.mem_cons_of_mem _ (h.collected i hi j hj)
  commits := by
    intro i hi
    obtain ⟨hpc, hall⟩ := h.commits i hi
    exact ⟨hpc, fun j hj => List.mem_cons_of_mem _ (hall j hj)⟩
  aborts := h.aborts
  votes := by
    intro i node' hi hnode'
    rcases List.mem_cons.mp hi with heq | hold
    · cases heq
      have hsame : node = node' := Option.some.inj (hnode.symm.trans hnode')
      subst hsame
      cases hhandled
      exact ⟨action, by simp⟩
    · obtain ⟨action', hmem⟩ := h.votes i node' hold hnode'
      exact ⟨action', by simp [hmem]⟩
  committed := by
    intro action' node' ok' hmem
    rcases List.mem_append.mp hmem with hold | hnew
    · exact h.committed action' node' ok' hold
    · simp only [List.mem_singleton, Prod.mk.injEq] at hnew
      obtain ⟨-, rfl⟩ := hnew
      rcases rpc with ⟨kind, i⟩
      cases hhandled
      exact ⟨i, hsent⟩
  aborted := by
    intro action' node' hmem
    rcases List.mem_append.mp hmem with hold | hnew
    · exact h.aborted action' node' hold
    · simp only [List.mem_singleton, Prod.mk.injEq] at hnew
      obtain ⟨-, rfl⟩ := hnew
      rcases rpc with ⟨kind, i⟩
      cases hhandled
      exact ⟨i, hsent⟩

/-- Steps without an event leave the facts about the past alone, and requests
once sent stay sent. -/
theorem Agreement.silent (h : Agreement setup past σ)
    (hanswers : σ'.answers = σ.answers) (hsent : ∀ rpc ∈ σ.sent, rpc ∈ σ'.sent)
    (hbranch : InDistributedBranch σ'.pc)
    (hcollected : ∀ i, σ'.pc = .prepare i → ∀ j < i, (⟨.prepare, j⟩, true) ∈ σ.answers)
    (hcommits : ∀ i, ⟨.commit, i⟩ ∈ σ'.sent → Committing σ'.pc ∧ AllVoted setup σ.answers)
    (haborts : ∀ i, ⟨.abort, i⟩ ∈ σ'.sent → Aborting σ'.pc) :
    Agreement setup (past ++ [(action, .silent)]) σ' where
  branch := hbranch
  collected := by simpa only [hanswers] using hcollected
  commits := by simpa only [hanswers] using hcommits
  aborts := haborts
  votes := by
    intro i node hi hnode
    rw [hanswers] at hi
    obtain ⟨action', hmem⟩ := h.votes i node hi hnode
    exact ⟨action', by simp [hmem]⟩
  committed := by
    intro action' node ok hmem
    obtain ⟨i, hi⟩ := h.committed action' node ok (by simpa using hmem)
    exact ⟨i, hsent _ hi⟩
  aborted := by
    intro action' node hmem
    obtain ⟨i, hi⟩ := h.aborted action' node (by simpa using hmem)
    exact ⟨i, hsent _ hi⟩

/-- While the coordinator collects votes, no decision has been sent. -/
theorem Agreement.undecided (h : Agreement setup past σ)
    (hpc : σ.pc = .start ∨ ∃ i, σ.pc = .prepare i) (i : Nat) :
    ⟨.commit, i⟩ ∉ σ.sent ∧ ⟨.abort, i⟩ ∉ σ.sent := by
  constructor
  · intro hmem
    rcases (h.commits i hmem).1 with ⟨j, hj⟩ | hj <;> rcases hpc with hp | ⟨k, hp⟩ <;>
      simp [hp] at hj
  · intro hmem
    rcases h.aborts i hmem with ⟨j, hj⟩ | hj <;> rcases hpc with hp | ⟨k, hp⟩ <;>
      simp [hp] at hj

/-- Once the outcome is settled nothing more is sent, and the coordinator only goes on. -/
theorem Agreement.settled {pc : CommitPc} {participants : IpPort → Participant}
    (h : Agreement setup past σ) (hafter : Committing pc ∨ Aborting pc)
    (hcommits : ∀ i, ⟨.commit, i⟩ ∈ σ.sent → Committing pc)
    (haborts : ∀ i, ⟨.abort, i⟩ ∈ σ.sent → Aborting pc) :
    Agreement setup (past ++ [(action, .silent)])
      { σ with pc := pc, participants := participants } := by
  refine h.silent rfl (fun _ hrpc => hrpc) ?_ ?_ ?_ haborts
  · rcases hafter with (⟨i, rfl⟩ | rfl) | ⟨i, rfl⟩ | rfl <;> simp [InDistributedBranch]
  · intro i hi
    rw [show pc = .prepare i from hi] at hafter
    rcases hafter with (⟨j, hj⟩ | hj) | ⟨j, hj⟩ | hj <;> cases hj
  · intro i hi
    exact ⟨hcommits i hi, (h.commits i hi).2⟩

theorem Agreement.aborting {pc : CommitPc} {participants : IpPort → Participant}
    (h : Agreement setup past σ) (hbefore : Aborting σ.pc) (hafter : Aborting pc) :
    Agreement setup (past ++ [(action, .silent)])
      { σ with pc := pc, participants := participants } := by
  apply h.settled (.inr hafter)
  · intro i hi
    exact absurd hbefore (not_committing_aborting (h.commits i hi).1)
  · intro i _
    exact hafter

theorem Agreement.committing {pc : CommitPc} {participants : IpPort → Participant}
    (h : Agreement setup past σ) (hbefore : Committing σ.pc) (hafter : Committing pc) :
    Agreement setup (past ++ [(action, .silent)])
      { σ with pc := pc, participants := participants } := by
  apply h.settled (.inl hafter)
  · intro i _
    exact hafter
  · intro i hi
    exact absurd (h.aborts i hi) (not_committing_aborting hbefore)

theorem Agreement.decided {pc : CommitPc} {added : List Rpc}
    {participants : IpPort → Participant} (h : Agreement setup past σ)
    (hdecides : Decides setup σ.answers σ.pc pc added) :
    Agreement setup (past ++ [(action, .silent)])
      { σ with pc := pc, participants := participants, sent := added ++ σ.sent } := by
  have hkeep : ∀ rpc ∈ σ.sent, rpc ∈ added ++ σ.sent := by
    intro rpc hrpc
    simp [hrpc]
  generalize hpc : σ.pc = before at hdecides
  cases hdecides with
  | prepareAll =>
      refine h.silent rfl hkeep (by simp [InDistributedBranch]) ?_ ?_ ?_
      · intro i hi j hj
        cases hi
        exact absurd hj (by omega)
      · intro i hi
        exact absurd (old_request (by simp) hi) (h.undecided (.inl hpc) i).1
      · intro i hi
        exact absurd (old_request (by simp) hi) (h.undecided (.inl hpc) i).2
  | yes n hyes =>
      refine h.silent rfl hkeep (by simp [InDistributedBranch]) ?_ ?_ ?_
      · intro i hi j hj
        cases hi
        rcases Nat.lt_succ_iff_lt_or_eq.mp hj with hlt | rfl
        · exact h.collected n hpc j hlt
        · exact hyes
      · intro i hi
        exact absurd hi (h.undecided (.inr ⟨n, hpc⟩) i).1
      · intro i hi
        exact absurd hi (h.undecided (.inr ⟨n, hpc⟩) i).2
  | no n =>
      refine h.silent rfl hkeep (by simp [InDistributedBranch]) ?_ ?_ ?_
      · rintro i ⟨⟩
      · intro i hi
        exact absurd (old_request (by simp) hi) (h.undecided (.inr ⟨n, hpc⟩) i).1
      · intro i _
        exact .inl ⟨0, rfl⟩
  | commitAll n hall =>
      refine h.silent rfl hkeep (by simp [InDistributedBranch]) ?_ ?_ ?_
      · rintro i ⟨⟩
      · intro i _
        refine ⟨.inl ⟨0, rfl⟩, ?_⟩
        intro j hj
        exact h.collected n hpc j (by omega)
      · intro i hi
        exact absurd (old_request (by simp) hi) (h.undecided (.inr ⟨n, hpc⟩) i).2
  | aborting n => exact h.aborting (.inl ⟨n, hpc⟩) (.inl ⟨n + 1, rfl⟩)
  | aborted n => exact h.aborting (.inl ⟨n, hpc⟩) (.inr rfl)
  | committing n => exact h.committing (.inl ⟨n, hpc⟩) (.inl ⟨n + 1, rfl⟩)
  | committed n => exact h.committing (.inl ⟨n, hpc⟩) (.inr rfl)

theorem Agreement.step (hdist : setup.isDistributed = true) (h : Agreement setup past σ)
    (hstep : CommitRun.step setup σ action = some (σ', event)) :
    Agreement setup (past ++ [(action, event)]) σ' := by
  cases step_effect hdist h.branch hstep with
  | handled rpc node ok _ participants hsent hnode hhandled =>
      exact h.handled hsent hnode hhandled
  | changed participants =>
      exact h.silent rfl (fun _ hrpc => hrpc) h.branch h.collected h.commits h.aborts
  | decided pc added participants hdecides => exact h.decided hdecides

end Steps

theorem run_agreement (hdist : setup.isDistributed = true)
    {participants : IpPort → Participant} {trace : List (Action × Event)}
    (h : Run setup (init participants) trace σ) : Agreement setup trace σ := by
  refine Lts.Run.preserves_past (Agreement setup) ?_ h (agreement_init setup participants)
  rintro past s ⟨action, event⟩ t hstep hinv
  exact hinv.step hdist hstep

/-- Two-phase commit over any node set and any network behaviour. A commit at
one node needs the vote of every node, and no node aborts what another node
commits. -/
theorem commit_needs_votes_excludes_abort (hdist : setup.isDistributed = true)
    {participants : IpPort → Participant} {trace : List (Action × Event)}
    (h : Run setup (init participants) trace σ) {action : Action} {node : IpPort}
    (hcommit : (action, .commitSingle node true) ∈ trace) :
    (∀ node' ∈ setup.nodes, ∃ action', (action', .prepareCommit node' true) ∈ trace) ∧
      ∀ action' node', (action', .abortSingle node') ∉ trace := by
  have hinv := run_agreement hdist h
  obtain ⟨i, hi⟩ := hinv.committed action node true hcommit
  obtain ⟨hpc, hall⟩ := hinv.commits i hi
  constructor
  · intro node' hnode'
    obtain ⟨j, hj, hget⟩ := List.mem_iff_getElem.mp hnode'
    apply hinv.votes j node' (hall j hj)
    rw [List.getElem?_eq_getElem hj, hget]
  · intro action' node' habort
    obtain ⟨j, hj⟩ := hinv.aborted action' node' habort
    exact not_committing_aborting hpc (hinv.aborts j hj)

/-- Two nodes, neither of them the coordinator. -/
def twoNodes : CommitSetup where
  listen := ⟨"10.0.0.1", 8000⟩
  isDistributed := true
  nodes := [⟨"10.0.0.2", 8000⟩, ⟨"10.0.0.3", 8000⟩]
  enableLogging := true

/-- The second vote arrives first, the first Prepare request is handled twice,
and one of the two commit responses is lost. -/
def twoNodesCommit : List Action :=
  [.advance, .deliver ⟨.prepare, 1⟩ true, .deliver ⟨.prepare, 0⟩ true,
    .deliver ⟨.prepare, 0⟩ true, .receive true, .receive true, .advance,
    .deliver ⟨.commit, 1⟩ true, .receive false, .receive true, .advance]

def twoNodesEvents : List Event :=
  [.silent, .prepareCommit ⟨"10.0.0.3", 8000⟩ true, .prepareCommit ⟨"10.0.0.2", 8000⟩ true,
    .prepareCommit ⟨"10.0.0.2", 8000⟩ true, .silent, .silent, .silent,
    .commitSingle ⟨"10.0.0.3", 8000⟩ true, .silent, .silent, .silent]

theorem twoNodesCommit_agrees :
    ∃ σ, Run twoNodes (init fun _ => ⟨.growing, true⟩) (twoNodesCommit.zip twoNodesEvents) σ ∧
      σ.pc = .returned true ∧
      (∀ node' ∈ twoNodes.nodes, ∃ action',
        (action', .prepareCommit node' true) ∈ twoNodesCommit.zip twoNodesEvents) ∧
      ∀ action' node', (action', .abortSingle node') ∉ twoNodesCommit.zip twoNodesEvents := by
  have hrun : Run twoNodes (init fun _ => ⟨.growing, true⟩) _ _ :=
    Lts.run_of_exec twoNodesCommit twoNodesEvents rfl
  have hcommit : (Action.deliver ⟨.commit, 1⟩ true,
      Event.commitSingle ⟨"10.0.0.3", 8000⟩ true) ∈ twoNodesCommit.zip twoNodesEvents := by
    decide
  exact ⟨_, hrun, rfl, commit_needs_votes_excludes_abort rfl hrun hcommit⟩

end RucDDBS.CommitRun
