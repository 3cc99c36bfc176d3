import RucDDBS.Transaction.CommitAgreement

/-!
What `Commit` tells its caller and what it leaves at the nodes, over all three
of its branches: a transaction at the coordinator itself, one at a single other
node, and one at several nodes.

The branch for a single other node has no vote. It reads a lost response as a
refusal, sends an Abort request to a node that may have committed, and returns
false. It also never finishes the transaction at the coordinator, where `Begin`
has entered it; two-phase commit does so only if the coordinator is one of the
nodes.
-/

namespace RucDDBS.CommitRun

/-- `initFails`: in the branch for a single other node `Commit` returns before it
has sent anything. In the other branches such a failure is a lost request. -/
inductive CallAction where
  | run (action : Action)
  | initFails
  deriving DecidableEq, Repr

/-- The branch for the coordinator alone. -/
def IsLocal (setup : CommitSetup) : Prop :=
  setup.isDistributed = false ∧ setup.nodes.head? = some setup.listen

/-- The branch for a single other node. -/
def IsRemote (setup : CommitSetup) : Prop :=
  setup.isDistributed = false ∧ ∀ node ∈ setup.nodes.head?, node ≠ setup.listen

instance (setup : CommitSetup) : Decidable (IsRemote setup) :=
  inferInstanceAs (Decidable (_ ∧ ∀ node ∈ setup.nodes.head?, node ≠ setup.listen))

def callStep (setup : CommitSetup) (σ : CommitRun) : CallAction → Option (CommitRun × Event)
  | .run action => step setup σ action
  | .initFails =>
      if σ.pc = .start ∧ IsRemote setup ∧ setup.nodes ≠ [] then
        some ({ σ with pc := .returned false }, .silent)
      else none

abbrev CallRun (setup : CommitSetup) := Lts.Run (Lts.Steps (callStep setup))

/-- What a handler does to its node and to the answers. -/
def deliverTo (setup : CommitSetup) (σ : CommitRun) (rpc : Rpc) (appended : Bool)
    (node : IpPort) : CommitRun :=
  let result := handle setup appended node (σ.participants node) rpc.kind
  { σ with
    participants := Function.update σ.participants node result.1
    answers := (rpc, result.2.1) :: σ.answers }

/-- Everything that a step can do. The steps of two-phase commit are those of
`Decides`; they leave `txn_map` alone at every node. -/
inductive Transition (setup : CommitSetup) (σ : CommitRun) :
    CallAction → Event → CommitRun → Prop
  | handled (rpc : Rpc) (appended : Bool) (node : IpPort) (hsent : rpc ∈ σ.sent)
      (hnode : setup.nodes[rpc.index]? = some node) :
      Transition setup σ (.run (.deliver rpc appended))
        (handle setup appended node (σ.participants node) rpc.kind).2.2
        (σ.deliverTo setup rpc appended node)
  | changed (node : IpPort) (p : Participant) :
      Transition setup σ (.run (.change node p)) .silent
        { σ with participants := Function.update σ.participants node p }
  | localCommit (hstart : σ.pc = .start) (hlocal : IsLocal setup) :
      Transition setup σ (.run .advance)
        (.commitSingle setup.listen (σ.participants setup.listen).commitSingle.2)
        { σ with
          pc := if (σ.participants setup.listen).commitSingle.2 = true then .returned true
            else .localAbort
          participants := Function.update σ.participants setup.listen
            (σ.participants setup.listen).commitSingle.1 }
  | localAbort (hpc : σ.pc = .localAbort) :
      Transition setup σ (.run .advance) (.abortSingle setup.listen)
        { σ with
          pc := .returned false
          participants := Function.update σ.participants setup.listen
            (σ.participants setup.listen).abortSingle }
  | remoteSend (hstart : σ.pc = .start) (hremote : IsRemote setup) :
      Transition setup σ (.run .advance) .silent
        { σ with pc := .remoteCommit, sent := ⟨.commit, 0⟩ :: σ.sent }
  | remoteYes (hpc : σ.pc = .remoteCommit) (hyes : (⟨.commit, 0⟩, true) ∈ σ.answers) :
      Transition setup σ (.run (.receive true)) .silent { σ with pc := .returned true }
  | remoteNo (hpc : σ.pc = .remoteCommit) :
      Transition setup σ (.run (.receive false)) .silent
        { σ with pc := .remoteAbort, sent := ⟨.abort, 0⟩ :: σ.sent }
  | remoteDone (ok : Bool) (hpc : σ.pc = .remoteAbort) :
      Transition setup σ (.run (.receive ok)) .silent { σ with pc := .returned false }
  | initFails (hstart : σ.pc = .start) (hremote : IsRemote setup) :
      Transition setup σ .initFails .silent { σ with pc := .returned false }
  | decided (action : Action) (pc : CommitPc) (added : List Rpc)
      (participants : IpPort → Participant)
      (hdecides : Decides setup σ.answers σ.pc pc added)
      (hstart : σ.pc = .start → setup.isDistributed = true)
      (haction : action = .advance ∨ ∃ ok, action = .receive ok)
      (hmap : ∀ node, (participants node).inMap = (σ.participants node).inMap) :
      Transition setup σ (.run action) .silent
        { σ with pc := pc, participants := participants, sent := added ++ σ.sent }

variable {setup : CommitSetup} {σ σ' : CommitRun} {action : CallAction} {event : Event}

theorem advance_transition (h : σ.advance setup = some (σ', event)) :
    Transition setup σ (.run .advance) event σ' := by
  have hdecided (pc : CommitPc) (added : List Rpc)
      (hdecides : Decides setup σ.answers σ.pc pc added)
      (hstart : σ.pc = .start → setup.isDistributed = true)
      (h : some ({ σ with pc := pc, sent := added ++ σ.sent }, Event.silent) =
        some (σ', event)) : Transition setup σ (.run .advance) event σ' := by
    cases h
    exact .decided _ pc added σ.participants hdecides hstart (.inl rfl) fun _ => rfl
  unfold advance at h
  split at h
  next hstart =>
    split at h
    next hsingle =>
      split at h
      · cases h
      next node rest hnodes =>
        split at h
        next hlocal =>
          have hhome : IsLocal setup := ⟨hsingle, by simp [hnodes, hlocal]⟩
          cases h
          exact .localCommit hstart hhome
        next hother =>
          have hremote : IsRemote setup := by
            simp [IsRemote, hnodes, hsingle, hother]
          cases h
          exact .remoteSend hstart hremote
    next hdist =>
      exact hdecided _ _ (hstart ▸ .prepareAll) (fun _ => by simpa using hdist) h
  next hlocal =>
    cases h
    exact .localAbort hlocal
  next i hprepare =>
    split at h
    · cases h
    next hall =>
      exact hdecided _ _ (hprepare ▸ .commitAll i (by omega)) (by simp [hprepare]) h
  next i habort =>
    split at h
    · cases h
    · exact hdecided _ [] (habort ▸ .aborted i) (by simp [habort]) h
  next i hcommit =>
    split at h
    · cases h
    · exact hdecided _ [] (hcommit ▸ .committed i) (by simp [hcommit]) h
  all_goals cases h

theorem collect_transition {rpc : Rpc} {ok : Bool} (hrpc : σ.awaited setup = some rpc)
    (hok : ok = false ∨ (rpc, true) ∈ σ.answers) :
    Transition setup σ (.run (.receive ok)) .silent (σ.collect setup ok) := by
  have hstay (pc : CommitPc) (hdecides : Decides setup σ.answers σ.pc pc [])
      (hpc : σ.pc ≠ .start) :
      Transition setup σ (.run (.receive ok)) .silent { σ with pc := pc } :=
    .decided _ pc [] σ.participants hdecides (fun hstart => absurd hstart hpc)
      (.inr ⟨ok, rfl⟩) fun _ => rfl
  have hyes := awaited_prepare hrpc hok
  unfold awaited at hrpc
  unfold collect
  split
  next hremote =>
    rw [hremote] at hrpc
    cases hrpc
    cases ok with
    | true => exact .remoteYes hremote (hok.resolve_left (by simp))
    | false => exact .remoteNo hremote
  next hremote => exact .remoteDone ok hremote
  next i hprepare =>
    split
    next htrue => exact hstay _ (hprepare ▸ .yes i (hyes i hprepare htrue)) (by simp [hprepare])
    next =>
      exact .decided _ _ _ _ (hprepare ▸ .no i) (by simp [hprepare]) (.inr ⟨ok, rfl⟩)
        startAbort_inMap
  next i habort =>
    split
    · exact hstay _ (habort ▸ .aborting i) (by simp [habort])
    · exact hstay _ (habort ▸ .aborted i) (by simp [habort])
  next i hcommit => exact hstay _ (hcommit ▸ .committing i) (by simp [hcommit])
  all_goals
    next hpc => simp [hpc] at hrpc

theorem call_transition (h : callStep setup σ action = some (σ', event)) :
    Transition setup σ action event σ' := by
  cases action with
  | initFails =>
      simp only [callStep] at h
      split at h
      next hcond =>
        cases h
        exact .initFails hcond.1 hcond.2.1
      next => cases h
  | run action =>
      cases action with
      | advance => exact advance_transition h
      | receive ok =>
          obtain ⟨rpc, hrpc, hrest⟩ := Option.bind_eq_some_iff.mp h
          split at hrest
          next hok =>
            cases hrest
            exact collect_transition hrpc hok
          next => cases hrest
      | deliver rpc appended =>
          obtain ⟨node, hnode, hrest⟩ := Option.bind_eq_some_iff.mp h
          split at hrest
          next hsent =>
            cases hrest
            exact .handled rpc appended node hsent hnode
          next => cases hrest
      | change node participant =>
          cases h
          exact .changed node participant

/-- The program points of the branches without a vote. -/
def InSingleBranch (pc : CommitPc) : Prop :=
  ∀ i, pc ≠ .prepare i ∧ pc ≠ .abort i ∧ pc ≠ .commit i

/-- Outside of two-phase commit none of its steps is taken. -/
theorem Decides.not_single {answers : List (Rpc × Bool)} {pc pc' : CommitPc} {added : List Rpc}
    (hdecides : Decides setup answers pc pc' added) (hbranch : InSingleBranch pc) :
    pc = .start := by
  cases hdecides with
  | prepareAll => rfl
  | yes i _ | no i | commitAll i _ => exact absurd rfl (hbranch i).1
  | aborting i | aborted i => exact absurd rfl (hbranch i).2.1
  | committing i | committed i => exact absurd rfl (hbranch i).2.2

section Result

/-- `Commit` has taken the result of its Commit call for a refusal, or has
returned false. -/
def GivenUp (pc : CommitPc) : Prop := pc = .remoteAbort ∨ pc = .returned false

instance (pc : CommitPc) : Decidable (GivenUp pc) :=
  inferInstanceAs (Decidable (pc = .remoteAbort ∨ pc = .returned false))

/-- A Commit call at a single other node reads as refused only if no handler has
committed, and once it does, a handler that runs late finds nothing to commit. -/
def Truthful (setup : CommitSetup) (σ : CommitRun) : CallAction → Prop
  | .run (.receive false) => σ.pc = .remoteCommit → (⟨.commit, 0⟩, true) ∉ σ.answers
  | .run (.deliver rpc _) => rpc.kind = .commit → GivenUp σ.pc →
      ∀ node ∈ setup.nodes[rpc.index]?,
        (σ.participants node).inMap = false ∨ (σ.participants node).state = .aborted
  | _ => True

instance (setup : CommitSetup) (σ : CommitRun) : DecidablePred (σ.Truthful setup)
  | .run (.receive false) =>
      inferInstanceAs (Decidable (σ.pc = .remoteCommit → (⟨.commit, 0⟩, true) ∉ σ.answers))
  | .run (.deliver rpc _) =>
      inferInstanceAs (Decidable (rpc.kind = .commit → GivenUp σ.pc →
        ∀ node ∈ setup.nodes[rpc.index]?,
          (σ.participants node).inMap = false ∨ (σ.participants node).state = .aborted))
  | .run (.receive true) | .run .advance | .run (.change _ _) | .initFails => .isTrue trivial

def TruthfulStep (setup : CommitSetup) (σ : CommitRun) (label : CallAction × Event)
    (σ' : CommitRun) : Prop :=
  σ.Truthful setup label.1 ∧ Lts.Steps (callStep setup) σ label σ'

/-- A node has completed `CommitSingle` with true. -/
def HasCommitted (past : List (CallAction × Event)) : Prop :=
  ∃ action node, (action, .commitSingle node true) ∈ past

def HasAborted (past : List (CallAction × Event)) : Prop :=
  ∃ action node, (action, .abortSingle node) ∈ past

variable {past trace : List (CallAction × Event)}

theorem exists_event_append_iff (f : IpPort → Event) :
    (∃ action' node, (action', f node) ∈ past ++ [(action, event)]) ↔
      (∃ action' node, (action', f node) ∈ past) ∨ ∃ node, event = f node := by
  constructor
  · rintro ⟨action', node, hmem⟩
    rcases List.mem_append.mp hmem with hold | hnew
    · exact .inl ⟨action', node, hold⟩
    · simp only [List.mem_singleton, Prod.mk.injEq] at hnew
      exact .inr ⟨node, hnew.2.symm⟩
  · rintro (⟨action', node, hmem⟩ | ⟨node, rfl⟩)
    · exact ⟨action', node, by simp [hmem]⟩
    · exact ⟨action, node, by simp⟩

theorem hasCommitted_append_iff :
    HasCommitted (past ++ [(action, event)]) ↔
      HasCommitted past ∨ ∃ node, event = .commitSingle node true :=
  exists_event_append_iff fun node => .commitSingle node true

theorem hasAborted_append_iff :
    HasAborted (past ++ [(action, event)]) ↔
      HasAborted past ∨ ∃ node, event = .abortSingle node :=
  exists_event_append_iff .abortSingle

theorem handle_commit_answer {appended : Bool} {node : IpPort} {p : Participant} :
    (handle setup appended node p .commit).2.1 = true ↔
      ¬ (p.inMap = false ∨ p.state = .aborted) := by
  by_cases hmap : p.inMap = false
  · simp [handle, hmap]
  · by_cases hstate : p.state = .aborted
    · simp [handle, hmap, Participant.commitSingle, hstate]
    · simp [handle, hmap, Participant.commitSingle, hstate]

/-- A Commit handler commits exactly if it answers true. -/
theorem handle_commits_iff {appended : Bool} {node : IpPort} {p : Participant}
    {kind : RequestKind} :
    (∃ node', (handle setup appended node p kind).2.2 = .commitSingle node' true) ↔
      kind = .commit ∧ ¬ (p.inMap = false ∨ p.state = .aborted) := by
  cases kind with
  | prepare =>
      by_cases hmap : p.inMap = false
      · simp [handle, hmap]
      · simp [handle, hmap]
  | abort =>
      by_cases hmap : p.inMap = false
      · simp [handle, hmap]
      · simp [handle, hmap]
  | commit =>
      have hevent : (∃ node', (handle setup appended node p .commit).2.2 =
          .commitSingle node' true) ↔ (handle setup appended node p .commit).2.1 = true := by
        rw [handle]
        split <;> simp
      rw [hevent, handle_commit_answer]
      exact (and_iff_right rfl).symm

theorem handle_aborts {appended : Bool} {node node' : IpPort} {p : Participant}
    {kind : RequestKind}
    (h : (handle setup appended node p kind).2.2 = .abortSingle node') : kind = .abort := by
  have hhandled := handle_handled setup appended node p kind
  rw [h] at hhandled
  generalize (handle setup appended node p kind).2.1 = ok at hhandled
  cases hhandled
  rfl

/-- The invariant of the branches without a vote. -/
structure Single (past : List (CallAction × Event)) (σ : CommitRun) : Prop where
  branch : InSingleBranch σ.pc
  quiet : σ.pc = .start ∨ σ.pc = .localAbort → σ.sent = [] ∧ ¬ HasCommitted past
  commitSent : ∀ i, ⟨.commit, i⟩ ∈ σ.sent → i = 0
  abortSent : ∀ i, ⟨.abort, i⟩ ∈ σ.sent → GivenUp σ.pc
  aborted : HasAborted past → GivenUp σ.pc
  committed : HasCommitted past → (⟨.commit, 0⟩, true) ∈ σ.answers ∨ σ.pc = .returned true
  answered : (⟨.commit, 0⟩, true) ∈ σ.answers → HasCommitted past

theorem single_init (participants : IpPort → Participant) :
    Single [] (init participants) := by
  constructor <;> simp [init, InSingleBranch, HasCommitted, HasAborted]

theorem Single.handled {rpc : Rpc} {appended : Bool} {node : IpPort} (h : Single past σ)
    (hsent : rpc ∈ σ.sent) :
    Single (past ++ [(action, (handle setup appended node (σ.participants node) rpc.kind).2.2)])
      (σ.deliverTo setup rpc appended node) := by
  obtain ⟨kind, i⟩ := rpc
  constructor
  · exact h.branch
  · intro hquiet
    rw [(h.quiet hquiet).1] at hsent
    cases hsent
  · exact h.commitSent
  · exact h.abortSent
  · intro haborted
    rcases hasAborted_append_iff.mp haborted with hold | ⟨node', hnew⟩
    · exact h.aborted hold
    · have hkind := handle_aborts hnew
      exact h.abortSent i (hkind ▸ hsent)
  · intro hcommitted
    rcases hasCommitted_append_iff.mp hcommitted with hold | hnew
    · exact (h.committed hold).imp (List.mem_cons_of_mem _) id
    · obtain ⟨hkind, hready⟩ := handle_commits_iff.mp hnew
      left
      subst hkind
      rw [h.commitSent i hsent]
      simp only [deliverTo]
      rw [handle_commit_answer.mpr hready]
      exact List.mem_cons_self
  · intro hanswered
    rw [hasCommitted_append_iff]
    rcases List.mem_cons.mp hanswered with heq | hold
    · right
      simp only [Prod.mk.injEq, Rpc.mk.injEq] at heq
      obtain ⟨⟨rfl, rfl⟩, hok⟩ := heq
      exact handle_commits_iff.mpr ⟨rfl, handle_commit_answer.mp hok.symm⟩
    · exact .inl (h.answered hold)

/-- A silent step that keeps the answers. -/
theorem Single.silent (h : Single past σ) (hanswers : σ'.answers = σ.answers)
    (hbranch : InSingleBranch σ'.pc)
    (hquiet : σ'.pc = .start ∨ σ'.pc = .localAbort → σ'.sent = [] ∧ ¬ HasCommitted past)
    (hcommitSent : ∀ i, ⟨.commit, i⟩ ∈ σ'.sent → i = 0)
    (habortSent : ∀ i, ⟨.abort, i⟩ ∈ σ'.sent → GivenUp σ'.pc)
    (haborted : HasAborted past → GivenUp σ'.pc)
    (hcommitted : σ.pc = .returned true → σ'.pc = .returned true) :
    Single (past ++ [(action, .silent)]) σ' := by
  have hsame : HasCommitted (past ++ [(action, .silent)]) ↔ HasCommitted past := by
    simp [hasCommitted_append_iff]
  have hsame' : HasAborted (past ++ [(action, .silent)]) ↔ HasAborted past := by
    simp [hasAborted_append_iff]
  constructor
  · exact hbranch
  · rw [hsame]
    exact hquiet
  · exact hcommitSent
  · exact habortSent
  · rw [hsame']
    exact haborted
  · rw [hsame, hanswers]
    exact fun hold => (h.committed hold).imp id hcommitted
  · rw [hsame, hanswers]
    exact h.answered

theorem Single.step (hsingle : setup.isDistributed = false) (h : Single past σ)
    (htransition : Transition setup σ action event σ') :
    Single (past ++ [(action, event)]) σ' := by
  cases htransition with
  | handled rpc appended node hsent _ => exact h.handled hsent
  | changed node p =>
      exact h.silent rfl h.branch h.quiet h.commitSent h.abortSent h.aborted id
  | localCommit hstart _ =>
      obtain ⟨hnone, hcommitted⟩ := h.quiet (.inl hstart)
      have haborted : ¬ HasAborted past := by
        intro haborted
        rcases h.aborted haborted with hpc | hpc <;> simp [hstart] at hpc
      have hanswer : (⟨.commit, 0⟩, true) ∉ σ.answers := fun hmem => hcommitted (h.answered hmem)
      cases hok : (σ.participants setup.listen).commitSingle.2 with
      | true =>
          constructor <;>
            simp [InSingleBranch, hasCommitted_append_iff, hasAborted_append_iff, hnone, haborted]
      | false =>
          constructor <;>
            simp [InSingleBranch, hasCommitted_append_iff, hasAborted_append_iff, hnone,
              haborted, hcommitted, hanswer]
  | localAbort hpc =>
      obtain ⟨hnone, hcommitted⟩ := h.quiet (.inr hpc)
      have hanswer : (⟨.commit, 0⟩, true) ∉ σ.answers := fun hmem => hcommitted (h.answered hmem)
      constructor <;>
        simp [InSingleBranch, hasCommitted_append_iff, hasAborted_append_iff, hnone, hcommitted,
          hanswer, GivenUp]
  | remoteSend hstart _ =>
      obtain ⟨hnone, _⟩ := h.quiet (.inl hstart)
      refine h.silent rfl ?_ ?_ ?_ ?_ ?_ ?_
      · simp [InSingleBranch]
      · simp
      · simp [hnone]
      · simp [hnone]
      · intro haborted
        rcases h.aborted haborted with hpc | hpc <;> simp [hstart] at hpc
      · simp [hstart]
  | remoteYes hpc _ =>
      have hnot : ¬ GivenUp σ.pc := by
        simp [GivenUp, hpc]
      refine h.silent rfl ?_ ?_ h.commitSent ?_ ?_ ?_
      · simp [InSingleBranch]
      · simp
      · exact fun i hi => absurd (h.abortSent i hi) hnot
      · exact fun haborted => absurd (h.aborted haborted) hnot
      · simp
  | remoteNo hpc =>
      refine h.silent rfl ?_ ?_ ?_ ?_ ?_ ?_
      · simp [InSingleBranch]
      · simp
      · simpa using h.commitSent
      · simp [GivenUp]
      · simp [GivenUp]
      · simp [hpc]
  | remoteDone ok hpc =>
      refine h.silent rfl ?_ ?_ h.commitSent ?_ ?_ ?_
      · simp [InSingleBranch]
      · simp
      · simp [GivenUp]
      · simp [GivenUp]
      · simp [hpc]
  | initFails hstart _ =>
      refine h.silent rfl ?_ ?_ h.commitSent ?_ ?_ ?_
      · simp [InSingleBranch]
      · simp
      · simp [GivenUp]
      · simp [GivenUp]
      · simp [hstart]
  | decided action pc added participants hdecides hstart _ _ =>
      have hdist := hstart (hdecides.not_single h.branch)
      simp [hsingle] at hdist

/-- `Commit` has not given up what a node has committed. -/
def Faithful (past : List (CallAction × Event)) (σ : CommitRun) : Prop :=
  GivenUp σ.pc → ¬ HasCommitted past

/-- One step keeps the result true exactly if it meets the condition. -/
theorem Single.faithful_iff (hsingle : setup.isDistributed = false) (h : Single past σ)
    (hfaithful : Faithful past σ) (htransition : Transition setup σ action event σ') :
    Faithful (past ++ [(action, event)]) σ' ↔ σ.Truthful setup action := by
  simp only [Faithful, hasCommitted_append_iff, not_or]
  cases htransition with
  | handled rpc appended node _ hnode =>
      simp only [deliverTo, Truthful, hnode, Option.mem_def, Option.some.injEq,
        forall_eq']
      rw [handle_commits_iff]
      constructor
      · intro hkept hkind hgiven
        have hnot := (hkept hgiven).2
        rw [not_and, not_not] at hnot
        exact hnot hkind
      · intro htruthful hgiven
        refine ⟨hfaithful hgiven, ?_⟩
        rintro ⟨hkind, hready⟩
        exact hready (htruthful hkind hgiven)
  | changed node p => simpa [Truthful, Faithful] using hfaithful
  | localCommit hstart _ =>
      cases hok : (σ.participants setup.listen).commitSingle.2 with
      | true => simp [Truthful, GivenUp]
      | false => simp [Truthful, GivenUp]
  | localAbort hpc => simp [Truthful, (h.quiet (.inr hpc)).2]
  | remoteSend _ _ => simp [Truthful, GivenUp]
  | remoteYes _ _ => simp [Truthful, GivenUp]
  | remoteNo hpc =>
      have hiff : HasCommitted past ↔ (⟨.commit, 0⟩, true) ∈ σ.answers := by
        refine ⟨?_, h.answered⟩
        intro hcommitted
        exact (h.committed hcommitted).resolve_right (by simp [hpc])
      simp [Truthful, GivenUp, hpc, hiff]
  | remoteDone ok hpc =>
      have hnot := hfaithful (.inl hpc)
      cases ok with
      | true => simp [Truthful, hnot]
      | false => simp [Truthful, hpc, hnot]
  | initFails hstart _ => simp [Truthful, (h.quiet (.inl hstart)).2]
  | decided action pc added participants hdecides hstart _ _ =>
      have hdist := hstart (hdecides.not_single h.branch)
      simp [hsingle] at hdist

/-- `Commit` does not take back that it has given up. -/
theorem Transition.givenUp (htransition : Transition setup σ action event σ')
    (hgiven : GivenUp σ.pc) : GivenUp σ'.pc := by
  cases htransition with
  | handled _ _ _ _ _ => exact hgiven
  | changed _ _ => exact hgiven
  | localCommit hpc _ => simp [GivenUp, hpc] at hgiven
  | localAbort _ => exact .inr rfl
  | remoteSend hpc _ => simp [GivenUp, hpc] at hgiven
  | remoteYes hpc _ => simp [GivenUp, hpc] at hgiven
  | remoteNo _ => exact .inl rfl
  | remoteDone _ _ => exact .inr rfl
  | initFails _ _ => exact .inr rfl
  | decided _ _ _ _ hdecides _ _ _ =>
      rcases hgiven with hpc | hpc
      · rw [hpc] at hdecides
        cases hdecides
      · rw [hpc] at hdecides
        cases hdecides

theorem single_faithful_iff (hsingle : setup.isDistributed = false)
    {participants : IpPort → Participant} (hrun : CallRun setup (init participants) trace σ) :
    Single trace σ ∧
      (Faithful trace σ ↔ Lts.Run (TruthfulStep setup) (init participants) trace σ) := by
  have hinv : ∀ past σ label σ', Lts.Steps (callStep setup) σ label σ' → Single past σ →
      Single (past ++ [label]) σ' := by
    rintro past σ ⟨action, event⟩ σ' hstep h
    exact h.step hsingle (call_transition hstep)
  refine ⟨hrun.preserves_past Single hinv (single_init participants), ?_⟩
  refine hrun.holds_iff Single Faithful (fun σ label => σ.Truthful setup label.1) hinv ?_ ?_
    (single_init participants) ?_
  · rintro past σ ⟨action, event⟩ σ' hstep h hfaithful
    exact h.faithful_iff hsingle hfaithful (call_transition hstep)
  · rintro past σ ⟨action, event⟩ σ' hstep h hfaithful hgiven hcommitted
    have htransition := call_transition hstep
    exact hfaithful (htransition.givenUp hgiven) (hasCommitted_append_iff.mpr (.inl hcommitted))
  · simp [Faithful, HasCommitted]

/-- Two-phase commit never runs into the condition. -/
theorem distributed_truthful (hdist : setup.isDistributed = true)
    {participants : IpPort → Participant} (hrun : CallRun setup (init participants) trace σ) :
    (∃ past, trace = past.map (fun label => (.run label.1, label.2)) ∧ Agreement setup past σ) ∧
      Lts.Run (TruthfulStep setup) (init participants) trace σ := by
  let Inv (trace : List (CallAction × Event)) (σ : CommitRun) : Prop :=
    ∃ past, trace = past.map (fun label => (.run label.1, label.2)) ∧ Agreement setup past σ
  have hstart : Inv [] (init participants) := ⟨[], rfl, agreement_init setup participants⟩
  have hinv : ∀ trace σ label σ', Lts.Steps (callStep setup) σ label σ' → Inv trace σ →
      Inv (trace ++ [label]) σ' := by
    rintro _ σ ⟨action, event⟩ σ' hstep ⟨past, rfl, h⟩
    cases action with
    | initFails => simp [Lts.Steps, callStep, IsRemote, hdist] at hstep
    | run action =>
        refine ⟨past ++ [(action, event)], by simp, ?_⟩
        exact h.step hdist hstep
  refine ⟨hrun.preserves_past Inv hinv hstart, ?_⟩
  refine (hrun.holds_iff Inv (fun _ _ => True) (fun σ label => σ.Truthful setup label.1) hinv
    ?_ (fun _ _ _ _ _ _ _ => trivial) hstart trivial).mp trivial
  rintro _ σ ⟨action, event⟩ σ' hstep ⟨past, rfl, h⟩ -
  simp only [true_iff]
  cases action with
  | initFails => trivial
  | run action =>
      cases action with
      | advance => trivial
      | change node p => trivial
      | receive ok =>
          cases ok with
          | true => trivial
          | false => exact fun hpc => absurd hpc h.branch.2.1
      | deliver rpc appended =>
          intro hkind hgiven
          obtain ⟨node, hnode, hrest⟩ := Option.bind_eq_some_iff.mp hstep
          split at hrest
          next hsent =>
            obtain ⟨kind, i⟩ := rpc
            cases hkind
            have hcommitting := (h.commits i hsent).1
            rcases hgiven with hpc | hpc
            · exact absurd hpc h.branch.2.2
            · exact absurd (.inr hpc) (not_committing_aborting hcommitting)
          next => cases hrest

/-- For a transaction at the coordinator, at one other node or at several nodes,
and any loss, delay or repetition of requests and responses: what `Commit`
returns is what the nodes did exactly if every step met the condition. -/
theorem commit_result_truthful_iff {participants : IpPort → Participant} {result : Bool}
    (hrun : CallRun setup (init participants) trace σ) (hreturned : σ.pc = .returned result) :
    ((result = true → ∀ action node, (action, .abortSingle node) ∉ trace) ∧
      (result = false → ∀ action node, (action, .commitSingle node true) ∉ trace)) ↔
      Lts.Run (TruthfulStep setup) (init participants) trace σ := by
  cases hdist : setup.isDistributed with
  | false =>
      obtain ⟨hinv, hiff⟩ := single_faithful_iff hdist hrun
      rw [← hiff, Faithful, hreturned]
      cases result with
      | true =>
          have haborted : ¬ HasAborted trace := by
            intro haborted
            simpa [GivenUp, hreturned] using hinv.aborted haborted
          simpa [GivenUp, HasAborted] using haborted
      | false => simp [GivenUp, HasCommitted]
  | true =>
      obtain ⟨⟨past, rfl, h⟩, htruthful⟩ := distributed_truthful hdist hrun
      refine ⟨fun _ => htruthful, fun _ => ⟨?_, ?_⟩⟩
      · rintro rfl action node hmem
        simp only [List.mem_map, Prod.mk.injEq, Prod.exists] at hmem
        obtain ⟨action', event, hmem, _, rfl⟩ := hmem
        obtain ⟨i, hi⟩ := h.aborted action' node hmem
        exact not_committing_aborting (.inr hreturned) (h.aborts i hi)
      · rintro rfl action node hmem
        simp only [List.mem_map, Prod.mk.injEq, Prod.exists] at hmem
        obtain ⟨action', event, hmem, _, rfl⟩ := hmem
        obtain ⟨i, hi⟩ := h.committed action' node true hmem
        exact not_committing_aborting (h.commits i hi).1 (.inr hreturned)

/-- One node, and it is not the coordinator. -/
def oneRemote : CommitSetup where
  listen := ⟨"10.0.0.1", 8000⟩
  isDistributed := false
  nodes := [⟨"10.0.0.2", 8000⟩]
  enableLogging := true

/-- The Commit request is delayed past the call; the Abort request overtakes it. -/
def lateRequest : List (CallAction × Event) :=
  [(.run .advance, .silent), (.run (.receive false), .silent),
    (.run (.deliver ⟨.abort, 0⟩ true), .abortSingle ⟨"10.0.0.2", 8000⟩),
    (.run (.receive true), .silent),
    (.run (.deliver ⟨.commit, 0⟩ true), .notFound ⟨"10.0.0.2", 8000⟩)]

theorem lateRequest_truthful : ∃ σ,
    CallRun oneRemote (init fun _ => ⟨.growing, true⟩) lateRequest σ ∧
      σ.pc = .returned false ∧
      ∀ action node, (action, .commitSingle node true) ∉ lateRequest := by
  obtain ⟨σ, hrun, hpc⟩ : ∃ σ, Lts.Run (TruthfulStep oneRemote)
      (init fun _ => ⟨.growing, true⟩) lateRequest σ ∧ σ.pc = .returned false :=
    Lts.run_of_exec_view CommitRun.pc lateRequest (by decide +kernel)
  have hcall := hrun.mono fun _ _ _ h => h.2
  exact ⟨σ, hcall, hpc, ((commit_result_truthful_iff hcall hpc).mpr hrun).2 rfl⟩

/-- The node commits and its response is lost. -/
def lostResponse : List (CallAction × Event) :=
  [(.run .advance, .silent),
    (.run (.deliver ⟨.commit, 0⟩ true), .commitSingle ⟨"10.0.0.2", 8000⟩ true),
    (.run (.receive false), .silent),
    (.run (.deliver ⟨.abort, 0⟩ true), .notFound ⟨"10.0.0.2", 8000⟩),
    (.run (.receive false), .silent)]

/-- `Commit` returns false for a transaction that is committed. -/
theorem lostResponse_returns_false : ∃ σ,
    CallRun oneRemote (init fun _ => ⟨.growing, true⟩) lostResponse σ ∧
      σ.pc = .returned false ∧
      ∃ action, (action, .commitSingle ⟨"10.0.0.2", 8000⟩ true) ∈ lostResponse := by
  have hrun : CallRun oneRemote (init fun _ => ⟨.growing, true⟩) lostResponse _ :=
    Lts.run_of_exec (lostResponse.map Prod.fst) (lostResponse.map Prod.snd) rfl
  exact ⟨_, hrun, rfl, .run (.deliver ⟨.commit, 0⟩ true), by simp [lostResponse]⟩

end Result

end RucDDBS.CommitRun
