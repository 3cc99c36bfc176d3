import RucDDBS.Transaction.CommitOutcome

/-!
What `Commit` leaves behind. `Begin` has entered the transaction into the map of
the coordinator and holds its latch; only `CommitSingle` and `AbortSingle` at
the coordinator undo that. `Commit` calls them itself for a transaction at the
coordinator alone, and otherwise they run in a handler, which needs a request to
this node. The module shows that the coordinator has to be in the node set, and
that this is enough as long as no node refuses to commit in the second phase.
-/

namespace RucDDBS.CommitRun

/-- The node at which a step has erased the transaction and released the latch. -/
def Event.finishes : Event → Option IpPort
  | .commitSingle node true | .abortSingle node => some node
  | .commitSingle _ false | .silent | .prepareCommit _ _ | .notFound _ => none

def finishCount (node : IpPort) (trace : List (CallAction × Event)) : Nat :=
  trace.countP fun label => label.2.finishes = some node

/-- Between the handlers nothing else finishes or begins the transaction. -/
def KeepsMap (σ : CommitRun) : CallAction → Prop
  | .run (.change node p) => p.inMap = (σ.participants node).inMap
  | _ => True

instance (σ : CommitRun) : DecidablePred σ.KeepsMap
  | .run (.change node p) => inferInstanceAs (Decidable (p.inMap = (σ.participants node).inMap))
  | .run .advance | .run (.receive _) | .run (.deliver _ _) | .initFails => .isTrue trivial

/-- No Commit request of the second phase finds its transaction aborted. -/
def StillPrepared (setup : CommitSetup) (σ : CommitRun) : CallAction → Prop
  | .run (.deliver rpc _) => setup.isDistributed = true → rpc.kind = .commit →
      ∀ node ∈ setup.nodes[rpc.index]?, (σ.participants node).state ≠ .aborted
  | _ => True

instance (setup : CommitSetup) (σ : CommitRun) : DecidablePred (σ.StillPrepared setup)
  | .run (.deliver rpc _) =>
      inferInstanceAs (Decidable (setup.isDistributed = true → rpc.kind = .commit →
        ∀ node ∈ setup.nodes[rpc.index]?, (σ.participants node).state ≠ .aborted))
  | .run .advance | .run (.receive _) | .run (.change _ _) | .initFails => .isTrue trivial

def MapStep (setup : CommitSetup) (σ : CommitRun) (label : CallAction × Event)
    (σ' : CommitRun) : Prop :=
  σ.KeepsMap label.1 ∧ Lts.Steps (callStep setup) σ label σ'

def Undisturbed (setup : CommitSetup) (σ : CommitRun) (action : CallAction) : Prop :=
  σ.StillPrepared setup action ∧ σ.KeepsMap action

instance (setup : CommitSetup) (σ : CommitRun) : DecidablePred (σ.Undisturbed setup) :=
  fun action => inferInstanceAs (Decidable (σ.StillPrepared setup action ∧ σ.KeepsMap action))

def PreparedStep (setup : CommitSetup) (σ : CommitRun) (label : CallAction × Event)
    (σ' : CommitRun) : Prop :=
  σ.Undisturbed setup label.1 ∧ Lts.Steps (callStep setup) σ label σ'

variable {setup : CommitSetup} {σ σ' : CommitRun} {action : CallAction} {event : Event}
  {past trace : List (CallAction × Event)}

/-- A handler takes its node out of the map exactly if it finishes there, and it
finishes only what the map has. -/
theorem handle_unlists (setup : CommitSetup) (appended : Bool) (node : IpPort) (p : Participant) (kind : RequestKind) :
    ((handle setup appended node p kind).1.inMap =
      (p.inMap && decide ((handle setup appended node p kind).2.2.finishes ≠ some node))) ∧
    ∀ node', (handle setup appended node p kind).2.2.finishes = some node' →
      node' = node ∧ p.inMap = true := by
  by_cases hmap : p.inMap = false
  · cases kind <;> simp [handle, hmap, Event.finishes]
  · cases kind with
    | prepare =>
        have hkeep : (p.prepareCommit setup.enableLogging appended).1.inMap = p.inMap := by
          unfold Participant.prepareCommit
          split
          · rfl
          · split
            · rfl
            · split <;> rfl
        simp [handle, hmap, Event.finishes, hkeep]
    | commit =>
        by_cases hstate : p.state = .aborted
        · simp [handle, hmap, Participant.commitSingle, hstate, Event.finishes]
        · have hset : p.inMap = true := by simpa using hmap
          simp [handle, hset, Participant.commitSingle, hstate, Event.finishes, eq_comm]
    | abort =>
        have hset : p.inMap = true := by simpa using hmap
        simp [handle, hset, Participant.abortSingle, Event.finishes, eq_comm]

theorem Transition.inMap (htransition : Transition setup σ action event σ')
    (hkeeps : σ.KeepsMap action) (node : IpPort) :
    (σ'.participants node).inMap =
      ((σ.participants node).inMap && decide (event.finishes ≠ some node)) := by
  cases htransition with
  | handled rpc appended target _ _ =>
      obtain ⟨hsame, hfinishes⟩ :=
        handle_unlists setup appended target (σ.participants target) rpc.kind
      by_cases hnode : node = target
      · subst hnode
        simpa [deliverTo] using hsame
      · have hother : (handle setup appended target (σ.participants target) rpc.kind).2.2.finishes
            ≠ some node := fun h => hnode (hfinishes node h).1
        simp [deliverTo, Function.update_of_ne hnode, hother]
  | changed target p =>
      by_cases hnode : node = target
      · subst hnode
        have hsame : p.inMap = (σ.participants node).inMap := hkeeps
        simp [Event.finishes, hsame]
      · simp [Function.update_of_ne hnode, Event.finishes]
  | localCommit _ _ =>
      by_cases hnode : node = setup.listen
      · subst hnode
        by_cases hstate : (σ.participants setup.listen).state = .aborted
        · simp [Participant.commitSingle, hstate, Event.finishes]
        · simp [Participant.commitSingle, hstate, Event.finishes]
      · have hother : ¬ setup.listen = node := Ne.symm hnode
        cases hok : (σ.participants setup.listen).commitSingle.2 with
        | true => simp [Function.update_of_ne hnode, Event.finishes, hother]
        | false => simp [Function.update_of_ne hnode, Event.finishes]
  | localAbort _ =>
      by_cases hnode : node = setup.listen
      · subst hnode
        simp [Participant.abortSingle, Event.finishes]
      · simp [Function.update_of_ne hnode, Event.finishes, Ne.symm hnode]
  | remoteSend _ _ | remoteYes _ _ | remoteNo _ | remoteDone _ _ | initFails _ _ =>
      simp [Event.finishes]
  | decided _ _ _ _ _ _ _ hmap => simp [Event.finishes, hmap node]

theorem Decides.target {answers : List (Rpc × Bool)} {pc pc' : CommitPc} {added : List Rpc}
    (hdecides : Decides setup answers pc pc' added) : pc' ≠ .start ∧ pc' ≠ .localAbort := by
  cases hdecides <;> simp

/-- What is out of the map stays out. -/
theorem Transition.stays_out (htransition : Transition setup σ action event σ')
    (hkeeps : σ.KeepsMap action) {node : IpPort} (hout : (σ.participants node).inMap = false) :
    (σ'.participants node).inMap = false := by
  rw [htransition.inMap hkeeps node, hout, Bool.false_and]

/-- The accounts of the coordinator: it has finished the transaction as often as
it has taken it out of the map, and only as a node of the set. -/
structure Books (setup : CommitSetup) (past : List (CallAction × Event)) (σ : CommitRun) :
    Prop where
  quiet : σ.pc = .start ∨ σ.pc = .localAbort →
    σ.sent = [] ∧ (σ.participants setup.listen).inMap = true
  home : σ.pc = .localAbort → setup.listen ∈ setup.nodes
  count : finishCount setup.listen past =
    if (σ.participants setup.listen).inMap = true then 0 else 1
  listed : ∀ label ∈ past, ∀ node, label.2.finishes = some node → node ∈ setup.nodes

theorem books_init {participants : IpPort → Participant}
    (hbegun : (participants setup.listen).inMap = true) :
    Books setup [] (init participants) := by
  constructor
  · simp [init, hbegun]
  · simp [init]
  · simp [init, finishCount, hbegun]
  · simp

theorem Books.finishes (h : Books setup past σ)
    (htransition : Transition setup σ action event σ') {node : IpPort}
    (hfinishes : event.finishes = some node) :
    node ∈ setup.nodes ∧ (σ.participants node).inMap = true := by
  cases htransition with
  | handled rpc appended target _ hnode =>
      obtain ⟨rfl, hmap⟩ := (handle_unlists setup appended target
        (σ.participants target) rpc.kind).2 node hfinishes
      exact ⟨List.mem_of_getElem? hnode, hmap⟩
  | localCommit hstart hlocal =>
      have hnode : setup.listen = node := by
        cases hok : (σ.participants setup.listen).commitSingle.2 with
        | true => simpa [hok, Event.finishes] using hfinishes
        | false => simp [hok, Event.finishes] at hfinishes
      subst hnode
      exact ⟨List.mem_of_head? hlocal.2, (h.quiet (.inl hstart)).2⟩
  | localAbort hpc =>
      have hnode : setup.listen = node := by
        simpa [Event.finishes] using hfinishes
      subst hnode
      exact ⟨h.home hpc, (h.quiet (.inr hpc)).2⟩
  | changed _ _ | remoteSend _ _ | remoteYes _ _ | remoteNo _ | remoteDone _ _ | initFails _ _
  | decided _ _ _ _ _ _ _ _ => simp [Event.finishes] at hfinishes

theorem Books.quiet_step (h : Books setup past σ)
    (htransition : Transition setup σ action event σ') (hkeeps : σ.KeepsMap action)
    (hquiet : σ'.pc = .start ∨ σ'.pc = .localAbort) :
    σ'.sent = [] ∧ (σ'.participants setup.listen).inMap = true ∧
      (σ'.pc = .localAbort → setup.listen ∈ setup.nodes) := by
  have hmap := htransition.inMap hkeeps setup.listen
  cases htransition with
  | handled rpc appended node hsent _ =>
      rw [(h.quiet hquiet).1] at hsent
      cases hsent
  | changed node p =>
      obtain ⟨hnone, hset⟩ := h.quiet hquiet
      refine ⟨hnone, ?_, h.home⟩
      rw [hmap, hset]
      rfl
  | localCommit hstart hlocal =>
      obtain ⟨hnone, hset⟩ := h.quiet (.inl hstart)
      refine ⟨hnone, ?_, fun _ => List.mem_of_head? hlocal.2⟩
      cases hok : (σ.participants setup.listen).commitSingle.2 with
      | true => simp [hok] at hquiet
      | false =>
          rw [hmap, hset, hok]
          rfl
  | localAbort _ | remoteSend _ _ | remoteYes _ _ | remoteNo _ | remoteDone _ _
  | initFails _ _ => simp at hquiet
  | decided _ pc _ _ hdecides _ _ _ =>
      obtain ⟨hstart, hlocal⟩ := hdecides.target
      exact absurd hquiet (not_or.mpr ⟨hstart, hlocal⟩)

theorem Books.step (h : Books setup past σ) (htransition : Transition setup σ action event σ')
    (hkeeps : σ.KeepsMap action) : Books setup (past ++ [(action, event)]) σ' := by
  constructor
  · intro hquiet
    obtain ⟨hnone, hset, _⟩ := h.quiet_step htransition hkeeps hquiet
    exact ⟨hnone, hset⟩
  · intro hpc
    exact (h.quiet_step htransition hkeeps (.inr hpc)).2.2 hpc
  · have hcount : finishCount setup.listen (past ++ [(action, event)]) =
        finishCount setup.listen past + if event.finishes = some setup.listen then 1 else 0 := by
      simp [finishCount, List.countP_append, List.countP_singleton]
    rw [hcount, h.count, htransition.inMap hkeeps setup.listen]
    by_cases hfinishes : event.finishes = some setup.listen
    · simp [hfinishes, (h.finishes htransition hfinishes).2]
    · simp [hfinishes]
  · intro label hlabel node hfinishes
    rcases List.mem_append.mp hlabel with hold | hnew
    · exact h.listed label hold node hfinishes
    · rw [List.mem_singleton.mp hnew] at hfinishes
      exact (h.finishes htransition hfinishes).1

/-- A transaction at the coordinator alone: when `Commit` has returned, it is
out of the map. -/
structure Home (setup : CommitSetup) (σ : CommitRun) : Prop where
  branch : InSingleBranch σ.pc
  notRemote : σ.pc ≠ .remoteCommit ∧ σ.pc ≠ .remoteAbort
  done : ∀ result, σ.pc = .returned result → (σ.participants setup.listen).inMap = false

theorem home_init (participants : IpPort → Participant) : Home setup (init participants) := by
  constructor <;> simp [init, InSingleBranch]

theorem Home.step (hlocal : IsLocal setup) (h : Home setup σ)
    (htransition : Transition setup σ action event σ') (hkeeps : σ.KeepsMap action) :
    Home setup σ' := by
  have hstays (hout : (σ.participants setup.listen).inMap = false) :
      (σ'.participants setup.listen).inMap = false := htransition.stays_out hkeeps hout
  have hnot : ¬ IsRemote setup := by
    rintro ⟨_, hother⟩
    exact hother _ hlocal.2 rfl
  cases htransition with
  | handled _ _ _ _ _ =>
      exact ⟨h.branch, h.notRemote, fun result hpc => hstays (h.done result hpc)⟩
  | changed _ _ => exact ⟨h.branch, h.notRemote, fun result hpc => hstays (h.done result hpc)⟩
  | localCommit hstart _ =>
      by_cases hstate : (σ.participants setup.listen).state = .aborted
      · constructor <;> simp [Participant.commitSingle, hstate, InSingleBranch]
      · constructor <;> simp [Participant.commitSingle, hstate, InSingleBranch]
  | localAbort _ => constructor <;> simp [Participant.abortSingle, InSingleBranch]
  | remoteSend _ hremote | initFails _ hremote => exact absurd hremote hnot
  | remoteYes hpc _ | remoteNo hpc => exact absurd hpc h.notRemote.1
  | remoteDone _ hpc => exact absurd hpc h.notRemote.2
  | decided _ _ _ _ hdecides hstart _ _ =>
      have hdist := hstart (hdecides.not_single h.branch)
      simp [hlocal.1] at hdist

/-- A request to commit or abort leaves its node without the transaction, unless
it is one to commit and finds the transaction aborted. -/
theorem handle_leaves {appended : Bool} {node : IpPort} {p : Participant} {kind : RequestKind}
    (hkind : kind ≠ .prepare) (hstate : kind = .commit → p.state ≠ .aborted) :
    (handle setup appended node p kind).1.inMap = false := by
  by_cases hmap : p.inMap = false
  · cases kind <;> simp [handle, hmap]
  · cases kind with
    | prepare => exact absurd rfl hkind
    | commit => simp [handle, hmap, Participant.commitSingle, hstate rfl]
    | abort => simp [handle, hmap, Participant.abortSingle]

/-- An answer that is new is that of the handler that has run. -/
theorem Transition.answered (htransition : Transition setup σ action event σ') {rpc : Rpc}
    {ok : Bool} (hanswer : (rpc, ok) ∈ σ'.answers) :
    (rpc, ok) ∈ σ.answers ∨ ∃ appended target, setup.nodes[rpc.index]? = some target ∧
      action = .run (.deliver rpc appended) ∧
      event = (handle setup appended target (σ.participants target) rpc.kind).2.2 ∧
      σ'.participants target =
        (handle setup appended target (σ.participants target) rpc.kind).1 := by
  cases htransition with
  | handled rpc' appended target _ hnode =>
      rcases List.mem_cons.mp hanswer with heq | hold
      · cases heq
        exact .inr ⟨appended, target, hnode, rfl, rfl, by simp [deliverTo]⟩
      · exact .inl hold
  | changed _ _ | localCommit _ _ | localAbort _ | remoteSend _ _ | remoteYes _ _ | remoteNo _
  | remoteDone _ _ | initFails _ _ | decided _ _ _ _ _ _ _ _ => exact .inl hanswer

/-- Two-phase commit sends its outcome to every node. -/
structure Directed (setup : CommitSetup) (σ : CommitRun) : Prop where
  branch : InDistributedBranch σ.pc
  commits : Committing σ.pc → ∀ i < setup.nodes.length, ⟨.commit, i⟩ ∈ σ.sent
  aborts : Aborting σ.pc → ∀ i < setup.nodes.length, ⟨.abort, i⟩ ∈ σ.sent

theorem directed_init (participants : IpPort → Participant) :
    Directed setup (init participants) := by
  constructor <;> simp [init, InDistributedBranch, Committing, Aborting]

theorem Directed.decided {pc : CommitPc} {added : List Rpc} {participants : IpPort → Participant}
    (h : Directed setup σ) (hdecides : Decides setup σ.answers σ.pc pc added) :
    Directed setup { σ with pc := pc, participants := participants, sent := added ++ σ.sent } := by
  obtain ⟨_, hcommits, haborts⟩ := h
  generalize σ.pc = before at hdecides hcommits haborts
  cases hdecides with
  | prepareAll | yes _ _ => constructor <;> simp [InDistributedBranch, Committing, Aborting]
  | no i =>
      refine ⟨by simp [InDistributedBranch], by simp [Committing], ?_⟩
      intro _ j hj
      simp [requests, hj]
  | commitAll i _ =>
      refine ⟨by simp [InDistributedBranch], ?_, by simp [Aborting]⟩
      intro _ j hj
      simp [requests, hj]
  | aborting i | aborted i =>
      refine ⟨by simp [InDistributedBranch], by simp [Committing], ?_⟩
      intro _ j hj
      exact haborts (.inl ⟨i, rfl⟩) j hj
  | committing i | committed i =>
      refine ⟨by simp [InDistributedBranch], ?_, by simp [Aborting]⟩
      intro _ j hj
      exact hcommits (.inl ⟨i, rfl⟩) j hj

theorem Directed.step (hdist : setup.isDistributed = true) (h : Directed setup σ)
    (htransition : Transition setup σ action event σ') : Directed setup σ' := by
  cases htransition with
  | handled _ _ _ _ _ | changed _ _ => exact ⟨h.branch, h.commits, h.aborts⟩
  | localCommit _ hlocal => simp [IsLocal, hdist] at hlocal
  | localAbort hpc => exact absurd hpc h.branch.1
  | remoteSend _ hremote | initFails _ hremote => simp [IsRemote, hdist] at hremote
  | remoteYes hpc _ | remoteNo hpc => exact absurd hpc h.branch.2.1
  | remoteDone _ hpc => exact absurd hpc h.branch.2.2
  | decided _ _ _ _ hdecides _ _ _ => exact h.decided hdecides

/-- Two-phase commit: the outcome has been sent to every node, and a node that
has answered it no longer has the transaction. -/
structure Asked (setup : CommitSetup) (σ : CommitRun) : Prop where
  branch : InDistributedBranch σ.pc
  commits : Committing σ.pc → ∀ i < setup.nodes.length, ⟨.commit, i⟩ ∈ σ.sent
  aborts : Aborting σ.pc → ∀ i < setup.nodes.length, ⟨.abort, i⟩ ∈ σ.sent
  done : ∀ kind i ok node, kind ≠ .prepare → (⟨kind, i⟩, ok) ∈ σ.answers →
    setup.nodes[i]? = some node → (σ.participants node).inMap = false

theorem asked_init (participants : IpPort → Participant) : Asked setup (init participants) := by
  obtain ⟨hbranch, hcommits, haborts⟩ : Directed setup (init participants) :=
    directed_init participants
  exact ⟨hbranch, hcommits, haborts, by simp [init]⟩

theorem Asked.step (hdist : setup.isDistributed = true) (h : Asked setup σ)
    (htransition : Transition setup σ action event σ') (hkeeps : σ.KeepsMap action)
    (hprepared : σ.StillPrepared setup action) : Asked setup σ' := by
  obtain ⟨hbranch, hcommits, haborts⟩ :=
    Directed.step hdist ⟨h.branch, h.commits, h.aborts⟩ htransition
  refine ⟨hbranch, hcommits, haborts, ?_⟩
  intro kind i ok node hkind hanswer hget
  rcases htransition.answered hanswer with hold | ⟨appended, target, htarget, rfl, _, hleft⟩
  · exact htransition.stays_out hkeeps (h.done kind i ok node hkind hold hget)
  · obtain rfl : target = node := Option.some.inj (htarget.symm.trans hget)
    rw [hleft]
    exact handle_leaves hkind fun hcommit => hprepared hdist hcommit target htarget

/-- When the outcome has been answered by every node, none has the transaction. -/
theorem Asked.cleared (h : Asked setup σ) {result : Bool} (hreturned : σ.pc = .returned result)
    (hanswered : ∀ rpc ∈ σ.sent, ∃ ok, (rpc, ok) ∈ σ.answers) {node : IpPort}
    (hnode : node ∈ setup.nodes) : (σ.participants node).inMap = false := by
  obtain ⟨i, hi, hget⟩ := List.mem_iff_getElem.mp hnode
  have hget : setup.nodes[i]? = some node := by
    rw [List.getElem?_eq_getElem hi, hget]
  cases result with
  | true =>
      obtain ⟨ok, hok⟩ := hanswered _ (h.commits (.inr hreturned) i hi)
      exact h.done .commit i ok node (by simp) hok hget
  | false =>
      obtain ⟨ok, hok⟩ := hanswered _ (h.aborts (.inr hreturned) i hi)
      exact h.done .abort i ok node (by simp) hok hget

theorem books_of_run {participants : IpPort → Participant}
    (hbegun : (participants setup.listen).inMap = true)
    (hrun : Lts.Run (PreparedStep setup) (init participants) trace σ) :
    Books setup trace σ := by
  refine hrun.preserves_past (Books setup) ?_ (books_init hbegun)
  rintro past σ ⟨action, event⟩ σ' ⟨⟨_, hkeeps⟩, hstep⟩ h
  exact h.step (call_transition hstep) hkeeps

/-- If the coordinator is in the node set, every node is cleared. -/
theorem cleared_of_run {participants : IpPort → Participant} {result : Bool}
    (hone : setup.isDistributed = false → setup.nodes.length = 1)
    (hrun : Lts.Run (PreparedStep setup) (init participants) trace σ)
    (hreturned : σ.pc = .returned result)
    (hanswered : ∀ rpc ∈ σ.sent, ∃ ok, (rpc, ok) ∈ σ.answers)
    (hlisten : setup.listen ∈ setup.nodes) :
    ∀ node ∈ setup.nodes, (σ.participants node).inMap = false := by
  intro node hnode
  cases hdist : setup.isDistributed with
  | false =>
      obtain ⟨only, honly⟩ := List.length_eq_one_iff.mp (hone hdist)
      rw [honly, List.mem_singleton] at hlisten hnode
      subst hlisten
      subst hnode
      have hlocal : IsLocal setup := ⟨hdist, by rw [honly]; rfl⟩
      have hhome : Home setup σ := by
        refine hrun.preserves (Home setup) ?_ (home_init participants)
        rintro σ ⟨action, event⟩ σ' ⟨⟨_, hkeeps⟩, hstep⟩ h
        exact h.step hlocal (call_transition hstep) hkeeps
      exact hhome.done result hreturned
  | true =>
      have hasked : Asked setup σ := by
        refine hrun.preserves (Asked setup) ?_ (asked_init participants)
        rintro σ ⟨action, event⟩ σ' ⟨⟨hprepared, hkeeps⟩, hstep⟩ h
        exact h.step hdist (call_transition hstep) hkeeps hprepared
      exact hasked.cleared hreturned hanswered hnode

/-- When `Commit` has returned and all its calls have been answered: the
coordinator and all nodes have forgotten the transaction, and the coordinator
has released its latch once, exactly if the coordinator is in the node set. -/
theorem commit_leaves_nothing_iff {participants : IpPort → Participant} {result : Bool}
    (hone : setup.isDistributed = false → setup.nodes.length = 1)
    (hbegun : (participants setup.listen).inMap = true)
    (hrun : Lts.Run (PreparedStep setup) (init participants) trace σ)
    (hreturned : σ.pc = .returned result)
    (hanswered : ∀ rpc ∈ σ.sent, ∃ ok, (rpc, ok) ∈ σ.answers) :
    ((∀ node ∈ setup.listen :: setup.nodes, (σ.participants node).inMap = false) ∧
      finishCount setup.listen trace = 1) ↔ setup.listen ∈ setup.nodes := by
  have hbooks := books_of_run hbegun hrun
  constructor
  · rintro ⟨_, hcount⟩
    have hpos : 0 < finishCount setup.listen trace := by omega
    obtain ⟨label, hlabel, hfinishes⟩ := List.countP_pos_iff.mp hpos
    exact hbooks.listed label hlabel setup.listen (of_decide_eq_true hfinishes)
  · intro hlisten
    have hcleared := cleared_of_run hone hrun hreturned hanswered hlisten
    refine ⟨?_, ?_⟩
    · rintro node (_ | ⟨_, hnode⟩)
      · exact hcleared setup.listen hlisten
      · exact hcleared node hnode
    · rw [hbooks.count, hcleared setup.listen hlisten]
      rfl

/-- The coordinator and one other node. -/
def withListen : CommitSetup where
  listen := ⟨"10.0.0.1", 8000⟩
  isDistributed := true
  nodes := [⟨"10.0.0.1", 8000⟩, ⟨"10.0.0.2", 8000⟩]
  enableLogging := true

/-- Both nodes vote and commit. -/
def bothCommit : List (CallAction × Event) :=
  [(.run .advance, .silent),
    (.run (.deliver ⟨.prepare, 0⟩ true), .prepareCommit ⟨"10.0.0.1", 8000⟩ true),
    (.run (.deliver ⟨.prepare, 1⟩ true), .prepareCommit ⟨"10.0.0.2", 8000⟩ true),
    (.run (.receive true), .silent), (.run (.receive true), .silent), (.run .advance, .silent),
    (.run (.deliver ⟨.commit, 1⟩ true), .commitSingle ⟨"10.0.0.2", 8000⟩ true),
    (.run (.deliver ⟨.commit, 0⟩ true), .commitSingle ⟨"10.0.0.1", 8000⟩ true),
    (.run (.receive true), .silent), (.run (.receive true), .silent), (.run .advance, .silent)]

theorem bothCommit_leaves_nothing : ∃ σ,
    Lts.Run (PreparedStep withListen) (init fun _ => ⟨.growing, true⟩) bothCommit σ ∧
      σ.pc = .returned true ∧
      (∀ node ∈ withListen.listen :: withListen.nodes, (σ.participants node).inMap = false) ∧
      finishCount withListen.listen bothCommit = 1 := by
  obtain ⟨σ, hrun, hview⟩ : ∃ σ, Lts.Run (PreparedStep withListen)
      (init fun _ => ⟨.growing, true⟩) bothCommit σ ∧
      decide (σ.pc = .returned true ∧ ∀ rpc ∈ σ.sent, rpc ∈ σ.answers.map Prod.fst) = true :=
    Lts.run_of_exec_view (fun σ : CommitRun => decide (σ.pc = .returned true ∧
      ∀ rpc ∈ σ.sent, rpc ∈ σ.answers.map Prod.fst)) bothCommit (by decide +kernel)
  obtain ⟨hpc, hsent⟩ := of_decide_eq_true hview
  have hanswered : ∀ rpc ∈ σ.sent, ∃ ok, (rpc, ok) ∈ σ.answers := by
    simpa using hsent
  exact ⟨σ, hrun, hpc, (commit_leaves_nothing_iff (by decide) rfl hrun hpc hanswered).mpr
    (by decide)⟩

/-- The same with two nodes that do not include the coordinator. -/
def othersCommit : List (CallAction × Event) :=
  [(.run .advance, .silent),
    (.run (.deliver ⟨.prepare, 0⟩ true), .prepareCommit ⟨"10.0.0.2", 8000⟩ true),
    (.run (.deliver ⟨.prepare, 1⟩ true), .prepareCommit ⟨"10.0.0.3", 8000⟩ true),
    (.run (.receive true), .silent), (.run (.receive true), .silent), (.run .advance, .silent),
    (.run (.deliver ⟨.commit, 0⟩ true), .commitSingle ⟨"10.0.0.2", 8000⟩ true),
    (.run (.deliver ⟨.commit, 1⟩ true), .commitSingle ⟨"10.0.0.3", 8000⟩ true),
    (.run (.receive true), .silent), (.run (.receive true), .silent), (.run .advance, .silent)]

/-- `Commit` returns true, every call was answered, and the coordinator still has
the transaction and its latch. -/
theorem othersCommit_leaves_coordinator : ∃ σ,
    Lts.Run (MapStep twoNodes) (init fun _ => ⟨.growing, true⟩) othersCommit σ ∧
      σ.pc = .returned true ∧ (∀ rpc ∈ σ.sent, rpc ∈ σ.answers.map Prod.fst) ∧
      (σ.participants twoNodes.listen).inMap = true ∧
      finishCount twoNodes.listen othersCommit = 0 := by
  obtain ⟨σ, hrun, hview⟩ : ∃ σ, Lts.Run (MapStep twoNodes)
      (init fun _ => ⟨.growing, true⟩) othersCommit σ ∧
      decide (σ.pc = .returned true ∧ (∀ rpc ∈ σ.sent, rpc ∈ σ.answers.map Prod.fst) ∧
        (σ.participants twoNodes.listen).inMap = true) = true :=
    Lts.run_of_exec_view (fun σ : CommitRun => decide (σ.pc = .returned true ∧
      (∀ rpc ∈ σ.sent, rpc ∈ σ.answers.map Prod.fst) ∧
        (σ.participants twoNodes.listen).inMap = true)) othersCommit (by decide +kernel)
  obtain ⟨hpc, hsent, hmap⟩ := of_decide_eq_true hview
  exact ⟨σ, hrun, hpc, hsent, hmap, by decide +kernel⟩

end RucDDBS.CommitRun
