import RucDDBS.Transaction.CommitAgreement

/-!
The takeover of a distributed transaction. A participant that has lost its
coordinator asks another server to go on, and `Coordinator::Insert_txn` there
runs `Commit` again over the same node set, from the prepare phase. Nothing of
what the first coordinator has decided is kept: a node that has committed has
forgotten the transaction and answers its new Prepare request with false, like a
node that never had it.

The requests of a coordinator that has stopped stay in the network, as in
`CommitRun`. Atomicity survives the takeover as long as no coordinator decides
against requests that are already out, unless no node has the transaction any
more.
-/

namespace RucDDBS

/-- A thread that runs `Commit`. The one of `Insert_txn` works on a `Transaction`
of its own, which is in no `txn_map`. -/
structure CommitThread where
  setup : CommitSetup
  inserted : Bool
  stopped : Bool
  pc : CommitPc
  sent : List Rpc
  answers : List (Rpc × Bool)

namespace CommitThread

/-- The thread and the nodes, as a run of `Commit` sees them. -/
def view (thread : CommitThread) (participants : IpPort → Participant) : CommitRun where
  pc := thread.pc
  participants := participants
  sent := thread.sent
  answers := thread.answers

def resume (thread : CommitThread) (σ : CommitRun) : CommitThread :=
  { thread with pc := σ.pc, sent := σ.sent, answers := σ.answers }

def start (setup : CommitSetup) (inserted : Bool) : CommitThread where
  setup := setup
  inserted := inserted
  stopped := false
  pc := .start
  sent := []
  answers := []

end CommitThread

/-- `checked` counts, for each server, the calls of `Insert_txn` between the two
locked sections. -/
structure Takeover where
  participants : IpPort → Participant
  threads : List CommitThread
  checked : IpPort → Nat
  coorTxnMap : IpPort → Bool

namespace Takeover

/-- `insertTxn` is the look into the map, `coordinatorPrepare` starts the thread
and `erase` is its last statement. A coordinator may stop anywhere. -/
inductive Action where
  | advance (k : Nat)
  | receive (k : Nat) (ok : Bool)
  | deliver (k : Nat) (rpc : Rpc) (appended : Bool)
  | change (node : IpPort) (participant : Participant)
  | stop (k : Nat)
  | insertTxn (server : IpPort)
  | coordinatorPrepare (server : IpPort)
  | erase (k : Nat)
  deriving DecidableEq, Repr

def init (setup : CommitSetup) (participants : IpPort → Participant) : Takeover where
  participants := participants
  threads := [.start setup false]
  checked := fun _ => 0
  coorTxnMap := fun _ => false

def setThread (s : Takeover) (k : Nat) (thread : CommitThread) : Takeover :=
  { s with threads := s.threads.set k thread }

/-- The setup of the second `Commit`, for the nodes that the participant knows. -/
def insertedSetup (setup : CommitSetup) (server : IpPort) : CommitSetup where
  listen := server
  isDistributed := decide (1 < setup.nodes.length)
  nodes := setup.nodes
  enableLogging := setup.enableLogging

/-- A step of the coordinator itself. What `Abort` writes into the transaction of
an inserted thread is seen by no node. -/
def coordinate (s : Takeover) (k : Nat) (action : CommitRun.Action) :
    Option (Takeover × CommitRun.Event) := do
  let thread ← s.threads[k]?
  if thread.stopped = true then none
  else
    let (σ, event) ← CommitRun.step thread.setup (thread.view s.participants) action
    let participants := if thread.inserted = true then s.participants else σ.participants
    pure ({ s with participants := participants }.setThread k (thread.resume σ), event)

def step (setup : CommitSetup) (s : Takeover) : Action → Option (Takeover × CommitRun.Event)
  | .advance k => s.coordinate k .advance
  | .receive k ok => s.coordinate k (.receive ok)
  | .deliver k rpc appended => do
      let thread ← s.threads[k]?
      let (σ, event) ←
        CommitRun.step thread.setup (thread.view s.participants) (.deliver rpc appended)
      pure ({ s with participants := σ.participants }.setThread k (thread.resume σ), event)
  | .change node participant =>
      some ({ s with participants := Function.update s.participants node participant }, .silent)
  | .stop k => do
      let thread ← s.threads[k]?
      pure (s.setThread k { thread with stopped := true }, .silent)
  | .insertTxn server =>
      if s.coorTxnMap server = true then some (s, .silent)
      else
        some ({ s with checked := Function.update s.checked server (s.checked server + 1) }, .silent)
  | .coordinatorPrepare server =>
      -- the map is not looked at again under the second lock
      if s.checked server = 0 then none
      else
        some ({ s with
          checked := Function.update s.checked server (s.checked server - 1)
          coorTxnMap := Function.update s.coorTxnMap server true
          threads := s.threads ++ [.start (insertedSetup setup server) true] }, .silent)
  | .erase k => do
      let thread ← s.threads[k]?
      match thread.inserted, thread.stopped, thread.pc with
      | true, false, .returned _ =>
          pure ({ s with
            coorTxnMap := Function.update s.coorTxnMap thread.setup.listen false }, .silent)
      | _, _, _ => none

abbrev Step (setup : CommitSetup) := Lts.Steps (step setup)

/-- A request of this kind is out. -/
def Sent (s : Takeover) (kind : RequestKind) : Prop :=
  ∃ (k : Nat) (thread : CommitThread) (i : Nat),
    s.threads[k]? = some thread ∧ ⟨kind, i⟩ ∈ thread.sent

instance (s : Takeover) (kind : RequestKind) : Decidable (s.Sent kind) :=
  decidable_of_iff (∃ thread ∈ s.threads, ∃ rpc ∈ thread.sent, rpc.kind = kind) <| by
    constructor
    · rintro ⟨thread, hthread, ⟨_, i⟩, hmem, rfl⟩
      obtain ⟨k, hk⟩ := List.mem_iff_getElem?.mp hthread
      exact ⟨k, thread, i, hk, hmem⟩
    · rintro ⟨k, thread, i, hthread, hmem⟩
      exact ⟨thread, List.mem_of_getElem? hthread, ⟨kind, i⟩, hmem, rfl⟩

/-- No node has the transaction any more. -/
def Forgotten (setup : CommitSetup) (s : Takeover) : Prop :=
  ∀ node ∈ setup.nodes, (s.participants node).inMap = false

instance (setup : CommitSetup) (s : Takeover) : Decidable (s.Forgotten setup) :=
  inferInstanceAs (Decidable (∀ node ∈ setup.nodes, (s.participants node).inMap = false))

/-- The thread is collecting votes. -/
def voting (s : Takeover) (k : Nat) : Bool :=
  match s.threads[k]? with
  | some thread =>
      match thread.pc with
      | .prepare _ => true
      | _ => false
  | none => false

/-- No decision is taken against requests that are out while a node has the
transaction, and no node takes the transaction up again between the two. -/
def Agreeing (setup : CommitSetup) (s : Takeover) : Action → Prop
  | .advance k => s.voting k = true → s.Sent .abort → s.Forgotten setup
  | .receive k false => s.voting k = true → s.Sent .commit → s.Forgotten setup
  | .change node participant =>
      s.Sent .commit → s.Sent .abort → (s.participants node).inMap = false →
        participant.inMap = false
  | _ => True

instance (setup : CommitSetup) (s : Takeover) :
    (action : Action) → Decidable (Agreeing setup s action)
  | .advance k =>
      inferInstanceAs (Decidable (s.voting k = true → s.Sent .abort → s.Forgotten setup))
  | .receive k false =>
      inferInstanceAs (Decidable (s.voting k = true → s.Sent .commit → s.Forgotten setup))
  | .change node participant =>
      inferInstanceAs (Decidable (s.Sent .commit → s.Sent .abort →
        (s.participants node).inMap = false → participant.inMap = false))
  | .receive _ true | .deliver _ _ _ | .stop _ | .insertTxn _ | .coordinatorPrepare _
  | .erase _ => .isTrue trivial

def AgreeingStep (setup : CommitSetup) (s : Takeover) (label : Action × CommitRun.Event)
    (s' : Takeover) : Prop :=
  Agreeing setup s label.1 ∧ Step setup s label s'

end Takeover

namespace CommitRun

variable {setup : CommitSetup} {σ σ' : CommitRun} {action : Action} {event : Event}

/-- What a step of the coordinator itself does on a distributed transaction. Only
the end of the vote adds the requests of a decision. -/
structure Coordinates (σ : CommitRun) (action : Action) (event : Event) (σ' : CommitRun) :
    Prop where
  silent : event = .silent
  branch : InDistributedBranch σ'.pc
  inMap : ∀ node, (σ'.participants node).inMap = (σ.participants node).inMap
  keeps : ∀ rpc ∈ σ.sent, rpc ∈ σ'.sent
  commits : ∀ i, ⟨.commit, i⟩ ∈ σ'.sent →
    ⟨.commit, i⟩ ∈ σ.sent ∨ action = .advance ∧ ∃ n, σ.pc = .prepare n
  aborts : ∀ i, ⟨.abort, i⟩ ∈ σ'.sent →
    ⟨.abort, i⟩ ∈ σ.sent ∨ action = .receive false ∧ ∃ n, σ.pc = .prepare n

/-- The steps that send nothing. -/
theorem coordinates_stay {pc : CommitPc} (hbranch : InDistributedBranch pc) :
    Coordinates σ action .silent { σ with pc := pc } :=
  ⟨rfl, hbranch, fun _ => rfl, fun _ h => h, fun _ h => .inl h, fun _ h => .inl h⟩

theorem advance_coordinates (hdist : setup.isDistributed = true) (hpc : InDistributedBranch σ.pc)
    (h : σ.advance setup = some (σ', event)) : Coordinates σ .advance event σ' := by
  unfold advance at h
  split at h
  next hstart =>
    rw [if_neg (by simp [hdist])] at h
    cases h
    refine ⟨rfl, by simp [InDistributedBranch], fun _ => rfl, ?_, ?_, ?_⟩
    · exact fun rpc hrpc => List.mem_append_right _ hrpc
    · exact fun i hi => .inl (old_request (by simp) hi)
    · exact fun i hi => .inl (old_request (by simp) hi)
  next hlocal => exact absurd hlocal hpc.1
  next i hprepare =>
    split at h
    · cases h
    · cases h
      refine ⟨rfl, by simp [InDistributedBranch], fun _ => rfl, ?_, ?_, ?_⟩
      · exact fun rpc hrpc => List.mem_append_right _ hrpc
      · exact fun _ _ => .inr ⟨rfl, i, hprepare⟩
      · exact fun i hi => .inl (old_request (by simp) hi)
  next i habort =>
    split at h
    · cases h
    · cases h
      exact coordinates_stay (by simp [InDistributedBranch])
  next i hcommit =>
    split at h
    · cases h
    · cases h
      exact coordinates_stay (by simp [InDistributedBranch])
  all_goals cases h

theorem collect_coordinates {ok : Bool} {rpc : Rpc} (hpc : InDistributedBranch σ.pc)
    (hrpc : σ.awaited setup = some rpc) :
    Coordinates σ (.receive ok) .silent (σ.collect setup ok) := by
  unfold collect
  split
  next hremote => exact absurd hremote hpc.2.1
  next hremote => exact absurd hremote hpc.2.2
  next i hprepare =>
    split
    next => exact coordinates_stay (by simp [InDistributedBranch])
    next hfalse =>
      have hno : ok = false := by simpa using hfalse
      refine ⟨rfl, by simp [startAbort, InDistributedBranch], startAbort_inMap, ?_, ?_, ?_⟩
      · exact fun rpc hrpc => List.mem_append_right _ hrpc
      · exact fun i hi => .inl (old_request (by simp) hi)
      · exact fun _ _ => .inr ⟨by rw [hno], i, hprepare⟩
  next i habort =>
    split
    · exact coordinates_stay (by simp [InDistributedBranch])
    · exact coordinates_stay (by simp [InDistributedBranch])
  next i hcommit => exact coordinates_stay (by simp [InDistributedBranch])
  next hpc => simp [awaited, hpc] at hrpc
  next hpc => simp [awaited, hpc] at hrpc
  next hpc => simp [awaited, hpc] at hrpc

/-- A handler acts on the transaction only where the node still has it, and no
handler takes it up again. -/
structure Delivers (setup : CommitSetup) (σ : CommitRun) (event : Event) (σ' : CommitRun) :
    Prop where
  pc : σ'.pc = σ.pc
  sent : σ'.sent = σ.sent
  forgets : ∀ node, (σ.participants node).inMap = false → (σ'.participants node).inMap = false
  committed : ∀ node ok, event = .commitSingle node ok →
    node ∈ setup.nodes ∧ (σ.participants node).inMap = true ∧ ∃ i, ⟨.commit, i⟩ ∈ σ.sent
  aborted : ∀ node, event = .abortSingle node →
    node ∈ setup.nodes ∧ (σ.participants node).inMap = true ∧ ∃ i, ⟨.abort, i⟩ ∈ σ.sent

theorem handle_inMap {appended : Bool} {node : IpPort} {p : Participant} {kind : RequestKind}
    (h : p.inMap = false) : handle setup appended node p kind = (p, false, .notFound node) := by
  cases kind <;> simp [handle, h]

theorem deliver_delivers {rpc : Rpc} {appended : Bool}
    (h : step setup σ (.deliver rpc appended) = some (σ', event)) : Delivers setup σ event σ' := by
  obtain ⟨node, hnode, hrest⟩ := Option.bind_eq_some_iff.mp h
  split at hrest
  next hsent =>
    have hhandled := handle_handled setup appended node (σ.participants node) rpc.kind
    have hgone := @handle_inMap setup appended node (σ.participants node) rpc.kind
    generalize handle setup appended node (σ.participants node) rpc.kind = result
      at hrest hhandled hgone
    obtain ⟨p, ok, seen⟩ := result
    change Handled node rpc.kind ok seen at hhandled
    cases hrest
    have hmem : node ∈ setup.nodes := List.mem_of_getElem? hnode
    have hin (hevent : event ≠ .notFound node) : (σ.participants node).inMap = true := by
      by_contra hnot
      have hresult := hgone (Bool.eq_false_of_not_eq_true hnot)
      simp only [Prod.mk.injEq] at hresult
      exact hevent hresult.2.2
    rcases rpc with ⟨kind, i⟩
    refine ⟨rfl, rfl, ?_, ?_, ?_⟩
    · intro other hother
      simp only [Function.update_apply]
      split
      case isTrue heq =>
        subst heq
        have hresult := hgone hother
        simp only [Prod.mk.injEq] at hresult
        rw [hresult.1]
        exact hother
      case isFalse => exact hother
    · rintro other result rfl
      cases hhandled
      exact ⟨hmem, hin (by simp), i, hsent⟩
    · rintro other rfl
      cases hhandled
      exact ⟨hmem, hin (by simp), i, hsent⟩
  next => cases hrest

end CommitRun

namespace Takeover

open CommitRun

variable {setup : CommitSetup} {s s' : Takeover} {action : Action} {event : CommitRun.Event}

/-- What one step does, as far as atomicity depends on it. -/
structure Follows (setup : CommitSetup) (s : Takeover) (action : Action) (event : CommitRun.Event)
    (s' : Takeover) : Prop where
  keeps : ∀ kind, s.Sent kind → s'.Sent kind
  commits : s'.Sent .commit → s.Sent .commit ∨ ∃ k, action = .advance k ∧ s.voting k = true
  aborts : s'.Sent .abort → s.Sent .abort ∨ ∃ k, action = .receive k false ∧ s.voting k = true
  forgets : s.Forgotten setup →
    (∀ node ∈ setup.nodes, ∀ p, action = .change node p → p.inMap = false) → s'.Forgotten setup
  committed : ∀ node ok, event = .commitSingle node ok → s.Sent .commit ∧ ¬ s.Forgotten setup
  aborted : ∀ node, event = .abortSingle node → s.Sent .abort ∧ ¬ s.Forgotten setup

/-- All threads run the distributed branch of `Commit` over the one node set. -/
def Distributed (setup : CommitSetup) (s : Takeover) : Prop :=
  ∀ (k : Nat) (thread : CommitThread), s.threads[k]? = some thread →
    thread.setup.nodes = setup.nodes ∧ thread.setup.isDistributed = true ∧
      InDistributedBranch thread.pc

section Threads

variable {k : Nat} {thread thread' : CommitThread} {kind : RequestKind}

theorem getElem?_setThread {j : Nat} {other : CommitThread}
    (h : (s.setThread k thread').threads[j]? = some other) :
    j = k ∧ other = thread' ∨ j ≠ k ∧ s.threads[j]? = some other := by
  simp only [setThread, List.getElem?_set] at h
  split at h
  case isTrue heq =>
    split at h
    · exact .inl ⟨heq.symm, (Option.some.inj h).symm⟩
    · cases h
  case isFalse hne => exact .inr ⟨Ne.symm hne, h⟩

theorem Distributed.setThread (h : s.Distributed setup) (hthread : s.threads[k]? = some thread)
    (hsetup : thread'.setup = thread.setup) (hpc : InDistributedBranch thread'.pc) :
    (s.setThread k thread').Distributed setup := by
  intro j other hother
  rcases getElem?_setThread hother with ⟨rfl, rfl⟩ | ⟨_, hold⟩
  · obtain ⟨hnodes, hdist, _⟩ := h j thread hthread
    rw [hsetup]
    exact ⟨hnodes, hdist, hpc⟩
  · exact h j other hold

theorem Sent.of_setThread (h : (s.setThread k thread').Sent kind) :
    s.Sent kind ∨ ∃ i, ⟨kind, i⟩ ∈ thread'.sent := by
  obtain ⟨j, other, i, hother, hsent⟩ := h
  rcases getElem?_setThread hother with ⟨rfl, rfl⟩ | ⟨_, hold⟩
  · exact .inr ⟨i, hsent⟩
  · exact .inl ⟨j, other, i, hold, hsent⟩

theorem Sent.setThread (hthread : s.threads[k]? = some thread)
    (hsent : ∀ rpc ∈ thread.sent, rpc ∈ thread'.sent) (h : s.Sent kind) :
    (s.setThread k thread').Sent kind := by
  obtain ⟨j, other, i, hother, hmem⟩ := h
  rcases ne_or_eq j k with hne | rfl
  · refine ⟨j, other, i, ?_, hmem⟩
    simp only [Takeover.setThread, List.getElem?_set_ne (Ne.symm hne), hother]
  · refine ⟨j, thread', i, ?_, hsent _ ?_⟩
    · have hlt : j < s.threads.length := (List.getElem?_eq_some_iff.mp hthread).1
      simp [Takeover.setThread, hlt]
    · rw [hthread] at hother
      cases hother
      exact hmem

theorem sent_setThread_iff (hthread : s.threads[k]? = some thread)
    (hsame : thread'.sent = thread.sent) : (s.setThread k thread').Sent kind ↔ s.Sent kind := by
  constructor
  · intro h
    rcases h.of_setThread with hold | ⟨i, hi⟩
    · exact hold
    · exact ⟨k, thread, i, hthread, hsame ▸ hi⟩
  · intro h
    exact h.setThread hthread (fun _ hrpc => hsame ▸ hrpc)

/-- The threads after one has been started. -/
theorem getElem?_started {j : Nat} {other : CommitThread}
    (h : (s.threads ++ [thread'])[j]? = some other) :
    s.threads[j]? = some other ∨ other = thread' := by
  rw [List.getElem?_append] at h
  split at h
  · exact .inl h
  · have hmem := List.mem_of_getElem? h
    exact .inr (List.mem_singleton.mp hmem)

theorem sent_started_iff (hsent : thread'.sent = []) (hthreads : s'.threads = s.threads ++ [thread']) :
    s'.Sent kind ↔ s.Sent kind := by
  constructor
  · rintro ⟨j, other, i, hother, hi⟩
    rw [hthreads] at hother
    rcases getElem?_started hother with hold | rfl
    · exact ⟨j, other, i, hold, hi⟩
    · rw [hsent] at hi
      cases hi
  · rintro ⟨j, other, i, hother, hi⟩
    refine ⟨j, other, i, ?_, hi⟩
    rw [hthreads, List.getElem?_append_left (List.getElem?_eq_some_iff.mp hother).1]
    exact hother

end Threads

section Steps

/-- The steps that neither send nor handle anything. -/
theorem Follows.idle (hsent : ∀ kind, s'.Sent kind ↔ s.Sent kind)
    (hforgets : s.Forgotten setup →
      (∀ node ∈ setup.nodes, ∀ p, action = .change node p → p.inMap = false) →
      s'.Forgotten setup) :
    Follows setup s action .silent s' where
  keeps := fun kind h => (hsent kind).mpr h
  commits := fun h => .inl ((hsent .commit).mp h)
  aborts := fun h => .inl ((hsent .abort).mp h)
  forgets := hforgets
  committed := nofun
  aborted := nofun

variable {k : Nat}

theorem coordinate_follows {move : CommitRun.Action} (hdist : s.Distributed setup)
    (hlocal : move = .advance ∧ action = .advance k ∨
      ∃ ok, move = .receive ok ∧ action = .receive k ok)
    (h : s.coordinate k move = some (s', event)) :
    Follows setup s action event s' ∧ s'.Distributed setup := by
  obtain ⟨thread, hthread, hrest⟩ := Option.bind_eq_some_iff.mp h
  split at hrest
  · cases hrest
  obtain ⟨⟨σ', seen⟩, hstep, hresult⟩ := Option.bind_eq_some_iff.mp hrest
  cases hresult
  obtain ⟨hnodes, hd, hbranch⟩ := hdist k thread hthread
  have hcoord : Coordinates (thread.view s.participants) move event σ' := by
    rcases hlocal with ⟨rfl, _⟩ | ⟨ok, rfl, _⟩
    · exact advance_coordinates hd hbranch hstep
    · obtain ⟨rpc, hrpc, hcollect⟩ := Option.bind_eq_some_iff.mp hstep
      split at hcollect
      · cases hcollect
        exact collect_coordinates hbranch hrpc
      · cases hcollect
  have hvoting {n : Nat} (hpc : (thread.view s.participants).pc = .prepare n) :
      s.voting k = true := by
    have hpc' : thread.pc = .prepare n := hpc
    simp [voting, hthread, hpc']
  refine ⟨⟨?_, ?_, ?_, ?_, ?_, ?_⟩, hdist.setThread hthread rfl hcoord.branch⟩
  · intro kind hkind
    exact hkind.setThread hthread hcoord.keeps
  · intro hsent
    rcases hsent.of_setThread with hold | ⟨i, hi⟩
    · exact .inl hold
    · rcases hcoord.commits i hi with hold | ⟨rfl, n, hpc⟩
      · exact .inl ⟨k, thread, i, hthread, hold⟩
      · rcases hlocal with ⟨_, haction⟩ | ⟨ok, hmove, _⟩
        · exact .inr ⟨k, haction, hvoting hpc⟩
        · cases hmove
  · intro hsent
    rcases hsent.of_setThread with hold | ⟨i, hi⟩
    · exact .inl hold
    · rcases hcoord.aborts i hi with hold | ⟨rfl, n, hpc⟩
      · exact .inl ⟨k, thread, i, hthread, hold⟩
      · rcases hlocal with ⟨hmove, _⟩ | ⟨ok, hmove, haction⟩
        · cases hmove
        · cases hmove
          exact .inr ⟨k, haction, hvoting hpc⟩
  · intro hforgotten _ node hnode
    have hbefore := hforgotten node hnode
    simp only [setThread]
    split
    · exact hbefore
    · exact (hcoord.inMap node).trans hbefore
  · intro node ok hevent
    cases hcoord.silent.symm.trans hevent
  · intro node hevent
    cases hcoord.silent.symm.trans hevent

theorem deliver_follows {rpc : Rpc} {appended : Bool} (hdist : s.Distributed setup)
    (h : step setup s (.deliver k rpc appended) = some (s', event)) :
    Follows setup s (.deliver k rpc appended) event s' ∧ s'.Distributed setup := by
  obtain ⟨thread, hthread, hrest⟩ := Option.bind_eq_some_iff.mp h
  obtain ⟨⟨σ', seen⟩, hstep, hresult⟩ := Option.bind_eq_some_iff.mp hrest
  cases hresult
  obtain ⟨hnodes, _, hbranch⟩ := hdist k thread hthread
  have hdelivers := deliver_delivers hstep
  have hpc : (thread.resume σ').pc = thread.pc := hdelivers.pc
  have hsame : (thread.resume σ').sent = thread.sent := hdelivers.sent
  refine ⟨⟨?_, ?_, ?_, ?_, ?_, ?_⟩, hdist.setThread hthread rfl (hpc ▸ hbranch)⟩
  · intro kind hkind
    exact (sent_setThread_iff hthread hsame).mpr hkind
  · intro hsent
    exact .inl ((sent_setThread_iff hthread hsame).mp hsent)
  · intro hsent
    exact .inl ((sent_setThread_iff hthread hsame).mp hsent)
  · intro hforgotten _ node hnode
    exact hdelivers.forgets node (hforgotten node hnode)
  · intro node ok hevent
    obtain ⟨hnode, hin, i, hi⟩ := hdelivers.committed node ok hevent
    refine ⟨⟨k, thread, i, hthread, hi⟩, ?_⟩
    intro hforgotten
    cases hin.symm.trans (hforgotten node (hnodes ▸ hnode))
  · intro node hevent
    obtain ⟨hnode, hin, i, hi⟩ := hdelivers.aborted node hevent
    refine ⟨⟨k, thread, i, hthread, hi⟩, ?_⟩
    intro hforgotten
    cases hin.symm.trans (hforgotten node (hnodes ▸ hnode))

/-- Every step does one of these things, and the new threads are like the first. -/
theorem step_follows (hnodes : 1 < setup.nodes.length) (hdist : s.Distributed setup)
    (h : step setup s action = some (s', event)) :
    Follows setup s action event s' ∧ s'.Distributed setup := by
  cases action with
  | advance k => exact coordinate_follows hdist (.inl ⟨rfl, rfl⟩) h
  | receive k ok => exact coordinate_follows hdist (.inr ⟨ok, rfl, rfl⟩) h
  | deliver k rpc appended => exact deliver_follows hdist h
  | change node participant =>
      cases h
      refine ⟨.idle (fun _ => Iff.rfl) ?_, hdist⟩
      intro hforgotten hchange other hother
      simp only [Function.update_apply]
      split
      case isTrue heq =>
        subst heq
        exact hchange other hother participant rfl
      case isFalse => exact hforgotten other hother
  | stop k =>
      obtain ⟨thread, hthread, hresult⟩ := Option.bind_eq_some_iff.mp h
      cases hresult
      exact ⟨.idle (fun _ => sent_setThread_iff hthread rfl) (fun hforgotten _ => hforgotten),
        hdist.setThread hthread rfl (hdist k thread hthread).2.2⟩
  | insertTxn server =>
      simp only [step] at h
      split at h
      · cases h
        exact ⟨.idle (fun _ => Iff.rfl) (fun hforgotten _ => hforgotten), hdist⟩
      · cases h
        exact ⟨.idle (fun _ => Iff.rfl) (fun hforgotten _ => hforgotten), hdist⟩
  | coordinatorPrepare server =>
      simp only [step] at h
      split at h
      · cases h
      cases h
      refine ⟨.idle (fun _ => sent_started_iff rfl rfl) (fun hforgotten _ => hforgotten), ?_⟩
      intro j other hother
      rcases getElem?_started hother with hold | rfl
      · exact hdist j other hold
      · exact ⟨rfl, decide_eq_true hnodes, nofun, nofun, nofun⟩
  | erase k =>
      obtain ⟨thread, hthread, hresult⟩ := Option.bind_eq_some_iff.mp h
      split at hresult
      · cases hresult
        exact ⟨.idle (fun _ => Iff.rfl) (fun hforgotten _ => hforgotten), hdist⟩
      · cases hresult

end Steps

/-- The invariant, over the labels so far and the present state. Either all
decisions that are out agree, or no handler can act on them any more. -/
structure Atomic (setup : CommitSetup) (past : List (Action × CommitRun.Event)) (s : Takeover) :
    Prop where
  distributed : s.Distributed setup
  agreed : s.Sent .commit → s.Sent .abort → s.Forgotten setup
  committed : ∀ action node ok, (action, .commitSingle node ok) ∈ past → s.Sent .commit
  aborted : ∀ action node, (action, .abortSingle node) ∈ past → s.Sent .abort
  apart : ∀ action action' node node' ok,
    (action, .commitSingle node ok) ∈ past → (action', .abortSingle node') ∉ past

section Runs

variable {past : List (Action × CommitRun.Event)}

theorem atomic_init (hdist : setup.isDistributed = true) (participants : IpPort → Participant) :
    Atomic setup [] (init setup participants) := by
  have hnone (kind : RequestKind) : ¬ (init setup participants).Sent kind := by
    rintro ⟨k, thread, i, hthread, hmem⟩
    have hstart := List.mem_singleton.mp (List.mem_of_getElem? hthread)
    subst hstart
    cases hmem
  refine ⟨?_, fun hsent => absurd hsent (hnone .commit), by simp, by simp, by simp⟩
  intro k thread hthread
  have hstart := List.mem_singleton.mp (List.mem_of_getElem? hthread)
  subst hstart
  exact ⟨rfl, hdist, nofun, nofun, nofun⟩

/-- Where both decisions are out after a step, no node has the transaction. -/
theorem Follows.agreed (h : Follows setup s action event s') (hagreeing : Agreeing setup s action)
    (hbefore : s.Sent .commit → s.Sent .abort → s.Forgotten setup)
    (hcommit : s'.Sent .commit) (habort : s'.Sent .abort) : s'.Forgotten setup := by
  rcases h.commits hcommit with hc | ⟨k, rfl, hvoting⟩
  · rcases h.aborts habort with ha | ⟨k, rfl, hvoting⟩
    · have hforgotten := hbefore hc ha
      apply h.forgets hforgotten
      rintro node hnode p rfl
      exact hagreeing hc ha (hforgotten node hnode)
    · exact h.forgets (hagreeing hvoting hc) nofun
  · rcases h.aborts habort with ha | ⟨k', haction, _⟩
    · exact h.forgets (hagreeing hvoting ha) nofun
    · cases haction

theorem Atomic.step (hnodes : 1 < setup.nodes.length) (h : Atomic setup past s)
    (hstep : AgreeingStep setup s (action, event) s') :
    Atomic setup (past ++ [(action, event)]) s' := by
  obtain ⟨hfollows, hdist⟩ := step_follows hnodes h.distributed hstep.2
  have hnew {label : Action × CommitRun.Event} (hmem : label ∈ past ++ [(action, event)]) :
      label ∈ past ∨ label = (action, event) := by simpa using hmem
  refine ⟨hdist, hfollows.agreed hstep.1 h.agreed, ?_, ?_, ?_⟩
  · intro a node ok hmem
    rcases hnew hmem with hold | heq
    · exact hfollows.keeps _ (h.committed a node ok hold)
    · cases heq
      exact hfollows.keeps _ (hfollows.committed node ok rfl).1
  · intro a node hmem
    rcases hnew hmem with hold | heq
    · exact hfollows.keeps _ (h.aborted a node hold)
    · cases heq
      exact hfollows.keeps _ (hfollows.aborted node rfl).1
  · intro a a' node node' ok hcommit habort
    rcases hnew hcommit with hold | heq
    · rcases hnew habort with hold' | heq'
      · exact h.apart a a' node node' ok hold hold'
      · cases heq'
        obtain ⟨hsent, hhere⟩ := hfollows.aborted node' rfl
        exact hhere (h.agreed (h.committed a node ok hold) hsent)
    · cases heq
      rcases hnew habort with hold' | heq'
      · obtain ⟨hsent, hhere⟩ := hfollows.committed node ok rfl
        exact hhere (h.agreed hsent (h.aborted a' node' hold'))
      · cases heq'

end Runs

/-- No node aborts what another commits, whatever coordinators take over, when
none of them decides against requests that are out. -/
theorem takeover_atomic {setup : CommitSetup} (hdist : setup.isDistributed = true)
    (hnodes : 1 < setup.nodes.length) {participants : IpPort → Participant} {s : Takeover}
    {trace : List (Action × CommitRun.Event)}
    (hrun : Lts.Run (AgreeingStep setup) (init setup participants) trace s)
    {action : Action} {node : IpPort} (hcommit : (action, .commitSingle node true) ∈ trace) :
    ∀ action' node', (action', .abortSingle node') ∉ trace := by
  have hatomic : Atomic setup trace s := by
    refine hrun.preserves_past (Atomic setup) ?_ (atomic_init hdist participants)
    rintro past s ⟨action, event⟩ s' hstep hs
    exact hs.step hnodes hstep
  intro action' node'
  exact hatomic.apart action action' node node' true hcommit

/-- Both nodes vote and the first coordinator stops before it has decided; the
second node takes over and commits. -/
def takeoverCommits : List (Action × CommitRun.Event) :=
  [(.advance 0, .silent), (.deliver 0 ⟨.prepare, 0⟩ true, .prepareCommit ⟨"10.0.0.2", 8000⟩ true),
    (.deliver 0 ⟨.prepare, 1⟩ true, .prepareCommit ⟨"10.0.0.3", 8000⟩ true), (.stop 0, .silent),
    (.insertTxn ⟨"10.0.0.3", 8000⟩, .silent), (.coordinatorPrepare ⟨"10.0.0.3", 8000⟩, .silent),
    (.advance 1, .silent), (.deliver 1 ⟨.prepare, 0⟩ true, .prepareCommit ⟨"10.0.0.2", 8000⟩ true),
    (.deliver 1 ⟨.prepare, 1⟩ true, .prepareCommit ⟨"10.0.0.3", 8000⟩ true),
    (.receive 1 true, .silent), (.receive 1 true, .silent), (.advance 1, .silent),
    (.deliver 1 ⟨.commit, 0⟩ true, .commitSingle ⟨"10.0.0.2", 8000⟩ true),
    (.deliver 1 ⟨.commit, 1⟩ true, .commitSingle ⟨"10.0.0.3", 8000⟩ true),
    (.receive 1 true, .silent), (.receive 1 true, .silent), (.advance 1, .silent),
    (.erase 1, .silent)]

theorem takeoverCommits_atomic : ∃ s : Takeover,
    Lts.Run (AgreeingStep twoNodes) (init twoNodes fun _ => ⟨.growing, true⟩) takeoverCommits s ∧
    (.deliver 1 ⟨.commit, 0⟩ true, .commitSingle ⟨"10.0.0.2", 8000⟩ true) ∈ takeoverCommits ∧
    ∀ action' node', (action', .abortSingle node') ∉ takeoverCommits := by
  obtain ⟨s, hrun⟩ : ∃ s, Lts.Run (AgreeingStep twoNodes)
      (init twoNodes fun _ => ⟨.growing, true⟩) takeoverCommits s :=
    Lts.run_of_exec_when takeoverCommits (by decide +kernel)
  have hcommit : (Action.deliver 1 ⟨.commit, 0⟩ true,
      CommitRun.Event.commitSingle ⟨"10.0.0.2", 8000⟩ true) ∈ takeoverCommits := by
    decide
  exact ⟨s, hrun, hcommit, takeover_atomic rfl (by decide) hrun hcommit⟩

/-- The first coordinator stops when the first of two Commit requests has been
handled. The second node takes over; the first node does not know the
transaction any more. -/
def takeoverAborts : List (Action × CommitRun.Event) :=
  [(.advance 0, .silent), (.deliver 0 ⟨.prepare, 0⟩ true, .prepareCommit ⟨"10.0.0.2", 8000⟩ true),
    (.deliver 0 ⟨.prepare, 1⟩ true, .prepareCommit ⟨"10.0.0.3", 8000⟩ true),
    (.receive 0 true, .silent), (.receive 0 true, .silent), (.advance 0, .silent),
    (.deliver 0 ⟨.commit, 0⟩ true, .commitSingle ⟨"10.0.0.2", 8000⟩ true), (.stop 0, .silent),
    (.insertTxn ⟨"10.0.0.3", 8000⟩, .silent), (.coordinatorPrepare ⟨"10.0.0.3", 8000⟩, .silent),
    (.advance 1, .silent), (.deliver 1 ⟨.prepare, 0⟩ true, .notFound ⟨"10.0.0.2", 8000⟩),
    (.receive 1 false, .silent),
    (.deliver 1 ⟨.abort, 1⟩ true, .abortSingle ⟨"10.0.0.3", 8000⟩)]

/-- One node has committed and the other aborts. -/
theorem takeoverAborts_breaks_atomicity :
    (∃ s : Takeover, Lts.Run (Step twoNodes) (init twoNodes fun _ => ⟨.growing, true⟩)
      takeoverAborts s) ∧
    (.deliver 0 ⟨.commit, 0⟩ true, .commitSingle ⟨"10.0.0.2", 8000⟩ true) ∈ takeoverAborts ∧
    (.deliver 1 ⟨.abort, 1⟩ true, .abortSingle ⟨"10.0.0.3", 8000⟩) ∈ takeoverAborts := by
  refine ⟨Lts.run_of_exec_events takeoverAborts (by decide +kernel), ?_, ?_⟩
  · decide
  · decide

end Takeover

end RucDDBS
