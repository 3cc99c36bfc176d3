import RucDDBS.Library.Run
import RucDDBS.Transaction.Types
import Mathlib.Logic.Function.Basic

/-!
One run of `TransactionManager::Commit` and the handlers of the nodes it talks
to. The coordinator is a program over remote calls; a call is known by its kind
and by the position of its node in the node set, since the node set is a vector
and may name a node twice.

The network keeps every request that was ever sent. A request may therefore be
handled never, once or many times, at any later moment and in any order, which
covers loss, delay, reordering and the retries of the channel. The result of a
call is false unless some execution of its handler answered true.
-/

namespace RucDDBS

structure IpPort where
  ipAddr : String
  port : UInt32
  deriving DecidableEq, Repr

/-- What `Commit` reads of the transaction and of the server's flags. -/
structure CommitSetup where
  listen : IpPort
  isDistributed : Bool
  nodes : List IpPort
  enableLogging : Bool

/-- The transaction at one node: the state of its `Transaction` object, and
whether `txn_map` still lists it. -/
structure Participant where
  state : TransactionState
  inMap : Bool
  deriving DecidableEq, Repr

namespace Participant

/-- `appended` is false when the log manager returns `INVALID_LSN`. -/
def prepareCommit (enableLogging appended : Bool) (p : Participant) : Participant × Bool :=
  if p.state = .aborted then (p, false)
  else if p.state = .prepared then (p, true)
  else if enableLogging = true ∧ appended = false then (p, false)
  else ({ p with state := .prepared }, true)

def commitSingle (p : Participant) : Participant × Bool :=
  if p.state = .aborted then (p, false)
  else (⟨.committed, false⟩, true)

/-- `AbortSingle` undoes the writes, releases the locks and forgets the
transaction; of these only the last is visible here. -/
def abortSingle (p : Participant) : Participant := { p with inMap := false }

end Participant

inductive RequestKind where
  | prepare | commit | abort
  deriving DecidableEq, Repr

structure Rpc where
  kind : RequestKind
  index : Nat
  deriving DecidableEq, Repr

/-- Where the coordinator is. The numbers count the futures already collected
in the loops over the node set. -/
inductive CommitPc where
  | start
  | localAbort
  | remoteCommit | remoteAbort
  | prepare (collected : Nat)
  | abort (collected : Nat)
  | commit (collected : Nat)
  | returned (result : Bool)
  deriving DecidableEq, Repr

structure CommitRun where
  pc : CommitPc
  participants : IpPort → Participant
  sent : List Rpc
  answers : List (Rpc × Bool)

namespace CommitRun

/-- `advance` runs the coordinator to its next wait, `receive` completes the
call it waits for, `deliver` runs a handler, and `change` stands for whatever a
node does to the transaction between its handlers. -/
inductive Action where
  | advance
  | receive (ok : Bool)
  | deliver (rpc : Rpc) (appended : Bool)
  | change (node : IpPort) (participant : Participant)
  deriving DecidableEq, Repr

inductive Event where
  | silent
  | prepareCommit (node : IpPort) (result : Bool)
  | commitSingle (node : IpPort) (result : Bool)
  | abortSingle (node : IpPort)
  | notFound (node : IpPort)
  deriving DecidableEq, Repr

def init (participants : IpPort → Participant) : CommitRun where
  pc := .start
  participants := participants
  sent := []
  answers := []

def requests (setup : CommitSetup) (kind : RequestKind) : List Rpc :=
  (List.range setup.nodes.length).map (Rpc.mk kind)

/-- `PrepareTransaction`, `CommitTransaction` and `AbortTransaction`. -/
def handle (setup : CommitSetup) (appended : Bool) (node : IpPort) (p : Participant) :
    RequestKind → Participant × Bool × Event
  | .prepare =>
      if p.inMap = false then (p, false, .notFound node)
      else
        let (p', ok) := p.prepareCommit setup.enableLogging appended
        (p', ok, .prepareCommit node ok)
  | .commit =>
      if p.inMap = false then (p, false, .notFound node)
      else
        let (p', ok) := p.commitSingle
        (p', ok, .commitSingle node ok)
  | .abort =>
      if p.inMap = false then (p, false, .notFound node)
      else (p.abortSingle, true, .abortSingle node)

/-- `Abort` on a distributed transaction, up to its first wait. -/
def startAbort (setup : CommitSetup) (σ : CommitRun) : CommitRun :=
  let self := σ.participants setup.listen
  { σ with
    pc := .abort 0
    participants := Function.update σ.participants setup.listen { self with state := .aborted }
    sent := requests setup .abort ++ σ.sent }

/-- The statements between two waits of `Commit`. -/
def advance (setup : CommitSetup) (σ : CommitRun) : Option (CommitRun × Event) :=
  match σ.pc with
  | .start =>
      if setup.isDistributed = false then
        match setup.nodes with
        | [] => none
        | node :: _ =>
            if node = setup.listen then
              let (p, ok) := (σ.participants setup.listen).commitSingle
              some ({ σ with
                pc := if ok = true then .returned true else .localAbort
                participants := Function.update σ.participants setup.listen p },
                .commitSingle setup.listen ok)
            else some ({ σ with pc := .remoteCommit, sent := ⟨.commit, 0⟩ :: σ.sent }, .silent)
      else
        some ({ σ with pc := .prepare 0, sent := requests setup .prepare ++ σ.sent }, .silent)
  | .localAbort =>
      some ({ σ with
        pc := .returned false
        participants := Function.update σ.participants setup.listen
          (σ.participants setup.listen).abortSingle },
        .abortSingle setup.listen)
  | .prepare i =>
      if i < setup.nodes.length then none
      else some ({ σ with pc := .commit 0, sent := requests setup .commit ++ σ.sent }, .silent)
  | .abort i =>
      if i < setup.nodes.length then none
      else some ({ σ with pc := .returned false }, .silent)
  | .commit i =>
      if i < setup.nodes.length then none
      else some ({ σ with pc := .returned true }, .silent)
  | .remoteCommit | .remoteAbort | .returned _ => none

/-- The call that the coordinator waits for. -/
def awaited (setup : CommitSetup) (σ : CommitRun) : Option Rpc :=
  match σ.pc with
  | .remoteCommit => some ⟨.commit, 0⟩
  | .remoteAbort => some ⟨.abort, 0⟩
  | .prepare i => if i < setup.nodes.length then some ⟨.prepare, i⟩ else none
  | .abort i => if i < setup.nodes.length then some ⟨.abort, i⟩ else none
  | .commit i => if i < setup.nodes.length then some ⟨.commit, i⟩ else none
  | .start | .localAbort | .returned _ => none

/-- What the coordinator does with a result. The result of a commit call in the
second phase is ignored. -/
def collect (setup : CommitSetup) (σ : CommitRun) (ok : Bool) : CommitRun :=
  match σ.pc with
  | .remoteCommit =>
      if ok = true then { σ with pc := .returned true }
      else { σ with pc := .remoteAbort, sent := ⟨.abort, 0⟩ :: σ.sent }
  | .remoteAbort => { σ with pc := .returned false }
  | .prepare i => if ok = true then { σ with pc := .prepare (i + 1) } else σ.startAbort setup
  | .abort i => if ok = true then { σ with pc := .abort (i + 1) } else { σ with pc := .returned false }
  | .commit i => { σ with pc := .commit (i + 1) }
  | .start | .localAbort | .returned _ => σ

def step (setup : CommitSetup) (σ : CommitRun) : Action → Option (CommitRun × Event)
  | .advance => σ.advance setup
  | .receive ok => do
      let rpc ← σ.awaited setup
      -- a lost response reads as false
      if ok = false ∨ (rpc, true) ∈ σ.answers then some (σ.collect setup ok, .silent) else none
  | .deliver rpc appended => do
      let node ← setup.nodes[rpc.index]?
      if rpc ∈ σ.sent then
        let (p, ok, event) := handle setup appended node (σ.participants node) rpc.kind
        some ({ σ with
          participants := Function.update σ.participants node p
          answers := (rpc, ok) :: σ.answers }, event)
      else none
  | .change node participant =>
      some ({ σ with participants := Function.update σ.participants node participant }, .silent)

abbrev Run (setup : CommitSetup) := Lts.Run (Lts.Steps (step setup))

end CommitRun

end RucDDBS
