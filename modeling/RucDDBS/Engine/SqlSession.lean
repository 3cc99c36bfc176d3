import RucDDBS.Transaction.CommitProtocol
import RucDDBS.Transaction.TxnIds

/-!
The transactions of a client session. Between two statements a session is one
integer, the id of its open transaction or 0, which every branch of
`Sql_execute_client` tests before and after it executes its plan. Executing a plan
touches no transaction object, so the plans have no part here.

The tests of COMMIT and ABORT are the wrong way round, and a new transaction has
no nodes when a statement commits it at once. Neither matters as long as a session
neither ends a transaction nor works outside one.
-/

namespace RucDDBS

namespace SqlSession

section Server

/-- What the engine hands over of a `Transaction` object. -/
structure SqlTxn where
  ref : TxnRef
  txnId : TxnId
  isDistributed : Bool
  nodeSet : List IpPort
  deriving DecidableEq

/-- The branches of `Sql_execute_client`; `unparsed` is a text without a tree. -/
inductive Sql where
  | unparsed
  | showTables
  | showPartitions
  | explain
  | select
  | createTable
  | insert
  | delete
  | update
  | txnBegin
  | txnCommit
  | txnAbort
  deriving DecidableEq

/-- The calls of the transaction manager; a null pointer is `none`. -/
inductive ManagerCall where
  | begin (txn : SqlTxn)
  | commit (txn : Option SqlTxn)
  | abort (txn : Option SqlTxn)
  deriving DecidableEq

/-- A server with one of its sessions. `txnId` is what the last statement returned, and
`opened` remembers the transaction of the last BEGIN until a COMMIT or an ABORT. The
server is no longer `running` after a call that is undefined in the source. -/
structure State where
  txnMap : TxnId → Option SqlTxn
  begun : Nat
  txnId : TxnId
  opened : Option TxnRef
  running : Bool

/-- A client that connects to a server. -/
def connect (txnMap : TxnId → Option SqlTxn) (begun : Nat) : State := ⟨txnMap, begun, 0, none, true⟩

def halt (s : State) : State := { s with running := false }

/-- `Begin` with a null pointer. -/
def newTxn (s : State) (reply : TimestampReply) : SqlTxn :=
  ⟨s.begun, getTimestampFromServer reply, false, []⟩

def begin (s : State) (reply : TimestampReply) : State :=
  let txn := newTxn s reply
  { s with txnMap := Function.update s.txnMap txn.txnId (some txn), begun := s.begun + 1 }

/-- `CommitSingle` and `AbortSingle` erase the id. -/
def erase (s : State) (txn : SqlTxn) : State :=
  { s with txnMap := Function.update s.txnMap txn.txnId none }

/-- `Commit` at a server that listens at `self`. The map of the server changes here only if
the call stays local. -/
def commit (self : IpPort) (s : State) : Option SqlTxn → State
  | none => halt s
  | some txn =>
      if txn.isDistributed then s
      else
        match txn.nodeSet with
        | [] => halt s
        | node :: _ => if node = self then erase s txn else s

def abort (s : State) : Option SqlTxn → State
  | none => halt s
  | some txn => if txn.isDistributed then s else erase s txn

end Server

section Execution

/-- The branches of SELECT, INSERT, DELETE and UPDATE. -/
def execPlan (self : IpPort) (s : State) (reply : TimestampReply) : State × List ManagerCall :=
  if s.txnId = 0 then
    let txn := newTxn s reply
    (commit self (begin s reply) (some txn), [.begin txn, .commit (some txn)])
  else
    match s.txnMap s.txnId with
    | none => (halt s, [])
    | some txn => ({ s with txnId := txn.txnId }, [])

def sqlExecuteClient (self : IpPort) (s : State) (reply : TimestampReply) :
    Sql → State × List ManagerCall
  | .unparsed | .showTables | .showPartitions | .explain | .createTable => (s, [])
  | .select | .insert | .delete | .update => execPlan self s reply
  | .txnBegin =>
      let txn := newTxn s reply
      ({ begin s reply with txnId := txn.txnId, opened := some txn.ref }, [.begin txn])
  | .txnCommit =>
      if s.txnId = 0 then
        let txn := s.txnMap s.txnId
        ({ commit self s txn with txnId := 0, opened := none }, [.commit txn])
      else ({ s with opened := none }, [])
  | .txnAbort =>
      if s.txnId = 0 then
        let txn := s.txnMap s.txnId
        ({ abort s txn with txnId := 0, opened := none }, [.abort txn])
      else ({ s with opened := none }, [])

/-- A statement of the session, or other sessions and services changing the map. -/
inductive Action where
  | sql (statement : Sql) (reply : TimestampReply)
  | others (txnMap : TxnId → Option SqlTxn)

/-- The transaction that was open, the calls that were made and the integer returned. -/
structure Event where
  opened : Option TxnRef
  calls : List ManagerCall
  returned : TxnId

def step (self : IpPort) (s : State) : Action → Option (State × Event)
  | .sql statement reply =>
      if s.running then
        let (t, calls) := sqlExecuteClient self s reply statement
        some (t, ⟨s.opened, calls, t.txnId⟩)
      else none
  | .others txnMap => some ({ s with txnMap }, ⟨s.opened, [], s.txnId⟩)

end Execution

section Endings

/-- The statement runs a plan. -/
def Sql.executesPlan : Sql → Bool
  | .select | .insert | .delete | .update => true
  | _ => false

/-- Nobody commits or aborts a null pointer or a transaction without nodes. -/
def ManagerCall.Valid : ManagerCall → Prop
  | .begin _ => True
  | .commit txn | .abort txn => ∃ t, txn = some t ∧ t.nodeSet ≠ []

/-- What a statement owes to the transactions of its session. -/
structure Settles (statement : Sql) (e : Event) : Prop where
  commits : statement = .txnCommit → ∀ ref ∈ e.opened,
    (∃ txn, .commit (some txn) ∈ e.calls ∧ txn.ref = ref) ∧ e.returned = 0
  aborts : statement = .txnAbort → ∀ ref ∈ e.opened,
    (∃ txn, .abort (some txn) ∈ e.calls ∧ txn.ref = ref) ∧ e.returned = 0
  outside : statement.executesPlan = true → e.opened = none →
    ∃ txn, .begin txn ∈ e.calls ∧ .commit (some txn) ∈ e.calls
  valid : ∀ call ∈ e.calls, call.Valid

def SettlesLabel : Action × Event → Prop
  | (.sql statement _, e) => Settles statement e
  | (.others _, _) => True

/-- Under the id 0 the map has a transaction with nodes, and if the session has an open
transaction it is this one. -/
def ZeroEnds (s : State) : Prop :=
  ∃ txn, s.txnMap 0 = some txn ∧ txn.nodeSet ≠ [] ∧ ∀ ref ∈ s.opened, txn.ref = ref

/-- Plans are executed inside transactions only, and no open transaction is ended. -/
def Avoids (s : State) : Action → Prop
  | .sql .txnCommit _ | .sql .txnAbort _ => if s.txnId = 0 then ZeroEnds s else s.opened = none
  | .sql statement _ => statement.executesPlan = true → s.txnId ≠ 0 ∧ s.opened ≠ none
  | .others _ => True

end Endings

section Steps

variable {self : IpPort} {s t : State} {opened : Option TxnRef} {returned : TxnId}

/-- A statement that neither executes a plan nor ends a transaction. -/
theorem settles_begins {statement : Sql} {calls : List ManagerCall}
    (hplan : statement.executesPlan = false) (hcommit : statement ≠ .txnCommit)
    (habort : statement ≠ .txnAbort) (hcalls : ∀ call ∈ calls, ∃ txn, call = .begin txn) :
    Settles statement ⟨opened, calls, returned⟩ where
  commits := fun heq => absurd heq hcommit
  aborts := fun heq => absurd heq habort
  outside := by
    intro heq
    rw [hplan] at heq
    cases heq
  valid := by
    intro call hcall
    obtain ⟨txn, rfl⟩ := hcalls call hcall
    trivial

/-- A plan outside of a transaction is committed without nodes; inside of one nothing is
called. -/
theorem settles_execPlan_iff {statement : Sql} (hplan : statement.executesPlan = true)
    (reply : TimestampReply) :
    Settles statement ⟨s.opened, (execPlan self s reply).2, returned⟩ ↔
      s.txnId ≠ 0 ∧ s.opened ≠ none := by
  have hcommit : statement ≠ .txnCommit := by
    rintro rfl
    cases hplan
  have habort : statement ≠ .txnAbort := by
    rintro rfl
    cases hplan
  unfold execPlan
  split
  next hzero =>
    constructor
    · intro h
      obtain ⟨txn, heq, hnodes⟩ := h.valid (.commit (some (newTxn s reply))) (by simp)
      cases heq
      exact absurd rfl hnodes
    · rintro ⟨hne, _⟩
      exact absurd hzero hne
  next hzero =>
    have hcalls : (match s.txnMap s.txnId with
        | none => (halt s, ([] : List ManagerCall))
        | some txn => ({ s with txnId := txn.txnId }, [])).2 = [] := by
      split <;> rfl
    rw [hcalls]
    constructor
    · intro h
      refine ⟨hzero, ?_⟩
      intro hopened
      obtain ⟨txn, hbegin, _⟩ := h.outside hplan hopened
      cases hbegin
    · rintro ⟨_, hopened⟩
      exact ⟨fun heq => absurd heq hcommit, fun heq => absurd heq habort,
        fun _ hnone => absurd hnone hopened, by simp⟩

/-- With the integer 0 the transaction with this id is ended. -/
theorem ends_zero_iff {call : Option SqlTxn → ManagerCall} (hinj : Function.Injective call)
    (hvalid : ∀ txn, (call txn).Valid ↔ ∃ t, txn = some t ∧ t.nodeSet ≠ []) :
    ((∀ ref ∈ s.opened, (∃ txn, call (some txn) ∈ [call (s.txnMap 0)] ∧ txn.ref = ref) ∧
        (0 : TxnId) = 0) ∧ ∀ c ∈ [call (s.txnMap 0)], c.Valid) ↔ ZeroEnds s := by
  simp only [List.mem_singleton, forall_eq, hvalid, and_true, hinj.eq_iff]
  constructor
  · rintro ⟨hopened, txn, hfound, hnodes⟩
    refine ⟨txn, hfound, hnodes, ?_⟩
    intro ref href
    obtain ⟨txn', hfound', hsame⟩ := hopened ref href
    rw [hfound, Option.some.injEq] at hfound'
    rwa [← hfound']
  · rintro ⟨txn, hfound, hnodes, hopened⟩
    exact ⟨fun ref href => ⟨txn, hfound.symm, hopened ref href⟩, txn, hfound, hnodes⟩

/-- With any other integer nothing is ended. -/
theorem ends_nothing_iff {call : Option SqlTxn → ManagerCall} :
    ((∀ ref ∈ s.opened, (∃ txn, call (some txn) ∈ ([] : List ManagerCall) ∧ txn.ref = ref) ∧
        returned = 0) ∧ ∀ c ∈ ([] : List ManagerCall), c.Valid) ↔ s.opened = none := by
  constructor
  · rintro ⟨hopened, _⟩
    cases heq : s.opened with
    | none => rfl
    | some ref =>
        obtain ⟨⟨_, hmem, _⟩, _⟩ := hopened ref heq
        cases hmem
  · intro hnone
    rw [hnone]
    simp

theorem settles_commit_iff {e : Event} : Settles .txnCommit e ↔
    (∀ ref ∈ e.opened, (∃ txn, .commit (some txn) ∈ e.calls ∧ txn.ref = ref) ∧ e.returned = 0) ∧
      ∀ c ∈ e.calls, c.Valid := by
  constructor
  · intro h
    exact ⟨h.commits rfl, h.valid⟩
  · rintro ⟨hends, hvalid⟩
    exact ⟨fun _ => hends, (nomatch ·), (nomatch ·), hvalid⟩

theorem settles_abort_iff {e : Event} : Settles .txnAbort e ↔
    (∀ ref ∈ e.opened, (∃ txn, .abort (some txn) ∈ e.calls ∧ txn.ref = ref) ∧ e.returned = 0) ∧
      ∀ c ∈ e.calls, c.Valid := by
  constructor
  · intro h
    exact ⟨h.aborts rfl, h.valid⟩
  · rintro ⟨hends, hvalid⟩
    exact ⟨(nomatch ·), fun _ => hends, (nomatch ·), hvalid⟩

/-- A statement does what it owes exactly if it avoids the wrong branches. -/
theorem avoids_iff_settles {label : Action × Event} (hstep : Lts.Steps (step self) s label t) :
    Avoids s label.1 ↔ SettlesLabel label := by
  obtain ⟨action, event⟩ := label
  cases action with
  | others txnMap => exact Iff.rfl
  | sql statement reply =>
      simp only [Lts.Steps, step] at hstep
      split at hstep
      · simp only [Option.some.injEq, Prod.mk.injEq] at hstep
        obtain ⟨rfl, rfl⟩ := hstep
        cases statement with
        | unparsed | showTables | showPartitions | explain | createTable =>
            exact iff_of_true (absurd · Bool.false_ne_true) (settles_begins rfl (by simp) (by simp) (by
              simp [sqlExecuteClient]))
        | select | insert | delete | update =>
            exact (forall_prop_of_true rfl).trans (settles_execPlan_iff rfl reply).symm
        | txnBegin =>
            exact iff_of_true (absurd · Bool.false_ne_true) (settles_begins rfl (by simp) (by simp) (by
              simp [sqlExecuteClient]))
        | txnCommit =>
            simp only [Avoids, SettlesLabel, settles_commit_iff, sqlExecuteClient]
            split
            next hzero =>
              rw [hzero]
              exact (ends_zero_iff (fun _ _ => ManagerCall.commit.inj) fun _ => Iff.rfl).symm
            next => exact ends_nothing_iff.symm
        | txnAbort =>
            simp only [Avoids, SettlesLabel, settles_abort_iff, sqlExecuteClient]
            split
            next hzero =>
              rw [hzero]
              exact (ends_zero_iff (fun _ _ => ManagerCall.abort.inj) fun _ => Iff.rfl).symm
            next => exact ends_nothing_iff.symm
      · cases hstep

/-- Whatever the statements and whatever others do to the map: all statements settle
exactly if none of them works outside of a transaction or ends one. -/
theorem session_transactions_settle_iff {trace : List (Action × Event)}
    (hrun : Lts.Run (Lts.Steps (step self)) s trace t) :
    (∀ label ∈ trace, SettlesLabel label) ↔
      Lts.Run (fun s label t => Avoids s label.1 ∧ Lts.Steps (step self) s label t) s trace t :=
  hrun.labels_iff (fun _ => True) SettlesLabel (fun s label => Avoids s label.1)
    (fun _ _ _ _ _ => trivial) (fun _ _ _ _ hstep => avoids_iff_settles hstep) trivial

def listenAddr : IpPort := ⟨"0.0.0.0", 8005⟩

/-- BEGIN, an INSERT inside of the transaction, and SHOW TABLES. -/
def insideTrace : List (Action × Event) :=
  [(.sql .txnBegin (.answered 5), ⟨none, [.begin ⟨0, 5, false, []⟩], 5⟩),
    (.sql .insert .rpcFailed, ⟨some 0, [], 5⟩), (.sql .showTables .rpcFailed, ⟨some 0, [], 5⟩)]

theorem insideTrace_settles : ∃ t,
    Lts.Run (Lts.Steps (step listenAddr)) (connect (fun _ => none) 0) insideTrace t ∧
      ∀ label ∈ insideTrace, SettlesLabel label := by
  have hinside : Sql.insert.executesPlan = true → (5 : TxnId) ≠ 0 ∧ some 0 ≠ (none : Option TxnRef) := by
    simp
  have hrun : ∃ t, Lts.Run (fun s label t => Avoids s label.1 ∧
      Lts.Steps (step listenAddr) s label t) (connect (fun _ => none) 0) insideTrace t :=
    ⟨_, .cons ⟨(absurd · Bool.false_ne_true), rfl⟩ (.cons ⟨hinside, rfl⟩ (.cons ⟨(absurd · Bool.false_ne_true), rfl⟩ (.nil _)))⟩
  obtain ⟨t, hrun⟩ := hrun
  have hsteps := hrun.mono fun _ _ _ hstep => hstep.2
  exact ⟨t, hsteps, (session_transactions_settle_iff hsteps).mpr hrun⟩

/-- A COMMIT after BEGIN commits nothing, and the session keeps its integer. -/
theorem commit_of_open_ends_nothing :
    ¬ ∀ self trace t, Lts.Run (Lts.Steps (step self)) (connect (fun _ => none) 0) trace t →
      ∀ label ∈ trace, SettlesLabel label := by
  intro hall
  have hrun : Lts.Run (Lts.Steps (step listenAddr)) (connect (fun _ => none) 0)
      [(.sql .txnBegin (.answered 5), ⟨none, [.begin ⟨0, 5, false, []⟩], 5⟩),
        (.sql .txnCommit .rpcFailed, ⟨some 0, [], 5⟩)] _ :=
    .cons rfl (.cons rfl (.nil _))
  have hcommit := hall _ _ _ hrun (.sql .txnCommit .rpcFailed, ⟨some 0, [], 5⟩) (by simp)
  obtain ⟨_, hreturned⟩ := Settles.commits hcommit rfl 0 rfl
  cases hreturned

end Steps

end SqlSession

end RucDDBS
