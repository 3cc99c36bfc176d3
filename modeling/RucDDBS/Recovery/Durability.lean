import RucDDBS.Recovery.LogBuffer

/-!
When is a decision of a transaction in the log file? `CommitSingle` and
`PrepareCommit` append their record and return; neither of them calls
`LogManager::Flush`. Each appended decision is followed through the rounds of the
flush thread: it is durable when it is reported exactly if a whole round, from the
swap to the store of `persistent_lsn_`, lies between its append and its return.
-/

namespace RucDDBS

/-- The two functions that report a decision. -/
inductive DecisionCall where
  | commitSingle | prepareCommit
  deriving DecidableEq, Repr

def DecisionCall.logType : DecisionCall → LogRecordType
  | .commitSingle => .commit
  | .prepareCommit => .prepared

/-- How far a round of the flush thread that began behind an append has come. -/
inductive FlushRound where
  | pending | swapped | written | stored
  deriving DecidableEq, Repr

/-- A decision record: its place among the appended records, its number, and the
round that followed. -/
structure Decision where
  txnId : TxnId
  logType : LogRecordType
  index : Nat
  lsn : Int
  round : FlushRound
  deriving DecidableEq, Repr

def Decision.follow (a : LogAction) (d : Decision) : Decision :=
  match a, d.round with
  | .swap, .pending => { d with round := .swapped }
  | .write, .swapped => { d with round := .written }
  | .store, .written => { d with round := .stored }
  | _, _ => d

theorem Decision.follow_kind (a : LogAction) (d : Decision) :
    (d.follow a).txnId = d.txnId ∧ (d.follow a).logType = d.logType := by
  unfold follow
  split <;> exact ⟨rfl, rfl⟩

inductive DecisionPc where
  | idle
  | appending (call : DecisionCall) (txnId : TxnId)
  | logged (call : DecisionCall) (txnId : TxnId) (lsn : Int) (decision : Nat)
  deriving DecidableEq, Repr

/-- What the two functions read of a transaction. `vote` is the decision that
brought it into the state `PREPARED`. -/
structure LoggedTxn where
  state : TransactionState
  prevLsn : Int
  vote : Option Nat

/-- The log manager, the transactions and the threads in one of the two functions;
`decisions` is a history. -/
structure LoggedTxns where
  log : BufferedLog
  txns : TxnId → LoggedTxn
  threads : AppenderId → DecisionPc
  decisions : List Decision

namespace LoggedTxns

inductive Action where
  /-- the flush thread, or an append of another function -/
  | log (a : LogAction)
  /-- the state is changed elsewhere -/
  | change (txnId : TxnId) (state : TransactionState)
  | call (a : AppenderId) (call : DecisionCall) (txnId : TxnId)
  /-- the wait of the append is over -/
  | resume (a : AppenderId)
  /-- the statements behind the append, and the return -/
  | finish (a : AppenderId)

inductive Event where
  | silent
  | refused (call : DecisionCall) (txnId : TxnId)
  | returned (call : DecisionCall) (txnId : TxnId) (decision : Decision)

def new (file logBuffer flushBuffer : Bytes) : LoggedTxns :=
  ⟨.new file logBuffer flushBuffer, fun _ => ⟨.default, invalidLsn, none⟩, fun _ => .idle, []⟩

def setTxn (s : LoggedTxns) (txnId : TxnId) (txn : LoggedTxn) : LoggedTxns :=
  { s with txns := Function.update s.txns txnId txn }

def setThread (s : LoggedTxns) (a : AppenderId) (pc : DecisionPc) : LoggedTxns :=
  { s with threads := Function.update s.threads a pc }

def decisionRecord (s : LoggedTxns) (call : DecisionCall) (txnId : TxnId) : LogRecord :=
  .ofTxn txnId (s.txns txnId).prevLsn call.logType

/-- The thread behind an append that led to `log`. -/
def logDecision (s : LoggedTxns) (a : AppenderId) (call : DecisionCall) (txnId : TxnId)
    (log : BufferedLog) : LoggedTxns :=
  { s.setThread a (.logged call txnId s.log.nextLsn s.decisions.length) with
    log := log
    decisions := s.decisions ++
      [⟨txnId, call.logType, s.log.appended.length, s.log.nextLsn, .pending⟩] }

/-- The thread that an action of the log manager belongs to. -/
def appender : LogAction → Option AppenderId
  | .append a _ => some a
  | .resume a => some a
  | _ => none

def step (s : LoggedTxns) : Action → Option (LoggedTxns × Event)
  | .log a =>
      if ∀ i ∈ appender a, s.threads i = .idle then do
        let log ← s.log.step a
        pure ({ s with log := log, decisions := s.decisions.map (Decision.follow a) }, .silent)
      else none
  | .change txnId state =>
      if state = .prepared ∨ state = .committed then none
      else some (s.setTxn txnId { s.txns txnId with state := state }, .silent)
  | .call a call txnId =>
      if s.threads a ≠ .idle then none
      else if (s.txns txnId).state = .aborted then some (s, .refused call txnId)
      else if call = .prepareCommit ∧ (s.txns txnId).state = .prepared then do
        let k ← (s.txns txnId).vote
        let d ← s.decisions[k]?
        pure (s, .returned call txnId d)
      else do
        let log ← s.log.step (.append a (s.decisionRecord call txnId))
        if s.log.full (s.decisionRecord call txnId) then
          pure ({ s.setThread a (.appending call txnId) with log := log }, .silent)
        else pure (s.logDecision a call txnId log, .silent)
  | .resume a =>
      match s.threads a with
      | .appending call txnId => do
          let log ← s.log.step (.resume a)
          pure (s.logDecision a call txnId log, .silent)
      | _ => none
  | .finish a =>
      match s.threads a with
      | .logged .commitSingle txnId lsn k => do
          let d ← s.decisions[k]?
          pure ((s.setThread a .idle).setTxn txnId
            { s.txns txnId with state := .committed, prevLsn := lsn }, .returned .commitSingle txnId d)
      | .logged .prepareCommit txnId lsn k => do
          let d ← s.decisions[k]?
          if lsn = invalidLsn then pure (s.setThread a .idle, .refused .prepareCommit txnId)
          else pure ((s.setThread a .idle).setTxn txnId ⟨.prepared, lsn, some k⟩,
            .returned .prepareCommit txnId d)
      | _ => none

/-- A step whose other appends are of well-built records. -/
def Step (s : LoggedTxns) (label : Action × Event) (t : LoggedTxns) : Prop :=
  s.step label.1 = some (t, label.2) ∧
    ∀ i r, label.1 = .log (.append i r) → r.Built ∧ r.encode.length < logBufferSize

/-- The decision and everything appended before it is in the file. -/
def Durable (file₀ : Bytes) (log : BufferedLog) (d : Decision) : Prop :=
  file₀ ++ encodeLog (log.appended.take (d.index + 1)) <+: log.file ∧ d.lsn ≤ log.persistentLsn

end LoggedTxns

namespace BufferedLog

/-- What the numbers that the flush thread keeps stand for. -/
structure Persisted (s : BufferedLog) : Prop where
  storedLe : s.storedCount ≤ s.writtenCount
  swapped : ∀ lsn, s.flusher = .swapped lsn → lsn = wrapLsn (s.swappedCount - 1)
  written : ∀ lsn, s.flusher = .written lsn → lsn = wrapLsn (s.writtenCount - 1)
  persistent : s.persistentLsn = wrapLsn (s.storedCount - 1)

/-- Only the thread itself enters or leaves its wait. -/
theorem Effect.waiting_of_ne {s t : BufferedLog} {a : LogAction} (h : Effect s a t) {i : AppenderId}
    (hi : i ∉ LoggedTxns.appender a) : t.waiting i = s.waiting i := by
  cases h with
  | park j r hfull => exact Function.update_of_ne (by rintro rfl; exact hi rfl) _ _
  | append j r hroom => rw [copyRecord_waiting]
  | resume j r hwaits hroom => exact Function.update_of_ne (by rintro rfl; exact hi rfl) _ _
  | flush => rfl
  | swap => rfl
  | write => rfl
  | store => rfl
  | clear => rfl

/-- The place of a decision in the log, and what the round that followed its append
says about it. -/
structure Follows (s : BufferedLog) (d : Decision) : Prop where
  record : ∃ r, s.appended[d.index]? = some r ∧ r.lsn = d.lsn ∧ r.txnId = d.txnId ∧
    r.logType = d.logType
  pending : d.round = .pending → s.swappedCount ≤ d.index
  swapped : d.round = .swapped → s.writtenCount ≤ d.index ∧ d.index < s.swappedCount ∧
    ∃ lsn, s.flusher = .swapped lsn
  written : d.round = .written → s.storedCount ≤ d.index ∧ d.index < s.writtenCount ∧
    ∃ lsn, s.flusher = .written lsn
  stored : d.round = .stored → d.index < s.storedCount

section Rounds

variable {file₀ : Bytes} {s t : BufferedLog} {a : LogAction} {d : Decision}

theorem persisted_new (file logBuffer flushBuffer : Bytes) :
    Persisted (new file logBuffer flushBuffer) where
  storedLe := Nat.le_refl _
  swapped := by simp [new]
  written := by simp [new]
  persistent := (by decide : invalidLsn = wrapLsn ((0 : Nat) - 1))

/-- An append changes neither the counts nor the flush thread. -/
theorem copyRecord_frame {r : LogRecord} (hlen : s.logBuffer.length = logBufferSize) (hr : r.Built)
    (hroom : ¬ s.full r) :
    (s.copyRecord r).flusher = s.flusher ∧ (s.copyRecord r).swappedCount = s.swappedCount ∧
      (s.copyRecord r).writtenCount = s.writtenCount ∧
      (s.copyRecord r).storedCount = s.storedCount ∧
      (s.copyRecord r).persistentLsn = s.persistentLsn ∧
      (s.copyRecord r).appended = s.appended ++ [{ r with lsn := s.nextLsn }] := by
  obtain ⟨buffer, heq, -⟩ := copyRecord_eq hlen hr hroom
  rw [heq]
  exact ⟨rfl, rfl, rfl, rfl, rfl, rfl⟩

theorem Persisted.of_eq (h : Persisted s) (hflusher : t.flusher = s.flusher)
    (hswapped : t.swappedCount = s.swappedCount) (hwritten : t.writtenCount = s.writtenCount)
    (hstored : t.storedCount = s.storedCount) (hpersistent : t.persistentLsn = s.persistentLsn) :
    Persisted t := by
  constructor
  · rw [hstored, hwritten]
    exact h.storedLe
  · rw [hflusher, hswapped]
    exact h.swapped
  · rw [hflusher, hwritten]
    exact h.written
  · rw [hpersistent, hstored, h.persistent]

theorem Follows.of_eq (h : Follows s d) (happended : s.appended <+: t.appended)
    (hflusher : t.flusher = s.flusher) (hswapped : t.swappedCount = s.swappedCount)
    (hwritten : t.writtenCount = s.writtenCount) (hstored : t.storedCount = s.storedCount) :
    Follows t d := by
  constructor
  · obtain ⟨r, hr, hrest⟩ := h.record
    refine ⟨r, ?_, hrest⟩
    obtain ⟨later, hlater⟩ := happended
    have hlt := (List.getElem?_eq_some_iff.mp hr).1
    rw [← hlater, List.getElem?_append_left hlt, hr]
  · rw [hswapped]
    exact h.pending
  · rw [hwritten, hswapped, hflusher]
    exact h.swapped
  · rw [hstored, hwritten, hflusher]
    exact h.written
  · rw [hstored]
    exact h.stored

theorem Persisted.copyRecord {r : LogRecord} (h : Persisted s)
    (hlen : s.logBuffer.length = logBufferSize) (hr : r.Built) (hroom : ¬ s.full r) :
    Persisted (s.copyRecord r) := by
  obtain ⟨hflusher, hswapped, hwritten, hstored, hpersistent, -⟩ := copyRecord_frame hlen hr hroom
  exact h.of_eq hflusher hswapped hwritten hstored hpersistent

theorem Follows.copyRecord {r : LogRecord} (h : Follows s d)
    (hlen : s.logBuffer.length = logBufferSize) (hr : r.Built) (hroom : ¬ s.full r) :
    Follows (s.copyRecord r) d := by
  obtain ⟨hflusher, hswapped, hwritten, hstored, -, happended⟩ := copyRecord_frame hlen hr hroom
  exact h.of_eq ⟨_, happended.symm⟩ hflusher hswapped hwritten hstored

theorem BuiltStep.persisted (hstep : BuiltStep s a t) (hs : Streams file₀ s) (hn : Numbered s)
    (h : Persisted s) : Persisted t := by
  cases hstep.1.effect with
  | park i r hfull => exact h.of_eq rfl rfl rfl rfl rfl
  | append i r hroom => exact h.copyRecord hs.logLength (hstep.2 i r rfl).1 hroom
  | resume i r hwaits hroom =>
      have hcopied := h.copyRecord hs.logLength (hn.waiting i r hwaits) hroom
      exact hcopied.of_eq rfl rfl rfl rfl rfl
  | flush => exact h.of_eq rfl rfl rfl rfl rfl
  | swap hpc hsome =>
      refine ⟨h.storedLe, ?_, by simp, h.persistent⟩
      intro lsn hlsn
      cases hlsn
      rw [hn.next, wrapLsn_sub_one]
      rfl
  | write lsn hpc =>
      refine ⟨Nat.le_trans h.storedLe hs.writtenLe, by simp, ?_, h.persistent⟩
      intro lsn' hlsn
      cases hlsn
      exact h.swapped lsn hpc
  | store lsn hpc => exact ⟨Nat.le_refl _, by simp, by simp, h.written lsn hpc⟩
  | clear hpc => exact ⟨h.storedLe, by simp, by simp, h.persistent⟩

theorem SizedStep.persisted (hstep : SizedStep s a t) (hs : Streams file₀ s) (hn : Numbered s)
    (h : Persisted s) : Persisted t := by
  rcases hstep.built_or_parks with hbuilt | ⟨i, r, -, -, rfl⟩
  · exact hbuilt.persisted hs hn h
  · exact h.of_eq rfl rfl rfl rfl rfl

/-- As long as an `int32_t` counts the records, `persistent_lsn_` is the number of the last
stored one. -/
theorem Persisted.persistentLsn_eq (h : Persisted s) (hshort : s.storedCount ≤ 2 ^ 31) :
    s.persistentLsn = s.storedCount - 1 := by
  rw [h.persistent, wrapLsn, Int.bmod_def]
  omega

/-- A decision is `swapped` or `written` only while the flush thread is in that
round. -/
theorem Follows.not_swapped (h : Follows s d) (hpc : ∀ lsn, s.flusher ≠ .swapped lsn) :
    d.round ≠ .swapped := by
  intro hround
  obtain ⟨-, -, lsn, hlsn⟩ := h.swapped hround
  exact hpc lsn hlsn

theorem Follows.not_written (h : Follows s d) (hpc : ∀ lsn, s.flusher ≠ .written lsn) :
    d.round ≠ .written := by
  intro hround
  obtain ⟨-, -, lsn, hlsn⟩ := h.written hround
  exact hpc lsn hlsn

/-- A decision that no step of a round concerns: its round is still to come or
over. -/
theorem Follows.outside (h : Follows s d) (happended : t.appended = s.appended)
    (hround : d.round = .pending ∧ t.swappedCount ≤ d.index ∨
      d.round = .stored ∧ d.index < t.storedCount) : Follows t d := by
  rcases hround with ⟨hround, hle⟩ | ⟨hround, hlt⟩
  · exact ⟨happended ▸ h.record, fun _ => hle, by simp [hround], by simp [hround],
      by simp [hround]⟩
  · exact ⟨happended ▸ h.record, by simp [hround], by simp [hround], by simp [hround],
      fun _ => hlt⟩

/-- One step of the log manager, followed by each decision. -/
theorem BuiltStep.follows (hstep : BuiltStep s a t) (hs : Streams file₀ s) (hn : Numbered s)
    (hp : Persisted s) (h : Follows s d) : Follows t (d.follow a) := by
  cases hstep.1.effect with
  | park i r hfull => exact h.of_eq (List.prefix_refl _) rfl rfl rfl rfl
  | append i r hroom => exact h.copyRecord hs.logLength (hstep.2 i r rfl).1 hroom
  | resume i r hwaits hroom =>
      have hcopied := h.copyRecord hs.logLength (hn.waiting i r hwaits) hroom
      exact hcopied.of_eq (List.prefix_refl _) rfl rfl rfl rfl
  | flush => exact h.of_eq (List.prefix_refl _) rfl rfl rfl rfl
  | swap hpc hsome =>
      have hlt : d.index < s.appended.length := by
        obtain ⟨r, hr, -⟩ := h.record
        exact (List.getElem?_eq_some_iff.mp hr).1
      cases hround : d.round with
      | pending =>
          have hle := h.pending hround
          simp only [Decision.follow, hround]
          exact ⟨h.record, by simp, fun _ => ⟨Nat.le_trans hs.writtenLe hle, hlt, _, rfl⟩, by simp,
            by simp⟩
      | swapped => exact absurd hround (h.not_swapped (by simp [hpc]))
      | written => exact absurd hround (h.not_written (by simp [hpc]))
      | stored =>
          simp only [Decision.follow, hround]
          exact h.outside rfl (.inr ⟨hround, h.stored hround⟩)
  | write lsn hpc =>
      cases hround : d.round with
      | pending =>
          simp only [Decision.follow, hround]
          exact h.outside rfl (.inl ⟨hround, h.pending hround⟩)
      | swapped =>
          obtain ⟨hle, hlt, -⟩ := h.swapped hround
          simp only [Decision.follow, hround]
          exact ⟨h.record, by simp, by simp, fun _ => ⟨Nat.le_trans hp.storedLe hle, hlt, _, rfl⟩,
            by simp⟩
      | written => exact absurd hround (h.not_written (by simp [hpc]))
      | stored =>
          simp only [Decision.follow, hround]
          exact h.outside rfl (.inr ⟨hround, h.stored hround⟩)
  | store lsn hpc =>
      cases hround : d.round with
      | pending =>
          simp only [Decision.follow, hround]
          exact h.outside rfl (.inl ⟨hround, h.pending hround⟩)
      | swapped => exact absurd hround (h.not_swapped (by simp [hpc]))
      | written =>
          obtain ⟨-, hlt, -⟩ := h.written hround
          simp only [Decision.follow, hround]
          exact ⟨h.record, by simp, by simp, by simp, fun _ => hlt⟩
      | stored =>
          simp only [Decision.follow, hround]
          exact h.outside rfl
            (.inr ⟨hround, Nat.lt_of_lt_of_le (h.stored hround) hp.storedLe⟩)
  | clear hpc =>
      simp only [Decision.follow]
      refine h.outside rfl ?_
      cases hround : d.round with
      | pending => exact .inl ⟨rfl, h.pending hround⟩
      | swapped => exact absurd hround (h.not_swapped (by simp [hpc]))
      | written => exact absurd hround (h.not_written (by simp [hpc]))
      | stored => exact .inr ⟨rfl, h.stored hround⟩

end Rounds

end BufferedLog

namespace LoggedTxns

variable {file₀ : Bytes} {s t : LoggedTxns}

/-- The decision at `k` is of this kind and transaction. -/
def DecidedAt (s : LoggedTxns) (k : Nat) (call : DecisionCall) (txnId : TxnId) : Prop :=
  ∃ d, s.decisions[k]? = some d ∧ d.txnId = txnId ∧ d.logType = call.logType

structure Sound (file₀ : Bytes) (s : LoggedTxns) : Prop where
  streams : s.log.Streams file₀
  numbered : s.log.Numbered
  persisted : s.log.Persisted
  decisions : ∀ d ∈ s.decisions, s.log.Follows d
  appending : ∀ a call txnId, s.threads a = .appending call txnId →
    ∃ prevLsn, s.log.waiting a = some (.ofTxn txnId prevLsn call.logType)
  logged : ∀ a call txnId lsn k, s.threads a = .logged call txnId lsn k → s.DecidedAt k call txnId
  votes : ∀ txnId k, (s.txns txnId).state = .prepared → (s.txns txnId).vote = some k →
    s.DecidedAt k .prepareCommit txnId

/-- A new decision, at the place that its append took. -/
theorem Sound.logDecision (h : Sound file₀ s) {a : AppenderId} {call : DecisionCall}
    {txnId : TxnId} {log : BufferedLog} {r : LogRecord} {act : LogAction}
    (hbuilt : s.log.BuiltStep act log) (hfollow : ∀ d, Decision.follow act d = d)
    (happended : log.appended = s.log.appended ++ [{ r with lsn := s.log.nextLsn }])
    (hswapped : log.swappedCount = s.log.swappedCount)
    (hwaiting : ∀ i, i ≠ a → log.waiting i = s.log.waiting i)
    (hr : r.txnId = txnId ∧ r.logType = call.logType) : Sound file₀ (s.logDecision a call txnId log) := by
  obtain ⟨hstreams, hnumbered⟩ := hbuilt.keeps h.streams h.numbered
  have hkeep (k : Nat) (c : DecisionCall) (x : TxnId) (hk : s.DecidedAt k c x) :
      (s.logDecision a call txnId log).DecidedAt k c x := by
    obtain ⟨d, hd, hrest⟩ := hk
    have hlt := (List.getElem?_eq_some_iff.mp hd).1
    refine ⟨d, ?_, hrest⟩
    simp only [LoggedTxns.logDecision]
    rw [List.getElem?_append_left hlt, hd]
  refine ⟨hstreams, hnumbered, hbuilt.persisted h.streams h.numbered h.persisted, ?_, ?_, ?_, ?_⟩
  · intro d hd
    simp only [LoggedTxns.logDecision, List.mem_append, List.mem_singleton] at hd
    obtain hd | rfl := hd
    · have hstep := hbuilt.follows h.streams h.numbered h.persisted (h.decisions d hd)
      rw [hfollow] at hstep
      exact hstep
    · refine ⟨⟨{ r with lsn := s.log.nextLsn }, ?_, rfl, hr.1, hr.2⟩, ?_, by simp, by simp, by simp⟩
      · show log.appended[s.log.appended.length]? = _
        rw [happended]
        simp
      · intro _
        show log.swappedCount ≤ s.log.appended.length
        rw [hswapped]
        exact h.streams.swappedLe
  · intro i c x hi
    simp only [LoggedTxns.logDecision, setThread, Function.update_apply] at hi
    split at hi
    next => cases hi
    next hne =>
      obtain ⟨prevLsn, hwaits⟩ := h.appending i c x hi
      exact ⟨prevLsn, (hwaiting i hne).trans hwaits⟩
  · intro i c x lsn k hi
    simp only [LoggedTxns.logDecision, setThread, Function.update_apply] at hi
    split at hi
    next =>
      cases hi
      exact ⟨⟨txnId, call.logType, s.log.appended.length, s.log.nextLsn, .pending⟩, by
        simp [LoggedTxns.logDecision], rfl, rfl⟩
    next => exact hkeep k c x (h.logged i c x lsn k hi)
  · intro x k hstate hvote
    exact hkeep k _ x (h.votes x k hstate hvote)

theorem Sound.log (h : Sound file₀ s) {act : LogAction} {log : BufferedLog}
    (hbuilt : s.log.BuiltStep act log) (hidle : ∀ i ∈ appender act, s.threads i = .idle) :
    Sound file₀ { s with log := log, decisions := s.decisions.map (Decision.follow act) } := by
  obtain ⟨hstreams, hnumbered⟩ := hbuilt.keeps h.streams h.numbered
  have hkeep (k : Nat) (c : DecisionCall) (x : TxnId) (hk : s.DecidedAt k c x) :
      DecidedAt { s with log := log, decisions := s.decisions.map (Decision.follow act) } k c x := by
    obtain ⟨d, hd, htxn, htype⟩ := hk
    obtain ⟨htxn', htype'⟩ := d.follow_kind act
    exact ⟨d.follow act, by simp [hd], htxn'.trans htxn, htype'.trans htype⟩
  refine ⟨hstreams, hnumbered, hbuilt.persisted h.streams h.numbered h.persisted, ?_, ?_, ?_, ?_⟩
  · intro d' hd'
    obtain ⟨d, hd, rfl⟩ := List.mem_map.mp hd'
    exact hbuilt.follows h.streams h.numbered h.persisted (h.decisions d hd)
  · intro i c x hi
    obtain ⟨prevLsn, hwaits⟩ := h.appending i c x hi
    refine ⟨prevLsn, ?_⟩
    rw [hbuilt.1.effect.waiting_of_ne, hwaits]
    intro happender
    exact absurd ((hidle i happender).symm.trans hi) (by simp)
  · intro i c x lsn k hi
    exact hkeep k c x (h.logged i c x lsn k hi)
  · intro x k hstate hvote
    exact hkeep k _ x (h.votes x k hstate hvote)

theorem Sound.setThread (h : Sound file₀ s) (a : AppenderId) {pc : DecisionPc}
    (happending : ∀ call txnId, pc = .appending call txnId →
      ∃ prevLsn, s.log.waiting a = some (.ofTxn txnId prevLsn call.logType))
    (hlogged : ∀ call txnId lsn k, pc = .logged call txnId lsn k → s.DecidedAt k call txnId) :
    Sound file₀ (s.setThread a pc) := by
  refine ⟨h.streams, h.numbered, h.persisted, h.decisions, ?_, ?_, h.votes⟩
  · intro i c x hi
    simp only [LoggedTxns.setThread, Function.update_apply] at hi
    split at hi
    next hia =>
      subst hia
      exact happending c x hi
    next => exact h.appending i c x hi
  · intro i c x lsn k hi
    simp only [LoggedTxns.setThread, Function.update_apply] at hi
    split at hi
    next => exact hlogged c x lsn k hi
    next => exact h.logged i c x lsn k hi

theorem Sound.setTxn (h : Sound file₀ s) (txnId : TxnId) {txn : LoggedTxn}
    (hvote : ∀ k, txn.state = .prepared → txn.vote = some k → s.DecidedAt k .prepareCommit txnId) :
    Sound file₀ (s.setTxn txnId txn) := by
  refine ⟨h.streams, h.numbered, h.persisted, h.decisions, h.appending, h.logged, ?_⟩
  intro x k hstate hk
  simp only [LoggedTxns.setTxn, Function.update_apply] at hstate hk
  by_cases hx : x = txnId
  · subst hx
    rw [if_pos rfl] at hstate hk
    exact hvote k hstate hk
  · rw [if_neg hx] at hstate hk
    exact h.votes x k hstate hk

theorem decisionCall_built (call : DecisionCall) (txnId : TxnId) (prevLsn : Int) :
    (LogRecord.ofTxn txnId prevLsn call.logType).Built := by
  apply LogRecord.Built.ofTxn
  cases call <;> simp [DecisionCall.logType]

/-- The two ways in which a call of one of the two functions comes to its record. -/
theorem Sound.append (h : Sound file₀ s) {a : AppenderId} {call : DecisionCall} {txnId : TxnId}
    {log : BufferedLog} (hstep : s.log.step (.append a (s.decisionRecord call txnId)) = some log)
    (hidle : s.threads a = .idle) :
    Sound file₀ (if s.log.full (s.decisionRecord call txnId) then
      { s.setThread a (.appending call txnId) with log := log }
      else s.logDecision a call txnId log) := by
  have hr := decisionCall_built call txnId (s.txns txnId).prevLsn
  have hbuilt : s.log.BuiltStep (.append a (s.decisionRecord call txnId)) log := by
    refine ⟨hstep, ?_⟩
    intro i r heq
    cases heq
    refine ⟨hr, ?_⟩
    have hlength := hr.encode_length invalidLsn
    exact hlength ▸ (by decide : LogRecord.headerSize < logBufferSize)
  split
  next hfull =>
    have hlog := h.log hbuilt (by
      intro i hi
      cases hi
      exact hidle)
    rw [show s.decisions.map (Decision.follow (.append a (s.decisionRecord call txnId))) =
      s.decisions from List.map_id' _] at hlog
    refine hlog.setThread a ?_ (by simp)
    intro c x heq
    cases heq
    refine ⟨(s.txns txnId).prevLsn, ?_⟩
    cases hbuilt.1.effect with
    | park => exact Function.update_self ..
    | append i r hroom => exact absurd hfull hroom
  next hroom =>
    obtain ⟨-, hswapped, -, -, -, happended⟩ :=
      BufferedLog.copyRecord_frame h.streams.logLength hr hroom
    have hwaiting (i : AppenderId) (hi : i ≠ a) : log.waiting i = s.log.waiting i := by
      apply hbuilt.1.effect.waiting_of_ne
      rintro ⟨⟩
      exact hi rfl
    have hcopy : log = s.log.copyRecord (s.decisionRecord call txnId) := by
      cases hbuilt.1.effect with
      | park i r hfull => exact absurd hfull hroom
      | append => rfl
    refine h.logDecision hbuilt (fun d => rfl) ?_ ?_ hwaiting
      (r := s.decisionRecord call txnId) ⟨rfl, rfl⟩
    · rw [hcopy]
      exact happended
    · rw [hcopy]
      exact hswapped

theorem Sound.resume (h : Sound file₀ s) {a : AppenderId} {call : DecisionCall} {txnId : TxnId}
    {log : BufferedLog} (hstep : s.log.step (.resume a) = some log)
    (hpc : s.threads a = .appending call txnId) : Sound file₀ (s.logDecision a call txnId log) := by
  have hbuilt : s.log.BuiltStep (.resume a) log := ⟨hstep, by simp⟩
  obtain ⟨prevLsn, hwaits⟩ := h.appending a call txnId hpc
  have hwaiting (i : AppenderId) (hi : i ≠ a) : log.waiting i = s.log.waiting i := by
    apply hbuilt.1.effect.waiting_of_ne
    rintro ⟨⟩
    exact hi rfl
  cases hbuilt.1.effect with
  | resume i r hwaits' hroom =>
      obtain rfl := Option.some.inj (hwaits.symm.trans hwaits')
      obtain ⟨-, hswapped, -, -, -, happended⟩ := BufferedLog.copyRecord_frame h.streams.logLength
        (decisionCall_built call txnId prevLsn) hroom
      exact h.logDecision hbuilt (fun d => rfl) happended hswapped hwaiting ⟨rfl, rfl⟩

theorem Sound.call (h : Sound file₀ s) {a : AppenderId} {call : DecisionCall} {txnId : TxnId}
    {event : Event} (hstep : step s (.call a call txnId) = some (t, event)) : Sound file₀ t := by
  simp only [step, Option.ite_none_left_eq_some, ne_eq, not_not] at hstep
  obtain ⟨hidle, hstep⟩ := hstep
  split at hstep
  next =>
    cases hstep
    exact h
  next =>
    split at hstep
    next =>
      simp only [Option.bind_eq_bind, Option.bind_eq_some_iff, Option.pure_def,
        Option.some.injEq, Prod.mk.injEq] at hstep
      obtain ⟨k, -, d, -, rfl, -⟩ := hstep
      exact h
    next =>
      simp only [Option.bind_eq_bind, Option.bind_eq_some_iff] at hstep
      obtain ⟨log, hlog, hstep⟩ := hstep
      have hsound := h.append hlog hidle
      split at hstep
      next hfull =>
        rw [if_pos hfull] at hsound
        cases hstep
        exact hsound
      next hroom =>
        rw [if_neg hroom] at hsound
        cases hstep
        exact hsound

/-- Only a vote is remembered, and its record is in the log. -/
theorem Sound.finish (h : Sound file₀ s) {a : AppenderId} {event : Event}
    (hstep : step s (.finish a) = some (t, event)) : Sound file₀ t := by
  simp only [step] at hstep
  split at hstep
  next txnId lsn k hpc =>
    simp only [Option.bind_eq_bind, Option.bind_eq_some_iff, Option.pure_def,
      Option.some.injEq, Prod.mk.injEq] at hstep
    obtain ⟨d, -, rfl, -⟩ := hstep
    exact (h.setThread a (by simp) (by simp)).setTxn txnId (by simp)
  next txnId lsn k hpc =>
    simp only [Option.bind_eq_bind, Option.bind_eq_some_iff] at hstep
    obtain ⟨d, -, hstep⟩ := hstep
    split at hstep
    next =>
      cases hstep
      exact h.setThread a (by simp) (by simp)
    next =>
      cases hstep
      refine (h.setThread a (by simp) (by simp)).setTxn txnId ?_
      intro k' _ hvote
      cases hvote
      exact h.logged a .prepareCommit txnId lsn k hpc
  next => cases hstep

theorem Step.sound {label : Action × Event} (hstep : Step s label t) (h : Sound file₀ s) :
    Sound file₀ t := by
  obtain ⟨action, event⟩ := label
  obtain ⟨hstep, hbuilt⟩ := hstep
  cases action with
  | log act =>
      simp only [step, Option.ite_none_right_eq_some, Option.bind_eq_bind, Option.pure_def,
        Option.bind_eq_some_iff, Option.some.injEq, Prod.mk.injEq] at hstep
      obtain ⟨hidle, log, hlog, rfl, -⟩ := hstep
      refine h.log ⟨hlog, ?_⟩ hidle
      rintro i r rfl
      exact hbuilt i r rfl
  | change txnId state =>
      simp only [step, Option.ite_none_left_eq_some, Option.some.injEq, Prod.mk.injEq, not_or] at hstep
      obtain ⟨⟨hprepared, -⟩, rfl, -⟩ := hstep
      apply h.setTxn txnId
      intro k hstate
      exact absurd hstate hprepared
  | call a call txnId => exact h.call hstep
  | resume a =>
      simp only [step] at hstep
      split at hstep
      next call txnId hpc =>
        simp only [Option.bind_eq_bind, Option.bind_eq_some_iff, Option.pure_def,
          Option.some.injEq, Prod.mk.injEq] at hstep
        obtain ⟨log, hlog, rfl, -⟩ := hstep
        exact h.resume hlog hpc
      next => cases hstep
  | finish a => exact h.finish hstep

theorem sound_new {file logBuffer flushBuffer : Bytes} (hlog : logBuffer.length = logBufferSize)
    (hflush : flushBuffer.length = logBufferSize) :
    Sound file (new file logBuffer flushBuffer) where
  streams := BufferedLog.streams_new file logBuffer flushBuffer hlog hflush
  numbered := BufferedLog.numbered_new file logBuffer flushBuffer
  persisted := BufferedLog.persisted_new file logBuffer flushBuffer
  decisions := by simp [new]
  appending := by simp [new]
  logged := by simp [new]
  votes := by simp [new]

/-- The file reaches as far as the flush thread has stored, and `persistent_lsn_`
says so. -/
theorem Sound.durable_iff (h : Sound file₀ s) {d : Decision} (hd : d ∈ s.decisions)
    (hshort : s.log.appended.length ≤ 2 ^ 31) : Durable file₀ s.log d ↔ d.round = .stored := by
  have hfollows := h.decisions d hd
  have hstored := Nat.le_trans (Nat.le_trans h.persisted.storedLe h.streams.writtenLe)
    h.streams.swappedLe
  obtain ⟨r, hr, hlsn, -⟩ := hfollows.record
  have hlt := (List.getElem?_eq_some_iff.mp hr).1
  have hindex : d.lsn = d.index := by
    rw [← hlsn, (h.numbered.records d.index r hr).1, BufferedLog.wrapLsn_of_lt (by omega)]
  have hpersistent := h.persisted.persistentLsn_eq (by omega)
  constructor
  · rintro ⟨-, hle⟩
    cases hround : d.round with
    | pending =>
        have hge := hfollows.pending hround
        have hwritten := h.streams.writtenLe
        have hle' := h.persisted.storedLe
        omega
    | swapped =>
        have hge := (hfollows.swapped hround).1
        have hle' := h.persisted.storedLe
        omega
    | written =>
        have hge := (hfollows.written hround).1
        omega
    | stored => rfl
  · intro hround
    have hcount := hfollows.stored hround
    refine ⟨?_, by omega⟩
    exact h.streams.prefix_of_le (Nat.le_trans hcount h.persisted.storedLe)

/-- A return of true reports a decision of its own kind and transaction. -/
theorem Step.returned {a : Action} {call : DecisionCall} {txnId : TxnId} {d : Decision}
    (hstep : Step s (a, .returned call txnId d) t) (h : Sound file₀ s) :
    t.log = s.log ∧ d ∈ s.decisions ∧ d.txnId = txnId ∧ d.logType = call.logType := by
  obtain ⟨hstep, -⟩ := hstep
  have hdecided {k : Nat} (hk : s.decisions[k]? = some d) (hat : s.DecidedAt k call txnId) :
      d ∈ s.decisions ∧ d.txnId = txnId ∧ d.logType = call.logType := by
    obtain ⟨d', hd', hkind⟩ := hat
    obtain rfl := Option.some.inj (hk.symm.trans hd')
    exact ⟨List.mem_of_getElem? hk, hkind⟩
  cases a with
  | log act => simp [step, Option.bind_eq_some_iff] at hstep
  | change x state => simp [step] at hstep
  | resume i =>
      simp only [step] at hstep
      split at hstep
      next => simp [Option.bind_eq_some_iff] at hstep
      next => cases hstep
  | call i c x =>
      simp only [step, Option.ite_none_left_eq_some, ne_eq, not_not] at hstep
      obtain ⟨-, hstep⟩ := hstep
      split at hstep
      next => cases hstep
      next =>
        split at hstep
        next hprepared =>
          simp only [Option.bind_eq_bind, Option.bind_eq_some_iff, Option.pure_def,
            Option.some.injEq, Prod.mk.injEq, Event.returned.injEq] at hstep
          obtain ⟨k, hvote, d', hd', rfl, rfl, rfl, rfl⟩ := hstep
          obtain ⟨rfl, hstate⟩ := hprepared
          exact ⟨rfl, hdecided hd' (h.votes x k hstate hvote)⟩
        next =>
          simp only [Option.bind_eq_bind, Option.bind_eq_some_iff] at hstep
          obtain ⟨log, -, hstep⟩ := hstep
          split at hstep <;> cases hstep
  | finish i =>
      simp only [step] at hstep
      split at hstep
      next x lsn k hpc =>
        simp only [Option.bind_eq_bind, Option.bind_eq_some_iff, Option.pure_def,
          Option.some.injEq, Prod.mk.injEq, Event.returned.injEq] at hstep
        obtain ⟨d', hd', rfl, rfl, rfl, rfl⟩ := hstep
        exact ⟨rfl, hdecided hd' (h.logged i _ _ lsn k hpc)⟩
      next x lsn k hpc =>
        simp only [Option.bind_eq_bind, Option.bind_eq_some_iff] at hstep
        obtain ⟨d', hd', hstep⟩ := hstep
        split at hstep
        next => cases hstep
        next =>
          cases hstep
          exact ⟨rfl, hdecided hd' (h.logged i _ _ lsn k hpc)⟩
      next => cases hstep

section Returns

variable {file logBuffer flushBuffer : Bytes} {trace : List (Action × Event)}

theorem run_sound (hlog : logBuffer.length = logBufferSize)
    (hflush : flushBuffer.length = logBufferSize)
    (hrun : Lts.Run Step (new file logBuffer flushBuffer) trace s) : Sound file s :=
  hrun.preserves (Sound file) (fun _ _ _ hstep h => hstep.sound h) (sound_new hlog hflush)

/-- At every return of true of `CommitSingle` or `PrepareCommit`, in every
interleaving with the flush thread: the decision is durable if and only if the
flush thread has made a whole round since its append. -/
theorem decision_durable_iff (hlog : logBuffer.length = logBufferSize)
    (hflush : flushBuffer.length = logBufferSize) {a : Action} {call : DecisionCall}
    {txnId : TxnId} {d : Decision} (hrun : Lts.Run Step (new file logBuffer flushBuffer) trace s)
    (hstep : Step s (a, .returned call txnId d) t) (hshort : t.log.appended.length ≤ 2 ^ 31) :
    d.txnId = txnId ∧ d.logType = call.logType ∧
      (Durable file t.log d ↔ d.round = .stored) := by
  have hs := run_sound hlog hflush hrun
  obtain ⟨hlogs, hd, htxn, htype⟩ := hstep.returned hs
  rw [hlogs] at hshort ⊢
  exact ⟨htxn, htype, hs.durable_iff hd hshort⟩

end Returns

/-- A commit of the first transaction, up to the state behind its append. -/
theorem firstCommit_logged {file logBuffer flushBuffer : Bytes}
    (hlog : logBuffer.length = logBufferSize) :
    ∃ s : LoggedTxns, Step (new file logBuffer flushBuffer) (.call 0 .commitSingle 1, .silent) s ∧
      s.threads 0 = .logged .commitSingle 1 0 0 ∧ s.decisions = [⟨1, .commit, 0, 0, .pending⟩] ∧
      s.log.flusher = .waiting ∧ 0 < s.log.logBufferWriteOffset ∧ s.log.appended.length = 1 := by
  have hr := decisionCall_built .commitSingle 1 invalidLsn
  have hroom : ¬ (BufferedLog.new file logBuffer flushBuffer).full
      (.ofTxn 1 invalidLsn DecisionCall.commitSingle.logType) := by
    show ¬ 0 + LogRecord.headerSize ≥ logBufferSize
    decide
  obtain ⟨buffer, heq, -⟩ :=
    BufferedLog.copyRecord_eq (s := .new file logBuffer flushBuffer) hlog hr hroom
  refine ⟨(new file logBuffer flushBuffer).logDecision 0 .commitSingle 1
    ((BufferedLog.new file logBuffer flushBuffer).copyRecord
      (.ofTxn 1 invalidLsn DecisionCall.commitSingle.logType)), ⟨rfl, by simp⟩, rfl, rfl, ?_⟩
  simp only [logDecision, heq]
  exact ⟨rfl, (by decide : 0 < 0 + LogRecord.headerSize), rfl⟩

theorem firstCommit_finish {d : Decision} (hthread : s.threads 0 = .logged .commitSingle 1 0 0)
    (hdecisions : s.decisions = [d]) :
    Step s (.finish 0, .returned .commitSingle 1 d)
      ((s.setThread 0 .idle).setTxn 1 { s.txns 1 with state := .committed, prevLsn := 0 }) := by
  refine ⟨?_, by simp⟩
  simp [step, hthread, hdecisions]

/-- A commit that returns behind a round of the flush thread. -/
theorem commit_after_round_durable :
    ∃ (t : LoggedTxns) (d : Decision), d.round = .stored ∧ d.txnId = 1 ∧ d.logType = .commit ∧
      (Durable [] t.log d ↔ d.round = .stored) := by
  obtain ⟨buffer, hbuffer⟩ := BufferedLog.exists_buffer
  obtain ⟨s, hcall, hthread, hdecisions, hflusher, hoffset, hlength⟩ :=
    @firstCommit_logged [] buffer buffer hbuffer
  have hswap : Step s (.log .swap, .silent) { s with
      log := { s.log.swapBuffer with
        flusher := .swapped (wrapLsn (s.log.nextLsn - 1))
        flushLsn := wrapLsn (s.log.nextLsn - 1) }
      decisions := [⟨1, .commit, 0, 0, .swapped⟩] } := by
    refine ⟨?_, by simp⟩
    simp [step, appender, BufferedLog.step, hflusher, hoffset, hdecisions, Decision.follow]
  obtain ⟨u, hround, hthread', hdecisions', hlength'⟩ : ∃ u : LoggedTxns,
      Lts.Run Step s [(.log .swap, .silent), (.log .write, .silent), (.log .store, .silent)] u ∧
        u.threads 0 = .logged .commitSingle 1 0 0 ∧
        u.decisions = [⟨1, .commit, 0, 0, .stored⟩] ∧ u.log.appended.length = 1 :=
    ⟨_, .cons hswap (.cons ⟨rfl, by simp⟩ (.single ⟨rfl, by simp⟩)), hthread, rfl, hlength⟩
  have hshort : u.log.appended.length ≤ 2 ^ 31 := by
    rw [hlength']
    decide
  exact ⟨_, _, rfl, decision_durable_iff hbuffer hbuffer (.cons hcall hround)
    (firstCommit_finish hthread' hdecisions') hshort⟩

/-- `CommitSingle` reports a commit that the flush thread has not seen. -/
theorem commit_returned_before_durable :
    ¬ ∀ (file logBuffer flushBuffer : Bytes) (trace : List (Action × Event)) (s t : LoggedTxns)
      (a : Action) (call : DecisionCall) (txnId : TxnId) (d : Decision),
      logBuffer.length = logBufferSize → flushBuffer.length = logBufferSize →
      Lts.Run Step (new file logBuffer flushBuffer) trace s →
      Step s (a, .returned call txnId d) t → Durable file t.log d := by
  intro hall
  obtain ⟨buffer, hbuffer⟩ := BufferedLog.exists_buffer
  obtain ⟨s, hcall, hthread, hdecisions, -, -, hlength⟩ :=
    @firstCommit_logged [] buffer buffer hbuffer
  have hdurable := hall [] buffer buffer _ s _ _ _ _ _ hbuffer hbuffer (.single hcall)
    (firstCommit_finish hthread hdecisions)
  have hs := run_sound hbuffer hbuffer (.single hcall)
  have hshort : s.log.appended.length ≤ 2 ^ 31 := by
    rw [hlength]
    decide
  have hiff := hs.durable_iff (d := ⟨1, .commit, 0, 0, .pending⟩) (by simp [hdecisions]) hshort
  exact absurd (hiff.mp hdurable) (by decide)

end LoggedTxns

end RucDDBS
