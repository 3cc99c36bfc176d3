import RucDDBS.Recovery.LogBuffer
import RucDDBS.Transaction.TxnIds
import RucDDBS.Transaction.TxnStore

/-!
The chains of log records that transactions leave behind. Every append site of the
store and of the transaction manager does the same three things: it builds a record
with the transaction's `prev_lsn_`, hands it to `AppendLogRecord`, and stores the
number it gets back in `prev_lsn_`. Other transactions may come between any two of
them. Logging is on, as `dbconfig.h` has it.

A transaction is known by its object, for two objects may have the same id. What a
`del` finds in the store is left open here, and so is who changes the state of a
transaction.
-/

namespace RucDDBS

namespace LogChains

section Model

/-- What a function does behind the append. -/
inductive After where
  | done
  /-- `put` and `del` with `add_writeset` -/
  | pushBack (item : WriteRecord)
  /-- the end of a round of `AbortSingle` -/
  | popBack
  | prepared
  | committed
  deriving DecidableEq

/-- Where the thread of a transaction is: between calls, in the loop of `AbortSingle`,
at `AppendLogRecord` with the record it built, or behind it with the number. -/
inductive Pc where
  | idle
  | undoing
  | append (record : LogRecord) (next : After)
  | appended (lsn : Int) (next : After)
  deriving DecidableEq

/-- A `Transaction` object. -/
structure TxnObject where
  txnId : TxnId
  state : TransactionState
  prevLsn : Int
  writeSet : List WriteRecord
  pc : Pc
  deriving DecidableEq

/-- The calls of a transaction. `found` is the value that `del` sees, in the memtable or
on disk. -/
inductive TxnCall where
  | begin
  | put (key value : Bytes)
  | del (key : Bytes) (found : Option Bytes)
  | prepareCommit
  | commitSingle
  | abortSingle
  deriving DecidableEq

namespace TxnObject

def new (txnId : TxnId) : TxnObject := ⟨txnId, .default, invalidLsn, [], .idle⟩

def txnRecord (txn : TxnObject) (type : LogRecordType) : LogRecord :=
  .ofTxn txn.txnId txn.prevLsn type

def writeRecord (txn : TxnObject) (type : LogRecordType) (key value : Bytes) : LogRecord :=
  .ofWrite txn.txnId txn.prevLsn type key value

def finish (txn : TxnObject) : After → TxnObject
  | .done => { txn with pc := .idle }
  | .pushBack item => { txn with writeSet := txn.writeSet ++ [item], pc := .idle }
  | .popBack => { txn with writeSet := txn.writeSet.dropLast, pc := .undoing }
  | .prepared => { txn with state := .prepared, pc := .idle }
  | .committed => { txn with state := .committed, pc := .idle }

/-- A call, as far as its first append. -/
def call (txn : TxnObject) : TxnCall → TxnObject
  | .begin => { txn with pc := .append (txn.txnRecord .begin) .done }
  | .put key value =>
      { txn with pc := .append (txn.writeRecord .insert key value) (.pushBack (.ofInsert key)) }
  | .del key (some value) =>
      { txn with
        pc := .append (txn.writeRecord .delete key value) (.pushBack (.ofDelete key value)) }
  | .del _ none => txn
  | .prepareCommit =>
      if txn.state = .aborted then txn
      else if txn.state = .prepared then txn
      else { txn with pc := .append (txn.txnRecord .prepared) .prepared }
  | .commitSingle =>
      if txn.state = .aborted then txn
      else { txn with pc := .append (txn.txnRecord .commit) .committed }
  | .abortSingle => { txn with pc := .undoing }

/-- A round of the loop in `AbortSingle`, as far as its append, or what follows the loop. -/
def undo (txn : TxnObject) (found : Option Bytes) : TxnObject :=
  match txn.writeSet.getLast? with
  | none => { txn with pc := .append (txn.txnRecord .abort) .done }
  | some item =>
      match item.wtype, found with
      | .deleteTuple, _ =>
          { txn with pc := .append (txn.writeRecord .insert item.key item.value) .popBack }
      | .insertTuple, some value =>
          { txn with pc := .append (txn.writeRecord .delete item.key value) .popBack }
      | .insertTuple, none => txn.finish .popBack

/-- The statements behind `AppendLogRecord`. `PrepareCommit` returns before it stores an
invalid number. -/
def setPrevLsn (txn : TxnObject) (lsn : Int) (next : After) : TxnObject :=
  if next = .prepared ∧ lsn = invalidLsn then { txn with pc := .idle }
  else { txn with prevLsn := lsn }.finish next

end TxnObject

/-- The numbers of the log manager, the records it took with the objects that appended
them, and the objects. -/
structure State where
  nextLsn : Int
  log : List (TxnRef × LogRecord)
  txns : TxnRef → Option TxnObject

def init : State := ⟨0, [], fun _ => none⟩

inductive Action where
  /-- `Begin` with a null pointer: a new object, and the call on it -/
  | create (ref : TxnRef) (txnId : TxnId)
  | call (ref : TxnRef) (call : TxnCall)
  | undo (ref : TxnRef) (found : Option Bytes)
  | append (ref : TxnRef)
  | setPrevLsn (ref : TxnRef)
  | setState (ref : TxnRef) (state : TransactionState)
  deriving DecidableEq

namespace State

def setTxn (s : State) (ref : TxnRef) (txn : TxnObject) : State :=
  { s with txns := Function.update s.txns ref (some txn) }

/-- `AppendLogRecord`, at the moment it finds room. -/
def appendLogRecord (s : State) (ref : TxnRef) (record : LogRecord) : State :=
  { s with
    nextLsn := wrapLsn (s.nextLsn + 1)
    log := s.log ++ [(ref, { record with lsn := s.nextLsn })] }

def step (s : State) : Action → Option State
  | .create ref txnId =>
      match s.txns ref with
      | some _ => none
      | none => some (s.setTxn ref ((TxnObject.new txnId).call .begin))
  | .call ref call => do
      let txn ← s.txns ref
      if txn.pc = .idle then pure (s.setTxn ref (txn.call call)) else none
  | .undo ref found => do
      let txn ← s.txns ref
      if txn.pc = .undoing then pure (s.setTxn ref (txn.undo found)) else none
  | .append ref => do
      let txn ← s.txns ref
      match txn.pc with
      | .append record next =>
          pure ((s.appendLogRecord ref record).setTxn ref { txn with pc := .appended s.nextLsn next })
      | _ => none
  | .setPrevLsn ref => do
      let txn ← s.txns ref
      match txn.pc with
      | .appended lsn next => pure (s.setTxn ref (txn.setPrevLsn lsn next))
      | _ => none
  | .setState ref state => do
      let txn ← s.txns ref
      pure (s.setTxn ref { txn with state })

def Step (s : State) (a : Action) (t : State) : Prop := s.step a = some t

end State

end Model

section Chain

/-- The records of a log that are met on the way back through `prev_lsn_`. -/
def follow (log : List LogRecord) : Nat → Int → List LogRecord
  | 0, _ => []
  | fuel + 1, lsn =>
      match log.find? fun r => r.lsn = lsn with
      | none => []
      | some r => r :: follow log fuel r.prevLsn

def lastNumber (records : List LogRecord) : Int := (records.getLast?.map LogRecord.lsn).getD invalidLsn

/-- Every record points to the one before it, and the first one to none. -/
inductive Linked : List LogRecord → Prop
  | nil : Linked []
  | snoc {records : List LogRecord} {r : LogRecord} :
      Linked records → r.prevLsn = lastNumber records → Linked (records ++ [r])

/-- The records have the numbers 0, 1, 2, ... -/
def Counted (log : List LogRecord) : Prop :=
  ∀ (i : Nat) (r : LogRecord), log[i]? = some r → r.lsn = i

end Chain

/-- The number of the last append is in `prev_lsn_`. -/
def TxnObject.numberStored (txn : TxnObject) : Bool :=
  match txn.pc with
  | .appended _ _ => false
  | _ => true

namespace State

def records (s : State) : List LogRecord := s.log.map Prod.snd

/-- The records that an object has appended. -/
def recordsOf (s : State) (ref : TxnRef) : List LogRecord :=
  (s.log.filter fun entry => entry.1 = ref).map Prod.snd

/-- The way back from the last record of a transaction leads through all its records and
through no others, as far as its `BEGIN`. -/
structure Chained (s : State) (ref : TxnRef) : Prop where
  visits : ∀ fuel, s.log.length < fuel →
    follow s.records fuel (lastNumber (s.recordsOf ref)) = (s.recordsOf ref).reverse
  begins : ∀ r ∈ (s.recordsOf ref).head?, r.logType = .begin ∧ r.prevLsn = invalidLsn
  own : ∀ txn, s.txns ref = some txn → ∀ r ∈ s.recordsOf ref, r.txnId = txn.txnId

end State

section Back

variable {log records : List LogRecord} {r : LogRecord}

@[simp] theorem lastNumber_nil : lastNumber [] = invalidLsn := rfl

@[simp] theorem lastNumber_concat : lastNumber (records ++ [r]) = r.lsn := by
  simp [lastNumber]

theorem Counted.find (h : Counted log) (hr : r ∈ log) :
    log.find? (fun r' => r'.lsn = r.lsn) = some r := by
  obtain ⟨i, hi, rfl⟩ := List.getElem_of_mem hr
  rw [List.find?_eq_some_iff_getElem]
  refine ⟨by simp, i, hi, rfl, ?_⟩
  intro j hj
  have hlsn := h i _ (List.getElem?_eq_getElem hi)
  have hother := h j _ (List.getElem?_eq_getElem (by omega))
  simp only [Bool.not_eq_eq_eq_not, Bool.not_true, decide_eq_false_iff_not]
  omega

theorem Counted.nonneg (h : Counted log) (hr : r ∈ log) : 0 ≤ r.lsn := by
  obtain ⟨i, hi⟩ := List.getElem?_of_mem hr
  rw [h i r hi]
  omega

/-- No record has the invalid number. -/
theorem Counted.find_invalid (h : Counted log) :
    log.find? (fun r => r.lsn = invalidLsn) = none := by
  rw [List.find?_eq_none]
  intro r hr
  have hnonneg := h.nonneg hr
  intro hinvalid
  have hlsn : r.lsn = -1 := of_decide_eq_true hinvalid
  omega

/-- The way back from the last of some linked records leads through all of them. -/
theorem Linked.follow (h : Linked records) (hcounted : Counted log)
    (hmem : ∀ r ∈ records, r ∈ log) (fuel : Nat) (hfuel : records.length < fuel) :
    LogChains.follow log fuel (lastNumber records) = records.reverse := by
  induction h generalizing fuel with
  | nil =>
      obtain ⟨fuel, rfl⟩ := Nat.exists_eq_succ_of_ne_zero (Nat.ne_of_gt hfuel)
      rw [lastNumber_nil, LogChains.follow, hcounted.find_invalid]
      rfl
  | @snoc records r _ hprev ih =>
      rw [List.length_append, List.length_singleton] at hfuel
      obtain ⟨fuel, rfl⟩ := Nat.exists_eq_succ_of_ne_zero (by omega : fuel ≠ 0)
      have hrest := ih (fun r' hr' => hmem r' (List.mem_append_left _ hr')) fuel (by omega)
      rw [lastNumber_concat, LogChains.follow, hcounted.find (hmem r (by simp))]
      simp only [hprev, hrest, List.reverse_append, List.reverse_singleton, List.singleton_append]

/-- The first record points to none. -/
theorem Linked.head_prevLsn (h : Linked records) : ∀ r ∈ records.head?, r.prevLsn = invalidLsn := by
  induction h with
  | nil => simp
  | @snoc records r _ hprev ih =>
      cases records with
      | nil =>
          intro r' hr'
          simp only [List.nil_append, List.head?_cons, Option.mem_def, Option.some.injEq] at hr'
          rw [← hr', hprev, lastNumber_nil]
      | cons first rest => exact ih

end Back

section Objects

variable {records : List LogRecord} {txn : TxnObject}

/-- Where the thread of a transaction is fits to the records it has appended. -/
def Fits (records : List LogRecord) (txn : TxnObject) : Prop :=
  match txn.pc with
  | .idle | .undoing => records ≠ [] ∧ txn.prevLsn = lastNumber records
  | .append record _ =>
      (records = [] → record.logType = .begin) ∧ txn.prevLsn = lastNumber records ∧
        record.prevLsn = lastNumber records ∧ record.txnId = txn.txnId
  | .appended lsn _ => records ≠ [] ∧ lsn = lastNumber records

structure TxnInv (records : List LogRecord) (txn : TxnObject) : Prop where
  linked : Linked records
  begins : ∀ r ∈ records.head?, r.logType = .begin
  own : ∀ r ∈ records, r.txnId = txn.txnId
  fits : Fits records txn

/-- A new object is about to append its `BEGIN`. -/
theorem txnInv_new (txnId : TxnId) : TxnInv [] ((TxnObject.new txnId).call .begin) where
  linked := .nil
  begins := by simp
  own := by simp
  fits := ⟨fun _ => rfl, rfl, rfl, rfl⟩

/-- A transaction that begins an append, or goes on, with its chain as it is. -/
theorem TxnInv.goOn {txn' : TxnObject} (h : TxnInv records txn) (hid : txn'.txnId = txn.txnId)
    (hfits : Fits records txn') : TxnInv records txn' where
  linked := h.linked
  begins := h.begins
  own := by
    intro r hr
    rw [hid]
    exact h.own r hr
  fits := hfits

/-- A record that carries the number in `prev_lsn_` is handed to the log manager. -/
theorem TxnInv.build (h : TxnInv records txn) (hne : records ≠ [])
    (hprev : txn.prevLsn = lastNumber records) {record : LogRecord} (next : After)
    (hrecord : record.prevLsn = txn.prevLsn) (hid : record.txnId = txn.txnId) :
    TxnInv records { txn with pc := .append record next } :=
  h.goOn rfl ⟨fun hnil => absurd hnil hne, hprev, hrecord.trans hprev, hid⟩

theorem TxnInv.call (h : TxnInv records txn) (hpc : txn.pc = .idle) (c : TxnCall) :
    TxnInv records (txn.call c) := by
  have hfits := h.fits
  simp only [Fits, hpc] at hfits
  obtain ⟨hne, hprev⟩ := hfits
  cases c with
  | begin => exact h.build hne hprev _ rfl rfl
  | put key value => exact h.build hne hprev _ rfl rfl
  | del key found =>
      cases found with
      | none => exact h
      | some value => exact h.build hne hprev _ rfl rfl
  | prepareCommit =>
      simp only [TxnObject.call]
      split
      · exact h
      · split
        · exact h
        · exact h.build hne hprev _ rfl rfl
  | commitSingle =>
      simp only [TxnObject.call]
      split
      · exact h
      · exact h.build hne hprev _ rfl rfl
  | abortSingle => exact h.goOn rfl ⟨hne, hprev⟩

theorem TxnInv.undo (h : TxnInv records txn) (hpc : txn.pc = .undoing) (found : Option Bytes) :
    TxnInv records (txn.undo found) := by
  have hfits := h.fits
  simp only [Fits, hpc] at hfits
  obtain ⟨hne, hprev⟩ := hfits
  unfold TxnObject.undo
  cases txn.writeSet.getLast? with
  | none => exact h.build hne hprev _ rfl rfl
  | some item =>
      obtain ⟨wtype, key, value⟩ := item
      cases wtype with
      | deleteTuple => exact h.build hne hprev _ rfl rfl
      | insertTuple =>
          cases found with
          | none => exact h.goOn rfl ⟨hne, hprev⟩
          | some value => exact h.build hne hprev _ rfl rfl

/-- The appended record becomes the end of the chain. -/
theorem TxnInv.append (h : TxnInv records txn) {record : LogRecord} {next : After}
    (hpc : txn.pc = .append record next) (lsn : Int) :
    TxnInv (records ++ [{ record with lsn }]) { txn with pc := .appended lsn next } := by
  have hfits := h.fits
  simp only [Fits, hpc] at hfits
  obtain ⟨hbegin, _, hrecord, hid⟩ := hfits
  refine ⟨.snoc h.linked hrecord, ?_, ?_, by simp [Fits]⟩
  · cases records with
    | nil =>
        intro r hr
        simp only [List.nil_append, List.head?_cons, Option.mem_def, Option.some.injEq] at hr
        rw [← hr]
        exact hbegin rfl
    | cons first rest => exact h.begins
  · intro r hr
    rcases List.mem_append.mp hr with hold | hnew
    · exact h.own r hold
    · rw [List.mem_singleton.mp hnew]
      exact hid

theorem finish_txnId (txn : TxnObject) (next : After) : (txn.finish next).txnId = txn.txnId := by
  cases next <;> rfl

theorem fits_finish {lsn : Int} (hne : records ≠ []) (hlsn : lsn = lastNumber records)
    (next : After) : Fits records ({ txn with prevLsn := lsn }.finish next) := by
  cases next <;> exact ⟨hne, hlsn⟩

/-- A valid number is stored, and the chain ends where `prev_lsn_` says. -/
theorem TxnInv.setPrevLsn (h : TxnInv records txn) {lsn : Int} {next : After}
    (hpc : txn.pc = .appended lsn next) (hlsn : lsn ≠ invalidLsn) :
    TxnInv records (txn.setPrevLsn lsn next) := by
  have hfits := h.fits
  simp only [Fits, hpc] at hfits
  obtain ⟨hne, hlast⟩ := hfits
  rw [TxnObject.setPrevLsn, if_neg fun hboth => hlsn hboth.2]
  exact h.goOn (finish_txnId _ next) (fits_finish hne hlast next)

theorem TxnInv.setState (h : TxnInv records txn) (state : TransactionState) :
    TxnInv records { txn with state } := h.goOn rfl h.fits

end Objects

section Append

/-- The log manager from the inside, whenever the record has room, gives the same number
to the record and goes on to the same next one. -/
theorem appendLogRecord_copyRecord {s : State} {b : BufferedLog} {record : LogRecord}
    (hlen : b.logBuffer.length = logBufferSize) (hrecord : record.Built) (hroom : ¬ b.full record)
    (hnext : b.nextLsn = s.nextLsn) (hlog : b.appended = s.records) (ref : TxnRef) :
    (b.copyRecord record).nextLsn = (s.appendLogRecord ref record).nextLsn ∧
      (b.copyRecord record).appended = (s.appendLogRecord ref record).records := by
  obtain ⟨buffer, heq, -, -⟩ := BufferedLog.copyRecord_eq hlen hrecord hroom
  rw [heq]
  simp [State.appendLogRecord, State.records, hnext, hlog]

end Append

section Runs

variable {s t : State} {ref : TxnRef} {txn : TxnObject} {trace : List Action}

/-- The numbers of the log wrap; the chains are right as long as none has. -/
structure Inv (s : State) : Prop where
  next : s.nextLsn = wrapLsn s.log.length
  numbers : ∀ (i : Nat) (r : LogRecord), s.records[i]? = some r → r.lsn = wrapLsn i
  known : ∀ entry ∈ s.log, s.txns entry.1 ≠ none
  txns : s.log.length ≤ 2 ^ 31 → ∀ ref txn, s.txns ref = some txn → TxnInv (s.recordsOf ref) txn

theorem inv_init : Inv init := by
  constructor <;> simp [init, State.records, wrapLsn]

theorem mem_records (h : r ∈ s.recordsOf ref) : r ∈ s.records := by
  obtain ⟨entry, hentry, rfl⟩ := List.mem_map.mp h
  exact List.mem_map_of_mem (List.mem_filter.mp hentry).1

theorem length_recordsOf_le (s : State) (ref : TxnRef) :
    (s.recordsOf ref).length ≤ s.log.length := by
  rw [State.recordsOf, List.length_map]
  exact List.length_filter_le _ _

theorem Inv.counted (h : Inv s) (hshort : s.log.length ≤ 2 ^ 31) : Counted s.records := by
  intro i r hi
  have hlt : i < s.records.length := (List.getElem?_eq_some_iff.mp hi).1
  rw [State.records, List.length_map] at hlt
  rw [h.numbers i r hi, BufferedLog.wrapLsn_of_lt (by omega)]

/-- Every step but an append changes one object only. -/
theorem Inv.setTxn (h : Inv s) (htxn : s.log.length ≤ 2 ^ 31 → TxnInv (s.recordsOf ref) txn) :
    Inv (s.setTxn ref txn) where
  next := h.next
  numbers := h.numbers
  known := by
    intro entry hentry
    simp only [State.setTxn, Function.update_apply]
    split
    · simp
    · exact h.known entry hentry
  txns := by
    intro hshort ref' txn' htxn'
    simp only [State.setTxn, Function.update_apply] at htxn'
    split at htxn'
    next heq =>
      cases htxn'
      rw [heq]
      exact htxn hshort
    next => exact h.txns hshort ref' txn' htxn'

/-- An object without an entry in the table has appended nothing. -/
theorem Inv.recordsOf_new (h : Inv s) (hnone : s.txns ref = none) : s.recordsOf ref = [] := by
  rw [State.recordsOf, List.map_eq_nil_iff, List.filter_eq_nil_iff]
  intro entry hentry heq
  rw [← of_decide_eq_true heq] at hnone
  exact h.known entry hentry hnone

theorem recordsOf_append (s : State) (ref ref' : TxnRef) (record : LogRecord) :
    (s.appendLogRecord ref record).recordsOf ref' =
      if ref = ref' then s.recordsOf ref' ++ [{ record with lsn := s.nextLsn }]
      else s.recordsOf ref' := by
  unfold State.recordsOf State.appendLogRecord
  rw [List.filter_append, List.map_append]
  split
  next heq => simp [heq]
  next hne => simp [hne]

theorem Inv.append (h : Inv s) (htxn : s.txns ref = some txn) {record : LogRecord} {next : After}
    (hpc : txn.pc = .append record next) :
    Inv ((s.appendLogRecord ref record).setTxn ref { txn with pc := .appended s.nextLsn next }) := by
  constructor
  · show wrapLsn (s.nextLsn + 1) = _
    rw [h.next, wrapLsn_add]
    simp [State.setTxn, State.appendLogRecord]
  · intro i r hi
    simp only [State.records, State.setTxn, State.appendLogRecord, List.map_append, List.map_cons,
      List.map_nil] at hi
    rw [List.getElem?_append, List.getElem?_singleton] at hi
    split at hi
    · exact h.numbers i r hi
    next hge =>
      split at hi
      next hzero =>
        cases hi
        rw [List.length_map] at hge hzero
        have heq : i = s.log.length := by omega
        rw [heq]
        exact h.next
      next => cases hi
  · intro entry hentry
    simp only [State.setTxn, Function.update_apply]
    split
    · simp
    next hne =>
      rcases List.mem_append.mp hentry with hold | hnew
      · exact h.known entry hold
      · rw [List.mem_singleton.mp hnew] at hne
        exact absurd rfl hne
  · intro hshort ref' txn' htxn'
    have hlength : s.log.length + 1 ≤ 2 ^ 31 := by
      simpa [State.setTxn, State.appendLogRecord] using hshort
    have hold := h.txns (by omega)
    show TxnInv ((s.appendLogRecord ref record).recordsOf ref') txn'
    rw [recordsOf_append]
    simp only [State.setTxn, Function.update_apply] at htxn'
    split at htxn'
    next heq =>
      cases htxn'
      subst heq
      rw [if_pos rfl]
      exact (hold _ _ htxn).append hpc _
    next hne =>
      rw [if_neg (Ne.symm hne)]
      exact hold ref' txn' htxn'

/-- Under the bound a number that was handed out is not the invalid one. -/
theorem Inv.valid (h : Inv s) (hshort : s.log.length ≤ 2 ^ 31) (htxn : s.txns ref = some txn)
    {lsn : Int} {next : After} (hpc : txn.pc = .appended lsn next) : lsn ≠ invalidLsn := by
  have hfits := (h.txns hshort ref txn htxn).fits
  simp only [Fits, hpc] at hfits
  obtain ⟨hne, rfl⟩ := hfits
  have hmem := mem_records (List.getLast_mem hne)
  have hnonneg := (h.counted hshort).nonneg hmem
  have hlast : lastNumber (s.recordsOf ref) = ((s.recordsOf ref).getLast hne).lsn := by
    rw [lastNumber, List.getLast?_eq_some_getLast hne]
    rfl
  rw [hlast, invalidLsn]
  omega

theorem Inv.step {a : Action} (h : Inv s) (hstep : State.Step s a t) : Inv t := by
  cases a with
  | create ref txnId =>
      simp only [State.Step, State.step] at hstep
      split at hstep
      · cases hstep
      next hnone =>
        cases hstep
        apply h.setTxn
        intro _
        rw [h.recordsOf_new hnone]
        exact txnInv_new txnId
  | call ref call =>
      simp only [State.Step, State.step, Option.bind_eq_bind, Option.bind_eq_some_iff,
        Option.ite_none_right_eq_some, Option.pure_def, Option.some.injEq] at hstep
      obtain ⟨txn, htxn, hpc, rfl⟩ := hstep
      exact h.setTxn fun hshort => (h.txns hshort ref txn htxn).call hpc call
  | undo ref found =>
      simp only [State.Step, State.step, Option.bind_eq_bind, Option.bind_eq_some_iff,
        Option.ite_none_right_eq_some, Option.pure_def, Option.some.injEq] at hstep
      obtain ⟨txn, htxn, hpc, rfl⟩ := hstep
      exact h.setTxn fun hshort => (h.txns hshort ref txn htxn).undo hpc found
  | append ref =>
      simp only [State.Step, State.step, Option.bind_eq_bind, Option.bind_eq_some_iff] at hstep
      obtain ⟨txn, htxn, hstep⟩ := hstep
      split at hstep
      next record next hpc =>
        cases hstep
        exact h.append htxn hpc
      next => cases hstep
  | setPrevLsn ref =>
      simp only [State.Step, State.step, Option.bind_eq_bind, Option.bind_eq_some_iff] at hstep
      obtain ⟨txn, htxn, hstep⟩ := hstep
      split at hstep
      next lsn next hpc =>
        cases hstep
        apply h.setTxn
        intro hshort
        exact (h.txns hshort ref txn htxn).setPrevLsn hpc (h.valid hshort htxn hpc)
      next => cases hstep
  | setState ref state =>
      simp only [State.Step, State.step, Option.bind_eq_bind, Option.bind_eq_some_iff,
        Option.pure_def, Option.some.injEq] at hstep
      obtain ⟨txn, htxn, rfl⟩ := hstep
      exact h.setTxn fun hshort => (h.txns hshort ref txn htxn).setState state

theorem Inv.chained (h : Inv s) (hshort : s.log.length ≤ 2 ^ 31) (htxn : s.txns ref = some txn) :
    s.Chained ref where
  visits := by
    intro fuel hfuel
    have hle := length_recordsOf_le s ref
    apply (h.txns hshort ref txn htxn).linked.follow (h.counted hshort) _ fuel (by omega)
    intro r hr
    exact mem_records hr
  begins := by
    intro r hr
    exact ⟨(h.txns hshort ref txn htxn).begins r hr,
      (h.txns hshort ref txn htxn).linked.head_prevLsn r hr⟩
  own := by
    intro txn' htxn'
    exact (h.txns hshort ref txn' htxn').own

theorem TxnInv.prevLsn {records : List LogRecord} (h : TxnInv records txn)
    (hstored : txn.numberStored = true) : txn.prevLsn = lastNumber records := by
  have hfits := h.fits
  unfold Fits at hfits
  unfold TxnObject.numberStored at hstored
  split at hfits
  · exact hfits.2
  · exact hfits.2
  · exact hfits.2.1
  next hpc =>
    rw [hpc] at hstored
    cases hstored

/-- In every interleaving of the append sites the numbers count the records, and every
transaction's records are chained, as long as an `int32_t` counts them. -/
theorem log_chains (hrun : Lts.Run State.Step init trace t) (hshort : t.log.length ≤ 2 ^ 31) :
    Counted t.records ∧ ∀ ref txn, t.txns ref = some txn →
      t.Chained ref ∧ (txn.numberStored = true → txn.prevLsn = lastNumber (t.recordsOf ref)) := by
  have hinv := hrun.preserves Inv (fun _ _ _ hstep h => h.step hstep) inv_init
  refine ⟨hinv.counted hshort, ?_⟩
  intro ref txn htxn
  exact ⟨hinv.chained hshort htxn, (hinv.txns hshort ref txn htxn).prevLsn⟩

/-- Two transactions, one of which is undone while the other one votes. -/
def undoneTrace : List Action :=
  [.create 0 5, .create 1 7, .append 1, .append 0, .setPrevLsn 0, .setPrevLsn 1,
    .call 0 (.put [107] [118]), .call 1 .prepareCommit, .append 0, .append 1, .setPrevLsn 1,
    .setPrevLsn 0, .call 0 .abortSingle, .undo 0 (some [118]), .append 0, .setPrevLsn 0,
    .undo 0 none, .append 0]

theorem undoneTrace_chains : ∃ t, Lts.Run State.Step init undoneTrace t ∧
    Counted t.records ∧ ∀ ref txn, t.txns ref = some txn →
      t.Chained ref ∧ (txn.numberStored = true → txn.prevLsn = lastNumber (t.recordsOf ref)) := by
  have hrun : ∃ t, Lts.Run State.Step init undoneTrace t ∧ t.log.length = 6 := by
    refine ⟨_, .cons rfl (.cons rfl (.cons rfl (.cons rfl (.cons rfl (.cons rfl (.cons rfl (.cons rfl
      (.cons rfl (.cons rfl (.cons rfl (.cons rfl (.cons rfl (.cons rfl (.cons rfl (.cons rfl
        (.cons rfl (.cons rfl (.nil _)))))))))))))))))), rfl⟩
  obtain ⟨t, hrun, hlength⟩ := hrun
  exact ⟨t, hrun, log_chains hrun (by omega)⟩

/-- A transaction between two calls appends one more record. -/
theorem exists_round (htxn : s.txns 0 = some txn) (hpc : txn.pc = .idle) :
    ∃ trace t, Lts.Run State.Step s trace t ∧ t.log.length = s.log.length + 1 ∧
      ∃ txn', t.txns 0 = some txn' ∧ txn'.pc = .idle := by
  have hcall : State.Step s (.call 0 (.put [] [])) (s.setTxn 0 (txn.call (.put [] []))) := by
    simp [State.Step, State.step, htxn, hpc]
  refine ⟨[.call 0 (.put [] []), .append 0, .setPrevLsn 0], _,
    .cons hcall (.cons rfl (.cons rfl (.nil _))), ?_, _, rfl, rfl⟩
  simp [State.setTxn, State.appendLogRecord]

theorem exists_long (n : Nat) : ∃ trace t, Lts.Run State.Step init trace t ∧
    t.log.length = n + 1 ∧ ∃ txn, t.txns 0 = some txn ∧ txn.pc = .idle := by
  induction n with
  | zero =>
      exact ⟨[.create 0 5, .append 0, .setPrevLsn 0], _, .cons rfl (.cons rfl (.cons rfl (.nil _))), rfl,
        _, rfl, rfl⟩
  | succ n ih =>
      obtain ⟨trace, t, hrun, hlength, txn, htxn, hpc⟩ := ih
      obtain ⟨more, u, hmore, hlonger, hidle⟩ := exists_round htxn hpc
      exact ⟨trace ++ more, u, hrun.append hmore, by omega, hidle⟩

/-- The record behind the first 2^31 has a negative number, and between an append and
the assignment that follows it `prev_lsn_` is behind the log. -/
theorem log_chain_limits :
    (¬ ∀ trace t, Lts.Run State.Step init trace t → Counted t.records) ∧
      ¬ ∀ trace t, Lts.Run State.Step init trace t → ∀ ref txn, t.txns ref = some txn →
        txn.prevLsn = lastNumber (t.recordsOf ref) := by
  constructor
  · intro hall
    obtain ⟨trace, t, hrun, hlength, _⟩ := exists_long (2 ^ 31)
    have hinv := hrun.preserves Inv (fun _ _ _ hstep h => h.step hstep) inv_init
    have hlt : 2 ^ 31 < t.records.length := by
      rw [State.records, List.length_map]
      omega
    have hget := List.getElem?_eq_getElem hlt
    have hlsn := hall trace t hrun _ _ hget
    rw [hinv.numbers _ _ hget] at hlsn
    exact absurd hlsn (by decide)
  · intro hall
    have hrun : Lts.Run State.Step init [.create 0 5, .append 0] _ := .cons rfl (.cons rfl (.nil _))
    have hprev := hall _ _ hrun 0 _ rfl
    cases hprev

end Runs

end LogChains

end RucDDBS
