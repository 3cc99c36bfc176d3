import RucDDBS.Recovery.RedoScan

/-!
The logs that transactions leave behind, whatever way their records interleave:
every record gets the next number and points to the one before it of the same
transaction, a transaction begins with `BEGIN`, and nothing of it follows its
`COMMIT` or `ABORT`. The values in the records are arbitrary, so the operations
of a runtime abort are covered as ordinary writes.

The second half follows the scan through such a log: the store, the table of
unfinished transactions and the places of the records.
-/

namespace RucDDBS

namespace LogRecord

/-- The record ends its transaction. -/
def ends (r : LogRecord) : Bool := r.logType = .commit || r.logType = .abort

end LogRecord

section Log

variable (log : List LogRecord) (txnId : TxnId)

def appears : Bool := log.any fun r => r.txnId = txnId

def finished : Bool := log.any fun r => r.txnId = txnId && r.ends

def committed : Bool := log.any fun r => r.txnId = txnId && r.logType = .commit

/-- The number of the transaction's last record. -/
def lastLsn : Int :=
  log.foldl (fun lsn r => if r.txnId = txnId then r.lsn else lsn) invalidLsn

variable {log txnId} {r : LogRecord}

theorem appears_append : appears (log ++ [r]) txnId = (appears log txnId || r.txnId = txnId) := by
  simp [appears]

theorem finished_append :
    finished (log ++ [r]) txnId = (finished log txnId || (r.txnId = txnId && r.ends)) := by
  simp [finished]

theorem lastLsn_append :
    lastLsn (log ++ [r]) txnId = if r.txnId = txnId then r.lsn else lastLsn log txnId := by
  simp [lastLsn]

end Log

/-- `r` may be appended to `log`. `AppendLogRecord` waits until the record fits
into the log buffer, so a longer one never gets into the file. -/
structure Allowed (log : List LogRecord) (r : LogRecord) : Prop where
  shape : (r.logType.isWrite = true ∧
      r = { LogRecord.ofWrite r.txnId r.prevLsn r.logType r.key r.value with lsn := r.lsn }) ∨
    ((r.logType = .begin ∨ r.logType = .commit ∨ r.logType = .abort) ∧
      r = { LogRecord.ofTxn r.txnId r.prevLsn r.logType with lsn := r.lsn })
  size : r.size < logBufferSize
  lsn : r.lsn = log.length
  prevLsn : r.prevLsn = lastLsn log r.txnId
  begins : r.logType = .begin ↔ appears log r.txnId = false
  unfinished : finished log r.txnId = false

instance (log : List LogRecord) (r : LogRecord) : Decidable (Allowed log r) :=
  decidable_of_iff (((r.logType.isWrite = true ∧
      r = { LogRecord.ofWrite r.txnId r.prevLsn r.logType r.key r.value with lsn := r.lsn }) ∨
    ((r.logType = .begin ∨ r.logType = .commit ∨ r.logType = .abort) ∧
      r = { LogRecord.ofTxn r.txnId r.prevLsn r.logType with lsn := r.lsn })) ∧
    r.size < logBufferSize ∧ r.lsn = log.length ∧ r.prevLsn = lastLsn log r.txnId ∧
    (r.logType = .begin ↔ appears log r.txnId = false) ∧ finished log r.txnId = false)
    ⟨fun ⟨h₁, h₂, h₃, h₄, h₅, h₆⟩ => ⟨h₁, h₂, h₃, h₄, h₅, h₆⟩,
      fun h => ⟨h.shape, h.size, h.lsn, h.prevLsn, h.begins, h.unfinished⟩⟩

/-- The logs of transactions. -/
inductive Appended : List LogRecord → Prop
  | nil : Appended []
  | snoc {log : List LogRecord} {r : LogRecord} :
      Appended log → Allowed log r → Appended (log ++ [r])

/-- Writes of two transactions to one key. -/
def conflicts (r r' : LogRecord) : Bool :=
  r.logType.isWrite && r'.logType.isWrite && r.key = r'.key && r.txnId ≠ r'.txnId

/-- A key written by one transaction is written by another only after the first
has logged its end. -/
def Isolated (log : List LogRecord) : Prop :=
  ∀ i j : Fin log.length, i < j → conflicts (log.get i) (log.get j) = true →
    finished (log.take j) (log.get i).txnId = true

instance (log : List LogRecord) : Decidable (Isolated log) :=
  inferInstanceAs (Decidable (∀ i j : Fin log.length, i < j →
    conflicts (log.get i) (log.get j) = true → finished (log.take j) (log.get i).txnId = true))

namespace Appended

variable {log : List LogRecord} {r : LogRecord} {txnId : TxnId}

theorem lsn_bounds (h : Appended log) (hr : r ∈ log) : 0 ≤ r.lsn ∧ r.lsn < log.length := by
  induction h with
  | nil => cases hr
  | @snoc log r' _ hallowed ih =>
      have hlsn := hallowed.lsn
      simp only [List.length_append, List.length_singleton]
      rcases List.mem_append.mp hr with hr | hr
      · have hold := ih hr
        omega
      · rw [List.mem_singleton.mp hr]
        omega

theorem lastLsn_bounds (h : Appended log) (txnId : TxnId) :
    -1 ≤ lastLsn log txnId ∧ lastLsn log txnId < log.length := by
  induction h with
  | nil => simp [lastLsn, invalidLsn]
  | @snoc log r _ hallowed ih =>
      have hlsn := hallowed.lsn
      rw [lastLsn_append]
      simp only [List.length_append, List.length_singleton]
      split
      · omega
      · omega

/-- A log is one of transactions if each record may follow those before it. -/
theorem of_take (log : List LogRecord)
    (h : ∀ i : Fin log.length, Allowed (log.take i) (log.get i)) : Appended log := by
  have hprefix (n : Nat) (hn : n ≤ log.length) : Appended (log.take n) := by
    induction n with
    | zero => exact .nil
    | succ n ih =>
        have hnext := Appended.snoc (ih (by omega)) (h ⟨n, by omega⟩)
        rw [List.get_eq_getElem, List.take_append_getElem] at hnext
        exact hnext
  have hall := hprefix log.length le_rfl
  rw [List.take_length] at hall
  exact hall

theorem length_le (log : List LogRecord) : 24 * log.length ≤ (encodeLog log).length := by
  induction log with
  | nil => simp
  | cons r log ih =>
      obtain ⟨body, hencode⟩ := r.encode_eq
      simp only [encodeLog_cons, hencode, List.length_append, LogRecord.header_length,
        List.length_cons]
      omega

/-- In a file of less than 2^31 bytes all numbers fit. -/
theorem wellFormed (h : Appended log) (hsmall : log.length < 2 ^ 31) :
    ∀ r ∈ log, r.WellFormed := by
  induction h with
  | nil => simp
  | @snoc log r hlog hallowed ih =>
      rw [List.length_append, List.length_singleton] at hsmall
      intro r' hr'
      rcases List.mem_append.mp hr' with hold | hnew
      · exact ih (by omega) r' hold
      · rw [List.mem_singleton.mp hnew]
        have hlsn := hallowed.lsn
        have hprev := hallowed.prevLsn
        have hbounds := hlog.lastLsn_bounds r.txnId
        constructor
        · exact hallowed.shape
        · exact hallowed.size
        · omega
        · omega

end Appended

namespace RecoveryManager

/-- What a record does to the store in the redo phase. -/
def applyRecord (kv : SortedMap Bytes Bytes) (r : LogRecord) : SortedMap Bytes Bytes :=
  match r.logType with
  | .insert => kv.put r.key r.value
  | .delete => kv.del r.key
  | _ => kv

variable {m : RecoveryManager} {r : LogRecord} {log : List LogRecord}

theorem redoLog_kv (m : RecoveryManager) (r : LogRecord) :
    (m.redoLog r).kv = applyRecord m.kv r := by
  unfold redoLog applyRecord
  cases r.logType <;> rfl

theorem redoLog_lsnMapping (m : RecoveryManager) (r : LogRecord) :
    (m.redoLog r).lsnMapping = m.lsnMapping := by
  unfold redoLog
  cases r.logType <;> rfl

theorem redoLog_activeTxn (m : RecoveryManager) (r : LogRecord) (txnId : TxnId) :
    (m.redoLog r).activeTxn.get txnId =
      if txnId = r.txnId then (if r.ends = true then none else some r.lsn)
      else m.activeTxn.get txnId := by
  unfold redoLog LogRecord.ends
  by_cases htxn : txnId = r.txnId
  · subst htxn
    cases r.logType <;> simp
  · cases r.logType <;> simp [SortedMap.get_put, SortedMap.get_del, htxn]

/-- What `Redo` knows behind the records of `log`. -/
structure Redone (m : RecoveryManager) (log : List LogRecord) : Prop where
  kv : m.kv = log.foldl applyRecord .empty
  activeTxn : ∀ txnId, m.activeTxn.get txnId =
    if appears log txnId = true ∧ finished log txnId = false then some (lastLsn log txnId) else none
  lsnMapping : ∀ done r later, log = done ++ r :: later →
    m.lsnMapping r.lsn = some ((encodeLog done).length, r.size)

theorem redone_new (logManager : LogManager) : (new logManager).Redone [] where
  kv := rfl
  activeTxn := by simp [new, appears]
  lsnMapping := by simp

/-- One more record. -/
theorem Redone.snoc (h : m.Redone log) (hlog : Appended log) (hr : Allowed log r) :
    ((m.remember r.lsn (encodeLog log).length r.size).redoLog r).Redone (log ++ [r]) := by
  constructor
  · rw [redoLog_kv, List.foldl_append, ← h.kv]
    rfl
  · intro txnId
    have hopen := hr.unfinished
    rw [redoLog_activeTxn, appears_append, finished_append, lastLsn_append]
    by_cases htxn : txnId = r.txnId
    · subst htxn
      cases hends : r.ends <;> simp [hopen]
    · have hne : ¬ r.txnId = txnId := fun heq => htxn heq.symm
      simp only [if_neg htxn, hne, decide_false, Bool.false_and, Bool.or_false, if_false]
      exact h.activeTxn txnId
  · intro done r' later hsplit
    have hmapping : ((m.remember r.lsn (encodeLog log).length r.size).redoLog r).lsnMapping =
        Function.update m.lsnMapping r.lsn (some ((encodeLog log).length, r.size)) :=
      redoLog_lsnMapping _ r
    rw [hmapping]
    rcases List.eq_nil_or_concat later with rfl | ⟨front, last, rfl⟩
    · obtain ⟨rfl, hlast⟩ := List.append_inj' hsplit rfl
      cases hlast
      exact Function.update_self _ _ _
    · rw [List.concat_eq_append, ← List.cons_append, ← List.append_assoc] at hsplit
      obtain ⟨hfront, _⟩ := List.append_inj' hsplit rfl
      have hbounds := hlog.lsn_bounds (r := r') (by rw [hfront]; simp)
      have hlsn := hr.lsn
      have hne : r'.lsn ≠ r.lsn := by omega
      rw [Function.update_of_ne hne]
      exact h.lsnMapping done r' front hfront

theorem redone_redoRecords (logManager : LogManager) (hlog : Appended log)
    (hall : ∀ r ∈ log, r.WellFormed) : (redoRecords (new logManager) 0 log).Redone log := by
  induction hlog with
  | nil => exact redone_new logManager
  | @snoc log r hlog hallowed ih =>
      have hold : ∀ r' ∈ log, r'.WellFormed := fun r' hr' => hall r' (by simp [hr'])
      have hr : r.decoded = r := (hall r (by simp)).decoded_eq
      rw [redoRecords_append _ _ (fun r' hr' => (hold r' hr').storable), Nat.zero_add, redoRecords,
        redoRecords, hr]
      exact (ih hold).snoc hlog hallowed

end RecoveryManager

end RucDDBS
