import RucDDBS.Recovery.Aries

/-!
What `Undo` does on a log whose transactions are linked by `prev_lsn`: it calls
`UndoLog` on every record of every unfinished transaction, the newest first, and
afterwards appends one `ABORT` for each of these transactions. Neither the store
nor the log manager matters for it. `UndoLog` changes the numbers in the table of
active transactions, but neither its transactions nor the places of the records.
-/

namespace RucDDBS

namespace RecoveryManager

/-- `UndoLog` was called on `visits`, and `m'` is what the loop left of `m`. The
last part is about the end of `Undo`, in any order of the hash map. -/
structure Undone (log visits : List LogRecord) (m m' : RecoveryManager) : Prop where
  records : visits = (log.filter fun r => !finished log r.txnId).reverse
  decreasing : visits.Pairwise fun r r' => r'.lsn < r.lsn
  compensations : ∃ comps, m'.logManager.log = m.logManager.log ++ comps ∧
    ∀ c ∈ comps, c.logType.isWrite = true
  aborts : ∀ order, order.Perm m'.activeTxn.entries → ∃ aborts,
    (m'.appendAbortsIn order).logManager.log = m'.logManager.log ++ aborts ∧
    (∀ a ∈ aborts, a.logType = .abort) ∧ (aborts.map LogRecord.txnId).Nodup ∧
    ∀ txnId, txnId ∈ aborts.map LogRecord.txnId ↔
      appears log txnId = true ∧ finished log txnId = false

variable {m : RecoveryManager} {log records : List LogRecord} {r : LogRecord} {txnId : TxnId}
  {rounds : Nat}

/-- The place of every record is known, as a pair of `int`s. -/
def PlacesKnown (m : RecoveryManager) (log : List LogRecord) : Prop :=
  ∀ done r later, log = done ++ r :: later → (encodeLog done).length < 2 ^ 31 ∧
    m.lsnMapping r.lsn = some ((encodeLog done).length, r.size)

/-- The table has the last record of every unfinished transaction. -/
def LosersKnown (m : RecoveryManager) (log : List LogRecord) : Prop :=
  ∀ txnId, m.activeTxn.get txnId =
    if appears log txnId = true ∧ finished log txnId = false then some (lastLsn log txnId) else none

/-- A file whose records have places is not much longer than an `int` can tell. -/
theorem PlacesKnown.file_lt (h : PlacesKnown m log) (hall : ∀ r ∈ log, r.WellFormed) :
    (encodeLog log).length < 2 ^ 32 := by
  rcases List.eq_nil_or_concat log with rfl | ⟨done, last, rfl⟩
  · decide
  · rw [List.concat_eq_append] at h hall ⊢
    have hlast := hall last (by simp)
    have hsize := hlast.size
    have hplace := (h done last [] rfl).1
    rw [logBufferSize] at hsize
    rw [encodeLog_concat_length hlast.storable]
    omega

section UndoLog

/-- `UndoLog` appends a record of a write, or nothing. -/
theorem undoLog_log (m : RecoveryManager) (r : LogRecord) :
    ∃ comps, (m.undoLog r).logManager.log = m.logManager.log ++ comps ∧
      ∀ c ∈ comps, c.logType.isWrite = true := by
  unfold undoLog
  cases r.logType
  case insert => exact ⟨[_], rfl, by simp [LogRecord.ofWrite, LogRecordType.isWrite]⟩
  case delete => exact ⟨[_], rfl, by simp [LogRecord.ofWrite, LogRecordType.isWrite]⟩
  all_goals exact ⟨[], by simp⟩

theorem undoLogs_log (m : RecoveryManager) (records : List LogRecord) :
    ∃ comps, (records.foldl undoLog m).logManager.log = m.logManager.log ++ comps ∧
      ∀ c ∈ comps, c.logType.isWrite = true := by
  induction records generalizing m with
  | nil => exact ⟨[], by simp⟩
  | cons r records ih =>
      obtain ⟨first, hfirst, hwrites⟩ := undoLog_log m r
      obtain ⟨rest, hrest, hwrites'⟩ := ih (m.undoLog r)
      refine ⟨first ++ rest, ?_, ?_⟩
      · rw [List.foldl_cons, hrest, hfirst, List.append_assoc]
      · intro c hc
        rcases List.mem_append.mp hc with hc | hc
        · exact hwrites c hc
        · exact hwrites' c hc

/-- The undone transaction stays in the table, and no other one gets into it. -/
theorem undoLog_isSome (m : RecoveryManager) (hr : (m.activeTxn.get r.txnId).isSome = true)
    (txnId : TxnId) :
    ((m.undoLog r).activeTxn.get txnId).isSome = (m.activeTxn.get txnId).isSome := by
  have hput (lsn : Int) : ((m.activeTxn.put r.txnId lsn).get txnId).isSome =
      (m.activeTxn.get txnId).isSome := by
    rw [SortedMap.get_put]
    split
    case isTrue heq =>
      rw [heq, hr]
      rfl
    case isFalse => rfl
  unfold undoLog
  cases r.logType
  case insert => exact hput _
  case delete => exact hput _
  all_goals rfl

theorem undoLogs_isSome (m : RecoveryManager)
    (h : ∀ r ∈ records, (m.activeTxn.get r.txnId).isSome = true) (txnId : TxnId) :
    ((records.foldl undoLog m).activeTxn.get txnId).isSome = (m.activeTxn.get txnId).isSome := by
  induction records generalizing m with
  | nil => rfl
  | cons r records ih =>
      have hfirst := undoLog_isSome m (h r (by simp))
      rw [List.foldl_cons, ih, hfirst]
      intro r' hr'
      rw [hfirst]
      exact h r' (by simp [hr'])

end UndoLog

theorem LosersKnown.isSome_iff (h : LosersKnown m log) (txnId : TxnId) :
    (m.activeTxn.get txnId).isSome = true ↔
      appears log txnId = true ∧ finished log txnId = false := by
  rw [h]
  split
  case isTrue hactive => simp [hactive]
  case isFalse hactive => simp [hactive]

/-- The undone records belong to transactions of the table. -/
theorem LosersKnown.open_isSome (h : LosersKnown m log) :
    ∀ r ∈ (openRecords log log).reverse, (m.activeTxn.get r.txnId).isSome = true := by
  intro r hr
  rw [List.mem_reverse, openRecords, List.mem_filter] at hr
  rw [h.isSome_iff]
  exact ⟨appears_of_mem hr.1, by simpa using hr.2⟩

/-- The entries of the table, in any order, are the unfinished transactions. -/
theorem mem_order_iff {m' : RecoveryManager} {order : List (TxnId × Int)}
    (horder : order.Perm m'.activeTxn.entries) (txnId : TxnId) :
    txnId ∈ order.map Prod.fst ↔ (m'.activeTxn.get txnId).isSome = true := by
  rw [(horder.map Prod.fst).mem_iff, List.mem_map, Option.isSome_iff_exists]
  constructor
  · rintro ⟨⟨txnId, lsn⟩, hentry, rfl⟩
    exact ⟨lsn, (m'.activeTxn.get_eq_some_iff txnId lsn).mpr hentry⟩
  · rintro ⟨lsn, hget⟩
    exact ⟨(txnId, lsn), (m'.activeTxn.get_eq_some_iff txnId lsn).mp hget, rfl⟩

/-- On every linked log whose places and unfinished transactions are known, the
loop of `Undo` ends and undoes each record of an unfinished transaction once,
the newest first. -/
theorem undo_visits (hlog : LinkedLog log) (hall : ∀ r ∈ log, r.WellFormed)
    (hplaces : PlacesKnown m log) (hlosers : LosersKnown m log) (hrounds : log.length < rounds) :
    ∃ visits m',
      undoTrace (encodeLog log) rounds m (m.activeTxn.entries.map Prod.snd).toFinset =
        some (visits, m') ∧
      undoLoop (encodeLog log) rounds m (m.activeTxn.entries.map Prod.snd).toFinset = some m' ∧
      Undone log visits m m' := by
  obtain ⟨buffer, htrace⟩ := undoTrace_eq rounds hlog hall (hplaces.file_lt hall) hplaces
    (List.append_nil log).symm hrounds
  rw [active_pending hlosers, undoLoop_trace, htrace]
  refine ⟨_, _, rfl, rfl, ?_⟩
  have hactive (txnId : TxnId) :
      (((openRecords log log).reverse.foldl undoLog m).activeTxn.get txnId).isSome = true ↔
        appears log txnId = true ∧ finished log txnId = false := by
    rw [undoLogs_isSome m hlosers.open_isSome, hlosers.isSome_iff]
  constructor
  · rfl
  · rw [List.pairwise_reverse]
    exact hlog.pairwise.filter _
  · exact undoLogs_log m _
  · intro order horder
    refine ⟨_, appendAbortsIn_log order, ?_, ?_, ?_⟩
    · intro a ha
      rw [abortRecords_eq ha]
      rfl
    · rw [abortRecords_txnId]
      exact (horder.map Prod.fst).nodup_iff.mpr (SortedMap.sorted _).nodup_keys
    · intro txnId
      rw [abortRecords_txnId, mem_order_iff horder]
      exact hactive txnId

/-- Two interrupted transactions and a committed one. -/
def twoLosers : List LogRecord :=
  [{ LogRecord.ofTxn 1 (-1) .begin with lsn := 0 },
    { LogRecord.ofTxn 2 (-1) .begin with lsn := 1 },
    { LogRecord.ofTxn 3 (-1) .begin with lsn := 2 },
    { LogRecord.ofWrite 1 0 .insert [107] [49] with lsn := 3 },
    { LogRecord.ofWrite 3 2 .insert [109] [51] with lsn := 4 },
    { LogRecord.ofWrite 2 1 .insert [108] [50] with lsn := 5 },
    { LogRecord.ofTxn 3 4 .commit with lsn := 6 },
    { LogRecord.ofWrite 1 3 .delete [107] [49] with lsn := 7 }]

/-- After the redo phase. -/
def twoLosersRedone : RecoveryManager := redoRecords (new ⟨8, []⟩) 0 twoLosers

theorem twoLosers_visits : ∃ visits m',
    undoTrace (encodeLog twoLosers) 9 twoLosersRedone
        (twoLosersRedone.activeTxn.entries.map Prod.snd).toFinset = some (visits, m') ∧
      undoLoop (encodeLog twoLosers) 9 twoLosersRedone
        (twoLosersRedone.activeTxn.entries.map Prod.snd).toFinset = some m' ∧
      Undone twoLosers visits twoLosersRedone m' := by
  have hlog : Appended twoLosers := Appended.of_take _ (by decide +kernel)
  have hall : ∀ r ∈ twoLosers, r.WellFormed := hlog.wellFormed (by decide)
  have hredone : twoLosersRedone.Redone twoLosers := redone_redoRecords ⟨8, []⟩ hlog hall
  have hplaces : twoLosersRedone.PlacesKnown twoLosers := by
    intro done r later hsplit
    have hlt := encodeLog_lt (hall r (by rw [hsplit]; simp)).storable done later
    have hfile : (encodeLog twoLosers).length < 2 ^ 31 := by decide +kernel
    rw [← hsplit] at hlt
    exact ⟨by omega, hredone.lsnMapping done r later hsplit⟩
  exact undo_visits hlog.linked hall hplaces hredone.activeTxn (by decide)

end RecoveryManager

end RucDDBS
