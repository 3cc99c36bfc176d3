import RucDDBS.Recovery.UndoScan

/-!
Recovery as a whole: the redo phase applies every record, and the undo phase
takes back the records of all unfinished transactions, from the last one to the
first. What a key holds at the end is decided by one record. If an unfinished
transaction wrote the key, it is the first such write, whose undoing comes last;
otherwise it is the last write of the log.

The result is compared with the map that the committed transactions alone leave
behind. The two differ where an overwriting insert is undone by a delete, where
a delete is undone by putting the key under itself, and where an aborted
transaction did not restore what it overwrote.
-/

namespace RucDDBS

namespace RecoveryManager

/-- What undoing a record does to the store. -/
def undoRecord (kv : SortedMap Bytes Bytes) (r : LogRecord) : SortedMap Bytes Bytes :=
  match r.logType with
  | .insert => kv.del r.key
  | .delete => kv.put r.key r.key
  | _ => kv

/-- The records of `done` that belong to unfinished transactions of `log`,
undone from the last one to the first. -/
def undoLosers (log done : List LogRecord) (kv : SortedMap Bytes Bytes) : SortedMap Bytes Bytes :=
  done.foldr (fun r kv => if finished log r.txnId = true then kv else undoRecord kv r) kv

variable {m : RecoveryManager} {r : LogRecord} {log done later : List LogRecord} {file : Bytes}
  {rounds bound : Nat}

theorem undoLog_kv (m : RecoveryManager) (r : LogRecord) :
    (m.undoLog r).kv = undoRecord m.kv r := by
  unfold undoLog undoRecord
  cases r.logType <;> rfl

/-- The writes in `done` of transactions that `log` does not finish. -/
def losers (log done : List LogRecord) : List LogRecord :=
  done.filter fun r => !finished log r.txnId && r.logType.isWrite

def opposite : LogRecordType → LogRecordType
  | .insert => .delete
  | .delete => .insert
  | type => type

/-- `c` is the record that `UndoLog` writes for having undone `r`. -/
def Compensates (r c : LogRecord) : Prop :=
  c = { LogRecord.ofWrite r.txnId c.prevLsn (opposite r.logType) r.key r.value with lsn := c.lsn }

/-- `Undo` has appended the records of `tail`, to a log that began with `start`. -/
structure Undoing (start log tail : List LogRecord) (m : RecoveryManager) : Prop where
  records : m.logManager.log = start ++ tail
  nextLsn : m.logManager.nextLsn = (log ++ tail).length
  appended : Appended (log ++ tail)
  unfinished : ∀ txnId, finished (log ++ tail) txnId = finished log txnId
  activeTxn : ∀ txnId, m.activeTxn.get txnId =
    if appears log txnId = true ∧ finished log txnId = false then
      some (lastLsn (log ++ tail) txnId) else none

theorem Undoing.setBuffer {start tail : List LogRecord} (h : Undoing start log tail m)
    (buffer : Bytes) : Undoing start log tail (m.setBuffer buffer) :=
  ⟨h.records, h.nextLsn, h.appended, h.unfinished, h.activeTxn⟩

theorem Undoing.allowed {start tail : List LogRecord} (h : Undoing start log tail m)
    (hr : r ∈ log) (hsize : r.size < logBufferSize)
    (hshape : r = { LogRecord.ofWrite r.txnId r.prevLsn r.logType r.key r.value with lsn := r.lsn })
    (hopen : finished log r.txnId = false) (hwrite : r.logType.isWrite = true) :
    Allowed (log ++ tail) { LogRecord.ofWrite r.txnId (lastLsn (log ++ tail) r.txnId)
      (opposite r.logType) r.key r.value with lsn := (log ++ tail).length } := by
  have hopposite : (opposite r.logType).isWrite = true := by
    rcases (LogRecord.isWrite_iff _).mp hwrite with htype | htype <;> rw [htype] <;> rfl
  have happears : appears (log ++ tail) r.txnId = true := by
    simp only [appears, List.any_eq_true]
    exact ⟨r, List.mem_append_left _ hr, by simp⟩
  constructor
  · exact .inl ⟨hopposite, rfl⟩
  · have hsame : r.size = LogRecord.headerSize + 4 + r.key.length + 4 + r.value.length :=
      congrArg LogRecord.size hshape
    rw [hsame] at hsize
    exact hsize
  · rfl
  · rfl
  · have hbegin : opposite r.logType ≠ .begin := by
      intro heq
      rw [heq] at hopposite
      cases hopposite
    constructor
    · intro heq
      exact absurd heq hbegin
    · intro hno
      exact absurd (happears.symm.trans hno) (by simp)
  · rw [h.unfinished]
    exact hopen

/-- Undoing a write appends its compensation. -/
theorem Undoing.undoLog {start tail : List LogRecord} (h : Undoing start log tail m)
    (hr : r ∈ log) (hwf : r.WellFormed) (hopen : finished log r.txnId = false)
    (hwrite : r.logType.isWrite = true) :
    ∃ c, Compensates r c ∧ Undoing start log (tail ++ [c]) (m.undoLog r) := by
  have hshape : r = { LogRecord.ofWrite r.txnId r.prevLsn r.logType r.key r.value with
      lsn := r.lsn } := by
    rcases hwf.shape with ⟨-, hshape⟩ | ⟨htype, -⟩
    · exact hshape
    · rcases htype with htype | htype | htype <;> rw [htype] at hwrite <;> cases hwrite
  have happears : appears log r.txnId = true := by
    simp only [appears, List.any_eq_true]
    exact ⟨r, hr, by simp⟩
  have hactive : m.activeTxn.get r.txnId = some (lastLsn (log ++ tail) r.txnId) := by
    rw [h.activeTxn, if_pos ⟨happears, hopen⟩]
  have hallowed := h.allowed hr hwf.size hshape hopen hwrite
  generalize hc : ({ LogRecord.ofWrite r.txnId (lastLsn (log ++ tail) r.txnId)
    (opposite r.logType) r.key r.value with lsn := (log ++ tail).length } : LogRecord) = c at hallowed
  have hlog : (m.undoLog r).logManager = ⟨m.logManager.nextLsn + 1, m.logManager.log ++ [c]⟩ ∧
      (m.undoLog r).activeTxn = m.activeTxn.put r.txnId c.lsn := by
    rcases (LogRecord.isWrite_iff _).mp hwrite with htype | htype <;>
      simp [RecoveryManager.undoLog, htype, compensate, LogManager.appendLogRecord, hactive,
        ← hc, opposite, h.nextLsn]
  have htxn : c.txnId = r.txnId := by rw [← hc]; rfl
  have hlsn : c.lsn = (log ++ tail).length := by rw [← hc]
  have hends : c.ends = false := by
    rw [← hc]
    rcases (LogRecord.isWrite_iff _).mp hwrite with htype | htype <;>
      simp [LogRecord.ends, LogRecord.ofWrite, htype, opposite]
  refine ⟨c, by rw [← hc]; rfl, ?_, ?_, ?_, ?_, ?_⟩
  · rw [hlog.1, h.records, List.append_assoc]
  · have hlength : (log ++ (tail ++ [c])).length = (log ++ tail).length + 1 := by
      simp [Nat.add_assoc]
    rw [hlog.1, hlength, h.nextLsn]
    rfl
  · rw [← List.append_assoc]
    exact h.appended.snoc hallowed
  · intro txnId
    rw [← List.append_assoc, finished_append, h.unfinished, hends]
    simp
  · intro txnId
    rw [hlog.2, SortedMap.get_put, ← List.append_assoc, lastLsn_append, htxn]
    by_cases heq : txnId = r.txnId
    · subst heq
      simp [happears, hopen]
    · have hne : ¬ r.txnId = txnId := fun heq' => heq heq'.symm
      rw [if_neg heq, h.activeTxn]
      simp only [if_neg hne]

theorem losers_snoc (log done : List LogRecord) (r : LogRecord) :
    losers log (done ++ [r]) = losers log done ++
      if (!finished log r.txnId && r.logType.isWrite) = true then [r] else [] := by
  simp [losers, List.filter_singleton]

theorem undoLosers_snoc (log done : List LogRecord) (r : LogRecord) (kv : SortedMap Bytes Bytes) :
    undoLosers log (done ++ [r]) kv =
      undoLosers log done (if finished log r.txnId = true then kv else undoRecord kv r) := by
  rw [undoLosers, undoLosers, List.foldr_append]
  rfl

/-- No record of an unfinished transaction ends it. -/
theorem ends_of_not_finished (hr : r ∈ log) (h : finished log r.txnId = false) : r.ends = false := by
  by_contra hends
  have hfin : finished log r.txnId = true := by
    simp only [finished, List.any_eq_true]
    exact ⟨r, hr, by simpa using hends⟩
  rw [h] at hfin
  cases hfin

/-- A record of an unfinished transaction that is no write is its beginning. -/
theorem undoLog_of_not_write (hwf : r.WellFormed) (hends : r.ends = false)
    (hwrite : r.logType.isWrite = false) : m.undoLog r = m := by
  rcases hwf.shape with ⟨hwrite', -⟩ | ⟨htype, -⟩
  · rw [hwrite] at hwrite'
    cases hwrite'
  · rcases htype with htype | htype | htype
    · simp [undoLog, htype]
    · simp [LogRecord.ends, htype] at hends
    · simp [LogRecord.ends, htype] at hends

/-- Undoing the records of unfinished transactions, from the end of `done` on: the
store, and the records that are appended meanwhile. -/
theorem undoRecords_eq {start tail : List LogRecord} (hall : ∀ r ∈ log, r.WellFormed)
    (hundoing : Undoing start log tail m) (hdone : ∀ r ∈ done, r ∈ log) :
    ∃ more, ((openRecords log done).reverse.foldl undoLog m).kv = undoLosers log done m.kv ∧
      Undoing start log (tail ++ more) ((openRecords log done).reverse.foldl undoLog m) ∧
      List.Forall₂ Compensates (losers log done).reverse more := by
  induction done using List.reverseRecOn generalizing m tail with
  | nil =>
      refine ⟨[], rfl, ?_, .nil⟩
      rw [List.append_nil]
      exact hundoing
  | append_singleton done r ih =>
      have hrest : ∀ r' ∈ done, r' ∈ log := fun r' hr' => hdone r' (by simp [hr'])
      have hmem : r ∈ log := hdone r (by simp)
      cases hfinished : finished log r.txnId with
      | true =>
          obtain ⟨more, hkv, hundone, hmore⟩ := ih hundoing hrest
          rw [openRecords_snoc, if_pos hfinished, List.append_nil, undoLosers_snoc,
            if_pos hfinished, losers_snoc, hfinished]
          exact ⟨more, hkv, hundone, by simpa using hmore⟩
      | false =>
          have hr : r.WellFormed := hall r hmem
          have hfold : (openRecords log (done ++ [r])).reverse.foldl undoLog m =
              (openRecords log done).reverse.foldl undoLog (m.undoLog r) := by
            rw [openRecords_snoc, hfinished]
            simp
          have hkvOf : undoLosers log (done ++ [r]) m.kv =
              undoLosers log done (m.undoLog r).kv := by
            rw [undoLog_kv, undoLosers_snoc, hfinished]
            rfl
          rw [hfold, hkvOf, losers_snoc, hfinished]
          cases hwrite : r.logType.isWrite with
          | true =>
              obtain ⟨c, hc, hnext⟩ := hundoing.undoLog hmem hr hfinished hwrite
              obtain ⟨more, hkv, hundone, hmore⟩ := ih hnext hrest
              rw [List.append_assoc] at hundone
              exact ⟨c :: more, hkv, hundone, by simpa using ⟨hc, hmore⟩⟩
          | false =>
              have hsame : m.undoLog r = m :=
                undoLog_of_not_write hr (ends_of_not_finished hmem hfinished) hwrite
              rw [hsame]
              obtain ⟨more, hkv, hundone, hmore⟩ := ih hundoing hrest
              exact ⟨more, hkv, hundone, by simpa using hmore⟩

/-- The undo phase. -/
theorem undoLoop_eq {start tail : List LogRecord} (rounds : Nat) (hlog : Appended log)
    (hall : ∀ r ∈ log, r.WellFormed) (hsmall : (encodeLog log).length < 2 ^ 31)
    (hmapping : ∀ done r later, log = done ++ r :: later →
      m.lsnMapping r.lsn = some ((encodeLog done).length, r.size))
    (hundoing : Undoing start log tail m) (hrounds : log.length < rounds) :
    ∃ m' more, undoLoop (encodeLog log) rounds m (pending log log) = some m' ∧
      m'.kv = undoLosers log log m.kv ∧ Undoing start log (tail ++ more) m' ∧
      List.Forall₂ Compensates (losers log log).reverse more := by
  have hplaces : ∀ done r later, log = done ++ r :: later → (encodeLog done).length < 2 ^ 31 ∧
      m.lsnMapping r.lsn = some ((encodeLog done).length, r.size) := by
    intro done r later hsplit
    have hlt := encodeLog_lt (hall r (by rw [hsplit]; simp)).storable done later
    rw [← hsplit] at hlt
    exact ⟨by omega, hmapping done r later hsplit⟩
  obtain ⟨buffer, htrace⟩ := undoTrace_eq rounds hlog.linked hall (by omega) hplaces
    (List.append_nil log).symm hrounds
  obtain ⟨more, hkv, hundone, hmore⟩ := undoRecords_eq hall hundoing fun r hr => hr
  refine ⟨((openRecords log log).reverse.foldl undoLog m).setBuffer buffer, more, ?_, hkv,
    hundone.setBuffer buffer, hmore⟩
  rw [undoLoop_trace, htrace, Option.map_some]

/-- The numbers of a log count its records. -/
theorem maxLsnOf_eq (hlog : Appended log) : maxLsnOf invalidLsn log + 1 = log.length := by
  induction hlog with
  | nil => rfl
  | @snoc log r _ hallowed ih =>
      have hlsn := hallowed.lsn
      rw [maxLsnOf_append]
      simp only [maxLsnOf, List.foldl_cons, List.foldl_nil, List.length_append,
        List.length_singleton] at ih ⊢
      omega

theorem Redone.undoing {start : List LogRecord} (h : m.Redone log) (hlog : Appended log)
    (hmanager : m.logManager = ⟨log.length, start⟩) : Undoing start log [] m where
  records := by simp [hmanager]
  nextLsn := by simp [hmanager]
  appended := by simpa using hlog
  unfinished := by simp
  activeTxn := by simpa using h.activeTxn

/-- The abort records of these entries, numbered from `lsn` on. -/
def abortRecords : Int → List (TxnId × Int) → List LogRecord
  | _, [] => []
  | lsn, e :: order =>
      { LogRecord.ofTxn e.1 e.2 .abort with lsn := lsn } :: abortRecords (lsn + 1) order

theorem appendAbortsIn_log (order : List (TxnId × Int)) :
    (m.appendAbortsIn order).logManager.log =
      m.logManager.log ++ abortRecords m.logManager.nextLsn order := by
  have hfold (l : LogManager) :
      (order.foldl (fun l e => (l.appendLogRecord (.ofTxn e.1 e.2 .abort)).1) l).log =
        l.log ++ abortRecords l.nextLsn order := by
    induction order generalizing l with
    | nil => simp [abortRecords]
    | cons e order ih =>
        rw [List.foldl_cons, ih]
        simp [LogManager.appendLogRecord, abortRecords]
  exact hfold m.logManager

theorem abortRecords_txnId (lsn : Int) (order : List (TxnId × Int)) :
    (abortRecords lsn order).map LogRecord.txnId = order.map Prod.fst := by
  induction order generalizing lsn with
  | nil => rfl
  | cons e order ih =>
      rw [abortRecords, List.map_cons, List.map_cons, ih]
      rfl

theorem abortRecords_eq {lsn : Int} {order : List (TxnId × Int)} {r : LogRecord}
    (h : r ∈ abortRecords lsn order) :
    r = { LogRecord.ofTxn r.txnId r.prevLsn .abort with lsn := r.lsn } := by
  induction order generalizing lsn with
  | nil => cases h
  | cons e order ih =>
      rcases List.mem_cons.mp h with rfl | hlater
      · rfl
      · exact ih hlater

/-- In any order, each abort record ends a transaction of its own. -/
theorem appended_abortRecords {order : List (TxnId × Int)} {cur : List LogRecord}
    (hcur : Appended cur) (hnodup : (order.map Prod.fst).Nodup)
    (hopen : ∀ e ∈ order, appears cur e.1 = true ∧ finished cur e.1 = false ∧
      lastLsn cur e.1 = e.2) : Appended (cur ++ abortRecords cur.length order) := by
  induction order generalizing cur with
  | nil => simpa [abortRecords] using hcur
  | cons e order ih =>
      obtain ⟨happears, hfinished, hlast⟩ := hopen e (by simp)
      have hallowed : Allowed cur { LogRecord.ofTxn e.1 e.2 .abort with lsn := cur.length } := by
        refine ⟨.inr ⟨.inr (.inr rfl), rfl⟩, ?_, rfl, hlast.symm, ?_, hfinished⟩
        · exact (by decide : LogRecord.headerSize < logBufferSize)
        · simp [LogRecord.ofTxn, happears]
      rw [abortRecords]
      generalize hr :
        ({ LogRecord.ofTxn e.1 e.2 .abort with lsn := (cur.length : Int) } : LogRecord) = r
        at hallowed
      have htxn : r.txnId = e.1 := by rw [← hr]; rfl
      rw [List.map_cons, List.nodup_cons] at hnodup
      have hrest := ih (hcur.snoc hallowed) hnodup.2 (by
        intro e' he'
        have hne : ¬ e.1 = e'.1 := by
          intro heq
          exact hnodup.1 (List.mem_map.mpr ⟨e', he', heq.symm⟩)
        obtain ⟨happears', hfinished', hlast'⟩ := hopen e' (by simp [he'])
        rw [appears_append, finished_append, lastLsn_append, htxn, if_neg hne]
        simp [happears', hfinished', hlast', hne])
      simpa using hrest

/-- What recovery leaves: the store, and the compensations and abort records that
it has appended. -/
structure Recovered (start log comps aborts : List LogRecord) (m : RecoveryManager) : Prop where
  kv : m.kv = undoLosers log log (log.foldl applyRecord .empty)
  records : m.logManager.log = start ++ (comps ++ aborts)
  appended : Appended (log ++ (comps ++ aborts))
  compensated : List.Forall₂ Compensates (losers log log).reverse comps
  aborted : ∀ r ∈ aborts, r = { LogRecord.ofTxn r.txnId r.prevLsn .abort with lsn := r.lsn }
  ended : ∀ txnId, (∃ r ∈ aborts, r.txnId = txnId) ↔
    appears log txnId = true ∧ finished log txnId = false
  distinct : (aborts.map LogRecord.txnId).Nodup

section Order

variable {order : SortedMap TxnId Int → List (TxnId × Int)} {start : List LogRecord}

theorem undo_eq (horder : ∀ map, (order map).Perm map.entries) (h : m.Redone log)
    (hlog : Appended log) (hmanager : m.logManager = ⟨log.length, start⟩)
    (hall : ∀ r ∈ log, r.WellFormed) (hsmall : (encodeLog log).length < 2 ^ 31)
    (hbound : log.length < bound) :
    ∃ m' comps aborts,
      undoLoop (encodeLog log) bound m (m.activeTxn.entries.map Prod.snd).toFinset = some m' ∧
      Recovered start log comps aborts (m'.appendAbortsIn (order m'.activeTxn)) := by
  obtain ⟨m', comps, hloop, hkv, hundone, hcomps⟩ := undoLoop_eq bound hlog hall hsmall
    h.lsnMapping (h.undoing hlog hmanager) hbound
  rw [List.nil_append] at hundone
  have hactive (e : TxnId × Int) : e ∈ order m'.activeTxn ↔
      (appears log e.1 = true ∧ finished log e.1 = false) ∧ lastLsn (log ++ comps) e.1 = e.2 := by
    rw [(horder m'.activeTxn).mem_iff, ← SortedMap.get_eq_some_iff, hundone.activeTxn]
    split
    case isTrue hactive => simp [hactive]
    case isFalse hactive => simp [hactive]
  have hnodup : ((order m'.activeTxn).map Prod.fst).Nodup :=
    ((horder m'.activeTxn).map Prod.fst).nodup_iff.mpr m'.activeTxn.sorted.nodup_keys
  refine ⟨m', comps, abortRecords (log ++ comps).length (order m'.activeTxn),
    by rw [active_pending h.activeTxn, hloop], ?_⟩
  constructor
  · show m'.kv = _
    rw [hkv, h.kv]
  · rw [appendAbortsIn_log, hundone.records, hundone.nextLsn, List.append_assoc]
  · rw [← List.append_assoc]
    apply appended_abortRecords hundone.appended hnodup
    intro e he
    obtain ⟨⟨happears, hfinished⟩, hlast⟩ := (hactive e).mp he
    refine ⟨?_, by rw [hundone.unfinished, hfinished], hlast⟩
    simp only [appears, List.any_append, Bool.or_eq_true]
    exact .inl happears
  · exact hcomps
  · intro r hr
    exact abortRecords_eq hr
  · intro txnId
    rw [← List.mem_map, abortRecords_txnId, List.mem_map]
    constructor
    · rintro ⟨e, he, rfl⟩
      exact ((hactive e).mp he).1
    · intro hopen
      exact ⟨(txnId, lastLsn (log ++ comps) txnId), (hactive _).mpr ⟨hopen, rfl⟩, rfl⟩
  · rw [abortRecords_txnId]
    exact hnodup

theorem redo_eq (logManager : LogManager) (hlog : Appended log)
    (hall : ∀ r ∈ log, r.WellFormed) (hsmall : (encodeLog log).length < 2 ^ 31)
    (hbound : log.length < bound) :
    (ProbesInside 0 log → ∃ m, (new logManager).redo (encodeLog log) bound = some m ∧
      m.Redone log ∧ m.logManager = ⟨log.length, logManager.log⟩) ∧
    (¬ ProbesInside 0 log → (new logManager).redo (encodeLog log) bound = none) := by
  obtain ⟨hyes, hno⟩ := redo_records logManager (fun r hr => (hall r hr).storable) hsmall hbound
  refine ⟨?_, hno⟩
  intro hprobes
  obtain ⟨buffer, hredo⟩ := hyes hprobes
  have hredone := redone_redoRecords logManager hlog hall
  refine ⟨_, hredo, ⟨hredone.kv, hredone.activeTxn, hredone.lsnMapping⟩, ?_⟩
  rw [maxLsnOf_eq hlog]

/-- Recovery of a log file: all records are redone and those of unfinished
transactions undone, unless a probe leaves the buffer. -/
theorem ariesIn_eq (horder : ∀ map, (order map).Perm map.entries) (logManager : LogManager)
    (hlog : Appended log) (hsmall : (encodeLog log).length < 2 ^ 31)
    (hbound : (encodeLog log).length < bound) :
    (ProbesInside 0 log → ∃ m comps aborts,
      (new logManager).ariesIn order (encodeLog log) bound = some m ∧
      Recovered logManager.log log comps aborts m) ∧
    (¬ ProbesInside 0 log → (new logManager).ariesIn order (encodeLog log) bound = none) := by
  have hlength := Appended.length_le log
  have hall := hlog.wellFormed (by omega)
  have hrounds : log.length < bound := by omega
  obtain ⟨hyes, hno⟩ := redo_eq logManager hlog hall hsmall hrounds
  constructor
  · intro hprobes
    obtain ⟨m, hredo, hredone, hmanager⟩ := hyes hprobes
    obtain ⟨m', comps, aborts, hundo, hrecovered⟩ :=
      undo_eq horder hredone hlog hmanager hall hsmall hrounds
    refine ⟨_, comps, aborts, ?_, hrecovered⟩
    simp only [ariesIn, hredo, Option.bind_eq_bind, Option.bind_some, hundo, Option.pure_def]
  · intro hprobes
    simp only [ariesIn, hno hprobes, Option.bind_eq_bind, Option.bind_none]

end Order

theorem aries_eq (logManager : LogManager) (hlog : Appended log)
    (hsmall : (encodeLog log).length < 2 ^ 31) (hbound : (encodeLog log).length < bound) :
    (ProbesInside 0 log → ∃ m, (new logManager).aries (encodeLog log) bound = some m ∧
      m.kv = undoLosers log log (log.foldl applyRecord .empty)) ∧
    (¬ ProbesInside 0 log → (new logManager).aries (encodeLog log) bound = none) := by
  have hsame : (new logManager).aries (encodeLog log) bound =
      (new logManager).ariesIn SortedMap.entries (encodeLog log) bound := rfl
  obtain ⟨hyes, hno⟩ := ariesIn_eq (fun map => .refl map.entries) logManager hlog hsmall hbound
  rw [hsame]
  refine ⟨?_, hno⟩
  intro hprobes
  obtain ⟨m, _, _, haries, hrecovered⟩ := hyes hprobes
  exact ⟨m, haries, hrecovered.kv⟩

section Keys

/-- The last write to `key`. -/
def lastWrite (log : List LogRecord) (key : Bytes) : Option LogRecord :=
  (log.filter fun r => r.logType.isWrite && r.key = key).getLast?

/-- The value that a write leaves. -/
def written (r : LogRecord) : Option Bytes :=
  if r.logType = .insert then some r.value else none

/-- The value that undoing a write leaves. -/
def unwritten (r : LogRecord) : Option Bytes :=
  if r.logType = .insert then none else some r.key

theorem applyRecord_get (kv : SortedMap Bytes Bytes) (r : LogRecord) (key : Bytes) :
    (applyRecord kv r).get key =
      if (r.logType.isWrite && r.key = key) = true then written r else kv.get key := by
  unfold applyRecord written LogRecordType.isWrite
  by_cases hkey : r.key = key
  · subst hkey
    cases htype : r.logType <;> simp
  · have hne : ¬ key = r.key := fun heq => hkey heq.symm
    cases htype : r.logType <;> simp [hkey, hne, SortedMap.get_put, SortedMap.get_del]

theorem undoRecord_get (kv : SortedMap Bytes Bytes) (r : LogRecord) (key : Bytes) :
    (undoRecord kv r).get key =
      if (r.logType.isWrite && r.key = key) = true then unwritten r else kv.get key := by
  unfold undoRecord unwritten LogRecordType.isWrite
  by_cases hkey : r.key = key
  · subst hkey
    cases htype : r.logType <;> simp
  · have hne : ¬ key = r.key := fun heq => hkey heq.symm
    cases htype : r.logType <;> simp [hkey, hne, SortedMap.get_put, SortedMap.get_del]

/-- After a list of records a key holds what the last write to it left. -/
theorem applyRecords_get (log : List LogRecord) (key : Bytes) :
    (log.foldl applyRecord .empty).get key = (lastWrite log key).bind written := by
  induction log using List.reverseRecOn with
  | nil => rfl
  | append_singleton log r ih =>
      rw [List.foldl_append, List.foldl_cons, List.foldl_nil, applyRecord_get, ih]
      by_cases hwrite : (r.logType.isWrite && r.key = key) = true
      · simp [lastWrite, hwrite]
      · simp [lastWrite, hwrite]

/-- The first write to `key` by a transaction that has not finished. -/
def firstLoser (log done : List LogRecord) (key : Bytes) : Option LogRecord :=
  done.find? fun r => !finished log r.txnId && (r.logType.isWrite && r.key = key)

theorem undoLosers_get (log done : List LogRecord) (kv : SortedMap Bytes Bytes) (key : Bytes) :
    (undoLosers log done kv).get key =
      match firstLoser log done key with
      | some r => unwritten r
      | none => kv.get key := by
  induction done with
  | nil => rfl
  | cons r done ih =>
      have hcons : undoLosers log (r :: done) kv = if finished log r.txnId = true then
          undoLosers log done kv else undoRecord (undoLosers log done kv) r := rfl
      rw [hcons]
      cases hfinished : finished log r.txnId with
      | true => simp [firstLoser, hfinished, ih]
      | false =>
          by_cases hwrite : (r.logType.isWrite && r.key = key) = true
          · simp [firstLoser, hfinished, hwrite, undoRecord_get]
          · simp [firstLoser, hfinished, hwrite, undoRecord_get, ih]

/-- The map that the committed transactions leave. -/
def committedMap (log : List LogRecord) : SortedMap Bytes Bytes :=
  (log.filter fun r => committed log r.txnId).foldl applyRecord .empty

/-- Recovery gets `key` right. If an unfinished transaction wrote it, undoing the
first of these writes leaves the committed value; otherwise the last write is
one of a committed transaction, or it restores the committed value. -/
def KeyRecovered (log : List LogRecord) (key : Bytes) : Prop :=
  match firstLoser log log key with
  | some r => unwritten r = (committedMap log).get key
  | none => ∀ r ∈ lastWrite log key, committed log r.txnId = false →
      written r = (committedMap log).get key

instance (log : List LogRecord) (key : Bytes) : Decidable (KeyRecovered log key) :=
  match h : firstLoser log log key with
  | some r => decidable_of_iff (unwritten r = (committedMap log).get key) (by
      rw [KeyRecovered, h])
  | none => decidable_of_iff (∀ r ∈ lastWrite log key, committed log r.txnId = false →
      written r = (committedMap log).get key) (by
      rw [KeyRecovered, h])

/-- Only keys of the log matter. -/
theorem keyRecovered_of_not_mem {key : Bytes} (h : ∀ r ∈ log, r.key ≠ key) :
    KeyRecovered log key := by
  have hloser : firstLoser log log key = none := by
    simp only [firstLoser, List.find?_eq_none]
    intro r hr
    simp [h r hr]
  have hlast : lastWrite log key = none := by
    simp only [lastWrite, List.getLast?_eq_none_iff, List.filter_eq_nil_iff]
    intro r hr
    simp [h r hr]
  rw [KeyRecovered, hloser]
  simp [hlast]

instance (log : List LogRecord) : Decidable (∀ key, KeyRecovered log key) :=
  decidable_of_iff (∀ r ∈ log, KeyRecovered log r.key) (by
    constructor
    · intro h key
      by_cases hmem : ∃ r ∈ log, r.key = key
      · obtain ⟨r, hr, rfl⟩ := hmem
        exact h r hr
      · apply keyRecovered_of_not_mem
        intro r hr hkey
        exact hmem ⟨r, hr, hkey⟩
    · intro h r _
      exact h r.key)

/-- If the last write is committed, it is the last committed write. -/
theorem lastWrite_filter {key : Bytes} (h : lastWrite log key = some r)
    (hcommitted : committed log r.txnId = true) :
    lastWrite (log.filter fun r => committed log r.txnId) key = some r := by
  obtain ⟨front, hfront⟩ := List.getLast?_eq_some_iff.mp h
  have hcomm : ((log.filter fun r => committed log r.txnId).filter
      fun r => r.logType.isWrite && r.key = key) =
      ((log.filter fun r => r.logType.isWrite && r.key = key).filter
        fun r => committed log r.txnId) := by
    rw [List.filter_filter, List.filter_filter]
    congr 1
    funext r
    exact Bool.and_comm _ _
  rw [lastWrite, hcomm, hfront, List.filter_append]
  simp [hcommitted]

theorem committedMap_of_no_write {key : Bytes} (h : lastWrite log key = none) :
    (committedMap log).get key = none := by
  rw [committedMap, applyRecords_get]
  have hnone : lastWrite (log.filter fun r => committed log r.txnId) key = none := by
    simp only [lastWrite, List.getLast?_eq_none_iff, List.filter_eq_nil_iff] at h ⊢
    intro r hr
    exact h r (List.mem_of_mem_filter hr)
  rw [hnone]
  rfl

theorem recovered_get_iff (log : List LogRecord) (key : Bytes) :
    (undoLosers log log (log.foldl applyRecord .empty)).get key = (committedMap log).get key ↔
      KeyRecovered log key := by
  rw [undoLosers_get, KeyRecovered]
  cases firstLoser log log key with
  | some r => rfl
  | none =>
      simp only [applyRecords_get]
      cases hlast : lastWrite log key with
      | none => simp [committedMap_of_no_write hlast]
      | some r =>
          cases hcommitted : committed log r.txnId with
          | true =>
              have hvalue : (committedMap log).get key = written r := by
                rw [committedMap, applyRecords_get, lastWrite_filter hlast hcommitted]
                rfl
              simp [hvalue, hcommitted]
          | false => simp [hcommitted]

end Keys

/-- Recovery of any log of less than 2^31 bytes ends with exactly the committed
work if and only if no probe leaves the buffer and every key is recovered. -/
theorem aries_committed_iff (logManager : LogManager) (hlog : Appended log)
    (hsmall : (encodeLog log).length < 2 ^ 31) (hbound : (encodeLog log).length < bound) :
    (∃ m, (new logManager).aries (encodeLog log) bound = some m ∧ m.kv = committedMap log) ↔
      ProbesInside 0 log ∧ ∀ key, KeyRecovered log key := by
  obtain ⟨hyes, hno⟩ := aries_eq logManager hlog hsmall hbound
  constructor
  · rintro ⟨m, haries, hkv⟩
    by_cases hprobes : ProbesInside 0 log
    · refine ⟨hprobes, ?_⟩
      intro key
      obtain ⟨m', haries', hkv'⟩ := hyes hprobes
      have hsame : m' = m := Option.some.inj (haries'.symm.trans haries)
      rw [← recovered_get_iff, ← hkv', hsame, hkv]
    · rw [hno hprobes] at haries
      cases haries
  · rintro ⟨hprobes, hkeys⟩
    obtain ⟨m, haries, hkv⟩ := hyes hprobes
    refine ⟨m, haries, ?_⟩
    rw [hkv]
    apply SortedMap.ext_get
    intro key
    exact (recovered_get_iff log key).mpr (hkeys key)

/-- The first transaction commits a key, the second one is interrupted after it
has put another. -/
def freshInsert : List LogRecord :=
  [{ LogRecord.ofTxn 1 (-1) .begin with lsn := 0 },
    { LogRecord.ofTxn 2 (-1) .begin with lsn := 1 },
    { LogRecord.ofWrite 1 0 .insert [107] [49] with lsn := 2 },
    { LogRecord.ofWrite 2 1 .insert [108] [50] with lsn := 3 },
    { LogRecord.ofTxn 1 2 .commit with lsn := 4 }]

theorem freshInsert_recovered : ∃ m,
    (new ⟨0, []⟩).aries (encodeLog freshInsert) 1000 = some m ∧ m.kv = committedMap freshInsert := by
  have hlog : Appended freshInsert := Appended.of_take _ (by decide +kernel)
  have hsmall : (encodeLog freshInsert).length < 2 ^ 31 := by decide +kernel
  have hbound : (encodeLog freshInsert).length < 1000 := by decide +kernel
  exact (aries_committed_iff ⟨0, []⟩ hlog hsmall hbound).mpr ⟨by decide +kernel, by decide +kernel⟩

/-- A committed key, and an interrupted transaction that deleted it. -/
def interruptedDelete : List LogRecord :=
  [{ LogRecord.ofTxn 1 (-1) .begin with lsn := 0 },
    { LogRecord.ofWrite 1 0 .insert [107] [49] with lsn := 1 },
    { LogRecord.ofTxn 1 1 .commit with lsn := 2 },
    { LogRecord.ofTxn 2 (-1) .begin with lsn := 3 },
    { LogRecord.ofWrite 2 3 .delete [107] [49] with lsn := 4 }]

/-- Recovery puts the key under itself. -/
theorem interruptedDelete_puts_key : Appended interruptedDelete ∧
    Isolated interruptedDelete ∧ ∃ m,
    (new ⟨0, []⟩).aries (encodeLog interruptedDelete) 1000 = some m ∧
      m.kv.get [107] = some [107] ∧ (committedMap interruptedDelete).get [107] = some [49] := by
  have hlog : Appended interruptedDelete := Appended.of_take _ (by decide +kernel)
  have hsmall : (encodeLog interruptedDelete).length < 2 ^ 31 := by decide +kernel
  have hbound : (encodeLog interruptedDelete).length < 1000 := by decide +kernel
  obtain ⟨m, haries, hkv⟩ := (aries_eq ⟨0, []⟩ hlog hsmall hbound).1 (by decide +kernel)
  refine ⟨hlog, by decide +kernel, m, haries, ?_, by decide +kernel⟩
  rw [hkv]
  decide +kernel

end RecoveryManager

end RucDDBS
