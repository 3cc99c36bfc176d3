import Mathlib.Data.Finset.Max
import RucDDBS.Library.SortedMap
import RucDDBS.Recovery.LogRecord

/-!
Recovery: `RecoveryManager::ARIES` with the reads of `LogStorage`. The store is
a finite map. `Redo` reads the log file in windows of the size of the log
buffer, each starting behind the last record that fitted into the one before;
`Undo` follows the `prev_lsn` chains of all unfinished transactions at once,
always at the greatest number.

Reads outside the buffer appear as `none`. The loops have a bound on their
rounds, which the results take large enough for the file at hand; running out
of it is `none` as well. Offsets and sums of `uint32_t` are taken modulo 2^32.
-/

namespace RucDDBS

instance UInt64.linearOrder : LinearOrder UInt64 where
  le_refl := UInt64.le_refl
  le_trans _ _ _ := UInt64.le_trans
  le_antisymm _ _ := UInt64.le_antisymm
  le_total := UInt64.le_total
  lt_iff_le_not_ge a b := by
    rw [UInt64.not_le]
    constructor
    · intro hlt
      exact ⟨UInt64.le_of_lt hlt, hlt⟩
    · exact And.right
  toDecidableLE := inferInstance
  toDecidableEq := inferInstance
  toDecidableLT := inferInstance

namespace LogStorage

/-- `(size_t)GetFileSize`: the size forced into an `int`, with its sign extended. -/
def getFileSize (file : Bytes) : Nat :=
  if file.length % 2 ^ 32 < 2 ^ 31 then file.length % 2 ^ 32
  else file.length % 2 ^ 32 + (2 ^ 64 - 2 ^ 32)

/-- `ReadLog`: whether there was anything to read, and the buffer afterwards.
Missing bytes are zeros. -/
def readLog (file buffer : Bytes) (size offset : Nat) : Bool × Bytes :=
  if getFileSize file ≤ offset then (false, buffer)
  else (true, Bytes.padTo size (file.drop offset) ++ buffer.drop size)

end LogStorage

structure RecoveryManager where
  buffer : Bytes
  kv : SortedMap Bytes Bytes
  logManager : LogManager
  activeTxn : SortedMap TxnId Int
  lsnMapping : Int → Option (Nat × Nat)

namespace RecoveryManager

/-- The manager as it is constructed, over an empty store. -/
def new (logManager : LogManager) : RecoveryManager :=
  ⟨List.replicate logBufferSize 0, .empty, logManager, .empty, fun _ => none⟩

def setBuffer (m : RecoveryManager) (buffer : Bytes) : RecoveryManager :=
  { m with buffer := buffer }

def redoLog (m : RecoveryManager) (r : LogRecord) : RecoveryManager :=
  let m := { m with activeTxn := m.activeTxn.put r.txnId r.lsn }
  match r.logType with
  | .commit | .abort => { m with activeTxn := m.activeTxn.del r.txnId }
  | .begin => { m with activeTxn := m.activeTxn.put r.txnId r.lsn }
  | .insert => { m with kv := m.kv.put r.key r.value }
  | .delete => { m with kv := m.kv.del r.key }
  | .createTable | .dropTable | .prepared | .invalid => m

/-- Where to find the record again. -/
def remember (m : RecoveryManager) (lsn : Int) (offset size : Nat) : RecoveryManager :=
  { m with lsnMapping := Function.update m.lsnMapping lsn (some (offset, size)) }

/-- The inner loop of `Redo`: the records of one window, from `inner` on. The
result has the offset at which the window is left. -/
def redoWindow (offset : Nat) :
    Nat → RecoveryManager → Nat → Int → Option (RecoveryManager × Nat × Int)
  | 0, _, _, _ => none
  | rounds + 1, m, inner, maxLsn => do
      let size ← Bytes.readLE 4 m.buffer inner
      if size = 0 ∨ logBufferSize < (size + inner) % 2 ^ 32 then pure (m, inner, maxLsn)
      else do
        let log ← LogRecord.deserializeFrom m.buffer inner
        let m := m.remember log.lsn (offset + inner) size
        redoWindow offset rounds (m.redoLog log) ((size + inner) % 2 ^ 32) (max maxLsn log.lsn)

/-- The outer loop of `Redo`. -/
def redoLoop (file : Bytes) (bound : Nat) :
    Nat → RecoveryManager → Nat → Int → Option (RecoveryManager × Int)
  | 0, _, _, _ => none
  | rounds + 1, m, offset, maxLsn =>
      match LogStorage.readLog file m.buffer logBufferSize offset with
      | (false, _) => some (m, maxLsn)
      | (true, buffer) => do
          let (m, inner, maxLsn) ← redoWindow offset bound (m.setBuffer buffer) 0 maxLsn
          redoLoop file bound rounds m (offset + inner) maxLsn

def redo (file : Bytes) (bound : Nat) (m : RecoveryManager) : Option RecoveryManager := do
  let (m, maxLsn) ← redoLoop file bound bound m 0 invalidLsn
  pure { m with logManager := { m.logManager with nextLsn := maxLsn + 1 } }

/-- The log record that `UndoLog` writes for what it did. -/
def compensate (m : RecoveryManager) (r : LogRecord) (type : LogRecordType) : RecoveryManager :=
  let record := LogRecord.ofWrite r.txnId ((m.activeTxn.get r.txnId).getD 0) type r.key r.value
  let (logManager, lsn) := m.logManager.appendLogRecord record
  { m with logManager := logManager, activeTxn := m.activeTxn.put r.txnId lsn }

/-- `UndoLog`. A delete is undone by a put of the key under itself. -/
def undoLog (m : RecoveryManager) (r : LogRecord) : RecoveryManager :=
  match r.logType with
  | .insert => { m with kv := m.kv.del r.key }.compensate r .delete
  | .delete => { m with kv := m.kv.put r.key r.key }.compensate r .insert
  | .begin | .prepared => m
  | .commit | .abort | .createTable | .dropTable | .invalid => m

/-- The loop of `Undo` over the set `nextLsn`. A number without an entry in
`lsn_mapping_` gets an empty one. -/
def undoLoop (file : Bytes) : Nat → RecoveryManager → Finset Int → Option RecoveryManager
  | 0, _, _ => none
  | rounds + 1, m, nextLsn =>
      match nextLsn.max with
      | none => some m
      | some lsn => do
          let (offset, size) := (m.lsnMapping lsn).getD (0, 0)
          let m := m.setBuffer (LogStorage.readLog file m.buffer size offset).2
          let log ← LogRecord.deserializeFrom m.buffer 0
          let nextLsn := nextLsn.erase lsn
          undoLoop file rounds (m.undoLog log)
            (if log.prevLsn = invalidLsn then nextLsn else insert log.prevLsn nextLsn)

/-- The abort records at the end of `Undo`. The source goes through a hash map,
in an order that is not modelled. -/
def appendAborts (m : RecoveryManager) : RecoveryManager :=
  { m with
    logManager := m.activeTxn.entries.foldl
      (fun l e => (l.appendLogRecord (.ofTxn e.1 e.2 .abort)).1) m.logManager }

def undo (file : Bytes) (bound : Nat) (m : RecoveryManager) : Option RecoveryManager := do
  let m ← m.undoLoop file bound (m.activeTxn.entries.map Prod.snd).toFinset
  pure m.appendAborts

/-- `Scan` does nothing. -/
def aries (file : Bytes) (bound : Nat) (m : RecoveryManager) : Option RecoveryManager := do
  let m ← m.redo file bound
  m.undo file bound

/-- The abort records when the hash map is gone through in the given order. -/
def appendAbortsIn (order : List (TxnId × Int)) (m : RecoveryManager) : RecoveryManager :=
  { m with
    logManager := order.foldl
      (fun l e => (l.appendLogRecord (.ofTxn e.1 e.2 .abort)).1) m.logManager }

/-- `ARIES` with the order of the hash map as a parameter; nothing else depends on
it, since `next_lsn` is an ordered set. -/
def ariesIn (order : SortedMap TxnId Int → List (TxnId × Int)) (file : Bytes) (bound : Nat)
    (m : RecoveryManager) : Option RecoveryManager := do
  let m ← m.redo file bound
  let m ← m.undoLoop file bound (m.activeTxn.entries.map Prod.snd).toFinset
  pure (m.appendAbortsIn (order m.activeTxn))

end RecoveryManager

end RucDDBS
