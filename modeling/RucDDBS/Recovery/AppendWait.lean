import RucDDBS.Recovery.LogBuffer
import RucDDBS.Transaction.TxnStore

/-!
The wait of `AppendLogRecord` in the arithmetic of the machine. The size of a record is a
sum of type `size_t` that is kept in an `int32_t`, the sizes of key and value are
`uint32_t`, and the predicate adds the size to the offset as a `size_t` again. The store
takes keys and values of any length, and a record that does not fit an empty buffer waits
for ever.
-/

namespace RucDDBS

namespace LogRecord

/-- `size_` as the constructor for inserts and deletes computes it. -/
def size32 (key value : Bytes) : BitVec 32 :=
  let keySize := BitVec.ofNat 32 key.length
  let valueSize := BitVec.ofNat 32 value.length
  (24#64 + 4#64 + keySize.setWidth 64 + 4#64 + valueSize.setWidth 64).setWidth 32

/-- The predicate of the wait: `log_buffer_write_offset_ + log_record.GetSize() <
LOG_BUFFER_SIZE`. -/
def hasRoom (offset : BitVec 64) (size : BitVec 32) : Bool :=
  (offset + size.signExtend 64).ult (BitVec.ofNat 64 logBufferSize)

theorem size32_toNat (key value : Bytes) :
    (size32 key value).toNat = (headerSize + 4 + key.length + 4 + value.length) % 2 ^ 32 := by
  simp only [size32, headerSize, BitVec.toNat_setWidth, BitVec.toNat_add, BitVec.toNat_ofNat]
  omega

/-- A size of 2^31 or more is negative, and as a `size_t` beyond every buffer. -/
theorem hasRoom_iff {offset : Nat} (hoffset : offset < logBufferSize) (size : BitVec 32) :
    hasRoom (BitVec.ofNat 64 offset) size = true ↔
      (size.toNat < 2 ^ 31 ∧ offset + size.toNat < logBufferSize) ∨
        (2 ^ 31 ≤ size.toNat ∧ 2 ^ 32 ≤ offset + size.toNat) := by
  have hsize := size.isLt
  have hbuffer : logBufferSize = 45056 := rfl
  rw [hbuffer] at hoffset
  rw [hasRoom, BitVec.ult_iff_toNat_lt, hbuffer]
  simp only [BitVec.toNat_add, BitVec.toNat_ofNat, BitVec.toNat_signExtend,
    BitVec.toNat_setWidth, BitVec.msb_eq_decide, decide_eq_true_eq]
  split
  case isTrue hnegative => omega
  case isFalse hpositive => omega

/-- In an empty buffer there is room exactly for the records that are smaller than the
buffer, their size taken modulo 2^32. -/
theorem hasRoom_empty_iff (key value : Bytes) :
    hasRoom 0 (size32 key value) = true ↔
      (headerSize + 4 + key.length + 4 + value.length) % 2 ^ 32 < logBufferSize := by
  have hroom := hasRoom_iff (by decide : 0 < logBufferSize) (size32 key value)
  have hlt := (size32 key value).isLt
  have hbuffer : logBufferSize = 45056 := rfl
  rw [← size32_toNat]
  rw [hbuffer] at hroom ⊢
  refine hroom.trans ?_
  omega

end LogRecord

namespace BufferedLog

variable {s t : BufferedLog} {i : AppenderId} {r : LogRecord}

/-- The unbounded sizes of the buffer's model agree with those of the machine up to 2^31. -/
theorem hasRoom_iff_not_full {txnId : TxnId} {prevLsn : Int} {type : LogRecordType}
    {key value : Bytes} (hoffset : s.logBufferWriteOffset < logBufferSize)
    (hsize : (LogRecord.ofWrite txnId prevLsn type key value).size < 2 ^ 31) :
    LogRecord.hasRoom (BitVec.ofNat 64 s.logBufferWriteOffset) (LogRecord.size32 key value) = true ↔
      ¬ s.full (.ofWrite txnId prevLsn type key value) := by
  have hmod : (LogRecord.size32 key value).toNat =
      (LogRecord.ofWrite txnId prevLsn type key value).size := by
    rw [LogRecord.size32_toNat]
    exact Nat.mod_eq_of_lt (Nat.lt_trans hsize (by decide))
  rw [LogRecord.hasRoom_iff hoffset, hmod, full, ge_iff_le, not_le]
  omega

/-- A record that does not fit an empty buffer is never copied. -/
theorem Step.oversized_waits {a : LogAction} (hstep : Step s a t) (hwaits : s.waiting i = some r)
    (hsize : logBufferSize ≤ r.size) : t.waiting i = some r := by
  have hfull (r' : LogRecord) (hr : s.waiting i = some r') : s.full r' := by
    rw [hwaits, Option.some.injEq] at hr
    subst hr
    exact Nat.le_trans hsize (Nat.le_add_left _ _)
  cases hstep.effect with
  | park j r' hfull' =>
      have hne : i ≠ j := by
        rintro rfl
        simp [Step, step, hwaits] at hstep
      simpa [Function.update_of_ne hne] using hwaits
  | append j r' hroom => rwa [copyRecord_waiting]
  | resume j r' hwaits' hroom =>
      have hne : i ≠ j := by
        rintro rfl
        exact hroom (hfull r' hwaits')
      simpa [Function.update_of_ne hne, copyRecord_waiting] using hwaits
  | _ => exact hwaits

theorem run_oversized_waits {trace : List LogAction} (hrun : Lts.Run Step s trace t)
    (hwaits : s.waiting i = some r) (hsize : logBufferSize ≤ r.size) : t.waiting i = some r :=
  hrun.preserves (fun u => u.waiting i = some r)
    (fun _ _ _ hstep hu => hstep.oversized_waits hu hsize) hwaits

end BufferedLog

namespace TxnStore

variable {snappy : Snappy} {s s' : TxnStore} {op : TxnOp} {r : LogRecord}

/-- The record that an operation of the store asks `AppendLogRecord` for: the new value, or for
a key that is found the old one. -/
def appends (snappy : Snappy) (s : TxnStore) : TxnOp → Option (Option LogRecord)
  | .put key value => some (some (.ofWrite s.txnId s.prevLsn .insert key value))
  | .del key =>
      if s.kv.memtable.contains key = true then
        some (some (.ofWrite s.txnId s.prevLsn .delete key ((s.kv.memtable.get key).getD [])))
      else do
        match KVStore.visible (← s.kv.diskstorage.search snappy key) with
        | some value => pure (some (.ofWrite s.txnId s.prevLsn .delete key value))
        | none => pure none

/-- What an operation adds to the log. -/
theorem appends_logged (h : s.perform snappy true op = some s') :
    ∃ record, s.appends snappy op = some record ∧ s'.logManager.log =
      s.logManager.log ++ (record.map fun r => { r with lsn := s.logManager.nextLsn }).toList := by
  cases op with
  | put key value =>
      simp only [perform, put, Option.bind_eq_bind, Option.bind_eq_some_iff, Option.pure_def,
        Option.some.injEq] at h
      obtain ⟨kv, -, rfl⟩ := h
      exact ⟨_, rfl, rfl⟩
  | del key =>
      obtain ⟨⟨last, found⟩, hdel, rfl⟩ := Option.map_eq_some_iff.mp h
      simp only [appends]
      simp only [del] at hdel
      split at hdel
      case isTrue hmem =>
        cases hdel
        exact ⟨_, if_pos hmem, rfl⟩
      case isFalse hmem =>
        rw [if_neg hmem]
        simp only [Option.bind_eq_bind, Option.bind_eq_some_iff] at hdel
        obtain ⟨result, hsearch, hdel⟩ := hdel
        rw [hsearch, Option.bind_eq_bind, Option.bind_some]
        cases hvisible : KVStore.visible result with
        | none =>
            rw [hvisible] at hdel
            cases hdel
            exact ⟨none, rfl, (List.append_nil _).symm⟩
        | some value =>
            rw [hvisible] at hdel
            cases hdel
            exact ⟨_, rfl, rfl⟩

theorem appends_ofWrite (h : s.appends snappy op = some (some r)) :
    ∃ type, r = .ofWrite s.txnId s.prevLsn type r.key r.value := by
  cases op with
  | put key value =>
      cases h
      exact ⟨_, rfl⟩
  | del key =>
      simp only [appends] at h
      split at h
      case isTrue hmem =>
        cases h
        exact ⟨_, rfl⟩
      case isFalse hmem =>
        simp only [Option.bind_eq_bind, Option.bind_eq_some_iff] at h
        obtain ⟨result, -, h⟩ := h
        split at h
        next value _ =>
          cases h
          exact ⟨_, rfl⟩
        next => cases h

/-- With an empty log buffer, the record of a put or a delete finds room exactly if it is
smaller than the buffer, its size taken modulo 2^32. The appender of a larger one, of less than
2^31 bytes, waits for ever. -/
theorem append_waits_iff {log : BufferedLog} (happends : s.appends snappy op = some (some r))
    (hswapped : log.logBufferWriteOffset = 0) :
    (LogRecord.hasRoom (BitVec.ofNat 64 log.logBufferWriteOffset)
        (LogRecord.size32 r.key r.value) = true ↔
      r.size % 2 ^ 32 < logBufferSize) ∧
      (logBufferSize ≤ r.size → r.size < 2 ^ 31 → ∀ i trace t, log.waiting i = some r →
        Lts.Run BufferedLog.Step log trace t → t.waiting i = some r) := by
  refine ⟨?_, ?_⟩
  · obtain ⟨type, hr⟩ := appends_ofWrite happends
    have hsize : r.size = LogRecord.headerSize + 4 + r.key.length + 4 + r.value.length :=
      congrArg LogRecord.size hr
    rw [hswapped, hsize]
    exact LogRecord.hasRoom_empty_iff r.key r.value
  · intro hlarge _ i trace t hwaits hrun
    exact BufferedLog.run_oversized_waits hrun hwaits hlarge

/-- The first transaction of an empty store. -/
def first : TxnStore := ⟨.ofDirectory .empty, ⟨0, []⟩, 1, invalidLsn, []⟩

/-- A put of one byte. -/
theorem smallPut_finds_room :
    LogRecord.hasRoom (BitVec.ofNat 64 (BufferedLog.new [] [] []).logBufferWriteOffset)
      (LogRecord.size32 [107] [118]) = true := by
  have happends : first.appends Snappy.literal (.put [107] [118]) =
      some (some (.ofWrite 1 invalidLsn .insert [107] [118])) := rfl
  have hempty : (BufferedLog.new [] [] []).logBufferWriteOffset = 0 := rfl
  exact (append_waits_iff happends hempty).1.mpr (by decide)

/-- A put of a value as long as the log buffer. -/
theorem largePut_finds_no_room :
    first.appends Snappy.literal (.put [107] (List.replicate logBufferSize 118)) =
        some (some (.ofWrite 1 invalidLsn .insert [107] (List.replicate logBufferSize 118))) ∧
      LogRecord.hasRoom 0 (LogRecord.size32 [107] (List.replicate logBufferSize 118)) = false := by
  refine ⟨rfl, ?_⟩
  rw [← Bool.not_eq_true, LogRecord.hasRoom_empty_iff, List.length_replicate]
  decide

end TxnStore

end RucDDBS
