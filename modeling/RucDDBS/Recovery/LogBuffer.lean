import RucDDBS.Library.Run
import RucDDBS.Recovery.RedoScan
import Mathlib.Logic.Function.Basic

/-!
`LogManager` from the inside: the buffer that `AppendLogRecord` copies into, the
buffer that the flush thread writes out, and the swap between them. Appends and
the swap run under the latch and are steps of their own; the write is outside of
it, and appends go on while the thread writes. An appender that finds the buffer
full waits on `operation_cv_` and takes the latch again when there is room.

The log sequence number is an `int32_t` and wraps.
-/

namespace RucDDBS

namespace LogRecord

/-- What `AppendLogRecord` copies, one `memcpy` each. -/
def pieces (r : LogRecord) : List Bytes :=
  if r.logType.isWrite = true then
    [r.header, Bytes.toLE 4 r.key.length, r.key, Bytes.toLE 4 r.value.length, r.value]
  else [r.header]

/-- A record as one of the two constructors leaves it, each used for the types
that its comment names. -/
inductive Built : LogRecord → Prop
  | ofTxn (txnId : TxnId) (prevLsn : Int) (type : LogRecordType)
      (htype : type = .begin ∨ type = .commit ∨ type = .abort ∨ type = .prepared) :
      Built (ofTxn txnId prevLsn type)
  | ofWrite (txnId : TxnId) (prevLsn : Int) (type : LogRecordType) (key value : Bytes)
      (htype : type.isWrite = true) : Built (ofWrite txnId prevLsn type key value)

/-- A record as a constructor leaves it. The second one takes any type, although
its comment names two. -/
inductive Constructed : LogRecord → Prop
  | default : Constructed empty
  | ofTxn (txnId : TxnId) (prevLsn : Int) (type : LogRecordType)
      (htype : type = .begin ∨ type = .commit ∨ type = .abort ∨ type = .prepared) :
      Constructed (ofTxn txnId prevLsn type)
  | ofWrite (txnId : TxnId) (prevLsn : Int) (type : LogRecordType) (key value : Bytes) :
      Constructed (ofWrite txnId prevLsn type key value)

theorem flatten_pieces (r : LogRecord) : r.pieces.flatten = r.encode := by
  unfold pieces encode
  split <;> simp

theorem encode_length_pos (r : LogRecord) : 0 < r.encode.length := by
  have hheader : 0 < r.header.length := by
    rw [header_length]
    decide
  unfold encode
  split
  · rw [List.length_append]
    omega
  · exact hheader

/-- The number that an append gives to the record changes no length. -/
theorem Built.encode_length {r : LogRecord} (h : r.Built) (lsn : Int) :
    ({ r with lsn := lsn } : LogRecord).encode.length = r.size := by
  cases h with
  | ofTxn txnId prevLsn type htype =>
      have hwrite : ¬ type.isWrite = true := by
        rw [isWrite_iff]
        rcases htype with rfl | rfl | rfl | rfl <;> simp
      rw [encode, if_neg (show ¬ (LogRecord.ofTxn txnId prevLsn type).logType.isWrite = true
        from hwrite), header_length]
      rfl
  | ofWrite txnId prevLsn type key value htype =>
      rw [encode, if_pos (show (LogRecord.ofWrite txnId prevLsn type key value).logType.isWrite =
        true from htype)]
      simp only [LogRecord.ofWrite, List.length_append, header_length, Bytes.toLE_length,
        headerSize]
      omega

theorem Built.storable {r : LogRecord} (h : r.Built) (hsize : r.size < logBufferSize) {lsn : Int}
    (hlsn : -2 ^ 31 ≤ lsn ∧ lsn < 2 ^ 31) (hprev : -2 ^ 31 ≤ r.prevLsn ∧ r.prevLsn < 2 ^ 31) :
    ({ r with lsn := lsn } : LogRecord).Storable where
  shape := by
    cases h with
    | ofTxn txnId prevLsn type htype => exact .inr ⟨htype, rfl⟩
    | ofWrite txnId prevLsn type key value htype => exact .inl ⟨htype, rfl⟩
  size := hsize
  lsn := hlsn
  prevLsn := hprev

theorem decoded_eq_iff (r : LogRecord) : r.decoded = r ↔ r.logType ≠ .prepared := by
  constructor
  · intro heq htype
    rw [decoded, if_pos htype] at heq
    have hinvalid : LogRecordType.invalid = r.logType := congrArg logType heq
    rw [htype] at hinvalid
    cases hinvalid
  · intro htype
    rw [decoded, if_neg htype]

theorem Built.size_pos {r : LogRecord} (h : r.Built) : 0 < r.size := by
  cases h with
  | ofTxn => exact (by decide : 0 < headerSize)
  | ofWrite =>
      simp only [LogRecord.ofWrite, headerSize]
      omega

end LogRecord

/-- `lsn_t` is `int32_t`. -/
def wrapLsn (n : Int) : Int := n.bmod (2 ^ 32)

theorem wrapLsn_add (n m : Int) : wrapLsn (wrapLsn n + m) = wrapLsn (n + m) :=
  Int.bmod_add_bmod

theorem wrapLsn_sub_one (n : Int) : wrapLsn (wrapLsn n - 1) = wrapLsn (n - 1) := by
  rw [Int.sub_eq_add_neg, wrapLsn_add, ← Int.sub_eq_add_neg]

abbrev AppenderId := Nat

/-- Where the flush thread is: waiting on `cv_`, or in its round behind the swap,
behind `WriteLog` and behind the store of `persistent_lsn_`. -/
inductive FlushPc where
  | waiting
  | swapped (lsn : Int)
  | written (lsn : Int)
  | stored
  deriving DecidableEq, Repr

/-- The state of the log manager and its file. `overrun` says that a `memcpy` has
left the buffer. The fields behind it are a history that no step reads: the
records appended so far, and how many of them have been swapped, written and
stored. -/
structure BufferedLog where
  logBuffer : Bytes
  flushBuffer : Bytes
  logBufferWriteOffset : Nat
  flushBufferWriteOffset : Nat
  needFlush : Bool
  nextLsn : Int
  persistentLsn : Int
  flushLsn : Int
  file : Bytes
  flusher : FlushPc
  waiting : AppenderId → Option LogRecord
  overrun : Bool
  appended : List LogRecord
  swappedCount : Nat
  writtenCount : Nat
  storedCount : Nat

inductive LogAction where
  /-- a call of `AppendLogRecord`, to its return or to its wait -/
  | append (a : AppenderId) (r : LogRecord)
  /-- a waiting appender finds room -/
  | resume (a : AppenderId)
  /-- the forced part of `Flush`; its loop only reads -/
  | flush
  | swap
  | write
  | store
  | clear
  deriving DecidableEq, Repr

namespace BufferedLog

/-- The constructor; the buffers hold whatever the memory held. -/
def new (file logBuffer flushBuffer : Bytes) : BufferedLog where
  logBuffer := logBuffer
  flushBuffer := flushBuffer
  logBufferWriteOffset := 0
  flushBufferWriteOffset := 0
  needFlush := false
  nextLsn := 0
  persistentLsn := invalidLsn
  flushLsn := invalidLsn
  file := file
  flusher := .waiting
  waiting := fun _ => none
  overrun := false
  appended := []
  swappedCount := 0
  writtenCount := 0
  storedCount := 0

def full (s : BufferedLog) (r : LogRecord) : Prop :=
  s.logBufferWriteOffset + r.size ≥ logBufferSize

instance (s : BufferedLog) (r : LogRecord) : Decidable (s.full r) :=
  inferInstanceAs (Decidable (_ ≥ _))

/-- `AppendLogRecord` behind its wait. -/
def copyRecord (s : BufferedLog) (r : LogRecord) : BufferedLog :=
  match Bytes.writeAll s.logBuffer s.logBufferWriteOffset
      { r with lsn := s.nextLsn : LogRecord }.pieces with
  | none => { s with overrun := true }
  | some (buffer, pos) =>
      { s with
        logBuffer := buffer
        logBufferWriteOffset := pos
        nextLsn := wrapLsn (s.nextLsn + 1)
        appended := s.appended ++ [{ r with lsn := s.nextLsn }] }

def swapBuffer (s : BufferedLog) : BufferedLog :=
  { s with
    logBuffer := s.flushBuffer
    flushBuffer := s.logBuffer
    flushBufferWriteOffset := s.logBufferWriteOffset
    logBufferWriteOffset := 0
    swappedCount := s.appended.length }

def step (s : BufferedLog) : LogAction → Option BufferedLog
  | .append a r =>
      match s.waiting a with
      | some _ => none
      | none =>
          if s.full r then
            some { s with needFlush := true, waiting := Function.update s.waiting a (some r) }
          else some (s.copyRecord r)
  | .resume a =>
      match s.waiting a with
      | none => none
      | some r =>
          if s.full r then none
          else some { s.copyRecord r with waiting := Function.update s.waiting a none }
  | .flush => some { s with needFlush := true }
  | .swap =>
      -- The wait before ends with a request or after `LOG_TIMEOUT`: at any time.
      if s.flusher = .waiting ∧ 0 < s.logBufferWriteOffset then
        some { s.swapBuffer with
          flusher := .swapped (wrapLsn (s.nextLsn - 1))
          flushLsn := wrapLsn (s.nextLsn - 1) }
      else none
  | .write =>
      match s.flusher with
      | .swapped lsn =>
          some { s with
            file := s.file ++ s.flushBuffer.take s.flushBufferWriteOffset
            flusher := .written lsn
            writtenCount := s.swappedCount }
      | _ => none
  | .store =>
      match s.flusher with
      | .written lsn =>
          some { s with persistentLsn := lsn, flusher := .stored, storedCount := s.writtenCount }
      | _ => none
  | .clear =>
      if s.flusher = .stored then some { s with needFlush := false, flusher := .waiting } else none

def Step (s : BufferedLog) (a : LogAction) (t : BufferedLog) : Prop := s.step a = some t

/-- The flush buffer, if it has been swapped and not been written. -/
def unwritten (s : BufferedLog) : Bytes :=
  match s.flusher with
  | .swapped _ => s.flushBuffer.take s.flushBufferWriteOffset
  | _ => []

/-- What a step can do. -/
inductive Effect (s : BufferedLog) : LogAction → BufferedLog → Prop
  | park (a : AppenderId) (r : LogRecord) (hfull : s.full r) :
      Effect s (.append a r)
        { s with needFlush := true, waiting := Function.update s.waiting a (some r) }
  | append (a : AppenderId) (r : LogRecord) (hroom : ¬ s.full r) :
      Effect s (.append a r) (s.copyRecord r)
  | resume (a : AppenderId) (r : LogRecord) (hwaits : s.waiting a = some r)
      (hroom : ¬ s.full r) :
      Effect s (.resume a)
        { s.copyRecord r with waiting := Function.update s.waiting a none }
  | flush : Effect s .flush { s with needFlush := true }
  | swap (hpc : s.flusher = .waiting) (hsome : 0 < s.logBufferWriteOffset) :
      Effect s .swap { s.swapBuffer with
        flusher := .swapped (wrapLsn (s.nextLsn - 1))
        flushLsn := wrapLsn (s.nextLsn - 1) }
  | write (lsn : Int) (hpc : s.flusher = .swapped lsn) :
      Effect s .write { s with
        file := s.file ++ s.flushBuffer.take s.flushBufferWriteOffset
        flusher := .written lsn
        writtenCount := s.swappedCount }
  | store (lsn : Int) (hpc : s.flusher = .written lsn) :
      Effect s .store
        { s with persistentLsn := lsn, flusher := .stored, storedCount := s.writtenCount }
  | clear (hpc : s.flusher = .stored) :
      Effect s .clear { s with needFlush := false, flusher := .waiting }

theorem Step.effect {s t : BufferedLog} {a : LogAction} (h : Step s a t) : Effect s a t := by
  cases a with
  | append a r =>
      simp only [Step, step] at h
      split at h
      next => cases h
      next =>
        split at h
        next hfull =>
          obtain rfl := Option.some.inj h
          exact .park a r hfull
        next hroom =>
          obtain rfl := Option.some.inj h
          exact .append a r hroom
  | resume a =>
      simp only [Step, step] at h
      split at h
      next => cases h
      next r hwaits =>
        simp only [Option.ite_none_left_eq_some, Option.some.injEq] at h
        obtain ⟨hroom, rfl⟩ := h
        exact .resume a r hwaits hroom
  | flush =>
      obtain rfl := Option.some.inj h
      exact .flush
  | swap =>
      simp only [Step, step, Option.ite_none_right_eq_some, Option.some.injEq] at h
      obtain ⟨⟨hpc, hsome⟩, rfl⟩ := h
      exact .swap hpc hsome
  | write =>
      simp only [Step, step] at h
      split at h
      next lsn hpc =>
        obtain rfl := Option.some.inj h
        exact .write lsn hpc
      next => cases h
  | store =>
      simp only [Step, step] at h
      split at h
      next lsn hpc =>
        obtain rfl := Option.some.inj h
        exact .store lsn hpc
      next => cases h
  | clear =>
      simp only [Step, step, Option.ite_none_right_eq_some, Option.some.injEq] at h
      obtain ⟨hpc, rfl⟩ := h
      exact .clear hpc

/-- Where the bytes of the appended records are. -/
structure Streams (file₀ : Bytes) (s : BufferedLog) : Prop where
  logLength : s.logBuffer.length = logBufferSize
  flushLength : s.flushBuffer.length = logBufferSize
  offset : s.logBufferWriteOffset < logBufferSize
  written : s.file = file₀ ++ encodeLog (s.appended.take s.writtenCount)
  swapped : s.file ++ s.unwritten = file₀ ++ encodeLog (s.appended.take s.swappedCount)
  buffered : s.logBuffer.take s.logBufferWriteOffset = encodeLog (s.appended.drop s.swappedCount)
  writtenLe : s.writtenCount ≤ s.swappedCount
  swappedLe : s.swappedCount ≤ s.appended.length
  inBounds : s.overrun = false

/-- The numbers of the records, and of what the flush thread has reached. -/
structure Numbered (s : BufferedLog) : Prop where
  waiting : ∀ a r, s.waiting a = some r → r.Built
  next : s.nextLsn = wrapLsn s.appended.length
  records : ∀ (i : Nat) (r : LogRecord), s.appended[i]? = some r → r.lsn = wrapLsn i ∧ r.encode.length = r.size

section Stream

variable {file₀ : Bytes} {s t : BufferedLog} {r : LogRecord}

theorem streams_new (file logBuffer flushBuffer : Bytes) (hlog : logBuffer.length = logBufferSize)
    (hflush : flushBuffer.length = logBufferSize) :
    Streams file (new file logBuffer flushBuffer) where
  logLength := hlog
  flushLength := hflush
  offset := (by decide : 0 < logBufferSize)
  written := by simp [new]
  swapped := by simp [new, unwritten]
  buffered := by simp [new]
  writtenLe := Nat.le_refl _
  swappedLe := Nat.le_refl _
  inBounds := rfl

/-- A record that fits is copied behind the others. -/
theorem copyRecord_fits
    (hfits : s.logBufferWriteOffset + ({ r with lsn := s.nextLsn } : LogRecord).encode.length ≤
      s.logBuffer.length) :
    ∃ buffer, s.copyRecord r = { s with
        logBuffer := buffer
        logBufferWriteOffset :=
          s.logBufferWriteOffset + ({ r with lsn := s.nextLsn } : LogRecord).encode.length
        nextLsn := wrapLsn (s.nextLsn + 1)
        appended := s.appended ++ [{ r with lsn := s.nextLsn }] } ∧
      buffer.length = s.logBuffer.length ∧
      buffer.take (s.logBufferWriteOffset +
          ({ r with lsn := s.nextLsn } : LogRecord).encode.length) =
        s.logBuffer.take s.logBufferWriteOffset ++
          ({ r with lsn := s.nextLsn } : LogRecord).encode := by
  rw [← LogRecord.flatten_pieces] at hfits ⊢
  obtain ⟨buffer, hwrite, hlength, htake⟩ := Bytes.writeAll_of_le _ hfits
  refine ⟨buffer, ?_, hlength, htake⟩
  unfold copyRecord
  rw [hwrite]

/-- A record with the size it says fits whenever it finds room. -/
theorem copyRecord_eq (hlen : s.logBuffer.length = logBufferSize) (hr : r.Built)
    (hroom : ¬ s.full r) :
    ∃ buffer, s.copyRecord r = { s with
        logBuffer := buffer
        logBufferWriteOffset := s.logBufferWriteOffset + r.size
        nextLsn := wrapLsn (s.nextLsn + 1)
        appended := s.appended ++ [{ r with lsn := s.nextLsn }] } ∧
      buffer.length = logBufferSize ∧
      buffer.take (s.logBufferWriteOffset + r.size) =
        s.logBuffer.take s.logBufferWriteOffset ++
          ({ r with lsn := s.nextLsn } : LogRecord).encode := by
  have hsize := hr.encode_length s.nextLsn
  have hfits : s.logBufferWriteOffset +
      ({ r with lsn := s.nextLsn } : LogRecord).encode.length ≤ s.logBuffer.length := by
    unfold full at hroom
    rw [hsize, hlen]
    omega
  have hcopy := copyRecord_fits hfits
  rwa [hsize, hlen] at hcopy

theorem copyRecord_waiting (s : BufferedLog) (r : LogRecord) :
    (s.copyRecord r).waiting = s.waiting := by
  unfold copyRecord
  split <;> rfl

theorem copyRecord_flusher (s : BufferedLog) (r : LogRecord) :
    (s.copyRecord r).flusher = s.flusher := by
  unfold copyRecord
  split <;> rfl

theorem Streams.copyRecord (h : Streams file₀ s) (hr : r.Built) (hroom : ¬ s.full r) :
    Streams file₀ (s.copyRecord r) := by
  obtain ⟨buffer, heq, hlength, htake⟩ := copyRecord_eq h.logLength hr hroom
  have hwrittenLe := Nat.le_trans h.writtenLe h.swappedLe
  rw [heq]
  constructor
  · exact hlength
  · exact h.flushLength
  · exact Nat.lt_of_not_le hroom
  · rw [List.take_append_of_le_length hwrittenLe]
    exact h.written
  · rw [List.take_append_of_le_length h.swappedLe]
    exact h.swapped
  · rw [List.drop_append_of_le_length h.swappedLe, htake, h.buffered]
    simp
  · exact h.writtenLe
  · simp only [List.length_append]
    exact Nat.le_add_right_of_le h.swappedLe
  · exact h.inBounds

theorem Streams.swap (h : Streams file₀ s) (hpc : s.flusher = .waiting) (lsn lsn' : Int) :
    Streams file₀ { s.swapBuffer with flusher := .swapped lsn, flushLsn := lsn' } := by
  have hfile := h.swapped
  simp only [unwritten, hpc, List.append_nil] at hfile
  constructor
  · exact h.flushLength
  · exact h.logLength
  · show 0 < logBufferSize
    decide
  · exact h.written
  · show s.file ++ s.logBuffer.take s.logBufferWriteOffset = _
    rw [hfile, h.buffered, List.append_assoc, ← encodeLog_append, List.take_append_drop]
    simp [swapBuffer]
  · simp [swapBuffer]
  · exact Nat.le_trans h.writtenLe h.swappedLe
  · exact Nat.le_refl _
  · exact h.inBounds

/-- The write takes the flush buffer into the file; the log buffer may have grown
meanwhile. -/
theorem Streams.write (h : Streams file₀ s) {lsn : Int} (hpc : s.flusher = .swapped lsn) :
    Streams file₀ { s with
      file := s.file ++ s.flushBuffer.take s.flushBufferWriteOffset
      flusher := .written lsn
      writtenCount := s.swappedCount } := by
  have hfile := h.swapped
  simp only [unwritten, hpc] at hfile
  constructor
  · exact h.logLength
  · exact h.flushLength
  · exact h.offset
  · exact hfile
  · simpa [unwritten] using hfile
  · exact h.buffered
  · exact Nat.le_refl _
  · exact h.swappedLe
  · exact h.inBounds

/-- Steps that touch neither a buffer nor the file. -/
theorem Streams.of_eq (h : Streams file₀ s) (hlog : t.logBuffer = s.logBuffer)
    (hflush : t.flushBuffer = s.flushBuffer) (hoffset : t.logBufferWriteOffset = s.logBufferWriteOffset)
    (hfile : t.file = s.file) (hunwritten : t.unwritten = s.unwritten)
    (happended : t.appended = s.appended) (hswapped : t.swappedCount = s.swappedCount)
    (hwritten : t.writtenCount = s.writtenCount) (hoverrun : t.overrun = s.overrun) :
    Streams file₀ t := by
  constructor
  · rw [hlog, h.logLength]
  · rw [hflush, h.flushLength]
  · rw [hoffset]
    exact h.offset
  · rw [hfile, happended, hwritten, ← h.written]
  · rw [hfile, hunwritten, happended, hswapped, ← h.swapped]
  · rw [hlog, hoffset, happended, hswapped, ← h.buffered]
  · rw [hwritten, hswapped]
    exact h.writtenLe
  · rw [hswapped, happended]
    exact h.swappedLe
  · rw [hoverrun, h.inBounds]

theorem Numbered.copyRecord (h : Numbered s) (hlen : s.logBuffer.length = logBufferSize)
    (hr : r.Built) (hroom : ¬ s.full r) : Numbered (s.copyRecord r) := by
  obtain ⟨buffer, heq, -, -⟩ := copyRecord_eq hlen hr hroom
  rw [heq]
  refine ⟨h.waiting, ?_, ?_⟩
  · have hlength : ((s.appended ++ [{ r with lsn := s.nextLsn }]).length : Int) =
        (s.appended.length : Int) + 1 := by
      simp
    rw [hlength, h.next, wrapLsn_add]
  · intro i r' hi
    obtain hlt | hge := Nat.lt_or_ge i s.appended.length
    · rw [List.getElem?_append_left hlt] at hi
      exact h.records i r' hi
    · rw [List.getElem?_append_right hge] at hi
      obtain ⟨hz, rfl⟩ := List.getElem?_eq_some_iff.mp hi
      simp only [List.length_singleton] at hz
      have hieq : i = s.appended.length := by omega
      subst hieq
      simp only [Nat.sub_self, List.getElem_singleton]
      exact ⟨h.next, hr.encode_length s.nextLsn⟩

theorem numbered_new (file logBuffer flushBuffer : Bytes) :
    Numbered (new file logBuffer flushBuffer) := by
  constructor <;> simp [new, wrapLsn]

end Stream

/-- A step whose appends are of records that their constructors were used for as
intended, with less than a buffer of bytes. -/
def BuiltStep (s : BufferedLog) (a : LogAction) (t : BufferedLog) : Prop :=
  Step s a t ∧ ∀ i r, a = .append i r → r.Built ∧ r.encode.length < logBufferSize

theorem BuiltStep.keeps {file₀ : Bytes} {s t : BufferedLog} {a : LogAction}
    (hstep : BuiltStep s a t) (h : Streams file₀ s) (hn : Numbered s) :
    Streams file₀ t ∧ Numbered t := by
  cases hstep.1.effect with
  | park i r hfull =>
      refine ⟨h.of_eq rfl rfl rfl rfl rfl rfl rfl rfl rfl, ?_, hn.next, hn.records⟩
      intro i' r' hi
      simp only [Function.update_apply] at hi
      split at hi
      next =>
        obtain rfl := Option.some.inj hi
        exact (hstep.2 i r rfl).1
      next => exact hn.waiting i' r' hi
  | append i r hroom =>
      have hr := (hstep.2 i r rfl).1
      exact ⟨h.copyRecord hr hroom, hn.copyRecord h.logLength hr hroom⟩
  | resume i r hwaits hroom =>
      have hr := hn.waiting i r hwaits
      have hcopied := hn.copyRecord h.logLength hr hroom
      refine ⟨(h.copyRecord hr hroom).of_eq rfl rfl rfl rfl rfl rfl rfl rfl rfl, ?_, hcopied.next,
        hcopied.records⟩
      intro i' r' hi
      simp only [Function.update_apply] at hi
      split at hi
      next => cases hi
      next => exact hn.waiting i' r' hi
  | flush => exact ⟨h.of_eq rfl rfl rfl rfl rfl rfl rfl rfl rfl, hn.waiting, hn.next, hn.records⟩
  | swap hpc hsome => exact ⟨h.swap hpc _ _, hn.waiting, hn.next, hn.records⟩
  | write lsn hpc => exact ⟨h.write hpc, hn.waiting, hn.next, hn.records⟩
  | store lsn hpc =>
      refine ⟨h.of_eq rfl rfl rfl rfl ?_ rfl rfl rfl rfl, hn.waiting, hn.next, hn.records⟩
      simp [unwritten, hpc]
  | clear hpc =>
      refine ⟨h.of_eq rfl rfl rfl rfl ?_ rfl rfl rfl rfl, hn.waiting, hn.next, hn.records⟩
      simp [unwritten, hpc]

/-- The same with records of any size that an `int32_t` counts. -/
def SizedStep (s : BufferedLog) (a : LogAction) (t : BufferedLog) : Prop :=
  Step s a t ∧ ∀ i r, a = .append i r → r.Built ∧ r.size < 2 ^ 31

/-- An append of a record that no buffer holds comes to its wait and no further. -/
theorem SizedStep.built_or_parks {s t : BufferedLog} {a : LogAction} (h : SizedStep s a t) :
    BuiltStep s a t ∨ ∃ i r, r.Built ∧ a = .append i r ∧
      t = { s with needFlush := true, waiting := Function.update s.waiting i (some r) } := by
  cases h.1.effect with
  | park i r hfull => exact .inr ⟨i, r, (h.2 i r rfl).1, rfl, rfl⟩
  | append i r hroom =>
      refine .inl ⟨h.1, ?_⟩
      rintro i' r' heq
      cases heq
      have hr := (h.2 i r rfl).1
      refine ⟨hr, ?_⟩
      rw [show r.encode.length = r.size from hr.encode_length r.lsn]
      have hinside : s.logBufferWriteOffset + r.size < logBufferSize := Nat.lt_of_not_le hroom
      omega
  | _ => exact .inl ⟨h.1, by simp⟩

theorem SizedStep.keeps {file₀ : Bytes} {s t : BufferedLog} {a : LogAction} (hstep : SizedStep s a t)
    (h : Streams file₀ s) (hn : Numbered s) : Streams file₀ t ∧ Numbered t := by
  rcases hstep.built_or_parks with hbuilt | ⟨i, r, hr, rfl, rfl⟩
  · exact hbuilt.keeps h hn
  · refine ⟨h.of_eq rfl rfl rfl rfl rfl rfl rfl rfl rfl, ?_, hn.next, hn.records⟩
    intro i' r' hi
    simp only [Function.update_apply] at hi
    split at hi
    next =>
      obtain rfl := Option.some.inj hi
      exact hr
    next => exact hn.waiting i' r' hi

section Contents

variable {file₀ : Bytes} {s : BufferedLog}

theorem encodeLog_eq_nil_iff {log : List LogRecord} : encodeLog log = [] ↔ log = [] := by
  constructor
  · intro hnil
    cases log with
    | nil => rfl
    | cons r log =>
        have hpos := r.encode_length_pos
        rw [encodeLog_cons, List.append_eq_nil_iff] at hnil
        rw [hnil.1] at hpos
        exact absurd hpos (Nat.lt_irrefl 0)
  · rintro rfl
    rfl

theorem Streams.drop_eq_nil_iff (h : Streams file₀ s) :
    s.appended.drop s.swappedCount = [] ↔ s.swappedCount = s.appended.length := by
  rw [List.drop_eq_nil_iff]
  constructor
  · exact Nat.le_antisymm h.swappedLe
  · exact fun heq => heq.ge

/-- The log buffer is empty exactly if all records have been swapped. -/
theorem Streams.offset_eq_zero_iff (h : Streams file₀ s) :
    s.logBufferWriteOffset = 0 ↔ s.swappedCount = s.appended.length := by
  rw [← h.drop_eq_nil_iff, ← encodeLog_eq_nil_iff, ← h.buffered, ← List.length_eq_zero_iff,
    List.length_take, h.logLength, Nat.min_eq_left h.offset.le]

/-- Outside of its rounds the flush thread has left nothing but the log buffer. -/
theorem Streams.file_eq_iff (h : Streams file₀ s) (hpc : s.flusher = .waiting) :
    s.file = file₀ ++ encodeLog s.appended ↔ s.swappedCount = s.appended.length := by
  have hswapped : s.file = file₀ ++ encodeLog (s.appended.take s.swappedCount) := by
    rw [← h.swapped, unwritten, hpc, List.append_nil]
  have hsplit : encodeLog s.appended = encodeLog (s.appended.take s.swappedCount) ++
      encodeLog (s.appended.drop s.swappedCount) := by
    rw [← encodeLog_append, List.take_append_drop]
  rw [← h.drop_eq_nil_iff, ← encodeLog_eq_nil_iff, hswapped, hsplit, List.append_cancel_left_eq,
    List.self_eq_append_right]

/-- The records that have been written are in the file. -/
theorem Streams.prefix_of_le (h : Streams file₀ s) {n : Nat} (hle : n ≤ s.writtenCount) :
    file₀ ++ encodeLog (s.appended.take n) <+: s.file := by
  have hsplit := List.take_append_drop n (s.appended.take s.writtenCount)
  rw [List.take_take, Nat.min_eq_left hle] at hsplit
  rw [h.written, ← hsplit, encodeLog_append, ← List.append_assoc]
  exact List.prefix_append _ _

end Contents

/-- The file, a swapped buffer that is not written yet and the log buffer hold the
appended records, in order and each in its size, and no append has left the
buffer. -/
structure ExactStream (file₀ : Bytes) (s : BufferedLog) : Prop where
  stream : s.file ++ s.unwritten ++ s.logBuffer.take s.logBufferWriteOffset =
    file₀ ++ encodeLog s.appended
  sizes : ∀ r ∈ s.appended, r.encode.length = r.size
  inBounds : s.overrun = false

def LsnOrdered (s : BufferedLog) : Prop :=
  s.appended.Pairwise (fun first second => first.lsn < second.lsn)

section Runs

variable {file logBuffer flushBuffer : Bytes} {trace : List LogAction} {s t : BufferedLog}

theorem Streams.exactStream {file₀ : Bytes} (h : Streams file₀ s) (hn : Numbered s) :
    ExactStream file₀ s where
  stream := by
    rw [h.swapped, h.buffered, List.append_assoc, ← encodeLog_append, List.take_append_drop]
  sizes := by
    intro r hr
    obtain ⟨i, hi⟩ := List.getElem?_of_mem hr
    exact (hn.records i r hi).2
  inBounds := h.inBounds

theorem wrapLsn_of_lt {n : Nat} (h : n < 2 ^ 31) : wrapLsn n = n := by
  unfold wrapLsn
  rw [Int.bmod_def]
  omega

theorem Numbered.lsnOrdered (hn : Numbered s) (hshort : s.appended.length ≤ 2 ^ 31) :
    LsnOrdered s := by
  apply List.pairwise_iff_getElem.mpr
  intro i j hi hj hij
  have hfirst := (hn.records i _ (List.getElem?_eq_getElem hi)).1
  have hsecond := (hn.records j _ (List.getElem?_eq_getElem hj)).1
  rw [wrapLsn_of_lt (by omega)] at hfirst hsecond
  omega

theorem run_streams (hlog : logBuffer.length = logBufferSize)
    (hflush : flushBuffer.length = logBufferSize)
    (hrun : Lts.Run BuiltStep (new file logBuffer flushBuffer) trace t) :
    Streams file t ∧ Numbered t :=
  hrun.preserves (fun s => Streams file s ∧ Numbered s)
    (fun _ _ _ hstep h => hstep.keeps h.1 h.2)
    ⟨streams_new file logBuffer flushBuffer hlog hflush,
      numbered_new file logBuffer flushBuffer⟩

/-- In every interleaving of appenders with the flush thread the log is the stream
of the appended records; their numbers increase as long as an `int32_t` counts
them. -/
theorem log_is_exact_stream (hlog : logBuffer.length = logBufferSize)
    (hflush : flushBuffer.length = logBufferSize)
    (hrun : Lts.Run BuiltStep (new file logBuffer flushBuffer) trace t) :
    ExactStream file t ∧ (t.appended.length ≤ 2 ^ 31 → LsnOrdered t) := by
  obtain ⟨h, hn⟩ := run_streams hlog hflush hrun
  exact ⟨h.exactStream hn, hn.lsnOrdered⟩

/-- Everything appended so far is in the file, and the flush thread waits. -/
structure Quiet (n : Nat) (s : BufferedLog) : Prop where
  logLength : s.logBuffer.length = logBufferSize
  flushLength : s.flushBuffer.length = logBufferSize
  offset : s.logBufferWriteOffset = 0
  flusher : s.flusher = .waiting
  idle : s.waiting 0 = none
  appended : s.appended.length = n

/-- A record is appended, and the flush thread makes a round. -/
theorem Quiet.round {n : Nat} {r : LogRecord} (h : Quiet n s) (hr : r.Built)
    (hsize : r.size < logBufferSize) :
    ∃ trace t, Lts.Run BuiltStep s trace t ∧ Quiet (n + 1) t := by
  have hroom : ¬ s.full r := by
    unfold full
    rw [h.offset]
    omega
  obtain ⟨buffer, heq, hlength, -⟩ := copyRecord_eq h.logLength hr hroom
  have happend : BuiltStep s (.append 0 r) (s.copyRecord r) := by
    refine ⟨?_, ?_⟩
    · simp [Step, step, h.idle, hroom]
    · rintro i r' heq
      cases heq
      exact ⟨hr, hr.encode_length r.lsn ▸ hsize⟩
  have hswap (u : BufferedLog) (hu : u = s.copyRecord r) :
      BuiltStep u .swap { u.swapBuffer with
        flusher := .swapped (wrapLsn (u.nextLsn - 1))
        flushLsn := wrapLsn (u.nextLsn - 1) } := by
    have hsome : 0 < s.logBufferWriteOffset + r.size := Nat.add_pos_right _ hr.size_pos
    rw [heq] at hu
    subst hu
    exact ⟨if_pos ⟨h.flusher, hsome⟩, by simp⟩
  refine ⟨[.append 0 r, .swap, .write, .store, .clear], _,
    .cons happend (.cons (hswap _ rfl) (.cons ⟨rfl, by simp⟩ (.cons ⟨rfl, by simp⟩
      (.cons ⟨rfl, by simp⟩ (.nil _))))), ?_⟩
  rw [heq]
  exact ⟨h.flushLength, hlength, rfl, rfl, h.idle, by simp [swapBuffer, h.appended]⟩

theorem Quiet.rounds {n : Nat} (h : Quiet n s) (k : Nat) :
    ∃ trace t, Lts.Run BuiltStep s trace t ∧ Quiet (n + k) t := by
  induction k with
  | zero => exact ⟨[], s, .nil s, h⟩
  | succ k ih =>
      obtain ⟨trace, t, hrun, ht⟩ := ih
      obtain ⟨trace', u, hrun', hu⟩ :=
        ht.round (.ofTxn 1 invalidLsn .begin (.inl rfl)) (by decide)
      exact ⟨trace ++ trace', u, hrun.append hrun', hu⟩

theorem quiet_new (hlog : logBuffer.length = logBufferSize)
    (hflush : flushBuffer.length = logBufferSize) : Quiet 0 (new file logBuffer flushBuffer) :=
  ⟨hlog, hflush, rfl, rfl, rfl, rfl⟩

/-- A buffer as the constructor allocates it. -/
theorem exists_buffer : ∃ buffer : Bytes, buffer.length = logBufferSize :=
  ⟨List.replicate logBufferSize 0, List.length_replicate⟩

/-- The first append of a log manager. -/
theorem firstAppend {r : LogRecord} (hlog : logBuffer.length = logBufferSize) (hr : r.Built)
    (hsize : r.size < logBufferSize) :
    ∃ s, Step (new file logBuffer flushBuffer) (.append 0 r) s ∧
      s.appended = [{ r with lsn := 0 }] ∧ s.flusher = .waiting ∧
      s.logBufferWriteOffset = r.size ∧ s.nextLsn = 1 ∧ s.file = file ∧
      s.waiting = fun _ => none := by
  have hroom : ¬ (new file logBuffer flushBuffer).full r := by
    show ¬ 0 + r.size ≥ logBufferSize
    omega
  obtain ⟨buffer, heq, -⟩ := copyRecord_eq (s := new file logBuffer flushBuffer) hlog hr hroom
  refine ⟨_, if_neg hroom, ?_⟩
  rw [heq]
  exact ⟨rfl, rfl, Nat.zero_add _, rfl, rfl, rfl⟩

end Runs

/-- Two records, each in a round of its own. -/
theorem twoRounds_exact_stream :
    ∃ t : BufferedLog, t.appended.length = 2 ∧ ExactStream [] t ∧
      (t.appended.length ≤ 2 ^ 31 → LsnOrdered t) := by
  obtain ⟨buffer, hbuffer⟩ := exists_buffer
  obtain ⟨trace, t, hrun, ht⟩ := (@quiet_new [] buffer buffer hbuffer hbuffer).rounds 2
  exact ⟨t, ht.appended, log_is_exact_stream hbuffer hbuffer hrun⟩

/-- A begin record from the constructor for inserts and deletes says that it has 34
bytes and is written with 24. -/
theorem mistyped_record_size (hbuffer : (List.replicate logBufferSize (0 : UInt8)).length =
      logBufferSize) :
    ¬ ExactStream [] ((new [] (List.replicate logBufferSize 0) (List.replicate logBufferSize 0)).copyRecord
      (.ofWrite 1 invalidLsn .begin [107] [118])) := by
  intro h
  obtain ⟨buffer, heq, -⟩ := @copyRecord_fits
    (new [] (List.replicate logBufferSize 0) (List.replicate logBufferSize 0))
    (.ofWrite 1 invalidLsn .begin [107] [118]) (by
      show 0 + _ ≤ (List.replicate logBufferSize (0 : UInt8)).length
      rw [hbuffer]
      decide)
  have hsizes := h.sizes
  rw [heq] at hsizes
  exact absurd (hsizes _ (List.mem_append_right _ (List.mem_singleton_self _))) (by decide)

/-- Neither the types nor the number of records are without limit: a record whose
type its constructor is not meant for breaks the sizes, and behind 2^31 records the
numbers are negative. -/
theorem log_stream_limits :
    (¬ ∀ (file logBuffer flushBuffer : Bytes) (trace : List LogAction) (t : BufferedLog),
      logBuffer.length = logBufferSize → flushBuffer.length = logBufferSize →
      Lts.Run (fun s a t => Step s a t ∧
          ∀ i r, a = .append i r → r.Constructed ∧ r.encode.length < logBufferSize)
        (new file logBuffer flushBuffer) trace t → ExactStream file t) ∧
    (¬ ∀ (file logBuffer flushBuffer : Bytes) (trace : List LogAction) (t : BufferedLog),
      logBuffer.length = logBufferSize → flushBuffer.length = logBufferSize →
      Lts.Run BuiltStep (new file logBuffer flushBuffer) trace t → LsnOrdered t) := by
  have hbuffer : (List.replicate logBufferSize (0 : UInt8)).length = logBufferSize :=
    List.length_replicate
  constructor
  · intro hall
    refine mistyped_record_size hbuffer (hall [] _ _
      [.append 0 (.ofWrite 1 invalidLsn .begin [107] [118])] _ hbuffer hbuffer (.single ⟨rfl, ?_⟩))
    intro i r heq
    cases heq
    exact ⟨.ofWrite _ _ _ _ _, by decide⟩
  · intro hall
    obtain ⟨trace, t, hrun, ht⟩ := (@quiet_new [] _ _ hbuffer hbuffer).rounds (2 ^ 31 + 1)
    have hordered := hall _ _ _ _ _ hbuffer hbuffer hrun
    obtain ⟨-, hn⟩ := run_streams hbuffer hbuffer hrun
    have hlength : t.appended.length = 2 ^ 31 + 1 := by
      rw [ht.appended, Nat.zero_add]
    have hfirst : 0 < t.appended.length := by omega
    have hlast : 2 ^ 31 < t.appended.length := by omega
    have hlt := List.pairwise_iff_getElem.mp hordered 0 (2 ^ 31) hfirst hlast (by decide)
    rw [(hn.records 0 _ (List.getElem?_eq_getElem hfirst)).1,
      (hn.records (2 ^ 31) _ (List.getElem?_eq_getElem hlast)).1] at hlt
    exact absurd hlt (by decide)

section Decoding

variable {s : BufferedLog} {r : LogRecord}

/-- An append that finds room leaves the record in the buffer, where the decoder
reads it back. -/
theorem copyRecord_decodes (hlen : s.logBuffer.length = logBufferSize) (hr : r.Built)
    (hroom : ¬ s.full r) (hlsn : -2 ^ 31 ≤ s.nextLsn ∧ s.nextLsn < 2 ^ 31)
    (hprev : -2 ^ 31 ≤ r.prevLsn ∧ r.prevLsn < 2 ^ 31) :
    LogRecord.deserializeFrom (s.copyRecord r).logBuffer s.logBufferWriteOffset =
      some ({ r with lsn := s.nextLsn } : LogRecord).decoded := by
  obtain ⟨buffer, heq, -, htake⟩ := copyRecord_eq hlen hr hroom
  have hinside : s.logBufferWriteOffset + r.size < logBufferSize := Nat.lt_of_not_le hroom
  have hbuffer : buffer = s.logBuffer.take s.logBufferWriteOffset ++
      ({ r with lsn := s.nextLsn } : LogRecord).encode ++
        buffer.drop (s.logBufferWriteOffset + r.size) := by
    rw [← htake, List.take_append_drop]
  have hoffset : s.logBufferWriteOffset = (s.logBuffer.take s.logBufferWriteOffset).length := by
    rw [List.length_take, hlen]
    omega
  rw [heq]
  exact (hr.storable (by omega) hlsn hprev).deserializeFrom hbuffer hoffset

/-- Of the records that the system appends, those that are no `PREPARED` come back
from the buffer as they were appended. -/
theorem append_decodes_iff (hlen : s.logBuffer.length = logBufferSize) (hr : r.Built)
    (hroom : ¬ s.full r) (hlsn : -2 ^ 31 ≤ s.nextLsn ∧ s.nextLsn < 2 ^ 31)
    (hprev : -2 ^ 31 ≤ r.prevLsn ∧ r.prevLsn < 2 ^ 31) :
    LogRecord.deserializeFrom (s.copyRecord r).logBuffer s.logBufferWriteOffset =
        some { r with lsn := s.nextLsn } ↔
      r.logType ≠ .prepared := by
  rw [copyRecord_decodes hlen hr hroom hlsn hprev, Option.some.injEq]
  exact LogRecord.decoded_eq_iff _

/-- The first record of a log, in buffers that hold zeros. -/
theorem insert_decodes :
    LogRecord.deserializeFrom
        ((new [] (List.replicate logBufferSize 0) (List.replicate logBufferSize 0)).copyRecord
          (.ofWrite 1 invalidLsn .insert [107] [118])).logBuffer 0 =
      some { LogRecord.ofWrite 1 invalidLsn .insert [107] [118] with lsn := 0 } :=
  (append_decodes_iff (s := new [] (List.replicate logBufferSize 0) (List.replicate logBufferSize 0))
    List.length_replicate (.ofWrite 1 invalidLsn .insert [107] [118] (by decide)) (by decide)
    (by decide) (by decide)).mpr (by decide)

/-- A `PREPARED` of transaction 1 comes back without type, transaction and size. -/
theorem prepared_decodes_to_default :
    LogRecord.deserializeFrom
        ((new [] (List.replicate logBufferSize 0) (List.replicate logBufferSize 0)).copyRecord
          (.ofTxn 1 7 .prepared)).logBuffer 0 =
      some { LogRecord.empty with lsn := 0 } ∧
    ({ LogRecord.empty with lsn := 0 } : LogRecord) ≠ { LogRecord.ofTxn 1 7 .prepared with lsn := 0 } := by
  refine ⟨?_, by decide⟩
  exact copyRecord_decodes
    (s := new [] (List.replicate logBufferSize 0) (List.replicate logBufferSize 0))
    List.length_replicate (.ofTxn 1 7 .prepared (by decide)) (by decide) (by decide) (by decide)

end Decoding

end BufferedLog

end RucDDBS
