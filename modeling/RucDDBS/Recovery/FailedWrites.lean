import RucDDBS.Recovery.Durability

/-!
`persistent_lsn_` on a disk that fails. `WriteLog` reports an I/O error to `std::cerr`
and returns nothing, and the flush thread stores the number of the swapped records in
any case. As long as no write fails the number is sound in every interleaving; the
first store behind a failed write makes it wrong.
-/

namespace RucDDBS

inductive DiskAction where
  /-- a step of the log manager, whose writes succeed -/
  | log (a : LogAction)
  /-- `WriteLog` meets an I/O error and writes nothing -/
  | writeFails
  deriving DecidableEq, Repr

namespace BufferedLog

/-- The history takes no notice of a failed write. -/
def diskStep (s : BufferedLog) : DiskAction → Option BufferedLog
  | .log a => s.step a
  | .writeFails =>
      match s.flusher with
      | .swapped lsn => some { s with flusher := .written lsn }
      | _ => none

def DiskStep (s : BufferedLog) (a : DiskAction) (t : BufferedLog) : Prop :=
  s.diskStep a = some t ∧ ∀ i r, a = .log (.append i r) → r.Built ∧ r.size < 2 ^ 31

/-- A record with a number up to `persistent_lsn_` is in the file, and so are all
records before it. -/
def PersistentSound (file₀ : Bytes) (s : BufferedLog) : Prop :=
  ∀ i r, s.appended[i]? = some r → r.lsn ≤ s.persistentLsn →
    file₀ ++ encodeLog (s.appended.take (i + 1)) <+: s.file

/-- What holds until a write fails. -/
structure Undamaged (file₀ : Bytes) (s : BufferedLog) : Prop where
  streams : Streams file₀ s
  numbered : Numbered s
  persisted : Persisted s
  swapped : ∀ lsn, s.flusher = .swapped lsn → s.writtenCount < s.swappedCount

section Rounds

variable {file₀ : Bytes} {s t : BufferedLog} {a : LogAction}

theorem Undamaged.copyRecord_swapped {r : LogRecord} (h : Undamaged file₀ s) (hr : r.Built)
    (hroom : ¬ s.full r) :
    ∀ lsn, (s.copyRecord r).flusher = .swapped lsn →
      (s.copyRecord r).writtenCount < (s.copyRecord r).swappedCount := by
  obtain ⟨hflusher, hswapped, hwritten, -⟩ := copyRecord_frame h.streams.logLength hr hroom
  rw [hflusher, hswapped, hwritten]
  exact h.swapped

/-- A round is only begun with something to write. -/
theorem SizedStep.undamaged (hstep : SizedStep s a t) (h : Undamaged file₀ s) :
    Undamaged file₀ t := by
  obtain ⟨hstreams, hnumbered⟩ := hstep.keeps h.streams h.numbered
  refine ⟨hstreams, hnumbered, hstep.persisted h.streams h.numbered h.persisted, ?_⟩
  cases hstep.1.effect with
  | park i r hfull => exact h.swapped
  | append i r hroom => exact h.copyRecord_swapped (hstep.2 i r rfl).1 hroom
  | resume i r hwaits hroom => exact h.copyRecord_swapped (h.numbered.waiting i r hwaits) hroom
  | flush => exact h.swapped
  | swap hpc hsome =>
      intro lsn hlsn
      have hpending : s.swappedCount ≠ s.appended.length := by
        intro hall
        have hempty := h.streams.offset_eq_zero_iff.mpr hall
        omega
      have hlt := Nat.lt_of_le_of_ne h.streams.swappedLe hpending
      exact Nat.lt_of_le_of_lt h.streams.writtenLe hlt
  | write lsn hpc => simp
  | store lsn hpc => simp
  | clear hpc => simp

theorem Undamaged.sound (h : Undamaged file₀ s) (hshort : s.appended.length ≤ 2 ^ 31) :
    PersistentSound file₀ s := by
  intro i r hr hle
  have hlt := (List.getElem?_eq_some_iff.mp hr).1
  have hstored := Nat.le_trans (Nat.le_trans h.persisted.storedLe h.streams.writtenLe)
    h.streams.swappedLe
  rw [(h.numbered.records i r hr).1, wrapLsn_of_lt (by omega),
    h.persisted.persistentLsn_eq (by omega)] at hle
  have hbefore := h.persisted.storedLe
  apply h.streams.prefix_of_le
  omega

/-- The store behind a failed write publishes records that are in no file. -/
theorem Undamaged.unsound {u v : BufferedLog} (h : Undamaged file₀ s)
    (hshort : s.appended.length ≤ 2 ^ 31) (hfails : DiskStep s .writeFails u)
    (hstore : DiskStep u (.log .store) v) : ¬ PersistentSound file₀ v := by
  obtain ⟨lsn, hpc, rfl⟩ : ∃ lsn, s.flusher = .swapped lsn ∧
      u = { s with flusher := .written lsn } := by
    have hstep := hfails.1
    simp only [diskStep] at hstep
    split at hstep
    next lsn hpc => exact ⟨lsn, hpc, (Option.some.inj hstep).symm⟩
    next => cases hstep
  obtain rfl := Option.some.inj hstore.1
  intro hsound
  have hlt := h.swapped lsn hpc
  have hle := h.streams.swappedLe
  obtain ⟨r, hr⟩ : ∃ r, s.appended[s.writtenCount]? = some r :=
    ⟨_, List.getElem?_eq_getElem (by omega)⟩
  have hlsn : r.lsn ≤ lsn := by
    rw [(h.numbered.records _ r hr).1, wrapLsn_of_lt (by omega), h.persisted.swapped lsn hpc,
      wrapLsn, Int.bmod_def]
    omega
  -- the file ends with the record before it
  have hprefix := (hsound s.writtenCount r hr hlsn).length_le
  have htake : s.appended.take (s.writtenCount + 1) = s.appended.take s.writtenCount ++ [r] := by
    rw [List.take_add_one, hr]
    rfl
  have hpos := r.encode_length_pos
  simp only [htake, h.streams.written, encodeLog_append, encodeLog_cons, encodeLog_nil,
    List.length_append, List.length_nil] at hprefix
  omega

end Rounds

section Runs

variable {file logBuffer flushBuffer : Bytes} {trace : List DiskAction} {s t : BufferedLog}

theorem undamaged_new (hlog : logBuffer.length = logBufferSize)
    (hflush : flushBuffer.length = logBufferSize) :
    Undamaged file (new file logBuffer flushBuffer) where
  streams := streams_new file logBuffer flushBuffer hlog hflush
  numbered := numbered_new file logBuffer flushBuffer
  persisted := persisted_new file logBuffer flushBuffer
  swapped := by simp [new]

theorem run_undamaged (hlog : logBuffer.length = logBufferSize)
    (hflush : flushBuffer.length = logBufferSize)
    (hrun : Lts.Run DiskStep (new file logBuffer flushBuffer) trace t)
    (hwrites : .writeFails ∉ trace) : Undamaged file t := by
  apply hrun.preserves_labels (Undamaged file) (fun a => a ≠ .writeFails)
  · intro s a t hstep hgood h
    cases a with
    | log a =>
        apply SizedStep.undamaged (a := a) _ h
        refine ⟨hstep.1, ?_⟩
        rintro i r rfl
        exact hstep.2 i r rfl
    | writeFails => exact absurd rfl hgood
  · rintro a ha rfl
    exact hwrites ha
  · exact undamaged_new hlog hflush

/-- As long as no write fails, in every interleaving of appends with the flush thread all
records up to `persistent_lsn_` are in the file. If a write fails, they are not from the next
store on. -/
theorem persistent_lsn_sound (hlog : logBuffer.length = logBufferSize)
    (hflush : flushBuffer.length = logBufferSize)
    (hrun : Lts.Run DiskStep (new file logBuffer flushBuffer) trace t)
    (hwrites : .writeFails ∉ trace) (hshort : t.appended.length ≤ 2 ^ 31) :
    PersistentSound file t ∧
      ∀ u v, DiskStep t .writeFails u → DiskStep u (.log .store) v → ¬ PersistentSound file v := by
  have h := run_undamaged hlog hflush hrun hwrites
  refine ⟨h.sound hshort, ?_⟩
  intro u v hfails hstore
  exact h.unsound hshort hfails hstore

theorem store_step {lsn : Int} (hpc : s.flusher = .written lsn) :
    DiskStep s (.log .store)
      { s with persistentLsn := lsn, flusher := .stored, storedCount := s.writtenCount } := by
  refine ⟨?_, by simp⟩
  simp [diskStep, step, hpc]

/-- The first append and its swap. -/
theorem firstRound (hlog : logBuffer.length = logBufferSize) :
    ∃ s, Lts.Run DiskStep (new file logBuffer flushBuffer)
        [.log (.append 0 (.ofTxn 1 invalidLsn .begin)), .log .swap] s ∧
      s.appended = [{ LogRecord.ofTxn 1 invalidLsn .begin with lsn := 0 }] ∧
      s.flusher = .swapped 0 ∧ s.file = file := by
  have hr : LogRecord.Built (.ofTxn 1 invalidLsn .begin) := .ofTxn 1 invalidLsn .begin (.inl rfl)
  obtain ⟨s, happend, happended, hpc, hoffset, hnext, hfile, -⟩ :=
    @firstAppend file logBuffer flushBuffer _ hlog hr (by decide)
  have hfirst : DiskStep (new file logBuffer flushBuffer)
      (.log (.append 0 (.ofTxn 1 invalidLsn .begin))) s := by
    refine ⟨happend, ?_⟩
    rintro i r heq
    cases heq
    exact ⟨hr, by decide⟩
  have hsome : 0 < s.logBufferWriteOffset := by
    rw [hoffset]
    decide
  refine ⟨_, .cons hfirst (.single ⟨if_pos ⟨hpc, hsome⟩, by simp⟩), happended, ?_, hfile⟩
  rw [hnext]
  rfl

/-- A record that is written and stored, and the fault that may hit the next write. -/
theorem storedRound_sound :
    ∃ t : BufferedLog, t.appended.length = 1 ∧ t.persistentLsn = 0 ∧ PersistentSound [] t ∧
      ∀ u v, DiskStep t .writeFails u → DiskStep u (.log .store) v → ¬ PersistentSound [] v := by
  obtain ⟨buffer, hbuffer⟩ := exists_buffer
  obtain ⟨s, hrun, happended, hpc, -⟩ := @firstRound [] buffer buffer hbuffer
  have hwrite : DiskStep s (.log .write) { s with
      file := s.file ++ s.flushBuffer.take s.flushBufferWriteOffset
      flusher := .written 0
      writtenCount := s.swappedCount } := by
    refine ⟨?_, by simp⟩
    simp [diskStep, step, hpc]
  have hround := hrun.append (.cons hwrite (.single (store_step rfl)))
  refine ⟨_, by simp [happended], rfl,
    persistent_lsn_sound hbuffer hbuffer hround (by simp) (by simp [happended])⟩

/-- The only write fails: the number of the record is stored, and the file is empty. -/
theorem failedWrite_published :
    ∃ (logBuffer flushBuffer : Bytes) (t : BufferedLog),
      Lts.Run DiskStep (new [] logBuffer flushBuffer)
        [.log (.append 0 (.ofTxn 1 invalidLsn .begin)), .log .swap, .writeFails, .log .store] t ∧
      t.appended.map LogRecord.lsn = [0] ∧ t.persistentLsn = 0 ∧ t.file = [] := by
  obtain ⟨buffer, hbuffer⟩ := exists_buffer
  obtain ⟨s, hrun, happended, hpc, hfile⟩ := @firstRound [] buffer buffer hbuffer
  have hfails : DiskStep s .writeFails { s with flusher := .written 0 } := by
    refine ⟨?_, by simp⟩
    simp [diskStep, hpc]
  have hround := hrun.append (.cons hfails (.single (store_step rfl)))
  exact ⟨buffer, buffer, _, hround, by simp [happended], rfl, hfile⟩

end Runs

end BufferedLog

end RucDDBS
