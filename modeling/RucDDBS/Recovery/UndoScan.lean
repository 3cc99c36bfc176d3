import RucDDBS.Recovery.TxnLog

/-!
The order in which `Undo` goes through the log. Its set holds the last record of
each unfinished transaction that has not been undone; the greatest number in it
is that of the last such record of all, and following its `prev_lsn` gives the
set for the records before it. So the loop meets the records of the unfinished
transactions from the end of the log to its start, each once.

Nothing is needed for this but that the numbers grow along the file and that
each record points to the one before it of its transaction.
-/

namespace RucDDBS

/-- `r` may follow the records of `log`: it has a greater number, and it points to
the record before it of the same transaction. -/
structure Follows (log : List LogRecord) (r : LogRecord) : Prop where
  increasing : ∀ r' ∈ log, r'.lsn < r.lsn
  valid : r.lsn ≠ invalidLsn
  prevLsn : r.prevLsn = lastLsn log r.txnId

/-- Increasing numbers, and a chain through the records of each transaction. -/
inductive LinkedLog : List LogRecord → Prop
  | nil : LinkedLog []
  | snoc {log : List LogRecord} {r : LogRecord} :
      LinkedLog log → Follows log r → LinkedLog (log ++ [r])

namespace LinkedLog

variable {log : List LogRecord} {r : LogRecord} {txnId : TxnId}

theorem of_snoc (h : LinkedLog (log ++ [r])) : LinkedLog log ∧ Follows log r := by
  generalize hfull : log ++ [r] = full at h
  cases h with
  | nil => simp at hfull
  | snoc hlog hr =>
      obtain ⟨rfl, hlast⟩ := List.append_inj' hfull rfl
      cases hlast
      exact ⟨hlog, hr⟩

theorem of_append {first second : List LogRecord} (h : LinkedLog (first ++ second)) :
    LinkedLog first := by
  induction second using List.reverseRecOn with
  | nil => simpa using h
  | append_singleton second r ih =>
      rw [← List.append_assoc] at h
      exact ih h.of_snoc.1

theorem valid (h : LinkedLog log) (hr : r ∈ log) : r.lsn ≠ invalidLsn := by
  induction h with
  | nil => cases hr
  | @snoc log r' _ hfollows ih =>
      rcases List.mem_append.mp hr with hr | hr
      · exact ih hr
      · rw [List.mem_singleton.mp hr]
        exact hfollows.valid

theorem pairwise (h : LinkedLog log) : log.Pairwise fun r r' => r.lsn < r'.lsn := by
  induction h with
  | nil => exact .nil
  | @snoc log r _ hfollows ih =>
      rw [List.pairwise_append]
      refine ⟨ih, List.pairwise_singleton _ _, ?_⟩
      intro r' hr' last hlast
      rw [List.mem_singleton.mp hlast]
      exact hfollows.increasing r' hr'

end LinkedLog

/-- The last number of a transaction is that of one of its records. -/
theorem exists_lastLsn {log : List LogRecord} {txnId : TxnId} (h : appears log txnId = true) :
    ∃ r ∈ log, r.txnId = txnId ∧ lastLsn log txnId = r.lsn := by
  induction log using List.reverseRecOn with
  | nil => cases h
  | append_singleton log r ih =>
      rw [lastLsn_append]
      by_cases htxn : r.txnId = txnId
      · exact ⟨r, by simp, htxn, if_pos htxn⟩
      · rw [appears_append] at h
        obtain ⟨r', hr', htxn', hlast⟩ := ih (by simpa [htxn] using h)
        refine ⟨r', by simp [hr'], htxn', ?_⟩
        rw [if_neg htxn, hlast]

theorem appears_of_mem {log : List LogRecord} {r : LogRecord} (h : r ∈ log) :
    appears log r.txnId = true := by
  simp only [appears, List.any_eq_true]
  exact ⟨r, h, by simp⟩

theorem LinkedLog.lastLsn_eq_invalid {log : List LogRecord} (h : LinkedLog log) (txnId : TxnId) :
    lastLsn log txnId = invalidLsn ↔ appears log txnId = false := by
  constructor
  · intro hlast
    rw [← Bool.not_eq_true]
    intro happears
    obtain ⟨r, hr, _, heq⟩ := exists_lastLsn happears
    exact h.valid hr (heq.symm.trans hlast)
  · intro happears
    have hnone : ∀ r ∈ log, ¬ r.txnId = txnId := by simpa [appears] using happears
    clear h happears
    induction log using List.reverseRecOn with
    | nil => rfl
    | append_singleton log r ih =>
        rw [lastLsn_append, if_neg (hnone r (by simp))]
        exact ih fun r' hr' => hnone r' (by simp [hr'])

/-- The logs of transactions are linked. -/
theorem Appended.linked {log : List LogRecord} (h : Appended log) : LinkedLog log := by
  induction h with
  | nil => exact .nil
  | @snoc log r hlog hallowed ih =>
      have hlsn := hallowed.lsn
      refine ih.snoc ⟨?_, ?_, hallowed.prevLsn⟩
      · intro r' hr'
        have hbounds := hlog.lsn_bounds hr'
        omega
      · rw [invalidLsn]
        omega

namespace RecoveryManager

/-- The last records in `done` of the unfinished transactions of `log`. -/
def pending (log done : List LogRecord) : Finset Int :=
  ((done.filter fun r => !finished log r.txnId).map fun r => lastLsn done r.txnId).toFinset

/-- The records in `done` of transactions that `log` does not finish. -/
def openRecords (log done : List LogRecord) : List LogRecord :=
  done.filter fun r => !finished log r.txnId

variable {m : RecoveryManager} {r : LogRecord} {log done later : List LogRecord} {file : Bytes}
  {rounds : Nat}

theorem mem_pending {lsn : Int} : lsn ∈ pending log done ↔
    ∃ r ∈ done, finished log r.txnId = false ∧ lastLsn done r.txnId = lsn := by
  simp [pending, and_assoc]

theorem openRecords_snoc (log done : List LogRecord) (r : LogRecord) :
    openRecords log (done ++ [r]) = openRecords log done ++
      if finished log r.txnId = true then [] else [r] := by
  simp [openRecords, List.filter_singleton]

section Pending

/-- A record of a finished transaction is not waited for. -/
theorem pending_snoc_finished (hdone : finished log r.txnId = true) :
    pending log (done ++ [r]) = pending log done := by
  ext lsn
  rw [mem_pending, mem_pending]
  constructor
  · rintro ⟨r', hr', hopen, hlast⟩
    have hne : ¬ r.txnId = r'.txnId := by
      intro heq
      rw [← heq, hdone] at hopen
      cases hopen
    rw [lastLsn_append, if_neg hne] at hlast
    rcases List.mem_append.mp hr' with hr' | hr'
    · exact ⟨r', hr', hopen, hlast⟩
    · rw [List.mem_singleton.mp hr'] at hne
      exact absurd rfl hne
  · rintro ⟨r', hr', hopen, hlast⟩
    have hne : ¬ r.txnId = r'.txnId := by
      intro heq
      rw [← heq, hdone] at hopen
      cases hopen
    refine ⟨r', by simp [hr'], hopen, ?_⟩
    rw [lastLsn_append, if_neg hne]
    exact hlast

/-- A transaction that is waited for has a smaller number than the next record. -/
theorem Follows.lastLsn_lt (h : Follows done r) {r' : LogRecord} (hr' : r' ∈ done) :
    lastLsn done r'.txnId < r.lsn := by
  obtain ⟨last, hlast, _, heq⟩ := exists_lastLsn (appears_of_mem hr')
  rw [heq]
  exact h.increasing last hlast

/-- The last record of an unfinished transaction has the greatest number. -/
theorem pending_snoc_max (hr : Follows done r) (hopen : finished log r.txnId = false) :
    (pending log (done ++ [r])).max = some r.lsn := by
  have hmem : r.lsn ∈ pending log (done ++ [r]) := by
    rw [mem_pending]
    exact ⟨r, by simp, hopen, by rw [lastLsn_append, if_pos rfl]⟩
  apply le_antisymm _ (Finset.le_max hmem)
  apply Finset.max_le
  intro lsn hlsn
  obtain ⟨r', hr', _, hlast⟩ := mem_pending.mp hlsn
  apply WithBot.coe_le_coe.mpr
  rw [lastLsn_append] at hlast
  split at hlast
  case isTrue => exact hlast.ge
  case isFalse hne =>
    rcases List.mem_append.mp hr' with hr' | hr'
    · rw [← hlast]
      exact (Follows.lastLsn_lt hr hr').le
    · rw [List.mem_singleton.mp hr'] at hne
      exact absurd rfl hne

theorem mem_pending_erase (hr : Follows done r) {lsn : Int} :
    lsn ∈ (pending log (done ++ [r])).erase r.lsn ↔ ∃ r' ∈ done,
      r'.txnId ≠ r.txnId ∧ finished log r'.txnId = false ∧ lastLsn done r'.txnId = lsn := by
  rw [Finset.mem_erase, mem_pending]
  constructor
  · rintro ⟨hne, r', hr', hopen, hlast⟩
    have htxn : ¬ r.txnId = r'.txnId := by
      intro heq
      rw [lastLsn_append, if_pos heq] at hlast
      exact hne hlast.symm
    rw [lastLsn_append, if_neg htxn] at hlast
    rcases List.mem_append.mp hr' with hr' | hr'
    · exact ⟨r', hr', fun heq => htxn heq.symm, hopen, hlast⟩
    · rw [List.mem_singleton.mp hr'] at htxn
      exact absurd rfl htxn
  · rintro ⟨r', hr', htxn, hopen, hlast⟩
    have hless := Follows.lastLsn_lt hr hr'
    refine ⟨by omega, r', by simp [hr'], hopen, ?_⟩
    rw [lastLsn_append, if_neg (fun heq => htxn heq.symm)]
    exact hlast

/-- Taking it out and following its `prev_lsn` gives the numbers before it. -/
theorem pending_snoc_next (hdone : LinkedLog done) (hr : Follows done r)
    (hopen : finished log r.txnId = false) :
    (if r.prevLsn = invalidLsn then (pending log (done ++ [r])).erase r.lsn
      else insert r.prevLsn ((pending log (done ++ [r])).erase r.lsn)) = pending log done := by
  ext lsn
  rw [hr.prevLsn, mem_pending]
  cases happears : appears done r.txnId with
  | false =>
      have hnone : ∀ r' ∈ done, r'.txnId ≠ r.txnId := by simpa [appears] using happears
      rw [if_pos ((hdone.lastLsn_eq_invalid r.txnId).mpr happears), mem_pending_erase hr]
      constructor
      · rintro ⟨r', hr', _, hopen', hlast⟩
        exact ⟨r', hr', hopen', hlast⟩
      · rintro ⟨r', hr', hopen', hlast⟩
        exact ⟨r', hr', hnone r' hr', hopen', hlast⟩
  | true =>
      obtain ⟨r₀, hr₀, htxn₀, _⟩ := exists_lastLsn happears
      have hvalid : ¬ lastLsn done r.txnId = invalidLsn := by
        rw [hdone.lastLsn_eq_invalid, happears]
        simp
      rw [if_neg hvalid, Finset.mem_insert, mem_pending_erase hr]
      constructor
      · rintro (rfl | ⟨r', hr', _, hopen', hlast⟩)
        · exact ⟨r₀, hr₀, by rw [htxn₀]; exact hopen, by rw [htxn₀]⟩
        · exact ⟨r', hr', hopen', hlast⟩
      · rintro ⟨r', hr', hopen', hlast⟩
        by_cases htxn : r'.txnId = r.txnId
        · rw [htxn] at hlast
          exact .inl hlast.symm
        · exact .inr ⟨r', hr', htxn, hopen', hlast⟩

end Pending

/-- The undo phase starts from the last records of the unfinished
transactions. -/
theorem active_pending (h : ∀ txnId, m.activeTxn.get txnId =
      if appears log txnId = true ∧ finished log txnId = false then some (lastLsn log txnId)
      else none) : (m.activeTxn.entries.map Prod.snd).toFinset = pending log log := by
  ext lsn
  simp only [List.mem_toFinset, List.mem_map, Prod.exists, exists_eq_right, mem_pending]
  constructor
  · rintro ⟨txnId, hentry⟩
    rw [← SortedMap.get_eq_some_iff, h] at hentry
    split at hentry
    case isTrue hactive =>
      obtain ⟨r, hr, rfl⟩ : ∃ r ∈ log, r.txnId = txnId := by
        simpa [appears] using hactive.1
      exact ⟨r, hr, hactive.2, Option.some.inj hentry⟩
    case isFalse => cases hentry
  · rintro ⟨r, hr, hopen, hlast⟩
    refine ⟨r.txnId, ?_⟩
    rw [← SortedMap.get_eq_some_iff, h, if_pos ⟨appears_of_mem hr, hopen⟩, hlast]

section Trace

/-- The loop of `Undo` with the records on which it calls `UndoLog`. -/
def undoTrace (file : Bytes) :
    Nat → RecoveryManager → Finset Int → Option (List LogRecord × RecoveryManager)
  | 0, _, _ => none
  | rounds + 1, m, nextLsn =>
      match nextLsn.max with
      | none => some ([], m)
      | some lsn => do
          let (offset, size) := (m.lsnMapping lsn).getD (0, 0)
          let m := m.setBuffer (LogStorage.readLog file m.buffer size offset).2
          let log ← LogRecord.deserializeFrom m.buffer 0
          let nextLsn := nextLsn.erase lsn
          let (visits, m) ← undoTrace file rounds (m.undoLog log)
            (if log.prevLsn = invalidLsn then nextLsn else insert log.prevLsn nextLsn)
          pure (log :: visits, m)

/-- Without the records it is the loop. -/
theorem undoLoop_trace (file : Bytes) (rounds : Nat) (m : RecoveryManager) (nextLsn : Finset Int) :
    undoLoop file rounds m nextLsn = (undoTrace file rounds m nextLsn).map Prod.snd := by
  induction rounds generalizing m nextLsn with
  | zero => rfl
  | succ rounds ih =>
      rw [undoLoop, undoTrace]
      cases nextLsn.max with
      | bot => rfl
      | coe lsn =>
          simp only [ih]
          cases LogRecord.deserializeFrom (m.setBuffer (LogStorage.readLog file m.buffer
              ((m.lsnMapping lsn).getD (0, 0)).2 ((m.lsnMapping lsn).getD (0, 0)).1).2).buffer 0 with
          | none => rfl
          | some log =>
              simp only [Option.bind_eq_bind, Option.bind_some]
              generalize undoTrace file rounds _ _ = rest
              cases rest with
              | none => rfl
              | some found => rfl

theorem undoLog_lsnMapping (m : RecoveryManager) (r : LogRecord) :
    (m.undoLog r).lsnMapping = m.lsnMapping := by
  unfold undoLog
  cases r.logType <;> rfl

theorem undoLog_setBuffer (m : RecoveryManager) (buffer : Bytes) (r : LogRecord) :
    (m.setBuffer buffer).undoLog r = (m.undoLog r).setBuffer buffer := by
  unfold undoLog
  cases r.logType <;> rfl

theorem undoLogs_setBuffer (m : RecoveryManager) (buffer : Bytes) (records : List LogRecord) :
    records.foldl undoLog (m.setBuffer buffer) = (records.foldl undoLog m).setBuffer buffer := by
  induction records generalizing m with
  | nil => rfl
  | cons r records ih => rw [List.foldl_cons, List.foldl_cons, undoLog_setBuffer, ih]

/-- A record is read back at its place, as long as the place is an `int` and the
size of the file is an unsigned one. -/
theorem read_record (hr : r.Storable) (hfile : file = encodeLog (done ++ r :: later))
    (hsmall : file.length < 2 ^ 32) (hplace : (encodeLog done).length < 2 ^ 31) (buffer : Bytes) :
    LogRecord.deserializeFrom
      (LogStorage.readLog file buffer r.size (encodeLog done).length).2 0 = some r.decoded := by
  have hlength := hr.encode_length
  have hlt := encodeLog_lt hr done later
  rw [← hfile] at hlt
  have hmore : ¬ LogStorage.getFileSize file ≤ (encodeLog done).length := by
    unfold LogStorage.getFileSize
    split <;> omega
  have hdrop : file.drop (encodeLog done).length = r.encode ++ encodeLog later := by
    rw [hfile, encodeLog_append, List.drop_left, encodeLog_cons]
  rw [LogStorage.readLog, if_neg hmore, hdrop, Bytes.padTo_append hlength.le]
  have hfront : r.encode ++ Bytes.padTo (r.size - r.encode.length) (encodeLog later) ++
      buffer.drop r.size = [] ++ r.encode ++
        (Bytes.padTo (r.size - r.encode.length) (encodeLog later) ++ buffer.drop r.size) := by
    simp only [List.nil_append, List.append_assoc]
  exact hr.deserializeFrom hfront rfl

/-- One round of the undo loop reads and undoes the record with the greatest
number. -/
theorem undoTrace_round (rounds : Nat) (hr : r.Storable)
    (hfile : file = encodeLog (done ++ r :: later)) (hsmall : file.length < 2 ^ 32)
    (hplace : (encodeLog done).length < 2 ^ 31)
    (hmapping : m.lsnMapping r.lsn = some ((encodeLog done).length, r.size))
    {nextLsn : Finset Int} (hmax : nextLsn.max = some r.lsn) :
    ∃ buffer, undoTrace file (rounds + 1) m nextLsn =
      (undoTrace file rounds ((m.setBuffer buffer).undoLog r.decoded)
        (if r.decoded.prevLsn = invalidLsn then nextLsn.erase r.lsn
          else insert r.decoded.prevLsn (nextLsn.erase r.lsn))).map
            fun (visits, m) => (r.decoded :: visits, m) := by
  have hlog := read_record hr hfile hsmall hplace m.buffer
  refine ⟨(LogStorage.readLog file m.buffer r.size (encodeLog done).length).2, ?_⟩
  simp only [undoTrace, hmax, hmapping, Option.getD_some, setBuffer_buffer, hlog,
    Option.bind_eq_bind, Option.bind_some]
  generalize undoTrace file rounds _ _ = rest
  cases rest with
  | none => rfl
  | some found => rfl

theorem undoLoop_round (rounds : Nat) (hr : r.Storable)
    (hfile : file = encodeLog (done ++ r :: later)) (hsmall : file.length < 2 ^ 31)
    (hmapping : m.lsnMapping r.lsn = some ((encodeLog done).length, r.size))
    {nextLsn : Finset Int} (hmax : nextLsn.max = some r.lsn) :
    ∃ buffer, undoLoop file (rounds + 1) m nextLsn =
      undoLoop file rounds ((m.setBuffer buffer).undoLog r.decoded)
        (if r.decoded.prevLsn = invalidLsn then nextLsn.erase r.lsn
          else insert r.decoded.prevLsn (nextLsn.erase r.lsn)) := by
  have hlt := encodeLog_lt hr done later
  rw [← hfile] at hlt
  obtain ⟨buffer, hround⟩ :=
    undoTrace_round rounds hr hfile (by omega) (by omega) hmapping hmax
  refine ⟨buffer, ?_⟩
  rw [undoLoop_trace, hround, undoLoop_trace, Option.map_map]
  rfl

/-- From the end of `done` on, the loop undoes the records of unfinished
transactions in reverse order. -/
theorem undoTrace_eq (rounds : Nat) (hlog : LinkedLog log) (hall : ∀ r ∈ log, r.WellFormed)
    (hsmall : (encodeLog log).length < 2 ^ 32)
    (hmapping : ∀ done r later, log = done ++ r :: later → (encodeLog done).length < 2 ^ 31 ∧
      m.lsnMapping r.lsn = some ((encodeLog done).length, r.size))
    (hsplit : log = done ++ later) (hrounds : done.length < rounds) :
    ∃ buffer, undoTrace (encodeLog log) rounds m (pending log done) =
      some ((openRecords log done).reverse,
        ((openRecords log done).reverse.foldl undoLog m).setBuffer buffer) := by
  induction done using List.reverseRecOn generalizing m later rounds with
  | nil =>
      obtain ⟨rounds, rfl⟩ := Nat.exists_eq_succ_of_ne_zero (by omega : rounds ≠ 0)
      exact ⟨m.buffer, rfl⟩
  | append_singleton done r ih =>
      rw [List.length_append, List.length_singleton] at hrounds
      have hrest : log = done ++ r :: later := by rw [hsplit, List.append_assoc]; rfl
      rw [openRecords_snoc]
      cases hfinished : finished log r.txnId with
      | true =>
          rw [pending_snoc_finished hfinished]
          obtain ⟨buffer, htrace⟩ := ih rounds hmapping hrest (by omega)
          exact ⟨buffer, by simpa using htrace⟩
      | false =>
          obtain ⟨rounds, rfl⟩ := Nat.exists_eq_succ_of_ne_zero (by omega : rounds ≠ 0)
          have hr : r.WellFormed := hall r (by rw [hrest]; simp)
          have hprefix : LinkedLog (done ++ [r]) := by
            rw [hsplit] at hlog
            exact hlog.of_append
          obtain ⟨hdone, hfollows⟩ := hprefix.of_snoc
          obtain ⟨hplace, hentry⟩ := hmapping done r later hrest
          obtain ⟨buffer, hround⟩ := undoTrace_round rounds hr.storable (congrArg encodeLog hrest)
            hsmall hplace hentry (pending_snoc_max hfollows hfinished)
          rw [hr.decoded_eq, pending_snoc_next hdone hfollows hfinished] at hround
          have hkept : ((m.setBuffer buffer).undoLog r).lsnMapping = m.lsnMapping :=
            undoLog_lsnMapping _ r
          obtain ⟨buffer', htrace⟩ := ih (m := (m.setBuffer buffer).undoLog r) rounds
            (by rw [hkept]; exact hmapping) hrest (by omega)
          refine ⟨buffer', ?_⟩
          rw [hround, htrace, undoLog_setBuffer, undoLogs_setBuffer]
          rw [Option.map_some, if_neg (by simp), List.reverse_append]
          rfl

end Trace

end RecoveryManager

end RucDDBS
