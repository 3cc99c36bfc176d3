import RucDDBS.Recovery.TxnLog

/-!
What `Redo` owes to a log file: it decodes the records of the file, in order and
each once, knows afterwards where each of them lies, and goes on numbering
behind the greatest number. It does so exactly if every probe stays in the
buffer. A window that is left with less than four bytes to go has no room for
the size of the next record, and the probe reads behind the buffer, also when
there is no next record.
-/

namespace RucDDBS

namespace RecoveryManager

/-- The scan visited the records of `log`, and `m` is what it left. -/
structure Scanned (log : List LogRecord) (visits : List Visit) (m : RecoveryManager) : Prop where
  records : visits.map Visit.log = log
  lsnMapping : ∀ done r later, log = done ++ r :: later →
    m.lsnMapping r.lsn = some ((encodeLog done).length, r.size)
  nextLsn_empty : log = [] → m.logManager.nextLsn = 0
  nextLsn : log ≠ [] → ∃ r ∈ log, m.logManager.nextLsn = r.lsn + 1 ∧ ∀ r' ∈ log, r'.lsn ≤ r.lsn
  nextLsn_int32 : m.logManager.nextLsn < 2 ^ 31

variable {m : RecoveryManager} {log : List LogRecord} {r : LogRecord} {bound : Nat}

theorem places_log (hall : ∀ r ∈ log, r.WellFormed) (offset : Nat) :
    (places offset log).map Visit.log = log := by
  induction log generalizing offset with
  | nil => rfl
  | cons r log ih =>
      have hr : r.decoded = r := (hall r (by simp)).decoded_eq
      rw [places, List.map_cons, ih (fun r' hr' => hall r' (by simp [hr'])), hr]

theorem redoRecords_lsnMapping_absent (offset : Nat) {lsn : Int} (h : ∀ r ∈ log, r.lsn ≠ lsn) :
    (redoRecords m offset log).lsnMapping lsn = m.lsnMapping lsn := by
  induction log generalizing m offset with
  | nil => rfl
  | cons r log ih =>
      have hne : lsn ≠ r.lsn := fun heq => h r (by simp) heq.symm
      rw [redoRecords, ih _ (fun r' hr' => h r' (by simp [hr'])), redoLog_lsnMapping]
      exact Function.update_of_ne hne _ _

/-- With distinct numbers no entry of the table is written over. -/
theorem redoRecords_place (hnodup : (log.map LogRecord.lsn).Nodup)
    (hall : ∀ r ∈ log, r.WellFormed) (offset : Nat) {done later : List LogRecord}
    (hsplit : log = done ++ r :: later) :
    (redoRecords m offset log).lsnMapping r.lsn =
      some (offset + (encodeLog done).length, r.size) := by
  subst hsplit
  have hdone : ∀ r' ∈ done, r'.Storable := fun r' hr' => (hall r' (by simp [hr'])).storable
  have hlater : ∀ r' ∈ later, r'.lsn ≠ r.lsn := by
    intro r' hr' heq
    rw [List.map_append, List.map_cons] at hnodup
    have hnot := (List.nodup_cons.mp hnodup.of_append_right).1
    apply hnot
    rw [← heq]
    exact List.mem_map_of_mem hr'
  rw [redoRecords_append _ _ hdone, redoRecords, redoRecords_lsnMapping_absent _ hlater,
    redoLog_lsnMapping]
  exact Function.update_self _ _ _

/-- The greatest number is the start value or that of a record. -/
theorem maxLsnOf_spec (maxLsn : Int) (log : List LogRecord) :
    maxLsn ≤ maxLsnOf maxLsn log ∧ (∀ r ∈ log, r.lsn ≤ maxLsnOf maxLsn log) ∧
      (maxLsnOf maxLsn log = maxLsn ∨ ∃ r ∈ log, maxLsnOf maxLsn log = r.lsn) := by
  induction log generalizing maxLsn with
  | nil => simp [maxLsnOf]
  | cons r log ih =>
      have hcons : maxLsnOf maxLsn (r :: log) = maxLsnOf (max maxLsn r.lsn) log := rfl
      obtain ⟨hstart, hrest, hone⟩ := ih (max maxLsn r.lsn)
      rw [hcons]
      refine ⟨by omega, ?_, ?_⟩
      · intro r' hr'
        rcases List.mem_cons.mp hr' with rfl | hr'
        · omega
        · exact hrest r' hr'
      · rcases hone with hmax | ⟨r', hr', hmax⟩
        · rcases le_total maxLsn r.lsn with hle | hle
          · exact .inr ⟨r, by simp, by omega⟩
          · exact .inl (by omega)
        · exact .inr ⟨r', by simp [hr'], hmax⟩

/-- What the scan does to the log, and what becomes of the next number. -/
theorem redo_scanned_of_probesInside (logManager : LogManager) (hall : ∀ r ∈ log, r.WellFormed)
    (hnodup : (log.map LogRecord.lsn).Nodup) (hsmall : (encodeLog log).length < 2 ^ 31)
    (hprobes : ProbesInside 0 log) (hbound : log.length < bound) :
    ∃ buffer m, scanFile (encodeLog log) bound bound (new logManager).buffer 0 =
        some (places 0 log, buffer) ∧
      (new logManager).redo (encodeLog log) bound = some m ∧
      m.logManager.nextLsn = maxLsnOf invalidLsn log + 1 ∧
      ∀ done r later, log = done ++ r :: later →
        m.lsnMapping r.lsn = some ((encodeLog done).length, r.size) := by
  have hstorable : ∀ r ∈ log, r.Storable := fun r hr => (hall r hr).storable
  have hbuffer : (new logManager).buffer.length = logBufferSize := by simp [new]
  obtain ⟨buffer, hscan⟩ := (scanFile_records hstorable hsmall hbuffer hbound).1 hprobes
  obtain ⟨buffer', hredo⟩ := (redo_records logManager hstorable hsmall hbound).1 hprobes
  refine ⟨buffer, _, hscan, hredo, rfl, ?_⟩
  intro done r later hsplit
  have hplace := redoRecords_place (m := new logManager) hnodup hall 0 hsplit
  rw [Nat.zero_add] at hplace
  exact hplace

/-- `Redo` does what it owes to a log of less than 2^31 bytes with distinct numbers
if and only if no probe leaves the buffer, some number is at least -1 (the one
that the search for the greatest starts from), and the greatest can be
increased. -/
theorem redo_scanned_iff (logManager : LogManager) (hall : ∀ r ∈ log, r.WellFormed)
    (hnodup : (log.map LogRecord.lsn).Nodup) (hsmall : (encodeLog log).length < 2 ^ 31) :
    (∀ bound, log.length < bound → ∃ visits buffer m,
      scanFile (encodeLog log) bound bound (new logManager).buffer 0 = some (visits, buffer) ∧
      (new logManager).redo (encodeLog log) bound = some m ∧ Scanned log visits m) ↔
    ProbesInside 0 log ∧ (log ≠ [] → ∃ r ∈ log, invalidLsn ≤ r.lsn) ∧
      ∀ r ∈ log, r.lsn + 1 < 2 ^ 31 := by
  obtain ⟨hstart, hgreatest, hone⟩ := maxLsnOf_spec invalidLsn log
  constructor
  · intro h
    obtain ⟨_, _, m, _, hredo, hscanned⟩ := h (log.length + 1) (by omega)
    have hprobes : ProbesInside 0 log := by
      by_contra hout
      rw [(redo_records logManager (fun r hr => (hall r hr).storable) hsmall
        (by omega)).2 hout] at hredo
      cases hredo
    obtain ⟨_, m', _, hredo', hnext, _⟩ := redo_scanned_of_probesInside logManager hall hnodup
      hsmall hprobes (Nat.lt_succ_self log.length)
    have hsame : m' = m := Option.some.inj (hredo'.symm.trans hredo)
    rw [hsame] at hnext
    refine ⟨hprobes, ?_, ?_⟩
    · intro hne
      obtain ⟨r, hr, hnextLsn, _⟩ := hscanned.nextLsn hne
      exact ⟨r, hr, by omega⟩
    · intro r hr
      have hle := hgreatest r hr
      have hint := hscanned.nextLsn_int32
      omega
  · rintro ⟨hprobes, hvalid, hint⟩ bound hbound
    obtain ⟨buffer, m, hscan, hredo, hnext, hmapping⟩ :=
      redo_scanned_of_probesInside logManager hall hnodup hsmall hprobes hbound
    refine ⟨places 0 log, buffer, m, hscan, hredo, ?_⟩
    constructor
    · exact places_log hall 0
    · exact hmapping
    · rintro rfl
      exact hnext
    · intro hne
      obtain ⟨r₀, hr₀, hlow⟩ := hvalid hne
      have hle₀ := hgreatest r₀ hr₀
      rcases hone with hmax | ⟨r, hr, hmax⟩
      · refine ⟨r₀, hr₀, by omega, ?_⟩
        intro r' hr'
        have hle := hgreatest r' hr'
        omega
      · refine ⟨r, hr, by omega, ?_⟩
        intro r' hr'
        have hle := hgreatest r' hr'
        omega
    · rcases hone with hmax | ⟨r, hr, hmax⟩
      · rw [hnext, hmax]
        decide
      · have hlt := hint r hr
        omega

/-- A transaction that puts a key. -/
def putLog : List LogRecord :=
  [{ LogRecord.ofTxn 1 (-1) .begin with lsn := 0 },
    { LogRecord.ofWrite 1 0 .insert [107] [49] with lsn := 1 },
    { LogRecord.ofTxn 1 1 .commit with lsn := 2 }]

theorem putLog_wellFormed : ∀ r ∈ putLog, r.WellFormed :=
  (Appended.of_take putLog (by decide +kernel)).wellFormed (by decide)

theorem putLog_scanned : ∃ visits buffer m,
    scanFile (encodeLog putLog) 4 4 (new ⟨0, []⟩).buffer 0 = some (visits, buffer) ∧
      (new ⟨0, []⟩).redo (encodeLog putLog) 4 = some m ∧ Scanned putLog visits m := by
  apply (redo_scanned_iff ⟨0, []⟩ putLog_wellFormed (by decide) (by decide +kernel)).mpr
  · exact ⟨by decide, fun _ => ⟨_, List.mem_cons_self, by decide⟩, by decide⟩
  · decide

def putOf (value : Bytes) : LogRecord :=
  { LogRecord.ofWrite 1 (-1) .insert [107] value with lsn := 0 }

theorem putOf_size (value : Bytes) : (putOf value).size = 33 + value.length := by
  show 24 + 4 + 1 + 4 + value.length = 33 + value.length
  omega

/-- An insert that leaves two bytes of the window. -/
def nearlyFull : LogRecord := putOf (List.replicate 45021 118)

theorem nearlyFull_size : nearlyFull.size = 45054 := by
  rw [nearlyFull, putOf_size, List.length_replicate]

/-- The probe behind the only record of the log leaves the buffer. -/
theorem nearlyFull_probes_outside : nearlyFull.WellFormed ∧
    (encodeLog [nearlyFull]).length < 2 ^ 31 ∧
    Bytes.readLE 4 (Bytes.padTo logBufferSize (encodeLog [nearlyFull])) 45054 = none ∧
    ¬ ∃ bound m, 1 < bound ∧ (new ⟨0, []⟩).redo (encodeLog [nearlyFull]) bound = some m := by
  have hwf : nearlyFull.WellFormed := by
    constructor
    · exact .inl ⟨rfl, rfl⟩
    · rw [nearlyFull_size]
      decide
    · exact (by decide : (-2 ^ 31 : Int) ≤ 0 ∧ (0 : Int) < 2 ^ 31)
    · exact (by decide : (-2 ^ 31 : Int) ≤ -1 ∧ (-1 : Int) < 2 ^ 31)
  have hall : ∀ r ∈ [nearlyFull], r.Storable := by
    intro r hr
    rw [List.mem_singleton.mp hr]
    exact hwf.storable
  have hlength : (encodeLog [nearlyFull]).length = 45054 := by
    rw [encodeLog_cons, encodeLog_nil, List.append_nil, hwf.storable.encode_length, nearlyFull_size]
  have hsmall : (encodeLog [nearlyFull]).length < 2 ^ 31 := by
    rw [hlength]
    decide
  have hout : ¬ ProbesInside 0 [nearlyFull] := by
    simp [ProbesInside, nearlyFull_size, logBufferSize]
  refine ⟨hwf, hsmall, ?_, ?_⟩
  · rw [Bytes.readLE, Bytes.padTo_length, if_neg (by decide)]
  · rintro ⟨bound, m, hbound, hredo⟩
    rw [(redo_records ⟨0, []⟩ hall hsmall hbound).2 hout] at hredo
    cases hredo

end RecoveryManager

end RucDDBS
