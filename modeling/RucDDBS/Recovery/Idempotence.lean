import RucDDBS.Recovery.Aries

/-!
Recovery of a log to which recovery has already written. The records that `Undo`
appends end every transaction, so a second run has nothing to undo and only
redoes the longer log. Its store is then decided by the compensations, where
that of the first run was decided by the undoing itself. The two agree on an
undone insert, which is a delete both times. They differ on an undone delete:
the store gets the key under itself, the log an insert of the deleted value.
-/

namespace RucDDBS

namespace RecoveryManager

/-- The record that `UndoLog` writes for `r`, without its numbers. -/
def compensation (r : LogRecord) : LogRecord :=
  LogRecord.ofWrite r.txnId invalidLsn (opposite r.logType) r.key r.value

/-- The records that recovery adds to `log`, without their numbers, and with the
aborts in the order of the beginnings. -/
def closing (log : List LogRecord) : List LogRecord :=
  (losers log log).reverse.map compensation ++
    (log.filter fun r => r.logType = .begin && !finished log r.txnId).map
      fun r => .ofTxn r.txnId invalidLsn .abort

/-- What the scan of a file and the store depend on. -/
def footprint (r : LogRecord) : LogRecordType × Bytes × Bytes × Nat :=
  (r.logType, r.key, r.value, r.size)

section Footprint

variable {log log' : List LogRecord}

theorem encode_length_eq {r r' : LogRecord} (h : footprint r = footprint r') :
    r.encode.length = r'.encode.length := by
  simp only [footprint, Prod.mk.injEq] at h
  obtain ⟨htype, hkey, hvalue, _⟩ := h
  rw [LogRecord.encode, LogRecord.encode, htype, hkey, hvalue]
  split
  · simp only [List.length_append, LogRecord.header_length]
  · rw [LogRecord.header_length, LogRecord.header_length]

theorem applyRecord_eq {r r' : LogRecord} (h : footprint r = footprint r')
    (kv : SortedMap Bytes Bytes) : applyRecord kv r = applyRecord kv r' := by
  simp only [footprint, Prod.mk.injEq] at h
  obtain ⟨htype, hkey, hvalue, _⟩ := h
  rw [applyRecord, applyRecord, htype, hkey, hvalue]

/-- Logs with the same footprints are scanned alike. -/
theorem footprint_scan (h : log.map footprint = log'.map footprint) :
    (encodeLog log).length = (encodeLog log').length ∧
    (∀ kv, log.foldl applyRecord kv = log'.foldl applyRecord kv) ∧
    ∀ inner, ProbesInside inner log ↔ ProbesInside inner log' := by
  induction log generalizing log' with
  | nil =>
      rw [List.map_nil, eq_comm, List.map_eq_nil_iff] at h
      subst h
      exact ⟨rfl, fun _ => rfl, fun _ => Iff.rfl⟩
  | cons r log ih =>
      cases log' with
      | nil => cases h
      | cons r' log' =>
          rw [List.map_cons, List.map_cons, List.cons.injEq] at h
          obtain ⟨hlength, hkv, hprobes⟩ := ih h.2
          have hsize : r.size = r'.size := congrArg (fun f => f.2.2.2) h.1
          refine ⟨?_, ?_, ?_⟩
          · rw [encodeLog_cons, encodeLog_cons, List.length_append, List.length_append,
              encode_length_eq h.1, hlength]
          · intro kv
            rw [List.foldl_cons, List.foldl_cons, applyRecord_eq h.1, hkv]
          · intro inner
            rw [ProbesInside, ProbesInside, hsize, hprobes, hprobes]

end Footprint

section Beginnings

variable {log : List LogRecord}

theorem appears_iff_begins (hlog : Appended log) (txnId : TxnId) :
    appears log txnId = true ↔ ∃ r ∈ log, r.logType = .begin ∧ r.txnId = txnId := by
  induction hlog with
  | nil => simp [appears]
  | @snoc log r hlog hallowed ih =>
      rw [appears_append, Bool.or_eq_true, ih, decide_eq_true_eq]
      constructor
      · rintro (⟨r', hr', hbegin⟩ | htxn)
        · exact ⟨r', by simp [hr'], hbegin⟩
        · cases happears : appears log txnId with
          | true =>
              obtain ⟨r', hr', hbegin⟩ := ih.mp happears
              exact ⟨r', by simp [hr'], hbegin⟩
          | false => exact ⟨r, by simp, hallowed.begins.mpr (by rw [htxn, happears]), htxn⟩
      · rintro ⟨r', hr', hbegin, htxn⟩
        rcases List.mem_append.mp hr' with hr' | hr'
        · exact .inl ⟨r', hr', hbegin, htxn⟩
        · rw [List.mem_singleton.mp hr'] at htxn
          exact .inr htxn

/-- A transaction begins once. -/
theorem nodup_begins (hlog : Appended log) :
    ((log.filter fun r => r.logType = .begin).map LogRecord.txnId).Nodup := by
  induction hlog with
  | nil => simp
  | @snoc log r hlog hallowed ih =>
      by_cases hbegin : r.logType = .begin
      · rw [List.filter_append, List.map_append, List.nodup_append]
        refine ⟨ih, by simp [hbegin], ?_⟩
        intro txnId htxn txnId' htxn' heq
        have hnot : appears log r.txnId = false := hallowed.begins.mp hbegin
        obtain ⟨r', hr', rfl⟩ := List.mem_map.mp htxn
        have hsame : r'.txnId = r.txnId := by simpa [hbegin, heq] using htxn'
        have happears : appears log r.txnId = true := by
          simp only [appears, List.any_eq_true]
          exact ⟨r', List.mem_of_mem_filter hr', by simp [hsame]⟩
        rw [hnot] at happears
        cases happears
      · simpa [List.filter_append, hbegin] using ih

end Beginnings

section Extended

variable {m : RecoveryManager} {start log comps aborts : List LogRecord}

/-- There are as many aborts as beginnings of unfinished transactions. -/
theorem Recovered.aborts_length (h : Recovered start log comps aborts m) (hlog : Appended log) :
    aborts.length =
      (log.filter fun r => r.logType = .begin && !finished log r.txnId).length := by
  have hnodup : ((log.filter fun r => r.logType = .begin && !finished log r.txnId).map
      LogRecord.txnId).Nodup := by
    refine List.Nodup.sublist (List.Sublist.map _ ?_) (nodup_begins hlog)
    apply List.monotone_filter_right
    intro r hr
    exact (Bool.and_eq_true _ _ ▸ hr).1
  have hsame : (aborts.map LogRecord.txnId).Perm
      ((log.filter fun r => r.logType = .begin && !finished log r.txnId).map LogRecord.txnId) := by
    apply (List.perm_ext_iff_of_nodup h.distinct hnodup).mpr
    intro txnId
    rw [List.mem_map, h.ended, appears_iff_begins hlog]
    simp only [List.mem_map, List.mem_filter, Bool.and_eq_true, decide_eq_true_eq,
      Bool.not_eq_true']
    constructor
    · rintro ⟨⟨r, hr, hbegin, rfl⟩, hopen⟩
      exact ⟨r, ⟨hr, hbegin, hopen⟩, rfl⟩
    · rintro ⟨r, ⟨hr, hbegin, hopen⟩, rfl⟩
      exact ⟨⟨r, hr, hbegin, rfl⟩, hopen⟩
  simpa using hsame.length_eq

theorem footprint_compensates {losing : List LogRecord}
    (h : List.Forall₂ Compensates losing comps) :
    comps.map footprint = (losing.map compensation).map footprint := by
  induction h with
  | nil => rfl
  | @cons r c _ _ hc _ ih =>
      have hsame : footprint c = footprint (compensation r) := by
        rw [hc]
        rfl
      rw [List.map_cons, List.map_cons, List.map_cons, ih, hsame]

/-- What recovery appends is what `closing` says, up to numbers and order. -/
theorem Recovered.footprint_closing (h : Recovered start log comps aborts m)
    (hlog : Appended log) : (comps ++ aborts).map footprint = (closing log).map footprint := by
  have haborts : aborts.map footprint =
      List.replicate aborts.length (footprint (.ofTxn 0 invalidLsn .abort)) := by
    rw [List.eq_replicate_iff]
    refine ⟨by simp, ?_⟩
    intro f hf
    obtain ⟨r, hr, rfl⟩ := List.mem_map.mp hf
    rw [h.aborted r hr]
    rfl
  have hends : ((log.filter fun r => r.logType = .begin && !finished log r.txnId).map
      fun r => LogRecord.ofTxn r.txnId invalidLsn .abort).map footprint =
      List.replicate aborts.length (footprint (.ofTxn 0 invalidLsn .abort)) := by
    rw [List.map_map, List.eq_replicate_iff]
    refine ⟨by rw [List.length_map, h.aborts_length hlog], ?_⟩
    intro f hf
    obtain ⟨r, _, rfl⟩ := List.mem_map.mp hf
    rfl
  rw [closing, List.map_append, List.map_append, haborts, hends,
    footprint_compensates h.compensated]

theorem compensates_mem {losing : List LogRecord} {c : LogRecord}
    (h : List.Forall₂ Compensates losing comps) (hc : c ∈ comps) :
    ∃ r ∈ losing, Compensates r c := by
  induction h with
  | nil => cases hc
  | @cons r c' _ _ hhead _ ih =>
      rcases List.mem_cons.mp hc with rfl | hc
      · exact ⟨r, by simp, hhead⟩
      · obtain ⟨r', hr', hr'c⟩ := ih hc
        exact ⟨r', by simp [hr'], hr'c⟩

theorem Compensates.txnId {r c : LogRecord} (h : Compensates r c) : c.txnId = r.txnId := by
  rw [h]
  rfl

/-- Nothing in the longer log is unfinished. -/
theorem Recovered.all_finished (h : Recovered start log comps aborts m) :
    ∀ r ∈ log ++ (comps ++ aborts), finished (log ++ (comps ++ aborts)) r.txnId = true := by
  have hold (r : LogRecord) (hr : r ∈ log) :
      finished (log ++ (comps ++ aborts)) r.txnId = true := by
    simp only [finished, List.any_append, Bool.or_eq_true]
    cases hfinished : finished log r.txnId with
    | true => exact .inl hfinished
    | false =>
        have happears : appears log r.txnId = true := by
          simp only [appears, List.any_eq_true]
          exact ⟨r, hr, by simp⟩
        obtain ⟨a, ha, htxn⟩ := (h.ended r.txnId).mpr ⟨happears, hfinished⟩
        refine .inr (.inr (List.any_eq_true.mpr ⟨a, ha, ?_⟩))
        rw [htxn, h.aborted a ha]
        simp [LogRecord.ends, LogRecord.ofTxn]
  intro r hr
  rcases List.mem_append.mp hr with hr | hr
  · exact hold r hr
  rcases List.mem_append.mp hr with hr | hr
  · obtain ⟨r', hr', hc⟩ := compensates_mem h.compensated hr
    rw [hc.txnId]
    exact hold r' (List.mem_of_mem_filter (List.mem_reverse.mp hr'))
  · simp only [finished, List.any_append, Bool.or_eq_true]
    refine .inr (.inr (List.any_eq_true.mpr ⟨r, hr, ?_⟩))
    rw [h.aborted r hr]
    simp [LogRecord.ends, LogRecord.ofTxn]

/-- A second recovery has nothing to undo. -/
theorem Recovered.of_all_finished (h : Recovered start log comps aborts m)
    (hall : ∀ r ∈ log, finished log r.txnId = true) :
    m.kv = log.foldl applyRecord .empty ∧ m.logManager.log = start := by
  have hlosers : losers log log = [] := by
    rw [losers, List.filter_eq_nil_iff]
    intro r hr
    simp [hall r hr]
  have hcomps : comps = [] := by
    have hcompensated := h.compensated
    rw [hlosers, List.reverse_nil] at hcompensated
    cases hcompensated
    rfl
  have haborts : aborts = [] := by
    rw [List.eq_nil_iff_forall_not_mem]
    intro a ha
    obtain ⟨happears, hopen⟩ := (h.ended a.txnId).mp ⟨a, ha, rfl⟩
    obtain ⟨r, hr, htxn⟩ : ∃ r ∈ log, r.txnId = a.txnId := by simpa [appears] using happears
    rw [← htxn, hall r hr] at hopen
    cases hopen
  constructor
  · rw [h.kv]
    apply SortedMap.ext_get
    intro key
    have hloser : firstLoser log log key = none := by
      rw [firstLoser, List.find?_eq_none]
      intro r hr
      simp [hall r hr]
    rw [undoLosers_get, hloser]
  · rw [h.records, hcomps, haborts]
    simp

theorem lastWrite_append (first second : List LogRecord) (key : Bytes) :
    lastWrite (first ++ second) key = (lastWrite second key).or (lastWrite first key) := by
  rw [lastWrite, List.filter_append, List.getLast?_append]
  rfl

theorem opposite_isWrite (type : LogRecordType) : (opposite type).isWrite = type.isWrite := by
  cases type <;> rfl

/-- The compensation that comes last is the one of the write that came first. -/
theorem lastWrite_closing (log : List LogRecord) (key : Bytes) :
    lastWrite (closing log) key = (firstLoser log log key).map compensation := by
  have haborts : (((log.filter fun r => r.logType = .begin && !finished log r.txnId).map
      fun r => LogRecord.ofTxn r.txnId invalidLsn .abort).filter
        fun r => r.logType.isWrite && r.key = key) = [] := by
    rw [List.filter_eq_nil_iff]
    intro r hr
    obtain ⟨r', _, rfl⟩ := List.mem_map.mp hr
    simp [LogRecord.ofTxn, LogRecordType.isWrite]
  have hwrites : ((fun r : LogRecord => r.logType.isWrite && decide (r.key = key)) ∘ compensation) =
      fun r => r.logType.isWrite && decide (r.key = key) := by
    funext r
    show ((opposite r.logType).isWrite && decide (r.key = key)) = _
    rw [opposite_isWrite]
  rw [lastWrite, closing, List.filter_append, haborts, List.append_nil, List.filter_map, hwrites,
    List.filter_reverse, List.map_reverse, List.getLast?_reverse, List.head?_map, losers,
    List.filter_filter, List.head?_filter, firstLoser]
  congr 2
  funext r
  cases r.logType.isWrite <;> cases finished log r.txnId <;> cases decide (r.key = key) <;> rfl

/-- The compensation of `r` leaves what undoing `r` left. -/
theorem written_compensation {r : LogRecord} (hwrite : r.logType.isWrite = true) :
    written (compensation r) = unwritten r ↔ (r.logType = .delete → r.value = r.key) := by
  rcases (LogRecord.isWrite_iff _).mp hwrite with htype | htype
  · simp [written, unwritten, compensation, LogRecord.ofWrite, opposite, htype]
  · simp [written, unwritten, compensation, LogRecord.ofWrite, opposite, htype]

theorem firstLoser_isWrite {key : Bytes} {r : LogRecord} (h : firstLoser log log key = some r) :
    r.logType.isWrite = true := by
  have hfound := List.find?_some h
  simp only [Bool.and_eq_true] at hfound
  exact hfound.2.1

theorem closing_get_iff (log : List LogRecord) (key : Bytes) :
    ((log ++ closing log).foldl applyRecord .empty).get key =
        (undoLosers log log (log.foldl applyRecord .empty)).get key ↔
      ∀ r ∈ firstLoser log log key, r.logType = .delete → r.value = r.key := by
  rw [applyRecords_get, lastWrite_append, lastWrite_closing, undoLosers_get]
  cases hloser : firstLoser log log key with
  | none => simp [applyRecords_get]
  | some r =>
      have hiff := written_compensation (firstLoser_isWrite hloser)
      simpa using hiff

end Extended

section Twice

variable {log : List LogRecord} {bound : Nat}
  {order order' : SortedMap TxnId Int → List (TxnId × Int)}

/-- Both runs complete when no probe leaves the buffer: the first undoes, the
second only redoes. -/
theorem recover_twice (horder : ∀ map, (order map).Perm map.entries)
    (horder' : ∀ map, (order' map).Perm map.entries) (nextLsn nextLsn' : Int)
    (hlog : Appended log) (hsmall : (encodeLog (log ++ closing log)).length < 2 ^ 31)
    (hbound : (encodeLog (log ++ closing log)).length < bound) (hprobes : ProbesInside 0 log) :
    ∃ m, (new ⟨nextLsn, []⟩).ariesIn order (encodeLog log) bound = some m ∧
      m.kv = undoLosers log log (log.foldl applyRecord .empty) ∧
      (ProbesInside 0 (log ++ closing log) → ∃ m',
        (new ⟨nextLsn', []⟩).ariesIn order' (encodeLog (log ++ m.logManager.log)) bound = some m' ∧
        m'.kv = (log ++ closing log).foldl applyRecord .empty ∧ m'.logManager.log = []) ∧
      (¬ ProbesInside 0 (log ++ closing log) →
        (new ⟨nextLsn', []⟩).ariesIn order' (encodeLog (log ++ m.logManager.log)) bound = none) := by
  have hlonger : (encodeLog log).length ≤ (encodeLog (log ++ closing log)).length := by
    simp
  obtain ⟨m, comps, aborts, haries, hrecovered⟩ :=
    (ariesIn_eq horder ⟨nextLsn, []⟩ hlog (by omega) (by omega : _ < bound)).1 hprobes
  have hrecords : m.logManager.log = comps ++ aborts := by simpa using hrecovered.records
  have hfootprint : (log ++ (comps ++ aborts)).map footprint =
      (log ++ closing log).map footprint := by
    rw [List.map_append, hrecovered.footprint_closing hlog, ← List.map_append]
  obtain ⟨hlength, hkv, hinside⟩ := footprint_scan hfootprint
  obtain ⟨hyes, hno⟩ := ariesIn_eq horder' ⟨nextLsn', []⟩ hrecovered.appended
    (by rw [hlength]; exact hsmall) (by rw [hlength]; exact hbound)
  refine ⟨m, haries, hrecovered.kv, ?_, ?_⟩
  · intro hprobes'
    obtain ⟨m', _, _, haries', hrecovered'⟩ := hyes ((hinside 0).mpr hprobes')
    obtain ⟨hkv', hrecords'⟩ := hrecovered'.of_all_finished hrecovered.all_finished
    exact ⟨m', by rw [hrecords]; exact haries', by rw [hkv', hkv], hrecords'⟩
  · intro hprobes'
    rw [hrecords]
    exact hno (fun hin => hprobes' ((hinside 0).mp hin))

/-- Recovery, and recovery again once its records are in the log: the second run
ends with the store of the first and writes nothing, if and only if no probe
leaves the buffer in either of them and no delete of another value than its key
is the first write of an unfinished transaction to its key. -/
theorem recovery_idempotent_iff (horder : ∀ map, (order map).Perm map.entries)
    (horder' : ∀ map, (order' map).Perm map.entries) (nextLsn nextLsn' : Int)
    (hlog : Appended log) (hsmall : (encodeLog (log ++ closing log)).length < 2 ^ 31)
    (hbound : (encodeLog (log ++ closing log)).length < bound) :
    (∃ m m', (new ⟨nextLsn, []⟩).ariesIn order (encodeLog log) bound = some m ∧
      (new ⟨nextLsn', []⟩).ariesIn order' (encodeLog (log ++ m.logManager.log)) bound = some m' ∧
      m'.kv = m.kv ∧ m'.logManager.log = []) ↔
    ProbesInside 0 log ∧ ProbesInside 0 (log ++ closing log) ∧
      ∀ key, ∀ r ∈ firstLoser log log key, r.logType = .delete → r.value = r.key := by
  have hstores : (log ++ closing log).foldl applyRecord .empty =
      undoLosers log log (log.foldl applyRecord .empty) ↔
      ∀ key, ∀ r ∈ firstLoser log log key, r.logType = .delete → r.value = r.key := by
    constructor
    · intro heq key
      rw [← closing_get_iff, heq]
    · intro hkeys
      apply SortedMap.ext_get
      intro key
      exact (closing_get_iff log key).mpr (hkeys key)
  constructor
  · rintro ⟨m, m', hfirst, hsecond, heq, _⟩
    have hprobes : ProbesInside 0 log := by
      by_contra hprobes
      have hlonger : (encodeLog log).length ≤ (encodeLog (log ++ closing log)).length := by
        simp
      rw [(ariesIn_eq horder ⟨nextLsn, []⟩ hlog (by omega) (by omega : _ < bound)).2 hprobes]
        at hfirst
      cases hfirst
    obtain ⟨m₁, hfirst', hkv, hyes, hno⟩ :=
      recover_twice horder horder' nextLsn nextLsn' hlog hsmall hbound hprobes
    obtain rfl : m₁ = m := Option.some.inj (hfirst'.symm.trans hfirst)
    have hprobes' : ProbesInside 0 (log ++ closing log) := by
      by_contra hprobes'
      rw [hno hprobes'] at hsecond
      cases hsecond
    obtain ⟨m₂, hsecond', hkv', _⟩ := hyes hprobes'
    obtain rfl : m₂ = m' := Option.some.inj (hsecond'.symm.trans hsecond)
    exact ⟨hprobes, hprobes', hstores.mp (by rw [← hkv', heq, hkv])⟩
  · rintro ⟨hprobes, hprobes', hkeys⟩
    obtain ⟨m, hfirst, hkv, hyes, _⟩ :=
      recover_twice horder horder' nextLsn nextLsn' hlog hsmall hbound hprobes
    obtain ⟨m', hsecond, hkv', hrecords⟩ := hyes hprobes'
    exact ⟨m, m', hfirst, hsecond, by rw [hkv', hkv, hstores.mpr hkeys], hrecords⟩

theorem freshInsert_recovered_twice : ∃ m m',
    (new ⟨0, []⟩).ariesIn SortedMap.entries (encodeLog freshInsert) 1000 = some m ∧
    (new ⟨0, []⟩).ariesIn SortedMap.entries (encodeLog (freshInsert ++ m.logManager.log)) 1000 =
      some m' ∧ m'.kv = m.kv ∧ m'.logManager.log = [] := by
  have hlog : Appended freshInsert := Appended.of_take _ (by decide +kernel)
  refine (recovery_idempotent_iff (fun map => .refl map.entries) (fun map => .refl map.entries)
    0 0 hlog (by decide +kernel) (by decide +kernel)).mpr ?_
  refine ⟨by decide +kernel, by decide +kernel, ?_⟩
  -- the only unfinished write is an insert
  intro key r hr hdelete
  have hmem : r ∈ freshInsert := List.mem_of_find?_eq_some hr
  have hnone : ∀ r ∈ freshInsert, r.logType ≠ .delete := by decide
  exact absurd hdelete (hnone r hmem)

/-- The first run leaves the key under itself, the second its old value. -/
theorem interruptedDelete_recovered_twice : Appended interruptedDelete ∧
    ∃ m m', (new ⟨0, []⟩).ariesIn SortedMap.entries (encodeLog interruptedDelete) 1000 = some m ∧
    (new ⟨0, []⟩).ariesIn SortedMap.entries
      (encodeLog (interruptedDelete ++ m.logManager.log)) 1000 = some m' ∧
    m.kv.get [107] = some [107] ∧ m'.kv.get [107] = some [49] := by
  have hlog : Appended interruptedDelete := Appended.of_take _ (by decide +kernel)
  obtain ⟨m, hfirst, hkv, hyes, _⟩ := @recover_twice interruptedDelete 1000 SortedMap.entries
    SortedMap.entries (fun map => .refl map.entries) (fun map => .refl map.entries) 0 0 hlog
    (by decide +kernel) (by decide +kernel) (by decide +kernel)
  obtain ⟨m', hsecond, hkv', _⟩ := hyes (by decide +kernel)
  refine ⟨hlog, m, m', hfirst, hsecond, ?_, ?_⟩
  · rw [hkv]
    decide +kernel
  · rw [hkv']
    decide +kernel

end Twice

end RecoveryManager

end RucDDBS
