import RucDDBS.Recovery.RedoScan

/-!
The assertion at the end of `DeserializeFrom`, as a build with assertions evaluates it. It
reads the stored size through the cursor that has gone over the record, and so compares the
record with what lies behind it.
-/

namespace RucDDBS

namespace LogRecord

/-- Where the switch leaves the cursor. -/
def behindBody (storage : Bytes) (pos : Nat) (type : LogRecordType) : Option Nat :=
  match type with
  | .insert | .delete => do
      let (_, pos) ← readString storage pos
      let (_, pos) ← readString storage pos
      pure pos
  | .commit | .abort | .begin | .prepared | .createTable | .dropTable | .invalid => some pos

/-- The closing assertion of `DeserializeFrom(storage + pos)`. -/
def sizeAssertion (storage : Bytes) (pos : Nat) : Option Bool := do
  let code ← Bytes.readLE 4 storage (pos + 20)
  let res ← deserializeFrom storage pos
  let behind ← behindBody storage (pos + 24) (.ofCode code)
  let size ← Bytes.readLE 4 storage behind
  pure (decide (ofInt32 size = ofInt32 res.size))

variable {r : LogRecord} {storage before after : Bytes} {pos : Nat}

theorem Storable.behindBody (h : r.Storable) (hstorage : storage = before ++ r.encode ++ after)
    (hpos : pos = before.length) :
    LogRecord.behindBody storage (pos + 24) r.logType = some (pos + r.size) := by
  rcases h.shape with ⟨hwrite, hr⟩ | ⟨htype, hr⟩
  · obtain ⟨hsize, hkeySmall, hvalueSmall⟩ := h.lengths hr
    have hbody : storage = (before ++ r.header) ++ (Bytes.toLE 4 r.key.length ++ r.key ++
        (Bytes.toLE 4 r.value.length ++ r.value)) ++ after := by
      rw [hstorage, encode, if_pos hwrite]
      simp only [List.append_assoc]
    have hposBody : pos + 24 = (before ++ r.header).length := by simp [hpos]
    obtain ⟨hkey, hvalue⟩ := readStrings_write (before ++ r.header) after hbody hposBody
      hkeySmall hvalueSmall
    have hbehind : pos + 24 + 4 + r.key.length + 4 + r.value.length = pos + r.size := by omega
    rw [hbehind] at hvalue
    rcases (isWrite_iff _).mp hwrite with htype | htype
    · simp [LogRecord.behindBody, htype, hkey, hvalue]
    · simp [LogRecord.behindBody, htype, hkey, hvalue]
  · have hsize : r.size = 24 := congrArg LogRecord.size hr
    rw [hsize]
    rcases htype with htype | htype | htype | htype
    · rw [htype, LogRecord.behindBody]
    · rw [htype, LogRecord.behindBody]
    · rw [htype, LogRecord.behindBody]
    · rw [htype, LogRecord.behindBody]

/-- The assertion compares the size of the record with the four bytes behind it. -/
theorem WellFormed.sizeAssertion (h : r.WellFormed)
    (hstorage : storage = before ++ r.encode ++ after) (hpos : pos = before.length) :
    LogRecord.sizeAssertion storage pos = (Bytes.readLE 4 storage (pos + r.size)).map
      fun size => decide (ofInt32 size = ofInt32 r.size) := by
  obtain ⟨body, hencode⟩ := encode_eq r
  have hheader : storage = before ++ r.header ++ (body ++ after) := by
    rw [hstorage, hencode]
    simp only [List.append_assoc]
  obtain ⟨_, _, _, _, hcodeAt⟩ := readLE_header hheader hpos
  have hcode : LogRecordType.ofCode (r.logType.code % 256 ^ 4) = r.logType := by
    rw [Nat.mod_eq_of_lt r.logType.code_lt, LogRecordType.ofCode_code]
  have hdecoded := h.storable.deserializeFrom hstorage hpos
  rw [h.decoded_eq] at hdecoded
  have hbehind := h.storable.behindBody hstorage hpos
  simp only [LogRecord.sizeAssertion, hcodeAt, hdecoded, hcode, hbehind, Option.bind_eq_bind,
    Option.bind_some]
  cases Bytes.readLE 4 storage (pos + r.size) with
  | none => rfl
  | some size => rfl

theorem ofInt32_inj {n m : Nat} (hn : n < 2 ^ 31) (hm : m < 2 ^ 31) :
    ofInt32 n = ofInt32 m ↔ n = m := by
  unfold ofInt32
  rw [Int.bmod_def, Int.bmod_def]
  omega

end LogRecord

namespace RecoveryManager

variable {m : RecoveryManager} {passed todo : List LogRecord} {r : LogRecord}

/-- In a window of the log the assertion probes for the next record. -/
theorem sizeAssertion_probe (hr : r.WellFormed)
    (hbuffer : m.buffer = Bytes.padTo logBufferSize (encodeLog (passed ++ r :: todo)))
    (hinside : (encodeLog (passed ++ [r])).length ≤ logBufferSize) :
    LogRecord.sizeAssertion m.buffer (encodeLog passed).length =
      (Bytes.readLE 4 m.buffer (encodeLog (passed ++ [r])).length).map
        fun size => decide (LogRecord.ofInt32 size = LogRecord.ofInt32 r.size) := by
  obtain ⟨after, hparts⟩ := window_record hbuffer hinside
  rw [hr.sizeAssertion hparts rfl, encodeLog_concat_length hr.storable]

/-- The last record of the log has zeros behind it. -/
theorem sizeAssertion_last (hr : r.WellFormed)
    (hbuffer : m.buffer = Bytes.padTo logBufferSize (encodeLog (passed ++ [r])))
    (hin : (encodeLog (passed ++ [r])).length + 4 ≤ logBufferSize) :
    LogRecord.sizeAssertion m.buffer (encodeLog passed).length = some false := by
  have hwindow : m.buffer = Bytes.padTo logBufferSize (encodeLog ((passed ++ [r]) ++ [])) := by
    rw [List.append_nil, hbuffer]
  have hheader := hr.storable.header_le
  have hsmall := hr.size
  rw [LogRecord.headerSize] at hheader
  rw [logBufferSize] at hsmall
  have hne : ¬ LogRecord.ofInt32 0 = LogRecord.ofInt32 r.size := by
    rw [LogRecord.ofInt32_inj (by decide) (by omega)]
    omega
  rw [sizeAssertion_probe hr hbuffer (by omega), probe_end hwindow rfl hin, Option.map_some,
    decide_eq_false hne]

/-- In a window of the log the assertion holds for a record exactly if the next record has
the same size and its size lies in the window. -/
theorem sizeAssertion_iff (hall : ∀ r' ∈ r :: todo, r'.WellFormed)
    (hbuffer : m.buffer = Bytes.padTo logBufferSize (encodeLog (passed ++ r :: todo)))
    (hinside : (encodeLog (passed ++ [r])).length ≤ logBufferSize) :
    LogRecord.sizeAssertion m.buffer (encodeLog passed).length = some true ↔
      (encodeLog (passed ++ [r])).length + 4 ≤ logBufferSize ∧
        ∃ next rest, todo = next :: rest ∧ next.size = r.size := by
  have hr := hall r (by simp)
  by_cases hin : (encodeLog (passed ++ [r])).length + 4 ≤ logBufferSize
  · cases todo with
    | nil =>
        rw [sizeAssertion_last hr hbuffer hin]
        simp
    | cons next rest =>
        have hwindow : m.buffer =
            Bytes.padTo logBufferSize (encodeLog ((passed ++ [r]) ++ next :: rest)) := by
          rw [hbuffer, List.append_assoc, List.singleton_append]
        have hsmall := hr.size
        have hnext := (hall next (by simp)).size
        have hbig : logBufferSize < 2 ^ 31 := by decide
        rw [sizeAssertion_probe hr hbuffer hinside, probe_record hwindow rfl hin hnext,
          Option.map_some, Option.some.injEq, decide_eq_true_eq,
          LogRecord.ofInt32_inj (by omega) (by omega)]
        constructor
        · intro hsame
          exact ⟨hin, next, rest, rfl, hsame⟩
        · rintro ⟨_, _, _, ⟨⟩, hsame⟩
          exact hsame
  · have hwindow : m.buffer = Bytes.padTo logBufferSize (encodeLog ((passed ++ [r]) ++ todo)) := by
      rw [hbuffer, List.append_assoc, List.singleton_append]
    rw [sizeAssertion_probe hr hbuffer hinside, probe_outside hwindow hin]
    exact iff_of_false (by simp) fun h => hin h.1

/-- The begin record with this number. -/
def beginRecord (lsn : Int) : LogRecord :=
  { LogRecord.ofTxn 1 invalidLsn .begin with lsn := lsn }

theorem beginRecord_wellFormed {lsn : Int} (hlsn : -2 ^ 31 ≤ lsn ∧ lsn < 2 ^ 31) :
    (beginRecord lsn).WellFormed where
  shape := .inr ⟨.inl rfl, rfl⟩
  size := (by decide : LogRecord.headerSize < logBufferSize)
  lsn := hlsn
  prevLsn := (by decide : -2 ^ 31 ≤ invalidLsn ∧ invalidLsn < 2 ^ 31)

/-- Two records of one size: the first one passes. -/
theorem twoBegins_assertion_holds :
    LogRecord.sizeAssertion ((new ⟨0, []⟩).setBuffer (Bytes.padTo logBufferSize
      (encodeLog [beginRecord 0, beginRecord 1]))).buffer (encodeLog []).length = some true := by
  have hall : ∀ r' ∈ [beginRecord 0, beginRecord 1], r'.WellFormed := by
    intro r' hr'
    rcases List.mem_pair.mp hr' with rfl | rfl
    · exact beginRecord_wellFormed (by decide)
    · exact beginRecord_wellFormed (by decide)
  have hlength : (encodeLog ([] ++ [beginRecord 0])).length = 24 := by decide
  apply (sizeAssertion_iff hall rfl (by rw [hlength]; decide)).mpr
  exact ⟨by rw [hlength]; decide, _, _, rfl, rfl⟩

/-- The log of a single transaction that has begun: the assertion compares 0 with 24. -/
theorem singleBegin_assertion_fails :
    (beginRecord 0).WellFormed ∧
      LogRecord.sizeAssertion ((new ⟨0, []⟩).setBuffer (Bytes.padTo logBufferSize
        (encodeLog ([] ++ [beginRecord 0])))).buffer (encodeLog []).length = some false := by
  have hr : (beginRecord 0).WellFormed := beginRecord_wellFormed (by decide)
  have hlength : (encodeLog ([] ++ [beginRecord 0])).length = 24 := by decide
  exact ⟨hr, sizeAssertion_last hr rfl (by rw [hlength]; decide)⟩

end RecoveryManager

end RucDDBS
