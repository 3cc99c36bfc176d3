import RucDDBS.Recovery.RecoveryManager

/-!
The scan of a log file by `Redo`. First the record format: what was appended is
what is decoded, at any position of a buffer. Then the windows: the scan applies
`RedoLog` to the records of the file, each once and in order, and notes where
each of them lies, provided that no window is left within four bytes of its
end, where the probe for the next record would read behind the buffer.
-/

namespace RucDDBS

namespace LogRecord

/-- A record of one of the five types that recovery knows, as the constructors
and `AppendLogRecord` leave it. -/
structure WellFormed (r : LogRecord) : Prop where
  shape : (r.logType.isWrite = true ∧
      r = { ofWrite r.txnId r.prevLsn r.logType r.key r.value with lsn := r.lsn }) ∨
    ((r.logType = .begin ∨ r.logType = .commit ∨ r.logType = .abort) ∧
      r = { ofTxn r.txnId r.prevLsn r.logType with lsn := r.lsn })
  size : r.size < logBufferSize
  lsn : -2 ^ 31 ≤ r.lsn ∧ r.lsn < 2 ^ 31
  prevLsn : -2 ^ 31 ≤ r.prevLsn ∧ r.prevLsn < 2 ^ 31

/-- A record of one of the six types that are appended. -/
structure Storable (r : LogRecord) : Prop where
  shape : (r.logType.isWrite = true ∧
      r = { ofWrite r.txnId r.prevLsn r.logType r.key r.value with lsn := r.lsn }) ∨
    ((r.logType = .begin ∨ r.logType = .commit ∨ r.logType = .abort ∨ r.logType = .prepared) ∧
      r = { ofTxn r.txnId r.prevLsn r.logType with lsn := r.lsn })
  size : r.size < logBufferSize
  lsn : -2 ^ 31 ≤ r.lsn ∧ r.lsn < 2 ^ 31
  prevLsn : -2 ^ 31 ≤ r.prevLsn ∧ r.prevLsn < 2 ^ 31

/-- What the decoder makes of a record: of a `PREPARED` only its number is left. -/
def decoded (r : LogRecord) : LogRecord :=
  if r.logType = .prepared then { empty with lsn := r.lsn } else r

variable {r : LogRecord} {storage before after : Bytes} {pos : Nat}

theorem WellFormed.storable (h : r.WellFormed) : r.Storable where
  shape := h.shape.imp_right fun ⟨htype, hr⟩ =>
    ⟨htype.imp_right fun htype => htype.imp_right .inl, hr⟩
  size := h.size
  lsn := h.lsn
  prevLsn := h.prevLsn

theorem WellFormed.decoded_eq (h : r.WellFormed) : r.decoded = r := by
  have hne : r.logType ≠ .prepared := by
    rcases h.shape with ⟨hwrite, -⟩ | ⟨htype, -⟩
    · intro heq
      rw [heq] at hwrite
      cases hwrite
    · rcases htype with htype | htype | htype <;> simp [htype]
  rw [decoded, if_neg hne]

@[simp] theorem decoded_lsn (r : LogRecord) : r.decoded.lsn = r.lsn := by
  unfold decoded
  split <;> rfl

theorem ofInt32_int32 {n : Int} (h : -2 ^ 31 ≤ n ∧ n < 2 ^ 31) :
    ofInt32 ((n % 2 ^ 32).toNat % 256 ^ 4) = n := by
  have hmod : (n % 2 ^ 32).toNat % 256 ^ 4 = (n % 2 ^ 32).toNat := by omega
  have hbmod : ((n % 2 ^ 32).toNat : Int).bmod (2 ^ 32) = n := by
    rw [Int.bmod_def]
    omega
  rw [hmod]
  exact hbmod

@[simp] theorem header_length (r : LogRecord) : r.header.length = 24 := by
  simp [header, int32]

/-- The fields of the header read back from their places. -/
theorem readLE_header (h : storage = before ++ r.header ++ after) (hpos : pos = before.length) :
    Bytes.readLE 4 storage pos = some (r.size % 256 ^ 4) ∧
    Bytes.readLE 4 storage (pos + 4) = some ((r.lsn % 2 ^ 32).toNat % 256 ^ 4) ∧
    Bytes.readLE 8 storage (pos + 8) = some (r.txnId.toNat % 256 ^ 8) ∧
    Bytes.readLE 4 storage (pos + 16) = some ((r.prevLsn % 2 ^ 32).toNat % 256 ^ 4) ∧
    Bytes.readLE 4 storage (pos + 20) = some (r.logType.code % 256 ^ 4) := by
  have hparts : storage = before ++ Bytes.toLE 4 r.size ++ (int32 r.lsn ++
      (Bytes.toLE 8 r.txnId.toNat ++ (int32 r.prevLsn ++ (Bytes.toLE 4 r.logType.code ++ after)))) := by
    rw [h, header]
    simp only [List.append_assoc]
  subst hpos
  constructor
  · exact Bytes.readLE_append hparts rfl
  rw [← List.append_assoc] at hparts
  constructor
  · exact Bytes.readLE_append hparts (by simp)
  rw [← List.append_assoc] at hparts
  constructor
  · exact Bytes.readLE_append hparts (by simp [int32])
  rw [← List.append_assoc] at hparts
  constructor
  · exact Bytes.readLE_append hparts (by simp [int32])
  rw [← List.append_assoc] at hparts
  exact Bytes.readLE_append hparts (by simp [int32])

theorem readString_append {s : Bytes}
    (h : storage = before ++ (Bytes.toLE 4 s.length ++ s) ++ after) (hpos : pos = before.length)
    (hsmall : s.length < 256 ^ 4) : readString storage pos = some (s, pos + 4 + s.length) := by
  have hsize : Bytes.readLE 4 storage pos = some (s.length % 256 ^ 4) := by
    apply Bytes.readLE_append _ hpos
    · exact s ++ after
    · rw [h]
      simp only [List.append_assoc]
  have hslice : Bytes.slice storage (pos + 4) s.length = some s := by
    apply Bytes.slice_append _ _ rfl
    · exact before ++ Bytes.toLE 4 s.length
    · exact after
    · rw [h]
      simp only [List.append_assoc]
    · simp [hpos]
  rw [Nat.mod_eq_of_lt hsmall] at hsize
  simp [readString, hsize, hslice]

theorem isWrite_iff (type : LogRecordType) :
    type.isWrite = true ↔ type = .insert ∨ type = .delete := by
  simp [LogRecordType.isWrite]

theorem Storable.encode_length (h : r.Storable) : r.encode.length = r.size := by
  rcases h.shape with ⟨hwrite, hr⟩ | ⟨htype, hr⟩
  · have hsize : r.size = headerSize + 4 + r.key.length + 4 + r.value.length :=
      congrArg LogRecord.size hr
    rw [encode, if_pos hwrite, hsize, headerSize]
    simp only [List.length_append, header_length, Bytes.toLE_length]
    omega
  · have hsize : r.size = headerSize := congrArg LogRecord.size hr
    have hwrite : ¬ r.logType.isWrite = true := by
      rw [isWrite_iff]
      rcases htype with htype | htype | htype | htype
      · simp [htype]
      · simp [htype]
      · simp [htype]
      · simp [htype]
    rw [encode, if_neg hwrite, header_length, hsize, headerSize]

theorem Storable.header_le (h : r.Storable) : headerSize ≤ r.size := by
  rcases h.shape with ⟨_, hr⟩ | ⟨_, hr⟩
  · have hsize : r.size = headerSize + 4 + r.key.length + 4 + r.value.length :=
      congrArg LogRecord.size hr
    omega
  · exact (congrArg LogRecord.size hr).ge

/-- The strings of an insert or delete make up its size and fit into their length fields. -/
theorem Storable.lengths (h : r.Storable)
    (hr : r = { ofWrite r.txnId r.prevLsn r.logType r.key r.value with lsn := r.lsn }) :
    r.size = 24 + 4 + r.key.length + 4 + r.value.length ∧ r.key.length < 256 ^ 4 ∧
      r.value.length < 256 ^ 4 := by
  have hsize : r.size = 24 + 4 + r.key.length + 4 + r.value.length := congrArg LogRecord.size hr
  have hsmall := h.size
  rw [logBufferSize] at hsmall
  refine ⟨hsize, ?_, ?_⟩
  · omega
  · omega

theorem encode_eq (r : LogRecord) : ∃ body, r.encode = r.header ++ body := by
  rw [encode]
  split
  · exact ⟨_, rfl⟩
  · exact ⟨[], by simp⟩

/-- The key and the value of an insert or delete read back. -/
theorem readStrings_write (before after : Bytes) (hstorage : storage = before ++
      (Bytes.toLE 4 r.key.length ++ r.key ++ (Bytes.toLE 4 r.value.length ++ r.value)) ++ after)
    (hpos : pos = before.length) (hkey : r.key.length < 256 ^ 4)
    (hvalue : r.value.length < 256 ^ 4) :
    readString storage pos = some (r.key, pos + 4 + r.key.length) ∧
      readString storage (pos + 4 + r.key.length) =
        some (r.value, pos + 4 + r.key.length + 4 + r.value.length) := by
  have hkeyAt : storage = before ++ (Bytes.toLE 4 r.key.length ++ r.key) ++
      (Bytes.toLE 4 r.value.length ++ r.value ++ after) := by
    rw [hstorage]
    simp only [List.append_assoc]
  have hvalueAt : storage = (before ++ (Bytes.toLE 4 r.key.length ++ r.key)) ++
      (Bytes.toLE 4 r.value.length ++ r.value) ++ after := by
    rw [hstorage]
    simp only [List.append_assoc]
  have hnext : pos + 4 + r.key.length =
      (before ++ (Bytes.toLE 4 r.key.length ++ r.key)).length := by
    simp only [List.length_append, Bytes.toLE_length]
    omega
  exact ⟨readString_append hkeyAt hpos hkey, readString_append hvalueAt hnext hvalue⟩

/-- The body of an insert or delete read back. -/
theorem readBody_write (before after : Bytes) (hstorage : storage = before ++
      (Bytes.toLE 4 r.key.length ++ r.key ++ (Bytes.toLE 4 r.value.length ++ r.value)) ++ after)
    (hpos : pos = before.length) (hkey : r.key.length < 256 ^ 4)
    (hvalue : r.value.length < 256 ^ 4) (hwrite : r.logType.isWrite = true) :
    readBody storage pos r.txnId r.prevLsn r.logType =
      some (ofWrite r.txnId r.prevLsn r.logType r.key r.value) := by
  obtain ⟨hreadKey, hreadValue⟩ := readStrings_write before after hstorage hpos hkey hvalue
  rcases (isWrite_iff _).mp hwrite with htype | htype
  · simp [readBody, htype, hreadKey, hreadValue]
  · simp [readBody, htype, hreadKey, hreadValue]

/-- Decoding gives back the record, wherever it stands, unless it is a
`PREPARED`. -/
theorem Storable.deserializeFrom (h : r.Storable)
    (hstorage : storage = before ++ r.encode ++ after) (hpos : pos = before.length) :
    LogRecord.deserializeFrom storage pos = some r.decoded := by
  have htxn : UInt64.ofNat (r.txnId.toNat % 256 ^ 8) = r.txnId := by
    have hlt : r.txnId.toNat < 256 ^ 8 := UInt64.toNat_lt r.txnId
    rw [Nat.mod_eq_of_lt hlt, UInt64.ofNat_toNat]
  have hcode : LogRecordType.ofCode (r.logType.code % 256 ^ 4) = r.logType := by
    rw [Nat.mod_eq_of_lt r.logType.code_lt, LogRecordType.ofCode_code]
  obtain ⟨body, hencode⟩ := encode_eq r
  have hheader : storage = before ++ r.header ++ (body ++ after) := by
    rw [hstorage, hencode]
    simp only [List.append_assoc]
  obtain ⟨_, hlsnAt, htxnAt, hprevAt, hcodeAt⟩ := readLE_header hheader hpos
  have hbody : ∃ res, readBody storage (pos + 24) r.txnId r.prevLsn r.logType = some res ∧
      { res with lsn := r.lsn } = r.decoded := by
    rcases h.shape with ⟨hwrite, hr⟩ | ⟨htype, hr⟩
    · obtain ⟨_, hkey, hvalue⟩ := h.lengths hr
      have hne : r.logType ≠ .prepared := by
        intro heq
        rw [heq] at hwrite
        cases hwrite
      rw [decoded, if_neg hne]
      refine ⟨ofWrite r.txnId r.prevLsn r.logType r.key r.value, ?_, hr.symm⟩
      apply readBody_write (before ++ r.header) after
      · rw [hstorage, encode, if_pos hwrite]
        simp only [List.append_assoc]
      · simp [hpos]
      · exact hkey
      · exact hvalue
      · exact hwrite
    · by_cases hprepared : r.logType = .prepared
      · exact ⟨empty, by rw [hprepared, readBody], by rw [decoded, if_pos hprepared]⟩
      · rw [decoded, if_neg hprepared]
        refine ⟨ofTxn r.txnId r.prevLsn r.logType, ?_, hr.symm⟩
        rcases htype with htype | htype | htype | htype
        · rw [htype, readBody]
        · rw [htype, readBody]
        · rw [htype, readBody]
        · exact absurd htype hprepared
  obtain ⟨res, hres, hr⟩ := hbody
  simp only [LogRecord.deserializeFrom, hlsnAt, htxnAt, hprevAt, hcodeAt, htxn, hcode,
    ofInt32_int32 h.lsn, ofInt32_int32 h.prevLsn, hres, Option.bind_eq_bind, Option.bind_some]
  rw [Option.pure_def, hr]

end LogRecord

/-- The bytes of a log file. -/
def encodeLog (log : List LogRecord) : Bytes := (log.map LogRecord.encode).flatten

@[simp] theorem encodeLog_nil : encodeLog [] = [] := rfl

@[simp] theorem encodeLog_cons (r : LogRecord) (log : List LogRecord) :
    encodeLog (r :: log) = r.encode ++ encodeLog log := by
  simp [encodeLog]

@[simp] theorem encodeLog_append (log log' : List LogRecord) :
    encodeLog (log ++ log') = encodeLog log ++ encodeLog log' := by
  simp [encodeLog]

theorem encodeLog_concat_length {r : LogRecord} (hr : r.Storable) (done : List LogRecord) :
    (encodeLog (done ++ [r])).length = (encodeLog done).length + r.size := by
  simp only [encodeLog_append, encodeLog_cons, encodeLog_nil, List.append_nil, List.length_append,
    hr.encode_length]

/-- A record lies before the end of the file. -/
theorem encodeLog_lt {r : LogRecord} (hr : r.Storable) (done todo : List LogRecord) :
    (encodeLog done).length < (encodeLog (done ++ r :: todo)).length := by
  have hheader := hr.header_le
  rw [LogRecord.headerSize] at hheader
  simp only [encodeLog_append, encodeLog_cons, List.length_append, hr.encode_length]
  omega

/-- A record as the scan finds it: its place in the file, the size that was probed
and what was decoded. -/
structure Visit where
  offset : Nat
  size : Nat
  log : LogRecord
  deriving DecidableEq, Repr

/-- The records as they lie in the file from `offset` on. -/
def places (offset : Nat) : List LogRecord → List Visit
  | [] => []
  | r :: rest => ⟨offset, r.size, r.decoded⟩ :: places (offset + r.size) rest

theorem places_append (offset : Nat) {first : List LogRecord} (hall : ∀ r ∈ first, r.Storable)
    (second : List LogRecord) : places offset (first ++ second) =
      places offset first ++ places (offset + (encodeLog first).length) second := by
  induction first generalizing offset with
  | nil => rfl
  | cons r first ih =>
      have hr := (hall r (by simp)).encode_length
      rw [List.cons_append, places, places, ih _ (fun r' hr' => hall r' (by simp [hr']))]
      simp only [encodeLog_cons, List.length_append, hr, List.cons_append, Nat.add_assoc]

namespace RecoveryManager

section Scan

/-- What `Redo` does with a record. -/
def visit (m : RecoveryManager) (v : Visit) : RecoveryManager :=
  (m.remember v.log.lsn v.offset v.size).redoLog v.log

/-- The records that the inner loop of `Redo` decodes, and the offset at which it
leaves the window. -/
def scanWindow (buffer : Bytes) (offset : Nat) : Nat → Nat → Option (List Visit × Nat)
  | 0, _ => none
  | rounds + 1, inner => do
      let size ← Bytes.readLE 4 buffer inner
      if size = 0 ∨ logBufferSize < (size + inner) % 2 ^ 32 then pure ([], inner)
      else do
        let log ← LogRecord.deserializeFrom buffer inner
        let (visits, leave) ← scanWindow buffer offset rounds ((size + inner) % 2 ^ 32)
        pure (⟨offset + inner, size, log⟩ :: visits, leave)

/-- The records that the outer loop decodes, and the buffer that it leaves. -/
def scanFile (file : Bytes) (bound : Nat) : Nat → Bytes → Nat → Option (List Visit × Bytes)
  | 0, _, _ => none
  | rounds + 1, buffer, offset =>
      match LogStorage.readLog file buffer logBufferSize offset with
      | (false, _) => some ([], buffer)
      | (true, buffer) => do
          let (visits, inner) ← scanWindow buffer offset bound 0
          let (later, buffer) ← scanFile file bound rounds buffer (offset + inner)
          pure (visits ++ later, buffer)

def maxLsnVisited (maxLsn : Int) (visits : List Visit) : Int :=
  visits.foldl (fun maxLsn v => max maxLsn v.log.lsn) maxLsn

variable {m : RecoveryManager} {file : Bytes} {bound rounds offset inner : Nat} {maxLsn : Int}

@[simp] theorem setBuffer_buffer (m : RecoveryManager) (buffer : Bytes) :
    (m.setBuffer buffer).buffer = buffer := rfl

@[simp] theorem redoLog_buffer (m : RecoveryManager) (r : LogRecord) :
    (m.redoLog r).buffer = m.buffer := by
  unfold redoLog
  cases r.logType <;> rfl

@[simp] theorem remember_buffer (m : RecoveryManager) (lsn : Int) (offset size : Nat) :
    (m.remember lsn offset size).buffer = m.buffer := rfl

@[simp] theorem visit_buffer (m : RecoveryManager) (v : Visit) :
    (m.visit v).buffer = m.buffer := redoLog_buffer _ _

theorem visit_setBuffer (m : RecoveryManager) (buffer : Bytes) (v : Visit) :
    (m.setBuffer buffer).visit v = (m.visit v).setBuffer buffer := by
  unfold visit redoLog
  cases v.log.logType <;> rfl

theorem visits_setBuffer (m : RecoveryManager) (buffer : Bytes) (visits : List Visit) :
    visits.foldl visit (m.setBuffer buffer) = (visits.foldl visit m).setBuffer buffer := by
  induction visits generalizing m with
  | nil => rfl
  | cons v visits ih => rw [List.foldl_cons, List.foldl_cons, visit_setBuffer, ih]

/-- The inner loop does nothing but visit the records that it decodes. -/
theorem redoWindow_scan (offset rounds : Nat) (m : RecoveryManager) (inner : Nat) (maxLsn : Int) :
    redoWindow offset rounds m inner maxLsn = (scanWindow m.buffer offset rounds inner).map
      fun (visits, leave) => (visits.foldl visit m, leave, maxLsnVisited maxLsn visits) := by
  induction rounds generalizing m inner maxLsn with
  | zero => rfl
  | succ rounds ih =>
      rw [redoWindow, scanWindow]
      cases Bytes.readLE 4 m.buffer inner with
      | none => rfl
      | some size =>
          simp only [Option.bind_eq_bind, Option.bind_some]
          split
          · rfl
          · cases LogRecord.deserializeFrom m.buffer inner with
            | none => rfl
            | some log =>
                have hvisit : (m.remember log.lsn (offset + inner) size).redoLog log =
                    m.visit ⟨offset + inner, size, log⟩ := rfl
                simp only [Option.bind_some, hvisit]
                rw [ih, visit_buffer]
                cases scanWindow m.buffer offset rounds ((size + inner) % 2 ^ 32) with
                | none => rfl
                | some found => rfl

/-- The outer loop as well. -/
theorem redoLoop_scan (file : Bytes) (bound rounds : Nat) (m : RecoveryManager) (offset : Nat)
    (maxLsn : Int) :
    redoLoop file bound rounds m offset maxLsn = (scanFile file bound rounds m.buffer offset).map
      fun (visits, buffer) =>
        ((visits.foldl visit m).setBuffer buffer, maxLsnVisited maxLsn visits) := by
  induction rounds generalizing m offset maxLsn with
  | zero => rfl
  | succ rounds ih =>
      rw [redoLoop, scanFile]
      cases LogStorage.readLog file m.buffer logBufferSize offset with
      | mk found buffer =>
          cases found with
          | false => rfl
          | true =>
              simp only [redoWindow_scan, setBuffer_buffer]
              cases scanWindow buffer offset bound 0 with
              | none => rfl
              | some window =>
                  simp only [Option.map_some, Option.bind_eq_bind, Option.bind_some]
                  rw [ih, visits_setBuffer, setBuffer_buffer]
                  cases scanFile file bound rounds buffer (offset + window.2) with
                  | none => rfl
                  | some later =>
                      simp only [Option.map_some, Option.bind_some, Option.pure_def,
                        List.foldl_append, maxLsnVisited, visits_setBuffer]
                      rfl

theorem redo_scan (file : Bytes) (bound : Nat) (m : RecoveryManager) :
    m.redo file bound = (scanFile file bound bound m.buffer 0).map fun (visits, buffer) =>
      { (visits.foldl visit m).setBuffer buffer with
        logManager :=
          { (visits.foldl visit m).logManager with
            nextLsn := maxLsnVisited invalidLsn visits + 1 } } := by
  rw [redo, redoLoop_scan]
  cases scanFile file bound bound m.buffer 0 with
  | none => rfl
  | some found => rfl

end Scan

/-- The records that a window holds from `inner` on, and those that are left for
the next windows. -/
def splitWindow (inner : Nat) : List LogRecord → List LogRecord × List LogRecord
  | [] => ([], [])
  | r :: rest =>
      if inner + r.size ≤ logBufferSize then
        (r :: (splitWindow (inner + r.size) rest).1, (splitWindow (inner + r.size) rest).2)
      else ([], r :: rest)

/-- `RedoLog` on records that lie one behind the other from `offset` on. -/
def redoRecords (m : RecoveryManager) (offset : Nat) : List LogRecord → RecoveryManager
  | [] => m
  | r :: rest =>
      redoRecords ((m.remember r.lsn offset r.size).redoLog r.decoded) (offset + r.size) rest

def maxLsnOf (maxLsn : Int) (log : List LogRecord) : Int :=
  log.foldl (fun maxLsn r => max maxLsn r.lsn) maxLsn

theorem visit_places (m : RecoveryManager) (offset : Nat) (log : List LogRecord) :
    (places offset log).foldl visit m = redoRecords m offset log := by
  induction log generalizing m offset with
  | nil => rfl
  | cons r log ih =>
      rw [places, List.foldl_cons, ih, redoRecords, visit, LogRecord.decoded_lsn]

theorem maxLsnVisited_places (maxLsn : Int) (offset : Nat) (log : List LogRecord) :
    maxLsnVisited maxLsn (places offset log) = maxLsnOf maxLsn log := by
  unfold maxLsnVisited maxLsnOf
  induction log generalizing maxLsn offset with
  | nil => rfl
  | cons r log ih => rw [places, List.foldl_cons, ih, LogRecord.decoded_lsn, List.foldl_cons]

section Window

variable {buffer : Bytes} {passed todo : List LogRecord} {r : LogRecord}
  {inner offset rounds : Nat}

theorem probe_outside (hbuffer : buffer = Bytes.padTo logBufferSize (encodeLog (passed ++ todo)))
    (hout : ¬ inner + 4 ≤ logBufferSize) : Bytes.readLE 4 buffer inner = none := by
  rw [Bytes.readLE, hbuffer, Bytes.padTo_length, if_neg hout]

/-- Behind the last record of the file the window has zeros. -/
theorem probe_end (hbuffer : buffer = Bytes.padTo logBufferSize (encodeLog (passed ++ [])))
    (hinner : inner = (encodeLog passed).length) (hin : inner + 4 ≤ logBufferSize) :
    Bytes.readLE 4 buffer inner = some 0 := by
  have hzeros : Bytes.padTo (logBufferSize - (encodeLog passed).length) [] =
      Bytes.toLE 4 0 ++ List.replicate (logBufferSize - (encodeLog passed).length - 4) 0 := by
    have hsplit : logBufferSize - (encodeLog passed).length =
        4 + (logBufferSize - (encodeLog passed).length - 4) := by omega
    rw [Bytes.padTo, List.take_nil, List.nil_append, List.length_nil, Nat.sub_zero]
    nth_rewrite 1 [hsplit]
    rw [List.replicate_add]
    rfl
  rw [encodeLog_append, encodeLog_nil, Bytes.padTo_append (by omega), hzeros,
    ← List.append_assoc] at hbuffer
  exact Bytes.readLE_append hbuffer hinner

/-- Otherwise it has the size of the next record. -/
theorem probe_record
    (hbuffer : buffer = Bytes.padTo logBufferSize (encodeLog (passed ++ r :: todo)))
    (hinner : inner = (encodeLog passed).length) (hin : inner + 4 ≤ logBufferSize)
    (hsmall : r.size < logBufferSize) : Bytes.readLE 4 buffer inner = some r.size := by
  obtain ⟨body, hencode⟩ := r.encode_eq
  have hsize : ∃ rest, r.encode = Bytes.toLE 4 r.size ++ rest := by
    rw [hencode, LogRecord.header]
    simp only [List.append_assoc]
    exact ⟨_, rfl⟩
  obtain ⟨rest, hrest⟩ := hsize
  rw [encodeLog_append, encodeLog_cons, hrest, Bytes.padTo_append (by omega), List.append_assoc,
    Bytes.padTo_append (by simp only [Bytes.toLE_length]; omega), ← List.append_assoc] at hbuffer
  have hread := Bytes.readLE_append hbuffer hinner
  have hmod : r.size % 256 ^ 4 = r.size := by
    apply Nat.mod_eq_of_lt
    rw [logBufferSize] at hsmall
    omega
  rw [hread, hmod]

/-- A record that ends in the window. -/
theorem window_record
    (hbuffer : buffer = Bytes.padTo logBufferSize (encodeLog (passed ++ r :: todo)))
    (hinside : (encodeLog (passed ++ [r])).length ≤ logBufferSize) :
    ∃ after, buffer = encodeLog passed ++ r.encode ++ after := by
  simp only [encodeLog_append, encodeLog_cons, encodeLog_nil, List.append_nil,
    List.length_append] at hinside
  refine ⟨Bytes.padTo (logBufferSize - (encodeLog passed).length - r.encode.length)
    (encodeLog todo), ?_⟩
  rw [hbuffer, encodeLog_append, encodeLog_cons, Bytes.padTo_append (by omega),
    Bytes.padTo_append (by omega), List.append_assoc]

theorem scanWindow_stop {size : Nat} (hprobe : Bytes.readLE 4 buffer inner = some size)
    (hstop : size = 0 ∨ logBufferSize < (size + inner) % 2 ^ 32) :
    scanWindow buffer offset (rounds + 1) inner = some ([], inner) := by
  simp only [scanWindow, hprobe, Option.bind_eq_bind, Option.bind_some, if_pos hstop,
    Option.pure_def]

theorem scanWindow_next {size : Nat} (hprobe : Bytes.readLE 4 buffer inner = some size)
    (hgo : ¬ (size = 0 ∨ logBufferSize < (size + inner) % 2 ^ 32))
    (hlog : LogRecord.deserializeFrom buffer inner = some r) :
    scanWindow buffer offset (rounds + 1) inner =
      (scanWindow buffer offset rounds ((size + inner) % 2 ^ 32)).map
        fun (visits, leave) => (⟨offset + inner, size, r⟩ :: visits, leave) := by
  simp only [scanWindow, hprobe, Option.bind_eq_bind, Option.bind_some, if_neg hgo, hlog]
  cases scanWindow buffer offset rounds ((size + inner) % 2 ^ 32) with
  | none => rfl
  | some found => rfl

/-- One window: the records that lie in it completely, unless it is left too
close to its end. -/
theorem scanWindow_eq (passed : List LogRecord) (hall : ∀ r ∈ todo, r.Storable)
    (hbuffer : buffer = Bytes.padTo logBufferSize (encodeLog (passed ++ todo)))
    (hinner : inner = (encodeLog passed).length) (hle : inner ≤ logBufferSize)
    (hrounds : todo.length < rounds) :
    scanWindow buffer offset rounds inner =
      if inner + (encodeLog (splitWindow inner todo).1).length + 4 ≤ logBufferSize then
        some (places (offset + inner) (splitWindow inner todo).1,
          inner + (encodeLog (splitWindow inner todo).1).length)
      else none := by
  induction todo generalizing passed inner rounds with
  | nil =>
      obtain ⟨rounds, rfl⟩ := Nat.exists_eq_succ_of_ne_zero (by omega : rounds ≠ 0)
      by_cases hin : inner + 4 ≤ logBufferSize
      · rw [scanWindow_stop (probe_end hbuffer hinner hin) (.inl rfl)]
        simp [splitWindow, hin, places]
      · simp [scanWindow, probe_outside hbuffer hin, splitWindow, hin]
  | cons r todo ih =>
      obtain ⟨rounds, rfl⟩ := Nat.exists_eq_succ_of_ne_zero (by omega : rounds ≠ 0)
      have hr := hall r (by simp)
      have hsmall := hr.size
      have hheader := hr.header_le
      have hlength := hr.encode_length
      have hsum : (r.size + inner) % 2 ^ 32 = r.size + inner := by
        apply Nat.mod_eq_of_lt
        rw [logBufferSize] at hsmall hle
        omega
      rw [LogRecord.headerSize] at hheader
      by_cases hfit : inner + r.size ≤ logBufferSize
      · have hprobe := probe_record hbuffer hinner (by omega) hsmall
        have hgo : ¬ (r.size = 0 ∨ logBufferSize < (r.size + inner) % 2 ^ 32) := by
          rw [hsum]
          omega
        have hpassed : inner + r.size = (encodeLog (passed ++ [r])).length := by
          rw [encodeLog_concat_length hr, hinner]
        obtain ⟨after, hparts⟩ := window_record hbuffer (hpassed ▸ hfit)
        have hlog := hr.deserializeFrom hparts hinner
        have hsplit : splitWindow inner (r :: todo) =
            (r :: (splitWindow (inner + r.size) todo).1,
              (splitWindow (inner + r.size) todo).2) := if_pos hfit
        have hleave : inner + (encodeLog (r :: (splitWindow (inner + r.size) todo).1)).length =
            inner + r.size + (encodeLog (splitWindow (inner + r.size) todo).1).length := by
          simp only [encodeLog_cons, List.length_append, hlength]
          omega
        have hrest : scanWindow buffer offset rounds (inner + r.size) = _ :=
          ih (passed ++ [r]) (fun r' hr' => hall r' (by simp [hr'])) (by simpa using hbuffer)
            hpassed hfit (by simp only [List.length_cons] at hrounds; omega)
        rw [scanWindow_next hprobe hgo hlog, hsum, Nat.add_comm r.size inner, hrest, hsplit, hleave]
        split
        · rw [Option.map_some, places, Nat.add_assoc offset]
        · rfl
      · by_cases hin : inner + 4 ≤ logBufferSize
        · have hstop : r.size = 0 ∨ logBufferSize < (r.size + inner) % 2 ^ 32 := by
            rw [hsum]
            omega
          rw [scanWindow_stop (probe_record hbuffer hinner hin hsmall) hstop]
          simp [splitWindow, hfit, hin, places]
        · simp [scanWindow, probe_outside hbuffer hin, splitWindow, hfit, hin]

end Window

theorem splitWindow_append (inner : Nat) (todo : List LogRecord) :
    (splitWindow inner todo).1 ++ (splitWindow inner todo).2 = todo := by
  induction todo generalizing inner with
  | nil => rfl
  | cons r todo ih =>
      rw [splitWindow]
      split
      · rw [List.cons_append, ih]
      · rfl

/-- A window takes at least one record. -/
theorem splitWindow_length {r : LogRecord} (hr : r.size < logBufferSize)
    (todo : List LogRecord) : (splitWindow 0 (r :: todo)).2.length < (r :: todo).length := by
  have hfit : 0 + r.size ≤ logBufferSize := by omega
  have happend := congrArg List.length (splitWindow_append (0 + r.size) todo)
  rw [splitWindow, if_pos hfit]
  simp only [List.length_append, List.length_cons] at happend ⊢
  omega

/-- Every probe for a record lies inside the buffer: no window is left in its
last three bytes or at its end. -/
def ProbesInside (inner : Nat) : List LogRecord → Prop
  | [] => inner + 4 ≤ logBufferSize
  | r :: rest =>
      if inner + r.size ≤ logBufferSize then ProbesInside (inner + r.size) rest
      else inner + 4 ≤ logBufferSize ∧ ProbesInside r.size rest

instance ProbesInside.decidable (inner : Nat) (log : List LogRecord) :
    Decidable (ProbesInside inner log) :=
  match log with
  | [] => inferInstanceAs (Decidable (inner + 4 ≤ logBufferSize))
  | r :: rest =>
      have := ProbesInside.decidable (inner + r.size) rest
      have := ProbesInside.decidable r.size rest
      inferInstanceAs (Decidable (if inner + r.size ≤ logBufferSize then
        ProbesInside (inner + r.size) rest
      else inner + 4 ≤ logBufferSize ∧ ProbesInside r.size rest))

theorem probesInside_iff (inner : Nat) {todo : List LogRecord} (hall : ∀ r ∈ todo, r.Storable) :
    ProbesInside inner todo ↔
      inner + (encodeLog (splitWindow inner todo).1).length + 4 ≤ logBufferSize ∧
        ((splitWindow inner todo).2 = [] ∨ ProbesInside 0 (splitWindow inner todo).2) := by
  induction todo generalizing inner with
  | nil => simp [ProbesInside, splitWindow]
  | cons r todo ih =>
      have hr := hall r (by simp)
      by_cases hfit : inner + r.size ≤ logBufferSize
      · have hrest := ih (inner + r.size) (fun r' hr' => hall r' (by simp [hr']))
        rw [ProbesInside, if_pos hfit, hrest, splitWindow, if_pos hfit]
        simp only [encodeLog_cons, List.length_append, hr.encode_length, Nat.add_assoc]
      · have hfresh : 0 + r.size ≤ logBufferSize := by
          have hsmall := hr.size
          omega
        have hzero : ProbesInside 0 (r :: todo) ↔ ProbesInside r.size todo := by
          rw [ProbesInside, if_pos hfresh, Nat.zero_add]
        rw [ProbesInside, if_neg hfit, splitWindow, if_neg hfit, hzero]
        simp

section File

variable {m : RecoveryManager} {file buffer : Bytes} {done todo : List LogRecord}
  {offset rounds bound : Nat}

theorem redoRecords_logManager (m : RecoveryManager) (offset : Nat) (log : List LogRecord) :
    (redoRecords m offset log).logManager = m.logManager := by
  induction log generalizing m offset with
  | nil => rfl
  | cons r log ih =>
      rw [redoRecords, ih]
      unfold redoLog
      cases r.decoded.logType <;> rfl

theorem redoRecords_append (m : RecoveryManager) (offset : Nat) {first : List LogRecord}
    (hall : ∀ r ∈ first, r.Storable) (second : List LogRecord) :
    redoRecords m offset (first ++ second) =
      redoRecords (redoRecords m offset first) (offset + (encodeLog first).length) second := by
  induction first generalizing m offset with
  | nil => rfl
  | cons r first ih =>
      have hr := (hall r (by simp)).encode_length
      rw [List.cons_append, redoRecords, redoRecords,
        ih _ _ (fun r' hr' => hall r' (by simp [hr']))]
      simp only [encodeLog_cons, List.length_append, hr, Nat.add_assoc]

theorem maxLsnOf_append (maxLsn : Int) (first second : List LogRecord) :
    maxLsnOf maxLsn (first ++ second) = maxLsnOf (maxLsnOf maxLsn first) second := by
  simp [maxLsnOf]

/-- In a file of less than 2^31 bytes the size is what it seems. -/
theorem readLog_eq (hsmall : file.length < 2 ^ 31) (buffer : Bytes) (size offset : Nat) :
    LogStorage.readLog file buffer size offset =
      if file.length ≤ offset then (false, buffer)
      else (true, Bytes.padTo size (file.drop offset) ++ buffer.drop size) := by
  have hmod : file.length % 2 ^ 32 = file.length := by omega
  have hsize : LogStorage.getFileSize file = file.length := by
    rw [LogStorage.getFileSize, hmod, if_pos hsmall]
  rw [LogStorage.readLog, hsize]

theorem scanFile_end (hread : LogStorage.readLog file buffer logBufferSize offset =
      (false, buffer)) : scanFile file bound (rounds + 1) buffer offset = some ([], buffer) := by
  simp only [scanFile, hread]

/-- One round: the records of a window, unless it is left too close to its
end. -/
theorem scanFile_window (rounds : Nat) (done : List LogRecord) {r : LogRecord}
    (hall : ∀ r' ∈ r :: todo, r'.Storable) (hfile : file = encodeLog (done ++ r :: todo))
    (hsmall : file.length < 2 ^ 31) (hoffset : offset = (encodeLog done).length)
    (hbuffer : buffer.length = logBufferSize) (hbound : (r :: todo).length < bound) :
    ∃ next, next.length = logBufferSize ∧
      scanFile file bound (rounds + 1) buffer offset =
        if 0 + (encodeLog (splitWindow 0 (r :: todo)).1).length + 4 ≤ logBufferSize then
          (scanFile file bound rounds next
            (offset + (encodeLog (splitWindow 0 (r :: todo)).1).length)).map
              fun (later, buffer) => (places offset (splitWindow 0 (r :: todo)).1 ++ later, buffer)
        else none := by
  have hmore : ¬ file.length ≤ offset := by
    rw [hfile, hoffset, not_le]
    exact encodeLog_lt (hall r (by simp)) done todo
  have hread := readLog_eq hsmall buffer logBufferSize offset
  rw [if_neg hmore, hfile, hoffset, encodeLog_append, List.drop_left,
    List.drop_eq_nil_of_le hbuffer.le, List.append_nil, ← encodeLog_append, ← hfile,
    ← hoffset] at hread
  have hwindow : scanWindow (Bytes.padTo logBufferSize (encodeLog (r :: todo))) offset bound 0 = _ :=
    scanWindow_eq [] hall rfl rfl (Nat.zero_le _) hbound
  refine ⟨_, Bytes.padTo_length logBufferSize (encodeLog (r :: todo)), ?_⟩
  simp only [scanFile, hread, hwindow]
  split
  · rw [Option.bind_eq_bind, Option.bind_some, Nat.zero_add, Nat.add_zero]
    cases scanFile file bound rounds (Bytes.padTo logBufferSize (encodeLog (r :: todo)))
      (offset + (encodeLog (splitWindow 0 (r :: todo)).1).length) with
    | none => rfl
    | some found => rfl
  · rfl

/-- The whole scan: the records of the file, each once and in order. -/
theorem scanFile_eq (done : List LogRecord) (hall : ∀ r ∈ todo, r.Storable)
    (hfile : file = encodeLog (done ++ todo)) (hsmall : file.length < 2 ^ 31)
    (hoffset : offset = (encodeLog done).length) (hbuffer : buffer.length = logBufferSize)
    (hbound : todo.length < bound) (hrounds : todo.length < rounds) :
    (todo = [] ∨ ProbesInside 0 todo → ∃ buffer',
      scanFile file bound rounds buffer offset = some (places offset todo, buffer')) ∧
    (¬ (todo = [] ∨ ProbesInside 0 todo) →
      scanFile file bound rounds buffer offset = none) := by
  induction rounds generalizing done todo buffer offset with
  | zero => omega
  | succ rounds ih =>
      cases todo with
      | nil =>
          have hend : file.length ≤ offset := by simp [hfile, hoffset]
          have hread := readLog_eq hsmall buffer logBufferSize offset
          rw [if_pos hend] at hread
          refine ⟨fun _ => ⟨buffer, scanFile_end hread⟩, fun hnot => ?_⟩
          exact absurd (.inl rfl) hnot
      | cons r todo =>
          obtain ⟨next, hnext, hround⟩ := scanFile_window rounds
            done hall hfile hsmall hoffset hbuffer hbound
          have hiff := probesInside_iff 0 hall
          have hparts := splitWindow_append 0 (r :: todo)
          have hless := splitWindow_length (hall r (by simp)).size todo
          generalize splitWindow 0 (r :: todo) = window at hround hiff hparts hless
          have hfirst : ∀ r' ∈ window.1, r'.Storable := by
            intro r' hr'
            apply hall
            rw [← hparts]
            exact List.mem_append_left window.2 hr'
          have hsecond : ∀ r' ∈ window.2, r'.Storable := by
            intro r' hr'
            apply hall
            rw [← hparts]
            exact List.mem_append_right window.1 hr'
          have hlog : file = encodeLog (done ++ window.1 ++ window.2) := by
            rw [List.append_assoc, hparts, hfile]
          have hleft : offset + (encodeLog window.1).length =
              (encodeLog (done ++ window.1)).length := by
            rw [encodeLog_append, List.length_append, hoffset]
          obtain ⟨hyes, hno⟩ := ih (done ++ window.1) hsecond hlog hleft hnext (by omega) (by omega)
          rw [hround]
          constructor
          · intro hinside
            obtain ⟨hleave, hprobes⟩ := hiff.mp (hinside.resolve_left (List.cons_ne_nil _ _))
            obtain ⟨buffer', heq⟩ := hyes hprobes
            refine ⟨buffer', ?_⟩
            rw [if_pos hleave, heq, Option.map_some, ← hparts, places_append offset hfirst]
          · intro hinside
            split
            case isTrue hleave =>
              have hlater : ¬ (window.2 = [] ∨ ProbesInside 0 window.2) := by
                intro hprobes
                exact hinside (.inr (hiff.mpr ⟨hleave, hprobes⟩))
              rw [hno hlater, Option.map_none]
            case isFalse => rfl

/-- The scan from the start of the file. -/
theorem scanFile_records {log : List LogRecord} (hall : ∀ r ∈ log, r.Storable)
    (hsmall : (encodeLog log).length < 2 ^ 31) (hbuffer : buffer.length = logBufferSize)
    (hbound : log.length < bound) :
    (ProbesInside 0 log → ∃ buffer',
      scanFile (encodeLog log) bound bound buffer 0 = some (places 0 log, buffer')) ∧
    (¬ ProbesInside 0 log → scanFile (encodeLog log) bound bound buffer 0 = none) := by
  have hscan : (log = [] ∨ ProbesInside 0 log → ∃ buffer',
      scanFile (encodeLog log) bound bound buffer 0 = some (places 0 log, buffer')) ∧
      (¬ (log = [] ∨ ProbesInside 0 log) →
        scanFile (encodeLog log) bound bound buffer 0 = none) :=
    scanFile_eq [] hall rfl hsmall rfl hbuffer hbound hbound
  have hempty : log = [] → ProbesInside 0 log := by
    rintro rfl
    exact (by decide : 0 + 4 ≤ logBufferSize)
  constructor
  · intro hprobes
    exact hscan.1 (.inr hprobes)
  · intro hprobes
    exact hscan.2 fun hor => hprobes (hor.elim hempty id)

/-- `Redo` from the start of the file. -/
theorem redo_records {log : List LogRecord} (logManager : LogManager)
    (hall : ∀ r ∈ log, r.Storable) (hsmall : (encodeLog log).length < 2 ^ 31)
    (hbound : log.length < bound) :
    (ProbesInside 0 log → ∃ buffer, (new logManager).redo (encodeLog log) bound =
      some { (redoRecords (new logManager) 0 log).setBuffer buffer with
        logManager := ⟨maxLsnOf invalidLsn log + 1, logManager.log⟩ }) ∧
    (¬ ProbesInside 0 log → (new logManager).redo (encodeLog log) bound = none) := by
  have hbuffer : (new logManager).buffer.length = logBufferSize := by simp [new]
  obtain ⟨hyes, hno⟩ := scanFile_records hall hsmall hbuffer hbound
  rw [redo_scan]
  constructor
  · intro hprobes
    obtain ⟨buffer, hscan⟩ := hyes hprobes
    have hkept : (redoRecords (new logManager) 0 log).logManager.log = logManager.log := by
      rw [redoRecords_logManager]
      rfl
    refine ⟨buffer, ?_⟩
    simp only [hscan, Option.map_some, visit_places, maxLsnVisited_places, hkept]
  · intro hprobes
    rw [hno hprobes, Option.map_none]

end File

end RecoveryManager

end RucDDBS
