import RucDDBS.Recovery.Aries

/-!
Recovery of transactions that have voted. `PrepareCommit` logs a `PREPARED`, but
the decoder has no case for it and hands on an empty record of transaction 0.
The table of active transactions therefore still has the voter under its last
other record, `Undo` takes it back like any unfinished transaction, and an
`ABORT` is written for it. The numbers in a log with votes still go down along
the `prev_lsn` chains, so that the undo phase ends.
-/

namespace RucDDBS

/-- Logs of transactions with their votes. -/
inductive Voted : List LogRecord → Prop
  | nil : Voted []
  | snoc {log : List LogRecord} {r : LogRecord} :
      Voted log → Allowed log r → Voted (log ++ [r])
  | prepared {log : List LogRecord} {txnId : TxnId} :
      Voted log → appears log txnId = true → finished log txnId = false →
      Voted (log ++
        [{ LogRecord.ofTxn txnId (lastLsn log txnId) .prepared with lsn := log.length }])

def prepared (log : List LogRecord) (txnId : TxnId) : Bool :=
  log.any fun r => r.txnId = txnId && r.logType = .prepared

/-- The numbers of a record: its own is its place, and it points back. -/
structure Placed (log : List LogRecord) (r : LogRecord) : Prop where
  lsn : r.lsn = log.length
  prevLsn : -1 ≤ r.prevLsn ∧ r.prevLsn < log.length

/-- Every record of the log is in its place. -/
def Numbered (log : List LogRecord) : Prop :=
  ∀ done r later, log = done ++ r :: later → Placed done r

namespace Numbered

variable {log : List LogRecord} {r : LogRecord}

theorem nil : Numbered [] := by
  intro done r later hsplit
  simp at hsplit

theorem snoc (h : Numbered log) (hr : Placed log r) : Numbered (log ++ [r]) := by
  intro done r' later hsplit
  rcases List.eq_nil_or_concat later with rfl | ⟨front, last, rfl⟩
  · obtain ⟨rfl, hlast⟩ := List.append_inj' hsplit rfl
    cases hlast
    exact hr
  · rw [List.concat_eq_append, ← List.cons_append, ← List.append_assoc] at hsplit
    obtain ⟨hfront, _⟩ := List.append_inj' hsplit rfl
    exact h done r' front hfront

theorem of_snoc (h : Numbered (log ++ [r])) : Numbered log ∧ Placed log r := by
  refine ⟨?_, h log r [] rfl⟩
  intro done r' later hsplit
  exact h done r' (later ++ [r]) (by simp [hsplit])

/-- A number below the length is that of a record. -/
theorem exists_record (log : List LogRecord) {lsn : Int} (hlow : 0 ≤ lsn) (hhigh : lsn < log.length) :
    ∃ done r later, log = done ++ r :: later ∧ lsn = done.length := by
  obtain ⟨n, rfl⟩ := Int.eq_ofNat_of_zero_le hlow
  have hn : n < log.length := by omega
  refine ⟨log.take n, log.get ⟨n, hn⟩, log.drop (n + 1), ?_, ?_⟩
  · simp
  · rw [List.length_take, Nat.min_eq_left hn.le]

end Numbered

namespace Voted

variable {log : List LogRecord} {txnId : TxnId}

theorem lastLsn_bounds (h : Voted log) (txnId : TxnId) :
    -1 ≤ lastLsn log txnId ∧ lastLsn log txnId < log.length := by
  have hstep {log : List LogRecord} {r : LogRecord} (hlsn : r.lsn = log.length)
      (hold : -1 ≤ lastLsn log txnId ∧ lastLsn log txnId < log.length) :
      -1 ≤ lastLsn (log ++ [r]) txnId ∧ lastLsn (log ++ [r]) txnId < (log ++ [r]).length := by
    rw [lastLsn_append]
    simp only [List.length_append, List.length_singleton]
    split
    · omega
    · omega
  induction h with
  | nil => simp [lastLsn, invalidLsn]
  | snoc _ hallowed ih => exact hstep hallowed.lsn ih
  | prepared _ _ _ ih => exact hstep rfl ih

theorem numbered (h : Voted log) : Numbered log := by
  induction h with
  | nil => exact .nil
  | @snoc log r hlog hallowed ih =>
      refine ih.snoc ⟨hallowed.lsn, ?_⟩
      rw [hallowed.prevLsn]
      exact hlog.lastLsn_bounds r.txnId
  | @prepared log txnId hlog _ _ ih => exact ih.snoc ⟨rfl, hlog.lastLsn_bounds txnId⟩

theorem of_appended (h : Appended log) : Voted log := by
  induction h with
  | nil => exact .nil
  | snoc _ hallowed ih => exact .snoc ih hallowed

theorem storable (h : Voted log) (hsmall : log.length < 2 ^ 31) : ∀ r ∈ log, r.Storable := by
  have hstep {log : List LogRecord} {r : LogRecord} (hold : ∀ r ∈ log, r.Storable)
      (hr : r.Storable) : ∀ r' ∈ log ++ [r], r'.Storable := by
    intro r' hr'
    rcases List.mem_append.mp hr' with hr' | hr'
    · exact hold r' hr'
    · rw [List.mem_singleton.mp hr']
      exact hr
  induction h with
  | nil => simp
  | @snoc log r hlog hallowed ih =>
      rw [List.length_append, List.length_singleton] at hsmall
      have hlsn := hallowed.lsn
      have hprev := hallowed.prevLsn
      have hbounds := hlog.lastLsn_bounds r.txnId
      have hwf : r.WellFormed := ⟨hallowed.shape, hallowed.size, by omega, by omega⟩
      exact hstep (ih (by omega)) hwf.storable
  | @prepared log txnId hlog _ _ ih =>
      rw [List.length_append, List.length_singleton] at hsmall
      have hbounds := hlog.lastLsn_bounds txnId
      refine hstep (ih (by omega)) ⟨.inr ⟨.inr (.inr (.inr rfl)), rfl⟩, ?_, ?_, ?_⟩
      · exact (by decide : LogRecord.headerSize < logBufferSize)
      · show -2 ^ 31 ≤ (log.length : Int) ∧ (log.length : Int) < 2 ^ 31
        omega
      · show -2 ^ 31 ≤ lastLsn log txnId ∧ lastLsn log txnId < 2 ^ 31
        omega

end Voted

namespace RecoveryManager

variable {m : RecoveryManager} {log : List LogRecord} {r : LogRecord} {txnId : TxnId}
  {bound : Nat}

section Redo

/-- The places of the records are known after the scan. -/
theorem redoRecords_lsnMapping (logManager : LogManager) (hlog : Numbered log)
    (hall : ∀ r ∈ log, r.Storable) {done later : List LogRecord} (hsplit : log = done ++ r :: later) :
    (redoRecords (new logManager) 0 log).lsnMapping r.lsn =
      some ((encodeLog done).length, r.size) := by
  induction log using List.reverseRecOn generalizing later with
  | nil => simp at hsplit
  | append_singleton log last ih =>
      obtain ⟨hfront, hlast⟩ := hlog.of_snoc
      have hold : ∀ r' ∈ log, r'.Storable := fun r' hr' => hall r' (by simp [hr'])
      rw [redoRecords_append _ _ hold, Nat.zero_add, redoRecords, redoRecords, redoLog_lsnMapping]
      show Function.update (redoRecords (new logManager) 0 log).lsnMapping last.lsn
        (some ((encodeLog log).length, last.size)) r.lsn = _
      rcases List.eq_nil_or_concat later with rfl | ⟨front, last', rfl⟩
      · obtain ⟨rfl, heq⟩ := List.append_inj' hsplit rfl
        cases heq
        exact Function.update_self _ _ _
      · rw [List.concat_eq_append, ← List.cons_append, ← List.append_assoc] at hsplit
        obtain ⟨hparts, _⟩ := List.append_inj' hsplit rfl
        have hplace := (hfront done r front hparts).lsn
        have hne : r.lsn ≠ last.lsn := by
          rw [hplace, hlast.lsn, hparts, List.length_append, List.length_cons]
          omega
        rw [Function.update_of_ne hne]
        exact ih hfront hold hparts

/-- Every active transaction is noted with the number of a record. -/
theorem redoRecords_active_lsn (logManager : LogManager) (hlog : Numbered log)
    (hall : ∀ r ∈ log, r.Storable) {lsn : Int}
    (hactive : (redoRecords (new logManager) 0 log).activeTxn.get txnId = some lsn) :
    0 ≤ lsn ∧ lsn < log.length := by
  induction log using List.reverseRecOn with
  | nil => simp [redoRecords, new] at hactive
  | append_singleton log last ih =>
      obtain ⟨hfront, hlast⟩ := hlog.of_snoc
      have hold : ∀ r' ∈ log, r'.Storable := fun r' hr' => hall r' (by simp [hr'])
      rw [redoRecords_append _ _ hold, redoRecords, redoRecords, redoLog_activeTxn,
        LogRecord.decoded_lsn, hlast.lsn] at hactive
      rw [List.length_append, List.length_singleton]
      split at hactive
      · split at hactive
        · cases hactive
        · cases hactive
          omega
      · have hbounds := ih hfront hold hactive
        omega

/-- A transaction that has begun and not ended is active, whether it has voted or
not. -/
theorem redoRecords_active (logManager : LogManager) (hlog : Voted log)
    (hall : ∀ r ∈ log, r.Storable) (happears : appears log txnId = true)
    (hopen : finished log txnId = false) :
    ((redoRecords (new logManager) 0 log).activeTxn.get txnId).isSome = true := by
  induction hlog with
  | nil => cases happears
  | @snoc log r hlog hallowed ih =>
      have hold : ∀ r' ∈ log, r'.Storable := fun r' hr' => hall r' (by simp [hr'])
      have hdecoded : r.decoded = r := by
        rw [LogRecord.decoded, if_neg]
        intro heq
        rcases hallowed.shape with ⟨hwrite, -⟩ | ⟨htype, -⟩
        · rw [heq] at hwrite
          cases hwrite
        · simp [heq] at htype
      rw [finished_append, Bool.or_eq_false_iff] at hopen
      rw [appears_append, Bool.or_eq_true, decide_eq_true_eq] at happears
      rw [redoRecords_append _ _ hold, redoRecords, redoRecords, hdecoded, redoLog_activeTxn]
      by_cases htxn : txnId = r.txnId
      · have hends : r.ends = false := by simpa [htxn] using hopen.2
        rw [if_pos htxn, hends]
        rfl
      · rw [if_neg htxn]
        exact ih hold (happears.resolve_right fun heq => htxn heq.symm) hopen.1
  | @prepared log txnId' hlog happears' hopen' ih =>
      have hold : ∀ r' ∈ log, r'.Storable := fun r' hr' => hall r' (by simp [hr'])
      rw [finished_append, Bool.or_eq_false_iff] at hopen
      have hbefore : appears log txnId = true := by
        rw [appears_append, Bool.or_eq_true, decide_eq_true_eq] at happears
        rcases happears with happears | rfl
        · exact happears
        · exact happears'
      rw [redoRecords_append _ _ hold, redoRecords, redoRecords, redoLog_activeTxn]
      -- only transaction 0 is touched, and it becomes active
      split
      · rfl
      · exact ih hold hbefore hopen.1

end Redo

section Undo

theorem undoLog_active (m : RecoveryManager) (r : LogRecord)
    (hactive : (m.activeTxn.get txnId).isSome = true) :
    ((m.undoLog r).activeTxn.get txnId).isSome = true := by
  have hput (lsn : Int) : ((m.activeTxn.put r.txnId lsn).get txnId).isSome = true := by
    rw [SortedMap.get_put]
    split
    · rfl
    · exact hactive
  unfold undoLog
  cases r.logType
  case insert => exact hput _
  case delete => exact hput _
  all_goals exact hactive

/-- Following the chain from the greatest number leads to smaller ones. -/
theorem next_below (hr : Placed log r) {nextLsn : Finset Int}
    (hnext : ∀ lsn ∈ nextLsn, 0 ≤ lsn) (hmax : nextLsn.max = some r.lsn) :
    ∀ lsn ∈ (if r.decoded.prevLsn = invalidLsn then nextLsn.erase r.lsn
      else insert r.decoded.prevLsn (nextLsn.erase r.lsn)), 0 ≤ lsn ∧ lsn < log.length := by
  have herase : ∀ lsn ∈ nextLsn.erase r.lsn, 0 ≤ lsn ∧ lsn < log.length := by
    intro lsn hlsn
    obtain ⟨hne, hmem⟩ := Finset.mem_erase.mp hlsn
    have hle : lsn ≤ r.lsn := Finset.le_max_of_eq hmem hmax
    have hlow := hnext lsn hmem
    have hplace := hr.lsn
    omega
  intro lsn hlsn
  split at hlsn
  case isTrue => exact herase lsn hlsn
  case isFalse hvalid =>
    rcases Finset.mem_insert.mp hlsn with rfl | hlsn
    · have hprev := hr.prevLsn
      unfold LogRecord.decoded at hvalid ⊢
      split at hvalid
      · exact absurd rfl hvalid
      case isFalse hother =>
        rw [if_neg hother]
        rw [invalidLsn] at hvalid
        omega
    · exact herase lsn hlsn

/-- The undo phase ends, since the greatest number goes down, and keeps all
transactions active. -/
theorem undoLoop_ends (rounds : Nat) (hlog : Numbered log) (hall : ∀ r ∈ log, r.Storable)
    (hsmall : (encodeLog log).length < 2 ^ 31)
    (hmapping : ∀ done r later, log = done ++ r :: later →
      m.lsnMapping r.lsn = some ((encodeLog done).length, r.size))
    {nextLsn : Finset Int} {limit : Nat} (hle : limit ≤ log.length)
    (hnext : ∀ lsn ∈ nextLsn, 0 ≤ lsn ∧ lsn < limit) (hrounds : limit < rounds) :
    ∃ m', undoLoop (encodeLog log) rounds m nextLsn = some m' ∧
      ∀ txnId, (m.activeTxn.get txnId).isSome = true → (m'.activeTxn.get txnId).isSome = true := by
  induction rounds generalizing m nextLsn limit with
  | zero => omega
  | succ rounds ih =>
      cases hmax : nextLsn.max with
      | bot => exact ⟨m, by simp only [undoLoop, hmax], fun _ hactive => hactive⟩
      | coe lsn =>
          obtain ⟨hlow, hhigh⟩ := hnext lsn (Finset.mem_of_max hmax)
          obtain ⟨done, r, later, hsplit, hlsn⟩ :=
            Numbered.exists_record log hlow (by omega)
          have hplaced := hlog done r later hsplit
          have hmaxr : nextLsn.max = some r.lsn := by
            rw [hmax, hlsn, ← hplaced.lsn]
            rfl
          obtain ⟨buffer, hround⟩ := undoLoop_round (m := m) rounds
            (hall r (by rw [hsplit]; simp)) (congrArg encodeLog hsplit) hsmall
            (hmapping done r later hsplit) hmaxr
          have hkept : ((m.setBuffer buffer).undoLog r.decoded).lsnMapping = m.lsnMapping :=
            undoLog_lsnMapping _ _
          obtain ⟨m', hloop, hactive⟩ := ih
            (m := (m.setBuffer buffer).undoLog r.decoded) (by rw [hkept]; exact hmapping)
            (by omega : done.length ≤ log.length)
            (next_below hplaced (fun lsn hlsn => (hnext lsn hlsn).1) hmaxr) (by omega)
          refine ⟨m', by rw [hround, hloop], ?_⟩
          intro txnId hsome
          exact hactive txnId (undoLog_active _ _ hsome)

end Undo

/-- One `ABORT` for every entry. -/
theorem appendAbortsIn_mem {order : List (TxnId × Int)} {e : TxnId × Int} (he : e ∈ order) :
    ∃ r ∈ (m.appendAbortsIn order).logManager.log, r.txnId = e.1 ∧ r.logType = .abort := by
  have hmem : e.1 ∈ (abortRecords m.logManager.nextLsn order).map LogRecord.txnId := by
    rw [abortRecords_txnId]
    exact List.mem_map_of_mem he
  obtain ⟨r, hr, htxn⟩ := List.mem_map.mp hmem
  refine ⟨r, ?_, htxn, ?_⟩
  · rw [appendAbortsIn_log]
    exact List.mem_append_right _ hr
  · rw [abortRecords_eq hr]
    rfl

section Voter

variable {order : SortedMap TxnId Int → List (TxnId × Int)}

/-- Recovery writes an `ABORT` for every transaction that has begun and not
ended. -/
theorem ariesIn_aborts (horder : ∀ map, (order map).Perm map.entries) (nextLsn : Int)
    (hlog : Voted log) (hsmall : (encodeLog log).length < 2 ^ 31)
    (hbound : (encodeLog log).length < bound) :
    (ProbesInside 0 log → ∃ m, (new ⟨nextLsn, []⟩).ariesIn order (encodeLog log) bound = some m ∧
      ∀ txnId, appears log txnId = true → finished log txnId = false →
        ∃ r ∈ m.logManager.log, r.txnId = txnId ∧ r.logType = .abort) ∧
    (¬ ProbesInside 0 log → (new ⟨nextLsn, []⟩).ariesIn order (encodeLog log) bound = none) := by
  have hlength := Appended.length_le log
  have hall := hlog.storable (by omega)
  have hrounds : log.length < bound := by omega
  obtain ⟨hyes, hno⟩ := redo_records ⟨nextLsn, []⟩ hall hsmall hrounds
  constructor
  · intro hprobes
    obtain ⟨buffer, hredo⟩ := hyes hprobes
    generalize hm : ({ (redoRecords (new ⟨nextLsn, []⟩) 0 log).setBuffer buffer with
      logManager := ⟨maxLsnOf invalidLsn log + 1, []⟩ } : RecoveryManager) = m at hredo
    have hactive : m.activeTxn = (redoRecords (new ⟨nextLsn, []⟩) 0 log).activeTxn := by
      rw [← hm]
      rfl
    have hmapping : ∀ done r later, log = done ++ r :: later →
        m.lsnMapping r.lsn = some ((encodeLog done).length, r.size) := by
      intro done r later hsplit
      rw [← hm]
      exact redoRecords_lsnMapping ⟨nextLsn, []⟩ hlog.numbered hall hsplit
    have hnext : ∀ lsn ∈ (m.activeTxn.entries.map Prod.snd).toFinset,
        0 ≤ lsn ∧ lsn < log.length := by
      intro lsn hlsn
      obtain ⟨e, he, rfl⟩ := List.mem_map.mp (List.mem_toFinset.mp hlsn)
      have hget := (SortedMap.get_eq_some_iff _ _ _).mpr he
      rw [hactive] at hget
      exact redoRecords_active_lsn ⟨nextLsn, []⟩ hlog.numbered hall hget
    obtain ⟨m', hundo, hkept⟩ :=
      undoLoop_ends bound hlog.numbered hall hsmall hmapping le_rfl hnext hrounds
    refine ⟨m'.appendAbortsIn (order m'.activeTxn), ?_, ?_⟩
    · simp only [ariesIn, hredo, Option.bind_eq_bind, Option.bind_some, hundo, Option.pure_def]
    · intro txnId happears hopen
      have hsome := hkept txnId (by
        rw [hactive]
        exact redoRecords_active ⟨nextLsn, []⟩ hlog hall happears hopen)
      obtain ⟨lsn, hlsn⟩ := Option.isSome_iff_exists.mp hsome
      have hmem : (txnId, lsn) ∈ order m'.activeTxn :=
        (horder m'.activeTxn).mem_iff.mpr ((SortedMap.get_eq_some_iff _ _ _).mp hlsn)
      exact appendAbortsIn_mem hmem
  · intro hprobes
    simp only [ariesIn, hno hprobes, Option.bind_eq_bind, Option.bind_none]

/-- The transaction can still be committed: what it wrote last is in the store, and
it has not been aborted. -/
structure Survives (log : List LogRecord) (txnId : TxnId) (m : RecoveryManager) : Prop where
  effects : ∀ key, ∀ r ∈ lastWrite log key, r.txnId = txnId → m.kv.get key = written r
  notAborted : ∀ r ∈ m.logManager.log, r.txnId = txnId → r.logType ≠ .abort

theorem appears_of_prepared (hprepared : prepared log txnId = true) :
    appears log txnId = true := by
  simp only [prepared, appears, List.any_eq_true, Bool.and_eq_true] at hprepared ⊢
  obtain ⟨r, hr, htxn, _⟩ := hprepared
  exact ⟨r, hr, htxn⟩

/-- No vote survives recovery: an `ABORT` is written for every transaction with a
`PREPARED` and neither `COMMIT` nor `ABORT`. -/
theorem prepared_never_survives (horder : ∀ map, (order map).Perm map.entries) (nextLsn : Int)
    (hlog : Voted log) (hsmall : (encodeLog log).length < 2 ^ 31)
    (hbound : (encodeLog log).length < bound) (hprepared : prepared log txnId = true)
    (hopen : finished log txnId = false) :
    (ProbesInside 0 log → ∃ m, (new ⟨nextLsn, []⟩).ariesIn order (encodeLog log) bound = some m ∧
      ∃ r ∈ m.logManager.log, r.txnId = txnId ∧ r.logType = .abort) ∧
    ¬ ∃ m, (new ⟨nextLsn, []⟩).ariesIn order (encodeLog log) bound = some m ∧
      Survives log txnId m := by
  have happears := appears_of_prepared hprepared
  obtain ⟨hyes, hno⟩ := ariesIn_aborts horder nextLsn hlog hsmall hbound
  constructor
  · intro hprobes
    obtain ⟨m, haries, haborts⟩ := hyes hprobes
    exact ⟨m, haries, haborts txnId happears hopen⟩
  · rintro ⟨m, haries, hsurvives⟩
    by_cases hprobes : ProbesInside 0 log
    · obtain ⟨m', haries', haborts⟩ := hyes hprobes
      obtain rfl : m' = m := Option.some.inj (haries'.symm.trans haries)
      obtain ⟨r, hr, htxn, habort⟩ := haborts txnId happears hopen
      exact hsurvives.notAborted r hr htxn habort
    · rw [hno hprobes] at haries
      cases haries

end Voter

/-- A transaction that has voted, and one beside it that has not. -/
def votedInsert : List LogRecord :=
  [{ LogRecord.ofTxn 1 (-1) .begin with lsn := 0 },
    { LogRecord.ofTxn 2 (-1) .begin with lsn := 1 },
    { LogRecord.ofWrite 1 0 .insert [107] [49] with lsn := 2 },
    { LogRecord.ofTxn 1 2 .prepared with lsn := 3 },
    { LogRecord.ofWrite 2 1 .insert [108] [50] with lsn := 4 }]

theorem votedInsert_voted : Voted votedInsert := by
  have hfirst : Voted (votedInsert.take 3) :=
    .of_appended (Appended.of_take _ (by decide +kernel))
  have hvote : Voted (votedInsert.take 4) :=
    @Voted.prepared (votedInsert.take 3) 1 hfirst (by decide +kernel) (by decide +kernel)
  exact .snoc hvote (by decide +kernel)

theorem votedInsert_not_survives :
    (∃ m, (new ⟨0, []⟩).ariesIn SortedMap.entries (encodeLog votedInsert) 1000 = some m ∧
      ∃ r ∈ m.logManager.log, r.txnId = 1 ∧ r.logType = .abort) ∧
    ¬ ∃ m, (new ⟨0, []⟩).ariesIn SortedMap.entries (encodeLog votedInsert) 1000 = some m ∧
      Survives votedInsert 1 m := by
  have hall := @prepared_never_survives votedInsert 1 1000 SortedMap.entries
    (fun map => .refl map.entries) 0 votedInsert_voted (by decide +kernel) (by decide +kernel)
    (by decide +kernel) (by decide +kernel)
  exact ⟨hall.1 (by decide +kernel), hall.2⟩

/-- One transaction, alone, that has put a key and voted. -/
def loneVote : List LogRecord :=
  [{ LogRecord.ofTxn 1 (-1) .begin with lsn := 0 },
    { LogRecord.ofWrite 1 0 .insert [107] [49] with lsn := 1 },
    { LogRecord.ofTxn 1 1 .prepared with lsn := 2 }]

theorem loneVote_aborted : Voted loneVote ∧ prepared loneVote 1 = true ∧
    finished loneVote 1 = false ∧
    ∃ m, (new ⟨0, []⟩).ariesIn SortedMap.entries (encodeLog loneVote) 1000 = some m ∧
      ∃ r ∈ m.logManager.log, r.txnId = 1 ∧ r.logType = .abort := by
  have hfirst : Voted (loneVote.take 2) :=
    .of_appended (Appended.of_take _ (by decide +kernel))
  have hvoted : Voted loneVote :=
    @Voted.prepared (loneVote.take 2) 1 hfirst (by decide +kernel) (by decide +kernel)
  have hopen : finished loneVote 1 = false := by decide +kernel
  obtain ⟨m, haries, haborts⟩ := (@ariesIn_aborts loneVote 1000 SortedMap.entries
    (fun map => .refl map.entries) 0 hvoted (by decide +kernel) (by decide +kernel)).1
    (by decide +kernel)
  exact ⟨hvoted, by decide +kernel, hopen, m, haries, haborts 1 (by decide +kernel) hopen⟩

end RecoveryManager

end RucDDBS
