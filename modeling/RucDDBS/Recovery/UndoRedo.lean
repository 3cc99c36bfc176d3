import RucDDBS.Recovery.Aries

/-!
Whether `UndoLog` takes back what `RedoLog` did, for one record and for a list
of records, which are redone in order and undone from the last one to the
first. An insert of an absent key is taken back. A delete is answered by a put
of the key under itself, which restores the store only if that is what the key
had; but within a list only the first record of each key counts, since the
undoing of it comes last.
-/

namespace RucDDBS

namespace RecoveryManager

/-- An insert of a key that the store does not have, or a delete that carries the
value that it has. -/
def Fits (kv : SortedMap Bytes Bytes) (r : LogRecord) : Prop :=
  (r.logType = .insert ∧ kv.get r.key = none) ∨
    (r.logType = .delete ∧ kv.get r.key = some r.value)

instance (kv : SortedMap Bytes Bytes) (r : LogRecord) : Decidable (Fits kv r) :=
  inferInstanceAs (Decidable ((r.logType = .insert ∧ kv.get r.key = none) ∨
    (r.logType = .delete ∧ kv.get r.key = some r.value)))

/-- Each record fits the store that the ones before it leave. -/
def FitAll (kv : SortedMap Bytes Bytes) : List LogRecord → Prop
  | [] => True
  | r :: log => Fits kv r ∧ FitAll (applyRecord kv r) log

def redoAll (m : RecoveryManager) (log : List LogRecord) : RecoveryManager :=
  log.foldl redoLog m

/-- The last record is undone first. -/
def undoAll (m : RecoveryManager) (log : List LogRecord) : RecoveryManager :=
  log.foldr (fun r m => m.undoLog r) m

variable {m : RecoveryManager} {kv : SortedMap Bytes Bytes} {r : LogRecord}
  {log : List LogRecord}

theorem Fits.isWrite (h : Fits kv r) : r.logType.isWrite = true := by
  rw [LogRecord.isWrite_iff]
  rcases h with ⟨htype, -⟩ | ⟨htype, -⟩
  · exact .inl htype
  · exact .inr htype

/-- Undoing leaves the key as it was, or under itself. -/
theorem Fits.unwritten_iff (h : Fits kv r) :
    unwritten r = kv.get r.key ↔ (r.logType = .delete → r.value = r.key) := by
  rcases h with ⟨htype, habsent⟩ | ⟨htype, hvalue⟩
  · simp [unwritten, htype, habsent]
  · simp [unwritten, htype, hvalue, eq_comm]

theorem redoAll_cons (m : RecoveryManager) (r : LogRecord) (log : List LogRecord) :
    m.redoAll (r :: log) = (m.redoLog r).redoAll log := rfl

theorem undoAll_cons (m : RecoveryManager) (r : LogRecord) (log : List LogRecord) :
    m.undoAll (r :: log) = (m.undoAll log).undoLog r := rfl

theorem FitAll.isWrite (h : FitAll kv log) : ∀ r ∈ log, r.logType.isWrite = true := by
  induction log generalizing kv with
  | nil => simp
  | cons r log ih =>
      obtain ⟨hfits, hrest⟩ := h
      intro r' hr'
      rcases List.mem_cons.mp hr' with rfl | hr'
      · exact hfits.isWrite
      · exact ih hrest r' hr'

/-- The first record of a key finds the key as the list found it. -/
theorem FitAll.first {key : Bytes} (h : FitAll kv log)
    (hfirst : log.find? (fun r => r.key = key) = some r) : Fits kv r := by
  induction log generalizing kv with
  | nil => cases hfirst
  | cons r' log ih =>
      obtain ⟨hfits, hrest⟩ := h
      by_cases hkey : r'.key = key
      · rw [List.find?_cons_of_pos (by simpa using hkey)] at hfirst
        cases hfirst
        exact hfits
      · rw [List.find?_cons_of_neg (by simpa using hkey)] at hfirst
        have hrkey : r.key = key := by simpa using List.find?_some hfirst
        have hother : ¬ r'.key = r.key := by
          rw [hrkey]
          exact hkey
        have hkept : (applyRecord kv r').get r.key = kv.get r.key := by
          rw [applyRecord_get]
          simp [hother]
        have hafter := ih hrest hfirst
        rw [Fits, hkept] at hafter
        exact hafter

/-- Redoing leaves alone the keys that are not in the list. -/
theorem redoAll_get_of_absent {key : Bytes} (h : ∀ r ∈ log, r.key ≠ key) :
    (m.redoAll log).kv.get key = m.kv.get key := by
  induction log generalizing m with
  | nil => rfl
  | cons r log ih =>
      rw [redoAll_cons, ih (fun r' hr' => h r' (by simp [hr'])), redoLog_kv, applyRecord_get]
      simp [h r]

/-- After the undoing, a key has what the undoing of its first record left. -/
theorem undoAll_get (m : RecoveryManager) (hwrites : ∀ r ∈ log, r.logType.isWrite = true)
    (key : Bytes) : (m.undoAll log).kv.get key =
      match log.find? (fun r => r.key = key) with
      | some r => unwritten r
      | none => m.kv.get key := by
  induction log with
  | nil => rfl
  | cons r log ih =>
      rw [undoAll_cons, undoLog_kv, undoRecord_get, hwrites r (by simp)]
      by_cases hkey : r.key = key
      · simp [hkey]
      · simp [hkey, ih (fun r' hr' => hwrites r' (by simp [hr']))]

theorem undoAll_redoAll_get (h : FitAll m.kv log) (key : Bytes) :
    ((m.redoAll log).undoAll log).kv.get key = m.kv.get key ↔
      ∀ r, log.find? (fun r => r.key = key) = some r → r.logType = .delete → r.value = r.key := by
  rw [undoAll_get _ h.isWrite]
  cases hfirst : log.find? (fun r => r.key = key) with
  | none =>
      have habsent : ∀ r ∈ log, r.key ≠ key := by simpa using hfirst
      simp [redoAll_get_of_absent habsent]
  | some r =>
      have hkey : r.key = key := by simpa using List.find?_some hfirst
      subst hkey
      rw [(h.first hfirst).unwritten_iff]
      simp

/-- Undoing takes back the redoing of one record if and only if it is no delete
of a key with another value than itself, and that of a list of records if and
only if no key has such a delete as its first record. -/
theorem undo_inverts_redo_iff (m : RecoveryManager) :
    (∀ r, Fits m.kv r →
      (((m.redoLog r).undoLog r).kv = m.kv ↔ (r.logType = .delete → r.value = r.key))) ∧
    ∀ log, FitAll m.kv log →
      (((m.redoAll log).undoAll log).kv = m.kv ↔ ∀ key r,
        log.find? (fun r => r.key = key) = some r → r.logType = .delete → r.value = r.key) := by
  have hlist (log : List LogRecord) (h : FitAll m.kv log) :
      ((m.redoAll log).undoAll log).kv = m.kv ↔ ∀ key r,
        log.find? (fun r => r.key = key) = some r → r.logType = .delete → r.value = r.key := by
    constructor
    · intro hback key
      rw [← undoAll_redoAll_get h, hback]
    · intro hfirst
      apply SortedMap.ext_get
      intro key
      exact (undoAll_redoAll_get h key).mpr (hfirst key)
  refine ⟨?_, hlist⟩
  intro r hfits
  -- one record is a list of one record, and only its own key has a first record
  have hone := hlist [r] ⟨hfits, trivial⟩
  rw [show ((m.redoAll [r]).undoAll [r]) = (m.redoLog r).undoLog r from rfl] at hone
  rw [hone]
  constructor
  · intro h
    exact h r.key r (by simp)
  · intro h key r' hr'
    have hsame : r' = r := by simpa using List.mem_of_find?_eq_some hr'
    rw [hsame]
    exact h

/-- A store in which `k` has the value `1`. -/
def storedKey : RecoveryManager :=
  { new ⟨0, []⟩ with kv := SortedMap.empty.put [107] [49] }

/-- A delete of the key, as a transaction logs it, is not taken back. -/
theorem delete_puts_key_under_itself :
    Fits storedKey.kv (LogRecord.ofWrite 1 0 .delete [107] [49]) ∧
      ((storedKey.redoLog (LogRecord.ofWrite 1 0 .delete [107] [49])).undoLog
        (LogRecord.ofWrite 1 0 .delete [107] [49])).kv ≠ storedKey.kv ∧
      ((storedKey.redoLog (LogRecord.ofWrite 1 0 .delete [107] [49])).undoLog
        (LogRecord.ofWrite 1 0 .delete [107] [49])).kv.get [107] = some [107] ∧
      storedKey.kv.get [107] = some [49] := by
  decide +kernel

/-- A delete of a key that is its own value, and a list in which the delete of the
key follows its insert. -/
theorem undo_inverts_redo_storedKey :
    ((((new ⟨0, []⟩).redoAll [LogRecord.ofWrite 1 0 .insert [107] [49],
      LogRecord.ofWrite 1 0 .delete [107] [49]]).undoAll [LogRecord.ofWrite 1 0 .insert [107] [49],
      LogRecord.ofWrite 1 0 .delete [107] [49]]).kv = (new ⟨0, []⟩).kv) ∧
    ¬ ((storedKey.redoLog (LogRecord.ofWrite 1 0 .delete [107] [49])).undoLog
      (LogRecord.ofWrite 1 0 .delete [107] [49])).kv = storedKey.kv := by
  constructor
  · apply ((undo_inverts_redo_iff (new ⟨0, []⟩)).2 _ ?_).mpr
    · intro key r hfirst hdelete
      by_cases hkey : key = [107]
      · subst hkey
        cases hfirst
        cases hdelete
      · have hne : ¬ [107] = key := fun heq => hkey heq.symm
        simp [LogRecord.ofWrite, LogRecord.empty, hne] at hfirst
    · exact ⟨by decide +kernel, by decide +kernel, trivial⟩
  · intro hback
    have hvalue := ((undo_inverts_redo_iff storedKey).1 _ (by decide +kernel)).mp hback rfl
    exact absurd hvalue (by decide)

end RecoveryManager

end RucDDBS
