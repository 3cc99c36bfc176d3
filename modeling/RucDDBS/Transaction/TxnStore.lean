import RucDDBS.Recovery.LogRecord
import RucDDBS.Storage.KVStoreView

/-!
Writing to the store on behalf of a transaction, and taking the writes back.
The transactional `put` and `del` write a log record and remember what they did
in the transaction's write set; `AbortSingle` goes through the write set from
the back. It then releases the locks and forgets the transaction, which is the
business of the lock manager's modules.

The store and its log are shared: calls on behalf of other transactions come
between those of the transaction, and between the rounds of its abort.

The second half does the same over `StoreView`: what a list of calls leaves in
the write set, and the plain store operations that the transaction, its abort
and the calls in between amount to.
-/

namespace RucDDBS

inductive WType where
  | insertTuple | deleteTuple
  deriving DecidableEq, Repr

structure WriteRecord where
  wtype : WType
  key : Bytes
  value : Bytes
  deriving DecidableEq, Repr

namespace WriteRecord

/-- The record of a put has the key only. -/
def ofInsert (key : Bytes) : WriteRecord := ⟨.insertTuple, key, []⟩

def ofDelete (key value : Bytes) : WriteRecord := ⟨.deleteTuple, key, value⟩

end WriteRecord

/-- The store, the log and the members `txn_id_`, `prev_lsn_` and `write_set_`
of the transaction that uses them. -/
structure TxnStore where
  kv : KVStore
  logManager : LogManager
  txnId : TxnId
  prevLsn : Int
  writeSet : List WriteRecord

/-- What a transaction asks of the store. -/
inductive TxnOp where
  | put (key value : Bytes)
  | del (key : Bytes)
  deriving DecidableEq, Repr

/-- A call of the store on behalf of another transaction, with the members of that
transaction that it reads. -/
structure OtherCall where
  txnId : TxnId
  prevLsn : Int
  op : TxnOp
  deriving DecidableEq, Repr

/-- The calls that the store gets, one after the other. -/
inductive TxnCall where
  | own (op : TxnOp)
  | other (call : OtherCall)
  deriving DecidableEq, Repr

namespace TxnStore

section Operations

variable (snappy : Snappy) (enableLogging : Bool)

/-- Log `record` if logging is on, and note its number in the transaction. -/
def writeLog (s : TxnStore) (record : LogRecord) : TxnStore :=
  if enableLogging = true then
    { s with
      logManager := (s.logManager.appendLogRecord record).1
      prevLsn := (s.logManager.appendLogRecord record).2 }
  else s

def pushBack (s : TxnStore) (addWriteset : Bool) (record : WriteRecord) : TxnStore :=
  if addWriteset = true then { s with writeSet := s.writeSet ++ [record] } else s

def put (s : TxnStore) (key value : Bytes) (addWriteset : Bool) : Option TxnStore := do
  let s := s.writeLog enableLogging (.ofWrite s.txnId s.prevLsn .insert key value)
  let s := s.pushBack addWriteset (.ofInsert key)
  let kv ← s.kv.put snappy key value
  pure { s with kv := kv }

/-- Both branches of `del` that find the key: the value goes to the log and to
the write set. -/
def recordDelete (s : TxnStore) (key value : Bytes) (addWriteset : Bool) : TxnStore :=
  (s.writeLog enableLogging (.ofWrite s.txnId s.prevLsn .delete key value)).pushBack addWriteset
    (.ofDelete key value)

def del (s : TxnStore) (key : Bytes) (addWriteset : Bool) : Option (TxnStore × Bool) :=
  if s.kv.memtable.contains key = true then
    let value := (s.kv.memtable.get key).getD []
    let s := s.recordDelete enableLogging key value addWriteset
    some ({ s with kv := { s.kv with memtable := s.kv.memtable.del key } }, true)
  else do
    match KVStore.visible (← s.kv.diskstorage.search snappy key) with
    | some value =>
        let s := s.recordDelete enableLogging key value addWriteset
        pure ({ s with kv := { s.kv with memtable := s.kv.memtable.put key [] } }, true)
    | none => pure (s, false)

def perform (s : TxnStore) : TxnOp → Option TxnStore
  | .put key value => s.put snappy enableLogging key value true
  | .del key => (s.del snappy enableLogging key true).map Prod.fst

/-- The transaction shares the store and the log with the others. -/
def performOther (s : TxnStore) (call : OtherCall) : Option TxnStore := do
  let other ← perform snappy enableLogging
    ⟨s.kv, s.logManager, call.txnId, call.prevLsn, []⟩ call.op
  pure { s with kv := other.kv, logManager := other.logManager }

def performCall (s : TxnStore) : TxnCall → Option TxnStore
  | .own op => s.perform snappy enableLogging op
  | .other call => s.performOther snappy enableLogging call

/-- The operations of the transaction, in order, with those of others in between. -/
def performAll (s : TxnStore) (calls : List TxnCall) : Option TxnStore :=
  calls.foldlM (performCall snappy enableLogging) s

/-- One round of the loop in `AbortSingle`. -/
def undo (s : TxnStore) (item : WriteRecord) : Option TxnStore :=
  match item.wtype with
  | .deleteTuple => s.put snappy enableLogging item.key item.value false
  | .insertTuple => (s.del snappy enableLogging item.key false).map Prod.fst

/-- The loop in `AbortSingle`. The next of `gaps` are the calls of others that come in
front of a round, and what is left of them comes behind the last one. -/
def undoAll (s : TxnStore) : List WriteRecord → List (List OtherCall) → Option TxnStore
  | [], gaps => gaps.flatten.foldlM (performOther snappy enableLogging) s
  | item :: items, gaps => do
      let s ← (gaps.headD []).foldlM (performOther snappy enableLogging) s
      let s ← s.undo snappy enableLogging item
      s.undoAll items gaps.tail

/-- `AbortSingle`. The operations that undo do not add to the write set, so the
loop takes its items from the back, one after the other. -/
def abortSingle (s : TxnStore) (gaps : List (List OtherCall)) : Option TxnStore := do
  let s ← s.undoAll snappy enableLogging s.writeSet.reverse gaps
  let s := { s with writeSet := [] }
  pure (s.writeLog enableLogging (.ofTxn s.txnId s.prevLsn .abort))

end Operations

variable {snappy : Snappy} {enableLogging addWriteset : Bool} {s : TxnStore}

@[simp] theorem writeLog_kv (s : TxnStore) (record : LogRecord) :
    (s.writeLog enableLogging record).kv = s.kv := by
  unfold writeLog
  split
  · rfl
  · rfl

@[simp] theorem writeLog_writeSet (s : TxnStore) (record : LogRecord) :
    (s.writeLog enableLogging record).writeSet = s.writeSet := by
  unfold writeLog
  split
  · rfl
  · rfl

@[simp] theorem pushBack_kv (s : TxnStore) (record : WriteRecord) :
    (s.pushBack addWriteset record).kv = s.kv := by
  unfold pushBack
  split
  · rfl
  · rfl

theorem pushBack_writeSet (s : TxnStore) (record : WriteRecord) :
    (s.pushBack addWriteset record).writeSet =
      s.writeSet ++ if addWriteset = true then [record] else [] := by
  unfold pushBack
  split
  · rfl
  · simp

end TxnStore

namespace TxnOp

def key : TxnOp → Bytes
  | .put key _ => key
  | .del key => key

/-- The operation without its transaction. -/
def action : TxnOp → KVStore.Action
  | .put key value => .put key value
  | .del key => .del key

end TxnOp

def TxnCall.action : TxnCall → KVStore.Action
  | .own op => op.action
  | .other call => call.op.action

/-- The operation that takes a write back. -/
def WriteRecord.undoOp (r : WriteRecord) : TxnOp :=
  match r.wtype with
  | .deleteTuple => .put r.key r.value
  | .insertTuple => .del r.key

def WriteRecord.undoAction (r : WriteRecord) : KVStore.Action := r.undoOp.action

namespace StoreView

/-- What the operation adds to the write set. -/
def recordOf (v : StoreView) : TxnOp → Option WriteRecord
  | .put key _ => some (.ofInsert key)
  | .del key =>
      ((v.memtable.get key).or (KVStore.visible (v.onDisk key))).map (WriteRecord.ofDelete key)

def writeSet (v : StoreView) : List TxnCall → List WriteRecord
  | [] => []
  | .own op :: rest => (v.recordOf op).toList ++ (v.step op.action).writeSet rest
  | .other call :: rest => (v.step call.op.action).writeSet rest

/-- The store operations of the loop in `AbortSingle`, and of the calls in between. -/
def undoActions : List WriteRecord → List (List OtherCall) → List KVStore.Action
  | [], gaps => gaps.flatten.map fun call => call.op.action
  | item :: items, gaps =>
      ((gaps.headD []).map fun call => call.op.action) ++
        item.undoAction :: undoActions items gaps.tail

/-- The first item of the write set is undone last. -/
theorem undoActions_append (items : List WriteRecord) (item : WriteRecord)
    (gaps : List (List OtherCall)) :
    undoActions (items ++ [item]) gaps =
      undoActions items (gaps.take (items.length + 1)) ++
        item.undoAction :: (gaps.drop (items.length + 1)).flatten.map fun call =>
          call.op.action := by
  induction items generalizing gaps with
  | nil =>
      cases gaps with
      | nil => rfl
      | cons gap rest => simp [undoActions]
  | cons first items ih =>
      cases gaps with
      | nil => simpa [undoActions] using ih []
      | cons gap rest => simpa [undoActions] using ih rest

/-- The store operations from the first call of the transaction to the end of its abort. -/
def trail (v : StoreView) (calls : List TxnCall) (gaps : List (List OtherCall)) :
    List KVStore.Action :=
  calls.map TxnCall.action ++ undoActions (v.writeSet calls).reverse gaps

theorem trail_other (v : StoreView) (call : OtherCall) (calls : List TxnCall)
    (gaps : List (List OtherCall)) :
    v.trail (.other call :: calls) gaps =
      call.op.action :: (v.step call.op.action).trail calls gaps := rfl

theorem trail_silent {v : StoreView} {op : TxnOp} (h : v.recordOf op = none)
    (calls : List TxnCall) (gaps : List (List OtherCall)) :
    v.trail (.own op :: calls) gaps = op.action :: (v.step op.action).trail calls gaps := by
  simp [trail, writeSet, h, TxnCall.action]

/-- The first operation is undone last, and other calls come behind that. -/
theorem trail_undone {v : StoreView} {op : TxnOp} {r : WriteRecord} (h : v.recordOf op = some r)
    (calls : List TxnCall) (gaps : List (List OtherCall)) :
    ∃ before after : List (List OtherCall), before ++ after = gaps ∧
      v.trail (.own op :: calls) gaps = op.action :: ((v.step op.action).trail calls before ++
        r.undoAction :: after.flatten.map fun call => call.op.action) := by
  refine ⟨_, _, List.take_append_drop (((v.step op.action).writeSet calls).length + 1) gaps, ?_⟩
  simp [trail, writeSet, h, TxnCall.action, undoActions_append]

theorem along_append {Ok : StoreView → KVStore.Action → Prop} (v : StoreView)
    (first second : List KVStore.Action) :
    v.Along Ok (first ++ second) ↔ v.Along Ok first ∧ (first.foldl step v).Along Ok second := by
  induction first generalizing v with
  | nil => simp [Along]
  | cons action rest ih => simp [Along, ih, and_assoc]

/-- The store after the transaction and its abort. -/
def unwound (v : StoreView) (calls : List TxnCall) (gaps : List (List OtherCall)) : StoreView :=
  (v.trail calls gaps).foldl step v

end StoreView

namespace TxnStore

variable {snappy : Snappy} (enableLogging : Bool) {s : TxnStore} {v : StoreView}

/-- The tables that an operation writes fit the file format. -/
def TablesFit (snappy : Snappy) (v : StoreView) (action : KVStore.Action) : Prop :=
  ∀ m ∈ KVStore.written v.memtable action, SSTable.Fits snappy m

instance (v : StoreView) (action : KVStore.Action) : Decidable (TablesFit snappy v action) :=
  inferInstanceAs (Decidable (∀ m ∈ KVStore.written v.memtable action, SSTable.Fits snappy m))

theorem put_represents (addWriteset : Bool) (key value : Bytes)
    (hrep : s.kv.Represents snappy v) (hfits : TablesFit snappy v (.put key value)) :
    ∃ s', s.put snappy enableLogging key value addWriteset = some s' ∧
      s'.kv.Represents snappy (v.put key value) ∧
      s'.writeSet = s.writeSet ++ if addWriteset = true then [.ofInsert key] else [] := by
  obtain ⟨kv', hput, hrep'⟩ := hrep.put key value hfits
  refine ⟨{ (s.writeLog enableLogging
      (.ofWrite s.txnId s.prevLsn .insert key value)).pushBack addWriteset (.ofInsert key) with
    kv := kv' }, by simp [TxnStore.put, hput], hrep', ?_⟩
  simp [pushBack_writeSet]

theorem recordDelete_writeSet (addWriteset : Bool) (key value : Bytes) :
    (s.recordDelete enableLogging key value addWriteset).writeSet =
      s.writeSet ++ if addWriteset = true then [.ofDelete key value] else [] := by
  simp [recordDelete, pushBack_writeSet]

theorem del_represents (addWriteset : Bool) (key : Bytes) (hrep : s.kv.Represents snappy v) :
    ∃ s' found, s.del snappy enableLogging key addWriteset = some (s', found) ∧
      s'.kv.Represents snappy (v.del key) ∧
      s'.writeSet = s.writeSet ++
        if addWriteset = true then (v.recordOf (.del key)).toList else [] := by
  have hsearch := hrep.search key
  cases hmem : v.memtable.get key with
  | some value =>
      have hcontains : v.memtable.contains key = true := by simp [SortedMap.contains, hmem]
      refine ⟨{ s.recordDelete enableLogging key value addWriteset with
        kv := { s.kv with memtable := v.memtable.del key } }, true, ?_, ?_, ?_⟩
      · simp [TxnStore.del, hrep.memtable, hcontains, hmem, recordDelete]
      · rw [StoreView.del, if_pos hcontains]
        exact ⟨rfl, hrep.disk⟩
      · simp [recordDelete_writeSet, StoreView.recordOf, hmem]
  | none =>
      have hcontains : ¬ v.memtable.contains key = true := by simp [SortedMap.contains, hmem]
      cases hdisk : KVStore.visible (v.onDisk key) with
      | some value =>
          refine ⟨{ s.recordDelete enableLogging key value addWriteset with
            kv := { s.kv with memtable := v.memtable.put key [] } }, true, ?_, ?_, ?_⟩
          · simp [TxnStore.del, hrep.memtable, hcontains, hsearch, hdisk, recordDelete]
          · rw [StoreView.del, if_neg hcontains, hdisk, if_pos (by simp)]
            exact ⟨rfl, hrep.disk⟩
          · simp [recordDelete_writeSet, StoreView.recordOf, hmem, hdisk]
      | none =>
          refine ⟨s, false, ?_, ?_, ?_⟩
          · simp [TxnStore.del, hrep.memtable, hcontains, hsearch, hdisk]
          · rw [StoreView.del, if_neg hcontains, hdisk, if_neg (by simp)]
            exact hrep
          · simp [StoreView.recordOf, hmem, hdisk]

theorem perform_represents (op : TxnOp) (hrep : s.kv.Represents snappy v)
    (hfits : TablesFit snappy v op.action) :
    ∃ s', s.perform snappy enableLogging op = some s' ∧
      s'.kv.Represents snappy (v.step op.action) ∧
      s'.writeSet = s.writeSet ++ (v.recordOf op).toList := by
  cases op with
  | put key value => exact put_represents enableLogging true key value hrep hfits
  | del key =>
      obtain ⟨s', found, hdel, hrep', hset⟩ := del_represents enableLogging true key hrep
      exact ⟨s', by simp [perform, hdel], hrep', hset⟩

/-- A call on behalf of another transaction leaves the write set alone. -/
theorem performOther_represents (call : OtherCall) (hrep : s.kv.Represents snappy v)
    (hfits : TablesFit snappy v call.op.action) :
    ∃ s', s.performOther snappy enableLogging call = some s' ∧
      s'.kv.Represents snappy (v.step call.op.action) ∧ s'.writeSet = s.writeSet := by
  obtain ⟨other, hperform, hrep', _⟩ := perform_represents
    (s := ⟨s.kv, s.logManager, call.txnId, call.prevLsn, []⟩) enableLogging call.op hrep hfits
  exact ⟨{ s with kv := other.kv, logManager := other.logManager },
    by simp [performOther, hperform], hrep', rfl⟩

theorem performAll_represents (calls : List TxnCall) (hrep : s.kv.Represents snappy v)
    (hfits : v.Along (TablesFit snappy) (calls.map TxnCall.action)) :
    ∃ s', s.performAll snappy enableLogging calls = some s' ∧
      s'.kv.Represents snappy ((calls.map TxnCall.action).foldl StoreView.step v) ∧
      s'.writeSet = s.writeSet ++ v.writeSet calls := by
  induction calls generalizing s v with
  | nil => exact ⟨s, rfl, hrep, by simp [StoreView.writeSet]⟩
  | cons call calls ih =>
      obtain ⟨hfirst, hrest⟩ := hfits
      cases call with
      | own op =>
          obtain ⟨mid, hperform, hmid, hset⟩ := perform_represents enableLogging op hrep hfirst
          obtain ⟨s', hall, hrep', hset'⟩ := ih hmid hrest
          refine ⟨s', ?_, hrep', ?_⟩
          · simp only [performAll, List.foldlM_cons, performCall, hperform, Option.bind_eq_bind,
              Option.bind_some]
            exact hall
          · rw [hset', hset, StoreView.writeSet, List.append_assoc]
      | other call =>
          obtain ⟨mid, hperform, hmid, hset⟩ :=
            performOther_represents enableLogging call hrep hfirst
          obtain ⟨s', hall, hrep', hset'⟩ := ih hmid hrest
          refine ⟨s', ?_, hrep', ?_⟩
          · simp only [performAll, List.foldlM_cons, performCall, hperform, Option.bind_eq_bind,
              Option.bind_some]
            exact hall
          · rw [hset', hset, StoreView.writeSet]

theorem performOthers_represents (others : List OtherCall) (hrep : s.kv.Represents snappy v)
    (hfits : v.Along (TablesFit snappy) (others.map fun call => call.op.action)) :
    ∃ s', others.foldlM (performOther snappy enableLogging) s = some s' ∧
      s'.kv.Represents snappy
        ((others.map fun call => call.op.action).foldl StoreView.step v) := by
  induction others generalizing s v with
  | nil => exact ⟨s, rfl, hrep⟩
  | cons call others ih =>
      obtain ⟨mid, hperform, hmid, _⟩ := performOther_represents enableLogging call hrep hfits.1
      obtain ⟨s', hall, hrep'⟩ := ih hmid hfits.2
      refine ⟨s', ?_, hrep'⟩
      simp only [List.foldlM_cons, hperform, Option.bind_eq_bind, Option.bind_some]
      exact hall

theorem undo_represents (item : WriteRecord) (hrep : s.kv.Represents snappy v)
    (hfits : TablesFit snappy v item.undoAction) :
    ∃ s', s.undo snappy enableLogging item = some s' ∧
      s'.kv.Represents snappy (v.step item.undoAction) := by
  rcases item with ⟨wtype, key, value⟩
  cases wtype with
  | insertTuple =>
      obtain ⟨s', found, hdel, hrep', _⟩ := del_represents enableLogging false key hrep
      exact ⟨s', by simp [undo, hdel], hrep'⟩
  | deleteTuple =>
      obtain ⟨s', hput, hrep', _⟩ := put_represents enableLogging false key value hrep hfits
      exact ⟨s', hput, hrep'⟩

theorem undoAll_represents (items : List WriteRecord) (gaps : List (List OtherCall))
    (hrep : s.kv.Represents snappy v)
    (hfits : v.Along (TablesFit snappy) (StoreView.undoActions items gaps)) :
    ∃ s', s.undoAll snappy enableLogging items gaps = some s' ∧
      s'.kv.Represents snappy ((StoreView.undoActions items gaps).foldl StoreView.step v) := by
  induction items generalizing s v gaps with
  | nil => exact performOthers_represents enableLogging gaps.flatten hrep hfits
  | cons item items ih =>
      rw [StoreView.undoActions, StoreView.along_append] at hfits
      obtain ⟨hgap, hitem, hrest⟩ := hfits
      obtain ⟨first, hothers, hfirst⟩ := performOthers_represents enableLogging _ hrep hgap
      obtain ⟨mid, hundo, hmid⟩ := undo_represents enableLogging item hfirst hitem
      obtain ⟨s', hall, hrep'⟩ := ih gaps.tail hmid hrest
      refine ⟨s', ?_, ?_⟩
      · simp only [undoAll, hothers, hundo, Option.bind_eq_bind, Option.bind_some]
        exact hall
      · rw [StoreView.undoActions, List.foldl_append]
        exact hrep'

/-- A transaction that starts with an empty write set, runs and aborts does to
the store what its trail does. -/
theorem abort_represents (calls : List TxnCall) (gaps : List (List OtherCall))
    (hrep : s.kv.Represents snappy v) (hnew : s.writeSet = [])
    (hfits : v.Along (TablesFit snappy) (v.trail calls gaps)) :
    ∃ mid s', s.performAll snappy enableLogging calls = some mid ∧
      mid.abortSingle snappy enableLogging gaps = some s' ∧
      s'.kv.Represents snappy (v.unwound calls gaps) := by
  rw [StoreView.trail, StoreView.along_append] at hfits
  obtain ⟨mid, hall, hmid, hset⟩ := performAll_represents enableLogging calls hrep hfits.1
  obtain ⟨last, hundo, hlast⟩ := undoAll_represents enableLogging _ gaps hmid hfits.2
  rw [hnew, List.nil_append] at hset
  refine ⟨mid, _, hall, by simp only [abortSingle, hset, hundo]; rfl, ?_⟩
  rw [StoreView.unwound, StoreView.trail, List.foldl_append]
  simpa using hlast

end TxnStore

end RucDDBS
