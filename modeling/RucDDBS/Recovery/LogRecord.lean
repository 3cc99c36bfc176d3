import RucDDBS.Library.Bytes
import RucDDBS.Transaction.Types

/-!
Log records and their encoding. A record has a header of 24 bytes, which is the
first part of the object itself, and for inserts and deletes the key and the
value, each behind its length.

`LogManager` is seen from its callers here: `AppendLogRecord` hands out the next
number and puts the record behind all others. Log sequence numbers are integers
and stay below 2^31 in a log file of less than 2^31 bytes.
-/

namespace RucDDBS

def invalidLsn : Int := -1

/-- `LOG_BUFFER_SIZE`: eleven pages. -/
def logBufferSize : Nat := (10 + 1) * 4096

inductive LogRecordType where
  | invalid | createTable | dropTable | insert | delete | begin | commit | abort | prepared
  deriving DecidableEq, Repr

namespace LogRecordType

def code : LogRecordType → Nat
  | .invalid => 0
  | .createTable => 1
  | .dropTable => 2
  | .insert => 3
  | .delete => 4
  | .begin => 5
  | .commit => 6
  | .abort => 7
  | .prepared => 8

/-- A number that is no type takes the `default` branch of every switch, as
`INVALID` does. -/
def ofCode : Nat → LogRecordType
  | 1 => .createTable
  | 2 => .dropTable
  | 3 => .insert
  | 4 => .delete
  | 5 => .begin
  | 6 => .commit
  | 7 => .abort
  | 8 => .prepared
  | _ => .invalid

theorem ofCode_code (type : LogRecordType) : ofCode type.code = type := by
  cases type <;> rfl

theorem code_lt (type : LogRecordType) : type.code < 256 ^ 4 := by
  cases type <;> decide

/-- The types whose records carry a key and a value. -/
def isWrite (type : LogRecordType) : Bool :=
  type = .insert || type = .delete

end LogRecordType

structure LogRecord where
  size : Nat
  lsn : Int
  txnId : TxnId
  prevLsn : Int
  logType : LogRecordType
  key : Bytes
  value : Bytes
  deriving DecidableEq, Repr

namespace LogRecord

def headerSize : Nat := 24

/-- `LogRecord()`. -/
def empty : LogRecord := ⟨0, invalidLsn, 0, invalidLsn, .invalid, [], []⟩

/-- The constructor for begin, commit, abort and prepared. -/
def ofTxn (txnId : TxnId) (prevLsn : Int) (type : LogRecordType) : LogRecord :=
  { empty with size := headerSize, txnId := txnId, prevLsn := prevLsn, logType := type }

/-- The constructor for insert and delete. -/
def ofWrite (txnId : TxnId) (prevLsn : Int) (type : LogRecordType) (key value : Bytes) :
    LogRecord :=
  { empty with
    size := headerSize + 4 + key.length + 4 + value.length
    txnId := txnId
    prevLsn := prevLsn
    logType := type
    key := key
    value := value }

/-- An `int32_t` in two's complement. -/
def int32 (n : Int) : Bytes := Bytes.toLE 4 (n % 2 ^ 32).toNat

def ofInt32 (n : Nat) : Int := (n : Int).bmod (2 ^ 32)

def header (r : LogRecord) : Bytes :=
  Bytes.toLE 4 r.size ++ int32 r.lsn ++ Bytes.toLE 8 r.txnId.toNat ++ int32 r.prevLsn ++
    Bytes.toLE 4 r.logType.code

/-- The bytes that `AppendLogRecord` copies into the log buffer. -/
def encode (r : LogRecord) : Bytes :=
  if r.logType.isWrite = true then
    r.header ++ (Bytes.toLE 4 r.key.length ++ r.key ++
      (Bytes.toLE 4 r.value.length ++ r.value))
  else r.header

/-- A length and as many bytes, with the position behind them. -/
def readString (storage : Bytes) (pos : Nat) : Option (Bytes × Nat) := do
  let size ← Bytes.readLE 4 storage pos
  let s ← Bytes.slice storage (pos + 4) size
  pure (s, pos + 4 + size)

/-- The switch of `DeserializeFrom` over the type, behind the header. Types other
than the five it knows give the default record. -/
def readBody (storage : Bytes) (pos : Nat) (txnId : TxnId) (prevLsn : Int)
    (type : LogRecordType) : Option LogRecord :=
  match type with
  | .commit | .abort | .begin => some (ofTxn txnId prevLsn type)
  | .insert | .delete => do
      let (key, pos) ← readString storage pos
      let (value, _) ← readString storage pos
      pure (ofWrite txnId prevLsn type key value)
  | .prepared | .createTable | .dropTable | .invalid => some empty

/-- `DeserializeFrom(storage + pos)` with the assertions compiled out, as in the
default build. -/
def deserializeFrom (storage : Bytes) (pos : Nat) : Option LogRecord := do
  let lsn ← Bytes.readLE 4 storage (pos + 4)
  let txnId ← Bytes.readLE 8 storage (pos + 8)
  let prevLsn ← Bytes.readLE 4 storage (pos + 16)
  let code ← Bytes.readLE 4 storage (pos + 20)
  let res ← readBody storage (pos + 24) (.ofNat txnId) (ofInt32 prevLsn) (.ofCode code)
  pure { res with lsn := ofInt32 lsn }

end LogRecord

structure LogManager where
  nextLsn : Int
  log : List LogRecord

namespace LogManager

def appendLogRecord (l : LogManager) (r : LogRecord) : LogManager × Int :=
  (⟨l.nextLsn + 1, l.log ++ [{ r with lsn := l.nextLsn }]⟩, l.nextLsn)

end LogManager

end RucDDBS
