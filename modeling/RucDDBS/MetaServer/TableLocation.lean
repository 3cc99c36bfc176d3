import RucDDBS.Library.Text
import RucDDBS.Transaction.Types

/-!
Where the partitions of a table are, and the text in which the meta server saves
it: numbers and words with one blank between them, a list as the number of its
items and the items, each from a line of its own on. Extraction that fails is
`none`.
-/

namespace RucDDBS

open Text

/-- An enumeration that streams print as an `int`. Casting back a number that no
enumerator has is left out. -/
class StreamEnum (α : Type) where
  number : α → Int32
  ofNumber : Int32 → Option α
  ofNumber_number : ∀ a, ofNumber (number a) = some a

section StreamEnum

variable {α : Type} [StreamEnum α]

def writeEnum (enumVal : α) : Text := ofInt (StreamEnum.number enumVal).toInt

def readEnum (t : Text) : Option (α × Text) := do
  let (intVal, t) ← readInt32 t
  let enumVal ← StreamEnum.ofNumber intVal
  pure (enumVal, t)

theorem skipsBlanks_readEnum : SkipsBlanks (readEnum (α := α)) := skipsBlanks_readInt32.bind _

@[simp] theorem readEnum_space (t : Text) : readEnum (α := α) (' ' :: t) = readEnum t :=
  skipsBlanks_readEnum _ _ isWhitespace_space

@[simp] theorem readEnum_writeEnum (enumVal : α) {rest : Text} (hrest : NoDigit rest) :
    readEnum (writeEnum enumVal ++ rest) = some (enumVal, rest) := by
  rw [readEnum, writeEnum, readInt32_toInt _ hrest]
  simp [StreamEnum.ofNumber_number]

end StreamEnum

inductive ReplicaRole where
  | invalidRole | leader | follower
  deriving DecidableEq, Repr

instance : StreamEnum ReplicaRole where
  number
    | .invalidRole => 0
    | .leader => 1
    | .follower => 2
  ofNumber n :=
    if n = 0 then some .invalidRole
    else if n = 1 then some .leader
    else if n = 2 then some .follower
    else none
  ofNumber_number := by
    intro role
    cases role <;> decide

inductive DuplicateType where
  | notDuplicate | duplicate
  deriving DecidableEq, Repr

instance : StreamEnum DuplicateType where
  number
    | .notDuplicate => 0
    | .duplicate => 1
  ofNumber n :=
    if n = 0 then some .notDuplicate
    else if n = 1 then some .duplicate
    else none
  ofNumber_number := by
    intro type
    cases type <;> decide

structure ReplicaLocation where
  ipAddr : Text
  port : Int32
  role : ReplicaRole
  deriving DecidableEq, Repr

structure PhyPartitionLocation where
  tableOid : TableOid
  pId : PartitionId
  replicaCnt : Int32
  repliacaLocation : List ReplicaLocation
  deriving DecidableEq, Repr

structure PhyTableLocation where
  tableOid : TableOid
  duplicateType : DuplicateType
  partitonList : List PhyPartitionLocation
  deriving DecidableEq, Repr

/-- `get_replica_location`; a null pointer is `none`. -/
def PhyPartitionLocation.getReplicaLocation (p : PhyPartitionLocation) (role : ReplicaRole) :
    Option ReplicaLocation :=
  p.repliacaLocation.find? fun r => r.role = role

/-- `getReplicaLocation`: the leader of the first partition with that id. -/
def PhyTableLocation.getReplicaLocation (loc : PhyTableLocation) (pId : PartitionId) :
    Option ReplicaLocation := do
  let p ← loc.partitonList.find? fun p => p.pId = pId
  p.getReplicaLocation .leader

namespace ReplicaLocation

def write (r : ReplicaLocation) : Text :=
  r.ipAddr ++ ' ' :: (ofInt r.port.toInt ++ ' ' :: (writeEnum r.role ++ ['\n']))

def read (t : Text) : Option (ReplicaLocation × Text) := do
  let (ipAddr, t) ← readWord t
  let (port, t) ← readInt32 t
  let (role, t) ← readEnum t
  pure (⟨ipAddr, port, role⟩, t)

theorem skipsBlanks_read : SkipsBlanks read := skipsBlanks_readWord.bind _

theorem read_write {r : ReplicaLocation} (h : IsWord r.ipAddr) (rest : Text) :
    read (r.write ++ rest) = some (r, '\n' :: rest) := by
  simp [read, write, readWord_word h]

end ReplicaLocation

namespace PhyPartitionLocation

def write (p : PhyPartitionLocation) : Text :=
  ofInt p.tableOid.toInt ++ ' ' :: (ofInt p.pId.toInt ++ ' ' :: (ofInt p.replicaCnt.toInt ++
    ' ' :: (ofInt p.repliacaLocation.length ++
      '\n' :: p.repliacaLocation.flatMap ReplicaLocation.write)))

/-- Extraction into `into`, whose list it extends. -/
def read (into : PhyPartitionLocation) (t : Text) : Option (PhyPartitionLocation × Text) := do
  let (tableOid, t) ← readInt32 t
  let (pId, t) ← readInt32 t
  let (replicaCnt, t) ← readInt32 t
  let (n, t) ← readCount t
  let (replicas, t) ← readMany ReplicaLocation.read n t
  pure (⟨tableOid, pId, replicaCnt, into.repliacaLocation ++ replicas⟩, t)

/-- The constructor sets no number, and extraction sets them all. -/
def new : PhyPartitionLocation := ⟨0, 0, 0, []⟩

theorem skipsBlanks_read (into : PhyPartitionLocation) : SkipsBlanks (read into) :=
  skipsBlanks_readInt32.bind _

theorem read_write (into : PhyPartitionLocation) {p : PhyPartitionLocation}
    (h : ∀ r ∈ p.repliacaLocation, IsWord r.ipAddr) (rest : Text) :
    read into (p.write ++ rest) =
      some ({ p with repliacaLocation := into.repliacaLocation ++ p.repliacaLocation },
        '\n' :: rest) := by
  have hlines := readMany_lines ReplicaLocation.skipsBlanks_read
    (fun r hr rest => ReplicaLocation.read_write (h r hr) rest) rest
  simp [read, write, hlines]

end PhyPartitionLocation

namespace PhyTableLocation

def write (loc : PhyTableLocation) : Text :=
  ofInt loc.tableOid.toInt ++ ' ' :: (writeEnum loc.duplicateType ++
    ' ' :: (ofInt loc.partitonList.length ++
      '\n' :: loc.partitonList.flatMap PhyPartitionLocation.write))

/-- Extraction into `into`, whose list it extends. -/
def read (into : PhyTableLocation) (t : Text) : Option (PhyTableLocation × Text) := do
  let (tableOid, t) ← readInt32 t
  let (duplicateType, t) ← readEnum t
  let (n, t) ← readCount t
  let (partitions, t) ← readMany (PhyPartitionLocation.read .new) n t
  pure (⟨tableOid, duplicateType, into.partitonList ++ partitions⟩, t)

/-- Every address is text without blanks, as `ip2str` prints it. -/
def Addressed (loc : PhyTableLocation) : Prop :=
  ∀ p ∈ loc.partitonList, ∀ r ∈ p.repliacaLocation, IsWord r.ipAddr

theorem skipsBlanks_read (into : PhyTableLocation) : SkipsBlanks (read into) :=
  skipsBlanks_readInt32.bind _

theorem read_write (into : PhyTableLocation) {loc : PhyTableLocation} (h : loc.Addressed)
    (rest : Text) :
    read into (loc.write ++ rest) =
      some ({ loc with partitonList := into.partitonList ++ loc.partitonList }, '\n' :: rest) := by
  have hlines := readMany_lines (PhyPartitionLocation.skipsBlanks_read .new)
    (fun p hp rest => PhyPartitionLocation.read_write .new (h p hp) rest) rest
  simp [read, write, hlines]

/-- What was inserted into a stream is extracted again into an object without
partitions, and the stream is left at the end of the last line, from where the next
extraction finds the token behind it. -/
theorem table_location_round_trip {loc into : PhyTableLocation} (h : loc.Addressed)
    (hinto : into.partitonList = []) (rest : Text) :
    read into (loc.write ++ rest) = some (loc, '\n' :: rest) ∧
      skipBlanks ('\n' :: rest) = skipBlanks rest := by
  refine ⟨?_, skipBlanks_blank isWhitespace_newline rest⟩
  rw [read_write into h, hinto, List.nil_append]

/-- One table in two partitions, the first of them without replicas. -/
def twoPartitions : PhyTableLocation :=
  ⟨7, .duplicate, [⟨7, 0, -2, []⟩, ⟨7, 1, 2, [⟨['1', '.', '2'], 8005, .leader⟩,
    ⟨['1', '.', '3'], -1, .follower⟩]⟩]⟩

theorem twoPartitions_round_trip :
    read ⟨0, .notDuplicate, []⟩ (twoPartitions.write ++ ['x']) = some (twoPartitions, ['\n', 'x']) ∧
      skipBlanks ['\n', 'x'] = skipBlanks ['x'] := by
  have haddressed : twoPartitions.Addressed := by
    simp [Addressed, twoPartitions, isWord_of_all]
  exact table_location_round_trip haddressed rfl ['x']

end PhyTableLocation

end RucDDBS
