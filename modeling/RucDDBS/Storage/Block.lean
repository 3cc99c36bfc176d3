import RucDDBS.Library.Bytes

/-!
The block format of an SSTable file: `BlockBuilder`, which writes a block, and
`Block` with its iterator, which reads one. A block is the sequence of its
entries, each with two 8-byte lengths, followed by the number of restart
points, the restart points and the position at which that trailer starts.

Numbers are written and read through the same in-memory representation, so the
byte order does not matter; the model fixes little-endian. Additions of offsets
in the reader are additions of `uint64_t`. A failed assertion, a read outside
the block, an exception of `substr` and a loop that never ends all appear as
`none`.
-/

namespace RucDDBS

namespace StorageOption

def restartInterval : Nat := 20
def blockSpace : Nat := 4 * 1024
def sstableSpace : Nat := 2 * 1024 * 1024

end StorageOption

/-- Addition in `uint64_t`. -/
def addU64 (a b : Nat) : Nat := (a + b) % 2 ^ 64

def fixed64 (n : Nat) : Bytes := Bytes.toLE 8 n

def readU64 (bytes : Bytes) (pos : Nat) : Option Nat := Bytes.readLE 8 bytes pos

abbrev Entry := Bytes × Bytes

structure BlockBuilder where
  buffer : Bytes
  lastKey : Bytes
  restarts : List Nat
  counter : Nat
  finished : Bool
  deriving DecidableEq, Repr

namespace BlockBuilder

def new : BlockBuilder := ⟨[], [], [0], 0, false⟩

def empty (b : BlockBuilder) : Bool := b.buffer.isEmpty

def encodeEntry (e : Entry) : Bytes :=
  fixed64 e.1.length ++ e.1 ++ fixed64 e.2.length ++ e.2

def add (b : BlockBuilder) (key value : Bytes) : Option BlockBuilder :=
  if b.finished = false ∧ b.counter ≤ StorageOption.restartInterval ∧
      (b.empty = true ∨ b.lastKey < key) then
    some {
      buffer := b.buffer ++ encodeEntry (key, value)
      lastKey := key
      restarts := if b.counter = StorageOption.restartInterval then b.restarts ++ [b.buffer.length]
        else b.restarts
      counter := if b.counter = StorageOption.restartInterval then 1 else b.counter + 1
      finished := b.finished }
  else none

/-- The bytes that `finish` appends: the number of restart points, the restart
points, and the position of this trailer. -/
def trailer (restarts : List Nat) (position : Nat) : Bytes :=
  fixed64 restarts.length ++ (restarts.map fixed64).flatten ++ fixed64 position

def finish (b : BlockBuilder) : Bytes × BlockBuilder :=
  let content := b.buffer ++ trailer b.restarts b.buffer.length
  (content, { b with buffer := content, finished := true })

def reset (_ : BlockBuilder) : BlockBuilder := new

def estimatedSize (b : BlockBuilder) : Nat :=
  b.buffer.length + b.restarts.length * 8 + 8 * 2

end BlockBuilder

structure Block where
  content : Bytes
  restartOffset : Nat
  restartSize : Nat
  restarts : List Nat
  deriving DecidableEq, Repr

namespace Block

/-- `rounds` numbers, one after another from offset `i` on. -/
def readRestarts (content : Bytes) (i : Nat) : Nat → Option (List Nat)
  | 0 => some []
  | rounds + 1 => do
      let restart ← readU64 content i
      let rest ← readRestarts content (i + 8) rounds
      pure (restart :: rest)

/-- The constructor. The loop over the restart array runs from behind the
count to the last eight bytes. -/
def ofContent (content : Bytes) : Option Block := do
  if content.length < 8 then none
  let restartOffset ← readU64 content (content.length - 8)
  let restartSize ← readU64 content restartOffset
  let start := addU64 restartOffset 8
  let stop := content.length - 8
  let restarts ← readRestarts content start ((stop - start + 7) / 8)
  pure ⟨content, restartOffset, restartSize, restarts⟩

/-- The key of the entry at `pos`, the offset of its value's length and that
length, as `get` and `extract_keyvalue` read them. -/
def keyAt (b : Block) (pos : Nat) : Option (Bytes × Nat × Nat) := do
  let keySize ← readU64 b.content pos
  let valueOffset := addU64 (addU64 pos 8) keySize
  let valueSize ← readU64 b.content valueOffset
  let key ← Bytes.substr b.content (addU64 pos 8) keySize
  pure (key, valueOffset, valueSize)

def valueAt (b : Block) (valueOffset valueSize : Nat) : Option Bytes :=
  Bytes.substr b.content (addU64 valueOffset 8) valueSize

/-- The scan of `get`. The position stays below `restart_offset_` while the
loop runs, so more rounds than that would repeat a position for ever. -/
def getLoop (b : Block) (key : Bytes) : Nat → Nat → Option (Option Bytes)
  | 0, _ => none
  | fuel + 1, pos =>
      if pos < b.restartOffset then do
        let (s, valueOffset, valueSize) ← b.keyAt pos
        if s = key then return some (← b.valueAt valueOffset valueSize)
        b.getLoop key fuel (addU64 (addU64 valueOffset valueSize) 8)
      else some none

/-- `get`: the inner `none` is `(false, "")`. -/
def get (b : Block) (key : Bytes) : Option (Option Bytes) :=
  b.getLoop key (b.restartOffset + 1) 0

end Block

/-- `Block::Iter`, with the key and value last extracted. -/
structure BlockIter where
  current : Nat
  key : Bytes
  value : Bytes
  deriving DecidableEq, Repr

namespace BlockIter

def new (b : Block) : BlockIter := ⟨b.restartOffset, [], []⟩

def valid (it : BlockIter) (b : Block) : Bool := it.current < b.restartOffset

def extractKeyvalue (it : BlockIter) (b : Block) : Option BlockIter := do
  let (key, valueOffset, valueSize) ← b.keyAt it.current
  let value ← b.valueAt valueOffset valueSize
  pure { it with key := key, value := value }

-- `if(Valid()) extract_keyvalue();`, which ends both moves of the iterator
def extractIfValid (it : BlockIter) (b : Block) : Option BlockIter :=
  if it.valid b then it.extractKeyvalue b else some it

def seekToFirst (it : BlockIter) (b : Block) : Option BlockIter :=
  extractIfValid { it with current := 0 } b

def next (it : BlockIter) (b : Block) : Option BlockIter :=
  let size := addU64 (addU64 (8 * 2) it.key.length) it.value.length
  extractIfValid { it with current := addU64 it.current size } b

/-- The loop of `SeekToLast`, bounded as that of `get`. -/
def lastLoop (b : Block) : Nat → BlockIter → Option BlockIter
  | 0, _ => none
  | fuel + 1, it =>
      let next := addU64 it.current (addU64 (addU64 (8 * 2) it.key.length) it.value.length)
      if next ≥ b.restartOffset then some it
      else do
        let it ← it.next b
        lastLoop b fuel it

def seekToLast (it : BlockIter) (b : Block) : Option BlockIter := do
  let restart ← b.restarts.getLast?
  let it := { it with current := restart }
  -- `extract_keyvalue` asserts `Valid()`
  let it ← if it.valid b then it.extractKeyvalue b else none
  lastLoop b (b.restartOffset + 1) it

/-- The loop of `Seek`, bounded as that of `get`. -/
def seekLoop (b : Block) (key : Bytes) : Nat → BlockIter → Option BlockIter
  | 0, _ => none
  | fuel + 1, it =>
      if it.key < key then do
        let it ← it.next b
        if it.valid b then seekLoop b key fuel it else pure it
      else some it

def seek (it : BlockIter) (b : Block) (key : Bytes) : Option BlockIter := do
  let it ← it.seekToLast b
  if it.key < key then pure { it with current := b.restartOffset }
  else do
    let it ← it.seekToFirst b
    seekLoop b key (b.restartOffset + 1) it

end BlockIter

end RucDDBS
