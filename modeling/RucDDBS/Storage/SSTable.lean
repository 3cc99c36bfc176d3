import RucDDBS.Library.SortedMap
import RucDDBS.Storage.Block

/-!
The SSTable file. `TableBuilder` writes the entries of a memtable as a sequence
of compressed blocks, then an index block that maps the last key of each data
block to its place in the file, then the place of the index block. `SSTable`
reads it back, always without a block cache: no caller ever passes one.

The model's memtable is what the skip list stands for, its entries in key
order; the tower structure decides only how fast they are found. The
compressor is a third-party library and enters as a parameter.
-/

namespace RucDDBS

abbrev Memtable := SortedMap Bytes Bytes

/-- `space()`: the bytes of all keys and values. -/
def Memtable.space (m : Memtable) : Nat :=
  (m.entries.map fun e => e.1.length + e.2.length).sum

/-- The block compressor. `uncompress` is `none` where the library reports a
malformed input. -/
structure Snappy where
  compress : Bytes → Bytes
  uncompress : Bytes → Option Bytes
  uncompress_compress : ∀ s, uncompress (compress s) = some s

namespace Snappy

/-- The length at the head of a stream, seven bits a byte, low bits first. -/
def varint : Nat → Nat → Bytes
  | 0, _ => []
  | rounds + 1, n =>
      if n < 128 then [UInt8.ofNat n]
      else UInt8.ofNat (n % 128 + 128) :: varint rounds (n / 128)

def readVarint : Bytes → Option (Nat × Bytes)
  | [] => none
  | byte :: rest =>
      if byte.toNat < 128 then some (byte.toNat, rest)
      else do
        let (n, rest) ← readVarint rest
        pure (byte.toNat - 128 + 128 * n, rest)

/-- One-byte literal elements: the tag of such an element is zero. -/
def literals (s : Bytes) : Bytes := s.flatMap fun byte => [0, byte]

def readLiterals : Bytes → Option Bytes
  | [] => some []
  | [_] => none
  | tag :: byte :: rest => if tag = 0 then (readLiterals rest).map (byte :: ·) else none

theorem readVarint_varint {rounds n : Nat} (h : n < 2 ^ rounds) (rest : Bytes) :
    readVarint (varint (rounds + 1) n ++ rest) = some (n, rest) := by
  induction rounds generalizing n with
  | zero =>
      have hn : n = 0 := by omega
      subst hn
      rfl
  | succ rounds ih =>
      by_cases hsmall : n < 128
      · have hbyte : (UInt8.ofNat n).toNat = n := by
          rw [UInt8.toNat_ofNat']
          omega
        rw [varint, if_pos hsmall, List.singleton_append, readVarint, hbyte, if_pos hsmall]
      · have hbyte : (UInt8.ofNat (n % 128 + 128)).toNat = n % 128 + 128 := by
          rw [UInt8.toNat_ofNat']
          omega
        have hrest := ih (n := n / 128) (by omega)
        rw [varint, if_neg hsmall, List.cons_append, readVarint, hbyte, if_neg (by omega), hrest]
        simp
        omega

theorem readLiterals_literals (s : Bytes) : readLiterals (literals s) = some s := by
  induction s with
  | nil => rfl
  | cons byte s ih =>
      have hcons : literals (byte :: s) = 0 :: byte :: literals s := rfl
      rw [hcons, readLiterals, if_pos rfl, ih]
      rfl

/-- A compressor that finds no repetition. What it writes is a stream of the
library's format: the length, then one literal element for each byte. -/
def literal : Snappy where
  compress s := varint (s.length + 1) s.length ++ literals s
  uncompress stream := do
    let (n, elements) ← readVarint stream
    let s ← readLiterals elements
    if s.length = n then some s else none
  uncompress_compress := by
    intro s
    simp [readVarint_varint Nat.lt_two_pow_self, readLiterals_literals]

end Snappy

def StorageOption.blockCompressed : Bool := true

structure TableBuilder where
  file : Bytes
  offset : Nat
  size : Nat
  lastKey : Bytes
  numEntries : Nat
  datablock : BlockBuilder
  indexblock : BlockBuilder

namespace TableBuilder

variable (snappy : Snappy)

def new : TableBuilder := ⟨[], 0, 0, [], 0, .new, .new⟩

def compressed (content : Bytes) : Bytes :=
  if StorageOption.blockCompressed = true then snappy.compress content else content

/-- A block's place in the file, as the index and the footer store it. -/
def handle (offset size : Nat) : Bytes := fixed64 offset ++ fixed64 size

/-- `writeBlock(&datablock_)`: the block's handle goes to the index. -/
def writeDataBlock (t : TableBuilder) : Option TableBuilder := do
  let block := compressed snappy t.datablock.finish.1
  let indexblock ← t.indexblock.add t.lastKey (handle t.offset block.length)
  pure { t with
    file := t.file ++ block
    size := block.length
    offset := addU64 t.offset block.length
    indexblock := indexblock
    datablock := t.datablock.finish.2.reset }

/-- `writeBlock(&indexblock_)`: the index's handle ends the file. -/
def writeIndexBlock (t : TableBuilder) : TableBuilder :=
  let block := compressed snappy t.indexblock.finish.1
  { t with
    file := t.file ++ block ++ handle t.offset block.length
    size := block.length
    offset := addU64 t.offset block.length
    indexblock := t.indexblock.finish.2.reset }

def flush (t : TableBuilder) : Option TableBuilder :=
  if t.datablock.empty = true then some t else t.writeDataBlock snappy

def add (t : TableBuilder) (key value : Bytes) : Option TableBuilder := do
  let datablock ← t.datablock.add key value
  let t := { t with lastKey := key, datablock := datablock, numEntries := t.numEntries + 1 }
  if StorageOption.blockSpace ≤ t.datablock.estimatedSize then t.flush snappy else some t

def finish (t : TableBuilder) : Option TableBuilder := do
  let t ← t.flush snappy
  pure (t.writeIndexBlock snappy)

/-- The loop of `create_sstable` over the memtable's entries. -/
def addAll (t : TableBuilder) (entries : List Entry) : Option TableBuilder :=
  entries.foldlM (fun t e => t.add snappy e.1 e.2) t

/-- The bytes of the file that `create_sstable` writes. -/
def createSstable (memtable : Memtable) : Option Bytes := do
  let t ← new.addAll snappy memtable.entries
  let t ← t.finish snappy
  pure t.file

end TableBuilder

/-- An open table: the file, and the index block with its iterator. -/
structure SSTable where
  file : Bytes
  indexBlock : Block
  indexIter : BlockIter

namespace SSTable

variable (snappy : Snappy)

def loadBlock (file : Bytes) (blockOffset blockSize : Nat) : Option Block := do
  let buffer ← Bytes.slice file blockOffset blockSize
  let uncompressed ←
    if StorageOption.blockCompressed = true then snappy.uncompress buffer else some []
  Block.ofContent uncompressed

def ofFile (file : Bytes) : Option SSTable := do
  if file.length < 8 * 2 then none
  let indexOffset ← readU64 file (file.length - 8 * 2)
  let indexSize ← readU64 file (file.length - 8)
  let indexBlock ← loadBlock snappy file indexOffset indexSize
  pure ⟨file, indexBlock, .new indexBlock⟩

/-- The search through the index. As in `Block.getLoop`, the bound on the
rounds cuts off only endless loops. -/
def getLoop (s : SSTable) (key : Bytes) : Nat → BlockIter → Option (Option Bytes)
  | 0, _ => none
  | fuel + 1, it =>
      if it.valid s.indexBlock = true then
        if key ≤ it.key then do
          let blockOffset ← readU64 it.value 0
          let blockSize ← readU64 it.value 8
          let dataBlock ← loadBlock snappy s.file blockOffset blockSize
          dataBlock.get key
        else do
          let it ← it.next s.indexBlock
          s.getLoop key fuel it
      else some none

/-- `get`. The iterator is a member, but every call moves it to the front
before it reads it. -/
def get (s : SSTable) (key : Bytes) : Option (Option Bytes) := do
  let it ← s.indexIter.seekToFirst s.indexBlock
  s.getLoop snappy key (s.indexBlock.restartOffset + 1) it

end SSTable

end RucDDBS
