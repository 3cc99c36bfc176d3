import RucDDBS.Library.Run
import RucDDBS.Storage.SSTable
import Mathlib.Logic.Function.Basic

/-!
The key-value store: `LevelZero` and `DiskStorage`, which own the SSTable files
of a directory, and `KVStore_beta` over them. A directory is the files in it
together with the two small files that list them; what was written is what is
read. As in the format modules, an outer `none` is a read that leaves a buffer.

`search` walks the tables in the order in which they were written and stops at
the first one that has the key, whatever value it finds there.
-/

namespace RucDDBS

/-- The files of a store. `index` is `level_0/index` with the number of tables,
the number of entries and the table numbers; `metaNo` is the `meta` file. -/
structure Directory where
  sst : Nat → Option Bytes
  index : Option (Nat × Nat × List Nat)
  metaNo : Option Nat

def Directory.empty : Directory := ⟨fun _ => none, none, none⟩

/-- The members of `LevelZero` and `DiskStorage`, with the directory they are
kept in. -/
structure DiskStorage where
  ssts : List Nat
  size : Nat
  numEntries : Nat
  no : Nat
  files : Directory

namespace DiskStorage

variable (snappy : Snappy)

/-- `LevelZero::save_meta`. -/
def saveIndex (d : DiskStorage) : DiskStorage :=
  { d with files := { d.files with index := some (d.size, d.numEntries, d.ssts) } }

/-- `DiskStorage::save_meta`. -/
def saveMeta (d : DiskStorage) : DiskStorage :=
  { d with files := { d.files with metaNo := some d.no } }

/-- The two constructors: each list is read if it is there and created if not. -/
def ofDirectory (files : Directory) : DiskStorage :=
  let d : DiskStorage :=
    match files.index with
    | none => saveIndex ⟨[], 0, 0, 0, files⟩
    | some (size, numEntries, nos) => ⟨nos.take size, size, numEntries, 0, files⟩
  match files.metaNo with
  | none => d.saveMeta
  | some no => { d with no := no }

/-- `LevelZero::add` under the number `no_`, which then moves on. -/
def add (d : DiskStorage) (memtable : Memtable) : Option DiskStorage := do
  let file ← TableBuilder.createSstable snappy memtable
  let files := { d.files with sst := Function.update d.files.sst d.no (some file) }
  let d := saveIndex
    { d with
      ssts := d.ssts ++ [d.no]
      size := d.size + 1
      numEntries := d.numEntries + memtable.size
      files := files }
  pure (saveMeta { d with no := d.no + 1 })

/-- One step of the search: open the file of a table and ask it. -/
def searchTable (files : Directory) (key : Bytes) (no : Nat) : Option (Option Bytes) := do
  let file ← files.sst no
  let sstable ← SSTable.ofFile snappy file
  sstable.get snappy key

def searchFrom (files : Directory) (key : Bytes) : List Nat → Option (Option Bytes)
  | [] => some none
  | no :: rest => do
      match ← searchTable snappy files key no with
      | some value => pure (some value)
      | none => searchFrom files key rest

def search (d : DiskStorage) (key : Bytes) : Option (Option Bytes) :=
  searchFrom snappy d.files key d.ssts

end DiskStorage

structure KVStore where
  memtable : Memtable
  diskstorage : DiskStorage

namespace KVStore

variable (snappy : Snappy)

/-- A store opened on a directory. -/
def ofDirectory (files : Directory) : KVStore := ⟨.empty, .ofDirectory files⟩

def put (kv : KVStore) (key value : Bytes) : Option KVStore :=
  let memtable := kv.memtable.put key value
  if StorageOption.sstableSpace < Memtable.space memtable then do
    let diskstorage ← kv.diskstorage.add snappy memtable
    pure ⟨.empty, diskstorage⟩
  else some { kv with memtable := memtable }

/-- An empty value reads as an absent key. -/
def visible : Option Bytes → Option Bytes
  | some [] => none
  | result => result

def get (kv : KVStore) (key : Bytes) : Option (Option Bytes) := do
  let result ←
    if kv.memtable.contains key = true then some (kv.memtable.get key)
    else kv.diskstorage.search snappy key
  pure (visible result)

def del (kv : KVStore) (key : Bytes) : Option (KVStore × Bool) :=
  if kv.memtable.contains key = true then
    some ({ kv with memtable := kv.memtable.del key }, true)
  else do
    match visible (← kv.diskstorage.search snappy key) with
    | some _ => pure ({ kv with memtable := kv.memtable.put key [] }, true)
    | none => pure (kv, false)

/-- `flush` writes a table but leaves the memtable as it is. -/
def flush (kv : KVStore) : Option KVStore :=
  if kv.memtable.isEmpty = true then some kv
  else do
    let diskstorage ← kv.diskstorage.add snappy kv.memtable
    pure { kv with diskstorage := diskstorage }

/-- The destructor flushes; the next object starts from the directory. -/
def reopen (kv : KVStore) : Option KVStore := do
  let kv ← kv.flush snappy
  pure (ofDirectory kv.diskstorage.files)

inductive Action where
  | put (key value : Bytes)
  | del (key : Bytes)
  | flush
  | reopen
  deriving DecidableEq, Repr

/-- The operations as steps; the event of `del` is what it returns. -/
def step (kv : KVStore) : Action → Option (KVStore × Bool)
  | .put key value => (kv.put snappy key value).map (·, true)
  | .del key => kv.del snappy key
  | .flush => (kv.flush snappy).map (·, true)
  | .reopen => (kv.reopen snappy).map (·, true)

end KVStore

end RucDDBS
