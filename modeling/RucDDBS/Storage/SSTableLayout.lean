import RucDDBS.Storage.SSTableFormat

/-!
The layout of a table file. Whatever sizes the compressor gives the blocks, their handles
tile the front of the file up to the index block, and the last keys in the index lead
every key to the one block that has it.
-/

namespace RucDDBS

/-- A data block with its place in the file and the key that the index has for it. -/
structure DataBlock where
  offset : Nat
  size : Nat
  key : Bytes
  entries : List Entry

/-- The entry of the index; the handle has eight bytes for each of its numbers. -/
def DataBlock.indexEntry (b : DataBlock) : Entry :=
  (b.key, TableBuilder.handle b.offset b.size)

/-- The blocks lie one behind the other, from `offset` up to `stop`. -/
def Tiles : Nat → List DataBlock → Nat → Prop
  | offset, [], stop => offset = stop
  | offset, b :: rest, stop => b.offset = offset ∧ Tiles (offset + b.size) rest stop

/-- The block whose entries have the key is the first one with an index key that is not
below it, and no other block has the key. -/
def FoundIn (blocks : List DataBlock) (key : Bytes) : Prop :=
  ∃ before b after, blocks = before ++ b :: after ∧ (∃ e ∈ b.entries, e.1 = key) ∧
    (∀ b' ∈ before ++ after, ∀ e ∈ b'.entries, e.1 ≠ key) ∧
    (∀ b' ∈ before, b'.key < key) ∧ key ≤ b.key

/-- What the reader finds: the index that it opens has the handles of the blocks, and a
handle loads a block with its entries. -/
def ReadsBack (snappy : Snappy) (file : Bytes) (blocks : List DataBlock) : Prop :=
  ∃ s, SSTable.ofFile snappy file = some s ∧
    s.indexBlock.Encodes (blocks.map DataBlock.indexEntry) ∧
    ∀ b ∈ blocks, readU64 b.indexEntry.2 0 = some b.offset ∧
      readU64 b.indexEntry.2 8 = some b.size ∧
      ∃ block, SSTable.loadBlock snappy file b.offset b.size = some block ∧
        block.Encodes b.entries

/-- A file with these data blocks for these entries. -/
structure TableLayout (snappy : Snappy) (file : Bytes) (added : List Entry)
    (blocks : List DataBlock) (indexOffset indexSize : Nat) : Prop where
  tiles : Tiles 0 blocks indexOffset
  length : file.length = indexOffset + indexSize + 16
  footer : file.drop (file.length - 16) = TableBuilder.handle indexOffset indexSize
  index : ∃ points, Bytes.slice file indexOffset indexSize =
    some (TableBuilder.compressed snappy (encodeBlock (blocks.map DataBlock.indexEntry) points))
  data : ∀ b ∈ blocks, ∃ points, Bytes.slice file b.offset b.size =
    some (TableBuilder.compressed snappy (encodeBlock b.entries points))
  entries : blocks.flatMap DataBlock.entries = added
  nonempty : ∀ b ∈ blocks, b.entries ≠ []
  lastKey : ∀ b ∈ blocks, SortedMap.lastKey? b.entries = some b.key
  increasing : blocks.Pairwise fun b b' => b.key < b'.key
  found : ∀ e ∈ added, FoundIn blocks e.1

section Keys

variable {blocks : List DataBlock}

theorem cross_lt (hsorted : SortedMap.Sorted (blocks.flatMap DataBlock.entries)) :
    blocks.Pairwise fun b b' => ∀ e ∈ b.entries, ∀ e' ∈ b'.entries, e.1 < e'.1 :=
  (List.pairwise_flatMap.mp hsorted).2

theorem exists_lastEntry {b : DataBlock} (h : SortedMap.lastKey? b.entries = some b.key) :
    ∃ e ∈ b.entries, e.1 = b.key := by
  obtain ⟨e, he, hkey⟩ := Option.map_eq_some_iff.mp h
  exact ⟨e, List.mem_of_getLast? he, hkey⟩

theorem keys_increasing (hsorted : SortedMap.Sorted (blocks.flatMap DataBlock.entries))
    (hlast : ∀ b ∈ blocks, SortedMap.lastKey? b.entries = some b.key) :
    blocks.Pairwise fun b b' => b.key < b'.key := by
  apply (cross_lt hsorted).imp_of_mem
  intro b b' hb hb' hcross
  obtain ⟨e, he, hkey⟩ := exists_lastEntry (hlast b hb)
  obtain ⟨e', he', hkey'⟩ := exists_lastEntry (hlast b' hb')
  rw [← hkey, ← hkey']
  exact hcross e he e' he'

theorem foundIn_of_mem (hsorted : SortedMap.Sorted (blocks.flatMap DataBlock.entries))
    (hlast : ∀ b ∈ blocks, SortedMap.lastKey? b.entries = some b.key) {e : Entry}
    (he : e ∈ blocks.flatMap DataBlock.entries) : FoundIn blocks e.1 := by
  obtain ⟨b, hb, heb⟩ := List.mem_flatMap.mp he
  have hgroup : SortedMap.Sorted b.entries := (List.pairwise_flatMap.mp hsorted).1 b hb
  have hcross := cross_lt hsorted
  have hle := hgroup.le_lastKey (hlast b hb) heb
  obtain ⟨before, after, rfl⟩ := List.append_of_mem hb
  obtain ⟨_, hfrom, hbefore⟩ := List.pairwise_append.mp hcross
  have hafter := (List.pairwise_cons.mp hfrom).1
  refine ⟨before, b, after, rfl, ⟨e, heb, rfl⟩, ?_, ?_, hle⟩
  · intro b' hb' e' he'
    rcases List.mem_append.mp hb' with hin | hin
    · exact (hbefore b' hin b List.mem_cons_self e' he' e heb).ne
    · exact (hafter b' hin e heb e' he').ne'
  · intro b' hb'
    obtain ⟨e', he', hkey⟩ := exists_lastEntry (hlast b' (List.mem_append_left _ hb'))
    rw [← hkey]
    exact hbefore b' hb' b List.mem_cons_self e' he' e heb

end Keys

section Places

variable (snappy : Snappy) {offset : Nat} {groups : List Group} {b : DataBlock}

/-- The blocks that the writer makes of the groups, from `offset` on. -/
def blocksFrom (offset : Nat) : List Group → List DataBlock
  | [] => []
  | g :: rest =>
      let size := (TableBuilder.compressed snappy g.content).length
      ⟨offset, size, g.lastKey, g.1⟩ :: blocksFrom (offset + size) rest

theorem indexFrom_eq : indexFrom snappy offset groups =
    (blocksFrom snappy offset groups).map DataBlock.indexEntry := by
  induction groups generalizing offset with
  | nil => rfl
  | cons g rest ih => rw [indexFrom, blocksFrom, List.map_cons, ih, handle_mod, DataBlock.indexEntry]

theorem entries_blocksFrom :
    (blocksFrom snappy offset groups).flatMap DataBlock.entries = entriesOf groups := by
  induction groups generalizing offset with
  | nil => rfl
  | cons g rest ih => rw [blocksFrom, List.flatMap_cons, ih, entriesOf, entriesOf, List.map_cons,
      List.flatten_cons]

theorem tiles_blocksFrom : Tiles offset (blocksFrom snappy offset groups)
    (offset + (blockFile snappy groups).length) := by
  induction groups generalizing offset with
  | nil => exact rfl
  | cons g rest ih =>
      rw [blockFile_cons, List.length_append, ← Nat.add_assoc]
      exact ⟨rfl, ih⟩

/-- Where a block stands in the file. -/
theorem mem_blocksFrom (h : b ∈ blocksFrom snappy offset groups) :
    ∃ before g after, groups = before ++ g :: after ∧
      b.offset = offset + (blockFile snappy before).length ∧
      b.size = (TableBuilder.compressed snappy g.content).length ∧ b.key = g.lastKey ∧
      b.entries = g.1 := by
  induction groups generalizing offset with
  | nil => cases h
  | cons g rest ih =>
      rcases List.mem_cons.mp h with rfl | hrest
      · exact ⟨[], g, rest, rfl, rfl, rfl, rfl, rfl⟩
      · obtain ⟨before, g', after, rfl, hoffset, hsize, hkey, hentries⟩ := ih hrest
        refine ⟨g :: before, g', after, rfl, ?_, hsize, hkey, hentries⟩
        rw [hoffset, blockFile_cons, List.length_append, Nat.add_assoc]

end Places

section Layout

variable {snappy : Snappy} {m : Memtable} {groups : List Group} {indexPoints : List Nat}

theorem tableFile_front (snappy : Snappy) (groups : List Group) (indexPoints : List Nat) :
    ∃ tail, tableFile snappy groups indexPoints = blockFile snappy groups ++ tail :=
  ⟨_, List.append_assoc _ _ _⟩

theorem TableBuilder.Blocks.layout (h : TableBuilder.Blocks snappy m groups indexPoints) :
    TableLayout snappy (tableFile snappy groups indexPoints) m.entries (blocksFrom snappy 0 groups)
      (blockFile snappy groups).length (indexFile snappy groups indexPoints).length := by
  have hlength : (tableFile snappy groups indexPoints).length =
      (blockFile snappy groups).length + (indexFile snappy groups indexPoints).length + 16 := by
    rw [tableFile, List.length_append, List.length_append, handle_length]
  have hentries : (blocksFrom snappy 0 groups).flatMap DataBlock.entries = m.entries := by
    rw [entries_blocksFrom, h.entries]
  have hsorted : SortedMap.Sorted ((blocksFrom snappy 0 groups).flatMap DataBlock.entries) := by
    rw [hentries]
    exact m.sorted
  have hgroup {b : DataBlock} (hb : b ∈ blocksFrom snappy 0 groups) :
      b.entries ≠ [] ∧ SortedMap.lastKey? b.entries = some b.key := by
    obtain ⟨before, g, after, rfl, _, _, hkey, hbentries⟩ := mem_blocksFrom snappy hb
    have hne := h.nonempty g (by simp)
    obtain ⟨_, _, _, hlast⟩ := Group.lastKey_mem g hne
    rw [hbentries, hkey]
    exact ⟨hne, hlast⟩
  have hlast : ∀ b ∈ blocksFrom snappy 0 groups, SortedMap.lastKey? b.entries = some b.key :=
    fun b hb => (hgroup hb).2
  constructor
  · have htiles : Tiles 0 (blocksFrom snappy 0 groups) (0 + (blockFile snappy groups).length) :=
      tiles_blocksFrom snappy
    rwa [Nat.zero_add] at htiles
  · exact hlength
  · rw [hlength, Nat.add_sub_cancel, tableFile, handle_mod, ← List.length_append]
    exact List.drop_left
  · refine ⟨indexPoints, ?_⟩
    rw [← indexFrom_eq]
    exact Bytes.slice_append rfl rfl rfl
  · intro b hb
    obtain ⟨before, g, after, hgroups, hoffset, hsize, _, hbentries⟩ := mem_blocksFrom snappy hb
    obtain ⟨tail, htail⟩ := tableFile_front snappy groups indexPoints
    have hfile := blockFile_split snappy htail hgroups
    rw [Nat.zero_add] at hoffset
    rw [hbentries]
    exact ⟨g.2, Bytes.slice_append hfile hoffset hsize⟩
  · exact hentries
  · exact fun b hb => (hgroup hb).1
  · exact hlast
  · exact keys_increasing hsorted hlast
  · intro e he
    rw [← hentries] at he
    exact foundIn_of_mem hsorted hlast he

theorem TableBuilder.Blocks.readsBack (h : TableBuilder.Blocks snappy m groups indexPoints)
    (hspace : m.encodedSpace < 2 ^ 64)
    (hsmall : (tableFile snappy groups indexPoints).length < 2 ^ 64) :
    ReadsBack snappy (tableFile snappy groups indexPoints) (blocksFrom snappy 0 groups) := by
  obtain ⟨s, hopen, hopened⟩ := SSTable.ofFile_opened h hspace hsmall
  have hindex := hopened.index
  rw [indexFrom_eq] at hindex
  refine ⟨s, hopen, hindex, ?_⟩
  intro b hb
  obtain ⟨before, g, after, hgroups, hoffset, hsize, _, hbentries⟩ := mem_blocksFrom snappy hb
  rw [Nat.zero_add] at hoffset
  obtain ⟨block, hreadOffset, hreadSize, hload, hencodes⟩ := hopened.loads hgroups
  rw [SSTable.ofFile_file hopen, ← hoffset, ← hsize] at hload
  rw [← hoffset, ← hsize] at hreadOffset hreadSize
  rw [hbentries]
  exact ⟨hreadOffset, hreadSize, block, hload, hencodes⟩

end Layout

/-- Adding entries in the order of their keys, in any number, and finishing passes all the
assertions and leaves a file with this layout. A file whose numbers all fit into eight
bytes reads back so. -/
theorem layout_of_adds (snappy : Snappy) (entries : List Entry)
    (hsorted : SortedMap.Sorted entries) :
    ∃ t t' blocks indexOffset indexSize,
      TableBuilder.new.addAll snappy entries = some t ∧ t.finish snappy = some t' ∧
      TableLayout snappy t'.file entries blocks indexOffset indexSize ∧
      (entriesSpace entries + 24 < 2 ^ 64 → t'.file.length < 2 ^ 64 →
        ReadsBack snappy t'.file blocks) := by
  obtain ⟨groups, indexPoints, hcreate, hblocks⟩ :=
    TableBuilder.createSstable_blocks snappy ⟨entries, hsorted⟩
  obtain ⟨t, hadd, hcreate⟩ := Option.bind_eq_some_iff.mp hcreate
  obtain ⟨t', hfinish, hfile⟩ := Option.bind_eq_some_iff.mp hcreate
  obtain hfile : t'.file = tableFile snappy groups indexPoints := Option.some.inj hfile
  refine ⟨t, t', blocksFrom snappy 0 groups, (blockFile snappy groups).length,
    (indexFile snappy groups indexPoints).length, hadd, hfinish, ?_, ?_⟩
  · rw [hfile]
    exact hblocks.layout
  · intro hspace hsmall
    rw [hfile] at hsmall ⊢
    exact hblocks.readsBack hspace hsmall

theorem layout_of_adds_twoEntries :
    ∃ t t' blocks indexOffset indexSize,
      TableBuilder.new.addAll .literal SSTable.twoEntries.entries = some t ∧
      t.finish .literal = some t' ∧
      TableLayout .literal t'.file SSTable.twoEntries.entries blocks indexOffset indexSize ∧
      (entriesSpace SSTable.twoEntries.entries + 24 < 2 ^ 64 → t'.file.length < 2 ^ 64 →
        ReadsBack .literal t'.file blocks) :=
  layout_of_adds .literal SSTable.twoEntries.entries SSTable.twoEntries.sorted

end RucDDBS
