import RucDDBS.Storage.BlockFormat
import RucDDBS.Storage.SSTable

/-!
The file that `create_sstable` writes, and that a table opened on it answers
like the memtable. The writer's invariant names the groups of entries that have
become blocks and the entries still pending in the data block; where the cuts
fall does not matter. The reader is followed group by group through the index.
-/

namespace RucDDBS

/-- The entries of one data block, with its restart points. -/
abbrev Group := List Entry × List Nat

namespace Group

def content (g : Group) : Bytes := encodeBlock g.1 g.2

def lastKey (g : Group) : Bytes := (SortedMap.lastKey? g.1).getD []

end Group

/-- The entries of a sequence of blocks. -/
def entriesOf (groups : List Group) : List Entry := (groups.map Prod.fst).flatten

/-- A handle has room for the offset modulo 2⁶⁴, which is what the writer counts. -/
theorem handle_mod (offset size : Nat) :
    TableBuilder.handle (offset % 2 ^ 64) size = TableBuilder.handle offset size := by
  have hlow : fixed64 (offset % 2 ^ 64) = fixed64 offset := Bytes.toLE_mod 8 offset
  rw [TableBuilder.handle, hlow, TableBuilder.handle]

theorem handle_length (offset size : Nat) : (TableBuilder.handle offset size).length = 16 := by
  rw [TableBuilder.handle, List.length_append, fixed64_length, fixed64_length]

section Layout

variable (snappy : Snappy)

/-- The data region of the file. -/
def blockFile (groups : List Group) : Bytes :=
  (groups.map fun g => TableBuilder.compressed snappy g.content).flatten

/-- The entries of the index for blocks that start at `offset`. -/
def indexFrom (offset : Nat) : List Group → List Entry
  | [] => []
  | g :: rest =>
      let size := (TableBuilder.compressed snappy g.content).length
      (g.lastKey, TableBuilder.handle (offset % 2 ^ 64) size) :: indexFrom (offset + size) rest

/-- The index block as it stands in the file. -/
def indexFile (groups : List Group) (indexPoints : List Nat) : Bytes :=
  TableBuilder.compressed snappy (encodeBlock (indexFrom snappy 0 groups) indexPoints)

/-- The whole file: data blocks, index block, footer. -/
def tableFile (groups : List Group) (indexPoints : List Nat) : Bytes :=
  blockFile snappy groups ++ indexFile snappy groups indexPoints ++
    TableBuilder.handle ((blockFile snappy groups).length % 2 ^ 64)
      (indexFile snappy groups indexPoints).length

@[simp] theorem blockFile_append (groups groups' : List Group) :
    blockFile snappy (groups ++ groups') = blockFile snappy groups ++ blockFile snappy groups' := by
  simp [blockFile]

@[simp] theorem blockFile_cons (g : Group) (groups : List Group) :
    blockFile snappy (g :: groups) =
      TableBuilder.compressed snappy g.content ++ blockFile snappy groups := by
  simp [blockFile]

/-- What lies in front of a block and behind it. -/
theorem blockFile_split {file tail : Bytes} {groups before after : List Group} {g : Group}
    (hfile : file = blockFile snappy groups ++ tail) (hgroups : groups = before ++ g :: after) :
    file = blockFile snappy before ++ TableBuilder.compressed snappy g.content ++
      (blockFile snappy after ++ tail) := by
  rw [hfile, hgroups, blockFile_append, blockFile_cons, List.append_assoc, List.append_assoc,
    List.append_assoc]

theorem indexFrom_append (offset : Nat) (groups groups' : List Group) :
    indexFrom snappy offset (groups ++ groups') = indexFrom snappy offset groups ++
      indexFrom snappy (offset + (blockFile snappy groups).length) groups' := by
  induction groups generalizing offset with
  | nil => simp [indexFrom, blockFile]
  | cons g rest ih => simp [indexFrom, ih, Nat.add_assoc]

theorem lastKey_indexFrom {offset : Nat} {groups : List Group} {last : Bytes}
    (h : SortedMap.lastKey? (indexFrom snappy offset groups) = some last) :
    ∃ g ∈ groups, last = g.lastKey := by
  rcases List.eq_nil_or_concat groups with rfl | ⟨front, g, rfl⟩
  · simp [indexFrom, SortedMap.lastKey?] at h
  · rw [List.concat_eq_append, indexFrom_append] at h
    simp only [indexFrom, SortedMap.lastKey?, List.getLast?_append, List.getLast?_singleton,
      Option.some_or, Option.map_some, Option.some.injEq] at h
    exact ⟨g, by simp, h.symm⟩

end Layout

theorem Group.lastKey_mem (g : Group) (hne : g.1 ≠ []) :
    ∃ e ∈ g.1, e.1 = g.lastKey ∧ SortedMap.lastKey? g.1 = some g.lastKey := by
  obtain ⟨e, he, hlast⟩ := SortedMap.lastKey_of_ne_nil hne
  have hkey : g.lastKey = e.1 := by rw [Group.lastKey, hlast, Option.getD_some]
  exact ⟨e, he, hkey.symm, by rw [hlast, hkey]⟩

namespace TableBuilder

variable {snappy : Snappy} {t : TableBuilder} {groups : List Group} {pending : List Entry}
  {e : Entry}

/-- The builder has written the blocks of `groups` and holds `pending` in its
data block. -/
structure Holds (snappy : Snappy) (t : TableBuilder) (groups : List Group)
    (pending : List Entry) : Prop where
  file : t.file = blockFile snappy groups
  offset : t.offset = t.file.length % 2 ^ 64
  data : t.datablock.Holds pending
  index : t.indexblock.Holds (indexFrom snappy 0 groups)
  nonempty : ∀ g ∈ groups, g.1 ≠ []
  lastKey : pending ≠ [] → SortedMap.lastKey? pending = some t.lastKey
  restarts : ∀ g ∈ groups, ∀ r ∈ g.2, r ≤ (encodeEntries g.1).length
  restartCount : ∀ g ∈ groups, g.2.length ≤ g.1.length + 1

theorem holds_new (snappy : Snappy) : new.Holds snappy [] [] where
  file := rfl
  offset := rfl
  data := BlockBuilder.holds_new
  index := BlockBuilder.holds_new
  nonempty := by simp
  lastKey := by simp
  restarts := by simp
  restartCount := by simp

/-- Writing out a non-empty data block moves its entries to the groups; the
index accepts the block's last key. -/
theorem Holds.writeDataBlock (h : t.Holds snappy groups pending) (hne : pending ≠ [])
    (hsorted : SortedMap.Sorted (entriesOf groups ++ pending)) :
    ∃ t', t.writeDataBlock snappy = some t' ∧
      t'.Holds snappy (groups ++ [(pending, t.datablock.restarts)]) [] := by
  have hlast := h.lastKey hne
  have hgroup : Group.lastKey (pending, t.datablock.restarts) = t.lastKey := by
    simp [Group.lastKey, hlast]
  obtain ⟨e', he', hkey', _⟩ := Group.lastKey_mem (pending, t.datablock.restarts) hne
  have hkey : ∀ last, SortedMap.lastKey? (indexFrom snappy 0 groups) = some last →
      last < t.lastKey := by
    intro last hindex
    obtain ⟨g, hg, rfl⟩ := lastKey_indexFrom snappy hindex
    obtain ⟨e, he, hkey, _⟩ := Group.lastKey_mem g (h.nonempty g hg)
    rw [← hkey, ← hgroup, ← hkey']
    apply (List.pairwise_append.mp hsorted).2.2 e _ e' he'
    exact List.mem_flatten.mpr ⟨g.1, List.mem_map.mpr ⟨g, hg, rfl⟩, he⟩
  have hcontent : t.datablock.finish.1 = Group.content (pending, t.datablock.restarts) :=
    h.data.finish
  obtain ⟨index, hadd, hindex⟩ := h.index.add
    (handle t.offset (compressed snappy t.datablock.finish.1).length) hkey
  have hwrite : t.writeDataBlock snappy = some { t with
      file := t.file ++ compressed snappy t.datablock.finish.1
      size := (compressed snappy t.datablock.finish.1).length
      offset := addU64 t.offset (compressed snappy t.datablock.finish.1).length
      indexblock := index
      datablock := .new } := by
    simp [TableBuilder.writeDataBlock, hadd, BlockBuilder.reset]
  refine ⟨_, hwrite, ?_⟩
  constructor
  · simp [h.file, hcontent, blockFile]
  · simp [h.offset, addU64]
  · exact BlockBuilder.holds_new
  · rw [indexFrom_append]
    simpa [indexFrom, hgroup, hcontent, h.offset, h.file] using hindex
  · intro g hg
    rcases List.mem_append.mp hg with hg | hg
    · exact h.nonempty g hg
    · rw [List.mem_singleton.mp hg]
      exact hne
  · simp
  · intro g hg r hr
    rcases List.mem_append.mp hg with hg | hg
    · exact h.restarts g hg r hr
    · rw [List.mem_singleton.mp hg] at hr ⊢
      rw [← h.data.buffer]
      exact h.data.restarts r hr
  · intro g hg
    rcases List.mem_append.mp hg with hg | hg
    · exact h.restartCount g hg
    · rw [List.mem_singleton.mp hg]
      exact h.data.restartCount

theorem Holds.flush (h : t.Holds snappy groups pending)
    (hsorted : SortedMap.Sorted (entriesOf groups ++ pending)) :
    ∃ t' groups', t.flush snappy = some t' ∧ t'.Holds snappy groups' [] ∧
      entriesOf groups' = entriesOf groups ++ pending := by
  by_cases hne : pending = []
  · subst hne
    have hempty : t.datablock.empty = true := h.data.empty_iff.mpr rfl
    exact ⟨t, groups, by simp [TableBuilder.flush, hempty], h, by simp⟩
  · have hfull : t.datablock.empty ≠ true := fun hempty => hne (h.data.empty_iff.mp hempty)
    obtain ⟨t', hwrite, ht'⟩ := h.writeDataBlock hne hsorted
    refine ⟨t', _, by simp [TableBuilder.flush, hfull, hwrite], ht', ?_⟩
    simp [entriesOf]

/-- One `add`: the entry is pending, or its block has just been written. -/
theorem Holds.add (h : t.Holds snappy groups pending)
    (hsorted : SortedMap.Sorted (entriesOf groups ++ pending ++ [e])) :
    ∃ t' groups' pending', t.add snappy e.1 e.2 = some t' ∧ t'.Holds snappy groups' pending' ∧
      entriesOf groups' ++ pending' = entriesOf groups ++ pending ++ [e] := by
  have hkey : ∀ last, SortedMap.lastKey? pending = some last → last < e.1 := by
    intro last hlast
    obtain ⟨e', he', rfl⟩ := Option.map_eq_some_iff.mp hlast
    apply (List.pairwise_append.mp hsorted).2.2 e' _ e (by simp)
    exact List.mem_append_right _ (List.mem_of_getLast? he')
  obtain ⟨data, hadd, hdata⟩ := h.data.add e.2 hkey
  have hholds : Holds snappy { t with
      lastKey := e.1, datablock := data, numEntries := t.numEntries + 1 }
      groups (pending ++ [e]) :=
    { h with
      data := hdata
      lastKey := by simp [SortedMap.lastKey?] }
  have hsorted' : SortedMap.Sorted (entriesOf groups ++ (pending ++ [e])) := by
    simpa using hsorted
  by_cases hfull : StorageOption.blockSpace ≤ data.estimatedSize
  · obtain ⟨t', groups', hflush, ht', hentries⟩ := hholds.flush hsorted'
    refine ⟨t', groups', [], ?_, ht', by simp [hentries]⟩
    simp [TableBuilder.add, hadd, hfull, hflush]
  · refine ⟨_, groups, pending ++ [e], ?_, hholds, by simp⟩
    simp [TableBuilder.add, hadd, hfull]

theorem Holds.addAll {rest : List Entry} (h : t.Holds snappy groups pending)
    (hsorted : SortedMap.Sorted (entriesOf groups ++ pending ++ rest)) :
    ∃ t' groups' pending', t.addAll snappy rest = some t' ∧ t'.Holds snappy groups' pending' ∧
      entriesOf groups' ++ pending' = entriesOf groups ++ pending ++ rest := by
  induction rest generalizing t groups pending with
  | nil => exact ⟨t, groups, pending, rfl, h, by simp⟩
  | cons e rest ih =>
      have hfirst : SortedMap.Sorted (entriesOf groups ++ pending ++ [e]) := by
        apply List.Pairwise.sublist _ hsorted
        simp
      obtain ⟨t₁, groups₁, pending₁, hadd, h₁, hentries₁⟩ := h.add hfirst
      have hrest : SortedMap.Sorted (entriesOf groups₁ ++ pending₁ ++ rest) := by
        rw [hentries₁]
        simpa using hsorted
      obtain ⟨t', groups', pending', hall, h', hentries'⟩ := ih h₁ hrest
      refine ⟨t', groups', pending', ?_, h', ?_⟩
      · simp only [TableBuilder.addAll, List.foldlM_cons, hadd, Option.bind_eq_bind,
          Option.bind_some]
        exact hall
      · rw [hentries', hentries₁]
        simp

/-- The blocks behind a finished file: they hold the memtable's entries, none
of them is empty, and all restart points lie inside their blocks. -/
structure Blocks (snappy : Snappy) (m : Memtable) (groups : List Group)
    (indexPoints : List Nat) : Prop where
  entries : entriesOf groups = m.entries
  nonempty : ∀ g ∈ groups, g.1 ≠ []
  restarts : ∀ g ∈ groups, ∀ r ∈ g.2, r ≤ (encodeEntries g.1).length
  restartCount : ∀ g ∈ groups, g.2.length ≤ g.1.length + 1
  indexRestarts : ∀ r ∈ indexPoints, r ≤ (encodeEntries (indexFrom snappy 0 groups)).length
  indexRestartCount : indexPoints.length ≤ groups.length + 1

theorem indexFrom_length (snappy : Snappy) (offset : Nat) (groups : List Group) :
    (indexFrom snappy offset groups).length = groups.length := by
  induction groups generalizing offset with
  | nil => rfl
  | cons g rest ih => simp [indexFrom, ih]

/-- `create_sstable` passes all its assertions and writes such a file. -/
theorem createSstable_blocks (snappy : Snappy) (m : Memtable) :
    ∃ groups indexPoints, createSstable snappy m = some (tableFile snappy groups indexPoints) ∧
      Blocks snappy m groups indexPoints := by
  have hsorted : SortedMap.Sorted (entriesOf [] ++ [] ++ m.entries) := m.sorted
  obtain ⟨t, groups, pending, hall, hholds, hentries⟩ :=
    (holds_new snappy).addAll hsorted
  have hsorted' : SortedMap.Sorted (entriesOf groups ++ pending) := by
    rw [hentries]
    exact hsorted
  obtain ⟨t', groups', hflush, h', hentries'⟩ := hholds.flush hsorted'
  refine ⟨groups', t'.indexblock.restarts, ?_, ?_⟩
  · simp [createSstable, hall, TableBuilder.finish, hflush, writeIndexBlock, tableFile,
      indexFile, h'.index.finish, h'.file, h'.offset]
  · constructor
    · rw [hentries', hentries]
      rfl
    · exact h'.nonempty
    · exact h'.restarts
    · exact h'.restartCount
    · rw [← h'.index.buffer]
      exact h'.index.restarts
    · rw [← indexFrom_length snappy 0 groups']
      exact h'.index.restartCount

end TableBuilder

section Sizes

/-- An upper bound for the bytes that an entry takes in a block, with its
share of the restart points and of the index. -/
def entrySpace (e : Entry) : Nat := 40 + e.1.length + e.2.length

def entriesSpace (es : List Entry) : Nat := (es.map entrySpace).sum

theorem entriesSpace_append (es es' : List Entry) :
    entriesSpace (es ++ es') = entriesSpace es + entriesSpace es' := by
  simp [entriesSpace]

theorem encodeEntries_length (es : List Entry) :
    (encodeEntries es).length + 24 * es.length = entriesSpace es := by
  induction es with
  | nil => rfl
  | cons e es ih =>
      have he := encodeEntry_length e
      simp only [entriesSpace, List.map_cons, List.sum_cons, entrySpace, encodeEntries_cons,
        List.length_append, List.length_cons] at ih ⊢
      omega

theorem entrySpace_le {e : Entry} {es : List Entry} (h : e ∈ es) :
    entrySpace e ≤ entriesSpace es := by
  obtain ⟨front, back, rfl⟩ := List.mem_iff_append.mp h
  rw [entriesSpace_append]
  simp only [entriesSpace, List.map_cons, List.sum_cons]
  omega

theorem group_space_le {g : Group} {groups : List Group} (h : g ∈ groups) :
    entriesSpace g.1 ≤ entriesSpace (entriesOf groups) := by
  obtain ⟨front, back, rfl⟩ := List.mem_iff_append.mp h
  have hsplit : entriesOf (front ++ g :: back) =
      entriesOf front ++ (g.1 ++ entriesOf back) := by
    simp [entriesOf]
  rw [hsplit, entriesSpace_append, entriesSpace_append]
  omega

theorem index_space_le (snappy : Snappy) (offset : Nat) {groups : List Group}
    (hne : ∀ g ∈ groups, g.1 ≠ []) :
    (encodeEntries (indexFrom snappy offset groups)).length + 8 * groups.length ≤
      entriesSpace (entriesOf groups) := by
  induction groups generalizing offset with
  | nil => simp [indexFrom]
  | cons g rest ih =>
      obtain ⟨e, he, hkey, _⟩ := Group.lastKey_mem g (hne g (by simp))
      have hfirst := entrySpace_le he
      have hrest := ih (offset + (TableBuilder.compressed snappy g.content).length)
        (fun g' hg' => hne g' (by simp [hg']))
      have hsplit : entriesOf (g :: rest) = g.1 ++ entriesOf rest := by simp [entriesOf]
      have hlast : g.lastKey.length = e.1.length := by rw [hkey]
      rw [hsplit, entriesSpace_append]
      simp only [indexFrom, encodeEntries_cons, List.length_append, encodeEntry_length,
        TableBuilder.handle, fixed64_length, List.length_cons, hlast, entrySpace] at hfirst hrest ⊢
      omega

/-- The bytes of a memtable's keys and values, with the bookkeeping of the file
format. -/
def Memtable.encodedSpace (m : Memtable) : Nat := entriesSpace m.entries + 24

variable {snappy : Snappy} {m : Memtable} {groups : List Group} {indexPoints : List Nat}

theorem TableBuilder.Blocks.content_length (h : TableBuilder.Blocks snappy m groups indexPoints)
    {g : Group} (hg : g ∈ groups) : g.content.length ≤ m.encodedSpace := by
  have hspace := group_space_le hg
  have hentries := encodeEntries_length g.1
  have hcount := h.restartCount g hg
  rw [h.entries] at hspace
  rw [Group.content, Block.encodeBlock_length, Memtable.encodedSpace]
  omega

theorem TableBuilder.Blocks.index_length (h : TableBuilder.Blocks snappy m groups indexPoints) :
    (encodeBlock (indexFrom snappy 0 groups) indexPoints).length ≤ m.encodedSpace := by
  have hspace := index_space_le snappy 0 h.nonempty
  have hcount := h.indexRestartCount
  rw [h.entries] at hspace
  rw [Block.encodeBlock_length, Memtable.encodedSpace]
  omega

end Sizes

namespace SSTable

variable {snappy : Snappy} {m : Memtable} {groups : List Group} {indexPoints : List Nat}
  {file : Bytes}

/-- Loading a block that lies in the file gives back the entries it was
written for. -/
theorem loadBlock_encodes {before after : Bytes} {es : List Entry} {restarts : List Nat}
    {pos size : Nat}
    (hfile : file = before ++ TableBuilder.compressed snappy (encodeBlock es restarts) ++ after)
    (hpos : pos = before.length)
    (hsize : size = (TableBuilder.compressed snappy (encodeBlock es restarts)).length)
    (hcontent : (encodeBlock es restarts).length < 2 ^ 64)
    (hrestarts : ∀ r ∈ restarts, r ≤ (encodeEntries es).length) :
    ∃ b, loadBlock snappy file pos size = some b ∧ b.Encodes es := by
  have hslice := Bytes.slice_append hfile hpos hsize
  have hlen := Block.encodeBlock_length es restarts
  have hopen := Block.ofContent_encodeBlock hcontent
    (fun r hr => lt_of_le_of_lt (hrestarts r hr) (by omega))
  refine ⟨⟨encodeBlock es restarts, _, restarts.length, restarts⟩, ?_, ⟨⟨_, rfl⟩, rfl, hcontent⟩⟩
  simp [loadBlock, hslice, TableBuilder.compressed, StorageOption.blockCompressed,
    snappy.uncompress_compress, hopen]

/-- Both halves of a handle read back. -/
theorem readU64_handle (offset size : Nat) (hoffset : offset < 2 ^ 64) (hsize : size < 2 ^ 64) :
    readU64 (TableBuilder.handle offset size) 0 = some offset ∧
      readU64 (TableBuilder.handle offset size) 8 = some size := by
  constructor
  · exact readU64_append [] (fixed64 size) (by simp [TableBuilder.handle]) rfl hoffset
  · exact readU64_append (fixed64 offset) [] (by simp [TableBuilder.handle]) (by simp) hsize

/-- A table opened on a written file. -/
structure Opened (s : SSTable) (snappy : Snappy) (groups : List Group) : Prop where
  file : ∃ tail, s.file = blockFile snappy groups ++ tail
  small : s.file.length < 2 ^ 64
  index : s.indexBlock.Encodes (indexFrom snappy 0 groups)
  content : ∀ g ∈ groups, g.content.length < 2 ^ 64
  restarts : ∀ g ∈ groups, ∀ r ∈ g.2, r ≤ (encodeEntries g.1).length
  nonempty : ∀ g ∈ groups, g.1 ≠ []

theorem ofFile_opened (h : TableBuilder.Blocks snappy m groups indexPoints)
    (hspace : m.encodedSpace < 2 ^ 64)
    (hsmall : (tableFile snappy groups indexPoints).length < 2 ^ 64) :
    ∃ s, ofFile snappy (tableFile snappy groups indexPoints) = some s ∧
      s.Opened snappy groups := by
  have hlen : (tableFile snappy groups indexPoints).length = (blockFile snappy groups).length +
      (indexFile snappy groups indexPoints).length + 16 := by
    rw [tableFile, List.length_append, List.length_append, handle_length]
  have hoffset : readU64 (tableFile snappy groups indexPoints)
      ((tableFile snappy groups indexPoints).length - 8 * 2) =
      some (blockFile snappy groups).length := by
    apply readU64_append (blockFile snappy groups ++ indexFile snappy groups indexPoints)
      (fixed64 (indexFile snappy groups indexPoints).length)
    · rw [tableFile, handle_mod]
      simp only [TableBuilder.handle, List.append_assoc]
    · simp only [hlen, List.length_append]
      omega
    · omega
  have hindexSize : readU64 (tableFile snappy groups indexPoints)
      ((tableFile snappy groups indexPoints).length - 8) =
      some (indexFile snappy groups indexPoints).length := by
    apply readU64_append (blockFile snappy groups ++ indexFile snappy groups indexPoints ++
      fixed64 (blockFile snappy groups).length) []
    · rw [tableFile, handle_mod]
      simp only [TableBuilder.handle, List.append_assoc, List.append_nil]
    · simp only [hlen, List.length_append, fixed64_length]
      omega
    · omega
  have hparts : tableFile snappy groups indexPoints = blockFile snappy groups ++
      TableBuilder.compressed snappy (encodeBlock (indexFrom snappy 0 groups) indexPoints) ++
      TableBuilder.handle (blockFile snappy groups).length
        (indexFile snappy groups indexPoints).length := by
    rw [tableFile, handle_mod, indexFile]
  obtain ⟨b, hload, hencodes⟩ := loadBlock_encodes hparts rfl rfl
    (lt_of_le_of_lt h.index_length hspace) h.indexRestarts
  have hnot : ¬ (tableFile snappy groups indexPoints).length < 8 * 2 := by omega
  refine ⟨⟨tableFile snappy groups indexPoints, b, .new b⟩, ?_,
    ⟨⟨_, by rw [hparts, List.append_assoc]⟩, hsmall, hencodes,
      fun g hg => lt_of_le_of_lt (h.content_length hg) hspace, h.restarts, h.nonempty⟩⟩
  rw [← indexFile] at hload
  simp only [ofFile, if_neg hnot, hoffset, hindexSize]
  simp [hload]

theorem ofFile_file {s : SSTable} (h : ofFile snappy file = some s) : s.file = file := by
  unfold ofFile at h
  split at h
  · cases h
  · simp only [Option.bind_eq_bind, Option.bind_eq_some_iff] at h
    obtain ⟨_, _, _, _, _, _, hs⟩ := h
    rw [← Option.some.inj hs]

/-- The handle of a group's block is read as it was written, and loads the group's entries. -/
theorem Opened.loads {s : SSTable} (h : s.Opened snappy groups) {passed rest : List Group}
    {g : Group} (hgroups : groups = passed ++ g :: rest) :
    ∃ b, readU64 (TableBuilder.handle (blockFile snappy passed).length
          (TableBuilder.compressed snappy g.content).length) 0 =
        some (blockFile snappy passed).length ∧
      readU64 (TableBuilder.handle (blockFile snappy passed).length
          (TableBuilder.compressed snappy g.content).length) 8 =
        some (TableBuilder.compressed snappy g.content).length ∧
      loadBlock snappy s.file (blockFile snappy passed).length
        (TableBuilder.compressed snappy g.content).length = some b ∧ b.Encodes g.1 := by
  have hg : g ∈ groups := by simp [hgroups]
  obtain ⟨tail, htail⟩ := h.file
  have hfile := blockFile_split snappy htail hgroups
  have hlen := h.small
  rw [hfile, List.length_append, List.length_append] at hlen
  obtain ⟨hoffset, hsize⟩ := readU64_handle (blockFile snappy passed).length
    (TableBuilder.compressed snappy g.content).length (by omega) (by omega)
  obtain ⟨b, hload, hencodes⟩ := loadBlock_encodes hfile rfl rfl (h.content g hg)
    (h.restarts g hg)
  exact ⟨b, hoffset, hsize, hload, hencodes⟩

/-- The index search from behind the groups `passed`: the iterator stands before
the index entries of the others. -/
theorem Opened.getLoop {s : SSTable} (h : s.Opened snappy groups) (passed : List Group)
    {rest : List Group} (hgroups : groups = passed ++ rest) (key : Bytes) {fuel : Nat}
    (hfuel : rest.length < fuel) {it : BlockIter}
    (hit : it.Before (indexFrom snappy 0 passed)
      (indexFrom snappy (blockFile snappy passed).length rest)) :
    s.getLoop snappy key fuel it =
      some ((SortedMap.findGroup (rest.map Prod.fst) key).bind fun es => es.lookup key) := by
  induction rest generalizing passed fuel it with
  | nil =>
      obtain ⟨fuel, rfl⟩ := Nat.exists_eq_succ_of_ne_zero (by omega : fuel ≠ 0)
      have hindex : s.indexBlock.Encodes (indexFrom snappy 0 passed ++ []) := by
        simpa [hgroups] using h.index
      have hend : ¬ it.valid s.indexBlock = true := by
        rw [hit.valid hindex]
        simp
      simp [SSTable.getLoop, hend, SortedMap.findGroup]
  | cons g rest ih =>
      obtain ⟨fuel, rfl⟩ := Nat.exists_eq_succ_of_ne_zero (by omega : fuel ≠ 0)
      have hg : g ∈ groups := by simp [hgroups]
      have hindex : s.indexBlock.Encodes (indexFrom snappy 0 passed ++
          indexFrom snappy (blockFile snappy passed).length (g :: rest)) := by
        have hsplit := indexFrom_append snappy 0 passed (g :: rest)
        rw [Nat.zero_add] at hsplit
        rw [← hsplit, ← hgroups]
        exact h.index
      have hmore : it.valid s.indexBlock = true := by
        rw [hit.valid hindex]
        simp [indexFrom]
      have hkey : it.key = g.lastKey := hit.key _ rfl
      have hvalue : it.value = TableBuilder.handle ((blockFile snappy passed).length % 2 ^ 64)
          (TableBuilder.compressed snappy g.content).length := hit.value _ rfl
      obtain ⟨_, _, _, hlast⟩ := Group.lastKey_mem g (h.nonempty g hg)
      rw [SSTable.getLoop, if_pos hmore, hkey]
      by_cases hle : key ≤ g.lastKey
      · obtain ⟨b, hoffset, hsize, hload, hencodes⟩ := h.loads hgroups
        rw [handle_mod] at hvalue
        simp [hle, hvalue, hoffset, hsize, hload, hencodes.get key, SortedMap.findGroup, hlast]
      · obtain ⟨it', hnext, hit'⟩ := hit.next hindex
        have hpassed : it'.Before (indexFrom snappy 0 (passed ++ [g]))
            (indexFrom snappy (blockFile snappy (passed ++ [g])).length rest) := by
          rw [indexFrom_append]
          simpa [indexFrom, blockFile] using hit'
        have hfuel' : rest.length < fuel := by
          simp only [List.length_cons] at hfuel
          omega
        have hrest := ih (passed ++ [g]) (by simp [hgroups]) hfuel' hpassed
        simp only [SortedMap.findGroup] at hrest ⊢
        simp [hle, hnext, hrest, hlast]

/-- `get` on an open table is the search in the entries behind it. -/
theorem Opened.get {s : SSTable} (h : s.Opened snappy groups)
    (hsorted : SortedMap.Sorted (entriesOf groups)) (key : Bytes) :
    s.get snappy key = some ((entriesOf groups).lookup key) := by
  have hlookup : (entriesOf groups).lookup key =
      (SortedMap.findGroup (groups.map Prod.fst) key).bind fun es => es.lookup key := by
    apply SortedMap.lookup_flatten hsorted
    intro es hes
    obtain ⟨g, hg, rfl⟩ := List.mem_map.mp hes
    exact h.nonempty g hg
  obtain ⟨it, hseek, hit⟩ := BlockIter.seekToFirst_before s.indexIter h.index
  have hfuel : groups.length < s.indexBlock.restartOffset + 1 := by
    have hlen := h.index.length_lt
    rwa [TableBuilder.indexFrom_length] at hlen
  have hloop := h.getLoop [] rfl key hfuel hit
  rw [hlookup]
  simp [SSTable.get, hseek, hloop]

/-- What the format needs of a memtable: nothing that is stored in eight bytes
exceeds them. -/
structure Fits (snappy : Snappy) (m : Memtable) : Prop where
  space : m.encodedSpace < 2 ^ 64
  file : ∀ file, TableBuilder.createSstable snappy m = some file → file.length < 2 ^ 64

instance : Decidable (Fits snappy m) :=
  decidable_of_iff (m.encodedSpace < 2 ^ 64 ∧
    ∀ file ∈ TableBuilder.createSstable snappy m, file.length < 2 ^ 64)
    ⟨fun h => ⟨h.1, h.2⟩, fun h => ⟨h.space, h.file⟩⟩

/-- Every memtable that fits is written, and its file can be opened. -/
theorem createSstable_opened (hfits : Fits snappy m) :
    ∃ file s groups, TableBuilder.createSstable snappy m = some file ∧
      ofFile snappy file = some s ∧ s.Opened snappy groups ∧ entriesOf groups = m.entries := by
  obtain ⟨groups, indexPoints, hcreate, hblocks⟩ := TableBuilder.createSstable_blocks snappy m
  obtain ⟨s, hopen, hopened⟩ := ofFile_opened hblocks hfits.space (hfits.file _ hcreate)
  exact ⟨_, s, groups, hcreate, hopen, hopened, hblocks.entries⟩

theorem Opened.get_memtable {s : SSTable} (h : s.Opened snappy groups)
    (hentries : entriesOf groups = m.entries) (key : Bytes) :
    s.get snappy key = some (m.get key) := by
  have hsorted : SortedMap.Sorted (entriesOf groups) := by
    rw [hentries]
    exact m.sorted
  rw [h.get hsorted key, hentries]
  rfl

/-- The round trip: a table opened on the file written for a memtable answers
every key as the memtable does, wherever the blocks were cut. -/
theorem get_createSstable (hfits : Fits snappy m) :
    ∃ file s, TableBuilder.createSstable snappy m = some file ∧ ofFile snappy file = some s ∧
      ∀ key, s.get snappy key = some (m.get key) := by
  obtain ⟨file, s, groups, hcreate, hopen, hopened, hentries⟩ := createSstable_opened hfits
  exact ⟨file, s, hcreate, hopen, hopened.get_memtable hentries⟩

/-- Two entries, one of them with an empty value. -/
def twoEntries : Memtable := (SortedMap.empty.put [98] []).put [97] [49, 50]

theorem get_createSstable_twoEntries :
    ∃ file s, TableBuilder.createSstable .literal twoEntries = some file ∧
      ofFile .literal file = some s ∧
      s.get .literal [97] = some (some [49, 50]) ∧ s.get .literal [98] = some (some []) ∧
      s.get .literal [99] = some none := by
  have hfits : Fits .literal twoEntries := by decide +kernel
  obtain ⟨file, s, hcreate, hopen, hget⟩ := get_createSstable hfits
  exact ⟨file, s, hcreate, hopen, hget [97], hget [98], hget [99]⟩

end SSTable

end RucDDBS
