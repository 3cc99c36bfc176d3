import RucDDBS.Storage.KVStoreView

/-!
Restarts of a `DiskStorage`. The numbers of the tables are in `level_0/index`
and the next number is in `meta`. A store that is closed between two calls finds
the two files in agreement and comes back as it was. `add` writes three files,
and a process that stops between the index and `meta` leaves a number that is
listed and still counts as free; the next table then takes the place of an older
one.
-/

namespace RucDDBS

namespace DiskStorage

variable {snappy : Snappy} {d d' : DiskStorage} {m : Memtable}

/-- `create_sstable` never fails, whatever the size of the memtable. -/
theorem exists_add (snappy : Snappy) (d : DiskStorage) (m : Memtable) :
    ∃ d', d.add snappy m = some d' := by
  obtain ⟨groups, indexPoints, hcreate, _⟩ := TableBuilder.createSstable_blocks snappy m
  exact ⟨_, add_eq hcreate⟩

/-- All that `add` does to a store. -/
theorem add_cases (hadd : d.add snappy m = some d') :
    ∃ file, TableBuilder.createSstable snappy m = some file ∧
      d' =
        { ssts := d.ssts ++ [d.no]
          size := d.size + 1
          numEntries := d.numEntries + m.size
          no := d.no + 1
          files :=
            { sst := Function.update d.files.sst d.no (some file)
              index := some (d.size + 1, d.numEntries + m.size, d.ssts ++ [d.no])
              metaNo := some (d.no + 1) } } := by
  obtain ⟨groups, indexPoints, hcreate, _⟩ := TableBuilder.createSstable_blocks snappy m
  rw [add_eq hcreate, Option.some.injEq] at hadd
  exact ⟨_, hcreate, hadd.symm⟩

section CleanRestart

theorem consistent_empty : (ofDirectory .empty).Consistent where
  used := by simp [ofDirectory, Directory.empty, saveIndex, saveMeta]
  size := rfl
  index := rfl
  metaNo := rfl

theorem Consistent.add (h : d.Consistent) (hadd : d.add snappy m = some d') :
    d'.Consistent := by
  obtain ⟨file, _, rfl⟩ := add_cases hadd
  constructor
  · intro no hno
    rcases List.mem_append.mp hno with hold | hnew
    · exact Nat.lt_succ_of_lt (h.used no hold)
    · rw [List.mem_singleton.mp hnew]
      exact Nat.lt_succ_self d.no
  · simp [h.size]
  · rfl
  · rfl

theorem Consistent.no_not_mem (h : d.Consistent) : d.no ∉ d.ssts := by
  intro hmem
  exact Nat.lt_irrefl _ (h.used _ hmem)

inductive Action where
  | add (memtable : Memtable)
  | reopen

def apply (snappy : Snappy) (d : DiskStorage) : Action → Option DiskStorage
  | .add memtable => d.add snappy memtable
  | .reopen => some (ofDirectory d.files)

/-- The object after these calls on a new directory. -/
def after (snappy : Snappy) (actions : List Action) : Option DiskStorage :=
  actions.foldlM (apply snappy) (ofDirectory .empty)

theorem Consistent.apply (h : d.Consistent) (snappy : Snappy) (action : Action) :
    ∃ d', d.apply snappy action = some d' ∧ d'.Consistent := by
  cases action with
  | add m =>
      obtain ⟨d', hadd⟩ := exists_add snappy d m
      exact ⟨d', hadd, h.add hadd⟩
  | reopen =>
      refine ⟨DiskStorage.ofDirectory d.files, rfl, ?_⟩
      rw [h.ofDirectory]
      exact h

theorem Consistent.foldlM (h : d.Consistent) (snappy : Snappy) (actions : List Action) :
    ∃ d', actions.foldlM (DiskStorage.apply snappy) d = some d' ∧ d'.Consistent := by
  induction actions generalizing d with
  | nil => exact ⟨d, rfl, h⟩
  | cons action rest ih =>
      obtain ⟨next, happly, hnext⟩ := h.apply snappy action
      obtain ⟨d', hrest, hd'⟩ := ih hnext
      exact ⟨d', by simp [List.foldlM_cons, happly, hrest], hd'⟩

/-- However many tables were added and however often the directory was closed
and opened in between: the calls succeed, opening the directory once more gives
the same members and the same answers, and the next `add` writes a file that the
list does not have. -/
theorem reopen_reproduces (snappy : Snappy) (actions : List Action) :
    ∃ d, after snappy actions = some d ∧
      (ofDirectory d.files).ssts = d.ssts ∧
      (ofDirectory d.files).size = d.size ∧
      (ofDirectory d.files).numEntries = d.numEntries ∧
      (ofDirectory d.files).no = d.no ∧
      (∀ key, (ofDirectory d.files).search snappy key = d.search snappy key) ∧
      (∀ no ∈ d.ssts, no < d.no) ∧
      ∀ m, ∃ d', d.add snappy m = some d' ∧ d.no ∉ d.ssts ∧
        d'.ssts = d.ssts ++ [d.no] ∧ ∀ no ∈ d.ssts, d'.files.sst no = d.files.sst no := by
  obtain ⟨d, hafter, h⟩ := consistent_empty.foldlM snappy actions
  refine ⟨d, hafter, ?_⟩
  rw [h.ofDirectory]
  refine ⟨rfl, rfl, rfl, rfl, fun _ => rfl, h.used, ?_⟩
  intro m
  obtain ⟨d', hadd⟩ := exists_add snappy d m
  refine ⟨d', hadd, h.no_not_mem, ?_⟩
  obtain ⟨file, _, rfl⟩ := add_cases hadd
  refine ⟨rfl, ?_⟩
  intro no hno
  have hne : no ≠ d.no := by
    rintro rfl
    exact h.no_not_mem hno
  exact Function.update_of_ne hne _ _

end CleanRestart

end DiskStorage

/-- How far an `add` has come. -/
inductive FlushPhase where
  | idle
  | wroteSst (memtable : Memtable)
  | wroteIndex

/-- A store with the `add` it is in. -/
structure FlushState where
  disk : DiskStorage
  phase : FlushPhase

namespace DiskStorage

variable (snappy : Snappy)

/-- The first write of `add`: the number is in the list in memory, and
`create_sstable` writes the file. -/
def writeSst (d : DiskStorage) (memtable : Memtable) : Option DiskStorage := do
  let file ← TableBuilder.createSstable snappy memtable
  pure
    { d with
      ssts := d.ssts ++ [d.no]
      files := { d.files with sst := Function.update d.files.sst d.no (some file) } }

/-- The second write: the members are counted up and `level_0/index` is saved. -/
def writeIndex (d : DiskStorage) (memtable : Memtable) : DiskStorage :=
  saveIndex { d with size := d.size + 1, numEntries := d.numEntries + memtable.size }

/-- The third write: the number moves on and `meta` is saved. -/
def writeMeta (d : DiskStorage) : DiskStorage := saveMeta { d with no := d.no + 1 }

/-- Without a stop the three writes are `add`. -/
theorem add_eq_writes (d : DiskStorage) (m : Memtable) :
    d.add snappy m =
      (d.writeSst snappy m).map fun written => (written.writeIndex m).writeMeta := by
  obtain ⟨groups, indexPoints, hcreate, _⟩ := TableBuilder.createSstable_blocks snappy m
  rw [add_eq hcreate]
  simp [writeSst, hcreate, writeIndex, writeMeta, saveIndex, saveMeta]

end DiskStorage

namespace FlushState

inductive Action where
  | writeSst (memtable : Memtable)
  | writeIndex
  | writeMeta
  | stop

/-- The writes in their order. A stop loses the object and opens the directory
again. The event of a write to the index is the memtable that is listed then. -/
def step (snappy : Snappy) (f : FlushState) : Action → Option (FlushState × Option Memtable)
  | .writeSst memtable =>
      match f.phase with
      | .idle => do
          let disk ← f.disk.writeSst snappy memtable
          pure (⟨disk, .wroteSst memtable⟩, none)
      | _ => none
  | .writeIndex =>
      match f.phase with
      | .wroteSst memtable => some (⟨f.disk.writeIndex memtable, .wroteIndex⟩, some memtable)
      | _ => none
  | .writeMeta =>
      match f.phase with
      | .wroteIndex => some (⟨f.disk.writeMeta, .idle⟩, none)
      | _ => none
  | .stop => some (⟨.ofDirectory f.disk.files, .idle⟩, none)

def init : FlushState := ⟨.ofDirectory .empty, .idle⟩

/-- The memtables whose `add` has written the index, oldest first. -/
def indexed (trace : List (Action × Option Memtable)) : List Memtable :=
  trace.filterMap Prod.snd

/-- The table that an action writes. -/
def Action.table : Action → Option Memtable
  | .writeSst memtable => some memtable
  | .writeIndex | .writeMeta | .stop => none

def Action.Fits (snappy : Snappy) (action : Action) : Prop :=
  ∀ m ∈ action.table, SSTable.Fits snappy m

/-- A table that fits is written under a number that the list does not have. -/
def Fresh (snappy : Snappy) (f : FlushState) (action : Action) : Prop :=
  ∀ m ∈ action.table, SSTable.Fits snappy m ∧ f.disk.no ∉ f.disk.ssts

instance (snappy : Snappy) (action : Action) : Decidable (action.Fits snappy) :=
  inferInstanceAs (Decidable (∀ m ∈ action.table, SSTable.Fits snappy m))

instance (snappy : Snappy) (f : FlushState) (action : Action) : Decidable (f.Fresh snappy action) :=
  inferInstanceAs
    (Decidable (∀ m ∈ action.table, SSTable.Fits snappy m ∧ f.disk.no ∉ f.disk.ssts))

/-- The steps of a store whose tables fit the file format. -/
def Step (snappy : Snappy) (f : FlushState) (label : Action × Option Memtable)
    (f' : FlushState) : Prop :=
  label.1.Fits snappy ∧ Lts.Steps (step snappy) f label f'

def FreshStep (snappy : Snappy) (f : FlushState) (label : Action × Option Memtable)
    (f' : FlushState) : Prop :=
  f.Fresh snappy label.1 ∧ Lts.Steps (step snappy) f label f'

variable {snappy : Snappy} {f f' : FlushState} {tables : List Memtable}
  {label : Action × Option Memtable} {trace : List (Action × Option Memtable)}

theorem step_cases (hstep : Lts.Steps (step snappy) f label f') :
    (∃ m disk, label = (.writeSst m, none) ∧ f.phase = .idle ∧
      f.disk.writeSst snappy m = some disk ∧ f' = ⟨disk, .wroteSst m⟩) ∨
    (∃ m, label = (.writeIndex, some m) ∧ f.phase = .wroteSst m ∧
      f' = ⟨f.disk.writeIndex m, .wroteIndex⟩) ∨
    (label = (.writeMeta, none) ∧ f.phase = .wroteIndex ∧
      f' = ⟨f.disk.writeMeta, .idle⟩) ∨
    (label = (.stop, none) ∧ f' = ⟨.ofDirectory f.disk.files, .idle⟩) := by
  obtain ⟨action, event⟩ := label
  cases action with
  | writeSst m =>
      left
      simp only [Lts.Steps, step] at hstep
      split at hstep
      case h_1 hphase =>
        simp only [Option.bind_eq_bind, Option.pure_def, Option.bind_eq_some_iff,
          Option.some.injEq, Prod.mk.injEq] at hstep
        obtain ⟨disk, hwrite, rfl, rfl⟩ := hstep
        exact ⟨m, disk, rfl, hphase, hwrite, rfl⟩
      case h_2 => cases hstep
  | writeIndex =>
      right
      left
      simp only [Lts.Steps, step] at hstep
      split at hstep
      case h_1 m hphase =>
        simp only [Option.some.injEq, Prod.mk.injEq] at hstep
        obtain ⟨rfl, rfl⟩ := hstep
        exact ⟨m, rfl, hphase, rfl⟩
      case h_2 => cases hstep
  | writeMeta =>
      right
      right
      left
      simp only [Lts.Steps, step] at hstep
      split at hstep
      case h_1 hphase =>
        simp only [Option.some.injEq, Prod.mk.injEq] at hstep
        obtain ⟨rfl, rfl⟩ := hstep
        exact ⟨rfl, hphase, rfl⟩
      case h_2 => cases hstep
  | stop =>
      right
      right
      right
      simp only [Lts.Steps, step, Option.some.injEq, Prod.mk.injEq] at hstep
      obtain ⟨rfl, rfl⟩ := hstep
      exact ⟨rfl, rfl⟩

/-- The list in memory: the one in the index, and behind it the table that is
being added once its file is there. -/
def Lists (snappy : Snappy) (f : FlushState) (nos : List Nat) : Prop :=
  match f.phase with
  | .idle | .wroteIndex => f.disk.ssts = nos
  | .wroteSst m => f.disk.ssts = nos ++ [f.disk.no] ∧
      DiskStorage.Answers snappy f.disk.files f.disk.no m

/-- The index lists the files of `tables`. The counters in memory are those in
the two files in every phase, so a stop does not change them. -/
structure Keeps (snappy : Snappy) (tables : List Memtable) (f : FlushState) (nos : List Nat) :
    Prop where
  tables : List.Forall₂ (DiskStorage.Answers snappy f.disk.files) nos tables
  index : f.disk.files.index = some (f.disk.size, f.disk.numEntries, nos)
  size : f.disk.size = nos.length
  metaNo : f.disk.files.metaNo = some f.disk.no
  lists : f.Lists snappy nos

theorem keeps_init (snappy : Snappy) : init.Keeps snappy [] [] where
  tables := .nil
  index := rfl
  size := rfl
  metaNo := rfl
  lists := rfl

theorem Keeps.stop {nos : List Nat} (h : f.Keeps snappy tables nos) :
    Keeps snappy tables ⟨.ofDirectory f.disk.files, .idle⟩ nos := by
  have hall : nos.take f.disk.size = nos := by
    rw [h.size, List.take_length]
  have hopen : DiskStorage.ofDirectory f.disk.files = { f.disk with ssts := nos } := by
    simp only [DiskStorage.ofDirectory, h.index, h.metaNo, hall]
  rw [hopen]
  exact ⟨h.tables, h.index, h.size, h.metaNo, rfl⟩

/-- The listed files stay as they are when the new one is not listed. -/
theorem Keeps.writeSst {nos : List Nat} {m : Memtable} {disk : DiskStorage}
    (h : f.Keeps snappy tables nos) (hidle : f.phase = .idle) (hfits : SSTable.Fits snappy m)
    (hfresh : f.disk.no ∉ f.disk.ssts) (hwrite : f.disk.writeSst snappy m = some disk) :
    Keeps snappy tables ⟨disk, .wroteSst m⟩ nos := by
  have hssts : f.disk.ssts = nos := by
    have hlists := h.lists
    rwa [Lists, hidle] at hlists
  rw [hssts] at hfresh
  obtain ⟨file, hcreate, hanswers⟩ := DiskStorage.answers_createSstable hfits
  simp only [DiskStorage.writeSst, hcreate, Option.bind_eq_bind, Option.bind_some,
    Option.pure_def, Option.some.injEq] at hwrite
  subst hwrite
  constructor
  · have hboth : List.Forall₂ (fun no m => no ∈ nos ∧
        DiskStorage.Answers snappy f.disk.files no m) nos tables :=
      (List.forall₂_and_left _ _).mpr ⟨fun _ hno => hno, h.tables⟩
    apply hboth.imp
    rintro no m' ⟨hno, hm'⟩
    have hne : no ≠ f.disk.no := by
      rintro rfl
      exact hfresh hno
    exact DiskStorage.Answers.update hm' rfl hne
  · exact h.index
  · exact h.size
  · exact h.metaNo
  · exact ⟨by simp [hssts], hanswers _ _ (by simp)⟩

theorem Keeps.writeIndex {nos : List Nat} {m : Memtable} (h : f.Keeps snappy tables nos)
    (hphase : f.phase = .wroteSst m) :
    Keeps snappy (tables ++ [m]) ⟨f.disk.writeIndex m, .wroteIndex⟩ (nos ++ [f.disk.no]) := by
  obtain ⟨hssts, hanswers⟩ : f.disk.ssts = nos ++ [f.disk.no] ∧
      DiskStorage.Answers snappy f.disk.files f.disk.no m := by
    have hlists := h.lists
    rwa [Lists, hphase] at hlists
  constructor
  · exact List.rel_append h.tables (.cons hanswers .nil)
  · simp [DiskStorage.writeIndex, DiskStorage.saveIndex, hssts]
  · simp [DiskStorage.writeIndex, DiskStorage.saveIndex, h.size]
  · exact h.metaNo
  · exact hssts

theorem Keeps.writeMeta {nos : List Nat} (h : f.Keeps snappy tables nos)
    (hphase : f.phase = .wroteIndex) :
    Keeps snappy tables ⟨f.disk.writeMeta, .idle⟩ nos := by
  have hssts : f.disk.ssts = nos := by
    have hlists := h.lists
    rwa [Lists, hphase] at hlists
  exact ⟨h.tables, h.index, h.size, rfl, hssts⟩

theorem Keeps.step {nos : List Nat} (h : f.Keeps snappy tables nos)
    (hstep : FreshStep snappy f label f') :
    ∃ nos', f'.Keeps snappy (tables ++ label.2.toList) nos' := by
  obtain ⟨hfresh, hstep⟩ := hstep
  rcases step_cases hstep with ⟨m, disk, rfl, hidle, hwrite, rfl⟩ | ⟨m, rfl, hphase, rfl⟩ |
    ⟨rfl, hphase, rfl⟩ | ⟨rfl, rfl⟩
  · refine ⟨nos, ?_⟩
    rw [Option.toList_none, List.append_nil]
    obtain ⟨hfits, hnew⟩ := hfresh m rfl
    exact h.writeSst hidle hfits hnew hwrite
  · exact ⟨nos ++ [f.disk.no], h.writeIndex hphase⟩
  · refine ⟨nos, ?_⟩
    rw [Option.toList_none, List.append_nil]
    exact h.writeMeta hphase
  · refine ⟨nos, ?_⟩
    rw [Option.toList_none, List.append_nil]
    exact h.stop

theorem keeps_indexed (hrun : Lts.Run (FreshStep snappy) init trace f) :
    ∃ nos, f.Keeps snappy (indexed trace) nos := by
  refine hrun.preserves_past (fun past f => ∃ nos, f.Keeps snappy (indexed past) nos) ?_
    ⟨[], keeps_init snappy⟩
  rintro past f label f' hstep ⟨nos, h⟩
  have hindexed : indexed (past ++ [label]) = indexed past ++ label.2.toList := by
    cases hlabel : label.2 with
    | none => simp [indexed, hlabel]
    | some m => simp [indexed, hlabel]
  rw [hindexed]
  exact h.step hstep

/-- Every listed table is searched first, also while another one is added. -/
theorem Keeps.search {nos : List Nat} {key value : Bytes} (h : f.Keeps snappy tables nos)
    (hfound : tables.findSome? (fun m => m.get key) = some value) :
    f.disk.search snappy key = some (some value) := by
  have hlists := h.lists
  unfold Lists at hlists
  split at hlists
  case h_1 | h_2 =>
    rw [DiskStorage.search, hlists, DiskStorage.searchFrom_of_answers h.tables, hfound]
  case h_3 m _ =>
    obtain ⟨hssts, hanswers⟩ := hlists
    have htables := List.rel_append h.tables (.cons hanswers .nil)
    rw [DiskStorage.search, hssts, DiskStorage.searchFrom_of_answers htables,
      List.findSome?_append, hfound, Option.some_or]

/-- The process may stop between any two writes. As long as no table is written
under a listed number, every key of every memtable that came into the index is
found, with the value that the oldest of them has for it. -/
theorem indexed_found (hrun : Lts.Run (FreshStep snappy) init trace f) {m : Memtable}
    (hm : m ∈ indexed trace) {key value : Bytes} (hget : m.get key = some value) :
    ∃ found, (indexed trace).findSome? (fun m => m.get key) = some found ∧
      f.disk.search snappy key = some (some found) := by
  obtain ⟨nos, h⟩ := keeps_indexed hrun
  have hsome : ((indexed trace).findSome? fun m => m.get key).isSome = true := by
    rw [List.findSome?_isSome_iff]
    exact ⟨m, hm, by rw [hget]; rfl⟩
  obtain ⟨found, hfound⟩ := Option.isSome_iff_exists.mp hsome
  exact ⟨found, hfound, h.search hfound⟩

def firstTable : Memtable := SortedMap.empty.put [107] [49]

def secondTable : Memtable := SortedMap.empty.put [108] [50]

/-- Two tables are added; the first attempt for the second one stops before the
index is written, and one more stop comes after `meta`. -/
def stopsOutside : List (Action × Option Memtable) :=
  [(.writeSst firstTable, none), (.writeIndex, some firstTable), (.writeMeta, none),
    (.writeSst secondTable, none), (.stop, none), (.writeSst secondTable, none),
    (.writeIndex, some secondTable), (.writeMeta, none), (.stop, none)]

theorem stopsOutside_found : ∃ f,
    Lts.Run (FreshStep .literal) init stopsOutside f ∧
      f.disk.search .literal [107] = some (some [49]) := by
  obtain ⟨f, hrun⟩ : ∃ f, Lts.Run (FreshStep .literal) init stopsOutside f :=
    Lts.run_of_exec_when stopsOutside (by decide +kernel)
  refine ⟨f, hrun, ?_⟩
  have hlisted : firstTable ∈ indexed stopsOutside := by
    simp [stopsOutside, indexed]
  have hget : firstTable.get [107] = some [49] := by decide
  obtain ⟨found, hfirst, hsearch⟩ := indexed_found hrun hlisted hget
  have hfound : (indexed stopsOutside).findSome? (fun m => m.get [107]) = some [49] := by decide
  rw [hsearch, ← hfirst, hfound]

/-- The first process stops between the index and `meta`. -/
def stopsBeforeMeta : List (Action × Option Memtable) :=
  [(.writeSst firstTable, none), (.writeIndex, some firstTable), (.stop, none),
    (.writeSst secondTable, none), (.writeIndex, some secondTable), (.writeMeta, none)]

/-- The second table has taken the file of the first one. -/
theorem stopsBeforeMeta_loses : ∃ f,
    Lts.Run (Step .literal) init stopsBeforeMeta f ∧ firstTable ∈ indexed stopsBeforeMeta ∧
      firstTable.get [107] = some [49] ∧ f.disk.search .literal [107] = some none := by
  obtain ⟨f, hrun, hsearch⟩ : ∃ f, Lts.Run (Step .literal) init stopsBeforeMeta f ∧
      f.disk.search .literal [107] = some none :=
    Lts.run_of_exec_view (fun f : FlushState => f.disk.search .literal [107]) stopsBeforeMeta
      (by decide +kernel)
  exact ⟨f, hrun, by simp [stopsBeforeMeta, indexed], by decide, hsearch⟩

end FlushState

end RucDDBS
