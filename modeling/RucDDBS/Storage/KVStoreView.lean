import RucDDBS.Storage.KVStore
import RucDDBS.Storage.SSTableFormat
import Mathlib.Data.List.Forall2

/-!
What a store holds, without files: the memtable and the memtables that were
written out, oldest first. The module shows that the store over a directory
does exactly what this view does, as long as the tables it writes fit the file
format. Everything later is proved about the view.
-/

namespace RucDDBS

namespace KVStore

/-- The memtable that an operation writes out as a table, if it writes one. -/
def written (memtable : Memtable) : Action → Option Memtable
  | .put key value =>
      let memtable := memtable.put key value
      if StorageOption.sstableSpace < Memtable.space memtable then some memtable else none
  | .del _ => none
  | .flush | .reopen => if memtable.isEmpty = true then none else some memtable

/-- The operations of a store whose tables fit the file format: no key, value
or file is longer than eight bytes can say. -/
def Step (snappy : Snappy) (kv : KVStore) (label : Action × Bool) (kv' : KVStore) : Prop :=
  Lts.Steps (step snappy) kv label kv' ∧
    ∀ m ∈ written kv.memtable label.1, SSTable.Fits snappy m

end KVStore

structure StoreView where
  memtable : Memtable
  tables : List Memtable

namespace StoreView

def init : StoreView := ⟨.empty, []⟩

/-- The oldest table that has the key answers. -/
def onDisk (v : StoreView) (key : Bytes) : Option Bytes :=
  v.tables.findSome? fun m => m.get key

def get (v : StoreView) (key : Bytes) : Option Bytes :=
  KVStore.visible ((v.memtable.get key).or (v.onDisk key))

/-- Write `m` out as the newest table, with `memtable` in memory afterwards. -/
def write (v : StoreView) (m memtable : Memtable) : StoreView :=
  ⟨memtable, v.tables ++ [m]⟩

def put (v : StoreView) (key value : Bytes) : StoreView :=
  let memtable := v.memtable.put key value
  if StorageOption.sstableSpace < Memtable.space memtable then v.write memtable .empty
  else { v with memtable := memtable }

def del (v : StoreView) (key : Bytes) : StoreView :=
  if v.memtable.contains key = true then { v with memtable := v.memtable.del key }
  else if (KVStore.visible (v.onDisk key)).isSome = true then
    { v with memtable := v.memtable.put key [] }
  else v

def flush (v : StoreView) : StoreView :=
  if v.memtable.isEmpty = true then v else v.write v.memtable v.memtable

def reopen (v : StoreView) : StoreView := { v.flush with memtable := .empty }

def step (v : StoreView) : KVStore.Action → StoreView
  | .put key value => v.put key value
  | .del key => v.del key
  | .flush => v.flush
  | .reopen => v.reopen

/-- The view after a list of operations on a fresh store. -/
def after (actions : List KVStore.Action) : StoreView := actions.foldl step init

theorem after_append (actions : List KVStore.Action) (action : KVStore.Action) :
    after (actions ++ [action]) = (after actions).step action := by
  simp [after]

/-- `Ok` holds of every operation of the list where it is taken. -/
def Along (Ok : StoreView → KVStore.Action → Prop) : StoreView → List KVStore.Action → Prop
  | _, [] => True
  | v, action :: rest => Ok v action ∧ Along Ok (v.step action) rest

instance Along.decidable {Ok : StoreView → KVStore.Action → Prop}
    [∀ v action, Decidable (Ok v action)] (v : StoreView) (actions : List KVStore.Action) :
    Decidable (v.Along Ok actions) :=
  match actions with
  | [] => .isTrue trivial
  | action :: rest =>
      have : Decidable ((v.step action).Along Ok rest) := Along.decidable (v.step action) rest
      inferInstanceAs (Decidable (Ok v action ∧ (v.step action).Along Ok rest))

@[simp] theorem onDisk_write (v : StoreView) (m memtable : Memtable) (key : Bytes) :
    (v.write m memtable).onDisk key = (v.onDisk key).or (m.get key) := by
  simp [write, onDisk, List.findSome?_append]

@[simp] theorem onDisk_memtable (v : StoreView) (memtable : Memtable) (key : Bytes) :
    { v with memtable := memtable }.onDisk key = v.onDisk key := rfl

@[simp] theorem onDisk_del (v : StoreView) (key : Bytes) : (v.del key).onDisk = v.onDisk := by
  unfold del
  split
  · rfl
  · split
    · rfl
    · rfl

theorem memtable_del_of_ne (v : StoreView) {key key' : Bytes} (hne : key' ≠ key) :
    (v.del key).memtable.get key' = v.memtable.get key' := by
  unfold del
  split
  · simp [SortedMap.get_del, hne]
  · split
    · simp [SortedMap.get_put, hne]
    · rfl

/-- `del` leaves a tombstone only where disk has the key and memory has not. -/
theorem memtable_del_self (v : StoreView) (key : Bytes) :
    (v.del key).memtable.get key =
      if v.memtable.get key = none then (KVStore.visible (v.onDisk key)).map (fun _ => [])
      else none := by
  unfold del
  cases hmem : v.memtable.get key with
  | some value => simp [SortedMap.contains, hmem]
  | none =>
      cases hdisk : KVStore.visible (v.onDisk key) with
      | some old => simp [SortedMap.contains, hmem]
      | none => simp [SortedMap.contains, hmem]

end StoreView

namespace DiskStorage

variable {snappy : Snappy} {d : DiskStorage} {tables : List Memtable} {m : Memtable}

/-- The file with this number answers like `m`, and the number is used up. -/
structure Stores (snappy : Snappy) (d : DiskStorage) (no : Nat) (m : Memtable) : Prop where
  used : no < d.no
  answers : ∀ key, searchTable snappy d.files key no = some (m.get key)

/-- The directory holds the tables, and the two lists in it agree with the
members. -/
structure Represents (snappy : Snappy) (d : DiskStorage) (tables : List Memtable) : Prop where
  tables : List.Forall₂ (d.Stores snappy) d.ssts tables
  size : d.size = d.ssts.length
  index : d.files.index = some (d.size, d.numEntries, d.ssts)
  metaNo : d.files.metaNo = some d.no

theorem represents_empty (snappy : Snappy) :
    (ofDirectory .empty).Represents snappy [] where
  tables := .nil
  size := rfl
  index := rfl
  metaNo := rfl

/-- The file with this number answers like `m`. -/
def Answers (snappy : Snappy) (files : Directory) (no : Nat) (m : Memtable) : Prop :=
  ∀ key, searchTable snappy files key no = some (m.get key)

theorem searchFrom_of_answers {files : Directory} {key : Bytes} {nos : List Nat}
    {ms : List Memtable} (h : List.Forall₂ (Answers snappy files) nos ms) :
    searchFrom snappy files key nos = some (ms.findSome? fun m => m.get key) := by
  induction h with
  | nil => rfl
  | @cons no m nos ms hfirst _ ih =>
      have htable := hfirst key
      cases hget : m.get key with
      | some value =>
          rw [hget] at htable
          simp [searchFrom, htable, hget]
      | none =>
          rw [hget] at htable
          simp [searchFrom, htable, hget, ih]

theorem Represents.search (h : d.Represents snappy tables) (key : Bytes) :
    d.search snappy key = some (tables.findSome? fun m => m.get key) :=
  searchFrom_of_answers (h.tables.imp fun _ _ hstores => hstores.answers)

/-- A write under another number is not seen. -/
theorem Answers.update {files files' : Directory} {no no' : Nat} {file : Option Bytes}
    (h : Answers snappy files no m) (hsst : files'.sst = Function.update files.sst no' file)
    (hne : no ≠ no') : Answers snappy files' no m := by
  intro key
  rw [← h key, searchTable, searchTable, hsst, Function.update_of_ne hne]

/-- The file written for a table that fits answers like the table. -/
theorem answers_createSstable (hfits : SSTable.Fits snappy m) :
    ∃ file, TableBuilder.createSstable snappy m = some file ∧
      ∀ files no, files.sst no = some file → Answers snappy files no m := by
  obtain ⟨file, s, groups, hcreate, hopen, hopened, hentries⟩ :=
    SSTable.createSstable_opened hfits
  refine ⟨file, hcreate, ?_⟩
  intro files no hsst key
  simp [searchTable, hsst, hopen, hopened.get_memtable hentries key]

theorem add_eq {file : Bytes} (hcreate : TableBuilder.createSstable snappy m = some file) :
    d.add snappy m = some
      { ssts := d.ssts ++ [d.no]
        size := d.size + 1
        numEntries := d.numEntries + m.size
        no := d.no + 1
        files :=
          { sst := Function.update d.files.sst d.no (some file)
            index := some (d.size + 1, d.numEntries + m.size, d.ssts ++ [d.no])
            metaNo := some (d.no + 1) } } := by
  simp [add, hcreate, saveIndex, saveMeta]

/-- Writing a table that fits appends it. Its number is new, so no other file
is touched. -/
theorem Represents.add (h : d.Represents snappy tables) (hfits : SSTable.Fits snappy m) :
    ∃ d', d.add snappy m = some d' ∧ d'.Represents snappy (tables ++ [m]) := by
  obtain ⟨file, hcreate, hanswers⟩ := answers_createSstable hfits
  refine ⟨_, add_eq hcreate, ?_⟩
  constructor
  · apply List.rel_append
    · apply h.tables.imp
      intro no m' hstores
      have hused := hstores.used
      constructor
      · simp only
        omega
      · exact Answers.update hstores.answers rfl (by omega)
    · refine .cons ⟨by simp, ?_⟩ .nil
      exact hanswers _ _ (by simp)
  · simp [h.size]
  · rfl
  · rfl

/-- The two lists in the directory agree with the members, and every number in
use is below the next one. -/
structure Consistent (d : DiskStorage) : Prop where
  used : ∀ no ∈ d.ssts, no < d.no
  size : d.size = d.ssts.length
  index : d.files.index = some (d.size, d.numEntries, d.ssts)
  metaNo : d.files.metaNo = some d.no

/-- Closing and opening again reads back the same members. -/
theorem Consistent.ofDirectory (h : d.Consistent) : DiskStorage.ofDirectory d.files = d := by
  have hall : d.ssts.take d.size = d.ssts := by
    rw [h.size, List.take_length]
  simp only [DiskStorage.ofDirectory, h.index, h.metaNo, hall]

theorem Represents.consistent (h : d.Represents snappy tables) : d.Consistent where
  used := by
    have hboth := h.tables.imp (S := fun no m => no < d.no ∧ d.Stores snappy no m)
      fun no m hstores => ⟨hstores.used, hstores⟩
    exact ((List.forall₂_and_left _ _).mp hboth).1
  size := h.size
  index := h.index
  metaNo := h.metaNo

end DiskStorage

namespace KVStore

variable {snappy : Snappy} {kv : KVStore} {v : StoreView} {m : Memtable}

/-- The store over its directory is `v`. -/
structure Represents (snappy : Snappy) (kv : KVStore) (v : StoreView) : Prop where
  memtable : kv.memtable = v.memtable
  disk : kv.diskstorage.Represents snappy v.tables

theorem represents_init (snappy : Snappy) :
    (ofDirectory .empty).Represents snappy .init :=
  ⟨rfl, DiskStorage.represents_empty snappy⟩

theorem Represents.search (h : kv.Represents snappy v) (key : Bytes) :
    kv.diskstorage.search snappy key = some (v.onDisk key) := h.disk.search key

theorem Represents.get (h : kv.Represents snappy v) (key : Bytes) :
    kv.get snappy key = some (v.get key) := by
  have hsearch := h.search key
  cases hget : v.memtable.get key with
  | some value =>
      simp [KVStore.get, StoreView.get, SortedMap.contains, h.memtable, hget]
  | none =>
      simp [KVStore.get, StoreView.get, SortedMap.contains, h.memtable, hget, hsearch]

theorem Represents.put (h : kv.Represents snappy v) (key value : Bytes)
    (hfits : ∀ m ∈ written v.memtable (.put key value), SSTable.Fits snappy m) :
    ∃ kv', kv.put snappy key value = some kv' ∧ kv'.Represents snappy (v.put key value) := by
  by_cases hfull : StorageOption.sstableSpace < Memtable.space (v.memtable.put key value)
  · obtain ⟨d, hadd, hd⟩ := h.disk.add (hfits (v.memtable.put key value)
      (by simp [written, hfull]))
    refine ⟨⟨.empty, d⟩, by simp [KVStore.put, h.memtable, hfull, hadd], ?_⟩
    rw [StoreView.put, if_pos hfull]
    exact ⟨rfl, hd⟩
  · refine ⟨{ kv with memtable := v.memtable.put key value },
      by simp [KVStore.put, h.memtable, hfull], ?_⟩
    rw [StoreView.put, if_neg hfull]
    exact ⟨rfl, h.disk⟩

theorem Represents.del (h : kv.Represents snappy v) (key : Bytes) :
    ∃ kv' found, kv.del snappy key = some (kv', found) ∧
      kv'.Represents snappy (v.del key) := by
  by_cases hmem : v.memtable.contains key = true
  · refine ⟨{ kv with memtable := v.memtable.del key }, true,
      by simp [KVStore.del, h.memtable, hmem], ?_⟩
    rw [StoreView.del, if_pos hmem]
    exact ⟨rfl, h.disk⟩
  · cases hdisk : KVStore.visible (v.onDisk key) with
    | some value =>
        refine ⟨{ kv with memtable := v.memtable.put key [] }, true,
          by simp [KVStore.del, h.memtable, hmem, h.search, hdisk], ?_⟩
        rw [StoreView.del, if_neg hmem, hdisk, if_pos (by simp)]
        exact ⟨rfl, h.disk⟩
    | none =>
        refine ⟨kv, false, by simp [KVStore.del, h.memtable, hmem, h.search, hdisk], ?_⟩
        rw [StoreView.del, if_neg hmem, hdisk, if_neg (by simp)]
        exact h

theorem Represents.flush (h : kv.Represents snappy v)
    (hfits : ∀ m ∈ written v.memtable .flush, SSTable.Fits snappy m) :
    ∃ kv', kv.flush snappy = some kv' ∧ kv'.Represents snappy v.flush := by
  by_cases hempty : v.memtable.isEmpty = true
  · refine ⟨kv, by simp [KVStore.flush, h.memtable, hempty], ?_⟩
    rw [StoreView.flush, if_pos hempty]
    exact h
  · obtain ⟨d, hadd, hd⟩ := h.disk.add (hfits v.memtable (by simp [written, hempty]))
    refine ⟨{ kv with diskstorage := d },
      by simp [KVStore.flush, h.memtable, hempty, hadd], ?_⟩
    rw [StoreView.flush, if_neg hempty]
    exact ⟨h.memtable, hd⟩

theorem Represents.reopen (h : kv.Represents snappy v)
    (hfits : ∀ m ∈ written v.memtable .reopen, SSTable.Fits snappy m) :
    ∃ kv', kv.reopen snappy = some kv' ∧ kv'.Represents snappy v.reopen := by
  obtain ⟨flushed, hflush, hrep⟩ := h.flush hfits
  refine ⟨ofDirectory flushed.diskstorage.files, by simp [KVStore.reopen, hflush], rfl, ?_⟩
  rw [KVStore.ofDirectory, hrep.disk.consistent.ofDirectory]
  exact hrep.disk

/-- One operation of the store is one operation of the view. -/
theorem Represents.step (h : kv.Represents snappy v) (action : Action)
    (hfits : ∀ m ∈ written v.memtable action, SSTable.Fits snappy m) :
    ∃ kv' found, kv.step snappy action = some (kv', found) ∧
      kv'.Represents snappy (v.step action) := by
  cases action with
  | put key value =>
      obtain ⟨kv', hput, hrep⟩ := h.put key value hfits
      exact ⟨kv', true, by simp [KVStore.step, hput], hrep⟩
  | del key => exact h.del key
  | flush =>
      obtain ⟨kv', hflush, hrep⟩ := h.flush hfits
      exact ⟨kv', true, by simp [KVStore.step, hflush], hrep⟩
  | reopen =>
      obtain ⟨kv', hreopen, hrep⟩ := h.reopen hfits
      exact ⟨kv', true, by simp [KVStore.step, hreopen], hrep⟩

theorem Represents.of_step {label : Action × Bool} {kv' : KVStore} (h : kv.Represents snappy v)
    (hstep : Step snappy kv label kv') : kv'.Represents snappy (v.step label.1) := by
  obtain ⟨hstep, hfits⟩ := hstep
  rw [h.memtable] at hfits
  obtain ⟨next, found, heq, hrep⟩ := h.step label.1 hfits
  rw [Lts.Steps, heq] at hstep
  simp only [Option.some.injEq, Prod.mk.injEq] at hstep
  rw [← hstep.1]
  exact hrep

/-- The store never gets stuck: permitted operations make a run. -/
theorem Represents.exists_run (h : kv.Represents snappy v) (Ok : KVStore → Action → Prop)
    {Ok' : StoreView → Action → Prop}
    (hok : ∀ kv v action, kv.Represents snappy v → Ok' v action → Ok kv action)
    {actions : List Action}
    (hactions : v.Along (fun v action =>
      (∀ m ∈ written v.memtable action, SSTable.Fits snappy m) ∧ Ok' v action) actions) :
    ∃ trace kv', Lts.Run (fun kv label kv' => Step snappy kv label kv' ∧ Ok kv label.1)
        kv trace kv' ∧
      trace.map Prod.fst = actions ∧ kv'.Represents snappy (actions.foldl StoreView.step v) := by
  induction actions generalizing kv v with
  | nil => exact ⟨[], kv, .nil kv, rfl, h⟩
  | cons action rest ih =>
      obtain ⟨⟨hfits, haction⟩, hrest⟩ := hactions
      obtain ⟨next, found, hstep, hnext⟩ := h.step action hfits
      obtain ⟨trace, kv', hrun, hactions, hrep⟩ := ih hnext hrest
      refine ⟨(action, found) :: trace, kv', .cons ⟨⟨hstep, ?_⟩, ?_⟩ hrun, by simp [hactions], hrep⟩
      · rw [h.memtable]
        exact hfits
      · exact hok kv v action h haction

/-- After every run the store is the view after the operations of the run. -/
theorem represents_after {trace : List (Action × Bool)}
    (hrun : Lts.Run (Step snappy) (ofDirectory .empty) trace kv) :
    kv.Represents snappy (.after (trace.map Prod.fst)) := by
  refine hrun.preserves_past
    (fun past kv => kv.Represents snappy (.after (past.map Prod.fst))) ?_
    (represents_init snappy)
  intro past kv label kv' hstep h
  rw [List.map_append, List.map_singleton, StoreView.after_append]
  exact h.of_step hstep

end KVStore

end RucDDBS
