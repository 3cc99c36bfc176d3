import RucDDBS.Storage.KVStoreView

/-!
What the store remembers of the operations it was given. Two properties are
followed through whole runs: a key reads as the last value put, and a deleted
key reads as absent. The store keeps neither in every run. Both are lost when
the memtable goes to disk behind an older table with the same key, because the
oldest table answers; the second is lost also when `del` takes a key out of the
memtable that a table still has.

For each property a condition on the state before an operation is given. As
long as all operations meet it the property holds, and the first one that does
not meet it breaks the property.
-/

namespace RucDDBS

namespace KVStore

/-- The effect of an operation on the last write to `key`. -/
def overwrite (key : Bytes) (last : Option (Option Bytes)) : Action → Option (Option Bytes)
  | .put key' value => if key = key' then some (some value) else last
  | .del key' => if key = key' then some none else last
  | .flush | .reopen => last

/-- The last write to `key`: `some (some value)` if it was a put and `some none`
if it was a delete. -/
def lastWrite (key : Bytes) (past : List Action) : Option (Option Bytes) :=
  past.foldl (overwrite key) none

theorem lastWrite_append (key : Bytes) (past : List Action) (action : Action) :
    lastWrite key (past ++ [action]) = overwrite key (lastWrite key past) action := by
  simp [lastWrite]

@[simp] theorem lastWrite_flush (key : Bytes) (past : List Action) :
    lastWrite key (past ++ [.flush]) = lastWrite key past := lastWrite_append key past .flush

@[simp] theorem lastWrite_reopen (key : Bytes) (past : List Action) :
    lastWrite key (past ++ [.reopen]) = lastWrite key past := lastWrite_append key past .reopen

/-- The memtable that an operation throws away after writing it. -/
def emptied (memtable : Memtable) : Action → Option Memtable
  | .put key value => written memtable (.put key value)
  | .reopen => some memtable
  | .del _ | .flush => none

/-- Puts of non-empty values, flushes and restarts. -/
def Action.IsUpdate : Action → Prop
  | .put _ value => value ≠ []
  | .del _ => False
  | .flush | .reopen => True

instance : DecidablePred Action.IsUpdate
  | .put _ value => inferInstanceAs (Decidable (value ≠ []))
  | .del _ => .isFalse id
  | .flush | .reopen => .isTrue trivial

/-- Any operation, but no put of an empty value. -/
def Action.IsProper : Action → Prop
  | .put _ value => value ≠ []
  | .del _ | .flush | .reopen => True

instance : DecidablePred Action.IsProper
  | .put _ value => inferInstanceAs (Decidable (value ≠ []))
  | .del _ | .flush | .reopen => .isTrue trivial

theorem visible_of_ne_nil {value : Bytes} (h : value ≠ []) :
    visible (some value) = some value := by
  cases value with
  | nil => exact absurd rfl h
  | cons byte rest => rfl

end KVStore

namespace StoreView

variable {v : StoreView} {key value : Bytes} {past : List KVStore.Action}

@[simp] theorem memtable_flush (v : StoreView) : v.flush.memtable = v.memtable := by
  unfold flush
  split
  · rfl
  · rfl

@[simp] theorem onDisk_flush (v : StoreView) (key : Bytes) :
    v.flush.onDisk key = (v.onDisk key).or (v.memtable.get key) := by
  unfold flush
  split
  case isTrue hempty =>
    rw [SortedMap.get_of_isEmpty _ _ hempty, Option.or_none]
  case isFalse => exact onDisk_write v v.memtable v.memtable key

/-- The memtable `m` has gone to disk and memory is empty. -/
structure Spilled (v : StoreView) (m : Memtable) (v' : StoreView) : Prop where
  memtable : ∀ key, v'.memtable.get key = none
  disk : ∀ key, v'.onDisk key = (v.onDisk key).or (m.get key)

theorem spilled_reopen (v : StoreView) : v.Spilled v.memtable v.reopen :=
  ⟨fun _ => rfl, onDisk_flush v⟩

/-- A put leaves the entry in memory, or spills the memtable with it. -/
theorem put_cases (v : StoreView) (key value : Bytes) :
    (KVStore.emptied v.memtable (.put key value) = none ∧
      v.put key value = { v with memtable := v.memtable.put key value }) ∨
    (KVStore.emptied v.memtable (.put key value) = some (v.memtable.put key value) ∧
      v.Spilled (v.memtable.put key value) (v.put key value)) := by
  by_cases hfull : StorageOption.sstableSpace < Memtable.space (v.memtable.put key value)
  · right
    refine ⟨by simp [KVStore.emptied, KVStore.written, hfull], ?_⟩
    rw [put, if_pos hfull]
    exact ⟨fun _ => rfl, onDisk_write v _ _⟩
  · left
    exact ⟨by simp [KVStore.emptied, KVStore.written, hfull], by rw [put, if_neg hfull]⟩

/-- No table on disk has a key of `m` with another value. -/
def Fresh (v : StoreView) (m : Memtable) : Prop :=
  ∀ key value, m.get key = some value → ∀ old, v.onDisk key = some old → old = value

instance (v : StoreView) (m : Memtable) : Decidable (v.Fresh m) :=
  decidable_of_iff (∀ e ∈ m.entries, ∀ old ∈ v.onDisk e.1, old = e.2) (by
    simp only [Fresh, SortedMap.get_eq_some_iff, Prod.forall, Option.mem_def])

/-- Memory has the last values put, and disk has those of all other keys. -/
structure Latest (past : List KVStore.Action) (v : StoreView) : Prop where
  memtable : ∀ key value, v.memtable.get key = some value →
    KVStore.lastWrite key past = some (some value)
  disk : ∀ key, v.memtable.get key = none → v.onDisk key = (KVStore.lastWrite key past).join
  memtableValues : ∀ key value, v.memtable.get key = some value → value ≠ []
  diskValues : ∀ key value, v.onDisk key = some value → value ≠ []

theorem latest_init : Latest [] init where
  memtable := by simp [init]
  disk := by simp [init, onDisk, KVStore.lastWrite]
  memtableValues := by simp [init]
  diskValues := by simp [init, onDisk]

theorem Latest.get (h : v.Latest past) (key : Bytes) :
    v.get key = (KVStore.lastWrite key past).join := by
  cases hmem : v.memtable.get key with
  | some value =>
      have hne := h.memtableValues key value hmem
      simp [StoreView.get, hmem, KVStore.visible_of_ne_nil hne, h.memtable key value hmem]
  | none =>
      rw [StoreView.get, hmem, Option.none_or, ← h.disk key hmem]
      cases hdisk : v.onDisk key with
      | some value => exact KVStore.visible_of_ne_nil (h.diskValues key value hdisk)
      | none => rfl

theorem Latest.put (h : v.Latest past) (key : Bytes) (hne : value ≠ []) :
    Latest (past ++ [.put key value]) { v with memtable := v.memtable.put key value } := by
  constructor
  · intro key' value' hget
    rw [KVStore.lastWrite_append, KVStore.overwrite]
    rw [SortedMap.get_put] at hget
    split at hget
    case isTrue hkey => simpa [hkey] using hget
    case isFalse hkey => simpa [hkey] using h.memtable key' value' hget
  · intro key' hget
    rw [KVStore.lastWrite_append, KVStore.overwrite]
    rw [SortedMap.get_put] at hget
    split at hget
    case isTrue => cases hget
    case isFalse hkey => simpa [hkey] using h.disk key' hget
  · intro key' value' hget
    rw [SortedMap.get_put] at hget
    split at hget
    case isTrue =>
      rw [← Option.some.inj hget]
      exact hne
    case isFalse => exact h.memtableValues key' value' hget
  · exact h.diskValues

theorem Latest.relabel {past' : List KVStore.Action} (h : v.Latest past)
    (hpast : ∀ key, KVStore.lastWrite key past' = KVStore.lastWrite key past) :
    v.Latest past' := by
  constructor
  · intro key value hget
    rw [hpast key]
    exact h.memtable key value hget
  · intro key hget
    rw [hpast key]
    exact h.disk key hget
  · exact h.memtableValues
  · exact h.diskValues

/-- Writing a table changes what disk answers only for keys in memory. -/
theorem Latest.flush (h : v.Latest past) : v.flush.Latest past := by
  constructor
  · intro key value hget
    rw [memtable_flush] at hget
    exact h.memtable key value hget
  · intro key hget
    rw [memtable_flush] at hget
    rw [onDisk_flush, hget, Option.or_none]
    exact h.disk key hget
  · intro key value hget
    rw [memtable_flush] at hget
    exact h.memtableValues key value hget
  · intro key value hdisk
    rw [onDisk_flush, Option.or_eq_some_iff] at hdisk
    rcases hdisk with hdisk | ⟨_, hget⟩
    · exact h.diskValues key value hdisk
    · exact h.memtableValues key value hget

/-- A fresh memtable may go to disk. -/
theorem Latest.spill {v' : StoreView} (h : v.Latest past) (hfresh : v.Fresh v.memtable)
    (hspill : v.Spilled v.memtable v') : v'.Latest past := by
  constructor
  · intro key value hget
    rw [hspill.memtable key] at hget
    cases hget
  · intro key _
    rw [hspill.disk key]
    cases hget : v.memtable.get key with
    | none => rw [Option.or_none, h.disk key hget]
    | some value =>
        rw [h.memtable key value hget]
        cases hdisk : v.onDisk key with
        | none => rfl
        | some old => simp [hfresh key value hget old hdisk]
  · intro key value hget
    rw [hspill.memtable key] at hget
    cases hget
  · intro key value hdisk
    rw [hspill.disk key, Option.or_eq_some_iff] at hdisk
    rcases hdisk with hdisk | ⟨_, hget⟩
    · exact h.diskValues key value hdisk
    · exact h.memtableValues key value hget

/-- A memtable that is not fresh loses a value when it goes to disk. -/
theorem Latest.spill_stale {v' : StoreView} (h : v.Latest past) (hstale : ¬ v.Fresh v.memtable)
    (hspill : v.Spilled v.memtable v') :
    ∃ key, v'.get key ≠ (KVStore.lastWrite key past).join := by
  simp only [Fresh, not_forall] at hstale
  obtain ⟨key, value, hget, old, hdisk, hne⟩ := hstale
  refine ⟨key, ?_⟩
  rw [StoreView.get, hspill.memtable key, Option.none_or, hspill.disk key, hdisk,
    Option.some_or, KVStore.visible_of_ne_nil (h.diskValues key old hdisk),
    h.memtable key value hget]
  simpa using hne

/-- One operation: the property survives exactly if the memtable it throws
away is fresh. -/
theorem Latest.step (h : v.Latest past) {action : KVStore.Action} (hupdate : action.IsUpdate)
    (hfresh : ∀ m ∈ KVStore.emptied v.memtable action, v.Fresh m) :
    (v.step action).Latest (past ++ [action]) := by
  cases action with
  | put key value =>
      have hput := h.put key hupdate
      rcases v.put_cases key value with ⟨_, hkeep⟩ | ⟨hemptied, hspill⟩
      · rw [StoreView.step, hkeep]
        exact hput
      · refine hput.spill ?_ ⟨hspill.memtable, hspill.disk⟩
        exact hfresh _ hemptied
  | del key => exact hupdate.elim
  | flush => exact h.flush.relabel (by simp)
  | reopen =>
      have hspill := h.spill (hfresh _ rfl) v.spilled_reopen
      exact hspill.relabel (by simp)

theorem Latest.step_stale (h : v.Latest past) {action : KVStore.Action}
    (hupdate : action.IsUpdate)
    (hstale : ¬ ∀ m ∈ KVStore.emptied v.memtable action, v.Fresh m) :
    ∃ key, (v.step action).get key ≠ (KVStore.lastWrite key (past ++ [action])).join := by
  simp only [not_forall] at hstale
  obtain ⟨m, hm, hstale⟩ := hstale
  cases action with
  | put key value =>
      have hput := h.put key hupdate
      rcases v.put_cases key value with ⟨hnone, _⟩ | ⟨hemptied, hspill⟩
      · rw [hnone] at hm
        cases hm
      · rw [hemptied] at hm
        cases hm
        exact hput.spill_stale hstale ⟨hspill.memtable, hspill.disk⟩
  | del key => exact hupdate.elim
  | flush => cases hm
  | reopen =>
      cases hm
      obtain ⟨key, hkey⟩ := h.spill_stale hstale v.spilled_reopen
      refine ⟨key, ?_⟩
      rw [KVStore.lastWrite_reopen]
      exact hkey

end StoreView

namespace KVStore

variable {snappy : Snappy} {kv kv' : KVStore} {trace : List (Action × Bool)}
  {label : Action × Bool}

/-- The memtable that the operation throws away has no key that a table on disk
answers with another value. -/
def KeepsLatest (snappy : Snappy) (kv : KVStore) (action : Action) : Prop :=
  ∀ m ∈ emptied kv.memtable action, ∀ key value, m.get key = some value →
    ∀ old, kv.diskstorage.search snappy key = some (some old) → old = value

def LatestStep (snappy : Snappy) (kv : KVStore) (label : Action × Bool) (kv' : KVStore) : Prop :=
  Step snappy kv label kv' ∧ label.1.IsUpdate ∧ KeepsLatest snappy kv label.1

theorem Represents.keepsLatest_iff {v : StoreView} (h : kv.Represents snappy v)
    (action : Action) :
    KeepsLatest snappy kv action ↔ ∀ m ∈ emptied v.memtable action, v.Fresh m := by
  simp [KeepsLatest, StoreView.Fresh, h.memtable, h.search]

theorem latest_after (hrun : Lts.Run (LatestStep snappy) (ofDirectory .empty) trace kv) :
    (StoreView.after (trace.map Prod.fst)).Latest (trace.map Prod.fst) := by
  refine (hrun.preserves_past (fun past kv => kv.Represents snappy (.after (past.map Prod.fst)) ∧
    (StoreView.after (past.map Prod.fst)).Latest (past.map Prod.fst)) ?_
    ⟨represents_init snappy, StoreView.latest_init⟩).2
  rintro past kv label kv' ⟨hstep, hupdate, hkeeps⟩ ⟨hrep, h⟩
  rw [List.map_append, List.map_singleton, StoreView.after_append]
  refine ⟨hrep.of_step hstep, ?_⟩
  apply h.step hupdate
  exact (hrep.keepsLatest_iff label.1).mp hkeeps

/-- In a run whose memtables go to disk only where no older table has another
value for one of their keys, a key reads as the last value put. -/
theorem get_last_put (hrun : Lts.Run (LatestStep snappy) (ofDirectory .empty) trace kv)
    (key : Bytes) :
    kv.get snappy key = some (lastWrite key (trace.map Prod.fst)).join := by
  have hrep := represents_after (hrun.mono fun _ _ _ h => h.1)
  rw [hrep.get key, (latest_after hrun).get key]

/-- A value is put again after a restart, with another key beside it. -/
def putAgain : List Action :=
  [.put [107] [49], .reopen, .put [107] [49], .put [108] [50], .flush, .reopen]

theorem putAgain_reads_last : ∃ trace kv,
    Lts.Run (LatestStep .literal) (ofDirectory .empty) trace kv ∧
      trace.map Prod.fst = putAgain ∧ kv.get .literal [107] = some (some [49]) := by
  have hpermitted : StoreView.init.Along (fun v action =>
      (∀ m ∈ written v.memtable action, SSTable.Fits .literal m) ∧
        action.IsUpdate ∧ ∀ m ∈ emptied v.memtable action, v.Fresh m) putAgain := by
    decide +kernel
  obtain ⟨trace, kv, hrun, hactions, _⟩ := (represents_init .literal).exists_run
    (fun kv action => action.IsUpdate ∧ KeepsLatest .literal kv action)
    (fun kv v action h hok => ⟨hok.1, (h.keepsLatest_iff action).mpr hok.2⟩) hpermitted
  refine ⟨trace, kv, hrun, hactions, ?_⟩
  rw [get_last_put hrun [107], hactions]
  decide

/-- A key is put with two values in two lives of the store. -/
def putTwice : List Action :=
  [.put [107] [49], .reopen, .put [107] [50], .reopen]

/-- The first value answers. -/
theorem putTwice_reads_first : ∃ trace kv,
    Lts.Run (fun kv label kv' => Step .literal kv label kv' ∧ label.1.IsUpdate)
      (ofDirectory .empty) trace kv ∧
    trace.map Prod.fst = putTwice ∧
    lastWrite [107] putTwice = some (some [50]) ∧
    kv.get .literal [107] = some (some [49]) := by
  have hpermitted : StoreView.init.Along (fun v action =>
      (∀ m ∈ written v.memtable action, SSTable.Fits .literal m) ∧ action.IsUpdate) putTwice := by
    decide +kernel
  obtain ⟨trace, kv, hrun, hactions, hrep⟩ := (represents_init .literal).exists_run
    (fun _ action => action.IsUpdate) (fun _ _ _ _ hok => hok) hpermitted
  refine ⟨trace, kv, hrun, hactions, by decide, ?_⟩
  rw [hrep.get]
  decide +kernel

/-- The condition cannot be weakened: the first operation that violates it makes
an older value of some key visible again. -/
theorem get_stale (hrun : Lts.Run (LatestStep snappy) (ofDirectory .empty) trace kv)
    (hstep : Step snappy kv label kv') (hupdate : label.1.IsUpdate)
    (hstale : ¬ KeepsLatest snappy kv label.1) :
    ∃ key, kv'.get snappy key ≠ some (lastWrite key ((trace ++ [label]).map Prod.fst)).join := by
  have hrep := represents_after (hrun.mono fun _ _ _ h => h.1)
  rw [hrep.keepsLatest_iff] at hstale
  obtain ⟨key, hkey⟩ := (latest_after hrun).step_stale hupdate hstale
  refine ⟨key, ?_⟩
  rw [(hrep.of_step hstep).get key, List.map_append, List.map_singleton]
  simpa using hkey

end KVStore

namespace StoreView

variable {v : StoreView} {key value : Bytes} {past : List KVStore.Action}

def NoTombstone (m : Memtable) : Prop := ∀ key, m.get key ≠ some []

instance (m : Memtable) : Decidable (NoTombstone m) :=
  decidable_of_iff (∀ e ∈ m.entries, e.2 ≠ []) (by
    constructor
    · intro h key hget
      exact h (key, []) ((m.get_eq_some_iff key []).mp hget) rfl
    · intro h e he hnil
      exact h e.1 ((m.get_eq_some_iff e.1 []).mpr (by rw [← hnil]; exact he)))

/-- A tombstone in memory hides the key, or there is nothing to hide. -/
def Masks (v : StoreView) (key : Bytes) : Prop :=
  v.memtable.get key = some [] ∨ (v.memtable.get key = none ∧ v.onDisk key = none)

theorem Masks.get (h : v.Masks key) : v.get key = none := by
  rcases h with htombstone | ⟨hmem, hdisk⟩
  · simp [StoreView.get, htombstone, KVStore.visible]
  · simp [StoreView.get, hmem, hdisk, KVStore.visible]

/-- Deleted keys are masked. A tombstone stands only in memory, over a key that
disk has; disk answers with non-empty values only, since a table that holds a
tombstone is never the oldest one with its key. -/
structure Masked (past : List KVStore.Action) (v : StoreView) : Prop where
  deleted : ∀ key, KVStore.lastWrite key past = some none → v.Masks key
  tombstone : ∀ key, v.memtable.get key = some [] →
    KVStore.lastWrite key past = some none ∧ v.onDisk key ≠ none
  diskValues : ∀ key, v.onDisk key ≠ some []

theorem masked_init : Masked [] init where
  deleted := by simp [KVStore.lastWrite]
  tombstone := by simp [init]
  diskValues := by simp [init, onDisk]

theorem Masked.relabel {past' : List KVStore.Action} (h : v.Masked past)
    (hpast : ∀ key, KVStore.lastWrite key past' = KVStore.lastWrite key past) :
    v.Masked past' := by
  constructor
  · intro key hlast
    rw [hpast key] at hlast
    exact h.deleted key hlast
  · intro key htombstone
    rw [hpast key]
    exact h.tombstone key htombstone
  · exact h.diskValues

theorem Masked.put (h : v.Masked past) (key : Bytes) (hne : value ≠ []) :
    Masked (past ++ [.put key value]) { v with memtable := v.memtable.put key value } := by
  constructor
  · intro key' hlast
    rw [KVStore.lastWrite_append, KVStore.overwrite] at hlast
    split at hlast
    case isTrue => cases hlast
    case isFalse hkey =>
      have hmasks := h.deleted key' hlast
      simpa [Masks, SortedMap.get_put, hkey] using hmasks
  · intro key' htombstone
    rw [SortedMap.get_put] at htombstone
    split at htombstone
    case isTrue => exact absurd (Option.some.inj htombstone) hne
    case isFalse hkey =>
      rw [KVStore.lastWrite_append, KVStore.overwrite, if_neg hkey]
      exact h.tombstone key' htombstone
  · exact h.diskValues

theorem Masked.flush (h : v.Masked past) : v.flush.Masked past := by
  constructor
  · intro key hlast
    have hmasks := h.deleted key hlast
    rw [Masks, memtable_flush, onDisk_flush]
    rcases hmasks with htombstone | ⟨hmem, hdisk⟩
    · exact .inl htombstone
    · exact .inr ⟨hmem, by rw [hmem, hdisk, Option.or_none]⟩
  · intro key htombstone
    rw [memtable_flush] at htombstone
    obtain ⟨hlast, hdisk⟩ := h.tombstone key htombstone
    refine ⟨hlast, ?_⟩
    rw [onDisk_flush]
    simp [hdisk]
  · intro key hdisk
    rw [onDisk_flush, Option.or_eq_some_iff] at hdisk
    rcases hdisk with hdisk | ⟨hnone, htombstone⟩
    · exact h.diskValues key hdisk
    · exact (h.tombstone key htombstone).2 hnone

theorem Masked.spill {v' : StoreView} (h : v.Masked past) (hclean : NoTombstone v.memtable)
    (hspill : v.Spilled v.memtable v') : v'.Masked past := by
  constructor
  · intro key hlast
    rcases h.deleted key hlast with htombstone | ⟨hmem, hdisk⟩
    · exact absurd htombstone (hclean key)
    · refine .inr ⟨hspill.memtable key, ?_⟩
      rw [hspill.disk key, hmem, hdisk, Option.or_none]
  · intro key htombstone
    rw [hspill.memtable key] at htombstone
    cases htombstone
  · intro key hdisk
    rw [hspill.disk key, Option.or_eq_some_iff] at hdisk
    rcases hdisk with hdisk | ⟨_, htombstone⟩
    · exact h.diskValues key hdisk
    · exact hclean key htombstone

/-- A tombstone on disk hides nothing: the table below it answers. -/
theorem Masked.spill_tombstone {v' : StoreView} (h : v.Masked past)
    (hdirty : ¬ NoTombstone v.memtable) (hspill : v.Spilled v.memtable v') :
    ∃ key, KVStore.lastWrite key past = some none ∧ v'.get key ≠ none := by
  simp only [NoTombstone, not_forall, not_not] at hdirty
  obtain ⟨key, htombstone⟩ := hdirty
  obtain ⟨hlast, hdisk⟩ := h.tombstone key htombstone
  obtain ⟨old, hold⟩ := Option.ne_none_iff_exists'.mp hdisk
  refine ⟨key, hlast, ?_⟩
  have hne : old ≠ [] := by
    intro hnil
    apply h.diskValues key
    rw [hold, hnil]
  rw [StoreView.get, hspill.memtable key, Option.none_or, hspill.disk key, hold, Option.some_or,
    KVStore.visible_of_ne_nil hne]
  simp

theorem Masked.visible_onDisk (h : v.Masked past) (key : Bytes) :
    KVStore.visible (v.onDisk key) = v.onDisk key := by
  cases hdisk : v.onDisk key with
  | none => rfl
  | some old =>
      apply KVStore.visible_of_ne_nil
      intro hnil
      apply h.diskValues key
      rw [hdisk, hnil]

/-- After `del` the key has a tombstone over its tables, or it is nowhere. -/
theorem Masked.del_self (h : v.Masked past) (key : Bytes)
    (honly : v.memtable.contains key = true → v.onDisk key = none) :
    ((v.del key).memtable.get key = some [] ∧ v.onDisk key ≠ none) ∨
      ((v.del key).memtable.get key = none ∧ v.onDisk key = none) := by
  rw [memtable_del_self, h.visible_onDisk key]
  cases hmem : v.memtable.get key with
  | some value =>
      have hdisk := honly (by simp [SortedMap.contains, hmem])
      exact .inr ⟨rfl, hdisk⟩
  | none =>
      cases hdisk : v.onDisk key with
      | some old => exact .inl ⟨rfl, by simp⟩
      | none => exact .inr ⟨rfl, rfl⟩

theorem Masked.del (h : v.Masked past) (key : Bytes)
    (honly : v.memtable.contains key = true → v.onDisk key = none) :
    (v.del key).Masked (past ++ [.del key]) := by
  have hself := h.del_self key honly
  constructor
  · intro key' hlast
    rw [Masks, onDisk_del]
    rw [KVStore.lastWrite_append, KVStore.overwrite] at hlast
    split at hlast
    case isTrue hkey =>
      rw [hkey]
      exact hself.imp And.left id
    case isFalse hkey =>
      rw [memtable_del_of_ne v hkey]
      exact h.deleted key' hlast
  · intro key' htombstone
    rw [onDisk_del, KVStore.lastWrite_append, KVStore.overwrite]
    by_cases hkey : key' = key
    · rw [hkey] at htombstone ⊢
      rcases hself with ⟨_, hdisk⟩ | ⟨hnone, _⟩
      · exact ⟨if_pos rfl, hdisk⟩
      · rw [hnone] at htombstone
        cases htombstone
    · rw [memtable_del_of_ne v hkey] at htombstone
      rw [if_neg hkey]
      exact h.tombstone key' htombstone
  · rw [onDisk_del]
    exact h.diskValues

/-- Taking the newest version out of memory uncovers the one on disk. -/
theorem Masked.del_uncovers (h : v.Masked past) (hmem : v.memtable.contains key = true)
    (hdisk : v.onDisk key ≠ none) : (v.del key).get key ≠ none := by
  obtain ⟨value, hvalue⟩ := (v.memtable.contains_iff key).mp hmem
  rw [StoreView.get, memtable_del_self, hvalue, if_neg (by simp), Option.none_or, onDisk_del,
    h.visible_onDisk key]
  exact hdisk

/-- The operation leaves every mask in place. -/
def KeepsMasks (v : StoreView) : KVStore.Action → Prop
  | .del key => v.memtable.contains key = true → v.onDisk key = none
  | action => ∀ m ∈ KVStore.emptied v.memtable action, NoTombstone m

instance (v : StoreView) : DecidablePred v.KeepsMasks
  | .del key => inferInstanceAs (Decidable (v.memtable.contains key = true → v.onDisk key = none))
  | .put key value => inferInstanceAs
      (Decidable (∀ m ∈ KVStore.emptied v.memtable (.put key value), NoTombstone m))
  | .flush => inferInstanceAs (Decidable (∀ m ∈ KVStore.emptied v.memtable .flush, NoTombstone m))
  | .reopen => inferInstanceAs
      (Decidable (∀ m ∈ KVStore.emptied v.memtable .reopen, NoTombstone m))

theorem Masked.step (h : v.Masked past) {action : KVStore.Action} (hproper : action.IsProper)
    (hkeeps : v.KeepsMasks action) : (v.step action).Masked (past ++ [action]) := by
  cases action with
  | put key value =>
      have hput := h.put key hproper
      rcases v.put_cases key value with ⟨_, hkeep⟩ | ⟨hemptied, hspill⟩
      · rw [StoreView.step, hkeep]
        exact hput
      · refine hput.spill ?_ ⟨hspill.memtable, hspill.disk⟩
        exact hkeeps _ hemptied
  | del key => exact h.del key hkeeps
  | flush => exact h.flush.relabel (by simp)
  | reopen =>
      have hspill := h.spill (hkeeps _ rfl) v.spilled_reopen
      exact hspill.relabel (by simp)

theorem Masked.step_uncovers (h : v.Masked past) {action : KVStore.Action}
    (hproper : action.IsProper) (hnot : ¬ v.KeepsMasks action) :
    ∃ key, KVStore.lastWrite key (past ++ [action]) = some none ∧
      (v.step action).get key ≠ none := by
  cases action with
  | put key value =>
      have hput := h.put key hproper
      simp only [KeepsMasks, not_forall] at hnot
      obtain ⟨m, hm, hdirty⟩ := hnot
      rcases v.put_cases key value with ⟨hnone, _⟩ | ⟨hemptied, hspill⟩
      · rw [hnone] at hm
        cases hm
      · rw [hemptied] at hm
        cases hm
        exact hput.spill_tombstone hdirty ⟨hspill.memtable, hspill.disk⟩
  | del key =>
      simp only [KeepsMasks, not_forall] at hnot
      obtain ⟨hmem, hdisk⟩ := hnot
      refine ⟨key, ?_, h.del_uncovers hmem hdisk⟩
      simp [KVStore.lastWrite_append, KVStore.overwrite]
  | flush => exact absurd (fun m hm => nomatch hm) hnot
  | reopen =>
      simp only [KeepsMasks, not_forall] at hnot
      obtain ⟨m, hm, hdirty⟩ := hnot
      cases hm
      obtain ⟨key, hlast, hget⟩ := h.spill_tombstone hdirty v.spilled_reopen
      refine ⟨key, ?_, hget⟩
      rw [KVStore.lastWrite_reopen]
      exact hlast

end StoreView

namespace KVStore

variable {snappy : Snappy} {kv kv' : KVStore} {trace : List (Action × Bool)}
  {label : Action × Bool}

/-- `del` is not given a key that is both in memory and on disk, and a memtable
with a tombstone in it is not thrown away. -/
def KeepsMasks (snappy : Snappy) (kv : KVStore) : Action → Prop
  | .del key =>
      kv.memtable.contains key = true → kv.diskstorage.search snappy key = some none
  | action => ∀ m ∈ emptied kv.memtable action, StoreView.NoTombstone m

def MaskStep (snappy : Snappy) (kv : KVStore) (label : Action × Bool) (kv' : KVStore) : Prop :=
  Step snappy kv label kv' ∧ label.1.IsProper ∧ KeepsMasks snappy kv label.1

theorem Represents.keepsMasks_iff {v : StoreView} (h : kv.Represents snappy v)
    (action : Action) : KeepsMasks snappy kv action ↔ v.KeepsMasks action := by
  cases action with
  | put key value => simp [KeepsMasks, StoreView.KeepsMasks, h.memtable]
  | del key => simp [KeepsMasks, StoreView.KeepsMasks, h.memtable, h.search]
  | flush => simp [KeepsMasks, StoreView.KeepsMasks, h.memtable]
  | reopen => simp [KeepsMasks, StoreView.KeepsMasks, h.memtable]

theorem masked_after (hrun : Lts.Run (MaskStep snappy) (ofDirectory .empty) trace kv) :
    (StoreView.after (trace.map Prod.fst)).Masked (trace.map Prod.fst) := by
  refine (hrun.preserves_past (fun past kv => kv.Represents snappy (.after (past.map Prod.fst)) ∧
    (StoreView.after (past.map Prod.fst)).Masked (past.map Prod.fst)) ?_
    ⟨represents_init snappy, StoreView.masked_init⟩).2
  rintro past kv label kv' ⟨hstep, hproper, hkeeps⟩ ⟨hrep, h⟩
  rw [List.map_append, List.map_singleton, StoreView.after_append]
  refine ⟨hrep.of_step hstep, ?_⟩
  apply h.step hproper
  exact (hrep.keepsMasks_iff label.1).mp hkeeps

/-- In a run of such operations a key whose last write is a delete is absent. -/
theorem get_deleted (hrun : Lts.Run (MaskStep snappy) (ofDirectory .empty) trace kv)
    (key : Bytes) (hlast : lastWrite key (trace.map Prod.fst) = some none) :
    kv.get snappy key = some none := by
  have hrep := represents_after (hrun.mono fun _ _ _ h => h.1)
  rw [hrep.get key, ((masked_after hrun).deleted key hlast).get]

/-- Two keys go to disk, one of them is deleted and flushed with its tombstone,
the other one is only ever in memory when it is deleted. -/
def deleteFlushed : List Action :=
  [.put [107] [49], .reopen, .del [107], .flush, .put [108] [50], .del [108]]

theorem deleteFlushed_absent : ∃ trace kv,
    Lts.Run (MaskStep .literal) (ofDirectory .empty) trace kv ∧
      trace.map Prod.fst = deleteFlushed ∧ kv.get .literal [107] = some none := by
  have hpermitted : StoreView.init.Along (fun v action =>
      (∀ m ∈ written v.memtable action, SSTable.Fits .literal m) ∧
        action.IsProper ∧ v.KeepsMasks action) deleteFlushed := by
    decide +kernel
  obtain ⟨trace, kv, hrun, hactions, _⟩ := (represents_init .literal).exists_run
    (fun kv action => action.IsProper ∧ KeepsMasks .literal kv action)
    (fun kv v action h hok => ⟨hok.1, (h.keepsMasks_iff action).mpr hok.2⟩) hpermitted
  have hlast : lastWrite [107] (trace.map Prod.fst) = some none := by
    rw [hactions]
    decide
  exact ⟨trace, kv, hrun, hactions, get_deleted hrun [107] hlast⟩

/-- A flush leaves the memtable as it is, so the key is in memory and on disk. -/
def deleteAfterFlush : List Action := [.put [107] [49], .flush, .del [107]]

/-- The deleted value is read again. -/
theorem deleteAfterFlush_reads_value : ∃ trace kv,
    Lts.Run (fun kv label kv' => Step .literal kv label kv' ∧ label.1.IsProper)
      (ofDirectory .empty) trace kv ∧
    trace.map Prod.fst = deleteAfterFlush ∧
    lastWrite [107] deleteAfterFlush = some none ∧
    kv.get .literal [107] = some (some [49]) := by
  have hpermitted : StoreView.init.Along (fun v action =>
      (∀ m ∈ written v.memtable action, SSTable.Fits .literal m) ∧ action.IsProper)
      deleteAfterFlush := by
    decide +kernel
  obtain ⟨trace, kv, hrun, hactions, hrep⟩ := (represents_init .literal).exists_run
    (fun _ action => action.IsProper) (fun _ _ _ _ hok => hok) hpermitted
  refine ⟨trace, kv, hrun, hactions, by decide, ?_⟩
  rw [hrep.get]
  decide +kernel

/-- The first operation that violates the condition brings a deleted key back. -/
theorem get_uncovered (hrun : Lts.Run (MaskStep snappy) (ofDirectory .empty) trace kv)
    (hstep : Step snappy kv label kv') (hproper : label.1.IsProper)
    (hnot : ¬ KeepsMasks snappy kv label.1) :
    ∃ key, lastWrite key ((trace ++ [label]).map Prod.fst) = some none ∧
      kv'.get snappy key ≠ some none := by
  have hrep := represents_after (hrun.mono fun _ _ _ h => h.1)
  rw [hrep.keepsMasks_iff] at hnot
  obtain ⟨key, hlast, hget⟩ := (masked_after hrun).step_uncovers hproper hnot
  rw [List.map_append, List.map_singleton]
  refine ⟨key, hlast, ?_⟩
  rw [(hrep.of_step hstep).get key]
  simpa using hget

end KVStore

end RucDDBS
