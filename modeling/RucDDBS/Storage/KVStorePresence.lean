import RucDDBS.Storage.KVStoreHistory

/-!
What `del` says about the key it deletes. On disk it tests the value, as `get` does, but
in memory it only asks whether the key is there, so the tombstone that an earlier `del`
has left is taken for a present key.
-/

namespace RucDDBS

namespace KVStore

variable {snappy : Snappy} {kv kv' : KVStore} {v : StoreView} {key : Bytes}

/-- What `get` says of the key that is to be deleted. -/
def getBefore (snappy : Snappy) (kv : KVStore) : Action → Option (Option Bytes)
  | .del key => kv.get snappy key
  | .put _ _ | .flush | .reopen => some none

/-- An operation with what it returns and what `get` said before. -/
def ObservedStep (snappy : Snappy) (kv : KVStore) (label : Action × Bool × Option Bytes)
    (kv' : KVStore) : Prop :=
  Step snappy kv (label.1, label.2.1) kv' ∧ getBefore snappy kv label.1 = some label.2.2

/-- `del` returned true if and only if `get` had found a value. -/
def ReportsPresence : Action × Bool × Option Bytes → Prop
  | (.del _, found, before) => found = true ↔ before.isSome = true
  | (.put _ _, _, _) | (.flush, _, _) | (.reopen, _, _) => True

/-- Memory has no tombstone of the key that is to be deleted. -/
def NoTombstone (memtable : Memtable) : Action → Prop
  | .del key => memtable.get key ≠ some []
  | .put _ _ | .flush | .reopen => True

instance (memtable : Memtable) : DecidablePred (NoTombstone memtable)
  | .del key => inferInstanceAs (Decidable (memtable.get key ≠ some []))
  | .put _ _ | .flush | .reopen => .isTrue trivial

theorem visible_isSome_iff {value : Bytes} :
    (visible (some value)).isSome = true ↔ value ≠ [] := by
  cases value <;> simp [visible]

/-- Both answers, in memory and on disk. -/
theorem Represents.del_answer (h : kv.Represents snappy v) (key : Bytes) :
    ∃ kv' found before, kv.del snappy key = some (kv', found) ∧
      kv.get snappy key = some before ∧
      ((found = true ↔ before.isSome = true) ↔ kv.memtable.get key ≠ some []) := by
  have hget := h.get key
  cases hmem : kv.memtable.get key with
  | some value =>
      have hcontains : kv.memtable.contains key = true := by rw [SortedMap.contains, hmem]; rfl
      rw [StoreView.get, ← h.memtable, hmem, Option.some_or] at hget
      refine ⟨_, true, _, if_pos hcontains, hget, ?_⟩
      simp [visible_isSome_iff]
  | none =>
      have hcontains : ¬ kv.memtable.contains key = true := by simp [SortedMap.contains, hmem]
      rw [StoreView.get, ← h.memtable, hmem, Option.none_or] at hget
      rw [KVStore.del, if_neg hcontains, h.search]
      cases hdisk : visible (v.onDisk key) with
      | some value =>
          rw [hdisk] at hget
          exact ⟨_, true, _, by simp only [Option.bind_eq_bind, Option.bind_some, hdisk]; rfl, hget, by simp⟩
      | none =>
          rw [hdisk] at hget
          exact ⟨kv, false, _, by simp [hdisk], hget, by simp⟩

theorem Represents.reportsPresence_iff {label : Action × Bool × Option Bytes}
    (h : kv.Represents snappy v) (hstep : ObservedStep snappy kv label kv') :
    NoTombstone kv.memtable label.1 ↔ ReportsPresence label := by
  obtain ⟨⟨hstep, _⟩, hbefore⟩ := hstep
  obtain ⟨action, found, before⟩ := label
  cases action with
  | del key =>
      obtain ⟨kv₁, found₁, before₁, hdel, hget, hiff⟩ := h.del_answer key
      have hsame : kv.del snappy key = some (kv', found) := hstep
      have hsameGet : kv.get snappy key = some before := hbefore
      rw [hdel, Option.some.injEq, Prod.mk.injEq] at hsame
      rw [hget, Option.some.injEq] at hsameGet
      obtain ⟨_, rfl⟩ := hsame
      subst hsameGet
      exact hiff.symm
  | put key value => exact Iff.rfl
  | flush => exact Iff.rfl
  | reopen => exact Iff.rfl

/-- Every run can be observed. -/
theorem Represents.observe {Ok : KVStore → Action → Prop} {trace : List (Action × Bool)}
    (h : kv.Represents snappy v)
    (hrun : Lts.Run (fun kv label kv' => Step snappy kv label kv' ∧ Ok kv label.1) kv trace kv') :
    ∃ observed, Lts.Run (fun kv label kv' => Ok kv label.1 ∧ ObservedStep snappy kv label kv')
        kv observed kv' ∧
      observed.map Prod.fst = trace.map Prod.fst := by
  induction hrun generalizing v with
  | nil kv => exact ⟨[], .nil kv, rfl⟩
  | @cons kv kv₁ kv' label trace step _ ih =>
      obtain ⟨hstep, hok⟩ := step
      obtain ⟨observed, hrest, hactions⟩ := ih (h.of_step hstep)
      have hbefore : ∃ before, getBefore snappy kv label.1 = some before := by
        cases label.1 with
        | del key => exact ⟨_, h.get key⟩
        | put key value => exact ⟨none, rfl⟩
        | flush => exact ⟨none, rfl⟩
        | reopen => exact ⟨none, rfl⟩
      obtain ⟨before, hbefore⟩ := hbefore
      refine ⟨(label.1, label.2, before) :: observed, .cons ⟨hok, hstep, hbefore⟩ hrest, ?_⟩
      rw [List.map_cons, List.map_cons, hactions]

/-- All deletes of a run report the presence of their key if and only if none of them
finds a tombstone in memory; and so does any further one in the state behind the run. -/
theorem del_reports_presence_iff {trace : List (Action × Bool × Option Bytes)}
    (hrun : Lts.Run (ObservedStep snappy) (ofDirectory .empty) trace kv) :
    ((∀ label ∈ trace, ReportsPresence label) ↔
      Lts.Run (fun kv label kv' => NoTombstone kv.memtable label.1 ∧ ObservedStep snappy kv label kv')
        (ofDirectory .empty) trace kv) ∧
    ∀ key, ∃ kv' found before, kv.del snappy key = some (kv', found) ∧
      kv.get snappy key = some before ∧
      ((found = true ↔ before.isSome = true) ↔ kv.memtable.get key ≠ some []) := by
  have hinv (s : KVStore) (label : Action × Bool × Option Bytes) (t : KVStore)
      (hstep : ObservedStep snappy s label t) :
      (∃ v, s.Represents snappy v) → ∃ v, t.Represents snappy v := by
    rintro ⟨v, h⟩
    exact ⟨_, h.of_step hstep.1⟩
  have hstart : ∃ v, (ofDirectory .empty).Represents snappy v := ⟨_, represents_init snappy⟩
  constructor
  · apply hrun.labels_iff (fun kv => ∃ v, kv.Represents snappy v) ReportsPresence
      (fun kv label => NoTombstone kv.memtable label.1) hinv _ hstart
    rintro s label t ⟨v, h⟩ hstep
    exact h.reportsPresence_iff hstep
  · obtain ⟨v, h⟩ := hrun.preserves _ hinv hstart
    exact h.del_answer

/-- The entry is deleted in memory and again on disk. -/
def deleteBoth : List Action := [.put [107] [49], .flush, .del [107], .del [107]]

theorem deleteBoth_reports : ∃ trace kv,
    Lts.Run (ObservedStep .literal) (ofDirectory .empty) trace kv ∧
      trace.map Prod.fst = deleteBoth ∧ ∀ label ∈ trace, ReportsPresence label := by
  have hpermitted : StoreView.init.Along (fun v action =>
      (∀ m ∈ written v.memtable action, SSTable.Fits .literal m) ∧
        NoTombstone v.memtable action) deleteBoth := by
    decide +kernel
  obtain ⟨trace, kv, hrun, hactions, _⟩ := (represents_init .literal).exists_run
    (fun kv action => NoTombstone kv.memtable action)
    (fun kv v action h hok => h.memtable ▸ hok) hpermitted
  obtain ⟨observed, hobserved, hsame⟩ := (represents_init .literal).observe hrun
  have hall := hobserved.mono fun _ _ _ h => h.2
  refine ⟨observed, kv, hall, hsame.trans hactions, ?_⟩
  exact (del_reports_presence_iff hall).1.mpr hobserved

/-- A third `del` returns true, for a key that is not there. -/
theorem deleteBoth_reports_tombstone : ∃ trace kv kv',
    Lts.Run (fun kv label kv' => Step .literal kv label kv' ∧ label.1.IsProper)
      (ofDirectory .empty) trace kv ∧
    trace.map Prod.fst = deleteBoth ∧
    kv.get .literal [107] = some none ∧ kv.del .literal [107] = some (kv', true) := by
  have hpermitted : StoreView.init.Along (fun v action =>
      (∀ m ∈ written v.memtable action, SSTable.Fits .literal m) ∧ action.IsProper)
      deleteBoth := by
    decide +kernel
  obtain ⟨trace, kv, hrun, hactions, hrep⟩ := (represents_init .literal).exists_run
    (fun _ action => action.IsProper) (fun _ _ _ _ hok => hok) hpermitted
  have hmem : kv.memtable.contains [107] = true := by
    rw [hrep.memtable]
    decide +kernel
  refine ⟨trace, kv, _, hrun, hactions, ?_, if_pos hmem⟩
  rw [hrep.get]
  decide +kernel

end KVStore

end RucDDBS
