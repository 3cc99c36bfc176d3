import RucDDBS.Storage.KVStoreHistory
import RucDDBS.Transaction.TxnStore

/-!
What is left in the store after an abort. A put is recorded without the value
it replaces and taken back by a delete, so an overwritten value is gone from
the memtable; a delete is recorded with its value. For one key only the
operations up to its first delete matter: that delete is undone by a put of the
value just before it, and the puts in front are undone by as many deletes.

As long as no memtable goes to disk these deletes alternate between uncovering
the value on disk and covering it with a tombstone, which decides exactly when
the abort restores the key. With overflows, whoever causes them, the same holds
of a key that stays clear of the defects of the store itself.

Calls on behalf of other transactions come in between. They have keys of their
own, so that for one key a call of another transaction and a call of the
transaction itself on another key are the same.
-/

namespace RucDDBS

/-- The number of puts of `key` before its first delete. It is positive if the
first operation on `key` is a put. -/
def leadingPuts (key : Bytes) : List TxnOp → Nat
  | [] => 0
  | .put key' _ :: rest => if key = key' then leadingPuts key rest + 1 else leadingPuts key rest
  | .del key' :: rest => if key = key' then 0 else leadingPuts key rest

theorem KVStore.visible_visible (found : Option Bytes) :
    visible (visible found) = visible found := by
  cases found with
  | none => rfl
  | some value =>
      cases value with
      | nil => rfl
      | cons byte rest => rfl

/-- What a tombstone over disk shows, if there is anything to cover. -/
theorem KVStore.visible_tombstone (found : Option Bytes) :
    visible (((visible found).map fun _ => []).or found) = none := by
  cases hvisible : visible found with
  | none => exact hvisible
  | some value => rfl

/-- An operation puts the key, deletes it or concerns another one. -/
theorem TxnOp.cases_key (op : TxnOp) (key : Bytes) :
    (∃ value, op = .put key value) ∨ op = .del key ∨ key ≠ op.key := by
  by_cases hkey : key = op.key
  · subst hkey
    cases op with
    | put key value => exact .inl ⟨value, rfl⟩
    | del key => exact .inr (.inl rfl)
  · exact .inr (.inr hkey)

theorem leadingPuts_cons_of_ne {key : Bytes} {op : TxnOp} (hne : key ≠ op.key)
    (rest : List TxnOp) : leadingPuts key (op :: rest) = leadingPuts key rest := by
  cases op with
  | put key' value => exact if_neg hne
  | del key' => exact if_neg hne

theorem exists_of_leadingPuts {key : Bytes} {ops : List TxnOp} (h : leadingPuts key ops ≠ 0) :
    ∃ op ∈ ops, op.key = key := by
  induction ops with
  | nil => exact absurd rfl h
  | cons op ops ih =>
      by_cases hkey : op.key = key
      · exact ⟨op, by simp, hkey⟩
      · rw [leadingPuts_cons_of_ne (Ne.symm hkey)] at h
        obtain ⟨op', hmem, hop'⟩ := ih h
        exact ⟨op', by simp [hmem], hop'⟩

/-- The operations of the transaction itself. -/
def ownOps : List TxnCall → List TxnOp
  | [] => []
  | .own op :: rest => op :: ownOps rest
  | .other _ :: rest => ownOps rest

/-- No other transaction puts or deletes the key, before the abort or during it. -/
structure Untouched (key : Bytes) (calls : List TxnCall) (gaps : List (List OtherCall)) :
    Prop where
  calls : ∀ call, .other call ∈ calls → key ≠ call.op.key
  gaps : ∀ gap ∈ gaps, ∀ call ∈ gap, key ≠ call.op.key

namespace StoreView

variable {v v' : StoreView} {key : Bytes} {op : TxnOp} {ops : List TxnOp} {r : WriteRecord}
  {n : Nat} {calls : List TxnCall} {gaps : List (List OtherCall)}

theorem recordOf_key (h : v.recordOf op = some r) : r.undoOp.key = op.key := by
  cases op with
  | put key value =>
      cases h
      rfl
  | del key =>
      obtain ⟨value, _, rfl⟩ := Option.map_eq_some_iff.mp h
      rfl

section Unwinding

/-- What the transaction and its abort do to the store, as one key sees it: its own puts
and deletes, each taken back when the later ones have been, and operations on other keys at
any place. `n` counts the puts before the first delete. Every operation meets `Ok`. -/
inductive Unwinds (Ok : StoreView → KVStore.Action → Prop) (key : Bytes) :
    StoreView → Nat → StoreView → Prop
  | nil (v : StoreView) : Unwinds Ok key v 0 v
  | before {v v' : StoreView} {n : Nat} {op : TxnOp} : key ≠ op.key → Ok v op.action →
      Unwinds Ok key (v.step op.action) n v' → Unwinds Ok key v n v'
  | after {v v' : StoreView} {n : Nat} {op : TxnOp} : Unwinds Ok key v n v' → key ≠ op.key →
      Ok v' op.action → Unwinds Ok key v n (v'.step op.action)
  | put {v v' : StoreView} {n : Nat} {value : Bytes} : Ok v (.put key value) →
      Unwinds Ok key (v.step (.put key value)) n v' → Ok v' (.del key) →
      Unwinds Ok key v (n + 1) (v'.step (.del key))
  | found {v v' : StoreView} {n : Nat} {value : Bytes} :
      v.recordOf (.del key) = some (.ofDelete key value) → Ok v (.del key) →
      Unwinds Ok key (v.step (.del key)) n v' → Ok v' (.put key value) →
      Unwinds Ok key v 0 (v'.step (.put key value))
  | absent {v v' : StoreView} {n : Nat} : v.recordOf (.del key) = none → Ok v (.del key) →
      Unwinds Ok key (v.step (.del key)) n v' → Unwinds Ok key v 0 v'

variable {Ok : StoreView → KVStore.Action → Prop}

/-- Calls of others behind the last round of the abort. -/
theorem Unwinds.others (h : Unwinds Ok key v n v') (others : List OtherCall)
    (hne : ∀ call ∈ others, key ≠ call.op.key)
    (hok : v'.Along Ok (others.map fun call => call.op.action)) :
    Unwinds Ok key v n ((others.map fun call => call.op.action).foldl step v') := by
  induction others generalizing v' with
  | nil => exact h
  | cons call others ih =>
      obtain ⟨hfirst, hrest⟩ := hok
      apply ih (h.after (hne call (by simp)) hfirst) _ hrest
      intro call' hmem
      exact hne call' (by simp [hmem])

/-- One operation of the transaction and the round that takes it back. -/
theorem Unwinds.undone (hrecord : v.recordOf op = some r) (hop : Ok v op.action)
    (hinner : Unwinds Ok key (v.step op.action) (leadingPuts key ops) v')
    (hundo : Ok v' r.undoAction) :
    Unwinds Ok key v (leadingPuts key (op :: ops)) (v'.step r.undoAction) := by
  rcases op.cases_key key with ⟨value, rfl⟩ | rfl | hkey
  · cases hrecord
    have hcount : leadingPuts key (.put key value :: ops) = leadingPuts key ops + 1 :=
      if_pos rfl
    rw [hcount]
    exact .put hop hinner hundo
  · have hcount : leadingPuts key (.del key :: ops) = 0 := if_pos rfl
    rw [hcount]
    obtain ⟨value, _, rfl⟩ := Option.map_eq_some_iff.mp hrecord
    exact .found hrecord hop hinner hundo
  · rw [leadingPuts_cons_of_ne hkey]
    apply Unwinds.after (.before hkey hop hinner) _ hundo
    rw [recordOf_key hrecord]
    exact hkey

/-- One operation that the write set does not know of. -/
theorem Unwinds.silent (hrecord : v.recordOf op = none) (hop : Ok v op.action)
    (hinner : Unwinds Ok key (v.step op.action) (leadingPuts key ops) v') :
    Unwinds Ok key v (leadingPuts key (op :: ops)) v' := by
  rcases op.cases_key key with ⟨value, rfl⟩ | rfl | hkey
  · cases hrecord
  · have hcount : leadingPuts key (.del key :: ops) = 0 := if_pos rfl
    rw [hcount]
    exact .absent hrecord hop hinner
  · rw [leadingPuts_cons_of_ne hkey]
    exact .before hkey hop hinner

/-- The transaction and its abort, as a key sees them that no other transaction touches. -/
theorem unwinds (hother : Untouched key calls gaps) (h : v.Along Ok (v.trail calls gaps)) :
    Unwinds Ok key v (leadingPuts key (ownOps calls)) (v.unwound calls gaps) := by
  induction calls generalizing v gaps with
  | nil =>
      apply (Unwinds.nil v).others gaps.flatten _ h
      intro call hmem
      obtain ⟨gap, hgap, hcall⟩ := List.mem_flatten.mp hmem
      exact hother.gaps gap hgap call hcall
  | cons call calls ih =>
      have hcalls (call' : OtherCall) (hmem : .other call' ∈ calls) : key ≠ call'.op.key :=
        hother.calls call' (by simp [hmem])
      cases call with
      | other call =>
          rw [trail_other] at h
          rw [unwound, trail_other]
          obtain ⟨hop, hrest⟩ := h
          exact .before (hother.calls call (by simp)) hop (ih ⟨hcalls, hother.gaps⟩ hrest)
      | own op =>
          cases hrecord : v.recordOf op with
          | none =>
              rw [trail_silent hrecord] at h
              rw [unwound, trail_silent hrecord]
              exact .silent hrecord h.1 (ih ⟨hcalls, hother.gaps⟩ h.2)
          | some r =>
              obtain ⟨before, after, rfl, htrail⟩ := trail_undone hrecord calls gaps
              rw [htrail] at h
              rw [unwound, htrail, List.foldl_cons, List.foldl_append, List.foldl_cons]
              obtain ⟨hop, hrest⟩ := h
              obtain ⟨hinner, hundo, hafter⟩ := (along_append _ _ _).mp hrest
              have hbefore : Untouched key calls before :=
                ⟨hcalls, fun gap hgap => hother.gaps gap (by simp [hgap])⟩
              apply (Unwinds.undone hrecord hop (ih hbefore hinner) hundo).others _ _ hafter
              intro call hmem
              obtain ⟨gap, hgap, hcall⟩ := List.mem_flatten.mp hmem
              exact hother.gaps gap (by simp [hgap]) call hcall

end Unwinding

section Room

/-- The operation writes no table. -/
def Roomy (v : StoreView) (action : KVStore.Action) : Prop :=
  KVStore.written v.memtable action = none

instance (v : StoreView) (action : KVStore.Action) : Decidable (v.Roomy action) :=
  inferInstanceAs (Decidable (KVStore.written v.memtable action = none))

theorem Roomy.put {value : Bytes} (h : v.Roomy (.put key value)) :
    v.step (.put key value) = { v with memtable := v.memtable.put key value } := by
  rcases v.put_cases key value with ⟨_, hkeep⟩ | ⟨hemptied, _⟩
  · exact hkeep
  · rw [KVStore.emptied, h] at hemptied
    cases hemptied

theorem Roomy.onDisk_put {value : Bytes} (h : v.Roomy (.put key value)) :
    (v.step (.put key value)).onDisk = v.onDisk := by
  rw [Roomy.put h]
  rfl

theorem Roomy.onDisk_step (h : v.Roomy op.action) : (v.step op.action).onDisk = v.onDisk := by
  cases op with
  | put key value => exact Roomy.onDisk_put h
  | del key => exact onDisk_del v key

theorem Roomy.memtable_step_of_ne (h : v.Roomy op.action) (hne : key ≠ op.key) :
    (v.step op.action).memtable.get key = v.memtable.get key := by
  cases op with
  | put key' value =>
      have hkey : ¬ key = key' := hne
      rw [TxnOp.action, Roomy.put h, SortedMap.get_put, if_neg hkey]
  | del key' => exact memtable_del_of_ne v hne

theorem Roomy.get_step_of_ne (h : v.Roomy op.action) (hne : key ≠ op.key) :
    (v.step op.action).get key = v.get key := by
  rw [StoreView.get, StoreView.get, h.memtable_step_of_ne hne, h.onDisk_step]

theorem Roomy.memtable_put {value : Bytes} (h : v.Roomy (.put key value)) :
    (v.step (.put key value)).memtable.get key = some value := by
  rw [Roomy.put h]
  exact SortedMap.get_put_self _ _ _

theorem Unwinds.onDisk (h : Unwinds Roomy key v n v') : v'.onDisk = v.onDisk := by
  induction h with
  | nil v => rfl
  | before _ hop _ ih => exact ih.trans hop.onDisk_step
  | after _ _ hop ih => exact hop.onDisk_step.trans ih
  | @put v v' n value hop _ _ ih =>
      exact (onDisk_del v' key).trans (ih.trans (Roomy.onDisk_put hop))
  | @found v v' n value _ _ _ hundo ih =>
      exact (Roomy.onDisk_put hundo).trans (ih.trans (onDisk_del v key))
  | absent _ _ _ ih => exact ih.trans (onDisk_del _ key)

/-- What the last round leaves of a put: a delete has been at it. -/
theorem Unwinds.memtable_put {value : Bytes} (hop : v.Roomy (.put key value))
    (h : Unwinds Roomy key (v.step (.put key value)) n v') :
    (v'.step (.del key)).memtable.get key =
      if v'.memtable.get key = none then (KVStore.visible (v.onDisk key)).map fun _ => []
      else none := by
  rw [step, memtable_del_self, h.onDisk, Roomy.onDisk_put hop]

/-- A key that is nowhere stays out of the memtable. -/
theorem Unwinds.memtable_absent (h : Unwinds Roomy key v n v')
    (hmem : v.memtable.get key = none) (hdisk : KVStore.visible (v.onDisk key) = none) :
    v'.memtable.get key = none := by
  induction h with
  | nil v => exact hmem
  | before hne hop _ ih =>
      apply ih
      · rw [hop.memtable_step_of_ne hne]
        exact hmem
      · rw [hop.onDisk_step]
        exact hdisk
  | after _ hne hop ih =>
      rw [hop.memtable_step_of_ne hne]
      exact ih hmem hdisk
  | put hop hinner _ _ =>
      rw [Unwinds.memtable_put hop hinner, hdisk]
      simp
  | found hrecord _ _ _ _ =>
      rw [recordOf, hmem, hdisk] at hrecord
      cases hrecord
  | absent _ _ _ ih =>
      apply ih
      · rw [step, memtable_del_self, hmem, hdisk]
        rfl
      · rw [step, onDisk_del]
        exact hdisk

/-- A key in the memtable comes back if it is not put again before a delete. -/
theorem Unwinds.memtable_present (h : Unwinds Roomy key v n v') {value : Bytes}
    (hmem : v.memtable.get key = some value) (hputs : n = 0) :
    v'.memtable.get key = some value := by
  induction h with
  | nil v => exact hmem
  | before hne hop _ ih =>
      apply ih _ hputs
      rw [hop.memtable_step_of_ne hne]
      exact hmem
  | after _ hne hop ih =>
      rw [hop.memtable_step_of_ne hne]
      exact ih hmem hputs
  | put => cases hputs
  | found hrecord _ _ hundo _ =>
      rw [recordOf, hmem] at hrecord
      cases hrecord
      exact Roomy.memtable_put hundo
  | absent hrecord _ _ _ =>
      rw [recordOf, hmem] at hrecord
      cases hrecord

/-- Each put before the first delete costs one delete. The first of these takes
the key out of the memtable, and the next ones alternate. -/
theorem Unwinds.memtable_leading (h : Unwinds Roomy key v n v') (hputs : n ≠ 0) :
    v'.memtable.get key =
      if n % 2 = 1 then none else (KVStore.visible (v.onDisk key)).map fun _ => [] := by
  induction h with
  | nil v => exact absurd rfl hputs
  | before hne hop _ ih => rw [ih hputs, hop.onDisk_step]
  | after _ hne hop ih =>
      rw [hop.memtable_step_of_ne hne]
      exact ih hputs
  | @put v v' n value hop hinner _ ih =>
      rw [Unwinds.memtable_put hop hinner]
      by_cases hzero : n = 0
      · have hpresent : v'.memtable.get key = some value :=
          hinner.memtable_present (Roomy.memtable_put hop) hzero
        simp [hpresent, hzero]
      · rw [ih hzero, Roomy.onDisk_put hop]
        -- a delete takes out the tombstone that the one before it has left
        rcases Nat.mod_two_eq_zero_or_one n with heven | hodd
        · have hnext : (n + 1) % 2 = 1 := by omega
          cases KVStore.visible (v.onDisk key) <;> simp [heven, hnext]
        · have hnext : ¬ (n + 1) % 2 = 1 := by omega
          simp [hodd, hnext]
  | found => exact absurd rfl hputs
  | absent => exact absurd rfl hputs

/-- If the first operation on the key is a delete, the key is restored. -/
theorem Unwinds.get_of_no_put (h : Unwinds Roomy key v n v') (hputs : n = 0) :
    v'.get key = v.get key := by
  induction h with
  | nil v => rfl
  | before hne hop _ ih => exact (ih hputs).trans (hop.get_step_of_ne hne)
  | after _ hne hop ih => exact (hop.get_step_of_ne hne).trans (ih hputs)
  | put => cases hputs
  | @found v v' n value hrecord hop hinner hundo _ =>
      have hdisk : (v'.step (.put key value)).onDisk = v.onDisk :=
        (Unwinds.found hrecord hop hinner hundo).onDisk
      rw [StoreView.get, StoreView.get, Roomy.memtable_put hundo, hdisk, Option.some_or]
      rw [recordOf, Option.map_eq_some_iff] at hrecord
      obtain ⟨old, hold, heq⟩ := hrecord
      cases heq
      cases hmem : v.memtable.get key with
      | some current =>
          rw [hmem, Option.some_or] at hold
          rw [Option.some_or, hold]
      | none =>
          rw [hmem, Option.none_or] at hold
          rw [Option.none_or, ← hold, KVStore.visible_visible]
  | @absent v v' n hrecord hop hinner _ =>
      rw [recordOf, Option.map_eq_none_iff, Option.or_eq_none_iff] at hrecord
      obtain ⟨hmem, hdisk⟩ := hrecord
      have hnone : (v.step (.del key)).memtable.get key = none := by
        rw [step, memtable_del_self, hmem, hdisk]
        rfl
      have hdel : KVStore.visible ((v.step (.del key)).onDisk key) = none := by
        rw [step, onDisk_del]
        exact hdisk
      rw [StoreView.get, StoreView.get, hinner.onDisk, hinner.memtable_absent hnone hdel, hmem,
        Option.none_or, Option.none_or, hdel, hdisk]

/-- What the key reads after an abort without overflows. -/
theorem Unwinds.get (h : Unwinds Roomy key v n v') :
    v'.get key =
      if n = 0 then v.get key
      else if n % 2 = 1 then KVStore.visible (v.onDisk key)
      else none := by
  by_cases hputs : n = 0
  · rw [if_pos hputs, h.get_of_no_put hputs]
  · rw [if_neg hputs, StoreView.get, h.memtable_leading hputs, h.onDisk]
    split
    · rfl
    · exact KVStore.visible_tombstone (v.onDisk key)

end Room

section Clean

/-- The operation meets the conditions under which the store keeps what was written under
the key and what was deleted: a delete does not take it out of the memtable where disk still
shows it, and no memtable goes to disk behind another value of it. -/
def Clean (key : Bytes) (v : StoreView) : KVStore.Action → Prop
  | .del key' =>
      key = key' → v.memtable.contains key = true → KVStore.visible (v.onDisk key) = none
  | action => ∀ m ∈ KVStore.emptied v.memtable action, ∀ value ∈ m.get key,
      ∀ old ∈ v.onDisk key, old = value

instance (key : Bytes) (v : StoreView) : DecidablePred (v.Clean key)
  | .del key' => inferInstanceAs (Decidable (key = key' →
      v.memtable.contains key = true → KVStore.visible (v.onDisk key) = none))
  | .put key' value => inferInstanceAs (Decidable
      (∀ m ∈ KVStore.emptied v.memtable (.put key' value), ∀ value ∈ m.get key,
        ∀ old ∈ v.onDisk key, old = value))
  | .flush => inferInstanceAs (Decidable
      (∀ m ∈ KVStore.emptied v.memtable .flush, ∀ value ∈ m.get key,
        ∀ old ∈ v.onDisk key, old = value))
  | .reopen => inferInstanceAs (Decidable
      (∀ m ∈ KVStore.emptied v.memtable .reopen, ∀ value ∈ m.get key,
        ∀ old ∈ v.onDisk key, old = value))

/-- Under these conditions an overflow is invisible. -/
theorem Clean.get_put {key' value : Bytes} (h : Clean key v (.put key' value)) :
    (v.step (.put key' value)).get key =
      if key = key' then KVStore.visible (some value) else v.get key := by
  have hmem := v.memtable.get_put key' key value
  rcases v.put_cases key' value with ⟨_, hkeep⟩ | ⟨hemptied, hspill⟩
  · rw [step, hkeep, StoreView.get, hmem]
    by_cases hkey : key = key'
    · simp [hkey]
    · simp [hkey, StoreView.get]
  · have hfresh := h _ hemptied
    rw [step, StoreView.get, hspill.memtable key, Option.none_or, hspill.disk key]
    rw [hmem] at hfresh ⊢
    by_cases hkey : key = key'
    · rw [if_pos hkey] at hfresh ⊢
      rw [if_pos hkey]
      cases hdisk : v.onDisk key with
      | none => rfl
      | some old => rw [Option.some_or, hfresh value rfl old hdisk]
    · rw [if_neg hkey] at hfresh ⊢
      rw [if_neg hkey, StoreView.get]
      cases hget : v.memtable.get key with
      | none => rw [Option.or_none, Option.none_or]
      | some current =>
          cases hdisk : v.onDisk key with
          | none => rfl
          | some old => rw [Option.some_or, Option.some_or, hfresh current hget old hdisk]

theorem Clean.get_del {key' : Bytes} (h : Clean key v (.del key')) :
    (v.step (.del key')).get key = if key = key' then none else v.get key := by
  rw [step, StoreView.get, onDisk_del]
  by_cases hkey : key = key'
  · subst hkey
    rw [if_pos rfl, memtable_del_self]
    cases hmem : v.memtable.get key with
    | some value => exact h rfl (by simp [SortedMap.contains, hmem])
    | none => exact KVStore.visible_tombstone (v.onDisk key)
  · rw [if_neg hkey, memtable_del_of_ne v hkey, StoreView.get]

theorem Clean.get_step_of_ne (h : Clean key v op.action) (hne : key ≠ op.key) :
    (v.step op.action).get key = v.get key := by
  cases op with
  | put key' value => exact (Clean.get_put h).trans (if_neg hne)
  | del key' => exact (Clean.get_del h).trans (if_neg hne)

/-- The value of a recorded delete is the one that was read before it. -/
theorem get_eq_visible_recordOf (v : StoreView) (key : Bytes) :
    v.get key = KVStore.visible ((v.memtable.get key).or (KVStore.visible (v.onDisk key))) := by
  rw [StoreView.get]
  cases v.memtable.get key with
  | some value => rfl
  | none => rw [Option.none_or, Option.none_or, KVStore.visible_visible]

/-- What the key reads after an abort without defects. -/
theorem Unwinds.get_of_clean (h : Unwinds (Clean key) key v n v') :
    v'.get key = if n = 0 then v.get key else none := by
  induction h with
  | nil v => rfl
  | before hne hop _ ih => rw [ih, hop.get_step_of_ne hne]
  | after _ hne hop ih => rw [hop.get_step_of_ne hne, ih]
  | put _ _ hundo _ => exact (Clean.get_del hundo).trans (if_pos rfl)
  | @found v v' n value hrecord _ _ hundo _ =>
      rw [recordOf, Option.map_eq_some_iff] at hrecord
      obtain ⟨old, hold, heq⟩ := hrecord
      cases heq
      rw [if_pos rfl, get_eq_visible_recordOf v, hold]
      exact (Clean.get_put hundo).trans (if_pos rfl)
  | @absent v v' n hrecord hop _ ih =>
      rw [recordOf, Option.map_eq_none_iff] at hrecord
      have hdel : (v.step (.del key)).get key = none := (Clean.get_del hop).trans (if_pos rfl)
      rw [hdel, ite_self] at ih
      rw [if_pos rfl, get_eq_visible_recordOf v, hrecord, ih]
      rfl

end Clean

/-- No overflow: the value that the key had is the one that as many deletes as
there are leading puts leave visible. -/
def Restorable (v : StoreView) (ops : List TxnOp) (key : Bytes) : Prop :=
  leadingPuts key ops ≠ 0 → v.get key =
    if leadingPuts key ops % 2 = 1 then KVStore.visible (v.onDisk key) else none

instance (v : StoreView) (ops : List TxnOp) : Decidable (∀ key, v.Restorable ops key) :=
  decidable_of_iff (∀ op ∈ ops, leadingPuts op.key ops ≠ 0 → v.get op.key =
      if leadingPuts op.key ops % 2 = 1 then KVStore.visible (v.onDisk op.key) else none) (by
    constructor
    · intro h key hputs
      obtain ⟨op, hmem, rfl⟩ := exists_of_leadingPuts hputs
      exact h op hmem hputs
    · intro h op _
      exact h op.key)

/-- No defect of the store is met: keys that are first put were absent. -/
def FirstPutsFresh (v : StoreView) (ops : List TxnOp) (key : Bytes) : Prop :=
  leadingPuts key ops ≠ 0 → v.get key = none

end StoreView

namespace TxnStore

variable {snappy : Snappy} {s : TxnStore} {v : StoreView} {calls : List TxnCall}
  {gaps : List (List OtherCall)}

/-- When an abort restores a key that no other transaction touches. -/
theorem abort_restores_iff (enableLogging : Bool) (hrep : s.kv.Represents snappy v)
    (hnew : s.writeSet = []) (hfits : v.Along (TablesFit snappy) (v.trail calls gaps)) :
    ∃ mid s', s.performAll snappy enableLogging calls = some mid ∧
      mid.abortSingle snappy enableLogging gaps = some s' ∧
      ∀ key, Untouched key calls gaps →
        (v.Along StoreView.Roomy (v.trail calls gaps) →
          (s'.kv.get snappy key = s.kv.get snappy key ↔ v.Restorable (ownOps calls) key)) ∧
        (v.Along (StoreView.Clean key) (v.trail calls gaps) →
          (s'.kv.get snappy key = s.kv.get snappy key ↔
            v.FirstPutsFresh (ownOps calls) key)) := by
  obtain ⟨mid, s', hall, habort, hrep'⟩ :=
    abort_represents enableLogging calls gaps hrep hnew hfits
  refine ⟨mid, s', hall, habort, ?_⟩
  intro key hother
  constructor
  · intro hroomy
    have hunwinds := StoreView.unwinds hother hroomy
    rw [hrep'.get, hrep.get, hunwinds.get, Option.some.injEq, ite_eq_left_iff]
    exact forall_congr' fun _ => eq_comm
  · intro hclean
    have hunwinds := StoreView.unwinds hother hclean
    rw [hrep'.get, hrep.get, hunwinds.get_of_clean, Option.some.injEq, ite_eq_left_iff]
    exact forall_congr' fun _ => eq_comm

/-- The store as a transaction with number 1 finds it. -/
def start (kv : KVStore) : TxnStore := ⟨kv, ⟨0, []⟩, 1, invalidLsn, []⟩

/-- One key on disk, one in the memtable. -/
def twoKeys : List KVStore.Action := [.put [107] [49], .reopen, .put [108] [50]]

/-- The first is overwritten, the second deleted and put again. Transaction 2 writes in
between. -/
def overwriteAndDelete : List TxnCall :=
  [.own (.put [107] [51]), .other ⟨2, invalidLsn, .put [109] [53]⟩, .own (.del [108]),
    .own (.put [108] [52])]

/-- Transaction 2 goes on in front of the second round of the abort. -/
def secondRound : List (List OtherCall) := [[], [⟨2, 1, .del [109]⟩, ⟨2, 2, .put [110] [54]⟩]]

theorem overwriteAndDelete_restored : ∃ kv mid s', kv.Represents .literal (.after twoKeys) ∧
    (start kv).performAll .literal true overwriteAndDelete = some mid ∧
    mid.abortSingle .literal true secondRound = some s' ∧
    ∀ key, key ≠ [109] → key ≠ [110] → s'.kv.get .literal key = kv.get .literal key := by
  have htables : StoreView.init.Along (fun v action =>
      (∀ m ∈ KVStore.written v.memtable action, SSTable.Fits .literal m) ∧ True) twoKeys := by
    decide +kernel
  obtain ⟨_, kv, _, _, hrep⟩ := (KVStore.represents_init .literal).exists_run
    (fun _ _ => True) (fun _ _ _ _ hok => hok) htables
  have hroomy : (StoreView.after twoKeys).Along StoreView.Roomy
      ((StoreView.after twoKeys).trail overwriteAndDelete secondRound) := by
    decide +kernel
  have hfits : (StoreView.after twoKeys).Along (TablesFit .literal)
      ((StoreView.after twoKeys).trail overwriteAndDelete secondRound) := by
    decide +kernel
  have hrestorable : ∀ key, (StoreView.after twoKeys).Restorable (ownOps overwriteAndDelete) key := by
    decide +kernel
  obtain ⟨mid, s', hall, habort, hiff⟩ :=
    abort_restores_iff (s := start kv) true hrep rfl hfits
  refine ⟨kv, mid, s', hrep, hall, habort, ?_⟩
  intro key hne hne'
  have hother : Untouched key overwriteAndDelete secondRound := by
    constructor
    · simp [overwriteAndDelete, TxnOp.key, hne]
    · simp [secondRound, TxnOp.key, hne, hne']
  exact ((hiff key hother).1 hroomy).mpr (hrestorable key)

/-- A value in the memtable is overwritten, and the abort deletes the key. -/
theorem overwritten_value_lost : ∃ kv mid s',
    (KVStore.ofDirectory .empty).put .literal [107] [49] = some kv ∧
    (start kv).performAll .literal true [.own (.put [107] [50])] = some mid ∧
    mid.abortSingle .literal true [] = some s' ∧
    kv.get .literal [107] = some (some [49]) ∧ s'.kv.get .literal [107] = some none :=
  ⟨_, _, _, rfl, rfl, rfl, by decide +kernel, by decide +kernel⟩

end TxnStore

end RucDDBS
