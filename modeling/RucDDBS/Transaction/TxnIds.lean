import RucDDBS.Library.Run
import RucDDBS.Transaction.Types
import Mathlib.Logic.Function.Basic

/-!
Where the id of a transaction comes from. `Begin` takes a timestamp of the meta
server and puts the new object into `txn_map` under it. `getTimestampFromServer`
has no way to report a failure: if the channel cannot be set up the caller gets
`-1`, and if the call fails, or the oracle gives up, it gets 0. `Begin` uses
these numbers like any other, so the transactions that begin during one outage
all have the same id.
-/

namespace RucDDBS

/-- How a call of `getTimestampFromServer` goes. -/
inductive TimestampReply where
  /-- `channel.Init` fails -/
  | initFailed
  /-- the call fails and the response stays empty -/
  | rpcFailed
  /-- the oracle has used up its retries -/
  | gaveUp
  | answered (timestamp : UInt64)
  deriving DecidableEq, Repr

def getTimestampFromServer : TimestampReply → TxnId
  | .initFailed => -1
  | .rpcFailed | .gaveUp => 0
  | .answered timestamp => timestamp

/-- The address of a `Transaction` object: objects are numbered in the order in
which `Begin` creates them. -/
abbrev TxnRef := Nat

/-- The transactions of a node. `live` are the objects that have begun and not
finished, each with its `txn_id_`, and `begun` has the ids of all objects. -/
structure TxnTable where
  txnMap : TxnId → Option TxnRef
  live : List (TxnRef × TxnId)
  begun : List TxnId

namespace TxnTable

def init : TxnTable := ⟨fun _ => none, [], []⟩

inductive Action where
  | begin (reply : TimestampReply)
  | finish (txn : TxnRef)
  deriving DecidableEq, Repr

/-- `began` says which object was in the map under the id before. -/
inductive Event where
  | began (txn : TxnRef) (id : TxnId) (replaced : Option TxnRef)
  | finished (id : TxnId)
  deriving DecidableEq, Repr

/-- `Begin` with `txn == nullptr`. -/
def begin (s : TxnTable) (id : TxnId) : TxnTable :=
  { txnMap := Function.update s.txnMap id (some s.begun.length)
    live := (s.begun.length, id) :: s.live
    begun := s.begun ++ [id] }

/-- `CommitSingle` and `AbortSingle` erase the id of their object. -/
def finish (s : TxnTable) (txn : TxnRef) (id : TxnId) : TxnTable :=
  { s with
    txnMap := Function.update s.txnMap id none
    live := s.live.filter fun t => t.1 ≠ txn }

def step (s : TxnTable) : Action → Option (TxnTable × Event)
  | .begin reply =>
      let id := getTimestampFromServer reply
      some (s.begin id, .began s.begun.length id (s.txnMap id))
  | .finish txn => do
      let id ← s.live.lookup txn
      pure (s.finish txn id, .finished id)

/-- A successful answer is a number that no transaction has had. -/
def FreshAnswer (s : TxnTable) : Action → Prop
  | .begin (.answered timestamp) => timestamp ∉ s.begun
  | .begin _ | .finish _ => True

instance (s : TxnTable) : DecidablePred s.FreshAnswer
  | .begin (.answered timestamp) => inferInstanceAs (Decidable (timestamp ∉ s.begun))
  | .begin .initFailed | .begin .rpcFailed | .begin .gaveUp | .finish _ => .isTrue trivial

/-- A `Begin` that gets no timestamp finds the number it gets instead free. -/
def FailureFree (s : TxnTable) : Action → Prop
  | .begin (.answered _) | .finish _ => True
  | .begin reply => s.txnMap (getTimestampFromServer reply) = none

instance (s : TxnTable) : DecidablePred s.FailureFree
  | .begin .initFailed => inferInstanceAs (Decidable (s.txnMap (-1) = none))
  | .begin .rpcFailed | .begin .gaveUp => inferInstanceAs (Decidable (s.txnMap 0 = none))
  | .begin (.answered _) | .finish _ => .isTrue trivial

def Step (s : TxnTable) (label : Action × Event) (t : TxnTable) : Prop :=
  s.FreshAnswer label.1 ∧ Lts.Steps step s label t

def FailureFreeStep (s : TxnTable) (label : Action × Event) (t : TxnTable) : Prop :=
  s.FailureFree label.1 ∧ Step s label t

/-- The step is no `Begin`, or one that inserts under an id that was not there. -/
def Event.Inserts : Event → Prop
  | .began _ _ replaced => replaced = none
  | .finished _ => True

/-- Running transactions have different ids, and the map leads to each of them. -/
structure Distinct (s : TxnTable) : Prop where
  ids : ∀ t ∈ s.live, ∀ t' ∈ s.live, t.2 = t'.2 → t = t'
  found : ∀ t ∈ s.live, s.txnMap t.2 = some t.1

variable {s t : TxnTable} {label : Action × Event} {trace : List (Action × Event)}

theorem step_cases (hstep : Lts.Steps step s label t) :
    (∃ reply, label = (.begin reply, .began s.begun.length (getTimestampFromServer reply)
        (s.txnMap (getTimestampFromServer reply))) ∧
      t = s.begin (getTimestampFromServer reply)) ∨
    (∃ txn id, label = (.finish txn, .finished id) ∧ s.live.lookup txn = some id ∧
      t = s.finish txn id) := by
  obtain ⟨action, event⟩ := label
  cases action with
  | begin reply =>
      left
      simp only [Lts.Steps, step, Option.some.injEq, Prod.mk.injEq] at hstep
      obtain ⟨rfl, rfl⟩ := hstep
      exact ⟨reply, rfl, rfl⟩
  | finish txn =>
      right
      simp only [Lts.Steps, step, Option.bind_eq_bind, Option.bind_eq_some_iff, Option.pure_def,
        Option.some.injEq, Prod.mk.injEq] at hstep
      obtain ⟨id, hlive, rfl, rfl⟩ := hstep
      exact ⟨txn, id, rfl, hlive, rfl⟩

/-- Every id in the map has been begun. -/
def Begun (s : TxnTable) : Prop := ∀ id, s.txnMap id ≠ none → id ∈ s.begun

theorem begun_init : init.Begun := by
  simp [Begun, init]

theorem Begun.step (h : s.Begun) (hstep : Lts.Steps step s label t) : t.Begun := by
  intro id' hid'
  rcases step_cases hstep with ⟨reply, rfl, rfl⟩ | ⟨txn, id, rfl, _, rfl⟩
  · by_cases heq : id' = getTimestampFromServer reply
    · simp [TxnTable.begin, heq]
    · simp only [TxnTable.begin, Function.update_of_ne heq] at hid'
      exact List.mem_append_left _ (h id' hid')
  · by_cases heq : id' = id
    · simp [TxnTable.finish, heq] at hid'
    · simp only [TxnTable.finish, Function.update_of_ne heq] at hid'
      exact h id' hid'

/-- The new entry of a `Begin` takes the place of another one exactly if no
timestamp was had and the failure value is in use. -/
theorem failureFree_iff_inserts (h : s.Begun) (hstep : Step s label t) :
    s.FailureFree label.1 ↔ label.2.Inserts := by
  obtain ⟨hfresh, hstep⟩ := hstep
  rcases step_cases hstep with ⟨reply, rfl, rfl⟩ | ⟨txn, id, rfl, _, rfl⟩
  · cases reply with
    | initFailed | rpcFailed | gaveUp => exact Iff.rfl
    | answered timestamp =>
        have hnone : s.txnMap timestamp = none := by
          by_contra hsome
          exact hfresh (h timestamp hsome)
        exact ⟨fun _ => hnone, fun _ => trivial⟩
  · exact Iff.rfl

theorem distinct_init : init.Distinct where
  ids := by simp [init]
  found := by simp [init]

theorem Distinct.begin (h : s.Distinct) {id : TxnId} (hfree : s.txnMap id = none) :
    (s.begin id).Distinct := by
  have hother : ∀ t ∈ s.live, t.2 ≠ id := by
    rintro t ht rfl
    rw [h.found t ht] at hfree
    cases hfree
  constructor
  · intro t ht t' ht' heq
    rcases List.mem_cons.mp ht with rfl | hold
    · rcases List.mem_cons.mp ht' with rfl | hold'
      · rfl
      · exact absurd heq.symm (hother t' hold')
    · rcases List.mem_cons.mp ht' with rfl | hold'
      · exact absurd heq (hother t hold)
      · exact h.ids t hold t' hold' heq
  · intro t ht
    rcases List.mem_cons.mp ht with rfl | hold
    · simp [TxnTable.begin]
    · simp only [TxnTable.begin, Function.update_of_ne (hother t hold)]
      exact h.found t hold

theorem Distinct.finish (h : s.Distinct) {txn : TxnRef} {id : TxnId}
    (hlive : s.live.lookup txn = some id) : (s.finish txn id).Distinct := by
  obtain ⟨front, back, hsplit, _⟩ := List.lookup_eq_some_iff.mp hlive
  have hmem : (txn, id) ∈ s.live := by
    rw [hsplit]
    simp
  constructor
  · intro t ht t' ht' heq
    exact h.ids t (List.mem_filter.mp ht).1 t' (List.mem_filter.mp ht').1 heq
  · intro t ht
    obtain ⟨hold, hne⟩ := List.mem_filter.mp ht
    have hid : t.2 ≠ id := by
      intro heq
      rw [h.ids t hold (txn, id) hmem heq] at hne
      simp at hne
    simp only [TxnTable.finish, Function.update_of_ne hid]
    exact h.found t hold

theorem Distinct.step (h : s.Distinct) (hbegun : s.Begun) (hstep : FailureFreeStep s label t) :
    t.Distinct := by
  obtain ⟨hfree, hstep⟩ := hstep
  have hinserts := (failureFree_iff_inserts hbegun hstep).mp hfree
  rcases step_cases hstep.2 with ⟨reply, rfl, rfl⟩ | ⟨txn, id, rfl, hlive, rfl⟩
  · exact h.begin hinserts
  · exact h.finish hlive

theorem distinct_of_failureFree (hrun : Lts.Run FailureFreeStep init trace s) : s.Distinct := by
  refine (hrun.preserves (fun s => s.Begun ∧ s.Distinct) ?_ ⟨begun_init, distinct_init⟩).2
  rintro s label t hstep ⟨hbegun, h⟩
  exact ⟨hbegun.step hstep.2.2, h.step hbegun hstep⟩

/-- Whatever fails and however often: no `Begin` of the run replaces an entry
exactly if each failing one finds its failure value unused, and the running
transactions then have different ids. -/
theorem live_ids_distinct_iff (hrun : Lts.Run Step init trace s) :
    ((∀ label ∈ trace, label.2.Inserts) ↔ Lts.Run FailureFreeStep init trace s) ∧
      ((∀ label ∈ trace, label.2.Inserts) → s.Distinct) := by
  have hiff : (∀ label ∈ trace, label.2.Inserts) ↔ Lts.Run FailureFreeStep init trace s :=
    hrun.labels_iff Begun (fun label => label.2.Inserts) (fun s label => s.FailureFree label.1)
      (fun _ _ _ hstep h => h.step hstep.2)
      (fun _ _ _ h hstep => failureFree_iff_inserts h hstep) begun_init
  exact ⟨hiff, fun h => distinct_of_failureFree (hiff.mp h)⟩

/-- Two outages, one after the other: the transaction of the first one has
finished when the second one comes. A third transaction runs all the time. -/
def outages : List (Action × Event) :=
  [(.begin (.answered 7), .began 0 7 none), (.begin .rpcFailed, .began 1 0 none),
    (.begin .initFailed, .began 2 (-1) none), (.finish 1, .finished 0),
    (.begin .gaveUp, .began 3 0 none), (.begin (.answered 8), .began 4 8 none)]

theorem outages_distinct : ∃ s, Lts.Run Step init outages s ∧ s.Distinct := by
  obtain ⟨s, hrun⟩ : ∃ s, Lts.Run Step init outages s :=
    Lts.run_of_exec_when outages (by decide +kernel)
  have hinserts : ∀ label ∈ outages, label.2.Inserts := by
    simp [outages, Event.Inserts]
  exact ⟨s, hrun, (live_ids_distinct_iff hrun).2 hinserts⟩

/-- Two transactions begin while the timestamp call fails. -/
def oneOutage : List (Action × Event) :=
  [(.begin .rpcFailed, .began 0 0 none), (.begin .rpcFailed, .began 1 0 (some 0))]

/-- Both have the id 0, and the first one is no longer in the map. -/
theorem oneOutage_replaces : ∃ s, Lts.Run Step init oneOutage s ∧
    ¬ (∀ label ∈ oneOutage, label.2.Inserts) ∧
    s.live = [(1, 0), (0, 0)] ∧ s.txnMap 0 = some 1 := by
  refine ⟨(init.begin 0).begin 0, ?_, ?_, rfl, rfl⟩
  · exact .cons ⟨trivial, rfl⟩ (.cons ⟨trivial, rfl⟩ (.nil _))
  · simp [oneOutage, Event.Inserts]

end TxnTable

end RucDDBS
