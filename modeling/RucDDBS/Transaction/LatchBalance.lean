import RucDDBS.Transaction.CommitProtocol
import RucDDBS.Transaction.TxnStore
import Mathlib.Data.Finset.Card

/-!
The accounting of a node. `Begin` takes a shared hold on `global_txn_latch_` and
enters the transaction into `txn_map`; `CommitSingle` and `AbortSingle` erase the
entry and give the hold back. A handler looks the transaction up under the mutex
of the map, leaves it, and works on the pointer afterwards. Neither of the two
functions asks whether the entry is still there, so two handlers that have found
the same transaction finish it twice.
-/

namespace RucDDBS

/-- The transactions of a node. A handler in progress is a thread with the
function it is about to run and the transaction it has found; `begun` has every
id that was ever begun. -/
structure TxnNode where
  txnMap : Finset TxnId
  sharedHolds : Int
  state : TxnId → TransactionState
  writeSet : TxnId → List WriteRecord
  handlers : Nat → Option (RequestKind × TxnId)
  begun : Finset TxnId

namespace TxnNode

def init : TxnNode where
  txnMap := ∅
  sharedHolds := 0
  state := fun _ => .default
  writeSet := fun _ => []
  handlers := fun _ => none
  begun := ∅

/-- `write` and `setState` stand for the operations of a transaction and for the
lock manager, which can change its state. -/
inductive Action where
  | begin (txn : TxnId)
  | write (txn : TxnId) (record : WriteRecord)
  | setState (txn : TxnId) (state : TransactionState)
  | request (thread : Nat) (kind : RequestKind) (txn : TxnId)
  | run (thread : Nat) (appended : Bool)
  deriving DecidableEq, Repr

/-- `committed` and `aborted` finish a transaction; `listed` says whether
`txn_map.erase` has found an entry. -/
inductive Event where
  | silent
  | began (txn : TxnId)
  | found (txn : TxnId)
  | answered (ok : Bool)
  | committed (txn : TxnId) (listed : Bool)
  | aborted (txn : TxnId) (listed : Bool) (undone : List WriteRecord)
  deriving DecidableEq, Repr

def begin (s : TxnNode) (txn : TxnId) : TxnNode :=
  { s with
    txnMap := insert txn s.txnMap
    sharedHolds := s.sharedHolds + 1
    begun := insert txn s.begun }

/-- The last lines of `CommitSingle` and `AbortSingle`. -/
def finish (s : TxnNode) (txn : TxnId) : TxnNode :=
  { s with
    txnMap := s.txnMap.erase txn
    sharedHolds := s.sharedHolds - 1 }

def setHandler (s : TxnNode) (thread : Nat) (handler : Option (RequestKind × TxnId)) : TxnNode :=
  { s with handlers := Function.update s.handlers thread handler }

def setState (s : TxnNode) (txn : TxnId) (state : TransactionState) : TxnNode :=
  { s with state := Function.update s.state txn state }

def setWriteSet (s : TxnNode) (txn : TxnId) (records : List WriteRecord) : TxnNode :=
  { s with writeSet := Function.update s.writeSet txn records }

def prepareCommit (enableLogging appended : Bool) (s : TxnNode) (txn : TxnId) : TxnNode × Bool :=
  let (p, ok) := Participant.prepareCommit enableLogging appended ⟨s.state txn, true⟩
  (s.setState txn p.state, ok)

/-- `none` if `CommitSingle` returns false. -/
def commitSingle (s : TxnNode) (txn : TxnId) : Option TxnNode :=
  if s.state txn = .aborted then none else some ((s.setState txn .committed).finish txn)

/-- The write set is gone through from its end. -/
def abortSingle (s : TxnNode) (txn : TxnId) : TxnNode × List WriteRecord :=
  ((s.setWriteSet txn []).finish txn, (s.writeSet txn).reverse)

/-- The second part of a handler. -/
def runHandler (enableLogging appended : Bool) (s : TxnNode) (txn : TxnId) :
    RequestKind → TxnNode × Event
  | .prepare =>
      let (s', ok) := s.prepareCommit enableLogging appended txn
      (s', .answered ok)
  | .commit =>
      match s.commitSingle txn with
      | some s' => (s', .committed txn (decide (txn ∈ s.txnMap)))
      | none => (s, .answered false)
  | .abort =>
      let (s', undone) := s.abortSingle txn
      (s', .aborted txn (decide (txn ∈ s.txnMap)) undone)

def step (enableLogging : Bool) (s : TxnNode) : Action → Option (TxnNode × Event)
  | .begin txn => some (s.begin txn, .began txn)
  | .write txn record => some (s.setWriteSet txn (s.writeSet txn ++ [record]), .silent)
  | .setState txn state => some (s.setState txn state, .silent)
  | .request thread kind txn =>
      if s.handlers thread ≠ none then none
      else if txn ∈ s.txnMap then some (s.setHandler thread (some (kind, txn)), .found txn)
      else some (s, .answered false)
  | .run thread appended => do
      let (kind, txn) ← s.handlers thread
      let (s', event) := s.runHandler enableLogging appended txn kind
      pure (s'.setHandler thread none, event)

/-- `Begin` is given an id that no transaction of the node has had. -/
def FreshId (s : TxnNode) : Action → Prop
  | .begin txn => txn ∉ s.begun
  | _ => True

instance (s : TxnNode) : DecidablePred s.FreshId
  | .begin txn => inferInstanceAs (Decidable (txn ∉ s.begun))
  | .write _ _ | .setState _ _ | .request _ _ _ | .run _ _ => .isTrue trivial

/-- What the handler is about to finish. -/
def finishes (s : TxnNode) (thread : Nat) : Option TxnId :=
  match s.handlers thread with
  | some (.commit, txn) => if s.state txn = .aborted then none else some txn
  | some (.abort, txn) => some txn
  | some (.prepare, _) | none => none

/-- A handler finishes its transaction only while `txn_map` still has it. -/
def StillListed (s : TxnNode) : Action → Prop
  | .run thread _ => ∀ txn ∈ s.finishes thread, txn ∈ s.txnMap
  | _ => True

instance (s : TxnNode) : DecidablePred s.StillListed
  | .run thread _ => inferInstanceAs (Decidable (∀ txn ∈ s.finishes thread, txn ∈ s.txnMap))
  | .begin _ | .write _ _ | .setState _ _ | .request _ _ _ => .isTrue trivial

def Step (enableLogging : Bool) (s : TxnNode) (label : Action × Event) (t : TxnNode) : Prop :=
  s.FreshId label.1 ∧ Lts.Steps (step enableLogging) s label t

def ListedStep (enableLogging : Bool) (s : TxnNode) (label : Action × Event) (t : TxnNode) : Prop :=
  s.StillListed label.1 ∧ Step enableLogging s label t

/-- The transaction that a step has finished, and whether it was in the map. -/
def Event.finished : Event → Option (TxnId × Bool)
  | .committed txn listed | .aborted txn listed _ => some (txn, listed)
  | .silent | .began _ | .found _ | .answered _ => none

/-- The step has not finished a transaction that was no longer in the map. -/
def Event.Listed (event : Event) : Prop := ∀ txn, event.finished ≠ some (txn, false)

instance (event : Event) : Decidable event.Listed :=
  decidable_of_iff (event.finished.map Prod.snd ≠ some false) (by simp [Event.Listed])

/-- How often the steps of a run have finished `txn`. -/
def finishCount (txn : TxnId) (trace : List (Action × Event)) : Nat :=
  trace.countP fun label => (label.2.finished.map Prod.fst) = some txn

variable {enableLogging : Bool} {s t : TxnNode} {label : Action × Event}
  {trace : List (Action × Event)}

/-- What a step can do to the map and the latch. -/
inductive Effect (s : TxnNode) (label : Action × Event) (t : TxnNode) : Prop
  | began (txn : TxnId) (hfresh : txn ∉ s.begun) (hevent : label.2.finished = none)
      (hmap : t.txnMap = insert txn s.txnMap) (hholds : t.sharedHolds = s.sharedHolds + 1)
      (hbegun : t.begun = insert txn s.begun) (hhandlers : t.handlers = s.handlers)
      (hlisted : s.StillListed label.1)
  | found (thread : Nat) (kind : RequestKind) (txn : TxnId) (hmem : txn ∈ s.txnMap)
      (hevent : label.2.finished = none) (hmap : t.txnMap = s.txnMap)
      (hholds : t.sharedHolds = s.sharedHolds) (hbegun : t.begun = s.begun)
      (hhandlers : t.handlers = Function.update s.handlers thread (some (kind, txn)))
      (hlisted : s.StillListed label.1)
  | other (hevent : label.2.finished = none) (hmap : t.txnMap = s.txnMap)
      (hholds : t.sharedHolds = s.sharedHolds) (hbegun : t.begun = s.begun)
      (hhandlers : ∀ thread handler, t.handlers thread = some handler →
        s.handlers thread = some handler)
      (hlisted : s.StillListed label.1)
  | finished (thread : Nat) (kind : RequestKind) (txn : TxnId)
      (hhandler : s.handlers thread = some (kind, txn))
      (hevent : label.2.finished = some (txn, decide (txn ∈ s.txnMap)))
      (hmap : t.txnMap = s.txnMap.erase txn) (hholds : t.sharedHolds = s.sharedHolds - 1)
      (hbegun : t.begun = s.begun)
      (hhandlers : ∀ thread handler, t.handlers thread = some handler →
        s.handlers thread = some handler)
      (hlisted : s.StillListed label.1 ↔ txn ∈ s.txnMap)

theorem effect_of_request {thread : Nat} {kind : RequestKind} {txn : TxnId} {event : Event}
    (hstep : step enableLogging s (.request thread kind txn) = some (t, event)) :
    Effect s (.request thread kind txn, event) t := by
  simp only [step] at hstep
  split at hstep
  · cases hstep
  · split at hstep
    case isTrue hmem =>
      cases hstep
      exact .found thread kind txn hmem rfl rfl rfl rfl rfl trivial
    case isFalse =>
      cases hstep
      exact .other rfl rfl rfl rfl (fun _ _ h => h) trivial

theorem handlers_of_update (handlers : Nat → Option (RequestKind × TxnId)) (thread : Nat) :
    ∀ thread' handler, Function.update handlers thread none thread' = some handler →
      handlers thread' = some handler := by
  intro thread' handler hsome
  by_cases heq : thread' = thread
  · rw [heq, Function.update_self] at hsome
    cases hsome
  · rwa [Function.update_of_ne heq] at hsome

theorem effect_of_run {thread : Nat} {appended : Bool} {event : Event}
    (hstep : step enableLogging s (.run thread appended) = some (t, event)) :
    Effect s (.run thread appended, event) t := by
  simp only [step, Option.bind_eq_bind, Option.bind_eq_some_iff, Option.pure_def,
    Option.some.injEq, Prod.mk.injEq, Prod.exists] at hstep
  obtain ⟨kind, txn, hhandler, rfl, rfl⟩ := hstep
  have hcleared := handlers_of_update s.handlers thread
  cases kind with
  | prepare =>
      have hlisted : s.StillListed (.run thread appended) := by
        simp [StillListed, finishes, hhandler]
      exact .other rfl rfl rfl rfl hcleared hlisted
  | commit =>
      by_cases haborted : s.state txn = .aborted
      · have hlisted : s.StillListed (.run thread appended) := by
          simp [StillListed, finishes, hhandler, haborted]
        simp only [runHandler, commitSingle, haborted, if_true]
        exact .other rfl rfl rfl rfl hcleared hlisted
      · have hlisted : s.StillListed (.run thread appended) ↔ txn ∈ s.txnMap := by
          simp [StillListed, finishes, hhandler, haborted]
        simp only [runHandler, commitSingle, haborted, if_false]
        exact .finished thread .commit txn hhandler rfl rfl rfl rfl hcleared hlisted
  | abort =>
      have hlisted : s.StillListed (.run thread appended) ↔ txn ∈ s.txnMap := by
        simp [StillListed, finishes, hhandler]
      exact .finished thread .abort txn hhandler rfl rfl rfl rfl hcleared hlisted

theorem Step.effect (hstep : Step enableLogging s label t) : Effect s label t := by
  obtain ⟨hfresh, hstep⟩ := hstep
  obtain ⟨action, event⟩ := label
  cases action with
  | begin txn =>
      cases hstep
      exact .began txn hfresh rfl rfl rfl rfl rfl trivial
  | write txn record =>
      cases hstep
      exact .other rfl rfl rfl rfl (fun _ _ h => h) trivial
  | setState txn state =>
      cases hstep
      exact .other rfl rfl rfl rfl (fun _ _ h => h) trivial
  | request thread kind txn => exact effect_of_request hstep
  | run thread appended => exact effect_of_run hstep

/-- The side condition of a step can be read off its event. -/
theorem Effect.stillListed_iff (h : Effect s label t) :
    s.StillListed label.1 ↔ label.2.Listed := by
  cases h with
  | began txn _ hevent _ _ _ _ hlisted => simp [Event.Listed, hevent, hlisted]
  | found thread kind txn _ hevent _ _ _ _ hlisted => simp [Event.Listed, hevent, hlisted]
  | other hevent _ _ _ _ hlisted => simp [Event.Listed, hevent, hlisted]
  | finished thread kind txn _ hevent _ _ _ _ hlisted => simp [Event.Listed, hevent, hlisted]

/-- Entries of the map and handlers belong to transactions that have begun. -/
structure Known (s : TxnNode) : Prop where
  listed : s.txnMap ⊆ s.begun
  handled : ∀ thread kind txn, s.handlers thread = some (kind, txn) → txn ∈ s.begun

theorem known_init : init.Known where
  listed := by simp [init]
  handled := by simp [init]

theorem Known.step (h : s.Known) (heffect : Effect s label t) : t.Known := by
  cases heffect with
  | began txn _ _ hmap _ hbegun hhandlers _ =>
      constructor
      · rw [hmap, hbegun]
        exact Finset.insert_subset_insert _ h.listed
      · intro thread kind txn' hhandler
        rw [hhandlers] at hhandler
        rw [hbegun]
        exact Finset.mem_insert_of_mem (h.handled thread kind txn' hhandler)
  | found thread kind txn hmem _ hmap _ hbegun hhandlers _ =>
      constructor
      · rw [hmap, hbegun]
        exact h.listed
      · intro thread' kind' txn' hhandler
        rw [hbegun]
        rw [hhandlers] at hhandler
        by_cases heq : thread' = thread
        · rw [heq, Function.update_self] at hhandler
          cases hhandler
          exact h.listed hmem
        · rw [Function.update_of_ne heq] at hhandler
          exact h.handled thread' kind' txn' hhandler
  | other _ hmap _ hbegun hhandlers _ =>
      constructor
      · rw [hmap, hbegun]
        exact h.listed
      · intro thread kind txn hhandler
        rw [hbegun]
        exact h.handled thread kind txn (hhandlers thread _ hhandler)
  | finished _ _ txn _ _ hmap _ hbegun hhandlers _ =>
      constructor
      · rw [hmap, hbegun]
        exact (Finset.erase_subset _ _).trans h.listed
      · intro thread kind txn' hhandler
        rw [hbegun]
        exact h.handled thread kind txn' (hhandlers thread _ hhandler)

/-- How often the steps of a run have finished a transaction that was no longer
in the map. -/
def unlistedCount (trace : List (Action × Event)) : Nat :=
  trace.countP fun label => ¬ label.2.Listed

/-- A transaction that has begun and left the map was finished once while it was
listed; every finish beyond that is one that the latch pays for. -/
structure Accounted (past : List (Action × Event)) (s : TxnNode) : Prop where
  known : s.Known
  holds : s.sharedHolds + unlistedCount past = s.txnMap.card
  gone : ∀ txn ∈ s.begun, txn ∉ s.txnMap → 1 ≤ finishCount txn past
  once : unlistedCount past = 0 → ∀ txn, finishCount txn past ≤ 1 ∧
    (txn ∈ s.txnMap ∨ txn ∉ s.begun → finishCount txn past = 0)
  twice : 0 < unlistedCount past → ∃ txn, 2 ≤ finishCount txn past

theorem accounted_init : Accounted [] init where
  known := known_init
  holds := by simp [init, unlistedCount]
  gone := by simp [init]
  once := by simp [finishCount]
  twice := by simp [unlistedCount]

@[simp] theorem finishCount_append (txn : TxnId) (past : List (Action × Event)) :
    finishCount txn (past ++ [label]) =
      finishCount txn past + if label.2.finished.map Prod.fst = some txn then 1 else 0 := by
  simp [finishCount, List.countP_append, List.countP_singleton]

@[simp] theorem unlistedCount_append (past : List (Action × Event)) :
    unlistedCount (past ++ [label]) =
      unlistedCount past + if label.2.Listed then 0 else 1 := by
  by_cases hlisted : label.2.Listed
  · simp [unlistedCount, List.countP_append, hlisted]
  · simp [unlistedCount, List.countP_append, hlisted]

variable {past : List (Action × Event)}

/-- Steps that finish nothing leave the counts as they are. -/
theorem Accounted.quiet (h : s.Accounted past) (hknown : t.Known)
    (hevent : label.2.finished = none) (hmap : t.txnMap = s.txnMap)
    (hholds : t.sharedHolds = s.sharedHolds) (hbegun : t.begun = s.begun) :
    t.Accounted (past ++ [label]) := by
  have hlisted : label.2.Listed := by
    simp [Event.Listed, hevent]
  constructor
  · exact hknown
  · simpa [hlisted, hmap, hholds] using h.holds
  · simpa [hevent, hmap, hbegun] using h.gone
  · simpa [hevent, hlisted, hmap, hbegun] using h.once
  · simpa [hevent, hlisted] using h.twice

theorem Accounted.began {txn : TxnId} (h : s.Accounted past) (hknown : t.Known)
    (hfresh : txn ∉ s.begun) (hevent : label.2.finished = none)
    (hmap : t.txnMap = insert txn s.txnMap) (hholds : t.sharedHolds = s.sharedHolds + 1)
    (hbegun : t.begun = insert txn s.begun) : t.Accounted (past ++ [label]) := by
  have hlisted : label.2.Listed := by
    simp [Event.Listed, hevent]
  have hnew : txn ∉ s.txnMap := fun hmem => hfresh (h.known.listed hmem)
  constructor
  · exact hknown
  · have hold := h.holds
    rw [hmap, Finset.card_insert_of_notMem hnew, hholds]
    simp only [unlistedCount_append, hlisted, if_true]
    omega
  · intro txn' hbegun' hmap'
    rw [hbegun] at hbegun'
    rw [hmap] at hmap'
    simp only [Finset.mem_insert, not_or] at hbegun' hmap'
    simpa [hevent] using h.gone txn' (hbegun'.resolve_left hmap'.1) hmap'.2
  · intro hzero txn'
    obtain ⟨hle, hzero'⟩ := h.once (by simpa [hlisted] using hzero) txn'
    refine ⟨by simpa [hevent] using hle, ?_⟩
    rw [hmap, hbegun]
    simp only [Finset.mem_insert, not_or]
    rintro ((rfl | hmem) | ⟨_, hnot⟩)
    · simpa [hevent] using hzero' (.inr hfresh)
    · simpa [hevent] using hzero' (.inl hmem)
    · simpa [hevent] using hzero' (.inr hnot)
  · simpa [hevent, hlisted] using h.twice

theorem Accounted.finished {thread : Nat} {kind : RequestKind} {txn : TxnId}
    (h : s.Accounted past) (hknown : t.Known) (hhandler : s.handlers thread = some (kind, txn))
    (hevent : label.2.finished = some (txn, decide (txn ∈ s.txnMap)))
    (hmap : t.txnMap = s.txnMap.erase txn) (hholds : t.sharedHolds = s.sharedHolds - 1)
    (hbegun : t.begun = s.begun) : t.Accounted (past ++ [label]) := by
  have hlisted : label.2.Listed ↔ txn ∈ s.txnMap := by
    simp [Event.Listed, hevent]
  have hcount (txn' : TxnId) : finishCount txn' (past ++ [label]) =
      finishCount txn' past + if txn = txn' then 1 else 0 := by
    simp [hevent]
  constructor
  · exact hknown
  · have hold := h.holds
    rw [hmap, hholds, unlistedCount_append]
    by_cases hmem : txn ∈ s.txnMap
    · have hcard := Finset.card_erase_add_one hmem
      simp only [hlisted, hmem, if_true]
      omega
    · rw [Finset.erase_eq_of_notMem hmem]
      simp only [hlisted, hmem, if_false]
      push_cast
      omega
  · intro txn' hbegun' hmap'
    rw [hcount]
    by_cases heq : txn = txn'
    · simp [heq]
    · rw [hmap, Finset.mem_erase, not_and] at hmap'
      have hold := h.gone txn' (hbegun ▸ hbegun') (hmap' (Ne.symm heq))
      omega
  · intro hzero txn'
    rw [unlistedCount_append] at hzero
    have hmem : txn ∈ s.txnMap := by
      by_contra hnot
      simp [hlisted, hnot] at hzero
    have hold := h.once (by omega)
    rw [hcount, hmap, hbegun, Finset.mem_erase]
    by_cases heq : txn = txn'
    · subst heq
      rw [(hold txn).2 (.inl hmem)]
      simp [h.known.listed hmem]
    · simpa [heq, Ne.symm heq] using hold txn'
  · intro hpos
    by_cases hmem : txn ∈ s.txnMap
    · obtain ⟨txn', htwice⟩ := h.twice (by simpa [hlisted, hmem] using hpos)
      refine ⟨txn', ?_⟩
      rw [hcount]
      omega
    · refine ⟨txn, ?_⟩
      have hold := h.gone txn (h.known.handled thread kind txn hhandler) hmem
      rw [hcount]
      simp only [if_true]
      omega

theorem Accounted.step (h : s.Accounted past) (heffect : Effect s label t) :
    t.Accounted (past ++ [label]) := by
  have hknown := h.known.step heffect
  cases heffect with
  | began txn hfresh hevent hmap hholds hbegun _ _ =>
      exact h.began hknown hfresh hevent hmap hholds hbegun
  | found thread kind txn _ hevent hmap hholds hbegun _ _ =>
      exact h.quiet hknown hevent hmap hholds hbegun
  | other hevent hmap hholds hbegun _ _ => exact h.quiet hknown hevent hmap hholds hbegun
  | finished thread kind txn hhandler hevent hmap hholds hbegun _ _ =>
      exact h.finished hknown hhandler hevent hmap hholds hbegun

theorem accounted_of_run (hrun : Lts.Run (Step enableLogging) init trace s) :
    s.Accounted trace := by
  refine hrun.preserves_past (fun past s => s.Accounted past) ?_ accounted_init
  intro past s label t hstep h
  exact h.step hstep.effect

theorem unlistedCount_eq_zero_iff :
    unlistedCount trace = 0 ↔ ∀ label ∈ trace, label.2.Listed := by
  simp [unlistedCount, List.countP_eq_zero]

/-- In every run of `Begin` with fresh ids and of requests in any order, with any
overlap and any repetition: the holds on the latch are as many as the entries of
the map, and no transaction is finished twice, exactly if every handler that
finishes a transaction still finds it in the map. -/
theorem latch_balanced_iff (hrun : Lts.Run (Step enableLogging) init trace s) :
    (s.sharedHolds = s.txnMap.card ↔ Lts.Run (ListedStep enableLogging) init trace s) ∧
      ((∀ txn, finishCount txn trace ≤ 1) ↔ Lts.Run (ListedStep enableLogging) init trace s) := by
  have hacc := accounted_of_run hrun
  have hiff : (∀ label ∈ trace, label.2.Listed) ↔
      Lts.Run (ListedStep enableLogging) init trace s :=
    hrun.labels_iff (fun _ => True) (fun label => label.2.Listed)
      (fun s label => s.StillListed label.1) (fun _ _ _ _ _ => trivial)
      (fun _ _ _ _ hstep => hstep.effect.stillListed_iff) trivial
  rw [← hiff, ← unlistedCount_eq_zero_iff]
  constructor
  · have hholds := hacc.holds
    omega
  · constructor
    · intro hle
      by_contra hpos
      obtain ⟨txn, htwice⟩ := hacc.twice (Nat.pos_of_ne_zero hpos)
      have := hle txn
      omega
    · intro hzero txn
      exact (hacc.once hzero txn).1

/-- A transaction is prepared, committed and asked for again; another one is
aborted with a write to undo. The handlers of different transactions overlap. -/
def settledOnce : List (Action × Event) :=
  [(.begin 1, .began 1), (.begin 2, .began 2), (.write 2 (.ofInsert [107]), .silent),
    (.request 0 .prepare 1, .found 1), (.run 0 true, .answered true),
    (.request 0 .commit 1, .found 1), (.request 1 .abort 2, .found 2),
    (.run 0 true, .committed 1 true), (.run 1 true, .aborted 2 true [.ofInsert [107]]),
    (.request 0 .commit 1, .answered false)]

theorem settledOnce_balanced : ∃ s, Lts.Run (Step true) init settledOnce s ∧
    s.sharedHolds = s.txnMap.card ∧ ∀ txn, finishCount txn settledOnce ≤ 1 := by
  obtain ⟨s, hrun, hbalanced⟩ : ∃ s, Lts.Run (Step true) init settledOnce s ∧
      s.sharedHolds - s.txnMap.card = 0 :=
    Lts.run_of_exec_view (fun s : TxnNode => s.sharedHolds - s.txnMap.card) settledOnce
      (by decide +kernel)
  obtain ⟨hholds, honce⟩ := latch_balanced_iff hrun
  have heq : s.sharedHolds = s.txnMap.card := Int.sub_eq_zero.mp hbalanced
  exact ⟨s, hrun, heq, honce.mpr (hholds.mp heq)⟩

/-- A Commit request comes twice, and both handlers look the transaction up
before one of them finishes it. -/
def committedTwice : List (Action × Event) :=
  [(.begin 1, .began 1), (.request 0 .commit 1, .found 1), (.request 1 .commit 1, .found 1),
    (.run 0 true, .committed 1 true), (.run 1 true, .committed 1 false)]

/-- No handler is in progress, the map is empty, and the latch has been given
back once more than it was taken. -/
theorem committedTwice_unbalanced : ∃ s, Lts.Run (Step true) init committedTwice s ∧
    (∀ thread, s.handlers thread = none) ∧ s.txnMap.card = 0 ∧ s.sharedHolds = -1 ∧
    finishCount 1 committedTwice = 2 := by
  let looked := ((init.begin 1).setHandler 0 (some (.commit, 1))).setHandler 1 (some (.commit, 1))
  let first := ((looked.setState 1 .committed).finish 1).setHandler 0 none
  let second := ((first.setState 1 .committed).finish 1).setHandler 1 none
  refine ⟨second, ?_, ?_, by decide, by decide, by decide⟩
  · exact .cons ⟨by decide, rfl⟩ (.cons ⟨trivial, rfl⟩ (.cons ⟨trivial, rfl⟩
      (.cons ⟨trivial, rfl⟩ (.cons ⟨trivial, rfl⟩ (.nil _)))))
  · intro thread
    by_cases hsecond : thread = 1
    · simp [second, setHandler, hsecond]
    · by_cases hfirst : thread = 0
      · simp [second, first, setHandler, finish, setState, hfirst]
      · simp [second, first, looked, setHandler, finish, setState, begin, init, hfirst, hsecond]

end TxnNode

end RucDDBS
