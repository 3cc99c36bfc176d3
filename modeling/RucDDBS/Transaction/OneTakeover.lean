import RucDDBS.Transaction.CommitProtocol

/-!
The requests for a new coordinator, at the server that is to be it. Every participant of a
transaction may send one. `Insert_txn` looks into its map under a shared lock and inserts
under an exclusive one, and in between it holds none: a request that has found the map
without the transaction does not look again. The thread that runs `Commit` holds the local
variable `txn` of its call by reference and is detached: it outlives the variable, and reads
whatever lies at its place by then.
-/

namespace RucDDBS

/-- What `Insert_txn` sets of the transaction that it makes. -/
structure CoorTxn where
  txnId : TxnId
  isDistributed : Bool
  distributedNodeSet : List IpPort
  deriving DecidableEq, Repr

def CoorTxn.new (txnId : TxnId) (ips : List IpPort) : CoorTxn where
  txnId := txnId
  isDistributed := decide (1 < ips.length)
  distributedNodeSet := ips

/-- Where a call of `Insert_txn` is: before the shared lock, between the two locks, or
behind both. -/
inductive InsertPc where
  | entered | unlocked | done
  deriving DecidableEq, Repr

structure InsertCall where
  txnId : TxnId
  ips : List IpPort
  pc : InsertPc
  deriving DecidableEq, Repr

/-- Where the background thread is. `Commit` has been given a transaction once. -/
inductive PreparePc where
  | starting
  | committing (txn : CoorTxn)
  | returned
  | erased
  deriving DecidableEq, Repr

/-- A background thread: the transaction that its call has made, and the place on the stack
of that call's `txn`, which the thread holds by reference. -/
structure CoordinatorPrepare where
  txn : CoorTxn
  slot : Nat
  pc : PreparePc
  deriving DecidableEq, Repr

/-- `stack` tells which transaction the word at a place points to, `none` where it is no
pointer to one. -/
structure Coordinator where
  coorTxnMap : TxnId → Option CoorTxn
  stack : Nat → Option CoorTxn
  calls : List InsertCall
  threads : List CoordinatorPrepare

namespace Coordinator

def init : Coordinator where
  coorTxnMap := fun _ => none
  stack := fun _ => none
  calls := []
  threads := []

/-- `look` and `insert` are the two sections of `Insert_txn`, `erase` is the one of the
background thread. Nothing between the start and the return of `Commit` takes the lock. The
second section ends with the scope of `txn`: from then on whatever the server does may
`overwrite` its place, and the next call may have its own `txn` there. -/
inductive Action where
  | newCoordinator (txnId : TxnId) (ips : List IpPort)
  | look (k : Nat)
  | insert (k : Nat) (slot : Nat)
  | overwrite (slot : Nat) (word : Option CoorTxn)
  | startCommit (j : Nat)
  | commitReturns (j : Nat)
  | erase (j : Nat)
  deriving DecidableEq, Repr

inductive Event where
  | silent
  | commitStarted (txn : CoorTxn)
  | commitReturned (txn : CoorTxn)
  deriving DecidableEq, Repr

/-- `emplace` of the map: an entry that is there stays. -/
def emplace (map : TxnId → Option CoorTxn) (txn : CoorTxn) : TxnId → Option CoorTxn :=
  if map txn.txnId = none then Function.update map txn.txnId (some txn) else map

/-- The thread reads `txn` twice, for `Commit` and for the erasure. Where the word at its
place is no pointer to a transaction the read is undefined, and there is no step. -/
def step (s : Coordinator) : Action → Option (Coordinator × Event)
  | .newCoordinator txnId ips =>
      some ({ s with calls := s.calls ++ [⟨txnId, ips, .entered⟩] }, .silent)
  | .look k => do
      let call ← s.calls[k]?
      if call.pc = .entered then
        let pc := if s.coorTxnMap call.txnId = none then .unlocked else .done
        some ({ s with calls := s.calls.set k { call with pc := pc } }, .silent)
      else none
  | .insert k slot => do
      let call ← s.calls[k]?
      if call.pc = .unlocked then
        let txn := CoorTxn.new call.txnId call.ips
        some ({ coorTxnMap := emplace s.coorTxnMap txn
                stack := Function.update s.stack slot (some txn)
                calls := s.calls.set k { call with pc := .done }
                threads := s.threads ++ [⟨txn, slot, .starting⟩] }, .silent)
      else none
  | .overwrite slot word =>
      some ({ s with stack := Function.update s.stack slot word }, .silent)
  | .startCommit j => do
      let thread ← s.threads[j]?
      if thread.pc = .starting then
        let txn ← s.stack thread.slot
        some ({ s with threads := s.threads.set j { thread with pc := .committing txn } },
          .commitStarted txn)
      else none
  | .commitReturns j => do
      let thread ← s.threads[j]?
      match thread.pc with
      | .committing txn =>
          some ({ s with threads := s.threads.set j { thread with pc := .returned } },
            .commitReturned txn)
      | _ => none
  | .erase j => do
      let thread ← s.threads[j]?
      if thread.pc = .returned then
        let txn ← s.stack thread.slot
        some ({ s with
          coorTxnMap := Function.update s.coorTxnMap txn.txnId none
          threads := s.threads.set j { thread with pc := .erased } }, .silent)
      else none

abbrev Step := Lts.Steps step

section Spec

/-- The thread is inside `Commit` for the transaction. -/
def commits (txnId : TxnId) (thread : CoordinatorPrepare) : Bool :=
  match thread.pc with
  | .committing txn => txn.txnId = txnId
  | _ => false

/-- The runs of `Commit` for the transaction that have been started and not finished. -/
def unfinished (s : Coordinator) (txnId : TxnId) : Nat :=
  s.threads.countP (commits txnId)

/-- The section under the exclusive lock finds the map as the look has found it, and where
a thread reads `txn` there is still what its own call has put there. -/
def Apart (s : Coordinator) : Action → Prop
  | .insert k _ => ∀ call ∈ s.calls[k]?, s.coorTxnMap call.txnId = none
  | .startCommit j | .erase j =>
      ∀ thread ∈ s.threads[j]?, s.stack thread.slot = some thread.txn
  | _ => True

instance (s : Coordinator) : DecidablePred s.Apart
  | .insert k _ =>
      inferInstanceAs (Decidable (∀ call ∈ s.calls[k]?, s.coorTxnMap call.txnId = none))
  | .startCommit j | .erase j =>
      inferInstanceAs (Decidable
        (∀ thread ∈ s.threads[j]?, s.stack thread.slot = some thread.txn))
  | .newCoordinator _ _ | .look _ | .overwrite _ _ | .commitReturns _ => .isTrue trivial

def ApartStep (s : Coordinator) (label : Action × Event) (s' : Coordinator) : Prop :=
  s.Apart label.1 ∧ Step s label s'

end Spec

variable {s s' : Coordinator} {action : Action} {event : Event}
  {trace : List (Action × Event)}

/-- Counting after one item has been replaced. -/
theorem countP_set_add {α : Type} {p : α → Bool} {l : List α} {i : Nat} {a : α}
    (h : l[i]? = some a) (b : α) :
    (l.set i b).countP p + (if p a = true then 1 else 0) =
      l.countP p + (if p b = true then 1 else 0) := by
  obtain ⟨hi, rfl⟩ := List.getElem?_eq_some_iff.mp h
  have hle : (if p l[i] = true then 1 else 0) ≤ l.countP p := List.boole_getElem_le_countP hi
  rw [List.countP_set hi]
  omega

/-- The threads that have not erased their entry. -/
def entered (s : Coordinator) (txnId : TxnId) : Nat :=
  s.threads.countP fun thread => thread.txn.txnId = txnId ∧ thread.pc ≠ .erased

/-- The map has an entry where a thread has not erased it, and there is one such thread. A
thread that commits does so for the transaction of its own call. -/
structure Booked (s : Coordinator) : Prop where
  once : ∀ txnId, s.entered txnId = if s.coorTxnMap txnId = none then 0 else 1
  own : ∀ thread ∈ s.threads, ∀ txn, thread.pc = .committing txn → txn = thread.txn

theorem Booked.unfinished_le_entered (h : s.Booked) (txnId : TxnId) :
    s.unfinished txnId ≤ s.entered txnId := by
  apply List.countP_mono_left
  intro thread hmem hcommits
  simp only [commits] at hcommits
  split at hcommits
  case h_1 txn hpc =>
    have hid : txn.txnId = txnId := by simpa using hcommits
    have hown : txn = thread.txn := h.own thread hmem txn hpc
    simp [hpc, ← hown, hid]
  case h_2 => cases hcommits

theorem booked_init : Booked init where
  once _ := rfl
  own thread hmem := by cases hmem

/-- The section under the exclusive lock, where the map is without the transaction. -/
theorem Booked.insert (h : s.Booked) {txn : CoorTxn} (hfree : s.coorTxnMap txn.txnId = none)
    (stack : Nat → Option CoorTxn) (calls : List InsertCall) (slot : Nat) :
    Booked ⟨emplace s.coorTxnMap txn, stack, calls, s.threads ++ [⟨txn, slot, .starting⟩]⟩ where
  once txnId := by
    have hbefore := h.once txnId
    by_cases htxn : txn.txnId = txnId
    · subst htxn
      simp_all [entered, emplace, List.countP_append]
    · have hother : txnId ≠ txn.txnId := Ne.symm htxn
      simp_all [entered, emplace, List.countP_append]
  own := by
    intro thread hmem txn' hpc
    rcases List.mem_append.mp hmem with hold | hnew
    · exact h.own thread hold txn' hpc
    · rw [List.mem_singleton.mp hnew] at hpc
      cases hpc

/-- A thread goes on: what it counts for, before and after. -/
theorem entered_set {j : Nat} {thread : CoordinatorPrepare} (hthread : s.threads[j]? = some thread)
    (map : TxnId → Option CoorTxn) (pc : PreparePc) (txnId : TxnId) :
    entered ⟨map, s.stack, s.calls, s.threads.set j { thread with pc := pc }⟩ txnId +
        (if thread.txn.txnId = txnId ∧ thread.pc ≠ .erased then 1 else 0) =
      s.entered txnId + (if thread.txn.txnId = txnId ∧ pc ≠ .erased then 1 else 0) := by
  simpa [entered] using countP_set_add (p := fun thread : CoordinatorPrepare =>
    thread.txn.txnId = txnId ∧ thread.pc ≠ .erased) hthread { thread with pc := pc }

/-- A thread goes on, and commits, if it does, for the transaction of its own call. -/
theorem Booked.own_set (h : s.Booked) {j : Nat} {thread : CoordinatorPrepare} {pc : PreparePc}
    (hown : ∀ txn, pc = .committing txn → txn = thread.txn) :
    ∀ other ∈ s.threads.set j { thread with pc := pc },
      ∀ txn, other.pc = .committing txn → txn = other.txn := by
  intro other hmem txn hpc
  rcases List.mem_or_eq_of_mem_set hmem with hold | rfl
  · exact h.own other hold txn hpc
  · exact hown txn hpc

/-- The thread comes to a place where it has still its entry. -/
theorem Booked.goOn (h : s.Booked) {j : Nat} {thread : CoordinatorPrepare} {pc : PreparePc}
    (hthread : s.threads[j]? = some thread) (hbefore : thread.pc ≠ .erased)
    (hafter : pc ≠ .erased) (hown : ∀ txn, pc = .committing txn → txn = thread.txn) :
    Booked { s with threads := s.threads.set j { thread with pc := pc } } where
  once txnId := by
    have hcount := entered_set hthread s.coorTxnMap pc txnId
    simp only [hbefore, hafter, ne_eq, not_false_eq_true, and_true] at hcount
    rw [← h.once txnId]
    omega
  own := h.own_set hown

/-- The section of a background thread: the entry was that of this thread alone. -/
theorem Booked.erase (h : s.Booked) {j : Nat} {thread : CoordinatorPrepare}
    (hthread : s.threads[j]? = some thread) (hpc : thread.pc = .returned) :
    Booked { s with
      coorTxnMap := Function.update s.coorTxnMap thread.txn.txnId none
      threads := s.threads.set j { thread with pc := .erased } } where
  once txnId := by
    have hbefore := h.once txnId
    have hcount := entered_set hthread
      (Function.update s.coorTxnMap thread.txn.txnId none) .erased txnId
    by_cases htxn : thread.txn.txnId = txnId
    · subst htxn
      have hone : s.entered thread.txn.txnId ≤ 1 := by
        rw [hbefore]
        split <;> simp
      rw [if_pos (by simp [hpc]), if_neg (by simp)] at hcount
      rw [if_pos (Function.update_self ..)]
      omega
    · rw [if_neg (by simp [htxn]), if_neg (by simp)] at hcount
      have hmap : Function.update s.coorTxnMap thread.txn.txnId none txnId = s.coorTxnMap txnId :=
        Function.update_of_ne (Ne.symm htxn) ..
      simp only [hmap, ← hbefore]
      exact hcount
  own := by
    apply h.own_set
    intro txn hnever
    cases hnever

theorem Booked.step (h : s.Booked) (hapart : s.Apart action)
    (hstep : step s action = some (s', event)) : s'.Booked := by
  cases action with
  | newCoordinator txnId ips =>
      cases hstep
      exact ⟨h.once, h.own⟩
  | look k =>
      obtain ⟨call, _, hrest⟩ := Option.bind_eq_some_iff.mp hstep
      split at hrest
      case isTrue =>
        cases hrest
        exact ⟨h.once, h.own⟩
      case isFalse => cases hrest
  | insert k slot =>
      obtain ⟨call, hcall, hrest⟩ := Option.bind_eq_some_iff.mp hstep
      split at hrest
      case isTrue =>
        cases hrest
        exact h.insert (hapart call hcall) _ _ _
      case isFalse => cases hrest
  | overwrite slot word =>
      cases hstep
      exact ⟨h.once, h.own⟩
  | startCommit j =>
      obtain ⟨thread, hthread, hrest⟩ := Option.bind_eq_some_iff.mp hstep
      split at hrest
      case isTrue hpc =>
        rw [hapart thread hthread] at hrest
        cases hrest
        apply h.goOn hthread (by simp [hpc]) (by simp)
        intro txn hcommitting
        cases hcommitting
        rfl
      case isFalse => cases hrest
  | commitReturns j =>
      obtain ⟨thread, hthread, hrest⟩ := Option.bind_eq_some_iff.mp hstep
      split at hrest
      case h_1 txn hpc =>
        cases hrest
        exact h.goOn hthread (by simp [hpc]) (by simp) (by simp)
      case h_2 => cases hrest
  | erase j =>
      obtain ⟨thread, hthread, hrest⟩ := Option.bind_eq_some_iff.mp hstep
      split at hrest
      case isTrue hpc =>
        rw [hapart thread hthread] at hrest
        cases hrest
        exact h.erase hthread hpc
      case isFalse => cases hrest

/-- In every run in which no request enters its second section while the map has the
transaction, and every thread still finds its own transaction where it reads `txn`, at most
one `Commit` for a transaction is under way. -/
theorem one_takeover (hrun : Lts.Run ApartStep init trace s) (txnId : TxnId) :
    s.unfinished txnId ≤ 1 := by
  have hbooked : s.Booked := by
    refine hrun.preserves Booked ?_ booked_init
    rintro s ⟨action, event⟩ s' ⟨hapart, hstep⟩ h
    exact h.step hapart hstep
  apply (hbooked.unfinished_le_entered txnId).trans
  rw [hbooked.once txnId]
  split <;> simp

/-- The nodes of a transaction, each of which sends a request. -/
def nodeIps : List IpPort := [⟨"10.0.0.2", 8000⟩, ⟨"10.0.0.3", 8000⟩]

/-- The second request looks when the first has been inserted. A third one comes when the
entry has been erased, and its `txn` lies where the first one's was. -/
def lookAfter : List (Action × Event) :=
  [(.newCoordinator 7 nodeIps, .silent), (.newCoordinator 7 nodeIps, .silent),
    (.look 0, .silent), (.insert 0 3, .silent), (.look 1, .silent),
    (.startCommit 0, .commitStarted ⟨7, true, nodeIps⟩),
    (.commitReturns 0, .commitReturned ⟨7, true, nodeIps⟩), (.erase 0, .silent),
    (.newCoordinator 7 nodeIps, .silent), (.look 2, .silent), (.insert 2 3, .silent),
    (.startCommit 1, .commitStarted ⟨7, true, nodeIps⟩)]

theorem lookAfter_one : ∃ s, Lts.Run ApartStep init lookAfter s ∧ s.unfinished 7 ≤ 1 := by
  obtain ⟨s, hrun⟩ : ∃ s, Lts.Run ApartStep init lookAfter s :=
    Lts.run_of_exec_when lookAfter (by decide +kernel)
  exact ⟨s, hrun, one_takeover hrun 7⟩

/-- Both requests look before one has been inserted. -/
def lookBefore : List (Action × Event) :=
  [(.newCoordinator 7 nodeIps, .silent), (.newCoordinator 7 nodeIps, .silent),
    (.look 0, .silent), (.look 1, .silent), (.insert 0 3, .silent), (.insert 1 4, .silent),
    (.startCommit 0, .commitStarted ⟨7, true, nodeIps⟩),
    (.startCommit 1, .commitStarted ⟨7, true, nodeIps⟩)]

/-- One request each for two transactions. The second call puts its `txn` where that of the
first was, before the thread of the first has read it. -/
def slotReused : List (Action × Event) :=
  [(.newCoordinator 7 nodeIps, .silent), (.look 0, .silent), (.insert 0 3, .silent),
    (.newCoordinator 8 nodeIps, .silent), (.look 1, .silent), (.insert 1 3, .silent),
    (.startCommit 0, .commitStarted ⟨8, true, nodeIps⟩),
    (.startCommit 1, .commitStarted ⟨8, true, nodeIps⟩)]

/-- Each of the two ways to two runs of `Commit` for one transaction. -/
theorem lookBefore_two :
    (∃ s, Lts.Run Step init lookBefore s ∧ s.unfinished 7 = 2) ∧
      ∃ s, Lts.Run Step init slotReused s ∧ s.unfinished 8 = 2 := by
  have hbefore : Lts.Run Step init lookBefore _ :=
    Lts.run_of_exec (lookBefore.map Prod.fst) (lookBefore.map Prod.snd) rfl
  have hreused : Lts.Run Step init slotReused _ :=
    Lts.run_of_exec (slotReused.map Prod.fst) (slotReused.map Prod.snd) rfl
  exact ⟨⟨_, hbefore, by decide +kernel⟩, ⟨_, hreused, by decide +kernel⟩⟩

end Coordinator

end RucDDBS
