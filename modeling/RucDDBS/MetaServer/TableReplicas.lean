import RucDDBS.MetaServer.Lookups

/-!
What the lookups of a table collect: the leaders of the partitions that they
choose. If every partition has a leader, a lookup returns exactly if it can make all
its choices, and its answer is then the choice and nothing else.
-/

namespace RucDDBS

open Text

namespace MetaServer

/-- The replica leads the partition, in the first place that has its number. -/
def LeaderAt (loc : PhyTableLocation) (pId : PartitionId) (rep : ReplicaLocation) : Prop :=
  ∃ p, loc.partitonList.find? (fun p => p.pId = pId) = some p ∧
    rep ∈ p.repliacaLocation ∧ rep.role = .leader

section Leader

variable {loc : PhyTableLocation} {pId : PartitionId} {rep : ReplicaLocation}

theorem leaderAt_of_get (h : loc.getReplicaLocation pId = some rep) : LeaderAt loc pId rep := by
  obtain ⟨p, hfind, hleader⟩ := Option.bind_eq_some_iff.mp h
  refine ⟨p, hfind, List.mem_of_find?_eq_some hleader, ?_⟩
  simpa using List.find?_some hleader

theorem LeaderAt.exists_get (h : LeaderAt loc pId rep) :
    ∃ rep', loc.getReplicaLocation pId = some rep' := by
  obtain ⟨p, hfind, hmem, hrole⟩ := h
  have hsome : (p.getReplicaLocation .leader).isSome = true := by
    rw [PhyPartitionLocation.getReplicaLocation, List.find?_isSome]
    exact ⟨rep, hmem, by simpa using hrole⟩
  obtain ⟨rep', hrep⟩ := Option.isSome_iff_exists.mp hsome
  exact ⟨rep', Option.bind_eq_some_iff.mpr ⟨p, hfind, hrep⟩⟩

end Leader

namespace TabMetaServer

variable {tms : TabMetaServer} {chosen : ParMeta → Except LookupError Bool}

/-- Every partition has a leader. -/
def Led (tms : TabMetaServer) : Prop :=
  ∀ par ∈ tms.partitions, ∃ rep, LeaderAt tms.tableLocation par.pId rep

/-- One round of the loop over the partitions. -/
def collect (tms : TabMetaServer) (chosen : ParMeta → Except LookupError Bool) (res : Replicas)
    (par : ParMeta) : Except LookupError Replicas := do
  if ← chosen par then tms.addReplica res par.pId else pure res

theorem replicasOf_eq (tms : TabMetaServer) (chosen : ParMeta → Except LookupError Bool) :
    tms.replicasOf chosen = tms.partitions.foldlM (tms.collect chosen) .empty := rfl

theorem collect_skip {res : Replicas} {par : ParMeta} (h : chosen par = .ok false) :
    tms.collect chosen res par = .ok res := by
  rw [collect, h]
  rfl

theorem collect_add {res : Replicas} {par : ParMeta} {rep : ReplicaLocation}
    (h : chosen par = .ok true) (hrep : tms.tableLocation.getReplicaLocation par.pId = some rep) :
    tms.collect chosen res par = .ok (res.put par.pId.toInt rep) := by
  rw [collect, h]
  show tms.addReplica res par.pId = _
  rw [addReplica, hrep]

/-- The partition is chosen, has this number and this leader. -/
def Found (tms : TabMetaServer) (sel : ParMeta → Bool) (id : Int) (rep : ReplicaLocation)
    (par : ParMeta) : Prop :=
  sel par = true ∧ par.pId.toInt = id ∧ tms.tableLocation.getReplicaLocation par.pId = some rep

/-- The entry is of a chosen partition, or was there before and no chosen partition has
its number. -/
def Collected (tms : TabMetaServer) (sel : ParMeta → Bool) (pars : List ParMeta)
    (before : Replicas) (id : Int) (rep : ReplicaLocation) : Prop :=
  (∃ par ∈ pars, tms.Found sel id rep par) ∨
    (∀ par ∈ pars, sel par = true → par.pId.toInt ≠ id) ∧ before.get id = some rep

section Collected

variable {sel : ParMeta → Bool} {par : ParMeta} {pars : List ParMeta} {before : Replicas}
  {id : Int} {rep leader : ReplicaLocation}

theorem collected_skip (h : sel par = false) :
    tms.Collected sel pars before id rep ↔ tms.Collected sel (par :: pars) before id rep := by
  simp [Collected, Found, h]

/-- The entry of a chosen partition may be put before the later ones: a later partition
of the same number has the same leader. -/
theorem collected_put (hsel : sel par = true)
    (hleader : tms.tableLocation.getReplicaLocation par.pId = some leader) :
    tms.Collected sel pars (before.put par.pId.toInt leader) id rep ↔
      tms.Collected sel (par :: pars) before id rep := by
  rw [Collected, SortedMap.get_put]
  constructor
  · rintro (⟨p, hp, hfound⟩ | ⟨hnone, hput⟩)
    · exact .inl ⟨p, List.mem_cons_of_mem _ hp, hfound⟩
    · split at hput
      next heq =>
        rw [Option.some.injEq] at hput
        rw [hput] at hleader
        exact .inl ⟨par, List.mem_cons_self, hsel, heq.symm, hleader⟩
      next hne => exact .inr ⟨List.forall_mem_cons.mpr ⟨fun _ => Ne.symm hne, hnone⟩, hput⟩
  · rintro (⟨p, hp, hfound⟩ | ⟨hnone, hbefore⟩)
    · rcases List.mem_cons.mp hp with rfl | hp
      · obtain ⟨hchosen, rfl, hrep⟩ := hfound
        by_cases hlater : ∃ q ∈ pars, sel q = true ∧ q.pId.toInt = p.pId.toInt
        · obtain ⟨q, hq, hqsel, hqid⟩ := hlater
          have hid : q.pId = p.pId := Int32.toInt_inj.mp hqid
          exact .inl ⟨q, hq, hqsel, hqid, by rw [hid, hrep]⟩
        · right
          rw [hleader] at hrep
          simp only [not_exists, not_and] at hlater
          exact ⟨hlater, by rw [if_pos rfl, hrep]⟩
      · exact .inl ⟨p, hp, hfound⟩
    · right
      obtain ⟨hne, hrest⟩ := List.forall_mem_cons.mp hnone
      exact ⟨hrest, by rw [if_neg (Ne.symm (hne hsel)), hbefore]⟩

end Collected

/-- What the loop has collected at its end. -/
theorem foldlM_collect {sel : ParMeta → Bool} {pars : List ParMeta}
    (hsel : ∀ par ∈ pars, chosen par = .ok (sel par))
    (hled : ∀ par ∈ pars, ∃ rep, tms.tableLocation.getReplicaLocation par.pId = some rep)
    (before : Replicas) :
    ∃ res, pars.foldlM (tms.collect chosen) before = .ok res ∧
      ∀ id rep, res.get id = some rep ↔ tms.Collected sel pars before id rep := by
  induction pars generalizing before with
  | nil => exact ⟨before, rfl, by simp [Collected]⟩
  | cons par pars ih =>
      have ih := ih (fun p hp => hsel p (List.mem_cons_of_mem _ hp))
        (fun p hp => hled p (List.mem_cons_of_mem _ hp))
      have hpar := hsel par List.mem_cons_self
      rw [List.foldlM_cons]
      cases hchoice : sel par with
      | false =>
          obtain ⟨res, hrun, hget⟩ := ih before
          rw [hchoice] at hpar
          rw [collect_skip hpar]
          exact ⟨res, hrun, fun id rep => (hget id rep).trans (collected_skip hchoice)⟩
      | true =>
          obtain ⟨leader, hleader⟩ := hled par List.mem_cons_self
          obtain ⟨res, hrun, hget⟩ := ih (before.put par.pId.toInt leader)
          rw [hchoice] at hpar
          rw [collect_add hpar hleader]
          exact ⟨res, hrun, fun id rep => (hget id rep).trans (collected_put hchoice hleader)⟩

/-- The answer of a lookup that can make all its choices. -/
theorem replicasOf_ok {sel : ParMeta → Bool} (hled : tms.Led)
    (hsel : ∀ par ∈ tms.partitions, chosen par = .ok (sel par)) :
    ∃ res, tms.replicasOf chosen = .ok res ∧
      ∀ id rep, res.get id = some rep ↔ ∃ par ∈ tms.partitions, tms.Found sel id rep par := by
  have hget : ∀ par ∈ tms.partitions,
      ∃ rep, tms.tableLocation.getReplicaLocation par.pId = some rep := by
    intro par hpar
    obtain ⟨rep, hrep⟩ := hled par hpar
    exact hrep.exists_get
  obtain ⟨res, hrun, hres⟩ := foldlM_collect hsel hget .empty
  refine ⟨res, hrun, ?_⟩
  intro id rep
  rw [hres]
  simp [Collected]

/-- A lookup that returns has made all its choices. -/
theorem choices_of_foldlM {pars : List ParMeta} {before res : Replicas}
    (h : pars.foldlM (tms.collect chosen) before = .ok res) :
    ∀ par ∈ pars, ∃ choice, chosen par = .ok choice := by
  induction pars generalizing before with
  | nil => simp
  | cons par pars ih =>
      rw [List.foldlM_cons] at h
      cases hchoice : chosen par with
      | error e =>
          have hstep : tms.collect chosen before par = .error e := by
            rw [collect, hchoice]
            rfl
          rw [hstep] at h
          cases h
      | ok choice =>
          cases hstep : tms.collect chosen before par with
          | error e =>
              rw [hstep] at h
              cases h
          | ok after =>
              rw [hstep] at h
              intro p hp
              rcases List.mem_cons.mp hp with rfl | hp
              · exact ⟨choice, hchoice⟩
              · exact ih h p hp

theorem choices_of_replicasOf {res : Replicas} (h : tms.replicasOf chosen = .ok res) :
    ∀ par ∈ tms.partitions, ∃ choice, chosen par = .ok choice := choices_of_foldlM h

end TabMetaServer

end MetaServer

end RucDDBS
