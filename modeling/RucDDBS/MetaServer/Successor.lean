import RucDDBS.Library.Run
import RucDDBS.MetaServer.MetaStore

/-!
Which node takes over for a coordinator that has failed. The meta server answers with
the node behind it in the iteration over `ip_node_map_`, so two participants are told
the same node only if the iteration has stayed the same between their requests. The
order of a hash table may change whenever a key is inserted, and at no other time.
-/

namespace RucDDBS

section Ring

variable {α : Type} {p : α → Bool} {ring : List α} {a : α}

/-- The element behind the first that satisfies `p`, where the first of all comes
behind the last. -/
def nextInRing (p : α → Bool) (ring : List α) : Option α :=
  match ring.dropWhile fun a => !p a with
  | [] => none
  | _ :: rest => rest.head?.or ring.head?

/-- A ring is cut in front of the first element that satisfies `p`. -/
theorem dropWhile_cut (h : ∃ a ∈ ring, p a = true) :
    ∃ f rest, p f = true ∧ ring.dropWhile (fun a => !p a) = f :: rest ∧
      ring = ring.takeWhile (fun a => !p a) ++ f :: rest := by
  cases hdrop : ring.dropWhile fun a => !p a with
  | nil =>
      obtain ⟨a, ha, hpa⟩ := h
      have hnot := List.dropWhile_eq_nil_iff.mp hdrop a ha
      rw [hpa] at hnot
      cases hnot
  | cons f rest =>
      have hf := List.head?_dropWhile_not (fun a => !p a) ring
      rw [hdrop] at hf
      refine ⟨f, rest, by simpa using hf, rfl, ?_⟩
      rw [← hdrop, List.takeWhile_append_dropWhile]

theorem nextInRing_isSome_iff : (nextInRing p ring).isSome = true ↔ ∃ a ∈ ring, p a = true := by
  constructor
  · intro hsome
    by_contra hnone
    have hall : ∀ a ∈ ring, (!p a) = true := by
      intro a ha
      simpa using fun hpa => hnone ⟨a, ha, hpa⟩
    rw [nextInRing, List.dropWhile_eq_nil_iff.mpr hall] at hsome
    cases hsome
  · intro h
    obtain ⟨f, rest, -, hdrop, hcut⟩ := dropWhile_cut h
    rw [nextInRing, hdrop]
    cases rest with
    | cons x rest => rfl
    | nil =>
        rw [hcut]
        simp

theorem nextInRing_mem (h : nextInRing p ring = some a) : a ∈ ring := by
  unfold nextInRing at h
  split at h
  · cases h
  · rename_i f rest hdrop
    have hsuffix := List.dropWhile_suffix (fun a => !p a) (l := ring)
    rw [hdrop] at hsuffix
    rcases Option.or_eq_some_iff.mp h with hrest | ⟨-, hring⟩
    · exact hsuffix.subset (List.mem_cons_of_mem _ (List.mem_of_mem_head? hrest))
    · exact List.mem_of_mem_head? hring

/-- The element behind the only one that satisfies `p` does not. -/
theorem nextInRing_other (hone : (ring.filter p).length = 1) (hsize : 2 ≤ ring.length)
    (h : nextInRing p ring = some a) : p a = false := by
  have hsome : ∃ a ∈ ring, p a = true := by
    obtain ⟨f, hf⟩ := List.exists_mem_of_length_pos (by omega : 0 < (ring.filter p).length)
    exact ⟨f, (List.mem_filter.mp hf).1, (List.mem_filter.mp hf).2⟩
  obtain ⟨f, rest, hf, hdrop, hcut⟩ := dropWhile_cut hsome
  have hbefore : ∀ b ∈ ring.takeWhile (fun a => !p a), p b = false := by
    intro b hb
    simpa using List.mem_takeWhile_imp hb
  have hbehind : ∀ b ∈ rest, p b = false := by
    rw [hcut, List.filter_append, List.filter_cons_of_pos hf, List.length_append,
      List.length_cons] at hone
    have hnil : (rest.filter p).length = 0 := by omega
    intro b hb
    rw [List.length_eq_zero_iff, List.filter_eq_nil_iff] at hnil
    simpa using hnil b hb
  rw [nextInRing, hdrop] at h
  rcases Option.or_eq_some_iff.mp h with hrest | ⟨hrest, hring⟩
  · exact hbehind a (List.mem_of_mem_head? hrest)
  · rw [List.head?_eq_none_iff] at hrest
    subst hrest
    cases htake : ring.takeWhile fun a => !p a with
    | nil =>
        rw [htake] at hcut
        rw [hcut] at hsize
        simp at hsize
    | cons b before =>
        rw [hcut, htake] at hring
        cases hring
        exact hbefore a (by simp [htake])

end Ring

namespace MetaServer

abbrev Address := Text × UInt32

/-- Ports are compared and sent as `uint32`. -/
def Node.address (node : Node) : Address := (node.ipAddr, node.port.toUInt32)

/-- The addresses of the nodes in the order of the iteration. -/
def addresses (m : MetaServer) (order : List Text) : List Address :=
  (m.ipNodeMap.entriesIn order).map fun entry => entry.2.address

/-- Without a node of that address the response stays as it is, which is `none`. -/
def getNewCoordinator (m : MetaServer) (order : List Text) (fault : Address) : Option Address :=
  nextInRing (fun address => decide (address = fault)) (m.addresses order)

/-- A request to the server, as far as its nodes are concerned. -/
inductive NodeRequest where
  | nodeRegister (remoteIp : Text) (r : RegisterRequest)
  | getNewCoordinator (fault : Address)
  deriving DecidableEq, Repr

/-- The state behind a list of requests; no hash table decides on it. -/
def serverAfter (m : MetaServer) (requests : List NodeRequest) : MetaServer :=
  requests.foldl (fun m r =>
    match r with
    | .nodeRegister remoteIp r => m.nodeRegister remoteIp r
    | .getNewCoordinator _ => m) m

end MetaServer

open MetaServer

/-- The server with the order in which `ip_node_map_` is iterated. -/
structure NodeDirectory where
  server : MetaServer
  order : List Text
  deriving DecidableEq

namespace NodeDirectory

def start : NodeDirectory := ⟨MetaServer.new, []⟩

/-- A request, with the order that the hash table takes if a key is inserted, and the
answer. -/
def step (s : NodeDirectory) : NodeRequest × List Text → Option (NodeDirectory × Option Address)
  | (.nodeRegister remoteIp r, order) =>
      let server := s.server.nodeRegister remoteIp r
      if s.server.ipNodeMap.contains r.serverName then some (⟨server, s.order⟩, none)
      else if server.ipNodeMap.Orders order then some (⟨server, order⟩, none)
      else none
  | (.getNewCoordinator fault, _) => some (s, s.server.getNewCoordinator s.order fault)

abbrev Label := (NodeRequest × List Text) × Option Address

def requestsOf (trace : List Label) : List NodeRequest := trace.map fun label => label.1.1

/-- A request for the successor of `fault` was answered with `address`. -/
def Answered (trace : List Label) (fault address : Address) : Prop :=
  ∃ order, ((.getNewCoordinator fault, order), some address) ∈ trace

def Registered (m : MetaServer) (fault : Address) : Prop :=
  ∃ name node, m.ipNodeMap.get name = some node ∧ node.address = fault

/-- What participants rely on: for a registered node there is an answer, always the same
one, it is another node, and that one is registered and active. -/
structure OneSuccessor (trace : List Label) (s : NodeDirectory) : Prop where
  served : ∀ before fault order behind,
    trace = before ++ ((.getNewCoordinator fault, order), none) :: behind →
      ¬ Registered (MetaServer.new.serverAfter (requestsOf before)) fault
  same : ∀ fault first second, Answered trace fault first → Answered trace fault second → first = second
  other : ∀ fault address, Answered trace fault address → address ≠ fault
  active : ∀ fault address, Answered trace fault address →
    ∃ name node, s.server.ipNodeMap.get name = some node ∧ node.activate = true ∧
      node.address = address

/-- One node has the address, and there are others. -/
structure Single (m : MetaServer) (fault : Address) : Prop where
  one : (m.ipNodeMap.entries.filter fun entry => decide (entry.2.address = fault)).length = 1
  size : 2 ≤ m.ipNodeMap.size

/-- All nodes with another address have the same one. -/
def OneOther (m : MetaServer) (fault : Address) : Prop :=
  ∀ name node name' node', m.ipNodeMap.get name = some node → m.ipNodeMap.get name' = some node' →
    node.address ≠ fault → node'.address ≠ fault → node.address = node'.address

/-- Whenever the successor of a registered node is asked for, no other node has its
address, there are others, and no server name was registered since an earlier request
for it, unless all the others have one address. -/
def Settled (requests : List NodeRequest) : Prop :=
  ∀ before fault behind, requests = before ++ .getNewCoordinator fault :: behind →
    Registered (MetaServer.new.serverAfter before) fault →
    Single (MetaServer.new.serverAfter before) fault ∧
      ∀ first between, before = first ++ .getNewCoordinator fault :: between →
        Registered (MetaServer.new.serverAfter first) fault →
        (MetaServer.new.serverAfter first).ipNodeMap.keys =
            (MetaServer.new.serverAfter before).ipNodeMap.keys ∨
          OneOther (MetaServer.new.serverAfter before) fault

section Server

variable {m : MetaServer} {order : List Text} {fault : Address}

theorem addresses_perm (h : m.ipNodeMap.Orders order) :
    (m.addresses order).Perm (m.ipNodeMap.entries.map fun entry => entry.2.address) :=
  (SortedMap.entriesIn_perm h).map _

theorem mem_addresses_iff (h : m.ipNodeMap.Orders order) :
    fault ∈ m.addresses order ↔ Registered m fault := by
  rw [(addresses_perm h).mem_iff, List.mem_map]
  constructor
  · rintro ⟨⟨name, node⟩, hentry, heq⟩
    exact ⟨name, node, (m.ipNodeMap.get_eq_some_iff name node).mpr hentry, heq⟩
  · rintro ⟨name, node, hget, heq⟩
    exact ⟨(name, node), (m.ipNodeMap.get_eq_some_iff name node).mp hget, heq⟩

/-- Exactly the registered nodes have a successor. -/
theorem getNewCoordinator_isSome_iff (h : m.ipNodeMap.Orders order) :
    (m.getNewCoordinator order fault).isSome = true ↔ Registered m fault := by
  rw [getNewCoordinator, nextInRing_isSome_iff, ← mem_addresses_iff h]
  simp

theorem registered_of_getNewCoordinator (h : m.ipNodeMap.Orders order) {address : Address}
    (hanswer : m.getNewCoordinator order fault = some address) : Registered m address :=
  (mem_addresses_iff h).mp (nextInRing_mem hanswer)

/-- If no other node has its address, the successor is another node. -/
theorem Single.other (hsingle : Single m fault) (h : m.ipNodeMap.Orders order) {address : Address}
    (hanswer : m.getNewCoordinator order fault = some address) : address ≠ fault := by
  have hperm := addresses_perm h
  have hone : ((m.addresses order).filter fun address => decide (address = fault)).length = 1 := by
    rw [(hperm.filter _).length_eq, List.filter_map, List.length_map]
    exact hsingle.one
  have hsize : 2 ≤ (m.addresses order).length := by
    rw [hperm.length_eq, List.length_map]
    exact hsingle.size
  simpa using nextInRing_other hone hsize hanswer

theorem serverAfter_append (m : MetaServer) (first second : List NodeRequest) :
    m.serverAfter (first ++ second) = (m.serverAfter first).serverAfter second :=
  List.foldl_append

theorem mem_keys_nodeRegister {remoteIp name : Text} {r : RegisterRequest} :
    name ∈ (m.nodeRegister remoteIp r).ipNodeMap.keys ↔
      name = r.serverName ∨ name ∈ m.ipNodeMap.keys := by
  unfold nodeRegister
  split <;> exact SortedMap.mem_keys_put _ _ _ _

/-- Registering a known name adds none. -/
theorem keys_nodeRegister {remoteIp : Text} {r : RegisterRequest}
    (h : r.serverName ∈ m.ipNodeMap.keys) :
    (m.nodeRegister remoteIp r).ipNodeMap.keys = m.ipNodeMap.keys := by
  obtain ⟨known, hknown⟩ := (m.ipNodeMap.mem_keys_iff _).mp h
  rw [MetaServer.nodeRegister, hknown]
  exact SortedMap.keys_put _ _ _ h

/-- Registering takes no name away. -/
theorem mem_keys_serverAfter {name : Text} (h : name ∈ m.ipNodeMap.keys)
    (requests : List NodeRequest) : name ∈ (m.serverAfter requests).ipNodeMap.keys := by
  induction requests generalizing m with
  | nil => exact h
  | cons r requests ih =>
      cases r with
      | nodeRegister remoteIp r => exact ih (mem_keys_nodeRegister.mpr (.inr h))
      | getNewCoordinator fault => exact ih h

/-- A node keeps its address, and a registered one is active. -/
theorem nodeRegister_keeps {remoteIp name : Text} {r : RegisterRequest} {node : Node}
    (h : m.ipNodeMap.get name = some node) :
    ∃ node', (m.nodeRegister remoteIp r).ipNodeMap.get name = some node' ∧
      node'.address = node.address := by
  unfold nodeRegister
  split
  · rename_i known hknown
    rw [SortedMap.get_put]
    split
    · rename_i heq
      rw [heq, hknown] at h
      cases h
      exact ⟨_, rfl, rfl⟩
    · exact ⟨node, h, rfl⟩
  · rename_i hfresh
    rw [SortedMap.get_put]
    split
    · rename_i heq
      rw [heq, hfresh] at h
      cases h
    · exact ⟨node, h, rfl⟩

/-- Registering a known name changes no address. -/
theorem addresses_nodeRegister {remoteIp : Text} {r : RegisterRequest}
    (h : r.serverName ∈ m.ipNodeMap.keys) :
    (m.nodeRegister remoteIp r).addresses order = m.addresses order := by
  obtain ⟨known, hknown⟩ := (m.ipNodeMap.mem_keys_iff _).mp h
  simp only [addresses, SortedMap.entriesIn, List.map_filterMap, nodeRegister, hknown]
  apply List.filterMap_congr
  intro name _
  rw [SortedMap.get_put]
  split
  · rename_i heq
    rw [heq, hknown]
    rfl
  · rfl

end Server

section Runs

variable {s t : NodeDirectory} {past trace : List Label} {label : Label}

/-- What a step can do. -/
inductive Effect (s : NodeDirectory) : Label → NodeDirectory → Prop
  | known (remoteIp : Text) (r : RegisterRequest) (order : List Text)
      (hknown : r.serverName ∈ s.server.ipNodeMap.keys) :
      Effect s ((.nodeRegister remoteIp r, order), none) ⟨s.server.nodeRegister remoteIp r, s.order⟩
  | fresh (remoteIp : Text) (r : RegisterRequest) (order : List Text)
      (hfresh : r.serverName ∉ s.server.ipNodeMap.keys)
      (horder : (s.server.nodeRegister remoteIp r).ipNodeMap.Orders order) :
      Effect s ((.nodeRegister remoteIp r, order), none) ⟨s.server.nodeRegister remoteIp r, order⟩
  | answer (fault : Address) (order : List Text) :
      Effect s ((.getNewCoordinator fault, order), s.server.getNewCoordinator s.order fault) s

theorem contains_iff_mem_keys {m : MetaServer} {name : Text} :
    m.ipNodeMap.contains name = true ↔ name ∈ m.ipNodeMap.keys := by
  rw [SortedMap.contains_iff, SortedMap.mem_keys_iff]

theorem step_effect (h : Lts.Steps step s label t) : Effect s label t := by
  obtain ⟨⟨request, order⟩, answer⟩ := label
  unfold Lts.Steps at h
  cases request with
  | nodeRegister remoteIp r =>
      simp only [step] at h
      split at h
      · rename_i hknown
        cases h
        exact .known remoteIp r order (contains_iff_mem_keys.mp hknown)
      · rename_i hfresh
        obtain ⟨horder, heq⟩ := Option.ite_none_right_eq_some.mp h
        cases heq
        exact .fresh remoteIp r order (fun hmem => hfresh (contains_iff_mem_keys.mpr hmem)) horder
  | getNewCoordinator fault =>
      cases h
      exact .answer fault order

theorem requestsOf_append (first second : List Label) :
    requestsOf (first ++ second) = requestsOf first ++ requestsOf second :=
  List.map_append

/-- What holds behind every run: the server is determined by the requests, and an
answer that was given would be given again as long as no name has been added. -/
structure Tracked (past : List Label) (s : NodeDirectory) : Prop where
  server : s.server = MetaServer.new.serverAfter (requestsOf past)
  orders : s.server.ipNodeMap.Orders s.order
  active : ∀ name node, s.server.ipNodeMap.get name = some node → node.activate = true
  served : ∀ before fault order answer behind,
    past = before ++ ((.getNewCoordinator fault, order), answer) :: behind →
      (answer.isSome = true ↔ Registered (MetaServer.new.serverAfter (requestsOf before)) fault)
  kept : ∀ before fault order address behind,
    past = before ++ ((.getNewCoordinator fault, order), some address) :: behind →
      (MetaServer.new.serverAfter (requestsOf before)).ipNodeMap.keys = s.server.ipNodeMap.keys →
      s.server.getNewCoordinator s.order fault = some address
  answered : ∀ fault address, Answered past fault address → Registered s.server address

theorem tracked_start : Tracked [] start where
  server := rfl
  orders := .nil
  active := by
    intro name node hget
    cases hget
  served := by simp
  kept := by simp
  answered := by
    rintro fault address ⟨order, hmem⟩
    cases hmem

/-- The last label of a trace, or one before it. -/
theorem append_singleton_split {α : Type} {past before behind : List α} {last x : α}
    (h : past ++ [last] = before ++ x :: behind) :
    (before = past ∧ x = last) ∨ ∃ behind', past = before ++ x :: behind' := by
  rcases List.eq_nil_or_concat behind with rfl | ⟨front, final, rfl⟩
  · obtain ⟨hbefore, hx⟩ := List.append_inj' h rfl
    exact .inl ⟨hbefore.symm, by simpa using hx.symm⟩
  · right
    rw [List.concat_eq_append, ← List.cons_append, ← List.append_assoc] at h
    exact ⟨front, (List.append_inj' h rfl).1⟩

/-- The names of an earlier state are still there. -/
theorem Tracked.keys_subset (h : Tracked past s) {before behind : List Label} (hpast : past = before ++ behind) :
    ∀ name ∈ (MetaServer.new.serverAfter (requestsOf before)).ipNodeMap.keys,
      name ∈ s.server.ipNodeMap.keys := by
  intro name hname
  rw [h.server, hpast, requestsOf_append, serverAfter_append]
  exact mem_keys_serverAfter hname _

/-- A registration keeps track of the answers if no name is added, or else no earlier
state has the names that there are now. -/
theorem Tracked.register (h : Tracked past s) {remoteIp : Text} {r : RegisterRequest}
    {order order' : List Text} (horder : (s.server.nodeRegister remoteIp r).ipNodeMap.Orders order')
    (hkept : ∀ m : MetaServer, (∀ name ∈ m.ipNodeMap.keys, name ∈ s.server.ipNodeMap.keys) →
      m.ipNodeMap.keys = (s.server.nodeRegister remoteIp r).ipNodeMap.keys →
        m.ipNodeMap.keys = s.server.ipNodeMap.keys ∧
          (s.server.nodeRegister remoteIp r).addresses order' = s.server.addresses s.order) :
    Tracked (past ++ [((.nodeRegister remoteIp r, order), none)])
      ⟨s.server.nodeRegister remoteIp r, order'⟩ where
  server := by
    rw [requestsOf_append, serverAfter_append, ← h.server]
    rfl
  orders := horder
  active := by
    intro name node hget
    dsimp only [MetaServer.nodeRegister] at hget
    split at hget <;> rw [SortedMap.get_put] at hget <;> split at hget
    · cases hget
      rfl
    · exact h.active name node hget
    · cases hget
      rfl
    · exact h.active name node hget
  served := by
    intro before fault order answer behind hsplit
    rcases append_singleton_split hsplit with ⟨-, hlast⟩ | ⟨behind', hpast⟩
    · cases hlast
    · exact h.served before fault order answer behind' hpast
  kept := by
    intro before fault order address behind hsplit hkeys
    rcases append_singleton_split hsplit with ⟨-, hlast⟩ | ⟨behind', hpast⟩
    · cases hlast
    · obtain ⟨hsame, haddresses⟩ := hkept _ (h.keys_subset hpast) hkeys
      have hanswer := h.kept before fault order address behind' hpast hsame
      rw [getNewCoordinator] at hanswer ⊢
      rw [haddresses, hanswer]
  answered := by
    rintro fault address ⟨order, hmem⟩
    rcases List.mem_append.mp hmem with hold | hlast
    · obtain ⟨name, node, hget, haddress⟩ := h.answered fault address ⟨order, hold⟩
      obtain ⟨node', hget', haddress'⟩ := nodeRegister_keeps hget
      exact ⟨name, node', hget', haddress'.trans haddress⟩
    · simp at hlast

theorem Tracked.step (h : Tracked past s) (hstep : Lts.Steps step s label t) :
    Tracked (past ++ [label]) t := by
  cases step_effect hstep with
  | known remoteIp r order hknown =>
      have hkeys : (s.server.nodeRegister remoteIp r).ipNodeMap.keys = s.server.ipNodeMap.keys :=
        keys_nodeRegister hknown
      have horders : (s.server.nodeRegister remoteIp r).ipNodeMap.Orders s.order := by
        rw [SortedMap.Orders, hkeys]
        exact h.orders
      refine h.register horders ?_
      intro m _ heq
      exact ⟨heq.trans hkeys, addresses_nodeRegister hknown⟩
  | fresh remoteIp r order hfresh horder =>
      refine h.register horder ?_
      intro m hsubset heq
      have hmem : r.serverName ∈ m.ipNodeMap.keys := by
        rw [heq]
        exact mem_keys_nodeRegister.mpr (.inl rfl)
      exact absurd (hsubset _ hmem) hfresh
  | answer fault order =>
      constructor
      · rw [requestsOf_append, serverAfter_append, ← h.server]
        rfl
      · exact h.orders
      · exact h.active
      · intro before fault' order' answer behind hsplit
        rcases append_singleton_split hsplit with ⟨rfl, hlast⟩ | ⟨behind', hpast⟩
        · simp only [Prod.mk.injEq, NodeRequest.getNewCoordinator.injEq] at hlast
          obtain ⟨⟨rfl, -⟩, rfl⟩ := hlast
          rw [← h.server]
          exact getNewCoordinator_isSome_iff h.orders
        · exact h.served before fault' order' answer behind' hpast
      · intro before fault' order' address behind hsplit hkeys
        rcases append_singleton_split hsplit with ⟨rfl, hlast⟩ | ⟨behind', hpast⟩
        · simp only [Prod.mk.injEq, NodeRequest.getNewCoordinator.injEq] at hlast
          obtain ⟨⟨rfl, -⟩, hsome⟩ := hlast
          exact hsome.symm
        · exact h.kept before fault' order' address behind' hpast hkeys
      · rintro fault' address ⟨order', hmem⟩
        rcases List.mem_append.mp hmem with hold | hlast
        · exact h.answered fault' address ⟨order', hold⟩
        · simp only [List.mem_singleton, Prod.mk.injEq, NodeRequest.getNewCoordinator.injEq] at hlast
          obtain ⟨⟨rfl, -⟩, hsome⟩ := hlast
          exact registered_of_getNewCoordinator h.orders hsome.symm

theorem Settled.of_append {first second : List NodeRequest} (h : Settled (first ++ second)) :
    Settled first := by
  rintro before fault behind rfl
  exact h before fault (behind ++ second) (by simp)

/-- The answers so far are those that participants rely on. -/
structure Agreed (past : List Label) : Prop where
  same : ∀ fault first second, Answered past fault first → Answered past fault second → first = second
  other : ∀ fault address, Answered past fault address → address ≠ fault

theorem answered_append {fault address : Address} (h : Answered (past ++ [label]) fault address) :
    Answered past fault address ∨ ∃ order, label = ((.getNewCoordinator fault, order), some address) := by
  obtain ⟨order, hmem⟩ := h
  rcases List.mem_append.mp hmem with hold | hlast
  · exact .inl ⟨order, hold⟩
  · exact .inr ⟨order, (List.mem_singleton.mp hlast).symm⟩

/-- An answer in a settled run agrees with the earlier ones. -/
theorem Agreed.answer (h : Agreed past) (htracked : Tracked past s) {fault address : Address}
    {order : List Text} (hanswer : s.server.getNewCoordinator s.order fault = some address)
    (hsettled : Settled (requestsOf (past ++ [((.getNewCoordinator fault, order), some address)]))) :
    address ≠ fault ∧ ∀ earlier, Answered past fault earlier → earlier = address := by
  have hregistered : Registered (MetaServer.new.serverAfter (requestsOf past)) fault := by
    rw [← htracked.server, ← getNewCoordinator_isSome_iff htracked.orders, hanswer]
    rfl
  obtain ⟨hsingle, hbetween⟩ := hsettled (requestsOf past) fault []
    (requestsOf_append past _) hregistered
  rw [← htracked.server] at hsingle hbetween
  have hother := hsingle.other htracked.orders hanswer
  refine ⟨hother, ?_⟩
  rintro earlier ⟨order', hmem⟩
  obtain ⟨before, behind, hpast⟩ := List.append_of_mem hmem
  have hfirst := (htracked.served before fault order' (some earlier) behind hpast).mp rfl
  have hrequests : requestsOf past =
      requestsOf before ++ .getNewCoordinator fault :: requestsOf behind := by
    rw [hpast, requestsOf_append]
    rfl
  rcases hbetween (requestsOf before) (requestsOf behind) hrequests hfirst with hkeys | hone
  · have hkept := htracked.kept before fault order' earlier behind hpast hkeys
    exact Option.some.inj (hkept.symm.trans hanswer)
  · obtain ⟨name, node, hget, haddress⟩ := htracked.answered fault earlier ⟨order', hmem⟩
    obtain ⟨name', node', hget', haddress'⟩ := registered_of_getNewCoordinator htracked.orders hanswer
    have hearlier := h.other fault earlier ⟨order', hmem⟩
    have hsame := hone name node name' node' hget hget' (by rwa [haddress]) (by rwa [haddress'])
    rwa [haddress, haddress'] at hsame

theorem Agreed.step (h : Agreed past) (htracked : Tracked past s) (hstep : Lts.Steps step s label t)
    (hsettled : Settled (requestsOf (past ++ [label]))) : Agreed (past ++ [label]) := by
  have hnew (fault address : Address) (order : List Text)
      (hlast : label = ((.getNewCoordinator fault, order), some address)) :
      address ≠ fault ∧ ∀ earlier, Answered past fault earlier → earlier = address := by
    subst hlast
    have hanswer : s.server.getNewCoordinator s.order fault = some address :=
      congrArg Prod.snd (Option.some.inj hstep)
    exact h.answer htracked hanswer hsettled
  constructor
  · intro fault first second hfirst hsecond
    rcases answered_append hfirst with hfirst | ⟨order, hlast⟩
    · rcases answered_append hsecond with hsecond | ⟨order, hlast⟩
      · exact h.same fault first second hfirst hsecond
      · exact (hnew fault second order hlast).2 first hfirst
    · rcases answered_append hsecond with hsecond | ⟨order', hlast'⟩
      · exact ((hnew fault first order hlast).2 second hsecond).symm
      · rw [hlast] at hlast'
        simp only [Prod.mk.injEq, Option.some.injEq] at hlast'
        exact hlast'.2
  · intro fault address hanswered
    rcases answered_append hanswered with hold | ⟨order, hlast⟩
    · exact h.other fault address hold
    · exact (hnew fault address order hlast).1

/-- In every run of settled requests all participants are told the same. -/
theorem oneSuccessor_of_settled (hrun : Lts.Run (Lts.Steps step) start trace t)
    (hsettled : Settled (requestsOf trace)) : OneSuccessor trace t := by
  have hagreed := hrun.preserves_past
    (fun past s => Tracked past s ∧ (Settled (requestsOf past) → Agreed past)) (by
      rintro past s label t hstep ⟨htracked, hagreed⟩
      refine ⟨htracked.step hstep, fun hsettled => ?_⟩
      have hbefore : Settled (requestsOf past) := by
        rw [requestsOf_append] at hsettled
        exact hsettled.of_append
      exact (hagreed hbefore).step htracked hstep hsettled)
    ⟨tracked_start, fun _ => ⟨by simp [Answered], by simp [Answered]⟩⟩
  obtain ⟨htracked, hagreed⟩ := hagreed
  constructor
  · intro before fault order behind htrace hregistered
    have hsome := (htracked.served before fault order none behind htrace).mpr hregistered
    cases hsome
  · exact (hagreed hsettled).same
  · exact (hagreed hsettled).other
  · intro fault address hanswered
    obtain ⟨name, node, hget, haddress⟩ := htracked.answered fault address hanswered
    exact ⟨name, node, hget, htracked.active name node hget, haddress⟩

end Runs

section Orders

variable {m : MetaServer} {fault : Address} {s t : NodeDirectory}

theorem orders_of_perm {entries : List (Text × Node)} (h : entries.Perm m.ipNodeMap.entries) :
    m.ipNodeMap.Orders (entries.map Prod.fst) ∧
      m.addresses (entries.map Prod.fst) = entries.map fun entry => entry.2.address := by
  refine ⟨h.map _, ?_⟩
  rw [addresses, SortedMap.entriesIn_of_perm h]

/-- The hash table may put a node in front of another one with the same address; and a
node that is alone comes in front of itself. -/
theorem exists_order_self (hregistered : Registered m fault) (hnot : ¬ Single m fault) :
    ∃ order, m.ipNodeMap.Orders order ∧ m.getNewCoordinator order fault = some fault := by
  let p (entry : Text × Node) : Bool := decide (entry.2.address = fault)
  have hperm := List.filter_append_perm p m.ipNodeMap.entries
  obtain ⟨horders, haddresses⟩ := orders_of_perm hperm
  refine ⟨_, horders, ?_⟩
  rw [getNewCoordinator, haddresses]
  obtain ⟨name, node, hget, haddress⟩ := hregistered
  have hmem : (name, node) ∈ m.ipNodeMap.entries.filter p :=
    List.mem_filter.mpr ⟨(m.ipNodeMap.get_eq_some_iff name node).mp hget, by simp [p, haddress]⟩
  have hall : ∀ entry ∈ m.ipNodeMap.entries.filter p, entry.2.address = fault := by
    intro entry hentry
    simpa [p] using (List.mem_filter.mp hentry).2
  cases hfilter : m.ipNodeMap.entries.filter p with
  | nil =>
      rw [hfilter] at hmem
      cases hmem
  | cons first others =>
      rw [hfilter] at hall hperm
      have hfirst := hall first List.mem_cons_self
      cases others with
      | cons second others =>
          have hsecond := hall second (by simp)
          simp [nextInRing, hfirst, hsecond]
      | nil =>
          have hsize : m.ipNodeMap.size < 2 := by
            by_contra hlarge
            exact hnot ⟨by simpa [p] using congrArg List.length hfilter, by omega⟩
          have hlength := hperm.length_eq
          have hrest : (m.ipNodeMap.entries.filter fun entry => !p entry) = [] := by
            rw [← List.length_eq_zero_iff]
            simp only [SortedMap.size, List.length_append, List.length_singleton] at hsize hlength
            omega
          rw [hrest]
          simp [nextInRing, hfirst]

/-- Any node with another address may come next. -/
theorem exists_order_next (hregistered : Registered m fault) {name : Text} {node : Node}
    (hget : m.ipNodeMap.get name = some node) (hother : node.address ≠ fault) :
    ∃ order, m.ipNodeMap.Orders order ∧ m.getNewCoordinator order fault = some node.address := by
  obtain ⟨faultName, faultNode, hfault, haddress⟩ := hregistered
  have hfaultMem := (m.ipNodeMap.get_eq_some_iff faultName faultNode).mp hfault
  have hmem := (m.ipNodeMap.get_eq_some_iff name node).mp hget
  have hne : (name, node) ≠ (faultName, faultNode) := by
    intro heq
    cases heq
    exact hother haddress
  have hperm := (List.perm_cons_erase hfaultMem).trans
    ((List.perm_cons_erase ((List.mem_erase_of_ne hne).mpr hmem)).cons _)
  obtain ⟨horders, haddresses⟩ := orders_of_perm hperm.symm
  refine ⟨_, horders, ?_⟩
  rw [getNewCoordinator, haddresses]
  simp [nextInRing, haddress]

/-- A registration is possible in such a way that a wanted order can still be had in the
end: the order is free if the name is new, and is kept unless another new name is to come. -/
theorem exists_register (horders : s.server.ipNodeMap.Orders s.order) (remoteIp : Text)
    (r : RegisterRequest) {m : MetaServer} {order : List Text} (horder : m.ipNodeMap.Orders order)
    (hfree : m.ipNodeMap.keys ≠ s.server.ipNodeMap.keys ∨ order = s.order) :
    ∃ next, Lts.Steps step s ((.nodeRegister remoteIp r, next), none)
        ⟨s.server.nodeRegister remoteIp r, next⟩ ∧
      (s.server.nodeRegister remoteIp r).ipNodeMap.Orders next ∧
      (m.ipNodeMap.keys ≠ (s.server.nodeRegister remoteIp r).ipNodeMap.keys ∨ order = next) := by
  by_cases hknown : r.serverName ∈ s.server.ipNodeMap.keys
  · have hcontains := contains_iff_mem_keys.mpr hknown
    have hkeys : (s.server.nodeRegister remoteIp r).ipNodeMap.keys = s.server.ipNodeMap.keys :=
      keys_nodeRegister hknown
    refine ⟨s.order, ?_, ?_, ?_⟩
    · simp [Lts.Steps, step, hcontains]
    · rw [SortedMap.Orders, hkeys]
      exact horders
    · rwa [hkeys]
  · have hcontains : ¬ s.server.ipNodeMap.contains r.serverName = true :=
      fun hmem => hknown (contains_iff_mem_keys.mp hmem)
    have hfresh {next : List Text} (hnow : (s.server.nodeRegister remoteIp r).ipNodeMap.Orders next) :
        Lts.Steps step s ((.nodeRegister remoteIp r, next), none)
          ⟨s.server.nodeRegister remoteIp r, next⟩ := by
      simp [Lts.Steps, step, hcontains, hnow]
    by_cases hlast : m.ipNodeMap.keys = (s.server.nodeRegister remoteIp r).ipNodeMap.keys
    · have hnow : (s.server.nodeRegister remoteIp r).ipNodeMap.Orders order := by
        rw [SortedMap.Orders, ← hlast]
        exact horder
      exact ⟨order, hfresh hnow, hnow, .inr rfl⟩
    · have hnow : (s.server.nodeRegister remoteIp r).ipNodeMap.Orders
          (s.server.nodeRegister remoteIp r).ipNodeMap.keys := List.Perm.refl _
      exact ⟨_, hfresh hnow, hnow, .inl hlast⟩

/-- Every list of requests is answered, and if it adds a name, any order of the nodes
may stand at its end. -/
theorem exists_run (horders : s.server.ipNodeMap.Orders s.order) (requests : List NodeRequest)
    {order : List Text} (horder : (s.server.serverAfter requests).ipNodeMap.Orders order)
    (hfree : (s.server.serverAfter requests).ipNodeMap.keys ≠ s.server.ipNodeMap.keys ∨
      order = s.order) :
    ∃ trace, requestsOf trace = requests ∧
      Lts.Run (Lts.Steps step) s trace ⟨s.server.serverAfter requests, order⟩ := by
  induction requests generalizing s with
  | nil =>
      rcases hfree with hkeys | rfl
      · exact absurd rfl hkeys
      · exact ⟨[], rfl, .nil s⟩
  | cons request requests ih =>
      cases request with
      | getNewCoordinator fault =>
          obtain ⟨trace, htrace, hrun⟩ := ih horders horder hfree
          exact ⟨((.getNewCoordinator fault, []), s.server.getNewCoordinator s.order fault) :: trace,
            by rw [← htrace]; rfl, .cons rfl hrun⟩
      | nodeRegister remoteIp r =>
          obtain ⟨next, hstep, hnextOrders, hnextFree⟩ :=
            exists_register horders remoteIp r horder hfree
          obtain ⟨trace, htrace, hrun⟩ :=
            ih (s := ⟨s.server.nodeRegister remoteIp r, next⟩) hnextOrders horder hnextFree
          exact ⟨_ :: trace, by rw [← htrace]; rfl, .cons hstep hrun⟩

/-- Every list of requests is answered. -/
theorem exists_run_any (horders : s.server.ipNodeMap.Orders s.order) (requests : List NodeRequest) :
    ∃ trace t, requestsOf trace = requests ∧ Lts.Run (Lts.Steps step) s trace t ∧
      t.server = s.server.serverAfter requests ∧ t.server.ipNodeMap.Orders t.order := by
  by_cases hkeys : (s.server.serverAfter requests).ipNodeMap.keys = s.server.ipNodeMap.keys
  · have horder : (s.server.serverAfter requests).ipNodeMap.Orders s.order := by
      rw [SortedMap.Orders, hkeys]
      exact horders
    obtain ⟨trace, htrace, hrun⟩ := exists_run horders requests horder (.inr rfl)
    exact ⟨trace, _, htrace, hrun, rfl, horder⟩
  · have horder : (s.server.serverAfter requests).ipNodeMap.Orders
        (s.server.serverAfter requests).ipNodeMap.keys := List.Perm.refl _
    obtain ⟨trace, htrace, hrun⟩ := exists_run horders requests horder (.inl hkeys)
    exact ⟨trace, _, htrace, hrun, rfl, horder⟩

/-- A run up to a request goes on behind it. -/
theorem exists_run_behind {before behind : List NodeRequest} {order : List Text} {address : Address}
    {trace : List Label} (htrace : requestsOf trace = before)
    (hrun : Lts.Run (Lts.Steps step) start trace ⟨MetaServer.new.serverAfter before, order⟩)
    (horder : (MetaServer.new.serverAfter before).ipNodeMap.Orders order)
    (hanswer : (MetaServer.new.serverAfter before).getNewCoordinator order fault = some address) :
    ∃ rest t, requestsOf (trace ++ ((.getNewCoordinator fault, []), some address) :: rest) =
        before ++ .getNewCoordinator fault :: behind ∧
      Lts.Run (Lts.Steps step) start
        (trace ++ ((.getNewCoordinator fault, []), some address) :: rest) t := by
  obtain ⟨rest, t, hrest, hrunRest, -, -⟩ := exists_run_any
    (s := ⟨MetaServer.new.serverAfter before, order⟩) horder behind
  have hstep : Lts.Steps step ⟨MetaServer.new.serverAfter before, order⟩
      ((.getNewCoordinator fault, []), some address) ⟨MetaServer.new.serverAfter before, order⟩ := by
    simp [Lts.Steps, step, hanswer]
  refine ⟨rest, t, ?_, hrun.append (.cons hstep hrunRest)⟩
  rw [requestsOf_append, htrace, ← hrest]
  rfl

section Settled

variable {before behind : List NodeRequest}
  (h : ∀ trace t, requestsOf trace = before ++ .getNewCoordinator fault :: behind →
    Lts.Run (Lts.Steps step) start trace t → OneSuccessor trace t)
  (hregistered : Registered (MetaServer.new.serverAfter before) fault)

include h hregistered

/-- Otherwise an order of the nodes makes a node its own successor. -/
theorem single_of_oneSuccessor : Single (MetaServer.new.serverAfter before) fault := by
  by_contra hnot
  have hnonempty :
      (MetaServer.new.serverAfter before).ipNodeMap.keys ≠ MetaServer.new.ipNodeMap.keys := by
    obtain ⟨name, node, hget, -⟩ := hregistered
    have hmem := (SortedMap.mem_keys_iff _ name).mpr ⟨node, hget⟩
    intro heq
    rw [heq] at hmem
    cases hmem
  obtain ⟨order, horder, hanswer⟩ := exists_order_self hregistered hnot
  obtain ⟨trace, htrace, hrun⟩ := exists_run (s := start) .nil before horder (.inl hnonempty)
  obtain ⟨rest, t, hrequests, hrunAll⟩ := exists_run_behind htrace hrun horder hanswer
  exact (h _ t hrequests hrunAll).other fault fault ⟨[], by simp⟩ rfl

/-- Otherwise an order of the nodes makes the second answer another one than the first. -/
theorem keys_of_oneSuccessor {first between : List NodeRequest}
    (hbefore : before = first ++ .getNewCoordinator fault :: between)
    (hfirst : Registered (MetaServer.new.serverAfter first) fault) :
    (MetaServer.new.serverAfter first).ipNodeMap.keys =
        (MetaServer.new.serverAfter before).ipNodeMap.keys ∨
      OneOther (MetaServer.new.serverAfter before) fault := by
  by_contra hnot
  rw [not_or] at hnot
  obtain ⟨hkeys, hothers⟩ := hnot
  simp only [OneOther, not_forall] at hothers
  obtain ⟨name, node, name', node', hget, hget', hother, hother', hne⟩ := hothers
  obtain ⟨trace, s, htrace, hrun, hserver, horders⟩ := exists_run_any (s := start) .nil first
  obtain ⟨earlier, hearlier⟩ : ∃ earlier, s.server.getNewCoordinator s.order fault = some earlier := by
    rw [← Option.isSome_iff_exists, getNewCoordinator_isSome_iff horders, hserver]
    exact hfirst
  -- one of the two nodes has another address than the first answer
  obtain ⟨address, hdiffers, order, horder, hanswer⟩ : ∃ address, address ≠ earlier ∧ ∃ order,
      (MetaServer.new.serverAfter before).ipNodeMap.Orders order ∧
      (MetaServer.new.serverAfter before).getNewCoordinator order fault = some address := by
    by_cases heq : node.address = earlier
    · exact ⟨node'.address, fun heq' => hne (heq.trans heq'.symm),
        exists_order_next hregistered hget' hother'⟩
    · exact ⟨node.address, heq, exists_order_next hregistered hget hother⟩
  have hafter : MetaServer.new.serverAfter before = s.server.serverAfter between := by
    rw [hbefore, serverAfter_append, hserver]
    rfl
  have horderBetween := horder
  rw [hafter] at horderBetween hkeys
  obtain ⟨traceBetween, htraceBetween, hrunBetween⟩ := exists_run horders between horderBetween
    (.inl fun heq => hkeys (by rw [heq, hserver]; rfl))
  have hstep : Lts.Steps step s ((.getNewCoordinator fault, []), some earlier) s := by
    simp [Lts.Steps, step, hearlier]
  have hrunBoth := hrun.append (.cons hstep hrunBetween)
  rw [← hafter] at hrunBoth
  have hrequestsBoth :
      requestsOf (trace ++ ((.getNewCoordinator fault, []), some earlier) :: traceBetween) = before := by
    rw [requestsOf_append, htrace, hbefore, ← htraceBetween]
    rfl
  obtain ⟨rest, t, hrequests, hrunAll⟩ := exists_run_behind hrequestsBoth hrunBoth horder hanswer
  have hone := h _ t hrequests hrunAll
  exact hdiffers (hone.same fault address earlier ⟨[], by simp⟩ ⟨[], by simp⟩)

end Settled

/-- If the hash table can break what participants rely on in no run, the requests are
settled. -/
theorem settled_of_oneSuccessor {requests : List NodeRequest}
    (h : ∀ trace t, requestsOf trace = requests → Lts.Run (Lts.Steps step) start trace t →
      OneSuccessor trace t) : Settled requests := by
  rintro before fault behind rfl hregistered
  refine ⟨single_of_oneSuccessor h hregistered, ?_⟩
  intro first between hbefore hfirst
  exact keys_of_oneSuccessor h hregistered hbefore hfirst

/-- Exactly for settled requests do all participants learn the same successor whatever
the hash table does. -/
theorem one_successor_iff (requests : List NodeRequest) :
    (∀ trace t, requestsOf trace = requests → Lts.Run (Lts.Steps step) start trace t →
      OneSuccessor trace t) ↔ Settled requests := by
  constructor
  · exact settled_of_oneSuccessor
  · rintro hsettled trace t rfl hrun
    exact oneSuccessor_of_settled hrun hsettled

end Orders

/-- Between two requests for the successor of the node `1` the node `3` is registered,
and the hash table puts it behind the node `1`. -/
def joining : List Label :=
  [((.nodeRegister ['1'] ⟨['a'], 1⟩, [['a']]), none),
    ((.nodeRegister ['2'] ⟨['b'], 2⟩, [['a'], ['b']]), none),
    ((.getNewCoordinator (['1'], 1), []), some (['2'], 2)),
    ((.nodeRegister ['3'] ⟨['c'], 3⟩, [['a'], ['c'], ['b']]), none),
    ((.getNewCoordinator (['1'], 1), []), some (['3'], 3))]

/-- Two participants are told two coordinators for one transaction. -/
theorem joining_two_successors :
    ∃ t, Lts.Run (Lts.Steps step) start joining t ∧ ¬ OneSuccessor joining t := by
  obtain ⟨t, hrun⟩ : ∃ t, Lts.Run (Lts.Steps step) start joining t :=
    Lts.run_of_exec_events joining (by decide +kernel)
  refine ⟨t, hrun, ?_⟩
  intro hone
  have hsame := hone.same (['1'], 1) (['2'], 2) (['3'], 3) ⟨[], by simp [joining]⟩
    ⟨[], by simp [joining]⟩
  exact absurd hsame (by decide)

end NodeDirectory

end RucDDBS
