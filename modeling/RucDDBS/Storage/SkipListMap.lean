import RucDDBS.Library.Run
import RucDDBS.Storage.SSTable
import RucDDBS.Storage.SkipListShape

/-!
The skip list against the finite map that it stands for. Every sequence of updates goes
through, with any heights, and afterwards all the queries answer as the map does: the
heights decide only along which links a key is found.
-/

namespace RucDDBS

namespace SkipList

section Refines

def Cell.entry (c : Cell) : Entry := (c.key, c.value)

/-- The entries of the map are the cells of the list. -/
def Refines (s : SkipList) (m : Memtable) : Prop :=
  ∃ height cells, Shape s height cells ∧ m.entries = cells.map Cell.entry

variable {s : SkipList} {m : Memtable} {height : Nat} {cells below here above : List Cell}
  {key : Bytes}

theorem Around.entries (h : Around key cells below here above) (hm : m.entries = cells.map Cell.entry) :
    m.entries = below.map Cell.entry ++ (here.map Cell.entry ++ above.map Cell.entry) := by
  rw [hm, h.eq, List.map_append, List.map_append]

theorem Around.belowEntries (h : Around key cells below here above) :
    ∀ e ∈ below.map Cell.entry, e.1 < key := List.forall_mem_map.mpr h.below

theorem Around.hereEntries (h : Around key cells below here above) :
    ∀ e ∈ here.map Cell.entry, e.1 = key := List.forall_mem_map.mpr h.here

theorem Around.aboveEntries (h : Around key cells below here above) :
    ∀ e ∈ above.map Cell.entry, key < e.1 := List.forall_mem_map.mpr h.above

theorem Around.get (h : Around key cells below here above) (hm : m.entries = cells.map Cell.entry) :
    m.get key = (here.map Cell.entry).lookup key :=
  SortedMap.get_cut m key (h.entries hm) h.belowEntries h.aboveEntries

theorem Around.get_absent (h : Around key cells below [] above)
    (hm : m.entries = cells.map Cell.entry) : m.get key = none := h.get hm

theorem Around.get_here {c : Cell} (h : Around key cells below [c] above)
    (hm : m.entries = cells.map Cell.entry) : m.get key = some c.value := by
  rw [h.get hm, ← h.here c (by simp)]
  simp [Cell.entry]

theorem Around.put (h : Around key cells below here above) (hm : m.entries = cells.map Cell.entry)
    (value : Bytes) :
    (m.put key value).entries = below.map Cell.entry ++ (key, value) :: above.map Cell.entry :=
  SortedMap.entries_put_cut value (h.entries hm) h.belowEntries h.hereEntries h.aboveEntries

theorem Around.del (h : Around key cells below here above) (hm : m.entries = cells.map Cell.entry) :
    (m.del key).entries = (below ++ above).map Cell.entry := by
  rw [List.map_append]
  exact SortedMap.entries_del_cut (h.entries hm) h.belowEntries h.hereEntries h.aboveEntries

theorem Refines.put (h : Refines s m) (key value : Bytes) (ones : Nat) :
    ∃ s', s.put key value ones = some s' ∧ Refines s' (m.put key value) := by
  obtain ⟨height, cells, hshape, hm⟩ := h
  rcases exists_around hshape.sorted key with ⟨below, above, hkey⟩ | ⟨below, c, above, hkey⟩
  · obtain ⟨s', height', a, n, hput, hshape'⟩ := hshape.put_absent hkey value ones
    refine ⟨s', hput, height', _, hshape', ?_⟩
    rw [hkey.put hm, List.map_append, List.map_cons, Cell.entry]
  · obtain ⟨s', hput, hshape'⟩ := hshape.put_here hkey value ones
    refine ⟨s', hput, height, _, hshape', ?_⟩
    rw [hkey.put hm, List.map_append, List.map_cons, Cell.entry, hkey.here c (by simp)]

theorem Refines.del (h : Refines s m) (key : Bytes) :
    ∃ s', s.del key = some (s', m.contains key) ∧ Refines s' (m.del key) := by
  obtain ⟨height, cells, hshape, hm⟩ := h
  rcases exists_around hshape.sorted key with ⟨below, above, hkey⟩ | ⟨below, c, above, hkey⟩
  · refine ⟨s, ?_, height, cells, hshape, ?_⟩
    · rw [hshape.del_absent hkey, SortedMap.contains, hkey.get_absent hm]
      rfl
    · rw [hkey.del hm, hkey.eq, List.nil_append]
  · obtain ⟨s', hdel, hshape'⟩ := hshape.del_here hkey
    refine ⟨s', ?_, height, _, hshape', hkey.del hm⟩
    rw [hdel, SortedMap.contains, hkey.get_here hm]
    rfl

theorem Refines.clear (h : Refines s m) : ∃ s', s.clear = some s' ∧ Refines s' .empty := by
  obtain ⟨height, cells, hshape, _⟩ := h
  obtain ⟨s', hclear, hshape'⟩ := hshape.clear
  exact ⟨s', hclear, 1, [], hshape', rfl⟩

theorem refines_new : ∃ s, SkipList.new = some s ∧ Refines s .empty := by
  obtain ⟨s, hinit, hshape⟩ := shape_init (s := ⟨fun _ => none, null + 1, null, null, 0, 0⟩)
    (fun _ _ => rfl) ⟨rfl, Nat.one_pos⟩
  exact ⟨s, hinit, 1, [], hshape, rfl⟩

theorem Refines.get (h : Refines s m) (key : Bytes) :
    s.get key = some ((m.get key).isSome, (m.get key).getD []) := by
  obtain ⟨height, cells, hshape, hm⟩ := h
  rcases exists_around hshape.sorted key with ⟨below, above, hkey⟩ | ⟨below, c, above, hkey⟩
  · obtain ⟨x, prevs, hfind, hat, _⟩ := hshape.find_absent hkey
    rw [hkey.get_absent hm, SkipList.get, hfind]
    simp only [Option.bind_eq_bind, Option.bind_some, hat]
    rfl
  · obtain ⟨prevs, hfind, hat, hnode, _⟩ := hshape.find_here hkey
    rw [hkey.get_here hm, SkipList.get, hfind]
    simp only [Option.bind_eq_bind, Option.bind_some, hat, hnode]
    rfl

theorem Refines.contains (h : Refines s m) (key : Bytes) :
    s.contains key = some (m.contains key) := by
  obtain ⟨height, cells, hshape, hm⟩ := h
  rcases exists_around hshape.sorted key with ⟨below, above, hkey⟩ | ⟨below, c, above, hkey⟩
  · obtain ⟨x, prevs, hfind, hat, _⟩ := hshape.find_absent hkey
    rw [SortedMap.contains, hkey.get_absent hm, SkipList.contains, hfind]
    exact hat
  · obtain ⟨prevs, hfind, hat, _, _⟩ := hshape.find_here hkey
    rw [SortedMap.contains, hkey.get_here hm, SkipList.contains, hfind]
    exact hat

theorem Refines.size (h : Refines s m) : s.size = m.size := by
  obtain ⟨height, cells, hshape, hm⟩ := h
  rw [SkipList.size, hshape.entries, SortedMap.size, hm, List.length_map]

theorem Refines.isEmpty (h : Refines s m) : s.isEmpty = m.isEmpty := by
  obtain ⟨height, cells, hshape, hm⟩ := h
  rw [SkipList.isEmpty, hshape.entries, SortedMap.isEmpty, hm]
  cases cells <;> rfl

theorem Refines.space (h : Refines s m) : s.space = m.space := by
  obtain ⟨height, cells, hshape, hm⟩ := h
  rw [SkipList.space, hshape.bytes, Memtable.space, hm, List.map_map]
  rfl

end Refines

section Runs

/-- The updates; the random heights are given by the ones drawn for them. -/
inductive Action where
  | put (key value : Bytes) (ones : Nat)
  | del (key : Bytes)
  | clear

/-- An update of the list, with what `del` returns. -/
def step (s : SkipList) : Action → Option (SkipList × Option Bool)
  | .put key value ones => do
      let s ← s.put key value ones
      pure (s, none)
  | .del key => do
      let (s, found) ← s.del key
      pure (s, some found)
  | .clear => do
      let s ← s.clear
      pure (s, none)

/-- The same update of a finite map. -/
def mapStep (m : Memtable) : Action → Option (Memtable × Option Bool)
  | .put key value _ => some (m.put key value, none)
  | .del key => some (m.del key, some (m.contains key))
  | .clear => some (.empty, none)

theorem Refines.step {s : SkipList} {m : Memtable} (action : Action) (h : Refines s m) :
    ∃ s' m' out, s.step action = some (s', out) ∧ mapStep m action = some (m', out) ∧
      Refines s' m' := by
  cases action with
  | put key value ones =>
      obtain ⟨s', hput, hrefines⟩ := h.put key value ones
      refine ⟨s', m.put key value, none, ?_, rfl, hrefines⟩
      simp [SkipList.step, hput]
  | del key =>
      obtain ⟨s', hdel, hrefines⟩ := h.del key
      refine ⟨s', m.del key, some (m.contains key), ?_, rfl, hrefines⟩
      simp [SkipList.step, hdel]
  | clear =>
      obtain ⟨s', hclear, hrefines⟩ := h.clear
      refine ⟨s', .empty, none, ?_, rfl, hrefines⟩
      simp [SkipList.step, hclear]

/-- The list against the map, after any updates of both. -/
theorem refines_map (actions : List Action) :
    ∃ s₀ s m outs, SkipList.new = some s₀ ∧ Lts.exec SkipList.step s₀ actions = some (s, outs) ∧
      Lts.exec mapStep .empty actions = some (m, outs) ∧
      (∀ key, s.get key = some ((m.get key).isSome, (m.get key).getD [])) ∧
      (∀ key, s.contains key = some (m.contains key)) ∧
      s.size = m.size ∧ s.isEmpty = m.isEmpty ∧ s.space = m.space := by
  obtain ⟨s₀, hnew, hstart⟩ := refines_new
  obtain ⟨s, m, outs, hlist, hmap, hrefines⟩ :=
    Lts.exec_of_simulation Refines (fun _ _ action h => h.step action) hstart actions
  exact ⟨s₀, s, m, outs, hnew, hlist, hmap, hrefines.get, hrefines.contains, hrefines.size,
    hrefines.isEmpty, hrefines.space⟩

/-- The head grows to height 3 and back to 1, and the empty key is a key. -/
example : (do
    let s ← SkipList.new
    let (s, outs) ← Lts.exec SkipList.step s
      [.put [7] [1] 2, .put [] [2, 3] 0, .del [7], .clear, .put [7] [4] 1, .del []]
    let found ← s.get [7]
    pure (outs, found, s.size, s.space)) =
      some ([none, none, some true, none, none, some false], (true, [4]), 1, 2) := by decide

end Runs

end SkipList

end RucDDBS
