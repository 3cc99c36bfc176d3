import RucDDBS.Storage.SkipListMap

/-!
The iterator of the skip list. Forwards it follows the links of the lowest level;
backwards, and to the last node, it searches again from the head through all levels.
Both directions go over the same cells, as every level is a part of the lowest one.
-/

namespace RucDDBS

namespace SkipList

/-- The loop of `findLessThan` and `findLast`: along a level as long as the test holds of
the next node, then on the level below. -/
def backLoop (s : SkipList) (goesOn : Addr → Option Bool) : Nat → Addr → Nat → Option Addr
  | 0, _, _ => none
  | fuel + 1, node, level => do
      let next ← s.next node level
      if ← goesOn next then s.backLoop goesOn fuel next level
      else if level = 0 then pure node
      else s.backLoop goesOn fuel node (level - 1)

def findLessThan (s : SkipList) (key : Bytes) : Option Addr := do
  let height ← s.getMaxHeight
  s.backLoop (fun next => s.isBelow next key) (s.numEntries + height) s.head (height - 1)

def findLast (s : SkipList) : Option Addr := do
  let height ← s.getMaxHeight
  s.backLoop (fun next => some (decide (next ≠ s.tail))) (s.numEntries + height) s.head (height - 1)

end SkipList

open SkipList in
/-- `SkipList::Iterator`; a failed assertion is `none`. -/
structure SkipListIter where
  node : Addr

namespace SkipListIter

open SkipList

def new : SkipListIter := ⟨null⟩

def valid (it : SkipListIter) : Bool := it.node ≠ null

def seekToFirst (s : SkipList) : Option SkipListIter := do
  let node ← s.next s.head 0
  pure ⟨if node = s.tail then null else node⟩

def seekToLast (s : SkipList) : Option SkipListIter := do
  let node ← s.findLast
  pure ⟨if node = s.head then null else node⟩

def seek (s : SkipList) (key : Bytes) : Option SkipListIter := do
  let (node, _) ← s.findGreatorOrEqual key
  pure ⟨if node = s.tail then null else node⟩

def key (s : SkipList) (it : SkipListIter) : Option Bytes :=
  if it.valid then (s.nodes it.node).map Node.key else none

def value (s : SkipList) (it : SkipListIter) : Option Bytes :=
  if it.valid then (s.nodes it.node).map Node.value else none

def next (s : SkipList) (it : SkipListIter) : Option SkipListIter :=
  if it.valid then do
    let node ← s.next it.node 0
    pure ⟨if node = s.tail then null else node⟩
  else none

def prev (s : SkipList) (it : SkipListIter) : Option SkipListIter :=
  if it.valid then do
    let here ← s.nodes it.node
    let node ← s.findLessThan here.key
    pure ⟨if node = s.head then null else node⟩
  else none

/-- The pair under the iterator, if there is one. -/
def current (s : SkipList) (it : SkipListIter) : Option (Option Entry) :=
  if it.valid then do
    let key ← it.key s
    let value ← it.value s
    pure (some (key, value))
  else some none

/-- The pairs under the iterator until it is not valid. -/
def collect (s : SkipList) (advance : SkipListIter → Option SkipListIter) :
    Nat → SkipListIter → Option (List Entry)
  | 0, _ => none
  | fuel + 1, it => do
      match ← it.current s with
      | none => pure []
      | some e =>
          let it ← advance it
          let rest ← collect s advance fuel it
          pure (e :: rest)

def forwards (s : SkipList) (fuel : Nat) : Option (List Entry) := do
  let it ← seekToFirst s
  collect s (next s) fuel it

def backwards (s : SkipList) (fuel : Nat) : Option (List Entry) := do
  let it ← seekToLast s
  collect s (prev s) fuel it

end SkipListIter

namespace SkipList

section Search

variable {s : SkipList} {goesOn : Addr → Option Bool} {front pre mid above cells : List Cell}
  {p x : Cell} {height : Nat} {key : Bytes}

/-- The loop ends at the last cell of which the test holds. -/
theorem backLoop_eq (level fuel : Nat) (hfront : front = pre ++ x :: mid)
    (hlaid : Laid s.nodes s.tail (front ++ above)) (hmid : ∀ c ∈ mid, goesOn c.addr = some true)
    (habove : ∀ i, goesOn (linkTo s.tail i above) = some false) (hlevel : level < x.height)
    (hfuel : mid.length + level < fuel) :
    ∃ p, s.backLoop goesOn fuel x.addr level = some p.addr ∧ LastOn 0 front p := by
  induction fuel generalizing pre x mid level with
  | zero => omega
  | succ fuel ih =>
      rw [backLoop]
      rcases next_on_level hfront hlaid hlevel with
        ⟨skipped, y, mid', rfl, hylevel, hnext⟩ | ⟨hlast, hnext⟩
      · -- forward to `y`
        rw [hnext, Option.bind_eq_bind, Option.bind_some, hmid y (by simp)]
        have hfront' : front = (pre ++ x :: skipped) ++ y :: mid' := by simp [hfront]
        have hmid' : ∀ c ∈ mid', goesOn c.addr = some true := fun c hc => hmid c (by simp [hc])
        rw [List.length_append, List.length_cons] at hfuel
        exact ih level hfront' hmid' hylevel (by omega)
      · -- down from `x`
        rw [hnext, Option.bind_eq_bind, Option.bind_some, habove level]
        cases level with
        | zero => exact ⟨x, rfl, hlast⟩
        | succ level => exact ih level hfront hmid (by omega) (by omega)

/-- On the lowest level, which all cells are on, the last cell is the end of the list. -/
theorem LastOn.last (h : LastOn 0 front p) (hheights : ∀ c ∈ front, 0 < c.height) :
    front.getLast? = some p := by
  obtain ⟨pre, mid, rfl, _, hmid⟩ := h
  cases mid with
  | nil => simp
  | cons c mid => exact absurd (hheights c (by simp)) (hmid c (by simp))

theorem Shape.front_heights (h : Shape s height cells) (hsub : ∀ c ∈ front, c ∈ cells) :
    ∀ c ∈ s.headCell height :: front, 0 < c.height := by
  intro c hc
  rcases List.mem_cons.mp hc with rfl | hc
  · exact h.headHeight.1
  · exact (h.heights c (hsub c hc)).1

/-- A search back from the head through all levels ends at the last cell of `front`. -/
theorem Shape.back (h : Shape s height cells) (hcells : cells = front ++ above)
    (hfront : ∀ c ∈ front, goesOn c.addr = some true)
    (habove : ∀ i, goesOn (linkTo s.tail i above) = some false) :
    ∃ p, s.backLoop goesOn (s.numEntries + height) s.head (height - 1) = some p.addr ∧
      (s.headCell height :: front).getLast? = some p := by
  obtain ⟨hpos, _⟩ := h.headHeight
  have hlaid : Laid s.nodes s.tail (s.headCell height :: front ++ above) := by
    rw [List.cons_append, ← hcells]
    exact h.laid
  have hlevel : height - 1 < (s.headCell height).height := Nat.sub_lt hpos (by omega)
  have hfuel : front.length + (height - 1) < s.numEntries + height := by
    rw [h.entries, hcells, List.length_append]
    omega
  obtain ⟨p, hloop, hlast⟩ := backLoop_eq (height - 1) (s.numEntries + height)
    (List.nil_append _).symm hlaid hfront habove hlevel hfuel
  refine ⟨p, hloop, hlast.last (h.front_heights fun c hc => ?_)⟩
  simp [hcells, hc]

/-- The node in front of a key. -/
theorem Shape.findLessThan (h : Shape s height cells) (hcells : cells = front ++ above)
    (hfront : ∀ c ∈ front, c.key < key) (habove : ∀ c ∈ above, ¬ c.key < key) :
    ∃ p, s.findLessThan key = some p.addr ∧ (s.headCell height :: front).getLast? = some p := by
  have hbelow : ∀ c ∈ front, s.isBelow c.addr key = some true := by
    intro c hc
    have hmem : c ∈ cells := by simp [hcells, hc]
    rw [isBelow_of_laid h.laidCells hmem (h.tail_ne hmem), decide_eq_true (hfront c hc)]
  have hlaid : Laid s.nodes s.tail above := (hcells ▸ h.laidCells).suffix
  have hstop := isBelow_linkTo hlaid (fun c hc => h.tail_ne (by simp [hcells, hc])) habove
  rw [SkipList.findLessThan, h.getMaxHeight]
  exact h.back hcells hbelow hstop

theorem Shape.findLast (h : Shape s height cells) :
    ∃ p, s.findLast = some p.addr ∧ (s.headCell height :: cells).getLast? = some p := by
  rw [SkipList.findLast, h.getMaxHeight]
  apply h.back (List.append_nil _).symm
  · intro c hc
    rw [decide_eq_true (h.tail_ne hc)]
  · intro i
    rw [linkTo_of_none (by simp)]
    simp

end Search

end SkipList

namespace SkipListIter

open SkipList

section Positions

variable {s : SkipList} {height fuel : Nat} {cells below above rest list : List Cell} {c p : Cell}
  {key : Bytes}

/-- The iterator on the first of the cells, or not valid if there is none. -/
def on (cells : List Cell) : SkipListIter := ⟨cells.head?.elim null Cell.addr⟩

theorem addr_ne_null (h : Shape s height cells) (hc : c ∈ cells) : c.addr ≠ null := by
  obtain ⟨pre, post, heq⟩ := List.append_of_mem hc
  have hnode := h.laidCells pre c post heq
  intro hnull
  rw [hnull, h.nullNode.1] at hnode
  exact absurd hnode (by simp)

theorem addr_ne_head (h : Shape s height cells) (hc : c ∈ cells) : c.addr ≠ s.head :=
  addr_ne_of_notMem (List.nodup_cons.mp h.nodup).1 c hc

theorem on_valid (h : Shape s height cells) (hc : c ∈ cells) : (on (c :: rest)).valid = true :=
  decide_eq_true (addr_ne_null h hc)

theorem current_on (h : Shape s height cells) (hrest : ∀ c ∈ rest, c ∈ cells) :
    (on rest).current s = some (rest.head?.map Cell.entry) := by
  cases rest with
  | nil => rfl
  | cons c rest =>
      have hc := hrest c (by simp)
      obtain ⟨pre, post, heq⟩ := List.append_of_mem hc
      have hnode : s.nodes (on (c :: rest)).node = some (image s.tail c post) :=
        h.laidCells pre c post heq
      rw [current, if_pos (on_valid h hc), SkipListIter.key, SkipListIter.value,
        if_pos (on_valid h hc), if_pos (on_valid h hc), hnode]
      rfl

/-- A link of the lowest level leads to the next cell. -/
theorem on_linkTo (h : Shape s height cells) (hrest : ∀ c ∈ rest, c ∈ cells) :
    (⟨if linkTo s.tail 0 rest = s.tail then null else linkTo s.tail 0 rest⟩ : SkipListIter) =
      on rest := by
  cases rest with
  | nil =>
      rw [linkTo_of_none (by simp), if_pos rfl]
      rfl
  | cons c rest =>
      have hc := hrest c (by simp)
      rw [linkTo_cons_of_lt (h.heights c hc).1, if_neg (h.tail_ne hc)]
      rfl

/-- The last of the head and some cells is the last cell, if there is one. -/
theorem on_getLast (h : Shape s height cells) (hbelow : ∀ c ∈ below, c ∈ cells)
    (hlast : (s.headCell height :: below).getLast? = some p) :
    (⟨if p.addr = s.head then null else p.addr⟩ : SkipListIter) = on below.reverse := by
  rcases List.eq_nil_or_concat below with rfl | ⟨below, c, rfl⟩
  · rw [List.getLast?_singleton, Option.some.injEq] at hlast
    subst hlast
    exact congrArg SkipListIter.mk (if_pos rfl)
  · rw [List.concat_eq_append, ← List.cons_append, List.getLast?_concat, Option.some.injEq] at hlast
    subst hlast
    rw [if_neg (addr_ne_head h (hbelow c (by simp))), List.concat_eq_append, List.reverse_concat]
    rfl

theorem seekToFirst_eq (h : Shape s height cells) : seekToFirst s = some (on cells) := by
  have hnext : s.next s.head 0 = some (linkTo s.tail 0 cells) := next_of_laid h.laid h.headHeight.1
  rw [seekToFirst, hnext, Option.bind_eq_bind, Option.bind_some]
  exact congrArg some (on_linkTo h fun _ hc => hc)

theorem seekToLast_eq (h : Shape s height cells) : seekToLast s = some (on cells.reverse) := by
  obtain ⟨p, hfind, hlast⟩ := h.findLast
  rw [seekToLast, hfind, Option.bind_eq_bind, Option.bind_some]
  exact congrArg some (on_getLast h (fun _ hc => hc) hlast)

theorem seek_eq (h : Shape s height cells) (hcells : cells = below ++ rest)
    (hbelow : ∀ c ∈ below, c.key < key) (hrest : ∀ c ∈ rest, ¬ c.key < key) :
    seek s key = some (on rest) := by
  obtain ⟨prevs, hfind, _⟩ := h.find hcells hbelow hrest
  rw [seek, hfind, Option.bind_eq_bind, Option.bind_some]
  exact congrArg some (on_linkTo h fun c hc => by simp [hcells, hc])

theorem next_eq (h : Shape s height cells) (hcells : cells = below ++ c :: above) :
    (on (c :: above)).next s = some (on above) := by
  have hc : c ∈ cells := by simp [hcells]
  have hlaid : Laid s.nodes s.tail (c :: above) := (hcells ▸ h.laidCells).suffix
  have hnext : s.next (on (c :: above)).node 0 = some (linkTo s.tail 0 above) :=
    next_of_laid hlaid (h.heights c hc).1
  rw [SkipListIter.next, if_pos (on_valid h hc), hnext, Option.bind_eq_bind, Option.bind_some]
  exact congrArg some (on_linkTo h fun c hc => by simp [hcells, hc])

/-- Backwards the iterator searches for its own key. -/
theorem prev_eq (h : Shape s height cells) (hcells : cells = below ++ c :: above) :
    (on (c :: rest)).prev s = some (on below.reverse) := by
  have hc : c ∈ cells := by simp [hcells]
  have hnode : s.nodes (on (c :: rest)).node = some (image s.tail c above) :=
    h.laidCells below c above hcells
  have hsorted := h.sorted
  rw [hcells, List.pairwise_append, List.pairwise_cons] at hsorted
  obtain ⟨_, ⟨habove, _⟩, hbelow⟩ := hsorted
  have hstop : ∀ c' ∈ c :: above, ¬ c'.key < c.key :=
    List.forall_mem_cons.mpr ⟨lt_irrefl _, fun c' hc' => (habove c' hc').not_gt⟩
  obtain ⟨p, hfind, hlast⟩ := h.findLessThan hcells (fun c' hc' => hbelow c' hc' c (by simp)) hstop
  rw [SkipListIter.prev, if_pos (on_valid h hc), hnode]
  simp only [Option.bind_eq_bind, Option.bind_some]
  rw [show (image s.tail c above).key = c.key from rfl, hfind, Option.bind_some]
  exact congrArg some (on_getLast h (fun c' hc' => by simp [hcells, hc']) hlast)

/-- Cells that the iterator goes over one by one. -/
theorem collect_eq {advance : SkipListIter → Option SkipListIter} (h : Shape s height cells)
    (hlist : ∀ c ∈ list, c ∈ cells)
    (hstep : ∀ pre c post, list = pre ++ c :: post → advance (on (c :: post)) = some (on post))
    (hrest : ∃ pre, list = pre ++ rest) (hfuel : rest.length < fuel) :
    collect s advance fuel (on rest) = some (rest.map Cell.entry) := by
  induction rest generalizing fuel with
  | nil =>
      obtain ⟨fuel, rfl⟩ := Nat.exists_eq_succ_of_ne_zero (by omega : fuel ≠ 0)
      rw [collect, current_on h (by simp)]
      rfl
  | cons c rest ih =>
      obtain ⟨fuel, rfl⟩ := Nat.exists_eq_succ_of_ne_zero (by omega : fuel ≠ 0)
      obtain ⟨pre, hpre⟩ := hrest
      have hmem : ∀ c' ∈ c :: rest, c' ∈ cells := fun c' hc' =>
        hlist c' (by rw [hpre]; exact List.mem_append_right _ hc')
      have hcollect : collect s advance fuel (on rest) = some (rest.map Cell.entry) :=
        ih ⟨pre ++ [c], by simp [hpre]⟩ (by simpa using hfuel)
      rw [collect, current_on h hmem]
      simp [hstep pre c rest hpre, hcollect]

theorem forwards_eq (h : Shape s height cells) (hfuel : cells.length < fuel) :
    forwards s fuel = some (cells.map Cell.entry) := by
  rw [forwards, seekToFirst_eq h, Option.bind_eq_bind, Option.bind_some]
  exact collect_eq h (fun _ hc => hc) (fun _ _ _ heq => next_eq h heq) ⟨[], rfl⟩ hfuel

theorem backwards_eq (h : Shape s height cells) (hfuel : cells.length < fuel) :
    backwards s fuel = some (cells.map Cell.entry).reverse := by
  rw [backwards, seekToLast_eq h, Option.bind_eq_bind, Option.bind_some, ← List.map_reverse]
  have hlist : ∀ c ∈ cells.reverse, c ∈ cells := fun c hc => List.mem_reverse.mp hc
  apply collect_eq h hlist
  · intro pre c post heq
    have hcells : cells = post.reverse ++ c :: pre.reverse := by
      rw [← List.reverse_reverse cells, heq]
      simp
    rw [prev_eq h hcells, List.reverse_reverse]
  · exact ⟨[], rfl⟩
  · rwa [List.length_reverse]

/-- The cells below a key, and the others. -/
theorem exists_cut (h : Shape s height cells) (key : Bytes) :
    ∃ below rest, cells = below ++ rest ∧ (∀ c ∈ below, c.key < key) ∧
      ∀ c ∈ rest, ¬ c.key < key := by
  rcases exists_around h.sorted key with ⟨below, above, hkey⟩ | ⟨below, c, above, hkey⟩
  · exact ⟨below, above, hkey.eq, hkey.below, fun c hc => (hkey.above c hc).not_gt⟩
  · refine ⟨below, c :: above, hkey.eq, hkey.below, ?_⟩
    rw [List.forall_mem_cons, hkey.here c (by simp)]
    exact ⟨lt_irrefl _, fun c' hc' => (hkey.above c' hc').not_gt⟩

theorem current_seek (h : Shape s height cells) (key : Bytes) :
    ∃ it, seek s key = some it ∧
      it.current s = some ((cells.map Cell.entry).find? fun e => key ≤ e.1) := by
  obtain ⟨below, rest, hcells, hbelow, hrest⟩ := exists_cut h key
  refine ⟨on rest, seek_eq h hcells hbelow hrest, ?_⟩
  have hnone : (below.map Cell.entry).find? (fun e => key ≤ e.1) = none := by
    apply SortedMap.find?_eq_none_of_lt
    rw [List.forall_mem_map]
    exact hbelow
  rw [current_on h fun c hc => by simp [hcells, hc], hcells, List.map_append, List.find?_append,
    hnone, Option.none_or]
  cases rest with
  | nil => rfl
  | cons c rest =>
      rw [List.map_cons, SortedMap.find?_cons_of_not_lt (hrest c (by simp))]
      rfl

end Positions

/-- After any updates, with any heights: forwards all pairs are met in the order of their
keys, backwards in the reverse order, and a search ends at the smallest key that is not
below the given one. -/
theorem iterates_map (actions : List Action) :
    ∃ s₀ s m outs, SkipList.new = some s₀ ∧ Lts.exec SkipList.step s₀ actions = some (s, outs) ∧
      Lts.exec mapStep .empty actions = some (m, outs) ∧
      (∀ key value, (key, value) ∈ m.entries ↔ s.get key = some (true, value)) ∧
      m.entries.Pairwise (fun e e' => e.1 < e'.1) ∧
      (∀ fuel, s.size < fuel →
        forwards s fuel = some m.entries ∧ backwards s fuel = some m.entries.reverse) ∧
      ∀ key, ∃ it, seek s key = some it ∧
        it.current s = some (m.entries.find? fun e => key ≤ e.1) := by
  obtain ⟨s₀, hnew, hstart⟩ := refines_new
  obtain ⟨s, m, outs, hlist, hmap, hrefines⟩ :=
    Lts.exec_of_simulation SkipList.Refines (fun _ _ action h => h.step action) hstart actions
  refine ⟨s₀, s, m, outs, hnew, hlist, hmap, ?_, m.sorted, ?_, ?_⟩
  · intro key value
    rw [hrefines.get, ← SortedMap.get_eq_some_iff]
    cases m.get key <;> simp
  · obtain ⟨height, cells, hshape, hm⟩ := hrefines
    intro fuel hfuel
    rw [SkipList.size, hshape.entries] at hfuel
    rw [hm]
    exact ⟨forwards_eq hshape hfuel, backwards_eq hshape hfuel⟩
  · obtain ⟨height, cells, hshape, hm⟩ := hrefines
    rw [hm]
    exact current_seek hshape

/-- Node [7] is on two levels that [] and [9] are not on. -/
example : (do
    let s ← SkipList.new
    let (s, _) ← Lts.exec SkipList.step s [.put [7] [1] 2, .put [] [2] 0, .put [9] [3] 0]
    let up ← forwards s 4
    let down ← backwards s 4
    pure (up.map Prod.fst, down.map Prod.fst)) = some ([[], [7], [9]], [[9], [7], []]) := by decide

end SkipListIter

end RucDDBS
