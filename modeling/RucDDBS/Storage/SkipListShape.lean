import Mathlib.Data.List.Nodup
import RucDDBS.Storage.SkipListLevels

/-!
The shape of a skip list: head, cells and tail on the heap, with the cells in the order
of their keys, the head as high as any of them, and the two counters right. Every
operation keeps the shape and changes the cells as it should, whatever the heights are.
-/

namespace RucDDBS

namespace SkipList

section Links

variable {s : SkipList} {front mid above rest rest' : List Cell} {c p x : Cell} {i n : Nat}
  {write : Nat → Addr → Option Addr} {prevs : Nat → Option Addr} {tail : Addr}

/-- The last cell on a level leads behind its list. -/
theorem LastOn.next (h : LastOn i front p) (hlaid : Laid s.nodes s.tail (front ++ rest)) :
    ∃ node, s.nodes p.addr = some node ∧ i < node.height ∧
      s.next p.addr i = some (linkTo s.tail i rest) := by
  obtain ⟨pre, mid, rfl, hp, hmid⟩ := h
  have hnode := hlaid pre p (mid ++ rest) (by simp)
  refine ⟨_, hnode, hp, ?_⟩
  rw [SkipList.next, hnode, Option.bind_eq_bind, Option.bind_some, image]
  simp only [if_pos hp]
  rw [linkTo_append, linkTo_of_none hmid]

theorem LastOn.mem (h : LastOn i front p) : p ∈ front := by
  obtain ⟨pre, mid, rfl, _⟩ := h
  simp

/-- What follows a cell of `front` is exchanged by relinking the last cells of `front`. -/
theorem image_relink {pre : List Cell} (hfront : front = pre ++ x :: mid)
    (hnodup : (front.map Cell.addr).Nodup)
    (hlow : ∀ i, n ≤ i → linkTo tail i rest = linkTo tail i rest')
    (hwrite : ∀ i < n, ∃ p, LastOn i front p ∧
      write i x.addr = if p.addr = x.addr then some (linkTo tail i rest') else none) :
    (image tail x (mid ++ rest)).relink n write x.addr = image tail x (mid ++ rest') := by
  simp only [image, Node.relink, Node.mk.injEq, true_and, and_true]
  funext i
  split
  next hi =>
    obtain ⟨p, hlast, hw⟩ := hwrite i hi
    have hiff := hlast.addr_eq_iff hnodup hfront
    rw [hw]
    by_cases hp : p.addr = x.addr
    · obtain ⟨hx, hmid⟩ := hiff.mp hp
      rw [if_pos hp, Option.some_or, if_pos hx, linkTo_append, linkTo_of_none hmid]
    · rw [if_neg hp, Option.none_or]
      split
      next hx =>
        -- a cell between `x` and the end of `front` is on the level
        have hsome : ∃ y ∈ mid, i < y.height := by
          by_contra hnone
          exact hp (hiff.mpr ⟨hx, fun y hy hyi => hnone ⟨y, hy, hyi⟩⟩)
        obtain ⟨y, hy, hyi⟩ := hsome
        rw [linkTo_append, linkTo_append, linkTo_of_some hy hyi]
      next => rfl
  next hi => rw [linkTo_append, linkTo_append, hlow i (by omega)]

/-- Linking a node writes to it and to the cells in front of it only. -/
theorem relink_linked_of_ne (hprevs : ∀ i < n, ∃ p, prevs i = some p.addr ∧ LastOn i front p)
    {node a : Addr} (hnode : a ≠ node) (hfront : ∀ p ∈ front, p.addr ≠ a) :
    relink s.nodes n (linked s node prevs) a = s.nodes a := by
  apply relink_of_none
  intro i hi
  obtain ⟨p, hp, hlast⟩ := hprevs i hi
  rw [linked, if_neg hnode, hp, if_neg (by simpa using hfront p hlast.mem)]

/-- Unlinking a node writes to the cells in front of it only. -/
theorem relink_unlinked_of_ne (hprevs : ∀ i < n, ∃ p, prevs i = some p.addr ∧ LastOn i front p)
    {node a : Addr} (hfront : ∀ p ∈ front, p.addr ≠ a) :
    relink s.nodes n (unlinked s node prevs) a = s.nodes a := by
  apply relink_of_none
  intro i hi
  obtain ⟨p, hp, hlast⟩ := hprevs i hi
  rw [unlinked, hp, if_neg (by simpa using hfront p hlast.mem)]

theorem linkLevels_eq {node : Addr} {new : Node} (hlaid : Laid s.nodes s.tail (front ++ above))
    (hnew : s.nodes node = some new) (hfront : ∀ p ∈ front, p.addr ≠ node)
    (hprevs : ∀ i < new.height, ∃ p, prevs i = some p.addr ∧ LastOn i front p) :
    (List.range new.height).foldlM (linkLevel node prevs) s =
      some { s with nodes := relink s.nodes new.height (linked s node prevs) } := by
  apply linkLevels hnew (Nat.le_refl _)
  intro i hi
  obtain ⟨p, hp, hlast⟩ := hprevs i hi
  obtain ⟨pnode, hpnode, hheight, hnext⟩ := hlast.next hlaid
  exact ⟨p.addr, pnode, _, hp, hfront p hlast.mem, hpnode, hheight, hnext⟩

theorem unlinkLevels_eq (hlaid : Laid s.nodes s.tail (front ++ c :: above))
    (hprevs : ∀ i < c.height, ∃ p, prevs i = some p.addr ∧ LastOn i front p) :
    (List.range c.height).foldlM (unlinkLevel c.addr prevs) s =
      some { s with nodes := relink s.nodes c.height (unlinked s c.addr prevs) } := by
  apply unlinkLevels
  intro i hi
  obtain ⟨p, hp, hlast⟩ := hprevs i hi
  obtain ⟨pnode, hpnode, hheight, _⟩ := hlast.next hlaid
  exact ⟨p.addr, pnode, _, hp, hpnode, hheight, next_of_laid hlaid.suffix hi⟩

/-- A new cell is linked behind the cells at which a search left its levels. -/
theorem laid_linked (hlaid : Laid s.nodes s.tail (front ++ above))
    (hnew : s.nodes c.addr = some ⟨c.key, c.value, fun _ => none, c.height⟩)
    (hnodup : ((front ++ c :: above).map Cell.addr).Nodup)
    (hprevs : ∀ i < c.height, ∃ p, prevs i = some p.addr ∧ LastOn i front p) :
    Laid (relink s.nodes c.height (linked s c.addr prevs)) s.tail (front ++ c :: above) := by
  rw [List.map_append, List.map_cons] at hnodup
  obtain ⟨hfrontNodup, hrestNodup, hapart⟩ := List.nodup_append.mp hnodup
  have hne (y : Cell) (hy : y ∈ front) : y.addr ≠ c.addr :=
    hapart _ (List.mem_map_of_mem hy) _ (by simp)
  intro pre x post heq
  rcases append_split heq with ⟨mid, hfront, rfl⟩ | ⟨mid, rfl, hrest⟩
  · have hold := hlaid pre x (mid ++ above) (by simp [hfront])
    have hx : x ∈ front := by simp [hfront]
    rw [relink_of_some hold, Option.some.injEq]
    apply image_relink hfront hfrontNodup
    · intro i hi
      rw [linkTo_cons_of_not (by omega)]
    · intro i hi
      obtain ⟨p, hp, hlast⟩ := hprevs i hi
      refine ⟨p, hlast, ?_⟩
      rw [linked, if_neg (hne x hx), hp, linkTo_cons_of_lt hi]
      simp only [Option.some.injEq]
  · cases mid with
    | nil =>
        rw [List.nil_append, List.cons.injEq] at hrest
        obtain ⟨rfl, rfl⟩ := hrest
        rw [relink_of_some hnew, Option.some.injEq]
        simp only [image, Node.relink, Node.mk.injEq, true_and, and_true]
        funext i
        split
        next hi =>
          obtain ⟨p, hp, hlast⟩ := hprevs i hi
          obtain ⟨_, _, _, hafter⟩ := hlast.next hlaid
          rw [linked, if_pos rfl, hp, Option.bind_some, hafter, Option.some_or]
        next => rfl
    | cons first mid =>
        rw [List.cons_append, List.cons.injEq] at hrest
        obtain ⟨rfl, rfl⟩ := hrest
        have hx : x ∈ mid ++ x :: post := by simp
        have hxc := addr_ne_of_notMem (List.nodup_cons.mp hrestNodup).1 x hx
        rw [relink_linked_of_ne hprevs hxc]
        · exact hlaid (front ++ mid) x post (by simp)
        · intro p hp
          exact hapart _ (List.mem_map_of_mem hp) _ (List.mem_cons_of_mem _ (List.mem_map_of_mem hx))

/-- A cell is unlinked from the cells at which a search left its levels. -/
theorem laid_unlinked (hlaid : Laid s.nodes s.tail (front ++ c :: above))
    (hnodup : ((front ++ c :: above).map Cell.addr).Nodup)
    (hprevs : ∀ i < c.height, ∃ p, prevs i = some p.addr ∧ LastOn i front p) :
    Laid (Function.update (relink s.nodes c.height (unlinked s c.addr prevs)) c.addr none) s.tail
      (front ++ above) := by
  rw [List.map_append, List.map_cons] at hnodup
  obtain ⟨hfrontNodup, hrestNodup, hapart⟩ := List.nodup_append.mp hnodup
  have hcnext (i : Nat) (hi : i < c.height) : s.next c.addr i = some (linkTo s.tail i above) :=
    next_of_laid hlaid.suffix hi
  intro pre x post heq
  rcases append_split heq with ⟨mid, hfront, rfl⟩ | ⟨mid, rfl, hrest⟩
  · have hold := hlaid pre x (mid ++ c :: above) (by simp [hfront])
    have hx : x ∈ front := by simp [hfront]
    have hxc : x.addr ≠ c.addr := hapart _ (List.mem_map_of_mem hx) _ (by simp)
    rw [Function.update_of_ne hxc, relink_of_some hold, Option.some.injEq]
    apply image_relink hfront hfrontNodup
    · intro i hi
      rw [linkTo_cons_of_not (by omega)]
    · intro i hi
      obtain ⟨p, hp, hlast⟩ := hprevs i hi
      refine ⟨p, hlast, ?_⟩
      rw [unlinked, hp, hcnext i hi]
      simp only [Option.some.injEq]
  · have hx : x ∈ above := by simp [hrest]
    have hxc := addr_ne_of_notMem (List.nodup_cons.mp hrestNodup).1 x hx
    rw [Function.update_of_ne hxc, relink_unlinked_of_ne hprevs]
    · exact hlaid (front ++ c :: mid) x post (by simp [hrest])
    · intro p hp
      exact hapart _ (List.mem_map_of_mem hp) _ (List.mem_cons_of_mem _ (List.mem_map_of_mem hx))

end Links

def headCell (s : SkipList) (height : Nat) : Cell := ⟨s.head, [], [], height⟩

def bytesOf (cells : List Cell) : Nat := (cells.map fun c => c.key.length + c.value.length).sum

/-- The skip list is a head of some height, the cells and the tail. -/
structure Shape (s : SkipList) (height : Nat) (cells : List Cell) : Prop where
  laid : Laid s.nodes s.tail (s.headCell height :: cells)
  tailNode : s.nodes s.tail = some ⟨[], [], fun i => if i < height then some null else none, height⟩
  distinct : (s.tail :: s.head :: cells.map Cell.addr).Nodup
  sorted : cells.Pairwise fun c c' => c.key < c'.key
  heights : ∀ c ∈ cells, 0 < c.height ∧ c.height ≤ height
  headHeight : 0 < height ∧ height ≤ maxHeight
  unused : ∀ a, s.fresh ≤ a → s.nodes a = none
  nullNode : s.nodes null = none ∧ 0 < s.fresh
  entries : s.numEntries = cells.length
  bytes : s.numBytes = bytesOf cells

/-- The cells around a key. -/
structure Around (key : Bytes) (cells below here above : List Cell) : Prop where
  eq : cells = below ++ (here ++ above)
  below : ∀ c ∈ below, c.key < key
  here : ∀ c ∈ here, c.key = key
  above : ∀ c ∈ above, key < c.key

section Shape

variable {s : SkipList} {height : Nat} {cells below here above rest : List Cell} {c : Cell} {key value : Bytes}

theorem exists_around (h : cells.Pairwise fun c c' => c.key < c'.key) (key : Bytes) :
    (∃ below above, Around key cells below [] above) ∨
      ∃ below c above, Around key cells below [c] above := by
  induction cells with
  | nil => exact .inl ⟨[], [], by simp, by simp, by simp, by simp⟩
  | cons c cells ih =>
      obtain ⟨hc, hrest⟩ := List.pairwise_cons.mp h
      rcases lt_trichotomy c.key key with hlt | heq | hgt
      · have hfirst {below : List Cell} (hbelow : ∀ c ∈ below, c.key < key) :
            ∀ c' ∈ c :: below, c'.key < key := List.forall_mem_cons.mpr ⟨hlt, hbelow⟩
        rcases ih hrest with ⟨below, above, h⟩ | ⟨below, c', above, h⟩
        · exact .inl ⟨c :: below, above, congrArg (c :: ·) h.eq, hfirst h.below, h.here, h.above⟩
        · exact .inr ⟨c :: below, c', above, congrArg (c :: ·) h.eq, hfirst h.below, h.here,
            h.above⟩
      · subst heq
        exact .inr ⟨[], c, cells, rfl, by simp, by simp, hc⟩
      · left
        refine ⟨[], c :: cells, rfl, by simp, by simp, ?_⟩
        exact List.forall_mem_cons.mpr ⟨hgt, fun c' hc' => hgt.trans (hc c' hc')⟩

theorem Shape.tail_ne (h : Shape s height cells) (hc : c ∈ cells) : c.addr ≠ s.tail := by
  have hnot := (List.nodup_cons.mp h.distinct).1
  exact addr_ne_of_notMem (fun hmem => hnot (List.mem_cons_of_mem _ hmem)) c hc

theorem Shape.nodup (h : Shape s height cells) :
    ((s.headCell height :: cells).map Cell.addr).Nodup := (List.nodup_cons.mp h.distinct).2

theorem Shape.laidCells (h : Shape s height cells) : Laid s.nodes s.tail cells := h.laid.of_cons

theorem Shape.headNode (h : Shape s height cells) :
    s.nodes s.head = some (image s.tail (s.headCell height) cells) := h.laid [] _ cells rfl

theorem Shape.getMaxHeight (h : Shape s height cells) : s.getMaxHeight = some height := by
  rw [SkipList.getMaxHeight, h.headNode]
  rfl

/-- A search finds the first cell that is not below the key, and leaves every level of the
head at its last cell below the key. -/
theorem Shape.find (h : Shape s height cells) (hcells : cells = below ++ rest)
    (hbelow : ∀ c ∈ below, c.key < key) (hrest : ∀ c ∈ rest, ¬ c.key < key) :
    ∃ prevs, s.findGreatorOrEqual key = some (linkTo s.tail 0 rest, prevs) ∧
      ∀ i < height, ∃ p, prevs i = some p.addr ∧ LastOn i (s.headCell height :: below) p := by
  obtain ⟨hpos, _⟩ := h.headHeight
  have hlaid : Laid s.nodes s.tail (s.headCell height :: below ++ rest) := by
    rw [List.cons_append, ← hcells]
    exact h.laid
  have htail : ∀ c ∈ below ++ rest, c.addr ≠ s.tail := by
    rw [← hcells]
    exact fun c hc => h.tail_ne hc
  have hlevel : height - 1 < (s.headCell height).height := Nat.sub_lt hpos (by omega)
  have hfuel : below.length + (height - 1) < s.numEntries + height := by
    rw [h.entries, hcells, List.length_append]
    omega
  obtain ⟨prevs, hloop, hfilled, _⟩ := findLoop_eq (height - 1) (s.numEntries + height)
    (fun _ => none) (List.nil_append _).symm hlaid htail hbelow hrest hlevel hfuel
  refine ⟨prevs, ?_, fun i hi => hfilled i (by omega)⟩
  rw [findGreatorOrEqual, h.getMaxHeight]
  exact hloop

/-- The search for a key that is there. -/
theorem Shape.find_here (h : Shape s height cells) (hkey : Around key cells below [c] above) :
    ∃ prevs, s.findGreatorOrEqual key = some (c.addr, prevs) ∧ s.isAt c.addr key = some true ∧
      s.nodes c.addr = some (image s.tail c above) ∧
      ∀ i < height, ∃ p, prevs i = some p.addr ∧ LastOn i (s.headCell height :: below) p := by
  have hc : c ∈ cells := by simp [hkey.eq]
  have hrest : ∀ c' ∈ [c] ++ above, ¬ c'.key < key := by
    intro c' hc'
    rcases List.mem_append.mp hc' with hhere | habove
    · rw [hkey.here c' hhere]
      exact lt_irrefl _
    · exact (hkey.above c' habove).not_gt
  obtain ⟨prevs, hfind, hprevs⟩ := h.find hkey.eq hkey.below hrest
  refine ⟨prevs, ?_, ?_, ?_, hprevs⟩
  · rw [hfind, List.singleton_append, linkTo_cons_of_lt (h.heights c hc).1]
  · rw [isAt_of_laid h.laidCells hc (h.tail_ne hc), decide_eq_true (hkey.here c (by simp))]
  · exact h.laidCells below c above (by simp [hkey.eq])

/-- The search for a key that is not there. -/
theorem Shape.find_absent (h : Shape s height cells) (hkey : Around key cells below [] above) :
    ∃ x prevs, s.findGreatorOrEqual key = some (x, prevs) ∧ s.isAt x key = some false ∧
      ∀ i < height, ∃ p, prevs i = some p.addr ∧ LastOn i (s.headCell height :: below) p := by
  obtain ⟨prevs, hfind, hprevs⟩ := h.find hkey.eq hkey.below fun c hc => (hkey.above c hc).not_gt
  refine ⟨_, prevs, hfind, ?_, hprevs⟩
  rw [List.nil_append]
  cases habove : above with
  | nil => exact if_pos rfl
  | cons c rest =>
      have hc : c ∈ above := by simp [habove]
      have hmem : c ∈ cells := by simp [hkey.eq, hc]
      rw [linkTo_cons_of_lt (h.heights c hmem).1, isAt_of_laid h.laidCells hmem (h.tail_ne hmem),
        decide_eq_false (hkey.above c hc).ne']

end Shape

section Updates

variable {s : SkipList} {height : Nat} {cells below above : List Cell} {c : Cell} {key value : Bytes}
  {prevs : Nat → Option Addr}

theorem bytesOf_append (first second : List Cell) :
    bytesOf (first ++ second) = bytesOf first + bytesOf second := by
  simp [bytesOf]

theorem bytesOf_cons (c : Cell) (cells : List Cell) :
    bytesOf (c :: cells) = c.key.length + c.value.length + bytesOf cells := by
  simp [bytesOf]

/-- A value may be exchanged, for no link depends on it. -/
theorem laid_setValue {nodes : Addr → Option Node} {tail : Addr} {front : List Cell}
    (hlaid : Laid nodes tail (front ++ c :: above))
    (hnodup : ((front ++ c :: above).map Cell.addr).Nodup) (value : Bytes) :
    Laid (Function.update nodes c.addr (some { image tail c above with value })) tail
      (front ++ { c with value } :: above) := by
  rw [List.map_append, List.map_cons] at hnodup
  obtain ⟨_, hrestNodup, hapart⟩ := List.nodup_append.mp hnodup
  have hlink (i : Nat) (mid : List Cell) : linkTo tail i (mid ++ { c with value } :: above) =
      linkTo tail i (mid ++ c :: above) := by
    rw [linkTo_append, linkTo_append]
    by_cases hi : i < c.height
    · rw [linkTo_cons_of_lt hi, linkTo_cons_of_lt (c := { c with value }) hi]
    · rw [linkTo_cons_of_not hi, linkTo_cons_of_not (c := { c with value }) hi]
  intro pre x post heq
  rcases append_split heq with ⟨mid, rfl, rfl⟩ | ⟨mid, rfl, hrest⟩
  · have hxc : x.addr ≠ c.addr := hapart _ (by simp) _ (by simp)
    rw [Function.update_of_ne hxc, hlaid pre x (mid ++ c :: above) (by simp)]
    simp only [image, hlink]
  · cases mid with
    | nil =>
        rw [List.nil_append, List.cons.injEq] at hrest
        obtain ⟨rfl, rfl⟩ := hrest
        exact Function.update_self _ _ _
    | cons first mid =>
        rw [List.cons_append, List.cons.injEq] at hrest
        obtain ⟨rfl, rfl⟩ := hrest
        have hxc := addr_ne_of_notMem (List.nodup_cons.mp hrestNodup).1 x (by simp)
        rw [Function.update_of_ne hxc]
        exact hlaid (front ++ c :: mid) x post (by simp)

theorem Shape.headCell_ne_tail (h : Shape s height cells) : s.head ≠ s.tail := by
  intro heq
  exact (List.nodup_cons.mp h.distinct).1 (by simp [heq])

theorem Shape.addr_ne (h : Shape s height cells) (hc : c ∈ cells) {a : Addr}
    (ha : s.nodes a = none) : a ≠ c.addr := by
  rintro rfl
  obtain ⟨pre, post, heq⟩ := List.append_of_mem hc
  rw [h.laidCells pre c post heq] at ha
  cases ha

theorem Shape.head_ne (h : Shape s height cells) {a : Addr} (ha : s.nodes a = none) : a ≠ s.head := by
  rintro rfl
  rw [h.headNode] at ha
  cases ha

theorem Shape.tail_ne_of_none (h : Shape s height cells) {a : Addr} (ha : s.nodes a = none) :
    a ≠ s.tail := by
  rintro rfl
  rw [h.tailNode] at ha
  cases ha

theorem Shape.tail_ne_front (h : Shape s height (below ++ above)) :
    ∀ p ∈ s.headCell height :: below, p.addr ≠ s.tail :=
  List.forall_mem_cons.mpr ⟨h.headCell_ne_tail, fun _ hp => h.tail_ne (List.mem_append_left _ hp)⟩

/-- Nothing of the list is at an address without a node. -/
theorem Shape.notMem_of_none (h : Shape s height cells) {a : Addr} (ha : s.nodes a = none) :
    a ∉ s.tail :: s.head :: cells.map Cell.addr := by
  simp only [List.mem_cons, List.mem_map, not_or, not_exists, not_and]
  exact ⟨h.tail_ne_of_none ha, h.head_ne ha, fun c hc => (h.addr_ne hc ha).symm⟩

theorem distinct_insert {head tail : Addr}
    (h : (tail :: head :: (below ++ above).map Cell.addr).Nodup)
    (hc : c.addr ∉ tail :: head :: (below ++ above).map Cell.addr) :
    (tail :: head :: (below ++ c :: above).map Cell.addr).Nodup := by
  rw [List.map_append] at h hc
  rw [List.map_append, List.map_cons, ← List.cons_append, ← List.cons_append, List.nodup_middle]
  exact List.nodup_cons.mpr ⟨hc, h⟩

/-- A cell with the key fits between the smaller and the greater keys. -/
theorem Around.sorted_insert {here : List Cell} (hkey : Around key cells below here above)
    (h : (below ++ above).Pairwise fun c c' => c.key < c'.key) (hc : c.key = key) :
    (below ++ c :: above).Pairwise fun c c' => c.key < c'.key := by
  subst hc
  obtain ⟨hbelow, habove, hcross⟩ := List.pairwise_append.mp h
  refine List.pairwise_append.mpr ⟨hbelow, List.pairwise_cons.mpr ⟨hkey.above, habove⟩, ?_⟩
  intro b hb
  exact List.forall_mem_cons.mpr ⟨hkey.below b hb, hcross b hb⟩

/-- `put` of a key that is there. -/
theorem Shape.put_here (h : Shape s height cells) (hkey : Around key cells below [c] above)
    (value : Bytes) (ones : Nat) :
    ∃ s', s.put key value ones = some s' ∧
      Shape s' height (below ++ { c with value } :: above) := by
  obtain ⟨prevs, hfind, hat, hnode, _⟩ := h.find_here hkey
  have hc : c ∈ cells := by simp [hkey.eq]
  have hcells : cells = below ++ c :: above := hkey.eq
  refine ⟨{ s with
    nodes := Function.update s.nodes c.addr (some { image s.tail c above with value })
    numBytes := s.numBytes - c.value.length + value.length }, ?_, ?_⟩
  · simp only [SkipList.put, hfind, hat, hnode, Option.bind_eq_bind, Option.bind_some, if_true]
    rfl
  · subst hcells
    have hkeys : (below ++ { c with value } :: above).map Cell.key =
        (below ++ c :: above).map Cell.key := by simp
    constructor
    · have hlaid : Laid s.nodes s.tail (s.headCell height :: below ++ c :: above) := h.laid
      exact laid_setValue hlaid h.nodup value
    · exact (Function.update_of_ne (h.tail_ne hc).symm _ _).trans h.tailNode
    · have hdistinct := h.distinct
      simp only [List.map_append, List.map_cons] at hdistinct ⊢
      exact hdistinct
    · have hsorted := List.pairwise_map.mpr h.sorted
      rw [← hkeys] at hsorted
      exact List.pairwise_map.mp hsorted
    · intro c' hc'
      rcases List.mem_append.mp hc' with hbelow | hrest
      · exact h.heights c' (by simp [hbelow])
      · rcases List.mem_cons.mp hrest with rfl | habove
        · exact h.heights c hc
        · exact h.heights c' (by simp [habove])
    · exact h.headHeight
    · intro a ha
      have hnone := h.unused a ha
      exact (Function.update_of_ne (h.addr_ne hc hnone) _ _).trans hnone
    · refine ⟨?_, h.nullNode.2⟩
      exact (Function.update_of_ne (h.addr_ne hc h.nullNode.1) _ _).trans h.nullNode.1
    · simpa using h.entries
    · have hbytes := h.bytes
      simp only [bytesOf_append, bytesOf_cons] at hbytes ⊢
      omega

/-- A higher head is the last cell of the new levels, and the others are as before. -/
theorem LastOn.enlarge {a : Addr} {k v : Bytes} {i height height' : Nat} {p : Cell}
    (h : LastOn i (⟨a, k, v, height⟩ :: cells) p) (hle : height ≤ height') :
    ∃ p', p'.addr = p.addr ∧ LastOn i (⟨a, k, v, height'⟩ :: cells) p' := by
  obtain ⟨pre, mid, heq, hp, hmid⟩ := h
  cases pre with
  | nil =>
      rw [List.nil_append, List.cons.injEq] at heq
      obtain ⟨rfl, rfl⟩ := heq
      exact ⟨⟨a, k, v, height'⟩, rfl, [], cells, rfl, Nat.lt_of_lt_of_le hp hle, hmid⟩
  | cons first pre =>
      rw [List.cons_append, List.cons.injEq] at heq
      exact ⟨p, rfl, ⟨a, k, v, height'⟩ :: pre, mid, by rw [heq.2, List.cons_append], hp, hmid⟩

theorem lastOn_head {head : Cell} {i : Nat} (hhead : i < head.height)
    (h : ∀ c ∈ cells, c.height ≤ i) : LastOn i (head :: cells) head :=
  ⟨[], cells, rfl, hhead, fun c hc => Nat.not_lt.mpr (h c hc)⟩

/-- The head and the tail grow; the new levels of the head lead to the tail. -/
theorem Shape.enlarge (h : Shape s height cells) {height' : Nat} (hlt : height < height')
    (hmax : height' ≤ maxHeight) :
    ∃ s', s.enlargeHeight height' = some s' ∧ Shape s' height' cells ∧ s'.head = s.head := by
  have hne := h.headCell_ne_tail
  have hnexts : (fun i => if i < height then (image s.tail (s.headCell height) cells).nexts i
      else if i < height' then some s.tail else none) =
        (image s.tail (s.headCell height') cells).nexts := by
    funext i
    show (if i < height then (if i < height then some (linkTo s.tail i cells) else none)
      else if i < height' then some s.tail else none) =
        if i < height' then some (linkTo s.tail i cells) else none
    by_cases hi : i < height
    · rw [if_pos hi, if_pos hi, if_pos (by omega)]
    · have hlow : ∀ c ∈ cells, ¬ i < c.height := by
        intro c hc
        have hheight := (h.heights c hc).2
        omega
      rw [if_neg hi, linkTo_of_none hlow]
  refine ⟨{ s with
    nodes := Function.update
      (Function.update s.nodes s.head (some (image s.tail (s.headCell height') cells)))
      s.tail (some ⟨[], [], fun i => if i < height' then some null else none, height'⟩) }, ?_, ?_, rfl⟩
  · simp only [enlargeHeight, h.headNode, h.tailNode, Option.bind_eq_bind, Option.bind_some]
    exact congrArg (fun nexts => some { s with
      nodes := Function.update (Function.update s.nodes s.head (some ⟨[], [], nexts, height'⟩))
        s.tail (some ⟨[], [], fun i => if i < height' then some SkipList.null else none, height'⟩) })
      hnexts
  · constructor
    · have hhead := addr_ne_of_notMem (List.nodup_cons.mp h.nodup).1
      have hlaid := h.laidCells.update_head (c := s.headCell height') hhead
      exact hlaid.update_of_ne (List.forall_mem_cons.mpr ⟨hne, fun c hc => h.tail_ne hc⟩) _
    · exact Function.update_self _ _ _
    · exact h.distinct
    · exact h.sorted
    · intro c hc
      have hheight := h.heights c hc
      exact ⟨hheight.1, by omega⟩
    · exact ⟨by omega, hmax⟩
    · intro a ha
      have hnone := h.unused a ha
      show Function.update (Function.update s.nodes s.head _) s.tail _ a = none
      rw [Function.update_of_ne (h.tail_ne_of_none hnone), Function.update_of_ne (h.head_ne hnone),
        hnone]
    · refine ⟨?_, h.nullNode.2⟩
      show Function.update (Function.update s.nodes s.head _) s.tail _ null = none
      rw [Function.update_of_ne (h.tail_ne_of_none h.nullNode.1),
        Function.update_of_ne (h.head_ne h.nullNode.1), h.nullNode.1]
    · exact h.entries
    · exact h.bytes

/-- Before a node is linked, the head is at least as high, and a cell to link it to is known
on each of its levels. -/
theorem Shape.reach (h : Shape s height cells) (hcells : cells = below ++ above)
    (hprevs : ∀ i < height, ∃ p, prevs i = some p.addr ∧ LastOn i (s.headCell height :: below) p)
    {n : Nat} (hmax : n ≤ maxHeight) :
    ∃ s' prevs' height', s.reachHeight n prevs = some (s', prevs') ∧ Shape s' height' cells ∧
      n ≤ height' ∧
      ∀ i < n, ∃ p, prevs' i = some p.addr ∧ LastOn i (s'.headCell height' :: below) p := by
  by_cases hgt : n > height
  · obtain ⟨s', henlarge, hshape, hhead⟩ := h.enlarge hgt hmax
    refine ⟨s', fun i => if height ≤ i ∧ i < n then some s.head else prevs i, n, ?_, hshape,
      Nat.le_refl n, ?_⟩
    · simp only [reachHeight, h.getMaxHeight, Option.bind_eq_bind, Option.bind_some, if_pos hgt,
        henlarge]
      rfl
    · intro i hi
      rw [headCell, hhead]
      by_cases hold : height ≤ i
      · refine ⟨⟨s.head, [], [], n⟩, if_pos ⟨hold, hi⟩, lastOn_head hi ?_⟩
        intro c hc
        exact (h.heights c (by simp [hcells, hc])).2.trans hold
      · obtain ⟨p, hp, hlast⟩ := hprevs i (by omega)
        obtain ⟨p', haddr, hlast'⟩ := hlast.enlarge (Nat.le_of_lt hgt)
        refine ⟨p', ?_, hlast'⟩
        show (if height ≤ i ∧ i < n then some s.head else prevs i) = _
        rw [if_neg fun hboth => hold hboth.1, hp, haddr]
  · refine ⟨s, prevs, height, ?_, h, Nat.le_of_not_lt hgt, fun i hi => hprevs i (by omega)⟩
    simp only [reachHeight, h.getMaxHeight, Option.bind_eq_bind, Option.bind_some, if_neg hgt]
    rfl

/-- A new cell between the smaller and the greater keys. -/
theorem Shape.insert (h : Shape s height cells) (hkey : Around key cells below [] above) {n : Nat}
    (hn : 0 < n ∧ n ≤ height)
    (hprevs : ∀ i < n, ∃ p, prevs i = some p.addr ∧ LastOn i (s.headCell height :: below) p)
    (value : Bytes) :
    ∃ s', (List.range n).foldlM (linkLevel s.fresh prevs) (s.newNode key value n).1 = some s' ∧
      Shape { s' with
        numEntries := s'.numEntries + 1
        numBytes := s'.numBytes + key.length + value.length } height
        (below ++ ⟨s.fresh, key, value, n⟩ :: above) := by
  have hcells : cells = below ++ above := hkey.eq
  subst hcells
  have hfresh := h.unused s.fresh (Nat.le_refl _)
  have hnew : (s.newNode key value n).1.nodes s.fresh = some ⟨key, value, fun _ => none, n⟩ :=
    Function.update_self _ _ _
  have hkept {a : Addr} {node : Option Node} (ha : s.nodes a = node) (hne : a ≠ s.fresh) :
      (s.newNode key value n).1.nodes a = node := (Function.update_of_ne hne _ _).trans ha
  have hdistinct := distinct_insert (c := ⟨s.fresh, key, value, n⟩) h.distinct (h.notMem_of_none hfresh)
  have hnodup := (List.nodup_cons.mp hdistinct).2
  have hrest : ∀ p ∈ s.headCell height :: below ++ above, p.addr ≠ s.fresh := by
    refine List.forall_mem_cons.mpr ⟨(h.head_ne hfresh).symm, ?_⟩
    exact fun p hp => (h.addr_ne hp hfresh).symm
  have hlaid : Laid (s.newNode key value n).1.nodes s.tail (s.headCell height :: below ++ above) :=
    Laid.update_of_ne h.laid hrest _
  have hfront (p : Cell) (hp : p ∈ s.headCell height :: below) := hrest p (List.mem_append_left _ hp)
  have hlink := linkLevels_eq hlaid hnew hfront hprevs
  refine ⟨_, hlink, ?_⟩
  constructor
  · exact laid_linked (c := ⟨s.fresh, key, value, n⟩) hlaid hnew hnodup hprevs
  · have htail : s.tail ≠ s.fresh := (h.tail_ne_of_none hfresh).symm
    exact (relink_linked_of_ne hprevs htail h.tail_ne_front).trans (hkept h.tailNode htail)
  · exact hdistinct
  · exact hkey.sorted_insert h.sorted rfl
  · intro c hc
    rcases List.mem_append.mp hc with hc | hc
    · exact h.heights c (List.mem_append_left _ hc)
    · rcases List.mem_cons.mp hc with rfl | hc
      · exact hn
      · exact h.heights c (List.mem_append_right _ hc)
  · exact h.headHeight
  · intro a ha
    have hlt : s.fresh < a := ha
    have hnone := h.unused a (Nat.le_of_lt hlt)
    show relink _ n _ a = none
    rw [relink, hkept hnone (Nat.ne_of_gt hlt), Option.map_none]
  · refine ⟨?_, Nat.succ_pos _⟩
    have hne : SkipList.null ≠ s.fresh := Nat.ne_of_lt h.nullNode.2
    show relink _ n _ SkipList.null = none
    rw [relink, hkept h.nullNode.1 hne, Option.map_none]
  · show s.numEntries + 1 = _
    rw [h.entries, List.length_append, List.length_append, List.length_cons]
    omega
  · show s.numBytes + key.length + value.length = _
    rw [h.bytes, bytesOf_append, bytesOf_append, bytesOf_cons]
    show _ = _ + (key.length + value.length + _)
    omega

theorem randomHeight_bounds (ones : Nat) : 0 < randomHeight ones ∧ randomHeight ones ≤ maxHeight := by
  rw [randomHeight, maxHeight]
  split <;> omega

/-- `put` of a key that is not there. -/
theorem Shape.put_absent (h : Shape s height cells) (hkey : Around key cells below [] above)
    (value : Bytes) (ones : Nat) :
    ∃ s' height' a n, s.put key value ones = some s' ∧
      Shape s' height' (below ++ ⟨a, key, value, n⟩ :: above) := by
  obtain ⟨x, prevs, hfind, hat, hprevs⟩ := h.find_absent hkey
  obtain ⟨hpos, hmax⟩ := randomHeight_bounds ones
  obtain ⟨s₁, prevs₁, height₁, hreach, hshape, hle, hprevs₁⟩ := h.reach hkey.eq hprevs hmax
  obtain ⟨s₂, hlink, hshape₂⟩ := hshape.insert hkey ⟨hpos, hle⟩ hprevs₁ value
  refine ⟨_, height₁, s₁.fresh, randomHeight ones, ?_, hshape₂⟩
  simp only [SkipList.put, hfind, hat, Option.bind_eq_bind, Option.bind_some, Bool.false_eq_true,
    if_false, hreach]
  show ((List.range (randomHeight ones)).foldlM (linkLevel s₁.fresh prevs₁)
    (s₁.newNode key value (randomHeight ones)).1).bind _ = _
  rw [hlink]
  rfl

/-- `del` of a key that is there. -/
theorem Shape.del_here (h : Shape s height cells) (hkey : Around key cells below [c] above) :
    ∃ s', s.del key = some (s', true) ∧ Shape s' height (below ++ above) := by
  obtain ⟨prevs, hfind, hat, hnode, hprevs⟩ := h.find_here hkey
  have hcells : cells = below ++ c :: above := hkey.eq
  subst hcells
  have hc : c ∈ below ++ c :: above := by simp
  have hlevels : ∀ i < c.height, ∃ p, prevs i = some p.addr ∧
      LastOn i (s.headCell height :: below) p := by
    intro i hi
    exact hprevs i (Nat.lt_of_lt_of_le hi (h.heights c hc).2)
  have hlaid : Laid s.nodes s.tail (s.headCell height :: below ++ c :: above) := h.laid
  have hunlink := unlinkLevels_eq hlaid hlevels
  have hnone {a : Addr} (ha : s.nodes a = none) :
      Function.update (relink s.nodes c.height (unlinked s c.addr prevs)) c.addr none a = none := by
    rw [Function.update_of_ne (h.addr_ne hc ha), relink, ha, Option.map_none]
  refine ⟨{ s with
    nodes := Function.update (relink s.nodes c.height (unlinked s c.addr prevs)) c.addr none
    numEntries := s.numEntries - 1
    numBytes := s.numBytes - c.key.length - c.value.length }, ?_, ?_⟩
  · simp only [SkipList.del, hfind, hat, hnode, Option.bind_eq_bind, Option.bind_some, if_true]
    show ((List.range c.height).foldlM (unlinkLevel c.addr prevs) s).bind _ = _
    rw [hunlink]
    rfl
  · have hshorter : (below ++ above).Sublist (below ++ c :: above) :=
      (List.sublist_cons_self c above).append_left below
    constructor
    · exact laid_unlinked hlaid h.nodup hlevels
    · refine (Function.update_of_ne (h.tail_ne hc).symm _ _).trans ?_
      rw [relink_unlinked_of_ne hlevels h.tail_ne_front, h.tailNode]
    · exact h.distinct.sublist (((hshorter.map Cell.addr).cons_cons s.head).cons_cons s.tail)
    · exact h.sorted.sublist hshorter
    · exact fun c' hc' => h.heights c' (hshorter.subset hc')
    · exact h.headHeight
    · exact fun a ha => hnone (h.unused a ha)
    · exact ⟨hnone h.nullNode.1, h.nullNode.2⟩
    · show s.numEntries - 1 = _
      rw [h.entries, List.length_append, List.length_append, List.length_cons]
      omega
    · show s.numBytes - c.key.length - c.value.length = _
      rw [h.bytes, bytesOf_append, bytesOf_append, bytesOf_cons]
      omega

/-- `del` of a key that is not there. -/
theorem Shape.del_absent (h : Shape s height cells) (hkey : Around key cells below [] above) :
    s.del key = some (s, false) := by
  obtain ⟨x, prevs, hfind, hat, _⟩ := h.find_absent hkey
  simp only [SkipList.del, hfind, hat, Option.bind_eq_bind, Option.bind_some, Bool.false_eq_true,
    if_false]
  rfl

end Updates

section Clear

variable {s : SkipList} {height : Nat} {cells : List Cell}

/-- A new list has a head and a tail of height 1, wherever the heap ends. -/
theorem shape_init (hunused : ∀ a, s.fresh ≤ a → s.nodes a = none)
    (hnull : s.nodes null = none ∧ 0 < s.fresh) : ∃ s', s.init = some s' ∧ Shape s' 1 [] := by
  have hne : s.fresh + 1 ≠ s.fresh := Nat.succ_ne_self _
  have hlinks (b : Addr) : Function.update (fun _ => none) 0 (some b) =
      fun i => if i < 1 then some b else none := by
    funext i
    cases i with
    | zero => rfl
    | succ i => rw [Function.update_of_ne (Nat.succ_ne_zero i), if_neg (by omega)]
  have hother {head tail : Option Node} {a : Addr} (hhead : a ≠ s.fresh) (htail : a ≠ s.fresh + 1) :
      Function.update (Function.update s.nodes s.fresh head) (s.fresh + 1) tail a = s.nodes a := by
    rw [Function.update_of_ne htail, Function.update_of_ne hhead]
  refine ⟨⟨Function.update (Function.update s.nodes s.fresh
      (some ⟨[], [], fun i => if i < 1 then some (s.fresh + 1) else none, 1⟩))
      (s.fresh + 1) (some ⟨[], [], fun i => if i < 1 then some null else none, 1⟩),
    s.fresh + 2, s.fresh, s.fresh + 1, 0, 0⟩, ?_, ?_⟩
  · simp only [init, newNode]
    rw [setNext_eq (Function.update_of_ne hne.symm _ _ |>.trans (Function.update_self _ _ _))
      Nat.one_pos]
    simp only [Option.bind_eq_bind, Option.bind_some]
    rw [setNext_eq ((Function.update_of_ne hne _ _).trans (Function.update_self _ _ _)) Nat.one_pos]
    simp only [Option.bind_some, Option.pure_def, Option.some.injEq, hlinks]
    congr 1
    rw [Function.update_comm hne, Function.update_idem, Function.update_idem]
  · constructor
    · intro pre x post heq
      cases pre with
      | nil =>
          rw [List.nil_append, List.cons.injEq] at heq
          obtain ⟨rfl, rfl⟩ := heq
          exact (Function.update_of_ne hne.symm _ _).trans (Function.update_self _ _ _)
      | cons first pre => simp at heq
    · exact Function.update_self _ _ _
    · simp
    · exact List.Pairwise.nil
    · simp
    · exact ⟨Nat.one_pos, by decide⟩
    · intro a ha
      have hlt : s.fresh + 1 < a := ha
      have hhead : s.fresh < a := Nat.lt_of_succ_lt hlt
      exact (hother (Nat.ne_of_gt hhead) (Nat.ne_of_gt hlt)).trans (hunused a (Nat.le_of_lt hhead))
    · have hhead : null ≠ s.fresh := Nat.ne_of_lt hnull.2
      have htail : null ≠ s.fresh + 1 := (Nat.succ_ne_zero _).symm
      simp only [hother hhead htail]
      exact ⟨hnull.1, Nat.succ_pos _⟩
    · rfl
    · rfl

/-- `clear` frees the cells along the lowest level and ends behind the tail. -/
theorem deleteFrom_eq {nodes : Addr → Option Node} {tail : Addr} {tailNode : Node}
    (hlaid : Laid nodes tail cells) (hheights : ∀ c ∈ cells, 0 < c.height)
    (hdistinct : (tail :: cells.map Cell.addr).Nodup) (htail : nodes tail = some tailNode)
    (hend : tailNode.nexts 0 = some null) (hnull : nodes null = none) :
    ∃ nodes', deleteFrom (cells.length + 2) (linkTo tail 0 cells) nodes = some nodes' ∧
      ∀ a, nodes a = none → nodes' a = none := by
  induction cells generalizing nodes with
  | nil =>
      have hne : tail ≠ null := by
        rintro rfl
        rw [hnull] at htail
        cases htail
      refine ⟨Function.update nodes tail none, ?_, ?_⟩
      · show deleteFrom 2 tail nodes = _
        rw [deleteFrom, if_neg hne, htail]
        simp only [Option.bind_eq_bind, Option.bind_some, hend]
        exact if_pos rfl
      · intro a ha
        by_cases hsame : a = tail
        · rw [hsame, Function.update_self]
        · rw [Function.update_of_ne hsame, ha]
  | cons c rest ih =>
      have hnode := hlaid [] c rest rfl
      have hpos := hheights c List.mem_cons_self
      have hne : c.addr ≠ null := by
        intro hsame
        rw [hsame, hnull] at hnode
        cases hnode
      rw [List.map_cons, List.nodup_cons, List.nodup_cons] at hdistinct
      obtain ⟨htailNot, hcNot, hrestNodup⟩ := hdistinct
      have htailc : tail ≠ c.addr := fun hsame => htailNot (by simp [hsame])
      have hrest := hlaid.of_cons.update_of_ne (addr_ne_of_notMem hcNot) none
      have hfreed {a : Addr} (ha : nodes a = none) : Function.update nodes c.addr none a = none := by
        by_cases hsame : a = c.addr
        · rw [hsame, Function.update_self]
        · rw [Function.update_of_ne hsame, ha]
      obtain ⟨nodes', hloop, hkept⟩ := ih hrest
        (fun c' hc' => hheights c' (List.mem_cons_of_mem _ hc'))
        (List.nodup_cons.mpr ⟨fun hmem => htailNot (List.mem_cons_of_mem _ hmem), hrestNodup⟩)
        ((Function.update_of_ne htailc _ _).trans htail) (hfreed hnull)
      refine ⟨nodes', ?_, fun a ha => hkept a (hfreed ha)⟩
      have hnext : (image tail c rest).nexts 0 = some (linkTo tail 0 rest) := if_pos hpos
      rw [linkTo_cons_of_lt hpos, List.length_cons, deleteFrom, if_neg hne, hnode]
      simp only [Option.bind_eq_bind, Option.bind_some, hnext]
      exact hloop

theorem Shape.clear (h : Shape s height cells) : ∃ s', s.clear = some s' ∧ Shape s' 1 [] := by
  obtain ⟨hpos, _⟩ := h.headHeight
  have hheights : ∀ c ∈ s.headCell height :: cells, 0 < c.height :=
    List.forall_mem_cons.mpr ⟨hpos, fun c hc => (h.heights c hc).1⟩
  obtain ⟨nodes, hloop, hkept⟩ :=
    deleteFrom_eq h.laid hheights h.distinct h.tailNode (if_pos hpos) h.nullNode.1
  have hhead : linkTo s.tail 0 (s.headCell height :: cells) = s.head := linkTo_cons_of_lt hpos
  rw [hhead, List.length_cons, ← h.entries] at hloop
  obtain ⟨s', hinit, hshape⟩ := shape_init (s := { s with nodes })
    (fun a ha => hkept a (h.unused a ha)) ⟨hkept _ h.nullNode.1, h.nullNode.2⟩
  refine ⟨s', ?_, hshape⟩
  rw [SkipList.clear, hloop]
  exact hinit

end Clear

end SkipList

end RucDDBS
