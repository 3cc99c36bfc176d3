import RucDDBS.Storage.SkipList

/-!
What the nodes of a skip list look like on the heap: the cells in the order of their
keys, each linked on every level below its height to the next cell that is as high.
A search along the levels leaves every level at the last cell of the level with a
smaller key, and relinking these cells on the levels of one cell puts it in or takes
it out.
-/

namespace RucDDBS

namespace SkipList

section Cells

/-- A node of the list, without its links. -/
structure Cell where
  addr : Addr
  key : Bytes
  value : Bytes
  height : Nat

/-- The first of the cells that is linked on the level, or the tail. -/
def linkTo (tail : Addr) (i : Nat) (cells : List Cell) : Addr :=
  (cells.find? fun c => i < c.height).elim tail Cell.addr

/-- The node of a cell in front of some others. -/
def image (tail : Addr) (c : Cell) (post : List Cell) : Node where
  key := c.key
  value := c.value
  nexts := fun i => if i < c.height then some (linkTo tail i post) else none
  height := c.height

/-- The cells are on the heap, linked to each other. -/
def Laid (nodes : Addr → Option Node) (tail : Addr) (cells : List Cell) : Prop :=
  ∀ pre c post, cells = pre ++ c :: post → nodes c.addr = some (image tail c post)

/-- `p` is the last of the cells that is linked on the level. -/
def LastOn (i : Nat) (cells : List Cell) (p : Cell) : Prop :=
  ∃ pre mid, cells = pre ++ p :: mid ∧ i < p.height ∧ ∀ c ∈ mid, ¬ i < c.height

variable {tail : Addr} {i : Nat} {cells mid rest pre post : List Cell} {c p : Cell}

theorem linkTo_append : linkTo tail i (mid ++ rest) = linkTo (linkTo tail i rest) i mid := by
  rw [linkTo, List.find?_append, linkTo]
  cases mid.find? fun c => i < c.height with
  | none => rfl
  | some c => rfl

theorem linkTo_cons_of_lt (h : i < c.height) : linkTo tail i (c :: rest) = c.addr := by
  rw [linkTo, List.find?_cons_of_pos (by simpa using h)]
  rfl

theorem linkTo_cons_of_not (h : ¬ i < c.height) : linkTo tail i (c :: rest) = linkTo tail i rest := by
  rw [linkTo, List.find?_cons_of_neg (by simpa using h), linkTo]

theorem linkTo_of_none (h : ∀ c ∈ mid, ¬ i < c.height) : linkTo tail i mid = tail := by
  have hnone : (mid.find? fun c => i < c.height) = none := by
    rw [List.find?_eq_none]
    simpa using h
  rw [linkTo, hnone]
  rfl

/-- Behind a cell on the level it does not matter what follows. -/
theorem linkTo_of_some {tail' : Addr} (hc : c ∈ mid) (h : i < c.height) :
    linkTo tail i mid = linkTo tail' i mid := by
  rw [linkTo, linkTo]
  cases hfind : mid.find? fun c => i < c.height with
  | none => exact absurd h (by simpa using List.find?_eq_none.mp hfind c hc)
  | some c => rfl

theorem Laid.suffix {nodes : Addr → Option Node} (h : Laid nodes tail (pre ++ rest)) :
    Laid nodes tail rest := by
  intro pre' c post heq
  exact h (pre ++ pre') c post (by rw [heq, List.append_assoc])

theorem Laid.of_cons {nodes : Addr → Option Node} (h : Laid nodes tail (c :: rest)) :
    Laid nodes tail rest := by
  rw [← List.singleton_append] at h
  exact h.suffix

theorem addr_ne_of_notMem {a : Addr} (h : a ∉ cells.map Cell.addr) : ∀ c ∈ cells, c.addr ≠ a := by
  rintro c hc rfl
  exact h (List.mem_map_of_mem hc)

/-- Writes elsewhere leave the cells as they are. -/
theorem Laid.update_of_ne {nodes : Addr → Option Node} {a : Addr} (h : Laid nodes tail cells)
    (hne : ∀ c ∈ cells, c.addr ≠ a) (node : Option Node) :
    Laid (Function.update nodes a node) tail cells := by
  intro pre c post heq
  rw [Function.update_of_ne (hne c (by simp [heq]))]
  exact h pre c post heq

/-- No cell leads back to the first one, so it may be written anew. -/
theorem Laid.update_head {nodes : Addr → Option Node} (h : Laid nodes tail rest)
    (hne : ∀ c' ∈ rest, c'.addr ≠ c.addr) :
    Laid (Function.update nodes c.addr (some (image tail c rest))) tail (c :: rest) := by
  intro pre c' post heq
  cases pre with
  | nil =>
      rw [List.nil_append, List.cons.injEq] at heq
      obtain ⟨rfl, rfl⟩ := heq
      exact Function.update_self _ _ _
  | cons first pre =>
      rw [List.cons_append, List.cons.injEq] at heq
      exact h.update_of_ne hne _ pre c' post heq.2

/-- Where a cell stands in two lists one behind the other. -/
theorem append_split (h : cells ++ rest = pre ++ c :: post) :
    (∃ mid, cells = pre ++ c :: mid ∧ post = mid ++ rest) ∨
      ∃ mid, pre = cells ++ mid ∧ rest = mid ++ c :: post := by
  rcases List.append_eq_append_iff.mp h with ⟨mid, hpre, hrest⟩ | ⟨mid, hcells, hpost⟩
  · exact .inr ⟨mid, hpre, hrest⟩
  · cases mid with
    | nil =>
        right
        refine ⟨[], ?_, ?_⟩
        · rw [List.append_nil] at hcells ⊢
          exact hcells.symm
        · rw [List.nil_append] at hpost ⊢
          exact hpost.symm
    | cons first mid =>
        left
        rw [List.cons_append, List.cons.injEq] at hpost
        obtain ⟨rfl, rfl⟩ := hpost
        exact ⟨mid, hcells, rfl⟩

/-- Cells with different addresses stand at one place each. -/
theorem split_unique {pre' post' : List Cell} {c' : Cell} (hnodup : (cells.map Cell.addr).Nodup)
    (h : cells = pre ++ c :: post) (h' : cells = pre' ++ c' :: post') (haddr : c.addr = c'.addr) :
    c = c' ∧ post = post' := by
  rw [h] at h'
  rcases append_split h' with ⟨mid, rfl, rfl⟩ | ⟨mid, rfl, hrest⟩
  · rw [h, List.append_assoc, List.map_append, List.cons_append, List.map_cons,
      List.map_append, List.map_cons] at hnodup
    have hdistinct := (List.nodup_append.mp hnodup).2.1
    rw [List.nodup_cons] at hdistinct
    exact absurd (by simp [haddr]) hdistinct.1
  · cases mid with
    | nil =>
        rw [List.nil_append, List.cons.injEq] at hrest
        exact hrest
    | cons first mid =>
        rw [List.cons_append, List.cons.injEq] at hrest
        obtain ⟨rfl, rfl⟩ := hrest
        rw [h, List.map_append, List.map_cons] at hnodup
        have hdistinct := (List.nodup_append.mp hnodup).2.1
        rw [List.nodup_cons] at hdistinct
        exact absurd (by simp [haddr]) hdistinct.1

/-- The last cell on a level has no cell of the level behind it, and is the only such one. -/
theorem LastOn.addr_eq_iff (h : LastOn i cells p) (hnodup : (cells.map Cell.addr).Nodup)
    (hcells : cells = pre ++ c :: mid) :
    p.addr = c.addr ↔ i < c.height ∧ ∀ y ∈ mid, ¬ i < y.height := by
  obtain ⟨pre', mid', hcells', hheight, hlast⟩ := h
  constructor
  · intro haddr
    obtain ⟨rfl, rfl⟩ := split_unique hnodup hcells' hcells haddr
    exact ⟨hheight, hlast⟩
  · rintro ⟨hc, hmid⟩
    rw [hcells'] at hcells
    rcases append_split hcells with ⟨between, rfl, rfl⟩ | ⟨between, rfl, hrest⟩
    · exact absurd hheight (hmid p (by simp))
    · cases between with
      | nil => exact congrArg Cell.addr (List.cons.inj hrest).1
      | cons first between =>
          rw [List.cons_append, List.cons.injEq] at hrest
          obtain ⟨rfl, rfl⟩ := hrest
          exact absurd hc (hlast c (by simp))

end Cells

section Search

variable {s : SkipList} {key : Bytes} {front pre mid above cells : List Cell} {x : Cell} {i : Nat}

theorem next_of_laid (h : Laid s.nodes s.tail (x :: cells)) (hi : i < x.height) :
    s.next x.addr i = some (linkTo s.tail i cells) := by
  rw [next, h [] x cells rfl]
  exact if_pos hi

/-- The keys of the cells are those of their nodes. -/
theorem isBelow_of_laid (h : Laid s.nodes s.tail cells) (hx : x ∈ cells) (htail : x.addr ≠ s.tail) :
    s.isBelow x.addr key = some (decide (x.key < key)) := by
  obtain ⟨pre, post, heq⟩ := List.append_of_mem hx
  rw [isBelow, if_neg htail, h pre x post heq]
  rfl

theorem isAt_of_laid (h : Laid s.nodes s.tail cells) (hx : x ∈ cells) (htail : x.addr ≠ s.tail) :
    s.isAt x.addr key = some (decide (x.key = key)) := by
  obtain ⟨pre, post, heq⟩ := List.append_of_mem hx
  rw [isAt, if_neg htail, h pre x post heq]
  rfl

/-- No level leads to a smaller key once all cells with smaller keys are passed. -/
theorem isBelow_linkTo (h : Laid s.nodes s.tail above) (htail : ∀ c ∈ above, c.addr ≠ s.tail)
    (habove : ∀ c ∈ above, ¬ c.key < key) (i : Nat) :
    s.isBelow (linkTo s.tail i above) key = some false := by
  rw [linkTo]
  cases hfind : above.find? fun c => i < c.height with
  | none => exact if_pos rfl
  | some c =>
      have hc := List.mem_of_find?_eq_some hfind
      exact (isBelow_of_laid h hc (htail c hc)).trans (by rw [decide_eq_false (habove c hc)])

/-- A level leads from a cell to the next one on it, or behind the list. -/
theorem next_on_level {level : Nat} (hfront : front = pre ++ x :: mid)
    (hlaid : Laid s.nodes s.tail (front ++ above)) (hlevel : level < x.height) :
    (∃ skipped y mid', mid = skipped ++ y :: mid' ∧ level < y.height ∧
      s.next x.addr level = some y.addr) ∨
      (LastOn level front x ∧ s.next x.addr level = some (linkTo s.tail level above)) := by
  have hhere : Laid s.nodes s.tail (x :: (mid ++ above)) := by
    rw [hfront, List.append_assoc] at hlaid
    exact hlaid.suffix
  have hnext := next_of_laid hhere hlevel
  cases hfind : mid.find? fun c => level < c.height with
  | some y =>
      obtain ⟨hy, skipped, mid', rfl, hskipped⟩ := List.find?_eq_some_iff_append.mp hfind
      have hylevel : level < y.height := of_decide_eq_true hy
      refine .inl ⟨skipped, y, mid', rfl, hylevel, ?_⟩
      rw [hnext, List.append_assoc, linkTo_append, List.cons_append, linkTo_cons_of_lt hylevel,
        linkTo_of_none]
      intro c hc
      simpa using hskipped c hc
  | none =>
      have hlow : ∀ c ∈ mid, ¬ level < c.height := by
        intro c hc
        simpa using List.find?_eq_none.mp hfind c hc
      refine .inr ⟨⟨pre, mid, hfront, hlevel, hlow⟩, ?_⟩
      rw [hnext, linkTo_append, linkTo_of_none hlow]

/-- The search goes on from a cell of the level with a smaller key. Behind `above` are the
cells with other keys. -/
theorem findLoop_eq (level fuel : Nat) (prevs : Nat → Option Addr)
    (hfront : front = pre ++ x :: mid) (hlaid : Laid s.nodes s.tail (front ++ above))
    (htail : ∀ c ∈ mid ++ above, c.addr ≠ s.tail) (hmid : ∀ c ∈ mid, c.key < key)
    (habove : ∀ c ∈ above, ¬ c.key < key) (hlevel : level < x.height)
    (hfuel : mid.length + level < fuel) :
    ∃ prevs', s.findLoop key fuel x.addr level prevs = some (linkTo s.tail 0 above, prevs') ∧
      (∀ i, i ≤ level → ∃ p, prevs' i = some p.addr ∧ LastOn i front p) ∧
      ∀ i, level < i → prevs' i = prevs i := by
  induction fuel generalizing pre x mid level prevs with
  | zero => omega
  | succ fuel ih =>
      have hrest : Laid s.nodes s.tail (mid ++ above) := by
        rw [hfront, List.append_assoc] at hlaid
        exact hlaid.suffix.of_cons
      rw [findLoop]
      rcases next_on_level hfront hlaid hlevel with
        ⟨skipped, y, mid', rfl, hylevel, hnext⟩ | ⟨hlast, hnext⟩
      · -- forward: `y` is the next cell on the level
        have hymem : y ∈ (skipped ++ y :: mid') ++ above := by simp
        simp only [hnext, Option.bind_eq_bind, Option.bind_some]
        rw [isBelow_of_laid hrest hymem (htail y hymem), decide_eq_true (hmid y (by simp))]
        have hfront' : front = (pre ++ x :: skipped) ++ y :: mid' := by simp [hfront]
        have hsuffix : ∀ c ∈ mid', c ∈ skipped ++ y :: mid' := fun c hc => by simp [hc]
        have htail' : ∀ c ∈ mid' ++ above, c.addr ≠ s.tail := by
          intro c hc
          rcases List.mem_append.mp hc with hbelow | habove
          · exact htail c (List.mem_append_left _ (hsuffix c hbelow))
          · exact htail c (List.mem_append_right _ habove)
        rw [List.length_append, List.length_cons] at hfuel
        exact ih level prevs hfront' htail' (fun c hc => hmid c (hsuffix c hc)) hylevel (by omega)
      · -- down: `x` is the last cell on the level
        simp only [hnext, Option.bind_eq_bind, Option.bind_some]
        rw [isBelow_linkTo hrest.suffix
          (fun c hc => htail c (List.mem_append_right _ hc)) habove]
        cases level with
        | zero =>
            refine ⟨_, rfl, ?_, ?_⟩
            · intro i hi
              obtain rfl : i = 0 := by omega
              exact ⟨x, Function.update_self _ _ _, hlast⟩
            · intro i hi
              exact Function.update_of_ne (by omega) _ _
        | succ level =>
            obtain ⟨prevs', hloop, hfilled, hkept⟩ :=
              ih level (Function.update prevs (level + 1) (some x.addr)) hfront htail hmid
                (by omega) (by omega)
            refine ⟨prevs', hloop, ?_, ?_⟩
            · intro i hi
              rcases Nat.lt_or_eq_of_le hi with hlt | rfl
              · exact hfilled i (by omega)
              · exact ⟨x, by rw [hkept _ (by omega), Function.update_self], hlast⟩
            · intro i hi
              rw [hkept i (by omega), Function.update_of_ne (by omega)]

end Search

section Relink

variable {s : SkipList} {nodes : Addr → Option Node} {write : Nat → Addr → Option Addr}
  {prevs : Nat → Option Addr} {n i : Nat} {a b : Addr} {node x : Addr}

/-- A node after its links on the levels below `n` were overwritten. -/
def Node.relink (n : Nat) (write : Nat → Addr → Option Addr) (a : Addr) (x : Node) : Node :=
  { x with nexts := fun i => if i < n then (write i a).or (x.nexts i) else x.nexts i }

/-- The heap with these links. -/
def relink (nodes : Addr → Option Node) (n : Nat) (write : Nat → Addr → Option Addr) (a : Addr) :
    Option Node := (nodes a).map (Node.relink n write a)

theorem relink_of_some {x : Node} (h : nodes a = some x) :
    relink nodes n write a = some (x.relink n write a) := by
  rw [relink, h, Option.map_some]

theorem relink_zero : relink nodes 0 write = nodes := by
  funext a
  rw [relink]
  cases nodes a <;> rfl

/-- Nodes without new links stay as they are. -/
theorem relink_of_none (h : ∀ i < n, write i a = none) : relink nodes n write a = nodes a := by
  rw [relink]
  cases nodes a with
  | none => rfl
  | some x =>
      have hnexts : (fun i => if i < n then (write i a).or (x.nexts i) else x.nexts i) = x.nexts := by
        funext i
        split
        next hi => rw [h i hi, Option.none_or]
        next => rfl
      rw [Option.map_some, Node.relink, hnexts]

theorem Node.relink_succ (n : Nat) (write : Nat → Addr → Option Addr) (a : Addr) (x : Node) :
    x.relink (n + 1) write a = { x.relink n write a with
      nexts := Function.update (x.relink n write a).nexts n ((write n a).or (x.nexts n)) } := by
  simp only [Node.relink, Node.mk.injEq, true_and, and_true]
  funext i
  by_cases hi : i = n
  · subst hi
    rw [Function.update_self, if_pos (by omega)]
  · rw [Function.update_of_ne hi]
    by_cases hlt : i < n
    · rw [if_pos hlt, if_pos (by omega)]
    · rw [if_neg hlt, if_neg (by omega)]

theorem relink_succ_of_some {x : Node} (h : write n a = some b) (hx : nodes a = some x) :
    relink nodes (n + 1) write a = some { x.relink n write a with
      nexts := Function.update (x.relink n write a).nexts n (some b) } := by
  rw [relink_of_some hx, Node.relink_succ, h, Option.some_or]

theorem relink_succ_of_none (h : write n a = none) :
    relink nodes (n + 1) write a = relink nodes n write a := by
  cases hx : nodes a with
  | none => rw [relink, relink, hx, Option.map_none, Option.map_none]
  | some x =>
      have hsame : (x.relink n write a).nexts n = x.nexts n := if_neg (Nat.lt_irrefl n)
      rw [relink_of_some hx, relink_of_some hx, Node.relink_succ, h, Option.none_or, ← hsame,
        Function.update_eq_self]

/-- The levels from `n` on are as before. -/
theorem next_relink (h : n ≤ i) :
    next { s with nodes := relink s.nodes n write } a i = s.next a i := by
  simp only [next, relink]
  cases s.nodes a with
  | none => rfl
  | some x => exact if_neg (by omega)

theorem setNext_eq {x : Node} (hx : s.nodes a = some x) (hi : i < x.height) :
    s.setNext a i b = some { s with
      nodes := Function.update s.nodes a
        (some { x with nexts := Function.update x.nexts i (some b) }) } := by
  simp [setNext, hx, hi]

/-- What the loop of `del` writes: behind the node it left a level at comes what was
behind the deleted node. -/
def unlinked (s : SkipList) (x : Addr) (prevs : Nat → Option Addr) (i : Nat) (a : Addr) :
    Option Addr :=
  if prevs i = some a then s.next x i else none

theorem unlinkLevels (h : ∀ i < n, ∃ p pnode after, prevs i = some p ∧ s.nodes p = some pnode ∧
      i < pnode.height ∧ s.next x i = some after) :
    (List.range n).foldlM (unlinkLevel x prevs) s =
      some { s with nodes := relink s.nodes n (unlinked s x prevs) } := by
  induction n with
  | zero => simp [relink_zero]
  | succ n ih =>
      obtain ⟨p, pnode, after, hp, hpnode, hheight, hafter⟩ := h n (by omega)
      rw [List.range_succ, List.foldlM_append, ih fun i hi => h i (by omega)]
      simp only [Option.bind_eq_bind, Option.bind_some, List.foldlM_cons, List.foldlM_nil,
        unlinkLevel, hp, next_relink (Nat.le_refl n), hafter]
      have hroom : n < (pnode.relink n (unlinked s x prevs) p).height := hheight
      rw [setNext_eq (relink_of_some hpnode) hroom]
      simp only [Option.bind_some, Option.pure_def, Option.some.injEq]
      congr 1
      funext a
      by_cases ha : a = p
      · subst ha
        have hwrite : unlinked s x prevs n a = some after := by rw [unlinked, if_pos hp, hafter]
        rw [Function.update_self, relink_succ_of_some hwrite hpnode]
      · have hwrite : unlinked s x prevs n a = none := by
          rw [unlinked, if_neg]
          rw [hp, Option.some.injEq]
          exact Ne.symm ha
        rw [Function.update_of_ne ha, relink_succ_of_none hwrite]

/-- What the loop of `put` writes: the new node comes behind the node that the search left
the level at, in front of what was there. -/
def linked (s : SkipList) (node : Addr) (prevs : Nat → Option Addr) (i : Nat) (a : Addr) :
    Option Addr :=
  if a = node then (prevs i).bind fun p => s.next p i
  else if prevs i = some a then some node else none

theorem linkLevels {new : Node} (hnew : s.nodes node = some new) (hn : n ≤ new.height)
    (h : ∀ i < n, ∃ p pnode after, prevs i = some p ∧ p ≠ node ∧ s.nodes p = some pnode ∧
      i < pnode.height ∧ s.next p i = some after) :
    (List.range n).foldlM (linkLevel node prevs) s =
      some { s with nodes := relink s.nodes n (linked s node prevs) } := by
  induction n with
  | zero => simp [relink_zero]
  | succ n ih =>
      obtain ⟨p, pnode, after, hp, hne, hpnode, hheight, hafter⟩ := h n (by omega)
      rw [List.range_succ, List.foldlM_append, ih (by omega) fun i hi => h i (by omega)]
      simp only [Option.bind_eq_bind, Option.bind_some, List.foldlM_cons, List.foldlM_nil,
        linkLevel, hp, next_relink (Nat.le_refl n), hafter]
      have hprev (new' : Node) :
          Function.update (relink s.nodes n (linked s node prevs)) node (some new') p =
            some (pnode.relink n (linked s node prevs) p) := by
        rw [Function.update_of_ne hne, relink_of_some hpnode]
      have hroom : n < (new.relink n (linked s node prevs) node).height := hn
      rw [setNext_eq (relink_of_some hnew) hroom]
      simp only [Option.bind_some]
      have hprevRoom : n < (pnode.relink n (linked s node prevs) p).height := hheight
      rw [setNext_eq (hprev _) hprevRoom]
      simp only [Option.bind_some, Option.pure_def, Option.some.injEq]
      congr 1
      funext a
      by_cases ha : a = p
      · subst ha
        have hwrite : linked s node prevs n a = some node := by rw [linked, if_neg hne, if_pos hp]
        rw [Function.update_self, relink_succ_of_some hwrite hpnode]
      · rw [Function.update_of_ne ha]
        by_cases hanode : a = node
        · subst hanode
          have hwrite : linked s a prevs n a = some after := by
            rw [linked, if_pos rfl, hp, Option.bind_some, hafter]
          rw [Function.update_self, relink_succ_of_some hwrite hnew]
        · have hwrite : linked s node prevs n a = none := by
            rw [linked, if_neg hanode, if_neg]
            rw [hp, Option.some.injEq]
            exact Ne.symm ha
          rw [Function.update_of_ne hanode, relink_succ_of_none hwrite]

end Relink

end SkipList

end RucDDBS
