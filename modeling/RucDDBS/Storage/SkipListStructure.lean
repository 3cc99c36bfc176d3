import RucDDBS.Storage.SkipListMap

/-!
The levels of a skip list, as its pointers give them. Every level below the head's height
is a chain from the head to the tail through exactly the nodes that are high enough, and a
search leaves each of them at its last node with a smaller key.
-/

namespace RucDDBS

namespace SkipList

section Chains

/-- The links of level `i` lead from `a` through these nodes to the tail. -/
def Chain (s : SkipList) (i : Nat) : Addr → List Addr → Prop
  | a, [] => s.next a i = some s.tail
  | a, b :: rest => s.next a i = some b ∧ b ≠ s.tail ∧ s.Chain i b rest

def onLevel (i : Nat) (cells : List Cell) : List Cell := cells.filter fun c => i < c.height

/-- The last of the cells with a smaller key, the head if there is none. -/
def lastBelow (s : SkipList) (key : Bytes) (cells : List Cell) : Addr :=
  ((cells.filter fun c => c.key < key).getLast?).elim s.head Cell.addr

/-- The level structure: the chain of every level below the head's height has the cells of
the lowest one that are high enough, in the order of their keys. -/
structure Leveled (s : SkipList) (height : Nat) (cells : List Cell) : Prop where
  headHeight : s.getMaxHeight = some height
  bounded : height ≤ maxHeight
  nodes : ∀ c ∈ cells, ∃ node, s.nodes c.addr = some node ∧ node.key = c.key ∧
    node.height = c.height
  heights : ∀ c ∈ cells, 0 < c.height ∧ c.height ≤ height
  lowest : s.Chain 0 s.head (cells.map Cell.addr)
  chain : ∀ i < height, s.Chain i s.head ((onLevel i cells).map Cell.addr)
  increasing : ∀ i < height, (onLevel i cells).Pairwise fun c c' => c.key < c'.key

variable {s : SkipList} {height i : Nat} {cells below rest : List Cell} {c p : Cell} {a : Addr}
  {key : Bytes}

theorem onLevel_cons_of_lt (h : i < c.height) : onLevel i (c :: rest) = c :: onLevel i rest :=
  List.filter_cons_of_pos (by simpa using h)

theorem onLevel_cons_of_not (h : ¬ i < c.height) : onLevel i (c :: rest) = onLevel i rest :=
  List.filter_cons_of_neg (by simpa using h)

theorem onLevel_eq_nil (h : ∀ c ∈ cells, ¬ i < c.height) : onLevel i cells = [] := by
  rw [onLevel, List.filter_eq_nil_iff]
  simpa using h

/-- From a node whose link leads into the cells, a level goes on through those of them that
are high enough. -/
theorem chain_of_laid (hlaid : Laid s.nodes s.tail cells) (htail : ∀ c ∈ cells, c.addr ≠ s.tail)
    (hnext : s.next a i = some (linkTo s.tail i cells)) :
    s.Chain i a ((onLevel i cells).map Cell.addr) := by
  induction cells generalizing a with
  | nil => exact hnext
  | cons c rest ih =>
      have hrest : ∀ c ∈ rest, c.addr ≠ s.tail := fun c hc => htail c (List.mem_cons_of_mem _ hc)
      by_cases hlevel : i < c.height
      · rw [linkTo_cons_of_lt hlevel] at hnext
        rw [onLevel_cons_of_lt hlevel]
        exact ⟨hnext, htail c List.mem_cons_self, ih hlaid.of_cons hrest (next_of_laid hlaid hlevel)⟩
      · rw [linkTo_cons_of_not hlevel] at hnext
        rw [onLevel_cons_of_not hlevel]
        exact ih hlaid.of_cons hrest hnext

theorem Shape.chain (h : Shape s height cells) (hi : i < height) :
    s.Chain i s.head ((onLevel i cells).map Cell.addr) := by
  have hhead : s.next s.head i = some (linkTo s.tail i cells) := next_of_laid h.laid hi
  exact chain_of_laid h.laidCells (fun c hc => h.tail_ne hc) hhead

theorem Shape.leveled (h : Shape s height cells) : s.Leveled height cells := by
  obtain ⟨hpos, hmax⟩ := h.headHeight
  have hall : onLevel 0 cells = cells := by
    rw [onLevel, List.filter_eq_self]
    intro c hc
    exact decide_eq_true (h.heights c hc).1
  constructor
  · exact h.getMaxHeight
  · exact hmax
  · intro c hc
    obtain ⟨pre, post, hcells⟩ := List.append_of_mem hc
    exact ⟨_, h.laidCells pre c post hcells, rfl, rfl⟩
  · exact h.heights
  · have hlowest := h.chain hpos
    rwa [hall] at hlowest
  · intro i hi
    exact h.chain hi
  · intro i _
    exact h.sorted.filter _

end Chains

section Searches

variable {s : SkipList} {height i : Nat} {cells below rest : List Cell} {p : Cell} {key : Bytes}

/-- The last cell of a level before a key is the last one of the level's cells. -/
theorem LastOn.addr_eq (h : LastOn i (s.headCell height :: below) p) :
    p.addr = ((onLevel i below).getLast?).elim s.head Cell.addr := by
  obtain ⟨pre, mid, hcells, hlevel, hmid⟩ := h
  cases pre with
  | nil =>
      rw [List.nil_append, List.cons.injEq] at hcells
      obtain ⟨rfl, rfl⟩ := hcells
      rw [onLevel_eq_nil hmid]
      rfl
  | cons first pre =>
      rw [List.cons_append, List.cons.injEq] at hcells
      obtain ⟨_, rfl⟩ := hcells
      have hsplit : onLevel i (pre ++ p :: mid) = onLevel i pre ++ [p] := by
        rw [onLevel, List.filter_append, ← onLevel, ← onLevel, onLevel_cons_of_lt hlevel,
          onLevel_eq_nil hmid]
      rw [hsplit, List.getLast?_concat]
      rfl

/-- The cells of a level with smaller keys are those of the cells in front of the key. -/
theorem lastBelow_onLevel (hbelow : ∀ c ∈ below, c.key < key) (hrest : ∀ c ∈ rest, ¬ c.key < key) :
    s.lastBelow key (onLevel i (below ++ rest)) =
      ((onLevel i below).getLast?).elim s.head Cell.addr := by
  have hsmaller : (below ++ rest).filter (fun c => c.key < key) = below := by
    rw [List.filter_append, List.filter_eq_self.mpr, List.filter_eq_nil_iff.mpr, List.append_nil]
    · simpa using hrest
    · simpa using hbelow
  rw [lastBelow, onLevel, List.filter_comm, hsmaller, onLevel]

theorem Shape.search (h : Shape s height cells) (key : Bytes) :
    ∃ x prevs, s.findGreatorOrEqual key = some (x, prevs) ∧
      ∀ i < height, prevs i = some (s.lastBelow key (onLevel i cells)) := by
  obtain ⟨below, rest, hcells, hbelow, hrest⟩ : ∃ below rest, cells = below ++ rest ∧
      (∀ c ∈ below, c.key < key) ∧ ∀ c ∈ rest, ¬ c.key < key := by
    rcases exists_around h.sorted key with ⟨below, above, hkey⟩ | ⟨below, c, above, hkey⟩
    · refine ⟨below, above, hkey.eq, hkey.below, ?_⟩
      exact fun c hc => (hkey.above c hc).not_gt
    · refine ⟨below, c :: above, hkey.eq, hkey.below, ?_⟩
      intro c' hc'
      rcases List.mem_cons.mp hc' with rfl | habove
      · rw [hkey.here c' (by simp)]
        exact lt_irrefl _
      · exact (hkey.above c' habove).not_gt
  obtain ⟨prevs, hfind, hprevs⟩ := h.find hcells hbelow hrest
  refine ⟨_, prevs, hfind, ?_⟩
  intro i hi
  obtain ⟨p, hp, hlast⟩ := hprevs i hi
  rw [hp, hlast.addr_eq, hcells, lastBelow_onLevel hbelow hrest]

end Searches

/-- After any updates, with any heights, every level is a chain of the nodes that are high
enough, and a search finds the last smaller one on each of them. -/
theorem levels_of_run (actions : List Action) :
    ∃ s₀ s outs height cells, SkipList.new = some s₀ ∧
      Lts.exec SkipList.step s₀ actions = some (s, outs) ∧ s.Leveled height cells ∧
      ∀ key, ∃ x prevs, s.findGreatorOrEqual key = some (x, prevs) ∧
        ∀ i < height, prevs i = some (s.lastBelow key (onLevel i cells)) := by
  obtain ⟨s₀, hnew, hstart⟩ := refines_new
  obtain ⟨s, m, outs, hlist, _, height, cells, hshape, _⟩ :=
    Lts.exec_of_simulation Refines (fun _ _ action h => h.step action) hstart actions
  exact ⟨s₀, s, outs, height, cells, hnew, hlist, hshape.leveled, hshape.search⟩

end SkipList

end RucDDBS
