import RucDDBS.Storage.BlockFormat

/-!
A block written by `BlockBuilder` and read back by `Block`: the size announced
before `finish`, `get`, the walk of the iterator, and the restart points. The
offsets of the restart points follow from the counter, which goes through
1, ..., 20 again and again.
-/

namespace RucDDBS

/-- Zero, and the offset of every entry whose number is a positive multiple of the
restart interval. -/
def restartPoints (es : List Entry) : List Nat :=
  0 :: ((List.range es.length).filter fun n =>
    decide (0 < n ∧ n % StorageOption.restartInterval = 0)).map fun n =>
      (encodeEntries (es.take n)).length

theorem restartPoints_snoc (es : List Entry) (e : Entry) :
    restartPoints (es ++ [e]) =
      if 0 < es.length ∧ es.length % StorageOption.restartInterval = 0 then
        restartPoints es ++ [(encodeEntries es).length]
      else restartPoints es := by
  have hold : ((List.range es.length).filter fun n =>
        decide (0 < n ∧ n % StorageOption.restartInterval = 0)).map
          (fun n => (encodeEntries ((es ++ [e]).take n)).length) =
      ((List.range es.length).filter fun n =>
        decide (0 < n ∧ n % StorageOption.restartInterval = 0)).map
          (fun n => (encodeEntries (es.take n)).length) := by
    apply List.map_congr_left
    intro n hn
    have hlt : n < es.length := List.mem_range.mp (List.mem_filter.mp hn).1
    rw [List.take_append_of_le_length hlt.le]
  simp only [restartPoints, List.length_append, List.length_singleton, List.range_succ,
    List.filter_append, List.map_append, hold]
  split
  · rename_i hpoint
    simp [hpoint]
  · rename_i hpoint
    simp [hpoint]

namespace BlockBuilder

variable {b : BlockBuilder} {es : List Entry} {e : Entry}

/-- A builder behind its constructor or behind `reset`. -/
inductive Fresh : BlockBuilder → Prop
  | built : Fresh new
  | reset (b : BlockBuilder) : Fresh b.reset

/-- One `add` for each pair. -/
def addAll (b : BlockBuilder) (es : List Entry) : Option BlockBuilder :=
  es.foldlM (fun b e => b.add e.1 e.2) b

/-- The restart bookkeeping behind the entries `es`. -/
structure Counts (b : BlockBuilder) (es : List Entry) : Prop where
  restarts : b.restarts = restartPoints es
  counter : b.counter = if es.length = 0 then 0
    else (es.length - 1) % StorageOption.restartInterval + 1

theorem Fresh.eq_new (h : b.Fresh) : b = new := by
  cases h with
  | built => rfl
  | reset b => rfl

theorem counts_new : new.Counts [] := ⟨rfl, rfl⟩

/-- The counter stands at the interval exactly in front of a restart point. -/
theorem Counts.counter_eq_iff (h : b.Counts es) :
    b.counter = StorageOption.restartInterval ↔
      0 < es.length ∧ es.length % StorageOption.restartInterval = 0 := by
  rw [h.counter, StorageOption.restartInterval]
  split <;> omega

theorem Counts.add (h : b.Counts es) (hbuffer : b.buffer = encodeEntries es)
    {b' : BlockBuilder} (hadd : b.add e.1 e.2 = some b') : b'.Counts (es ++ [e]) := by
  obtain ⟨-, hb'⟩ := Option.ite_none_right_eq_some.mp hadd
  cases hb'
  constructor
  · rw [restartPoints_snoc]
    simp only [h.counter_eq_iff, h.restarts, hbuffer]
  · have hcounter := h.counter
    have hiff := h.counter_eq_iff
    have hnonempty : (es ++ [e]).length ≠ 0 := by simp
    rw [if_neg hnonempty, List.length_append, List.length_singleton, Nat.add_sub_cancel]
    by_cases hfull : b.counter = StorageOption.restartInterval
    · exact (if_pos hfull).trans (by rw [(hiff.mp hfull).2])
    · refine (if_neg hfull).trans ?_
      rw [StorageOption.restartInterval] at *
      split at hcounter <;> omega

/-- Strictly increasing keys pass the assertions, and the builder holds what was
added. -/
theorem Holds.addAll {rest : List Entry} (h : b.Holds es) (hcounts : b.Counts es)
    (hsorted : SortedMap.Sorted (es ++ rest)) :
    ∃ b', b.addAll rest = some b' ∧ b'.Holds (es ++ rest) ∧ b'.Counts (es ++ rest) := by
  induction rest generalizing b es with
  | nil => exact ⟨b, rfl, by simpa using h, by simpa using hcounts⟩
  | cons e rest ih =>
      have happend : es ++ e :: rest = es ++ [e] ++ rest := by simp
      have habove : ∀ last, SortedMap.lastKey? es = some last → last < e.1 := by
        intro last hlast
        obtain ⟨l, hl, rfl⟩ := Option.map_eq_some_iff.mp hlast
        exact (List.pairwise_append.mp hsorted).2.2 l (List.mem_of_getLast? hl) e (by simp)
      obtain ⟨b₁, hadd, h₁⟩ := h.add e.2 habove
      have hcounts₁ := hcounts.add h.buffer hadd
      rw [happend] at hsorted ⊢
      obtain ⟨b', hall, h'⟩ := ih h₁ hcounts₁ hsorted
      refine ⟨b', ?_, h'⟩
      simp only [BlockBuilder.addAll, List.foldlM_cons, hadd, Option.bind_eq_bind, Option.bind_some]
      exact hall

/-- The announced size is the size of the finished block. -/
theorem Holds.estimatedSize (h : b.Holds es) : b.estimatedSize = b.finish.1.length := by
  rw [h.finish, Block.encodeBlock_length, BlockBuilder.estimatedSize, h.buffer]
  omega

end BlockBuilder

namespace BlockIter

variable {b : Block} {it : BlockIter} {seen rest : List Entry}

/-- Keys and values under the iterator, through `Next` until it is not valid. -/
def collect (b : Block) : Nat → BlockIter → Option (List Entry)
  | 0, _ => none
  | fuel + 1, it =>
      if it.valid b = true then do
        let it' ← it.next b
        let rest ← collect b fuel it'
        pure ((it.key, it.value) :: rest)
      else some []

def collectFromFirst (b : Block) (fuel : Nat) (it : BlockIter) : Option (List Entry) := do
  collect b fuel (← it.seekToFirst b)

theorem Before.collect {fuel : Nat} (hb : b.Encodes (seen ++ rest)) (h : it.Before seen rest)
    (hfuel : rest.length < fuel) : it.collect b fuel = some rest := by
  induction rest generalizing seen it fuel with
  | nil =>
      obtain ⟨fuel, rfl⟩ := Nat.exists_eq_succ_of_ne_zero (by omega : fuel ≠ 0)
      have hend : ¬ it.valid b = true := by
        rw [h.valid hb]
        simp
      rw [BlockIter.collect, if_neg hend]
  | cons e rest ih =>
      obtain ⟨fuel, rfl⟩ := Nat.exists_eq_succ_of_ne_zero (by omega : fuel ≠ 0)
      have hvalid : it.valid b = true := (h.valid hb).mpr (by simp)
      obtain ⟨it', hnext, h'⟩ := h.next hb
      have hrest : it'.collect b fuel = some rest :=
        ih (by simpa using hb) h' (by simpa using hfuel)
      have he : (it.key, it.value) = e := by
        rw [h.key e (by simp), h.value e (by simp)]
      rw [BlockIter.collect, if_pos hvalid, hnext]
      simp [hrest, he]

end BlockIter

open BlockBuilder in
/-- What is written for pairs with strictly increasing keys, and what it is opened as. -/
theorem exists_block {start : BlockBuilder} (hstart : start.Fresh) {es : List Entry}
    (hsorted : SortedMap.Sorted es) :
    ∃ b, start.addAll es = some b ∧ b.Holds es ∧
      (b.finish.1.length < 2 ^ 64 →
        ∃ block, Block.ofContent b.finish.1 = some block ∧ block.Encodes es ∧
          block.restarts = restartPoints es ∧ block.restartSize = block.restarts.length) := by
  rw [hstart.eq_new]
  have hnew : SortedMap.Sorted ([] ++ es) := hsorted
  obtain ⟨b, hall, hb, hcounts⟩ := holds_new.addAll counts_new hnew
  rw [List.nil_append] at hb hcounts
  refine ⟨b, hall, hb, ?_⟩
  rw [hb.finish, hcounts.restarts]
  intro hsize
  have hlen := Block.encodeBlock_length es (restartPoints es)
  have hsmall : ∀ r ∈ restartPoints es, r < 2 ^ 64 := by
    intro r hr
    have hinside := hb.restarts r (hcounts.restarts ▸ hr)
    rw [hb.buffer] at hinside
    omega
  exact ⟨_, Block.ofContent_encodeBlock hsize hsmall, ⟨⟨_, rfl⟩, rfl, hsize⟩, rfl, rfl⟩

open BlockBuilder in
/-- Pairs with strictly increasing keys are written without a failed assertion; the
size is announced exactly; and the block opened from the written bytes answers every
`get`, yields the pairs in order and has the restart points where they belong. -/
theorem block_round_trip {start : BlockBuilder} (hstart : start.Fresh) {es : List Entry}
    (hsorted : SortedMap.Sorted es) :
    ∃ b, start.addAll es = some b ∧ b.estimatedSize = b.finish.1.length ∧
      (b.finish.1.length < 2 ^ 64 →
        ∃ block, Block.ofContent b.finish.1 = some block ∧
          (∀ key value, block.get key = some (some value) ↔ (key, value) ∈ es) ∧
          (∀ key, block.get key = some none ↔ ∀ value, (key, value) ∉ es) ∧
          (∀ it fuel, es.length < fuel →
            BlockIter.collectFromFirst block fuel it = some es) ∧
          block.restarts = restartPoints es ∧ block.restartSize = block.restarts.length) := by
  obtain ⟨b, hall, hb, hopen⟩ := exists_block hstart hsorted
  refine ⟨b, hall, hb.estimatedSize, ?_⟩
  intro hsize
  obtain ⟨block, hof, hblock, hrestarts⟩ := hopen hsize
  have hmem (key value : Bytes) : es.lookup key = some value ↔ (key, value) ∈ es :=
    ⟨SortedMap.mem_of_lookup, hsorted.lookup_of_mem⟩
  refine ⟨block, hof, ?_, ?_, ?_, hrestarts⟩
  · intro key value
    rw [hblock.get, Option.some.injEq, hmem]
  · intro key
    rw [hblock.get, Option.some.injEq, Option.eq_none_iff_forall_ne_some]
    simp only [ne_eq, hmem]
  · intro it fuel hfuel
    obtain ⟨it', hseek, hbefore⟩ := it.seekToFirst_before hblock
    have hwalk : Block.Encodes _ ([] ++ es) := hblock
    rw [BlockIter.collectFromFirst, hseek]
    exact hbefore.collect hwalk hfuel

/-- Two pairs, one with an empty key and one with an empty value. -/
theorem block_round_trip_two :
    ∃ b, BlockBuilder.new.addAll [([], [1]), ([7], [])] = some b ∧
      b.estimatedSize = b.finish.1.length ∧
      ∃ block, Block.ofContent b.finish.1 = some block ∧
        (∀ key value, block.get key = some (some value) ↔
          (key, value) ∈ [([], [1]), ([7], ([] : Bytes))]) ∧
        (∀ key, block.get key = some none ↔
          ∀ value, (key, value) ∉ [([], [1]), ([7], ([] : Bytes))]) ∧
        (∀ it fuel, 2 < fuel →
          BlockIter.collectFromFirst block fuel it = some [([], [1]), ([7], [])]) ∧
        block.restarts = restartPoints [([], [1]), ([7], [])] ∧
        block.restartSize = block.restarts.length := by
  have htwo : SortedMap.Sorted [(([] : Bytes), ([1] : Bytes)), ([7], [])] := by
    simp [SortedMap.Sorted]
  obtain ⟨b, hall, hestimate, hread⟩ := block_round_trip .built htwo
  have hlength : (BlockBuilder.new.addAll [([], [1]), ([7], [])]).map
      (fun b => b.finish.1.length) = some 58 := by decide +kernel
  rw [hall, Option.map_some, Option.some.injEq] at hlength
  exact ⟨b, hall, hestimate, hread (by omega)⟩

/-- A restart point in front of the entry numbered 20. -/
example : restartPoints (List.replicate 21 ([1], [2])) = [0, 360] := by decide +kernel

end RucDDBS
