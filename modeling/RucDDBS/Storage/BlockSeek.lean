import RucDDBS.Storage.BlockRoundTrip

/-!
The seeks of the block iterator against its walk. The last restart point lies in front
of some entry of the block, so the walk from there ends where the walk from the first
entry ends; and a scan for a key stops in front of the first entry that is not below it.
-/

namespace RucDDBS

theorem exists_of_mem_restartPoints {es : List Entry} (hne : es ≠ []) {r : Nat}
    (hr : r ∈ restartPoints es) : ∃ n < es.length, r = (encodeEntries (es.take n)).length := by
  rw [restartPoints, List.mem_cons, List.mem_map] at hr
  rcases hr with rfl | ⟨n, hn, rfl⟩
  · exact ⟨0, List.length_pos_iff.mpr hne, by simp⟩
  · exact ⟨n, List.mem_range.mp (List.mem_filter.mp hn).1, rfl⟩

/-- The last restart point is in front of an entry, with entries to walk behind it. -/
theorem last_restartPoint {es : List Entry} (hne : es ≠ []) :
    ∃ seen e rest, es = seen ++ e :: rest ∧
      (restartPoints es).getLast? = some (encodeEntries seen).length := by
  have hcons : restartPoints es ≠ [] := by simp [restartPoints]
  obtain ⟨n, hn, hr⟩ := exists_of_mem_restartPoints hne (List.getLast_mem hcons)
  refine ⟨es.take n, es[n], es.drop (n + 1), ?_, ?_⟩
  · rw [← List.drop_eq_getElem_cons hn, List.take_append_drop]
  · rw [List.getLast?_eq_some_getLast hcons, hr]

namespace BlockIter

variable {b : Block} {it it' : BlockIter} {e : Entry} {es seen rest : List Entry} {key : Bytes}
  {fuel : Nat}

/-- The entry under the iterator, if it is valid. -/
def entry (it : BlockIter) (b : Block) : Option Entry :=
  if it.valid b then some (it.key, it.value) else none

/-- `Next` as long as it leads to a valid position. -/
def walkLast (b : Block) : Nat → BlockIter → Option BlockIter
  | 0, _ => none
  | fuel + 1, it => do
      let it' ← it.next b
      if it'.valid b then walkLast b fuel it' else pure it

def lastFromFirst (it : BlockIter) (b : Block) (fuel : Nat) : Option BlockIter := do
  let it ← it.seekToFirst b
  walkLast b fuel it

theorem Before.entry (hb : b.Encodes (seen ++ rest)) (h : it.Before seen rest) :
    it.entry b = rest.head? := by
  cases rest with
  | nil =>
      have hend : ¬ it.valid b = true := by
        rw [h.valid hb]
        simp
      exact if_neg hend
  | cons e rest =>
      have hvalid : it.valid b = true := (h.valid hb).mpr (by simp)
      rw [BlockIter.entry, if_pos hvalid, h.key e (by simp), h.value e (by simp)]
      rfl

/-- In front of an entry the position decides everything. -/
theorem Before.unique (h : it.Before seen (e :: rest)) (h' : it'.Before seen (e :: rest)) :
    it = it' := by
  cases it
  cases it'
  rw [BlockIter.mk.injEq]
  refine ⟨h.current.trans h'.current.symm, ?_, ?_⟩
  · exact (h.key e (by simp)).trans (h'.key e (by simp)).symm
  · exact (h.value e (by simp)).trans (h'.value e (by simp)).symm

/-- `SeekToLast` goes on until only one entry is left. -/
theorem Before.lastLoop (hb : b.Encodes (seen ++ e :: rest)) (h : it.Before seen (e :: rest))
    (hfuel : rest.length < fuel) :
    ∃ it' seen' last, it.lastLoop b fuel = some it' ∧ seen ++ e :: rest = seen' ++ [last] ∧
      it'.Before seen' [last] := by
  induction rest generalizing seen e it fuel with
  | nil =>
      obtain ⟨fuel, rfl⟩ := Nat.exists_eq_succ_of_ne_zero (by omega : fuel ≠ 0)
      refine ⟨it, seen, e, ?_, rfl, h⟩
      rw [BlockIter.lastLoop, h.following hb, if_pos]
      rw [hb.restartOffset]
  | cons e' rest ih =>
      obtain ⟨fuel, rfl⟩ := Nat.exists_eq_succ_of_ne_zero (by omega : fuel ≠ 0)
      have hmore : ¬ (encodeEntries (seen ++ [e])).length ≥ b.restartOffset := by
        have he := encodeEntry_length e'
        simp only [hb.restartOffset, encodeEntries_append, encodeEntries_cons, encodeEntries_nil,
          List.length_append, List.length_nil]
        omega
      have hsplit : seen ++ e :: e' :: rest = (seen ++ [e]) ++ e' :: rest := by simp
      obtain ⟨it₁, hnext, h₁⟩ := h.next hb
      rw [hsplit] at hb ⊢
      obtain ⟨it', seen', last, hloop, hlast, h'⟩ := ih hb h₁ (by simpa using hfuel)
      refine ⟨it', seen', last, ?_, hlast, h'⟩
      rw [BlockIter.lastLoop, h.following (by simpa using hb), if_neg hmore, hnext]
      exact hloop

/-- The walk with `Next` ends in front of the last entry too. -/
theorem Before.walkLast (hb : b.Encodes (seen ++ e :: rest)) (h : it.Before seen (e :: rest))
    (hfuel : rest.length < fuel) :
    ∃ it' seen' last, it.walkLast b fuel = some it' ∧ seen ++ e :: rest = seen' ++ [last] ∧
      it'.Before seen' [last] := by
  induction rest generalizing seen e it fuel with
  | nil =>
      obtain ⟨fuel, rfl⟩ := Nat.exists_eq_succ_of_ne_zero (by omega : fuel ≠ 0)
      obtain ⟨it₁, hnext, h₁⟩ := h.next hb
      have hend : ¬ it₁.valid b = true := by
        rw [h₁.valid (by simpa using hb)]
        simp
      refine ⟨it, seen, e, ?_, rfl, h⟩
      rw [BlockIter.walkLast, hnext, Option.bind_eq_bind, Option.bind_some, if_neg hend]
      rfl
  | cons e' rest ih =>
      obtain ⟨fuel, rfl⟩ := Nat.exists_eq_succ_of_ne_zero (by omega : fuel ≠ 0)
      obtain ⟨it₁, hnext, h₁⟩ := h.next hb
      have hsplit : seen ++ e :: e' :: rest = (seen ++ [e]) ++ e' :: rest := by simp
      rw [hsplit] at hb ⊢
      have hvalid : it₁.valid b = true := (h₁.valid hb).mpr (by simp)
      obtain ⟨it', seen', last, hwalk, hlast, h'⟩ := ih hb h₁ (by simpa using hfuel)
      refine ⟨it', seen', last, ?_, hlast, h'⟩
      rw [BlockIter.walkLast, hnext, Option.bind_eq_bind, Option.bind_some, if_pos hvalid]
      exact hwalk

/-- `SeekToLast` ends in front of the last entry, whatever the position was. -/
theorem seekToLast_before (it : BlockIter) (hb : b.Encodes es) (hne : es ≠ [])
    (hrestarts : b.restarts = restartPoints es) :
    ∃ it' seen last, it.seekToLast b = some it' ∧ es = seen ++ [last] ∧ it'.Before seen [last] := by
  obtain ⟨seen, e, rest, rfl, hpoint⟩ := last_restartPoint hne
  obtain ⟨it₁, hextract, h₁⟩ := before_of_current
    { it with current := (encodeEntries seen).length } seen hb rfl
  have hfuel : rest.length < b.restartOffset + 1 := by
    have hlen := hb.length_lt
    rw [List.length_append, List.length_cons] at hlen
    omega
  obtain ⟨it', seen', last, hloop, hlast, h'⟩ := h₁.lastLoop hb hfuel
  refine ⟨it', seen', last, ?_, hlast, h'⟩
  have hvalid : BlockIter.valid { it with current := (encodeEntries seen).length } b = true := by
    have he := encodeEntry_length e
    simp only [BlockIter.valid, hb.restartOffset, encodeEntries_append, encodeEntries_cons,
      List.length_append, decide_eq_true_eq]
    omega
  rw [extractIfValid, if_pos hvalid] at hextract
  rw [seekToLast, hrestarts, hpoint]
  simp only [Option.bind_eq_bind, Option.bind_some, if_pos hvalid, hextract]
  exact hloop

theorem lastFromFirst_before (it : BlockIter) (hb : b.Encodes es) (hne : es ≠ [])
    (hfuel : es.length ≤ fuel) :
    ∃ it' seen last, it.lastFromFirst b fuel = some it' ∧ es = seen ++ [last] ∧
      it'.Before seen [last] := by
  obtain ⟨it₁, hfirst, h₁⟩ := it.seekToFirst_before hb
  obtain ⟨e, rest, rfl⟩ := List.exists_cons_of_ne_nil hne
  have hstart : b.Encodes ([] ++ e :: rest) := hb
  have hmore : rest.length < fuel := hfuel
  obtain ⟨it', seen', last, hwalk, hlast, h'⟩ := h₁.walkLast hstart hmore
  refine ⟨it', seen', last, ?_, hlast, h'⟩
  rw [lastFromFirst, hfirst, Option.bind_eq_bind, Option.bind_some]
  exact hwalk

/-- The scan of `Seek` stops in front of the first entry that is not below the key. -/
theorem Before.seekLoop (hb : b.Encodes (seen ++ rest)) (h : it.Before seen rest)
    (hne : ∃ e ∈ rest, ¬ e.1 < key) (hfuel : rest.length < fuel) :
    ∃ it', it.seekLoop b key fuel = some it' ∧
      it'.entry b = rest.find? fun e => key ≤ e.1 := by
  induction rest generalizing seen it fuel with
  | nil => simp at hne
  | cons e rest ih =>
      obtain ⟨fuel, rfl⟩ := Nat.exists_eq_succ_of_ne_zero (by omega : fuel ≠ 0)
      have hkey := h.key e (by simp)
      by_cases hbelow : e.1 < key
      · obtain ⟨it₁, hnext, h₁⟩ := h.next hb
        have hmore : ∃ e ∈ rest, ¬ e.1 < key := by
          obtain ⟨e', he', hnot⟩ := hne
          rcases List.mem_cons.mp he' with rfl | he'
          · exact absurd hbelow hnot
          · exact ⟨e', he', hnot⟩
        have hb₁ : b.Encodes ((seen ++ [e]) ++ rest) := by simpa using hb
        have hvalid : it₁.valid b = true := by
          rw [h₁.valid hb₁]
          rintro rfl
          simp at hmore
        obtain ⟨it', hloop, hentry⟩ := ih hb₁ h₁ hmore (by simpa using hfuel)
        refine ⟨it', ?_, ?_⟩
        · rw [BlockIter.seekLoop, hkey, if_pos hbelow, hnext, Option.bind_eq_bind,
            Option.bind_some, if_pos hvalid]
          exact hloop
        · rw [hentry, SortedMap.find?_cons_of_lt hbelow]
      · refine ⟨it, ?_, ?_⟩
        · rw [BlockIter.seekLoop, hkey, if_neg hbelow]
        · rw [h.entry hb, SortedMap.find?_cons_of_not_lt hbelow]
          rfl

theorem seek_entry (it : BlockIter) (hb : b.Encodes es) (hne : es ≠ [])
    (hsorted : SortedMap.Sorted es) (hrestarts : b.restarts = restartPoints es) (key : Bytes) :
    ∃ it', it.seek b key = some it' ∧ it'.entry b = es.find? fun e => key ≤ e.1 := by
  obtain ⟨it₁, seen, last, hlast, rfl, h₁⟩ := it.seekToLast_before hb hne hrestarts
  have hkey := h₁.key last (by simp)
  by_cases hbelow : last.1 < key
  · refine ⟨{ it₁ with current := b.restartOffset }, ?_, ?_⟩
    · rw [seek, hlast, Option.bind_eq_bind, Option.bind_some, hkey, if_pos hbelow]
      rfl
    · have hnone : (seen ++ [last]).find? (fun e => key ≤ e.1) = none := by
        apply SortedMap.find?_eq_none_of_lt
        intro e he
        rcases List.mem_append.mp he with he | he
        · exact ((List.pairwise_append.mp hsorted).2.2 e he last (by simp)).trans hbelow
        · rw [List.mem_singleton.mp he]
          exact hbelow
      rw [hnone]
      exact if_neg (by simp [BlockIter.valid])
  · obtain ⟨it₂, hfirst, h₂⟩ := it₁.seekToFirst_before hb
    have hstart : b.Encodes ([] ++ (seen ++ [last])) := hb
    obtain ⟨it', hloop, hentry⟩ := h₂.seekLoop hstart ⟨last, by simp, hbelow⟩ hb.length_lt
    refine ⟨it', ?_, hentry⟩
    rw [seek, hlast, Option.bind_eq_bind, Option.bind_some, hkey, if_neg hbelow, hfirst,
      Option.bind_some]
    exact hloop

end BlockIter

open BlockBuilder BlockIter in
/-- On a block with entries, `SeekToLast` leads from any position to the same state as the
walk from the first entry to the last one, and `Seek` from any position to the first entry
that is not below the key, or to no entry. -/
theorem block_seeks {start : BlockBuilder} (hstart : start.Fresh) {es : List Entry} (hne : es ≠ [])
    (hsorted : SortedMap.Sorted es) :
    ∃ b, start.addAll es = some b ∧
      (b.finish.1.length < 2 ^ 64 →
        ∃ block, Block.ofContent b.finish.1 = some block ∧
          (∀ (it it₀ : BlockIter) (fuel : Nat), es.length ≤ fuel →
            ∃ last, it.seekToLast block = some last ∧ lastFromFirst it₀ block fuel = some last ∧
              last.entry block = es.getLast?) ∧
          ∀ (it : BlockIter) (key : Bytes), ∃ found, it.seek block key = some found ∧
            found.entry block = es.find? fun e => key ≤ e.1) := by
  obtain ⟨b, hall, _, hopen⟩ := exists_block hstart hsorted
  refine ⟨b, hall, fun hsize => ?_⟩
  obtain ⟨block, hof, hblock, hrestarts, _⟩ := hopen hsize
  refine ⟨block, hof, ?_, ?_⟩
  · intro it it₀ fuel hfuel
    obtain ⟨last, seen, e, hlast, hes, h⟩ := it.seekToLast_before hblock hne hrestarts
    obtain ⟨last', seen', e', hwalk, hes', h'⟩ := it₀.lastFromFirst_before hblock hne hfuel
    rw [hes] at hes'
    obtain ⟨rfl, heq⟩ := List.append_inj' hes' rfl
    obtain rfl := List.singleton_inj.mp heq
    obtain rfl := h.unique h'
    refine ⟨last, hlast, hwalk, ?_⟩
    rw [hes] at hblock ⊢
    rw [h.entry hblock, List.getLast?_concat]
    rfl
  · intro it key
    exact it.seek_entry hblock hne hsorted hrestarts key

/-- 21 entries, so the last restart point is in front of the last entry. -/
theorem block_seeks_of_restarted :
    ∃ b, BlockBuilder.new.addAll ((List.range 21).map fun n => ([UInt8.ofNat n], [])) = some b ∧
      ∃ block, Block.ofContent b.finish.1 = some block ∧
        (∀ (it it₀ : BlockIter) (fuel : Nat), 21 ≤ fuel →
          ∃ last, it.seekToLast block = some last ∧
            BlockIter.lastFromFirst it₀ block fuel = some last ∧
            last.entry block = some ([20], [])) ∧
        ∀ (it : BlockIter) (key : Bytes), ∃ found, it.seek block key = some found ∧
          found.entry block =
            ((List.range 21).map fun n => ([UInt8.ofNat n], ([] : Bytes))).find?
              fun e => key ≤ e.1 := by
  have hsorted : SortedMap.Sorted ((List.range 21).map fun n => ([UInt8.ofNat n], ([] : Bytes))) := by
    rw [SortedMap.Sorted]
    decide +kernel
  obtain ⟨b, hall, hopen⟩ := block_seeks .built (by simp) hsorted
  have hlength : (BlockBuilder.new.addAll ((List.range 21).map fun n => ([UInt8.ofNat n], []))).map
      (fun b => b.finish.1.length) = some 389 := by decide +kernel
  rw [hall, Option.map_some, Option.some.injEq] at hlength
  exact ⟨b, hall, hopen (by omega)⟩

end RucDDBS
