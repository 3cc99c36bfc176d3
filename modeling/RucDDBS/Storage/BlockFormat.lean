import RucDDBS.Storage.Block
import RucDDBS.Library.SortedMap

/-!
What a finished block says: the entries that were added, in order. The writer's
side is an invariant of the builder, the reader's side is a scan that stands
before some rest of the entries and consumes one of them at a time.
-/

namespace RucDDBS

theorem addU64_of_lt {a b : Nat} (h : a + b < 2 ^ 64) : addU64 a b = a + b :=
  Nat.mod_eq_of_lt h

@[simp] theorem fixed64_length (n : Nat) : (fixed64 n).length = 8 := Bytes.toLE_length 8 n

theorem readU64_append {bytes : Bytes} (before after : Bytes) {pos n : Nat}
    (h : bytes = before ++ fixed64 n ++ after) (hpos : pos = before.length)
    (hn : n < 2 ^ 64) : readU64 bytes pos = some n := by
  have hmod : n % 256 ^ 8 = n := by omega
  rw [readU64, Bytes.readLE_append h hpos, hmod]

def encodeEntries (es : List Entry) : Bytes := (es.map BlockBuilder.encodeEntry).flatten

/-- The content of a block with these entries and restart points. -/
def encodeBlock (es : List Entry) (restarts : List Nat) : Bytes :=
  encodeEntries es ++ BlockBuilder.trailer restarts (encodeEntries es).length

@[simp] theorem encodeEntries_nil : encodeEntries [] = [] := rfl

@[simp] theorem encodeEntries_cons (e : Entry) (es : List Entry) :
    encodeEntries (e :: es) = BlockBuilder.encodeEntry e ++ encodeEntries es := by
  simp [encodeEntries]

@[simp] theorem encodeEntries_append (es es' : List Entry) :
    encodeEntries (es ++ es') = encodeEntries es ++ encodeEntries es' := by
  simp [encodeEntries]

theorem encodeEntry_length (e : Entry) :
    (BlockBuilder.encodeEntry e).length = 16 + e.1.length + e.2.length := by
  simp only [BlockBuilder.encodeEntry, List.length_append, fixed64_length]
  omega

theorem length_le_encodeEntries (es : List Entry) : es.length ≤ (encodeEntries es).length := by
  induction es with
  | nil => simp
  | cons e es ih =>
      have he := encodeEntry_length e
      simp only [encodeEntries_cons, List.length_append, List.length_cons]
      omega

namespace BlockBuilder

variable {b : BlockBuilder} {es : List Entry} {key : Bytes}

/-- The builder has taken exactly the entries `es` since it was new or reset. -/
structure Holds (b : BlockBuilder) (es : List Entry) : Prop where
  buffer : b.buffer = encodeEntries es
  lastKey : ∀ last, SortedMap.lastKey? es = some last → b.lastKey = last
  counter : b.counter ≤ StorageOption.restartInterval
  finished : b.finished = false
  restarts : ∀ r ∈ b.restarts, r ≤ b.buffer.length
  restartCount : b.restarts.length ≤ es.length + 1

theorem holds_new : new.Holds [] where
  buffer := rfl
  lastKey := by simp [SortedMap.lastKey?]
  counter := by decide
  finished := rfl
  restarts := by simp [new]
  restartCount := by simp [new]

theorem Holds.empty_iff (h : b.Holds es) : b.empty = true ↔ es = [] := by
  have hlen := length_le_encodeEntries es
  rw [empty, h.buffer, List.isEmpty_iff]
  constructor
  · intro hnil
    rw [hnil, List.length_nil, Nat.le_zero, List.length_eq_zero_iff] at hlen
    exact hlen
  · rintro rfl
    rfl

/-- Adding a key above the last one passes all assertions. -/
theorem Holds.add (h : b.Holds es) (value : Bytes)
    (hkey : ∀ last, SortedMap.lastKey? es = some last → last < key) :
    ∃ b', b.add key value = some b' ∧ b'.Holds (es ++ [(key, value)]) := by
  have horder : b.empty = true ∨ b.lastKey < key := by
    rw [h.empty_iff]
    rcases hlast : SortedMap.lastKey? es with _ | last
    · simp only [SortedMap.lastKey?, Option.map_eq_none_iff, List.getLast?_eq_none_iff] at hlast
      exact .inl hlast
    · rw [h.lastKey last hlast]
      exact .inr (hkey last hlast)
  have hassert : b.finished = false ∧ b.counter ≤ StorageOption.restartInterval ∧
      (b.empty = true ∨ b.lastKey < key) := ⟨h.finished, h.counter, horder⟩
  refine ⟨_, if_pos hassert, ?_⟩
  constructor
  · simp [h.buffer]
  · simp [SortedMap.lastKey?]
  · have hcounter := h.counter
    have hpos : 1 ≤ StorageOption.restartInterval := by decide
    show (if b.counter = StorageOption.restartInterval then 1 else b.counter + 1) ≤ _
    split <;> omega
  · exact h.finished
  · intro r hr
    have hgrow : b.buffer.length ≤ (b.buffer ++ encodeEntry (key, value)).length := by simp
    have hold : r ∈ b.restarts ∨ r = b.buffer.length := by
      simp only at hr
      split at hr
      · simpa using hr
      · exact .inl hr
    rcases hold with hold | rfl
    · exact (h.restarts r hold).trans hgrow
    · exact hgrow
  · have hcount := h.restartCount
    simp only [List.length_append, List.length_singleton]
    split
    · simp only [List.length_append, List.length_singleton]
      omega
    · omega

theorem Holds.finish (h : b.Holds es) : b.finish.1 = encodeBlock es b.restarts := by
  simp [BlockBuilder.finish, encodeBlock, h.buffer]

end BlockBuilder

namespace Block

variable {b : Block} {key before after : Bytes} {e : Entry} {pos : Nat}

theorem flatten_fixed64_length (restarts : List Nat) :
    (restarts.map fixed64).flatten.length = 8 * restarts.length := by
  induction restarts with
  | nil => rfl
  | cons r rest ih =>
      simp only [List.map_cons, List.flatten_cons, List.length_append, fixed64_length, ih,
        List.length_cons]
      omega

theorem encodeBlock_length (es : List Entry) (restarts : List Nat) :
    (encodeBlock es restarts).length =
      (encodeEntries es).length + 8 * restarts.length + 16 := by
  simp only [encodeBlock, BlockBuilder.trailer, List.length_append, fixed64_length,
    flatten_fixed64_length]
  omega

theorem readRestarts_append {content : Bytes} {restarts : List Nat} {i : Nat}
    (hcontent : content = before ++ (restarts.map fixed64).flatten ++ after)
    (hi : i = before.length) (hsmall : ∀ r ∈ restarts, r < 2 ^ 64) :
    readRestarts content i restarts.length = some restarts := by
  induction restarts generalizing before i with
  | nil => rfl
  | cons r rest ih =>
      have hread : readU64 content i = some r := by
        apply readU64_append before ((rest.map fixed64).flatten ++ after) _ hi
          (hsmall r (by simp))
        simp [hcontent]
      have hrest : readRestarts content (i + 8) rest.length = some rest := by
        have hparts : content = before ++ fixed64 r ++ (rest.map fixed64).flatten ++ after := by
          simp [hcontent]
        exact ih hparts (by simp [hi]) (fun r' hr' => hsmall r' (by simp [hr']))
      simp [readRestarts, hread, hrest]

/-- Opening a finished block finds the trailer and reads every restart point. -/
theorem ofContent_encodeBlock {es : List Entry} {restarts : List Nat}
    (hsize : (encodeBlock es restarts).length < 2 ^ 64) (hsmall : ∀ r ∈ restarts, r < 2 ^ 64) :
    ofContent (encodeBlock es restarts) =
      some ⟨encodeBlock es restarts, (encodeEntries es).length, restarts.length, restarts⟩ := by
  have hlen := encodeBlock_length es restarts
  have hoffset : readU64 (encodeBlock es restarts) ((encodeBlock es restarts).length - 8) =
      some (encodeEntries es).length := by
    apply readU64_append (encodeEntries es ++ (fixed64 restarts.length ++
      (restarts.map fixed64).flatten)) []
    · simp [encodeBlock, BlockBuilder.trailer]
    · simp only [hlen, List.length_append, fixed64_length, flatten_fixed64_length]
      omega
    · omega
  have hcount : readU64 (encodeBlock es restarts) (encodeEntries es).length =
      some restarts.length := by
    apply readU64_append (encodeEntries es)
      ((restarts.map fixed64).flatten ++ fixed64 (encodeEntries es).length)
    · simp [encodeBlock, BlockBuilder.trailer]
    · rfl
    · omega
  have hstart : addU64 (encodeEntries es).length 8 = (encodeEntries es).length + 8 := by
    apply addU64_of_lt
    omega
  have hrounds : ((encodeBlock es restarts).length - 8 - ((encodeEntries es).length + 8) + 7) / 8 =
      restarts.length := by
    omega
  have hrestarts : readRestarts (encodeBlock es restarts) ((encodeEntries es).length + 8)
      restarts.length = some restarts := by
    have hparts : encodeBlock es restarts = encodeEntries es ++ fixed64 restarts.length ++
        (restarts.map fixed64).flatten ++ fixed64 (encodeEntries es).length := by
      simp [encodeBlock, BlockBuilder.trailer]
    exact readRestarts_append hparts (by simp) hsmall
  have hnot : ¬ (encodeBlock es restarts).length < 8 := by omega
  simp [ofContent, hnot, hoffset, hcount, hstart, hrounds, hrestarts]

/-- Reading the entry that starts at `pos`. -/
theorem keyAt_append (hcontent : b.content = before ++ BlockBuilder.encodeEntry e ++ after)
    (hpos : pos = before.length) (hsize : b.content.length < 2 ^ 64) :
    b.keyAt pos = some (e.1, before.length + 8 + e.1.length, e.2.length) ∧
      b.valueAt (before.length + 8 + e.1.length) e.2.length = some e.2 ∧
      addU64 (addU64 (before.length + 8 + e.1.length) e.2.length) 8 =
        (before ++ BlockBuilder.encodeEntry e).length := by
  have hlen : b.content.length =
      before.length + (16 + e.1.length + e.2.length) + after.length := by
    simp only [hcontent, List.length_append, encodeEntry_length]
  have hkeySize : readU64 b.content pos = some e.1.length := by
    apply readU64_append before (e.1 ++ fixed64 e.2.length ++ e.2 ++ after) _ hpos (by omega)
    simp [hcontent, BlockBuilder.encodeEntry]
  have hkeyPos : addU64 pos 8 = before.length + 8 := by
    rw [hpos]
    apply addU64_of_lt
    omega
  have hvalueOffset : addU64 (before.length + 8) e.1.length =
      before.length + 8 + e.1.length := by
    apply addU64_of_lt
    omega
  have hvalueSize : readU64 b.content (before.length + 8 + e.1.length) = some e.2.length := by
    apply readU64_append (before ++ fixed64 e.1.length ++ e.1) (e.2 ++ after) _ _ (by omega)
    · simp [hcontent, BlockBuilder.encodeEntry]
    · simp only [List.length_append, fixed64_length]
  have hkey : Bytes.substr b.content (before.length + 8) e.1.length = some e.1 := by
    have hparts : b.content = before ++ fixed64 e.1.length ++ e.1 ++
        (fixed64 e.2.length ++ e.2 ++ after) := by
      simp [hcontent, BlockBuilder.encodeEntry]
    exact Bytes.substr_append hparts (by simp) rfl
  have hvaluePos : addU64 (before.length + 8 + e.1.length) 8 =
      before.length + 8 + e.1.length + 8 := by
    apply addU64_of_lt
    omega
  have hvalue : Bytes.substr b.content (before.length + 8 + e.1.length + 8) e.2.length =
      some e.2 := by
    have hparts : b.content = before ++ fixed64 e.1.length ++ e.1 ++ fixed64 e.2.length ++
        e.2 ++ after := by
      simp [hcontent, BlockBuilder.encodeEntry]
    have hbefore : before.length + 8 + e.1.length + 8 =
        (before ++ fixed64 e.1.length ++ e.1 ++ fixed64 e.2.length).length := by
      simp only [List.length_append, fixed64_length]
    exact Bytes.substr_append hparts hbefore rfl
  refine ⟨?_, ?_, ?_⟩
  · simp [keyAt, hkeySize, hkeyPos, hvalueOffset, hvalueSize, hkey]
  · rw [valueAt, hvaluePos, hvalue]
  · have hend : addU64 (before.length + 8 + e.1.length) e.2.length =
        before.length + 8 + e.1.length + e.2.length := by
      apply addU64_of_lt
      omega
    rw [hend, addU64_of_lt (by omega)]
    simp only [List.length_append, encodeEntry_length]
    omega

/-- The block was written for the entries `es`. -/
structure Encodes (b : Block) (es : List Entry) : Prop where
  content : ∃ tail, b.content = encodeEntries es ++ tail
  restartOffset : b.restartOffset = (encodeEntries es).length
  size : b.content.length < 2 ^ 64

/-- The bound of the loops over a block lets them go over all entries. -/
theorem Encodes.length_lt {es : List Entry} (h : b.Encodes es) : es.length < b.restartOffset + 1 := by
  have hlen := length_le_encodeEntries es
  rw [h.restartOffset]
  omega

/-- The scan from behind the entries `seen` searches exactly the others. -/
theorem Encodes.getLoop (seen : List Entry) {rest : List Entry}
    (h : b.Encodes (seen ++ rest)) {fuel : Nat}
    (hfuel : rest.length < fuel) :
    b.getLoop key fuel (encodeEntries seen).length = some (rest.lookup key) := by
  induction rest generalizing seen fuel with
  | nil =>
      obtain ⟨fuel, rfl⟩ := Nat.exists_eq_succ_of_ne_zero (by omega : fuel ≠ 0)
      have hend : ¬ (encodeEntries seen).length < b.restartOffset := by
        simp [h.restartOffset]
      simp [Block.getLoop, hend]
  | cons e rest ih =>
      obtain ⟨fuel, rfl⟩ := Nat.exists_eq_succ_of_ne_zero (by omega : fuel ≠ 0)
      obtain ⟨tail, htail⟩ := h.content
      have hparts : b.content = encodeEntries seen ++ BlockBuilder.encodeEntry e ++
          (encodeEntries rest ++ tail) := by
        simp [htail]
      obtain ⟨hkey, hvalue, hnext⟩ := keyAt_append hparts rfl h.size
      have hmore : (encodeEntries seen).length < b.restartOffset := by
        have he := encodeEntry_length e
        simp only [h.restartOffset, encodeEntries_append, encodeEntries_cons,
          List.length_append]
        omega
      rw [Block.getLoop, if_pos hmore, hkey, List.lookup_cons]
      by_cases heq : e.1 = key
      · subst heq
        simp [hvalue]
      · have hbeq : (key == e.1) = false := by simpa using Ne.symm heq
        have hseen : (encodeEntries seen ++ BlockBuilder.encodeEntry e).length =
            (encodeEntries (seen ++ [e])).length := by
          simp
        have hrest : b.getLoop key fuel (encodeEntries (seen ++ [e])).length =
            some (rest.lookup key) := by
          apply ih (seen ++ [e]) (by simpa using h)
          simp only [List.length_cons] at hfuel
          omega
        simp [heq, hbeq, hnext, hseen, hrest]

/-- `get` on a block searches the entries it was written for. -/
theorem Encodes.get {es : List Entry} (h : b.Encodes es) (key : Bytes) :
    b.get key = some (es.lookup key) :=
  Encodes.getLoop [] h h.length_lt

end Block

namespace BlockIter

variable {b : Block} {it : BlockIter} {e : Entry} {es seen rest : List Entry}

/-- The iterator stands before `rest`, behind `seen`. -/
structure Before (it : BlockIter) (seen rest : List Entry) : Prop where
  current : it.current = (encodeEntries seen).length
  key : ∀ e ∈ rest.head?, it.key = e.1
  value : ∀ e ∈ rest.head?, it.value = e.2

theorem Before.valid (hb : b.Encodes (seen ++ rest)) (h : it.Before seen rest) :
    it.valid b = true ↔ rest ≠ [] := by
  have hlen := length_le_encodeEntries rest
  simp only [BlockIter.valid, h.current, hb.restartOffset, encodeEntries_append,
    List.length_append, decide_eq_true_eq]
  constructor
  · rintro hlt rfl
    simp at hlt
  · intro hne
    have hpos := List.length_pos_iff.mpr hne
    omega

/-- Moving to the offset behind `seen` and extracting there stands before the
rest. This is what both `SeekToFirst` and `Next` end with. -/
theorem before_of_current (it : BlockIter) (seen : List Entry)
    (hb : b.Encodes (seen ++ rest)) (hcurrent : it.current = (encodeEntries seen).length) :
    ∃ it', it.extractIfValid b = some it' ∧ it'.Before seen rest := by
  cases rest with
  | nil =>
      have hend : it.valid b = false := by
        simp [BlockIter.valid, hcurrent, hb.restartOffset]
      refine ⟨it, by simp [extractIfValid, hend], hcurrent, by simp, by simp⟩
  | cons e rest =>
      obtain ⟨tail, htail⟩ := hb.content
      have hparts : b.content = encodeEntries seen ++ BlockBuilder.encodeEntry e ++
          (encodeEntries rest ++ tail) := by
        simp [htail]
      obtain ⟨hkey, hvalue, _⟩ := Block.keyAt_append hparts rfl hb.size
      have hmore : it.valid b = true := by
        have he := encodeEntry_length e
        simp only [BlockIter.valid, hcurrent, hb.restartOffset, encodeEntries_append,
          encodeEntries_cons, List.length_append, decide_eq_true_eq]
        omega
      refine ⟨{ it with key := e.1, value := e.2 }, ?_, ?_⟩
      · simp [extractIfValid, hmore, extractKeyvalue, hcurrent, hkey, hvalue]
      · constructor
        · exact hcurrent
        · simp
        · simp

theorem seekToFirst_before (it : BlockIter) (hb : b.Encodes es) :
    ∃ it', it.seekToFirst b = some it' ∧ it'.Before [] es :=
  before_of_current { it with current := 0 } [] hb rfl

/-- The position behind the entry under the iterator. -/
theorem Before.following (hb : b.Encodes (seen ++ e :: rest)) (h : it.Before seen (e :: rest)) :
    addU64 it.current (addU64 (addU64 (8 * 2) it.key.length) it.value.length) =
      (encodeEntries (seen ++ [e])).length := by
  have hlen : (encodeEntries seen).length + (16 + e.1.length + e.2.length) < 2 ^ 64 := by
    obtain ⟨tail, htail⟩ := hb.content
    have hsize := hb.size
    simp only [htail, encodeEntries_append, encodeEntries_cons, List.length_append,
      encodeEntry_length] at hsize
    omega
  rw [h.current, h.key e (by simp), h.value e (by simp)]
  have hkey : addU64 (8 * 2) e.1.length = 16 + e.1.length := addU64_of_lt (by omega)
  have hvalue : addU64 (16 + e.1.length) e.2.length = 16 + e.1.length + e.2.length :=
    addU64_of_lt (by omega)
  rw [hkey, hvalue, addU64_of_lt hlen]
  simp [encodeEntry_length]

theorem Before.next (hb : b.Encodes (seen ++ e :: rest)) (h : it.Before seen (e :: rest)) :
    ∃ it', it.next b = some it' ∧ it'.Before (seen ++ [e]) rest := by
  have hb' : b.Encodes (seen ++ [e] ++ rest) := by simpa using hb
  exact before_of_current _ (seen ++ [e]) hb' (h.following hb)

end BlockIter

end RucDDBS
