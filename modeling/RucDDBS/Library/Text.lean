import Mathlib.Algebra.Group.Int.Defs
import Mathlib.Algebra.Group.Nat.Defs
import Mathlib.Algebra.GroupWithZero.Nat
import Mathlib.Data.List.Basic
import Mathlib.Data.List.TakeWhile
import Mathlib.Order.Basic

/-!
Text in which numbers and words stand one after the other, as streams and
formatted input write and read it: a number in decimal, a word as far as the
next blank, and a list as its items with a blank before each of them. The round
trips hold wherever the text goes on with something that cannot belong to the
item before.
-/

abbrev Text := List Char

namespace Text

/-- A number in decimal, with a sign only if it is negative. -/
def ofInt (z : Int) : Text :=
  if z < 0 then '-' :: Nat.toDigits 10 z.natAbs else Nat.toDigits 10 z.natAbs

/-- The digits at the beginning of a text, as a number, and what follows them. -/
def readNat (t : Text) : Option (Nat × Text) :=
  let digits := t.takeWhile Char.isDigit
  if digits = [] then none
  else some (Nat.ofDigitChars 10 digits 0, t.dropWhile Char.isDigit)

def readInt : Text → Option (Int × Text)
  | '-' :: t => (readNat t).map fun r => (-(r.1 : Int), r.2)
  | '+' :: t => (readNat t).map fun r => ((r.1 : Int), r.2)
  | t => (readNat t).map fun r => ((r.1 : Int), r.2)

def skipBlanks (t : Text) : Text := t.dropWhile Char.isWhitespace

def readWord (t : Text) : Option (Text × Text) :=
  let t := skipBlanks t
  let word := t.takeWhile fun c => !c.isWhitespace
  if word = [] then none else some (word, t.dropWhile fun c => !c.isWhitespace)

/-- A number after blanks. -/
def readNumber (t : Text) : Option (Int × Text) := readInt (skipBlanks t)

/-- `n` items, one after the other. -/
def readMany {α : Type*} (read : Text → Option (α × Text)) : Nat → Text → Option (List α × Text)
  | 0, t => some ([], t)
  | n + 1, t => do
      let (item, t) ← read t
      let (items, t) ← readMany read n t
      pure (item :: items, t)

/-- The items with a blank before each of them. -/
def spread (items : List Text) : Text := items.flatMap fun item => ' ' :: item

/-- A piece that belongs to the item as a whole, before one that does not. -/
theorem cut {α : Type*} {p : α → Bool} {item rest : List α} (hitem : ∀ c ∈ item, p c = true)
    (hrest : ∀ c ∈ rest.head?, p c = false) :
    (item ++ rest).takeWhile p = item ∧ (item ++ rest).dropWhile p = rest := by
  rw [List.takeWhile_append_of_pos hitem, List.dropWhile_append_of_pos hitem]
  cases rest with
  | nil => simp
  | cons c rest =>
      have hc := hrest c rfl
      simp [hc]

/-- The text does not go on with a digit. -/
def NoDigit (rest : Text) : Prop := ∀ c ∈ rest.head?, c.isDigit = false

/-- The text is at its end or goes on with a blank. -/
def AtBlank (rest : Text) : Prop := ∀ c ∈ rest.head?, c.isWhitespace = true

theorem isDigit_of_blank {c : Char} (h : c.isWhitespace = true) : c.isDigit = false := by
  simp only [Char.isWhitespace, Bool.or_eq_true, decide_eq_true_eq] at h
  rcases h with ((rfl | rfl) | rfl) | rfl <;> decide

theorem AtBlank.noDigit {rest : Text} (h : AtBlank rest) : NoDigit rest :=
  fun c hc => isDigit_of_blank (h c hc)

@[simp] theorem atBlank_nil : AtBlank [] := by
  simp [AtBlank]

@[simp] theorem atBlank_spread (items : List Text) : AtBlank (spread items) := by
  cases items with
  | nil => simp [spread]
  | cons item items =>
      intro c hc
      simp only [spread, List.flatMap_cons, List.cons_append, List.head?_cons,
        Option.mem_def, Option.some.injEq] at hc
      subst hc
      decide

theorem readNat_toDigits (n : Nat) {rest : Text} (hrest : NoDigit rest) :
    readNat (Nat.toDigits 10 n ++ rest) = some (n, rest) := by
  have hdigits : ∀ c ∈ Nat.toDigits 10 n, c.isDigit = true :=
    fun c hc => Nat.isDigit_of_mem_toDigits (by omega) (by omega) hc
  obtain ⟨htake, hdrop⟩ := cut hdigits hrest
  simp only [readNat, htake, hdrop, Nat.toDigits_ne_nil, if_false]
  rw [Nat.ofDigitChars_toDigits (by omega) (by omega)]

/-- A decimal number starts with a digit. -/
theorem toDigits_eq_cons (n : Nat) :
    ∃ c digits, Nat.toDigits 10 n = c :: digits ∧ c.isDigit = true := by
  obtain ⟨c, digits, heq⟩ := List.exists_cons_of_ne_nil (Nat.toDigits_ne_nil (n := n) (b := 10))
  refine ⟨c, digits, heq, ?_⟩
  have hmem : c ∈ Nat.toDigits 10 n := by
    rw [heq]
    exact List.mem_cons_self
  exact Nat.isDigit_of_mem_toDigits (by omega) (by omega) hmem

theorem readInt_of_digit {c : Char} {t : Text} (h : c.isDigit = true) :
    readInt (c :: t) = (readNat (c :: t)).map fun r => ((r.1 : Int), r.2) := by
  have hminus : c ≠ '-' := by
    rintro rfl
    cases h
  have hplus : c ≠ '+' := by
    rintro rfl
    cases h
  unfold readInt
  split
  next heq => exact absurd (List.cons.inj heq).1 hminus
  next heq => exact absurd (List.cons.inj heq).1 hplus
  next => rfl

/-- A number is read back, whatever follows it. -/
theorem readInt_ofInt (z : Int) {rest : Text} (hrest : NoDigit rest) :
    readInt (ofInt z ++ rest) = some (z, rest) := by
  by_cases hneg : z < 0
  · rw [ofInt, if_pos hneg, List.cons_append, readInt, readNat_toDigits _ hrest]
    simp only [Option.map_some, Option.some.injEq, Prod.mk.injEq, and_true]
    omega
  · obtain ⟨c, digits, heq, hdigit⟩ := toDigits_eq_cons z.natAbs
    have hread := readNat_toDigits z.natAbs hrest
    rw [heq, List.cons_append] at hread
    rw [ofInt, if_neg hneg, heq, List.cons_append, readInt_of_digit hdigit, hread]
    simp only [Option.map_some, Option.some.injEq, Prod.mk.injEq, and_true]
    omega

theorem ofInt_injective : Function.Injective ofInt := by
  intro a b heq
  have hend : NoDigit [] := by simp [NoDigit]
  have ha := readInt_ofInt a hend
  have hb := readInt_ofInt b hend
  rw [heq, hb] at ha
  simpa using ha.symm

/-- A number has no blanks and no other characters than its sign and digits. -/
theorem mem_ofInt {z : Int} {c : Char} (h : c ∈ ofInt z) : c = '-' ∨ c.isDigit = true := by
  have hdigit (hmem : c ∈ Nat.toDigits 10 z.natAbs) : c.isDigit = true :=
    Nat.isDigit_of_mem_toDigits (by omega) (by omega) hmem
  unfold ofInt at h
  split at h
  · rcases List.mem_cons.mp h with heq | hmem
    · exact .inl heq
    · exact .inr (hdigit hmem)
  · exact .inr (hdigit h)

theorem ofInt_ne_nil (z : Int) : ofInt z ≠ [] := by
  unfold ofInt
  split
  · simp
  · exact Nat.toDigits_ne_nil

/-- A text that reads as one word. -/
structure IsWord (word : Text) : Prop where
  ne_nil : word ≠ []
  no_blank : ∀ c ∈ word, c.isWhitespace = false

theorem isWord_of_all {word : Text} (hne : word ≠ [])
    (h : word.all (fun c => !c.isWhitespace) = true) : IsWord word where
  ne_nil := hne
  no_blank := fun c hc => by simpa using List.all_eq_true.mp h c hc

theorem isWord_ofInt (z : Int) : IsWord (ofInt z) where
  ne_nil := ofInt_ne_nil z
  no_blank := by
    intro c hc
    rcases mem_ofInt hc with rfl | hdigit
    · decide
    · by_contra hblank
      rw [Bool.not_eq_false] at hblank
      rw [isDigit_of_blank hblank] at hdigit
      cases hdigit

theorem IsWord.append {word : Text} (h : IsWord word) {rest : Text}
    (hrest : ∀ c ∈ rest, c.isWhitespace = false) : IsWord (word ++ rest) where
  ne_nil := by simp [h.ne_nil]
  no_blank := by
    intro c hc
    rcases List.mem_append.mp hc with hword | htail
    · exact h.no_blank c hword
    · exact hrest c htail

/-- No blank stands before a word. -/
theorem skipBlanks_word {word : Text} (h : IsWord word) (rest : Text) :
    skipBlanks (word ++ rest) = word ++ rest := by
  obtain ⟨c, tail, rfl⟩ := List.exists_cons_of_ne_nil h.ne_nil
  have hc := h.no_blank c List.mem_cons_self
  simp [skipBlanks, hc]

theorem readNumber_ofInt (z : Int) {rest : Text} (hrest : NoDigit rest) :
    readNumber (ofInt z ++ rest) = some (z, rest) := by
  rw [readNumber, skipBlanks_word (isWord_ofInt z), readInt_ofInt z hrest]

/-- A blank before a word is skipped. -/
theorem skipBlanks_spread {word rest : Text} (h : IsWord word) :
    skipBlanks (' ' :: (word ++ rest)) = word ++ rest := by
  have hblank : Char.isWhitespace ' ' = true := by decide
  rw [skipBlanks, List.dropWhile_cons_of_pos hblank, ← skipBlanks, skipBlanks_word h]

theorem readWord_word {word rest : Text} (h : IsWord word) (hrest : AtBlank rest) :
    readWord (word ++ rest) = some (word, rest) := by
  have hword : ∀ c ∈ word, (!c.isWhitespace) = true := fun c hc => by simp [h.no_blank c hc]
  have hblank : ∀ c ∈ rest.head?, (!c.isWhitespace) = false := fun c hc => by simp [hrest c hc]
  obtain ⟨htake, hdrop⟩ := cut hword hblank
  simp only [readWord, skipBlanks_word h, htake, hdrop, h.ne_nil, if_false]

theorem readWord_spread {word rest : Text} (h : IsWord word) (hrest : AtBlank rest) :
    readWord (' ' :: (word ++ rest)) = some (word, rest) := by
  have hskip : readWord (' ' :: (word ++ rest)) = readWord (word ++ rest) := by
    rw [readWord, readWord, skipBlanks_spread h, skipBlanks_word h]
  rw [hskip, readWord_word h hrest]

/-- A list is read back item by item, if each item is. -/
theorem readMany_spread {α β : Type*} {read : Text → Option (α × Text)} (write : β → Text)
    (value : β → α) (items : List β)
    (hread : ∀ item ∈ items, ∀ rest, AtBlank rest →
      read (' ' :: (write item ++ rest)) = some (value item, rest)) :
    readMany read items.length (spread (items.map write)) = some (items.map value, []) := by
  induction items with
  | nil => rfl
  | cons item items ih =>
      have hrest := ih fun item' hitem => hread item' (List.mem_cons_of_mem _ hitem)
      have hfirst := hread item List.mem_cons_self (spread (items.map write))
        (atBlank_spread _)
      simp only [List.length_cons, readMany, List.map_cons, spread, List.flatMap_cons,
        List.cons_append] at hfirst ⊢
      rw [hfirst]
      simp only [spread] at hrest
      simp [hrest]

section Lines

/-- A number in the range of `int32_t`, after blanks; extraction fails on another. -/
def readInt32 (t : Text) : Option (Int32 × Text) := do
  let (z, t) ← readNumber t
  if -2 ^ 31 ≤ z ∧ z < 2 ^ 31 then pure (Int32.ofInt z, t) else none

/-- A number of items, after blanks. -/
def readCount (t : Text) : Option (Nat × Text) := do
  let (z, t) ← readNumber t
  if 0 ≤ z then pure (z.toNat, t) else none

@[simp] theorem isWhitespace_space : ' '.isWhitespace = true := by decide

@[simp] theorem isWhitespace_newline : '\n'.isWhitespace = true := by decide

@[simp] theorem isDigit_space : ' '.isDigit = false := by decide

@[simp] theorem isDigit_newline : '\n'.isDigit = false := by decide

@[simp] theorem atBlank_cons {c : Char} {rest : Text} : AtBlank (c :: rest) ↔ c.isWhitespace = true := by
  simp [AtBlank]

@[simp] theorem noDigit_cons {c : Char} {rest : Text} : NoDigit (c :: rest) ↔ c.isDigit = false := by
  simp [NoDigit]

@[simp] theorem skipBlanks_blank {c : Char} (hblank : c.isWhitespace = true) (t : Text) :
    skipBlanks (c :: t) = skipBlanks t := by
  rw [skipBlanks, List.dropWhile_cons_of_pos hblank, ← skipBlanks]

/-- Blanks in front of what is read do not matter. -/
def SkipsBlanks {α : Type*} (read : Text → Option (α × Text)) : Prop :=
  ∀ c t, c.isWhitespace = true → read (c :: t) = read t

theorem skipsBlanks_readNumber : SkipsBlanks readNumber := by
  intro c t hblank
  rw [readNumber, skipBlanks_blank hblank, ← readNumber]

theorem skipsBlanks_readWord : SkipsBlanks readWord := by
  intro c t hblank
  rw [readWord, skipBlanks_blank hblank, ← readWord]

/-- A reader skips blanks if the first part of it does. -/
theorem SkipsBlanks.bind {α β : Type*} {read : Text → Option (α × Text)} (h : SkipsBlanks read)
    (next : α × Text → Option (β × Text)) : SkipsBlanks fun t => (read t).bind next := by
  intro c t hblank
  show (read (c :: t)).bind next = (read t).bind next
  rw [h c t hblank]

theorem skipsBlanks_readInt32 : SkipsBlanks readInt32 := skipsBlanks_readNumber.bind _

theorem skipsBlanks_readCount : SkipsBlanks readCount := skipsBlanks_readNumber.bind _

@[simp] theorem readWord_space (t : Text) : readWord (' ' :: t) = readWord t :=
  skipsBlanks_readWord _ _ isWhitespace_space

@[simp] theorem readInt32_space (t : Text) : readInt32 (' ' :: t) = readInt32 t :=
  skipsBlanks_readInt32 _ _ isWhitespace_space

@[simp] theorem readCount_space (t : Text) : readCount (' ' :: t) = readCount t :=
  skipsBlanks_readCount _ _ isWhitespace_space

theorem readInt32_ofInt {z : Int} (hrange : -2 ^ 31 ≤ z ∧ z < 2 ^ 31) {rest : Text}
    (hrest : NoDigit rest) : readInt32 (ofInt z ++ rest) = some (Int32.ofInt z, rest) := by
  rw [readInt32, readNumber_ofInt _ hrest]
  simp only [Option.bind_eq_bind, Option.bind_some, if_pos hrange, Option.pure_def]

@[simp] theorem readInt32_toInt (n : Int32) {rest : Text} (hrest : NoDigit rest) :
    readInt32 (ofInt n.toInt ++ rest) = some (n, rest) := by
  rw [readInt32_ofInt ⟨n.le_toInt, n.toInt_lt⟩ hrest, Int32.ofInt_toInt]

@[simp] theorem readCount_ofInt (n : Nat) {rest : Text} (hrest : NoDigit rest) :
    readCount (ofInt n ++ rest) = some (n, rest) := by
  rw [readCount, readNumber_ofInt _ hrest]
  simp

/-- Nothing but blanks. -/
def Blanks (t : Text) : Prop := ∀ c ∈ t, c.isWhitespace = true

@[simp] theorem blanks_nil : Blanks [] := by
  simp [Blanks]

@[simp] theorem blanks_cons {c : Char} {t : Text} :
    Blanks (c :: t) ↔ c.isWhitespace = true ∧ Blanks t := by
  simp [Blanks]

theorem Blanks.append {first second : Text} (h : Blanks first) (h' : Blanks second) :
    Blanks (first ++ second) := List.forall_mem_append.mpr ⟨h, h'⟩

theorem SkipsBlanks.blanks {α : Type*} {read : Text → Option (α × Text)} (h : SkipsBlanks read)
    {before : Text} (hbefore : Blanks before) (t : Text) : read (before ++ t) = read t := by
  induction before with
  | nil => rfl
  | cons c before ih =>
      obtain ⟨hc, hrest⟩ := blanks_cons.mp hbefore
      rw [List.cons_append, h _ _ hc, ih hrest]

/-- Items are read back one after the other, if each of them leaves only blanks
(such as `P` describes) in front of what follows. -/
theorem readMany_left {α : Type*} {read : Text → Option (α × Text)} {write : α → Text}
    (hskip : SkipsBlanks read) {P : Text → Prop} (hblank : ∀ left, P left → Blanks left)
    {items : List α} (hread : ∀ item ∈ items, ∀ rest, ∃ left, P left ∧
      read (write item ++ rest) = some (item, left ++ rest))
    {before : Text} (hbefore : P before) (rest : Text) :
    ∃ left, P left ∧ readMany read items.length (before ++ (items.flatMap write ++ rest)) =
      some (items, left ++ rest) := by
  induction items generalizing before with
  | nil => exact ⟨before, hbefore, rfl⟩
  | cons item items ih =>
      obtain ⟨next, hnext, hfirst⟩ := hread item List.mem_cons_self (items.flatMap write ++ rest)
      obtain ⟨left, hleft, hrest⟩ :=
        ih (fun item' hitem => hread item' (List.mem_cons_of_mem _ hitem)) hnext
      refine ⟨left, hleft, ?_⟩
      rw [List.length_cons, readMany, List.flatMap_cons, List.append_assoc,
        hskip.blanks (hblank before hbefore), hfirst]
      simp [hrest]

/-- Items that end their lines leave the end of the last line. -/
theorem readMany_lines {α : Type*} {read : Text → Option (α × Text)} {write : α → Text}
    (hskip : SkipsBlanks read) {items : List α}
    (hread : ∀ item ∈ items, ∀ rest, read (write item ++ rest) = some (item, '\n' :: rest))
    (rest : Text) :
    readMany read items.length ('\n' :: (items.flatMap write ++ rest)) =
      some (items, '\n' :: rest) := by
  have hblank : ∀ left, left = ['\n'] → Blanks left := by
    rintro left rfl
    simp
  obtain ⟨left, rfl, hmany⟩ := readMany_left hskip hblank
    (fun item hitem rest => ⟨_, rfl, hread item hitem rest⟩) rfl rest
  exact hmany

end Lines

/-- A text is cut at the first of its separators. -/
theorem append_sep_inj {α : Type*} [DecidableEq α] {sep : α} {item item' rest rest' : List α}
    (hitem : sep ∉ item) (hitem' : sep ∉ item')
    (h : item ++ sep :: rest = item' ++ sep :: rest') : item = item' ∧ rest = rest' := by
  have hcut (piece tail : List α) (hpiece : sep ∉ piece) :
      (piece ++ sep :: tail).takeWhile (fun c => decide (c ≠ sep)) = piece := by
    have hall : ∀ c ∈ piece, decide (c ≠ sep) = true := by
      intro c hc
      simpa using ne_of_mem_of_not_mem hc hpiece
    have hsep : ∀ c ∈ (sep :: tail).head?, decide (c ≠ sep) = false := by simp
    exact (cut hall hsep).1
  have heq : item = item' := by
    rw [← hcut item rest hitem, h, hcut item' rest' hitem']
  subst heq
  exact ⟨rfl, by simpa using h⟩

theorem notMem_ofInt {c : Char} (hdigit : c.isDigit = false) (hminus : c ≠ '-') (z : Int) :
    c ∉ ofInt z := by
  intro hmem
  rcases mem_ofInt hmem with rfl | hc
  · exact hminus rfl
  · rw [hdigit] at hc
    cases hc

end Text
