import RucDDBS.Library.Decimal
import RucDDBS.MetaServer.TableReplicas

/-!
The search by ranges. The bounds and the query are texts, and what they mean depends
on the type of the key: an integer, the number of a decimal text, or the text itself.
Of the first and the last the answer is exactly the partitions whose ranges meet the
query. Decimal texts are cut to integers, so the answer may have more of them; and
`stoi` throws where a number that it reads does not fit in an `int`.
-/

namespace RucDDBS

open Text

namespace MetaServer

section Keys

/-- An integer of the range of `int`. -/
def IntText (t : Text) (z : Int) : Prop :=
  ∃ d : Decimal, d.text = t ∧ d.fraction = none ∧ d.integer = z ∧ -2 ^ 31 ≤ z ∧ z < 2 ^ 31

def FloatText (t : Text) (q : ℚ) : Prop := ∃ d : Decimal, d.text = t ∧ d.value = q

/-- What is left of the number before the point fits in an `int`. -/
def Fits (q : ℚ) : Prop := -2 ^ 31 - 1 < q ∧ q < 2 ^ 31

theorem stoi_intText {t : Text} {z : Int} (h : IntText t z) : stoi t = .ok z := by
  obtain ⟨d, rfl, -, rfl, hrange⟩ := h
  rw [stoi, d.readNumber_text]
  exact if_pos hrange

theorem fits_iff (q : ℚ) : Fits q ↔ -2 ^ 31 ≤ towardZero q ∧ towardZero q < 2 ^ 31 := by
  have hlow := le_towardZero_iff (q := q) (a := -2 ^ 31) (by decide)
  have hhigh := towardZero_lt_iff (q := q) (b := 2 ^ 31) (by decide)
  rw [hlow, hhigh, Fits]
  push_cast
  rfl

theorem stoi_floatText {t : Text} {q : ℚ} (h : FloatText t q) (hfits : Fits q) :
    stoi t = .ok (towardZero q) := by
  obtain ⟨d, rfl, rfl⟩ := h
  rw [fits_iff, d.towardZero_value] at hfits
  rw [stoi, d.readNumber_text, d.towardZero_value]
  exact if_pos hfits

theorem fits_of_stoi {t : Text} {q : ℚ} {z : Int} (h : FloatText t q) (hstoi : stoi t = .ok z) :
    Fits q ∧ z = towardZero q := by
  obtain ⟨d, rfl, rfl⟩ := h
  rw [stoi, d.readNumber_text] at hstoi
  rw [fits_iff, d.towardZero_value]
  dsimp only at hstoi
  split at hstoi
  next hrange =>
    cases hstoi
    exact ⟨hrange, rfl⟩
  next => cases hstoi

end Keys

section Ranges

variable {α : Type} [LinearOrder α] (means : Text → α → Prop)

/-- The closed range of the partition has a point in common with the query. -/
def Intersects (minRange maxRange : Text) (par : ParMeta) : Prop :=
  ∃ min max lo hi, means par.minRange min ∧ means par.maxRange max ∧
    means minRange lo ∧ means maxRange hi ∧ ∃ x, min ≤ x ∧ x ≤ max ∧ lo ≤ x ∧ x ≤ hi

theorem exists_common_iff {min max lo hi : α} (hpar : min ≤ max) (hquery : lo ≤ hi) :
    (∃ x, min ≤ x ∧ x ≤ max ∧ lo ≤ x ∧ x ≤ hi) ↔ min ≤ hi ∧ lo ≤ max := by
  constructor
  · rintro ⟨x, hmin, hmax, hlo, hhi⟩
    exact ⟨hmin.trans hhi, hlo.trans hmax⟩
  · rintro ⟨hmin, hlo⟩
    -- the greater of the two lower bounds
    rcases le_total min lo with hle | hle
    · exact ⟨lo, hle, hlo, le_rfl, hquery⟩
    · exact ⟨min, le_rfl, hpar, hle, hmin⟩

/-- The bounds of the query and of every partition are keys, and in order. -/
structure Keyed (partitions : List ParMeta) (minRange maxRange : Text) : Prop where
  query : ∃ lo hi, means minRange lo ∧ means maxRange hi ∧ lo ≤ hi
  ranges : ∀ par ∈ partitions, ∃ min max, means par.minRange min ∧ means par.maxRange max ∧
    min ≤ max

/-- The answer has every partition that meets the query, and leaders only. -/
structure Covers (tms : TabMetaServer) (minRange maxRange : Text) (res : Replicas) : Prop where
  complete : ∀ par ∈ tms.partitions, Intersects means minRange maxRange par →
    ∃ rep, res.get par.pId.toInt = some rep
  leaders : ∀ id rep, res.get id = some rep →
    ∃ par ∈ tms.partitions, par.pId.toInt = id ∧ LeaderAt tms.tableLocation par.pId rep

/-- Every number in the answer is one of a partition that meets the query. -/
structure Exact (tms : TabMetaServer) (minRange maxRange : Text) (res : Replicas) : Prop
    extends Covers means tms minRange maxRange res where
  exact : ∀ id rep, res.get id = some rep →
    ∃ par ∈ tms.partitions, par.pId.toInt = id ∧ Intersects means minRange maxRange par

end Ranges

namespace TabMetaServer

variable {tms : TabMetaServer} {minRange maxRange : Text}

/-- The bounds are texts of the type of the key. -/
def KeyedByType (tms : TabMetaServer) (minRange maxRange : Text) : Prop :=
  match tms.partitionKeyType with
  | .typeInt => Keyed IntText tms.partitions minRange maxRange
  | .typeFloat => Keyed FloatText tms.partitions minRange maxRange
  | .typeString => Keyed Eq tms.partitions minRange maxRange

/-- What the search by ranges is for. -/
def Routed (tms : TabMetaServer) (minRange maxRange : Text) : Prop :=
  ∃ res, tms.getReplicaLocationListByRange minRange maxRange = .ok res ∧
    match tms.partitionKeyType with
    | .typeInt => Exact IntText tms minRange maxRange res
    | .typeFloat => Covers FloatText tms minRange maxRange res
    | .typeString => Exact Eq tms minRange maxRange res

/-- The numbers that are read for a partition fit: those that the first comparison
needs and, where it holds, those of the second. -/
def ReadFits (minRange maxRange : Text) (par : ParMeta) : Prop :=
  ∀ min max lo hi, FloatText par.minRange min → FloatText par.maxRange max →
    FloatText minRange lo → FloatText maxRange hi →
      Fits min ∧ Fits hi ∧ (towardZero min ≤ towardZero hi → Fits max ∧ Fits lo)

/-- Every number that a search reads of decimal texts fits in an `int`. -/
def NumbersFit (tms : TabMetaServer) (minRange maxRange : Text) : Prop :=
  tms.partitionKeyType = .typeFloat → ∀ par ∈ tms.partitions, ReadFits minRange maxRange par

section Search

variable {α : Type} [LinearOrder α] {means : Text → α → Prop}

/-- What the test of a partition comes to, where it does not throw. -/
def selected (tms : TabMetaServer) (minRange maxRange : Text) (par : ParMeta) : Bool :=
  match tms.rangeMeets minRange maxRange par with
  | .ok choice => choice
  | .error _ => false

theorem selected_of_ok {par : ParMeta} {choice : Bool}
    (h : tms.rangeMeets minRange maxRange par = .ok choice) :
    tms.selected minRange maxRange par = choice := by
  rw [selected, h]

/-- A search that chooses every partition that meets the query returns them all. -/
theorem covers_of_choices (hled : tms.Led)
    (hchoice : ∀ par ∈ tms.partitions, ∃ choice,
      tms.rangeMeets minRange maxRange par = .ok choice ∧
        (Intersects means minRange maxRange par → choice = true)) :
    ∃ res, tms.getReplicaLocationListByRange minRange maxRange = .ok res ∧
      Covers means tms minRange maxRange res ∧
      ∀ id rep, res.get id = some rep → ∃ par ∈ tms.partitions,
        par.pId.toInt = id ∧ tms.rangeMeets minRange maxRange par = .ok true := by
  have hselected : ∀ par ∈ tms.partitions, tms.rangeMeets minRange maxRange par =
      .ok (tms.selected minRange maxRange par) := by
    intro par hpar
    obtain ⟨choice, hmeets, -⟩ := hchoice par hpar
    rw [selected_of_ok hmeets, hmeets]
  obtain ⟨res, hrun, hget⟩ := replicasOf_ok hled hselected
  refine ⟨res, hrun, ⟨?_, ?_⟩, ?_⟩
  · intro par hpar hintersects
    obtain ⟨choice, hmeets, hall⟩ := hchoice par hpar
    obtain ⟨leader, hleader⟩ := hled par hpar
    obtain ⟨rep, hrep⟩ := hleader.exists_get
    have hsel : tms.selected minRange maxRange par = true := by
      rw [selected_of_ok hmeets, hall hintersects]
    exact ⟨rep, (hget _ _).mpr ⟨par, hpar, hsel, rfl, hrep⟩⟩
  · intro id rep hrep
    obtain ⟨par, hpar, -, hid, hleader⟩ := (hget id rep).mp hrep
    exact ⟨par, hpar, hid, leaderAt_of_get hleader⟩
  · intro id rep hrep
    obtain ⟨par, hpar, hsel, hid, -⟩ := (hget id rep).mp hrep
    exact ⟨par, hpar, hid, by rw [hselected par hpar, hsel]⟩

/-- A search whose test compares the keys themselves is exact. -/
theorem exact_of_comparisons (hled : tms.Led) (hkeyed : Keyed means tms.partitions minRange maxRange)
    (hmeets : ∀ par min max lo hi, means par.minRange min → means par.maxRange max →
      means minRange lo → means maxRange hi →
        tms.rangeMeets minRange maxRange par = .ok (decide (min ≤ hi ∧ lo ≤ max))) :
    ∃ res, tms.getReplicaLocationListByRange minRange maxRange = .ok res ∧
      Exact means tms minRange maxRange res := by
  obtain ⟨lo, hi, hlo, hhi, hquery⟩ := hkeyed.query
  have hchoice : ∀ par ∈ tms.partitions, ∃ choice,
      tms.rangeMeets minRange maxRange par = .ok choice ∧
        (Intersects means minRange maxRange par → choice = true) := by
    intro par hpar
    obtain ⟨min, max, hmin, hmax, -⟩ := hkeyed.ranges par hpar
    have htest := hmeets par min max lo hi hmin hmax hlo hhi
    refine ⟨_, htest, ?_⟩
    rintro ⟨min', max', lo', hi', hmin', hmax', hlo', hhi', x, hx⟩
    have hsame := hmeets par min' max' lo' hi' hmin' hmax' hlo' hhi'
    rw [htest, Except.ok.injEq] at hsame
    rw [hsame, decide_eq_true_eq]
    exact ⟨hx.1.trans hx.2.2.2, hx.2.2.1.trans hx.2.1⟩
  obtain ⟨res, hrun, hcovers, htrue⟩ := covers_of_choices hled hchoice
  refine ⟨res, hrun, hcovers, ?_⟩
  intro id rep hrep
  obtain ⟨par, hpar, hid, htest⟩ := htrue id rep hrep
  obtain ⟨min, max, hmin, hmax, hordered⟩ := hkeyed.ranges par hpar
  rw [hmeets par min max lo hi hmin hmax hlo hhi, Except.ok.injEq, decide_eq_true_eq] at htest
  exact ⟨par, hpar, hid, min, max, lo, hi, hmin, hmax, hlo, hhi,
    (exists_common_iff hordered hquery).mpr htest⟩

end Search

section Types

variable {par : ParMeta} {min max lo hi : Int} {low high least most : ℚ}

theorem rangeMeets_number (htype : tms.partitionKeyType ≠ .typeString) :
    tms.rangeMeets minRange maxRange par = (do
      let low ← stoi par.minRange
      let max ← stoi maxRange
      if low ≤ max then
        let high ← stoi par.maxRange
        let min ← stoi minRange
        pure (decide (min ≤ high))
      else pure false) := by
  cases hkey : tms.partitionKeyType with
  | typeInt => rw [rangeMeets, hkey]
  | typeFloat => rw [rangeMeets, hkey]
  | typeString => exact absurd hkey htype

/-- The test with the numbers that `stoi` reads. -/
theorem rangeMeets_stoi (htype : tms.partitionKeyType ≠ .typeString)
    (hmin : stoi par.minRange = .ok min) (hhi : stoi maxRange = .ok hi)
    (hmax : min ≤ hi → stoi par.maxRange = .ok max) (hlo : min ≤ hi → stoi minRange = .ok lo) :
    tms.rangeMeets minRange maxRange par = .ok (decide (min ≤ hi ∧ lo ≤ max)) := by
  rw [rangeMeets_number htype, hmin, hhi]
  show (if min ≤ hi then _ else _) = _
  split
  next hle =>
    rw [hmax hle, hlo hle]
    simp only [hle, true_and]
    rfl
  next hgt =>
    simp only [hgt, false_and, decide_false]
    rfl

theorem rangeMeets_int (htype : tms.partitionKeyType = .typeInt) (hmin : IntText par.minRange min)
    (hmax : IntText par.maxRange max) (hlo : IntText minRange lo) (hhi : IntText maxRange hi) :
    tms.rangeMeets minRange maxRange par = .ok (decide (min ≤ hi ∧ lo ≤ max)) :=
  rangeMeets_stoi (by rw [htype]; decide) (stoi_intText hmin) (stoi_intText hhi)
    (fun _ => stoi_intText hmax) (fun _ => stoi_intText hlo)

theorem rangeMeets_string (htype : tms.partitionKeyType = .typeString) (par : ParMeta) :
    tms.rangeMeets minRange maxRange par =
      .ok (decide (par.minRange ≤ maxRange ∧ minRange ≤ par.maxRange)) := by
  rw [rangeMeets, htype]
  rfl

/-- Decimal texts are tested by what stands before their points. -/
theorem rangeMeets_float (htype : tms.partitionKeyType = .typeFloat)
    (hmin : FloatText par.minRange least) (hmax : FloatText par.maxRange most)
    (hlo : FloatText minRange low) (hhi : FloatText maxRange high)
    (hfits : ReadFits minRange maxRange par) :
    tms.rangeMeets minRange maxRange par =
      .ok (decide (towardZero least ≤ towardZero high ∧ towardZero low ≤ towardZero most)) := by
  obtain ⟨hleast, hhigh, hrest⟩ := hfits least most low high hmin hmax hlo hhi
  exact rangeMeets_stoi (by rw [htype]; decide) (stoi_floatText hmin hleast)
    (stoi_floatText hhi hhigh) (fun hle => stoi_floatText hmax (hrest hle).1)
    fun hle => stoi_floatText hlo (hrest hle).2

/-- A test that does not throw has read the numbers it needs. -/
theorem stoi_of_rangeMeets (htype : tms.partitionKeyType ≠ .typeString) {choice : Bool}
    (h : tms.rangeMeets minRange maxRange par = .ok choice) :
    ∃ min hi, stoi par.minRange = .ok min ∧ stoi maxRange = .ok hi ∧
      (min ≤ hi → ∃ max lo, stoi par.maxRange = .ok max ∧ stoi minRange = .ok lo) := by
  rw [rangeMeets_number htype] at h
  cases hmin : stoi par.minRange with
  | error e =>
      rw [hmin] at h
      cases h
  | ok min =>
      cases hhi : stoi maxRange with
      | error e =>
          rw [hmin, hhi] at h
          cases h
      | ok hi =>
          refine ⟨min, hi, rfl, rfl, ?_⟩
          intro hle
          rw [hmin, hhi] at h
          simp only [bind, Except.bind, if_pos hle] at h
          cases hmax : stoi par.maxRange with
          | error e =>
              rw [hmax] at h
              cases h
          | ok max =>
              cases hlo : stoi minRange with
              | error e =>
                  rw [hmax, hlo] at h
                  cases h
              | ok lo => exact ⟨max, lo, rfl, rfl⟩

theorem readFits_of_rangeMeets (htype : tms.partitionKeyType = .typeFloat) {choice : Bool}
    (h : tms.rangeMeets minRange maxRange par = .ok choice) : ReadFits minRange maxRange par := by
  obtain ⟨min, hi, hmin, hhi, hrest⟩ := stoi_of_rangeMeets (by rw [htype]; decide) h
  intro least most low high hleast hmost hlow hhigh
  obtain ⟨hfitsMin, rfl⟩ := fits_of_stoi hleast hmin
  obtain ⟨hfitsHi, rfl⟩ := fits_of_stoi hhigh hhi
  refine ⟨hfitsMin, hfitsHi, ?_⟩
  intro hle
  obtain ⟨max, lo, hmax, hlo⟩ := hrest hle
  exact ⟨(fits_of_stoi hmost hmax).1, (fits_of_stoi hlow hlo).1⟩

end Types

/-- Where every partition has a leader and all bounds are keys in order, the search
does what it is for exactly if it reads no number that is too large for `stoi`. -/
theorem range_search_iff (hled : tms.Led) (hkeyed : tms.KeyedByType minRange maxRange) :
    tms.Routed minRange maxRange ↔ tms.NumbersFit minRange maxRange := by
  unfold KeyedByType at hkeyed
  unfold Routed NumbersFit
  cases htype : tms.partitionKeyType with
  | typeInt =>
      rw [htype] at hkeyed
      refine iff_of_true ?_ nofun
      exact exact_of_comparisons hled hkeyed fun _ _ _ _ _ => rangeMeets_int htype
  | typeString =>
      rw [htype] at hkeyed
      refine iff_of_true ?_ nofun
      apply exact_of_comparisons hled hkeyed
      rintro par _ _ _ _ rfl rfl rfl rfl
      exact rangeMeets_string htype par
  | typeFloat =>
      rw [htype] at hkeyed
      dsimp only
      constructor
      · rintro ⟨res, hrun, -⟩ - par hpar
        obtain ⟨choice, hmeets⟩ := choices_of_replicasOf hrun par hpar
        exact readFits_of_rangeMeets htype hmeets
      · intro hfits
        have hchoice : ∀ par ∈ tms.partitions, ∃ choice,
            tms.rangeMeets minRange maxRange par = .ok choice ∧
              (Intersects FloatText minRange maxRange par → choice = true) := by
          intro par hpar
          have hpart := hfits rfl par hpar
          obtain ⟨lo, hi, hlo, hhi, -⟩ := hkeyed.query
          obtain ⟨min, max, hmin, hmax, -⟩ := hkeyed.ranges par hpar
          have htest := rangeMeets_float htype hmin hmax hlo hhi hpart
          refine ⟨_, htest, ?_⟩
          rintro ⟨min', max', lo', hi', hmin', hmax', hlo', hhi', x, hx⟩
          have hsame := rangeMeets_float htype hmin' hmax' hlo' hhi' hpart
          rw [htest, Except.ok.injEq] at hsame
          rw [hsame, decide_eq_true_eq]
          exact ⟨towardZero_mono (hx.1.trans hx.2.2.2), towardZero_mono (hx.2.2.1.trans hx.2.1)⟩
        obtain ⟨res, hrun, hcovers, -⟩ := covers_of_choices hled hchoice
        exact ⟨res, hrun, hcovers⟩

/-- Two ranges of a decimal key, the second of them beyond the range of `int`. -/
def wideTable : TabMetaServer :=
  { TabMetaServer.new with
    partitionType := .rangePartition
    partitionKeyType := .typeFloat
    partitionCnt := 2
    partitions := [⟨['p', '0'], 0, ['0'], ['1', '0']⟩,
      ⟨['p', '1'], 1, ['1', '0'], "3000000000.5".toList⟩]
    tableLocation := ⟨0, .notDuplicate, [⟨0, 0, 1, [⟨['a'], 1, .leader⟩]⟩,
      ⟨0, 1, 1, [⟨['b'], 2, .leader⟩]⟩]⟩ }

theorem wideTable_led : wideTable.Led := by
  have hfirst : wideTable.tableLocation.getReplicaLocation 0 = some ⟨['a'], 1, .leader⟩ := rfl
  have hsecond : wideTable.tableLocation.getReplicaLocation 1 = some ⟨['b'], 2, .leader⟩ := rfl
  intro par hpar
  rcases List.mem_cons.mp hpar with rfl | hpar
  · exact ⟨_, leaderAt_of_get hfirst⟩
  · obtain rfl := List.mem_singleton.mp hpar
    exact ⟨_, leaderAt_of_get hsecond⟩

/-- Digits are a decimal text. -/
theorem floatText_digits {t : Text} (hne : t ≠ []) (h : t.all Char.isDigit = true) :
    FloatText t (number t) := by
  refine ⟨⟨.none, t, none, hne, List.all_eq_true.mp h, nofun⟩, ?_, ?_⟩
  · simp [Decimal.text, Decimal.tail, Sign.text]
  · simp [Decimal.value, Decimal.part, Sign.factor]

theorem floatText_wide : FloatText "3000000000.5".toList (3000000000 + 1 / 2) := by
  have hdigits : Digits "3000000000".toList := List.all_eq_true.mp (by decide)
  refine ⟨⟨.none, "3000000000".toList, some ['5'], by decide, hdigits, ?_⟩, rfl, ?_⟩
  · rintro t ⟨⟩ c hc
    obtain rfl := List.mem_singleton.mp hc
    decide
  · have hwhole : number "3000000000".toList = 3000000000 := by decide
    have hpart : number ['5'] = 5 := by decide
    simp only [Decimal.value, Decimal.part, Sign.factor, hwhole, hpart, Option.map_some,
      Option.getD_some]
    norm_num

theorem wideTable_keyed {minRange maxRange : Text} (hmin : minRange ≠ [])
    (hminDigits : minRange.all Char.isDigit = true) (hmax : maxRange ≠ [])
    (hmaxDigits : maxRange.all Char.isDigit = true) (h : number minRange ≤ number maxRange) :
    wideTable.KeyedByType minRange maxRange := by
  have hzero : FloatText ['0'] (number ['0']) := floatText_digits (by decide) (by decide)
  have hten : FloatText ['1', '0'] (number ['1', '0']) := floatText_digits (by decide) (by decide)
  have hzeroNumber : number ['0'] = 0 := by decide
  have htenNumber : number ['1', '0'] = 10 := by decide
  constructor
  · exact ⟨_, _, floatText_digits hmin hminDigits, floatText_digits hmax hmaxDigits,
      by exact_mod_cast h⟩
  · intro par hpar
    rcases List.mem_cons.mp hpar with rfl | hpar
    · refine ⟨_, _, hzero, hten, ?_⟩
      rw [hzeroNumber, htenNumber]
      norm_num
    · obtain rfl := List.mem_singleton.mp hpar
      refine ⟨_, _, hten, floatText_wide, ?_⟩
      rw [htenNumber]
      norm_num

/-- A query below the second range is answered, since its upper bound is not read. -/
theorem wideTable_routed : wideTable.Routed ['1'] ['2'] := by
  have hkeyed : wideTable.KeyedByType ['1'] ['2'] :=
    wideTable_keyed (by decide) (by decide) (by decide) (by decide) (by decide)
  apply (range_search_iff wideTable_led hkeyed).mpr
  intro _ par hpar
  rcases List.mem_cons.mp hpar with rfl | hpar
  · have htest : wideTable.rangeMeets ['1'] ['2'] ⟨['p', '0'], 0, ['0'], ['1', '0']⟩ = .ok true := by
      decide +kernel
    exact readFits_of_rangeMeets rfl htest
  · obtain rfl := List.mem_singleton.mp hpar
    have htest : wideTable.rangeMeets ['1'] ['2']
        ⟨['p', '1'], 1, ['1', '0'], "3000000000.5".toList⟩ = .ok false := by decide +kernel
    exact readFits_of_rangeMeets rfl htest

/-- A query that meets the second range throws. -/
theorem wideTable_throws :
    wideTable.Led ∧ wideTable.KeyedByType ['1'] ['1', '2'] ∧
      wideTable.getReplicaLocationListByRange ['1'] ['1', '2'] = .error .outOfRange ∧
      ¬ wideTable.Routed ['1'] ['1', '2'] := by
  have hkeyed : wideTable.KeyedByType ['1'] ['1', '2'] :=
    wideTable_keyed (by decide) (by decide) (by decide) (by decide) (by decide)
  have hthrow : wideTable.getReplicaLocationListByRange ['1'] ['1', '2'] = .error .outOfRange := by
    decide +kernel
  refine ⟨wideTable_led, hkeyed, hthrow, ?_⟩
  rintro ⟨res, hrun, -⟩
  rw [hthrow] at hrun
  cases hrun

end TabMetaServer

end MetaServer

end RucDDBS
