import Mathlib
import RucDDBS.Parser.Lexer

/-!
What the scanner does at each kind of text: at the words, the numbers, the strings and the
operators, and at what may stand between them. Every case begins with the patterns that can
match at its first character, and finds the one that wins.
-/

namespace RucDDBS

namespace Sql

open Scanning

section Starts

/-- A match of the pattern may begin with `c`. -/
def Pattern.starts (c : Char) : Pattern → Bool
  | .blockComment => c == '/'
  | .commentEnd => c == '*'
  | .commentText => true
  | .commentStar => c == '*'
  | .lineComment => c == '-'
  | .whiteSpace => isBlank c
  | .newLine => c == '\r' || c == '\n'
  | .keyword _ _ => c.isAlpha
  | .op text _ => text.head? == some c
  | .identifier => c.isAlpha
  | .valueInt => c == '+' || c == '-' || c.isDigit
  | .valueFloat => c == '+' || c == '-' || c.isDigit
  | .valueString => c == '\''
  | .unexpected => c != '\n'

theorem keywords_all : keywords.all (fun k => !k.1.isEmpty && k.1.all Char.isAlpha) = true := by
  decide +kernel

theorem keywords_alpha {k : Text × Grammar.Token Val} (hk : k ∈ keywords) :
    k.1 ≠ [] ∧ ∀ c ∈ k.1, c.isAlpha = true := by
  have hboth := List.all_eq_true.mp keywords_all k hk
  rw [Bool.and_eq_true, Bool.not_eq_true', List.isEmpty_eq_false_iff] at hboth
  exact ⟨hboth.1, List.all_eq_true.mp hboth.2⟩

theorem ops_all :
    ops.all (fun k => k.1.head?.any fun c => !c.isAlpha && !c.isDigit) = true := by
  decide +kernel

theorem ops_heads {k : Text × Grammar.Token Val} (hk : k ∈ ops) :
    ∃ c, k.1.head? = some c ∧ c.isAlpha = false ∧ c.isDigit = false := by
  obtain ⟨c, hhead, hc⟩ := (Option.any_eq_true _ _).mp (List.all_eq_true.mp ops_all k hk)
  rw [Bool.and_eq_true, Bool.not_eq_true', Bool.not_eq_true'] at hc
  exact ⟨c, hhead, hc⟩

theorem mem_keywords {text : Text} {tok : Grammar.Token Val}
    (h : .keyword text tok ∈ patterns .INITIAL) : (text, tok) ∈ keywords := by
  simpa [patterns] using h

theorem mem_ops {text : Text} {tok : Grammar.Token Val}
    (h : .op text tok ∈ patterns .INITIAL) : (text, tok) ∈ ops := by
  simpa [patterns] using h

theorem literal_eq_zero {a c : Char} (text t : Text) (h : a ≠ c) :
    literal (a :: text) (c :: t) = 0 := by
  rw [literal, if_neg]
  rw [List.isPrefixOf_cons_cons, Bool.and_eq_true, beq_iff_eq]
  exact fun hprefix => h hprefix.1

theorem sign_eq_zero {c : Char} (t : Text) (hplus : c ≠ '+') (hminus : c ≠ '-') :
    sign (c :: t) = 0 := by
  unfold sign
  split
  next heq => exact absurd (List.cons.inj heq).1 hplus
  next heq => exact absurd (List.cons.inj heq).1 hminus
  next => rfl

theorem valueInt_eq_zero {c : Char} (t : Text) (hplus : c ≠ '+') (hminus : c ≠ '-')
    (hdigit : c.isDigit = false) : valueInt (c :: t) = 0 := by
  have hnone : digits (c :: t) = 0 := by
    rw [digits, List.takeWhile_cons_of_neg (by rw [hdigit]; exact Bool.false_ne_true)]
    rfl
  rw [valueInt, sign_eq_zero t hplus hminus, List.drop_zero, if_pos hnone]

theorem valueFloat_eq_zero {t : Text} (h : valueInt t = 0) : valueFloat t = 0 := by
  rw [valueFloat]
  split
  next => rw [if_pos h]
  next => rfl

theorem length_eq_zero {p : Pattern} {c : Char} (t : Text) (hmem : p ∈ patterns .INITIAL)
    (h : p.starts c = false) : p.length (c :: t) = 0 := by
  cases p with
  | blockComment => exact literal_eq_zero _ t (Ne.symm (beq_eq_false_iff_ne.mp h))
  | commentEnd => exact literal_eq_zero _ t (Ne.symm (beq_eq_false_iff_ne.mp h))
  | commentText => cases h
  | commentStar => exact literal_eq_zero _ t (Ne.symm (beq_eq_false_iff_ne.mp h))
  | lineComment =>
      have hne := Ne.symm (beq_eq_false_iff_ne.mp h)
      rw [Pattern.length, if_neg]
      change ¬ (List.isPrefixOf ['-', '-'] (c :: t) = true)
      rw [List.isPrefixOf_cons_cons, Bool.and_eq_true, beq_iff_eq]
      exact fun hprefix => hne hprefix.1
  | whiteSpace =>
      have hblank : isBlank c = false := h
      rw [Pattern.length, List.takeWhile_cons_of_neg (by rw [hblank]; exact Bool.false_ne_true)]
      rfl
  | newLine =>
      have hne := Bool.or_eq_false_iff.mp h
      rw [Pattern.length]
      unfold newLine
      split
      next heq => exact absurd (List.cons.inj heq).1 (beq_eq_false_iff_ne.mp hne.1)
      next heq => exact absurd (List.cons.inj heq).1 (beq_eq_false_iff_ne.mp hne.1)
      next heq => exact absurd (List.cons.inj heq).1 (beq_eq_false_iff_ne.mp hne.2)
      next => rfl
  | keyword text tok =>
      obtain ⟨hne, halpha⟩ := keywords_alpha (mem_keywords hmem)
      cases text with
      | nil => exact absurd rfl hne
      | cons a text =>
          rw [Pattern.length, List.map_cons]
          apply literal_eq_zero
          rintro rfl
          have hletter := halpha c.toUpper List.mem_cons_self
          have hc : c.isAlpha = false := h
          rw [Char.isAlpha_toUpper_eq_isAlpha, hc] at hletter
          cases hletter
  | op text tok =>
      obtain ⟨a, hhead, _⟩ := ops_heads (mem_ops hmem)
      have hne : (text.head? == some c) = false := h
      cases text with
      | nil => cases hhead
      | cons a text =>
          apply literal_eq_zero
          rintro rfl
          rw [List.head?_cons, beq_self_eq_true] at hne
          cases hne
  | identifier =>
      have halpha : c.isAlpha = false := h
      rw [Pattern.length, identifier, halpha]
      rfl
  | valueInt =>
      obtain ⟨hsign, hdigit⟩ := Bool.or_eq_false_iff.mp h
      obtain ⟨hplus, hminus⟩ := Bool.or_eq_false_iff.mp hsign
      exact valueInt_eq_zero t (beq_eq_false_iff_ne.mp hplus) (beq_eq_false_iff_ne.mp hminus) hdigit
  | valueFloat =>
      obtain ⟨hsign, hdigit⟩ := Bool.or_eq_false_iff.mp h
      obtain ⟨hplus, hminus⟩ := Bool.or_eq_false_iff.mp hsign
      exact valueFloat_eq_zero (valueInt_eq_zero t (beq_eq_false_iff_ne.mp hplus)
        (beq_eq_false_iff_ne.mp hminus) hdigit)
  | valueString =>
      rw [Pattern.length]
      unfold valueString
      split
      next heq => exact absurd (List.cons.inj heq).1 (beq_eq_false_iff_ne.mp h)
      next => rfl
  | unexpected =>
      have hnl : (c != '\n') = false := h
      rw [Pattern.length, List.head?_cons, Option.any_some, hnl]
      rfl

/-- The patterns with a match at the character. -/
def candidates (c : Char) : List Pattern := (patterns .INITIAL).filter (Pattern.starts c)

theorem match_cons {atof : Text → UInt32} (c : Char) (t : Text) :
    (scanner atof).match? ⟨.INITIAL, c :: t⟩ =
      longest (fun p => p.length (c :: t)) (candidates c) :=
  (longest_filter fun _ hmem h => length_eq_zero t hmem h).symm

/-- A test tells two characters apart. -/
theorem ne_of_test {test : Char → Bool} {c a : Char} (h : test c = true) (ha : test a = false) :
    c ≠ a := by
  rintro rfl
  rw [h] at ha
  cases ha

theorem isAlpha_of_isDigit {c : Char} (h : c.isDigit = true) : c.isAlpha = false := by
  have hrange := Char.isDigit_iff_toNat.mp h
  by_contra halpha
  rw [Bool.not_eq_false, Char.isAlpha, Char.isUpper, Char.isLower] at halpha
  simp only [Bool.or_eq_true, decide_eq_true_eq, UInt32.le_iff_toNat_le, ge_iff_le,
    Bool.and_eq_true] at halpha
  simp at hrange halpha
  omega

/-- No operator starts with a character that passes a test that no operator's head does. -/
theorem filter_ops {test : Char → Bool} {c : Char} (h : test c = true)
    (hops : ∀ k ∈ ops, ∃ a, k.1.head? = some a ∧ test a = false) :
    (ops.map fun k => Pattern.op k.1 k.2).filter (Pattern.starts c) = [] := by
  rw [List.filter_eq_nil_iff]
  intro p hp
  obtain ⟨k, hk, rfl⟩ := List.mem_map.mp hp
  obtain ⟨a, hhead, ha⟩ := hops k hk
  simp only [Pattern.starts, hhead, beq_iff_eq, Option.some.injEq]
  exact Ne.symm (ne_of_test h ha)

theorem filter_keywords (c : Char) :
    (keywords.map fun k => Pattern.keyword k.1 k.2).filter (Pattern.starts c) =
      if c.isAlpha = true then keywords.map fun k => Pattern.keyword k.1 k.2 else [] := by
  split
  case isTrue h =>
    rw [List.filter_eq_self]
    intro p hp
    obtain ⟨k, hk, rfl⟩ := List.mem_map.mp hp
    exact h
  case isFalse h =>
    rw [List.filter_eq_nil_iff]
    intro p hp
    obtain ⟨k, hk, rfl⟩ := List.mem_map.mp hp
    exact h

theorem candidates_alpha {c : Char} (h : c.isAlpha = true) :
    candidates c = keywords.map (fun k => .keyword k.1 k.2) ++ [.identifier, .unexpected] := by
  have hdigit : c.isDigit = false := by
    cases hdigit : c.isDigit with
    | true =>
        rw [isAlpha_of_isDigit hdigit] at h
        cases h
    | false => rfl
  have hops := filter_ops h fun k hk => by
    obtain ⟨a, hhead, halpha, _⟩ := ops_heads hk
    exact ⟨a, hhead, halpha⟩
  have hother {a : Char} (ha : a.isAlpha = false) : (c == a) = false :=
    beq_eq_false_iff_ne.mpr (ne_of_test h ha)
  have hnewline : c ≠ '\n' := ne_of_test h rfl
  rw [candidates, patterns, List.filter_append, List.filter_append, List.filter_append, hops,
    filter_keywords, if_pos h]
  simp [Pattern.starts, isBlank, hother, h, hdigit, hnewline]

theorem candidates_digit {c : Char} (h : c.isDigit = true) :
    candidates c = [.valueInt, .valueFloat, .unexpected] := by
  have halpha := isAlpha_of_isDigit h
  have hops := filter_ops h fun k hk => by
    obtain ⟨a, hhead, _, hdigit⟩ := ops_heads hk
    exact ⟨a, hhead, hdigit⟩
  have hother {a : Char} (ha : a.isDigit = false) : (c == a) = false :=
    beq_eq_false_iff_ne.mpr (ne_of_test h ha)
  have hnewline : c ≠ '\n' := ne_of_test h rfl
  rw [candidates, patterns, List.filter_append, List.filter_append, List.filter_append, hops,
    filter_keywords, if_neg (by simp [halpha])]
  simp [Pattern.starts, isBlank, hother, h, halpha, hnewline]

end Starts

section Words

variable {atof : Text → UInt32} {s rest : Text}

/-- A letter with letters, digits and underscores behind it. -/
def IsWord (s : Text) : Prop :=
  ∃ c t, s = c :: t ∧ c.isAlpha = true ∧ ∀ d ∈ t, isIdentifierChar d = true

/-- The text does not go on with a character that a word may have. -/
def EndsWord (rest : Text) : Prop := ∀ c ∈ rest.head?, isIdentifierChar c = false

theorem identifier_append (hs : IsWord s) (hrest : EndsWord rest) :
    identifier (s ++ rest) = s.length := by
  obtain ⟨c, t, rfl, hc, ht⟩ := hs
  rw [List.cons_append, identifier, if_pos hc, (Text.cut ht hrest).1, List.length_cons]

/-- A keyword matches no more than the whole word, and that only if it is the word. -/
theorem keyword_le {k : Text × Grammar.Token Val} (hk : k ∈ keywords) (hne : s ≠ [])
    (hrest : EndsWord rest) :
    literal k.1 ((s ++ rest).map Char.toUpper) ≤ s.length ∧
      (literal k.1 ((s ++ rest).map Char.toUpper) = s.length → s.map Char.toUpper = k.1) := by
  have hlength := List.length_pos_iff.mpr hne
  rw [literal]
  split
  next hprefix =>
    rw [List.isPrefixOf_iff_prefix, List.map_append] at hprefix
    have hle : k.1.length ≤ s.length := by
      by_contra hlt
      have hshort : s.map Char.toUpper <+: k.1 :=
        List.prefix_of_prefix_length_le (List.prefix_append _ _) hprefix
          (by rw [List.length_map]; omega)
      obtain ⟨u, hu⟩ := hshort
      rw [← hu, List.prefix_append_right_inj] at hprefix
      cases u with
      | nil =>
          rw [← hu, List.append_nil, List.length_map] at hlt
          omega
      | cons a u =>
          cases rest with
          | nil => cases List.eq_nil_of_prefix_nil hprefix
          | cons c rest =>
              have hac : a = c.toUpper := (List.cons_prefix_cons.mp hprefix).1
              have halpha := (keywords_alpha hk).2 a (hu ▸ List.mem_append_right _ List.mem_cons_self)
              have hc := hrest c rfl
              rw [hac, Char.isAlpha_toUpper_eq_isAlpha] at halpha
              rw [isIdentifierChar, halpha, Bool.or_true, Bool.true_or] at hc
              cases hc
    refine ⟨hle, fun heq => ?_⟩
    have hwhole : k.1 <+: s.map Char.toUpper :=
      List.prefix_of_prefix_length_le hprefix (List.prefix_append _ _)
        (by rw [List.length_map]; exact hle)
    exact (hwhole.eq_of_length (by rw [List.length_map]; exact heq)).symm
  next => exact ⟨Nat.zero_le _, fun heq => absurd heq (by omega)⟩

theorem unexpected_le (t : Text) : Pattern.unexpected.length t ≤ 1 := by
  rw [Pattern.length]
  split
  next => exact Nat.le_refl 1
  next => exact Nat.zero_le 1

theorem yylex_token {p : Pattern} {tok : Grammar.Token Val} (hne : s ≠ [])
    (hmatch : (scanner atof).match? ⟨.INITIAL, s ++ rest⟩ = some (p, s.length))
    (hact : p.act atof s = .token tok) :
    yylex atof ⟨.INITIAL, s ++ rest⟩ = (tok, ⟨.INITIAL, rest⟩) := by
  have htake : p.act atof ((s ++ rest).take s.length) = .token tok := by
    rw [List.take_left]
    exact hact
  have hnext := next_token (S := scanner atof) (List.append_ne_nil_of_left_ne_nil hne rest) hmatch
    htake
  rw [yylex, hnext, List.drop_left]

theorem keywords_nodup : (keywords.map Prod.fst).Nodup := by
  decide +kernel

theorem IsWord.ne_nil (hs : IsWord s) : s ≠ [] := by
  obtain ⟨c, t, rfl, _⟩ := hs
  exact List.cons_ne_nil c t

/-- At a word only the keywords, the identifiers and the unexpected characters match. -/
theorem match_word (hs : IsWord s) :
    (scanner atof).match? ⟨.INITIAL, s ++ rest⟩ = longest (fun p => p.length (s ++ rest))
      (keywords.map (fun k => .keyword k.1 k.2) ++ [.identifier, .unexpected]) := by
  obtain ⟨c, t, rfl, hc, _⟩ := hs
  rw [← candidates_alpha hc]
  exact match_cons c (t ++ rest)

theorem match_keyword {k : Text × Grammar.Token Val} (hk : k ∈ keywords) (hs : IsWord s)
    (hspell : s.map Char.toUpper = k.1) (hrest : EndsWord rest) :
    (scanner atof).match? ⟨.INITIAL, s ++ rest⟩ = some (.keyword k.1 k.2, s.length) := by
  have hlen : (Pattern.keyword k.1 k.2).length (s ++ rest) = s.length := by
    rw [Pattern.length, literal, if_pos]
    · rw [← hspell, List.length_map]
    · rw [List.isPrefixOf_iff_prefix, List.map_append, hspell]
      exact List.prefix_append _ _
  have hpos := List.length_pos_iff.mpr hs.ne_nil
  have hnodup := keywords_nodup
  obtain ⟨pre, post, hsplit⟩ := List.append_of_mem hk
  rw [match_word hs, hsplit, List.map_append, List.map_cons, List.append_assoc, List.cons_append]
  rw [hsplit, List.map_append, List.map_cons] at hnodup
  refine longest_append ?_ hpos ?_ ?_
  · exact hlen
  · intro q hq
    obtain ⟨k', hk', rfl⟩ := List.mem_map.mp hq
    have hmem : k' ∈ keywords := hsplit ▸ List.mem_append_left _ hk'
    obtain ⟨hle, heq⟩ := keyword_le hmem hs.ne_nil hrest
    apply Nat.lt_of_le_of_ne hle
    intro hsame
    rw [hspell] at heq
    have hdistinct := (List.nodup_append.mp hnodup).2.2
    exact hdistinct _ (List.mem_map_of_mem hk') _ List.mem_cons_self (heq hsame).symm
  · intro q hq
    rcases List.mem_append.mp hq with hq | hq
    · obtain ⟨k', hk', rfl⟩ := List.mem_map.mp hq
      have hmem : k' ∈ keywords := hsplit ▸ List.mem_append_right _ (List.mem_cons_of_mem k hk')
      exact (keyword_le hmem hs.ne_nil hrest).1
    · rcases List.mem_pair.mp hq with rfl | rfl
      · exact Nat.le_of_eq (identifier_append hs hrest)
      · exact Nat.le_trans (unexpected_le _) hpos

theorem yylex_keyword {k : Text × Grammar.Token Val} (hk : k ∈ keywords) (hs : IsWord s)
    (hspell : s.map Char.toUpper = k.1) (hrest : EndsWord rest) :
    yylex atof ⟨.INITIAL, s ++ rest⟩ = (k.2, ⟨.INITIAL, rest⟩) :=
  yylex_token hs.ne_nil (match_keyword hk hs hspell hrest) rfl

theorem yylex_identifier (hs : IsWord s) (hfree : ∀ k ∈ keywords, s.map Char.toUpper ≠ k.1)
    (hrest : EndsWord rest) :
    yylex atof ⟨.INITIAL, s ++ rest⟩ = (⟨.IDENTIFIER, s⟩, ⟨.INITIAL, rest⟩) := by
  have hlen : Pattern.identifier.length (s ++ rest) = s.length := identifier_append hs hrest
  have hmatch : (scanner atof).match? ⟨.INITIAL, s ++ rest⟩ = some (.identifier, s.length) := by
    rw [match_word hs]
    refine longest_append ?_ (List.length_pos_iff.mpr hs.ne_nil) ?_ ?_
    · exact hlen
    · intro q hq
      obtain ⟨k, hk, rfl⟩ := List.mem_map.mp hq
      obtain ⟨hle, heq⟩ := keyword_le hk hs.ne_nil hrest
      exact Nat.lt_of_le_of_ne hle fun hsame => hfree k hk (heq hsame)
    · intro q hq
      rw [List.mem_singleton.mp hq]
      exact Nat.le_trans (unexpected_le _) (List.length_pos_iff.mpr hs.ne_nil)
  exact yylex_token hs.ne_nil hmatch rfl

end Words

section Literals

variable {atof : Text → UInt32} {s rest : Text}

/-- Digits, with or without a sign before them. -/
def IsInt (s : Text) : Prop :=
  ∃ mark ds, s = mark ++ ds ∧ mark ∈ [[], ['+'], ['-']] ∧ ds ≠ [] ∧ ∀ d ∈ ds, d.isDigit = true

/-- An integer with a dot behind it, and maybe more digits. -/
def IsFloat (s : Text) : Prop :=
  ∃ whole ds, s = whole ++ '.' :: ds ∧ IsInt whole ∧ ∀ d ∈ ds, d.isDigit = true

theorem digits_append {ds : Text} (hds : ∀ d ∈ ds, d.isDigit = true) (hrest : Text.NoDigit rest) :
    digits (ds ++ rest) = ds.length := by
  rw [digits, (Text.cut hds hrest).1]

theorem valueInt_append (hs : IsInt s) (hrest : Text.NoDigit rest) :
    valueInt (s ++ rest) = s.length := by
  obtain ⟨mark, ds, rfl, hmark, hne, hds⟩ := hs
  obtain ⟨d, ds, rfl⟩ := List.exists_cons_of_ne_nil hne
  have hdigits := digits_append hds hrest
  have hsign : sign (mark ++ (d :: ds ++ rest)) = mark.length := by
    have hd := hds d List.mem_cons_self
    rcases List.mem_cons.mp hmark with rfl | hmark
    · exact sign_eq_zero _ (ne_of_test hd rfl) (ne_of_test hd rfl)
    · rcases List.mem_pair.mp hmark with rfl | rfl
      · rfl
      · rfl
  rw [List.append_assoc, valueInt, hsign, List.drop_left, hdigits, if_neg (by simp),
    List.length_append]

theorem IsInt.ne_nil (hs : IsInt s) : s ≠ [] := by
  obtain ⟨mark, ds, rfl, _, hne, _⟩ := hs
  exact List.append_ne_nil_of_right_ne_nil mark hne

/-- At a number only the numbers and the unexpected characters match. -/
theorem match_number (hs : IsInt s) :
    (scanner atof).match? ⟨.INITIAL, s ++ rest⟩ = longest (fun p => p.length (s ++ rest))
      [.valueInt, .valueFloat, .unexpected] := by
  obtain ⟨mark, ds, rfl, hmark, hne, hds⟩ := hs
  obtain ⟨d, ds, rfl⟩ := List.exists_cons_of_ne_nil hne
  have hd := hds d List.mem_cons_self
  rcases List.mem_cons.mp hmark with rfl | hmark
  · rw [← candidates_digit hd]
    exact match_cons d (ds ++ rest)
  · rcases List.mem_pair.mp hmark with rfl | rfl
    · exact match_cons '+' (d :: ds ++ rest)
    · have hcomment : Pattern.lineComment.length ('-' :: d :: (ds ++ rest)) = 0 := by
        rw [Pattern.length, if_neg]
        change ¬ (List.isPrefixOf ['-', '-'] ('-' :: d :: (ds ++ rest)) = true)
        rw [List.isPrefixOf_iff_prefix, List.cons_prefix_cons, List.cons_prefix_cons]
        exact fun hprefix => ne_of_test hd rfl hprefix.2.1.symm
      have hcands : candidates '-' = [.lineComment, .valueInt, .valueFloat, .unexpected] := rfl
      change (scanner atof).match? ⟨.INITIAL, '-' :: (d :: (ds ++ rest))⟩ = _
      rw [match_cons, hcands, longest,
        if_neg (fun h => by rw [hcomment] at h; exact Nat.lt_irrefl 0 h.1)]
      rfl

theorem yylex_int (hs : IsInt s) (hdigit : Text.NoDigit rest) (hdot : ∀ c ∈ rest.head?, c ≠ '.') :
    yylex atof ⟨.INITIAL, s ++ rest⟩ = (⟨.VALUE_INT, atoi s⟩, ⟨.INITIAL, rest⟩) := by
  have hint := valueInt_append hs hdigit
  have hfloat : valueFloat (s ++ rest) = 0 := by
    rw [valueFloat, hint, List.drop_left]
    split
    next => exact absurd rfl (hdot '.' rfl)
    next => rfl
  have hpos := List.length_pos_iff.mpr hs.ne_nil
  have hmatch : (scanner atof).match? ⟨.INITIAL, s ++ rest⟩ = some (.valueInt, s.length) := by
    rw [match_number hs]
    refine longest_cons ?_ hpos ?_
    · exact hint
    · intro q hq
      rcases List.mem_pair.mp hq with rfl | rfl
      · exact Nat.le_trans (Nat.le_of_eq hfloat) (Nat.zero_le _)
      · exact Nat.le_trans (unexpected_le _) hpos
  exact yylex_token hs.ne_nil hmatch rfl

theorem yylex_float (hs : IsFloat s) (hdigit : Text.NoDigit rest) :
    yylex atof ⟨.INITIAL, s ++ rest⟩ = (⟨.VALUE_FLOAT, atof s⟩, ⟨.INITIAL, rest⟩) := by
  obtain ⟨whole, ds, rfl, hwhole, hds⟩ := hs
  have hpos := List.length_pos_iff.mpr hwhole.ne_nil
  have hint : valueInt ((whole ++ '.' :: ds) ++ rest) = whole.length := by
    rw [List.append_assoc]
    apply valueInt_append hwhole
    intro c hc
    cases hc
    rfl
  have hfloat : valueFloat ((whole ++ '.' :: ds) ++ rest) = (whole ++ '.' :: ds).length := by
    rw [valueFloat, hint, List.append_assoc, List.drop_left, List.cons_append]
    change (if whole.length = 0 then 0 else whole.length + (digits (ds ++ rest) + 1)) = _
    rw [if_neg (by omega), digits_append hds hdigit, List.length_append, List.length_cons]
  have hmatch : (scanner atof).match? ⟨.INITIAL, (whole ++ '.' :: ds) ++ rest⟩ =
      some (.valueFloat, (whole ++ '.' :: ds).length) := by
    have hsize : (whole ++ '.' :: ds).length = whole.length + (ds.length + 1) := by
      rw [List.length_append, List.length_cons]
    rw [List.append_assoc, match_number hwhole, ← List.append_assoc]
    change longest _ ([Pattern.valueInt] ++ Pattern.valueFloat :: [Pattern.unexpected]) = _
    refine longest_append ?_ (by omega) ?_ ?_
    · exact hfloat
    · intro q hq
      rw [List.mem_singleton.mp hq]
      apply Nat.lt_of_le_of_lt (Nat.le_of_eq hint)
      omega
    · intro q hq
      rw [List.mem_singleton.mp hq]
      apply Nat.le_trans (unexpected_le _)
      omega
  exact yylex_token (List.append_ne_nil_of_left_ne_nil hwhole.ne_nil _) hmatch rfl

theorem yylex_string {body : Text} (hbody : '\'' ∉ body) :
    yylex atof ⟨.INITIAL, '\'' :: (body ++ ['\'']) ++ rest⟩ =
      (⟨.VALUE_STRING, body⟩, ⟨.INITIAL, rest⟩) := by
  have htext : '\'' :: (body ++ ['\'']) ++ rest = '\'' :: (body ++ '\'' :: rest) := by
    rw [List.cons_append, List.append_assoc]
    rfl
  have hstop : ∀ c ∈ ('\'' :: rest).head?, (c != '\'') = false := by
    intro c hc
    cases hc
    rfl
  have hinside : ∀ c ∈ body, (c != '\'') = true := by
    intro c hc
    rw [bne_iff_ne]
    rintro rfl
    exact hbody hc
  have hlen : valueString ('\'' :: (body ++ '\'' :: rest)) = ('\'' :: (body ++ ['\''])).length := by
    rw [valueString, if_pos (by simp), (Text.cut hinside hstop).1, List.length_cons,
      List.length_append, List.length_singleton]
  have hmatch : (scanner atof).match? ⟨.INITIAL, '\'' :: (body ++ ['\'']) ++ rest⟩ =
      some (.valueString, ('\'' :: (body ++ ['\''])).length) := by
    have hcands : candidates '\'' = [.valueString, .unexpected] := rfl
    rw [htext, match_cons, hcands]
    refine longest_cons ?_ (Nat.succ_pos _) ?_
    · exact hlen
    · intro q hq
      rw [List.mem_singleton.mp hq]
      exact Nat.le_trans (unexpected_le _) (Nat.le_add_left 1 _)
  apply yylex_token (List.cons_ne_nil _ _) hmatch
  rw [Pattern.act, List.tail_cons, List.dropLast_concat]

end Literals

section Operators

variable {atof : Text → UInt32} {s rest : Text}

/-- The character would make another token out of this one. -/
def grows : Token → Char → Bool
  | .VALUE_INT, c => c.isDigit || c == '.'
  | .VALUE_FLOAT, c => c.isDigit
  | .lt, c => c == '=' || c == '>'
  | .gt, c => c == '='
  | .VALUE_STRING, _ => false
  | .GEQ, _ => false
  | .LEQ, _ => false
  | .NEQ, _ => false
  | .semicolon, _ => false
  | .lparen, _ => false
  | .rparen, _ => false
  | .comma, _ => false
  | .dot, _ => false
  | .eq, _ => false
  | .star, _ => false
  | _, c => isIdentifierChar c

/-- The text behind a token does not go on with a character that belongs to it. -/
def Apart (tok : Token) (rest : Text) : Prop := ∀ c ∈ rest.head?, grows tok c = false

theorem match_lt (h : Apart .lt rest) :
    (scanner atof).match? ⟨.INITIAL, '<' :: rest⟩ = some (.op ['<'] ⟨.lt, ()⟩, 1) := by
  have hcands : candidates '<' = [.op ['<', '='] ⟨.LEQ, ()⟩, .op ['<', '>'] ⟨.NEQ, ()⟩,
      .op ['<'] ⟨.lt, ()⟩, .unexpected] := rfl
  rw [match_cons, hcands]
  cases rest with
  | nil => rfl
  | cons c rest =>
      have hc := Bool.or_eq_false_iff.mp (h c rfl)
      have hle : literal ['<', '='] ('<' :: c :: rest) = 0 := by
        rw [literal, if_neg]
        rw [List.isPrefixOf_iff_prefix, List.cons_prefix_cons, List.cons_prefix_cons]
        exact fun hprefix => beq_eq_false_iff_ne.mp hc.1 hprefix.2.1.symm
      have hne : literal ['<', '>'] ('<' :: c :: rest) = 0 := by
        rw [literal, if_neg]
        rw [List.isPrefixOf_iff_prefix, List.cons_prefix_cons, List.cons_prefix_cons]
        exact fun hprefix => beq_eq_false_iff_ne.mp hc.2 hprefix.2.1.symm
      rw [longest, if_neg (fun h => by rw [Pattern.length, hle] at h; exact Nat.lt_irrefl 0 h.1),
        longest, if_neg (fun h => by rw [Pattern.length, hne] at h; exact Nat.lt_irrefl 0 h.1)]
      rfl

theorem match_gt (h : Apart .gt rest) :
    (scanner atof).match? ⟨.INITIAL, '>' :: rest⟩ = some (.op ['>'] ⟨.gt, ()⟩, 1) := by
  have hcands : candidates '>' = [.op ['>', '='] ⟨.GEQ, ()⟩, .op ['>'] ⟨.gt, ()⟩,
      .unexpected] := rfl
  rw [match_cons, hcands]
  cases rest with
  | nil => rfl
  | cons c rest =>
      have hge : literal ['>', '='] ('>' :: c :: rest) = 0 := by
        rw [literal, if_neg]
        rw [List.isPrefixOf_iff_prefix, List.cons_prefix_cons, List.cons_prefix_cons]
        exact fun hprefix => beq_eq_false_iff_ne.mp (h c rfl) hprefix.2.1.symm
      rw [longest, if_neg (fun h => by rw [Pattern.length, hge] at h; exact Nat.lt_irrefl 0 h.1)]
      rfl

theorem match_op {k : Text × Grammar.Token Val} (hk : k ∈ ops) (h : Apart k.2.1 rest) :
    (scanner atof).match? ⟨.INITIAL, k.1 ++ rest⟩ = some (.op k.1 k.2, k.1.length) := by
  simp only [ops, List.mem_cons, List.not_mem_nil, or_false] at hk
  rcases hk with rfl | rfl | rfl | rfl | rfl | rfl | rfl | rfl | rfl | rfl | rfl | rfl
  · exact match_cons '>' ('=' :: rest)
  · exact match_cons '<' ('=' :: rest)
  · exact match_cons '<' ('>' :: rest)
  · exact match_cons ';' rest
  · exact match_cons '(' rest
  · exact match_cons ')' rest
  · exact match_cons ',' rest
  · exact match_cons '*' rest
  · exact match_cons '=' rest
  · exact match_gt h
  · exact match_lt h
  · exact match_cons '.' rest

theorem yylex_op {k : Text × Grammar.Token Val} (hk : k ∈ ops) (h : Apart k.2.1 rest) :
    yylex atof ⟨.INITIAL, k.1 ++ rest⟩ = (k.2, ⟨.INITIAL, rest⟩) := by
  have hne : k.1 ≠ [] := by
    obtain ⟨c, hhead, _⟩ := ops_heads hk
    rintro hnil
    rw [hnil] at hhead
    cases hhead
  exact yylex_token hne (match_op hk h) rfl

end Operators

section Comments

variable {atof : Text → UInt32} {t body : Text}

/-- The text has the end of a comment. -/
def HasEnd (t : Text) : Prop := ['*', '/'] <:+: t

instance (t : Text) : Decidable (HasEnd t) := inferInstanceAs (Decidable (['*', '/'] <:+: t))

theorem hasEnd_cons {c : Char} (h : HasEnd t) : HasEnd (c :: t) :=
  List.infix_cons h

/-- In a comment a character that does not begin its end is passed over. -/
theorem comment_step {c : Char} (h : ¬ ['*', '/'] <+: c :: t) :
    yylex atof ⟨.STATE_COMMENT, c :: t⟩ = yylex atof ⟨.STATE_COMMENT, t⟩ := by
  have hend : literal "*/".toList (c :: t) = 0 := by
    rw [literal, if_neg]
    rw [List.isPrefixOf_iff_prefix]
    exact h
  have hmatch : ∃ p ∈ [Pattern.commentText, Pattern.commentStar],
      (scanner atof).match? ⟨.STATE_COMMENT, c :: t⟩ = some (p, 1) := by
    change ∃ p ∈ _, longest (fun p : Pattern => p.length (c :: t))
      [.commentEnd, .commentText, .commentStar] = some (p, 1)
    rw [longest, if_neg (fun h => by rw [Pattern.length, hend] at h; exact Nat.lt_irrefl 0 h.1)]
    cases hstar : c == '*' with
    | true =>
        obtain rfl := beq_iff_eq.mp hstar
        exact ⟨.commentStar, by simp, rfl⟩
    | false =>
        have hne := beq_eq_false_iff_ne.mp hstar
        refine ⟨.commentText, by simp, longest_cons ?_ Nat.zero_lt_one ?_⟩
        · rw [Pattern.length, List.head?_cons, Option.any_some, if_pos (bne_iff_ne.mpr hne)]
        · intro q hq
          rw [List.mem_singleton.mp hq]
          exact Nat.le_trans (Nat.le_of_eq (literal_eq_zero [] t (Ne.symm hne))) (Nat.zero_le 1)
  obtain ⟨p, hp, hmatch⟩ := hmatch
  have hskip : p.act atof [c] = .skip := by
    rcases List.mem_pair.mp hp with rfl | rfl
    · rfl
    · rfl
  exact next_skip (S := scanner atof) (List.cons_ne_nil c t) hmatch hskip

/-- A comment that is not closed takes the rest of the text. -/
theorem yylex_open_comment (h : ¬ HasEnd t) :
    yylex atof ⟨.STATE_COMMENT, t⟩ = (⟨.T_EOF, ()⟩, ⟨.STATE_COMMENT, []⟩) := by
  induction t with
  | nil => exact next_nil _
  | cons c t ih =>
      rw [comment_step fun hprefix => h hprefix.isInfix]
      exact ih fun hend => h (hasEnd_cons hend)

theorem yylex_comment_end (t : Text) :
    yylex atof ⟨.STATE_COMMENT, '*' :: '/' :: t⟩ = yylex atof ⟨.INITIAL, t⟩ :=
  next_start (S := scanner atof) (p := .commentEnd) (n := 2) (List.cons_ne_nil _ _) rfl rfl

theorem yylex_comment (h : ¬ HasEnd body) :
    yylex atof ⟨.STATE_COMMENT, body ++ '*' :: '/' :: t⟩ = yylex atof ⟨.INITIAL, t⟩ := by
  induction body with
  | nil => exact yylex_comment_end t
  | cons c body ih =>
      rw [List.cons_append, comment_step]
      · exact ih fun hend => h (hasEnd_cons hend)
      · intro hprefix
        cases body with
        | nil =>
            have hslash := (List.cons_prefix_cons.mp hprefix).2
            cases (List.cons_prefix_cons.mp hslash).1
        | cons d body =>
            apply h
            obtain ⟨rfl, hslash⟩ := List.cons_prefix_cons.mp hprefix
            obtain ⟨rfl, _⟩ := List.cons_prefix_cons.mp hslash
            exact ⟨[], body, rfl⟩

theorem yylex_block (h : ¬ HasEnd body) :
    yylex atof ⟨.INITIAL, '/' :: '*' :: (body ++ '*' :: '/' :: t)⟩ = yylex atof ⟨.INITIAL, t⟩ := by
  have hmatch : (scanner atof).match? ⟨.INITIAL, '/' :: '*' :: (body ++ '*' :: '/' :: t)⟩ =
      some (.blockComment, 2) := match_cons '/' _
  exact (next_start (S := scanner atof) (List.cons_ne_nil _ _) hmatch rfl).trans (yylex_comment h)

end Comments

section Gaps

variable {atof : Text → UInt32} {t body : Text}

theorem yylex_blanks (t : Text) :
    yylex atof ⟨.INITIAL, t⟩ = yylex atof ⟨.INITIAL, t.dropWhile isBlank⟩ := by
  cases t with
  | nil => rfl
  | cons c t =>
      cases hblank : isBlank c with
      | false => rw [List.dropWhile_cons_of_neg (by rw [hblank]; exact Bool.false_ne_true)]
      | true =>
          have hcands : candidates c = [.whiteSpace, .unexpected] := by
            rcases Bool.or_eq_true_iff.mp hblank with hc | hc
            · obtain rfl := beq_iff_eq.mp hc
              rfl
            · obtain rfl := beq_iff_eq.mp hc
              rfl
          have hlen : Pattern.whiteSpace.length (c :: t) = (t.takeWhile isBlank).length + 1 := by
            rw [Pattern.length, List.takeWhile_cons_of_pos hblank, List.length_cons]
          have hmatch : (scanner atof).match? ⟨.INITIAL, c :: t⟩ =
              some (.whiteSpace, (t.takeWhile isBlank).length + 1) := by
            rw [match_cons, hcands]
            refine longest_cons hlen (Nat.succ_pos _) ?_
            intro q hq
            rw [List.mem_singleton.mp hq]
            exact Nat.le_trans (unexpected_le _) (Nat.le_add_left 1 _)
          have hdrop : (c :: t).drop ((t.takeWhile isBlank).length + 1) =
              (c :: t).dropWhile isBlank := by
            have hleft : (t.takeWhile isBlank ++ t.dropWhile isBlank).drop
                (t.takeWhile isBlank).length = t.dropWhile isBlank := List.drop_left
            rw [List.takeWhile_append_dropWhile] at hleft
            rw [List.drop_succ_cons, List.dropWhile_cons_of_pos hblank, hleft]
          have hnext := next_skip (S := scanner atof) (List.cons_ne_nil c t) hmatch rfl
          rw [yylex, hnext]
          change (scanner atof).next ⟨.INITIAL, (c :: t).drop _⟩ = _
          rw [hdrop]
          rfl

theorem yylex_blank {c : Char} (h : isBlank c = true) :
    yylex atof ⟨.INITIAL, c :: t⟩ = yylex atof ⟨.INITIAL, t⟩ := by
  rw [yylex_blanks, List.dropWhile_cons_of_pos h, ← yylex_blanks]

theorem yylex_newline (t : Text) :
    yylex atof ⟨.INITIAL, '\n' :: t⟩ = yylex atof ⟨.INITIAL, t⟩ :=
  next_skip (S := scanner atof) (p := .newLine) (n := 1) (List.cons_ne_nil _ _)
    (match_cons '\n' t) rfl

theorem yylex_return (t : Text) :
    yylex atof ⟨.INITIAL, '\r' :: t⟩ = yylex atof ⟨.INITIAL, t⟩ := by
  have hpair (t : Text) : yylex atof ⟨.INITIAL, '\r' :: '\n' :: t⟩ = yylex atof ⟨.INITIAL, t⟩ :=
    next_skip (S := scanner atof) (p := .newLine) (n := 2) (List.cons_ne_nil _ _)
      (match_cons '\r' ('\n' :: t)) rfl
  have hone {t : Text} (h : newLine ('\r' :: t) = 1) :
      yylex atof ⟨.INITIAL, '\r' :: t⟩ = yylex atof ⟨.INITIAL, t⟩ := by
    have hmatch : (scanner atof).match? ⟨.INITIAL, '\r' :: t⟩ = some (.newLine, 1) := by
      have hcands : candidates '\r' = [.newLine, .unexpected] := rfl
      rw [match_cons, hcands]
      refine longest_cons h Nat.zero_lt_one ?_
      intro q hq
      rw [List.mem_singleton.mp hq]
      exact unexpected_le _
    exact next_skip (S := scanner atof) (List.cons_ne_nil _ _) hmatch rfl
  cases t with
  | nil => exact hone rfl
  | cons c t =>
      by_cases hc : c = '\n'
      · subst hc
        rw [hpair, yylex_newline]
      · apply hone
        unfold newLine
        split
        next heq => exact absurd (List.cons.inj (List.cons.inj heq).2).1 hc
        next => rfl
        next => rfl
        next hother _ => exact absurd rfl (hother _)

theorem yylex_line (h : '\n' ∉ body) :
    yylex atof ⟨.INITIAL, '-' :: '-' :: (body ++ '\n' :: t)⟩ = yylex atof ⟨.INITIAL, t⟩ := by
  have hcut : (body ++ '\n' :: t).takeWhile (fun c => c != '\n') = body := by
    apply (Text.cut _ _).1
    · intro c hc
      rw [bne_iff_ne]
      rintro rfl
      exact h hc
    · intro c hc
      cases hc
      rfl
  have hlen : Pattern.lineComment.length ('-' :: '-' :: (body ++ '\n' :: t)) = 2 + body.length := by
    change 2 + ((body ++ '\n' :: t).takeWhile fun c => c != '\n').length = _
    rw [hcut]
  have hmatch : (scanner atof).match? ⟨.INITIAL, '-' :: '-' :: (body ++ '\n' :: t)⟩ =
      some (.lineComment, 2 + body.length) := by
    have hcands : candidates '-' = [.lineComment, .valueInt, .valueFloat, .unexpected] := rfl
    have hint : valueInt ('-' :: '-' :: (body ++ '\n' :: t)) = 0 := rfl
    have hfloat := valueFloat_eq_zero hint
    rw [match_cons, hcands]
    refine longest_cons hlen (by omega) ?_
    intro q hq
    rcases List.mem_cons.mp hq with rfl | hq
    · exact Nat.le_trans (Nat.le_of_eq hint) (Nat.zero_le _)
    · rcases List.mem_pair.mp hq with rfl | rfl
      · exact Nat.le_trans (Nat.le_of_eq hfloat) (Nat.zero_le _)
      · exact Nat.le_trans (unexpected_le _) (by omega)
  have hnext := next_skip (S := scanner atof) (List.cons_ne_nil _ _) hmatch rfl
  rw [yylex, hnext, Nat.add_comm 2]
  change yylex atof ⟨.INITIAL, (body ++ '\n' :: t).drop body.length⟩ = _
  rw [List.drop_left, yylex_newline]

end Gaps

end Sql

end RucDDBS
