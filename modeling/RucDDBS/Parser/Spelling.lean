import RucDDBS.Parser.Lexemes
import RucDDBS.Parser.Unparse

/-!
How a word of tokens may be written: the texts of its tokens in any case, with blanks and
comments between them, and apart where they would grow together. No NUL is in any of them:
the scanner gets a C string. It reads every such text back, and what it reads from any text
can be written so. So the trees that texts are parsed to are the trees with these names,
strings and floats.
-/

namespace RucDDBS

namespace Sql

open Ast Grammar Scanning

section Writing

/-- What may stand between two tokens. -/
inductive Gap : Text → Prop
  | nil : Gap []
  | blank {c : Char} {g : Text} : isBlank c = true ∨ c = '\r' ∨ c = '\n' → Gap g → Gap (c :: g)
  | line {body g : Text} : '\n' ∉ body → '\x00' ∉ body → Gap g →
      Gap ('-' :: '-' :: (body ++ '\n' :: g))
  | block {body g : Text} : ¬ HasEnd body → '\x00' ∉ body → Gap g →
      Gap ('/' :: '*' :: (body ++ '*' :: '/' :: g))

/-- A name that is not a keyword. -/
def IsName (s : Text) : Prop := IsWord s ∧ ∀ k ∈ keywords, s.map Char.toUpper ≠ k.1

variable (atof : Text → UInt32)

/-- The text of a token. -/
inductive Spells : Grammar.Token Val → Text → Prop
  | keyword {k : Text × Grammar.Token Val} {s : Text} : k ∈ keywords → IsWord s →
      s.map Char.toUpper = k.1 → Spells k.2 s
  | op {k : Text × Grammar.Token Val} : k ∈ ops → Spells k.2 k.1
  | identifier {s : Text} : IsName s → Spells ⟨.IDENTIFIER, s⟩ s
  | valueInt {s : Text} : IsInt s → Spells ⟨.VALUE_INT, atoi s⟩ s
  | valueFloat {s : Text} : IsFloat s → Spells ⟨.VALUE_FLOAT, atof s⟩ s
  | valueString {body : Text} : '\'' ∉ body → '\x00' ∉ body →
      Spells ⟨.VALUE_STRING, body⟩ ('\'' :: (body ++ ['\'']))

/-- `Spelled atof rest w t`: the text `t` has the tokens of `w` and then `rest`. -/
inductive Spelled (rest : Text) : Word → Text → Prop
  | nil : Spelled rest [] rest
  | cons {tok : Grammar.Token Val} {w : Word} {g s t : Text} : Gap g → Spells atof tok s →
      Apart tok.1 t → Spelled rest w t → Spelled rest (tok :: w) (g ++ (s ++ t))

end Writing

section Reading

variable {atof : Text → UInt32} {g s t rest : Text} {tok : Grammar.Token Val} {w : Word}

theorem yylex_gap (h : Gap g) : yylex atof ⟨.INITIAL, g ++ t⟩ = yylex atof ⟨.INITIAL, t⟩ := by
  induction h with
  | nil => rfl
  | blank hc _ ih =>
      rcases hc with hblank | rfl | rfl
      · exact (yylex_blank hblank).trans ih
      · exact (yylex_return _).trans ih
      · exact (yylex_newline _).trans ih
  | line hbody _ _ ih =>
      rw [List.cons_append, List.cons_append, List.append_assoc, List.cons_append]
      exact (yylex_line hbody).trans ih
  | block hbody _ _ ih =>
      rw [List.cons_append, List.cons_append, List.append_assoc, List.cons_append, List.cons_append]
      exact (yylex_block hbody).trans ih

theorem grows_keyword {k : Text × Grammar.Token Val} (hk : k ∈ keywords) (c : Char) :
    grows k.2.1 c = isIdentifierChar c := by
  simp only [keywords, List.mem_cons, List.not_mem_nil, or_false] at hk
  rcases hk with rfl | rfl | rfl | rfl | rfl | rfl | rfl | rfl | rfl | rfl | rfl | rfl | rfl | rfl |
    rfl | rfl | rfl | rfl | rfl | rfl | rfl | rfl | rfl | rfl | rfl | rfl | rfl | rfl | rfl | rfl |
    rfl | rfl | rfl
  all_goals rfl

/-- A token is read from its text. -/
theorem yylex_spells (h : Spells atof tok s) (hrest : Apart tok.1 rest) :
    yylex atof ⟨.INITIAL, s ++ rest⟩ = (tok, ⟨.INITIAL, rest⟩) := by
  cases h with
  | keyword hk hword hspell =>
      exact yylex_keyword hk hword hspell fun c hc => grows_keyword hk c ▸ hrest c hc
  | op hk => exact yylex_op hk hrest
  | identifier hname => exact yylex_identifier hname.1 hname.2 hrest
  | valueInt hint =>
      apply yylex_int hint
      · exact fun c hc => (Bool.or_eq_false_iff.mp (hrest c hc)).1
      · exact fun c hc => beq_eq_false_iff_ne.mp (Bool.or_eq_false_iff.mp (hrest c hc)).2
  | valueFloat hfloat => exact yylex_float hfloat hrest
  | valueString hbody _ => exact yylex_string hbody

/-- No NUL is among the characters of names, numbers and blanks. -/
theorem ne_nul_of {p : Char → Bool} {c : Char} (hp : p '\x00' = false) (h : p c = true) :
    c ≠ '\x00' := by
  rintro rfl
  rw [hp] at h
  cases h

theorem not_mem_of_isWord (h : IsWord s) : '\x00' ∉ s := by
  obtain ⟨c, t, rfl, hc, ht⟩ := h
  intro hmem
  rcases List.mem_cons.mp hmem with heq | hmem
  · exact ne_nul_of (p := Char.isAlpha) rfl hc heq.symm
  · exact ne_nul_of (p := isIdentifierChar) rfl (ht _ hmem) rfl

theorem not_mem_of_isInt (h : IsInt s) : '\x00' ∉ s := by
  obtain ⟨sgn, ds, rfl, hsgn, _, hds⟩ := h
  intro hmem
  rcases List.mem_append.mp hmem with hmem | hmem
  · simp only [List.mem_cons, List.not_mem_nil, or_false] at hsgn
    rcases hsgn with rfl | rfl | rfl
    · cases hmem
    · cases List.mem_singleton.mp hmem
    · cases List.mem_singleton.mp hmem
  · exact ne_nul_of (p := Char.isDigit) rfl (hds _ hmem) rfl

theorem not_mem_of_isFloat (h : IsFloat s) : '\x00' ∉ s := by
  obtain ⟨i, ds, rfl, hi, hds⟩ := h
  intro hmem
  rcases List.mem_append.mp hmem with hmem | hmem
  · exact not_mem_of_isInt hi hmem
  · rcases List.mem_cons.mp hmem with heq | hmem
    · cases heq
    · exact ne_nul_of (p := Char.isDigit) rfl (hds _ hmem) rfl

theorem not_mem_ops : ops.all (fun k => decide ('\x00' ∉ k.1)) = true := by
  decide +kernel

theorem not_mem_of_spells (h : Spells atof tok s) : '\x00' ∉ s := by
  cases h with
  | keyword _ hword _ => exact not_mem_of_isWord hword
  | op hk => exact of_decide_eq_true (List.all_eq_true.mp not_mem_ops _ hk)
  | identifier hname => exact not_mem_of_isWord hname.1
  | valueInt hint => exact not_mem_of_isInt hint
  | valueFloat hfloat => exact not_mem_of_isFloat hfloat
  | valueString _ hnul =>
      intro hmem
      rcases List.mem_cons.mp hmem with heq | hmem
      · cases heq
      · rcases List.mem_append.mp hmem with hmem | hmem
        · exact hnul hmem
        · cases List.mem_singleton.mp hmem

theorem not_mem_of_gap (h : Gap g) : '\x00' ∉ g := by
  induction h with
  | nil => exact List.not_mem_nil
  | blank hc _ ih =>
      intro hmem
      rcases List.mem_cons.mp hmem with rfl | hmem
      · rcases hc with hblank | heq | heq
        · exact ne_nul_of (p := isBlank) rfl hblank rfl
        · cases heq
        · cases heq
      · exact ih hmem
  | line _ hnul _ ih => simp [hnul, ih]
  | block _ hnul _ ih => simp [hnul, ih]

/-- What has no NUL is kept, and the text is cut behind it. -/
theorem cStr_append (h : '\x00' ∉ s) (t : Text) : cStr (s ++ t) = s ++ cStr t := by
  apply List.takeWhile_append_of_pos
  intro c hc
  rw [bne_iff_ne]
  rintro rfl
  exact h hc

theorem not_mem_cStr (t : Text) : '\x00' ∉ cStr t := by
  intro hmem
  have hne := List.mem_takeWhile_imp hmem
  cases hne

/-- What the cut leaves of a text begins as the text does. -/
theorem apart_cStr {tok : Token} (h : Apart tok t) : Apart tok (cStr t) := by
  intro c hc
  cases t with
  | nil => cases hc
  | cons d t =>
      rw [cStr, List.takeWhile_cons] at hc
      split at hc
      case isTrue => exact h c hc
      case isFalse => cases hc

/-- The scanner gets the words of a text, and what stands behind them up to a NUL. -/
theorem Spelled.cStr (h : Spelled atof rest w t) : Spelled atof (cStr rest) w (cStr t) := by
  induction h with
  | nil => exact .nil
  | @cons tok w g s t hgap hspells hapart _ ih =>
      rw [cStr_append (not_mem_of_gap hgap), cStr_append (not_mem_of_spells hspells)]
      exact .cons hgap hspells (apart_cStr hapart) ih

theorem reads_of_spelled (h : Spelled atof rest w t) :
    LR.Reads (yylex atof) ⟨.INITIAL, t⟩ w ⟨.INITIAL, rest⟩ := by
  induction h with
  | nil => exact .nil _
  | @cons tok w g s t hgap hspells hapart _ ih =>
      have hnext : yylex atof ⟨.INITIAL, g ++ (s ++ t)⟩ = (tok, ⟨.INITIAL, t⟩) :=
        (yylex_gap hgap).trans (yylex_spells hspells hapart)
      have hreads : LR.Reads (yylex atof) ⟨.INITIAL, g ++ (s ++ t)⟩
          ((yylex atof ⟨.INITIAL, g ++ (s ++ t)⟩).1 :: w) ⟨.INITIAL, rest⟩ :=
        .cons (by rw [hnext]; exact ih)
      rw [hnext] at hreads
      exact hreads

end Reading

section Scanned

variable {atof : Text → UInt32} {s t : Text} {n : Nat}

theorem take_takeWhile_length {α : Type} (p : α → Bool) (l : List α) :
    l.take (l.takeWhile p).length = l.takeWhile p ∧
      l.drop (l.takeWhile p).length = l.dropWhile p := by
  have htake : (l.takeWhile p ++ l.dropWhile p).take (l.takeWhile p).length = l.takeWhile p :=
    List.take_left
  have hdrop : (l.takeWhile p ++ l.dropWhile p).drop (l.takeWhile p).length = l.dropWhile p :=
    List.drop_left
  rw [List.takeWhile_append_dropWhile] at htake hdrop
  exact ⟨htake, hdrop⟩

theorem head_dropWhile {α : Type} (p : α → Bool) (l : List α) :
    ∀ c ∈ (l.dropWhile p).head?, p c = false := by
  intro c hc
  have hnot := List.head?_dropWhile_not p l
  rw [Option.mem_def.mp hc] at hnot
  exact hnot

theorem isWord_take (h : identifier t = n) (hpos : 0 < n) :
    IsWord (t.take n) ∧ EndsWord (t.drop n) := by
  cases t with
  | nil =>
      rw [← h] at hpos
      exact absurd hpos (Nat.lt_irrefl 0)
  | cons c t =>
      rw [identifier] at h
      split at h
      next halpha =>
        obtain ⟨htake, hdrop⟩ := take_takeWhile_length isIdentifierChar t
        rw [← h, List.take_succ_cons, htake, List.drop_succ_cons, hdrop]
        exact ⟨⟨c, _, rfl, halpha, fun d hd => List.mem_takeWhile_imp hd⟩, head_dropWhile _ t⟩
      next =>
        rw [← h] at hpos
        exact absurd hpos (Nat.lt_irrefl 0)

theorem sign_take (t : Text) : t.take (sign t) ∈ [[], ['+'], ['-']] := by
  unfold sign
  split
  next => exact List.mem_cons_of_mem _ List.mem_cons_self
  next => exact List.mem_cons_of_mem _ (List.mem_cons_of_mem _ List.mem_cons_self)
  next => exact List.mem_cons_self

theorem digits_take (t : Text) : ∀ d ∈ t.take (digits t), d.isDigit = true := by
  rw [digits, (take_takeWhile_length _ t).1]
  exact fun d hd => List.mem_takeWhile_imp hd

theorem isInt_take (h : valueInt t = n) (hpos : 0 < n) : IsInt (t.take n) := by
  rw [valueInt] at h
  split at h
  next =>
    rw [← h] at hpos
    exact absurd hpos (Nat.lt_irrefl 0)
  next hne =>
    refine ⟨t.take (sign t), (t.drop (sign t)).take (digits (t.drop (sign t))), ?_, sign_take t,
      ?_, digits_take _⟩
    · rw [← h, List.take_add]
    · intro hnil
      apply hne
      rw [digits, (take_takeWhile_length _ _).1] at hnil
      rw [digits, hnil, List.length_nil]

theorem isFloat_take (h : valueFloat t = n) (hpos : 0 < n) : IsFloat (t.take n) := by
  rw [valueFloat] at h
  split at h
  next rest hrest =>
    split at h
    next =>
      rw [← h] at hpos
      exact absurd hpos (Nat.lt_irrefl 0)
    next hne =>
      refine ⟨t.take (valueInt t), rest.take (digits rest), ?_,
        isInt_take rfl (Nat.pos_of_ne_zero hne), digits_take rest⟩
      rw [← h, List.take_add, hrest, List.take_succ_cons]
  next =>
    rw [← h] at hpos
    exact absurd hpos (Nat.lt_irrefl 0)

theorem not_mem_string (h : valueString t = n) (hpos : 0 < n) :
    '\'' ∉ (t.take n).tail.dropLast := by
  unfold valueString at h
  split at h
  next t =>
    split at h
    next hmem =>
      have hnot : '\'' ∉ t.takeWhile fun c => c != '\'' := by
        intro hin
        have hne := List.mem_takeWhile_imp (p := fun c => c != '\'') hin
        cases hne
      have hcut := List.takeWhile_append_dropWhile (p := fun c => c != '\'') (l := t)
      cases hrest : t.dropWhile fun c => c != '\'' with
      | nil =>
          rw [hrest, List.append_nil] at hcut
          rw [hcut] at hnot
          exact absurd hmem hnot
      | cons d rest =>
          rw [hrest, List.append_cons] at hcut
          have htake : t.take ((t.takeWhile fun c => c != '\'').length + 1) =
              (t.takeWhile fun c => c != '\'') ++ [d] := by
            conv_lhs => rw [← hcut]
            apply List.take_left'
            rw [hcut, List.length_append, List.length_singleton]
          rw [← h, List.take_succ_cons, List.tail_cons, htake, List.dropLast_concat]
          exact hnot
    next =>
      rw [← h] at hpos
      exact absurd hpos (Nat.lt_irrefl 0)
  next =>
    rw [← h] at hpos
    exact absurd hpos (Nat.lt_irrefl 0)

theorem keywords_written :
    keywords.all (fun k => (k.1.head?.any Char.isAlpha && k.1.all isIdentifierChar) &&
      decide (k.1.map Char.toUpper = k.1)) = true := by
  decide +kernel

theorem isWord_of_all (h : s.head?.any Char.isAlpha = true) (hall : s.all isIdentifierChar = true) :
    IsWord s := by
  cases s with
  | nil => cases h
  | cons c s =>
      rw [List.all_cons, Bool.and_eq_true] at hall
      exact ⟨c, s, rfl, h, List.all_eq_true.mp hall.2⟩

theorem spells_keyword {k : Text × Grammar.Token Val} (hk : k ∈ keywords) : Spells atof k.2 k.1 := by
  have hwritten := List.all_eq_true.mp keywords_written k hk
  rw [Bool.and_eq_true, Bool.and_eq_true, decide_eq_true_eq] at hwritten
  exact .keyword hk (isWord_of_all hwritten.1.1 hwritten.1.2) hwritten.2

/-- An identifier is never a keyword. -/
theorem isName_take (h : (scanner atof).match? ⟨.INITIAL, t⟩ = some (.identifier, n)) :
    IsName (t.take n) := by
  obtain ⟨_, hlen, hpos, _⟩ := longest_max h
  obtain ⟨hword, hends⟩ := isWord_take hlen hpos
  refine ⟨hword, fun k hk hspell => ?_⟩
  have hmatch : (scanner atof).match? ⟨.INITIAL, t.take n ++ t.drop n⟩ = _ :=
    match_keyword hk hword hspell hends
  rw [List.take_append_drop, h] at hmatch
  cases hmatch

/-- What the scanner gives for a text is the end or a token that can be written. -/
theorem yylex_spelled (atof : Text → UInt32) (s : Scan) (hnul : '\x00' ∉ s.rest) :
    ((yylex atof s).1 = ⟨.T_EOF, ()⟩ ∨ ∃ text, Spells atof (yylex atof s).1 text) ∧
      '\x00' ∉ (yylex atof s).2.rest := by
  apply next_forall (S := scanner atof) (I := fun t => '\x00' ∉ t)
    (P := fun tok => tok = ⟨.T_EOF, ()⟩ ∨ ∃ text, Spells atof tok text) _ _ _ s hnul
  · exact fun t n hnul hmem => hnul (List.mem_of_mem_drop hmem)
  · exact .inl rfl
  · intro s p n tok hnul hmatch hact
    obtain ⟨hmem, hlen, hpos, _⟩ := longest_max hmatch
    obtain ⟨q, t⟩ := s
    cases q with
    | STATE_COMMENT =>
        have hnever : ∀ p ∈ patterns .STATE_COMMENT, ∀ text tok, p.act atof text ≠ .token tok := by
          intro p hp text tok heq
          simp only [patterns, List.mem_cons, List.not_mem_nil, or_false] at hp
          rcases hp with rfl | rfl | rfl
          · cases heq
          · cases heq
          · cases heq
        exact absurd hact (hnever p hmem _ tok)
    | INITIAL =>
        cases p with
        | keyword text tok' =>
            cases hact
            exact .inr ⟨text, spells_keyword (mem_keywords hmem)⟩
        | op text tok' =>
            cases hact
            exact .inr ⟨text, .op (mem_ops hmem)⟩
        | identifier =>
            cases hact
            exact .inr ⟨_, .identifier (isName_take hmatch)⟩
        | valueInt =>
            cases hact
            exact .inr ⟨_, .valueInt (isInt_take hlen hpos)⟩
        | valueFloat =>
            cases hact
            exact .inr ⟨_, .valueFloat (isFloat_take hlen hpos)⟩
        | valueString =>
            cases hact
            have hbody : '\x00' ∉ (t.take n).tail.dropLast := fun hmem => hnul
              (List.mem_of_mem_take (List.mem_of_mem_tail (List.mem_of_mem_dropLast hmem)))
            exact .inr ⟨_, .valueString (not_mem_string hlen hpos) hbody⟩
        | _ => cases hact

/-- The names, strings and floats of texts. -/
def scanned (atof : Text → UInt32) : Lexicon where
  name := IsName
  string := fun text => '\'' ∉ text ∧ '\x00' ∉ text
  float := fun val => ∃ s, IsFloat s ∧ atof s = val

/-- The token carries a value. -/
def Token.valued : Token → Bool
  | .IDENTIFIER => true
  | .VALUE_STRING => true
  | .VALUE_INT => true
  | .VALUE_FLOAT => true
  | _ => false

theorem ok_of_not_valued {lex : Lexicon} {tok : Token} (v : Val (.terminal tok))
    (h : tok.valued = false) : lex.Ok (.terminal tok) v := by
  cases tok with
  | IDENTIFIER => cases h
  | VALUE_STRING => cases h
  | VALUE_FLOAT => cases h
  | _ => trivial

theorem tables_not_valued :
    (keywords ++ ops).all (fun k => !k.2.1.valued && decide (k.2.1 ≠ .T_EOF)) = true := by
  decide +kernel

theorem ok_of_spells {tok : Grammar.Token Val} (h : Spells atof tok s) :
    (scanned atof).Ok (.terminal tok.1) tok.2 := by
  have hplain {k : Text × Grammar.Token Val} (hk : k ∈ keywords ++ ops) :
      k.2.1.valued = false := by
    have hboth := List.all_eq_true.mp tables_not_valued k hk
    rw [Bool.and_eq_true, Bool.not_eq_true'] at hboth
    exact hboth.1
  cases h with
  | keyword hk => exact ok_of_not_valued _ (hplain (List.mem_append_left _ hk))
  | op hk => exact ok_of_not_valued _ (hplain (List.mem_append_right _ hk))
  | identifier hname => exact hname
  | valueInt => trivial
  | valueFloat hfloat => exact ⟨_, hfloat, rfl⟩
  | valueString hbody hnul => exact ⟨hbody, hnul⟩

theorem wordOk_of_reads {source source' : Scan} {w : Word}
    (h : LR.Reads (yylex atof) source w source') (hnul : '\x00' ∉ source.rest) :
    (scanned atof).WordOk w := by
  induction h with
  | nil => exact wordOk_nil
  | @cons source _ _ _ ih =>
      obtain ⟨htok, hrest⟩ := yylex_spelled atof source hnul
      apply wordOk_cons _ (ih hrest)
      rcases htok with heof | ⟨text, hspells⟩
      · rw [heof]
        trivial
      · exact ok_of_spells hspells

end Scanned

section Trees

variable {atof : Text → UInt32} {tree : TreeNode} {rest t : Text} {w : Word}

theorem isInt_ofInt (z : Int) : IsInt (Text.ofInt z) := by
  have hdigits : ∀ d ∈ Nat.toDigits 10 z.natAbs, d.isDigit = true :=
    fun d hd => Nat.isDigit_of_mem_toDigits (by omega) (by omega) hd
  rw [Text.ofInt]
  split
  next =>
    exact ⟨['-'], _, rfl, List.mem_cons_of_mem _ (List.mem_cons_of_mem _ List.mem_cons_self),
      Nat.toDigits_ne_nil, hdigits⟩
  next => exact ⟨[], _, rfl, List.mem_cons_self, Nat.toDigits_ne_nil, hdigits⟩

theorem atoi_ofInt (val : Int32) : atoi (Text.ofInt val.toInt) = val := by
  have hread : Text.readInt (Text.ofInt val.toInt ++ []) = some (val.toInt, []) :=
    Text.readInt_ofInt val.toInt fun c hc => nomatch hc
  have hlow := val.le_toInt
  have hhigh := val.toInt_lt
  rw [List.append_nil] at hread
  rw [atoi, hread, Option.map_some, Option.getD_some, min_eq_right (by omega),
    max_eq_right (by omega)]
  exact Int32.ofInt_toInt val

theorem eq_of_not_valued {tok : Token} (v v' : Val (.terminal tok)) (h : tok.valued = false) :
    v = v' := by
  cases tok with
  | IDENTIFIER => cases h
  | VALUE_STRING => cases h
  | VALUE_INT => cases h
  | VALUE_FLOAT => cases h
  | _ => rfl

theorem written_all : tokens.all (fun tok => tok.valued || decide (tok = .T_EOF) ||
    (keywords ++ ops).any fun k => decide (k.2.1 = tok)) = true := by
  decide +kernel

/-- A token as it is written down. A float has no such text. -/
def plainText : Grammar.Token Val → Text
  | ⟨.IDENTIFIER, v⟩ => v
  | ⟨.VALUE_INT, v⟩ => Text.ofInt (Int32.toInt v)
  | ⟨.VALUE_STRING, v⟩ => '\'' :: (v ++ ['\''])
  | ⟨tok, _⟩ => (((keywords ++ ops).find? fun k => k.2.1 = tok).map Prod.fst).getD []

/-- The first entry of the tables with the token. -/
theorem spells_find {tok : Token} (v : Val (.terminal tok)) (hvalued : tok.valued = false)
    (hne : tok ≠ .T_EOF) : Spells atof ⟨tok, v⟩
      ((((keywords ++ ops).find? fun k => k.2.1 = tok).map Prod.fst).getD []) := by
  have hall := List.all_eq_true.mp written_all tok (mem_tokens tok)
  rw [hvalued, Bool.false_or, Bool.or_eq_true, decide_eq_true_eq] at hall
  have hsome := List.find?_isSome.mpr (List.any_eq_true.mp (hall.resolve_left hne))
  obtain ⟨k, hfind⟩ := Option.isSome_iff_exists.mp hsome
  have htok := List.find?_some hfind
  rw [decide_eq_true_eq] at htok
  have hmem := List.mem_of_find?_eq_some hfind
  rw [hfind]
  obtain ⟨text, ⟨tok', v'⟩⟩ := k
  subst htok
  rw [eq_of_not_valued v v' hvalued]
  rcases List.mem_append.mp hmem with hk | hk
  · exact spells_keyword hk
  · exact .op hk

theorem spells_plainText {tok : Grammar.Token Val}
    (hok : (scanned atof).Ok (.terminal tok.1) tok.2) (hne : tok.1 ≠ .T_EOF)
    (hfloat : tok.1 ≠ .VALUE_FLOAT) : Spells atof tok (plainText tok) := by
  obtain ⟨tok, v⟩ := tok
  cases tok with
  | IDENTIFIER => exact .identifier hok
  | VALUE_STRING => exact .valueString hok.1 hok.2
  | VALUE_INT =>
      have hspells : Spells atof _ (Text.ofInt (Int32.toInt v)) := .valueInt (isInt_ofInt _)
      rw [atoi_ofInt] at hspells
      exact hspells
  | VALUE_FLOAT => exact absurd rfl hfloat
  | T_EOF => exact absurd rfl hne
  | _ => exact spells_find v rfl hne

/-- Every token that the scanner allows can be written. -/
theorem exists_spells {tok : Grammar.Token Val} (hok : (scanned atof).Ok (.terminal tok.1) tok.2)
    (hne : tok.1 ≠ .T_EOF) : ∃ s, Spells atof tok s := by
  by_cases hfloat : tok.1 = .VALUE_FLOAT
  · obtain ⟨tok, v⟩ := tok
    cases hfloat
    obtain ⟨s, hs, rfl⟩ := hok
    exact ⟨s, .valueFloat hs⟩
  · exact ⟨_, spells_plainText hok hne hfloat⟩

theorem grows_blank (tok : Token) : grows tok ' ' = false := by
  cases tok with
  | _ => rfl

/-- A word is written with a blank before every token. -/
theorem spelled_blanks {f : Grammar.Token Val → Text} (h : ∀ tok ∈ w, Spells atof tok (f tok)) :
    Spelled atof [] w (w.flatMap fun tok => ' ' :: f tok) := by
  induction w with
  | nil => exact .nil
  | cons tok w ih =>
      obtain ⟨hfirst, hrest⟩ := List.forall_mem_cons.mp h
      have hapart : Apart tok.1 (w.flatMap fun tok => ' ' :: f tok) := by
        intro c hc
        cases w with
        | nil => cases hc
        | cons tok' w =>
            cases hc
            exact grows_blank tok.1
      rw [List.flatMap_cons, List.cons_append]
      exact .cons (.blank (c := ' ') (.inl rfl) .nil) hfirst hapart (ih hrest)

theorem exists_spelled (hok : (scanned atof).WordOk w) (hne : ∀ tok ∈ w, tok.1 ≠ .T_EOF) :
    ∃ t, Spelled atof [] w t := by
  have hspells (tok : Grammar.Token Val) : ∃ s, tok ∈ w → Spells atof tok s := by
    by_cases hmem : tok ∈ w
    · obtain ⟨s, hs⟩ := exists_spells (hok tok hmem) (hne tok hmem)
      exact ⟨s, fun _ => hs⟩
    · exact ⟨[], fun h => absurd h hmem⟩
  choose f hf using hspells
  exact ⟨_, spelled_blanks hf⟩

/-- Only the rule 6 has `T_EOF`. -/
theorem rule_rhs : ∀ r < 69, (rule r).all (fun p => decide (r = 6) ||
    p.rhs.all fun X => decide (X ≠ Sql.t .T_EOF) && decide (X ≠ n .start)) = true := by
  decide +kernel

theorem rhs_of_rule {r : Nat} {p : Production Val} (hrule : rule r = some p) (hne : r ≠ 6) :
    ∀ X ∈ p.rhs, X ≠ Sql.t .T_EOF ∧ X ≠ n .start := by
  have hall := rule_rhs r (rule_lt hrule)
  rw [hrule, Option.all_some, Bool.or_eq_true, decide_eq_true_eq] at hall
  intro X hX
  have hboth := List.all_eq_true.mp (hall.resolve_left hne) X hX
  rw [Bool.and_eq_true, decide_eq_true_eq, decide_eq_true_eq] at hboth
  exact hboth

theorem symbols_of_rule {r : Nat} {p : Production Val} (hrule : rule r = some p) (hne : r ≠ 6)
    (vs : Vals Val p.rhs) : ∀ x ∈ vs.toList, x.1 ≠ Sql.t .T_EOF ∧ x.1 ≠ n .start := by
  intro x hx
  have hmem : x.1 ∈ p.rhs := vs.map_fst_toList ▸ List.mem_map_of_mem hx
  exact rhs_of_rule hrule hne x.1 hmem

/-- The end of the text belongs to no symbol below `start`. -/
theorem no_eof_of_derives {l : List (Valued Val)} (h : Derives rule l w)
    (hl : ∀ x ∈ l, x.1 ≠ Sql.t .T_EOF ∧ x.1 ≠ n .start) : ∀ tok ∈ w, tok.1 ≠ .T_EOF := by
  induction h with
  | nil => exact fun _ h => absurd h List.not_mem_nil
  | terminal tok v _ ih =>
      intro tok' htok
      rcases List.mem_cons.mp htok with rfl | htok
      · rintro rfl
        exact (hl _ List.mem_cons_self).1 rfl
      · exact ih (fun x hx => hl x (List.mem_cons_of_mem _ hx)) tok' htok
  | @rule l u w r p vs hrule _ _ ihu ihw =>
      have hne : r ≠ 6 := by
        rintro rfl
        cases hrule
        exact (hl _ List.mem_cons_self).2 rfl
      intro tok htok
      rcases List.mem_append.mp htok with htok | htok
      · exact ihu (symbols_of_rule hrule hne vs) tok htok
      · exact ihw (fun x hx => hl x (List.mem_cons_of_mem _ hx)) tok htok

theorem no_eof_of_tree (h : Derives rule [⟨.nonterminal .start, some tree⟩] w) :
    ∀ tok ∈ w, tok.1 ≠ .T_EOF := by
  obtain ⟨r, p, vs, hrule, heq, hvs⟩ := h.of_nonterminal
  have hne : r ≠ 6 := by
    rintro rfl
    cases hrule
    cases heq
  exact no_eof_of_derives hvs (symbols_of_rule hrule hne vs)

end Trees

end Sql

end RucDDBS
