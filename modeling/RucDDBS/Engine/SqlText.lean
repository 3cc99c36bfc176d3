import RucDDBS.Engine.SqlSession
import RucDDBS.Parser.Spelling

/-!
Statements as the texts that a client sends. `Sql_execute_client` hands a text to the
scanner, as a C string, parses it and takes the branch of its tree. The scanner keeps its
start condition from one text to the next, for all sessions of the server: a comment that is
not closed takes what follows it in the text, and then the texts that follow.
-/

namespace RucDDBS

namespace Sql

open Ast Grammar Scanning

section Parsing

variable (atof : Text → UInt32)

/-- `parser_sql` passes `str.c_str()` on. -/
def parserSql (start : StartCondition) (str : Text) : Scan := yyScanString start str

/-- `yyparse` on what the scanner has before it. -/
def parseText (slots : Nat → Junk) (junk : Junk) (source : Scan) (parseTree : Option TreeNode) :
    Option (Step Scan) :=
  yyparse (yylex atof) source.rest.length slots junk source parseTree

variable {atof} {slots : Nat → Junk} {junk : Junk} {source source' : Scan}
  {tree : TreeNode} {res parseTree : Option TreeNode} {w : Word} {text rest : Text}

theorem stops_scan {n : Nat} (h : source.rest.length ≤ n) :
    LR.Stops (yylex atof) .T_EOF n source := by
  induction n generalizing source with
  | zero =>
      have hnil := List.eq_nil_of_length_eq_zero (Nat.le_zero.mp h)
      obtain ⟨q, _⟩ := source
      subst hnil
      exact congrArg (fun r => r.1.1) (next_nil (S := scanner atof) q)
  | succ n ih =>
      rcases next_shorter (S := scanner atof) source with ⟨heof, _⟩ | hlt
      · exact .inl (congrArg Sigma.fst heof)
      · exact .inr (ih (Nat.le_of_lt_succ (Nat.lt_of_lt_of_le hlt h)))

theorem parseText_iff : Parses (yylex atof) source res source' ↔
    ∃ cy, parseText atof slots junk source parseTree = some (.done 0 cy) ∧
      cy.parseTree = res ∧ cy.source = source' ∧ cy.errors = [] :=
  yyparse_iff (stops_scan (Nat.le_refl _))

theorem parses_spelled (hok : (scanned atof).TreeOk tree)
    (hspelled : Spelled atof rest (treeTokens tree) text) :
    Parses (yylex atof) (parserSql .INITIAL text) (some tree) (parserSql .INITIAL rest) :=
  ⟨treeTokens tree, reads_tree hok, reads_of_spelled hspelled.cStr⟩

/-- However a well-formed tree is written, it is parsed from its text, and the rest of the text,
up to its first NUL, is left alone. -/
theorem text_round_trip (hok : (scanned atof).TreeOk tree)
    (hspelled : Spelled atof rest (treeTokens tree) text) :
    ∃ cy, parseText atof slots junk (parserSql .INITIAL text) parseTree = some (.done 0 cy) ∧
      cy.parseTree = some tree ∧ cy.source = parserSql .INITIAL rest ∧ cy.errors = [] :=
  parseText_iff.mp (parses_spelled hok hspelled)

theorem isName_t : IsName ['t'] := by
  refine ⟨⟨'t', [], rfl, rfl, fun d hd => absurd hd List.not_mem_nil⟩, ?_⟩
  decide +kernel

/-- `desc  t;` -/
theorem spelled_desc (rest : Text) :
    Spelled (fun _ => 0) rest (treeTokens (.descTable ['t'])) ("desc  t;".toList ++ rest) := by
  have hdesc : Spells (fun _ => 0) ⟨.DESC, ()⟩ "desc".toList :=
    .keyword (k := ("DESC".toList, ⟨.DESC, ()⟩)) (by simp [keywords])
      (isWord_of_all (by decide) (by decide)) (by decide)
  have hsemicolon : Spells (fun _ => 0) ⟨.semicolon, ()⟩ ";".toList :=
    .op (k := (";".toList, ⟨.semicolon, ()⟩)) (by simp [ops])
  have hgap : Gap "  ".toList := .blank (.inl rfl) (.blank (.inl rfl) .nil)
  have hapart {tok : Token} {c : Char} {t : Text} (h : grows tok c = false) : Apart tok (c :: t) := by
    intro d hd
    cases hd
    exact h
  exact .cons .nil hdesc (hapart rfl) (.cons hgap (.identifier isName_t) (hapart rfl)
    (.cons .nil hsemicolon (fun _ _ => rfl) .nil))

theorem text_round_trip_desc : ∃ cy, parseText (fun _ => 0) (fun _ => ⟨0, 0, .eq⟩) ⟨0, 0, .eq⟩
      (parserSql .INITIAL "desc  t; help".toList) none = some (.done 0 cy) ∧
    cy.parseTree = some (.descTable ['t']) ∧ cy.source = parserSql .INITIAL " help".toList ∧
    cy.errors = [] :=
  text_round_trip isName_t (spelled_desc " help".toList)

/-- The trees that texts are parsed to are exactly the well-formed ones. -/
theorem parsed_trees (slots : Nat → Junk) (junk : Junk) (parseTree : Option TreeNode) :
    (scanned atof).TreeOk tree ↔ ∃ text cy,
      parseText atof slots junk (parserSql .INITIAL text) parseTree = some (.done 0 cy) ∧
        cy.parseTree = some tree := by
  constructor
  · intro hok
    have hreads := reads_tree hok
    obtain ⟨text, hspelled⟩ := exists_spelled (wordOk_treeTokens hok) (no_eof_of_tree hreads)
    obtain ⟨cy, hout, htree, _⟩ : ∃ cy, parseText atof slots junk (parserSql .INITIAL text)
        parseTree = some (.done 0 cy) ∧ _ := parseText_iff.mp (parses_spelled hok hspelled)
    exact ⟨text, cy, hout, htree⟩
  · rintro ⟨text, cy, hout, htree⟩
    obtain ⟨w, hderives, hreads⟩ := parses_of_done (stops_scan (Nat.le_refl _)) hout
    rw [htree] at hderives
    exact (treeOk_iff tree).mpr ⟨w, wordOk_of_reads hreads (not_mem_cStr text), hderives⟩

end Parsing

section Sessions

variable (atof : Text → UInt32) (self : IpPort)

/-- The branch of `Sql_execute_client` for a tree. Some statements have none. -/
def branch : Option TreeNode → SqlSession.Sql
  | some .showTables => .showTables
  | some .showPartitions => .showPartitions
  | some (.explain _) => .explain
  | some (.select _) => .select
  | some (.createTable _ _ _) => .createTable
  | some (.insert _) => .insert
  | some (.delete _) => .delete
  | some (.update _) => .update
  | some .txnBegin => .txnBegin
  | some .txnCommit => .txnCommit
  | some .txnAbort => .txnAbort
  | _ => .unparsed

/-- A text of the client, with the timestamp that the oracle would give for it, and what the
stacks of the parser happen to hold. -/
structure Request where
  text : Text
  reply : TimestampReply
  slots : Nat → Junk
  junk : Junk

/-- A session with the start condition of the scanner and the global `parse_tree`. -/
structure Front where
  session : SqlSession.State
  start : StartCondition
  parseTree : Option TreeNode

/-- `Sql_execute_client` on a text. A release build prints nothing where there is no tree; the
assertion of the printer is off. -/
def sqlExecuteText (s : Front) (request : Request) : Front × List SqlSession.ManagerCall :=
  match parseText atof request.slots request.junk (parserSql s.start request.text) s.parseTree with
  | some (.done 0 cy) =>
      let (session, calls) :=
        SqlSession.sqlExecuteClient self s.session request.reply (branch cy.parseTree)
      (⟨session, cy.source.start, cy.parseTree⟩, calls)
  | some (.done _ cy) => (⟨s.session, cy.source.start, cy.parseTree⟩, [])
  | _ => (s, [])

/-- One text after the other, with all calls that are made. -/
def sqlExecuteAll (s : Front) : List Request → Front × List SqlSession.ManagerCall
  | [] => (s, [])
  | request :: requests =>
      let (s, calls) := sqlExecuteText atof self s request
      let (s, more) := sqlExecuteAll s requests
      (s, calls ++ more)

variable {atof self} {s : Front} {request : Request} {requests : List Request} {tree : TreeNode}
  {g body rest : Text}

theorem sqlExecuteText_of_parses {res : Option TreeNode} {source' : Scan}
    (h : Parses (yylex atof) (parserSql s.start request.text) res source') :
    sqlExecuteText atof self s request =
      (⟨(SqlSession.sqlExecuteClient self s.session request.reply (branch res)).1, source'.start,
        res⟩, (SqlSession.sqlExecuteClient self s.session request.reply (branch res)).2) := by
  obtain ⟨cy, hout, rfl, rfl, _⟩ : ∃ cy, parseText atof request.slots request.junk
      (parserSql s.start request.text) s.parseTree = some (.done 0 cy) ∧ _ :=
    parseText_iff.mp h
  rw [sqlExecuteText, hout]
  rfl

/-- However a statement is written, the branch of its tree is executed, once, and what follows
it in the text has no effect. -/
theorem statement_executed (hinitial : s.start = .INITIAL) (hok : (scanned atof).TreeOk tree)
    (hspelled : Spelled atof rest (treeTokens tree) request.text) :
    sqlExecuteText atof self s request =
      (⟨(SqlSession.sqlExecuteClient self s.session request.reply (branch (some tree))).1, .INITIAL,
        some tree⟩,
        (SqlSession.sqlExecuteClient self s.session request.reply (branch (some tree))).2) := by
  have hparses : Parses (yylex atof) (parserSql s.start request.text) (some tree)
      (parserSql .INITIAL rest) := by
    rw [hinitial]
    exact parses_spelled hok hspelled
  exact sqlExecuteText_of_parses hparses

theorem statement_executed_desc :
    sqlExecuteText (fun _ => 0) ⟨"0.0.0.0", 8005⟩ ⟨SqlSession.connect (fun _ => none) 0, .INITIAL, none⟩
      ⟨"desc  t; help".toList, .answered 1, fun _ => ⟨0, 0, .eq⟩, ⟨0, 0, .eq⟩⟩ =
    (⟨SqlSession.connect (fun _ => none) 0, .INITIAL, some (.descTable ['t'])⟩, []) :=
  have hok : (scanned fun _ => 0).TreeOk (.descTable ['t']) := isName_t
  statement_executed rfl hok (spelled_desc " help".toList)

/-- The end of the text is a statement without a tree. -/
theorem parses_eof {source source' : Scan}
    (h : yylex atof source = (⟨.T_EOF, ()⟩, source')) : Parses (yylex atof) source none source' := by
  have hreads : LR.Reads (yylex atof) source [(yylex atof source).1] (yylex atof source).2 :=
    .cons (.nil _)
  rw [h] at hreads
  exact ⟨_, reads_rule (r := 6) rfl ((), ()) (reads_token ⟨.T_EOF, ()⟩ .nil) rfl, hreads⟩

theorem sqlExecuteText_of_eof {q : StartCondition}
    (h : yylex atof (parserSql s.start request.text) = (⟨.T_EOF, ()⟩, ⟨q, []⟩)) :
    sqlExecuteText atof self s request = (⟨s.session, q, none⟩, []) :=
  sqlExecuteText_of_parses (parses_eof h)

/-- While a comment is open every text without its end is taken for the comment. -/
theorem sqlExecuteAll_open (hopen : s.start = .STATE_COMMENT)
    (hrequests : ∀ request ∈ requests, ¬ HasEnd (cStr request.text)) :
    (sqlExecuteAll atof self s requests).2 = [] ∧
      (sqlExecuteAll atof self s requests).1.session = s.session ∧
      (sqlExecuteAll atof self s requests).1.start = .STATE_COMMENT := by
  induction requests generalizing s with
  | nil => exact ⟨rfl, rfl, hopen⟩
  | cons request requests ih =>
      have hone : sqlExecuteText atof self s request = (⟨s.session, .STATE_COMMENT, none⟩, []) := by
        apply sqlExecuteText_of_eof
        rw [hopen]
        exact yylex_open_comment (hrequests request List.mem_cons_self)
      obtain ⟨hcalls, hsession, hstart⟩ := ih (s := ⟨s.session, .STATE_COMMENT, none⟩) rfl
        fun request hmem => hrequests request (List.mem_cons_of_mem _ hmem)
      rw [sqlExecuteAll, hone]
      exact ⟨hcalls, hsession, hstart⟩

/-- After a text with an unclosed comment at its front no statement of any later text is
executed until a text closes the comment. -/
theorem open_comment_swallows (hinitial : s.start = .INITIAL) (hgap : Gap g)
    (hbody : ¬ HasEnd (cStr body)) (htext : request.text = g ++ '/' :: '*' :: body)
    (hrequests : ∀ request ∈ requests, ¬ HasEnd (cStr request.text)) :
    (sqlExecuteAll atof self s (request :: requests)).2 = [] ∧
      (sqlExecuteAll atof self s (request :: requests)).1.session = s.session ∧
      (sqlExecuteAll atof self s (request :: requests)).1.start = .STATE_COMMENT := by
  have hmatch : (scanner atof).match? ⟨.INITIAL, '/' :: '*' :: cStr body⟩ =
      some (.blockComment, 2) := match_cons '/' _
  have hblock : yylex atof ⟨.INITIAL, '/' :: '*' :: cStr body⟩ =
      yylex atof ⟨.STATE_COMMENT, cStr body⟩ :=
    next_start (S := scanner atof) (List.cons_ne_nil _ _) hmatch rfl
  have hcut : cStr request.text = g ++ '/' :: '*' :: cStr body := by
    rw [htext, cStr_append (not_mem_of_gap hgap)]
    rfl
  have hone : sqlExecuteText atof self s request = (⟨s.session, .STATE_COMMENT, none⟩, []) := by
    apply sqlExecuteText_of_eof
    rw [parserSql, yyScanString, hinitial, hcut, yylex_gap hgap, hblock]
    exact yylex_open_comment hbody
  rw [sqlExecuteAll, hone]
  exact sqlExecuteAll_open (s := ⟨s.session, .STATE_COMMENT, none⟩) rfl hrequests

theorem open_comment_swallows_commit :
    let s : Front := ⟨SqlSession.connect (fun _ => none) 0, .INITIAL, none⟩
    let open_ : Request := ⟨"/* no end".toList, .answered 1, fun _ => ⟨0, 0, .eq⟩, ⟨0, 0, .eq⟩⟩
    let insert : Request := ⟨"insert into t values(1);".toList, .answered 2,
      fun _ => ⟨0, 0, .eq⟩, ⟨0, 0, .eq⟩⟩
    (sqlExecuteAll (fun _ => 0) ⟨"0.0.0.0", 8005⟩ s [open_, insert]).2 = [] ∧
      (sqlExecuteAll (fun _ => 0) ⟨"0.0.0.0", 8005⟩ s [open_, insert]).1.session = s.session ∧
      (sqlExecuteAll (fun _ => 0) ⟨"0.0.0.0", 8005⟩ s [open_, insert]).1.start = .STATE_COMMENT :=
  have hbody : ¬ HasEnd (cStr " no end".toList) := by decide
  open_comment_swallows rfl .nil hbody rfl (by simp only [List.forall_mem_cons]; decide)

end Sessions

end Sql

end RucDDBS
