import RucDDBS.Library.LRViable
import RucDDBS.Parser.Unparse

/-!
The syntax errors of `yyparse`. The parser stops at the first token with which no statement
can go on, although its tables reduce by default before they look at the token. The tokens
that its message names can all stand there.
-/

namespace RucDDBS

namespace Sql

open Ast Grammar

section Prefixes

variable {w : Word}

/-- Some statement begins with the tokens of `w`. -/
def Begins (w : Word) : Prop := ∃ u tree, Derives rule [⟨.nonterminal .start, tree⟩] (w ++ u)

theorem exists_value (tok : Token) : Nonempty (Val (.terminal tok)) := by
  cases tok with
  | IDENTIFIER => exact ⟨([] : Text)⟩
  | VALUE_STRING => exact ⟨([] : Text)⟩
  | VALUE_INT => exact ⟨(0 : Int32)⟩
  | VALUE_FLOAT => exact ⟨(0 : UInt32)⟩
  | _ => exact ⟨()⟩

/-- No restriction on the texts. -/
def anyText : Lexicon := ⟨fun _ => True, fun _ => True, fun _ => True⟩

theorem exists_nonterminal (A : Nonterminal) :
    ∃ v u, Derives rule [⟨.nonterminal A, v⟩] u := by
  have hcol := reads_col ⟨[], []⟩
  have hval := reads_value (.intLit 0)
  have htype : Reads .type ⟨.int, 4⟩ (typeTokens ⟨.int, 4⟩) := reads_type (.inr rfl)
  cases A with
  | start =>
      have hok : anyText.TreeOk .help := trivial
      exact ⟨_, _, reads_tree hok⟩
  | stmt =>
      have hok : anyText.StmtOk .txnBegin := trivial
      exact ⟨_, _, reads_stmt hok⟩
  | txnStmt =>
      exact ⟨.txnBegin, _, reads_rule (r := 11) rfl ((), ()) (reads_token ⟨.TXN_BEGIN, ()⟩ .nil) rfl⟩
  | dbStmt =>
      exact ⟨.showTables, _, reads_rule (r := 15) rfl ((), (), ())
        (reads_token ⟨.SHOW, ()⟩ (reads_token ⟨.TABLES, ()⟩ .nil)) rfl⟩
  | ddl =>
      exact ⟨.descTable [], _, reads_rule (r := 19) rfl ((), [], ())
        (reads_token ⟨.DESC, ()⟩ (reads_tbName [])) rfl⟩
  | paropt => exact ⟨none, _, reads_par nofun⟩
  | parlist => exact ⟨_, _, reads_parts (List.cons_ne_nil ⟨0⟩ [])⟩
  | part => exact ⟨_, _, reads_part ⟨0⟩⟩
  | dml =>
      exact ⟨.delete ⟨[], []⟩, _, reads_rule (r := 28) rfl ((), (), [], [], ())
        (reads_token ⟨.DELETE, ()⟩ (reads_token ⟨.FROM, ()⟩
          ((reads_tbName []).cons (reads_where [])))) rfl⟩
  | fieldList =>
      exact ⟨_, _, reads_fields (List.cons_ne_nil ⟨[], .int, 4⟩ [])
        (Lexicon.all_single (.inr rfl))⟩
  | field => exact ⟨⟨[], .int, 4⟩, _, reads_field (.inr rfl)⟩
  | type => exact ⟨_, _, htype⟩
  | valueList => exact ⟨_, _, reads_values (List.cons_ne_nil (.intLit 0) [])⟩
  | value => exact ⟨_, _, hval⟩
  | condition => exact ⟨_, _, reads_condition ⟨⟨[], []⟩, .eq, .val (.intLit 0)⟩⟩
  | optWhereClause => exact ⟨_, _, reads_where []⟩
  | whereClause =>
      exact ⟨_, _, reads_conds (List.cons_ne_nil ⟨⟨[], []⟩, .eq, .val (.intLit 0)⟩ [])⟩
  | col => exact ⟨_, _, hcol⟩
  | colList => exact ⟨_, _, reads_cols (List.cons_ne_nil ⟨[], []⟩ [])⟩
  | op => exact ⟨_, _, reads_op .eq⟩
  | expr => exact ⟨_, _, reads_expr (.val (.intLit 0))⟩
  | setClauses => exact ⟨_, _, reads_clauses (List.cons_ne_nil ⟨[], .intLit 0⟩ [])⟩
  | setClause => exact ⟨_, _, reads_clause ⟨[], .intLit 0⟩⟩
  | selector => exact ⟨_, _, reads_selector []⟩
  | tableList => exact ⟨_, _, reads_tables (List.cons_ne_nil [] [])⟩
  | tbName => exact ⟨_, _, reads_tbName []⟩
  | colName => exact ⟨_, _, reads_colName []⟩

theorem traced_check : certificate.tracedCheck rule .start 8 = true := by
  decide +kernel

theorem productive (X : Symbol Token Nonterminal) : ∃ v u, Derives rule [⟨X, v⟩] u := by
  cases X with
  | terminal tok =>
      obtain ⟨v⟩ := exists_value tok
      exact ⟨v, [⟨tok, v⟩], .terminal tok v .nil⟩
  | nonterminal A => exact exists_nonterminal A

theorem traced : LR.Traced rule .start certificate.edge fun q r d k =>
    (r, d) ∈ certificate.level rule .start q k :=
  (LR.Certificate.tracedChecked_of_check traced_check).traced checked.bottom
    (fun _ _ h => List.mem_range.mpr (rule_lt h)) productive

/-- No state is an error before a token is seen, and where one token is an error the tokens of
the message are shifted. -/
theorem expected_shifted : (∀ q < 139, quick q ≠ .error) ∧
    ∀ q < 139, quick q = .look → tokens.any (fun bad => decide (action q bad = .error)) = true →
      (expectedTokens q).all (fun tok => match action q tok with
        | .shift _ => true
        | _ => false) = true := by
  decide +kernel

end Prefixes

section Errors

variable {σ : Type} {yylex : σ → Grammar.Token Val × σ} {n : Nat} {source : σ}
  {parseTree : Option TreeNode} {slots : Nat → Junk} {junk : Junk}

theorem shift_of_expected {q : Nat} {bad tok : Token} (hq : q < 139) (hlook : quick q = .look)
    (hbad : action q bad = .error) (hmem : tok ∈ expectedTokens q) :
    ∃ q', action q tok = .shift q' := by
  have hany : tokens.any (fun bad => decide (action q bad = .error)) = true :=
    List.any_eq_true.mpr ⟨bad, mem_tokens bad, decide_eq_true hbad⟩
  have hall := List.all_eq_true.mp (expected_shifted.2 q hq hlook hany) tok hmem
  cases haction : action q tok with
  | shift q' => exact ⟨q', rfl⟩
  | reduce r =>
      rw [haction] at hall
      cases hall
  | error =>
      rw [haction] at hall
      cases hall

/-- A token that a stack shifts can stand behind what it has consumed. -/
theorem begins_of_shift {frames : List (LR.Frame Val)} {w : Word} {tok : Token} {q : Nat}
    (hpath : LR.Path certificate.edge frames) (hderives : Derives rule (LR.symbols frames) w)
    (hlook : quick (LR.top frames) = .look) (haction : action (LR.top frames) tok = .shift q) :
    ∃ v, Begins (w ++ [⟨tok, v⟩]) := by
  obtain ⟨v⟩ := exists_value tok
  have hedge := safe.shift _ _ _ (LR.live_top hpath) hlook haction
  have hpath' : LR.Path certificate.edge (⟨q, ⟨.terminal tok, v⟩⟩ :: frames) := ⟨hedge, hpath⟩
  refine ⟨v, traced.begins hpath' ?_⟩
  rw [LR.symbols_cons]
  exact hderives.snoc_terminal tok v

/-- An error is reported at the first token with which no statement can go on: what was read
before it begins a statement, and so it does with any of the expected tokens behind it. -/
theorem yyparse_error (hstops : LR.Stops yylex .T_EOF n source) {cy : Parser σ}
    (herror : yyparse yylex n slots junk source parseTree = some (.done 1 cy)) :
    ∃ w source', LR.Reads yylex source w source' ∧ Begins w ∧
      (∀ tok, tok.1 = (yylex source').1.1 → ¬ Begins (w ++ [tok])) ∧
      ∃ expected, cy.errors = [⟨some (yylex source').1.1, expected⟩] ∧
        ∀ tok ∈ expected, ∃ v, Begins (w ++ [⟨tok, v⟩]) := by
  have hreturns := yyloop_returns (rounds n) (refines_start slots junk source parseTree)
    (LR.reached_initial source : LR.Reached rule certificate.edge yylex source [] source _)
  rcases driver_halts hstops with ⟨tree, c', hrun, _⟩ | ⟨c', hrun, _⟩
  · rw [hrun] at hreturns
    obtain ⟨_, hout, cy', rfl, _⟩ := hreturns
    rw [yyparse, hout] at herror
    cases herror
  · rw [hrun] at hreturns
    obtain ⟨_, hout, cy', rfl, _, _, herrors⟩ := hreturns
    rw [yyparse, hout] at herror
    cases herror
    obtain ⟨w, source', hreached, hrefuses, hbegins, hnone⟩ :=
      safe.reject_early complete traced hrun
    have hlive := live_lt (LR.live_top hreached.path)
    obtain ⟨hlook, hahead, hbad⟩ := hrefuses.resolve_left (expected_shifted.1 _ hlive)
    refine ⟨w, source', hreached.reads, hbegins, ?_, expectedTokens (LR.top c'.frames), ?_, ?_⟩
    · rintro tok hkind ⟨u, tree, hderives⟩
      rw [List.append_assoc] at hderives
      exact hnone tok u tree hkind hderives
    · rw [herrors, hahead]
      rfl
    · intro tok hmem
      obtain ⟨q, haction⟩ := shift_of_expected hlive hlook hbad hmem
      exact begins_of_shift hreached.path hreached.derives hlook haction

theorem yyparse_error_drop :
    ∃ cy, yyparse fromList 2 (fun _ => ⟨0, 0, .eq⟩) ⟨0, 0, .eq⟩ [⟨.DROP, ()⟩, ⟨.SELECT, ()⟩] none =
        some (.done 1 cy) ∧
      ∃ w source', LR.Reads fromList [⟨.DROP, ()⟩, ⟨.SELECT, ()⟩] w source' ∧ Begins w ∧
        (∀ tok, tok.1 = (fromList source').1.1 → ¬ Begins (w ++ [tok])) ∧
        ∃ expected, cy.errors = [⟨some (fromList source').1.1, expected⟩] ∧
          ∀ tok ∈ expected, ∃ v, Begins (w ++ [⟨tok, v⟩]) := by
  have herror : ∃ cy, yyparse fromList 2 (fun _ => ⟨0, 0, .eq⟩) ⟨0, 0, .eq⟩
      [⟨.DROP, ()⟩, ⟨.SELECT, ()⟩] none = some (.done 1 cy) := ⟨_, rfl⟩
  obtain ⟨cy, herror⟩ := herror
  exact ⟨cy, herror, yyparse_error (stops_fromList [⟨.DROP, ()⟩, ⟨.SELECT, ()⟩]) herror⟩

end Errors

end Sql

end RucDDBS
