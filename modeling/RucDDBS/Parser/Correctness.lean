import RucDDBS.Parser.Refinement

/-!
`yyparse` against the grammar. From every source of tokens that comes to an end it returns 0
or 1. It returns 0 exactly if the tokens begin with a statement of `yacc.y`; then the tree
is the value of the statement, and not a token behind it has been read.
-/

namespace RucDDBS

namespace Sql

open Ast Grammar

variable {σ : Type} (yylex : σ → Grammar.Token Val × σ)

section Specification

/-- The tokens from `source` to `source'` are a statement, and `tree` is its tree. -/
def Parses (source : σ) (tree : Option TreeNode) (source' : σ) : Prop :=
  ∃ w, Derives rule [⟨.nonterminal .start, tree⟩] w ∧ LR.Reads yylex source w source'

/-- Enough rounds of `yybackup` if the token `T_EOF` comes after at most `n` others. -/
def rounds (n : Nat) : Nat := (certificate.heaviest + 1) * (n + 1) + 1

/-- `yyparse` on a source with at most `n` tokens before a `T_EOF`. The global `parse_tree`
is what an earlier call left, and the slots of the stack hold junk. -/
def yyparse (n : Nat) (slots : Nat → Junk) (junk : Junk) (source : σ)
    (parseTree : Option TreeNode) : Option (Step σ) :=
  yyloop yylex (rounds n) (yystart slots junk source parseTree)

/-- A list of tokens as a source, with `T_EOF` behind it. -/
def fromList : List (Grammar.Token Val) → Grammar.Token Val × List (Grammar.Token Val)
  | [] => (⟨.T_EOF, ()⟩, [])
  | tok :: rest => (tok, rest)

theorem reads_fromList (w rest : List (Grammar.Token Val)) :
    LR.Reads fromList (w ++ rest) w rest := by
  induction w with
  | nil => exact .nil rest
  | cons tok w ih => exact .cons ih

theorem stops_fromList (w : List (Grammar.Token Val)) :
    LR.Stops fromList .T_EOF w.length w := by
  induction w with
  | nil => rfl
  | cons tok w ih => exact .inr ih

end Specification

section Runs

variable {yylex} {cy : Parser σ} {c : LR.Config Val σ} {s₀ s : σ} {w : List (Grammar.Token Val)}

/-- What `yyparse` returns when the driver has come to its end. -/
def Returns (cy : Parser σ) :
    Option (LR.Halt Val .start × LR.Config Val σ) → Option (Step σ) → Prop
  | none, out => out = none
  | some (h, c), out => ∃ step, out = some step ∧ Agrees cy (.halt h c) step

theorem returns_of_eq {cy' : Parser σ} {res : Option (LR.Halt Val .start × LR.Config Val σ)}
    {out : Option (Step σ)} (h : Returns cy' res out) (htree : cy'.parseTree = cy.parseTree)
    (herrors : cy'.errors = cy.errors) : Returns cy res out := by
  cases res with
  | none => exact h
  | some res =>
      obtain ⟨step, hout, hagrees⟩ := h
      exact ⟨step, hout, hagrees.of_eq htree herrors⟩

theorem yyloop_returns (fuel : Nat) (href : Refines cy c)
    (hreached : LR.Reached rule certificate.edge yylex s₀ w s c) :
    Returns cy (LR.run rule .start tables yylex fuel c) (yyloop yylex fuel cy) := by
  induction fuel generalizing cy c w s with
  | zero => rfl
  | succ fuel ih =>
      have hagrees := yybackup_agrees yylex href hreached.path
      have hmoves := safe.step_moves hreached.path hreached.ahead
      rw [LR.run, yyloop]
      cases hstep : LR.step rule .start tables yylex c with
      | next c' =>
          rw [hstep] at hagrees hmoves
          obtain ⟨cy', hnext, href', htree, herrors⟩ := hagrees
          obtain ⟨w', s', hreached'⟩ := hreached.step hmoves
          rw [hnext]
          exact returns_of_eq (ih href' hreached') htree herrors
      | halt h c' =>
          rw [hstep] at hagrees
          refine ⟨_, ?_, hagrees⟩
          cases h with
          | accept tree =>
              obtain ⟨cy', hdone, _⟩ := hagrees
              rw [hdone]
          | reject =>
              obtain ⟨cy', hdone, _⟩ := hagrees
              rw [hdone]
          | stuck => exact hagrees.elim

theorem refines_start (slots : Nat → Junk) (junk : Junk) (source : σ)
    (parseTree : Option TreeNode) :
    Refines (yystart slots junk source parseTree) (LR.initial source) where
  height := rfl
  stack := rfl
  source := rfl
  ahead := rfl
  scanned := ⟨rfl, rfl⟩
  clean := .inl fun _ => ⟨rfl, rfl⟩

end Runs

section Outcome

theorem complete : LR.Complete rule .start tables certificate.item certificate.Nullable
    certificate.First :=
  checked.complete mem_tokens fun _ _ h => List.mem_range.mpr (rule_lt h)

/-- A start production ends in a token, and its state does not ask for another one. -/
theorem start_productions : (∀ r < 69, (rule r).all (fun p => decide (p.lhs ≠ .start) ||
      p.rhs.getLast?.any fun X => tokens.any fun tok => decide (X = t tok)) = true) ∧
    (∀ q < 139, (rule (yydefault q)).any (fun p => decide (p.lhs = .start)) = true →
      quick q = .reduce (yydefault q)) ∧
    ∀ yyn ∈ yytable, yyn ≤ 0 →
      (rule (-yyn).toNat).all (fun p => decide (p.lhs ≠ .start)) = true := by
  decide +kernel

theorem eager : LR.Eager rule .start tables certificate.edge := by
  intro q r p hq hreduces hrule hstart
  obtain ⟨hlast, hquick, hnever⟩ := start_productions
  constructor
  · rcases eq_default_of_reduces hreduces with rfl | ⟨yyn, hmem, hle, rfl⟩
    · apply hquick q (live_lt hq)
      rw [hrule, Option.any_some, hstart]
      rfl
    · have hother := hnever yyn hmem hle
      rw [hrule, Option.all_some, decide_eq_true_eq] at hother
      exact absurd hstart hother
  · have hterminal := hlast r (rule_lt hrule)
    rw [hrule, Option.all_some, Bool.or_eq_true, decide_eq_true_eq] at hterminal
    obtain ⟨X, hX, hany⟩ := (Option.any_eq_true _ _).mp (hterminal.resolve_left fun h => h hstart)
    obtain ⟨tok, _, heq⟩ := List.any_eq_true.mp hany
    exact ⟨tok, by rw [hX, of_decide_eq_true heq]⟩

variable {yylex} {n : Nat} {source source' : σ} {tree parseTree : Option TreeNode}
  {slots : Nat → Junk} {junk : Junk}

/-- How the driver ends on a source that comes to an end. -/
theorem driver_halts (hstops : LR.Stops yylex .T_EOF n source) :
    (∃ tree c', LR.run rule .start tables yylex (rounds n) (LR.initial source) =
      some (.accept tree, c') ∧ c'.ahead = none ∧ Parses yylex source tree c'.source) ∨
    ∃ c', LR.run rule .start tables yylex (rounds n) (LR.initial source) = some (.reject, c') ∧
      ∀ tree source', ¬ Parses yylex source tree source' := by
  have hreached : LR.Reached rule certificate.edge yylex source [] source (LR.initial source) :=
    LR.reached_initial source
  obtain ⟨h, c', hrun⟩ : ∃ h c', LR.run rule .start tables yylex (rounds n) (LR.initial source) =
      some (h, c') :=
    safe.run_ends (fun _ => checked.heaviest) checked.endsAt trivial (LR.at_none [] source) hstops
      (Nat.le_of_eq (congrArg (· + 1) (Nat.zero_add _)))
  obtain ⟨w, s', hreads, hat, hsound⟩ := safe.run_sound hreached hrun
  cases h with
  | accept tree =>
      have hahead := safe.run_fresh eager hreached (LR.fresh_initial source) hrun
      refine .inl ⟨tree, c', hrun, hahead, w, hsound, ?_⟩
      rcases hat with ⟨_, hsource⟩ | ⟨tok, hsome, _⟩
      · rw [hsource]
        exact hreads
      · rw [hahead] at hsome
        cases hsome
  | reject =>
      refine .inr ⟨c', hrun, ?_⟩
      rintro tree source' ⟨w, hderives, hreads⟩
      obtain ⟨fuel, c'', _, haccept⟩ := complete.accepts hderives hreads
      have hboth := LR.run_mono haccept (Nat.le_max_left fuel (rounds n))
      rw [LR.run_mono hrun (Nat.le_max_right fuel (rounds n))] at hboth
      cases hboth
  | stuck => exact hsound.elim

/-- `yyparse` returns 0 with the tree of a statement, or 1 where the tokens begin with none;
and then it has reported one error. -/
theorem yyparse_returns (hstops : LR.Stops yylex .T_EOF n source) :
    ∃ res cy, yyparse yylex n slots junk source parseTree = some (.done res cy) ∧
      ((res = 0 ∧ Parses yylex source cy.parseTree cy.source ∧ cy.errors = []) ∨
        (res = 1 ∧ (∀ tree source', ¬ Parses yylex source tree source') ∧
          cy.parseTree = parseTree ∧ cy.errors.length = 1)) := by
  have hreturns := yyloop_returns (rounds n) (refines_start slots junk source parseTree)
    (LR.reached_initial source : LR.Reached rule certificate.edge yylex source [] source _)
  rcases driver_halts hstops with ⟨tree, c', hrun, hahead, hparses⟩ | ⟨c', hrun, hnone⟩
  · rw [hrun] at hreturns
    obtain ⟨_, hout, cy, rfl, href, rfl, herrors⟩ := hreturns
    rw [← href.source] at hparses
    exact ⟨0, cy, hout, .inl ⟨rfl, hparses, herrors⟩⟩
  · rw [hrun] at hreturns
    obtain ⟨_, hout, cy, rfl, _, htree, herrors⟩ := hreturns
    refine ⟨1, cy, hout, .inr ⟨rfl, hnone, htree, ?_⟩⟩
    rw [herrors]
    rfl

/-- The driver accepts what is a statement, and stops right behind it. -/
theorem accepts_of_parses (h : Parses yylex source tree source') :
    ∃ fuel c', LR.run rule .start tables yylex fuel (LR.initial source) =
      some (.accept tree, c') ∧ c'.ahead = none ∧ c'.source = source' := by
  obtain ⟨w, hderives, hreads⟩ := h
  obtain ⟨fuel, c', hat, hrun⟩ := complete.accepts hderives hreads
  have hreached : LR.Reached rule certificate.edge yylex source [] source (LR.initial source) :=
    LR.reached_initial source
  have hahead := safe.run_fresh eager hreached (LR.fresh_initial source) hrun
  refine ⟨fuel, c', hrun, hahead, ?_⟩
  rcases hat with ⟨_, hsource⟩ | ⟨tok, hsome, _⟩
  · exact hsource
  · rw [hahead] at hsome
    cases hsome

theorem parses_unique {tree₁ tree₂ : Option TreeNode} {source₁ source₂ : σ}
    (h₁ : Parses yylex source tree₁ source₁) (h₂ : Parses yylex source tree₂ source₂) :
    tree₁ = tree₂ ∧ source₁ = source₂ := by
  obtain ⟨fuel₁, c₁, hrun₁, _, rfl⟩ := accepts_of_parses h₁
  obtain ⟨fuel₂, c₂, hrun₂, _, rfl⟩ := accepts_of_parses h₂
  have hboth := LR.run_mono hrun₁ (Nat.le_max_left fuel₁ fuel₂)
  rw [LR.run_mono hrun₂ (Nat.le_max_right fuel₁ fuel₂)] at hboth
  cases hboth
  exact ⟨rfl, rfl⟩

/-- Where `yyparse` returns 0 it has read a statement. -/
theorem parses_of_done (hstops : LR.Stops yylex .T_EOF n source) {cy : Parser σ}
    (h : yyparse yylex n slots junk source parseTree = some (.done 0 cy)) :
    Parses yylex source cy.parseTree cy.source := by
  obtain ⟨res, cy', hout, hcases⟩ : ∃ res cy, yyparse yylex n slots junk source parseTree =
      some (.done res cy) ∧ _ := yyparse_returns hstops
  rw [h] at hout
  cases hout
  rcases hcases with ⟨_, hown, _⟩ | ⟨hone, _⟩
  · exact hown
  · cases hone

/-- A statement is parsed to its tree, and the source is left right behind it. -/
theorem yyparse_iff (hstops : LR.Stops yylex .T_EOF n source) :
    Parses yylex source tree source' ↔
      ∃ cy, yyparse yylex n slots junk source parseTree = some (.done 0 cy) ∧
        cy.parseTree = tree ∧ cy.source = source' ∧ cy.errors = [] := by
  constructor
  · intro hparses
    obtain ⟨res, cy, hout, hcases⟩ : ∃ res cy, yyparse yylex n slots junk source parseTree =
        some (.done res cy) ∧ _ := yyparse_returns hstops
    rcases hcases with ⟨rfl, hown, herrors⟩ | ⟨_, hnone, _⟩
    · obtain ⟨htree, hsource⟩ := parses_unique hown hparses
      exact ⟨cy, hout, htree, hsource, herrors⟩
    · exact absurd hparses (hnone tree source')
  · rintro ⟨cy, hout, rfl, rfl, _⟩
    exact parses_of_done hstops hout

/-- `yyparse` returns 0 exactly on the statements of the grammar, with the value of the
statement in `parse_tree` and the source right behind it. On everything else it returns 1,
with one error and `parse_tree` as it was. -/
theorem yyparse_correct (hstops : LR.Stops yylex .T_EOF n source) :
    (∀ tree source', Parses yylex source tree source' ↔
      ∃ cy, yyparse yylex n slots junk source parseTree = some (.done 0 cy) ∧
        cy.parseTree = tree ∧ cy.source = source' ∧ cy.errors = []) ∧
    ((∀ tree source', ¬ Parses yylex source tree source') ↔
      ∃ cy, yyparse yylex n slots junk source parseTree = some (.done 1 cy) ∧
        cy.parseTree = parseTree ∧ cy.errors.length = 1) := by
  refine ⟨fun tree source' => yyparse_iff hstops, ?_⟩
  obtain ⟨res, cy, hout, hcases⟩ : ∃ res cy, yyparse yylex n slots junk source parseTree =
      some (.done res cy) ∧ _ := yyparse_returns hstops
  constructor
  · intro hnone
    rcases hcases with ⟨_, hown, _⟩ | ⟨rfl, _, htree, herrors⟩
    · exact absurd hown (hnone _ _)
    · exact ⟨cy, hout, htree, herrors⟩
  · rintro ⟨cy', hout', _⟩
    rw [hout] at hout'
    cases hout'
    rcases hcases with ⟨hzero, _⟩ | ⟨_, hnone, _⟩
    · cases hzero
    · exact hnone

/-- `create table t(a int, b float) partition by range(a)(partition less than(5),
partition less than(9));` -/
def createTokens : List (Grammar.Token Val) :=
  [⟨.CREATE, ()⟩, ⟨.TABLE, ()⟩, ⟨.IDENTIFIER, ['t']⟩, ⟨.lparen, ()⟩, ⟨.IDENTIFIER, ['a']⟩,
    ⟨.INT, ()⟩, ⟨.comma, ()⟩, ⟨.IDENTIFIER, ['b']⟩, ⟨.FLOAT, ()⟩, ⟨.rparen, ()⟩,
    ⟨.PARTITION, ()⟩, ⟨.BY, ()⟩, ⟨.RANGE, ()⟩, ⟨.lparen, ()⟩, ⟨.IDENTIFIER, ['a']⟩,
    ⟨.rparen, ()⟩, ⟨.lparen, ()⟩, ⟨.PARTITION, ()⟩, ⟨.LESS, ()⟩, ⟨.THAN, ()⟩, ⟨.lparen, ()⟩,
    ⟨.VALUE_INT, 5⟩, ⟨.rparen, ()⟩, ⟨.comma, ()⟩, ⟨.PARTITION, ()⟩, ⟨.LESS, ()⟩, ⟨.THAN, ()⟩,
    ⟨.lparen, ()⟩, ⟨.VALUE_INT, 9⟩, ⟨.rparen, ()⟩, ⟨.rparen, ()⟩, ⟨.semicolon, ()⟩]

def createTree : TreeNode :=
  .createTable ['t'] [⟨['a'], ⟨.int, 4⟩⟩, ⟨['b'], ⟨.float, 4⟩⟩] (some ⟨['a'], [⟨5⟩, ⟨9⟩]⟩)

theorem yyparse_correct_create :
    (∃ cy, yyparse fromList 32 (fun _ => ⟨0, 0, .eq⟩) ⟨0, 0, .eq⟩ createTokens none =
        some (.done 0 cy) ∧
      cy.parseTree = some createTree ∧ cy.source = [] ∧ cy.errors = []) ∧
    Parses fromList createTokens (some createTree) [] := by
  have hdone : ∃ cy, yyparse fromList 32 (fun _ => ⟨0, 0, .eq⟩) ⟨0, 0, .eq⟩ createTokens none =
        some (.done 0 cy) ∧
      cy.parseTree = some createTree ∧ cy.source = [] ∧ cy.errors = [] :=
    ⟨_, rfl, rfl, rfl, rfl⟩
  have hparses : Parses fromList createTokens (some createTree) [] :=
    ((yyparse_correct (stops_fromList createTokens)).1 (some createTree) []).mpr hdone
  exact ⟨hdone, hparses⟩

end Outcome

section Grammar

theorem reads_token (tok : Grammar.Token Val) {l : List (Valued Val)}
    {w : List (Grammar.Token Val)} (h : Derives rule l w) :
    Derives rule (⟨.terminal tok.1, tok.2⟩ :: l) (tok :: w) :=
  .terminal tok.1 tok.2 h

end Grammar

section Stack

/-- `yyparse` comes from one `yybackup` to another. -/
inductive Passes : Parser σ → Parser σ → Prop
  | refl (cy : Parser σ) : Passes cy cy
  | tail {cy cy' cy'' : Parser σ} : Passes cy cy' → yybackup yylex cy' = .next cy'' →
      Passes cy cy''

/-- The rule that `yybackup` is about to reduce. -/
def AboutToReduce (cy : Parser σ) (yyn : Nat) : Prop :=
  quick (cy.yyss cy.yyssp) = .reduce yyn ∨ quick (cy.yyss cy.yyssp) = .look ∧
    action (cy.yyss cy.yyssp) (readToken yylex cy).1 = .reduce yyn

/-- The parser after so many rounds, if it has not returned by then. -/
def yyrounds (cy : Parser σ) : Nat → Option (Parser σ)
  | 0 => some cy
  | n + 1 => (yyrounds cy n).bind fun cy =>
      match yybackup yylex cy with
      | .next cy => some cy
      | _ => none

variable {yylex} {cy : Parser σ} {slots : Nat → Junk} {junk : Junk} {source : σ}
  {parseTree : Option TreeNode}

theorem refines_of_passes (h : Passes yylex (yystart slots junk source parseTree) cy) :
    ∃ c w s, Refines cy c ∧ LR.Reached rule certificate.edge yylex source w s c := by
  induction h with
  | refl =>
      exact ⟨_, [], source, refines_start .., LR.reached_initial source⟩
  | tail _ hstep ih =>
      obtain ⟨c, w, s, href, hreached⟩ := ih
      have hagrees := yybackup_agrees yylex href hreached.path
      have hmoves := safe.step_moves hreached.path hreached.ahead
      rw [hstep] at hagrees
      cases hout : LR.step rule .start tables yylex c with
      | next c' =>
          rw [hout] at hagrees hmoves
          obtain ⟨_, heq, href', _⟩ := hagrees
          cases heq
          obtain ⟨w', s', hreached'⟩ := hreached.step hmoves
          exact ⟨c', w', s', href', hreached'⟩
      | halt halt c' =>
          rw [hout] at hagrees
          cases halt with
          | accept tree =>
              obtain ⟨_, heq, _⟩ := hagrees
              cases heq
          | reject =>
              obtain ⟨_, heq, _⟩ := hagrees
              cases heq
          | stuck => exact hagrees.elim

/-- The stacks never hold more than 22 symbols, however long the text is. With the state at
the bottom that is 23 of the 200 entries. -/
theorem stack_height_le (h : Passes yylex (yystart slots junk source parseTree) cy) :
    cy.yyssp ≤ 22 := by
  obtain ⟨c, _, _, href, hreached⟩ := refines_of_passes h
  rw [href.height]
  exact length_le hreached.path

theorem passes_of_yyrounds {cy' : Parser σ} {n : Nat} (h : yyrounds yylex cy n = some cy') :
    Passes yylex cy cy' := by
  induction n generalizing cy' with
  | zero =>
      cases h
      exact .refl cy
  | succ n ih =>
      obtain ⟨mid, hmid, hstep⟩ := Option.bind_eq_some_iff.mp h
      split at hstep
      case h_1 next hnext =>
        cases hstep
        exact .tail (ih hmid) hnext
      case h_2 => cases hstep

/-- The second PARTITION of an EXPLAIN CREATE TABLE takes all 22. -/
theorem stack_height_le_explain :
    ∃ cy, Passes fromList (yystart (fun _ => ⟨0, 0, .eq⟩) ⟨0, 0, .eq⟩
        (⟨.EXPLAIN, ()⟩ :: createTokens) none) cy ∧ cy.yyssp = 22 ∧ cy.yyssp ≤ 22 := by
  obtain ⟨cy, hrounds, hheight⟩ : ∃ cy, yyrounds fromList (yystart (fun _ => ⟨0, 0, .eq⟩)
      ⟨0, 0, .eq⟩ (⟨.EXPLAIN, ()⟩ :: createTokens) none) 43 = some cy ∧ cy.yyssp = 22 :=
    Option.map_eq_some_iff.mp (by decide +kernel)
  have hpasses := passes_of_yyrounds hrounds
  exact ⟨cy, hpasses, hheight, stack_height_le hpasses⟩

/-- Where a rule with an empty right-hand side takes its `$$` from above the stack, no
condition list and no partitioning is left there from something popped. -/
theorem stale_slot_clean (h : Passes yylex (yystart slots junk source parseTree) cy) {yyn : Nat}
    (hreduce : AboutToReduce yylex cy yyn) (hempty : yyr2[yyn]? = some 0) :
    (cy.yyvs (cy.yyssp + 1)).svConds = [] ∧ (cy.yyvs (cy.yyssp + 1)).svParopt = none := by
  obtain ⟨c, _, _, href, hreached⟩ := refines_of_passes h
  have htop : cy.yyss cy.yyssp = LR.top c.frames := by
    rw [href.height]
    exact href.stack.top
  have hreduces : LR.Reduces tables (LR.top c.frames) yyn := by
    rw [← htop]
    rcases hreduce with hquick | ⟨hlook, haction⟩
    · exact .inl hquick
    · exact .inr ⟨hlook, _, haction⟩
  have hlive := LR.live_top hreached.path
  obtain ⟨p, hrule, _⟩ := safe.reduce _ _ hlive hreduces
  have hrhs : p.rhs = [] := by
    have hsize := (sizes_of_rule hrule).1
    rw [hempty] at hsize
    exact List.eq_nil_of_length_eq_zero hsize.symm
  have hcalm := calm_of_reduces (live_lt hlive) hreduces hrule hrhs
  rcases href.clean with hall | ⟨f, hf, hmarked⟩
  · exact hall _
  · rw [unmarked_of_calm hreached.path hcalm f hf] at hmarked
    cases hmarked

theorem stale_slot_clean_delete :
    ∃ cy, Passes fromList (yystart (fun _ => ⟨0, 0, .eq⟩) ⟨0, 0, .eq⟩
        [⟨.DELETE, ()⟩, ⟨.FROM, ()⟩, ⟨.IDENTIFIER, ['t']⟩, ⟨.semicolon, ()⟩] none) cy ∧
      AboutToReduce fromList cy 43 ∧
      (cy.yyvs (cy.yyssp + 1)).svConds = [] ∧ (cy.yyvs (cy.yyssp + 1)).svParopt = none := by
  have hpasses : ∃ cy, Passes fromList (yystart (fun _ => ⟨0, 0, .eq⟩) ⟨0, 0, .eq⟩
        [⟨.DELETE, ()⟩, ⟨.FROM, ()⟩, ⟨.IDENTIFIER, ['t']⟩, ⟨.semicolon, ()⟩] none) cy ∧
      AboutToReduce fromList cy 43 :=
    ⟨_, .tail (.tail (.tail (.tail (.refl _) rfl) rfl) rfl) rfl, .inr ⟨rfl, rfl⟩⟩
  obtain ⟨cy, hpass, habout⟩ := hpasses
  exact ⟨cy, hpass, habout, stale_slot_clean hpass habout rfl⟩

end Stack

end Sql

end RucDDBS
