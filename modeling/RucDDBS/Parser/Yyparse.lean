import Mathlib.Logic.Function.Basic
import RucDDBS.Parser.Tables

/-!
`yyparse` as it runs. Its stack of values is an array of records with a field for every
type of value, and popping leaves the records where they are: a rule with an empty
right-hand side begins with the record above the top of the stack, whatever was last
there. A slot that was never written is as it was constructed.
-/

namespace RucDDBS

namespace Sql

open Ast Grammar

section SemanticValues

/-- `ast::SemValue`. A null pointer is `none`. -/
structure SemValue where
  svInt : Int32
  svFloat : UInt32
  svStr : Text
  svStrs : List Text
  svNode : Option TreeNode
  svCompOp : SvCompOp
  svTypeLen : Option TypeLen
  svField : Option Ast.Field
  svFields : List Ast.Field
  svParopt : Option ParOpt
  svPart : Option Ast.Part
  svParts : List Ast.Part
  svExpr : Option Expr
  svVal : Option Ast.Value
  svVals : List Ast.Value
  svCol : Option Col
  svCols : List Col
  svSetClause : Option SetClause
  svSetClauses : List SetClause
  svCond : Option BinaryExpr
  svConds : List BinaryExpr

/-- What a constructed `SemValue` happens to hold where nothing initialises it. -/
structure Junk where
  int : Int32
  float : UInt32
  compOp : SvCompOp

def SemValue.fresh (junk : Junk) : SemValue where
  svInt := junk.int
  svFloat := junk.float
  svStr := []
  svStrs := []
  svNode := none
  svCompOp := junk.compOp
  svTypeLen := none
  svField := none
  svFields := []
  svParopt := none
  svPart := none
  svParts := []
  svExpr := none
  svVal := none
  svVals := []
  svCol := none
  svCols := []
  svSetClause := none
  svSetClauses := []
  svCond := none
  svConds := []

/-- What the scanner writes to `yylval` for a token. -/
def SemValue.scanned (yylval : SemValue) : (tok : Token) → Val (.terminal tok) → SemValue
  | .IDENTIFIER, text => { yylval with svStr := text }
  | .VALUE_STRING, text => { yylval with svStr := text }
  | .VALUE_INT, val => { yylval with svInt := val }
  | .VALUE_FLOAT, val => { yylval with svFloat := val }
  | _, _ => yylval

/-- What the action of a rule does: it computes `$$`, or it ends the parse with a tree. An
object around a null pointer is not followed any further. -/
inductive Effect where
  | value (v : SemValue)
  | accept (tree : Option TreeNode)
  | null

/-- The effect with an object that a pointer points to. -/
def child {α : Type} (pointer : Option α) (effect : α → Effect) : Effect :=
  match pointer with
  | some object => effect object
  | none => .null

/-- The action of the rule `yyn`. `yyval` is `$$` before it and `yyvsp k` is `yyvsp[-k]`. -/
def semanticAction (yyn : Nat) (yyval : SemValue) (yyvsp : Nat → SemValue) : Effect :=
  match yyn with
  | 2 => .accept (yyvsp 1).svNode
  | 3 => child (yyvsp 1).svNode fun stmt => .accept (some (.explain stmt))
  | 4 => .accept (some .help)
  | 5 => .accept none
  | 6 => .accept none
  | 11 => .value { yyval with svNode := some .txnBegin }
  | 12 => .value { yyval with svNode := some .txnCommit }
  | 13 => .value { yyval with svNode := some .txnAbort }
  | 14 => .value { yyval with svNode := some .txnRollback }
  | 15 => .value { yyval with svNode := some .showTables }
  | 16 => .value { yyval with svNode := some .showPartitions }
  | 17 => .value { yyval with
      svNode := some (.createTable (yyvsp 4).svStr (yyvsp 2).svFields (yyvsp 0).svParopt) }
  | 18 => .value { yyval with svNode := some (.dropTable (yyvsp 0).svStr) }
  | 19 => .value { yyval with svNode := some (.descTable (yyvsp 0).svStr) }
  | 20 => .value { yyval with svNode := some (.createIndex (yyvsp 3).svStr (yyvsp 1).svStr) }
  | 21 => .value { yyval with svNode := some (.dropIndex (yyvsp 3).svStr (yyvsp 1).svStr) }
  | 23 => .value { yyval with svParopt := some ⟨(yyvsp 4).svStr, (yyvsp 1).svParts⟩ }
  | 24 => child (yyvsp 0).svPart fun part => .value { yyval with svParts := [part] }
  | 25 => child (yyvsp 0).svPart fun part =>
      .value { yyval with svParts := yyval.svParts ++ [part] }
  | 26 => .value { yyval with svPart := some ⟨(yyvsp 1).svInt⟩ }
  | 27 => .value { yyval with svNode := some (.insert ⟨(yyvsp 4).svStr, (yyvsp 1).svVals⟩) }
  | 28 => .value { yyval with svNode := some (.delete ⟨(yyvsp 1).svStr, (yyvsp 0).svConds⟩) }
  | 29 => .value { yyval with
      svNode := some (.update ⟨(yyvsp 3).svStr, (yyvsp 1).svSetClauses, (yyvsp 0).svConds⟩) }
  | 30 => .value { yyval with
      svNode := some (.select ⟨(yyvsp 3).svCols, (yyvsp 1).svStrs, (yyvsp 0).svConds⟩) }
  | 31 => child (yyvsp 0).svField fun field => .value { yyval with svFields := [field] }
  | 32 => child (yyvsp 0).svField fun field =>
      .value { yyval with svFields := yyval.svFields ++ [field] }
  | 33 => child (yyvsp 0).svTypeLen fun type =>
      .value { yyval with svField := some ⟨(yyvsp 1).svStr, type⟩ }
  | 34 => .value { yyval with svTypeLen := some ⟨.int, 4⟩ }
  | 35 => .value { yyval with svTypeLen := some ⟨.string, (yyvsp 1).svInt⟩ }
  | 36 => .value { yyval with svTypeLen := some ⟨.float, 4⟩ }
  | 37 => child (yyvsp 0).svVal fun val => .value { yyval with svVals := [val] }
  | 38 => child (yyvsp 0).svVal fun val => .value { yyval with svVals := yyval.svVals ++ [val] }
  | 39 => .value { yyval with svVal := some (.intLit (yyvsp 0).svInt) }
  | 40 => .value { yyval with svVal := some (.floatLit (yyvsp 0).svFloat) }
  | 41 => .value { yyval with svVal := some (.stringLit (yyvsp 0).svStr) }
  | 42 => child (yyvsp 2).svCol fun lhs => child (yyvsp 0).svExpr fun rhs =>
      .value { yyval with svCond := some ⟨lhs, (yyvsp 1).svCompOp, rhs⟩ }
  | 44 => .value { yyval with svConds := (yyvsp 0).svConds }
  | 45 => child (yyvsp 0).svCond fun cond => .value { yyval with svConds := [cond] }
  | 46 => child (yyvsp 0).svCond fun cond =>
      .value { yyval with svConds := yyval.svConds ++ [cond] }
  | 47 => .value { yyval with svCol := some ⟨(yyvsp 2).svStr, (yyvsp 0).svStr⟩ }
  | 48 => .value { yyval with svCol := some ⟨[], (yyvsp 0).svStr⟩ }
  | 49 => child (yyvsp 0).svCol fun col => .value { yyval with svCols := [col] }
  | 50 => child (yyvsp 0).svCol fun col => .value { yyval with svCols := yyval.svCols ++ [col] }
  | 51 => .value { yyval with svCompOp := .eq }
  | 52 => .value { yyval with svCompOp := .lt }
  | 53 => .value { yyval with svCompOp := .gt }
  | 54 => .value { yyval with svCompOp := .ne }
  | 55 => .value { yyval with svCompOp := .le }
  | 56 => .value { yyval with svCompOp := .ge }
  | 57 => child (yyvsp 0).svVal fun val => .value { yyval with svExpr := some (.val val) }
  | 58 => child (yyvsp 0).svCol fun col => .value { yyval with svExpr := some (.col col) }
  | 59 => child (yyvsp 0).svSetClause fun clause =>
      .value { yyval with svSetClauses := [clause] }
  | 60 => child (yyvsp 0).svSetClause fun clause =>
      .value { yyval with svSetClauses := yyval.svSetClauses ++ [clause] }
  | 61 => child (yyvsp 0).svVal fun val =>
      .value { yyval with svSetClause := some ⟨(yyvsp 2).svStr, val⟩ }
  | 62 => .value { yyval with svCols := [] }
  | 64 => .value { yyval with svStrs := [(yyvsp 0).svStr] }
  | 65 => .value { yyval with svStrs := yyval.svStrs ++ [(yyvsp 0).svStr] }
  | 66 => .value { yyval with svStrs := yyval.svStrs ++ [(yyvsp 0).svStr] }
  | _ => .value yyval

end SemanticValues

section Driver

variable {σ : Type}

def YYINITDEPTH : Nat := 200

def YYTERROR : Nat := 1

/-- What the parser says of an error: the token that it cannot use, and the tokens it can. -/
structure SyntaxError where
  unexpected : Option Token
  expected : List Token
  deriving DecidableEq

/-- `yyssp` is the height of the stacks, which start with a state and no value. `parseTree`
is the global variable. -/
structure Parser (σ : Type) where
  yyss : Nat → Nat
  yyvs : Nat → SemValue
  yyssp : Nat
  yychar : Option Token
  yylval : SemValue
  source : σ
  parseTree : Option TreeNode
  errors : List SyntaxError

/-- `done` is a return of `yyparse`. It would be `lost` with a null pointer inside of a tree
or if a state took the token `error`, which no rule of the grammar has. -/
inductive Step (σ : Type) where
  | next (c : Parser σ)
  | done (yyresult : Nat) (c : Parser σ)
  | lost

/-- `yynewstate`. In C++ the stacks cannot grow. -/
def yynewstate (c : Parser σ) (yystate : Nat) (value : SemValue) : Step σ :=
  let c := { c with
    yyss := Function.update c.yyss (c.yyssp + 1) yystate
    yyvs := Function.update c.yyvs (c.yyssp + 1) value
    yyssp := c.yyssp + 1 }
  if YYINITDEPTH - 1 ≤ c.yyssp then .done 2 c
  else if yystate = YYFINAL then .done 0 c
  else .next c

def yyreduce (c : Parser σ) (yyn : Nat) : Step σ :=
  let yylen := yyr2[yyn]?.getD 0
  match semanticAction yyn (c.yyvs (c.yyssp + 1 - yylen)) fun k => c.yyvs (c.yyssp - k) with
  | .null => .lost
  | .accept tree => .done 0 { c with parseTree := tree }
  | .value yyval =>
      let c := { c with yyssp := c.yyssp - yylen }
      yynewstate c (goto (c.yyss c.yyssp) (yyr1[yyn]?.getD 0 - 53)) yyval

/-- The tokens that `yytable` has an entry for, if there are not too many for a message. -/
def expectedTokens (q : Nat) : List Token :=
  if yypact[q]? = some YYPACT_NINF then []
  else
    let expected := tokens.filter fun tok =>
      (lookup (yypact[q]?.getD 0 + tok.yytoken) tok.yytoken).isSome
    if 4 < expected.length then [] else expected

def yysyntax_error (q : Nat) (yychar : Option Token) : SyntaxError :=
  match yychar with
  | none => ⟨none, []⟩
  | some tok => ⟨some tok, expectedTokens q⟩

/-- `q` takes the token `error`. -/
def shiftsError (q : Nat) : Bool :=
  yypact[q]? ≠ some YYPACT_NINF ∧
    (lookup (yypact[q]?.getD 0 + YYTERROR) YYTERROR).any fun yyn => 0 < yyn

/-- The loop of `yyerrlab1` over the states from the height `yyssp` downwards: whether one of
them takes the token `error`. -/
def recovers (yyss : Nat → Nat) : Nat → Bool
  | 0 => shiftsError (yyss 0)
  | yyssp + 1 => shiftsError (yyss (yyssp + 1)) || recovers yyss yyssp

def yyerrlab (c : Parser σ) : Step σ :=
  if recovers c.yyss c.yyssp then .lost
  else .done 1 { c with errors := c.errors ++ [yysyntax_error (c.yyss c.yyssp) c.yychar] }

variable (yylex : σ → Grammar.Token Val × σ)

/-- Read a token if there is none. -/
def readToken (c : Parser σ) : Token × Parser σ :=
  match c.yychar with
  | some tok => (tok, c)
  | none =>
      let (tok, source) := yylex c.source
      (tok.1, { c with yychar := some tok.1, yylval := c.yylval.scanned tok.1 tok.2, source })

/-- From one `yybackup` to the next. -/
def yybackup (c : Parser σ) : Step σ :=
  let yystate := c.yyss c.yyssp
  match quick yystate with
  | .reduce yyn => yyreduce c yyn
  | .error => yyerrlab c
  | .look =>
      let (tok, c) := readToken yylex c
      match action yystate tok with
      | .shift q => yynewstate { c with yychar := none } q c.yylval
      | .reduce yyn => yyreduce c yyn
      | .error => yyerrlab c

def yyloop : Nat → Parser σ → Option (Step σ)
  | 0, _ => none
  | fuel + 1, c =>
      match yybackup yylex c with
      | .next c => yyloop fuel c
      | out => some out

/-- `yyparse` after its declarations. -/
def yystart (slots : Nat → Junk) (junk : Junk) (source : σ) (parseTree : Option TreeNode) :
    Parser σ where
  yyss := fun _ => 0
  yyvs := fun i => .fresh (slots i)
  yyssp := 0
  yychar := none
  yylval := .fresh junk
  source := source
  parseTree := parseTree
  errors := []

end Driver

end Sql

end RucDDBS
