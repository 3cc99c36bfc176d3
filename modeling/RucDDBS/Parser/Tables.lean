import RucDDBS.Library.LR
import RucDDBS.Parser.Syntax

/-!
The tables of `yacc.tab.c` and how `yyparse` reads them. An entry of `yytable` belongs to a
state and a symbol only where `yycheck` names the symbol, or for a nonterminal the state;
elsewhere the default of the state or of the nonterminal holds.
-/

namespace RucDDBS

namespace Sql

section Tables

def YYFINAL : Nat := 42

def YYLAST : Nat := 133

def YYPACT_NINF : Int := -71

/-- Where in `yytable` the row of a state begins. -/
def yypact : List Int := [
  33, 2, 5, 10, -28, 23, 1, -28, -37, -71, -71, -71, -71, -71, -71, 77, -71, 35, -5, -71, -71,
  -71, -71, -71, -71, -28, -28, -28, -28, -71, -71, -28, -28, 31, 29, -71, -71, 34, 70, 39, -71,
  44, -71, -71, 45, 46, -71, 48, 84, 87, 62, 67, -28, 62, -71, 62, 62, 62, 63, 67, -71, -71, -1,
  -71, 60, -71, 4, -71, -71, -27, -71, 51, 64, 65, 32, -71, 90, 16, 62, -71, 32, -28, -28, -71,
  83, 62, -71, 69, -71, -71, -71, -71, -71, -71, -71, 9, -71, 67, -71, -71, -71, -71, -71, -71,
  57, -71, -71, -71, -71, 85, -71, -71, 73, -71, 32, -71, -71, -71, -71, 86, 71, -71, 74, -71, 62,
  75, 78, 92, 91, 17, -71, 93, -71, 92, 80, -71, 88, 82, -71]

/-- The default reduction of a state; zero is an error. -/
def yydefact : List Nat := [
  0, 0, 0, 0, 0, 0, 0, 0, 0, 5, 4, 11, 12, 13, 14, 0, 6, 0, 0, 10, 7, 8, 9, 15, 16, 0, 0, 0, 0,
  67, 19, 0, 0, 0, 68, 62, 49, 63, 0, 0, 48, 0, 1, 2, 0, 0, 18, 0, 0, 43, 0, 0, 0, 0, 3, 0, 0, 0,
  0, 0, 28, 68, 43, 59, 0, 50, 43, 64, 47, 0, 31, 0, 0, 0, 0, 45, 44, 0, 0, 29, 0, 0, 0, 30, 22,
  0, 34, 0, 36, 33, 20, 21, 41, 39, 40, 0, 37, 0, 55, 54, 56, 51, 52, 53, 0, 60, 61, 66, 65, 0,
  17, 32, 0, 27, 0, 46, 57, 58, 42, 0, 0, 38, 0, 35, 0, 0, 0, 0, 0, 0, 24, 0, 23, 0, 0, 25, 0, 0,
  26]

/-- Where in `yytable` the row of a nonterminal begins. -/
def yypgoto : List Int := [
  -71, -71, 105, -71, -71, -71, -71, -71, -7, -71, -71, 47, -71, -71, -70, 36, -45, -71, -8, -71,
  -71, -71, -71, 53, -71, -71, -3, -48]

/-- The state most often entered with a nonterminal. -/
def yydefgoto : List Int := [
  -1, 17, 18, 19, 20, 21, 110, 129, 130, 22, 69, 70, 89, 95, 96, 75, 60, 76, 77, 37, 104, 118, 62,
  63, 38, 66, 39, 40]

def yytable : List Int := [
  36, 30, 64, 34, 33, 68, 23, 71, 72, 73, 106, 25, 29, 59, 32, 35, 27, 79, 59, 84, 85, 83, 44, 45,
  46, 47, 26, 81, 48, 49, 64, 28, 24, 31, 116, 42, 1, 71, 2, 43, 3, 4, 5, 65, 121, 6, 78, 50, 7,
  67, 8, 82, 98, 99, 100, 113, 114, 9, 10, 11, 12, 13, 14, 132, 133, 101, 102, 103, 15, 86, 87,
  88, 16, 92, 93, 94, 125, -67, 107, 108, 1, 51, 2, 52, 3, 4, 5, 53, 54, 6, 55, 56, 7, 57, 8, 58,
  117, 34, 92, 93, 94, 59, 61, 11, 12, 13, 14, 34, 74, 80, 90, 91, 97, 109, 112, 120, 119, 123,
  122, 124, 41, 126, 128, 127, 131, 136, 135, 134, 138, 0, 137, 105, 111, 115]

def yycheck : List Int := [
  8, 4, 50, 40, 7, 53, 4, 55, 56, 57, 80, 6, 40, 14, 13, 52, 6, 62, 14, 46, 47, 66, 25, 26, 27,
  28, 21, 23, 31, 32, 78, 21, 30, 10, 104, 0, 3, 85, 5, 44, 7, 8, 9, 51, 114, 12, 47, 16, 15, 52,
  17, 47, 36, 37, 38, 46, 47, 24, 25, 26, 27, 28, 29, 46, 47, 49, 50, 51, 35, 18, 19, 20, 39, 41,
  42, 43, 124, 48, 81, 82, 3, 47, 5, 13, 7, 8, 9, 48, 44, 12, 45, 45, 15, 45, 17, 11, 104, 40, 41,
  42, 43, 14, 40, 26, 27, 28, 29, 40, 45, 49, 46, 46, 22, 30, 45, 42, 31, 46, 32, 45, 15, 46, 30,
  45, 33, 45, 133, 34, 46, -1, 42, 78, 85, 97]

def yyr1 : List Nat := [
  0, 53, 54, 54, 54, 54, 54, 55, 55, 55, 55, 56, 56, 56, 56, 57, 57, 58, 58, 58, 58, 58, 59, 59,
  60, 60, 61, 62, 62, 62, 62, 63, 63, 64, 65, 65, 65, 66, 66, 67, 67, 67, 68, 69, 69, 70, 70, 71,
  71, 72, 72, 73, 73, 73, 73, 73, 73, 74, 74, 75, 75, 76, 77, 77, 78, 78, 78, 79, 80]

def yyr2 : List Nat := [
  0, 2, 2, 3, 1, 1, 1, 1, 1, 1, 1, 1, 1, 1, 1, 2, 2, 7, 3, 2, 6, 6, 0, 9, 1, 3, 6, 7, 4, 5, 5, 1,
  3, 2, 1, 4, 1, 1, 3, 1, 1, 1, 3, 0, 2, 1, 3, 3, 1, 1, 3, 1, 1, 1, 1, 1, 1, 1, 1, 1, 3, 3, 1, 1,
  1, 3, 3, 1, 1]

end Tables

section Decoding

/-- The number of a token as `yytranslate` gives it. -/
def Token.yytoken (tok : Token) : Nat := tok.ctorIdx + 3

/-- The number of a nonterminal among the nonterminals. -/
def Nonterminal.yylhs (A : Nonterminal) : Nat := A.ctorIdx + 1

/-- The entry of `yytable` at `i`, if `yycheck` has `mark` there. Outside of the table, which
ends at `YYLAST`, there is none. -/
def lookup (i mark : Int) : Option Int :=
  match i with
  | .ofNat i => if yycheck[i]? = some mark then yytable[i]? else none
  | .negSucc _ => none

def yydefault (q : Nat) : Nat := yydefact[q]?.getD 0

/-- `yybackup` before it has a token. -/
def quick (q : Nat) : LR.Quick :=
  if yypact[q]? = some YYPACT_NINF then
    match yydefault q with
    | 0 => .error
    | r => .reduce r
  else .look

/-- `yybackup` and `yydefault` with the token. -/
def action (q : Nat) (tok : Token) : LR.Action :=
  match lookup (yypact[q]?.getD 0 + tok.yytoken) tok.yytoken with
  | none =>
      match yydefault q with
      | 0 => .error
      | r => .reduce r
  | some yyn => if yyn ≤ 0 then .reduce (-yyn).toNat else .shift yyn.toNat

/-- The state after a reduction to the nonterminal with the number `yylhs`. -/
def goto (q yylhs : Nat) : Nat :=
  match lookup (yypgoto[yylhs]?.getD 0 + q) q with
  | none => (yydefgoto[yylhs]?.getD 0).toNat
  | some yyn => yyn.toNat

def tables : LR.Tables Token Nonterminal := ⟨quick, action, fun q A => goto q A.yylhs⟩

end Decoding

end Sql

end RucDDBS
