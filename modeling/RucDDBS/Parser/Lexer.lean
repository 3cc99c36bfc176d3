import RucDDBS.Library.Scanning
import RucDDBS.Library.Text
import RucDDBS.Parser.Trees

/-!
The scanner of `lex.l`. Letters match in either case, as `%option caseless` has it. The
start condition lives in the scanner and not in the text: a comment that one text leaves
open goes on in the next one. What `atof` makes of the digits of a float is a parameter.
-/

namespace RucDDBS

namespace Sql

open Scanning

section Patterns

inductive StartCondition where
  | INITIAL
  | STATE_COMMENT
  deriving DecidableEq

/-- The patterns of `lex.l`. The alternatives of `single_op` are patterns of their own. -/
inductive Pattern where
  | blockComment
  | commentEnd
  | commentText
  | commentStar
  | lineComment
  | whiteSpace
  | newLine
  | keyword (text : Text) (tok : Grammar.Token Val)
  | op (text : Text) (tok : Grammar.Token Val)
  | identifier
  | valueInt
  | valueFloat
  | valueString
  | unexpected

def keywords : List (Text × Grammar.Token Val) := [
  ("EXPLAIN".toList, ⟨.EXPLAIN, ()⟩),
  ("PARTITION".toList, ⟨.PARTITION, ()⟩),
  ("BY".toList, ⟨.BY, ()⟩),
  ("RANGE".toList, ⟨.RANGE, ()⟩),
  ("LESS".toList, ⟨.LESS, ()⟩),
  ("THAN".toList, ⟨.THAN, ()⟩),
  ("SHOW".toList, ⟨.SHOW, ()⟩),
  ("BEGIN".toList, ⟨.TXN_BEGIN, ()⟩),
  ("COMMIT".toList, ⟨.TXN_COMMIT, ()⟩),
  ("ABORT".toList, ⟨.TXN_ABORT, ()⟩),
  ("ROLLBACK".toList, ⟨.TXN_ROLLBACK, ()⟩),
  ("TABLES".toList, ⟨.TABLES, ()⟩),
  ("CREATE".toList, ⟨.CREATE, ()⟩),
  ("TABLE".toList, ⟨.TABLE, ()⟩),
  ("DROP".toList, ⟨.DROP, ()⟩),
  ("DESC".toList, ⟨.DESC, ()⟩),
  ("INSERT".toList, ⟨.INSERT, ()⟩),
  ("INTO".toList, ⟨.INTO, ()⟩),
  ("VALUES".toList, ⟨.VALUES, ()⟩),
  ("DELETE".toList, ⟨.DELETE, ()⟩),
  ("FROM".toList, ⟨.FROM, ()⟩),
  ("WHERE".toList, ⟨.WHERE, ()⟩),
  ("UPDATE".toList, ⟨.UPDATE, ()⟩),
  ("SET".toList, ⟨.SET, ()⟩),
  ("SELECT".toList, ⟨.SELECT, ()⟩),
  ("INT".toList, ⟨.INT, ()⟩),
  ("CHAR".toList, ⟨.CHAR, ()⟩),
  ("FLOAT".toList, ⟨.FLOAT, ()⟩),
  ("INDEX".toList, ⟨.INDEX, ()⟩),
  ("AND".toList, ⟨.AND, ()⟩),
  ("JOIN".toList, ⟨.JOIN, ()⟩),
  ("EXIT".toList, ⟨.EXIT, ()⟩),
  ("HELP".toList, ⟨.HELP, ()⟩)]

def ops : List (Text × Grammar.Token Val) := [
  (">=".toList, ⟨.GEQ, ()⟩),
  ("<=".toList, ⟨.LEQ, ()⟩),
  ("<>".toList, ⟨.NEQ, ()⟩),
  (";".toList, ⟨.semicolon, ()⟩),
  ("(".toList, ⟨.lparen, ()⟩),
  (")".toList, ⟨.rparen, ()⟩),
  (",".toList, ⟨.comma, ()⟩),
  ("*".toList, ⟨.star, ()⟩),
  ("=".toList, ⟨.eq, ()⟩),
  (">".toList, ⟨.gt, ()⟩),
  ("<".toList, ⟨.lt, ()⟩),
  (".".toList, ⟨.dot, ()⟩)]

def patterns : StartCondition → List Pattern
  | .INITIAL => [.blockComment, .lineComment, .whiteSpace, .newLine] ++
      keywords.map (fun k => .keyword k.1 k.2) ++ ops.map (fun k => .op k.1 k.2) ++
      [.identifier, .valueInt, .valueFloat, .valueString, .unexpected]
  | .STATE_COMMENT => [.commentEnd, .commentText, .commentStar]

end Patterns

section Lengths

def literal (text t : Text) : Nat := if text.isPrefixOf t then text.length else 0

/-- A blank of `white_space`. -/
def isBlank (c : Char) : Bool := c == ' ' || c == '\t'

/-- `(_|{alpha}|{digit})` -/
def isIdentifierChar (c : Char) : Bool := c == '_' || c.isAlpha || c.isDigit

def newLine : Text → Nat
  | '\r' :: '\n' :: _ => 2
  | '\r' :: _ => 1
  | '\n' :: _ => 1
  | _ => 0

def identifier : Text → Nat
  | c :: t => if c.isAlpha then (t.takeWhile isIdentifierChar).length + 1 else 0
  | [] => 0

/-- `{sign}?` -/
def sign : Text → Nat
  | '+' :: _ => 1
  | '-' :: _ => 1
  | _ => 0

/-- `{digit}*` -/
def digits (t : Text) : Nat := (t.takeWhile Char.isDigit).length

def valueInt (t : Text) : Nat :=
  if digits (t.drop (sign t)) = 0 then 0 else sign t + digits (t.drop (sign t))

def valueFloat (t : Text) : Nat :=
  match t.drop (valueInt t) with
  | '.' :: rest => if valueInt t = 0 then 0 else valueInt t + (digits rest + 1)
  | _ => 0

def valueString : Text → Nat
  | '\'' :: t =>
      if '\'' ∈ t then (t.takeWhile fun c => c != '\'').length + 2 else 0
  | _ => 0

/-- The longest match of a pattern at the front of a text. -/
def Pattern.length : Pattern → Text → Nat
  | .blockComment, t => literal "/*".toList t
  | .commentEnd, t => literal "*/".toList t
  | .commentText, t => if t.head?.any fun c => c != '*' then 1 else 0
  | .commentStar, t => literal "*".toList t
  | .lineComment, t =>
      if "--".toList.isPrefixOf t then 2 + ((t.drop 2).takeWhile fun c => c != '\n').length else 0
  | .whiteSpace, t => (t.takeWhile isBlank).length
  | .newLine, t => Sql.newLine t
  | .keyword text _, t => literal text (t.map Char.toUpper)
  | .op text _, t => literal text t
  | .identifier, t => Sql.identifier t
  | .valueInt, t => Sql.valueInt t
  | .valueFloat, t => Sql.valueFloat t
  | .valueString, t => Sql.valueString t
  | .unexpected, t => if t.head?.any fun c => c != '\n' then 1 else 0

end Lengths

section Actions

variable (atof : Text → UInt32)

/-- `atoi` of the C library: a `long` that stays at its bounds, cut to an `int`. -/
def atoi (t : Text) : Int32 :=
  Int32.ofInt (max (-2 ^ 63) (min (2 ^ 63 - 1) (((Text.readInt t).map Prod.fst).getD 0)))

def Pattern.act : Pattern → Text → Act StartCondition (Grammar.Token Val)
  | .blockComment, _ => .start .STATE_COMMENT
  | .commentEnd, _ => .start .INITIAL
  | .keyword _ tok, _ => .token tok
  | .op _ tok, _ => .token tok
  | .identifier, yytext => .token ⟨.IDENTIFIER, yytext⟩
  | .valueInt, yytext => .token ⟨.VALUE_INT, atoi yytext⟩
  | .valueFloat, yytext => .token ⟨.VALUE_FLOAT, atof yytext⟩
  | .valueString, yytext => .token ⟨.VALUE_STRING, yytext.tail.dropLast⟩
  | _, _ => .skip

def scanner : Scanner StartCondition Pattern Char (Grammar.Token Val) where
  patterns := patterns
  length := Pattern.length
  act := Pattern.act atof
  eof := ⟨.T_EOF, ()⟩

/-- The characters that `yy_scan_string` gave to the scanner and that are still to be read,
and the start condition. -/
abbrev Scan := Source StartCondition Char

/-- The C string of a text: what stands before the first NUL. -/
def cStr (str : Text) : Text := str.takeWhile fun c => c != '\x00'

/-- `yy_scan_string` takes the length of its argument with `strlen`. The start condition stays
as it is. -/
def yyScanString (start : StartCondition) (str : Text) : Scan := ⟨start, cStr str⟩

def yylex (s : Scan) : Grammar.Token Val × Scan := (scanner atof).next s

end Actions

end Sql

end RucDDBS
