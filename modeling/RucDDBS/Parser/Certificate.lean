import RucDDBS.Library.LRCheck
import RucDDBS.Parser.Tables

/-!
What the generator knew of the automaton and did not write into the tables: the transitions
into each state, and its items with the tokens that may follow them. With them and with
weights for the states the tables are checked against the grammar.
-/

namespace RucDDBS

namespace Sql

section Certificate

def preds : List (List (Nat × Symbol Token Nonterminal)) := [
  [],
  [(0, t .SHOW), (15, t .SHOW)],
  [(0, t .CREATE), (15, t .CREATE)],
  [(0, t .DROP), (15, t .DROP)],
  [(0, t .DESC), (15, t .DESC)],
  [(0, t .INSERT), (15, t .INSERT)],
  [(0, t .DELETE), (15, t .DELETE)],
  [(0, t .UPDATE), (15, t .UPDATE)],
  [(0, t .SELECT), (15, t .SELECT)],
  [(0, t .EXIT)],
  [(0, t .HELP)],
  [(0, t .TXN_BEGIN), (15, t .TXN_BEGIN)],
  [(0, t .TXN_COMMIT), (15, t .TXN_COMMIT)],
  [(0, t .TXN_ABORT), (15, t .TXN_ABORT)],
  [(0, t .TXN_ROLLBACK), (15, t .TXN_ROLLBACK)],
  [(0, t .EXPLAIN)],
  [(0, t .T_EOF)],
  [],
  [(0, n .stmt)],
  [(0, n .txnStmt), (15, n .txnStmt)],
  [(0, n .dbStmt), (15, n .dbStmt)],
  [(0, n .ddl), (15, n .ddl)],
  [(0, n .dml), (15, n .dml)],
  [(1, t .TABLES)],
  [(1, t .PARTITION)],
  [(2, t .TABLE)],
  [(2, t .INDEX)],
  [(3, t .TABLE)],
  [(3, t .INDEX)],
  [(4, t .IDENTIFIER), (7, t .IDENTIFIER), (25, t .IDENTIFIER), (26, t .IDENTIFIER),
   (27, t .IDENTIFIER), (28, t .IDENTIFIER), (31, t .IDENTIFIER), (32, t .IDENTIFIER),
   (52, t .IDENTIFIER), (81, t .IDENTIFIER), (82, t .IDENTIFIER)],
  [(4, n .tbName)],
  [(5, t .INTO)],
  [(6, t .FROM)],
  [(7, n .tbName)],
  [(8, t .IDENTIFIER), (51, t .IDENTIFIER), (59, t .IDENTIFIER), (97, t .IDENTIFIER),
   (104, t .IDENTIFIER)],
  [(8, t .star)],
  [(8, n .col)],
  [(8, n .colList)],
  [(8, n .selector)],
  [(8, n .tbName), (51, n .tbName), (59, n .tbName), (97, n .tbName), (104, n .tbName)],
  [(8, n .colName), (51, n .colName), (59, n .colName), (97, n .colName), (104, n .colName)],
  [(15, n .stmt)],
  [],
  [(18, t .semicolon)],
  [(25, n .tbName)],
  [(26, n .tbName)],
  [(27, n .tbName)],
  [(28, n .tbName)],
  [(31, n .tbName)],
  [(32, n .tbName)],
  [(33, t .SET)],
  [(37, t .comma)],
  [(38, t .FROM)],
  [(39, t .dot)],
  [(41, t .semicolon)],
  [(44, t .lparen)],
  [(45, t .lparen)],
  [(47, t .lparen)],
  [(48, t .VALUES)],
  [(49, t .WHERE), (62, t .WHERE), (66, t .WHERE)],
  [(49, n .optWhereClause)],
  [(50, t .IDENTIFIER), (53, t .IDENTIFIER), (55, t .IDENTIFIER), (56, t .IDENTIFIER),
   (57, t .IDENTIFIER), (78, t .IDENTIFIER), (85, t .IDENTIFIER), (124, t .IDENTIFIER)],
  [(50, n .setClauses)],
  [(50, n .setClause)],
  [(50, n .colName), (78, n .colName)],
  [(51, n .col)],
  [(52, n .tableList)],
  [(52, n .tbName)],
  [(53, n .colName)],
  [(55, n .fieldList)],
  [(55, n .field)],
  [(55, n .colName), (85, n .colName)],
  [(56, n .colName)],
  [(57, n .colName)],
  [(58, t .lparen)],
  [(59, n .condition)],
  [(59, n .whereClause)],
  [(59, n .col), (97, n .col)],
  [(62, t .comma)],
  [(62, n .optWhereClause)],
  [(64, t .eq)],
  [(66, t .JOIN)],
  [(66, t .comma)],
  [(66, n .optWhereClause)],
  [(69, t .rparen)],
  [(69, t .comma)],
  [(71, t .INT)],
  [(71, t .CHAR)],
  [(71, t .FLOAT)],
  [(71, n .type)],
  [(72, t .rparen)],
  [(73, t .rparen)],
  [(74, t .VALUE_STRING), (80, t .VALUE_STRING), (104, t .VALUE_STRING), (114, t .VALUE_STRING)],
  [(74, t .VALUE_INT), (80, t .VALUE_INT), (104, t .VALUE_INT), (114, t .VALUE_INT)],
  [(74, t .VALUE_FLOAT), (80, t .VALUE_FLOAT), (104, t .VALUE_FLOAT), (114, t .VALUE_FLOAT)],
  [(74, n .valueList)],
  [(74, n .value)],
  [(76, t .AND)],
  [(77, t .LEQ)],
  [(77, t .NEQ)],
  [(77, t .GEQ)],
  [(77, t .eq)],
  [(77, t .lt)],
  [(77, t .gt)],
  [(77, n .op)],
  [(78, n .setClause)],
  [(80, n .value)],
  [(81, n .tbName)],
  [(82, n .tbName)],
  [(84, t .PARTITION)],
  [(84, n .paropt)],
  [(85, n .field)],
  [(87, t .lparen)],
  [(95, t .rparen)],
  [(95, t .comma)],
  [(97, n .condition)],
  [(104, n .value)],
  [(104, n .col)],
  [(104, n .expr)],
  [(109, t .BY)],
  [(112, t .VALUE_INT)],
  [(114, n .value)],
  [(119, t .RANGE)],
  [(120, t .rparen)],
  [(122, t .lparen)],
  [(124, n .colName)],
  [(125, t .rparen)],
  [(126, t .lparen)],
  [(127, t .PARTITION), (133, t .PARTITION)],
  [(127, n .parlist)],
  [(127, n .part)],
  [(128, t .LESS)],
  [(129, t .rparen)],
  [(129, t .comma)],
  [(131, t .THAN)],
  [(133, n .part)],
  [(134, t .lparen)],
  [(136, t .VALUE_INT)],
  [(137, t .rparen)]]

/-- The items of each state: the production, the symbols before the dot, and the bits of
the tokens that may follow. -/
def items : List (List LR.Entry) := [
  [⟨2, 0, 9007199254740984⟩, ⟨3, 0, 9007199254740984⟩, ⟨4, 0, 9007199254740984⟩,
   ⟨5, 0, 9007199254740984⟩, ⟨6, 0, 9007199254740984⟩, ⟨7, 0, 17592186044416⟩,
   ⟨8, 0, 17592186044416⟩, ⟨9, 0, 17592186044416⟩, ⟨10, 0, 17592186044416⟩,
   ⟨11, 0, 17592186044416⟩, ⟨12, 0, 17592186044416⟩, ⟨13, 0, 17592186044416⟩,
   ⟨14, 0, 17592186044416⟩, ⟨15, 0, 17592186044416⟩, ⟨16, 0, 17592186044416⟩,
   ⟨17, 0, 17592186044416⟩, ⟨18, 0, 17592186044416⟩, ⟨19, 0, 17592186044416⟩,
   ⟨20, 0, 17592186044416⟩, ⟨21, 0, 17592186044416⟩, ⟨27, 0, 17592186044416⟩,
   ⟨28, 0, 17592186044416⟩, ⟨29, 0, 17592186044416⟩, ⟨30, 0, 17592186044416⟩],
  [⟨15, 1, 17592186044416⟩, ⟨16, 1, 17592186044416⟩],
  [⟨17, 1, 17592186044416⟩, ⟨20, 1, 17592186044416⟩],
  [⟨18, 1, 17592186044416⟩, ⟨21, 1, 17592186044416⟩],
  [⟨19, 1, 17592186044416⟩, ⟨67, 0, 17592186044416⟩],
  [⟨27, 1, 17592186044416⟩],
  [⟨28, 1, 17592186044416⟩],
  [⟨29, 1, 17592186044416⟩, ⟨67, 0, 65536⟩],
  [⟨30, 1, 17592186044416⟩, ⟨47, 0, 140737488363520⟩, ⟨48, 0, 140737488363520⟩,
   ⟨49, 0, 140737488363520⟩, ⟨50, 0, 140737488363520⟩, ⟨62, 0, 8192⟩, ⟨63, 0, 8192⟩,
   ⟨67, 0, 281474976710656⟩, ⟨68, 0, 140737488363520⟩],
  [⟨5, 1, 9007199254740984⟩],
  [⟨4, 1, 9007199254740984⟩],
  [⟨11, 1, 17592186044416⟩],
  [⟨12, 1, 17592186044416⟩],
  [⟨13, 1, 17592186044416⟩],
  [⟨14, 1, 17592186044416⟩],
  [⟨3, 1, 9007199254740984⟩, ⟨7, 0, 17592186044416⟩, ⟨8, 0, 17592186044416⟩,
   ⟨9, 0, 17592186044416⟩, ⟨10, 0, 17592186044416⟩, ⟨11, 0, 17592186044416⟩,
   ⟨12, 0, 17592186044416⟩, ⟨13, 0, 17592186044416⟩, ⟨14, 0, 17592186044416⟩,
   ⟨15, 0, 17592186044416⟩, ⟨16, 0, 17592186044416⟩, ⟨17, 0, 17592186044416⟩,
   ⟨18, 0, 17592186044416⟩, ⟨19, 0, 17592186044416⟩, ⟨20, 0, 17592186044416⟩,
   ⟨21, 0, 17592186044416⟩, ⟨27, 0, 17592186044416⟩, ⟨28, 0, 17592186044416⟩,
   ⟨29, 0, 17592186044416⟩, ⟨30, 0, 17592186044416⟩],
  [⟨6, 1, 9007199254740984⟩],
  [],
  [⟨2, 1, 9007199254740984⟩],
  [⟨10, 1, 17592186044416⟩],
  [⟨7, 1, 17592186044416⟩],
  [⟨8, 1, 17592186044416⟩],
  [⟨9, 1, 17592186044416⟩],
  [⟨15, 2, 17592186044416⟩],
  [⟨16, 2, 17592186044416⟩],
  [⟨17, 2, 17592186044416⟩, ⟨67, 0, 35184372088832⟩],
  [⟨20, 2, 17592186044416⟩, ⟨67, 0, 35184372088832⟩],
  [⟨18, 2, 17592186044416⟩, ⟨67, 0, 17592186044416⟩],
  [⟨21, 2, 17592186044416⟩, ⟨67, 0, 35184372088832⟩],
  [⟨67, 1, 193514054961152⟩],
  [⟨19, 2, 17592186044416⟩],
  [⟨27, 2, 17592186044416⟩, ⟨67, 0, 2048⟩],
  [⟨28, 2, 17592186044416⟩, ⟨67, 0, 17592186060800⟩],
  [⟨29, 2, 17592186044416⟩],
  [⟨67, 1, 281474976710656⟩, ⟨68, 1, 4099460388888576⟩],
  [⟨62, 1, 8192⟩],
  [⟨49, 1, 140737488363520⟩],
  [⟨50, 1, 140737488363520⟩, ⟨63, 1, 8192⟩],
  [⟨30, 2, 17592186044416⟩],
  [⟨47, 1, 4099460388888576⟩],
  [⟨48, 1, 4099460388888576⟩],
  [⟨3, 2, 9007199254740984⟩],
  [],
  [⟨2, 2, 9007199254740984⟩],
  [⟨17, 3, 17592186044416⟩],
  [⟨20, 3, 17592186044416⟩],
  [⟨18, 3, 17592186044416⟩],
  [⟨21, 3, 17592186044416⟩],
  [⟨27, 3, 17592186044416⟩],
  [⟨28, 3, 17592186044416⟩, ⟨43, 0, 17592186044416⟩, ⟨44, 0, 17592186044416⟩],
  [⟨29, 3, 17592186044416⟩, ⟨59, 0, 158329674416128⟩, ⟨60, 0, 158329674416128⟩,
   ⟨61, 0, 158329674416128⟩, ⟨68, 0, 562949953421312⟩],
  [⟨47, 0, 140737488363520⟩, ⟨48, 0, 140737488363520⟩, ⟨50, 2, 140737488363520⟩,
   ⟨67, 0, 281474976710656⟩, ⟨68, 0, 140737488363520⟩],
  [⟨30, 3, 17592186044416⟩, ⟨64, 0, 158329682804736⟩, ⟨65, 0, 158329682804736⟩,
   ⟨66, 0, 158329682804736⟩, ⟨67, 0, 158329682804736⟩],
  [⟨47, 2, 4099460388888576⟩, ⟨68, 0, 4099460388888576⟩],
  [⟨3, 3, 9007199254740984⟩],
  [⟨17, 4, 17592186044416⟩, ⟨31, 0, 211106232532992⟩, ⟨32, 0, 211106232532992⟩,
   ⟨33, 0, 211106232532992⟩, ⟨68, 0, 1835008⟩],
  [⟨20, 4, 17592186044416⟩, ⟨68, 0, 70368744177664⟩],
  [⟨21, 4, 17592186044416⟩, ⟨68, 0, 70368744177664⟩],
  [⟨27, 4, 17592186044416⟩],
  [⟨42, 0, 17592190238720⟩, ⟨44, 1, 17592186044416⟩, ⟨45, 0, 17592190238720⟩,
   ⟨46, 0, 17592190238720⟩, ⟨47, 0, 3941130710286336⟩, ⟨48, 0, 3941130710286336⟩,
   ⟨67, 0, 281474976710656⟩, ⟨68, 0, 3941130710286336⟩],
  [⟨28, 4, 17592186044416⟩],
  [⟨68, 1, 4169829134901248⟩],
  [⟨29, 4, 17592186044416⟩, ⟨43, 0, 17592186044416⟩, ⟨44, 0, 17592186044416⟩,
   ⟨60, 1, 158329674416128⟩],
  [⟨59, 1, 158329674416128⟩],
  [⟨61, 1, 158329674416128⟩],
  [⟨50, 3, 140737488363520⟩],
  [⟨30, 4, 17592186044416⟩, ⟨43, 0, 17592186044416⟩, ⟨44, 0, 17592186044416⟩,
   ⟨65, 1, 158329682804736⟩, ⟨66, 1, 158329682804736⟩],
  [⟨64, 1, 158329682804736⟩],
  [⟨47, 3, 4099460388888576⟩],
  [⟨17, 5, 17592186044416⟩, ⟨32, 1, 211106232532992⟩],
  [⟨31, 1, 211106232532992⟩],
  [⟨33, 1, 211106232532992⟩, ⟨34, 0, 211106232532992⟩, ⟨35, 0, 211106232532992⟩,
   ⟨36, 0, 211106232532992⟩],
  [⟨20, 5, 17592186044416⟩],
  [⟨21, 5, 17592186044416⟩],
  [⟨27, 5, 17592186044416⟩, ⟨37, 0, 211106232532992⟩, ⟨38, 0, 211106232532992⟩,
   ⟨39, 0, 211106232532992⟩, ⟨40, 0, 211106232532992⟩, ⟨41, 0, 211106232532992⟩],
  [⟨45, 1, 17592190238720⟩],
  [⟨44, 2, 17592186044416⟩, ⟨46, 1, 17592190238720⟩],
  [⟨42, 1, 17592190238720⟩, ⟨51, 0, 16492674416640⟩, ⟨52, 0, 16492674416640⟩,
   ⟨53, 0, 16492674416640⟩, ⟨54, 0, 16492674416640⟩, ⟨55, 0, 16492674416640⟩,
   ⟨56, 0, 16492674416640⟩],
  [⟨60, 2, 158329674416128⟩, ⟨61, 0, 158329674416128⟩, ⟨68, 0, 562949953421312⟩],
  [⟨29, 5, 17592186044416⟩],
  [⟨39, 0, 158329674416128⟩, ⟨40, 0, 158329674416128⟩, ⟨41, 0, 158329674416128⟩,
   ⟨61, 2, 158329674416128⟩],
  [⟨66, 2, 158329682804736⟩, ⟨67, 0, 158329682804736⟩],
  [⟨65, 2, 158329682804736⟩, ⟨67, 0, 158329682804736⟩],
  [⟨30, 5, 17592186044416⟩],
  [⟨17, 6, 17592186044416⟩, ⟨22, 0, 17592186044416⟩, ⟨23, 0, 17592186044416⟩],
  [⟨32, 2, 211106232532992⟩, ⟨33, 0, 211106232532992⟩, ⟨68, 0, 1835008⟩],
  [⟨34, 1, 211106232532992⟩],
  [⟨35, 1, 211106232532992⟩],
  [⟨36, 1, 211106232532992⟩],
  [⟨33, 2, 211106232532992⟩],
  [⟨20, 6, 17592186044416⟩],
  [⟨21, 6, 17592186044416⟩],
  [⟨41, 1, 228698422788096⟩],
  [⟨39, 1, 228698422788096⟩],
  [⟨40, 1, 228698422788096⟩],
  [⟨27, 6, 17592186044416⟩, ⟨38, 1, 211106232532992⟩],
  [⟨37, 1, 211106232532992⟩],
  [⟨42, 0, 17592190238720⟩, ⟨46, 2, 17592190238720⟩, ⟨47, 0, 3941130710286336⟩,
   ⟨48, 0, 3941130710286336⟩, ⟨67, 0, 281474976710656⟩, ⟨68, 0, 3941130710286336⟩],
  [⟨55, 1, 16492674416640⟩],
  [⟨54, 1, 16492674416640⟩],
  [⟨56, 1, 16492674416640⟩],
  [⟨51, 1, 16492674416640⟩],
  [⟨52, 1, 16492674416640⟩],
  [⟨53, 1, 16492674416640⟩],
  [⟨39, 0, 17592190238720⟩, ⟨40, 0, 17592190238720⟩, ⟨41, 0, 17592190238720⟩,
   ⟨42, 2, 17592190238720⟩, ⟨47, 0, 17592190238720⟩, ⟨48, 0, 17592190238720⟩,
   ⟨57, 0, 17592190238720⟩, ⟨58, 0, 17592190238720⟩, ⟨67, 0, 281474976710656⟩,
   ⟨68, 0, 17592190238720⟩],
  [⟨60, 3, 158329674416128⟩],
  [⟨61, 3, 158329674416128⟩],
  [⟨66, 3, 158329682804736⟩],
  [⟨65, 3, 158329682804736⟩],
  [⟨23, 1, 17592186044416⟩],
  [⟨17, 7, 17592186044416⟩],
  [⟨32, 3, 211106232532992⟩],
  [⟨35, 2, 211106232532992⟩],
  [⟨27, 7, 17592186044416⟩],
  [⟨38, 2, 211106232532992⟩, ⟨39, 0, 211106232532992⟩, ⟨40, 0, 211106232532992⟩,
   ⟨41, 0, 211106232532992⟩],
  [⟨46, 3, 17592190238720⟩],
  [⟨57, 1, 17592190238720⟩],
  [⟨58, 1, 17592190238720⟩],
  [⟨42, 3, 17592190238720⟩],
  [⟨23, 2, 17592186044416⟩],
  [⟨35, 3, 211106232532992⟩],
  [⟨38, 3, 211106232532992⟩],
  [⟨23, 3, 17592186044416⟩],
  [⟨35, 4, 211106232532992⟩],
  [⟨23, 4, 17592186044416⟩, ⟨68, 0, 70368744177664⟩],
  [⟨23, 5, 17592186044416⟩],
  [⟨23, 6, 17592186044416⟩],
  [⟨23, 7, 17592186044416⟩, ⟨24, 0, 211106232532992⟩, ⟨25, 0, 211106232532992⟩,
   ⟨26, 0, 211106232532992⟩],
  [⟨26, 1, 211106232532992⟩],
  [⟨23, 8, 17592186044416⟩, ⟨25, 1, 211106232532992⟩],
  [⟨24, 1, 211106232532992⟩],
  [⟨26, 2, 211106232532992⟩],
  [⟨23, 9, 17592186044416⟩],
  [⟨25, 2, 211106232532992⟩, ⟨26, 0, 211106232532992⟩],
  [⟨26, 3, 211106232532992⟩],
  [⟨25, 3, 211106232532992⟩],
  [⟨26, 4, 211106232532992⟩],
  [⟨26, 5, 211106232532992⟩],
  [⟨26, 6, 211106232532992⟩]]

def weights : List Nat := [
  0, 0, 0, 0, 0, 0, 0, 0, 0, 0, 0, 2, 2, 2, 2, 0, 0, 0, 0, 1, 1, 1, 1, 2, 2, 0, 0, 0, 0, 5, 2, 0,
  0, 0, 8, 1, 2, 1, 0, 0, 7, 0, 0, 0, 0, 0, 2, 0, 0, 0, 0, 0, 0, 0, 0, 0, 0, 0, 0, 0, 2, 8, 0, 4,
  0, 1, 0, 4, 7, 0, 1, 0, 0, 0, 0, 4, 3, 0, 0, 2, 0, 0, 0, 2, 0, 0, 3, 0, 3, 2, 2, 2, 7, 7, 7, 0,
  1, 0, 1, 1, 1, 1, 1, 1, 0, 4, 5, 4, 4, 0, 2, 1, 0, 2, 0, 1, 6, 6, 5, 0, 0, 1, 0, 3, 0, 0, 0, 0,
  0, 0, 1, 0, 3, 0, 0, 1, 0, 0, 2]

def extras : List Nat := [
  0, 0, 0, 0, 0, 0, 0, 0, 0, 0, 0, 0, 0, 0, 0, 0, 0, 0, 0, 0, 0, 0, 0, 0, 0, 0, 0, 0, 0, 0, 0, 0,
  0, 0, 0, 0, 0, 0, 0, 0, 0, 0, 0, 0, 0, 0, 0, 0, 0, 3, 0, 0, 0, 0, 0, 0, 0, 0, 0, 0, 0, 0, 3, 0,
  0, 0, 3, 0, 0, 0, 0, 0, 0, 0, 0, 0, 0, 0, 0, 0, 0, 0, 0, 0, 3]

def depths : List Nat := [
  0, 2, 2, 2, 2, 2, 2, 2, 2, 1, 1, 2, 2, 2, 2, 1, 1, 0, 1, 2, 2, 2, 2, 3, 3, 3, 3, 3, 3, 7, 3, 3,
  3, 3, 11, 3, 3, 3, 3, 11, 11, 2, 0, 2, 4, 4, 4, 4, 4, 4, 4, 4, 4, 12, 3, 5, 5, 5, 5, 6, 5, 13,
  5, 5, 7, 5, 5, 5, 13, 6, 6, 8, 6, 6, 6, 7, 7, 9, 6, 6, 8, 6, 6, 6, 7, 7, 9, 9, 9, 9, 7, 7, 11,
  11, 11, 7, 7, 8, 10, 10, 10, 10, 10, 10, 10, 7, 9, 7, 7, 8, 8, 8, 10, 8, 8, 9, 11, 11, 11, 9,
  11, 9, 10, 12, 11, 12, 13, 14, 17, 15, 15, 18, 16, 16, 19, 17, 20, 21, 22]

def productions : Nonterminal → List Nat
  | .start => [2, 3, 4, 5, 6]
  | .stmt => [7, 8, 9, 10]
  | .txnStmt => [11, 12, 13, 14]
  | .dbStmt => [15, 16]
  | .ddl => [17, 18, 19, 20, 21]
  | .paropt => [22, 23]
  | .parlist => [24, 25]
  | .part => [26]
  | .dml => [27, 28, 29, 30]
  | .fieldList => [31, 32]
  | .field => [33]
  | .type => [34, 35, 36]
  | .valueList => [37, 38]
  | .value => [39, 40, 41]
  | .condition => [42]
  | .optWhereClause => [43, 44]
  | .whereClause => [45, 46]
  | .col => [47, 48]
  | .colList => [49, 50]
  | .op => [51, 52, 53, 54, 55, 56]
  | .expr => [57, 58]
  | .setClauses => [59, 60]
  | .setClause => [61]
  | .selector => [62, 63]
  | .tableList => [64, 65, 66]
  | .tbName => [67]
  | .colName => [68]

def nullable : Nonterminal → Bool
  | .paropt => true
  | .optWhereClause => true
  | _ => false

/-- The bits of the tokens with which a nonterminal can begin. -/
def first : Nonterminal → Nat
  | .start => 585172685736
  | .stmt => 1006801832
  | .txnStmt => 1006632960
  | .dbStmt => 8
  | .ddl => 416
  | .paropt => 1073741824
  | .parlist => 1073741824
  | .part => 1073741824
  | .dml => 168448
  | .fieldList => 1099511627776
  | .field => 1099511627776
  | .type => 1835008
  | .valueList => 15393162788864
  | .value => 15393162788864
  | .condition => 1099511627776
  | .optWhereClause => 16384
  | .whereClause => 1099511627776
  | .col => 1099511627776
  | .colList => 1099511627776
  | .op => 3941130710286336
  | .expr => 16492674416640
  | .setClauses => 1099511627776
  | .setClause => 1099511627776
  | .selector => 4504699138998272
  | .tableList => 1099511627776
  | .tbName => 1099511627776
  | .colName => 1099511627776

def certificate : LR.Certificate Token Nonterminal where
  code := Token.yytoken
  tokens := tokens
  numbers := List.range 69
  productions := productions
  preds := preds
  items := items
  nullable := nullable
  first := first
  weights := weights
  extras := extras
  depths := depths
  heaviest := 8

theorem certificate_check : certificate.check rule .start tables .T_EOF = true := by
  decide +kernel

end Certificate

end Sql

end RucDDBS
