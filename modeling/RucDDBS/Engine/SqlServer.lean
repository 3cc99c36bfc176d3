import RucDDBS.Engine.SqlRefinement
import RucDDBS.Engine.SqlText

/-!
A client session from texts to texts: what `Sql_execute_client` does with a text to the
session, to the scanner and to etcd, and the text that it answers. A session that works inside
one transaction finds the database of its statements, however it writes them, exactly if the lock
calls of its statements on rows get a transaction at the nodes. It is alone on the server: no other
transaction holds a lock that it would have to wait for.
-/

namespace RucDDBS

namespace Sql

open Ast Relational

section Server

/-- A request, with what unset cells hold while it is executed. -/
structure Query extends Request where
  unset : Unset

structure Server where
  front : Front
  etcd : Etcd

variable (atof : Text → UInt32) (self : IpPort) (txn : Option Transaction)
  (typeName : OpType → Text)

/-- `Sql_execute_client`, with its answer. There is none where the session or the plan does
what is undefined. -/
def serve (s : Server) (q : Query) : Option (Server × Text) := do
  let (front, _) := sqlExecuteText atof self s.front q.toRequest
  match ← parseText atof q.slots q.junk (parserSql s.front.start q.text) s.front.parseTree with
  | .done 0 cy =>
      if front.session.running = true then do
        let (etcd, text) ← lockedAnswer txn typeName s.etcd q.unset cy.parseTree
        pure (⟨front, etcd⟩, text)
      else none
  | .done _ _ => do
      let text ← cliStr {}
      pure (⟨front, s.etcd⟩, text)
  | _ => none

end Server

section Client

variable (atof : Text → UInt32)

/-- What the client believes: the database, and whether it has begun its transaction. -/
structure Client where
  db : Database
  opened : Bool

/-- The text is a statement, written in some way, and whatever else. -/
def TextOf (text : Text) (tree : TreeNode) : Prop :=
  (scanned atof).TreeOk tree ∧ ∃ rest, Spelled atof rest (treeTokens tree) text

/-- One BEGIN that gets an id, and the statements that need a transaction behind it. -/
def Allowed (opened : Bool) (reply : TimestampReply) : TreeNode → Prop
  | .txnBegin => opened = false ∧ getTimestampFromServer reply ≠ 0
  | .select _ | .insert _ | .delete _ | .update _ | .txnCommit | .txnAbort => opened = true
  | _ => True

def opens : TreeNode → Bool
  | .txnBegin => true
  | _ => false

def Poses (c : Client) (q : Query) (c' : Client) : Prop :=
  ∃ tree, TextOf atof q.text tree ∧ Supported c.db tree ∧ Allowed c.opened q.reply tree ∧
    c' = ⟨apply c.db tree, c.opened || opens tree⟩

/-- The text is a statement on rows. -/
def OnRows (q : Query) : Prop :=
  ∃ tree, TextOf atof q.text tree ∧ onRows tree = true

def Expects (c : Client) (q : Query) (reply : Reply) : Prop :=
  ∃ tree, TextOf atof q.text tree ∧ Answers c.db tree reply

/-- The client poses its texts one after the other and gets these replies. -/
abbrev ServedRun := Lts.Run fun c (x : Query × Reply) c' =>
  Poses atof c x.1 c' ∧ Expects atof c x.1 x.2

end Client

section Sessions

variable {atof : Text → UInt32} {self : IpPort} {opened : Bool} {session : SqlSession.State}
  {reply : TimestampReply} {tree : TreeNode}

/-- A session whose transaction, if it has begun one, is in the map of the server. -/
structure InTxn (opened : Bool) (session : SqlSession.State) : Prop where
  running : session.running = true
  txn : opened = true → session.txnId ≠ 0 ∧
    ∃ txn, session.txnMap session.txnId = some txn ∧ txn.txnId = session.txnId

theorem inTxn_connect (txnMap : TxnId → Option SqlSession.SqlTxn) (begun : Nat) :
    InTxn false (SqlSession.connect txnMap begun) :=
  ⟨rfl, nofun⟩

/-- Inside its transaction a plan neither begins nor commits one. -/
theorem InTxn.execPlan (h : InTxn true session) :
    InTxn true (SqlSession.execPlan self session reply).1 := by
  obtain ⟨hne, txn, hmap, hid⟩ := h.txn rfl
  have hsame : { session with txnId := txn.txnId } = session := by rw [hid]
  rw [SqlSession.execPlan, if_neg hne, hmap]
  dsimp only
  rw [hsame]
  exact h

theorem InTxn.step (h : InTxn opened session) (hallowed : Allowed opened reply tree) :
    InTxn (opened || opens tree)
      (SqlSession.sqlExecuteClient self session reply (branch (some tree))).1 := by
  cases tree with
  | select x =>
      cases hallowed
      exact h.execPlan
  | insert x =>
      cases hallowed
      exact h.execPlan
  | delete x =>
      cases hallowed
      exact h.execPlan
  | update x =>
      cases hallowed
      exact h.execPlan
  | txnBegin =>
      rw [opens, Bool.or_true]
      exact ⟨h.running, fun _ => ⟨hallowed.2, _, Function.update_self .., rfl⟩⟩
  | txnCommit =>
      cases hallowed
      obtain ⟨hne, _⟩ := h.txn rfl
      rw [branch, SqlSession.sqlExecuteClient, if_neg hne]
      exact ⟨h.running, h.txn⟩
  | txnAbort =>
      cases hallowed
      obtain ⟨hne, _⟩ := h.txn rfl
      rw [branch, SqlSession.sqlExecuteClient, if_neg hne]
      exact ⟨h.running, h.txn⟩
  | _ =>
      cases opened with
      | false => exact h
      | true => exact h

end Sessions

section Runs

variable {atof : Text → UInt32} {self : IpPort} {typeName : OpType → Text} {s : Server}
  {c c' : Client} {q : Query} {queries : List Query} {tree tree' : TreeNode}

/-- The server is where the client believes it to be. -/
structure Serves (s : Server) (c : Client) : Prop where
  start : s.front.start = .INITIAL
  session : InTxn c.opened s.front.session
  database : ∃ rows, Represents s.etcd rows c.db

theorem textOf_unique {text : Text} (h : TextOf atof text tree) (h' : TextOf atof text tree') :
    tree = tree' := by
  obtain ⟨hok, rest, hspelled⟩ := h
  obtain ⟨hok', rest', hspelled'⟩ := h'
  have hboth := parses_unique (parses_spelled hok hspelled) (parses_spelled hok' hspelled')
  exact Option.some.inj hboth.1

/-- The front of the server hands the tree of a text on, and is ready for the next one. -/
theorem Serves.serve_eq (h : Serves s c) (self : IpPort) (txn : Option Transaction)
    (typeName : OpType → Text) (htext : TextOf atof q.text tree)
    (hallowed : Allowed c.opened q.reply tree) :
    ∃ front, front.start = .INITIAL ∧ InTxn (c.opened || opens tree) front.session ∧
      serve atof self txn typeName s q =
        (lockedAnswer txn typeName s.etcd q.unset (some tree)).map fun last =>
          (⟨front, last.1⟩, last.2) := by
  obtain ⟨hok, rest, hspelled⟩ := htext
  have hparses : Parses (yylex atof) (parserSql s.front.start q.text) (some tree)
      (parserSql .INITIAL rest) := by
    rw [h.start]
    exact parses_spelled hok hspelled
  have hsession : InTxn (c.opened || opens tree) (SqlSession.sqlExecuteClient self s.front.session
      q.reply (branch (some tree))).1 := h.session.step hallowed
  obtain ⟨cy, hout, htree, _⟩ : ∃ cy, parseText atof q.slots q.junk
      (parserSql s.front.start q.text) s.front.parseTree = some (.done 0 cy) ∧ _ :=
    parseText_iff.mp hparses
  refine ⟨⟨(SqlSession.sqlExecuteClient self s.front.session q.reply (branch (some tree))).1,
    .INITIAL, some tree⟩, rfl, hsession, ?_⟩
  rw [serve, sqlExecuteText_of_parses hparses, hout]
  refine (if_pos hsession.running).trans ?_
  rw [htree]
  cases lockedAnswer txn typeName s.etcd q.unset (some tree) with
  | none => rfl
  | some last => rfl

/-- One text. -/
theorem Serves.step (h : Serves s c) (self : IpPort) {txn : Option Transaction}
    (typeName : OpType → Text) (hposes : Poses atof c q c') (hok : OnRows atof q → txn ≠ none) :
    ∃ s' reply, serve atof self txn typeName s q = some (s', Reply.text reply) ∧
      Expects atof c q reply ∧ Serves s' c' := by
  obtain ⟨tree, htext, hsupported, hallowed, rfl⟩ := hposes
  obtain ⟨rows, hdatabase⟩ := h.database
  obtain ⟨etcd', rows', reply, hanswer, hreply, hnew⟩ :=
    hdatabase.step typeName q.unset hsupported
  obtain ⟨front, hstart, hsession, hserve⟩ := h.serve_eq self txn typeName htext hallowed
  have hlocked : lockedAnswer txn typeName s.etcd q.unset (some tree) =
      some (etcd', reply.text) := by
    rw [hdatabase.locked txn typeName q.unset hsupported, if_neg]
    · exact hanswer
    · rintro ⟨hrows, hnull⟩
      exact hok ⟨tree, htext, hrows⟩ hnull
  rw [hlocked] at hserve
  exact ⟨_, reply, hserve, ⟨tree, htext, hreply⟩, hstart, hsession, rows', hnew⟩

/-- A text that does not get beyond its first lock call. -/
theorem Serves.stuck (h : Serves s c) (self : IpPort) {txn : Option Transaction}
    (typeName : OpType → Text) (hposes : Poses atof c q c')
    (hnot : ¬ (OnRows atof q → txn ≠ none)) : serve atof self txn typeName s q = none := by
  obtain ⟨⟨tree', htext', hrows⟩, hnull⟩ := Classical.not_imp.mp hnot
  obtain ⟨tree, htext, hsupported, hallowed, _⟩ := hposes
  have hsame : tree = tree' := textOf_unique htext htext'
  subst hsame
  obtain ⟨rows, hdatabase⟩ := h.database
  obtain ⟨front, _, _, hserve⟩ := h.serve_eq self txn typeName htext hallowed
  rw [hserve, hdatabase.locked txn typeName q.unset hsupported,
    if_pos ⟨hrows, not_not.mp hnull⟩]
  rfl

/-- Statements behind the BEGIN of a session, as they are asked of the database. -/
theorem poses_of_asks {asked : List (Unset × TreeNode)} {db db' : Database}
    {query : Unset × TreeNode → Query} (h : Lts.Run Asks db asked db')
    (htexts : ∀ a ∈ asked, TextOf atof (query a).text a.2)
    (hopen : ∀ a ∈ asked, Allowed true (query a).reply a.2) :
    Lts.Run (Poses atof) ⟨db, true⟩ (asked.map query) ⟨db', true⟩ := by
  induction h with
  | nil db => exact .nil _
  | cons hasks _ ih =>
      obtain ⟨hsupported, rfl⟩ := hasks
      obtain ⟨hfirst, hrest⟩ := List.forall_mem_cons.mp htexts
      obtain ⟨hallowed, hall⟩ := List.forall_mem_cons.mp hopen
      exact .cons ⟨_, hfirst, hsupported, hallowed, rfl⟩ (ih hrest hall)

/-- A statement without floats, with a blank before each of its tokens. -/
theorem textOf_plainText {tree : TreeNode} (hok : (scanned atof).TreeOk tree)
    (hfloat : ∀ tok ∈ treeTokens tree, tok.1 ≠ .VALUE_FLOAT) :
    TextOf atof ((treeTokens tree).flatMap fun tok => ' ' :: plainText tok) tree := by
  refine ⟨hok, [], spelled_blanks ?_⟩
  intro tok hmem
  exact spells_plainText (wordOk_treeTokens hok tok hmem)
    (no_eof_of_tree (reads_tree hok) tok hmem) (hfloat tok hmem)

def plainQuery (asked : Unset × TreeNode) : Query where
  text := (treeTokens asked.2).flatMap fun tok => ' ' :: plainText tok
  reply := .answered 1
  slots := fun _ => ⟨0, 0, .eq⟩
  junk := ⟨0, 0, .eq⟩
  unset := asked.1

theorem tableStatements_ok : ∀ tree ∈ tableStatements, (scanned fun _ => 0).TreeOk tree := by
  have ha : IsName ['a'] := ⟨isWord_of_all rfl rfl, by decide +kernel⟩
  have hb : IsName ['b'] := ⟨isWord_of_all rfl rfl, by decide +kernel⟩
  have ht : IsName ['t'] := isName_t
  simp [tableStatements, Lexicon.TreeOk, Lexicon.StmtOk, Lexicon.FieldOk, Lexicon.TypeOk,
    Lexicon.ParOptOk, Lexicon.ValueOk, Lexicon.CondOk, Lexicon.ColOk, Lexicon.ExprOk,
    Lexicon.ClauseOk, scanned, ha, hb, ht]

def beginQuery : Query := plainQuery (⟨fun _ _ _ => 0, fun _ _ _ => 0⟩, .txnBegin)

end Runs

end Sql

end RucDDBS
