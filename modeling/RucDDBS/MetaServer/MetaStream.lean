import RucDDBS.Library.Run
import RucDDBS.MetaServer.MetaStore

/-!
The file of the meta server: what `operator<<` writes and `operator>>` reads again.
Six types are nested, every one of them numbers and words with blanks between,
lists behind their lengths. Two places break the pattern. The number of columns has
no blank behind it, and the name of the partition key, which is empty in a table
that is not partitioned, is no word then.

Writing follows the pointers of the two maps in the order of an iteration; a null
pointer, and an extraction that fails, are `none`.
-/

namespace RucDDBS

open Text

namespace MetaServer

section Streams

def ParMeta.write (pm : ParMeta) : Text :=
  pm.name ++ ' ' :: (ofInt pm.pId.toInt ++ ' ' :: (pm.minRange ++ ' ' :: (pm.maxRange ++ ['\n'])))

def ParMeta.read (t : Text) : Option (ParMeta × Text) := do
  let (name, t) ← readWord t
  let (pId, t) ← readInt32 t
  let (minRange, t) ← readWord t
  let (maxRange, t) ← readWord t
  pure (⟨name, pId, minRange, maxRange⟩, t)

def writeColumn (col : Text × Int32) : Text := col.1 ++ ' ' :: (ofInt col.2.toInt ++ ['\n'])

def readColumn (t : Text) : Option ((Text × Int32) × Text) := do
  let (name, t) ← readWord t
  let (type, t) ← readInt32 t
  pure ((name, type), t)

def ColumnInfo.write (cols : ColumnInfo) : Text := ofInt cols.length ++ cols.flatMap writeColumn

def ColumnInfo.read (t : Text) : Option (ColumnInfo × Text) := do
  let (size, t) ← readInt32 t
  readMany readColumn size.toInt.toNat t

def Node.write (node : Node) : Text :=
  node.ipAddr ++ ' ' :: (ofInt node.port.toInt ++ ' ' :: (ofInt node.leaderParCnt.toInt ++
    ' ' :: (ofInt node.followerParCnt.toInt ++ ['\n'])))

def Node.read (t : Text) : Option (Node × Text) := do
  let (ipAddr, t) ← readWord t
  let (port, t) ← readInt32 t
  let (leaderParCnt, t) ← readInt32 t
  let (followerParCnt, t) ← readInt32 t
  pure (⟨ipAddr, port, false, leaderParCnt, followerParCnt⟩, t)

def TabMetaServer.write (tab : TabMetaServer) : Text :=
  ofInt tab.oid.toInt ++ ' ' :: (tab.name ++ ' ' :: (writeEnum tab.partitionType ++
    ' ' :: (tab.partitionKeyName ++ ' ' :: (writeEnum tab.partitionKeyType ++
      ' ' :: (ofInt tab.partitionCnt.toInt ++ ' ' :: (ofInt tab.partitions.length ++
        '\n' :: (tab.colInfo.write ++ (tab.partitions.flatMap ParMeta.write ++
          tab.tableLocation.write))))))))

/-- Extraction into a new object. -/
def TabMetaServer.read (t : Text) : Option (TabMetaServer × Text) := do
  let (oid, t) ← readInt32 t
  let (name, t) ← readWord t
  let (partitionType, t) ← readEnum t
  let (partitionKeyName, t) ← readWord t
  let (partitionKeyType, t) ← readEnum t
  let (partitionCnt, t) ← readInt32 t
  let (n, t) ← readCount t
  let (colInfo, t) ← ColumnInfo.read t
  let (partitions, t) ← readMany ParMeta.read n t
  let (tableLocation, t) ← PhyTableLocation.read TabMetaServer.new.tableLocation t
  pure (⟨oid, name, colInfo, partitionType, partitionKeyName, partitionKeyType, partitionCnt,
    partitions, tableLocation⟩, t)

/-- `order` is the order of the iteration over the tables. -/
def DbMetaServer.write (order : List Text) (db : DbMetaServer) : Option Text := do
  let tabs ← (db.tabs.entriesIn order).mapM fun entry => entry.2
  pure (ofInt db.nextOid.toInt ++ ' ' :: (db.name ++ ' ' :: (ofInt db.tabs.size ++
    '\n' :: tabs.flatMap fun tab => tab.write ++ ['\n'])))

/-- Extraction into a new object; a table is entered under the name it has. -/
def DbMetaServer.read (t : Text) : Option (DbMetaServer × Text) := do
  let (nextOid, t) ← readInt32 t
  let (name, t) ← readWord t
  let (n, t) ← readCount t
  let (tabs, t) ← readMany TabMetaServer.read n t
  pure (⟨nextOid, name, SortedMap.empty.putAll (tabs.map fun tab => (tab.name, some tab))⟩, t)

/-- The orders in which the hash maps are iterated, for the tables by the name of
their database. -/
structure IterationOrders where
  dbs : List Text
  tabs : Text → List Text
  nodes : List Text

def writeNode (entry : Text × Node) : Text := entry.1 ++ ' ' :: (entry.2.write ++ ['\n'])

def readNode (t : Text) : Option ((Text × Node) × Text) := do
  let (serverName, t) ← readWord t
  let (node, t) ← Node.read t
  pure ((serverName, node), t)

def write (orders : IterationOrders) (m : MetaServer) : Option Text := do
  let dbs ← (m.dbMap.entriesIn orders.dbs).mapM fun entry => entry.2
  let texts ← dbs.mapM fun db => db.write (orders.tabs db.name)
  pure (ofInt m.dbMap.size ++ '\n' :: (texts.flatMap (fun text => text ++ ['\n']) ++
    (ofInt m.ipNodeMap.size ++ '\n' :: (m.ipNodeMap.entriesIn orders.nodes).flatMap writeNode)))

def read (into : MetaServer) (t : Text) : Option (MetaServer × Text) := do
  let (n, t) ← readCount t
  let (dbs, t) ← readMany DbMetaServer.read n t
  let (n, t) ← readCount t
  let (nodes, t) ← readMany readNode n t
  pure (⟨into.dbMap.putAll (dbs.map fun db => (db.name, some db)), into.ipNodeMap.putAll nodes⟩, t)

end Streams

section RoundTrip

theorem ParMeta.read_write {pm : ParMeta} (hname : IsWord pm.name) (hmin : IsWord pm.minRange)
    (hmax : IsWord pm.maxRange) (rest : Text) :
    ParMeta.read (pm.write ++ rest) = some (pm, '\n' :: rest) := by
  simp [ParMeta.read, ParMeta.write, readWord_word hname, readWord_word hmin, readWord_word hmax]

theorem readColumn_writeColumn {col : Text × Int32} (hname : IsWord col.1) (rest : Text) :
    readColumn (writeColumn col ++ rest) = some (col, '\n' :: rest) := by
  simp [readColumn, writeColumn, readWord_word hname]

theorem Node.read_write {node : Node} (hip : IsWord node.ipAddr) (rest : Text) :
    Node.read (node.write ++ rest) = some ({ node with activate := false }, '\n' :: rest) := by
  simp [Node.read, Node.write, readWord_word hip]

theorem skipsBlanks_readColumn : SkipsBlanks readColumn := skipsBlanks_readWord.bind _

theorem ParMeta.skipsBlanks_read : SkipsBlanks ParMeta.read := skipsBlanks_readWord.bind _

theorem TabMetaServer.skipsBlanks_read : SkipsBlanks TabMetaServer.read :=
  skipsBlanks_readInt32.bind _

theorem DbMetaServer.skipsBlanks_read : SkipsBlanks DbMetaServer.read := skipsBlanks_readInt32.bind _

theorem skipsBlanks_readNode : SkipsBlanks readNode := skipsBlanks_readWord.bind _

/-- The columns are read back if the text goes on with no digit behind their number. -/
theorem ColumnInfo.read_write {cols : ColumnInfo} (hnames : ∀ col ∈ cols, IsWord col.1)
    (hcount : cols.length < 2 ^ 31) {rest : Text} (hends : NoDigit (cols.flatMap writeColumn ++ rest)) :
    ∃ left, Blanks left ∧ ColumnInfo.read (cols.write ++ rest) = some (cols, left ++ rest) := by
  have hrange : -2 ^ 31 ≤ (cols.length : Int) ∧ (cols.length : Int) < 2 ^ 31 := by omega
  have hsize : (Int32.ofInt cols.length).toInt.toNat = cols.length := by
    rw [Int32.toInt_ofInt_of_le hrange.1 hrange.2, Int.toNat_natCast]
  obtain ⟨left, hleft, hmany⟩ := readMany_left skipsBlanks_readColumn (P := Blanks)
    (fun _ h => h) (fun col hcol rest => ⟨['\n'], by simp, readColumn_writeColumn (hnames col hcol) rest⟩)
    blanks_nil rest
  refine ⟨left, hleft, ?_⟩
  rw [ColumnInfo.read, ColumnInfo.write, List.append_assoc, readInt32_ofInt hrange hends]
  simp only [Option.bind_eq_bind, Option.bind_some, hsize]
  exact hmany

/-- A table that is written as its reader expects it. -/
structure TabMetaServer.Readable (tab : TabMetaServer) : Prop where
  name : IsWord tab.name
  partitionKeyName : IsWord tab.partitionKeyName
  columns : ∀ col ∈ tab.colInfo, IsWord col.1
  columnCount : tab.colInfo.length < 2 ^ 31
  countEnds : ∀ rest, NoDigit (tab.colInfo.flatMap writeColumn ++
    (tab.partitions.flatMap ParMeta.write ++ rest))
  partitions : ∀ par ∈ tab.partitions, IsWord par.name ∧ IsWord par.minRange ∧ IsWord par.maxRange
  addressed : tab.tableLocation.Addressed

theorem TabMetaServer.Readable.read_write {tab : TabMetaServer} (h : tab.Readable) (rest : Text) :
    TabMetaServer.read (tab.write ++ rest) = some (tab, '\n' :: rest) := by
  obtain ⟨afterCols, hafterCols, hcols⟩ :=
    ColumnInfo.read_write h.columns h.columnCount (h.countEnds (tab.tableLocation.write ++ rest))
  obtain ⟨afterPars, hafterPars, hpars⟩ := readMany_left ParMeta.skipsBlanks_read (P := Blanks)
    (fun _ h => h) (fun par hpar rest => ⟨['\n'], by simp, ParMeta.read_write (h.partitions par hpar).1
      (h.partitions par hpar).2.1 (h.partitions par hpar).2.2 rest⟩)
    hafterCols (tab.tableLocation.write ++ rest)
  have hloc : PhyTableLocation.read TabMetaServer.new.tableLocation
      (afterPars ++ (tab.tableLocation.write ++ rest)) = some (tab.tableLocation, '\n' :: rest) := by
    rw [(PhyTableLocation.skipsBlanks_read _).blanks hafterPars, PhyTableLocation.read_write _ h.addressed]
    rfl
  have hskip (t : Text) : ColumnInfo.read ('\n' :: t) = ColumnInfo.read t :=
    skipsBlanks_readInt32.bind _ _ _ isWhitespace_newline
  simp only [TabMetaServer.write, List.append_assoc, List.cons_append]
  -- one field after the other
  refine Option.bind_eq_some_iff.mpr ⟨(tab.oid, _), readInt32_toInt _ (by simp), ?_⟩
  refine Option.bind_eq_some_iff.mpr ⟨(tab.name, _), (readWord_space _).trans
    (readWord_word h.name (by simp)), ?_⟩
  refine Option.bind_eq_some_iff.mpr ⟨(tab.partitionType, _), (readEnum_space _).trans
    (readEnum_writeEnum _ (by simp)), ?_⟩
  refine Option.bind_eq_some_iff.mpr ⟨(tab.partitionKeyName, _), (readWord_space _).trans
    (readWord_word h.partitionKeyName (by simp)), ?_⟩
  refine Option.bind_eq_some_iff.mpr ⟨(tab.partitionKeyType, _), (readEnum_space _).trans
    (readEnum_writeEnum _ (by simp)), ?_⟩
  refine Option.bind_eq_some_iff.mpr ⟨(tab.partitionCnt, _), (readInt32_space _).trans
    (readInt32_toInt _ (by simp)), ?_⟩
  refine Option.bind_eq_some_iff.mpr ⟨(tab.partitions.length, _), (readCount_space _).trans
    (readCount_ofInt _ (by simp)), ?_⟩
  refine Option.bind_eq_some_iff.mpr ⟨(tab.colInfo, _), (hskip _).trans hcols, ?_⟩
  refine Option.bind_eq_some_iff.mpr ⟨(tab.partitions, _), hpars, ?_⟩
  exact Option.bind_eq_some_iff.mpr ⟨(tab.tableLocation, _), hloc, rfl⟩

/-- Following pointers that are not null, each behind the name of what it points to. -/
theorem exists_pointees {α : Type} {P : α → Prop} (name : α → Text) {entries : List (Text × Option α)}
    (h : ∀ entry ∈ entries, ∃ a, entry.2 = some a ∧ name a = entry.1 ∧ P a) :
    ∃ as, entries.mapM (fun entry => entry.2) = some as ∧
      as.map (fun a => (name a, some a)) = entries ∧ ∀ a ∈ as, P a := by
  induction entries with
  | nil => exact ⟨[], rfl, rfl, by simp⟩
  | cons entry entries ih =>
      obtain ⟨a, hptr, hname, ha⟩ := h entry List.mem_cons_self
      obtain ⟨as, hderef, hmap, has⟩ := ih fun e he => h e (List.mem_cons_of_mem _ he)
      refine ⟨a :: as, by simp [hptr, hderef], ?_, by simpa using ⟨ha, has⟩⟩
      rw [List.map_cons, hmap, hname, ← hptr]

theorem mapM_eq_map {α β : Type} {f : α → Option β} {g : α → β} {l : List α}
    (h : ∀ a ∈ l, f a = some (g a)) : l.mapM f = some (l.map g) := by
  induction l with
  | nil => rfl
  | cons a l ih =>
      have hrest := ih fun b hb => h b (List.mem_cons_of_mem _ hb)
      simp [h a List.mem_cons_self, hrest]

/-- A database that is written as its reader expects it. -/
structure DbMetaServer.Readable (db : DbMetaServer) : Prop where
  name : IsWord db.name
  tabs : ∀ tabName ptr, db.tabs.get tabName = some ptr →
    ∃ tab, ptr = some tab ∧ tab.name = tabName ∧ tab.Readable

theorem DbMetaServer.Readable.read_write {db : DbMetaServer} (h : db.Readable) {order : List Text}
    (horder : db.tabs.Orders order) :
    ∃ text, db.write order = some text ∧ ∀ rest, ∃ left, Blanks left ∧
      DbMetaServer.read (text ++ rest) = some (db, left ++ rest) := by
  obtain ⟨tabs, hderef, hmap, htabs⟩ := exists_pointees (P := TabMetaServer.Readable)
    TabMetaServer.name fun entry hentry => h.tabs entry.1 entry.2 (SortedMap.mem_entriesIn hentry)
  have hput : SortedMap.empty.putAll (tabs.map fun tab => (tab.name, some tab)) = db.tabs := by
    rw [hmap, SortedMap.putAll_entriesIn horder]
  have hlength : db.tabs.size = tabs.length := by
    have hmapped := congrArg List.length hmap
    rw [List.length_map, (SortedMap.entriesIn_perm horder).length_eq] at hmapped
    exact hmapped.symm
  refine ⟨_, by rw [DbMetaServer.write, hderef]; rfl, ?_⟩
  intro rest
  have hread : ∀ tab ∈ tabs, ∀ rest, ∃ left, Blanks left ∧
      TabMetaServer.read (tab.write ++ ['\n'] ++ rest) = some (tab, left ++ rest) := by
    intro tab htab rest
    have hone := (htabs tab htab).read_write ('\n' :: rest)
    exact ⟨['\n', '\n'], by simp, by simpa using hone⟩
  obtain ⟨left, hleft, hmany⟩ := readMany_left TabMetaServer.skipsBlanks_read (P := Blanks)
    (fun _ h => h) hread (by simp : Blanks ['\n']) rest
  simp only [List.cons_append, List.nil_append] at hmany
  refine ⟨left, hleft, ?_⟩
  simp [DbMetaServer.read, readWord_word h.name, hlength, hmany, hput]

/-- A server that is written as its reader expects it. -/
structure Readable (m : MetaServer) : Prop where
  dbs : ∀ dbName ptr, m.dbMap.get dbName = some ptr →
    ∃ db, ptr = some db ∧ db.name = dbName ∧ db.Readable
  nodes : ∀ serverName node, m.ipNodeMap.get serverName = some node →
    IsWord serverName ∧ IsWord node.ipAddr

/-- The orders name all keys of the maps. -/
structure IterationOrders.Of (orders : IterationOrders) (m : MetaServer) : Prop where
  dbs : m.dbMap.Orders orders.dbs
  tabs : ∀ dbName db, m.dbMap.get dbName = some (some db) → db.tabs.Orders (orders.tabs dbName)
  nodes : m.ipNodeMap.Orders orders.nodes

theorem Node.skipsBlanks_read : SkipsBlanks Node.read := skipsBlanks_readWord.bind _

/-- What a node is after a restart of the server. -/
def switchedOff (node : Node) : Node := { node with activate := false }

instance (orders : IterationOrders) (m : MetaServer) : Decidable (orders.Of m) :=
  decidable_of_iff (m.dbMap.Orders orders.dbs ∧
      (∀ entry ∈ m.dbMap.entries, ∀ db ∈ entry.2, db.tabs.Orders (orders.tabs entry.1)) ∧
      m.ipNodeMap.Orders orders.nodes) (by
    constructor
    · rintro ⟨hdbs, htabs, hnodes⟩
      refine ⟨hdbs, ?_, hnodes⟩
      intro dbName db hget
      exact htabs _ ((m.dbMap.get_eq_some_iff dbName (some db)).mp hget) db rfl
    · rintro ⟨hdbs, htabs, hnodes⟩
      refine ⟨hdbs, ?_, hnodes⟩
      rintro ⟨dbName, ptr⟩ hentry db rfl
      exact htabs dbName db ((m.dbMap.get_eq_some_iff dbName (some db)).mpr hentry))

theorem readNode_writeNode {entry : Text × Node} (hname : IsWord entry.1) (hip : IsWord entry.2.ipAddr)
    (rest : Text) :
    readNode (writeNode entry ++ rest) = some ((entry.1, switchedOff entry.2), '\n' :: '\n' :: rest) := by
  have hnode : Node.read (' ' :: (entry.2.write ++ '\n' :: rest)) =
      some (switchedOff entry.2, '\n' :: '\n' :: rest) := by
    rw [Node.skipsBlanks_read _ _ isWhitespace_space, Node.read_write hip]
    rfl
  simp [readNode, writeNode, readWord_word hname, hnode]

/-- A database on a line of its own is read back. -/
theorem DbMetaServer.Readable.read_line {db : DbMetaServer} (h : db.Readable) {order : List Text}
    (horder : db.tabs.Orders order) :
    db.write order = some ((db.write order).getD []) ∧ ∀ rest, ∃ left, Blanks left ∧
      DbMetaServer.read ((db.write order).getD [] ++ ['\n'] ++ rest) = some (db, left ++ rest) := by
  obtain ⟨text, hwrite, hback⟩ := h.read_write horder
  rw [hwrite, Option.getD_some]
  refine ⟨rfl, ?_⟩
  intro rest
  obtain ⟨left, hleft, hone⟩ := hback ('\n' :: rest)
  exact ⟨left ++ ['\n'], hleft.append (by simp), by simpa using hone⟩

/-- The nodes are read back behind their number, switched off. -/
theorem Readable.read_nodes {m : MetaServer} (h : m.Readable) {order : List Text}
    (horder : m.ipNodeMap.Orders order) (rest : Text) :
    ∃ left, Blanks left ∧
      readMany readNode m.ipNodeMap.size
          ('\n' :: ((m.ipNodeMap.entriesIn order).flatMap writeNode ++ rest)) =
        some ((m.ipNodeMap.entriesIn order).map fun entry => (entry.1, switchedOff entry.2),
          left ++ rest) := by
  let nodes := (m.ipNodeMap.entriesIn order).map fun entry => (entry.1, switchedOff entry.2)
  have hnodes : (m.ipNodeMap.entriesIn order).flatMap writeNode = nodes.flatMap writeNode := by
    simp only [nodes, List.flatMap_map]
    rfl
  have hlength : m.ipNodeMap.size = nodes.length := by
    simp only [nodes, List.length_map, (SortedMap.entriesIn_perm horder).length_eq]
    rfl
  have hread : ∀ entry ∈ nodes, ∀ rest, ∃ left, Blanks left ∧
      readNode (writeNode entry ++ rest) = some (entry, left ++ rest) := by
    intro entry hentry rest
    obtain ⟨old, hold, rfl⟩ := List.mem_map.mp hentry
    obtain ⟨hname, hip⟩ := h.nodes old.1 old.2 (SortedMap.mem_entriesIn hold)
    exact ⟨['\n', '\n'], by simp, @readNode_writeNode old hname hip rest⟩
  obtain ⟨left, hleft, hmany⟩ := readMany_left skipsBlanks_readNode (P := Blanks)
    (fun _ h => h) hread (by simp : Blanks ['\n']) rest
  rw [hnodes, hlength]
  exact ⟨left, hleft, hmany⟩

/-- What a server without null pointers and with readable tables writes is read back,
whatever the orders of the iterations, with all nodes switched off. -/
theorem Readable.read_write {m : MetaServer} (h : m.Readable) {orders : IterationOrders}
    (horders : orders.Of m) :
    ∃ text, m.write orders = some text ∧ ∀ rest, ∃ left m', Blanks left ∧
      read new (text ++ rest) = some (m', left ++ rest) ∧ m'.dbMap = m.dbMap ∧
      ∀ name, m'.ipNodeMap.get name =
        (m.ipNodeMap.get name).map switchedOff := by
  obtain ⟨dbs, hderef, hmap, hdbs⟩ := exists_pointees (P := DbMetaServer.Readable)
    DbMetaServer.name fun entry hentry => h.dbs entry.1 entry.2 (SortedMap.mem_entriesIn hentry)
  have hput : SortedMap.empty.putAll (dbs.map fun db => (db.name, some db)) = m.dbMap := by
    rw [hmap, SortedMap.putAll_entriesIn horders.dbs]
  have hlength : m.dbMap.size = dbs.length := by
    have hmapped := congrArg List.length hmap
    rw [List.length_map, (SortedMap.entriesIn_perm horders.dbs).length_eq] at hmapped
    exact hmapped.symm
  have horder (db : DbMetaServer) (hdb : db ∈ dbs) : db.tabs.Orders (orders.tabs db.name) := by
    have hmem : (db.name, some db) ∈ m.dbMap.entriesIn orders.dbs := by
      rw [← hmap]
      exact List.mem_map.mpr ⟨db, hdb, rfl⟩
    exact horders.tabs db.name db (SortedMap.mem_entriesIn hmem)
  let text (db : DbMetaServer) : Text := (db.write (orders.tabs db.name)).getD []
  have hline (db : DbMetaServer) (hdb : db ∈ dbs) := (hdbs db hdb).read_line (horder db hdb)
  have htext : ∀ db ∈ dbs, db.write (orders.tabs db.name) = some (text db) :=
    fun db hdb => (hline db hdb).1
  have hwrite : m.write orders = some (ofInt dbs.length ++ '\n' ::
      (dbs.flatMap (fun db => text db ++ ['\n']) ++ (ofInt m.ipNodeMap.size ++
        '\n' :: (m.ipNodeMap.entriesIn orders.nodes).flatMap writeNode))) := by
    rw [MetaServer.write, hderef]
    simp [mapM_eq_map htext, hlength, List.flatMap_map]
  refine ⟨_, hwrite, ?_⟩
  intro rest
  let nodesText : Text := ofInt m.ipNodeMap.size ++
    '\n' :: ((m.ipNodeMap.entriesIn orders.nodes).flatMap writeNode ++ rest)
  obtain ⟨afterDbs, hafterDbs, hmanyDbs⟩ := readMany_left DbMetaServer.skipsBlanks_read (P := Blanks)
    (fun _ h => h) (fun db hdb => (hline db hdb).2) (by simp : Blanks ['\n']) nodesText
  obtain ⟨left, hleft, hmanyNodes⟩ := h.read_nodes horders.nodes rest
  have hcount := skipsBlanks_readCount.blanks hafterDbs nodesText
  simp only [List.cons_append, List.nil_append, nodesText] at hmanyDbs hcount
  refine ⟨left, ⟨m.dbMap, SortedMap.empty.putAll ((m.ipNodeMap.entriesIn orders.nodes).map
    fun entry => (entry.1, switchedOff entry.2))⟩, hleft, ?_, rfl, ?_⟩
  · simp [MetaServer.read, text, hmanyDbs, hcount, hmanyNodes, new, hput]
  · intro name
    exact SortedMap.get_putAll_entriesIn switchedOff horders.nodes name

end RoundTrip

end MetaServer

end RucDDBS
