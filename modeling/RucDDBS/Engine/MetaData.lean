import Mathlib.Data.List.Lex
import Mathlib.Data.List.Nodup
import Mathlib.Data.Char
import RucDDBS.Engine.Plan
import RucDDBS.Library.SortedMap
import RucDDBS.Library.Ranges

/-!
The metadata of a table: three texts in etcd, written when the table is created
and parsed again for every statement. etcd returns what was put last under a key
and the empty text where nothing is; every put succeeds. What is undefined in the
source, such as a `sscanf` that finds less than its format or more than its
buffer holds, is `none` here.
-/

namespace RucDDBS

open Text

abbrev Etcd := SortedMap Text Text

def etcdGet (etcd : Etcd) (key : Text) : Text := (etcd.get key).getD []

def ipKey (tabName : Text) : Text := "/meta_data/ip_address/".toList ++ tabName
def parKey (tabName : Text) : Text := "/meta_data/par_info/".toList ++ tabName
def colKey (tabName : Text) : Text := "/meta_data/col_info/".toList ++ tabName

def parMin : Int32 := -2147483648
def parMax : Int32 := 2147483647

def ip (i : Nat) : Text := if i % 2 = 0 then "0.0.0.0:8005".toList else "0.0.0.0:8006".toList

/-- `Column_info`; a type is kept as its number. -/
structure ColumnInfo where
  columnName : List Text := []
  columnType : List Int := []
  deriving DecidableEq

/-- `vec_to_string`. -/
def vecToString (vec : List Text) : Text := ofInt vec.length ++ spread vec

section Write

def writePar (i : Nat) : Text := ofInt i ++ ',' :: ip i

def writeRange (range : Int32 × Int32) : Text := ofInt range.1.toInt ++ ',' :: ofInt range.2.toInt

/-- The length written is always 4. -/
def writeCol (col : Text × Int) : Text := col.1 ++ ',' :: (ofInt col.2 ++ ',' :: ofInt 4)

/-- Partition `i` lies between bounds `i` and `i + 1`. -/
def parRanges (parVals : List Int32) : List (Int32 × Int32) := Ranges.cuts parVals

/-- `create_par_table`. -/
def createParTable (etcd : Etcd) (tabName : Text) (colsInfo : ColumnInfo) (parVals : List Int32) :
    Etcd × Bool :=
  if etcdGet etcd (ipKey tabName) ≠ [] then (etcd, false)
  else
    let parValue := (List.range (parVals.length - 1)).map writePar
    let parInfo := (parRanges parVals).map writeRange
    let colInfo := (colsInfo.columnName.zip colsInfo.columnType).map writeCol
    (((etcd.put (ipKey tabName) (vecToString parValue)).put (parKey tabName)
      (vecToString parInfo)).put (colKey tabName) (vecToString colInfo), true)

end Write

namespace Ast

def SvType.number : SvType → Int
  | .int => 0
  | .float => 1
  | .string => 2

/-- The bounds between the least and the greatest value. -/
def CreateTable.parVals (create : CreateTable) : List Int32 :=
  parMin :: create.parOpt.getD [] ++ [parMax]

def CreateTable.columns (create : CreateTable) : List (Text × Int) :=
  create.fields.map fun field => (field.colName, field.type.number)

end Ast

/-- `create_table`. -/
def createTable (etcd : Etcd) (create : Ast.CreateTable) : Etcd × Bool :=
  createParTable etcd create.tabName
    ⟨create.columns.map Prod.fst, create.columns.map Prod.snd⟩ create.parVals

section Read

variable {α : Type}

def readComma : Text → Option Text
  | ',' :: t => some t
  | _ => none

/-- `sscanf` with `"%d,%s"`, into a buffer of 20 characters. -/
def readPar (tmp : Text) : Option (Int × Text) := do
  let (par, t) ← readNumber tmp
  let t ← readComma t
  let (ipAdd, _) ← readWord t
  if ipAdd.length < 20 then pure (par, ipAdd) else none

/-- `sscanf` with `"%d,%d"`. -/
def readRange (tmp : Text) : Option (Int × Int) := do
  let (min, t) ← readNumber tmp
  let t ← readComma t
  let (max, _) ← readNumber t
  pure (min, max)

/-- `sscanf` with `"%[^,],%d,%d"`, into a buffer of 20 characters. -/
def readCol (tmp : Text) : Option (Text × Int) := do
  let name := tmp.takeWhile (· ≠ ',')
  let t ← readComma (tmp.dropWhile (· ≠ ','))
  let (type, t) ← readNumber t
  let t ← readComma t
  let (_, _) ← readNumber t
  if name ≠ [] ∧ name.length < 20 then pure (name, type) else none

def readItem (parse : Text → Option α) (stream : Text) : Option (α × Text) := do
  let (tmp, stream) ← readWord stream
  let item ← parse tmp
  pure (item, stream)

/-- A list as `vec_to_string` wrote it, with what follows it in the stream. -/
def readVec (parse : Text → Option α) (stream : Text) : Option (List α × Text) := do
  let (size, stream) ← readNumber stream
  readMany (readItem parse) size.toNat stream

/-- `GetColInfo`. Without the table nothing is read and the columns stay empty. -/
def getColInfo (etcd : Etcd) (tabName : Text) : Option ColumnInfo :=
  let res := etcdGet etcd (colKey tabName)
  if res = [] then some {}
  else do
    let (cols, _) ← readVec readCol res
    pure ⟨cols.map Prod.fst, cols.map Prod.snd⟩

def atoi (t : Text) : Int := ((readNumber t).map Prod.fst).getD 0

def inRange (z : Int) (range : Int × Int) : Bool := decide (range.1 ≤ z) && decide (z < range.2)

/-- `GetTableIp`: the partitions whose range holds one of the two given numbers, in
ascending order, each with its address. Both texts are read from one stream. -/
def getTableIp (etcd : Etcd) (tabName minRange maxRange : Text) : Option (List (Nat × Text)) := do
  let ipVal := etcdGet etcd (ipKey tabName)
  let parVal := etcdGet etcd (parKey tabName)
  let (ips, stream) ← readVec readPar ipVal
  let mp : SortedMap Int Text := SortedMap.empty.putAll ips
  let (ranges, _) ← readVec readRange (stream ++ parVal)
  let hit := ranges.zipIdx.filter fun r =>
    inRange (atoi minRange) r.1 || inRange (atoi maxRange) r.1
  pure (hit.map fun r => (r.2, (mp.get (r.2 : Int)).getD []))

end Read

section RoundTrip

variable {α β : Type}

theorem readItem_spread {parse : Text → Option α} {word : Text} {item : α} (hword : IsWord word)
    (hparse : parse word = some item) {rest : Text} (hrest : AtBlank rest) :
    readItem parse (' ' :: (word ++ rest)) = some (item, rest) := by
  simp [readItem, readWord_spread hword hrest, hparse]

/-- A list that was written is read back, if its items are words that are. -/
theorem readVec_vecToString {parse : Text → Option α} (write : β → Text) (value : β → α)
    (items : List β)
    (h : ∀ item ∈ items, IsWord (write item) ∧ parse (write item) = some (value item)) :
    readVec parse (vecToString (items.map write)) = some (items.map value, []) := by
  have hsize := readNumber_ofInt (items.map write).length (atBlank_spread (items.map write)).noDigit
  have hitems := readMany_spread write value items fun item hitem rest hrest =>
    readItem_spread (h item hitem).1 (h item hitem).2 hrest
  rw [vecToString, readVec, hsize]
  simpa using hitems

theorem ip_word (i : Nat) : IsWord (ip i) ∧ (ip i).length < 20 := by
  unfold ip
  split
  · exact ⟨isWord_of_all (by decide) (by decide), by decide⟩
  · exact ⟨isWord_of_all (by decide) (by decide), by decide⟩

theorem comma_noDigit (rest : Text) : NoDigit (',' :: rest) := by
  intro c hc
  cases hc
  decide

theorem writePar_word (i : Nat) : IsWord (writePar i) := by
  apply (isWord_ofInt i).append
  intro c hc
  rcases List.mem_cons.mp hc with rfl | hip
  · decide
  · exact (ip_word i).1.no_blank c hip

theorem readPar_writePar (i : Nat) : readPar (writePar i) = some ((i : Int), ip i) := by
  have hnumber := readNumber_ofInt i (comma_noDigit (ip i))
  have hword := readWord_word (ip_word i).1 atBlank_nil
  rw [List.append_nil] at hword
  simp [readPar, writePar, hnumber, readComma, hword, (ip_word i).2]

theorem writeRange_word (range : Int32 × Int32) : IsWord (writeRange range) := by
  apply (isWord_ofInt range.1.toInt).append
  intro c hc
  rcases List.mem_cons.mp hc with rfl | hmax
  · decide
  · exact (isWord_ofInt range.2.toInt).no_blank c hmax

/-- A range as the numbers of its bounds. -/
def rangeInt (range : Int32 × Int32) : Int × Int := (range.1.toInt, range.2.toInt)

theorem readRange_writeRange (range : Int32 × Int32) :
    readRange (writeRange range) = some (rangeInt range) := by
  have hmin := readNumber_ofInt range.1.toInt (comma_noDigit (ofInt range.2.toInt))
  have hmax := readNumber_ofInt range.2.toInt atBlank_nil.noDigit
  rw [List.append_nil] at hmax
  simp [readRange, writeRange, hmin, readComma, hmax, rangeInt]

/-- A column name that `GetColInfo` reads back. -/
structure IsName (name : Text) : Prop where
  word : IsWord name
  no_comma : ∀ c ∈ name, c ≠ ','
  fits : name.length < 20

theorem writeCol_word {col : Text × Int} (h : IsName col.1) : IsWord (writeCol col) := by
  apply h.word.append
  intro c hc
  rcases List.mem_cons.mp hc with rfl | htail
  · decide
  · rcases List.mem_append.mp htail with htype | hlen
    · exact (isWord_ofInt col.2).no_blank c htype
    · rcases List.mem_cons.mp hlen with rfl | hfour
      · decide
      · exact (isWord_ofInt 4).no_blank c hfour

theorem readCol_writeCol {col : Text × Int} (h : IsName col.1) :
    readCol (writeCol col) = some col := by
  obtain ⟨name, type⟩ := col
  have hname : ∀ c ∈ name, decide (c ≠ ',') = true := fun c hc => by simp [h.no_comma c hc]
  have hcomma : ∀ c ∈ (',' :: (ofInt type ++ ',' :: ofInt 4)).head?, decide (c ≠ ',') = false := by
    simp
  obtain ⟨htake, hdrop⟩ := cut hname hcomma
  have htype := readNumber_ofInt type (comma_noDigit (ofInt 4))
  have hlen := readNumber_ofInt 4 atBlank_nil.noDigit
  rw [List.append_nil] at hlen
  simp only [readCol, writeCol, htake, hdrop]
  simp [readComma, htype, hlen, h.word.ne_nil, h.fits]

theorem atoi_ofInt (z : Int) : atoi (ofInt z) = z := by
  have h := readNumber_ofInt z atBlank_nil.noDigit
  rw [List.append_nil] at h
  rw [atoi, h]
  rfl

end RoundTrip

/-- etcd holds the three texts of a table. -/
structure Created (etcd : Etcd) (create : Ast.CreateTable) : Prop where
  ipAddress : etcdGet etcd (ipKey create.tabName) =
    vecToString ((List.range (create.parVals.length - 1)).map writePar)
  parInfo : etcdGet etcd (parKey create.tabName) =
    vecToString ((parRanges create.parVals).map writeRange)
  colInfo : etcdGet etcd (colKey create.tabName) = vecToString (create.columns.map writeCol)

/-- etcd holds the two texts that tell the partitions of a table. -/
structure Partitioned (etcd : Etcd) (tabName : Text) (parVals : List Int32) : Prop where
  ipAddress : etcdGet etcd (ipKey tabName) =
    vecToString ((List.range (parVals.length - 1)).map writePar)
  parInfo : etcdGet etcd (parKey tabName) = vecToString ((parRanges parVals).map writeRange)

theorem Created.partitioned {etcd : Etcd} {create : Ast.CreateTable} (h : Created etcd create) :
    Partitioned etcd create.tabName create.parVals := ⟨h.ipAddress, h.parInfo⟩

/-- The columns of a table are such that its statements can read them. -/
structure Ast.CreateTable.Readable (create : Ast.CreateTable) : Prop where
  fields : create.fields ≠ []
  names : ∀ field ∈ create.fields, IsName field.colName

section Keys

variable {front front' : Text} (n : Nat)

/-- Two keys differ if they differ within what precedes the names. -/
theorem append_ne (hfront : n ≤ front.length) (hfront' : n ≤ front'.length)
    (h : front.take n ≠ front'.take n) (name name' : Text) : front ++ name ≠ front' ++ name' := by
  intro heq
  apply h
  have htake := congrArg (List.take n) heq
  rwa [List.take_append_of_le_length hfront, List.take_append_of_le_length hfront'] at htake

end Keys

theorem ipKey_ne_parKey (name name' : Text) : ipKey name ≠ parKey name' :=
  append_ne 12 (by decide) (by decide) (by decide) name name'

theorem ipKey_ne_colKey (name name' : Text) : ipKey name ≠ colKey name' :=
  append_ne 12 (by decide) (by decide) (by decide) name name'

theorem parKey_ne_colKey (name name' : Text) : parKey name ≠ colKey name' :=
  append_ne 12 (by decide) (by decide) (by decide) name name'

theorem etcdGet_put (etcd : Etcd) (key key' value : Text) :
    etcdGet (etcd.put key value) key' = if key' = key then value else etcdGet etcd key' := by
  rw [etcdGet, SortedMap.get_put]
  split
  · rfl
  · rfl

/-- `create_par_table` leaves them in etcd, whatever the bounds are. -/
theorem createParTable_partitioned {etcd : Etcd} {tabName : Text} {colsInfo : ColumnInfo}
    {parVals : List Int32} (h : (createParTable etcd tabName colsInfo parVals).2 = true) :
    Partitioned (createParTable etcd tabName colsInfo parVals).1 tabName parVals := by
  unfold createParTable at h ⊢
  split
  next hold =>
    rw [if_pos hold] at h
    cases h
  next =>
    have hip := ipKey_ne_colKey tabName tabName
    have hip' := ipKey_ne_parKey tabName tabName
    have hpar := parKey_ne_colKey tabName tabName
    constructor
    · simp [etcdGet_put, hip, hip']
    · simp [etcdGet_put, hpar]

/-- `create_table` leaves the texts of the table in etcd. -/
theorem createTable_created {etcd : Etcd} {create : Ast.CreateTable}
    (h : (createTable etcd create).2 = true) : Created (createTable etcd create).1 create := by
  have hpartitioned := createParTable_partitioned h
  refine ⟨hpartitioned.ipAddress, hpartitioned.parInfo, ?_⟩
  unfold createTable createParTable at h ⊢
  split
  next hold =>
    rw [if_pos hold] at h
    cases h
  next =>
    have hzip : (create.columns.map Prod.fst).zip (create.columns.map Prod.snd) =
        create.columns := by
      simpa using List.zip_unzip create.columns
    simp [etcdGet_put, hzip]

section Spec

variable {etcd : Etcd} {create : Ast.CreateTable}

/-- What `GetColInfo` reads of a table that was created. -/
theorem getColInfo_created (h : Created etcd create) (hread : create.Readable) :
    getColInfo etcd create.tabName =
      some ⟨create.columns.map Prod.fst, create.columns.map Prod.snd⟩ := by
  have hitems : ∀ col ∈ create.columns,
      IsWord (writeCol col) ∧ readCol (writeCol col) = some (id col) := by
    intro col hcol
    obtain ⟨field, hfield, rfl⟩ := List.mem_map.mp hcol
    have hname : IsName (field.colName, field.type.number).1 := hread.names field hfield
    exact ⟨writeCol_word hname, readCol_writeCol hname⟩
  have hne : vecToString (create.columns.map writeCol) ≠ [] := by
    simp [vecToString, ofInt_ne_nil]
  rw [getColInfo, h.colInfo]
  simp [hne, readVec_vecToString writeCol id create.columns hitems]

/-- The partitions that `GetTableIp` finds for two numbers. -/
def hitPartitions (parVals : List Int32) (min max : Int) : List (Nat × Text) :=
  let hit := ((parRanges parVals).map rangeInt).zipIdx.filter fun r =>
    inRange min r.1 || inRange max r.1
  hit.map fun r => (r.2, ip r.2)

/-- The texts of the query may be anything; `atoi` makes numbers of them. -/
theorem getTableIp_texts {tabName : Text} {parVals : List Int32}
    (h : Partitioned etcd tabName parVals) (minRange maxRange : Text) :
    getTableIp etcd tabName minRange maxRange =
      some (hitPartitions parVals (atoi minRange) (atoi maxRange)) := by
  have hips := readVec_vecToString writePar (fun i : Nat => ((i : Int), ip i))
    (List.range (parVals.length - 1)) fun i _ => ⟨writePar_word i, readPar_writePar i⟩
  have hranges := readVec_vecToString writeRange rangeInt (parRanges parVals)
    fun range _ => ⟨writeRange_word range, readRange_writeRange range⟩
  have hnodup : (((List.range (parVals.length - 1)).map
      fun i : Nat => ((i : Int), ip i)).map Prod.fst).Nodup := by
    rw [List.map_map]
    exact List.Nodup.map (fun i j heq => Int.ofNat.inj heq) List.nodup_range
  rw [getTableIp, h.ipAddress, h.parInfo, hips]
  simp only [Option.bind_eq_bind, Option.bind_some, List.nil_append, hranges,
    Option.pure_def, Option.some.injEq, hitPartitions]
  apply List.map_congr_left
  intro r hr
  -- every number of a partition is the number of an address
  have hlt : r.2 < parVals.length - 1 := by
    have hmem := List.mem_zipIdx' (List.mem_filter.mp hr).1
    simpa [parRanges, Ranges.cuts] using hmem.1
  have hmem : ((r.2 : Int), ip r.2) ∈ (List.range (parVals.length - 1)).map
      fun i : Nat => ((i : Int), ip i) := List.mem_map.mpr ⟨r.2, List.mem_range.mpr hlt, rfl⟩
  rw [SortedMap.get_putAll_of_mem _ _ _ hnodup hmem]
  rfl

theorem getTableIp_partitioned {tabName : Text} {parVals : List Int32}
    (h : Partitioned etcd tabName parVals) (min max : Int) :
    getTableIp etcd tabName (ofInt min) (ofInt max) = some (hitPartitions parVals min max) := by
  rw [getTableIp_texts h, atoi_ofInt, atoi_ofInt]

theorem getTableIp_created (h : Created etcd create) (min max : Int) :
    getTableIp etcd create.tabName (ofInt min) (ofInt max) =
      some (hitPartitions create.parVals min max) :=
  getTableIp_partitioned h.partitioned min max

end Spec

end RucDDBS
