import RucDDBS.Engine.StoredRows

/-!
Partition scans on the text that etcd prints. A scan asks for all keys below the
prefix of a partition, reads keys and values from alternating lines of the answer
and converts every value into a record. Whatever rows were put and deleted before,
it returns those of its partition that are still there, and no others.
-/

namespace RucDDBS

open Text

namespace Etcdctl

section Scan

def line (entry : Text × Text) : Text := entry.1 ++ '\n' :: (entry.2 ++ ['\n'])

/-- What `etcdctl get --prefix` prints: keys and values on alternating lines. -/
def getPrefix (etcd : Etcd) (key : Text) : Text :=
  (etcd.filterKeys key.isPrefixOf).entries.flatMap line

/-- The output of a command without the end of its last line. -/
def getCmdResult (strResult : Text) : Text :=
  if strResult.getLast? = some '\n' then strResult.dropLast else strResult

/-- The loop of `etcd_par`; every round takes a word from the stream. If the stream ends
with the word, `getline` leaves `v` as it was and the loop ends. -/
def readPairs : Nat → Text → Text → SortedMap Text Text → SortedMap Text Text
  | 0, _, _, res => res
  | fuel + 1, v, str, res =>
      match readWord str with
      | none => res
      | some (k, []) => res.put k v
      | some (k, _ :: str) =>
          let v := str.takeWhile fun c => c != '\n'
          readPairs fuel v ((str.dropWhile fun c => c != '\n').drop 1) (res.put k v)

def etcdPar (etcd : Etcd) (key : Text) : SortedMap Text Text :=
  let ret := getCmdResult (getPrefix etcd key)
  readPairs ret.length [] ret .empty

/-- `kv_store::get_par`. -/
def getPar (etcd : Etcd) (tabName : Text) (par : Nat) : Option (List Record) :=
  (etcdPar etcd (parKeyPrefix tabName par)).entries.mapM fun iter => stringToRec iter.2

end Scan

section Lines

/-- A key that reads as one word and a value that stays on its line. -/
structure Printable (entry : Text × Text) : Prop where
  key : IsWord entry.1
  value : '\n' ∉ entry.2

theorem getCmdResult_line (entry : Text × Text) :
    getCmdResult (line entry) = entry.1 ++ '\n' :: entry.2 := by
  have hline : line entry = (entry.1 ++ '\n' :: entry.2) ++ ['\n'] := by simp [line]
  rw [getCmdResult, hline, List.getLast?_concat, if_pos rfl, List.dropLast_concat]

theorem getCmdResult_append (text : Text) {rest : Text} (hne : rest ≠ []) :
    getCmdResult (text ++ rest) = text ++ getCmdResult rest := by
  have hlast : (text ++ rest).getLast? = rest.getLast? := List.getLast?_append_of_ne_nil _ hne
  rw [getCmdResult, getCmdResult, hlast]
  split
  · exact List.dropLast_append_of_ne_nil hne
  · rfl

theorem line_ne_nil (entry : Text × Text) : line entry ≠ [] := by
  simp [line]

/-- A value is read as far as the end of its line. -/
theorem cut_value {v rest : Text} (hv : '\n' ∉ v) (hrest : ∀ c ∈ rest.head?, c = '\n') :
    (v ++ rest).takeWhile (fun c => c != '\n') = v ∧
      (v ++ rest).dropWhile (fun c => c != '\n') = rest := by
  apply cut
  · intro c hc
    simpa using ne_of_mem_of_not_mem hc hv
  · intro c hc
    simpa using hrest c hc

theorem readPairs_nil (fuel : Nat) (v : Text) (res : SortedMap Text Text) :
    readPairs fuel v [] res = res := by
  cases fuel <;> rfl

/-- One round of the loop. -/
theorem readPairs_line {entry : Text × Text} (h : Printable entry) {rest : Text}
    (hrest : ∀ c ∈ rest.head?, c = '\n') (fuel : Nat) (v : Text) (res : SortedMap Text Text) :
    readPairs (fuel + 1) v (entry.1 ++ '\n' :: (entry.2 ++ rest)) res =
      readPairs fuel entry.2 (rest.drop 1) (res.put entry.1 entry.2) := by
  have hword : readWord (entry.1 ++ '\n' :: (entry.2 ++ rest)) =
      some (entry.1, '\n' :: (entry.2 ++ rest)) := readWord_word h.key (by simp)
  obtain ⟨hvalue, hafter⟩ := cut_value h.value hrest
  rw [readPairs, hword]
  simp only [hvalue, hafter]

/-- The loop puts the printed entries one after the other. -/
theorem readPairs_getPrefix {entries : List (Text × Text)} (h : ∀ entry ∈ entries, Printable entry)
    {fuel : Nat} (hfuel : entries.length ≤ fuel) (v : Text) (res : SortedMap Text Text) :
    readPairs fuel v (getCmdResult (entries.flatMap line)) res = res.putAll entries := by
  induction entries generalizing fuel v res with
  | nil => exact readPairs_nil fuel v res
  | cons entry entries ih =>
      obtain ⟨hentry, hrest⟩ := List.forall_mem_cons.mp h
      cases fuel with
      | zero => simp at hfuel
      | succ fuel =>
          rw [List.length_cons, Nat.add_le_add_iff_right] at hfuel
          cases entries with
          | nil =>
              have hround : readPairs (fuel + 1) v (entry.1 ++ '\n' :: (entry.2 ++ [])) res = _ :=
                readPairs_line hentry (by simp) fuel v res
              rw [List.append_nil, List.drop_nil, readPairs_nil] at hround
              rw [List.flatMap_cons, List.flatMap_nil, List.append_nil, getCmdResult_line, hround]
              rfl
          | cons next entries =>
              have hne : (next :: entries).flatMap line ≠ [] := by simp [line_ne_nil]
              have htext : getCmdResult ((entry :: next :: entries).flatMap line) =
                  entry.1 ++ '\n' ::
                    (entry.2 ++ '\n' :: getCmdResult ((next :: entries).flatMap line)) := by
                rw [List.flatMap_cons, getCmdResult_append _ hne, line]
                simp
              rw [htext, readPairs_line hentry (by simp), List.drop_one, List.tail_cons,
                ih hrest hfuel]
              rfl

/-- The text is long enough for a round for every entry. -/
theorem length_le_output {entries : List (Text × Text)} :
    entries.length ≤ (getCmdResult (entries.flatMap line)).length := by
  have hlines : 2 * entries.length ≤ (entries.flatMap line).length := by
    induction entries with
    | nil => simp
    | cons entry entries ih =>
        have hline : 2 ≤ (line entry).length := by
          simp only [line, List.length_append, List.length_cons, List.length_nil]
          omega
        rw [List.flatMap_cons, List.length_append, List.length_cons]
        omega
  have hcut : (entries.flatMap line).length ≤ (getCmdResult (entries.flatMap line)).length + 1 := by
    unfold getCmdResult
    split
    · rw [List.length_dropLast]
      omega
    · omega
  omega

/-- The text of a scan is read back as the entries below the prefix. -/
theorem etcdPar_eq {etcd : Etcd} {key : Text}
    (h : ∀ k v, key.isPrefixOf k = true → etcd.get k = some v → Printable (k, v)) :
    etcdPar etcd key = RucDDBS.etcdPar etcd key := by
  have hentries : ∀ entry ∈ (RucDDBS.etcdPar etcd key).entries, Printable entry := by
    rintro ⟨k, v⟩ hentry
    obtain ⟨hmem, hprefix⟩ := List.mem_filter.mp hentry
    exact h k v hprefix ((etcd.get_eq_some_iff k v).mpr hmem)
  exact (readPairs_getPrefix hentries length_le_output [] .empty).trans SortedMap.putAll_entries

end Lines

end Etcdctl

section Names

/-- The identifier rule of the lexer. -/
def isIdentifier : Text → Bool
  | [] => false
  | c :: rest => c.isAlpha && rest.all fun d => d == '_' || d.isAlpha || d.isDigit

/-- A table name as the lexer passes it on. -/
structure TableName where
  name : Text
  identifier : isIdentifier name = true

theorem TableName.ext {tab tab' : TableName} (h : tab.name = tab'.name) : tab = tab' := by
  cases tab
  cases tab'
  cases h
  rfl

instance : DecidableEq TableName := fun tab tab' =>
  decidable_of_iff (tab.name = tab'.name) ⟨TableName.ext, fun h => h ▸ rfl⟩

theorem TableName.mem_name (tab : TableName) {c : Char} (h : c ∈ tab.name) :
    c = '_' ∨ c.isAlpha = true ∨ c.isDigit = true := by
  obtain ⟨name, hidentifier⟩ := tab
  cases name with
  | nil => cases h
  | cons first rest =>
      simp only [isIdentifier, Bool.and_eq_true, List.all_eq_true, Bool.or_eq_true,
        beq_iff_eq] at hidentifier
      rcases List.mem_cons.mp h with rfl | hrest
      · exact .inr (.inl hidentifier.1)
      · rcases hidentifier.2 c hrest with (hc | hc) | hc
        · exact .inl hc
        · exact .inr (.inl hc)
        · exact .inr (.inr hc)

theorem TableName.slash_notMem (tab : TableName) : '/' ∉ tab.name := by
  intro hmem
  rcases tab.mem_name hmem with hc | hc | hc
  · cases hc
  · revert hc
    decide
  · revert hc
    decide

theorem isWhitespace_of_isAlpha {c : Char} (h : c.isAlpha = true) : c.isWhitespace = false := by
  by_contra hblank
  rw [Bool.not_eq_false] at hblank
  simp only [Char.isWhitespace, Bool.or_eq_true, decide_eq_true_eq] at hblank
  rcases hblank with ((rfl | rfl) | rfl) | rfl <;> revert h <;> decide

theorem TableName.no_blank (tab : TableName) {c : Char} (h : c ∈ tab.name) :
    c.isWhitespace = false := by
  rcases tab.mem_name h with rfl | hc | hc
  · decide
  · exact isWhitespace_of_isAlpha hc
  · by_contra hblank
    rw [Bool.not_eq_false] at hblank
    rw [isDigit_of_blank hblank] at hc
    cases hc

end Names

section Stored

/-- A row of a partition of a table, with its primary key. -/
structure RowName where
  tab : TableName
  par : Nat
  key : Int32
  deriving DecidableEq

/-- The key that `op_insert` builds for the row. -/
def RowName.storeKey (row : RowName) : Text := rowKey row.tab.name row.par row.key

/-- `kv_store::put` and `kv_store::del`. -/
inductive StoreCall where
  | put (row : RowName) (val : Record)
  | del (row : RowName)

def StoreCall.exec (etcd : Etcd) : StoreCall → Etcd
  | .put row val => etcd.put row.storeKey val.recToString
  | .del row => etcd.del row.storeKey

/-- What the rows hold: the records last put and not deleted. -/
abbrev Stored := RowName → Option Record

def StoreCall.apply (stored : Stored) : StoreCall → Stored
  | .put row val => Function.update stored row (some val)
  | .del row => Function.update stored row none

/-- Nothing is stored below the prefix of the rows. -/
def NoStoreData (etcd : Etcd) : Prop :=
  ∀ key, storeData.isPrefixOf key = true → etcd.get key = none

/-- Creating a table stores nothing there. -/
theorem noStoreData_createTable {etcd : Etcd} (h : NoStoreData etcd) (create : Ast.CreateTable) :
    NoStoreData (createTable etcd create).1 := by
  intro key hkey
  rw [createTable_get hkey]
  exact h key hkey

theorem isPrefixOf_storeKey (row : RowName) : storeData.isPrefixOf row.storeKey = true := by
  rw [RowName.storeKey, rowKey_eq]
  exact List.isPrefixOf_iff_prefix.mpr (List.prefix_append _ _)

/-- The keys below the prefix of a partition are those of its rows. -/
theorem isPrefixOf_storeKey_iff {tab : TableName} {par : Nat} {row : RowName} :
    (parKeyPrefix tab.name par).isPrefixOf row.storeKey = true ↔ row.tab = tab ∧ row.par = par := by
  constructor
  · intro h
    obtain ⟨htab, hpar⟩ := eq_of_isPrefixOf tab.slash_notMem row.tab.slash_notMem h
    exact ⟨TableName.ext htab.symm, hpar.symm⟩
  · rintro ⟨rfl, rfl⟩
    exact isPrefixOf_rowKey _ _ _

theorem storeKey_injective : Function.Injective RowName.storeKey := by
  intro row row' h
  have hprefix := isPrefixOf_rowKey row'.tab.name row'.par row'.key
  change (parKeyPrefix row'.tab.name row'.par).isPrefixOf row'.storeKey = true at hprefix
  rw [← h] at hprefix
  obtain ⟨htab, hpar⟩ := isPrefixOf_storeKey_iff.mp hprefix
  obtain ⟨tab, par, key⟩ := row
  obtain ⟨tab', par', key'⟩ := row'
  dsimp only at htab hpar
  subst htab hpar
  obtain ⟨_, rfl⟩ := rowKey_inj tab.slash_notMem h
  rfl

end Stored

section Scans

variable {etcd : Etcd} {stored : Stored}

/-- Below the prefix of the rows, etcd has the stored records under their keys. -/
def Refines (etcd : Etcd) (stored : Stored) : Prop :=
  ∀ key, storeData.isPrefixOf key = true → ∀ value, etcd.get key = some value ↔
    ∃ row val, row.storeKey = key ∧ stored row = some val ∧ val.recToString = value

theorem refines_empty (h : NoStoreData etcd) : Refines etcd fun _ => none := by
  intro key hkey value
  rw [h key hkey]
  simp

/-- A call changes what is stored under one key. -/
theorem refines_update (h : Refines etcd stored) (row : RowName) (val? : Option Record)
    {etcd' : Etcd} (hhere : etcd'.get row.storeKey = val?.map Record.recToString)
    (hother : ∀ key, key ≠ row.storeKey → etcd'.get key = etcd.get key) :
    Refines etcd' (Function.update stored row val?) := by
  intro key hkey value
  by_cases heq : key = row.storeKey
  · subst heq
    rw [hhere]
    constructor
    · intro hvalue
      obtain ⟨val, rfl, hval⟩ := Option.map_eq_some_iff.mp hvalue
      exact ⟨row, val, rfl, by rw [Function.update_self], hval⟩
    · rintro ⟨row', val, hrow, hval, rfl⟩
      rw [storeKey_injective hrow, Function.update_self] at hval
      rw [hval, Option.map_some]
  · rw [hother key heq, h key hkey]
    have hrest (row' : RowName) (hrow : row'.storeKey = key) :
        Function.update stored row val? row' = stored row' := by
      apply Function.update_of_ne
      rintro rfl
      exact heq hrow.symm
    constructor
    · rintro ⟨row', val, hrow, hval, hvalue⟩
      exact ⟨row', val, hrow, by rw [hrest row' hrow, hval], hvalue⟩
    · rintro ⟨row', val, hrow, hval, hvalue⟩
      rw [hrest row' hrow] at hval
      exact ⟨row', val, hrow, hval, hvalue⟩

theorem Refines.exec (h : Refines etcd stored) (call : StoreCall) :
    Refines (call.exec etcd) (call.apply stored) := by
  cases call with
  | put row val =>
      apply refines_update h row (some val) (SortedMap.get_put_self _ _ _)
      intro key hne
      exact (SortedMap.get_put _ _ _ _).trans (if_neg hne)
  | del row =>
      apply refines_update h row none (SortedMap.get_del_self _ _)
      intro key hne
      exact (SortedMap.get_del _ _ _).trans (if_neg hne)

theorem Refines.execAll (h : Refines etcd stored) (calls : List StoreCall) :
    Refines (calls.foldl StoreCall.exec etcd) (calls.foldl StoreCall.apply stored) := by
  induction calls generalizing etcd stored with
  | nil => exact h
  | cons call calls ih => exact ih (h.exec call)

theorem isWord_storeKey (row : RowName) : IsWord row.storeKey := by
  have hword : IsWord storeData := isWord_of_all (by decide) (by decide)
  rw [RowName.storeKey, rowKey_eq]
  apply hword.append
  intro c hc
  simp only [List.mem_append, List.mem_cons] at hc
  rcases hc with hc | rfl | hc | rfl | hc
  · exact row.tab.no_blank hc
  · decide
  · exact (isWord_ofInt _).no_blank c hc
  · decide
  · exact (isWord_ofInt _).no_blank c hc

theorem newline_notMem_recToString (val : Record) : '\n' ∉ val.recToString := by
  have hnumber (z : Int) : '\n' ∉ ofInt z := notMem_ofInt (by decide) (by decide) z
  rw [Record.recToString, List.mem_append]
  rintro (hmem | hmem)
  · exact hnumber _ hmem
  · simp only [spread, List.mem_flatMap, List.mem_map] at hmem
    obtain ⟨item, ⟨cell, _, rfl⟩, hmem⟩ := hmem
    rcases List.mem_cons.mp hmem with heq | hmem
    · cases heq
    · exact hnumber _ hmem

/-- Everything below the prefix of the rows can be printed and read back. -/
theorem Refines.printable (h : Refines etcd stored) {key value : Text}
    (hkey : storeData.isPrefixOf key = true) (hget : etcd.get key = some value) :
    Etcdctl.Printable (key, value) := by
  obtain ⟨row, val, rfl, _, rfl⟩ := (h key hkey value).mp hget
  exact ⟨isWord_storeKey row, newline_notMem_recToString val⟩

theorem Refines.getPar (h : Refines etcd stored) (tab : TableName) (par : Nat) :
    Etcdctl.getPar etcd tab.name par = getPar etcd tab.name par := by
  rw [Etcdctl.getPar, RucDDBS.getPar, Etcdctl.etcdPar_eq]
  intro key value hprefix hget
  exact h.printable (isPrefixOf_of_parKeyPrefix hprefix) hget

/-- The integers of a record. -/
def Record.integers (val : Record) : List Int32 := val.map Value.str

/-- The rows are those of the partition, each once, with what is stored for them. -/
structure Lists (stored : Stored) (tab : TableName) (par : Nat) (rows : List (Int32 × Record)) :
    Prop where
  nodup : (rows.map Prod.fst).Nodup
  mem_iff : ∀ key val, (key, val) ∈ rows ↔ stored ⟨tab, par, key⟩ = some val

theorem exists_map_eq {α β : Type} {f : α → β} {P : α → Prop} {items : List β}
    (h : ∀ item ∈ items, ∃ a, P a ∧ f a = item) : ∃ l : List α, (∀ a ∈ l, P a) ∧ l.map f = items := by
  induction items with
  | nil => exact ⟨[], by simp, rfl⟩
  | cons item items ih =>
      obtain ⟨⟨a, ha, hfirst⟩, hrest⟩ := List.forall_mem_cons.mp h
      obtain ⟨l, hl, hitems⟩ := ih hrest
      exact ⟨a :: l, List.forall_mem_cons.mpr ⟨ha, hl⟩, by rw [List.map_cons, hfirst, hitems]⟩

/-- The entries below the prefix of a partition are its rows. -/
theorem Refines.entries (h : Refines etcd stored) (tab : TableName) (par : Nat) :
    ∃ rows, Lists stored tab par rows ∧ (etcdPar etcd (parKeyPrefix tab.name par)).entries =
      rows.map fun row => (rowKey tab.name par row.1, row.2.recToString) := by
  have hrow : ∀ entry ∈ (etcdPar etcd (parKeyPrefix tab.name par)).entries,
      ∃ row : Int32 × Record, stored ⟨tab, par, row.1⟩ = some row.2 ∧
        (rowKey tab.name par row.1, row.2.recToString) = entry := by
    rintro ⟨key, value⟩ hentry
    obtain ⟨hmem, hprefix⟩ := List.mem_filter.mp hentry
    have hget := (etcd.get_eq_some_iff key value).mpr hmem
    obtain ⟨row, val, rfl, hval, rfl⟩ := (h key (isPrefixOf_of_parKeyPrefix hprefix) value).mp hget
    obtain ⟨rfl, rfl⟩ := isPrefixOf_storeKey_iff.mp hprefix
    exact ⟨(row.key, val), hval, rfl⟩
  obtain ⟨rows, hrows, hentries⟩ := exists_map_eq hrow
  refine ⟨rows, ⟨?_, ?_⟩, hentries.symm⟩
  · have hkeys := (etcdPar etcd (parKeyPrefix tab.name par)).sorted.nodup_keys
    rw [← hentries, List.map_map] at hkeys
    apply List.Nodup.of_map (rowKey tab.name par)
    rwa [List.map_map]
  · intro key val
    constructor
    · exact hrows (key, val)
    · intro hval
      have hstored := (h (rowKey tab.name par key) (isPrefixOf_storeKey ⟨tab, par, key⟩)
        val.recToString).mpr ⟨⟨tab, par, key⟩, val, rfl, hval, rfl⟩
      have hentry : (rowKey tab.name par key, val.recToString) ∈
          (etcdPar etcd (parKeyPrefix tab.name par)).entries :=
        List.mem_filter.mpr ⟨(etcd.get_eq_some_iff _ _).mp hstored, isPrefixOf_rowKey _ _ _⟩
      rw [← hentries] at hentry
      obtain ⟨⟨key', val'⟩, hmem, heq⟩ := List.mem_map.mp hentry
      obtain ⟨_, rfl⟩ := rowKey_inj tab.slash_notMem (congrArg Prod.fst heq)
      have hsame : some val' = some val := (hrows _ hmem).symm.trans hval
      cases hsame
      exact hmem

/-- Reading the rows of a partition gives back their integers. -/
theorem getPar_of_entries {tabName : Text} {par : Nat} {rows : List (Int32 × Record)}
    (h : (etcdPar etcd (parKeyPrefix tabName par)).entries =
      rows.map fun row => (rowKey tabName par row.1, row.2.recToString)) :
    getPar etcd tabName par =
      some (rows.map fun row => row.2.map fun cell => { str := cell.str }) := by
  rw [getPar, h]
  clear h
  induction rows with
  | nil => rfl
  | cons row rows ih =>
      rw [List.map_cons, List.mapM_cons, ih, stringToRec_recToString]
      rfl

/-- A scan returns the integers of the records that were last put into its partition and
not deleted, and nothing else. -/
theorem partition_scan_exact (h : NoStoreData etcd) (calls : List StoreCall) (tab : TableName)
    (par : Nat) :
    ∃ res rows, Etcdctl.getPar (calls.foldl StoreCall.exec etcd) tab.name par = some res ∧
      Lists (calls.foldl StoreCall.apply fun _ => none) tab par rows ∧
      res.map Record.integers = rows.map fun row => row.2.integers := by
  have hrefines := (refines_empty h).execAll calls
  obtain ⟨rows, hlists, hentries⟩ := hrefines.entries tab par
  refine ⟨rows.map fun row => row.2.map fun cell => { str := cell.str }, rows, ?_, hlists, ?_⟩
  · rw [hrefines.getPar, getPar_of_entries hentries]
  · simp [Record.integers]

def tableT : TableName := ⟨['t'], rfl⟩

def tableT1 : TableName := ⟨['t', '1'], rfl⟩

/-- Rows of two tables and of three partitions; one is overwritten and one deleted. -/
def storeCalls : List StoreCall :=
  [.put ⟨tableT, 1, 7⟩ (pairRow 7 0), .put ⟨tableT, 1, -5⟩ (pairRow (-5) 2),
    .put ⟨tableT, 10, 7⟩ (pairRow 7 3), .put ⟨tableT1, 1, 7⟩ (pairRow 7 4),
    .put ⟨tableT, 1, 7⟩ (pairRow 7 (-1)), .put ⟨tableT, 1, 8⟩ (pairRow 8 9), .del ⟨tableT, 1, 8⟩]

theorem storeCalls_scanned :
    ∃ res rows, Etcdctl.getPar (storeCalls.foldl StoreCall.exec pairEtcd) tableT.name 1 = some res ∧
      Lists (storeCalls.foldl StoreCall.apply fun _ => none) tableT 1 rows ∧
      res.map Record.integers = rows.map fun row => row.2.integers := by
  apply partition_scan_exact
  apply noStoreData_createTable
  intro key _
  rfl

example : (Etcdctl.getPar (storeCalls.foldl StoreCall.exec pairEtcd) tableT.name 1).map
    (List.map Record.integers) = some [[-5, 2], [7, -1]] := by decide +kernel

end Scans

end RucDDBS
