import Mathlib.Order.Basic
import Mathlib.Data.List.Basic
import Mathlib.Data.List.Pairwise
import Mathlib.Order.Lattice

/-!
Finite maps as lists of entries in strictly increasing key order. The order is
part of the type. The last section is about such a list cut into consecutive
groups, as an ordered file is cut into blocks: to find a key it is enough to
search the first group whose last key is not below it.
-/

namespace SortedMap

section Lookup

variable {κ ν : Type*} [BEq κ] [LawfulBEq κ] {l : List (κ × ν)} {k : κ} {v : ν}

theorem lookup_filter_key (p : κ → Bool) (l : List (κ × ν)) (k : κ) :
    (l.filter fun e => p e.1).lookup k = if p k = true then l.lookup k else none := by
  induction l with
  | nil => simp
  | cons e rest ih =>
      rcases e with ⟨k', v⟩
      by_cases hk : k = k'
      · subst hk
        cases hp : p k with
        | true => simp [hp]
        | false => simpa [hp] using ih
      · have hbeq : (k == k') = false := by simpa using hk
        cases hp : p k' with
        | true => simp [hp, List.lookup_cons, hbeq, ih]
        | false => simp [hp, List.lookup_cons, hbeq, ih]

theorem lookup_eq_none_of_forall_ne (h : ∀ e ∈ l, e.1 ≠ k) : l.lookup k = none := by
  rw [List.lookup_eq_none_iff]
  intro e he
  simpa using (h e he).symm

theorem mem_of_lookup (h : l.lookup k = some v) : (k, v) ∈ l := by
  obtain ⟨front, back, rfl, _⟩ := List.lookup_eq_some_iff.mp h
  simp

end Lookup

variable {κ ν : Type*} [LinearOrder κ]

/-- Strictly increasing keys. -/
def Sorted (l : List (κ × ν)) : Prop := l.Pairwise fun a b => a.1 < b.1

theorem Sorted.filter {l : List (κ × ν)} (h : Sorted l) (p : κ × ν → Bool) :
    Sorted (l.filter p) := List.Pairwise.filter p h

theorem Sorted.nodup {l : List (κ × ν)} (h : Sorted l) : l.Nodup := by
  refine List.Pairwise.imp ?_ h
  rintro a b hlt rfl
  exact lt_irrefl _ hlt

/-- A search for the first key that is not below `k`. -/
theorem find?_cons_of_lt {l : List (κ × ν)} {e : κ × ν} {k : κ} (h : e.1 < k) :
    (e :: l).find? (fun e => k ≤ e.1) = l.find? fun e => k ≤ e.1 := by
  rw [List.find?_cons_of_neg]
  rw [decide_eq_true_eq, not_le]
  exact h

theorem find?_cons_of_not_lt {l : List (κ × ν)} {e : κ × ν} {k : κ} (h : ¬ e.1 < k) :
    (e :: l).find? (fun e => k ≤ e.1) = some e := by
  have hle : k ≤ e.1 := not_lt.mp h
  rw [List.find?_cons_of_pos (by simpa using hle)]

theorem find?_eq_none_of_lt {l : List (κ × ν)} {k : κ} (h : ∀ e ∈ l, e.1 < k) :
    l.find? (fun e => k ≤ e.1) = none := by
  rw [List.find?_eq_none]
  intro e he
  rw [decide_eq_true_eq, not_le]
  exact h e he

theorem Sorted.nodup_keys {l : List (κ × ν)} (h : Sorted l) : (l.map Prod.fst).Nodup := by
  rw [List.Nodup, List.pairwise_map]
  exact h.imp ne_of_lt

theorem Sorted.lookup_of_mem [BEq κ] [LawfulBEq κ] {l : List (κ × ν)} (h : Sorted l) {k : κ}
    {v : ν} (hmem : (k, v) ∈ l) : l.lookup k = some v := by
  induction l with
  | nil => cases hmem
  | cons e rest ih =>
      rcases List.mem_cons.mp hmem with rfl | hrest
      · simp
      · have hlt : e.1 < k := List.rel_of_pairwise_cons h hrest
        have hne : (k == e.1) = false := by simpa using hlt.ne'
        rw [List.lookup_cons, hne]
        exact ih h.of_cons hrest

end SortedMap

/-- A finite map from `κ` to `ν`, as its entries in key order. -/
structure SortedMap (κ ν : Type*) [LinearOrder κ] where
  entries : List (κ × ν)
  sorted : SortedMap.Sorted entries

instance {κ ν : Type*} [LinearOrder κ] [DecidableEq ν] : DecidableEq (SortedMap κ ν) :=
  fun m m' => decidable_of_iff (m.entries = m'.entries)
    ⟨fun h => by cases m; cases m'; cases h; rfl, fun h => h ▸ rfl⟩

namespace SortedMap

variable {κ ν : Type*} [LinearOrder κ] (m : SortedMap κ ν) (k k' : κ) (v : ν)

def empty : SortedMap κ ν := ⟨[], List.Pairwise.nil⟩

def size : Nat := m.entries.length

def isEmpty : Bool := m.entries.isEmpty

/-- The entry takes its place between the smaller and the greater keys. An
entry with the same key gives way to it. -/
def put : SortedMap κ ν where
  entries := m.entries.filter (fun e => decide (e.1 < k)) ++
    (k, v) :: m.entries.filter (fun e => decide (k < e.1))
  sorted := by
    refine List.pairwise_append.mpr ⟨m.sorted.filter _, ?_, ?_⟩
    · refine List.pairwise_cons.mpr ⟨?_, m.sorted.filter _⟩
      intro e he
      simpa using (List.mem_filter.mp he).2
    · intro a ha b hb
      have hak : a.1 < k := by simpa using (List.mem_filter.mp ha).2
      rcases List.mem_cons.mp hb with rfl | hb
      · exact hak
      · have hkb : k < b.1 := by simpa using (List.mem_filter.mp hb).2
        exact hak.trans hkb

def del : SortedMap κ ν where
  entries := m.entries.filter (fun e => decide (e.1 ≠ k))
  sorted := m.sorted.filter _

section Cut

variable {m : SortedMap κ ν} {k : κ} {below here above : List (κ × ν)}

/-- The entries with smaller and those with greater keys, when the entries are cut at
a key. -/
theorem filter_cut (hbelow : ∀ e ∈ below, e.1 < k) (hhere : ∀ e ∈ here, e.1 = k)
    (habove : ∀ e ∈ above, k < e.1) :
    (below ++ (here ++ above)).filter (fun e => decide (e.1 < k)) = below ∧
      (below ++ (here ++ above)).filter (fun e => decide (k < e.1)) = above := by
  have hkeep (p : κ × ν → Bool) (l : List (κ × ν)) (h : ∀ e ∈ l, p e = true) : l.filter p = l :=
    List.filter_eq_self.mpr h
  have hdrop (p : κ × ν → Bool) (l : List (κ × ν)) (h : ∀ e ∈ l, ¬ p e = true) :
      l.filter p = [] := List.filter_eq_nil_iff.mpr h
  simp only [List.filter_append]
  constructor
  · rw [hkeep _ below (by simpa using hbelow), hdrop _ here (by simpa using fun k' v h => (hhere (k', v) h).ge),
      hdrop _ above (by simpa using fun k' v h => (habove (k', v) h).le)]
    simp
  · rw [hdrop _ below (by simpa using fun k' v h => (hbelow (k', v) h).le),
      hdrop _ here (by simpa using fun k' v h => (hhere (k', v) h).le),
      hkeep _ above (by simpa using habove)]
    simp

theorem entries_put_cut (v : ν) (h : m.entries = below ++ (here ++ above))
    (hbelow : ∀ e ∈ below, e.1 < k) (hhere : ∀ e ∈ here, e.1 = k) (habove : ∀ e ∈ above, k < e.1) :
    (m.put k v).entries = below ++ (k, v) :: above := by
  obtain ⟨hlt, hgt⟩ := filter_cut hbelow hhere habove
  rw [← h] at hlt hgt
  simp only [put, hlt, hgt]

theorem entries_del_cut (h : m.entries = below ++ (here ++ above))
    (hbelow : ∀ e ∈ below, e.1 < k) (hhere : ∀ e ∈ here, e.1 = k) (habove : ∀ e ∈ above, k < e.1) :
    (m.del k).entries = below ++ above := by
  have hother (l : List (κ × ν)) (hl : ∀ e ∈ l, e.1 ≠ k) :
      l.filter (fun e => decide (e.1 ≠ k)) = l := by
    rw [List.filter_eq_self]
    simpa using hl
  have hsame : here.filter (fun e => decide (e.1 ≠ k)) = [] := by
    rw [List.filter_eq_nil_iff]
    simpa using hhere
  show m.entries.filter (fun e => decide (e.1 ≠ k)) = _
  rw [h, List.filter_append, List.filter_append, hsame,
    hother below fun e he => (hbelow e he).ne, hother above fun e he => (habove e he).ne',
    List.nil_append]

end Cut

section Get

variable [BEq κ]

def get : Option ν := m.entries.lookup k

def contains : Bool := (m.get k).isSome

@[simp] theorem get_empty : (empty : SortedMap κ ν).get k = none := rfl

theorem contains_iff : m.contains k = true ↔ ∃ v, m.get k = some v := by
  simp [contains, Option.isSome_iff_exists]

theorem get_of_isEmpty (h : m.isEmpty = true) : m.get k = none := by
  have hnil : m.entries = [] := by simpa [isEmpty] using h
  simp [get, hnil]

variable [LawfulBEq κ]

theorem get_put : (m.put k v).get k' = if k' = k then some v else m.get k' := by
  have hbelow := lookup_filter_key (fun x => decide (x < k)) m.entries k'
  have habove := lookup_filter_key (fun x => decide (k < x)) m.entries k'
  simp only [get, put, List.lookup_append, hbelow]
  rcases lt_trichotomy k' k with hlt | rfl | hgt
  · have hne : (k' == k) = false := by simpa using hlt.ne
    simp only [List.lookup_cons, hne, habove]
    simp [hlt, hlt.ne, hlt.not_gt]
  · simp
  · have hne : (k' == k) = false := by simpa using hgt.ne'
    simp only [List.lookup_cons, hne, habove]
    simp [hgt, hgt.ne', hgt.not_gt]

theorem get_del : (m.del k).get k' = if k' = k then none else m.get k' := by
  have h := lookup_filter_key (fun x => decide (x ≠ k)) m.entries k'
  simp only [get, del, h]
  by_cases heq : k' = k
  · simp [heq]
  · simp [heq]

@[simp] theorem get_put_self : (m.put k v).get k = some v := by simp [get_put]

@[simp] theorem get_del_self : (m.del k).get k = none := by simp [get_del]

theorem get_eq_some_iff : m.get k = some v ↔ (k, v) ∈ m.entries :=
  ⟨mem_of_lookup, m.sorted.lookup_of_mem⟩

theorem get_cut {below here above : List (κ × ν)} (h : m.entries = below ++ (here ++ above))
    (hbelow : ∀ e ∈ below, e.1 < k) (habove : ∀ e ∈ above, k < e.1) :
    m.get k = here.lookup k := by
  rw [get, h, List.lookup_append, List.lookup_append,
    lookup_eq_none_of_forall_ne fun e he => (hbelow e he).ne,
    lookup_eq_none_of_forall_ne fun e he => (habove e he).ne', Option.none_or, Option.or_none]

/-- The entries of a list, put one after the other. -/
def putAll : SortedMap κ ν → List (κ × ν) → SortedMap κ ν :=
  List.foldl fun m e => m.put e.1 e.2

theorem get_putAll_of_notMem {l : List (κ × ν)} (h : k ∉ l.map Prod.fst) :
    (m.putAll l).get k = m.get k := by
  induction l generalizing m with
  | nil => rfl
  | cons e rest ih =>
      simp only [List.map_cons, List.mem_cons, not_or] at h
      rw [putAll, List.foldl_cons, ← putAll, ih _ h.2, get_put, if_neg h.1]

theorem get_putAll_of_mem {l : List (κ × ν)} (h : (l.map Prod.fst).Nodup) (hmem : (k, v) ∈ l) :
    (m.putAll l).get k = some v := by
  induction l generalizing m with
  | nil => cases hmem
  | cons e rest ih =>
      simp only [List.map_cons, List.nodup_cons] at h
      rw [putAll, List.foldl_cons, ← putAll]
      rcases List.mem_cons.mp hmem with rfl | hrest
      · rw [get_putAll_of_notMem _ _ h.1, get_put_self]
      · exact ih _ h.2 hrest

/-- What is found after the entries of a list were put is one of them or was there
before. -/
theorem mem_or_get_of_get_putAll {l : List (κ × ν)} (h : (m.putAll l).get k = some v) :
    (k, v) ∈ l ∨ k ∉ l.map Prod.fst ∧ m.get k = some v := by
  induction l generalizing m with
  | nil => exact .inr ⟨by simp, h⟩
  | cons e rest ih =>
      rw [putAll, List.foldl_cons, ← putAll] at h
      rcases ih _ h with hmem | ⟨hnot, hget⟩
      · exact .inl (List.mem_cons_of_mem _ hmem)
      · rw [get_put] at hget
        split at hget
        next heq =>
          simp only [Option.some.injEq] at hget
          left
          rw [heq, ← hget]
          exact List.mem_cons_self
        next hne => exact .inr ⟨by simpa [hne] using hnot, hget⟩

/-- The keys of a list, deleted one after the other. -/
def delAll : SortedMap κ ν → List κ → SortedMap κ ν := List.foldl del

theorem get_delAll (keys : List κ) :
    (m.delAll keys).get k = if k ∈ keys then none else m.get k := by
  induction keys generalizing m with
  | nil => simp [delAll]
  | cons key rest ih =>
      rw [delAll, List.foldl_cons, ← delAll, ih, get_del]
      by_cases hrest : k ∈ rest
      · simp [hrest]
      · by_cases heq : k = key
        · simp [heq]
        · simp [hrest, heq]

/-- The entries whose keys satisfy `p`. -/
def filterKeys (p : κ → Bool) : SortedMap κ ν where
  entries := m.entries.filter fun e => p e.1
  sorted := m.sorted.filter _

theorem get_filterKeys (p : κ → Bool) :
    (m.filterKeys p).get k = if p k = true then m.get k else none :=
  lookup_filter_key p m.entries k

/-- A map is determined by its answers. -/
theorem ext_get {m m' : SortedMap κ ν} (h : ∀ k, m.get k = m'.get k) : m = m' := by
  have hmem (e : κ × ν) : e ∈ m.entries ↔ e ∈ m'.entries := by
    rw [← m.get_eq_some_iff e.1 e.2, ← m'.get_eq_some_iff e.1 e.2, h e.1]
  have hperm : m.entries.Perm m'.entries :=
    (List.perm_ext_iff_of_nodup m.sorted.nodup m'.sorted.nodup).mpr hmem
  have hentries : m.entries = m'.entries := by
    apply List.Perm.eq_of_pairwise _ m.sorted m'.sorted hperm
    intro a b _ _ hlt hgt
    exact absurd hgt hlt.not_gt
  rcases m with ⟨entries, sorted⟩
  rcases m' with ⟨entries', sorted'⟩
  simp only at hentries
  subst hentries
  rfl

def keys : List κ := m.entries.map Prod.fst

theorem mem_keys_iff : k ∈ m.keys ↔ ∃ v, m.get k = some v := by
  simp [keys, get_eq_some_iff]

omit [BEq κ] [LawfulBEq κ] in
/-- The keys of a map are determined by which of them there are. -/
theorem keys_eq_of_mem {m : SortedMap κ ν} {m' : SortedMap κ ν} (h : ∀ k, k ∈ m.keys ↔ k ∈ m'.keys) :
    m.keys = m'.keys := by
  have hperm : m.keys.Perm m'.keys :=
    (List.perm_ext_iff_of_nodup m.sorted.nodup_keys m'.sorted.nodup_keys).mpr h
  apply List.Perm.eq_of_pairwise _ (List.pairwise_map.mpr m.sorted) (List.pairwise_map.mpr m'.sorted) hperm
  intro a b _ _ hlt hgt
  exact absurd hgt hlt.not_gt

theorem mem_keys_put : k' ∈ (m.put k v).keys ↔ k' = k ∨ k' ∈ m.keys := by
  simp only [mem_keys_iff, get_put]
  split <;> simp_all

/-- Putting under a key that is there changes no key. -/
theorem keys_put (h : k ∈ m.keys) : (m.put k v).keys = m.keys := by
  apply keys_eq_of_mem
  intro k'
  rw [mem_keys_put]
  exact or_iff_right_of_imp fun heq => heq ▸ h

/-- The entries in the order of a list of keys, as an iteration over a hash table
gives them. -/
def entriesIn (order : List κ) : List (κ × ν) :=
  order.filterMap fun k => (m.get k).map fun v => (k, v)

/-- The order names every key once. -/
def Orders (order : List κ) : Prop := order.Perm m.keys

instance [DecidableEq κ] (order : List κ) : Decidable (m.Orders order) :=
  inferInstanceAs (Decidable (List.Perm _ _))

omit [LawfulBEq κ] in
theorem mem_entriesIn {m : SortedMap κ ν} {order : List κ} {e : κ × ν}
    (h : e ∈ m.entriesIn order) : m.get e.1 = some e.2 := by
  obtain ⟨k, -, heq⟩ := List.mem_filterMap.mp h
  obtain ⟨v, hget, rfl⟩ := Option.map_eq_some_iff.mp heq
  exact hget

/-- Every arrangement of the entries is one of their orders. -/
theorem entriesIn_of_perm {m : SortedMap κ ν} {l : List (κ × ν)} (h : l.Perm m.entries) :
    m.entriesIn (l.map Prod.fst) = l := by
  rw [entriesIn, List.filterMap_map]
  have hsome : ∀ e ∈ l, ((fun k => (m.get k).map fun v => (k, v)) ∘ Prod.fst) e = some e := by
    rintro ⟨k, v⟩ he
    simp [(m.get_eq_some_iff k v).mpr (h.mem_iff.mp he)]
  rw [List.filterMap_congr hsome, List.filterMap_some]

theorem entriesIn_perm {m : SortedMap κ ν} {order : List κ} (h : m.Orders order) :
    (m.entriesIn order).Perm m.entries := by
  have hperm := List.Perm.filterMap (fun k => (m.get k).map fun v => (k, v)) h
  rw [← entriesIn, ← entriesIn, keys, entriesIn_of_perm (List.Perm.refl _)] at hperm
  exact hperm

/-- The entries of a map, put one after the other with their values changed. -/
theorem get_putAll_entriesIn {μ : Type*} (f : ν → μ) {m : SortedMap κ ν} {order : List κ}
    (h : m.Orders order) (k : κ) :
    (empty.putAll ((m.entriesIn order).map fun e => (e.1, f e.2))).get k = (m.get k).map f := by
  have hperm := entriesIn_perm h
  have hkeys : ((m.entriesIn order).map fun e => (e.1, f e.2)).map Prod.fst =
      (m.entriesIn order).map Prod.fst := by
    rw [List.map_map]
    rfl
  have hnodup : (((m.entriesIn order).map fun e => (e.1, f e.2)).map Prod.fst).Nodup := by
    rw [hkeys]
    exact ((hperm.map Prod.fst).nodup_iff).mpr m.sorted.nodup_keys
  cases hget : m.get k with
  | some v =>
      have hmem : (k, v) ∈ m.entriesIn order :=
        hperm.mem_iff.mpr ((m.get_eq_some_iff k v).mp hget)
      exact get_putAll_of_mem _ _ _ hnodup (List.mem_map.mpr ⟨(k, v), hmem, rfl⟩)
  | none =>
      have hnot : k ∉ ((m.entriesIn order).map fun e => (e.1, f e.2)).map Prod.fst := by
        rw [hkeys]
        intro hmem
        obtain ⟨e, he, rfl⟩ := List.mem_map.mp hmem
        rw [mem_entriesIn he] at hget
        cases hget
      rw [get_putAll_of_notMem _ _ hnot, get_empty, Option.map_none]

/-- Putting the entries of a map one after the other, in any order, gives the map. -/
theorem putAll_entriesIn {m : SortedMap κ ν} {order : List κ} (h : m.Orders order) :
    empty.putAll (m.entriesIn order) = m := by
  apply ext_get
  intro k
  have hget := get_putAll_entriesIn id h k
  simpa using hget

theorem putAll_entries {m : SortedMap κ ν} : empty.putAll m.entries = m := by
  have hall := putAll_entriesIn (m := m) (List.Perm.refl m.keys)
  rwa [keys, entriesIn_of_perm (List.Perm.refl _)] at hall

/-- Every value changed, with a look at its key. -/
def mapWithKey (f : κ → ν → ν) : SortedMap κ ν where
  entries := m.entries.map fun e => (e.1, f e.1 e.2)
  sorted := by
    rw [Sorted, List.pairwise_map]
    exact m.sorted

theorem get_mapWithKey (f : κ → ν → ν) : (m.mapWithKey f).get k = (m.get k).map (f k) := by
  cases hget : m.get k with
  | some v =>
      rw [get_eq_some_iff] at hget
      rw [Option.map_some, get_eq_some_iff]
      exact List.mem_map.mpr ⟨(k, v), hget, rfl⟩
  | none =>
      rw [Option.map_none, Option.eq_none_iff_forall_not_mem]
      intro v hv
      obtain ⟨e, he, heq⟩ := List.mem_map.mp ((get_eq_some_iff _ _ _).mp hv)
      obtain ⟨rfl, -⟩ := Prod.mk.inj heq
      rw [(m.get_eq_some_iff e.1 e.2).mpr he] at hget
      cases hget

end Get

section Groups

variable {k : κ} {groups : List (List (κ × ν))}

/-- The last key of a group, if the group is not empty. -/
def lastKey? (group : List (κ × ν)) : Option κ := group.getLast?.map Prod.fst

/-- The first group whose last key is not below `k`. -/
def findGroup (groups : List (List (κ × ν))) (k : κ) : Option (List (κ × ν)) :=
  groups.find? fun group => (lastKey? group).any fun last => decide (k ≤ last)

omit [LinearOrder κ] in
theorem lastKey_of_ne_nil {group : List (κ × ν)} (hne : group ≠ []) :
    ∃ e ∈ group, lastKey? group = some e.1 := by
  refine ⟨group.getLast hne, List.getLast_mem hne, ?_⟩
  rw [lastKey?, List.getLast?_eq_some_getLast hne, Option.map_some]

theorem Sorted.le_lastKey {group : List (κ × ν)} (h : Sorted group) {last : κ}
    (hlast : lastKey? group = some last) {e : κ × ν} (he : e ∈ group) : e.1 ≤ last := by
  obtain ⟨e', he', rfl⟩ := Option.map_eq_some_iff.mp hlast
  obtain ⟨front, rfl⟩ := List.getLast?_eq_some_iff.mp he'
  rcases List.mem_append.mp he with hfront | hback
  · exact ((List.pairwise_append.mp h).2.2 e hfront e' (by simp)).le
  · rw [List.mem_singleton.mp hback]

/-- Searching the one group that `findGroup` names is searching all of them. -/
theorem lookup_flatten [BEq κ] [LawfulBEq κ] (h : Sorted groups.flatten)
    (hne : ∀ group ∈ groups, group ≠ []) :
    groups.flatten.lookup k = (findGroup groups k).bind fun group => group.lookup k := by
  induction groups with
  | nil => rfl
  | cons group rest ih =>
      obtain ⟨hgroup, hrest, hcross⟩ := List.pairwise_append.mp h
      obtain ⟨e, hmem, hlast⟩ := lastKey_of_ne_nil (hne group (by simp))
      have ih := ih hrest (fun g hg => hne g (by simp [hg]))
      by_cases hk : k ≤ e.1
      · have hnone : rest.flatten.lookup k = none := by
          apply lookup_eq_none_of_forall_ne
          intro e' he'
          exact (hk.trans_lt (hcross e hmem e' he')).ne'
        simp [findGroup, hlast, hk, List.lookup_append, hnone]
      · have hnone : group.lookup k = none := by
          apply lookup_eq_none_of_forall_ne
          intro e' he'
          have hle := Sorted.le_lastKey hgroup hlast he'
          exact (hle.trans_lt (not_le.mp hk)).ne
        simp only [findGroup] at ih ⊢
        simp [hlast, hk, List.lookup_append, hnone, ih]

end Groups

end SortedMap
