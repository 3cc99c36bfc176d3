import Mathlib.Data.List.Nodup
import Mathlib.Data.List.Perm.Basic
import Mathlib.Data.List.Dedup

/-!
Maps that are kept in shards. A key has one home, and only there it may be kept. What is
done shard by shard is done to the whole map, if the shards that are visited hold all keys,
and their listings behind each other list the map.
-/

namespace Sharding

variable {σ κ ν : Type*}

section Listings

/-- The entries of the map, each once. -/
structure Listing (m : κ → Option ν) (l : List (κ × ν)) : Prop where
  nodup : (l.map Prod.fst).Nodup
  mem_iff : ∀ k v, (k, v) ∈ l ↔ m k = some v

variable {m : κ → Option ν} {l l' : List (κ × ν)}

/-- Listings differ in their order only. -/
theorem Listing.perm (h : Listing m l) (h' : Listing m l') : l.Perm l' := by
  apply (List.perm_ext_iff_of_nodup h.nodup.of_map h'.nodup.of_map).mpr
  rintro ⟨k, v⟩
  rw [h.mem_iff, h'.mem_iff]

/-- The entries that pass a test. -/
theorem Listing.filter (h : Listing m l) (p : ν → Bool) :
    Listing (fun k => (m k).filter p) (l.filter fun e => p e.2) where
  nodup := h.nodup.sublist (List.filter_sublist.map _)
  mem_iff k v := by
    rw [List.mem_filter, h.mem_iff, Option.filter_eq_some_iff]

end Listings

section Shards

variable (home : κ → Option σ) (store : σ → κ → Option ν)

/-- No shard keeps a key of another one. -/
def Homed : Prop := ∀ s k, store s k ≠ none → home k = some s

/-- The map that the shards make up. -/
def whole (k : κ) : Option ν := (home k).bind fun s => store s k

variable {home store}

theorem Homed.whole_eq (h : Homed home store) {s : σ} {k : κ} {v : ν} :
    home k = some s ∧ store s k = some v ↔ store s k = some v := by
  constructor
  · exact And.right
  · intro hv
    exact ⟨h s k (by rw [hv]; exact Option.some_ne_none v), hv⟩

theorem Homed.whole_eq_some_iff (h : Homed home store) {k : κ} {v : ν} :
    whole home store k = some v ↔ ∃ s, store s k = some v := by
  rw [whole, Option.bind_eq_some_iff]
  exact exists_congr fun s => h.whole_eq

/-- The visited shards, one after the other. -/
theorem Homed.listing (h : Homed home store) {shards : List σ} (hnodup : shards.Nodup)
    (hall : ∀ s k, home k = some s → s ∈ shards) {list : σ → List (κ × ν)}
    (hlist : ∀ s ∈ shards, Listing (store s) (list s)) :
    Listing (whole home store) (shards.flatMap list) where
  nodup := by
    rw [List.map_flatMap]
    apply List.nodup_flatMap.mpr
    refine ⟨fun s hs => (hlist s hs).nodup, ?_⟩
    apply hnodup.imp_of_mem
    intro s s' hs hs' hne k hk hk'
    obtain ⟨⟨_, v⟩, hv, rfl⟩ := List.mem_map.mp hk
    obtain ⟨⟨_, v'⟩, hv', heq⟩ := List.mem_map.mp hk'
    dsimp only at heq
    subst heq
    have hhome := (h.whole_eq.mpr (((hlist s hs).mem_iff _ v).mp hv)).1
    have hhome' := (h.whole_eq.mpr (((hlist s' hs').mem_iff _ v').mp hv')).1
    rw [hhome, Option.some.injEq] at hhome'
    exact hne hhome'
  mem_iff k v := by
    rw [h.whole_eq_some_iff, List.mem_flatMap]
    constructor
    · rintro ⟨s, hs, hmem⟩
      exact ⟨s, ((hlist s hs).mem_iff k v).mp hmem⟩
    · rintro ⟨s, hv⟩
      have hs := hall s k (h.whole_eq.mpr hv).1
      exact ⟨s, hs, ((hlist s hs).mem_iff k v).mpr hv⟩

variable [DecidableEq σ]

/-- Every visited shard changes its values. -/
def visit (shards : List σ) (f : ν → Option ν) (store : σ → κ → Option ν) : σ → κ → Option ν :=
  fun s k => if s ∈ shards then (store s k).bind f else store s k

theorem visit_nil (f : ν → Option ν) : visit [] f store = store := by
  funext s k
  exact if_neg List.not_mem_nil

theorem visit_cons {s : σ} {shards : List σ} (hs : s ∉ shards) (f : ν → Option ν) :
    visit shards f (visit [s] f store) = visit (s :: shards) f store := by
  funext s' k
  rw [visit, visit, visit]
  by_cases heq : s' = s
  · subst heq
    rw [if_neg hs, if_pos List.mem_cons_self, if_pos List.mem_cons_self]
  · rw [if_neg (by simpa using heq : s' ∉ [s])]
    by_cases hmem : s' ∈ shards
    · rw [if_pos hmem, if_pos (List.mem_cons_of_mem s hmem)]
    · rw [if_neg hmem, if_neg (by simp [heq, hmem])]

theorem Homed.visit (h : Homed home store) (shards : List σ) (f : ν → Option ν) :
    Homed home (visit shards f store) := by
  intro s k hne
  apply h s k
  intro hnone
  apply hne
  rw [Sharding.visit, hnone, Option.bind_none, ite_self]

/-- Visiting all shards changes the whole map. -/
theorem Homed.whole_visit {shards : List σ} (hall : ∀ s k, home k = some s → s ∈ shards)
    (f : ν → Option ν) (k : κ) :
    whole home (Sharding.visit shards f store) k = (whole home store k).bind f := by
  cases hhome : home k with
  | none => simp [whole, hhome]
  | some s => simp [whole, hhome, Sharding.visit, hall s k hhome]

end Shards

end Sharding
