import Docket.Proofs.Entries
import Mathlib.Data.Finset.Card

/-!
# The keys of keyed entries

Keyed entries have as many keys as there are entries. Entries put together in whatever
order have the keys they came with, so all of them are kept only if no key came twice.
-/
namespace Docket.Keyed

variable {α : Type}

/-- The keys with a value. -/
def keys (m : Keyed α) : Finset String :=
  (m.entries.map Prod.fst).toFinset

theorem isSome_find?_iff (key : String) (entries : List (String × α)) :
    (Entries.find? key entries).isSome ↔ key ∈ entries.map Prod.fst := by
  induction entries with
  | nil => simp [Entries.find?]
  | cons head rest ih =>
      by_cases h : key = head.1
      · simp [Entries.find?, h]
      · simp [Entries.find?, h, ih]

@[simp] theorem mem_keys {m : Keyed α} {key : String} : key ∈ m.keys ↔ (m.find? key).isSome := by
  rw [keys, List.mem_toFinset, find?, isSome_find?_iff]

/-- Keys ascend, so each is counted once. -/
theorem card_keys (m : Keyed α) : m.keys.card = m.size := by
  have hn : (m.entries.map Prod.fst).Nodup :=
    List.pairwise_map.2 (m.ascending.imp fun h => String.ne_of_lt h)
  rw [keys, List.toFinset_card_of_nodup hn, List.length_map, size]

theorem keys_insert (m : Keyed α) (key : String) (value : α) :
    (m.insert key value).keys = Insert.insert key m.keys := by
  ext other
  by_cases h : other = key
  · simp [h]
  · simp [h, find?_insert_of_ne m h]

theorem size_insert {m : Keyed α} {key : String} (h : m.find? key = none) (value : α) :
    (m.insert key value).size = m.size + 1 := by
  have hn : key ∉ m.keys := by simp [h]
  rw [← card_keys, ← card_keys, keys_insert, Finset.card_insert_of_notMem hn]

theorem keys_ofList (entries : List (String × α)) : (ofList entries).keys = (entries.map Prod.fst).toFinset := by
  ext key
  rw [mem_keys, find?, ofList, Entries.find?_ofList, isSome_find?_iff, List.mem_toFinset, List.map_reverse,
    List.mem_reverse]

/-- Of entries that come in any order, all are kept exactly if their keys differ. -/
theorem size_ofList_eq_iff (entries : List (String × α)) :
    (ofList entries).size = entries.length ↔ (entries.map Prod.fst).Nodup := by
  have hl : entries.length = (entries.map Prod.fst).length := List.length_map _ |>.symm
  rw [← card_keys, keys_ofList, hl]
  exact Multiset.toFinset_card_eq_card_iff_nodup

end Docket.Keyed
