import Docket.Database
import Mathlib.Data.List.Sort

/-!
# What a scan of the database lists

The entries of a database are kept in the order of their identifiers, so a scan
lists the live documents in that order, each of them once and as it would be
fetched.
-/
namespace Docket

namespace Database

variable {db : Database} {id : String} {document : Document}

/-- The identifiers of the live documents, as a scan without limit lists them. -/
def liveIds (db : Database) : List String :=
  db.documents.map Prod.fst

theorem mem_documents : (id, document) ∈ db.documents ↔ db.live? id = some document := by
  rw [documents, live?, List.mem_filterMap]
  constructor
  · rintro ⟨⟨key, entry⟩, hm, he⟩
    obtain ⟨found, hd, heq⟩ := Option.map_eq_some_iff.1 he
    cases heq
    have hf : db.entries.find? key = some entry := db.entries.ascending.find?_of_mem hm
    rw [hf]
    exact hd
  · intro h
    obtain ⟨entry, hf, hd⟩ := Option.bind_eq_some_iff.1 h
    exact ⟨(id, entry), Entries.mem_of_find? hf, by rw [hd]; rfl⟩

/-- The identifiers are those of the live documents, each once and in order. -/
structure Lists (db : Database) (ids : List String) : Prop where
  ascending : ids.Pairwise (· < ·)
  live : ∀ id, id ∈ ids ↔ (db.live? id).isSome

theorem lists_liveIds (db : Database) : db.Lists db.liveIds where
  ascending := by
    refine List.pairwise_map.2 (List.pairwise_filterMap.2 (db.entries.ascending.imp ?_))
    intro a b hab x hx y hy
    obtain ⟨_, -, rfl⟩ := Option.map_eq_some_iff.1 hx
    obtain ⟨_, -, rfl⟩ := Option.map_eq_some_iff.1 hy
    exact hab
  live id := by
    rw [liveIds, List.mem_map, Option.isSome_iff_exists]
    constructor
    · rintro ⟨⟨key, document⟩, hm, rfl⟩
      exact ⟨document, mem_documents.1 hm⟩
    · rintro ⟨document, hl⟩
      exact ⟨(id, document), mem_documents.2 hl, rfl⟩

theorem Lists.eq_liveIds {ids : List String} (h : db.Lists ids) : ids = db.liveIds :=
  h.ascending.eq_of_mem_iff db.lists_liveIds.ascending fun id => (h.live id).trans (db.lists_liveIds.live id).symm

end Database

end Docket
