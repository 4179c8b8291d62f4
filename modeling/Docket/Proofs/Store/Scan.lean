import Docket.Proofs.Database.Listing
import Docket.Proofs.Store.States

/-!
# A scan gives what single reads give

A scan and a read under an identifier come to a record by different ways, but both
assemble it of the live document, and what is assembled does not depend on the
decoders that are there by then. So a scan gives the records that are got under
the identifiers it lists, in their order. The limit of a query cuts the listing
before the design documents are left out.
-/
namespace Docket

namespace Store

variable {s : Store} {desk other : Desk} {db : Database} {fields : List String}

/-- What is got is assembled of the live document, at any desk. -/
theorem assemble_eq (hc : desk.cache.Coherent) (ho : other.cache.Coherent) (id : String) (document : Document)
    (fields : List String) :
    (s.assemble id document fields desk).1 = (s.assemble id document fields other).1 := by
  have ha := Record.assemble_eq hc ho s.schema document fields
  unfold assemble
  dsimp only
  rw [ha]
  split <;> rfl

theorem get_of_live (hp : db.present = true) {id : String} {document : Document} (hl : db.live? id = some document)
    (fields : List String) (desk : Desk) :
    ((s.get id fields desk).run Database.client db).1.1 = (s.assemble id document fields desk).1.map some := by
  rw [result_get s hp hl]
  unfold assemble
  generalize Record.assemble s.schema document fields desk = assembly
  obtain ⟨result, left⟩ := assembly
  cases result <;> rfl

/-- The document of a row that holds a record, with the identifier. -/
def held? (row : Row) : Option (String × Document) :=
  if designMark.toList.isPrefixOf row.id.toList then none
  else row.document.map fun document => (row.id, document)

/-- The rows of records are the records of the rows that hold one. -/
theorem result_assembleRows (hc : desk.cache.Coherent) (ho : other.cache.Coherent) (fields : List String)
    (rows : List Row) : (s.assembleRows fields rows desk).1 =
      (rows.filterMap held?).mapM fun e => (s.assemble e.1 e.2 fields other).1.map (ResultRow.mk e.1) := by
  induction rows generalizing desk with
  | nil => rfl
  | cons row rest ih =>
      rw [assembleRows]
      split
      · rename_i hd
        rw [ih hc, List.filterMap_cons_none (by simp [held?, hd])]
      · rename_i hd
        split
        · rename_i hn
          rw [ih hc, List.filterMap_cons_none (by simp [held?, hn])]
        · rename_i document hr
          have hheld : held? row = some (row.id, document) := by simp [held?, hd, hr]
          have ha := coherent_assemble hc s row.id document fields
          rw [List.filterMap_cons_some hheld, List.mapM_cons, ← assemble_eq hc ho]
          generalize s.assemble row.id document fields desk = outcome at ha ⊢
          obtain ⟨result, left⟩ := outcome
          cases result with
          | error e => rfl
          | ok record =>
              have hrest : (s.assembleRows fields rest (left.tick .recordsRead)).1 = _ := ih ha
              dsimp only
              generalize s.assembleRows fields rest (left.tick .recordsRead) = others at hrest ⊢
              obtain ⟨result, later⟩ := others
              rw [← hrest]
              cases result <;> rfl

/-! ### The rows of a database -/

/-- As many as a limit allows, if there is one. -/
def upTo {α : Type} (limit : Option Nat) (xs : List α) : List α :=
  match limit with
  | some n => xs.take n
  | none => xs

theorem map_upTo {α β : Type} (f : α → β) (limit : Option Nat) (xs : List α) :
    (upTo limit xs).map f = upTo limit (xs.map f) := by
  cases limit with
  | none => rfl
  | some n => exact List.map_take

theorem mem_of_mem_upTo {α : Type} {limit : Option Nat} {xs : List α} {x : α} (h : x ∈ upTo limit xs) : x ∈ xs := by
  cases limit with
  | none => exact h
  | some n => exact List.mem_of_mem_take h

/-- Whether records are kept under the identifier. -/
def holdsRecords (id : String) : Bool :=
  !designMark.toList.isPrefixOf id.toList

/-- The identifiers of a listing whose records a query wants: the limit counts those
of design documents too. -/
def wanted (limit : Option Nat) (ids : List String) : List String :=
  (upTo limit ids).filter holdsRecords

/-- The live documents under these identifiers. -/
def wantedDocuments (db : Database) (limit : Option Nat) : List (String × Document) :=
  (upTo limit db.documents).filter fun e => holdsRecords e.1

theorem map_fst_wantedDocuments {ids : List String} (hl : db.Lists ids) (limit : Option Nat) :
    (wantedDocuments db limit).map Prod.fst = wanted limit ids := by
  rw [hl.eq_liveIds, wanted, Database.liveIds, ← map_upTo, List.filter_map]
  rfl

theorem live?_of_mem_wantedDocuments {limit : Option Nat} {e : String × Document}
    (h : e ∈ wantedDocuments db limit) : db.live? e.1 = some e.2 :=
  Database.mem_documents.1 (mem_of_mem_upTo (List.mem_filter.1 h).1)

theorem filterMap_rows (db : Database) (limit : Option Nat) :
    (db.rows limit).filterMap held? = wantedDocuments db limit := by
  have hrows : db.rows limit = (upTo limit db.documents).map fun e => ⟨e.1, some e.2⟩ := by
    rw [map_upTo]
    rfl
  rw [hrows, List.filterMap_map, wantedDocuments, ← List.filterMap_eq_filter]
  congr 1
  funext e
  simp only [Function.comp_apply, held?, Option.guard, holdsRecords, Bool.not_eq_true']
  cases designMark.toList.isPrefixOf e.1.toList <;> rfl

theorem result_scan (hp : db.present = true) (hc : desk.cache.Coherent) (ho : other.cache.Coherent)
    (query : Query) : ((s.scan query desk).run Database.client db).1.1 =
      (wantedDocuments db query.limit).mapM fun e =>
        (s.assemble e.1 e.2 (query.fields.getD []) other).1.map (ResultRow.mk e.1) := by
  have ha : Database.client.answer db (.scan query.limit) = (.ok (db.rows query.limit), db) := by
    simp only [Database.client, Database.answer, Database.whenPresent, hp, if_true]
  rw [← filterMap_rows, ← result_assembleRows hc ho]
  simp only [scan, Dialogue.run, ha]
  generalize s.assembleRows (query.fields.getD []) (db.rows query.limit) desk = outcome
  obtain ⟨result, left⟩ := outcome
  cases result <;> rfl

/-! ### Scans and reads -/

/-- In any state with a database a query with a fit limit gives records exactly when
a read under each identifier that it wants gives one, in whatever state the reads
are made, and its rows are these records under these identifiers, in order. A limit
that is too great is refused before any call. -/
theorem execute_eq_gets (h : s.Reachable desk db) (ho : s.Reachable other db) (hp : db.present = true)
    {ids : List String} (hl : db.Lists ids) (query : Query) :
    let scanned := ((s.execute query desk).run Database.client db).1.1
    let got := fun id => ((s.get id (query.fields.getD []) other).run Database.client db).1.1
    (∀ limit, query.limit = some limit → greatestLimit < limit →
      scanned = .error (.settings (.queryLimit limit)) ∧ (s.execute query desk).calls Database.client db = []) ∧
    ((∀ limit, query.limit = some limit → limit ≤ greatestLimit) →
      ((∃ rows, scanned = .ok rows) ↔ ∀ id ∈ wanted query.limit ids, ∃ found, got id = .ok found) ∧
      ∀ rows, scanned = .ok rows →
        List.Forall₂ (fun id row => row.id = id ∧ got id = .ok (some row.record)) (wanted query.limit ids) rows) := by
  refine ⟨fun limit hlimit hlt => ?_, fun hfit => ?_⟩
  · rw [execute_of_lt hlimit hlt]
    exact ⟨rfl, rfl⟩
  · have hgot : ∀ e ∈ wantedDocuments db query.limit,
        ((s.get e.1 (query.fields.getD []) other).run Database.client db).1.1 =
          (s.assemble e.1 e.2 (query.fields.getD []) other).1.map some :=
      fun e he => get_of_live hp (live?_of_mem_wantedDocuments he) _ _
    dsimp only
    rw [execute_eq_scan hfit, result_scan hp h.coherent ho.coherent, ← map_fst_wantedDocuments hl]
    constructor
    · rw [exists_mapM_eq_ok, List.forall_mem_map]
      refine forall₂_congr fun e he => ?_
      rw [hgot e he, exists_map_eq_ok, exists_map_eq_ok]
    · intro rows hr
      rw [List.forall₂_map_left_iff]
      refine (forall₂_and (mapM_eq_ok_iff.1 hr) hgot fun _ _ => trivial).imp ?_
      rintro e row ⟨hg, -, hrow⟩
      obtain ⟨record, hrecord, rfl⟩ := map_eq_ok hrow
      rw [hg, hrecord]
      exact ⟨rfl, rfl⟩

/-! ### A view and two users -/

def users : Store :=
  ⟨.new "users", Commit.userSchema⟩

/-- A view, and a user whose age is no number. -/
def mixedDatabase : Database :=
  let withView := (Commit.userDatabase.answer
    (.put (.ofList [("_id", .string "_design/by-age"), ("views", .object [])]))).2
  (withView.answer (.put (.ofList [("_id", .string "u2"), ("age", .string "old")]))).2

theorem reachable_mixed : users.Reachable (.opened .info) mixedDatabase :=
  .opened _ _ (.answer _ (.answer _ Commit.reachable_userDatabase))

/-- The first two rows are those of the view and of a user that can be read. -/
theorem execute_eq_gets_mixed :
    wanted (some 2) ["_design/by-age", "u1", "u2"] = ["u1"] ∧
    ∃ row, ((users.execute (Query.new.withLimit 2) (.opened .info)).run Database.client mixedDatabase).1.1 = .ok [row] ∧
      row.id = "u1" ∧
      ((users.get "u1" [] (.opened .info)).run Database.client mixedDatabase).1.1 = .ok (some row.record) := by
  have hl : mixedDatabase.Lists ["_design/by-age", "u1", "u2"] := mixedDatabase.lists_liveIds
  obtain ⟨-, hfit⟩ := execute_eq_gets reachable_mixed reachable_mixed rfl hl (Query.new.withLimit 2)
  obtain ⟨hok, hrows⟩ := hfit fun limit h => by cases h; decide
  have hw : wanted (some 2) ["_design/by-age", "u1", "u2"] = ["u1"] := by decide
  have hgot : ∃ found, ((users.get "u1" [] (.opened .info)).run Database.client mixedDatabase).1.1 = .ok found :=
    ⟨_, rfl⟩
  change (_ ↔ ∀ id ∈ wanted (some 2) _, _) at hok
  rw [hw, List.forall_mem_singleton] at hok
  obtain ⟨rows, hr⟩ := hok.2 hgot
  obtain ⟨row, rest, ⟨hid, hrecord⟩, hrest, rfl⟩ := List.forall₂_cons_left_iff.1 (hrows rows hr)
  cases hrest
  exact ⟨hw, row, hr, hid, hrecord⟩

end Store

end Docket
