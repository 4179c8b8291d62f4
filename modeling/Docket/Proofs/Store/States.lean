import Docket.Proofs.Store.Restore

/-!
# The states of a store

Operations change two things: the database, by the calls that they make, and the
desk. A state of a store is one that operations have led to from an empty cache,
while others called the database and asked the cache for decoders of their own.
In every state the cache is coherent, because a decoder is all that an operation
ever adds to it.
-/
namespace Docket

open Dialogue

namespace Store

variable {s : Store} {desk : Desk} {db : Database}

theorem coherent_assemble (hc : desk.cache.Coherent) (s : Store) (id : String) (document : Document)
    (fields : List String) : (s.assemble id document fields desk).2.cache.Coherent := by
  have ha := Record.coherent_assemble hc s.schema document fields
  unfold assemble
  dsimp only
  split <;> exact ha

theorem coherent_assembleRows (hc : desk.cache.Coherent) (s : Store) (fields : List String) (rows : List Row) :
    (s.assembleRows fields rows desk).2.cache.Coherent := by
  induction rows generalizing desk with
  | nil => exact hc
  | cons row rest ih =>
      rw [assembleRows]
      split
      · exact ih hc
      · split
        · exact ih hc
        · rename_i document _
          have ha := coherent_assemble hc s row.id document fields
          generalize s.assemble row.id document fields desk = outcome at ha ⊢
          match outcome with
          | (.error e, left) => exact ha
          | (.ok record, left) =>
              have hr : (s.assembleRows fields rest (left.tick .recordsRead)).2.cache.Coherent := ih ha
              dsimp only
              generalize s.assembleRows fields rest (left.tick .recordsRead) = others at hr ⊢
              match others with
              | (.error e, later) => exact hr
              | (.ok rows, later) => exact hr

/-- What is left of the execution of a query once its limit was found fit. -/
def scan (s : Store) (query : Query) (desk : Desk) : Dialogue (Except StoreError (List ResultRow) × Desk) :=
  .ask (.scan query.limit) fun
    | .error e => .done (.error e, desk)
    | .ok rows =>
        match s.assembleRows (query.fields.getD []) rows desk with
        | (.error e, desk) => .done (.error e, desk)
        | (.ok rows, desk) =>
            .done (.ok rows, (desk.tick .queriesExecuted).note .queryExecuted
              [("database", s.settings.database), ("rows", toString rows.length)])

theorem execute_eq_scan {query : Query} (h : ∀ limit, query.limit = some limit → limit ≤ greatestLimit) :
    s.execute query desk = s.scan query desk := by
  unfold execute
  dsimp only
  split
  · rename_i limit hl
    exact if_neg (Nat.not_lt.2 (h limit hl))
  · rfl

theorem execute_of_lt {query : Query} {limit : Nat} (hl : query.limit = some limit) (h : greatestLimit < limit) :
    s.execute query desk = .done (.error (.settings (.queryLimit limit)), desk) := by
  simp only [execute, hl, h, if_true]

/-! ### Operations -/

/-- What can be asked of a store. -/
inductive Operation where
  | createDatabase
  | dropDatabase
  | databaseExists
  | get (id : String) (fields : List String)
  | put (id : String) (record : Record)
  | delete (id : String)
  | deleteByQuery (query : Query)
  | execute (query : Query)
  | flush

/-- An operation, of which only the desk is kept. -/
def perform (s : Store) (operation : Operation) (desk : Desk) : Dialogue Desk :=
  match operation with
  | .createDatabase => (s.createDatabase desk).map Prod.snd
  | .dropDatabase => (s.dropDatabase desk).map Prod.snd
  | .databaseExists => (databaseExists desk).map Prod.snd
  | .get id fields => (s.get id fields desk).map Prod.snd
  | .put id record => (s.put id record desk).map Committed.desk
  | .delete id => (s.delete id desk).map Removed.desk
  | .deleteByQuery query => (s.deleteByQuery query desk).map Prod.snd
  | .execute query => (s.execute query desk).map Prod.snd
  | .flush => (flush desk).map Prod.snd

theorem coherent_createDatabase (hc : desk.cache.Coherent) :
    (s.createDatabase desk).Leaves fun final => final.2.cache.Coherent := by
  refine leaves_ask fun reply => ?_
  match reply with
  | .error e => exact leaves_done hc
  | .ok true => exact leaves_done hc
  | .ok false =>
      refine leaves_ask fun reply => ?_
      match reply with
      | .error e => exact leaves_done hc
      | .ok _ => exact leaves_done hc

theorem coherent_dropDatabase (hc : desk.cache.Coherent) :
    (s.dropDatabase desk).Leaves fun final => final.2.cache.Coherent := by
  refine leaves_ask fun reply => ?_
  match reply with
  | .error e => exact leaves_done hc
  | .ok false => exact leaves_done hc
  | .ok true =>
      refine leaves_ask fun reply => ?_
      match reply with
      | .error e => exact leaves_done hc
      | .ok _ => exact leaves_done hc

theorem coherent_get (hc : desk.cache.Coherent) (id : String) (fields : List String) :
    (s.get id fields desk).Leaves fun final => final.2.cache.Coherent := by
  refine leaves_ask fun reply => ?_
  match reply with
  | .error e => exact leaves_done hc
  | .ok none => exact leaves_done hc
  | .ok (some document) =>
      have ha := coherent_assemble hc s id document fields
      dsimp only
      generalize s.assemble id document fields desk = outcome at ha ⊢
      match outcome with
      | (.error e, left) => exact leaves_done ha
      | (.ok record, left) => exact leaves_done ha

theorem coherent_put (hc : desk.cache.Coherent) (id : String) (record : Record) :
    (s.put id record desk).Leaves fun committed => committed.desk.cache.Coherent := by
  have ho := Commit.outset_commit record id s.settings.conflictRetries desk
  rw [put]
  generalize record.commit id s.settings.conflictRetries desk = d at ho ⊢
  cases ho with
  | skipped _ => exact leaves_done hc
  | unbuilt _ hd =>
      have hb : (Commit.document id record desk).2.cache.Coherent := Commit.coherent_addFields hc _ _
      rw [hd] at hb
      exact leaves_done hb
  | @started built left _ hd =>
      -- no call of a commit builds a decoder
      intro σ client state
      have hleft := Commit.coherent_document hc hd
      have hf := Commit.Writer.faithful_run (w := ⟨id, built, record⟩) client s.settings.conflictRetries built left state
      rw [← hf.cache] at hleft
      exact hleft

theorem coherent_remove (hc : desk.cache.Coherent) (id : String) :
    (remove id desk).Leaves fun removed => removed.desk.cache.Coherent := by
  refine leaves_ask fun reply => ?_
  match reply with
  | .error e => exact leaves_done hc
  | .ok none => exact leaves_done hc
  | .ok (some current) =>
      dsimp only
      split
      · exact leaves_done hc
      · refine leaves_ask fun reply => ?_
        match reply with
        | .ok _ => exact leaves_done hc
        | .error e =>
            dsimp only
            split <;> exact leaves_done hc

theorem coherent_deleteByQuery (hc : desk.cache.Coherent) (query : Query) :
    (s.deleteByQuery query desk).Leaves fun final => final.2.cache.Coherent := by
  unfold deleteByQuery
  split
  · exact leaves_done hc
  · exact (coherent_remove hc _).bind fun _ h => leaves_done h

theorem coherent_execute (hc : desk.cache.Coherent) (query : Query) :
    (s.execute query desk).Leaves fun final => final.2.cache.Coherent := by
  by_cases hfit : ∀ limit, query.limit = some limit → limit ≤ greatestLimit
  · rw [execute_eq_scan hfit]
    refine leaves_ask fun reply => ?_
    match reply with
    | .error e => exact leaves_done hc
    | .ok rows =>
        have ha := coherent_assembleRows hc s (query.fields.getD []) rows
        dsimp only
        generalize s.assembleRows (query.fields.getD []) rows desk = outcome at ha ⊢
        match outcome with
        | (.error e, left) => exact leaves_done ha
        | (.ok rows, left) => exact leaves_done ha
  · simp only [not_forall, Nat.not_le] at hfit
    obtain ⟨limit, hl, hlt⟩ := hfit
    rw [execute_of_lt hl hlt]
    exact leaves_done hc

theorem coherent_perform (hc : desk.cache.Coherent) (operation : Operation) :
    (s.perform operation desk).Leaves fun left => left.cache.Coherent := by
  cases operation with
  | createDatabase => exact Leaves.map (coherent_createDatabase hc)
  | dropDatabase => exact Leaves.map (coherent_dropDatabase hc)
  | databaseExists => exact leaves_ask fun _ => leaves_done hc
  | get id fields => exact Leaves.map (coherent_get hc id fields)
  | put id record => exact Leaves.map (coherent_put hc id record)
  | delete id => exact Leaves.map (coherent_remove hc id)
  | deleteByQuery query => exact Leaves.map (coherent_deleteByQuery hc query)
  | execute query => exact Leaves.map (coherent_execute hc query)
  | flush => exact leaves_ask fun _ => leaves_done hc

/-! ### States -/

/-- Operations have led the store to this desk and the database, from an empty cache
and any database in use. Others call the same database and share the cache. -/
inductive Reachable (s : Store) : Desk → Database → Prop where
  | opened {db : Database} (journal : Journal) (tally : Tally) : db.Reachable → Reachable s ⟨∅, journal, tally⟩ db
  | performed {desk : Desk} {db : Database} (operation : Operation) : Reachable s desk db →
      Reachable s ((s.perform operation desk).run Database.client db).1
        ((s.perform operation desk).run Database.client db).2
  | called {desk : Desk} {db : Database} (call : Call) : Reachable s desk db → Reachable s desk (db.answer call).2
  | shared {desk : Desk} {db : Database} (schema : Schema) : Reachable s desk db →
      Reachable s (desk.decoder schema).2 db

theorem Reachable.coherent (h : s.Reachable desk db) : desk.cache.Coherent := by
  induction h with
  | opened => exact DecoderCache.coherent_empty
  | performed operation _ ih => exact coherent_perform ih operation _ _ _
  | called _ _ ih => exact ih
  | shared schema _ ih => exact Desk.coherent_decoder ih schema

end Store

end Docket
