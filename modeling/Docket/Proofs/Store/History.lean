import Docket.Proofs.Store.Deeds
import Mathlib.Algebra.Order.BigOperators.Group.List

/-!
# The counts of a store tell its history

The history of a store is the list of its deeds, from a desk on which nothing was
counted. The database may be disturbed at any call, others may call it too and share
the decoders. Every step of a history adds to each counter what its deed is worth, so
at any time the counts are what the deeds so far are worth.
-/
namespace Docket

open Dialogue

/-! ### Plain answers -/

namespace Database

theorem revision_ne_empty (generation : Nat) (id : String) (document : Option Document) :
    revision generation id document ≠ "" := by
  simp [revision]

/-- The errors of a database are not about values, and its revisions are not empty. -/
theorem plain_answer (db : Database) (call : Call) : Exchange.Plain ⟨call, (db.answer call).1⟩ := by
  cases call with
  | get id =>
      show Exchange.Plain ⟨.get id, db.whenPresent _⟩
      unfold whenPresent
      split <;> exact trivial
  | scan limit =>
      show Exchange.Plain ⟨.scan limit, db.whenPresent _⟩
      unfold whenPresent
      split <;> exact trivial
  | put document =>
      show Exchange.Plain ⟨.put document, (db.put document).1⟩
      unfold put
      repeat' split
      all_goals exact trivial
  | delete id rev =>
      show Exchange.Plain ⟨.delete id rev, (db.delete id rev).1⟩
      unfold delete
      repeat' split
      all_goals first | exact trivial | exact revision_ne_empty _ _ _
  | probe => exact trivial
  | flush => exact trivial
  | create =>
      simp only [answer]
      split <;> exact trivial
  | drop =>
      simp only [answer]
      split <;> exact trivial

end Database

namespace Disturbed

/-- The disturbance makes up no error about values. -/
def Innocent : Disturbance → Prop
  | .fail (.value _) => False
  | _ => True

theorem plain_disturb (db : Database) (call : Call) {d : Disturbance} (h : Innocent d) :
    Exchange.Plain ⟨call, (disturb db call d).1⟩ := by
  cases d with
  | pass => exact db.plain_answer call
  | fail e =>
      cases e with
      | value e => exact h.elim
      | _ => exact trivial
  | vanish =>
      cases call with
      | delete id rev =>
          have hp := db.plain_answer (.delete id rev)
          simp only [disturb, Scripted.spoiled]
          generalize db.answer (.delete id rev) = answered at hp ⊢
          obtain ⟨reply, later⟩ := answered
          cases reply with
          | ok _ => exact trivial
          | error e => exact hp
      | _ => exact db.plain_answer _

/-- Behind an innocent script every exchange is plain, and what is left of the script is
innocent. -/
theorem plain_exchanges {α : Type} (d : Dialogue α) {state : Disturbed} (h : ∀ u ∈ state.script, Innocent u) :
    (∀ x ∈ d.exchanges client state, x.Plain) ∧ ∀ u ∈ (d.run client state).2.script, Innocent u := by
  induction d generalizing state with
  | done result => exact ⟨fun _ hm => absurd hm List.not_mem_nil, h⟩
  | ask call resume ih =>
      have hd : Innocent (state.script.headD .pass) := by
        cases hs : state.script with
        | nil => exact trivial
        | cons u rest => exact h u (hs ▸ List.mem_cons_self)
      have hrest : ∀ u ∈ (client.answer state call).2.script, Innocent u :=
        fun u hm => h u (List.mem_of_mem_tail hm)
      obtain ⟨hx, hs⟩ := ih (client.answer state call).1 hrest
      rw [exchanges_ask, run_ask]
      exact ⟨List.forall_mem_cons.2 ⟨plain_disturb state.database call hd, hx⟩, hs⟩

end Disturbed

namespace Store

variable {s : Store} {desk : Desk} {state : Disturbed} {deeds : List Deed}

theorem perform_eq_map_act (s : Store) (operation : Operation) (desk : Desk) :
    s.perform operation desk = (s.act operation desk).map Prod.snd := by
  cases operation with
  | put id record =>
      exact (map_map (fun committed => (committed.result, committed.desk)) Prod.snd (s.put id record desk)).symm
  | delete id => exact (map_map (fun removed => (removed.result, removed.desk)) Prod.snd (s.delete id desk)).symm
  | _ => rfl

theorem coherent_act (hc : desk.cache.Coherent) (operation : Operation) :
    (s.act operation desk).Leaves fun final => final.2.cache.Coherent := by
  have hp := coherent_perform (s := s) hc operation
  rw [perform_eq_map_act] at hp
  exact hp.of_map

/-- An operation as it was carried out. -/
def deed (s : Store) (operation : Operation) (desk : Desk) (state : Disturbed) : Deed :=
  ⟨operation, ((s.act operation desk).run Disturbed.client state).1.1,
    (s.act operation desk).exchanges Disturbed.client state⟩

/-- The deeds of a store led from a desk on which nothing was counted to this desk and
this state of the database. -/
inductive History (s : Store) : List Deed → Desk → Disturbed → Prop where
  | opened (threshold : Severity) (db : Database) {script : List Disturbance} :
      (∀ d ∈ script, Disturbed.Innocent d) → History s [] (.opened threshold) ⟨db, script⟩
  | performed {deeds : List Deed} {desk : Desk} {state : Disturbed} (operation : Operation) :
      History s deeds desk state →
      History s (deeds ++ [s.deed operation desk state])
        ((s.act operation desk).run Disturbed.client state).1.2
        ((s.act operation desk).run Disturbed.client state).2
  | called {deeds : List Deed} {desk : Desk} {state : Disturbed} (call : Call) : History s deeds desk state →
      History s deeds desk ⟨(state.database.answer call).2, state.script⟩
  | shared {deeds : List Deed} {desk : Desk} {state : Disturbed} (schema : Schema) : History s deeds desk state →
      History s deeds (desk.decoder schema).2 state

theorem History.coherent (h : s.History deeds desk state) : desk.cache.Coherent := by
  induction h with
  | opened => exact DecoderCache.coherent_empty
  | performed operation _ ih => exact coherent_act ih operation _ _ _
  | called _ _ ih => exact ih
  | shared schema _ ih => exact Desk.coherent_decoder ih schema

theorem History.innocent (h : s.History deeds desk state) : ∀ d ∈ state.script, Disturbed.Innocent d := by
  induction h with
  | opened _ _ hi => exact hi
  | performed operation _ ih => exact (Disturbed.plain_exchanges _ ih).2
  | called _ _ ih => exact ih
  | shared _ _ ih => exact ih

/-- One step more. -/
theorem History.adds (h : s.History deeds desk state) (operation : Operation) :
    s.Adds desk.tally (s.deed operation desk state)
      ((s.act operation desk).run Disturbed.client state).1.2.tally :=
  accounts h.coherent operation _ Disturbed.client state (Disturbed.plain_exchanges _ h.innocent).1

/-- At any time every count is the worth of all deeds. -/
theorem History.count_eq (h : s.History deeds desk state) (counter : Counter) :
    desk.tally.count counter = (deeds.map fun d => d.worth s counter).sum := by
  -- only an operation of one's own counts: others call the database, not the desk
  induction h with
  | opened => cases counter <;> rfl
  | performed operation h ih =>
      rw [h.adds operation counter, ih, List.map_append, List.sum_append, List.map_singleton, List.sum_singleton]
  | called _ _ ih => exact ih
  | shared schema _ ih => rw [(Desk.onlyBuilt_decoder _ schema).tally, ih]

/-- The counts are those of the deeds: each tells how many deeds of its kind there are,
or how many puts they had refused and how many records they read. -/
structure Tells (s : Store) (deeds : List Deed) (tally : Tally) : Prop where
  putsSkipped : tally.count .putsSkipped = deeds.countP Deed.skipped
  writes : tally.count .writes = deeds.countP Deed.wrote
  conflicts : tally.count .conflicts = (deeds.flatMap Deed.exchanges).countP Exchange.isRefusedPut
  conflictsRecovered :
    tally.count .conflictsRecovered = deeds.countP fun d => d.wrote && decide (0 < d.conflicts)
  recovered_le_writes : tally.count .conflictsRecovered ≤ tally.count .writes
  recovered_le_conflicts : tally.count .conflictsRecovered ≤ tally.count .conflicts
  deletes : tally.count .deletes = deeds.countP Deed.deleted
  readsMissing : tally.count .readsMissing = deeds.countP Deed.missed
  queriesExecuted : tally.count .queriesExecuted = deeds.countP Deed.executed
  decodeFailures : tally.count .decodeFailures = deeds.countP Deed.garbled
  recordsRead : tally.count .recordsRead = deeds.countP Deed.found + (deeds.map (Deed.rowsRead s)).sum

theorem sum_toNat {α : Type} (p : α → Bool) (xs : List α) : (xs.map fun x => (p x).toNat).sum = xs.countP p := by
  induction xs with
  | nil => rfl
  | cons x rest ih =>
      rw [List.map_cons, List.sum_cons, ih, List.countP_cons, Nat.add_comm]
      cases p x <;> rfl

/-- The counts of a store tell its history, however long it is and whatever faults there
were: no exit of an operation forgets a count or counts twice. -/
theorem History.tells (h : s.History deeds desk state) : s.Tells deeds desk.tally where
  putsSkipped := (h.count_eq .putsSkipped).trans (sum_toNat _ deeds)
  writes := (h.count_eq .writes).trans (sum_toNat _ deeds)
  conflicts := by
    rw [h.count_eq, List.countP_flatMap]
    rfl
  conflictsRecovered := (h.count_eq .conflictsRecovered).trans (sum_toNat _ deeds)
  recovered_le_writes := by
    rw [h.count_eq, h.count_eq]
    refine List.sum_le_sum fun d _ => ?_
    simp only [Deed.worth]
    cases d.wrote <;> cases decide (0 < d.conflicts) <;> decide
  recovered_le_conflicts := by
    rw [h.count_eq, h.count_eq]
    refine List.sum_le_sum fun d _ => ?_
    simp only [Deed.worth]
    by_cases hc : 0 < d.conflicts
    · exact (Bool.toNat_le _).trans hc
    · simp [hc]
  deletes := (h.count_eq .deletes).trans (sum_toNat _ deeds)
  readsMissing := (h.count_eq .readsMissing).trans (sum_toNat _ deeds)
  queriesExecuted := (h.count_eq .queriesExecuted).trans (sum_toNat _ deeds)
  decodeFailures := (h.count_eq .decodeFailures).trans (sum_toNat _ deeds)
  recordsRead := by
    rw [h.count_eq, ← sum_toNat, ← List.sum_map_add]
    rfl

/-! ### A query that breaks off and a put that recovers -/

/-- A query reads one user and breaks off at the other; a put is refused, deletes what it
finds and writes; a get misses, and a deletion removes what was put. -/
theorem History.tells_mixed : ∃ deeds desk state, users.History deeds desk state ∧
    desk.tally.counts = [1, 1, 1, 1, 0, 1, 1, 1, 0] := by
  have h0 : users.History [] (.opened .info) ⟨mixedDatabase, [.pass, .fail (.conflict "u1")]⟩ :=
    .opened .info mixedDatabase (List.forall_mem_cons.2 ⟨trivial, List.forall_mem_singleton.2 trivial⟩)
  have h := (((h0.performed (.execute Query.new)).performed (.put "u1" Commit.renamedUser)).performed
    (.get "u3" [])).performed (.delete "u1")
  refine ⟨_, _, _, h, ?_⟩
  have ht := h.tells
  simp only [Tally.counts, Counter.all, List.map_cons, List.map_nil]
  rw [ht.recordsRead, ht.readsMissing, ht.decodeFailures, ht.writes, ht.putsSkipped, ht.conflicts,
    ht.conflictsRecovered, ht.deletes, ht.queriesExecuted]
  decide +kernel

end Store

end Docket
