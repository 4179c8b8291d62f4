import Docket.Proofs.Commit.Conflict
import Docket.Proofs.Desk
import Docket.Proofs.Store.Scan

/-!
# What operations add to the counts

A deed is an operation that was carried out, with its result and its exchanges with
the database. What a deed is worth to each counter can be told from these alone; and
whoever answers the calls, it is what the operation adds to the counts, provided that
no error of the database passes for one of values and that deletions are acknowledged.
-/
namespace Docket

open Dialogue

namespace Exchange

/-- The rows that were listed. -/
def rows : Exchange → List Row
  | ⟨.scan _, .ok rows⟩ => rows
  | _ => []

/-- Whether the exchange is a put that was refused because of its revision. -/
def isRefusedPut (x : Exchange) : Bool :=
  x.isPut && x.isConflict

/-- The answer is none that a database does not give: no error of values, no deletion
without a revision. -/
def Plain : Exchange → Prop
  | ⟨_, .error (.value _)⟩ => False
  | ⟨.delete _ _, .ok acknowledged⟩ => acknowledged ≠ ""
  | _ => True

end Exchange

namespace Store

/-- What an operation that succeeds answers with. -/
def Operation.Answer : Operation → Type
  | createDatabase | dropDatabase | flush => Unit
  | databaseExists => Bool
  | get _ _ => Option Record
  | put _ _ => CommitOutcome
  | delete _ => Bool
  | deleteByQuery _ => Nat
  | execute _ => List ResultRow

/-- An operation with its result. -/
def act (s : Store) : (operation : Operation) → Work operation.Answer
  | .createDatabase => s.createDatabase
  | .dropDatabase => s.dropDatabase
  | .databaseExists => databaseExists
  | .get id fields => s.get id fields
  | .put id record => fun desk => (s.put id record desk).map fun committed => (committed.result, committed.desk)
  | .delete id => fun desk => (s.delete id desk).map fun removed => (removed.result, removed.desk)
  | .deleteByQuery query => s.deleteByQuery query
  | .execute query => s.execute query
  | .flush => flush

structure Deed where
  operation : Operation
  result : Except StoreError operation.Answer
  exchanges : List Exchange

/-- Whether a record can be made of a document. -/
def reads (s : Store) (fields : List String) (e : String × Document) : Bool :=
  (s.assemble e.1 e.2 fields (.opened .info)).1.isOk

/-- How many of the rows come to a record before the first that cannot be read. -/
def assembled (s : Store) (fields : List String) (rows : List Row) : Nat :=
  ((rows.filterMap held?).takeWhile (s.reads fields)).length

namespace Deed

/-- A put that found nothing to write. -/
def skipped (d : Deed) : Bool :=
  match d.operation, d.result with
  | .put _ _, .ok .skipped => true
  | _, _ => false

/-- A put that wrote. -/
def wrote (d : Deed) : Bool :=
  match d.operation, d.result with
  | .put _ _, .ok (.written _) => true
  | _, _ => false

/-- How often a put was refused because of its revision. -/
def conflicts (d : Deed) : Nat :=
  d.exchanges.countP Exchange.isRefusedPut

/-- A deletion that removed a record. -/
def deleted (d : Deed) : Bool :=
  match d.operation, d.result with
  | .delete _, .ok removed => removed
  | .deleteByQuery _, .ok count => Nat.beq count 1
  | _, _ => false

/-- A get that found a record. -/
def found (d : Deed) : Bool :=
  match d.operation, d.result with
  | .get _ _, .ok (some _) => true
  | _, _ => false

/-- A get that found nothing. -/
def missed (d : Deed) : Bool :=
  match d.operation, d.result with
  | .get _ _, .ok none => true
  | _, _ => false

/-- A query that was executed to its end. -/
def executed (d : Deed) : Bool :=
  match d.operation, d.result with
  | .execute _, .ok _ => true
  | _, _ => false

/-- A get or a query that came upon a value that cannot be read. -/
def garbled (d : Deed) : Bool :=
  match d.operation, d.result with
  | .get _ _, .error (.value _) => true
  | .execute _, .error (.value _) => true
  | _, _ => false

/-- How many rows a query has made records of, whether or not it came to its end. -/
def rowsRead (s : Store) (d : Deed) : Nat :=
  match d.operation with
  | .execute query => s.assembled (query.fields.getD []) (d.exchanges.flatMap Exchange.rows)
  | _ => 0

/-- What the deed is worth to a counter. -/
def worth (s : Store) (d : Deed) : Counter → Nat
  | .recordsRead => d.found.toNat + d.rowsRead s
  | .readsMissing => d.missed.toNat
  | .decodeFailures => d.garbled.toNat
  | .writes => d.wrote.toNat
  | .putsSkipped => d.skipped.toNat
  | .conflicts => d.conflicts
  | .conflictsRecovered => (d.wrote && decide (0 < d.conflicts)).toNat
  | .deletes => d.deleted.toNat
  | .queriesExecuted => d.executed.toNat

end Deed

/-- The counts differ by what the deed is worth. -/
def Adds (s : Store) (before : Tally) (d : Deed) (after : Tally) : Prop :=
  ∀ counter, after.count counter = before.count counter + d.worth s counter

/-- Whoever answers plainly, the operation adds what its deed is worth. -/
def Accounts (s : Store) (operation : Operation) (desk : Desk) : Prop :=
  (s.act operation desk).Ends fun xs final => (∀ x ∈ xs, x.Plain) →
    s.Adds desk.tally ⟨operation, final.1, xs⟩ final.2.tally

variable {s : Store} {desk : Desk}

/-! ### The database as a whole -/

theorem accounts_createDatabase : s.Accounts .createDatabase desk := by
  refine ends_ask fun reply => ?_
  match reply with
  | .error e => exact ends_done fun _ c => by cases c <;> rfl
  | .ok true => exact ends_done fun _ c => by cases c <;> rfl
  | .ok false =>
      refine ends_ask fun reply => ?_
      cases reply <;> exact ends_done fun _ c => by cases c <;> rfl

theorem accounts_dropDatabase : s.Accounts .dropDatabase desk := by
  refine ends_ask fun reply => ?_
  match reply with
  | .error e => exact ends_done fun _ c => by cases c <;> rfl
  | .ok false => exact ends_done fun _ c => by cases c <;> rfl
  | .ok true =>
      refine ends_ask fun reply => ?_
      cases reply <;> exact ends_done fun _ c => by cases c <;> rfl

theorem accounts_databaseExists : s.Accounts .databaseExists desk :=
  ends_ask fun _ => ends_done fun _ c => by cases c <;> rfl

theorem accounts_flush : s.Accounts .flush desk :=
  ends_ask fun _ => ends_done fun _ c => by cases c <;> rfl

/-! ### Reading -/

/-- Assembling a record counts a document that cannot be read and nothing else. -/
theorem assemble_counts (s : Store) (id : String) (document : Document) (fields : List String) (desk : Desk) :
    (∃ record left, s.assemble id document fields desk = (.ok record, left) ∧ left.tally = desk.tally) ∨
      ∃ e left, s.assemble id document fields desk = (.error (.value e), left) ∧
        left.tally = desk.tally.tick .decodeFailures := by
  have ht := Record.tally_assemble s.schema document fields desk
  unfold assemble
  dsimp only
  split
  · exact .inl ⟨_, _, rfl, ht⟩
  · exact .inr ⟨_, _, rfl, by rw [Desk.tally_note, Desk.tally_tick, ht]⟩

theorem accounts_get (id : String) (fields : List String) : s.Accounts (.get id fields) desk := by
  refine ends_ask fun reply => ?_
  match reply with
  | .error e =>
      refine ends_done fun hp c => ?_
      have hplain := hp _ (List.mem_singleton_self _)
      cases e with
      | value e => exact hplain.elim
      | _ => cases c <;> rfl
  | .ok none => exact ends_done fun _ c => by cases c <;> rfl
  | .ok (some document) =>
      dsimp only
      obtain ⟨record, left, hr, ht⟩ | ⟨e, left, hr, ht⟩ := s.assemble_counts id document fields desk
      · rw [hr]
        refine ends_done fun _ c => ?_
        rw [Desk.tally_tick, ht, Tally.count_tick]
        cases c <;> rfl
      · rw [hr]
        refine ends_done fun _ c => ?_
        rw [ht, Tally.count_tick]
        cases c <;> rfl

/-! ### Removing -/

/-- A removal puts nothing, and it counts when a document was deleted. -/
def RemovalCounts (desk : Desk) (xs : List Exchange) (removed : Removed) : Prop :=
  xs.countP Exchange.isRefusedPut = 0 ∧
    ((removed.result = .ok true ∧ removed.desk.tally = desk.tally.tick .deletes) ∨
      (removed.result ≠ .ok true ∧ removed.desk.tally = desk.tally))

theorem remove_counts (id : String) :
    (remove id desk).Ends fun xs removed => (∀ x ∈ xs, x.Plain) → RemovalCounts desk xs removed := by
  refine ends_ask fun reply => ?_
  match reply with
  | .error e => exact ends_done fun _ => ⟨rfl, .inr ⟨fun h => (by cases h), rfl⟩⟩
  | .ok none => exact ends_done fun _ => ⟨rfl, .inr ⟨by simp, rfl⟩⟩
  | .ok (some current) =>
      dsimp only
      split
      · exact ends_done fun _ => ⟨rfl, .inr ⟨fun h => (by cases h), rfl⟩⟩
      · refine ends_ask fun reply => ?_
        match reply with
        | .ok acknowledged =>
            refine ends_done fun hp => ⟨rfl, .inl ⟨?_, rfl⟩⟩
            have hne : acknowledged ≠ "" := hp _ (List.mem_cons_of_mem _ (List.mem_singleton_self _))
            exact congrArg Except.ok (congrArg not (String.isEmpty_eq_false_iff.2 hne))
        | .error e =>
            dsimp only
            split
            · exact ends_done fun _ => ⟨rfl, .inr ⟨by simp, rfl⟩⟩
            · exact ends_done fun _ => ⟨rfl, .inr ⟨fun h => (by cases h), rfl⟩⟩

/-- A deed that was a removal is worth what the removal counts. -/
theorem RemovalCounts.adds {xs : List Exchange} {removed : Removed} (h : RemovalCounts desk xs removed) {d : Deed}
    (hx : d.exchanges = xs) (hd : d.deleted = true ↔ removed.result = .ok true)
    (ho : ∀ c, c ≠ .conflicts → c ≠ .deletes → d.worth s c = 0) : s.Adds desk.tally d removed.desk.tally := by
  obtain ⟨hnone, hcases⟩ := h
  have hconflicts : d.worth s .conflicts = 0 := by rw [Deed.worth, Deed.conflicts, hx, hnone]
  have hworth : ∀ c, d.worth s c = if c = .deletes then d.deleted.toNat else 0 := by
    intro c
    by_cases hc : c = .deletes
    · rw [if_pos hc, hc, Deed.worth]
    · rw [if_neg hc]
      by_cases hk : c = .conflicts
      · rw [hk, hconflicts]
      · exact ho c hk hc
  intro c
  rw [hworth]
  obtain ⟨hr, ht⟩ | ⟨hr, ht⟩ := hcases
  · rw [ht, Tally.count_tick, hd.2 hr]
    rfl
  · rw [ht, Bool.eq_false_iff.2 (mt hd.1 hr)]
    split <;> rfl

theorem accounts_delete (id : String) : s.Accounts (.delete id) desk := by
  refine Ends.map ((remove_counts id).mono fun xs removed h hp => ?_)
  refine (h hp).adds rfl ?_ fun c hk hd => by cases c <;> first | rfl | contradiction
  obtain ⟨result, left⟩ := removed
  cases result with
  | error e => exact iff_of_false Bool.false_ne_true fun h => by cases h
  | ok found => exact (Except.ok.injEq found true).symm.to_iff

/-- By a query the same is removed, and told as a number. -/
theorem accounts_deleteByQuery (query : Query) : s.Accounts (.deleteByQuery query) desk := by
  cases hk : query.key with
  | none =>
      have hd : s.act (.deleteByQuery query) desk = .done (.ok (0 : Nat), desk) := by
        simp only [act, deleteByQuery, hk]
        rfl
      rw [Accounts, hd]
      exact ends_done fun _ c => by cases c <;> rfl
  | some key =>
      have hd : s.act (.deleteByQuery query) desk = (remove key desk).map fun removed =>
          (removed.result.map fun deleted => if deleted then (1 : Nat) else 0, removed.desk) := by
        simp only [act, deleteByQuery, hk]
        rfl
      rw [Accounts, hd]
      refine Ends.map ((remove_counts key).mono fun xs removed h hp => ?_)
      refine (h hp).adds rfl ?_ fun c hk hd => by cases c <;> first | rfl | contradiction
      obtain ⟨result, left⟩ := removed
      match result with
      | .error e => exact iff_of_false Bool.false_ne_true fun h => by cases h
      | .ok true => exact iff_of_true rfl rfl
      | .ok false => exact iff_of_false Bool.false_ne_true (by simp)

/-! ### Writing -/

/-- What is left of a put adds what it is worth, if it counts as a recovery when it
writes. -/
def AddsAfter (s : Store) (recovered : Bool) (before : Tally) (d : Deed) (after : Tally) : Prop :=
  ∀ counter, after.count counter = before.count counter +
    match counter with
    | .conflictsRecovered => (d.wrote && (recovered || decide (0 < d.conflicts))).toNat
    | counter => d.worth s counter

variable {recovered : Bool} {before mid after : Tally} {id : String} {record : Record}
  {result : Except StoreError CommitOutcome} {xs : List Exchange}

/-- From its beginning a put has met no conflict. -/
theorem AddsAfter.adds {d : Deed} (h : AddsAfter s false before d after) : s.Adds before d after :=
  fun c => (h c).trans (by cases c <;> rfl)

/-- A put that was refused, and what was asked until the next. -/
theorem AddsAfter.refused (h : AddsAfter s true mid ⟨.put id record, result, xs⟩ after) (outgoing : Document)
    {e : StoreError} (hc : e.isConflict = true) (others : List Exchange) (ho : ∀ x ∈ others, x.isPut = false)
    (hm : ∀ c, mid.count c = before.count c + if c = .conflicts then 1 else 0) :
    AddsAfter s recovered before
      ⟨.put id record, result, ⟨.put outgoing, .error e⟩ :: (others ++ xs)⟩ after := by
  have hput : Exchange.isRefusedPut ⟨.put outgoing, .error e⟩ = true := hc
  have hothers : others.countP Exchange.isRefusedPut = 0 :=
    List.countP_eq_zero.2 fun x hx => by rw [Exchange.isRefusedPut, ho x hx]; exact Bool.false_ne_true
  have hcount : (⟨.put outgoing, .error e⟩ :: (others ++ xs)).countP Exchange.isRefusedPut =
      xs.countP Exchange.isRefusedPut + 1 := by
    rw [List.countP_cons_of_pos hput, List.countP_append, hothers, Nat.zero_add]
  intro c
  rw [h c, hm c]
  cases c with
  | conflicts =>
      simp only [Deed.worth, Deed.conflicts, hcount, if_true]
      omega
  | conflictsRecovered =>
      have hpos : decide (0 < xs.countP Exchange.isRefusedPut + 1) = true := decide_eq_true (Nat.succ_pos _)
      simp only [Deed.conflicts, hcount, hpos, Bool.true_or, Bool.or_true]
      rfl
  | _ => rfl

theorem count_tick_conflicts (desk : Desk) (c : Counter) :
    (desk.tick .conflicts).tally.count c = desk.tally.count c + if c = .conflicts then 1 else 0 := by
  rw [Desk.tally_tick, Tally.count_tick]

/-- Every course of a put adds what the put is worth by its result and its exchanges. -/
theorem addsAfter_course {w : Commit.Writer} {left : Nat} {outgoing : Document} {committed : Committed}
    (h : w.Course recovered left outgoing desk xs committed) :
    AddsAfter s recovered desk.tally ⟨.put id record, committed.result, xs⟩ committed.desk.tally := by
  have hnone : ∀ x ∈ ([] : List Exchange), x.isPut = false := fun _ hm => absurd hm List.not_mem_nil
  -- a put that was refused counts as recovered from there on, so the flag varies
  induction h with
  | written rev =>
      rename_i recovered _ _ desk
      intro c
      cases recovered <;> cases c <;> rfl
  | @failed _ _ outgoing _ e hc =>
      have hput : Exchange.isRefusedPut ⟨.put outgoing, .error e⟩ = false := hc
      have hcount : [(⟨.put outgoing, .error e⟩ : Exchange)].countP Exchange.isRefusedPut = 0 :=
        List.countP_cons_of_neg (Bool.eq_false_iff.1 hput)
      intro c
      cases c with
      | conflicts => exact (congrArg (_ + ·) hcount).symm
      | _ => rfl
  | exhausted hc =>
      exact .refused (fun c => by cases c <;> rfl) _ hc [] hnone (count_tick_conflicts _)
  | unfetched fault hc =>
      refine .refused (fun c => by cases c <;> rfl) _ hc [_] ?_ (count_tick_conflicts _)
      simp [Exchange.isPut, Call.kind]
  | unnamed hc _ =>
      refine .refused (fun c => by cases c <;> rfl) _ hc [_] ?_ (count_tick_conflicts _)
      simp [Exchange.isPut, Call.kind]
  | undeleted hc _ _ =>
      refine .refused (fun c => by cases c <;> rfl) _ hc [_, _] ?_ (count_tick_conflicts _)
      simp [Exchange.isPut, Call.kind]
  | absent hc _ ih =>
      refine .refused ih _ hc [_] ?_ (count_tick_conflicts _)
      simp [Exchange.isPut, Call.kind]
  | gone hc _ _ _ ih =>
      refine .refused ih _ hc [_, _] ?_ (count_tick_conflicts _)
      simp [Exchange.isPut, Call.kind]
  | cleared hc _ _ ih =>
      refine .refused ih _ hc [_, _] ?_ (count_tick_conflicts _)
      simp [Exchange.isPut, Call.kind]

theorem accounts_put (id : String) (record : Record) : s.Accounts (.put id record) desk := by
  refine Ends.map ?_
  have ho := Commit.outset_commit record id s.settings.conflictRetries desk
  rw [put]
  generalize record.commit id s.settings.conflictRetries desk = d at ho ⊢
  cases ho with
  | skipped _ =>
      refine ends_done fun _ c => ?_
      rw [Desk.tally_note, Desk.tally_tick, Tally.count_tick]
      cases c <;> rfl
  | unbuilt _ hd =>
      have hb := (Commit.onlyBuilt_document id record desk).tally
      rw [hd] at hb
      refine ends_done fun _ c => ?_
      rw [hb]
      cases c <;> rfl
  | @started built left _ hd =>
      have hb := (Commit.onlyBuilt_document id record desk).tally
      rw [hd] at hb
      intro σ client state _
      have hw := (Commit.Writer.mk id built record).course_putting client false s.settings.conflictRetries built left state
      rw [← hb]
      exact (addsAfter_course hw).adds

/-! ### Querying -/

theorem coherent_opened (threshold : Severity) : (Desk.opened threshold).cache.Coherent :=
  DecoderCache.coherent_empty

section

variable {fields : List String} {row : Row} {rows : List Row} {e : String × Document}

theorem assembled_of_none (hh : held? row = none) : s.assembled fields (row :: rows) = s.assembled fields rows := by
  rw [assembled, List.filterMap_cons_none hh, assembled]

theorem assembled_of_ok (hc : desk.cache.Coherent) (hh : held? row = some e) {record : Record}
    (hr : (s.assemble e.1 e.2 fields desk).1 = .ok record) :
    s.assembled fields (row :: rows) = s.assembled fields rows + 1 := by
  rw [assemble_eq hc (coherent_opened .info)] at hr
  have hok : s.reads fields e = true := by rw [reads, hr]; rfl
  rw [assembled, List.filterMap_cons_some hh, List.takeWhile_cons_of_pos hok, List.length_cons, assembled]

theorem assembled_of_error (hc : desk.cache.Coherent) (hh : held? row = some e) {fault : StoreError}
    (hr : (s.assemble e.1 e.2 fields desk).1 = .error fault) : s.assembled fields (row :: rows) = 0 := by
  rw [assemble_eq hc (coherent_opened .info)] at hr
  have hok : ¬s.reads fields e = true := by rw [reads, hr]; exact Bool.false_ne_true
  rw [assembled, List.filterMap_cons_some hh, List.takeWhile_cons_of_neg hok, List.length_nil]

/-- Reading rows counts the records that were made, and a document that could not be
read. -/
theorem assembleRows_counts (hc : desk.cache.Coherent) (s : Store) (fields : List String) (rows : List Row) :
    (∃ found left, s.assembleRows fields rows desk = (.ok found, left) ∧ ∀ c, left.tally.count c =
        desk.tally.count c + if c = .recordsRead then s.assembled fields rows else 0) ∨
      ∃ e left, s.assembleRows fields rows desk = (.error (.value e), left) ∧ ∀ c, left.tally.count c =
        desk.tally.count c + (if c = .recordsRead then s.assembled fields rows else 0) +
          if c = .decodeFailures then 1 else 0 := by
  induction rows generalizing desk with
  | nil => exact .inl ⟨[], desk, rfl, fun c => by cases c <;> rfl⟩
  | cons row rest ih =>
      rw [assembleRows]
      split
      · rename_i hd
        rw [assembled_of_none (show held? row = none by simp [held?, hd])]
        exact ih hc
      · rename_i hd
        split
        · rename_i hn
          rw [assembled_of_none (show held? row = none by simp [held?, hn])]
          exact ih hc
        · rename_i document hr
          have hheld : held? row = some (row.id, document) := by simp [held?, hd, hr]
          have ha := coherent_assemble hc s row.id document fields
          -- how many rows are read does not depend on the decoders, since those of the desk are coherent
          obtain ⟨record, left, hok, ht⟩ | ⟨e, left, herr, ht⟩ := s.assemble_counts row.id document fields desk
          · rw [hok] at ha ⊢
            rw [assembled_of_ok hc hheld (by rw [hok])]
            dsimp only
            have hticked : ∀ c, (left.tick .recordsRead).tally.count c =
                desk.tally.count c + if c = .recordsRead then 1 else 0 := fun c => by
              rw [Desk.tally_tick, ht, Tally.count_tick]
            have hleft : (left.tick .recordsRead).cache.Coherent := ha
            obtain ⟨found, later, hrest, hcount⟩ | ⟨e, later, hrest, hcount⟩ := ih hleft
            · rw [hrest]
              refine .inl ⟨_, later, rfl, fun c => ?_⟩
              rw [hcount, hticked]
              split <;> omega
            · rw [hrest]
              refine .inr ⟨e, later, rfl, fun c => ?_⟩
              rw [hcount, hticked]
              split <;> omega
          · rw [herr, assembled_of_error hc hheld (by rw [herr])]
            refine .inr ⟨e, left, rfl, fun c => ?_⟩
            rw [ht, Tally.count_tick]
            cases c <;> rfl

end

theorem accounts_execute (hc : desk.cache.Coherent) (query : Query) : s.Accounts (.execute query) desk := by
  by_cases hfit : ∀ limit, query.limit = some limit → limit ≤ greatestLimit
  · rw [Accounts, act, execute_eq_scan hfit]
    refine ends_ask fun reply => ?_
    match reply with
    | .error e =>
        refine ends_done fun hp c => ?_
        have hplain := hp _ (List.mem_singleton_self _)
        cases e with
        | value e => exact hplain.elim
        | _ => cases c <;> rfl
    | .ok rows =>
        have hrows : ∀ result, Deed.rowsRead s ⟨.execute query, result, [⟨.scan query.limit, .ok rows⟩]⟩ =
            s.assembled (query.fields.getD []) rows := fun _ => congrArg (s.assembled _) (List.append_nil rows)
        dsimp only
        obtain ⟨found, left, hr, ht⟩ | ⟨e, left, hr, ht⟩ := assembleRows_counts hc s (query.fields.getD []) rows
        · rw [hr]
          refine ends_done fun _ c => ?_
          rw [Desk.tally_note, Desk.tally_tick, Tally.count_tick, ht]
          cases c with
          | recordsRead =>
              rw [Deed.worth, hrows]
              exact (congrArg (_ + ·) (Nat.zero_add _)).symm
          | _ => rfl
        · rw [hr]
          refine ends_done fun _ c => ?_
          rw [ht]
          cases c with
          | recordsRead =>
              rw [Deed.worth, hrows]
              exact (congrArg (_ + ·) (Nat.zero_add _)).symm
          | _ => rfl
  · simp only [not_forall, Nat.not_le] at hfit
    obtain ⟨limit, hl, hlt⟩ := hfit
    rw [Accounts, act, execute_of_lt hl hlt]
    exact ends_done fun _ c => by cases c <;> rfl

/-- Whoever answers, if the answers are plain, an operation adds to each counter what its
deed is worth. -/
theorem accounts (hc : desk.cache.Coherent) (operation : Operation) : s.Accounts operation desk := by
  cases operation with
  | createDatabase => exact accounts_createDatabase
  | dropDatabase => exact accounts_dropDatabase
  | databaseExists => exact accounts_databaseExists
  | get id fields => exact accounts_get id fields
  | put id record => exact accounts_put id record
  | delete id => exact accounts_delete id
  | deleteByQuery query => exact accounts_deleteByQuery query
  | execute query => exact accounts_execute hc query
  | flush => exact accounts_flush

end Store

end Docket
