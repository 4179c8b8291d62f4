import Docket.Proofs.Client.Disturbed
import Docket.Proofs.Commit.Merge
import Docket.Proofs.Commit.Stage

/-!
# A commit without other writers

As long as nobody else writes, the identifier's entry is the one the commit found,
or its deletion. The document to be put is the merge with what was found whenever
nothing is live, and only then a put can succeed; so whatever calls fail, a commit
that ends well has written the merge.
-/
namespace Docket.Commit

/-- The database as a commit found it, or with the live document deleted. -/
inductive Held (before : Database) (id : String) : Database → Prop where
  | same : Held before id before
  | deleted {stale : Document} : before.live? id = some stale → Held before id (before.written id none)

variable {before db : Database} {id : String} {w : Writer}

theorem Held.present (h : Held before id db) : db.present = before.present := by
  cases h <;> rfl

theorem Held.find?_of_ne (h : Held before id db) {other : String} (ho : other ≠ id) :
    db.entries.find? other = before.entries.find? other := by
  cases h with
  | same => rfl
  | deleted _ => exact Database.find?_written_of_ne ho

theorem Held.sound (h : Held before id db) (hs : before.Sound) : db.Sound := by
  cases h with
  | same => exact hs
  | deleted _ => exact hs.written fun document hd => by cases hd

theorem Held.live?_cases (h : Held before id db) :
    db.live? id = before.live? id ∨ db.live? id = none ∧ ∃ stale, before.live? id = some stale := by
  cases h with
  | same => exact .inl rfl
  | deleted hl => exact .inr ⟨Database.live?_written_self, _, hl⟩

/-- What is live is what was live before, and nothing was deleted. -/
theorem Held.eq_of_live (h : Held before id db) {stale : Document} (hl : db.live? id = some stale) :
    db = before := by
  cases h with
  | same => rfl
  | deleted _ =>
      rw [Database.live?_written_self] at hl
      cases hl

/-- The document that a commit puts if it comes to replace what it found. -/
def Writer.target (w : Writer) (before : Database) : Document :=
  merged w.record w.built (before.live? w.id)

/-- The outgoing document is the right one to put as soon as nothing is live. -/
structure Ready (w : Writer) (before : Database) (outgoing : Document) (db : Database) : Prop where
  held : Held before w.id db
  addressed : Addressed w.id outgoing
  target : db.live? w.id = none → outgoing = w.target before

/-- What holds at each stage of a commit without other writers. -/
def Alone (w : Writer) (before : Database) : Stage → Database → Prop
  | .putting _ _ outgoing _, db => Ready w before outgoing db
  | .fetching _ outgoing _, db => Ready w before outgoing db
  | .clearing _ stale _ _, db => db = before ∧ before.live? w.id = some stale
  | .ended committed, db =>
      match committed.result with
      | .ok .skipped => False
      | .ok (.written rev) => ∃ mid, Held before w.id mid ∧ rev = mid.nextRevision w.id (some (w.target before)) ∧
          db = mid.written w.id (some (w.target before))
      | .error _ => Held before w.id db

theorem alone_afterPut_error (recovered : Bool) (left : Nat) {outgoing : Document} (desk : Desk)
    (h : Ready w before outgoing db) (e : StoreError) :
    Alone w before (w.afterPut recovered left outgoing desk (.error e)) db := by
  unfold Writer.afterPut
  dsimp only
  split
  · cases left with
    | zero => exact h.held
    | succ left => exact h
  · exact h.held

theorem alone_putting (hp : before.present = true) (recovered : Bool) (left : Nat) {outgoing : Document}
    (desk : Desk) (h : Ready w before outgoing db) (d : Disturbance) :
    Alone w before (w.afterPut recovered left outgoing desk (Disturbed.disturb db (.put outgoing) d).1)
      (Disturbed.disturb db (.put outgoing) d).2 := by
  have hd := Disturbed.disturb_put (h.held.present.trans hp) h.addressed.id h.addressed.rev d
  obtain ⟨e, he⟩ | ⟨hl, hw⟩ := hd
  · rw [he]
    exact alone_afterPut_error recovered left desk h e
  · rw [hw]
    rw [h.target hl]
    -- only here does a put succeed, and `target` says that it puts the merge
    exact ⟨db, h.held, rfl, rfl⟩

theorem alone_fetching (hp : before.present = true) (left : Nat) {outgoing : Document} (desk : Desk)
    (h : Ready w before outgoing db) (d : Disturbance) :
    Alone w before (w.afterGet left outgoing desk (Disturbed.disturb db (.get w.id) d).1)
      (Disturbed.disturb db (.get w.id) d).2 := by
  obtain ⟨e, he⟩ | he := Disturbed.disturb_get (h.held.present.trans hp) w.id d
  · rw [he]
    exact h.held
  · rw [he]
    cases hl : db.live? w.id with
    | none => exact h
    | some stale =>
        have hb := h.held.eq_of_live hl
        subst hb
        unfold Writer.afterGet
        dsimp only
        split
        · exact h.held
        · exact ⟨rfl, hl⟩

theorem alone_clearing (ha : Addressed w.id w.built) (left : Nat) {stale : Document} (rev : String)
    (desk : Desk) (hl : before.live? w.id = some stale) (d : Disturbance) :
    Alone w before (w.afterDelete left stale rev desk (Disturbed.disturb before (.delete w.id rev) d).1)
      (Disturbed.disturb before (.delete w.id rev) d).2 := by
  have ht : w.rebuilt stale = w.target before := by rw [Writer.target, hl]; rfl
  have hr : ∀ db, Held before w.id db → Ready w before (w.rebuilt stale) db := by
    intro db hh
    exact ⟨hh, ht ▸ ha.merged w.record _, fun _ => ht⟩
  obtain ⟨e, he⟩ | ⟨-, hw, hk | hk⟩ := Disturbed.disturb_delete before w.id rev d
  · rw [he]
    unfold Writer.afterDelete
    dsimp only
    split
    · exact hr before .same
    · exact Held.same
  · rw [hw, hk]
    exact hr _ (.deleted hl)
  · rw [hw, hk]
    exact hr _ (.deleted hl)

/-- No call breaks what holds at the stages, however it is disturbed. -/
theorem alone_step (hp : before.present = true) (ha : Addressed w.id w.built) (stage : Stage) (s : Disturbed)
    (h : Alone w before stage s.database) :
    Alone w before (w.step Disturbed.client stage s).1 (w.step Disturbed.client stage s).2.database := by
  cases stage with
  | putting recovered left outgoing desk => exact alone_putting hp recovered left desk h _
  | fetching left outgoing desk => exact alone_fetching hp left desk h _
  | clearing left stale rev desk =>
      obtain ⟨hd, hl⟩ := h
      have hc := alone_clearing ha left rev desk hl (s.script.headD .pass)
      simpa only [Writer.step, Disturbed.client, Disturbed.answer, hd] using hc
  | ended committed => exact h

/-- A commit by itself ends with the merge written, or with the database held. -/
theorem alone_run (hp : before.present = true) (ha : Addressed w.id w.built) (retries : Nat) (desk : Desk)
    (script : List Disturbance) :
    let final := (w.dialogue (.putting false retries w.built desk)).run Disturbed.client ⟨before, script⟩
    Alone w before (.ended final.1) final.2.database := by
  refine w.run_induction (I := fun stage s => Alone w before stage s.database)
    (fun stage s h => alone_step hp ha stage s h) ?_
  refine ⟨.same, ha, fun hl => ?_⟩
  rw [Writer.target, hl]
  rfl

/-! ### Without disturbances -/

/-- Where nothing is live the first put is the last call. -/
theorem quiet_of_not_live (hp : db.present = true) {outgoing : Document} (ha : Addressed w.id outgoing)
    (hl : db.live? w.id = none) (recovered : Bool) (left : Nat) (desk : Desk) :
    let d := w.dialogue (.putting recovered left outgoing desk)
    (d.run Database.client db).1.result = .ok (.written (db.nextRevision w.id (some outgoing))) ∧
      (d.run Database.client db).2 = db.written w.id (some outgoing) ∧
      d.calls Database.client db = [.put outgoing] := by
  have hw := Database.put_of_not_live hp ha.id ha.rev hl
  have hc : Database.client.answer db (.put outgoing) = db.put outgoing := rfl
  rw [w.dialogue_putting]
  simp only [Dialogue.run, Dialogue.calls, hc, hw, Writer.afterPut, Writer.dialogue, and_self]

/-- Where a document is live, one recovery takes it out of the way. -/
theorem quiet_of_live (hs : db.Sound) (hp : db.present = true) (ha : Addressed w.id w.built)
    {stale outgoing : Document} (ho : Addressed w.id outgoing) (hl : db.live? w.id = some stale)
    (recovered : Bool) (left : Nat) (desk : Desk) :
    let d := w.dialogue (.putting recovered (left + 1) outgoing desk)
    let cleared := db.written w.id none
    ∃ rev, (d.run Database.client db).1.result =
        .ok (.written (cleared.nextRevision w.id (some (w.rebuilt stale)))) ∧
      (d.run Database.client db).2 = cleared.written w.id (some (w.rebuilt stale)) ∧
      d.calls Database.client db =
        [.put outgoing, .get w.id, .delete w.id rev, .put (w.rebuilt stale)] := by
  obtain ⟨entry, hf, hd⟩ := Database.live?_eq_some.1 hl
  have hr : stale.rev? = some entry.rev := by
    rw [Document.rev?, (hs w.id entry hf).named stale hd]
    rfl
  have hput : Database.client.answer db (.put outgoing) = (.error (.conflict w.id), db) :=
    Database.put_of_live hp ho.id ho.rev hl
  have hget : Database.client.answer db (.get w.id) = (.ok (some stale), db) := by
    rw [← hl]
    exact Database.answer_get hp
  have hdelete : Database.client.answer db (.delete w.id entry.rev) =
      (.ok (db.nextRevision w.id none), db.written w.id none) := Database.delete_of_rev hp hf hd rfl
  have hre : Addressed w.id (w.rebuilt stale) := ha.merged w.record (some stale)
  have hcleared : (db.written w.id none).live? w.id = none := Database.live?_written_self
  have hpresent : (db.written w.id none).present = true := hp
  have hq := quiet_of_not_live hpresent hre hcleared
  refine ⟨entry.rev, ?_⟩
  rw [w.dialogue_putting]
  simp only [Dialogue.run, Dialogue.calls, hput, Writer.afterPut, StoreError.isConflict, if_true,
    w.dialogue_fetching, hget, Writer.afterGet, hr, w.dialogue_clearing, hdelete, Writer.afterDelete]
  obtain ⟨hres, hdb, hcalls⟩ := hq true left _
  exact ⟨hres, hdb, by rw [hcalls]⟩

/-- Left to itself, a commit with a recovery to spend writes the merge. -/
theorem commit_quiet (hs : before.Sound) (hp : before.present = true) {record : Record}
    (hu : Unreserved record.schema) (hw : record.needsWrite = true) {desk left : Desk} {built : Document}
    (hb : document id record desk = (.ok built, left)) {retries : Nat} (hn : 1 ≤ retries) :
    let final := (record.commit id retries desk).run Disturbed.client ⟨before, []⟩
    ∃ rev, final.1.result = .ok (.written rev) ∧
      final.2.database.live? id =
        some ((merged record built (before.live? id)).insert Document.revField (.string rev)) ∧
      ((record.commit id retries desk).calls Disturbed.client ⟨before, []⟩).countP (·.kind = .put) ≤ 2 := by
  have ha : Addressed id built := (builds_document hu hb).addressed hu
  dsimp only
  rw [commit_eq_dialogue retries hw hb, Disturbed.run_quiet, Disturbed.calls_quiet]
  cases hl : before.live? id with
  | none =>
      obtain ⟨hres, hdb, hc⟩ := quiet_of_not_live (w := ⟨id, built, record⟩) hp ha hl false retries left
      refine ⟨_, hres, ?_, by simp [hc, Call.kind]⟩
      dsimp only
      rw [hdb]
      exact Database.live?_written_self
  | some stale =>
      obtain ⟨n, rfl⟩ := Nat.exists_eq_add_of_le' hn
      obtain ⟨_, hres, hdb, hc⟩ := quiet_of_live (w := ⟨id, built, record⟩) hs hp ha ha hl false n left
      refine ⟨_, hres, ?_, by simp [hc, Call.kind]⟩
      dsimp only
      rw [hdb]
      exact Database.live?_written_self

/-! ### The merge -/

theorem commit_merges (hr : before.Reachable) (hp : before.present = true) {record : Record}
    (hu : Unreserved record.schema) (hw : record.needsWrite = true) {desk left : Desk} {built : Document}
    (hb : document id record desk = (.ok built, left)) (retries : Nat) :
    (∀ script rev,
      ((record.commit id retries desk).run Disturbed.client ⟨before, script⟩).1.result = .ok (.written rev) →
      let after := ((record.commit id retries desk).run Disturbed.client ⟨before, script⟩).2.database
      (∃ stored, after.live? id = some stored ∧ Merges id rev left record (before.live? id) stored) ∧
        ∀ other, other ≠ id → after.entries.find? other = before.entries.find? other) ∧
    (1 ≤ retries →
      (∃ rev, ((record.commit id retries desk).run Disturbed.client ⟨before, []⟩).1.result =
        .ok (.written rev)) ∧
      ((record.commit id retries desk).calls Disturbed.client ⟨before, []⟩).countP (·.kind = .put) ≤ 2) := by
  have hd := builds_document hu hb
  have ha : Addressed id built := hd.addressed hu
  rw [commit_eq_dialogue retries hw hb]
  constructor
  · intro script rev hres
    have hi := alone_run (w := ⟨id, built, record⟩) hp ha retries left script
    simp only [Alone, hres] at hi
    obtain ⟨mid, hm, rfl, hdb⟩ := hi
    dsimp only
    rw [hdb]
    refine ⟨⟨_, Database.live?_written_self, merges_stored _ hu hd (before.live? id)⟩, ?_⟩
    intro other ho
    rw [Database.find?_written_of_ne ho]
    exact hm.find?_of_ne ho
  · intro hn
    obtain ⟨rev, hres, -, hc⟩ := commit_quiet hr.sound hp hu hw hb hn
    rw [commit_eq_dialogue retries hw hb] at hres hc
    exact ⟨⟨rev, hres⟩, hc⟩

/-- A user with a name, an age, and a city that the schema does not know. -/
def userSchema : RecordSchema :=
  ⟨"User", [⟨"name", .string, none⟩, ⟨"age", .int, none⟩], rfl⟩

def userDocument : Document :=
  .ofList [("_id", .string "u1"), ("name", .string "Bob"), ("age", .string "36"), ("city", .string "Paris")]

def userDatabase : Database :=
  ((Database.new "users").answer (.put userDocument)).2

/-- The name is put, and the age is cleared. -/
def renamedUser : Record :=
  ((Record.fresh userSchema).put 0 (.string "Ada")).put 1 .null

def renamedDocument : Document :=
  .ofList [("_id", .string "u1"), ("name", .string "Ada")]

theorem reachable_userDatabase : userDatabase.Reachable :=
  .answer (.put userDocument) (.new "users")

theorem live_userDatabase : userDatabase.live? "u1" = some (userDocument.insert Document.revField
    (.string ((Database.new "users").nextRevision "u1" (some userDocument)))) := by
  have hi : userDocument.id? = some "u1" := rfl
  have hl : (Database.new "users").live? "u1" = none := rfl
  have hw := Database.put_of_not_live rfl hi rfl hl
  have hp : userDatabase = (Database.new "users").written "u1" (some userDocument) := congrArg Prod.snd hw
  rw [hp]
  exact Database.live?_written_self

theorem document_renamedUser :
    document "u1" renamedUser (.opened .info) = (.ok renamedDocument, .opened .info) := by
  rfl

theorem commit_merges_renamedUser : ∃ rev stored,
    ((renamedUser.commit "u1" 1 (.opened .info)).run Disturbed.client ⟨userDatabase, []⟩).1.result =
        .ok (.written rev) ∧
      ((renamedUser.commit "u1" 1 (.opened .info)).run Disturbed.client ⟨userDatabase, []⟩).2.database.live? "u1" =
        some stored ∧
      Merges "u1" rev (.opened .info) renamedUser (userDatabase.live? "u1") stored := by
  have h := commit_merges reachable_userDatabase rfl (by decide) (by decide) document_renamedUser 1
  obtain ⟨⟨rev, hres⟩, -⟩ := h.2 (Nat.le_refl 1)
  obtain ⟨⟨stored, hl, hm⟩, -⟩ := h.1 [] rev hres
  exact ⟨rev, stored, hres, hl, hm⟩

end Docket.Commit
