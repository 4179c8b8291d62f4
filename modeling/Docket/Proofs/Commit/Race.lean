import Docket.Proofs.Commit.Alone
import Docket.Proofs.Database.Standing

/-!
# Two commits that race

Two commits under one identifier may interrupt each other between any two calls.
Until one of them has written, each either holds a document that shows its own
record, or has fetched a version that it may be too late to delete: a deletion
names the revision of that version, and no two versions have one revision. Once
one has written, the other can only write after it has deleted exactly what the
first one wrote, and then it carries all of it that is not its own.
-/
namespace Docket.Commit

variable {db : Database} {w : Writer} {stage : Stage} {outgoing stored stale : Document} {rev : String}

/-- The version was live under the identifier at some time; since then it was
replaced, or it stands there still. -/
def Fetched (db : Database) (id : String) (stale : Document) (rev : String) : Prop :=
  ∃ entry : Entry, entry.Sound id ∧ entry.document = some stale ∧ entry.rev = rev ∧
    entry.generation ≤ db.generation id ∧
    (entry.generation = db.generation id → db.entries.find? id = some entry)

theorem fetched_of_live {id : String} (hs : db.Sound) (hl : db.live? id = some stale)
    (hr : stale.rev? = some rev) : Fetched db id stale rev := by
  obtain ⟨entry, hf, hd, hn⟩ := Database.standing_of_live hs hl hr
  have hg := Database.generation_of_find? hf
  exact ⟨entry, hs id entry hf, hd, hn, Nat.le_of_eq hg.symm, fun _ => hf⟩

/-- A version that was fetched is replaced by every write. -/
theorem Fetched.written {id : String} {body : Option Document} (h : Fetched db id stale rev) :
    Fetched (db.written id body) id stale rev := by
  obtain ⟨entry, he, hd, hn, hg, -⟩ := h
  refine ⟨entry, he, hd, hn, ?_, fun heq => ?_⟩
  · rw [Database.generation_written_self]
    omega
  · rw [Database.generation_written_self] at heq
    omega

/-- Only the version that was fetched stands under its revision. -/
theorem Fetched.live {id : String} (h : Fetched db id stale rev) (hs : db.Sound) {entry : Entry}
    (hf : db.entries.find? id = some entry) (hr : entry.rev = rev) : db.live? id = some stale := by
  obtain ⟨found, he, hd, hn, -, hg⟩ := h
  have hsame := Database.generation_eq_of_rev_eq he (hs id entry hf) (hn.trans hr.symm)
  have hf := hg (hsame.trans (Database.generation_of_find? hf).symm)
  exact Database.live?_eq_some.2 ⟨found, hf, hd⟩

/-- The document holds what the writer built wherever its record is marked. -/
def Own (w : Writer) (document : Document) : Prop :=
  ∀ name, marks w.record name = true → document.find? name = w.built.find? name

theorem own_rebuilt (w : Writer) (stale : Document) : Own w (w.rebuilt stale) :=
  fun _ hm => find?_carryOver_of_marks hm

/-- What holds of a commit that has not written yet. -/
def Waiting (w : Writer) (db : Database) : Stage → Prop
  | .putting _ _ outgoing _ => Addressed w.id outgoing ∧ Own w outgoing
  | .fetching _ outgoing _ => Addressed w.id outgoing ∧ Own w outgoing
  | .clearing _ stale rev _ => Fetched db w.id stale rev
  | .ended committed => ∀ rev, committed.result ≠ .ok (.written rev)

/-- Another's write does not disturb a commit that has not written yet. -/
theorem Waiting.written {body : Option Document} (h : Waiting w db stage) :
    Waiting w (db.written w.id body) stage := by
  cases stage with
  | clearing left stale rev desk => exact Fetched.written h
  | _ => exact h

/-- What a commit's next call may do: leave the database as it is, delete the live
document, or write where none is live. -/
inductive Advance (w : Writer) (db : Database) : Stage → Database → Prop where
  | quiet {stage : Stage} : Waiting w db stage → Advance w db stage db
  | cleared {stale : Document} (left : Nat) (desk : Desk) : db.live? w.id = some stale →
      Advance w db (.putting true left (w.rebuilt stale) desk) (db.written w.id none)
  | wrote {outgoing : Document} {committed : Committed} : db.live? w.id = none → Own w outgoing →
      committed.result = .ok (.written (db.nextRevision w.id (some outgoing))) →
      Advance w db (.ended committed) (db.written w.id (some outgoing))

theorem waiting_afterPut_error (recovered : Bool) (left : Nat) (desk : Desk) (e : StoreError)
    (h : Addressed w.id outgoing ∧ Own w outgoing) :
    Waiting w db (w.afterPut recovered left outgoing desk (.error e)) := by
  unfold Writer.afterPut
  dsimp only
  split
  · cases left with
    | zero => exact fun rev hr => by cases hr
    | succ left => exact h
  · exact fun rev hr => by cases hr

theorem advance_putting (hp : db.present = true) (ha : Addressed w.id outgoing) (ho : Own w outgoing)
    (recovered : Bool) (left : Nat) (desk : Desk) :
    Advance w db (w.afterPut recovered left outgoing desk (db.put outgoing).1) (db.put outgoing).2 := by
  cases hl : db.live? w.id with
  | some stale =>
      rw [Database.put_of_live hp ha.id ha.rev hl]
      exact .quiet (waiting_afterPut_error recovered left desk _ ⟨ha, ho⟩)
  | none =>
      rw [Database.put_of_not_live hp ha.id ha.rev hl]
      exact .wrote hl ho rfl

theorem advance_fetching (hs : db.Sound) (ha : Addressed w.id outgoing)
    (ho : Own w outgoing) (left : Nat) (desk : Desk) :
    Advance w db (w.afterGet left outgoing desk (.ok (db.live? w.id))) db := by
  refine .quiet ?_
  cases hl : db.live? w.id with
  | none => exact ⟨ha, ho⟩
  | some stale =>
      unfold Writer.afterGet
      dsimp only
      split
      · exact fun rev hr => by cases hr
      · rename_i rev hr
        exact fetched_of_live hs hl hr

theorem advance_clearing (hs : db.Sound) (hb : Addressed w.id w.built) (h : Fetched db w.id stale rev)
    (left : Nat) (desk : Desk) :
    Advance w db (w.afterDelete left stale rev desk (db.delete w.id rev).1) (db.delete w.id rev).2 := by
  obtain ⟨e, he, -⟩ | ⟨entry, _, hf, -, hr, hd⟩ := db.delete_cases w.id rev
  · rw [he]
    refine .quiet ?_
    unfold Writer.afterDelete
    dsimp only
    split
    · exact ⟨hb.merged w.record (some stale), own_rebuilt w stale⟩
    · exact fun rev hr => by cases hr
  · rw [hd]
    -- no other version has this revision, so what was fetched is what was live
    exact .cleared left _ (h.live hs hf hr)

theorem advance_step (hs : db.Sound) (hp : db.present = true) (hb : Addressed w.id w.built)
    (h : Waiting w db stage) :
    Advance w db (w.step Database.client stage db).1 (w.step Database.client stage db).2 := by
  cases stage with
  | putting recovered left outgoing desk => exact advance_putting hp h.1 h.2 recovered left desk
  | fetching left outgoing desk =>
      have hg : Database.client.answer db (.get w.id) = (.ok (db.live? w.id), db) := Database.answer_get hp
      simp only [Writer.step, hg]
      exact advance_fetching hs h.1 h.2 left desk
  | clearing left stale rev desk => exact advance_clearing hs hb h left desk
  | ended committed => exact .quiet h

/-- Where a commit stands after another has stored a document: that document is
live; or it was deleted and is about to be rewritten; or it was rewritten. -/
inductive After (w : Writer) (stored : Document) : Stage → Database → Prop where
  | standing {stage : Stage} {db : Database} : db.live? w.id = some stored → Waiting w db stage →
      After w stored stage db
  | cleared {db : Database} (left : Nat) (desk : Desk) : db.live? w.id = none →
      After w stored (.putting true left (w.rebuilt stored) desk) db
  | rewritten {db : Database} {committed : Committed} (rev : String) :
      db.live? w.id = some ((w.rebuilt stored).insert Document.revField (.string rev)) →
      After w stored (.ended committed) db

theorem after_step (hs : db.Sound) (hp : db.present = true) (hb : Addressed w.id w.built)
    (h : After w stored stage db) :
    After w stored (w.step Database.client stage db).1 (w.step Database.client stage db).2 := by
  cases h with
  | standing hl hw =>
      have ha := advance_step hs hp hb hw
      generalize w.step Database.client stage db = next at ha
      obtain ⟨stage, later⟩ := next
      cases ha with
      | quiet hw => exact .standing hl hw
      | cleared left desk hc =>
          cases hl.symm.trans hc
          exact .cleared left desk Database.live?_written_self
      | wrote hn _ _ => cases hl.symm.trans hn
  | cleared left desk hl =>
      -- the document was cleared by this very commit, so nothing stops its put
      have hc := hb.merged w.record (some stored)
      have hput : Database.client.answer db (.put (w.rebuilt stored)) = _ :=
        Database.put_of_not_live hp hc.id hc.rev hl
      simp only [Writer.step, hput]
      exact .rewritten _ Database.live?_written_self
  | rewritten rev hl => exact .rewritten rev hl

theorem sound_step (hs : db.Sound) (w : Writer) (stage : Stage) :
    (w.step Database.client stage db).2.Sound := by
  cases stage with
  | putting recovered left outgoing desk => exact hs.answer (.put outgoing)
  | fetching left outgoing desk => exact hs
  | clearing left stale rev desk => exact hs.answer (.delete w.id rev)
  | ended committed => exact hs

theorem present_step (w : Writer) (stage : Stage) (db : Database) :
    (w.step Database.client stage db).2.present = db.present := by
  cases stage with
  | putting recovered left outgoing desk => exact db.present_put outgoing
  | fetching left outgoing desk => rfl
  | clearing left stale rev desk => exact db.present_delete w.id rev
  | ended committed => rfl

/-- Neither of two commits has written yet; or one of them has, and the other stands
after it. -/
def Racing (w : Bool → Writer) (stage : Bool → Stage) (db : Database) : Prop :=
  (∀ i, Waiting (w i) db (stage i)) ∨
    ∃ i committed outgoing rev, stage i = .ended committed ∧ Own (w i) outgoing ∧
      After (w !i) (outgoing.insert Document.revField (.string rev)) (stage !i) db

theorem not_ne (i : Bool) : (!i) ≠ i := by
  cases i <;> decide

/-- The call of one commit, whoever has written before. -/
theorem racing_step {w : Bool → Writer} {id : String} (hid : ∀ i, (w i).id = id)
    (hb : ∀ i, Addressed (w i).id (w i).built) {stage next : Bool → Stage} (hs : db.Sound)
    (hp : db.present = true) (h : Racing w stage db) {i : Bool}
    (hi : next i = ((w i).step Database.client (stage i) db).1) (hj : ∀ j, j ≠ i → next j = stage j) :
    Racing w next ((w i).step Database.client (stage i) db).2 := by
  -- until the first write either may be the one that makes it; then only the other moves
  obtain hw | ⟨first, committed, outgoing, rev, he, ho, ha⟩ := h
  · have ha := advance_step hs hp (hb i) (hw i)
    have hother : ∀ j, j ≠ i → ∀ body, Waiting (w j) (db.written (w i).id body) (next j) := by
      intro j hne body
      rw [hid i, ← hid j, hj j hne]
      exact (hw j).written
    generalize (w i).step Database.client (stage i) db = reached at ha hi
    obtain ⟨reached, later⟩ := reached
    dsimp only at ha hi ⊢
    cases ha with
    | quiet hq =>
        refine .inl fun j => ?_
        by_cases hne : j = i
        · rw [hne, hi]
          exact hq
        · rw [hj j hne]
          exact hw j
    | cleared left desk hl =>
        refine .inl fun j => ?_
        by_cases hne : j = i
        · rw [hne, hi]
          exact ⟨(hb i).merged (w i).record (some _), own_rebuilt (w i) _⟩
        · exact hother j hne none
    | @wrote outgoing committed hn ho hr =>
        have hl : (db.written (w i).id (some outgoing)).live? (w !i).id = some (outgoing.insert Document.revField
            (.string (db.nextRevision (w i).id (some outgoing)))) := by
          rw [hid !i, ← hid i]
          exact Database.live?_written_self
        exact .inr ⟨i, committed, outgoing, _, hi, ho, .standing hl (hother (!i) (not_ne i) _)⟩
  · by_cases hf : i = first
    · subst hf
      rw [he] at hi ⊢
      exact .inr ⟨i, committed, outgoing, rev, hi, ho, by rw [hj _ (not_ne i)]; exact ha⟩
    · obtain rfl : i = !first := by cases i <;> cases first <;> simp_all
      refine .inr ⟨first, committed, outgoing, rev, ?_, ho, ?_⟩
      · rw [hj first (not_ne first).symm, he]
      · rw [hi]
        exact after_step hs hp (hb !first) ha

/-- Two commits that stand at stages at which they race. -/
structure Contest (w : Bool → Writer) (p : Parties Bool Database Committed) : Prop where
  sound : p.state.Sound
  present : p.state.present = true
  racing : ∃ stage : Bool → Stage, (∀ i, p.dialogue i = (w i).dialogue (stage i)) ∧ Racing w stage p.state

theorem contest_turn {w : Bool → Writer} {id : String} (hid : ∀ i, (w i).id = id)
    (hb : ∀ i, Addressed (w i).id (w i).built) (p : Parties Bool Database Committed) (i : Bool)
    (h : Contest w p) : Contest w (p.turn Database.client i) := by
  obtain ⟨stage, hd, hr⟩ := h.racing
  have hstep := (w i).step_dialogue Database.client (stage i) p.state
  rw [← hd i] at hstep
  have hstate : (p.turn Database.client i).state = ((w i).step Database.client (stage i) p.state).2 := by
    rw [Parties.state_turn, hstep]
  obtain ⟨next, hi, hj⟩ : ∃ next : Bool → Stage, next i = ((w i).step Database.client (stage i) p.state).1 ∧
      ∀ j, j ≠ i → next j = stage j :=
    ⟨fun j => if j = i then ((w i).step Database.client (stage i) p.state).1 else stage j, if_pos rfl,
      fun j hj => if_neg hj⟩
  refine ⟨?_, ?_, next, ?_, ?_⟩
  · rw [hstate]
    exact sound_step h.sound (w i) (stage i)
  · rw [hstate, present_step]
    exact h.present
  · intro j
    by_cases hne : j = i
    · rw [hne, Parties.dialogue_turn_self, hstep, hi]
    · rw [Parties.dialogue_turn_of_ne Database.client p hne, hj j hne, hd j]
  · rw [hstate]
    exact racing_step hid hb h.sound h.present hr hi hj

/-- Once both have written, what is live is what one put over the other's document. -/
theorem live_of_racing {w : Bool → Writer} {stage : Bool → Stage} (h : Racing w stage db)
    (hw : ∀ i, ∃ committed rev, stage i = .ended committed ∧ committed.result = .ok (.written rev)) :
    ∃ i outgoing rev later, Own (w i) outgoing ∧ db.live? (w !i).id =
      some (((w !i).rebuilt (outgoing.insert Document.revField (.string rev))).insert Document.revField
        (.string later)) := by
  have hnot : ∀ i, ¬Waiting (w i) db (stage i) := by
    intro i hi
    obtain ⟨committed, rev, he, hr⟩ := hw i
    rw [he] at hi
    exact hi rev hr
  obtain hall | ⟨i, _, outgoing, rev, -, ho, ha⟩ := h
  · exact absurd (hall true) (hnot true)
  · obtain ⟨committed, _, he, -⟩ := hw !i
    generalize hs : stage (!i) = reached at ha
    cases ha with
    | standing _ hwait => exact absurd (hs ▸ hwait) (hnot !i)
    | cleared left desk _ => cases hs.symm.trans he
    | rewritten later hl => exact ⟨i, outgoing, rev, later, ho, hl⟩

/-- What one put over the other's document shows both records, if no field is marked
in both. -/
theorem shows_both {record : Bool → Record} {id : String} {desk : Bool → Desk} {built : Bool → Document}
    (hu : ∀ i, Unreserved (record i).schema) (hb : ∀ i, Builds id (desk i) (record i) (built i))
    (hd : ∀ i name, marks (record i) name = true → marks (record !i) name = false) {i : Bool}
    (ho : Own ⟨id, built i, record i⟩ outgoing) (rev later : String) (j : Bool) :
    Shows (desk j) (record j)
      ((carryOver (record !i) (built !i) (outgoing.insert Document.revField (.string rev))).insert
        Document.revField (.string later)) := by
  have hname : ∀ i name, marks (record i) name = true → Document.isReserved name = false := by
    intro i name hm
    by_cases hr : Document.isReserved name = true
    · rw [marks_of_isReserved (hu i) hr] at hm
      cases hm
    · exact Bool.eq_false_iff.2 hr
  have hne : ∀ {name key : String}, Document.isReserved name = false → Document.isReserved key = true →
      name ≠ key := by
    intro name key hn hk heq
    rw [heq, hk] at hn
    cases hn
  refine (hb j).toShows.congr fun name hm => ?_
  have hr := hname j name hm
  rw [Keyed.find?_insert_of_ne _ (hne hr (by decide))]
  by_cases hj : j = i
  · subst hj
    have hother := hd j name hm
    rw [find?_carryOver, hr, hother, (hb !j).other name hother (hne hr (by decide)),
      Keyed.find?_insert_of_ne _ (hne hr (by decide)), ho name hm]
    rfl
  · obtain rfl : j = !i := by cases i <;> cases j <;> simp_all
    exact find?_carryOver_of_marks hm

/-- Two commits under one identifier that have not begun. -/
def rivals (record : Bool → Record) (id : String) (retries : Bool → Nat) (desk : Bool → Desk)
    (db : Database) : Parties Bool Database Committed :=
  ⟨fun i => (record i).commit id (retries i) (desk i), db⟩

theorem race_keeps_both (hr : db.Reachable) (hp : db.present = true) {record : Bool → Record}
    {schema : RecordSchema} (hs : ∀ i, (record i).schema = schema) (hu : Unreserved schema)
    (hd : ∀ position,
      ¬((record false).isDirtyAt position = true ∧ (record true).isDirtyAt position = true))
    (id : String) (retries : Bool → Nat) (desk : Bool → Desk) (order : List Bool)
    (hw : ∀ i, ∃ committed rev,
      ((rivals record id retries desk db).play Database.client order).dialogue i = .done committed ∧
        committed.result = .ok (.written rev)) :
    ∃ final, ((rivals record id retries desk db).play Database.client order).state.live? id = some final ∧
      ∀ i, Shows (document id (record i) (desk i)).2 (record i) final := by
  have hstart : ∀ i, (record i).needsWrite = true ∧
      ∃ built, document id (record i) (desk i) = (.ok built, (document id (record i) (desk i)).2) := by
    intro i
    obtain ⟨committed, rev, he, hres⟩ := hw i
    obtain hc | ⟨early, hc, hn⟩ := commit_cases (record i) id (retries i) (desk i)
    · exact hc
    · have hk := Parties.dialogue_play_of_done Database.client
        (p := rivals record id retries desk db) (i := i) hc order
      cases hk.symm.trans he
      exact absurd hres (hn rev)
  obtain ⟨built, hb⟩ := Classical.axiomOfChoice fun i => (hstart i).2
  have hui : ∀ i, Unreserved (record i).schema := fun i => by rw [hs i]; exact hu
  have hbuilds := fun i => builds_document (hui i) (hb i)
  have haddr : ∀ i, Addressed id (built i) := fun i => (hbuilds i).addressed (hui i)
  have hmarks : ∀ i name, marks (record i) name = true → marks (record !i) name = false := by
    intro i name hm
    obtain ⟨position, hpos, hmine⟩ := marks_eq_true.1 hm
    refine Bool.eq_false_iff.2 fun hother => ?_
    obtain ⟨place, hplace, htheirs⟩ := marks_eq_true.1 hother
    rw [hs] at hpos hplace
    cases hpos.symm.trans hplace
    cases i with
    | false => exact hd position ⟨hmine, htheirs⟩
    | true => exact hd position ⟨htheirs, hmine⟩
  have hcontest : Contest (fun i => ⟨id, built i, record i⟩) (rivals record id retries desk db) := by
    refine ⟨hr.sound, hp, fun i => .putting false (retries i) (built i) (document id (record i) (desk i)).2,
      fun i => commit_eq_dialogue (retries i) (hstart i).1 (hb i), .inl fun i => ⟨haddr i, fun _ _ => rfl⟩⟩
  have hfinal := Parties.play_induction Database.client
    (contest_turn (w := fun i => ⟨id, built i, record i⟩) (fun _ => rfl) haddr) hcontest order
  obtain ⟨stage, hdial, hracing⟩ := hfinal.racing
  obtain ⟨i, outgoing, rev, later, ho, hl⟩ := live_of_racing hracing (by
    intro i
    obtain ⟨committed, rev, he, hres⟩ := hw i
    exact ⟨committed, rev, Writer.dialogue_eq_done _ ((hdial i).symm.trans he), hres⟩)
  exact ⟨_, hl, shows_both hui hbuilds hmarks ho rev later⟩

/-- The revision that a conversation has written, if it is over. -/
def writtenRev? : Dialogue Committed → Option String
  | .done ⟨.ok (.written rev), _, _⟩ => some rev
  | _ => none

theorem written_of_rev? {d : Dialogue Committed} (h : (writtenRev? d).isSome = true) :
    ∃ committed rev, d = .done committed ∧ committed.result = .ok (.written rev) := by
  unfold writtenRev? at h
  split at h
  · exact ⟨_, _, rfl, rfl⟩
  · cases h

/-- One puts the name of the user, the other the age. -/
def twoRecords : Bool → Record
  | false => (Record.fresh userSchema).put 0 (.string "Ada")
  | true => (Record.fresh userSchema).put 1 (.int 40)

def twoBudgets : Bool → Nat
  | false => 2
  | true => 0

def twoDesks : Bool → Desk
  | _ => .opened .info

/-- The second writes between the deletion and the put of the first, which then has
to recover once more. -/
def crossing : List Bool :=
  [false, false, false, true, false, false, false, false]

theorem written_crossing : ∀ i, ∃ committed rev,
    ((rivals twoRecords "u1" twoBudgets twoDesks userDatabase).play Database.client crossing).dialogue i =
        .done committed ∧
      committed.result = .ok (.written rev) := by
  have hw : ∀ i, (writtenRev? (((rivals twoRecords "u1" twoBudgets twoDesks userDatabase).play
      Database.client crossing).dialogue i)).isSome = true := by decide +kernel
  exact fun i => written_of_rev? (hw i)

theorem race_keeps_both_crossing : (∀ i, ∃ committed rev,
    ((rivals twoRecords "u1" twoBudgets twoDesks userDatabase).play Database.client crossing).dialogue i =
        .done committed ∧
      committed.result = .ok (.written rev)) ∧
    ∃ final, ((rivals twoRecords "u1" twoBudgets twoDesks userDatabase).play Database.client
        crossing).state.live? "u1" = some final ∧
      ∀ i, Shows (document "u1" (twoRecords i) (twoDesks i)).2 (twoRecords i) final := by
  have hd : ∀ position,
      ¬((twoRecords false).isDirtyAt position = true ∧ (twoRecords true).isDirtyAt position = true) := by
    rintro position ⟨hf, ht⟩
    have hl : position < 2 := of_decide_eq_true (Bool.and_eq_true_iff.1 hf).1
    obtain rfl | rfl : position = 0 ∨ position = 1 := by omega
    · exact absurd ht (by decide)
    · exact absurd hf (by decide)
  have hs : ∀ i, (twoRecords i).schema = userSchema := by
    intro i
    cases i <;> rfl
  exact ⟨written_crossing, race_keeps_both reachable_userDatabase rfl hs (by decide) hd "u1" twoBudgets
    twoDesks crossing written_crossing⟩

end Docket.Commit
