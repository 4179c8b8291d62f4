import Docket.Commit
import Docket.Proofs.Client.Turns

/-!
# The stages of a commit

Between two calls a commit stands at one of three stages: it is about to put, to
fetch what it conflicts with, or to delete what it fetched. The answer to its next
call decides the next stage.
-/
namespace Docket.Commit

/-- Where a commit stands. The number counts the recoveries that are left; the
documents are the one to be put and the one to be deleted. -/
inductive Stage where
  | putting (recovered : Bool) (left : Nat) (outgoing : Document) (desk : Desk)
  | fetching (left : Nat) (outgoing : Document) (desk : Desk)
  | clearing (left : Nat) (stale : Document) (rev : String) (desk : Desk)
  | ended (committed : Committed)

/-- What a commit works with at every stage. -/
structure Writer where
  id : String
  built : Document
  record : Record

namespace Writer

variable {σ : Type} (w : Writer)

def afterPut (recovered : Bool) (left : Nat) (outgoing : Document) (desk : Desk) :
    Except StoreError String → Stage
  | .ok rev =>
      let desk := desk.tick .writes
      let desk := if recovered then desk.tick .conflictsRecovered else desk
      .ended ⟨.ok (.written rev), w.record.markClean, desk.note .documentWritten [("id", w.id), ("rev", rev)]⟩
  | .error e =>
      if e.isConflict then
        let desk := desk.tick .conflicts
        match left with
        | 0 => .ended ⟨.error e, w.record, desk.note .conflictUnrecovered [("id", w.id)]⟩
        | left + 1 => .fetching left outgoing (desk.note .writeConflict [("id", w.id)])
      else .ended ⟨.error e, w.record, desk⟩

def afterGet (left : Nat) (outgoing : Document) (desk : Desk) :
    Except StoreError (Option Document) → Stage
  | .error e => .ended ⟨.error e, w.record, desk⟩
  | .ok none => .putting true left outgoing desk
  | .ok (some stale) =>
      match Document.rev? stale with
      | none => .ended ⟨.error (.client (.noRevision w.id)), w.record, desk⟩
      | some rev => .clearing left stale rev desk

/-- The document put after a recovery carries what the fetched one held. -/
def rebuilt (stale : Document) : Document :=
  carryOver w.record w.built stale

def afterDelete (left : Nat) (stale : Document) (rev : String) (desk : Desk) :
    Except StoreError String → Stage
  | .ok _ =>
      .putting true left (w.rebuilt stale) (desk.note .staleDocumentCleared [("id", w.id), ("rev", rev)])
  | .error e =>
      if e.isNotFound then .putting true left (w.rebuilt stale) desk
      else .ended ⟨.error e, w.record, desk⟩

/-- How a recovery goes on once the stored document is out of the way. -/
def resume (left : Nat) (outgoing : Document) :
    Except StoreError (Option Document) × Desk → Dialogue Committed
  | (.error e, desk) => .done ⟨.error e, w.record, desk⟩
  | (.ok none, desk) => attempt w.id w.built w.record true left outgoing desk
  | (.ok (some stale), desk) => attempt w.id w.built w.record true left (w.rebuilt stale) desk

/-- What is left of a commit at a stage. -/
def dialogue : Stage → Dialogue Committed
  | .putting recovered left outgoing desk => attempt w.id w.built w.record recovered left outgoing desk
  | .fetching left outgoing desk => (clearStale w.id desk).bind (w.resume left outgoing)
  | .clearing left stale rev desk =>
      .ask (.delete w.id rev) fun
        | .ok _ => w.resume left stale
            (.ok (some stale), desk.note .staleDocumentCleared [("id", w.id), ("rev", rev)])
        | .error e =>
            w.resume left stale (if e.isNotFound then (.ok (some stale), desk) else (.error e, desk))
  | .ended committed => .done committed

theorem dialogue_putting (recovered : Bool) (left : Nat) (outgoing : Document) (desk : Desk) :
    w.dialogue (.putting recovered left outgoing desk) =
      .ask (.put outgoing) fun reply => w.dialogue (w.afterPut recovered left outgoing desk reply) := by
  rw [dialogue, attempt]
  congr 1
  funext reply
  cases reply with
  | ok rev => rfl
  | error e =>
      simp only [afterPut]
      split
      · cases left <;> rfl
      · rfl

theorem dialogue_fetching (left : Nat) (outgoing : Document) (desk : Desk) :
    w.dialogue (.fetching left outgoing desk) =
      .ask (.get w.id) fun reply => w.dialogue (w.afterGet left outgoing desk reply) := by
  rw [dialogue, clearStale, Dialogue.bind_ask]
  congr 1
  funext reply
  match reply with
  | .error e => rfl
  | .ok none => rfl
  | .ok (some stale) =>
      simp only [afterGet]
      cases Document.rev? stale with
      | none => rfl
      | some rev =>
          simp only [Dialogue.bind_ask, dialogue]
          congr 1
          funext reply
          cases reply with
          | ok _ => rfl
          | error e =>
              dsimp only
              split <;> rfl

theorem dialogue_clearing (left : Nat) (stale : Document) (rev : String) (desk : Desk) :
    w.dialogue (.clearing left stale rev desk) =
      .ask (.delete w.id rev) fun reply => w.dialogue (w.afterDelete left stale rev desk reply) := by
  rw [dialogue]
  congr 1
  funext reply
  cases reply with
  | ok _ => rfl
  | error e =>
      simp only [afterDelete]
      split <;> rfl

/-- The stage after the next call. -/
def step (client : Client σ) : Stage → σ → Stage × σ
  | .putting recovered left outgoing desk, state =>
      let (reply, state) := client.answer state (.put outgoing)
      (w.afterPut recovered left outgoing desk reply, state)
  | .fetching left outgoing desk, state =>
      let (reply, state) := client.answer state (.get w.id)
      (w.afterGet left outgoing desk reply, state)
  | .clearing left stale rev desk, state =>
      let (reply, state) := client.answer state (.delete w.id rev)
      (w.afterDelete left stale rev desk reply, state)
  | .ended committed, state => (.ended committed, state)

theorem step_dialogue (client : Client σ) (stage : Stage) (state : σ) :
    (w.dialogue stage).step client state =
      (w.dialogue (w.step client stage state).1, (w.step client stage state).2) := by
  cases stage with
  | putting recovered left outgoing desk => rw [dialogue_putting]; rfl
  | fetching left outgoing desk => rw [dialogue_fetching]; rfl
  | clearing left stale rev desk => rw [dialogue_clearing]; rfl
  | ended committed => rfl

theorem dialogue_eq_done {stage : Stage} {committed : Committed} (h : w.dialogue stage = .done committed) :
    stage = .ended committed := by
  cases stage with
  | putting recovered left outgoing desk => rw [dialogue_putting] at h; cases h
  | fetching left outgoing desk => rw [dialogue_fetching] at h; cases h
  | clearing left stale rev desk => rw [dialogue_clearing] at h; cases h
  | ended committed => exact congrArg Stage.ended (Dialogue.done.inj h)

/-- What every stage hands on to the next holds at the end of a commit. -/
theorem run_induction {client : Client σ} {I : Stage → σ → Prop}
    (hs : ∀ stage state, I stage state → I (w.step client stage state).1 (w.step client stage state).2)
    {stage : Stage} {state : σ} (h : I stage state) :
    I (.ended ((w.dialogue stage).run client state).1) ((w.dialogue stage).run client state).2 := by
  have hd := Dialogue.run_induction client
    (I := fun d state => ∃ stage, d = w.dialogue stage ∧ I stage state)
    (by
      rintro d state ⟨stage, rfl, hi⟩
      rw [step_dialogue]
      exact ⟨_, rfl, hs stage state hi⟩)
    ⟨stage, rfl, h⟩
  obtain ⟨last, hl, hi⟩ := hd
  rw [w.dialogue_eq_done hl.symm] at hi
  exact hi

/-! ### What a commit leaves -/

def deskOf : Stage → Desk
  | .putting _ _ _ desk | .fetching _ _ desk | .clearing _ _ _ desk => desk
  | .ended committed => committed.desk

/-- A commit builds no decoder once it has its document, keeps its record when it
fails, and takes away the marks and no more when it ends well. -/
structure Faithful (cache : DecoderCache) (stage : Stage) : Prop where
  cache : (deskOf stage).cache = cache
  record : ∀ committed, stage = .ended committed → match committed.result with
    | .ok .skipped => False
    | .ok (.written _) => committed.record = w.record.markClean
    | .error _ => committed.record = w.record

variable {w} {cache : DecoderCache}

theorem Faithful.of_putting {recovered : Bool} {left : Nat} {outgoing : Document} {desk : Desk}
    (h : desk.cache = cache) : w.Faithful cache (.putting recovered left outgoing desk) :=
  ⟨h, fun committed he => by cases he⟩

theorem Faithful.of_error {e : StoreError} {desk : Desk} (h : desk.cache = cache) :
    w.Faithful cache (.ended ⟨.error e, w.record, desk⟩) :=
  ⟨h, fun committed he => by cases he; rfl⟩

theorem faithful_afterPut (recovered : Bool) (left : Nat) (outgoing : Document) {desk : Desk}
    (h : desk.cache = cache) (reply : Except StoreError String) :
    w.Faithful cache (w.afterPut recovered left outgoing desk reply) := by
  cases reply with
  | ok rev =>
      refine ⟨?_, fun committed he => by cases he; rfl⟩
      cases recovered <;> exact h
  | error e =>
      unfold afterPut
      dsimp only
      split
      · cases left with
        | zero => exact .of_error h
        | succ left => exact ⟨h, fun committed he => by cases he⟩
      · exact .of_error h

theorem faithful_afterGet (left : Nat) (outgoing : Document) {desk : Desk} (h : desk.cache = cache)
    (reply : Except StoreError (Option Document)) :
    w.Faithful cache (w.afterGet left outgoing desk reply) := by
  match reply with
  | .error e => exact .of_error h
  | .ok none => exact .of_putting h
  | .ok (some stale) =>
      unfold afterGet
      dsimp only
      split
      · exact .of_error h
      · exact ⟨h, fun committed he => by cases he⟩

theorem faithful_afterDelete (left : Nat) (stale : Document) (rev : String) {desk : Desk}
    (h : desk.cache = cache) (reply : Except StoreError String) :
    w.Faithful cache (w.afterDelete left stale rev desk reply) := by
  cases reply with
  | ok _ => exact .of_putting h
  | error e =>
      unfold afterDelete
      dsimp only
      split
      · exact .of_putting h
      · exact .of_error h

theorem faithful_step (client : Client σ) (stage : Stage) (state : σ) (h : w.Faithful cache stage) :
    w.Faithful cache (w.step client stage state).1 := by
  cases stage with
  | putting recovered left outgoing desk => exact faithful_afterPut recovered left outgoing h.cache _
  | fetching left outgoing desk => exact faithful_afterGet left outgoing h.cache _
  | clearing left stale rev desk => exact faithful_afterDelete left stale rev h.cache _
  | ended committed => exact h

theorem faithful_run (client : Client σ) (retries : Nat) (outgoing : Document) (desk : Desk) (state : σ) :
    w.Faithful desk.cache (.ended ((w.dialogue (.putting false retries outgoing desk)).run client state).1) :=
  w.run_induction (I := fun stage _ => w.Faithful desk.cache stage)
    (fun stage state h => faithful_step client stage state h) (.of_putting rfl)

end Writer

/-- A commit of a record that needs it, and whose document can be built, starts by
putting that document. -/
theorem commit_eq_dialogue {record : Record} {id : String} {desk left : Desk} {built : Document} (retries : Nat)
    (hw : record.needsWrite = true) (hb : document id record desk = (.ok built, left)) :
    record.commit id retries desk =
      (Writer.mk id built record).dialogue (.putting false retries built left) := by
  simp only [Record.commit, hw, hb, Bool.not_true]
  rfl

/-- How a commit sets out: over at once, or with its document to put. -/
inductive Outset (record : Record) (id : String) (retries : Nat) (desk : Desk) : Dialogue Committed → Prop where
  | skipped : record.needsWrite = false → Outset record id retries desk
      (.done ⟨.ok .skipped, record, (desk.tick .putsSkipped).note .putSkipped [("id", id)]⟩)
  | unbuilt {e : ValueError} {left : Desk} : record.needsWrite = true →
      document id record desk = (.error e, left) →
      Outset record id retries desk (.done ⟨.error (.value e), record, left⟩)
  | started {built : Document} {left : Desk} : record.needsWrite = true →
      document id record desk = (.ok built, left) →
      Outset record id retries desk
        ((Writer.mk id built record).dialogue (.putting false retries built left))

theorem outset_commit (record : Record) (id : String) (retries : Nat) (desk : Desk) :
    Outset record id retries desk (record.commit id retries desk) := by
  cases hw : record.needsWrite with
  | false =>
      have hc : record.commit id retries desk =
          .done ⟨.ok .skipped, record, (desk.tick .putsSkipped).note .putSkipped [("id", id)]⟩ := by
        simp only [Record.commit, hw]
        rfl
      rw [hc]
      exact .skipped hw
  | true =>
      cases hd : document id record desk with
      | mk result left =>
          cases result with
          | ok built =>
              rw [commit_eq_dialogue retries hw hd]
              exact .started hw hd
          | error e =>
              have hc : record.commit id retries desk = .done ⟨.error (.value e), record, left⟩ := by
                simp only [Record.commit, hw, hd]
                rfl
              rw [hc]
              exact .unbuilt hw hd

/-- A commit has a document to put, or it is over before it makes a call. -/
theorem commit_cases (record : Record) (id : String) (retries : Nat) (desk : Desk) :
    (record.needsWrite = true ∧
        ∃ built, document id record desk = (.ok built, (document id record desk).2)) ∨
      ∃ committed, record.commit id retries desk = .done committed ∧
        ∀ rev, committed.result ≠ .ok (.written rev) := by
  have ho := outset_commit record id retries desk
  generalize record.commit id retries desk = d at ho ⊢
  cases ho with
  | skipped _ => exact .inr ⟨_, rfl, fun rev h => by cases h⟩
  | unbuilt _ _ => exact .inr ⟨_, rfl, fun rev h => by cases h⟩
  | started hw hd => exact .inl ⟨hw, _, by rw [hd]⟩

end Docket.Commit
