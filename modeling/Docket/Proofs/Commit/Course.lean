import Docket.Proofs.Client.Exchange
import Docket.Proofs.Commit.Stage

/-!
# The courses that a commit can take

Each call of a commit has a few outcomes, decided by its answer. A course is a
whole commit put together from them: what was called and answered, and what came
of it. Every run of a commit, whoever answers, is a course; so what all courses
have in common is shown by induction on courses, and nothing about the client is
needed for it.
-/
namespace Docket.Commit

namespace Writer

variable {σ : Type} (w : Writer)

/-- The desk when a put has been let through. -/
def written (recovered : Bool) (desk : Desk) (rev : String) : Desk :=
  let desk := desk.tick .writes
  let desk := if recovered then desk.tick .conflictsRecovered else desk
  desk.note .documentWritten [("id", w.id), ("rev", rev)]

/-- The desk when a put has met a conflict and there is a recovery to spend. -/
def met (desk : Desk) : Desk :=
  (desk.tick .conflicts).note .writeConflict [("id", w.id)]

/-- The desk when a put has met a conflict and there is none. -/
def defeated (desk : Desk) : Desk :=
  (desk.tick .conflicts).note .conflictUnrecovered [("id", w.id)]

/-- The desk when the stored document has been deleted. -/
def cleared (desk : Desk) (rev : String) : Desk :=
  desk.note .staleDocumentCleared [("id", w.id), ("rev", rev)]

/-- The outcomes of a put, by the number of recoveries left and by the answer. -/
inductive AfterPut (recovered : Bool) (outgoing : Document) (desk : Desk) :
    Nat → Except StoreError String → Stage → Prop where
  | written {left : Nat} (rev : String) : AfterPut recovered outgoing desk left (.ok rev)
      (.ended ⟨.ok (.written rev), w.record.markClean, w.written recovered desk rev⟩)
  | failed {left : Nat} {e : StoreError} : e.isConflict = false →
      AfterPut recovered outgoing desk left (.error e) (.ended ⟨.error e, w.record, desk⟩)
  | exhausted {e : StoreError} : e.isConflict = true →
      AfterPut recovered outgoing desk 0 (.error e) (.ended ⟨.error e, w.record, w.defeated desk⟩)
  | recovers {left : Nat} {e : StoreError} : e.isConflict = true →
      AfterPut recovered outgoing desk (left + 1) (.error e) (.fetching left outgoing (w.met desk))

theorem afterPut_outcome (recovered : Bool) (left : Nat) (outgoing : Document) (desk : Desk)
    (reply : Except StoreError String) :
    w.AfterPut recovered outgoing desk left reply (w.afterPut recovered left outgoing desk reply) := by
  cases reply with
  | ok rev => exact .written rev
  | error e =>
      cases hc : e.isConflict with
      | true =>
          cases left with
          | zero =>
              simp only [afterPut, hc, if_true]
              exact .exhausted hc
          | succ left =>
              simp only [afterPut, hc, if_true]
              exact .recovers hc
      | false =>
          simp only [afterPut, hc, Bool.false_eq_true, if_false]
          exact .failed hc

/-- The outcomes of fetching the document that a put has met. -/
inductive AfterGet (left : Nat) (outgoing : Document) (desk : Desk) :
    Except StoreError (Option Document) → Stage → Prop where
  | failed (e : StoreError) :
      AfterGet left outgoing desk (.error e) (.ended ⟨.error e, w.record, desk⟩)
  | absent : AfterGet left outgoing desk (.ok none) (.putting true left outgoing desk)
  | unnamed {stale : Document} : stale.rev? = none →
      AfterGet left outgoing desk (.ok (some stale))
        (.ended ⟨.error (.client (.noRevision w.id)), w.record, desk⟩)
  | found {stale : Document} {rev : String} : stale.rev? = some rev →
      AfterGet left outgoing desk (.ok (some stale)) (.clearing left stale rev desk)

theorem afterGet_outcome (left : Nat) (outgoing : Document) (desk : Desk)
    (reply : Except StoreError (Option Document)) :
    w.AfterGet left outgoing desk reply (w.afterGet left outgoing desk reply) := by
  match reply with
  | .error e => exact .failed e
  | .ok none => exact .absent
  | .ok (some stale) =>
      cases hr : Document.rev? stale with
      | none =>
          simp only [afterGet, hr]
          exact .unnamed hr
      | some rev =>
          simp only [afterGet, hr]
          exact .found hr

/-- The outcomes of deleting what was fetched. -/
inductive AfterDelete (left : Nat) (stale : Document) (rev : String) (desk : Desk) :
    Except StoreError String → Stage → Prop where
  | failed {e : StoreError} : e.isNotFound = false →
      AfterDelete left stale rev desk (.error e) (.ended ⟨.error e, w.record, desk⟩)
  | gone {e : StoreError} : e.isNotFound = true →
      AfterDelete left stale rev desk (.error e) (.putting true left (w.rebuilt stale) desk)
  | cleared (deleted : String) : AfterDelete left stale rev desk (.ok deleted)
      (.putting true left (w.rebuilt stale) (w.cleared desk rev))

theorem afterDelete_outcome (left : Nat) (stale : Document) (rev : String) (desk : Desk)
    (reply : Except StoreError String) :
    w.AfterDelete left stale rev desk reply (w.afterDelete left stale rev desk reply) := by
  cases reply with
  | ok deleted => exact .cleared deleted
  | error e =>
      cases hn : e.isNotFound with
      | true =>
          simp only [afterDelete, hn, if_true]
          exact .gone hn
      | false =>
          simp only [afterDelete, hn, Bool.false_eq_true, if_false]
          exact .failed hn

/-- From a put with a number of recoveries left to the end: the exchanges, and what
the commit comes to. -/
inductive Course : Bool → Nat → Document → Desk → List Exchange → Committed → Prop where
  | written {recovered : Bool} {left : Nat} {outgoing : Document} {desk : Desk} (rev : String) :
      Course recovered left outgoing desk [⟨.put outgoing, .ok rev⟩]
        ⟨.ok (.written rev), w.record.markClean, w.written recovered desk rev⟩
  | failed {recovered : Bool} {left : Nat} {outgoing : Document} {desk : Desk} {e : StoreError} :
      e.isConflict = false →
      Course recovered left outgoing desk [⟨.put outgoing, .error e⟩] ⟨.error e, w.record, desk⟩
  | exhausted {recovered : Bool} {outgoing : Document} {desk : Desk} {e : StoreError} :
      e.isConflict = true →
      Course recovered 0 outgoing desk [⟨.put outgoing, .error e⟩] ⟨.error e, w.record, w.defeated desk⟩
  | unfetched {recovered : Bool} {left : Nat} {outgoing : Document} {desk : Desk} {e : StoreError}
      (fault : StoreError) : e.isConflict = true →
      Course recovered (left + 1) outgoing desk [⟨.put outgoing, .error e⟩, ⟨.get w.id, .error fault⟩]
        ⟨.error fault, w.record, w.met desk⟩
  | unnamed {recovered : Bool} {left : Nat} {outgoing stale : Document} {desk : Desk} {e : StoreError} :
      e.isConflict = true → stale.rev? = none →
      Course recovered (left + 1) outgoing desk [⟨.put outgoing, .error e⟩, ⟨.get w.id, .ok (some stale)⟩]
        ⟨.error (.client (.noRevision w.id)), w.record, w.met desk⟩
  | undeleted {recovered : Bool} {left : Nat} {outgoing stale : Document} {desk : Desk}
      {e fault : StoreError} {rev : String} :
      e.isConflict = true → stale.rev? = some rev → fault.isNotFound = false →
      Course recovered (left + 1) outgoing desk
        [⟨.put outgoing, .error e⟩, ⟨.get w.id, .ok (some stale)⟩, ⟨.delete w.id rev, .error fault⟩]
        ⟨.error fault, w.record, w.met desk⟩
  | absent {recovered : Bool} {left : Nat} {outgoing : Document} {desk : Desk} {e : StoreError}
      {xs : List Exchange} {committed : Committed} : e.isConflict = true →
      Course true left outgoing (w.met desk) xs committed →
      Course recovered (left + 1) outgoing desk
        (⟨.put outgoing, .error e⟩ :: ⟨.get w.id, .ok none⟩ :: xs) committed
  | gone {recovered : Bool} {left : Nat} {outgoing stale : Document} {desk : Desk} {e fault : StoreError}
      {rev : String} {xs : List Exchange} {committed : Committed} :
      e.isConflict = true → stale.rev? = some rev → fault.isNotFound = true →
      Course true left (w.rebuilt stale) (w.met desk) xs committed →
      Course recovered (left + 1) outgoing desk (⟨.put outgoing, .error e⟩ ::
        ⟨.get w.id, .ok (some stale)⟩ :: ⟨.delete w.id rev, .error fault⟩ :: xs) committed
  | cleared {recovered : Bool} {left : Nat} {outgoing stale : Document} {desk : Desk} {e : StoreError}
      {rev deleted : String} {xs : List Exchange} {committed : Committed} :
      e.isConflict = true → stale.rev? = some rev →
      Course true left (w.rebuilt stale) (w.cleared (w.met desk) rev) xs committed →
      Course recovered (left + 1) outgoing desk (⟨.put outgoing, .error e⟩ ::
        ⟨.get w.id, .ok (some stale)⟩ :: ⟨.delete w.id rev, .ok deleted⟩ :: xs) committed

/-- A put that met a conflict goes on to a course, if every put with fewer
recoveries left does. -/
theorem course_fetching (client : Client σ) {left : Nat}
    (ih : ∀ outgoing desk state, let d := w.dialogue (.putting true left outgoing desk)
      w.Course true left outgoing desk (d.exchanges client state) (d.run client state).1)
    {e : StoreError} (hc : e.isConflict = true) (recovered : Bool) (outgoing : Document) (desk : Desk)
    (state : σ) :
    let d := w.dialogue (.fetching left outgoing (w.met desk))
    w.Course recovered (left + 1) outgoing desk (⟨.put outgoing, .error e⟩ :: d.exchanges client state)
      (d.run client state).1 := by
  rw [w.dialogue_fetching]
  simp only [Dialogue.exchanges_ask, Dialogue.run_ask]
  have hget := w.afterGet_outcome left outgoing (w.met desk) (client.answer state (.get w.id)).1
  generalize client.answer state (.get w.id) = answered at hget ⊢
  obtain ⟨reply, state⟩ := answered
  generalize w.afterGet left outgoing (w.met desk) reply = next at hget ⊢
  cases hget with
  | failed fault => exact .unfetched fault hc
  | absent => exact .absent hc (ih _ _ _)
  | unnamed hr => exact .unnamed hc hr
  | @found stale rev hr =>
      rw [w.dialogue_clearing]
      simp only [Dialogue.exchanges_ask, Dialogue.run_ask]
      have hdelete := w.afterDelete_outcome left stale rev (w.met desk)
        (client.answer state (.delete w.id rev)).1
      generalize client.answer state (.delete w.id rev) = answered at hdelete ⊢
      obtain ⟨reply, state⟩ := answered
      generalize w.afterDelete left stale rev (w.met desk) reply = next at hdelete ⊢
      cases hdelete with
      | failed hn => exact .undeleted hc hr hn
      | gone hn => exact .gone hc hr hn (ih _ _ _)
      | cleared deleted => exact .cleared hc hr (ih _ _ _)

/-- Whoever answers, what is left of a commit takes a course. -/
theorem course_putting (client : Client σ) (recovered : Bool) (left : Nat) (outgoing : Document)
    (desk : Desk) (state : σ) :
    let d := w.dialogue (.putting recovered left outgoing desk)
    w.Course recovered left outgoing desk (d.exchanges client state) (d.run client state).1 := by
  induction left using Nat.strongRecOn generalizing recovered outgoing desk state with
  | ind left ih =>
      rw [w.dialogue_putting]
      simp only [Dialogue.exchanges_ask, Dialogue.run_ask]
      have hput := w.afterPut_outcome recovered left outgoing desk (client.answer state (.put outgoing)).1
      generalize client.answer state (.put outgoing) = answered at hput ⊢
      obtain ⟨reply, state⟩ := answered
      generalize w.afterPut recovered left outgoing desk reply = next at hput ⊢
      cases hput with
      | written rev => exact .written rev
      | failed hc => exact .failed hc
      | exhausted hc => exact .exhausted hc
      | @recovers left _ hc =>
          exact w.course_fetching client (ih left (Nat.lt_succ_self left) true) hc recovered outgoing desk state

end Writer

end Docket.Commit
