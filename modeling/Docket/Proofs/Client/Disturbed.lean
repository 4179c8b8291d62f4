import Docket.Client.Script
import Docket.Proofs.Database.Writes

/-!
# A database that is disturbed

In front of the database stands a list of disturbances, one for each call in
turn: the call is passed on, or answered with any error and not passed on, or a
deletion is carried out and then reported as not found. Once the list is at its
end every call is passed on.
-/
namespace Docket

inductive Disturbance where
  | pass
  | fail (error : StoreError)
  | vanish

structure Disturbed where
  database : Database
  script : List Disturbance

namespace Disturbed

/-- Answers a call under a disturbance. -/
def disturb (db : Database) (call : Call) : Disturbance → call.Reply × Database
  | .pass => db.answer call
  | .fail e => (.error e, db)
  | .vanish => Scripted.spoiled db .vanish call

def answer (s : Disturbed) (call : Call) : call.Reply × Disturbed :=
  let (reply, db) := disturb s.database call (s.script.headD .pass)
  (reply, ⟨db, s.script.tail⟩)

def client : Client Disturbed := ⟨answer⟩

/-- Nothing is left to disturb a conversation. -/
theorem run_quiet {α : Type} (d : Dialogue α) (db : Database) :
    d.run client ⟨db, []⟩ = ((d.run Database.client db).1, ⟨(d.run Database.client db).2, []⟩) := by
  induction d generalizing db with
  | done result => rfl
  | ask call resume ih => exact ih _ _

theorem calls_quiet {α : Type} (d : Dialogue α) (db : Database) :
    d.calls client ⟨db, []⟩ = d.calls Database.client db := by
  induction d generalizing db with
  | done result => rfl
  | ask call resume ih => exact congrArg (call :: ·) (ih _ _)

variable {db : Database} {id rev : String} {document : Document}

/-- A get fails, or it is answered with what is live. -/
theorem disturb_get (hp : db.present = true) (id : String) (d : Disturbance) :
    (∃ e, disturb db (.get id) d = (.error e, db)) ∨ disturb db (.get id) d = (.ok (db.live? id), db) := by
  cases d with
  | pass => exact .inr (Database.answer_get hp)
  | fail e => exact .inl ⟨e, rfl⟩
  | vanish => exact .inr (Database.answer_get hp)

/-- A put without revision fails, or nothing is live and it writes its document. -/
theorem disturb_put (hp : db.present = true) (hi : document.id? = some id) (hr : document.rev? = none)
    (d : Disturbance) :
    (∃ e, disturb db (.put document) d = (.error e, db)) ∨
      db.live? id = none ∧ disturb db (.put document) d =
        (.ok (db.nextRevision id (some document)), db.written id (some document)) := by
  have ha : (∃ e, db.put document = (.error e, db)) ∨ db.live? id = none ∧
      db.put document = (.ok (db.nextRevision id (some document)), db.written id (some document)) := by
    cases hl : db.live? id with
    | none => exact .inr ⟨rfl, Database.put_of_not_live hp hi hr hl⟩
    | some stale => exact .inl ⟨_, Database.put_of_live hp hi hr hl⟩
  cases d with
  | pass => exact ha
  | fail e => exact .inl ⟨e, rfl⟩
  | vanish => exact ha

/-- A deletion fails and changes nothing, or it ends the live document, whether or
not it is reported. -/
theorem disturb_delete (db : Database) (id rev : String) (d : Disturbance) :
    (∃ e, disturb db (.delete id rev) d = (.error e, db)) ∨
      (∃ stale, db.live? id = some stale) ∧
        (disturb db (.delete id rev) d).2 = db.written id none ∧
        ((disturb db (.delete id rev) d).1 = .ok (db.nextRevision id none) ∨
          (disturb db (.delete id rev) d).1 = .error (.notFound id)) := by
  have ha := db.delete_cases id rev
  cases d with
  | pass =>
      obtain ⟨e, he, -⟩ | ⟨entry, stale, hf, hd, -, hw⟩ := ha
      · exact .inl ⟨e, he⟩
      · exact .inr ⟨⟨stale, Database.live?_eq_some.2 ⟨entry, hf, hd⟩⟩, congrArg Prod.snd hw,
          .inl (congrArg Prod.fst hw)⟩
  | fail e => exact .inl ⟨e, rfl⟩
  | vanish =>
      obtain ⟨e, he, -⟩ | ⟨entry, stale, hf, hd, -, hw⟩ := ha
      · refine .inl ⟨e, ?_⟩
        simp only [disturb, Scripted.spoiled, Database.answer, he]
        rfl
      · refine .inr ⟨⟨stale, Database.live?_eq_some.2 ⟨entry, hf, hd⟩⟩, ?_, .inr ?_⟩ <;>
          simp only [disturb, Scripted.spoiled, Database.answer, hw]

end Disturbed

end Docket
