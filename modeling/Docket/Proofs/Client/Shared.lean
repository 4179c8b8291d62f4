import Docket.Database
import Docket.Proofs.Client.Exchange

/-!
# A database shared with others

Between the calls of a conversation others may call the same database. What they
call before each call of the conversation is given as a list for each of its calls
in turn; once the lists are at their end, nobody else calls.
-/
namespace Docket

structure Shared where
  database : Database
  others : List (List Call)

namespace Shared

/-- Lets the others make the calls that come before the next call. -/
def settled (s : Shared) : Database :=
  (s.others.headD []).foldl (fun db call => (db.answer call).2) s.database

def answer (s : Shared) (call : Call) : call.Reply × Shared :=
  let (reply, db) := s.settled.answer call
  (reply, ⟨db, s.others.tail⟩)

def client : Client Shared := ⟨answer⟩

/-- A database answers with a conflict only where something is to be written. -/
theorem kind_of_conflict {db : Database} {call : Call} {e : StoreError}
    (he : (db.answer call).1 = .error e) (hc : e.isConflict = true) :
    call.kind = .put ∨ call.kind = .delete := by
  have hpresent : ∀ {α : Type} {value : α}, db.whenPresent value ≠ .error e := by
    intro α value h
    unfold Database.whenPresent at h
    split at h
    · cases h
    · cases h
      cases hc
  cases call with
  | put document => exact .inl rfl
  | delete id rev => exact .inr rfl
  | get id => exact absurd he hpresent
  | scan limit => exact absurd he hpresent
  | create =>
      simp only [Database.answer] at he
      split at he
      · cases he
        cases hc
      · cases he
  | drop =>
      simp only [Database.answer] at he
      split at he
      · cases he
      · cases he
        cases hc
  | _ => cases he

theorem kind_of_isConflict {α : Type} {d : Dialogue α} {s : Shared} {x : Exchange}
    (hm : x ∈ d.exchanges client s) (hc : x.isConflict = true) :
    x.call.kind = .put ∨ x.call.kind = .delete := by
  induction d generalizing s with
  | done result => exact absurd hm List.not_mem_nil
  | ask call resume ih =>
      rw [Dialogue.exchanges_ask] at hm
      rcases List.mem_cons.1 hm with rfl | hm
      · cases hr : (client.answer s call).1 with
        | ok value => simp only [Exchange.isConflict, hr, Bool.false_eq_true] at hc
        | error e =>
            simp only [Exchange.isConflict, hr] at hc
            exact kind_of_conflict hr hc
      · exact ih _ hm

end Shared

end Docket
