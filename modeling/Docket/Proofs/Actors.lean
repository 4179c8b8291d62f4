import Docket.Proofs.Client.Rules
import Docket.Proofs.Client.Turns
import Docket.Proofs.Commit.Course
import Docket.Database
import Docket.Removal

/-!
# Who shares a database

Commits, removals and single calls may take turns at one database. A commit or a
removal is a coordinator: it deletes a document right after it has fetched it, at
the revision that it was fetched with.
-/
namespace Docket

/-- Somebody who shares a database with others. -/
inductive Actor where
  | commits (record : Record) (id : String) (retries : Nat) (desk : Desk)
  | removes (id : String) (desk : Desk)
  | calls (call : Call)

namespace Actor

/-- Whether the actor fetches what it deletes. -/
def coordinates : Actor → Bool
  | commits .. => true
  | removes .. => true
  | calls _ => false

def dialogue : Actor → Dialogue Unit
  | commits record id retries desk => (record.commit id retries desk).bind fun _ => .done ()
  | removes id desk => (remove id desk).bind fun _ => .done ()
  | calls call => .ask call fun _ => .done ()

/-- The actors before their first turns. -/
def gather {ι : Type} (actor : ι → Actor) (db : Database) : Parties ι Database Unit :=
  ⟨fun i => (actor i).dialogue, db⟩

end Actor

/-! ### The calls of coordinators -/

/-- A recovery deletes the document that it has just fetched. -/
theorem Commit.Writer.abides_fetching (w : Commit.Writer) {left : Nat}
    (ih : ∀ outgoing desk fetched, (w.dialogue (.putting true left outgoing desk)).Abides Rule.careful fetched)
    (outgoing : Document) (desk : Desk) (fetched : Option (String × Document)) :
    (w.dialogue (.fetching left outgoing desk)).Abides Rule.careful fetched := by
  rw [w.dialogue_fetching]
  refine ⟨trivial, fun reply => ?_⟩
  change (w.dialogue (w.afterGet left outgoing desk reply)).Abides Rule.careful _
  have hget := w.afterGet_outcome left outgoing desk reply
  generalize w.afterGet left outgoing desk reply = next at hget ⊢
  cases hget with
  | failed e => exact trivial
  | absent => exact ih outgoing desk none
  | unnamed hr => exact trivial
  | @found stale rev hr =>
      rw [w.dialogue_clearing]
      refine ⟨⟨stale, rfl, hr⟩, fun reply => ?_⟩
      change (w.dialogue (w.afterDelete left stale rev desk reply)).Abides Rule.careful _
      have hdelete := w.afterDelete_outcome left stale rev desk reply
      generalize w.afterDelete left stale rev desk reply = next at hdelete ⊢
      cases hdelete with
      | failed hn => exact trivial
      | gone hn => exact ih (w.rebuilt stale) desk none
      | cleared deleted => exact ih (w.rebuilt stale) (w.cleared desk rev) none

theorem Commit.Writer.abides_putting (w : Commit.Writer) (recovered : Bool) (left : Nat) (outgoing : Document)
    (desk : Desk) (fetched : Option (String × Document)) :
    (w.dialogue (.putting recovered left outgoing desk)).Abides Rule.careful fetched := by
  induction left using Nat.strongRecOn generalizing recovered outgoing desk fetched with
  | ind left ih =>
      rw [w.dialogue_putting]
      refine ⟨trivial, fun reply => ?_⟩
      change (w.dialogue (w.afterPut recovered left outgoing desk reply)).Abides Rule.careful _
      have hput := w.afterPut_outcome recovered left outgoing desk reply
      generalize w.afterPut recovered left outgoing desk reply = next at hput ⊢
      cases hput with
      | written rev => exact trivial
      | failed hc => exact trivial
      | exhausted hc => exact trivial
      | @recovers left _ hc => exact w.abides_fetching (ih left (Nat.lt_succ_self left) true) outgoing (w.met desk) none

theorem Record.abides_commit (record : Record) (id : String) (retries : Nat) (desk : Desk)
    (fetched : Option (String × Document)) : (record.commit id retries desk).Abides Rule.careful fetched := by
  have ho := Commit.outset_commit record id retries desk
  generalize record.commit id retries desk = d at ho ⊢
  cases ho with
  | skipped hw => exact trivial
  | unbuilt hw hd => exact trivial
  | started hw hd => exact Commit.Writer.abides_putting _ false retries _ _ fetched

theorem abides_remove (id : String) (desk : Desk) (fetched : Option (String × Document)) :
    (remove id desk).Abides Rule.careful fetched := by
  refine ⟨trivial, fun reply => ?_⟩
  match reply with
  | .error e => exact trivial
  | .ok none => exact trivial
  | .ok (some current) =>
      dsimp only
      cases hr : Document.rev? current with
      | none => exact trivial
      | some rev =>
          refine ⟨⟨current, rfl, hr⟩, fun reply => ?_⟩
          cases reply with
          | ok acknowledged => exact trivial
          | error e =>
              dsimp only
              split <;> exact trivial

namespace Actor

variable {actor : Actor}

theorem careful_dialogue (hc : actor.coordinates = true) (fetched : Option (String × Document)) :
    actor.dialogue.Abides Rule.careful fetched := by
  cases actor with
  | commits record id retries desk => exact (record.abides_commit id retries desk fetched).bind fun _ _ => trivial
  | removes id desk => exact (abides_remove id desk fetched).bind fun _ _ => trivial
  | calls call => cases hc

theorem sparing_dialogue (hk : ∀ call, actor = .calls call → call.kind ≠ .drop)
    (fetched : Option (String × Document)) : actor.dialogue.Abides Rule.sparing fetched := by
  cases hc : actor.coordinates with
  | true => exact (careful_dialogue hc fetched).mono Rule.sparing_of_careful
  | false =>
      cases actor with
      | calls call => exact ⟨hk call rfl, fun reply => trivial⟩
      | _ => cases hc

end Actor

end Docket
