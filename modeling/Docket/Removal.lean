import Docket.Client.Dialogue
import Docket.Decoder

/-!
# Removing a document

A removal fetches the document and deletes it at the revision it was fetched with.
A document that is not there, or not there any more, is no failure.
-/
namespace Docket

/-- What a removal leaves: whether a document was deleted, and the desk. -/
structure Removed where
  result : Except StoreError Bool
  desk : Desk

/-- Removes the document under an identifier. The deletion counts when the
database answers it with a revision. -/
def remove (id : String) (desk : Desk) : Dialogue Removed :=
  .ask (.get id) fun
    | .error e => .done ⟨.error e, desk⟩
    | .ok none => .done ⟨.ok false, desk.note .deleteMissing [("id", id)]⟩
    | .ok (some current) =>
        match Document.rev? current with
        | none => .done ⟨.error (.client (.noRevision id)), desk⟩
        | some rev =>
            .ask (.delete id rev) fun
              | .ok acknowledged =>
                  .done ⟨.ok (!String.isEmpty acknowledged),
                    (desk.tick .deletes).note .documentDeleted [("id", id), ("rev", rev)]⟩
              | .error e =>
                  if e.isNotFound then .done ⟨.ok false, desk.note .deleteMissing [("id", id)]⟩
                  else .done ⟨.error e, desk⟩

end Docket
