import Docket.Proofs.Client.Exchange

/-!
# Rules that conversations abide by

A rule says which calls may follow, by what the last call has fetched. A
conversation abides by it if it makes no other calls, whatever it is answered.
-/
namespace Docket

abbrev Rule : Type := Option (String × Document) → Call → Prop

namespace Rule

/-- The database is not dropped. -/
def sparing : Rule := fun _ call => call.kind ≠ .drop

/-- The database is not dropped, and a document is only deleted at the revision that it
was just fetched with. -/
def careful : Rule
  | fetched, .delete id rev => ∃ document, fetched = some (id, document) ∧ document.rev? = some rev
  | _, .drop => False
  | _, _ => True

theorem sparing_of_careful {fetched : Option (String × Document)} {call : Call} (h : careful fetched call) :
    sparing fetched call := by
  cases call with
  | drop => exact h.elim
  | _ => exact fun hk => by cases hk

end Rule

namespace Dialogue

variable {α β : Type}

/-- Whether all calls still to be made are allowed, given what the last one has
fetched. -/
def Abides (rule : Rule) : Dialogue α → Option (String × Document) → Prop
  | done _, _ => True
  | ask call resume, fetched =>
      rule fetched call ∧ ∀ reply, (resume reply).Abides rule (Exchange.fetched? ⟨call, reply⟩)

variable {rule stricter : Rule} {d : Dialogue α} {fetched : Option (String × Document)}

theorem Abides.mono (hr : ∀ {fetched call}, stricter fetched call → rule fetched call)
    (h : d.Abides stricter fetched) : d.Abides rule fetched := by
  induction d generalizing fetched with
  | done result => exact trivial
  | ask call resume ih => exact ⟨hr h.1, fun reply => ih reply (h.2 reply)⟩

theorem Abides.bind {next : α → Dialogue β} (h : d.Abides rule fetched)
    (hn : ∀ result fetched, (next result).Abides rule fetched) : (d.bind next).Abides rule fetched := by
  induction d generalizing fetched with
  | done result => exact hn result fetched
  | ask call resume ih => exact ⟨h.1, fun reply => ih reply (h.2 reply)⟩

end Dialogue

end Docket
