import Docket.Proofs.Cache
import Docket.Record.Assemble
import Mathlib.Data.List.Nodup

/-!
# What is counted and noted at a desk

Counters and noted events do not disturb each other, and storing values counts
nothing and notes nothing but the decoders that it has built.
-/
namespace Docket

/-- How often an event was noted. -/
def Journal.noted (j : Journal) (event : Event) : Nat :=
  j.entries.countP (·.event = event.name)

theorem Event.nodup_names : (Event.all.map Event.name).Nodup := by
  decide

theorem Event.mem_all (e : Event) : e ∈ Event.all := by
  cases e <;> decide

theorem Event.name_inj {a b : Event} (h : a.name = b.name) : a = b :=
  List.inj_on_of_nodup_map Event.nodup_names a.mem_all b.mem_all h

theorem Journal.noted_note_of_ne (j : Journal) {event other : Event} (h : event ≠ other)
    (fields : List (String × String)) : (j.note event fields).noted other = j.noted other := by
  have hn : event.name ≠ other.name := fun heq => h (Event.name_inj heq)
  have hadd : ∀ channel severity, (j.add ⟨channel, severity, event.name, fields⟩).noted other = j.noted other := by
    intro channel severity
    unfold add
    split
    · simp [noted, hn]
    · rfl
  unfold note
  split
  · exact hadd .errors .error
  · exact hadd .output _

/-- Failures are noted whatever the threshold is. -/
theorem Journal.noted_note_of_isFailure (j : Journal) {event : Event} (h : event.isFailure = true)
    (fields : List (String × String)) : (j.note event fields).noted event = j.noted event + 1 := by
  have hs : event.severity = .error := by simp only [Event.severity, h, if_true]
  have ht : j.threshold.level ≤ Severity.error.level := by cases j.threshold <;> decide
  simp [note, hs, logError, add, ht, noted]

namespace Desk

variable (desk : Desk)

@[simp] theorem tally_note (event : Event) (fields : List (String × String)) :
    (desk.note event fields).tally = desk.tally := rfl

@[simp] theorem tally_tick (counter : Counter) : (desk.tick counter).tally = desk.tally.tick counter := rfl

/-- Nothing was counted, and no event noted but that decoders were built. -/
structure OnlyBuilt (earlier later : Desk) : Prop where
  tally : later.tally = earlier.tally
  noted : ∀ event, event ≠ .decoderBuilt → later.journal.noted event = earlier.journal.noted event

variable {desk} {mid later : Desk}

theorem OnlyBuilt.refl (desk : Desk) : desk.OnlyBuilt desk :=
  ⟨rfl, fun _ _ => rfl⟩

theorem OnlyBuilt.trans (h : desk.OnlyBuilt mid) (hl : mid.OnlyBuilt later) : desk.OnlyBuilt later where
  tally := hl.tally.trans h.tally
  noted event he := (hl.noted event he).trans (h.noted event he)

theorem onlyBuilt_decoder (desk : Desk) (schema : Schema) : desk.OnlyBuilt (desk.decoder schema).2 := by
  unfold decoder
  dsimp only
  split
  · exact ⟨rfl, fun _ _ => rfl⟩
  · split
    · exact .refl desk
    · exact ⟨rfl, fun event he => Journal.noted_note_of_ne _ he.symm _⟩

end Desk

theorem Field.onlyBuilt_encode (name : String) (schema : Schema) (value : Datum) (desk : Desk) :
    desk.OnlyBuilt (Field.encode name schema value desk).2 := by
  rcases Field.desk_encode name schema value desk with h | h
  · rw [h]
    exact .refl desk
  · rw [h]
    exact Desk.onlyBuilt_decoder desk schema.carrier

theorem Field.onlyBuilt_decode (name : String) (position : Nat) (schema : Schema) (raw : Option Json)
    (record : Record) (desk : Desk) :
    desk.OnlyBuilt (Field.decode name position schema raw record desk).desk := by
  rcases Field.desk_decode name position schema raw record desk with h | h
  · rw [h]
    exact .refl desk
  · rw [h]
    exact Desk.onlyBuilt_decoder desk schema.carrier

theorem Record.onlyBuilt_readFields (document : Document) (record : Record) (desk : Desk) (names : List String) :
    desk.OnlyBuilt (Record.readFields document record desk names).desk := by
  induction names generalizing record desk with
  | nil => exact .refl desk
  | cons name rest ih =>
      rw [readFields]
      split
      · rename_i position field _ _
        have hd := Field.onlyBuilt_decode field.name position field.schema (document.find? field.name) record desk
        dsimp only
        split
        · exact hd
        · exact hd.trans (ih _ _)
      · exact .refl desk

/-- Assembling a record counts nothing. -/
theorem Record.tally_assemble (schema : RecordSchema) (document : Document) (names : List String) (desk : Desk) :
    (Record.assemble schema document names desk).desk.tally = desk.tally := by
  have hr := fun names => (onlyBuilt_readFields document (fresh schema) desk names).tally
  unfold assemble
  dsimp only
  split
  · exact hr _
  · split <;> exact hr _

end Docket
