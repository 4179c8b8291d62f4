import Docket.Database

/-!
# What a call does to a database

A call that writes replaces the one entry of its identifier by an entry of the
next generation; every other call leaves the database as it is. Revisions spell
their generation, so the revisions of different generations differ. Whatever was
called before, a live document names its identifier and the revision under which
it stands.
-/
namespace Docket

namespace Database

/-- How often an identifier was written. -/
def generation (db : Database) (id : String) : Nat :=
  ((db.entries.find? id).map Entry.generation).getD 0

/-- The revision of the next write under an identifier. -/
def nextRevision (db : Database) (id : String) (body : Option Document) : String :=
  revision (db.generation id + 1) id body

/-- The entry that the next write puts under an identifier. -/
def nextEntry (db : Database) (id : String) (body : Option Document) : Entry :=
  ⟨db.generation id + 1, db.nextRevision id body,
    body.map fun document => document.insert Document.revField (.string (db.nextRevision id body))⟩

/-- The database after a document, or a deletion, was written under an identifier. -/
def written (db : Database) (id : String) (body : Option Document) : Database :=
  { db with entries := db.entries.insert id (db.nextEntry id body) }

variable {db : Database} {id other rev : String} {body : Option Document} {document stale : Document}

@[simp] theorem present_written : (db.written id body).present = db.present := rfl

@[simp] theorem find?_written_self :
    (db.written id body).entries.find? id = some (db.nextEntry id body) :=
  Keyed.find?_insert_self _ _ _

theorem find?_written_of_ne (h : other ≠ id) :
    (db.written id body).entries.find? other = db.entries.find? other :=
  Keyed.find?_insert_of_ne _ h _

@[simp] theorem live?_written_self :
    (db.written id body).live? id =
      body.map fun document => document.insert Document.revField (.string (db.nextRevision id body)) := by
  rw [live?, find?_written_self]
  rfl

@[simp] theorem generation_written_self : (db.written id body).generation id = db.generation id + 1 := by
  rw [generation, find?_written_self]
  rfl

theorem live?_eq_some : db.live? id = some stale ↔
    ∃ entry, db.entries.find? id = some entry ∧ entry.document = some stale := by
  rw [live?, Option.bind_eq_some_iff]

theorem generation_of_find? {entry : Entry} (h : db.entries.find? id = some entry) :
    db.generation id = entry.generation := by
  rw [generation, h]
  rfl

/-! ### The calls -/

theorem answer_get (hp : db.present = true) : db.answer (.get id) = (.ok (db.live? id), db) := by
  simp only [answer, whenPresent, hp, if_true]

/-- A document that names no revision does not replace a live one. -/
theorem put_of_live (hp : db.present = true) (hi : document.id? = some id) (hr : document.rev? = none)
    (hl : db.live? id = some stale) : db.put document = (.error (.conflict id), db) := by
  obtain ⟨entry, hf, hd⟩ := live?_eq_some.1 hl
  simp [put, hi, hp, hf, hd, hr, nextGeneration?]

/-- A document that names no revision follows a deleted one, or none. -/
theorem put_of_not_live (hp : db.present = true) (hi : document.id? = some id)
    (hr : document.rev? = none) (hl : db.live? id = none) :
    db.put document = (.ok (db.nextRevision id (some document)), db.written id (some document)) := by
  cases hf : db.entries.find? id with
  | none => simp [put, hi, hp, hf, hr, nextGeneration?, written, nextEntry, nextRevision, generation]
  | some entry =>
      have hd : entry.document = none := by simpa [live?, hf] using hl
      simp [put, hi, hp, hf, hd, hr, nextGeneration?, written, nextEntry, nextRevision, generation]

/-- A write that is let through is of the next generation. -/
theorem nextGeneration?_eq_some {entry : Option Entry} {supplied : Option String} {n : Nat}
    (h : nextGeneration? entry supplied = some n) : n = (entry.map Entry.generation).getD 0 + 1 := by
  cases entry with
  | none =>
      simp only [nextGeneration?] at h
      split at h
      · cases h
      · exact (Option.some.inj h).symm
  | some entry =>
      simp only [nextGeneration?] at h
      repeat' split at h
      all_goals first | exact (Option.some.inj h).symm | cases h

/-- A put writes its document or changes nothing. -/
theorem put_cases (db : Database) (document : Document) :
    (∃ e, db.put document = (.error e, db)) ∨
      ∃ id, document.id? = some id ∧
        db.put document = (.ok (db.nextRevision id (some document)), db.written id (some document)) := by
  cases hi : document.id? with
  | none => exact .inl ⟨.client .noIdentifier, by simp [put, hi]⟩
  | some id =>
      by_cases hp : db.present = true
      · cases hg : nextGeneration? (db.entries.find? id) document.rev? with
        | none => exact .inl ⟨.conflict id, by simp [put, hi, hp, hg]⟩
        | some n =>
            have hn : n = db.generation id + 1 := nextGeneration?_eq_some hg
            subst hn
            exact .inr ⟨id, rfl, by simp [put, hi, hp, hg, written, nextEntry, nextRevision]⟩
      · exact .inl ⟨.databaseNotFound db.name, by simp [put, hi, hp]⟩

theorem present_put (db : Database) (document : Document) : (db.put document).2.present = db.present := by
  obtain ⟨e, he⟩ | ⟨id, -, hw⟩ := put_cases db document
  · rw [he]
  · rw [hw]
    rfl

/-- A deletion at the revision under which the live document stands. -/
theorem delete_of_rev (hp : db.present = true) {entry : Entry} (hf : db.entries.find? id = some entry)
    (hd : entry.document = some stale) (hr : entry.rev = rev) :
    db.delete id rev = (.ok (db.nextRevision id none), db.written id none) := by
  simp [delete, hp, hf, hd, hr, written, nextEntry, nextRevision, generation]

/-- A deletion changes nothing, or it ends the live document whose revision it names. -/
theorem delete_cases (db : Database) (id rev : String) :
    (∃ e, db.delete id rev = (.error e, db) ∧
      ∀ entry stale, db.present = true → db.entries.find? id = some entry → entry.document = some stale →
        entry.rev ≠ rev ∧ e = .conflict id) ∨
      ∃ entry stale, db.entries.find? id = some entry ∧ entry.document = some stale ∧ entry.rev = rev ∧
        db.delete id rev = (.ok (db.nextRevision id none), db.written id none) := by
  by_cases hp : db.present = true
  · cases hf : db.entries.find? id with
    | none =>
        exact .inl ⟨.notFound id, by simp [delete, hp, hf], fun _ _ _ h => by cases h⟩
    | some entry =>
        cases hd : entry.document with
        | none =>
            refine .inl ⟨.notFound id, by simp [delete, hp, hf, hd], ?_⟩
            intro _ _ _ h hs
            cases h
            rw [hd] at hs
            cases hs
        | some stale =>
            by_cases hr : entry.rev = rev
            · exact .inr ⟨entry, stale, rfl, hd, hr, delete_of_rev hp hf hd hr⟩
            · refine .inl ⟨.conflict id, by simp [delete, hp, hf, hd, hr], ?_⟩
              intro _ _ _ h _
              cases h
              exact ⟨hr, rfl⟩
  · exact .inl ⟨.databaseNotFound db.name, by simp [delete, hp], fun _ _ h => absurd h hp⟩

theorem present_delete (db : Database) (id rev : String) : (db.delete id rev).2.present = db.present := by
  obtain ⟨e, he, -⟩ | ⟨_, _, -, -, -, hw⟩ := delete_cases db id rev
  · rw [he]
  · rw [hw]
    rfl

end Database

/-! ### What a live document says of itself -/

/-- An entry carries the revision of its generation, and its document, if it has
one, names the identifier and that revision. -/
structure Entry.Sound (id : String) (entry : Entry) : Prop where
  rev : ∃ body, entry.rev = Database.revision entry.generation id body
  id : ∀ document, entry.document = some document →
    document.find? Document.idField = some (.string id)
  named : ∀ document, entry.document = some document →
    document.find? Document.revField = some (.string entry.rev)

namespace Database

variable {db : Database} {id other rev : String} {body : Option Document} {document stale : Document}

def Sound (db : Database) : Prop :=
  ∀ id entry, db.entries.find? id = some entry → entry.Sound id

/-- A database that calls have led to. -/
inductive Reachable : Database → Prop where
  | missing (name : String) : Reachable (missing name)
  | new (name : String) : Reachable (new name)
  | answer {db : Database} (call : Call) : Reachable db → Reachable (db.answer call).2

theorem find?_of_id? (h : document.id? = some id) :
    document.find? Document.idField = some (.string id) := by
  obtain ⟨value, hf, hs⟩ := Option.bind_eq_some_iff.1 h
  cases value <;> cases hs
  exact hf

theorem sound_nextEntry (hb : ∀ document, body = some document → document.id? = some id) :
    (db.nextEntry id body).Sound id where
  rev := ⟨body, rfl⟩
  id document hd := by
    obtain ⟨stored, hs, rfl⟩ := Option.map_eq_some_iff.1 hd
    rw [Keyed.find?_insert_of_ne _ (by decide)]
    exact find?_of_id? (hb stored hs)
  named document hd := by
    obtain ⟨stored, hs, rfl⟩ := Option.map_eq_some_iff.1 hd
    exact Keyed.find?_insert_self _ _ _

theorem Sound.written (h : db.Sound) (hb : ∀ document, body = some document → document.id? = some id) :
    (db.written id body).Sound := by
  intro other entry hf
  by_cases ho : other = id
  · subst ho
    rw [find?_written_self] at hf
    cases hf
    exact sound_nextEntry hb
  · rw [find?_written_of_ne ho] at hf
    exact h other entry hf

theorem sound_of_empty (name : String) (present : Bool) : Sound ⟨name, present, ∅⟩ := by
  intro id entry hf
  cases hf

theorem Sound.answer (h : db.Sound) (call : Call) : (db.answer call).2.Sound := by
  cases call with
  | put document =>
      obtain ⟨e, he⟩ | ⟨id, hi, hw⟩ := put_cases db document
      · simpa only [Database.answer, he] using h
      · simp only [Database.answer, hw]
        exact h.written fun document hd => by cases hd; exact hi
  | delete id rev =>
      obtain ⟨e, he, -⟩ | ⟨entry, stale, -, -, -, hw⟩ := delete_cases db id rev
      · simpa only [Database.answer, he] using h
      · simp only [Database.answer, hw]
        exact h.written fun document hd => by cases hd
  | create =>
      simp only [Database.answer]
      split <;> exact h
  | drop =>
      simp only [Database.answer]
      split
      · exact sound_of_empty db.name false
      · exact h
  | _ => exact h

theorem Reachable.sound (h : db.Reachable) : db.Sound := by
  induction h with
  | missing name => exact sound_of_empty name false
  | new name => exact sound_of_empty name true
  | answer call _ ih => exact ih.answer call

/-- The generation is the part of a revision before its first dash. -/
theorem takeWhile_revision (n : Nat) (id : String) (body : Option Document) :
    (revision n id body).toList.takeWhile (· ≠ '-') = Nat.toDigits 10 n := by
  have hd : ∀ c ∈ Nat.toDigits 10 n, (decide (c ≠ '-')) = true := by
    intro c hc
    have hc := Nat.isDigit_of_mem_toDigits (by decide) (by decide) hc
    refine decide_eq_true fun h => ?_
    subst h
    exact absurd hc (by decide)
  rw [revision, String.toList_append, String.toList_append, List.append_assoc, toString, instToStringNat,
    Nat.toList_repr, List.takeWhile_append_of_pos hd]
  simp

theorem generation_eq_of_revision_eq {n m : Nat} {a b : String} {body stored : Option Document}
    (h : revision n a body = revision m b stored) : n = m := by
  have hd : Nat.toDigits 10 n = Nat.toDigits 10 m := by
    rw [← takeWhile_revision n a body, h, takeWhile_revision]
  rw [← Nat.ofDigitChars_toDigits (n := n) (by decide : 1 < 10) (by decide), hd,
    Nat.ofDigitChars_toDigits (by decide) (by decide)]

/-- Entries of one identifier that stand under one revision are of one generation. -/
theorem generation_eq_of_rev_eq {a b : Entry} (ha : a.Sound id) (hb : b.Sound id) (h : a.rev = b.rev) :
    a.generation = b.generation := by
  obtain ⟨body, hr⟩ := ha.rev
  obtain ⟨stored, hs⟩ := hb.rev
  rw [hr, hs] at h
  exact generation_eq_of_revision_eq h

end Database

end Docket
