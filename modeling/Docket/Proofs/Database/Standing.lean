import Docket.Proofs.Client.Exchange
import Docket.Proofs.Database.Fencing

/-!
# Versions that stand and versions that are past

A version of a document stands under its identifier until the identifier is
written again. Then it is past for good: revisions spell their generation, and
generations only rise, so nothing that is written later stands under its revision,
even if it is the same document. A deletion at the revision of a version ends this
version while it stands, and is refused when it is past.
-/
namespace Docket.Database

variable {db : Database} {call : Call} {id rev : String} {stale : Document}

/-- The document is live under the identifier and the revision. -/
def Standing (db : Database) (id : String) (stale : Document) (rev : String) : Prop :=
  ∃ entry, db.entries.find? id = some entry ∧ entry.document = some stale ∧ entry.rev = rev

/-- The revision was one of the identifier's, and the identifier was written since. -/
def Past (db : Database) (id rev : String) : Prop :=
  ∃ entry : Entry, entry.Sound id ∧ entry.rev = rev ∧ entry.generation < db.generation id

/-- What an exchange has done: written under one identifier, or nothing. -/
theorem answer_written? (hp : db.present = true) (hk : call.kind ≠ .drop) :
    match Exchange.written? ⟨call, (db.answer call).1⟩ with
    | some id => ∃ body, (db.answer call).2 = db.written id body
    | none => (db.answer call).2 = db := by
  cases call with
  | put document =>
      obtain ⟨e, he⟩ | ⟨id, hi, hw⟩ := put_cases db document
      · simp only [answer, he, Exchange.written?]
      · simp only [answer, hw, Exchange.written?, hi]
        exact ⟨_, rfl⟩
  | delete id rev =>
      obtain ⟨e, he, -⟩ | ⟨_, _, -, -, -, hw⟩ := delete_cases db id rev
      · simp only [answer, he, Exchange.written?]
      · simp only [answer, hw, Exchange.written?]
        exact ⟨_, rfl⟩
  | create => simp only [Exchange.written?, answer, hp, if_true]
  | drop => exact absurd rfl hk
  | _ => rfl

/-- What was fetched stands under the revision that it names. -/
theorem standing_of_live (hs : db.Sound) (hl : db.live? id = some stale) (hr : stale.rev? = some rev) :
    db.Standing id stale rev := by
  obtain ⟨entry, hf, hd⟩ := live?_eq_some.1 hl
  have hn := (hs id entry hf).named stale hd
  rw [Document.rev?, hn] at hr
  exact ⟨entry, hf, hd, Option.some.inj hr⟩

theorem Standing.answer (h : db.Standing id stale rev) (hp : db.present = true) (hk : call.kind ≠ .drop)
    (hn : Exchange.written? ⟨call, (db.answer call).1⟩ ≠ some id) : (db.answer call).2.Standing id stale rev := by
  have hc := answer_written? hp hk
  cases hw : Exchange.written? ⟨call, (db.answer call).1⟩ with
  | none =>
      rw [hw] at hc
      exact hc.symm ▸ h
  | some other =>
      rw [hw] at hc hn
      obtain ⟨body, hb⟩ := hc
      have hne : id ≠ other := fun heq => hn (congrArg some heq.symm)
      obtain ⟨entry, hf, hd, hr⟩ := h
      refine ⟨entry, ?_, hd, hr⟩
      rw [hb, find?_written_of_ne hne]
      exact hf

/-- A write of the identifier ends what stood there. -/
theorem Standing.past (h : db.Standing id stale rev) (hs : db.Sound) (hp : db.present = true)
    (hk : call.kind ≠ .drop) (hw : Exchange.written? ⟨call, (db.answer call).1⟩ = some id) :
    (db.answer call).2.Past id rev := by
  have hc := answer_written? hp hk
  rw [hw] at hc
  obtain ⟨body, hb⟩ := hc
  obtain ⟨entry, hf, -, hr⟩ := h
  refine ⟨entry, hs id entry hf, hr, ?_⟩
  rw [hb, generation_written_self, generation_of_find? hf]
  exact Nat.lt_succ_self _

theorem Past.answer (h : db.Past id rev) (hp : db.present = true) (hk : call.kind ≠ .drop) :
    (db.answer call).2.Past id rev := by
  obtain ⟨entry, he, hr, hlt⟩ := h
  exact ⟨entry, he, hr, Nat.lt_of_lt_of_le hlt (generation_le_answer hp hk id)⟩

theorem Standing.delete (h : db.Standing id stale rev) (hp : db.present = true) :
    db.live? id = some stale ∧ db.delete id rev = (.ok (db.nextRevision id none), db.written id none) := by
  obtain ⟨entry, hf, hd, hr⟩ := h
  exact ⟨live?_eq_some.2 ⟨entry, hf, hd⟩, delete_of_rev hp hf hd hr⟩

/-- A present database refuses a deletion because the revision is not the current
one, or because nothing is live. -/
theorem error_of_delete (hp : db.present = true) {e : StoreError} (he : db.delete id rev = (.error e, db)) :
    e = .conflict id ∨ e = .notFound id := by
  simp only [Database.delete, hp, Bool.not_true, Bool.false_eq_true, if_false] at he
  split at he
  · cases he
    exact .inr rfl
  · split at he
    · cases he
      exact .inr rfl
    · split at he
      · cases he
        exact .inl rfl
      · cases he

theorem Past.delete (h : db.Past id rev) (hs : db.Sound) (hp : db.present = true) :
    ∃ e, db.delete id rev = (.error e, db) ∧ (e = .conflict id ∨ e = .notFound id) := by
  obtain ⟨e, he, -⟩ | ⟨entry, _, hf, -, hr, -⟩ := delete_cases db id rev
  · exact ⟨e, he, error_of_delete hp he⟩
  · obtain ⟨old, ho, hor, hlt⟩ := h
    have hsame := generation_eq_of_rev_eq ho (hs id entry hf) (hor.trans hr.symm)
    rw [generation_of_find? hf] at hlt
    omega

end Docket.Database
