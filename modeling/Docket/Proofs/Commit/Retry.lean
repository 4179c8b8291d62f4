import Docket.Proofs.Commit.Alone

/-!
# Committing again after a failure

A commit that fails keeps its record, so it can be tried again. The second commit
merges the record with what the first one left under the identifier. If the first
had already deleted the document, the fields that it was to carry over were only
in its hands, and they are gone.
-/
namespace Docket.Commit

variable {before : Database} {id rev : String} {record : Record} {desk left : Desk} {built : Document}

/-- A failed commit leaves the record, the decoders, and the database held. -/
theorem failed_commit (hp : before.present = true) (hu : Unreserved record.schema)
    (hw : record.needsWrite = true) (hb : document id record desk = (.ok built, left)) (retries : Nat)
    (script : List Disturbance) {e : StoreError}
    (he : ((record.commit id retries desk).run Disturbed.client ⟨before, script⟩).1.result = .error e) :
    let first := (record.commit id retries desk).run Disturbed.client ⟨before, script⟩
    first.1.record = record ∧ first.1.desk.cache = left.cache ∧ Held before id first.2.database := by
  have ha : Addressed id built := (builds_document hu hb).addressed hu
  rw [commit_eq_dialogue retries hw hb] at he ⊢
  have hf := Writer.faithful_run (w := ⟨id, built, record⟩) Disturbed.client retries built left ⟨before, script⟩
  have hi := alone_run (w := ⟨id, built, record⟩) hp ha retries left script
  have hr := hf.record _ rfl
  simp only [Alone, he] at hi hr
  exact ⟨hr, hf.cache, hi⟩

/-- A merge with nothing is a merge with a document that has nothing to carry over. -/
theorem Merges.none_iff {stale after : Document} (h : Merges id rev desk record none after) :
    Merges id rev desk record (some stale) after ↔
      ∀ name, Document.isReserved name = false → marks record name = false → stale.find? name = none := by
  constructor
  · intro hs name hr hm
    have hk := hs.kept name hr hm
    rw [h.kept name hr hm] at hk
    exact hk.symm
  · intro hc
    refine { toShows := h.toShows, id := h.id, rev := h.rev, kept := ?_, reserved := h.reserved }
    intro name hr hm
    rw [h.kept name hr hm, Option.bind_some, hc name hr hm]
    rfl

/-- The commit after a failed one merges the record with what that one left. -/
theorem retry_quiet (hr : before.Reachable) (hp : before.present = true) (hu : Unreserved record.schema)
    (hw : record.needsWrite = true) (hb : document id record desk = (.ok built, left)) (retries : Nat)
    {again : Nat} (hn : 1 ≤ again) (script : List Disturbance) {e : StoreError}
    (he : ((record.commit id retries desk).run Disturbed.client ⟨before, script⟩).1.result = .error e) :
    let first := (record.commit id retries desk).run Disturbed.client ⟨before, script⟩
    let between := first.2.database
    let second := (first.1.record.commit id again first.1.desk).run Disturbed.client ⟨between, []⟩
    Held before id between ∧ ∃ rev, second.1.result = .ok (.written rev) ∧ second.2.database.live? id =
      some ((merged record built (between.live? id)).insert Document.revField (.string rev)) := by
  intro first between second
  obtain ⟨hrec, hcache, hheld⟩ := failed_commit hp hu hw hb retries script he
  have hs : between.Sound := hheld.sound hr.sound
  have hpb : between.present = true := hheld.present.trans hp
  obtain ⟨latest, hl, -⟩ := document_of_extends hb (Desk.extends_of_cache_eq hcache)
  have hsecond : second = (record.commit id again first.1.desk).run Disturbed.client ⟨between, []⟩ := by
    rw [← hrec]
  rw [hsecond]
  obtain ⟨rev, hres, hlive, -⟩ := commit_quiet hs hpb hu hw hl hn
  exact ⟨hheld, rev, hres, hlive⟩

theorem retry_merges_iff (hr : before.Reachable) (hp : before.present = true) (hu : Unreserved record.schema)
    (hw : record.needsWrite = true) (hb : document id record desk = (.ok built, left)) (retries : Nat)
    {again : Nat} (hn : 1 ≤ again) (script : List Disturbance) {e : StoreError}
    (he : ((record.commit id retries desk).run Disturbed.client ⟨before, script⟩).1.result = .error e) :
    let first := (record.commit id retries desk).run Disturbed.client ⟨before, script⟩
    let between := first.2.database
    let second := (first.1.record.commit id again first.1.desk).run Disturbed.client ⟨between, []⟩
    Held before id between ∧ ∃ rev stored, second.1.result = .ok (.written rev) ∧
      second.2.database.live? id = some stored ∧ Merges id rev left record (between.live? id) stored ∧
      (Merges id rev left record (before.live? id) stored ↔
        between.live? id = before.live? id ∨ ∀ stale, before.live? id = some stale →
          ∀ name, Document.isReserved name = false → marks record name = false → stale.find? name = none) := by
  intro first between second
  have hd := builds_document hu hb
  obtain ⟨hheld, rev, hres, hlive⟩ := retry_quiet hr hp hu hw hb retries hn script he
  have hm := merges_stored rev hu hd (between.live? id)
  refine ⟨hheld, rev, _, hres, hlive, hm, ?_⟩
  obtain hsame | ⟨hnone, stale, hb⟩ := hheld.live?_cases
  · rw [hsame] at hm ⊢
    exact iff_of_true hm (.inl rfl)
  · rw [hnone] at hm ⊢
    rw [hb, hm.none_iff]
    constructor
    · intro hc
      refine .inr fun found hf => ?_
      cases hf
      exact hc
    · rintro (hc | hc)
      · cases hc
      · exact hc stale rfl

/-- The put fails that is to bring the document back after its deletion. -/
def brokenRewrite (e : StoreError) : List Disturbance :=
  [.pass, .pass, .pass, .fail e]

/-- A commit whose second put fails leaves the live document deleted. -/
theorem result_brokenRewrite (hr : before.Reachable) (hp : before.present = true)
    (hu : Unreserved record.schema) (hw : record.needsWrite = true)
    (hb : document id record desk = (.ok built, left)) {stale : Document} (hl : before.live? id = some stale)
    (retries : Nat) {e : StoreError} (he : e.isConflict = false) :
    let final := (record.commit id (retries + 1) desk).run Disturbed.client ⟨before, brokenRewrite e⟩
    final.1.result = .error e ∧ final.2.database = before.written id none := by
  have ha : Addressed id built := (builds_document hu hb).addressed hu
  obtain ⟨entry, hf, hd⟩ := Database.live?_eq_some.1 hl
  have hrev : stale.rev? = some entry.rev := by
    rw [Document.rev?, (hr.sound id entry hf).named stale hd]
    rfl
  have hput : before.answer (.put built) = (.error (.conflict id), before) :=
    Database.put_of_live hp ha.id ha.rev hl
  have hget : before.answer (.get id) = (.ok (some stale), before) := by
    rw [← hl]
    exact Database.answer_get hp
  have hdelete : before.answer (.delete id entry.rev) = (.ok (before.nextRevision id none), before.written id none) :=
    Database.delete_of_rev hp hf hd rfl
  have hc : (StoreError.conflict id).isConflict = true := rfl
  rw [commit_eq_dialogue (retries + 1) hw hb, Writer.dialogue_putting]
  simp only [Dialogue.run, Disturbed.client, Disturbed.answer, brokenRewrite, List.headD_cons, List.tail_cons,
    Disturbed.disturb, hput, Writer.afterPut, hc, if_true, Writer.dialogue_fetching, hget,
    Writer.afterGet, hrev, Writer.dialogue_clearing, hdelete, Writer.afterDelete, Writer.dialogue_putting, he]
  exact ⟨rfl, rfl⟩

def putFailed : StoreError := .client (.failed "injected put")

/-- A commit of the renamed user that breaks off, and the next one. -/
def brokenCommit : Committed × Disturbed :=
  (renamedUser.commit "u1" 1 (.opened .info)).run Disturbed.client ⟨userDatabase, brokenRewrite putFailed⟩

def nextCommit : Committed × Disturbed :=
  (brokenCommit.1.record.commit "u1" 1 brokenCommit.1.desk).run Disturbed.client ⟨brokenCommit.2.database, []⟩

theorem result_brokenCommit : brokenCommit.1.result = .error putFailed ∧
    brokenCommit.2.database = userDatabase.written "u1" none :=
  result_brokenRewrite reachable_userDatabase rfl (by decide) (by decide) document_renamedUser
    live_userDatabase 0 rfl

theorem retry_merges_renamedUser : brokenCommit.1.result = .error putFailed ∧
    ∃ rev stored, nextCommit.1.result = .ok (.written rev) ∧ nextCommit.2.database.live? "u1" = some stored ∧
      Merges "u1" rev (.opened .info) renamedUser (brokenCommit.2.database.live? "u1") stored := by
  have he := result_brokenCommit.1
  obtain ⟨-, rev, stored, hres, hl, hm, -⟩ := retry_merges_iff reachable_userDatabase rfl (by decide) (by decide)
    document_renamedUser 1 (Nat.le_refl 1) (brokenRewrite putFailed) he
  exact ⟨he, rev, stored, hres, hl, hm⟩

/-- The city of the user was carried by the commit that broke off, and is lost. -/
theorem retry_loses_city : brokenCommit.1.result = .error putFailed ∧
    (∃ rev, nextCommit.1.result = .ok (.written rev)) ∧
    ¬∃ rev stored, nextCommit.2.database.live? "u1" = some stored ∧
      Merges "u1" rev (.opened .info) renamedUser (userDatabase.live? "u1") stored := by
  obtain ⟨he, hdb⟩ := result_brokenCommit
  obtain ⟨-, rev, hres, hl⟩ := retry_quiet reachable_userDatabase rfl (by decide) (by decide)
    document_renamedUser 1 (Nat.le_refl 1) (brokenRewrite putFailed) he
  refine ⟨he, ⟨rev, hres⟩, ?_⟩
  rintro ⟨_, stored, hs, hm⟩
  have hn : brokenCommit.2.database.live? "u1" = none := by
    rw [hdb]
    exact Database.live?_written_self
  have hk := hm.kept "city" (by decide) (by decide)
  have hw : nextCommit.2.database.live? "u1" = some
      ((merged renamedUser renamedDocument (brokenCommit.2.database.live? "u1")).insert Document.revField
        (.string rev)) := hl
  rw [hn] at hw
  cases hw.symm.trans hs
  rw [live_userDatabase] at hk
  cases hk

end Docket.Commit
