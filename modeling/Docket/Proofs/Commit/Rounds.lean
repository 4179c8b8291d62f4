import Docket.Proofs.Commit.Course
import Docket.Proofs.Commit.Alone

/-!
# What a commit asks of any client

Whoever answers, and whatever is answered, a commit puts its document and then
goes through recoveries, each of which fetches, may delete, and puts again. The
recoveries are counted beforehand, so the commit comes to an end. Every document
it puts names the identifier and no revision, and is in the marked fields what was
built at first. Its record is given back as it was unless it was written, and then
only the marks and the novelty are taken off.
-/
namespace Docket.Commit

/-- Recoveries one after the other, as many as the number says. Each fetches the
stored document, deletes it if there is one, and puts again. -/
inductive Recoveries (id : String) : Nat → List Call → Prop where
  | none : Recoveries id 0 []
  | absent {n : Nat} {calls : List Call} (document : Document) : Recoveries id n calls →
      Recoveries id (n + 1) (.get id :: .put document :: calls)
  | cleared {n : Nat} {calls : List Call} (rev : String) (document : Document) : Recoveries id n calls →
      Recoveries id (n + 1) (.get id :: .delete id rev :: .put document :: calls)

section

variable {id : String} {n : Nat} {calls : List Call}

theorem Recoveries.count_puts (h : Recoveries id n calls) : calls.countP (·.kind = .put) = n := by
  induction h with
  | none => rfl
  | absent document _ ih => simpa [Call.kind] using ih
  | cleared rev document _ ih => simpa [Call.kind] using ih

theorem Recoveries.count_gets (h : Recoveries id n calls) : calls.countP (·.kind = .get) = n := by
  induction h with
  | none => rfl
  | absent document _ ih => simpa [Call.kind] using ih
  | cleared rev document _ ih => simpa [Call.kind] using ih

theorem Recoveries.count_deletes (h : Recoveries id n calls) : calls.countP (·.kind = .delete) ≤ n := by
  induction h with
  | none => exact Nat.le_refl 0
  | absent document _ ih => simpa [Call.kind] using Nat.le_succ_of_le ih
  | cleared rev document _ ih => simpa [Call.kind] using ih

theorem Recoveries.length_le (h : Recoveries id n calls) : calls.length ≤ 3 * n := by
  induction h with
  | none => exact Nat.le_refl 0
  | absent document _ ih =>
      rw [List.length_cons, List.length_cons]
      omega
  | cleared rev document _ ih =>
      rw [List.length_cons, List.length_cons, List.length_cons]
      omega

/-- What begins like a put and recoveries has no more calls than they have. -/
theorem Recoveries.bounds {rounds : List Call} {first : Document} {retries : Nat} (hr : Recoveries id n rounds)
    (hn : n ≤ retries) (hp : calls <+: .put first :: rounds) :
    calls.length ≤ 3 * retries + 1 ∧ calls.countP (·.kind = .put) ≤ retries + 1 ∧
      calls.countP (·.kind = .get) ≤ retries ∧ calls.countP (·.kind = .delete) ≤ retries := by
  have hlength := hp.length_le
  have hputs := hp.sublist.countP_le (p := fun call => call.kind = .put)
  have hgets := hp.sublist.countP_le (p := fun call => call.kind = .get)
  have hdeletes := hp.sublist.countP_le (p := fun call => call.kind = .delete)
  have hk : (Call.put first).kind = .put := rfl
  have hrounds := hr.length_le
  have hmost := hr.count_deletes
  rw [List.length_cons] at hlength
  simp only [List.countP_cons, hk, hr.count_puts, decide_true, if_true] at hputs
  simp only [List.countP_cons, hk, hr.count_gets, reduceCtorEq, decide_false, Bool.false_eq_true,
    if_false] at hgets
  simp only [List.countP_cons, hk, reduceCtorEq, decide_false, Bool.false_eq_true, if_false] at hdeletes
  exact ⟨by omega, by omega, by omega, by omega⟩

end

/-! ### Along a course -/

namespace Writer

variable {w : Writer} {recovered : Bool} {left : Nat} {outgoing : Document} {desk : Desk}
  {xs : List Exchange} {committed : Committed}

/-- The calls of a course are the beginning of a put followed by recoveries. A
commit that breaks off was on the way to a put that it did not come to. -/
theorem Course.isPrefix (h : w.Course recovered left outgoing desk xs committed) : ∃ n rounds,
    n ≤ left ∧ Recoveries w.id n rounds ∧ xs.map Exchange.call <+: .put outgoing :: rounds := by
  induction h with
  | written rev => exact ⟨0, [], Nat.zero_le _, .none, List.prefix_rfl⟩
  | failed _ => exact ⟨0, [], Nat.zero_le _, .none, List.prefix_rfl⟩
  | exhausted _ => exact ⟨0, [], Nat.zero_le _, .none, List.prefix_rfl⟩
  | @unfetched _ left outgoing _ _ _ _ =>
      refine ⟨1, _, Nat.le_add_left 1 left, .absent outgoing .none, ?_⟩
      exact List.prefix_append [Call.put outgoing, .get w.id] _
  | @unnamed _ left outgoing _ _ _ _ _ =>
      refine ⟨1, _, Nat.le_add_left 1 left, .absent outgoing .none, ?_⟩
      exact List.prefix_append [Call.put outgoing, .get w.id] _
  | @undeleted _ left outgoing _ _ _ _ rev _ _ _ =>
      refine ⟨1, _, Nat.le_add_left 1 left, .cleared rev outgoing .none, ?_⟩
      exact List.prefix_append [Call.put outgoing, .get w.id, .delete w.id rev] _
  | @absent _ left outgoing _ _ _ _ _ _ ih =>
      obtain ⟨n, rounds, hn, hr, hp⟩ := ih
      refine ⟨n + 1, _, Nat.succ_le_succ hn, .absent outgoing hr, ?_⟩
      exact (List.prefix_append_right_inj [Call.put outgoing, .get w.id]).2 hp
  | @gone _ left outgoing stale _ _ _ rev _ _ _ _ _ _ ih =>
      obtain ⟨n, rounds, hn, hr, hp⟩ := ih
      refine ⟨n + 1, _, Nat.succ_le_succ hn, .cleared rev (w.rebuilt stale) hr, ?_⟩
      exact (List.prefix_append_right_inj [Call.put outgoing, .get w.id, .delete w.id rev]).2 hp
  | @cleared _ left outgoing stale _ _ rev _ _ _ _ _ _ ih =>
      obtain ⟨n, rounds, hn, hr, hp⟩ := ih
      refine ⟨n + 1, _, Nat.succ_le_succ hn, .cleared rev (w.rebuilt stale) hr, ?_⟩
      exact (List.prefix_append_right_inj [Call.put outgoing, .get w.id, .delete w.id rev]).2 hp

/-- What holds of the first document put, and of every rebuilt one, holds of all
that are put. -/
theorem Course.forall_put {puts : Document → Prop} (hb : ∀ stale, puts (w.rebuilt stale))
    (h : w.Course recovered left outgoing desk xs committed) (ho : puts outgoing) :
    ∀ document, Call.put document ∈ xs.map Exchange.call → puts document := by
  induction h with
  | written rev => simpa using ho
  | failed _ => simpa using ho
  | exhausted _ => simpa using ho
  | unfetched _ _ => simpa using ho
  | unnamed _ _ => simpa using ho
  | undeleted _ _ _ => simpa using ho
  | absent _ _ ih => simpa [ho] using ih ho
  | gone _ _ _ _ ih => simpa [ho] using ih (hb _)
  | cleared _ _ _ ih => simpa [ho] using ih (hb _)

theorem Course.record_of_error (h : w.Course recovered left outgoing desk xs committed) {e : StoreError}
    (he : committed.result = .error e) : committed.record = w.record := by
  induction h with
  | written rev => cases he
  | absent _ _ ih => exact ih he
  | gone _ _ _ _ ih => exact ih he
  | cleared _ _ _ ih => exact ih he
  | _ => rfl

theorem Course.not_skipped (h : w.Course recovered left outgoing desk xs committed) :
    committed.result ≠ .ok .skipped := by
  induction h with
  | absent _ _ ih => exact ih
  | gone _ _ _ _ ih => exact ih
  | cleared _ _ _ ih => exact ih
  | _ => exact fun h => by cases h

theorem Course.record_of_written (h : w.Course recovered left outgoing desk xs committed) {rev : String}
    (hr : committed.result = .ok (.written rev)) : committed.record = w.record.markClean := by
  induction h with
  | written rev => rfl
  | absent _ _ ih => exact ih hr
  | gone _ _ _ _ ih => exact ih hr
  | cleared _ _ _ ih => exact ih hr
  | _ => cases hr

end Writer

/-- The document names its identifier and no revision, and is in the marked fields
what was built. -/
structure Restates (id : String) (record : Record) (built outgoing : Document) : Prop where
  id : outgoing.find? Document.idField = some (.string id)
  rev : outgoing.find? Document.revField = none
  marked : ∀ position field, record.schema.fields[position]? = some field →
    record.isDirtyAt position = true → outgoing.find? field.name = built.find? field.name

theorem Builds.restates {id : String} {desk : Desk} {record : Record} {built : Document}
    (hu : Unreserved record.schema) (h : Builds id desk record built) : Restates id record built built where
  id := h.id
  rev := h.other Document.revField (marks_of_isReserved hu (by decide)) (by decide)
  marked _ _ _ _ := rfl

theorem Restates.carryOver {id : String} {record : Record} {built : Document}
    (h : Restates id record built built) (stale : Document) :
    Restates id record built (carryOver record built stale) where
  id := by
    rw [find?_carryOver_of_isReserved (by decide)]
    exact h.id
  rev := by
    rw [find?_carryOver_of_isReserved (by decide)]
    exact h.rev
  marked position field hf hd := by
    rw [find?_carryOver_of_marks]
    rw [marks_field hf, hd]

/-- What a commit asks of a client, and what it makes of its record. -/
structure Conducted {σ : Type} (client : Client σ) (state : σ) (id : String) (retries : Nat)
    (record : Record) (desk : Desk) (calls : List Call) (committed : Committed) : Prop where
  /-- The calls are the beginning of a put followed by recoveries. -/
  shape : ∃ n rounds first, n ≤ retries ∧ Recoveries id n rounds ∧ calls <+: .put first :: rounds
  ends : calls.length ≤ 3 * retries + 1
  puts : calls.countP (·.kind = .put) ≤ retries + 1
  gets : calls.countP (·.kind = .get) ≤ retries
  deletes : calls.countP (·.kind = .delete) ≤ retries
  /-- Nothing is asked for a record that needs no write or has no document. -/
  silent : record.needsWrite = false ∨ (∃ e, (document id record desk).1 = .error e) → calls = []
  /-- The built document is put first. -/
  first : ∀ built, record.needsWrite = true → (document id record desk).1 = .ok built →
    calls.head? = some (.put built)
  /-- Every document put is in the marked fields what was built. -/
  restated : ∀ built outgoing, (document id record desk).1 = .ok built → Call.put outgoing ∈ calls →
    Restates id record built outgoing
  /-- Unless it was written, the record is as it was. -/
  kept : committed.result = .ok .skipped ∨ (∃ e, committed.result = .error e) → committed.record = record
  /-- A record that was written holds the same values, and none is marked or new. -/
  cleaned : ∀ rev, committed.result = .ok (.written rev) →
    committed.record.schema = record.schema ∧ committed.record.values = record.values ∧
      committed.record.dirty = .clean record.schema.size ∧ committed.record.isNew = false

section

variable {σ : Type} {client : Client σ} {state : σ} {id : String} {record : Record} {desk left : Desk}

/-- A commit that is over before it makes a call. -/
theorem conducted_of_done {committed : Committed} (retries : Nat)
    (hn : record.needsWrite = false ∨ ∃ e, (document id record desk).1 = .error e)
    (hk : committed.record = record) (hw : ∀ rev, committed.result ≠ .ok (.written rev)) :
    Conducted client state id retries record desk [] committed where
  shape := ⟨0, [], Keyed.empty, Nat.zero_le _, .none, List.nil_prefix⟩
  ends := Nat.zero_le _
  puts := Nat.zero_le _
  gets := Nat.zero_le _
  deletes := Nat.zero_le _
  silent _ := rfl
  first built hneeds hbuilt := by
    rcases hn with hn | ⟨e, he⟩
    · rw [hneeds] at hn
      cases hn
    · rw [hbuilt] at he
      cases he
  restated _ _ _ hm := absurd hm List.not_mem_nil
  kept _ := hk
  cleaned rev hr := absurd hr (hw rev)

/-- A commit that takes a course with its document. -/
theorem conducted_of_course (hu : Unreserved record.schema) (hw : record.needsWrite = true) {built : Document}
    (hb : document id record desk = (.ok built, left)) {retries : Nat} {xs : List Exchange}
    {committed : Committed}
    (h : (Writer.mk id built record).Course false retries built left xs committed)
    (hx : ∃ reply rest, xs = ⟨.put built, reply⟩ :: rest) :
    Conducted client state id retries record desk (xs.map Exchange.call) committed := by
  obtain ⟨n, rounds, hn, hr, hp⟩ := h.isPrefix
  obtain ⟨hends, hputs, hgets, hdeletes⟩ := hr.bounds hn hp
  have hown : Restates id record built built := (builds_document hu hb).restates hu
  refine { shape := ⟨n, rounds, built, hn, hr, hp⟩, ends := hends, puts := hputs, gets := hgets,
           deletes := hdeletes, silent := ?silent, first := ?first, restated := ?restated,
           kept := ?kept, cleaned := ?cleaned }
  case silent =>
    rintro (hs | ⟨e, he⟩)
    · rw [hw] at hs
      cases hs
    · rw [hb] at he
      cases he
  case first =>
    intro other _ hother
    rw [hb] at hother
    cases hother
    obtain ⟨reply, rest, rfl⟩ := hx
    rfl
  case restated =>
    intro other outgoing hother hm
    rw [hb] at hother
    cases hother
    exact h.forall_put (fun stale => hown.carryOver stale) hown outgoing hm
  case kept =>
    rintro (hs | ⟨e, he⟩)
    · exact absurd hs h.not_skipped
    · exact h.record_of_error he
  case cleaned =>
    intro rev hrev
    rw [h.record_of_written hrev]
    refine ⟨rfl, rfl, ?_, rfl⟩
    exact (DirtyBits.clear_eq_clean record.dirty).trans (congrArg DirtyBits.clean record.dirty_length)

end

/-- Whatever a client answers, a commit keeps to its calls and to its record. -/
theorem commit_conducted {σ : Type} (client : Client σ) (state : σ) (id : String) (retries : Nat)
    {record : Record} (hu : Unreserved record.schema) (desk : Desk) :
    Conducted client state id retries record desk ((record.commit id retries desk).calls client state)
      ((record.commit id retries desk).run client state).1 := by
  have ho := outset_commit record id retries desk
  rw [← Dialogue.map_call_exchanges]
  generalize record.commit id retries desk = d at ho ⊢
  cases ho with
  | skipped hw => exact conducted_of_done retries (.inl hw) rfl fun rev h => by cases h
  | @unbuilt e left _ hd => exact conducted_of_done retries (.inr ⟨e, by rw [hd]⟩) rfl fun rev h => by cases h
  | @started built left hw hd =>
      apply conducted_of_course hu hw hd
      · exact (Writer.mk id built record).course_putting client false retries built left state
      · rw [Writer.dialogue_putting, Dialogue.exchanges_ask]
        exact ⟨_, _, rfl⟩

/-- The user's document stands in the way of the first put, and is cleared. -/
theorem commit_conducted_renamedUser : Unreserved renamedUser.schema ∧
    Conducted Database.client userDatabase "u1" 1 renamedUser (.opened .info)
      ((renamedUser.commit "u1" 1 (.opened .info)).calls Database.client userDatabase)
      ((renamedUser.commit "u1" 1 (.opened .info)).run Database.client userDatabase).1 ∧
    ((renamedUser.commit "u1" 1 (.opened .info)).calls Database.client userDatabase).map Call.kind =
      [.put, .get, .delete, .put] := by
  have hu : Unreserved renamedUser.schema := by decide
  refine ⟨hu, commit_conducted Database.client userDatabase "u1" 1 hu (.opened .info), ?_⟩
  decide +kernel

end Docket.Commit
