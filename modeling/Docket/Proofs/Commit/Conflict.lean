import Docket.Proofs.Client.Shared
import Docket.Proofs.Commit.Alone
import Docket.Proofs.Commit.Course
import Docket.Proofs.Desk

/-!
# Conflicts that reach the caller

A commit hands a conflict to its caller in two ways. Either every put it is
allowed was refused; then the refusal of the last one is noted as unrecovered. Or
a recovery came too late to delete the document that it had fetched: the deletion
is refused, and the commit gives up at once, whatever recoveries are left, and
notes nothing. Each refused put is counted in both cases.
-/
namespace Docket.Commit

/-- So many puts were made, each was refused and counted, and so many times a
conflict was noted as unrecovered. -/
structure Refused (puts unrecovered : Nat) (desk : Desk) (xs : List Exchange) (later : Desk) : Prop where
  made : xs.countP Exchange.isPut = puts
  refused : ∀ x ∈ xs, x.isPut = true → x.isConflict = true
  counted : later.tally.count .conflicts = desk.tally.count .conflicts + puts
  noted : later.journal.noted .conflictUnrecovered = desk.journal.noted .conflictUnrecovered + unrecovered

section

variable {puts unrecovered : Nat} {desk mid later : Desk} {xs others : List Exchange} {put : Exchange}

/-- One put more, refused before the others and counted. -/
theorem Refused.cons (h : Refused puts unrecovered mid xs later) (hp : put.isPut = true)
    (hc : put.isConflict = true) (ht : mid.tally.count .conflicts = desk.tally.count .conflicts + 1)
    (hn : mid.journal.noted .conflictUnrecovered = desk.journal.noted .conflictUnrecovered) :
    Refused (puts + 1) unrecovered desk (put :: xs) later where
  made := by rw [List.countP_cons, hp, if_pos rfl, h.made]
  refused x hx hput := by
    rcases List.mem_cons.1 hx with rfl | hx
    · exact hc
    · exact h.refused x hx hput
  counted := by
    rw [h.counted, ht]
    omega
  noted := by rw [h.noted, hn]

/-- What is asked between two puts changes nothing about the puts. -/
theorem Refused.prepend (h : Refused puts unrecovered desk xs later) (ho : ∀ x ∈ others, x.isPut = false) :
    Refused puts unrecovered desk (others ++ xs) later where
  made := by
    have hothers : others.countP Exchange.isPut = 0 := by
      rw [List.countP_eq_zero]
      intro x hx
      rw [ho x hx]
      exact Bool.false_ne_true
    rw [List.countP_append, hothers, Nat.zero_add, h.made]
  refused x hx hput := by
    rcases List.mem_append.1 hx with hx | hx
    · rw [ho x hx] at hput
      cases hput
    · exact h.refused x hx hput
  counted := h.counted
  noted := h.noted

theorem Refused.of_onlyBuilt (h : Refused puts unrecovered mid xs later) (hb : desk.OnlyBuilt mid) :
    Refused puts unrecovered desk xs later where
  made := h.made
  refused := h.refused
  counted := by rw [h.counted, hb.tally]
  noted := by rw [h.noted, hb.noted .conflictUnrecovered (by decide)]

/-- How a commit with a number of recoveries left comes to hand a conflict on:
every put that it had was refused, or it had puts left and its last call, which was
no put, was refused. -/
inductive Surfaced (left : Nat) (desk : Desk) (xs : List Exchange) (later : Desk) : Prop where
  | exhausted : Refused (left + 1) 1 desk xs later → (∀ x ∈ xs, x.isConflict = true → x.isPut = true) →
      Surfaced left desk xs later
  | interrupted {puts : Nat} {x : Exchange} : 1 ≤ puts → puts ≤ left → Refused puts 0 desk xs later →
      xs.getLast? = some x → x.isPut = false → x.isConflict = true → Surfaced left desk xs later

/-- A recovery more: a put that was refused, and what was asked until the next. -/
theorem Surfaced.recovery {left : Nat} (others : List Exchange) (h : Surfaced left mid xs later)
    (hp : put.isPut = true) (hc : put.isConflict = true)
    (ho : ∀ x ∈ others, x.isPut = false ∧ x.isConflict = false)
    (ht : mid.tally.count .conflicts = desk.tally.count .conflicts + 1)
    (hn : mid.journal.noted .conflictUnrecovered = desk.journal.noted .conflictUnrecovered) :
    Surfaced (left + 1) desk (put :: (others ++ xs)) later := by
  cases h with
  | exhausted hr hx =>
      refine .exhausted ((hr.prepend fun x hx => (ho x hx).1).cons hp hc ht hn) ?_
      intro x hm hconflict
      rcases List.mem_cons.1 hm with rfl | hm
      · exact hp
      · rcases List.mem_append.1 hm with hm | hm
        · rw [(ho x hm).2] at hconflict
          cases hconflict
        · exact hx x hm hconflict
  | @interrupted puts x hpos hle hr hlast hput hconflict =>
      refine .interrupted (Nat.le_add_left 1 puts) (Nat.succ_le_succ hle)
        ((hr.prepend fun x hx => (ho x hx).1).cons hp hc ht hn) ?_ hput hconflict
      rw [← List.cons_append, List.getLast?_append, hlast, Option.some_or]

theorem Surfaced.of_onlyBuilt {left : Nat} (h : Surfaced left mid xs later) (hb : desk.OnlyBuilt mid) :
    Surfaced left desk xs later := by
  cases h with
  | exhausted hr hx => exact .exhausted (hr.of_onlyBuilt hb) hx
  | interrupted hpos hle hr hlast hput hconflict =>
      exact .interrupted hpos hle (hr.of_onlyBuilt hb) hlast hput hconflict

end

namespace Writer

variable {w : Writer} {recovered : Bool} {left : Nat} {outgoing : Document} {desk : Desk}
  {xs : List Exchange} {committed : Committed} {e : StoreError}

theorem count_met (w : Writer) (desk : Desk) :
    (w.met desk).tally.count .conflicts = desk.tally.count .conflicts + 1 := by
  rw [met, Desk.tally_note, Desk.tally_tick, Tally.count_tick, if_pos rfl]

theorem noted_met (w : Writer) (desk : Desk) : (w.met desk).journal.noted .conflictUnrecovered =
    desk.journal.noted .conflictUnrecovered :=
  Journal.noted_note_of_ne _ (by decide) _

theorem noted_cleared (w : Writer) (desk : Desk) (rev : String) :
    (w.cleared desk rev).journal.noted .conflictUnrecovered =
      desk.journal.noted .conflictUnrecovered :=
  Journal.noted_note_of_ne _ (by decide) _

/-- The put before the call that ends a commit. -/
theorem refused_met (hc : e.isConflict = true) (hx : ∀ x ∈ xs, x.isPut = false) :
    Refused 1 0 desk (⟨.put outgoing, .error e⟩ :: xs) (w.met desk) := by
  have hnone : Refused 0 0 (w.met desk) [] (w.met desk) :=
    ⟨rfl, fun _ hm => absurd hm List.not_mem_nil, rfl, rfl⟩
  have hrest := hnone.prepend hx
  rw [List.append_nil] at hrest
  exact hrest.cons rfl hc (w.count_met desk) (w.noted_met desk)

theorem refused_defeated (hc : e.isConflict = true) :
    Refused 1 1 desk [⟨.put outgoing, .error e⟩] (w.defeated desk) := by
  have hticked : (desk.tick .conflicts).tally.count .conflicts = desk.tally.count .conflicts + 1 := by
    rw [Desk.tally_tick, Tally.count_tick, if_pos rfl]
  have hnone : Refused 0 1 (desk.tick .conflicts) [] (w.defeated desk) :=
    ⟨rfl, fun _ hm => absurd hm List.not_mem_nil, rfl, Journal.noted_note_of_isFailure _ rfl _⟩
  exact hnone.cons rfl hc hticked rfl

theorem isConflict_of_isNotFound (h : e.isNotFound = true) : e.isConflict = false := by
  cases e <;> first | rfl | cases h

/-- A course that ends with a conflict. -/
theorem Course.surfaced (h : w.Course recovered left outgoing desk xs committed)
    (hr : committed.result = .error e) (hc : e.isConflict = true) : Surfaced left desk xs committed.desk := by
  induction h with
  | written rev => cases hr
  | failed hn =>
      cases hr
      rw [hc] at hn
      cases hn
  | exhausted hp =>
      refine .exhausted (refused_defeated hp) ?_
      intro x hm _
      rw [List.mem_singleton.1 hm]
      rfl
  | @unfetched _ left _ _ _ fault hp =>
      cases hr
      refine .interrupted (Nat.le_refl 1) (Nat.le_add_left 1 left) (refused_met hp ?_) rfl rfl hc
      simp [Exchange.isPut, Call.kind]
  | unnamed _ _ =>
      cases hr
      cases hc
  | @undeleted _ left _ _ _ _ _ _ hp _ _ =>
      cases hr
      refine .interrupted (Nat.le_refl 1) (Nat.le_add_left 1 left) (refused_met hp ?_) rfl rfl hc
      simp [Exchange.isPut, Call.kind]
  | absent hp _ ih =>
      refine Surfaced.recovery [_] (ih hr) rfl hp ?_ (count_met w _) (noted_met w _)
      simp [Exchange.isPut, Exchange.isConflict, Call.kind]
  | gone hp _ hn _ ih =>
      refine Surfaced.recovery [_, _] (ih hr) rfl hp ?_ (count_met w _) (noted_met w _)
      have hfault := isConflict_of_isNotFound hn
      simp [Exchange.isPut, Exchange.isConflict, Call.kind, hfault]
  | cleared hp _ _ ih =>
      refine Surfaced.recovery [_, _] (ih hr) rfl hp ?_ (count_met w _)
        ((noted_cleared w _ _).trans (noted_met w _))
      simp [Exchange.isPut, Exchange.isConflict, Call.kind]

end Writer

theorem onlyBuilt_addFields (record : Record) (fields : List (Field × Nat)) (document : Document) (desk : Desk) :
    desk.OnlyBuilt (addFields record fields document desk).2 := by
  induction fields generalizing document desk with
  | nil => exact .refl desk
  | cons head fields ih =>
      obtain ⟨field, position⟩ := head
      have he := Field.onlyBuilt_encode field.name field.schema ((record.get? position).getD .null) desk
      simp only [addFields]
      split
      · split
        · rename_i mid hm
          rw [hm] at he
          exact he
        · rename_i stored mid hm
          rw [hm] at he
          exact he.trans (ih _ _)
      · exact ih document desk

theorem onlyBuilt_document (id : String) (record : Record) (desk : Desk) :
    desk.OnlyBuilt (Commit.document id record desk).2 :=
  onlyBuilt_addFields record _ _ desk

/-- A commit that hands on a conflict has begun. -/
theorem surfaced_of_conflict {σ : Type} (client : Client σ) (state : σ) (id : String) (retries : Nat)
    (record : Record) (desk : Desk) {e : StoreError}
    (hr : ((record.commit id retries desk).run client state).1.result = .error e) (hc : e.isConflict = true) :
    Surfaced retries desk ((record.commit id retries desk).exchanges client state)
      ((record.commit id retries desk).run client state).1.desk := by
  have ho := outset_commit record id retries desk
  generalize record.commit id retries desk = d at ho hr ⊢
  cases ho with
  | skipped _ => cases hr
  | unbuilt _ _ =>
      cases hr
      cases hc
  | @started built left _ hd =>
      have hs := ((Writer.mk id built record).course_putting client false retries built left state).surfaced hr hc
      have hb := onlyBuilt_document id record desk
      rw [hd] at hb
      exact hs.of_onlyBuilt hb

/-- When a commit over a shared database hands on a conflict, all of its puts were made and
refused, and this was counted and noted, unless a deletion was refused; then some were left. -/
theorem conflict_unrecovered_iff (s : Shared) (id : String) (retries : Nat) (record : Record) (desk : Desk)
    {e : StoreError} (hr : ((record.commit id retries desk).run Shared.client s).1.result = .error e)
    (hc : e.isConflict = true) :
    let xs := (record.commit id retries desk).exchanges Shared.client s
    let later := ((record.commit id retries desk).run Shared.client s).1.desk
    (Refused (retries + 1) 1 desk xs later ↔ ∀ x ∈ xs, x.call.kind = .delete → x.isConflict = false) ∧
      ((∃ x ∈ xs, x.call.kind = .delete ∧ x.isConflict = true) →
        ∃ puts, 1 ≤ puts ∧ puts ≤ retries ∧ Refused puts 0 desk xs later ∧
          ∃ x, xs.getLast? = some x ∧ x.call.kind = .delete ∧ x.isConflict = true) := by
  intro xs later
  have hs : Surfaced retries desk xs later := surfaced_of_conflict Shared.client s id retries record desk hr hc
  cases hs with
  | exhausted hall hputs =>
      have hnone : ∀ x ∈ xs, x.call.kind = .delete → x.isConflict = false := by
        intro x hm hk
        cases hx : x.isConflict with
        | false => rfl
        | true => exact absurd (of_decide_eq_true (hputs x hm hx)) (by rw [hk]; decide)
      refine ⟨⟨fun _ => hnone, fun _ => hall⟩, ?_⟩
      rintro ⟨x, hm, hk, hx⟩
      rw [hnone x hm hk] at hx
      cases hx
  | @interrupted puts x hpos hle hsome hlast hput hx =>
      -- a database conflicts on puts and deletions only, and the last call was no put
      have hm : x ∈ xs := List.mem_of_getLast? hlast
      have hk : x.call.kind = .delete :=
        (Shared.kind_of_isConflict hm hx).resolve_left (of_decide_eq_false hput)
      refine ⟨⟨fun hall => ?_, fun hnone => ?_⟩, fun _ => ⟨puts, hpos, hle, hsome, x, hlast, hk, hx⟩⟩
      · have hmade := hall.made.symm.trans hsome.made
        omega
      · rw [hnone x hm hk] at hx
        cases hx

/-- The user moves while the commit is about to delete what it has fetched. -/
def movedUser : Document :=
  .ofList [("_id", .string "u1"), ("name", .string "Bob"), ("age", .string "36"), ("city", .string "Rome"),
    ("_rev", .string ((Database.new "users").nextRevision "u1" (some userDocument)))]

def overtaken : Shared :=
  ⟨userDatabase, [[], [], [.put movedUser]]⟩

/-- The user is put back each time that the commit has deleted it. -/
def restored : Shared :=
  ⟨userDatabase, [[], [], [], [.put userDocument]]⟩

theorem conflict_unrecovered_restored :
    let commit := renamedUser.commit "u1" 1 (.opened .info)
    (commit.run Shared.client restored).1.result = .error (.conflict "u1") ∧
      Refused 2 1 (.opened .info) (commit.exchanges Shared.client restored)
        (commit.run Shared.client restored).1.desk := by
  intro commit
  have hr : (commit.run Shared.client restored).1.result = .error (.conflict "u1") := by
    decide +kernel
  have h := conflict_unrecovered_iff restored "u1" 1 renamedUser (.opened .info) hr rfl
  exact ⟨hr, h.1.2 (by decide +kernel)⟩

/-- The commit gives up after one put, though it had a recovery left. -/
theorem conflict_with_put_left :
    let commit := renamedUser.commit "u1" 1 (.opened .info)
    (commit.run Shared.client overtaken).1.result = .error (.conflict "u1") ∧
      ¬Refused 2 1 (.opened .info) (commit.exchanges Shared.client overtaken)
        (commit.run Shared.client overtaken).1.desk := by
  intro commit
  have hr : (commit.run Shared.client overtaken).1.result = .error (.conflict "u1") := by
    decide +kernel
  refine ⟨hr, fun h => absurd h.made ?_⟩
  decide +kernel

end Docket.Commit
