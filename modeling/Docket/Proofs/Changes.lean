import Docket.Proofs.Assembly
import Docket.Proofs.DirtyBits

/-!
# What was done to a record

A record is changed by putting values, by position or by name, by taking them, and by
setting and clearing its marks. Whatever was done in whatever order, in range or not,
the record shows: a position is marked if it was put or marked since the marks were
last cleared, and a slot holds what was last put there, or null where nothing was or
where it was taken since. One lemma a property says what a single change does; the
others follow along the list of changes.
-/
namespace Docket

/-- What can be done to a record. -/
inductive Change where
  | put (position : Nat) (value : Datum)
  | putNamed (name : String) (value : Datum)
  | take (position : Nat)
  | setDirty (position : Nat)
  | clearDirty
  | setNew (isNew : Bool)
  | markClean

namespace Change

/-- What the change leaves in the slot of a position, if it writes there. -/
def written? (schema : RecordSchema) (position : Nat) : Change → Option Datum
  | .put other value => if other = position then some value else none
  | .putNamed name value => if schema.position? name = some position then some value else none
  | .take other => if other = position then some .null else none
  | _ => none

/-- The change puts or marks the position. -/
def Marks (schema : RecordSchema) (position : Nat) : Change → Prop
  | .put other _ | .setDirty other => other = position
  | .putNamed name _ => schema.position? name = some position
  | _ => False

/-- The change clears all marks. -/
def Clears : Change → Prop
  | .clearDirty | .markClean => True
  | _ => False

/-- What the change says about whether the record was ever stored. -/
def novelty? : Change → Option Bool
  | .setNew isNew => some isNew
  | .markClean => some false
  | _ => none

/-- The position was put or marked, and the marks were not cleared since. -/
def MarkedSince (schema : RecordSchema) (position : Nat) (changes : List Change) : Prop :=
  ∃ before change after, changes = before ++ change :: after ∧ change.Marks schema position ∧
    ∀ later ∈ after, ¬later.Clears

theorem not_markedSince_nil (schema : RecordSchema) (position : Nat) : ¬MarkedSince schema position [] := by
  rintro ⟨before, change, after, h, -, -⟩
  exact absurd h.symm (by simp)

theorem markedSince_concat {schema : RecordSchema} {position : Nat} {changes : List Change} {last : Change} :
    MarkedSince schema position (changes ++ [last]) ↔
      last.Marks schema position ∨ MarkedSince schema position changes ∧ ¬last.Clears := by
  constructor
  · rintro ⟨before, change, after, h, hm, hc⟩
    rcases List.eq_nil_or_concat' after with rfl | ⟨after, final, rfl⟩
    · obtain ⟨-, hlast⟩ := List.append_inj' h rfl
      obtain rfl := (List.cons.inj hlast).1
      exact .inl hm
    · rw [← List.cons_append, ← List.append_assoc] at h
      obtain ⟨rfl, hlast⟩ := List.append_inj' h rfl
      obtain rfl := (List.cons.inj hlast).1
      obtain ⟨hafter, hfinal⟩ := List.forall_mem_append.1 hc
      exact .inr ⟨⟨before, change, after, rfl, hm, hafter⟩, hfinal last (List.mem_singleton_self last)⟩
  · rintro (hm | ⟨⟨before, change, after, rfl, hm, hc⟩, hlast⟩)
    · exact ⟨changes, last, [], rfl, hm, fun _ h => absurd h List.not_mem_nil⟩
    · refine ⟨before, change, after ++ [last], by simp, hm, List.forall_mem_append.2 ⟨hc, ?_⟩⟩
      exact List.forall_mem_singleton.2 hlast

/-- The last that the changes write at a position, if any of them writes there. -/
def lastWritten? (schema : RecordSchema) (position : Nat) (changes : List Change) : Option Datum :=
  (changes.filterMap (written? schema position)).getLast?

theorem lastWritten?_concat (schema : RecordSchema) (position : Nat) (changes : List Change) (last : Change) :
    lastWritten? schema position (changes ++ [last]) =
      (last.written? schema position).or (lastWritten? schema position changes) := by
  rw [lastWritten?, lastWritten?, List.filterMap_append, List.getLast?_append]
  cases h : last.written? schema position <;> simp [h]

def lastNovelty? (changes : List Change) : Option Bool :=
  (changes.filterMap novelty?).getLast?

theorem lastNovelty?_concat (changes : List Change) (last : Change) :
    lastNovelty? (changes ++ [last]) = last.novelty?.or (lastNovelty? changes) := by
  rw [lastNovelty?, lastNovelty?, List.filterMap_append, List.getLast?_append]
  cases h : last.novelty? <;> simp [h]

end Change

namespace Record

open Change (MarkedSince lastWritten? lastNovelty?)

variable {r : Record}

/-- A change to a record; a value for an unknown name is refused and changes nothing. -/
def apply (r : Record) : Change → Record
  | .put position value => r.put position value
  | .putNamed name value =>
      match r.putNamed name value with
      | .ok later => later
      | .error _ => r
  | .take position => (r.take position).2
  | .setDirty position => r.setDirty position
  | .clearDirty => r.clearDirty
  | .setNew isNew => r.setNew isNew
  | .markClean => r.markClean

/-- All the changes, one after the other. -/
def after (r : Record) (changes : List Change) : Record :=
  changes.foldl apply r

theorem after_concat (r : Record) (changes : List Change) (last : Change) :
    r.after (changes ++ [last]) = (r.after changes).apply last := by
  rw [after, List.foldl_append]
  rfl

theorem schema_apply (r : Record) (change : Change) : (r.apply change).schema = r.schema := by
  cases change with
  | put position value => exact schema_put r position value
  | putNamed name value =>
      rw [apply, putNamed]
      cases r.schema.position? name with
      | some position => exact schema_put r position value
      | none => rfl
  | _ => rfl

theorem schema_after (schema : RecordSchema) (changes : List Change) :
    ((fresh schema).after changes).schema = schema := by
  induction changes using List.reverseRecOn with
  | nil => rfl
  | append_singleton changes last ih => rw [after_concat, schema_apply, ih]

/-! ### The slots -/

theorem get?_setValue_self {position : Nat} (hp : position < r.schema.size) (value : Datum) :
    (r.setValue position value).get? position = some value :=
  List.getElem?_set_self (by rw [r.values_length]; exact hp)

theorem get?_apply (change : Change) {position : Nat} (hp : position < r.schema.size) :
    (r.apply change).get? position = (change.written? r.schema position).or (r.get? position) := by
  have hput : ∀ other value, (r.put other value).get? position =
      (if other = position then some value else none).or (r.get? position) := by
    intro other value
    split
    · rename_i he
      rw [he, get?_put_self hp]
      rfl
    · rename_i hne
      exact get?_put_of_ne r (Ne.symm hne) value
  cases change with
  | put other value => exact hput other value
  | putNamed name value =>
      rw [apply, putNamed, Change.written?]
      cases r.schema.position? name with
      | some other => simpa only [Option.some.injEq] using hput other value
      | none => rfl
  | take other =>
      rw [Change.written?]
      split
      · rename_i he
        subst he
        exact get?_setValue_self hp .null
      · rename_i hne
        exact get?_setValue_of_ne r (Ne.symm hne) .null
  | _ => rfl

/-! ### The marks -/

theorem isDirtyAt_setDirty (r : Record) (position other : Nat) : (r.setDirty position).isDirtyAt other =
    (decide (position < r.schema.size ∧ position = other) || r.isDirtyAt other) := by
  rw [← r.dirty_length]
  exact DirtyBits.get_set r.dirty position other

theorem isDirtyAt_put (r : Record) (position : Nat) (value : Datum) (other : Nat) :
    (r.put position value).isDirtyAt other =
      (decide (position < r.schema.size ∧ position = other) || r.isDirtyAt other) := by
  unfold put
  split
  · exact isDirtyAt_setDirty (r.setValue position value) position other
  · rename_i hp
    rw [r.values_length] at hp
    rw [decide_eq_false (fun h => hp h.1), Bool.false_or]

theorem lt_of_isDirtyAt {position : Nat} (h : r.isDirtyAt position = true) : position < r.schema.size := by
  rw [isDirtyAt, DirtyBits.get_eq_and, r.dirty_length] at h
  exact of_decide_eq_true (Bool.and_eq_true_iff.1 h).1

/-- What adds a position to the marks, said of positions in range. -/
theorem marked_iff {position other : Nat} : (decide (position < r.schema.size ∧ position = other) ||
    r.isDirtyAt other) = true ↔ other < r.schema.size ∧ (position = other ∨ r.isDirtyAt other = true) := by
  rw [Bool.or_eq_true, decide_eq_true_iff]
  constructor
  · rintro (⟨hp, rfl⟩ | hd)
    · exact ⟨hp, .inl rfl⟩
    · exact ⟨lt_of_isDirtyAt hd, .inr hd⟩
  · rintro ⟨hp, rfl | hd⟩
    · exact .inl ⟨hp, rfl⟩
    · exact .inr hd

theorem isDirtyAt_clearDirty (r : Record) (position : Nat) : r.clearDirty.isDirtyAt position = false :=
  DirtyBits.get_clear r.dirty position

theorem isDirtyAt_apply (change : Change) (position : Nat) : (r.apply change).isDirtyAt position = true ↔
    position < r.schema.size ∧
      (change.Marks r.schema position ∨ r.isDirtyAt position = true ∧ ¬change.Clears) := by
  -- a change that neither marks nor clears leaves the marks as they are
  have hkept : r.isDirtyAt position = true ↔
      position < r.schema.size ∧ (False ∨ r.isDirtyAt position = true ∧ ¬False) := by
    simpa using fun h => lt_of_isDirtyAt h
  have hcleared : r.clearDirty.isDirtyAt position = true ↔
      position < r.schema.size ∧ (False ∨ r.isDirtyAt position = true ∧ ¬True) := by
    simp [isDirtyAt_clearDirty]
  cases change with
  | put other value =>
      rw [apply, isDirtyAt_put, marked_iff]
      simp [Change.Marks, Change.Clears]
  | putNamed name value =>
      rw [apply, putNamed]
      cases hn : r.schema.position? name with
      | some other =>
          dsimp only
          rw [isDirtyAt_put, marked_iff]
          simp [Change.Marks, Change.Clears, hn]
      | none => simpa [Change.Marks, Change.Clears, hn] using fun h => lt_of_isDirtyAt h
  | setDirty other =>
      rw [apply, isDirtyAt_setDirty, marked_iff]
      simp [Change.Marks, Change.Clears]
  | take _ => exact hkept
  | setNew _ => exact hkept
  | clearDirty => exact hcleared
  | markClean => exact hcleared

theorem made_apply (h : r.dirty.Made) (change : Change) : (r.apply change).dirty.Made := by
  have hput : ∀ position value, (r.put position value).dirty.Made := by
    intro position value
    unfold put
    split
    · exact h.set position
    · exact h
  cases change with
  | put position value => exact hput position value
  | putNamed name value =>
      rw [apply, putNamed]
      cases r.schema.position? name with
      | some position => exact hput position value
      | none => exact h
  | setDirty position => exact h.set position
  | clearDirty => exact h.clear
  | markClean => exact h.clear
  | take _ => exact h
  | setNew _ => exact h

theorem isNew_apply (change : Change) : some (r.apply change).isNew = change.novelty?.or (some r.isNew) := by
  have hput : ∀ position value, (r.put position value).isNew = r.isNew := by
    intro position value
    unfold put
    split <;> rfl
  cases change with
  | put position value => exact congrArg some (hput position value)
  | putNamed name value =>
      rw [apply, putNamed]
      cases r.schema.position? name with
      | some position => exact congrArg some (hput position value)
      | none => rfl
  | _ => rfl

/-! ### All changes -/

/-- The record tells what was done to a fresh one of the schema. -/
structure Recounts (r : Record) (schema : RecordSchema) (changes : List Change) : Prop where
  /-- A position is marked if it is one, and was put or marked since the last clearing. -/
  dirty : ∀ position, r.isDirtyAt position = true ↔ position < schema.size ∧ MarkedSince schema position changes
  positions : ∀ position, position ∈ r.dirty.positions ↔ r.isDirtyAt position = true
  ascending : r.dirty.positions.Pairwise (· < ·)
  count : r.dirty.count = r.dirty.positions.length
  any : r.isDirty = true ↔ ∃ position, r.isDirtyAt position = true
  /-- Cleared now, the marks are those of a new record. -/
  cleared : r.clearDirty.dirty = .clean schema.size ∧ r.markClean.dirty = .clean schema.size
  size : r.values.length = schema.size
  /-- A slot holds what was last written there, or null. -/
  values : ∀ position, position < schema.size →
    r.get? position = some ((lastWritten? schema position changes).getD .null)
  isNew : r.isNew = (lastNovelty? changes).getD true

theorem made_after (schema : RecordSchema) (changes : List Change) : ((fresh schema).after changes).dirty.Made := by
  induction changes using List.reverseRecOn with
  | nil => exact .clean schema.size
  | append_singleton changes last ih =>
      rw [after_concat]
      exact made_apply ih last

theorem isDirtyAt_after (schema : RecordSchema) (changes : List Change) (position : Nat) :
    ((fresh schema).after changes).isDirtyAt position = true ↔
      position < schema.size ∧ MarkedSince schema position changes := by
  induction changes using List.reverseRecOn with
  | nil =>
      have hn := Change.not_markedSince_nil schema position
      rw [show ((fresh schema).after []).isDirtyAt position = false from DirtyBits.get_clean schema.size position]
      simp [hn]
  | append_singleton changes last ih =>
      rw [after_concat, isDirtyAt_apply, ih, schema_after, Change.markedSince_concat]
      exact and_congr_right fun hp => by rw [and_iff_right hp]

theorem get?_after (schema : RecordSchema) (changes : List Change) {position : Nat} (hp : position < schema.size) :
    ((fresh schema).after changes).get? position = some ((lastWritten? schema position changes).getD .null) := by
  induction changes using List.reverseRecOn with
  | nil => exact get?_fresh hp
  | append_singleton changes last ih =>
      rw [after_concat, get?_apply last (by rw [schema_after]; exact hp), schema_after, ih,
        Change.lastWritten?_concat]
      cases last.written? schema position <;> rfl

theorem isNew_after (schema : RecordSchema) (changes : List Change) :
    ((fresh schema).after changes).isNew = (lastNovelty? changes).getD true := by
  induction changes using List.reverseRecOn with
  | nil => rfl
  | append_singleton changes last ih =>
      refine Option.some.inj ?_
      rw [after_concat, isNew_apply, ih, Change.lastNovelty?_concat]
      cases last.novelty? <;> rfl

/-- Whatever was done to a fresh record, its marks are the set of the positions that were
put or marked since the last clearing and its slots hold what was last put there. Bit
sets of one length are equal when they mark the same positions. -/
theorem recounts_after (schema : RecordSchema) (changes : List Change) :
    ((fresh schema).after changes).Recounts schema changes ∧
      ((fresh schema).after changes).dirty.Made ∧
      (∀ d : DirtyBits, d.clear = .clean d.length) ∧
      ∀ d e : DirtyBits, d.Made → e.Made → d.length = e.length →
        (d = e ↔ ∀ position, d.get position = e.get position) := by
  have made := made_after schema changes
  have hs : ((fresh schema).after changes).schema = schema := schema_after schema changes
  have hsize : ((fresh schema).after changes).dirty.length = schema.size := by rw [Record.dirty_length, hs]
  have hcleared : ((fresh schema).after changes).dirty.clear = .clean schema.size := by
    rw [DirtyBits.clear_eq_clean, hsize]
  refine ⟨?_, made, DirtyBits.clear_eq_clean, fun d e hd he hl => hd.eq_iff he hl⟩
  exact
    { dirty := isDirtyAt_after schema changes
      positions := fun _ => DirtyBits.mem_positions
      ascending := DirtyBits.pairwise_positions _
      count := made.count_eq
      any := made.any_iff
      cleared := ⟨hcleared, hcleared⟩
      size := by rw [Record.values_length, hs]
      values := fun _ hp => get?_after schema changes hp
      isNew := isNew_after schema changes }

end Record

end Docket
