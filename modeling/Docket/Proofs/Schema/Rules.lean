import Docket.Proofs.Parts
import Docket.Schema.Sound

/-!
# The check of a schema reaches every depth

A check does not enter the records of a schema. Where each of them was made of
fields that passed the check of records, nothing below is left unchecked: a schema
passes its check when it keeps the rules at every depth, and only then.
-/
namespace Docket.Schema

variable {s : Schema} {fields : List Field} {branches : List Schema}

theorem checkSymbols_eq_ok_iff {name : String} {seen symbols : List String} :
    checkSymbols name seen symbols = .ok () ↔ symbols.Nodup ∧ ∀ symbol ∈ symbols, symbol ∉ seen := by
  induction symbols generalizing seen with
  | nil => simp [checkSymbols]
  | cons symbol rest ih =>
      rw [checkSymbols, List.nodup_cons, List.forall_mem_cons]
      split
      · rename_i hs
        exact iff_of_false (by simp) fun h => h.2.1 hs
      · rename_i hs
        simp only [ih, List.mem_cons, not_or]
        constructor
        · rintro ⟨hd, hn⟩
          exact ⟨⟨fun hm => (hn symbol hm).1 rfl, hd⟩, hs, fun other ho => (hn other ho).2⟩
        · rintro ⟨⟨hm, hd⟩, -, hn⟩
          exact ⟨hd, fun other ho => ⟨fun he => hm (he ▸ ho), hn other ho⟩⟩

theorem checkBranches_eq_ok_iff :
    checkBranches branches = .ok () ↔ ∀ branch ∈ branches, branch.kind ≠ .union ∧ branch.check = .ok () := by
  induction branches with
  | nil => simp [checkBranches]
  | cons branch rest ih =>
      rw [checkBranches, List.forall_mem_cons, ← ih]
      by_cases hk : branch.kind = .union
      · simp [hk]
      · cases hc : branch.check <;> simp [hk]

/-- A record that passes its check has no field whose schema would not pass. -/
theorem check_of_checkFields {record : String} {seen : List String} (h : checkFields record seen fields = .ok ()) :
    ∀ field ∈ fields, field.schema.check = .ok () := by
  induction fields generalizing seen with
  | nil => exact fun _ hm => absurd hm List.not_mem_nil
  | cons field rest ih =>
      rw [checkFields] at h
      split at h
      · cases h
      · rename_i hc
        split at h
        · cases h
        · exact List.forall_mem_cons.2 ⟨hc, ih h⟩

/-- The schema itself, if it is a record, is made of fields that passed their check. -/
def BuiltHere : Schema → Prop
  | record name fields => checkFields name [] fields = .ok ()
  | _ => True

theorem built_iff : s.Built ↔ Everywhere BuiltHere s := by
  constructor
  · intro h part hp
    cases part with
    | record name fields => exact h name fields hp
    | _ => exact trivial
  · intro h name fields hp
    exact h (.record name fields) hp

instance : DecidablePred BuiltHere
  | record name fields =>
      match h : checkFields name [] fields with
      | .ok () => isTrue h
      | .error _ => isFalse fun hb => nomatch h.symm.trans hb
  | null | boolean | int | long | float | double | string | bytes | enum _ _ | fixed _ _ | array _ | map _
  | union _ => isTrue trivial

instance : DecidablePred Built := fun _ =>
  decidable_of_iff _ built_iff.symm

theorem Built.child {child : Schema} (h : s.Built) (hc : child ∈ s.children) : child.Built :=
  built_iff.2 ((built_iff.1 h).child hc)

theorem sound_iff : s.Sound ↔ s.KeepsRules ∧ ∀ child ∈ s.children, child.Sound :=
  everywhere_iff

theorem Sound.child {child : Schema} (h : s.Sound) (hc : child ∈ s.children) : child.Sound :=
  (sound_iff.1 h).2 child hc

theorem sound_of_children_eq_nil (hr : s.KeepsRules) (hc : s.children = []) : s.Sound :=
  (everywhere_scalar hc).2 hr

/-- The check of a schema whose records were checked when they were made. -/
theorem check_eq_ok_iff (hb : s.Built) : s.check = .ok () ↔ s.Sound := by
  induction s using children_induction with
  | step s ih =>
    have below : ∀ child ∈ s.children, child.check = .ok () ↔ child.Sound :=
      fun child hc => ih child hc (hb.child hc)
    cases s with
    | enum name symbols =>
        have hc : (enum name symbols).check = .ok () ↔ (enum name symbols).KeepsRules := by
          cases symbols with
          | nil => simp [check, KeepsRules]
          | cons symbol rest => simp [check, KeepsRules, checkSymbols_eq_ok_iff]
        exact hc.trans (everywhere_scalar rfl).symm
    | array items =>
        rw [check, sound_iff, below items (List.mem_singleton_self _)]
        simp [KeepsRules, children]
    | map values =>
        rw [check, sound_iff, below values (List.mem_singleton_self _)]
        simp [KeepsRules, children]
    | record name fields =>
        refine iff_of_true rfl (sound_iff.2 ⟨trivial, fun child hc => (below child hc).1 ?_⟩)
        obtain ⟨field, hf, rfl⟩ := List.mem_map.1 hc
        exact check_of_checkFields (hb name fields (.self _)) field hf
    | union branches =>
        have hc : (union branches).check = .ok () ↔ (union branches).KeepsRules ∧
            ∀ branch ∈ branches, branch.check = .ok () := by
          rw [check, KeepsRules]
          split
          · rename_i hl
            exact iff_of_false (by simp) fun h => absurd h.1.1 (Nat.not_le.2 hl)
          · split
            · rename_i hn
              exact iff_of_false (by simp) fun h => absurd h.1.2.1 (Nat.not_le.2 hn)
            · rename_i hl hn
              simp [checkBranches_eq_ok_iff, Nat.not_lt.1 hl, Nat.not_lt.1 hn, forall_and]
        rw [hc, sound_iff]
        exact and_congr_right fun _ => forall₂_congr below
    | _ => exact iff_of_true rfl (sound_of_children_eq_nil trivial rfl)

end Docket.Schema
