import Docket.Journal.Line
import Docket.Proofs.Json.Texts

/-!
# A line says what was logged

A line is one line, and is read as an object that holds the event and its severity and
after them the fields, whatever characters the event, the keys and the values hold. So
no field can pass for another one, for a second event or for a line of its own. The two
leading names are borne by the two leading entries alone.
-/
namespace Docket

variable {α : Type}

/-- The entries in key order; those of one key keep their order. -/
structure StablySorted (entries sorted : List (String × α)) : Prop where
  perm : sorted.Perm entries
  ordered : sorted.Pairwise fun a b => a.1 ≤ b.1
  stable : ∀ key, sorted.filter (·.1 = key) = entries.filter (·.1 = key)

namespace LogEntry

theorem stablySorted_sortedFields (e : LogEntry) : StablySorted e.fields e.sortedFields := by
  have trans : ∀ a b c : String × String, decide (a.1 ≤ b.1) = true → decide (b.1 ≤ c.1) = true →
      decide (a.1 ≤ c.1) = true := by
    intro a b c hab hbc
    exact decide_eq_true (String.le_trans (of_decide_eq_true hab) (of_decide_eq_true hbc))
  have total : ∀ a b : String × String, (decide (a.1 ≤ b.1) || decide (b.1 ≤ a.1)) = true := by
    intro a b
    rw [Bool.or_eq_true, decide_eq_true_eq, decide_eq_true_eq]
    exact String.le_total a.1 b.1
  have perm : e.sortedFields.Perm e.fields := List.mergeSort_perm _ _
  refine ⟨perm, ?_, fun key => ?_⟩
  · exact (List.pairwise_mergeSort trans total e.fields).imp of_decide_eq_true
  · -- the fields of one key are in order as they are, so they stay a sublist
    have hone : (e.fields.filter (·.1 = key)).Pairwise fun a b => decide (a.1 ≤ b.1) = true := by
      refine List.pairwise_of_forall_mem_list fun a ha b hb => ?_
      have hak : a.1 = key := of_decide_eq_true (List.mem_filter.1 ha).2
      have hbk : b.1 = key := of_decide_eq_true (List.mem_filter.1 hb).2
      rw [hak, hbk]
      exact decide_eq_true (String.le_refl key)
    have hsub := List.sublist_mergeSort trans total hone List.filter_sublist
    have hkeep := hsub.filter (·.1 = key)
    rw [List.filter_filter] at hkeep
    simp only [Bool.and_self] at hkeep
    exact (hkeep.eq_of_length (perm.filter _).length_eq.symm).symm

/-- The name under which a field is written. -/
def shownKey : String → String
  | "event" => "field_event"
  | "severity" => "field_severity"
  | key => key

theorem writtenKey_eq_shownKey (key : String) : writtenKey key = shownKey key := by
  unfold shownKey
  split
  · rfl
  · rfl
  · rename_i hevent hseverity
    have hfree : key ∉ reservedKeys := by
      simp only [reservedKeys, List.mem_cons, List.not_mem_nil, or_false, not_or]
      exact ⟨hevent, hseverity⟩
    exact if_neg hfree

theorem shownKey_of_not_mem {key : String} (h : key ∉ reservedKeys) : shownKey key = key := by
  rw [← writtenKey_eq_shownKey]
  exact if_neg h

/-- No field is written under a leading name. -/
theorem shownKey_not_mem_reservedKeys (key : String) : shownKey key ∉ reservedKeys := by
  by_cases h : key ∈ reservedKeys
  · have all : ∀ key ∈ reservedKeys, shownKey key ∉ reservedKeys := by decide
    exact all key h
  · rwa [shownKey_of_not_mem h]

/-- The entries of the object that a line is the text of. -/
def contents (e : LogEntry) : List (String × Json) :=
  e.pairs.map fun pair => (pair.1, .string pair.2)

theorem contents_eq (e : LogEntry) : e.contents = ("event", .string e.event) :: ("severity", .string e.severity.name) ::
    e.sortedFields.map fun field => (shownKey field.1, .string field.2) := by
  simp [contents, pairs, writtenKey_eq_shownKey, Function.comp_def]

theorem integral_contents (e : LogEntry) : (Json.object e.contents).Integral := by
  rw [Json.integral_object]
  intro field hf
  obtain ⟨pair, -, rfl⟩ := List.mem_map.1 hf
  exact .string pair.2

theorem read?_line (e : LogEntry) : Json.read? e.line = some (.object e.contents) := by
  have hbreak : ∀ c ∈ "\n".toList, Json.isBlank c = true := List.forall_mem_singleton.2 rfl
  exact Json.read?_text_append e.integral_contents (fun _ h => by cases h) hbreak

theorem keys_contents (e : LogEntry) :
    e.contents.map Prod.fst = reservedKeys ++ (e.sortedFields.map Prod.fst).map shownKey := by
  rw [contents_eq, List.map_cons, List.map_cons, List.map_map, List.map_map]
  rfl

theorem not_mem_map_shownKey {key : String} (hk : key ∈ reservedKeys) (keys : List String) :
    key ∉ keys.map shownKey := by
  intro hm
  obtain ⟨field, -, rfl⟩ := List.mem_map.1 hm
  exact shownKey_not_mem_reservedKeys field hk

theorem count_keys_contents (e : LogEntry) {key : String} (hk : key ∈ reservedKeys) :
    (e.contents.map Prod.fst).count key = 1 := by
  have hleading : ∀ key ∈ reservedKeys, reservedKeys.count key = 1 := by decide
  rw [keys_contents, List.count_append, hleading key hk, List.count_eq_zero.2 (not_mem_map_shownKey hk _)]

/-- Whatever an entry holds, its line ends with its only line break, and is read as the
object of the event, the severity and the fields in the order of their keys, fields of
one key as they came. The values are as they were, and so are the keys, but for the two
leading names, which no field is written under. -/
theorem line_unforged (e : LogEntry) :
    (∃ text : String, e.line = text ++ "\n" ∧ '\n' ∉ text.toList) ∧
      ∃ fields entries, StablySorted e.fields fields ∧
        entries = ("event", Json.string e.event) :: ("severity", .string e.severity.name) ::
          fields.map (fun field => (shownKey field.1, .string field.2)) ∧
        Json.read? e.line = some (.object entries) ∧
        ∀ key ∈ ["event", "severity"], (entries.map Prod.fst).count key = 1 := by
  refine ⟨⟨_, rfl, Json.newline_not_mem_text e.integral_contents⟩, ?_⟩
  refine ⟨e.sortedFields, e.contents, e.stablySorted_sortedFields, e.contents_eq, e.read?_line, ?_⟩
  exact fun key hk => e.count_keys_contents hk

end LogEntry

end Docket
