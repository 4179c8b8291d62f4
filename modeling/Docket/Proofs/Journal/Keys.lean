import Docket.Proofs.Journal.Line
import Docket.Proofs.Keyed

/-!
# The keys of a line

Fields are brought into the order of their keys, and only then is one that bears a
leading name given another name. So keys that differ may be written alike, and the keys
as they are written need not ascend. Both come about in one way only: a field bears a
leading name, and the key of another one is the new name, or lies between the two.
-/
namespace Docket.LogEntry

/-- The keys of the fields, as they came. -/
def fieldKeys (e : LogEntry) : List String :=
  e.fields.map Prod.fst

/-- A field is written under the key of another one. -/
def Clashing (keys : List String) : Prop :=
  ∃ key ∈ reservedKeys, key ∈ keys ∧ shownKey key ∈ keys

instance (keys : List String) : Decidable (Clashing keys) :=
  inferInstanceAs (Decidable (∃ key ∈ reservedKeys, key ∈ keys ∧ shownKey key ∈ keys))

/-- The key lies between two others. -/
def Between (key a b : String) : Prop :=
  (a < key ∧ key < b) ∨ (b < key ∧ key < a)

instance (key a b : String) : Decidable (Between key a b) :=
  inferInstanceAs (Decidable ((a < key ∧ key < b) ∨ (b < key ∧ key < a)))

/-- A field is written away from its place: some key lies between the one it has and the
one it is written under. -/
def Displaced (keys : List String) : Prop :=
  ∃ key ∈ reservedKeys, key ∈ keys ∧ ∃ other ∈ keys, Between other key (shownKey key)

instance (keys : List String) : Decidable (Displaced keys) :=
  inferInstanceAs (Decidable (∃ key ∈ reservedKeys, key ∈ keys ∧ ∃ other ∈ keys, Between other key (shownKey key)))

/-- A name that is written instead of a leading one is written as it is. -/
theorem shownKey_shownKey (key : String) : shownKey (shownKey key) = shownKey key :=
  shownKey_of_not_mem (shownKey_not_mem_reservedKeys key)

theorem shownKey_ne_of_mem {key : String} (h : key ∈ reservedKeys) : shownKey key ≠ key := by
  have all : ∀ key ∈ reservedKeys, shownKey key ≠ key := by decide
  exact all key h

/-! ### Keys that differ -/

theorem nodup_map_shownKey_iff {keys : List String} (hd : keys.Nodup) :
    (keys.map shownKey).Nodup ↔ ¬Clashing keys := by
  rw [List.nodup_map_iff_inj_on hd]
  constructor
  · rintro h ⟨key, hr, hk, hs⟩
    exact shownKey_ne_of_mem hr (h (shownKey key) hs key hk (shownKey_shownKey key))
  · intro hc a ha b hb hab
    by_cases hra : a ∈ reservedKeys
    · by_cases hrb : b ∈ reservedKeys
      · have all : ∀ a ∈ reservedKeys, ∀ b ∈ reservedKeys, shownKey a = shownKey b → a = b := by decide
        exact all a hra b hrb hab
      · rw [shownKey_of_not_mem hrb] at hab
        exact absurd ⟨a, hra, ha, hab ▸ hb⟩ hc
    · by_cases hrb : b ∈ reservedKeys
      · rw [shownKey_of_not_mem hra] at hab
        exact absurd ⟨b, hrb, hb, hab ▸ ha⟩ hc
      · rwa [shownKey_of_not_mem hra, shownKey_of_not_mem hrb] at hab

/-! ### Keys in order -/

/-- Keys that ascend are related one to the next ones as any two of them are, the lesser first. -/
theorem pairwise_iff_of_ascending {R : String → String → Prop} {keys : List String} (hs : keys.Pairwise (· < ·)) :
    keys.Pairwise R ↔ ∀ a ∈ keys, ∀ b ∈ keys, a < b → R a b := by
  induction keys with
  | nil => simp
  | cons key keys ih =>
      obtain ⟨habove, htail⟩ := List.pairwise_cons.1 hs
      rw [List.pairwise_cons, ih htail]
      constructor
      · rintro ⟨hfirst, hothers⟩ a ha b hb hlt
        rcases List.mem_cons.1 ha with rfl | hka
        · rcases List.mem_cons.1 hb with rfl | hkb
          · exact absurd hlt (String.lt_irrefl _)
          · exact hfirst b hkb
        · rcases List.mem_cons.1 hb with rfl | hkb
          · exact absurd hlt (String.lt_asymm (habove a hka))
          · exact hothers a hka b hkb hlt
      · intro h
        exact ⟨fun b hb => h key List.mem_cons_self b (List.mem_cons_of_mem _ hb) (habove b hb),
          fun a ha b hb => h a (List.mem_cons_of_mem _ ha) b (List.mem_cons_of_mem _ hb)⟩

theorem le_iff_not_between_of_lt {a b s : String} (h : a < b) : s ≤ b ↔ ¬Between b a s := by
  rw [← String.not_lt, not_iff_not]
  exact ⟨fun hs => .inl ⟨h, hs⟩, fun hb => hb.elim And.right fun hb => absurd h (String.lt_asymm hb.2)⟩

theorem le_iff_not_between_of_gt {a b s : String} (h : b < a) : b ≤ s ↔ ¬Between b a s := by
  rw [← String.not_lt, not_iff_not]
  exact ⟨fun hs => .inr ⟨hs, h⟩, fun hb => hb.elim (fun hb => absurd h (String.lt_asymm hb.1)) And.left⟩

/-- Two keys are written in their order, unless one of them is a leading name and the
other one lies between that and what is written instead. -/
theorem shownKey_le_iff {a b : String} (hlt : a < b) : shownKey a ≤ shownKey b ↔
    ¬(a ∈ reservedKeys ∧ Between b a (shownKey a)) ∧ ¬(b ∈ reservedKeys ∧ Between a b (shownKey b)) := by
  by_cases ha : a ∈ reservedKeys
  · by_cases hb : b ∈ reservedKeys
    · have all : ∀ a ∈ reservedKeys, ∀ b ∈ reservedKeys, a < b → (shownKey a ≤ shownKey b ↔
          ¬(a ∈ reservedKeys ∧ Between b a (shownKey a)) ∧ ¬(b ∈ reservedKeys ∧ Between a b (shownKey b))) := by
        decide
      exact all a ha b hb hlt
    · rw [shownKey_of_not_mem hb, le_iff_not_between_of_lt hlt]
      simp [ha, hb]
  · by_cases hb : b ∈ reservedKeys
    · rw [shownKey_of_not_mem ha, le_iff_not_between_of_gt hlt]
      simp [ha, hb]
    · rw [shownKey_of_not_mem ha, shownKey_of_not_mem hb]
      simp [ha, hb, String.not_lt.1 (String.lt_asymm hlt)]

theorem pairwise_map_shownKey_iff {keys : List String} (hs : keys.Pairwise (· < ·)) :
    (keys.map shownKey).Pairwise (· ≤ ·) ↔ ¬Displaced keys := by
  rw [List.pairwise_map, pairwise_iff_of_ascending hs]
  constructor
  · rintro h ⟨key, hr, hk, other, ho, hbetween⟩
    obtain hlt | hlt : key < other ∨ other < key := hbetween.imp And.left And.right
    · exact ((shownKey_le_iff hlt).1 (h key hk other ho hlt)).1 ⟨hr, hbetween⟩
    · exact ((shownKey_le_iff hlt).1 (h other ho key hk hlt)).2 ⟨hr, hbetween⟩
  · intro hd a ha b hb hlt
    refine (shownKey_le_iff hlt).2 ⟨fun h => hd ?_, fun h => hd ?_⟩
    · exact ⟨a, h.1, ha, b, hb, h.2⟩
    · exact ⟨b, h.1, hb, a, ha, h.2⟩

/-! ### The line -/

theorem Clashing.congr {keys others : List String} (h : ∀ key, key ∈ keys ↔ key ∈ others) :
    Clashing keys ↔ Clashing others := by
  simp only [Clashing, h]

theorem Displaced.congr {keys others : List String} (h : ∀ key, key ∈ keys ↔ key ∈ others) :
    Displaced keys ↔ Displaced others := by
  simp only [Displaced, h]

/-- The keys of the fields in order. -/
def sortedKeys (e : LogEntry) : List String :=
  e.sortedFields.map Prod.fst

theorem perm_sortedKeys (e : LogEntry) : e.sortedKeys.Perm e.fieldKeys :=
  e.stablySorted_sortedFields.perm.map Prod.fst

/-- Keys that differ ascend once they are in order. -/
theorem pairwise_sortedKeys {e : LogEntry} (hd : e.fieldKeys.Nodup) : e.sortedKeys.Pairwise (· < ·) := by
  have hle : e.sortedKeys.Pairwise (· ≤ ·) := List.pairwise_map.2 e.stablySorted_sortedFields.ordered
  have hne : e.sortedKeys.Pairwise (· ≠ ·) := e.perm_sortedKeys.nodup_iff.2 hd
  exact hle.imp₂ (fun a b hab hn => String.not_le.1 fun hba => hn (String.le_antisymm hab hba)) hne

theorem nodup_keys_contents_iff {e : LogEntry} (hd : e.fieldKeys.Nodup) :
    (e.contents.map Prod.fst).Nodup ↔ ¬Clashing e.fieldKeys := by
  have hleading : reservedKeys.Nodup := by decide
  have happart : reservedKeys.Disjoint (e.sortedKeys.map shownKey) := fun key hk hm =>
    not_mem_map_shownKey hk e.sortedKeys hm
  rw [keys_contents, List.nodup_append', ← sortedKeys, nodup_map_shownKey_iff (e.perm_sortedKeys.nodup_iff.2 hd),
    Clashing.congr fun key => e.perm_sortedKeys.mem_iff]
  exact ⟨fun h => h.2.1, fun h => ⟨hleading, h, happart⟩⟩

/-- The values of a line are strings, so bringing the line into key order moves its entries alone. -/
theorem sorted_contents (e : LogEntry) : (Json.object e.contents).sorted = .object (Keyed.ofList e.contents).entries := by
  have hstrings : ∀ pairs : List (String × String),
      Json.sortedFields (pairs.map fun pair => (pair.1, .string pair.2)) =
        pairs.map fun pair => (pair.1, Json.string pair.2) := by
    intro pairs
    induction pairs with
    | nil => rfl
    | cons pair pairs ih => simp [Json.sortedFields, Json.sorted, ih]
  rw [Json.sorted, contents, hstrings]
  rfl

theorem length_contents (e : LogEntry) : e.contents.length = e.fields.length + 2 := by
  rw [contents_eq, List.length_cons, List.length_cons, List.length_map, e.stablySorted_sortedFields.perm.length_eq]

/-- Of fields whose keys differ, the line has keys that differ exactly if none of them is
written under the key of another one; exactly then, all entries are left to a reader that
keeps one value for a key, the last. The keys of the fields ascend as they are written
exactly if none of them is written away from its place. -/
theorem keys_differ_and_ascend_iff {e : LogEntry} (hd : e.fieldKeys.Nodup) :
    ∃ entries keys kept, Json.read? e.line = some (.object entries) ∧
      entries.map Prod.fst = "event" :: "severity" :: keys ∧ (Json.object entries).sorted = .object kept ∧
      ((entries.map Prod.fst).Nodup ↔ ¬Clashing e.fieldKeys) ∧
      (kept.length = e.fields.length + 2 ↔ ¬Clashing e.fieldKeys) ∧
      (keys.Pairwise (· ≤ ·) ↔ ¬Displaced e.fieldKeys) := by
  refine ⟨e.contents, e.sortedKeys.map shownKey, _, e.read?_line, e.keys_contents, e.sorted_contents,
    nodup_keys_contents_iff hd, ?_, ?_⟩
  · have hkept := Keyed.size_ofList_eq_iff e.contents
    rw [length_contents] at hkept
    exact hkept.trans (nodup_keys_contents_iff hd)
  · rw [pairwise_map_shownKey_iff (pairwise_sortedKeys hd)]
    exact not_congr (Displaced.congr fun key => e.perm_sortedKeys.mem_iff)

/-- Fields with both leading names, and no key of another one in their way. -/
def agedEntry : LogEntry :=
  ⟨.output, .info, "PUT_SKIPPED", [("severity", "low"), ("zone", "7"), ("event", "x"), ("age", "36")]⟩

theorem keys_differ_and_ascend_aged :
    agedEntry.fieldKeys.Nodup ∧ ¬Clashing agedEntry.fieldKeys ∧ ¬Displaced agedEntry.fieldKeys ∧
      ∃ entries keys kept, Json.read? agedEntry.line = some (.object entries) ∧
        entries.map Prod.fst = "event" :: "severity" :: keys ∧ (Json.object entries).sorted = .object kept ∧
        (entries.map Prod.fst).Nodup ∧ kept.length = 6 ∧ keys.Pairwise (· ≤ ·) := by
  have hd : agedEntry.fieldKeys.Nodup := by decide
  have hc : ¬Clashing agedEntry.fieldKeys := by decide
  have hp : ¬Displaced agedEntry.fieldKeys := by decide
  obtain ⟨entries, keys, kept, hr, hk, hs, hdiffer, hall, hascend⟩ := keys_differ_and_ascend_iff hd
  exact ⟨hd, hc, hp, entries, keys, kept, hr, hk, hs, hdiffer.2 hc, hall.2 hc, hascend.2 hp⟩

/-- A field with a leading name, one with the name that is written instead, and one whose
key lies between the two. -/
def crossedEntry : LogEntry :=
  ⟨.output, .info, "PUT_SKIPPED", [("event", "x"), ("f", "1"), ("field_event", "y")]⟩

/-- Its line has one key twice, of which the last value is left, and keys that do not ascend. -/
theorem keys_clash_crossed :
    crossedEntry.fieldKeys.Nodup ∧
      ∃ entries keys kept, Json.read? crossedEntry.line = some (.object entries) ∧
        entries.map Prod.fst = "event" :: "severity" :: keys ∧ (Json.object entries).sorted = .object kept ∧
        keys = ["field_event", "f", "field_event"] ∧ ¬(entries.map Prod.fst).Nodup ∧ kept.length = 4 ∧
        ¬keys.Pairwise (· ≤ ·) := by
  have hordered : crossedEntry.fields.Pairwise fun a b => decide (a.1 ≤ b.1) = true := by decide
  have hsorted : crossedEntry.sortedFields = crossedEntry.fields := List.mergeSort_of_pairwise hordered
  have hkeys : crossedEntry.contents.map Prod.fst = ["event", "severity", "field_event", "f", "field_event"] := by
    rw [keys_contents, hsorted]
    rfl
  refine ⟨by decide, crossedEntry.contents, _, _, crossedEntry.read?_line, hkeys, crossedEntry.sorted_contents, rfl,
    ?_, ?_, by decide⟩
  · rw [hkeys]
    decide
  · rw [contents_eq, hsorted]
    rfl

end Docket.LogEntry
