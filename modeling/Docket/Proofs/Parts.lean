import Docket.Blob.Width
import Docket.Datum

/-!
# What holds of every part

A property of schemas, or of values, holds everywhere when every part has it, at
any depth. It is enough to look at the whole and to go on with its direct parts,
so a property that holds everywhere comes down to the parts without any search.
-/
namespace Docket

namespace Schema

/-- The schemas that stand directly inside a schema. -/
def children : Schema → List Schema
  | array items => [items]
  | map values => [values]
  | record _ fields => fields.map Field.schema
  | union branches => branches
  | _ => []

mutual

/-- What passes from the schemas directly inside a schema to the schema itself holds
of every schema. -/
theorem children_induction {P : Schema → Prop} (step : ∀ s : Schema, (∀ child ∈ s.children, P child) → P s) :
    (s : Schema) → P s
  | null | boolean | int | long | float | double | string | bytes | enum _ _ | fixed _ _ =>
      step _ fun _ hm => absurd hm List.not_mem_nil
  | array items => step _ (List.forall_mem_singleton.2 (children_induction step items))
  | map values => step _ (List.forall_mem_singleton.2 (children_induction step values))
  | record _ fields => step _ (List.forall_mem_map.2 (fields_induction step fields))
  | union branches => step _ (branches_induction step branches)

theorem fields_induction {P : Schema → Prop} (step : ∀ s : Schema, (∀ child ∈ s.children, P child) → P s) :
    (fields : List Field) → ∀ field ∈ fields, P field.schema
  | [] => fun _ hm => absurd hm List.not_mem_nil
  | ⟨_, schema, _⟩ :: fields =>
      List.forall_mem_cons.2 ⟨children_induction step schema, fields_induction step fields⟩

theorem branches_induction {P : Schema → Prop} (step : ∀ s : Schema, (∀ child ∈ s.children, P child) → P s) :
    (branches : List Schema) → ∀ branch ∈ branches, P branch
  | [] => fun _ hm => absurd hm List.not_mem_nil
  | branch :: branches =>
      List.forall_mem_cons.2 ⟨children_induction step branch, branches_induction step branches⟩

end

/-- Every part of the schema, the schema itself among them, has the property. -/
def Everywhere (P : Schema → Prop) (s : Schema) : Prop :=
  ∀ part : Schema, part.Within s → P part

theorem within_of_mem_children {s child part : Schema} (hc : child ∈ s.children)
    (hp : part.Within child) : part.Within s := by
  cases s with
  | array items => rw [List.mem_singleton.1 hc] at hp; exact .items hp
  | map values => rw [List.mem_singleton.1 hc] at hp; exact .values hp
  | record name fields =>
      obtain ⟨field, hf, rfl⟩ := List.mem_map.1 hc
      exact .field hf hp
  | union branches => exact .branch hc hp
  | _ => exact absurd hc List.not_mem_nil

theorem everywhere_iff {P : Schema → Prop} {s : Schema} :
    Everywhere P s ↔ P s ∧ ∀ child ∈ s.children, Everywhere P child := by
  constructor
  · intro h
    exact ⟨h s (.self s), fun child hc part hp => h part (within_of_mem_children hc hp)⟩
  · rintro ⟨hs, hc⟩ part hp
    cases hp with
    | self => exact hs
    | items hp => exact hc _ (List.mem_singleton_self _) part hp
    | values hp => exact hc _ (List.mem_singleton_self _) part hp
    | field hf hp => exact hc _ (List.mem_map_of_mem hf) part hp
    | branch hb hp => exact hc _ hb part hp

theorem Everywhere.child {P : Schema → Prop} {s child : Schema} (h : Everywhere P s)
    (hc : child ∈ s.children) : Everywhere P child :=
  (everywhere_iff.1 h).2 child hc

@[simp] theorem everywhere_array {P : Schema → Prop} {items : Schema} :
    Everywhere P (array items) ↔ P (array items) ∧ Everywhere P items := by
  rw [everywhere_iff, children, List.forall_mem_singleton]

@[simp] theorem everywhere_map {P : Schema → Prop} {values : Schema} :
    Everywhere P (map values) ↔ P (map values) ∧ Everywhere P values := by
  rw [everywhere_iff, children, List.forall_mem_singleton]

@[simp] theorem everywhere_record {P : Schema → Prop} {name : String} {fields : List Field} :
    Everywhere P (record name fields) ↔
      P (record name fields) ∧ ∀ field ∈ fields, Everywhere P field.schema := by
  rw [everywhere_iff, children, List.forall_mem_map]

@[simp] theorem everywhere_union {P : Schema → Prop} {branches : List Schema} :
    Everywhere P (union branches) ↔ P (union branches) ∧ ∀ branch ∈ branches, Everywhere P branch :=
  everywhere_iff

theorem everywhere_scalar {P : Schema → Prop} {s : Schema} (hc : s.children = []) :
    Everywhere P s ↔ P s := by
  rw [everywhere_iff, hc]
  exact and_iff_left fun _ hm => absurd hm List.not_mem_nil

mutual

/-- The search through all parts, as a decision. -/
def decideEverywhere (P : Schema → Prop) [DecidablePred P] : (s : Schema) → Decidable (Everywhere P s)
  | null | boolean | int | long | float | double | string | bytes | enum _ _ | fixed _ _ =>
      decidable_of_iff (P _) (everywhere_scalar rfl).symm
  | array items =>
      have := decideEverywhere P items
      decidable_of_iff _ everywhere_array.symm
  | map values =>
      have := decideEverywhere P values
      decidable_of_iff _ everywhere_map.symm
  | record _ fields =>
      have := decideFields P fields
      decidable_of_iff _ everywhere_record.symm
  | union branches =>
      have := decideBranches P branches
      decidable_of_iff _ everywhere_union.symm

def decideFields (P : Schema → Prop) [DecidablePred P] :
    (fields : List Field) → Decidable (∀ field ∈ fields, Everywhere P field.schema)
  | [] => isTrue fun _ hm => absurd hm List.not_mem_nil
  | ⟨name, schema, default⟩ :: fields =>
      have := decideEverywhere P schema
      have := decideFields P fields
      decidable_of_iff (Everywhere P schema ∧ ∀ field ∈ fields, Everywhere P field.schema)
        (List.forall_mem_cons (p := fun field : Field => Everywhere P field.schema)
          (a := ⟨name, schema, default⟩)).symm

def decideBranches (P : Schema → Prop) [DecidablePred P] :
    (branches : List Schema) → Decidable (∀ branch ∈ branches, Everywhere P branch)
  | [] => isTrue fun _ hm => absurd hm List.not_mem_nil
  | branch :: branches =>
      have := decideEverywhere P branch
      have := decideBranches P branches
      decidable_of_iff (Everywhere P branch ∧ ∀ branch ∈ branches, Everywhere P branch)
        List.forall_mem_cons.symm

end

instance (P : Schema → Prop) [DecidablePred P] : DecidablePred (Everywhere P) :=
  decideEverywhere P

/-- Lengths of the lists of a schema itself, as a machine has to count them. -/
def lengths : Schema → List Nat
  | enum _ symbols => [symbols.length]
  | record _ fields => [fields.length]
  | union branches => [branches.length]
  | _ => []

/-- Every list in the schema can be counted by an integer of 64 bits with sign. -/
def Countable : Schema → Prop :=
  Everywhere fun part => ∀ n ∈ part.lengths, n < 2 ^ 63

instance : DecidablePred Countable := fun s =>
  inferInstanceAs (Decidable (Everywhere (fun part => ∀ n ∈ part.lengths, n < 2 ^ 63) s))

/-- A word can count the span of the schema itself, if it is a record, and of the
entries, if it is a map. -/
def NarrowHere : Schema → Prop
  | record _ fields => fieldsSpan fields < 2 ^ 64
  | map values => 1 + values.span < 2 ^ 64
  | _ => True

theorem narrow_iff {s : Schema} : s.Narrow ↔ Everywhere NarrowHere s := by
  constructor
  · rintro ⟨hr, hm⟩ part hp
    cases part with
    | record name fields => exact hr name fields hp
    | map values => exact hm values hp
    | _ => exact trivial
  · intro h
    exact ⟨fun name fields hp => h (.record name fields) hp, fun values hp => h (.map values) hp⟩

instance : DecidablePred NarrowHere
  | record _ fields => inferInstanceAs (Decidable (fieldsSpan fields < 2 ^ 64))
  | map values => inferInstanceAs (Decidable (1 + values.span < 2 ^ 64))
  | null | boolean | int | long | float | double | string | bytes | enum _ _ | fixed _ _ | array _ | union _ =>
      isTrue trivial

instance : DecidablePred Narrow := fun _ =>
  decidable_of_iff _ narrow_iff.symm

theorem Narrow.child {s child : Schema} (h : s.Narrow) (hc : child ∈ s.children) : child.Narrow :=
  narrow_iff.2 ((narrow_iff.1 h).child hc)

/-- A narrow schema is no wider than a word counts. -/
theorem Narrow.span_lt {s : Schema} (h : s.Narrow) : s.span < 2 ^ 64 := by
  cases s with
  | record name fields => exact h.1 name fields (.self _)
  | fixed name size => exact size.toNat_lt
  | _ => simp [span]

theorem Narrow.toNat_width {s : Schema} (h : s.Narrow) : s.width.toNat = s.span :=
  toNat_width_of_lt h.span_lt

theorem Narrow.toNat_entryWidth {values : Schema} (h : (map values).Narrow) :
    values.entryWidth.toNat = 1 + values.span :=
  toNat_entryWidth_of_lt (h.2 values (.self _))

theorem Narrow.entryWidth_ne_zero {values : Schema} (h : (map values).Narrow) : values.entryWidth ≠ 0 := by
  intro hz
  have hw := h.toNat_entryWidth
  rw [hz, UInt64.toNat_zero] at hw
  omega

end Schema

namespace Datum

/-- The values that stand directly inside a value. -/
def children : Datum → List Datum
  | array items => items
  | map entries => entries.map Prod.snd
  | record values => values
  | _ => []

/-- Every part of the value, the value itself among them, has the property. -/
def Everywhere (P : Datum → Prop) (value : Datum) : Prop :=
  ∀ part : Datum, part.Within value → P part

theorem within_of_mem_children {value child part : Datum} (hc : child ∈ value.children)
    (hp : part.Within child) : part.Within value := by
  cases value with
  | array items => exact .item hc hp
  | map entries =>
      obtain ⟨entry, he, rfl⟩ := List.mem_map.1 hc
      exact .entry he hp
  | record values => exact .field hc hp
  | _ => exact absurd hc List.not_mem_nil

theorem everywhere_iff {P : Datum → Prop} {value : Datum} :
    Everywhere P value ↔ P value ∧ ∀ child ∈ value.children, Everywhere P child := by
  constructor
  · intro h
    exact ⟨h value (.self value), fun child hc part hp => h part (within_of_mem_children hc hp)⟩
  · rintro ⟨hv, hc⟩ part hp
    cases hp with
    | self => exact hv
    | item hi hp => exact hc _ hi part hp
    | entry he hp => exact hc _ (List.mem_map_of_mem he) part hp
    | field hf hp => exact hc _ hf part hp

theorem Everywhere.child {P : Datum → Prop} {value child : Datum} (h : Everywhere P value)
    (hc : child ∈ value.children) : Everywhere P child :=
  (everywhere_iff.1 h).2 child hc

@[simp] theorem everywhere_array {P : Datum → Prop} {items : List Datum} :
    Everywhere P (array items) ↔ P (array items) ∧ ∀ value ∈ items, Everywhere P value :=
  everywhere_iff

@[simp] theorem everywhere_map {P : Datum → Prop} {entries : List (String × Datum)} :
    Everywhere P (map entries) ↔ P (map entries) ∧ ∀ entry ∈ entries, Everywhere P entry.2 := by
  rw [everywhere_iff, children, List.forall_mem_map]

@[simp] theorem everywhere_record {P : Datum → Prop} {values : List Datum} :
    Everywhere P (record values) ↔ P (record values) ∧ ∀ value ∈ values, Everywhere P value :=
  everywhere_iff

theorem everywhere_scalar {P : Datum → Prop} {value : Datum} (hc : value.children = []) :
    Everywhere P value ↔ P value := by
  rw [everywhere_iff, hc]
  exact and_iff_left fun _ hm => absurd hm List.not_mem_nil

mutual

/-- The search through all parts, as a decision. -/
def decideEverywhere (P : Datum → Prop) [DecidablePred P] : (value : Datum) → Decidable (Everywhere P value)
  | null | boolean _ | int _ | long _ | float _ | double _ | string _ | bytes _ | enum _ | fixed _ =>
      decidable_of_iff (P _) (everywhere_scalar rfl).symm
  | array items =>
      have := decideItems P items
      decidable_of_iff _ everywhere_array.symm
  | map entries =>
      have := decideEntries P entries
      decidable_of_iff _ everywhere_map.symm
  | record values =>
      have := decideItems P values
      decidable_of_iff _ everywhere_record.symm

def decideItems (P : Datum → Prop) [DecidablePred P] :
    (items : List Datum) → Decidable (∀ value ∈ items, Everywhere P value)
  | [] => isTrue fun _ hm => absurd hm List.not_mem_nil
  | value :: items =>
      have := decideEverywhere P value
      have := decideItems P items
      decidable_of_iff (Everywhere P value ∧ ∀ value ∈ items, Everywhere P value) List.forall_mem_cons.symm

def decideEntries (P : Datum → Prop) [DecidablePred P] :
    (entries : List (String × Datum)) → Decidable (∀ entry ∈ entries, Everywhere P entry.2)
  | [] => isTrue fun _ hm => absurd hm List.not_mem_nil
  | (key, value) :: entries =>
      have := decideEverywhere P value
      have := decideEntries P entries
      decidable_of_iff (Everywhere P value ∧ ∀ entry ∈ entries, Everywhere P entry.2)
        (List.forall_mem_cons (p := fun entry : String × Datum => Everywhere P entry.2)
          (a := (key, value))).symm

end

instance (P : Datum → Prop) [DecidablePred P] : DecidablePred (Everywhere P) :=
  decideEverywhere P

/-- Lengths of a value itself, as a machine has to count them; texts are counted
in bytes. -/
def lengths : Datum → List Nat
  | string s | enum s => [s.utf8ByteSize]
  | bytes value | fixed value => [value.length]
  | array items => [items.length]
  | map entries => entries.length :: entries.map fun entry => entry.1.utf8ByteSize
  | record values => [values.length]
  | _ => []

/-- Every text, byte string and list in the value can be counted by an integer of
64 bits with sign. -/
def Countable : Datum → Prop :=
  Everywhere fun part => ∀ n ∈ part.lengths, n < 2 ^ 63

instance : DecidablePred Countable := fun value =>
  inferInstanceAs (Decidable (Everywhere (fun part => ∀ n ∈ part.lengths, n < 2 ^ 63) value))

/-- The entries of a value itself, if it is a map, are in key order. -/
def OrderedHere : Datum → Prop
  | map entries => Entries.Ascending entries
  | _ => True

theorem ordered_iff {value : Datum} : value.Ordered ↔ Everywhere OrderedHere value := by
  constructor
  · intro h part hp
    cases part with
    | map entries => exact h entries hp
    | _ => exact trivial
  · intro h entries hp
    exact h (.map entries) hp

@[simp] theorem ordered_array {items : List Datum} : (array items).Ordered ↔ ∀ value ∈ items, value.Ordered := by
  simp [ordered_iff, OrderedHere]

@[simp] theorem ordered_map {entries : List (String × Datum)} :
    (map entries).Ordered ↔ Entries.Ascending entries ∧ ∀ entry ∈ entries, entry.2.Ordered := by
  simp [ordered_iff, OrderedHere]

@[simp] theorem ordered_record {values : List Datum} :
    (record values).Ordered ↔ ∀ value ∈ values, value.Ordered := by
  simp [ordered_iff, OrderedHere]

theorem ordered_scalar {value : Datum} (hk : value.kind.isStructured = false) : value.Ordered := by
  cases value <;> first | exact ordered_iff.2 ((everywhere_scalar rfl).2 trivial) | cases hk

instance : DecidablePred OrderedHere
  | map entries => inferInstanceAs (Decidable (entries.Pairwise fun a b => a.1 < b.1))
  | null | boolean _ | int _ | long _ | float _ | double _ | string _ | bytes _ | enum _ | fixed _ | array _
  | record _ => isTrue trivial

instance : DecidablePred Ordered := fun _ =>
  decidable_of_iff _ ordered_iff.symm

theorem Ordered.child {value child : Datum} (h : value.Ordered) (hc : child ∈ value.children) :
    child.Ordered :=
  ordered_iff.2 ((ordered_iff.1 h).child hc)

end Datum

end Docket
