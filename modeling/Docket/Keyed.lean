/-!
# Entries in key order

A keyed list holds at most one value per key, keys ascending by code point. The
list operations stand alone so that values which nest (objects inside objects)
can use them on plain lists; `Keyed` packs a list with its order, and two keyed
lists with the same look-ups are equal.
-/
namespace Docket

namespace Entries

variable {α : Type}

/-- Puts a value under a key, replacing the value that was there. -/
def insert (key : String) (value : α) : List (String × α) → List (String × α)
  | [] => [(key, value)]
  | (k, v) :: rest =>
      if key = k then (key, value) :: rest
      else if key < k then (key, value) :: (k, v) :: rest
      else (k, v) :: insert key value rest

def find? (key : String) : List (String × α) → Option α
  | [] => none
  | (k, v) :: rest => if key = k then some v else find? key rest

/-- Every entry but those under the key. -/
def erase (key : String) (entries : List (String × α)) : List (String × α) :=
  entries.filter (fun e => e.1 ≠ key)

/-- Keys ascend, so none occurs twice. -/
def Ascending (entries : List (String × α)) : Prop :=
  entries.Pairwise (fun a b => a.1 < b.1)

/-- The entries in key order; of a repeated key the last value stands. -/
def ofList (entries : List (String × α)) : List (String × α) :=
  entries.foldl (fun sorted e => insert e.1 e.2 sorted) []

theorem mem_of_mem_insert {key : String} {value : α} {entries : List (String × α)}
    {e : String × α} (h : e ∈ insert key value entries) : e = (key, value) ∨ e ∈ entries := by
  induction entries with
  | nil => exact .inl (List.mem_singleton.1 h)
  | cons head rest ih =>
      simp only [insert] at h
      split at h
      · rcases List.mem_cons.1 h with rfl | h
        · exact .inl rfl
        · exact .inr (List.mem_cons_of_mem _ h)
      · split at h
        · exact List.mem_cons.1 h
        · rcases List.mem_cons.1 h with rfl | h
          · exact .inr List.mem_cons_self
          · exact (ih h).imp_right (List.mem_cons_of_mem _)

theorem fst_of_mem_insert {key : String} {value : α} {entries : List (String × α)}
    {e : String × α} (h : e ∈ insert key value entries) : e.1 = key ∨ e ∈ entries :=
  (mem_of_mem_insert h).imp_left (congrArg Prod.fst)

theorem Ascending.insert {entries : List (String × α)} (h : Ascending entries)
    (key : String) (value : α) : Ascending (Entries.insert key value entries) := by
  induction entries with
  | nil => simp [Entries.insert, Ascending]
  | cons head rest ih =>
      obtain ⟨below, tail⟩ := List.pairwise_cons.1 h
      simp only [Entries.insert]
      split
      · rename_i same
        exact List.pairwise_cons.2 ⟨fun e he => same ▸ below e he, tail⟩
      · rename_i differ
        split
        · rename_i less
          refine List.pairwise_cons.2 ⟨fun e he => ?_, h⟩
          rcases List.mem_cons.1 he with rfl | he
          · exact less
          · exact String.lt_trans less (below e he)
        · rename_i notLess
          refine List.pairwise_cons.2 ⟨fun e he => ?_, ih tail⟩
          rcases fst_of_mem_insert he with same | he
          · have le : head.1 ≤ key := String.not_lt.1 notLess
            rw [same]
            exact Decidable.by_contra fun above =>
              differ (String.le_antisymm (String.not_lt.1 above) le)
          · exact below e he

theorem Ascending.erase {entries : List (String × α)} (h : Ascending entries)
    (key : String) : Ascending (Entries.erase key entries) :=
  List.Pairwise.filter _ h

theorem ascending_ofList (entries : List (String × α)) : Ascending (ofList entries) := by
  unfold ofList
  suffices ∀ sorted : List (String × α), Ascending sorted →
      Ascending (entries.foldl (fun sorted e => insert e.1 e.2 sorted) sorted) from
    this [] .nil
  induction entries with
  | nil => exact fun _ h => h
  | cons e rest ih => exact fun sorted h => ih _ (h.insert e.1 e.2)

@[simp] theorem find?_insert_self (key : String) (value : α) (entries : List (String × α)) :
    find? key (insert key value entries) = some value := by
  induction entries with
  | nil => simp [insert, find?]
  | cons head rest ih =>
      simp only [insert]
      split
      · simp [find?]
      · rename_i differ
        split
        · simp [find?]
        · simp [find?, differ, ih]

theorem find?_insert_of_ne {key other : String} (h : other ≠ key) (value : α)
    (entries : List (String × α)) : find? other (insert key value entries) = find? other entries := by
  induction entries with
  | nil => simp [insert, find?, h]
  | cons head rest ih =>
      simp only [insert]
      split
      · rename_i same
        subst same
        simp [find?, h]
      · split
        · simp [find?, h]
        · simp only [find?, ih]

@[simp] theorem find?_erase_self (key : String) (entries : List (String × α)) :
    find? key (erase key entries) = none := by
  induction entries with
  | nil => rfl
  | cons head rest ih =>
      by_cases same : head.1 = key
      · simpa [erase, same] using ih
      · simpa [erase, same, find?, Ne.symm same] using ih

theorem find?_erase_of_ne {key other : String} (h : other ≠ key) (entries : List (String × α)) :
    find? other (erase key entries) = find? other entries := by
  induction entries with
  | nil => rfl
  | cons head rest ih =>
      by_cases same : head.1 = key
      · simpa [erase, same, find?, h] using ih
      · simp only [erase, List.filter_cons, same, ne_eq, not_false_eq_true, decide_true, if_true, find?]
        split
        · rfl
        · exact ih

theorem mem_of_find? {key : String} {value : α} {entries : List (String × α)}
    (h : find? key entries = some value) : (key, value) ∈ entries := by
  induction entries with
  | nil => simp [find?] at h
  | cons head rest ih =>
      simp only [find?] at h
      split at h
      · rename_i same
        simp only [Option.some.injEq] at h
        simp [same, ← h]
      · exact List.mem_cons_of_mem _ (ih h)

theorem Ascending.find?_of_mem {key : String} {value : α} {entries : List (String × α)}
    (ha : Ascending entries) (h : (key, value) ∈ entries) : find? key entries = some value := by
  induction entries with
  | nil => exact absurd h List.not_mem_nil
  | cons head rest ih =>
      obtain ⟨below, tail⟩ := List.pairwise_cons.1 ha
      rcases List.mem_cons.1 h with rfl | h
      · simp [find?]
      · have differ : key ≠ head.1 := (String.ne_of_lt (below _ h)).symm
        simp only [find?, differ, if_false]
        exact ih tail h

theorem find?_eq_none_of_lt {key : String} {entries : List (String × α)}
    (h : ∀ e ∈ entries, key < e.1) : find? key entries = none := by
  induction entries with
  | nil => rfl
  | cons head rest ih =>
      have differ : key ≠ head.1 := fun same =>
        String.lt_irrefl key (same ▸ h head List.mem_cons_self)
      simp only [find?, differ, if_false]
      exact ih fun e he => h e (List.mem_cons_of_mem _ he)

/-- Look-ups determine the entries. -/
theorem Ascending.ext {a b : List (String × α)} (ha : Ascending a) (hb : Ascending b)
    (same : ∀ key, find? key a = find? key b) : a = b := by
  induction a generalizing b with
  | nil =>
      cases b with
      | nil => rfl
      | cons e rest => simpa [find?] using same e.1
  | cons x as ih =>
      cases b with
      | nil => simpa [find?] using same x.1
      | cons y bs =>
          obtain ⟨belowX, tailA⟩ := List.pairwise_cons.1 ha
          obtain ⟨belowY, tailB⟩ := List.pairwise_cons.1 hb
          have keys : x.1 = y.1 := by
            refine String.le_antisymm (String.not_lt.1 fun less => ?_) (String.not_lt.1 fun less => ?_)
            · have absent : find? y.1 (x :: as) = none := find?_eq_none_of_lt fun e he => by
                rcases List.mem_cons.1 he with rfl | he
                · exact less
                · exact String.lt_trans less (belowX e he)
              have found := same y.1
              rw [absent] at found
              simp [find?] at found
            · have absent : find? x.1 (y :: bs) = none := find?_eq_none_of_lt fun e he => by
                rcases List.mem_cons.1 he with rfl | he
                · exact less
                · exact String.lt_trans less (belowY e he)
              have found := same x.1
              rw [absent] at found
              simp [find?] at found
          have values : x.2 = y.2 := by simpa [find?, keys] using same x.1
          have tails : as = bs := ih tailA tailB fun key => by
            by_cases here : key = x.1
            · rw [here, find?_eq_none_of_lt belowX, find?_eq_none_of_lt (keys ▸ belowY)]
            · simpa [find?, here, keys ▸ here] using same key
          rw [tails, Prod.ext keys values]

end Entries

/-- Values under keys, in key order. -/
structure Keyed (α : Type) where
  entries : List (String × α)
  ascending : Entries.Ascending entries

namespace Keyed

variable {α : Type}

def empty : Keyed α := ⟨[], .nil⟩

instance : EmptyCollection (Keyed α) := ⟨empty⟩

instance : Inhabited (Keyed α) := ⟨empty⟩

/-- Of a repeated key the last value stands. -/
def ofList (entries : List (String × α)) : Keyed α :=
  ⟨Entries.ofList entries, Entries.ascending_ofList entries⟩

def insert (m : Keyed α) (key : String) (value : α) : Keyed α :=
  ⟨Entries.insert key value m.entries, m.ascending.insert key value⟩

def erase (m : Keyed α) (key : String) : Keyed α :=
  ⟨Entries.erase key m.entries, m.ascending.erase key⟩

def find? (m : Keyed α) (key : String) : Option α :=
  Entries.find? key m.entries

def contains (m : Keyed α) (key : String) : Bool :=
  (m.find? key).isSome

def size (m : Keyed α) : Nat :=
  m.entries.length

@[simp] theorem find?_empty (key : String) : (∅ : Keyed α).find? key = none := rfl

@[simp] theorem find?_insert_self (m : Keyed α) (key : String) (value : α) :
    (m.insert key value).find? key = some value :=
  Entries.find?_insert_self key value m.entries

theorem find?_insert_of_ne (m : Keyed α) {key other : String} (h : other ≠ key) (value : α) :
    (m.insert key value).find? other = m.find? other :=
  Entries.find?_insert_of_ne h value m.entries

@[simp] theorem find?_erase_self (m : Keyed α) (key : String) :
    (m.erase key).find? key = none :=
  Entries.find?_erase_self key m.entries

theorem find?_erase_of_ne (m : Keyed α) {key other : String} (h : other ≠ key) :
    (m.erase key).find? other = m.find? other :=
  Entries.find?_erase_of_ne h m.entries

/-- Keyed lists with the same look-ups are equal. -/
theorem ext_find? {a b : Keyed α} (same : ∀ key, a.find? key = b.find? key) : a = b := by
  obtain ⟨as, ha⟩ := a
  obtain ⟨bs, hb⟩ := b
  have : as = bs := ha.ext hb same
  subst this
  rfl

end Keyed

end Docket
