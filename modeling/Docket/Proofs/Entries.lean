import Docket.Keyed

/-!
# Entries put under their keys one after the other

Whatever the order in which entries are put into a keyed list, under each key the
last one stands. Entries that come in key order are all kept as they are.
-/
namespace Docket.Entries

variable {α : Type}

theorem find?_append (key : String) (entries others : List (String × α)) :
    find? key (entries ++ others) = (find? key entries).or (find? key others) := by
  induction entries with
  | nil => rfl
  | cons head rest ih =>
      rw [List.cons_append, find?, find?]
      split
      · rfl
      · exact ih

/-- Under a key there is the last entry put there, or what was there before. -/
theorem find?_foldl_insert (key : String) (entries sorted : List (String × α)) :
    find? key (entries.foldl (fun sorted e => insert e.1 e.2 sorted) sorted) =
      (find? key entries.reverse).or (find? key sorted) := by
  induction entries generalizing sorted with
  | nil => rfl
  | cons head rest ih =>
      rw [List.foldl_cons, ih, List.reverse_cons, find?_append, Option.or_assoc]
      by_cases h : key = head.1
      · subst h
        rw [find?_insert_self, find?, if_pos rfl, Option.some_or]
      · rw [find?_insert_of_ne h, find?, if_neg h]
        rfl

theorem find?_ofList (key : String) (entries : List (String × α)) :
    find? key (ofList entries) = find? key entries.reverse := by
  rw [ofList, find?_foldl_insert]
  exact Option.or_none

theorem mem_of_mem_foldl_insert {entries sorted : List (String × α)} {e : String × α}
    (h : e ∈ entries.foldl (fun sorted e => insert e.1 e.2 sorted) sorted) : e ∈ entries ∨ e ∈ sorted := by
  induction entries generalizing sorted with
  | nil => exact .inr h
  | cons head rest ih =>
      obtain h | h := ih h
      · exact .inl (List.mem_cons_of_mem _ h)
      · obtain rfl | h := mem_of_mem_insert h
        · exact .inl List.mem_cons_self
        · exact .inr h

theorem mem_of_mem_ofList {entries : List (String × α)} {e : String × α} (h : e ∈ ofList entries) : e ∈ entries :=
  (mem_of_mem_foldl_insert h).resolve_right List.not_mem_nil

theorem length_insert_le (key : String) (value : α) (entries : List (String × α)) :
    (insert key value entries).length ≤ entries.length + 1 := by
  induction entries with
  | nil => exact Nat.le_refl 1
  | cons head rest ih =>
      rw [insert]
      split
      · exact Nat.le_succ _
      · split
        · exact Nat.le_refl _
        · exact Nat.succ_le_succ ih

theorem length_foldl_insert_le (entries sorted : List (String × α)) :
    (entries.foldl (fun sorted e => insert e.1 e.2 sorted) sorted).length ≤ sorted.length + entries.length := by
  induction entries generalizing sorted with
  | nil => exact Nat.le_refl _
  | cons head rest ih =>
      have hi := length_insert_le head.1 head.2 sorted
      have hr := ih (insert head.1 head.2 sorted)
      rw [List.foldl_cons, List.length_cons]
      omega

theorem length_ofList_le (entries : List (String × α)) : (ofList entries).length ≤ entries.length := by
  have h := length_foldl_insert_le entries []
  rwa [List.length_nil, Nat.zero_add] at h

theorem insert_of_lt {key : String} {value : α} {entries : List (String × α)}
    (h : ∀ e ∈ entries, e.1 < key) : insert key value entries = entries ++ [(key, value)] := by
  induction entries with
  | nil => rfl
  | cons head rest ih =>
      have hlt : head.1 < key := h head List.mem_cons_self
      have hne : key ≠ head.1 := fun he => String.lt_irrefl _ (he ▸ hlt)
      rw [insert, if_neg hne, if_neg (String.lt_asymm hlt), ih fun e he => h e (List.mem_cons_of_mem _ he)]
      rfl

theorem foldl_insert_of_ascending {entries sorted : List (String × α)} (h : Ascending (sorted ++ entries)) :
    entries.foldl (fun sorted e => insert e.1 e.2 sorted) sorted = sorted ++ entries := by
  induction entries generalizing sorted with
  | nil => exact (List.append_nil sorted).symm
  | cons e entries ih =>
      have hlt : ∀ x ∈ sorted, x.1 < e.1 := fun x hx =>
        (List.pairwise_append.1 h).2.2 x hx e List.mem_cons_self
      have hs : insert e.1 e.2 sorted ++ entries = sorted ++ e :: entries := by
        rw [insert_of_lt hlt, List.append_assoc]
        rfl
      rw [List.foldl_cons, ih (hs ▸ h), hs]

theorem ofList_of_ascending {entries : List (String × α)} (h : Ascending entries) : ofList entries = entries :=
  foldl_insert_of_ascending h

end Docket.Entries
