import Mathlib.Data.List.Forall2

/-!
# When a computation that may fail succeeds

What a success says about the steps: a list is worked through exactly when every
member of it is, and then each member stands beside what became of it.
-/
namespace Docket

variable {α β ε : Type} {f : α → Except ε β} {xs : List α}

theorem map_eq_ok {x : Except ε α} {g : α → β} {y : β} (h : x.map g = .ok y) :
    ∃ a, x = .ok a ∧ g a = y := by
  cases x with
  | error e => cases h
  | ok a => exact ⟨a, rfl, Except.ok.inj h⟩

theorem bind_eq_ok {x : Except ε α} {g : α → Except ε β} {y : β} (h : x >>= g = .ok y) :
    ∃ a, x = .ok a ∧ g a = .ok y := by
  cases x with
  | error e => cases h
  | ok a => exact ⟨a, rfl, h⟩

theorem exists_map_eq_ok {x : Except ε α} {g : α → β} : (∃ y, x.map g = .ok y) ↔ ∃ a, x = .ok a := by
  constructor
  · rintro ⟨y, h⟩
    obtain ⟨a, ha, -⟩ := map_eq_ok h
    exact ⟨a, ha⟩
  · rintro ⟨a, rfl⟩
    exact ⟨g a, rfl⟩

theorem exists_bind_eq_ok {x : Except ε α} {g : α → Except ε β} :
    (∃ y, x >>= g = .ok y) ↔ ∃ a, x = .ok a ∧ ∃ y, g a = .ok y := by
  constructor
  · rintro ⟨y, h⟩
    obtain ⟨a, ha, hy⟩ := bind_eq_ok h
    exact ⟨a, ha, y, hy⟩
  · rintro ⟨a, rfl, y, hy⟩
    exact ⟨y, hy⟩

/-- A list is brought into another form when each of its members is. -/
theorem mapM_eq_ok_iff {ys : List β} :
    xs.mapM f = .ok ys ↔ List.Forall₂ (fun x y => f x = .ok y) xs ys := by
  induction xs generalizing ys with
  | nil =>
      rw [List.mapM_nil, List.forall₂_nil_left_iff]
      exact ⟨fun h => by cases h; rfl, fun h => by rw [h]; rfl⟩
  | cons x xs ih =>
      rw [List.mapM_cons, List.forall₂_cons_left_iff]
      constructor
      · intro h
        obtain ⟨y, hx, h⟩ := bind_eq_ok h
        obtain ⟨rest, hs, h⟩ := bind_eq_ok h
        exact ⟨y, rest, hx, ih.1 hs, (Except.ok.inj h).symm⟩
      · rintro ⟨y, rest, hx, hs, rfl⟩
        rw [hx, ih.2 hs]
        rfl

theorem exists_mapM_eq_ok : (∃ ys, xs.mapM f = .ok ys) ↔ ∀ x ∈ xs, ∃ y, f x = .ok y := by
  simp only [mapM_eq_ok_iff]
  induction xs with
  | nil => simp
  | cons x xs ih =>
      rw [List.forall_mem_cons, ← ih]
      constructor
      · rintro ⟨ys, h⟩
        obtain ⟨y, rest, hx, hs, -⟩ := List.forall₂_cons_left_iff.1 h
        exact ⟨⟨y, hx⟩, rest, hs⟩
      · rintro ⟨⟨y, hx⟩, rest, hs⟩
        exact ⟨y :: rest, .cons hx hs⟩

/-! ### Lists member by member -/

/-- Lists that agree member by member, as one list of pairs. -/
theorem exists_row {R : α → β → Prop} {ys : List β} (h : List.Forall₂ R xs ys) :
    ∃ row : List (β × α), row.map Prod.snd = xs ∧ row.map Prod.fst = ys ∧ ∀ pair ∈ row, R pair.2 pair.1 := by
  induction h with
  | nil => exact ⟨[], rfl, rfl, fun _ hm => absurd hm List.not_mem_nil⟩
  | @cons x y _ _ hr _ ih =>
      obtain ⟨row, rfl, rfl, hrow⟩ := ih
      exact ⟨(y, x) :: row, rfl, rfl, List.forall_mem_cons.2 ⟨hr, hrow⟩⟩

/-- What holds of each side is added to what holds between them. -/
theorem forall₂_and {R : α → β → Prop} {p : α → Prop} {q : β → Prop} {ys : List β}
    (h : List.Forall₂ R xs ys) (hp : ∀ x ∈ xs, p x) (hq : ∀ y ∈ ys, q y) :
    List.Forall₂ (fun x y => p x ∧ q y ∧ R x y) xs ys := by
  induction h with
  | nil => exact .nil
  | cons hr _ ih =>
      obtain ⟨hx, hp⟩ := List.forall_mem_cons.1 hp
      obtain ⟨hy, hq⟩ := List.forall_mem_cons.1 hq
      exact .cons ⟨hx, hy, hr⟩ (ih hp hq)

end Docket
