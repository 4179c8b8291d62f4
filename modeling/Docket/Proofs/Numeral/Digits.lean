import Docket.Numeral.Reader

/-!
# Decimal digits are read as they were written

The digits of a number are taken off a text up to the first character that is no
digit, and spell the number again. An integer is read back from its text wherever
it lies within the bounds.
-/
namespace Docket.Numeral

/-- The values of the decimal digits of a number, the first digit first. -/
def digits (n : Nat) : List Nat :=
  (Nat.toDigits 10 n).map fun c => c.toNat - '0'.toNat

/-- The text does not go on with a digit. -/
def Digitless (text : List Char) : Prop :=
  text.head?.bind digit? = none

theorem digit?_of_isDigit {c : Char} (h : c.isDigit = true) : digit? c = some (c.toNat - '0'.toNat) := by
  have hb : '0' ≤ c ∧ c ≤ '9' := by
    simp only [Char.isDigit, Bool.and_eq_true, decide_eq_true_eq] at h
    exact h
  rw [digit?, if_pos hb]

theorem takeDigits_of_digitless {text : List Char} (h : Digitless text) : takeDigits text = ([], text) := by
  cases text with
  | nil => rfl
  | cons c rest =>
      have hc : digit? c = none := h
      simp only [takeDigits, hc]

theorem takeDigits_append {cs rest : List Char} (hc : ∀ c ∈ cs, c.isDigit = true) (hr : Digitless rest) :
    takeDigits (cs ++ rest) = (cs.map fun c => c.toNat - '0'.toNat, rest) := by
  induction cs with
  | nil => exact takeDigits_of_digitless hr
  | cons c cs ih =>
      obtain ⟨h, hc⟩ := List.forall_mem_cons.1 hc
      simp only [List.cons_append, takeDigits, digit?_of_isDigit h, ih hc, List.map_cons]

theorem isDigit_of_mem_toDigits {n : Nat} : ∀ c ∈ Nat.toDigits 10 n, c.isDigit = true :=
  fun _ hc => Nat.isDigit_of_mem_toDigits (by decide) (by decide) hc

/-- The digits of a number are taken off, and what follows them is left. -/
theorem takeDigits_toDigits (n : Nat) {rest : List Char} (hr : Digitless rest) :
    takeDigits (Nat.toDigits 10 n ++ rest) = (digits n, rest) :=
  takeDigits_append isDigit_of_mem_toDigits hr

theorem ofDigits_map (cs : List Char) : ofDigits (cs.map fun c => c.toNat - '0'.toNat) = Nat.ofDigitChars 10 cs 0 := by
  rw [ofDigits, List.foldl_map, Nat.ofDigitChars]

@[simp] theorem ofDigits_digits (n : Nat) : ofDigits (digits n) = n := by
  rw [digits, ofDigits_map, Nat.ofDigitChars_toDigits (by decide) (by decide)]

theorem digits_ne_nil (n : Nat) : digits n ≠ [] := by
  simp [digits, Nat.toDigits_ne_nil]

/-- No digit stands in front of those that a positive number needs. -/
theorem head_digits_ne_zero {n : Nat} (hn : 0 < n) : (digits n).head? ≠ some 0 := by
  induction n using Nat.strongRecOn with
  | ind n ih =>
      by_cases hs : n < 10
      · have hd : (n.digitChar).toNat - '0'.toNat = n := Nat.toNat_digitChar_sub_48_of_lt_ten hs
        rw [digits, Nat.toDigits_of_lt_base hs, List.map_singleton, hd, List.head?_cons]
        simp only [ne_eq, Option.some.injEq]
        omega
      · have hq : 0 < n / 10 := by omega
        have hsplit : digits n = digits (n / 10) ++ [((n % 10).digitChar).toNat - '0'.toNat] := by
          rw [digits, Nat.toDigits_of_base_le (by decide) (Nat.not_lt.1 hs), List.map_append]
          rfl
        rw [hsplit, List.head?_append]
        cases hh : (digits (n / 10)).head? with
        | none => exact absurd (List.head?_eq_none_iff.1 hh) (digits_ne_nil _)
        | some d =>
            have hne := ih (n / 10) (by omega) hq
            rwa [hh] at hne

theorem natural?_toDigits (n : Nat) : natural? (Nat.toDigits 10 n) = some n := by
  have hd : takeDigits (Nat.toDigits 10 n) = (digits n, []) := by
    have h := takeDigits_toDigits n (show Digitless [] from rfl)
    rwa [List.append_nil] at h
  rw [natural?, hd]
  cases hs : digits n with
  | nil => exact absurd hs (digits_ne_nil n)
  | cons d ds =>
      dsimp only
      rw [← hs, ofDigits_digits]

/-- The first digit of a number is no sign. -/
theorem toDigits_eq_cons (n : Nat) : ∃ c cs, Nat.toDigits 10 n = c :: cs ∧ c.isDigit = true := by
  cases hd : Nat.toDigits 10 n with
  | nil => exact absurd hd Nat.toDigits_ne_nil
  | cons c cs => exact ⟨c, cs, rfl, isDigit_of_mem_toDigits c (hd ▸ List.mem_cons_self)⟩

theorem toList_toString_ofNat (n : Nat) : (toString (Int.ofNat n)).toList = Nat.toDigits 10 n :=
  Nat.toList_repr

theorem toList_toString_negSucc (n : Nat) :
    (toString (Int.negSucc n)).toList = '-' :: Nat.toDigits 10 (n + 1) := by
  have h : toString (Int.negSucc n) = "-" ++ (n + 1).repr := rfl
  rw [h, String.toList_append, Nat.toList_repr]
  rfl

/-- An integer within the bounds is read back from its text. -/
theorem integer?_toString {low high value : Int} (hl : low ≤ value) (hh : value ≤ high) :
    integer? low high (toString value) = some value := by
  cases value with
  | ofNat n =>
      obtain ⟨c, cs, hd, hc⟩ := toDigits_eq_cons n
      have hn := natural?_toDigits n
      have hplus : c ≠ '+' := fun h => by rw [h] at hc; exact absurd hc (by decide)
      have hminus : c ≠ '-' := fun h => by rw [h] at hc; exact absurd hc (by decide)
      rw [integer?, toList_toString_ofNat]
      rw [hd] at hn ⊢
      split
      · rename_i heq
        exact absurd (List.cons.inj heq).1 hplus
      · rename_i heq
        exact absurd (List.cons.inj heq).1 hminus
      · rw [hn, Option.bind_some]
        exact if_pos ⟨hl, hh⟩
  | negSucc n =>
      have hneg : (Int.negSucc n) < 0 := Int.negSucc_lt_zero n
      have hlow : low < 0 := by omega
      have hv : -((n + 1 : Nat) : Int) = Int.negSucc n := rfl
      rw [integer?, toList_toString_negSucc]
      simp only [natural?_toDigits, Option.bind_some, if_pos hlow, hv, if_pos (And.intro hl hh)]

end Docket.Numeral
