import Docket.Proofs.Json.Strings
import Docket.Proofs.Numeral.Digits

/-!
# Document values are read as they were written

A value whose numbers are integers is read back from its text, with whatever may
follow a value in a text behind it. So no two such values have one text. Doubles
are left out: reading them rounds twice.
-/
namespace Docket.Json

open Numeral

/-- Every number in the value is an integer that a document can hold. -/
inductive Integral : Json → Prop where
  | null : Integral null
  | bool (value : Bool) : Integral (bool value)
  | string (value : String) : Integral (string value)
  | integer {value : Int} : -2 ^ 63 ≤ value → value < 2 ^ 64 → Integral (number (.integer value))
  | array {items : List Json} : (∀ item ∈ items, Integral item) → Integral (array items)
  | object {fields : List (String × Json)} : (∀ field ∈ fields, Integral field.2) → Integral (object fields)

@[simp] theorem integral_string (value : String) : (string value).Integral :=
  .string value

@[simp] theorem integral_ofNat {n : Nat} (h : n < 2 ^ 64) : (ofNat n).Integral :=
  .integer (by omega) (by omega)

@[simp] theorem integral_array {items : List Json} : (array items).Integral ↔ ∀ item ∈ items, item.Integral :=
  ⟨fun | .array h => h, .array⟩

@[simp] theorem integral_object {fields : List (String × Json)} :
    (object fields).Integral ↔ ∀ field ∈ fields, field.2.Integral :=
  ⟨fun | .object h => h, .object⟩

/-! ### What follows a value -/

/-- The text ends here, or goes on as it may behind a value that stands in another. -/
def Closes (rest : List Char) : Prop :=
  ∀ c ∈ rest.head?, c = ',' ∨ c = ']' ∨ c = '\x7d'

theorem closes_nil : Closes [] := by
  simp [Closes]

theorem closes_cons {c : Char} {rest : List Char} (h : c = ',' ∨ c = ']' ∨ c = '\x7d') :
    Closes (c :: rest) := by
  simpa [Closes] using h

theorem closes_renderItems (items : List Json) (rest : List Char) : Closes (renderItems items rest) := by
  cases items with
  | nil => exact closes_cons (.inr (.inl rfl))
  | cons item items => exact closes_cons (.inl rfl)

theorem closes_renderFields (fields : List (String × Json)) (rest : List Char) :
    Closes (renderFields fields rest) := by
  cases fields with
  | nil => exact closes_cons (.inr (.inr rfl))
  | cons field fields => exact closes_cons (.inl rfl)

theorem Closes.digitless {rest : List Char} (h : Closes rest) : Digitless rest := by
  cases rest with
  | nil => rfl
  | cons c rest =>
      have hc : c = ',' ∨ c = ']' ∨ c = '\x7d' := h c rfl
      rcases hc with rfl | rfl | rfl <;> rfl

theorem skipBlank_cons {c : Char} {rest : List Char} (h : isBlank c = false) :
    skipBlank (c :: rest) = c :: rest := by
  simp [skipBlank, h]

theorem Closes.skipBlank {rest : List Char} (h : Closes rest) : skipBlank rest = rest := by
  cases rest with
  | nil => rfl
  | cons c rest =>
      have hc : c = ',' ∨ c = ']' ∨ c = '\x7d' := h c rfl
      rcases hc with rfl | rfl | rfl <;> exact skipBlank_cons rfl

/-! ### Integers -/

theorem takeWhole_toDigits (n : Nat) {rest : List Char} (hr : Digitless rest) :
    Literal.takeWhole (Nat.toDigits 10 n ++ rest) = some (digits n, rest) := by
  rw [Literal.takeWhole, takeDigits_toDigits n hr]
  split
  · rename_i heq
    exact absurd (Prod.mk.inj heq).1 (digits_ne_nil n)
  · -- a zero in front of another digit: the number would be zero, and then it is the only digit
    rename_i d ds _ heq
    have hd : digits n = 0 :: d :: ds := (Prod.mk.inj heq).1
    by_cases hn : 0 < n
    · exact absurd (congrArg List.head? hd) (head_digits_ne_zero hn)
    · have hz : n = 0 := by omega
      subst hz
      cases hd
  · rename_i heq
    obtain ⟨rfl, rfl⟩ := Prod.mk.inj heq
    rfl

theorem takeFraction_of_closes {rest : List Char} (hr : Closes rest) :
    Literal.takeFraction rest = some ([], rest) := by
  unfold Literal.takeFraction
  split
  · have hc := hr '.' rfl
    exact absurd hc (by decide)
  · rfl

theorem takeExponent_of_closes {rest : List Char} (hr : Closes rest) :
    Literal.takeExponent rest = some (none, rest) := by
  cases rest with
  | nil => rfl
  | cons c rest =>
      have hc : c = ',' ∨ c = ']' ∨ c = '\x7d' := hr c rfl
      have he : ¬(c = 'e' ∨ c = 'E') := by
        rcases hc with rfl | rfl | rfl <;> decide
      simp only [Literal.takeExponent, if_neg he]

/-- A literal of digits alone, with a sign or without one. -/
theorem take_toDigits (n : Nat) {rest : List Char} (hr : Closes rest) :
    Literal.take (Nat.toDigits 10 n ++ rest) = some (⟨false, digits n, [], none⟩, rest) := by
  have hw := takeWhole_toDigits n hr.digitless
  obtain ⟨c, cs, hd, hc⟩ := toDigits_eq_cons n
  rw [hd] at hw ⊢
  have hminus : c ≠ '-' := fun h => by rw [h] at hc; exact absurd hc (by decide)
  rw [List.cons_append] at hw ⊢
  unfold Literal.take
  split
  · rename_i heq
    split at heq
    · rename_i h
      exact absurd (List.cons.inj h).1 hminus
    · obtain ⟨rfl, rfl⟩ := Prod.mk.inj heq
      simp only [hw, takeFraction_of_closes hr, takeExponent_of_closes hr, Option.bind_eq_bind, Option.bind_some]
      rfl

theorem take_minus_toDigits (n : Nat) {rest : List Char} (hr : Closes rest) :
    Literal.take ('-' :: (Nat.toDigits 10 n ++ rest)) = some (⟨true, digits n, [], none⟩, rest) := by
  have hw := takeWhole_toDigits n hr.digitless
  simp only [Literal.take, hw, takeFraction_of_closes hr, takeExponent_of_closes hr, Option.bind_eq_bind,
    Option.bind_some]
  rfl

theorem le_foldl_digits (ds : List Nat) (s : Nat) : s ≤ ds.foldl (fun n d => 10 * n + d) s := by
  induction ds generalizing s with
  | nil => exact Nat.le_refl s
  | cons d ds ih =>
      have h := ih (10 * s + d)
      rw [List.foldl_cons]
      omega

/-- Digits that spell a number of 64 bits are all collected. -/
theorem collectWhole_eq {ds : List Nat} {s : Nat} (h : ds.foldl (fun n d => 10 * n + d) s < 2 ^ 64) :
    Literal.collectWhole s 0 ds = (ds.foldl (fun n d => 10 * n + d) s, 0) := by
  induction ds generalizing s with
  | nil => rfl
  | cons d ds ih =>
      rw [List.foldl_cons] at h ⊢
      have hle := le_foldl_digits ds (10 * s + d)
      have hfit : s * 10 + d < 2 ^ 64 := by omega
      have hsame : s * 10 + d = 10 * s + d := by omega
      rw [Literal.collectWhole, if_pos ⟨rfl, hfit⟩, hsame]
      exact ih h

theorem collectWhole_digits {n : Nat} (h : n < 2 ^ 64) : Literal.collectWhole 0 0 (digits n) = (n, 0) := by
  have hd : (digits n).foldl (fun n d => 10 * n + d) 0 = n := ofDigits_digits n
  have hfit : (digits n).foldl (fun n d => 10 * n + d) 0 < 2 ^ 64 := by rw [hd]; exact h
  rw [collectWhole_eq hfit, hd]

theorem number?_digits {n : Nat} (h : n < 2 ^ 64) :
    Literal.number? ⟨false, digits n, [], none⟩ = some (.integer n) := by
  simp [Literal.number?, collectWhole_digits h]

theorem number?_minus_digits {n : Nat} (h : n < 2 ^ 63) :
    Literal.number? ⟨true, digits (n + 1), [], none⟩ = some (.integer (.negSucc n)) := by
  have hc : Literal.collectWhole 0 0 (digits (n + 1)) = (n + 1, 0) := collectWhole_digits (by omega)
  have hs : ¬(n + 1 = 0 ∨ 2 ^ 63 < n + 1) := by omega
  simp only [Literal.number?, hc, Bool.not_true, Bool.false_eq_true, if_false, if_true, if_neg hs]
  rfl

/-- The text of an integer is a literal, and the literal is read as that integer. -/
theorem take_integer {value : Int} (hl : -2 ^ 63 ≤ value) (hh : value < 2 ^ 64) {rest : List Char}
    (hr : Closes rest) :
    ∃ literal, Literal.take ((Number.integer value).text.toList ++ rest) = some (literal, rest) ∧
      literal.number? = some (.integer value) := by
  cases value with
  | ofNat n =>
      have hn : n < 2 ^ 64 := by
        have h : (n : Int) < 2 ^ 64 := hh
        omega
      refine ⟨⟨false, digits n, [], none⟩, ?_, number?_digits hn⟩
      rw [Number.text, toList_toString_ofNat]
      exact take_toDigits n hr
  | negSucc n =>
      have hn : n < 2 ^ 63 := by omega
      refine ⟨⟨true, digits (n + 1), [], none⟩, ?_, number?_minus_digits hn⟩
      rw [Number.text, toList_toString_negSucc]
      exact take_minus_toDigits (n + 1) hr

theorem head_integer (value : Int) :
    ∃ c cs, (Number.integer value).text.toList = c :: cs ∧ (c = '-' ∨ c.isDigit = true) := by
  cases value with
  | ofNat n =>
      obtain ⟨c, cs, hd, hc⟩ := toDigits_eq_cons n
      exact ⟨c, cs, by rw [Number.text, toList_toString_ofNat, hd], .inr hc⟩
  | negSucc n => exact ⟨'-', _, by rw [Number.text, toList_toString_negSucc], .inl rfl⟩

/-! ### Texts of values -/

/-- A character that a value may begin with. -/
def Opens (c : Char) : Prop :=
  c = 'n' ∨ c = 't' ∨ c = 'f' ∨ c = '"' ∨ c = '[' ∨ c = '\x7b' ∨ c = '-' ∨ c.isDigit = true

theorem Opens.not_isBlank {c : Char} (h : Opens c) : isBlank c = false := by
  rcases h with rfl | rfl | rfl | rfl | rfl | rfl | rfl | h
  case inr.inr.inr.inr.inr.inr.inr =>
    have hne : ∀ d : Char, d.isDigit = false → c ≠ d := fun d hd he => by
      rw [he, hd] at h
      cases h
    simp only [isBlank, hne ' ' rfl, hne '\t' rfl, hne '\n' rfl, hne '\r' rfl, decide_false, Bool.or_self]
  all_goals rfl

theorem Opens.ne_bracket {c : Char} (h : Opens c) : c ≠ ']' := by
  intro he
  subst he
  simp [Opens] at h

theorem render_opens {v : Json} (hv : v.Integral) (rest : List Char) :
    ∃ c cs, v.render rest = c :: cs ∧ Opens c := by
  cases hv with
  | null => exact ⟨'n', _, rfl, by simp [Opens]⟩
  | bool b => cases b with
    | true => exact ⟨'t', _, rfl, by simp [Opens]⟩
    | false => exact ⟨'f', _, rfl, by simp [Opens]⟩
  | string s => exact ⟨'"', _, by rw [render, quoted_append], by simp [Opens]⟩
  | @integer value _ _ =>
      obtain ⟨c, cs, ht, hc⟩ := head_integer value
      refine ⟨c, cs ++ rest, by rw [render, ht, List.cons_append], ?_⟩
      rcases hc with rfl | hc
      · simp [Opens]
      · simp [Opens, hc]
  | @array items _ => cases items with
    | nil => exact ⟨'[', _, rfl, by simp [Opens]⟩
    | cons item items => exact ⟨'[', _, rfl, by simp [Opens]⟩
  | @object fields _ => cases fields with
    | nil => exact ⟨'\x7b', _, rfl, by simp [Opens]⟩
    | cons field fields => exact ⟨'\x7b', _, rfl, by simp [Opens]⟩

theorem length_quoted_pos (s : String) : 0 < (quoted s).length := by
  simp [quoted]

mutual

/-- No value has the empty text. -/
theorem length_lt_render : (v : Json) → v.Integral → ∀ rest, rest.length < (v.render rest).length
  | null, _, rest => by
      simp only [render, List.length_cons]
      omega
  | bool true, _, rest => by
      simp only [render, List.length_cons]
      omega
  | bool false, _, rest => by
      simp only [render, List.length_cons]
      omega
  | number n, hv, rest => by
      cases hv with
      | @integer value _ _ =>
          obtain ⟨c, cs, ht, _⟩ := head_integer value
          rw [render, ht, List.length_append, List.length_cons]
          omega
  | string s, _, rest => by
      have hq := length_quoted_pos s
      rw [render, List.length_append]
      omega
  | array [], _, rest => by
      simp only [render, List.length_cons]
      omega
  | array (item :: items), hv, rest => by
      cases hv with
      | array h =>
          obtain ⟨hitem, hitems⟩ := List.forall_mem_cons.1 h
          have hv := length_lt_render item hitem (renderItems items rest)
          have hs := length_lt_renderItems items hitems rest
          rw [render, List.length_cons]
          omega
  | object [], _, rest => by
      simp only [render, List.length_cons]
      omega
  | object ((key, value) :: fields), hv, rest => by
      cases hv with
      | object h =>
          obtain ⟨hvalue, hfields⟩ := List.forall_mem_cons.1 h
          have hv := length_lt_render value hvalue (renderFields fields rest)
          have hs := length_lt_renderFields fields hfields rest
          simp only [render, List.length_cons, List.length_append]
          omega

theorem length_lt_renderItems : (items : List Json) → (∀ item ∈ items, Integral item) → ∀ rest,
    rest.length < (renderItems items rest).length
  | [], _, rest => by
      simp only [renderItems, List.length_cons]
      omega
  | item :: items, h, rest => by
      obtain ⟨hitem, hitems⟩ := List.forall_mem_cons.1 h
      have hv := length_lt_render item hitem (renderItems items rest)
      have hs := length_lt_renderItems items hitems rest
      rw [renderItems, List.length_cons]
      omega

theorem length_lt_renderFields : (fields : List (String × Json)) → (∀ field ∈ fields, Integral field.2) →
    ∀ rest, rest.length < (renderFields fields rest).length
  | [], _, rest => by
      simp only [renderFields, List.length_cons]
      omega
  | (key, value) :: fields, h, rest => by
      obtain ⟨hvalue, hfields⟩ := List.forall_mem_cons.1 h
      have hv := length_lt_render value hvalue (renderFields fields rest)
      have hs := length_lt_renderFields fields hfields rest
      simp only [renderFields, List.length_cons, List.length_append]
      omega

end

/-! ### Values -/

/-- What is neither a word, a string, an array nor an object is read as a literal. -/
theorem takeValue_literal {fuel : Nat} {c : Char} {text rest : List Char} {literal : Literal} {n : Number}
    (hc : c = '-' ∨ c.isDigit = true) (ht : Literal.take (c :: text) = some (literal, rest))
    (hn : literal.number? = some n) : takeValue (fuel + 1) (c :: text) = some (number n, rest) := by
  have hne : ∀ d : Char, d ≠ '-' → d.isDigit = false → c ≠ d := by
    intro d hd hdigit he
    subst he
    rcases hc with rfl | h
    · exact hd rfl
    · rw [hdigit] at h
      cases h
  have hblank : isBlank c = false :=
    Opens.not_isBlank (by rcases hc with rfl | h <;> simp [Opens, *])
  rw [takeValue, skipBlank_cons hblank]
  split
  case h_8 _ _ _ _ _ _ _ heq =>
    obtain ⟨rfl, rfl⟩ := List.cons.inj heq
    simp only [ht, hn, Option.map_some]
  case h_1 heq => cases heq
  all_goals
    rename_i heq
    obtain ⟨rfl, -⟩ := List.cons.inj heq
    exact absurd rfl (hne _ (by decide) rfl)

/-- Behind the opening bracket of an array that is not empty, items are read. -/
theorem takeValue_array {fuel : Nat} {c : Char} {text : List Char} (hc : Opens c) :
    takeValue (fuel + 1) ('[' :: c :: text) =
      (takeItems fuel [] (c :: text)).map fun (items, rest) => (array items, rest) := by
  rw [takeValue, skipBlank_cons rfl]
  simp only [skipBlank_cons hc.not_isBlank]
  split
  · rename_i heq
    exact absurd (List.cons.inj heq).1 hc.ne_bracket
  · rfl

theorem takeValue_object (fuel : Nat) (text : List Char) :
    takeValue (fuel + 1) ('\x7b' :: '"' :: text) =
      (takeFields fuel [] ('"' :: text)).map fun (fields, rest) => (object fields, rest) := by
  rw [takeValue, skipBlank_cons rfl]
  simp only [skipBlank_cons (show isBlank '"' = false from rfl)]
  rfl

mutual

/-- Only a number has to be told where it ends by what follows. The induction is on the
fuel: every step of the reader either uses up a character or is followed by one that does. -/
theorem takeValue_render : (fuel : Nat) → ∀ {v : Json} {rest : List Char}, v.Integral →
    (∀ n, v = number n → Closes rest) → (v.render rest).length ≤ fuel + rest.length →
    takeValue fuel (v.render rest) = some (v, rest)
  | 0, v, rest, hv, hr, hf => by
      have h := length_lt_render v hv rest
      omega
  | fuel + 1, v, rest, hv, hr, hf => by
      cases hv with
      | null => simp [render, takeValue, skipBlank_cons, isBlank, expectAll, expect]
      | bool b => cases b <;> simp [render, takeValue, skipBlank_cons, isBlank, expectAll, expect]
      | string s =>
          rw [render, quoted_append, takeValue, skipBlank_cons rfl]
          simp only [takeString_quoted, Option.map_some]
      | @integer value hl hh =>
          obtain ⟨literal, ht, hn⟩ := take_integer hl hh (hr _ rfl)
          obtain ⟨c, cs, hd, hc⟩ := head_integer value
          rw [render, hd, List.cons_append]
          rw [hd, List.cons_append] at ht
          exact takeValue_literal hc ht hn
      | @array items h => cases items with
        | nil => simp [render, takeValue, skipBlank_cons, isBlank]
        | cons item items =>
            obtain ⟨hitem, hitems⟩ := List.forall_mem_cons.1 h
            rw [render, List.length_cons] at hf
            have hlength : (item.render (renderItems items rest)).length ≤ fuel + rest.length := by omega
            have hs := takeItems_render fuel [] hitem hitems hlength
            obtain ⟨c, cs, ht, hc⟩ := render_opens hitem (renderItems items rest)
            rw [ht] at hs
            rw [render, ht, takeValue_array hc, hs]
            rfl
      | @object fields h => cases fields with
        | nil => simp [render, takeValue, skipBlank_cons, isBlank]
        | cons field fields =>
            obtain ⟨key, value⟩ := field
            obtain ⟨hvalue, hfields⟩ := List.forall_mem_cons.1 h
            rw [render, List.length_cons] at hf
            have hlength : (quoted key ++ ':' :: value.render (renderFields fields rest)).length ≤
                fuel + rest.length := by omega
            have hs := takeFields_render fuel [] key hvalue hfields hlength
            rw [quoted_append] at hs
            rw [render, quoted_append, takeValue_object, hs]
            rfl

theorem takeItems_render : (fuel : Nat) → ∀ (gathered : List Json) {item : Json} {items : List Json}
    {rest : List Char}, item.Integral → (∀ item ∈ items, Integral item) →
    (item.render (renderItems items rest)).length ≤ fuel + rest.length →
    takeItems fuel gathered (item.render (renderItems items rest)) =
      some (gathered.reverse ++ item :: items, rest)
  | 0, gathered, item, items, rest, hv, h, hf => by
      have hv := length_lt_render item hv (renderItems items rest)
      have hs := length_lt_renderItems items h rest
      omega
  | fuel + 1, gathered, item, items, rest, hv, h, hf => by
      have hbehind := length_lt_renderItems items h rest
      have ht := takeValue_render fuel hv (fun _ _ => closes_renderItems items rest) (by omega)
      have hrest := length_lt_render item hv (renderItems items rest)
      rw [takeItems, ht]
      dsimp only
      rw [(closes_renderItems items rest).skipBlank]
      cases items with
      | nil => simp [renderItems]
      | cons next items =>
          obtain ⟨hnext, hitems⟩ := List.forall_mem_cons.1 h
          rw [renderItems, List.length_cons] at hrest
          have hlength : (next.render (renderItems items rest)).length ≤ fuel + rest.length := by
            rw [renderItems] at hf
            omega
          have hs := takeItems_render fuel (item :: gathered) hnext hitems hlength
          simp only [renderItems, hs, List.reverse_cons, List.append_assoc, List.cons_append, List.nil_append]

theorem takeFields_render : (fuel : Nat) → ∀ (gathered : List (String × Json)) (key : String) {value : Json}
    {fields : List (String × Json)} {rest : List Char},
    value.Integral → (∀ field ∈ fields, Integral field.2) →
    (quoted key ++ ':' :: value.render (renderFields fields rest)).length ≤ fuel + rest.length →
    takeFields fuel gathered (quoted key ++ ':' :: value.render (renderFields fields rest)) =
      some (gathered.reverse ++ (key, value) :: fields, rest)
  | 0, gathered, key, value, fields, rest, hv, h, hf => by
      have hv := length_lt_render value hv (renderFields fields rest)
      have hs := length_lt_renderFields fields h rest
      rw [List.length_append, List.length_cons] at hf
      omega
  | fuel + 1, gathered, key, value, fields, rest, hv, h, hf => by
      have hbehind := length_lt_renderFields fields h rest
      have hkey := length_quoted_pos key
      have hrest := length_lt_render value hv (renderFields fields rest)
      rw [List.length_append, List.length_cons] at hf
      have ht := takeValue_render fuel hv (fun _ _ => closes_renderFields fields rest) (by omega)
      have hcolon (cs : List Char) : skipBlank (':' :: cs) = ':' :: cs := skipBlank_cons rfl
      rw [quoted_append, takeFields, skipBlank_cons rfl]
      simp only [takeString_quoted, hcolon, ht, (closes_renderFields fields rest).skipBlank]
      cases fields with
      | nil => simp [renderFields]
      | cons next fields =>
          obtain ⟨nextKey, nextValue⟩ := next
          obtain ⟨hnext, hfields⟩ := List.forall_mem_cons.1 h
          rw [renderFields, List.length_cons] at hrest
          have hlength : (quoted nextKey ++ ':' :: nextValue.render (renderFields fields rest)).length ≤
              fuel + rest.length := by
            rw [renderFields] at hf
            omega
          have hs := takeFields_render fuel ((key, value) :: gathered) nextKey hnext hfields hlength
          simp only [renderFields, hs, List.reverse_cons, List.append_assoc, List.cons_append, List.nil_append]

end

/-- A value whose numbers are integers is read back from its text. -/
theorem read?_text {v : Json} (hv : v.Integral) : read? v.text = some v := by
  have hf : (v.render []).length ≤ (2 * (v.render []).length + 1) + ([] : List Char).length := by
    rw [List.length_nil]
    omega
  have ht := takeValue_render _ hv (fun _ _ => closes_nil) hf
  rw [read?, text, String.toList_ofList, ht]
  rfl

/-- No two values whose numbers are integers have one text. -/
theorem eq_of_text_eq {v w : Json} (hv : v.Integral) (hw : w.Integral) (h : v.text = w.text) : v = w := by
  have hr : some v = some w := by rw [← read?_text hv, ← read?_text hw, h]
  exact Option.some.inj hr

end Docket.Json
