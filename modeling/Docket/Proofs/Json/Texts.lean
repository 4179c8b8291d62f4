import Docket.Proofs.Json.Reading

/-!
# Where the text of a value begins and ends

The first character of a text tells the kind of its value. The text of anything but a
number shows where it ends, so that two of them that begin texts which are equal are
texts of one value, whatever comes after them. No text at all ends in a letter d. A text
is one line, and blanks behind it do not keep it from being read.
-/
namespace Docket.Json

open Numeral

/-- The character that opens the text of a value; a number has several, and does not
show where it ends. -/
def opener? : Json → Option Char
  | null => some 'n'
  | bool true => some 't'
  | bool false => some 'f'
  | string _ => some '"'
  | array _ => some '['
  | object _ => some '\x7b'
  | number _ => none

theorem render_of_opener {v : Json} {c : Char} (h : v.opener? = some c) (rest : List Char) :
    ∃ tail, v.render rest = c :: tail := by
  cases v with
  | null | string _ =>
      cases h
      exact ⟨_, rfl⟩
  | bool b =>
      cases b <;> cases h <;> exact ⟨_, rfl⟩
  | array items =>
      cases h
      cases items <;> exact ⟨_, rfl⟩
  | object fields =>
      cases h
      cases fields <;> exact ⟨_, rfl⟩
  | number n => cases h

/-- Texts that open with a character of their own kind are told apart from what follows them. -/
theorem eq_of_render_eq {v w : Json} {c d : Char} {rest others : List Char} (hv : v.Integral) (hw : w.Integral)
    (hc : v.opener? = some c) (hd : w.opener? = some d) (h : v.render rest = w.render others) :
    v = w ∧ rest = others := by
  have hnumber : ∀ {u : Json} {e : Char} (cs : List Char), u.opener? = some e → ∀ n, u = number n → Closes cs := by
    intro u e cs he n hn
    rw [hn] at he
    cases he
  have hfirst := takeValue_render (v.render rest).length hv (hnumber rest hc) (Nat.le_add_right _ _)
  have hsecond := takeValue_render (w.render others).length hw (hnumber others hd) (Nat.le_add_right _ _)
  rw [h, hsecond] at hfirst
  have hpair := Prod.mk.inj (Option.some.inj hfirst)
  exact ⟨hpair.1.symm, hpair.2.symm⟩

/-! ### What stands behind a text -/

mutual

/-- A text is put in front of what follows. -/
theorem render_append : (v : Json) → ∀ a b, v.render (a ++ b) = v.render a ++ b
  | null, _, _ => rfl
  | bool true, _, _ => rfl
  | bool false, _, _ => rfl
  | number n, a, b => (List.append_assoc n.text.toList a b).symm
  | string s, a, b => (List.append_assoc (quoted s) a b).symm
  | array [], _, _ => rfl
  | array (item :: rest), a, b => by
      rw [render, renderItems_append rest a b, render_append item (renderItems rest a) b, render, List.cons_append]
  | object [], _, _ => rfl
  | object ((key, value) :: rest), a, b => by
      rw [render, renderFields_append rest a b, render_append value (renderFields rest a) b, render,
        List.cons_append, List.append_assoc, List.cons_append]

theorem renderItems_append : (items : List Json) → ∀ a b, renderItems items (a ++ b) = renderItems items a ++ b
  | [], _, _ => rfl
  | item :: rest, a, b => by
      rw [renderItems, renderItems_append rest a b, render_append item (renderItems rest a) b, renderItems,
        List.cons_append]

theorem renderFields_append : (fields : List (String × Json)) → ∀ a b,
    renderFields fields (a ++ b) = renderFields fields a ++ b
  | [], _, _ => rfl
  | (key, value) :: rest, a, b => by
      rw [renderFields, renderFields_append rest a b, render_append value (renderFields rest a) b, renderFields,
        List.cons_append, List.append_assoc, List.cons_append]

end

theorem renderItems_eq_append (items : List Json) (rest : List Char) :
    ∃ front, renderItems items rest = front ++ ']' :: rest := by
  induction items with
  | nil => exact ⟨[], rfl⟩
  | cons item items ih =>
      obtain ⟨front, hf⟩ := ih
      exact ⟨',' :: item.render front, by rw [renderItems, hf, render_append, List.cons_append]⟩

theorem renderFields_eq_append (fields : List (String × Json)) (rest : List Char) :
    ∃ front, renderFields fields rest = front ++ '\x7d' :: rest := by
  induction fields with
  | nil => exact ⟨[], rfl⟩
  | cons field fields ih =>
      obtain ⟨key, value⟩ := field
      obtain ⟨front, hf⟩ := ih
      refine ⟨',' :: (quoted key ++ ':' :: value.render front), ?_⟩
      rw [renderFields, hf, render_append, List.cons_append, List.append_assoc, List.cons_append]

/-! ### The last character -/

/-- The characters are some, and none of them is the letter d. -/
structure Spared (cs : List Char) : Prop where
  ne_nil : cs ≠ []
  not_mem : 'd' ∉ cs

theorem spared_toDigits (n : Nat) : Spared (Nat.toDigits 10 n) where
  ne_nil := Nat.toDigits_ne_nil
  not_mem h := absurd (isDigit_of_mem_toDigits 'd' h) (by decide)

theorem spared_digitText (d : Decimal) : Spared d.digitText := by
  rw [Decimal.digitText, show (toString d.digits).toList = Nat.toDigits 10 d.digits from Nat.toList_repr]
  exact spared_toDigits d.digits

theorem spared_positional (d : Decimal) (keepsPoint : Bool) : Spared (d.positional keepsPoint) := by
  obtain ⟨hne, hd⟩ := spared_digitText d
  unfold Decimal.positional
  dsimp only
  split
  · refine ⟨by simp [hne], ?_⟩
    cases keepsPoint <;> simp [hd]
  · split
    · refine ⟨by simp, ?_⟩
      intro h
      rcases List.mem_append.1 h with h | h
      · exact hd (List.mem_of_mem_take h)
      · rcases List.mem_cons.1 h with h | h
        · exact absurd h (by decide)
        · exact hd (List.mem_of_mem_drop h)
    · exact ⟨by simp, by simp [hd]⟩

theorem spared_scientific (d : Decimal) : Spared d.scientific := by
  obtain ⟨-, hd⟩ := spared_digitText d
  have he : 'd' ∉ (toString d.leading.natAbs).toList := by
    rw [show (toString d.leading.natAbs).toList = Nat.toDigits 10 d.leading.natAbs from Nat.toList_repr]
    exact (spared_toDigits _).not_mem
  unfold Decimal.scientific
  dsimp only
  refine ⟨by simp, fun h => ?_⟩
  rcases List.mem_append.1 h with h | h
  · generalize d.digitText = cs at hd h
    split at h
    · cases h
    · exact hd h
    · rename_i first rest _
      simp only [List.mem_cons, not_or] at hd h
      rcases h with h | h | h
      · exact hd.1 h
      · exact absurd h (by decide)
      · exact hd.2 h
  · rcases List.mem_cons.1 h with h | h
    · exact absurd h (by decide)
    · rcases List.mem_cons.1 h with h | h
      · split at h <;> exact absurd h (by decide)
      · exact he h

theorem spared_number (n : Number) : Spared n.text.toList := by
  have hdecimal : ∀ d : Decimal, Spared (d.text .document) := by
    intro d
    unfold Decimal.text
    split
    · exact spared_positional d _
    · exact spared_scientific d
  have hsign : ∀ {cs : List Char} (negative : Bool), Spared cs →
      Spared (String.ofList (if negative then '-' :: cs else cs)).toList := by
    intro cs negative h
    rw [String.toList_ofList]
    split
    · exact ⟨by simp, by simp [h.not_mem]⟩
    · exact h
  have hnull : Spared "null".toList := ⟨by decide, by decide⟩
  cases n with
  | integer value =>
      cases value with
      | ofNat n =>
          rw [Number.text, toList_toString_ofNat]
          exact spared_toDigits n
      | negSucc n =>
          rw [Number.text, toList_toString_negSucc]
          exact ⟨by simp, by simp [(spared_toDigits (n + 1)).not_mem]⟩
  | double bits =>
      rw [Number.text, Format.text]
      dsimp only
      split
      · exact hsign _ (hdecimal _)
      · exact hsign _ (hdecimal _)
      · exact hsign _ hnull
      · exact hnull

/-- A text has a last character, and that is no letter d. -/
theorem exists_last_render (v : Json) : ∃ front c, v.render [] = front ++ [c] ∧ c ≠ 'd' := by
  cases v with
  | null => exact ⟨['n', 'u', 'l'], 'l', rfl, by decide⟩
  | bool b =>
      cases b with
      | true => exact ⟨['t', 'r', 'u'], 'e', rfl, by decide⟩
      | false => exact ⟨['f', 'a', 'l', 's'], 'e', rfl, by decide⟩
  | number n =>
      obtain ⟨hne, hd⟩ := spared_number n
      refine ⟨n.text.toList.dropLast, n.text.toList.getLast hne, ?_, ?_⟩
      · rw [List.dropLast_concat_getLast, render, List.append_nil]
      · exact fun he => hd (he ▸ List.getLast_mem hne)
  | string s => exact ⟨'"' :: s.toList.flatMap escape, '"', by simp [render, quoted], by decide⟩
  | array items =>
      cases items with
      | nil => exact ⟨['['], ']', rfl, by decide⟩
      | cons item items =>
          obtain ⟨front, hf⟩ := renderItems_eq_append items []
          exact ⟨'[' :: item.render front, ']', by rw [render, hf, render_append, List.cons_append], by decide⟩
  | object fields =>
      cases fields with
      | nil => exact ⟨['\x7b'], '\x7d', rfl, by decide⟩
      | cons field fields =>
          obtain ⟨key, value⟩ := field
          obtain ⟨front, hf⟩ := renderFields_eq_append fields []
          refine ⟨'\x7b' :: (quoted key ++ ':' :: value.render front), '\x7d', ?_, by decide⟩
          rw [render, hf, render_append, List.cons_append, List.append_assoc, List.cons_append]

/-! ### One line -/

/-- None of the characters is a control character. -/
def Printed (cs : List Char) : Prop :=
  ∀ c ∈ cs, ' ' ≤ c

theorem Printed.cons {c : Char} {cs : List Char} (hc : ' ' ≤ c) (h : Printed cs) : Printed (c :: cs) :=
  List.forall_mem_cons.2 ⟨hc, h⟩

theorem Printed.append {cs ds : List Char} (hc : Printed cs) (hd : Printed ds) : Printed (cs ++ ds) :=
  List.forall_mem_append.2 ⟨hc, hd⟩

theorem printed_of_all {cs : List Char} (h : (cs.all fun c => decide (' ' ≤ c)) = true) : Printed cs :=
  fun c hc => of_decide_eq_true (List.all_eq_true.1 h c hc)

theorem printed_escape (c : Char) : Printed (escape c) := by
  by_cases hs : c ∈ shortlyEscaped
  · have all : (shortlyEscaped.all fun c => (escape c).all fun d => decide (' ' ≤ d)) = true := by decide
    exact printed_of_all (List.all_eq_true.1 all c hs)
  · by_cases hc : c < ' '
    · have digits : ∀ n < 16, ' ' ≤ Text.hexDigit n := by decide
      have hn : c.toNat < 32 := hc
      have hhigh := digits (c.toNat / 16) (by omega)
      have hlow := digits (c.toNat % 16) (by omega)
      rw [escape_of_control hs hc]
      simp [Printed, hhigh, hlow]
    · rw [escape_of_plain hs hc]
      exact List.forall_mem_singleton.2 (Char.not_lt.1 hc)

theorem printed_quoted (s : String) : Printed (quoted s) := by
  have hbody : Printed (s.toList.flatMap escape) := by
    intro d hd
    obtain ⟨c, -, hc⟩ := List.mem_flatMap.1 hd
    exact printed_escape c d hc
  have hquote : ' ' ≤ '"' := by decide
  exact (hbody.append (List.forall_mem_singleton.2 hquote)).cons hquote

theorem printed_toDigits (n : Nat) : Printed (Nat.toDigits 10 n) := by
  intro c hc
  have hd := isDigit_of_mem_toDigits c hc
  simp only [Char.isDigit, Bool.and_eq_true, decide_eq_true_eq] at hd
  exact Char.le_trans (show ' ' ≤ '0' by decide) hd.1

theorem printed_integer (value : Int) : Printed (Number.integer value).text.toList := by
  cases value with
  | ofNat n =>
      rw [Number.text, toList_toString_ofNat]
      exact printed_toDigits n
  | negSucc n =>
      rw [Number.text, toList_toString_negSucc]
      exact (printed_toDigits (n + 1)).cons (by decide)

mutual

/-- In a text no control character stands for itself. -/
theorem printed_render : (v : Json) → v.Integral → ∀ {after}, Printed after → Printed (v.render after)
  | null, _, _, ha => (show Printed ['n', 'u', 'l', 'l'] from printed_of_all (by decide)).append ha
  | bool true, _, _, ha => (show Printed ['t', 'r', 'u', 'e'] from printed_of_all (by decide)).append ha
  | bool false, _, _, ha => (show Printed ['f', 'a', 'l', 's', 'e'] from printed_of_all (by decide)).append ha
  | number n, hv, after, ha => by
      cases hv with
      | @integer value _ _ => exact (printed_integer value).append ha
  | string s, _, _, ha => (printed_quoted s).append ha
  | array [], _, _, ha => (ha.cons (by decide)).cons (by decide)
  | array (item :: items), hv, after, ha => by
      obtain ⟨hitem, hitems⟩ := List.forall_mem_cons.1 (integral_array.1 hv)
      rw [render]
      exact (printed_render item hitem (printed_renderItems items hitems ha)).cons (by decide)
  | object [], _, _, ha => (ha.cons (by decide)).cons (by decide)
  | object ((key, value) :: fields), hv, after, ha => by
      obtain ⟨hvalue, hfields⟩ := List.forall_mem_cons.1 (integral_object.1 hv)
      have hbehind := printed_render value hvalue (printed_renderFields fields hfields ha)
      rw [render]
      exact ((printed_quoted key).append (hbehind.cons (by decide))).cons (by decide)

theorem printed_renderItems : (items : List Json) → (∀ item ∈ items, Integral item) → ∀ {after}, Printed after →
    Printed (renderItems items after)
  | [], _, _, ha => ha.cons (by decide)
  | item :: items, h, after, ha => by
      obtain ⟨hitem, hitems⟩ := List.forall_mem_cons.1 h
      rw [renderItems]
      exact (printed_render item hitem (printed_renderItems items hitems ha)).cons (by decide)

theorem printed_renderFields : (fields : List (String × Json)) → (∀ field ∈ fields, Integral field.2) → ∀ {after},
    Printed after → Printed (renderFields fields after)
  | [], _, _, ha => ha.cons (by decide)
  | (key, value) :: fields, h, after, ha => by
      obtain ⟨hvalue, hfields⟩ := List.forall_mem_cons.1 h
      have hbehind := printed_render value hvalue (printed_renderFields fields hfields ha)
      rw [renderFields]
      exact ((printed_quoted key).append (hbehind.cons (by decide))).cons (by decide)

end

/-- A text is one line, whatever characters the strings of the value hold. -/
theorem newline_not_mem_text {v : Json} (hv : v.Integral) : '\n' ∉ v.text.toList := by
  intro hn
  have hp : Printed (v.render []) := printed_render v hv fun _ h => absurd h List.not_mem_nil
  rw [text, String.toList_ofList] at hn
  exact absurd (hp '\n' hn) (by decide)

theorem skipBlank_eq_nil {cs : List Char} (h : ∀ c ∈ cs, isBlank c = true) : skipBlank cs = [] := by
  induction cs with
  | nil => rfl
  | cons c cs ih =>
      obtain ⟨hc, hcs⟩ := List.forall_mem_cons.1 h
      rw [skipBlank, if_pos hc, ih hcs]

/-- A value is read from its text with blanks behind it, if these cannot be taken for
the rest of a number. -/
theorem read?_text_append {v : Json} {blanks : String} (hv : v.Integral) (hn : ∀ n, v ≠ number n)
    (hb : ∀ c ∈ blanks.toList, isBlank c = true) : read? (v.text ++ blanks) = some v := by
  have htext : (v.text ++ blanks).toList = v.render blanks.toList := by
    rw [String.toList_append, text, String.toList_ofList, ← render_append, List.nil_append]
  have ht : takeValue (2 * (v.render blanks.toList).length + 1) (v.render blanks.toList) = some (v, blanks.toList) :=
    takeValue_render _ hv (fun n h => absurd h (hn n)) (by omega)
  rw [read?, htext, ht]
  dsimp only
  rw [skipBlank_eq_nil hb]
  rfl

end Docket.Json
