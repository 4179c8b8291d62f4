import Docket.Json.Printer
import Docket.Json.Reader

/-!
# Quoted strings are read as they were written

Every character comes back from its escape, so a string comes back from its
quoted form, whatever characters it holds and whatever follows the closing quote.
-/
namespace Docket.Json

open Text (hexDigit hexValue?)

/-- Hexadecimal digits as far as a control character needs them. -/
theorem hexValue?_hexDigit {n : Nat} (h : n < 16) : hexValue? (hexDigit n) = some n := by
  have all : ∀ n < 16, hexValue? (hexDigit n) = some n := by decide
  exact all n h

/-- The four hexadecimal digits of a control character spell its code. -/
theorem unit?_control {n : Nat} (h : n < 32) :
    unit? '0' '0' (hexDigit (n / 16)) (hexDigit (n % 16)) = some n := by
  have hz : hexValue? '0' = some 0 := by decide
  have hhigh := hexValue?_hexDigit (show n / 16 < 16 by omega)
  have hlow := hexValue?_hexDigit (show n % 16 < 16 by omega)
  have hsum : n / 16 * 16 + n % 16 = n := Nat.div_add_mod' n 16
  simp [unit?, hz, hhigh, hlow, hsum]

theorem takeString_unit (gathered rest : List Char) {n : Nat} (h : n < 32) :
    takeString gathered ('\\' :: 'u' :: '0' :: '0' :: hexDigit (n / 16) :: hexDigit (n % 16) :: rest) =
      takeString (Char.ofNat n :: gathered) rest := by
  have hlow : ¬(0xdc00 ≤ n ∧ n ≤ 0xdfff) := by omega
  have hhigh : ¬(0xd800 ≤ n ∧ n ≤ 0xdbff) := by omega
  rw [takeString, unit?_control h]
  simp only [if_neg hlow, if_neg hhigh]

theorem takeString_short {gathered rest : List Char} {c escaped : Char} (hu : c ≠ 'u')
    (h : shortEscape? c = some escaped) :
    takeString gathered ('\\' :: c :: rest) = takeString (escaped :: gathered) rest := by
  rw [takeString.eq_def]
  split
  · rename_i heq
    cases heq
  · rename_i heq
    exact absurd (List.cons.inj heq).1 (by decide)
  · rename_i heq
    exact absurd (List.cons.inj (List.cons.inj heq).2).1 hu
  · rename_i heq
    obtain ⟨-, hrest⟩ := List.cons.inj heq
    obtain ⟨rfl, rfl⟩ := List.cons.inj hrest
    rw [h]
  · rename_i hne heq
    obtain ⟨hc, rfl⟩ := List.cons.inj heq
    exact (hne c rest hc.symm rfl).elim

theorem takeString_plain {gathered rest : List Char} {c : Char} (hq : c ≠ '"') (hb : c ≠ '\\')
    (hs : ¬c < ' ') : takeString gathered (c :: rest) = takeString (c :: gathered) rest := by
  rw [takeString.eq_def]
  split
  · rename_i heq
    cases heq
  · rename_i heq
    exact absurd (List.cons.inj heq).1 hq
  · rename_i heq
    exact absurd (List.cons.inj heq).1 hb
  · rename_i heq
    exact absurd (List.cons.inj heq).1 hb
  · rename_i heq
    obtain ⟨rfl, rfl⟩ := List.cons.inj heq
    rw [if_neg (by simp [hs, hb])]

/-- The characters whose escape is a backslash and a letter or the character itself. -/
def shortlyEscaped : List Char :=
  ['"', '\\', '\x08', '\t', '\n', '\x0c', '\r']

theorem escape_of_shortlyEscaped {c : Char} (h : c ∈ shortlyEscaped) :
    ∃ letter, escape c = ['\\', letter] ∧ letter ≠ 'u' ∧ shortEscape? letter = some c := by
  have all : shortlyEscaped.all (fun c => decide (escape c = ['\\', (escape c).getD 1 'u'] ∧
      (escape c).getD 1 'u' ≠ 'u' ∧ shortEscape? ((escape c).getD 1 'u') = some c)) = true := by decide
  exact ⟨_, of_decide_eq_true (List.all_eq_true.1 all c h)⟩

theorem escape_of_control {c : Char} (h : c ∉ shortlyEscaped) (hc : c < ' ') :
    escape c = ['\\', 'u', '0', '0', hexDigit (c.toNat / 16), hexDigit (c.toNat % 16)] := by
  simp only [shortlyEscaped, List.mem_cons, List.not_mem_nil, or_false, not_or] at h
  simp [escape, h, hc]

theorem escape_of_plain {c : Char} (h : c ∉ shortlyEscaped) (hc : ¬c < ' ') : escape c = [c] := by
  simp only [shortlyEscaped, List.mem_cons, List.not_mem_nil, or_false, not_or] at h
  simp [escape, h, hc]

/-- Every character is read from its escape. -/
theorem takeString_escape (gathered rest : List Char) (c : Char) :
    takeString gathered (escape c ++ rest) = takeString (c :: gathered) rest := by
  by_cases hs : c ∈ shortlyEscaped
  · obtain ⟨letter, he, hu, hc⟩ := escape_of_shortlyEscaped hs
    rw [he]
    exact takeString_short hu hc
  · by_cases hc : c < ' '
    · have hn : c.toNat < 32 := hc
      have hu := takeString_unit gathered rest hn
      rw [Char.ofNat_toNat] at hu
      rw [escape_of_control hs hc]
      exact hu
    · rw [escape_of_plain hs hc]
      simp only [shortlyEscaped, List.mem_cons, List.not_mem_nil, or_false, not_or] at hs
      exact takeString_plain hs.1 hs.2.1 hc

/-- A string is read from its escapes up to the closing quote. -/
theorem takeString_escapes (gathered cs rest : List Char) :
    takeString gathered (cs.flatMap escape ++ '"' :: rest) =
      some (String.ofList (gathered.reverse ++ cs), rest) := by
  induction cs generalizing gathered with
  | nil => simp [takeString]
  | cons c cs ih =>
      rw [List.flatMap_cons, List.append_assoc, takeString_escape, ih, List.reverse_cons, List.append_assoc]
      rfl

theorem quoted_append (s : String) (rest : List Char) :
    quoted s ++ rest = '"' :: (s.toList.flatMap escape ++ '"' :: rest) := by
  simp [quoted]

/-- Behind its opening quote, a string is read with its closing quote. -/
theorem takeString_quoted (s : String) (rest : List Char) :
    takeString [] (s.toList.flatMap escape ++ '"' :: rest) = some (s, rest) := by
  rw [takeString_escapes, List.reverse_nil, List.nil_append, String.ofList_toList]

end Docket.Json
