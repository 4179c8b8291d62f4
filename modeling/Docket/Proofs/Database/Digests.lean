import Docket.Proofs.Commit.Address
import Docket.Proofs.Database.Writes
import Docket.Proofs.Json.Texts

/-!
# Which bodies have one digest

What is digested for a revision is the identifier, and behind it the names and texts of
all fields in a row, with nothing in between. A deletion is told apart from every
document. Two documents have one digest exactly when their rows are the same, and a row
does not show where a name ends: `line` with 12 and `line1` with 2 make one row. Rows
do tell the fields where every value shows by its first character, which no name
contains, that it begins, and by itself where it ends; the documents that commits build
are of this kind if no field has a quote in its name.
-/
namespace Docket

theorem Text.Utf8.encode_append (a b : String) : encode (a ++ b) = encode a ++ encode b := by
  simp [encode]

theorem Text.Utf8.encode_inj {a b : String} : encode a = encode b ↔ a = b := by
  refine ⟨fun h => ?_, fun h => by rw [h]⟩
  have hd := Blob.decode_text a
  rw [h, Blob.decode_text] at hd
  exact (Except.ok.inj hd).symm

namespace Database

/-- Names and texts of fields, all in a row. -/
def row (fields : List (String × Json)) : List Char :=
  fields.flatMap fun e => e.1.toList ++ e.2.render []

theorem row_cons (e : String × Json) (fields : List (String × Json)) :
    row (e :: fields) = e.1.toList ++ e.2.render (row fields) := by
  rw [row, List.flatMap_cons, ← row, List.append_assoc, ← Json.render_append, List.nil_append]

theorem digestInput_some (id : String) (document : Document) :
    digestInput id (some document) = Text.Utf8.encode (id ++ String.ofList (row document.body)) := by
  rw [digestInput, Text.Utf8.encode_append]
  congr 1
  induction document.body with
  | nil => rfl
  | cons e fields ih =>
      rw [List.flatMap_cons, ih, row_cons, String.ofList_append, Text.Utf8.encode_append, String.ofList_toList,
        List.append_assoc, Json.text, ← Text.Utf8.encode_append, ← String.ofList_append, ← Json.render_append,
        List.nil_append]

theorem digestInput_none (id : String) : digestInput id none = Text.Utf8.encode (id ++ "deleted") :=
  (Text.Utf8.encode_append id "deleted").symm

theorem digestInput_eq_iff {id : String} {a b : Document} :
    digestInput id (some a) = digestInput id (some b) ↔ row a.body = row b.body := by
  rw [digestInput_some, digestInput_some, Text.Utf8.encode_inj]
  constructor
  · intro h
    have hl := congrArg String.toList h
    rw [String.toList_append, String.toList_append, String.toList_ofList, String.toList_ofList] at hl
    exact List.append_cancel_left hl
  · intro h
    rw [h]

/-! ### Deletions -/

theorem row_last (fields : List (String × Json)) :
    row fields = [] ∨ ∃ front c, row fields = front ++ [c] ∧ c ≠ 'd' := by
  rcases List.eq_nil_or_concat' fields with rfl | ⟨fields, e, rfl⟩
  · exact .inl rfl
  · obtain ⟨front, c, ht, hc⟩ := Json.exists_last_render e.2
    refine .inr ⟨row fields ++ (e.1.toList ++ front), c, ?_, hc⟩
    rw [row, List.flatMap_append, ← row, List.flatMap_singleton, ht, List.append_assoc, List.append_assoc]

/-- The mark of a deletion ends in a letter that ends no text. -/
theorem digestInput_ne_deletion (id : String) (document : Document) :
    digestInput id (some document) ≠ digestInput id none := by
  intro h
  rw [digestInput_some, digestInput_none, Text.Utf8.encode_inj] at h
  have hl := congrArg String.toList h
  rw [String.toList_append, String.toList_append, String.toList_ofList] at hl
  have hrow : row document.body = ['d', 'e', 'l', 'e', 't', 'e'] ++ ['d'] := List.append_cancel_left hl
  rcases row_last document.body with hn | ⟨front, c, hf, hc⟩
  · rw [hn] at hrow
    cases hrow
  · rw [hf] at hrow
    exact hc (List.cons.inj (List.append_inj' hrow rfl).2).1

/-! ### Rows that tell their fields -/

/-- Every value opens with one of the characters, and no name contains one. Then a name
ends where the first of them stands, and the value where its text is complete. -/
structure Delimited (openers : List Char) (fields : List (String × Json)) : Prop where
  names : ∀ e ∈ fields, ∀ c ∈ e.1.toList, c ∉ openers
  opens : ∀ e ∈ fields, ∃ c ∈ openers, e.2.opener? = some c
  integral : ∀ e ∈ fields, e.2.Integral

variable {openers : List Char} {fields others : List (String × Json)}

theorem takeWhile_row {name rest : List Char} {c : Char} (hn : ∀ c ∈ name, c ∉ openers) (hc : c ∈ openers) :
    (name ++ c :: rest).takeWhile (· ∉ openers) = name := by
  rw [List.takeWhile_append_of_pos fun c hm => decide_eq_true (hn c hm), List.takeWhile_cons_of_neg (by simpa using hc),
    List.append_nil]

theorem Delimited.tail {e : String × Json} (h : Delimited openers (e :: fields)) : Delimited openers fields where
  names := (List.forall_mem_cons.1 h.names).2
  opens := (List.forall_mem_cons.1 h.opens).2
  integral := (List.forall_mem_cons.1 h.integral).2

/-- The first name of a row is followed by the opening character of its value. -/
theorem Delimited.row_cons_eq {e : String × Json} (h : Delimited openers (e :: fields)) :
    ∃ c tail, c ∈ openers ∧ e.2.opener? = some c ∧ row (e :: fields) = e.1.toList ++ c :: tail := by
  obtain ⟨c, hc, ho⟩ := h.opens e List.mem_cons_self
  obtain ⟨tail, ht⟩ := Json.render_of_opener ho (row fields)
  exact ⟨c, tail, hc, ho, by rw [row_cons, ht]⟩

theorem eq_of_row_eq (ha : Delimited openers fields) (hb : Delimited openers others) (h : row fields = row others) :
    fields = others := by
  induction fields generalizing others with
  | nil =>
      cases others with
      | nil => rfl
      | cons f others =>
          obtain ⟨c, tail, -, -, ht⟩ := hb.row_cons_eq
          exact absurd (h.trans ht).symm (by simp [row])
  | cons e fields ih =>
      obtain ⟨c, tail, hc, ho, ht⟩ := ha.row_cons_eq
      cases others with
      | nil => exact absurd (h.symm.trans ht).symm (by simp [row])
      | cons f others =>
          obtain ⟨d, more, hd, hp, hm⟩ := hb.row_cons_eq
          have hname : e.1.toList = f.1.toList := by
            have hw := congrArg (List.takeWhile (· ∉ openers)) ((ht.symm.trans h).trans hm)
            rwa [takeWhile_row (ha.names e List.mem_cons_self) hc, takeWhile_row (hb.names f List.mem_cons_self) hd]
              at hw
          rw [row_cons, row_cons, hname] at h
          obtain ⟨hvalue, hrest⟩ := Json.eq_of_render_eq (ha.integral e List.mem_cons_self)
            (hb.integral f List.mem_cons_self) ho hp (List.append_cancel_left h)
          rw [Prod.ext (String.toList_inj.1 hname) hvalue, ih ha.tail hb.tail hrest]

/-! ### Revisions -/

/-- Different bytes, of whose digests a revision shows the same half. -/
def Collide (x y : List UInt8) : Prop :=
  x ≠ y ∧ (Digest.sha256 x).take 16 = (Digest.sha256 y).take 16

theorem hexDigit_inj {n m : Nat} (hn : n < 16) (hm : m < 16) (h : Text.hexDigit n = Text.hexDigit m) : n = m := by
  have all : ∀ i j : Fin 16, Text.hexDigit i = Text.hexDigit j → i = j := by decide
  exact congrArg Fin.val (all ⟨n, hn⟩ ⟨m, hm⟩ h)

theorem hexOfBytes_inj {x y : List UInt8} (h : Text.hexOfBytes x = Text.hexOfBytes y) : x = y := by
  have hl := congrArg String.toList h
  rw [Text.hexOfBytes, Text.hexOfBytes, String.toList_ofList, String.toList_ofList] at hl
  clear h
  induction x generalizing y with
  | nil =>
      cases y with
      | nil => rfl
      | cons b y => cases hl
  | cons a x ih =>
      cases y with
      | nil => cases hl
      | cons b y =>
          obtain ⟨hhigh, hl⟩ := List.cons.inj hl
          obtain ⟨hlow, hl⟩ := List.cons.inj hl
          have ha := a.toNat_lt
          have hb := b.toNat_lt
          have hq := hexDigit_inj (by omega) (by omega) hhigh
          have hr := hexDigit_inj (Nat.mod_lt _ (by decide)) (Nat.mod_lt _ (by decide)) hlow
          rw [UInt8.toNat_inj.1 (show a.toNat = b.toNat by omega), ih hl]

theorem revision_eq_iff {n m : Nat} {id other : String} {x y : Option Document} :
    revision n id x = revision m other y ↔ n = m ∧
      (Digest.sha256 (digestInput id x)).take 16 = (Digest.sha256 (digestInput other y)).take 16 := by
  constructor
  · intro h
    obtain rfl := generation_eq_of_revision_eq h
    refine ⟨rfl, hexOfBytes_inj (String.toList_inj.1 ?_)⟩
    have hl := congrArg String.toList h
    simp only [revision, String.toList_append] at hl
    exact List.append_cancel_left hl
  · rintro ⟨rfl, h⟩
    rw [revision, revision, h]

/-- For every identifier a deletion is digested from other bytes than any document, and
two documents are digested from the same bytes exactly when the rows of their fields
are the same. Of delimited fields they are only if the fields are. So equal revisions
mean equal generations and equal rows, unless two different byte strings have been
found that the digest does not tell apart. -/
theorem revision_separates (id : String) (a b : Document) :
    digestInput id (some a) ≠ digestInput id none ∧
      (digestInput id (some a) = digestInput id (some b) ↔ row a.body = row b.body) ∧
      (∀ openers, Delimited openers a.body → Delimited openers b.body →
        (digestInput id (some a) = digestInput id (some b) ↔ a.body = b.body)) ∧
      ∀ n m,
        (revision n id (some a) = revision m id none → Collide (digestInput id (some a)) (digestInput id none)) ∧
        (revision n id (some a) = revision m id (some b) ↔
          n = m ∧ (row a.body = row b.body ∨ Collide (digestInput id (some a)) (digestInput id (some b)))) := by
  refine ⟨digestInput_ne_deletion id a, digestInput_eq_iff, fun openers ha hb => ?_, fun n m => ⟨fun h => ?_, ?_⟩⟩
  · rw [digestInput_eq_iff]
    exact ⟨eq_of_row_eq ha hb, fun h => by rw [h]⟩
  · exact ⟨digestInput_ne_deletion id a, (revision_eq_iff.1 h).2⟩
  · have hrows : digestInput id (some a) = digestInput id (some b) ↔ row a.body = row b.body := digestInput_eq_iff
    rw [revision_eq_iff, ← hrows]
    refine and_congr_right fun _ => ?_
    by_cases h : digestInput id (some a) = digestInput id (some b)
    · simp [h]
    · simp [h, Collide]

/-- A field named line with 12. -/
def shortName : Document :=
  .ofList [("_id", .string "x"), ("line", .ofNat 12)]

/-- A field named line1 with 2. -/
def longName : Document :=
  .ofList [("_id", .string "x"), ("line1", .ofNat 2)]

/-- The two bodies make one row, and so the same revision at every generation. -/
theorem revision_confuses_lines : shortName.body ≠ longName.body ∧
    digestInput "x" (some shortName) = digestInput "x" (some longName) ∧
    ∀ n, revision n "x" (some shortName) = revision n "x" (some longName) := by
  have hinput : digestInput "x" (some shortName) = digestInput "x" (some longName) :=
    digestInput_eq_iff.2 (by decide)
  refine ⟨fun h => ?_, hinput, fun n => by rw [revision, revision, hinput]⟩
  exact absurd (congrArg (List.map Prod.fst) h) (by decide)

/-! ### Documents that commits build -/

theorem encode_eq_string {field : String} {schema : Schema} {value : Datum} {desk : Desk} {stored : Json}
    (hn : value.isNull = false) (h : (Field.encode field schema value desk).1 = .ok stored) :
    ∃ text, stored = .string text := by
  unfold Field.encode at h
  rw [hn, if_neg Bool.false_ne_true] at h
  dsimp only at h
  split at h
  · split at h
    · cases h
    · obtain ⟨bytes, -, rfl⟩ := map_eq_ok h
      exact ⟨_, rfl⟩
  · unfold Field.encodeScalar at h
    split at h
    case h_8 =>
      split at h
      · cases h
        exact ⟨_, rfl⟩
      · cases h
    all_goals cases h
    all_goals exact ⟨_, rfl⟩

/-- A commit writes a field under its own name, as a string. -/
theorem field_of_mem_document {id : String} {record : Record} {desk left : Desk} {built : Document}
    (h : Commit.document id record desk = (.ok built, left)) {e : String × Json} (he : e ∈ built.body) :
    (∃ field ∈ record.schema.fields, field.name = e.1) ∧ ∃ text, e.2 = .string text := by
  obtain ⟨hmem, hreserved⟩ := List.mem_filter.1 he
  have hfind : built.find? e.1 = some e.2 := built.ascending.find?_of_mem hmem
  by_cases hw : e.1 ∈ Commit.written record
  · obtain ⟨position, field, hf, hname, hp⟩ := Commit.mem_written.1 hw
    obtain ⟨stored, henc, hstored⟩ := Commit.find?_document_of_puts h hf hp
    rw [hname, hfind] at hstored
    obtain rfl := Option.some.inj hstored
    have hn : ((record.get? position).getD .null).isNull = false := by
      rw [Commit.puts, Bool.and_eq_true] at hp
      simpa using hp.2
    exact ⟨⟨field, List.mem_of_getElem? hf, hname⟩, encode_eq_string hn henc⟩
  · rw [Commit.find?_document_of_not_mem h hw] at hfind
    split at hfind
    · rename_i hid
      rw [hid] at hreserved
      exact absurd hreserved (by decide)
    · cases hfind

/-- Nothing but strings is committed, so it takes a quote in the name of a field for the
rows of built documents to run together. -/
theorem delimited_document {id : String} {record : Record} {desk left : Desk} {built : Document}
    (hquote : ∀ field ∈ record.schema.fields, '"' ∉ field.name.toList)
    (h : Commit.document id record desk = (.ok built, left)) : Delimited ['"'] built.body where
  names e he c hc := by
    obtain ⟨⟨field, hf, hname⟩, -⟩ := field_of_mem_document h he
    intro hm
    obtain rfl := List.mem_singleton.1 hm
    exact hquote field hf (hname ▸ hc)
  opens e he := by
    obtain ⟨-, text, ht⟩ := field_of_mem_document h he
    exact ⟨'"', List.mem_singleton_self _, by rw [ht]; rfl⟩
  integral e he := by
    obtain ⟨-, text, ht⟩ := field_of_mem_document h he
    rw [ht]
    exact .string text

end Database
end Docket
