import Docket.Proofs.Blob.Layout
import Docket.Proofs.Blob.Typed
import Docket.Proofs.Schema.Rules

/-!
# Which values can be written

Only values of a schema can be written by it, but not all of them. Of a union the
writer enters the first branch that takes the value, and what a branch takes is
told by the outer shape: a branch of lists of integers takes a list of texts as
well, and if it stands first the writer does not come back from it. A value can be
written when the branch that is entered is one of its own wherever the writer meets
a union. By a schema whose unions leave no choice that is every value.
-/
namespace Docket.Blob

variable {s part branch : Schema} {branches : List Schema} {value inner : Datum}

/-- The schema writes the value in some bytes. -/
def Encodes (s : Schema) (value : Datum) : Prop :=
  ∃ bytes, encode s value = .ok bytes

/-- Wherever the writer meets a union, the first branch that takes the value there
admits it. -/
def FirstFits (s : Schema) (value : Datum) : Prop :=
  ∀ ⦃branches inner⦄, Layout s value (.union branches) inner →
    ∃ branch, branches.find? (takes · inner) = some branch ∧ branch.Admits inner

/-! ### The parts of what is written -/

theorem encodes_enum {name symbol : String} {symbols : List String} :
    Encodes (.enum name symbols) (.enum symbol) ↔ symbol ∈ symbols := by
  rw [Encodes, encode, Schema.ordinal?]
  cases ho : symbols.findIdx? (· = symbol) with
  | none =>
      refine iff_of_false nofun fun hm => ?_
      simpa using List.findIdx?_eq_none_iff.1 ho symbol hm
  | some ordinal =>
      obtain ⟨hl, he, -⟩ := List.findIdx?_eq_some_iff_getElem.1 ho
      refine iff_of_true ⟨_, rfl⟩ ?_
      rw [← of_decide_eq_true he]
      exact List.getElem_mem hl

theorem encodes_fixed {name : String} {size : UInt64} {bytes : List UInt8} :
    Encodes (.fixed name size) (.fixed bytes) ↔ bytes.length = size.toNat := by
  rw [Encodes, encode]
  split
  · rename_i hl
    exact iff_of_true ⟨_, rfl⟩ hl
  · rename_i hl
    exact iff_of_false nofun hl

theorem encodes_array {items : Schema} {listed : List Datum} :
    Encodes (.array items) (.array listed) ↔ ∀ value ∈ listed, Encodes items value := by
  rw [Encodes, encode, exists_map_eq_ok]
  exact exists_mapM_eq_ok

theorem encodes_map {values : Schema} {entries : List (String × Datum)} :
    Encodes (.map values) (.map entries) ↔ ∀ entry ∈ entries, Encodes values entry.2 := by
  rw [Encodes, encode, exists_map_eq_ok, exists_mapM_eq_ok]
  exact forall₂_congr fun entry _ => exists_map_eq_ok

theorem encodeFields_eq_ok_iff {fields : List Field} {listed : List Datum} :
    (∃ bytes, encodeFields fields listed = .ok bytes) ↔
      ∀ pair ∈ fields.zip listed, Encodes pair.1.schema pair.2 := by
  induction fields generalizing listed with
  | nil => exact iff_of_true ⟨[], rfl⟩ fun _ hm => absurd hm List.not_mem_nil
  | cons field fields ih =>
      cases listed with
      | nil => exact iff_of_true ⟨[], by simp [encodeFields]⟩ fun _ hm => absurd hm List.not_mem_nil
      | cons value listed =>
          obtain ⟨name, schema, default⟩ := field
          rw [List.zip_cons_cons, List.forall_mem_cons, ← ih, encodeFields, exists_bind_eq_ok]
          constructor
          · rintro ⟨first, hf, h⟩
            obtain ⟨others, ho, -⟩ := exists_bind_eq_ok.1 h
            exact ⟨⟨first, hf⟩, others, ho⟩
          · rintro ⟨⟨first, hf⟩, others, ho⟩
            exact ⟨first, hf, exists_bind_eq_ok.2 ⟨others, ho, _, rfl⟩⟩

theorem encodes_record {name : String} {fields : List Field} {listed : List Datum} :
    Encodes (.record name fields) (.record listed) ↔
      listed.length = fields.length ∧ ∀ pair ∈ fields.zip listed, Encodes pair.1.schema pair.2 := by
  rw [Encodes, encode]
  split
  · rename_i hl
    rw [and_iff_right hl]
    exact encodeFields_eq_ok_iff
  · rename_i hl
    exact iff_of_false nofun fun h => hl h.1

theorem encodeBranch_eq_ok_iff {position : Nat} :
    (∃ bytes, encodeBranch branches position value = .ok bytes) ↔
      ∃ branch, branches.find? (takes · value) = some branch ∧ Encodes branch value := by
  induction branches generalizing position with
  | nil => exact iff_of_false nofun nofun
  | cons branch rest ih =>
      rw [encodeBranch]
      cases ht : takes branch value with
      | true => simp [ht, exists_map_eq_ok, Encodes]
      | false => simp [ht, ih]

theorem encodes_union :
    Encodes (.union branches) value ↔
      ∃ branch, branches.find? (takes · value) = some branch ∧ Encodes branch value := by
  rw [Encodes, encode]
  exact encodeBranch_eq_ok_iff

/-! ### Every schema -/

theorem admits_of_encodes (h : Encodes s value) : s.Admits value := by
  induction s using Schema.children_induction generalizing value with
  | step s ih =>
    obtain ⟨bytes, hb⟩ := h
    cases s with
    | enum name symbols =>
        obtain ⟨symbol, ordinal, rfl, -, -⟩ := encode_enum_eq_ok hb
        exact .enum (encodes_enum.1 ⟨bytes, hb⟩)
    | fixed name size =>
        obtain ⟨rfl, hl⟩ := encode_fixed_eq_ok hb
        exact .fixed hl
    | array items =>
        obtain ⟨listed, parts, rfl, -, -⟩ := encode_array_eq_ok hb
        exact .array fun value hv => ih items (List.mem_singleton_self _) (encodes_array.1 ⟨bytes, hb⟩ value hv)
    | map values =>
        obtain ⟨entries, parts, rfl, -, -⟩ := encode_map_eq_ok hb
        exact .map fun entry he => ih values (List.mem_singleton_self _) (encodes_map.1 ⟨bytes, hb⟩ entry he)
    | record name fields =>
        obtain ⟨listed, rfl, hl, -⟩ := encode_record_eq_ok hb
        refine .record hl fun pair hp => ih _ ?_ ((encodes_record.1 ⟨bytes, hb⟩).2 pair hp)
        exact List.mem_map_of_mem (List.of_mem_zip hp).1
    | union branches =>
        obtain ⟨branch, hf, hbranch⟩ := encodes_union.1 ⟨bytes, hb⟩
        have hm : branch ∈ branches := List.mem_of_find?_eq_some hf
        exact .union hm (ih branch hm hbranch)
    | _ =>
        cases value <;> simp only [encode, reduceCtorEq] at hb
        constructor

/-- What is laid out inside what is written is written. -/
theorem Encodes.layout (h : Encodes s value) (hl : Layout s value part inner) : Encodes part inner := by
  induction hl with
  | self => exact h
  | item hv _ ih => exact ih (encodes_array.1 h _ hv)
  | entry he _ ih => exact ih (encodes_map.1 h _ he)
  | field hp _ ih => exact ih ((encodes_record.1 h).2 _ hp)
  | branch hf _ ih =>
      obtain ⟨found, hfound, hb⟩ := encodes_union.1 h
      rw [hf, Option.some.injEq] at hfound
      exact ih (hfound ▸ hb)

theorem firstFits_of_encodes (h : Encodes s value) : FirstFits s value := by
  intro branches inner hl
  obtain ⟨branch, hf, hb⟩ := encodes_union.1 (h.layout hl)
  exact ⟨branch, hf, admits_of_encodes hb⟩

theorem encodes_of_firstFits (ha : s.Admits value) (hf : FirstFits s value) : Encodes s value := by
  induction s using Schema.children_induction generalizing value with
  | step s ih =>
    cases ha with
    | enum hm => exact encodes_enum.2 hm
    | fixed hl => exact encodes_fixed.2 hl
    | @array items listed hv =>
        refine encodes_array.2 fun value hm => ih items (List.mem_singleton_self _) (hv value hm) ?_
        exact fun _ _ hl => hf (.item hm hl)
    | @map values entries he =>
        refine encodes_map.2 fun entry hm => ih values (List.mem_singleton_self _) (he entry hm) ?_
        exact fun _ _ hl => hf (.entry hm hl)
    | @record name fields listed hlen hp =>
        refine encodes_record.2 ⟨hlen, fun pair hm => ih pair.1.schema ?_ (hp pair hm) ?_⟩
        · exact List.mem_map_of_mem (List.of_mem_zip hm).1
        · exact fun _ _ hl => hf (.field hm hl)
    | @union admitting branches =>
        -- the branch entered need not be the one by which the value is known to be admitted
        obtain ⟨branch, hfirst, hb⟩ := hf (.self _ _)
        refine encodes_union.2 ⟨branch, hfirst, ih branch (List.mem_of_find?_eq_some hfirst) hb ?_⟩
        exact fun _ _ hl => hf (.branch hfirst hl)
    | _ => exact ⟨_, by rw [encode]⟩

theorem encodes_iff : Encodes s value ↔ s.Admits value ∧ FirstFits s value :=
  ⟨fun h => ⟨admits_of_encodes h, firstFits_of_encodes h⟩, fun h => encodes_of_firstFits h.1 h.2⟩

/-! ### Unions with no choice -/

/-- Whether the outer shape of a value can be right for both branches. -/
def overlap (a b : Schema) : Bool :=
  a.kind = b.kind &&
    match a, b with
    | .enum _ symbols, .enum _ others => symbols.any others.contains
    | .fixed _ size, .fixed _ other => size.toNat = other.toNat
    | .record _ fields, .record _ others => fields.length = others.length
    | _, _ => true

/-- If the schema itself is a union, no two of its branches take one value. -/
def SharesNothing : Schema → Prop
  | .union branches => branches.Pairwise fun a b => overlap a b = false
  | _ => True

/-- Nowhere in the schema is there a union with a choice. -/
def Unambiguous (s : Schema) : Prop :=
  s.Everywhere SharesNothing

instance : DecidablePred SharesNothing
  | .union branches => inferInstanceAs (Decidable (branches.Pairwise fun a b => overlap a b = false))
  | .null | .boolean | .int | .long | .float | .double | .string | .bytes | .enum _ _ | .fixed _ _ | .array _
  | .map _ | .record _ _ => isTrue trivial

instance : DecidablePred Unambiguous := fun s =>
  inferInstanceAs (Decidable (s.Everywhere SharesNothing))

theorem kind_eq_of_takes (h : takes s value = true) : s.kind = value.kind := by
  unfold takes at h
  split at h
  · rfl
  · rfl
  · rfl
  · exact of_decide_eq_true h

theorem overlap_of_takes {a b : Schema} (ha : takes a value = true) (hb : takes b value = true) :
    overlap a b = true := by
  have hk : a.kind = b.kind := (kind_eq_of_takes ha).trans (kind_eq_of_takes hb).symm
  unfold overlap
  rw [Bool.and_eq_true]
  refine ⟨decide_eq_true hk, ?_⟩
  split
  · cases value <;> simp [takes, Schema.kind, Datum.kind] at ha hb ⊢
    exact ⟨_, ha, hb⟩
  · cases value <;> simp [takes, Schema.kind, Datum.kind] at ha hb ⊢
    rw [ha, hb]
  · cases value <;> simp [takes, Schema.kind, Datum.kind] at ha hb ⊢
    rw [ha, hb]
  · rfl

theorem takes_of_admits (h : s.Admits value) (hk : s.kind ≠ .union) : takes s value = true := by
  cases h with
  | enum hm => simpa [takes] using hm
  | fixed hl => simpa [takes] using hl.symm
  | record hl _ => simpa [takes] using hl.symm
  | union => exact absurd rfl hk
  | _ => rfl

/-- Of branches that share nothing the first that takes a value is the only one. -/
theorem find?_eq_of_takes (hp : branches.Pairwise fun a b => overlap a b = false) (hm : branch ∈ branches)
    (ht : takes branch value = true) : branches.find? (takes · value) = some branch := by
  induction hp with
  | nil => exact absurd hm List.not_mem_nil
  | @cons first rest hfirst _ ih =>
      rcases List.mem_cons.1 hm with rfl | hm
      · exact List.find?_cons_of_pos ht
      · have hf : ¬takes first value = true := by
          intro hf
          have hb := hfirst branch hm
          rw [overlap_of_takes hf ht] at hb
          cases hb
        exact (List.find?_cons_of_neg (p := (takes · value)) hf).trans (ih hm)

/-- The value of a union without a choice is taken by the branch that admits it. -/
theorem find?_of_admits (hs : (Schema.union branches).Sound) (hu : Unambiguous (.union branches))
    (ha : (Schema.union branches).Admits value) :
    ∃ branch, branches.find? (takes · value) = some branch ∧ branch.Admits value := by
  obtain ⟨-, -, hn⟩ := hs _ (.self _)
  cases ha with
  | @union branch _ _ hm ha =>
      exact ⟨branch, find?_eq_of_takes (hu _ (.self _)) hm (takes_of_admits ha (hn branch hm)), ha⟩

theorem Layout.within {s : Schema} (h : Layout s value part inner) : part.Within s := by
  induction h with
  | self => exact .self _
  | item _ _ ih => exact .items ih
  | entry _ _ ih => exact .values ih
  | field hp _ ih => exact .field (List.of_mem_zip hp).1 ih
  | branch hf _ ih => exact .branch (List.mem_of_find?_eq_some hf) ih

/-- Without a choice the writer lays out values of the parts only. -/
theorem Layout.admits (h : Layout s value part inner) (hs : s.Sound) (hu : Unambiguous s) (ha : s.Admits value) :
    part.Admits inner := by
  induction h with
  | self => exact ha
  | @item items _ _ _ _ hv _ ih =>
      have hc : items ∈ (Schema.array items).children := List.mem_singleton_self _
      cases ha with
      | array hall => exact ih (hs.child hc) (hu.child hc) (hall _ hv)
  | @entry values _ _ _ _ he _ ih =>
      have hc : values ∈ (Schema.map values).children := List.mem_singleton_self _
      cases ha with
      | map hall => exact ih (hs.child hc) (hu.child hc) (hall _ he)
  | field hp _ ih =>
      have hc := List.mem_map_of_mem (f := Field.schema) (List.of_mem_zip hp).1
      cases ha with
      | record _ hall => exact ih (hs.child hc) (hu.child hc) (hall _ hp)
  | branch hf _ ih =>
      have hc := List.mem_of_find?_eq_some hf
      obtain ⟨found, hfound, hadmits⟩ := find?_of_admits hs hu ha
      rw [hf, Option.some.injEq] at hfound
      exact ih (hs.child hc) (hu.child hc) (hfound ▸ hadmits)

theorem firstFits_of_unambiguous (hs : s.Sound) (hu : Unambiguous s) (ha : s.Admits value) : FirstFits s value := by
  intro branches inner hl
  have below {P : Schema → Prop} (h : s.Everywhere P) : (Schema.union branches).Everywhere P :=
    fun part hp => h part (hp.trans hl.within)
  exact find?_of_admits (below hs) (below hu) (hl.admits hs hu ha)

/-- A value can be written if and only if it is one of the schema's and the first
branch that takes it, at any union that the writer meets, is a branch of its own.
What was read under the schema can be written again under that condition only; by
a checked schema whose unions leave no choice every value can be written. -/
theorem encode_ok_iff (s : Schema) (value : Datum) :
    ((∃ bytes, encode s value = .ok bytes) ↔ s.Admits value ∧ FirstFits s value) ∧
    (∀ bytes old, decode s bytes old = .ok value →
      ((∃ again, encode s value = .ok again) ↔ FirstFits s value)) ∧
    (s.check = .ok () → s.Built → Unambiguous s → ((∃ bytes, encode s value = .ok bytes) ↔ s.Admits value)) := by
  refine ⟨encodes_iff, ?_, ?_⟩
  · intro bytes old h
    obtain ⟨offset, hr⟩ := decode_eq_ok_iff.1 h
    have belongs : Belongs s value := gives_readDatum .everyBlock s old hr
    exact encodes_iff.trans (and_iff_right belongs.admits)
  · intro hc hb hu
    have hs : s.Sound := (Schema.check_eq_ok_iff hb).1 hc
    exact encodes_iff.trans (and_iff_left_of_imp fun ha => firstFits_of_unambiguous hs hu ha)

/-- A record of nothing, a suit, a court card or numbers and texts. -/
def cardSchema : Schema :=
  .record "card" [⟨"shown", .union [.null, .enum "suit" ["clubs", "spades"], .enum "court" ["queen", "king"],
    .array (.union [.int, .string])], none⟩]

/-- The branch of court cards is the first one that takes a king. -/
theorem encode_ok_king :
    decode cardSchema [4, 2] (.string "old") = .ok (.record [.enum "king"]) ∧
      (∃ again, encode cardSchema (.record [.enum "king"]) = .ok again) ∧
      FirstFits cardSchema (.record [.enum "king"]) := by
  have hread : decode cardSchema [4, 2] (.string "old") = .ok (.record [.enum "king"]) := rfl
  have hadmits : cardSchema.Admits (.record [.enum "king"]) :=
    .record rfl (List.forall_mem_singleton.2 (@Schema.Admits.union (.enum "court" ["queen", "king"]) _ _ (by simp)
      (.enum (by simp))))
  obtain ⟨-, hagain, hwritten⟩ := encode_ok_iff cardSchema (.record [.enum "king"])
  have hw := (hwritten rfl (by decide) (by decide)).2 hadmits
  exact ⟨hread, hw, (hagain [4, 2] (.string "old") hread).1 hw⟩

/-- Lists of numbers or lists of texts. -/
def listsSchema : Schema :=
  .union [.array .int, .array .string]

/-- A list of one text is read as a value of the schema, is taken for one of numbers
and cannot be written again. -/
theorem encode_refuses_texts :
    listsSchema.check = .ok () ∧ listsSchema.Built ∧ listsSchema.Admits (.array [.string "a"]) ∧
      decode listsSchema [2, 2, 2, 97, 0] .null = .ok (.array [.string "a"]) ∧
      encode listsSchema (.array [.string "a"]) = .error (.mismatch .int .string) := by
  have hadmits : listsSchema.Admits (.array [.string "a"]) :=
    @Schema.Admits.union (.array .string) _ _ (by simp) (.array (List.forall_mem_singleton.2 (.string "a")))
  exact ⟨rfl, by decide, hadmits, rfl, rfl⟩

end Docket.Blob
